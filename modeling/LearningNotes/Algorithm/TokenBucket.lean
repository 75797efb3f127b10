import LearningNotes.Lib.Word
import Mathlib.Tactic.Linarith
import Mathlib.Tactic.Ring
import Mathlib.Algebra.Order.Ring.Int

/-! The token bucket of `PreciseTokenBucket`: how many tokens it grants, and what polling costs. -/

namespace LearningNotes.Algorithm.TokenBucket

open Lib

def scaleFactor : Int := 1000

structure Bucket where
  capacity : Int
  /-- What the constructor makes of the rate per second. -/
  tokensPerMsScaled : Int
  tokens : Int
  lastRefillTimestamp : Int
deriving DecidableEq, Repr

def newBucket (capacity rate now : Int) : Bucket := ⟨capacity, rate, capacity, now⟩

def newTokens (b : Bucket) (now : Int) : Int :=
  (toLong (toLong (now - b.lastRefillTimestamp) * b.tokensPerMsScaled)).tdiv scaleFactor

def refill (b : Bucket) (now : Int) : Bucket :=
  let elapsedMs := toLong (now - b.lastRefillTimestamp)
  if elapsedMs ≤ 0 then b
  else if newTokens b now > 0 then
    { b with
      tokens := min b.capacity (toLong (b.tokens + newTokens b now))
      lastRefillTimestamp := now }
  else b

/-- `tryConsume`, where `refill` reads this clock. -/
def tryConsume (b : Bucket) (now numTokens : Int) : Bool × Bucket :=
  if numTokens > b.capacity then (false, b)
  else
    let b := refill b now
    if b.tokens ≥ numTokens then (true, { b with tokens := toLong (b.tokens - numTokens) })
    else (false, b)

def getCurrentTokens (b : Bucket) (now : Int) : Int × Bucket :=
  let b := refill b now
  (b.tokens, b)

/-- The results that a refill computes are in the range of `long`. -/
def RefillFits (b : Bucket) (now : Int) : Prop :=
  InLong (now - b.lastRefillTimestamp) ∧ (0 < now - b.lastRefillTimestamp →
    InLong ((now - b.lastRefillTimestamp) * b.tokensPerMsScaled) ∧
    InLong (b.tokens + (now - b.lastRefillTimestamp) * b.tokensPerMsScaled / scaleFactor))

instance (b : Bucket) (now : Int) : Decidable (RefillFits b now) :=
  inferInstanceAs (Decidable (_ ∧ (_ → _ ∧ _)))

/-! ### One refill -/

variable {b a : Bucket} {now capacity rate start : Int}

section

variable (fits : RefillFits b now)
include fits

theorem newTokens_eq (later : b.lastRefillTimestamp < now)
    (rate : 0 ≤ (now - b.lastRefillTimestamp) * b.tokensPerMsScaled) :
    newTokens b now = (now - b.lastRefillTimestamp) * b.tokensPerMsScaled / scaleFactor := by
  rw [newTokens, toLong_of_inLong fits.1, toLong_of_inLong (fits.2 (by omega)).1,
    Int.tdiv_eq_ediv_of_nonneg rate]

theorem refill_of_nonpos (rate : b.tokensPerMsScaled ≤ 0) : refill b now = b := by
  unfold refill
  dsimp only
  split
  · rfl
  rename_i later
  rw [toLong_of_inLong fits.1] at later
  -- The product is not positive, and neither is its quotient.
  have product : (now - b.lastRefillTimestamp) * b.tokensPerMsScaled ≤ 0 :=
    Int.mul_nonpos_of_nonneg_of_nonpos (by omega) rate
  have none : newTokens b now ≤ 0 := by
    rw [newTokens, toLong_of_inLong fits.1, toLong_of_inLong (fits.2 (by omega)).1]
    rw [← Int.neg_neg (_ * _), Int.neg_tdiv]
    exact Int.neg_nonpos_of_nonneg (Int.tdiv_nonneg (by omega) (by decide))
  rw [if_neg (by omega)]

theorem refill_of_pos (rate : 0 < b.tokensPerMsScaled) (later : b.lastRefillTimestamp < now) :
    let accrued := (now - b.lastRefillTimestamp) * b.tokensPerMsScaled / scaleFactor
    0 ≤ accrued ∧ refill b now =
      if 0 < accrued then
        { b with tokens := min b.capacity (b.tokens + accrued), lastRefillTimestamp := now }
      else b := by
  -- No sum or product runs over, so that they are those of integers.
  intro accrued
  have product : 0 ≤ (now - b.lastRefillTimestamp) * b.tokensPerMsScaled :=
    Int.mul_nonneg (by omega) (by omega)
  have added : newTokens b now = accrued := newTokens_eq fits later product
  refine ⟨Int.ediv_nonneg product (by decide), ?_⟩
  unfold refill
  rw [toLong_of_inLong fits.1, if_neg (by omega), added]
  split
  · rw [toLong_of_inLong (fits.2 (by omega)).2]
  · rfl

theorem refill_of_le (early : now ≤ b.lastRefillTimestamp) : refill b now = b := by
  unfold refill
  rw [toLong_of_inLong fits.1, if_pos (by omega)]

end

/-! ### How much is granted -/

/-- A bucket, the tokens it has granted and the latest clock it has read. -/
structure Account where
  bucket : Bucket
  granted : Int
  latest : Int
deriving DecidableEq, Repr

def openAccount (capacity rate now : Int) : Account := ⟨newBucket capacity rate now, 0, now⟩

/-- One call of `tryConsume`; more than the capacity is turned down before the clock is read. -/
def Account.consume (a : Account) (now numTokens : Int) : Account :=
  let (success, bucket) := tryConsume a.bucket now numTokens
  { bucket := bucket
    granted := if success then a.granted + numTokens else a.granted
    latest := if numTokens > a.bucket.capacity then a.latest else max a.latest now }

def Account.consumeAll (a : Account) (calls : List (Int × Int)) : Account :=
  calls.foldl (fun a call => a.consume call.1 call.2) a

def ConsumeFits (b : Bucket) (now numTokens : Int) : Prop :=
  numTokens ≤ b.capacity → RefillFits b now ∧ InLong ((refill b now).tokens - numTokens)

instance (b : Bucket) (now numTokens : Int) : Decidable (ConsumeFits b now numTokens) :=
  inferInstanceAs (Decidable (_ → _))

def CallsFit : Bucket → List (Int × Int) → Prop
  | _, [] => True
  | b, (now, numTokens) :: calls =>
    ConsumeFits b now numTokens ∧ CallsFit (tryConsume b now numTokens).2 calls

instance decidableCallsFit : ∀ (b : Bucket) (calls : List (Int × Int)), Decidable (CallsFit b calls)
  | _, [] => isTrue trivial
  | b, (now, numTokens) :: calls =>
    have := decidableCallsFit (tryConsume b now numTokens).2 calls
    inferInstanceAs (Decidable (_ ∧ _))

/-- What was granted or is still there was in the bucket at the start, or has accrued since. -/
structure Covered (capacity rate start : Int) (a : Account) : Prop where
  sameCapacity : a.bucket.capacity = capacity
  sameRate : a.bucket.tokensPerMsScaled = rate
  balance : a.granted + a.bucket.tokens ≤
    capacity + rate * (a.bucket.lastRefillTimestamp - start) / scaleFactor
  positive : 0 ≤ capacity → 0 ≤ a.bucket.tokens
  negative : capacity < 0 → a.granted = 0
  since : start ≤ a.bucket.lastRefillTimestamp
  still : rate ≤ 0 → a.bucket.lastRefillTimestamp = start
  seen : a.bucket.lastRefillTimestamp ≤ a.latest

theorem openAccount_covered (capacity rate now : Int) :
    Covered capacity rate now (openAccount capacity rate now) := by
  refine ⟨rfl, rfl, ?_, id, fun _ => rfl, le_refl _, fun _ => rfl, le_refl _⟩
  simp [openAccount, newBucket]

theorem accrued_add_le (rate first second : Int) :
    rate * first / scaleFactor + second * rate / scaleFactor ≤
      rate * (first + second) / scaleFactor := by
  -- Rounding down twice gives no more than rounding down once.
  rw [mul_add, mul_comm rate second]
  unfold scaleFactor
  omega

theorem Covered.refill {a : Account} (covered : Covered capacity rate start a)
    (fits : RefillFits a.bucket now) :
    Covered capacity rate start
      { a with bucket := refill a.bucket now, latest := max a.latest now } := by
  have seen : a.bucket.lastRefillTimestamp ≤ max a.latest now :=
    le_trans covered.seen (le_max_left _ _)
  have same : Covered capacity rate start { a with latest := max a.latest now } :=
    { covered with seen := seen }
  by_cases nothing : rate ≤ 0
  · rw [refill_of_nonpos fits (covered.sameRate.trans_le nothing)]
    exact same
  by_cases early : now ≤ a.bucket.lastRefillTimestamp
  · rw [refill_of_le fits early]
    exact same
  -- The clock has moved on, at a positive rate.
  obtain ⟨nonneg, added⟩ := refill_of_pos fits (by rw [covered.sameRate]; omega) (by omega)
  rw [added]
  split
  · refine ⟨covered.sameCapacity, covered.sameRate, ?_, ?_, covered.negative, ?_, ?_, ?_⟩
    · have balance := covered.balance
      have more := accrued_add_le rate (a.bucket.lastRefillTimestamp - start)
        (now - a.bucket.lastRefillTimestamp)
      have whole : a.bucket.lastRefillTimestamp - start + (now - a.bucket.lastRefillTimestamp) =
          now - start := by omega
      have least := min_le_right a.bucket.capacity (a.bucket.tokens +
        (now - a.bucket.lastRefillTimestamp) * a.bucket.tokensPerMsScaled / scaleFactor)
      rw [whole] at more
      rw [covered.sameRate] at least ⊢
      linarith
    · intro positive
      have tokens := covered.positive positive
      have room := covered.sameCapacity
      exact le_min (by omega) (by omega)
    · dsimp only
      have := covered.since
      omega
    · exact fun still => absurd still nothing
    · exact le_max_right _ _
  · exact same

theorem Covered.consume {a : Account} {numTokens : Int} (covered : Covered capacity rate start a)
    (amount : 0 ≤ numTokens) (fits : ConsumeFits a.bucket now numTokens) :
    Covered capacity rate start (a.consume now numTokens) := by
  unfold Account.consume tryConsume
  by_cases beyond : numTokens > a.bucket.capacity
  · simp only [if_pos beyond]
    exact covered
  simp only [if_neg beyond]
  obtain ⟨fits, difference⟩ := fits (by omega)
  have refilled := covered.refill fits
  split
  · rw [toLong_of_inLong difference]
    have balance := refilled.balance
    have room := covered.sameCapacity
    refine ⟨refilled.sameCapacity, refilled.sameRate, ?_, ?_, ?_, refilled.since, refilled.still,
      refilled.seen⟩
    · dsimp only at balance ⊢
      omega
    · dsimp only
      omega
    · -- A bucket without room has turned the call down.
      omega
  · exact refilled

theorem Covered.consumeAll {calls : List (Int × Int)} {a : Account}
    (covered : Covered capacity rate start a) (amounts : ∀ call ∈ calls, 0 ≤ call.2)
    (fits : CallsFit a.bucket calls) :
    Covered capacity rate start (a.consumeAll calls) := by
  -- Call by call; the induction is on the calls that are left.
  induction calls generalizing a with
  | nil => exact covered
  | cons call calls ih =>
    have first := covered.consume (amounts call List.mem_cons_self) fits.1
    exact ih first (fun later member => amounts later (List.mem_cons_of_mem _ member)) fits.2

/-- No more is granted than the capacity and what accrues until the latest clock that was read; a
negative capacity or rate counts for nothing. -/
theorem granted_le {capacity rate start : Int} {calls : List (Int × Int)}
    (amounts : ∀ call ∈ calls, 0 ≤ call.2) (fits : CallsFit (newBucket capacity rate start) calls) :
    let a := (openAccount capacity rate start).consumeAll calls
    a.granted ≤ max 0 capacity + max 0 (rate * (a.latest - start) / scaleFactor) := by
  intro a
  have covered : Covered capacity rate start a :=
    (openAccount_covered capacity rate start).consumeAll amounts fits
  have balance := covered.balance
  by_cases negative : capacity < 0
  · rw [covered.negative negative]
    omega
  have tokens := covered.positive (by omega)
  by_cases still : rate ≤ 0
  · rw [covered.still still] at balance
    simp only [sub_self, mul_zero, Int.zero_ediv] at balance
    omega
  -- What had accrued at the last refill has accrued at the latest clock.
  have product : rate * (a.bucket.lastRefillTimestamp - start) ≤ rate * (a.latest - start) :=
    Int.mul_le_mul_of_nonneg_left (by have := covered.seen; omega) (by omega)
  have quotient : rate * (a.bucket.lastRefillTimestamp - start) / scaleFactor ≤
      rate * (a.latest - start) / scaleFactor := Int.ediv_le_ediv (by decide) product
  omega

/-- A bucket of ten tokens that gets two more in a second, while the clock once goes back. -/
theorem granted_le_ten :
    let calls := [(0, 8), (500, 3), (400, 1), (1500, 2)]
    CallsFit (newBucket 10 2 0) calls ∧
      ((openAccount 10 2 0).consumeAll calls).granted ≤ max 0 10 + max 0 (2 * (1500 - 0) / 1000) :=
  ⟨by decide +kernel, granted_le (by decide) (by decide +kernel)⟩

/-- Without taking negative numbers for nothing, the bound is not kept: a bucket that is constructed
with a negative rate still grants what it held. -/
theorem granted_beyond_negative_rate :
    ¬ ∀ (capacity rate start : Int) (calls : List (Int × Int)), (∀ call ∈ calls, 0 ≤ call.2) →
      CallsFit (newBucket capacity rate start) calls →
      let a := (openAccount capacity rate start).consumeAll calls
      a.granted ≤ capacity + rate * (a.latest - start) / scaleFactor := by
  intro bounded
  exact absurd (bounded 1 (-1) 0 [(1000, 1)] (by decide) (by decide +kernel)) (by decide +kernel)

/-! ### What polling costs -/

inductive Call where
  | getCurrentTokens
  | tryConsume (numTokens : Int)
deriving DecidableEq, Repr

def call (b : Bucket) : Int × Call → Bucket
  | (now, .getCurrentTokens) => (getCurrentTokens b now).2
  | (now, .tryConsume numTokens) => (tryConsume b now numTokens).2

def callAll (b : Bucket) (calls : List (Int × Call)) : Bucket := calls.foldl call b

/-- A call only looks at the bucket: it asks for the tokens, or for too many. -/
def Polls (b : Bucket) : Int × Call → Prop
  | (_, .getCurrentTokens) => True
  | (now, .tryConsume numTokens) => (tryConsume b now numTokens).1 = false

/-- The second calls are the first ones with polls in between. -/
inductive Interspersed : Bucket → List (Int × Call) → List (Int × Call) → Prop where
  | nil (b : Bucket) : Interspersed b [] []
  | same {b : Bucket} {calls others : List (Int × Call)} (made : Int × Call)
      (rest : Interspersed (call b made) calls others) :
      Interspersed b (made :: calls) (made :: others)
  | poll {b : Bucket} {calls others : List (Int × Call)} (made : Int × Call)
      (polls : Polls b made) (rest : Interspersed (call b made) calls others) :
      Interspersed b calls (made :: others)

def ReadsClock (b : Bucket) : Call → Prop
  | .getCurrentTokens => True
  | .tryConsume numTokens => numTokens ≤ b.capacity

def StaysBelow (b : Bucket) (now : Int) : Prop :=
  b.tokens + (now - b.lastRefillTimestamp) * b.tokensPerMsScaled / scaleFactor ≤ b.capacity

instance (b : Bucket) (now : Int) : Decidable (StaysBelow b now) :=
  inferInstanceAs (Decidable (_ ≤ _))

/-- A refill at a clock not gone back that stays in range and below the capacity. -/
structure Regular (b : Bucket) (now : Int) : Prop where
  fits : RefillFits b now
  forward : b.lastRefillTimestamp ≤ now
  below : StaysBelow b now

/-- A refill that adds tokens drops no fraction of a token. -/
def Exact (b : Bucket) (now : Int) : Prop :=
  0 < newTokens b now → scaleFactor ∣ (now - b.lastRefillTimestamp) * b.tokensPerMsScaled

def AllExact : Bucket → List (Int × Call) → Prop
  | _, [] => True
  | b, made :: calls =>
    (ReadsClock b made.2 → Regular b made.1 ∧ Exact b made.1) ∧ AllExact (call b made) calls

/-- The tokens of a bucket without what has to accrue until its last refill. -/
def worth (b : Bucket) : Int :=
  scaleFactor * b.tokens - b.tokensPerMsScaled * b.lastRefillTimestamp

/-- Two buckets that will show the same tokens. -/
structure Alike (a b : Bucket) : Prop where
  capacity : b.capacity = a.capacity
  rate : b.tokensPerMsScaled = a.tokensPerMsScaled
  worth : worth b = worth a
  still : a.tokensPerMsScaled ≤ 0 → b = a

theorem Alike.refl (b : Bucket) : Alike b b := ⟨rfl, rfl, rfl, fun _ => rfl⟩

theorem refill_frame (b : Bucket) (now : Int) :
    (refill b now).capacity = b.capacity ∧
      (refill b now).tokensPerMsScaled = b.tokensPerMsScaled := by
  -- All branches keep both fields.
  unfold refill
  dsimp only
  split
  · exact ⟨rfl, rfl⟩
  · split <;> exact ⟨rfl, rfl⟩

theorem refill_tokens (regular : Regular b now) (rate : 0 < b.tokensPerMsScaled) :
    (refill b now).tokens = (worth b + b.tokensPerMsScaled * now) / scaleFactor := by
  -- The tokens that are there are whole, so that they may be added before the division.
  have split : worth b + b.tokensPerMsScaled * now =
      scaleFactor * b.tokens + (now - b.lastRefillTimestamp) * b.tokensPerMsScaled := by
    unfold worth
    ring
  rw [split, Int.mul_add_ediv_left _ _ (by decide)]
  by_cases early : now ≤ b.lastRefillTimestamp
  · obtain rfl : now = b.lastRefillTimestamp := le_antisymm early regular.forward
    rw [refill_of_le regular.fits (le_refl _)]
    simp
  obtain ⟨nonneg, added⟩ := refill_of_pos regular.fits rate (by omega)
  have below := regular.below
  rw [added]
  by_cases some : 0 < (now - b.lastRefillTimestamp) * b.tokensPerMsScaled / scaleFactor
  · rw [if_pos some]
    exact min_eq_right below
  · rw [if_neg some]
    omega

theorem refill_worth (regular : Regular b now) (exact_ : Exact b now) :
    worth (refill b now) = worth b := by
  by_cases nothing : b.tokensPerMsScaled ≤ 0
  · rw [refill_of_nonpos regular.fits nothing]
  by_cases early : now ≤ b.lastRefillTimestamp
  · rw [refill_of_le regular.fits early]
  have product : 0 ≤ (now - b.lastRefillTimestamp) * b.tokensPerMsScaled :=
    Int.mul_nonneg (by omega) (by omega)
  obtain ⟨_, added⟩ := refill_of_pos regular.fits (by omega) (by omega)
  rw [added]
  split
  · -- What is added is a whole number of tokens, for all of the time that has passed.
    have below := regular.below
    have whole := Int.mul_ediv_cancel' (exact_ (by rwa [newTokens_eq regular.fits (by omega) product]))
    unfold worth
    rw [min_eq_right below, mul_add, whole]
    ring
  · rfl

theorem Alike.refill_tokens (alike : Alike a b) (first : Regular a now) (second : Regular b now) :
    (refill b now).tokens = (refill a now).tokens := by
  -- Without a rate the buckets are equal; with one their worth decides.
  by_cases nothing : a.tokensPerMsScaled ≤ 0
  · rw [alike.still nothing]
  · have positive : 0 < a.tokensPerMsScaled := by omega
    rw [TokenBucket.refill_tokens first positive,
      TokenBucket.refill_tokens second (alike.rate ▸ positive), alike.worth, alike.rate]

theorem Alike.refill (alike : Alike a b) (first : Regular a now ∧ Exact a now)
    (second : Regular b now ∧ Exact b now) :
    Alike (refill a now) (refill b now) := by
  -- A refill without remainder changes no worth.
  obtain ⟨capacity, rate⟩ := refill_frame a now
  obtain ⟨capacity', rate'⟩ := refill_frame b now
  refine ⟨by rw [capacity', capacity, alike.capacity], by rw [rate', rate, alike.rate], ?_, ?_⟩
  · rw [refill_worth second.1 second.2, refill_worth first.1 first.2, alike.worth]
  · intro nothing
    rw [alike.still (rate ▸ nothing)]

theorem Alike.poll {made : Int × Call} (alike : Alike a b) (polls : Polls b made)
    (exact_ : ReadsClock b made.2 → Regular b made.1 ∧ Exact b made.1) : Alike a (call b made) := by
  -- A call that is not granted does at most what a refill does.
  have refilled : ∀ now, Regular b now ∧ Exact b now → Alike a (TokenBucket.refill b now) := by
    rintro now ⟨regular, exact_⟩
    obtain ⟨capacity, rate⟩ := refill_frame b now
    refine ⟨by rw [capacity, alike.capacity], by rw [rate, alike.rate],
      by rw [refill_worth regular exact_, alike.worth], ?_⟩
    intro nothing
    rw [refill_of_nonpos regular.fits (alike.rate.trans_le nothing), alike.still nothing]
  obtain ⟨now, asked⟩ := made
  cases asked with
  | getCurrentTokens => exact refilled now (exact_ trivial)
  | tryConsume numTokens =>
    simp only [TokenBucket.call, tryConsume]
    simp only [Polls, tryConsume] at polls
    by_cases beyond : numTokens > b.capacity
    · rw [if_pos beyond]
      exact alike
    rw [if_neg beyond] at polls ⊢
    by_cases enough : (TokenBucket.refill b now).tokens ≥ numTokens
    · rw [if_pos enough] at polls
      cases polls
    · rw [if_neg enough]
      exact refilled now (exact_ (by unfold ReadsClock; omega))

theorem Alike.call {made : Int × Call} (alike : Alike a b)
    (first : ReadsClock a made.2 → Regular a made.1 ∧ Exact a made.1)
    (second : ReadsClock b made.2 → Regular b made.1 ∧ Exact b made.1) :
    Alike (call a made) (call b made) := by
  obtain ⟨now, asked⟩ := made
  cases asked with
  | getCurrentTokens => exact alike.refill (first trivial) (second trivial)
  | tryConsume numTokens =>
    unfold TokenBucket.call tryConsume
    dsimp only
    rw [alike.capacity]
    by_cases beyond : numTokens > a.capacity
    · rw [if_pos beyond, if_pos beyond]
      exact alike
    rw [if_neg beyond]
    have clock : ReadsClock a (.tryConsume numTokens) := by unfold ReadsClock; omega
    have clock' : ReadsClock b (.tryConsume numTokens) := by
      unfold ReadsClock
      rw [alike.capacity]
      omega
    have refilled := alike.refill (first clock) (second clock')
    -- The same tokens are there, so that both calls are granted or none.
    rw [alike.refill_tokens (first clock).1 (second clock').1]
    split
    · refine ⟨refilled.capacity, refilled.rate, ?_, ?_⟩
      · have tokens := alike.refill_tokens (first clock).1 (second clock').1
        have same := refilled.worth
        unfold TokenBucket.worth at same ⊢
        rw [tokens] at same
        linarith
      · intro nothing
        rw [refilled.still nothing]
    · exact refilled

theorem Alike.callAll {calls others : List (Int × Call)}
    (interspersed : Interspersed b calls others) {a : Bucket} (alike : Alike a b)
    (first : AllExact a calls) (second : AllExact b others) :
    Alike (callAll a calls) (callAll b others) := by
  -- The induction follows the way in which the polls are put between the calls.
  induction interspersed generalizing a with
  | nil b => exact alike
  | same made rest ih => exact ih (alike.call first.1 second.1) first.2 second.2
  | poll made polls rest ih =>
    exact ih (alike.poll polls second.1) first second.2

/-- Polling in between does not change what is shown in the end, as long as no refill that adds
tokens drops a fraction of one. -/
theorem polling_harmless {b : Bucket} {calls others : List (Int × Call)} {final : Int}
    (interspersed : Interspersed b calls others) (first : AllExact b calls)
    (second : AllExact b others) (end_ : Regular (callAll b calls) final)
    (end' : Regular (callAll b others) final) :
    (getCurrentTokens (callAll b others) final).1 = (getCurrentTokens (callAll b calls) final).1 :=
  (Alike.callAll interspersed (.refl b) first second).refill_tokens end_ end'

def slowBucket : Bucket := ⟨10, 1, 0, 0⟩

/-- Polls after whole seconds do not matter half a second later. -/
theorem polling_harmless_seconds :
    (getCurrentTokens (callAll slowBucket [(1000, .getCurrentTokens), (2000, .tryConsume 5)]) 2500).1
      = (getCurrentTokens slowBucket 2500).1 := by
  -- Each look at the clock is a whole number of tokens after the last one.
  have regular : ∀ b now, RefillFits b now → b.lastRefillTimestamp ≤ now → StaysBelow b now →
      Regular b now := fun _ _ fits forward below => ⟨fits, forward, below⟩
  refine @polling_harmless slowBucket [] _ 2500
    (.poll _ trivial (.poll _ (by unfold Polls; decide +kernel) (.nil _))) trivial
    ⟨fun _ => ⟨?_, fun _ => by decide +kernel⟩, fun _ => ⟨?_, fun _ => by decide +kernel⟩, trivial⟩
    ?_ ?_
  all_goals exact regular _ _ (by decide +kernel) (by decide +kernel) (by decide +kernel)

/-- A poll after one and a half seconds costs the half second: the bucket shows one token less half
a second later, although it is far from full. -/
theorem polling_drops_fraction :
    Interspersed slowBucket [] [(1500, .getCurrentTokens)] ∧
      (Regular slowBucket 1500 ∧ Regular slowBucket 2000 ∧
        Regular (callAll slowBucket [(1500, .getCurrentTokens)]) 2000) ∧
      (getCurrentTokens slowBucket 2000).1 = 2 ∧
      (getCurrentTokens (callAll slowBucket [(1500, .getCurrentTokens)]) 2000).1 = 1 := by
  refine ⟨.poll _ trivial (.nil _), ⟨⟨?_, ?_, ?_⟩, ⟨?_, ?_, ?_⟩, ⟨?_, ?_, ?_⟩⟩, ?_, ?_⟩
  all_goals decide +kernel

/-! ### How many tokens are stored -/

def Bounded (b : Bucket) : Prop := 0 ≤ b.tokens ∧ b.tokens ≤ b.capacity

/-- Every count that is stored lies between zero and the capacity, also those inside a call. -/
def StaysBounded : Bucket → List (Int × Call) → Prop
  | b, [] => Bounded b
  | b, made :: calls =>
    Bounded b ∧ (ReadsClock b made.2 → Bounded (refill b made.1)) ∧ StaysBounded (call b made) calls

def SumFits (b : Bucket) (now : Int) : Prop :=
  0 < toLong (now - b.lastRefillTimestamp) → b.tokens + newTokens b now < 2 ^ 63

/-- A granted request leaves room: a negative one puts tokens into the bucket. -/
def LeavesRoom (b : Bucket) : Call → Prop
  | .getCurrentTokens => True
  | .tryConsume numTokens => numTokens ≤ b.tokens → b.tokens - numTokens ≤ b.capacity

def CallsHarmless : Bucket → List (Int × Call) → Prop
  | _, [] => True
  | b, made :: calls =>
    (ReadsClock b made.2 → SumFits b made.1 ∧ LeavesRoom (refill b made.1) made.2) ∧
      CallsHarmless (call b made) calls

def Call.InLong : Call → Prop
  | .getCurrentTokens => True
  | .tryConsume numTokens => Lib.InLong numTokens

theorem newTokens_lt (b : Bucket) (now : Int) : newTokens b now < 2 ^ 63 := by
  have bound := (inLong_toLong (toLong (now - b.lastRefillTimestamp) * b.tokensPerMsScaled)).2
  unfold newTokens scaleFactor
  grind

theorem refill_bounded_iff (bounded : Bounded b) (room : b.capacity < 2 ^ 63) :
    Bounded (refill b now) ↔ SumFits b now := by
  obtain ⟨nonneg, most⟩ := bounded
  have small := newTokens_lt b now
  unfold refill SumFits
  by_cases later : toLong (now - b.lastRefillTimestamp) ≤ 0
  · rw [if_pos later]
    exact iff_of_true ⟨nonneg, most⟩ fun after => by omega
  rw [if_neg later]
  by_cases some : newTokens b now > 0
  · -- A sum that is too large becomes negative.
    rw [if_pos some, Bounded, toLong]
    dsimp only
    omega
  · rw [if_neg some]
    exact iff_of_true ⟨nonneg, most⟩ fun _ => by omega

theorem consume_bounded_iff {numTokens : Int} (bounded : Bounded b) (room : b.capacity < 2 ^ 63)
    (amount : InLong numTokens) (enough : numTokens ≤ b.tokens) :
    Bounded { b with tokens := toLong (b.tokens - numTokens) } ↔
      b.tokens - numTokens ≤ b.capacity := by
  obtain ⟨nonneg, most⟩ := bounded
  obtain ⟨low, -⟩ := amount
  rw [Bounded, toLong]
  dsimp only
  omega

theorem call_capacity (b : Bucket) (made : Int × Call) : (call b made).capacity = b.capacity := by
  obtain ⟨now, asked⟩ := made
  cases asked with
  | getCurrentTokens => exact (refill_frame b now).1
  | tryConsume numTokens =>
    unfold call tryConsume
    dsimp only
    split
    · rfl
    split
    · exact (refill_frame b now).1
    · exact (refill_frame b now).1

theorem call_bounded_iff {made : Int × Call} (bounded : Bounded b) (room : b.capacity < 2 ^ 63)
    (amount : made.2.InLong) :
    (ReadsClock b made.2 → Bounded (refill b made.1)) ∧ Bounded (call b made) ↔
      (ReadsClock b made.2 → SumFits b made.1 ∧ LeavesRoom (refill b made.1) made.2) := by
  obtain ⟨now, asked⟩ := made
  have refilled := @refill_bounded_iff b now bounded room
  cases asked with
  | getCurrentTokens => simp [ReadsClock, call, getCurrentTokens, LeavesRoom, refilled]
  | tryConsume numTokens =>
    simp only [ReadsClock, call, tryConsume, LeavesRoom, refilled]
    by_cases beyond : numTokens > b.capacity
    · rw [if_pos beyond]
      exact iff_of_true ⟨fun reads => by omega, bounded⟩ fun reads => by omega
    rw [if_neg beyond]
    have reads : numTokens ≤ b.capacity := by omega
    simp only [reads, true_imp_iff]
    refine and_congr_right fun fits => ?_
    have still := refilled.mpr fits
    by_cases enough : numTokens ≤ (refill b now).tokens
    · rw [if_pos enough]
      simp only [enough, true_imp_iff]
      exact consume_bounded_iff still ((refill_frame b now).1 ▸ room) amount enough
    · rw [if_neg enough]
      exact iff_of_true still fun granted => absurd granted enough

theorem staysBounded_iff {calls : List (Int × Call)} (bounded : Bounded b)
    (room : b.capacity < 2 ^ 63) (amounts : ∀ made ∈ calls, made.2.InLong) :
    StaysBounded b calls ↔ CallsHarmless b calls := by
  -- Call by call; what a call keeps is what the next one starts from.
  induction calls generalizing b with
  | nil => exact iff_of_true bounded trivial
  | cons made calls ih =>
    have first := call_bounded_iff bounded room (amounts made List.mem_cons_self)
    have later : ∀ made ∈ calls, made.2.InLong := fun other member =>
      amounts other (List.mem_cons_of_mem _ member)
    have room' : (call b made).capacity < 2 ^ 63 := by rwa [call_capacity]
    have start : StaysBounded (call b made) calls → Bounded (call b made) := by
      cases calls with
      | nil => exact id
      | cons next calls => exact And.left
    rw [StaysBounded, CallsHarmless, ← first]
    constructor
    · rintro ⟨-, refilled, rest⟩
      exact ⟨⟨refilled, start rest⟩, (ih (start rest) room' later).mp rest⟩
    · rintro ⟨⟨refilled, kept⟩, rest⟩
      exact ⟨bounded, refilled, (ih kept room' later).mpr rest⟩

/-- The counts stay between zero and the capacity just if no refill makes too large a sum and no
negative request puts in more than there is room for. -/
theorem tokens_bounded_iff {capacity rate start : Int} {calls : List (Int × Call)}
    (positive : 0 < capacity) (room : capacity < 2 ^ 63)
    (amounts : ∀ made ∈ calls, made.2.InLong) :
    StaysBounded (newBucket capacity rate start) calls ↔
      CallsHarmless (newBucket capacity rate start) calls :=
  staysBounded_iff ⟨Int.le_of_lt positive, le_refl _⟩ room amounts

/-- Three of ten tokens are taken, and a second later there are some more. -/
theorem tokens_bounded_ten :
    StaysBounded (newBucket 10 2 0) [(500, .tryConsume 3), (1500, .getCurrentTokens)] := by
  refine (tokens_bounded_iff (by decide) (by decide) ?_).mpr
    ⟨fun _ => ⟨fun _ => by decide +kernel, fun _ => by decide +kernel⟩,
      fun _ => ⟨fun _ => by decide +kernel, trivial⟩, trivial⟩
  simp [Call.InLong, InLong]

/-- A request for -1 token fills a full bucket further. -/
theorem negative_request_overfills :
    (callAll (newBucket 10 2 0) [(0, .tryConsume (-1))]).tokens = 11 := by
  decide +kernel

end LearningNotes.Algorithm.TokenBucket
