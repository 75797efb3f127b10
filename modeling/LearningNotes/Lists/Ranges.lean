import LearningNotes.Lib.Decimal
import LearningNotes.Lib.Word

/-! Ranges of lists as they are replied, in `t_list.c`. -/

namespace LearningNotes.Lists

open Lib List

/-- The position that `quicklistIndex` finds; a negative index counts from the tail. -/
def quicklistIndex (elements : List Bytes) (idx : Int) : Option Nat :=
  let index := if idx < 0 then (-idx - 1).toNat else idx.toNat
  if elements.length ≤ index then none
  else some (if idx < 0 then elements.length - 1 - index else index)

/-- The elements that an iterator visits from a position on. -/
def visited (elements : List Bytes) (reverse : Bool) (position : Nat) : List Bytes :=
  if reverse then (elements.take (position + 1)).reverse else elements.drop position

/-- The loop of `addListRangeReply`; a step behind the last element leaves no entry. -/
def emit : Nat → List Bytes → List Bytes
  | 0, _ => []
  | rangelen + 1, [] => decimal (-123456789) :: emit rangelen []
  | rangelen + 1, element :: rest => element :: emit rangelen rest

/-- The first and the last position of a range, if it is not empty. -/
def bounds (llen start last : Int) : Option (Int × Int) :=
  let start := if start < 0 then llen + start else start
  let last := if last < 0 then llen + last else last
  let start := if start < 0 then 0 else start
  if start > last ∨ start ≥ llen then none
  else some (start, if last ≥ llen then llen - 1 else last)

/-- The elements that `addListRangeReply` replies. The first position is an `int`. -/
def addListRangeReply (elements : List Bytes) (start last : Int) (reverse : Bool) : List Bytes :=
  match bounds elements.length start last with
  | none => []
  | some (start, last) =>
    let iterator := quicklistIndex elements (toInt32 (if reverse then last else start))
    emit (last - start + 1).toNat (iterator.elim [] (visited elements reverse))

/-- A command that replies a range; LPOP and RPOP with a count of zero do not come to it. -/
inductive Request where
  | lrange (start last : Int)
  | lpop (count : Nat) (some : 0 < count)
  | rpop (count : Nat) (some : 0 < count)

/-- The start, the end and whether the range is reversed. -/
def Request.range (llen : Nat) : Request → Int × Int × Bool
  | .lrange start last => (start, last, false)
  | .lpop count _ => (0, (if count > llen then llen else count : Nat) - 1, false)
  | .rpop count _ => (-(if count > llen then llen else count : Nat), -1, true)

def Request.reply (request : Request) (elements : List Bytes) : List Bytes :=
  let (start, last, reverse) := request.range elements.length
  addListRangeReply elements start last reverse

/-! ### The elements of the range -/

/-- The elements at the positions of a range, in its direction. -/
def inRange (elements : List Bytes) (start last : Int) (reverse : Bool) : List Bytes :=
  match bounds elements.length start last with
  | none => []
  | some (start, last) =>
    let range := (elements.drop start.toNat).take (last - start + 1).toNat
    if reverse then range.reverse else range

/-- A position is found again from the `int` it is turned into. -/
def Reachable (llen position : Int) : Prop :=
  position < 2 ^ 31 ∨ 2 ^ 32 ∣ llen ∧ llen - position ≤ 2 ^ 31

variable {elements : List Bytes} {llen position start last : Int} {reverse : Bool}

theorem bounds_spec {first final : Int} (range : bounds llen start last = some (first, final)) :
    0 ≤ first ∧ first ≤ final ∧ final < llen := by
  grind [bounds]

theorem emit_eq {n : Nat} (enough : n ≤ elements.length) : emit n elements = elements.take n := by
  induction n generalizing elements with
  | zero => rfl
  | succ n ih =>
    cases elements with
    | nil => simp at enough
    | cons element rest => rw [emit, ih (by simpa using enough), take_succ_cons]

theorem head?_emit {n : Nat} :
    (emit (n + 1) elements).head? = some (elements.head?.getD (decimal (-123456789))) := by
  cases elements <;> rfl

theorem head?_visited {position : Nat} (inside : position < elements.length) :
    (visited elements reverse position).head? = elements[position]? := by
  unfold visited
  split
  · rw [head?_reverse, getLast?_take, if_neg (by omega), Nat.add_sub_cancel,
      getElem?_eq_getElem inside]
    rfl
  · rw [head?_drop]

theorem quicklistIndex_iff (low : 0 ≤ position) (high : position < elements.length) :
    quicklistIndex elements (toInt32 position) = some position.toNat ↔
      Reachable elements.length position := by
  have wrapped : toInt32 position =
      if position % 2 ^ 32 < 2 ^ 31 then position % 2 ^ 32 else position % 2 ^ 32 - 2 ^ 32 := by
    rw [toInt32]
    omega
  unfold quicklistIndex Reachable
  dsimp only
  rw [wrapped]
  split_ifs <;> simp <;> omega

theorem inRange_eq {first final : Int}
    (range : bounds elements.length start last = some (first, final)) :
    inRange elements start last reverse =
      (visited elements reverse (if reverse then final else first).toNat).take
        (final - first + 1).toNat := by
  obtain ⟨low, order, high⟩ := bounds_spec range
  rw [inRange, range]
  unfold visited
  cases reverse with
  | false => rfl
  | true =>
    simp only [if_true]
    rw [take_reverse, drop_take, length_take]
    congr 2
    · omega
    · congr 1
      omega

theorem reply_exact_iff {length : Nat} :
    (∀ elements : List Bytes, elements.length = length →
      addListRangeReply elements start last reverse = inRange elements start last reverse) ↔
    ∀ first final, bounds length start last = some (first, final) →
      Reachable length (if reverse then final else first) := by
  constructor
  · intro exactly first final range
    obtain ⟨low, order, high⟩ := bounds_spec range
    -- In a list with one element that is not empty, only the inRange position gives that one.
    obtain ⟨elements, rfl, here, only⟩ : ∃ elements : List Bytes, elements.length = length ∧
        elements[(if reverse then final else first).toNat]? = some [1] ∧ ∀ other : Nat,
          elements[other]? = some [1] → other = (if reverse then final else first).toNat := by
      refine ⟨(replicate length []).set (if reverse then final else first).toNat [1],
        by simp, ?_, ?_⟩
      · rw [getElem?_set_self]
        rw [length_replicate]
        split <;> omega
      · intro other found
        grind
    have heads := congrArg head? (exactly elements rfl)
    rw [inRange_eq range, head?_take, if_neg (by omega), head?_visited (by split <;> omega), here,
      addListRangeReply, range] at heads
    dsimp only at heads
    obtain ⟨rest, count⟩ : ∃ rest, (final - first + 1).toNat = rest + 1 :=
      ⟨(final - first).toNat, by omega⟩
    rw [count, head?_emit] at heads
    refine (quicklistIndex_iff (by split <;> omega) (by split <;> omega)).mp ?_
    cases found : quicklistIndex elements (toInt32 (if reverse then final else first)) with
    | none =>
      rw [found] at heads
      exact absurd (Option.some.inj heads) (by simp [decimal])
    | some other =>
      have inside : other < elements.length := by grind [quicklistIndex]
      rw [found, Option.elim_some, head?_visited inside, getElem?_eq_getElem inside] at heads
      rw [only other (by rw [getElem?_eq_getElem inside]; exact heads)]
  · intro reachable elements sized
    subst sized
    cases range : bounds elements.length start last with
    | none => rw [addListRangeReply, inRange, range]
    | some pair =>
      obtain ⟨first, final⟩ := pair
      obtain ⟨low, order, high⟩ := bounds_spec range
      rw [inRange_eq range, addListRangeReply, range]
      have found := (quicklistIndex_iff (by split <;> omega) (by split <;> omega)).mpr
        (reachable first final range)
      dsimp only
      rw [found, Option.elim_some, emit_eq]
      unfold visited
      split <;> simp <;> omega

/-- The replies for the lists of a length are right just if the first position is not cut off by the
`int` it is put into. -/
theorem range_exact_iff (request : Request) (length : Nat) :
    let (start, last, reverse) := request.range length
    (∀ elements : List Bytes, elements.length = length →
      request.reply elements = inRange elements start last reverse) ↔
    ∀ first final, bounds length start last = some (first, final) →
      Reachable length (if reverse then final else first) := by
  rcases range : request.range length with ⟨start, last, reverse⟩
  refine Iff.trans (forall₂_congr fun elements sized => ?_) reply_exact_iff
  rw [Request.reply, sized, range]

/-- The last element of a list is not found behind the positions of an `int`. -/
theorem last_of_long_list : ¬ ∀ elements : List Bytes, elements.length = 2 ^ 31 + 1 →
    (Request.lrange (-1) (-1)).reply elements = inRange elements (-1) (-1) false := by
  intro exactly
  have reachable := reply_exact_iff.mp exactly (2 ^ 31) (2 ^ 31) (by decide)
  exact absurd reachable (by unfold Reachable; decide)

end LearningNotes.Lists
