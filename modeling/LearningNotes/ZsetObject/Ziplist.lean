import LearningNotes.ZsetObject.Basic

/-! The functions on the ziplist encoding do what they do to the list of members. -/

namespace LearningNotes.ZsetObject

open Lib Util LearningNotes.Zset List

variable {S : Type} (format : ScoreFormat S)

/-- The strings of a ziplist that holds the members: each element is followed by its score. -/
def pairs (members : List (S × Bytes)) : List Bytes :=
  members.flatMap fun member => [member.2, format.d2string member.1]

@[simp] theorem pairs_nil : pairs format [] = [] := rfl

@[simp] theorem pairs_cons (member : S × Bytes) (members : List (S × Bytes)) :
    pairs format (member :: members) =
      member.2 :: format.d2string member.1 :: pairs format members := rfl

@[simp] theorem pairs_append (front back : List (S × Bytes)) :
    pairs format (front ++ back) = pairs format front ++ pairs format back := by
  simp [pairs]

variable (members : List (S × Bytes))

@[simp] theorem length_pairs :
    (pairs format members).length = 2 * members.length := by
  induction members with
  | nil => rfl
  | cons member members ih =>
    rw [pairs_cons, length_cons, length_cons, length_cons]
    omega

theorem take_pairs (n : Nat) :
    (pairs format members).take (2 * n) = pairs format (members.take n) := by
  induction members generalizing n with
  | nil => simp
  | cons member members ih =>
    cases n with
    | zero => rfl
    | succ n => rw [pairs_cons, Nat.mul_succ, take_succ_cons, take_succ_cons, ih]; rfl

theorem drop_pairs (n : Nat) :
    (pairs format members).drop (2 * n) = pairs format (members.drop n) := by
  induction members generalizing n with
  | nil => simp
  | cons member members ih =>
    cases n with
    | zero => rfl
    | succ n => rw [pairs_cons, Nat.mul_succ, drop_succ_cons, drop_succ_cons, ih]; rfl

/-- The first member that passes a test, and those before it. -/
structure FirstPassing (test : S × Bytes → Bool) (members before : List (S × Bytes))
    (found : S × Bytes) (after : List (S × Bytes)) : Prop where
  split : members = before ++ found :: after
  failed : ∀ member ∈ before, test member = false
  passed : test found = true

theorem zzlScan_pairs {test : Bytes → Bytes → Bool} {holds : S × Bytes → Bool}
    (reads : ∀ member, test member.2 (format.d2string member.1) = holds member)
    (members : List (S × Bytes)) (eptr : Nat) :
    (zzlScan test (pairs format members) eptr = .ok none ∧
      ∀ member ∈ members, holds member = false) ∨
    ∃ before found after, FirstPassing holds members before found after ∧
      zzlScan test (pairs format members) eptr =
        .ok (some (eptr + 2 * before.length, found.2, format.d2string found.1)) := by
  induction members generalizing eptr with
  | nil => exact .inl ⟨rfl, by simp⟩
  | cons member members ih =>
    rw [pairs_cons, zzlScan, reads]
    by_cases passes : holds member = true
    · rw [if_pos passes]
      exact .inr ⟨[], member, members, ⟨rfl, by simp, passes⟩, by simp⟩
    have fails : holds member = false := Bool.eq_false_iff.mpr passes
    rw [if_neg passes]
    rcases ih (eptr + 2) with ⟨scanned, none_⟩ | ⟨before, found, after, first, scanned⟩
    · exact .inl ⟨scanned, forall_mem_cons.mpr ⟨fails, none_⟩⟩
    · refine .inr ⟨member :: before, found, after,
        ⟨?_, forall_mem_cons.mpr ⟨fails, first.failed⟩, first.passed⟩, ?_⟩
      · rw [first.split, cons_append]
      · rw [scanned, length_cons]
        congr 3
        omega

theorem ziplistCall_delete (front : List Bytes) (entry : Bytes) (back : List Bytes) :
    ziplistCall (front ++ entry :: back) (.delete front.length) = .ok (front ++ back) := by
  have valid : Ziplist.ValidCall (front ++ entry :: back) (.delete front.length) := by
    simp [Ziplist.ValidCall]
  rw [ziplistCall, if_pos valid, Ziplist.listCall, eraseIdx_append_of_length_le (by simp)]
  simp

theorem ziplistCall_insert (front back : List Bytes) (entry : Bytes) :
    ziplistCall (front ++ back) (.insert front.length entry) = .ok (front ++ entry :: back) := by
  have valid : Ziplist.ValidCall (front ++ back) (.insert front.length entry) := by
    simp [Ziplist.ValidCall]
  rw [ziplistCall, if_pos valid, Ziplist.listCall, take_left, drop_left]

theorem ziplistCall_deleteRange {zl : List Bytes} {place num : Nat} (inside : place < zl.length) :
    ziplistCall zl (.deleteRange (place : Int) num) = .ok (zl.take place ++ zl.drop (place + num)) := by
  have valid : Ziplist.ValidCall zl (.deleteRange (place : Int) num) :=
    .inl (ne_nil_of_length_pos (Nat.lt_of_le_of_lt (Nat.zero_le _) inside))
  have found : Ziplist.position zl.length (place : Int) = some place := by
    rw [Ziplist.position, if_pos (by omega), if_pos (by omega), Int.toNat_natCast]
  rw [ziplistCall, if_pos valid, Ziplist.listCall, found]

theorem zzlDelete_pairs (before : List (S × Bytes)) (member : S × Bytes)
    (after : List (S × Bytes)) :
    zzlDelete (pairs format (before ++ member :: after)) (2 * before.length) =
      .ok (pairs format (before ++ after)) := by
  rw [← length_pairs format before, pairs_append, pairs_cons, zzlDelete, ziplistCall_delete, ok_bind,
    ziplistCall_delete, pairs_append]

theorem zzlInsertAt_tail (ele : Bytes) (score : S) :
    zzlInsertAt format (pairs format members) none ele score =
      .ok (pairs format (members ++ [(score, ele)])) := by
  have valid : ∀ (zl : List Bytes) (s : Bytes), Ziplist.ValidCall zl (.push s .tail) :=
    fun _ _ => trivial
  simp only [zzlInsertAt, ziplistCall, valid, Ziplist.listCall]
  simp

theorem zzlInsertAt_place (before : List (S × Bytes)) (next : S × Bytes)
    (after : List (S × Bytes)) (ele : Bytes) (score : S) :
    zzlInsertAt format (pairs format (before ++ next :: after)) (some (2 * before.length)) ele score =
      .ok (pairs format (before ++ (score, ele) :: next :: after)) := by
  have second := ziplistCall_insert (pairs format before ++ [ele]) (pairs format (next :: after))
    (format.d2string score)
  rw [length_append, length_singleton, append_assoc, singleton_append] at second
  rw [← length_pairs format before, pairs_append, zzlInsertAt, ziplistCall_insert, ok_bind, second]
  simp

section Order

variable [LinearOrder S]

theorem placeKey_split {key : S × Bytes} {front back : List (S × Bytes)}
    (before : ∀ member ∈ front, KeyLt member key) (behind : ∀ member ∈ back, ¬ KeyLt member key) :
    SortedSet.placeKey key (front ++ back) = front ++ key :: back := by
  obtain ⟨front', back'⟩ := @filter_cut _ (fun member => decide (KeyLt member key)) front back
    (fun member listed => decide_eq_true (before member listed))
    (fun member listed => decide_eq_false (behind member listed))
  rw [SortedSet.placeKey, front', back']

/-- The test of `zzlInsert` asks whether a member comes after the new pair. -/
theorem zzlInsert_reads (ele : Bytes) (score : S) (member : S × Bytes) :
    (decide (format.zzlGetScore (format.d2string member.1) > score) ||
      (decide (format.zzlGetScore (format.d2string member.1) = score) &&
        sdscmp member.2 ele == .gt)) = decide (KeyLt (score, ele) member) := by
  rw [format.inverse]
  have turned : (sdscmp member.2 ele == .gt) = decide (sdscmp ele member.2 = .lt) := by
    have swapped := sdscmp_swap member.2 ele
    cases compared : sdscmp member.2 ele <;> rw [compared] at swapped <;> simp [← swapped]
  rw [turned, ← Bool.decide_and, ← Bool.decide_or]
  apply decide_eq_decide.mpr
  exact or_congr_right (and_congr_left' eq_comm)

/-- `zzlInsert` puts a new member where it belongs. -/
theorem zzlInsert_pairs {members : List (S × Bytes)} (sorted : members.Pairwise KeyLt) {ele : Bytes}
    (absent : ele ∉ members.map Prod.snd) (score : S) :
    zzlInsert format (pairs format members) ele score =
      .ok (pairs format (SortedSet.placeKey (score, ele) members)) := by
  -- What does not come after the new pair comes before it.
  have otherwise : ∀ member ∈ members, decide (KeyLt (score, ele) member) = false →
      KeyLt member (score, ele) := by
    intro member listed notBehind
    have different : member ≠ (score, ele) :=
      fun same => absent (mem_map.mpr ⟨member, listed, by rw [same]⟩)
    exact (KeyLt.total different).resolve_right (of_decide_eq_false notBehind)
  rw [zzlInsert]
  rcases @zzlScan_pairs S format
    (fun other s => decide (format.zzlGetScore s > score) ||
      (decide (format.zzlGetScore s = score) && sdscmp other ele == .gt))
    (fun member => decide (KeyLt (score, ele) member)) (zzlInsert_reads format ele score) members 0 with
    ⟨scanned, none_⟩ | ⟨before, found, after, first, scanned⟩
  · have place := @placeKey_split S _ (score, ele) members []
      (fun member listed => otherwise member listed (none_ member listed)) (by simp)
    rw [append_nil] at place
    rw [scanned, ok_bind, Option.map_none, zzlInsertAt_tail, place]
  have split := first.split
  have behind : ∀ member ∈ found :: after, ¬ KeyLt member (score, ele) := by
    have order : KeyLt (score, ele) found := of_decide_eq_true first.passed
    rw [split, pairwise_append, pairwise_cons] at sorted
    exact forall_mem_cons.mpr ⟨order.asymm, fun member later =>
      (order.trans (sorted.2.1.1 member later)).asymm⟩
  have place := @placeKey_split S _ (score, ele) before (found :: after)
    (fun member listed => otherwise member (by rw [split]; simp [listed])
      (first.failed member listed)) behind
  rw [scanned, ok_bind, Option.map_some, Nat.zero_add, split, zzlInsertAt_place, place]

omit [LinearOrder S] in
theorem scanElement_pairs (members : List (S × Bytes)) (ele : Bytes) :
    (zzlScan (fun other _ => other == ele) (pairs format members) 0 = .ok none ∧
      ele ∉ members.map Prod.snd) ∨
    ∃ before score after, members = before ++ (score, ele) :: after ∧
      zzlScan (fun other _ => other == ele) (pairs format members) 0 =
        .ok (some (2 * before.length, ele, format.d2string score)) := by
  rcases @zzlScan_pairs S format (fun other _ => other == ele) (fun member => member.2 == ele)
    (fun _ => rfl) members 0 with ⟨scanned, none_⟩ | ⟨before, found, after, first, scanned⟩
  · refine .inl ⟨scanned, ?_⟩
    intro listed
    obtain ⟨member, inside, same⟩ := mem_map.mp listed
    have fails := none_ member inside
    simp [same] at fails
  · have same : found.2 = ele := by simpa using first.passed
    rw [same, Nat.zero_add] at scanned
    exact .inr ⟨before, found.1, after, by rw [first.split, ← same], scanned⟩

end Order

section Ranges

theorem zzlDeleteWhile_pairs {test : Bytes → Bytes → Bool} {holds : S × Bytes → Bool}
    (reads : ∀ member, test member.2 (format.d2string member.1) = holds member)
    (before rest : List (S × Bytes)) {fuel : Nat} (enough : rest.length < fuel) (num : Nat) :
    zzlDeleteWhile test (2 * before.length) fuel (pairs format (before ++ rest)) num =
      .ok (num + (rest.takeWhile holds).length, pairs format (before ++ rest.dropWhile holds)) := by
  induction fuel generalizing rest num with
  | zero => omega
  | succ fuel ih =>
    have ahead : (pairs format (before ++ rest)).drop (2 * before.length) = pairs format rest := by
      rw [pairs_append, ← length_pairs format before, drop_left]
    rw [zzlDeleteWhile, ahead]
    cases rest with
    | nil => simp
    | cons member rest =>
      rw [pairs_cons]
      simp only [reads]
      by_cases passes : holds member = true
      · -- The element and the score at the place are deleted, and what follows moves there.
        have first : ziplistCall (pairs format (before ++ member :: rest))
            (.delete (2 * before.length)) =
            .ok (pairs format before ++ format.d2string member.1 :: pairs format rest) := by
          rw [pairs_append, pairs_cons, ← length_pairs format before, ziplistCall_delete]
        have second : ziplistCall
            (pairs format before ++ format.d2string member.1 :: pairs format rest)
            (.delete (2 * before.length)) = .ok (pairs format (before ++ rest)) := by
          rw [← length_pairs format before, ziplistCall_delete, pairs_append]
        rw [length_cons] at enough
        rw [if_pos passes, first, ok_bind, second, ok_bind, ih rest (by omega),
          takeWhile_cons_of_pos passes, dropWhile_cons_of_pos passes, length_cons]
        congr 2
        omega
      · rw [if_neg passes, takeWhile_cons_of_neg passes, dropWhile_cons_of_neg passes]
        rfl

variable {members : List (S × Bytes)}

theorem FirstPassing.range {low high : S × Bytes → Bool} {before after : List (S × Bytes)}
    {found : S × Bytes} (first : FirstPassing low members before found after)
    (bounds : Bounds low high members) :
    (found :: after).takeWhile high = members.filter (fun member => low member && high member) ∧
      before ++ (found :: after).dropWhile high =
        members.filter fun member => !(low member && high member) := by
  have split := first.split
  have up := bounds.up
  have down := bounds.down
  rw [split, pairwise_append, pairwise_cons] at up
  rw [split, pairwise_append] at down
  have above : ∀ member ∈ found :: after, low member = true :=
    forall_mem_cons.mpr ⟨first.passed, fun member later => up.2.1.1 member later first.passed⟩
  obtain ⟨taken, dropped⟩ := takeWhile_eq_filter down.2.1
  have parts := @takeWhile_append_dropWhile _ high (found :: after)
  have range := @filter_range _ low high before ((found :: after).takeWhile high)
    ((found :: after).dropWhile high) first.failed (by rw [parts]; exact above)
    (by rw [taken]; simp) (by rw [dropped]; simp)
  rw [parts, ← split] at range
  exact range

/-- Where a search for the first member within bounds ends. -/
def Located (low high : S × Bytes → Bool) (members : List (S × Bytes)) (place : Option Nat) : Prop :=
  match place with
  | none => ∀ member ∈ members, (low member && high member) = false
  | some eptr => ∃ before found after, FirstPassing low members before found after ∧
    eptr = 2 * before.length

theorem deleteFrom_pairs {low high : S × Bytes → Bool} {members : List (S × Bytes)}
    (bounds : Bounds low high members) {test : Bytes → Bytes → Bool}
    (reads : ∀ member, test member.2 (format.d2string member.1) = high member)
    {place : Option Nat} (located : Located low high members place) :
    zzlDeleteFrom test (pairs format members) place =
      .ok ((members.filter fun member => low member && high member).length,
        pairs format (members.filter fun member => !(low member && high member))) := by
  cases place with
  | none =>
    obtain ⟨inside, outside⟩ := filter_none located
    rw [inside, outside]
    rfl
  | some eptr =>
    obtain ⟨before, found, after, first, here⟩ := located
    obtain ⟨inside, outside⟩ := first.range bounds
    have enough : (found :: after).length < (pairs format members).length + 1 := by
      rw [length_pairs, first.split, length_append]
      omega
    have deleted := zzlDeleteWhile_pairs format reads before (found :: after) enough 0
    rw [← first.split, inside, outside, Nat.zero_add] at deleted
    rw [here]
    exact deleted

theorem located_of_scan {low high : S × Bytes → Bool} {members : List (S × Bytes)}
    (bounds : Bounds low high members) {test : Bytes → Bytes → Bool}
    (reads : ∀ member, test member.2 (format.d2string member.1) = low member) :
    (zzlScan test (pairs format members) 0 = .ok none ∧ Located low high members none) ∨
    ∃ eptr found, zzlScan test (pairs format members) 0 =
        .ok (some (eptr, found.2, format.d2string found.1)) ∧
      Located low high members (if high found then some eptr else none) := by
  rcases zzlScan_pairs format reads members 0 with
    ⟨scanned, none_⟩ | ⟨before, found, after, first, scanned⟩
  · refine .inl ⟨scanned, ?_⟩
    intro member listed
    rw [none_ member listed, Bool.false_and]
  refine .inr ⟨2 * before.length, found, by rw [scanned, Nat.zero_add], ?_⟩
  by_cases below : high found = true
  · rw [if_pos below]
    exact ⟨before, found, after, first, rfl⟩
  -- If the first one is above the upper bound, then so are all behind it.
  rw [if_neg below]
  have down := bounds.down
  rw [first.split, pairwise_append, pairwise_cons] at down
  intro member listed
  rw [first.split, mem_append, mem_cons] at listed
  rcases listed with earlier | same | later
  · rw [first.failed member earlier, Bool.false_and]
  · rw [same, Bool.eq_false_iff.mpr below, Bool.and_false]
  · have above : high member = false :=
      Bool.eq_false_iff.mpr fun still => below (down.2.1.1 member later still)
    rw [above, Bool.and_false]

/-- A range is deleted from the first member above its lower bound, unless it is empty. -/
theorem deleteRange_pairs {low high : S × Bytes → Bool} {members : List (S × Bytes)}
    (bounds : Bounds low high members) {test stop : Bytes → Bytes → Bool}
    (reads : ∀ member, test member.2 (format.d2string member.1) = low member)
    (stops : ∀ member, stop member.2 (format.d2string member.1) = high member) {inRange : Bool}
    (outside : inRange = false → ∀ member ∈ members, (low member && high member) = false) :
    (do
      let eptr ← (do
        if inRange then
          match ← zzlScan test (pairs format members) 0 with
          | none => return none
          | some (eptr, ele, score) => return if stop ele score then some eptr else none
        else return none)
      zzlDeleteFrom stop (pairs format members) eptr) =
      .ok ((members.filter fun member => low member && high member).length,
        pairs format (members.filter fun member => !(low member && high member))) := by
  have deleted := fun {place} => @deleteFrom_pairs S format _ _ members bounds stop stops place
  cases inRange with
  | false => exact @deleted none (outside rfl)
  | true =>
    rcases located_of_scan format bounds reads with
      ⟨scanned, located⟩ | ⟨eptr, found, scanned, located⟩
    · rw [if_pos rfl, scanned]
      exact deleted located
    · rw [if_pos rfl, scanned]
      simp only [ok_bind, stops]
      exact deleted located

theorem ziplistAt_last (members : List (S × Bytes)) (last : S × Bytes) :
    ziplistAt (pairs format (members ++ [last])) (-1) = some (format.d2string last.1) ∧
      ziplistAt (pairs format (members ++ [last])) (-2) = some last.2 := by
  have length : (pairs format (members ++ [last])).length = 2 * members.length + 2 := by
    rw [length_pairs, length_append, length_singleton]
    omega
  have one : Ziplist.position (2 * members.length + 2) (-1) = some (2 * members.length + 1) := by
    simp [Ziplist.position]
    omega
  have two : Ziplist.position (2 * members.length + 2) (-2) = some (2 * members.length) := by
    simp [Ziplist.position]
  rw [ziplistAt, ziplistAt, length, one, two, pairs_append, Option.bind_some, Option.bind_some,
    getElem?_append_right (by simp), length_pairs]
  simp

theorem ziplistAt_first (members : List (S × Bytes)) (first : S × Bytes) :
    ziplistAt (pairs format (first :: members)) 0 = some first.2 ∧
      ziplistAt (pairs format (first :: members)) 1 = some (format.d2string first.1) := by
  have size : (pairs format (first :: members)).length = 2 * members.length + 2 := by
    rw [length_pairs, length_cons]
    omega
  have zero : Ziplist.position (pairs format (first :: members)).length 0 = some 0 := by
    rw [size, Ziplist.position, if_pos (by omega), if_pos (by omega)]
    rfl
  have one : Ziplist.position (pairs format (first :: members)).length 1 = some 1 := by
    rw [size, Ziplist.position, if_pos (by omega), if_pos (by omega)]
    rfl
  rw [ziplistAt, ziplistAt, zero, one]
  simp

variable [LinearOrder S]

section

variable (sorted : members.Pairwise KeyLt)
include sorted

/-- `zzlIsInRange` says no only if no member is in the range. -/
theorem zzlIsInRange_pairs (range : RangeSpec S) :
    ∃ inRange, zzlIsInRange format (pairs format members) range = .ok inRange ∧
      (inRange = false → ∀ member ∈ members, range.contains member = false) := by
  have bounds := scoreBounds sorted range
  rw [zzlIsInRange]
  by_cases empty : range.min > range.max ∨ (range.min = range.max ∧ (range.minex ∨ range.maxex))
  · rw [if_pos empty]
    exact ⟨false, rfl, fun _ member _ => empty_range empty member.1⟩
  rw [if_neg empty]
  rcases nil_or_ends members with none_ | ⟨first, rest, others, last, shape', shape⟩
  · subst none_
    exact ⟨false, rfl, by simp⟩
  have lastRead := (ziplistAt_last format others last).1
  have firstRead := (ziplistAt_first format rest first).2
  rw [← shape] at lastRead
  rw [← shape'] at firstRead
  rw [lastRead, firstRead]
  simp only [format.inverse]
  by_cases above : zslValueGteMin last.1 range = true
  · simp only [above]
    exact ⟨_, rfl, bounds.outside.2 first rest shape'⟩
  · have below : zslValueGteMin last.1 range = false := Bool.eq_false_iff.mpr above
    simp only [below]
    exact ⟨false, rfl, fun _ => bounds.outside.1 others last shape below⟩

/-- `zzlDeleteRangeByScore` takes out exactly the members in the range. -/
theorem zzlDeleteRangeByScore_pairs (range : RangeSpec S) :
    zzlDeleteRangeByScore format (pairs format members) range =
      .ok ((members.filter range.contains).length,
        pairs format (members.filter fun member => !range.contains member)) := by
  obtain ⟨inRange, tested, outside⟩ := zzlIsInRange_pairs format sorted range
  rw [zzlDeleteRangeByScore, zzlFirstInRange, tested, ok_bind]
  exact deleteRange_pairs format (scoreBounds sorted range) (fun _ => by rw [format.inverse])
    (fun _ => by rw [format.inverse]) outside

/-- `zzlIsInLexRange` says no only if no member is in the range. -/
theorem zzlIsInLexRange_pairs
    (oneScore : ∀ a ∈ members, ∀ b ∈ members, a.1 = b.1) (range : LexRangeSpec) :
    ∃ inRange, zzlIsInLexRange (pairs format members) range = .ok inRange ∧
      (inRange = false → ∀ member ∈ members, range.contains member = false) := by
  have bounds := lexBounds sorted oneScore range
  rw [zzlIsInLexRange]
  by_cases empty : sdscmplexBounds range.min range.max = .gt ∨
      (sdscmplexBounds range.min range.max = .eq ∧ (range.minex ∨ range.maxex))
  · rw [if_pos empty]
    exact ⟨false, rfl, fun _ member _ => empty_lexRange empty member.2⟩
  rw [if_neg empty]
  rcases nil_or_ends members with none_ | ⟨first, rest, others, last, shape', shape⟩
  · subst none_
    exact ⟨false, rfl, by simp⟩
  have lastRead := (ziplistAt_last format others last).2
  have firstRead := (ziplistAt_first format rest first).1
  rw [← shape] at lastRead
  rw [← shape'] at firstRead
  rw [lastRead, firstRead]
  by_cases above : zslLexValueGteMin last.2 range = true
  · simp only [above]
    exact ⟨_, rfl, bounds.outside.2 first rest shape'⟩
  · have below : zslLexValueGteMin last.2 range = false := Bool.eq_false_iff.mpr above
    simp only [below]
    exact ⟨false, rfl, fun _ => bounds.outside.1 others last shape below⟩

/-- `zzlDeleteRangeByLex` takes out exactly the members in the range if the scores agree. -/
theorem zzlDeleteRangeByLex_pairs
    (oneScore : ∀ a ∈ members, ∀ b ∈ members, a.1 = b.1) (range : LexRangeSpec) :
    zzlDeleteRangeByLex (pairs format members) range =
      .ok ((members.filter range.contains).length,
        pairs format (members.filter fun member => !range.contains member)) := by
  obtain ⟨inRange, tested, outside⟩ := zzlIsInLexRange_pairs format sorted oneScore range
  rw [zzlDeleteRangeByLex, zzlFirstInLexRange, tested, ok_bind]
  exact deleteRange_pairs format (lexBounds sorted oneScore range) (fun _ => rfl) (fun _ => rfl)
    outside

end

omit [LinearOrder S] in
/-- `zzlDeleteRangeByRank` takes out the members with ranks in the range, counted from one. -/
theorem zzlDeleteRangeByRank_pairs {start stop : Nat} (first : 1 ≤ start) (ordered : start ≤ stop)
    (last : stop ≤ members.length) (small : members.length < 2 ^ 30) :
    zzlDeleteRangeByRank (pairs format members) start stop =
      .ok (((members.take stop).drop (start - 1)).length,
        pairs format (members.take (start - 1) ++ members.drop (max (start - 1) stop))) := by
  -- Nothing wraps around, since a ziplist has fewer than 2^31 entries.
  have num : wrapAdd 32 (wrapSub 32 stop start) 1 = stop - start + 1 := by
    rw [wrapSub_of_le ordered (by omega), wrapAdd_of_lt (by omega)]
  have index : toInt32 (2 * wrapSub 32 start 1 % 2 ^ 32 : Nat) = ((2 * (start - 1) : Nat) : Int) := by
    rw [wrapSub_of_le first (by omega), Nat.mod_eq_of_lt (by omega),
      toInt32_of_lt (by omega) (by omega)]
  have count : 2 * (stop - start + 1) % 2 ^ 32 = 2 * (stop - start + 1) :=
    Nat.mod_eq_of_lt (by omega)
  have behind : 2 * (start - 1) + 2 * (stop - start + 1) = 2 * max (start - 1) stop := by omega
  have size : ((members.take stop).drop (start - 1)).length = stop - start + 1 := by
    rw [length_drop, length_take]
    omega
  have deleted := @ziplistCall_deleteRange (pairs format members) (2 * (start - 1))
    (2 * (stop - start + 1)) (by rw [length_pairs]; omega)
  rw [behind, take_pairs, drop_pairs, ← pairs_append] at deleted
  rw [size, zzlDeleteRangeByRank]
  simp only [num, index, count]
  rw [deleted, ok_bind]
  rfl

end Ranges

end LearningNotes.ZsetObject
