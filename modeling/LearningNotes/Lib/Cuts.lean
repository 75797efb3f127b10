import Mathlib.Tactic.Ring

/-! Lists that are cut at a place, and tests that tell the two sides apart. -/

namespace LearningNotes.Lib

open List

variable {α : Type}

/-- The cut of a list lies before or behind a given member. -/
theorem split_cases {front back before later : List α} {x : α}
    (same : front ++ back = before ++ x :: later) :
    (∃ more, before = front ++ more ∧ back = more ++ x :: later) ∨
      ∃ more, front = before ++ x :: more ∧ later = more ++ back := by
  rcases append_eq_append_iff.mp same with ⟨more, left, right⟩ | ⟨more, left, right⟩
  · exact .inl ⟨more, left, right⟩
  · cases more with
    | nil => exact .inl ⟨[], by simp [left], right.symm⟩
    | cons y more =>
      rw [cons_append, List.cons.injEq] at right
      exact .inr ⟨more, by rw [left, right.1], right.2⟩

theorem filter_cut {test : α → Bool} {front back : List α} (holds : ∀ x ∈ front, test x = true)
    (fails : ∀ x ∈ back, test x = false) :
    (front ++ back).filter test = front ∧ (front ++ back).filter (fun x => !test x) = back := by
  rw [filter_append, filter_append]
  constructor
  · rw [filter_eq_self.mpr holds,
      filter_eq_nil_iff.mpr fun x listed => by simp [fails x listed], append_nil]
  · rw [filter_eq_nil_iff.mpr fun x listed => by simp [holds x listed],
      filter_eq_self.mpr fun x listed => by simp [fails x listed], nil_append]

theorem filter_none {test : α → Bool} {list : List α} (none_ : ∀ x ∈ list, test x = false) :
    list.filter test = [] ∧ list.filter (fun x => !test x) = list :=
  @filter_cut α test [] list (by simp) none_

theorem nil_or_ends (list : List α) :
    list = [] ∨ ∃ first rest others last, list = first :: rest ∧ list = others ++ [last] := by
  rcases eq_nil_or_concat list with none_ | ⟨others, last, shape⟩
  · exact .inl none_
  · rw [concat_eq_append] at shape
    cases list with
    | nil => exact .inl rfl
    | cons first rest => exact .inr ⟨first, rest, others, last, rfl, shape⟩

/-- In a list that only stops once, a cut with the right neighbours is the filter. -/
theorem cut_eq_filter {test : α → Bool} {front back : List α}
    (down : (front ++ back).Pairwise fun a b => test b = true → test a = true)
    (last : ∀ x, front.getLast? = some x → test x = true)
    (first : ∀ x, back.head? = some x → test x = false) :
    front = (front ++ back).filter test ∧ back = (front ++ back).filter fun x => !test x := by
  rw [pairwise_append] at down
  -- The test holds for the last before the place, and so for all before that.
  have before : ∀ x ∈ front, test x = true := by
    intro x listed
    rcases nil_or_ends front with none_ | ⟨_, _, others, final, _, shape⟩
    · rw [none_] at listed
      cases listed
    have passed := last final (by simp [shape])
    rw [shape, pairwise_append] at down
    rw [shape, mem_append, mem_singleton] at listed
    rcases listed with earlier | same
    · exact down.1.2.2 x earlier final (by simp) passed
    · exact same ▸ passed
  -- It fails for the first behind the place, and so for all behind that.
  have after : ∀ x ∈ back, test x = false := by
    intro x listed
    cases back with
    | nil => cases listed
    | cons next later =>
      have fails := first next rfl
      rw [pairwise_cons] at down
      rcases mem_cons.mp listed with same | behind
      · exact same ▸ fails
      · exact Bool.eq_false_iff.mpr fun still => by simp [down.2.1.1 x behind still] at fails
  obtain ⟨front', back'⟩ := filter_cut before after
  rw [front', back']
  exact ⟨rfl, rfl⟩

/-- A lower and an upper bound that respect the order of a list. -/
structure Bounds (low high : α → Bool) (list : List α) : Prop where
  up : list.Pairwise fun a b => low a = true → low b = true
  down : list.Pairwise fun a b => high b = true → high a = true

section Bounds

variable {low high : α → Bool} {list : List α}

theorem Bounds.below (bounds : Bounds low high list) :
    list.Pairwise fun a b => (!low b) = true → (!low a) = true := by
  apply bounds.up.imp
  intro a b up below
  cases above : low a with
  | false => rfl
  | true => simp [up above] at below

theorem Bounds.of_map {β : Type} {read : β → α} {list : List β}
    (bounds : Bounds low high (list.map read)) :
    Bounds (fun x => low (read x)) (fun x => high (read x)) list :=
  ⟨pairwise_map.mp bounds.up, pairwise_map.mp bounds.down⟩

theorem Bounds.outside (bounds : Bounds low high list) :
    (∀ others last, list = others ++ [last] → low last = false →
      ∀ x ∈ list, (low x && high x) = false) ∧
    (∀ first others, list = first :: others → high first = false →
      ∀ x ∈ list, (low x && high x) = false) := by
  constructor
  · intro others last shape below x listed
    have up := bounds.up
    rw [shape, pairwise_append] at up
    rw [shape, mem_append, mem_singleton] at listed
    have notLow : low x = false := by
      rcases listed with earlier | same
      · exact Bool.eq_false_iff.mpr fun still => by simp [up.2.2 x earlier last (by simp) still] at below
      · exact same ▸ below
    rw [notLow, Bool.false_and]
  · intro first others shape above x listed
    have down := bounds.down
    rw [shape, pairwise_cons] at down
    rw [shape, mem_cons] at listed
    have notHigh : high x = false := by
      rcases listed with same | later
      · exact same ▸ above
      · exact Bool.eq_false_iff.mpr fun still => by simp [down.1 x later still] at above
    rw [notHigh, Bool.and_false]

end Bounds

theorem filter_range {low high : α → Bool} {before gone kept : List α}
    (below : ∀ x ∈ before, low x = false) (above : ∀ x ∈ gone ++ kept, low x = true)
    (inside : ∀ x ∈ gone, high x = true) (outside : ∀ x ∈ kept, high x = false) :
    gone = (before ++ (gone ++ kept)).filter (fun x => low x && high x) ∧
      before ++ kept = (before ++ (gone ++ kept)).filter fun x => !(low x && high x) := by
  have front : ∀ x ∈ before, (low x && high x) = false := fun x listed => by simp [below x listed]
  have middle : ∀ x ∈ gone, (low x && high x) = true :=
    fun x listed => by simp [above x (by simp [listed]), inside x listed]
  have back : ∀ x ∈ kept, (low x && high x) = false := fun x listed => by simp [outside x listed]
  obtain ⟨goneIn, keptIn⟩ := filter_cut middle back
  obtain ⟨noneIn, allOut⟩ := filter_none front
  rw [filter_append before, filter_append before, goneIn, keptIn, noneIn, allOut]
  exact ⟨rfl, rfl⟩

/-- In a list that only stops once, the members up to the stop are the filter. -/
theorem takeWhile_eq_filter {test : α → Bool} {list : List α}
    (down : list.Pairwise fun a b => test b = true → test a = true) :
    list.takeWhile test = list.filter test ∧ list.dropWhile test = list.filter fun x => !test x := by
  induction list with
  | nil => exact ⟨rfl, rfl⟩
  | cons first rest ih =>
    rw [pairwise_cons] at down
    by_cases holds : test first = true
    · obtain ⟨taken, dropped⟩ := ih down.2
      rw [takeWhile_cons_of_pos holds, dropWhile_cons_of_pos holds,
        filter_cons_of_pos holds, filter_cons_of_neg (by simp [holds]), taken, dropped]
      exact ⟨rfl, rfl⟩
    · -- Nothing behind the first failure passes the test.
      have later : ∀ x ∈ rest, test x = false :=
        fun x listed => Bool.eq_false_iff.mpr fun still => holds (down.1 x listed still)
      rw [takeWhile_cons_of_neg holds, dropWhile_cons_of_neg holds,
        filter_cons_of_neg holds, filter_cons_of_pos (by simpa using holds),
        filter_eq_nil_iff.mpr fun x listed => by simp [later x listed],
        filter_eq_self.mpr fun x listed => by simp [later x listed]]
      exact ⟨rfl, rfl⟩

end LearningNotes.Lib
