import LearningNotes.Lib.Cuts
import LearningNotes.Zset.Towers

/-! Where a search through the levels ends, for any condition it goes by. -/

namespace LearningNotes.Zset

open Lib Util List

variable {S : Type} {zsl : Zskiplist S} {towers : List (Tower S)}

/-- A pointer to the node in front of the rest, on so many levels. -/
def Stands (zsl : Zskiplist S) (count : Nat) (rev : List (Tower S)) (x : Addr) : Prop :=
  match rev with
  -- Nothing is passed yet, so the pointer is at the header.
  | [] => x = zsl.header ∧ count ≤ zsl.level
  | t :: _ => x = t.addr ∧ count ≤ t.height

/-- The first tower above a level does not satisfy the test. -/
def Blocked (test : Tower S → Nat → Bool) (k rank : Nat) (rest : List (Tower S)) : Prop :=
  ∀ skipped t later, rest = skipped ++ t :: later → Low k skipped → k < t.height →
    test t (rank + skipped.length + 1) = false

/-- A condition reads a node as the test reads its tower. -/
def Reads (condition : Condition S) (test : Tower S → Nat → Bool) : Prop :=
  ∀ left t right rank, condition (nodeFor left t right) rank = .ok (test t rank)

/-- A search went on by towers that no blocked level reaches. -/
structure Advance (test : Tower S → Nat → Bool) (count : Nat) (rev rest rev' rest' : List (Tower S))
    (mid : List (Tower S)) : Prop where
  ahead : rest = mid ++ rest'
  behind : rev' = mid.reverse ++ rev
  -- What blocked a higher level before still blocks it.
  blocked : ∀ k, count ≤ k → Blocked test k rev.length rest →
    Low k mid ∧ Blocked test k rev'.length rest'
  -- If the search moved, the tower it moved to satisfied the test.
  passed : rev' = rev ∨ ∃ t tail, rev' = t :: tail ∧ test t rev'.length = true

theorem Stands.levelOf (drawn : Drawn zsl towers) {rev rest : List (Tower S)} {x : Addr}
    {count i : Nat} (split : towers = rev.reverse ++ rest) (stands : Stands zsl count rev x)
    (within : i < count) : zsl.levelOf x i = .ok (levelFor i rest) := by
  cases rev with
  | nil =>
    obtain ⟨same, enough⟩ := stands
    rw [same, drawn.levelOf_header (by omega)]
    simp [split]
  | cons t rev =>
    obtain ⟨same, enough⟩ := stands
    rw [same]
    refine @Drawn.levelOf S zsl towers drawn rev.reverse rest t ?_ i (by omega)
    simp [split]

variable {rev rest : List (Tower S)} {x : Addr} {count i : Nat}

theorem Stands.crossing (stands : Stands zsl count rev x) (within : i < count) :
    crossing zsl.header i rev = (x, rev.length) := by
  cases rev with
  | nil => rw [stands.1]; rfl
  | cons t rev =>
    obtain ⟨same, enough⟩ := stands
    rw [Zset.crossing, if_pos (by omega), same, length_cons]

theorem Stands.mono {fewer : Nat} (stands : Stands zsl count rev x) (less : fewer ≤ count) :
    Stands zsl fewer rev x := by
  cases rev with
  | nil => exact ⟨stands.1, Nat.le_trans less stands.2⟩
  | cons t rev => exact ⟨stands.1, Nat.le_trans less stands.2⟩

variable {test : Tower S → Nat → Bool}

theorem Advance.refl (count : Nat) (rev rest : List (Tower S)) :
    Advance test count rev rest rev rest [] :=
  ⟨rfl, rfl, fun _ _ blocked => ⟨.nil, blocked⟩, .inl rfl⟩

theorem Advance.trans {count' : Nat} {rev' rest' rev'' rest'' mid mid' : List (Tower S)}
    (first : Advance test count rev rest rev' rest' mid)
    (second : Advance test count' rev' rest' rev'' rest'' mid') (less : count' ≤ count) :
    Advance test count rev rest rev'' rest'' (mid ++ mid') := by
  refine ⟨?_, ?_, ?_, ?_⟩
  · rw [first.ahead, second.ahead, append_assoc]
  · rw [second.behind, first.behind, reverse_append, append_assoc]
  · intro k high blocked
    obtain ⟨low, still⟩ := first.blocked k high blocked
    obtain ⟨low', last⟩ := second.blocked k (Nat.le_trans less high) still
    exact ⟨low.append low', last⟩
  · rcases second.passed with same | moved
    · rw [same]
      exact first.passed
    · exact .inr moved

/-- A pointer that is followed passes over nodes too low for its level only. -/
theorem Advance.step {skipped later : List (Tower S)} {t : Tower S} (low : Low i skipped)
    (further : test t (rev.length + skipped.length + 1) = true) :
    Advance test (i + 1) rev (skipped ++ t :: later) (t :: (skipped.reverse ++ rev)) later
      (skipped ++ [t]) := by
  have rank : (t :: (skipped.reverse ++ rev)).length = rev.length + skipped.length + 1 := by
    simp only [length_cons, length_append, length_reverse]
    omega
  refine ⟨by simp, by simp, ?_, .inr ⟨t, _, rfl, by rw [rank]; exact further⟩⟩
  intro k high blocked
  have lowK : Low k skipped := low.mono (by omega)
  -- The tower itself cannot reach above a blocked level, or it would be what blocks it.
  have short : t.height ≤ k := by
    apply Nat.not_lt.mp
    intro tall
    rw [blocked skipped t later rfl lowK tall] at further
    cases further
  have lowStep : Low k (skipped ++ [t]) := lowK.append (forall_mem_singleton.mpr short)
  refine ⟨lowStep, ?_⟩
  intro skipped' t' later' split low' tall'
  have before := blocked (skipped ++ [t] ++ skipped') t' later' (by simp [split])
    (lowStep.append low') tall'
  rw [rank]
  have same : rev.length + (skipped ++ [t] ++ skipped').length + 1 =
      rev.length + skipped.length + 1 + skipped'.length + 1 := by
    simp only [length_append, length_singleton]
    omega
  rwa [same] at before

variable {condition : Condition S} {wrap : Nat → Nat}

/-- One level is walked as far as the condition allows. -/
theorem seekLevel_spec (drawn : Drawn zsl towers) (reads : Reads condition test)
    (fits : ∀ n ≤ towers.length, wrap n = n) {fuel : Nat} (split : towers = rev.reverse ++ rest)
    (stands : Stands zsl (i + 1) rev x) (enough : rest.length < fuel) :
    ∃ x' rev' rest' mid, seekLevel zsl wrap condition i fuel x rev.length = .ok (x', rev'.length) ∧
      Stands zsl (i + 1) rev' x' ∧ Advance test (i + 1) rev rest rev' rest' mid ∧
      Blocked test i rev'.length rest' := by
  -- The induction is on the fuel; every step leaves less of the list ahead.
  induction fuel generalizing rev rest x with
  | zero => omega
  | succ fuel ih =>
    have read := stands.levelOf drawn split (Nat.lt_succ_self i)
    rcases levelFor_cases i rest with ⟨low, ended⟩ | ⟨skipped, t, later, ahead, low, tall, points⟩
    · -- The level ends here: no tower ahead reaches it.
      refine ⟨x, rev, rest, [], ?_, stands, .refl _ _ _, ?_⟩
      · rw [seekLevel, read, ended]
        rfl
      · intro skipped t later ahead _ tall
        have short := low t (by simp [ahead])
        omega
    have whole : towers = (rev.reverse ++ skipped) ++ t :: later := by
      rw [split, ahead, append_assoc]
    have rank : wrap (rev.length + (skipped.length + 1)) = rev.length + skipped.length + 1 := by
      rw [fits _ ?_]
      · omega
      · rw [whole]
        simp only [length_append, length_reverse, length_cons]
        omega
    rw [seekLevel, read, points]
    simp only [ok_bind, drawn.deref whole, rank, reads _ t _ _]
    by_cases further : test t (rev.length + skipped.length + 1) = true
    · -- The test lets the search move on to that tower.
      have step : Advance test (i + 1) rev rest (t :: (skipped.reverse ++ rev)) later
          (skipped ++ [t]) := ahead ▸ .step low further
      have moved : (t :: (skipped.reverse ++ rev)).length = rev.length + skipped.length + 1 := by
        simp only [length_cons, length_append, length_reverse]
        omega
      obtain ⟨x', rev', rest', mid, ran, stands', advance, blocked⟩ :=
        @ih (t :: (skipped.reverse ++ rev)) later t.addr (by simp [whole]) ⟨rfl, tall⟩ (by
          rw [ahead, length_append, length_cons] at enough
          omega)
      rw [moved] at ran
      rw [if_pos further]
      exact ⟨x', rev', rest', _, ran, stands', step.trans advance (Nat.le_refl _), blocked⟩
    · -- The test stops the search in front of that tower.
      rw [if_neg further]
      refine ⟨x, rev, rest, [], rfl, stands, .refl _ _ _, ?_⟩
      intro skipped' t' later' ahead' low' tall'
      have same : skipped' = skipped ∧ t' = t := by
        rw [ahead] at ahead'
        rcases split_cases ahead' with ⟨more, left, right⟩ | ⟨more, left, right⟩
        · cases more with
          | nil => simp_all
          | cons u more =>
            -- The other place would be behind a tower that reaches the level.
            simp only [cons_append, List.cons.injEq] at right
            have short := low' t (by simp [left, right.1])
            omega
        · have short := low t' (by simp [left])
          omega
      rw [same.1, same.2]
      exact Bool.not_eq_true _ ▸ further

theorem seek_spec (drawn : Drawn zsl towers) (reads : Reads condition test)
    (fits : ∀ n ≤ towers.length, wrap n = n) {count : Nat} {rev rest : List (Tower S)} {x : Addr}
    (split : towers = rev.reverse ++ rest) (stands : Stands zsl count rev x) :
    ∃ update rev' rest' mid, seek zsl wrap condition count x rev.length = .ok update ∧
      update.length = count ∧ Advance test count rev rest rev' rest' mid ∧
      (∀ i < count, update[i]? = some (crossing zsl.header i rev')) ∧
      (0 < count → ∀ t later, rest' = t :: later → test t (rev'.length + 1) = false) := by
  -- The levels below the top one start where the top one stopped.
  induction count generalizing rev rest x with
  | zero => exact ⟨[], rev, rest, [], rfl, rfl, .refl _ _ _, by simp, by simp⟩
  | succ i ih =>
    have shorter : rest.length < zsl.length + 1 := by
      rw [drawn.length, split, length_append]
      omega
    obtain ⟨x1, rev1, rest1, mid1, ran1, stands1, advance1, blocked1⟩ :=
      seekLevel_spec drawn reads fits split stands shorter
    have split1 : towers = rev1.reverse ++ rest1 := by
      rw [split, advance1.ahead, advance1.behind]
      simp
    obtain ⟨below, rev', rest', mid, ran, sized, advance, crossed, ends⟩ :=
      ih split1 (stands1.mono (Nat.le_succ i))
    obtain ⟨low, blocked⟩ := advance.blocked i (Nat.le_refl i) blocked1
    refine ⟨below ++ [(x1, rev1.length)], rev', rest', mid1 ++ mid, ?_, by simp [sized],
      advance1.trans advance (Nat.le_succ i), ?_, ?_⟩
    · rw [seek, ran1]
      simp only [ok_bind, ran]
      rfl
    · intro j within
      by_cases lower : j < i
      · rw [getElem?_append_left (by omega)]
        exact crossed j lower
      -- The top level was left at the node it is crossed from.
      have top : j = i := by omega
      subst top
      rw [getElem?_append_right (by omega), sized, Nat.sub_self, advance.behind,
        crossing_append_low (low_reverse.mpr low),
        stands1.crossing (Nat.lt_succ_self j)]
      rfl
    · intro _ t later ahead
      cases i with
      | zero =>
        have positive := drawn.positive t (by
          rw [split1, advance.ahead, ahead]
          simp)
        have stopped := blocked [] t later ahead .nil (by omega)
        simpa using stopped
      | succ i => exact ends (Nat.succ_pos i) t later ahead

/-- A place in the list, and the nodes that cross it. -/
structure Found (zsl : Zskiplist S) (towers : List (Tower S)) (test : Tower S → Nat → Bool)
    (rev rest : List (Tower S)) (update : List (Addr × Nat)) : Prop where
  split : towers = rev.reverse ++ rest
  sized : update.length = zsl.level
  crossed : ∀ i < zsl.level, update[i]? = some (crossing zsl.header i rev)
  passed : rev = [] ∨ ∃ t tail, rev = t :: tail ∧ test t rev.length = true
  ends : ∀ t later, rest = t :: later → test t (rev.length + 1) = false

/-- The search stops at the same place on every level and records the last node of each. -/
theorem search_spec (drawn : Drawn zsl towers) (reads : Reads condition test)
    (fits : ∀ n ≤ towers.length, wrap n = n) :
    ∃ update rev rest, search zsl wrap condition = .ok update ∧
      Found zsl towers test rev rest update := by
  obtain ⟨update, rev, rest, mid, ran, sized, advance, crossed, ends⟩ :=
    @seek_spec S zsl towers test condition wrap drawn reads fits zsl.level [] towers zsl.header
      (by simp) ⟨rfl, Nat.le_refl zsl.level⟩
  refine ⟨update, rev, rest, ran, ?_, sized, crossed, advance.passed, ends drawn.levelPositive⟩
  rw [advance.ahead, advance.behind]
  simp

end LearningNotes.Zset
