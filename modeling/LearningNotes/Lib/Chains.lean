import Mathlib.Tactic.Ring
import Mathlib.Data.List.Perm.Basic

/-! Lists of chains read as one collection, and keyed collections up to order. -/

namespace LearningNotes.Lib

open List

variable {α K V : Type}

variable {chains : List (List α)} {idx : Nat}

/-- Replacing a chain exchanges its members and no others. -/
theorem flatten_set_perm {old : List α} (present : chains[idx]? = some old) (new : List α) :
    ((chains.set idx new).flatten ++ old).Perm (chains.flatten ++ new) := by
  -- The chain stands in the list at its own position, and everything around it stays.
  induction chains generalizing idx with
  | nil => simp at present
  | cons chain chains ih =>
    cases idx with
    | zero =>
      simp only [getElem?_cons_zero, Option.some.injEq] at present
      subst chain
      simp only [set_cons_zero, flatten_cons, append_assoc]
      refine (perm_append_comm_assoc new _ _).trans ?_
      refine (List.Perm.append_left _ perm_append_comm).trans ?_
      exact perm_append_comm_assoc _ _ _
    | succ idx =>
      simp only [set_cons_succ, flatten_cons, append_assoc]
      exact (ih present).append_left chain

theorem flatten_set_cons_perm {chain : List α} (present : chains[idx]? = some chain) (member : α) :
    (chains.set idx (member :: chain)).flatten.Perm (member :: chains.flatten) := by
  -- Both sides gain the old chain, which then cancels.
  have exchanged := flatten_set_perm present (member :: chain)
  refine (perm_append_right_iff chain).mp (exchanged.trans ?_)
  exact perm_middle

theorem mem_flatten_iff_getElem? {member : α} :
    member ∈ chains.flatten ↔
      ∃ (idx : Nat) (chain : List α), chains[idx]? = some chain ∧ member ∈ chain := by
  constructor
  · intro inside
    obtain ⟨chain, listed, inside⟩ := mem_flatten.mp inside
    obtain ⟨idx, located⟩ := mem_iff_getElem?.mp listed
    exact ⟨idx, chain, located, inside⟩
  · rintro ⟨idx, chain, located, inside⟩
    exact mem_flatten.mpr ⟨chain, mem_of_getElem? located, inside⟩

section Keyed

variable [DecidableEq K] (key : α → K)

def lookupKey (members : List α) (wanted : K) : Option α :=
  members.find? fun member => key member = wanted

variable {members : List α} {wanted : K}

theorem lookupKey_eq_some (distinct : (members.map key).Nodup) {member : α} :
    lookupKey key members wanted = some member ↔ member ∈ members ∧ key member = wanted := by
  constructor
  · intro found
    exact ⟨mem_of_find?_eq_some found, by simpa using find?_some found⟩
  rintro ⟨inside, named⟩
  -- Any earlier hit would carry the same key, so it is the same member.
  induction members with
  | nil => simp at inside
  | cons head rest ih =>
    simp only [map_cons, nodup_cons] at distinct
    rcases mem_cons.mp inside with same | inside
    · subst head
      simp [lookupKey, named]
    · have other : key head ≠ wanted := by
        intro clash
        exact distinct.1 (by rw [clash, ← named]; exact mem_map_of_mem inside)
      simpa [lookupKey, other] using ih distinct.2 inside

theorem lookupKey_eq_none :
    lookupKey key members wanted = none ↔ ∀ member ∈ members, key member ≠ wanted := by
  simp [lookupKey]

/-- With distinct keys the order does not matter to a lookup. -/
theorem lookupKey_perm {others : List α} (distinct : (members.map key).Nodup)
    (reordered : members.Perm others) (wanted : K) :
    lookupKey key members wanted = lookupKey key others wanted := by
  have alsoDistinct : (others.map key).Nodup := (reordered.map key).nodup_iff.mp distinct
  apply Option.ext
  intro member
  rw [lookupKey_eq_some key distinct, lookupKey_eq_some key alsoDistinct, reordered.mem_iff]

theorem lookupKey_cons (member : α) (members : List α) (wanted : K) :
    lookupKey key (member :: members) wanted =
      if key member = wanted then some member else lookupKey key members wanted := by
  by_cases hit : key member = wanted
  · simp [lookupKey, hit]
  · simp [lookupKey, hit]

end Keyed

end LearningNotes.Lib
