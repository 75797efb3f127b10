import Mathlib.Tactic.Ring
import Mathlib.Data.Fintype.Card

/-! Votes in epochs: where no voter votes twice in an epoch, two majorities share a candidate. -/

namespace LearningNotes.Lib

open List

variable {V C : Type} [DecidableEq C]

abbrev Vote (V C : Type) := V × C × Nat

/-- The votes that a candidate got in an epoch. -/
def support (votes : List (Vote V C)) (candidate : C) (epoch : Nat) : Nat :=
  votes.countP fun vote => vote.2 = (candidate, epoch)

def SingleVotes (votes : List (Vote V C)) : Prop :=
  (votes.map fun vote => (vote.1, vote.2.2)).Nodup

theorem support_cons (vote : Vote V C) (votes : List (Vote V C)) (candidate : C) (epoch : Nat) :
    support (vote :: votes) candidate epoch =
      support votes candidate epoch + if vote.2 = (candidate, epoch) then 1 else 0 := by
  rw [support, countP_cons, support]
  simp only [decide_eq_true_eq]

theorem support_le_cons (vote : Vote V C) (votes : List (Vote V C)) (candidate : C)
    (epoch : Nat) : support votes candidate epoch ≤ support (vote :: votes) candidate epoch := by
  rw [support_cons]
  exact Nat.le_add_right _ _

variable {votes : List (Vote V C)} {candidate : C} {epoch : Nat}

theorem exists_vote (supported : 0 < support votes candidate epoch) :
    ∃ voter, (voter, candidate, epoch) ∈ votes := by
  obtain ⟨⟨voter, rest⟩, listed, same⟩ := countP_pos_iff.mp supported
  rw [decide_eq_true_eq] at same
  exact ⟨voter, same ▸ listed⟩

theorem length_le_support [DecidableEq V] {voters : List V} (distinct : voters.Nodup)
    (voted : ∀ voter ∈ voters, (voter, candidate, epoch) ∈ votes) :
    voters.length ≤ support votes candidate epoch := by
  -- Their votes are different members of the votes that are counted.
  have different : (voters.map fun voter => (voter, candidate, epoch)).Nodup :=
    distinct.map fun _ _ same => (Prod.mk.inj same).1
  have counted : (voters.map fun voter => (voter, candidate, epoch)) ⊆
      votes.filter fun vote => vote.2 = (candidate, epoch) := by
    intro vote listed
    obtain ⟨voter, member, rfl⟩ := mem_map.mp listed
    exact mem_filter.mpr ⟨voted voter member, by simp⟩
  have bound := (subperm_of_subset different counted).length_le
  rwa [length_map, ← countP_eq_length_filter] at bound

/-- Candidates with more votes together than there are voters are the same. -/
theorem quorum_unique [Fintype V] {votes : List (Vote V C)} (single : SingleVotes votes)
    {first second : C} {epoch : Nat}
    (many : Fintype.card V < support votes first epoch + support votes second epoch) :
    first = second := by
  by_contra differ
  -- The votes for the two are different ones, and all of them are in this epoch.
  have apart : support votes first epoch + support votes second epoch ≤
      votes.countP fun vote => vote.2.2 = epoch := by
    clear many single
    induction votes with
    | nil => exact Nat.le_refl 0
    | cons vote votes ih =>
      obtain ⟨voter, candidate, when_⟩ := vote
      rw [support_cons, support_cons, countP_cons]
      simp only [Prod.mk.injEq, decide_eq_true_eq]
      by_cases now : when_ = epoch
      · by_cases one : candidate = first
        · rw [if_pos ⟨one, now⟩, if_neg (fun both => differ (one.symm.trans both.1)), if_pos now]
          omega
        · rw [if_neg (fun both => one both.1), if_pos now]
          split <;> omega
      · rw [if_neg (fun both => now both.2), if_neg (fun both => now both.2), if_neg now]
        omega
  -- Each voter cast at most one of them.
  have distinct : ((votes.filter fun vote => vote.2.2 = epoch).map Prod.fst).Nodup := by
    have pairs : ((votes.filter fun vote => vote.2.2 = epoch).map
        fun vote => (vote.1, vote.2.2)).Nodup := single.sublist (filter_sublist.map _)
    have same : (votes.filter fun vote => vote.2.2 = epoch).map (fun vote => (vote.1, vote.2.2)) =
        ((votes.filter fun vote => vote.2.2 = epoch).map Prod.fst).map fun voter => (voter, epoch) := by
      rw [map_map]
      apply map_congr_left
      intro vote listed
      have when_ := (mem_filter.mp listed).2
      rw [decide_eq_true_eq] at when_
      rw [Function.comp_apply, when_]
    rw [same] at pairs
    exact pairs.of_map _
  have bound := distinct.length_le_card
  rw [length_map, ← countP_eq_length_filter] at bound
  omega

end LearningNotes.Lib
