import Mathlib.Algebra.BigOperators.Group.Finset.Basic
import Mathlib.Algebra.Order.BigOperators.Group.Finset
import Mathlib.Data.Fintype.Order

/-! Counts that are bounded through the counts of larger indices are bounded. -/

namespace LearningNotes.Lib

variable {ι Run : Type} [Fintype ι] [LinearOrder ι]

/-- If the larger indices bound every count, all counts have one bound. -/
theorem bounded_of_cascade (count : Run → ι → Nat) (slack : ι → Nat)
    (cascade : ∀ run i, count run i ≤ ∑ s ∈ Finset.univ.filter (i < ·), (slack s + count run s)) :
    ∃ bound, ∀ run, ∑ i, count run i ≤ bound := by
  -- From the largest index downwards, each index has a bound for all runs.
  have each : ∀ i, ∃ bound, ∀ run, count run i ≤ bound := by
    intro i
    induction i using WellFoundedGT.induction with
    | _ i ih =>
      choose! bound bounded using ih
      refine ⟨∑ s ∈ Finset.univ.filter (i < ·), (slack s + bound s), fun run => ?_⟩
      refine Nat.le_trans (cascade run i) (Finset.sum_le_sum fun s larger => ?_)
      exact Nat.add_le_add_left (bounded s (Finset.mem_filter.mp larger).2 run) _
  choose bound bounded using each
  exact ⟨∑ i, bound i, fun run => Finset.sum_le_sum fun i _ => bounded i run⟩

end LearningNotes.Lib
