import Mathlib.Tactic.Ring

/-! The table of `stralgoLCS`, one array for all cells. -/

namespace LearningNotes.Strings.Lcs

/-- The number of cells, as an `unsigned long long`. -/
def lcssize (a b : Nat) : Nat := (a + 1) % 2 ^ 32 * ((b + 1) % 2 ^ 32) % 2 ^ 64

/-- Two lengths pass the tests, and `ztrymalloc` finds the memory. -/
def accepts (ztrymalloc : Nat → Bool) (a b : Nat) : Bool :=
  let lcsalloc := lcssize a b * 4 % 2 ^ 64
  !(2 ^ 32 - 2 ≤ a || 2 ^ 32 - 2 ≤ b) && lcsalloc < 2 ^ 64 - 1 &&
    lcsalloc / lcssize a b == 4 && ztrymalloc lcsalloc

/-- The macro `LCS`; its operands are `uint32_t`. -/
def lcsIndex (blen i j : Nat) : Nat := (j + i * (blen + 1)) % 2 ^ 32

def Separate (a b : Nat) : Prop :=
  ∀ i ≤ a, ∀ j ≤ b, lcsIndex b i j < lcssize a b ∧
    ∀ i' ≤ a, ∀ j' ≤ b, lcsIndex b i j = lcsIndex b i' j' → i = i' ∧ j = j'

theorem lcssize_eq {ztrymalloc : Nat → Bool} {a b : Nat} (accepted : accepts ztrymalloc a b) :
    lcssize a b = (a + 1) * (b + 1) := by
  have short : a + 1 < 2 ^ 32 ∧ b + 1 < 2 ^ 32 := by
    simp [accepts] at accepted
    omega
  have product : (a + 1) * (b + 1) < 2 ^ 64 := by
    have squared := Nat.mul_lt_mul'' short.1 short.2
    omega
  rw [lcssize, Nat.mod_eq_of_lt short.1, Nat.mod_eq_of_lt short.2, Nat.mod_eq_of_lt product]

theorem cell_lt {a b i j : Nat} (row : i ≤ a) (column : j ≤ b) :
    j + i * (b + 1) < (a + 1) * (b + 1) := by
  have rows := Nat.mul_le_mul_right (b + 1) row
  rw [Nat.add_mul]
  omega

theorem cell_inj {b i j i' j' : Nat} (column : j ≤ b) (column' : j' ≤ b)
    (same : j + i * (b + 1) = j' + i' * (b + 1)) : i = i' ∧ j = j' := by
  have rows := congrArg (· / (b + 1)) same
  have columns := congrArg (· % (b + 1)) same
  simp only [Nat.add_mul_div_right _ _ b.succ_pos, Nat.add_mul_mod_self_right] at rows columns
  rw [Nat.div_eq_of_lt (by omega), Nat.div_eq_of_lt (by omega)] at rows
  rw [Nat.mod_eq_of_lt (by omega), Nat.mod_eq_of_lt (by omega)] at columns
  omega

/-- The cells of an accepted pair of lengths are separate exactly if 32 bits can number them. -/
theorem separate_iff (ztrymalloc : Nat → Bool) (a b : Nat) (accepted : accepts ztrymalloc a b) :
    Separate a b ↔ lcssize a b ≤ 2 ^ 32 := by
  rw [Separate, lcssize_eq accepted]
  constructor
  · intro separate
    refine Nat.le_of_not_lt fun more => ?_
    -- The cell behind the first 2^32 ones gets the place of the first one.
    have row : 2 ^ 32 / (b + 1) ≤ a :=
      Nat.le_of_lt_succ ((Nat.div_lt_iff_lt_mul b.succ_pos).mpr more)
    have column : 2 ^ 32 % (b + 1) ≤ b := Nat.le_of_lt_succ (Nat.mod_lt _ b.succ_pos)
    have place : 2 ^ 32 % (b + 1) + 2 ^ 32 / (b + 1) * (b + 1) = 2 ^ 32 := by
      rw [Nat.mul_comm, Nat.mod_add_div]
    have clash := (separate _ row _ column).2 0 a.zero_le 0 b.zero_le
      (by rw [lcsIndex, place, lcsIndex]; simp)
    rw [clash.1, clash.2] at place
    omega
  · intro fits i row j column
    have bound := cell_lt row column
    refine ⟨?_, fun i' row' j' column' same => ?_⟩
    · exact Nat.lt_of_le_of_lt (Nat.mod_le _ _) bound
    · have bound' := cell_lt row' column'
      rw [lcsIndex, lcsIndex, Nat.mod_eq_of_lt (by omega), Nat.mod_eq_of_lt (by omega)] at same
      exact cell_inj column column' same

/-- The cells of two short strings are separate. -/
theorem short_separate : Separate 2 3 ↔ lcssize 2 3 ≤ 2 ^ 32 :=
  separate_iff (fun _ => true) 2 3 (by decide)

/-- Strings of 65536 and 65535 bytes are accepted, and two of their cells have one place. -/
theorem cells_clash : accepts (fun _ => true) 65536 65535 ∧
    lcsIndex 65535 65536 0 = lcsIndex 65535 0 0 := by
  decide

end LearningNotes.Strings.Lcs
