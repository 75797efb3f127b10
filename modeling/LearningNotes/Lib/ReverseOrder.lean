import Mathlib.Tactic.Ring

/-! Words ordered by their bits read backwards, and the counting that this order admits. -/

namespace LearningNotes.Lib

section Blocks

/-- Where the block of a given width around a number ends. -/
def blockEnd (width number : Nat) : Nat := (number / width + 1) * width

variable {width larger number other : Nat}

theorem lt_blockEnd (positive : 0 < width) : number < blockEnd width number := by
  have split := Nat.div_add_mod number width
  have rest := Nat.mod_lt number positive
  rw [Nat.mul_comm] at split
  rw [blockEnd, Nat.add_mul]
  omega

theorem div_eq_of_lt_blockEnd (above : number ≤ other) (below : other < blockEnd width number) :
    other / width = number / width :=
  Nat.div_eq_of_lt_le (Nat.le_trans (Nat.div_mul_le_self number width) above) below

theorem blockEnd_eq_of_lt (above : number ≤ other) (below : other < blockEnd width number) :
    blockEnd width other = blockEnd width number := by
  rw [blockEnd, blockEnd, div_eq_of_lt_blockEnd above below]

theorem blockEnd_mod (width number : Nat) : blockEnd width number % width = 0 :=
  Nat.mul_mod_left _ _

theorem blockEnd_le_blockEnd (positive : 0 < width) (larger_pos : 0 < larger)
    (divides : width ∣ larger) : blockEnd width number ≤ blockEnd larger number := by
  obtain ⟨factor, rfl⟩ := divides
  have inside : number < blockEnd (width * factor) number := lt_blockEnd larger_pos
  -- Counted in small widths, the number lies strictly below the end of the large block.
  rw [blockEnd, Nat.mul_comm width factor, ← Nat.mul_assoc] at inside
  have quotient : number / width < (number / (factor * width) + 1) * factor :=
    (Nat.div_lt_iff_lt_mul positive).mpr inside
  rw [blockEnd, blockEnd, Nat.mul_comm width factor, ← Nat.mul_assoc]
  exact Nat.mul_le_mul_right width quotient

theorem mod_ne_zero_of_lt_blockEnd (above : number < other)
    (below : other < blockEnd width number) : other % width ≠ 0 := by
  have same := div_eq_of_lt_blockEnd (Nat.le_of_lt above) below
  have split := Nat.div_add_mod other width
  have floor := Nat.div_mul_le_self number width
  rw [same, Nat.mul_comm] at split
  omega

theorem blockEnd_le_two_pow {bits power : Nat} (within : bits ≤ power)
    (inside : number < 2 ^ power) : blockEnd (2 ^ bits) number ≤ 2 ^ power := by
  have whole : blockEnd (2 ^ power) number = 2 ^ power := by
    rw [blockEnd, Nat.div_eq_of_lt inside, Nat.one_mul]
  have fits : blockEnd (2 ^ bits) number ≤ blockEnd (2 ^ power) number :=
    blockEnd_le_blockEnd (Nat.two_pow_pos bits) (Nat.two_pow_pos power) (Nat.pow_dvd_pow 2 within)
  omega

end Blocks

variable {w : Nat}

/-- The number that a word spells with its lowest bit first. -/
def backwards (x : BitVec w) : Nat := x.reverse.toNat

def lowMask (w bits : Nat) : BitVec w := BitVec.ofNat w (2 ^ bits - 1)

theorem backwards_lt (x : BitVec w) : backwards x < 2 ^ w := x.reverse.isLt

theorem testBit_backwards (x : BitVec w) (i : Nat) :
    (backwards x).testBit i = (decide (i < w) && x.getLsbD (w - 1 - i)) := by
  rw [backwards, BitVec.testBit_toNat, BitVec.getLsbD_reverse, BitVec.getMsbD]

variable {x : BitVec w} {bits : Nat}

theorem backwards_eq_zero : backwards x = 0 ↔ x = 0#w := by
  rw [← BitVec.reverse_eq_zero_iff, backwards]
  constructor
  · exact fun zero => BitVec.eq_of_toNat_eq (by simpa using zero)
  · exact fun zero => by simp [zero]

theorem getLsbD_lowMask (within : bits ≤ w) (i : Nat) :
    (lowMask w bits).getLsbD i = decide (i < bits) := by
  rw [lowMask, BitVec.getLsbD_ofNat, Nat.testBit_two_pow_sub_one]
  by_cases low : i < bits
  · simp [Nat.lt_of_lt_of_le low within]
  · simp [low]

/-- Words agree on their low bits just if their backward numbers share a block. -/
theorem mod_eq_iff_backwards_div {y : BitVec w} (within : bits ≤ w) :
    x.toNat % 2 ^ bits = y.toNat % 2 ^ bits ↔
      backwards x / 2 ^ (w - bits) = backwards y / 2 ^ (w - bits) := by
  -- Both sides say that the lowest bits agree, the right side from the other end.
  constructor
  · intro agree
    apply Nat.eq_of_testBit_eq
    intro i
    rw [Nat.testBit_div_two_pow, Nat.testBit_div_two_pow, testBit_backwards, testBit_backwards]
    by_cases low : i + (w - bits) < w
    · have same := congrArg (fun n => n.testBit (w - 1 - (i + (w - bits)))) agree
      simp only [Nat.testBit_mod_two_pow, BitVec.testBit_toNat] at same
      rw [decide_eq_true (by omega : w - 1 - (i + (w - bits)) < bits)] at same
      simpa [low] using same
    · simp [low]
  intro agree
  apply Nat.eq_of_testBit_eq
  intro i
  rw [Nat.testBit_mod_two_pow, Nat.testBit_mod_two_pow, BitVec.testBit_toNat, BitVec.testBit_toNat]
  by_cases low : i < bits
  · have same := congrArg (fun n => n.testBit (bits - 1 - i)) agree
    simp only [Nat.testBit_div_two_pow, testBit_backwards] at same
    rw [decide_eq_true (by omega : bits - 1 - i + (w - bits) < w),
      show w - 1 - (bits - 1 - i + (w - bits)) = i by omega] at same
    simpa [low] using same
  · simp [low]

/-- Filling the bits outside the mask leads to the last place of the block. -/
theorem backwards_or_not_lowMask (x : BitVec w) (within : bits ≤ w) :
    backwards (x ||| ~~~lowMask w bits) + 1 = blockEnd (2 ^ (w - bits)) (backwards x) := by
  have filled : backwards (x ||| ~~~lowMask w bits) =
      2 ^ (w - bits) * (backwards x / 2 ^ (w - bits)) + (2 ^ (w - bits) - 1) := by
    apply Nat.eq_of_testBit_eq
    intro i
    rw [Nat.testBit_two_pow_mul_add _ (Nat.sub_lt (Nat.two_pow_pos _) Nat.one_pos),
      testBit_backwards]
    by_cases inside : i < w
    · rw [BitVec.getLsbD_or, BitVec.getLsbD_not, getLsbD_lowMask within]
      by_cases low : i < w - bits
      · simp [inside, low, show ¬ w - 1 - i < bits by omega, show w - 1 - i < w by omega]
      · rw [if_neg low, Nat.testBit_div_two_pow, testBit_backwards,
          Nat.sub_add_cancel (by omega : w - bits ≤ i)]
        simp [show w - 1 - i < bits by omega]
    · rw [if_neg (by omega), Nat.testBit_div_two_pow, testBit_backwards]
      simp [inside, show ¬ i - (w - bits) + (w - bits) < w by omega]
  have positive := Nat.two_pow_pos (w - bits)
  rw [blockEnd, Nat.add_mul, Nat.mul_comm]
  omega

/-- Add one to the backward number, carrying into the low bits only. -/
def backwardsSucc (x mask : BitVec w) : BitVec w := ((x ||| ~~~mask).reverse + 1#w).reverse

/-- Counting backwards under a mask leads to the next block. -/
theorem backwards_backwardsSucc (x : BitVec w) (within : bits ≤ w) :
    backwards (backwardsSucc x (lowMask w bits)) =
      blockEnd (2 ^ (w - bits)) (backwards x) % 2 ^ w := by
  rw [backwardsSucc, backwards, BitVec.reverse_reverse_eq, BitVec.toNat_add,
    ← backwards_or_not_lowMask x within, backwards, BitVec.toNat_ofNat, Nat.add_mod_mod]

/-- The bits between two masks vanish just at the start of a smaller block. -/
theorem and_xor_lowMask_eq_zero {small large : Nat} (order : small ≤ large) (within : large ≤ w)
    (aligned : backwards x % 2 ^ (w - large) = 0) :
    x &&& (lowMask w small ^^^ lowMask w large) = 0#w ↔ backwards x % 2 ^ (w - small) = 0 := by
  have belowBits : ∀ i, i < w - large → (backwards x).testBit i = false := by
    intro i low
    have := congrArg (fun n => n.testBit i) aligned
    simpa [low] using this
  constructor
  · intro clear
    apply Nat.eq_of_testBit_eq
    intro i
    rw [Nat.testBit_mod_two_pow, Nat.zero_testBit]
    by_cases low : i < w - large
    · simp [belowBits i low]
    -- The remaining bits are exactly those between the two masks.
    by_cases between : i < w - small
    · have bit := congrArg (fun y => y.getLsbD (w - 1 - i)) clear
      simp only [BitVec.getLsbD_and, BitVec.getLsbD_xor, getLsbD_lowMask within,
        getLsbD_lowMask (Nat.le_trans order within)] at bit
      rw [testBit_backwards]
      simpa [between, show i < w by omega, show ¬ w - 1 - i < small by omega,
        show w - 1 - i < large by omega] using bit
    · simp [between]
  · intro start
    apply BitVec.eq_of_getLsbD_eq
    intro i inside
    simp only [BitVec.getLsbD_and, BitVec.getLsbD_xor, getLsbD_lowMask within,
      getLsbD_lowMask (Nat.le_trans order within)]
    by_cases between : small ≤ i ∧ i < large
    · have bit := congrArg (fun n => n.testBit (w - 1 - i)) start
      simp only [Nat.testBit_mod_two_pow, testBit_backwards] at bit
      rw [decide_eq_true (by omega : w - 1 - i < w - small),
        decide_eq_true (by omega : w - 1 - i < w), show w - 1 - (w - 1 - i) = i by omega] at bit
      have clear : x.getLsbD i = false := by simpa using bit
      simp [clear]
    · by_cases low : i < small
      · simp [low, show i < large by omega]
      · simp [low, show ¬ i < large by omega]

end LearningNotes.Lib
