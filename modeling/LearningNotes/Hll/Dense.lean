import LearningNotes.Hll.Basic

/-! Registers of six bits packed into bytes: setting one changes no other. -/

namespace LearningNotes.Hll

open Lib List

/-- A bit of a byte string, the lowest bit of each byte first. -/
def bitAt (p : Bytes) (i : Nat) : Bool := (p.getD (i / 8) 0).toNat.testBit (i % 8)

variable {i regnum val : Nat} {p : Bytes}

theorem testBit_byte (b : UInt8) (high : 8 ≤ i) : b.toNat.testBit i = false := by
  apply Nat.testBit_lt_two_pow
  exact Nat.lt_of_lt_of_le b.toNat_lt (Nat.pow_le_pow_right (by decide) high)

theorem testBit_registerMax (i : Nat) : hllRegisterMax.testBit i = decide (i < 6) :=
  Nat.testBit_two_pow_sub_one 6 i

/-- A register is six bits of the block, low bits first. -/
theorem testBit_denseGetRegister (p : Bytes) (regnum j : Nat) :
    (denseGetRegister p regnum).testBit j = (decide (j < 6) && bitAt p (regnum * 6 + j)) := by
  rw [denseGetRegister, Nat.testBit_and, testBit_registerMax, Bool.and_comm, hllBits]
  by_cases low : j < 6
  · simp only [low, decide_true, Nat.testBit_or, Nat.testBit_shiftRight,
      Nat.testBit_shiftLeft, bitAt]
    -- The bit is in the first byte or in the second one.
    by_cases first : regnum * 6 % 8 + j < 8
    · have byte : (regnum * 6 + j) / 8 = regnum * 6 / 8 := by omega
      have bit : (regnum * 6 + j) % 8 = regnum * 6 % 8 + j := by omega
      rw [byte, bit, decide_eq_false (by omega), Bool.false_and, Bool.or_false]
    · have byte : (regnum * 6 + j) / 8 = regnum * 6 / 8 + 1 := by omega
      have bit : (regnum * 6 + j) % 8 = j - (8 - regnum * 6 % 8) := by omega
      rw [byte, bit, testBit_byte _ (by omega), Bool.false_or, decide_eq_true (by omega),
        Bool.true_and]
  · simp [low]

theorem testBit_not (b : UInt8) (low : i < 8) : (~~~b).toNat.testBit i = !(b.toNat.testBit i) := by
  rw [← UInt8.toNat_toBitVec, ← UInt8.toNat_toBitVec, BitVec.testBit_toNat, BitVec.testBit_toNat,
    UInt8.toBitVec_not, BitVec.getLsbD_not, decide_eq_true low, Bool.true_and]

theorem testBit_ofNat (number : Nat) (low : i < 8) :
    (UInt8.ofNat number).toNat.testBit i = number.testBit i := by
  rw [UInt8.toNat_ofNat', Nat.testBit_mod_two_pow, decide_eq_true low, Bool.true_and]

theorem bitAt_maskByte (p : Bytes) {byte clear set : Nat}
    (inside : byte < p.length ∨ (clear = 0 ∧ set = 0)) (i : Nat) :
    bitAt (maskByte p byte clear set) i =
      if i / 8 = byte then
        (bitAt p i && !(clear.testBit (i % 8))) || set.testBit (i % 8)
      else bitAt p i := by
  have low : i % 8 < 8 := Nat.mod_lt _ (by decide)
  rw [bitAt, maskByte, getD_eq_getElem?_getD]
  by_cases here : i / 8 = byte
  · subst here
    rw [if_pos rfl, bitAt, getD_eq_getElem?_getD, getElem?_modify_eq]
    cases found : p[i / 8]? with
    | none =>
      rcases inside with inside | ⟨rfl, rfl⟩
      · exact absurd (List.getElem?_eq_none_iff.mp found) (by omega)
      · simp
    | some b =>
      simp only [Option.map_eq_map, Option.map_some, Option.getD_some, UInt8.toNat_or,
        UInt8.toNat_and, Nat.testBit_or, Nat.testBit_and, testBit_ofNat _ low, testBit_not _ low]
  · rw [if_neg here, getElem?_modify_ne _ _ (fun same => here same.symm), bitAt,
      getD_eq_getElem?_getD]

@[simp] theorem length_maskByte (p : Bytes) (byte clear set : Nat) :
    (maskByte p byte clear set).length = p.length := by
  rw [maskByte, length_modify]

@[simp] theorem length_denseSetRegister (p : Bytes) (regnum val : Nat) :
    (denseSetRegister p regnum val).length = p.length := by
  simp only [denseSetRegister, setBits, length_maskByte]

/-- Writing a register changes its six bits and no other. -/
theorem bitAt_denseSetRegister (size : hllDenseBytes ≤ p.length) (inside : regnum < hllRegisters)
    (small : val < 64) (i : Nat) :
    bitAt (denseSetRegister p regnum val) i =
      if regnum * 6 ≤ i ∧ i < regnum * 6 + 6 then val.testBit (i - regnum * 6)
      else bitAt p i := by
  have bytes : hllDenseBytes = 12288 := rfl
  have count : hllRegisters = 16384 := rfl
  have high : ∀ j, 6 ≤ j → val.testBit j = false := fun j above =>
    Nat.testBit_lt_two_pow (Nat.lt_of_lt_of_le small
      (Nat.pow_le_pow_right (by decide) above : 2 ^ 6 ≤ 2 ^ j))
  -- Only the last register ends with its byte, so nothing is left for the terminator behind it.
  have second : regnum * 6 / 8 + 1 < p.length ∨
      (hllRegisterMax >>> (8 - regnum * 6 % 8) = 0 ∧ val >>> (8 - regnum * 6 % 8) = 0) := by
    by_cases last : regnum * 6 / 8 + 1 < p.length
    · exact .inl last
    · obtain rfl : regnum = 16383 := by omega
      rw [Nat.shiftRight_eq_div_pow val]
      exact .inr ⟨rfl, Nat.div_eq_of_lt small⟩
  simp only [denseSetRegister, setBits, hllBits]
  rw [bitAt_maskByte _ (by rw [length_maskByte]; exact second), bitAt_maskByte _ (.inl (by omega))]
  simp only [Nat.testBit_shiftLeft, Nat.testBit_shiftRight, testBit_registerMax]
  by_cases first : i / 8 = regnum * 6 / 8
  · rw [if_neg (by omega), if_pos first]
    by_cases within : regnum * 6 ≤ i ∧ i < regnum * 6 + 6
    · rw [if_pos within, decide_eq_true (show i % 8 ≥ regnum * 6 % 8 by omega),
        decide_eq_true (show i % 8 - regnum * 6 % 8 < 6 by omega),
        show i % 8 - regnum * 6 % 8 = i - regnum * 6 by omega]
      simp
    · rw [if_neg within]
      by_cases below : i % 8 < regnum * 6 % 8
      · simp [Nat.not_le_of_lt below]
      · rw [high _ (show 6 ≤ i % 8 - regnum * 6 % 8 by omega),
          decide_eq_false (show ¬ i % 8 - regnum * 6 % 8 < 6 by omega)]
        simp
  · by_cases next : i / 8 = regnum * 6 / 8 + 1
    · rw [if_pos next, if_neg first]
      by_cases within : regnum * 6 ≤ i ∧ i < regnum * 6 + 6
      · rw [if_pos within, decide_eq_true (show 8 - regnum * 6 % 8 + i % 8 < 6 by omega),
          show 8 - regnum * 6 % 8 + i % 8 = i - regnum * 6 by omega]
        simp
      · rw [if_neg within, high _ (show 6 ≤ 8 - regnum * 6 % 8 + i % 8 by omega),
          decide_eq_false (show ¬ 8 - regnum * 6 % 8 + i % 8 < 6 by omega)]
        simp
    · rw [if_neg next, if_neg first, if_neg (by omega)]

/-- A register that was written reads back, and the others are as they were. -/
theorem denseGetRegister_set (size : hllDenseBytes ≤ p.length) (inside : regnum < hllRegisters)
    (small : val < 64) (other : Nat) :
    denseGetRegister (denseSetRegister p regnum val) other =
      if other = regnum then val else denseGetRegister p other := by
  apply Nat.eq_of_testBit_eq
  intro j
  rw [testBit_denseGetRegister, bitAt_denseSetRegister size inside small]
  by_cases low : j < 6
  · by_cases same : other = regnum
    · rw [if_pos same, if_pos (by omega), decide_eq_true low, same, Nat.add_sub_cancel_left,
        Bool.true_and]
    · rw [if_neg same, if_neg (by omega), testBit_denseGetRegister]
  · rw [decide_eq_false low, Bool.false_and]
    by_cases same : other = regnum
    · rw [if_pos same, Nat.testBit_lt_two_pow (Nat.lt_of_lt_of_le small
        (Nat.pow_le_pow_right (by decide) (Nat.le_of_not_lt low) : 2 ^ 6 ≤ 2 ^ j))]
    · rw [if_neg same, testBit_denseGetRegister, decide_eq_false low, Bool.false_and]

theorem denseGetRegister_zeros (size regnum : Nat) :
    denseGetRegister (List.replicate size 0) regnum = 0 := by
  have zero : ∀ i, (List.replicate size (0 : UInt8)).getD i 0 = 0 := by
    intro i
    rw [getD_eq_getElem?_getD, getElem?_replicate]
    split <;> rfl
  simp only [denseGetRegister, zero]
  simp

end LearningNotes.Hll
