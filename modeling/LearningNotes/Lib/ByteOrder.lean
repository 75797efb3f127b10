import LearningNotes.Lib.Bytes
import Mathlib.Data.List.Lex

/-! Numbers with their highest byte first, which `memcmp` compares as numbers. -/

namespace LearningNotes.Lib

open List

instance byteOrder : LinearOrder UInt8 where
  le_refl := UInt8.le_refl
  le_trans := @UInt8.le_trans
  le_antisymm := @UInt8.le_antisymm
  le_total := UInt8.le_total
  lt_iff_le_not_ge a b := by
    rw [UInt8.not_le]
    exact ⟨fun less => ⟨UInt8.le_of_lt less, less⟩, And.right⟩
  toDecidableLE := inferInstance

/-- The lowest bytes of a number, highest first. -/
def bigEndian (width number : Nat) : Bytes := (littleEndian width number).reverse

/-- The number that bytes spell, highest first. -/
def ofBigEndian (bytes : Bytes) : Nat := ofLittleEndian bytes.reverse

@[simp] theorem length_bigEndian (width number : Nat) : (bigEndian width number).length = width := by
  simp [bigEndian]

theorem ofBigEndian_of_lt {width number : Nat} (fits : number < 256 ^ width) :
    ofBigEndian (bigEndian width number) = number := by
  rw [ofBigEndian, bigEndian, reverse_reverse, ofLittleEndian_of_lt fits]

theorem littleEndian_ofLittleEndian (bytes : Bytes) :
    littleEndian bytes.length (ofLittleEndian bytes) = bytes := by
  -- The lowest byte and the others are the remainder and the quotient by 256.
  induction bytes with
  | nil => rfl
  | cons byte bytes ih =>
    have small := byte.toNat_lt
    have low : UInt8.ofNat (byte.toNat + 256 * ofLittleEndian bytes) = byte := by
      apply UInt8.toNat.inj
      rw [UInt8.toNat_ofNat']
      omega
    have high : (byte.toNat + 256 * ofLittleEndian bytes) / 256 = ofLittleEndian bytes := by omega
    rw [length_cons, ofLittleEndian, littleEndian, low, high, ih]

theorem bigEndian_ofBigEndian (bytes : Bytes) :
    bigEndian bytes.length (ofBigEndian bytes) = bytes := by
  rw [bigEndian, ofBigEndian, ← length_reverse, littleEndian_ofLittleEndian, reverse_reverse]

/-- Of strings with parts of one length in front, the parts behind are compared last. -/
theorem append_lt_append {front front' back back' : Bytes} (length : front.length = front'.length) :
    front ++ back < front' ++ back' ↔ front < front' ∨ front = front' ∧ back < back' := by
  induction front generalizing front' with
  | nil =>
    obtain rfl := eq_nil_of_length_eq_zero length.symm
    simp
  | cons byte front ih =>
    obtain ⟨byte', front', rfl⟩ := exists_cons_of_length_eq_add_one length.symm
    simp only [cons_append, cons_lt_cons_iff, ih (Nat.succ.inj length), cons_eq_cons]
    tauto

/-- Numbers of one width have the order of their bytes. -/
theorem bigEndian_lt_bigEndian {width a b : Nat} (first : a < 256 ^ width)
    (second : b < 256 ^ width) : bigEndian width a < bigEndian width b ↔ a < b := by
  -- The last byte decides where the others are equal.
  induction width generalizing a b with
  | zero =>
    have zero : a = b := by omega
    simp [zero]
  | succ width ih =>
    have high : a / 256 < 256 ^ width := by omega
    have high' : b / 256 < 256 ^ width := by omega
    have equal : bigEndian width (a / 256) = bigEndian width (b / 256) ↔ a / 256 = b / 256 := by
      refine ⟨fun same => ?_, congrArg _⟩
      rw [← ofBigEndian_of_lt high, same, ofBigEndian_of_lt high']
    have last : [UInt8.ofNat a] < [UInt8.ofNat b] ↔ a % 256 < b % 256 := by
      simp [cons_lt_cons_iff, UInt8.lt_iff_toNat_lt]
    simp only [bigEndian, littleEndian, reverse_cons] at equal ih ⊢
    rw [append_lt_append (by simp), ih high high', equal, last]
    omega

end LearningNotes.Lib
