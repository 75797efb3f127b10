import LearningNotes.Strings.Counters

/-! The numbers of BITFIELD: where a field starts, and what is stored when a sum does not fit. -/

namespace LearningNotes.Strings.Bitfield

open Lib Util GetKeys

/-- Offsets are in bits; `#` multiplies by the width if `hash` allows it. -/
def getBitOffsetFromArgument (protoMaxBulkLen : Nat) (o : Bytes) (hash : Bool) (bits : Nat) :
    Parsed Nat :=
  let err := text "bit offset is not an integer or out of range"
  let usehash := o.head? = some 35 ∧ hash = true ∧ 0 < bits
  match string2ll (if usehash then o.drop 1 else o) with
  | none => .error err
  | some loffset =>
    let loffset := if usehash then toLong (loffset * bits) else loffset
    if loffset < 0 ∨ (protoMaxBulkLen : Int) ≤ loffset / 8 then .error err else .ok loffset.toNat

/-- `#n` is accepted for fields of a width, at this bit. -/
def Accepts (protoMaxBulkLen bits : Nat) (n : Int) (offset : Nat) : Prop :=
  ∃ digits, string2ll digits = some n ∧
    getBitOffsetFromArgument protoMaxBulkLen (35 :: digits) true bits = .ok offset

theorem Accepts.offset_eq {protoMaxBulkLen bits offset : Nat} {n : Int} (positive : 0 < bits)
    (accepted : Accepts protoMaxBulkLen bits n offset) :
    (offset : Int) = toLong (n * bits) ∧ offset < 8 * protoMaxBulkLen := by
  obtain ⟨digits, parsed, result⟩ := accepted
  simp only [getBitOffsetFromArgument, List.head?_cons, positive, and_self, if_true, List.drop_one,
    List.tail_cons, parsed] at result
  split at result
  · cases result
  · cases result
    omega

/-- Of an accepted argument, the offset is exact just if the product has room in 64 bits, and then
different arguments are different fields. -/
theorem hash_offset_exact_iff {protoMaxBulkLen bits offset : Nat} {n : Int}
    (width : 1 ≤ bits ∧ bits ≤ 64) (accepted : Accepts protoMaxBulkLen bits n offset) :
    offset < 8 * protoMaxBulkLen ∧ ((offset : Int) = n * bits ↔ InLong (n * bits)) ∧
      ∀ m other, Accepts protoMaxBulkLen bits m other → InLong (n * bits) →
        InLong (m * bits) → m ≠ n → other ≠ offset := by
  obtain ⟨exactly, small⟩ := accepted.offset_eq width.1
  refine ⟨small, ⟨fun same => ?_, fun fits => ?_⟩, fun m other too fits fitsToo apart same => ?_⟩
  · rw [← same, exactly]
    exact inLong_toLong _
  · rw [exactly, toLong_of_inLong fits]
  · have products : m * bits = n * bits := by
      rw [← toLong_of_inLong fits, ← toLong_of_inLong fitsToo, ← exactly,
        ← (too.offset_eq width.1).1, same]
    have nonzero : (bits : Int) ≠ 0 := by omega
    exact apart (Int.eq_of_mul_eq_mul_right nonzero products)

theorem second_byte_accepted : Accepts (2 ^ 29) 8 1 8 ∧ (8 : Int) = 1 * 8 := by
  have accepted : Accepts (2 ^ 29) 8 1 8 := ⟨text "1", by decide +kernel, by decide +kernel⟩
  have fits : InLong (1 * (8 : Nat)) := by decide
  exact ⟨accepted, (hash_offset_exact_iff (by decide) accepted).2.1.mpr fits⟩

/-- Two fields of 64 bits with different numbers start at the same bit. -/
theorem large_number_at_zero : Accepts (2 ^ 29) 64 0 0 ∧ Accepts (2 ^ 29) 64 (2 ^ 58) 0 :=
  ⟨⟨text "0", by decide +kernel, by decide +kernel⟩,
    ⟨text "288230376151711744", by decide +kernel, by decide +kernel⟩⟩

inductive Owtype where
  | wrap
  | sat
  | fail

/-- `u` or `i` with a width. -/
inductive FieldType where
  | u (bits : Nat) (positive : 1 ≤ bits) (small : bits ≤ 63)
  | i (bits : Nat) (positive : 1 ≤ bits) (small : bits ≤ 64)

def FieldType.bits : FieldType → Nat
  | .u bits .. | .i bits .. => bits

def FieldType.max : FieldType → Int
  | .u bits .. => 2 ^ bits - 1
  | .i bits .. => 2 ^ (bits - 1) - 1

def FieldType.min : FieldType → Int
  | .u .. => 0
  | .i bits .. => -(2 ^ (bits - 1))

/-- The code that is returned at an overflow, and `limit` if it is set. -/
def overflowed (owtype : Owtype) (code wrapped bound : Int) : Int × Option Int :=
  match owtype with
  | .wrap => (1, some wrapped)
  | .sat => (code, some bound)
  | .fail => (code, none)

/-- All bits from this one on. -/
def highMask (bits : Nat) : BitVec 64 := BitVec.allOnes 64 <<< bits

/-- `handle_wrap`: the sign is repeated in all bits above. -/
def extendSign (bits : Nat) (c : BitVec 64) : BitVec 64 :=
  if bits < 64 then if c.getLsbD (bits - 1) then c ||| highMask bits else c &&& ~~~highMask bits
  else c

def checkUnsignedBitfieldOverflow (value incr : Int) (bits : Nat) (owtype : Owtype) :
    Int × Option Int :=
  let max : Int := 2 ^ bits - 1
  let maxincr := toLong (max - value)
  let minincr := toLong (-value)
  let wrapped := (BitVec.ofInt 64 (value + incr) &&& ~~~highMask bits).toNat
  if max < value ∨ 0 < incr ∧ maxincr < incr then overflowed owtype 1 wrapped max
  else if incr < 0 ∧ incr < minincr then overflowed owtype (-1) wrapped 0
  else (0, none)

def checkSignedBitfieldOverflow (value incr : Int) (bits : Nat) (owtype : Owtype) :
    Int × Option Int :=
  let max : Int := 2 ^ (bits - 1) - 1
  let min := -max - 1
  let maxincr := toLong (max - value)
  let minincr := toLong (min - value)
  let wrapped := (extendSign bits (BitVec.ofInt 64 (value + incr))).toInt
  if max < value ∨ bits ≠ 64 ∧ maxincr < incr ∨ 0 ≤ value ∧ 0 < incr ∧ maxincr < incr then
    overflowed owtype 1 wrapped max
  else if value < min ∨ bits ≠ 64 ∧ incr < minincr ∨ value < 0 ∧ incr < 0 ∧ incr < minincr then
    overflowed owtype (-1) wrapped min
  else (0, none)

/-- The check that `bitfieldGeneric` makes for a field. -/
def checkOverflow (value incr : Int) (owtype : Owtype) : FieldType → Int × Option Int
  | .u bits .. => checkUnsignedBitfieldOverflow value incr bits owtype
  | .i bits .. => checkSignedBitfieldOverflow value incr bits owtype

/-- SET passes 64 bits and no increment, INCRBY a number of the field and any increment. -/
def Passed (value incr : Int) : FieldType → Prop
  | .u bits .. => incr = 0 ∧ 0 ≤ value ∧ value < 2 ^ 64 ∨
      InLong incr ∧ 0 ≤ value ∧ value < 2 ^ bits
  | .i bits .. => incr = 0 ∧ InLong value ∨
      InLong incr ∧ -(2 ^ (bits - 1)) ≤ value ∧ value < 2 ^ (bits - 1)

/-- A sum is found to fit just if it does; else the limit is the bound, or the wrapped sum. -/
def Right (min max sum : Int) (bits : Nat) (owtype : Owtype) (result : Int × Option Int) : Prop :=
  (result.1 = 0 ↔ min ≤ sum ∧ sum ≤ max) ∧ (result.1 ≠ 0 → match owtype with
    | .wrap => ∃ limit, result.2 = some limit ∧ (min ≤ limit ∧ limit ≤ max) ∧
        limit.bmod (2 ^ bits) = sum.bmod (2 ^ bits)
    | .sat => result.2 = some (if max < sum then max else min)
    | .fail => True)

/-- The signed check has no room for the rest, and saturates at the wrong side. -/
def Misjudged (value : Int) (owtype : Owtype) : FieldType → Prop
  | .u .. => False
  | .i bits .. => owtype = .sat ∧ bits ≠ 64 ∧ value < 2 ^ (bits - 1) - 2 ^ 63

theorem toLong_cases {value : Int} (low : -(2 ^ 64) ≤ value) (high : value < 2 ^ 64) :
    toLong value = value ∧ InLong value ∨ toLong value = value - 2 ^ 64 ∧ 2 ^ 63 ≤ value ∨
      toLong value = value + 2 ^ 64 ∧ value < -(2 ^ 63) := by
  rw [toLong, InLong]
  omega

theorem getElem_highMask (bits : Nat) {i : Nat} (inside : i < 64) :
    (highMask bits)[i] = decide (bits ≤ i) := by
  rw [Bool.eq_iff_iff]
  simp only [highMask, BitVec.getElem_shiftLeft, BitVec.getElem_allOnes]
  simp

section Bits

variable {bits : Nat} (small : bits ≤ 64) (sum : Int)
include small

theorem low_bits : (BitVec.ofInt 64 sum).setWidth bits = BitVec.ofInt bits sum := by
  have divides := Int.natCast_dvd_natCast.mpr (Nat.pow_dvd_pow 2 small)
  have low := Int.emod_nonneg sum (show ((2 ^ 64 : Nat) : Int) ≠ 0 by decide)
  apply BitVec.eq_of_toInt_eq
  rw [BitVec.toInt_setWidth, BitVec.toInt_ofInt, BitVec.toNat_ofInt, Int.toNat_of_nonneg low,
    ← Int.emod_bmod, Int.emod_emod_of_dvd _ divides, Int.emod_bmod]

theorem toNat_clear :
    ((BitVec.ofInt 64 sum &&& ~~~highMask bits).toNat : Int) = sum % 2 ^ bits := by
  have cut : BitVec.ofInt 64 sum &&& ~~~highMask bits = (BitVec.ofInt bits sum).setWidth 64 := by
    rw [← low_bits small]
    ext i inside
    by_cases low : i < bits
    · simp [getElem_highMask, low, BitVec.getLsbD_eq_getElem inside]
    · simp [getElem_highMask, Nat.le_of_not_lt low]
  have nonzero : (2 : Int) ^ bits ≠ 0 := Int.ne_of_gt (Int.pow_pos (by decide))
  rw [cut, BitVec.toNat_setWidth_of_le small, BitVec.toNat_ofInt, Int.natCast_pow]
  exact Int.toNat_of_nonneg (Int.emod_nonneg _ nonzero)

theorem toInt_extendSign (positive : 1 ≤ bits) :
    (extendSign bits (BitVec.ofInt 64 sum)).toInt = sum.bmod (2 ^ bits) := by
  have extended : extendSign bits (BitVec.ofInt 64 sum) =
      ((BitVec.ofInt 64 sum).setWidth bits).signExtend 64 := by
    generalize BitVec.ofInt 64 sum = c
    have sign : (c.setWidth bits).msb = c.getLsbD (bits - 1) := by
      simp [BitVec.msb_eq_getLsbD_last]
      omega
    ext i inside
    have same := BitVec.getLsbD_eq_getElem (x := c) inside
    rw [BitVec.getElem_signExtend, sign, extendSign]
    by_cases low : i < bits
    · split
      · split
        · simp [getElem_highMask, same, Nat.not_le.mpr low]
        · simp [getElem_highMask, low, same]
      · simp [same]
    · rw [if_pos (by omega)]
      split
      · rename_i set
        simp [getElem_highMask, Nat.le_of_not_lt low, set]
      · rename_i clear
        simp [getElem_highMask, Nat.le_of_not_lt low, clear]
  rw [extended, BitVec.toInt_signExtend_of_le small, low_bits small, BitVec.toInt_ofInt]

end Bits

section Checks

variable {bits : Nat} {value incr min max : Int} (positive : 1 ≤ bits) (owtype : Owtype)

theorem right_overflowed {sum wrapped bound code : Int} (outside : ¬ (min ≤ sum ∧ sum ≤ max))
    (nonzero : code ≠ 0) (inside : min ≤ wrapped ∧ wrapped ≤ max)
    (congruent : wrapped.bmod (2 ^ bits) = sum.bmod (2 ^ bits)) :
    Right min max sum bits owtype (overflowed owtype code wrapped bound) ↔
      (owtype = .sat → bound = if max < sum then max else min) := by
  cases owtype with
  | wrap => simp [Right, overflowed, outside, inside, congruent]
  | sat => simp [Right, overflowed, outside, nonzero]
  | fail => simp [Right, overflowed, outside, nonzero]

theorem right_fits {sum : Int} (inside : min ≤ sum ∧ sum ≤ max) :
    Right min max sum bits owtype (0, none) :=
  ⟨iff_of_true rfl inside, fun nonzero => absurd rfl nonzero⟩

theorem pow_le_pow {low high : Nat} (less : low ≤ high) : (2 : Int) ^ low ≤ 2 ^ high := by
  exact_mod_cast Nat.pow_le_pow_right (by decide) less

theorem unsigned_right (small : bits ≤ 63) (passed : Passed value incr (.u bits positive small)) :
    Right 0 (2 ^ bits - 1) (value + incr) bits owtype
      (checkUnsignedBitfieldOverflow value incr bits owtype) := by
  have bound := pow_le_pow small
  have some := pow_le_pow (Nat.zero_le bits)
  have congruent :
      ((value + incr) % 2 ^ bits).bmod (2 ^ bits) = (value + incr).bmod (2 ^ bits) := by
    exact_mod_cast Int.emod_bmod (value + incr) (2 ^ bits)
  have low := Int.emod_nonneg (value + incr) (show (2 : Int) ^ bits ≠ 0 by omega)
  have high := Int.emod_lt_of_pos (value + incr) (show (0 : Int) < 2 ^ bits by omega)
  simp only [Passed, InLong] at passed
  have above := @toLong_cases (2 ^ bits - 1 - value) (by omega) (by omega)
  have below := @toLong_cases (-value) (by omega) (by omega)
  simp only [InLong] at above below
  simp only [checkUnsignedBitfieldOverflow, toNat_clear (Nat.le_succ_of_le small)]
  split
  · refine (right_overflowed owtype (by omega) (by decide) (by omega) congruent).mpr fun _ => ?_
    rw [if_pos (by omega)]
  · split
    · refine (right_overflowed owtype (by omega) (by decide) (by omega) congruent).mpr fun _ => ?_
      rw [if_neg (by omega)]
    · exact right_fits owtype (by omega)

theorem signed_right_iff (small : bits ≤ 64) (passed : Passed value incr (.i bits positive small)) :
    Right (-(2 ^ (bits - 1))) (2 ^ (bits - 1) - 1) (value + incr) bits owtype
      (checkSignedBitfieldOverflow value incr bits owtype) ↔
      ¬ Misjudged value owtype (.i bits positive small) := by
  have congruent := @Int.bmod_bmod (value + incr) (2 ^ bits)
  have low := (BitVec.ofInt bits (value + incr)).le_toInt
  have high := (BitVec.ofInt bits (value + incr)).toInt_lt
  rw [BitVec.toInt_ofInt] at low high
  have some := pow_le_pow (Nat.zero_le (bits - 1))
  have full : bits = 64 → (2 : Int) ^ (bits - 1) = 2 ^ 63 := fun full => by rw [full]
  have bound : bits ≠ 64 → (2 : Int) ^ (bits - 1) ≤ 2 ^ 62 := fun less => pow_le_pow (by omega)
  simp only [Passed, InLong] at passed
  have above := @toLong_cases (2 ^ (bits - 1) - 1 - value) (by omega) (by omega)
  have below := @toLong_cases (-(2 ^ (bits - 1) - 1) - 1 - value) (by omega) (by omega)
  simp only [InLong] at above below
  simp only [checkSignedBitfieldOverflow, toInt_extendSign small _ positive, Misjudged]
  split
  · rw [right_overflowed owtype (by omega) (by decide) (by omega) congruent]
    by_cases above : 2 ^ (bits - 1) - 1 < value + incr
    · rw [if_pos above]
      exact iff_of_true (fun _ => rfl) (by omega)
    · rw [if_neg above]
      constructor
      · intro right wrong
        have same := right wrong.1
        omega
      · intro right saturates
        exact absurd ⟨saturates, by omega, by omega⟩ right
  · split
    · rw [right_overflowed owtype (by omega) (by decide) (by omega) congruent, if_neg (by omega)]
      exact iff_of_true (fun _ => by omega) (by omega)
    · exact iff_of_true (right_fits owtype (by omega)) (by omega)

end Checks

/-- The check is right for all that SET and INCRBY pass, except that a signed field of less than 64
bits saturates at its greatest number when SET is given one of the least numbers. -/
theorem overflow_right_iff {value incr : Int} (type : FieldType) (passed : Passed value incr type)
    (owtype : Owtype) : Right type.min type.max (value + incr) type.bits owtype
      (checkOverflow value incr owtype type) ↔ ¬ Misjudged value owtype type := by
  cases type with
  | u bits positive small => exact iff_of_true (unsigned_right positive owtype small passed) id
  | i bits positive small => exact signed_right_iff positive owtype small passed

theorem byte_wraps :
    Right 0 255 256 8 .wrap (checkOverflow 255 1 .wrap (.u 8 (by decide) (by decide))) :=
  (overflow_right_iff (.u 8 (by decide) (by decide)) (.inr (by decide)) .wrap).mpr id

/-- The least number of 64 bits is stored as the greatest of 8. -/
theorem least_saturates_above :
    checkOverflow (-(2 ^ 63)) 0 .sat (.i 8 (by decide) (by decide)) = (1, some 127) := by
  decide +kernel

end LearningNotes.Strings.Bitfield
