import LearningNotes.Lib.Decimal
import LearningNotes.Lib.Word

/-! The strict integer parser of `util.c`, which accepts canonical decimals only. -/

namespace LearningNotes.Util

open Lib List

def ullongMax : Nat := 2 ^ 64 - 1

def llongMax : Nat := 2 ^ 63 - 1

def charBetween (low high byte : UInt8) : Bool := decide (low ≤ byte) && decide (byte ≤ high)

/-- The digit loop of `string2ll`; nothing may follow the digits. -/
def parseDigits : Nat → Bytes → Option Nat
  | v, [] => some v
  | v, byte :: rest =>
    if charBetween 48 57 byte then
      if ullongMax / 10 < v then none
      else if ullongMax - (byte.toNat - 48) < v * 10 then none
      else parseDigits (v * 10 + (byte.toNat - 48)) rest
    else none

/-- The part of `string2ll` after the sign. -/
def parseMagnitude : Bytes → Option Nat
  | [] => none
  | byte :: rest =>
    if charBetween 49 57 byte then parseDigits (byte.toNat - 48) rest else none

/-- The value of a string that strictly represents a long long. -/
def string2ll (s : Bytes) : Option Int :=
  if s = [48] then some 0
  else if s.head? = some 45 then
    (parseMagnitude s.tail).bind fun v => if llongMax + 1 < v then none else some (-(v : Int))
  else
    (parseMagnitude s).bind fun v => if llongMax < v then none else some (v : Int)

/-- `digits10` for a number of at most twelve digits. -/
def digits10Small (v : Nat) : Nat :=
  if v < 10 then 1
  else if v < 100 then 2
  else if v < 1000 then 3
  else if v < 100000000 then
    if v < 1000000 then
      if v < 10000 then 4 else 5 + if 100000 ≤ v then 1 else 0
    else 7 + if 10000000 ≤ v then 1 else 0
  else if v < 10000000000 then 9 + if 1000000000 ≤ v then 1 else 0
  else 11 + if 100000000000 ≤ v then 1 else 0

/-- `digits10`, which calls itself as often as there is fuel. -/
def digits10With : Nat → Nat → Nat
  | 0, v => digits10Small v
  | fuel + 1, v =>
    if v < 1000000000000 then digits10Small v
    else 12 + digits10With fuel (v / 1000000000000)

/-- `digits10`: the number of digits of an unsigned number. -/
def digits10 (v : Nat) : Nat := digits10With v v

/-- `sdigits10`: the number of characters of a signed number. -/
def sdigits10 (v : Int) : Nat := if v < 0 then digits10 v.natAbs + 1 else digits10 v.natAbs

/-- The table of `ll2string`: the two digits of each number below one hundred. -/
def digits : Bytes :=
  (range 100).flatMap fun number => [UInt8.ofNat (48 + number / 10), UInt8.ofNat (48 + number % 10)]

/-- Write two digits, the last one to `next`. -/
def writePair (dst : Bytes) (next value : Nat) : Bytes :=
  (dst.set next (digits.getD (value * 2 + 1) 0)).set (next - 1) (digits.getD (value * 2) 0)

/-- The loop of `ll2string` over pairs of digits, and its end. -/
def writeDigits : Nat → Bytes → Nat → Nat → Bytes
  | 0, dst, _, _ => dst
  | fuel + 1, dst, next, value =>
    if 100 ≤ value then writeDigits fuel (writePair dst next (value % 100)) (next - 2) (value / 100)
    else if value < 10 then dst.set next (UInt8.ofNat (48 + value))
    else writePair dst next value

/-- The length returned, and the buffer, unless it is too short. -/
def ll2string (dst : Bytes) (svalue : Int) : Nat × Bytes :=
  let value := svalue.natAbs
  let length := digits10 value + if svalue < 0 then 1 else 0
  if dst.length ≤ length then (0, dst)
  else
    let dst := writeDigits (value + 1) (dst.set length 0) (length - 1) value
    (length, if svalue < 0 then dst.set 0 45 else dst)

variable {byte : UInt8} {rest s : Bytes} {number v : Nat}

theorem toNat_of_charBetween {low high : UInt8} (within : charBetween low high byte) :
    low.toNat ≤ byte.toNat ∧ byte.toNat ≤ high.toNat := by
  simpa [charBetween, UInt8.le_iff_toNat_le] using within

theorem ofNat_digit (above : 48 ≤ byte.toNat) : UInt8.ofNat (48 + (byte.toNat - 48)) = byte := by
  rw [Nat.add_sub_cancel' above, UInt8.ofNat_toNat]

theorem parseDigits_natDigits {v number : Nat} (positive : 0 < v)
    (parsed : parseDigits v rest = some number) :
    natDigits number = natDigits v ++ rest ∧ 0 < number := by
  induction rest generalizing v number with
  | nil =>
    cases parsed
    exact ⟨(append_nil _).symm, positive⟩
  | cons byte rest ih =>
    rw [parseDigits] at parsed
    split at parsed
    · rename_i digit
      obtain ⟨above, below⟩ := toNat_of_charBetween digit
      change byte.toNat ≤ 57 at below
      split at parsed
      · cases parsed
      split at parsed
      · cases parsed
      · -- The character just read is the last digit of the number so far.
        obtain ⟨written, larger⟩ := ih (by omega) parsed
        refine ⟨?_, larger⟩
        rw [written, natDigits_append positive (by omega), ofNat_digit above,
          append_assoc, singleton_append]
    · cases parsed

theorem parseMagnitude_natDigits (parsed : parseMagnitude s = some number) :
    natDigits number = s ∧ 0 < number := by
  cases s with
  | nil => cases parsed
  | cons byte rest =>
    rw [parseMagnitude] at parsed
    split at parsed
    · rename_i digit
      obtain ⟨above, below⟩ := toNat_of_charBetween digit
      change 49 ≤ byte.toNat at above
      change byte.toNat ≤ 57 at below
      obtain ⟨written, positive⟩ := parseDigits_natDigits (by omega) parsed
      refine ⟨?_, positive⟩
      rw [written, natDigits_of_lt (by omega), ofNat_digit (by omega), singleton_append]
    · cases parsed

theorem string2ll_decimal {value : Int} (parsed : string2ll s = some value) :
    decimal value = s ∧ InLong value := by
  rw [string2ll] at parsed
  split at parsed
  · rename_i zero
    cases parsed
    rw [zero]
    exact ⟨rfl, by decide, by decide⟩
  split at parsed
  · rename_i sign
    obtain ⟨v, magnitude, fits⟩ := Option.bind_eq_some_iff.mp parsed
    obtain ⟨written, positive⟩ := parseMagnitude_natDigits magnitude
    split at fits
    · cases fits
    rename_i bound
    cases fits
    have negative : -(v : Int) < 0 := by omega
    refine ⟨?_, ?_⟩
    · rw [decimal, if_pos negative, Int.natAbs_neg, Int.natAbs_natCast, written]
      obtain ⟨byte, rest, rfl⟩ : ∃ byte rest, s = byte :: rest := by
        cases s with
        | nil => cases sign
        | cons byte rest => exact ⟨byte, rest, rfl⟩
      cases sign
      rfl
    · simp only [llongMax] at bound
      constructor <;> omega
  · obtain ⟨v, magnitude, fits⟩ := Option.bind_eq_some_iff.mp parsed
    obtain ⟨written, _⟩ := parseMagnitude_natDigits magnitude
    split at fits
    · cases fits
    rename_i bound
    cases fits
    refine ⟨?_, ?_⟩
    · rw [decimal, if_neg (by omega), Int.natAbs_natCast, written]
    · simp only [llongMax] at bound
      constructor <;> omega

theorem parseDigits_digits (digits : ∀ byte ∈ rest, IsDigit byte)
    (fits : rest.foldl (fun number digit => number * 10 + (digit.toNat - 48)) v ≤ ullongMax) :
    parseDigits v rest =
      some (rest.foldl (fun number digit => number * 10 + (digit.toNat - 48)) v) := by
  -- The value only grows, so that neither of the two tests for an overflow succeeds on the way.
  induction rest generalizing v with
  | nil => rfl
  | cons byte rest ih =>
    obtain ⟨above, below⟩ := digits byte (mem_cons_self ..)
    rw [foldl_cons] at fits ⊢
    have grown := Nat.le_trans (le_foldl_digits rest _) fits
    have digit : charBetween 48 57 byte = true := by
      simpa [charBetween] using ⟨above, below⟩
    rw [parseDigits, if_pos digit, if_neg (by omega), if_neg (by omega)]
    exact ih (fun byte member => digits byte (mem_cons_of_mem _ member)) fits

theorem parseMagnitude_eq (positive : 0 < number) (fits : number ≤ ullongMax) :
    parseMagnitude (natDigits number) = some number ∧ natDigits number ≠ [48] ∧
      (natDigits number).head? ≠ some 45 := by
  -- The first digit is no zero and no sign.
  obtain ⟨first, rest, shape, large⟩ := natDigits_head number
  have low : 49 ≤ first.toNat := large positive
  have digits : ∀ byte ∈ first :: rest, IsDigit byte := by
    intro byte member
    exact isDigit_of_mem_natDigits (shape ▸ member)
  have high : first.toNat ≤ 57 := (digits first (mem_cons_self ..)).2
  have value := digitsValue_natDigits number
  rw [shape, digitsValue, foldl_cons, Nat.zero_add] at value
  have leading : charBetween 49 57 first = true := by
    simpa [charBetween] using ⟨low, high⟩
  rw [shape]
  refine ⟨?_, ?_, ?_⟩
  · rw [parseMagnitude, if_pos leading, parseDigits_digits
      (fun byte member => digits byte (mem_cons_of_mem _ member)) (by omega), value]
  · intro same
    rw [(List.cons.inj same).1] at low
    exact absurd low (by decide)
  · intro same
    rw [Option.some.inj same] at low
    exact absurd low (by decide)

theorem string2ll_natDigits (fits : number ≤ llongMax) :
    string2ll (natDigits number) = some (number : Int) := by
  by_cases zero : number = 0
  · rw [zero]
    rfl
  have small : llongMax ≤ ullongMax := by decide
  obtain ⟨parsed, notZero, notSign⟩ := @parseMagnitude_eq number (by omega) (by omega)
  rw [string2ll, if_neg notZero, if_neg notSign, parsed, Option.bind_some, if_neg (by omega)]

/-- The strings accepted are the decimal forms of the numbers of 64 bits. -/
theorem string2ll_eq_some_iff {value : Int} :
    string2ll s = some value ↔ decimal value = s ∧ InLong value := by
  refine ⟨string2ll_decimal, ?_⟩
  rintro ⟨rfl, low, high⟩
  have limits : llongMax + 1 ≤ ullongMax ∧ llongMax = 2 ^ 63 - 1 := by decide
  by_cases sign : value < 0
  · obtain ⟨parsed, -, -⟩ := @parseMagnitude_eq value.natAbs (by omega) (by omega)
    rw [decimal, if_pos sign, string2ll, if_neg (by simp), head?_cons, if_pos rfl, tail_cons,
      parsed, Option.bind_some, if_neg (by omega)]
    congr 1
    omega
  · rw [decimal, if_neg sign, string2ll_natDigits (by omega)]
    congr 1
    omega

theorem digits10Small_eq (small : v < 10 ^ 12) : digits10Small v = (natDigits v).length := by
  -- Each step tells between which powers of ten the number is.
  have single : v < 10 → (natDigits v).length = 1 := by
    intro digit
    rw [natDigits_of_lt digit, length_singleton]
  have between : ∀ width, 10 ^ width ≤ v → v < 10 ^ (width + 1) →
      (natDigits v).length = width + 1 := fun _ => length_natDigits_eq
  unfold digits10Small
  repeat' split
  · exact (single (by assumption)).symm
  · exact (between 1 (by omega) (by omega)).symm
  · exact (between 2 (by omega) (by omega)).symm
  · exact (between 3 (by omega) (by omega)).symm
  · exact (between 5 (by omega) (by omega)).symm
  · exact (between 4 (by omega) (by omega)).symm
  · exact (between 7 (by omega) (by omega)).symm
  · exact (between 6 (by omega) (by omega)).symm
  · exact (between 9 (by omega) (by omega)).symm
  · exact (between 8 (by omega) (by omega)).symm
  · exact (between 11 (by omega) (by omega)).symm
  · exact (between 10 (by omega) (by omega)).symm

theorem digits10_eq (v : Nat) : digits10 v = (natDigits v).length := by
  have enough : ∀ fuel v, v ≤ fuel → digits10With fuel v = (natDigits v).length := by
    intro fuel
    induction fuel with
    | zero => exact fun v bound => digits10Small_eq (by omega)
    | succ fuel ih =>
      intro v bound
      rw [digits10With]
      split
      · exact digits10Small_eq (by omega)
      · -- Twelve digits are taken away at once.
        have shorter : (natDigits v).length = (natDigits (v / 1000000000000)).length + 12 :=
          length_natDigits_div 12 (by omega)
        rw [ih _ (by omega), shorter, Nat.add_comm]
  exact enough v v (Nat.le_refl v)

theorem sdigits10_eq (v : Int) : sdigits10 v = (decimal v).length := by
  unfold sdigits10 decimal
  split
  · rw [digits10_eq, length_cons]
  · rw [digits10_eq]

theorem getD_digits : ∀ value < 100,
    digits.getD (value * 2) 0 = UInt8.ofNat (48 + value / 10) ∧
      digits.getD (value * 2 + 1) 0 = UInt8.ofNat (48 + value % 10) := by
  decide +kernel

theorem writePair_eq {value : Nat} (small : value < 100) {front back : Bytes} {first second : UInt8} :
    writePair (front ++ first :: second :: back) (front.length + 1) value =
      front ++ UInt8.ofNat (48 + value / 10) :: UInt8.ofNat (48 + value % 10) :: back := by
  obtain ⟨high, low⟩ := getD_digits value small
  rw [writePair, high, low]
  simp

theorem natDigits_last (large : 10 ≤ v) :
    natDigits v = natDigits (v / 10) ++ [UInt8.ofNat (48 + v % 10)] := by
  rw [← natDigits_append (by omega) (by omega)]
  congr 1
  omega

theorem natDigits_pair (large : 10 ≤ v) :
    natDigits v = (if v < 100 then [] else natDigits (v / 100)) ++
      [UInt8.ofNat (48 + v % 100 / 10), UInt8.ofNat (48 + v % 100 % 10)] := by
  have tens : v % 100 / 10 = v / 10 % 10 := by omega
  have ones : v % 100 % 10 = v % 10 := by omega
  rw [natDigits_last large, tens, ones]
  split
  · rw [natDigits_of_lt (by omega), Nat.mod_eq_of_lt (by omega : v / 10 < 10)]
    rfl
  · rw [natDigits_last (by omega : 10 ≤ v / 10), Nat.div_div_eq_div_mul, append_assoc]
    rfl

theorem writeDigits_eq {fuel value : Nat} {front gap back : Bytes} (enough : value < fuel)
    (room : gap.length = (natDigits value).length) :
    writeDigits fuel (front ++ (gap ++ back)) (front.length + gap.length - 1) value =
      front ++ (natDigits value ++ back) := by
  induction fuel generalizing value gap back with
  | zero => omega
  | succ fuel ih =>
    rw [writeDigits]
    by_cases single : value < 10
    · rw [natDigits_of_lt single] at room ⊢
      obtain ⟨byte, rfl⟩ := length_eq_one_iff.mp room
      rw [if_neg (by omega), if_pos single]
      simp
    -- The last two digits are written first.
    rw [natDigits_pair (by omega)] at room ⊢
    obtain ⟨gap, pair, rfl, others, two⟩ := exists_parts (room.trans length_append)
    obtain ⟨first, pair, rfl⟩ := exists_cons_of_length_eq_add_one two
    obtain ⟨second, rfl⟩ := length_eq_one_iff.mp (Nat.succ.inj two)
    have place : front.length + (gap ++ [first, second]).length - 1 = (front ++ gap).length + 1 := by
      simp [Nat.add_assoc]
    have shape : front ++ (gap ++ [first, second] ++ back) =
        (front ++ gap) ++ first :: second :: back := by simp
    rw [place, shape]
    by_cases last : value < 100
    · rw [if_pos last] at others
      obtain rfl := length_eq_zero_iff.mp others
      rw [if_neg (by omega), if_neg single, if_pos last, writePair_eq last, Nat.mod_eq_of_lt last]
      simp
    · rw [if_neg last] at others
      rw [if_pos (by omega), if_neg last, writePair_eq (Nat.mod_lt _ (by decide)), append_assoc,
        show (front ++ gap).length + 1 - 2 = front.length + gap.length - 1 by
          rw [length_append]; omega, ih (by omega) others]
      simp

theorem ll2string_eq {dst : Bytes} {value : Int} (room : sdigits10 value < dst.length) :
    ll2string dst value =
      (sdigits10 value, decimal value ++ 0 :: dst.drop (sdigits10 value + 1)) := by
  have counted : digits10 value.natAbs + (if value < 0 then 1 else 0) = sdigits10 value := by
    rw [sdigits10]
    split <;> rfl
  have size : (dst.take (sdigits10 value)).length = sdigits10 value := by
    rw [length_take]
    omega
  have cut : dst.set (sdigits10 value) 0 =
      dst.take (sdigits10 value) ++ 0 :: dst.drop (sdigits10 value + 1) := by
    rw [set_eq_take_append_cons_drop, if_pos room]
  have digits := sdigits10_eq value
  rw [ll2string]
  dsimp only
  rw [counted, if_neg (by omega), cut]
  unfold decimal at digits ⊢
  by_cases sign : value < 0
  · -- The first character is left for the sign.
    rw [if_pos sign, length_cons] at digits
    obtain ⟨first, gap, shape⟩ := exists_cons_of_length_eq_add_one (size.trans digits)
    rw [shape, length_cons] at size
    have written := @writeDigits_eq (value.natAbs + 1) value.natAbs [first] gap
      (0 :: dst.drop (sdigits10 value + 1)) (by omega) (by omega)
    rw [length_singleton, Nat.add_comm 1, size, ← append_assoc, singleton_append] at written
    rw [if_pos sign, if_pos sign, shape, written]
    rfl
  · rw [if_neg sign] at digits
    have written := @writeDigits_eq (value.natAbs + 1) value.natAbs [] _
      (0 :: dst.drop (sdigits10 value + 1)) (by omega) (size.trans digits)
    rw [length_nil, Nat.zero_add, size, nil_append, nil_append] at written
    rw [if_neg sign, if_neg sign, written]

/-! ### The copy in `listpack.c` -/

/-- `lpStringToInt64`, which the source has copied from `string2ll`. -/
def lpStringToInt64 (s : Bytes) : Option Int :=
  if s = [48] then some 0
  else
    match if s.head? = some 45 then s.tail else s with
    | [] => none
    | byte :: rest =>
      if charBetween 49 57 byte then
        (parseDigits (byte.toNat - 48) rest).bind fun v =>
          if s.head? = some 45 then if llongMax + 1 < v then none else some (-(v : Int))
          else if llongMax < v then none else some (v : Int)
      -- The first test has answered this already.
      else if byte = 48 ∧ s.length = 1 then some 0
      else none

theorem lpStringToInt64_eq (s : Bytes) : lpStringToInt64 s = string2ll s := by
  rw [lpStringToInt64, string2ll]
  by_cases zero : s = [48]
  · rw [if_pos zero, if_pos zero]
  rw [if_neg zero, if_neg zero]
  cases s with
  | nil => rfl
  | cons first rest =>
    by_cases sign : first = 45
    · subst sign
      cases rest with
      | nil => rfl
      | cons byte rest =>
        simp only [head?_cons, if_true, tail_cons, parseMagnitude]
        split
        · rfl
        · rw [if_neg (by simp)]
          rfl
    · have other : (first :: rest).head? ≠ some 45 := by simpa using sign
      simp only [if_neg other, parseMagnitude]
      split
      · rfl
      · rw [if_neg]
        · rfl
        rintro ⟨rfl, single⟩
        exact zero (by simpa using single)

/-- Both parsers accept the decimal forms of the numbers of 64 bits, and a written number is read
back. -/
theorem integer_texts_agree :
    (∀ (s : Bytes) value, string2ll s = some value ↔ decimal value = s ∧ InLong value) ∧
    (∀ s, lpStringToInt64 s = string2ll s) ∧
    ∀ value, InLong value → ∀ dst : Bytes, sdigits10 value < dst.length →
      ∃ characters, characters.length = sdigits10 value ∧ string2ll characters = some value ∧
        ll2string dst value =
          (sdigits10 value, characters ++ 0 :: dst.drop (sdigits10 value + 1)) := by
  refine ⟨fun s value => string2ll_eq_some_iff, lpStringToInt64_eq, ?_⟩
  intro value fits dst room
  exact ⟨decimal value, (sdigits10_eq value).symm, string2ll_eq_some_iff.mpr ⟨rfl, fits⟩,
    ll2string_eq room⟩

end LearningNotes.Util
