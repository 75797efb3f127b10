import LearningNotes.Lib.Decimal
import LearningNotes.Lib.Word

/-! Numbers at the start of a string, as the C library reads them. -/

namespace LearningNotes.Util

open Lib List

def isspace (byte : UInt8) : Bool := byte == 32 || (decide (9 ≤ byte) && decide (byte ≤ 13))

def isdigit (byte : UInt8) : Bool := decide (48 ≤ byte) && decide (byte ≤ 57)

/-- A sign, which may be missing, and all digits that follow. -/
def signedDigits : Bytes → Int
  | 45 :: digits => -(digitsValue (digits.takeWhile isdigit) : Int)
  | 43 :: digits => digitsValue (digits.takeWhile isdigit)
  | digits => digitsValue (digits.takeWhile isdigit)

/-- `strtol` in base ten, kept in range. -/
def strtol (s : Bytes) : Int :=
  max (-(2 ^ 63)) (min (signedDigits (s.dropWhile isspace)) (2 ^ 63 - 1))

/-- The low half of what `strtol` returns. -/
def atoi (s : Bytes) : Int := toInt32 (strtol s)

theorem isdigit_of_isDigit {byte : UInt8} (digit : IsDigit byte) : isdigit byte = true := by
  simp only [isdigit, Bool.and_eq_true, decide_eq_true_eq]
  exact digit

/-- What follows the digits of a number is no digit. -/
def Stops (tail : Bytes) : Prop := ∀ byte, tail.head? = some byte → isdigit byte = false

theorem takeWhile_digits {digits tail : Bytes} (all : ∀ byte ∈ digits, IsDigit byte)
    (stops : Stops tail) : (digits ++ tail).takeWhile isdigit = digits := by
  -- The digits pass the test one by one; the first byte behind them does not.
  rw [takeWhile_append_of_pos fun byte member => isdigit_of_isDigit (all byte member)]
  cases tail with
  | nil => simp
  | cons byte tail => rw [takeWhile_cons_of_neg (by simp [stops byte rfl]), append_nil]

/-- Digits in range read as their value, whatever stops them. -/
theorem strtol_digits {digits tail : Bytes} (nonempty : digits ≠ [])
    (all : ∀ byte ∈ digits, IsDigit byte) (stops : Stops tail)
    (fits : digitsValue digits < 2 ^ 63) : strtol (digits ++ tail) = digitsValue digits := by
  obtain ⟨first, rest, shape⟩ := exists_cons_of_ne_nil nonempty
  have digit : IsDigit first := all first (by simp [shape])
  obtain ⟨low, high⟩ := digit
  -- The first digit is neither a space nor a sign.
  have solid : isspace first = false := by
    simp only [isspace, Bool.or_eq_false_iff, beq_eq_false_iff_ne, Bool.and_eq_false_iff,
      UInt8.le_iff_toNat_le]
    exact ⟨fun equal => by simp [equal] at low, .inr (by simp; omega)⟩
  have start : (digits ++ tail).dropWhile isspace = digits ++ tail := by
    rw [shape, cons_append, dropWhile_cons_of_neg (by simp [solid])]
  have unsigned : signedDigits (digits ++ tail) = digitsValue digits := by
    have minus : first ≠ 45 := fun equal => by simp [equal] at low
    have plus : first ≠ 43 := fun equal => by simp [equal] at low
    rw [shape, cons_append, signedDigits]
    · rw [← cons_append, ← shape, takeWhile_digits all stops]
    · exact fun _ equal => minus (List.cons.inj equal).1
    · exact fun _ equal => plus (List.cons.inj equal).1
  rw [strtol, start, unsigned]
  omega

theorem atoi_digits {digits tail : Bytes} (nonempty : digits ≠ [])
    (all : ∀ byte ∈ digits, IsDigit byte) (stops : Stops tail)
    (fits : digitsValue digits < 2 ^ 31) : atoi (digits ++ tail) = digitsValue digits := by
  rw [atoi, strtol_digits nonempty all stops (by omega)]
  exact toInt32_of_lt (by omega) (by omega)

end LearningNotes.Util
