import Mathlib.Tactic.Ring

/-! Machine arithmetic: results are cut to the width. -/

namespace LearningNotes.Lib

def wrapAdd (width a b : Nat) : Nat := (a + b) % 2 ^ width

def wrapSub (width a b : Nat) : Nat := (a + (2 ^ width - b % 2 ^ width)) % 2 ^ width

theorem wrapAdd_of_lt {width a b : Nat} (fits : a + b < 2 ^ width) : wrapAdd width a b = a + b :=
  Nat.mod_eq_of_lt fits

/-- A difference that is not negative does not wrap. -/
theorem wrapSub_of_le {width a b : Nat} (order : b ≤ a) (fits : a < 2 ^ width) :
    wrapSub width a b = a - b := by
  have small : b % 2 ^ width = b := Nat.mod_eq_of_lt (by omega)
  have shifted : a + (2 ^ width - b) = (a - b) + 2 ^ width := by omega
  rw [wrapSub, small, shifted, Nat.add_mod_right, Nat.mod_eq_of_lt (by omega)]

/-- What an `int` holds for a number. -/
def toInt32 (number : Int) : Int := (number + 2 ^ 31) % 2 ^ 32 - 2 ^ 31

/-- What a `long` holds for a number. -/
def toLong (number : Int) : Int := (number + 2 ^ 63) % 2 ^ 64 - 2 ^ 63

def InLong (number : Int) : Prop := -2 ^ 63 ≤ number ∧ number < 2 ^ 63

instance (number : Int) : Decidable (InLong number) := inferInstanceAs (Decidable (_ ∧ _))

theorem toInt32_of_lt {number : Int} (low : -2 ^ 31 ≤ number) (high : number < 2 ^ 31) :
    toInt32 number = number := by
  rw [toInt32]
  omega

theorem toLong_of_inLong {number : Int} (fits : InLong number) : toLong number = number := by
  rw [InLong] at fits
  rw [toLong]
  omega

theorem inLong_toLong (number : Int) : InLong (toLong number) := by
  rw [InLong, toLong]
  omega

end LearningNotes.Lib
