import LearningNotes.Lib.Bytes

/-! Integers written in decimal, without sign or leading zeros unless needed. -/

namespace LearningNotes.Lib

open List UInt8

/-- Decimal digits by repeated division, one more than there is fuel. -/
def digitsWith : Nat → Nat → Bytes
  | 0, number => [ofNat (48 + number % 10)]
  | fuel + 1, number =>
    if number < 10 then [ofNat (48 + number)]
    else digitsWith fuel (number / 10) ++ [ofNat (48 + number % 10)]

def natDigits (number : Nat) : Bytes := digitsWith number number

def decimal (number : Int) : Bytes :=
  if number < 0 then 45 :: natDigits number.natAbs else natDigits number.natAbs

variable {number digit : Nat}

theorem digitsWith_eq {fuel : Nat} (enough : number ≤ fuel) :
    digitsWith fuel number = natDigits number := by
  -- Both sides take the same divisions; the smaller number is always covered by the fuel left.
  induction number using Nat.strongRecOn generalizing fuel with
  | _ number ih =>
    rw [natDigits]
    by_cases small : number < 10
    · cases fuel with
      | zero =>
        have zero : number = 0 := by omega
        subst zero
        rfl
      | succ fuel =>
        cases number with
        | zero => rfl
        | succ number => simp [digitsWith, small]
    · cases fuel with
      | zero => omega
      | succ fuel =>
        cases number with
        | zero => omega
        | succ number =>
          rw [digitsWith, digitsWith, if_neg small, if_neg small,
            ih ((number + 1) / 10) (by omega) (by omega : (number + 1) / 10 ≤ fuel),
            ih ((number + 1) / 10) (by omega) (by omega : (number + 1) / 10 ≤ number)]

theorem natDigits_of_lt (small : number < 10) : natDigits number = [ofNat (48 + number)] := by
  cases number with
  | zero => rfl
  | succ number => rw [natDigits, digitsWith, if_pos small]

theorem natDigits_append (positive : 0 < number) (small : digit < 10) :
    natDigits (number * 10 + digit) = natDigits number ++ [ofNat (48 + digit)] := by
  obtain ⟨fuel, whole⟩ : ∃ fuel, number * 10 + digit = fuel + 1 := ⟨_, (Nat.succ_pred (by omega)).symm⟩
  rw [natDigits, whole, digitsWith, if_neg (by omega), ← whole,
    show (number * 10 + digit) / 10 = number by omega,
    show (number * 10 + digit) % 10 = digit by omega, digitsWith_eq (by omega)]

/-- Induction over decimals: single digits, and one more digit. -/
theorem natDigits_induction {motive : Nat → Bytes → Prop}
    (single : ∀ digit < 10, motive digit [ofNat (48 + digit)])
    (append : ∀ number digit, 0 < number → digit < 10 → motive number (natDigits number) →
      motive (number * 10 + digit) (natDigits number ++ [ofNat (48 + digit)]))
    (number : Nat) : motive number (natDigits number) := by
  induction number using Nat.strongRecOn with
  | _ number ih =>
    by_cases small : number < 10
    · rw [natDigits_of_lt small]
      exact single number small
    · -- The last digit is split off.
      have whole : number = number / 10 * 10 + number % 10 := by omega
      have built := append (number / 10) (number % 10) (by omega) (by omega) (ih _ (by omega))
      rwa [← natDigits_append (by omega) (by omega), ← whole] at built

def IsDigit (byte : UInt8) : Prop := 48 ≤ byte.toNat ∧ byte.toNat ≤ 57

theorem isDigit_ofNat (small : digit < 10) : IsDigit (ofNat (48 + digit)) := by
  have value : (ofNat (48 + digit)).toNat = 48 + digit :=
    toNat_ofNat_of_lt' (show 48 + digit < 256 by omega)
  exact ⟨by omega, by omega⟩

theorem isDigit_of_mem_natDigits {byte : UInt8} (member : byte ∈ natDigits number) :
    IsDigit byte := by
  have all : ∀ byte ∈ natDigits number, IsDigit byte := by
    refine @natDigits_induction (fun _ digits => ∀ byte ∈ digits, IsDigit byte) ?_ ?_ number
    · exact fun digit small => forall_mem_singleton.mpr (isDigit_ofNat small)
    · intro number digit _ small ih
      exact forall_mem_append.mpr ⟨ih, forall_mem_singleton.mpr (isDigit_ofNat small)⟩
  exact all byte member

theorem natDigits_head (number : Nat) :
    ∃ first rest, natDigits number = first :: rest ∧ (0 < number → 49 ≤ first.toNat) := by
  refine @natDigits_induction
    (fun number digits => ∃ first rest, digits = first :: rest ∧ (0 < number → 49 ≤ first.toNat))
    ?_ ?_ number
  · intro digit small
    refine ⟨_, [], rfl, fun positive => ?_⟩
    have value : (ofNat (48 + digit)).toNat = 48 + digit :=
      toNat_ofNat_of_lt' (show 48 + digit < 256 by omega)
    omega
  · rintro number digit positive _ ⟨first, rest, shape, large⟩
    exact ⟨first, rest ++ [_], by rw [shape, cons_append], fun _ => large positive⟩

theorem length_natDigits_le {number width : Nat} (some : 0 < width) (bound : number < 10 ^ width) :
    (natDigits number).length ≤ width := by
  have all : ∀ width, 0 < width → number < 10 ^ width → (natDigits number).length ≤ width := by
    refine @natDigits_induction
      (fun number digits => ∀ width, 0 < width → number < 10 ^ width → digits.length ≤ width)
      ?_ ?_ number
    · exact fun _ _ width some _ => some
    intro number digit positive _ ih width some bound
    obtain ⟨width, rfl⟩ := Nat.exists_eq_succ_of_ne_zero (Nat.ne_of_gt some)
    have shorter : number < 10 ^ width := by omega
    have more : 0 < width := by
      cases width with
      | zero => omega
      | succ width => omega
    have fits := ih width more shorter
    simp only [length_append, length_singleton]
    omega
  exact all width some bound

/-- The number that decimal digits stand for. -/
def digitsValue (digits : Bytes) : Nat :=
  digits.foldl (fun number digit => number * 10 + (digit.toNat - 48)) 0

theorem digitsValue_natDigits (number : Nat) : digitsValue (natDigits number) = number := by
  have digit : ∀ d < 10, (ofNat (48 + d)).toNat - 48 = d := by decide
  refine @natDigits_induction (fun number digits => digitsValue digits = number) ?_ ?_ number
  · intro last small
    rw [digitsValue, foldl_cons, foldl_nil, digit last small]
    omega
  · intro number last _ small ih
    rw [digitsValue, foldl_append, ← digitsValue, ih, foldl_cons, foldl_nil, digit last small]

theorem le_foldl_digits (digits : Bytes) (number : Nat) :
    number ≤ digits.foldl (fun number digit => number * 10 + (digit.toNat - 48)) number := by
  induction digits generalizing number with
  | nil => exact Nat.le_refl number
  | cons digit digits ih =>
    exact Nat.le_trans (show number ≤ number * 10 + (digit.toNat - 48) by omega) (ih _)

theorem digitsValue_le_append (front back : Bytes) :
    digitsValue front ≤ digitsValue (front ++ back) := by
  rw [digitsValue, digitsValue, foldl_append]
  exact le_foldl_digits back _

theorem length_natDigits_div (width : Nat) (large : 10 ^ width ≤ number) :
    (natDigits number).length = (natDigits (number / 10 ^ width)).length + width := by
  induction width generalizing number with
  | zero => rw [Nat.pow_zero, Nat.div_one, Nat.add_zero]
  | succ width ih =>
    have positive : 0 < 10 ^ width := Nat.pow_pos (by decide)
    -- One digit is taken away first.
    have whole : number = number / 10 * 10 + number % 10 := by omega
    have shorter : (natDigits number).length = (natDigits (number / 10)).length + 1 := by
      rw [whole, natDigits_append (by omega) (by omega), length_append, length_singleton, ← whole]
    rw [shorter, ih (by omega), Nat.div_div_eq_div_mul, Nat.mul_comm 10, ← Nat.pow_succ,
      Nat.add_assoc]

theorem length_natDigits_eq {number width : Nat} (low : 10 ^ width ≤ number)
    (high : number < 10 ^ (width + 1)) : (natDigits number).length = width + 1 := by
  -- What is left of the number is one digit.
  have single : number / 10 ^ width < 10 := by
    rw [Nat.div_lt_iff_lt_mul (Nat.pow_pos (by decide)), Nat.mul_comm, ← Nat.pow_succ]
    exact high
  rw [length_natDigits_div width low, natDigits_of_lt single, length_singleton, Nat.add_comm]

end LearningNotes.Lib
