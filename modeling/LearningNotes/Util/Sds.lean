import LearningNotes.Lib.Bytes
import Mathlib.Order.Defs.LinearOrder

/-! Comparison of byte strings as in `sds.c`. -/

namespace LearningNotes.Util

open Lib

/-- `memcmp` of strings of one length. -/
def memcmp : Bytes → Bytes → Ordering
  | x :: s1, y :: s2 => if x < y then .lt else if y < x then .gt else memcmp s1 s2
  | _, _ => .eq

/-- The common length is compared first, then the lengths. -/
def sdscmp (s1 s2 : Bytes) : Ordering :=
  let minlen := min s1.length s2.length
  match memcmp (s1.take minlen) (s2.take minlen) with
  | .eq => if s1.length > s2.length then .gt else if s1.length < s2.length then .lt else .eq
  | cmp => cmp

@[simp] theorem sdscmp_nil_nil : sdscmp [] [] = .eq := rfl

@[simp] theorem sdscmp_nil_cons (y : UInt8) (s2 : Bytes) : sdscmp [] (y :: s2) = .lt := by
  simp [sdscmp, memcmp]

@[simp] theorem sdscmp_cons_nil (x : UInt8) (s1 : Bytes) : sdscmp (x :: s1) [] = .gt := by
  simp [sdscmp, memcmp]

theorem sdscmp_cons_cons (x y : UInt8) (s1 s2 : Bytes) :
    sdscmp (x :: s1) (y :: s2) =
      if x < y then .lt else if y < x then .gt else sdscmp s1 s2 := by
  have minlen : min (x :: s1).length (y :: s2).length = min s1.length s2.length + 1 := by
    simp only [List.length_cons]
    omega
  rw [sdscmp, minlen, List.take_succ_cons, List.take_succ_cons, memcmp]
  by_cases less : x < y
  · rw [if_pos less, if_pos less]
  · by_cases more : y < x
    · rw [if_neg less, if_neg less, if_pos more, if_pos more]
    · rw [if_neg less, if_neg less, if_neg more, if_neg more, sdscmp]
      simp

theorem byte_eq_of_not_lt {x y : UInt8} (notLess : ¬ x < y) (notMore : ¬ y < x) : x = y :=
  UInt8.le_antisymm (UInt8.not_lt.mp notMore) (UInt8.not_lt.mp notLess)

theorem sdscmp_eq_iff {s1 s2 : Bytes} : sdscmp s1 s2 = .eq ↔ s1 = s2 := by
  induction s1 generalizing s2 with
  | nil => cases s2 <;> simp
  | cons x s1 ih =>
    cases s2 with
    | nil => simp
    | cons y s2 =>
      rw [sdscmp_cons_cons]
      by_cases less : x < y
      · simp only [if_pos less, reduceCtorEq, List.cons.injEq, false_iff, not_and]
        exact fun same => absurd (same ▸ less) (UInt8.lt_irrefl y)
      · by_cases more : y < x
        · simp only [if_neg less, if_pos more, reduceCtorEq, List.cons.injEq, false_iff, not_and]
          exact fun same => absurd (same ▸ more) (UInt8.lt_irrefl y)
        · simp [ih, byte_eq_of_not_lt less more]

/-- Comparing the other way round gives the opposite answer. -/
theorem sdscmp_swap (s1 s2 : Bytes) : (sdscmp s1 s2).swap = sdscmp s2 s1 := by
  induction s1 generalizing s2 with
  | nil => cases s2 <;> simp
  | cons x s1 ih =>
    cases s2 with
    | nil => simp
    | cons y s2 =>
      rw [sdscmp_cons_cons, sdscmp_cons_cons]
      by_cases less : x < y
      · have notMore : ¬ y < x := fun more => UInt8.lt_irrefl x (UInt8.lt_trans less more)
        simp [less, notMore]
      · by_cases more : y < x
        · simp [less, more]
        · simp [less, more, ih]

/-- The comparison of strings is transitive. -/
theorem sdscmp_lt_trans {s1 s2 s3 : Bytes} (first : sdscmp s1 s2 = .lt)
    (second : sdscmp s2 s3 = .lt) : sdscmp s1 s3 = .lt := by
  induction s1 generalizing s2 s3 with
  | nil =>
    cases s3 with
    | nil => cases s2 <;> simp at second
    | cons z s3 => simp
  | cons x s1 ih =>
    cases s2 with
    | nil => simp at first
    | cons y s2 =>
      cases s3 with
      | nil => simp at second
      | cons z s3 =>
        rw [sdscmp_cons_cons] at first second ⊢
        -- Either a first byte decides, or all three are the same and the rest does.
        by_cases xy : x < y
        · by_cases yz : y < z
          · rw [if_pos (UInt8.lt_trans xy yz)]
          · by_cases zy : z < y
            · simp [yz, zy] at second
            · rw [← byte_eq_of_not_lt yz zy, if_pos xy]
        by_cases yx : y < x
        · simp [xy, yx] at first
        rw [if_neg xy, if_neg yx] at first
        rw [byte_eq_of_not_lt xy yx]
        by_cases yz : y < z
        · rw [if_pos yz]
        · by_cases zy : z < y
          · simp [yz, zy] at second
          · simp only [if_neg yz, if_neg zy] at second ⊢
            exact ih first second

theorem sdscmp_lt_or_gt {s1 s2 : Bytes} (different : s1 ≠ s2) :
    sdscmp s1 s2 = .lt ∨ sdscmp s2 s1 = .lt := by
  cases compared : sdscmp s1 s2 with
  | lt => exact .inl rfl
  | eq => exact absurd (sdscmp_eq_iff.mp compared) different
  | gt =>
    right
    rw [← sdscmp_swap s1 s2, compared]
    rfl

section Keys

variable {S : Type} [LinearOrder S]

/-- By score, and by element among equal scores. -/
def KeyLt (a b : S × Bytes) : Prop :=
  a.1 < b.1 ∨ (a.1 = b.1 ∧ sdscmp a.2 b.2 = .lt)

instance (a b : S × Bytes) : Decidable (KeyLt a b) :=
  inferInstanceAs (Decidable (_ ∨ _))

theorem KeyLt.irrefl (a : S × Bytes) : ¬ KeyLt a a := by
  intro less
  rcases less with less | ⟨_, less⟩
  · exact lt_irrefl _ less
  · rw [sdscmp_eq_iff.mpr rfl] at less
    cases less

theorem KeyLt.trans {a b c : S × Bytes} (first : KeyLt a b) (second : KeyLt b c) : KeyLt a c := by
  rcases first with ab | ⟨ab, lex⟩
  · rcases second with bc | ⟨bc, _⟩
    · exact .inl (lt_trans ab bc)
    · exact .inl (bc ▸ ab)
  · rcases second with bc | ⟨bc, lex'⟩
    · exact .inl (ab ▸ bc)
    · exact .inr ⟨ab.trans bc, sdscmp_lt_trans lex lex'⟩

theorem KeyLt.asymm {a b : S × Bytes} (less : KeyLt a b) : ¬ KeyLt b a :=
  fun more => KeyLt.irrefl a (less.trans more)

/-- Two members of a sorted set are always ordered. -/
theorem KeyLt.total {a b : S × Bytes} (different : a ≠ b) : KeyLt a b ∨ KeyLt b a := by
  rcases lt_trichotomy a.1 b.1 with less | same | more
  · exact .inl (.inl less)
  · have elements : a.2 ≠ b.2 := fun equal => different (Prod.ext same equal)
    rcases sdscmp_lt_or_gt elements with less | more
    · exact .inl (.inr ⟨same, less⟩)
    · exact .inr (.inr ⟨same.symm, more⟩)
  · exact .inr (.inl more)

end Keys

end LearningNotes.Util
