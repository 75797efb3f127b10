import LearningNotes.Hash.Basic

/-! Hashes in a ziplist: fields and values take turns, and only fields are searched. -/

namespace LearningNotes.Hash

open Lib Util List
open Ziplist (Points searchFrom toValue space)

@[simp] theorem onZiplist_ok {α : Type} (result : α) : onZiplist (.ok result) = .ok result := rfl

/-- The strings of a ziplist that holds pairs of fields and values. -/
def flat : List (Bytes × Bytes) → List Bytes
  | [] => []
  | (field, value) :: pairs => field :: value :: flat pairs

@[simp] theorem length_flat (pairs : List (Bytes × Bytes)) : (flat pairs).length = 2 * pairs.length := by
  induction pairs with
  | nil => rfl
  | cons pair pairs ih => simp only [flat, length_cons]; omega

theorem flat_append (front back : List (Bytes × Bytes)) :
    flat (front ++ back) = flat front ++ flat back := by
  induction front with
  | nil => rfl
  | cons pair front ih => simp [flat, ih]

section Cut

variable (front back : List (Bytes × Bytes)) (field value : Bytes)

/-- A field and its value stand side by side. -/
theorem getElem?_flat :
    (flat (front ++ (field, value) :: back))[2 * front.length]? = some field ∧
      (flat (front ++ (field, value) :: back))[2 * front.length + 1]? = some value := by
  -- In front of the pair there are two strings for each pair.
  rw [flat_append, flat]
  constructor
  · simp
  · simp

theorem set_flat (new : Bytes) :
    (flat (front ++ (field, value) :: back)).set (2 * front.length + 1) new =
      flat (front ++ (field, new) :: back) := by
  rw [flat_append, flat, flat_append, flat, set_append_right _ _ (by simp)]
  simp

theorem eraseIdx_flat :
    ((flat (front ++ (field, value) :: back)).eraseIdx (2 * front.length)).eraseIdx
      (2 * front.length) = flat (front ++ back) := by
  rw [flat_append, flat, flat_append, eraseIdx_append_of_length_le (by simp),
    eraseIdx_append_of_length_le (by simp)]
  simp

end Cut

/-- Skipping every other entry, the search compares fields and never values. -/
theorem searchFrom_flat (field : Bytes) (pairs : List (Bytes × Bytes)) (at_ : Nat) :
    ((∀ pair ∈ pairs, pair.1 ≠ field) ∧ searchFrom field 1 (flat pairs) 0 at_ = none) ∨
      ∃ front value back, pairs = front ++ (field, value) :: back ∧
        searchFrom field 1 (flat pairs) 0 at_ = some (at_ + 2 * front.length) := by
  -- Two rounds of the search pass one pair.
  induction pairs generalizing at_ with
  | nil => exact .inl ⟨by simp, rfl⟩
  | cons pair pairs ih =>
    obtain ⟨other, value⟩ := pair
    rw [flat, searchFrom]
    by_cases same : other = field
    · exact .inr ⟨[], value, pairs, by rw [same]; rfl, by rw [if_pos same]; rfl⟩
    rw [if_neg same, searchFrom]
    obtain ⟨absent, none_⟩ | ⟨front, found, back, shape, some_⟩ := ih (at_ + 1 + 1)
    · refine .inl ⟨?_, none_⟩
      rintro pair (_ | ⟨_, listed⟩)
      · exact same
      · exact absent pair listed
    · refine .inr ⟨(other, value) :: front, found, back, by rw [shape]; rfl, ?_⟩
      rw [some_, length_cons]
      congr 1
      omega

theorem space_eraseIdx_le (strings : List Bytes) (at_ : Nat) :
    space (strings.eraseIdx at_) ≤ space strings := by
  -- Each string counts by itself.
  induction strings generalizing at_ with
  | nil => exact Nat.le_refl _
  | cons s strings ih =>
    cases at_ with
    | zero => exact Nat.le_add_left ..
    | succ at_ => exact Nat.add_le_add_left (ih at_) _

theorem space_append_le (strings more : List Bytes) : space strings ≤ space (strings ++ more) := by
  -- The strings in front count the same on both sides.
  induction strings with
  | nil =>
    induction more with
    | nil => exact Nat.le_refl _
    | cons s more ih => exact Nat.le_trans ih (Nat.le_add_left ..)
  | cons s strings ih => exact Nat.add_le_add_left ih _

theorem asUnsigned_of_lt {s : Bytes} (short : s.length < 2 ^ 32) : asUnsigned s = s := by
  rw [asUnsigned, Nat.mod_eq_of_lt short, take_length]

section Find

variable {zl field : Bytes} {pairs : List (Bytes × Bytes)}

/-- A field shorter than the cut is found exactly when the hash has it. -/
theorem findField_eq (holds : Ziplist.Holds zl (flat pairs)) (short : field.length < 2 ^ 32) :
    ((∀ pair ∈ pairs, pair.1 ≠ field) ∧ findField zl field = .ok none) ∨
      ∃ front value back fptr, pairs = front ++ (field, value) :: back ∧
        findField zl field = .ok (some fptr) ∧ Points zl (flat pairs) (2 * front.length) fptr := by
  -- An empty ziplist has no head to start from.
  have index := Ziplist.ziplistIndex_head holds
  cases pairs with
  | nil =>
    refine .inl ⟨by simp, ?_⟩
    rw [findField, index]
    rfl
  | cons pair rest =>
    obtain ⟨p, index, points⟩ := index
    have found := points.find (Nat.zero_le _) field 1
    have unfolded : findField zl field = onZiplist (Ziplist.ziplistFind zl p field 1) := by
      rw [findField, index, asUnsigned_of_lt short]
      rfl
    rw [drop_zero] at found
    rw [unfolded]
    obtain ⟨absent, none_⟩ | ⟨front, value, back, shape, some_⟩ :=
      searchFrom_flat field (pair :: rest) 0
    · rw [none_] at found
      refine .inl ⟨absent, ?_⟩
      rw [found]
      rfl
    · rw [some_, Nat.zero_add] at found
      obtain ⟨fptr, found, there⟩ := found
      refine .inr ⟨front, value, back, fptr, shape, ?_, there⟩
      rw [found]
      rfl

theorem valueOf_eq {front back : List (Bytes × Bytes)} {value : Bytes} {fptr : Nat}
    (points : Points zl (flat (front ++ (field, value) :: back)) (2 * front.length) fptr) :
    ∃ vptr, valueOf zl fptr = .ok vptr ∧
      Points zl (flat (front ++ (field, value) :: back)) (2 * front.length + 1) vptr := by
  -- A field is never the last string.
  have next := points.next (by simp)
  rw [if_pos (by simp; omega)] at next
  obtain ⟨vptr, moved, there⟩ := next
  refine ⟨vptr, ?_, there⟩
  rw [valueOf, moved]
  rfl

/-- A lookup answers what the map of the pairs says. -/
theorem hashTypeGetFromZiplist_eq (holds : Ziplist.Holds zl (flat pairs))
    (distinct : (pairs.map Prod.fst).Nodup) (short : field.length < 2 ^ 32) :
    hashTypeGetFromZiplist zl field =
      .ok ((keyedMap Prod.fst Prod.snd pairs field).map toValue) := by
  -- The string behind the field is the value of its pair.
  rw [hashTypeGetFromZiplist]
  obtain ⟨absent, none_⟩ | ⟨front, value, back, fptr, shape, found, points⟩ :=
    findField_eq holds short
  · rw [none_, (keyedMap_eq_none Prod.fst Prod.snd).mpr absent]
    rfl
  subst shape
  obtain ⟨vptr, behind, there⟩ := valueOf_eq points
  have stored := keyedMap_of_mem Prod.fst Prod.snd distinct
    (show (field, value) ∈ front ++ (field, value) :: back by simp)
  rw [found, ok_bind]
  simp only [behind, ok_bind, there.get (getElem?_flat front back field value).2]
  rw [show keyedMap Prod.fst Prod.snd (front ++ (field, value) :: back) field = some value
    from stored]
  rfl

end Find

end LearningNotes.Hash
