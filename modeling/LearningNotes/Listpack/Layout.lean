import LearningNotes.Listpack.Basic

/-! What a listpack looks like: the bytes of its elements, and the header in front of them. -/

namespace LearningNotes.Listpack

open Lib Lib.Memory Util

/-- The element that a string is stored as. -/
def toElement (s : Bytes) : Element :=
  match lpStringToInt64 s with
  | some value => .int value
  | none => .str s

/-- The bytes of an element in front of the backlen. -/
def Element.encoded : Element → Bytes
  | .str s => lpEncodeString s
  | .int value => intenc value

/-- A string fits its length field, and an integer fits 64 bits. -/
def Element.Fits : Element → Prop
  | .str s => s.length < 2 ^ 32
  | .int value => InLong value

def entry (s : Bytes) : Bytes :=
  encodedElement s ++ lpEncodeBacklen (encodedElement s).length

def entrySize (s : Bytes) : Nat := (entry s).length

variable (s : Bytes)

@[simp] theorem length_entry : (entry s).length = entrySize s := rfl

def totalSize : List Bytes → Nat
  | [] => 0
  | s :: rest => entrySize s + totalSize rest

@[simp] theorem totalSize_nil : totalSize [] = 0 := rfl

@[simp] theorem totalSize_cons (rest : List Bytes) :
    totalSize (s :: rest) = entrySize s + totalSize rest := rfl

def entries : List Bytes → Bytes
  | [] => []
  | s :: rest => entry s ++ entries rest

def listpackBytes (strings : List Bytes) : Nat := headerSize + totalSize strings + 1

def header (bytes numele : Nat) : Bytes := littleEndian 4 bytes ++ littleEndian 2 numele

/-- The listpack of strings, with this number in its count field. -/
def image (numele : Nat) (strings : List Bytes) : Bytes :=
  header (listpackBytes strings) numele ++ (entries strings ++ [lpEof])

/-- A string stored as an integer has the text of that integer. -/
theorem bytes_toElement : (toElement s).bytes = s := by
  unfold toElement
  split
  · rename_i value parsed
    exact (string2ll_decimal (lpStringToInt64_eq s ▸ parsed)).1
  · rfl

theorem lpEncodeGetType_none {s : Bytes} (parsed : lpStringToInt64 s = none) :
    lpEncodeGetType s = (none, (lpEncodeString s).length) := by
  unfold lpEncodeGetType lpEncodeString
  rw [parsed]
  dsimp only
  repeat' split
  all_goals simp
  all_goals omega

theorem encodedElement_eq : encodedElement s = (toElement s).encoded := by
  unfold encodedElement toElement
  cases parsed : lpStringToInt64 s with
  | some value =>
    rw [lpEncodeGetType, parsed]
    rfl
  | none =>
    rw [lpEncodeGetType_none parsed]
    rfl

theorem lpEncodeGetType_length : (lpEncodeGetType s).2 = (encodedElement s).length := by
  unfold encodedElement
  cases parsed : lpStringToInt64 s with
  | some value => rw [lpEncodeGetType, parsed]
  | none => rw [lpEncodeGetType_none parsed]

@[simp] theorem length_header (bytes numele : Nat) : (header bytes numele).length = headerSize := by
  simp [header, headerSize]

@[simp] theorem length_entries (strings : List Bytes) :
    (entries strings).length = totalSize strings := by
  induction strings with
  | nil => rfl
  | cons s rest ih => simp [entries, ih]

@[simp] theorem length_image (numele : Nat) (strings : List Bytes) :
    (image numele strings).length = listpackBytes strings := by
  simp [image, listpackBytes, Nat.add_assoc]

theorem entries_append (front back : List Bytes) :
    entries (front ++ back) = entries front ++ entries back := by
  induction front with
  | nil => rfl
  | cons s rest ih => simp [entries, ih]

@[simp] theorem totalSize_append (front back : List Bytes) :
    totalSize (front ++ back) = totalSize front + totalSize back := by
  induction front with
  | nil => simp [totalSize]
  | cons s rest ih => simp [ih, Nat.add_assoc]

theorem lpEncodeBacklen_length (l : Nat) :
    0 < (lpEncodeBacklen l).length ∧ (lpEncodeBacklen l).length ≤ 5 := by
  unfold lpEncodeBacklen
  repeat' split
  all_goals simp

theorem intenc_length_pos (v : Int) : 0 < (intenc v).length := by
  unfold intenc
  repeat' split
  all_goals simp

theorem encodedElement_length_pos : 0 < (encodedElement s).length := by
  rw [encodedElement_eq]
  cases toElement s with
  | int value => exact intenc_length_pos value
  | str s =>
    rw [Element.encoded, lpEncodeString]
    repeat' split
    all_goals simp

/-- An entry is its element and the length behind it. -/
theorem entrySize_eq :
    entrySize s = (encodedElement s).length + (lpEncodeBacklen (encodedElement s).length).length := by
  rw [entrySize, entry, List.length_append]

theorem two_le_entrySize : 2 ≤ entrySize s := by
  have encoding := encodedElement_length_pos s
  have backlen := lpEncodeBacklen_length (encodedElement s).length
  rw [entrySize_eq]
  omega

theorem length_le_totalSize (strings : List Bytes) : strings.length ≤ totalSize strings := by
  induction strings with
  | nil => exact Nat.le_refl 0
  | cons s rest ih =>
    have size := two_le_entrySize s
    simp only [List.length_cons, totalSize_cons]
    omega

/-- An entry below four gigabytes holds an element that fits its encoding. -/
theorem length_lt_of_entrySize {s : Bytes} (small : entrySize s < 2 ^ 32) : (toElement s).Fits := by
  unfold toElement
  cases parsed : lpStringToInt64 s with
  | some value => exact (string2ll_decimal (lpStringToInt64_eq s ▸ parsed)).2
  | none =>
    have stored : (encodedElement s).length = (lpEncodeString s).length := by
      rw [encodedElement_eq, toElement, parsed]
      rfl
    have longer : s.length ≤ (lpEncodeString s).length := by
      unfold lpEncodeString
      repeat' split
      all_goals simp only [List.length_cons, List.length_append]
      all_goals omega
    have size := entrySize_eq s
    change s.length < 2 ^ 32
    omega

end LearningNotes.Listpack
