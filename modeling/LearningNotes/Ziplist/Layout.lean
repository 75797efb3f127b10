import LearningNotes.Ziplist.Basic

/-! What a ziplist looks like: the bytes of its entries, and the header in front of them. -/

namespace LearningNotes.Ziplist

open Lib Util

/-- The encoding of a value, without length bits. -/
def Value.encoding : Value → UInt8
  | .str s =>
    if s.length ≤ 0x3f then zipStr06b
    else if s.length ≤ 0x3fff then zipStr14b
    else zipStr32b
  | .int value => zipIntEncoding value

def Value.header : Value → Bytes
  | .str s => zipStoreEntryEncoding zipStr06b s.length
  | .int value => [zipIntEncoding value]

def Value.content : Value → Bytes
  | .str s => s
  | .int value => twosComplement ((intEncodingSize (zipIntEncoding value)).getD 0) value

def Value.body (value : Value) : Bytes := value.header ++ value.content

/-- A string fits its length field, and an integer fits a `long long`. -/
def Value.Fits : Value → Prop
  | .str s => s.length < 256 ^ 4
  | .int value => InLong value

/-- A value behind a wide or a narrow prevlen field. -/
structure Entry where
  wide : Bool
  value : Value
deriving DecidableEq, Repr

namespace Entry

def prevWidth (entry : Entry) : Nat := if entry.wide then 5 else 1

def size (entry : Entry) : Nat := entry.prevWidth + entry.value.body.length

def prevField (entry : Entry) (prev : Nat) : Bytes :=
  if entry.wide then prevlenLarge prev else [UInt8.ofNat prev]

/-- The bytes of the entry behind one of the given size. -/
def bytes (entry : Entry) (prev : Nat) : Bytes := entry.prevField prev ++ entry.value.body

def widen (entry : Entry) : Entry := { entry with wide := true }

section

variable (entry : Entry)
include entry

@[simp] theorem widen_value : entry.widen.value = entry.value := rfl

@[simp] theorem widen_wide : entry.widen.wide = true := rfl

/-- The size before fits the field, and the value its encoding. -/
structure Fits (entry : Entry) (prev : Nat) : Prop where
  narrow : entry.wide = false → prev < zipBigPrevlen
  bounded : prev < 256 ^ 4
  value : entry.value.Fits

@[simp] theorem length_prevField (prev : Nat) :
    (entry.prevField prev).length = entry.prevWidth := by
  unfold prevField prevWidth prevlenLarge
  split <;> simp

@[simp] theorem length_bytes (prev : Nat) : (entry.bytes prev).length = entry.size := by
  simp [bytes, size]

theorem prevWidth_pos : 0 < entry.prevWidth := by
  unfold prevWidth
  split <;> omega

theorem prevWidth_le : entry.prevWidth ≤ 5 := by
  unfold prevWidth
  split <;> omega

end

/-- Widening the field in front of an entry costs four bytes. -/
theorem size_widen {entry : Entry} (narrow : entry.wide = false) :
    entry.widen.size = entry.size + 4 := by
  simp only [size, prevWidth, narrow]
  simp
  omega

end Entry

theorem Value.header_pos (value : Value) : 0 < value.header.length := by
  cases value with
  | int value => exact Nat.one_pos
  | str s =>
    simp only [header, zipStoreEntryEncoding]
    repeat' split
    all_goals simp

/-- The smallest entry is a one-byte length and a one-byte encoding. -/
theorem Entry.two_le_size (entry : Entry) : 2 ≤ entry.size := by
  have field := entry.prevWidth_pos
  have header := entry.value.header_pos
  simp only [size, Value.body, List.length_append]
  omega

/-- The bytes of entries that follow one of the given size. -/
def layout : Nat → List Entry → Bytes
  | _, [] => []
  | prev, entry :: rest => entry.bytes prev ++ layout entry.size rest

/-- The size of the last entry, if there is one. -/
def lastSize : Nat → List Entry → Nat
  | prev, [] => prev
  | _, entry :: rest => lastSize entry.size rest

def totalSize : List Entry → Nat
  | [] => 0
  | entry :: rest => entry.size + totalSize rest

/-- The offset of the last of the entries from `p` on. -/
def lastAt : Nat → Nat → List Entry → Nat
  | last, _, [] => last
  | _, p, entry :: rest => lastAt p (p + entry.size) rest

/-- Every narrow field is exact, and every value fits. -/
def Chain : Nat → List Entry → Prop
  | _, [] => True
  | prev, entry :: rest =>
    ((entry.wide = false → prev < zipBigPrevlen) ∧ entry.value.Fits) ∧ Chain entry.size rest

/-- The bytes of the entries are as many as their sizes say. -/
@[simp] theorem length_layout (prev : Nat) (entries : List Entry) :
    (layout prev entries).length = totalSize entries := by
  induction entries generalizing prev with
  | nil => rfl
  | cons entry rest ih => simp [layout, totalSize, ih]

@[simp] theorem totalSize_append (front back : List Entry) :
    totalSize (front ++ back) = totalSize front + totalSize back := by
  induction front with
  | nil => simp [totalSize]
  | cons entry rest ih => simp [totalSize, ih, Nat.add_assoc]

theorem place_next (front : List Entry) (entry : Entry) :
    headerSize + totalSize front + entry.size = headerSize + totalSize (front ++ [entry]) := by
  simp [totalSize, Nat.add_assoc]

/-- A suffix is laid out after the size of the last entry in front of it. -/
theorem layout_append (prev : Nat) (front back : List Entry) :
    layout prev (front ++ back) = layout prev front ++ layout (lastSize prev front) back := by
  induction front generalizing prev with
  | nil => rfl
  | cons entry rest ih => simp [layout, lastSize, ih]

theorem lastSize_append (prev : Nat) (front back : List Entry) :
    lastSize prev (front ++ back) = lastSize (lastSize prev front) back := by
  induction front generalizing prev with
  | nil => rfl
  | cons entry rest ih => exact ih entry.size

theorem lastAt_append (last p : Nat) (front back : List Entry) :
    lastAt last p (front ++ back) = lastAt (lastAt last p front) (p + totalSize front) back := by
  induction front generalizing last p with
  | nil => simp [lastAt, totalSize]
  | cons entry rest ih => simp [lastAt, totalSize, ih, Nat.add_assoc]

/-- Entries fit together when each part does, and the second starts from the size of the last of the
first. -/
theorem Chain.append {prev : Nat} {front back : List Entry} :
    Chain prev (front ++ back) ↔ Chain prev front ∧ Chain (lastSize prev front) back := by
  induction front generalizing prev with
  | nil => simp [Chain, lastSize]
  | cons entry rest ih => simp [Chain, lastSize, ih, and_assoc]

theorem lastSize_le (prev : Nat) (entries : List Entry) :
    lastSize prev entries ≤ prev + totalSize entries := by
  induction entries generalizing prev with
  | nil => simp [lastSize]
  | cons entry rest ih =>
    have tail := ih entry.size
    simp only [lastSize, totalSize]
    omega

variable {entries : List Entry} {last p : Nat}

/-- What the next entry records about the one before it is less than the whole list. -/
theorem lastSize_le_totalSize (some : entries ≠ []) (prev : Nat) :
    lastSize prev entries ≤ totalSize entries := by
  cases entries with
  | nil => exact absurd rfl some
  | cons entry rest => exact lastSize_le entry.size rest

/-- Walking back from the end by the recorded length leads to the last entry. -/
theorem lastAt_add_lastSize (last p : Nat) (entries : List Entry) (given : last ≤ p) :
    lastAt last p entries + lastSize (p - last) entries = p + totalSize entries := by
  induction entries generalizing last p with
  | nil =>
    simp only [lastAt, lastSize, totalSize]
    omega
  | cons entry rest ih =>
    have tail := ih p (p + entry.size) (Nat.le_add_right p entry.size)
    simp only [lastAt, lastSize, totalSize, Nat.add_sub_cancel_left] at tail ⊢
    omega

/-- The offset of the last entry moves with the list. -/
theorem lastAt_add (last p distance : Nat) (entries : List Entry) :
    lastAt (last + distance) (p + distance) entries = lastAt last p entries + distance := by
  induction entries generalizing last p with
  | nil => rfl
  | cons entry rest ih =>
    simp only [lastAt]
    rw [Nat.add_right_comm, ih]

/-- With an entry in the list, its last one does not depend on what was before. -/
theorem lastAt_of_ne_nil (some : entries ≠ []) (last other p : Nat) :
    lastAt last p entries = lastAt other p entries := by
  cases entries with
  | nil => exact absurd rfl some
  | cons entry rest => rfl

theorem lastSize_of_ne_nil (some : entries ≠ []) (prev other : Nat) :
    lastSize prev entries = lastSize other entries := by
  cases entries with
  | nil => exact absurd rfl some
  | cons entry rest => rfl

theorem lastSize_pos (some : entries ≠ []) (prev : Nat) : 0 < lastSize prev entries := by
  induction entries generalizing prev with
  | nil => exact absurd rfl some
  | cons entry rest ih =>
    cases rest with
    | nil => exact Nat.lt_of_lt_of_le Nat.two_pos entry.two_le_size
    | cons next rest => exact ih (List.cons_ne_nil next rest) entry.size

/-- The last entry starts at least two bytes before the end. -/
theorem lastAt_add_two_le (entries : List Entry) (before : last + 2 ≤ p) :
    lastAt last p entries + 2 ≤ p + totalSize entries := by
  induction entries generalizing last p with
  | nil => exact before
  | cons entry rest ih =>
    have size := entry.two_le_size
    have tail := @ih p (p + entry.size) (by omega)
    simp only [lastAt, totalSize]
    omega

theorem le_lastAt (some : entries ≠ []) (last p : Nat) : p ≤ lastAt last p entries := by
  induction entries generalizing last p with
  | nil => exact absurd rfl some
  | cons entry rest ih =>
    cases rest with
    | nil => exact Nat.le_refl p
    | cons next rest =>
      exact Nat.le_trans (Nat.le_add_right p entry.size) (ih (List.cons_ne_nil next rest) p _)

theorem le_lastAt_of_le (entries : List Entry) (before : last ≤ p) :
    last ≤ lastAt last p entries := by
  cases entries with
  | nil => exact Nat.le_refl last
  | cons entry rest => exact Nat.le_trans before (le_lastAt (List.cons_ne_nil entry rest) last p)

def header (bytes tail length : Nat) : Bytes :=
  littleEndian 4 bytes ++ (littleEndian 4 tail ++ littleEndian 2 length)

@[simp] theorem length_header (bytes tail length : Nat) :
    (header bytes tail length).length = headerSize := by
  simp [header, headerSize]

/-- The ziplist of entries, with this number in its length field. -/
def image (length : Nat) (entries : List Entry) : Bytes :=
  header (headerSize + totalSize entries + endSize) (lastAt headerSize headerSize entries) length ++
    (layout 0 entries ++ [zipEnd])

/-- A ziplist is as long as the total that its header records. -/
@[simp] theorem length_image (length : Nat) (entries : List Entry) :
    (image length entries).length = headerSize + totalSize entries + endSize := by
  simp [image, endSize, Nat.add_assoc]

/-- The length field is exact as long as there have never been too many entries to count. -/
def Counts (peak length entries : Nat) : Prop :=
  entries ≤ peak ∧ length = if peak < uint16Max then entries else uint16Max

/-- The recorded count fits its two bytes. -/
theorem Counts.bounded {peak length entries : Nat} (counts : Counts peak length entries) :
    length < 256 ^ 2 := by
  obtain ⟨most, rfl⟩ := counts
  have full : uint16Max = 65535 := rfl
  split_ifs <;> omega

/-- Entries that a ziplist can hold. -/
structure Stored (entries : List Entry) : Prop where
  chain : Chain 0 entries
  bounded : headerSize + totalSize entries + endSize < uint32Max

/-- The bytes of a ziplist that has had so many entries at most. -/
structure Represents (peak : Nat) (zl : Bytes) (entries : List Entry) : Prop where
  shape : ∃ length, zl = image length entries ∧ Counts peak length entries.length
  chain : Chain 0 entries
  bounded : headerSize + totalSize entries + endSize < uint32Max

theorem Represents.stored {peak : Nat} {zl : Bytes} (represented : Represents peak zl entries) :
    Stored entries :=
  ⟨represented.chain, represented.bounded⟩

end LearningNotes.Ziplist
