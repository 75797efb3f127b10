import Mathlib.Tactic.Ring

/-! Byte strings as buffers: numbers written into them, and bytes read, written and moved. -/

namespace LearningNotes.Lib

open List

/-- A byte string, or what a buffer holds. -/
abbrev Bytes := List UInt8

instance : LawfulBEq Bytes := inferInstance

/-- The lowest bytes of a number, lowest first. -/
def littleEndian : Nat → Nat → Bytes
  | 0, _ => []
  | width + 1, number => UInt8.ofNat number :: littleEndian width (number / 256)

/-- The number that bytes spell, lowest first. -/
def ofLittleEndian : Bytes → Nat
  | [] => 0
  | byte :: bytes => byte.toNat + 256 * ofLittleEndian bytes

@[simp] theorem length_littleEndian (width number : Nat) :
    (littleEndian width number).length = width := by
  induction width generalizing number with
  | zero => rfl
  | succ width ih => simp [littleEndian, ih]

theorem ofLittleEndian_littleEndian (width number : Nat) :
    ofLittleEndian (littleEndian width number) = number % 256 ^ width := by
  -- The lowest byte and the rest are the remainder and the quotient by 256.
  induction width generalizing number with
  | zero => simp [littleEndian, ofLittleEndian, Nat.mod_one]
  | succ width ih =>
    rw [littleEndian, ofLittleEndian, ih, UInt8.toNat_ofNat', Nat.pow_succ 256 width,
      Nat.mul_comm (256 ^ width), Nat.mod_mul]

theorem ofLittleEndian_of_lt {width number : Nat} (fits : number < 256 ^ width) :
    ofLittleEndian (littleEndian width number) = number := by
  rw [ofLittleEndian_littleEndian, Nat.mod_eq_of_lt fits]

theorem ofLittleEndian_lt (bytes : Bytes) : ofLittleEndian bytes < 256 ^ bytes.length := by
  -- Each byte adds less than one to the number of those behind it.
  induction bytes with
  | nil => simp [ofLittleEndian]
  | cons byte bytes ih =>
    have low := byte.toNat_lt
    rw [ofLittleEndian, length_cons, Nat.pow_succ]
    omega

def readAt (buffer : Bytes) (offset size : Nat) : Option Bytes :=
  if offset + size ≤ buffer.length then some ((buffer.drop offset).take size) else none

def writeAt (buffer : Bytes) (offset : Nat) (data : Bytes) : Option Bytes :=
  if offset + data.length ≤ buffer.length then
    some (buffer.take offset ++ (data ++ buffer.drop (offset + data.length)))
  else none

/-- `memmove`: the bytes are read before any is overwritten. -/
def moveWithin (buffer : Bytes) (target source size : Nat) : Option Bytes :=
  (readAt buffer source size).bind fun data => writeAt buffer target data

/-- Resize a buffer; the contents of the new part are not known. -/
def resizeTo (unknown : Nat → UInt8) (buffer : Bytes) (size : Nat) : Bytes :=
  buffer.take size ++ (List.range' buffer.length (size - buffer.length)).map unknown

section Concatenations

variable {before middle after data buffer : Bytes} {offset size : Nat}

theorem readAt_middle (start : offset = before.length) (width : size = middle.length) :
    readAt (before ++ (middle ++ after)) offset size = some middle := by
  subst start width
  simp [readAt]

theorem writeAt_middle (start : offset = before.length) (width : data.length = middle.length) :
    writeAt (before ++ (middle ++ after)) offset data = some (before ++ (data ++ after)) := by
  subst start
  rw [writeAt, if_pos (by simp; omega), take_left, drop_length_add_append, width, drop_left]

theorem getElem?_middle {byte : UInt8} (start : offset = before.length) :
    (before ++ byte :: after)[offset]? = some byte := by
  subst start
  simp

theorem moveWithin_views {left right : Bytes} {target : Nat}
    (source : buffer = before ++ (data ++ after)) (start : offset = before.length)
    (width : size = data.length) (destination : buffer = left ++ (middle ++ right))
    (finish : target = left.length) (room : data.length = middle.length) :
    moveWithin buffer target offset size = some (left ++ (data ++ right)) := by
  rw [moveWithin, source, readAt_middle start width, ← source, destination]
  exact writeAt_middle finish room

theorem exists_cut (inside : size ≤ buffer.length) :
    ∃ left right : Bytes, buffer = left ++ right ∧ left.length = size :=
  ⟨buffer.take size, buffer.drop size, (take_append_drop size buffer).symm, by simp [inside]⟩

theorem exists_parts {front back : Nat} (sized : buffer.length = front + back) :
    ∃ left right : Bytes, buffer = left ++ right ∧ left.length = front ∧ right.length = back := by
  obtain ⟨left, right, cut, leftLength⟩ := @exists_cut buffer front (by omega)
  refine ⟨left, right, cut, leftLength, ?_⟩
  rw [cut, length_append] at sized
  omega

/-- Moving the bytes behind a part makes or closes room. -/
theorem moveWithin_gap {gap tail : Bytes} {target room : Nat}
    (start : offset = before.length + gap.length) (width : size = data.length)
    (finish : target = before.length + room) (fits : room ≤ gap.length + after.length) :
    ∃ fresh rest : Bytes,
      moveWithin (before ++ (gap ++ (data ++ (after ++ tail)))) target offset size =
        some (before ++ (fresh ++ (data ++ (rest ++ tail)))) ∧ fresh.length = room ∧
      room + rest.length = gap.length + after.length := by
  -- The part behind the one in front is cut where the moved bytes go to, and where they end.
  obtain ⟨fresh, behind, first, freshLength, behindLength⟩ := @exists_parts
    (gap ++ (data ++ after)) room (data.length + (gap.length + after.length - room))
    (by simp; omega)
  obtain ⟨covered, rest, second, coveredLength, restLength⟩ := exists_parts behindLength
  refine ⟨fresh, rest, ?_, freshLength, by omega⟩
  have destination : before ++ (gap ++ (data ++ (after ++ tail))) =
      (before ++ fresh) ++ (covered ++ (rest ++ tail)) := by
    rw [second] at first
    have whole := congrArg (· ++ tail) first
    simp only [append_assoc] at whole ⊢
    rw [whole]
  rw [moveWithin_views (by rw [← append_assoc]) (by simp [start]) width destination
    (by simp [finish, freshLength]) coveredLength.symm, append_assoc]

theorem resizeTo_eq_take (unknown : Nat → UInt8) (buffer : Bytes) (size : Nat) :
    ∃ fresh : Bytes, resizeTo unknown buffer size = (buffer ++ fresh).take size ∧
      size ≤ buffer.length + fresh.length := by
  refine ⟨(List.range' buffer.length (size - buffer.length)).map unknown, ?_, by simp; omega⟩
  rw [resizeTo, take_append]
  congr 1
  rw [take_of_length_le (by simp)]

end Concatenations

/-- A part of two pieces has the first whole, or is a proper part of it. -/
theorem cut_cases {α : Type} {part missing front back : List α}
    (whole : part ++ missing = front ++ back) :
    (∃ kept, part = front ++ kept ∧ kept ++ missing = back) ∨
      ∃ more, more ≠ [] ∧ part ++ more = front := by
  rcases append_eq_append_iff.mp whole with ⟨more, first, behind⟩ | ⟨kept, shape, behind⟩
  · -- If nothing of the first piece is missing, the part is that piece.
    by_cases complete : more = []
    · rw [complete, append_nil] at first
      rw [complete, nil_append] at behind
      exact .inl ⟨[], by rw [first, append_nil], by rw [nil_append, behind]⟩
    · exact .inr ⟨more, complete, first.symm⟩
  · exact .inl ⟨kept, shape, behind.symm⟩

end LearningNotes.Lib
