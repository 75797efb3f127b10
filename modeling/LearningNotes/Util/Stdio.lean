import LearningNotes.Lib.Bytes

/-! Files that are read from the front, as the C library reads them. -/

namespace LearningNotes.Util

open Lib List

/-- What was not read yet, and whether the end was met. -/
structure File where
  rest : Bytes
  feof : Bool
deriving DecidableEq, Repr

/-- The bytes up to a newline, at most so many, and whether the file ended. -/
def cutLine : Nat → Bytes → Bytes × File
  | 0, rest => ([], ⟨rest, false⟩)
  | _ + 1, [] => ([], ⟨[], true⟩)
  | room + 1, byte :: rest =>
    if byte = 10 then ([byte], ⟨rest, false⟩)
    else
      let (line, file) := cutLine room rest
      (byte :: line, file)

/-- `fgets` into a buffer of this size, with its terminator. -/
def fgets (size : Nat) (file : File) : Option Bytes × File :=
  let (line, left) := cutLine (size - 1) file.rest
  (if line.isEmpty then none else some line, { left with feof := file.feof || left.feof })

/-- `fread` of one item, which a short file does not deliver. -/
def fread (size : Nat) (file : File) : Option Bytes × File :=
  if size ≤ file.rest.length then (some (file.rest.take size), { file with rest := file.rest.drop size })
  else (none, ⟨[], true⟩)

variable {line rest : Bytes} {size : Nat} {feof : Bool}

theorem cutLine_append {room : Nat} (absent : 10 ∉ line) (fits : line.length < room) :
    cutLine room (line ++ rest) = (line ++ (cutLine (room - line.length) rest).1,
      (cutLine (room - line.length) rest).2) := by
  -- No byte of the line ends it.
  induction line generalizing room with
  | nil => rfl
  | cons byte line ih =>
    obtain ⟨room, rfl⟩ := Nat.exists_eq_succ_of_ne_zero (Nat.ne_of_gt (Nat.zero_lt_of_lt fits))
    obtain ⟨other, absent⟩ := not_or.mp (mt mem_cons.mpr absent)
    rw [cons_append, cutLine, if_neg (Ne.symm other), ih absent (by simpa using fits),
      length_cons, Nat.succ_sub_succ]
    rfl

theorem cutLine_line {room : Nat} (absent : 10 ∉ line) (fits : line.length < room) :
    cutLine room (line ++ 10 :: rest) = (line ++ [10], ⟨rest, false⟩) := by
  obtain ⟨left, more⟩ := Nat.exists_eq_succ_of_ne_zero (Nat.sub_ne_zero_of_lt fits)
  rw [cutLine_append absent fits, more]
  rfl

theorem cutLine_end {room : Nat} (absent : 10 ∉ line) (fits : line.length < room) :
    cutLine room line = (line, ⟨[], true⟩) := by
  obtain ⟨left, more⟩ := Nat.exists_eq_succ_of_ne_zero (Nat.sub_ne_zero_of_lt fits)
  have cut := @cutLine_append line [] room absent fits
  rwa [append_nil, more, cutLine, append_nil] at cut

/-- A line that fits is read with its newline. -/
theorem fgets_line (absent : 10 ∉ line) (fits : line.length < size - 1) :
    fgets size ⟨line ++ 10 :: rest, feof⟩ = (some (line ++ [10]), ⟨rest, feof⟩) := by
  rw [fgets, cutLine_line absent fits]
  simp

theorem fgets_last (absent : 10 ∉ line) (fits : line.length < size - 1) (nonempty : line ≠ []) :
    fgets size ⟨line, feof⟩ = (some line, ⟨[], true⟩) := by
  rw [fgets, cutLine_end absent fits]
  simp [nonempty]

theorem fgets_nil (room : 1 < size) : fgets size ⟨[], feof⟩ = (none, ⟨[], true⟩) := by
  rw [fgets, cutLine_end (not_mem_nil) (by simpa using (by omega : 0 < size - 1))]
  simp

theorem fread_front {front : Bytes} (width : size = front.length) :
    fread size ⟨front ++ rest, feof⟩ = (some front, ⟨rest, feof⟩) := by
  rw [fread, if_pos (by simp [width])]
  simp [width]

/-- A read beyond the end fails and leaves the file at its end. -/
theorem fread_short {file : File} (short : file.rest.length < size) :
    fread size file = (none, ⟨[], true⟩) := by
  rw [fread, if_neg (by omega)]

end LearningNotes.Util
