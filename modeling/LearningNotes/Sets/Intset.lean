import LearningNotes.Lib.Bytes

/-! How an intset makes room for a member and closes the gap of one, in `intset.c`. -/

namespace LearningNotes.Sets

open Lib List

/-- `INTSET_ENC_INT16`, `INTSET_ENC_INT32` and `INTSET_ENC_INT64`. -/
inductive Encoding where
  | int16
  | int32
  | int64
deriving DecidableEq, Repr

def Encoding.size : Encoding → Nat
  | .int16 => 2
  | .int32 => 4
  | .int64 => 8

structure Intset where
  encoding : Encoding
  length : Nat
  contents : Bytes
deriving DecidableEq, Repr

/-- The bytes that `intsetResize` allocates for members, a `uint64_t`. -/
def resizeSize (is : Intset) (len : Nat) : Nat := len * is.encoding.size % 2 ^ 64

/-- The bytes that `intsetMoveTail` moves, a `uint32_t`. -/
def moveSize (is : Intset) (source : Nat) : Nat :=
  (is.length + 2 ^ 32 - source) % 2 ^ 32 * is.encoding.size % 2 ^ 32

/-- The tail is moved up after the intset was resized, or down before that. -/
def intsetMoveTail (is : Intset) (source target : Nat) : Option Intset :=
  (moveWithin is.contents (target * is.encoding.size) (source * is.encoding.size)
    (moveSize is source)).map fun contents => { is with contents }

/-- After `setTypeAdd`, the set stays an intset of this length. -/
def staysIntset (setMaxIntsetEntries length : Nat) : Bool :=
  decide (length ≤ if 2 ^ 30 ≤ setMaxIntsetEntries then 2 ^ 30 else setMaxIntsetEntries)

variable {is : Intset} {pos setting : Nat}

theorem resizeSize_eq {len : Nat} (small : len ≤ 2 ^ 32) :
    resizeSize is len = len * is.encoding.size := by
  rw [resizeSize, Nat.mod_eq_of_lt]
  cases is.encoding <;> simp only [Encoding.size] <;> omega

theorem moveSize_eq (small : is.length < 2 ^ 32) (inside : pos ≤ is.length) :
    moveSize is pos = (is.length - pos) * is.encoding.size % 2 ^ 32 := by
  rw [moveSize, show (is.length + 2 ^ 32 - pos) % 2 ^ 32 = is.length - pos by omega]

theorem readAt_moveWithin {buffer moved : Bytes} {target source size : Nat}
    (done : moveWithin buffer target source size = some moved) :
    readAt moved target size = readAt buffer source size := by
  obtain ⟨data, read, written⟩ := Option.bind_eq_some_iff.mp done
  unfold readAt at read
  unfold writeAt at written
  split at read
  · split at written
    · rename_i inside fits
      have width : size = data.length := by
        rw [← Option.some.inj read, length_take, length_drop]
        omega
      rw [← Option.some.inj written, readAt_middle (by rw [length_take]; omega) width, readAt,
        if_pos inside, read]
    · cases written
  · cases read

/-- The sizes are those of integers, so that the whole tail is moved, just if 32 bits hold them. -/
theorem whole_tail_iff (kept : staysIntset setting is.length) (inside : pos ≤ is.length) :
    ((∀ len ≤ is.length + 1, resizeSize is len = len * is.encoding.size) ∧
        moveSize is pos = (is.length - pos) * is.encoding.size ∧
        ∀ target moved, intsetMoveTail is pos target = some moved →
          readAt moved.contents (target * is.encoding.size) ((is.length - pos) * is.encoding.size) =
            readAt is.contents (pos * is.encoding.size) ((is.length - pos) * is.encoding.size)) ↔
      (is.length - pos) * is.encoding.size < 2 ^ 32 := by
  have small : is.length ≤ 2 ^ 30 := by
    rw [staysIntset, decide_eq_true_eq] at kept
    split at kept <;> omega
  have size := moveSize_eq (by omega) inside
  constructor
  · rintro ⟨-, whole, -⟩
    rw [← whole, size]
    exact Nat.mod_lt _ (by decide)
  · intro fits
    rw [Nat.mod_eq_of_lt fits] at size
    refine ⟨fun len most => resizeSize_eq (by omega), size, ?_⟩
    intro target moved done
    rw [intsetMoveTail, size] at done
    obtain ⟨contents, written, rfl⟩ := Option.map_eq_some_iff.mp done
    exact readAt_moveWithin written

/-- Making room in front of the last of three members moves that one. -/
theorem last_member_moved :
    intsetMoveTail ⟨.int16, 3, [1, 0, 2, 0, 3, 0, 9, 9]⟩ 2 3 =
        some ⟨.int16, 3, [1, 0, 2, 0, 3, 0, 3, 0]⟩ ∧
      moveSize ⟨.int16, 3, [1, 0, 2, 0, 3, 0, 9, 9]⟩ 2 = 2 :=
  ⟨by decide, ((@whole_tail_iff ⟨.int16, 3, _⟩ 2 512 (by decide) (by decide)).mpr
    (by decide)).2.1⟩

/-- Nothing is moved to make room in front of the first of as many large members as may be. -/
theorem largest_intset_moves_nothing :
    staysIntset (2 ^ 30) (2 ^ 30) = true ∧ moveSize ⟨.int64, 2 ^ 30, []⟩ 0 = 0 := by
  decide

end LearningNotes.Sets
