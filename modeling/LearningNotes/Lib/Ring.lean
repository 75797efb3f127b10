import LearningNotes.Lib.Bytes

/-! Circular buffers: the elements in the order in which they were written. -/

namespace LearningNotes.Lib.Ring

open List

variable {α : Type}

/-- A ring from the oldest to the newest element, if the next goes to `idx`. -/
def unroll (ring : List α) (idx : Nat) : List α := ring.drop idx ++ ring.take idx

@[simp] theorem length_unroll (ring : List α) (idx : Nat) :
    (unroll ring idx).length = ring.length := by
  simp [unroll]
  omega

/-- The place behind some that were written. -/
def wrap (size idx : Nat) : Nat := if idx = size then 0 else idx

/-- Writing over the oldest elements adds the new ones behind the newest. -/
theorem unroll_write {before covered after data : List α} (width : data.length = covered.length) :
    unroll (before ++ (data ++ after))
        (wrap (before ++ (covered ++ after)).length (before.length + data.length)) =
      (unroll (before ++ (covered ++ after)) before.length ++ data).drop data.length := by
  have old : unroll (before ++ (covered ++ after)) before.length =
      covered ++ (after ++ before) := by
    simp [unroll]
  rw [old, append_assoc, width, drop_left, ← width]
  cases after with
  | nil =>
    -- The last place has been written to, so that the ring starts over.
    rw [wrap, if_pos (by simp [width])]
    simp [unroll]
  | cons next rest =>
    rw [wrap, if_neg (by simp; omega), ← append_assoc, ← length_append, unroll, take_left]
    simp

end LearningNotes.Lib.Ring
