import LearningNotes.Lib.Bytes
import LearningNotes.Lib.Outcome

/-! One block of memory with pointers as offsets into it, where every access is checked. -/

namespace LearningNotes.Lib.Memory

open Lib List

inductive Fault where
  | assertFailed
  | outOfBounds
  /-- A loop went on beyond the bound set for it. -/
  | noProgress
deriving DecidableEq, Repr

/-- Turn an access that failed its bounds into a fault. -/
def inBounds {α : Type} : Option α → Except Fault α
  | none => .error .outOfBounds
  | some result => .ok result

def assert (condition : Bool) : Except Fault Unit :=
  if condition then .ok () else .error .assertFailed

def peek (block : Bytes) (p : Nat) : Except Fault UInt8 := inBounds block[p]?
def load (block : Bytes) (p size : Nat) : Except Fault Bytes := inBounds (readAt block p size)
def store (block : Bytes) (p : Nat) (data : Bytes) : Except Fault Bytes :=
  inBounds (writeAt block p data)
def memmove (block : Bytes) (target source size : Nat) : Except Fault Bytes :=
  inBounds (moveWithin block target source size)

section Accesses

variable {before middle after data : Bytes} {p size : Nat}

theorem assert_true {condition : Bool} (holds : condition = true) : assert condition = .ok () := by
  rw [assert, if_pos holds]

theorem peek_middle {byte : UInt8} (start : p = before.length) :
    peek (before ++ byte :: after) p = .ok byte := by
  rw [peek, getElem?_middle start, inBounds]

theorem load_middle (start : p = before.length) (width : size = middle.length) :
    load (before ++ (middle ++ after)) p size = .ok middle := by
  rw [load, readAt_middle start width, inBounds]

/-- A write in the middle leaves what is before and behind. -/
theorem store_middle (start : p = before.length) (width : data.length = middle.length) :
    store (before ++ (middle ++ after)) p data = .ok (before ++ (data ++ after)) := by
  rw [store, writeAt_middle start width, inBounds]

/-- Moving a block over a gap, with what it overwrites left unspecified. -/
theorem memmove_gap {gap : Bytes} {target room : Nat} (start : p = before.length + gap.length)
    (width : size = data.length) (finish : target = before.length + room)
    (fits : room ≤ gap.length + after.length) :
    ∃ fresh rest : Bytes, memmove (before ++ (gap ++ (data ++ after))) target p size =
      .ok (before ++ (fresh ++ (data ++ rest))) ∧ fresh.length = room ∧
      room + rest.length = gap.length + after.length := by
  obtain ⟨fresh, rest, moved, sizes⟩ :=
    @moveWithin_gap before after data p size gap [] target room start width finish fits
  simp only [append_nil] at moved
  exact ⟨fresh, rest, by rw [memmove, moved, inBounds], sizes⟩

end Accesses

theorem peek_of_lt {block : Bytes} {p : Nat} (inside : p < block.length) :
    ∃ byte, peek block p = .ok byte :=
  ⟨block[p], by rw [peek, getElem?_eq_getElem inside, inBounds]⟩

theorem load_of_le {block : Bytes} {p size : Nat} (inside : p + size ≤ block.length) :
    load block p size = .ok ((block.drop p).take size) := by
  rw [load, readAt, if_pos inside, inBounds]

theorem peek_of_load {block data : Bytes} {p size i : Nat} (loaded : load block p size = .ok data)
    (within : i < size) : data.length = size ∧ ∃ byte, peek block (p + i) = .ok byte ∧
      data[i]? = some byte := by
  rw [load, readAt] at loaded
  split at loaded
  · have value := Except.ok.inj loaded
    subst value
    refine ⟨by simp; omega, block[p + i], ?_, ?_⟩
    · rw [peek, getElem?_eq_getElem (by omega), inBounds]
    · rw [getElem?_take_of_lt within, getElem?_drop, getElem?_eq_getElem (by omega)]
  · cases loaded

end LearningNotes.Lib.Memory
