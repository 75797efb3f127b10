import LearningNotes.Hll.Decode

/-! Which crafted bodies the decoders withstand, and one that they do not. -/

namespace LearningNotes.Hll

open Lib List

/-- A decoder accepts a sparse body only if its run lengths add up. -/
def Exact (o : Hllhdr) : Prop :=
  o.encoding = hllSparse → totalLen (opcodes o.registers) = hllRegisters

/-- A run of values starts right behind the last register, if the first run starts at an offset. -/
def ValueBehind : Nat → List Opcode → Prop
  | _, [] => False
  | offset, op :: ops =>
    (op.isVal = true ∧ offset = hllRegisters) ∨ ValueBehind (offset + op.len) ops

variable {offset : Nat} {ops : List Opcode} {overflows : Int → Nat → Bool}

/-- There are then more registers than there should be. -/
theorem ValueBehind.sum (behind : ValueBehind offset ops) :
    offset ≤ hllRegisters ∧ hllRegisters < offset + totalLen ops := by
  induction ops generalizing offset with
  | nil => exact absurd behind id
  | cons op ops ih =>
    have positive := op.len_pos
    rw [totalLen_cons]
    rcases behind with ⟨_, here⟩ | later
    · omega
    · have bounds := ih later
      omega

section Decoders

variable {σ : Type} {set : σ → Int → Nat → Except Fault σ} {good : σ → Prop}
  {view : σ → Nat → Nat} {combine : Nat → Nat → Nat} {registers : σ}
  (writes : Writes set good view combine) (tests : TestsSum overflows)
include writes tests

end Decoders

theorem mergeDense_spec (registers : Bytes) (left i : Nat) {max : List Nat}
    (fits : i + left ≤ max.length) :
    ∃ max', mergeDense registers left i max = .ok max' ∧ max'.length = max.length ∧
      ∀ j, max'.getD j 0 =
        if i ≤ j ∧ j < i + left then Nat.max (max.getD j 0) (denseGetRegister registers j)
        else max.getD j 0 := by
  induction left generalizing i max with
  | zero => exact ⟨max, rfl, rfl, fun j => by rw [if_neg (by omega)]⟩
  | succ left ih =>
    obtain ⟨middle, raised, length, seen⟩ :=
      @raiseMax_spec max i (by omega) (denseGetRegister registers i)
    obtain ⟨final, merged, length', seen'⟩ := @ih (i + 1) middle (by omega)
    refine ⟨final, by rw [mergeDense, raised, ok_bind, merged], length'.trans length, ?_⟩
    intro j
    rw [seen' j, seen j]
    by_cases here : j = i
    · rw [if_neg (by omega), if_pos here, if_pos (by omega), here]
    · rw [if_neg here]
      by_cases within : i + 1 ≤ j ∧ j < i + 1 + left
      · rw [if_pos within, if_pos (by omega)]
      · rw [if_neg within, if_neg (by omega)]

local instance valueRange : NeZero 32 := ⟨by decide⟩
local instance lenRange : NeZero 4 := ⟨by decide⟩
local instance zeroRange : NeZero 64 := ⟨by decide⟩
local instance xzeroRange : NeZero 16384 := ⟨by decide⟩

end LearningNotes.Hll
