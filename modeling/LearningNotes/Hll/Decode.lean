import Mathlib.Data.List.GetD
import LearningNotes.Hll.Opcodes

/-! What the decoders do with any body: where they write, where they stop, and what they accept. -/

namespace LearningNotes.Hll

open Lib List

variable {σ : Type} {overflows : Int → Nat → Bool} {set : σ → Int → Nat → Except Fault σ}

def decodeOpcodes (overflows : Int → Nat → Bool) (set : σ → Int → Nat → Except Fault σ) :
    List Opcode → Int → σ → Except Fault (Int × σ)
  | [], idx, registers => .ok (idx, registers)
  | op :: ops, idx, registers =>
    if op.isVal then
      if overflows idx op.len then .ok (idx, registers)
      else do
        let (idx, registers) ← setRun set op.value op.len idx registers
        decodeOpcodes overflows set ops idx registers
    else decodeOpcodes overflows set ops (toInt32 (idx + op.len)) registers

theorem decodeSparse_cons {b : UInt8} (single : sparseIsXzero b = false) (rest : Bytes) (idx : Int)
    (registers : σ) :
    decodeSparse overflows set (b :: rest) idx registers =
      if sparseIsZero b then
        decodeSparse overflows set rest (toInt32 (idx + sparseZeroLen b)) registers
      else if overflows idx (sparseValLen b) then .ok (idx, registers)
      else (do
        let (idx, registers) ← setRun set (sparseValValue b) (sparseValLen b) idx registers
        decodeSparse overflows set rest idx registers) := by
  cases rest with
  | nil =>
    simp only [decodeSparse, single]
    cases setRun set (sparseValValue b) (sparseValLen b) idx registers <;> rfl
  | cons next rest =>
    rw [decodeSparse, single]
    simp only [Bool.false_eq_true, if_false]

theorem decodeSparse_eq (body : Bytes) (idx : Int) (registers : σ) :
    decodeSparse overflows set body idx registers =
      decodeOpcodes overflows set (opcodes body) idx registers := by
  -- One byte at a time, unless it is the first of two.
  have step : ∀ (b : UInt8) (rest : Bytes), sparseIsXzero b = false →
      (∀ idx registers, decodeSparse overflows set rest idx registers =
        decodeOpcodes overflows set (opcodes rest) idx registers) →
      ∀ idx registers, decodeSparse overflows set (b :: rest) idx registers =
        decodeOpcodes overflows set (opcodes (b :: rest)) idx registers := by
    intro b rest single ih idx registers
    rw [decodeSparse_cons single, opcodes_cons single]
    cases zero : sparseIsZero b with
    | true =>
      obtain ⟨less, reads, len⟩ := readOpcode_zero zero 0
      rw [reads, decodeOpcodes, len, ← ih]
      rfl
    | false =>
      obtain ⟨value, less, reads, len, val⟩ := readOpcode_val zero single 0
      rw [reads, len, val]
      simp only [ih]
      rfl
  induction body using opcodes.induct generalizing idx registers with
  | case1 => rfl
  | case2 b =>
    cases kind : sparseIsXzero b with
    | false => exact step b [] kind (fun _ _ => rfl) idx registers
    | true =>
      -- The second byte is missing, so the terminator is read.
      obtain ⟨less, reads, len⟩ := readOpcode_xzero kind 0
      have other : sparseIsZero b = false := by
        rcases opcode_kinds b with ⟨_, none_, _⟩ | ⟨other, _⟩ | ⟨other, _⟩
        · exact absurd kind (by rw [none_]; exact Bool.false_ne_true)
        · exact other
        · exact other
      rw [opcodes, reads, decodeSparse, other, kind, len]
      rfl
  | case3 b next rest kind ih =>
    obtain ⟨less, reads, len⟩ := readOpcode_xzero kind next
    have other : sparseIsZero b = false := by
      rcases opcode_kinds b with ⟨_, none_, _⟩ | ⟨other, _⟩ | ⟨other, _⟩
      · exact absurd kind (by rw [none_]; exact Bool.false_ne_true)
      · exact other
      · exact other
    rw [opcodes, if_pos kind, reads, decodeSparse, other, kind, len, decodeOpcodes]
    exact ih _ _
  | case4 b next rest kind ih =>
    exact step b (next :: rest) (Bool.eq_false_iff.mpr kind) ih idx registers

/-- The test for too long a run is right as long as the sum fits an `int`. -/
def TestsSum (overflows : Int → Nat → Bool) : Prop :=
  ∀ offset len : Nat, offset + len < 2 ^ 31 →
    (overflows offset len = true ↔ hllRegisters < offset + len)

theorem intOverflows_testsSum : TestsSum intOverflows := by
  intro offset len small
  rw [intOverflows, decide_eq_true_eq, toInt32_of_lt (by omega) (by omega)]
  omega

theorem longOverflows_testsSum : TestsSum longOverflows := by
  intro offset len _
  rw [longOverflows, decide_eq_true_eq]
  omega

/-- Setting a register that exists changes that one of the registers in view. -/
structure Writes (set : σ → Int → Nat → Except Fault σ) (good : σ → Prop) (view : σ → Nat → Nat)
    (combine : Nat → Nat → Nat) : Prop where
  inside : ∀ {registers}, good registers → ∀ {i val : Nat}, i < hllRegisters → 0 < val → val ≤ 32 →
    ∃ registers', set registers i val = .ok registers' ∧ good registers' ∧
      ∀ j < hllRegisters, view registers' j =
        if j = i then combine (view registers j) val else view registers j
  -- Runs of zeros change nothing.
  zero : ∀ old, combine old 0 = old

theorem Opcode.value_bounds {op : Opcode} (kind : op.isVal = true) :
    0 < op.value ∧ op.value ≤ 32 := by
  cases op with
  | zero less => cases kind
  | xzero less => cases kind
  | val value less => exact ⟨Nat.succ_pos _, value.isLt⟩

section Writes

variable {good : σ → Prop} {view : σ → Nat → Nat} {combine : Nat → Nat → Nat}
  {val offset : Nat} {registers : σ} (writes : Writes set good view combine)
include writes

/-- A run of registers that exist is set from the first to the last. -/
theorem Writes.setRun_inside (positive : 0 < val) (small : val ≤ 32) (len : Nat)
    (fine : good registers) (fits : offset + len ≤ hllRegisters) :
    ∃ registers', setRun set val len offset registers =
        .ok ((offset + len : Nat), registers') ∧ good registers' ∧
      ∀ j < hllRegisters, view registers' j =
        if offset ≤ j ∧ j < offset + len then combine (view registers j) val
        else view registers j := by
  have count : hllRegisters = 16384 := rfl
  induction len generalizing offset registers with
  | zero => exact ⟨registers, rfl, fine, fun j _ => by rw [if_neg (by omega)]⟩
  | succ len ih =>
    obtain ⟨middle, wrote, fine', seen⟩ :=
      writes.inside fine (by omega : offset < hllRegisters) positive small
    obtain ⟨final, ran, fine'', seen'⟩ := @ih (offset + 1) middle fine' (by omega)
    refine ⟨final, ?_, fine'', ?_⟩
    · rw [setRun, wrote, toInt32_of_lt (by omega) (by omega)]
      exact ran.trans (by rw [Nat.add_right_comm, Nat.add_assoc])
    intro j inside
    rw [seen' j inside, seen j inside]
    by_cases same : j = offset
    · rw [if_neg (by omega), if_pos same, if_pos (by omega)]
    · rw [if_neg same]
      by_cases within : offset + 1 ≤ j ∧ j < offset + 1 + len
      · rw [if_pos within, if_pos (by omega)]
      · rw [if_neg within, if_neg (by omega)]

variable (tests : TestsSum overflows)
include tests

/-- A run is read that ends at the last register or before it, or that holds zeros. -/
theorem Writes.decode_cons (offset : Nat) (op : Opcode) (ops : List Opcode) (fine : good registers)
    (small : offset + op.len < 2 ^ 31) (fits : op.isVal = true → offset + op.len ≤ hllRegisters) :
    ∃ middle, good middle ∧
      decodeOpcodes overflows set (op :: ops) offset registers =
        decodeOpcodes overflows set ops (offset + op.len : Nat) middle ∧
      ∀ j < hllRegisters, view middle j =
        if offset ≤ j ∧ j < offset + op.len then combine (view registers j) op.value
        else view registers j := by
  rw [decodeOpcodes]
  cases kind : op.isVal with
  | false =>
    have nothing : op.value = 0 := by cases op <;> first | rfl | cases kind
    refine ⟨registers, fine, ?_, fun j _ => by rw [nothing, writes.zero, ite_self]⟩
    rw [if_neg Bool.false_ne_true, ← Int.natCast_add, toInt32_of_lt (by omega) (by omega)]
  | true =>
    obtain ⟨positive, low⟩ := op.value_bounds kind
    obtain ⟨middle, ran, fine', seen⟩ :=
      writes.setRun_inside positive low op.len fine (fits kind)
    refine ⟨middle, fine', ?_, seen⟩
    rw [if_pos rfl, if_neg (fun long => Nat.not_lt.mpr (fits kind) ((tests _ _ small).mp long)), ran]
    rfl

theorem Writes.decode_values (ops : List Opcode) {offset : Nat} {registers : σ}
    (fine : good registers) (fits : offset + totalLen ops ≤ hllRegisters) :
    ∃ registers', decodeOpcodes overflows set ops offset registers =
        .ok ((offset + totalLen ops : Nat), registers') ∧ good registers' ∧
      ∀ j < hllRegisters, view registers' j =
        if offset ≤ j then combine (view registers j) ((values ops).getD (j - offset) 0)
        else view registers j := by
  have count : hllRegisters = 16384 := rfl
  induction ops generalizing offset registers with
  | nil =>
    refine ⟨registers, rfl, fine, fun j _ => ?_⟩
    rw [values_nil, getD_nil, writes.zero, ite_self]
  | cons op ops ih =>
    rw [totalLen_cons] at fits
    -- The registers of the first run, and the ones behind it.
    have covered : ∀ j, offset ≤ j → j < offset + op.len →
        (values (op :: ops)).getD (j - offset) 0 = op.value := by
      intro j above below
      rw [values_cons, getD_append _ _ _ _ (by rw [length_replicate]; omega),
        getD_replicate _ (by omega)]
    have behind : ∀ j, offset + op.len ≤ j →
        (values (op :: ops)).getD (j - offset) 0 = (values ops).getD (j - (offset + op.len)) 0 := by
      intro j above
      rw [values_cons, getD_append_right _ _ _ _ (by rw [length_replicate]; omega),
        length_replicate, Nat.sub_add_eq]
    obtain ⟨middle, fine', stepped, seen⟩ :=
      writes.decode_cons tests offset op ops fine (by omega) (fun _ => by omega)
    obtain ⟨final, ran, fine'', seen'⟩ := @ih (offset + op.len) middle fine' (by omega)
    refine ⟨final, ?_, fine'', ?_⟩
    · rw [stepped, ran, totalLen_cons, Nat.add_assoc]
    intro j inside
    rw [seen' j inside, seen j inside]
    by_cases before : offset ≤ j
    · by_cases here : j < offset + op.len
      · rw [if_neg (by omega), if_pos ⟨before, here⟩, if_pos before, covered j before here]
      · rw [if_pos (by omega), if_neg (by omega), if_pos before, behind j (by omega)]
    · rw [if_neg (by omega), if_neg (by omega), if_neg before]

end Writes

section Writers

theorem setDense_writes :
    Writes setDense (fun p => p.length = hllDenseBytes) denseGetRegister
      (fun old val => if val = 0 then old else val) where
  inside := by
    intro registers size i val inside positive small
    have count : hllRegisters = 16384 := rfl
    have bytes : hllDenseBytes = 12288 := rfl
    refine ⟨denseSetRegister registers i val, ?_, ?_, ?_⟩
    · -- The product does not wrap around, and is not negative.
      have product : toInt32 ((i : Int) * hllBits) = (i * hllBits : Nat) := by
        rw [hllBits, toInt32_of_lt (by omega) (by omega)]
        rfl
      rw [setDense, product, if_pos (by rw [hllBits]; omega)]
      rfl
    · rw [length_denseSetRegister, size]
    · intro j _
      rw [denseGetRegister_set size.ge inside (by omega), if_neg (by omega : ¬ val = 0)]
  zero := fun old => if_pos rfl

def raise (registers : List Nat) (index count : Nat) : List Nat :=
  if registers.getD index 0 < count then registers.set index count else registers

theorem getD_raise {registers : List Nat} {index : Nat} (inside : index < registers.length)
    (count j : Nat) :
    (raise registers index count).getD j 0 =
      if j = index then Nat.max (registers.getD j 0) count else registers.getD j 0 := by
  rw [raise]
  -- An element is written only if it gets larger, which is how a maximum is kept.
  by_cases same : j = index
  · subst same
    rw [if_pos rfl]
    split
    · rename_i larger
      rw [getD_eq_getElem?_getD, getElem?_set_self inside, Option.getD_some]
      exact (Nat.max_eq_right (Nat.le_of_lt larger)).symm
    · rename_i smaller
      exact (Nat.max_eq_left (Nat.le_of_not_lt smaller)).symm
  · split
    · rw [getD_eq_getElem?_getD, getElem?_set_ne (fun eq => same eq.symm), getD_eq_getElem?_getD]
    · rfl

theorem length_raise (registers : List Nat) (index count : Nat) :
    (raise registers index count).length = registers.length := by
  rw [raise]
  split
  · rw [length_set]
  · rfl

theorem raiseMax_spec {max : List Nat} {i : Nat} (inside : i < max.length) (val : Nat) :
    ∃ max', raiseMax max i val = .ok max' ∧ max'.length = max.length ∧
      ∀ j, max'.getD j 0 = if j = i then Nat.max (max.getD j 0) val else max.getD j 0 := by
  have exists_ : (0 : Int) ≤ i ∧ (i : Int) < max.length :=
    ⟨Int.natCast_nonneg i, Int.ofNat_lt.mpr inside⟩
  exact ⟨raise max i val, by rw [raiseMax, if_pos exists_, Int.toNat_natCast]; rfl,
    length_raise max i val, getD_raise inside val⟩

theorem raiseMax_writes :
    Writes raiseMax (fun max => max.length = hllRegisters) (fun max j => max.getD j 0) Nat.max where
  inside := by
    intro max size i val inside _ _
    obtain ⟨max', raised, length, seen⟩ := @raiseMax_spec max i (by rw [size]; exact inside) val
    exact ⟨max', raised, length.trans size, fun j _ => seen j⟩
  zero := fun old => Nat.max_eq_left (Nat.zero_le old)

end Writers

end LearningNotes.Hll
