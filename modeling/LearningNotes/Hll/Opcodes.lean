import LearningNotes.Hll.Dense

/-! Sparse bodies as sequences of opcodes, which is how every loop reads them. -/

namespace LearningNotes.Hll

open Lib List

/-- An opcode; lengths and values are stored less one. -/
inductive Opcode where
  | zero (less : Fin 64)
  | xzero (less : Fin 16384)
  | val (value : Fin 32) (less : Fin 4)
deriving DecidableEq, Repr

def Opcode.len : Opcode → Nat
  | .zero less => less + 1
  | .xzero less => less + 1
  | .val _ less => less + 1

def Opcode.value : Opcode → Nat
  | .val value _ => value + 1
  | _ => 0

def Opcode.isVal : Opcode → Bool
  | .val _ _ => true
  | _ => false

def Opcode.encode : Opcode → Bytes
  | .zero less => [sparseZeroSet (less + 1)]
  | .xzero less => sparseXzeroSet (less + 1)
  | .val value less => [sparseValSet (value + 1) (less + 1)]

def encodeAll (ops : List Opcode) : Bytes := ops.flatMap Opcode.encode

def totalLen (ops : List Opcode) : Nat := (ops.map Opcode.len).sum

def values (ops : List Opcode) : List Nat :=
  ops.flatMap fun op => List.replicate op.len op.value

/-- The opcode at a byte, with its second byte if it has two. -/
def readOpcode (b next : UInt8) : Opcode :=
  if sparseIsZero b then .zero (Fin.ofNat 64 (b &&& 0x3f).toNat)
  else if sparseIsXzero b then
    .xzero (Fin.ofNat 16384 ((b &&& 0x3f).toNat <<< 8 ||| next.toNat))
  else .val (Fin.ofNat 32 (b >>> 2 &&& 0x1f).toNat) (Fin.ofNat 4 (b &&& 0x3).toNat)

/-- The opcodes of a body; the terminator may be read as a second byte. -/
def opcodes : Bytes → List Opcode
  | [] => []
  | [b] => [readOpcode b 0]
  | b :: next :: rest =>
    if sparseIsXzero b then readOpcode b next :: opcodes rest
    else readOpcode b next :: opcodes (next :: rest)

section Lists

@[simp] theorem totalLen_nil : totalLen [] = 0 := rfl

@[simp] theorem totalLen_cons (op : Opcode) (ops : List Opcode) :
    totalLen (op :: ops) = op.len + totalLen ops := by
  rw [totalLen, map_cons, sum_cons, totalLen]

@[simp] theorem totalLen_append (ops more : List Opcode) :
    totalLen (ops ++ more) = totalLen ops + totalLen more := by
  rw [totalLen, map_append, sum_append, totalLen, totalLen]

@[simp] theorem values_nil : values [] = [] := rfl

@[simp] theorem values_cons (op : Opcode) (ops : List Opcode) :
    values (op :: ops) = List.replicate op.len op.value ++ values ops := by
  rw [values, flatMap_cons, values]

@[simp] theorem values_append (ops more : List Opcode) :
    values (ops ++ more) = values ops ++ values more := by
  rw [values, flatMap_append, values, values]

@[simp] theorem length_values (ops : List Opcode) : (values ops).length = totalLen ops := by
  induction ops with
  | nil => rfl
  | cons op ops ih => rw [values_cons, length_append, length_replicate, ih, totalLen_cons]

@[simp] theorem encodeAll_nil : encodeAll [] = [] := rfl

@[simp] theorem encodeAll_cons (op : Opcode) (ops : List Opcode) :
    encodeAll (op :: ops) = op.encode ++ encodeAll ops := by
  rw [encodeAll, flatMap_cons, encodeAll]

@[simp] theorem encodeAll_append (ops more : List Opcode) :
    encodeAll (ops ++ more) = encodeAll ops ++ encodeAll more := by
  rw [encodeAll, flatMap_append, encodeAll, encodeAll]

theorem Opcode.len_pos (op : Opcode) : 0 < op.len := by
  cases op <;> exact Nat.succ_pos _

end Lists

section Reading

theorem forall_byte {P : UInt8 → Prop} (all : ∀ b : Fin 256, P (UInt8.ofNat b)) (b : UInt8) :
    P b := by
  have holds := all ⟨b.toNat, b.toNat_lt⟩
  rwa [UInt8.ofNat_toNat] at holds

set_option maxRecDepth 4096 in
/-- Every byte starts an opcode of exactly one kind. -/
theorem opcode_kinds (b : UInt8) :
    (sparseIsZero b = true ∧ sparseIsXzero b = false ∧ sparseIsVal b = false) ∨
      (sparseIsZero b = false ∧ sparseIsXzero b = true ∧ sparseIsVal b = false) ∨
      (sparseIsZero b = false ∧ sparseIsXzero b = false ∧ sparseIsVal b = true) := by
  revert b
  apply forall_byte
  decide

theorem xzero_fits (b next : UInt8) : (b &&& 0x3f).toNat <<< 8 ||| next.toNat < 16384 := by
  have high : (b &&& 0x3f).toNat ≤ 63 := by
    exact Nat.and_le_right
  apply @Nat.or_lt_two_pow _ _ 14
  · omega
  · exact Nat.lt_of_lt_of_le next.toNat_lt (by decide)

variable {b : UInt8}

theorem readOpcode_zero (kind : sparseIsZero b = true) (next : UInt8) :
    ∃ less, readOpcode b next = .zero less ∧ sparseZeroLen b = less + 1 := by
  have small : (b &&& 0x3f).toNat < 64 := by
    exact Nat.lt_of_le_of_lt Nat.and_le_right (by decide)
  refine ⟨_, if_pos kind, ?_⟩
  rw [sparseZeroLen, Fin.val_ofNat, Nat.mod_eq_of_lt small]

theorem readOpcode_xzero (kind : sparseIsXzero b = true) (next : UInt8) :
    ∃ less, readOpcode b next = .xzero less ∧ sparseXzeroLen b next = less + 1 := by
  have other : sparseIsZero b = false := by
    rcases opcode_kinds b with ⟨_, none_, _⟩ | ⟨none_, _, _⟩ | ⟨none_, _, _⟩
    · rw [kind] at none_
      cases none_
    · exact none_
    · exact none_
  refine ⟨_, by rw [readOpcode, other, kind]; rfl, ?_⟩
  rw [sparseXzeroLen, Fin.val_ofNat, Nat.mod_eq_of_lt (xzero_fits b next)]

theorem readOpcode_val (notZero : sparseIsZero b = false) (notXzero : sparseIsXzero b = false)
    (next : UInt8) :
    ∃ value less, readOpcode b next = .val value less ∧ sparseValLen b = less + 1 ∧
      sparseValValue b = value + 1 := by
  have smallLen : (b &&& 0x3).toNat < 4 := by
    exact Nat.lt_of_le_of_lt Nat.and_le_right (by decide)
  have smallValue : (b >>> 2 &&& 0x1f).toNat < 32 := by
    exact Nat.lt_of_le_of_lt Nat.and_le_right (by decide)
  refine ⟨_, _, by rw [readOpcode, notZero, notXzero]; rfl, ?_, ?_⟩
  · rw [sparseValLen, Fin.val_ofNat, Nat.mod_eq_of_lt smallLen]
  · rw [sparseValValue, Fin.val_ofNat, Nat.mod_eq_of_lt smallValue]

theorem opcodes_cons (single : sparseIsXzero b = false) (rest : Bytes) :
    opcodes (b :: rest) = readOpcode b 0 :: opcodes rest := by
  cases rest with
  | nil => rfl
  | cons next rest =>
    rw [opcodes, single, if_neg Bool.false_ne_true]
    rw [readOpcode, readOpcode, single]
    rfl

end Reading

section Writing

set_option maxRecDepth 4096 in
theorem sparseZeroSet_reads (less : Fin 64) :
    (sparseIsZero (sparseZeroSet (less + 1)) = true ∧
      sparseIsXzero (sparseZeroSet (less + 1)) = false ∧
      sparseIsVal (sparseZeroSet (less + 1)) = false) ∧
    sparseZeroLen (sparseZeroSet (less + 1)) = less + 1 ∧
    readOpcode (sparseZeroSet (less + 1)) 0 = .zero less := by
  revert less
  decide

set_option maxRecDepth 4096 in
theorem sparseValSet_reads (value : Fin 32) (less : Fin 4) :
    (sparseIsZero (sparseValSet (value + 1) (less + 1)) = false ∧
      sparseIsXzero (sparseValSet (value + 1) (less + 1)) = false ∧
      sparseIsVal (sparseValSet (value + 1) (less + 1)) = true) ∧
    sparseValLen (sparseValSet (value + 1) (less + 1)) = less + 1 ∧
    sparseValValue (sparseValSet (value + 1) (less + 1)) = value + 1 ∧
    readOpcode (sparseValSet (value + 1) (less + 1)) 0 = .val value less := by
  revert value less
  decide

set_option maxRecDepth 4096 in
theorem xzeroHigh_reads (high : Fin 64) :
    (sparseIsZero (UInt8.ofNat (high ||| 0x40)) = false ∧
      sparseIsXzero (UInt8.ofNat (high ||| 0x40)) = true ∧
      sparseIsVal (UInt8.ofNat (high ||| 0x40)) = false) ∧
    (UInt8.ofNat (high ||| 0x40) &&& 0x3f).toNat = high := by
  revert high
  decide

theorem sparseXzeroSet_reads (less : Fin 16384) :
    ∃ b next, sparseXzeroSet (less + 1) = [b, next] ∧
      (sparseIsZero b = false ∧ sparseIsXzero b = true ∧ sparseIsVal b = false) ∧
      sparseXzeroLen b next = less + 1 ∧ readOpcode b next = .xzero less := by
  -- The length is split into its high and its low byte.
  have high : less.val >>> 8 < 64 := by
    omega
  have low : (UInt8.ofNat (less.val &&& 0xff)).toNat = less.val % 256 := by
    rw [UInt8.toNat_ofNat', show (0xff : Nat) = 2 ^ 8 - 1 from rfl, Nat.and_two_pow_sub_one_eq_mod,
      Nat.mod_mod]
  obtain ⟨kinds, back⟩ := xzeroHigh_reads ⟨less.val >>> 8, high⟩
  obtain ⟨found, reads, len⟩ :=
    readOpcode_xzero kinds.2.1 (UInt8.ofNat (less.val &&& 0xff))
  -- Both bytes together give the length back.
  have whole : found.val = less.val := by
    rw [sparseXzeroLen, back, low, ← Nat.shiftLeft_add_eq_or_of_lt (Nat.mod_lt _ (by decide)),
      Nat.shiftLeft_eq] at len
    dsimp only at len
    omega
  obtain rfl : found = less := Fin.ext whole
  exact ⟨_, _, rfl, kinds, len, reads⟩

/-- Reading an opcode that was written gives it back. -/
theorem opcodes_encode (op : Opcode) (rest : Bytes) :
    opcodes (op.encode ++ rest) = op :: opcodes rest := by
  cases op with
  | zero less =>
    obtain ⟨⟨_, single, _⟩, _, reads⟩ := sparseZeroSet_reads less
    rw [Opcode.encode, singleton_append, opcodes_cons single, reads]
  | xzero less =>
    obtain ⟨b, next, shape, ⟨_, kind, _⟩, _, reads⟩ := sparseXzeroSet_reads less
    rw [Opcode.encode, shape, cons_append, singleton_append, opcodes, kind, if_pos rfl, reads]
  | val value less =>
    obtain ⟨⟨_, single, _⟩, _, _, reads⟩ := sparseValSet_reads value less
    rw [Opcode.encode, singleton_append, opcodes_cons single, reads]

/-- Reading back a written list of opcodes gives that list. -/
theorem opcodes_encodeAll (ops : List Opcode) : opcodes (encodeAll ops) = ops := by
  induction ops with
  | nil => rfl
  | cons op ops ih => rw [encodeAll_cons, opcodes_encode, ih]

end Writing

end LearningNotes.Hll
