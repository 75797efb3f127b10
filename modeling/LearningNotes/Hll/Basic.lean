import LearningNotes.Lib.Bytes
import LearningNotes.Lib.Outcome
import LearningNotes.Lib.Word

/-! HyperLogLog objects: the sparse and the dense representation, and the functions on both. -/

namespace LearningNotes.Hll

open Lib

inductive Fault where
  -- A store reaches outside of the registers.
  | badRegister
  -- A server assertion fails.
  | assertFailed
deriving DecidableEq, Repr

def hllRegisters : Nat := 16384

def hllBits : Nat := 6

def hllRegisterMax : Nat := 63

def hllHdrSize : Nat := 16

def hllDenseBytes : Nat := (hllRegisters * hllBits + 7) / 8

def hllDense : UInt8 := 0

def hllSparse : UInt8 := 1

/-- `struct hllhdr`, laid over a string. -/
structure Hllhdr where
  magic : Bytes
  encoding : UInt8
  notused : Bytes
  card : Bytes
  registers : Bytes
deriving DecidableEq, Repr

def Hllhdr.sdslen (hdr : Hllhdr) : Nat := hllHdrSize + hdr.registers.length

section Dense

/-- `HLL_DENSE_GET_REGISTER`; behind the last byte is the terminator. -/
def denseGetRegister (p : Bytes) (regnum : Nat) : Nat :=
  let byte := regnum * hllBits / 8
  let fb := regnum * hllBits % 8
  let fb8 := 8 - fb
  let b0 := (p.getD byte 0).toNat
  let b1 := (p.getD (byte + 1) 0).toNat
  (b0 >>> fb ||| b1 <<< fb8) &&& hllRegisterMax

/-- Bits of a byte are cleared, and bits are set. -/
def maskByte (p : Bytes) (byte clear set : Nat) : Bytes :=
  p.modify byte fun b => b &&& ~~~UInt8.ofNat clear ||| UInt8.ofNat set

/-- The stores of `HLL_DENSE_SET_REGISTER`; nothing changes in the terminator. -/
def setBits (p : Bytes) (byte fb val : Nat) : Bytes :=
  let fb8 := 8 - fb
  let p := maskByte p byte (hllRegisterMax <<< fb) (val <<< fb)
  maskByte p (byte + 1) (hllRegisterMax >>> fb8) (val >>> fb8)

/-- `HLL_DENSE_SET_REGISTER` with the index of a register. -/
def denseSetRegister (p : Bytes) (regnum val : Nat) : Bytes :=
  setBits p (regnum * hllBits / 8) (regnum * hllBits % 8) val

/-- `hllDenseSet`: whether the register was raised, and the registers. -/
def hllDenseSet (registers : Bytes) (index count : Nat) : Bool × Bytes :=
  if count > denseGetRegister registers index then (true, denseSetRegister registers index count)
  else (false, registers)

end Dense

section Sparse

def sparseIsZero (b : UInt8) : Bool := b &&& 0xc0 == 0

def sparseIsXzero (b : UInt8) : Bool := b &&& 0xc0 == 0x40

def sparseIsVal (b : UInt8) : Bool := b &&& 0x80 != 0

def sparseZeroLen (b : UInt8) : Nat := (b &&& 0x3f).toNat + 1

def sparseXzeroLen (b next : UInt8) : Nat := ((b &&& 0x3f).toNat <<< 8 ||| next.toNat) + 1

def sparseValValue (b : UInt8) : Nat := (b >>> 2 &&& 0x1f).toNat + 1

def sparseValLen (b : UInt8) : Nat := (b &&& 0x3).toNat + 1

def sparseValMaxValue : Nat := 32

def sparseValMaxLen : Nat := 4

def sparseZeroMaxLen : Nat := 64

def sparseValSet (val len : Nat) : UInt8 := UInt8.ofNat ((val - 1) <<< 2 ||| (len - 1) ||| 0x80)

def sparseZeroSet (len : Nat) : UInt8 := UInt8.ofNat (len - 1)

def sparseXzeroSet (len : Nat) : Bytes :=
  [UInt8.ofNat ((len - 1) >>> 8 ||| 0x40), UInt8.ofNat (len - 1 &&& 0xff)]

def setRun {σ : Type} (set : σ → Int → Nat → Except Fault σ) (regval : Nat) :
    Nat → Int → σ → Except Fault (Int × σ)
  | 0, idx, registers => .ok (idx, registers)
  | runlen + 1, idx, registers => do
    let registers ← set registers idx regval
    setRun set regval runlen (toInt32 (idx + 1)) registers

/-- The loop over a sparse body of `hllSparseToDense` and `hllMerge`. -/
def decodeSparse {σ : Type} (overflows : Int → Nat → Bool)
    (set : σ → Int → Nat → Except Fault σ) : Bytes → Int → σ → Except Fault (Int × σ)
  | [], idx, registers => .ok (idx, registers)
  | [b], idx, registers =>
    if sparseIsZero b then .ok (toInt32 (idx + sparseZeroLen b), registers)
    -- The second byte is the terminator of the string.
    else if sparseIsXzero b then .ok (toInt32 (idx + sparseXzeroLen b 0), registers)
    else if overflows idx (sparseValLen b) then .ok (idx, registers)
    else setRun set (sparseValValue b) (sparseValLen b) idx registers
  | b :: next :: rest, idx, registers =>
    if sparseIsZero b then
      decodeSparse overflows set (next :: rest) (toInt32 (idx + sparseZeroLen b)) registers
    else if sparseIsXzero b then
      decodeSparse overflows set rest (toInt32 (idx + sparseXzeroLen b next)) registers
    else if overflows idx (sparseValLen b) then .ok (idx, registers)
    else do
      let (idx, registers) ← setRun set (sparseValValue b) (sparseValLen b) idx registers
      decodeSparse overflows set (next :: rest) idx registers

/-- `HLL_DENSE_SET_REGISTER` with any `int`: the product wraps around, and the division cuts towards
zero. -/
def setDense (registers : Bytes) (idx : Int) (regval : Nat) : Except Fault Bytes :=
  let bit := toInt32 (idx * hllBits)
  if -8 < bit ∧ bit + hllBits ≤ 8 * registers.length then
    .ok (setBits registers (bit.tdiv 8).toNat (bit % 8).toNat regval)
  else .error .badRegister

/-- The test of `hllSparseToDense` for too long a run; the sum is an `int`. -/
def intOverflows (idx : Int) (runlen : Nat) : Bool :=
  decide (toInt32 (runlen + idx) > hllRegisters)

/-- The test of `hllMerge` for too long a run; the sum is a `long`. -/
def longOverflows (i : Int) (runlen : Nat) : Bool := decide ((runlen : Int) + i > hllRegisters)

/-- `hllSparseToDense`, where `none` is `C_ERR`. -/
def hllSparseToDense (o : Hllhdr) : Except Fault (Option Hllhdr) :=
  if o.encoding = hllDense then .ok (some o)
  else do
    let (idx, registers) ←
      decodeSparse intOverflows setDense o.registers 0 (List.replicate hllDenseBytes 0)
    if idx ≠ hllRegisters then return none
    else return some { o with encoding := hllDense, registers := registers }

def raiseMax (max : List Nat) (i : Int) (val : Nat) : Except Fault (List Nat) :=
  if 0 ≤ i ∧ i < max.length then
    .ok (if val > max.getD i.toNat 0 then max.set i.toNat val else max)
  else .error .badRegister

def mergeDense (registers : Bytes) : Nat → Nat → List Nat → Except Fault (List Nat)
  | 0, _, max => .ok max
  | left + 1, i, max => do
    let max ← raiseMax max i (denseGetRegister registers i)
    mergeDense registers left (i + 1) max

/-- `hllMerge`, where `none` is `C_ERR`. -/
def hllMerge (max : List Nat) (hll : Hllhdr) : Except Fault (Option (List Nat)) :=
  if hll.encoding = hllDense then do
    let max ← mergeDense hll.registers hllRegisters 0 max
    return some max
  else do
    let (i, max) ← decodeSparse longOverflows raiseMax hll.registers 0 max
    if i ≠ hllRegisters then return none else return some max

structure Place where
  prev : Option Nat
  p : Nat
  first : Nat
  span : Nat
deriving DecidableEq, Repr

def locate (index : Nat) : Bytes → Place → Place
  | [], place => place
  | [b], ⟨prev, p, first, _⟩ =>
    let span :=
      if sparseIsZero b then sparseZeroLen b
      else if sparseIsVal b then sparseValLen b
      else sparseXzeroLen b 0
    if index < first + span then ⟨prev, p, first, span⟩
    else ⟨some p, if sparseIsZero b || sparseIsVal b then p + 1 else p + 2, first + span, span⟩
  | b :: next :: rest, ⟨prev, p, first, _⟩ =>
    if sparseIsZero b || sparseIsVal b then
      let span := if sparseIsZero b then sparseZeroLen b else sparseValLen b
      if index < first + span then ⟨prev, p, first, span⟩
      else locate index (next :: rest) ⟨some p, p + 1, first + span, span⟩
    else
      let span := sparseXzeroLen b next
      if index < first + span then ⟨prev, p, first, span⟩
      else locate index rest ⟨some p, p + 2, first + span, span⟩

/-- A run of zeros, in the shorter opcode that can hold it. -/
def zerosSet (len : Nat) : Bytes :=
  if len = 0 then []
  else if len > sparseZeroMaxLen then sparseXzeroSet len
  else [sparseZeroSet len]

def valsSet (val len : Nat) : Bytes := if len = 0 then [] else [sparseValSet val len]

def splitOpcode (b : UInt8) (place : Place) (index count : Nat) : Bytes :=
  let last := place.first + place.span - 1
  if sparseIsZero b || sparseIsXzero b then
    zerosSet (index - place.first) ++ sparseValSet count 1 :: zerosSet (last - index)
  else
    let curval := sparseValValue b
    valsSet curval (index - place.first) ++ sparseValSet count 1 :: valsSet curval (last - index)

/-- The loop of step 4 from a position on, over so many opcodes. -/
def mergeVals : Nat → Bytes → Bytes
  | 0, rest => rest
  | _ + 1, [] => []
  | _ + 1, [b] => [b]
  | scanlen + 1, b :: next :: rest =>
    if sparseIsXzero b then b :: next :: mergeVals scanlen rest
    else if sparseIsZero b then b :: mergeVals scanlen (next :: rest)
    else if sparseIsVal next && sparseValValue b == sparseValValue next &&
        decide (sparseValLen b + sparseValLen next ≤ sparseValMaxLen) then
      mergeVals scanlen
        (sparseValSet (sparseValValue b) (sparseValLen b + sparseValLen next) :: rest)
    else b :: mergeVals scanlen (next :: rest)

def invalidateCache (hdr : Hllhdr) : Hllhdr :=
  { hdr with card := hdr.card.modify 7 (· ||| 0x80) }

def finishUpdate (o : Hllhdr) (body : Bytes) (prev : Option Nat) : Hllhdr :=
  let p := prev.getD 0
  invalidateCache { o with registers := body.take p ++ mergeVals 5 (body.drop p) }

/-- The part of `hllSparseSet` that promotes to the dense representation. -/
def promote (o : Hllhdr) (index count : Nat) : Except Fault (Int × Hllhdr) := do
  match ← hllSparseToDense o with
  | none => return (-1, o)
  | some o =>
    let (raised, registers) := hllDenseSet o.registers index count
    if raised then return (1, { o with registers := registers })
    else .error .assertFailed

def hllSparseSet (hllSparseMaxBytes : Nat) (o : Hllhdr) (index count : Nat) :
    Except Fault (Int × Hllhdr) :=
  if count > sparseValMaxValue then promote o index count
  else
    let body := o.registers
    let place := locate index body ⟨none, 0, 0, 0⟩
    match body.drop place.p with
    -- The format is not valid.
    | [] => .ok (-1, o)
    | b :: _ =>
      let isVal := !sparseIsZero b && !sparseIsXzero b
      if isVal && decide (sparseValValue b ≥ count) then .ok (0, o)
      else if (isVal && place.span == 1) || (sparseIsZero b && place.span == 1) then
        .ok (1, finishUpdate o (body.set place.p (sparseValSet count 1)) place.prev)
      else
        let seq := splitOpcode b place index count
        let oldlen := if sparseIsXzero b then 2 else 1
        if seq.length > oldlen ∧ o.sdslen + (seq.length - oldlen) > hllSparseMaxBytes then
          promote o index count
        else
          let moved := body.take place.p ++ (seq ++ body.drop (place.p + oldlen))
          -- `sdsIncrLen` goes by the length an opcode should have, also if its end is missing.
          .ok (1, finishUpdate o (moved.take (body.length + seq.length - oldlen)) place.prev)

/-- `hllAdd`, after the element was hashed. -/
def hllSet (hllSparseMaxBytes : Nat) (o : Hllhdr) (index count : Nat) :
    Except Fault (Int × Hllhdr) :=
  if o.encoding = hllDense then
    let (raised, registers) := hllDenseSet o.registers index count
    .ok (if raised then 1 else 0, { o with registers := registers })
  else if o.encoding = hllSparse then hllSparseSet hllSparseMaxBytes o index count
  else .ok (-1, o)

/-- `createHLLObject`: one opcode covers all registers. -/
def createHLLObject : Hllhdr :=
  ⟨[72, 89, 76, 76], hllSparse, [0, 0, 0], [0, 0, 0, 0, 0, 0, 0, 0], sparseXzeroSet hllRegisters⟩

end Sparse

end LearningNotes.Hll
