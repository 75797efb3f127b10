import LearningNotes.Lib.Memory
import LearningNotes.Util.Integer

/-! The listpack of `listpack.c`: one block of memory, with pointers as offsets into it. -/

namespace LearningNotes.Listpack

open Lib Lib.Memory Util UInt8

def headerSize : Nat := 6

def numeleUnknown : Nat := 65535

def lpEof : UInt8 := 0xFF

def uint32Max : Nat := 2 ^ 32 - 1

def uint64Max : Nat := 2 ^ 64 - 1

/-- Six widths of integers and three kinds of strings. -/
inductive Encoding where
  | uint7
  | str6
  | int13
  | int16
  | int24
  | int32
  | int64
  | str12
  | str32
deriving DecidableEq, Repr

/-- The macros `LP_ENCODING_IS_...`, in the order of their use. -/
def encodingOf (byte : UInt8) : Option Encoding :=
  if byte &&& 0x80 = 0 then some .uint7
  else if byte &&& 0xC0 = 0x80 then some .str6
  else if byte &&& 0xE0 = 0xC0 then some .int13
  else if byte &&& 0xFF = 0xF1 then some .int16
  else if byte &&& 0xFF = 0xF2 then some .int24
  else if byte &&& 0xFF = 0xF3 then some .int32
  else if byte &&& 0xFF = 0xF4 then some .int64
  else if byte &&& 0xF0 = 0xE0 then some .str12
  else if byte &&& 0xFF = 0xF0 then some .str32
  else none

def lpGetTotalBytes (lp : Bytes) : Except Fault Nat := do return ofLittleEndian (← load lp 0 4)

def lpGetNumElements (lp : Bytes) : Except Fault Nat := do return ofLittleEndian (← load lp 4 2)

def lpSetTotalBytes (lp : Bytes) (v : Nat) : Except Fault Bytes := store lp 0 (littleEndian 4 v)

def lpSetNumElements (lp : Bytes) (v : Nat) : Except Fault Bytes := store lp 4 (littleEndian 2 v)

def lpBytes (lp : Bytes) : Except Fault Nat := lpGetTotalBytes lp

def assertIntegrity (lp : Bytes) (p : Nat) : Except Fault Unit := do
  let bytes ← lpGetTotalBytes lp
  assert (headerSize ≤ p && p < bytes)

def assertIntegrityLen (lp : Bytes) (p len : Nat) : Except Fault Unit := do
  let bytes ← lpGetTotalBytes lp
  assert (headerSize ≤ p && p + len < bytes)

/-- A negative number goes into the upper half of its width. -/
def unsigned (width : Nat) (v : Int) : Nat :=
  if v < 0 then ((2 : Int) ^ width + v).toNat else v.toNat

/-- What `lpEncodeGetType` stores in `intenc`. -/
def intenc (v : Int) : Bytes :=
  if 0 ≤ v ∧ v ≤ 127 then [ofNat v.toNat]
  else if -4096 ≤ v ∧ v ≤ 4095 then
    [ofNat (unsigned 13 v / 256) ||| 0xC0, ofNat (unsigned 13 v)]
  else if -32768 ≤ v ∧ v ≤ 32767 then 0xF1 :: littleEndian 2 (unsigned 16 v)
  else if -8388608 ≤ v ∧ v ≤ 8388607 then 0xF2 :: littleEndian 3 (unsigned 24 v)
  else if -2147483648 ≤ v ∧ v ≤ 2147483647 then 0xF3 :: littleEndian 4 (unsigned 32 v)
  else 0xF4 :: littleEndian 8 (unsigned 64 v)

/-- The integer encoding if there is one, and the length. -/
def lpEncodeGetType (ele : Bytes) : Option Bytes × Nat :=
  match lpStringToInt64 ele with
  | some v => (some (intenc v), (intenc v).length)
  | none =>
    if ele.length < 64 then (none, 1 + ele.length)
    else if ele.length < 4096 then (none, 2 + ele.length)
    else (none, 5 + ele.length)

/-- What `lpEncodeBacklen` writes; without a buffer it returns the length. -/
def lpEncodeBacklen (l : Nat) : Bytes :=
  if l ≤ 127 then [ofNat l]
  else if l < 16383 then [ofNat (l / 2 ^ 7), ofNat (l % 128 + 128)]
  else if l < 2097151 then
    [ofNat (l / 2 ^ 14), ofNat (l / 2 ^ 7 % 128 + 128), ofNat (l % 128 + 128)]
  else if l < 268435455 then
    [ofNat (l / 2 ^ 21), ofNat (l / 2 ^ 14 % 128 + 128),
      ofNat (l / 2 ^ 7 % 128 + 128), ofNat (l % 128 + 128)]
  else
    [ofNat (l / 2 ^ 28), ofNat (l / 2 ^ 21 % 128 + 128),
      ofNat (l / 2 ^ 14 % 128 + 128), ofNat (l / 2 ^ 7 % 128 + 128),
      ofNat (l % 128 + 128)]

/-- The loop of `lpDecodeBacklen`, with the bytes it may still read. -/
def decodeBacklen (lp : Bytes) : Nat → Nat → Nat → Nat → Except Fault Nat
  | 0, _, _, _ => .ok uint64Max
  | left + 1, p, shift, val => do
    let byte ← peek lp p
    let val := val + byte.toNat % 128 * 2 ^ shift
    if byte.toNat < 128 then return val
    else
      match p, left with
      | _, 0 => return uint64Max
      -- The byte in front of the block would be read next.
      | 0, _ + 1 => .error .outOfBounds
      | p + 1, left => decodeBacklen lp left p (shift + 7) val

/-- At most five bytes are read, from the last one to the first. -/
def lpDecodeBacklen (lp : Bytes) (p : Nat) : Except Fault Nat := decodeBacklen lp 5 p 0 0

def lpEncodeString (s : Bytes) : Bytes :=
  if s.length < 64 then (ofNat s.length ||| 0x80) :: s
  else if s.length < 4096 then
    (ofNat (s.length / 256) ||| 0xE0) :: ofNat s.length :: s
  else 0xF0 :: (littleEndian 4 s.length ++ s)

def str12Len (lp : Bytes) (p : Nat) : Except Fault Nat := do
  let high ← peek lp p
  let low ← peek lp (p + 1)
  return high.toNat % 16 * 256 + low.toNat

def str32Len (lp : Bytes) (p : Nat) : Except Fault Nat := do
  return ofLittleEndian (← load lp (p + 1) 4)

def lpCurrentEncodedSizeUnsafe (lp : Bytes) (p : Nat) : Except Fault Nat := do
  let byte ← peek lp p
  match encodingOf byte with
  | some .uint7 => return 1
  | some .str6 => return 1 + byte.toNat % 64
  | some .int13 => return 2
  | some .int16 => return 3
  | some .int24 => return 4
  | some .int32 => return 5
  | some .int64 => return 9
  | some .str12 => return 2 + (← str12Len lp p)
  | some .str32 => return (5 + (← str32Len lp p)) % 2 ^ 32
  | none => return if byte = lpEof then 1 else 0

def lpCurrentEncodedSizeBytes (lp : Bytes) (p : Nat) : Except Fault Nat := do
  let byte ← peek lp p
  match encodingOf byte with
  | some .str12 => return 2
  | some .str32 => return 5
  | some _ => return 1
  | none => return if byte = lpEof then 1 else 0

def outOfRange (lpbytes p : Nat) : Bool := decide (p < headerSize) || decide (lpbytes - 1 < p)

/-- Nothing if invalid, else the pointer moved on, which is `NULL` at the end. -/
def lpValidateNext (lp : Bytes) (pp : Option Nat) (lpbytes : Nat) :
    Except Fault (Option (Option Nat)) := do
  match pp with
  | none => return none
  | some p =>
    if outOfRange lpbytes p then return none
    else if (← peek lp p) = lpEof then return some none
    else
      let lenbytes ← lpCurrentEncodedSizeBytes lp p
      if lenbytes = 0 then return none
      else if outOfRange lpbytes (p + lenbytes) then return none
      else
        let entrylen ← lpCurrentEncodedSizeUnsafe lp p
        let encodedBacklen := (lpEncodeBacklen entrylen).length
        let entrylen := entrylen + encodedBacklen
        if outOfRange lpbytes (p + entrylen) then return none
        else
          let prevlen ← lpDecodeBacklen lp (p + entrylen - 1)
          if (prevlen + encodedBacklen) % 2 ^ 64 ≠ entrylen then return none
          else return some (some (p + entrylen))

def lpAssertValidEntry (lp : Bytes) (lpbytes p : Nat) : Except Fault Unit := do
  assert (← lpValidateNext lp (some p) lpbytes).isSome

def lpSkip (lp : Bytes) (p : Nat) : Except Fault Nat := do
  let entrylen ← lpCurrentEncodedSizeUnsafe lp p
  return p + (entrylen + (lpEncodeBacklen entrylen).length)

def lpNext (lp : Bytes) (p : Nat) : Except Fault (Option Nat) := do
  let p ← lpSkip lp p
  if (← peek lp p) = lpEof then return none
  else
    lpAssertValidEntry lp (← lpBytes lp) p
    return some p

def lpPrev (lp : Bytes) (p : Nat) : Except Fault (Option Nat) := do
  if p = headerSize then return none
  else
    let p := p - 1
    let prevlen ← lpDecodeBacklen lp p
    let prevlen := (prevlen + (lpEncodeBacklen prevlen).length) % 2 ^ 64
    -- A pointer to the front of the block is out of range, as the assertion behind it finds out.
    if p < prevlen - 1 then .error .assertFailed
    else
      let p := p - (prevlen - 1)
      lpAssertValidEntry lp (← lpBytes lp) p
      return some p

def lpFirst (lp : Bytes) : Except Fault (Option Nat) := do
  if (← peek lp headerSize) = lpEof then return none
  else
    lpAssertValidEntry lp (← lpBytes lp) headerSize
    return some headerSize

def lpLast (lp : Bytes) : Except Fault (Option Nat) := do
  lpPrev lp ((← lpGetTotalBytes lp) - 1)

def countFrom (lp : Bytes) : Nat → Option Nat → Nat → Except Fault Nat
  | _, none, count => .ok count
  | 0, some _, _ => .error .noProgress
  | fuel + 1, some p, count => do countFrom lp fuel (← lpNext lp p) (count + 1)

/-- The number of elements, and the block with an updated header. -/
def lpLength (lp : Bytes) : Except Fault (Nat × Bytes) := do
  let numele ← lpGetNumElements lp
  if numele ≠ numeleUnknown then return (numele, lp)
  else
    -- Every round passes an element, so that there are fewer rounds than bytes.
    let count ← countFrom lp lp.length (← lpFirst lp) 0
    if count < numeleUnknown then return (count, ← lpSetNumElements lp count)
    else return (count, lp)

/-- What `lpGet` finds: a string inside the listpack, or an integer. -/
inductive Element where
  | str (s : Bytes)
  | int (value : Int)
deriving DecidableEq, Repr

/-- The conversion to a signed integer in `lpGet`. -/
def signed (uval negstart negmax : Nat) : Int :=
  if negstart ≤ uval then -((negmax - uval : Nat) : Int) - 1 else uval

/-- The part of `lpGet` without `intbuf`. -/
def getElement (lp : Bytes) (p : Nat) : Except Fault Element := do
  let byte ← peek lp p
  match encodingOf byte with
  | some .uint7 => return .int (signed (byte.toNat % 128) uint64Max 0)
  | some .str6 => return .str (← load lp (p + 1) (byte.toNat % 64))
  | some .int13 =>
    let low ← peek lp (p + 1)
    return .int (signed (byte.toNat % 32 * 256 + low.toNat) (2 ^ 12) 8191)
  | some .int16 => return .int (signed (ofLittleEndian (← load lp (p + 1) 2)) (2 ^ 15) 65535)
  | some .int24 =>
    return .int (signed (ofLittleEndian (← load lp (p + 1) 3)) (2 ^ 23) (uint32Max / 2 ^ 8))
  | some .int32 => return .int (signed (ofLittleEndian (← load lp (p + 1) 4)) (2 ^ 31) uint32Max)
  | some .int64 => return .int (signed (ofLittleEndian (← load lp (p + 1) 8)) (2 ^ 63) uint64Max)
  | some .str12 => return .str (← load lp (p + 2) (← str12Len lp p))
  | some .str32 => return .str (← load lp (p + 5) (← str32Len lp p))
  | none => return .int (signed (12345678900000000 + byte.toNat) uint64Max 0)

/-- The bytes of an element; integers are printed. -/
def Element.bytes : Element → Bytes
  | .str s => s
  | .int value => decimal value

def lpGet (lp : Bytes) (p : Nat) : Except Fault Bytes := do return (← getElement lp p).bytes

inductive Where where
  | before
  | after
  | replace
deriving DecidableEq, Repr

/-- The block, whether `NULL` was returned, and `*newp`. -/
structure Inserted where
  lp : Bytes
  isNull : Bool
  newp : Option Nat
deriving DecidableEq, Repr

/-- What is stored for an element, in front of the backlen. -/
def encodedElement (ele : Bytes) : Bytes :=
  match (lpEncodeGetType ele).1 with
  | some intenc => intenc
  | none => lpEncodeString ele

/-- `LP_AFTER` becomes `LP_BEFORE` of the next element, or the end. -/
def insertionPoint (lp : Bytes) (p : Nat) : Where → Except Fault (Nat × Bool)
  | .before => .ok (p, false)
  | .replace => .ok (p, true)
  | .after => do
    let p ← lpSkip lp p
    assertIntegrity lp p
    return (p, false)

def replacedLen (lp : Bytes) (p : Nat) (replace : Bool) : Except Fault Nat := do
  if replace then
    let replaced ← lpCurrentEncodedSizeUnsafe lp p
    let replaced := (replaced + (lpEncodeBacklen replaced).length) % 2 ^ 32
    assertIntegrityLen lp p replaced
    return replaced
  else return 0

def enclenOf : Option Bytes → Nat
  | some ele => (lpEncodeGetType ele).2
  | none => 0

def backlenOf : Option Bytes → Bytes
  | some ele => lpEncodeBacklen (lpEncodeGetType ele).2
  | none => []

/-- `*newp`: the new element, or the one behind a deleted one. -/
def newpOf (lp : Bytes) (p : Nat) : Option Bytes → Except Fault (Option Nat)
  | some _ => .ok (some p)
  | none => do return if (← peek lp p) = lpEof then none else some p

def storeEntry (lp : Bytes) (p : Nat) : Option Bytes → Except Fault Bytes
  | some ele => do
    let lp ← store lp p (encodedElement ele)
    store lp (p + (lpEncodeGetType ele).2) (lpEncodeBacklen (lpEncodeGetType ele).2)
  | none => .ok lp

def updateNumElements (lp : Bytes) (replace : Bool) (ele : Option Bytes) : Except Fault Bytes := do
  if ¬ replace ∨ ele = none then
    let numElements ← lpGetNumElements lp
    if numElements ≠ numeleUnknown then
      match ele with
      | some _ => lpSetNumElements lp (numElements + 1)
      | none => lpSetNumElements lp (numElements - 1)
    else return lp
  else return lp

section Allocation

-- What freshly allocated memory happens to contain, and by how much an allocation of a size is
-- larger than asked for.
variable (unknown : Nat → UInt8) (slack : Nat → Nat)

def lpRealloc (lp : Bytes) (size : Nat) : Bytes := resizeTo unknown lp (size + slack size)

def lpNew (capacity : Nat) : Except Fault Bytes := do
  let lp := lpRealloc unknown slack [] (max capacity (headerSize + 1))
  let lp ← lpSetTotalBytes lp (headerSize + 1)
  let lp ← lpSetNumElements lp 0
  store lp headerSize [lpEof]

/-- How `lpInsert` makes or closes room. -/
def moveTail (lp : Bytes) (p size replaced old new : Nat) : Except Fault Bytes := do
  let lp := if old < new ∧ lp.length < new then lpRealloc unknown slack lp new else lp
  -- Both calls of `memmove` are this one, since nothing is replaced by `LP_BEFORE`.
  let lp ← memmove lp (p + size) (p + replaced) (old - p - replaced)
  return if new < old then lpRealloc unknown slack lp new else lp

/-- `lpInsert`, where no element stands for `NULL`. -/
def lpInsert (lp : Bytes) (ele : Option Bytes) (p : Nat) (where_ : Where) :
    Except Fault Inserted := do
  let where_ := if ele = none then .replace else where_
  let (p, replace) ← insertionPoint lp p where_
  let enclen := enclenOf ele
  let backlen := backlenOf ele
  let old ← lpGetTotalBytes lp
  let replaced ← replacedLen lp p replace
  let new := old + enclen + backlen.length - replaced
  if uint32Max < new then return ⟨lp, true, none⟩
  else
    let lp ← moveTail unknown slack lp p (enclen + backlen.length) replaced old new
    let newp ← newpOf lp p ele
    let lp ← storeEntry lp p ele
    let lp ← updateNumElements lp replace ele
    let lp ← lpSetTotalBytes lp new
    return ⟨lp, false, newp⟩

def lpAppend (lp : Bytes) (ele : Bytes) : Except Fault Inserted := do
  let bytes ← lpGetTotalBytes lp
  lpInsert unknown slack lp (some ele) (bytes - 1) .before

def lpDelete (lp : Bytes) (p : Nat) : Except Fault Inserted :=
  lpInsert unknown slack lp none p .replace

end Allocation

def seekForward (lp : Bytes) : Nat → Option Nat → Except Fault (Option Nat)
  | 0, ele => .ok ele
  | _ + 1, none => .ok none
  | index + 1, some p => do seekForward lp index (← lpNext lp p)

def seekBackward (lp : Bytes) : Nat → Option Nat → Except Fault (Option Nat)
  | 0, ele => .ok ele
  | _ + 1, none => .ok none
  | index + 1, some p => do seekBackward lp index (← lpPrev lp p)

/-- The scan of `lpSeek`, backward if the index is negative. -/
def seekTo (lp : Bytes) (index : Int) : Except Fault (Option Nat) := do
  if index < 0 then seekBackward lp (-index - 1).toNat (← lpLast lp)
  else seekForward lp index.toNat (← lpFirst lp)

def lpSeek (lp : Bytes) (index : Int) : Except Fault (Option Nat) := do
  let numele ← lpGetNumElements lp
  if numele ≠ numeleUnknown then
    let index := if index < 0 then numele + index else index
    if index < 0 then return none
    else if numele ≤ index then return none
    -- The scan starts at the closer end.
    else if ((numele / 2 : Nat) : Int) < index then seekTo lp (index - numele)
    else seekTo lp index
  else seekTo lp index

/-- The end that was reached, and the number of elements. -/
def validateEntries (lp : Bytes) (bytes : Nat) :
    Nat → Option Nat → Nat → Except Fault (Option (Option Nat × Nat))
  | 0, _, _ => .error .noProgress
  | _ + 1, none, count => .ok (some (none, count))
  | fuel + 1, some p, count => do
    if (← peek lp p) = lpEof then return some (some p, count)
    else
      match ← lpValidateNext lp (some p) bytes with
      | none => return none
      | some next => validateEntries lp bytes fuel next (count + 1)

def lpValidateIntegrity (lp : Bytes) (deep : Bool) : Except Fault Bool := do
  let size := lp.length
  if size < headerSize + 1 then return false
  else
    let bytes ← lpGetTotalBytes lp
    if bytes ≠ size then return false
    else if (← peek lp (size - 1)) ≠ lpEof then return false
    else if ¬ deep then return true
    else
      match ← validateEntries lp bytes (size + 1) (some headerSize) 0 with
      | none => return false
      | some (p, count) =>
        if p ≠ some (size - 1) then return false
        else
          let numele ← lpGetNumElements lp
          return !(numele != numeleUnknown && numele != count)

end LearningNotes.Listpack
