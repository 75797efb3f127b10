import LearningNotes.Util.Integer
import LearningNotes.Lib.Outcome

/-! The ziplist of `ziplist.c`: one flat buffer, with pointers as offsets into it. -/

namespace LearningNotes.Ziplist

open Lib Util

inductive Fault where
  /-- An `assert` failed, the one of `ziplistResize` excepted. -/
  | assertFailed
  | outOfBounds
  /-- The ziplist would not stay below `UINT32_MAX` bytes. -/
  | tooLarge
  /-- A loop went beyond the bound set for it here. -/
  | noProgress
deriving DecidableEq, Repr

def zipEnd : UInt8 := 255

def zipBigPrevlen : Nat := 254

def headerSize : Nat := 10

def endSize : Nat := 1

def uint16Max : Nat := 65535

def uint32Max : Nat := 2 ^ 32 - 1

/-- Three kinds of strings and five widths of integers. -/
def zipStrMask : UInt8 := 0xc0
def zipStr06b : UInt8 := 0x00
def zipStr14b : UInt8 := 0x40
def zipStr32b : UInt8 := 0x80
def zipInt16b : UInt8 := 0xc0
def zipInt32b : UInt8 := 0xd0
def zipInt64b : UInt8 := 0xe0
def zipInt24b : UInt8 := 0xf0
def zipInt8b : UInt8 := 0xfe
def zipIntImmMin : UInt8 := 0xf1
def zipIntImmMax : UInt8 := 0xfd

def inBounds {α : Type} : Option α → Except Fault α
  | none => .error .outOfBounds
  | some result => .ok result

def assert (condition : Bool) : Except Fault Unit :=
  if condition then .ok () else .error .assertFailed

def peek (zl : Bytes) (p : Nat) : Except Fault UInt8 := inBounds zl[p]?
def load (zl : Bytes) (p size : Nat) : Except Fault Bytes := inBounds (readAt zl p size)
def store (zl : Bytes) (p : Nat) (data : Bytes) : Except Fault Bytes := inBounds (writeAt zl p data)
def memmove (zl : Bytes) (target source size : Nat) : Except Fault Bytes :=
  inBounds (moveWithin zl target source size)

/-- An unsigned number moved by a difference. -/
def shift (number : Nat) (difference : Int) : Nat := ((number : Int) + difference).toNat

def ziplistBytes (zl : Bytes) : Except Fault Nat := do return ofLittleEndian (← load zl 0 4)

def ziplistTailOffset (zl : Bytes) : Except Fault Nat := do return ofLittleEndian (← load zl 4 4)

def ziplistLength (zl : Bytes) : Except Fault Nat := do return ofLittleEndian (← load zl 8 2)

def setZiplistBytes (zl : Bytes) (bytes : Nat) : Except Fault Bytes :=
  store zl 0 (littleEndian 4 bytes)

def setZiplistTailOffset (zl : Bytes) (offset : Nat) : Except Fault Bytes :=
  store zl 4 (littleEndian 4 offset)

/-- A length that has reached its maximum stays there. -/
def ziplistIncrLength (zl : Bytes) (incr : Int) : Except Fault Bytes := do
  let length ← ziplistLength zl
  if length < uint16Max then store zl 8 (littleEndian 2 (shift length incr)) else return zl

def zipIsStr (encoding : UInt8) : Bool := decide (encoding &&& zipStrMask < zipStrMask)

/-- Whether a small integer is kept in the encoding byte. -/
def zipIsImm (encoding : UInt8) : Bool :=
  decide (zipIntImmMin ≤ encoding) && decide (encoding ≤ zipIntImmMax)

/-- What `zipEntry` finds out about an entry. -/
structure Zlentry where
  prevrawlensize : Nat
  prevrawlen : Nat
  lensize : Nat
  len : Nat
  headersize : Nat
  encoding : UInt8
  p : Nat
deriving DecidableEq, Repr

def decodePrevlensize (zl : Bytes) (p : Nat) : Except Fault Nat := do
  let byte ← peek zl p
  return if byte.toNat < zipBigPrevlen then 1 else 5

/-- The size of the field and its value. -/
def decodePrevlen (zl : Bytes) (p : Nat) : Except Fault (Nat × Nat) := do
  let prevlensize ← decodePrevlensize zl p
  if prevlensize = 1 then
    let byte ← peek zl p
    return (prevlensize, byte.toNat)
  else
    let bytes ← load zl (p + 1) 4
    return (prevlensize, ofLittleEndian bytes)

def entryEncoding (zl : Bytes) (p : Nat) : Except Fault UInt8 := do
  let encoding ← peek zl p
  return if encoding < zipStrMask then encoding &&& zipStrMask else encoding

/-- The sizes of the integer encodings. -/
def intEncodingSize (encoding : UInt8) : Option Nat :=
  if encoding = zipInt8b then some 1
  else if encoding = zipInt16b then some 2
  else if encoding = zipInt24b then some 3
  else if encoding = zipInt32b then some 4
  else if encoding = zipInt64b then some 8
  else if zipIsImm encoding then some 0
  else none

/-- No value stands for `ZIP_ENCODING_SIZE_INVALID`. -/
def zipEncodingLenSize (encoding : UInt8) : Option Nat :=
  if (intEncodingSize encoding).isSome then some 1
  else if encoding = zipStr06b then some 1
  else if encoding = zipStr14b then some 2
  else if encoding = zipStr32b then some 5
  else none

/-- The size of the length field and its value, both zero if invalid. -/
def decodeLength (zl : Bytes) (p : Nat) (encoding : UInt8) : Except Fault (Nat × Nat) := do
  if encoding < zipStrMask then
    if encoding = zipStr06b then
      let byte ← peek zl p
      return (1, byte.toNat % 64)
    else if encoding = zipStr14b then
      let high ← peek zl p
      let low ← peek zl (p + 1)
      return (2, high.toNat % 64 * 256 + low.toNat)
    else if encoding = zipStr32b then
      let bytes ← load zl (p + 1) 4
      return (5, ofLittleEndian bytes.reverse)
    else return (0, 0)
  else
    match intEncodingSize encoding with
    | some len => return (1, len)
    | none => return (0, 0)

def zipEntry (zl : Bytes) (p : Nat) : Except Fault Zlentry := do
  let (prevrawlensize, prevrawlen) ← decodePrevlen zl p
  let encoding ← entryEncoding zl (p + prevrawlensize)
  let (lensize, len) ← decodeLength zl (p + prevrawlensize) encoding
  assert (lensize ≠ 0)
  return ⟨prevrawlensize, prevrawlen, lensize, len, prevrawlensize + lensize, encoding, p⟩

/-- `OUT_OF_RANGE` of a pointer some bytes before another. -/
def outOfRange (zlbytes p back : Nat) : Bool :=
  decide (p < headerSize + back) || decide (zlbytes - endSize + back < p)

/-- The path of `zipEntrySafe` that checks before each read that the ziplist goes on. -/
def slowEntry (zl : Bytes) (zlbytes p : Nat) (validatePrevlen : Bool) :
    Except Fault (Option Zlentry) := do
  if outOfRange zlbytes p 0 then return none
  else
    let prevrawlensize ← decodePrevlensize zl p
    if outOfRange zlbytes (p + prevrawlensize) 0 then return none
    else
      let encoding ← entryEncoding zl (p + prevrawlensize)
      match zipEncodingLenSize encoding with
      | none => return none
      | some lensize =>
        if outOfRange zlbytes (p + prevrawlensize + lensize) 0 then return none
        else
          let (prevrawlensize, prevrawlen) ← decodePrevlen zl p
          let (lensize, len) ← decodeLength zl (p + prevrawlensize) encoding
          let headersize := prevrawlensize + lensize
          if outOfRange zlbytes (p + headersize + len) 0 then return none
          else if validatePrevlen && outOfRange zlbytes p prevrawlen then return none
          else return some ⟨prevrawlensize, prevrawlen, lensize, len, headersize, encoding, p⟩

/-- No result where the source returns 0. -/
def zipEntrySafe (zl : Bytes) (zlbytes p : Nat) (validatePrevlen : Bool) :
    Except Fault (Option Zlentry) := do
  if headerSize ≤ p ∧ p + 10 < zlbytes - endSize then
    let (prevrawlensize, prevrawlen) ← decodePrevlen zl p
    let encoding ← entryEncoding zl (p + prevrawlensize)
    let (lensize, len) ← decodeLength zl (p + prevrawlensize) encoding
    let headersize := prevrawlensize + lensize
    if lensize = 0 then return none
    else if outOfRange zlbytes (p + headersize + len) 0 then return none
    else if validatePrevlen && outOfRange zlbytes p prevrawlen then return none
    else return some ⟨prevrawlensize, prevrawlen, lensize, len, headersize, encoding, p⟩
  else slowEntry zl zlbytes p validatePrevlen

def assertEntry (zl : Bytes) (zlbytes p : Nat) (validatePrevlen : Bool) :
    Except Fault Zlentry := do
  match ← zipEntrySafe zl zlbytes p validatePrevlen with
  | none => .error .assertFailed
  | some entry => return entry

def zipRawEntryLengthSafe (zl : Bytes) (zlbytes p : Nat) : Except Fault Nat := do
  let entry ← assertEntry zl zlbytes p false
  return entry.headersize + entry.len

def zipRawEntryLength (zl : Bytes) (p : Nat) : Except Fault Nat := do
  let entry ← zipEntry zl p
  return entry.headersize + entry.len

/-- What `zipStorePrevEntryLengthLarge` writes. -/
def prevlenLarge (len : Nat) : Bytes := 254 :: littleEndian 4 len

/-- What `zipStorePrevEntryLength` writes. -/
def prevlenBytes (len : Nat) : Bytes :=
  if len < zipBigPrevlen then [UInt8.ofNat len] else prevlenLarge len

/-- What `zipStorePrevEntryLength` returns without a buffer. -/
def prevlenSize (len : Nat) : Nat := if len < zipBigPrevlen then 1 else 5

def zipPrevLenByteDiff (zl : Bytes) (p len : Nat) : Except Fault Int := do
  let prevlensize ← decodePrevlensize zl p
  return (prevlenSize len : Int) - prevlensize

def zipStoreEntryEncoding (encoding : UInt8) (rawlen : Nat) : Bytes :=
  if zipIsStr encoding then
    if rawlen ≤ 0x3f then [zipStr06b ||| UInt8.ofNat rawlen]
    else if rawlen ≤ 0x3fff then
      [zipStr14b ||| UInt8.ofNat (rawlen / 256 % 64), UInt8.ofNat (rawlen % 256)]
    else zipStr32b :: (littleEndian 4 rawlen).reverse
  else [encoding]

/-- The smallest encoding that holds an integer. -/
def zipIntEncoding (value : Int) : UInt8 :=
  if 0 ≤ value ∧ value ≤ 12 then zipIntImmMin + UInt8.ofNat value.toNat
  else if -2 ^ 7 ≤ value ∧ value < 2 ^ 7 then zipInt8b
  else if -2 ^ 15 ≤ value ∧ value < 2 ^ 15 then zipInt16b
  else if -2 ^ 23 ≤ value ∧ value < 2 ^ 23 then zipInt24b
  else if -2 ^ 31 ≤ value ∧ value < 2 ^ 31 then zipInt32b
  else zipInt64b

/-- The integer that a string stands for, and its encoding. -/
def zipTryEncoding (entry : Bytes) : Option (Int × UInt8) :=
  if 32 ≤ entry.length ∨ entry.length = 0 then none
  else (string2ll entry).map fun value => (value, zipIntEncoding value)

/-- The low bytes of an integer, lowest first. -/
def twosComplement (width : Nat) (value : Int) : Bytes :=
  littleEndian width (value % (256 ^ width : Nat)).toNat

/-- The integer that bytes spell in two's complement. -/
def ofTwosComplement (bytes : Bytes) : Int :=
  let number := ofLittleEndian bytes
  if 2 * number < 256 ^ bytes.length then number else (number : Int) - (256 ^ bytes.length : Nat)

def zipSaveInteger (value : Int) (encoding : UInt8) : Except Fault Bytes :=
  if encoding = zipInt8b then .ok (twosComplement 1 value)
  else if encoding = zipInt16b then .ok (twosComplement 2 value)
  -- The shift makes room for one byte below the value, which is then left out.
  else if encoding = zipInt24b then .ok ((twosComplement 4 (value * 256)).drop 1)
  else if encoding = zipInt32b then .ok (twosComplement 4 value)
  else if encoding = zipInt64b then .ok (twosComplement 8 value)
  else if zipIsImm encoding then .ok []
  else .error .assertFailed

def zipLoadInteger (zl : Bytes) (p : Nat) (encoding : UInt8) : Except Fault Int :=
  if encoding = zipInt8b then do return ofTwosComplement (← load zl p 1)
  else if encoding = zipInt16b then do return ofTwosComplement (← load zl p 2)
  else if encoding = zipInt32b then do return ofTwosComplement (← load zl p 4)
  else if encoding = zipInt24b then do
    let bytes ← load zl p 3
    return ofTwosComplement (0 :: bytes) / 256
  else if encoding = zipInt64b then do return ofTwosComplement (← load zl p 8)
  else if zipIsImm encoding then .ok ((encoding.toNat % 16 : Nat) - 1)
  else .error .assertFailed

def ziplistNew : Bytes :=
  littleEndian 4 (headerSize + endSize) ++
    (littleEndian 4 headerSize ++ (littleEndian 2 0 ++ [zipEnd]))

section Resizing

-- What freshly allocated memory happens to contain, by offset.
variable (unknown : Nat → UInt8)

def ziplistResize (zl : Bytes) (len : Nat) : Except Fault Bytes :=
  if ¬ len < uint32Max then .error .tooLarge
  else do
    let zl ← setZiplistBytes (resizeTo unknown zl len) len
    store zl (len - 1) [zipEnd]

/-- The variables of the first loop. -/
structure CascadeScan where
  zl : Bytes
  p : Nat
  prevlen : Nat
  prevoffset : Nat
  extra : Nat
  cnt : Nat
deriving DecidableEq, Repr

/-- The loop that counts the entries that have to grow. -/
def cascadeScan (curlen : Nat) : Nat → CascadeScan → Except Fault CascadeScan
  | 0, _ => .error .noProgress
  | fuel + 1, scan => do
    if (← peek scan.zl scan.p) = zipEnd then return scan
    else
      let cur ← assertEntry scan.zl curlen scan.p false
      if cur.prevrawlen = scan.prevlen then return scan
      else if prevlenSize scan.prevlen ≤ cur.prevrawlensize then
        -- The field is large enough, and may stay larger than necessary.
        let field := if cur.prevrawlensize = prevlenSize scan.prevlen
          then prevlenBytes scan.prevlen else prevlenLarge scan.prevlen
        let zl ← store scan.zl scan.p field
        return { scan with zl := zl }
      else
        assert (cur.prevrawlen = 0 ∨ cur.prevrawlen + 4 = scan.prevlen)
        let rawlen := cur.headersize + cur.len
        cascadeScan curlen fuel
          { scan with
            p := scan.p + rawlen
            prevlen := rawlen + 4
            prevoffset := scan.p
            extra := scan.extra + 4
            cnt := scan.cnt + 1 }

/-- The loop that moves them, from the last one to the first. -/
def cascadeMove (firstentrylen : Nat) : Nat → Bytes → Nat → Nat → Except Fault Bytes
  | 0, zl, _, _ => .ok zl
  | cnt + 1, zl, p, prevoffset => do
    let cur ← zipEntry zl prevoffset
    let rawlen := cur.headersize + cur.len
    let size := rawlen - cur.prevrawlensize
    let zl ← memmove zl (p - size) (prevoffset + cur.prevrawlensize) size
    let p := p - (rawlen + 4)
    let zl ← store zl p
      (prevlenBytes (if cur.prevrawlen = 0 then firstentrylen else cur.prevrawlen + 4))
    cascadeMove firstentrylen cnt zl p (prevoffset - cur.prevrawlen)

/-- The tail offset after entries have grown. -/
def cascadeTail (zl : Bytes) (tail prevoffset extra : Nat) : Except Fault Bytes :=
  if tail = prevoffset then
    -- The tail itself has grown as well, which does not move it.
    if extra - 4 ≠ 0 then setZiplistTailOffset zl (tail + extra - 4) else .ok zl
  else setZiplistTailOffset zl (tail + extra)

def _ziplistCascadeUpdate (zl : Bytes) (p : Nat) : Except Fault Bytes := do
  let curlen ← ziplistBytes zl
  let tail ← ziplistTailOffset zl
  if (← peek zl p) = zipEnd then return zl
  else
    let cur ← zipEntry zl p
    let firstentrylen := cur.headersize + cur.len
    -- Every round passes an entry, so that there are fewer rounds than bytes.
    let scan ← cascadeScan curlen zl.length
      { zl := zl, p := p + firstentrylen, prevlen := firstentrylen, prevoffset := p,
        extra := 0, cnt := 0 }
    if scan.extra = 0 then return scan.zl
    else
      let zl ← cascadeTail scan.zl tail scan.prevoffset scan.extra
      let zl ← ziplistResize unknown zl (curlen + scan.extra)
      let zl ← memmove zl (scan.p + scan.extra) scan.p (curlen - scan.p - 1)
      cascadeMove firstentrylen scan.cnt zl (scan.p + scan.extra) scan.prevoffset

/-- The end of the entries to delete, and their number. -/
def skipEntries (zl : Bytes) (zlbytes : Nat) : Nat → Nat → Nat → Except Fault (Nat × Nat)
  | 0, p, deleted => .ok (p, deleted)
  | num + 1, p, deleted => do
    if (← peek zl p) = zipEnd then return (p, deleted)
    else
      let rawlen ← zipRawEntryLengthSafe zl zlbytes p
      skipEntries zl zlbytes num (p + rawlen) (deleted + 1)

/-- The difference in size of the next entry, and the tail. -/
def closeGap (zl : Bytes) (zlbytes : Nat) (first : Zlentry) (p totlen : Nat) :
    Except Fault (Bytes × Int × Nat) := do
  if (← peek zl p) ≠ zipEnd then
    let nextdiff ← zipPrevLenByteDiff zl p first.prevrawlen
    let p := shift p (-nextdiff)
    assert (first.p ≤ p ∧ p < zlbytes - 1)
    let zl ← store zl p (prevlenBytes first.prevrawlen)
    let tailOffset ← ziplistTailOffset zl
    let tail ← assertEntry zl zlbytes p true
    let next ← peek zl (p + tail.headersize + tail.len)
    let setTail := shift (tailOffset - totlen) (if next ≠ zipEnd then nextdiff else 0)
    let zl ← memmove zl first.p p (zlbytes - p - 1)
    return (zl, nextdiff, setTail)
  else
    -- The entire tail was deleted.
    return (zl, 0, first.p - first.prevrawlen)

def _ziplistDelete (zl : Bytes) (p num : Nat) : Except Fault Bytes := do
  let zlbytes ← ziplistBytes zl
  let first ← zipEntry zl p
  let (p, deleted) ← skipEntries zl zlbytes num p 0
  assert (first.p ≤ p)
  let totlen := p - first.p
  if totlen = 0 then return zl
  else
    let (zl, nextdiff, setTail) ← closeGap zl zlbytes first p totlen
    let zlbytes := shift (zlbytes - totlen) nextdiff
    let zl ← ziplistResize unknown zl zlbytes
    let zl ← ziplistIncrLength zl (-deleted)
    assert (setTail ≤ zlbytes - endSize)
    let zl ← setZiplistTailOffset zl setTail
    if nextdiff ≠ 0 then _ziplistCascadeUpdate unknown zl first.p else return zl

/-- The previous entry's length. -/
def insertPrevlen (zl : Bytes) (curlen p : Nat) : Except Fault Nat := do
  if (← peek zl p) ≠ zipEnd then
    let (_, prevlen) ← decodePrevlen zl p
    return prevlen
  else
    let ptail ← ziplistTailOffset zl
    if (← peek zl ptail) ≠ zipEnd then zipRawEntryLengthSafe zl curlen ptail else return 0

/-- The encoding, the value if it is an integer, and the size. -/
def chooseEncoding (s : Bytes) : UInt8 × Int × Nat :=
  match zipTryEncoding s with
  | some (value, encoding) => (encoding, value, (intEncodingSize encoding).getD 0)
  | none => (0, 123456789, s.length)

/-- What is written behind an encoding. -/
def contentBytes (s : Bytes) (encoding : UInt8) (value : Int) : Except Fault Bytes :=
  if zipIsStr encoding then .ok s else zipSaveInteger value encoding

/-- Write the encoding of an entry and what follows it. -/
def writeValue (zl : Bytes) (p : Nat) (s : Bytes) (encoding : UInt8) (value : Int) :
    Except Fault Bytes := do
  let header := zipStoreEntryEncoding encoding s.length
  let zl ← store zl p header
  let content ← contentBytes s encoding value
  store zl (p + header.length) content

/-- By how much the next entry changes, and whether its field stays too large. -/
def insertNextdiff (zl : Bytes) (p reqlen : Nat) : Except Fault (Int × Bool) := do
  if (← peek zl p) ≠ zipEnd then
    let nextdiff ← zipPrevLenByteDiff zl p reqlen
    -- Shrinking the field by more than what is inserted would make the ziplist smaller.
    if nextdiff = -4 ∧ reqlen < 4 then return (0, true) else return (nextdiff, false)
  else return (0, false)

/-- How `__ziplistInsert` makes room for an entry. -/
def openGap (zl : Bytes) (curlen newlen p reqlen : Nat) (nextdiff : Int) (forcelarge : Bool) :
    Except Fault Bytes := do
  if (← peek zl p) ≠ zipEnd then
    let zl ← memmove zl (p + reqlen) (shift p (-nextdiff)) (shift (curlen - p - 1) nextdiff)
    let zl ← store zl (p + reqlen) (if forcelarge then prevlenLarge reqlen else prevlenBytes reqlen)
    let zl ← setZiplistTailOffset zl ((← ziplistTailOffset zl) + reqlen)
    let tail ← assertEntry zl newlen (p + reqlen) true
    if (← peek zl (p + reqlen + tail.headersize + tail.len)) ≠ zipEnd then
      setZiplistTailOffset zl (shift (← ziplistTailOffset zl) nextdiff)
    else return zl
  else setZiplistTailOffset zl p

def _ziplistInsert (zl : Bytes) (p : Nat) (s : Bytes) : Except Fault Bytes := do
  let curlen ← ziplistBytes zl
  let prevlen ← insertPrevlen zl curlen p
  let (encoding, value, contentlen) := chooseEncoding s
  let reqlen := contentlen + prevlenSize prevlen + (zipStoreEntryEncoding encoding s.length).length
  let (nextdiff, forcelarge) ← insertNextdiff zl p reqlen
  let newlen := shift (curlen + reqlen) nextdiff
  let zl ← ziplistResize unknown zl newlen
  let zl ← openGap zl curlen newlen p reqlen nextdiff forcelarge
  let zl ← (if nextdiff ≠ 0 then _ziplistCascadeUpdate unknown zl (p + reqlen) else .ok zl)
  let zl ← store zl p (prevlenBytes prevlen)
  let zl ← writeValue zl (p + prevlenSize prevlen) s encoding value
  ziplistIncrLength zl 1

inductive Where where
  | head
  | tail
deriving DecidableEq, Repr

def ziplistPush (zl s : Bytes) (end_ : Where) : Except Fault Bytes := do
  let zlbytes ← ziplistBytes zl
  _ziplistInsert unknown zl (match end_ with | .head => headerSize | .tail => zlbytes - 1) s

def ziplistInsert (zl : Bytes) (p : Nat) (s : Bytes) : Except Fault Bytes :=
  _ziplistInsert unknown zl p s

def ziplistDelete (zl : Bytes) (p : Nat) : Except Fault Bytes :=
  _ziplistDelete unknown zl p 1

def indexForward (zl : Bytes) (zlbytes : Nat) : Nat → Nat → Except Fault Nat
  | 0, p => .ok p
  | index + 1, p => do
    let p := p + (← zipRawEntryLengthSafe zl zlbytes p)
    if (← peek zl p) = zipEnd then return p else indexForward zl zlbytes index p

/-- The pointer, and how far the index was still away. -/
def indexBackward (zl : Bytes) (zlbytes : Nat) :
    Nat → Nat → Nat → Except Fault (Nat × Nat)
  | 0, p, _ => .ok (p, 0)
  | index + 1, p, prevlen =>
    if prevlen = 0 then .ok (p, index + 1)
    else do
      assert (headerSize + prevlen ≤ p ∧ p - prevlen < zlbytes - endSize)
      let (_, next) ← decodePrevlen zl (p - prevlen)
      indexBackward zl zlbytes index (p - prevlen) next

def indexFromTail (zl : Bytes) (zlbytes index : Nat) : Except Fault (Nat × Nat) := do
  let p ← ziplistTailOffset zl
  if (← peek zl p) ≠ zipEnd then
    let prevlensize ← decodePrevlensize zl p
    assert (p + prevlensize < zlbytes - endSize)
    let (_, prevlen) ← decodePrevlen zl p
    indexBackward zl zlbytes index p prevlen
  else return (p, 0)

def indexFromHead (zl : Bytes) (zlbytes index : Nat) : Except Fault (Nat × Nat) := do
  let p ← indexForward zl zlbytes index headerSize
  return (p, 0)

def ziplistIndex (zl : Bytes) (index : Int) : Except Fault (Option Nat) := do
  let zlbytes ← ziplistBytes zl
  let (p, left) ← (if index < 0 then indexFromTail zl zlbytes (-index - 1).toNat
    else indexFromHead zl zlbytes index.toNat)
  if (← peek zl p) = zipEnd ∨ 0 < left then return none
  else
    let _ ← assertEntry zl zlbytes p true
    return some p

def ziplistDeleteRange (zl : Bytes) (index : Int) (num : Nat) : Except Fault Bytes := do
  match ← ziplistIndex zl index with
  | none => return zl
  | some p => _ziplistDelete unknown zl p num

def ziplistReplace (zl : Bytes) (p : Nat) (s : Bytes) : Except Fault Bytes := do
  let entry ← zipEntry zl p
  let (encoding, value, contentlen) := chooseEncoding s
  let reqlen := contentlen + (zipStoreEntryEncoding encoding s.length).length
  if reqlen = entry.lensize + entry.len then
    -- Simply overwrite the element.
    writeValue zl (p + entry.prevrawlensize) s encoding value
  else
    let zl ← ziplistDelete unknown zl p
    ziplistInsert unknown zl p s

end Resizing

def ziplistNext (zl : Bytes) (p : Nat) : Except Fault (Option Nat) := do
  let zlbytes ← ziplistBytes zl
  if (← peek zl p) = zipEnd then return none
  else
    let p := p + (← zipRawEntryLength zl p)
    if (← peek zl p) = zipEnd then return none
    else
      let _ ← assertEntry zl zlbytes p true
      return some p

/-- What `ziplistGet` stores: a string or an integer. -/
inductive Value where
  | str (s : Bytes)
  | int (value : Int)
deriving DecidableEq, Repr

def ziplistGet (zl : Bytes) (p : Nat) : Except Fault (Option Value) := do
  if (← peek zl p) = zipEnd then return none
  else
    let entry ← zipEntry zl p
    if zipIsStr entry.encoding then
      return some (.str (← load zl (p + entry.headersize) entry.len))
    else
      return some (.int (← zipLoadInteger zl (p + entry.headersize) entry.encoding))

/-- Integers are written back in decimal. -/
def Value.bytes : Value → Bytes
  | .str s => s
  | .int value => decimal value

/-- Read a ziplist from a pointer on with `ziplistGet` and `ziplistNext`. -/
def readFrom (zl : Bytes) : Nat → Option Nat → Except Fault (List Bytes)
  | _, none => .ok []
  | 0, some _ => .error .noProgress
  | fuel + 1, some p => do
    match ← ziplistGet zl p with
    | none => return []
    | some value =>
      let rest ← readFrom zl fuel (← ziplistNext zl p)
      return value.bytes :: rest

def readAll (zl : Bytes) : Except Fault (List Bytes) := do
  readFrom zl zl.length (← ziplistIndex zl 0)

end LearningNotes.Ziplist
