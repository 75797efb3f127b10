import LearningNotes.Lib.Outcome

/-! The incrementally rehashed hash table of `dict.c`, as state passing over explicit faults. -/

namespace LearningNotes.Dict

inductive Fault where
  | assertFailed
  /-- A bucket was read or written outside its table. -/
  | outOfBounds
  | nullPointer
  /-- The allocator ran out of address space, which is fatal. -/
  | outOfMemory
  /-- A loop went beyond the bound set for it here. -/
  | noProgress
deriving DecidableEq, Repr

inductive Status where
  | ok
  | err
deriving DecidableEq, Repr

inductive ResizeEnable where
  | enable
  | avoid
  | forbid
deriving DecidableEq, Repr

def initialSize : Nat := 4

def forceResizeRatio : Nat := 5

def longMax : Nat := 2 ^ 63 - 1

/-- The number of values of an `unsigned long`, and of addresses. -/
def addressSpace : Nat := 2 ^ 64

def pointerSize : Nat := 8

/-- `sizeof(dictEntry)`: the key, the value and the link. -/
def entrySize : Nat := 24

/-- A `dictEntry`, whose link is the rest of its chain. -/
structure Entry (K V : Type) where
  key : K
  val : V
deriving DecidableEq, Repr

/-- A `dictht`; the null table is the one without buckets. -/
structure Dictht (K V : Type) where
  table : List (List (Entry K V))
  size : Nat
  sizemask : BitVec 64
  used : Nat
deriving DecidableEq, Repr

/-- The callbacks that decide where entries go and when tables grow. -/
structure DictType (K : Type) where
  hashFunction : K → BitVec 64
  /-- Called with the bytes to allocate and the two sides of the ratio. -/
  expandAllowed : Option (Nat → Nat → Nat → Bool)

end LearningNotes.Dict

namespace LearningNotes

/-- A `dict`; `rehashidx` is absent where the source stores -1. -/
structure Dict (K V : Type) where
  ht0 : Dict.Dictht K V
  ht1 : Dict.Dictht K V
  rehashidx : Option Nat
  pauserehash : Int
deriving DecidableEq, Repr

end LearningNotes

namespace LearningNotes.Dict

variable {K V : Type}

def _dictReset : Dictht K V := ⟨[], 0, 0, 0⟩

def dictCreate : Dict K V := ⟨_dictReset, _dictReset, none, 0⟩

def isRehashing (d : Dict K V) : Bool := d.rehashidx.isSome

def dictSize (d : Dict K V) : Nat := d.ht0.used + d.ht1.used

def bytesInUse (d : Dict K V) : Nat :=
  pointerSize * (d.ht0.size + d.ht1.size) + entrySize * (d.ht0.used + d.ht1.used)

def fits (d : Dict K V) (bytes : Nat) : Bool := decide (d.bytesInUse + bytes ≤ addressSpace)

namespace Dictht

def index (ht : Dictht K V) (hash : BitVec 64) : Nat := (hash &&& ht.sizemask).toNat

def bucket (ht : Dictht K V) (idx : Nat) : Except Fault (List (Entry K V)) :=
  match ht.table[idx]? with
  | none => .error .outOfBounds
  | some chain => .ok chain

def setBucket (ht : Dictht K V) (idx : Nat) (chain : List (Entry K V)) :
    Except Fault (Dictht K V) :=
  if idx < ht.table.length then .ok { ht with table := ht.table.set idx chain }
  else .error .outOfBounds

end Dictht

/-- Doubling loop of `_dictNextPower`. -/
def nextPowerFrom (size : Nat) : Nat → Nat → Nat
  | 0, i => i
  | fuel + 1, i => if size ≤ i then i else nextPowerFrom size fuel (i * 2)

def _dictNextPower (size : Nat) : Nat :=
  -- Sixty-two doublings of the initial size leave the range of an unsigned long.
  if longMax ≤ size then longMax + 1 else nextPowerFrom size 62 initialSize

def freshTable (realsize : Nat) : Dictht K V where
  table := List.replicate realsize []
  size := realsize
  sizemask := BitVec.ofNat 64 (realsize - 1)
  used := 0

/-- Create the first table, or the one to migrate to; only `tryAlloc` survives a failure. -/
def _dictExpand (d : Dict K V) (size : Nat) (tryAlloc : Bool) :
    Except Fault ((Status × Bool) × Dict K V) :=
  if d.isRehashing || decide (size < d.ht0.used) then .ok ((.err, false), d)
  else
    let realsize := _dictNextPower size
    -- The product is the one of unsigned longs, so that an overflow shows as a smaller value.
    if decide (realsize < size) || decide (realsize * pointerSize % addressSpace < realsize) then
      .ok ((.err, false), d)
    else if realsize = d.ht0.size then .ok ((.err, false), d)
    else if !d.fits (realsize * pointerSize) then
      if tryAlloc then .ok ((.err, true), d) else .error .outOfMemory
    else if d.ht0.table.isEmpty then .ok ((.ok, false), { d with ht0 := freshTable realsize })
    else .ok ((.ok, false), { d with ht1 := freshTable realsize, rehashidx := some 0 })

def dictExpand (d : Dict K V) (size : Nat) : Except Fault (Status × Dict K V) := do
  let ((status, _), d) ← _dictExpand d size false
  return (status, d)

def dictTryExpand (d : Dict K V) (size : Nat) : Except Fault (Status × Dict K V) := do
  let ((_, mallocFailed), d) ← _dictExpand d size true
  return (if mallocFailed then .err else .ok, d)

def dictResize (canResize : ResizeEnable) (d : Dict K V) : Except Fault (Status × Dict K V) :=
  if canResize ≠ .enable || d.isRehashing then .ok (.err, d)
  else
    let minimal := d.ht0.used
    dictExpand d (if minimal < initialSize then initialSize else minimal)

/-- How the search for the next bucket to move ended. -/
inductive Skip where
  /-- The budget of empty buckets is spent; it goes on at this index. -/
  | spent (rehashidx : Nat)
  /-- The bucket at this index holds entries; this much of the budget is left. -/
  | found (rehashidx : Nat) (emptyVisits : Int)
deriving DecidableEq, Repr

/-- The loop over empty buckets, given those from `rehashidx` on. -/
def skipEmpty : List (List (Entry K V)) → Nat → Int → Except Fault Skip
  | [], _, _ => .error .outOfBounds
  | [] :: rest, rehashidx, emptyVisits =>
    if emptyVisits - 1 = 0 then .ok (.spent (rehashidx + 1))
    else skipEmpty rest (rehashidx + 1) (emptyVisits - 1)
  | (_ :: _) :: _, rehashidx, emptyVisits => .ok (.found rehashidx emptyVisits)

/-- The loop that hangs every entry of a chain into the second table. -/
def moveChain (type : DictType K) :
    List (Entry K V) → Dictht K V → Dictht K V → Except Fault (Dictht K V × Dictht K V)
  | [], ht0, ht1 => .ok (ht0, ht1)
  | de :: nextde, ht0, ht1 => do
    let h := ht1.index (type.hashFunction de.key)
    let chain ← ht1.bucket h
    let ht1 ← ht1.setBucket h (de :: chain)
    moveChain type nextde { ht0 with used := ht0.used - 1 } { ht1 with used := ht1.used + 1 }

/-- The outer loop; the flag tells that it returned early. -/
def rehashLoop (type : DictType K) :
    Nat → Int → Int → Nat → Dict K V → Except Fault (Bool × Dict K V)
  | 0, _, _, _, _ => .error .noProgress
  | fuel + 1, n, emptyVisits, rehashidx, d =>
    if n = 0 || d.ht0.used = 0 then .ok (false, { d with rehashidx := some rehashidx })
    else if ¬ rehashidx < d.ht0.size then .error .assertFailed
    else do
      match ← skipEmpty (d.ht0.table.drop rehashidx) rehashidx emptyVisits with
      | .spent rehashidx => return (true, { d with rehashidx := some rehashidx })
      | .found rehashidx emptyVisits =>
        let de ← d.ht0.bucket rehashidx
        let (ht0, ht1) ← moveChain type de d.ht0 d.ht1
        let ht0 ← ht0.setBucket rehashidx []
        rehashLoop type fuel (n - 1) emptyVisits (rehashidx + 1) { d with ht0 := ht0, ht1 := ht1 }

/-- Whether `DICT_RESIZE_AVOID` holds a rehashing back. -/
def avoidsRehash (s0 s1 : Nat) : Bool :=
  (decide (s0 < s1) && decide (s1 / s0 < forceResizeRatio)) ||
    (decide (s1 < s0) && decide (s0 / s1 < forceResizeRatio))

/-- `dictRehash`: whether keys are left to move. -/
def dictRehash (type : DictType K) (canResize : ResizeEnable) (d : Dict K V) (n : Int) :
    Except Fault (Bool × Dict K V) :=
  match d.rehashidx with
  | none => .ok (false, d)
  | some rehashidx =>
    if canResize = .forbid then .ok (false, d)
    else if canResize = .avoid && avoidsRehash d.ht0.size d.ht1.size then .ok (false, d)
    else do
      -- Every round moves one bucket, so that there are at most as many as buckets, and the check.
      let (early, d) ← rehashLoop type (d.ht0.size + 1) n (n * 10) rehashidx d
      if early then return (true, d)
      else if d.ht0.used = 0 then
        return (false, { d with ht0 := d.ht1, ht1 := _dictReset, rehashidx := none })
      else return (true, d)

def _dictRehashStep (type : DictType K) (canResize : ResizeEnable) (d : Dict K V) :
    Except Fault (Dict K V) := do
  if d.pauserehash = 0 then
    let (_, d) ← dictRehash type canResize d 1
    return d
  else return d

/-- The step taken by every lookup and update while rehashing. -/
def rehashStepIfNeeded (type : DictType K) (canResize : ResizeEnable) (d : Dict K V) :
    Except Fault (Dict K V) :=
  if d.isRehashing then _dictRehashStep type canResize d else .ok d

def dictTypeExpandAllowed (type : DictType K) (d : Dict K V) : Bool :=
  match type.expandAllowed with
  | none => true
  | some allowed =>
    allowed (_dictNextPower (d.ht0.used + 1) * pointerSize % addressSpace) d.ht0.used d.ht0.size

def _dictExpandIfNeeded (type : DictType K) (canResize : ResizeEnable) (d : Dict K V) :
    Except Fault (Status × Dict K V) :=
  if d.isRehashing then .ok (.ok, d)
  else if d.ht0.size = 0 then dictExpand d initialSize
  else if !dictTypeExpandAllowed type d then .ok (.ok, d)
  else if (canResize = .enable && decide (d.ht0.size ≤ d.ht0.used)) ||
      (canResize ≠ .forbid && decide (forceResizeRatio < d.ht0.used / d.ht0.size)) then
    dictExpand d (d.ht0.used + 1)
  else .ok (.ok, d)

/-- Which of the two tables a pointer goes into. -/
inductive Side where
  | first
  | second
deriving DecidableEq, Repr

/-- A `dictEntry` pointer: the table, the bucket, the position in its chain. -/
structure Ref where
  table : Side
  idx : Nat
  pos : Nat
deriving DecidableEq, Repr

def ht (d : Dict K V) : Side → Dictht K V
  | .first => d.ht0
  | .second => d.ht1

def setHt (d : Dict K V) (side : Side) (ht : Dictht K V) : Dict K V :=
  match side with
  | .first => { d with ht0 := ht }
  | .second => { d with ht1 := ht }

def deref (d : Dict K V) (ref : Ref) : Except Fault (Entry K V) := do
  let chain ← (d.ht ref.table).bucket ref.idx
  match chain[ref.pos]? with
  | none => .error .nullPointer
  | some he => return he

section Keys

variable [DecidableEq K]

def searchTable (d : Dict K V) (side : Side) (hash : BitVec 64) (key : K) :
    Except Fault (Option Ref) := do
  let idx := (d.ht side).index hash
  let chain ← (d.ht side).bucket idx
  return (chain.findIdx? fun he => he.key = key).map fun pos => ⟨side, idx, pos⟩

/-- The loop over both tables; the second one only while rehashing. -/
def searchTables (d : Dict K V) (hash : BitVec 64) (key : K) : Except Fault (Option Ref) := do
  match ← searchTable d .first hash key with
  | some ref => return some ref
  | none => if d.isRehashing then searchTable d .second hash key else return none

/-- The index for a new entry if there is one, and the entry already there. -/
def _dictKeyIndex (type : DictType K) (canResize : ResizeEnable) (d : Dict K V) (key : K)
    (hash : BitVec 64) : Except Fault ((Option Nat × Option Ref) × Dict K V) := do
  let (status, d) ← _dictExpandIfNeeded type canResize d
  if status = .err then return ((none, none), d)
  else
    match ← searchTables d hash key with
    | some existing => return ((none, some existing), d)
    | none =>
      let last := if d.isRehashing then Side.second else Side.first
      return ((some ((d.ht last).index hash), none), d)

def linkEntry (d : Dict K V) (side : Side) (index : Nat) (entry : Entry K V) :
    Except Fault (Dict K V) :=
  if !d.fits entrySize then .error .outOfMemory
  else do
    let chain ← (d.ht side).bucket index
    let ht ← (d.ht side).setBucket index (entry :: chain)
    return d.setHt side { ht with used := ht.used + 1 }

/-- A pointer to the new entry, with some unknown value, and to the one already there. -/
def dictAddRaw (type : DictType K) (canResize : ResizeEnable) (d : Dict K V) (key : K)
    (uninitialized : V) : Except Fault ((Option Ref × Option Ref) × Dict K V) := do
  let d ← rehashStepIfNeeded type canResize d
  match ← _dictKeyIndex type canResize d key (type.hashFunction key) with
  | ((none, existing), d) => return ((none, existing), d)
  | ((some index, existing), d) =>
    let side := if d.isRehashing then Side.second else Side.first
    let d ← linkEntry d side index ⟨key, uninitialized⟩
    return ((some ⟨side, index, 0⟩, existing), d)

def dictSetVal (d : Dict K V) (entry : Ref) (val : V) : Except Fault (Dict K V) := do
  let chain ← (d.ht entry.table).bucket entry.idx
  match chain[entry.pos]? with
  | none => .error .nullPointer
  | some he =>
    let ht ← (d.ht entry.table).setBucket entry.idx (chain.set entry.pos { he with val := val })
    return d.setHt entry.table ht

def dictAdd (type : DictType K) (canResize : ResizeEnable) (d : Dict K V) (key : K)
    (val uninitialized : V) : Except Fault (Status × Dict K V) := do
  match ← dictAddRaw type canResize d key uninitialized with
  | ((none, _), d) => return (.err, d)
  | ((some entry, _), d) =>
    let d ← dictSetVal d entry val
    return (.ok, d)

/-- `dictReplace`: whether the key was added. -/
def dictReplace (type : DictType K) (canResize : ResizeEnable) (d : Dict K V) (key : K)
    (val uninitialized : V) : Except Fault (Bool × Dict K V) := do
  match ← dictAddRaw type canResize d key uninitialized with
  | ((some entry, _), d) =>
    let d ← dictSetVal d entry val
    return (true, d)
  | ((none, some existing), d) =>
    let d ← dictSetVal d existing val
    return (false, d)
  | ((none, none), _) => .error .nullPointer

/-- Unlink the first matching entry of the chain that the hash selects. -/
def unlinkFrom (d : Dict K V) (side : Side) (hash : BitVec 64) (key : K) :
    Except Fault (Option (Entry K V) × Dict K V) := do
  let idx := (d.ht side).index hash
  let chain ← (d.ht side).bucket idx
  match chain.findIdx? fun he => he.key = key with
  | none => return (none, d)
  | some pos =>
    let ht ← (d.ht side).setBucket idx (chain.eraseIdx pos)
    return (chain[pos]?, d.setHt side { ht with used := ht.used - 1 })

/-- The entry taken out, whose memory `dictDelete` then frees. -/
def dictGenericDelete (type : DictType K) (canResize : ResizeEnable) (d : Dict K V) (key : K) :
    Except Fault (Option (Entry K V) × Dict K V) := do
  if d.ht0.used = 0 && d.ht1.used = 0 then return (none, d)
  else
    let d ← rehashStepIfNeeded type canResize d
    let h := type.hashFunction key
    match ← unlinkFrom d .first h key with
    | (some he, d) => return (some he, d)
    | (none, d) => if d.isRehashing then unlinkFrom d .second h key else return (none, d)

def dictDelete (type : DictType K) (canResize : ResizeEnable) (d : Dict K V) (key : K) :
    Except Fault (Status × Dict K V) := do
  let (he, d) ← dictGenericDelete type canResize d key
  return (if he.isSome then .ok else .err, d)

def dictUnlink (type : DictType K) (canResize : ResizeEnable) (d : Dict K V) (key : K) :
    Except Fault (Option (Entry K V) × Dict K V) :=
  dictGenericDelete type canResize d key

def dictFind (type : DictType K) (canResize : ResizeEnable) (d : Dict K V) (key : K) :
    Except Fault (Option Ref × Dict K V) := do
  if d.dictSize = 0 then return (none, d)
  else
    let d ← rehashStepIfNeeded type canResize d
    let found ← searchTables d (type.hashFunction key) key
    return (found, d)

end Keys

end LearningNotes.Dict
