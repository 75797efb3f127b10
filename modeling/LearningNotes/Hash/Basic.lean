import LearningNotes.Dict.Refinement
import LearningNotes.Ziplist.Find

/-! Hashes as objects: the ziplist encoding, the hash table encoding, and the functions on both. -/

namespace LearningNotes.Hash

open Lib Util

inductive Fault where
  | ziplist (fault : Ziplist.Fault)
  | dict (fault : Dict.Fault)
  | assertFailed
  | panic
deriving DecidableEq, Repr

def onZiplist {α : Type} (computation : Except Ziplist.Fault α) : Except Fault α :=
  computation.mapError .ziplist

def onDict {α : Type} (computation : Except Dict.Fault α) : Except Fault α :=
  computation.mapError .dict

/-- A hash in the encoding `OBJ_ENCODING_ZIPLIST` or `OBJ_ENCODING_HT`. -/
inductive Object where
  | ziplist (zl : Bytes)
  | ht (d : Dict Bytes Bytes)

/-- The configuration, whether dicts may be resized, and new memory. -/
structure Env where
  hashMaxZiplistEntries : Nat
  hashMaxZiplistValue : Nat
  canResize : Dict.ResizeEnable
  /-- The memory of the first and of the second change to a ziplist. -/
  first : Nat → UInt8
  second : Nat → UInt8
  uninitialized : Bytes

/-- The string that a function sees whose length is an `unsigned int`. -/
def asUnsigned (s : Bytes) : Bytes := s.take (s.length % 2 ^ 32)

def createHashObject : Object := .ziplist Ziplist.ziplistNew

/-- An argument, which is a string or an integer. -/
inductive Argument where
  | sds (s : Bytes)
  | int (value : Int)
deriving DecidableEq, Repr

variable (type : Dict.DictType Bytes)

/-- `hashTypeCurrentObjectNewSds` at a pointer of the iterator. -/
def currentObjectNewSds (zl : Bytes) (p : Nat) : Except Fault Bytes := do
  match ← onZiplist (Ziplist.ziplistGet zl p) with
  | none => .error .assertFailed
  | some value => return value.bytes

/-- The loop of `hashTypeConvertZiplist` from a pair on. -/
def convertFrom (env : Env) (zl : Bytes) :
    Nat → Option Nat → Dict Bytes Bytes → Except Fault (Dict Bytes Bytes)
  | _, none, d => .ok d
  | 0, some _, _ => .error (.ziplist .noProgress)
  | fuel + 1, some fptr, d => do
    match ← onZiplist (Ziplist.ziplistNext zl fptr) with
    | none => .error .assertFailed
    | some vptr =>
      let key ← currentObjectNewSds zl fptr
      let value ← currentObjectNewSds zl vptr
      let (ret, d) ← onDict (d.dictAdd type env.canResize key value env.uninitialized)
      if ret = .err then .error .panic
      else
        let fptr ← onZiplist (Ziplist.ziplistNext zl vptr)
        convertFrom env zl fuel fptr d

/-- `hashTypeConvert` to the encoding `OBJ_ENCODING_HT`. -/
def hashTypeConvert (env : Env) : Object → Except Fault Object
  | .ziplist zl => do
    let fptr ← onZiplist (Ziplist.ziplistIndex zl 0)
    -- Every round passes two entries, so that there are fewer rounds than bytes.
    let d ← convertFrom type env zl zl.length fptr Dict.dictCreate
    return .ht d
  | .ht _ => .error .panic

/-- Whether a string is too long, and the sum up to it. -/
def tooLong (env : Env) : List Argument → Nat → Bool × Nat
  | [], sum => (false, sum)
  | .int _ :: rest, sum => tooLong env rest sum
  | .sds s :: rest, sum =>
    if env.hashMaxZiplistValue < s.length then (true, sum) else tooLong env rest (sum + s.length)

/-- `hashTypeTryConversion` with the arguments from `start` to `end`. -/
def hashTypeTryConversion (env : Env) (o : Object) (argv : List Argument) : Except Fault Object :=
  match o with
  | .ht d => .ok (.ht d)
  | .ziplist zl => do
    let (long, sum) := tooLong env argv 0
    if long then hashTypeConvert type env (.ziplist zl)
    else if !(← onZiplist (Ziplist.ziplistSafeToAdd zl sum)) then
      hashTypeConvert type env (.ziplist zl)
    else return .ziplist zl

def findField (zl field : Bytes) : Except Fault (Option Nat) := do
  match ← onZiplist (Ziplist.ziplistIndex zl 0) with
  | none => return none
  | some fptr => onZiplist (Ziplist.ziplistFind zl fptr (asUnsigned field) 1)

def valueOf (zl : Bytes) (fptr : Nat) : Except Fault Nat := do
  match ← onZiplist (Ziplist.ziplistNext zl fptr) with
  | none => .error .assertFailed
  | some vptr => return vptr

def hashTypeGetFromZiplist (zl field : Bytes) : Except Fault (Option Ziplist.Value) := do
  match ← findField zl field with
  | none => return none
  | some fptr =>
    let vptr ← valueOf zl fptr
    match ← onZiplist (Ziplist.ziplistGet zl vptr) with
    | none => .error .assertFailed
    | some value => return some value

/-- Looking for a field may make the dict move some of its entries. -/
def hashTypeGetFromHashTable (env : Env) (d : Dict Bytes Bytes) (field : Bytes) :
    Except Fault (Option Bytes × Dict Bytes Bytes) := do
  let (de, d) ← onDict (d.dictFind type env.canResize field)
  match ← onDict (Dict.derefOption d de) with
  | none => return (none, d)
  | some entry => return (some entry.val, d)

/-- `hashTypeGetValue`: the string or integer, if the field is there. Its length is an `unsigned int`,
also for the string of a hash table. -/
def hashTypeGetValue (env : Env) (o : Object) (field : Bytes) :
    Except Fault (Option Ziplist.Value × Object) :=
  match o with
  | .ziplist zl => do return (← hashTypeGetFromZiplist zl field, .ziplist zl)
  | .ht d => do
    let (value, d) ← hashTypeGetFromHashTable type env d field
    return (value.map fun value => .str (asUnsigned value), .ht d)

def hashTypeGetValueLength (env : Env) (o : Object) (field : Bytes) :
    Except Fault (Nat × Object) :=
  match o with
  | .ziplist zl => do
    match ← hashTypeGetFromZiplist zl field with
    | none => return (0, .ziplist zl)
    | some (.str s) => return (s.length, .ziplist zl)
    | some (.int vll) => return (sdigits10 vll, .ziplist zl)
  | .ht d => do
    let (value, d) ← hashTypeGetFromHashTable type env d field
    return ((value.map List.length).getD 0, .ht d)

def hashTypeExists (env : Env) (o : Object) (field : Bytes) : Except Fault (Bool × Object) :=
  match o with
  | .ziplist zl => do return ((← hashTypeGetFromZiplist zl field).isSome, .ziplist zl)
  | .ht d => do
    let (value, d) ← hashTypeGetFromHashTable type env d field
    return (value.isSome, .ht d)

def hashTypeLength : Object → Except Fault (Nat × Object)
  | .ziplist zl => do
    let (len, zl) ← onZiplist (Ziplist.ziplistLen zl)
    return (len / 2, .ziplist zl)
  | .ht d => .ok (d.dictSize, .ht d)

def setInZiplist (env : Env) (zl field value : Bytes) : Except Fault (Bool × Bytes) := do
  match ← findField zl field with
  | some fptr =>
    let vptr ← valueOf zl fptr
    let zl ← onZiplist (Ziplist.ziplistReplace env.first zl vptr (asUnsigned value))
    return (true, zl)
  | none =>
    let zl ← onZiplist (Ziplist.ziplistPush env.first zl (asUnsigned field) .tail)
    let zl ← onZiplist (Ziplist.ziplistPush env.second zl (asUnsigned value) .tail)
    return (false, zl)

def setInHashTable (env : Env) (d : Dict Bytes Bytes) (field value : Bytes) :
    Except Fault (Bool × Dict Bytes Bytes) := do
  let (de, d) ← onDict (d.dictFind type env.canResize field)
  match de with
  | some entry =>
    let d ← onDict (d.dictSetVal entry value)
    return (true, d)
  | none =>
    let (_, d) ← onDict (d.dictAdd type env.canResize field value env.uninitialized)
    return (false, d)

/-- `hashTypeSet`: whether a field was updated. -/
def hashTypeSet (env : Env) (o : Object) (field value : Bytes) : Except Fault (Bool × Object) :=
  match o with
  | .ziplist zl => do
    let (update, zl) ← setInZiplist env zl field value
    let (length, o) ← hashTypeLength (.ziplist zl)
    if env.hashMaxZiplistEntries < length then return (update, ← hashTypeConvert type env o)
    else return (update, o)
  | .ht d => do
    let (update, d) ← setInHashTable type env d field value
    return (update, .ht d)

def htNeedsResize (d : Dict Bytes Bytes) : Bool :=
  let size := d.ht0.size + d.ht1.size
  decide (Dict.initialSize < size) && decide (d.dictSize * 100 / size < 10)

/-- `hashTypeDelete`: whether a field was deleted. -/
def hashTypeDelete (env : Env) (o : Object) (field : Bytes) : Except Fault (Bool × Object) :=
  match o with
  | .ziplist zl => do
    match ← findField zl field with
    | none => return (false, .ziplist zl)
    | some fptr =>
      -- The pointer to the field leads to the value once the field is gone.
      let zl ← onZiplist (Ziplist.ziplistDelete env.first zl fptr)
      let zl ← onZiplist (Ziplist.ziplistDelete env.second zl fptr)
      return (true, .ziplist zl)
  | .ht d => do
    let (status, d) ← onDict (d.dictDelete type env.canResize field)
    if status = .ok then
      if htNeedsResize d then
        let (_, d) ← onDict (d.dictResize env.canResize)
        return (true, .ht d)
      else return (true, .ht d)
    else return (false, .ht d)

inductive Call where
  | set (field value : Bytes)
  | delete (field : Bytes)
  | getValue (field : Bytes)
  | exists_ (field : Bytes)
  | getValueLength (field : Bytes)
  | length
  | tryConversion (argv : List Argument)
deriving DecidableEq, Repr

/-- What a call returns; an integer is read as its string. -/
inductive Reply where
  | updated (update : Bool)
  | deleted (deleted : Bool)
  | value (found : Option Bytes)
  | found (found : Bool)
  | number (length : Nat)
  | nothing
deriving DecidableEq, Repr

def serve (o : Object) (made : Env × Call) : Except Fault (Reply × Object) :=
  let env := made.1
  match made.2 with
  | .set field value => do
    let (update, o) ← hashTypeSet type env o field value
    return (.updated update, o)
  | .delete field => do
    let (deleted, o) ← hashTypeDelete type env o field
    return (.deleted deleted, o)
  | .getValue field => do
    let (value, o) ← hashTypeGetValue type env o field
    return (.value (value.map Ziplist.Value.bytes), o)
  | .exists_ field => do
    let (found, o) ← hashTypeExists type env o field
    return (.found found, o)
  | .getValueLength field => do
    let (length, o) ← hashTypeGetValueLength type env o field
    return (.number length, o)
  | .length => do
    let (length, o) ← hashTypeLength o
    return (.number length, o)
  | .tryConversion argv => do
    let o ← hashTypeTryConversion type env o argv
    return (.nothing, o)

end LearningNotes.Hash
