import LearningNotes.Lib.Maps
import LearningNotes.Zset.SkipRefinement
import LearningNotes.Ziplist.Refinement

/-! Sorted sets as objects: the ziplist encoding, the skiplist encoding, and the functions on both. -/

namespace LearningNotes.ZsetObject

open Lib Util LearningNotes.Zset

/-- How scores are written and read. -/
structure ScoreFormat (S : Type) where
  d2string : S → Bytes
  zzlGetScore : Bytes → S
  inverse : ∀ score, zzlGetScore (d2string score) = score

inductive Encoding where
  | ziplist
  | skiplist
deriving DecidableEq, Repr

/-- The values of the dict point to the scores in the skiplist. -/
structure Zset (S : Type) where
  dict : Bytes → Option Addr
  zsl : Zskiplist S

/-- A ziplist is given by the strings it holds. -/
inductive Object (S : Type) where
  | ziplist (zl : List Bytes)
  | skiplist (zs : Zset S)

variable {S : Type}

section Zzl

/-- A pointer that does not lead into the ziplist is a fault. -/
def ziplistCall (zl : List Bytes) (call : Ziplist.Call) : Except Fault (List Bytes) :=
  if Ziplist.ValidCall zl call then .ok (Ziplist.listCall zl call) else .error .badPointer

/-- The entry at an index, from the end if negative. -/
def ziplistAt (zl : List Bytes) (index : Int) : Option Bytes :=
  (Ziplist.position zl.length index).bind fun i => zl[i]?

/-- The loop over the pairs, up to the first that passes the test. -/
def zzlScan (test : Bytes → Bytes → Bool) :
    List Bytes → Nat → Except Fault (Option (Nat × Bytes × Bytes))
  | [], _ => .ok none
  | [_], _ => .error .assertFailed
  | ele :: score :: rest, eptr =>
    if test ele score then .ok (some (eptr, ele, score)) else zzlScan test rest (eptr + 2)

variable (format : ScoreFormat S)

def zzlFind (zl : List Bytes) (ele : Bytes) : Except Fault (Option (Nat × S)) := do
  match ← zzlScan (fun other _ => other == ele) zl 0 with
  | none => return none
  | some (eptr, _, score) => return some (eptr, format.zzlGetScore score)

def zzlDelete (zl : List Bytes) (eptr : Nat) : Except Fault (List Bytes) := do
  let zl ← ziplistCall zl (.delete eptr)
  ziplistCall zl (.delete eptr)

def zzlInsertAt (zl : List Bytes) (eptr : Option Nat) (ele : Bytes) (score : S) :
    Except Fault (List Bytes) :=
  match eptr with
  | none => do
    let zl ← ziplistCall zl (.push ele .tail)
    ziplistCall zl (.push (format.d2string score) .tail)
  | some eptr => do
    let zl ← ziplistCall zl (.insert eptr ele)
    if eptr + 1 < zl.length then ziplistCall zl (.insert (eptr + 1) (format.d2string score))
    else .error .assertFailed

variable [LinearOrder S]

def zzlInsert (zl : List Bytes) (ele : Bytes) (score : S) : Except Fault (List Bytes) := do
  let found ← zzlScan (fun other s =>
    decide (format.zzlGetScore s > score) ||
      (decide (format.zzlGetScore s = score) && sdscmp other ele == .gt)) zl 0
  zzlInsertAt format zl (found.map Prod.fst) ele score

def zzlLength (zl : List Bytes) : Nat := zl.length / 2

def zzlIsInRange (zl : List Bytes) (range : RangeSpec S) : Except Fault Bool :=
  if range.min > range.max ∨ (range.min = range.max ∧ (range.minex ∨ range.maxex)) then .ok false
  else
    match ziplistAt zl (-1) with
    | none => .ok false
    | some last =>
      if !zslValueGteMin (format.zzlGetScore last) range then .ok false
      else
        match ziplistAt zl 1 with
        | none => .error .assertFailed
        | some first => .ok (zslValueLteMax (format.zzlGetScore first) range)

def zzlFirstInRange (zl : List Bytes) (range : RangeSpec S) : Except Fault (Option Nat) := do
  if ← zzlIsInRange format zl range then
    match ← zzlScan (fun _ s => zslValueGteMin (format.zzlGetScore s) range) zl 0 with
    | none => return none
    | some (eptr, _, score) =>
      return if zslValueLteMax (format.zzlGetScore score) range then some eptr else none
  else return none

/-- Delete pairs at a place while they pass the test. -/
def zzlDeleteWhile (test : Bytes → Bytes → Bool) (eptr : Nat) :
    Nat → List Bytes → Nat → Except Fault (Nat × List Bytes)
  | 0, _, _ => .error .noProgress
  | fuel + 1, zl, num =>
    match zl.drop eptr with
    | ele :: score :: _ =>
      if test ele score then do
        let zl ← ziplistCall zl (.delete eptr)
        let zl ← ziplistCall zl (.delete eptr)
        zzlDeleteWhile test eptr fuel zl (num + 1)
      else .ok (num, zl)
    | _ => .ok (num, zl)

/-- Delete from the first pair in the range on, if there is one. -/
def zzlDeleteFrom (test : Bytes → Bytes → Bool) (zl : List Bytes) :
    Option Nat → Except Fault (Nat × List Bytes)
  | none => .ok (0, zl)
  | some eptr => zzlDeleteWhile test eptr (zl.length + 1) zl 0

def zzlDeleteRangeByScore (zl : List Bytes) (range : RangeSpec S) :
    Except Fault (Nat × List Bytes) := do
  let eptr ← zzlFirstInRange format zl range
  zzlDeleteFrom (fun _ s => zslValueLteMax (format.zzlGetScore s) range) zl eptr

def zzlIsInLexRange (zl : List Bytes) (range : LexRangeSpec) : Except Fault Bool :=
  let cmp := sdscmplexBounds range.min range.max
  if cmp = .gt ∨ (cmp = .eq ∧ (range.minex ∨ range.maxex)) then .ok false
  else
    match ziplistAt zl (-2) with
    | none => .ok false
    | some last =>
      if !zslLexValueGteMin last range then .ok false
      else
        match ziplistAt zl 0 with
        | none => .error .assertFailed
        | some first => .ok (zslLexValueLteMax first range)

def zzlFirstInLexRange (zl : List Bytes) (range : LexRangeSpec) : Except Fault (Option Nat) := do
  if ← zzlIsInLexRange zl range then
    match ← zzlScan (fun ele _ => zslLexValueGteMin ele range) zl 0 with
    | none => return none
    | some (eptr, ele, _) => return if zslLexValueLteMax ele range then some eptr else none
  else return none

def zzlDeleteRangeByLex (zl : List Bytes) (range : LexRangeSpec) :
    Except Fault (Nat × List Bytes) := do
  let eptr ← zzlFirstInLexRange zl range
  zzlDeleteFrom (fun ele _ => zslLexValueLteMax ele range) zl eptr

/-- All arithmetic is on `unsigned int`. -/
def zzlDeleteRangeByRank (zl : List Bytes) (start stop : Nat) : Except Fault (Nat × List Bytes) := do
  let num := wrapAdd 32 (wrapSub 32 stop start) 1
  let index := toInt32 (2 * wrapSub 32 start 1 % 2 ^ 32 : Nat)
  let zl ← ziplistCall zl (.deleteRange index (2 * num % 2 ^ 32))
  return (num, zl)

end Zzl

section Api

/-- The limits for a ziplist; `safeToAdd` is `ziplistSafeToAdd`. -/
structure Limits where
  zsetMaxZiplistEntries : Nat
  zsetMaxZiplistValue : Nat
  safeToAdd : List Bytes → Nat → Bool

variable (format : ScoreFormat S) [LinearOrder S]

/-- The loop of `zsetConvert` to a skiplist and a dict. -/
def fillSkiplist (levels : Nat → RandomLevel) : List Bytes → Nat → Zset S → Except Fault (Zset S)
  | [], _, zs => .ok zs
  | [_], _, _ => .error .assertFailed
  | ele :: score :: rest, n, zs => do
    let (node, zsl) ← zslInsert zs.zsl (format.zzlGetScore score) ele (levels n)
    -- `dictAdd` must not find the element.
    if (zs.dict ele).isSome then .error .assertFailed
    else fillSkiplist levels rest (n + 1) ⟨insertKey zs.dict ele node, zsl⟩

/-- The loop of `zsetConvert` to a ziplist. -/
def fillZiplist (zsl : Zskiplist S) : Nat → Option Addr → List Bytes → Except Fault (List Bytes)
  | 0, _, _ => .error .noProgress
  | _ + 1, none, zl => .ok zl
  | fuel + 1, some x, zl => do
    let node ← zsl.deref x
    let ele ← node.string
    let zl ← zzlInsertAt format zl none ele node.score
    let bottom ← zsl.levelOf x 0
    fillZiplist zsl fuel bottom.forward zl

/-- The levels are those of the nodes it creates. -/
def zsetConvert [Zero S] (zobj : Object S) (encoding : Encoding) (levels : Nat → RandomLevel) :
    Except Fault (Object S) :=
  match zobj, encoding with
  | .ziplist zl, .skiplist => do
    let zs ← fillSkiplist format levels zl 0 ⟨fun _ => none, zslCreate⟩
    return .skiplist zs
  | .skiplist zs, .ziplist => do
    let bottom ← zs.zsl.levelOf zs.zsl.header 0
    let zl ← fillZiplist format zs.zsl (zs.zsl.length + 1) bottom.forward []
    return .ziplist zl
  | zobj, _ => .ok zobj

/-- The input flags of `zsetAdd`. -/
structure InFlags where
  incr : Bool
  nx : Bool
  xx : Bool
  gt : Bool
  lt : Bool
deriving DecidableEq, Repr

/-- The output flags of `zsetAdd`; scores are never NaN. -/
structure OutFlags where
  nop : Bool
  added : Bool
  updated : Bool
deriving DecidableEq, Repr

/-- The code, the flags, and the new score if it was stored. -/
structure AddReply (S : Type) where
  code : Nat
  flags : OutFlags
  newscore : Option S
deriving DecidableEq, Repr

/-- `NX`, `XX`, `GT` or `LT` kept the call from doing anything. -/
def AddReply.nop : AddReply S := ⟨1, ⟨true, false, false⟩, none⟩

def AddReply.added (score : S) : AddReply S := ⟨1, ⟨false, true, false⟩, some score⟩

/-- The score has changed or is the same. -/
def AddReply.updated (score curscore : S) : AddReply S :=
  ⟨1, ⟨false, false, decide (score ≠ curscore)⟩, some score⟩

/-- The score of an existing element, unless a flag prevents it. -/
def scoreOutcome [Add S] (flags : InFlags) (score curscore : S) : Option S :=
  if flags.nx then none
  else
    let score := if flags.incr then score + curscore else score
    if (flags.lt && decide (score ≥ curscore)) || (flags.gt && decide (score ≤ curscore)) then none
    else some score

def dictScore (zs : Zset S) (x : Addr) : Except Fault S := do
  let node ← zs.zsl.deref x
  return node.score

/-- The part of `zsetAdd` for the skiplist encoding. -/
def zsetAddSkiplist [Add S] (zs : Zset S) (score : S) (ele : Bytes) (flags : InFlags)
    (level : RandomLevel) : Except Fault (AddReply S × Object S) :=
  match zs.dict ele with
  | some x => do
    let curscore ← dictScore zs x
    match scoreOutcome flags score curscore with
    | none => return (.nop, .skiplist zs)
    | some score =>
      if score ≠ curscore then do
        let (znode, zsl) ← zslUpdateScore zs.zsl curscore ele score level
        return (.updated score curscore, .skiplist ⟨insertKey zs.dict ele znode, zsl⟩)
      else return (.updated score curscore, .skiplist zs)
  | none =>
    if !flags.xx then do
      let (znode, zsl) ← zslInsert zs.zsl score ele level
      return (.added score, .skiplist ⟨insertKey zs.dict ele znode, zsl⟩)
    else return (.nop, .skiplist zs)

def zsetAdd [Zero S] [Add S] (limits : Limits) (zobj : Object S) (score : S) (ele : Bytes)
    (flags : InFlags) (level : RandomLevel) (levels : Nat → RandomLevel) :
    Except Fault (AddReply S × Object S) :=
  match zobj with
  | .ziplist zl => do
    match ← zzlFind format zl ele with
    | some (eptr, curscore) =>
      match scoreOutcome flags score curscore with
      | none => return (.nop, .ziplist zl)
      | some score =>
        if score ≠ curscore then do
          let zl ← zzlDelete zl eptr
          let zl ← zzlInsert format zl ele score
          return (.updated score curscore, .ziplist zl)
        else return (.updated score curscore, .ziplist zl)
    | none =>
      if !flags.xx then
        if zzlLength zl + 1 > limits.zsetMaxZiplistEntries ∨
            ele.length > limits.zsetMaxZiplistValue ∨ !limits.safeToAdd zl ele.length then do
          match ← zsetConvert format (.ziplist zl) .skiplist levels with
          | .skiplist zs => zsetAddSkiplist zs score ele flags level
          | .ziplist _ => .error .assertFailed
        else do
          let zl ← zzlInsert format zl ele score
          return (.added score, .ziplist zl)
      else return (.nop, .ziplist zl)
  | .skiplist zs => zsetAddSkiplist zs score ele flags level

/-- The dict is resized without a change to what it holds. -/
def zsetDel (zobj : Object S) (ele : Bytes) : Except Fault (Bool × Object S) :=
  match zobj with
  | .ziplist zl => do
    match ← zzlFind format zl ele with
    | some (eptr, _) => do
      let zl ← zzlDelete zl eptr
      return (true, .ziplist zl)
    | none => return (false, .ziplist zl)
  | .skiplist zs =>
    match zs.dict ele with
    | some x => do
      let score ← dictScore zs x
      let (retval, zsl) ← zslDelete zs.zsl score ele
      if retval then return (true, .skiplist ⟨eraseKey zs.dict ele, zsl⟩)
      else .error .assertFailed
    | none => return (false, .skiplist zs)

def zsetScore (zobj : Object S) (member : Bytes) : Except Fault (Option S) :=
  match zobj with
  | .ziplist zl => do
    let found ← zzlFind format zl member
    return found.map Prod.snd
  | .skiplist zs =>
    match zs.dict member with
    | none => .ok none
    | some x => do
      let score ← dictScore zs x
      return some score

def zsetLength : Object S → Nat
  | .ziplist zl => zzlLength zl
  | .skiplist zs => zs.zsl.length

def zsetRank (zobj : Object S) (ele : Bytes) (reverse : Bool) : Except Fault Int :=
  let llen := zsetLength zobj
  match zobj with
  | .ziplist zl =>
    match zl with
    | _ :: _ :: _ => do
      match ← zzlScan (fun other _ => other == ele) zl 0 with
      | none => return -1
      | some (eptr, _) =>
        let rank := eptr / 2 + 1
        return if reverse then (llen : Int) - rank else (rank : Int) - 1
    -- There must be an element and its score.
    | _ => .error .assertFailed
  | .skiplist zs =>
    match zs.dict ele with
    | none => .ok (-1)
    | some x => do
      let score ← dictScore zs x
      let rank ← zslGetRank zs.zsl score ele
      if rank ≠ 0 then return if reverse then (llen : Int) - rank else (rank : Int) - 1
      else .error .assertFailed

def forget (dict : Bytes → Option Addr) (elements : List Bytes) : Bytes → Option Addr :=
  elements.foldl eraseKey dict

def deleteRange (zobj : Object S) (ziplist : List Bytes → Except Fault (Nat × List Bytes))
    (skiplist : Zskiplist S → Except Fault (List Bytes × Zskiplist S)) :
    Except Fault (Nat × Object S) :=
  match zobj with
  | .ziplist zl => do
    let (deleted, zl) ← ziplist zl
    return (deleted, .ziplist zl)
  | .skiplist zs => do
    let (elements, zsl) ← skiplist zs.zsl
    return (elements.length, .skiplist ⟨forget zs.dict elements, zsl⟩)

/-- `zzlDeleteRangeByScore` or `zslDeleteRangeByScore`. -/
def deleteRangeByScore (zobj : Object S) (range : RangeSpec S) : Except Fault (Nat × Object S) :=
  deleteRange zobj (zzlDeleteRangeByScore format · range) (zslDeleteRangeByScore · range)

/-- `zzlDeleteRangeByLex` or `zslDeleteRangeByLex`. -/
def deleteRangeByLex (zobj : Object S) (range : LexRangeSpec) : Except Fault (Nat × Object S) :=
  deleteRange zobj (zzlDeleteRangeByLex · range) (zslDeleteRangeByLex · range)

/-- `zzlDeleteRangeByRank` or `zslDeleteRangeByRank`. -/
def deleteRangeByRank (zobj : Object S) (start stop : Nat) : Except Fault (Nat × Object S) :=
  deleteRange zobj (zzlDeleteRangeByRank · start stop) (zslDeleteRangeByRank · start stop)

end Api

end LearningNotes.ZsetObject
