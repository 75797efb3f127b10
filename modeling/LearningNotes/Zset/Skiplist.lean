import LearningNotes.Lib.Word
import LearningNotes.Util.Sds

/-! The skiplist of `t_zset.c` with its nodes in a heap. -/

namespace LearningNotes.Zset

open Lib Util

/-- The address of a node; a null pointer is none. -/
abbrev Addr := Nat

def zskiplistMaxlevel : Nat := 32

/-- What a run of the code can die of. -/
inductive Fault where
  | assertFailed
  | badPointer
  | outOfBounds
  | noProgress
deriving DecidableEq, Repr

structure Level where
  forward : Option Addr
  span : Nat
deriving DecidableEq, Repr

/-- `zskiplistNode`; only the header has no element. -/
structure Node (S : Type) where
  ele : Option Bytes
  score : S
  backward : Option Addr
  level : List Level
deriving DecidableEq, Repr

/-- `zskiplist`, with the memory it leads into. -/
structure Zskiplist (S : Type) where
  heap : Addr → Option (Node S)
  -- Every address from here on is unused.
  brk : Addr
  header : Addr
  tail : Option Addr
  length : Nat
  level : Nat

variable {S : Type}

namespace Zskiplist

def deref (zsl : Zskiplist S) (x : Addr) : Except Fault (Node S) :=
  match zsl.heap x with
  | none => .error .badPointer
  | some node => .ok node

def levelOf (zsl : Zskiplist S) (x : Addr) (i : Nat) : Except Fault Level := do
  let node ← zsl.deref x
  match node.level[i]? with
  | none => .error .outOfBounds
  | some level => .ok level

def store (zsl : Zskiplist S) (x : Addr) (node : Node S) : Zskiplist S :=
  { zsl with heap := fun a => if a = x then some node else zsl.heap a }

def setLevel (zsl : Zskiplist S) (x : Addr) (i : Nat) (level : Level) :
    Except Fault (Zskiplist S) := do
  let node ← zsl.deref x
  if i < node.level.length then
    return zsl.store x { node with level := node.level.set i level }
  else .error .outOfBounds

def setBackward (zsl : Zskiplist S) (x : Addr) (backward : Option Addr) :
    Except Fault (Zskiplist S) := do
  let node ← zsl.deref x
  return zsl.store x { node with backward := backward }

def zslFreeNode (zsl : Zskiplist S) (x : Addr) : Zskiplist S :=
  { zsl with heap := fun a => if a = x then none else zsl.heap a }

end Zskiplist

def zslCreate [Zero S] : Zskiplist S where
  heap := fun a =>
    if a = 0 then some ⟨none, 0, none, List.replicate zskiplistMaxlevel ⟨none, 0⟩⟩ else none
  brk := 1
  header := 0
  tail := none
  length := 0
  level := 1

/-- How far a search goes, by the next node and its rank. -/
abbrev Condition (S : Type) := Node S → Nat → Except Fault Bool

/-- Go forward on one level while the condition holds. -/
def seekLevel (zsl : Zskiplist S) (wrap : Nat → Nat) (condition : Condition S) (i : Nat) :
    Nat → Addr → Nat → Except Fault (Addr × Nat)
  | 0, _, _ => .error .noProgress
  | fuel + 1, x, traversed => do
    let level ← zsl.levelOf x i
    match level.forward with
    | none => return (x, traversed)
    | some forward =>
      let node ← zsl.deref forward
      let reached := wrap (traversed + level.span)
      let further ← condition node reached
      if further then seekLevel zsl wrap condition i fuel forward reached
      else return (x, traversed)

/-- From the top level down: `update[]` and `rank[]`. -/
def seek (zsl : Zskiplist S) (wrap : Nat → Nat) (condition : Condition S) :
    Nat → Addr → Nat → Except Fault (List (Addr × Nat))
  | 0, _, _ => .ok []
  | i + 1, x, traversed => do
    let (x, traversed) ← seekLevel zsl wrap condition i (zsl.length + 1) x traversed
    let below ← seek zsl wrap condition i x traversed
    return below ++ [(x, traversed)]

def search (zsl : Zskiplist S) (wrap : Nat → Nat) (condition : Condition S) :
    Except Fault (List (Addr × Nat)) :=
  seek zsl wrap condition zsl.level zsl.header 0

/-- The element of a node that is compared with a string. -/
def Node.string (node : Node S) : Except Fault Bytes :=
  match node.ele with
  | none => .error .badPointer
  | some ele => .ok ele

variable [LinearOrder S]

/-- The next node comes before the score and element. -/
def comesBefore (score : S) (ele : Bytes) : Condition S := fun next _ =>
  if next.score < score then .ok true
  else if next.score = score then do
    let other ← next.string
    return sdscmp other ele == .lt
  else .ok false

def updateAt (update : List (Addr × Nat)) (i : Nat) : Except Fault (Addr × Nat) :=
  match update[i]? with
  | none => .error .outOfBounds
  | some entry => .ok entry

/-- Open levels, which span the whole list. -/
def raiseLevels : Nat → Zskiplist S → List (Addr × Nat) →
    Except Fault (Zskiplist S × List (Addr × Nat))
  | 0, zsl, update => .ok (zsl, update)
  | count + 1, zsl, update => do
    let i := update.length
    let level ← zsl.levelOf zsl.header i
    let zsl ← zsl.setLevel zsl.header i { level with span := zsl.length }
    raiseLevels count zsl (update ++ [(zsl.header, 0)])

/-- Link the new node in; its own levels are collected. -/
def linkLevels (x : Addr) (update : List (Addr × Nat)) (rank : Nat) :
    Nat → Nat → Zskiplist S → List Level → Except Fault (Zskiplist S × List Level)
  | 0, _, zsl, levels => .ok (zsl, levels)
  | count + 1, i, zsl, levels => do
    let (u, crossed) ← updateAt update i
    let level ← zsl.levelOf u i
    -- The ranks are of type `unsigned int`, and so are their differences.
    let distance := wrapSub 32 rank crossed
    let zsl ← zsl.setLevel u i ⟨some x, wrapAdd 32 distance 1⟩
    linkLevels x update rank count (i + 1) zsl
      (levels ++ [⟨level.forward, wrapSub 64 level.span distance⟩])

/-- Increment the spans above the new node. -/
def growSpans (update : List (Addr × Nat)) : Nat → Nat → Zskiplist S → Except Fault (Zskiplist S)
  | 0, _, zsl => .ok zsl
  | count + 1, i, zsl => do
    let (u, _) ← updateAt update i
    let level ← zsl.levelOf u i
    let zsl ← zsl.setLevel u i { level with span := wrapAdd 64 level.span 1 }
    growSpans update count (i + 1) zsl

/-- Let the node after a changed place, or the list, point back. -/
def pointBack (zsl : Zskiplist S) (next backward : Option Addr) : Except Fault (Zskiplist S) :=
  match next with
  | some next => zsl.setBackward next backward
  | none => .ok { zsl with tail := backward }

/-- The level is what `zslRandomLevel` returned. -/
def zslInsert (zsl : Zskiplist S) (score : S) (ele : Bytes) (level : Nat) :
    Except Fault (Addr × Zskiplist S) := do
  let update ← search zsl (· % 2 ^ 32) (comesBefore score ele)
  let top := zsl.level
  let (zsl, update) ← raiseLevels (level - top) zsl update
  let zsl := { zsl with level := max top level }
  let x := zsl.brk
  let (u, rank) ← updateAt update 0
  let (zsl, levels) ← linkLevels x update rank level 0 zsl []
  let zsl ← growSpans update (zsl.level - level) level zsl
  let backward := if u = zsl.header then none else some u
  let next := (levels[0]?).bind Level.forward
  let zsl := { zsl.store x ⟨some ele, score, backward, levels⟩ with brk := x + 1 }
  let zsl ← pointBack zsl next (some x)
  return (x, { zsl with length := wrapAdd 64 zsl.length 1 })

/-- Unlink a node and shorten the spans of the other levels. -/
def unlinkLevels (x : Addr) (update : List (Addr × Nat)) :
    Nat → Nat → Zskiplist S → Except Fault (Zskiplist S)
  | 0, _, zsl => .ok zsl
  | count + 1, i, zsl => do
    let (u, _) ← updateAt update i
    let level ← zsl.levelOf u i
    let zsl ← (if level.forward = some x then do
        let own ← zsl.levelOf x i
        zsl.setLevel u i ⟨own.forward, wrapAdd 64 level.span (wrapSub 64 own.span 1)⟩
      else
        zsl.setLevel u i { level with span := wrapSub 64 level.span 1 })
    unlinkLevels x update count (i + 1) zsl

/-- Give up the levels that have become empty. -/
def lowerLevel (header : Node S) : Nat → Except Fault Nat
  | 0 => .ok 0
  | level + 1 =>
    if level = 0 then .ok 1
    else
      match header.level[level]? with
      | none => .error .outOfBounds
      | some top => if top.forward = none then lowerLevel header level else .ok (level + 1)

def zslDeleteNode (zsl : Zskiplist S) (x : Addr) (update : List (Addr × Nat)) :
    Except Fault (Zskiplist S) := do
  let zsl ← unlinkLevels x update zsl.level 0 zsl
  let node ← zsl.deref x
  let bottom ← zsl.levelOf x 0
  let zsl ← pointBack zsl bottom.forward node.backward
  let header ← zsl.deref zsl.header
  let level ← lowerLevel header zsl.level
  return { zsl with level := level, length := wrapSub 64 zsl.length 1 }

/-- The node behind the place a search ended at. -/
def nextOf (zsl : Zskiplist S) (update : List (Addr × Nat)) : Except Fault (Option Addr) := do
  let (u, _) ← updateAt update 0
  let level ← zsl.levelOf u 0
  return level.forward

/-- Whether a pointer leads to the node with the score and element. -/
def isNodeOf (zsl : Zskiplist S) (x : Option Addr) (score : S) (ele : Bytes) :
    Except Fault (Option (Addr × Node S)) :=
  match x with
  | none => .ok none
  | some x => do
    let node ← zsl.deref x
    if score = node.score then
      let other ← node.string
      return if sdscmp other ele = .eq then some (x, node) else none
    else return none

/-- `zslDelete`; the node is freed. -/
def zslDelete (zsl : Zskiplist S) (score : S) (ele : Bytes) : Except Fault (Bool × Zskiplist S) := do
  let update ← search zsl id (comesBefore score ele)
  let x ← nextOf zsl update
  match ← isNodeOf zsl x score ele with
  | some (x, _) =>
    let zsl ← zslDeleteNode zsl x update
    return (true, zsl.zslFreeNode x)
  | none => return (false, zsl)

/-- Compare the score of a neighbour. -/
def neighbour (zsl : Zskiplist S) (x : Option Addr) (test : S → Bool) : Except Fault Bool :=
  match x with
  | none => .ok true
  | some x => do
    let node ← zsl.deref x
    return test node.score

/-- The level is for a node that is created. -/
def zslUpdateScore (zsl : Zskiplist S) (curscore : S) (ele : Bytes) (newscore : S) (level : Nat) :
    Except Fault (Addr × Zskiplist S) := do
  let update ← search zsl id (comesBefore curscore ele)
  let next ← nextOf zsl update
  match ← isNodeOf zsl next curscore ele with
  | none => .error .assertFailed
  | some (x, node) =>
    let bottom ← zsl.levelOf x 0
    let left ← neighbour zsl node.backward (· < newscore)
    let right ← (if left then neighbour zsl bottom.forward (· > newscore) else .ok false)
    if right then
      return (x, zsl.store x { node with score := newscore })
    else
      let zsl ← zslDeleteNode zsl x update
      let string ← node.string
      let (newnode, zsl) ← zslInsert zsl newscore string level
      return (newnode, zsl.zslFreeNode x)

structure RangeSpec (S : Type) where
  min : S
  max : S
  minex : Bool
  maxex : Bool

def zslValueGteMin (value : S) (spec : RangeSpec S) : Bool :=
  if spec.minex then value > spec.min else value ≥ spec.min

def zslValueLteMax (value : S) (spec : RangeSpec S) : Bool :=
  if spec.maxex then value < spec.max else value ≤ spec.max

/-- A string, or one of the two shared ones. -/
inductive LexBound where
  | minstring
  | maxstring
  | sds (string : Bytes)
deriving DecidableEq, Repr

/-- The value is never one of the shared strings. -/
def sdscmplex (value : Bytes) : LexBound → Ordering
  | .maxstring => .lt
  | .minstring => .gt
  | .sds string => sdscmp value string

structure LexRangeSpec where
  min : LexBound
  max : LexBound
  minex : Bool
  maxex : Bool
deriving DecidableEq, Repr

def zslLexValueGteMin (value : Bytes) (spec : LexRangeSpec) : Bool :=
  if spec.minex then sdscmplex value spec.min == .gt else sdscmplex value spec.min != .lt

def zslLexValueLteMax (value : Bytes) (spec : LexRangeSpec) : Bool :=
  if spec.maxex then sdscmplex value spec.max == .lt else sdscmplex value spec.max != .gt

/-- Delete while the condition on the node holds. -/
def deleteWhile (condition : Condition S) (update : List (Addr × Nat)) :
    Nat → Option Addr → List Bytes → Zskiplist S → Except Fault (List Bytes × Zskiplist S)
  | 0, _, _, _ => .error .noProgress
  | _ + 1, none, deleted, zsl => .ok (deleted, zsl)
  | fuel + 1, some x, deleted, zsl => do
    let node ← zsl.deref x
    -- The condition may depend on how many nodes were deleted before this one.
    let further ← condition node deleted.length
    if further then
      let bottom ← zsl.levelOf x 0
      let zsl ← zslDeleteNode zsl x update
      let string ← node.string
      deleteWhile condition update fuel bottom.forward (deleted ++ [string]) (zsl.zslFreeNode x)
    else return (deleted, zsl)

/-- Search, then delete from there on. -/
def deleteRange (zsl : Zskiplist S) (wrap : Nat → Nat) (before : Condition S)
    (within : Nat → Condition S) : Except Fault (List Bytes × Zskiplist S) := do
  let update ← search zsl wrap before
  let (_, traversed) ← updateAt update 0
  let x ← nextOf zsl update
  deleteWhile (within traversed) update (zsl.length + 1) x [] zsl

/-- The elements are deleted from the dict too. -/
def zslDeleteRangeByScore (zsl : Zskiplist S) (range : RangeSpec S) :
    Except Fault (List Bytes × Zskiplist S) :=
  deleteRange zsl id (fun next _ => .ok !(zslValueGteMin next.score range))
    (fun _ x _ => .ok (zslValueLteMax x.score range))

def zslDeleteRangeByLex (zsl : Zskiplist S) (range : LexRangeSpec) :
    Except Fault (List Bytes × Zskiplist S) :=
  deleteRange zsl id
    (fun next _ => do
      let ele ← next.string
      return !(zslLexValueGteMin ele range))
    (fun _ x _ => do
      let ele ← x.string
      return zslLexValueLteMax ele range)

/-- `zslDeleteRangeByRank`; the ranks count from one. -/
def zslDeleteRangeByRank (zsl : Zskiplist S) (start stop : Nat) :
    Except Fault (List Bytes × Zskiplist S) :=
  deleteRange zsl (· % 2 ^ 64) (fun _ reached => .ok (decide (reached < start)))
    (fun traversed _ removed => .ok (decide (traversed + 1 + removed ≤ stop)))

/-- The next node does not come after the score and element. -/
def notBehind (score : S) (ele : Bytes) : Condition S := fun next _ =>
  if next.score < score then .ok true
  else if next.score = score then do
    let other ← next.string
    return sdscmp other ele != .gt
  else .ok false

def rankFrom (zsl : Zskiplist S) (score : S) (ele : Bytes) : Nat → Addr → Nat → Except Fault Nat
  | 0, _, _ => .ok 0
  | i + 1, x, rank => do
    let (x, rank) ← seekLevel zsl (· % 2 ^ 64) (notBehind score ele) i (zsl.length + 1) x rank
    let node ← zsl.deref x
    -- The header has no element.
    match node.ele with
    | none => rankFrom zsl score ele i x rank
    | some other => if sdscmp other ele = .eq then return rank else rankFrom zsl score ele i x rank

/-- `zslGetRank`; the ranks count from one. -/
def zslGetRank (zsl : Zskiplist S) (score : S) (ele : Bytes) : Except Fault Nat :=
  rankFrom zsl score ele zsl.level zsl.header 0

def elementFrom (zsl : Zskiplist S) (rank : Nat) : Nat → Addr → Nat → Except Fault (Option Addr)
  | 0, _, _ => .ok none
  | i + 1, x, traversed => do
    let (x, traversed) ← seekLevel zsl (· % 2 ^ 64) (fun _ reached => .ok (decide (reached ≤ rank)))
      i (zsl.length + 1) x traversed
    if traversed = rank then return some x else elementFrom zsl rank i x traversed

def zslGetElementByRank (zsl : Zskiplist S) (rank : Nat) : Except Fault (Option Addr) :=
  elementFrom zsl rank zsl.level zsl.header 0

/-- Whether the range is always empty, and the tests of its bounds. -/
structure RangeTests (S : Type) where
  empty : Bool
  gteMin : Node S → Except Fault Bool
  lteMax : Node S → Except Fault Bool

/-- What `zslIsInRange` and `zslIsInLexRange` share. -/
def RangeTests.isIn (tests : RangeTests S) (zsl : Zskiplist S) : Except Fault Bool := do
  if tests.empty then return false
  match zsl.tail with
  | none => return false
  | some x =>
    let last ← zsl.deref x
    if !(← tests.gteMin last) then return false
    let level ← zsl.levelOf zsl.header 0
    match level.forward with
    | none => return false
    | some x =>
      let first ← zsl.deref x
      tests.lteMax first

/-- What `zslFirstInRange` and `zslFirstInLexRange` share. -/
def RangeTests.first (tests : RangeTests S) (zsl : Zskiplist S) : Except Fault (Option Addr) := do
  if !(← tests.isIn zsl) then return none
  let update ← search zsl id fun next _ => do return !(← tests.gteMin next)
  match ← nextOf zsl update with
  | none => .error .assertFailed
  | some x =>
    let node ← zsl.deref x
    return if ← tests.lteMax node then some x else none

/-- What `zslLastInRange` and `zslLastInLexRange` share. -/
def RangeTests.last (tests : RangeTests S) (zsl : Zskiplist S) : Except Fault (Option Addr) := do
  if !(← tests.isIn zsl) then return none
  let update ← search zsl id fun next _ => tests.lteMax next
  let (x, _) ← updateAt update 0
  let node ← zsl.deref x
  return if ← tests.gteMin node then some x else none

def RangeSpec.tests (range : RangeSpec S) : RangeTests S where
  empty := range.min > range.max ∨ (range.min = range.max ∧ (range.minex ∨ range.maxex))
  gteMin := fun x => .ok (zslValueGteMin x.score range)
  lteMax := fun x => .ok (zslValueLteMax x.score range)

/-- Both bounds may be shared strings. -/
def sdscmplexBounds (a b : LexBound) : Ordering :=
  if a = b then .eq
  else if a = .minstring ∨ b = .maxstring then .lt
  else if a = .maxstring ∨ b = .minstring then .gt
  else
    match a with
    | .sds string => sdscmplex string b
    | _ => .eq

def LexRangeSpec.tests (range : LexRangeSpec) : RangeTests S where
  empty :=
    let cmp := sdscmplexBounds range.min range.max
    cmp = .gt ∨ (cmp = .eq ∧ (range.minex ∨ range.maxex))
  gteMin := fun x => do return zslLexValueGteMin (← x.string) range
  lteMax := fun x => do return zslLexValueLteMax (← x.string) range

def zslIsInRange (zsl : Zskiplist S) (range : RangeSpec S) := range.tests.isIn zsl
def zslFirstInRange (zsl : Zskiplist S) (range : RangeSpec S) := range.tests.first zsl
def zslLastInRange (zsl : Zskiplist S) (range : RangeSpec S) := range.tests.last zsl
def zslIsInLexRange (zsl : Zskiplist S) (range : LexRangeSpec) := range.tests.isIn zsl
def zslFirstInLexRange (zsl : Zskiplist S) (range : LexRangeSpec) := range.tests.first zsl
def zslLastInLexRange (zsl : Zskiplist S) (range : LexRangeSpec) := range.tests.last zsl

end LearningNotes.Zset
