import LearningNotes.Lib.Bytes

/-! The radix tree of `rax.c`: nodes, the walk along a key, insertion, lookup and removal. -/

namespace LearningNotes.Rax

open Lib

variable {V : Type}

/-- `RAX_NODE_MAX_SIZE`, the largest number of 29 bits. -/
def raxNodeMaxSize : Nat := 2 ^ 29 - 1

/-- What a run can die of; allocation never fails. -/
inductive Fault where
  | assertFailed
  | outOfBounds
  | noProgress
deriving DecidableEq, Repr

/-- The fields of a `raxNode`, and its value pointer. -/
structure Header (V : Type) where
  iskey : Bool
  isnull : Bool
  iscompr : Bool
  -- The size field of the source is the length of this array.
  data : Bytes
  aux : Option V
deriving DecidableEq, Repr

def Header.size (n : Header V) : Nat := n.data.length

def Header.withEdges (n : Header V) (data : Bytes) : Header V := { n with data := data }

/-- A `raxNode` with its children. -/
inductive Node (V : Type) where
  | mk (header : Header V) (children : List (Node V))
deriving Repr

end LearningNotes.Rax

/-- The radix tree: `struct rax`. -/
structure LearningNotes.Rax (V : Type) where
  head : LearningNotes.Rax.Node V
  numele : Nat
  numnodes : Nat

namespace LearningNotes.Rax

open Lib

variable {V : Type}

def Node.header : Node V → Header V
  | .mk header _ => header

def Node.children : Node V → List (Node V)
  | .mk _ children => children

/-- What `raxNewNode` sets up; the caller fills in the edges. -/
def raxNewNode (data : Bytes) : Header V := ⟨false, false, false, data, none⟩

def leaf : Node V := .mk (raxNewNode []) []

/-- Set the data of a node, where `none` is `NULL`. -/
def raxSetData (n : Header V) : Option V → Header V
  | some data => { n with iskey := true, isnull := false, aux := some data }
  | none => { n with iskey := true, isnull := true }

def raxGetData (n : Header V) : Option V :=
  if n.isnull then none else n.aux

/-- Hand the value of a key on: `if (h->iskey) raxSetData(…)`. -/
def Header.keyedAs (other h : Header V) : Header V :=
  if h.iskey then raxSetData other (raxGetData h) else other

/-- A node with a slot that `parentlink` points into. -/
structure Frame (V : Type) where
  header : Header V
  before : List (Node V)
  after : List (Node V)

def Frame.fill (frame : Frame V) (child : Node V) : Node V :=
  .mk frame.header (frame.before ++ child :: frame.after)

def plug : List (Frame V) → Node V → Node V
  | [], node => node
  | frame :: path, node => plug path (frame.fill node)

def Node.descend (h : Node V) (j : Nat) : Except Fault (Frame V × Node V) :=
  match h.children[j]? with
  | none => .error .outOfBounds
  | some child => .ok (⟨h.header, h.children.take j, h.children.drop (j + 1)⟩, child)

def raxNodeLastChild (h : Node V) : Except Fault (Node V) :=
  match h.children.getLast? with
  | none => .error .outOfBounds
  | some child => .ok child

/-- Add a child for the character and return its slot. -/
def raxAddChild (n : Node V) (c : UInt8) : Except Fault (Frame V × Node V) :=
  if n.header.iscompr then .error .assertFailed
  else
    -- The first edge that is greater than the new one is where the new one goes.
    let pos := n.header.data.findIdx (c < ·)
    let data := n.header.data.take pos ++ c :: n.header.data.drop pos
    .ok (⟨n.header.withEdges data, n.children.take pos, n.children.drop pos⟩, leaf)

/-- Turn a node without children into a compressed one. -/
def raxCompressNode (n : Node V) (s : Bytes) : Except Fault (Frame V × Node V) :=
  if n.header.size ≠ 0 ∨ n.header.iscompr then .error .assertFailed
  else
    let newn := { n.header with iscompr := true, data := s }
    .ok (⟨newn.keyedAs n.header, [], []⟩, leaf)

/-- Where `raxLowWalk` stopped, and what is left of the key. -/
structure Walk (V : Type) where
  stopnode : Node V
  path : List (Frame V)
  splitpos : Nat
  rest : Bytes

/-- How many characters of a compressed node the key agrees with. -/
def matchLength : Bytes → Bytes → Nat
  | v :: vs, c :: s => if v = c then matchLength vs s + 1 else 0
  | _, _ => 0

def lowWalkFrom : Nat → Node V → List (Frame V) → Bytes → Except Fault (Walk V)
  | 0, _, _, _ => .error .noProgress
  | _ + 1, h, path, [] => .ok ⟨h, path, 0, []⟩
  | fuel + 1, h, path, c :: s =>
    if h.header.size = 0 then .ok ⟨h, path, 0, c :: s⟩
    else if h.header.iscompr then
      let j := matchLength h.header.data (c :: s)
      if j ≠ h.header.size then .ok ⟨h, path, j, (c :: s).drop j⟩
      else do
        let (frame, child) ← h.descend 0
        lowWalkFrom fuel child (frame :: path) ((c :: s).drop j)
    else
      let j := h.header.data.idxOf c
      -- The split position is only handed out for a compressed node.
      if j = h.header.size then .ok ⟨h, path, 0, c :: s⟩
      else do
        let (frame, child) ← h.descend j
        lowWalkFrom fuel child (frame :: path) s

/-- Walk down along the key; every step reads a character of it. -/
def raxLowWalk (head : Node V) (s : Bytes) : Except Fault (Walk V) :=
  lowWalkFrom (s.length + 1) head [] s

/-- The key ends exactly at the stop node. -/
def Walk.arrived (walk : Walk V) : Bool :=
  walk.rest.isEmpty && (!walk.stopnode.header.iscompr || walk.splitpos == 0)

def raxNew : Rax V := ⟨leaf, 0, 1⟩

/-- A place in a tree that is changed, with the nodes counted. -/
structure Place (V : Type) where
  path : List (Frame V)
  node : Node V
  numnodes : Nat

/-- The node a split leaves above: `j` characters, with the old key. -/
def trimmedNode (h : Header V) (j : Nat) : Header V :=
  let trimmed : Header V := ⟨h.iskey, h.isnull, decide (j > 1), h.data.take j, none⟩
  if h.iskey && !h.isnull then raxSetData trimmed (raxGetData h) else trimmed

/-- The node with the characters after the split one. -/
def postfixNode (chars : Bytes) (next : Node V) : Node V :=
  if chars.length = 0 then next
  else .mk ⟨false, false, decide (chars.length > 1), chars, none⟩ [next]

/-- Algorithm 1 of `raxGenericInsert`: the key differs from a compressed node. -/
def splitMismatch (h : Node V) (path : List (Frame V)) (j numnodes : Nat) :
    Except Fault (Place V) := do
  let next ← raxNodeLastChild h
  let c ← (match h.header.data[j]? with
    | none => .error .outOfBounds
    | some c => .ok c)
  let chars := h.header.data.drop (j + 1)
  let splitchild := postfixNode chars next
  let numnodes := if chars.length = 0 then numnodes else numnodes + 1
  if j = 0 then
    -- The split node takes the place of the old node, together with its key.
    return ⟨path, .mk ((raxNewNode [c]).keyedAs h.header) [splitchild], numnodes⟩
  else
    let frame : Frame V := ⟨trimmedNode h.header j, [], []⟩
    return ⟨frame :: path, .mk (raxNewNode [c]) [splitchild], numnodes + 1⟩

/-- Algorithm 2 of `raxGenericInsert`: the key ends inside a compressed node. -/
def splitEnd (h : Node V) (j : Nat) (data : Option V) : Except Fault (Node V) := do
  let next ← raxNodeLastChild h
  let chars := h.header.data.drop j
  let below : Header V := raxSetData ⟨true, false, decide (chars.length > 1), chars, none⟩ data
  let trimmed : Header V := ⟨false, false, decide (j > 1), h.header.data.take j, none⟩
  return .mk (trimmed.keyedAs h.header) [.mk below [next]]

/-- The loop that adds the nodes for the rest of the key. -/
def insertRest : Nat → Place V → Bytes → Except Fault (Place V)
  | 0, _, _ => .error .noProgress
  | _ + 1, place, [] => .ok place
  | fuel + 1, ⟨path, h, numnodes⟩, c :: s =>
    if h.header.size = 0 ∧ (c :: s).length > 1 then do
      let comprsize := min (c :: s).length raxNodeMaxSize
      let (frame, child) ← raxCompressNode h ((c :: s).take comprsize)
      insertRest fuel ⟨frame :: path, child, numnodes + 1⟩ ((c :: s).drop comprsize)
    else do
      let (frame, child) ← raxAddChild h c
      insertRest fuel ⟨frame :: path, child, numnodes + 1⟩ s

/-- Add what is missing of the key and set its value. -/
def insertMissing (place : Place V) (numele : Nat) (s : Bytes) (data : Option V) :
    Except Fault (Rax V) := do
  let ⟨path, h, numnodes⟩ ← insertRest (s.length + 1) place s
  let numele := if h.header.iskey then numele else numele + 1
  return ⟨plug path (.mk (raxSetData h.header data) h.children), numele, numnodes⟩

/-- Insert at the node of the key: the value is set, or left. -/
def insertHere (rax : Rax V) (walk : Walk V) (data : Option V) (overwrite : Bool) :
    (Bool × Option (Option V)) × Rax V :=
  let ⟨h, path, _, _⟩ := walk
  let written := plug path (.mk (raxSetData h.header data) h.children)
  if h.header.iskey then
    ((false, some (raxGetData h.header)),
      if overwrite then { rax with head := written } else rax)
  else
    ((true, none), { rax with head := written, numele := rax.numele + 1 })

/-- Whether the key is new, and what is written to `*old`. -/
def raxGenericInsert (rax : Rax V) (s : Bytes) (data : Option V) (overwrite : Bool) :
    Except Fault ((Bool × Option (Option V)) × Rax V) := do
  let walk ← raxLowWalk rax.head s
  let h := walk.stopnode
  if walk.arrived then
    return insertHere rax walk data overwrite
  else if h.header.iscompr ∧ walk.rest ≠ [] then
    let place ← splitMismatch h walk.path walk.splitpos rax.numnodes
    let rax ← insertMissing place rax.numele walk.rest data
    return ((true, none), rax)
  else if h.header.iscompr then
    let trimmed ← splitEnd h walk.splitpos data
    return ((true, none), ⟨plug walk.path trimmed, rax.numele + 1, rax.numnodes + 1⟩)
  else
    let rax ← insertMissing ⟨walk.path, h, rax.numnodes⟩ rax.numele walk.rest data
    return ((true, none), rax)

def raxInsert (rax : Rax V) (s : Bytes) (data : Option V) :
    Except Fault ((Bool × Option (Option V)) × Rax V) :=
  raxGenericInsert rax s data true

def raxTryInsert (rax : Rax V) (s : Bytes) (data : Option V) :
    Except Fault ((Bool × Option (Option V)) × Rax V) :=
  raxGenericInsert rax s data false

/-- Find a key; `none` is `raxNotFound`. -/
def raxFind (rax : Rax V) (s : Bytes) : Except Fault (Option (Option V)) := do
  let walk ← raxLowWalk rax.head s
  if !walk.arrived || !walk.stopnode.header.iskey then return none
  else return some (raxGetData walk.stopnode.header)

/-- Take the child in the slot out of its node. -/
def raxRemoveChild (parent : Frame V) : Node V :=
  if parent.header.iscompr then
    let header := { parent.header with isnull := false, iscompr := false, data := [] }
    .mk (header.keyedAs parent.header) []
  else
    let data := parent.header.data.eraseIdx parent.before.length
    .mk (parent.header.withEdges data) (parent.before ++ parent.after)

/-- What ends a chain: a key, or not exactly one child. -/
def endsChain (h : Header V) : Bool :=
  h.iskey || (!h.iscompr && h.size != 1)

/-- The loop that frees nodes up to the head or the first chain end. -/
def freeUpwards : Frame V → List (Frame V) → Nat → Frame V × List (Frame V) × Nat
  | frame, [], numnodes => (frame, [], numnodes - 1)
  | frame, above :: path, numnodes =>
    if endsChain frame.header then (frame, above :: path, numnodes - 1)
    else freeUpwards above path (numnodes - 1)

/-- Go up to the first node of the chain. -/
def seekStart : List (Frame V) → Node V → List (Frame V) × Node V
  | [], h => ([], h)
  | frame :: path, h =>
    if endsChain frame.header then (frame :: path, h) else seekStart path (frame.fill h)

/-- Add up the number and size of the nodes that can be compressed. -/
def scanChain (limit : Nat) : Nat → Node V → Nat → Nat → Except Fault (Nat × Nat)
  | 0, _, _, _ => .error .noProgress
  | fuel + 1, h, nodes, comprsize =>
    if h.header.size = 0 then .ok (nodes, comprsize)
    else do
      let h ← raxNodeLastChild h
      if endsChain h.header then return (nodes, comprsize)
      else if comprsize + h.header.size > limit then return (nodes, comprsize)
      else scanChain limit fuel h (nodes + 1) (comprsize + h.header.size)

/-- Copy the characters and free the nodes; the size is not looked at. -/
def copyChain : Nat → Node V → Bytes → Nat → Except Fault (Bytes × Node V × Nat)
  | 0, _, _, _ => .error .noProgress
  | fuel + 1, h, data, numnodes =>
    if h.header.size = 0 then .ok (data, h, numnodes)
    else do
      let data := data ++ h.header.data
      let h ← raxNodeLastChild h
      if endsChain h.header then return (data, h, numnodes - 1)
      else copyChain fuel h data (numnodes - 1)

/-- Recompress the chain of a node; no chain is longer than the tree. -/
def tryCompress (limit : Nat) (path : List (Frame V)) (h : Node V) (numele numnodes : Nat) :
    Except Fault (Rax V) := do
  let (path, start) := seekStart path h
  let (nodes, comprsize) ← scanChain limit (numnodes + 1) start 1 start.header.size
  if nodes > 1 then
    let (data, h, numnodes) ← copyChain (numnodes + 1) start [] (numnodes + 1)
    -- The new node was allocated for the size the first scan found.
    if data.length ≠ comprsize then .error .outOfBounds
    else return ⟨plug path (.mk ⟨false, false, true, data, none⟩ [h]), numele, numnodes⟩
  else return ⟨plug path start, numele, numnodes⟩

/-- What `raxRemove` knows once the key is gone. -/
structure Unlinked (V : Type) where
  old : Option V
  path : List (Frame V)
  h : Node V
  numnodes : Nat
  trycompress : Bool

/-- Take a key out, and free the nodes that lead to no key. -/
def unlinkKey (rax : Rax V) (s : Bytes) : Except Fault (Option (Unlinked V)) := do
  let walk ← raxLowWalk rax.head s
  let ⟨header, children⟩ := walk.stopnode
  if !walk.arrived || !header.iskey then return none
  else
    let old := raxGetData header
    let h : Node V := .mk { header with iskey := false } children
    if header.size = 0 then
      match walk.path with
      | [] => return some ⟨old, [], h, rax.numnodes, false⟩
      | frame :: path =>
        let (frame, path, numnodes) := freeUpwards frame path rax.numnodes
        let new := raxRemoveChild frame
        return some ⟨old, path, new, numnodes, new.header.size = 1 ∧ new.header.iskey = false⟩
    else return some ⟨old, walk.path, h, rax.numnodes, header.size = 1⟩

/-- Remove a key, where nodes hold up to `limit` characters. -/
def raxRemoveWithin (limit : Nat) (rax : Rax V) (s : Bytes) :
    Except Fault ((Bool × Option (Option V)) × Rax V) := do
  match ← unlinkKey rax s with
  | none => return ((false, none), rax)
  | some ⟨old, path, h, numnodes, trycompress⟩ =>
    if trycompress then
      let rax ← tryCompress limit path h (rax.numele - 1) numnodes
      return ((true, some old), rax)
    else return ((true, some old), ⟨plug path h, rax.numele - 1, numnodes⟩)

/-- Whether the key was there, and what is written to `*old`. -/
def raxRemove (rax : Rax V) (s : Bytes) : Except Fault ((Bool × Option (Option V)) × Rax V) :=
  raxRemoveWithin raxNodeMaxSize rax s

end LearningNotes.Rax
