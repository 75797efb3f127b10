import LearningNotes.Lib.Bytes
import LearningNotes.Lib.Maps

/-! `WATCH` and `MULTI` of `multi.c`: who watches what, and when a transaction is given up. -/

namespace LearningNotes.Multi

open Lib

/-- A key of a database, as `watchedKey` holds it. -/
abbrev Key := Nat × Bytes

/-- The values of the keys of all databases. -/
abbrev Dict (V : Type) := Key → Option V

/-- What commands do to the databases, one after the other. -/
inductive Op (V : Type) where
  -- Store a value, change it in place, or delete it.
  | write (key : Key) (value : Option V)
  | emptyDb (db : Nat)
  | swapDb (db1 db2 : Nat)
  | selectDb (db : Nat)
  | signalModifiedKey (key : Key)
  | touchAllWatchedKeysInDb (emptied : Nat) (replacedWith : Option Nat)

def Op.onDict {V : Type} (dict : Dict V) : Op V → Dict V
  | .write key value => fun other => if other = key then value else dict other
  | .emptyDb db => fun key => if key.1 = db then none else dict key
  | .swapDb db1 db2 => fun key =>
    if key.1 = db1 then dict (db2, key.2) else if key.1 = db2 then dict (db1, key.2) else dict key
  | _ => dict

def existsInEither {V : Type} (dict : Dict V) (emptied : Nat) (replacedWith : Option Nat)
    (name : Bytes) : Bool :=
  (dict (emptied, name)).isSome ||
    match replacedWith with
    | none => false
    | some db => (dict (db, name)).isSome

inductive Queued (Cmd : Type) where
  | unwatch
  | other (cmd : Cmd)

/-- The fields of a client that matter here. -/
structure Client (Cmd : Type) where
  db : Nat
  -- `CLIENT_MULTI`, `CLIENT_DIRTY_CAS` and `CLIENT_DIRTY_EXEC`.
  multi : Bool
  dirtyCas : Bool
  dirtyExec : Bool
  watchedKeys : List Key
  mstate : List (Queued Cmd)

def newClient {Cmd : Type} : Client Cmd :=
  { db := 0, multi := false, dirtyCas := false, dirtyExec := false, watchedKeys := [], mstate := [] }

/-- The databases, their watched keys, and the clients by number. -/
structure Server (V Cmd : Type) where
  dict : Dict V
  -- For each watched key the clients that watch it.
  watchedKeys : Nat → List (Bytes × List Nat)
  clients : Nat → Client Cmd

/-- What a command does, whose clocks and random numbers are part of it. -/
abbrev Commands (V Cmd : Type) := Dict V → Nat → Cmd → List (Op V)

section Tables

def fetchClients (table : List (Bytes × List Nat)) (name : Bytes) : Option (List Nat) :=
  keyedMap Prod.fst Prod.snd table name

def addWatcher (table : List (Bytes × List Nat)) (name : Bytes) (c : Nat) :
    List (Bytes × List Nat) :=
  match fetchClients table name with
  | none => (name, [c]) :: table
  | some _ => table.map fun entry => if entry.1 = name then (entry.1, entry.2 ++ [c]) else entry

def removeWatcher (table : List (Bytes × List Nat)) (name : Bytes) (c : Nat) :
    List (Bytes × List Nat) :=
  (table.map fun entry => if entry.1 = name then (entry.1, entry.2.erase c) else entry).filter
    fun entry => !(entry.1 = name && entry.2.isEmpty)

end Tables

section Watching

variable {V Cmd : Type}

def Server.setClient (s : Server V Cmd) (c : Nat) (client : Client Cmd) : Server V Cmd :=
  { s with clients := fun other => if other = c then client else s.clients other }

def Server.setTable (s : Server V Cmd) (db : Nat) (table : List (Bytes × List Nat)) :
    Server V Cmd :=
  { s with watchedKeys := fun other => if other = db then table else s.watchedKeys other }

def watchForKey (s : Server V Cmd) (c : Nat) (name : Bytes) : Server V Cmd :=
  let client := s.clients c
  if (client.db, name) ∈ client.watchedKeys then s
  else
    (s.setTable client.db (addWatcher (s.watchedKeys client.db) name c)).setClient c
      { client with watchedKeys := client.watchedKeys ++ [(client.db, name)] }

def unwatchKeys (s : Server V Cmd) (c : Nat) (keys : List Key) : Server V Cmd :=
  keys.foldl (fun s key => s.setTable key.1 (removeWatcher (s.watchedKeys key.1) key.2 c)) s

def unwatchAllKeys (s : Server V Cmd) (c : Nat) : Server V Cmd :=
  let s := unwatchKeys s c (s.clients c).watchedKeys
  s.setClient c { s.clients c with watchedKeys := [] }

def markDirty (s : Server V Cmd) (marked : List Nat) : Server V Cmd :=
  { s with
    clients := fun c =>
      if c ∈ marked then { s.clients c with dirtyCas := true } else s.clients c }

def touchWatchedKey (s : Server V Cmd) (key : Key) : Server V Cmd :=
  match fetchClients (s.watchedKeys key.1) key.2 with
  | none => s
  | some clients => markDirty s clients

def touchAllWatchedKeysInDb (s : Server V Cmd) (emptied : Nat) (replacedWith : Option Nat) :
    Server V Cmd :=
  (s.watchedKeys emptied).foldl
    (fun s entry =>
      if existsInEither s.dict emptied replacedWith entry.1 then markDirty s entry.2 else s) s

def applyOp (c : Option Nat) (s : Server V Cmd) (op : Op V) : Server V Cmd :=
  match op with
  | .signalModifiedKey key => touchWatchedKey s key
  | .touchAllWatchedKeysInDb emptied replacedWith =>
    touchAllWatchedKeysInDb s emptied replacedWith
  | .selectDb db =>
    match c with
    | none => s
    | some c => s.setClient c { s.clients c with db }
  | op => { s with dict := op.onDict s.dict }

/-- A command called: by whom, on which values, what it did. -/
structure Call (V : Type) where
  client : Nat
  before : Dict V
  ops : List (Op V)

def Call.after (call : Call V) : Dict V := call.ops.foldl Op.onDict call.before

def call (commands : Commands V Cmd) (s : Server V Cmd) (c : Nat) (cmd : Cmd) :
    Call V × Server V Cmd :=
  let ops := commands s.dict (s.clients c).db cmd
  ({ client := c, before := s.dict, ops }, ops.foldl (applyOp (some c)) s)

def unwatchCommand (s : Server V Cmd) (c : Nat) : Server V Cmd :=
  let s := unwatchAllKeys s c
  s.setClient c { s.clients c with dirtyCas := false }

def discardTransaction (s : Server V Cmd) (c : Nat) : Server V Cmd :=
  unwatchAllKeys
    (s.setClient c
      { s.clients c with mstate := [], multi := false, dirtyCas := false, dirtyExec := false }) c

/-- The loop of `execCommand` over the queued commands. -/
def callQueued (commands : Commands V Cmd) (c : Nat) :
    List (Queued Cmd) → Server V Cmd → List (Call V) × Server V Cmd
  | [], s => ([], s)
  | .unwatch :: queued, s => callQueued commands c queued (unwatchCommand s c)
  | .other cmd :: queued, s =>
    let (made, s) := call commands s c cmd
    let (calls, s) := callQueued commands c queued s
    (made :: calls, s)

/-- The tests of `execCommand`: the queued commands are called. -/
def execRuns (expired : Key → Bool) (client : Client Cmd) : Bool :=
  client.multi && !(client.watchedKeys.any expired) && !client.dirtyCas && !client.dirtyExec

def execCommand (commands : Commands V Cmd) (s : Server V Cmd) (c : Nat) (expired : Key → Bool) :
    List (Call V) × Server V Cmd :=
  if !(s.clients c).multi then ([], s)
  else if execRuns expired (s.clients c) then
    let (calls, s) := callQueued commands c (s.clients c).mstate (unwatchAllKeys s c)
    (calls, discardTransaction s c)
  else ([], discardTransaction s c)

inductive Request (Cmd : Type) where
  | watch (names : List Bytes)
  | unwatch
  | multi
  -- With the keys that are expired at this time.
  | exec (expired : Key → Bool)
  | discard
  | reset
  | other (cmd : Cmd)

inductive Step (V Cmd : Type) where
  | request (c : Nat) (request : Request Cmd)
  -- A request that `processCommand` rejects, be it `EXEC` or another one.
  | reject (c : Nat) (isExec : Bool)
  | freeClient (c : Nat)
  -- What the server does on its own, like the deletion of expired keys.
  | background (ops : List (Op V))

def queueMultiCommand (s : Server V Cmd) (c : Nat) (cmd : Queued Cmd) : Server V Cmd :=
  if (s.clients c).dirtyExec then s
  else s.setClient c { s.clients c with mstate := (s.clients c).mstate ++ [cmd] }

def processCommand (commands : Commands V Cmd) (s : Server V Cmd) (c : Nat) :
    Request Cmd → List (Call V) × Server V Cmd
  | .watch names =>
    if (s.clients c).multi then ([], s)
    else ([], names.foldl (fun s name => watchForKey s c name) s)
  | .unwatch =>
    if (s.clients c).multi then ([], queueMultiCommand s c .unwatch) else ([], unwatchCommand s c)
  | .multi => ([], s.setClient c { s.clients c with multi := true })
  | .exec expired => execCommand commands s c expired
  | .discard => if (s.clients c).multi then ([], discardTransaction s c) else ([], s)
  | .reset =>
    ([], discardTransaction (s.setClient c { s.clients c with db := 0 }) c)
  | .other cmd =>
    if (s.clients c).multi then ([], queueMultiCommand s c (.other cmd))
    else
      let (made, s) := call commands s c cmd
      ([made], s)

def rejectCommand (s : Server V Cmd) (c : Nat) (isExec : Bool) : Server V Cmd :=
  let s := if (s.clients c).multi then s.setClient c { s.clients c with dirtyExec := true } else s
  if isExec then discardTransaction s c else s

def step (commands : Commands V Cmd) (s : Server V Cmd) :
    Step V Cmd → List (Call V) × Server V Cmd
  | .request c request => processCommand commands s c request
  | .reject c isExec => ([], rejectCommand s c isExec)
  | .freeClient c => ([], (unwatchAllKeys s c).setClient c newClient)
  | .background ops => ([], ops.foldl (applyOp none) s)

def run (commands : Commands V Cmd) : Server V Cmd → List (Step V Cmd) →
    List (Call V) × Server V Cmd
  | s, [] => ([], s)
  | s, one :: steps =>
    let (calls, s) := step commands s one
    let (later, s) := run commands s steps
    (calls ++ later, s)

end Watching

end LearningNotes.Multi
