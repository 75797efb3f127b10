import LearningNotes.Networking.Commands

/-! The link of a replica to its master: offsets, and the bytes that are passed on. -/

namespace LearningNotes.Networking

open Lib Util

/-- Why the client of the master is blocked. -/
inductive BlockedType where
  /-- Clients are paused: the command is processed again later. -/
  | pause
  /-- A module command blocks the client until it is finished. -/
  | module
deriving DecidableEq, Repr

/-- What comes of a call of `processCommand`. -/
inductive Reaction where
  /-- The command was executed or queued; whether `CLIENT_MULTI` is set now. -/
  | done (multi : Bool)
  | blocks (btype : BlockedType)
  /-- The command ends the link, as `REPLICAOF` does. -/
  | dropsLink
deriving DecidableEq, Repr

/-- What the rest of the server does, by how often it was asked. -/
structure World where
  /-- Nothing is processed now, or the client is to be closed. -/
  stops : Nat → Bool
  reacts : Nat → Reaction

inductive LinkFault where
  | parser (fault : Fault)
  | outOfBounds
  | nullPointer
deriving DecidableEq, Repr

/-- How a command comes to its end. -/
inductive Finish where
  | direct
  /-- By `unblockClient`, which only resets the client. -/
  | unblocked
deriving DecidableEq, Repr

/-- What there is after a command outside a transaction. -/
structure Snapshot where
  finish : Finish
  executed : List Argv
  reploff : Int
  /-- All that has been passed on. -/
  fed : Bytes
deriving DecidableEq, Repr

structure MasterClient extends Client where
  reploff : Int
  readReploff : Int
  pendingQuerybuf : Bytes
  /-- No value stands for a client that is not blocked. -/
  btype : Option BlockedType
  /-- How often the rest of the server was asked. -/
  clock : Nat
  /-- What `replicationFeedSlavesFromMasterStream` was called with. -/
  fed : List Bytes
  finished : List Snapshot
deriving DecidableEq, Repr

/-- The client of a master whose stream begins at an offset. -/
def newMasterClient (offset : Int) : MasterClient :=
  { newClient with
    reploff := offset, readReploff := offset, pendingQuerybuf := [], btype := none,
    clock := 0, fed := [], finished := [] }

namespace MasterClient

def withClient (m : MasterClient) (c : Client) : MasterClient := { m with toClient := c }

def reset (server : Server) (m : MasterClient) : MasterClient :=
  m.withClient (m.toClient.withParser (execute server m.toParser))

def note (m : MasterClient) (finish : Finish) : MasterClient :=
  { m with finished := m.finished ++ [⟨finish, m.executed, m.reploff, m.fed.flatten⟩] }

end MasterClient

def commandProcessed (server : Server) (m : MasterClient) (multi : Bool) :
    Except LinkFault MasterClient :=
  if m.btype.isSome then .ok m
  else
    let m := m.reset server
    let reploff :=
      if multi then m.reploff else m.readReploff - m.querybuf.length + m.qbPos
    let applied := reploff - m.reploff
    let m := { m with reploff := reploff }
    if applied = 0 then .ok m
    else if applied < 0 ∨ m.pendingQuerybuf.length < applied.toNat then .error .outOfBounds
    else .ok { m with
      fed := m.fed ++ [m.pendingQuerybuf.take applied.toNat]
      pendingQuerybuf := m.pendingQuerybuf.drop applied.toNat }

def processCommandAndResetClient (server : Server) (world : World) (m : MasterClient) :
    Except LinkFault MasterClient :=
  let ticked := { m with clock := m.clock + 1 }
  match world.reacts m.clock with
  -- A blocked client is not even reset.
  | .blocks btype => commandProcessed server { ticked with btype := some btype } false
  | .done multi => do
    let m ← commandProcessed server ticked multi
    return if multi then m else m.note .direct
  -- `replicationCacheMaster` resets the client, and then `call` reads the flags of its command.
  | .dropsLink => .error .nullPointer

/-- A complete request that is neither empty nor for Gopher. -/
def isCommand (server : Server) (p : Parser) : Bool :=
  !(p.reqtype == some .inline && server.gopher p.executed && isGopher p.argv) && !p.argv.isEmpty

def parseRequest (server : Server) (c : Client) : Except LinkFault (Client × Bool) :=
  match processRequest server c.setReqtype with
  | .error fault => .error (.parser fault)
  | .ok result => .ok result

def linkLoop (server : Server) (world : World) : Nat → MasterClient → Except LinkFault MasterClient
  | 0, _ => .error (.parser .noProgress)
  | fuel + 1, m => do
    if ¬ m.qbPos < m.querybuf.length then return m
    else if m.btype.isSome ∨ world.stops m.clock ∨ m.status ≠ .alive then return m
    else
      let (c, ready) ← parseRequest server m.toClient
      let m := { m.withClient c with clock := m.clock + 1 }
      if ¬ ready then return m
      else if isCommand server m.toParser then
        linkLoop server world fuel (← processCommandAndResetClient server world m)
      else linkLoop server world fuel (m.reset server)

/-- `processInputBuffer` for the client of the master. -/
def processLinkBuffer (server : Server) (world : World) (m : MasterClient) :
    Except LinkFault MasterClient := do
  -- Every round consumes at least one byte.
  let m ← linkLoop server world (m.querybuf.length - m.qbPos + 1) m
  return m.withClient m.toClient.trim

inductive LinkEvent where
  | read (piece : Bytes)
  | resume
deriving DecidableEq, Repr

/-- `readQueryFromClient` and `processUnblockedClients` for the master. -/
def handle (server : Server) (world : World) (m : MasterClient) :
    LinkEvent → Except LinkFault MasterClient
  | .read piece => processLinkBuffer server world { m with
      querybuf := m.querybuf ++ piece
      pendingQuerybuf := m.pendingQuerybuf ++ piece
      readReploff := m.readReploff + piece.length }
  | .resume =>
    let free := { m with btype := none }
    match m.btype with
    | none => processLinkBuffer server world free
    | some .pause => do
      processLinkBuffer server world (← processCommandAndResetClient server world free)
    | some .module => processLinkBuffer server world ((free.reset server).note .unblocked)

def handleAll (server : Server) (world : World) :
    MasterClient → List LinkEvent → Except LinkFault MasterClient
  | m, [] => .ok m
  | m, event :: events => do handleAll server world (← handle server world m event) events

def LinkEvent.bytes : LinkEvent → Bytes
  | .read piece => piece
  | .resume => []

def received (events : List LinkEvent) : Bytes := events.flatMap LinkEvent.bytes

end LearningNotes.Networking
