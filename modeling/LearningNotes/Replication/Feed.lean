import LearningNotes.Replication.Backlog
import LearningNotes.Util.Resp

/-! How `replicationFeedSlaves` writes commands to the backlog and to the replicas. -/

namespace LearningNotes.Replication

open Lib Lib.Memory Util

inductive SlaveState where
  | waitBgsaveStart
  | waitBgsaveEnd
  | sendBulk
  | online
deriving DecidableEq, Repr

/-- The flags that decide what is written to a client. -/
structure ClientFlags where
  /-- `CLIENT_LUA` or `CLIENT_MODULE`. -/
  scripting : Bool
  closeAsap : Bool
  /-- `CLIENT_REPLY_OFF` or `CLIENT_REPLY_SKIP`. -/
  silenced : Bool
  pushing : Bool
  master : Bool
  masterForceReply : Bool
  closeAfterReply : Bool
  replRdbonly : Bool
deriving DecidableEq, Repr

/-- A `clientReplyBlock`, with its bytes in use. -/
structure ReplyBlock where
  size : Nat
  buf : Bytes
deriving DecidableEq, Repr

structure Replica where
  flags : ClientFlags
  conn : Bool
  replstate : SlaveState
  /-- The static buffer up to `bufpos`. -/
  buf : Bytes
  reply : List ReplyBlock
deriving DecidableEq, Repr

/-- How much memory is given, and when an output is too long. -/
structure Surroundings where
  usableSize : Nat → Nat
  limitsReached : Replica → Bool

def Replica.queued (c : Replica) : Bytes := c.buf ++ c.reply.flatMap fun block => block.buf

def protoReplyChunkBytes : Nat := 16 * 1024

/-- `prepareClientToWrite`: whether bytes may be queued. -/
def prepareClientToWrite (c : Replica) : Bool :=
  if c.flags.scripting then true
  else if c.flags.closeAsap then false
  else if c.flags.silenced && !c.flags.pushing then false
  else if c.flags.master && !c.flags.masterForceReply then false
  else c.conn

/-- Nothing if the bytes have to go to the list. -/
def addReplyToBuffer (c : Replica) (s : Bytes) : Option Replica :=
  if c.flags.closeAfterReply then some c
  else if c.reply ≠ [] then none
  else if protoReplyChunkBytes - c.buf.length < s.length then none
  else some { c with buf := c.buf ++ s }

/-- The client is closed later. -/
def closeClientOnOutputBufferLimitReached (env : Surroundings) (c : Replica) : Replica :=
  if ¬ c.conn ∨ c.flags.closeAsap then c
  else if env.limitsReached c then { c with flags := { c.flags with closeAsap := true } }
  else c

/-- Fill up the last block: the list, and the bytes left. -/
def fillTail (reply : List ReplyBlock) (s : Bytes) : List ReplyBlock × Bytes :=
  match reply.getLast? with
  | none => (reply, s)
  | some tail =>
    let copy := min (tail.size - tail.buf.length) s.length
    (reply.dropLast ++ [{ tail with buf := tail.buf ++ s.take copy }], s.drop copy)

def addReplyProtoToList (env : Surroundings) (c : Replica) (s : Bytes) : Replica :=
  if c.flags.closeAfterReply then c
  else
    let (reply, s) := fillTail c.reply s
    if s = [] then { c with reply := reply }
    else
      let size := if s.length < protoReplyChunkBytes then protoReplyChunkBytes else s.length
      closeClientOnOutputBufferLimitReached env
        { c with reply := reply ++ [{ size := env.usableSize size, buf := s }] }

def addReplyProto (env : Surroundings) (c : Replica) (s : Bytes) : Replica :=
  if prepareClientToWrite c then
    match addReplyToBuffer c s with
    | some c => c
    | none => addReplyProtoToList env c s
  else c

def addReply (env : Surroundings) (c : Replica) : Robj → Replica
  | .raw s => addReplyProto env c s
  | .int value => addReplyProto env c (decimal value)

def objSharedBulkhdrLen : Nat := 32

def objSharedHdrStrlen (len : Nat) : Nat := if len < 10 then 4 else 5

/-- For the marks of arrays and of strings. -/
def addReplyLongLongWithPrefix (env : Surroundings) (c : Replica) (ll : Nat) (mark : UInt8) :
    Replica :=
  -- Small numbers have shared objects, of which so many bytes are taken as the header has.
  if ll < objSharedBulkhdrLen then
    addReplyProto env c ((headerLine mark ll).take (objSharedHdrStrlen ll))
  else addReplyProto env c (headerLine mark ll)

def addReplyArrayLen (env : Surroundings) (c : Replica) (length : Nat) : Replica :=
  addReplyLongLongWithPrefix env c length 42

def addReplyBulk (env : Surroundings) (c : Replica) (obj : Robj) : Replica :=
  let c := addReplyLongLongWithPrefix env c (stringObjectLen obj) 36
  let c := addReply env c obj
  addReply env c (.raw crlf)

def canFeedReplicaReplBuffer (replica : Replica) : Bool :=
  if replica.flags.replRdbonly then false
  else if replica.replstate = .waitBgsaveStart then false
  else true

/-- A master with its backlog and its replicas. -/
structure Master where
  backlog : Server
  /-- The instance is a replica itself. -/
  masterhost : Bool
  slaveseldb : Int
  slaves : List Replica

def feedReplicationBacklogWithObject (s : Server) : Robj → Except Fault Server
  | .raw bytes => feedReplicationBacklog s bytes
  | .int value => feedReplicationBacklog s (decimal value)

def selectText (dictid : Int) : Bytes :=
  text "*2\r\n$6\r\nSELECT\r\n" ++
    (headerLine 36 (decimal dictid).length ++ (decimal dictid ++ crlf))

def protoSharedSelectCmds : Nat := 10

def sharedSelect : List Robj :=
  (List.range protoSharedSelectCmds).map fun (j : Nat) => .raw (selectText (j : Int))

def selectcmd (dictid : Int) : Except Fault Robj :=
  if 0 ≤ dictid ∧ dictid < protoSharedSelectCmds then inBounds sharedSelect[dictid.toNat]?
  else .ok (.raw (selectText dictid))

def feedReplicas (slaves : List Replica) (feed : Replica → Replica) : List Replica :=
  slaves.map fun slave => if canFeedReplicaReplBuffer slave then feed slave else slave

/-- The first part of `replicationFeedSlaves`: the SELECT command. -/
def feedSelect (env : Surroundings) (m : Master) (dictid : Int) : Except Fault Master := do
  if m.slaveseldb = dictid then return m
  else
    let selectcmd ← selectcmd dictid
    let backlog ← (if m.backlog.replBacklog.isSome then
      feedReplicationBacklogWithObject m.backlog selectcmd else .ok m.backlog)
    return { m with
      backlog := backlog
      slaves := feedReplicas m.slaves fun slave => addReply env slave selectcmd }

/-- The arguments are written to the backlog. -/
def feedArguments : Server → List Robj → Except Fault Server
  | s, [] => .ok s
  | s, arg :: argv => do
    let s ← feedReplicationBacklog s (headerLine 36 (stringObjectLen arg))
    let s ← feedReplicationBacklogWithObject s arg
    let s ← feedReplicationBacklog s crlf
    feedArguments s argv

/-- The part that writes the command to the backlog. -/
def feedCommand (s : Server) (argv : List Robj) : Except Fault Server := do
  if s.replBacklog.isSome then
    feedArguments (← feedReplicationBacklog s (headerLine 42 argv.length)) argv
  else return s

/-- `replicationFeedSlaves`, for the replicas of the server. -/
def replicationFeedSlaves (env : Surroundings) (m : Master) (dictid : Int) (argv : List Robj) :
    Except Fault Master := do
  -- A replica passes on the stream of its master instead.
  if m.masterhost then return m
  else if m.backlog.replBacklog.isNone ∧ m.slaves = [] then return m
  else
    assert (!(!m.slaves.isEmpty && m.backlog.replBacklog.isNone))
    let m ← feedSelect env m dictid
    let m := { m with slaveseldb := dictid }
    let backlog ← feedCommand m.backlog argv
    return { m with
      backlog := backlog
      slaves := feedReplicas m.slaves fun slave =>
        argv.foldl (addReplyBulk env) (addReplyArrayLen env slave argv.length) }

def propagateAll (env : Surroundings) : Master → List (Nat × List Robj) → Except Fault Master
  | m, [] => .ok m
  | m, (dictid, argv) :: rest => do
    propagateAll env (← replicationFeedSlaves env m dictid argv) rest

end LearningNotes.Replication
