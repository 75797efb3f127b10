import LearningNotes.Lib.Ring
import LearningNotes.Lib.Memory
import LearningNotes.Util.Ctype

/-! The replication backlog of `replication.c`: the newest bytes of the stream in a ring. -/

namespace LearningNotes.Replication

open Lib Lib.Memory Util

/-- The fields of the server that have to do with the backlog. -/
structure Server where
  /-- No value stands for `NULL`. -/
  replBacklog : Option Bytes
  replBacklogSize : Nat
  replBacklogHistlen : Nat
  replBacklogIdx : Nat
  replBacklogOff : Int
  masterReplOffset : Int
  replid : Bytes
  replid2 : Bytes
  secondReplidOffset : Int
deriving DecidableEq, Repr

def configReplBacklogMinSize : Nat := 1024 * 16

def zmalloc (unknown : Nat → UInt8) (size : Nat) : Bytes := (List.range size).map unknown

/-- An empty backlog, for the next byte of the stream. -/
def emptyBacklog (unknown : Nat → UInt8) (s : Server) : Server :=
  { s with
    replBacklog := some (zmalloc unknown s.replBacklogSize)
    replBacklogHistlen := 0
    replBacklogIdx := 0
    replBacklogOff := s.masterReplOffset + 1 }

def resizeReplicationBacklog (unknown : Nat → UInt8) (s : Server) (newsize : Int) : Server :=
  let newsize := if newsize < configReplBacklogMinSize then configReplBacklogMinSize
    else newsize.toNat
  if s.replBacklogSize = newsize then s
  else
    let s := { s with replBacklogSize := newsize }
    -- The old contents are not copied.
    if s.replBacklog.isSome then emptyBacklog unknown s else s

def backlogOf (s : Server) : Except Fault Bytes := inBounds s.replBacklog

def feedLoop : Nat → Server → Bytes → Except Fault Server
  | _, s, [] => .ok s
  | 0, _, _ :: _ => .error .noProgress
  | fuel + 1, s, data => do
    let thislen := min (s.replBacklogSize - s.replBacklogIdx) data.length
    let buffer ← backlogOf s
    let buffer ← store buffer s.replBacklogIdx (data.take thislen)
    feedLoop fuel
      { s with
        replBacklog := some buffer
        replBacklogIdx := Ring.wrap s.replBacklogSize (s.replBacklogIdx + thislen)
        replBacklogHistlen := s.replBacklogHistlen + thislen }
      (data.drop thislen)

def feedReplicationBacklog (s : Server) (data : Bytes) : Except Fault Server := do
  let s := { s with masterReplOffset := s.masterReplOffset + data.length }
  -- Every round writes at least one byte.
  let s ← feedLoop data.length s data
  let histlen := min s.replBacklogHistlen s.replBacklogSize
  return { s with
    replBacklogHistlen := histlen
    replBacklogOff := s.masterReplOffset - histlen + 1 }

end LearningNotes.Replication
