import LearningNotes.Lib.Bytes

/-! Streams, their IDs and their consumer groups. -/

namespace LearningNotes.Stream

open Lib

structure StreamID where
  ms : Nat
  seq : Nat
deriving DecidableEq, Repr

def streamCompareID (a b : StreamID) : Ordering := (compare a.ms b.ms).then (compare a.seq b.seq)

/-- `streamNACK`, without a consumer for a moment in `XCLAIM`. -/
structure Nack where
  deliveryTime : Int
  deliveryCount : Nat
  consumer : Option Bytes
deriving DecidableEq, Repr

structure Consumer where
  seenTime : Int
  pel : List StreamID
deriving DecidableEq, Repr

structure Group where
  lastId : StreamID
  pel : List (StreamID × Nack)
  consumers : List (Bytes × Consumer)
deriving DecidableEq, Repr

end Stream

/-- `stream`, with its entries in the order of their IDs. -/
structure Stream where
  entries : List (Stream.StreamID × List (Lib.Bytes × Lib.Bytes))
  lastId : Stream.StreamID
  cgroups : List (Lib.Bytes × Stream.Group)
deriving DecidableEq, Repr

namespace Stream

/-- What a key holds: a stream, or a string as an example of another type. -/
inductive Value where
  | string (s : Lib.Bytes)
  | stream (s : Stream)
deriving DecidableEq, Repr

def streamNew : Stream := ⟨[], ⟨0, 0⟩, []⟩

end LearningNotes.Stream
