import LearningNotes.Networking.SplitArgs
import LearningNotes.Util.Integer
import LearningNotes.Lib.Outcome

/-! The parsing of a client's query buffer as in `networking.c`. -/

namespace LearningNotes.Networking

open Lib Util

def nl : UInt8 := 10
def cr : UInt8 := 13
def star : UInt8 := 42
def dollar : UInt8 := 36
def slash : UInt8 := 47

def protoInlineMaxSize : Nat := 1024 * 64

def protoMbulkBigArg : Nat := 1024 * 32

inductive Fault where
  | assertFailed
  /-- A loop went on beyond the bound set for it here. -/
  | noProgress
deriving DecidableEq, Repr

inductive ProtocolError where
  | tooBigInline
  | unbalancedQuotes
  /-- A master sent an inline command, and gets no reply. -/
  | masterInline
  | tooBigMbulkCount
  | invalidMultibulkLength
  | unauthMultibulkLength
  | tooBigBulkCount
  | expectedDollar (got : UInt8)
  | invalidBulkLength
  | unauthBulkLength
deriving DecidableEq, Repr

/-- What `addReplyError` is called with. -/
def ProtocolError.reply : ProtocolError → Option String
  | .tooBigInline => "Protocol error: too big inline request"
  | .unbalancedQuotes => "Protocol error: unbalanced quotes in request"
  | .masterInline => none
  | .tooBigMbulkCount => "Protocol error: too big mbulk count string"
  | .invalidMultibulkLength => "Protocol error: invalid multibulk length"
  | .unauthMultibulkLength => "Protocol error: unauthenticated multibulk length"
  | .tooBigBulkCount => "Protocol error: too big bulk count string"
  | .expectedDollar got =>
    some ("Protocol error: expected '$', got '" ++ String.singleton (Char.ofNat got.toNat) ++ "'")
  | .invalidBulkLength => "Protocol error: invalid bulk length"
  | .unauthBulkLength => "Protocol error: unauthenticated bulk length"

abbrev Argv := List Bytes

/-- The flags of a client that the parser looks at. -/
structure Flags where
  blocked : Bool
  pendingCommand : Bool
  closeAfterReply : Bool
  closeAsap : Bool
  master : Bool
deriving DecidableEq, Repr

/-- What the server is like after some commands of the client. -/
structure Server where
  flags : List Argv → Flags
  luaTimedout : List Argv → Bool
  authRequired : List Argv → Bool
  protoMaxBulkLen : List Argv → Int
  /-- Gopher is enabled, without threaded reads. -/
  gopher : List Argv → Bool
  /-- The client was freed by its last command. -/
  freed : List Argv → Bool

inductive ReqType where
  | inline
  | multibulk
deriving DecidableEq, Repr

/-- What the parser has done to the connection. -/
inductive Status where
  | alive
  /-- `setProtocolError` was called, and the connection will be closed. -/
  | failed (error : ProtocolError)
  /-- A Gopher request was served, and the connection will be closed. -/
  | gopher (request : Argv)
  | freed
deriving DecidableEq, Repr

structure Parser where
  reqtype : Option ReqType
  multibulklen : Nat
  /-- No value stands for -1. -/
  bulklen : Option Nat
  argv : Argv
  executed : List Argv
  status : Status
deriving DecidableEq, Repr

structure Client extends Parser where
  querybuf : Bytes
  qbPos : Nat
deriving DecidableEq, Repr

def newParser : Parser :=
  { reqtype := none, multibulklen := 0, bulklen := none, argv := [], executed := [],
    status := .alive }

def newClient : Client := { newParser with querybuf := [], qbPos := 0 }

def assert (condition : Bool) : Except Fault Unit :=
  if condition then .ok () else .error .assertFailed

/-- `strchr`, which stops at a zero byte. -/
def strchr (wanted : UInt8) : Bytes → Option Nat
  | [] => none
  | byte :: rest =>
    if byte = wanted then some 0
    else if byte = 0 then none
    else (strchr wanted rest).map (· + 1)

/-- What a search for the end of a line finds. -/
inductive Line where
  | waiting
  | tooBig
  | complete (newline : Nat)
deriving DecidableEq, Repr

/-- Search for the end of a line with `tail` characters behind it. -/
def findLine (newline : UInt8) (tail : Nat) (unparsed : Bytes) : Line :=
  match strchr newline unparsed with
  | none => if protoInlineMaxSize < unparsed.length then .tooBig else .waiting
  | some found => if unparsed.length < found + tail then .waiting else .complete found

def stopped (server : Server) (p : Parser) : Bool :=
  let flags := server.flags p.executed
  flags.blocked || flags.pendingCommand || (server.luaTimedout p.executed && flags.master) ||
    flags.closeAfterReply || flags.closeAsap || p.status != .alive

def resetClient (p : Parser) : Parser :=
  { p with reqtype := none, multibulklen := 0, bulklen := none, argv := [] }

def setProtocolError (p : Parser) (error : ProtocolError) : Parser :=
  { p with status := .failed error }

/-- The arguments in the first `querylen` characters of a line. -/
def inlineArgs (server : Server) (p : Parser) (line : Bytes) : Except ProtocolError Argv :=
  match sdssplitargs line with
  | none => .error .unbalancedQuotes
  | some argv =>
    if line.length ≠ 0 ∧ (server.flags p.executed).master then .error .masterInline else .ok argv

def withoutCr (line : Bytes) : Bytes :=
  if line.getLast? = some cr then line.dropLast else line

def multibulkLength (server : Server) (p : Parser) (line : Bytes) : Except ProtocolError Int :=
  match string2ll line.tail with
  | none => .error .invalidMultibulkLength
  | some ll =>
    if 1024 * 1024 < ll then .error .invalidMultibulkLength
    else if 10 < ll ∧ server.authRequired p.executed then .error .unauthMultibulkLength
    else .ok ll

/-- The bulk length; the first character is read even of an empty line. -/
def bulkLength (server : Server) (p : Parser) (first : UInt8) (line : Bytes) :
    Except ProtocolError Nat :=
  if first ≠ dollar then .error (.expectedDollar first)
  else
    match string2ll line.tail with
    | none => .error .invalidBulkLength
    | some ll =>
      if ll < 0 ∨ ¬ (server.flags p.executed).master ∧ server.protoMaxBulkLen p.executed < ll then
        .error .invalidBulkLength
      else if 16384 < ll ∧ server.authRequired p.executed then .error .unauthBulkLength
      else .ok ll.toNat

namespace Client

def unparsed (c : Client) : Bytes := c.querybuf.drop c.qbPos

def withParser (c : Client) (p : Parser) : Client :=
  { p with querybuf := c.querybuf, qbPos := c.qbPos }

def fail (c : Client) (error : ProtocolError) : Client :=
  c.withParser (setProtocolError c.toParser error)

/-- Discard what is in front of the position, by `sdsrange`. -/
def trim (c : Client) : Client := { c with querybuf := c.querybuf.drop c.qbPos, qbPos := 0 }

end Client

/-- `processInlineBuffer`: the client, and whether a command is ready. -/
def processInlineBuffer (server : Server) (c : Client) : Client × Bool :=
  match findLine nl 1 c.unparsed with
  | .waiting => (c, false)
  | .tooBig => (c.fail .tooBigInline, false)
  | .complete newline =>
    match inlineArgs server c.toParser (withoutCr (c.unparsed.take newline)) with
    | .error error => (c.fail error, false)
    | .ok argv => ({ c with qbPos := c.qbPos + newline + 1, argv := argv }, true)

/-- What becomes of a part of `processMultibulkBuffer`. -/
inductive Progress where
  | ready
  | notReady
  | goOn
deriving DecidableEq, Repr

/-- The part that reads the multibulk length. -/
def readMultibulkLen (server : Server) (c : Client) : Except Fault (Client × Progress) := do
  assert c.argv.isEmpty
  match findLine cr 2 c.unparsed with
  | .waiting => return (c, .notReady)
  | .tooBig => return (c.fail .tooBigMbulkCount, .notReady)
  | .complete newline =>
    assert (c.unparsed.head? = some star)
    match multibulkLength server c.toParser (c.unparsed.take newline) with
    | .error error => return (c.fail error, .notReady)
    | .ok ll =>
      let c := { c with qbPos := c.qbPos + newline + 2 }
      if ll ≤ 0 then return (c, .ready)
      else return ({ c with multibulklen := ll.toNat, argv := [] }, .goOn)

/-- The part of the loop that reads a bulk length. -/
def readBulkLen (server : Server) (c : Client) : Client × Progress :=
  match findLine cr 2 c.unparsed with
  | .waiting => (c, .notReady)
  | .tooBig => (c.fail .tooBigBulkCount, .notReady)
  | .complete newline =>
    match bulkLength server c.toParser (c.unparsed.headD 0) (c.unparsed.take newline) with
    | .error error => (c.fail error, .notReady)
    | .ok ll =>
      let c := { c with qbPos := c.qbPos + newline + 2, bulklen := some ll }
      -- A big argument shall start at the boundary of the buffer.
      if protoMbulkBigArg ≤ ll ∧ c.querybuf.length - c.qbPos ≤ ll + 2 then (c.trim, .goOn)
      else (c, .goOn)

/-- The part of the loop that reads an argument. -/
def readBulk (c : Client) (bulklen : Nat) : Client × Progress :=
  if c.querybuf.length - c.qbPos < bulklen + 2 then (c, .notReady)
  else
    let next :=
      if c.qbPos = 0 ∧ protoMbulkBigArg ≤ bulklen ∧ c.querybuf.length = bulklen + 2 then
        -- The buffer itself becomes the argument, and a new one is created.
        { c with argv := c.argv ++ [c.querybuf.dropLast.dropLast], querybuf := [] }
      else
        { c with
          argv := c.argv ++ [c.unparsed.take bulklen]
          qbPos := c.qbPos + (bulklen + 2) }
    ({ next with bulklen := none, multibulklen := c.multibulklen - 1 }, .goOn)

/-- The loop, for as many arguments as are missing. -/
def readArguments (server : Server) : Nat → Client → Client × Progress
  | 0, c => (c, .ready)
  | missing + 1, c =>
    let (c, progress) := if c.bulklen = none then readBulkLen server c else (c, .goOn)
    match progress, c.bulklen with
    | .goOn, some bulklen =>
      let (c, progress) := readBulk c bulklen
      match progress with
      | .goOn => readArguments server missing c
      | progress => (c, progress)
    | _, _ => (c, .notReady)

/-- `processMultibulkBuffer`: the client, and whether a command is ready. -/
def processMultibulkBuffer (server : Server) (c : Client) : Except Fault (Client × Bool) := do
  let (c, progress) ← (if c.multibulklen = 0 then readMultibulkLen server c else .ok (c, .goOn))
  match progress with
  | .ready => return (c, true)
  | .notReady => return (c, false)
  | .goOn =>
    assert (decide (0 < c.multibulklen))
    let (c, progress) := readArguments server c.multibulklen c
    return (c, progress == .ready)

def isGopher (argv : Argv) : Bool :=
  match argv with
  | [] => true
  | [argument] => argument.head? == some slash
  | _ => false

/-- What `processInputBuffer` does with a request. -/
def execute (server : Server) (p : Parser) : Parser :=
  if p.reqtype = some .inline ∧ server.gopher p.executed ∧ isGopher p.argv then
    { resetClient p with status := .gopher p.argv }
  else if p.argv = [] then resetClient p
  else
    let executed := p.executed ++ [p.argv]
    { resetClient p with
      executed := executed
      status := if server.freed executed then .freed else p.status }

def reqtypeOf (unparsed : Bytes) : ReqType :=
  if unparsed.head? = some star then .multibulk else .inline

def Client.setReqtype (c : Client) : Client :=
  { c with reqtype := some (c.reqtype.getD (reqtypeOf c.unparsed)) }

def processRequest (server : Server) (c : Client) : Except Fault (Client × Bool) :=
  if c.reqtype = some .inline then .ok (processInlineBuffer server c)
  else processMultibulkBuffer server c

def inputLoop (server : Server) : Nat → Client → Except Fault Client
  | 0, _ => .error .noProgress
  | fuel + 1, c => do
    if ¬ c.qbPos < c.querybuf.length then return c
    else if stopped server c.toParser then return c
    else
      let (c, ready) ← processRequest server c.setReqtype
      if ¬ ready then return c
      else inputLoop server fuel (c.withParser (execute server c.toParser))

def processInputBuffer (server : Server) (c : Client) : Except Fault Client := do
  -- Every round consumes at least one byte.
  let c ← inputLoop server (c.querybuf.length - c.qbPos + 1) c
  return if c.status = .freed then c else c.trim

/-- `readQueryFromClient` behind the read, which gave the piece. -/
def readQueryFromClient (server : Server) (c : Client) (piece : Bytes) : Except Fault Client :=
  processInputBuffer server { c with querybuf := c.querybuf ++ piece }

end LearningNotes.Networking
