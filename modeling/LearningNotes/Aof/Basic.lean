import LearningNotes.Util.Resp
import LearningNotes.Util.Stdio
import LearningNotes.Util.Strtol

/-! The append-only file of `aof.c`: how commands are written to it and how it is loaded. -/

namespace LearningNotes.Aof

open Lib Util

def catAppendOnlyGenericCommand (dst : Bytes) (argv : List Robj) : Bytes :=
  dst ++ multibulk (argv.map getDecodedObject)

/-- What the loader has to know of a command of the table. -/
inductive Kind where
  | multi
  | exec
  | other
deriving DecidableEq, Repr

/-- What `rdbLoadRio` makes of a file. -/
inductive Preload (σ : Type) where
  /-- The dataset, and where the file goes on. -/
  | loaded (data : σ) (consumed : Nat)
  /-- What was loaded before the error, and whether the file ended. -/
  | failed (data : σ) (feof : Bool)

/-- The surroundings of the loader; the dataset includes the selected database. -/
structure Server (σ : Type) where
  empty : σ
  lookupCommand : Bytes → Option Kind
  /-- What a command other than `MULTI` and `EXEC` does to the dataset. -/
  proc : σ → List Bytes → σ
  rdbLoadRio : Bytes → Preload σ
  aofLoadTruncated : Bool

inductive Read (α : Type) where
  | done (value : α) (fp : File)
  | eof
  /-- `goto readerr`, and whether the file ended. -/
  | readerr (feof : Bool)
  | fmterr
  /-- An allocation that the process does not survive. -/
  | abort
deriving DecidableEq, Repr

/-- A character of the buffer; behind the line is the terminator. -/
def charAt (buf : Bytes) (i : Nat) : UInt8 := buf.getD i 0

/-- The bytes of an argument and the end of its line, which is not looked at. -/
def readBulk (len : Nat) (fp : File) : Read Bytes :=
  match fread len fp with
  | (none, fp) => .readerr fp.feof
  | (some arg, fp) =>
    match fread 2 fp with
    | (none, fp) => .readerr fp.feof
    | (some _, fp) => .done arg fp

def readArg (fp : File) : Read Bytes :=
  match fgets 128 fp with
  | (none, fp) => .readerr fp.feof
  | (some buf, fp) =>
    if charAt buf 0 ≠ 36 then .fmterr
    -- As an unsigned number, a negative length is more than can be allocated.
    else if strtol (buf.drop 1) < 0 then .abort
    else readBulk (strtol (buf.drop 1)).toNat fp

def readArgs : Nat → File → Read (List Bytes)
  | 0, fp => .done [] fp
  | argc + 1, fp =>
    match readArg fp with
    | .done arg fp =>
      match readArgs argc fp with
      | .done argv fp => .done (arg :: argv) fp
      | .eof => .eof
      | .readerr feof => .readerr feof
      | .fmterr => .fmterr
      | .abort => .abort
    | .eof => .eof
    | .readerr feof => .readerr feof
    | .fmterr => .fmterr
    | .abort => .abort

/-- The part of `loadAppendOnlyFile` that reads a command. -/
def readCommand (fp : File) : Read (List Bytes) :=
  match fgets 128 fp with
  | (none, fp) => if fp.feof then .eof else .readerr false
  | (some buf, fp) =>
    if charAt buf 0 ≠ 42 then .fmterr
    else if charAt buf 1 = 0 then .readerr fp.feof
    else if atoi (buf.drop 1) < 1 then .fmterr
    else readArgs (atoi (buf.drop 1)).toNat fp

structure Loader (σ : Type) where
  data : σ
  /-- The commands that the fake client has queued since `MULTI`. -/
  queue : Option (List (List Bytes))
  validUpTo : Nat
  validBeforeMulti : Nat

section Loading

variable {σ : Type} (server : Server σ)

/-- A command called by `execCommand`: a nested `MULTI` is only an error. -/
def callQueued (data : σ) (argv : List Bytes) : σ :=
  match argv.head?.bind server.lookupCommand with
  | some .other => server.proc data argv
  | _ => data

/-- `execCommand` of the fake client, which watches no key and was denied nothing. -/
def execCommand (l : Loader σ) : Loader σ :=
  match l.queue with
  | none => l
  | some queue => { l with data := queue.foldl (callQueued server) l.data, queue := none }

/-- The command is queued inside a transaction, unless it ends it, else called. -/
def dispatch (l : Loader σ) (kind : Kind) (argv : List Bytes) : Loader σ :=
  match l.queue with
  | some queue =>
    if kind = .exec then execCommand server l else { l with queue := some (queue ++ [argv]) }
  | none =>
    match kind with
    | .multi => { l with queue := some [] }
    | .exec => execCommand server l
    | .other => { l with data := server.proc l.data argv }

def runCommand (l : Loader σ) (kind : Kind) (argv : List Bytes) (ftello : Nat) : Loader σ :=
  let l := if kind = .multi then { l with validBeforeMulti := l.validUpTo } else l
  let l := dispatch server l kind argv
  if server.aofLoadTruncated then { l with validUpTo := ftello } else l

/-- `uxeof`: the dataset and the new length, unless the process exits. -/
def unexpectedEof (l : Loader σ) : Option (σ × Nat) :=
  if server.aofLoadTruncated then some (l.data, l.validUpTo) else none

def readError (l : Loader σ) (feof : Bool) : Option (σ × Nat) :=
  if feof then unexpectedEof server l else none

/-- The loop over a file of this size, with the length it leaves. -/
def loadLoop (size : Nat) : Nat → File → Loader σ → Option (σ × Nat)
  | 0, _, _ => none
  | fuel + 1, fp, l =>
    match readCommand fp with
    | .done argv fp =>
      match argv.head?.bind server.lookupCommand with
      | none => none
      | some kind => loadLoop size fuel fp (runCommand server l kind argv (size - fp.rest.length))
    | .eof =>
      if l.queue.isSome then unexpectedEof server { l with validUpTo := l.validBeforeMulti }
      else some (l.data, size)
    | .readerr feof => readError server l feof
    | .fmterr => none
    | .abort => none

def newLoader (data : σ) : Loader σ :=
  { data, queue := none, validUpTo := 0, validBeforeMulti := 0 }

def signature : Bytes := [82, 69, 68, 73, 83]

def loadContents (file : Bytes) : Option (σ × Nat) :=
  if file.take 5 ≠ signature then
    loadLoop server file.length (file.length + 1) ⟨file, false⟩ (newLoader server.empty)
  else
    match server.rdbLoadRio file with
    | .loaded data consumed =>
      loadLoop server file.length (file.length + 1) ⟨file.drop consumed, false⟩ (newLoader data)
    | .failed data feof => readError server (newLoader data) feof

/-- The dataset and the file that are left, unless the process exits. -/
def loadAppendOnlyFile (file : Bytes) : Option (σ × Bytes) :=
  if file = [] then some (server.empty, file)
  else
    match loadContents server file with
    | none => none
    | some (data, length) => some (data, file.take length)

end Loading

end LearningNotes.Aof
