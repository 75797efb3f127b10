import LearningNotes.GetKeys.Arguments
import LearningNotes.Util.Strtol

/-! The second parsers of `db.c`, which only look for keys, and the check of `acl.c` with them. -/

namespace LearningNotes.GetKeys

open Lib Util

/-! ### Where the keys stand -/

/-- `genericGetKeys`; an offset of zero is no key to store to. -/
def genericGetKeys (storeKeyOfs keyCountOfs firstKeyOfs keyStep : Nat) (argv : Argv) : List Nat :=
  let num := atoi (argv.arg keyCountOfs)
  if num < 1 ∨ ((argv.argc : Int) - firstKeyOfs).tdiv keyStep < num then []
  else
    (List.range num.toNat).map (fun i => firstKeyOfs + i * keyStep) ++
      if storeKeyOfs ≠ 0 then [storeKeyOfs] else []

def zunionInterDiffStoreGetKeys (argv : Argv) : List Nat := genericGetKeys 1 2 3 1 argv

def zunionInterDiffGetKeys (argv : Argv) : List Nat := genericGetKeys 0 1 2 1 argv

/-- The options that `sortGetKeys` knows, and the number of their arguments. -/
def skiplist : List (String × Nat) := [("limit", 2), ("get", 1), ("by", 1)]

/-- The loop of `sortGetKeys`, which first skips so many arguments. -/
def scanSort : Nat → Nat → List Bytes → Option Nat → Option Nat
  | _, _, [], found => found
  | i, skip + 1, _ :: rest, found => scanSort (i + 1) skip rest found
  | i, 0, arg :: rest, found =>
    match skiplist.find? fun entry => named arg entry.1 with
    | some entry => scanSort (i + 1) entry.2 rest found
    | none =>
      -- The key behind STORE is not skipped: it is looked at like an option.
      if named arg "store" ∧ rest ≠ [] then scanSort (i + 1) 0 rest (some (i + 1))
      else scanSort (i + 1) 0 rest found

def sortGetKeys (argv : Argv) : List Nat := 1 :: (scanSort 2 0 (argv.args.drop 2) none).toList

def scanGeo : Nat → Nat → List Bytes → Option Nat → Option Nat
  | _, _, [], stored => stored
  | i, skip + 1, _ :: rest, stored => scanGeo (i + 1) skip rest stored
  | i, 0, arg :: rest, stored =>
    if (named arg "store" ∨ named arg "storedist") ∧ rest ≠ [] then
      scanGeo (i + 1) 1 rest (some (i + 1))
    else scanGeo (i + 1) 0 rest stored

def georadiusGetKeys (argv : Argv) : List Nat := 1 :: (scanGeo 5 0 (argv.args.drop 5) none).toList

def scanLcs : Nat → List Bytes → List Nat
  | _, [] => []
  | i, arg :: rest =>
    if named arg "strings" then []
    else if named arg "keys" ∧ 2 ≤ rest.length then [i + 1, i + 2]
    else scanLcs (i + 1) rest

def lcsGetKeys (argv : Argv) : List Nat := scanLcs 1 (argv.args.drop 1)

/-- The loop of `xreadGetKeys`, which looks for STREAMS. -/
def scanXread : Nat → Nat → List Bytes → Option Nat
  | _, _, [] => none
  | i, skip + 1, _ :: rest => scanXread (i + 1) skip rest
  | i, 0, arg :: rest =>
    if named arg "block" then scanXread (i + 1) 1 rest
    else if named arg "count" then scanXread (i + 1) 1 rest
    else if named arg "group" then scanXread (i + 1) 2 rest
    else if named arg "noack" then scanXread (i + 1) 0 rest
    else if named arg "streams" then some i
    else none

def xreadGetKeys (argv : Argv) : List Nat :=
  match scanXread 1 0 (argv.args.drop 1) with
  | none => []
  | some streamsPos =>
    let num := argv.argc - streamsPos - 1
    if num = 0 ∨ num % 2 ≠ 0 then []
    else (List.range (num / 2)).map (streamsPos + 1 + ·)

/-- Each command has a function of its own in the table. -/
def getKeysFromCommand (command : Command) (argv : Argv) : List Nat :=
  match command with
  | .sort => sortGetKeys argv
  | .georadius | .georadiusbymember => georadiusGetKeys argv
  | .xread | .xreadgroup => xreadGetKeys argv
  | .zunionstore | .zinterstore | .zdiffstore => zunionInterDiffStoreGetKeys argv
  | .zunion | .zinter | .zdiff => zunionInterDiffGetKeys argv
  | .stralgo => lcsGetKeys argv

/-! ### The check of a user -/

/-- The fields of a `user` that the check uses. -/
structure User where
  allcommands : Bool
  allkeys : Bool
  allowedCommands : BitVec 1024
  /-- The allowed subcommands, by the number of their command. -/
  allowedSubcommands : Nat → List Bytes
  patterns : List Bytes

def getUserCommandBit (u : User) (id : Nat) : Bool :=
  if id < 1024 then u.allowedCommands.getLsbD id else false

inductive Verdict where
  | ok
  | deniedCmd
  | deniedKey (position : Nat)
deriving DecidableEq, Repr

structure Guard where
  /-- The number of a command in a user's bitmap. -/
  id : Command → Nat
  stringmatchlen : Bytes → Bytes → Bool

/-- `ACLCheckCommandPerm` about the command; none is allowed to all. -/
def allowsCommand (guard : Guard) (u : User) (command : Command) (argv : Argv) : Bool :=
  u.allcommands || getUserCommandBit u (guard.id command) ||
    (decide (2 ≤ argv.argc) && (u.allowedSubcommands (guard.id command)).any
      fun sub => sameIgnoringCase (argv.arg 1) sub)

def allowsKey (guard : Guard) (u : User) (key : Bytes) : Bool :=
  u.patterns.any fun pattern => guard.stringmatchlen pattern key

def aclCheckCommandPerm (guard : Guard) (u : User) (command : Command) (argv : Argv) :
    Verdict :=
  if !allowsCommand guard u command argv then .deniedCmd
  else if u.allkeys then .ok
  else
    match (getKeysFromCommand command argv).find? fun j => !allowsKey guard u (argv.arg j) with
    | some j => .deniedKey j
    | none => .ok

end LearningNotes.GetKeys
