import LearningNotes.Util.Ctype
import LearningNotes.Util.Integer

/-! The parsers of the commands whose keys stand at no fixed place. -/

namespace LearningNotes.GetKeys

open Lib Util

/-- What a key holds, as far as the parsers look at it. -/
inductive Value where
  | string (content : Bytes)
  | list
  | set
  /-- A sorted set, and the members whose score is a place. -/
  | zset (decodes : Bytes → Bool)
  | hash
  /-- A stream, and the names of its consumer groups. -/
  | stream (groups : Bytes → Bool)

structure Context where
  clusterEnabled : Bool
  /-- The client is the one of the scripts. -/
  lua : Bool
  mstime : Int
  lookupKey : Bytes → Option Value
  string2d : Bytes → Option Float
  /-- `streamParseStrictID`, as far as it accepts an ID. -/
  parsesStrictId : Bytes → Bool

/-- The arguments of a command, whose number is an `int`. -/
structure Argv where
  args : List Bytes
  fits : args.length < 2 ^ 31

def Argv.argc (argv : Argv) : Nat := argv.args.length

/-- One argument; the parsers look behind the last one never. -/
def Argv.arg (argv : Argv) (i : Nat) : Bytes := argv.args.getD i []

/-- Whether `strcasecmp` finds the name of an option. -/
def named (arg : Bytes) (name : String) : Bool := sameIgnoringCase arg (text name)

/-- Whether `strcmp` finds a word. -/
def equals (arg : Bytes) (word : String) : Bool := cString arg == cString (text word)

/-- A command is refused with the text of an error, or goes on. -/
abbrev Parsed (α : Type) := Except Bytes α

def syntaxerr : Bytes := text "-ERR syntax error\r\n"

def wrongtypeerr : Bytes :=
  text "-WRONGTYPE Operation against a key holding the wrong kind of value\r\n"

def getLongLongFromObjectOrReply (o : Bytes) (msg : Option Bytes) : Parsed Int :=
  match string2ll o with
  | some value => .ok value
  | none => .error (msg.getD (text "value is not an integer or out of range"))

def getLongFromObjectOrReply (o : Bytes) (msg : Option Bytes) : Parsed Int := do
  let value ← getLongLongFromObjectOrReply o msg
  if value < -(2 ^ 63) ∨ 2 ^ 63 - 1 < value then
    .error (msg.getD (text "value is out of range"))
  else .ok value

def getDoubleFromObjectOrReply (context : Context) (o : Bytes) (msg : Option Bytes) :
    Parsed Float :=
  match context.string2d o with
  | some value => .ok value
  | none => .error (msg.getD (text "value is not a valid float"))

/-! ### SORT -/

inductive SortOption where
  | asc | desc | alpha | limit | store | by_ | get
deriving DecidableEq, Repr

def sortOption (arg : Bytes) : Option SortOption :=
  if named arg "asc" then some .asc
  else if named arg "desc" then some .desc
  else if named arg "alpha" then some .alpha
  else if named arg "limit" then some .limit
  else if named arg "store" then some .store
  else if named arg "by" then some .by_
  else if named arg "get" then some .get
  else none

/-- What the options of SORT set, with the position of the key of STORE. -/
structure SortArguments where
  desc : Bool := false
  alpha : Bool := false
  limitStart : Int := 0
  limitCount : Int := -1
  storekey : Option Nat := none
  sortby : Option Bytes := none
  dontsort : Bool := false
  operations : List Bytes := []

/-- The loop of `sortCommand` over its options, from `j` on. -/
def parseSort (context : Context) : Nat → List Bytes → SortArguments → Parsed SortArguments
  | _, [], a => .ok a
  | j, option :: rest, a =>
    match sortOption option, rest with
    | some .asc, rest => parseSort context (j + 1) rest { a with desc := false }
    | some .desc, rest => parseSort context (j + 1) rest { a with desc := true }
    | some .alpha, rest => parseSort context (j + 1) rest { a with alpha := true }
    | some .limit, start :: count :: rest => do
      let limitStart ← getLongFromObjectOrReply start none
      let limitCount ← getLongFromObjectOrReply count none
      parseSort context (j + 3) rest { a with limitStart, limitCount }
    | some .store, _ :: rest => parseSort context (j + 2) rest { a with storekey := some (j + 1) }
    | some .by_, pattern :: rest =>
      if 42 ∉ cString pattern then
        parseSort context (j + 2) rest { a with sortby := some pattern, dontsort := true }
      else if context.clusterEnabled then
        .error (text "BY option of SORT denied in Cluster mode.")
      else parseSort context (j + 2) rest { a with sortby := some pattern }
    | some .get, pattern :: rest =>
      if context.clusterEnabled then .error (text "GET option of SORT denied in Cluster mode.")
      else
        parseSort context (j + 2) rest { a with operations := a.operations ++ [pattern] }
    -- A name without its arguments is no option either.
    | _, _ => .error syntaxerr

/-- `sortCommand`, up to the positions of its keys. -/
def sortCommand (context : Context) (argv : Argv) : Parsed (List Nat) := do
  let a ← parseSort context 2 (argv.args.drop 2) {}
  match context.lookupKey (argv.arg 1) with
  | some (.string _) | some .hash | some (.stream _) => .error wrongtypeerr
  | none | some .list | some .set | some (.zset _) => .ok (1 :: a.storekey.toList)

/-! ### GEORADIUS and GEORADIUSBYMEMBER -/

inductive GeoOption where
  | withdist | withhash | withcoord | any | asc | desc | count | store | storedist
deriving DecidableEq, Repr

def geoOption (arg : Bytes) : Option GeoOption :=
  if named arg "withdist" then some .withdist
  else if named arg "withhash" then some .withhash
  else if named arg "withcoord" then some .withcoord
  else if named arg "any" then some .any
  else if named arg "asc" then some .asc
  else if named arg "desc" then some .desc
  else if named arg "count" then some .count
  else if named arg "store" then some .store
  else if named arg "storedist" then some .storedist
  else none

/-- What the options set, with the position of the key to store to. -/
structure GeoArguments where
  withdist : Bool := false
  withhash : Bool := false
  withcoords : Bool := false
  any : Bool := false
  /-- Whether the order is descending, if there is one. -/
  sort : Option Bool := none
  count : Int := 0
  storekey : Option Nat := none
  storedist : Bool := false

/-- The loop of `georadiusGeneric` over its options. -/
def parseGeo : Nat → List Bytes → GeoArguments → Parsed GeoArguments
  | _, [], a => .ok a
  | j, arg :: rest, a =>
    match geoOption arg, rest with
    | some .withdist, rest => parseGeo (j + 1) rest { a with withdist := true }
    | some .withhash, rest => parseGeo (j + 1) rest { a with withhash := true }
    | some .withcoord, rest => parseGeo (j + 1) rest { a with withcoords := true }
    | some .any, rest => parseGeo (j + 1) rest { a with any := true }
    | some .asc, rest => parseGeo (j + 1) rest { a with sort := some false }
    | some .desc, rest => parseGeo (j + 1) rest { a with sort := some true }
    | some .count, value :: rest => do
      let count ← getLongLongFromObjectOrReply value none
      if count ≤ 0 then .error (text "COUNT must be > 0")
      else parseGeo (j + 2) rest { a with count }
    | some .store, _ :: rest =>
      parseGeo (j + 2) rest { a with storekey := some (j + 1), storedist := false }
    | some .storedist, _ :: rest =>
      parseGeo (j + 2) rest { a with storekey := some (j + 1), storedist := true }
    | _, _ => .error syntaxerr

def extractLongLatOrReply (context : Context) (first second : Bytes) : Parsed Unit := do
  let long ← getDoubleFromObjectOrReply context first none
  let lat ← getDoubleFromObjectOrReply context second none
  if long < -180 ∨ 180 < long ∨ lat < -85.05112878 ∨ 85.05112878 < lat then
    .error (text s!"-ERR invalid longitude,latitude pair {long},{lat}\r\n")
  else .ok ()

/-- `extractUnitOrReply`: the arguments that are units. -/
def isUnit (unit : Bytes) : Bool :=
  equals unit "m" || equals unit "km" || equals unit "ft" || equals unit "mi"

def extractDistanceOrReply (context : Context) (radius unit : Bytes) : Parsed Unit := do
  let distance ← getDoubleFromObjectOrReply context radius (text "need numeric radius")
  if distance < 0 then .error (text "radius cannot be negative")
  else if isUnit unit then .ok ()
  else .error (text "unsupported unit provided. please use m, km, ft, mi")

/-- What `georadiusGeneric` checks behind the options. -/
def checkGeo (a : GeoArguments) : Parsed (List Nat) :=
  if a.storekey.isSome && (a.withdist || a.withhash || a.withcoords) then
    .error (text ("STORE option in GEORADIUS is not compatible with " ++
      "WITHDIST, WITHHASH and WITHCOORDS options"))
  else if a.any && a.count == 0 then .error (text "the ANY argument requires COUNT argument")
  else .ok (1 :: a.storekey.toList)

/-- The sorted set that is searched, as the members that can be decoded. -/
def lookupZset (context : Context) (key : Bytes) : Parsed (Option (Bytes → Bool)) :=
  match context.lookupKey key with
  | none => .ok none
  | some (.zset decodes) => .ok (some decodes)
  | some _ => .error wrongtypeerr

def georadiusCommand (context : Context) (argv : Argv) : Parsed (List Nat) := do
  let _ ← lookupZset context (argv.arg 1)
  extractLongLatOrReply context (argv.arg 2) (argv.arg 3)
  extractDistanceOrReply context (argv.arg 4) (argv.arg 5)
  let a ← parseGeo 6 (argv.args.drop 6) {}
  checkGeo a

/-- The centre of a search around a member of a sorted set, if there is one. -/
def extractMember (context : Context) (argv : Argv) : Option (Bytes → Bool) → Parsed Unit
  | none => .ok ()
  | some decodes =>
    if decodes (argv.arg 2) then extractDistanceOrReply context (argv.arg 3) (argv.arg 4)
    else .error (text "could not decode requested zset member")

def georadiusbymemberCommand (context : Context) (argv : Argv) : Parsed (List Nat) := do
  let zobj ← lookupZset context (argv.arg 1)
  extractMember context argv zobj
  let a ← parseGeo 5 (argv.args.drop 5) {}
  checkGeo a

/-! ### XREAD and XREADGROUP -/

inductive XreadOption where
  | block | count | streams | group | noack
deriving DecidableEq, Repr

def xreadOption (arg : Bytes) : Option XreadOption :=
  if named arg "block" then some .block
  else if named arg "count" then some .count
  else if named arg "streams" then some .streams
  else if named arg "group" then some .group
  else if named arg "noack" then some .noack
  else none

structure XreadArguments where
  timeout : Int := -1
  count : Int := 0
  /-- Zero until STREAMS is found. -/
  streamsArg : Nat := 0
  /-- The names of the group and of the consumer. -/
  group : Option (Bytes × Bytes) := none
  noack : Bool := false

/-- `getTimeoutFromObjectOrReply` with `UNIT_MILLISECONDS`. -/
def getTimeoutFromObjectOrReply (o : Bytes) (mstime : Int) : Parsed Int := do
  let tval ← getLongLongFromObjectOrReply o (text "timeout is not an integer or out of range")
  if tval < 0 then .error (text "timeout is negative")
  else .ok (if 0 < tval then toLong (tval + mstime) else tval)

/-- The loop of `xreadCommand` over its options. -/
def parseXread (context : Context) (xreadgroup : Bool) (name : Bytes) :
    Nat → List Bytes → XreadArguments → Parsed XreadArguments
  | _, [], a => .ok a
  | i, o :: rest, a =>
    match xreadOption o, rest with
    | some .block, value :: rest =>
      if context.lua then
        .error (cString name ++ text " command is not allowed with BLOCK option from scripts")
      else do
        let timeout ← getTimeoutFromObjectOrReply value context.mstime
        parseXread context xreadgroup name (i + 2) rest { a with timeout }
    | some .count, value :: rest => do
      let count ← getLongLongFromObjectOrReply value none
      parseXread context xreadgroup name (i + 2) rest { a with count := max count 0 }
    | some .streams, _ :: more =>
      if (more.length + 1) % 2 ≠ 0 then
        .error (text ("Unbalanced XREAD list of streams: " ++
          "for each stream key an ID or '$' must be specified."))
      else .ok { a with streamsArg := i + 1 }
    | some .group, groupname :: consumername :: rest =>
      if xreadgroup then
        parseXread context xreadgroup name (i + 3) rest
          { a with group := some (groupname, consumername) }
      else
        .error (text ("The GROUP option is only supported by " ++
          "XREADGROUP. You called XREAD instead."))
    | some .noack, rest =>
      if xreadgroup then parseXread context xreadgroup name (i + 1) rest { a with noack := true }
      else
        .error (text ("The NOACK option is only supported by " ++
          "XREADGROUP. You called XREAD instead."))
    | _, _ => .error syntaxerr

/-- The groups of the stream under a key, if there is one. -/
def streamGroups (context : Context) (key : Bytes) : Parsed (Bytes → Bool) :=
  match context.lookupKey key with
  | none => .ok fun _ => false
  | some (.stream groups) => .ok groups
  | some _ => .error wrongtypeerr

/-- What `xreadCommand` checks of one stream and its ID. -/
def checkStream (context : Context) (xreadgroup : Bool) (group : Option (Bytes × Bytes))
    (key id : Bytes) : Parsed Unit := do
  let groups ← streamGroups context key
  match group with
  | some (groupname, _) =>
    if !groups groupname then
      throw (text "-NOGROUP No such key '" ++ cString key ++ text "' or consumer group '" ++
        cString groupname ++ text "' in XREADGROUP with GROUP option")
  | none => pure ()
  if equals id "$" then
    if xreadgroup then
      throw (text ("The $ ID is meaningless in the context of XREADGROUP: you want to read " ++
        "the history of this consumer by specifying a proper ID, or use the > ID to get new " ++
        "messages. The $ ID would just return an empty result set."))
  else if equals id ">" then
    if !xreadgroup then
      throw (text ("The > ID can be specified only when calling " ++
        "XREADGROUP using the GROUP <group> <consumer> option."))
  else if !context.parsesStrictId id then
    throw (text "Invalid stream ID specified as stream command argument")

def xreadCommand (context : Context) (xreadgroup : Bool) (argv : Argv) : Parsed (List Nat) := do
  let a ← parseXread context xreadgroup (argv.arg 0) 1 (argv.args.drop 1) {}
  if a.streamsArg = 0 then .error syntaxerr
  else if xreadgroup && a.group.isNone then
    .error (text "Missing GROUP option for XREADGROUP")
  else
    let streamsCount := (argv.argc - a.streamsArg) / 2
    (List.range streamsCount).forM fun i =>
      checkStream context xreadgroup a.group (argv.arg (a.streamsArg + i))
        (argv.arg (a.streamsArg + streamsCount + i))
    .ok ((List.range streamsCount).map (a.streamsArg + ·))

/-! ### Unions, intersections and differences of sorted sets -/

inductive SetOp where
  | union | inter | diff
deriving DecidableEq, Repr

inductive Aggregate where
  | sum | min | max
deriving DecidableEq, Repr

structure SetOpArguments where
  weights : List Float := []
  aggregate : Aggregate := .sum
  withscores : Bool := false

def aggregateNamed (arg : Bytes) : Option Aggregate :=
  if named arg "sum" then some .sum
  else if named arg "min" then some .min
  else if named arg "max" then some .max
  else none

/-- The options behind the keys; so many arguments still are weights. -/
def parseSetOp (context : Context) (op : SetOp) (dstkey : Bool) (setnum : Nat) :
    Nat → List Bytes → SetOpArguments → Parsed SetOpArguments
  | _, [], a => .ok a
  | left + 1, weight :: rest, a => do
    let weight ← getDoubleFromObjectOrReply context weight (text "weight value is not a float")
    parseSetOp context op dstkey setnum left rest { a with weights := a.weights ++ [weight] }
  | 0, option :: rest, a =>
    if op ≠ .diff ∧ setnum ≤ rest.length ∧ named option "weights" then
      parseSetOp context op dstkey setnum setnum rest { a with weights := [] }
    else if op ≠ .diff ∧ 1 ≤ rest.length ∧ named option "aggregate" then
      match rest with
      | [] => .error syntaxerr
      | way :: rest =>
        match aggregateNamed way with
        | some aggregate => parseSetOp context op dstkey setnum 0 rest { a with aggregate }
        | none => .error syntaxerr
    else if !dstkey ∧ named option "withscores" then
      parseSetOp context op dstkey setnum 0 rest { a with withscores := true }
    else .error syntaxerr

def checkSource (context : Context) (key : Bytes) : Parsed Unit :=
  match context.lookupKey key with
  | none | some .set | some (.zset _) => .ok ()
  | some _ => .error wrongtypeerr

def zunionInterDiffGenericCommand (context : Context) (name : String) (dstkey : Bool)
    (numkeysIndex : Nat) (op : SetOp) (argv : Argv) : Parsed (List Nat) := do
  let setnum ← getLongFromObjectOrReply (argv.arg numkeysIndex) none
  if setnum < 1 then .error (text s!"at least 1 input key is needed for {name}")
  else if (argv.argc : Int) - (numkeysIndex + 1) < setnum then .error syntaxerr
  else
    let sources := (List.range setnum.toNat).map (numkeysIndex + 1 + ·)
    sources.forM fun j => checkSource context (argv.arg j)
    let _ ← parseSetOp context op dstkey setnum.toNat 0
      (argv.args.drop (numkeysIndex + 1 + setnum.toNat)) {}
    .ok (if dstkey then sources ++ [1] else sources)

/-! ### STRALGO LCS -/

inductive LcsOption where
  | idx | len | withmatchlen | minmatchlen | strings | keys
deriving DecidableEq, Repr

def lcsOption (arg : Bytes) : Option LcsOption :=
  if named arg "idx" then some .idx
  else if named arg "len" then some .len
  else if named arg "withmatchlen" then some .withmatchlen
  else if named arg "minmatchlen" then some .minmatchlen
  else if named arg "strings" then some .strings
  else if named arg "keys" then some .keys
  else none

/-- The two strings, and the positions of their keys if they have keys. -/
structure LcsStrings where
  a : Bytes
  b : Bytes
  keys : List Nat

structure LcsArguments where
  minmatchlen : Int := 0
  getlen : Bool := false
  getidx : Bool := false
  withmatchlen : Bool := false
  strings : Option LcsStrings := none

/-- The string under a key; a missing key stands for the empty one. -/
def stringAt (context : Context) (key : Bytes) : Parsed Bytes :=
  match context.lookupKey key with
  | none => .ok []
  | some (.string content) => .ok content
  | some _ => .error (text "The specified keys must contain string values")

/-- The loop of `stralgoLCS` over its options. -/
def parseLcs (context : Context) : Nat → List Bytes → LcsArguments → Parsed LcsArguments
  | _, [], r => .ok r
  | j, opt :: rest, r =>
    match lcsOption opt, rest with
    | some .idx, rest => parseLcs context (j + 1) rest { r with getidx := true }
    | some .len, rest => parseLcs context (j + 1) rest { r with getlen := true }
    | some .withmatchlen, rest => parseLcs context (j + 1) rest { r with withmatchlen := true }
    | some .minmatchlen, value :: rest => do
      let minmatchlen ← getLongLongFromObjectOrReply value none
      parseLcs context (j + 2) rest { r with minmatchlen := max minmatchlen 0 }
    | some .strings, a :: b :: rest =>
      if r.strings.isSome then .error (text "Either use STRINGS or KEYS")
      else parseLcs context (j + 3) rest { r with strings := some ⟨a, b, []⟩ }
    | some .keys, first :: second :: rest =>
      if r.strings.isSome then .error (text "Either use STRINGS or KEYS")
      else do
        let a ← stringAt context first
        let b ← stringAt context second
        parseLcs context (j + 3) rest { r with strings := some ⟨a, b, [j + 1, j + 2]⟩ }
    | _, _ => .error syntaxerr

def stralgoLCS (context : Context) (argv : Argv) : Parsed (List Nat) := do
  let r ← parseLcs context 2 (argv.args.drop 2) {}
  match r.strings with
  | none => .error (text ("Please specify two strings: " ++
      "STRINGS or KEYS options are mandatory"))
  | some strings =>
    if r.getlen && r.getidx then
      .error (text ("If you want both the length and indexes, please " ++ "just use IDX."))
    else if 2 ^ 32 - 2 ≤ strings.a.length ∨ 2 ^ 32 - 2 ≤ strings.b.length then
      .error (text "String too long for LCS")
    else .ok strings.keys

/-- `stralgoCommand`: there is one algorithm only. -/
def stralgoCommand (context : Context) (argv : Argv) : Parsed (List Nat) :=
  if named (argv.arg 1) "lcs" then stralgoLCS context argv else .error syntaxerr

/-! ### The commands -/

inductive Command where
  | sort | georadius | georadiusbymember | xread | xreadgroup
  | zunionstore | zinterstore | zdiffstore | zunion | zinter | zdiff | stralgo
deriving DecidableEq, Repr

def Command.name : Command → String
  | sort => "sort"
  | georadius => "georadius"
  | georadiusbymember => "georadiusbymember"
  | xread => "xread"
  | xreadgroup => "xreadgroup"
  | zunionstore => "zunionstore"
  | zinterstore => "zinterstore"
  | zdiffstore => "zdiffstore"
  | zunion => "zunion"
  | zinter => "zinter"
  | zdiff => "zdiff"
  | stralgo => "stralgo"

def Command.arity : Command → Nat
  | sort | stralgo => 2
  | georadius => 6
  | georadiusbymember => 5
  | xread | zunionstore | zinterstore | zdiffstore => 4
  | xreadgroup => 7
  | zunion | zinter | zdiff => 3

/-- The positions of the keys of a command, if its parser accepts it. -/
def keysTouched (context : Context) (command : Command) (argv : Argv) : Parsed (List Nat) :=
  if argv.argc < command.arity then
    .error (text s!"wrong number of arguments for '{command.name}' command")
  else
    match command with
    | .sort => sortCommand context argv
    | .georadius => georadiusCommand context argv
    | .georadiusbymember => georadiusbymemberCommand context argv
    | .xread => xreadCommand context false argv
    | .xreadgroup => xreadCommand context true argv
    | .zunionstore => zunionInterDiffGenericCommand context command.name true 2 .union argv
    | .zinterstore => zunionInterDiffGenericCommand context command.name true 2 .inter argv
    | .zdiffstore => zunionInterDiffGenericCommand context command.name true 2 .diff argv
    | .zunion => zunionInterDiffGenericCommand context command.name false 1 .union argv
    | .zinter => zunionInterDiffGenericCommand context command.name false 1 .inter argv
    | .zdiff => zunionInterDiffGenericCommand context command.name false 1 .diff argv
    | .stralgo => stralgoCommand context argv

end LearningNotes.GetKeys
