import LearningNotes.GetKeys.Arguments
import LearningNotes.Lib.Outcome
import LearningNotes.Stream.Basic

/-! `XADD` of `t_stream.c`, and the key that it leaves behind when the elements are too large. -/

namespace LearningNotes.Stream

open Lib Util GetKeys

/-- The keys and their values; none has expired. -/
abbrev Keyspace := Bytes → Option Value

inductive Strategy where
  | maxlen (maxlen : Int)
  | minid (minid : StreamID)

structure AddTrimArgs where
  /-- `id_given` and `id`. -/
  id : Option StreamID := none
  noMkstream : Bool := false
  strategy : Option Strategy := none
  approxTrim : Bool := false
  limit : Int := 0

/-- What the command uses of server and client. -/
structure Server where
  mstime : Nat
  string2ull : Bytes → Option Nat
  /-- The command comes from the master or the AOF. -/
  trusted : Bool
  streamNodeMaxEntries : Int
  streamTrim : AddTrimArgs → Stream → Stream

/-- Why the command fails. -/
inductive Failure where
  /-- The arguments in front of the fields. -/
  | syntax_ (msg : Bytes)
  | arity
  | zeroId
  | wrongtype
  | exhausted
  /-- `EDOM`. -/
  | smallId
  /-- `ERANGE`. -/
  | tooLarge
deriving DecidableEq

def Failure.msg : Failure → Bytes
  | .syntax_ msg => msg
  | .arity => text "wrong number of arguments for XADD"
  | .zeroId => text "The ID specified in XADD must be greater than 0-0"
  | .wrongtype => wrongtypeerr
  | .exhausted => text "The stream has exhausted the last possible ID, unable to add more items"
  | .smallId =>
    text "The ID specified in XADD is equal or smaller than the target stream top item"
  | .tooLarge => text "Elements are too large to be stored"

inductive Reply where
  | error (failure : Failure)
  | null
  | id (id : StreamID)
deriving DecidableEq

def Reply.isId : Reply → Bool
  | id _ => true
  | _ => false

/-- A missing part is zero. -/
def streamParseStrictIDOrReply (server : Server) (o : Bytes) : Parsed StreamID :=
  let parsed : Option StreamID :=
    if 127 < o.length ∨ equals o "-" ∨ equals o "+" then none
    else
      match (cString o).span (· ≠ 45) with
      | (ms, []) => do return ⟨← server.string2ull ms, 0⟩
      | (ms, _ :: seq) => do return ⟨← server.string2ull ms, ← server.string2ull seq⟩
  match parsed with
  | some id => .ok id
  | none => .error (text "Invalid stream ID specified as stream command argument")

def parseStrategy (server : Server) (maxlen : Bool) (args : AddTrimArgs) (approxTrim : Bool)
    (value : Bytes) : Parsed AddTrimArgs := do
  if args.strategy.isSome then
    .error (text "syntax error, MAXLEN and MINID options at the same time are not compatible")
  else if maxlen then
    let count ← getLongLongFromObjectOrReply value none
    if count < 0 then .error (text "The MAXLEN argument must be >= 0.")
    else return { args with strategy := some (.maxlen count), approxTrim }
  else
    let minid ← streamParseStrictIDOrReply server value
    return { args with strategy := some (.minid minid), approxTrim }

/-- What was set, whether a limit was given, and the arguments behind the ID. -/
def parseOptions (server : Server) (args : AddTrimArgs) (limitGiven : Bool) :
    List Bytes → Parsed (AddTrimArgs × Bool × Option (List Bytes))
  | [] => .ok (args, limitGiven, none)
  | opt :: rest =>
    if equals opt "*" then .ok (args, limitGiven, some rest)
    else
      match named opt "maxlen" || named opt "minid", named opt "limit", rest with
      | true, _, mark :: value :: more => do
        if equals mark "~" || equals mark "=" then
          let args ← parseStrategy server (named opt "maxlen") args (equals mark "~") value
          parseOptions server args limitGiven more
        else
          let args ← parseStrategy server (named opt "maxlen") args false mark
          parseOptions server args limitGiven (value :: more)
      | true, _, [value] => do
        let args ← parseStrategy server (named opt "maxlen") args false value
        parseOptions server args limitGiven []
      | _, true, value :: more => do
        let limit ← getLongLongFromObjectOrReply value none
        if limit < 0 then .error (text "The LIMIT argument must be >= 0.")
        else parseOptions server { args with limit } true more
      | _, _, more =>
        if named opt "nomkstream" then
          parseOptions server { args with noMkstream := true } limitGiven more
        else do
          let id ← streamParseStrictIDOrReply server opt
          return ({ args with id := some id }, limitGiven, some more)

def streamParseAddOrTrimArgsOrReply (server : Server) (argv : List Bytes) :
    Parsed (AddTrimArgs × Option (List Bytes)) := do
  let (args, limitGiven, fields) ← parseOptions server {} false argv
  if args.limit ≠ 0 ∧ args.strategy.isNone then
    .error (text "syntax error, LIMIT cannot be used without specifying a trimming strategy")
  else if server.trusted then return ({ args with limit := 0 }, fields)
  else if limitGiven then
    if args.approxTrim then return (args, fields)
    else .error (text "syntax error, LIMIT cannot be used without the special ~ option")
  else
    let limit := if args.approxTrim then 100 * server.streamNodeMaxEntries else 0
    return ({ args with limit }, fields)

def maxId : StreamID := ⟨2 ^ 64 - 1, 2 ^ 64 - 1⟩

def streamIncrID (id : StreamID) : StreamID :=
  if id.seq = maxId.seq then
    if id.ms = maxId.ms then ⟨0, 0⟩ else ⟨id.ms + 1, 0⟩
  else ⟨id.ms, id.seq + 1⟩

def streamNextID (server : Server) (lastId : StreamID) : StreamID :=
  if server.mstime > lastId.ms then ⟨server.mstime, 0⟩ else streamIncrID lastId

def pairs : List Bytes → List (Bytes × Bytes)
  | field :: value :: rest => (field, value) :: pairs rest
  | _ => []

def streamListpackMaxSize : Nat := 2 ^ 30

def streamAppendItem (server : Server) (s : Stream) (argv : List Bytes) (useId : Option StreamID) :
    Except Failure (StreamID × Stream) :=
  let id := useId.getD (streamNextID server s.lastId)
  if streamCompareID id s.lastId ≠ .gt then .error .smallId
  else if (argv.map List.length).sum > streamListpackMaxSize then .error .tooLarge
  else .ok (id, { s with entries := s.entries ++ [(id, pairs argv)], lastId := id })

def Keyspace.set (db : Keyspace) (key : Bytes) (s : Stream) : Keyspace :=
  fun other => if other = key then some (.stream s) else db other

/-- The part of `xaddCommand` behind the lookup or creation of the stream. -/
def addItem (server : Server) (db : Keyspace) (key : Bytes) (s : Stream) (args : AddTrimArgs)
    (fields : List Bytes) : Reply × Keyspace :=
  if s.lastId = maxId then (.error .exhausted, db)
  else
    match streamAppendItem server s fields args.id with
    | .error failure => (.error failure, db)
    | .ok (id, s) =>
      (.id id, db.set key (if args.strategy.isSome then server.streamTrim args s else s))

def xaddCommand (server : Server) (db : Keyspace) (argv : Argv) : Reply × Keyspace :=
  let key := argv.arg 1
  match streamParseAddOrTrimArgsOrReply server (argv.args.drop 2) with
  | .error msg => (.error (.syntax_ msg), db)
  | .ok (_, none) => (.error .arity, db)
  | .ok (args, some fields) =>
    if fields.length < 2 ∨ fields.length % 2 = 1 then (.error .arity, db)
    -- Avoid a new stream that stays empty.
    else if args.id = some ⟨0, 0⟩ then (.error .zeroId, db)
    else
      match db key with
      | some (.string _) => (.error .wrongtype, db)
      | some (.stream s) => addItem server db key s args fields
      | none =>
        if args.noMkstream then (.null, db)
        else addItem server (db.set key streamNew) key streamNew args fields

variable {server : Server} {db : Keyspace} {key : Bytes} {args : AddTrimArgs} {fields : List Bytes}
    {failure : Failure}

/-- An entry is not added, and the keyspace is as it was found. -/
theorem addItem_unchanged {s : Stream}
    (failed : (addItem server db key s args fields).1.isId = false) :
    (addItem server db key s args fields).2 = db := by
  unfold addItem at failed ⊢
  split
  · rfl
  rename_i more
  rw [if_neg more] at failed
  split
  · rfl
  · rename_i appended
    rw [appended] at failed
    cases failed

/-- A new stream takes every entry that is not too large. -/
theorem addItem_new (nonzero : args.id ≠ some ⟨0, 0⟩) :
    (addItem server db key streamNew args fields).1.isId = true ∧
        (fields.map List.length).sum ≤ streamListpackMaxSize ∨
      (addItem server db key streamNew args fields).1 = .error .tooLarge ∧
        streamListpackMaxSize < (fields.map List.length).sum := by
  have greater : ∀ id : StreamID, id ≠ ⟨0, 0⟩ → streamCompareID id ⟨0, 0⟩ = .gt := by
    rintro ⟨_ | ms, _ | seq⟩ other
    · exact absurd rfl other
    all_goals simp [streamCompareID, Nat.compare_eq_gt.mpr]
  -- A new ID is never zero.
  have next : args.id.getD (streamNextID server ⟨0, 0⟩) ≠ ⟨0, 0⟩ := by
    cases given : args.id with
    | some id => exact fun zero => nonzero (given.trans (congrArg some zero))
    | none =>
      simp only [Option.getD_none, streamNextID]
      split
      · simp only [ne_eq, StreamID.mk.injEq]
        omega
      · decide
  rw [addItem, if_neg (by decide), streamAppendItem]
  simp only [streamNew, greater _ next, ne_eq, not_true_eq_false, if_false]
  by_cases large : streamListpackMaxSize < (fields.map List.length).sum
  · exact .inr ⟨by rw [if_pos large], large⟩
  · exact .inl ⟨by rw [if_neg large]; rfl, by omega⟩

/--
The arguments ask for a new stream whose first entry is too large.

They have the form of an `XADD` with an ID other than 0-0 that creates the missing key.
-/
def CreatesInVain (server : Server) (db : Keyspace) (argv : Argv) : Prop :=
  db (argv.arg 1) = none ∧ ∃ args fields,
    streamParseAddOrTrimArgsOrReply server (argv.args.drop 2) = .ok (args, some fields) ∧
      2 ≤ fields.length ∧ fields.length % 2 = 0 ∧ args.id ≠ some ⟨0, 0⟩ ∧
      args.noMkstream = false ∧ streamListpackMaxSize < (fields.map List.length).sum

theorem xaddCommand_in_vain {argv : Argv} (vain : CreatesInVain server db argv) :
    (xaddCommand server db argv).1 = .error .tooLarge ∧
      (xaddCommand server db argv).2 (argv.arg 1) = some (.stream streamNew) := by
  obtain ⟨absent, args, fields, parsed, two, even, nonzero, creates, large⟩ := vain
  have refused : (addItem server (db.set (argv.arg 1) streamNew) (argv.arg 1) streamNew args
      fields).1 = .error .tooLarge :=
    ((addItem_new nonzero).resolve_left fun added => Nat.not_lt.mpr added.2 large).1
  have unchanged := addItem_unchanged (congrArg Reply.isId refused)
  have pairs : ¬ (fields.length < 2 ∨ fields.length % 2 = 1) := by omega
  have result : xaddCommand server db argv =
      addItem server (db.set (argv.arg 1) streamNew) (argv.arg 1) streamNew args fields := by
    simp only [xaddCommand, parsed, if_neg pairs, if_neg nonzero, absent, creates,
      Bool.false_eq_true, if_false]
  rw [result, refused, unchanged]
  simp [Keyspace.set]

theorem xaddCommand_unchanged {argv : Argv} (useful : ¬ CreatesInVain server db argv)
    (failed : (xaddCommand server db argv).1.isId = false) :
    (xaddCommand server db argv).2 = db := by
  revert failed
  unfold xaddCommand
  dsimp only
  split
  · exact fun _ => rfl
  · exact fun _ => rfl
  rename_i args fields parsed
  split
  · exact fun _ => rfl
  rename_i pairs
  split
  · exact fun _ => rfl
  rename_i nonzero
  split
  · exact fun _ => rfl
  · exact addItem_unchanged
  rename_i absent
  split
  · exact fun _ => rfl
  rename_i creates
  -- Behind the creation only the size can be wrong.
  rcases addItem_new nonzero with ⟨added, _⟩ | ⟨_, large⟩
  · exact fun failed => absurd (added.symm.trans failed) nofun
  · exact absurd ⟨absent, args, fields, parsed, by omega, by omega, nonzero, by simpa using creates,
      large⟩ useful

/-- `XADD` is all or nothing just if it creates no stream for elements that are too large. -/
theorem xaddCommand_unchanged_iff (server : Server) (db : Keyspace) (argv : Argv) :
    (∀ failure, (xaddCommand server db argv).1 = .error failure →
      (xaddCommand server db argv).2 = db) ↔ ¬ CreatesInVain server db argv := by
  constructor
  · intro same vain
    obtain ⟨failed, created⟩ := xaddCommand_in_vain vain
    rw [same _ failed, vain.1] at created
    cases created
  · intro useful failure failed
    exact xaddCommand_unchanged useful (congrArg Reply.isId failed)

/-- A server with this clock that reads numbers as `string2ll` does. -/
def someServer : Server := ⟨1, fun s => (string2ll s).map Int.toNat, false, 100, fun _ s => s⟩

def xadd (name id : Bytes) : Argv := ⟨[text "xadd", name, id, [102], [118]], by simp⟩

/-- Under every key there is a stream with one entry. -/
def manyStreams : Keyspace := fun name => some (.stream ⟨[(⟨5, 5⟩, [([102], name)])], ⟨5, 5⟩, []⟩)

/-- An ID that is not behind the last one is refused, and all streams stay as they are. -/
theorem xadd_small_id_unchanged :
    (xaddCommand someServer manyStreams (xadd [115] (text "3-7"))).1 = .error .smallId ∧
      (xaddCommand someServer manyStreams (xadd [115] (text "3-7"))).2 = manyStreams := by
  have failed : (xaddCommand someServer manyStreams (xadd [115] (text "3-7"))).1 =
    .error .smallId := by decide +kernel
  exact ⟨failed, (xaddCommand_unchanged_iff _ _ _).mpr (fun vain => nomatch vain.1) _ failed⟩

theorem parse_star (server : Server) (fields : List Bytes) :
    streamParseAddOrTrimArgsOrReply server (text "*" :: fields) = .ok ({}, some fields) := by
  have star : parseOptions server {} false (text "*" :: fields) =
      .ok ({}, false, some fields) := by
    unfold parseOptions
    exact if_pos (by simp [equals])
  simp only [streamParseAddOrTrimArgsOrReply, star, ok_bind]
  cases server.trusted with
  | true => rfl
  | false => rfl

/-- Elements that are too large together leave an empty stream behind. -/
theorem xadd_too_large_creates_key :
    ∃ argv : Argv, (xaddCommand someServer (fun _ => none) argv).1 = .error .tooLarge ∧
      (xaddCommand someServer (fun _ => none) argv).2 (argv.arg 1) = some (.stream streamNew) := by
  obtain ⟨large, size⟩ : ∃ large : Bytes, large.length = 2 ^ 29 :=
    ⟨List.replicate _ 0, List.length_replicate⟩
  let argv : Argv := ⟨[text "xadd", [115], text "*", [102], large, [103], large], by simp⟩
  have vain : CreatesInVain someServer (fun _ => none) argv :=
    ⟨rfl, {}, _, parse_star _ _, by simp, by simp, nofun, rfl, by simp [size, streamListpackMaxSize]⟩
  exact ⟨argv, xaddCommand_in_vain vain⟩

end LearningNotes.Stream
