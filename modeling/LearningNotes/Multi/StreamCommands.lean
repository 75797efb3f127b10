import LearningNotes.Multi.Locking
import LearningNotes.Stream.Xadd
import LearningNotes.Util.Sds

/-! Commands on streams and their consumer groups: which of them report what they change. -/

namespace LearningNotes.Multi

open Lib Util
open GetKeys (Argv)
open LearningNotes.Stream (StreamID streamCompareID Nack Consumer Group Value streamNew)

section Streams

/-! A radix tree is given by its members in the order of their keys, which have the map that a tree
of `Rax` stands for: the same one after they were inserted or removed. -/

def modifyConsumer (group : Group) (name : Bytes) (change : Consumer → Consumer) : Group :=
  match findMember group.consumers name with
  | none => group
  | some consumer =>
    { group with consumers := insertMember sdscmp name (change consumer) group.consumers }

def addPending (id : StreamID) (consumer : Consumer) : Consumer :=
  { consumer with
    pel := (insertMember streamCompareID id () (consumer.pel.map fun id => (id, ()))).map Prod.fst }

def removePending (id : StreamID) (consumer : Consumer) : Consumer :=
  { consumer with pel := consumer.pel.filter (· ≠ id) }

/-- The consumer is created if needed, and seen unless told otherwise. -/
def streamLookupConsumer (group : Group) (name : Bytes) (refresh : Bool) (now : Int) : Group :=
  match findMember group.consumers name with
  | none => { group with consumers := insertMember sdscmp name ⟨now, []⟩ group.consumers }
  | some consumer =>
    if refresh then
      { group with
        consumers := insertMember sdscmp name { consumer with seenTime := now } group.consumers }
    else group

def streamDelConsumer (group : Group) (name : Bytes) : Group :=
  match findMember group.consumers name with
  | none => group
  | some consumer =>
    { group with
      pel := group.pel.filter fun member => member.1 ∉ consumer.pel
      consumers := removeMember group.consumers name }

def ackOne (group : Group) (id : StreamID) : Group :=
  match findMember group.pel id with
  | none => group
  | some nack =>
    let group := { group with pel := removeMember group.pel id }
    match nack.consumer with
    | none => group
    | some name => modifyConsumer group name (removePending id)

structure Claim where
  consumer : Bytes
  minidle : Int
  ids : List StreamID
  -- What `IDLE` or `TIME` make of the time, if given.
  deliverytime : Option Int
  retrycount : Option Nat
  force : Bool
  justid : Bool
  lastId : StreamID
  now : Int

/-- One round of `XCLAIM`, at the time of delivery. -/
def claimOne (entries : List (StreamID × List (Bytes × Bytes))) (claim : Claim)
    (deliverytime : Int) (group : Group) (id : StreamID) : Group :=
  let found :=
    match findMember group.pel id with
    | some nack => some nack
    | none =>
      -- With `FORCE`, an entry of the stream becomes pending.
      if claim.force && (findMember entries id).isSome then some ⟨claim.now, 1, none⟩ else none
  match found with
  | none => group
  | some nack =>
    if nack.consumer.isSome && claim.minidle ≠ 0 &&
        decide (claim.now - nack.deliveryTime < claim.minidle) then group
    else
      let group := streamLookupConsumer group claim.consumer true claim.now
      let group :=
        match nack.consumer with
        | none => group
        | some old =>
          if old = claim.consumer then group else modifyConsumer group old (removePending id)
      let group := modifyConsumer group claim.consumer (addPending id)
      let count :=
        match claim.retrycount with
        | some count => count
        | none => if claim.justid then nack.deliveryCount else nack.deliveryCount + 1
      { group with
        pel := insertMember streamCompareID id ⟨deliverytime, count, some claim.consumer⟩ group.pel }

theorem modifyConsumer_pel (group : Group) (name : Bytes) (change : Consumer → Consumer) :
    (modifyConsumer group name change).pel = group.pel := by
  rw [modifyConsumer]
  split <;> rfl

/-- A change of a consumer is seen at its name only. -/
theorem modifyConsumer_consumers {group : Group} {name : Bytes} {consumer : Consumer}
    (found : findMember group.consumers name = some consumer) (change : Consumer → Consumer) :
    findMember (modifyConsumer group name change).consumers =
      insertKey (findMember group.consumers) name (change consumer) := by
  rw [modifyConsumer, found]
  exact findMember_insertMember sdscmp name (change consumer) group.consumers

/-- An acknowledged ID is pending no more, and the others are as they were. -/
theorem ackOne_pel (group : Group) (id : StreamID) :
    findMember (ackOne group id).pel = eraseKey (findMember group.pel) id := by
  rw [ackOne]
  split
  · exact (eraseKey_absent ‹_›).symm
  · dsimp only
    split
    · exact findMember_removeMember group.pel id
    · rw [modifyConsumer_pel, findMember_removeMember]

/-- The part of `XCLAIM` behind the arguments. -/
def claimAll (s : Stream) (claim : Claim) (group : Group) : Group :=
  let group :=
    if streamCompareID claim.lastId group.lastId = .gt then { group with lastId := claim.lastId }
    else group
  let deliverytime :=
    match claim.deliverytime with
    | none => claim.now
    | some time => if time < 0 ∨ time > claim.now then claim.now else time
  claim.ids.foldl (claimOne s.entries claim deliverytime) group

end Streams

section Commands

/-- Commands that were parsed; one with wrong arguments does nothing. -/
inductive Command where
  | set (name value : Bytes)
  | del (name : Bytes)
  | flushdb
  | swapdb (id1 id2 : Nat)
  | xadd (server : Stream.Server) (argv : Argv)
  | xdel (name : Bytes) (ids : List StreamID)
  -- No ID stands for `$`.
  | xgroupCreate (name group : Bytes) (id : Option StreamID) (mkstream : Bool)
  | xgroupSetid (name group : Bytes) (id : Option StreamID)
  | xgroupDestroy (name group : Bytes)
  | xgroupCreateconsumer (name group consumer : Bytes) (now : Int)
  | xgroupDelconsumer (name group consumer : Bytes)
  | xsetid (name : Bytes) (id : StreamID)
  | xack (name group : Bytes) (ids : List StreamID)
  | xclaim (name group : Bytes) (claim : Claim)

variable (dict : Dict Value) (db : Nat)

/-- A command that changes a stream in place. -/
def onStream (name : Bytes) (change : Stream → List (Op Value)) : List (Op Value) :=
  match dict (db, name) with
  | some (.stream s) => change s
  | _ => []

def onGroup (name group : Bytes) (change : Stream → Group → Group) : List (Op Value) :=
  onStream dict db name fun s =>
    match findMember s.cgroups group with
    | none => []
    | some cg =>
      [.write (db, name)
        (some (.stream { s with cgroups := insertMember sdscmp group (change s cg) s.cgroups }))]

/-- `XADD` reports an entry that it has added, and no stream that it has created in vain. -/
def xaddCommand (server : Stream.Server) (argv : Argv) : List (Op Value) :=
  let key := (db, argv.arg 1)
  let (reply, after) := Stream.xaddCommand server (fun name => dict (db, name)) argv
  .write key (after (argv.arg 1)) :: if reply.isId then [.signalModifiedKey key] else []

def xdelCommand (name : Bytes) (ids : List StreamID) : List (Op Value) :=
  onStream dict db name fun s =>
    if s.entries.any fun entry => ids.contains entry.1 then
      [.write (db, name) (some (.stream { s with
        entries := s.entries.filter fun entry => !ids.contains entry.1 })),
        .signalModifiedKey (db, name)]
    else []

/-- Only the creation of the stream is reported. -/
def xgroupCreate (name group : Bytes) (id : Option StreamID) (mkstream : Bool) :
    List (Op Value) :=
  let create (s : Stream) : List (Op Value) :=
    match findMember s.cgroups group with
    | some _ => []
    | none =>
      [.write (db, name) (some (.stream { s with
        cgroups := insertMember sdscmp group ⟨id.getD s.lastId, [], []⟩ s.cgroups }))]
  match dict (db, name) with
  | some (.stream s) => create s
  | some (.string _) => []
  | none =>
    if mkstream then
      [.write (db, name) (some (.stream streamNew)), .signalModifiedKey (db, name)] ++
        create streamNew
    else []

def xsetidCommand (name : Bytes) (id : StreamID) : List (Op Value) :=
  onStream dict db name fun s =>
    match s.entries.getLast? with
    | some top =>
      if streamCompareID id top.1 = .lt then []
      else [.write (db, name) (some (.stream { s with lastId := id }))]
    | none => [.write (db, name) (some (.stream { s with lastId := id }))]

def streamCommands : Commands Value Command := fun dict db cmd =>
  match cmd with
  | .set name value => [.write (db, name) (some (.string value)), .signalModifiedKey (db, name)]
  | .del name =>
    if (dict (db, name)).isSome then [.write (db, name) none, .signalModifiedKey (db, name)] else []
  | .flushdb => [.touchAllWatchedKeysInDb db none, .emptyDb db]
  | .swapdb id1 id2 =>
    if id1 = id2 then []
    else
      [.swapDb id1 id2, .touchAllWatchedKeysInDb id1 (some id2),
        .touchAllWatchedKeysInDb id2 (some id1)]
  | .xadd server argv => xaddCommand dict db server argv
  | .xdel name ids => xdelCommand dict db name ids
  | .xgroupCreate name group id mkstream => xgroupCreate dict db name group id mkstream
  | .xgroupSetid name group id =>
    onGroup dict db name group fun s cg => { cg with lastId := id.getD s.lastId }
  | .xgroupDestroy name group =>
    onStream dict db name fun s =>
      [.write (db, name) (some (.stream { s with cgroups := removeMember s.cgroups group }))]
  | .xgroupCreateconsumer name group consumer now =>
    onGroup dict db name group fun _ cg => streamLookupConsumer cg consumer false now
  | .xgroupDelconsumer name group consumer =>
    onGroup dict db name group fun _ cg => streamDelConsumer cg consumer
  | .xsetid name id => xsetidCommand dict db name id
  | .xack name group ids => onGroup dict db name group fun _ cg => ids.foldl ackOne cg
  | .xclaim name group claim => onGroup dict db name group fun s cg => claimAll s claim cg

end Commands

section Reports

/-- Only keys that are reported are changed. -/
def Reports (dict : Dict Value) (ops : List (Op Value)) : Prop :=
  ∀ key, ops.foldl Op.onDict dict key ≠ dict key → touchesFrom key dict ops

/-- Commands that never report anything. -/
def Command.silent : Command → Bool
  | .xgroupSetid .. | .xgroupDestroy .. | .xgroupCreateconsumer .. | .xgroupDelconsumer ..
  | .xsetid .. | .xack .. | .xclaim .. => true
  | _ => false

variable {dict : Dict Value} {db : Nat}

theorem reports_nil : Reports dict [] := fun _ changed => absurd rfl changed

theorem reports_write (key : Key) (value : Option Value) :
    Reports dict [.write key value, .signalModifiedKey key] := by
  intro other changed
  by_cases same : other = key
  · exact .inr (.inl same.symm)
  · exact absurd (if_neg same) changed

theorem reports_flushdb : Reports dict (streamCommands dict db .flushdb) := by
  intro key changed
  by_cases here : key.1 = db
  · -- A key that was there is lost, and it was there when the table was looked through.
    subst here
    have some : dict key ≠ none := fun none => changed ((if_pos rfl).trans none.symm)
    exact .inl ⟨rfl, by simpa [existsInEither] using Option.isSome_iff_ne_none.mpr some⟩
  · exact absurd (if_neg here) changed

theorem reports_swapdb (id1 id2 : Nat) : Reports dict (streamCommands dict db (.swapdb id1 id2)) := by
  rw [streamCommands]
  split
  · exact reports_nil
  rename_i apart
  rintro ⟨number, name⟩ changed
  -- If it existed in neither of them it would be missing before and after.
  by_cases first : number = id1
  all_goals
    cases one : dict (id1, name) <;> cases two : dict (id2, name) <;>
      simp_all [touchesFrom, Op.Touches, Op.onDict, existsInEither, Ne.symm apart]

theorem reports_xadd {server : Stream.Server} {argv : Argv}
    (useful : ¬ Stream.CreatesInVain server (fun name => dict (db, name)) argv) :
    Reports dict (streamCommands dict db (.xadd server argv)) := by
  dsimp only [streamCommands, xaddCommand]
  cases added : (Stream.xaddCommand server (fun name => dict (db, name)) argv).1.isId with
  | true => exact reports_write _ _
  | false =>
    -- The value that is written is the one that was there.
    rw [Stream.xaddCommand_unchanged useful added]
    intro key changed
    refine absurd ?_ changed
    by_cases same : key = (db, argv.arg 1)
    · exact (if_pos same).trans (congrArg dict same.symm)
    · exact if_neg same

/-- What a command can change without a report of it. -/
def Command.Unreported (dict : Dict Value) (db : Nat) : Command → Prop
  | xadd server argv => Stream.CreatesInVain server (fun name => dict (db, name)) argv
  | xgroupCreate .. => True
  | cmd => cmd.silent = true

theorem reports_of_not_unreported {cmd : Command} (loud : ¬ cmd.Unreported dict db) :
    Reports dict (streamCommands dict db cmd) := by
  cases cmd with
  | flushdb => exact reports_flushdb
  | swapdb id1 id2 => exact reports_swapdb id1 id2
  | xadd server argv => exact reports_xadd loud
  | xgroupCreate | xgroupSetid | xgroupDestroy | xgroupCreateconsumer | xgroupDelconsumer | xsetid
  | xack | xclaim => simp [Command.Unreported, Command.silent] at loud
  | set | del | xdel =>
    -- Each of the others reports what it writes.
    simp only [streamCommands, xdelCommand, onStream]
    repeat' split
    all_goals first | exact reports_write _ _ | exact reports_nil

theorem not_touches_of_silent {cmd : Command} (silent : cmd.silent = true) (key : Key) :
    ¬ touchesFrom key dict (streamCommands dict db cmd) := by
  cases cmd with
  | set | del | flushdb | swapdb | xadd | xdel | xgroupCreate => cases silent
  | _ =>
    -- Each of the others writes, if it does anything.
    simp only [streamCommands, onGroup, onStream, xsetidCommand]
    repeat' split
    all_goals simp [touchesFrom, Op.Touches]

/-- Where `EXEC` runs, only such a command of another client can have changed a watched key. -/
theorem exec_misses_unreported {s : Server Value Command} {c : Nat} {key : Key}
    (fresh : Fresh s) (earlier later : List (Step Value Command)) (expired : Key → Bool) :
    let between := (run streamCommands s earlier).2
    let after := run streamCommands between later
    Watching streamCommands c key between later → execRuns expired (after.2.clients c) = true →
      ∀ call ∈ after.1, call.client ≠ c → call.Changes key →
        ∀ db cmd, call.ops = streamCommands call.before db cmd →
          cmd.Unreported call.before db := by
  intro between after watching runs call listed other changes db cmd made
  by_contra loud
  -- The change was reported, so the client is dirty.
  have touched : call.Touches key := by
    rw [Call.Touches, made]
    exact reports_of_not_unreported loud key (made ▸ changes)
  have dirty := (run_locks later (run_linked streamCommands earlier fresh.linked) watching).2
    call listed other touched
  simp [execRuns, after, between, dirty] at runs

end Reports

section Examples

def emptyServer : Server Value Command where
  dict := fun _ => none
  watchedKeys := fun _ => []
  clients := fun _ => newClient

/-- A stream with one pending entry is watched by the first client. -/
def watchedStream : List (Step Value Command) :=
  [.request 1 (.other (.xadd Stream.someServer (Stream.xadd [115] (text "1-1")))),
    .request 1 (.other (.xgroupCreate [115] [103] (some ⟨0, 0⟩) false)),
    .request 1 (.other (.xclaim [115] [103]
      { consumer := [97], minidle := 0, ids := [⟨1, 1⟩], deliverytime := none, retrycount := none,
        force := true, justid := false, lastId := ⟨1, 1⟩, now := 5 })),
    .request 0 (.watch [[115]])]

/-- Another client runs a command before the transaction starts. -/
def overlooked (cmd : Command) : List (Step Value Command) :=
  [.request 1 (.other cmd), .request 0 .multi, .request 0 (.other (.set [107] [118]))]

theorem emptyServer_fresh : Fresh emptyServer := ⟨fun _ => rfl, fun _ => rfl⟩

/-- An entry that is added to another stream does not stop the transaction. -/
theorem exec_runs_beside_xadd :
    let later := overlooked (.xadd Stream.someServer (Stream.xadd [116] (text "*")))
    let between := run streamCommands emptyServer watchedStream
    Watching streamCommands 0 (0, [115]) between.2 later ∧
      execRuns (fun _ => false) ((run streamCommands between.2 later).2.clients 0) = true ∧
      ∀ call ∈ (run streamCommands between.2 later).1, call.client ≠ 0 →
        ¬ call.Changes (0, [115]) := by
  have watching : Watching streamCommands 0 (0, [115])
      (run streamCommands emptyServer watchedStream).2
      (overlooked (.xadd Stream.someServer (Stream.xadd [116] (text "*")))) := by decide +kernel
  have runs : execRuns (fun _ => false) ((run streamCommands
      (run streamCommands emptyServer watchedStream).2
      (overlooked (.xadd Stream.someServer (Stream.xadd [116] (text "*"))))).2.clients 0) =
      true := by decide +kernel
  refine ⟨watching, runs, ?_⟩
  exact (exec_unchanged_iff_reported streamCommands emptyServer_fresh watchedStream _ watching
    runs).mpr (by decide +kernel)

/-- The transaction runs although the watched stream was changed. -/
def RunsDespite (cmd : Command) : Prop :=
  let between := run streamCommands emptyServer watchedStream
  Watching streamCommands 0 (0, [115]) between.2 (overlooked cmd) ∧
    execRuns (fun _ => false) ((run streamCommands between.2 (overlooked cmd)).2.clients 0) = true ∧
    ∃ call ∈ (run streamCommands between.2 (overlooked cmd)).1, call.client ≠ 0 ∧
      call.Changes (0, [115])

instance (cmd : Command) : Decidable (RunsDespite cmd) := by
  unfold RunsDespite
  infer_instance

/-- `XACK` takes the pending entry from the watched stream, `XSETID` changes its last ID and
`XCLAIM` the owner of the entry, and the transaction runs all the same. -/
theorem exec_runs_after_silent_change :
    RunsDespite (.xack [115] [103] [⟨1, 1⟩]) ∧ RunsDespite (.xsetid [115] ⟨9, 9⟩) ∧
      RunsDespite (.xclaim [115] [103]
        { consumer := [98], minidle := 0, ids := [⟨1, 1⟩], deliverytime := none,
          retrycount := none, force := false, justid := false, lastId := ⟨0, 0⟩, now := 6 }) := by
  decide +kernel

theorem xack_missed :
    ∃ call ∈ (run streamCommands (run streamCommands emptyServer watchedStream).2
      (overlooked (.xack [115] [103] [⟨1, 1⟩]))).1, call.Changes (0, [115]) ∧
        ∀ db cmd, call.ops = streamCommands call.before db cmd →
          cmd.Unreported call.before db := by
  obtain ⟨watching, runs, call, listed, other, changes⟩ :
    RunsDespite (.xack [115] [103] [⟨1, 1⟩]) := by decide +kernel
  exact ⟨call, listed, changes, exec_misses_unreported emptyServer_fresh watchedStream _ _
    watching runs call listed other changes⟩

end Examples

end LearningNotes.Multi
