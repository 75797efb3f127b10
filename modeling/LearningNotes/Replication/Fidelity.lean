import LearningNotes.Replication.Feed
import LearningNotes.Replication.Resync
import LearningNotes.Networking.Commands

/-! Every replica is sent the bytes of the backlog, and executes the commands that were propagated. -/

namespace LearningNotes.Replication

open Lib Lib.Memory Util Networking List

section Output

/-- What does not change when bytes are queued. -/
def Replica.core (c : Replica) : Replica :=
  { c with flags := { c.flags with closeAsap := false }, buf := [], reply := [] }

/-- A replica that takes the stream until it is to be closed. -/
structure Receiving (c : Replica) : Prop where
  fed : canFeedReplicaReplBuffer c.core = true
  writable : prepareClientToWrite c.core = true
  staying : c.core.flags.closeAfterReply = false

/-- Bytes were queued, unless the replica takes none or is to be closed. -/
structure Queues (data : Bytes) (c c' : Replica) : Prop where
  core : c'.core = c.core
  closing : c.flags.closeAsap = true → c'.flags.closeAsap = true
  queued : Receiving c → c'.flags.closeAsap = false → c'.queued = c.queued ++ data

variable {env : Surroundings} {c middle c' : Replica} {data more s : Bytes}

theorem receiving_of_core (same : c'.core = c.core) (receiving : Receiving c) : Receiving c' := by
  obtain ⟨fed, writable, staying⟩ := receiving
  rw [← same] at fed writable staying
  exact ⟨fed, writable, staying⟩

theorem Queues.refl (c : Replica) : Queues [] c c :=
  ⟨rfl, fun closing => closing, fun _ _ => (append_nil _).symm⟩

theorem Queues.trans (first : Queues data c middle) (second : Queues more middle c') :
    Queues (data ++ more) c c' := by
  refine ⟨second.core.trans first.core, fun closing => second.closing (first.closing closing), ?_⟩
  intro receiving stays
  -- A replica that is not to be closed in the end was not to be closed before.
  have stayed : middle.flags.closeAsap = false := by
    cases closing : middle.flags.closeAsap with
    | false => rfl
    | true =>
      rw [second.closing closing] at stays
      cases stays
  rw [second.queued (receiving_of_core first.core receiving) stays,
    first.queued receiving stayed, append_assoc]

theorem fillTail_bytes (reply : List ReplyBlock) (s : Bytes) :
    ((fillTail reply s).1.flatMap fun block => block.buf) ++ (fillTail reply s).2 =
      (reply.flatMap fun block => block.buf) ++ s := by
  unfold fillTail
  cases last : reply.getLast? with
  | none => rfl
  | some tail =>
    -- The list is its last block behind the others.
    obtain ⟨front, rfl⟩ := getLast?_eq_some_iff.mp last
    simp only [dropLast_concat, flatMap_append, flatMap_singleton, append_assoc, take_append_drop]

theorem closeClient_core (c : Replica) :
    (closeClientOnOutputBufferLimitReached env c).core = c.core ∧
      (closeClientOnOutputBufferLimitReached env c).queued = c.queued ∧
      (c.flags.closeAsap = true →
        (closeClientOnOutputBufferLimitReached env c).flags.closeAsap = true) := by
  unfold closeClientOnOutputBufferLimitReached
  repeat' split
  · exact ⟨rfl, rfl, fun closing => closing⟩
  · exact ⟨rfl, rfl, fun _ => rfl⟩
  · exact ⟨rfl, rfl, fun closing => closing⟩

theorem addReplyProtoToList_queues (c : Replica) (s : Bytes) :
    Queues s c (addReplyProtoToList env c s) := by
  unfold addReplyProtoToList
  have bytes := fillTail_bytes c.reply s
  generalize fillTail c.reply s = filled at bytes ⊢
  obtain ⟨reply, left⟩ := filled
  dsimp only at bytes ⊢
  split
  · -- A client that is closed after its last reply does not receive anything.
    rename_i leaving
    exact ⟨rfl, fun closing => closing, fun receiving _ =>
      absurd (leaving.symm.trans receiving.staying) (by simp)⟩
  split
  · rename_i none
    rw [none, append_nil] at bytes
    refine ⟨rfl, fun closing => closing, fun _ _ => ?_⟩
    rw [Replica.queued, Replica.queued, bytes, append_assoc]
  · generalize (if left.length < protoReplyChunkBytes then protoReplyChunkBytes
      else left.length) = size
    obtain ⟨core, queued, closing⟩ := @closeClient_core env
      { c with reply := reply ++ [{ size := env.usableSize size, buf := left }] }
    refine ⟨core, closing, fun _ _ => ?_⟩
    rw [queued, Replica.queued, Replica.queued, flatMap_append, flatMap_singleton,
      bytes, append_assoc]

theorem addReplyProto_queues (c : Replica) (s : Bytes) : Queues s c (addReplyProto env c s) := by
  unfold addReplyProto
  split
  · cases buffered : addReplyToBuffer c s with
    | none => exact addReplyProtoToList_queues c s
    | some c' =>
      unfold addReplyToBuffer at buffered
      split at buffered
      · rename_i leaving
        cases buffered
        exact ⟨rfl, fun closing => closing, fun receiving _ =>
          absurd (leaving.symm.trans receiving.staying) (by simp)⟩
      split at buffered
      · cases buffered
      rename_i empty
      split at buffered
      · cases buffered
      · -- The list is empty, so the buffer is all there is.
        cases buffered
        have none : c.reply = [] := Decidable.not_not.mp empty
        refine ⟨rfl, fun closing => closing, fun _ _ => ?_⟩
        simp [Replica.queued, none]
  · -- Only a client that is to be closed takes nothing although it is receiving.
    rename_i refused
    refine ⟨rfl, fun closing => closing, fun receiving stays => absurd ?_ refused⟩
    have open_ : prepareClientToWrite c = prepareClientToWrite c.core := by
      simp [prepareClientToWrite, Replica.core, stays]
    rw [open_]
    exact receiving.writable

theorem addReply_queues (c : Replica) (obj : Robj) :
    Queues (getDecodedObject obj) c (addReply env c obj) := by
  cases obj with
  | raw s => exact addReplyProto_queues c s
  | int value => exact addReplyProto_queues c (decimal value)

theorem take_sharedHeader {mark : UInt8} {ll : Nat} (small : ll < objSharedBulkhdrLen) :
    (headerLine mark ll).take (objSharedHdrStrlen ll) = headerLine mark ll := by
  have length : (headerLine mark ll).length = objSharedHdrStrlen ll := by
    unfold objSharedHdrStrlen
    simp only [headerLine, crlf, length_append, length_cons, length_nil]
    split
    · rename_i single
      rw [natDigits_of_lt single, length_singleton]
    · have two := @length_natDigits_eq ll 1 (by omega) (Nat.lt_trans small (by decide))
      rw [two]
  rw [← length, take_length]

theorem addReplyLongLongWithPrefix_queues (c : Replica) (ll : Nat) (mark : UInt8) :
    Queues (headerLine mark ll) c (addReplyLongLongWithPrefix env c ll mark) := by
  unfold addReplyLongLongWithPrefix
  split
  · rename_i small
    rw [take_sharedHeader small]
    exact addReplyProto_queues c _
  · exact addReplyProto_queues c _

theorem addReplyBulk_queues (c : Replica) (obj : Robj) :
    Queues (bulk (getDecodedObject obj)) c (addReplyBulk env c obj) := by
  have header := @addReplyLongLongWithPrefix_queues env c (stringObjectLen obj) 36
  rw [stringObjectLen_eq] at header
  have body := header.trans (@addReply_queues env _ obj)
  have all := body.trans (@addReply_queues env _ (.raw crlf))
  rw [append_assoc] at all
  rw [addReplyBulk, stringObjectLen_eq]
  exact all

theorem addReplyCommand_queues (c : Replica) (argv : List Robj) :
    Queues (multibulk (argv.map getDecodedObject)) c
      (argv.foldl (addReplyBulk env) (addReplyArrayLen env c argv.length)) := by
  have arguments : ∀ (argv : List Robj) (c : Replica),
      Queues ((argv.map getDecodedObject).flatMap bulk) c (argv.foldl (addReplyBulk env) c) := by
    intro argv
    induction argv with
    | nil => exact Queues.refl
    | cons arg argv ih =>
      intro c
      exact (addReplyBulk_queues c arg).trans (ih _)
  rw [multibulk, length_map]
  exact (addReplyLongLongWithPrefix_queues c argv.length 42).trans (arguments argv _)

theorem feedReplicas_queues {feed : Replica → Replica} (queues : ∀ c, Queues data c (feed c)) :
    ∃ fed : Replica → Replica, (∀ slaves, feedReplicas slaves feed = slaves.map fed) ∧
      ∀ c, Queues data c (fed c) := by
  refine ⟨_, fun slaves => rfl, fun c => ?_⟩
  split
  · exact queues c
  · -- A replica that is not fed is not receiving.
    rename_i left
    refine ⟨rfl, fun closing => closing, fun receiving _ => absurd ?_ left⟩
    exact receiving.fed

end Output

section Backlog

variable {s : Server} {start : Int} {h : History}

theorem feedObject_holds (holds : Holds s start h) (obj : Robj) :
    ∃ s', feedReplicationBacklogWithObject s obj = .ok s' ∧
      Holds s' start { h with stream := h.stream ++ getDecodedObject obj } := by
  cases obj with
  | raw bytes =>
    obtain ⟨s', fed, _, holds⟩ := feedReplicationBacklog_holds holds bytes
    exact ⟨s', fed, holds⟩
  | int value =>
    obtain ⟨s', fed, _, holds⟩ := feedReplicationBacklog_holds holds (decimal value)
    exact ⟨s', fed, holds⟩

theorem feedArguments_holds {argv : List Robj} {s : Server} {h : History}
    (holds : Holds s start h) :
    ∃ s', feedArguments s argv = .ok s' ∧ Holds s' start
      { h with stream := h.stream ++ (argv.map getDecodedObject).flatMap bulk } := by
  induction argv generalizing s h with
  | nil =>
    refine ⟨s, rfl, ?_⟩
    rw [map_nil, flatMap_nil, append_nil]
    exact holds
  | cons arg argv ih =>
    -- Three pieces make up the argument.
    obtain ⟨first, header, _, holds⟩ :=
      feedReplicationBacklog_holds holds (headerLine 36 (stringObjectLen arg))
    obtain ⟨second, body, holds⟩ := feedObject_holds holds arg
    obtain ⟨third, ending, _, holds⟩ := feedReplicationBacklog_holds holds crlf
    obtain ⟨last, rest, holds⟩ := ih holds
    refine ⟨last, ?_, ?_⟩
    · rw [feedArguments, header, ok_bind, body, ok_bind, ending, ok_bind, rest]
    · rw [stringObjectLen_eq] at holds
      simpa [bulk] using holds

theorem isSome_of_holds (holds : Holds s start h) : s.replBacklog.isSome = true := by
  obtain ⟨buffer, allocated, _⟩ := holds.buffer
  rw [allocated]
  rfl

theorem feedCommand_holds (holds : Holds s start h) (argv : List Robj) :
    ∃ s', feedCommand s argv = .ok s' ∧ Holds s' start
      { h with stream := h.stream ++ multibulk (argv.map getDecodedObject) } := by
  obtain ⟨first, header, _, begun⟩ := feedReplicationBacklog_holds holds (headerLine 42 argv.length)
  obtain ⟨last, rest, whole⟩ := @feedArguments_holds start argv _ _ begun
  refine ⟨last, ?_, ?_⟩
  · rw [feedCommand, if_pos (isSome_of_holds holds), header, ok_bind, rest]
  · simpa [multibulk] using whole

end Backlog

section Stream

def selectVector (dictid : Int) : Argv := [text "SELECT", decimal dictid]

theorem selectText_eq (dictid : Int) : selectText dictid = multibulk (selectVector dictid) := by
  have front : text "*2\r\n$6\r\nSELECT\r\n" = headerLine 42 2 ++ bulk (text "SELECT") := by
    decide +kernel
  rw [selectText, front, selectVector, multibulk]
  simp [bulk]

theorem selectcmd_eq (dictid : Int) :
    selectcmd dictid = .ok (.raw (multibulk (selectVector dictid))) := by
  rw [← selectText_eq, selectcmd]
  split
  · rename_i shared
    obtain ⟨low, high⟩ := shared
    have inside : dictid.toNat < protoSharedSelectCmds := by omega
    have value : (dictid.toNat : Int) = dictid := Int.toNat_of_nonneg low
    rw [sharedSelect, getElem?_map, getElem?_range inside, Option.map_some, value]
    rfl
  · rfl

/-- The commands that are sent for one that is propagated. -/
def sent (selected : Int) (dictid : Nat) (argv : Argv) : List Argv :=
  if selected = dictid then [argv] else [selectVector dictid, argv]

def sentAll : Int → List (Nat × Argv) → List Argv
  | _, [] => []
  | selected, (dictid, argv) :: rest => sent selected dictid argv ++ sentAll dictid rest

def decoded (argv : List Robj) : Argv := argv.map getDecodedObject

variable {env : Surroundings} {m : Master} {start : Int} {h : History}

/-- What a command adds to the backlog and to every output. -/
structure Fed (bytes : Bytes) (m m' : Master) (start : Int) (h : History) : Prop where
  top : m'.masterhost = m.masterhost
  backlog : Holds m'.backlog start { h with stream := h.stream ++ bytes }
  slaves : ∃ fed : Replica → Replica, m'.slaves = m.slaves.map fed ∧ ∀ c, Queues bytes c (fed c)

theorem Fed.trans {middle last : Master} {first second : Bytes} (front : Fed first m middle start h)
    (back : Fed second middle last start { h with stream := h.stream ++ first }) :
    Fed (first ++ second) m last start h := by
  obtain ⟨one, mapped, queues⟩ := front.slaves
  obtain ⟨two, mapped', queues'⟩ := back.slaves
  refine ⟨back.top.trans front.top, ?_, fun c => two (one c), ?_, fun c => (queues c).trans (queues' _)⟩
  · rw [← append_assoc]
    exact back.backlog
  · rw [mapped', mapped, map_map]
    rfl

theorem feedSelect_fed (holds : Holds m.backlog start h) (dictid : Nat) :
    ∃ m' bytes, feedSelect env m dictid = .ok m' ∧ Fed bytes m m' start h ∧
      bytes = if m.slaveseldb = dictid then [] else multibulk (selectVector dictid) := by
  rw [feedSelect]
  by_cases same : m.slaveseldb = dictid
  · rw [if_pos same, if_pos same]
    refine ⟨m, [], rfl, ⟨rfl, ?_, fun c => c, (map_id' _).symm, Queues.refl⟩, rfl⟩
    rw [append_nil]
    exact holds
  · rw [if_neg same, if_neg same, selectcmd_eq, ok_bind, if_pos (isSome_of_holds holds)]
    obtain ⟨backlog, written, after⟩ :=
      feedObject_holds holds (.raw (multibulk (selectVector dictid)))
    obtain ⟨fed, mapped, queues⟩ := feedReplicas_queues fun c =>
      @addReply_queues env c (.raw (multibulk (selectVector dictid)))
    rw [written, ok_bind]
    exact ⟨_, _, rfl, ⟨rfl, after, fed, mapped _, queues⟩, rfl⟩

theorem replicationFeedSlaves_fed (holds : Holds m.backlog start h) (top : m.masterhost = false)
    (dictid : Nat) (argv : List Robj) :
    ∃ m', replicationFeedSlaves env m dictid argv = .ok m' ∧ m'.slaveseldb = dictid ∧
      Fed ((sent m.slaveseldb dictid (decoded argv)).flatMap multibulk) m m' start h := by
  have exists_ := isSome_of_holds holds
  have present : m.backlog.replBacklog.isNone = false := by
    cases known : m.backlog.replBacklog with
    | none =>
      rw [known] at exists_
      cases exists_
    | some buffer => rfl
  obtain ⟨middle, bytes, selected, first, shape⟩ := @feedSelect_fed env m start h holds dictid
  obtain ⟨backlog, written, after⟩ := feedCommand_holds first.backlog argv
  obtain ⟨fed, mapped, queues⟩ := feedReplicas_queues fun c => @addReplyCommand_queues env c argv
  have second : Fed (multibulk (decoded argv)) middle
      ⟨backlog, middle.masterhost, dictid, middle.slaves.map fed⟩ start
      { h with stream := h.stream ++ bytes } :=
    ⟨rfl, after, fed, rfl, queues⟩
  have whole : (sent m.slaveseldb dictid (decoded argv)).flatMap multibulk =
      bytes ++ multibulk (decoded argv) := by
    rw [shape, sent]
    split
    · rw [flatMap_singleton, nil_append]
    · rw [flatMap_cons, flatMap_singleton]
  refine ⟨⟨backlog, middle.masterhost, dictid, middle.slaves.map fed⟩, ?_, rfl, ?_⟩
  · rw [replicationFeedSlaves, top, if_neg (by simp), present, if_neg (by simp), Memory.assert,
      if_pos (by simp), ok_bind, selected, ok_bind]
    dsimp only
    rw [written, ok_bind, mapped]
    rfl
  · rw [whole]
    exact first.trans second

theorem propagateAll_fed {stream : List (Nat × List Robj)} {m : Master} {h : History}
    (holds : Holds m.backlog start h) (top : m.masterhost = false) :
    ∃ final, propagateAll env m stream = .ok final ∧
      Fed ((sentAll m.slaveseldb (stream.map fun pair => (pair.1, decoded pair.2))).flatMap multibulk)
        m final start h := by
  induction stream generalizing m h with
  | nil =>
    refine ⟨m, rfl, rfl, ?_, fun c => c, (map_id' _).symm, Queues.refl⟩
    rw [map_nil, sentAll, flatMap_nil, append_nil]
    exact holds
  | cons pair stream ih =>
    obtain ⟨dictid, argv⟩ := pair
    obtain ⟨middle, fed, selected, first⟩ := @replicationFeedSlaves_fed env m start h holds top
      dictid argv
    obtain ⟨final, rest, second⟩ := ih first.backlog (first.top.trans top)
    refine ⟨final, ?_, ?_⟩
    · rw [propagateAll, fed, ok_bind, rest]
    · rw [map_cons, sentAll, flatMap_append, ← selected]
      exact first.trans second

end Stream

section Replay

def intMax : Int := 2 ^ 31 - 1

/-- The database of a valid SELECT command. -/
def selectedDb : Argv → Option Nat
  | [name, index] =>
    if name.map tolower = text "select" then
      match string2ll index with
      | some id => if 0 ≤ id ∧ id ≤ intMax then some id.toNat else none
      | none => none
    else none
  | _ => none

/-- What a replica executes that follows the SELECT commands. -/
def replay : Nat → List Argv → List (Nat × Argv)
  | _, [] => []
  | db, argv :: rest =>
    match selectedDb argv with
    | some selected => replay selected rest
    | none => (db, argv) :: replay db rest

theorem selectedDb_selectVector {dictid : Nat} (fits : dictid < 2 ^ 31) :
    selectedDb (selectVector dictid) = some dictid := by
  have digits : decimal (dictid : Int) = natDigits dictid := by
    rw [decimal, if_neg (by omega), Int.natAbs_natCast]
  have named : (text "SELECT").map tolower = text "select" := by decide +kernel
  have small : dictid ≤ llongMax := Nat.le_trans (Nat.le_of_lt fits) (by decide)
  rw [selectVector, selectedDb, if_pos named, digits, string2ll_natDigits small]
  dsimp only
  rw [if_pos ⟨by omega, by unfold intMax; omega⟩, Int.toNat_natCast]

theorem replay_sentAll {stream : List (Nat × Argv)} {selected : Int} {db : Nat}
    (known : selected = -1 ∨ selected = db)
    (plain : ∀ pair ∈ stream, pair.1 < 2 ^ 31 ∧ selectedDb pair.2 = none) :
    replay db (sentAll selected stream) = stream := by
  induction stream generalizing selected db with
  | nil => exact rfl
  | cons pair stream ih =>
    obtain ⟨dictid, argv⟩ := pair
    obtain ⟨fits, other⟩ := plain (dictid, argv) (mem_cons_self ..)
    have rest := @ih dictid dictid (.inr rfl) fun pair member =>
      plain pair (mem_cons_of_mem _ member)
    rw [sentAll, sent]
    split
    · -- The database is the one that is selected already.
      have current : db = dictid := by omega
      rw [singleton_append, replay, other, current]
      rw [rest]
    · rw [cons_append, singleton_append, replay, selectedDb_selectVector fits]
      dsimp only
      rw [replay, other]
      rw [rest]

/-- What the protocol can carry, in an existing database, and no SELECT. -/
structure Propagable (pair : Nat × List Robj) : Prop where
  database : pair.1 < 2 ^ 31
  sendable : Sendable (decoded pair.2)
  notSelect : selectedDb (decoded pair.2) = none

theorem selectVector_sendable {dictid : Nat} (fits : dictid < 2 ^ 31) :
    Sendable (selectVector dictid) := by
  have digits : (decimal (dictid : Int)).length ≤ 10 := by
    exact length_natDigits_le (by decide) (Nat.lt_trans fits (by decide))
  have room : 10 ≤ llongMax := by decide
  refine ⟨cons_ne_nil _ _, show 2 ≤ 1024 * 1024 by decide, ?_⟩
  exact forall_mem_cons.mpr ⟨by decide +kernel, forall_mem_singleton.mpr (by omega)⟩

theorem sentAll_sendable {stream : List (Nat × List Robj)} (valid : ∀ pair ∈ stream, Propagable pair)
    (selected : Int) :
    ∀ argv ∈ sentAll selected (stream.map fun pair => (pair.1, decoded pair.2)),
      Sendable argv := by
  induction stream generalizing selected with
  | nil => exact forall_mem_nil _
  | cons pair stream ih =>
    obtain ⟨⟨database, sendable, _⟩, others⟩ := forall_mem_cons.mp valid
    rw [map_cons, sentAll]
    refine forall_mem_append.mpr ⟨?_, ih others pair.1⟩
    -- The command itself, or the SELECT command in front of it.
    unfold sent
    split
    · exact forall_mem_singleton.mpr sendable
    · exact forall_mem_cons.mpr ⟨selectVector_sendable database, forall_mem_singleton.mpr sendable⟩

/-- The bytes that propagated commands add to the backlog are those queued for every replica that
takes them all the time, and whoever reads them on the link, in any pieces, executes exactly the
commands that were propagated in their databases. -/
theorem replicas_execute_propagated (env : Surroundings) (m : Master) (start : Int) (h : History)
    (holds : Holds m.backlog start h) (top : m.masterhost = false) (db : Nat)
    (selected : m.slaveseldb = -1 ∨ m.slaveseldb = db) (stream : List (Nat × List Robj))
    (valid : ∀ pair ∈ stream, Propagable pair) :
    ∃ final bytes, propagateAll env m stream = .ok final ∧
      Holds final.backlog start { h with stream := h.stream ++ bytes } ∧
      (∀ (i : Nat) (slave : Replica), m.slaves[i]? = some slave → Receiving slave →
        ∃ slave', final.slaves[i]? = some slave' ∧
          (slave'.flags.closeAsap = false → slave'.queued = slave.queued ++ bytes)) ∧
      ∀ (limit : List Argv → Int) (gopher : List Argv → Bool) (pieces : List Bytes),
        pieces.flatten = bytes →
        ∃ c, readPieces (masterLink limit gopher) pieces = .ok c ∧ c.unparsed = [] ∧
          replay db c.executed = stream.map fun pair => (pair.1, decoded pair.2) := by
  obtain ⟨final, propagated, fed⟩ := @propagateAll_fed env start stream m h holds top
  refine ⟨final, _, propagated, fed.backlog, ?_, ?_⟩
  · intro i slave there receiving
    obtain ⟨feed, mapped, queues⟩ := fed.slaves
    refine ⟨feed slave, by rw [mapped, getElem?_map, there, Option.map_some], ?_⟩
    exact (queues slave).queued receiving
  · intro limit gopher pieces whole
    obtain ⟨c, read, executed, nothing⟩ :=
      @readPieces_commands limit gopher _ (sentAll_sendable valid m.slaveseldb) _ whole
    refine ⟨c, read, nothing, ?_⟩
    rw [executed]
    refine replay_sentAll selected fun pair member => ?_
    obtain ⟨original, among, rfl⟩ := mem_map.mp member
    exact ⟨(valid original among).database, (valid original among).notSelect⟩

def quiet : Surroundings := ⟨fun size => size, fun _ => false⟩

def onlineReplica : Replica :=
  { flags := ⟨false, false, false, false, false, false, false, false⟩, conn := true,
    replstate := .online, buf := [], reply := [] }

def freshMaster : Master :=
  { backlog := emptyBacklog (fun _ => 0) smallServer, masterhost := false, slaveseldb := -1,
    slaves := [onlineReplica] }

theorem freshMaster_holds : Holds freshMaster.backlog 10 ⟨4, [], 0⟩ :=
  emptyBacklog_holds (fun _ => 0) (by decide) rfl

/-- Binary and integer arguments, and a database without a shared SELECT. -/
def mixedStream : List (Nat × List Robj) :=
  [(0, [.raw (text "SET"), .raw [0, 13, 10, 255], .int (-7)]), (12, [.raw (text "PING")])]

theorem mixedStream_executed :
    ∃ final bytes, propagateAll quiet freshMaster mixedStream = .ok final ∧
      ∀ (limit : List Argv → Int) (gopher : List Argv → Bool) (pieces : List Bytes),
        pieces.flatten = bytes →
        ∃ c, readPieces (masterLink limit gopher) pieces = .ok c ∧ c.unparsed = [] ∧
          replay 3 c.executed =
            [(0, [text "SET", [0, 13, 10, 255], [45, 55]]), (12, [text "PING"])] := by
  have valid : ∀ pair ∈ mixedStream, Propagable pair := by
    intro pair member
    rcases mem_cons.mp member with rfl | member
    · exact ⟨by decide, ⟨by decide, by decide, by decide +kernel⟩, by decide +kernel⟩
    · rw [mem_singleton.mp member]
      exact ⟨by decide, ⟨by decide, by decide, by decide +kernel⟩, by decide +kernel⟩
  obtain ⟨final, bytes, propagated, -, -, reads⟩ := replicas_execute_propagated quiet freshMaster 10
    ⟨4, [], 0⟩ freshMaster_holds rfl 3 (.inl rfl) mixedStream valid
  exact ⟨final, bytes, propagated, reads⟩

/-- A SELECT command propagated like any other, and a command. -/
def selectStream : List (Nat × List Robj) :=
  [(0, [.raw (text "SELECT"), .raw [53]]), (0, [.raw (text "PING")])]

/-- The replica does not go back to the database of the master after such a SELECT command. -/
theorem propagated_select_misleads :
    ∃ final bytes, propagateAll quiet freshMaster selectStream = .ok final ∧
      Holds final.backlog 10 ⟨4, bytes, 0⟩ ∧
      ∃ c, readPieces (masterLink (fun _ => 0) fun _ => false) [bytes] = .ok c ∧
        replay 0 c.executed = [(5, [text "PING"])] ∧
        replay 0 c.executed ≠ selectStream.map fun pair => (pair.1, decoded pair.2) := by
  obtain ⟨final, propagated, fed⟩ :=
    @propagateAll_fed quiet 10 selectStream freshMaster _ freshMaster_holds rfl
  have sendable : ∀ argv ∈ [selectVector 0, [text "SELECT", [53]], [text "PING"]],
      Sendable argv := by
    intro argv member
    simp only [mem_cons, not_mem_nil, or_false] at member
    rcases member with rfl | rfl | rfl
    all_goals exact ⟨by decide, by decide +kernel, by decide +kernel⟩
  -- The server takes database 0 to be selected still, so there is no SELECT in front of the end.
  obtain ⟨c, read, executed, _⟩ := @readPieces_commands (fun _ => 0) (fun _ => false) _ sendable
    [[selectVector 0, [text "SELECT", [53]], [text "PING"]].flatMap multibulk]
    (flatten_singleton ..)
  refine ⟨final, _, propagated, fed.backlog, c, read, ?_, ?_⟩
  · rw [executed]
    decide +kernel
  · rw [executed]
    decide +kernel

end Replay

end LearningNotes.Replication
