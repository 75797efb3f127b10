import LearningNotes.GetKeys.Arguments
import LearningNotes.Lib.Outcome

/-! `WAIT`: clients that wait until enough replicas have acknowledged their last write. -/

namespace LearningNotes.Replication.Wait

open Lib Util GetKeys List

/-- A replica: whether it is `SLAVE_STATE_ONLINE`, and its `repl_ack_off`. -/
structure Slave where
  online : Bool
  replAckOff : Int
deriving DecidableEq

/-- A client that waits, with the fields of its `bpop`. -/
structure Waiting where
  id : Nat
  /-- The number asked for, which `numreplicas` may not hold. -/
  asked : Int
  numreplicas : Int
  timeout : Int
  reploffset : Int
deriving DecidableEq

structure Server where
  /-- The server has a master itself. -/
  masterhost : Bool
  masterReplOffset : Int
  slaves : List Slave
  /-- The `woff` of every client. -/
  woff : Nat → Int
  /-- Where the last write made for a client ended, which the source keeps nowhere. -/
  lastWrite : Nat → Int
  clientsWaitingAcks : List Waiting

inductive Reason where
  | acknowledged
  | inTransaction
  | timedOut
  /-- Another client has called `CLIENT UNBLOCK`. -/
  | unblocked
deriving DecidableEq

/-- A number sent to a client, and the client's last write and the replicas at that moment. -/
structure Reply where
  client : Waiting
  number : Int
  reason : Reason
  lastWrite : Int
  slaves : List Slave
deriving DecidableEq

def replicationCountAcksByOffset (slaves : List Slave) (offset : Int) : Nat :=
  slaves.countP fun slave => slave.online && decide (offset ≤ slave.replAckOff)

/-- A number is sent to a client now. -/
def Server.reply (s : Server) (c : Waiting) (number : Int) (reason : Reason) : Reply :=
  ⟨c, number, reason, s.lastWrite c.id, s.slaves⟩

def waitCommand (s : Server) (id : Nat) (mstime : Int) (multi : Bool) (argv : Bytes × Bytes) :
    Parsed (List Reply × Server) := do
  if s.masterhost then
    .error (text ("WAIT cannot be used with replica instances. Please also note that since Redis " ++
      "4.0 if a replica is configured to be writable (which is not the default) writes to " ++
      "replicas are just local and are not propagated."))
  else
    let numreplicas ← getLongFromObjectOrReply argv.1 none
    let timeout ← getTimeoutFromObjectOrReply argv.2 mstime
    let ackreplicas := replicationCountAcksByOffset s.slaves (s.woff id)
    let c : Waiting := ⟨id, numreplicas, toInt32 numreplicas, timeout, s.woff id⟩
    if numreplicas ≤ ackreplicas then .ok ([s.reply c ackreplicas .acknowledged], s)
    else if multi then .ok ([s.reply c ackreplicas .inTransaction], s)
    else .ok ([], { s with clientsWaitingAcks := c :: s.clientsWaitingAcks })

/-- What is sent, and who goes on waiting. -/
def processClients (s : Server) : Int → Int → List Waiting → List Reply × List Waiting
  | _, _, [] => ([], [])
  | lastOffset, lastNumreplicas, c :: rest =>
    if lastOffset ≠ 0 ∧ c.reploffset ≤ lastOffset ∧ c.numreplicas ≤ lastNumreplicas then
      let (replies, left) := processClients s lastOffset lastNumreplicas rest
      (s.reply c lastNumreplicas .acknowledged :: replies, left)
    else
      let numreplicas := replicationCountAcksByOffset s.slaves c.reploffset
      if c.numreplicas ≤ numreplicas then
        let (replies, left) := processClients s c.reploffset numreplicas rest
        (s.reply c numreplicas .acknowledged :: replies, left)
      else
        let (replies, left) := processClients s lastOffset lastNumreplicas rest
        (replies, c :: left)

def processClientsWaitingReplicas (s : Server) : List Reply × Server :=
  let (replies, left) := processClients s 0 0 s.clientsWaitingAcks
  (replies, { s with clientsWaitingAcks := left })

/-- The client is blocked, and none of its commands runs. -/
def Server.waits (s : Server) (id : Nat) : Bool := s.clientsWaitingAcks.any (·.id = id)

def unblockClient (s : Server) (id : Nat) : Server :=
  { s with clientsWaitingAcks := s.clientsWaitingAcks.filter (·.id ≠ id) }

def replyToBlockedClientTimedOut (s : Server) (id : Nat) (reason : Reason) : List Reply :=
  (s.clientsWaitingAcks.filter (·.id = id)).map fun c =>
    s.reply c (replicationCountAcksByOffset s.slaves c.reploffset) reason

/-- A write for a client is propagated with so many bytes. -/
def Server.write (s : Server) (id bytes : Nat) : Server :=
  { s with
    masterReplOffset := s.masterReplOffset + bytes
    lastWrite := Function.update s.lastWrite id (s.masterReplOffset + bytes) }

/-- The end of `processCommand`, after `call`. -/
def Server.finish (s : Server) (id : Nat) : Server :=
  { s with woff := Function.update s.woff id s.masterReplOffset }

inductive Op where
  /-- `processCommand` calls a command that propagates so many bytes if it writes. -/
  | call (id : Nat) (wrote : Option Nat)
  /-- A write is made for a client by no call of `processCommand`: a blocked client is served, or a
  command of a transaction runs. -/
  | serve (id bytes : Nat)
  /-- What no client has written, such as a `PING`. -/
  | feed (bytes : Nat)
  | wait (id : Nat) (mstime : Int) (multi : Bool) (argv : Bytes × Bytes)
  /-- Replicas come, go and acknowledge offsets. -/
  | replicas (slaves : List Slave)
  | beforeSleep
  | timeout (id : Nat)
  /-- `CLIENT UNBLOCK`, perhaps with `ERROR`. -/
  | unblock (id : Nat) (error : Bool)
  /-- The client is freed, or unblocked with another error. -/
  | leave (id : Nat)

/-- The numbers that are sent; a `WAIT` that fails sends none. -/
def step (s : Server) : Op → List Reply × Server
  | .call id wrote =>
    if s.waits id then ([], s) else ([], (wrote.elim s (s.write id)).finish id)
  | .serve id bytes => ([], if s.waits id then s else s.write id bytes)
  | .feed bytes => ([], { s with masterReplOffset := s.masterReplOffset + bytes })
  | .wait id mstime multi argv =>
    if s.waits id then ([], s)
    else
      let (replies, next) := (waitCommand s id mstime multi argv).toOption.getD ([], s)
      -- In a transaction `woff` is set when `EXEC` has ended.
      (replies, if multi then next else next.finish id)
  | .replicas slaves => ([], { s with slaves })
  | .beforeSleep => processClientsWaitingReplicas s
  | .timeout id => (replyToBlockedClientTimedOut s id .timedOut, unblockClient s id)
  | .unblock id error =>
    (if error then [] else replyToBlockedClientTimedOut s id .unblocked, unblockClient s id)
  | .leave id => ([], unblockClient s id)

def run : Server → List Op → List Reply
  | _, [] => []
  | s, op :: ops => (step s op).1 ++ run (step s op).2 ops

/-- Whether a write was made for the client after its last command had ended. -/
def late (id : Nat) (before : Bool) : Op → Bool
  | .call other _ | .wait other _ false _ => before && other ≠ id
  | .serve other _ => before || other = id
  | _ => before

def Op.isWait (id : Nat) : Op → Bool
  | .wait other _ _ _ => other = id
  | _ => false

/-- The client calls `WAIT` only while no such write was made. -/
def upToDate (id : Nat) : Bool → List Op → Bool
  | _, [] => true
  | before, op :: ops => !(before && op.isWait id) && upToDate id (late id before op) ops

/-- The number is what was asked for, and so many replicas have the client's last write. -/
def Honoured (reply : Reply) : Prop :=
  reply.client.asked ≤ reply.number ∧
    reply.number ≤ replicationCountAcksByOffset reply.slaves reply.lastWrite

/-- A client waits for what is left of its number, with its last write in its offset. -/
def Sound (id : Nat) (s : Server) (c : Waiting) : Prop :=
  0 < c.asked ∧ c.numreplicas = toInt32 c.asked ∧
    (c.id = id → s.lastWrite id ≤ c.reploffset)

/-- What every step keeps for a client. -/
structure Consistent (id : Nat) (before : Bool) (s : Server) : Prop where
  bounded : s.lastWrite id ≤ s.masterReplOffset
  current : before = false ∨ s.waits id → s.lastWrite id ≤ s.woff id
  sound : ∀ c ∈ s.clientsWaitingAcks, Sound id s c

/-- The numbers sent to the client are honoured, unless they were cut. -/
def HonouredAll (id : Nat) (replies : List Reply) : Prop :=
  ∀ reply ∈ replies, reply.client.id = id → reply.reason = .acknowledged →
    reply.client.asked < 2 ^ 31 → Honoured reply

variable {id other : Nat} {before : Bool} {slaves : List Slave} {c : Waiting} {s : Server}

theorem honouredAll_nil : HonouredAll id [] := forall_mem_nil _

/-- Fewer replicas have acknowledged the higher of two offsets. -/
theorem count_antitone {low high : Int} (less : low ≤ high) :
    replicationCountAcksByOffset slaves high ≤ replicationCountAcksByOffset slaves low := by
  refine countP_mono_left fun slave _ reached => ?_
  simp only [Bool.and_eq_true, decide_eq_true_eq] at reached ⊢
  exact ⟨reached.1, Int.le_trans less reached.2⟩

/-- A number that satisfies the `int` and is covered at an offset not below the client's. -/
theorem Sound.honoured {number offset : Int} {reason : Reason} (sound : Sound id s c)
    (enough : c.numreplicas ≤ number) (below : c.reploffset ≤ offset)
    (counted : number ≤ replicationCountAcksByOffset s.slaves offset) (own : c.id = id)
    (fits : c.asked < 2 ^ 31) : Honoured (s.reply c number reason) := by
  obtain ⟨positive, held, written⟩ := sound
  constructor
  · -- The `int` holds the number that was asked for.
    rwa [held, toInt32_of_lt (by omega) (by omega)] at enough
  · have fewer := @count_antitone s.slaves _ _ (Int.le_trans (written own) below)
    rw [← own] at fewer
    exact Int.le_trans counted (Int.ofNat_le.mpr fewer)

theorem processClients_honoured {waiting : List Waiting} {lastOffset lastNumreplicas : Int}
    (sound : ∀ c ∈ waiting, Sound id s c)
    (counted : lastNumreplicas ≤ replicationCountAcksByOffset s.slaves lastOffset) :
    HonouredAll id (processClients s lastOffset lastNumreplicas waiting).1 ∧
      (processClients s lastOffset lastNumreplicas waiting).2 ⊆ waiting := by
  induction waiting generalizing lastOffset lastNumreplicas with
  | nil => exact ⟨honouredAll_nil, Subset.refl _⟩
  | cons c rest ih =>
    rw [forall_mem_cons] at sound
    rw [processClients]
    split
    · -- The count that an earlier client got also covers the offset of this one.
      rename_i covered
      obtain ⟨honoured, fewer⟩ := ih sound.2 counted
      refine ⟨forall_mem_cons.mpr ⟨?_, honoured⟩, Subset.trans fewer (subset_cons_self c rest)⟩
      exact fun own _ => sound.1.honoured covered.2.2 covered.2.1 counted own
    · dsimp only
      split
      · rename_i enough
        obtain ⟨honoured, fewer⟩ := ih sound.2 (Int.le_refl _)
        refine ⟨forall_mem_cons.mpr ⟨?_, honoured⟩, Subset.trans fewer (subset_cons_self c rest)⟩
        exact fun own _ => sound.1.honoured enough (Int.le_refl _) (Int.le_refl _) own
      · obtain ⟨honoured, fewer⟩ := ih sound.2 counted
        exact ⟨honoured, cons_subset_cons c fewer⟩

namespace Consistent

/-- A write that comes after may be forgotten while the client waits. -/
theorem weaken {after : Bool} (kept : Consistent id before s)
    (still : after = false → before = false ∨ s.waits id) : Consistent id after s :=
  ⟨kept.bounded, fun now => kept.current (now.elim still .inr), kept.sound⟩

/-- Clients may stop to wait. -/
theorem shrink {left : List Waiting} (kept : Consistent id before s)
    (fewer : left ⊆ s.clientsWaitingAcks) :
    Consistent id before { s with clientsWaitingAcks := left } := by
  refine ⟨kept.bounded, fun now => kept.current (now.imp_right fun waits => ?_), fun c waits =>
    kept.sound c (fewer waits)⟩
  obtain ⟨c, waiting, own⟩ := any_eq_true.mp waits
  exact any_eq_true.mpr ⟨c, fewer waiting, own⟩

/-- A write puts the client behind that it is made for. -/
theorem write (kept : Consistent id before s) (runs : s.waits other = false) (bytes : Nat) :
    Consistent id (before || other = id) (s.write other bytes) := by
  by_cases own : other = id
  · subst own
    have alone : ∀ c ∈ s.clientsWaitingAcks, c.id ≠ other := by
      simpa [Server.waits] using runs
    refine ⟨?_, fun now => ?_, fun c waiting => ?_⟩
    · simp [Server.write]
    · simp [Server.write, Server.waits] at now
      obtain ⟨c, waiting, own⟩ := now
      exact absurd own (alone c waiting)
    · obtain ⟨positive, held, _⟩ := kept.sound c waiting
      exact ⟨positive, held, fun own => absurd own (alone c waiting)⟩
  · have frame : (s.write other bytes).lastWrite id = s.lastWrite id :=
      Function.update_of_ne (Ne.symm own) _ _
    refine ⟨?_, fun now => ?_, fun c waiting => ?_⟩
    · have bounded := kept.bounded
      rw [frame]
      dsimp only [Server.write]
      omega
    · rw [frame]
      simp only [own, decide_false, Bool.or_false] at now
      exact kept.current now
    · rw [Sound, frame]
      exact kept.sound c waiting

/-- After its command a client is up to date. -/
theorem finish (kept : Consistent id before s) (other : Nat) :
    Consistent id (before && other ≠ id) (s.finish other) := by
  refine ⟨kept.bounded, fun now => ?_, kept.sound⟩
  by_cases own : other = id
  · subst own
    simpa [Server.finish] using kept.bounded
  · have frame : (s.finish other).woff id = s.woff id := Function.update_of_ne (Ne.symm own) _ _
    rw [frame]
    exact kept.current (by simpa [own, Server.finish, Server.waits] using now)

end Consistent

theorem waitCommand_keeps (kept : Consistent id before s) (upToDate : other = id → before = false)
    (mstime : Int) (multi : Bool) (argv : Bytes × Bytes) :
    Meets (waitCommand s other mstime multi argv) (fun _ => True) fun result =>
      HonouredAll id result.1 ∧ Consistent id before result.2 := by
  have read : ∀ parsed : Parsed Int, Meets parsed (fun _ => True) fun _ => True := by
    intro parsed
    cases parsed <;> trivial
  have written : other = id → s.lastWrite id ≤ s.woff other := by
    rintro rfl
    exact kept.current (.inl (upToDate rfl))
  refine .ite (fun _ => trivial) fun _ => Meets.bind (read _) fun numreplicas _ =>
    Meets.bind (read _) fun timeout _ => ?_
  refine .ite (fun enough => ⟨?_, kept⟩) fun more =>
    .ite (fun _ => ⟨?_, kept⟩) fun _ => ⟨honouredAll_nil, kept.bounded, fun now => ?_, ?_⟩
  · -- The number is not cut to an `int` for the test that is made at once.
    refine forall_mem_singleton.mpr fun own _ _ => ⟨enough, Int.ofNat_le.mpr ?_⟩
    obtain rfl : other = id := own
    exact count_antitone (written rfl)
  · exact forall_mem_singleton.mpr fun _ => nofun
  · by_cases own : other = id
    · exact own ▸ written own
    · exact kept.current (by simpa [Server.waits, own] using now)
  · refine forall_mem_cons.mpr ⟨⟨?_, rfl, written⟩, kept.sound⟩
    dsimp only
    omega

/-- A reply made for a timeout is not counted as acknowledged. -/
theorem blockedReply_honoured {reason : Reason} (forced : reason ≠ .acknowledged) :
    HonouredAll id (replyToBlockedClientTimedOut s other reason) := by
  intro reply sent _ acknowledged
  obtain ⟨c, _, rfl⟩ := mem_map.mp sent
  exact absurd acknowledged forced

/-- While a client waits, nothing it sends is run. -/
theorem Consistent.blocked (kept : Consistent id before s) (waits : s.waits other) :
    Consistent id (before && other ≠ id) s := by
  refine kept.weaken fun now => ?_
  by_cases own : other = id
  · exact .inr (own ▸ waits)
  · exact .inl (by simpa [own] using now)

theorem step_keeps (kept : Consistent id before s) (op : Op)
    (upToDate : before = true → op.isWait id = false) :
    HonouredAll id (step s op).1 ∧ Consistent id (late id before op) (step s op).2 := by
  cases op with
  | call other wrote =>
    rw [step]
    split
    · -- A blocked client runs no command.
      rename_i waits
      exact ⟨honouredAll_nil, kept.blocked waits⟩
    · rename_i runs
      refine ⟨honouredAll_nil, ?_⟩
      cases wrote with
      | none => exact kept.finish other
      | some bytes =>
        have wrote := (kept.write (Bool.eq_false_of_not_eq_true runs) bytes).finish other
        refine wrote.weaken fun now => .inl ?_
        by_cases own : other = id
        · simp [own]
        · simpa [late, own] using now
  | serve other bytes =>
    refine ⟨honouredAll_nil, ?_⟩
    rw [step]
    dsimp only
    split
    · exact kept.weaken fun now => .inl (Bool.or_eq_false_iff.mp now).1
    · rename_i runs
      exact kept.write (Bool.eq_false_of_not_eq_true runs) bytes
  | feed bytes =>
    refine ⟨honouredAll_nil, ?_, kept.current, kept.sound⟩
    have bounded := kept.bounded
    dsimp only [step]
    omega
  | wait other mstime multi argv =>
    rw [step]
    split
    · rename_i waits
      refine ⟨honouredAll_nil, ?_⟩
      cases multi with
      | false => exact kept.blocked waits
      | true => exact kept
    · have own : other = id → before = false := by
        rintro rfl
        cases before with
        | false => rfl
        | true => simpa [Op.isWait] using upToDate rfl
      have kept' : HonouredAll id ((waitCommand s other mstime multi argv).toOption.getD ([], s)).1 ∧
          Consistent id before ((waitCommand s other mstime multi argv).toOption.getD ([], s)).2 := by
        have met := waitCommand_keeps kept own mstime multi argv
        cases ran : waitCommand s other mstime multi argv with
        | error message => exact ⟨honouredAll_nil, kept⟩
        | ok result => exact met.of_ok ran
      refine ⟨kept'.1, ?_⟩
      cases multi with
      | false => exact kept'.2.finish other
      | true => exact kept'.2
  | replicas slaves => exact ⟨honouredAll_nil, kept.bounded, kept.current, kept.sound⟩
  | beforeSleep =>
    -- Only here are acknowledgements counted for clients that wait.
    obtain ⟨honoured, fewer⟩ :=
      @processClients_honoured id s s.clientsWaitingAcks 0 0 kept.sound (Int.natCast_nonneg _)
    exact ⟨honoured, kept.shrink fewer⟩
  | timeout other =>
    exact ⟨blockedReply_honoured (by decide), kept.shrink (filter_sublist.subset)⟩
  | unblock other error =>
    refine ⟨?_, kept.shrink (filter_sublist.subset)⟩
    cases error with
    | false => exact blockedReply_honoured (by decide)
    | true => exact honouredAll_nil
  | leave other => exact ⟨honouredAll_nil, kept.shrink (filter_sublist.subset)⟩

/-- A server without waiting clients. -/
def Server.new (masterhost : Bool) (offset : Nat) (slaves : List Slave) : Server :=
  ⟨masterhost, offset, slaves, fun _ => 0, fun _ => 0, []⟩

/-- In every run, a number sent to a client that called `WAIT` only while it was up to date, and
sent for no timeout, no `CLIENT UNBLOCK` and in no transaction, is honoured if an `int` can hold
what was asked for. -/
theorem wait_honoured (masterhost : Bool) (offset : Nat) (slaves : List Slave) (ops : List Op)
    (id : Nat) (current : upToDate id false ops = true) :
    HonouredAll id (run (.new masterhost offset slaves) ops) := by
  suffices general : ∀ before s, Consistent id before s → upToDate id before ops = true →
      HonouredAll id (run s ops) from
    general false _ ⟨Int.natCast_nonneg _, fun _ => Int.le_refl _, nofun⟩ current
  clear current
  induction ops with
  | nil => exact fun _ _ _ _ => honouredAll_nil
  | cons op ops ih =>
    intro before s kept current
    rw [upToDate, Bool.and_eq_true, Bool.not_eq_true', Bool.and_eq_false_imp] at current
    obtain ⟨honoured, later⟩ := step_keeps kept op current.1
    exact forall_mem_append.mpr ⟨honoured, ih _ _ later current.2⟩

/-- A client that has popped and written, and another one with a later write, ask for both replicas
that are online. -/
def twoClients : List Op :=
  [.replicas [⟨true, 0⟩, ⟨true, 0⟩, ⟨false, 90⟩], .call 1 none, .serve 1 30, .call 1 (some 20),
    .call 2 (some 40), .wait 1 0 false (text "2", text "0"), .wait 2 0 false (text "2", text "0"),
    .replicas [⟨true, 70⟩, ⟨true, 40⟩, ⟨false, 90⟩], .beforeSleep,
    .replicas [⟨true, 95⟩, ⟨true, 90⟩, ⟨false, 90⟩], .beforeSleep]

/-- The first client gets the count that was found for the second. -/
theorem twoClients_honoured :
    Honoured ⟨⟨1, 2, 2, 0, 50⟩, 2, .acknowledged, 50, [⟨true, 95⟩, ⟨true, 90⟩, ⟨false, 90⟩]⟩ :=
  wait_honoured false 0 [] twoClients 1 (by decide) _ (by decide +kernel) rfl rfl (by decide)

instance : DecidablePred Honoured := fun _ => instDecidableAnd

/-- A client that asked for more replicas than an `int` holds is content with one; one that was
served after its command has ended does not wait for that write; one that `CLIENT UNBLOCK` released
gets a number below its own. -/
theorem wait_not_honoured :
    (∃ reply ∈ run (.new false 0 [])
        [.replicas [⟨true, 0⟩], .call 1 (some 10), .wait 1 0 false (text "4294967297", text "0"),
          .replicas [⟨true, 10⟩], .beforeSleep],
      reply.reason = .acknowledged ∧ ¬ Honoured reply) ∧
    (∃ reply ∈ run (.new false 0 [])
        [.replicas [⟨true, 0⟩], .call 1 none, .serve 1 30, .wait 1 0 false (text "1", text "0")],
      reply.reason = .acknowledged ∧ ¬ Honoured reply) ∧
    ∃ reply ∈ run (.new false 0 [])
        [.replicas [⟨true, 0⟩], .call 1 (some 10), .wait 1 0 false (text "1", text "0"),
          .unblock 1 false],
      reply.reason = .unblocked ∧ ¬ Honoured reply := by
  decide +kernel

end LearningNotes.Replication.Wait
