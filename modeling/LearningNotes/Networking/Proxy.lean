import LearningNotes.Networking.MasterLink

/-! A replica passes the stream of its master on as it is, up to the offset that it has applied. -/

namespace LearningNotes.Networking

open Lib Util List

section Live

variable {server : Server} {stage next : Stage} {unparsed : Bytes} {consumed : Nat}

/-- A step that does not end in an error. -/
def liveStep (server : Server) (stage : Stage) (unparsed : Bytes) : Option (Stage × Nat) :=
  (stage.step server unparsed).filter fun result => result.1.parser.status = .alive

theorem liveStep_eq_some : liveStep server stage unparsed = some (next, consumed) ↔
    stage.step server unparsed = some (next, consumed) ∧ next.parser.status = .alive := by
  simp [liveStep]

theorem liveStep_stable (server : Server) (stream : Bytes) :
    StableOn (liveStep server) firstStage stream := by
  intro stage seen more _ next consumed stepped
  obtain ⟨stepped, alive⟩ := liveStep_eq_some.mp stepped
  obtain ⟨inside, again⟩ := @Stage.step_append server seen more stage next consumed
    (fun dead => absurd alive dead) stepped
  exact ⟨inside, liveStep_eq_some.mpr ⟨again, alive⟩⟩

theorem step_of_dead (dead : stage.parser.status ≠ .alive)
    (stepped : stage.step server unparsed = some (next, consumed)) :
    next.parser.status ≠ .alive := by
  unfold Stage.step at stepped
  split at stepped
  · -- A request that was ready is executed, which does not repair anything.
    cases stepped
    unfold execute
    split
    · exact fun alive => by cases alive
    split
    · exact dead
    · dsimp only
      split
      · exact fun alive => by cases alive
      · exact dead
  · rw [Parser.step, if_pos] at stepped
    · cases stepped
    · exact .inr (by simp [stopped, dead])

theorem parses_live {start final : Stage × Bytes} (run : Parses (Stage.step server) start final)
    (alive : final.1.parser.status = .alive) :
    Parses (liveStep server) start final ∧ start.1.parser.status = .alive := by
  induction run with
  | refl => exact ⟨.refl _, alive⟩
  | @head start middle final moved _ ih =>
    obtain ⟨rest, middleAlive⟩ := ih alive
    obtain ⟨⟨stage, consumed⟩, stepped, rfl⟩ := Option.map_eq_some_iff.mp moved
    have live : liveStep server start.1 start.2 = some (stage, consumed) :=
      liveStep_eq_some.mpr ⟨stepped, middleAlive⟩
    refine ⟨.head ?_ rest, ?_⟩
    · rw [advance, live]
      rfl
    · exact Decidable.byContradiction fun dead => step_of_dead dead stepped middleAlive

theorem alive_of_ready {start final : Stage × Bytes} (run : Parses (Stage.step server) start final)
    (first : start.1.ready = true → start.1.parser.status = .alive)
    (ready : final.1.ready = true) : final.1.parser.status = .alive := by
  induction run with
  | refl => exact first ready
  | @head start middle final moved _ ih =>
    refine ih ?_ ready
    obtain ⟨⟨stage, consumed⟩, stepped, rfl⟩ := Option.map_eq_some_iff.mp moved
    intro now
    unfold Stage.step at stepped
    split at stepped
    · -- After its execution a request is not ready any more.
      cases stepped
      cases now
    · exact (Parser.step_frame stepped).2 now

end Live

section Ends

variable {server : Server} {stream more : Bytes} {executed : List Argv} {n : Nat}

/-- The last of some commands ends behind so many bytes. -/
def EndsAt (server : Server) (stream : Bytes) (executed : List Argv) (n : Nat) : Prop :=
  n ≤ stream.length ∧ ∃ p : Parser, isCommand server p = true ∧
    executed = p.executed ++ [p.argv] ∧
    Parses (liveStep server) (firstStage, stream) (⟨p, true⟩, stream.drop n)

theorem EndsAt.extend (ends : EndsAt server stream executed n) :
    EndsAt server (stream ++ more) executed n := by
  obtain ⟨inside, p, command, shape, run⟩ := ends
  refine ⟨by rw [length_append]; omega, p, command, shape, ?_⟩
  rw [drop_append_of_le_length inside]
  exact run.extend (liveStep_stable server _) (.refl _)

section

variable (kept : ∀ executed, server.freed executed = false)
include kept

theorem execute_command {p : Parser} (command : isCommand server p = true) :
    execute server p = { resetClient p with executed := p.executed ++ [p.argv] } := by
  simp only [isCommand, Bool.and_eq_true] at command
  obtain ⟨plain, nonempty⟩ := command
  have notGopher : ¬ (p.reqtype = some .inline ∧ server.gopher p.executed = true ∧
      isGopher p.argv = true) := by
    rintro ⟨inline, enabled, request⟩
    rw [inline, enabled, request] at plain
    simp at plain
  have some_ : p.argv ≠ [] := by
    intro none
    rw [none] at nonempty
    cases nonempty
  rw [execute, if_neg notGopher, if_neg some_]
  dsimp only
  rw [if_neg (by simp [kept])]
  rfl

omit kept in
theorem executed_length_le {start final : Stage × Bytes}
    (run : Parses (liveStep server) start final) :
    start.1.parser.executed.length ≤ final.1.parser.executed.length := by
  induction run with
  | refl => exact Nat.le_refl _
  | @head start middle final moved _ ih =>
    obtain ⟨⟨stage, consumed⟩, stepped, rfl⟩ := Option.map_eq_some_iff.mp moved
    have stepped := (liveStep_eq_some.mp stepped).1
    refine Nat.le_trans ?_ ih
    unfold Stage.step at stepped
    split at stepped
    · -- Only a request that is ready may add a command.
      cases stepped
      unfold execute
      repeat' split
      all_goals simp [resetClient]
    · simp only [(Parser.step_frame stepped).1, Nat.le_refl]

theorem rest_eq_of_executed {p q : Parser} {unparsed rest : Bytes}
    (command : isCommand server p = true) (same : p.executed.length = q.executed.length)
    (run : Parses (liveStep server) (⟨p, true⟩, unparsed) (⟨q, true⟩, rest)) :
    unparsed = rest := by
  cases run with
  | refl => rfl
  | head moved further =>
    obtain ⟨⟨stage, consumed⟩, stepped, rfl⟩ := Option.map_eq_some_iff.mp moved
    have stepped := (liveStep_eq_some.mp stepped).1
    cases stepped
    have more := executed_length_le further
    rw [execute_command kept command] at more
    simp only [length_append, length_singleton] at more
    omega

theorem EndsAt.unique {m : Nat}
    (first : EndsAt server stream executed n) (second : EndsAt server stream executed m) :
    n = m := by
  obtain ⟨inside, p, command, shape, run⟩ := first
  obtain ⟨inside', q, command', shape', run'⟩ := second
  have same : p.executed.length = q.executed.length := by
    have lengths := congrArg List.length (shape.symm.trans shape')
    simpa using lengths
  -- The parser comes to both ends, to one of them after the other.
  have rest : stream.drop n = stream.drop m := by
    rcases run.total run' with further | further
    · exact rest_eq_of_executed kept command same further
    · exact (rest_eq_of_executed kept command' same.symm further).symm
  have lengths := congrArg List.length rest
  simp only [length_drop] at lengths
  omega

end

end Ends

section Tracking

/-- A server that goes on with the parser, and never frees its client. -/
structure Obedient (server : Server) : Prop where
  running : ∀ p, p.status = .alive → stopped server p = false
  kept : ∀ executed, server.freed executed = false

/-- The offset is the end of the command, and the bytes up to there were passed on. -/
def Proxied (server : Server) (initial : Int) (stream : Bytes) (snapshot : Snapshot) : Prop :=
  ∃ n, EndsAt server stream snapshot.executed n ∧ snapshot.reploff = initial + n ∧
    snapshot.fed = stream.take n

theorem Proxied.extend {server : Server} {initial : Int} {stream : Bytes} {snapshot : Snapshot}
    (proxied : Proxied server initial stream snapshot) (more : Bytes) :
    Proxied server initial (stream ++ more) snapshot := by
  obtain ⟨n, ends, offset, fed⟩ := proxied
  refine ⟨n, ends.extend, offset, ?_⟩
  rw [fed, take_append_of_le_length ends.1]

/-- The client agrees with the stream; a complete request may be waiting. -/
structure TracksAt (server : Server) (initial : Int) (stream : Bytes) (ready : Bool)
    (m : MasterClient) : Prop where
  inside : m.qbPos ≤ m.querybuf.length
  read : m.readReploff = initial + stream.length
  rest : m.unparsed <:+ stream
  applied : ∃ k : Nat, k + m.unparsed.length ≤ stream.length ∧ m.reploff = initial + k ∧
    m.fed.flatten = stream.take k ∧ m.pendingQuerybuf = stream.drop k
  sound : ready = false → Sound m.toClient
  run : m.status = .alive →
    Parses (liveStep server) (firstStage, stream) (pointOf m.toClient ready)
  waits : ready = true → m.status = .alive ∧ isCommand server m.toParser = true
  finished : ∀ snapshot ∈ m.finished, snapshot.finish = .direct →
    Proxied server initial stream snapshot

/-- A blocked client has a request waiting. -/
def Tracks (server : Server) (initial : Int) (stream : Bytes) (m : MasterClient) : Prop :=
  TracksAt server initial stream m.btype.isSome m

variable {server : Server} {world : World} {initial : Int} {stream : Bytes} {m : MasterClient}
  {ready : Bool}

theorem TracksAt.unparsed_eq (tracks : TracksAt server initial stream ready m) :
    m.unparsed = stream.drop (stream.length - m.unparsed.length) :=
  suffix_iff_eq_drop.mp tracks.rest

theorem TracksAt.consumed (tracks : TracksAt server initial stream ready m) :
    m.readReploff - m.querybuf.length + m.qbPos =
      initial + ((stream.length - m.unparsed.length : Nat) : Int) := by
  have inside := tracks.inside
  have bound := tracks.rest.length_le
  have length : m.unparsed.length = m.querybuf.length - m.qbPos := length_drop ..
  rw [tracks.read]
  omega

theorem TracksAt.endsAt (tracks : TracksAt server initial stream true m) :
    EndsAt server stream (m.executed ++ [m.argv]) (stream.length - m.unparsed.length) := by
  obtain ⟨alive, command⟩ := tracks.waits rfl
  refine ⟨Nat.sub_le _ _, m.toParser, command, rfl, ?_⟩
  rw [← tracks.unparsed_eq]
  exact tracks.run alive

theorem parses_reset {m : MasterClient}
    (run : Parses (liveStep server) (firstStage, stream) (pointOf m.toClient true))
    (alive : (m.reset server).status = .alive) :
    Parses (liveStep server) (firstStage, stream) (pointOf (m.reset server).toClient false) := by
  have stepped : liveStep server ⟨m.toParser, true⟩ m.unparsed =
      some (⟨execute server m.toParser, false⟩, 0) :=
    liveStep_eq_some.mpr ⟨stage_ready server _ _, alive⟩
  have moved : advance (liveStep server) (pointOf m.toClient true) =
      some (pointOf (m.reset server).toClient false) := by
    rw [advance, pointOf, stepped]
    rfl
  exact run.trans (.single moved)

section

variable (obedient : Obedient server)
include obedient

theorem TracksAt.reset (tracks : TracksAt server initial stream true m) :
    TracksAt server initial stream false (m.reset server) ∧
      (m.reset server).executed = m.executed ++ [m.argv] := by
  obtain ⟨alive, command⟩ := tracks.waits rfl
  have executed : (m.reset server).toParser =
      { resetClient m.toParser with executed := m.executed ++ [m.argv] } :=
    execute_command obedient.kept command
  exact ⟨{ tracks with
    sound := fun _ => execute_sound tracks.inside
    run := parses_reset (tracks.run alive)
    waits := fun waits => (by cases waits) }, congrArg Parser.executed executed⟩

omit obedient in
theorem TracksAt.note (tracks : TracksAt server initial stream ready m) {finish : Finish}
    (proxied : finish = .direct → Proxied server initial stream
      ⟨finish, m.executed, m.reploff, m.fed.flatten⟩) :
    TracksAt server initial stream ready (m.note finish) := by
  exact { tracks with
    finished := forall_mem_append.mpr ⟨tracks.finished, forall_mem_singleton.mpr proxied⟩ }

/-- `commandProcessed` moves the offset to the end of a command outside a transaction. -/
theorem commandProcessed_tracks (free : m.btype = none)
    (tracks : TracksAt server initial stream true m) (multi : Bool) :
    ∃ m', commandProcessed server m multi = .ok m' ∧ TracksAt server initial stream false m' ∧
      m'.btype = none ∧ m'.unparsed = m.unparsed ∧
      (multi = false → Proxied server initial stream
        ⟨.direct, m'.executed, m'.reploff, m'.fed.flatten⟩) := by
  obtain ⟨reset, executed⟩ := tracks.reset obedient
  have ends := tracks.endsAt
  rw [← executed] at ends
  have consumed := reset.consumed
  obtain ⟨k, bound, offset, fed, pending⟩ := reset.applied
  have rest : (m.reset server).unparsed = m.unparsed := rfl
  rw [commandProcessed, if_neg (by simp [free])]
  dsimp only
  cases multi with
  | true =>
    -- Nothing is applied.
    rw [if_pos rfl, if_pos (Int.sub_self _)]
    exact ⟨_, rfl, reset, free, rest, fun outside => by cases outside⟩
  | false =>
    rw [if_neg Bool.false_ne_true, consumed]
    rw [rest] at bound ⊢
    have applied : initial + ((stream.length - m.unparsed.length : Nat) : Int) -
        (m.reset server).reploff = ((stream.length - m.unparsed.length - k : Nat) : Int) := by
      omega
    rw [applied]
    generalize place : stream.length - m.unparsed.length = n at *
    have before : k ≤ n := by omega
    by_cases none : ((n - k : Nat) : Int) = 0
    · -- The command was applied already.
      have same : k = n := by omega
      rw [if_pos none]
      exact ⟨_, rfl, { reset with applied := ⟨k, bound, by rw [same], fed, pending⟩ }, free, rest,
        fun _ => ⟨n, ends, rfl, by rw [← same]; exact fed⟩⟩
    rw [if_neg none, if_neg]
    · have grown : ((m.reset server).fed ++ [(m.reset server).pendingQuerybuf.take (n - k)]).flatten =
          stream.take n := by
        rw [flatten_append, flatten_singleton, fed, pending, ← take_append_drop k
          (stream.take n), take_take, Nat.min_eq_left before, drop_take]
      rw [Int.toNat_natCast]
      refine ⟨_, rfl, { reset with applied := ⟨n, ?_, rfl, grown, ?_⟩ }, free, rest,
        fun _ => ⟨n, ends, rfl, grown⟩⟩
      · rw [rest]
        omega
      · -- What is left is the stream behind the new offset.
        rw [pending, drop_drop, Nat.add_sub_cancel' before]
    · -- The pending bytes reach from the old offset to the end of what was received.
      rw [pending, length_drop, Int.toNat_natCast]
      omega

section

variable (stays : ∀ tick, world.reacts tick ≠ .dropsLink)
include stays

theorem processCommand_tracks (free : m.btype = none)
    (tracks : TracksAt server initial stream true m) :
    ∃ m', processCommandAndResetClient server world m = .ok m' ∧
      Tracks server initial stream m' ∧ m'.unparsed = m.unparsed := by
  have ticked : TracksAt server initial stream true { m with clock := m.clock + 1 } :=
    { tracks with }
  have stillFree : ({ m with clock := m.clock + 1 } : MasterClient).btype = none := free
  rw [processCommandAndResetClient]
  cases reaction : world.reacts m.clock with
  | dropsLink => exact absurd reaction (stays m.clock)
  | blocks btype =>
    refine ⟨{ m with clock := m.clock + 1, btype := some btype }, rfl, ?_, rfl⟩
    exact { tracks with sound := fun idle => (by cases idle) }
  | done multi =>
    obtain ⟨m', processed, kept, unblocked, rest, proxied⟩ :=
      commandProcessed_tracks obedient stillFree ticked multi
    dsimp only
    rw [processed, ok_bind]
    refine ⟨_, rfl, ?_, ?_⟩
    · -- Outside a transaction, the end of the command is noted.
      cases multi with
      | true =>
        rw [if_pos rfl, Tracks, unblocked]
        exact kept
      | false =>
        rw [if_neg Bool.false_ne_true, Tracks]
        have same : (m'.note .direct).btype.isSome = false := by
          rw [MasterClient.note, unblocked]
          rfl
        rw [same]
        exact kept.note fun _ => proxied rfl
    · split
      · exact rest
      · exact rest

theorem linkLoop_tracks {fuel : Nat} {m : MasterClient} (tracks : Tracks server initial stream m)
    (fueled : m.unparsed.length < fuel) :
    ∃ m', linkLoop server world fuel m = .ok m' ∧ Tracks server initial stream m' := by
  -- Every round that is followed by another one has consumed something.
  induction fuel generalizing m with
  | zero => exact absurd fueled (Nat.not_lt_zero _)
  | succ fuel ih =>
    rw [linkLoop]
    by_cases more : m.qbPos < m.querybuf.length
    · rw [if_neg (by simpa using more)]
      by_cases halted : m.btype.isSome = true ∨ world.stops m.clock = true ∨ m.status ≠ .alive
      · rw [if_pos halted]
        exact ⟨m, rfl, tracks⟩
      have nonempty : m.unparsed ≠ [] := by
        simp [Client.unparsed]
        omega
      have free : m.btype = none := by
        cases known : m.btype with
        | none => rfl
        | some btype => exact absurd (.inl (by rw [known]; rfl)) halted
      have alive : m.status = .alive :=
        Decidable.byContradiction fun dead => halted (.inr (.inr dead))
      rw [Tracks, free] at tracks
      have running := obedient.running m.toParser alive
      obtain ⟨typing, typed⟩ := setReqtype_parses nonempty running (tracks.sound rfl)
      obtain ⟨next, ready, processed, reads⟩ :=
        @processRequest_reads server m.toClient.setReqtype _ typed rfl running
      have run := typing.trans reads.run
      -- Without an error, the parser has come to the same place of the stream.
      have place : next.status = .alive →
          Parses (liveStep server) (firstStage, stream) (pointOf next ready) := fun well =>
        (tracks.run alive).trans (parses_live run well).1
      rw [if_neg halted, parseRequest, processed]
      rw [ok_bind]
      dsimp only
      obtain ⟨k, bound, applied⟩ := tracks.applied
      have shorter : next.unparsed.length ≤ m.unparsed.length := run.length_le
      have further : k + next.unparsed.length ≤ stream.length := by omega
      have suffix : next.unparsed <:+ stream := run.suffix.trans tracks.rest
      cases ready with
      | false =>
        refine ⟨_, rfl, ?_⟩
        dsimp only [MasterClient.withClient]
        rw [free]
        exact ⟨reads.inside, tracks.read, suffix, ⟨k, further, applied⟩,
          fun _ => (reads.waits rfl).2, place, fun waits => (by cases waits), tracks.finished⟩
      | true =>
        have less : next.unparsed.length < m.unparsed.length := reads.consumes rfl
        have well : next.status = .alive :=
          alive_of_ready run (fun ready => by cases ready) rfl
        rw [if_neg (by simp)]
        split
        · rename_i command
          -- The request is a command, which is processed and may block the client.
          have waiting : TracksAt server initial stream true
              { m.withClient next with clock := m.clock + 1 } :=
            ⟨reads.inside, tracks.read, suffix, ⟨k, further, applied⟩,
              fun idle => (by cases idle), place, fun _ => ⟨well, command⟩, tracks.finished⟩
          have stillFree : ({ m.withClient next with clock := m.clock + 1 } :
              MasterClient).btype = none := free
          obtain ⟨m', done, kept, rest⟩ := processCommand_tracks obedient stays stillFree waiting
          rw [done, ok_bind]
          refine ih kept ?_
          rw [rest]
          exact (show next.unparsed.length < fuel by omega)
        · -- Nothing is executed for an empty request, and Gopher ends the connection.
          refine ih ?_ (show next.unparsed.length < fuel by omega)
          have stillFree : (MasterClient.reset server
              { m.withClient next with clock := m.clock + 1 }).btype = none := free
          rw [Tracks, stillFree]
          exact ⟨reads.inside, tracks.read, suffix, ⟨k, further, applied⟩,
            fun _ => execute_sound reads.inside, parses_reset (place well),
            fun waits => (by cases waits), tracks.finished⟩
    · rw [if_pos more]
      exact ⟨m, rfl, tracks⟩

omit stays in
omit obedient in
theorem TracksAt.trim (tracks : TracksAt server initial stream ready m) :
    TracksAt server initial stream ready (m.withClient m.toClient.trim) := by
  refine { tracks with inside := Nat.zero_le _, sound := ?_ }
  intro idle
  exact { tracks.sound idle with inside := Nat.zero_le _ }

theorem processLinkBuffer_tracks (tracks : Tracks server initial stream m) :
    ∃ m', processLinkBuffer server world m = .ok m' ∧ Tracks server initial stream m' := by
  obtain ⟨m', looped, kept⟩ := @linkLoop_tracks server world initial stream obedient stays
    (m.querybuf.length - m.qbPos + 1) m tracks (by
      rw [Client.unparsed, length_drop]
      exact Nat.lt_succ_self _)
  rw [processLinkBuffer, looped, ok_bind]
  refine ⟨_, rfl, ?_⟩
  exact kept.trim

omit obedient in
omit stays in
theorem TracksAt.receive (tracks : TracksAt server initial stream ready m) (piece : Bytes) :
    TracksAt server initial (stream ++ piece) ready { m with
      querybuf := m.querybuf ++ piece
      pendingQuerybuf := m.pendingQuerybuf ++ piece
      readReploff := m.readReploff + piece.length } := by
  have rest : ({ m with
      querybuf := m.querybuf ++ piece
      pendingQuerybuf := m.pendingQuerybuf ++ piece
      readReploff := m.readReploff + piece.length } : MasterClient).unparsed =
      m.unparsed ++ piece := drop_append_of_le_length tracks.inside
  obtain ⟨k, bound, offset, fed, pending⟩ := tracks.applied
  have before : k ≤ stream.length := by omega
  refine ⟨?_, ?_, ?_, ⟨k, ?_, offset, ?_, ?_⟩, ?_, ?_, tracks.waits, ?_⟩
  · have inside := tracks.inside
    simp only [length_append]
    omega
  · simp only [tracks.read, length_append]
    omega
  · obtain ⟨front, whole⟩ := tracks.rest
    refine ⟨front, ?_⟩
    rw [rest, ← append_assoc, whole]
  · rw [rest, length_append, length_append]
    omega
  · rw [take_append_of_le_length before]
    exact fed
  · rw [drop_append_of_le_length before, ← pending]
  · intro idle
    have sound := tracks.sound idle
    refine ⟨sound.idle, sound.known, fun type header => ?_, ?_⟩
    · rw [rest, head?_append, sound.star type header]
      rfl
    · have inside := sound.inside
      simp only [length_append]
      omega
  · -- Where the parser is does not depend on what comes later.
    intro alive
    have extended := (tracks.run alive).extend (liveStep_stable server (stream ++ piece)) (.refl _)
    rw [pointOf, rest]
    exact extended
  · exact fun snapshot member direct => (tracks.finished snapshot member direct).extend piece

theorem handle_tracks (tracks : Tracks server initial stream m) (event : LinkEvent) :
    ∃ m', handle server world m event = .ok m' ∧
      Tracks server initial (stream ++ event.bytes) m' := by
  cases event with
  | read piece =>
    rw [handle]
    exact processLinkBuffer_tracks obedient stays (tracks.receive piece)
  | resume =>
    rw [LinkEvent.bytes, append_nil, handle]
    rw [Tracks] at tracks
    cases blocked : m.btype with
    | none =>
      rw [blocked] at tracks
      exact processLinkBuffer_tracks obedient stays { tracks with }
    | some btype =>
      -- The command that was waiting is processed again, or it is finished.
      rw [blocked] at tracks
      have waiting : TracksAt server initial stream true { m with btype := none } := { tracks with }
      cases btype with
      | pause =>
        obtain ⟨m', done, kept, _⟩ := processCommand_tracks obedient stays rfl waiting
        dsimp only
        rw [done, ok_bind]
        exact processLinkBuffer_tracks obedient stays kept
      | module =>
        exact processLinkBuffer_tracks obedient stays
          ((waiting.reset obedient).1.note fun direct => by cases direct)

theorem handleAll_tracks (events : List LinkEvent) {stream : Bytes} {m : MasterClient}
    (tracks : Tracks server initial stream m) :
    ∃ m', handleAll server world m events = .ok m' ∧
      Tracks server initial (stream ++ received events) m' := by
  induction events generalizing stream m with
  | nil =>
    rw [received, flatMap_nil, append_nil]
    exact ⟨m, rfl, tracks⟩
  | cons event events ih =>
    obtain ⟨middle, handled, kept⟩ := handle_tracks obedient stays tracks event
    obtain ⟨m', rest, last⟩ := ih kept
    refine ⟨m', by rw [handleAll, handled, ok_bind, rest], ?_⟩
    rw [received, flatMap_cons, ← append_assoc]
    exact last

end

end

theorem newMasterClient_tracks (server : Server) (initial : Int) :
    Tracks server initial [] (newMasterClient initial) :=
  ⟨Nat.le_refl 0, (Int.add_zero initial).symm, suffix_rfl,
    ⟨0, Nat.le_refl 0, (Int.add_zero initial).symm, rfl, rfl⟩, fun _ => newClient_sound,
    fun _ => .refl _, fun waits => (by cases waits), fun _ member => (by cases member)⟩

theorem masterLink_obedient (limit : List Argv → Int) (gopher : List Argv → Bool) :
    Obedient (masterLink limit gopher) := ⟨fun _ => running_of_alive, fun _ => rfl⟩

end Tracking

/-- However the stream arrives, after every command outside a transaction that neither blocks the
client nor ends the link, the offset is that of its end in the stream, and what has been passed on
is exactly the stream up to there. -/
theorem master_stream_proxied (limit : List Argv → Int) (gopher : List Argv → Bool) (world : World)
    (stays : ∀ tick, world.reacts tick ≠ .dropsLink) (initial : Int) (events : List LinkEvent) :
    ∃ m, handleAll (masterLink limit gopher) world (newMasterClient initial) events = .ok m ∧
      ∀ snapshot ∈ m.finished, snapshot.finish = .direct →
        (∃ n, EndsAt (masterLink limit gopher) (received events) snapshot.executed n) ∧
        ∀ n, EndsAt (masterLink limit gopher) (received events) snapshot.executed n →
          snapshot.reploff = initial + n ∧ snapshot.fed = (received events).take n := by
  have obedient := masterLink_obedient limit gopher
  obtain ⟨m, handled, tracks⟩ := handleAll_tracks obedient stays events
    (newMasterClient_tracks (masterLink limit gopher) initial)
  refine ⟨m, handled, fun snapshot member direct => ?_⟩
  obtain ⟨n, ends, offset, fed⟩ := tracks.finished snapshot member direct
  refine ⟨⟨n, ends⟩, fun place ends' => ?_⟩
  rw [ends'.unique obedient.kept ends]
  exact ⟨offset, fed⟩

def bare (name : Bytes) : Bytes := multibulk [name]

def multiName : Bytes := [77, 85, 76, 84, 73]
def execName : Bytes := [69, 88, 69, 67]
def pingName : Bytes := [80, 73, 78, 71]

/-- Inside a transaction from `MULTI` to `EXEC`. -/
def transactionWorld : World where
  stops _ := false
  reacts tick := .done (tick < 7)

/-- An empty line, a transaction in two pieces, and a command. -/
def transactionEvents : List LinkEvent :=
  [.read (10 :: bare multiName ++ [42, 49]), .resume,
    .read ((bare pingName).drop 2 ++ bare execName ++ bare pingName)]

theorem transaction_proxied :
    ∃ m, handleAll (masterLink (fun _ => 0) fun _ => false) transactionWorld (newMasterClient 100)
        transactionEvents = .ok m ∧
      (m.finished.map fun snapshot => snapshot.reploff) = [144, 158] ∧
      ∀ snapshot ∈ m.finished, snapshot.finish = .direct →
        ∀ n, EndsAt (masterLink (fun _ => 0) fun _ => false) (received transactionEvents)
          snapshot.executed n →
          snapshot.reploff = 100 + n ∧ snapshot.fed = (received transactionEvents).take n := by
  obtain ⟨m, handled, proxied⟩ := master_stream_proxied (fun _ => 0) (fun _ => false)
    transactionWorld (fun _ => by simp [transactionWorld]) 100 transactionEvents
  have offsets : ((handleAll (masterLink (fun _ => 0) fun _ => false) transactionWorld
      (newMasterClient 100) transactionEvents).toOption.map fun m =>
        m.finished.map fun snapshot => snapshot.reploff) = some [144, 158] := by
    decide +kernel
  rw [handled] at offsets
  exact ⟨m, handled, Option.some.inj offsets,
    fun snapshot member direct => (proxied snapshot member direct).2⟩

/-- The first command blocks the client, and is finished later. -/
def blockingWorld : World where
  stops _ := false
  reacts _ := .blocks .module

/-- When a command that has blocked the client is finished, the offset stays behind its end. -/
theorem blocking_not_proxied :
    ∃ m snapshot, handleAll (masterLink (fun _ => 0) fun _ => false) blockingWorld
        (newMasterClient 100) [.read (bare pingName), .resume] = .ok m ∧
      snapshot ∈ m.finished ∧ snapshot.executed = [[pingName]] ∧
      EndsAt (masterLink (fun _ => 0) fun _ => false) (bare pingName) [[pingName]] 14 ∧
      snapshot.reploff = 100 ∧ snapshot.fed = [] := by
  have evaluated : ((handleAll (masterLink (fun _ => 0) fun _ => false) blockingWorld
      (newMasterClient 100) [.read (bare pingName), .resume]).toOption.map fun m => m.finished) =
        some [⟨.unblocked, [[pingName]], 100, []⟩] := by
    decide +kernel
  cases handled : handleAll (masterLink (fun _ => 0) fun _ => false) blockingWorld
      (newMasterClient 100) [.read (bare pingName), .resume] with
  | error fault =>
    rw [handled] at evaluated
    cases evaluated
  | ok m =>
    rw [handled] at evaluated
    have finished : m.finished = [⟨.unblocked, [[pingName]], 100, []⟩] := Option.some.inj evaluated
    -- The parser reads the number of arguments, the length of the only one, and the argument.
    have run : Parses (Stage.step (masterLink (fun _ => 0) fun _ => false))
        (firstStage, bare pingName) (⟨collecting [] [pingName] 0 none, true⟩, []) :=
      .head advance_between (.head (@advance_typed _ _ [] [pingName] _ (by decide) (by decide))
        (.head (@advance_sized _ _ [] [] pingName _ 0 (by decide)) (.single advance_argument)))
    refine ⟨m, _, rfl, by rw [finished]; exact mem_singleton_self _, rfl,
      ⟨by decide, _, ?_, rfl, (parses_live run rfl).1⟩, rfl, rfl⟩
    decide +kernel

end LearningNotes.Networking
