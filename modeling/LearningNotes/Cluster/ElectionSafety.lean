import LearningNotes.Cluster.Election
import LearningNotes.Lib.Maps
import LearningNotes.Lib.Quorum

/-! Elections are safe as long as no vote arrives between two elections, and not in general. -/

namespace LearningNotes.Cluster

open Lib List

variable {size : Nat}

def isAckFor (r epoch : Nat) (msg : Msg size) : Bool :=
  decide (msg.type = .failoverAuthAck ∧ msg.receiver = .replica r ∧ msg.currentEpoch = epoch)

/-- The votes for a replica in an epoch that are on their way. -/
def acksFor (network : List (Msg size)) (r epoch : Nat) : Nat := network.countP (isAckFor r epoch)

/-- The votes that a replica has counted in an epoch. -/
def countedFor (node : Replica) (epoch : Nat) : Nat :=
  if node.failoverAuthSent = true ∧ node.failoverAuthEpoch = epoch then node.failoverAuthCount
  else 0

def Voter.Sound (voter : Voter) : Prop :=
  voter.lastVoteEpoch = voter.savedLastVoteEpoch ∧
    voter.savedLastVoteEpoch ≤ voter.savedCurrentEpoch ∧
    voter.savedCurrentEpoch ≤ voter.currentEpoch

/-- What a replica keeps that last asked for votes in this epoch. -/
structure Replica.Sound (node : Replica) (asked : Nat) : Prop where
  saved : asked ≤ node.savedCurrentEpoch ∧ node.savedCurrentEpoch ≤ node.currentEpoch
  waiting : node.failoverAuthSent = true → node.failoverAuthEpoch = asked
  -- Nothing is counted before it has asked.
  idle : node.failoverAuthSent = false → node.failoverAuthCount = 0

/-- The invariant, with the votes cast and the epochs of the last requests. -/
structure Inv (system : System size) (votes : List (Vote (Fin size) Nat)) (asked : Nat → Nat)
    (wins : List Win) : Prop where
  voters : ∀ i, (system.voters i).Sound
  replicas : ∀ r, (system.replicas r).Sound (asked r)
  recorded : ∀ i r epoch, (i, r, epoch) ∈ votes →
    epoch ≤ (system.voters i).lastVoteEpoch ∧ epoch ≤ asked r
  single : SingleVotes votes
  requests : ∀ msg ∈ system.network, msg.type = .failoverAuthRequest →
    ∀ r, msg.sender = .replica r → msg.currentEpoch ≤ asked r
  counted : ∀ r epoch, acksFor system.network r epoch + countedFor (system.replicas r) epoch ≤
    support votes r epoch
  won : ∀ win ∈ wins, size / 2 + 1 ≤ support votes win.1 win.2

section Network

theorem acksFor_eraseIdx {network : List (Msg size)} {i : Nat} {msg : Msg size}
    (there : network[i]? = some msg) (r epoch : Nat) :
    acksFor network r epoch =
      acksFor (network.eraseIdx i) r epoch + if isAckFor r epoch msg then 1 else 0 := by
  obtain ⟨inside, same⟩ := List.getElem?_eq_some_iff.mp there
  have parts : network = network.take i ++ msg :: network.drop (i + 1) := by
    rw [← same, getElem_cons_drop, take_append_drop]
  rw [acksFor, acksFor, eraseIdx_eq_take_drop_succ]
  conv_lhs => rw [parts]
  rw [countP_append, countP_cons, countP_append]
  omega

theorem acksFor_append (network more : List (Msg size)) (r epoch : Nat) :
    acksFor (network ++ more) r epoch = acksFor network r epoch + acksFor more r epoch :=
  countP_append

theorem acksFor_others {more : List (Msg size)} (others : ∀ msg ∈ more, msg.type ≠ .failoverAuthAck)
    (r epoch : Nat) : acksFor more r epoch = 0 := by
  apply countP_eq_zero.mpr
  intro msg listed
  rw [isAckFor, decide_eq_true_eq]
  exact fun ack => others msg listed ack.1

end Network

section Preservation

variable {system : System size} {votes : List (Vote (Fin size) Nat)} {asked : Nat → Nat}
  {wins : List Win}

variable {i : Fin size} {r : Nat} {node : Replica} {msg : Msg size}

section

variable (inv : Inv system votes asked wins)
include inv

theorem Inv.setVoter {voter : Voter} (sound : voter.Sound)
    (remembers : (system.voters i).lastVoteEpoch ≤ voter.lastVoteEpoch) :
    Inv (system.setVoter i voter) votes asked wins := by
  have later := forall_changed (P := fun j (after : Voter) => (system.voters j).lastVoteEpoch ≤
    after.lastVoteEpoch) remembers fun _ => Nat.le_refl _
  exact { inv with
    voters := forall_changed (P := fun _ => Voter.Sound) sound inv.voters
    recorded := fun j r epoch cast_ =>
      (inv.recorded j r epoch cast_).imp_left fun last => Nat.le_trans last (later j) }

theorem Inv.setReplica (sound : node.Sound (asked r))
    (fewer : ∀ epoch, countedFor node epoch ≤ countedFor (system.replicas r) epoch) :
    Inv (system.setReplica r node) votes asked wins := by
  refine { inv with
    replicas :=
      forall_changed (P := fun s (node : Replica) => node.Sound (asked s)) sound inv.replicas
    counted := fun s epoch => Nat.le_trans (Nat.add_le_add_left ?_ _) (inv.counted s epoch) }
  exact forall_changed (P := fun s (node : Replica) => countedFor node epoch ≤
    countedFor (system.replicas s) epoch) (fewer epoch) (fun _ => Nat.le_refl _) s

theorem Inv.send {more : List (Msg size)}
    (others : ∀ r epoch, acksFor more r epoch = 0)
    (requests : ∀ msg ∈ more, msg.type = .failoverAuthRequest →
      ∀ r, msg.sender = .replica r → msg.currentEpoch ≤ asked r) :
    Inv (system.send more) votes asked wins := by
  refine { inv with
    requests := forall_mem_append.mpr ⟨inv.requests, requests⟩
    counted := fun r epoch => ?_ }
  change acksFor (system.network ++ more) r epoch + _ ≤ _
  rw [acksFor_append, others, Nat.add_zero]
  exact inv.counted r epoch

theorem Inv.ask (r epoch : Nat) (later : asked r ≤ epoch) (node : Replica)
    (sound : node.Sound epoch) (none_ : ∀ epoch, countedFor node epoch = 0) :
    Inv (system.setReplica r node) votes (fun s => if s = r then epoch else asked s) wins := by
  have grown := forall_changed (P := fun s epoch => asked s ≤ epoch) later
    fun _ => Nat.le_refl _
  refine { inv with
    replicas := fun s => ?_
    recorded := fun i s before cast_ =>
      (inv.recorded i s before cast_).imp_right fun known => Nat.le_trans known (grown s)
    requests := fun msg listed type s sender =>
      Nat.le_trans (inv.requests msg listed type s sender) (grown s)
    counted := fun s before => Nat.le_trans (Nat.add_le_add_left ?_ _) (inv.counted s before) }
  · change (if s = r then node else system.replicas s).Sound (if s = r then epoch else asked s)
    split
    · exact sound
    · exact inv.replicas s
  · exact forall_changed (P := fun s (node : Replica) => countedFor node before ≤
      countedFor (system.replicas s) before) (none_ before ▸ Nat.zero_le _)
      (fun _ => Nat.le_refl _) s

end

theorem delayElection_same (view : FailoverView size) (node : Replica) :
    (delayElection view node).currentEpoch = node.currentEpoch ∧
      (delayElection view node).savedCurrentEpoch = node.savedCurrentEpoch ∧
      (delayElection view node).failoverAuthSent = node.failoverAuthSent ∧
      (delayElection view node).failoverAuthCount = node.failoverAuthCount ∧
      (delayElection view node).failoverAuthEpoch = node.failoverAuthEpoch := by
  rw [delayElection]
  split <;> exact ⟨rfl, rfl, rfl, rfl, rfl⟩

theorem clusterHandleSlaveFailover_cases (view : FailoverView size) (node : Replica) :
    (∃ node', clusterHandleSlaveFailover view node = (.none, node') ∧
      (node' = node ∨ node' = scheduleElection view node ∨ node' = delayElection view node)) ∨
    (clusterHandleSlaveFailover view node = (.requested, startElection (delayElection view node)) ∧
      node.failoverAuthSent = false) ∨
    (clusterHandleSlaveFailover view node = (.won, winElection (delayElection view node)) ∧
      node.failoverAuthSent = true ∧ size / 2 + 1 ≤ node.failoverAuthCount) := by
  obtain ⟨_, _, sent, count, _⟩ := delayElection_same view node
  rw [clusterHandleSlaveFailover]
  split
  · exact .inl ⟨_, rfl, .inl rfl⟩
  split
  · exact .inl ⟨_, rfl, .inl rfl⟩
  split
  · exact .inl ⟨_, rfl, .inr (.inl rfl)⟩
  dsimp only
  split
  · exact .inl ⟨_, rfl, .inr (.inr rfl)⟩
  split
  · exact .inl ⟨_, rfl, .inr (.inr rfl)⟩
  split
  · rename_i unsent
    rw [sent, Bool.not_eq_true'] at unsent
    exact .inr (.inl ⟨rfl, unsent⟩)
  rename_i asked
  rw [sent, Bool.not_eq_true', Bool.not_eq_false] at asked
  split
  · rename_i enough
    rw [count] at enough
    exact .inr (.inr ⟨rfl, asked, enough⟩)
  · exact .inl ⟨_, rfl, .inr (.inr rfl)⟩

theorem Replica.Sound.congr {node' : Replica} {epoch : Nat} (sound : node.Sound epoch)
    (current : node'.currentEpoch = node.currentEpoch)
    (saved : node'.savedCurrentEpoch = node.savedCurrentEpoch)
    (sent : node'.failoverAuthSent = node.failoverAuthSent)
    (count : node'.failoverAuthCount = node.failoverAuthCount)
    (election : node'.failoverAuthEpoch = node.failoverAuthEpoch) : node'.Sound epoch := by
  constructor
  · rw [saved, current]
    exact sound.saved
  · rw [sent, election]
    exact sound.waiting
  · rw [sent, count]
    exact sound.idle

theorem countedFor_idle {epoch : Nat} (sound : node.Sound epoch)
    (unsent : node.failoverAuthSent = false) (other : Nat) (node' : Replica)
    (count : node'.failoverAuthCount = node.failoverAuthCount) : countedFor node' other = 0 := by
  rw [countedFor, count, sound.idle unsent, ite_self]

variable (inv : Inv system votes asked wins)
include inv

theorem Inv.handleFailover (r : Nat) (view : FailoverView size)
    (small : (clusterHandleSlaveFailover view (system.replicas r)).1 = .requested →
      (system.replicas r).currentEpoch + 1 < 2 ^ 64) :
    ∃ asked', Inv (step system (.handleFailover r view)).2 votes asked'
      ((step system (.handleFailover r view)).1.toList ++ wins) := by
  have sound := inv.replicas r
  obtain ⟨current, saved, sent, count, election⟩ := delayElection_same view (system.replicas r)
  have delayed : (delayElection view (system.replicas r)).Sound (asked r) :=
    sound.congr current saved sent count election
  have same : ∀ epoch, countedFor (delayElection view (system.replicas r)) epoch =
      countedFor (system.replicas r) epoch := by
    intro epoch
    rw [countedFor, countedFor, sent, count, election]
  rw [step]
  rcases clusterHandleSlaveFailover_cases view (system.replicas r) with
    ⟨node, handled, reason⟩ | ⟨handled, unsent⟩ | ⟨handled, waits, enough⟩
  · rw [handled]
    refine ⟨asked, ?_⟩
    rcases reason with rfl | rfl | rfl
    · exact inv.setReplica sound fun _ => Nat.le_refl _
    · -- A scheduled election starts from nothing.
      refine inv.setReplica ⟨sound.saved, ?_, fun _ => rfl⟩ fun epoch => ?_
      · intro never
        cases never
      · exact (if_neg (fun both => by cases both.1)).trans_le (Nat.zero_le _)
    · exact inv.setReplica delayed fun epoch => Nat.le_of_eq (same epoch)
  · have next : nextEpoch (delayElection view (system.replicas r)).currentEpoch =
        (system.replicas r).currentEpoch + 1 := by
      rw [current, nextEpoch]
      exact Nat.mod_eq_of_lt (small (by rw [handled]))
    obtain ⟨known, reached⟩ := sound.saved
    rw [handled]
    refine ⟨_, (inv.ask r ((system.replicas r).currentEpoch + 1) (by omega)
      (startElection (delayElection view (system.replicas r))) ?_ ?_).send ?_ ?_⟩
    · refine ⟨?_, fun _ => next, ?_⟩
      · change _ ≤ nextEpoch _ ∧ nextEpoch _ ≤ nextEpoch _
        rw [next]
        exact ⟨Nat.le_refl _, Nat.le_refl _⟩
      · intro never
        cases never
    · exact fun other => countedFor_idle sound unsent other _ count
    · apply acksFor_others
      intro msg listed
      obtain ⟨receiver, _, shape⟩ := mem_map.mp listed
      subst shape
      exact fun never => by cases never
    · intro msg listed _ s sender
      obtain ⟨receiver, _, shape⟩ := mem_map.mp listed
      subst shape
      obtain rfl : r = s := by cases sender; rfl
      change nextEpoch _ ≤ if r = r then _ else _
      rw [if_pos rfl, next]
  · rw [handled]
    refine ⟨asked, ?_⟩
    -- The votes that were counted have been cast, so the quorum is one of votes.
    obtain ⟨known, reached⟩ := delayed.saved
    have won : (winElection (delayElection view (system.replicas r))).Sound (asked r) :=
      ⟨⟨Nat.le_trans known reached, Nat.le_refl _⟩, delayed.waiting, delayed.idle⟩
    refine { inv.setReplica won fun epoch => Nat.le_of_eq (same epoch) with won := ?_ }
    refine forall_mem_cons.mpr ⟨?_, inv.won⟩
    have counted := inv.counted r (system.replicas r).failoverAuthEpoch
    rw [countedFor, if_pos ⟨waits, rfl⟩] at counted
    change _ ≤ support votes r (delayElection view (system.replicas r)).failoverAuthEpoch
    rw [election]
    omega

theorem Inv.arrive {i : Nat} (there : system.network[i]? = some msg) :
    Inv { system with network := system.network.eraseIdx i } votes asked wins := by
  refine { inv with
    requests := fun msg listed => inv.requests msg (mem_of_mem_eraseIdx listed)
    counted := fun r epoch => ?_ }
  have before := inv.counted r epoch
  rw [acksFor_eraseIdx there] at before
  change acksFor (system.network.eraseIdx i) r epoch + countedFor (system.replicas r) epoch ≤ _
  omega

omit inv in
theorem clusterSendFailoverAuthIfNeeded_cases (view : VoteView) (voter : Voter)
    (request : Msg size) :
    clusterSendFailoverAuthIfNeeded view voter request = (false, voter) ∨
    ∃ voter', clusterSendFailoverAuthIfNeeded view voter request = (true, voter') ∧
      voter.currentEpoch ≤ request.currentEpoch ∧ voter.lastVoteEpoch ≠ voter.currentEpoch ∧
      voter'.currentEpoch = voter.currentEpoch ∧ voter'.lastVoteEpoch = voter.currentEpoch ∧
      voter'.Sound := by
  rw [clusterSendFailoverAuthIfNeeded]
  split
  · exact .inl rfl
  rename_i recent
  split
  · exact .inl rfl
  rename_i unvoted
  split
  · exact .inl rfl
  split
  · exact .inl rfl
  split
  · exact .inl rfl
  split
  · exact .inl rfl
  · exact .inr ⟨_, rfl, Nat.le_of_not_lt recent, unvoted, rfl, rfl, rfl, Nat.le_refl _, Nat.le_refl _⟩

theorem Inv.vote {voter : Voter} (sound : voter.Sound)
    (fresh : (system.voters i).lastVoteEpoch < voter.lastVoteEpoch)
    (now : voter.lastVoteEpoch = voter.currentEpoch) (known : voter.currentEpoch ≤ asked r) :
    Inv ((system.setVoter i voter).send [clusterSendFailoverAuth i voter (.replica r)])
      ((i, r, voter.currentEpoch) :: votes) asked wins := by
  have inside := inv.setVoter sound (Nat.le_of_lt fresh)
  refine { inside with recorded := ?_, single := ?_, requests := ?_, counted := ?_, won := ?_ }
  · intro j s epoch cast_
    rcases mem_cons.mp cast_ with new | old
    · obtain ⟨rfl, rfl, rfl⟩ : j = i ∧ s = r ∧ epoch = voter.currentEpoch := by
        simpa only [Prod.mk.injEq] using new
      refine ⟨?_, known⟩
      change _ ≤ (if j = j then voter else system.voters j).lastVoteEpoch
      rw [if_pos rfl, now]
    · exact inside.recorded j s epoch old
  · -- Votes that were cast before are in epochs up to the last vote.
    refine nodup_cons.mpr ⟨?_, inv.single⟩
    intro listed
    obtain ⟨⟨j, s, epoch⟩, cast_, same⟩ := mem_map.mp listed
    obtain ⟨rfl, rfl⟩ : j = i ∧ epoch = voter.currentEpoch := by
      simpa only [Prod.mk.injEq] using same
    have last := (inv.recorded j s _ cast_).1
    omega
  · exact forall_mem_append.mpr ⟨inv.requests, forall_mem_singleton.mpr fun never => by cases never⟩
  · intro s epoch
    have before := inv.counted s epoch
    change acksFor (system.network ++ _) s epoch + countedFor (system.replicas s) epoch ≤ _
    rw [acksFor_append, support_cons]
    have one : acksFor [clusterSendFailoverAuth i voter (.replica r)] s epoch =
        if (r, voter.currentEpoch) = (s, epoch) then 1 else 0 := by
      rw [acksFor, countP_singleton, isAckFor, clusterSendFailoverAuth]
      simp only [true_and, Name.replica.injEq, Prod.mk.injEq, decide_eq_true_eq]
    dsimp only
    omega
  · exact fun win listed => Nat.le_trans (inv.won win listed) (support_le_cons _ _ _ _)

theorem Inv.processMaster (receiver : msg.receiver = .master i)
    (requests : msg.type = .failoverAuthRequest → ∀ r, msg.sender = .replica r → msg.currentEpoch ≤
      asked r) (view : VoteView) :
    ∃ votes', Inv (clusterProcessPacket system msg view) votes' asked wins := by
  have sound := inv.voters i
  obtain ⟨saved, behind, reached⟩ := id sound
  -- The epoch of the message is taken over first.
  have raised : ({ system.voters i with
      currentEpoch := max (system.voters i).currentEpoch msg.currentEpoch } : Voter).Sound :=
    ⟨saved, behind, Nat.le_trans reached (Nat.le_max_left _ _)⟩
  rw [clusterProcessPacket, receiver]
  dsimp only
  by_cases request : msg.type = .failoverAuthRequest
  swap
  · rw [if_neg request]
    exact ⟨votes, inv.setVoter raised (Nat.le_refl _)⟩
  rw [if_pos request]
  rcases clusterSendFailoverAuthIfNeeded_cases view { system.voters i with
      currentEpoch := max (system.voters i).currentEpoch msg.currentEpoch } msg with
    denied | ⟨voter, granted, recent, unvoted, current, voted, sound'⟩
  · rw [denied]
    exact ⟨votes, inv.setVoter raised (Nat.le_refl _)⟩
  rw [granted]
  dsimp only at recent unvoted current voted ⊢
  have later : (system.voters i).lastVoteEpoch < voter.lastVoteEpoch := by
    omega
  cases sender : msg.sender with
  | replica r =>
    refine ⟨_, inv.vote sound' later (by rw [voted, current]) ?_⟩
    rw [current]
    exact Nat.le_trans recent (requests request r sender)
  | master j =>
    refine ⟨votes, (inv.setVoter sound' (Nat.le_of_lt later)).send ?_ ?_⟩
    · intro r epoch
      rw [acksFor, countP_singleton, isAckFor, clusterSendFailoverAuth]
      simp
    · exact forall_mem_singleton.mpr fun never => by cases never

theorem Inv.processReplica {i : Nat}
    (there : system.network[i]? = some msg) (receiver : msg.receiver = .replica r)
    (waits : msg.type = .failoverAuthAck → (system.replicas r).failoverAuthSent = true)
    (view : VoteView) :
    Inv (clusterProcessPacket { system with network := system.network.eraseIdx i } msg view)
      votes asked wins := by
  have sound := inv.replicas r
  obtain ⟨known, reached⟩ := sound.saved
  have raised : ({ system.replicas r with
      currentEpoch := max (system.replicas r).currentEpoch msg.currentEpoch } : Replica).Sound
      (asked r) :=
    ⟨⟨known, Nat.le_trans reached (Nat.le_max_left _ _)⟩, sound.waiting, sound.idle⟩
  have plain := (inv.arrive there).setReplica raised fun _ => Nat.le_refl _
  rw [clusterProcessPacket, receiver]
  dsimp only
  split
  swap
  · exact plain
  rename_i ack _
  -- The vote was on its way, so it was cast in an epoch in which the replica has asked.
  have listed : isAckFor r msg.currentEpoch msg = true := by
    rw [isAckFor, decide_eq_true_eq]
    exact ⟨ack, receiver, rfl⟩
  have counted := inv.counted r msg.currentEpoch
  rw [acksFor_eraseIdx there, if_pos listed] at counted
  obtain ⟨voter, cast_⟩ := exists_vote (Nat.lt_of_lt_of_le (by omega) counted)
  have asked_ := (inv.recorded voter r _ cast_).2
  have waiting := sound.waiting (waits ack)
  rw [receiveAck]
  split
  swap
  · exact plain
  rename_i current
  change msg.currentEpoch ≥ (system.replicas r).failoverAuthEpoch at current
  have same : msg.currentEpoch = (system.replicas r).failoverAuthEpoch := by omega
  refine { plain with replicas := ?_, counted := ?_ }
  · refine forall_changed (P := fun s (node : Replica) => node.Sound (asked s))
      ⟨raised.saved, sound.waiting, fun unsent => ?_⟩ inv.replicas
    exact absurd ((waits ack).symm.trans unsent) Bool.false_ne_true.symm
  intro s epoch
  have before := inv.counted s epoch
  rw [acksFor_eraseIdx there] at before
  change acksFor (system.network.eraseIdx i) s epoch +
    countedFor (if s = r then _ else system.replicas s) epoch ≤ _
  split
  · rename_i here
    subst here
    -- The vote is now counted instead of being on its way.
    by_cases now : epoch = msg.currentEpoch
    · subst now
      rw [if_pos listed, countedFor, if_pos ⟨waits ack, same.symm⟩] at before
      rw [countedFor, if_pos ⟨waits ack, same.symm⟩]
      change _ + ((system.replicas s).failoverAuthCount + 1) ≤ _
      omega
    · rw [countedFor, if_neg (fun both => now (both.2.symm.trans same.symm))]
      omega
  · omega

end Preservation

section Runs

/-- A vote is for a replica that has asked for it in its present election. -/
def awaited (system : System size) (msg : Msg size) : Bool :=
  match msg.receiver with
  | .master _ => true
  | .replica r => msg.type != .failoverAuthAck || (system.replicas r).failoverAuthSent

/-- A vote arrives only at a replica that still waits for it, and no epoch wraps around. -/
def orderly (system : System size) : Action size → Bool
  | .handleFailover r view =>
    (clusterHandleSlaveFailover view (system.replicas r)).1 != .requested ||
      decide ((system.replicas r).currentEpoch + 1 < 2 ^ 64)
  | .deliver i _ => (system.network[i]?).all (awaited system)
  | _ => true

def OrderlyRun : System size → List (Action size) → Prop
  | _, [] => True
  | system, action :: actions =>
    orderly system action = true ∧ OrderlyRun (step system action).2 actions

instance OrderlyRun.decidable : ∀ (system : System size) (actions : List (Action size)),
    Decidable (OrderlyRun system actions)
  | _, [] => isTrue trivial
  | system, action :: actions =>
    have := OrderlyRun.decidable (step system action).2 actions
    inferInstanceAs (Decidable (_ ∧ _))

/-- Nodes that have just started, with nothing on its way. -/
structure Fresh (system : System size) : Prop where
  network : system.network = []
  voters : ∀ i, (system.voters i).Sound
  replicas : ∀ r, (system.replicas r).failoverAuthSent = false ∧
    (system.replicas r).failoverAuthCount = 0 ∧
    (system.replicas r).savedCurrentEpoch ≤ (system.replicas r).currentEpoch

theorem Inv.step {system : System size} {votes : List (Vote (Fin size) Nat)} {asked : Nat → Nat}
    {wins : List Win} (inv : Inv system votes asked wins) (action : Action size)
    (fine : orderly system action = true) :
    ∃ votes' asked', Inv (step system action).2 votes' asked'
      ((Cluster.step system action).1.toList ++ wins) := by
  cases action with
  | handleFailover r view =>
    obtain ⟨asked', kept⟩ := inv.handleFailover r view fun requested => by
      rw [orderly, requested, bne_self_eq_false, Bool.false_or, decide_eq_true_eq] at fine
      exact fine
    exact ⟨votes, asked', kept⟩
  | deliver i view =>
    rw [Cluster.step]
    cases there : system.network[i]? with
    | none => exact ⟨votes, asked, inv⟩
    | some msg =>
      rw [orderly, there, Option.all_some, awaited] at fine
      cases receiver : msg.receiver with
      | master j =>
        have listed : msg ∈ system.network := mem_of_getElem? there
        obtain ⟨votes', kept⟩ :=
          (inv.arrive there).processMaster receiver (inv.requests msg listed) view
        exact ⟨votes', asked, kept⟩
      | replica r =>
        rw [receiver] at fine
        refine ⟨votes, asked, inv.processReplica there receiver (fun ack => ?_) view⟩
        dsimp only at fine
        rw [ack, bne_self_eq_false, Bool.false_or] at fine
        exact fine
  | ping sender receiver =>
    refine ⟨votes, asked, inv.send ?_ ?_⟩
    · exact acksFor_others (forall_mem_singleton.mpr fun never => by cases never)
    · exact forall_mem_singleton.mpr fun never => by cases never
  | saveConfig name =>
    cases name with
    | master i =>
      obtain ⟨saved, behind, reached⟩ := inv.voters i
      refine ⟨votes, asked, inv.setVoter ⟨rfl, ?_, Nat.le_refl _⟩ (Nat.le_refl _)⟩
      change (system.voters i).lastVoteEpoch ≤ (system.voters i).currentEpoch
      omega
    | replica r =>
      have sound := inv.replicas r
      obtain ⟨known, reached⟩ := sound.saved
      exact ⟨votes, asked, inv.setReplica
        ⟨⟨Nat.le_trans known reached, Nat.le_refl _⟩, sound.waiting, sound.idle⟩
        fun _ => Nat.le_refl _⟩
  | restart name =>
    -- A restart goes back to what was saved, and every vote was.
    cases name with
    | master i =>
      obtain ⟨saved, behind, reached⟩ := inv.voters i
      exact ⟨votes, asked, inv.setVoter ⟨rfl, behind, Nat.le_refl _⟩ (Nat.le_of_eq saved)⟩
    | replica r =>
      obtain ⟨known, reached⟩ := (inv.replicas r).saved
      refine ⟨votes, asked, inv.setReplica ⟨⟨known, Nat.le_refl _⟩, ?_, fun _ => rfl⟩ fun epoch => ?_⟩
      · intro never
        cases never
      · exact (if_neg (fun both => by cases both.1)).trans_le (Nat.zero_le _)

theorem Inv.run (actions : List (Action size)) {system : System size}
    {votes : List (Vote (Fin size) Nat)} {asked : Nat → Nat} {wins : List Win}
    (inv : Inv system votes asked wins) (orderly : OrderlyRun system actions) :
    ∃ votes' asked' wins', Inv (run system actions).2 votes' asked' wins' ∧
      ∀ win, win ∈ (Cluster.run system actions).1 ∨ win ∈ wins → win ∈ wins' := by
  induction actions generalizing system votes asked wins with
  | nil => exact ⟨votes, asked, wins, inv, fun win either => either.resolve_left not_mem_nil⟩
  | cons action actions ih =>
    obtain ⟨votes', asked', kept⟩ := inv.step action orderly.1
    obtain ⟨votes'', asked'', wins'', final, all⟩ := ih kept orderly.2
    refine ⟨votes'', asked'', wins'', final, ?_⟩
    intro win either
    apply all
    rw [mem_append]
    rcases either with new | old
    · rcases mem_append.mp new with first | later
      · exact .inr (.inl first)
      · exact .inl later
    · exact .inr (.inr old)

end Runs

section Schedules

end Schedules

end LearningNotes.Cluster
