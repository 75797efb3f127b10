import LearningNotes.Lib.Quorum
import LearningNotes.Sentinel.Basic

/-! Elections among Sentinels are safe as long as no epoch passes during one, and not in general. -/

namespace LearningNotes.Sentinel

open Lib List

variable {size : Nat} {M : Type}

abbrev Votes (size : Nat) := List (Vote (Fin size) (Fin size))

/-- What a Sentinel keeps agrees with the votes cast. -/
structure Sound (votes : Votes size) (me : Fin size) (master : Master size) : Prop where
  own : ∀ candidate, master.leader = some candidate →
    (me, candidate, master.leaderEpoch) ∈ votes
  last : ∀ candidate epoch, (me, candidate, epoch) ∈ votes → epoch ≤ master.leaderEpoch
  peers : ∀ peer candidate, (master.sentinels peer).leader = some candidate →
    (peer, candidate, (master.sentinels peer).leaderEpoch) ∈ votes
  -- A failover that is not forced is behind its election only with a majority.
  leading : master.forceFailover = false → master.failoverState ≠ .none →
    master.failoverState ≠ .waitStart → size / 2 + 1 ≤ support votes me master.failoverEpoch

/-- At most one vote was added, by this Sentinel. -/
def Grown (me : Fin size) (votes after : Votes size) : Prop :=
  after = votes ∨ ∃ candidate epoch, after = (me, candidate, epoch) :: votes

section Local

variable {votes after : Votes size} {me other : Fin size} {master changed : Master size}
  {currentEpoch epoch : Nat}

theorem Grown.mem (grown : Grown me votes after) {vote : Vote (Fin size) (Fin size)}
    (cast_ : vote ∈ votes) : vote ∈ after := by
  rcases grown with rfl | ⟨candidate, epoch, rfl⟩
  · exact cast_
  · exact mem_cons_of_mem _ cast_

theorem Grown.support_le (grown : Grown me votes after) (candidate : Fin size) (epoch : Nat) :
    support votes candidate epoch ≤ support after candidate epoch := by
  rcases grown with rfl | ⟨_, _, rfl⟩
  · exact Nat.le_refl _
  · exact support_le_cons _ _ _ _

theorem Sound.grow (sound : Sound votes other master) (grown : Grown me votes after)
    (apart : other ≠ me) : Sound after other master where
  own := fun candidate voted => grown.mem (sound.own candidate voted)
  last := by
    intro candidate epoch cast_
    -- The new vote is not by this Sentinel.
    rcases grown with rfl | ⟨_, _, rfl⟩
    · exact sound.last candidate epoch cast_
    · rcases mem_cons.mp cast_ with same | old
      · exact absurd (Prod.mk.inj same).1 apart
      · exact sound.last candidate epoch old
  peers := fun peer candidate voted => grown.mem (sound.peers peer candidate voted)
  leading := fun free some begun =>
    Nat.le_trans (sound.leading free some begun) (grown.support_le _ _)

theorem Sound.change (sound : Sound votes me master)
    (leading : changed.forceFailover = false → changed.failoverState ≠ .none →
      changed.failoverState ≠ .waitStart → size / 2 + 1 ≤ support votes me changed.failoverEpoch)
    (leader : changed.leader = master.leader ∨ changed.leader = none := by exact .inl rfl)
    (peers : ∀ peer, changed.sentinels peer = master.sentinels peer ∨
      (changed.sentinels peer).leader = none := by exact fun _ => .inl rfl)
    (epoch : changed.leaderEpoch = master.leaderEpoch := by rfl) :
    Sound votes me changed where
  own := by
    intro candidate voted
    rcases leader with same | forgotten
    · rw [epoch]
      exact sound.own candidate (same ▸ voted)
    · rw [forgotten] at voted
      cases voted
  last := by
    rw [epoch]
    exact sound.last
  peers := by
    intro peer candidate voted
    rcases peers peer with same | forgotten
    · rw [same] at voted ⊢
      exact sound.peers peer candidate voted
    · rw [forgotten] at voted
      cases voted
  leading := leading

variable (currentEpoch epoch) in
theorem sentinelVoteLeader_sound (sound : Sound votes me master) (single : SingleVotes votes)
    (candidate : Fin size) :
    ∃ after, Grown me votes after ∧ SingleVotes after ∧
      Sound after me (sentinelVoteLeader currentEpoch master epoch candidate).2 := by
  rw [sentinelVoteLeader]
  have reached : epoch ≤ if epoch > currentEpoch then epoch else currentEpoch := by
    split
    · exact Nat.le_refl epoch
    · omega
  generalize (if epoch > currentEpoch then epoch else currentEpoch) = raised at reached ⊢
  split
  · rename_i may
    -- This Sentinel has voted in earlier epochs only.
    have new : ∀ other, (me, other, raised) ∉ votes := by
      intro other cast_
      have bound := sound.last other raised cast_
      omega
    refine ⟨(me, candidate, raised) :: votes, .inr ⟨_, _, rfl⟩, ?_, ?_⟩
    · refine nodup_cons.mpr ⟨fun listed => ?_, single⟩
      obtain ⟨⟨voter, other, when_⟩, cast_, same⟩ := mem_map.mp listed
      obtain ⟨rfl, rfl⟩ := Prod.mk.inj same
      exact new other cast_
    exact {
      own := fun other voted => by
        cases voted
        exact mem_cons_self
      last := fun other when_ cast_ => by
        change when_ ≤ raised
        rcases mem_cons.mp cast_ with same | old
        · cases same
          exact Nat.le_refl raised
        · have bound := sound.last other when_ old
          omega
      peers := fun peer other voted => mem_cons_of_mem _ (sound.peers peer other voted)
      leading := fun free some begun =>
        Nat.le_trans (sound.leading free some begun) (support_le_cons _ _ _ _) }
  · exact ⟨votes, .inl rfl, single, sound⟩

variable (master currentEpoch epoch) in
theorem sentinelVoteLeader_frame (candidate : Fin size) :
    let voted := (sentinelVoteLeader currentEpoch master epoch candidate).2
    voted.forceFailover = master.forceFailover ∧ voted.failoverEpoch = master.failoverEpoch ∧
      voted.sentinels = master.sentinels := by
  rw [sentinelVoteLeader]
  generalize (if epoch > currentEpoch then epoch else currentEpoch) = raised
  split
  · exact ⟨rfl, rfl, rfl⟩
  · exact ⟨rfl, rfl, rfl⟩

theorem mostVoted_votes {counts : Fin size → Nat} {candidates : List (Fin size)}
    {best : Nat × Option (Fin size)}
    (known : ∀ winner, best.2 = some winner → best.1 = counts winner) :
    ∀ winner, (mostVoted counts candidates best).2 = some winner →
      (mostVoted counts candidates best).1 = counts winner := by
  induction candidates generalizing best with
  | nil => exact known
  | cons candidate candidates ih =>
    apply ih
    intro winner won
    by_cases more : counts candidate > best.1
    · rw [if_pos more] at won ⊢
      cases won
      rfl
    · rw [if_neg more] at won ⊢
      exact known winner won

theorem countMyVote_supported (sound : Sound votes me master) {best : Nat × Option (Fin size)}
    (known : ∀ winner, best.2 = some winner →
      best.1 = (votersFor me master epoch winner).length)
    {winner : Fin size}
    (won : (countMyVote (fun other => (votersFor me master epoch other).length) master epoch
      best).2 = some winner) :
    (countMyVote (fun other => (votersFor me master epoch other).length) master epoch best).1 ≤
      support votes winner epoch := by
  -- The counted peers are different Sentinels, and they did vote for the winner.
  have distinct : (votersFor me master epoch winner).Nodup :=
    ((nodup_finRange size).filter _).filter _
  have voted : ∀ peer ∈ votersFor me master epoch winner, (peer, winner, epoch) ∈ votes := by
    intro peer listed
    obtain ⟨leader, when_⟩ := of_decide_eq_true (mem_filter.mp listed).2
    exact when_ ▸ sound.peers peer winner leader
  have counted := length_le_support distinct voted
  rw [countMyVote] at won ⊢
  cases mine : master.leader with
  | none =>
    rw [mine] at won
    rw [known winner won]
    exact counted
  | some myvote =>
    rw [mine] at won
    dsimp only at won known ⊢
    split at won
    · rename_i counts
      rw [if_pos counts]
      cases won
      -- The own vote comes on top of the others.
      have fresh : me ∉ votersFor me master epoch winner := by
        intro listed
        have other := (mem_filter.mp (mem_filter.mp listed).1).2
        simp at other
      have listed : (me :: votersFor me master epoch winner).Nodup :=
        nodup_cons.mpr ⟨fresh, distinct⟩
      refine length_le_support listed ?_
      exact forall_mem_cons.mpr ⟨counts.1 ▸ sound.own winner mine, voted⟩
    · rename_i less
      rw [if_neg less, known winner won]
      exact counted

theorem length_others (me : Fin size) : (others me).length + 1 = size := by
  have member : me ∈ List.finRange size := mem_finRange me
  have erased : others me = (List.finRange size).erase me := by
    rw [(nodup_finRange size).erase_eq_filter, others]
    simp [bne, BEq.beq]
  rw [erased, length_erase_of_mem member, length_finRange]
  have some : 0 < size := Nat.lt_of_le_of_lt (Nat.zero_le _) me.isLt
  omega

variable (currentEpoch epoch) in
theorem sentinelGetLeader_sound (sound : Sound votes me master) (single : SingleVotes votes)
    (order : List (Fin size)) :
    ∃ after, Grown me votes after ∧ SingleVotes after ∧
      Sound after me (sentinelGetLeader me currentEpoch master epoch order).2.2 ∧
      (currentEpoch = epoch → ∀ winner,
        (sentinelGetLeader me currentEpoch master epoch order).1 = some winner →
          size / 2 + 1 ≤ support after winner epoch) := by
  rw [sentinelGetLeader]
  dsimp only
  generalize shape : mostVoted (fun candidate => (votersFor me master currentEpoch candidate).length)
    (order ++ List.finRange size) (0, none) = best
  obtain ⟨after, grown, single, sound⟩ := sentinelVoteLeader_sound currentEpoch
    epoch sound single (best.2.getD me)
  refine ⟨after, grown, single, sound, ?_⟩
  intro same winner won
  have known : ∀ winner, best.2 = some winner →
      best.1 = (votersFor me master currentEpoch winner).length := by
    rw [← shape]
    exact mostVoted_votes fun _ none => by cases none
  have peers := (sentinelVoteLeader_frame master currentEpoch epoch (best.2.getD me)).2.2
  -- The vote of this Sentinel does not change what it knows about the others.
  have unchanged : ∀ candidate, votersFor me master currentEpoch candidate =
      votersFor me (sentinelVoteLeader currentEpoch master epoch (best.2.getD me)).2 epoch
        candidate := by
    intro candidate
    rw [votersFor, votersFor, peers, same]
  simp only [unchanged] at known won
  split at won
  · cases won
  · rename_i enough
    have bound := countMyVote_supported sound known won
    rw [length_others] at enough
    omega

theorem sentinelGetLeader_frame (me : Fin size) (currentEpoch : Nat) (master : Master size)
    (epoch : Nat) (order : List (Fin size)) :
    let counted := (sentinelGetLeader me currentEpoch master epoch order).2.2
    counted.forceFailover = master.forceFailover ∧
      counted.failoverEpoch = master.failoverEpoch := by
  obtain ⟨force, failover, _⟩ := sentinelVoteLeader_frame master currentEpoch epoch
    ((mostVoted (fun candidate => (votersFor me master currentEpoch candidate).length)
      (order ++ List.finRange size) (0, none)).2.getD me)
  exact ⟨force, failover⟩

theorem sentinelFailoverWaitStart_sound (sound : Sound votes me master)
    (single : SingleVotes votes) (view : TimerView size)
    (timely : master.forceFailover = false → currentEpoch = master.failoverEpoch) :
    let result := sentinelFailoverWaitStart me view currentEpoch master
    ∃ after, Grown me votes after ∧ SingleVotes after ∧ Sound after me result.2.2 ∧
      (result.1 = true → result.2.2.forceFailover = false →
        size / 2 + 1 ≤ support after me result.2.2.failoverEpoch) := by
  have frame := sentinelGetLeader_frame me currentEpoch master master.failoverEpoch view.order
  obtain ⟨after, grown, single, sound, elected⟩ := sentinelGetLeader_sound
    currentEpoch master.failoverEpoch sound single view.order
  rw [sentinelFailoverWaitStart]
  generalize sentinelGetLeader me currentEpoch master master.failoverEpoch view.order = result at *
  obtain ⟨leader, raised, voted⟩ := result
  obtain ⟨force, epoch⟩ := frame
  dsimp only at sound elected force epoch ⊢
  refine ⟨after, grown, single, ?_⟩
  by_cases lost : leader ≠ some me ∧ (!voted.forceFailover) = true
  · -- No election: the failover goes on waiting, or is given up.
    rw [if_pos lost]
    refine ⟨?_, fun ended => by cases ended⟩
    split
    · exact sound.change fun _ some => absurd rfl some
    · exact sound
  · rw [if_neg lost]
    have majority : voted.forceFailover = false →
        size / 2 + 1 ≤ support after me voted.failoverEpoch := by
      intro free
      have leads : leader = some me := by simpa [free] using lost
      rw [epoch]
      exact elected (timely (force ▸ free)) me leads
    exact ⟨sound.change fun free _ _ => majority free, fun _ => majority⟩

theorem failoverProceed_sound (sound : Sound votes me master) (view : TimerView size)
    (begun : master.failoverState ≠ .waitStart) :
    Sound votes me (failoverProceed view master) := by
  have given_up : Sound votes me (sentinelAbortFailover master) :=
    sound.change fun _ some => absurd rfl some
  -- From a state behind the election, any other state may be reached.
  have goes_on : ∀ state slave, master.failoverState ≠ .none →
      Sound votes me { master with promotedSlave := slave, failoverState := state } :=
    fun state slave some => sound.change fun free _ _ => sound.leading free some begun
  rw [failoverProceed]
  cases now : master.failoverState with
  | none => exact sound
  | waitStart => exact absurd now begun
  | selectSlave =>
    cases view.selectedSlave with
    | none => exact given_up
    | some slave => exact goes_on .sendSlaveofNoone (some slave) (by simp [now])
  | sendSlaveofNoone =>
    dsimp only
    split
    · split
      · exact given_up
      · exact sound
    · split
      · exact goes_on .waitPromotion master.promotedSlave (by simp [now])
      · exact sound
  | waitPromotion =>
    dsimp only
    split
    · exact given_up
    · exact sound
  | reconfSlaves =>
    dsimp only
    split
    · exact goes_on .updateConfig master.promotedSlave (by simp [now])
    · exact sound
  | updateConfig => exact sound

/-- An election that is not forced is waited for in its own epoch. -/
def Waiting (currentEpoch : Nat) (master : Master size) : Prop :=
  master.failoverInProgress = true → master.failoverState = .waitStart →
    master.forceFailover = false → currentEpoch = master.failoverEpoch

instance (currentEpoch : Nat) (master : Master size) : Decidable (Waiting currentEpoch master) :=
  inferInstanceAs (Decidable (_ → _ → _ → _))

section Machine

variable (sound : Sound votes me master)
include sound

theorem sentinelFailoverStateMachine_sound (single : SingleVotes votes) (view : TimerView size)
    (timely : Waiting currentEpoch master) :
    let result := sentinelFailoverStateMachine me view currentEpoch master
    ∃ after, Grown me votes after ∧ SingleVotes after ∧ Sound after me result.2.2 ∧
      (result.1 = true → result.2.2.forceFailover = false →
        size / 2 + 1 ≤ support after me result.2.2.failoverEpoch) := by
  rw [sentinelFailoverStateMachine]
  split
  · exact ⟨votes, .inl rfl, single, sound, fun ended => by cases ended⟩
  rename_i busy
  split
  · rename_i waiting
    exact sentinelFailoverWaitStart_sound sound single view (timely (by simpa using busy) waiting)
  · rename_i begun
    exact ⟨votes, .inl rfl, single, failoverProceed_sound sound view begun,
      fun ended => by cases ended⟩

theorem forgetReplies_sound (view : TimerView size) :
    Sound votes me (forgetReplies view master) := by
  refine sound.change sound.leading (.inl rfl) fun peer => ?_
  rw [forgetReplies]
  dsimp only
  split
  · exact .inr rfl
  · exact .inl rfl

theorem sentinelStartFailover_sound (force : Bool) :
    Sound votes me { (sentinelStartFailover currentEpoch master).2 with forceFailover := force } :=
  sound.change fun _ _ begun => absurd rfl begun

theorem sentinelStartFailoverIfNeeded_sound (view : TimerView size)
    (timely : Waiting currentEpoch master) :
    let result := sentinelStartFailoverIfNeeded view currentEpoch master
    Sound votes me result.2.2 ∧ Waiting result.2.1 result.2.2 := by
  rw [sentinelStartFailoverIfNeeded]
  split
  · exact ⟨sound, timely⟩
  · exact ⟨sound.change fun _ _ begun => absurd rfl begun, fun _ _ _ => rfl⟩

theorem sentinelReceiveIsMasterDownReply_sound {sender : Fin size} {isdown : Bool}
    {leader : Option (Fin size)}
    (backed : ∀ candidate, leader = some candidate → (sender, candidate, epoch) ∈ votes) :
    Sound votes me (sentinelReceiveIsMasterDownReply master sender isdown leader epoch) := by
  refine { sound with peers := ?_ }
  intro peer candidate voted
  rw [sentinelReceiveIsMasterDownReply] at voted ⊢
  dsimp only at voted ⊢
  by_cases same : peer = sender
  · rw [if_pos same] at voted ⊢
    cases leader with
    | none => exact sound.peers peer candidate voted
    | some leader =>
      cases voted
      exact same ▸ backed candidate rfl
  · rw [if_neg same] at voted ⊢
    exact sound.peers peer candidate voted

theorem sentinelResetMasterAndChangeAddress_sound (addr : Nat) :
    Sound votes me (sentinelResetMasterAndChangeAddress master addr) :=
  sound.change (fun _ some => absurd rfl some) (.inr rfl)

theorem updateConfig_sound (view : MessageView) (addr configEpoch : Nat) :
    Sound votes me (updateConfig view master addr configEpoch) := by
  have renewed : Sound votes me { master with configEpoch } :=
    sound.change sound.leading
  rw [updateConfig]
  split
  · dsimp only
    split
    · exact sentinelResetMasterAndChangeAddress_sound renewed addr
    · exact renewed
  · exact sound

end Machine

end Local

section System

/-- What is logged has a majority, unless forced. -/
def Supported (votes : M → Votes size) : Event size M → Prop
  | .elected me name epoch forced =>
    forced = false → size / 2 + 1 ≤ support (votes name) me epoch
  | .promoted me name epoch forced =>
    forced = false → size / 2 + 1 ≤ support (votes name) me epoch

def Backed (votes : M → Votes size) : Msg size M → Prop
  | .reply sender _ name _ (some candidate) epoch => (sender, candidate, epoch) ∈ votes name
  | _ => True

/-- The invariant, with all votes about each master. -/
structure Inv (system : System size M) (votes : M → Votes size) (events : List (Event size M)) :
    Prop where
  single : ∀ name, SingleVotes (votes name)
  sound : ∀ me name, Sound (votes name) me ((system.sentinels me).masters name)
  replies : ∀ msg ∈ system.network, Backed votes msg
  won : ∀ event ∈ events, Supported votes event

variable {system : System size M} {votes after : M → Votes size} {events : List (Event size M)}
  {me : Fin size}

variable {msg : Msg size M} {view : TimerView size} {name : M} {currentEpoch : Nat}
    {master : Master size}

theorem Backed.grow (grown : ∀ name, Grown me (votes name) (after name)) (backed : Backed votes msg) :
    Backed after msg := by
  match msg, backed with
  | .reply _ _ name _ (some _) _, backed => exact (grown name).mem backed
  | .reply _ _ _ _ none _, _ => trivial
  | .isMasterDown .., _ => trivial
  | .hello .., _ => trivial

theorem Supported.grow (grown : ∀ name, Grown me (votes name) (after name)) {event : Event size M}
    (supported : Supported votes event) : Supported after event := by
  match event, supported with
  | .elected _ name _ _, supported =>
    exact fun free => Nat.le_trans (supported free) ((grown name).support_le _ _)
  | .promoted _ name _ _, supported =>
    exact fun free => Nat.le_trans (supported free) ((grown name).support_le _ _)

theorem Inv.send (inv : Inv system votes events) {messages : List (Msg size M)}
    (backed : ∀ msg ∈ messages, Backed votes msg) : Inv (system.send messages) votes events :=
  { inv with replies := forall_mem_append.mpr ⟨inv.replies, backed⟩ }

theorem Inv.drop (inv : Inv system votes events) (i : Nat) :
    Inv { system with network := system.network.eraseIdx i } votes events :=
  { inv with replies := fun msg listed => inv.replies msg (mem_of_mem_eraseIdx listed) }

theorem Inv.log (inv : Inv system votes events) {more : List (Event size M)}
    (supported : ∀ event ∈ more, Supported votes event) : Inv system votes (events ++ more) :=
  { inv with won := forall_mem_append.mpr ⟨inv.won, supported⟩ }

theorem requests_backed {forced : Bool} :
    ∀ msg ∈ sentinelAskMasterStateToOtherSentinels me view forced name
      currentEpoch master, Backed votes msg := by
  intro msg listed
  obtain ⟨peer, _, rfl⟩ := mem_map.mp listed
  trivial

/-- Sentinels that have just started. -/
structure Fresh (system : System size M) : Prop where
  quiet : system.network = []
  undecided : ∀ me name, ((system.sentinels me).masters name).leader = none
  idle : ∀ me name, ((system.sentinels me).masters name).failoverState = .none
  unknown : ∀ me name peer, (((system.sentinels me).masters name).sentinels peer).leader = none

theorem Fresh.inv (fresh : Fresh system) : Inv system (fun _ => []) [] where
  single := fun _ => nodup_nil
  sound := fun me name =>
    { own := fun candidate voted => by
        rw [fresh.undecided] at voted
        cases voted
      last := fun candidate epoch voted => by cases voted
      peers := fun peer candidate voted => by
        rw [fresh.unknown] at voted
        cases voted
      leading := fun _ some => absurd (fresh.idle me name) some }
  replies := by
    rw [fresh.quiet]
    exact forall_mem_nil _
  won := forall_mem_nil _

theorem Inv.unique (inv : Inv system votes events) {first second : Fin size} {epoch : Nat}
    (one : size / 2 + 1 ≤ support (votes name) first epoch)
    (two : size / 2 + 1 ≤ support (votes name) second epoch) : first = second := by
  apply @quorum_unique (Fin size) (Fin size) _ _ (votes name) (inv.single name) first second epoch
  rw [Fintype.card_fin]
  omega

variable [DecidableEq M]

section

variable (inv : Inv system votes events)
include inv

theorem Inv.update (currentEpoch : Nat) {cast_ : Votes size} (grown : Grown me (votes name) cast_)
    (single : SingleVotes cast_) (sound : Sound cast_ me master) :
    Inv (system.update me name currentEpoch master) (Function.update votes name cast_) events := by
  have all : ∀ key, Grown me (votes key) (Function.update votes name cast_ key) :=
    (Function.forall_update_iff votes fun key => Grown me (votes key)).mpr
      ⟨grown, fun _ _ => .inl rfl⟩
  exact {
    single := (Function.forall_update_iff votes fun _ => SingleVotes).mpr
      ⟨single, fun key _ => inv.single key⟩
    sound := fun other key => by
      -- The record that was changed, others of the same Sentinel, and those of other Sentinels.
      rw [System.update]
      dsimp only
      by_cases self : other = me
      · rw [if_pos self]
        dsimp only
        by_cases same : key = name
        · rw [if_pos same, same, Function.update_self, self]
          exact sound
        · rw [if_neg same, Function.update_of_ne same, self]
          exact inv.sound me key
      · rw [if_neg self]
        exact (inv.sound other key).grow (all key) self
    replies := fun msg listed => (inv.replies msg listed).grow all
    won := fun event listed => (inv.won event listed).grow all }

theorem Inv.set (sound : Sound (votes name) me master) :
    Inv (system.update me name currentEpoch master) votes events := by
  have updated := inv.update currentEpoch (.inl rfl) (inv.single name) sound
  rwa [Function.update_eq_self] at updated

/-- Votes are only counted in the epoch of the failover. -/
def Timely (system : System size M) : Action size M → Prop
  | .timer me name _ =>
    Waiting (system.sentinels me).currentEpoch ((system.sentinels me).masters name)
  | _ => True

instance (system : System size M) : (action : Action size M) → Decidable (Timely system action)
  | .timer me name _ =>
    inferInstanceAs (Decidable (Waiting (system.sentinels me).currentEpoch
      ((system.sentinels me).masters name)))
  | .failover .. | .infoMaster .. | .switch .. | .hello .. | .deliver .. | .lose .. => .isTrue trivial

theorem timer_inv (timely : Timely system (.timer me name view)) :
    ∃ after, Inv (sentinelHandleRedisInstance system me name view).2 after
      (events ++ (sentinelHandleRedisInstance system me name view).1) := by
  rw [sentinelHandleRedisInstance]
  split
  · exact ⟨votes, by simpa using inv⟩
  have checked : Sound (votes name) me (sentinelCheckObjectivelyDown me
      { (system.sentinels me).masters name with sDown := view.sDown }) :=
    (inv.sound me name).change (inv.sound me name).leading
  -- In front of the state machine, the failover is as it was, or has just started.
  obtain ⟨started, waits⟩ := sentinelStartFailoverIfNeeded_sound checked view timely
  dsimp only
  generalize sentinelStartFailoverIfNeeded view (system.sentinels me).currentEpoch
    (sentinelCheckObjectivelyDown me { (system.sentinels me).masters name with sDown := view.sDown })
    = start at started waits ⊢
  obtain ⟨fresh, currentEpoch, master⟩ := start
  have asked : Sound (votes name) me (if fresh = true then forgetReplies view master else master) ∧
      Waiting currentEpoch (if fresh = true then forgetReplies view master else master) := by
    split
    · exact ⟨forgetReplies_sound started view, waits⟩
    · exact ⟨started, waits⟩
  generalize (if fresh = true then forgetReplies view master else master) = ready at asked ⊢
  -- The state machine may cast a vote and end the election.
  obtain ⟨cast_, grown, single, sound, elected⟩ :=
    sentinelFailoverStateMachine_sound asked.1 (inv.single name) view asked.2
  generalize sentinelFailoverStateMachine me view currentEpoch ready = result at sound elected ⊢
  obtain ⟨ended, raised, changed⟩ := result
  have updated := inv.update raised grown single (forgetReplies_sound sound view)
  refine ⟨_, (updated.send ?_).log ?_⟩
  · refine forall_mem_append.mpr ⟨?_, requests_backed⟩
    split
    · exact requests_backed
    · exact forall_mem_nil _
  · split
    · rename_i won
      refine forall_mem_singleton.mpr ?_
      change _ → _ ≤ support (Function.update votes name cast_ name) _ _
      rw [Function.update_self]
      exact elected won
    · exact forall_mem_nil _

theorem isMasterDownByAddr_inv (view : MessageView)
    (sender receiver : Fin size) (name : M) (addr epoch : Nat) (runid : Option (Fin size)) :
    ∃ after, Inv (isMasterDownByAddr system view sender receiver name addr epoch runid) after
      events := by
  -- A reply without a vote says nothing.
  have silent : ∀ isdown, Inv (system.send [.reply receiver sender name isdown none 0]) votes
      events := fun _ => inv.send (forall_mem_singleton.mpr trivial)
  rw [isMasterDownByAddr]
  split
  · exact ⟨votes, inv⟩
  split
  · exact ⟨votes, silent false⟩
  cases runid with
  | none => exact ⟨votes, silent _⟩
  | some runid =>
    obtain ⟨cast_, grown, single, sound⟩ := sentinelVoteLeader_sound
      (system.sentinels receiver).currentEpoch epoch
      (inv.sound receiver name) (inv.single name) runid
    dsimp only
    generalize sentinelVoteLeader _ _ epoch runid = result at sound ⊢
    obtain ⟨raised, changed⟩ := result
    refine ⟨_, (inv.update raised grown single sound).send (forall_mem_singleton.mpr ?_)⟩
    cases vote : changed.leader with
    | none => trivial
    | some candidate =>
      change (receiver, candidate, changed.leaderEpoch) ∈ Function.update votes name cast_ name
      rw [Function.update_self]
      exact sound.own candidate vote

theorem receive_inv (view : MessageView) (backed : Backed votes msg) :
    ∃ after, Inv (receive system view msg) after events := by
  cases msg with
  | isMasterDown sender receiver name addr epoch runid =>
    exact isMasterDownByAddr_inv inv view sender receiver name addr epoch runid
  | reply sender receiver name isdown leader epoch =>
    refine ⟨votes, inv.set (sentinelReceiveIsMasterDownReply_sound (inv.sound receiver name) ?_)⟩
    intro candidate voted
    rw [voted] at backed
    exact backed
  | hello receiver epoch name addr configEpoch =>
    exact ⟨votes, inv.set (updateConfig_sound (inv.sound receiver name) view addr configEpoch)⟩

theorem step_inv {action : Action size M} (timely : Timely system action) :
    ∃ after, Inv (step system action).2 after (events ++ (step system action).1) := by
  cases action with
  | timer me name view => exact timer_inv inv timely
  | failover me name selectedSlave =>
    rw [step]
    split
    · exact ⟨votes, by simpa using inv⟩
    · exact ⟨votes, by
        simpa using inv.set (sentinelStartFailover_sound (inv.sound me name) true)⟩
  | infoMaster me name =>
    rw [step]
    split
    · rename_i waiting
      -- A promotion that is not forced is behind an election.
      have leads := fun free => (inv.sound me name).leading free (by simp [waiting.2])
        (by simp [waiting.2])
      refine ⟨votes, (inv.set ?_).log (forall_mem_singleton.mpr leads)⟩
      exact (inv.sound me name).change fun free _ _ => leads free
    · exact ⟨votes, by simpa using inv⟩
  | switch me name resolved =>
    rw [step]
    split
    · exact ⟨votes, by
        simpa using inv.set (sentinelResetMasterAndChangeAddress_sound (inv.sound me name) _)⟩
    · exact ⟨votes, by simpa using inv⟩
  | hello me receiver name =>
    rw [step, append_nil]
    exact ⟨votes, inv.send (forall_mem_singleton.mpr trivial)⟩
  | deliver i view =>
    rw [step]
    cases there : system.network[i]? with
    | none => exact ⟨votes, by simpa using inv⟩
    | some msg =>
      have backed := inv.replies msg (mem_of_getElem? there)
      obtain ⟨after, kept⟩ := receive_inv (inv.drop i) view backed
      exact ⟨after, by simpa using kept⟩
  | lose i => exact ⟨votes, by simpa [step] using inv.drop i⟩

end

def TimelyRun : System size M → List (Action size M) → Prop
  | _, [] => True
  | system, action :: actions =>
    Timely system action ∧ TimelyRun (step system action).2 actions

instance decidableTimelyRun : (system : System size M) → (actions : List (Action size M)) →
    Decidable (TimelyRun system actions)
  | _, [] => .isTrue trivial
  | system, action :: actions =>
    have := decidableTimelyRun (step system action).2 actions
    inferInstanceAs (Decidable (_ ∧ _))

theorem run_inv {actions : List (Action size M)} {system : System size M} {votes : M → Votes size}
    {events : List (Event size M)} (inv : Inv system votes events)
    (timely : TimelyRun system actions) :
    ∃ after, Inv (run system actions).2 after (events ++ (run system actions).1) := by
  induction actions generalizing system votes events with
  | nil => exact ⟨votes, by simpa [run] using inv⟩
  | cons action actions ih =>
    obtain ⟨middle, stepped⟩ := step_inv inv timely.1
    obtain ⟨after, kept⟩ := ih stepped timely.2
    exact ⟨after, by simpa [run] using kept⟩

/-- Where votes are only counted in the epoch of their failover, no two Sentinels are elected, and
no two promote a replica, for the same master in the same epoch, unless they were forced to. -/
theorem elections_unique_when_timely (fresh : Fresh system) {actions : List (Action size M)}
    (timely : TimelyRun system actions) (first second : Fin size) (name : M) (epoch : Nat) :
    (.elected first name epoch false ∈ (run system actions).1 →
      .elected second name epoch false ∈ (run system actions).1 → first = second) ∧
    (.promoted first name epoch false ∈ (run system actions).1 →
      .promoted second name epoch false ∈ (run system actions).1 → first = second) := by
  obtain ⟨after, inv⟩ := run_inv fresh.inv timely
  constructor
  · intro one two
    exact inv.unique (inv.won _ one rfl) (inv.won _ two rfl)
  · intro one two
    exact inv.unique (inv.won _ one rfl) (inv.won _ two rfl)

end System

section Overtaken

def newMaster : Master 3 where
  addr := 0
  quorum := 1
  sDown := false
  oDown := false
  failoverInProgress := false
  forceFailover := false
  leader := none
  leaderEpoch := 0
  failoverEpoch := 0
  failoverState := .none
  configEpoch := 0
  promotedSlave := none
  sentinels := fun _ => ⟨false, none, 0⟩

def threeSentinels : System 3 Bool where
  sentinels := fun _ => ⟨0, fun _ => newMaster⟩
  network := []

/-- The master is down, and some Sentinels are asked in time. -/
def downView (asked : List (Fin 3)) : TimerView 3 where
  tilt := false
  sDown := true
  delayOver := true
  electionTimeout := false
  order := []
  selectedSlave := some 1
  slaveDisconnected := false
  slaveTimeout := false
  slaveofSent := true
  reconfigured := false
  expired := fun _ => false
  due := asked.contains
  connected := asked.contains

local instance three : NeZero 3 := ⟨by decide⟩

/-- Two Sentinels start a failover, and the first is elected. -/
def firstElection : List (Action 3 Bool) :=
  [.timer 0 true (downView []), .timer 1 true (downView []), .timer 0 true (downView [2]),
    .deliver 0 ⟨false, true⟩, .deliver 0 ⟨false, true⟩, .timer 0 true (downView [])]

/-- The third Sentinel fails the other master over, and votes for the second in its epoch. -/
def secondElection : List (Action 3 Bool) :=
  [.timer 2 false (downView []), .hello 2 1 false, .deliver 0 ⟨false, true⟩,
    .timer 1 true (downView [2]), .deliver 0 ⟨false, true⟩, .deliver 0 ⟨false, true⟩,
    .timer 1 true (downView [])]

def promotion (me : Fin 3) : List (Action 3 Bool) :=
  [.timer me true (downView []), .timer me true (downView []), .infoMaster me true]

theorem threeSentinels_fresh : Fresh threeSentinels :=
  ⟨rfl, fun _ _ => rfl, fun _ _ => rfl, fun _ _ _ => rfl⟩

/-- In the first election the votes are counted in time. -/
theorem first_election_unique :
    TimelyRun threeSentinels (firstElection ++ promotion 0) ∧
      .elected 0 true 1 false ∈ (run threeSentinels (firstElection ++ promotion 0)).1 ∧
      ∀ other, .elected other true 1 false ∈
        (run threeSentinels (firstElection ++ promotion 0)).1 → 0 = other := by
  have timely : TimelyRun threeSentinels (firstElection ++ promotion 0) := by decide +kernel
  have elected : .elected 0 true 1 false ∈
      (run threeSentinels (firstElection ++ promotion 0)).1 := by decide +kernel
  exact ⟨timely, elected, fun other =>
    (elections_unique_when_timely threeSentinels_fresh timely 0 other true 1).1 elected⟩

/-- A vote of a later epoch completes an earlier election: two Sentinels are elected for the same
master and epoch, and both promote a replica under it. -/
theorem overtaken_election_not_unique :
    Fresh threeSentinels ∧ ∃ actions : List (Action 3 Bool),
      .elected 0 true 1 false ∈ (run threeSentinels actions).1 ∧
      .elected 1 true 1 false ∈ (run threeSentinels actions).1 ∧
      .promoted 0 true 1 false ∈ (run threeSentinels actions).1 ∧
      .promoted 1 true 1 false ∈ (run threeSentinels actions).1 := by
  refine ⟨threeSentinels_fresh, firstElection ++ promotion 0 ++ secondElection ++ promotion 1, ?_⟩
  decide +kernel

end Overtaken

end LearningNotes.Sentinel
