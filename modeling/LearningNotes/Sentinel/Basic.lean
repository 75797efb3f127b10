import Mathlib.Tactic.Ring
import Mathlib.Data.List.FinRange

/-! Failovers by Sentinels: votes for a leader, the states of a failover, and the messages. -/

namespace LearningNotes.Sentinel

inductive FailoverState where
  | none
  | waitStart
  | selectSlave
  | sendSlaveofNoone
  | waitPromotion
  | reconfSlaves
  | updateConfig
deriving DecidableEq, Repr

/-- What a Sentinel knows about another one. -/
structure Peer (size : Nat) where
  -- `SRI_MASTER_DOWN`.
  masterDown : Bool
  leader : Option (Fin size)
  leaderEpoch : Nat

/-- A master as a Sentinel sees it; the numbers of Sentinels stand for run IDs. -/
structure Master (size : Nat) where
  -- One of the instances of this master and its replicas.
  addr : Nat
  quorum : Nat
  sDown : Bool
  oDown : Bool
  failoverInProgress : Bool
  forceFailover : Bool
  leader : Option (Fin size)
  leaderEpoch : Nat
  failoverEpoch : Nat
  failoverState : FailoverState
  configEpoch : Nat
  promotedSlave : Option Nat
  sentinels : Fin size → Peer size

section Election

variable {size : Nat}

/-- The current epoch and the master, which says who got the vote. -/
def sentinelVoteLeader (currentEpoch : Nat) (master : Master size) (reqEpoch : Nat)
    (reqRunid : Fin size) : Nat × Master size :=
  let currentEpoch := if reqEpoch > currentEpoch then reqEpoch else currentEpoch
  if master.leaderEpoch < reqEpoch ∧ currentEpoch ≤ reqEpoch then
    (currentEpoch, { master with leader := some reqRunid, leaderEpoch := currentEpoch })
  else (currentEpoch, master)

def others (me : Fin size) : List (Fin size) := (List.finRange size).filter (· ≠ me)

/-- The Sentinels whose last known vote is for a candidate in an epoch. -/
def votersFor (me : Fin size) (master : Master size) (epoch : Nat) (candidate : Fin size) :
    List (Fin size) :=
  (others me).filter fun peer =>
    (master.sentinels peer).leader = some candidate ∧ (master.sentinels peer).leaderEpoch = epoch

/-- The first candidate with the most votes. -/
def mostVoted (votes : Fin size → Nat) : List (Fin size) → Nat × Option (Fin size) →
    Nat × Option (Fin size)
  | [], best => best
  | candidate :: candidates, (maxVotes, winner) =>
    mostVoted votes candidates
      (if votes candidate > maxVotes then (votes candidate, some candidate) else (maxVotes, winner))

/-- The own vote is added to the votes of the others. -/
def countMyVote (votes : Fin size → Nat) (master : Master size) (epoch : Nat) :
    Nat × Option (Fin size) → Nat × Option (Fin size)
  | (maxVotes, winner) =>
    match master.leader with
    | some myvote =>
      if master.leaderEpoch = epoch ∧ votes myvote + 1 > maxVotes then
        (votes myvote + 1, some myvote)
      else (maxVotes, winner)
    | none => (maxVotes, winner)

/-- It may cast a vote; the counters are looked at in the given order. -/
def sentinelGetLeader (me : Fin size) (currentEpoch : Nat) (master : Master size) (epoch : Nat)
    (order : List (Fin size)) : Option (Fin size) × Nat × Master size :=
  let voters := (others me).length + 1
  -- The votes of the others count if they belong to the current epoch of this Sentinel.
  let votes := fun candidate => (votersFor me master currentEpoch candidate).length
  let best := mostVoted votes (order ++ List.finRange size) (0, none)
  let (currentEpoch, master) := sentinelVoteLeader currentEpoch master epoch (best.2.getD me)
  let (maxVotes, winner) := countMyVote votes master epoch best
  let votersQuorum := voters / 2 + 1
  (if maxVotes < votersQuorum ∨ maxVotes < master.quorum then none else winner,
    currentEpoch, master)

end Election

section Failover

variable {size : Nat}

/-- What a Sentinel reads when its timer fires. -/
structure TimerView (size : Nat) where
  tilt : Bool
  -- What `sentinelCheckSubjectivelyDown` finds.
  sDown : Bool
  -- The last attempt at a failover started long enough ago.
  delayOver : Bool
  electionTimeout : Bool
  order : List (Fin size)
  -- `sentinelSelectSlave`.
  selectedSlave : Option Nat
  slaveDisconnected : Bool
  slaveTimeout : Bool
  slaveofSent : Bool
  -- `not_reconfigured` is zero, and the promoted replica is reachable.
  reconfigured : Bool
  -- The last reply of this Sentinel is too old, is due again, and the link is there.
  expired : Fin size → Bool
  due : Fin size → Bool
  connected : Fin size → Bool

/-- `++sentinel.current_epoch`, of type `uint64_t`. -/
def nextEpoch (epoch : Nat) : Nat := (epoch + 1) % 2 ^ 64

def sentinelCheckObjectivelyDown (me : Fin size) (master : Master size) : Master size :=
  let down := ((others me).filter fun peer => (master.sentinels peer).masterDown).length
  { master with oDown := master.sDown && decide (down + 1 ≥ master.quorum) }

def sentinelStartFailover (currentEpoch : Nat) (master : Master size) : Nat × Master size :=
  (nextEpoch currentEpoch,
    { master with
      failoverState := .waitStart
      failoverInProgress := true
      failoverEpoch := nextEpoch currentEpoch })

def sentinelStartFailoverIfNeeded (view : TimerView size) (currentEpoch : Nat)
    (master : Master size) : Bool × Nat × Master size :=
  if !master.oDown || master.failoverInProgress || !view.delayOver then
    (false, currentEpoch, master)
  else (true, sentinelStartFailover currentEpoch master)

def sentinelAbortFailover (master : Master size) : Master size :=
  { master with
    failoverInProgress := false
    forceFailover := false
    failoverState := .none
    promotedSlave := none }

/-- Whether the election is over, with the new epoch and master. -/
def sentinelFailoverWaitStart (me : Fin size) (view : TimerView size) (currentEpoch : Nat)
    (master : Master size) : Bool × Nat × Master size :=
  let (leader, currentEpoch, master) :=
    sentinelGetLeader me currentEpoch master master.failoverEpoch view.order
  if leader ≠ some me ∧ !master.forceFailover then
    (false, currentEpoch, if view.electionTimeout then sentinelAbortFailover master else master)
  else (true, currentEpoch, { master with failoverState := .selectSlave })

/-- The rest of the state machine, which touches no epochs. -/
def failoverProceed (view : TimerView size) (master : Master size) : Master size :=
  match master.failoverState with
  | .selectSlave =>
    match view.selectedSlave with
    | none => sentinelAbortFailover master
    | some slave =>
      { master with promotedSlave := some slave, failoverState := .sendSlaveofNoone }
  | .sendSlaveofNoone =>
    if view.slaveDisconnected then
      if view.slaveTimeout then sentinelAbortFailover master else master
    else if view.slaveofSent then { master with failoverState := .waitPromotion }
    else master
  | .waitPromotion => if view.slaveTimeout then sentinelAbortFailover master else master
  | .reconfSlaves =>
    if view.reconfigured then { master with failoverState := .updateConfig } else master
  | _ => master

def sentinelFailoverStateMachine (me : Fin size) (view : TimerView size) (currentEpoch : Nat)
    (master : Master size) : Bool × Nat × Master size :=
  if !master.failoverInProgress then (false, currentEpoch, master)
  else if master.failoverState = .waitStart then
    sentinelFailoverWaitStart me view currentEpoch master
  else (false, currentEpoch, failoverProceed view master)

/-- The Sentinels and the epochs are kept. -/
def sentinelResetMasterAndChangeAddress (master : Master size) (addr : Nat) : Master size :=
  { master with
    addr
    sDown := false
    oDown := false
    failoverInProgress := false
    forceFailover := false
    leader := none
    failoverState := .none
    promotedSlave := none }

end Failover

section System

variable {size : Nat} {M : Type} [DecidableEq M]

/-- The messages between Sentinels; an address belongs to one master. -/
inductive Msg (size : Nat) (M : Type) where
  -- No run ID stands for `*`: no vote is asked for.
  | isMasterDown (sender receiver : Fin size) (name : M) (addr : Nat) (epoch : Nat)
      (runid : Option (Fin size))
  | reply (sender receiver : Fin size) (name : M) (isdown : Bool) (leader : Option (Fin size))
      (epoch : Nat)
  | hello (receiver : Fin size) (epoch : Nat) (name : M) (addr : Nat) (configEpoch : Nat)

/-- `sentinelState`: a Sentinel process. -/
structure SentinelState (size : Nat) (M : Type) where
  currentEpoch : Nat
  masters : M → Master size

structure System (size : Nat) (M : Type) where
  sentinels : Fin size → SentinelState size M
  network : List (Msg size M)

inductive Event (size : Nat) (M : Type) where
  -- `+elected-leader`, with the epoch of the failover and whether it was forced.
  | elected (sentinel : Fin size) (name : M) (epoch : Nat) (forced : Bool)
  -- `+promoted-slave`, with the new configuration epoch.
  | promoted (sentinel : Fin size) (name : M) (epoch : Nat) (forced : Bool)
deriving DecidableEq

/-- Old replies are forgotten. -/
def forgetReplies (view : TimerView size) (master : Master size) : Master size :=
  { master with
    sentinels := fun peer =>
      if view.expired peer then
        { master.sentinels peer with masterDown := false, leader := none }
      else master.sentinels peer }

/-- The requests that are sent. -/
def sentinelAskMasterStateToOtherSentinels (me : Fin size) (view : TimerView size) (forced : Bool)
    (name : M) (currentEpoch : Nat) (master : Master size) : List (Msg size M) :=
  ((others me).filter fun peer =>
    master.sDown && view.connected peer && (forced || view.due peer)).map fun peer =>
      .isMasterDown me peer name master.addr currentEpoch
        (if master.failoverState ≠ .none then some me else none)

/-- Replace the epoch and one master of a Sentinel. -/
def System.update (system : System size M) (me : Fin size) (name : M) (currentEpoch : Nat)
    (master : Master size) : System size M :=
  { system with
    sentinels := fun other =>
      if other = me then
        { currentEpoch
          masters := fun key =>
            if key = name then master else (system.sentinels me).masters key }
      else system.sentinels other }

def System.send (system : System size M) (messages : List (Msg size M)) : System size M :=
  { system with network := system.network ++ messages }

def sentinelHandleRedisInstance (system : System size M) (me : Fin size) (name : M)
    (view : TimerView size) : List (Event size M) × System size M :=
  if view.tilt then ([], system)
  else
    let node := system.sentinels me
    let master := sentinelCheckObjectivelyDown me { node.masters name with sDown := view.sDown }
    let (started, currentEpoch, master) :=
      sentinelStartFailoverIfNeeded view node.currentEpoch master
    let master := if started then forgetReplies view master else master
    let requests :=
      if started then sentinelAskMasterStateToOtherSentinels me view true name currentEpoch master
      else []
    let (ended, currentEpoch, master) := sentinelFailoverStateMachine me view currentEpoch master
    let events := if ended then [.elected me name master.failoverEpoch master.forceFailover] else []
    let master := forgetReplies view master
    let requests := requests ++
      sentinelAskMasterStateToOtherSentinels me view false name currentEpoch master
    (events, (system.update me name currentEpoch master).send requests)

/-- What a Sentinel reads when a message arrives. -/
structure MessageView where
  tilt : Bool
  -- Whether an address can be resolved.
  resolved : Bool

def isMasterDownByAddr (system : System size M) (view : MessageView) (sender receiver : Fin size)
    (name : M) (addr epoch : Nat) (runid : Option (Fin size)) : System size M :=
  let node := system.sentinels receiver
  let master := node.masters name
  -- The epoch has to be a `long long`.
  if epoch ≥ 2 ^ 63 then system
  else if master.addr ≠ addr then
    system.send [.reply receiver sender name false none 0]
  else
    let isdown := !view.tilt && master.sDown
    match runid with
    | none => system.send [.reply receiver sender name isdown none 0]
    | some runid =>
      let (currentEpoch, master) := sentinelVoteLeader node.currentEpoch master epoch runid
      (system.update receiver name currentEpoch master).send
        [.reply receiver sender name isdown master.leader master.leaderEpoch]

def sentinelReceiveIsMasterDownReply (master : Master size) (sender : Fin size) (isdown : Bool)
    (leader : Option (Fin size)) (epoch : Nat) : Master size :=
  { master with
    sentinels := fun peer =>
      if peer = sender then
        match leader with
        | none => { master.sentinels peer with masterDown := isdown }
        | some leader => { masterDown := isdown, leader := some leader, leaderEpoch := epoch }
      else master.sentinels peer }

/-- What a newer configuration changes. -/
def updateConfig (view : MessageView) (master : Master size) (addr configEpoch : Nat) :
    Master size :=
  if master.configEpoch < configEpoch then
    let master := { master with configEpoch }
    if addr ≠ master.addr ∧ view.resolved then sentinelResetMasterAndChangeAddress master addr
    else master
  else master

def receive (system : System size M) (view : MessageView) : Msg size M → System size M
  | .isMasterDown sender receiver name addr epoch runid =>
    isMasterDownByAddr system view sender receiver name addr epoch runid
  | .reply sender receiver name isdown leader epoch =>
    let node := system.sentinels receiver
    system.update receiver name node.currentEpoch
      (sentinelReceiveIsMasterDownReply (node.masters name) sender isdown leader epoch)
  | .hello receiver epoch name addr configEpoch =>
    let node := system.sentinels receiver
    -- `sentinelProcessHelloMessage`, for a Sentinel that is known.
    let currentEpoch := if epoch > node.currentEpoch then epoch else node.currentEpoch
    system.update receiver name currentEpoch
      (updateConfig view (node.masters name) addr configEpoch)

inductive Action (size : Nat) (M : Type) where
  | timer (me : Fin size) (name : M) (view : TimerView size)
  -- `SENTINEL FAILOVER`, with the replica that would be promoted.
  | failover (me : Fin size) (name : M) (selectedSlave : Option Nat)
  -- The replica that was told to says that it is a master.
  | infoMaster (me : Fin size) (name : M)
  -- `sentinelFailoverSwitchToPromotedSlave`.
  | switch (me : Fin size) (name : M) (resolved : Bool)
  | hello (me receiver : Fin size) (name : M)
  -- The message at this position of the network arrives, or is lost.
  | deliver (i : Nat) (view : MessageView)
  | lose (i : Nat)

def step (system : System size M) : Action size M → List (Event size M) × System size M
  | .timer me name view => sentinelHandleRedisInstance system me name view
  | .failover me name selectedSlave =>
    let node := system.sentinels me
    if (node.masters name).failoverInProgress || selectedSlave.isNone then ([], system)
    else
      let (currentEpoch, master) := sentinelStartFailover node.currentEpoch (node.masters name)
      ([], system.update me name currentEpoch { master with forceFailover := true })
  | .infoMaster me name =>
    let node := system.sentinels me
    let master := node.masters name
    if master.failoverInProgress ∧ master.failoverState = .waitPromotion then
      ([.promoted me name master.failoverEpoch master.forceFailover],
        system.update me name node.currentEpoch
          { master with configEpoch := master.failoverEpoch, failoverState := .reconfSlaves })
    else ([], system)
  | .switch me name resolved =>
    let node := system.sentinels me
    let master := node.masters name
    if master.failoverState = .updateConfig ∧ resolved then
      ([], system.update me name node.currentEpoch
        (sentinelResetMasterAndChangeAddress master (master.promotedSlave.getD master.addr)))
    else ([], system)
  | .hello me receiver name =>
    let node := system.sentinels me
    let master := node.masters name
    ([], system.send
      [.hello receiver node.currentEpoch name
        -- `sentinelGetCurrentMasterAddress`: the promoted replica, once it is a master.
        (if master.failoverInProgress ∧ (master.failoverState = .reconfSlaves ∨
            master.failoverState = .updateConfig) then master.promotedSlave.getD master.addr
          else master.addr)
        master.configEpoch])
  | .deliver i view =>
    match system.network[i]? with
    | none => ([], system)
    | some msg => ([], receive { system with network := system.network.eraseIdx i } view msg)
  | .lose i => ([], { system with network := system.network.eraseIdx i })

def run : System size M → List (Action size M) → List (Event size M) × System size M
  | system, [] => ([], system)
  | system, action :: actions =>
    let (events, system) := step system action
    let (later, system) := run system actions
    (events ++ later, system)

end System

end LearningNotes.Sentinel
