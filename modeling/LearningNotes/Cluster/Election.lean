import Mathlib.Tactic.Ring

/-! The election of a replica to replace its master: requests, votes, and the quorum test. -/

namespace LearningNotes.Cluster

/-- `uint64_t` epochs wrap around. -/
def nextEpoch (epoch : Nat) : Nat := (epoch + 1) % 2 ^ 64

/-- The masters that serve slots, as every node knows them, and the replicas. -/
inductive Name (size : Nat) where
  | master (i : Fin size)
  | replica (r : Nat)
deriving DecidableEq

/-- The types of messages that matter; any other only carries epochs, like a ping. -/
inductive MsgType where
  | ping
  | failoverAuthRequest
  | failoverAuthAck
deriving DecidableEq

/-- `clusterMsg`: the header of a message to a node. -/
structure Msg (size : Nat) where
  receiver : Name size
  sender : Name size
  type : MsgType
  currentEpoch : Nat
  configEpoch : Nat
  -- The slots whose bits are set in `myslots`.
  myslots : List Nat
  -- `CLUSTERMSG_FLAG0_FORCEACK`.
  forceAck : Bool

section Voting

/-- What a master keeps about elections, and its configuration file. -/
structure Voter where
  currentEpoch : Nat
  lastVoteEpoch : Nat
  -- `voted_time` of each master, by its number.
  votedTime : Nat → Int
  savedCurrentEpoch : Nat
  savedLastVoteEpoch : Nat

/-- What a voter knows about a node that asks for its vote. -/
structure VoteView where
  mstime : Int
  clusterNodeTimeout : Int
  nodeIsMaster : Bool
  -- The number of its master, and whether that is flagged as failed.
  slaveof : Option (Nat × Bool)
  -- The `configEpoch` of the owner of a slot.
  slotEpoch : Nat → Option Nat

def claimsNewerSlot (view : VoteView) (myslots : List Nat) (requestConfigEpoch : Nat) : Bool :=
  myslots.any fun slot =>
    match view.slotEpoch slot with
    | none => false
    | some epoch => decide (requestConfigEpoch < epoch)

/-- Whether the vote is granted, which is saved at once. -/
def clusterSendFailoverAuthIfNeeded {size : Nat} (view : VoteView) (voter : Voter)
    (request : Msg size) : Bool × Voter :=
  if request.currentEpoch < voter.currentEpoch then (false, voter)
  else if voter.lastVoteEpoch = voter.currentEpoch then (false, voter)
  else
    match view.slaveof with
    | none => (false, voter)
    | some (master, failed) =>
      if view.nodeIsMaster ∨ (!failed ∧ !request.forceAck) then (false, voter)
      else if view.mstime - voter.votedTime master < view.clusterNodeTimeout * 2 then (false, voter)
      else if claimsNewerSlot view request.myslots request.configEpoch then (false, voter)
      else
        (true, { voter with
          lastVoteEpoch := voter.currentEpoch
          votedTime := fun other => if other = master then view.mstime else voter.votedTime other
          savedCurrentEpoch := voter.currentEpoch
          savedLastVoteEpoch := voter.currentEpoch })

def Voter.restart (voter : Voter) : Voter :=
  { voter with
    currentEpoch := voter.savedCurrentEpoch
    lastVoteEpoch := voter.savedLastVoteEpoch
    votedTime := fun _ => 0 }

end Voting

section Failover

/-- What a replica keeps about elections, and its configuration file. -/
structure Replica where
  currentEpoch : Nat
  configEpoch : Nat
  -- Whether it has become a master.
  isMaster : Bool
  failoverAuthTime : Int
  failoverAuthCount : Nat
  failoverAuthSent : Bool
  failoverAuthRank : Int
  failoverAuthEpoch : Nat
  savedCurrentEpoch : Nat

structure FailoverView (size : Nat) where
  mstime : Int
  clusterNodeTimeout : Int
  clusterSlaveNoFailover : Bool
  clusterSlaveValidityFactor : Int
  replPingSlavePeriod : Int
  -- For how long the link to the master is down, in milliseconds.
  dataAge : Int
  -- Whether the master is flagged as failed, and the number of its slots.
  slaveof : Option (Bool × Nat)
  masterConfigEpoch : Nat
  masterSlots : List Nat
  -- Whether `mf_end` is not zero.
  mfEnd : Bool
  mfCanStart : Bool
  slaveRank : Int
  random : Nat
  -- The nodes with a link.
  links : List (Name size)

/-- What `clusterHandleSlaveFailover` does for others to see. -/
inductive Outcome where
  | none
  | requested
  | won
deriving DecidableEq

variable {size : Nat}

def FailoverView.manualFailover (view : FailoverView size) : Bool := view.mfEnd && view.mfCanStart

def FailoverView.preconditions (view : FailoverView size) : Bool :=
  match view.slaveof with
  | none => false
  | some (failed, numslots) =>
    !(!failed && !view.manualFailover) &&
      !(view.clusterSlaveNoFailover && !view.manualFailover) && numslots != 0

def FailoverView.tooOld (view : FailoverView size) : Bool :=
  let dataAge :=
    if view.dataAge > view.clusterNodeTimeout then view.dataAge - view.clusterNodeTimeout
    else view.dataAge
  view.clusterSlaveValidityFactor != 0 &&
    decide (dataAge > view.replPingSlavePeriod * 1000 +
      view.clusterNodeTimeout * view.clusterSlaveValidityFactor) &&
    !view.manualFailover

def FailoverView.authTimeout (view : FailoverView size) : Int :=
  if view.clusterNodeTimeout * 2 < 2000 then 2000 else view.clusterNodeTimeout * 2

def scheduleElection (view : FailoverView size) (node : Replica) : Replica :=
  { node with
    failoverAuthCount := 0
    failoverAuthSent := false
    failoverAuthRank := if view.mfEnd then 0 else view.slaveRank
    failoverAuthTime :=
      if view.mfEnd then view.mstime
      else view.mstime + 500 + (view.random % 500 : Nat) + view.slaveRank * 1000 }

def delayElection (view : FailoverView size) (node : Replica) : Replica :=
  if !node.failoverAuthSent && !view.mfEnd && decide (view.slaveRank > node.failoverAuthRank) then
    { node with
      failoverAuthTime := node.failoverAuthTime + (view.slaveRank - node.failoverAuthRank) * 1000
      failoverAuthRank := view.slaveRank }
  else node

/-- Ask for votes in the next epoch, which is saved before. -/
def startElection (node : Replica) : Replica :=
  { node with
    currentEpoch := nextEpoch node.currentEpoch
    failoverAuthEpoch := nextEpoch node.currentEpoch
    failoverAuthSent := true
    savedCurrentEpoch := nextEpoch node.currentEpoch }

def winElection (node : Replica) : Replica :=
  { node with
    configEpoch :=
      if node.configEpoch < node.failoverAuthEpoch then node.failoverAuthEpoch else node.configEpoch
    isMaster := true
    savedCurrentEpoch := node.currentEpoch }

def clusterHandleSlaveFailover (view : FailoverView size) (node : Replica) : Outcome × Replica :=
  let authAge := view.mstime - node.failoverAuthTime
  let neededQuorum := size / 2 + 1
  if node.isMaster || !view.preconditions then (.none, node)
  else if view.tooOld then (.none, node)
  else if authAge > view.authTimeout * 2 then (.none, scheduleElection view node)
  else
    let node := delayElection view node
    if view.mstime < node.failoverAuthTime then (.none, node)
    else if authAge > view.authTimeout then (.none, node)
    else if !node.failoverAuthSent then (.requested, startElection node)
    else if node.failoverAuthCount ≥ neededQuorum then (.won, winElection node)
    else (.none, node)

/-- `clusterProcessPacket` for a vote, from a master that serves slots. -/
def receiveAck (senderCurrentEpoch : Nat) (node : Replica) : Replica :=
  if senderCurrentEpoch ≥ node.failoverAuthEpoch then
    { node with failoverAuthCount := node.failoverAuthCount + 1 }
  else node

def Replica.restart (node : Replica) : Replica :=
  { node with
    currentEpoch := node.savedCurrentEpoch
    failoverAuthTime := 0
    failoverAuthCount := 0
    failoverAuthSent := false
    failoverAuthRank := 0
    failoverAuthEpoch := 0 }

end Failover

section System

variable {size : Nat}

structure System (size : Nat) where
  voters : Fin size → Voter
  replicas : Nat → Replica
  network : List (Msg size)

inductive Action (size : Nat) where
  | handleFailover (r : Nat) (view : FailoverView size)
  -- The message at this position of the network arrives.
  | deliver (i : Nat) (view : VoteView)
  | ping (sender receiver : Name size)
  | saveConfig (name : Name size)
  | restart (name : Name size)

abbrev Win := Nat × Nat

def System.setVoter (system : System size) (i : Fin size) (voter : Voter) : System size :=
  { system with voters := fun j => if j = i then voter else system.voters j }

def System.setReplica (system : System size) (r : Nat) (node : Replica) : System size :=
  { system with replicas := fun s => if s = r then node else system.replicas s }

def System.send (system : System size) (messages : List (Msg size)) : System size :=
  { system with network := system.network ++ messages }

def System.epochOf (system : System size) : Name size → Nat
  | .master i => (system.voters i).currentEpoch
  | .replica r => (system.replicas r).currentEpoch

def System.pingFrom (system : System size) (sender receiver : Name size) : Msg size :=
  { receiver := receiver, sender := sender, type := .ping
    currentEpoch := system.epochOf sender, configEpoch := 0, myslots := [], forceAck := false }

def clusterRequestFailoverAuth (view : FailoverView size) (r : Nat) (node : Replica) :
    List (Msg size) :=
  view.links.map fun receiver =>
    { receiver := receiver, sender := .replica r, type := .failoverAuthRequest
      currentEpoch := node.currentEpoch, configEpoch := view.masterConfigEpoch
      myslots := view.masterSlots, forceAck := view.mfEnd }

def clusterSendFailoverAuth (i : Fin size) (voter : Voter) (receiver : Name size) : Msg size :=
  { receiver := receiver, sender := .master i, type := .failoverAuthAck
    currentEpoch := voter.currentEpoch, configEpoch := 0, myslots := [], forceAck := false }

/-- Every message tells an epoch, and some do more. -/
def clusterProcessPacket (system : System size) (msg : Msg size) (view : VoteView) : System size :=
  match msg.receiver with
  | .master i =>
    let voter := system.voters i
    let voter := { voter with currentEpoch := max voter.currentEpoch msg.currentEpoch }
    if msg.type = .failoverAuthRequest then
      let (granted, voter) := clusterSendFailoverAuthIfNeeded view voter msg
      let system := system.setVoter i voter
      if granted then system.send [clusterSendFailoverAuth i voter msg.sender] else system
    else system.setVoter i voter
  | .replica r =>
    let node := system.replicas r
    let node := { node with currentEpoch := max node.currentEpoch msg.currentEpoch }
    match msg.type, msg.sender with
    | .failoverAuthAck, .master _ => system.setReplica r (receiveAck msg.currentEpoch node)
    | _, _ => system.setReplica r node

def step (system : System size) : Action size → Option Win × System size
  | .handleFailover r view =>
    let (outcome, node) := clusterHandleSlaveFailover view (system.replicas r)
    let system := system.setReplica r node
    match outcome with
    | .none => (none, system)
    | .requested => (none, system.send (clusterRequestFailoverAuth view r node))
    | .won => (some (r, node.failoverAuthEpoch), system)
  | .deliver i view =>
    match system.network[i]? with
    | none => (none, system)
    | some msg =>
      let system := { system with network := system.network.eraseIdx i }
      (none, clusterProcessPacket system msg view)
  | .ping sender receiver =>
    (none, system.send [system.pingFrom sender receiver])
  | .saveConfig (.master i) =>
    let voter := system.voters i
    (none, system.setVoter i { voter with
      savedCurrentEpoch := voter.currentEpoch, savedLastVoteEpoch := voter.lastVoteEpoch })
  | .saveConfig (.replica r) =>
    let node := system.replicas r
    (none, system.setReplica r { node with savedCurrentEpoch := node.currentEpoch })
  | .restart (.master i) => (none, system.setVoter i (system.voters i).restart)
  | .restart (.replica r) => (none, system.setReplica r (system.replicas r).restart)

def run : System size → List (Action size) → List Win × System size
  | system, [] => ([], system)
  | system, action :: actions =>
    let (win, system) := step system action
    let (wins, system) := run system actions
    (win.toList ++ wins, system)

end System

end LearningNotes.Cluster
