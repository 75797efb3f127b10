import LearningNotes.Cluster.Election
import LearningNotes.Lib.Outcome

/-! The tables of a cluster node about who serves which slot, and all that changes them. -/

namespace LearningNotes.Cluster.SlotTable

open Lib

/-- `CLUSTER_SLOTS`; no proof depends on its value. -/
@[irreducible] def clusterSlots : Nat := 16384

abbrev Slot := Fin clusterSlots

instance : LawfulBEq Slot := inferInstance

def allSlots : List Slot := List.finRange clusterSlots

/-- What a pointer to a node is; a node keeps it when its name changes. -/
abbrev NodeId := Nat

abbrev Bitmap := BitVec clusterSlots

def bitmapTestBit (bitmap : Bitmap) (pos : Slot) : Bool := bitmap.getLsbD pos

def bitmapSetBit (bitmap : Bitmap) (pos : Slot) : Bitmap := bitmap ||| BitVec.twoPow _ pos

def bitmapClearBit (bitmap : Bitmap) (pos : Slot) : Bitmap := bitmap &&& ~~~ BitVec.twoPow _ pos

inductive Fault where
  /-- The assertion in `clusterDelSlot`. -/
  | delSlot
  /-- The assertion of `CLUSTER ADDSLOTS` and `DELSLOTS`. -/
  | slotBusy
  /-- An assertion in `clusterSetMaster`. -/
  | setMaster
  /-- The assertion in `clusterAddNode`. -/
  | nameTaken
  /-- The unknown master of this node is used. -/
  | nullMaster
  /-- A freed replica is still listed with its master, and written to. -/
  | freedReplica
  /-- Any other use of a node that has been freed. -/
  | dangling
deriving DecidableEq, Repr

/-- A `clusterNode`, without what has nothing to do with slots. -/
structure Node where
  master : Bool
  slave : Bool
  handshake : Bool
  configEpoch : Nat
  slots : Bitmap
  numslots : Int
  slaveof : Option NodeId
  slaves : List NodeId
deriving DecidableEq

def createClusterNode (master slave handshake : Bool) : Node :=
  { master := master, slave := slave, handshake := handshake, configEpoch := 0, slots := 0,
    numslots := 0, slaveof := none, slaves := [] }

structure State where
  nodes : List (NodeId × Node)
  /-- No node was ever allocated here. -/
  nextId : NodeId
  myself : NodeId
  currentEpoch : Nat
  slots : Slot → Option NodeId
  importingSlotsFrom : Slot → Option NodeId
  migratingSlotsTo : Slot → Option NodeId

def assign (table : Slot → Option NodeId) (slot : Slot) (entry : Option NodeId) :
    Slot → Option NodeId :=
  fun other => if other = slot then entry else table other

namespace State

def node? (s : State) (n : NodeId) : Option Node :=
  (s.nodes.find? fun entry => entry.1 = n).map Prod.snd

def node (s : State) (n : NodeId) : Except Fault Node :=
  match s.node? n with
  | some node => .ok node
  | none => .error .dangling

def modify (s : State) (n : NodeId) (change : Node → Node) : State :=
  { s with nodes := s.nodes.map fun entry =>
      if entry.1 = n then (entry.1, change entry.2) else entry }

/-- `clusterAddNode`, for a node just created. -/
def clusterAddNode (s : State) (node : Node) : State :=
  { s with nodes := s.nodes ++ [(s.nextId, node)], nextId := s.nextId + 1 }

/-- A node that was looked up by its name, if it is known. -/
def lookup (s : State) (n : NodeId) : Option NodeId := if (s.node? n).isSome then some n else none

end State

def clusterNodeSetSlotBit (n : Node) (slot : Slot) : Node :=
  let old := bitmapTestBit n.slots slot
  { n with
    slots := bitmapSetBit n.slots slot
    numslots := if old then n.numslots else n.numslots + 1 }

/-- `clusterNodeClearSlotBit`, without the old value. -/
def clusterNodeClearSlotBit (n : Node) (slot : Slot) : Node :=
  let old := bitmapTestBit n.slots slot
  { n with
    slots := bitmapClearBit n.slots slot
    numslots := if old then n.numslots - 1 else n.numslots }

/-- `clusterAddSlot`: whether it was successful, and the state. -/
def clusterAddSlot (s : State) (n : NodeId) (slot : Slot) : Except Fault (Bool × State) := do
  if (s.slots slot).isSome then return (false, s)
  else
    let _ ← s.node n
    let s := s.modify n fun node => clusterNodeSetSlotBit node slot
    return (true, { s with slots := assign s.slots slot (some n) })

/-- `clusterDelSlot`: whether it was successful, and the state. -/
def clusterDelSlot (s : State) (slot : Slot) : Except Fault (Bool × State) := do
  match s.slots slot with
  | none => return (false, s)
  | some n =>
    let node ← s.node n
    if bitmapTestBit node.slots slot then
      let s := s.modify n fun node => clusterNodeClearSlotBit node slot
      return (true, { s with slots := assign s.slots slot none })
    else throw .delSlot

def moveSlot (s : State) (n : NodeId) (slot : Slot) : Except Fault State := do
  let (_, s) ← clusterDelSlot s slot
  let (_, s) ← clusterAddSlot s n slot
  return s

def clusterDelNodeSlots (s : State) (n : NodeId) : Except Fault State :=
  allSlots.foldlM (fun s slot => do
    let node ← s.node n
    if bitmapTestBit node.slots slot then return (← clusterDelSlot s slot).2 else return s) s

def clusterNodeRemoveSlave (s : State) (master slave : NodeId) : Except Fault State := do
  let _ ← s.node master
  return s.modify master fun node => { node with slaves := node.slaves.erase slave }

def clusterNodeAddSlave (s : State) (master slave : NodeId) : Except Fault State := do
  let _ ← s.node master
  return s.modify master fun node =>
    if slave ∈ node.slaves then node else { node with slaves := node.slaves ++ [slave] }

def leaveMaster (s : State) (n : NodeId) : Except Fault State := do
  match (← s.node n).slaveof with
  | none => return s
  | some master => clusterNodeRemoveSlave s master n

def freeClusterNode (s : State) (n : NodeId) : Except Fault State := do
  let s ← (← s.node n).slaves.foldlM (fun s slave =>
    match s.node? slave with
    | none => throw .freedReplica
    | some _ => return s.modify slave fun node => { node with slaveof := none }) s
  let s ← (if (← s.node n).slave then leaveMaster s n else .ok s)
  return { s with nodes := s.nodes.filter fun entry => entry.1 ≠ n }

def clusterDelNode (s : State) (delnode : NodeId) : Except Fault State := do
  let s ← allSlots.foldlM (fun s slot => do
    let s := if s.importingSlotsFrom slot = some delnode then
      { s with importingSlotsFrom := assign s.importingSlotsFrom slot none } else s
    let s := if s.migratingSlotsTo slot = some delnode then
      { s with migratingSlotsTo := assign s.migratingSlotsTo slot none } else s
    if s.slots slot = some delnode then return (← clusterDelSlot s slot).2 else return s) s
  freeClusterNode s delnode

def clusterSetNodeAsMaster (s : State) (n : NodeId) : Except Fault State := do
  if (← s.node n).master then return s
  else
    let s ← leaveMaster s n
    return s.modify n fun node => { node with slave := false, master := true, slaveof := none }

def clusterCloseAllSlots (s : State) : State :=
  { s with importingSlotsFrom := fun _ => none, migratingSlotsTo := fun _ => none }

def clusterSetMaster (s : State) (n : NodeId) : Except Fault State := do
  let me ← s.node s.myself
  if n = s.myself ∨ me.numslots ≠ 0 then throw .setMaster
  else
    let s ← (if me.master then
      .ok (clusterCloseAllSlots (s.modify s.myself fun node =>
        { node with master := false, slave := true }))
      else leaveMaster s s.myself)
    let s := s.modify s.myself fun node => { node with slaveof := some n }
    clusterNodeAddSlave s n s.myself

/-- What the loop of `clusterUpdateSlotsConfigWith` keeps apart from the state. -/
structure Tally where
  newmaster : Bool
  senderSlots : Nat
  migratedOurSlots : Nat

/-- One round of the loop of `clusterUpdateSlotsConfigWith`. -/
def claimSlot (sender : NodeId) (senderConfigEpoch : Nat) (slots : Bitmap)
    (curmaster : Option NodeId) (result : State × Tally) (slot : Slot) :
    Except Fault (State × Tally) := do
  let (s, tally) := result
  if bitmapTestBit slots slot then
    let tally := { tally with senderSlots := tally.senderSlots + 1 }
    if s.slots slot = some sender then return (s, tally)
    else if (s.importingSlotsFrom slot).isSome then return (s, tally)
    else
      let older ← (match s.slots slot with
        | none => .ok true
        | some owner => do return decide ((← s.node owner).configEpoch < senderConfigEpoch))
      if older then
        -- Without a known master, a slot that nobody serves counts as a slot of the master.
        let tally := if s.slots slot = curmaster then
          { tally with newmaster := true, migratedOurSlots := tally.migratedOurSlots + 1 } else tally
        let s ← moveSlot s sender slot
        return (s, tally)
      else return (s, tally)
  else return (s, tally)

structure Config where
  /-- `CLUSTER_MODULE_FLAG_NO_REDIRECTION` is set. -/
  noRedirection : Bool
  allowReplicaMigration : Bool

def clusterUpdateSlotsConfigWith (config : Config) (s : State) (sender : NodeId)
    (senderConfigEpoch : Nat) (slots : Bitmap) : Except Fault State := do
  let me ← s.node s.myself
  let curmaster := if me.master then some s.myself else me.slaveof
  if sender = s.myself then return s
  else
    let (s, tally) ← allSlots.foldlM (claimSlot sender senderConfigEpoch slots curmaster)
      (s, ⟨false, 0, 0⟩)
    if config.noRedirection then return s
    else if tally.newmaster then
      match curmaster with
      | none => throw .nullMaster
      | some curmaster =>
        if (← s.node curmaster).numslots = 0 ∧ (config.allowReplicaMigration ∨
            tally.senderSlots = tally.migratedOurSlots) then clusterSetMaster s sender
        else return s
    else return s

/-- A node of the gossip section that is added as it is not known. -/
structure Gossip where
  master : Bool
  slave : Bool
  handshake : Bool
  /-- It has the name of the packet's sender. -/
  isSender : Bool

/-- The header of a packet, with the nodes of its names. -/
structure Header where
  /-- The node of the link, if it has one. -/
  link : Option NodeId
  sender : NodeId
  currentEpoch : Nat
  configEpoch : Nat
  master : Bool
  slave : Bool
  /-- The null name is none: the sender is a master. -/
  slaveof : Option NodeId
  myslots : Bitmap
  /-- The sender's name is greater than that of this node. -/
  greaterName : Bool
  gossip : List Gossip

/-- The packets that change the tables. -/
inductive Packet where
  /-- A PING, a PONG or a MEET packet. -/
  | ping (meet : Bool) (hdr : Header)
  | update (hdr : Header) (nodename : NodeId) (configEpoch : Nat) (slots : Bitmap)

/-- What a packet tells about the epochs of a known sender. -/
def learnEpochs (s : State) (hdr : Header) : State × Nat :=
  match s.node? hdr.sender with
  | none => (s, 0)
  | some sender =>
    if sender.handshake then (s, 0)
    else
      let s := { s with currentEpoch := max s.currentEpoch hdr.currentEpoch }
      (s.modify hdr.sender fun node =>
        { node with configEpoch := max node.configEpoch hdr.configEpoch }, hdr.configEpoch)

/-- The part of `clusterProcessGossipSection` that adds nodes. -/
def clusterProcessGossipSection (s : State) (hdr : Header) : State :=
  hdr.gossip.foldl (fun s node =>
    s.clusterAddNode (createClusterNode node.master node.slave node.handshake)) s

/-- A MEET packet of an unknown sender starts a handshake. -/
def processMeet (s : State) (hdr : Header) : State :=
  let s := s.clusterAddNode (createClusterNode false false true)
  if (hdr.link.bind s.node?).isSome then clusterProcessGossipSection s hdr else s

/-- What a packet does to the node of its link: whether it is processed further. -/
def processLink (s : State) (meet : Bool) (sender : Option NodeId) (hdr : Header) :
    Except Fault (Bool × State) := do
  match hdr.link with
  | none => return (true, s)
  | some link =>
    match s.node? link with
    | none => return (true, s)
    | some node =>
      if node.handshake then
        if sender.isSome then return (false, ← clusterDelNode s link)
        -- The node gets the name of the sender, which a node of the gossip section may have taken.
        else if meet ∧ hdr.gossip.any Gossip.isSender then throw .nameTaken
        else return (true, s.modify link fun node =>
          { node with
            handshake := false
            master := node.master || hdr.master
            slave := node.slave || hdr.slave })
      -- The packet comes from another node than expected.
      else if sender ≠ some link then return (false, s)
      else return (true, s)

def followMaster (s : State) (sender master : NodeId) : Except Fault State := do
  match s.lookup master with
  | none => return s
  | some master =>
    if (← s.node sender).slaveof = some master then return s
    else
      let s ← leaveMaster s sender
      let s ← clusterNodeAddSlave s master sender
      return s.modify sender fun node => { node with slaveof := some master }

/-- What a packet tells about the role of a known sender. -/
def switchRole (s : State) (sender : NodeId) (hdr : Header) : Except Fault State := do
  match hdr.slaveof with
  | none => clusterSetNodeAsMaster s sender
  | some master =>
    let s ← (if (← s.node sender).master then do
        -- Master turned into a slave!
        let s ← clusterDelNodeSlots s sender
        return s.modify sender fun node => { node with master := false, slave := true }
      else .ok s)
    followMaster s sender master

def clusterHandleConfigEpochCollision (s : State) (sender : NodeId) (hdr : Header) :
    Except Fault State := do
  let senderNode ← s.node sender
  let me ← s.node s.myself
  if senderNode.configEpoch ≠ me.configEpoch ∨ ¬ senderNode.master ∨ ¬ me.master then return s
  else if ¬ hdr.greaterName then return s
  else
    let s := { s with currentEpoch := nextEpoch s.currentEpoch }
    return s.modify s.myself fun node => { node with configEpoch := s.currentEpoch }

def dirtySlots (s : State) (sender : NodeId) (hdr : Header) : Except Fault Bool := do
  let node ← s.node sender
  match if node.master then some sender else node.slaveof with
  | none => return false
  | some senderMaster => return decide ((← s.node senderMaster).slots ≠ hdr.myslots)

/-- What a packet tells about a known sender's configuration. -/
def processSender (config : Config) (s : State) (sender : NodeId) (senderConfigEpoch : Nat)
    (hdr : Header) : Except Fault State := do
  let s ← switchRole s sender hdr
  let dirty ← dirtySlots s sender hdr
  let s ← (if (← s.node sender).master ∧ dirty then
    clusterUpdateSlotsConfigWith config s sender senderConfigEpoch hdr.myslots else .ok s)
  let me ← s.node s.myself
  let s ← (if me.master ∧ (← s.node sender).master ∧ senderConfigEpoch = me.configEpoch then
    clusterHandleConfigEpochCollision s sender hdr else .ok s)
  return clusterProcessGossipSection s hdr

/-- `clusterProcessPacket`, for packets that change the tables. -/
def clusterProcessPacket (config : Config) (s : State) : Packet → Except Fault State
  | .ping meet hdr => do
    let sender := s.lookup hdr.sender
    let (s, senderConfigEpoch) := learnEpochs s hdr
    let s := if meet ∧ sender.isNone then processMeet s hdr else s
    let (goOn, s) ← processLink s meet sender hdr
    if goOn then
      match sender with
      | none => return s
      | some sender => processSender config s sender senderConfigEpoch hdr
    else return s
  | .update hdr nodename configEpoch slots => do
    let sender := s.lookup hdr.sender
    let (s, _) := learnEpochs s hdr
    if sender.isNone then return s
    else
      match s.node? nodename with
      | none => return s
      | some n =>
        if configEpoch ≤ n.configEpoch then return s
        else
          let s ← (if n.slave then clusterSetNodeAsMaster s nodename else .ok s)
          let s := s.modify nodename fun node => { node with configEpoch := configEpoch }
          clusterUpdateSlotsConfigWith config s nodename configEpoch slots

def clusterGetMaxEpoch (s : State) : Nat :=
  max (s.nodes.foldl (fun epoch entry => max epoch entry.2.configEpoch) 0) s.currentEpoch

def clusterBumpConfigEpochWithoutConsensus (s : State) : Except Fault State := do
  let me ← s.node s.myself
  if me.configEpoch = 0 ∨ me.configEpoch ≠ clusterGetMaxEpoch s then
    let s := { s with currentEpoch := nextEpoch s.currentEpoch }
    return s.modify s.myself fun node => { node with configEpoch := s.currentEpoch }
  else return s

def clusterFailoverReplaceYourMaster (s : State) : Except Fault State := do
  let me ← s.node s.myself
  match me.slaveof with
  | none => return s
  | some oldmaster =>
    if me.master then return s
    else
      let s ← clusterSetNodeAsMaster s s.myself
      allSlots.foldlM (fun s slot => do
        if bitmapTestBit (← s.node oldmaster).slots slot then
          moveSlot s s.myself slot
        else return s) s

/-- What `CLUSTER SETSLOT` is asked to do. -/
inductive SetSlot where
  | migrating (n : NodeId)
  | importing (n : NodeId)
  | stable
  /-- Bind the slot to a node; whether there are keys in the slot. -/
  | node (n : NodeId) (keys : Bool)

def setslot (s : State) (slot : Slot) (action : SetSlot) : Except Fault State := do
  if (← s.node s.myself).slave then return s
  else
    match action with
    | .migrating n =>
      if s.slots slot ≠ some s.myself ∨ (s.lookup n).isNone then return s
      else return { s with migratingSlotsTo := assign s.migratingSlotsTo slot (some n) }
    | .importing n =>
      if s.slots slot = some s.myself ∨ (s.lookup n).isNone then return s
      else return { s with importingSlotsFrom := assign s.importingSlotsFrom slot (some n) }
    | .stable =>
      return { s with
        importingSlotsFrom := assign s.importingSlotsFrom slot none
        migratingSlotsTo := assign s.migratingSlotsTo slot none }
    | .node n keys =>
      if (s.lookup n).isNone then return s
      else if s.slots slot = some s.myself ∧ n ≠ s.myself ∧ keys then return s
      else
        let s := if ¬ keys then
          { s with migratingSlotsTo := assign s.migratingSlotsTo slot none } else s
        let s ← moveSlot s n slot
        if n = s.myself ∧ (s.importingSlotsFrom slot).isSome then
          let s ← clusterBumpConfigEpochWithoutConsensus s
          return { s with importingSlotsFrom := assign s.importingSlotsFrom slot none }
        else return s

def addOrDelSlots (del : Bool) (s : State) (slots : List Slot) : Except Fault State :=
  -- Unassigned slots cannot be deleted, busy ones not be added, and none be given twice.
  if slots.any fun slot => (s.slots slot).isSome != del then .ok s
  else if ¬ slots.Nodup then .ok s
  else
    allSlots.foldlM (fun s slot => do
      if slot ∈ slots then
        let s := { s with importingSlotsFrom := assign s.importingSlotsFrom slot none }
        let (done, s) ← (if del then clusterDelSlot s slot else clusterAddSlot s s.myself slot)
        if done then return s else throw .slotBusy
      else return s) s

inductive Op where
  | packet (packet : Packet)
  | addslots (slots : List Slot)
  | delslots (slots : List Slot)
  | flushslots (emptyDb : Bool)
  | setslot (slot : Slot) (action : SetSlot)
  | forget (n : NodeId)
  | replicate (n : NodeId) (emptyDb : Bool)
  /-- An election under this epoch was won. -/
  | failover (authEpoch : Nat)
  | takeover
  | meet
  | handshakeTimeout (n : NodeId)

def step (config : Config) (s : State) : Op → Except Fault State
  | .packet packet => clusterProcessPacket config s packet
  | .addslots slots => addOrDelSlots false s slots
  | .delslots slots => addOrDelSlots true s slots
  | .flushslots emptyDb => if emptyDb then clusterDelNodeSlots s s.myself else .ok s
  | .setslot slot action => setslot s slot action
  | .forget n => do
    let me ← s.node s.myself
    if (s.lookup n).isNone ∨ n = s.myself ∨ (me.slave ∧ me.slaveof = some n) then return s
    else clusterDelNode s n
  | .replicate n emptyDb => do
    let me ← s.node s.myself
    match s.node? n with
    | none => return s
    | some node =>
      if n = s.myself ∨ node.slave then return s
      else if me.master ∧ (me.numslots ≠ 0 ∨ ¬ emptyDb) then return s
      else clusterSetMaster s n
  | .failover authEpoch => do
    let me ← s.node s.myself
    if me.master ∨ me.slaveof.isNone then return s
    else
      clusterFailoverReplaceYourMaster (s.modify s.myself fun node =>
        { node with configEpoch := max node.configEpoch authEpoch })
  | .takeover => do
    let me ← s.node s.myself
    if me.master ∨ me.slaveof.isNone then return s
    else clusterFailoverReplaceYourMaster (← clusterBumpConfigEpochWithoutConsensus s)
  | .meet => .ok (s.clusterAddNode (createClusterNode false false true))
  | .handshakeTimeout n =>
    match s.node? n with
    | none => .ok s
    | some node => if node.handshake then clusterDelNode s n else .ok s

def newState : State :=
  { nodes := [(0, createClusterNode true false false)], nextId := 1, myself := 0,
    currentEpoch := 0, slots := fun _ => none, importingSlotsFrom := fun _ => none,
    migratingSlotsTo := fun _ => none }

def run (config : Config) (ops : List Op) : Except Fault State := ops.foldlM (step config) newState

end LearningNotes.Cluster.SlotTable
