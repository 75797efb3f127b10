import Mathlib.Data.Fintype.Basic
import Mathlib.Data.Finset.Card
import LearningNotes.Cluster.Slots

/-! What holds of the tables about the slots, and the changes that leave the owners alone. -/

namespace LearningNotes.Cluster.SlotTable

open Lib List Option

/-! ### Bitmaps -/

@[simp] theorem bitmapTestBit_setBit (bitmap : Bitmap) (pos other : Slot) :
    bitmapTestBit (bitmapSetBit bitmap pos) other =
      (bitmapTestBit bitmap other || decide (other = pos)) := by
  simp only [bitmapTestBit, bitmapSetBit]
  simp [Fin.ext_iff]

@[simp] theorem bitmapTestBit_clearBit (bitmap : Bitmap) (pos other : Slot) :
    bitmapTestBit (bitmapClearBit bitmap pos) other =
      (bitmapTestBit bitmap other && !decide (other = pos)) := by
  simp only [bitmapTestBit, bitmapClearBit]
  simp [Fin.ext_iff]

@[simp] theorem bitmapTestBit_zero (pos : Slot) :
    bitmapTestBit (BitVec.ofNat clusterSlots 0) pos = false := by
  simp [bitmapTestBit]

def countSlots (bitmap : Bitmap) : Nat :=
  (Finset.univ.filter fun slot => bitmapTestBit bitmap slot = true).card

theorem countSlots_zero : countSlots (BitVec.ofNat clusterSlots 0) = 0 := by
  simp [countSlots]

variable {bitmap : Bitmap} {pos : Slot} {m : NodeId} {change : Node → Node} {later : Node}
    {u : State}

/-- Setting a clear bit adds one to the count. -/
theorem countSlots_setBit (clear : bitmapTestBit bitmap pos = false) :
    countSlots (bitmapSetBit bitmap pos) = countSlots bitmap + 1 := by
  -- The new bit is a new member of the set.
  have inserted : (Finset.univ.filter fun slot => bitmapTestBit (bitmapSetBit bitmap pos) slot = true)
      = insert pos (Finset.univ.filter fun slot => bitmapTestBit bitmap slot = true) := by
    ext slot
    simp [or_comm]
  rw [countSlots, inserted, Finset.card_insert_of_notMem (by simp [clear])]
  rfl

/-- Clearing a set bit takes one off it. -/
theorem countSlots_clearBit (set : bitmapTestBit bitmap pos = true) :
    countSlots (bitmapClearBit bitmap pos) + 1 = countSlots bitmap := by
  -- The cleared bit was a member of the set.
  have erased : (Finset.univ.filter fun slot => bitmapTestBit (bitmapClearBit bitmap pos) slot = true)
      = (Finset.univ.filter fun slot => bitmapTestBit bitmap slot = true).erase pos := by
    ext slot
    simp [and_comm]
  rw [countSlots, erased]
  exact Finset.card_erase_add_one (by simp [set])

/-! ### Nodes -/

/-- A change of one node is seen at that node and at no other. -/
theorem node?_modify (s : State) (n m : NodeId) (change : Node → Node) :
    (s.modify n change).node? m = if m = n then (s.node? m).map change else s.node? m := by
  -- The entries keep their names, so the same one is found.
  have names : ((fun entry : NodeId × Node => decide (entry.1 = m)) ∘ fun entry =>
      if entry.1 = n then (entry.1, change entry.2) else entry) =
      fun entry => decide (entry.1 = m) := by
    funext entry
    by_cases same : entry.1 = n <;> simp [same]
  simp only [State.node?, State.modify, find?_map, names]
  cases found : s.nodes.find? fun entry => entry.1 = m with
  | none => simp
  | some entry =>
    have named : entry.1 = m := by simpa using find?_some found
    by_cases same : m = n <;> simp [named, same]

variable {s t : State} {n : NodeId} {node : Node} {loose : Option NodeId}

theorem node?_modify_self (known : s.node? n = some node) (change : Node → Node) :
    (s.modify n change).node? n = some (change node) := by
  rw [node?_modify, if_pos rfl, known, map_some]

theorem node?_modify_known (known : s.node? n = some node) (change : Node → Node) (m : NodeId) :
    (s.modify n change).node? m = if m = n then some (change node) else s.node? m := by
  rw [node?_modify]
  split
  · rename_i same
    rw [same, known, map_some]
  · rfl

theorem known_modify {holds : Node → Prop} (known : s.node? m = some node)
    (changed : holds (change node)) (same : holds node) :
    ∃ later, (s.modify n change).node? m = some later ∧ holds later := by
  rw [node?_modify, known]
  split
  · exact ⟨_, rfl, changed⟩
  · exact ⟨_, rfl, same⟩

/-- A node known after a change was known before it. -/
theorem known_of_modify (known : (s.modify n change).node? m = some later) :
    ∃ node, s.node? m = some node ∧ (later = change node ∨ later = node) := by
  rw [node?_modify] at known
  split at known
  · obtain ⟨node, before, rfl⟩ := map_eq_some_iff.mp known
    exact ⟨node, before, .inl rfl⟩
  · exact ⟨later, known, .inr rfl⟩

def State.role (s : State) : NodeId × Option (Bool × Bool) :=
  (s.myself, (s.node? s.myself).map fun me => (me.master, me.slave))

theorem role_of_known (here : s.node? s.myself = some node) :
    s.role = (s.myself, some (node.master, node.slave)) := by
  rw [State.role, here]
  rfl

/-- The role of this node changes only with its own flags. -/
theorem role_modify
    (keeps : n = s.myself → ∀ node, ((change node).master, (change node).slave) = (node.master,
      node.slave)) :
    (s.modify n change).role = s.role := by
  have myself : (s.modify n change).myself = s.myself := rfl
  rw [State.role, myself, node?_modify]
  split
  · rename_i same
    rw [Option.map_map]
    exact congrArg (fun role => (s.myself, (s.node? s.myself).map role)) (funext (keeps same.symm))
  · rfl

/-- A node that joins gets a fresh name and replaces no other. -/
theorem node?_clusterAddNode (fresh : s.node? s.nextId = none) (node : Node) (m : NodeId) :
    (s.clusterAddNode node).node? m = if m = s.nextId then some node else s.node? m := by
  -- The new node stands behind all others, and nobody else is called like it.
  simp only [State.node?, State.clusterAddNode]
  by_cases new : m = s.nextId
  · subst new
    have absent : s.nodes.find? (fun entry => entry.1 = s.nextId) = none := by
      simpa [State.node?] using fresh
    simp [absent]
  · have other : ¬ s.nextId = m := fun same => new same.symm
    simp [new, other]

theorem known_clusterAddNode (fresh : s.node? s.nextId = none) (new : Node)
    (known : s.node? n = some node) : (s.clusterAddNode new).node? n = some node := by
  rw [node?_clusterAddNode fresh, if_neg, known]
  rintro rfl
  exact absurd (fresh.symm.trans known) (by simp)

theorem node?_filter (s : State) (n m : NodeId) :
    ({ s with nodes := s.nodes.filter fun entry => entry.1 ≠ n } : State).node? m =
      if m = n then none else s.node? m := by
  simp only [State.node?, find?_filter]
  by_cases gone : m = n
  · subst gone
    simp
  rw [if_neg gone]
  congr 2
  funext entry
  by_cases same : entry.1 = m
  · simp [same, gone]
  · simp [same]

theorem node_of_known (known : s.node? n = some node) : s.node n = .ok node := by
  rw [State.node, known]

theorem lookup_eq_some (found : s.lookup n = some m) : m = n ∧ ∃ node, s.node? n = some node := by
  unfold State.lookup at found
  split at found
  · exact ⟨(some.inj found).symm, isSome_iff_exists.mp ‹_›⟩
  · cases found

theorem known_of_lookup (found : ¬ (s.lookup n).isNone = true) : ∃ node, s.node? n = some node := by
  obtain ⟨m, found⟩ := ne_none_iff_exists'.mp (by simpa using found)
  exact (lookup_eq_some found).2

/-! ### What holds of the tables -/

/-- The tables about the owners of slots agree. -/
structure Consistent (s : State) : Prop where
  bits : ∀ n node, s.node? n = some node →
    ∀ slot, bitmapTestBit node.slots slot = true ↔ s.slots slot = some n
  counts : ∀ n node, s.node? n = some node → node.numslots = countSlots node.slots
  owners : ∀ slot n, s.slots slot = some n → ∃ node, s.node? n = some node

/-- This node is known, and every replica is listed with its master only. -/
structure Linked (loose : Option NodeId) (s : State) : Prop where
  me : ∃ node, s.node? s.myself = some node ∧ node.handshake = false
  fresh : ∀ n, s.nextId ≤ n → s.node? n = none
  listed : ∀ n node master, s.node? n = some node → node.slaveof = some master →
    some n ≠ loose → ∃ masterNode, s.node? master = some masterNode ∧ n ∈ masterNode.slaves

structure Sound (s : State) : Prop where
  consistent : Consistent s
  linked : Linked none s

/-- This node is either a master, or a replica that owns no slots. -/
def Obedient (s : State) : Prop :=
  s.role = (s.myself, some (true, false)) ∨
    s.role = (s.myself, some (false, true)) ∧ ∀ slot, s.slots slot ≠ some s.myself

/-- What holds between operations; the second part if it is asked for. -/
structure Safe (strict : Bool) (s : State) : Prop extends Sound s where
  obedient : strict = true → Obedient s

/-- What a node becomes: its epoch does not shrink, and no handshake comes back. -/
structure Older (node later : Node) : Prop where
  epoch : node.configEpoch ≤ later.configEpoch
  handshake : later.handshake = true → node.handshake = true

theorem Older.refl (node : Node) : Older node node := ⟨le_refl _, id⟩

/-- No known node is lost. -/
structure Later (s t : State) : Prop where
  myself : t.myself = s.myself
  nodes : ∀ n node, s.node? n = some node → ∃ later, t.node? n = some later ∧ Older node later

/-- No slot gets another owner. -/
structure Quiet (s t : State) : Prop extends Later s t where
  slots : t.slots = s.slots
  kept : ∀ n later, t.node? n = some later →
    (∃ node, s.node? n = some node ∧ later.slots = node.slots ∧ later.numslots = node.numslots) ∨
      s.node? n = none ∧ later.slots = 0 ∧ later.numslots = 0

/-- No known node is lost, and this node keeps its role. -/
structure Steady (s t : State) : Prop extends Later s t where
  role : t.role = s.role

/-- No slot gets another owner, and this node keeps its role. -/
structure Calm (s t : State) : Prop extends Quiet s t where
  role : t.role = s.role

theorem Calm.toSteady (calm : Calm s t) : Steady s t := ⟨calm.toLater, calm.role⟩

theorem Later.refl (s : State) : Later s s :=
  ⟨rfl, fun _ node known => ⟨node, known, .refl node⟩⟩

/-- Nodes only get older along a run. -/
theorem Later.trans (first : Later s t) (second : Later t u) : Later s u := by
  refine ⟨second.myself.trans first.myself, ?_⟩
  intro n node known
  obtain ⟨middle, known, grown⟩ := first.nodes n node known
  obtain ⟨last, known, grownAgain⟩ := second.nodes n middle known
  exact ⟨last, known, grown.epoch.trans grownAgain.epoch, grown.handshake ∘ grownAgain.handshake⟩

theorem Quiet.trans (first : Quiet s t) (second : Quiet t u) : Quiet s u := by
  refine ⟨first.toLater.trans second.toLater, second.slots.trans first.slots, ?_⟩
  intro n last known
  -- A node of the end was there in the middle, or is still without slots.
  obtain ⟨middle, known, slots, numslots⟩ | ⟨unknown, empty⟩ := second.kept n last known
  · obtain ⟨node, known, slots', numslots'⟩ | ⟨unknown, slots', numslots'⟩ := first.kept n middle known
    · exact .inl ⟨node, known, slots.trans slots', numslots.trans numslots'⟩
    · exact .inr ⟨unknown, slots.trans slots', numslots.trans numslots'⟩
  refine .inr ⟨?_, empty⟩
  cases before : s.node? n with
  | none => rfl
  | some node =>
    obtain ⟨middle, known, _⟩ := first.nodes n node before
    exact absurd (unknown.symm.trans known) (by simp)

theorem Steady.refl (s : State) : Steady s s := ⟨.refl s, rfl⟩

theorem Steady.trans (first : Steady s t) (second : Steady t u) : Steady s u :=
  ⟨first.toLater.trans second.toLater, second.role.trans first.role⟩

theorem Calm.trans (first : Calm s t) (second : Calm t u) : Calm s u :=
  ⟨first.toQuiet.trans second.toQuiet, second.role.trans first.role⟩

theorem Calm.of_same
    (same : (t.nodes, t.slots, t.myself) = (s.nodes, s.slots, s.myself)) : Calm s t := by
  obtain ⟨nodes, slots, myself⟩ : _ ∧ _ ∧ _ := by simpa using same
  have same : ∀ n, t.node? n = s.node? n := fun n => by rw [State.node?, nodes, State.node?]
  refine ⟨⟨⟨myself, fun n node known => ⟨node, (same n).trans known, .refl node⟩⟩, slots, ?_⟩,
    by rw [State.role, State.role, myself, same]⟩
  intro n node known
  exact .inl ⟨node, (same n).symm.trans known, rfl, rfl⟩

theorem Calm.refl (s : State) : Calm s s := .of_same rfl

theorem Quiet.of_same
    (same : (t.nodes, t.slots, t.myself) = (s.nodes, s.slots, s.myself)) : Quiet s t :=
  (Calm.of_same same).toQuiet

theorem Quiet.refl (s : State) : Quiet s s := .of_same rfl

theorem slots_of_modify
    (keeps : ∀ node, (change node).slots = node.slots ∧ (change node).numslots = node.numslots)
    (known : (s.modify n change).node? m = some later) :
    ∃ node, s.node? m = some node ∧ later.slots = node.slots ∧ later.numslots = node.numslots := by
  obtain ⟨node, before, rfl | rfl⟩ := known_of_modify known
  · exact ⟨node, before, keeps node⟩
  · exact ⟨later, before, rfl, rfl⟩

theorem Quiet.modify (s : State) (n : NodeId) (change : Node → Node)
    (keeps : ∀ node, (change node).slots = node.slots ∧ (change node).numslots = node.numslots ∧
      Older node (change node)) :
    Quiet s (s.modify n change) :=
  ⟨⟨rfl, fun _ node known => known_modify known (keeps node).2.2 (.refl node)⟩, rfl,
    fun _ _ known => .inl (slots_of_modify (fun node => ⟨(keeps node).1, (keeps node).2.1⟩) known)⟩

/-- A change that moves no slot, lowers no epoch and keeps the role is calm. -/
theorem Calm.modify (s : State) (n : NodeId) (change : Node → Node)
    (keeps : ∀ node, (change node).slots = node.slots ∧ (change node).numslots = node.numslots ∧
      Older node (change node))
    (role : ∀ node, ((change node).master, (change node).slave) = (node.master, node.slave)) :
    Calm s (s.modify n change) := ⟨.modify s n change keeps, role_modify fun _ => role⟩

theorem Calm.clusterAddNode (linked : Linked loose s) (master slave handshake : Bool) :
    Calm s (s.clusterAddNode (createClusterNode master slave handshake)) := by
  have fresh := linked.fresh s.nextId (le_refl _)
  obtain ⟨me, here, _⟩ := linked.me
  refine ⟨⟨⟨rfl, fun _ node known => ⟨node, known_clusterAddNode fresh _ known, .refl node⟩⟩, rfl, ?_⟩,
    (role_of_known (known_clusterAddNode fresh _ here)).trans (role_of_known here).symm⟩
  intro n later known
  rw [node?_clusterAddNode fresh] at known
  split at known
  · rename_i new
    subst new
    obtain rfl := some.inj known
    exact .inr ⟨fresh, rfl, rfl⟩
  · exact .inl ⟨later, known, rfl, rfl⟩

/-- The tables stay consistent when the owner of every slot stays, and the bits of every node. -/
theorem Consistent.of_kept (consistent : Consistent s) (same : t.slots = s.slots)
    (stays : ∀ n node, s.node? n = some node → ∃ later, t.node? n = some later)
    (kept : ∀ n later, t.node? n = some later →
      (∃ node, s.node? n = some node ∧ later.slots = node.slots ∧ later.numslots = node.numslots) ∨
        s.node? n = none ∧ later.slots = 0 ∧ later.numslots = 0) :
    Consistent t := by
  refine ⟨?_, ?_, ?_⟩
  · intro n later known slot
    rw [same]
    obtain ⟨node, known, slots, _⟩ | ⟨unknown, slots, _⟩ := kept n later known
    · rw [slots]
      exact consistent.bits n node known slot
    · -- A new node does not own anything, since owners were known before.
      rw [slots]
      refine ⟨fun set => absurd set (by simp), fun owned => ?_⟩
      obtain ⟨node, known⟩ := consistent.owners slot n owned
      exact absurd (unknown.symm.trans known) (by simp)
  · intro n later known
    obtain ⟨node, known, slots, numslots⟩ | ⟨_, slots, numslots⟩ := kept n later known
    · rw [numslots, slots]
      exact consistent.counts n node known
    · rw [numslots, slots]
      exact (congrArg Int.ofNat countSlots_zero).symm
  · intro slot n owned
    rw [same] at owned
    obtain ⟨node, known⟩ := consistent.owners slot n owned
    exact stays n node known

/-- A quiet step moves no slot. -/
theorem Consistent.quiet (consistent : Consistent s) (quiet : Quiet s t) : Consistent t :=
  consistent.of_kept quiet.slots
    (fun n node known => (quiet.nodes n node known).imp fun _ => And.left) quiet.kept

/-! ### Replicas and their masters -/

theorem Linked.of_same (linked : Linked loose s)
    (same : (t.nodes, t.nextId, t.myself) = (s.nodes, s.nextId, s.myself)) : Linked loose t := by
  obtain ⟨nodes, nextId, myself⟩ : _ ∧ _ ∧ _ := by simpa using same
  have same : t.node? = s.node? := funext fun n => by rw [State.node?, nodes, State.node?]
  exact ⟨by rw [same, myself]; exact linked.me, by rw [same, nextId]; exact linked.fresh,
    by rw [same]; exact linked.listed⟩

/-- A change that drops no replica and follows no new master keeps the links. -/
theorem Linked.modify (linked : Linked loose s) (n : NodeId) (change : Node → Node)
    (keeps : ∀ node, (node.handshake = false → (change node).handshake = false) ∧
      ∀ other, some other ≠ loose → other ∈ node.slaves → other ∈ (change node).slaves)
    (follows : some n = loose ∨ ∀ node master, (change node).slaveof = some master → node.slaveof =
      some master) :
    Linked loose (s.modify n change) := by
  refine ⟨?_, ?_, ?_⟩
  · obtain ⟨node, known, calm⟩ := linked.me
    exact known_modify known ((keeps node).1 calm) calm
  · intro m later
    rw [node?_modify, linked.fresh m later]
    split <;> rfl
  intro m later master known followed tight
  -- The replica has the master it had before, and that one still lists it.
  obtain ⟨node, before, same⟩ : ∃ node, s.node? m = some node ∧ node.slaveof = some master := by
    obtain free | keeps := follows
    · rw [node?_modify, if_neg fun same : m = n => tight (same ▸ free)] at known
      exact ⟨later, known, followed⟩
    · obtain ⟨node, before, rfl | rfl⟩ := known_of_modify known
      · exact ⟨node, before, keeps node master followed⟩
      · exact ⟨later, before, followed⟩
  obtain ⟨masterNode, there, member⟩ := linked.listed m node master before same tight
  exact known_modify there ((keeps masterNode).2 m tight member) member

theorem Linked.loosen (linked : Linked none s) (loose : Option NodeId) :
    Linked loose s :=
  ⟨linked.me, linked.fresh, fun n node master known followed _ =>
    linked.listed n node master known followed (by simp)⟩

/-- A node that is listed at its master again is no longer loose. -/
theorem Linked.tighten (linked : Linked (some n) s)
    (listed : ∀ node master, s.node? n = some node → node.slaveof = some master → ∃ masterNode,
      s.node? master = some masterNode ∧ n ∈ masterNode.slaves) :
    Linked none s := by
  refine ⟨linked.me, linked.fresh, ?_⟩
  intro m node master known followed _
  by_cases same : m = n
  · subst same
    exact listed node master known followed
  · exact linked.listed m node master known followed (by simpa using same)

theorem Linked.clusterAddNode (linked : Linked loose s) (master slave handshake : Bool) :
    Linked loose (s.clusterAddNode (createClusterNode master slave handshake)) := by
  have unknown := linked.fresh s.nextId (le_refl _)
  refine ⟨?_, ?_, ?_⟩
  · obtain ⟨node, known, calm⟩ := linked.me
    exact ⟨node, known_clusterAddNode unknown _ known, calm⟩
  · intro n (later : s.nextId + 1 ≤ n)
    rw [node?_clusterAddNode unknown, if_neg (Nat.ne_of_gt later)]
    exact linked.fresh n (Nat.le_of_succ_le later)
  intro n node followed known slaveof tight
  rw [node?_clusterAddNode unknown] at known
  split at known
  · obtain rfl := some.inj known
    exact absurd slaveof (by simp [createClusterNode])
  · obtain ⟨masterNode, there, member⟩ := linked.listed n node followed known slaveof tight
    exact ⟨masterNode, known_clusterAddNode unknown _ there, member⟩

/-- The faults that have nothing to do with the tables. -/
def Tolerated : Fault → Prop
  | .delSlot | .slotBusy | .dangling => False
  | .setMaster | .nameTaken | .nullMaster | .freedReplica => True

/-- These faults, but not those of `clusterSetMaster` where it is called as it should be. -/
def Spared (strict : Bool) : Fault → Prop
  | .setMaster => strict = false
  | fault => Tolerated fault

variable {permitted : Fault → Prop} {strict : Bool}

def SameMasters (s t : State) : Prop :=
  ∀ m later, t.node? m = some later → ∃ node, s.node? m = some node ∧ later.slaveof = node.slaveof

theorem SameMasters.refl (s : State) : SameMasters s s := fun _ later known => ⟨later, known, rfl⟩

theorem SameMasters.modify (s : State) (n : NodeId) (change : Node → Node)
    (follows : ∀ node, (change node).slaveof = node.slaveof) :
    SameMasters s (s.modify n change) := by
  intro m later known
  obtain ⟨node, before, rfl | rfl⟩ := known_of_modify known
  · exact ⟨node, before, follows node⟩
  · exact ⟨later, before, rfl⟩

/-- Listing a replica at a master never faults, and the replica is listed afterwards. -/
theorem clusterNodeAddSlave_meets (linked : Linked loose s) {master : NodeId}
    (known : s.node? master = some node) (slave : NodeId) :
    Meets (clusterNodeAddSlave s master slave) permitted fun t =>
      Linked loose t ∧ Calm s t ∧ SameMasters s t ∧
        ∃ later, t.node? master = some later ∧ slave ∈ later.slaves := by
  rw [clusterNodeAddSlave, node_of_known known, ok_bind, meets_pure]
  -- A replica that is listed already changes nothing.
  refine ⟨linked.modify master _ ?_ (.inr ?_), .modify s master _ ?_ ?_, .modify s master _ ?_, ?_⟩
  · intro node
    split
    · exact ⟨id, fun _ _ => id⟩
    · exact ⟨id, fun _ _ => mem_append_left _⟩
  · intro node followed
    split <;> exact id
  · intro node
    split <;> exact ⟨rfl, rfl, le_refl _, id⟩
  · intro node
    split <;> rfl
  · intro node
    split <;> rfl
  · refine ⟨_, node?_modify_self known _, ?_⟩
    split
    · assumption
    · exact mem_append_right _ (mem_singleton.mpr rfl)

/-- Leaving the master makes the node loose and changes no other link. -/
theorem leaveMaster_meets (linked : Linked none s) (known : s.node? n = some node) :
    Meets (leaveMaster s n) permitted fun t => Linked (some n) t ∧ Calm s t ∧ SameMasters s t := by
  rw [leaveMaster, node_of_known known, ok_bind]
  cases followed : node.slaveof with
  | none => exact ⟨linked.loosen _, .refl s, .refl s⟩
  | some master =>
    obtain ⟨masterNode, there, _⟩ := linked.listed n node master known followed (by simp)
    dsimp only
    rw [clusterNodeRemoveSlave, node_of_known there, ok_bind, meets_pure]
    -- Only one replica is taken off the list, and it is the one that stands apart.
    exact ⟨(linked.loosen (some n)).modify master _ (fun _ => ⟨id, fun _ apart =>
      (mem_erase_of_ne (by simpa using apart)).mpr⟩) (.inr fun _ _ => id),
      .modify s master _ (fun _ => ⟨rfl, rfl, le_refl _, id⟩) fun _ => rfl,
      .modify s master _ fun _ => rfl⟩

/-- A promoted node keeps its slots; a promotion of this node is the only change of its role. -/
theorem clusterSetNodeAsMaster_meets (linked : Linked none s) (known : s.node? n = some node) :
    Meets (clusterSetNodeAsMaster s n) permitted fun t => Linked none t ∧ Quiet s t ∧
      (t.role = s.role ∧ (n = s.myself → node.master = true) ∨
        t.role = (s.myself, some (true, false))) := by
  rw [clusterSetNodeAsMaster, node_of_known known, ok_bind]
  refine .ite (fun master => ⟨linked, .refl s, .inl ⟨rfl, fun _ => master⟩⟩) fun _ => ?_
  refine (leaveMaster_meets linked known).bind ?_
  rintro t ⟨loose, calm, _⟩
  have freed := loose.modify n (fun node =>
    { node with slave := false, master := true, slaveof := none })
    (fun _ => ⟨id, fun _ _ => id⟩) (.inl rfl)
  obtain ⟨middle, there, _⟩ := calm.nodes n node known
  refine ⟨freed.tighten ?_,
    calm.toQuiet.trans (.modify t n _ fun _ => ⟨rfl, rfl, le_refl _, id⟩), ?_⟩
  · -- It has no master now.
    intro later master found slaveof
    rw [node?_modify_self there] at found
    obtain rfl := some.inj found
    exact absurd slaveof (by simp)
  · by_cases mine : n = t.myself
    · right
      rw [← calm.myself]
      subst mine
      exact role_of_known (node?_modify_self there _)
    · exact .inl ⟨(role_modify fun same => absurd same mine).trans calm.role, fun same =>
        absurd (same.trans calm.myself.symm) mine⟩

/-- This node becomes a replica only when it serves no slot. -/
theorem clusterSetMaster_meets {me : Node} (linked : Linked none s)
    (here : s.node? s.myself = some me) (known : s.node? n = some node)
    (fits : strict = true → n ≠ s.myself ∧ me.numslots = 0) :
    Meets (clusterSetMaster s n) (Spared strict) fun t => Linked none t ∧ Quiet s t ∧
      me.numslots = 0 ∧ t.role = (s.myself, some (false, me.master || me.slave)) := by
  rw [clusterSetMaster, node_of_known here, ok_bind]
  refine .ite (fun unfit => ?_) fun fit => ?_
  · exact Bool.eq_false_iff.mpr fun strictly => unfit.elim (fits strictly).1 (absurd (fits strictly).2)
  rw [not_or, not_not] at fit
  -- In both cases this node stands apart until it is listed with its new master.
  refine Meets.bind (show Meets _ _ fun t => Linked (some s.myself) t ∧ Quiet s t ∧
    t.role = (s.myself, some (false, me.master || me.slave)) from
      .ite (fun master => ?_) fun replica => ?_) ?_
  · let changed := s.modify s.myself fun node => { node with master := false, slave := true }
    have loose : Linked none changed :=
      linked.modify s.myself _ (fun _ => ⟨id, fun _ _ => id⟩) (.inr fun _ _ => id)
    have quiet : Quiet s changed := .modify s s.myself _ fun _ => ⟨rfl, rfl, le_refl _, id⟩
    have closed : Calm changed (clusterCloseAllSlots changed) := .of_same rfl
    refine ⟨(loose.loosen _).of_same rfl, quiet.trans closed.toQuiet, closed.role.trans ?_⟩
    rw [master]
    exact role_of_known (node?_modify_self here _)
  · refine (leaveMaster_meets linked here).mono fun t met => ⟨met.1, met.2.1.toQuiet, ?_⟩
    rw [met.2.1.role, role_of_known here, Bool.eq_false_iff.mpr replica]
    rfl
  rintro t ⟨loose, quiet, role⟩
  have moved := loose.modify t.myself (fun node => { node with slaveof := some n })
    (fun _ => ⟨id, fun _ _ => id⟩) (.inl (by rw [quiet.myself]))
  have step := Calm.modify t t.myself (fun node => { node with slaveof := some n })
    (fun _ => ⟨rfl, rfl, le_refl _, id⟩) fun _ => rfl
  obtain ⟨target, there, _⟩ := (quiet.trans step.toQuiet).nodes n node known
  refine (clusterNodeAddSlave_meets moved there _).mono ?_
  rintro u ⟨linked, added, same, later, there, member⟩
  have added := step.trans added
  refine ⟨linked.tighten ?_, quiet.trans added.toQuiet, fit.2, added.role.trans role⟩
  intro node master found slaveof
  -- The master it follows is the new one.
  obtain ⟨middle, here, _⟩ := quiet.nodes _ _ here
  obtain ⟨before, found, unchanged⟩ := same _ node found
  rw [← quiet.myself] at here found
  rw [node?_modify_self here] at found
  obtain rfl := some.inj found
  obtain rfl : master = n := some.inj (slaveof.symm.trans unchanged)
  exact ⟨later, there, by rw [← quiet.myself]; exact member⟩

theorem Sound.quiet (sound : Sound s) (linked : Linked none t) (quiet : Quiet s t) :
    Sound t := ⟨sound.consistent.quiet quiet, linked⟩

/-- A step that gives this node no slot keeps a replica without slots. -/
theorem Obedient.of_role (obedient : Obedient s) (role : t.role = s.role)
    (fewer : ∀ slot, t.slots slot = some s.myself → s.slots slot = some s.myself) : Obedient t := by
  have myself : t.myself = s.myself := congrArg Prod.fst role
  rw [Obedient, role, myself]
  exact obedient.imp_right (·.imp_right fun without slot owned => without slot (fewer slot owned))

/-- A calm step keeps everything that is asked of a state. -/
theorem Safe.calm (safe : Safe strict s) (linked : Linked none t) (calm : Calm s t) : Safe strict t :=
  ⟨safe.toSound.quiet linked calm.toQuiet, fun strictly =>
    (safe.obedient strictly).of_role calm.role fun slot => by rw [calm.slots]; exact id⟩

theorem Sound.of_same (sound : Sound s) (same : (t.nodes, t.slots, t.nextId, t.myself) =
    (s.nodes, s.slots, s.nextId, s.myself)) : Sound t := by
  obtain ⟨nodes, slots, nextId, myself⟩ : _ ∧ _ ∧ _ ∧ _ := by simpa using same
  exact sound.quiet (sound.linked.of_same (by rw [nodes, nextId, myself]))
    (.of_same (by rw [nodes, slots, myself]))

theorem Sound.modify (sound : Sound s) (n : NodeId) (change : Node → Node)
    (keeps : ∀ node, (change node).slots = node.slots ∧ (change node).numslots = node.numslots ∧
      (change node).slaveof = node.slaveof ∧ (change node).slaves = node.slaves ∧
      (node.handshake = false → (change node).handshake = false)) :
    Sound (s.modify n change) := by
  have linked := sound.linked.modify n change
    (fun node => ⟨(keeps node).2.2.2.2, fun _ _ member => (keeps node).2.2.2.1.symm ▸ member⟩)
    (.inr fun node _ followed => (keeps node).2.2.1.symm.trans followed)
  refine ⟨sound.consistent.of_kept rfl (fun _ _ known => ?_) fun _ _ known => .inl ?_, linked⟩
  · rw [node?_modify, known]
    split <;> exact ⟨_, rfl⟩
  · exact slots_of_modify (fun node => ⟨(keeps node).1, (keeps node).2.1⟩) known

end LearningNotes.Cluster.SlotTable
