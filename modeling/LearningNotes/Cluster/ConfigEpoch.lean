import LearningNotes.Cluster.SlotInvariant
import LearningNotes.Lib.Cascade
import LearningNotes.Lib.Maps

/-! Masters with the same configuration epoch: collisions are resolved, and come to an end. -/

namespace LearningNotes.Cluster

open Lib List

variable {ι : Type}

/-- What a master keeps; names are ordered as by `memcmp`. -/
structure Master (ι : Type) where
  currentEpoch : Nat
  configEpoch : Nat
  -- The `configEpoch` of the other masters, as far as it knows.
  known : ι → Nat

structure Header (ι : Type) where
  sender : ι
  currentEpoch : Nat
  configEpoch : Nat

section Processing

variable [LinearOrder ι]

/-- `clusterHandleConfigEpochCollision`, for masters: whether it acts. -/
def clusterHandleConfigEpochCollision (myself : ι) (node : Master ι) (sender : ι) :
    Bool × Master ι :=
  if node.known sender ≠ node.configEpoch then (false, node)
  else if sender ≤ myself then (false, node)
  else
    (true, { node with
      currentEpoch := nextEpoch node.currentEpoch, configEpoch := nextEpoch node.currentEpoch })

/-- Take over the epochs of a header that are newer. -/
def learnEpochs (node : Master ι) (hdr : Header ι) : Master ι :=
  { node with
    currentEpoch := max node.currentEpoch hdr.currentEpoch
    known := fun other =>
      if other = hdr.sender then max (node.known other) hdr.configEpoch else node.known other }

/-- The part of `clusterProcessPacket` about epochs. -/
def processHeader (myself : ι) (node : Master ι) (hdr : Header ι) : Bool × Master ι :=
  let node := learnEpochs node hdr
  if hdr.configEpoch = node.configEpoch then
    clusterHandleConfigEpochCollision myself node hdr.sender
  else (false, node)

/-- All masters, and the headers that were ever sent. -/
structure Masters (ι : Type) where
  nodes : ι → Master ι
  sent : List (Header ι)

inductive HeaderAction (ι : Type) where
  | send (sender : ι)
  | deliver (receiver : ι) (i : Nat)

structure Processed (ι : Type) where
  receiver : ι
  sender : ι
  configEpoch : Nat
  fired : Bool

def Masters.set (system : Masters ι) (i : ι) (node : Master ι) : Masters ι :=
  { system with nodes := fun j => if j = i then node else system.nodes j }

def headerStep (system : Masters ι) : HeaderAction ι → Option (Processed ι) × Masters ι
  | .send sender =>
    let node := system.nodes sender
    (none, { system with sent := system.sent ++ [⟨sender, node.currentEpoch, node.configEpoch⟩] })
  | .deliver receiver i =>
    match system.sent[i]? with
    | none => (none, system)
    | some hdr =>
      if hdr.sender = receiver then (none, system)
      else
        let (fired, node) := processHeader receiver (system.nodes receiver) hdr
        (some ⟨receiver, hdr.sender, hdr.configEpoch, fired⟩, system.set receiver node)

def headerRun : Masters ι → List (HeaderAction ι) → List (Processed ι) × Masters ι
  | system, [] => ([], system)
  | system, action :: actions =>
    let (event, system) := headerStep system action
    let (events, system) := headerRun system actions
    (event.toList ++ events, system)

/-- No current epoch has reached the largest one, which would wrap around. -/
def Bounded (system : Masters ι) : Prop := ∀ i, (system.nodes i).currentEpoch < 2 ^ 64 - 1

def BoundedRun : Masters ι → List (HeaderAction ι) → Prop
  | system, [] => Bounded system
  | system, action :: actions => Bounded system ∧ BoundedRun (headerStep system action).2 actions

def firings (events : List (Processed ι)) (i : ι) : Nat :=
  events.countP fun event => event.fired && event.receiver = i

/-- No configuration epoch is above the current one, nor any header above its sender. -/
structure Masters.Sound (system : Masters ι) : Prop where
  epochs : ∀ i, (system.nodes i).configEpoch ≤ (system.nodes i).currentEpoch
  headers : ∀ hdr ∈ system.sent, hdr.configEpoch ≤ hdr.currentEpoch ∧
    hdr.currentEpoch ≤ (system.nodes hdr.sender).currentEpoch ∧
    hdr.configEpoch ≤ (system.nodes hdr.sender).configEpoch
  knowledge : ∀ r s, r ≠ s → (system.nodes r).known s ≤ (system.nodes s).configEpoch

end Processing

/-! ### The epochs in the table of nodes -/

namespace SlotTable

variable {s t : State} {node me : Node} {hdr : Header} {n : NodeId}

/-- What a table of nodes says about the epochs of the masters. -/
def epochsOf (currentEpoch : Nat) (myself : NodeId) (node? : NodeId → Option Node) :
    Master NodeId where
  currentEpoch := currentEpoch
  configEpoch := ((node? myself).map Node.configEpoch).getD 0
  known n := if n = myself then 0 else ((node? n).map Node.configEpoch).getD 0

def State.epochs (s : State) : Master NodeId := epochsOf s.currentEpoch s.myself s.node?

/-- The table after a node has changed, and the current epoch. -/
theorem epochs_modify (current : Nat) (change : Node → Node) (known : s.node? n = some node) :
    ({ s with currentEpoch := current }.modify n change).epochs =
      epochsOf current s.myself fun m => if m = n then some (change node) else s.node? m :=
  congrArg (epochsOf current s.myself)
    (funext (node?_modify_known (s := { s with currentEpoch := current }) known change))

/-- A packet of a known master teaches the table what its header teaches the master. -/
theorem learnEpochs_epochs (known : s.node? hdr.sender = some node) (named : node.handshake = false)
    (other : hdr.sender ≠ s.myself) :
    (learnEpochs s hdr).1.epochs =
      Cluster.learnEpochs s.epochs ⟨hdr.sender, hdr.currentEpoch, hdr.configEpoch⟩ := by
  rw [learnEpochs, known]
  simp only [named, Bool.false_eq_true, if_false, epochs_modify _ _ known]
  simp only [Cluster.learnEpochs, State.epochs, epochsOf, Ne.symm other, if_false, Master.mk.injEq,
    true_and]
  -- The sender's epoch is all that changes.
  funext n
  by_cases same : n = hdr.sender
  · simp [same, other, known]
  · simp [same]

/-- So do both resolve a collision with a known master alike, whatever the order of the names is. -/
theorem clusterHandleConfigEpochCollision_epochs [names : LinearOrder NodeId]
    (greater : hdr.greaterName = true ↔ names.lt s.myself n) (here : s.node? s.myself = some me)
    (known : s.node? n = some node) (other : n ≠ s.myself) (masters : me.master ∧ node.master)
    (handled : clusterHandleConfigEpochCollision s n hdr = .ok t) :
    t.epochs = (Cluster.clusterHandleConfigEpochCollision s.myself s.epochs n).2 := by
  have mine : s.epochs.configEpoch = me.configEpoch := by simp [State.epochs, epochsOf, here]
  have theirs : s.epochs.known n = node.configEpoch := by
    simp [State.epochs, epochsOf, other, known]
  rw [Cluster.clusterHandleConfigEpochCollision, mine, theirs]
  simp only [clusterHandleConfigEpochCollision, node_of_known here, node_of_known known, ok_bind,
    masters.1, masters.2, not_true, or_false] at handled
  split at handled
  · rename_i differ
    rw [if_pos differ, ← Except.ok.inj handled]
  rename_i same
  rw [if_neg same]
  split at handled
  · rename_i smaller
    rw [if_pos ((@not_lt _ names _ _).mp fun above => smaller (greater.mpr above)),
      ← Except.ok.inj handled]
  · rename_i larger
    rw [if_neg (@not_le_of_gt _ names.toPreorder _ _ (greater.mp (not_not.mp larger))),
      ← Except.ok.inj handled, epochs_modify _ _ here]
    -- The epochs of the others are as they were.
    simp only [State.epochs, epochsOf, if_true, Option.map_some, Option.getD_some, Master.mk.injEq,
      true_and]
    funext m
    by_cases myself : m = s.myself <;> simp [myself]

end SlotTable

section Steps

variable [LinearOrder ι]

theorem processHeader_cases (myself : ι) (node : Master ι) (hdr : Header ι) :
    (processHeader myself node hdr = (false, learnEpochs node hdr) ∧
      (hdr.configEpoch = node.configEpoch → myself < hdr.sender →
        (learnEpochs node hdr).known hdr.sender ≠ node.configEpoch)) ∨
    (processHeader myself node hdr = (true, { learnEpochs node hdr with
        currentEpoch := nextEpoch (learnEpochs node hdr).currentEpoch
        configEpoch := nextEpoch (learnEpochs node hdr).currentEpoch }) ∧
      hdr.configEpoch = node.configEpoch ∧ myself < hdr.sender) := by
  rw [processHeader]
  by_cases same : hdr.configEpoch = node.configEpoch
  · rw [if_pos (show hdr.configEpoch = (learnEpochs node hdr).configEpoch from same),
      clusterHandleConfigEpochCollision]
    split
    · rename_i differ
      exact .inl ⟨rfl, fun _ _ => differ⟩
    split
    · rename_i smaller
      exact .inl ⟨rfl, fun _ larger => absurd smaller (not_le_of_gt larger)⟩
    · rename_i larger
      exact .inr ⟨rfl, same, lt_of_not_ge larger⟩
  · rw [if_neg (show ¬ hdr.configEpoch = (learnEpochs node hdr).configEpoch from same)]
    exact .inl ⟨rfl, fun equal => absurd equal same⟩

structure Grows (system : Masters ι) (i : ι) (node : Master ι) : Prop where
  current : (system.nodes i).currentEpoch ≤ node.currentEpoch
  config : (system.nodes i).configEpoch ≤ node.configEpoch
  epochs : node.configEpoch ≤ node.currentEpoch
  knowledge : ∀ s, i ≠ s → node.known s ≤ (system.nodes s).configEpoch

variable {system : Masters ι} {hdr : Header ι}

section

variable {r : ι} {node : Master ι} (grows : Grows system r node)
include grows

theorem Grows.currentEpoch_le (i : ι) :
    (system.nodes i).currentEpoch ≤ ((system.set r node).nodes i).currentEpoch :=
  forall_changed (P := fun i (node : Master ι) => (system.nodes i).currentEpoch ≤ node.currentEpoch)
    grows.current (fun _ => Nat.le_refl _) i

theorem Grows.configEpoch_le (i : ι) :
    (system.nodes i).configEpoch ≤ ((system.set r node).nodes i).configEpoch :=
  forall_changed (P := fun i (node : Master ι) => (system.nodes i).configEpoch ≤ node.configEpoch)
    grows.config (fun _ => Nat.le_refl _) i

theorem Masters.Sound.set (sound : system.Sound) : (system.set r node).Sound := by
  refine ⟨?_, ?_, ?_⟩
  · exact forall_changed (P := fun _ (node : Master ι) => node.configEpoch ≤ node.currentEpoch)
      grows.epochs sound.epochs
  · intro hdr listed
    obtain ⟨ordered, current, said⟩ := sound.headers hdr listed
    exact ⟨ordered, Nat.le_trans current (grows.currentEpoch_le _),
      Nat.le_trans said (grows.configEpoch_le _)⟩
  · intro i s differ
    refine Nat.le_trans ?_ (grows.configEpoch_le s)
    exact forall_changed (P := fun i (node : Master ι) => i ≠ s → node.known s ≤ _)
      (grows.knowledge s) (sound.knowledge · s) i differ

end

theorem learnEpochs_grows (sound : system.Sound) (listed : hdr ∈ system.sent) (i : ι) :
    Grows system i (learnEpochs (system.nodes i) hdr) := by
  refine ⟨Nat.le_max_left _ _, Nat.le_refl _, ?_, ?_⟩
  · exact Nat.le_trans (sound.epochs i) (Nat.le_max_left _ _)
  intro s differ
  change (if s = hdr.sender then max ((system.nodes i).known s) hdr.configEpoch
    else (system.nodes i).known s) ≤ _
  split
  · rename_i same
    rw [same]
    exact Nat.max_le.mpr ⟨sound.knowledge i _ (same ▸ differ), (sound.headers hdr listed).2.2⟩
  · exact sound.knowledge i s differ

theorem learnEpochs_bounded (sound : system.Sound) (bounded : Bounded system)
    (listed : hdr ∈ system.sent) (i : ι) :
    nextEpoch (learnEpochs (system.nodes i) hdr).currentEpoch =
      (learnEpochs (system.nodes i) hdr).currentEpoch + 1 := by
  have own := bounded i
  have sender := bounded hdr.sender
  have said := (sound.headers hdr listed).2.1
  apply Nat.mod_eq_of_lt
  change max (system.nodes i).currentEpoch hdr.currentEpoch + 1 < 2 ^ 64
  omega

end Steps

section History

variable [LinearOrder ι]

/-- The epochs in which each master collided, always with larger names, and took instead. -/
structure History (system : Masters ι) (start : ι → Nat) (events : List (Processed ι))
    (collided assigned : ι → List Nat) : Prop where
  distinct : ∀ i, (collided i).Nodup
  below : ∀ i, ∀ epoch ∈ collided i, epoch < (system.nodes i).configEpoch
  source : ∀ i, ∀ epoch ∈ collided i, ∃ s, i < s ∧ (epoch ≤ start s ∨ epoch ∈ assigned s)
  headers : ∀ hdr ∈ system.sent,
    hdr.configEpoch ≤ start hdr.sender ∨ hdr.configEpoch ∈ assigned hdr.sender
  present : ∀ i, (system.nodes i).configEpoch ≤ start i ∨ (system.nodes i).configEpoch ∈ assigned i
  count : ∀ i, (collided i).length = firings events i ∧ (assigned i).length = firings events i
  -- A header that was processed in vain is not one of a present collision.
  settled : ∀ event ∈ events, event.fired = false → event.receiver < event.sender →
    event.configEpoch ≤ (system.nodes event.receiver).currentEpoch ∧
      ((system.nodes event.receiver).configEpoch = event.configEpoch →
        event.configEpoch < (system.nodes event.sender).configEpoch)

variable {system : Masters ι} {start : ι → Nat} {events : List (Processed ι)}
  {collided assigned : ι → List Nat}

theorem History.send (history : History system start events collided assigned) (sender : ι) :
    History (headerStep system (.send sender)).2 start events collided assigned :=
  { history with
    headers :=
      forall_mem_append.mpr ⟨history.headers, forall_mem_singleton.mpr (history.present sender)⟩ }

variable {event : Processed ι} {hdr : Header ι} {r : ι}

theorem firings_append_idle (idle : event.fired = false) (i : ι) :
    firings (events ++ [event]) i = firings events i := by
  rw [firings, countP_append, countP_singleton, idle, Bool.false_and,
    if_neg Bool.false_ne_true, Nat.add_zero, firings]

theorem firings_append_fired (fired : event.fired = true) (i : ι) :
    firings (events ++ [event]) i = firings events i + if event.receiver = i then 1 else 0 := by
  rw [firings, countP_append, countP_singleton, fired, Bool.true_and, firings]
  simp only [decide_eq_true_eq]

section

variable (history : History system start events collided assigned)
include history

theorem History.idle
    (sound : system.Sound) (listed : hdr ∈ system.sent) (other : hdr.sender ≠ r)
    (vain : hdr.configEpoch = (system.nodes r).configEpoch → r < hdr.sender → (learnEpochs
      (system.nodes r) hdr).known hdr.sender ≠ (system.nodes r).configEpoch) :
    History (system.set r (learnEpochs (system.nodes r) hdr)) start
      (events ++ [⟨r, hdr.sender, hdr.configEpoch, false⟩]) collided assigned := by
  -- No configuration epoch has changed.
  have config : ∀ i, ((system.set r (learnEpochs (system.nodes r) hdr)).nodes i).configEpoch =
      (system.nodes i).configEpoch :=
    forall_changed (P := fun i (node : Master ι) => node.configEpoch =
      (system.nodes i).configEpoch) rfl fun _ => rfl
  have current := (learnEpochs_grows sound listed r).currentEpoch_le
  refine { history with below := ?_, present := ?_, count := ?_, settled := ?_ }
  · intro i epoch past
    rw [config]
    exact history.below i epoch past
  · intro i
    rw [config]
    exact history.present i
  · intro i
    rw [firings_append_idle rfl]
    exact history.count i
  intro event either idle smaller
  rcases mem_append.mp either with old | new
  · obtain ⟨reached, apart⟩ := history.settled event old idle smaller
    rw [config, config]
    exact ⟨Nat.le_trans reached (current _), apart⟩
  rw [mem_singleton.mp new] at smaller ⊢
  obtain ⟨ordered, _, said⟩ := sound.headers hdr listed
  dsimp only at smaller ⊢
  rw [config, config]
  refine ⟨?_, fun equal => ?_⟩
  · change _ ≤ (if r = r then _ else system.nodes r).currentEpoch
    rw [if_pos rfl]
    exact Nat.le_trans ordered (Nat.le_max_right _ _)
  -- The receiver knew of a later epoch already.
  have differ := vain equal.symm smaller
  change (if hdr.sender = hdr.sender then max ((system.nodes r).known hdr.sender)
    hdr.configEpoch else _) ≠ _ at differ
  rw [if_pos rfl] at differ
  have known := sound.knowledge r hdr.sender (Ne.symm other)
  omega

/-- The master that takes a new epoch leaves what was said about the headers processed in vain:
the epoch is later than all that it has heard of. -/
theorem History.settled_fire (epochs : (system.nodes r).configEpoch ≤ (system.nodes r).currentEpoch)
    {node : Master ι} (current : (system.nodes r).currentEpoch < node.currentEpoch)
    (config : node.configEpoch = node.currentEpoch) (past : event ∈ events)
    (idle : event.fired = false) (smaller : event.receiver < event.sender) :
    event.configEpoch ≤ ((system.set r node).nodes event.receiver).currentEpoch ∧
      (((system.set r node).nodes event.receiver).configEpoch = event.configEpoch →
        event.configEpoch < ((system.set r node).nodes event.sender).configEpoch) := by
  obtain ⟨reached, apart⟩ := history.settled event past idle smaller
  change _ ≤ (if event.receiver = r then node else system.nodes event.receiver).currentEpoch ∧
    ((if event.receiver = r then node else system.nodes event.receiver).configEpoch = _ →
      _ < (if event.sender = r then node else system.nodes event.sender).configEpoch)
  by_cases same : event.receiver = r
  · rw [if_pos same]
    rw [same] at reached
    exact ⟨by omega, fun equal => by omega⟩
  · rw [if_neg same]
    refine ⟨reached, fun equal => ?_⟩
    have := apart equal
    split
    · rename_i same'
      rw [same'] at this
      omega
    · exact this

theorem History.below_fire (epochs : (system.nodes r).configEpoch ≤ (system.nodes r).currentEpoch)
    {node : Master ι} (current : (system.nodes r).currentEpoch < node.currentEpoch)
    (config : node.configEpoch = node.currentEpoch) {i : ι} {epoch : Nat}
    (past : epoch ∈ if i = r then (system.nodes r).configEpoch :: collided i else collided i) :
    epoch < ((system.set r node).nodes i).configEpoch := by
  change epoch < (if i = r then node else system.nodes i).configEpoch
  split at past
  · rename_i same
    rw [if_pos same]
    rcases mem_cons.mp past with now | old
    · omega
    · have := history.below i epoch old
      rw [same] at this
      omega
  · rename_i differ
    rw [if_neg differ]
    exact history.below i epoch past

theorem History.fire (sound : system.Sound) (listed : hdr ∈ system.sent)
    (collides : hdr.configEpoch = (system.nodes r).configEpoch) (larger : r < hdr.sender)
    {node : Master ι} (current : (system.nodes r).currentEpoch < node.currentEpoch)
    (config : node.configEpoch = node.currentEpoch) :
    History (system.set r node) start (events ++ [⟨r, hdr.sender, hdr.configEpoch, true⟩])
      (fun i => if i = r then (system.nodes r).configEpoch :: collided i else collided i)
      (fun i => if i = r then node.configEpoch :: assigned i else assigned i) := by
  have epochs := sound.epochs r
  have kept : ∀ i epoch, epoch ∈ assigned i →
      epoch ∈ if i = r then node.configEpoch :: assigned i else assigned i := by
    intro i epoch old
    split
    · exact mem_cons_of_mem _ old
    · exact old
  refine ⟨?_, fun i epoch => history.below_fire epochs current config, ?_, ?_, ?_, ?_, ?_⟩
  · intro i
    split
    · rename_i same
      refine nodup_cons.mpr ⟨fun past => ?_, history.distinct i⟩
      have := history.below i _ past
      rw [same] at this
      omega
    · exact history.distinct i
  · intro i epoch past
    -- The epoch of the collision is one that the sender has said.
    have old : epoch ∈ collided i → ∃ s, i < s ∧ (epoch ≤ start s ∨
        epoch ∈ if s = r then node.configEpoch :: assigned s else assigned s) := by
      intro before
      obtain ⟨s, above, from_⟩ := history.source i epoch before
      exact ⟨s, above, from_.imp_right (kept s epoch)⟩
    split at past
    · rename_i same
      rcases mem_cons.mp past with now | before
      · refine ⟨hdr.sender, same ▸ larger, ?_⟩
        rw [now, ← collides]
        exact (history.headers hdr listed).imp_right (kept hdr.sender _)
      · exact old before
    · exact old past
  · intro other listed'
    exact (history.headers other listed').imp_right (kept _ _)
  · intro i
    change (if i = r then node else system.nodes i).configEpoch ≤ _ ∨
      (if i = r then node else system.nodes i).configEpoch ∈ _
    split
    · exact .inr (by simp)
    · exact history.present i
  · intro i
    obtain ⟨collisions, assignments⟩ := history.count i
    rw [firings_append_fired rfl]
    by_cases same : i = r
    · rw [if_pos same, if_pos same, if_pos same.symm, length_cons, length_cons,
        collisions, assignments]
      exact ⟨rfl, rfl⟩
    · rw [if_neg same, if_neg same, if_neg (Ne.symm same)]
      exact ⟨collisions, assignments⟩
  · intro event either idle smaller
    rcases mem_append.mp either with past | new
    · exact history.settled_fire epochs current config past idle smaller
    · rw [mem_singleton.mp new] at idle
      cases idle

theorem History.step (sound : system.Sound) (bounded : Bounded system) (action : HeaderAction ι) :
    (headerStep system action).2.Sound ∧
      (∀ i, (system.nodes i).configEpoch ≤ ((headerStep system action).2.nodes i).configEpoch) ∧
      ∃ collided' assigned', History (headerStep system action).2 start
        (events ++ (headerStep system action).1.toList) collided' assigned' := by
  cases action with
  | send sender =>
    refine ⟨⟨sound.epochs, ?_, sound.knowledge⟩, fun _ => Nat.le_refl _, collided, assigned, ?_⟩
    · exact forall_mem_append.mpr ⟨sound.headers, forall_mem_singleton.mpr
        ⟨sound.epochs sender, Nat.le_refl _, Nat.le_refl _⟩⟩
    · rw [show (headerStep system (.send sender)).1.toList = [] from rfl, append_nil]
      exact history.send sender
  | deliver r i =>
    rw [headerStep]
    cases there : system.sent[i]? with
    | none =>
      rw [show (none : Option (Processed ι)).toList = [] from rfl, append_nil]
      exact ⟨sound, fun _ => Nat.le_refl _, collided, assigned, history⟩
    | some hdr =>
      have listed : hdr ∈ system.sent := mem_of_getElem? there
      dsimp only
      split
      · rw [show (none : Option (Processed ι)).toList = [] from rfl, append_nil]
        exact ⟨sound, fun _ => Nat.le_refl _, collided, assigned, history⟩
      rename_i other
      have learned := learnEpochs_grows sound listed r
      rcases processHeader_cases r (system.nodes r) hdr with
        ⟨processed, vain⟩ | ⟨processed, collides, larger⟩
      · rw [processed]
        exact ⟨sound.set learned, learned.configEpoch_le, collided, assigned,
          history.idle sound listed other vain⟩
      rw [processed, learnEpochs_bounded sound bounded listed]
      have ahead := learned.current
      have grows : Grows system r { learnEpochs (system.nodes r) hdr with
          currentEpoch := (learnEpochs (system.nodes r) hdr).currentEpoch + 1
          configEpoch := (learnEpochs (system.nodes r) hdr).currentEpoch + 1 } :=
        ⟨Nat.le_succ_of_le ahead, Nat.le_succ_of_le (Nat.le_trans (sound.epochs r) ahead),
          Nat.le_refl _, learned.knowledge⟩
      exact ⟨sound.set grows, grows.configEpoch_le, _, _,
        history.fire sound listed collides larger (Nat.lt_succ_of_le ahead) rfl⟩

omit history in
theorem History.run (actions : List (HeaderAction ι)) {system : Masters ι}
    {events : List (Processed ι)} {collided assigned : ι → List Nat}
    (history : History system start events collided assigned) (sound : system.Sound)
    (bounded : BoundedRun system actions) :
    (headerRun system actions).2.Sound ∧
    (∀ i, (system.nodes i).configEpoch ≤ ((headerRun system actions).2.nodes i).configEpoch) ∧
    ∃ collided' assigned', History (headerRun system actions).2 start
      (events ++ (headerRun system actions).1) collided' assigned' := by
  induction actions generalizing system events collided assigned with
  | nil =>
    rw [show (headerRun system []).1 = [] from rfl, append_nil]
    exact ⟨sound, fun _ => Nat.le_refl _, collided, assigned, history⟩
  | cons action actions ih =>
    obtain ⟨sound', grown, collided', assigned', history'⟩ := history.step sound bounded.1 action
    obtain ⟨sound'', grown', collided'', assigned'', history''⟩ := ih history' sound' bounded.2
    refine ⟨sound'', fun i => Nat.le_trans (grown i) (grown' i), collided'', assigned'', ?_⟩
    rw [append_assoc] at history''
    exact history''

omit history in
theorem History.begin (system : Masters ι) (sound : system.Sound) :
    History system (fun i => (system.nodes i).configEpoch) [] (fun _ => []) (fun _ => []) where
  distinct := fun _ => nodup_nil
  below := fun _ _ past => by cases past
  source := fun _ _ past => by cases past
  headers := fun hdr listed => .inl (sound.headers hdr listed).2.2
  present := fun _ => .inl (Nat.le_refl _)
  count := fun _ => ⟨rfl, rfl⟩
  settled := fun _ past => by cases past

theorem History.firings_le [Fintype ι] (i : ι) :
    firings events i ≤ ∑ s ∈ Finset.univ.filter (i < ·), (start s + 1 + firings events s) := by
  have inside : (collided i).toFinset ⊆ (Finset.univ.filter (i < ·)).biUnion fun s =>
      Finset.range (start s + 1) ∪ (assigned s).toFinset := by
    intro epoch past
    obtain ⟨s, larger, from_⟩ := history.source i epoch (mem_toFinset.mp past)
    refine Finset.mem_biUnion.mpr ⟨s, Finset.mem_filter.mpr ⟨Finset.mem_univ s, larger⟩, ?_⟩
    rw [Finset.mem_union, Finset.mem_range, mem_toFinset]
    exact from_.imp_left Nat.lt_succ_of_le
  calc firings events i
      = (collided i).toFinset.card := by
        rw [toFinset_card_of_nodup (history.distinct i), (history.count i).1]
    _ ≤ _ := Finset.card_le_card inside
    _ ≤ _ := Finset.card_biUnion_le
    _ ≤ _ := Finset.sum_le_sum fun s _ => by
        refine Nat.le_trans (Finset.card_union_le _ _) ?_
        rw [Finset.card_range, ← (history.count s).2]
        exact Nat.add_le_add_left (toFinset_card_le _) _

end

end History

section Resolution

variable [LinearOrder ι]

theorem headerRun_append (before after : List (HeaderAction ι)) (system : Masters ι) :
    (headerRun system (before ++ after)).2 =
      (headerRun (headerRun system before).2 after).2 := by
  induction before generalizing system with
  | nil => rfl
  | cons action before ih =>
    exact ih _

variable {before after : List (HeaderAction ι)} {system : Masters ι}

theorem BoundedRun.drop (bounded : BoundedRun system (before ++ after)) :
    BoundedRun (headerRun system before).2 after := by
  induction before generalizing system with
  | nil => exact bounded
  | cons action before ih => exact ih bounded.2

theorem BoundedRun.take (bounded : BoundedRun system (before ++ after)) :
    BoundedRun system before := by
  induction before generalizing system with
  | nil =>
    cases after with
    | nil => exact bounded
    | cons action after => exact bounded.1
  | cons action before ih => exact ⟨bounded.1, ih bounded.2⟩

/--
Collisions of configuration epochs are resolved.

There is a bound on the number of times that masters act on a collision, in all runs; epochs do not
decrease; and when all masters have heard of all others in vain, their epochs are different.
-/
theorem collisions_resolve [Fintype ι] (system : Masters ι) (sound : system.Sound) :
    ∃ bound, ∀ actions, BoundedRun system actions →
      ∑ i, firings (headerRun system actions).1 i ≤ bound ∧
      (∀ before after, actions = before ++ after → ∀ i,
        ((headerRun system before).2.nodes i).configEpoch ≤
          ((headerRun system actions).2.nodes i).configEpoch) ∧
      (∀ i, ((headerRun system actions).2.nodes i).configEpoch ≤
        ((headerRun system actions).2.nodes i).currentEpoch) ∧
      ((∀ r s, r ≠ s → ∃ event ∈ (headerRun system actions).1, event.receiver = r ∧
          event.sender = s ∧ event.fired = false ∧
          event.configEpoch = ((headerRun system actions).2.nodes s).configEpoch) →
        Function.Injective fun i => ((headerRun system actions).2.nodes i).configEpoch) := by
  -- The bound comes from the order of the names.
  obtain ⟨bound, bounds⟩ := bounded_of_cascade
    (fun (run : { actions // BoundedRun system actions }) i =>
      firings (headerRun system run.1).1 i)
    (fun s => (system.nodes s).configEpoch + 1) (by
      rintro ⟨actions, bounded⟩ i
      obtain ⟨_, _, _, _, history⟩ := (History.begin system sound).run actions sound bounded
      exact history.firings_le i)
  refine ⟨bound, fun actions bounded => ?_⟩
  obtain ⟨sound', _, _, _, history⟩ := (History.begin system sound).run actions sound bounded
  refine ⟨bounds ⟨actions, bounded⟩, ?_, sound'.epochs, ?_⟩
  · rintro before after rfl i
    obtain ⟨middle, _⟩ := (History.begin system sound).run before sound bounded.take
    obtain ⟨_, grown, _⟩ := (History.begin _ middle).run after middle bounded.drop
    rw [headerRun_append]
    exact grown i
  intro heard
  -- Of two masters with one epoch, the one with the smaller name would have acted.
  have apart : ∀ r s, r < s → ((headerRun system actions).2.nodes r).configEpoch ≠
      ((headerRun system actions).2.nodes s).configEpoch := by
    intro r s smaller equal
    obtain ⟨event, listed, rfl, rfl, idle, present⟩ := heard r s (ne_of_lt smaller)
    have later := (history.settled event listed idle smaller).2 (equal.trans present.symm)
    rw [present] at later
    exact Nat.lt_irrefl _ later
  intro r s equal
  rcases lt_trichotomy r s with smaller | same | larger
  · exact absurd equal (apart r s smaller)
  · exact same
  · exact absurd equal.symm (apart s r larger)

end Resolution

section Examples

def twoMasters (epoch : Nat) : Masters (Fin 2) := ⟨fun _ => ⟨epoch, epoch, fun _ => 0⟩, []⟩

theorem twoMasters_sound (epoch : Nat) : (twoMasters epoch).Sound where
  epochs := fun _ => Nat.le_refl _
  headers := forall_mem_nil _
  knowledge := fun _ _ _ => Nat.zero_le _

instance BoundedRun.decidable : ∀ (system : Masters (Fin 2)) (actions : List (HeaderAction (Fin 2))),
    Decidable (BoundedRun system actions)
  | system, [] => inferInstanceAs (Decidable (∀ i, (system.nodes i).currentEpoch < 2 ^ 64 - 1))
  | system, action :: actions =>
    have := BoundedRun.decidable (headerStep system action).2 actions
    inferInstanceAs (Decidable ((∀ i, (system.nodes i).currentEpoch < 2 ^ 64 - 1) ∧ _))

def exchange : List (HeaderAction (Fin 2)) :=
  [.send 0, .send 1, .deliver 0 1, .deliver 1 0, .send 0, .deliver 1 2, .deliver 0 1]

theorem exchange_resolves :
    (twoMasters 0).Sound ∧ BoundedRun (twoMasters 0) exchange ∧
      Function.Injective fun i =>
        ((headerRun (twoMasters 0) exchange).2.nodes i).configEpoch := by
  have bounded : BoundedRun (twoMasters 0) exchange := by decide +kernel
  obtain ⟨bound, resolves⟩ := collisions_resolve (twoMasters 0) (twoMasters_sound 0)
  refine ⟨twoMasters_sound 0, bounded, (resolves exchange bounded).2.2.2 ?_⟩
  decide +kernel

/-- In the largest epoch, a collision makes the configuration epoch start again from zero. -/
theorem epoch_wraps_around :
    ¬ ∀ system : Masters (Fin 2), system.Sound → (∀ i, (system.nodes i).currentEpoch < 2 ^ 64) →
      ∀ (actions : List (HeaderAction (Fin 2))) (i : Fin 2),
        (system.nodes i).configEpoch ≤ ((headerRun system actions).2.nodes i).configEpoch := by
  intro grows
  have small : ∀ i, ((twoMasters (2 ^ 64 - 1)).nodes i).currentEpoch < 2 ^ 64 := by decide
  have step := grows (twoMasters (2 ^ 64 - 1)) (twoMasters_sound _) small [.send 1, .deliver 0 0] 0
  revert step
  decide +kernel

end Examples

end LearningNotes.Cluster
