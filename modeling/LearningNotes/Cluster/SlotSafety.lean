import LearningNotes.Cluster.SlotInvariant

/-! The tables about the slots agree with each other, whatever happens to a node. -/

namespace LearningNotes.Cluster.SlotTable

open Lib List Option

/-! ### Slots -/

variable {s t : State} {n sender : NodeId} {node me : Node} {slot : Slot} {strict : Bool}
  {permitted : Fault → Prop}

theorem ne_some_of_mine {entry : Option NodeId} {m : NodeId} (mine : entry = none ∨ entry = some n)
    (different : m ≠ n) : entry ≠ some m := by
  rintro rfl
  obtain none | same := mine
  · cases none
  · exact different (some.inj same)

/-- One bit of a node changes together with the entry of the slot. -/
theorem Consistent.rebind (consistent : Consistent s) (known : s.node? n = some node)
    (changed : Node) {entry : Option NodeId}
    (nodes : ∀ m, t.node? m = if m = n then some changed else s.node? m)
    (slots : t.slots = assign s.slots slot entry)
    (before : s.slots slot = none ∨ s.slots slot = some n) (after : entry = none ∨ entry = some n)
    (here : bitmapTestBit changed.slots slot = true ↔ entry = some n)
    (elsewhere : ∀ other, other ≠ slot → bitmapTestBit changed.slots other = bitmapTestBit
      node.slots other) (count : changed.numslots = countSlots changed.slots) : Consistent t := by
  refine ⟨?_, ?_, ?_⟩
  · intro m later found other
    rw [nodes] at found
    rw [slots, assign]
    split at found
    · -- The node itself: the bit of the slot agrees by assumption.
      rename_i same
      subst same
      obtain rfl := some.inj found
      split
      · rename_i same
        rw [same]
        exact here
      · rename_i different
        rw [elsewhere other different]
        exact consistent.bits m node known other
    · -- Another node: it neither had the slot nor gets it.
      rename_i different
      have bits := consistent.bits m later found other
      split
      · rename_i same
        rw [bits, same]
        exact iff_of_false (ne_some_of_mine before different) (ne_some_of_mine after different)
      · exact bits
  · intro m later found
    rw [nodes] at found
    split at found
    · obtain rfl := some.inj found
      exact count
    · exact consistent.counts m later found
  · intro other m owned
    rw [slots, assign] at owned
    rw [nodes]
    split
    · exact ⟨changed, rfl⟩
    rename_i different
    split at owned
    · exact absurd owned (ne_some_of_mine after different)
    · exact consistent.owners other m owned

theorem Consistent.give (consistent : Consistent s) (known : s.node? n = some node)
    (free : s.slots slot = none) :
    Consistent { s.modify n fun node => clusterNodeSetSlotBit node slot with
      slots := assign s.slots slot (some n) } := by
  have clear : bitmapTestBit node.slots slot = false := by
    rw [← Bool.not_eq_true, consistent.bits n node known slot, free]
    simp
  have counted := consistent.counts n node known
  refine consistent.rebind known (clusterNodeSetSlotBit node slot)
    (node?_modify_known known fun node => clusterNodeSetSlotBit node slot) rfl (.inl free)
    (.inr rfl) ?_ ?_ ?_
  · simp [clusterNodeSetSlotBit]
  · intro other different
    simp [clusterNodeSetSlotBit, different]
  · simp [clusterNodeSetSlotBit, clear, countSlots_setBit clear, counted]

theorem Consistent.take (consistent : Consistent s) (known : s.node? n = some node)
    (owned : s.slots slot = some n) :
    Consistent { s.modify n fun node => clusterNodeClearSlotBit node slot with
      slots := assign s.slots slot none } := by
  have set : bitmapTestBit node.slots slot = true := (consistent.bits n node known slot).mpr owned
  have counted := consistent.counts n node known
  have fewer := countSlots_clearBit set
  refine consistent.rebind known (clusterNodeClearSlotBit node slot)
    (node?_modify_known known fun node => clusterNodeClearSlotBit node slot) rfl (.inr owned)
    (.inl rfl) ?_ ?_ ?_
  · simp [clusterNodeClearSlotBit]
  · intro other different
    simp [clusterNodeClearSlotBit, different]
  · simp only [clusterNodeClearSlotBit, set, if_true]
    omega

theorem Steady.modify_slots (s : State) (n : NodeId) {change : Node → Node}
    (table : Slot → Option NodeId) (grows : ∀ node, Older node (change node))
    (role : ∀ node, ((change node).master, (change node).slave) = (node.master, node.slave)) :
    Steady s { s.modify n change with slots := table } :=
  ⟨⟨rfl, fun _ node known => known_modify known (grows node) (.refl node)⟩,
    role_modify (s := s) (n := n) fun _ => role⟩

theorem clusterAddSlot_meets (sound : Sound s) (known : s.node? n = some node) (slot : Slot) :
    Meets (clusterAddSlot s n slot) permitted fun result =>
      Sound result.2 ∧ Steady s result.2 ∧ result.1 = (s.slots slot).isNone ∧
        result.2.slots = if (s.slots slot).isSome then s.slots else assign s.slots slot (some n) := by
  rw [clusterAddSlot]
  split
  · rename_i busy
    exact ⟨sound, .refl s, by simp [isNone_eq_false_iff.mpr busy], rfl⟩
  rename_i free
  have free : s.slots slot = none := by simpa using free
  rw [node_of_known known, ok_bind, meets_pure]
  have linked := sound.linked.modify n (fun node => clusterNodeSetSlotBit node slot)
    (fun _ => ⟨id, fun _ _ => id⟩) (.inr fun _ _ => id)
  exact ⟨⟨sound.consistent.give known free, linked.of_same rfl⟩,
    .modify_slots s n _ (fun _ => ⟨le_refl _, id⟩) fun _ => rfl, by rw [free]; rfl, rfl⟩

theorem clusterDelSlot_meets (sound : Sound s) (slot : Slot) :
    Meets (clusterDelSlot s slot) permitted fun result =>
      Sound result.2 ∧ Steady s result.2 ∧ result.1 = (s.slots slot).isSome ∧
        result.2.slots = assign s.slots slot none := by
  rw [clusterDelSlot]
  cases owned : s.slots slot with
  | none =>
    refine ⟨sound, .refl s, rfl, ?_⟩
    funext other
    by_cases here : other = slot
    · rw [assign, if_pos here, here, owned]
    · rw [assign, if_neg here]
  | some n =>
    -- The owner is known and has the bit set, so that the assertion holds.
    obtain ⟨node, known⟩ := sound.consistent.owners slot n owned
    have set := (sound.consistent.bits n node known slot).mpr owned
    dsimp only
    rw [node_of_known known, ok_bind, if_pos set, meets_pure]
    have linked := sound.linked.modify n (fun node => clusterNodeClearSlotBit node slot)
      (fun _ => ⟨id, fun _ _ => id⟩) (.inr fun _ _ => id)
    exact ⟨⟨sound.consistent.take known owned, linked.of_same rfl⟩,
      .modify_slots s n _ (fun _ => ⟨le_refl _, id⟩) fun _ => rfl, rfl, rfl⟩

theorem moveSlot_meets (sound : Sound s) (known : s.node? n = some node) (slot : Slot) :
    Meets (moveSlot s n slot) permitted fun t =>
      Sound t ∧ Steady s t ∧ t.slots = assign s.slots slot (some n) := by
  refine (clusterDelSlot_meets sound slot).bind ?_
  rintro released ⟨sound, steady, _, slots⟩
  obtain ⟨node, known, _⟩ := steady.nodes n node known
  refine (clusterAddSlot_meets sound known slot).bind ?_
  rintro bound ⟨sound, steady', _, slots'⟩
  refine ⟨sound, steady.trans steady', ?_⟩
  -- The slot is free in between, so that it can be added.
  have free : released.2.slots slot = none := by rw [slots, assign, if_pos rfl]
  funext other
  rw [slots', free, slots]
  by_cases here : other = slot <;> simp [assign, here]

theorem mem_allSlots (slot : Slot) : slot ∈ allSlots := by
  simp only [allSlots, mem_finRange]

/-- A node has lost its slots, and no other slot its owner. -/
def Released (n : NodeId) (s t : State) : Prop :=
  ∀ slot, t.slots slot = if s.slots slot = some n then none else s.slots slot

theorem Released.fewer (released : Released n s t) (slot : Slot) {m : NodeId}
    (owned : t.slots slot = some m) : s.slots slot = some m := by
  rw [released] at owned
  split at owned
  · cases owned
  · exact owned

theorem Released.ne (released : Released n s t) (slot : Slot) : t.slots slot ≠ some n := by
  rw [released]
  split
  · simp
  · assumption

/-- The slots that have been gone through are released. -/
def ReleasedUpTo (n : NodeId) (finished : List Slot) (s t : State) : Prop :=
  ∀ slot, t.slots slot = if slot ∈ finished ∧ s.slots slot = some n then none else s.slots slot

theorem ReleasedUpTo.released (upTo : ReleasedUpTo n allSlots s t) : Released n s t := by
  intro slot
  rw [upTo slot]
  simp only [mem_allSlots, true_and]

theorem ReleasedUpTo.start (n : NodeId) (s : State) : ReleasedUpTo n [] s s := by
  intro slot
  simp

theorem ReleasedUpTo.next {finished : List Slot} {u : State} (upTo : ReleasedUpTo n finished s t)
    (slots : u.slots = if t.slots slot = some n then assign t.slots slot none else t.slots) :
    ReleasedUpTo n (finished ++ [slot]) s u := by
  intro other
  have before := upTo other
  rw [slots]
  by_cases here : other = slot
  · subst here
    -- Its entry is the old one, or was released before.
    by_cases owned : s.slots other = some n
    · by_cases early : other ∈ finished
      · simp [before, early]
      · simp [before, owned, early, assign]
    · simp [before, owned]
  · have same : (if t.slots slot = some n then assign t.slots slot none else t.slots) other =
        t.slots other := by
      split
      · rw [assign, if_neg here]
      · rfl
    simp [same, before, here]

theorem releaseRound_meets {finished : List Slot} {owned : Prop} [Decidable owned] (sound : Sound t)
    (steady : Steady s t) (upTo : ReleasedUpTo n finished s t)
    (same : owned ↔ t.slots slot = some n) :
    Meets (do if owned then return (← clusterDelSlot t slot).2 else return t) permitted fun u =>
      Sound u ∧ Steady s u ∧ ReleasedUpTo n (finished ++ [slot]) s u := by
  refine .ite (fun owns => ?_) fun other =>
    ⟨sound, steady, upTo.next (by rw [if_neg (mt same.mpr other)])⟩
  refine (clusterDelSlot_meets sound slot).bind ?_
  rintro result ⟨sound, steady', _, slots⟩
  exact ⟨sound, steady.trans steady', upTo.next (by rw [if_pos (same.mp owns), slots])⟩

theorem clusterDelNodeSlots_meets (sound : Sound s) (known : s.node? n = some node) :
    Meets (clusterDelNodeSlots s n) permitted fun t => Sound t ∧ Steady s t ∧ Released n s t := by
  -- The loop keeps the tables sound, and has released the slots it has passed.
  refine (Meets.foldlM (fun finished t => Sound t ∧ Steady s t ∧ ReleasedUpTo n finished s t)
    ⟨sound, .refl s, .start n s⟩ ?_).mono fun t met => ⟨met.1, met.2.1, met.2.2.released⟩
  rintro finished slot _ t _ ⟨sound, steady, upTo⟩
  obtain ⟨node, known, _⟩ := steady.nodes n node known
  rw [node_of_known known, ok_bind]
  exact releaseRound_meets sound steady upTo (sound.consistent.bits n node known slot)

theorem forgetMaster_meets (linked : Linked none s) (known : s.node? n = some node) :
    Meets (node.slaves.foldlM (fun s slave =>
      match s.node? slave with
      | none => throw Fault.freedReplica
      | some _ => return s.modify slave fun node => { node with slaveof := none }) s) (Spared strict)
      fun t => Linked none t ∧ Calm s t ∧
        ∀ m later, t.node? m = some later → later.slaveof ≠ some n := by
  -- Whoever still follows the node did so before, and has not been gone through.
  refine (Meets.foldlM (fun finished t => Linked none t ∧ Calm s t ∧
    ∀ m later, t.node? m = some later → later.slaveof = some n →
      m ∉ finished ∧ ∃ before, s.node? m = some before ∧ before.slaveof = some n)
    ⟨linked, .refl s, fun m later found followed => ⟨by simp, later, found, followed⟩⟩ ?_).mono ?_
  · rintro finished slave _ t _ ⟨linked, calm, following⟩
    cases found : t.node? slave with
    | none => trivial
    | some replica =>
      refine ⟨linked.modify slave _ (fun _ => ⟨id, fun _ _ => id⟩)
        (.inr fun _ _ followed => absurd followed (by simp)),
        calm.trans (.modify t slave _ (fun _ => ⟨rfl, rfl, le_refl _, id⟩) fun _ => rfl), ?_⟩
      intro m later there followed
      rw [node?_modify_known found] at there
      split at there
      · obtain rfl := some.inj there
        exact absurd followed (by simp)
      · rename_i different
        obtain ⟨notYet, before⟩ := following m later there followed
        exact ⟨by simp [notYet, different], before⟩
  · rintro t ⟨linkedAfter, calm, following⟩
    refine ⟨linkedAfter, calm, ?_⟩
    intro m later found followed
    -- It was listed, so that it has been gone through.
    obtain ⟨notYet, before, there, followedBefore⟩ := following m later found followed
    obtain ⟨master, same, member⟩ := linked.listed m before n there followedBefore (by simp)
    obtain rfl := some.inj (known.symm.trans same)
    exact notYet member

theorem freeClusterNode_meets (sound : Sound s) (known : s.node? n = some node)
    (other : n ≠ s.myself) (empty : ∀ slot, s.slots slot ≠ some n) :
    Meets (freeClusterNode s n) (Spared strict) fun t =>
      Sound t ∧ t.slots = s.slots ∧ t.role = s.role := by
  rw [freeClusterNode, node_of_known known, ok_bind]
  refine (forgetMaster_meets sound.linked known).bind ?_
  rintro t ⟨linked, calm, forgotten⟩
  obtain ⟨node, known, _⟩ := calm.nodes n node known
  rw [node_of_known known, ok_bind]
  -- The node leaves its own master, if it is flagged as a replica.
  refine Meets.bind (.ite (fun _ => leaveMaster_meets linked known)
    fun _ => ⟨linked.loosen _, .refl t, .refl t⟩) ?_
  rintro u ⟨loose, calm', same⟩
  have calm := calm.trans calm'
  have consistent := sound.consistent.quiet calm.toQuiet
  have mine : ({ u with nodes := u.nodes.filter fun entry => entry.1 ≠ n } : State).node? u.myself =
      u.node? u.myself := by
    rw [node?_filter, if_neg (calm.myself ▸ Ne.symm other)]
  refine ⟨⟨⟨?_, ?_, ?_⟩, ⟨?_, ?_, ?_⟩⟩, calm.slots, ?_⟩
  · intro m later found slot
    rw [node?_filter] at found
    split at found
    · cases found
    · exact consistent.bits m later found slot
  · intro m later found
    rw [node?_filter] at found
    split at found
    · cases found
    · exact consistent.counts m later found
  · intro slot m owned
    rw [node?_filter, if_neg]
    · exact consistent.owners slot m owned
    · rintro rfl
      exact empty slot (calm.slots ▸ owned)
  · obtain ⟨me, here, calm⟩ := loose.me
    exact ⟨me, mine.trans here, calm⟩
  · intro m later
    rw [node?_filter, loose.fresh m later]
    split <;> rfl
  · intro m later master found followed _
    rw [node?_filter] at found
    split at found
    · cases found
    rename_i different
    -- Nobody follows the node that is freed.
    obtain ⟨masterNode, there, member⟩ :=
      loose.listed m later master found followed (by simpa using different)
    refine ⟨masterNode, ?_, member⟩
    rw [node?_filter, if_neg, there]
    rintro rfl
    obtain ⟨before, found, unchanged⟩ := same m later found
    exact forgotten m before found (unchanged ▸ followed)
  · rw [← calm.role]
    exact congrArg (fun me : Option Node => (u.myself, me.map fun me => (me.master, me.slave))) mine

theorem clusterDelNode_meets (sound : Sound s) (known : s.node? n = some node)
    (other : n ≠ s.myself) :
    Meets (clusterDelNode s n) (Spared strict) fun t =>
      Sound t ∧ Released n s t ∧ t.role = s.role := by
  refine ((Meets.foldlM (fun finished t => Sound t ∧ Steady s t ∧ ReleasedUpTo n finished s t)
    ⟨sound, .refl s, .start n s⟩ ?_).mono
      fun t met => (⟨met.1, met.2.1, met.2.2.released⟩ : Sound t ∧ Steady s t ∧ Released n s t)).bind ?_
  · rintro finished slot _ t _ ⟨sound, steady, upTo⟩
    -- The slots in transit do not matter.
    dsimp only
    split <;> split <;> exact releaseRound_meets (sound.of_same rfl)
      ⟨⟨steady.myself, steady.nodes⟩, steady.role⟩ upTo .rfl
  · rintro t ⟨sound, steady, released⟩
    obtain ⟨node, known, _⟩ := steady.nodes n node known
    refine (freeClusterNode_meets sound known (steady.myself ▸ other) released.ne).mono ?_
    rintro u ⟨sound, slots, role⟩
    exact ⟨sound, fun slot => by rw [slots, released slot], role.trans steady.role⟩

/-! ### Claims -/

/-- A node has got slots that were free or of older configurations. -/
def Claimed (claimant : NodeId) (epoch : Nat) (s t : State) : Prop :=
  ∀ slot, t.slots slot = s.slots slot ∨
    t.slots slot = some claimant ∧ ∀ owner node, s.slots slot = some owner →
      s.node? owner = some node → node.configEpoch < epoch

theorem Claimed.of_same {claimant : NodeId} {epoch : Nat} (slots : t.slots = s.slots) :
    Claimed claimant epoch s t := fun _ => .inl (by rw [slots])

theorem claimSlot_meets {epoch : Nat} (slots : Bitmap) (curmaster : Option NodeId)
    (known : s.node? sender = some node) (tally : Tally) (sound : Sound t) (steady : Steady s t)
    (claimed : Claimed sender epoch s t) (slot : Slot) :
    Meets (claimSlot sender epoch slots curmaster (t, tally) slot) permitted fun result =>
      Sound result.1 ∧ Steady s result.1 ∧ Claimed sender epoch s result.1 := by
  have skip : ∀ tally : Tally, Meets (.ok (t, tally)) permitted fun result =>
      Sound result.1 ∧ Steady s result.1 ∧ Claimed sender epoch s result.1 :=
    fun tally => ⟨sound, steady, claimed⟩
  refine .ite (fun _ => .ite (fun _ => skip _) fun notMine => .ite (fun _ => skip _) fun _ => ?_)
    fun _ => skip _
  -- The owner in between is the one from the start, since the sender does not have the slot.
  have same : t.slots slot = s.slots slot := by
    obtain same | ⟨mine, _⟩ := claimed slot
    · exact same
    · exact absurd mine notMine
  refine Meets.bind (?_ : Meets _ permitted fun older => older = true → ∀ owner node,
    s.slots slot = some owner → s.node? owner = some node → node.configEpoch < epoch) ?_
  · rw [same]
    cases owned : s.slots slot with
    | none => exact fun _ owner node owns => absurd owns (by simp)
    | some owner =>
      obtain ⟨ownerNode, there⟩ := sound.consistent.owners slot owner (same.trans owned)
      dsimp only
      rw [node_of_known there, ok_bind, meets_pure]
      intro less other node owns found
      obtain rfl := some.inj owns
      obtain ⟨laterNode, there', grown⟩ := steady.nodes owner node found
      obtain rfl := some.inj (there.symm.trans there')
      exact lt_of_le_of_lt grown.epoch (of_decide_eq_true less)
  intro result older
  refine .ite (fun isOlder => ?_) fun _ => skip _
  obtain ⟨node, known, _⟩ := steady.nodes sender node known
  refine (moveSlot_meets sound known slot).bind ?_
  rintro u ⟨sound, steady', moved⟩
  refine ⟨sound, steady.trans steady', ?_⟩
  intro other
  by_cases here : other = slot
  · subst here
    exact .inr ⟨by rw [moved, assign, if_pos rfl], older isOlder⟩
  · have kept : u.slots other = t.slots other := by rw [moved, assign, if_neg here]
    rw [kept]
    exact claimed other

theorem Sound.numslots_eq_zero_iff (sound : Sound s) (known : s.node? n = some node) :
    node.numslots = 0 ↔ ∀ slot, s.slots slot ≠ some n := by
  simp only [sound.consistent.counts n node known, ← sound.consistent.bits n node known, countSlots,
    Int.natCast_eq_zero, Finset.card_eq_zero, Finset.filter_eq_empty_iff, Finset.mem_univ, true_imp_iff,
    ne_eq]

theorem clusterSetMaster_safe (safe : Safe strict s) (here : s.node? s.myself = some me)
    (known : s.node? n = some node) (other : n ≠ s.myself)
    (leads : me.master = true → me.numslots = 0) :
    Meets (clusterSetMaster s n) (Spared strict) fun t => Safe strict t ∧ Quiet s t := by
  have roles : strict = true → me.numslots = 0 ∧ (me.master || me.slave) = true := by
    intro strictly
    have obedient := safe.obedient strictly
    rw [Obedient, role_of_known here] at obedient
    simp only [Prod.mk.injEq, true_and, some.injEq] at obedient
    obtain ⟨master, _⟩ | ⟨⟨_, slave⟩, without⟩ := obedient
    · exact ⟨leads master, by rw [master]; rfl⟩
    · exact ⟨(safe.numslots_eq_zero_iff here).mpr without, by rw [slave, Bool.or_true]⟩
  refine (clusterSetMaster_meets safe.linked here known fun strictly =>
    ⟨other, (roles strictly).1⟩).mono ?_
  rintro t ⟨linked, quiet, empty, role⟩
  refine ⟨⟨safe.toSound.quiet linked quiet, fun strictly => .inr ⟨?_, ?_⟩⟩, quiet⟩
  · rw [role, (roles strictly).2, quiet.myself]
  · rw [quiet.slots, quiet.myself]
    exact (safe.numslots_eq_zero_iff here).mp empty

theorem clusterUpdateSlotsConfigWith_meets (config : Config) (safe : Safe strict s)
    (known : s.node? sender = some node) (epoch : Nat) (slots : Bitmap) :
    Meets (clusterUpdateSlotsConfigWith config s sender epoch slots) (Spared strict) fun t =>
      Safe strict t ∧ Later s t ∧ Claimed sender epoch s t := by
  have linked := safe.linked
  obtain ⟨me, here, _⟩ := linked.me
  simp only [clusterUpdateSlotsConfigWith, node_of_known here, ok_bind]
  refine .ite (fun _ => ⟨safe, .refl s, .of_same rfl⟩) fun other => ?_
  refine (Meets.foldlM (fun _ (result : State × Tally) =>
    Sound result.1 ∧ Steady s result.1 ∧ Claimed sender epoch s result.1)
    ⟨safe.toSound, .refl s, .of_same rfl⟩ ?_).bind ?_
  · rintro _ slot _ ⟨t, tally⟩ _ ⟨sound, steady, claimed⟩
    exact claimSlot_meets slots _ known tally sound steady claimed slot
  rintro ⟨t, tally⟩ ⟨sound, steady, claimed⟩
  -- The sender is another node, so that this one has got nothing.
  have safe : Safe strict t := by
    refine ⟨sound, fun strictly => (safe.obedient strictly).of_role steady.role fun slot owned => ?_⟩
    obtain same | ⟨gained, _⟩ := claimed slot
    · exact same ▸ owned
    · exact absurd (some.inj (gained.symm.trans owned)) other
  have done : Safe strict t ∧ Later s t ∧ Claimed sender epoch s t := ⟨safe, steady.toLater, claimed⟩
  refine .ite (fun _ => done) fun _ => .ite (fun _ => ?_) fun _ => done
  -- The master of this node has lost slots, unless it is unknown.
  split
  · trivial
  rename_i curmaster master
  obtain ⟨me', here', _⟩ := safe.linked.me
  have role := steady.role
  rw [role_of_known here, role_of_known here'] at role
  simp only [Prod.mk.injEq, some.injEq] at role
  obtain ⟨masterNode, there, leads⟩ : ∃ masterNode, t.node? curmaster = some masterNode ∧
      (me'.master = true → masterNode = me') := by
    split at master
    · obtain rfl := some.inj master
      exact ⟨me', role.1 ▸ here', fun _ => rfl⟩
    · obtain ⟨_, there, _⟩ := linked.listed _ _ _ here master (by simp)
      obtain ⟨later, there, _⟩ := steady.nodes _ _ there
      exact ⟨later, there, fun isMaster => absurd (role.2.1.symm.trans isMaster) ‹_›⟩
  rw [node_of_known there, ok_bind]
  refine .ite (fun lost => ?_) fun _ => done
  obtain ⟨senderNode, known, _⟩ := steady.nodes sender node known
  refine (clusterSetMaster_safe safe here' known (role.1 ▸ other) fun isMaster =>
    leads isMaster ▸ lost.1).mono ?_
  rintro u ⟨safe, quiet⟩
  refine ⟨safe, steady.toLater.trans quiet.toLater, ?_⟩
  intro slot
  rw [quiet.slots]
  exact claimed slot

/-! ### Packets -/

section Steps

variable (safe : Safe strict s)
include safe

theorem Safe.modify (n : NodeId) (change : Node → Node)
    (keeps : ∀ node, (change node).slots = node.slots ∧ (change node).numslots = node.numslots ∧
      (change node).slaveof = node.slaveof ∧ (change node).slaves = node.slaves ∧
      (node.handshake = false → (change node).handshake = false))
    (role : n = s.myself → ∀ node,
      ((change node).master, (change node).slave) = (node.master, node.slave)) :
    Safe strict (s.modify n change) :=
  ⟨safe.toSound.modify n change keeps, fun strictly =>
    (safe.obedient strictly).of_role (role_modify role) fun _ => id⟩

theorem Safe.of_same (same : (t.nodes, t.slots, t.nextId, t.myself) =
    (s.nodes, s.slots, s.nextId, s.myself)) : Safe strict t := by
  simp only [Prod.mk.injEq] at same
  exact safe.calm (safe.linked.of_same (by simp [same])) (.of_same (by simp [same]))

theorem learnEpochs_safe (hdr : Header) :
    Safe strict (learnEpochs s hdr).1 ∧ Quiet s (learnEpochs s hdr).1 ∧
      (learnEpochs s hdr).2 ≤ hdr.configEpoch := by
  unfold learnEpochs
  split
  · exact ⟨safe, .refl s, Nat.zero_le _⟩
  split
  · exact ⟨safe, .refl s, Nat.zero_le _⟩
  have learned : Safe strict { s with currentEpoch := max s.currentEpoch hdr.currentEpoch } :=
    safe.of_same rfl
  have same : Quiet s { s with currentEpoch := max s.currentEpoch hdr.currentEpoch } :=
    .of_same rfl
  dsimp only
  exact ⟨learned.modify hdr.sender _ (fun _ => ⟨rfl, rfl, rfl, rfl, id⟩) fun _ _ => rfl, same.trans
    (.modify _ hdr.sender _ fun _ => ⟨rfl, rfl, le_max_left _ _, id⟩), le_refl _⟩

theorem clusterAddNode_safe (master slave handshake : Bool) :
    Safe strict (s.clusterAddNode (createClusterNode master slave handshake)) ∧
      Quiet s (s.clusterAddNode (createClusterNode master slave handshake)) := by
  have calm := Calm.clusterAddNode safe.linked master slave handshake
  exact ⟨safe.calm (safe.linked.clusterAddNode master slave handshake) calm, calm.toQuiet⟩

theorem clusterProcessGossipSection_safe (hdr : Header) :
    Safe strict (clusterProcessGossipSection s hdr) ∧ Quiet s (clusterProcessGossipSection s hdr) := by
  unfold clusterProcessGossipSection
  induction hdr.gossip generalizing s with
  | nil => exact ⟨safe, .refl s⟩
  | cons node gossip ih =>
    obtain ⟨safe, quiet⟩ := clusterAddNode_safe safe node.master node.slave node.handshake
    obtain ⟨safe, quiet'⟩ := ih safe
    exact ⟨safe, quiet.trans quiet'⟩

theorem processMeet_safe (hdr : Header) :
    Safe strict (processMeet s hdr) ∧ Quiet s (processMeet s hdr) := by
  obtain ⟨added, quiet⟩ := clusterAddNode_safe safe false false true
  unfold processMeet
  dsimp only
  split
  · obtain ⟨safe, quiet'⟩ := clusterProcessGossipSection_safe added hdr
    exact ⟨safe, quiet.trans quiet'⟩
  · exact ⟨added, quiet⟩

theorem clusterDelNode_safe (known : s.node? n = some node) (other : n ≠ s.myself) :
    Meets (clusterDelNode s n) (Spared strict) fun t => Safe strict t ∧ Released n s t := by
  refine (clusterDelNode_meets safe.toSound known other).mono ?_
  rintro t ⟨sound, released, role⟩
  exact ⟨⟨sound, fun strictly => (safe.obedient strictly).of_role role fun slot => released.fewer slot⟩,
    released⟩

theorem Safe.other (known : s.node? n = some node) (shakes : node.handshake = true) :
    n ≠ s.myself := by
  rintro rfl
  obtain ⟨me, here, calm⟩ := safe.linked.me
  obtain rfl := some.inj (here.symm.trans known)
  exact absurd (shakes.symm.trans calm) (by simp)

theorem processLink_meets (meet : Bool) (sender : Option NodeId) (hdr : Header) :
    Meets (processLink s meet sender hdr) (Spared strict) fun result => Safe strict result.2 ∧
      (Quiet s result.2 ∨ result.1 = false ∧ ∃ link node, hdr.link = some link ∧
        s.node? link = some node ∧ node.handshake = true ∧ Released link s result.2) := by
  unfold processLink
  split
  · exact ⟨safe, .inl (.refl s)⟩
  rename_i link linkEq
  split
  · exact ⟨safe, .inl (.refl s)⟩
  rename_i node known
  refine .ite (fun shakes => ?_) fun _ =>
    .ite (fun _ => ⟨safe, .inl (.refl s)⟩) fun _ => ⟨safe, .inl (.refl s)⟩
  have other := safe.other known shakes
  refine .ite (fun _ => ?_) fun _ => .ite (fun _ => trivial) fun _ => ?_
  · refine (clusterDelNode_safe safe known other).bind ?_
    rintro t ⟨safe, released⟩
    exact ⟨safe, .inr ⟨rfl, link, node, linkEq, known, shakes, released⟩⟩
  · rw [meets_pure]
    dsimp only
    exact ⟨safe.modify link _ (fun _ => ⟨rfl, rfl, rfl, rfl, fun _ => rfl⟩) fun same =>
      absurd same other, .inl (.modify s link _ fun _ => ⟨rfl, rfl, le_refl _, fun shakes =>
        absurd shakes (by simp)⟩)⟩

section

variable (known : s.node? sender = some node)
include known

theorem followMaster_meets (master : NodeId) :
    Meets (followMaster s sender master) permitted fun t => Safe strict t ∧ Quiet s t := by
  unfold followMaster
  split
  · exact ⟨safe, .refl s⟩
  rename_i master found
  obtain ⟨rfl, masterNode, there⟩ := lookup_eq_some found
  rw [node_of_known known, ok_bind]
  refine .ite (fun _ => ⟨safe, .refl s⟩) fun _ => (leaveMaster_meets safe.linked known).bind ?_
  rintro t ⟨loose, calm, _⟩
  obtain ⟨masterNode, there, _⟩ := calm.nodes _ _ there
  refine (clusterNodeAddSlave_meets loose there sender).bind ?_
  rintro u ⟨loose, calm', _, listing, there, member⟩
  obtain ⟨senderNode, known, _⟩ := (calm.trans calm').nodes _ _ known
  have moved := loose.modify sender (fun node => { node with slaveof := some master })
    (fun _ => ⟨id, fun _ _ => id⟩) (.inl rfl)
  have calm := (calm.trans calm').trans (.modify u sender (fun node =>
    { node with slaveof := some master }) (fun _ => ⟨rfl, rfl, le_refl _, id⟩) fun _ => rfl)
  refine ⟨safe.calm (moved.tighten ?_) calm, calm.toQuiet⟩
  -- The master that is followed now has listed the sender.
  intro later followed found slaveof
  rw [node?_modify_self known] at found
  obtain rfl := some.inj found
  obtain rfl : master = followed := some.inj slaveof
  exact known_modify there member member

omit known in
theorem clusterSetNodeAsMaster_safe (known : s.node? n = some node) :
    Meets (clusterSetNodeAsMaster s n) permitted fun t => Safe strict t ∧ Quiet s t := by
  refine (clusterSetNodeAsMaster_meets safe.linked known).mono ?_
  rintro t ⟨linked, quiet, role⟩
  refine ⟨⟨safe.toSound.quiet linked quiet, fun strictly => ?_⟩, quiet⟩
  obtain ⟨same, _⟩ | leads := role
  · exact (safe.obedient strictly).of_role same fun slot => by rw [quiet.slots]; exact id
  · exact .inl (by rw [leads, quiet.myself])

theorem switchRole_meets (hdr : Header) :
    Meets (switchRole s sender hdr) permitted fun t =>
      Safe strict t ∧ Later s t ∧ (t.slots = s.slots ∨
        hdr.slaveof.isSome = true ∧ Released sender s t) := by
  unfold switchRole
  split
  · exact (clusterSetNodeAsMaster_safe safe known).mono fun t ⟨safe, quiet⟩ =>
      ⟨safe, quiet.toLater, .inl quiet.slots⟩
  rename_i master slaveof
  rw [node_of_known known, ok_bind]
  refine Meets.bind (show Meets _ _ fun t => Safe strict t ∧ Later s t ∧ (t.slots = s.slots ∨
    Released sender s t) from .ite (fun _ => ?_) fun _ => ⟨safe, .refl s, .inl rfl⟩) ?_
  · refine (clusterDelNodeSlots_meets safe.toSound known).bind ?_
    rintro t ⟨sound, steady, released⟩
    have quiet := Quiet.modify t sender (fun node =>
      { node with master := false, slave := true }) fun _ => ⟨rfl, rfl, le_refl _, id⟩
    refine ⟨⟨sound.modify sender _ fun _ => ⟨rfl, rfl, rfl, rfl, id⟩, fun strictly => ?_⟩,
      steady.toLater.trans quiet.toLater, .inr released⟩
    -- This node as the sender has just lost its slots.
    by_cases mine : sender = t.myself
    · obtain ⟨later, there, _⟩ := steady.nodes _ _ known
      subst mine
      exact .inr ⟨role_of_known (node?_modify_self there _), released.ne⟩
    · exact ((safe.obedient strictly).of_role steady.role fun slot => released.fewer slot).of_role
        (role_modify fun same => absurd same mine) fun _ => id
  rintro t ⟨safe, later, slots⟩
  obtain ⟨_, there, _⟩ := later.nodes _ _ known
  refine (followMaster_meets safe there master).mono ?_
  rintro u ⟨safe, quiet⟩
  refine ⟨safe, later.trans quiet.toLater, ?_⟩
  obtain same | released := slots
  · exact .inl (quiet.slots.trans same)
  · refine .inr ⟨by rw [slaveof]; rfl, ?_⟩
    intro slot
    rw [quiet.slots]
    exact released slot

omit known in
theorem Safe.newEpoch (epoch : Nat) :
    Safe strict (({ s with currentEpoch := epoch } : State).modify s.myself fun node =>
      { node with configEpoch := epoch }) :=
  (safe.of_same (t := { s with currentEpoch := epoch }) rfl).modify s.myself _
    (fun _ => ⟨rfl, rfl, rfl, rfl, id⟩) fun _ _ => rfl

theorem clusterHandleConfigEpochCollision_meets (hdr : Header) :
    Meets (clusterHandleConfigEpochCollision s sender hdr) permitted fun t =>
      Safe strict t ∧ t.slots = s.slots := by
  obtain ⟨me, here, _⟩ := safe.linked.me
  rw [clusterHandleConfigEpochCollision, node_of_known known, ok_bind, node_of_known here, ok_bind]
  exact .ite (fun _ => ⟨safe, rfl⟩) fun _ => .ite (fun _ => ⟨safe, rfl⟩) fun _ =>
    ⟨safe.newEpoch _, rfl⟩

theorem dirtySlots_meets (hdr : Header) :
    Meets (dirtySlots s sender hdr) permitted fun _ => True := by
  rw [dirtySlots, node_of_known known, ok_bind]
  split
  · trivial
  rename_i senderMaster master
  obtain ⟨masterNode, there⟩ : ∃ masterNode, s.node? senderMaster = some masterNode := by
    split at master
    · exact ⟨node, some.inj master ▸ known⟩
    · obtain ⟨masterNode, there, _⟩ := safe.linked.listed _ _ _ known master (by simp)
      exact ⟨masterNode, there⟩
  rw [node_of_known there, ok_bind]
  trivial

end

theorem processSender_meets (config : Config) (known : s.node? sender = some node) (epoch : Nat)
    (hdr : Header) :
    Meets (processSender config s sender epoch hdr) (Spared strict) fun t =>
      Safe strict t ∧ ∃ u, Later s u ∧ (u.slots = s.slots ∨
        hdr.slaveof.isSome = true ∧ Released sender s u) ∧
        Claimed sender epoch u t := by
  refine (switchRole_meets safe known hdr).bind ?_
  rintro u ⟨safe, later, switched⟩
  obtain ⟨senderNode, known, _⟩ := later.nodes _ _ known
  refine (dirtySlots_meets safe known hdr).bind ?_
  intro dirty _
  rw [node_of_known known, ok_bind]
  refine Meets.bind (.ite (fun _ => clusterUpdateSlotsConfigWith_meets config safe known epoch
    hdr.myslots) fun _ => ⟨safe, .refl u, .of_same rfl⟩) ?_
  rintro t ⟨safe, later', claimed⟩
  obtain ⟨me, here, _⟩ := safe.linked.me
  obtain ⟨senderNode, known, _⟩ := later'.nodes _ _ known
  rw [node_of_known here, node_of_known known, ok_bind, ok_bind]
  -- A new epoch and new nodes do not change the owners any more.
  refine Meets.bind (.ite (fun _ => clusterHandleConfigEpochCollision_meets safe known hdr)
    fun _ => ⟨safe, rfl⟩) ?_
  rintro t' ⟨safe, slots⟩
  obtain ⟨safe, quiet⟩ := clusterProcessGossipSection_safe safe hdr
  refine ⟨safe, u, later, switched, ?_⟩
  intro slot
  rw [quiet.slots, slots]
  exact claimed slot

end Steps

/-- A slot is lost to a newer configuration, by a turn to replica, or by a known handshake. -/
def Lawful (s : State) (packet : Packet) (t : State) : Prop :=
  ∀ slot owner node, s.slots slot = some owner → s.node? owner = some node →
    t.slots slot ≠ some owner →
    match packet with
    | .ping _ hdr =>
      t.slots slot = some hdr.sender ∧ node.configEpoch < hdr.configEpoch ∨
      t.slots slot = none ∧
        (owner = hdr.sender ∧ hdr.slaveof.isSome = true ∨
          hdr.link = some owner ∧ node.handshake = true)
    | .update _ nodename configEpoch _ =>
      t.slots slot = some nodename ∧ node.configEpoch < configEpoch

theorem Lawful.of_same (packet : Packet) (slots : t.slots = s.slots) : Lawful s packet t := by
  intro slot owner node owned _ lost
  exact absurd (slots ▸ owned) lost

section Owners

variable {u v w : State} {hdr : Header} {meet : Bool}

/-- What the sender takes, or gives up by becoming a replica. -/
theorem Lawful.of_sender {epoch : Nat} (quiet : Quiet s u) (bound : epoch ≤ hdr.configEpoch)
    (later : Later u v)
    (switched : v.slots = u.slots ∨ hdr.slaveof.isSome = true ∧ Released hdr.sender u v)
    (claimed : Claimed hdr.sender epoch v w) : Lawful s (.ping meet hdr) w := by
  intro slot owner node owned found lost
  -- The owner before the claims is the old one, unless it has released the slot.
  obtain kept | ⟨mine, older⟩ := claimed slot
  · obtain same | ⟨isReplica, released⟩ := switched
    · exact absurd (by rw [kept, same, quiet.slots, owned]) lost
    · rw [released, quiet.slots, owned] at kept
      split at kept
      · rename_i isSender
        exact .inr ⟨kept, .inl ⟨some.inj isSender, isReplica⟩⟩
      · exact absurd kept lost
  · have notSender : owner ≠ hdr.sender := fun same => lost (same ▸ mine)
    have before : v.slots slot = some owner := by
      obtain same | ⟨_, released⟩ := switched
      · rw [same, quiet.slots, owned]
      · rw [released, quiet.slots, owned, if_neg (by simpa using notSender)]
    obtain ⟨ownerNode, there, grown⟩ := (quiet.toLater.trans later).nodes _ _ found
    have less := older owner ownerNode before there
    exact .inl ⟨mine, lt_of_le_of_lt grown.epoch (lt_of_lt_of_le less bound)⟩

/-- The slots of a node whose handshake is given up. -/
theorem Lawful.of_link {link : NodeId} {linkNode : Node} (quiet : Quiet s u)
    (linkEq : hdr.link = some link) (there : u.node? link = some linkNode)
    (shakes : linkNode.handshake = true) (released : Released link u v) :
    Lawful s (.ping meet hdr) v := by
  intro slot owner node owned found lost
  have now := released slot
  rw [quiet.slots, owned] at now
  split at now
  · rename_i isLink
    obtain rfl := some.inj isLink
    obtain ⟨later, there', grown⟩ := quiet.nodes _ _ found
    obtain rfl := some.inj (there.symm.trans there')
    exact .inr ⟨now, .inr ⟨linkEq, grown.handshake shakes⟩⟩
  · exact absurd now lost

/-- What the node of an UPDATE packet takes. -/
theorem Lawful.of_update {nodename : NodeId} {configEpoch : Nat} {slots : Bitmap} {change : Node → Node}
    (quiet : Quiet s u) (claimed : Claimed nodename configEpoch (u.modify nodename change) w) :
    Lawful s (.update hdr nodename configEpoch slots) w := by
  intro slot owner node owned found lost
  have before : u.slots slot = some owner := by rw [quiet.slots, owned]
  obtain kept | ⟨mine, older⟩ := claimed slot
  · exact absurd (kept.trans before) lost
  · -- The new epoch is not that of the owner.
    have different : owner ≠ nodename := fun same => lost (same ▸ mine)
    obtain ⟨ownerNode, there, grown⟩ := quiet.nodes _ _ found
    have less := older owner ownerNode before (by rw [node?_modify, if_neg different, there])
    exact ⟨mine, lt_of_le_of_lt grown.epoch less⟩

end Owners

theorem clusterProcessPacket_meets (config : Config) (safe : Safe strict s) (packet : Packet) :
    Meets (clusterProcessPacket config s packet) (Spared strict) fun t =>
      Safe strict t ∧ Lawful s packet t := by
  cases packet with
  | ping meet hdr =>
    simp only [clusterProcessPacket]
    obtain ⟨learned, quiet, bound⟩ := learnEpochs_safe safe hdr
    generalize learnEpochs s hdr = learnt at learned quiet bound
    obtain ⟨t, epoch⟩ := learnt
    -- A MEET packet of an unknown sender only adds nodes.
    obtain ⟨met, quiet⟩ : Safe strict (if meet = true ∧ (s.lookup hdr.sender).isNone = true then
        processMeet t hdr else t) ∧ Quiet s (if meet = true ∧ (s.lookup hdr.sender).isNone = true then
        processMeet t hdr else t) := by
      split
      · obtain ⟨safe, quiet'⟩ := processMeet_safe learned hdr
        exact ⟨safe, quiet.trans quiet'⟩
      · exact ⟨learned, quiet⟩
    refine (processLink_meets met meet (s.lookup hdr.sender) hdr).bind ?_
    rintro ⟨goOn, u⟩ ⟨safe, linked⟩
    obtain quiet' | ⟨stopped, link, linkNode, linkEq, there, shakes, released⟩ := linked
    · have quiet := quiet.trans quiet'
      split
      · cases found : s.lookup hdr.sender with
        | none => exact ⟨safe, .of_same _ quiet.slots⟩
        | some sender =>
          obtain ⟨rfl, senderNode, known⟩ := lookup_eq_some found
          obtain ⟨_, there, _⟩ := quiet.nodes _ _ known
          refine (processSender_meets safe config there epoch hdr).mono ?_
          rintro w ⟨safe, v, later, switched, claimed⟩
          exact ⟨safe, .of_sender quiet bound later switched claimed⟩
      · exact ⟨safe, .of_same _ quiet.slots⟩
    · -- The handshake is given up, and the packet is not processed further.
      rw [stopped, if_neg (by simp)]
      exact ⟨safe, .of_link quiet linkEq there shakes released⟩
  | update hdr nodename configEpoch slots =>
    simp only [clusterProcessPacket]
    obtain ⟨learned, quiet, _⟩ := learnEpochs_safe safe hdr
    generalize learnEpochs s hdr = learnt at learned quiet
    obtain ⟨t, epoch⟩ := learnt
    split
    · exact ⟨learned, .of_same _ quiet.slots⟩
    split
    · exact ⟨learned, .of_same _ quiet.slots⟩
    rename_i n known
    split
    · exact ⟨learned, .of_same _ quiet.slots⟩
    refine Meets.bind (.ite (fun _ => clusterSetNodeAsMaster_safe learned known)
      fun _ => ⟨learned, .refl t⟩) ?_
    rintro u ⟨safe, quiet'⟩
    obtain ⟨_, there, _⟩ := quiet'.nodes _ _ known
    have quiet := quiet.trans quiet'
    have renewed := safe.modify nodename (fun node => { node with configEpoch := configEpoch })
      (fun _ => ⟨rfl, rfl, rfl, rfl, id⟩) fun _ _ => rfl
    refine (clusterUpdateSlotsConfigWith_meets config renewed
      (node?_modify_self there _) configEpoch slots).mono ?_
    rintro w ⟨safe, _, claimed⟩
    exact ⟨safe, .of_update quiet claimed⟩

/-! ### Commands and failovers -/

section

variable (safe : Safe strict s)
include safe

theorem clusterBumpConfigEpochWithoutConsensus_meets :
    Meets (clusterBumpConfigEpochWithoutConsensus s) permitted (Safe strict) := by
  obtain ⟨me, here, _⟩ := safe.linked.me
  rw [clusterBumpConfigEpochWithoutConsensus, node_of_known here, ok_bind]
  exact .ite (fun _ => safe.newEpoch _) fun _ => safe

theorem clusterFailoverReplaceYourMaster_meets :
    Meets (clusterFailoverReplaceYourMaster s) permitted (Safe strict) := by
  obtain ⟨me, here, _⟩ := safe.linked.me
  rw [clusterFailoverReplaceYourMaster, node_of_known here, ok_bind]
  split
  · exact safe
  rename_i oldmaster followed
  obtain ⟨masterNode, there, _⟩ := safe.linked.listed _ _ _ here followed (by simp)
  refine .ite (fun _ => safe) fun replica => ?_
  refine (clusterSetNodeAsMaster_meets safe.linked here).bind ?_
  rintro t ⟨linked, quiet, role⟩
  obtain ⟨_, already⟩ | role := role
  · exact absurd (already rfl) replica
  obtain ⟨_, there, _⟩ := quiet.nodes _ _ there
  -- Every round moves at most one slot to this node, which is a master now.
  refine (Meets.foldlM (fun _ u => Sound u ∧ Steady t u)
    ⟨safe.toSound.quiet linked quiet, .refl t⟩ ?_).mono fun u met =>
      ⟨met.1, fun _ => .inl (by rw [met.2.role, role, met.2.myself, quiet.myself])⟩
  rintro _ slot _ u _ ⟨sound, steady⟩
  obtain ⟨_, there, _⟩ := steady.nodes _ _ there
  rw [node_of_known there, ok_bind]
  refine .ite (fun _ => ?_) fun _ => ⟨sound, steady⟩
  obtain ⟨me, here, _⟩ := sound.linked.me
  exact (moveSlot_meets sound here slot).mono fun w met => ⟨met.1, steady.trans met.2.1⟩

theorem Safe.steady (here : s.node? s.myself = some me)
    (leads : ¬ me.slave = true) (sound : Sound t) (steady : Steady s t) : Safe strict t := by
  refine ⟨sound, fun strictly => .inl ?_⟩
  rw [steady.role, steady.myself]
  refine (safe.obedient strictly).elim id fun replica => absurd ?_ leads
  have role := (role_of_known here).symm.trans replica.1
  simp only [Prod.mk.injEq, some.injEq] at role
  exact role.2.2

theorem setslot_meets (slot : Slot) (action : SetSlot) :
    Meets (setslot s slot action) permitted (Safe strict) := by
  obtain ⟨me, here, _⟩ := safe.linked.me
  unfold setslot
  rw [node_of_known here, ok_bind]
  refine .ite (fun _ => safe) fun leads => ?_
  cases action with
  | migrating n => exact .ite (fun _ => safe) fun _ => safe.of_same rfl
  | importing n => exact .ite (fun _ => safe) fun _ => safe.of_same rfl
  | stable => exact safe.of_same rfl
  | node n keys =>
    refine .ite (fun _ => safe) fun found => .ite (fun _ => safe) fun _ => ?_
    obtain ⟨node, known⟩ := known_of_lookup found
    -- The migration is closed first, or is not.
    have move : ∀ t : State, Calm s t → Sound t → Meets (do
        let t ← moveSlot t n slot
        if n = t.myself ∧ (t.importingSlotsFrom slot).isSome then
          let t ← clusterBumpConfigEpochWithoutConsensus t
          return { t with importingSlotsFrom := assign t.importingSlotsFrom slot none }
        else return t) permitted (Safe strict) := by
      intro t calm sound
      obtain ⟨_, known, _⟩ := calm.nodes _ _ known
      refine (moveSlot_meets sound known slot).bind ?_
      rintro u ⟨sound, steady, _⟩
      have safe := safe.steady here leads sound (calm.toSteady.trans steady)
      refine .ite (fun _ => ?_) fun _ => safe
      exact (clusterBumpConfigEpochWithoutConsensus_meets safe).bind fun w safe => safe.of_same rfl
    split
    · exact move _ (.of_same rfl) (safe.toSound.of_same rfl)
    · exact move s (.refl s) safe.toSound

end

def Reassigned (del : Bool) (slots : List Slot) (s t : State) : Prop :=
  if (∀ slot ∈ slots, (s.slots slot).isSome = del) ∧ slots.Nodup then
    ∀ slot, t.slots slot =
      if slot ∈ slots then if del then none else some s.myself else s.slots slot
  else t = s

theorem addOrDelSlots_meets (del : Bool) (sound : Sound s) (slots : List Slot) :
    Meets (addOrDelSlots del s slots) permitted fun t =>
      Sound t ∧ Steady s t ∧ Reassigned del slots s t := by
  refine .ite (fun refused => ⟨sound, .refl s, ?_⟩) fun checked =>
    .ite (fun refused => ⟨sound, .refl s, ?_⟩) fun distinct => ?_
  · obtain ⟨slot, member, wrong⟩ : ∃ slot ∈ slots, ¬ (s.slots slot).isSome = del := by
      simpa using refused
    rw [Reassigned, if_neg fun passed => wrong (passed.1 slot member)]
  · rw [Reassigned, if_neg fun passed => refused passed.2]
  have checked : ∀ slot ∈ slots, (s.slots slot).isSome = del := by simpa using checked
  -- The slots that are still to come have the entries that were checked.
  refine (Meets.foldlM (fun finished t => Sound t ∧ Steady s t ∧ ∀ slot, t.slots slot =
    if slot ∈ finished ∧ slot ∈ slots then if del then none else some s.myself else s.slots slot)
    ⟨sound, .refl s, by simp⟩ ?_).mono fun t ⟨sound, steady, exact⟩ => ⟨sound, steady, ?_⟩
  · rintro finished slot rest t whole ⟨sound, steady, entries⟩
    have notYet : slot ∉ finished := by
      intro early
      have distinct : (finished ++ slot :: rest).Nodup := whole ▸ nodup_finRange _
      exact (nodup_append.mp distinct).2.2 slot early slot mem_cons_self rfl
    refine .ite (fun wanted => ?_) fun other => ⟨sound, steady, fun slot => ?_⟩
    · have entry : (t.slots slot).isSome = del := by
        rw [entries, if_neg fun early => notYet early.1, checked slot wanted]
      have opened : Sound { t with importingSlotsFrom := assign t.importingSlotsFrom slot none } :=
        sound.of_same rfl
      have calm : Calm t { t with importingSlotsFrom := assign t.importingSlotsFrom slot none } :=
        .of_same rfl
      refine Meets.bind (show Meets _ _ fun result : Bool × State => result.1 = true ∧
        Sound result.2 ∧ Steady t result.2 ∧
        result.2.slots = assign t.slots slot (if del then none else some s.myself)
        from .ite (fun isDel => ?_) fun isAdd => ?_) ?_
      · refine (clusterDelSlot_meets opened slot).mono ?_
        rintro result ⟨sound, steady, done, slots⟩
        exact ⟨done.trans (entry.trans isDel), sound, calm.toSteady.trans steady,
          by rw [slots, if_pos isDel]⟩
      · obtain ⟨me, here, _⟩ := opened.linked.me
        refine (clusterAddSlot_meets opened here slot).mono ?_
        rintro result ⟨sound, steady', done, slots⟩
        have free : (t.slots slot).isSome = false := entry.trans (by simpa using isAdd)
        rw [if_neg (by simp [free])] at slots
        exact ⟨done.trans (by simpa using free), sound, calm.toSteady.trans steady',
          by rw [slots, if_neg isAdd, ← steady.myself]⟩
      rintro ⟨done, u⟩ ⟨isDone, sound, steady', slots⟩
      dsimp only at isDone sound steady' slots ⊢
      rw [isDone, if_pos rfl, meets_pure]
      refine ⟨sound, steady.trans steady', fun other => ?_⟩
      by_cases here : other = slot <;> simp [slots, assign, here, wanted, entries]
    · by_cases here : slot ∈ finished <;> simp [entries, here]
      rintro rfl
      exact fun member => absurd member other
  · rw [Reassigned, if_pos ⟨checked, Decidable.of_not_not distinct⟩]
    simpa [mem_allSlots] using exact

/-- The slots are not added: some of them is served already, or given twice. -/
def Refused (s : State) (slots : List Slot) : Prop :=
  slots = [] ∨ ¬ slots.Nodup ∨ ∃ slot ∈ slots, (s.slots slot).isSome = true

theorem addOrDelSlots_refused {slots : List Slot} (refused : Refused s slots) :
    addOrDelSlots false s slots = .ok s := by
  rw [addOrDelSlots]
  obtain rfl | twice | ⟨slot, listed, served⟩ := refused
  · -- Without arguments every round of the loop leaves the tables alone.
    rw [List.any_nil, if_neg Bool.false_ne_true, if_neg (not_not_intro List.nodup_nil)]
    simp only [List.not_mem_nil, if_false]
    induction allSlots with
    | nil => rfl
    | cons slot slots ih => exact ih
  · rw [if_pos twice, ite_self]
  · refine if_pos (List.any_eq_true.mpr ⟨slot, listed, ?_⟩)
    rw [served]
    rfl

/-- A replica is not asked to add slots, or refuses. -/
def Proper (s : State) : Op → Prop
  | .addslots slots => ∀ me, s.node? s.myself = some me → me.slave = true → Refused s slots
  | _ => True

/-- No operation makes the tables disagree, and no proper one gives a replica slots. -/
theorem step_meets (config : Config) (safe : Safe strict s) (op : Op)
    (proper : strict = true → Proper s op) :
    Meets (step config s op) (Spared strict) (Safe strict) := by
  obtain ⟨me, here, calm⟩ := safe.linked.me
  cases op with
  | packet packet => exact (clusterProcessPacket_meets config safe packet).mono fun t met => met.1
  | addslots slots =>
    by_cases leads : strict = true ∧ me.slave = true
    · -- A replica is given only slots that are refused.
      rw [step, addOrDelSlots_refused (proper leads.1 me here leads.2)]
      exact safe
    · refine (addOrDelSlots_meets false safe.toSound slots).mono fun t ⟨sound, steady, _⟩ => ?_
      cases strict with
      | false => exact ⟨sound, nofun⟩
      | true => exact safe.steady here (fun slave => leads ⟨rfl, slave⟩) sound steady
  | delslots slots =>
    refine (addOrDelSlots_meets true safe.toSound slots).mono fun t ⟨sound, steady, after⟩ =>
      ⟨sound, fun strictly => (safe.obedient strictly).of_role steady.role fun slot owned => ?_⟩
    rw [Reassigned] at after
    split at after
    · rw [after] at owned
      split at owned
      · cases owned
      · exact owned
    · exact after ▸ owned
  | flushslots emptyDb =>
    refine .ite (fun _ => ?_) fun _ => safe
    refine (clusterDelNodeSlots_meets safe.toSound here).mono fun t ⟨sound, steady, released⟩ =>
      ⟨sound, fun strictly =>
        (safe.obedient strictly).of_role steady.role fun slot => released.fewer slot⟩
  | setslot slot action => exact setslot_meets safe slot action
  | forget n =>
    simp only [step, node_of_known here, ok_bind]
    refine .ite (fun _ => safe) fun allowed => ?_
    rw [not_or, not_or] at allowed
    obtain ⟨node, known⟩ := known_of_lookup allowed.1
    exact (clusterDelNode_safe safe known allowed.2.1).mono fun t met => met.1
  | replicate n emptyDb =>
    simp only [step, node_of_known here, ok_bind]
    split
    · exact safe
    rename_i node known
    refine .ite (fun _ => safe) fun other => .ite (fun _ => safe) fun empty => ?_
    refine (clusterSetMaster_safe safe here known (fun same => other (.inl same)) fun master => ?_).mono
      fun t met => met.1
    exact Decidable.of_not_not fun owns => empty ⟨master, .inl owns⟩
  | failover authEpoch =>
    simp only [step, node_of_known here, ok_bind]
    exact .ite (fun _ => safe) fun _ => clusterFailoverReplaceYourMaster_meets (safe.modify s.myself _
      (fun _ => ⟨rfl, rfl, rfl, rfl, id⟩) fun _ _ => rfl)
  | takeover =>
    simp only [step, node_of_known here, ok_bind]
    exact .ite (fun _ => safe) fun _ => (clusterBumpConfigEpochWithoutConsensus_meets safe).bind
      fun t safe => clusterFailoverReplaceYourMaster_meets safe
  | meet => exact (clusterAddNode_safe safe false false true).1
  | handshakeTimeout n =>
    simp only [step]
    split
    · exact safe
    rename_i node known
    exact .ite (fun shakes => (clusterDelNode_safe safe known (safe.other known shakes)).mono
      fun t met => met.1) fun _ => safe

theorem newState_sound : Sound newState := by
  have only : ∀ n node, newState.node? n = some node →
      n = 0 ∧ node = createClusterNode true false false := by
    intro n node known
    by_cases mine : n = 0
    · subst mine
      exact ⟨rfl, (some.inj known).symm⟩
    · have unknown : newState.node? n = none := by
        simp [State.node?, newState, Ne.symm mine]
      exact absurd (unknown.symm.trans known) (by simp)
  refine ⟨⟨?_, ?_, ?_⟩, ⟨?_, ?_, ?_⟩⟩
  · intro n node known slot
    obtain ⟨rfl, rfl⟩ := only n node known
    simp [createClusterNode, newState]
  · intro n node known
    obtain ⟨rfl, rfl⟩ := only n node known
    simp [createClusterNode, countSlots_zero]
  · intro slot n owned
    exact absurd owned (by simp [newState])
  · exact ⟨createClusterNode true false false, rfl, rfl⟩
  · intro n (later : 1 ≤ n)
    cases known : newState.node? n with
    | none => rfl
    | some node =>
      obtain ⟨rfl, _⟩ := only n node known
      exact absurd later (by decide)
  · intro n node master known followed
    obtain ⟨rfl, rfl⟩ := only n node known
    exact absurd followed (by simp [createClusterNode])

/-- Whatever happens to a node, its three tables agree, and the assertions about them hold; the
next packet takes slots from owners only under the rule of the epochs. -/
theorem slot_tables_consistent (config : Config) (ops : List Op) :
    Meets (run config ops) Tolerated fun s => Consistent s ∧
      ∀ packet, Meets (clusterProcessPacket config s packet) Tolerated (Lawful s packet) := by
  have tolerate : ∀ fault, Spared false fault → Tolerated fault := by
    intro fault spared
    cases fault <;> trivial
  refine ((Meets.foldlM (fun _ s => Safe false s) ⟨newState_sound, nofun⟩ ?_).permit tolerate).mono ?_
  · intro _ op _ s _ safe
    exact step_meets config safe op nofun
  · intro s safe
    refine ⟨safe.consistent, ?_⟩
    intro packet
    exact ((clusterProcessPacket_meets config safe packet).permit tolerate).mono fun t met => met.2

end LearningNotes.Cluster.SlotTable
