import LearningNotes.Lib.Labels
import LearningNotes.Rax.Basic
import Mathlib.Data.List.Infix

/-! What a tree of nodes stores, when it is well formed, and how a change at one place shows. -/

namespace LearningNotes.Rax

open Lib List

variable {V : Type}

/-- Induction over a node and all below it. -/
theorem Node.induction {motive : Node V → Prop}
    (step : ∀ header children, (∀ child ∈ children, motive child) → motive (.mk header children)) :
    ∀ node, motive node := by
  -- The second motive of the recursor speaks of the list of children.
  apply @Node.rec V motive (fun children => ∀ child ∈ children, motive child)
  · exact step
  · exact forall_mem_nil _
  · exact fun child children first others => forall_mem_cons.mpr ⟨first, others⟩

/-- The entry of the key that ends at a node. -/
def Header.own (h : Header V) : List (Bytes × Option V) :=
  if h.iskey then [([], raxGetData h)] else []

/-- One string for a compressed node, else one character each. -/
def Header.labels (h : Header V) : List Bytes :=
  if h.iscompr then [h.data] else h.data.map fun c => [c]

mutual

/-- The keys below a node with their values. -/
def Node.entries : Node V → List (Bytes × Option V)
  | .mk header children => header.own ++ edgeEntries header.labels children

def edgeEntries : List Bytes → List (Node V) → List (Bytes × Option V)
  | label :: labels, child :: children =>
    behind label child.entries ++ edgeEntries labels children
  | _, _ => []

end

mutual

/-- The nodes below a node, and itself. -/
def Node.nodes : Node V → List (Node V)
  | .mk header children => .mk header children :: nodesOf children

def nodesOf : List (Node V) → List (Node V)
  | [] => []
  | child :: children => child.nodes ++ nodesOf children

end

@[simp] theorem nodesOf_append (children others : List (Node V)) :
    nodesOf (children ++ others) = nodesOf children ++ nodesOf others := by
  induction children with
  | nil => rfl
  | cons child children ih => simp [nodesOf, ih]

variable {children : List (Node V)} {entry : Bytes × Option V} {node : Node V} {h other : Header V}
    {arity : Nat} {frame : Frame V} {path : List (Frame V)} {key : Bytes} {value : Option V}

variable {labels : List Bytes} {child : Node V} {rax : Rax V}

/-- The entries below two groups of edges are those below each. -/
theorem edgeEntries_append (paired : labels.length = children.length) (labels' : List Bytes)
    (children' : List (Node V)) :
    edgeEntries (labels ++ labels') (children ++ children') =
      edgeEntries labels children ++ edgeEntries labels' children' := by
  induction children generalizing labels with
  | nil =>
    rw [length_nil, length_eq_zero_iff] at paired
    simp [paired, edgeEntries]
  | cons child children ih =>
    cases labels with
    | nil => simp at paired
    | cons label labels =>
      simp only [length_cons, Nat.add_right_cancel_iff] at paired
      simp [edgeEntries, ih paired]

/-- A key below a node starts with the label of one of its edges. -/
theorem exists_label_of_mem (listed : entry ∈ edgeEntries labels children) :
    ∃ label ∈ labels, label <+: entry.1 := by
  induction children generalizing labels with
  | nil => cases labels <;> simp [edgeEntries] at listed
  | cons child children ih =>
    cases labels with
    | nil => simp [edgeEntries] at listed
    | cons label labels =>
      simp only [edgeEntries, mem_append] at listed
      rcases listed with first | later
      · obtain ⟨key, _, named⟩ := mem_behind.mp first
        exact ⟨label, mem_cons_self, named ▸ prefix_append label key⟩
      · obtain ⟨other, inside, starts⟩ := ih later
        exact ⟨other, mem_cons_of_mem _ inside, starts⟩

/-- The fields agree with the number of children. -/
structure Header.Fits (h : Header V) (arity : Nat) : Prop where
  compressed : h.iscompr = true → 2 ≤ h.data.length ∧ arity = 1
  plain : h.iscompr = false → h.data.Pairwise (· < ·) ∧ arity = h.data.length

/-- A node that is a key or leads to others. -/
def Node.Live (node : Node V) : Prop :=
  node.header.iskey = true ∨ node.header.size ≠ 0

/-- All nodes have fitting fields, and no branch ends without a key. -/
inductive Node.Sound : Node V → Prop
  | mk {header : Header V} {children : List (Node V)} (fits : header.Fits children.length)
      (sound : ∀ child ∈ children, child.Sound) (live : ∀ child ∈ children, child.Live) :
      Node.Sound (.mk header children)

theorem Node.Sound.fits (sound : node.Sound) : node.header.Fits node.children.length := by
  cases sound with
  | mk fits _ _ => exact fits

theorem Node.Sound.children_sound (sound : node.Sound) : ∀ child ∈ node.children, child.Sound := by
  cases sound with
  | mk _ sound _ => exact sound

theorem Node.Sound.children_live (sound : node.Sound) : ∀ child ∈ node.children, child.Live := by
  cases sound with
  | mk _ _ live => exact live

theorem Header.Fits.length_labels (fits : h.Fits arity) : h.labels.length = arity := by
  cases compr : h.iscompr with
  | true => simp [Header.labels, compr, (fits.compressed compr).2]
  | false => simp [Header.labels, compr, (fits.plain compr).2]

/-- No edge has an empty label. -/
theorem Header.Fits.label_ne_nil (fits : h.Fits arity) {label : Bytes} (listed : label ∈ h.labels) :
    label ≠ [] := by
  cases compr : h.iscompr with
  | true =>
    have long := (fits.compressed compr).1
    simp only [Header.labels, compr, if_true, mem_singleton] at listed
    intro empty
    rw [← listed, empty] at long
    simp at long
  | false =>
    simp only [Header.labels, compr, Bool.false_eq_true, if_false, mem_map] at listed
    obtain ⟨c, _, same⟩ := listed
    simp [← same]

/-- Two edges of a node differ in their first character. -/
theorem Header.Fits.labels_differ (fits : h.Fits arity) :
    h.labels.Pairwise fun label other => label.head? ≠ other.head? := by
  cases compr : h.iscompr with
  | true => simp [Header.labels, compr]
  | false =>
    simp only [Header.labels, compr, Bool.false_eq_true, if_false, pairwise_map,
      head?_cons, ne_eq, Option.some.injEq]
    apply (fits.plain compr).1.imp
    intro c d below same
    exact UInt8.lt_irrefl d (same ▸ below)

/-- The node around a slot is well formed but for the slot. -/
structure Frame.Sound (frame : Frame V) : Prop where
  fits : frame.header.Fits (frame.before.length + (frame.after.length + 1))
  sound : ∀ child ∈ frame.before ++ frame.after, child.Sound
  live : ∀ child ∈ frame.before ++ frame.after, child.Live

def Frame.label (frame : Frame V) : Bytes :=
  frame.header.labels.getD frame.before.length []

/-- The entries around a slot that are not behind it. -/
def Frame.outside (frame : Frame V) : List (Bytes × Option V) :=
  frame.header.own ++ (edgeEntries (frame.header.labels.take frame.before.length) frame.before ++
    edgeEntries (frame.header.labels.drop (frame.before.length + 1)) frame.after)

section

variable (sound : frame.Sound)
include sound

theorem Frame.Sound.labels_eq :
    frame.header.labels = frame.header.labels.take frame.before.length ++
      frame.label :: frame.header.labels.drop (frame.before.length + 1) := by
  have within : frame.before.length < frame.header.labels.length := by
    rw [sound.fits.length_labels]
    omega
  have split := take_append_drop frame.before.length frame.header.labels
  rw [drop_eq_getElem_cons within] at split
  rw [Frame.label, getD_eq_getElem?_getD, getElem?_eq_getElem within, Option.getD_some]
  exact split.symm

theorem Frame.Sound.label_ne_nil : frame.label ≠ [] := by
  apply sound.fits.label_ne_nil
  rw [sound.labels_eq]
  simp

/-- A node with one child taken out and put back has the entries of that child behind the label, and
the others. -/
theorem Frame.Sound.entries_fill (child : Node V) :
    (frame.fill child).entries.Perm (behind frame.label child.entries ++ frame.outside) := by
  have shorter : (frame.header.labels.take frame.before.length).length = frame.before.length := by
    have total := sound.fits.length_labels
    simp only [length_take]
    omega
  rw [Frame.fill, Node.entries, sound.labels_eq, edgeEntries_append shorter, Frame.outside]
  -- The entries behind the slot move to the front, past the node's own and those to the left.
  refine (perm_append_left_iff _).mpr (perm_append_comm_assoc _ _ _) |>.trans ?_
  exact perm_append_comm_assoc _ _ _

/-- No key outside an edge starts with its label. -/
theorem Frame.Sound.not_label_prefix (listed : entry ∈ frame.outside) :
    ¬ frame.label <+: entry.1 := by
  intro starts
  have differ := sound.fits.labels_differ
  have nonempty := sound.label_ne_nil
  rw [sound.labels_eq, pairwise_append, pairwise_cons] at differ
  -- A key that starts with the label of the slot and with another one has two first characters.
  have clash : ∀ other ∈ frame.header.labels, other.head? ≠ frame.label.head? →
      ¬ other <+: entry.1 := by
    intro other inside different startsToo
    have otherNonempty := sound.fits.label_ne_nil inside
    apply different
    obtain ⟨tail, eq⟩ := starts
    obtain ⟨tail', eq'⟩ := startsToo
    rw [← head?_append_of_ne_nil other otherNonempty, eq', ← eq, head?_append_of_ne_nil _ nonempty]
  simp only [Frame.outside, mem_append] at listed
  rcases listed with own | left | right
  · have empty : entry.1 = [] := by
      unfold Header.own at own
      split at own
      · simp only [mem_singleton] at own
        rw [own]
      · simp at own
    rw [empty, prefix_nil] at starts
    exact nonempty starts
  · obtain ⟨other, inside, startsToo⟩ := exists_label_of_mem left
    refine clash other (mem_of_mem_take inside) ?_ startsToo
    exact differ.2.2 other inside frame.label mem_cons_self
  · obtain ⟨other, inside, startsToo⟩ := exists_label_of_mem right
    refine clash other (mem_of_mem_drop inside) ?_ startsToo
    exact (differ.2.1.1 other inside).symm

theorem Frame.Sound.fill_sound (childSound : child.Sound) (live : child.Live) :
    (frame.fill child).Sound := by
  apply Node.Sound.mk
  · simpa using sound.fits
  · obtain ⟨left, right⟩ := forall_mem_append.mp sound.sound
    exact forall_mem_append.mpr ⟨left, forall_mem_cons.mpr ⟨childSound, right⟩⟩
  · obtain ⟨left, right⟩ := forall_mem_append.mp sound.live
    exact forall_mem_append.mpr ⟨left, forall_mem_cons.mpr ⟨live, right⟩⟩

theorem Frame.Sound.fill_live (child : Node V) : (frame.fill child).Live := by
  right
  simp only [Frame.fill, Node.header, Header.size]
  cases compr : frame.header.iscompr with
  | true =>
    have long := (sound.fits.compressed compr).1
    omega
  | false =>
    have size := (sound.fits.plain compr).2
    omega

end

/-- The label of the way from the head to a slot. -/
def pathLabel : List (Frame V) → Bytes
  | [] => []
  | frame :: path => pathLabel path ++ frame.label

/-- The entries of a tree that are not behind a slot. -/
def pathOutside : List (Frame V) → List (Bytes × Option V)
  | [] => []
  | frame :: path => behind (pathLabel path) frame.outside ++ pathOutside path

def pathNodes : List (Frame V) → Nat
  | [] => 0
  | frame :: path =>
    (nodesOf frame.before).length + (nodesOf frame.after).length + 1 + pathNodes path

def PathSound (path : List (Frame V)) : Prop := ∀ frame ∈ path, frame.Sound

theorem PathSound.head {frame : Frame V} {path : List (Frame V)}
    (sound : PathSound (frame :: path)) : frame.Sound :=
  sound frame mem_cons_self

theorem PathSound.tail (sound : PathSound (frame :: path)) : PathSound path :=
  fun other listed => sound other (mem_cons_of_mem _ listed)

theorem PathSound.cons (head : frame.Sound) (tail : PathSound path) :
    PathSound (frame :: path) :=
  forall_mem_cons.mpr ⟨head, tail⟩

section

variable (sound : PathSound path)
include sound

/-- The entries of a tree are those at the end of a path, behind its label, and those beside the
path. -/
theorem PathSound.entries_plug (node : Node V) :
    (plug path node).entries.Perm (behind (pathLabel path) node.entries ++ pathOutside path) := by
  -- Each frame puts its own label and its own outside around what is already there.
  induction path generalizing node with
  | nil => simp [plug, pathLabel, pathOutside]
  | cons frame path ih =>
    refine (ih sound.tail (frame.fill node)).trans ?_
    have filled := behind_perm (pathLabel path) (sound.head.entries_fill node)
    refine (filled.append_right _).trans ?_
    simp [pathLabel, pathOutside]

theorem PathSound.entries_plug_perm {other : Node V} (same : node.entries.Perm other.entries) :
    (plug path node).entries.Perm (plug path other).entries := by
  refine (sound.entries_plug node).trans (List.Perm.trans ?_ (sound.entries_plug other).symm)
  exact (behind_perm _ same).append_right _

/-- An entry more at the end of a path is an entry more in the tree. -/
theorem PathSound.entries_plug_cons {other : Node V}
    (more : other.entries.Perm ((key, value) :: node.entries)) :
    (plug path other).entries.Perm ((pathLabel path ++ key, value) :: (plug path node).entries) := by
  refine (sound.entries_plug other).trans ?_
  refine ((behind_perm _ more).append_right _).trans ?_
  exact ((sound.entries_plug node).symm).cons _

/-- No key beside a path starts with the label of the path. -/
theorem PathSound.not_label_prefix (listed : entry ∈ pathOutside path) :
    ¬ pathLabel path <+: entry.1 := by
  induction path with
  | nil => simp [pathOutside] at listed
  | cons frame path ih =>
    intro starts
    rw [pathLabel] at starts
    rcases mem_append.mp listed with near | far
    · obtain ⟨key, inside, named⟩ := mem_behind.mp near
      rw [named, prefix_append_right_inj] at starts
      exact sound.head.not_label_prefix inside starts
    · exact ih sound.tail far ((prefix_append _ _).trans starts)

/-- A key behind the label of a path is looked up at its end. -/
theorem PathSound.mem_plug :
    (pathLabel path ++ key, value) ∈ (plug path node).entries ↔ (key, value) ∈ node.entries := by
  rw [(sound.entries_plug node).mem_iff, mem_append, mem_behind]
  constructor
  · intro listed
    rcases listed with ⟨other, inside, named⟩ | outside
    · rw [append_cancel_left named]
      exact inside
    · exact absurd (prefix_append _ _) (sound.not_label_prefix outside)
  · intro inside
    exact Or.inl ⟨key, inside, rfl⟩

omit sound in
theorem length_nodes_plug (path : List (Frame V)) (node : Node V) :
    (plug path node).nodes.length = node.nodes.length + pathNodes path := by
  induction path generalizing node with
  | nil => rfl
  | cons frame path ih =>
    rw [plug, ih]
    simp only [Frame.fill, Node.nodes, nodesOf_append, nodesOf, length_cons,
      length_append, pathNodes]
    omega

/-- A sound node at the end of a sound path makes a sound tree; only the root may be empty. -/
theorem PathSound.plug_sound (nodeSound : node.Sound)
    (live : path ≠ [] → node.Live) : (plug path node).Sound := by
  induction path generalizing node with
  | nil => exact nodeSound
  | cons frame path ih =>
    apply ih sound.tail
    · exact sound.head.fill_sound nodeSound (live (cons_ne_nil _ _))
    · exact fun _ => sound.head.fill_live node

end

/-- Below a node that is not empty there is a key, so no branch is kept for nothing. -/
theorem Node.Sound.exists_entry : ∀ {node : Node V}, node.Sound → node.Live →
    ∃ entry, entry ∈ node.entries := by
  intro node
  -- Going down from a node that is no key, some branch ends at a key.
  induction node using Node.induction with
  | step header children ih =>
    intro sound live
    obtain ⟨fits, sound, alive⟩ := sound
    rw [Node.entries]
    by_cases key : header.iskey = true
    · exact ⟨([], raxGetData header), by simp [Header.own, key]⟩
    have paired := fits.length_labels
    have some : children ≠ [] := by
      intro none
      subst none
      rcases live with isKey | sized
      · exact key isKey
      · cases compr : header.iscompr with
        | true => exact absurd (fits.compressed compr).2 (by simp)
        | false => exact sized (fits.plain compr).2.symm
    cases children with
    | nil => exact absurd rfl some
    | cons child children =>
      cases labels : header.labels with
      | nil => simp [labels] at paired
      | cons label rest =>
        obtain ⟨entry, inside⟩ := ih child mem_cons_self (sound child mem_cons_self)
          (alive child mem_cons_self)
        refine ⟨(label ++ entry.1, entry.2), ?_⟩
        apply mem_append_right
        exact mem_append_left _ (mem_behind.mpr ⟨entry.1, inside, rfl⟩)

/-- Every node of a sound tree is sound. -/
theorem Node.Sound.of_mem_nodes : ∀ {node : Node V}, node.Sound →
    ∀ other ∈ node.nodes, other.Sound := by
  intro node
  induction node using Node.induction with
  | step header children ih =>
    intro sound other listed
    obtain ⟨fits, sound, live⟩ := sound
    rw [Node.nodes, mem_cons] at listed
    rcases listed with same | below
    · exact same ▸ .mk fits sound live
    clear fits live
    induction children with
    | nil => simp [nodesOf] at below
    | cons child children inner =>
      rw [nodesOf, mem_append] at below
      rcases below with first | later
      · exact ih child mem_cons_self (sound child mem_cons_self) other first
      · exact inner (fun c listed => ih c (mem_cons_of_mem _ listed))
          (fun c listed => sound c (mem_cons_of_mem _ listed)) later

@[simp] theorem raxSetData_data (h : Header V) (value : Option V) :
    (raxSetData h value).data = h.data := by
  cases value <;> rfl

@[simp] theorem raxSetData_iscompr (h : Header V) (value : Option V) :
    (raxSetData h value).iscompr = h.iscompr := by
  cases value <;> rfl

@[simp] theorem raxSetData_labels (h : Header V) (value : Option V) :
    (raxSetData h value).labels = h.labels := by
  simp [Header.labels]

@[simp] theorem raxSetData_own (h : Header V) (value : Option V) :
    (raxSetData h value).own = [([], value)] := by
  cases value <;> rfl

@[simp] theorem Header.keyedAs_data (other h : Header V) : (other.keyedAs h).data = other.data := by
  unfold Header.keyedAs
  split <;> simp

@[simp] theorem Header.keyedAs_iscompr (other h : Header V) :
    (other.keyedAs h).iscompr = other.iscompr := by
  unfold Header.keyedAs
  split <;> simp

theorem Header.keyedAs_own (unkeyed : h.iskey = false → other.iskey = false) :
    (other.keyedAs h).own = h.own := by
  unfold Header.keyedAs
  by_cases key : h.iskey = true
  · rw [if_pos key, raxSetData_own, Header.own, if_pos key]
  · rw [if_neg key, Header.own, Header.own, if_neg key, unkeyed (Bool.not_eq_true _ ▸ key)]
    rfl

theorem Header.Fits.congr (fits : h.Fits arity) (compr : other.iscompr = h.iscompr)
    (data : other.data = h.data) : other.Fits arity :=
  ⟨by rw [compr, data]; exact fits.compressed, by rw [compr, data]; exact fits.plain⟩

/-- Setting the key flag or the value leaves the shape of a node. -/
theorem Node.Sound.withHeader (sound : (Node.mk h children).Sound)
    (compr : other.iscompr = h.iscompr) (data : other.data = h.data) :
    (Node.mk other children).Sound := by
  obtain ⟨fits, sound, live⟩ := sound
  exact .mk (fits.congr compr data) sound live

/-- One child: compressed from two characters on. -/
structure Header.Single (h : Header V) : Prop where
  some : h.data ≠ []
  iscompr : h.iscompr = decide (h.data.length > 1)

theorem Header.Single.fits (single : h.Single) : h.Fits 1 := by
  have positive := length_pos_iff.mpr single.some
  constructor
  · intro compr
    rw [single.iscompr, decide_eq_true_eq] at compr
    exact ⟨compr, rfl⟩
  intro plain
  rw [single.iscompr, decide_eq_false_iff_not] at plain
  have one : h.data.length = 1 := by omega
  obtain ⟨c, only⟩ := length_eq_one_iff.mp one
  rw [only]
  exact ⟨pairwise_singleton _ _, rfl⟩

theorem Header.Single.labels_eq (single : h.Single) : h.labels = [h.data] := by
  have positive := length_pos_iff.mpr single.some
  cases compr : h.iscompr with
  | true => simp [Header.labels, compr]
  | false =>
    have short := single.iscompr
    rw [compr, eq_comm, decide_eq_false_iff_not] at short
    have one : h.data.length = 1 := by omega
    obtain ⟨c, only⟩ := length_eq_one_iff.mp one
    simp [Header.labels, only]

theorem Header.labels_of_iscompr (compr : h.iscompr = true) : h.labels = [h.data] := by
  simp [Header.labels, compr]

theorem entries_of_labels (only : h.labels = [h.data]) (child : Node V) :
    (Node.mk h [child]).entries = h.own ++ behind h.data child.entries := by
  simp [Node.entries, only, edgeEntries]

theorem Node.Sound.single (fits : h.Fits 1) (sound : child.Sound) (live : child.Live) :
    (Node.mk h [child]).Sound :=
  .mk fits (by simpa using sound) (by simpa using live)

theorem Frame.Sound.single (fits : h.Fits 1) : (Frame.mk h [] []).Sound :=
  ⟨fits, by simp, by simp⟩

theorem Node.entries_eq (node : Node V) :
    node.entries = node.header.own ++ edgeEntries node.header.labels node.children := by
  cases node
  rw [Node.entries, Node.header, Node.children]

theorem Node.length_nodes (node : Node V) :
    node.nodes.length = (nodesOf node.children).length + 1 := by
  cases node
  simp [Node.nodes, Node.children]

@[simp] theorem length_nodes_mk (h : Header V) (children : List (Node V)) :
    (Node.mk h children).nodes.length = (nodesOf children).length + 1 := by
  simp [Node.nodes]

@[simp] theorem leaf_entries : (leaf : Node V).entries = [] := rfl

theorem leaf_sound : (leaf : Node V).Sound :=
  .mk ⟨by simp [raxNewNode], by simp [raxNewNode]⟩ (by simp) (by simp)

/-- A well-formed tree with exact counters. -/
structure Good (rax : Rax V) : Prop where
  sound : rax.head.Sound
  distinct : (rax.head.entries.map Prod.fst).Nodup
  numele : rax.numele = rax.head.entries.length
  numnodes : rax.numnodes = rax.head.nodes.length
  short : ∀ entry ∈ rax.head.entries, entry.1.length < raxNodeMaxSize

/-- The empty tree meets the invariant. -/
theorem raxNew_good : Good (raxNew : Rax V) :=
  ⟨leaf_sound, nodup_nil, rfl, rfl, by simp [raxNew]⟩

/-- One entry more, and both count their nodes alike. -/
structure Adds (rax other : Rax V) (key : Bytes) (value : Option V) : Prop where
  entries : other.head.entries.Perm ((key, value) :: rax.head.entries)
  numele : other.numele = rax.numele + 1
  numnodes : other.numnodes + rax.head.nodes.length = rax.numnodes + other.head.nodes.length

/-- Adding a new key keeps the invariant. -/
theorem Good.adds {other : Rax V} (good : Good rax) (adds : Adds rax other key value)
    (sound : other.head.Sound) (absent : ∀ old, (key, old) ∉ rax.head.entries)
    (short : key.length < raxNodeMaxSize) :
    Good other := by
  refine ⟨sound, ?_, ?_, ?_, ?_⟩
  · rw [(adds.entries.map Prod.fst).nodup_iff, map_cons, nodup_cons]
    refine ⟨?_, good.distinct⟩
    intro listed
    obtain ⟨⟨other, old⟩, inside, same⟩ := mem_map.mp listed
    simp only at same
    exact absent old (same ▸ inside)
  · rw [adds.numele, good.numele, adds.entries.length_eq, length_cons]
  · have counted := adds.numnodes
    rw [good.numnodes] at counted
    omega
  · intro entry listed
    rcases mem_cons.mp (adds.entries.mem_iff.mp listed) with same | inside
    · exact same ▸ short
    · exact good.short entry inside

/-- Taking a key away keeps it as well. -/
theorem Good.removes {other : Rax V} (good : Good other) (adds : Adds rax other key value)
    (sound : rax.head.Sound) : Good rax := by
  have listed := (adds.entries.map Prod.fst).nodup_iff.mp good.distinct
  rw [map_cons, nodup_cons] at listed
  refine ⟨sound, listed.2, ?_, ?_, ?_⟩
  · have counted := adds.numele
    rw [good.numele, adds.entries.length_eq, length_cons] at counted
    omega
  · have counted := adds.numnodes
    rw [good.numnodes] at counted
    omega
  · exact fun entry inside =>
      good.short entry (adds.entries.mem_iff.mpr (mem_cons_of_mem _ inside))

end LearningNotes.Rax
