import LearningNotes.Rax.Chained
import Mathlib.Data.List.Chain

/-! Whether a tree stays as compressed as it can be when keys are removed. -/

namespace LearningNotes.Rax

open Lib

variable {V : Type} {limit : Nat} {path : List (Frame V)}

instance (limit : Nat) (h child : Header V) : Decidable (Merges limit h child) :=
  inferInstanceAs (Decidable (_ ∧ _ ∧ _))

/-- No node of the list could be merged with the next. -/
def Packed (limit : Nat) (nodes : List (Node V)) : Prop :=
  ∀ h ∈ nodes, ∀ child ∈ h.children, ¬ Merges limit h.header child.header

instance (limit : Nat) (nodes : List (Node V)) : Decidable (Packed limit nodes) :=
  inferInstanceAs (Decidable (∀ h ∈ nodes, ∀ child ∈ h.children, _))

/-- The node above a slot could not be merged with one in it. -/
def Apart (limit : Nat) (path : List (Frame V)) (h : Header V) : Prop :=
  ∀ frame ∈ path.head?, ¬ Merges limit frame.header h

/-- Nothing could be merged around a slot, whatever is in it. -/
def Around (limit : Nat) : List (Frame V) → Prop
  | [] => True
  | frame :: path =>
    (∀ other ∈ frame.before ++ frame.after, ¬ Merges limit frame.header other.header) ∧
      Packed limit (nodesOf frame.before ++ nodesOf frame.after) ∧ Apart limit path frame.header ∧
      Around limit path

theorem packed_append {nodes others : List (Node V)} :
    Packed limit (nodes ++ others) ↔ Packed limit nodes ∧ Packed limit others :=
  List.forall_mem_append

theorem packed_node (h : Node V) : Packed limit h.nodes ↔
    (∀ child ∈ h.children, ¬ Merges limit h.header child.header) ∧
      Packed limit (nodesOf h.children) := by
  cases h
  exact List.forall_mem_cons

theorem packed_plug (h : Node V) : Packed limit (plug path h).nodes ↔
    Around limit path ∧ Apart limit path h.header ∧ Packed limit h.nodes := by
  induction path generalizing h with
  | nil => simp [plug, Around, Apart]
  | cons frame path ih =>
    rw [plug, ih, packed_node]
    simp only [Frame.fill, Node.children, nodesOf_append, nodesOf, packed_append,
      List.forall_mem_append, List.forall_mem_cons, Around, Apart, List.head?_cons,
      Option.mem_some_iff, forall_eq']
    tauto

theorem Around.of_suffix {above : List (Frame V)} (around : Around limit path)
    (shorter : above <:+ path) : Around limit above := by
  obtain ⟨front, rfl⟩ := shorter
  induction front with
  | nil => exact around
  | cons frame front ih => exact ih around.2.2.2

/-- The changed node could not be merged with one above or below. -/
def Unlinked.Isolated (limit : Nat) (unlinked : Unlinked V) : Prop :=
  Apart limit unlinked.path unlinked.h.header ∧
    ∀ child ∈ unlinked.h.children, ¬ Merges limit unlinked.h.header child.header

/-- No two neighbours of a chain could be merged. -/
def Tight (limit : Nat) (sizes : List Nat) : Prop :=
  sizes.IsChain fun size next => limit < size + next

instance (limit : Nat) (sizes : List Nat) : Decidable (Tight limit sizes) :=
  inferInstanceAs (Decidable (sizes.IsChain _))

variable {h : Node V} {unlinked : Unlinked V}

theorem Packed.tight (packed : Packed limit h.nodes) (sound : h.Sound)
    (inner : endsChain h.header = false) : Tight limit h.sizes := by
  induction h using Node.induction with
  | step header children ih =>
    obtain ⟨_, one, _, _⟩ := sound.fits.chain inner
    obtain ⟨next, rfl⟩ := List.length_eq_one_iff.mp one
    obtain ⟨apart, below⟩ := (packed_node _).mp packed
    simp only [Node.children, nodesOf, List.append_nil, List.mem_singleton, forall_eq] at apart below
    rw [Node.sizes, nextSizes]
    cases ends : endsChain next.header with
    | true => exact .singleton _
    | false =>
      have rest := ih next (by simp) below (sound.children_sound next (by simp [Node.children])) ends
      rw [next.sizes_eq] at rest
      rw [if_neg Bool.false_ne_true, next.sizes_eq]
      exact .cons_cons (Nat.lt_of_not_le fun fits => apart ⟨inner, ends, fits⟩) rest

/-- The changed node is isolated if no neighbours in its chain could be merged. -/
theorem Unlinked.Isolated.of_tight (sound : unlinked.h.Sound)
    (inner : endsChain unlinked.h.header = false)
    (tight : Tight limit (chainSizes unlinked.path unlinked.h.header.size unlinked.h.children)) :
    unlinked.Isolated limit := by
  constructor
  · intro frame above merges
    obtain ⟨rest, path⟩ := List.head?_eq_some_iff.mp above
    rw [chainSizes, path, List.takeWhile_cons, merges.1] at tight
    simp only [Bool.not_false, if_true, List.map_cons, List.reverse_cons, List.append_assoc,
      List.singleton_append] at tight
    exact Nat.not_lt.mpr merges.2.2 (List.isChain_append_cons_cons.mp tight).2.1
  · obtain ⟨_, one, _, _⟩ := sound.fits.chain inner
    obtain ⟨next, only⟩ := List.length_eq_one_iff.mp one
    rw [only]
    rintro child listed merges
    obtain rfl := List.mem_singleton.mp listed
    rw [chainSizes, only, nextSizes_inner merges.2.1, child.sizes_eq] at tight
    exact Nat.not_lt.mpr merges.2.2 (List.isChain_append_cons_cons.mp tight).2.1

/-- Nothing could be merged around the changed node iff it is in no chain or in a tight one. -/
theorem Unlinks.tight_iff {rax : Rax V} {s : Bytes} (unlinks : Unlinks rax s unlinked)
    (isolated : Packed limit (plug unlinked.path unlinked.h).nodes ↔ unlinked.Isolated limit) :
    unlinked.Isolated limit ↔ (endsChain unlinked.h.header = false →
      Tight limit (chainSizes unlinked.path unlinked.h.header.size unlinked.h.children)) := by
  constructor
  · intro apart inner
    obtain ⟨path, start, sought, -, startSound, startInner, same, -⟩ :=
      seekStart_spec unlinks.path unlinks.sound inner
    have sizes := sizes_seekStart unlinks.path inner
    rw [sought] at sizes
    rw [← sizes]
    exact Packed.tight ((packed_plug start).mp (same ▸ isolated.mpr apart)).2.2 startSound startInner
  · intro tight
    by_cases ends : endsChain unlinked.h.header = true
    · exact ⟨fun frame _ merges => Bool.noConfusion (ends.symm.trans merges.2.1),
        fun child _ merges => Bool.noConfusion (ends.symm.trans merges.1)⟩
    · rw [Bool.not_eq_true] at ends
      exact .of_tight unlinks.sound ends (tight ends)

/-- A condition on the chain around the changed node. -/
theorem forall_chained_iff {rax : Rax V} {s : Bytes} (sound : rax.head.Sound)
    (done : unlinkKey rax s = .ok (some unlinked)) {holds : Bool → List Nat → Prop} :
    (∀ tried sizes, Chained rax.head s tried sizes → holds tried sizes) ↔
      (endsChain unlinked.h.header = false → holds unlinked.trycompress
        (chainSizes unlinked.path unlinked.h.header.size unlinked.h.children)) := by
  simp only [unlinkKey_chained sound done]
  refine ⟨fun every inner => every _ _ ⟨inner, rfl, rfl⟩, ?_⟩
  rintro this _ _ ⟨inner, rfl, rfl⟩
  exact this inner

/-- Removing a key keeps a tree packed, iff in the chain around the node that loses its key or a
child no neighbours could be merged, or its compression is tried and all of it fits one node. -/
theorem raxRemove_packed_iff {rax : Rax V} (sound : rax.head.Sound)
    (numnodes : rax.numnodes = rax.head.nodes.length)
    (packed : Packed raxNodeMaxSize rax.head.nodes) (s : Bytes) :
    (∃ result, raxRemove rax s = .ok result ∧ Packed raxNodeMaxSize result.2.head.nodes) ↔
    ∀ tried sizes, Chained rax.head s tried sizes →
      Tight raxNodeMaxSize sizes ∨ tried = true ∧ sizes.sum ≤ raxNodeMaxSize := by
  rw [raxRemove]
  rcases unlinkKey_meets sound numnodes s with ⟨missing, absent⟩ | ⟨unlinked, done, unlinks⟩
  · simp only [raxRemoveWithin, missing]
    refine iff_of_true ⟨_, rfl, packed⟩ fun tried sizes chained => ?_
    obtain ⟨old, listed⟩ := chained.listed sound
    exact absurd listed (absent old)
  -- What the removal has not touched is packed, so that only the changed node matters.
  obtain ⟨before, same, fewer⟩ := unlinks.place
  obtain ⟨around, -, inside⟩ := (packed_plug before).mp (same ▸ packed)
  have below : Packed raxNodeMaxSize (nodesOf unlinked.h.children) :=
    fun node listed => ((packed_node before).mp inside).2 node (fewer listed)
  have isolated : Packed raxNodeMaxSize (plug unlinked.path unlinked.h).nodes ↔
      unlinked.Isolated raxNodeMaxSize := by
    rw [packed_plug, packed_node, Unlinked.Isolated]
    tauto
  rcases unlinks.removed raxNodeMaxSize done with ⟨overruns, failed⟩ |
    ⟨within, other, removed, settled, -⟩
  · rw [failed]
    refine iff_of_false ?_ fun holds => ?_
    · rintro ⟨_, impossible, _⟩
      cases impossible
    -- The chain starts with two nodes that could be merged.
    obtain ⟨sizes, chained, ⟨first, second, rest, rfl, fits⟩, long⟩ :=
      (unlinks.overruns_iff sound done).mp overruns
    rcases holds true _ chained with tight | ⟨-, short⟩
    · exact Nat.not_lt.mpr fits (List.isChain_cons_cons.mp tight).1
    · exact Nat.not_lt.mpr short long
  have result : (∃ result, raxRemoveWithin raxNodeMaxSize rax s = .ok result ∧
      Packed raxNodeMaxSize result.2.head.nodes) ↔ Packed raxNodeMaxSize other.head.nodes := by
    simp [removed]
  have tight := unlinks.tight_iff isolated
  rw [result, forall_chained_iff sound done]
  generalize other.head = tree at settled
  cases settled with
  | skipped skips => rw [isolated, tight, skips]; simp
  | @tried path start node tries sought same shorter lands ended recompressed =>
    have inner := unlinks.inner tries
    obtain ⟨_, _, sought', -, startSound, startInner, -⟩ :=
      seekStart_spec unlinks.path unlinks.sound inner
    have sizes := sizes_seekStart unlinks.path inner
    rw [sought] at sought' sizes
    cases sought'
    simp only [tries, true_and, inner, true_implies, ← sizes] at tight ⊢
    cases recompressed with
    | alone apart =>
      rw [same, isolated, tight, or_iff_left_of_imp]
      -- A chain that fits one node as a whole has no second node then.
      intro short
      cases listed : start.sizes with
      | nil => exact .nil
      | cons first others =>
        cases others with
        | nil => exact .singleton _
        | cons second rest =>
          rw [listed, List.sum_cons, List.sum_cons] at short
          obtain ⟨next, child, merges⟩ := (joins_iff startSound startInner).mpr
            ⟨first, second, rest, listed, (by omega : first + second ≤ raxNodeMaxSize)⟩
          exact absurd merges (apart next child)
    | merged chain joins =>
      have short : start.sizes.sum ≤ raxNodeMaxSize := by
        rw [sum_sizes startSound startInner]
        exact Nat.le_of_not_lt fun long => within ⟨tries, by rw [sought]; exact ⟨joins, long⟩⟩
      refine iff_of_true ?_ (.inr short)
      -- The nodes above and below the merged one end a chain.
      obtain ⟨_, changed, -⟩ := scans_chain (Nat.le_refl _) unlinks.sound inner
      refine (packed_plug _).mpr ⟨around.of_suffix shorter, ?_, (packed_node _).mpr ⟨?_, ?_⟩⟩
      · exact fun frame above merges => Bool.noConfusion ((ended frame above).symm.trans merges.1)
      · simp [Node.children, Merges, chain.ends]
      · intro node listed
        apply below node (changed.kept _)
        simpa [Node.children, nodesOf, lands] using listed

/-- Three nodes in a row become one, of which the second had the key. -/
theorem rowTree_packed : ∃ result, raxRemove rowTree [1, 2] = .ok result ∧
    Packed raxNodeMaxSize result.2.head.nodes := by
  apply (raxRemove_packed_iff rowTree_sound rfl (by decide) [1, 2]).mpr
  intro tried sizes chained
  obtain ⟨rfl, rfl⟩ := rowTree_chained chained
  exact .inr ⟨rfl, by decide⟩

/-- The keys `FOO` and `FOOBAR`. -/
def fooTree : Rax Nat :=
  ⟨.mk ⟨false, false, true, [70, 79, 79], none⟩ [.mk ⟨true, false, true, [66, 65, 82], some 1⟩
    [.mk (raxSetData (raxNewNode []) (some 2)) []]], 2, 3⟩

/-- Taking the shorter key out of a tree leaves two nodes that could be one. -/
theorem fooTree_not_packed : Packed raxNodeMaxSize fooTree.head.nodes ∧
    (raxRemove fooTree [70, 79, 79]).map (fun result =>
      decide (Packed raxNodeMaxSize result.2.head.nodes)) = .ok false := by
  decide

end LearningNotes.Rax
