import LearningNotes.Rax.Insert

/-! Removal takes exactly one entry away: freeing and recompressing nodes keeps the others. -/

namespace LearningNotes.Rax

open Lib List

variable {V : Type}

theorem Header.Fits.chain {h : Header V} {arity : Nat} (fits : h.Fits arity)
    (inner : endsChain h = false) :
    h.own = [] ∧ arity = 1 ∧ h.labels = [h.data] ∧ 0 < h.size := by
  simp only [endsChain, Bool.or_eq_false_iff] at inner
  obtain ⟨unkeyed, form⟩ := inner
  refine ⟨by simp [Header.own, unkeyed], ?_⟩
  cases compr : h.iscompr with
  | true =>
    obtain ⟨long, one⟩ := fits.compressed compr
    refine ⟨one, Header.labels_of_iscompr compr, ?_⟩
    rw [Header.size]
    omega
  | false =>
    have one : h.size = 1 := by simpa [compr] using form
    obtain ⟨c, only⟩ := length_eq_one_iff.mp one
    refine ⟨(fits.plain compr).2.trans one, ?_, by omega⟩
    simp [Header.labels, only]

variable {frame : Frame V} {h : Node V} {path : List (Frame V)} {rax : Rax V} {s : Bytes}
    {unlinked : Unlinked V}

theorem raxRemoveChild_spec (sound : frame.Sound) :
    (raxRemoveChild frame).Sound ∧ (raxRemoveChild frame).entries.Perm frame.outside ∧
      (raxRemoveChild frame).nodes.length =
        (nodesOf frame.before).length + (nodesOf frame.after).length + 1 ∧
      (endsChain frame.header = true → (raxRemoveChild frame).Live) := by
  rw [raxRemoveChild]
  by_cases compr : frame.header.iscompr = true
  · -- A compressed node loses its only child, and its characters with it.
    rw [if_pos compr]
    have one := (sound.fits.compressed compr).2
    have before : frame.before = [] := length_eq_zero_iff.mp (by omega)
    have after : frame.after = [] := length_eq_zero_iff.mp (by omega)
    generalize emptied : ({ frame.header with isnull := false, iscompr := false, data := [] } :
      Header V) = header
    have data : (header.keyedAs frame.header).data = [] := by
      rw [Header.keyedAs_data, ← emptied]
    have plain : (header.keyedAs frame.header).iscompr = false := by
      rw [Header.keyedAs_iscompr, ← emptied]
    have own : (header.keyedAs frame.header).own = frame.header.own := by
      apply Header.keyedAs_own
      rw [← emptied]
      exact id
    refine ⟨.mk ⟨?_, ?_⟩ (by simp) (by simp), ?_, ?_, ?_⟩
    · exact fun compr => absurd (plain.symm.trans compr) (by simp)
    · intro _
      rw [data]
      exact ⟨List.Pairwise.nil, rfl⟩
    · simp [Node.entries, edgeEntries, own, Frame.outside, before, after]
    · simp [nodesOf, before, after]
    · intro ends
      simp only [endsChain, compr, Bool.not_true, Bool.false_and, Bool.or_false] at ends
      left
      simp only [Header.keyedAs, ends]
      cases raxGetData frame.header <;> rfl
  · -- The other edges keep their characters and their order.
    rw [if_neg compr]
    rw [Bool.not_eq_true] at compr
    obtain ⟨sorted, arity⟩ := sound.fits.plain compr
    have erased : frame.header.data.eraseIdx frame.before.length =
        frame.header.data.take frame.before.length ++
          frame.header.data.drop (frame.before.length + 1) := eraseIdx_eq_take_drop_succ _ _
    have labels : (frame.header.withEdges (frame.header.data.eraseIdx frame.before.length)).labels =
        frame.header.labels.take frame.before.length ++
          frame.header.labels.drop (frame.before.length + 1) := by
      simp [Header.labels, Header.withEdges, compr, erased]
    have left : (frame.header.labels.take frame.before.length).length = frame.before.length := by
      have total := sound.fits.length_labels
      rw [length_take]
      omega
    have size : (frame.header.data.eraseIdx frame.before.length).length =
        frame.before.length + frame.after.length := by
      rw [length_eraseIdx_of_lt (by omega)]
      omega
    refine ⟨.mk ⟨?_, ?_⟩ sound.sound sound.live, ?_, ?_, ?_⟩
    · exact fun c => absurd (compr.symm.trans c) (by simp)
    · intro _
      refine ⟨sorted.sublist (eraseIdx_sublist _ _), ?_⟩
      rw [length_append]
      exact size.symm
    · rw [Node.entries, labels, edgeEntries_append left]
      exact .refl _
    · simp
    · intro ends
      simp only [endsChain, compr, Bool.not_false, Bool.true_and, Bool.or_eq_true,
        bne_iff_ne] at ends
      rcases ends with key | branches
      · exact .inl key
      · right
        show (frame.header.data.eraseIdx frame.before.length).length ≠ 0
        rw [Header.size] at branches
        omega

theorem Frame.Sound.fill_chain (sound : frame.Sound) (inner : endsChain frame.header = false)
    (child : Node V) :
    (frame.fill child).entries = behind frame.header.data child.entries ∧
      (frame.fill child).nodes.length = child.nodes.length + 1 ∧
      (frame.fill child).children = [child] := by
  obtain ⟨own, one, labels, _⟩ := sound.fits.chain inner
  have before : frame.before = [] := length_eq_zero_iff.mp (by omega)
  have after : frame.after = [] := length_eq_zero_iff.mp (by omega)
  rw [Frame.fill, before, after, nil_append]
  refine ⟨?_, by simp [nodesOf], rfl⟩
  rw [entries_of_labels labels, own, nil_append]

theorem plug_append (freed path : List (Frame V)) (node : Node V) :
    plug (freed ++ path) node = plug path (plug freed node) := by
  induction freed generalizing node with
  | nil => rfl
  | cons frame freed ih => exact ih (frame.fill node)

/-- Nodes are freed up to the head or the first one that ends a chain. -/
theorem freeUpwards_splits (frame : Frame V) (path : List (Frame V)) (numnodes : Nat) :
    ∃ freed frame' path',
      freeUpwards frame path numnodes = (frame', path', numnodes - (freed.length + 1)) ∧
      frame :: path = freed ++ frame' :: path' ∧ (∀ gone ∈ freed, endsChain gone.header = false) ∧
      (path' ≠ [] → endsChain frame'.header = true) := by
  induction path generalizing frame numnodes with
  | nil => exact ⟨[], frame, [], rfl, rfl, nofun, fun some => absurd rfl some⟩
  | cons above path ih =>
    rw [freeUpwards]
    by_cases ends : endsChain frame.header = true
    · rw [if_pos ends]
      exact ⟨[], frame, above :: path, rfl, rfl, nofun, fun _ => ends⟩
    · rw [if_neg ends]
      obtain ⟨freed, frame', path', done, split, inner, ended⟩ := ih above (numnodes - 1)
      refine ⟨frame :: freed, frame', path', ?_, by rw [split, cons_append],
        forall_mem_cons.mpr ⟨Bool.not_eq_true _ ▸ ends, inner⟩, ended⟩
      rw [done, length_cons, Nat.sub_sub, Nat.add_comm 1]

/-- Unlinking the freed nodes leaves what is outside of the slot, since nothing is behind it. -/
theorem freed_spec {freed : List (Frame V)} {dead : Node V}
    (sound : PathSound (freed ++ frame :: path))
    (inner : ∀ gone ∈ freed, endsChain gone.header = false) (hollow : dead.entries = []) :
    (plug path (raxRemoveChild frame)).entries.Perm (plug (freed ++ frame :: path) dead).entries ∧
      (plug path (raxRemoveChild frame)).nodes.length + (freed.length + dead.nodes.length) =
        (plug (freed ++ frame :: path) dead).nodes.length := by
  induction freed generalizing dead with
  | nil =>
    obtain ⟨_, entries, nodes, _⟩ := raxRemoveChild_spec sound.head
    constructor
    · apply sound.tail.entries_plug_perm
      refine entries.trans (List.Perm.symm ?_)
      simpa [hollow] using sound.head.entries_fill dead
    · rw [nil_append, length_nodes_plug, length_nodes_plug, nodes, pathNodes, length_nil]
      omega
  | cons gone freed ih =>
    -- The node above a dead one is dead too.
    rw [forall_mem_cons] at inner
    obtain ⟨entries, nodes, _⟩ := sound.head.fill_chain inner.1 dead
    obtain ⟨same, counted⟩ := @ih (gone.fill dead) sound.tail inner.2
      (by rw [entries, hollow, behind_empty])
    refine ⟨same, ?_⟩
    rw [cons_append, plug, ← counted, nodes, length_cons]
    omega

mutual

/-- The characters of the chain from a node on, and the node at its end. -/
def Node.chain : Node V → Bytes × Node V
  | .mk header children => (header.data ++ (nextChain children).1, (nextChain children).2)

/-- The chain behind a node with these children. -/
def nextChain : List (Node V) → Bytes × Node V
  | [next] => if endsChain next.header then ([], next) else next.chain
  | _ => ([], leaf)

end

theorem Node.chain_of_only {next : Node V} (only : h.children = [next]) :
    h.chain.1 = h.header.data ++ (if endsChain next.header then [] else next.chain.1) ∧
      h.chain.2 = if endsChain next.header then next else next.chain.2 := by
  cases h
  simp only [Node.children] at only
  rw [only, Node.chain, nextChain, Node.header]
  split <;> simp

theorem Node.nodesOf_subset (h : Node V) : nodesOf h.children ⊆ h.nodes := by
  cases h
  simp [Node.nodes, Node.children]

theorem Node.size_le_chain (h : Node V) : h.header.size ≤ h.chain.1.length := by
  cases h
  simp [Node.chain, Node.header, Header.size]

theorem seekStart_spec (pathSound : PathSound path) (sound : h.Sound)
    (inner : endsChain h.header = false) :
    ∃ path' start, seekStart path h = (path', start) ∧ path' <:+ path ∧ start.Sound ∧
      endsChain start.header = false ∧ plug path' start = plug path h ∧
      start.chain.2 = h.chain.2 ∧ ∀ frame ∈ path'.head?, endsChain frame.header = true := by
  induction path generalizing h with
  | nil => exact ⟨[], h, rfl, suffix_rfl, sound, inner, rfl, rfl, by simp⟩
  | cons frame path ih =>
    rw [seekStart]
    by_cases ends : endsChain frame.header = true
    · rw [if_pos ends]
      exact ⟨frame :: path, h, rfl, suffix_rfl, sound, inner, rfl, rfl, by simp [ends]⟩
    rw [if_neg ends]
    rw [Bool.not_eq_true] at ends
    have live : h.Live := .inr (Nat.ne_of_gt (sound.fits.chain inner).2.2.2)
    have final := (Node.chain_of_only (pathSound.head.fill_chain ends h).2.2).2
    rw [if_neg (by simp [inner])] at final
    obtain ⟨path', start, sought, shorter, kept, starts, same, lands, ended⟩ :=
      ih pathSound.tail (pathSound.head.fill_sound sound live) ends
    exact ⟨path', start, sought, shorter.trans (suffix_cons frame path), kept, starts, same,
      lands.trans final, ended⟩

/-- Two nodes that one compressed node could hold. -/
def Merges (limit : Nat) (h child : Header V) : Prop :=
  endsChain h = false ∧ endsChain child = false ∧ h.size + child.size ≤ limit

/-- A chain, read as one string in front of its last node. -/
structure Chain (h : Node V) (nodes : Nat) : Prop where
  sound : h.chain.2.Sound
  live : h.chain.2.Live
  ends : endsChain h.chain.2.header = true
  entries : h.entries = behind h.chain.1 h.chain.2.entries
  counted : h.nodes.length = h.chain.2.nodes.length + nodes
  kept : h.chain.2.nodes ⊆ nodesOf h.children
  positive : 1 ≤ nodes
  long : nodes ≤ h.chain.1.length
  several : (∃ next ∈ h.children, endsChain next.header = false) → 2 ≤ nodes

/-- What the first scan finds, from given numbers on. -/
structure Scanned (limit : Nat) (h : Node V) (seen comprsize nodes size : Nat) : Prop where
  grows : seen ≤ nodes
  more : seen < nodes ↔ ∃ next ∈ h.children, endsChain next.header = false ∧
    comprsize + next.header.size ≤ limit
  bounded : size ≤ max comprsize limit
  whole : comprsize + (h.chain.1.length - h.header.size) ≤ limit →
    size = comprsize + (h.chain.1.length - h.header.size)

/-- The second scan copies all; the first one stops at the limit. -/
theorem scans_chain {fuel : Nat} {h : Node V} (enough : h.nodes.length ≤ fuel) (sound : h.Sound)
    (inner : endsChain h.header = false) :
    ∃ nodes, Chain h nodes ∧
      (∀ data numnodes, copyChain fuel h data numnodes =
        .ok (data ++ h.chain.1, h.chain.2, numnodes - nodes)) ∧
      ∀ limit seen comprsize, ∃ nodes size,
        scanChain limit fuel h seen comprsize = .ok (nodes, size) ∧
          Scanned limit h seen comprsize nodes size := by
  -- Both scans go down one node at a time; the chain below is longer by the node they are at.
  induction fuel generalizing h with
  | zero =>
    have some := h.length_nodes
    omega
  | succ fuel ih =>
    obtain ⟨own, one, labels, positive⟩ := sound.fits.chain inner
    obtain ⟨next, only⟩ := length_eq_one_iff.mp one
    have last : raxNodeLastChild h = .ok next := by simp [raxNodeLastChild, only]
    have nextSound : next.Sound := sound.children_sound next (by simp [only])
    have nextLive : next.Live := sound.children_live next (by simp [only])
    have entries : h.entries = behind h.header.data next.entries := by
      rw [h.entries_eq, own, labels, only]
      simp [edgeEntries]
    have counted : h.nodes.length = next.nodes.length + 1 := by
      rw [h.length_nodes, only]
      simp [nodesOf]
    have sized : ¬ h.header.size = 0 := by omega
    obtain ⟨text, final⟩ := Node.chain_of_only only
    have behind : nodesOf h.children = next.nodes := by simp [only, nodesOf]
    by_cases ends : endsChain next.header = true
    · rw [if_pos ends, append_nil] at text
      rw [if_pos ends] at final
      refine ⟨1, ⟨final ▸ nextSound, final ▸ nextLive, final ▸ ends, by rw [text, final, entries],
        final ▸ counted, by rw [behind, final]; exact List.Subset.refl _, Nat.le_refl 1,
        text ▸ positive, by simp [only, ends]⟩, ?_, ?_⟩
      · intro data numnodes
        rw [copyChain, if_neg sized, text, final]
        simp [last, ends]
        rfl
      · intro limit seen comprsize
        refine ⟨seen, comprsize, ?_, Nat.le_refl _, by simp [only, ends], Nat.le_max_left _ _, ?_⟩
        · rw [scanChain, if_neg sized]
          simp [last, ends]
          rfl
        · simp [text, Header.size]
    · have goes : endsChain next.header = false := Bool.not_eq_true _ ▸ ends
      obtain ⟨below, chain, copied, scanned⟩ := ih (by omega) nextSound goes
      have lower := next.size_le_chain
      have long := chain.long
      have some := chain.positive
      rw [if_neg ends] at text final
      have length : h.chain.1.length - h.header.size = next.chain.1.length := by
        rw [text, length_append, Header.size, Nat.add_sub_cancel_left]
      refine ⟨below + 1, ⟨final ▸ chain.sound, final ▸ chain.live, final ▸ chain.ends, ?_, ?_, ?_,
        by omega, by omega, by omega⟩, ?_, ?_⟩
      · rw [entries, chain.entries, behind_behind, text, final]
      · rw [counted, chain.counted, final, Nat.add_assoc]
      · rw [behind, final]
        exact fun node listed => next.nodesOf_subset (chain.kept listed)
      · intro data numnodes
        rw [copyChain, if_neg sized]
        simp only [last, ok_bind, goes, Bool.false_eq_true, if_false, copied, append_assoc]
        rw [Nat.sub_sub, Nat.add_comm 1 below, text, final]
      intro limit seen comprsize
      rw [scanChain, if_neg sized]
      simp only [last, ok_bind, goes]
      by_cases large : comprsize + next.header.size > limit
      · rw [if_pos large]
        refine ⟨seen, comprsize, rfl, Nat.le_refl _, ?_, Nat.le_max_left _ _, ?_⟩
        · simp [only]
          omega
        · omega
      · rw [if_neg large]
        obtain ⟨nodes, size, result, grows, -, bounded, whole⟩ :=
          scanned limit (seen + 1) (comprsize + next.header.size)
        refine ⟨nodes, size, result, by omega, ?_, by omega, ?_⟩
        · simp [only, goes]
          omega
        · omega

/-- The first two nodes of a chain fit the limit, but not all. -/
def Overruns (limit : Nat) (start : Node V) : Prop :=
  (∃ next ∈ start.children, Merges limit start.header next.header) ∧ limit < start.chain.1.length

/-- What recompressing a chain makes of its first node. -/
inductive Recompressed (limit : Nat) (start : Node V) : Node V → Prop
  | alone (apart : ∀ next ∈ start.children, ¬ Merges limit start.header next.header) :
      Recompressed limit start start
  | merged {nodes : Nat} (chain : Chain start nodes)
      (joins : ∃ next ∈ start.children, Merges limit start.header next.header) :
      Recompressed limit start (.mk ⟨false, false, true, start.chain.1, none⟩ [start.chain.2])

theorem tryCompress_meets {numnodes : Nat} (limit numele : Nat) (pathSound : PathSound path)
    (sound : h.Sound) (inner : endsChain h.header = false)
    (count : numnodes = (plug path h).nodes.length) :
    ∃ path' start, seekStart path h = (path', start) ∧ plug path' start = plug path h ∧
      path' <:+ path ∧ start.chain.2 = h.chain.2 ∧
      (∀ frame ∈ path'.head?, endsChain frame.header = true) ∧
      (Overruns limit start → tryCompress limit path h numele numnodes = .error .outOfBounds) ∧
      (¬ Overruns limit start → ∃ node rax, Recompressed limit start node ∧
        tryCompress limit path h numele numnodes = .ok rax ∧ rax.head = plug path' node ∧
        rax.head.Sound ∧ rax.head.entries.Perm (plug path h).entries ∧ rax.numele = numele ∧
        rax.numnodes = rax.head.nodes.length) := by
  obtain ⟨path', start, sought, shorter, startSound, startInner, same, lands, ended⟩ :=
    seekStart_spec pathSound sound inner
  have pathSound' : PathSound path' := fun frame listed => pathSound frame (shorter.subset listed)
  refine ⟨path', start, sought, same, shorter, lands, ended, ?_⟩
  rw [← same] at count ⊢
  have total := length_nodes_plug path' start
  obtain ⟨nodes, chain, copied, scanned⟩ :=
    @scans_chain V (numnodes + 1) start (by omega) startSound startInner
  obtain ⟨found, size, first, grows, more, bounded, whole⟩ := scanned limit 1 start.header.size
  have least := start.size_le_chain
  have joins : 1 < found ↔ ∃ next ∈ start.children, Merges limit start.header next.header := by
    simp [more, Merges, startInner]
  rw [tryCompress, sought]
  simp only [first, ok_bind]
  by_cases several : 1 < found
  · -- The nodes of the chain become one.
    rw [if_pos several]
    simp only [copied, ok_bind, nil_append]
    obtain ⟨next, listed, -, goes, fits⟩ := joins.mp several
    have two := chain.several ⟨next, listed, goes⟩
    have long := chain.long
    constructor
    · intro overruns
      rw [if_pos (by have := overruns.2; omega)]
    intro within
    have fitting : start.chain.1.length ≤ limit :=
      Nat.le_of_not_lt fun large => within ⟨joins.mp several, large⟩
    rw [if_neg (by omega)]
    have compr : (⟨false, false, true, start.chain.1, none⟩ : Header V).Fits 1 :=
      ⟨fun _ => ⟨by show 2 ≤ start.chain.1.length; omega, rfl⟩, fun plain => absurd plain (by simp)⟩
    refine ⟨_, _, .merged chain (joins.mp several), rfl, rfl, ?_, ?_, rfl, ?_⟩
    · apply pathSound'.plug_sound (.single compr chain.sound chain.live)
      intro _
      right
      show start.chain.1.length ≠ 0
      omega
    · apply pathSound'.entries_plug_perm
      rw [entries_of_labels (Header.labels_of_iscompr rfl), chain.entries]
      exact .refl _
    · have counted := chain.counted
      simp only [length_nodes_plug, length_nodes_mk, nodesOf, append_nil]
      omega
  · rw [if_neg several]
    refine ⟨fun overruns => absurd (joins.mpr overruns.1) several, fun _ => ?_⟩
    refine ⟨start, _, .alone ?_, rfl, rfl, ?_, .refl _, rfl, count⟩
    · exact fun next listed merges => several (joins.mpr ⟨next, listed, merges⟩)
    · apply pathSound'.plug_sound startSound
      exact fun _ => .inr (Nat.ne_of_gt (startSound.fits.chain startInner).2.2.2)

/-- What is left once a key is out, before recompression. -/
structure Unlinks (rax : Rax V) (s : Bytes) (unlinked : Unlinked V) : Prop where
  path : PathSound unlinked.path
  sound : unlinked.h.Sound
  entries : rax.head.entries.Perm ((s, unlinked.old) :: (plug unlinked.path unlinked.h).entries)
  count : unlinked.numnodes = (plug unlinked.path unlinked.h).nodes.length
  place : ∃ before, plug unlinked.path before = rax.head ∧
    nodesOf unlinked.h.children ⊆ nodesOf before.children
  inner : unlinked.trycompress = true → endsChain unlinked.h.header = false
  live : unlinked.trycompress = false → unlinked.path ≠ [] → unlinked.h.Live

theorem unlinkKey_meets (sound : rax.head.Sound) (numnodes : rax.numnodes = rax.head.nodes.length)
    (s : Bytes) :
    (unlinkKey rax s = .ok none ∧ ∀ old, (s, old) ∉ rax.head.entries) ∨
      ∃ unlinked, unlinkKey rax s = .ok (some unlinked) ∧ Unlinks rax s unlinked := by
  obtain ⟨walk, walked, stopped⟩ := raxLowWalk_stops sound s
  have listed := @stopped.mem_iff
  have ends := stopped.arrived_iff
  obtain ⟨pathSound, sound, live, tree, key, _⟩ := stopped
  rcases walk with ⟨⟨header, children⟩, path, j, rest⟩
  rw [unlinkKey]
  simp only [walked, ok_bind]
  by_cases found : (!(Walk.mk (.mk header children) path j rest).arrived || !header.iskey) = true
  · -- The walk did not arrive, or not at a key.
    rw [if_pos found]
    refine .inl ⟨rfl, fun old inside => ?_⟩
    obtain ⟨arrived, isKey, _⟩ := listed.mp inside
    simp only [Node.header] at isKey
    rw [arrived, isKey] at found
    simp at found
  rw [if_neg found]
  simp only [Bool.or_eq_true, Bool.not_eq_true', not_or, Bool.not_eq_false] at found
  obtain ⟨arrived, isKey⟩ := found
  obtain ⟨ended, unsplit⟩ := ends.mp arrived
  simp only at ended unsplit sound pathSound tree live
  simp only [ended, unsplit, take_zero, append_nil] at key
  -- The node where the walk arrived is no key any more, and nothing else has changed yet.
  generalize unkeyed : Node.mk { header with iskey := false } children = h
  have hSound : h.Sound := unkeyed ▸ sound.withHeader rfl rfl
  have fewer : rax.head.entries.Perm ((s, raxGetData header) :: (plug path h).entries) := by
    have more := pathSound.entries_plug_cons
      (.of_eq (@Node.entries_of_iskey V (.mk header children) isKey))
    rw [tree, append_nil, ← key] at more
    rw [← unkeyed]
    exact more
  have count : rax.numnodes = (plug path h).nodes.length := by
    rw [numnodes, ← tree, length_nodes_plug, length_nodes_plug, ← unkeyed, length_nodes_mk,
      length_nodes_mk]
  have place : ∃ before, plug path before = rax.head ∧
      nodesOf h.children ⊆ nodesOf before.children :=
    ⟨_, tree, unkeyed ▸ List.Subset.refl (nodesOf children)⟩
  right
  by_cases leaf : header.size = 0
  · -- A leaf is freed, with the nodes above it that only led there.
    rw [if_pos leaf]
    have noData : header.data = [] := length_eq_zero_iff.mp leaf
    have plain : header.iscompr = false := sound.fits.plain_of_empty noData
    have childless : children = [] :=
      length_eq_zero_iff.mp ((sound.fits.plain plain).2.trans leaf)
    cases path with
    | nil =>
      exact ⟨_, rfl, pathSound, hSound, fewer, count, place, by simp, fun _ some => absurd rfl some⟩
    | cons frame path =>
      have hollow : h.entries = [] := by
        rw [← unkeyed, Node.entries]
        simp [Header.own, Header.labels, plain, noData, edgeEntries]
      have one : h.nodes.length = 1 := by
        rw [← unkeyed, length_nodes_mk, childless]
        rfl
      obtain ⟨freed, frame', path', done, split, inner, ended⟩ :=
        freeUpwards_splits frame path rax.numnodes
      rw [split] at pathSound fewer count
      have pathSound' : PathSound (frame' :: path') := fun frame listed =>
        pathSound frame (mem_append_right freed listed)
      obtain ⟨entries, counted⟩ := freed_spec pathSound inner hollow
      have left : rax.numnodes - (freed.length + 1) =
          (plug path' (raxRemoveChild frame')).nodes.length := by omega
      obtain ⟨newSound, _, _, newLive⟩ := raxRemoveChild_spec pathSound'.head
      simp only [done]
      refine ⟨_, rfl, pathSound'.tail, newSound, fewer.trans (entries.symm.cons _), left, ?_, ?_,
        fun _ some => newLive (ended some)⟩
      · refine ⟨frame'.fill (plug freed (.mk header children)), ?_, ?_⟩
        · rw [← tree, split, plug_append]
          rfl
        rw [raxRemoveChild]
        split
        · exact nil_subset _
        · simp [Node.children, Frame.fill, nodesOf]
      · intro compress
        obtain ⟨one, noKey⟩ := of_decide_eq_true compress
        simp [endsChain, one, noKey]
  · -- A node with children stays, and may join the chain that it is in.
    rw [if_neg leaf]
    refine ⟨_, rfl, pathSound, hSound, fewer, count, place, ?_, fun _ _ => .inr (unkeyed ▸ leaf)⟩
    intro compress
    have one : h.header.size = 1 := unkeyed ▸ of_decide_eq_true compress
    have noKey : h.header.iskey = false := unkeyed ▸ rfl
    simp [endsChain, one, noKey]

inductive Settled (limit : Nat) (unlinked : Unlinked V) : Node V → Prop
  | skipped (skips : unlinked.trycompress = false) :
      Settled limit unlinked (plug unlinked.path unlinked.h)
  | tried {path : List (Frame V)} {start node : Node V} (tries : unlinked.trycompress = true)
      (sought : seekStart unlinked.path unlinked.h = (path, start))
      (same : plug path start = plug unlinked.path unlinked.h) (shorter : path <:+ unlinked.path)
      (lands : start.chain.2 = unlinked.h.chain.2)
      (ended : ∀ frame ∈ path.head?, endsChain frame.header = true)
      (recompressed : Recompressed limit start node) : Settled limit unlinked (plug path node)

def Unlinked.Overruns (limit : Nat) (unlinked : Unlinked V) : Prop :=
  unlinked.trycompress = true ∧ Rax.Overruns limit (seekStart unlinked.path unlinked.h).2

theorem Unlinks.removed (limit : Nat) (unlinks : Unlinks rax s unlinked)
    (done : unlinkKey rax s = .ok (some unlinked)) :
    (unlinked.Overruns limit ∧ raxRemoveWithin limit rax s = .error .outOfBounds) ∨
      ¬ unlinked.Overruns limit ∧ ∃ other,
        raxRemoveWithin limit rax s = .ok ((true, some unlinked.old), other) ∧
        Settled limit unlinked other.head ∧ other.head.Sound ∧
        other.head.entries.Perm (plug unlinked.path unlinked.h).entries ∧
        other.numele = rax.numele - 1 ∧ other.numnodes = other.head.nodes.length := by
  simp only [raxRemoveWithin, done, ok_bind]
  cases tries : unlinked.trycompress with
  | false =>
    refine .inr ⟨fun overruns => Bool.noConfusion (tries.symm.trans overruns.1), _, rfl,
      .skipped tries, ?_, .refl _, rfl, unlinks.count⟩
    exact unlinks.path.plug_sound unlinks.sound (unlinks.live tries)
  | true =>
    obtain ⟨path, start, sought, same, shorter, lands, ended, fails, keeps⟩ := tryCompress_meets limit
      (rax.numele - 1) unlinks.path unlinks.sound (unlinks.inner tries) unlinks.count
    by_cases overruns : unlinked.Overruns limit
    · have long := overruns.2
      rw [sought] at long
      rw [fails long]
      exact .inl ⟨overruns, rfl⟩
    · obtain ⟨node, other, recompressed, tried, head, rest⟩ := keeps fun long =>
        overruns ⟨tries, by rw [sought]; exact long⟩
      rw [tried]
      refine .inr ⟨overruns, other, rfl, ?_, rest⟩
      rw [head]
      exact .tried tries sought same shorter lands ended recompressed

theorem Unlinks.not_overruns (unlinks : Unlinks rax s unlinked)
    (short : ∀ entry ∈ rax.head.entries, entry.1.length < raxNodeMaxSize) :
    ¬ unlinked.Overruns raxNodeMaxSize := by
  rintro ⟨tries, _, long⟩
  obtain ⟨path, start, sought, shorter, sound, inner, same, _, _⟩ :=
    seekStart_spec unlinks.path unlinks.sound (unlinks.inner tries)
  have pathSound : PathSound path := fun frame listed => unlinks.path frame (shorter.subset listed)
  obtain ⟨nodes, chain, _⟩ := scans_chain (Nat.le_refl _) sound inner
  obtain ⟨entry, listed⟩ := chain.sound.exists_entry chain.live
  -- The characters of the chain are part of that key.
  have inTree : (pathLabel path ++ (start.chain.1 ++ entry.1), entry.2) ∈ (plug path start).entries := by
    rw [pathSound.mem_plug, chain.entries]
    exact mem_behind.mpr ⟨entry.1, listed, rfl⟩
  rw [same] at inTree
  have bound := short _ (unlinks.entries.mem_iff.mpr (mem_cons_of_mem _ inTree))
  simp only [sought] at long
  simp only [length_append] at bound
  omega

/-- The key was not there, or it is taken away. -/
inductive Removed (rax : Rax V) (s : Bytes) : (Bool × Option (Option V)) × Rax V → Prop
  | missing (absent : ∀ old, (s, old) ∉ rax.head.entries) : Removed rax s ((false, none), rax)
  | removed {old : Option V} {other : Rax V} (adds : Adds other rax s old) :
      Removed rax s ((true, some old), other)

theorem raxRemove_meets (good : Good rax) (s : Bytes) :
    ∃ result, raxRemove rax s = .ok result ∧ Good result.2 ∧ Removed rax s result := by
  rw [raxRemove]
  rcases unlinkKey_meets good.sound good.numnodes s with ⟨missing, absent⟩ | ⟨unlinked, done, unlinks⟩
  · simp only [raxRemoveWithin, missing]
    exact ⟨_, rfl, good, .missing absent⟩
  rcases unlinks.removed raxNodeMaxSize done with ⟨overruns, _⟩ |
    ⟨_, other, removed, _, sound, entries, numele, numnodes⟩
  · exact absurd overruns (unlinks.not_overruns good.short)
  have adds : Adds other rax s unlinked.old := by
    have some := unlinks.entries.length_eq
    rw [← good.numele, length_cons] at some
    refine ⟨unlinks.entries.trans (entries.symm.cons _), by omega, ?_⟩
    rw [numnodes, good.numnodes, Nat.add_comm]
  exact ⟨_, removed, good.removes adds sound, .removed adds⟩

end LearningNotes.Rax
