import LearningNotes.Rax.Remove

/-! The chain that a removal may compress, read off the tree and the key before. -/

namespace LearningNotes.Rax

open Lib List

variable {V : Type}

mutual

/-- The sizes of the nodes of the chain from a node on. -/
def Node.sizes : Node V → List Nat
  | .mk header children => header.size :: nextSizes children

/-- The sizes of the nodes behind a node with these children. -/
def nextSizes : List (Node V) → List Nat
  | [next] => if endsChain next.header then [] else next.sizes
  | _ => []

end

/-- The sizes of the nodes of a chain that goes through a node with a size and children. -/
def chainSizes (path : List (Frame V)) (size : Nat) (children : List (Node V)) : List Nat :=
  ((path.takeWhile fun frame => !endsChain frame.header).map (·.header.size)).reverse ++
    size :: nextSizes children

/-- The node of a key and the nodes above it. -/
def FoundAt (tree : Node V) (s : Bytes) (path : List (Frame V)) (h : Node V) : Prop :=
  raxLowWalk tree s = .ok ⟨h, path, 0, []⟩ ∧ h.header.iskey = true

/-- Without the key a chain of nodes with these sizes goes through a node that loses its key or a
child, and whether its compression is tried. -/
inductive Chained (tree : Node V) (s : Bytes) : Bool → List Nat → Prop
  /-- The key is at a compressed node. -/
  | compressed {path : List (Frame V)} {h : Node V} (found : FoundAt tree s path h)
      (compr : h.header.iscompr = true) :
      Chained tree s false (chainSizes path h.header.size h.children)
  /-- The key is at a node with one child behind one character. -/
  | single {path : List (Frame V)} {h : Node V} (found : FoundAt tree s path h)
      (one : h.header.size = 1) : Chained tree s true (chainSizes path h.header.size h.children)
  /-- The key is at a leaf that hangs, perhaps by a chain, on a node without a key and with one
  other child. -/
  | fork {freed path : List (Frame V)} {frame : Frame V} {h other : Node V}
      (found : FoundAt tree s (freed ++ frame :: path) h) (leaf : h.header.size = 0)
      (inner : ∀ gone ∈ freed, endsChain gone.header = false)
      (unkeyed : frame.header.iskey = false) (plain : frame.header.iscompr = false)
      (two : frame.before ++ frame.after = [other]) :
      Chained tree s true (chainSizes path 1 [other])

/-- The first two nodes of a chain fit the limit, but not all. -/
def Overrun (limit : Nat) (sizes : List Nat) : Prop :=
  (∃ first second rest, sizes = first :: second :: rest ∧ first + second ≤ limit) ∧
    limit < sizes.sum

variable {frame : Frame V} {h next : Node V} {path freed : List (Frame V)} {rax : Rax V} {s : Bytes}
  {unlinked : Unlinked V} {tried : Bool} {sizes : List Nat} {limit : Nat}

theorem Node.sizes_eq (h : Node V) : h.sizes = h.header.size :: nextSizes h.children := by
  cases h
  rfl

theorem nextSizes_inner (inner : endsChain next.header = false) : nextSizes [next] = next.sizes := by
  rw [nextSizes, inner, if_neg Bool.false_ne_true]

/-- The sizes of a chain add up to its characters. -/
theorem sum_sizes (sound : h.Sound) (inner : endsChain h.header = false) :
    h.sizes.sum = h.chain.1.length := by
  induction h using Node.induction with
  | step header children ih =>
    obtain ⟨_, one, _, _⟩ := sound.fits.chain inner
    obtain ⟨next, rfl⟩ := length_eq_one_iff.mp one
    rw [Node.sizes, Node.chain, sum_cons, length_append, Header.size, nextSizes, nextChain]
    cases ends : endsChain next.header with
    | true => rfl
    | false =>
      simp only [Bool.false_eq_true, if_false]
      rw [ih next (by simp) (sound.children_sound next (by simp [Node.children])) ends]

/-- The chain that starts where the search for its start ends goes through the changed node. -/
theorem sizes_seekStart (sound : PathSound path) (inner : endsChain h.header = false) :
    (seekStart path h).2.sizes = chainSizes path h.header.size h.children := by
  induction path generalizing h with
  | nil => exact h.sizes_eq
  | cons frame path ih =>
    rw [seekStart, chainSizes, takeWhile_cons]
    cases ends : endsChain frame.header with
    | true => exact h.sizes_eq
    | false =>
      simp only [Bool.false_eq_true, if_false]
      rw [ih sound.tail (by exact ends), (sound.head.fill_chain ends h).2.2, chainSizes, nextSizes_inner inner,
        h.sizes_eq]
      simp [Frame.fill, Node.header]

theorem joins_iff (sound : h.Sound) (inner : endsChain h.header = false) :
    (∃ next ∈ h.children, Merges limit h.header next.header) ↔
      ∃ first second rest, h.sizes = first :: second :: rest ∧ first + second ≤ limit := by
  obtain ⟨_, one, _, _⟩ := sound.fits.chain inner
  obtain ⟨next, only⟩ := length_eq_one_iff.mp one
  rw [h.sizes_eq, only, nextSizes]
  cases ends : endsChain next.header with
  | true => simp [Merges, ends]
  | false => simp [Merges, ends, inner, next.sizes_eq]

theorem overruns_iff (sound : h.Sound) (inner : endsChain h.header = false) :
    Overruns limit h ↔ Overrun limit h.sizes := by
  rw [Overruns, Overrun, sum_sizes sound inner, joins_iff sound inner]

/-- Nodes are freed up to the first one that ends a chain. -/
theorem freeUpwards_append (inner : ∀ gone ∈ freed, endsChain gone.header = false)
    (ends : endsChain frame.header = true) {first : Frame V} {above : List (Frame V)}
    (split : first :: above = freed ++ frame :: path) (numnodes : Nat) :
    ∃ left, freeUpwards first above numnodes = (frame, path, left) := by
  induction freed generalizing first above numnodes with
  | nil =>
    obtain ⟨rfl, rfl⟩ := cons.inj split
    cases above <;> simp [freeUpwards, ends]
  | cons gone freed ih =>
    rw [cons_append] at split
    obtain ⟨rfl, rfl⟩ := cons.inj split
    rw [forall_mem_cons] at inner
    obtain ⟨second, rest, more⟩ := exists_cons_of_ne_nil (append_ne_nil_of_right_ne_nil freed
      (cons_ne_nil frame path))
    rw [more, freeUpwards, inner.1, if_neg Bool.false_ne_true]
    exact ih inner.2 more.symm _

/-- A node without a key that keeps one child is in a chain then, and ended one before. -/
theorem removeChild_fork {other : Node V} (sound : frame.Sound) (unkeyed : frame.header.iskey = false)
    (plain : frame.header.iscompr = false) (two : frame.before ++ frame.after = [other]) :
    endsChain frame.header = true ∧ (raxRemoveChild frame).header.size = 1 ∧
      (raxRemoveChild frame).header.iskey = false ∧ (raxRemoveChild frame).children = [other] := by
  have arity := (sound.fits.plain plain).2
  have one : frame.before.length + frame.after.length = 1 := by
    rw [← length_append, two, length_singleton]
  have size : (frame.header.data.eraseIdx frame.before.length).length = 1 := by
    rw [length_eraseIdx_of_lt (by omega)]
    omega
  have ended : endsChain frame.header = true := by
    simp [endsChain, plain, Header.size]
    omega
  rw [raxRemoveChild, plain, if_neg Bool.false_ne_true]
  exact ⟨ended, size, unkeyed, two⟩

/-- No other node that a child was taken from is in a chain. -/
theorem fork_of_removeChild (sound : frame.Sound)
    (inner : endsChain (raxRemoveChild frame).header = false) :
    frame.header.iskey = false ∧ frame.header.iscompr = false ∧
      ∃ other, frame.before ++ frame.after = [other] := by
  rw [← length_eq_one_iff, length_append]
  rw [raxRemoveChild] at inner
  cases plain : frame.header.iscompr with
  | true => simp [plain, endsChain, Node.header, Header.size] at inner
  | false =>
    have arity := (sound.fits.plain plain).2
    simp [plain, endsChain, Node.header, Header.withEdges, Header.size] at inner
    rw [length_eraseIdx_of_lt (by omega)] at inner
    exact ⟨inner.1, rfl, by omega⟩

/-- The chain of a key whose node is known. -/
theorem FoundAt.chained_iff {tree : Node V} (found : FoundAt tree s path h) :
    Chained tree s tried sizes ↔
      (h.header.iscompr = true ∧ tried = false ∨ h.header.size = 1 ∧ tried = true) ∧
          sizes = chainSizes path h.header.size h.children ∨
        h.header.size = 0 ∧ tried = true ∧ ∃ freed frame above other,
          path = freed ++ frame :: above ∧ (∀ gone ∈ freed, endsChain gone.header = false) ∧
          frame.header.iskey = false ∧ frame.header.iscompr = false ∧
          frame.before ++ frame.after = [other] ∧ sizes = chainSizes above 1 [other] := by
  -- A walk ends at one place.
  have unique : ∀ {path' h'}, FoundAt tree s path' h' → path' = path ∧ h' = h := by
    rintro path' h' ⟨walked, _⟩
    rw [found.1] at walked
    cases walked
    exact ⟨rfl, rfl⟩
  constructor
  · intro chained
    cases chained with
    | compressed found compr =>
      obtain ⟨rfl, rfl⟩ := unique found
      exact .inl ⟨.inl ⟨compr, rfl⟩, rfl⟩
    | single found one =>
      obtain ⟨rfl, rfl⟩ := unique found
      exact .inl ⟨.inr ⟨one, rfl⟩, rfl⟩
    | fork found leaf inner unkeyed plain two =>
      obtain ⟨rfl, rfl⟩ := unique found
      exact .inr ⟨leaf, rfl, _, _, _, _, rfl, inner, unkeyed, plain, two, rfl⟩
  · rintro (⟨⟨compr, rfl⟩ | ⟨one, rfl⟩, rfl⟩ |
      ⟨leaf, rfl, freed, frame, above, other, rfl, inner, unkeyed, plain, two, rfl⟩)
    · exact .compressed found compr
    · exact .single found one
    · exact .fork found leaf inner unkeyed plain two

/-- The chain around the node that a removal has changed. -/
theorem unlinkKey_chained (sound : rax.head.Sound)
    (done : unlinkKey rax s = .ok (some unlinked)) :
    Chained rax.head s tried sizes ↔ endsChain unlinked.h.header = false ∧
      tried = unlinked.trycompress ∧
      sizes = chainSizes unlinked.path unlinked.h.header.size unlinked.h.children := by
  obtain ⟨walk, walked, stopped⟩ := raxLowWalk_stops sound s
  have ends := stopped.arrived_iff
  obtain ⟨pathSound, sound, _, _, _, _⟩ := stopped
  rcases walk with ⟨⟨header, children⟩, path, j, rest⟩
  rw [unlinkKey] at done
  simp only [walked, ok_bind] at done
  by_cases found : (!(Walk.mk (.mk header children) path j rest).arrived || !header.iskey) = true
  · rw [if_pos found] at done
    cases done
  rw [if_neg found] at done
  simp only [Bool.or_eq_true, Bool.not_eq_true', not_or, Bool.not_eq_false] at found
  obtain ⟨arrived, isKey⟩ := found
  obtain ⟨rfl, rfl⟩ := ends.mp arrived
  rw [FoundAt.chained_iff ⟨walked, isKey⟩]
  have unkeyed : endsChain { header with iskey := false } = (!header.iscompr && header.size != 1) :=
    rfl
  by_cases leaf : header.size = 0
  · rw [if_pos leaf] at done
    have plain : header.iscompr = false := by
      cases compr : header.iscompr with
      | true =>
        have two := (sound.fits.compressed compr).1
        rw [Header.size] at leaf
        exact absurd two (by simp [Node.header, leaf])
      | false => rfl
    simp only [Node.header, plain, leaf, Bool.false_eq_true, Nat.zero_ne_one, false_and, or_self,
      true_and, false_or]
    cases path with
    | nil =>
      cases done
      refine iff_of_false ?_ fun inner => ?_
      · rintro ⟨_, freed, frame, above, _, split, _⟩
        simp at split
      · rw [unkeyed] at inner
        simp [plain, leaf] at inner
    | cons first above =>
      obtain ⟨freed, frame, path, freeing, split, inner, _⟩ :=
        freeUpwards_splits first above rax.numnodes
      simp only [freeing] at done
      cases done
      have frameSound : frame.Sound := pathSound frame (by simp [split])
      change _ ↔ endsChain (raxRemoveChild frame).header = false ∧ tried = decide
        ((raxRemoveChild frame).header.size = 1 ∧ (raxRemoveChild frame).header.iskey = false) ∧
        sizes = chainSizes path (raxRemoveChild frame).header.size (raxRemoveChild frame).children
      constructor
      · rintro ⟨rfl, freed', frame', path', other, split', inner', unkeyed, plain, two, rfl⟩
        -- The nodes are freed up to the node that keeps a child.
        have sound' : frame'.Sound := pathSound frame' (by simp [split'])
        obtain ⟨ends, size, key, children⟩ := removeChild_fork sound' unkeyed plain two
        obtain ⟨left, again⟩ := freeUpwards_append inner' ends split' rax.numnodes
        rw [freeing] at again
        cases again
        simp [endsChain, size, key, children]
      · rintro ⟨stays, rfl, rfl⟩
        obtain ⟨unkeyed, plain, other, two⟩ := fork_of_removeChild frameSound stays
        obtain ⟨ends, size, key, children⟩ := removeChild_fork frameSound unkeyed plain two
        rw [size, key, children]
        exact ⟨rfl, freed, frame, path, other, split, inner, unkeyed, plain, two, rfl⟩
  · rw [if_neg leaf] at done
    cases done
    change _ ↔ endsChain { header with iskey := false } = false ∧
      tried = decide (header.size = 1) ∧ sizes = chainSizes path header.size children
    rw [unkeyed]
    simp only [Node.header, Node.children, leaf, false_and, or_false]
    cases compr : header.iscompr with
    | true =>
      have several : header.size ≠ 1 := Nat.ne_of_gt (sound.fits.compressed compr).1
      simp [several]
    | false =>
      by_cases one : header.size = 1
      · simp [one]
      · simp [one]

/-- A key in a chain is stored. -/
theorem Chained.listed {tree : Node V} (sound : tree.Sound) (chained : Chained tree s tried sizes) :
    ∃ old, (s, old) ∈ tree.entries := by
  obtain ⟨path, h, walked, key⟩ : ∃ path h, FoundAt tree s path h := by
    cases chained <;> exact ⟨_, _, ‹FoundAt _ _ _ _›⟩
  obtain ⟨walk, walked', stopped⟩ := raxLowWalk_stops sound s
  rw [walked] at walked'
  cases walked'
  exact ⟨_, stopped.mem_iff.mpr ⟨by simp [Walk.arrived], key, rfl⟩⟩

/-- What is copied is too long iff the chain overruns that is read off before. -/
theorem Unlinks.overruns_iff (sound : rax.head.Sound)
    (done : unlinkKey rax s = .ok (some unlinked)) (unlinks : Unlinks rax s unlinked) :
    unlinked.Overruns limit ↔ ∃ sizes, Chained rax.head s true sizes ∧ Overrun limit sizes := by
  simp only [unlinkKey_chained sound done]
  rw [Unlinked.Overruns]
  cases tries : unlinked.trycompress with
  | false => simp
  | true =>
    have inner := unlinks.inner tries
    obtain ⟨path, start, sought, _, startSound, startInner, _⟩ :=
      seekStart_spec unlinks.path unlinks.sound inner
    have sizes := sizes_seekStart unlinks.path inner
    rw [sought] at sizes ⊢
    simp only [true_and, inner, Rax.overruns_iff startSound startInner, sizes]
    simp

/-- A removal frees what it copies and keeps every other key, iff no chain that it compresses
overruns the limit. -/
theorem raxRemoveWithin_keeps_iff {rax : Rax V} (sound : rax.head.Sound)
    (numnodes : rax.numnodes = rax.head.nodes.length) (limit : Nat) (s : Bytes) :
    (∃ result, raxRemoveWithin limit rax s = .ok result ∧
      result.2.numnodes = result.2.head.nodes.length ∧
      ∀ key, key ≠ s → raxFind result.2 key = raxFind rax key) ↔
    ∀ sizes, Chained rax.head s true sizes → ¬ Overrun limit sizes := by
  rcases unlinkKey_meets sound numnodes s with ⟨missing, absent⟩ | ⟨unlinked, done, unlinks⟩
  · simp only [raxRemoveWithin, missing]
    refine iff_of_true ⟨_, rfl, numnodes, fun _ _ => rfl⟩ fun sizes chained => ?_
    obtain ⟨old, listed⟩ := chained.listed sound
    exact absurd listed (absent old)
  have condition : (∀ sizes, Chained rax.head s true sizes → ¬ Overrun limit sizes) ↔
      ¬ unlinked.Overruns limit := by
    rw [unlinks.overruns_iff sound done]
    simp
  rw [condition]
  rcases unlinks.removed limit done with ⟨overruns, failed⟩ |
    ⟨within, other, removed, _, otherSound, entries, _, counted⟩
  · rw [failed]
    refine iff_of_false ?_ (not_not_intro overruns)
    rintro ⟨_, impossible, _⟩
    cases impossible
  refine iff_of_true ⟨_, removed, counted, fun key different => ?_⟩ within
  -- Both trees store the same entries of any other key.
  obtain ⟨found, foundIn, tells⟩ := raxFind_meets sound key
  obtain ⟨found', foundIn', tells'⟩ := raxFind_meets otherSound key
  rw [foundIn, foundIn']
  congr 1
  apply Option.ext
  intro value
  rw [← tells', ← tells, entries.mem_iff, unlinks.entries.mem_iff, mem_cons]
  simp [different]

/-- Three nodes in a row, of which the second has a key. -/
def rowTree : Rax Nat :=
  ⟨.mk ⟨false, false, true, [1, 2], none⟩ [.mk ⟨true, false, false, [3], some 1⟩
    [.mk ⟨false, false, true, [4, 5, 6], none⟩ [.mk (raxSetData (raxNewNode []) (some 2)) []]]], 2, 4⟩

theorem rowTree_sound : rowTree.head.Sound := by
  have last : (Node.mk (raxSetData (raxNewNode []) (some 2)) []).Sound :=
    leaf_sound.withHeader rfl rfl
  refine .single ⟨by simp, by simp⟩ (.single ⟨by simp, by simp⟩
    (.single ⟨by simp, by simp⟩ last (.inl rfl)) (.inr (by decide))) (.inl rfl)

theorem rowTree_chained (chained : Chained rowTree.head [1, 2] tried sizes) :
    tried = true ∧ sizes = [2, 1, 3] := by
  obtain ⟨_, rfl, rfl⟩ := (unlinkKey_chained rowTree_sound rfl).mp chained
  exact ⟨rfl, by decide⟩

/-- Without the key the three nodes become one that just fits the limit. -/
theorem rowTree_keeps :
    (raxRemoveWithin 6 rowTree [1, 2]).map (·.2.head.header.data) = .ok [1, 2, 3, 4, 5, 6] ∧
    ∃ result, raxRemoveWithin 6 rowTree [1, 2] = .ok result ∧
      result.2.numnodes = result.2.head.nodes.length ∧
      ∀ key, key ≠ [1, 2] → raxFind result.2 key = raxFind rowTree key := by
  refine ⟨rfl, (raxRemoveWithin_keeps_iff rowTree_sound rfl 6 [1, 2]).mpr ?_⟩
  rintro sizes chained ⟨-, long⟩
  obtain ⟨-, rfl⟩ := rowTree_chained chained
  exact absurd long (by decide)

/-- The first two of three nodes fit the limit of three characters, but all of them are copied. -/
theorem raxRemove_overruns :
    (do
      let rax ← raxInsert raxNew [1, 2, 3, 4, 5, 6] (some 0)
      let rax ← raxInsert rax.2 [1, 2, 3] (some 1)
      let rax ← raxInsert rax.2 [1, 2] (some 2)
      let rax ← raxRemove rax.2 [1, 2, 3]
      raxRemoveWithin 3 rax.2 [1, 2]) = .error .outOfBounds :=
  rfl

end LearningNotes.Rax
