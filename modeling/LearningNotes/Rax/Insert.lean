import LearningNotes.Lib.Outcome
import LearningNotes.Rax.Walk

/-! Insertion adds exactly one entry: splits and new nodes only move the entries that exist. -/

namespace LearningNotes.Rax

open Lib List

variable {V : Type}

def Place.tree (place : Place V) : Node V := plug place.path place.node

/-- Moving on by a part of the key, with new nodes but the same entries. -/
structure Reaches (start place : Place V) (s : Bytes) : Prop where
  path : PathSound place.path
  node : place.node.Sound
  entries : place.tree.entries.Perm start.tree.entries
  label : pathLabel place.path = pathLabel start.path ++ s
  counted : place.numnodes + start.tree.nodes.length = start.numnodes + place.tree.nodes.length

variable {place : Place V} {s : Bytes} {path : List (Frame V)} {h : Node V} {j : Nat} {rax : Rax V}

theorem Reaches.refl (path : PathSound place.path) (node : place.node.Sound) :
    Reaches place place [] :=
  ⟨path, node, .refl _, by simp, rfl⟩

/-- Places reached one after the other are reached by the joined key. -/
theorem Reaches.trans {start middle : Place V} {t : Bytes} (first : Reaches start middle s)
    (second : Reaches middle place t) : Reaches start place (s ++ t) := by
  refine ⟨second.path, second.node, second.entries.trans first.entries, ?_, ?_⟩
  · rw [second.label, first.label, append_assoc]
  · have early := first.counted
    have late := second.counted
    omega

theorem Reaches.attach {numnodes : Nat} {frame : Frame V} (pathSound : PathSound path)
    (sound : frame.Sound) (kept : frame.outside.Perm h.entries)
    (counted : (nodesOf frame.before).length + (nodesOf frame.after).length + 1 = h.nodes.length) :
    Reaches ⟨path, h, numnodes⟩ ⟨frame :: path, leaf, numnodes + 1⟩ frame.label := by
  refine ⟨.cons sound pathSound, leaf_sound, ?_, rfl, ?_⟩
  · apply pathSound.entries_plug_perm
    exact (sound.entries_fill leaf).trans (by simpa using kept)
  · simp only [Place.tree, length_nodes_plug, pathNodes]
    have one : (leaf : Node V).nodes.length = 1 := rfl
    omega

theorem raxCompressNode_reaches (pathSound : PathSound path) (sound : h.Sound)
    (plain : h.header.iscompr = false) (empty : h.header.size = 0) (long : 2 ≤ s.length)
    (numnodes : Nat) :
    ∃ frame, raxCompressNode h s = .ok (frame, leaf) ∧
      Reaches ⟨path, h, numnodes⟩ ⟨frame :: path, leaf, numnodes + 1⟩ s := by
  have childless : h.children = [] :=
    length_eq_zero_iff.mp ((sound.fits.plain plain).2.trans empty)
  have noEdges : h.entries = h.header.own := by
    rw [h.entries_eq, childless]
    cases h.header.labels <;> simp [edgeEntries]
  generalize filled : { h.header with iscompr := true, data := s } = newn
  have compr : (newn.keyedAs h.header).iscompr = true := by simp [← filled]
  have data : (newn.keyedAs h.header).data = s := by simp [← filled]
  have own : (newn.keyedAs h.header).own = h.header.own :=
    Header.keyedAs_own (by simp [← filled])
  have label : (Frame.mk (newn.keyedAs h.header) [] []).label = s := by
    rw [Frame.label, Header.labels_of_iscompr compr, data]
    rfl
  refine ⟨⟨newn.keyedAs h.header, [], []⟩, ?_, ?_⟩
  · rw [raxCompressNode, if_neg (by simp [plain, empty]), filled]
  rw [← label]
  apply Reaches.attach pathSound
  · apply Frame.Sound.single
    exact ⟨fun _ => ⟨data ▸ long, rfl⟩, fun plain => absurd (compr.symm.trans plain) (by simp)⟩
  · simp [Frame.outside, edgeEntries, own, noEdges]
  · simp [h.length_nodes, childless, nodesOf]

theorem pairwise_insert {data : Bytes} (sorted : data.Pairwise (· < ·)) {c : UInt8}
    (absent : c ∉ data) :
    (data.take (data.findIdx (c < ·)) ++ c :: data.drop (data.findIdx (c < ·))).Pairwise
      (· < ·) := by
  induction data with
  | nil => simp
  | cons d data ih =>
    obtain ⟨first, sorted⟩ := pairwise_cons.mp sorted
    simp only [mem_cons, not_or] at absent
    by_cases less : c < d
    · simp only [findIdx_cons, less]
      refine pairwise_cons.mpr ⟨?_, pairwise_cons.mpr ⟨first, sorted⟩⟩
      exact forall_mem_cons.mpr ⟨less, fun e listed => UInt8.lt_trans less (first e listed)⟩
    simp only [findIdx_cons, less, decide_false, cond_false, take_succ_cons, cons_append]
    refine pairwise_cons.mpr ⟨?_, ih sorted absent.2⟩
    intro e listed
    simp only [mem_append, mem_cons] at listed
    rcases listed with left | same | right
    · exact first e (mem_of_mem_take left)
    · subst same
      exact UInt8.lt_of_le_of_ne (UInt8.not_lt.mp less) (Ne.symm absent.1)
    · exact first e (mem_of_mem_drop right)

/-- The new edge goes where its character belongs, and its leaf is reached by it. -/
theorem raxAddChild_reaches {c : UInt8} (pathSound : PathSound path) (sound : h.Sound)
    (plain : h.header.iscompr = false) (absent : c ∉ h.header.data) (numnodes : Nat) :
    ∃ frame, raxAddChild h c = .ok (frame, leaf) ∧
      Reaches ⟨path, h, numnodes⟩ ⟨frame :: path, leaf, numnodes + 1⟩ [c] := by
  obtain ⟨sorted, arity⟩ := sound.fits.plain plain
  have inserted := pairwise_insert sorted absent
  have within : h.header.data.findIdx (c < ·) ≤ h.header.data.length := findIdx_le_length
  have labels : h.header.labels = h.header.data.map fun c => [c] := by
    simp [Header.labels, plain]
  rw [raxAddChild, if_neg (by simp [plain])]
  refine ⟨_, rfl, ?_⟩
  generalize h.header.data.findIdx (c < ·) = pos at inserted within
  generalize grown : h.header.withEdges _ = header
  have data : header.data = h.header.data.take pos ++ c :: h.header.data.drop pos := by
    rw [← grown, Header.withEdges]
  have flag : header.iscompr = false := by
    rw [← grown]
    exact plain
  have newLabels : header.labels = h.header.labels.take pos ++ [c] :: h.header.labels.drop pos := by
    rw [labels, Header.labels, data, flag]
    simp [map_drop]
  have left : (h.children.take pos).length = pos := by
    rw [length_take, arity]
    omega
  have leftLabels : (h.header.labels.take pos).length = pos := by
    rw [labels, length_take, length_map]
    omega
  have label : (Frame.mk header (h.children.take pos) (h.children.drop pos)).label = [c] := by
    rw [Frame.label, left, newLabels, getD_eq_getElem?_getD, getElem?_append_right (by omega)]
    simp [leftLabels]
  rw [← label]
  apply Reaches.attach pathSound
  · refine ⟨⟨?_, ?_⟩, ?_, ?_⟩
    · exact fun compr => absurd (flag.symm.trans compr) (by simp)
    · intro _
      rw [data]
      refine ⟨inserted, ?_⟩
      simp only [length_append, length_cons, length_take, length_drop]
      omega
    · rw [take_append_drop]
      exact sound.children_sound
    · rw [take_append_drop]
      exact sound.children_live
  · -- The edges around the new one are the old ones.
    have own : header.own = h.header.own := by
      rw [← grown]
      rfl
    have split := edgeEntries_append (leftLabels.trans left.symm) (h.header.labels.drop pos)
      (h.children.drop pos)
    rw [take_append_drop, take_append_drop] at split
    have before : header.labels.take pos = h.header.labels.take pos := by
      rw [newLabels, take_append_of_le_length (by omega), take_of_length_le (by omega)]
    have after : header.labels.drop (pos + 1) = h.header.labels.drop pos := by
      rw [newLabels, drop_append, leftLabels]
      simp [leftLabels]
    simp only [Frame.outside, left, before, after, own]
    rw [h.entries_eq, split]
  · have split := congrArg (fun children => (nodesOf children).length)
      (take_append_drop pos h.children)
    simp only [nodesOf_append, length_append] at split
    rw [h.length_nodes, ← split]

/-- The rest of a key becomes a path of new nodes. -/
theorem insertRest_reaches {fuel : Nat} (enough : s.length < fuel) (path : PathSound place.path)
    (node : place.node.Sound) (free : s ≠ [] → place.node.header.iscompr = false)
    (absent : ∀ c ∈ s.head?, c ∉ place.node.header.data) :
    ∃ reached, insertRest fuel place s = .ok reached ∧ Reaches place reached s ∧
      (s ≠ [] → reached.node = leaf) := by
  -- After the first new node every further one is added to a leaf.
  induction fuel generalizing place s with
  | zero => omega
  | succ fuel ih =>
    rcases place with ⟨path', h, numnodes⟩
    cases s with
    | nil => exact ⟨_, rfl, .refl path node, fun some => absurd rfl some⟩
    | cons c s =>
      have plain : h.header.iscompr = false := free (cons_ne_nil _ _)
      simp only [length_cons] at enough
      -- The rest of the key is inserted below the new leaf.
      have onward : ∀ (frame : Frame V) (part rest : Bytes), part ++ rest = c :: s →
          part ≠ [] → Reaches ⟨path', h, numnodes⟩ ⟨frame :: path', leaf, numnodes + 1⟩ part →
          ∃ reached, insertRest fuel ⟨frame :: path', leaf, numnodes + 1⟩ rest = .ok reached ∧
            Reaches ⟨path', h, numnodes⟩ reached (c :: s) ∧
            (c :: s ≠ [] → reached.node = leaf) := by
        intro frame part rest split nonempty step
        have positive := length_pos_iff.mpr nonempty
        have lengths := congrArg List.length split
        simp only [length_append, length_cons] at lengths
        obtain ⟨reached, ran, onwards, last⟩ := @ih ⟨frame :: path', leaf, numnodes + 1⟩ rest
          (by omega) step.path step.node (fun _ => rfl) (by simp [leaf, raxNewNode, Node.header])
        refine ⟨reached, ran, split ▸ step.trans onwards, fun _ => ?_⟩
        by_cases done : rest = []
        · subst done
          cases fuel with
          | zero => simp [insertRest] at ran
          | succ fuel =>
            simp only [insertRest, Except.ok.injEq] at ran
            rw [← ran]
        · exact last done
      rw [insertRest]
      by_cases compress : h.header.size = 0 ∧ (c :: s).length > 1
      · rw [if_pos compress]
        have size : 2 ≤ ((c :: s).take (min (c :: s).length raxNodeMaxSize)).length := by
          have large : 2 ≤ raxNodeMaxSize := by decide
          rw [length_take]
          omega
        obtain ⟨frame, done, step⟩ :=
          raxCompressNode_reaches path node plain compress.1 size numnodes
        simp only [done]
        apply onward frame _ _ (take_append_drop _ _) _ step
        exact length_pos_iff.mp (by omega)
      · rw [if_neg compress]
        obtain ⟨frame, done, step⟩ := raxAddChild_reaches path node plain (absent c rfl) numnodes
        simp only [done]
        exact onward frame [c] s rfl (cons_ne_nil _ _) step

theorem Node.Sound.compressed (sound : h.Sound) (compr : h.header.iscompr = true) :
    ∃ next, raxNodeLastChild h = .ok next ∧ next.Sound ∧ next.Live ∧
      h.entries = h.header.own ++ behind h.header.data next.entries ∧
      h.nodes.length = next.nodes.length + 1 ∧ 2 ≤ h.header.data.length := by
  obtain ⟨long, one⟩ := sound.fits.compressed compr
  obtain ⟨next, only⟩ := length_eq_one_iff.mp one
  have listed : next ∈ h.children := by simp [only]
  refine ⟨next, by simp [raxNodeLastChild, only], sound.children_sound next listed,
    sound.children_live next listed, ?_, ?_, long⟩
  · rw [h.entries_eq, only, Header.labels_of_iscompr compr]
    simp [edgeEntries]
  · rw [h.length_nodes, only]
    simp [nodesOf]

theorem postfixNode_spec (chars : Bytes) {next : Node V} (sound : next.Sound) (live : next.Live) :
    (postfixNode chars next).Sound ∧ (postfixNode chars next).Live ∧
      (postfixNode chars next).entries = behind chars next.entries ∧
      (postfixNode chars next).nodes.length =
        next.nodes.length + if chars.length = 0 then 0 else 1 := by
  unfold postfixNode
  by_cases ended : chars.length = 0
  · have empty := length_eq_zero_iff.mp ended
    subst empty
    simp [sound, live]
  simp only [ended, if_false]
  have single : (⟨false, false, decide (chars.length > 1), chars, none⟩ : Header V).Single :=
    ⟨fun empty => ended (congrArg List.length empty), rfl⟩
  refine ⟨.single single.fits sound live, .inr ended, ?_, ?_⟩
  · rw [entries_of_labels single.labels_eq]
    simp [Header.own]
  · simp [nodesOf]

theorem trimmedNode_spec {h : Header V} (started : 0 < j) (within : j < h.data.length) :
    (trimmedNode h j).Single ∧ (trimmedNode h j).data = h.data.take j ∧
      (trimmedNode h j).own = h.own := by
  have data : (trimmedNode h j).data = h.data.take j := by
    unfold trimmedNode
    split <;> simp
  have size : (h.data.take j).length = j := by
    rw [length_take]
    omega
  refine ⟨⟨?_, ?_⟩, data, ?_⟩
  · rw [data]
    exact length_pos_iff.mp (by omega)
  · rw [data, size]
    unfold trimmedNode
    split <;> simp
  -- The flags are copied, and the value with them unless it is null.
  unfold trimmedNode
  by_cases valued : (h.iskey && !h.isnull) = true
  · rw [if_pos valued, raxSetData_own]
    rw [Bool.and_eq_true] at valued
    simp [Header.own, valued.1]
  cases key : h.iskey with
  | false => simp [Header.own, key]
  | true =>
    cases null : h.isnull with
    | true => simp [Header.own, key, raxGetData, null]
    | false => simp [key, null] at valued

/-- Splitting a compressed node keeps its keys and opens an edge at the mismatch. -/
theorem splitMismatch_reaches {d : UInt8} (pathSound : PathSound path) (sound : h.Sound)
    (compr : h.header.iscompr = true) (char : h.header.data[j]? = some d) (numnodes : Nat) :
    ∃ place, splitMismatch h path j numnodes = .ok place ∧
      Reaches ⟨path, h, numnodes⟩ place (h.header.data.take j) ∧
      place.node.header.iscompr = false ∧ place.node.header.data = [d] := by
  obtain ⟨next, last, nextSound, nextLive, entries, counted, long⟩ := sound.compressed compr
  obtain ⟨within, char'⟩ := List.getElem?_eq_some_iff.mp char
  obtain ⟨postSound, postLive, postEntries, postCount⟩ :=
    postfixNode_spec (h.header.data.drop (j + 1)) nextSound nextLive
  have data : h.header.data.take j ++ d :: h.header.data.drop (j + 1) = h.header.data := by
    rw [← char', ← drop_eq_getElem_cons within, take_append_drop]
  rw [splitMismatch]
  simp only [last, char, ok_bind]
  have split : (raxNewNode [d] : Header V).Single := ⟨by simp [raxNewNode], rfl⟩
  by_cases first : j = 0
  · -- The split node takes the place of the compressed one.
    subst first
    refine ⟨_, rfl, ?_, by simp [Node.header, raxNewNode], by simp [Node.header, raxNewNode]⟩
    have keyed : ((raxNewNode [d]).keyedAs h.header).Single := by
      refine ⟨?_, ?_⟩
      · simp [raxNewNode]
      · simp [raxNewNode]
    refine ⟨pathSound, .single keyed.fits postSound postLive, ?_, by simp, ?_⟩
    · apply pathSound.entries_plug_perm
      rw [entries_of_labels keyed.labels_eq, Header.keyedAs_own (fun _ => rfl), postEntries,
        entries, ← data]
      simp [raxNewNode]
    · have some : ¬ (h.header.data.drop (0 + 1)).length = 0 := by
        rw [length_drop]
        omega
      rw [if_neg some] at postCount
      simp only [Place.tree, length_nodes_plug, length_nodes_mk, nodesOf, append_nil, if_neg some]
      omega
  · -- The characters in front of the mismatch stay in a node of their own.
    rw [if_neg first]
    obtain ⟨trimmed, trimmedData, trimmedOwn⟩ := trimmedNode_spec (Nat.pos_of_ne_zero first) within
    refine ⟨_, rfl, ?_, rfl, rfl⟩
    refine ⟨.cons (.single trimmed.fits) pathSound, .single split.fits postSound postLive, ?_, ?_, ?_⟩
    · apply pathSound.entries_plug_perm
      rw [Frame.fill, nil_append, entries_of_labels trimmed.labels_eq,
        entries_of_labels split.labels_eq, trimmedOwn, trimmedData, postEntries, entries]
      nth_rewrite 3 [← data]
      simp [raxNewNode, Header.own]
    · simp only [pathLabel, Frame.label, trimmed.labels_eq, trimmedData]
      rfl
    · simp only [Place.tree, length_nodes_plug, pathNodes, length_nodes_mk, nodesOf]
      split <;> simp_all <;> omega

/-- Splitting a node where the key ends adds that key and no other. -/
theorem splitEnd_spec (sound : h.Sound) (compr : h.header.iscompr = true)
    (within : j < h.header.data.length) (started : 0 < j) (data : Option V) :
    ∃ node, splitEnd h j data = .ok node ∧ node.Sound ∧ node.Live ∧
      node.entries.Perm ((h.header.data.take j, data) :: h.entries) ∧
      node.nodes.length = h.nodes.length + 1 := by
  obtain ⟨next, last, nextSound, nextLive, entries, counted, long⟩ := sound.compressed compr
  have size : (h.header.data.take j).length = j := by
    rw [length_take]
    omega
  have left : (h.header.data.drop j).length = h.header.data.length - j := length_drop
  rw [splitEnd]
  simp only [last]
  generalize lower : raxSetData ⟨true, false, _, h.header.data.drop j, none⟩ data = below
  generalize upper : Header.keyedAs ⟨false, false, decide (j > 1), _, none⟩ h.header = trimmed
  have lowerSingle : below.Single := by
    constructor
    · rw [← lower, raxSetData_data]
      show h.header.data.drop j ≠ []
      exact length_pos_iff.mp (by omega)
    · simp [← lower]
  have upperSingle : trimmed.Single := by
    constructor
    · rw [← upper, Header.keyedAs_data]
      show h.header.data.take j ≠ []
      exact length_pos_iff.mp (by omega)
    · rw [← upper, Header.keyedAs_data, Header.keyedAs_iscompr, size]
  refine ⟨_, rfl, .single upperSingle.fits (.single lowerSingle.fits nextSound nextLive) (.inl ?_),
    .inr ?_, ?_, ?_⟩
  · rw [← lower]
    cases data <;> rfl
  · rw [← upper]
    simp only [Node.header, Header.size, Header.keyedAs_data]
    exact Nat.ne_of_gt (Nat.lt_of_lt_of_eq started size.symm)
  · rw [entries_of_labels upperSingle.labels_eq, entries_of_labels lowerSingle.labels_eq, entries,
      ← upper, ← lower, Header.keyedAs_own (fun _ => rfl)]
    simp only [Header.keyedAs_data, raxSetData_data, raxSetData_own, behind_append, behind_cons,
      behind_behind, take_append_drop, append_nil]
    exact perm_middle
  · simp only [length_nodes_mk, nodesOf, append_nil]
    omega

theorem entries_setData (unkeyed : h.header.iskey = false) (data : Option V) :
    (Node.mk (raxSetData h.header data) h.children).entries = ([], data) :: h.entries := by
  have none : h.header.own = [] := by simp [Header.own, unkeyed]
  rw [Node.entries, h.entries_eq, raxSetData_own, raxSetData_labels, none]
  rfl

theorem insertMissing_adds {rax : Rax V} {start place : Place V} {s part rest : Bytes}
    (tree : start.tree = rax.head) (count : start.numnodes = rax.numnodes)
    (reached : Reaches start place part) (plain : place.node.header.iscompr = false)
    (key : s = pathLabel start.path ++ (part ++ rest)) (some : rest ≠ [])
    (absent : ∀ c ∈ rest.head?, c ∉ place.node.header.data) (data : Option V) :
    ∃ other, insertMissing place rax.numele rest data = .ok other ∧ other.head.Sound ∧
      Adds rax other s data := by
  obtain ⟨final, ran, onwards, last⟩ := insertRest_reaches (Nat.lt_succ_self rest.length)
    reached.path reached.node (fun _ => plain) absent
  rcases final with ⟨path, node, numnodes⟩
  have new : node = leaf := last some
  subst new
  have whole := reached.trans onwards
  rw [insertMissing]
  simp only [ran]
  refine ⟨_, rfl, ?_, ?_, rfl, ?_⟩
  · apply whole.path.plug_sound
    · exact leaf_sound.withHeader (raxSetData_iscompr _ _) (raxSetData_data _ _)
    · intro _
      left
      cases data <;> rfl
  · refine (whole.path.entries_plug_cons (.of_eq (entries_setData rfl data))).trans ?_
    rw [whole.label, append_nil, ← key]
    exact (whole.entries.trans (.of_eq (by rw [tree]))).cons _
  · have counted := whole.counted
    simp only [Place.tree, length_nodes_plug, length_nodes_mk] at counted tree ⊢
    rw [← tree, length_nodes_plug, ← count]
    have one : (leaf : Node V).nodes.length = 1 := rfl
    have none : (nodesOf (leaf : Node V).children).length = 0 := rfl
    omega

/-- The node a key ends at, before its value was set. -/
def Node.unkeyed (h : Node V) : Node V := .mk { h.header with iskey := false } h.children

theorem Node.entries_of_iskey {h : Node V} (key : h.header.iskey = true) :
    h.entries = ([], raxGetData h.header) :: h.unkeyed.entries := by
  rw [h.entries_eq, Node.unkeyed, Node.entries, Header.own, if_pos key]
  rfl

theorem Node.entries_setData_unkeyed (h : Node V) (data : Option V) :
    (Node.mk (raxSetData h.header data) h.children).entries = ([], data) :: h.unkeyed.entries := by
  rw [Node.entries, raxSetData_own, raxSetData_labels, Node.unkeyed, Node.entries]
  rfl

/-- The key was there, or it is added. -/
inductive Inserted (rax : Rax V) (s : Bytes) (data : Option V) (overwrite : Bool) :
    (Bool × Option (Option V)) × Rax V → Prop
  | kept {old : Option V} (listed : (s, old) ∈ rax.head.entries) (refused : overwrite = false) :
      Inserted rax s data overwrite ((false, some old), rax)
  | overwritten {old : Option V} {others : List (Bytes × Option V)} {head : Node V}
      (before : rax.head.entries.Perm ((s, old) :: others))
      (after : head.entries.Perm ((s, data) :: others)) (allowed : overwrite = true) :
      Inserted rax s data overwrite ((false, some old), { rax with head := head })
  | added {other : Rax V} (absent : ∀ old, (s, old) ∉ rax.head.entries)
      (adds : Adds rax other s data) : Inserted rax s data overwrite ((true, none), other)

theorem insertHere_inserted {walk : Walk V} (good : Good rax) (short : s.length < raxNodeMaxSize)
    (stopped : Stopped rax.head s walk) (arrived : walk.arrived = true) (data : Option V)
    (overwrite : Bool) :
    Good (insertHere rax walk data overwrite).2 ∧
      Inserted rax s data overwrite (insertHere rax walk data overwrite) := by
  have listed := @stopped.mem_iff
  obtain ⟨ended, unsplit⟩ := stopped.arrived_iff.mp arrived
  obtain ⟨pathSound, sound, live, tree, key, _⟩ := stopped
  rcases walk with ⟨h, path, j, rest⟩
  subst ended unsplit
  rw [take_zero, append_nil, append_nil] at key
  -- The tree with the value written, whether or not the node was a key before.
  have writtenSound : (plug path (.mk (raxSetData h.header data) h.children)).Sound := by
    apply pathSound.plug_sound
    · rcases h with ⟨header, children⟩
      exact sound.withHeader (raxSetData_iscompr _ _) (raxSetData_data _ _)
    · intro _
      left
      cases data <;> rfl
  have writtenCount : (plug path (.mk (raxSetData h.header data) h.children)).nodes.length =
      rax.head.nodes.length := by
    rw [← tree, length_nodes_plug, length_nodes_plug, h.length_nodes, length_nodes_mk]
  rw [insertHere]
  by_cases isKey : h.header.iskey = true
  · simp only [isKey]
    have before : rax.head.entries.Perm
        ((s, raxGetData h.header) :: (plug path h.unkeyed).entries) := by
      have more := pathSound.entries_plug_cons (.of_eq (Node.entries_of_iskey isKey))
      rwa [tree, append_nil, ← key] at more
    have after : (plug path (.mk (raxSetData h.header data) h.children)).entries.Perm
        ((s, data) :: (plug path h.unkeyed).entries) := by
      have more := pathSound.entries_plug_cons (.of_eq (h.entries_setData_unkeyed data))
      rwa [append_nil, ← key] at more
    cases overwrite with
    | false =>
      exact ⟨good, .kept (before.mem_iff.mpr mem_cons_self) rfl⟩
    | true =>
      refine ⟨⟨writtenSound, ?_, ?_, ?_, ?_⟩, .overwritten before after rfl⟩
      · have distinct := (before.map Prod.fst).nodup_iff.mp good.distinct
        exact (after.map Prod.fst).nodup_iff.mpr distinct
      · simp only [if_true]
        rw [after.length_eq, good.numele, before.length_eq, length_cons, length_cons]
      · simp only [if_true]
        rw [writtenCount, good.numnodes]
      · intro entry inside
        rcases mem_cons.mp (after.mem_iff.mp inside) with same | other
        · exact same ▸ short
        · exact good.short entry (before.mem_iff.mpr (mem_cons_of_mem _ other))
  · have absent : ∀ old, (s, old) ∉ rax.head.entries :=
      fun old inside => isKey (listed.mp inside).2.1
    rw [if_neg isKey]
    have adds : Adds rax
        { rax with
          head := plug path (.mk (raxSetData h.header data) h.children)
          numele := rax.numele + 1 } s data := by
      refine ⟨?_, rfl, by rw [writtenCount]⟩
      have more := pathSound.entries_plug_cons
        (.of_eq (entries_setData (Bool.not_eq_true _ ▸ isKey) data))
      rwa [tree, append_nil, ← key] at more
    exact ⟨good.adds adds writtenSound absent short, .added absent adds⟩

/-- Insertion never faults, keeps the invariant and adds or overwrites that one key. -/
theorem raxGenericInsert_meets (good : Good rax) (short : s.length < raxNodeMaxSize)
    (data : Option V) (overwrite : Bool) :
    ∃ result, raxGenericInsert rax s data overwrite = .ok result ∧ Good result.2 ∧
      Inserted rax s data overwrite result := by
  obtain ⟨walk, walked, stopped⟩ := raxLowWalk_stops good.sound s
  rw [raxGenericInsert]
  simp only [walked, ok_bind]
  by_cases arrived : walk.arrived = true
  · rw [if_pos arrived]
    exact ⟨_, rfl, insertHere_inserted good short stopped arrived data overwrite⟩
  rw [if_neg arrived]
  have absent : ∀ old, (s, old) ∉ rax.head.entries :=
    fun old inside => arrived (stopped.mem_iff.mp inside).1
  -- However the tree grows, a result that adds the key is what is wanted.
  have wanted : ∀ {other : Rax V}, other.head.Sound → Adds rax other s data →
      Good other ∧ Inserted rax s data overwrite ((true, none), other) :=
    fun sound adds => ⟨good.adds adds sound absent short, .added absent adds⟩
  obtain ⟨pathSound, sound, live, tree, key, stops⟩ := stopped
  rcases walk with ⟨h, path, j, rest⟩
  cases stops with
  | here => simp [Walk.arrived] at arrived
  | @missing c s' plain missing =>
    obtain ⟨other, done, otherSound, adds⟩ := @insertMissing_adds V rax ⟨path, h, rax.numnodes⟩
      ⟨path, h, rax.numnodes⟩ s [] (c :: s') tree rfl (.refl pathSound sound) plain
      (by simpa using key) (cons_ne_nil _ _) (by simpa using missing) data
    simp only [plain, done]
    exact ⟨_, rfl, wanted otherSound adds⟩
  | @mismatch _ c d s' compr char differ =>
    obtain ⟨place, split, reached, plain, only⟩ :=
      splitMismatch_reaches pathSound sound compr char rax.numnodes
    obtain ⟨other, done, otherSound, adds⟩ := @insertMissing_adds V rax
      ⟨path, h, rax.numnodes⟩ place s _ (c :: s') tree rfl reached plain key
      (cons_ne_nil _ _) (by simpa [only] using Ne.symm differ) data
    simp only [compr, split, done, ok_bind]
    exact ⟨_, rfl, wanted otherSound adds⟩
  | inside compr within started =>
    obtain ⟨node, split, nodeSound, nodeLive, more, counted⟩ :=
      splitEnd_spec sound compr within started data
    simp only [compr, split]
    refine ⟨_, rfl, wanted (pathSound.plug_sound nodeSound fun _ => nodeLive) ⟨?_, rfl, ?_⟩⟩
    · rw [key, ← tree, append_nil]
      exact pathSound.entries_plug_cons more
    · simp only [← tree, length_nodes_plug, counted]
      omega

/-- The lookup finds exactly the values that the tree has. -/
theorem raxFind_meets (sound : rax.head.Sound) (s : Bytes) :
    ∃ found, raxFind rax s = .ok found ∧
      ∀ value, (s, value) ∈ rax.head.entries ↔ found = some value := by
  obtain ⟨walk, walked, stopped⟩ := raxLowWalk_stops sound s
  rw [raxFind]
  simp only [walked, ok_bind]
  by_cases found : (!walk.arrived || !walk.stopnode.header.iskey) = true
  · rw [if_pos found]
    refine ⟨none, rfl, fun value => ?_⟩
    rw [stopped.mem_iff]
    constructor
    · rintro ⟨arrived, key, _⟩
      rw [arrived, key] at found
      simp at found
    · intro absurd
      cases absurd
  · rw [if_neg found]
    refine ⟨_, rfl, fun value => ?_⟩
    rw [stopped.mem_iff]
    simp only [Bool.or_eq_true, Bool.not_eq_true', not_or, Bool.not_eq_false] at found
    rw [found.1, found.2]
    simp only [true_and, Option.some.injEq]
    exact eq_comm

end LearningNotes.Rax
