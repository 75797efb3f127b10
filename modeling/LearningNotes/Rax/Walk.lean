import LearningNotes.Rax.Tree

/-! Where the walk along a key stops, and what that says about the key. -/

namespace LearningNotes.Rax

open Lib List

variable {V : Type}

theorem take_matchLength (v s : Bytes) : v.take (matchLength v s) = s.take (matchLength v s) := by
  induction v generalizing s with
  | nil => simp [matchLength]
  | cons d v ih =>
    cases s with
    | nil => simp [matchLength]
    | cons c s =>
      by_cases same : d = c
      · simp [matchLength, same, ih]
      · simp [matchLength, same]

theorem matchLength_stops {v s : Bytes} (short : matchLength v s ≠ v.length) :
    (s.drop (matchLength v s) = [] ∧ matchLength v s < v.length) ∨
      ∃ d c rest, v[matchLength v s]? = some d ∧ s.drop (matchLength v s) = c :: rest ∧ d ≠ c := by
  induction v generalizing s with
  | nil => simp [matchLength] at short
  | cons d v ih =>
    cases s with
    | nil => simp [matchLength]
    | cons c s =>
      by_cases same : d = c
      · have shorter : matchLength v s ≠ v.length := by simpa [matchLength, same] using short
        simpa [matchLength, same] using ih shorter
      · exact Or.inr ⟨d, c, s, by simp [matchLength, same], by simp [matchLength, same], same⟩

/-- How a walk stops: the split position, and what is left of the key. -/
inductive Stops (h : Header V) : Nat → Bytes → Prop
  | here : Stops h 0 []
  | missing {c : UInt8} {s : Bytes} (plain : h.iscompr = false) (absent : c ∉ h.data) :
      Stops h 0 (c :: s)
  | mismatch {j : Nat} {c d : UInt8} {s : Bytes} (compr : h.iscompr = true)
      (char : h.data[j]? = some d) (other : d ≠ c) : Stops h j (c :: s)
  | inside {j : Nat} (compr : h.iscompr = true) (within : j < h.data.length) (started : 0 < j) :
      Stops h j []

/-- Where a walk along a key has got to. -/
structure Stopped (root : Node V) (s : Bytes) (walk : Walk V) : Prop where
  path : PathSound walk.path
  node : walk.stopnode.Sound
  live : walk.path ≠ [] → walk.stopnode.Live
  tree : plug walk.path walk.stopnode = root
  key : s = pathLabel walk.path ++ (walk.stopnode.header.data.take walk.splitpos ++ walk.rest)
  stops : Stops walk.stopnode.header walk.splitpos walk.rest

theorem Node.Sound.descend {header : Header V} {children : List (Node V)}
    (sound : (Node.mk header children).Sound) {j : Nat} (within : j < children.length) :
    ∃ frame child, (Node.mk header children).descend j = .ok (frame, child) ∧
      frame.fill child = .mk header children ∧ frame.Sound ∧ child.Sound ∧ child.Live ∧
      frame.label = header.labels.getD j [] := by
  obtain ⟨fits, sound, live⟩ := sound
  have split : children.take j ++ children[j] :: children.drop (j + 1) = children := by
    rw [← drop_eq_getElem_cons within]
    exact take_append_drop j children
  have left : (children.take j).length = j := by
    rw [length_take]
    omega
  have others : ∀ child ∈ children.take j ++ children.drop (j + 1), child ∈ children :=
    forall_mem_append.mpr ⟨fun _ => mem_of_mem_take, fun _ => mem_of_mem_drop⟩
  refine ⟨⟨header, children.take j, children.drop (j + 1)⟩, children[j], ?_, ?_, ⟨?_, ?_, ?_⟩,
    sound _ (getElem_mem within), live _ (getElem_mem within), ?_⟩
  · simp [Node.descend, Node.children, Node.header, getElem?_eq_getElem within]
  · rw [Frame.fill, split]
  · have arity : j + ((children.drop (j + 1)).length + 1) = children.length := by
      rw [length_drop]
      omega
    simpa only [left, arity] using fits
  · exact fun child listed => sound child (others child listed)
  · exact fun child listed => live child (others child listed)
  · rw [Frame.label, left]

section Stopping

variable {header : Header V} {children : List (Node V)} {path : List (Frame V)} {c : UInt8}
  {s : Bytes}

theorem Header.Fits.plain_of_empty {arity : Nat} (fits : header.Fits arity)
    (empty : header.data = []) : header.iscompr = false := by
  cases compr : header.iscompr with
  | true => exact absurd (fits.compressed compr).1 (by simp [empty])
  | false => rfl

/-- A node without an edge for the next character ends the walk. -/
theorem stopped_missing (pathSound : PathSound path) (sound : (Node.mk header children).Sound)
    (live : path ≠ [] → (Node.mk header children).Live) (plain : header.iscompr = false)
    (absent : c ∉ header.data) :
    Stopped (plug path (.mk header children)) (pathLabel path ++ (c :: s))
      ⟨.mk header children, path, 0, c :: s⟩ :=
  ⟨pathSound, sound, live, rfl, by simp, .missing plain absent⟩

/-- A compressed node that the key leaves before its end ends the walk inside the node. -/
theorem stopped_in_data (pathSound : PathSound path) (sound : (Node.mk header children).Sound)
    (live : path ≠ [] → (Node.mk header children).Live) (compr : header.iscompr = true)
    (short : matchLength header.data (c :: s) ≠ header.data.length) :
    Stopped (plug path (.mk header children)) (pathLabel path ++ (c :: s))
      ⟨.mk header children, path, matchLength header.data (c :: s),
        (c :: s).drop (matchLength header.data (c :: s))⟩ := by
  refine ⟨pathSound, sound, live, rfl, ?_, ?_⟩
  · simp only [Node.header]
    rw [take_matchLength, take_append_drop]
  simp only [Node.header]
  rcases matchLength_stops short with ⟨ended, within⟩ | ⟨d, e, rest, char, eq, other⟩
  · rw [ended]
    refine .inside compr within ?_
    cases started : matchLength header.data (c :: s) with
    | zero => simp [started] at ended
    | succ j => omega
  · rw [eq]
    exact .mismatch compr char other

theorem label_of_match (compr : header.iscompr = true)
    (whole : matchLength header.data (c :: s) = header.data.length) :
    header.labels.getD 0 [] ++ (c :: s).drop header.data.length = c :: s := by
  have agree := take_matchLength header.data (c :: s)
  rw [whole, take_length] at agree
  simp only [Header.labels, compr]
  nth_rewrite 1 [agree]
  exact take_append_drop _ _

theorem label_of_char (plain : header.iscompr = false) (listed : c ∈ header.data) :
    header.labels.getD (header.data.idxOf c) [] ++ s = c :: s := by
  have within := idxOf_lt_length_of_mem listed
  have char : header.data[header.data.idxOf c]? = some c :=
    List.getElem?_eq_some_iff.mpr ⟨within, getElem_idxOf within⟩
  simp [Header.labels, plain, char]

end Stopping

theorem lowWalkFrom_stops {fuel : Nat} {h : Node V} {path : List (Frame V)} {s : Bytes}
    (enough : s.length < fuel) (pathSound : PathSound path) (sound : h.Sound)
    (live : path ≠ [] → h.Live) :
    ∃ walk, lowWalkFrom fuel h path s = .ok walk ∧
      Stopped (plug path h) (pathLabel path ++ s) walk := by
  -- Every step goes through one edge and takes its label off the key.
  induction fuel generalizing h path s with
  | zero => omega
  | succ fuel ih =>
    cases s with
    | nil =>
      refine ⟨⟨h, path, 0, []⟩, rfl, pathSound, sound, live, rfl, ?_, .here⟩
      simp
    | cons c s =>
      rcases h with ⟨header, children⟩
      have fits : header.Fits children.length := by
        cases sound with
        | mk fits _ _ => exact fits
      -- Taking the edge at an index whose label starts the key.
      have step : ∀ j rest, j < children.length → header.labels.getD j [] ++ rest = c :: s →
          rest.length < fuel →
          ∃ walk, ((Node.mk header children).descend j >>= fun edge =>
            lowWalkFrom fuel edge.2 (edge.1 :: path) rest) = .ok walk ∧
            Stopped (plug path (.mk header children)) (pathLabel path ++ (c :: s)) walk := by
        intro j rest within starts shorter
        obtain ⟨frame, child, descended, filled, frameSound, childSound, childLive, named⟩ :=
          sound.descend within
        obtain ⟨walk, walked, stopped⟩ := ih shorter (.cons frameSound pathSound) childSound
          (fun _ => childLive)
        refine ⟨walk, by rw [descended]; exact walked, ?_⟩
        rw [← starts, ← named, ← append_assoc, ← filled]
        exact stopped
      rw [lowWalkFrom]
      by_cases empty : header.size = 0
      · have noData : header.data = [] := length_eq_zero_iff.mp empty
        exact ⟨_, by simp [Node.header, empty], stopped_missing pathSound sound live
          (fits.plain_of_empty noData) (by simp [noData])⟩
      rw [if_neg (by exact empty)]
      by_cases compr : header.iscompr = true
      · rw [if_pos (by exact compr)]
        by_cases short : matchLength header.data (c :: s) ≠ header.size
        · rw [if_pos (by exact short)]
          exact ⟨_, rfl, stopped_in_data pathSound sound live compr short⟩
        · rw [if_neg (by exact short)]
          have whole : matchLength header.data (c :: s) = header.data.length :=
            Decidable.of_not_not short
          have one : children.length = 1 := (fits.compressed compr).2
          simp only [Node.header, whole]
          apply step 0 _ (by omega) (label_of_match compr whole)
          have some : header.data.length ≠ 0 := empty
          simp only [length_drop, length_cons] at enough ⊢
          omega
      · rw [if_neg (by exact compr)]
        rw [Bool.not_eq_true] at compr
        by_cases absent : header.data.idxOf c = header.size
        · rw [if_pos (by exact absent)]
          exact ⟨_, rfl, stopped_missing pathSound sound live compr
            (idxOf_eq_length_iff.mp absent)⟩
        rw [if_neg (by exact absent)]
        have listed : c ∈ header.data := by
          apply Decidable.of_not_not
          exact fun missing => absent (idxOf_eq_length_iff.mpr missing)
        have within := idxOf_lt_length_of_mem listed
        have arity := (fits.plain compr).2
        apply step _ _ (by omega) (label_of_char compr listed)
        simp only [length_cons] at enough
        omega

theorem raxLowWalk_stops {head : Node V} (sound : head.Sound) (s : Bytes) :
    ∃ walk, raxLowWalk head s = .ok walk ∧ Stopped head s walk :=
  lowWalkFrom_stops (Nat.lt_succ_self _) (forall_mem_nil _) sound
    (fun some => absurd rfl some)

theorem Stopped.arrived_iff {root : Node V} {s : Bytes} {walk : Walk V}
    (stopped : Stopped root s walk) :
    walk.arrived = true ↔ walk.rest = [] ∧ walk.splitpos = 0 := by
  rcases walk with ⟨h, path, j, rest⟩
  have stops := stopped.stops
  cases stops with
  | here => simp [Walk.arrived]
  | missing plain absent => simp [Walk.arrived]
  | mismatch compr char other => simp [Walk.arrived]
  | inside compr within started => simp [Walk.arrived, compr]

theorem Node.Sound.mem_entries_nil {node : Node V} (sound : node.Sound) {value : Option V} :
    ([], value) ∈ node.entries ↔ node.header.iskey = true ∧ value = raxGetData node.header := by
  rcases node with ⟨header, children⟩
  obtain ⟨fits, _, _⟩ := sound
  have edges : ([], value) ∉ edgeEntries header.labels children := by
    intro listed
    obtain ⟨label, inside, starts⟩ := exists_label_of_mem listed
    exact fits.label_ne_nil inside (prefix_nil.mp starts)
  rw [Node.entries, mem_append, or_iff_left edges, Header.own]
  by_cases key : header.iskey = true
  · simp [Node.header]
  · simp [Node.header]

theorem Stops.not_mem {node : Node V} {j : Nat} {rest : Bytes} (stops : Stops node.header j rest)
    (short : ¬ (rest = [] ∧ j = 0)) (value : Option V) :
    (node.header.data.take j ++ rest, value) ∉ node.entries := by
  rcases node with ⟨header, children⟩
  intro listed
  rw [Node.entries, mem_append] at listed
  simp only [Node.header] at stops listed
  rcases listed with own | edges
  · -- The node's own key is empty, but something of the key lies behind the node.
    have empty : header.data.take j ++ rest = [] := by
      unfold Header.own at own
      split at own
      · simp only [mem_singleton, Prod.mk.injEq] at own
        exact own.1
      · simp at own
    cases stops with
    | here => exact short ⟨rfl, rfl⟩
    | missing plain absent => simp at empty
    | mismatch compr char other => simp at empty
    | inside compr within started =>
      have size := congrArg List.length empty
      simp only [append_nil, length_take, length_nil] at size
      omega
  · -- Any other key starts with a label, and no label starts the key.
    obtain ⟨label, inside, starts⟩ := exists_label_of_mem edges
    cases stops with
    | here => exact short ⟨rfl, rfl⟩
    | missing plain absent =>
      simp only [Header.labels, plain, Bool.false_eq_true, if_false, mem_map] at inside
      obtain ⟨c, stored, named⟩ := inside
      rw [← named, take_zero, nil_append, cons_prefix_cons] at starts
      exact absent (starts.1 ▸ stored)
    | @mismatch _ c d s compr char other =>
      simp only [Header.labels, compr, if_true, mem_singleton] at inside
      obtain ⟨within, char⟩ := List.getElem?_eq_some_iff.mp char
      have split := take_append_drop j header.data
      rw [drop_eq_getElem_cons within, char] at split
      rw [inside, ← split] at starts
      have cut : (header.data.take j ++ d :: header.data.drop (j + 1)).take j =
          header.data.take j := by rw [split]
      rw [cut, prefix_append_right_inj, cons_prefix_cons] at starts
      exact other starts.1
    | inside compr within started =>
      simp only [Header.labels, compr, if_true, mem_singleton] at inside
      rw [inside, append_nil] at starts
      have size := starts.length_le
      rw [length_take] at size
      omega

theorem Stopped.mem_iff {root : Node V} {s : Bytes} {walk : Walk V}
    (stopped : Stopped root s walk) {value : Option V} :
    (s, value) ∈ root.entries ↔ walk.arrived = true ∧ walk.stopnode.header.iskey = true ∧
      value = raxGetData walk.stopnode.header := by
  rw [stopped.arrived_iff]
  obtain ⟨pathSound, sound, _, tree, key, stops⟩ := stopped
  rw [← tree, key, pathSound.mem_plug]
  by_cases arrived : walk.rest = [] ∧ walk.splitpos = 0
  · rw [arrived.1, arrived.2, take_zero, nil_append, sound.mem_entries_nil]
    simp
  · constructor
    · exact fun listed => absurd listed (stops.not_mem arrived value)
    · exact fun found => absurd found.1 arrived

end LearningNotes.Rax
