import LearningNotes.Zset.Unlink

/-! What the operations of the skiplist do to the list of towers when it is sorted. -/

namespace LearningNotes.Zset

open Lib Util List

variable {S : Type} {zsl : Zskiplist S} {towers rev rest : List (Tower S)}
  {update : List (Addr × Nat)}

theorem Drawn.free (drawn : Drawn zsl towers) {a : Addr}
    (absent : a ∉ zsl.header :: towers.map Tower.addr) : Drawn (zsl.zslFreeNode a) towers := by
  have kept : ∀ b ∈ zsl.header :: towers.map Tower.addr, (zsl.zslFreeNode a).heap b = zsl.heap b :=
    fun b listed => if_neg fun (same : b = a) => absent (same ▸ listed)
  obtain ⟨header, cells, distinct, used, positive, bounded, levelPositive, levelBounded,
    levelReached, tail, length, counted⟩ := drawn
  refine ⟨?_, ?_, distinct, used, positive, bounded, levelPositive, levelBounded, levelReached,
    tail, length, counted⟩
  · rw [show (zsl.zslFreeNode a).header = zsl.header from rfl, kept _ mem_cons_self]
    exact header
  · intro left t right split
    rw [kept t.addr (mem_cons_of_mem _ (mem_map_of_mem (by simp [split])))]
    exact cells left t right split

theorem Drawn.nextOf (drawn : Drawn zsl (rev.reverse ++ rest))
    (crossed : ∀ i < zsl.level, update[i]? = some (crossing zsl.header i rev)) :
    nextOf zsl update = .ok (rest.head?.map Tower.addr) := by
  have level := drawn.levelPositive
  obtain ⟨node, stored, read⟩ := drawn.readable 0 (Nat.zero_le 0) level
  have next : (levelFor 0 rest).forward = rest.head?.map Tower.addr :=
    levelFor_zero fun t listed => drawn.positive t (mem_append_right _ listed)
  simp only [Zset.nextOf, updateAt, crossed 0 level, ok_bind, Zskiplist.levelOf, Zskiplist.deref,
    stored, read, crossedLevel, next]
  rfl

theorem Drawn.absent_of_first {x : Tower S} {later : List (Tower S)}
    (drawn : Drawn zsl (rev.reverse ++ x :: later)) :
    x.addr ∉ zsl.header :: (rev.reverse ++ later).map Tower.addr := by
  have distinct := drawn.distinct
  have order : (zsl.header :: (rev.reverse ++ x :: later).map Tower.addr).Perm
      (x.addr :: zsl.header :: (rev.reverse ++ later).map Tower.addr) := by
    rw [map_append, map_append, map_cons]
    exact (perm_middle.cons _).trans (List.Perm.swap _ _ _)
  rw [order.nodup_iff, nodup_cons] at distinct
  exact distinct.1

theorem Found.cut {test : Tower S → Nat → Bool} {holds : Tower S → Bool}
    (found : Found zsl towers test rev rest update) (reads : ∀ t rank, test t rank = holds t)
    (down : towers.Pairwise fun s t => holds t = true → holds s = true) :
    rev.reverse = towers.filter holds ∧ rest = towers.filter fun t => !holds t := by
  have split := found.split
  subst split
  apply cut_eq_filter down
  · intro t last
    rcases found.passed with none_ | ⟨u, others, shape, passed⟩
    · simp [none_] at last
    · rw [shape, reverse_cons, getLast?_concat, Option.some.injEq] at last
      rw [← last, ← reads]
      exact passed
  · intro t first
    obtain ⟨later, shape⟩ := head?_eq_some_iff.mp first
    rw [← reads]
    exact found.ends t later shape

section Cut

variable [LinearOrder S]

/-- The towers are in the order of the sorted set. -/
def InOrder (towers : List (Tower S)) : Prop := (towers.map Tower.key).Pairwise KeyLt

theorem InOrder.keys (ordered : InOrder towers) :
    towers.Pairwise fun s t => KeyLt s.key t.key := pairwise_map.mp ordered

variable {x : Tower S} {before later : List (Tower S)} {key : S × Bytes}

theorem InOrder.around (ordered : InOrder (before ++ x :: later)) :
    (∀ t ∈ before, KeyLt t.key x.key) ∧ ∀ t ∈ later, KeyLt x.key t.key := by
  rw [InOrder, map_append, pairwise_append, map_cons, pairwise_cons] at ordered
  obtain ⟨_, ⟨behind, _⟩, across⟩ := ordered
  exact ⟨fun t listed => across _ (mem_map_of_mem listed) _ mem_cons_self,
    fun t listed => behind _ (mem_map_of_mem listed)⟩

/-- The search by key splits the nodes into the smaller ones and the others. -/
theorem Found.cutKey
    (found : Found zsl towers (fun t _ => decide (KeyLt t.key key)) rev rest update)
    (ordered : InOrder towers) :
    rev.reverse = towers.filter (fun t => decide (KeyLt t.key key)) ∧
      rest = towers.filter fun t => !decide (KeyLt t.key key) := by
  apply found.cut (fun _ _ => rfl)
  exact ordered.keys.imp fun less holds => decide_eq_true (less.trans (of_decide_eq_true holds))

theorem Found.exact (found : Found zsl towers (fun t _ => decide (KeyLt t.key key)) rev rest update)
    (ordered : InOrder towers) {t : Tower S} (listed : t ∈ towers) (same : t.key = key) :
    ∃ later, rest = t :: later := by
  have inside : t ∈ rest := by
    rw [(found.cutKey ordered).2, mem_filter]
    refine ⟨listed, ?_⟩
    rw [same]
    simp [KeyLt.irrefl]
  cases rest with
  | nil => exact absurd inside not_mem_nil
  | cons first later =>
    rcases mem_cons.mp inside with head | behind
    · exact ⟨later, by rw [head]⟩
    -- Otherwise the first tower would come before the key, and the search would have passed it.
    rw [found.split] at ordered
    have less := ordered.around.2 t behind
    have ends := found.ends first later rfl
    rw [same] at less
    simp [less] at ends

theorem InOrder.filter_ne (ordered : InOrder (before ++ x :: later)) :
    (before ++ x :: later).filter (fun t => t.key ≠ x.key) = before ++ later := by
  obtain ⟨less, more⟩ := ordered.around
  have front : ∀ t ∈ before, t.key ≠ x.key :=
    fun t listed same => KeyLt.irrefl _ (same ▸ less t listed)
  have back : ∀ t ∈ later, t.key ≠ x.key :=
    fun t listed same => KeyLt.irrefl _ (same ▸ more t listed)
  rw [filter_append, filter_cons_of_neg (by simp),
    filter_eq_self.mpr fun t listed => by simpa using front t listed,
    filter_eq_self.mpr fun t listed => by simpa using back t listed]

end Cut

section Delete

variable [LinearOrder S]

theorem Drawn.isNodeOf (drawn : Drawn zsl (rev.reverse ++ rest)) (score : S) (ele : Bytes) :
    (∃ x later, rest = x :: later ∧ x.key = (score, ele) ∧
      isNodeOf zsl (rest.head?.map Tower.addr) score ele =
        .ok (some (x.addr, nodeFor rev.reverse x later))) ∨
    ((∀ x later, rest = x :: later → x.key ≠ (score, ele)) ∧
      isNodeOf zsl (rest.head?.map Tower.addr) score ele = .ok none) := by
  cases rest with
  | nil => exact .inr ⟨fun x later impossible => (by cases impossible), rfl⟩
  | cons x later =>
    have read := drawn.deref (show rev.reverse ++ x :: later = rev.reverse ++ x :: later from rfl)
    simp only [head?_cons, Option.map_some, Zset.isNodeOf, read, ok_bind]
    by_cases same : x.key = (score, ele)
    · have parts : score = x.score ∧ x.ele = ele := by
        rw [Prod.mk.injEq] at same
        exact ⟨same.1.symm, same.2⟩
      have equal : sdscmp x.ele ele = .eq := sdscmp_eq_iff.mpr parts.2
      refine .inl ⟨x, later, rfl, same, ?_⟩
      rw [if_pos (show score = (nodeFor rev.reverse x later).score from parts.1)]
      simp only [nodeFor, Node.string, ok_bind, equal, if_true]
      rfl
    refine .inr ⟨?_, ?_⟩
    · intro x' later' shape
      rw [List.cons.injEq] at shape
      exact shape.1 ▸ same
    by_cases scores : score = x.score
    · have different : sdscmp x.ele ele ≠ .eq := by
        intro equal
        apply same
        rw [Tower.key, scores, sdscmp_eq_iff.mp equal]
      rw [if_pos (show score = (nodeFor rev.reverse x later).score from scores)]
      simp only [nodeFor, Node.string, ok_bind, different, if_false]
      rfl
    · rw [if_neg (show ¬ score = (nodeFor rev.reverse x later).score from scores)]
      rfl

/-- Deleting takes out the node of the key, or nothing. -/
theorem zslDelete_spec (drawn : Drawn zsl towers) (ordered : InOrder towers) (score : S)
    (ele : Bytes) :
    ∃ zsl', zslDelete zsl score ele =
        .ok (decide (∃ t ∈ towers, t.key = (score, ele)), zsl') ∧
      Drawn zsl' (towers.filter fun t => t.key ≠ (score, ele)) := by
  obtain ⟨update, rev, rest, searched, found⟩ := search_spec drawn (comesBefore_reads score ele)
    (fun n _ => (rfl : id n = n))
  have split := found.split
  subst split
  simp only [zslDelete, searched, ok_bind, drawn.nextOf found.crossed]
  rcases drawn.isNodeOf score ele with ⟨x, later, shape, same, test⟩ | ⟨differs, test⟩
  · subst shape
    obtain ⟨zsl', deleted, drawn', _, header, _⟩ := zslDeleteNode_spec drawn found.crossed
    have present : ∃ t ∈ rev.reverse ++ x :: later, t.key = (score, ele) := ⟨x, by simp, same⟩
    refine ⟨zsl'.zslFreeNode x.addr, ?_, ?_⟩
    · rw [test, decide_eq_true present]
      simp only [deleted, ok_bind]
      rfl
    · rw [← same, ordered.filter_ne]
      apply drawn'.free
      rw [header]
      exact drawn.absent_of_first
  · -- The key is nowhere else either, since the list is sorted.
    have absent : ∀ t ∈ rev.reverse ++ rest, t.key ≠ (score, ele) := by
      intro t listed same
      obtain ⟨later, shape⟩ := found.exact ordered listed same
      exact differs t later shape same
    have none_ : ¬ ∃ t ∈ rev.reverse ++ rest, t.key = (score, ele) :=
      fun ⟨t, listed, same⟩ => absent t listed same
    refine ⟨zsl, ?_, ?_⟩
    · rw [test, ok_bind, decide_eq_false none_]
      rfl
    · rw [filter_eq_self.mpr fun t listed => by simpa using absent t listed]
      exact drawn

end Delete

section Update

variable {t t' : Tower S}

theorem levelFor_rescore {i : Nat} (addr : t'.addr = t.addr) (height : t'.height = t.height)
    (left right : List (Tower S)) :
    levelFor i (left ++ t' :: right) = levelFor i (left ++ t :: right) := by
  induction left with
  | nil => simp only [nil_append, levelFor, addr, height]
  | cons u left ih => simp only [cons_append, levelFor, ih]

theorem lastAddr_rescore (addr : t'.addr = t.addr) (left right : List (Tower S)) :
    lastAddr (left ++ t' :: right) = lastAddr (left ++ t :: right) := by
  rw [lastAddr_append _ (cons_ne_nil _ _), lastAddr_append _ (cons_ne_nil _ _)]
  cases right with
  | nil => simp [lastAddr, addr]
  | cons u right => rfl

/-- A score that keeps the order is changed in place. -/
theorem Drawn.rescore {before later : List (Tower S)} {t t' : Tower S}
    (drawn : Drawn zsl (before ++ t :: later)) (addr : t'.addr = t.addr)
    (height : t'.height = t.height) :
    Drawn (zsl.store t.addr (nodeFor before t' later)) (before ++ t' :: later) := by
  have addrs : (before ++ t' :: later).map Tower.addr = (before ++ t :: later).map Tower.addr := by
    simp [addr]
  have distinct := drawn.distinct
  have kept : ∀ a, a ≠ t.addr → (zsl.store t.addr (nodeFor before t' later)).heap a = zsl.heap a :=
    fun a other => if_neg other
  rw [nodup_cons, map_append, map_cons, nodup_append, nodup_cons] at distinct
  obtain ⟨notHeader, _, ⟨notLater, _⟩, across⟩ := distinct
  have low : ∀ i, Low i (before ++ t' :: later) ↔ Low i (before ++ t :: later) := by
    intro i
    simp only [Low, forall_mem_append, forall_mem_cons, height]
  refine ⟨?_, ?_, ?_, ?_, ?_, ?_, drawn.levelPositive, drawn.levelBounded, ?_, ?_, ?_, ?_⟩
  · obtain ⟨node, stored, noEle, width, levels, unused⟩ := drawn.header
    refine ⟨node, ?_, noEle, width, ?_, unused⟩
    · show (zsl.store t.addr (nodeFor before t' later)).heap zsl.header = some node
      rw [kept _ fun same => notHeader (by simp [same]), stored]
    · intro i within
      rw [levelFor_rescore addr height]
      exact levels i within
  · intro left u right split
    rcases split_cases split with ⟨more, eq, rest⟩ | ⟨more, eq, rest⟩
    · cases more with
      | nil =>
        -- The tower that was written.
        simp only [nil_append, List.cons.injEq] at rest
        rw [append_nil] at eq
        rw [← rest.1, ← rest.2, addr, eq]
        exact if_pos rfl
      | cons v more =>
        -- A later tower, whose backward pointer is as before.
        simp only [cons_append, List.cons.injEq] at rest
        have other : u.addr ≠ t.addr :=
          fun same => notLater (same ▸ mem_map_of_mem (by simp [rest.2]))
        rw [kept _ other, drawn.cells (before ++ t :: more) u right (by simp [rest.2]), eq,
          ← rest.1, nodeFor, nodeFor, lastAddr_rescore addr]
    · -- An earlier tower, whose levels are as before.
      have other : u.addr ≠ t.addr :=
        across _ (mem_map_of_mem (by simp [eq])) _ mem_cons_self
      rw [kept _ other, drawn.cells left u (more ++ t :: later) (by simp [eq]), rest, nodeFor,
        nodeFor]
      simp only [levelFor_rescore addr height]
  · rw [addrs]
    exact drawn.distinct
  · rw [addrs]
    exact drawn.used
  · have positive := drawn.positive
    simp only [forall_mem_append, forall_mem_cons, height] at positive ⊢
    exact positive
  · exact (low _).mpr drawn.bounded
  · rcases drawn.levelReached with one | reached
    · exact .inl one
    · exact .inr fun now => reached ((low _).mp now)
  · rw [lastAddr_rescore addr]
    exact drawn.tail
  · have length := drawn.length
    rw [length_append, length_cons] at length ⊢
    exact length
  · have counted := drawn.counted
    rw [length_append, length_cons] at counted ⊢
    exact counted

theorem getD_true_iff {α : Type} {o : Option α} {test : α → Bool} :
    (o.map test).getD true = true ↔ ∀ u, o = some u → test u = true := by
  cases o <;> simp

theorem Drawn.neighbour (drawn : Drawn zsl towers) {t : Option (Tower S)}
    (listed : ∀ u, t = some u → u ∈ towers) (test : S → Bool) :
    neighbour zsl (t.map Tower.addr) test = .ok ((t.map fun u => test u.score).getD true) := by
  cases t with
  | none => rfl
  | some u =>
    obtain ⟨left, right, split⟩ := append_of_mem (listed u rfl)
    simp only [Zset.neighbour, Option.map_some, drawn.deref split, ok_bind]
    rfl

variable [LinearOrder S]

def placed (new : Tower S) (towers : List (Tower S)) : List (Tower S) :=
  towers.filter (fun t => decide (KeyLt t.key new.key)) ++
    new :: towers.filter fun t => !decide (KeyLt t.key new.key)

theorem placed_perm (new : Tower S) (towers : List (Tower S)) :
    (placed new towers).Perm (new :: towers) :=
  perm_middle.trans ((filter_append_perm _ _).cons _)

theorem zslInsert_placed (drawn : Drawn zsl towers) (ordered : InOrder towers) (score : S)
    (ele : Bytes) {level : Nat} (positive : 1 ≤ level) (bounded : level ≤ zskiplistMaxlevel)
    (room : towers.length + 1 < 2 ^ 32) :
    ∃ zsl', zslInsert zsl score ele level = .ok (zsl.brk, zsl') ∧
      Drawn zsl' (placed ⟨zsl.brk, score, ele, level⟩ towers) ∧ zsl'.brk = zsl.brk + 1 ∧
      zsl'.header = zsl.header := by
  obtain ⟨zsl', update, rev, rest, inserted, found, drawn', brk, header⟩ :=
    zslInsert_spec drawn score ele positive bounded room
  obtain ⟨before, after⟩ := found.cutKey ordered
  refine ⟨zsl', inserted, ?_, brk, header⟩
  rw [before, after] at drawn'
  exact drawn'

theorem placed_between {new : Tower S} {before later : List (Tower S)}
    (ordered : InOrder (before ++ later))
    (left : ∀ t, before.getLast? = some t → t.score < new.score)
    (right : ∀ t, later.head? = some t → new.score < t.score) :
    placed new (before ++ later) = before ++ new :: later := by
  have more : ∀ t, later.head? = some t → KeyLt new.key t.key := fun t first => .inl (right t first)
  obtain ⟨front, back⟩ := @cut_eq_filter _ (fun t => decide (KeyLt t.key new.key)) before later
    (ordered.keys.imp fun less holds => decide_eq_true (less.trans (of_decide_eq_true holds)))
    (fun t last => decide_eq_true (.inl (left t last)))
    (fun t first => decide_eq_false (more t first).asymm)
  rw [placed, ← front, ← back]

/-- The new score stands in its place, whether the node was moved or not. -/
theorem zslUpdateScore_spec (drawn : Drawn zsl towers) (ordered : InOrder towers) {curscore : S}
    {ele : Bytes} (present : ∃ t ∈ towers, t.key = (curscore, ele)) (newscore : S) {level : Nat}
    (positive : 1 ≤ level) (bounded : level ≤ zskiplistMaxlevel) (room : towers.length < 2 ^ 32) :
    ∃ x zsl' height, zslUpdateScore zsl curscore ele newscore level = .ok (x, zsl') ∧
      Drawn zsl' (placed ⟨x, newscore, ele, height⟩
        (towers.filter fun t => t.key ≠ (curscore, ele))) := by
  obtain ⟨update, rev, rest, searched, found⟩ := search_spec drawn (comesBefore_reads curscore ele)
    (fun n _ => (rfl : id n = n))
  obtain ⟨t, listed, same⟩ := present
  obtain ⟨later, shape⟩ := found.exact ordered listed same
  have split := found.split
  subst shape split
  have bottom : zsl.levelOf t.addr 0 = .ok (levelFor 0 later) :=
    drawn.levelOf rfl (drawn.positive t (by simp))
  have next : (levelFor 0 later).forward = later.head?.map Tower.addr :=
    levelFor_zero fun u listed => drawn.positive u (by simp [listed])
  have test : isNodeOf zsl ((t :: later).head?.map Tower.addr) curscore ele =
      .ok (some (t.addr, nodeFor rev.reverse t later)) := by
    rcases drawn.isNodeOf curscore ele with ⟨x, later', shape, _, test⟩ | ⟨differs, _⟩
    · rw [List.cons.injEq] at shape
      rw [test, ← shape.1, ← shape.2]
    · exact absurd same (differs t later rfl)
  have leftRead : neighbour zsl (nodeFor rev.reverse t later).backward (· < newscore) =
      .ok ((rev.reverse.getLast?.map fun u => decide (u.score < newscore)).getD true) :=
    drawn.neighbour (fun u last => mem_append_left _ (mem_of_getLast? last)) _
  have rightRead : neighbour zsl (levelFor 0 later).forward (· > newscore) =
      .ok ((later.head?.map fun u => decide (u.score > newscore)).getD true) := by
    rw [next]
    refine drawn.neighbour (fun u first => ?_) _
    exact mem_append_right _ (mem_cons_of_mem _ (mem_of_head? first))
  have others : (rev.reverse ++ t :: later).filter (fun u => u.key ≠ (curscore, ele)) =
      rev.reverse ++ later := by rw [← same, ordered.filter_ne]
  have sorted : InOrder (rev.reverse ++ later) :=
    ordered.sublist (((sublist_cons_self t later).append_left _).map _)
  have name : t.ele = ele := congrArg Prod.snd same
  simp only [zslUpdateScore, searched, ok_bind, drawn.nextOf found.crossed, test, bottom, leftRead]
  rw [others]
  by_cases inPlace : (∀ u, rev.reverse.getLast? = some u → u.score < newscore) ∧
      ∀ u, later.head? = some u → newscore < u.score
  · -- The node stays where it is.
    have left : (rev.reverse.getLast?.map fun u => decide (u.score < newscore)).getD true = true :=
      getD_true_iff.mpr fun u last => decide_eq_true (inPlace.1 u last)
    have right : (later.head?.map fun u => decide (u.score > newscore)).getD true = true :=
      getD_true_iff.mpr fun u first => decide_eq_true (inPlace.2 u first)
    simp only [left, rightRead, right]
    refine ⟨t.addr, _, t.height, rfl, ?_⟩
    rw [placed_between sorted inPlace.1 inPlace.2]
    have drawn' := @Drawn.rescore S zsl rev.reverse later t ⟨t.addr, newscore, ele, t.height⟩ drawn
      rfl rfl
    rw [← name] at drawn' ⊢
    exact drawn'
  · -- The node is taken out, and a new one is put in.
    obtain ⟨zsl', deleted, drawn', brk, header, _⟩ := zslDeleteNode_spec drawn found.crossed
    have length : (rev.reverse ++ later).length + 1 < 2 ^ 32 := by
      simp only [length_append] at room ⊢
      omega
    obtain ⟨zsl'', inserted, drawn'', _, header'⟩ :=
      zslInsert_placed drawn' sorted newscore ele positive bounded length
    have moved : (if (rev.reverse.getLast?.map fun u => decide (u.score < newscore)).getD true = true
        then neighbour zsl (levelFor 0 later).forward (· > newscore) else .ok false) = .ok false := by
      rw [rightRead]
      split
      case isTrue left =>
        rw [getD_true_iff] at left
        have right : ¬ (later.head?.map fun u => decide (u.score > newscore)).getD true = true := by
          rw [getD_true_iff]
          intro right
          exact inPlace ⟨fun u last => of_decide_eq_true (left u last),
            fun u first => of_decide_eq_true (right u first)⟩
        rw [Bool.eq_false_iff.mpr right]
      case isFalse => rfl
    rw [moved]
    simp only [ok_bind, deleted, nodeFor, Node.string, name, inserted]
    refine ⟨zsl'.brk, _, level, rfl, drawn''.free ?_⟩
    -- The old node is neither among the others nor the new one.
    intro listed'
    rw [header', header] at listed'
    rcases mem_cons.mp listed' with top | inside
    · exact drawn.absent_of_first (top ▸ mem_cons_self)
    rw [((placed_perm _ _).map Tower.addr).mem_iff, map_cons, mem_cons] at inside
    rcases inside with new | old
    · have used := drawn.used t.addr (by simp)
      rw [new, brk] at used
      exact Nat.lt_irrefl _ used
    · exact drawn.absent_of_first (mem_cons_of_mem _ old)

end Update

end LearningNotes.Zset
