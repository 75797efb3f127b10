import LearningNotes.Zset.Rewire

/-! `zslInsert` puts one tower into the drawing and changes nothing else. -/

namespace LearningNotes.Zset

open Lib Util List

variable {S : Type}

/-- The level of the node that crosses a place, before any change. -/
def crossedLevel (header : Addr) (rev rest : List (Tower S)) (i : Nat) : Level :=
  ⟨(levelFor i rest).forward, rev.length - (crossing header i rev).2 + (levelFor i rest).span⟩

theorem crossing_eq_iff {header : Addr} {i : Nat} {left between : List (Tower S)} {t : Tower S}
    (distinct : (header :: (left ++ t :: between).map Tower.addr).Nodup) (tall : i < t.height) :
    (crossing header i (left ++ t :: between).reverse).1 = t.addr ↔ Low i between := by
  have order : (left ++ t :: between).reverse = between.reverse ++ (t :: left.reverse) := by simp
  rw [order]
  constructor
  · intro crosses
    -- Otherwise the level would be passed from a tower in between, which is another one.
    apply Decidable.of_not_not
    intro notLow
    rcases crossing_cases header i between.reverse with
      ⟨low, _⟩ | ⟨lower, u, others, split, low, reaches, _⟩
    · exact notLow (low_reverse.mp low)
    have found : crossing header i (between.reverse ++ t :: left.reverse) =
        (u.addr, (others ++ t :: left.reverse).length + 1) := by
      rw [split, append_assoc, crossing_append_low low, cons_append, crossing, if_pos reaches]
    rw [found] at crosses
    have inside : u ∈ between := mem_reverse.mp (by simp [split])
    simp only [map_append, map_cons, nodup_cons, nodup_append] at distinct
    exact distinct.2.2.1.1 (crosses ▸ mem_map_of_mem inside)
  · intro low
    rw [crossing_append_low (low_reverse.mpr low), crossing, if_pos tall]

theorem crossing_header_iff {header : Addr} {i : Nat} {passed : List (Tower S)}
    (distinct : (header :: passed.map Tower.addr).Nodup) :
    (crossing header i passed.reverse).1 = header ↔ Low i passed := by
  rcases crossing_cases header i passed.reverse with
    ⟨low, top⟩ | ⟨lower, t, others, split, low, tall, top⟩
  · rw [top]
    exact iff_of_true rfl (low_reverse.mp low)
  have inside : t ∈ passed := mem_reverse.mp (by simp [split])
  rw [top]
  constructor
  · intro same
    exact absurd (same ▸ mem_map_of_mem inside) (nodup_cons.mp distinct).1
  · intro lowAll
    have short := lowAll t inside
    omega

section Drawn

variable {zsl : Zskiplist S} {rev rest : List (Tower S)}

section

variable (drawn : Drawn zsl (rev.reverse ++ rest))
include drawn

theorem Drawn.readable :
    Readable zsl.heap (fun i => (crossing zsl.header i rev).1) 0 zsl.level
      (crossedLevel zsl.header rev rest) := by
  intro i _ within
  simp only
  rcases crossing_cases zsl.header i rev with ⟨low, top⟩ | ⟨lower, t, others, split, low, tall, top⟩
  · obtain ⟨node, stored, _, _, levels, _⟩ := drawn.header
    refine ⟨node, by rw [top]; exact stored, ?_⟩
    rw [levels i within, levelFor_append_low (low_reverse.mpr low), crossedLevel, top,
      length_reverse]
    rfl
  · have whole : rev.reverse ++ rest = others.reverse ++ t :: (lower.reverse ++ rest) := by
      simp [split]
    refine ⟨_, by rw [top]; exact drawn.cells _ _ _ whole, ?_⟩
    have between : rev.length - (others.length + 1) = lower.length := by
      rw [split, length_append, length_cons]
      omega
    rw [crossedLevel, top, between]
    simp [nodeFor, tall, levelFor_append_low (low_reverse.mpr low)]

theorem Drawn.crossing_above {i : Nat}
    (above : zsl.level ≤ i) : crossing zsl.header i rev = (zsl.header, 0) := by
  apply crossing_of_low
  intro t listed
  exact drawn.bounded.mono above t (mem_append_left _ (mem_reverse.mpr listed))

theorem Drawn.crossing_ne {t : Tower S}
    (behind : t ∈ rest) (i : Nat) : (crossing zsl.header i rev).1 ≠ t.addr := by
  apply drawn.apart.2.2 _ _ t behind
  simpa using crossing_mem zsl.header i rev

end

end Drawn

variable {heap : Addr → Option (Node S)} {target : Nat → Addr} {lo hi : Nat}
    {change : Nat → Level → Level}

theorem Readable.rewire {other : Nat → Addr} {lo' hi' : Nat} {old : Nat → Level}
    (readable : Readable heap target lo hi old)
    (apart : ∀ i, lo ≤ i → i < hi → ¬ (lo' ≤ i ∧ i < hi')) :
    Readable (Zset.rewire heap other lo' hi' change) target lo hi old := by
  intro i above below
  obtain ⟨node, stored, read⟩ := readable i above below
  refine ⟨_, rewire_some stored, ?_⟩
  have skipped : ¬ (lo' ≤ i ∧ i < hi' ∧ other i = target i) :=
    fun inside => apart i above below ⟨inside.1, inside.2.1⟩
  simp only [getElem?_mapIdx, read, Option.map_some, if_neg skipped]

theorem rewire_rewire {mid : Nat} (first second : Nat → Level → Level) (ordered : lo ≤ mid)
    (ordered' : mid ≤ hi) :
    rewire (rewire heap target lo mid first) target mid hi second =
      rewire heap target lo hi fun i => if i < mid then first i else second i := by
  funext a
  simp only [rewire, Option.map_map]
  congr 1
  funext node
  simp only [Function.comp_apply, Node.mk.injEq, true_and]
  apply ext_getElem?
  intro i
  simp only [getElem?_mapIdx, Option.map_map]
  congr 1
  funext level
  by_cases here : target i = a
  · by_cases early : i < mid
    · have notLate : ¬ mid ≤ i := by omega
      have below : i < hi := by omega
      simp [early, notLate, below]
    · have late : mid ≤ i := by omega
      have above : lo ≤ i := by omega
      simp [early, late, above]
  · simp [here]

theorem raiseLevels_spec {zsl : Zskiplist S} {heap : Addr → Option (Node S)} {lo hi : Nat}
    {node : Node S} (stored : heap zsl.header = some node) (enough : hi ≤ node.level.length)
    {update : List (Addr × Nat)} (from_ : lo ≤ update.length) (upTo : update.length ≤ hi)
    (changed : zsl.heap = rewire heap (fun _ => zsl.header) lo update.length
      fun _ level => { level with span := zsl.length }) :
    raiseLevels (hi - update.length) zsl update = .ok (zsl.withHeap (rewire heap
        (fun _ => zsl.header) lo hi fun _ level => { level with span := zsl.length }),
      update ++ List.replicate (hi - update.length) (zsl.header, 0)) := by
  generalize left : hi - update.length = count
  induction count generalizing zsl update with
  | zero =>
    have done : update.length = hi := by omega
    rw [raiseLevels, ← done, zsl.withHeap_self changed]
    simp
  | succ count ih =>
    obtain ⟨level, read⟩ : ∃ level, node.level[update.length]? = some level :=
      ⟨_, getElem?_eq_getElem (by omega)⟩
    have written := setLevel_rewire changed stored read from_
    have longer : (update ++ [(zsl.header, 0)]).length = update.length + 1 := by simp
    rw [raiseLevels]
    simp only [levelOf_rewire changed stored read (Nat.le_refl _), ok_bind, written]
    -- The remaining levels are opened in the same way.
    have rest := @ih (zsl.withHeap (rewire heap (fun _ => zsl.header) lo (update.length + 1)
        fun _ level => { level with span := zsl.length })) stored (update ++ [(zsl.header, 0)])
      (by omega) (by omega) (by rw [longer]; rfl) (by omega)
    simp only [Zskiplist.withHeap_header] at rest ⊢
    rw [rest]
    simp [replicate_succ]

/-- What linking a tower in writes to a crossing level. -/
def linkChange (rank : Nat) (ranks : Nat → Nat) (new : Tower S) (i : Nat) (level : Level) : Level :=
  if i < new.height then ⟨some new.addr, wrapAdd 32 (wrapSub 32 rank (ranks i)) 1⟩
  else { level with span := wrapAdd 64 level.span 1 }

theorem linkChange_levelFor {between rest : List (Tower S)} {new : Tower S} {i rank : Nat}
    {ranks : Nat → Nat} {crosses : Prop} [Decidable crosses] (iff : crosses ↔ Low i between)
    (distance : crosses → rank = ranks i + between.length) (room : rank + 1 < 2 ^ 32)
    (counted : (between ++ rest).length + 1 < 2 ^ 64) :
    (if crosses then linkChange rank ranks new i (levelFor i (between ++ rest))
      else levelFor i (between ++ rest)) = levelFor i (between ++ new :: rest) := by
  by_cases here : crosses
  · have low := iff.mp here
    have apart := distance here
    have difference : wrapSub 32 rank (ranks i) = between.length := by
      rw [wrapSub_of_le (by omega) (by omega)]
      omega
    rw [if_pos here, levelFor_append_low low, levelFor_append_low low, linkChange]
    by_cases reaches : i < new.height
    · -- The new tower is the next one on this level.
      rw [if_pos reaches, levelFor_tall reaches, difference, wrapAdd_of_lt (by omega)]
    · -- The level passes over the new tower and becomes one longer.
      have short := levelFor_span_le i rest
      rw [length_append] at counted
      rw [if_neg reaches, levelFor_short reaches, wrapAdd_of_lt (by simp only; omega)]
      rfl
  · have tall : ¬ Low i between := fun low => here (iff.mpr low)
    rw [if_neg here, levelFor_append_of_not_low tall, levelFor_append_of_not_low tall]

theorem mapIdx_levels {height : Nat} {before after : Nat → Level}
    (changed : ∀ i < height, change i (before i) = after i) :
    ((List.range height).map before).mapIdx change = (List.range height).map after := by
  apply ext_getElem?
  intro i
  by_cases within : i < height
  · simp [within, changed i within]
  · simp [within]

theorem crossing_rank {header : Addr} {i : Nat} {left between : List (Tower S)} {t : Tower S}
    (low : Low i between) (tall : i < t.height) :
    (left ++ t :: between).reverse.length =
      (crossing header i (left ++ t :: between).reverse).2 + between.length := by
  have order : (left ++ t :: between).reverse = between.reverse ++ (t :: left.reverse) := by simp
  rw [order, crossing_append_low (low_reverse.mpr low), crossing, if_pos tall]
  simp only [length_append, length_cons, length_reverse]
  omega

/-- The header spans the list on the levels a new tower opens. -/
def raisedHeap (zsl : Zskiplist S) (height : Nat) : Addr → Option (Node S) :=
  rewire zsl.heap (fun _ => zsl.header) zsl.level height
    fun _ level => { level with span := zsl.length }

/-- The levels that cross a place know of a new tower there. -/
def linkedHeap (zsl : Zskiplist S) (rev : List (Tower S)) (new : Tower S) :
    Addr → Option (Node S) :=
  rewire (raisedHeap zsl new.height) (fun i => (crossing zsl.header i rev).1) 0
    (max zsl.level new.height)
    (linkChange rev.length (fun i => (crossing zsl.header i rev).2) new)

section Drawn

variable {zsl : Zskiplist S} {rev rest : List (Tower S)} {new : Tower S}

section

variable (drawn : Drawn zsl (rev.reverse ++ rest))
include drawn

theorem Drawn.linked_header
    (bounded : new.height ≤ zskiplistMaxlevel) (room : (rev.reverse ++ rest).length + 1 < 2 ^ 32) :
    ∃ node, linkedHeap zsl rev new zsl.header = some node ∧ node.ele = none ∧
      node.level.length = zskiplistMaxlevel ∧
      (∀ i < max zsl.level new.height,
        node.level[i]? = some (levelFor i (rev.reverse ++ new :: rest))) ∧
      ∀ i level, max zsl.level new.height ≤ i → node.level[i]? = some level →
        level.forward = none := by
  obtain ⟨node, stored, noEle, width, levels, unused⟩ := drawn.header
  refine ⟨_, rewire_some (rewire_some stored), noEle, by simp [width], ?_, ?_⟩
  · intro i within
    have iff := @crossing_header_iff S zsl.header i rev.reverse drawn.apart.1
    rw [reverse_reverse] at iff
    -- Whether or not the level was in use, it now spans the list as it was.
    have raised : (node.level.mapIdx fun i level =>
        if zsl.level ≤ i ∧ i < new.height ∧ zsl.header = zsl.header then
          { level with span := zsl.length } else level)[i]? =
        some (levelFor i (rev.reverse ++ rest)) := by
      rw [getElem?_mapIdx]
      by_cases used : i < zsl.level
      · have notNew : ¬ (zsl.level ≤ i ∧ i < new.height ∧ zsl.header = zsl.header) :=
          fun inside => by omega
        rw [levels i used, Option.map_some, if_neg notNew]
      have opened : zsl.level ≤ i ∧ i < new.height ∧ zsl.header = zsl.header :=
        ⟨by omega, by omega, rfl⟩
      obtain ⟨level, read⟩ : ∃ level, node.level[i]? = some level :=
        ⟨_, getElem?_eq_getElem (by omega)⟩
      rw [read, Option.map_some, if_pos opened, levelFor_of_low (drawn.bounded.mono opened.1),
        unused i level opened.1 read, drawn.length]
    simp only [getElem?_mapIdx] at raised ⊢
    rw [raised, Option.map_some]
    have crossed := @linkChange_levelFor S rev.reverse rest new i rev.length
      (fun i => (crossing zsl.header i rev).2)
      (0 ≤ i ∧ i < max zsl.level new.height ∧ (crossing zsl.header i rev).1 = zsl.header) _
      ⟨fun here => iff.mp here.2.2, fun low => ⟨Nat.zero_le i, within, iff.mpr low⟩⟩
      (by
        intro here
        simp [crossing_of_low (low_reverse.mp (iff.mp here.2.2))])
      (by
        rw [length_append, length_reverse] at room
        omega)
      (by omega)
    rw [crossed]
  · intro i level above read
    have low : ¬ (i < max zsl.level new.height) := by omega
    have notNew : ¬ (i < new.height) := by omega
    simp only [getElem?_mapIdx, low, notNew, false_and, and_false, Option.map_map,
      Option.map_eq_some_iff] at read
    obtain ⟨level', read, same⟩ := read
    exact same ▸ unused i level' (by omega) read

theorem Drawn.linked_passed (room : (rev.reverse ++ rest).length + 1 < 2 ^ 32)
    {left between : List (Tower S)} {t : Tower S} (split : rev.reverse = left ++ t :: between) :
    linkedHeap zsl rev new t.addr = some (nodeFor left t (between ++ new :: rest)) := by
  have whole : rev.reverse ++ rest = left ++ t :: (between ++ rest) := by
    rw [split]
    simp
  have reversed : rev = (left ++ t :: between).reverse := by
    rw [← split, reverse_reverse]
  have distinct := drawn.apart.1
  rw [split] at distinct
  -- Opening levels of the header does not touch the tower.
  have stored : raisedHeap zsl new.height t.addr = some (nodeFor left t (between ++ rest)) := by
    rw [raisedHeap, rewire_other fun _ _ _ => drawn.header_ne (by simp [whole])]
    exact drawn.cells left t _ whole
  rw [linkedHeap, rewire_some stored]
  congr 1
  rw [nodeFor, nodeFor]
  simp only [Node.mk.injEq, true_and]
  apply mapIdx_levels
  intro i tall
  have bound := drawn.bounded t (by rw [whole]; simp)
  have iff := @crossing_eq_iff S zsl.header i left between t distinct tall
  rw [← reversed] at iff
  refine linkChange_levelFor
    ⟨fun here => iff.mp here.2.2, fun low => ⟨Nat.zero_le i, by omega, iff.mpr low⟩⟩ ?_ ?_ ?_
  · intro here
    have rank := @crossing_rank S zsl.header i left between t (iff.mp here.2.2) tall
    rw [← reversed] at rank
    exact rank
  · rw [length_append, length_reverse] at room
    omega
  · rw [whole, length_append, length_cons] at room
    omega

omit drawn in
theorem perm_link (header : Addr) : (header :: (rev.reverse ++ new :: rest).map Tower.addr).Perm
    (new.addr :: header :: (rev.reverse ++ rest).map Tower.addr) := by
  rw [map_append, map_append, map_cons]
  exact (perm_middle.cons _).trans (List.Perm.swap _ _ _)

theorem Drawn.distinct_link (fresh : new.addr = zsl.brk) :
    (zsl.header :: (rev.reverse ++ new :: rest).map Tower.addr).Nodup := by
  rw [(perm_link zsl.header).nodup_iff, nodup_cons]
  exact ⟨fun listed => Nat.lt_irrefl _ (fresh ▸ drawn.used _ listed), drawn.distinct⟩

theorem Drawn.used_link (fresh : new.addr = zsl.brk) :
    ∀ a ∈ zsl.header :: (rev.reverse ++ new :: rest).map Tower.addr, a < zsl.brk + 1 := by
  intro a listed
  rcases mem_cons.mp ((perm_link zsl.header).mem_iff.mp listed) with rfl | old
  · exact Nat.lt_succ_of_le (Nat.le_of_eq fresh)
  · exact Nat.lt_succ_of_lt (drawn.used a old)

/-- The top level is reached by the new tower or by one that was there. -/
theorem Drawn.levelReached_link :
    max zsl.level new.height = 1 ∨
      ¬ Low (max zsl.level new.height - 1) (rev.reverse ++ new :: rest) := by
  by_cases higher : zsl.level ≤ new.height
  · rw [Nat.max_eq_right higher]
    refine (em (new.height = 1)).imp_right fun more low => ?_
    have short := low new (by simp)
    have used := drawn.levelPositive
    omega
  · rw [Nat.max_eq_left (by omega)]
    refine drawn.levelReached.imp_right fun reached low => ?_
    simp only [Low, forall_mem_append, forall_mem_cons] at low reached
    exact reached ⟨low.1, low.2.2⟩

/-- What makes a skiplist the drawing with a new tower. -/
theorem Drawn.link {zsl' : Zskiplist S}
    (fresh : new.addr = zsl.brk) (positive : 1 ≤ new.height)
    (bounded : new.height ≤ zskiplistMaxlevel) (room : (rev.reverse ++ rest).length + 1 < 2 ^ 32)
    (header : zsl'.header = zsl.header) (brk : zsl'.brk = zsl.brk + 1)
    (level : zsl'.level = max zsl.level new.height)
    (length : zsl'.length = wrapAdd 64 zsl.length 1)
    (tail : zsl'.tail = if rest = [] then some new.addr else zsl.tail)
    (atHeader : zsl'.heap zsl.header = linkedHeap zsl rev new zsl.header)
    (passed : ∀ t ∈ rev, zsl'.heap t.addr = linkedHeap zsl rev new t.addr)
    (here : zsl'.heap new.addr = some (nodeFor rev.reverse new rest))
    (ahead : ∀ left t right, rest = left ++ t :: right →
      zsl'.heap t.addr = some (nodeFor (rev.reverse ++ new :: left) t right)) :
    Drawn zsl' (rev.reverse ++ new :: rest) := by
  refine ⟨?_, ?_, ?_, ?_, ?_, ?_, ?_, ?_, ?_, ?_, ?_, ?_⟩
  · rw [header, level, atHeader]
    exact drawn.linked_header bounded room
  · -- A tower of the new list is in front of the place, the new one, or behind the place.
    intro left t right split
    rcases split_cases split with ⟨more, eq, rest'⟩ | ⟨more, eq, rest'⟩
    · cases more with
      | nil =>
        simp only [nil_append, List.cons.injEq] at rest'
        rw [← rest'.1, ← rest'.2, eq, append_nil]
        exact here
      | cons u more =>
        simp only [cons_append, List.cons.injEq] at rest'
        rw [eq, ← rest'.1]
        exact ahead more t right rest'.2
    · rw [passed t (mem_reverse.mp (by simp [eq])), rest']
      exact drawn.linked_passed room eq
  · rw [header]
    exact drawn.distinct_link fresh
  · rw [header, brk]
    exact drawn.used_link fresh
  · have heights := drawn.positive
    simp only [forall_mem_append, forall_mem_cons] at heights ⊢
    exact ⟨heights.1, positive, heights.2⟩
  · have heights := drawn.bounded.mono (Nat.le_max_left zsl.level new.height)
    simp only [Low, level, forall_mem_append, forall_mem_cons] at heights ⊢
    exact ⟨heights.1, Nat.le_max_right _ _, heights.2⟩
  · rw [level]
    exact Nat.le_trans positive (Nat.le_max_right _ _)
  · rw [level]
    exact Nat.max_le.mpr ⟨drawn.levelBounded, bounded⟩
  · rw [level]
    exact drawn.levelReached_link
  · rw [tail]
    by_cases last : rest = []
    · simp [last, lastAddr]
    · rw [if_neg last, drawn.tail, lastAddr_append _ last,
        lastAddr_append _ (cons_ne_nil _ _), lastAddr_cons _ last]
  · rw [length, drawn.length, wrapAdd_of_lt (by omega)]
    simp only [length_append, length_cons]
    omega
  · simp only [length_append, length_cons] at room ⊢
    omega

end

end Drawn

end LearningNotes.Zset
