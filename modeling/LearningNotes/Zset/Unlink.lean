import LearningNotes.Zset.Insert

/-! `zslDeleteNode` takes one tower out of the drawing and changes nothing else. -/

namespace LearningNotes.Zset

open Lib Util List

variable {S : Type}

/-- What unlinking a tower writes to a crossing level. -/
def unlinkChange (x : Tower S) (later : List (Tower S)) (i : Nat) (level : Level) : Level :=
  if i < x.height then
    ⟨(levelFor i later).forward, wrapAdd 64 level.span (wrapSub 64 (levelFor i later).span 1)⟩
  else { level with span := wrapSub 64 level.span 1 }

theorem wrapAdd_wrapSub_one {a b : Nat} (positive : 1 ≤ a) (small : a + b < 2 ^ 64) :
    wrapAdd 64 a (wrapSub 64 b 1) = a + b - 1 := by
  simp only [wrapAdd, wrapSub]
  omega

/-- The pointers of a level before a node become those without it. -/
theorem unlinkChange_levelFor {between later : List (Tower S)} {x : Tower S} {i : Nat}
    {crosses : Prop} [Decidable crosses] (iff : crosses ↔ Low i between)
    (counted : (between ++ x :: later).length < 2 ^ 64) :
    (if crosses then unlinkChange x later i (levelFor i (between ++ x :: later))
      else levelFor i (between ++ x :: later)) = levelFor i (between ++ later) := by
  have short := levelFor_span_le i later
  rw [length_append, length_cons] at counted
  by_cases here : crosses
  · have low := iff.mp here
    rw [if_pos here, levelFor_append_low low, levelFor_append_low low, unlinkChange]
    by_cases reaches : i < x.height
    · -- The span up to the tower is joined with the span of the tower itself.
      rw [if_pos reaches, levelFor_tall reaches, wrapAdd_wrapSub_one (by simp) (by simp only; omega)]
      simp only [Level.mk.injEq, true_and]
      omega
    · -- The level passed over the tower and becomes one shorter.
      rw [if_neg reaches, levelFor_short reaches, wrapSub_of_le (by simp only; omega)
        (by simp only; omega)]
      rfl
  · have tall : ¬ Low i between := fun low => here (iff.mpr low)
    rw [if_neg here, levelFor_append_of_not_low tall, levelFor_append_of_not_low tall]

variable {i : Nat} {towers later : List (Tower S)} {x : Tower S}

theorem levelFor_forward_none_iff : (levelFor i towers).forward = none ↔ Low i towers := by
  rcases levelFor_cases i towers with ⟨low, ended⟩ | ⟨skipped, t, rest, split, _, tall, points⟩
  · rw [ended]
    exact ⟨fun _ => low, fun _ => rfl⟩
  rw [points]
  constructor
  · intro impossible
    cases impossible
  · intro low
    have short := low t (by simp [split])
    omega

theorem levelFor_forward_first (distinct : ((x :: later).map Tower.addr).Nodup) :
    (levelFor i (x :: later)).forward = some x.addr ↔ i < x.height := by
  constructor
  · intro points
    apply Decidable.of_not_not
    intro short
    rw [levelFor_short short] at points
    -- Otherwise a later tower would have the same address.
    rcases levelFor_cases i later with ⟨_, ended⟩ | ⟨skipped, t, rest, split, _, _, next⟩
    · rw [ended] at points
      cases points
    · rw [next] at points
      simp only [Option.some.injEq] at points
      rw [map_cons, nodup_cons] at distinct
      exact distinct.1 (points ▸ mem_map_of_mem (by simp [split]))
  · intro tall
    rw [levelFor_tall tall]

/-- The levels that cross a place forget the tower behind it. -/
def unlinkedHeap (zsl : Zskiplist S) (rev : List (Tower S)) (x : Tower S)
    (later : List (Tower S)) : Addr → Option (Node S) :=
  rewire zsl.heap (fun i => (crossing zsl.header i rev).1) 0 zsl.level (unlinkChange x later)

section Drawn

variable {zsl : Zskiplist S} {rev later : List (Tower S)} {x : Tower S}

section

variable (drawn : Drawn zsl (rev.reverse ++ x :: later))
include drawn

theorem Drawn.unlinked_header :
    ∃ node, unlinkedHeap zsl rev x later zsl.header = some node ∧ node.ele = none ∧
      node.level.length = zskiplistMaxlevel ∧
      (∀ i < zsl.level, node.level[i]? = some (levelFor i (rev.reverse ++ later))) ∧
      ∀ i level, zsl.level ≤ i → node.level[i]? = some level → level.forward = none := by
  obtain ⟨node, stored, noEle, width, levels, unused⟩ := drawn.header
  refine ⟨_, rewire_some stored, noEle, by simp [width], ?_, ?_⟩
  · intro i within
    have iff := @crossing_header_iff S zsl.header i rev.reverse drawn.apart.1
    rw [reverse_reverse] at iff
    have crossed := @unlinkChange_levelFor S rev.reverse later x i
      (0 ≤ i ∧ i < zsl.level ∧ (crossing zsl.header i rev).1 = zsl.header) _
      ⟨fun here => iff.mp here.2.2, fun low => ⟨Nat.zero_le i, within, iff.mpr low⟩⟩ drawn.counted
    simp only [getElem?_mapIdx, levels i within, Option.map_some]
    rw [crossed]
  · intro i level above read
    have low : ¬ (i < zsl.level) := by omega
    simp only [getElem?_mapIdx, low, false_and, and_false, if_false, Option.map_id'] at read
    exact unused i level above read

theorem Drawn.unlinked_passed
    {left between : List (Tower S)} {t : Tower S} (split : rev.reverse = left ++ t :: between) :
    unlinkedHeap zsl rev x later t.addr = some (nodeFor left t (between ++ later)) := by
  have whole : rev.reverse ++ x :: later = left ++ t :: (between ++ x :: later) := by
    rw [split]
    simp
  have reversed : rev = (left ++ t :: between).reverse := by
    rw [← split, reverse_reverse]
  have distinct := drawn.apart.1
  rw [split] at distinct
  rw [unlinkedHeap, rewire_some (drawn.cells left t _ whole)]
  congr 1
  rw [nodeFor, nodeFor]
  simp only [Node.mk.injEq, true_and]
  apply mapIdx_levels
  intro i tall
  have bound := drawn.bounded t (by rw [whole]; simp)
  have iff := @crossing_eq_iff S zsl.header i left between t distinct tall
  rw [← reversed] at iff
  apply unlinkChange_levelFor
    ⟨fun here => iff.mp here.2.2, fun low => ⟨Nat.zero_le i, by omega, iff.mpr low⟩⟩
  have counted := drawn.counted
  rw [whole, length_append, length_cons] at counted
  omega

theorem Drawn.unlink {zsl' : Zskiplist S}
    (header : zsl'.header = zsl.header) (brk : zsl'.brk = zsl.brk)
    (length : zsl'.length = wrapSub 64 zsl.length 1)
    (tail : zsl'.tail = if later = [] then lastAddr rev.reverse else zsl.tail)
    (levelPositive : 1 ≤ zsl'.level) (lower : zsl'.level ≤ zsl.level)
    (levelReached : zsl'.level = 1 ∨ ¬ Low (zsl'.level - 1) (rev.reverse ++ later))
    (emptied : ∀ i, zsl'.level ≤ i → i < zsl.level → Low i (rev.reverse ++ later))
    (atHeader : zsl'.heap zsl.header = unlinkedHeap zsl rev x later zsl.header)
    (passed : ∀ t ∈ rev, zsl'.heap t.addr = unlinkedHeap zsl rev x later t.addr)
    (ahead : ∀ left t right, later = left ++ t :: right →
      zsl'.heap t.addr = some (nodeFor (rev.reverse ++ left) t right)) :
    Drawn zsl' (rev.reverse ++ later) := by
  have fewer : (rev.reverse ++ later).Sublist (rev.reverse ++ x :: later) :=
    (sublist_cons_self x later).append_left _
  have counted := drawn.counted
  have count : (rev.reverse ++ x :: later).length = (rev.reverse ++ later).length + 1 := by
    simp only [length_append, length_cons]
    omega
  refine ⟨?_, ?_, ?_, ?_, ?_, ?_, levelPositive, ?_, levelReached, ?_, ?_, ?_⟩
  · obtain ⟨node, stored, noEle, width, levels, unused⟩ := drawn.unlinked_header
    rw [header, atHeader]
    refine ⟨node, stored, noEle, width, fun i within => levels i (by omega), ?_⟩
    intro i level above read
    by_cases used : i < zsl.level
    · -- The level was given up because it has become empty.
      rw [levels i used, Option.some.injEq] at read
      rw [← read]
      exact levelFor_forward_none_iff.mpr (emptied i above used)
    · exact unused i level (by omega) read
  · intro left t right split
    rcases split_cases split with ⟨more, eq, rest⟩ | ⟨more, eq, rest⟩
    · rw [eq]
      exact ahead more t right rest
    · rw [passed t (mem_reverse.mp (by simp [eq])), rest]
      exact drawn.unlinked_passed eq
  · rw [header]
    exact drawn.distinct.sublist ((fewer.map _).cons_cons _)
  · intro a listed
    rw [header] at listed
    rw [brk]
    exact drawn.used a (((fewer.map _).cons_cons _).subset listed)
  · exact fun t listed => drawn.positive t (fewer.subset listed)
  · -- Nothing reaches a level that was given up, nor one that was not in use before.
    by_cases same : zsl'.level = zsl.level
    · rw [same]
      exact fun t listed => drawn.bounded t (fewer.subset listed)
    · exact emptied _ (Nat.le_refl _) (by omega)
  · exact Nat.le_trans lower drawn.levelBounded
  · rw [tail]
    by_cases last : later = []
    · simp [last]
    · rw [if_neg last, drawn.tail, lastAddr_append _ last,
        lastAddr_append _ (cons_ne_nil _ _), lastAddr_cons _ last]
  · rw [length, drawn.length, wrapSub_of_le (by omega) counted, count]
    rfl
  · omega

end

end Drawn

/-- The level drops to the highest tower that is left. -/
theorem lowerLevel_spec {header : Node S} {level : Nat}
    (levels : ∀ i < level, header.level[i]? = some (levelFor i towers)) (positive : 1 ≤ level) :
    ∃ lowered, lowerLevel header level = .ok lowered ∧ 1 ≤ lowered ∧ lowered ≤ level ∧
      (lowered = 1 ∨ ¬ Low (lowered - 1) towers) ∧
      ∀ i, lowered ≤ i → i < level → Low i towers := by
  induction level with
  | zero => omega
  | succ level ih =>
    rw [lowerLevel]
    by_cases bottom : level = 0
    · rw [if_pos bottom]
      exact ⟨1, rfl, Nat.le_refl 1, by omega, .inl rfl, fun i above below => by omega⟩
    rw [if_neg bottom, levels level (Nat.lt_succ_self level)]
    by_cases empty : (levelFor level towers).forward = none
    · -- The top level is empty and so given up.
      have low := levelFor_forward_none_iff.mp empty
      obtain ⟨lowered, ran, least, most, reached, emptied⟩ :=
        ih (fun i below => levels i (by omega)) (by omega)
      simp only [empty]
      refine ⟨lowered, ran, least, by omega, reached, ?_⟩
      intro i above below
      by_cases top : i = level
      · exact top ▸ low
      · exact emptied i above (by omega)
    · simp only [empty]
      refine ⟨level + 1, rfl, by omega, Nat.le_refl _, .inr ?_, fun i above below => by omega⟩
      exact fun low => empty (levelFor_forward_none_iff.mpr low)

/-- Unlinking a node leaves the skiplist of the others. -/
theorem zslDeleteNode_spec {zsl : Zskiplist S} {rev : List (Tower S)} {update : List (Addr × Nat)}
    (drawn : Drawn zsl (rev.reverse ++ x :: later))
    (entries : ∀ i < zsl.level, update[i]? = some (crossing zsl.header i rev)) :
    ∃ zsl', zslDeleteNode zsl x.addr update = .ok zsl' ∧ Drawn zsl' (rev.reverse ++ later) ∧
      zsl'.brk = zsl.brk ∧ zsl'.header = zsl.header ∧ zsl'.level ≤ zsl.level := by
  have distinct := drawn.apart
  have here := drawn.cells rev.reverse x later rfl
  -- The node itself keeps the levels with which it was linked.
  have own : ∀ i < x.height, (nodeFor rev.reverse x later).level[i]? = some (levelFor i later) := by
    intro i tall
    simp [nodeFor, tall]
  have points : ∀ i, (crossedLevel zsl.header rev (x :: later) i).forward = some x.addr ↔
      i < x.height := fun i => levelFor_forward_first distinct.2.1
  have loop := @unlinkLevels_spec S zsl update (fun i => (crossing zsl.header i rev).1) zsl.heap
    (crossedLevel zsl.header rev (x :: later)) (fun i => levelFor i later) x.addr zsl.level
    (fun i below => ⟨_, entries i below⟩) drawn.readable
    ⟨_, here, fun i _ forward => own i ((points i).mp forward)⟩ 0 (Nat.zero_le _)
    (by rw [rewire_empty])
  simp only [points, Nat.sub_zero] at loop
  have heap : (rewire zsl.heap (fun i => (crossing zsl.header i rev).1) 0 zsl.level
      fun i level =>
        if i < x.height then
          ⟨(levelFor i later).forward, wrapAdd 64 level.span (wrapSub 64 (levelFor i later).span 1)⟩
        else { level with span := wrapSub 64 level.span 1 }) = unlinkedHeap zsl rev x later := rfl
  rw [heap] at loop
  -- Neither the node nor what is behind it crosses the place.
  have kept : ∀ t ∈ x :: later, unlinkedHeap zsl rev x later t.addr = zsl.heap t.addr :=
    fun t ahead => rewire_other fun i _ _ => drawn.crossing_ne ahead i
  have cells : ∀ left t right, later = left ++ t :: right →
      unlinkedHeap zsl rev x later t.addr = some (nodeFor (rev.reverse ++ [x] ++ left) t right) := by
    intro left t right split
    rw [kept t (by simp [split])]
    exact drawn.cells _ _ _ (by simp [split])
  have present : ∀ t ∈ later, unlinkedHeap zsl rev x later t.addr ≠ none := by
    intro t ahead
    obtain ⟨left, right, split⟩ := append_of_mem ahead
    rw [cells left t right split]
    exact Option.some_ne_none _
  have heights : ∀ t ∈ later, 1 ≤ t.height :=
    fun t ahead => drawn.positive t (by simp [ahead])
  have self : unlinkedHeap zsl rev x later x.addr = some (nodeFor rev.reverse x later) := by
    rw [kept x mem_cons_self, here]
  -- Only the node behind the deleted one is changed after the loop.
  have behind : ∀ a, a ∈ zsl.header :: rev.reverse.map Tower.addr →
      pointBackHeap (unlinkedHeap zsl rev x later) later (lastAddr rev.reverse) a =
        unlinkedHeap zsl rev x later a :=
    fun a before => pointBackHeap_other
      (fun t ahead => (distinct.2.2 a before t (mem_cons_of_mem x ahead)).symm) _
  obtain ⟨node, stored, _, _, levels, _⟩ := drawn.unlinked_header
  obtain ⟨lowered, ran, least, most, reached, emptied⟩ :=
    lowerLevel_spec levels drawn.levelPositive
  have headerRead := behind zsl.header mem_cons_self
  rw [stored] at headerRead
  have back := @pointBack_spec S (zsl.withHeap (unlinkedHeap zsl rev x later)) later heights
    present (lastAddr rev.reverse)
  simp only [zslDeleteNode, loop, ok_bind, Zskiplist.deref, Zskiplist.levelOf,
    Zskiplist.withHeap_heap, self, own 0 (drawn.positive x (by simp))]
  rw [show (nodeFor rev.reverse x later).backward = lastAddr rev.reverse from rfl, back]
  simp only [ok_bind, Zskiplist.withHeap_heap, Zskiplist.withHeap_header,
    Zskiplist.withHeap_level, headerRead, ran]
  refine ⟨_, rfl, ?_, rfl, rfl, most⟩
  apply drawn.unlink
  case header => rfl
  case brk => rfl
  case length => rw [Zskiplist.withHeap_length]
  case tail => rfl
  case levelPositive => exact least
  case lower => exact most
  case levelReached => exact reached
  case emptied => exact emptied
  case atHeader => exact behind _ mem_cons_self
  case passed =>
    intro t before
    apply behind
    exact mem_cons_of_mem _ (mem_map_of_mem (mem_reverse.mpr before))
  case ahead => exact pointBackHeap_ahead cells (nodup_cons.mp distinct.2.1).2 rev.reverse

end LearningNotes.Zset
