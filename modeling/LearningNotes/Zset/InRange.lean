import LearningNotes.Zset.Rank
import LearningNotes.Zset.SkipRefinement

/-! The first and the last node in a range, and what all lookups find in a skiplist. -/

namespace LearningNotes.Zset

open Lib Util List

variable {S : Type} {zsl : Zskiplist S} {towers : List (Tower S)}

/-- The tests of a range read two bounds off the towers. -/
structure RangeTests.ReadOff (tests : RangeTests S) (towers : List (Tower S))
    (low high : Tower S → Bool) : Prop where
  gteMin : ∀ left t right, tests.gteMin (nodeFor left t right) = .ok (low t)
  lteMax : ∀ left t right, tests.lteMax (nodeFor left t right) = .ok (high t)
  bounds : Bounds low high towers
  empty : tests.empty = true → ∀ t ∈ towers, (low t && high t) = false

namespace RangeTests.ReadOff

variable {tests : RangeTests S} {low high : Tower S → Bool}

section

variable (reads : tests.ReadOff towers low high)
include reads

theorem isIn_spec (drawn : Drawn zsl towers) :
    (tests.isIn zsl = .ok false ∧ ∀ t ∈ towers, (low t && high t) = false) ∨
      tests.isIn zsl = .ok true ∧ (∃ t ∈ towers, low t = true) ∧ ∃ t ∈ towers, high t = true := by
  have bottom := drawn.levelOf_header drawn.levelPositive
  have atEnd := drawn.tail
  rw [isIn]
  by_cases empty : tests.empty = true
  · exact .inl ⟨by rw [if_pos empty]; rfl, reads.empty empty⟩
  rw [if_neg empty, atEnd]
  rcases nil_or_ends towers with none_ | ⟨first, rest, others, last, shape, shape'⟩
  · subst none_
    exact .inl ⟨rfl, by simp⟩
  have next : (levelFor 0 towers).forward = some first.addr := by
    rw [levelFor_zero drawn.positive, shape]
    rfl
  have ends : lastAddr towers = some last.addr := by simp [shape', lastAddr]
  rw [ends]
  simp only [drawn.deref shape', ok_bind, reads.gteMin, bottom, next,
    @Drawn.deref S zsl towers drawn [] rest first shape, reads.lteMax]
  cases above : low last with
  | false => exact .inl ⟨rfl, reads.bounds.outside.1 others last shape' above⟩
  | true =>
    cases below : high first with
    | false => exact .inl ⟨rfl, reads.bounds.outside.2 first rest shape below⟩
    | true => exact .inr ⟨rfl, ⟨last, by simp [shape'], above⟩, first, by simp [shape], below⟩

theorem first_spec (drawn : Drawn zsl towers) :
    tests.first zsl = .ok ((towers.filter fun t => low t && high t).head?.map Tower.addr) := by
  rw [first]
  rcases reads.isIn_spec drawn with ⟨outside, none_⟩ | ⟨inside, ⟨t, listed, above⟩, _⟩
  · rw [outside, (filter_none none_).1]
    rfl
  -- The search ends right before the nodes that are above the minimum.
  obtain ⟨update, rev, rest, searched, found⟩ := @search_spec S zsl towers (fun t _ => !low t)
    (fun next _ => do return !(← tests.gteMin next)) id drawn
    (fun left t right _ => by simp only [reads.gteMin]; rfl) (fun _ _ => rfl)
  obtain ⟨_, back⟩ := @Found.cut S zsl towers rev rest update _ (fun t => !low t) found
    (fun _ _ => rfl) reads.bounds.below
  simp only [Bool.not_not] at back
  have split := found.split
  have both : (towers.filter fun t => low t && high t) = rest.filter high := by
    rw [back, filter_filter]
    simp only [Bool.and_comm]
  have down := reads.bounds.down
  rw [split, pairwise_append] at down
  simp only [inside, ok_bind, searched, (split ▸ drawn).nextOf found.crossed, both]
  cases rest with
  | nil =>
    have some_ : t ∈ towers.filter low := mem_filter.mpr ⟨listed, above⟩
    rw [← back] at some_
    cases some_
  | cons first later =>
    simp only [head?_cons, Option.map_some, drawn.deref split, ok_bind, reads.lteMax]
    cases below : high first with
    | true =>
      rw [filter_cons_of_pos below]
      rfl
    | false =>
      obtain ⟨none_, _⟩ := @cut_eq_filter _ high [] (first :: later) down.2.1 (by simp)
        (by simpa using below)
      rw [nil_append] at none_
      rw [← none_]
      rfl

theorem last_spec (drawn : Drawn zsl towers) :
    tests.last zsl = .ok ((towers.filter fun t => low t && high t).getLast?.map Tower.addr) := by
  rw [last]
  rcases reads.isIn_spec drawn with ⟨outside, none_⟩ | ⟨inside, _, t, listed, below⟩
  · rw [outside, (filter_none none_).1]
    rfl
  -- The search ends at the last node that is below the maximum.
  obtain ⟨update, rev, rest, searched, found⟩ := @search_spec S zsl towers (fun t _ => high t)
    (fun next _ => tests.lteMax next) id drawn (fun left t right _ => reads.lteMax left t right)
    (fun _ _ => rfl)
  obtain ⟨front, _⟩ := found.cut (fun _ _ => rfl) reads.bounds.down
  have split := found.split
  have both : (towers.filter fun t => low t && high t) = rev.reverse.filter low := by
    rw [front, filter_filter]
  have top : updateAt update 0 = .ok (crossing zsl.header 0 rev) := by
    rw [updateAt, found.crossed 0 drawn.levelPositive]
  have up := reads.bounds.below
  rw [split, pairwise_append] at up
  simp only [inside, ok_bind, searched, top, (split ▸ drawn).crossing_zero, both]
  cases rev with
  | nil =>
    have some_ : t ∈ towers.filter high := mem_filter.mpr ⟨listed, below⟩
    rw [← front] at some_
    cases some_
  | cons last others =>
    rw [reverse_cons] at up split ⊢
    rw [append_assoc, singleton_append] at split
    simp only [lastAddr, getLast?_concat, Option.map_some, Option.getD_some,
      drawn.deref split, ok_bind, reads.gteMin]
    cases above : low last with
    | true =>
      rw [filter_append, filter_cons_of_pos above, filter_nil, getLast?_concat]
      rfl
    | false =>
      obtain ⟨_, none_⟩ := @cut_eq_filter _ (fun t => !low t) (others.reverse ++ [last]) []
        (by simpa using up.1) (by simpa using above) (by simp)
      simp only [Bool.not_not, append_nil] at none_
      rw [← none_]
      rfl

end

end RangeTests.ReadOff

variable [LinearOrder S]

theorem InOrder.scoreTests (ordered : InOrder towers) (range : RangeSpec S) :
    range.tests.ReadOff towers (fun t => zslValueGteMin t.score range)
      (fun t => zslValueLteMax t.score range) where
  gteMin := fun _ _ _ => rfl
  lteMax := fun _ _ _ => rfl
  bounds := ordered.scoreBounds range
  empty := fun empty t _ => empty_range (of_decide_eq_true empty) t.score

theorem InOrder.lexTests (ordered : InOrder towers) (oneScore : OneScore towers)
    (range : LexRangeSpec) :
    range.tests.ReadOff towers (fun t => zslLexValueGteMin t.ele range)
      (fun t => zslLexValueLteMax t.ele range) where
  gteMin := fun _ _ _ => rfl
  lteMax := fun _ _ _ => rfl
  bounds := ordered.lexBounds oneScore range
  empty := fun empty t _ => empty_lexRange (of_decide_eq_true empty) t.ele

/-- What the lookups find: ranks, elements at ranks, and the ends of ranges. -/
theorem zslLookups {set : SortedSet S} (drawn : Drawn zsl towers)
    (keys : towers.map Tower.key = set.members) :
    (∀ before t later, towers = before ++ t :: later →
      zslGetRank zsl t.score t.ele = .ok (before.length + 1) ∧
        zslGetElementByRank zsl (before.length + 1) = .ok (some t.addr)) ∧
    (∀ rank, towers.length < rank → zslGetElementByRank zsl rank = .ok none) ∧
    (∀ score ele, (score, ele) ∉ set.members →
      (zslGetRank zsl score ele = .ok 0 ↔ ¬ Shadowed towers (score, ele))) ∧
    (∀ range : RangeSpec S,
      let inRange := towers.filter fun t => range.contains t.key
      zslFirstInRange zsl range = .ok (inRange.head?.map Tower.addr) ∧
        zslLastInRange zsl range = .ok (inRange.getLast?.map Tower.addr)) ∧
    (OneScore towers → ∀ range : LexRangeSpec,
      let inRange := towers.filter fun t => range.contains t.key
      zslFirstInLexRange zsl range = .ok (inRange.head?.map Tower.addr) ∧
        zslLastInLexRange zsl range = .ok (inRange.getLast?.map Tower.addr)) := by
  have ordered : InOrder towers := by
    rw [InOrder, keys]
    exact set.sorted
  have unique : (towers.map Tower.ele).Nodup := by
    have elements : towers.map Tower.ele = set.members.map Prod.snd := by
      rw [← keys, map_map]
      rfl
    rw [elements]
    exact set.unique
  refine ⟨?_, ?_, ?_, ?_, ?_⟩
  · intro before t later place
    refine ⟨zslGetRank_spec drawn ordered unique place, ?_⟩
    rw [zslGetElementByRank_spec drawn, place]
    simp
  · intro rank beyond
    rw [zslGetElementByRank_spec drawn, getElem?_eq_none]
    simpa using Nat.succ_le_of_lt beyond
  · intro score ele absent
    refine zslGetRank_absent drawn ordered fun t listed same => absent ?_
    rw [← keys, ← same]
    exact mem_map_of_mem listed
  · intro range
    have reads := ordered.scoreTests range
    exact ⟨reads.first_spec drawn, reads.last_spec drawn⟩
  · intro oneScore range
    have reads := ordered.lexTests oneScore range
    exact ⟨reads.first_spec drawn, reads.last_spec drawn⟩

/-- The lookups in a skiplist with towers of three heights, for pairs that are there and not. -/
theorem zslLookups_three : ∃ one two zsl : Zskiplist Int,
    zslInsert zslCreate 1 [98] 3 = .ok (1, one) ∧ zslInsert one 1 [99] 1 = .ok (2, two) ∧
    zslInsert two 1 [97] 2 = .ok (3, zsl) ∧
    zslGetRank zsl 1 [99] = .ok 3 ∧ zslGetElementByRank zsl 3 = .ok (some 2) ∧
    zslGetElementByRank zsl 4 = .ok none ∧ zslGetRank zsl 1 [98, 98] = .ok 0 ∧
    zslFirstInRange zsl ⟨0, 1, true, false⟩ = .ok (some 3) ∧
    zslLastInRange zsl ⟨1, 9, true, false⟩ = .ok none ∧
    zslFirstInLexRange zsl ⟨.sds [97], .maxstring, true, false⟩ = .ok (some 1) ∧
    zslLastInLexRange zsl ⟨.minstring, .sds [99], false, true⟩ = .ok (some 1) := by
  obtain ⟨one, first, drawn, brk, _⟩ := @zslInsert_placed Int zslCreate [] _ zslCreate_drawn
    .nil 1 [98] 3 (by decide) (by decide) (by decide)
  have brk : one.brk = 2 := brk
  obtain ⟨two, second, drawn, brk', _⟩ := @zslInsert_placed Int one _ _ drawn
    (by simp [InOrder, placed]) 1 [99] 1 (by decide) (by decide) (by decide)
  rw [brk] at second drawn brk'
  obtain ⟨zsl, third, drawn, _⟩ := @zslInsert_placed Int two _ _ drawn
    (by unfold InOrder; decide) 1 [97] 2 (by decide) (by decide) (by decide)
  rw [brk'] at third drawn
  -- The towers stand in the order of their elements.
  have drawn : Drawn zsl [⟨3, 1, [97], 2⟩, ⟨1, 1, [98], 3⟩, ⟨2, 1, [99], 1⟩] := drawn
  obtain ⟨ranks, beyond, absent, ranges, lexRanges⟩ := @zslLookups Int zsl _ _
    ⟨[(1, [97]), (1, [98]), (1, [99])], by decide, by decide⟩ drawn rfl
  obtain ⟨rank, element⟩ := ranks [_, _] _ [] rfl
  refine ⟨one, two, zsl, first, second, third, rank, element, beyond 4 (by decide), ?_,
    (ranges ⟨0, 1, true, false⟩).1, (ranges ⟨1, 9, true, false⟩).2,
    (lexRanges (by simp [OneScore]) ⟨.sds [97], .maxstring, true, false⟩).1,
    (lexRanges (by simp [OneScore]) ⟨.minstring, .sds [99], false, true⟩).2⟩
  refine (absent 1 [98, 98] (by decide)).mpr ?_
  rintro ⟨before, t, later, whole, named, _⟩
  have listed : t ∈ [⟨3, 1, [97], 2⟩, ⟨1, 1, [98], 3⟩, (⟨2, 1, [99], 1⟩ : Tower Int)] := by
    simp [whole]
  simp at listed
  rcases listed with rfl | rfl | rfl <;> cases named

/-- An element that is in the list with a lower score is found, although the pair is not there. -/
theorem zslGetRank_of_absent :
    (zslInsert (zslCreate : Zskiplist Int) 1 [97] 1).bind (fun (_, zsl) =>
      (zslGetRank zsl 2 [97]).map fun rank => (content zsl, rank)) = .ok ([(1, [97])], 1) := by
  decide +kernel

end LearningNotes.Zset
