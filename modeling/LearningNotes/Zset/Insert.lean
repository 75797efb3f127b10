import LearningNotes.Zset.Link

/-! `zslInsert` as a whole: the search, the loops over the levels, and the new node. -/

namespace LearningNotes.Zset

open Lib Util List

variable {S : Type} {zsl : Zskiplist S} {rev rest : List (Tower S)}

section

variable (drawn : Drawn zsl (rev.reverse ++ rest))
include drawn

theorem Drawn.readable_raised {height : Nat} (bounded : height ≤ zskiplistMaxlevel) :
    Readable (raisedHeap zsl height) (fun i => (crossing zsl.header i rev).1) 0
      (max zsl.level height) (crossedLevel zsl.header rev rest) := by
  intro i above below
  by_cases used : i < zsl.level
  · -- A level in use is not touched by opening others.
    have apart : ∀ i, 0 ≤ i → i < zsl.level → ¬ (zsl.level ≤ i ∧ i < height) :=
      fun i _ inUse inside => by omega
    exact drawn.readable.rewire apart i above used
  -- A new level starts at the header and spans the whole list.
  obtain ⟨node, stored, _, width, _, unused⟩ := drawn.header
  have high : zsl.level ≤ i := by omega
  obtain ⟨level, read⟩ : ∃ level, node.level[i]? = some level :=
    ⟨_, getElem?_eq_getElem (by omega)⟩
  have top := drawn.crossing_above high
  have opened : zsl.level ≤ i ∧ i < height ∧ zsl.header = zsl.header :=
    ⟨high, by omega, rfl⟩
  have low : Low i rest := fun t listed =>
    drawn.bounded.mono high t (mem_append_right _ listed)
  refine ⟨_, by simp only [top]; exact rewire_some stored, ?_⟩
  rw [getElem?_mapIdx, read, Option.map_some, if_pos opened, crossedLevel, top,
    levelFor_of_low low, unused i level high read, drawn.length]
  simp

omit drawn in
theorem crossedLevel_wrapSub {header : Addr} {i : Nat} (room : rev.length < 2 ^ 32)
    (counted : (rev.reverse ++ rest).length < 2 ^ 64) :
    (⟨(crossedLevel header rev rest i).forward,
      wrapSub 64 (crossedLevel header rev rest i).span
        (wrapSub 32 rev.length (crossing header i rev).2)⟩ : Level) = levelFor i rest := by
  have rank := crossing_rank_le header i rev
  have short := levelFor_span_le i rest
  rw [length_append, length_reverse] at counted
  rw [wrapSub_of_le rank room, crossedLevel, wrapSub_of_le (by simp only; omega)
    (by simp only; omega)]
  rw [Nat.add_sub_cancel_left]

theorem Drawn.crossing_zero :
    crossing zsl.header 0 rev = ((lastAddr rev.reverse).getD zsl.header, rev.length) := by
  cases rev with
  | nil => rfl
  | cons t rev =>
    have positive : 0 < t.height := drawn.positive t (by simp)
    rw [crossing, if_pos positive]
    simp [lastAddr]

theorem Drawn.backward :
    (if (crossing zsl.header 0 rev).1 = zsl.header then none
      else some (crossing zsl.header 0 rev).1) = lastAddr rev.reverse := by
  rw [drawn.crossing_zero]
  cases rev with
  | nil => simp [lastAddr]
  | cons t rev =>
    have notHeader : zsl.header ≠ t.addr := drawn.header_ne (by simp)
    simp [lastAddr, notHeader.symm]

end

section Loops

variable {update : List (Addr × Nat)} {height : Nat}

section

variable (drawn : Drawn zsl (rev.reverse ++ rest))
include drawn

theorem Drawn.raised_update (sized : update.length = zsl.level)
    (crossed : ∀ i < zsl.level, update[i]? = some (crossing zsl.header i rev)) {i : Nat}
    (within : i < max zsl.level height) :
    (update ++ List.replicate (max zsl.level height - update.length) (zsl.header, 0))[i]? =
      some (crossing zsl.header i rev) := by
  by_cases used : i < zsl.level
  · rw [getElem?_append_left (by omega), crossed i used]
  · have inside : i - update.length < max zsl.level height - update.length := by omega
    rw [getElem?_append_right (by omega), getElem?_replicate, if_pos inside,
      drawn.crossing_above (by omega)]

theorem Drawn.raiseLevels
    (sized : update.length = zsl.level) (bounded : height ≤ zskiplistMaxlevel) :
    raiseLevels (height - zsl.level) zsl update =
      .ok (zsl.withHeap (raisedHeap zsl height),
        update ++ List.replicate (max zsl.level height - update.length) (zsl.header, 0)) := by
  obtain ⟨node, stored, _, width, _, _⟩ := drawn.header
  have levels := drawn.levelBounded
  have count : height - zsl.level = max zsl.level height - update.length := by omega
  have loop := @raiseLevels_spec S zsl zsl.heap zsl.level (max zsl.level height) node stored
    (by omega) update (by omega) (by omega) (by rw [sized, rewire_empty])
  rw [rewire_max] at loop
  rw [count, loop, raisedHeap]

theorem Drawn.linkLoops {new : Tower S}
    (entries : ∀ i < max zsl.level new.height, update[i]? = some (crossing zsl.header i rev))
    (bounded : new.height ≤ zskiplistMaxlevel) (room : (rev.reverse ++ rest).length + 1 < 2 ^ 32)
    {zsl' : Zskiplist S} (raised : zsl'.heap = raisedHeap zsl new.height) :
    ∃ linked, linkLevels new.addr update rev.length new.height 0 zsl' [] =
        .ok (zsl'.withHeap linked, (List.range new.height).map fun i => levelFor i rest) ∧
      growSpans update (max zsl.level new.height - new.height) new.height (zsl'.withHeap linked) =
        .ok (zsl'.withHeap (linkedHeap zsl rev new)) := by
  have readable := drawn.readable_raised bounded
  have size := room
  rw [length_append, length_reverse] at size
  -- The levels of the new node are changed first, and the others above them.
  have first := @linkLevels_spec S zsl' update (fun i => (crossing zsl.header i rev).1)
    (raisedHeap zsl new.height) (crossedLevel zsl.header rev rest)
    (fun i => (crossing zsl.header i rev).2) new.height new.addr rev.length
    (fun i below => entries i (by omega))
    (fun i above below => readable i above (by omega)) 0 (Nat.zero_le _) []
    (by rw [raised, rewire_empty])
  rw [← range_eq_range'] at first
  have own : ∀ i, (⟨(crossedLevel zsl.header rev rest i).forward,
      wrapSub 64 (crossedLevel zsl.header rev rest i).span
        (wrapSub 32 rev.length (crossing zsl.header i rev).2)⟩ : Level) = levelFor i rest :=
    fun i => crossedLevel_wrapSub (by omega) (by omega)
  simp only [own] at first
  refine ⟨_, first, ?_⟩
  have apart : ∀ i, new.height ≤ i → i < max zsl.level new.height →
      ¬ (0 ≤ i ∧ i < new.height) := fun i above _ inside => by omega
  have above : Readable (raisedHeap zsl new.height) (fun i => (crossing zsl.header i rev).1)
      new.height (max zsl.level new.height) (crossedLevel zsl.header rev rest) :=
    fun i _ below => readable i (Nat.zero_le i) below
  rw [growSpans_spec (fun i below => ⟨_, entries i below⟩) (above.rewire apart) (Nat.le_refl _)
    (Nat.le_max_right _ _) (by rw [rewire_empty]; rfl), Zskiplist.withHeap_withHeap,
    rewire_rewire _ _ (Nat.zero_le _) (Nat.le_max_right _ _), linkedHeap]
  congr 3
  funext i level
  rw [linkChange]
  split <;> rfl

end

end Loops

section Insert

variable {towers : List (Tower S)}

theorem Drawn.linkedHeap_ahead {new : Tower S} (drawn : Drawn zsl (rev.reverse ++ rest))
    {t : Tower S} (ahead : t ∈ rest) : linkedHeap zsl rev new t.addr = zsl.heap t.addr := by
  have notHeader := drawn.header_ne (mem_append_right _ ahead)
  rw [linkedHeap, rewire_other fun i _ _ => drawn.crossing_ne ahead i, raisedHeap,
    rewire_other fun _ _ _ => notHeader]

/-- The memory with the new node, before the one behind it points back. -/
def insertedHeap (zsl : Zskiplist S) (rev rest : List (Tower S)) (new : Tower S) :
    Addr → Option (Node S) :=
  fun a => if a = zsl.brk then some (nodeFor rev.reverse new rest) else linkedHeap zsl rev new a

section

variable {new : Tower S} (drawn : Drawn zsl (rev.reverse ++ rest))
include drawn

theorem Drawn.insertedHeap_old {a : Addr}
    (listed : a ∈ zsl.header :: (rev.reverse ++ rest).map Tower.addr) :
    insertedHeap zsl rev rest new a = linkedHeap zsl rev new a :=
  if_neg (Nat.ne_of_lt (drawn.used a listed))

omit drawn in
theorem mem_addrs_of_ahead {t : Tower S} (ahead : t ∈ rest) :
    t.addr ∈ zsl.header :: (rev.reverse ++ rest).map Tower.addr :=
  mem_cons_of_mem _ (mem_map_of_mem (mem_append_right _ ahead))

theorem Drawn.insertedHeap_ahead (left : List (Tower S)) (t : Tower S) (right : List (Tower S))
    (split : rest = left ++ t :: right) :
    insertedHeap zsl rev rest new t.addr = some (nodeFor (rev.reverse ++ left) t right) := by
  have ahead : t ∈ rest := by simp [split]
  rw [drawn.insertedHeap_old (mem_addrs_of_ahead ahead), drawn.linkedHeap_ahead ahead]
  exact drawn.cells _ _ _ (by rw [split, append_assoc])

theorem Drawn.insertedHeap_ne_none {t : Tower S} (ahead : t ∈ rest) :
    insertedHeap zsl rev rest new t.addr ≠ none := by
  obtain ⟨left, right, split⟩ := append_of_mem ahead
  rw [drawn.insertedHeap_ahead left t right split]
  exact Option.some_ne_none _

/-- Only the node behind the new one has changed since the levels were linked. -/
theorem Drawn.pointBackHeap_passed {node : Option Addr} {a : Addr}
    (passed : a ∈ zsl.header :: rev.reverse.map Tower.addr) :
    pointBackHeap (insertedHeap zsl rev rest new) rest node a = linkedHeap zsl rev new a := by
  rw [pointBackHeap_other fun t ahead => (drawn.apart.2.2 a passed t ahead).symm,
    drawn.insertedHeap_old]
  rw [map_append, ← cons_append]
  exact mem_append_left _ passed

theorem Drawn.inserted (address : new.addr = zsl.brk) (positive : 1 ≤ new.height)
    (bounded : new.height ≤ zskiplistMaxlevel) (room : (rev.reverse ++ rest).length + 1 < 2 ^ 32) :
    Drawn ⟨pointBackHeap (insertedHeap zsl rev rest new) rest (some new.addr), zsl.brk + 1,
        zsl.header, if rest = [] then some new.addr else zsl.tail, wrapAdd 64 zsl.length 1,
        max zsl.level new.height⟩ (rev.reverse ++ new :: rest) := by
  refine drawn.link address positive bounded room rfl rfl rfl rfl rfl ?atHeader ?passed ?here ?ahead
  case atHeader => exact drawn.pointBackHeap_passed mem_cons_self
  case passed =>
    intro t before
    apply drawn.pointBackHeap_passed
    exact mem_cons_of_mem _ (mem_map_of_mem (mem_reverse.mpr before))
  case here =>
    refine (pointBackHeap_other (fun t ahead same => ?_) _).trans (if_pos address)
    exact Nat.ne_of_lt (drawn.used _ (mem_addrs_of_ahead ahead)) (same.trans address)
  case ahead =>
    have ahead := pointBackHeap_ahead (@Drawn.insertedHeap_ahead S zsl rev rest new drawn)
      drawn.apart.2.1 (rev.reverse ++ [new])
    have last : lastAddr (rev.reverse ++ [new]) = some new.addr := by simp [lastAddr]
    rw [last] at ahead
    simpa only [append_assoc, singleton_append] using ahead

end

variable [LinearOrder S]

theorem comesBefore_reads (score : S) (ele : Bytes) :
    Reads (comesBefore score ele) fun t _ => decide (KeyLt t.key (score, ele)) := by
  intro left t right rank
  show (if t.score < score then .ok true
    else if t.score = score then .ok (sdscmp t.ele ele == .lt) else .ok false) =
      (.ok (decide (t.score < score ∨ t.score = score ∧ sdscmp t.ele ele = .lt)) : Except Fault Bool)
  by_cases less : t.score < score
  · simp [less]
  by_cases same : t.score = score
  · have only : (t.score < score ∨ t.score = score ∧ sdscmp t.ele ele = .lt) ↔
        sdscmp t.ele ele = .lt :=
      ⟨fun either => either.elim (absurd · less) And.right, fun lower => .inr ⟨same, lower⟩⟩
    rw [if_neg less, if_pos same, decide_eq_decide.mpr only]
    rfl
  · simp [less, same]

theorem zslInsert_spec (drawn : Drawn zsl towers) (score : S) (ele : Bytes) {level : Nat}
    (positive : 1 ≤ level) (bounded : level ≤ zskiplistMaxlevel)
    (room : towers.length + 1 < 2 ^ 32) :
    ∃ zsl' update rev rest, zslInsert zsl score ele level = .ok (zsl.brk, zsl') ∧
      Found zsl towers (fun t _ => decide (KeyLt t.key (score, ele))) rev rest update ∧
      Drawn zsl' (rev.reverse ++ ⟨zsl.brk, score, ele, level⟩ :: rest) ∧
      zsl'.brk = zsl.brk + 1 ∧ zsl'.header = zsl.header := by
  obtain ⟨update, rev, rest, searched, found⟩ := search_spec drawn (comesBefore_reads score ele)
    (fun n small => Nat.mod_eq_of_lt (show n < 2 ^ 32 by omega))
  have split := found.split
  subst split
  generalize new_eq : (⟨zsl.brk, score, ele, level⟩ : Tower S) = new
  obtain ⟨address, rfl⟩ : new.addr = zsl.brk ∧ new.height = level := by
    rw [← new_eq]
    exact ⟨rfl, rfl⟩
  have entries : ∀ i < max zsl.level new.height, (update ++ List.replicate
      (max zsl.level new.height - update.length) (zsl.header, 0))[i]? =
      some (crossing zsl.header i rev) :=
    fun i within => drawn.raised_update found.sized found.crossed within
  have raised := drawn.raiseLevels found.sized bounded
  generalize update ++ List.replicate (max zsl.level new.height - update.length)
    (zsl.header, 0) = opened at entries raised
  obtain ⟨linked, link, grow⟩ := @Drawn.linkLoops S zsl rev rest opened drawn new entries bounded
    room { zsl.withHeap (raisedHeap zsl new.height) with level := max zsl.level new.height } rfl
  have first : updateAt opened 0 = .ok (crossing zsl.header 0 rev) := by
    rw [updateAt, entries 0 (by omega)]
  have rank : (crossing zsl.header 0 rev).2 = rev.length := by rw [drawn.crossing_zero]
  have bottom : ((List.range new.height).map fun i => levelFor i rest)[0]? =
      some (levelFor 0 rest) := by
    rw [getElem?_map, getElem?_range positive, Option.map_some]
  refine ⟨_, update, rev, rest, ?_, found, drawn.inserted address positive bounded room, rfl, rfl⟩
  -- The code opens the levels, links them, and stores the node where memory was free.
  rw [zslInsert, searched]
  simp only [ok_bind, raised, first, rank]
  simp only [Zskiplist.withHeap, address] at link grow ⊢
  simp only [ok_bind, link, grow, bottom, Option.bind_some, drawn.backward]
  have stored : (fun a => if a = zsl.brk then some (Node.mk (some ele) score (lastAddr rev.reverse)
      ((List.range new.height).map fun i => levelFor i rest)) else linkedHeap zsl rev new a) =
      insertedHeap zsl rev rest new := by
    rw [← new_eq]
    rfl
  simp only [Zskiplist.store, stored]
  rw [pointBack_spec (fun t ahead => drawn.positive t (mem_append_right _ ahead))
    fun t ahead => drawn.insertedHeap_ne_none ahead]
  rfl

end Insert

end LearningNotes.Zset
