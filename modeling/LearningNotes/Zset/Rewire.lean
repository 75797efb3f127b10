import LearningNotes.Zset.Seek

/-! What the loops over `update[]` do to the memory: one level of one node per round. -/

namespace LearningNotes.Zset

open Lib Util List

variable {S : Type}

def Zskiplist.withHeap (zsl : Zskiplist S) (heap : Addr → Option (Node S)) : Zskiplist S :=
  { zsl with heap := heap }

section

variable (zsl : Zskiplist S)
include zsl

section

variable (heap : Addr → Option (Node S))
include heap

@[simp] theorem Zskiplist.withHeap_heap : (zsl.withHeap heap).heap = heap := rfl

@[simp] theorem Zskiplist.withHeap_header : (zsl.withHeap heap).header = zsl.header := rfl

@[simp] theorem Zskiplist.withHeap_length : (zsl.withHeap heap).length = zsl.length := rfl

@[simp] theorem Zskiplist.withHeap_level : (zsl.withHeap heap).level = zsl.level := rfl

end

@[simp] theorem Zskiplist.withHeap_withHeap (heap other : Addr → Option (Node S)) :
    (zsl.withHeap heap).withHeap other = zsl.withHeap other := rfl

end

variable {heap : Addr → Option (Node S)} {rest : List (Tower S)}

theorem Zskiplist.withHeap_self (zsl : Zskiplist S) (same : zsl.heap = heap) :
    zsl.withHeap heap = zsl := by
  rw [← same]
  rfl

/-- The level `i` of the node `target i` was changed, for a range of levels. -/
def rewire (heap : Addr → Option (Node S)) (target : Nat → Addr) (lo hi : Nat)
    (change : Nat → Level → Level) : Addr → Option (Node S) := fun a =>
  (heap a).map fun node =>
    { node with
      level := node.level.mapIdx fun i level =>
        if lo ≤ i ∧ i < hi ∧ target i = a then change i level else level }

/-- Every target has the level that is looked at. -/
def Readable (heap : Addr → Option (Node S)) (target : Nat → Addr) (lo hi : Nat)
    (old : Nat → Level) : Prop :=
  ∀ i, lo ≤ i → i < hi → ∃ node, heap (target i) = some node ∧ node.level[i]? = some (old i)

section Rewire

variable {heap : Addr → Option (Node S)} {target : Nat → Addr} {lo hi : Nat}
  {change : Nat → Level → Level}

variable {a : Addr} {node : Node S} {zsl : Zskiplist S} {level : Level}

/-- Nodes that are not rewired stay as they are. -/
theorem rewire_other (other : ∀ i, lo ≤ i → i < hi → target i ≠ a) :
    rewire heap target lo hi change a = heap a := by
  have never : ∀ i, ¬ (lo ≤ i ∧ i < hi ∧ target i = a) :=
    fun i inside => other i inside.1 inside.2.1 inside.2.2
  have kept : ∀ levels : List Level, levels.mapIdx (fun _ level => level) = levels := by
    intro levels
    apply ext_getElem?
    simp
  simp only [rewire, never, if_false, kept]
  cases heap a <;> rfl

theorem rewire_empty : rewire heap target lo lo change = heap := by
  funext a
  apply rewire_other
  omega

theorem rewire_some (stored : heap a = some node) :
    rewire heap target lo hi change a = some { node with
      level := node.level.mapIdx fun i level =>
        if lo ≤ i ∧ i < hi ∧ target i = a then change i level else level } := by
  rw [rewire, stored]
  rfl

theorem levelOf_rewire (changed : zsl.heap = rewire heap target lo hi change) {i : Nat}
    (stored : heap a = some node) (read : node.level[i]? = some level) (outside : hi ≤ i) :
    zsl.levelOf a i = .ok level := by
  have skipped : ¬ (lo ≤ i ∧ i < hi ∧ target i = a) := fun inside => by omega
  simp only [Zskiplist.levelOf, Zskiplist.deref, changed, rewire_some stored, ok_bind,
    getElem?_mapIdx, read, Option.map_some, if_neg skipped]

theorem setLevel_rewire (changed : zsl.heap = rewire heap target lo hi change)
    (stored : heap (target hi) = some node) (read : node.level[hi]? = some level)
    (ordered : lo ≤ hi) :
    zsl.setLevel (target hi) hi (change hi level) =
      .ok (zsl.withHeap (rewire heap target lo (hi + 1) change)) := by
  have within : hi < node.level.length := (List.getElem?_eq_some_iff.mp read).1
  simp only [Zskiplist.setLevel, Zskiplist.deref, changed, rewire_some stored, ok_bind,
    length_mapIdx, if_pos within, Zskiplist.store]
  congr 2
  funext a
  by_cases here : a = target hi
  · -- The written node has the new level besides the earlier changes.
    subst here
    rw [if_pos rfl, rewire_some stored]
    congr 2
    apply ext_getElem?
    intro i
    rw [getElem?_set, getElem?_mapIdx, length_mapIdx]
    by_cases top : hi = i
    · subst top
      rw [if_pos within, getElem?_mapIdx, read]
      simp [ordered]
    have same : (lo ≤ i ∧ i < hi ∧ target i = target hi) ↔
        (lo ≤ i ∧ i < hi + 1 ∧ target i = target hi) := by
      have same : i < hi ↔ i < hi + 1 := by omega
      rw [same]
    rw [if_neg top, getElem?_mapIdx]
    simp only [same]
  · -- Any other node looks as before, since the new round has another target.
    rw [if_neg here]
    have same : ∀ i, (lo ≤ i ∧ i < hi ∧ target i = a) ↔ (lo ≤ i ∧ i < hi + 1 ∧ target i = a) := by
      intro i
      constructor
      · exact fun inside => ⟨inside.1, by omega, inside.2.2⟩
      · intro inside
        have notTop : i ≠ hi := fun top => here (top ▸ inside.2.2.symm)
        exact ⟨inside.1, by omega, inside.2.2⟩
    simp only [rewire, same]

theorem rewire_max : rewire heap target lo (max lo hi) change = rewire heap target lo hi change := by
  have same : ∀ i, (lo ≤ i ∧ i < max lo hi) ↔ (lo ≤ i ∧ i < hi) := by omega
  funext a
  simp only [rewire, ← and_assoc, same]

end Rewire

/-- The first of the towers ahead was told what is before it. -/
def pointBackHeap (heap : Addr → Option (Node S)) (rest : List (Tower S))
    (backward : Option Addr) : Addr → Option (Node S) :=
  match rest with
  | [] => heap
  | next :: _ => fun a =>
    if a = next.addr then (heap a).map fun node => { node with backward := backward } else heap a

theorem pointBackHeap_other {a : Addr} (other : ∀ t ∈ rest, t.addr ≠ a) (backward : Option Addr) :
    pointBackHeap heap rest backward a = heap a := by
  cases rest with
  | nil => rfl
  | cons next later => exact if_neg fun same => other next mem_cons_self same.symm

theorem pointBackHeap_ahead {before : List (Tower S)}
    (cells : ∀ left t right, rest = left ++ t :: right → heap t.addr = some (nodeFor (before ++
      left) t right)) (distinct : (rest.map Tower.addr).Nodup) (after : List (Tower S)) :
    ∀ left t right, rest = left ++ t :: right →
      pointBackHeap heap rest (lastAddr after) t.addr = some (nodeFor (after ++ left) t right) := by
  intro left t right split
  have stored := cells left t right split
  cases left with
  | nil =>
    -- The first one has got its new backward pointer.
    rw [split]
    simp [pointBackHeap, stored, nodeFor]
  | cons next left =>
    -- The others have another tower ahead right before them, as they had.
    have apart : t.addr ≠ next.addr := by
      intro same
      rw [split, cons_append, map_cons, nodup_cons] at distinct
      exact distinct.1 (same ▸ mem_map_of_mem (by simp))
    have last : lastAddr (before ++ next :: left) = lastAddr (after ++ next :: left) := by
      rw [lastAddr_append _ (cons_ne_nil _ _), lastAddr_append _ (cons_ne_nil _ _)]
    rw [split, cons_append, pointBackHeap]
    simp only [if_neg apart, stored, nodeFor, last]

/-- The node behind the place points back to the new one. -/
theorem pointBack_spec {zsl : Zskiplist S} {rest : List (Tower S)}
    (positive : ∀ t ∈ rest, 1 ≤ t.height) (stored : ∀ t ∈ rest, zsl.heap t.addr ≠ none)
    (backward : Option Addr) :
    pointBack zsl (levelFor 0 rest).forward backward =
      .ok { zsl with
        heap := pointBackHeap zsl.heap rest backward
        tail := if rest = [] then backward else zsl.tail } := by
  cases rest with
  | nil => rfl
  | cons next later =>
    rw [levelFor_tall (positive next mem_cons_self)]
    cases found : zsl.heap next.addr with
    | none => exact absurd found (stored next mem_cons_self)
    | some node =>
      simp only [pointBack, Zskiplist.setBackward, Zskiplist.deref, found, ok_bind, Zskiplist.store]
      congr 2
      funext a
      by_cases here : a = next.addr
      · simp [pointBackHeap, here, found]
      · simp [pointBackHeap, here]

variable {zsl : Zskiplist S} {update : List (Addr × Nat)} {target : Nat → Addr}

theorem growSpans_spec {old : Nat → Level} {lo hi : Nat}
    (entries : ∀ i < hi, ∃ rank, update[i]? = some (target i, rank))
    (readable : Readable heap target lo hi old) {i : Nat} (from_ : lo ≤ i) (upTo : i ≤ hi)
    (changed : zsl.heap = rewire heap target lo i
      fun _ level => { level with span := wrapAdd 64 level.span 1 }) :
    growSpans update (hi - i) i zsl = .ok (zsl.withHeap (rewire heap target lo hi
      fun _ level => { level with span := wrapAdd 64 level.span 1 })) := by
  -- The induction is on the number of levels that are left.
  generalize left : hi - i = count
  induction count generalizing i zsl with
  | zero =>
    have done : i = hi := by omega
    subst done
    rw [growSpans, zsl.withHeap_self changed]
  | succ count ih =>
    obtain ⟨rank, entry⟩ := entries i (by omega)
    obtain ⟨node, stored, read⟩ := readable i from_ (by omega)
    rw [growSpans]
    simp only [updateAt, entry, ok_bind, levelOf_rewire changed stored read (Nat.le_refl i),
      setLevel_rewire changed stored read from_]
    exact ih (by omega) (by omega) rfl (by omega)

/-- The loop over the levels is one rewiring of the nodes before the place. -/
theorem linkLevels_spec {heap : Addr → Option (Node S)} {old : Nat → Level} {ranks : Nat → Nat}
    {hi : Nat} (x : Addr) (rank : Nat)
    (entries : ∀ i < hi, update[i]? = some (target i, ranks i))
    (readable : Readable heap target 0 hi old) {i : Nat} (upTo : i ≤ hi) (levels : List Level)
    (changed : zsl.heap = rewire heap target 0 i
      fun i _ => ⟨some x, wrapAdd 32 (wrapSub 32 rank (ranks i)) 1⟩) :
    linkLevels x update rank (hi - i) i zsl levels = .ok (zsl.withHeap (rewire heap target 0 hi
        fun i _ => ⟨some x, wrapAdd 32 (wrapSub 32 rank (ranks i)) 1⟩),
      levels ++ (List.range' i (hi - i)).map fun i =>
        ⟨(old i).forward, wrapSub 64 (old i).span (wrapSub 32 rank (ranks i))⟩) := by
  generalize left : hi - i = count
  induction count generalizing i zsl levels with
  | zero =>
    have done : i = hi := by omega
    subst done
    simp [linkLevels, zsl.withHeap_self changed]
  | succ count ih =>
    have entry := entries i (by omega)
    obtain ⟨node, stored, read⟩ := readable i (Nat.zero_le i) (by omega)
    have written := setLevel_rewire changed stored read (Nat.zero_le i)
    rw [linkLevels]
    simp only [updateAt, entry, ok_bind, levelOf_rewire changed stored read (Nat.le_refl i), written]
    rw [ih (by omega) _ rfl (by omega), List.range'_succ]
    simp

theorem unlinkLevels_spec {heap : Addr → Option (Node S)} {old own : Nat → Level} {x : Addr}
    {hi : Nat} (entries : ∀ i < hi, ∃ rank, update[i]? = some (target i, rank))
    (readable : Readable heap target 0 hi old)
    (node : ∃ node, heap x = some node ∧
      ∀ i < hi, (old i).forward = some x → node.level[i]? = some (own i))
    {i : Nat} (upTo : i ≤ hi)
    (changed : zsl.heap = rewire heap target 0 i fun i level =>
      if (old i).forward = some x then
        ⟨(own i).forward, wrapAdd 64 level.span (wrapSub 64 (own i).span 1)⟩
      else { level with span := wrapSub 64 level.span 1 }) :
    unlinkLevels x update (hi - i) i zsl = .ok (zsl.withHeap (rewire heap target 0 hi
      fun i level =>
        if (old i).forward = some x then
          ⟨(own i).forward, wrapAdd 64 level.span (wrapSub 64 (own i).span 1)⟩
        else { level with span := wrapSub 64 level.span 1 })) := by
  generalize left : hi - i = count
  induction count generalizing i zsl with
  | zero =>
    have done : i = hi := by omega
    subst done
    rw [unlinkLevels, zsl.withHeap_self changed]
  | succ count ih =>
    obtain ⟨rank, entry⟩ := entries i (by omega)
    obtain ⟨target', stored, read⟩ := readable i (Nat.zero_le i) (by omega)
    obtain ⟨self, selfStored, selfRead⟩ := node
    have written := setLevel_rewire changed stored read (Nat.zero_le i)
    rw [unlinkLevels]
    simp only [updateAt, entry, ok_bind, levelOf_rewire changed stored read (Nat.le_refl i)]
    by_cases points : (old i).forward = some x
    · -- The level points to the node, which has that level as well.
      have ownRead := levelOf_rewire changed selfStored (selfRead i (by omega) points)
        (Nat.le_refl i)
      simp only [points, if_true] at written
      simp only [points, ownRead, ok_bind, written]
      exact ih (by omega) rfl (by omega)
    · -- The level passes over the node.
      simp only [points, if_false] at written
      simp only [points, written]
      exact ih (by omega) rfl (by omega)

end LearningNotes.Zset
