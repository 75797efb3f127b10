import LearningNotes.Lib.Outcome
import LearningNotes.Zset.Skiplist
import Mathlib.Data.List.Basic

/-! A skiplist drawn as a list of towers, and the memory that such a drawing stands for. -/

namespace LearningNotes.Zset

open Lib Util List

variable {S : Type}

/-- A node without its pointers: where it is, what it holds, how high it is. -/
structure Tower (S : Type) where
  addr : Addr
  score : S
  ele : Bytes
  height : Nat

def Tower.key (t : Tower S) : S × Bytes := (t.score, t.ele)

/-- The first higher tower, and how far that or the end is. -/
def levelFor (i : Nat) : List (Tower S) → Level
  | [] => ⟨none, 0⟩
  | t :: rest =>
    if i < t.height then ⟨some t.addr, 1⟩
    else ⟨(levelFor i rest).forward, (levelFor i rest).span + 1⟩

def lastAddr (towers : List (Tower S)) : Option Addr := (towers.getLast?).map Tower.addr

variable {right towers : List (Tower S)} {i : Nat}

theorem lastAddr_append (left : List (Tower S)) (more : right ≠ []) :
    lastAddr (left ++ right) = lastAddr right := by
  rw [lastAddr, lastAddr, getLast?_append_of_ne_nil _ more]

theorem lastAddr_cons (t : Tower S) {later : List (Tower S)} (more : later ≠ []) :
    lastAddr (t :: later) = lastAddr later := lastAddr_append [t] more

/-- The memory of a tower between others. -/
def nodeFor (left : List (Tower S)) (t : Tower S) (right : List (Tower S)) : Node S :=
  ⟨some t.ele, t.score, lastAddr left, (List.range t.height).map fun i => levelFor i right⟩

/-- The node from which a level passes the end of a reversed list. -/
def crossing (header : Addr) (i : Nat) : List (Tower S) → Addr × Nat
  | [] => (header, 0)
  | t :: rev => if i < t.height then (t.addr, rev.length + 1) else crossing header i rev

/-- No tower of the list reaches above the level. -/
def Low (i : Nat) (towers : List (Tower S)) : Prop := ∀ t ∈ towers, t.height ≤ i

instance (i : Nat) (towers : List (Tower S)) : Decidable (Low i towers) :=
  inferInstanceAs (Decidable (∀ t ∈ towers, t.height ≤ i))

theorem Low.nil : Low i ([] : List (Tower S)) :=
  forall_mem_nil _

theorem Low.cons {t : Tower S} (short : ¬ i < t.height) (low : Low i towers) :
    Low i (t :: towers) :=
  forall_mem_cons.mpr ⟨Nat.not_lt.mp short, low⟩

theorem Low.append {left : List (Tower S)} (low : Low i left) (low' : Low i right) :
    Low i (left ++ right) :=
  forall_mem_append.mpr ⟨low, low'⟩

@[simp] theorem low_reverse : Low i towers.reverse ↔ Low i towers := by
  simp [Low]

theorem Low.mono {k : Nat} {list : List (Tower S)} (low : Low i list) (less : i ≤ k) :
    Low k list :=
  fun t listed => Nat.le_trans (low t listed) less

section Levels

variable {i : Nat} {t : Tower S} {towers : List (Tower S)}

theorem levelFor_tall (tall : i < t.height) (rest : List (Tower S)) :
    levelFor i (t :: rest) = ⟨some t.addr, 1⟩ := if_pos tall

theorem levelFor_short (short : ¬ i < t.height) (rest : List (Tower S)) :
    levelFor i (t :: rest) = ⟨(levelFor i rest).forward, (levelFor i rest).span + 1⟩ :=
  if_neg short

/-- Low towers are passed over, and counted by the span. -/
theorem levelFor_append_low (low : Low i towers) (rest : List (Tower S)) :
    levelFor i (towers ++ rest) =
      ⟨(levelFor i rest).forward, towers.length + (levelFor i rest).span⟩ := by
  induction towers with
  | nil => simp
  | cons t towers ih =>
    have short : ¬ i < t.height := Nat.not_lt.mpr (low t mem_cons_self)
    rw [cons_append, levelFor_short short,
      ih fun other listed => low other (mem_cons_of_mem _ listed), length_cons]
    simp only [Level.mk.injEq, true_and]
    omega

theorem levelFor_append_of_not_low (tall : ¬ Low i towers) (rest : List (Tower S)) :
    levelFor i (towers ++ rest) = levelFor i towers := by
  induction towers with
  | nil => exact absurd Low.nil tall
  | cons t towers ih =>
    by_cases reaches : i < t.height
    · rw [cons_append, levelFor_tall reaches, levelFor_tall reaches]
    · rw [cons_append, levelFor_short reaches, levelFor_short reaches,
        ih fun low => tall (low.cons reaches)]

/-- A pointer leads to the first tower that is high enough, or to none. -/
theorem levelFor_cases (i : Nat) (towers : List (Tower S)) :
    (Low i towers ∧ levelFor i towers = ⟨none, towers.length⟩) ∨
      ∃ skipped t rest, towers = skipped ++ t :: rest ∧ Low i skipped ∧ i < t.height ∧
        levelFor i towers = ⟨some t.addr, skipped.length + 1⟩ := by
  induction towers with
  | nil => exact .inl ⟨.nil, rfl⟩
  | cons t towers ih =>
    by_cases reaches : i < t.height
    · exact .inr ⟨[], t, towers, rfl, .nil, reaches, levelFor_tall reaches _⟩
    -- The tower is passed over, and the rest of the list decides.
    rw [levelFor_short reaches]
    rcases ih with ⟨low, ended⟩ | ⟨skipped, found, rest, split, low, tall, points⟩
    · exact .inl ⟨low.cons reaches, by rw [ended, length_cons]⟩
    · refine .inr ⟨t :: skipped, found, rest, by rw [split]; rfl, low.cons reaches, tall, ?_⟩
      rw [points, length_cons]

theorem levelFor_of_low (low : Low i towers) : levelFor i towers = ⟨none, towers.length⟩ := by
  have all := levelFor_append_low low []
  rwa [append_nil] at all

theorem levelFor_zero (positive : ∀ t ∈ towers, 1 ≤ t.height) :
    (levelFor 0 towers).forward = towers.head?.map Tower.addr := by
  cases towers with
  | nil => rfl
  | cons t later =>
    rw [levelFor_tall (positive t mem_cons_self)]
    rfl

theorem levelFor_span_le (i : Nat) (towers : List (Tower S)) :
    (levelFor i towers).span ≤ towers.length := by
  rcases levelFor_cases i towers with ⟨_, ended⟩ | ⟨skipped, t, rest, split, _, _, points⟩
  · simp only [ended, Nat.le_refl]
  · rw [points, split, length_append, length_cons]
    simp only
    omega

theorem crossing_append_low {rev : List (Tower S)} (low : Low i towers) (header : Addr) :
    crossing header i (towers ++ rev) = crossing header i rev := by
  induction towers with
  | nil => rfl
  | cons t towers ih =>
    have short : ¬ i < t.height := Nat.not_lt.mpr (low t mem_cons_self)
    rw [cons_append, crossing, if_neg short]
    exact ih fun other listed => low other (mem_cons_of_mem _ listed)

theorem crossing_of_low (low : Low i towers) (header : Addr) :
    crossing header i towers = (header, 0) := by
  have all := @crossing_append_low S i towers [] low header
  rwa [append_nil] at all

/-- The last node of a level is the last tower that is high enough, or the header. -/
theorem crossing_cases (header : Addr) (i : Nat) (rev : List (Tower S)) :
    (Low i rev ∧ crossing header i rev = (header, 0)) ∨
      ∃ lower t others, rev = lower ++ t :: others ∧ Low i lower ∧ i < t.height ∧
        crossing header i rev = (t.addr, others.length + 1) := by
  induction rev with
  | nil => exact .inl ⟨.nil, rfl⟩
  | cons t rev ih =>
    by_cases reaches : i < t.height
    · exact .inr ⟨[], t, rev, rfl, .nil, reaches, by rw [crossing, if_pos reaches]⟩
    · rw [crossing, if_neg reaches]
      rcases ih with ⟨low, top⟩ | ⟨lower, found, others, split, low, tall, top⟩
      · exact .inl ⟨low.cons reaches, top⟩
      · exact .inr ⟨t :: lower, found, others, by rw [split]; rfl, low.cons reaches, tall, top⟩

theorem crossing_mem (header : Addr) (i : Nat) (rev : List (Tower S)) :
    (crossing header i rev).1 ∈ header :: rev.map Tower.addr := by
  induction rev with
  | nil => simp [crossing]
  | cons t rev ih =>
    rw [crossing]
    split
    · simp
    · rcases mem_cons.mp ih with same | listed
      · rw [same]
        exact mem_cons_self
      · exact mem_cons_of_mem _ (mem_cons_of_mem _ listed)

theorem crossing_rank_le (header : Addr) (i : Nat) (rev : List (Tower S)) :
    (crossing header i rev).2 ≤ rev.length := by
  induction rev with
  | nil => simp [crossing]
  | cons t rev ih =>
    rw [crossing, length_cons]
    split
    · exact Nat.le_refl _
    · omega

end Levels

/-- Every pointer, span and counter is that of the drawing. -/
structure Drawn (zsl : Zskiplist S) (towers : List (Tower S)) : Prop where
  header : ∃ node, zsl.heap zsl.header = some node ∧ node.ele = none ∧
    node.level.length = zskiplistMaxlevel ∧
    (∀ i < zsl.level, node.level[i]? = some (levelFor i towers)) ∧
    ∀ i level, zsl.level ≤ i → node.level[i]? = some level → level.forward = none
  cells : ∀ left t right, towers = left ++ t :: right →
    zsl.heap t.addr = some (nodeFor left t right)
  distinct : (zsl.header :: towers.map Tower.addr).Nodup
  used : ∀ a ∈ zsl.header :: towers.map Tower.addr, a < zsl.brk
  positive : ∀ t ∈ towers, 1 ≤ t.height
  bounded : Low zsl.level towers
  levelPositive : 1 ≤ zsl.level
  levelBounded : zsl.level ≤ zskiplistMaxlevel
  levelReached : zsl.level = 1 ∨ ¬ Low (zsl.level - 1) towers
  tail : zsl.tail = lastAddr towers
  length : zsl.length = towers.length
  -- The counter of the source is an `unsigned long`.
  counted : towers.length < 2 ^ 64

section Drawn

variable {zsl : Zskiplist S} {towers : List (Tower S)}

theorem Drawn.levelOf_header (drawn : Drawn zsl towers) {i : Nat} (within : i < zsl.level) :
    zsl.levelOf zsl.header i = .ok (levelFor i towers) := by
  obtain ⟨node, stored, _, _, levels, _⟩ := drawn.header
  simp only [Zskiplist.levelOf, Zskiplist.deref, stored, ok_bind, levels i within]

theorem Drawn.deref (drawn : Drawn zsl towers) {left right : List (Tower S)} {t : Tower S}
    (split : towers = left ++ t :: right) : zsl.deref t.addr = .ok (nodeFor left t right) := by
  simp only [Zskiplist.deref, drawn.cells left t right split]

theorem Drawn.header_ne (drawn : Drawn zsl towers) {t : Tower S} (listed : t ∈ towers) :
    zsl.header ≠ t.addr := by
  intro same
  exact (nodup_cons.mp drawn.distinct).1 (same ▸ mem_map_of_mem listed)

theorem Drawn.apart {left right : List (Tower S)} (drawn : Drawn zsl (left ++ right)) :
    (zsl.header :: left.map Tower.addr).Nodup ∧ (right.map Tower.addr).Nodup ∧
      ∀ a ∈ zsl.header :: left.map Tower.addr, ∀ t ∈ right, a ≠ t.addr := by
  have distinct := drawn.distinct
  rw [map_append, ← cons_append, nodup_append] at distinct
  exact ⟨distinct.1, distinct.2.1,
    fun a before t ahead => distinct.2.2 a before _ (mem_map_of_mem ahead)⟩

theorem Drawn.levelOf (drawn : Drawn zsl towers) {left right : List (Tower S)} {t : Tower S}
    (split : towers = left ++ t :: right) {i : Nat} (within : i < t.height) :
    zsl.levelOf t.addr i = .ok (levelFor i right) := by
  have stored : (nodeFor left t right).level[i]? = some (levelFor i right) := by
    simp [nodeFor, within]
  simp only [Zskiplist.levelOf, drawn.deref split, ok_bind, stored]

end Drawn

/-- The empty skiplist draws no towers. -/
theorem zslCreate_drawn [Zero S] : Drawn (zslCreate : Zskiplist S) [] where
  header := by
    refine ⟨⟨none, 0, none, List.replicate zskiplistMaxlevel ⟨none, 0⟩⟩, by simp [zslCreate], rfl,
      by simp, ?_, ?_⟩
    · intro i within
      have small : i < zskiplistMaxlevel := Nat.lt_of_lt_of_le within (show 1 ≤ 32 by decide)
      simp [small, levelFor]
    intro i level _ stored
    rw [getElem?_replicate] at stored
    split at stored
    · cases stored
      rfl
    · cases stored
  cells := fun left t right split => by simp at split
  distinct := by simp
  used := by simp [zslCreate]
  positive := by simp
  bounded := .nil
  levelPositive := Nat.le_refl 1
  levelBounded := show 1 ≤ 32 by decide
  levelReached := .inl rfl
  tail := rfl
  length := rfl
  counted := by simp

end LearningNotes.Zset
