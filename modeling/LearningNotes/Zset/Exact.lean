import LearningNotes.Zset.Towers

/-! What makes a skiplist exact, read off its pointers, and that every drawn skiplist is so. -/

namespace LearningNotes.Zset

open Lib Util List

variable {S : Type}

/-- What level 0 lists from a pointer on. -/
def contentFrom (zsl : Zskiplist S) : Nat → Option Addr → List (S × Bytes)
  | fuel + 1, some x =>
    match zsl.heap x with
    | some ⟨some ele, score, _, level :: _⟩ => (score, ele) :: contentFrom zsl fuel level.forward
    | _ => []
  | _, _ => []

def content (zsl : Zskiplist S) : List (S × Bytes) :=
  match zsl.heap zsl.header with
  | some ⟨_, _, _, level :: _⟩ => contentFrom zsl zsl.length level.forward
  | _ => []

/-- The nodes that a level leads through from a node on. -/
inductive Leads (zsl : Zskiplist S) (i : Nat) : Addr → List Addr → Prop
  | last {x : Addr} {level : Level} (read : zsl.levelOf x i = .ok level)
      (ends : level.forward = none) : Leads zsl i x []
  | next {x y : Addr} {level : Level} {later : List Addr} (read : zsl.levelOf x i = .ok level)
      (points : level.forward = some y) (rest : Leads zsl i y later) : Leads zsl i x (y :: later)

def keyAt (zsl : Zskiplist S) (x : Addr) : Option (S × Bytes) :=
  (zsl.heap x).bind fun node => node.ele.map fun ele => (node.score, ele)

/-- The span of a level reaches its target, or the end. -/
def SpanExact (level : Level) (ahead : List Addr) : Prop :=
  match level.forward with
  | none => level.span = ahead.length
  | some y => ∃ between later, ahead = between ++ y :: later ∧ level.span = between.length + 1

/-- The chains of all levels are those of a skiplist. -/
structure Exact (zsl : Zskiplist S) (members : List (S × Bytes)) (chain : Nat → List Addr) :
    Prop where
  leads : ∀ i < zskiplistMaxlevel, Leads zsl i zsl.header (chain i)
  content : (chain 0).map (keyAt zsl) = members.map some
  sublist : ∀ i, i + 1 < zskiplistMaxlevel → (chain (i + 1)).Sublist (chain i)
  spans : ∀ i < zsl.level, ∀ before x ahead level, zsl.header :: chain 0 = before ++ x :: ahead →
    zsl.levelOf x i = .ok level → SpanExact level ahead
  backward : ∀ before x ahead, chain 0 = before ++ x :: ahead →
    ∃ node, zsl.deref x = .ok node ∧ node.backward = before.getLast?
  tail : zsl.tail = (chain 0).getLast?
  length : zsl.length = (chain 0).length
  levelInUse : 1 ≤ zsl.level ∧ zsl.level ≤ zskiplistMaxlevel ∧
    (zsl.level = 1 ∨ chain (zsl.level - 1) ≠ [])
  levelUnused : ∀ i, zsl.level ≤ i → i < zskiplistMaxlevel → chain i = []

section Drawn

variable {zsl : Zskiplist S} {towers : List (Tower S)}

/-- The nodes of a level in the drawing. -/
def chainOf (towers : List (Tower S)) (i : Nat) : List Addr :=
  (towers.filter fun t => decide (i < t.height)).map Tower.addr

theorem chainOf_low {i : Nat} {skipped : List (Tower S)} (low : Low i skipped)
    (rest : List (Tower S)) : chainOf (skipped ++ rest) i = chainOf rest i := by
  rw [chainOf, chainOf, filter_append, filter_eq_nil_iff.mpr, nil_append]
  intro t listed
  have short := low t listed
  simpa using short

theorem chainOf_eq_nil {i : Nat} (low : Low i towers) : chainOf towers i = [] := by
  have all := chainOf_low low []
  rwa [append_nil] at all

section

variable (drawn : Drawn zsl towers)
include drawn

theorem Drawn.leads {i : Nat} {before rest : List (Tower S)} {x : Addr}
    (split : towers = before ++ rest) (read : zsl.levelOf x i = .ok (levelFor i rest)) :
    Leads zsl i x (chainOf rest i) := by
  -- The induction is on the length of what is ahead, since a level skips lower towers.
  generalize size : rest.length = n
  induction n using Nat.strongRecOn generalizing before rest x with
  | ind n ih =>
    rcases levelFor_cases i rest with ⟨low, ended⟩ | ⟨skipped, t, later, ahead, low, tall, points⟩
    · rw [chainOf_eq_nil low]
      exact .last read (by rw [ended])
    have chain : chainOf rest i = t.addr :: chainOf later i := by
      rw [ahead, chainOf_low low, chainOf, filter_cons_of_pos (by simpa using tall)]
      rfl
    have whole : towers = (before ++ skipped) ++ t :: later := by
      rw [split, ahead, append_assoc]
    rw [chain]
    have shorter : later.length < n := by
      rw [← size, ahead, length_append, length_cons]
      omega
    exact .next read (by rw [points]) (@ih later.length shorter (before ++ skipped ++ [t]) later
      t.addr (by simp [whole]) (drawn.levelOf whole tall) rfl)

omit drawn in
/-- A span counts the nodes that its pointer passes over. -/
theorem levelFor_spanExact (i : Nat) (ahead : List (Tower S)) :
    SpanExact (levelFor i ahead) (ahead.map Tower.addr) := by
  rcases levelFor_cases i ahead with ⟨_, ended⟩ | ⟨skipped, t, later, split, _, _, points⟩
  · rw [ended]
    simp [SpanExact]
  · rw [points, split]
    exact ⟨skipped.map Tower.addr, later.map Tower.addr, by simp, by simp⟩

theorem Drawn.chain_zero : chainOf towers 0 = towers.map Tower.addr := by
  rw [chainOf, filter_eq_self.mpr]
  intro t listed
  exact decide_eq_true (drawn.positive t listed)

/-- The pointers and the spans of a skiplist are those of its towers. -/
theorem Drawn.exact :
    Exact zsl (towers.map Tower.key) (chainOf towers) where
  leads := by
    intro i below
    by_cases used : i < zsl.level
    · exact drawn.leads (nil_append _).symm (drawn.levelOf_header used)
    -- A level that is not in use ends at the header.
    obtain ⟨node, stored, _, width, _, unused⟩ := drawn.header
    obtain ⟨level, read⟩ : ∃ level, node.level[i]? = some level :=
      ⟨_, getElem?_eq_getElem (by omega)⟩
    rw [chainOf_eq_nil (drawn.bounded.mono (by omega))]
    refine @Leads.last S zsl i zsl.header level ?_ (unused i level (by omega) read)
    simp only [Zskiplist.levelOf, Zskiplist.deref, stored, ok_bind, read]
  content := by
    rw [drawn.chain_zero, map_map, map_map]
    apply map_congr_left
    intro t listed
    obtain ⟨left, right, split⟩ := append_of_mem listed
    simp [keyAt, drawn.cells left t right split, nodeFor, Tower.key]
  sublist := by
    intro i _
    apply List.Sublist.map
    rw [show (fun t : Tower S => decide (i + 1 < t.height)) =
      fun t => decide (i + 1 < t.height) && decide (i < t.height) by
        funext t
        by_cases higher : i + 1 < t.height
        · simp [Nat.lt_of_succ_lt higher]
        · simp [higher], ← filter_filter]
    exact filter_sublist
  spans := by
    intro i used before x ahead level split read
    rw [drawn.chain_zero] at split
    cases before with
    | nil =>
      rw [nil_append, List.cons.injEq] at split
      rw [← split.1, drawn.levelOf_header used] at read
      cases read
      rw [← split.2]
      exact levelFor_spanExact i towers
    | cons header before =>
      rw [cons_append, List.cons.injEq] at split
      obtain ⟨left, right, parts, _, ends⟩ := map_eq_append_iff.mp split.2
      obtain ⟨t, right', shape, here, later⟩ := map_eq_cons_iff.mp ends
      rw [shape] at parts
      rw [← later]
      by_cases tall : i < t.height
      · rw [← here, drawn.levelOf parts tall] at read
        cases read
        exact levelFor_spanExact i right'
      · -- A node is not asked for a level it does not have.
        have outside : (nodeFor left t right').level[i]? = none := by simp [nodeFor, tall]
        rw [← here] at read
        simp only [Zskiplist.levelOf, drawn.deref parts, ok_bind, outside] at read
        cases read
  backward := by
    intro before x ahead split
    rw [drawn.chain_zero] at split
    obtain ⟨left, right, parts, front, ends⟩ := map_eq_append_iff.mp split
    obtain ⟨t, right', shape, here, _⟩ := map_eq_cons_iff.mp ends
    rw [shape] at parts
    refine ⟨_, here ▸ drawn.deref parts, ?_⟩
    rw [← front, getLast?_map]
    rfl
  tail := by
    rw [drawn.chain_zero, getLast?_map]
    exact drawn.tail
  length := by
    rw [drawn.chain_zero, length_map]
    exact drawn.length
  levelInUse := by
    refine ⟨drawn.levelPositive, drawn.levelBounded, ?_⟩
    rcases drawn.levelReached with one | reached
    · exact .inl one
    right
    intro none_
    apply reached
    intro t listed
    have outside := filter_eq_nil_iff.mp (map_eq_nil_iff.mp none_) t listed
    simpa using outside
  levelUnused := fun i above _ => chainOf_eq_nil (drawn.bounded.mono above)

theorem Drawn.contentFrom {before rest : List (Tower S)}
    (split : towers = before ++ rest) {fuel : Nat} (enough : rest.length ≤ fuel) :
    contentFrom zsl fuel (levelFor 0 rest).forward = rest.map Tower.key := by
  induction rest generalizing before fuel with
  | nil => cases fuel <;> rfl
  | cons t later ih =>
    have tall : 0 < t.height := drawn.positive t (by simp [split])
    cases fuel with
    | zero => simp at enough
    | succ fuel =>
      have bottom : (List.range t.height).map (fun i => levelFor i later) =
          levelFor 0 later :: (List.range (t.height - 1)).map fun i => levelFor (i + 1) later := by
        rw [show t.height = t.height - 1 + 1 by omega, range_succ_eq_map]
        simp [Function.comp_def]
      rw [levelFor_tall tall, Zset.contentFrom, drawn.cells before t later split, nodeFor, bottom]
      show t.key :: Zset.contentFrom zsl fuel (levelFor 0 later).forward = _
      congr 1
      refine @ih (before ++ [t]) (by simp [split]) fuel ?_
      rw [length_cons] at enough
      omega

theorem Drawn.content : content zsl = towers.map Tower.key := by
  obtain ⟨⟨ele, score, backward, level⟩, stored, _, width, levels, _⟩ := drawn.header
  cases level with
  | nil => cases width
  | cons bottom higher =>
    have first := levels 0 drawn.levelPositive
    rw [getElem?_cons_zero, Option.some.injEq] at first
    rw [Zset.content, stored]
    simp only [first]
    exact drawn.contentFrom (nil_append _).symm (Nat.le_of_eq drawn.length.symm)

end

end Drawn

end LearningNotes.Zset
