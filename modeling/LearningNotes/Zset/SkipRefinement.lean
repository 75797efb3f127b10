import LearningNotes.Zset.Exact
import LearningNotes.Zset.RangeDeletion
import LearningNotes.Zset.SortedSet
import Mathlib.Algebra.Order.Ring.Int

/-! Every run of calls keeps the skiplist exact, and its content is the sorted set. -/

namespace LearningNotes.Zset

open Lib Util List

variable {S : Type}

/-- A level that a new node can have. -/
abbrev RandomLevel := { level : Nat // 1 ≤ level ∧ level ≤ zskiplistMaxlevel }

/-- `zslRandomLevel`, where so many draws were below the threshold. -/
def zslRandomLevel (draws : Nat) : RandomLevel :=
  ⟨if 1 + draws < zskiplistMaxlevel then 1 + draws else zskiplistMaxlevel, by
    have most : zskiplistMaxlevel = 32 := rfl
    split <;> omega⟩

/-- The calls, with the levels that nodes get. -/
inductive Call (S : Type) where
  | insert (score : S) (ele : Bytes) (level : RandomLevel)
  | delete (score : S) (ele : Bytes)
  | updateScore (curscore : S) (ele : Bytes) (newscore : S) (level : RandomLevel)
  | deleteRangeByScore (range : RangeSpec S)
  | deleteRangeByLex (range : LexRangeSpec)
  | deleteRangeByRank (start stop : Nat)

/-- A node is read as its score and element. -/
inductive Reply (S : Type) where
  | node (score : S) (ele : Bytes)
  | deleted (found : Bool)
  | removed (elements : List Bytes)

def readNode (result : Addr × Zskiplist S) : Except Fault (Reply S × Zskiplist S) := do
  let (x, zsl) := result
  let node ← zsl.deref x
  let ele ← node.string
  return (.node node.score ele, zsl)

section Serving

variable [LinearOrder S]

def serve (zsl : Zskiplist S) : Call S → Except Fault (Reply S × Zskiplist S)
  | .insert score ele level => do
    let result ← zslInsert zsl score ele level
    readNode result
  | .delete score ele => do
    let (found, zsl) ← zslDelete zsl score ele
    return (.deleted found, zsl)
  | .updateScore curscore ele newscore level => do
    let result ← zslUpdateScore zsl curscore ele newscore level
    readNode result
  | .deleteRangeByScore range => do
    let (elements, zsl) ← zslDeleteRangeByScore zsl range
    return (.removed elements, zsl)
  | .deleteRangeByLex range => do
    let (elements, zsl) ← zslDeleteRangeByLex zsl range
    return (.removed elements, zsl)
  | .deleteRangeByRank start stop => do
    let (elements, zsl) ← zslDeleteRangeByRank zsl start stop
    return (.removed elements, zsl)

/-- An inserted element is new, an updated one is there, and 32 bits count the list. -/
def Admissible (zsl : Zskiplist S) : Call S → Prop
  | .insert _ ele _ => ele ∉ (content zsl).map Prod.snd ∧ zsl.length + 1 < 2 ^ 32
  | .updateScore curscore ele _ _ => (curscore, ele) ∈ content zsl ∧ zsl.length < 2 ^ 32
  | _ => True

instance (zsl : Zskiplist S) (call : Call S) : Decidable (Admissible zsl call) := by
  cases call <;> unfold Admissible <;> infer_instance

def AdmissibleRun : Zskiplist S → List (Call S) → Prop
  | _, [] => True
  | zsl, call :: calls =>
    Admissible zsl call ∧
      match serve zsl call with
      | .ok (_, zsl) => AdmissibleRun zsl calls
      | .error _ => True

def RangeSpec.contains (range : RangeSpec S) (key : S × Bytes) : Bool :=
  zslValueGteMin key.1 range && zslValueLteMax key.1 range

def LexRangeSpec.contains (range : LexRangeSpec) (key : S × Bytes) : Bool :=
  zslLexValueGteMin key.2 range && zslLexValueLteMax key.2 range

/-- With equal scores a range is removed as a whole, else some members in a row. -/
def LexRemoved (set : SortedSet S) (range : LexRangeSpec) (elements : List Bytes)
    (set' : SortedSet S) : Prop :=
  ∃ before gone kept, set.members = before ++ (gone ++ kept) ∧ set'.members = before ++ kept ∧
    elements = gone.map Prod.snd ∧
    (∀ key, before.getLast? = some key → zslLexValueGteMin key.2 range = false) ∧
    (∀ key, (gone ++ kept).head? = some key → zslLexValueGteMin key.2 range = true) ∧
    (∀ key ∈ gone, zslLexValueLteMax key.2 range = true) ∧
    (∀ key, kept.head? = some key → zslLexValueLteMax key.2 range = false) ∧
    ((∀ a ∈ set.members, ∀ b ∈ set.members, a.1 = b.1) →
      gone = set.members.filter range.contains ∧ set' = set.filter fun key => !range.contains key)

def SetSpec (set : SortedSet S) : Call S → Reply S → SortedSet S → Prop
  | .insert score ele _, .node score' ele', set' =>
    (score', ele') = (score, ele) ∧ set' = set.assign ele score
  | .delete score ele, .deleted found, set' =>
    found = decide ((score, ele) ∈ set.members) ∧ set' = set.filter fun key => key ≠ (score, ele)
  | .updateScore _ ele newscore _, .node score' ele', set' =>
    (score', ele') = (newscore, ele) ∧ set' = set.assign ele newscore
  | .deleteRangeByScore range, .removed elements, set' =>
    elements = (set.members.filter range.contains).map Prod.snd ∧
      set' = set.filter fun key => !range.contains key
  | .deleteRangeByLex range, .removed elements, set' => LexRemoved set range elements set'
  | .deleteRangeByRank start stop, .removed elements, set' =>
    elements = ((set.members.take stop).drop (start - 1)).map Prod.snd ∧
      set' = set.removeSlice (start - 1) stop
  | _, _, _ => False

/-- Towers whose keys are the members of the set. -/
def Represents (zsl : Zskiplist S) (set : SortedSet S) : Prop :=
  ∃ towers, Drawn zsl towers ∧ towers.map Tower.key = set.members

variable {zsl : Zskiplist S} {set : SortedSet S}

theorem placed_keys (new : Tower S) (towers : List (Tower S)) :
    (placed new towers).map Tower.key = SortedSet.placeKey new.key (towers.map Tower.key) := by
  rw [placed, SortedSet.placeKey, map_append, map_cons, filter_map, filter_map]
  rfl

omit [LinearOrder S] in
theorem filter_keys (test : S × Bytes → Bool) (towers : List (Tower S)) :
    (towers.filter fun t => test t.key).map Tower.key = (towers.map Tower.key).filter test := by
  rw [filter_map]
  rfl

omit [LinearOrder S] in
theorem forall_key {holds : S × Bytes → Prop} {tower : Option (Tower S)}
    (known : ∀ t, tower = some t → holds t.key) :
    ∀ key, tower.map Tower.key = some key → holds key := by
  simpa only [Option.map_eq_some_iff, forall_exists_index, and_imp, forall_apply_eq_imp_iff₂]

theorem Drawn.readNode {new : Tower S} {others : List (Tower S)}
    (drawn : Drawn zsl (placed new others)) :
    readNode (new.addr, zsl) = .ok (.node new.score new.ele, zsl) := by
  simp only [Zset.readNode, drawn.deref rfl, ok_bind, nodeFor, Node.string]
  rfl

/-- The call does to the skiplist what it does to the set, and replies the same. -/
def Served (zsl : Zskiplist S) (set : SortedSet S) (call : Call S) : Prop :=
  ∃ reply zsl' set', serve zsl call = .ok (reply, zsl') ∧ SetSpec set call reply set' ∧
    Represents zsl' set'

section Calls

variable {towers : List (Tower S)} (drawn : Drawn zsl towers)
  (keys : towers.map Tower.key = set.members)

include keys in
theorem inOrder_of_keys : InOrder towers := by
  rw [InOrder, keys]
  exact set.sorted

include drawn keys

theorem served_insert {score : S} {ele : Bytes} {level : RandomLevel}
    (admissible : Admissible zsl (.insert score ele level)) :
    Served zsl set (.insert score ele level) := by
  obtain ⟨absent, room⟩ := admissible
  rw [drawn.content, keys] at absent
  rw [drawn.length] at room
  obtain ⟨zsl', inserted, drawn', _, _⟩ :=
    zslInsert_placed drawn (inOrder_of_keys keys) score ele level.2.1 level.2.2 room
  refine ⟨.node score ele, zsl', set.assign ele score, ?_, ⟨rfl, rfl⟩, _, drawn', ?_⟩
  · rw [serve, inserted, ok_bind]
    exact drawn'.readNode
  · -- No member has the element, so that none is moved.
    rw [placed_keys, keys, SortedSet.assign_members, SortedSet.others_of_absent absent]
    rfl

theorem served_delete (score : S) (ele : Bytes) : Served zsl set (.delete score ele) := by
  obtain ⟨zsl', deleted, drawn'⟩ := zslDelete_spec drawn (inOrder_of_keys keys) score ele
  refine ⟨.deleted _, zsl', set.filter fun key => key ≠ (score, ele), by rw [serve, deleted]; rfl,
    ⟨?_, rfl⟩, _, drawn', ?_⟩
  · rw [← keys, decide_eq_decide, mem_map]
  · rw [SortedSet.filter_members, ← keys]
    exact filter_keys (fun key => decide (key ≠ (score, ele))) towers

theorem served_updateScore {curscore newscore : S} {ele : Bytes} {level : RandomLevel}
    (admissible : Admissible zsl (.updateScore curscore ele newscore level)) :
    Served zsl set (.updateScore curscore ele newscore level) := by
  obtain ⟨present, room⟩ := admissible
  rw [drawn.content] at present
  rw [drawn.length] at room
  obtain ⟨x, zsl', height, updated, drawn'⟩ := zslUpdateScore_spec drawn (inOrder_of_keys keys)
    (mem_map.mp present) newscore level.2.1 level.2.2 room
  refine ⟨.node newscore ele, zsl', set.assign ele newscore, ?_, ⟨rfl, rfl⟩, _, drawn', ?_⟩
  · rw [serve, updated, ok_bind]
    exact drawn'.readNode
  · -- The member with the old score is the one that is replaced.
    rw [keys] at present
    rw [placed_keys, SortedSet.assign_members, SortedSet.others_of_mem present, ← keys,
      ← filter_keys]
    rfl

theorem served_deleteRangeByScore (range : RangeSpec S) :
    Served zsl set (.deleteRangeByScore range) := by
  obtain ⟨zsl', deleted, drawn'⟩ := zslDeleteRangeByScore_spec drawn (inOrder_of_keys keys) range
  refine ⟨.removed _, zsl', set.filter fun key => !range.contains key,
    by rw [serve, deleted]; rfl, ⟨?_, rfl⟩, _, drawn', ?_⟩
  · rw [← keys, ← filter_keys, map_map]
    rfl
  · rw [SortedSet.filter_members, ← keys]
    exact filter_keys (fun key => !range.contains key) towers

theorem served_deleteRangeByLex (range : LexRangeSpec) :
    Served zsl set (.deleteRangeByLex range) := by
  obtain ⟨zsl', before, gone, kept, deleted, split, drawn', last, first, within, ends, oneScore⟩ :=
    zslDeleteRangeByLex_spec drawn (inOrder_of_keys keys) range
  have parts : set.members =
      before.map Tower.key ++ (gone.map Tower.key ++ kept.map Tower.key) := by
    rw [← keys, split]
    simp
  have fewer : (before.map Tower.key ++ kept.map Tower.key).Sublist set.members := by
    rw [parts]
    exact (sublist_append_right _ _).append_left _
  refine ⟨.removed _, zsl', set.restrict _ fewer, by rw [serve, deleted]; rfl,
    ⟨_, _, _, parts, rfl, by rw [map_map]; rfl, ?_, ?_, ?_, ?_, ?_⟩, _, drawn',
    by rw [map_append]; rfl⟩
  -- What is known of the towers around the gap is known of their keys.
  · rw [getLast?_map]
    exact forall_key last
  · rw [← map_append, head?_map]
    exact forall_key first
  · exact forall_mem_map.mpr within
  · rw [head?_map]
    exact forall_key ends
  · intro equal
    have scores : OneScore towers := by
      intro s inS t inT
      have listed : ∀ u ∈ towers, u.key ∈ set.members :=
        fun u inside => keys ▸ mem_map_of_mem inside
      exact equal s.key (listed s inS) t.key (listed t inT)
    obtain ⟨goneEq, keptEq⟩ := oneScore scores
    constructor
    · rw [goneEq, ← keys]
      exact filter_keys range.contains towers
    · apply SortedSet.ext
      show before.map Tower.key ++ kept.map Tower.key = set.members.filter _
      rw [← map_append, keptEq, ← keys]
      exact filter_keys (fun key => !range.contains key) towers

theorem served_deleteRangeByRank (start stop : Nat) :
    Served zsl set (.deleteRangeByRank start stop) := by
  obtain ⟨zsl', deleted, drawn'⟩ := zslDeleteRangeByRank_spec drawn start stop
  refine ⟨.removed _, zsl', set.removeSlice (start - 1) stop, by rw [serve, deleted]; rfl,
    ⟨?_, rfl⟩, _, drawn', ?_⟩
  · rw [← keys]
    simp only [map_take, map_drop, map_map]
    rfl
  · show _ = set.members.take (start - 1) ++ set.members.drop (max (start - 1) stop)
    rw [← keys]
    simp only [map_append, map_take, map_drop]

end Calls

/-- One step: every admissible call is served as on the set. -/
theorem serve_meets (represents : Represents zsl set) (call : Call S)
    (admissible : Admissible zsl call) : Served zsl set call := by
  obtain ⟨towers, drawn, keys⟩ := represents
  cases call with
  | insert score ele level => exact served_insert drawn keys admissible
  | delete score ele => exact served_delete drawn keys score ele
  | updateScore curscore ele newscore level => exact served_updateScore drawn keys admissible
  | deleteRangeByScore range => exact served_deleteRangeByScore drawn keys range
  | deleteRangeByLex range => exact served_deleteRangeByLex drawn keys range
  | deleteRangeByRank start stop => exact served_deleteRangeByRank drawn keys start stop

theorem run_meets (calls : List (Call S)) {zsl : Zskiplist S} {set : SortedSet S}
    (represents : Represents zsl set) (admissible : AdmissibleRun zsl calls) :
    ∃ replies zsl' set', runCalls serve zsl calls = .ok (replies, zsl') ∧
      SpecRun SetSpec set calls replies set' ∧ Represents zsl' set' := by
  induction calls generalizing zsl set with
  | nil => exact ⟨[], zsl, set, rfl, .nil set, represents⟩
  | cons call calls ih =>
    obtain ⟨reply, zsl', set', served, spec, represents'⟩ :=
      serve_meets represents call admissible.1
    have onward := admissible.2
    rw [served] at onward
    obtain ⟨replies, zsl'', set'', ran, specs, represents''⟩ := ih represents' onward
    refine ⟨reply :: replies, zsl'', set'', ?_, .cons spec specs, represents''⟩
    simp only [runCalls, served, ok_bind, ran]
    rfl

end Serving

/-- After any run of admissible calls the skiplist is exact and holds the sorted set. -/
theorem skiplist_refines_sortedSet [LinearOrder S] [Zero S] (calls : List (Call S))
    (admissible : AdmissibleRun zslCreate calls) :
    ∃ replies zsl set chain, runCalls serve zslCreate calls = .ok (replies, zsl) ∧
      SpecRun SetSpec SortedSet.empty calls replies set ∧ Exact zsl set.members chain := by
  obtain ⟨replies, zsl, set, ran, specs, towers, drawn, keys⟩ :=
    @run_meets S _ calls zslCreate SortedSet.empty ⟨[], zslCreate_drawn, rfl⟩ admissible
  exact ⟨replies, zsl, set, chainOf towers, ran, specs, keys ▸ drawn.exact⟩

instance AdmissibleRun.decidable [LinearOrder S] :
    ∀ (zsl : Zskiplist S) (calls : List (Call S)), Decidable (AdmissibleRun zsl calls)
  | _, [] => isTrue trivial
  | zsl, call :: calls => by
    unfold AdmissibleRun
    cases serve zsl call with
    | error fault => infer_instance
    | ok result =>
      have := AdmissibleRun.decidable result.2 calls
      infer_instance

/-- All calls: a node moves, levels are opened and given up. -/
@[irreducible] def movingRun : List (Call Int) :=
  [.insert 1 [97] (zslRandomLevel 0), .insert 3 [98] (zslRandomLevel 2),
    .insert 2 [99] (zslRandomLevel 1), .updateScore 1 [97] 5 (zslRandomLevel 3),
    .updateScore 2 [99] 1 (zslRandomLevel 0), .insert 5 [98, 98] (zslRandomLevel 40),
    .delete 3 [98], .delete 4 [97], .deleteRangeByRank 1 1,
    .deleteRangeByLex ⟨.sds [98], .maxstring, true, false⟩,
    .deleteRangeByScore ⟨2, 5, false, true⟩]

theorem movingRun_admissible : AdmissibleRun zslCreate movingRun := by decide +kernel

theorem movingRun_refines :
    AdmissibleRun zslCreate movingRun ∧
      ∃ replies zsl set chain, runCalls serve zslCreate movingRun = .ok (replies, zsl) ∧
        SpecRun SetSpec SortedSet.empty movingRun replies set ∧ Exact zsl set.members chain :=
  ⟨movingRun_admissible, skiplist_refines_sortedSet movingRun movingRun_admissible⟩

/-- A call without the level of a new node. -/
inductive Operation (S : Type) where
  | insert (score : S) (ele : Bytes)
  | delete (score : S) (ele : Bytes)
  | updateScore (curscore : S) (ele : Bytes) (newscore : S)
  | deleteRangeByScore (range : RangeSpec S)
  | deleteRangeByLex (range : LexRangeSpec)
  | deleteRangeByRank (start stop : Nat)

def Call.operation : Call S → Operation S
  | .insert score ele _ => .insert score ele
  | .delete score ele => .delete score ele
  | .updateScore curscore ele newscore _ => .updateScore curscore ele newscore
  | .deleteRangeByScore range => .deleteRangeByScore range
  | .deleteRangeByLex range => .deleteRangeByLex range
  | .deleteRangeByRank start stop => .deleteRangeByRank start stop

def contentAfter [LinearOrder S] [Zero S] (calls : List (Call S)) : Option (List (S × Bytes)) :=
  match runCalls serve zslCreate calls with
  | .ok (_, zsl) => some (content zsl)
  | .error _ => none

/-- Two scores, and a deletion of the strings from `b` on. -/
@[irreducible] def mixedRun (draws : Nat) : List (Call Int) :=
  [.insert 1 [99] (zslRandomLevel 0), .insert 2 [97] (zslRandomLevel draws),
    .deleteRangeByLex ⟨.sds [98], .maxstring, false, false⟩]

/-- With different scores the levels decide what a lexicographic range deletion removes. -/
theorem content_depends_on_levels :
    ¬ ∃ outcome : List (Operation Int) → List (Int × Bytes), ∀ calls : List (Call Int),
      AdmissibleRun zslCreate calls → contentAfter calls = some (outcome (calls.map Call.operation)) := by
  rintro ⟨outcome, agrees⟩
  have low := agrees (mixedRun 0) (by decide +kernel)
  have high := agrees (mixedRun 1) (by decide +kernel)
  have same : (mixedRun 0).map Call.operation = (mixedRun 1).map Call.operation := by
    unfold mixedRun
    rfl
  have differ : contentAfter (mixedRun 0) ≠ contentAfter (mixedRun 1) := by decide +kernel
  exact differ (by rw [low, high, same])

end LearningNotes.Zset
