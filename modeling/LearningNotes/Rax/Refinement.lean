import LearningNotes.Lib.Maps
import LearningNotes.Rax.Remove

/-! Every run of rax calls is a run of the same calls on a finite map of byte strings. -/

namespace LearningNotes.Rax

open Lib List Prod

variable {V : Type}

/-- A key that fits into one node. -/
structure Key where
  bytes : Bytes
  short : bytes.length < raxNodeMaxSize

/-- The calls; values are pointers, and `none` is `NULL`. -/
inductive Call (V : Type) where
  | insert (s : Key) (data : Option V)
  | tryInsert (s : Key) (data : Option V)
  | remove (s : Key)
  | find (s : Key)

/-- What a call hands back; an `old` of `none` was not written to. -/
inductive Reply (V : Type) where
  | status (changed : Bool) (old : Option (Option V))
  | found (data : Option (Option V))

def serve (rax : Rax V) : Call V → Except Fault (Reply V × Rax V)
  | .insert s data => do
    let ((changed, old), rax) ← raxInsert rax s.bytes data
    return (.status changed old, rax)
  | .tryInsert s data => do
    let ((changed, old), rax) ← raxTryInsert rax s.bytes data
    return (.status changed old, rax)
  | .remove s => do
    let ((changed, old), rax) ← raxRemove rax s.bytes
    return (.status changed old, rax)
  | .find s => do
    let data ← raxFind rax s.bytes
    return (.found data, rax)

def MapSpec (map : Bytes → Option (Option V)) :
    Call V → Reply V → (Bytes → Option (Option V)) → Prop
  | .insert s data, reply, next =>
    reply = .status (map s.bytes).isNone (map s.bytes) ∧ next = insertKey map s.bytes data
  | .tryInsert s data, reply, next =>
    reply = .status (map s.bytes).isNone (map s.bytes) ∧
      next = if (map s.bytes).isNone then insertKey map s.bytes data else map
  | .remove s, reply, next =>
    reply = .status (map s.bytes).isSome (map s.bytes) ∧ next = eraseKey map s.bytes
  | .find s, reply, next => reply = .found (map s.bytes) ∧ next = map

def Node.Shaped (node : Node V) : Prop :=
  if node.header.iscompr then node.header.data ≠ [] ∧ node.children.length = 1
  else node.header.data.Pairwise (· < ·) ∧ node.children.length = node.header.data.length

def HasSize (map : Bytes → Option (Option V)) (size : Nat) : Prop :=
  ∃ keys : List Bytes, keys.Nodup ∧ (∀ key, key ∈ keys ↔ map key ≠ none) ∧ keys.length = size

def toMap (rax : Rax V) : Bytes → Option (Option V) :=
  keyedMap fst snd rax.head.entries

structure Represents (rax : Rax V) (map : Bytes → Option (Option V)) : Prop where
  stored : toMap rax = map
  numele : HasSize map rax.numele
  numnodes : rax.numnodes = rax.head.nodes.length
  shaped : ∀ node ∈ rax.head.nodes, node.Shaped

section Maps

variable {rax other : Rax V} {s : Bytes}

theorem Good.toMap_of_mem (good : Good rax) {value : Option V}
    (listed : (s, value) ∈ rax.head.entries) : toMap rax s = some value :=
  keyedMap_of_mem fst snd good.distinct listed

theorem toMap_eq_none (absent : ∀ value, (s, value) ∉ rax.head.entries) : toMap rax s = none := by
  apply (keyedMap_eq_none fst snd).mpr
  intro entry listed same
  exact absent entry.2 (same ▸ listed)

theorem Good.toMap_adds {value : Option V} (good : Good other) (adds : Adds rax other s value) :
    toMap other = insertKey (toMap rax) s value :=
  keyedMap_insert fst snd good.distinct adds.entries

theorem Good.toMap_removes {value : Option V} (good : Good other)
    (adds : Adds rax other s value) : toMap rax = eraseKey (toMap other) s :=
  keyedMap_erase fst snd good.distinct adds.entries

theorem Good.represents (good : Good rax) : Represents rax (toMap rax) := by
  refine ⟨rfl, ⟨rax.head.entries.map fst, good.distinct, ?_, ?_⟩, good.numnodes, ?_⟩
  · intro key
    constructor
    · intro listed
      obtain ⟨entry, inside, same⟩ := mem_map.mp listed
      rw [← same, good.toMap_of_mem inside]
      exact Option.some_ne_none _
    · intro present
      apply Decidable.of_not_not
      intro absent
      exact present (toMap_eq_none fun value inside =>
        absent (mem_map.mpr ⟨(key, value), inside, rfl⟩))
  · rw [length_map, good.numele]
  · intro node listed
    have fits := (good.sound.of_mem_nodes node listed).fits
    unfold Node.Shaped
    split
    · rename_i compr
      obtain ⟨long, one⟩ := fits.compressed compr
      exact ⟨length_pos_iff.mp (by omega), one⟩
    · rename_i plain
      exact fits.plain (Bool.not_eq_true _ ▸ plain)

end Maps

def StandsFor (rax : Rax V) (map : Bytes → Option (Option V)) : Prop :=
  Good rax ∧ toMap rax = map

theorem insert_served {rax : Rax V} (good : Good rax) (s : Key) (data : Option V)
    (overwrite : Bool) :
    ∃ changed old next, raxGenericInsert rax s.bytes data overwrite = .ok ((changed, old), next) ∧
      Good next ∧ changed = (toMap rax s.bytes).isNone ∧ old = toMap rax s.bytes ∧
      toMap next = if (toMap rax s.bytes).isNone || overwrite then
        insertKey (toMap rax) s.bytes data else toMap rax := by
  obtain ⟨⟨⟨changed, old⟩, next⟩, done, kept, inserted⟩ :=
    raxGenericInsert_meets good s.short data overwrite
  refine ⟨changed, old, next, done, kept, ?_⟩
  cases inserted with
  | kept listed refused =>
    have present := good.toMap_of_mem listed
    simp [present, refused]
  | @overwritten old others head before after allowed =>
    have present := good.toMap_of_mem (before.mem_iff.mpr mem_cons_self)
    refine ⟨by simp [present], present.symm, ?_⟩
    rw [allowed, Bool.or_true, if_pos rfl]
    exact keyedMap_overwrite fst snd good.distinct before after rfl
  | added absent adds =>
    have missing := toMap_eq_none absent
    refine ⟨by simp [missing], missing.symm, ?_⟩
    rw [missing, Option.isNone_none, Bool.true_or, if_pos rfl]
    exact kept.toMap_adds adds

theorem serve_simulates (rax : Rax V) (map : Bytes → Option (Option V)) (call : Call V)
    (standsFor : StandsFor rax map) :
    Meets (serve rax call) (fun _ => False) fun result =>
      ∃ next, MapSpec map call result.1 next ∧ StandsFor result.2 next := by
  obtain ⟨good, same⟩ := standsFor
  subst same
  cases call with
  | insert s data =>
    obtain ⟨changed, old, next, done, kept, replied, told, acted⟩ := insert_served good s data true
    rw [Bool.or_true, if_pos rfl] at acted
    simp only [serve, raxInsert, done]
    exact ⟨_, ⟨by rw [replied, told], rfl⟩, kept, acted⟩
  | tryInsert s data =>
    obtain ⟨changed, old, next, done, kept, replied, told, acted⟩ := insert_served good s data false
    rw [Bool.or_false] at acted
    simp only [serve, raxTryInsert, done]
    exact ⟨_, ⟨by rw [replied, told], rfl⟩, kept, acted⟩
  | remove s =>
    obtain ⟨⟨⟨changed, old⟩, next⟩, done, kept, removed⟩ := raxRemove_meets good s.bytes
    simp only [serve, done]
    refine ⟨_, ⟨?_, rfl⟩, kept, ?_⟩
    · cases removed with
      | missing absent => simp [toMap_eq_none absent]
      | removed adds =>
        simp [good.toMap_of_mem (adds.entries.mem_iff.mpr mem_cons_self)]
    · cases removed with
      | missing absent => exact (eraseKey_absent (toMap_eq_none absent)).symm
      | removed adds => exact good.toMap_removes adds
  | find s =>
    obtain ⟨found, done, tells⟩ := raxFind_meets good.sound s.bytes
    simp only [serve, done]
    refine ⟨_, ⟨?_, rfl⟩, good, rfl⟩
    cases found with
    | none =>
      rw [toMap_eq_none fun value listed => absurd ((tells value).mp listed) (by simp)]
    | some value => rw [good.toMap_of_mem ((tells value).mpr rfl)]

/-- A run of calls on a new rax never faults, and replies and acts as on an empty finite map. -/
theorem rax_refines_map (calls : List (Call V)) :
    ∃ replies rax map, runCalls serve raxNew calls = .ok (replies, rax) ∧
      SpecRun MapSpec (fun _ => none) calls replies map ∧ Represents rax map := by
  have simulated := runCalls_simulates serve serve_simulates calls raxNew (fun _ => none)
    (⟨raxNew_good, rfl⟩ : StandsFor (raxNew : Rax V) fun _ => none)
  cases ran : runCalls serve raxNew calls with
  | error fault =>
    rw [ran] at simulated
    exact absurd simulated id
  | ok result =>
    rw [ran] at simulated
    obtain ⟨map, spec, good, same⟩ := simulated
    exact ⟨result.1, result.2, map, rfl, spec, same ▸ good.represents⟩

end LearningNotes.Rax
