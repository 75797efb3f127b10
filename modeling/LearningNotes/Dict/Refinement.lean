import LearningNotes.Dict.Operations

/-! Every run of dict calls is a run of the same calls on a finite map. -/

namespace LearningNotes.Dict

open Lib

variable {K V : Type} [DecidableEq K]

inductive Call (K V : Type) where
  | add (key : K) (val uninitialized : V)
  | addRaw (key : K) (uninitialized : V)
  | replace (key : K) (val uninitialized : V)
  | delete (key : K)
  | unlink (key : K)
  | find (key : K)
  | rehash (n : Int)
  | expand (size : Nat)
  | tryExpand (size : Nat)
  | resize
  | setResizeEnabled (setting : ResizeEnable)

inductive Reply (K V : Type) where
  | status (status : Status)
  | entry (found : Option (Entry K V))
  | addedOrExisting (entry existing : Option (Entry K V))
  | added (fresh : Bool)
  | keysLeft (left : Bool)
  | nothing

structure Server (K V : Type) where
  canResize : ResizeEnable
  dict : Dict K V

def derefOption (d : Dict K V) : Option Ref → Except Fault (Option (Entry K V))
  | none => .ok none
  | some ref => do
    let he ← d.deref ref
    return some he

def serve (type : DictType K) (server : Server K V) (call : Call K V) :
    Except Fault (Reply K V × Server K V) :=
  let canResize := server.canResize
  match call with
  | .add key val uninitialized => do
    let (status, d) ← dictAdd type canResize server.dict key val uninitialized
    return (.status status, ⟨canResize, d⟩)
  | .addRaw key uninitialized => do
    let ((entry, existing), d) ← dictAddRaw type canResize server.dict key uninitialized
    let entry ← derefOption d entry
    let existing ← derefOption d existing
    return (.addedOrExisting entry existing, ⟨canResize, d⟩)
  | .replace key val uninitialized => do
    let (fresh, d) ← dictReplace type canResize server.dict key val uninitialized
    return (.added fresh, ⟨canResize, d⟩)
  | .delete key => do
    let (status, d) ← dictDelete type canResize server.dict key
    return (.status status, ⟨canResize, d⟩)
  | .unlink key => do
    let (he, d) ← dictUnlink type canResize server.dict key
    return (.entry he, ⟨canResize, d⟩)
  | .find key => do
    let (found, d) ← dictFind type canResize server.dict key
    let he ← derefOption d found
    return (.entry he, ⟨canResize, d⟩)
  | .rehash n => do
    let (left, d) ← dictRehash type canResize server.dict n
    return (.keysLeft left, ⟨canResize, d⟩)
  | .expand size => do
    let (status, d) ← dictExpand server.dict size
    return (.status status, ⟨canResize, d⟩)
  | .tryExpand size => do
    let (status, d) ← dictTryExpand server.dict size
    return (.status status, ⟨canResize, d⟩)
  | .resize => do
    let (status, d) ← dictResize canResize server.dict
    return (.status status, ⟨canResize, d⟩)
  | .setResizeEnabled setting => .ok (.nothing, { server with canResize := setting })

def MapSpec (map : K → Option V) : Call K V → Reply K V → (K → Option V) → Prop
  | .add key val _, reply, next =>
    reply = .status (if (map key).isNone then .ok else .err) ∧
      next = if (map key).isNone then insertKey map key val else map
  | .addRaw key uninitialized, reply, next =>
    match map key with
    | none => reply = .addedOrExisting (some ⟨key, uninitialized⟩) none ∧
        next = insertKey map key uninitialized
    | some val => reply = .addedOrExisting none (some ⟨key, val⟩) ∧ next = map
  | .replace key val _, reply, next =>
    reply = .added (map key).isNone ∧ next = insertKey map key val
  | .delete key, reply, next =>
    reply = .status (if (map key).isSome then .ok else .err) ∧ next = eraseKey map key
  | .unlink key, reply, next =>
    reply = .entry ((map key).map fun val => ⟨key, val⟩) ∧ next = eraseKey map key
  | .find key, reply, next =>
    reply = .entry ((map key).map fun val => ⟨key, val⟩) ∧ next = map
  -- Resizing and migration answer for the representation only.
  | .rehash _, _, next => next = map
  | .expand _, _, next => next = map
  | .tryExpand _, _, next => next = map
  | .resize, _, next => next = map
  | .setResizeEnabled _, _, next => next = map

section Maps

variable {type : DictType K} {d d' : Dict K V}

variable {he : Entry K V}

theorem toMap_added (sound : d'.Sound type) (added : d'.entries.Perm (he :: d.entries)) :
    d'.toMap = insertKey d.toMap he.key he.val :=
  keyedMap_insert Entry.key Entry.val sound.distinct added

theorem toMap_removed (sound : d.Sound type) (removed : d.entries.Perm (he :: d'.entries)) :
    d'.toMap = eraseKey d.toMap he.key :=
  keyedMap_erase Entry.key Entry.val sound.distinct removed

theorem dictSetVal_toMap {ref : Ref} {permitted : Fault → Prop} (sound : d.Sound type)
    (points : d.PointsTo ref he) (val : V) :
    Meets (dictSetVal d ref val) permitted fun d' =>
      d'.Sound type ∧ d'.toMap = insertKey d.toMap he.key val := by
  refine (dictSetVal_meets sound points val).faultless.mono ?_
  rintro d' ⟨kept, _, others, before, after⟩
  exact ⟨kept, keyedMap_overwrite Entry.key Entry.val sound.distinct before after rfl⟩

theorem toMap_of_mem (sound : d.Sound type) (member : he ∈ d.entries) :
    d.toMap he.key = some he.val :=
  (toMap_eq_some sound.distinct).mpr member

end Maps

omit [DecidableEq K] in
theorem derefOption_points {d : Dict K V} {ref : Ref} {he : Entry K V}
    (points : d.PointsTo ref he) {permitted : Fault → Prop} :
    Meets (derefOption d (some ref)) permitted fun followed => followed = some he := by
  rw [derefOption, points.deref]
  rfl

section Calls

variable {type : DictType K} {d : Dict K V} (sound : d.Sound type) (canResize : ResizeEnable)
include sound canResize

theorem dictAdd_meets (key : K) (val uninitialized : V) :
    Meets (dictAdd type canResize d key val uninitialized) (· = .outOfMemory)
      fun result => result.2.Sound type ∧
        result.1 = (if (d.toMap key).isNone then .ok else .err) ∧
        result.2.toMap = if (d.toMap key).isNone then insertKey d.toMap key val else d.toMap := by
  refine Meets.bind (dictAddRaw_meets sound canResize key uninitialized) ?_
  rintro ⟨pointers, d1⟩ ⟨kept, _, outcome⟩
  cases outcome with
  | fresh absent points added =>
    -- The new entry gets its value through the pointer that was returned.
    have none_ : d.toMap key = none := toMap_eq_none.mpr absent
    refine Meets.bind (dictSetVal_toMap kept points val) ?_
    rintro d2 ⟨last, written⟩
    refine ⟨last, by simp [none_], ?_⟩
    rw [written, toMap_added kept added, none_]
    exact insertKey_insertKey _ _ _ _
  | present points named order =>
    have some_ := toMap_of_mem sound (order.mem_iff.mp points.mem)
    rw [named] at some_
    exact ⟨kept, by simp [some_], by simp [some_, toMap_perm sound.distinct order.symm]⟩

theorem dictReplace_meets (key : K) (val uninitialized : V) :
    Meets (dictReplace type canResize d key val uninitialized) (· = .outOfMemory)
      fun result => result.2.Sound type ∧ result.1 = (d.toMap key).isNone ∧
        result.2.toMap = insertKey d.toMap key val := by
  refine Meets.bind (dictAddRaw_meets sound canResize key uninitialized) ?_
  rintro ⟨pointers, d1⟩ ⟨kept, _, outcome⟩
  cases outcome with
  | fresh absent points added =>
    have none_ : d.toMap key = none := toMap_eq_none.mpr absent
    refine Meets.bind (dictSetVal_toMap kept points val) ?_
    rintro d2 ⟨last, written⟩
    refine ⟨last, by simp [none_], ?_⟩
    rw [written, toMap_added kept added]
    exact insertKey_insertKey _ _ _ _
  | present points named order =>
    have some_ := toMap_of_mem sound (order.mem_iff.mp points.mem)
    rw [named] at some_
    refine Meets.bind (dictSetVal_toMap kept points val) ?_
    rintro d2 ⟨last, written⟩
    refine ⟨last, by simp [some_], ?_⟩
    rw [written, toMap_perm sound.distinct order.symm, named]

theorem dictGenericDelete_toMap (key : K) :
    Meets (dictGenericDelete type canResize d key) (fun _ => False) fun result =>
      result.2.Sound type ∧ result.1 = (d.toMap key).map (fun val => ⟨key, val⟩) ∧
        result.2.toMap = eraseKey d.toMap key := by
  refine (dictGenericDelete_meets sound canResize key).mono ?_
  rintro ⟨he, d1⟩ ⟨kept, _, outcome⟩
  cases he with
  | none =>
    obtain ⟨order, absent⟩ := outcome
    have none_ : d.toMap key = none := toMap_eq_none.mpr absent
    refine ⟨kept, by simp [none_], ?_⟩
    rw [toMap_perm sound.distinct order.symm, eraseKey_absent none_]
  | some he =>
    obtain ⟨named, removed⟩ := outcome
    have some_ := toMap_of_mem sound (removed.mem_iff.mpr (List.mem_cons_self))
    subst named
    exact ⟨kept, by simp [some_], toMap_removed sound removed⟩

theorem dictDelete_meets (key : K) :
    Meets (dictDelete type canResize d key) (fun _ => False) fun result =>
      result.2.Sound type ∧ result.1 = (if (d.toMap key).isSome then .ok else .err) ∧
        result.2.toMap = eraseKey d.toMap key := by
  refine Meets.bind (dictGenericDelete_toMap sound canResize key) ?_
  rintro ⟨he, d1⟩ ⟨kept, replied, acted⟩
  subst replied
  exact ⟨kept, by rw [Option.isSome_map], acted⟩

theorem dictFind_toMap (key : K) :
    Meets (dictFind type canResize d key) (fun _ => False) fun result =>
      result.2.Sound type ∧ result.2.toMap = d.toMap ∧
        match result.1 with
        | none => d.toMap key = none
        | some ref => ∃ val, result.2.PointsTo ref ⟨key, val⟩ ∧ d.toMap key = some val := by
  -- The entries may have been reordered on the way.
  refine (dictFind_meets sound canResize key).mono ?_
  rintro ⟨found, d'⟩ ⟨kept, _, order, outcome⟩
  refine ⟨kept, toMap_perm sound.distinct order.symm, ?_⟩
  cases found with
  | none => exact toMap_eq_none.mpr outcome
  | some ref =>
    obtain ⟨⟨heKey, heVal⟩, points, named⟩ := outcome
    have some_ := toMap_of_mem sound (order.mem_iff.mp points.mem)
    subst named
    exact ⟨heVal, points, some_⟩

omit canResize in
theorem _dictExpand_toMap (size : Nat) (tryAlloc : Bool) :
    Meets (_dictExpand d size tryAlloc) (· = .outOfMemory) fun result =>
      result.2.Sound type ∧ result.2.toMap = d.toMap := by
  refine (_dictExpand_meets sound size tryAlloc).mono ?_
  rintro ⟨status, d'⟩ ⟨expanded, _⟩
  exact ⟨expanded.sound, toMap_perm sound.distinct (expanded.entries ▸ List.Perm.refl _)⟩

omit canResize in
theorem dictExpand_toMap (size : Nat) :
    Meets (dictExpand d size) (· = .outOfMemory) fun result =>
      result.2.Sound type ∧ result.2.toMap = d.toMap :=
  (_dictExpand_toMap sound size false).bind fun _ kept => kept

theorem dictResize_toMap :
    Meets (dictResize canResize d) (· = .outOfMemory) fun result =>
      result.2.Sound type ∧ result.2.toMap = d.toMap := by
  rw [dictResize]
  split
  · exact ⟨sound, rfl⟩
  · exact dictExpand_toMap sound _

end Calls

def Represents (type : DictType K) (server : Server K V) (map : K → Option V) : Prop :=
  server.dict.Sound type ∧ server.dict.toMap = map

theorem serve_simulates (type : DictType K) (server : Server K V) (map : K → Option V)
    (call : Call K V) (represents : Represents type server map) :
    Meets (serve type server call) (· = .outOfMemory) fun result =>
      ∃ next, MapSpec map call result.1 next ∧ Represents type result.2 next := by
  obtain ⟨sound, same⟩ := represents
  subst same
  -- Each call has its own specification; rehashing and resizing change no entry.
  cases call with
  | add key val uninitialized =>
    refine Meets.bind (dictAdd_meets sound server.canResize key val uninitialized) ?_
    rintro ⟨status, d'⟩ ⟨kept, replied, acted⟩
    exact ⟨_, ⟨congrArg Reply.status replied, rfl⟩, kept, acted⟩
  | addRaw key uninitialized =>
    refine Meets.bind (dictAddRaw_meets sound server.canResize key uninitialized) ?_
    rintro ⟨pointers, d'⟩ ⟨kept, _, outcome⟩
    cases outcome with
    | fresh absent points added =>
      have none_ : server.dict.toMap key = none := toMap_eq_none.mpr absent
      refine Meets.bind (derefOption_points points) ?_
      rintro _ rfl
      refine ⟨_, ?_, kept, toMap_added kept added⟩
      simp only [MapSpec, none_]
      exact ⟨trivial, trivial⟩
    | @present _ ref old points named order =>
      have some_ := toMap_of_mem sound (order.mem_iff.mp points.mem)
      subst named
      refine Meets.bind (show Meets (derefOption _ none) _ fun followed => followed = none from rfl) ?_
      rintro _ rfl
      refine Meets.bind (derefOption_points points) ?_
      rintro _ rfl
      refine ⟨_, ?_, kept, toMap_perm sound.distinct order.symm⟩
      simp only [MapSpec, some_]
      exact ⟨trivial, trivial⟩
  | replace key val uninitialized =>
    refine Meets.bind (dictReplace_meets sound server.canResize key val uninitialized) ?_
    rintro ⟨fresh, d'⟩ ⟨kept, replied, acted⟩
    exact ⟨_, ⟨congrArg Reply.added replied, rfl⟩, kept, acted⟩
  | delete key =>
    refine Meets.bind (dictDelete_meets sound server.canResize key).faultless ?_
    rintro ⟨status, d'⟩ ⟨kept, replied, acted⟩
    exact ⟨_, ⟨congrArg Reply.status replied, rfl⟩, kept, acted⟩
  | unlink key =>
    refine Meets.bind (dictGenericDelete_toMap sound server.canResize key).faultless ?_
    rintro ⟨he, d'⟩ ⟨kept, replied, acted⟩
    exact ⟨_, ⟨congrArg Reply.entry replied, rfl⟩, kept, acted⟩
  | find key =>
    refine Meets.bind (dictFind_toMap sound server.canResize key).faultless ?_
    rintro ⟨found, d'⟩ ⟨kept, acted, outcome⟩
    cases found with
    | none => exact ⟨_, ⟨by rw [show server.dict.toMap key = none from outcome]; rfl, rfl⟩, kept, acted⟩
    | some ref =>
      obtain ⟨val, points, some_⟩ := outcome
      refine Meets.bind (derefOption_points points) ?_
      rintro _ rfl
      exact ⟨_, ⟨by rw [some_]; rfl, rfl⟩, kept, acted⟩
  | rehash n =>
    refine Meets.bind (dictRehash_meets sound server.canResize n).faultless ?_
    rintro ⟨left, d'⟩ moved
    exact ⟨_, rfl, moved.sound, toMap_perm sound.distinct moved.entries.symm⟩
  | expand size =>
    refine Meets.bind (dictExpand_toMap sound size) ?_
    rintro ⟨status, d'⟩ kept
    exact ⟨_, rfl, kept⟩
  | tryExpand size =>
    rw [serve, dictTryExpand, bind_assoc]
    refine Meets.bind (_dictExpand_toMap sound size true) ?_
    rintro ⟨status, d'⟩ kept
    exact ⟨_, rfl, kept⟩
  | resize =>
    refine Meets.bind (dictResize_toMap sound server.canResize) ?_
    rintro ⟨status, d'⟩ kept
    exact ⟨_, rfl, kept⟩
  | setResizeEnabled setting => exact ⟨_, rfl, sound, rfl⟩

/--
A dict is a faithful finite map over every run of calls.

Every reply is the map's, the dict stays sound, and the only fault is running out of memory.
-/
theorem dict_refines_map (type : DictType K) (canResize : ResizeEnable) (calls : List (Call K V)) :
    Meets (runCalls (serve type) ⟨canResize, dictCreate⟩ calls)
      (fun fault => fault = .outOfMemory) fun result =>
        result.2.dict.Sound type ∧
          SpecRun MapSpec (fun _ => none) calls result.1 result.2.dict.toMap := by
  refine (runCalls_simulates (serve type) (serve_simulates type) calls
    ⟨canResize, dictCreate⟩ (fun _ => none) ⟨create_sound type, create_toMap⟩).mono ?_
  rintro ⟨replies, server⟩ ⟨final, ran, sound, same⟩
  exact ⟨sound, same ▸ ran⟩

end LearningNotes.Dict
