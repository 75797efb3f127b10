import LearningNotes.Hash.Ziplist
import Mathlib.Data.Set.Card

/-! Every run of calls on a hash, in whatever encoding, is a run of the same calls on a map. -/

namespace LearningNotes.Hash

open Lib Util List
open Prod (fst snd)
open Ziplist (Points toValue space uint32Max)

/-! ### The map -/

noncomputable def mapCall (map : Bytes → Option Bytes) : Call → Reply × (Bytes → Option Bytes)
  | .set field value => (.updated (map field).isSome, insertKey map field value)
  | .delete field => (.deleted (map field).isSome, eraseKey map field)
  | .getValue field => (.value (map field), map)
  | .exists_ field => (.found (map field).isSome, map)
  | .getValueLength field => (.number (((map field).map List.length).getD 0), map)
  | .length => (.number {field | (map field).isSome}.ncard, map)
  | .tryConversion _ => (.nothing, map)

noncomputable def mapRun : (Bytes → Option Bytes) → List Call → List Reply × (Bytes → Option Bytes)
  | map, [] => ([], map)
  | map, call :: calls =>
    let (reply, map) := mapCall map call
    let (replies, map) := mapRun map calls
    (reply :: replies, map)

/-- The fields and values may need a ziplist of the maximal size. -/
def Crowded (map : Bytes → Option Bytes) : Prop :=
  ∃ pairs : List (Bytes × Bytes), (pairs.map fst).Nodup ∧
    keyedMap fst snd pairs = map ∧ uint32Max ≤ space (flat pairs)

def Overflows (map : Bytes → Option Bytes) (calls : List Call) : Prop :=
  ∃ finished rest, calls = finished ++ rest ∧ Crowded (mapRun map finished).2

/-- The fields and values have lengths of 32 bits. -/
def Call.Short : Call → Prop
  | .set field value => field.length < 2 ^ 32 ∧ value.length < 2 ^ 32
  | .delete field | .getValue field | .exists_ field | .getValueLength field =>
    field.length < 2 ^ 32
  | .length | .tryConversion _ => True

/-- Every value has a length of 32 bits. -/
def ShortValues (map : Bytes → Option Bytes) : Prop :=
  ∀ field value, map field = some value → value.length < 2 ^ 32

theorem mapCall_shortValues {map : Bytes → Option Bytes} {call : Call} (values : ShortValues map)
    (short : call.Short) : ShortValues (mapCall map call).2 := by
  cases call with
  | set name new =>
    -- The field has the new value, and every other field the one it had.
    intro field value found
    by_cases same : field = name
    · simp only [mapCall, insertKey, same, if_true, Option.some.injEq] at found
      exact found ▸ short.2
    · simp only [mapCall, insertKey, same, if_false] at found
      exact values field value found
  | delete name =>
    intro field value found
    by_cases same : field = name
    · simp [mapCall, eraseKey, same] at found
    · simp only [mapCall, eraseKey, same, if_false] at found
      exact values field value found
  | getValue | exists_ | getValueLength | length | tryConversion => exact values

theorem ncard_keyedMap {α : Type} {key : α → Bytes} {val : α → Bytes} {members : List α}
    (distinct : (members.map key).Nodup) :
    {field | (keyedMap key val members field).isSome}.ncard = members.length := by
  -- The fields with a value are the keys of the members, of which none is named twice.
  have support : {field | (keyedMap key val members field).isSome} =
      ((members.map key).toFinset : Set Bytes) := by
    ext field
    rw [Set.mem_ofPred_eq, Option.isSome_iff_exists]
    simp only [keyedMap_eq_some key val distinct, coe_toFinset, mem_map]
    constructor
    · rintro ⟨_, member, listed, named, _⟩
      exact ⟨member, listed, named⟩
    · rintro ⟨member, listed, named⟩
      exact ⟨_, member, listed, named, rfl⟩
  rw [support, Set.ncard_coe_finset, toFinset_card_of_nodup distinct, length_map]

/-! ### What an object stands for -/

def Holds (type : Dict.DictType Bytes) (o : Object) (map : Bytes → Option Bytes) : Prop :=
  match o with
  | .ziplist zl => ∃ pairs : List (Bytes × Bytes), (pairs.map fst).Nodup ∧
      Ziplist.Holds zl (flat pairs) ∧ keyedMap fst snd pairs = map
  | .ht d => d.Sound type ∧ d.toMap = map

/-- A call may fail if memory runs out, or a ziplist gets too large. -/
def Excused (map next : Bytes → Option Bytes) (fault : Fault) : Prop :=
  fault = .dict .outOfMemory ∨ fault = .ziplist .tooLarge ∧ (Crowded map ∨ Crowded next)

section Objects

variable {type : Dict.DictType Bytes} {map before next : Bytes → Option Bytes} {env : Env}

theorem excused_of_tooLarge {pairs : List (Bytes × Bytes)} {needed : Nat}
    (distinct : (pairs.map fst).Nodup)
    (which : keyedMap fst snd pairs = map ∨ keyedMap fst snd pairs = next)
    (few : needed ≤ space (flat pairs)) {fault : Ziplist.Fault}
    (large : Ziplist.TooLarge needed fault) : Excused map next (.ziplist fault) := by
  -- What was needed is no more than the space of the whole hash before or after the call.
  have crowded : Crowded (keyedMap fst snd pairs) :=
    ⟨pairs, distinct, rfl, Nat.le_trans large.2 few⟩
  refine .inr ⟨congrArg Fault.ziplist large.1, ?_⟩
  rcases which with same | same
  · exact .inl (same ▸ crowded)
  · exact .inr (same ▸ crowded)

variable {α : Type} {wanted : α → Prop} {front back : List (Bytes × Bytes)} {d : Dict Bytes Bytes}

theorem meets_onZiplist {computation : Except Ziplist.Fault α} {permitted : Fault → Prop}
    (met : Meets computation (fun fault => permitted (.ziplist fault)) wanted) :
    Meets (onZiplist computation) permitted wanted :=
  meets_mapError.mpr met

theorem meets_onDict {computation : Except Dict.Fault α}
    (met : Meets computation (· = .outOfMemory) wanted) :
    Meets (onDict computation) (Excused map next) wanted :=
  meets_mapError.mpr (met.permit fun _ same => .inl (congrArg Fault.dict same))

/-- The iterator is at the first pair that is left, if there is one. -/
def Reaches (zl : Bytes) (front back : List (Bytes × Bytes)) (fptr : Option Nat) : Prop :=
  if back = [] then fptr = none
  else ∃ p, fptr = some p ∧ Points zl (flat (front ++ back)) (2 * front.length) p

variable {zl field value : Bytes} {o : Object}

theorem reaches_next {vptr : Nat}
    (there : Points zl (flat (front ++ (field, value) :: back)) (2 * front.length + 1) vptr) :
    ∃ fptr, Ziplist.ziplistNext zl vptr = .ok fptr ∧
      Reaches zl (front ++ [(field, value)]) back fptr := by
  -- Whether there is another pair is seen by the length of the list of strings.
  have onward := there.next (by simp; omega)
  unfold Reaches
  split at onward
  · rename_i more
    have some_ : back ≠ [] := fun none_ => by simp [none_] at more; omega
    obtain ⟨p, moved, points⟩ := onward
    refine ⟨some p, moved, ?_⟩
    rw [if_neg some_]
    exact ⟨p, rfl, by simpa [Nat.mul_add] using points⟩
  · rename_i last
    have none_ : back = [] := by
      rw [← length_eq_zero_iff]
      simp at last
      omega
    exact ⟨none, onward, by rw [if_pos none_]⟩

theorem convertFrom_meets {zl : Bytes} {back : List (Bytes × Bytes)} {front : List (Bytes × Bytes)}
    {fuel : Nat} {fptr : Option Nat} {d : Dict Bytes Bytes}
    (distinct : ((front ++ back).map fst).Nodup) (pointer : Reaches zl front back fptr)
    (fueled : back.length ≤ fuel) (sound : d.Sound type) (same : d.toMap = keyedMap fst snd front) :
    Meets (convertFrom type env zl fuel fptr d) (Excused map next) fun d =>
      d.Sound type ∧ d.toMap = keyedMap fst snd (front ++ back) := by
  -- The induction is on the pairs that are left.
  induction back generalizing front fuel fptr d with
  | nil =>
    subst pointer
    have finished : convertFrom type env zl fuel none d = .ok d := by cases fuel <;> rfl
    rw [finished, append_nil]
    exact ⟨sound, same⟩
  | cons pair back ih =>
    obtain ⟨field, value⟩ := pair
    obtain ⟨p, rfl, points⟩ := pointer
    cases fuel with
    | zero => cases fueled
    | succ fuel =>
      have view : front ++ (field, value) :: back = (front ++ [(field, value)]) ++ back := by simp
      have behind := points.next (by simp)
      rw [if_pos (by simp; omega)] at behind
      obtain ⟨vptr, moved, there⟩ := behind
      obtain ⟨here, beside⟩ := getElem?_flat front back field value
      have absent : keyedMap fst snd front field = none := by
        apply (keyedMap_eq_none fst snd).mpr
        intro pair listed clash
        rw [map_append, nodup_append] at distinct
        exact distinct.2.2 _ (mem_map_of_mem listed) field (by simp) clash
      rw [convertFrom]
      simp only [moved, onZiplist_ok, ok_bind, currentObjectNewSds, points.get here,
        there.get beside, pure_bind, Ziplist.bytes_toValue]
      refine Meets.bind (meets_onDict (d.dictAdd_meets sound env.canResize field value
        env.uninitialized)) ?_
      rintro ⟨ret, d'⟩ ⟨kept, replied, acted⟩
      rw [same, absent] at replied acted
      subst replied
      have grown : d'.toMap = keyedMap fst snd (front ++ [(field, value)]) := by
        have some_ : ((front ++ [(field, value)]).map fst).Nodup := by
          rw [view, map_append, nodup_append] at distinct
          exact distinct.1
        rw [acted, if_pos (by simp), keyedMap_insert (fst : Bytes × Bytes → Bytes) snd some_
          (perm_append_singleton _ _)]
      rw [view] at distinct ⊢
      obtain ⟨fptr, moved, pointer⟩ := reaches_next there
      rw [moved]
      exact ih distinct pointer (Nat.le_of_succ_le_succ fueled) kept grown

theorem hashTypeConvert_meets (holds : Holds type (.ziplist zl) map) :
    Meets (hashTypeConvert type env (.ziplist zl)) (Excused before next) fun o =>
      Holds type o map := by
  -- The loop starts at the first pair with an empty dict.
  obtain ⟨pairs, distinct, held, same⟩ := holds
  have index := Ziplist.ziplistIndex_head held
  obtain ⟨fptr, found, pointer⟩ : ∃ fptr, Ziplist.ziplistIndex zl 0 = .ok fptr ∧
      Reaches zl [] pairs fptr := by
    unfold Reaches
    split at index
    · rename_i none_
      have empty : pairs = [] := by
        cases pairs with
        | nil => rfl
        | cons pair rest => cases none_
      exact ⟨none, index, by rw [if_pos empty]⟩
    · rename_i some_
      obtain ⟨p, index, points⟩ := index
      refine ⟨some p, index, ?_⟩
      rw [if_neg fun none_ => some_ (by rw [none_]; rfl)]
      exact ⟨p, rfl, points⟩
  have enough : pairs.length ≤ zl.length := by
    have bound := held.length_le
    rw [length_flat] at bound
    omega
  rw [hashTypeConvert, found, onZiplist_ok, ok_bind]
  refine Meets.bind (@convertFrom_meets type before next env zl pairs [] zl.length fptr
    Dict.dictCreate distinct pointer enough (Dict.create_sound type) Dict.create_toMap) ?_
  rintro d ⟨sound, whole⟩
  exact ⟨sound, whole.trans same⟩

theorem hashTypeTryConversion_meets (holds : Holds type o map) (argv : List Argument) :
    Meets (hashTypeTryConversion type env o argv) (Excused map next) fun o => Holds type o map := by
  -- Both reasons to convert lead to the same conversion.
  cases o with
  | ht d => exact holds
  | ziplist zl =>
    obtain ⟨pairs, -, ⟨_, entries, -, represented⟩, -⟩ := id holds
    obtain ⟨length, shape, -⟩ := represented.shape
    have bytes : Ziplist.ziplistBytes zl = _ :=
      shape ▸ Ziplist.ziplistBytes_image represented.stored
    rw [hashTypeTryConversion]
    dsimp only
    split
    · exact hashTypeConvert_meets holds
    · rw [Ziplist.ziplistSafeToAdd, Ziplist.ziplistBlobLen, bytes, ok_bind]
      change Meets (ite _ _ _) _ _
      split
      · exact hashTypeConvert_meets holds
      · exact holds

theorem hashTypeLength_ziplist (holds : Holds type (.ziplist zl) map) :
    ∃ counted, hashTypeLength (.ziplist zl) =
        .ok ({field | (map field).isSome}.ncard, .ziplist counted) ∧
      Holds type (.ziplist counted) map := by
  -- Every field has one value.
  obtain ⟨pairs, distinct, held, rfl⟩ := holds
  obtain ⟨counted, found, held⟩ := Ziplist.ziplistLen_eq held
  refine ⟨counted, ?_, pairs, distinct, held, rfl⟩
  rw [hashTypeLength, found, onZiplist_ok, ok_bind, ncard_keyedMap distinct, length_flat]
  dsimp only
  rw [Nat.mul_div_cancel_left _ (by decide)]
  rfl

theorem hashTypeLength_meets (holds : Holds type o map) :
    Meets (hashTypeLength o) (Excused map next) fun result =>
      result.1 = {field | (map field).isSome}.ncard ∧ Holds type result.2 map := by
  -- The counters of both tables together count the entries.
  cases o with
  | ziplist zl =>
    obtain ⟨counted, found, held⟩ := hashTypeLength_ziplist holds
    rw [found]
    exact ⟨rfl, held⟩
  | ht d =>
    obtain ⟨sound, rfl⟩ := holds
    refine ⟨?_, sound, rfl⟩
    have counted := @ncard_keyedMap _ _ Dict.Entry.val _ sound.distinct
    rw [Dict.entries, length_append, ← sound.first.counted, ← sound.second.counted] at counted
    exact counted.symm

theorem hashTypeGetFromHashTable_meets (holds : Holds type (.ht d) map) (field : Bytes) :
    Meets (hashTypeGetFromHashTable type env d field) (Excused map next) fun result =>
      result.1 = map field ∧ Holds type (.ht result.2) map := by
  -- The dict may have moved entries, but it is the same map.
  obtain ⟨sound, rfl⟩ := holds
  refine Meets.bind (meets_onDict (d.dictFind_toMap sound env.canResize field).faultless) ?_
  rintro ⟨de, d'⟩ ⟨kept, acted, outcome⟩
  cases de with
  | none => exact ⟨(show d.toMap field = none from outcome).symm, kept, acted⟩
  | some ref =>
    obtain ⟨val, points, some_⟩ := outcome
    refine Meets.bind (meets_onDict (Dict.derefOption_points points)) ?_
    rintro _ rfl
    exact ⟨some_.symm, kept, acted⟩

theorem hashTypeGetFromZiplist_map (holds : Holds type (.ziplist zl) map)
    (short : field.length < 2 ^ 32) :
    hashTypeGetFromZiplist zl field = .ok ((map field).map toValue) := by
  obtain ⟨pairs, distinct, held, rfl⟩ := holds
  exact hashTypeGetFromZiplist_eq held distinct short

theorem hashTypeGetValue_meets (holds : Holds type o map) (values : ShortValues map)
    (short : field.length < 2 ^ 32) :
    Meets (hashTypeGetValue type env o field) (Excused map next) fun result =>
      result.1.map Ziplist.Value.bytes = map field ∧ Holds type result.2 map := by
  -- A ziplist answers with the string or the integer that the value is stored as.
  cases o with
  | ziplist zl =>
    rw [hashTypeGetValue, hashTypeGetFromZiplist_map holds short]
    refine ⟨?_, holds⟩
    cases map field with
    | none => rfl
    | some value => exact congrArg some (Ziplist.bytes_toValue value)
  | ht d =>
    refine Meets.bind (hashTypeGetFromHashTable_meets holds field) ?_
    rintro ⟨value, d⟩ ⟨replied, held⟩
    subst replied
    refine ⟨?_, held⟩
    -- No value is long enough for its length to be cut.
    cases found : map field with
    | none => rfl
    | some value => exact congrArg some (asUnsigned_of_lt (values field value found))

theorem hashTypeExists_meets (holds : Holds type o map) (short : field.length < 2 ^ 32) :
    Meets (hashTypeExists type env o field) (Excused map next) fun result =>
      result.1 = (map field).isSome ∧ Holds type result.2 map := by
  -- Whether there is a value does not depend on how it is stored.
  cases o with
  | ziplist zl =>
    rw [hashTypeExists, hashTypeGetFromZiplist_map holds short]
    exact ⟨Option.isSome_map, holds⟩
  | ht d =>
    refine Meets.bind (hashTypeGetFromHashTable_meets holds field) ?_
    rintro ⟨value, d⟩ ⟨replied, held⟩
    exact ⟨congrArg Option.isSome replied, held⟩

theorem hashTypeGetValueLength_meets (holds : Holds type o map) (short : field.length < 2 ^ 32) :
    Meets (hashTypeGetValueLength type env o field) (Excused map next) fun result =>
      result.1 = ((map field).map List.length).getD 0 ∧ Holds type result.2 map := by
  cases o with
  | ziplist zl =>
    rw [hashTypeGetValueLength, hashTypeGetFromZiplist_map holds short, ok_bind]
    cases found : map field with
    | none => exact ⟨rfl, holds⟩
    | some value =>
      -- An integer has as many characters as the string it was made from.
      have text := Ziplist.bytes_toValue value
      cases kind : toValue value with
      | str s =>
        rw [kind] at text
        simp only [Option.map_some, kind]
        exact ⟨congrArg List.length text, holds⟩
      | int vll =>
        rw [kind] at text
        simp only [Option.map_some, kind]
        exact ⟨(sdigits10_eq vll).trans (congrArg List.length text), holds⟩
  | ht d =>
    refine Meets.bind (hashTypeGetFromHashTable_meets holds field) ?_
    rintro ⟨value, d⟩ ⟨replied, held⟩
    exact ⟨congrArg (fun found => (Option.map List.length found).getD 0) replied, held⟩

theorem keyedMap_set {old : Bytes} (value : Bytes)
    (distinct : ((front ++ (field, old) :: back).map fst).Nodup) :
    keyedMap fst snd (front ++ (field, value) :: back) =
      insertKey (keyedMap fst snd (front ++ (field, old) :: back)) field value :=
  keyedMap_overwrite fst snd distinct perm_middle perm_middle rfl

theorem setInZiplist_meets (holds : Holds type (.ziplist zl) map)
    (short : field.length < 2 ^ 32 ∧ value.length < 2 ^ 32) :
    Meets (setInZiplist env zl field value) (Excused map (insertKey map field value)) fun result =>
      result.1 = (map field).isSome ∧ Holds type (.ziplist result.2) (insertKey map field value) := by
  obtain ⟨pairs, distinct, held, rfl⟩ := holds
  rw [setInZiplist]
  obtain ⟨absent, none_⟩ | ⟨front, old, back, fptr, shape, found, points⟩ :=
    findField_eq held short.1
  · -- The new pair is appended, first the field and then the value.
    have missing := (keyedMap_eq_none fst snd).mpr absent
    have distinctToo : ((pairs ++ [(field, value)]).map fst).Nodup := by
      rw [map_append, nodup_append]
      refine ⟨distinct, by simp, ?_⟩
      rintro other listed _ (_ | ⟨_, ⟨⟩⟩) rfl
      obtain ⟨pair, listed, named⟩ := mem_map.mp listed
      exact absent pair listed named
    have grown : keyedMap fst snd (pairs ++ [(field, value)]) =
        insertKey (keyedMap fst snd pairs) field value :=
      keyedMap_insert fst snd distinctToo (perm_append_singleton _ _)
    have strings : flat pairs ++ [field] ++ [value] = flat (pairs ++ [(field, value)]) := by
      simp [flat_append, flat]
    rw [none_, ok_bind, asUnsigned_of_lt short.1, asUnsigned_of_lt short.2]
    refine Meets.bind (meets_onZiplist ((held.push_tail env.first field).permit ?_)) ?_
    · intro fault large
      exact excused_of_tooLarge distinctToo (.inr grown) (strings ▸ space_append_le _ _) large
    intro zl held
    refine Meets.bind (meets_onZiplist ((held.push_tail env.second value).permit ?_)) ?_
    · intro fault large
      exact excused_of_tooLarge distinctToo (.inr grown) (Nat.le_of_eq (congrArg space strings)) large
    · intro zl held
      rw [strings] at held
      exact ⟨by rw [missing]; rfl, pairs ++ [(field, value)], distinctToo, held, grown⟩
  · -- The value behind the field is replaced.
    subst shape
    obtain ⟨vptr, behind, there⟩ := valueOf_eq points
    have stored : keyedMap fst snd (front ++ (field, old) :: back) field = some old :=
      keyedMap_of_mem fst snd distinct (show (field, old) ∈ front ++ (field, old) :: back by simp)
    have distinctToo : ((front ++ (field, value) :: back).map fst).Nodup := by
      simpa using distinct
    have changed := keyedMap_set value distinct
    rw [found, asUnsigned_of_lt short.2]
    simp only [behind, ok_bind]
    have replaced := there.replace (by simp; omega) env.first value
    rw [set_flat] at replaced
    refine Meets.bind (meets_onZiplist (replaced.permit ?_)) ?_
    · intro fault large
      exact excused_of_tooLarge distinctToo (.inr changed) (Nat.le_refl _) large
    · intro zl held
      exact ⟨by rw [stored]; rfl, _, distinctToo, held, changed⟩

theorem setInHashTable_meets (holds : Holds type (.ht d) map) (field value : Bytes) :
    Meets (setInHashTable type env d field value) (Excused map next) fun result =>
      result.1 = (map field).isSome ∧ Holds type (.ht result.2) (insertKey map field value) := by
  -- A field that is there gets its value through the pointer, another one is added.
  obtain ⟨sound, rfl⟩ := holds
  refine Meets.bind (meets_onDict (d.dictFind_toMap sound env.canResize field).faultless) ?_
  rintro ⟨de, d'⟩ ⟨kept, acted, outcome⟩
  cases de with
  | none =>
    have missing : d.toMap field = none := outcome
    refine Meets.bind (meets_onDict (d'.dictAdd_meets kept env.canResize field value
      env.uninitialized)) ?_
    rintro ⟨ret, d''⟩ ⟨last, -, added⟩
    rw [acted, missing, if_pos (by rfl)] at added
    exact ⟨by rw [missing]; rfl, last, added⟩
  | some ref =>
    obtain ⟨old, points, some_⟩ := outcome
    refine Meets.bind (meets_onDict (Dict.dictSetVal_toMap kept points value)) ?_
    rintro d'' ⟨last, written⟩
    exact ⟨by rw [some_]; rfl, last, written.trans (congrArg (insertKey · field value) acted)⟩

theorem hashTypeSet_meets (holds : Holds type o map)
    (short : field.length < 2 ^ 32 ∧ value.length < 2 ^ 32) :
    Meets (hashTypeSet type env o field value) (Excused map (insertKey map field value))
      fun result => result.1 = (map field).isSome ∧
        Holds type result.2 (insertKey map field value) := by
  -- The conversion behind the change of a ziplist keeps the changed map.
  cases o with
  | ziplist zl =>
    refine Meets.bind (setInZiplist_meets holds short) ?_
    rintro ⟨update, zl⟩ ⟨replied, held⟩
    obtain ⟨counted, found, held⟩ := hashTypeLength_ziplist held
    dsimp only
    rw [found, ok_bind]
    split
    · refine Meets.bind (hashTypeConvert_meets held) ?_
      exact fun o held => ⟨replied, held⟩
    · exact ⟨replied, held⟩
  | ht d =>
    refine Meets.bind (setInHashTable_meets holds field value) ?_
    rintro ⟨update, d⟩ ⟨replied, held⟩
    exact ⟨replied, held⟩

theorem hashTypeDelete_meets (holds : Holds type o map) (short : field.length < 2 ^ 32) :
    Meets (hashTypeDelete type env o field) (Excused map (eraseKey map field))
      fun result => result.1 = (map field).isSome ∧ Holds type result.2 (eraseKey map field) := by
  cases o with
  | ziplist zl =>
    obtain ⟨pairs, distinct, held, rfl⟩ := holds
    rw [hashTypeDelete]
    obtain ⟨absent, none_⟩ | ⟨front, old, back, fptr, shape, found, points⟩ :=
      findField_eq held short
    · have missing := (keyedMap_eq_none fst snd).mpr absent
      rw [none_, eraseKey_absent missing]
      exact ⟨by rw [missing]; rfl, pairs, distinct, held, rfl⟩
    subst shape
    have stored : keyedMap fst snd (front ++ (field, old) :: back) field = some old :=
      keyedMap_of_mem fst snd distinct (show (field, old) ∈ front ++ (field, old) :: back by simp)
    have erased : keyedMap fst snd (front ++ back) =
        eraseKey (keyedMap fst snd (front ++ (field, old) :: back)) field :=
      keyedMap_erase fst snd distinct perm_middle
    have distinctToo : ((front ++ back).map fst).Nodup := by
      rw [(perm_middle.map fst).nodup_iff] at distinct
      exact (nodup_cons.mp distinct).2
    have excuse : ∀ {needed : Nat} {fault : Ziplist.Fault},
        needed ≤ space (flat (front ++ (field, old) :: back)) → Ziplist.TooLarge needed fault →
        Excused (keyedMap fst snd (front ++ (field, old) :: back))
          (eraseKey (keyedMap fst snd (front ++ (field, old) :: back)) field)
          (.ziplist fault) :=
      fun few large => excused_of_tooLarge distinct (.inl rfl) few large
    rw [found, ok_bind]
    -- Once the field is gone, the pointer leads to the value.
    refine Meets.bind (meets_onZiplist ((points.delete (by simp) env.first).permit ?_)) ?_
    · exact fun fault large => excuse (space_eraseIdx_le _ _) large
    intro zl points
    have inside : 2 * front.length <
        ((flat (front ++ (field, old) :: back)).eraseIdx (2 * front.length)).length := by
      rw [length_eraseIdx_of_lt (by simp)]
      simp
      omega
    refine Meets.bind (meets_onZiplist ((points.delete inside env.second).permit ?_)) ?_
    · exact fun fault large => excuse
        (Nat.le_trans (space_eraseIdx_le _ _) (space_eraseIdx_le _ _)) large
    · intro zl points
      have held := points.holds
      rw [eraseIdx_flat] at held
      exact ⟨by rw [stored]; rfl, _, distinctToo, held, erased⟩
  | ht d =>
    obtain ⟨sound, rfl⟩ := holds
    refine Meets.bind (meets_onDict (d.dictDelete_meets sound env.canResize field).faultless) ?_
    rintro ⟨status, d'⟩ ⟨kept, replied, acted⟩
    dsimp only at kept replied acted ⊢
    cases found : (d.toMap field).isSome with
    | false =>
      rw [found, if_neg Bool.false_ne_true] at replied
      rw [replied, if_neg (by simp)]
      exact ⟨rfl, kept, acted⟩
    | true =>
      rw [found, if_pos rfl] at replied
      rw [replied, if_pos rfl]
      split
      · refine Meets.bind (meets_onDict (d'.dictResize_toMap kept env.canResize)) ?_
        rintro ⟨_, d''⟩ ⟨last, same⟩
        exact ⟨rfl, last, same.trans acted⟩
      · exact ⟨rfl, kept, acted⟩

theorem serve_holds {o : Object} (holds : Holds type o map) (values : ShortValues map)
    (made : Env × Call) (short : made.2.Short) :
    Meets (serve type o made) (Excused map (mapCall map made.2).2) fun result =>
      result.1 = (mapCall map made.2).1 ∧ Holds type result.2 (mapCall map made.2).2 := by
  -- One lemma for each function of the source.
  obtain ⟨env, call⟩ := made
  cases call with
  | set field value =>
    refine Meets.bind (hashTypeSet_meets holds short) ?_
    rintro ⟨update, o⟩ ⟨replied, held⟩
    exact ⟨congrArg Reply.updated replied, held⟩
  | delete field =>
    refine Meets.bind (hashTypeDelete_meets holds short) ?_
    rintro ⟨deleted, o⟩ ⟨replied, held⟩
    exact ⟨congrArg Reply.deleted replied, held⟩
  | length =>
    refine Meets.bind (hashTypeLength_meets holds) ?_
    rintro ⟨length, o⟩ ⟨replied, held⟩
    exact ⟨congrArg Reply.number replied, held⟩
  | tryConversion argv =>
    refine Meets.bind (hashTypeTryConversion_meets holds argv) ?_
    exact fun o held => ⟨rfl, held⟩
  | getValue field =>
    refine Meets.bind (hashTypeGetValue_meets holds values short) ?_
    rintro ⟨value, o⟩ ⟨replied, held⟩
    exact ⟨congrArg Reply.value replied, held⟩
  | exists_ field =>
    refine Meets.bind (hashTypeExists_meets holds short) ?_
    rintro ⟨found, o⟩ ⟨replied, held⟩
    exact ⟨congrArg Reply.found replied, held⟩
  | getValueLength field =>
    refine Meets.bind (hashTypeGetValueLength_meets holds short) ?_
    rintro ⟨length, o⟩ ⟨replied, held⟩
    exact ⟨congrArg Reply.number replied, held⟩

theorem run_holds (calls : List (Env × Call)) {o : Object} {map : Bytes → Option Bytes}
    (holds : Holds type o map) (values : ShortValues map)
    (short : ∀ made ∈ calls, made.2.Short) :
    Meets (runCalls (serve type) o calls)
      (fun fault => fault = .dict .outOfMemory ∨
        fault = .ziplist .tooLarge ∧ Overflows map (calls.map snd))
      fun result => result.1 = (mapRun map (calls.map snd)).1 ∧
        Holds type result.2 (mapRun map (calls.map snd)).2 := by
  -- Call by call; a ziplist that overflows does so before or after the first call, or later.
  induction calls generalizing o map with
  | nil => exact ⟨rfl, holds⟩
  | cons made calls ih =>
    have first := serve_holds holds values made (short made mem_cons_self)
    have kept := mapCall_shortValues values (short made mem_cons_self)
    refine Meets.bind (first.permit ?_) ?_
    · rintro fault (memory | ⟨large, crowded | crowded⟩)
      · exact .inl memory
      · exact .inr ⟨large, [], _, rfl, crowded⟩
      · exact .inr ⟨large, [made.2], calls.map snd, rfl, crowded⟩
    · rintro ⟨reply, o⟩ ⟨replied, held⟩
      have rest := ih held kept fun later listed => short later (mem_cons_of_mem _ listed)
      refine Meets.bind (rest.permit ?_) ?_
      · rintro fault (memory | ⟨large, finished, rest, parts, crowded⟩)
        · exact .inl memory
        · exact .inr ⟨large, made.2 :: finished, rest, by rw [map_cons, parts]; rfl, crowded⟩
      · rintro ⟨replies, o⟩ ⟨others, held⟩
        exact ⟨cons_eq_cons.mpr ⟨replied, others⟩, held⟩

end Objects

theorem createHashObject_holds (type : Dict.DictType Bytes) :
    Holds type createHashObject fun _ => none :=
  ⟨[], nodup_nil, Ziplist.ziplistNew_holds, rfl⟩

/-- Whatever calls are made on a hash with fields and values that are shorter than `2 ^ 32` bytes,
and whenever its encoding changes, the replies are those of the map. -/
theorem hash_refines_map (type : Dict.DictType Bytes) (calls : List (Env × Call))
    (short : ∀ made ∈ calls, made.2.Short) :
    Meets (runCalls (serve type) createHashObject calls)
      (fun fault => fault = .dict .outOfMemory ∨
        fault = .ziplist .tooLarge ∧ Overflows (fun _ => none) (calls.map snd))
      fun result => result.1 = (mapRun (fun _ => none) (calls.map snd)).1 := by
  have values : ShortValues fun _ => none := by
    rintro field value ⟨⟩
  refine (run_holds calls (createHashObject_holds type) values short).mono ?_
  exact fun result holds => holds.1

def oneChain : Dict.DictType Bytes := ⟨fun _ => 0, none⟩

def twoFields : Env := ⟨2, 64, .enable, fun _ => 0, fun _ => 0, []⟩

def mixedCalls : List (Env × Call) :=
  [(twoFields, .set [49] [50]), (twoFields, .exists_ [50]), (twoFields, .set [50] [49, 48]),
    (twoFields, .getValueLength [50]), (twoFields, .set [51] []), (twoFields, .delete [49]),
    (twoFields, .getValue [50]), (twoFields, .length)]

theorem mixedCalls_refine_map :
    (∀ made ∈ mixedCalls, made.2.Short) ∧
      Meets (runCalls (serve oneChain) createHashObject mixedCalls)
        (fun fault => fault = .dict .outOfMemory ∨
          fault = .ziplist .tooLarge ∧ Overflows (fun _ => none) (mixedCalls.map snd))
        fun result => result.1 = (mapRun (fun _ => none) (mixedCalls.map snd)).1 := by
  have short : ∀ made ∈ mixedCalls, made.2.Short := by simp [mixedCalls, Call.Short]
  exact ⟨short, hash_refines_map oneChain mixedCalls short⟩

theorem findField_congr {zl field other : Bytes} (same : asUnsigned field = asUnsigned other) :
    findField zl field = findField zl other := by
  rw [findField, findField, same]

theorem exists_long_field : ∃ long : Bytes, long.length = 2 ^ 32 + 1 ∧ asUnsigned long = [97] := by
  -- The remainder of the length is one.
  refine ⟨List.replicate (2 ^ 32 + 1) 97, length_replicate, ?_⟩
  have first : min ((2 ^ 32 + 1) % 2 ^ 32) (2 ^ 32 + 1) = 1 := by decide
  rw [asUnsigned, length_replicate, take_replicate, first]
  rfl

def oneField : Bytes := [16, 0, 0, 0, 13, 0, 0, 0, 2, 0, 0, 1, 97, 3, 242, 255]

theorem oneField_stored : serve oneChain createHashObject (twoFields, .set [97] [49]) =
    .ok (.updated false, .ziplist oneField) := by
  rfl

theorem oneField_found :
    hashTypeExists oneChain twoFields (.ziplist oneField) [97] = .ok (true, .ziplist oneField) := by
  rfl

theorem oneField_looked {long : Bytes} (cut : asUnsigned long = [97]) :
    serve oneChain (.ziplist oneField) (twoFields, .exists_ long) =
      .ok (.found true, .ziplist oneField) := by
  -- The ziplist is searched for what is seen of the field.
  have same : asUnsigned long = asUnsigned [97] := cut
  have found : hashTypeExists oneChain twoFields (.ziplist oneField) long =
      hashTypeExists oneChain twoFields (.ziplist oneField) [97] := by
    simp only [hashTypeExists, hashTypeGetFromZiplist, findField_congr same]
  rw [serve]
  dsimp only
  rw [found, oneField_found]
  rfl

theorem exists_wrong_reply : ∃ calls replies o,
    runCalls (serve oneChain) createHashObject calls = .ok (replies, o) ∧
      replies ≠ (mapRun (fun _ => none) (calls.map snd)).1 := by
  -- The map tells the two fields apart.
  obtain ⟨long, size, cut⟩ := exists_long_field
  have other : long ≠ [97] := fun same => by simp [same] at size
  refine ⟨[(twoFields, .set [97] [49]), (twoFields, .exists_ long)],
    [.updated false, .found true], .ziplist oneField, ?_, ?_⟩
  · simp only [runCalls, oneField_stored, ok_bind, oneField_looked cut]
    rfl
  · simp [mapRun, mapCall, insertKey, other]

/-- A long field is taken for the short one that is seen of it. -/
theorem long_field_taken_for_short :
    ¬ ∀ (type : Dict.DictType Bytes) (calls : List (Env × Call)),
      Meets (runCalls (serve type) createHashObject calls)
        (fun fault => fault = .dict .outOfMemory ∨
          fault = .ziplist .tooLarge ∧ Overflows (fun _ => none) (calls.map snd))
        fun result => result.1 = (mapRun (fun _ => none) (calls.map snd)).1 := by
  intro refines
  obtain ⟨calls, replies, o, ran, wrong⟩ := exists_wrong_reply
  exact wrong ((refines oneChain calls).of_ok ran)

end LearningNotes.Hash
