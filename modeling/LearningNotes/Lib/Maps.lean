import LearningNotes.Lib.Chains

/-! The finite map that a collection of keyed members stands for. -/

namespace LearningNotes.Lib

variable {α K V : Type} [DecidableEq K]

def insertKey (map : K → Option V) (key : K) (val : V) : K → Option V :=
  fun other => if other = key then some val else map other

def eraseKey (map : K → Option V) (key : K) : K → Option V :=
  fun other => if other = key then none else map other

/-- What holds of the new value and of all old ones holds after a change at one place. -/
theorem forall_changed {P : K → V → Prop} {map : K → V} {key : K} {val : V} (new : P key val)
    (old : ∀ other, P other (map other)) (other : K) :
    P other (if other = key then val else map other) := by
  split
  · rename_i same
    exact same ▸ new
  · exact old other

theorem eraseKey_absent {map : K → Option V} {key : K} (absent : map key = none) :
    eraseKey map key = map := by
  funext other
  rw [eraseKey]
  split
  · rename_i same
    rw [same, absent]
  · rfl

theorem insertKey_insertKey (map : K → Option V) (key : K) (first second : V) :
    insertKey (insertKey map key first) key second = insertKey map key second := by
  funext other
  by_cases same : other = key
  · simp [insertKey, same]
  · simp [insertKey, same]

variable (key : α → K) (val : α → V)

def keyedMap (members : List α) (wanted : K) : Option V :=
  (lookupKey key members wanted).map val

variable {members others : List α}

section

variable (distinct : (members.map key).Nodup)
include distinct

theorem keyedMap_perm (reordered : members.Perm others) :
    keyedMap key val others = keyedMap key val members := by
  funext wanted
  rw [keyedMap, keyedMap, lookupKey_perm key distinct reordered]

theorem keyedMap_of_mem {member : α}
    (inside : member ∈ members) : keyedMap key val members (key member) = some (val member) := by
  rw [keyedMap, (lookupKey_eq_some key distinct).mpr ⟨inside, rfl⟩, Option.map_some]

omit distinct in
theorem keyedMap_eq_none {wanted : K} :
    keyedMap key val members wanted = none ↔ ∀ member ∈ members, key member ≠ wanted := by
  rw [keyedMap, Option.map_eq_none_iff, lookupKey_eq_none]

theorem keyedMap_eq_some {wanted : K} {found : V} :
    keyedMap key val members wanted = some found ↔
      ∃ member ∈ members, key member = wanted ∧ val member = found := by
  rw [keyedMap, Option.map_eq_some_iff]
  simp only [lookupKey_eq_some key distinct, and_assoc]

theorem keyedMap_insert {member : α} (added : members.Perm (member :: others)) :
    keyedMap key val members = insertKey (keyedMap key val others) (key member) (val member) := by
  funext wanted
  rw [keyedMap, lookupKey_perm key distinct added, lookupKey_cons, insertKey]
  by_cases same : wanted = key member
  · simp [same]
  · simp [same, Ne.symm same, keyedMap]

theorem keyedMap_erase {member : α} (removed : members.Perm (member :: others)) :
    keyedMap key val others = eraseKey (keyedMap key val members) (key member) := by
  have order : (key member :: others.map key).Nodup :=
    (removed.map key).nodup_iff.mp distinct
  have absent : keyedMap key val others (key member) = none := by
    apply (keyedMap_eq_none key val).mpr
    intro other inside clash
    exact (List.nodup_cons.mp order).1 (clash ▸ List.mem_map_of_mem inside)
  rw [keyedMap_insert key val distinct removed]
  funext wanted
  by_cases same : wanted = key member
  · simp [eraseKey, same, absent]
  · simp [eraseKey, insertKey, same]

end

theorem keyedMap_overwrite {before after : List α} (distinct : (before.map key).Nodup)
    {member new : α} (old : before.Perm (member :: others))
    (changed : after.Perm (new :: others)) (same : key new = key member) :
    keyedMap key val after = insertKey (keyedMap key val before) (key member) (val new) := by
  have alsoDistinct : (after.map key).Nodup := by
    rw [(changed.map key).nodup_iff, List.map_cons, same, ← List.map_cons,
      ← (old.map key).nodup_iff]
    exact distinct
  rw [keyedMap_insert key val alsoDistinct changed, keyedMap_insert key val distinct old, same,
    insertKey_insertKey]

/-! ### Members in the order of their keys -/

def findMember (members : List (K × V)) (wanted : K) : Option V :=
  keyedMap Prod.fst Prod.snd members wanted

def insertMember (cmp : K → K → Ordering) (key : K) (val : V) : List (K × V) → List (K × V)
  | [] => [(key, val)]
  | first :: rest =>
    if first.1 = key then (key, val) :: rest
    else if cmp key first.1 = .lt then (key, val) :: first :: rest
    else first :: insertMember cmp key val rest

def removeMember (members : List (K × V)) (key : K) : List (K × V) :=
  members.filter fun member => member.1 ≠ key

theorem findMember_cons (member : K × V) (members : List (K × V)) :
    findMember (member :: members) = insertKey (findMember members) member.1 member.2 := by
  funext wanted
  simp only [findMember, keyedMap, lookupKey_cons, insertKey]
  by_cases same : wanted = member.1
  · simp [same]
  · simp [same, Ne.symm same]

/-- Wherever a member is put, the map is changed at its key. -/
theorem findMember_insertMember (cmp : K → K → Ordering) (key : K) (val : V)
    (members : List (K × V)) :
    findMember (insertMember cmp key val members) = insertKey (findMember members) key val := by
  induction members with
  | nil => exact findMember_cons (key, val) []
  | cons first rest ih =>
    rw [insertMember]
    split_ifs with same
    · rw [findMember_cons, findMember_cons, same, insertKey_insertKey]
    · exact findMember_cons (key, val) (first :: rest)
    · rw [findMember_cons, findMember_cons, ih]
      funext other
      by_cases here : other = first.1
      · simp [insertKey, here, same]
      · simp [insertKey, here]

theorem findMember_removeMember (members : List (K × V)) (key : K) :
    findMember (removeMember members key) = eraseKey (findMember members) key := by
  induction members with
  | nil => exact (eraseKey_absent rfl).symm
  | cons first rest ih =>
    rw [removeMember, List.filter_cons]
    funext other
    by_cases same : first.1 = key
    · rw [if_neg (by simp [same]), ← removeMember, ih, findMember_cons]
      by_cases here : other = key
      · simp [eraseKey, here]
      · simp [eraseKey, insertKey, here, same]
    · rw [if_pos (by simp [same]), findMember_cons, findMember_cons, ← removeMember, ih]
      by_cases here : other = first.1
      · simp [eraseKey, insertKey, here, same]
      · simp [eraseKey, insertKey, here]

end LearningNotes.Lib
