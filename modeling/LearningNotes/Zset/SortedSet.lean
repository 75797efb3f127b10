import LearningNotes.Util.Sds
import Mathlib.Data.List.Nodup

/-! What a sorted set is for: elements with one score each, listed in order. -/

namespace LearningNotes.Zset

open Lib Util List

variable {S : Type} [LinearOrder S]

/-- Pairs in ascending order, in which no element occurs twice. -/
@[ext] structure SortedSet (S : Type) [LinearOrder S] where
  members : List (S × Bytes)
  sorted : members.Pairwise KeyLt
  unique : (members.map Prod.snd).Nodup

namespace SortedSet

def empty : SortedSet S := ⟨[], .nil, .nil⟩

def restrict (set : SortedSet S) (kept : List (S × Bytes)) (fewer : kept.Sublist set.members) :
    SortedSet S :=
  ⟨kept, set.sorted.sublist fewer, set.unique.sublist (fewer.map _)⟩

def filter (set : SortedSet S) (test : S × Bytes → Bool) : SortedSet S :=
  set.restrict (set.members.filter test) filter_sublist

@[simp] theorem filter_members (set : SortedSet S) (test : S × Bytes → Bool) :
    (set.filter test).members = set.members.filter test := rfl

/-- The members but those from one position up to another. -/
def removeSlice (set : SortedSet S) (from_ upTo : Nat) : SortedSet S :=
  set.restrict (set.members.take from_ ++ set.members.drop (max from_ upTo)) (by
    have parts : (set.members.take from_ ++ set.members.drop from_).Sublist set.members := by simp
    refine List.Sublist.trans (List.Sublist.append_left ?_ _) parts
    exact drop_sublist_drop_left _ (Nat.le_max_left _ _))

/-- A pair put where it belongs among others. -/
def placeKey (key : S × Bytes) (others : List (S × Bytes)) : List (S × Bytes) :=
  others.filter (fun other => decide (KeyLt other key)) ++
    key :: others.filter fun other => !decide (KeyLt other key)

theorem placeKey_perm (key : S × Bytes) (others : List (S × Bytes)) :
    (placeKey key others).Perm (key :: others) :=
  perm_middle.trans ((filter_append_perm _ _).cons _)

/-- A member put in its place leaves the set sorted. -/
theorem placeKey_sorted {key : S × Bytes} {others : List (S × Bytes)}
    (sorted : others.Pairwise KeyLt) (absent : key ∉ others) :
    (placeKey key others).Pairwise KeyLt := by
  -- What does not come before the pair comes after it.
  have behind : ∀ other ∈ others.filter (fun other => !decide (KeyLt other key)),
      KeyLt key other := by
    intro other listed
    rw [mem_filter] at listed
    have notBefore : ¬ KeyLt other key := by simpa using listed.2
    have different : key ≠ other := fun same => absent (same ▸ listed.1)
    exact (KeyLt.total different).resolve_right notBefore
  have before : ∀ other ∈ others.filter (fun other => decide (KeyLt other key)),
      KeyLt other key := fun other listed => of_decide_eq_true (mem_filter.mp listed).2
  rw [placeKey, pairwise_append, pairwise_cons]
  refine ⟨sorted.filter _, ⟨behind, sorted.filter _⟩, ?_⟩
  intro a inFront
  refine forall_mem_cons.mpr ⟨before a inFront, ?_⟩
  intro b later
  exact (before a inFront).trans (behind b later)

def others (set : SortedSet S) (ele : Bytes) : List (S × Bytes) :=
  set.members.filter fun member => member.2 ≠ ele

variable {set : SortedSet S} {ele : Bytes}

theorem mem_others {member : S × Bytes} :
    member ∈ set.others ele ↔ member ∈ set.members ∧ member.2 ≠ ele := by
  simp [others]

/-- An element has a score, whether or not it had one before. -/
def assign (set : SortedSet S) (ele : Bytes) (score : S) : SortedSet S where
  members := placeKey (score, ele) (set.others ele)
  sorted := by
    apply placeKey_sorted (set.sorted.filter _)
    exact fun listed => (mem_others.mp listed).2 rfl
  unique := by
    rw [((placeKey_perm _ _).map Prod.snd).nodup_iff, map_cons, nodup_cons]
    refine ⟨?_, set.unique.sublist (filter_sublist.map _)⟩
    intro listed
    obtain ⟨member, inside, same⟩ := mem_map.mp listed
    exact (mem_others.mp inside).2 same

@[simp] theorem assign_members (set : SortedSet S) (ele : Bytes) (score : S) :
    (set.assign ele score).members = placeKey (score, ele) (set.others ele) := rfl

theorem others_of_absent (absent : ele ∉ set.members.map Prod.snd) :
    set.others ele = set.members := by
  apply filter_eq_self.mpr
  intro member listed
  apply decide_eq_true
  exact fun same => absent (same ▸ mem_map_of_mem listed)

/-- An element has one score. -/
theorem eq_of_ele {a b : S × Bytes} (inA : a ∈ set.members) (inB : b ∈ set.members)
    (same : a.2 = b.2) : a = b :=
  inj_on_of_nodup_map set.unique inA inB same

theorem others_of_mem {score : S} (listed : (score, ele) ∈ set.members) :
    set.others ele = set.members.filter fun member => member ≠ (score, ele) := by
  apply filter_congr
  intro member inside
  apply decide_eq_decide.mpr
  apply not_congr
  constructor
  · exact fun same => eq_of_ele inside listed same
  · exact fun same => congrArg Prod.snd same

def scoreOf (set : SortedSet S) (ele : Bytes) : Option S :=
  (set.members.find? fun member => member.2 == ele).map Prod.fst

/-- How many members come before an element. -/
def rankOf (set : SortedSet S) (ele : Bytes) : Option Nat :=
  set.members.findIdx? fun member => member.2 == ele

theorem scoreOf_of_absent (absent : ele ∉ set.members.map Prod.snd) :
    set.scoreOf ele = none ∧ set.rankOf ele = none := by
  have fails : ∀ member ∈ set.members, (member.2 == ele) = false := by
    intro member listed
    apply beq_false_of_ne
    exact fun same => absent (same ▸ mem_map_of_mem listed)
  have notFound : set.members.find? (fun member => member.2 == ele) = none :=
    find?_eq_none.mpr fun member listed => by simp [fails member listed]
  exact ⟨by rw [scoreOf, notFound]; rfl, findIdx?_eq_none_iff.mpr fails⟩

/-- The rank is the number of members in front. -/
theorem scoreOf_of_split {score : S} {before after : List (S × Bytes)}
    (split : set.members = before ++ (score, ele) :: after) :
    set.scoreOf ele = some score ∧ set.rankOf ele = some before.length := by
  have unique := set.unique
  rw [split, map_append, nodup_append] at unique
  -- No member before it has the same element.
  have fails : ∀ member ∈ before, (member.2 == ele) = false := by
    intro member listed
    apply beq_false_of_ne
    exact unique.2.2 _ (mem_map_of_mem listed) ele (by simp)
  have notFound : before.find? (fun member => member.2 == ele) = none :=
    find?_eq_none.mpr fun member listed => by simp [fails member listed]
  have noIndex : before.findIdx? (fun member => member.2 == ele) = none :=
    findIdx?_eq_none_iff.mpr fails
  constructor
  · rw [scoreOf, split, find?_append, notFound]
    simp
  · rw [rankOf, split, findIdx?_append, noIndex]
    simp [findIdx?_cons]

end SortedSet

end LearningNotes.Zset
