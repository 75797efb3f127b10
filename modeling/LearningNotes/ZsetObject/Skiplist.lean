import LearningNotes.Zset.Rank
import LearningNotes.ZsetObject.Ziplist

/-! The skiplist encoding: the dict points to the nodes of the members, through every function. -/

namespace LearningNotes.ZsetObject

open Lib Util LearningNotes.Zset List
open Prod (snd)

variable {S : Type}

/-- Towers for the members, and a dict that points to them. -/
def Stored (zs : Zset S) (members : List (S × Bytes)) : Prop :=
  ∃ towers, Drawn zs.zsl towers ∧ towers.map Tower.key = members ∧
    zs.dict = keyedMap Tower.ele Tower.addr towers

variable {towers : List (Tower S)}

theorem elements_of_keys {members : List (S × Bytes)} (keys : towers.map Tower.key = members) :
    towers.map Tower.ele = members.map snd := by
  rw [← keys, map_map]
  rfl

theorem split_keys {before after : List (S × Bytes)} {key : S × Bytes}
    (keys : towers.map Tower.key = before ++ key :: after) :
    ∃ left t right, towers = left ++ t :: right ∧ left.map Tower.key = before ∧ t.key = key ∧
      right.map Tower.key = after := by
  obtain ⟨left, rest, split, front, back⟩ := map_eq_append_iff.mp keys
  obtain ⟨t, right, shape, here, behind⟩ := map_eq_cons_iff.mp back
  exact ⟨left, t, right, by rw [split, shape], front, here, behind⟩

section Lookup

variable {zs : Zset S} {towers : List (Tower S)}

variable {t : Tower S}

theorem dict_of_mem (dict : zs.dict = keyedMap Tower.ele Tower.addr towers)
    (unique : (towers.map Tower.ele).Nodup) (listed : t ∈ towers) :
    zs.dict t.ele = some t.addr := by
  rw [dict]
  exact keyedMap_of_mem Tower.ele Tower.addr unique listed

theorem dict_of_absent (dict : zs.dict = keyedMap Tower.ele Tower.addr towers) {ele : Bytes}
    (absent : ele ∉ towers.map Tower.ele) : zs.dict ele = none := by
  rw [dict]
  apply (keyedMap_eq_none Tower.ele Tower.addr).mpr
  exact fun t listed same => absent (same ▸ mem_map_of_mem listed)

theorem dictScore_of_mem (drawn : Drawn zs.zsl towers) (listed : t ∈ towers) :
    dictScore zs t.addr = .ok t.score := by
  obtain ⟨left, right, split⟩ := append_of_mem listed
  rw [dictScore, drawn.deref split]
  rfl

end Lookup

theorem forget_keyedMap {gone kept : List (Tower S)} (unique : (towers.map Tower.ele).Nodup)
    (parts : towers.Perm (gone ++ kept)) :
    forget (keyedMap Tower.ele Tower.addr towers) (gone.map Tower.ele) =
      keyedMap Tower.ele Tower.addr kept := by
  induction gone generalizing towers with
  | nil =>
    exact (keyedMap_perm Tower.ele Tower.addr unique parts).symm
  | cons t gone ih =>
    -- One element is forgotten, and the induction hypothesis takes the others.
    have erased := keyedMap_erase Tower.ele Tower.addr unique parts
    have fewer : ((gone ++ kept).map Tower.ele).Nodup := by
      have order := (parts.map Tower.ele).nodup_iff.mp unique
      rw [cons_append, map_cons, nodup_cons] at order
      exact order.2
    rw [map_cons, forget, foldl_cons, ← erased]
    exact ih fewer (List.Perm.refl _)

section Stored

variable {zs : Zset S} {members : List (S × Bytes)}

theorem Stored.absent {ele : Bytes} (stored : Stored zs members)
    (absent : ele ∉ members.map snd) : zs.dict ele = none := by
  obtain ⟨towers, drawn, keys, dict⟩ := stored
  exact dict_of_absent dict (by rw [elements_of_keys keys]; exact absent)

theorem Stored.deleteRange (stored : Stored zs members) (unique : (members.map snd).Nodup)
    {gone kept : List (S × Bytes)} {delete : Zskiplist S → Except Fault (List Bytes × Zskiplist S)}
    (deletes : ∀ towers, Drawn zs.zsl towers → towers.map Tower.key = members →
      ∃ zsl out left, delete zs.zsl = .ok (out.map Tower.ele, zsl) ∧ Drawn zsl left ∧
        towers.Perm (out ++ left) ∧ out.map Tower.key = gone ∧ left.map Tower.key = kept) :
    ∃ elements zsl, delete zs.zsl = .ok (elements, zsl) ∧ elements.length = gone.length ∧
      Stored ⟨forget zs.dict elements, zsl⟩ kept := by
  obtain ⟨towers, drawn, keys, dict⟩ := stored
  obtain ⟨zsl, out, left, deleted, drawn', parts, goneKeys, keptKeys⟩ := deletes towers drawn keys
  have distinct : (towers.map Tower.ele).Nodup := by rw [elements_of_keys keys]; exact unique
  refine ⟨_, zsl, deleted, ?_, left, drawn', keptKeys, ?_⟩
  · rw [length_map, ← goneKeys, length_map]
  · rw [dict, forget_keyedMap distinct parts]

end Stored

section Order

variable [LinearOrder S] {zs : Zset S} {members : List (S × Bytes)}

/-- Inserting keeps the dictionary and the skiplist in step. -/
theorem Stored.insert (stored : Stored zs members) (sorted : members.Pairwise KeyLt) {score : S}
    {ele : Bytes} (unique : (ele :: members.map snd).Nodup) (level : RandomLevel)
    (room : members.length + 1 < 2 ^ 32) :
    ∃ znode zsl, zslInsert zs.zsl score ele level = .ok (znode, zsl) ∧
      Stored ⟨insertKey zs.dict ele znode, zsl⟩ (SortedSet.placeKey (score, ele) members) := by
  obtain ⟨towers, drawn, keys, dict⟩ := stored
  have ordered : InOrder towers := by rw [InOrder, keys]; exact sorted
  have size : towers.length = members.length := by rw [← keys, length_map]
  obtain ⟨zsl, inserted, drawn', _, _⟩ :=
    zslInsert_placed drawn ordered score ele level.2.1 level.2.2 (size ▸ room)
  refine ⟨zs.zsl.brk, zsl, inserted, _, drawn', by rw [placed_keys, keys]; rfl, ?_⟩
  have distinct : ((placed ⟨zs.zsl.brk, score, ele, level⟩ towers).map Tower.ele).Nodup := by
    rw [((placed_perm _ _).map Tower.ele).nodup_iff, map_cons, elements_of_keys keys]
    exact unique
  rw [keyedMap_insert Tower.ele Tower.addr distinct (placed_perm _ _), ← dict]

theorem perm_of_key {towers : List (Tower S)} {before after : List (Tower S)} {t : Tower S}
    (split : towers = before ++ t :: after) (ordered : InOrder towers) :
    towers.Perm (t :: towers.filter fun u => u.key ≠ t.key) := by
  subst split
  rw [ordered.filter_ne]
  exact perm_middle

variable {ele : Bytes} {score : S}

/-- So does a new score. -/
theorem Stored.update (stored : Stored zs members) (sorted : members.Pairwise KeyLt)
    (unique : (members.map snd).Nodup) {curscore : S} (present : (curscore, ele) ∈ members)
    (newscore : S) (level : RandomLevel) (room : members.length < 2 ^ 32) :
    ∃ znode zsl, zslUpdateScore zs.zsl curscore ele newscore level = .ok (znode, zsl) ∧
      Stored ⟨insertKey zs.dict ele znode, zsl⟩ (SortedSet.placeKey (newscore, ele)
        (members.filter fun member => member ≠ (curscore, ele))) := by
  obtain ⟨towers, drawn, keys, dict⟩ := stored
  have ordered : InOrder towers := by rw [InOrder, keys]; exact sorted
  have size : towers.length = members.length := by rw [← keys, length_map]
  obtain ⟨t, listed, same⟩ := mem_map.mp (keys ▸ present)
  obtain ⟨znode, zsl, height, updated, drawn'⟩ := zslUpdateScore_spec drawn ordered
    ⟨t, listed, same⟩ newscore level.2.1 level.2.2 (size ▸ room)
  refine ⟨znode, zsl, updated, _, drawn', ?_, ?_⟩
  · rw [placed_keys, ← keys, ← filter_keys]
    rfl
  obtain ⟨before, after, split⟩ := append_of_mem listed
  have distinct : (towers.map Tower.ele).Nodup := by rw [elements_of_keys keys]; exact unique
  have old := perm_of_key split ordered
  rw [same] at old
  have name : t.ele = ele := congrArg snd same
  have changed := @keyedMap_overwrite _ _ _ _ Tower.ele Tower.addr _ towers _ distinct t
    ⟨znode, newscore, ele, height⟩ old (placed_perm _ _) name.symm
  rw [changed, ← dict, name]

/-- So does a deletion. -/
theorem Stored.delete (stored : Stored zs members) (sorted : members.Pairwise KeyLt)
    (unique : (members.map snd).Nodup) (present : (score, ele) ∈ members) :
    ∃ zsl, zslDelete zs.zsl score ele = .ok (true, zsl) ∧
      Stored ⟨eraseKey zs.dict ele, zsl⟩ (members.filter fun member => member ≠ (score, ele)) := by
  obtain ⟨towers, drawn, keys, dict⟩ := stored
  have ordered : InOrder towers := by rw [InOrder, keys]; exact sorted
  obtain ⟨t, listed, same⟩ := mem_map.mp (keys ▸ present)
  obtain ⟨zsl, deleted, drawn'⟩ := zslDelete_spec drawn ordered score ele
  have found : ∃ t ∈ towers, t.key = (score, ele) := ⟨t, listed, same⟩
  rw [decide_eq_true found] at deleted
  refine ⟨zsl, deleted, _, drawn', ?_, ?_⟩
  · rw [← keys]
    exact filter_keys (fun key => decide (key ≠ (score, ele))) towers
  obtain ⟨before, after, split⟩ := append_of_mem listed
  have distinct : (towers.map Tower.ele).Nodup := by rw [elements_of_keys keys]; exact unique
  have old := perm_of_key split ordered
  rw [same] at old
  have name : t.ele = ele := congrArg snd same
  rw [keyedMap_erase Tower.ele Tower.addr distinct old, ← dict, name]

theorem Stored.rank (stored : Stored zs members) (sorted : members.Pairwise KeyLt)
    (unique : (members.map snd).Nodup) {before after : List (S × Bytes)}
    (split : members = before ++ (score, ele) :: after) :
    ∃ x, zs.dict ele = some x ∧ dictScore zs x = .ok score ∧
      zslGetRank zs.zsl score ele = .ok (before.length + 1) := by
  obtain ⟨towers, drawn, keys, dict⟩ := stored
  have ordered : InOrder towers := by rw [InOrder, keys]; exact sorted
  have distinct : (towers.map Tower.ele).Nodup := by rw [elements_of_keys keys]; exact unique
  obtain ⟨left, t, right, parts, front, same, _⟩ := split_keys (keys.trans split)
  have listed : t ∈ towers := by simp [parts]
  have name : t.ele = ele := congrArg snd same
  have value : t.score = score := congrArg Prod.fst same
  refine ⟨t.addr, name ▸ dict_of_mem dict distinct listed, value ▸ dictScore_of_mem drawn listed, ?_⟩
  have rank := zslGetRank_spec drawn ordered distinct parts
  rw [name, value, ← length_map Tower.key, front] at rank
  exact rank

end Order

section Convert

variable (format : ScoreFormat S)

theorem stored_nil [Zero S] : Stored (⟨fun _ => none, zslCreate⟩ : Zset S) [] :=
  ⟨[], zslCreate_drawn, rfl, rfl⟩

theorem fillSkiplist_pairs [LinearOrder S] (levels : Nat → RandomLevel) (back : List (S × Bytes))
    {front : List (S × Bytes)} {zs : Zset S} (n : Nat) (stored : Stored zs front)
    (sorted : (front ++ back).Pairwise KeyLt) (unique : ((front ++ back).map snd).Nodup)
    (room : (front ++ back).length < 2 ^ 32) :
    ∃ zs', fillSkiplist format levels (pairs format back) n zs = .ok zs' ∧
      Stored zs' (front ++ back) := by
  induction back generalizing front zs n with
  | nil => exact ⟨zs, rfl, by rw [append_nil]; exact stored⟩
  | cons member back ih =>
    have parts : front ++ member :: back = (front ++ [member]) ++ back := by simp
    have sortedFront : front.Pairwise KeyLt := (pairwise_append.mp sorted).1
    have fresh : (member.2 :: front.map snd).Nodup := by
      rw [parts, map_append, nodup_append] at unique
      have perm : (member.2 :: front.map snd).Perm ((front ++ [member]).map snd) := by
        rw [map_append]
        exact (perm_append_singleton _ _).symm
      exact perm.nodup_iff.mpr unique.1
    -- The next member comes after all that are there.
    have last : SortedSet.placeKey member front = front ++ [member] := by
      have place := @placeKey_split S _ member front [] (fun other listed =>
        (pairwise_append.mp sorted).2.2 other listed member mem_cons_self) (by simp)
      rwa [append_nil] at place
    have small : front.length + 1 < 2 ^ 32 := by
      rw [length_append, length_cons] at room
      omega
    obtain ⟨znode, zsl, inserted, stored'⟩ :=
      @Stored.insert S _ zs front stored sortedFront member.1 member.2 fresh (levels n) small
    have absent : zs.dict member.2 = none := stored.absent (nodup_cons.mp fresh).1
    rw [last] at stored'
    obtain ⟨zs', filled, final⟩ := @ih (front ++ [member]) _ (n + 1) stored' (parts ▸ sorted)
      (parts ▸ unique) (parts ▸ room)
    refine ⟨zs', ?_, parts ▸ final⟩
    rw [pairs_cons, fillSkiplist, format.inverse, inserted, ok_bind]
    simp only [absent]
    exact filled

theorem fillZiplist_pairs {zsl : Zskiplist S} {towers : List (Tower S)} (drawn : Drawn zsl towers)
    (rest : List (Tower S)) {before : List (Tower S)} {fuel : Nat} (written : List (S × Bytes))
    (split : towers = before ++ rest) (enough : rest.length < fuel) :
    fillZiplist format zsl fuel (levelFor 0 rest).forward (pairs format written) =
      .ok (pairs format (written ++ rest.map Tower.key)) := by
  induction rest generalizing before fuel written with
  | nil =>
    obtain ⟨fuel, rfl⟩ : ∃ more, fuel = more + 1 := ⟨fuel - 1, by omega⟩
    rw [map_nil, append_nil]
    rfl
  | cons t rest ih =>
    rw [length_cons] at enough
    obtain ⟨fuel, rfl⟩ : ∃ more, fuel = more + 1 := ⟨fuel - 1, by omega⟩
    have tall : 0 < t.height := drawn.positive t (by simp [split])
    rw [levelFor_tall tall, fillZiplist, drawn.deref split]
    simp only [ok_bind, nodeFor, Node.string, zzlInsertAt_tail, drawn.levelOf split tall]
    rw [@ih (before ++ [t]) fuel (written ++ [(t.score, t.ele)]) (by simp [split]) (by omega)]
    simp [Tower.key]

end Convert

end LearningNotes.ZsetObject
