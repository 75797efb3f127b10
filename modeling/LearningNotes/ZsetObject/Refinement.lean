import LearningNotes.ZsetObject.Skiplist

/-! Both encodings serve every call alike, whenever an object is converted. -/

namespace LearningNotes.ZsetObject

open Lib Util LearningNotes.Zset

variable {S : Type}

inductive Call (S : Type) where
  | add (score : S) (ele : Bytes) (flags : InFlags)
  | del (ele : Bytes)
  | score (member : Bytes)
  | rank (ele : Bytes) (reverse : Bool)
  | deleteRangeByScore (range : RangeSpec S)
  | deleteRangeByLex (range : LexRangeSpec)
  | deleteRangeByRank (start stop : Nat)

inductive Reply (S : Type) where
  | add (reply : AddReply S)
  | deleted (found : Bool)
  | score (score : Option S)
  | rank (rank : Int)
  | removed (deleted : Nat)
deriving DecidableEq

/-- A call, with what is not observed of an object. -/
structure Step (S : Type) where
  limits : Limits
  -- The conversions right before the call, and the levels of the nodes they create.
  conversions : List (Encoding × (Nat → RandomLevel))
  -- The level of a node the call creates itself, and of those a conversion in it creates.
  level : RandomLevel
  levels : Nat → RandomLevel
  call : Call S

def createZsetObject [Zero S] : Encoding → Object S
  | .ziplist => .ziplist []
  | .skiplist => .skiplist ⟨fun _ => none, zslCreate⟩

section Serving

variable (format : ScoreFormat S) [LinearOrder S] [Zero S] [Add S]

def convertAll (zobj : Object S) :
    List (Encoding × (Nat → RandomLevel)) → Except Fault (Object S)
  | [] => .ok zobj
  | (encoding, levels) :: conversions => do
    let zobj ← zsetConvert format zobj encoding levels
    convertAll zobj conversions

def serve (step : Step S) (zobj : Object S) : Except Fault (Reply S × Object S) :=
  match step.call with
  | .add score ele flags => do
    let (reply, zobj) ← zsetAdd format step.limits zobj score ele flags step.level step.levels
    return (.add reply, zobj)
  | .del ele => do
    let (found, zobj) ← zsetDel format zobj ele
    return (.deleted found, zobj)
  | .score member => do
    let score ← zsetScore format zobj member
    return (.score score, zobj)
  | .rank ele reverse => do
    let rank ← zsetRank zobj ele reverse
    return (.rank rank, zobj)
  | .deleteRangeByScore range => do
    let (deleted, zobj) ← deleteRangeByScore format zobj range
    return (.removed deleted, zobj)
  | .deleteRangeByLex range => do
    let (deleted, zobj) ← deleteRangeByLex zobj range
    return (.removed deleted, zobj)
  | .deleteRangeByRank start stop => do
    let (deleted, zobj) ← deleteRangeByRank zobj start stop
    return (.removed deleted, zobj)

/-- Convert the object, then serve the call. -/
def serveStep (zobj : Object S) (step : Step S) : Except Fault (Reply S × Object S) := do
  let zobj ← convertAll format zobj step.conversions
  serve format step zobj

end Serving

section Spec

variable [LinearOrder S]

def rankReply (size : Nat) (rank : Option Nat) (reverse : Bool) : Int :=
  match rank with
  | none => -1
  | some rank => if reverse then (size : Int) - (rank + 1 : Nat) else ((rank + 1 : Nat) : Int) - 1

/-- Adding to a sorted set under the flags. -/
def specAdd [Add S] (set : SortedSet S) (score : S) (ele : Bytes) (flags : InFlags) :
    AddReply S × SortedSet S :=
  match set.scoreOf ele with
  | some curscore =>
    match scoreOutcome flags score curscore with
    | none => (.nop, set)
    | some score =>
      (.updated score curscore, if score ≠ curscore then set.assign ele score else set)
  | none => if flags.xx then (.nop, set) else (.added score, set.assign ele score)

def specCall [Add S] (set : SortedSet S) : Call S → Reply S × SortedSet S
  | .add score ele flags =>
    let (reply, set) := specAdd set score ele flags
    (.add reply, set)
  | .del ele =>
    (.deleted (set.scoreOf ele).isSome, set.filter fun member => member.2 ≠ ele)
  | .score member => (.score (set.scoreOf member), set)
  | .rank ele reverse => (.rank (rankReply set.members.length (set.rankOf ele) reverse), set)
  | .deleteRangeByScore range =>
    (.removed (set.members.filter range.contains).length,
      set.filter fun member => !range.contains member)
  | .deleteRangeByLex range =>
    (.removed (set.members.filter range.contains).length,
      set.filter fun member => !range.contains member)
  | .deleteRangeByRank start stop =>
    (.removed ((set.members.take stop).drop (start - 1)).length, set.removeSlice (start - 1) stop)

def specRun [Add S] : SortedSet S → List (Call S) → List (Reply S) × SortedSet S
  | set, [] => ([], set)
  | set, call :: calls =>
    let (reply, set) := specCall set call
    let (replies, set) := specRun set calls
    (reply :: replies, set)

/-- So many members fit into a ziplist of 32 bits. -/
def capacity : Nat := 2 ^ 30

/-- No rank of an empty set, ranks within bounds, and one score for a lexicographic range. -/
def Admissible (set : SortedSet S) : Call S → Prop
  | .add _ _ _ => set.members.length + 1 < capacity
  | .rank _ _ => set.members ≠ []
  | .deleteRangeByLex _ => ∀ a ∈ set.members, ∀ b ∈ set.members, a.1 = b.1
  | .deleteRangeByRank start stop => 1 ≤ start ∧ start ≤ stop ∧ stop ≤ set.members.length
  | _ => True

instance (set : SortedSet S) (call : Call S) : Decidable (Admissible set call) := by
  cases call <;> unfold Admissible <;> infer_instance

def AdmissibleRun [Add S] : SortedSet S → List (Call S) → Prop
  | _, [] => True
  | set, call :: calls => Admissible set call ∧ AdmissibleRun (specCall set call).2 calls

instance AdmissibleRun.decidable [Add S] :
    ∀ (set : SortedSet S) (calls : List (Call S)), Decidable (AdmissibleRun set calls)
  | _, [] => isTrue trivial
  | set, call :: calls =>
    have := AdmissibleRun.decidable (specCall set call).2 calls
    inferInstanceAs (Decidable (_ ∧ _))

end Spec

section Holds

variable (format : ScoreFormat S) [LinearOrder S]

def Holds (zobj : Object S) (set : SortedSet S) : Prop :=
  match zobj with
  | .ziplist zl => zl = pairs format set.members
  | .skiplist zs => Stored zs set.members

variable {format} {set : SortedSet S}

theorem zsetConvert_skiplist [Zero S] (fits : set.members.length < capacity)
    (levels : Nat → RandomLevel) :
    ∃ zs, zsetConvert format (.ziplist (pairs format set.members)) .skiplist levels =
        .ok (.skiplist zs) ∧ Stored zs set.members := by
  have room : set.members.length < 2 ^ 32 := Nat.lt_trans fits (by decide)
  obtain ⟨zs, filled, stored⟩ := @fillSkiplist_pairs S format _ levels set.members [] _ 0
    stored_nil set.sorted set.unique room
  refine ⟨zs, ?_, stored⟩
  rw [zsetConvert, filled]
  rfl

variable {zobj : Object S}

theorem zsetConvert_holds [Zero S] (holds : Holds format zobj set)
    (fits : set.members.length < capacity) (encoding : Encoding) (levels : Nat → RandomLevel) :
    ∃ zobj', zsetConvert format zobj encoding levels = .ok zobj' ∧ Holds format zobj' set := by
  cases zobj with
  | ziplist zl =>
    cases encoding with
    | ziplist => exact ⟨.ziplist zl, rfl, holds⟩
    | skiplist =>
      obtain ⟨zs, converted, stored⟩ := @zsetConvert_skiplist S format _ set _ fits levels
      exact ⟨.skiplist zs, by rw [show zl = pairs format set.members from holds, converted], stored⟩
  | skiplist zs =>
    cases encoding with
    | skiplist => exact ⟨.skiplist zs, rfl, holds⟩
    | ziplist =>
      obtain ⟨towers, drawn, keys, _⟩ := id holds
      have enough : towers.length < zs.zsl.length + 1 := by
        rw [drawn.length]
        exact Nat.lt_succ_self _
      have filled := @fillZiplist_pairs S format zs.zsl towers drawn towers [] _ [] rfl enough
      rw [keys] at filled
      refine ⟨.ziplist (pairs format set.members), ?_, rfl⟩
      rw [zsetConvert, drawn.levelOf_header drawn.levelPositive, ok_bind]
      rw [show pairs format ([] : List (S × Bytes)) = [] from rfl] at filled
      rw [filled]
      rfl

theorem convertAll_holds [Zero S] (conversions : List (Encoding × (Nat → RandomLevel)))
    (fits : set.members.length < capacity) {zobj : Object S} (holds : Holds format zobj set) :
    ∃ zobj', convertAll format zobj conversions = .ok zobj' ∧ Holds format zobj' set := by
  induction conversions generalizing zobj with
  | nil => exact ⟨zobj, rfl, holds⟩
  | cons conversion conversions ih =>
    obtain ⟨middle, converted, holds'⟩ := zsetConvert_holds holds fits conversion.1 conversion.2
    obtain ⟨zobj', rest, final⟩ := ih holds'
    exact ⟨zobj', by rw [convertAll, converted, ok_bind, rest], final⟩

theorem listed_or_absent (format : ScoreFormat S) (set : SortedSet S) (ele : Bytes) :
    (∃ before score after, set.members = before ++ (score, ele) :: after ∧
      set.scoreOf ele = some score ∧ set.rankOf ele = some before.length ∧
      zzlScan (fun other _ => other == ele) (pairs format set.members) 0 =
        .ok (some (2 * before.length, ele, format.d2string score))) ∨
    (ele ∉ set.members.map Prod.snd ∧ set.scoreOf ele = none ∧ set.rankOf ele = none ∧
      zzlScan (fun other _ => other == ele) (pairs format set.members) 0 = .ok none) := by
  rcases scanElement_pairs format set.members ele with
    ⟨scanned, absent⟩ | ⟨before, score, after, split, scanned⟩
  · obtain ⟨scored, ranked⟩ := SortedSet.scoreOf_of_absent absent
    exact .inr ⟨absent, scored, ranked, scanned⟩
  · obtain ⟨scored, ranked⟩ := SortedSet.scoreOf_of_split split
    exact .inl ⟨before, score, after, split, scored, ranked, scanned⟩

variable {ele : Bytes}

theorem assign_of_absent (absent : ele ∉ set.members.map Prod.snd) (score : S) :
    (set.assign ele score).members = SortedSet.placeKey (score, ele) set.members := by
  rw [SortedSet.assign_members, SortedSet.others_of_absent absent]

theorem others_of_split {score : S} {before after : List (S × Bytes)}
    (split : set.members = before ++ (score, ele) :: after) :
    set.others ele = before ++ after ∧ ele ∉ (before ++ after).map Prod.snd := by
  have unique := set.unique
  rw [split, List.map_append, List.map_cons, List.nodup_middle, List.nodup_cons,
    ← List.map_append] at unique
  refine ⟨?_, unique.1⟩
  rw [SortedSet.others, split, List.filter_append, List.filter_cons_of_neg (by simp),
    ← List.filter_append, List.filter_eq_self.mpr]
  intro member listed
  apply decide_eq_true
  exact fun same => unique.1 (List.mem_map.mpr ⟨member, listed, same⟩)

section Add

variable [Add S]

theorem zsetAddSkiplist_holds {zs : Zset S} (stored : Stored zs set.members)
    (fits : set.members.length + 1 < capacity) (score : S) (ele : Bytes) (flags : InFlags)
    (level : RandomLevel) :
    ∃ zobj, zsetAddSkiplist zs score ele flags level = .ok ((specAdd set score ele flags).1, zobj) ∧
      Holds format zobj (specAdd set score ele flags).2 := by
  have room : set.members.length + 1 < 2 ^ 32 := Nat.lt_trans fits (by decide)
  rw [specAdd, zsetAddSkiplist]
  rcases listed_or_absent format set ele with
    ⟨before, curscore, after, split, scored, -⟩ | ⟨absent, scored, -⟩
  · obtain ⟨x, found, read, _⟩ := stored.rank set.sorted set.unique split
    rw [scored, found]
    simp only [read, ok_bind]
    cases scoreOutcome flags score curscore with
    | none => exact ⟨.skiplist zs, rfl, stored⟩
    | some score =>
      by_cases same : score = curscore
      · simp only [same, ne_eq]
        exact ⟨.skiplist zs, rfl, stored⟩
      have present : (curscore, ele) ∈ set.members := by simp [split]
      obtain ⟨znode, zsl, updated, stored'⟩ :=
        stored.update set.sorted set.unique present score level (by omega)
      simp only [ne_eq, same, not_false_eq_true, if_true, updated]
      refine ⟨_, rfl, ?_⟩
      rw [Holds, SortedSet.assign_members, SortedSet.others_of_mem present]
      exact stored'
  · rw [scored, stored.absent absent]
    cases flags.xx with
    | true => exact ⟨.skiplist zs, rfl, stored⟩
    | false =>
      obtain ⟨znode, zsl, inserted, stored'⟩ := @Stored.insert S _ zs set.members stored set.sorted
        score ele (List.nodup_cons.mpr ⟨absent, set.unique⟩) level room
      simp only [inserted]
      refine ⟨_, rfl, ?_⟩
      rw [if_neg Bool.false_ne_true, Holds, assign_of_absent absent]
      exact stored'

theorem zsetAdd_holds [Zero S] {zobj : Object S} (holds : Holds format zobj set)
    (fits : set.members.length + 1 < capacity) (limits : Limits) (score : S) (ele : Bytes)
    (flags : InFlags) (level : RandomLevel) (levels : Nat → RandomLevel) :
    ∃ zobj', zsetAdd format limits zobj score ele flags level levels =
        .ok ((specAdd set score ele flags).1, zobj') ∧
      Holds format zobj' (specAdd set score ele flags).2 := by
  cases zobj with
  | skiplist zs => exact zsetAddSkiplist_holds holds fits score ele flags level
  | ziplist zl =>
    obtain rfl : zl = pairs format set.members := holds
    rw [zsetAdd, zzlFind]
    rcases listed_or_absent format set ele with
      ⟨before, curscore, after, split, scored, -, found⟩ | ⟨absent, scored, -, found⟩
    · simp only [found, ok_bind, pure_bind, format.inverse, specAdd, scored]
      cases scoreOutcome flags score curscore with
      | none => exact ⟨_, rfl, rfl⟩
      | some score =>
        by_cases same : score = curscore
        · simp only [same, ne_eq]
          exact ⟨_, rfl, rfl⟩
        obtain ⟨others, absent⟩ := others_of_split split
        have sorted : (before ++ after).Pairwise KeyLt :=
          set.sorted.sublist (split ▸ (List.sublist_cons_self _ _).append_left _)
        have removed := zzlDelete_pairs format before (curscore, ele) after
        rw [← split] at removed
        simp only [ne_eq, same, not_false_eq_true, if_true, removed, ok_bind,
          zzlInsert_pairs format sorted absent]
        refine ⟨_, rfl, ?_⟩
        rw [Holds, SortedSet.assign_members, others]
    · simp only [found]
      cases xx : flags.xx with
      | true =>
        simp only [specAdd, scored, xx]
        exact ⟨_, rfl, rfl⟩
      | false =>
        simp only [Bool.not_false, if_true]
        split
        · -- The object is converted, and the element goes to the skiplist.
          obtain ⟨zs, converted, stored⟩ :=
            @zsetConvert_skiplist S format _ set _ (Nat.lt_of_succ_lt fits) levels
          simp only [converted]
          exact zsetAddSkiplist_holds stored fits score ele flags level
        · simp only [zzlInsert_pairs format set.sorted absent, specAdd, scored, xx,
            Bool.false_eq_true, if_false]
          refine ⟨_, rfl, ?_⟩
          rw [Holds, assign_of_absent absent]

end Add

section Calls

variable (holds : Holds format zobj set)
include holds

theorem zsetDel_holds (ele : Bytes) :
    ∃ zobj', zsetDel format zobj ele = .ok ((set.scoreOf ele).isSome, zobj') ∧
      Holds format zobj' (set.filter fun member => member.2 ≠ ele) := by
  rcases listed_or_absent format set ele with
    ⟨before, score, after, split, scored, -, scanned⟩ | ⟨absent, scored, -, scanned⟩
  · rw [scored]
    cases zobj with
    | ziplist zl =>
      obtain rfl : zl = pairs format set.members := holds
      have removed := zzlDelete_pairs format before (score, ele) after
      rw [← split] at removed
      simp only [zsetDel, zzlFind, scanned, ok_bind, pure_bind, removed]
      exact ⟨_, rfl, congrArg (pairs format) (others_of_split split).1.symm⟩
    | skiplist zs =>
      have present : (score, ele) ∈ set.members := by simp [split]
      obtain ⟨x, found, read, _⟩ := Stored.rank holds set.sorted set.unique split
      obtain ⟨zsl, deleted, stored⟩ := Stored.delete holds set.sorted set.unique present
      simp only [zsetDel, found, read, ok_bind, deleted]
      rw [← SortedSet.others_of_mem present] at stored
      exact ⟨_, rfl, stored⟩
  · have kept : set.filter (fun member => member.2 ≠ ele) = set :=
      SortedSet.ext (SortedSet.others_of_absent absent)
    rw [scored, kept]
    cases zobj with
    | ziplist zl =>
      obtain rfl : zl = pairs format set.members := holds
      simp only [zsetDel, zzlFind, scanned]
      exact ⟨_, rfl, rfl⟩
    | skiplist zs =>
      simp only [zsetDel, Stored.absent holds absent]
      exact ⟨_, rfl, holds⟩

theorem zsetScore_holds (member : Bytes) :
    zsetScore format zobj member = .ok (set.scoreOf member) := by
  rcases listed_or_absent format set member with
    ⟨before, score, after, split, scored, -, scanned⟩ | ⟨absent, scored, -, scanned⟩
  · cases zobj with
    | ziplist zl =>
      rw [show zl = pairs format set.members from holds, zsetScore, zzlFind, scanned, scored]
      simp only [ok_bind, pure_bind, format.inverse]
      rfl
    | skiplist zs =>
      obtain ⟨x, found, read, _⟩ := Stored.rank holds set.sorted set.unique split
      simp only [zsetScore, found, read, ok_bind, scored]
      rfl
  · cases zobj with
    | ziplist zl =>
      rw [show zl = pairs format set.members from holds, zsetScore, zzlFind, scanned, scored]
      rfl
    | skiplist zs => simp only [zsetScore, Stored.absent holds absent, scored]

theorem zsetLength_holds : zsetLength zobj = set.members.length := by
  cases zobj with
  | ziplist zl =>
    rw [show zl = pairs format set.members from holds, zsetLength, zzlLength, length_pairs]
    omega
  | skiplist zs =>
    obtain ⟨towers, drawn, keys, _⟩ := id holds
    rw [zsetLength, drawn.length, ← keys, List.length_map]

theorem zsetRank_holds (some_ : set.members ≠ []) (ele : Bytes) (reverse : Bool) :
    zsetRank zobj ele reverse =
      .ok (rankReply set.members.length (set.rankOf ele) reverse) := by
  have length := zsetLength_holds holds
  cases zobj with
  | ziplist zl =>
    obtain rfl : zl = pairs format set.members := holds
    obtain ⟨first, rest, members⟩ : ∃ first rest, set.members = first :: rest :=
      List.exists_cons_of_ne_nil some_
    have shape := congrArg (pairs format) members
    rcases listed_or_absent format set ele with
      ⟨before, score, after, -, -, ranked, scanned⟩ | ⟨-, -, ranked, scanned⟩
    · have half : 2 * before.length / 2 = before.length := by omega
      rw [shape] at length scanned ⊢
      simp only [zsetRank, length, scanned, ok_bind, half, ranked]
      rfl
    · rw [shape] at scanned ⊢
      simp only [zsetRank, scanned, ranked]
      rfl
  | skiplist zs =>
    rw [zsetRank, length]
    rcases listed_or_absent format set ele with
      ⟨before, score, after, split, -, ranked, -⟩ | ⟨absent, -, ranked, -⟩
    · obtain ⟨x, found, read, rank⟩ := Stored.rank holds set.sorted set.unique split
      simp only [found, read, rank, ok_bind, ranked]
      rfl
    · simp only [Stored.absent holds absent, ranked]
      rfl

variable {ziplist : List Bytes → Except Fault (Nat × List Bytes)}
    {skiplist : Zskiplist S → Except Fault (List Bytes × Zskiplist S)}

theorem deleteRange_holds {gone : List (S × Bytes)} {kept : SortedSet S}
    (ofZiplist : ziplist (pairs format set.members) = .ok (gone.length, pairs format kept.members))
    (ofSkiplist : ∀ zsl towers, Drawn zsl towers → towers.map Tower.key = set.members → ∃ zsl' out
      left, skiplist zsl = .ok (out.map Tower.ele, zsl') ∧ Drawn zsl' left ∧ towers.Perm (out ++
      left) ∧ out.map Tower.key = gone ∧ left.map Tower.key = kept.members) :
    ∃ zobj', deleteRange zobj ziplist skiplist = .ok (gone.length, zobj') ∧
      Holds format zobj' kept := by
  cases zobj with
  | ziplist zl =>
    rw [show zl = pairs format set.members from holds, deleteRange, ofZiplist]
    exact ⟨_, rfl, rfl⟩
  | skiplist zs =>
    obtain ⟨elements, zsl, deleted, count, stored⟩ :=
      Stored.deleteRange holds set.unique (ofSkiplist zs.zsl)
    rw [deleteRange, deleted, ← count]
    exact ⟨_, rfl, stored⟩

theorem deletePassing_holds {test : S × Bytes → Bool}
    (ofZiplist : ziplist (pairs format set.members) = .ok ((set.members.filter test).length, pairs
      format (set.members.filter fun member => !test member)))
    (ofSkiplist : ∀ zsl towers, Drawn zsl towers → towers.map Tower.key = set.members → ∃ zsl',
      skiplist zsl = .ok ((towers.filter fun t => test t.key).map Tower.ele, zsl') ∧ Drawn zsl'
      (towers.filter fun t => !test t.key)) :
    ∃ zobj', deleteRange zobj ziplist skiplist = .ok ((set.members.filter test).length, zobj') ∧
      Holds format zobj' (set.filter fun member => !test member) := by
  apply deleteRange_holds holds ofZiplist
  intro zsl towers drawn keys
  obtain ⟨zsl', ran, drawn'⟩ := ofSkiplist zsl towers drawn keys
  refine ⟨zsl', _, _, ran, drawn', (List.filter_append_perm _ towers).symm, ?_, ?_⟩
  · rw [← keys]
    exact filter_keys test towers
  · rw [SortedSet.filter_members, ← keys]
    exact filter_keys (fun member => !test member) towers

theorem deleteRangeByScore_holds (range : RangeSpec S) :
    ∃ zobj', deleteRangeByScore format zobj range =
        .ok ((set.members.filter range.contains).length, zobj') ∧
      Holds format zobj' (set.filter fun member => !range.contains member) := by
  apply deletePassing_holds holds (zzlDeleteRangeByScore_pairs format set.sorted range)
  intro zsl towers drawn keys
  have ordered : InOrder towers := by rw [InOrder, keys]; exact set.sorted
  exact zslDeleteRangeByScore_spec drawn ordered range

theorem deleteRangeByLex_holds (oneScore : ∀ a ∈ set.members, ∀ b ∈ set.members, a.1 = b.1)
    (range : LexRangeSpec) :
    ∃ zobj', deleteRangeByLex zobj range =
        .ok ((set.members.filter range.contains).length, zobj') ∧
      Holds format zobj' (set.filter fun member => !range.contains member) := by
  apply deletePassing_holds holds (zzlDeleteRangeByLex_pairs format set.sorted oneScore range)
  intro zsl towers drawn keys
  have ordered : InOrder towers := by rw [InOrder, keys]; exact set.sorted
  have equal : OneScore towers := by
    intro s inS t inT
    exact oneScore s.key (keys ▸ List.mem_map_of_mem inS) t.key (keys ▸ List.mem_map_of_mem inT)
  obtain ⟨zsl', before, gone, kept, ran, _, drawn', _, _, _, _, exactly⟩ :=
    zslDeleteRangeByLex_spec drawn ordered range
  obtain ⟨goneEq, keptEq⟩ := exactly equal
  exact ⟨zsl', goneEq ▸ ran, keptEq ▸ drawn'⟩

theorem deleteRangeByRank_holds (fits : set.members.length < capacity) {start stop : Nat}
    (first : 1 ≤ start) (ordered : start ≤ stop) (last : stop ≤ set.members.length) :
    ∃ zobj', deleteRangeByRank zobj start stop =
        .ok (((set.members.take stop).drop (start - 1)).length, zobj') ∧
      Holds format zobj' (set.removeSlice (start - 1) stop) := by
  apply deleteRange_holds holds (zzlDeleteRangeByRank_pairs format first ordered last fits)
  intro zsl towers drawn keys
  obtain ⟨zsl', ran, drawn'⟩ := zslDeleteRangeByRank_spec drawn start stop
  refine ⟨zsl', _, _, ran, drawn', ?_, ?_, ?_⟩
  · have parts : towers = towers.take (start - 1) ++
        ((towers.take stop).drop (start - 1) ++ towers.drop (max (start - 1) stop)) := by
      rw [show max (start - 1) stop = stop by omega]
      conv_lhs => rw [← List.take_append_drop stop towers,
        ← List.take_append_drop (start - 1) (towers.take stop)]
      rw [List.take_take, show min (start - 1) stop = start - 1 by omega, List.append_assoc]
    conv_lhs => rw [parts]
    exact List.perm_append_comm_assoc _ _ _
  · rw [← keys, List.map_drop, List.map_take]
  · rw [List.map_append, List.map_take, List.map_drop, keys]
    rfl

end Calls

section Steps

variable [Zero S] [Add S]

omit [Zero S] in
theorem specCall_fits (fits : set.members.length < capacity) (call : Call S)
    (admissible : Admissible set call) : (specCall set call).2.members.length < capacity := by
  have fewer : ∀ test : S × Bytes → Bool, (set.filter test).members.length < capacity := fun test =>
    Nat.lt_of_le_of_lt (List.length_filter_le _ _) fits
  cases call with
  | add score ele flags =>
    have grown : ∀ score, (set.assign ele score).members.length < capacity := by
      intro score
      have count := (SortedSet.placeKey_perm (score, ele) (set.others ele)).length_eq
      have others : (set.others ele).length ≤ set.members.length := List.length_filter_le _ _
      rw [Admissible] at admissible
      rw [SortedSet.assign, count, List.length_cons]
      omega
    rw [specCall, specAdd]
    cases set.scoreOf ele with
    | none =>
      dsimp only
      split
      · exact fits
      · exact grown score
    | some curscore =>
      dsimp only
      cases scoreOutcome flags score curscore with
      | none => exact fits
      | some score =>
        dsimp only
        split
        · exact grown score
        · exact fits
  | del ele => exact fewer _
  | score member => exact fits
  | rank ele reverse => exact fits
  | deleteRangeByScore range => exact fewer _
  | deleteRangeByLex range => exact fewer _
  | deleteRangeByRank start stop =>
    have shorter : (set.removeSlice (start - 1) stop).members.length ≤ set.members.length := by
      rw [SortedSet.removeSlice, SortedSet.restrict, List.length_append, List.length_take,
        List.length_drop]
      omega
    exact Nat.lt_of_le_of_lt shorter fits

theorem serve_holds {zobj : Object S} (holds : Holds format zobj set)
    (fits : set.members.length < capacity) (step : Step S) (admissible : Admissible set step.call) :
    ∃ zobj', serve format step zobj = .ok ((specCall set step.call).1, zobj') ∧
      Holds format zobj' (specCall set step.call).2 := by
  rw [serve]
  generalize step.call = call at admissible ⊢
  cases call with
  | add score ele flags =>
    obtain ⟨zobj', added, holds'⟩ :=
      zsetAdd_holds holds admissible step.limits score ele flags step.level step.levels
    exact ⟨zobj', by simp only [added, ok_bind]; rfl, holds'⟩
  | del ele =>
    obtain ⟨zobj', deleted, holds'⟩ := zsetDel_holds holds ele
    exact ⟨zobj', by simp only [deleted, ok_bind]; rfl, holds'⟩
  | score member => exact ⟨zobj, by simp only [zsetScore_holds holds member, ok_bind]; rfl, holds⟩
  | rank ele reverse =>
    exact ⟨zobj, by simp only [zsetRank_holds holds admissible ele reverse, ok_bind]; rfl, holds⟩
  | deleteRangeByScore range =>
    obtain ⟨zobj', deleted, holds'⟩ := deleteRangeByScore_holds holds range
    exact ⟨zobj', by simp only [deleted, ok_bind]; rfl, holds'⟩
  | deleteRangeByLex range =>
    obtain ⟨zobj', deleted, holds'⟩ := deleteRangeByLex_holds holds admissible range
    exact ⟨zobj', by simp only [deleted, ok_bind]; rfl, holds'⟩
  | deleteRangeByRank start stop =>
    obtain ⟨first, ordered, last⟩ := admissible
    obtain ⟨zobj', deleted, holds'⟩ := deleteRangeByRank_holds holds fits first ordered last
    exact ⟨zobj', by simp only [deleted, ok_bind]; rfl, holds'⟩

theorem run_holds (steps : List (Step S)) {zobj : Object S} {set : SortedSet S}
    (holds : Holds format zobj set) (fits : set.members.length < capacity)
    (admissible : AdmissibleRun set (steps.map Step.call)) :
    ∃ zobj', runCalls (serveStep format) zobj steps =
        .ok ((specRun set (steps.map Step.call)).1, zobj') ∧
      Holds format zobj' (specRun set (steps.map Step.call)).2 := by
  induction steps generalizing zobj set with
  | nil => exact ⟨zobj, rfl, holds⟩
  | cons step steps ih =>
    obtain ⟨converted, conversions, holds⟩ := convertAll_holds step.conversions fits holds
    obtain ⟨middle, served, holds⟩ := serve_holds holds fits step admissible.1
    obtain ⟨final, ran, holds⟩ := ih holds (specCall_fits fits step.call admissible.1) admissible.2
    refine ⟨final, ?_, holds⟩
    simp only [runCalls, serveStep, conversions, ok_bind, served, ran]
    rfl

omit [Add S] in
theorem createZsetObject_holds (encoding : Encoding) :
    Holds format (createZsetObject encoding) SortedSet.empty := by
  cases encoding with
  | ziplist => exact rfl
  | skiplist => exact stored_nil

end Steps

end Holds

/-- The dict and the skiplist hold the same scores. -/
def Consistent : Object S → Prop
  | .ziplist _ => True
  | .skiplist zs => ∀ score ele,
      (∃ node, zs.dict ele = some node ∧ dictScore zs node = .ok score) ↔
        (score, ele) ∈ content zs.zsl

theorem Holds.consistent {format : ScoreFormat S} [LinearOrder S] {zobj : Object S}
    {set : SortedSet S} (holds : Holds format zobj set) : Consistent zobj := by
  cases zobj with
  | ziplist zl => exact trivial
  | skiplist zs =>
    obtain ⟨towers, drawn, keys, dict⟩ := id holds
    have unique : (towers.map Tower.ele).Nodup := elements_of_keys keys ▸ set.unique
    intro score ele
    rw [drawn.content, List.mem_map]
    constructor
    · rintro ⟨node, found, read⟩
      rw [dict] at found
      obtain ⟨t, listed, same, there⟩ := (keyedMap_eq_some Tower.ele Tower.addr unique).mp found
      rw [← there, dictScore_of_mem drawn listed] at read
      exact ⟨t, listed, by rw [← same, ← Except.ok.inj read]; rfl⟩
    · rintro ⟨t, listed, same⟩
      obtain ⟨rfl, rfl⟩ := Prod.mk.inj same
      exact ⟨t.addr, dict_of_mem dict unique listed, dictScore_of_mem drawn listed⟩

/-- The same calls return the same on two objects, whatever their encodings are and become. -/
theorem encodings_agree (format : ScoreFormat S) [LinearOrder S] [Zero S] [Add S]
    (encoding encoding' : Encoding) (steps steps' : List (Step S))
    (same : steps.map Step.call = steps'.map Step.call)
    (admissible : AdmissibleRun SortedSet.empty (steps.map Step.call)) :
    ∃ replies zobj zobj',
      runCalls (serveStep format) (createZsetObject encoding) steps = .ok (replies, zobj) ∧
      runCalls (serveStep format) (createZsetObject encoding') steps' = .ok (replies, zobj') ∧
      Consistent zobj ∧ Consistent zobj' := by
  have small : (SortedSet.empty : SortedSet S).members.length < capacity := Nat.two_pow_pos 30
  obtain ⟨zobj, ran, holds⟩ :=
    run_holds steps (createZsetObject_holds encoding) small admissible
  rw [same] at admissible ran
  obtain ⟨zobj', ran', holds'⟩ :=
    run_holds steps' (createZsetObject_holds encoding') small admissible
  exact ⟨_, zobj, zobj', ran, ran', holds.consistent, holds'.consistent⟩

/-- Natural numbers in decimal as scores. -/
def decimalFormat : ScoreFormat Nat := ⟨natDigits, digitsValue, digitsValue_natDigits⟩

def noFlags : InFlags := ⟨false, false, false, false, false⟩

/-- No conversion before, and limits never or always reached. -/
def plainStep (entries : Nat) (call : Call Nat) : Step Nat :=
  ⟨⟨entries, 64, fun _ _ => true⟩, [], zslRandomLevel 0, fun _ => zslRandomLevel 0, call⟩

/-- An element is added, counted up, and deleted by its rank. -/
def countingCalls : List (Call Nat) :=
  [.add 5 [97] noFlags, .add 7 [98] { noFlags with nx := true },
    .add 3 [97] { noFlags with incr := true, gt := true },
    .score [97], .rank [97] true, .deleteRangeByRank 1 1, .del [97]]

theorem countingCalls_agree :
    AdmissibleRun SortedSet.empty countingCalls ∧
      ∃ replies zobj zobj',
        runCalls (serveStep decimalFormat) (createZsetObject .ziplist)
          (countingCalls.map (plainStep 1)) = .ok (replies, zobj) ∧
        runCalls (serveStep decimalFormat) (createZsetObject .ziplist)
          (countingCalls.map (plainStep 128)) = .ok (replies, zobj') ∧
        Consistent zobj ∧ Consistent zobj' :=
  have admissible : AdmissibleRun SortedSet.empty countingCalls := by decide +kernel
  ⟨admissible, encodings_agree decimalFormat .ziplist .ziplist _ _ rfl admissible⟩

/-- Two scores, and the deletion of a lexicographic range. -/
def mixedCalls : List (Call Nat) :=
  [.add 1 [99] noFlags, .add 2 [97] noFlags, .deleteRangeByLex ⟨.sds [98], .maxstring, false, false⟩]

def repliesIn (encoding : Encoding) (calls : List (Call Nat)) : Option (List (Reply Nat)) :=
  match runCalls (serveStep decimalFormat) (createZsetObject encoding)
    (calls.map (plainStep 128)) with
  | .ok (replies, _) => some replies
  | .error _ => none

theorem lex_deletion_depends_on_encoding :
    ¬ ∀ (calls : List (Call Nat)) (replies replies' : List (Reply Nat)),
      repliesIn .ziplist calls = some replies → repliesIn .skiplist calls = some replies' →
      replies = replies' := by
  intro agree
  -- In the ziplist the last member is below the minimum, so nothing can be in range; the skiplist
  -- starts at the first member that is not below it and goes on to the end.
  have ofZiplist : repliesIn .ziplist mixedCalls =
      some [.add (.added 1), .add (.added 2), .removed 0] := by decide +kernel
  have ofSkiplist : repliesIn .skiplist mixedCalls =
      some [.add (.added 1), .add (.added 2), .removed 2] := by decide +kernel
  have differ := agree mixedCalls _ _ ofZiplist ofSkiplist
  revert differ
  decide

end LearningNotes.ZsetObject
