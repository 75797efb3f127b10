import LearningNotes.Zset.SkipOperations

/-! What the range deletions take out of the list of towers. -/

namespace LearningNotes.Zset

open Lib Util List

variable {S : Type} {zsl : Zskiplist S} {towers rev rest : List (Tower S)}
  {update : List (Addr × Nat)}

/-- The towers up to the first one that fails a test that counts them. -/
structure Removed (test : Tower S → Nat → Bool) (from_ : Nat) (rest gone kept : List (Tower S)) :
    Prop where
  split : rest = gone ++ kept
  passed : ∀ left t right, gone = left ++ t :: right → test t (from_ + left.length) = true
  ends : ∀ t more, kept = t :: more → test t (from_ + gone.length) = false

variable {test : Tower S → Nat → Bool} {from_ : Nat} {gone kept : List (Tower S)}

theorem Removed.cons {x : Tower S} {later : List (Tower S)}
    (removed : Removed test (from_ + 1) later gone kept) (first : test x from_ = true) :
    Removed test from_ (x :: later) (x :: gone) kept := by
  refine ⟨by rw [removed.split, cons_append], ?_, ?_⟩
  · intro left t right split
    cases left with
    | nil =>
      rw [nil_append, List.cons.injEq] at split
      rw [← split.1]
      exact first
    | cons y left =>
      rw [cons_append, List.cons.injEq] at split
      have passed := removed.passed left t right split.2
      rw [length_cons]
      rwa [show from_ + (left.length + 1) = from_ + 1 + left.length by omega]
  · intro t more shape
    have ends := removed.ends t more shape
    rw [length_cons]
    rwa [show from_ + (gone.length + 1) = from_ + 1 + gone.length by omega]

theorem Removed.eq_takeWhile {test : Tower S → Nat → Bool} {holds : Tower S → Bool} {from_ : Nat}
    {gone kept : List (Tower S)} (removed : Removed test from_ rest gone kept)
    (reads : ∀ t n, test t n = holds t) :
    (∀ t ∈ gone, holds t = true) ∧ ∀ t more, kept = t :: more → holds t = false := by
  constructor
  · intro t listed
    obtain ⟨left, right, split⟩ := append_of_mem listed
    rw [← reads t]
    exact removed.passed left t right split
  · intro t more shape
    rw [← reads t]
    exact removed.ends t more shape

theorem deleteWhile_spec {condition : Condition S} (reads : Reads condition test)
    (drawn : Drawn zsl (rev.reverse ++ rest))
    (crossed : ∀ i < zsl.level, update[i]? = some (crossing zsl.header i rev)) {fuel : Nat}
    (enough : rest.length < fuel) (deleted : List Bytes) :
    ∃ zsl' gone kept, deleteWhile condition update fuel (rest.head?.map Tower.addr) deleted zsl =
        .ok (deleted ++ gone.map Tower.ele, zsl') ∧
      Removed test deleted.length rest gone kept ∧ Drawn zsl' (rev.reverse ++ kept) := by
  -- The place stays the same while the list behind it gets shorter.
  induction fuel generalizing rest zsl deleted with
  | zero => omega
  | succ fuel ih =>
    cases rest with
    | nil =>
      refine ⟨zsl, [], [], by simp [deleteWhile], ⟨rfl, ?_, ?_⟩, drawn⟩
      · intro left t right split
        simp at split
      · intro t more shape
        cases shape
    | cons x later =>
      have read := drawn.deref (show rev.reverse ++ x :: later = rev.reverse ++ x :: later from rfl)
      have bottom : zsl.levelOf x.addr 0 = .ok (levelFor 0 later) :=
        drawn.levelOf rfl (drawn.positive x (by simp))
      have next : (levelFor 0 later).forward = later.head?.map Tower.addr :=
        levelFor_zero fun u listed => drawn.positive u (by simp [listed])
      rw [head?_cons, Option.map_some, deleteWhile]
      simp only [read, ok_bind, reads _ x _ _]
      by_cases further : test x deleted.length = true
      · obtain ⟨zsl', ran, drawn', _, header, lower⟩ := zslDeleteNode_spec drawn crossed
        have freed : Drawn (zsl'.zslFreeNode x.addr) (rev.reverse ++ later) := by
          apply drawn'.free
          rw [header]
          exact drawn.absent_of_first
        -- The entries of `update[]` still belong to the same place.
        have crossed' : ∀ i < (zsl'.zslFreeNode x.addr).level,
            update[i]? = some (crossing (zsl'.zslFreeNode x.addr).header i rev) := by
          intro i within
          rw [show (zsl'.zslFreeNode x.addr).header = zsl.header from header]
          exact crossed i (Nat.lt_of_lt_of_le within lower)
        obtain ⟨zsl'', gone, kept, rest, removed, last⟩ :=
          ih freed crossed' (by rw [length_cons] at enough; omega) (deleted ++ [x.ele])
        rw [length_append, length_singleton] at removed
        refine ⟨zsl'', x :: gone, kept, ?_, removed.cons further, last⟩
        rw [if_pos further]
        simp only [bottom, ok_bind, ran, nodeFor, Node.string, next, rest]
        simp
      · rw [if_neg further]
        refine ⟨zsl, [], x :: later, by rw [map_nil, append_nil]; rfl, ⟨rfl, ?_, ?_⟩,
          drawn⟩
        · intro left t right split
          simp at split
        · intro t more shape
          rw [List.cons.injEq] at shape
          rw [← shape.1]
          simpa using further

theorem deleteRange_spec {wrap : Nat → Nat} {before : Condition S} {within : Nat → Condition S}
    {test : Tower S → Nat → Bool} {inside : Nat → Tower S → Nat → Bool}
    (drawn : Drawn zsl towers) (reads : Reads before test)
    (readsInside : ∀ n, Reads (within n) (inside n)) (fits : ∀ n ≤ towers.length, wrap n = n) :
    ∃ zsl' rev gone kept update, deleteRange zsl wrap before within =
        .ok (gone.map Tower.ele, zsl') ∧
      Found zsl towers test rev (gone ++ kept) update ∧
      Removed (inside rev.length) 0 (gone ++ kept) gone kept ∧
      Drawn zsl' (rev.reverse ++ kept) := by
  obtain ⟨update, rev, rest, searched, found⟩ := search_spec drawn reads fits
  have split := found.split
  subst split
  have level := drawn.levelPositive
  have first : updateAt update 0 = .ok (crossing zsl.header 0 rev) := by
    rw [updateAt, found.crossed 0 level]
  have shorter : rest.length < zsl.length + 1 := by
    rw [drawn.length, length_append]
    omega
  obtain ⟨zsl', gone, kept, ran, removed, drawn'⟩ :=
    deleteWhile_spec (readsInside rev.length) drawn found.crossed shorter []
  have split := removed.split
  subst split
  refine ⟨zsl', rev, gone, kept, update, ?_, found, removed, drawn'⟩
  simp only [deleteRange, searched, ok_bind, first, drawn.nextOf found.crossed,
    drawn.crossing_zero, ran, nil_append]

theorem Removed.cut {test : Tower S → Nat → Bool} {holds : Tower S → Bool} {from_ : Nat}
    {gone kept : List (Tower S)} (removed : Removed test from_ rest gone kept)
    (reads : ∀ t n, test t n = holds t)
    (down : rest.Pairwise fun s t => holds t = true → holds s = true) :
    gone = rest.filter holds ∧ kept = rest.filter fun t => !holds t := by
  obtain ⟨passed, ends⟩ := removed.eq_takeWhile reads
  have split := removed.split
  subst split
  apply cut_eq_filter down (fun t last => passed t (mem_of_getLast? last))
  intro t first
  obtain ⟨later, shape⟩ := head?_eq_some_iff.mp first
  exact ends t later shape

theorem range_cut {inside : Tower S → Nat → Bool} {low high : Tower S → Bool}
    (found : Found zsl towers test rev (gone ++ kept) update)
    (removed : Removed inside from_ (gone ++ kept) gone kept) (bounds : Bounds low high towers)
    (reads : ∀ t n, test t n = !low t) (reads' : ∀ t n, inside t n = high t) :
    gone = towers.filter (fun t => low t && high t) ∧
      rev.reverse ++ kept = towers.filter fun t => !(low t && high t) := by
  obtain ⟨front, back⟩ := @Found.cut S zsl towers rev (gone ++ kept) update test (fun t => !low t)
    found reads bounds.below
  have split := found.split
  have down := bounds.down
  rw [split, pairwise_append] at down
  obtain ⟨goneEq, keptEq⟩ := removed.cut reads' down.2.1
  rw [split]
  apply filter_range
  · intro t listed
    rw [front, mem_filter] at listed
    simpa using listed.2
  · intro t listed
    rw [back, mem_filter] at listed
    simpa using listed.2
  · exact (removed.eq_takeWhile reads').1
  · intro t listed
    rw [keptEq, mem_filter] at listed
    simpa using listed.2

section Ranges

variable [LinearOrder S]

variable {range : RangeSpec S} {members : List (S × Bytes)} {a b : Bytes} {bound : LexBound}

theorem zslValueGteMin_mono {a b : S} (less : a ≤ b) (above : zslValueGteMin a range = true) :
    zslValueGteMin b range = true := by
  rw [zslValueGteMin] at above ⊢
  cases exclusive : range.minex with
  | true =>
    rw [exclusive] at above
    exact decide_eq_true (lt_of_lt_of_le (of_decide_eq_true above) less)
  | false =>
    rw [exclusive] at above
    exact decide_eq_true (le_trans (of_decide_eq_true above) less)

theorem zslValueLteMax_mono {a b : S} (less : a ≤ b) (below : zslValueLteMax b range = true) :
    zslValueLteMax a range = true := by
  rw [zslValueLteMax] at below ⊢
  cases exclusive : range.maxex with
  | true =>
    rw [exclusive] at below
    exact decide_eq_true (lt_of_le_of_lt less (of_decide_eq_true below))
  | false =>
    rw [exclusive] at below
    exact decide_eq_true (le_trans less (of_decide_eq_true below))

theorem scoreBounds (sorted : members.Pairwise KeyLt) (range : RangeSpec S) :
    Bounds (fun member => zslValueGteMin member.1 range)
      (fun member => zslValueLteMax member.1 range) members := by
  have scores : members.Pairwise fun a b => a.1 ≤ b.1 := by
    apply sorted.imp
    intro a b less
    rcases less with less | ⟨same, _⟩
    · exact le_of_lt less
    · exact le_of_eq same
  exact ⟨scores.imp fun less => zslValueGteMin_mono less,
    scores.imp fun less => zslValueLteMax_mono less⟩

theorem InOrder.scoreBounds (ordered : InOrder towers) (range : RangeSpec S) :
    Bounds (fun t => zslValueGteMin t.score range) (fun t => zslValueLteMax t.score range) towers :=
  (Zset.scoreBounds ordered range).of_map

theorem empty_range
    (empty : range.min > range.max ∨ (range.min = range.max ∧ (range.minex ∨ range.maxex)))
    (score : S) : (zslValueGteMin score range && zslValueLteMax score range) = false := by
  apply Bool.eq_false_iff.mpr
  intro inside
  rw [Bool.and_eq_true] at inside
  obtain ⟨above, below⟩ := inside
  rw [zslValueGteMin] at above
  rw [zslValueLteMax] at below
  have least : range.min ≤ score := by
    split at above
    · exact le_of_lt (of_decide_eq_true above)
    · exact of_decide_eq_true above
  have most : score ≤ range.max := by
    split at below
    · exact le_of_lt (of_decide_eq_true below)
    · exact of_decide_eq_true below
  rcases empty with more | ⟨same, exclusive⟩
  · exact absurd (le_trans least most) (not_le.mpr more)
  · rcases exclusive with minex | maxex
    · rw [if_pos minex] at above
      exact absurd (lt_of_lt_of_le (of_decide_eq_true above) most) (by rw [same]; exact lt_irrefl _)
    · rw [if_pos maxex] at below
      exact absurd (lt_of_le_of_lt least (of_decide_eq_true below)) (by rw [same]; exact lt_irrefl _)

theorem zslDeleteRangeByScore_spec (drawn : Drawn zsl towers) (ordered : InOrder towers)
    (range : RangeSpec S) :
    ∃ zsl', zslDeleteRangeByScore zsl range =
        .ok ((towers.filter fun t => zslValueGteMin t.score range &&
          zslValueLteMax t.score range).map Tower.ele, zsl') ∧
      Drawn zsl' (towers.filter fun t =>
        !(zslValueGteMin t.score range && zslValueLteMax t.score range)) := by
  obtain ⟨zsl', rev, gone, kept, update, ran, found, removed, drawn'⟩ :=
    @deleteRange_spec S zsl towers id (fun next _ => .ok !(zslValueGteMin next.score range))
      (fun _ x _ => .ok (zslValueLteMax x.score range)) (fun t _ => !zslValueGteMin t.score range)
      (fun _ t _ => zslValueLteMax t.score range) drawn (fun _ _ _ _ => rfl)
      (fun _ _ _ _ _ => rfl) (fun _ _ => rfl)
  obtain ⟨goneEq, keptEq⟩ :=
    range_cut found removed (ordered.scoreBounds range) (fun _ _ => rfl) (fun _ _ => rfl)
  rw [← goneEq, ← keptEq]
  exact ⟨zsl', ran, drawn'⟩

section

variable (less : sdscmp a b = .lt)
include less

theorem sdscmplex_gt (above : sdscmplex a bound ≠ .lt) : sdscmplex b bound = .gt := by
  cases bound with
  | minstring => rfl
  | maxstring => exact absurd rfl above
  | sds string =>
    rw [sdscmplex] at above ⊢
    have below : sdscmp string b = .lt := by
      cases compared : sdscmp a string with
      | lt => exact absurd compared above
      | eq => rw [← sdscmp_eq_iff.mp compared]; exact less
      | gt =>
        have turned := sdscmp_swap a string
        rw [compared] at turned
        exact sdscmp_lt_trans turned.symm less
    rw [← sdscmp_swap, below]
    rfl

theorem sdscmplex_lt (below : sdscmplex b bound ≠ .gt) : sdscmplex a bound = .lt := by
  apply Decidable.of_not_not
  exact fun above => below (sdscmplex_gt less above)

theorem zslLexValueGteMin_mono {range : LexRangeSpec}
    (above : zslLexValueGteMin a range = true) : zslLexValueGteMin b range = true := by
  have notBelow : sdscmplex a range.min ≠ .lt := by
    intro below
    rw [zslLexValueGteMin, below] at above
    split at above <;> cases above
  rw [zslLexValueGteMin, sdscmplex_gt less notBelow]
  cases range.minex <;> rfl

theorem zslLexValueLteMax_mono {range : LexRangeSpec}
    (below : zslLexValueLteMax b range = true) : zslLexValueLteMax a range = true := by
  have notAbove : sdscmplex b range.max ≠ .gt := by
    intro above
    rw [zslLexValueLteMax, above] at below
    split at below <;> cases below
  rw [zslLexValueLteMax, sdscmplex_lt less notAbove]
  cases range.maxex <;> rfl

end

/-- All towers have one score, as a lexicographic range supposes. -/
def OneScore (towers : List (Tower S)) : Prop := ∀ s ∈ towers, ∀ t ∈ towers, s.score = t.score

theorem lexBounds (sorted : members.Pairwise KeyLt)
    (oneScore : ∀ a ∈ members, ∀ b ∈ members, a.1 = b.1) (range : LexRangeSpec) :
    Bounds (fun member => zslLexValueGteMin member.2 range)
      (fun member => zslLexValueLteMax member.2 range) members := by
  have elements : members.Pairwise fun a b => sdscmp a.2 b.2 = .lt := by
    apply List.Pairwise.imp_of_mem ?_ sorted
    intro a b inA inB less
    rcases less with less | ⟨_, lex⟩
    · exact absurd (oneScore a inA b inB) (ne_of_lt less)
    · exact lex
  exact ⟨elements.imp fun less => zslLexValueGteMin_mono less,
    elements.imp fun less => zslLexValueLteMax_mono less⟩

theorem sdscmplexBounds_sds (a b : Bytes) : sdscmplexBounds (.sds a) (.sds b) = sdscmp a b := by
  rw [sdscmplexBounds]
  by_cases same : a = b
  · rw [if_pos (by rw [same]), sdscmp_eq_iff.mpr same]
  · rw [if_neg (by simpa using same), if_neg (by simp), if_neg (by simp)]
    rfl

/-- A range that is empty by its bounds contains no string. -/
theorem empty_lexRange {range : LexRangeSpec}
    (empty : sdscmplexBounds range.min range.max = .gt ∨
      (sdscmplexBounds range.min range.max = .eq ∧ (range.minex ∨ range.maxex))) (ele : Bytes) :
    (zslLexValueGteMin ele range && zslLexValueLteMax ele range) = false := by
  apply Bool.eq_false_iff.mpr
  intro inside
  rw [Bool.and_eq_true] at inside
  have above : sdscmplex ele range.min ≠ .lt := fun less => by
    have inside := inside.1
    rw [zslLexValueGteMin, less] at inside
    split at inside <;> cases inside
  have below : sdscmplex ele range.max ≠ .gt := fun more => by
    have inside := inside.2
    rw [zslLexValueLteMax, more] at inside
    split at inside <;> cases inside
  cases low : range.min with
  | minstring =>
    -- Nothing is below the smallest string but itself.
    cases high : range.max with
    | minstring => exact below (by rw [high]; rfl)
    | maxstring => rw [low, high] at empty; rcases empty with more | ⟨same, _⟩ <;> contradiction
    | sds most => rw [low, high] at empty; rcases empty with more | ⟨same, _⟩ <;> contradiction
  | maxstring => exact above (by rw [low]; rfl)
  | sds least =>
    cases high : range.max with
    | minstring => exact below (by rw [high]; rfl)
    | maxstring => rw [low, high] at empty; rcases empty with more | ⟨same, _⟩ <;> contradiction
    | sds most =>
      rw [low] at above
      rw [high] at below
      rw [low, high, sdscmplexBounds_sds] at empty
      rcases empty with more | ⟨same, exclusive⟩
      · -- A string that is not below the minimum is above the maximum.
        cases compared : sdscmp ele least with
        | lt => exact above compared
        | eq => exact below (by rw [sdscmp_eq_iff.mp compared]; exact more)
        | gt =>
          have order : sdscmp least ele = .lt := by rw [← sdscmp_swap, compared]; rfl
          have notBelow : sdscmplex least (.sds most) ≠ .lt := by rw [sdscmplex, more]; simp
          exact below (sdscmplex_gt order notBelow)
      -- A string between equal bounds is the bound, which is excluded.
      rw [← sdscmp_eq_iff.mp same] at below high
      have equal : sdscmp ele least = .eq := by
        cases compared : sdscmp ele least with
        | lt => exact absurd compared above
        | eq => rfl
        | gt => exact absurd compared below
      rw [zslLexValueGteMin, zslLexValueLteMax, low, high, sdscmplex, equal] at inside
      rcases exclusive with minex | maxex
      · simp [minex] at inside
      · simp [maxex] at inside

theorem InOrder.lexBounds (ordered : InOrder towers) (oneScore : OneScore towers)
    (range : LexRangeSpec) :
    Bounds (fun t => zslLexValueGteMin t.ele range) (fun t => zslLexValueLteMax t.ele range)
      towers := by
  apply (Zset.lexBounds ordered _ range).of_map
  simp only [forall_mem_map]
  exact oneScore

theorem zslDeleteRangeByLex_spec (drawn : Drawn zsl towers) (ordered : InOrder towers)
    (range : LexRangeSpec) :
    ∃ zsl' before gone kept, zslDeleteRangeByLex zsl range = .ok (gone.map Tower.ele, zsl') ∧
      towers = before ++ (gone ++ kept) ∧ Drawn zsl' (before ++ kept) ∧
      (∀ t, before.getLast? = some t → zslLexValueGteMin t.ele range = false) ∧
      (∀ t, (gone ++ kept).head? = some t → zslLexValueGteMin t.ele range = true) ∧
      (∀ t ∈ gone, zslLexValueLteMax t.ele range = true) ∧
      (∀ t, kept.head? = some t → zslLexValueLteMax t.ele range = false) ∧
      (OneScore towers →
        gone = towers.filter (fun t =>
          zslLexValueGteMin t.ele range && zslLexValueLteMax t.ele range) ∧
        before ++ kept = towers.filter fun t =>
          !(zslLexValueGteMin t.ele range && zslLexValueLteMax t.ele range)) := by
  obtain ⟨zsl', rev, gone, kept, update, ran, found, removed, drawn'⟩ :=
    @deleteRange_spec S zsl towers id
      (fun next _ => do
        let ele ← next.string
        return !(zslLexValueGteMin ele range))
      (fun _ x _ => do
        let ele ← x.string
        return zslLexValueLteMax ele range)
      (fun t _ => !zslLexValueGteMin t.ele range)
      (fun _ t _ => zslLexValueLteMax t.ele range) drawn (fun _ _ _ _ => rfl)
      (fun _ _ _ _ _ => rfl) (fun _ _ => rfl)
  have bounds := @Removed.eq_takeWhile S (gone ++ kept) _ (fun t => zslLexValueLteMax t.ele range) 0
    gone kept removed (fun _ _ => rfl)
  refine ⟨zsl', rev.reverse, gone, kept, ran, found.split, drawn', ?_, ?_, bounds.1, ?_, ?_⟩
  · intro t last
    rcases found.passed with none_ | ⟨u, tail, shape, passed⟩
    · simp [none_] at last
    · rw [shape, reverse_cons, getLast?_concat, Option.some.injEq] at last
      rw [← last]
      simpa using passed
  · intro t first
    obtain ⟨later, shape⟩ := head?_eq_some_iff.mp first
    simpa using found.ends t later shape
  · intro t first
    obtain ⟨later, shape⟩ := head?_eq_some_iff.mp first
    exact bounds.2 t later shape
  · intro oneScore
    exact range_cut found removed (ordered.lexBounds oneScore range) (fun _ _ => rfl)
      (fun _ _ => rfl)

omit [LinearOrder S] in
theorem zslDeleteRangeByRank_spec (drawn : Drawn zsl towers) (start stop : Nat) :
    ∃ zsl', zslDeleteRangeByRank zsl start stop =
        .ok (((towers.take stop).drop (start - 1)).map Tower.ele, zsl') ∧
      Drawn zsl' (towers.take (start - 1) ++ towers.drop (max (start - 1) stop)) := by
  have counted := drawn.counted
  obtain ⟨zsl', rev, gone, kept, update, ran, found, removed, drawn'⟩ :=
    @deleteRange_spec S zsl towers (· % 2 ^ 64) (fun _ reached => .ok (decide (reached < start)))
      (fun traversed _ removed => .ok (decide (traversed + 1 + removed ≤ stop)))
      (fun _ rank => decide (rank < start))
      (fun n _ gone => decide (n + 1 + gone ≤ stop)) drawn (fun _ _ _ _ => rfl)
      (fun _ _ _ _ _ => rfl) (fun n small => Nat.mod_eq_of_lt (by omega))
  have split := found.split
  -- The search stops when the rank is reached or the list ends.
  have reached : rev.length ≤ start - 1 := by
    rcases found.passed with none_ | ⟨t, tail, _, passed⟩
    · simp [none_]
    · have passed := of_decide_eq_true passed
      omega
  have place : rev.length = start - 1 ∨ gone ++ kept = [] := by
    cases ahead : gone ++ kept with
    | nil => exact .inr rfl
    | cons t later =>
      have stopped := of_decide_eq_false (found.ends t later ahead)
      left
      omega
  -- The deletion stops behind the last rank or at the end of the list.
  have most : gone = [] ∨ rev.length + gone.length ≤ stop := by
    rcases eq_nil_or_concat gone with none_ | ⟨others, last, shape⟩
    · exact .inl none_
    · rw [concat_eq_append] at shape
      have passed := of_decide_eq_true (removed.passed others last [] shape)
      rw [shape, length_append, length_singleton]
      right
      omega
  have least : kept = [] ∨ stop ≤ rev.length + gone.length := by
    cases remaining : kept with
    | nil => exact .inl rfl
    | cons t more =>
      have stopped := of_decide_eq_false (removed.ends t more remaining)
      right
      omega
  have enough : gone.length ≤ stop - rev.length := by
    rcases most with none_ | most
    · simp [none_]
    · omega
  have goneEq : (gone ++ kept).take (stop - rev.length) = gone := by
    rcases least with none_ | least
    · rw [none_, append_nil, take_of_length_le enough]
    · rw [show stop - rev.length = gone.length by omega, take_left]
  have keptEq : (gone ++ kept).drop (stop - rev.length) = kept := by
    rcases least with none_ | least
    · rw [none_, append_nil, drop_of_length_le enough]
    · rw [show stop - rev.length = gone.length by omega, drop_left]
  refine ⟨zsl', ?_, ?_⟩
  · suffices same : (towers.take stop).drop (start - 1) = gone by
      rw [same]
      exact ran
    rw [drop_take, split]
    rcases place with here | none_
    · rw [← here, ← length_reverse, drop_left, length_reverse, goneEq]
    · have empty := append_eq_nil_iff.mp none_
      rw [none_, empty.1, append_nil, drop_of_length_le (by simpa using reached), take_nil]
  suffices same : towers.take (start - 1) ++ towers.drop (max (start - 1) stop) =
      rev.reverse ++ kept by
    rw [same]
    exact drawn'
  rw [split]
  rcases place with here | none_
  · have beyond : max rev.length stop = rev.length + (stop - rev.length) := by omega
    rw [← here, beyond, ← drop_drop, ← length_reverse, drop_left, take_left, length_reverse, keptEq]
  · have empty := append_eq_nil_iff.mp none_
    rw [none_, empty.2, append_nil,
      take_of_length_le (by simpa using reached), drop_of_length_le (by simp; omega),
      append_nil]

end Ranges

end LearningNotes.Zset
