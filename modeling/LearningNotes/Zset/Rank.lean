import LearningNotes.Zset.SkipOperations

/-! The lookups by rank: what a search passes on each level, and what they make of it. -/

namespace LearningNotes.Zset

open Lib Util List

variable {S : Type} {zsl : Zskiplist S} {towers rev rest : List (Tower S)}

variable {update : List (Addr × Nat)} {rank count : Nat} {x : Addr} {t : Tower S} {score : S}
    {ele : Bytes}

theorem Found.mem_update {test : Tower S → Nat → Bool}
    (found : Found zsl towers test rev rest update) {entry : Addr × Nat} :
    entry ∈ update ↔ ∃ i < zsl.level, entry = crossing zsl.header i rev := by
  rw [mem_iff_getElem?]
  constructor
  · rintro ⟨i, read⟩
    have within := (List.getElem?_eq_some_iff.mp read).1
    rw [found.sized] at within
    rw [found.crossed i within] at read
    exact ⟨i, within, (Option.some.inj read).symm⟩
  · rintro ⟨i, within, same⟩
    exact ⟨i, same ▸ found.crossed i within⟩

theorem elementFrom_seek {traversed : Nat}
    (ran : seek zsl (· % 2 ^ 64) (fun _ reached => .ok (decide (reached ≤ rank))) count x traversed
      = .ok update) :
    elementFrom zsl rank count x traversed =
      .ok ((update.reverse.find? fun entry => entry.2 == rank).map Prod.fst) := by
  induction count generalizing x traversed update with
  | zero =>
    cases ran
    rfl
  | succ i ih =>
    obtain ⟨⟨x', reached⟩, onLevel, ran⟩ := bind_eq_ok.mp ran
    obtain ⟨below, lower, ran⟩ := bind_eq_ok.mp ran
    cases ran
    rw [elementFrom, onLevel, ok_bind, reverse_append, reverse_singleton,
      singleton_append, find?_cons]
    by_cases here : reached = rank
    · simp [here]
      rfl
    · simp only [here, beq_eq_false_iff_ne.mpr here]
      exact ih lower

theorem crossing_last {header : Addr} {i : Nat}
    (last : (crossing header i (t :: rev)).2 = rev.length + 1) :
    (crossing header i (t :: rev)).1 = t.addr := by
  rw [crossing] at last ⊢
  split at last
  · rename_i tall
    rw [if_pos tall]
  · have rank := crossing_rank_le header i rev
    omega

theorem zslGetElementByRank_spec (drawn : Drawn zsl towers) (rank : Nat) :
    zslGetElementByRank zsl rank =
      .ok (zsl.header :: towers.map Tower.addr)[rank]? := by
  have counted := drawn.counted
  obtain ⟨update, rev, rest, searched, found⟩ := @search_spec S zsl towers
    (fun _ reached => decide (reached ≤ rank)) (fun _ reached => .ok (decide (reached ≤ rank)))
    (· % 2 ^ 64) drawn (fun _ _ _ _ => rfl) (fun n small => Nat.mod_eq_of_lt (by omega))
  have split := found.split
  subst split
  rw [zslGetElementByRank, elementFrom_seek searched]
  -- The search goes on until the rank is reached or the list ends.
  have most : rev.length ≤ rank := by
    rcases found.passed with none_ | ⟨t, tail, _, passed⟩
    · simp [none_]
    · exact of_decide_eq_true passed
  have least : rest = [] ∨ rank ≤ rev.length := by
    cases ahead : rest with
    | nil => exact .inl rfl
    | cons t later =>
      have stopped := of_decide_eq_false (found.ends t later ahead)
      omega
  have entries : ∀ entry, entry ∈ update.reverse ↔
      ∃ i < zsl.level, entry = crossing zsl.header i rev := by
    intro entry
    rw [mem_reverse, found.mem_update]
  by_cases here : rev.length = rank
  · -- Level 0 stands at the rank, and a higher level that does stands at the same node.
    obtain ⟨entry, picked⟩ : ∃ entry, update.reverse.find? (fun entry => entry.2 == rank) =
        some entry := by
      rw [← Option.isSome_iff_exists, find?_isSome]
      refine ⟨crossing zsl.header 0 rev, (entries _).mpr ⟨0, drawn.levelPositive, rfl⟩, ?_⟩
      simp [drawn.crossing_zero, here]
    obtain ⟨i, _, crossed⟩ := (entries entry).mp (mem_of_find?_eq_some picked)
    have same : entry.2 = rank := by simpa using find?_some picked
    rw [picked, Option.map_some]
    subst crossed here
    cases rev with
    | nil => rfl
    | cons t rev =>
      rw [crossing_last same]
      simp
  · -- The rank is beyond the end of the list.
    have ended := least.resolve_right (by omega)
    subst ended
    rw [find?_eq_none.mpr]
    · simp
      omega
    · intro entry listed
      obtain ⟨i, _, crossed⟩ := (entries entry).mp listed
      have bound := crossing_rank_le zsl.header i rev
      simp only [crossed, beq_iff_eq]
      omega

/-- What a node has as its element; the header has none. -/
def elementAt (zsl : Zskiplist S) (x : Addr) : Option Bytes := (zsl.heap x).bind Node.ele

theorem Drawn.elementAt (drawn : Drawn zsl towers) :
    elementAt zsl zsl.header = none ∧ ∀ t ∈ towers, elementAt zsl t.addr = some t.ele := by
  constructor
  · obtain ⟨node, stored, noEle, _⟩ := drawn.header
    simp [Zset.elementAt, stored, noEle]
  · intro t listed
    obtain ⟨left, right, split⟩ := append_of_mem listed
    simp [Zset.elementAt, drawn.cells _ _ _ split, nodeFor]

variable [LinearOrder S]

theorem rankFrom_seek (ran : seek zsl (· % 2 ^ 64) (notBehind score ele) count x rank = .ok update)
    (stored : ∀ entry ∈ update, zsl.heap entry.1 ≠ none) :
    rankFrom zsl score ele count x rank = .ok (((update.reverse.find? fun entry =>
      elementAt zsl entry.1 == some ele).map Prod.snd).getD 0) := by
  induction count generalizing x rank update with
  | zero =>
    cases ran
    rfl
  | succ i ih =>
    obtain ⟨⟨x', reached⟩, onLevel, ran⟩ := bind_eq_ok.mp ran
    obtain ⟨below, lower, ran⟩ := bind_eq_ok.mp ran
    cases ran
    have onward := ih lower fun entry listed => stored entry (mem_append_left _ listed)
    obtain ⟨node, here⟩ := Option.ne_none_iff_exists'.mp (stored (x', reached) (by simp))
    rw [rankFrom, onLevel, reverse_append, reverse_singleton, singleton_append, find?_cons]
    simp only [Zskiplist.deref, here, ok_bind, elementAt, Option.bind_some]
    cases ele' : node.ele with
    | none => exact onward
    | some other =>
      by_cases same : other = ele
      · simp [same, sdscmp_eq_iff.mpr]
        rfl
      · have differs : sdscmp other ele ≠ .eq := fun equal => same (sdscmp_eq_iff.mp equal)
        have unequal : (some other == some ele) = false := by simpa using same
        simp only [differs, if_false, onward, unequal, elementAt]

theorem notBehind_reads (score : S) (ele : Bytes) :
    Reads (notBehind score ele) fun t _ => !decide (KeyLt (score, ele) t.key) := by
  intro left t right rank
  show (if t.score < score then .ok true
    else if t.score = score then .ok (sdscmp t.ele ele != .gt) else .ok false) =
      (.ok (!decide (score < t.score ∨ score = t.score ∧ sdscmp ele t.ele = .lt)) :
        Except Fault Bool)
  by_cases less : t.score < score
  · have notMore : ¬ (score < t.score ∨ score = t.score ∧ sdscmp ele t.ele = .lt) := by
      intro either
      rcases either with more | ⟨same, _⟩
      · exact lt_asymm less more
      · exact lt_irrefl _ (same ▸ less)
    rw [if_pos less, decide_eq_false notMore]
    rfl
  by_cases same : t.score = score
  · have only : (score < t.score ∨ score = t.score ∧ sdscmp ele t.ele = .lt) ↔
        sdscmp t.ele ele = .gt := by
      rw [← sdscmp_swap t.ele ele]
      constructor
      · intro either
        rcases either with more | ⟨_, lower⟩
        · exact absurd (same ▸ more) (lt_irrefl _)
        · cases compared : sdscmp t.ele ele <;> simp [compared] at lower ⊢
      · intro upper
        exact .inr ⟨same.symm, by rw [upper]; rfl⟩
    rw [if_neg less, if_pos same, decide_eq_decide.mpr only]
    rfl
  · have more : score < t.score := lt_of_le_of_ne (not_lt.mp less) (Ne.symm same)
    rw [if_neg less, if_neg same, decide_eq_true (.inl more)]
    rfl

/-- A tower with the element at the end of a level, in a list that is read backwards. -/
def Seen (ele : Bytes) (rev lower : List (Tower S)) (t : Tower S) (others : List (Tower S)) :
    Prop :=
  rev = lower ++ t :: others ∧ t.ele = ele ∧ ∀ u ∈ lower, u.height < t.height

/-- `zslGetRank` sees the nodes that no other one hides. -/
theorem zslGetRank_meets (drawn : Drawn zsl towers) (ordered : InOrder towers) (score : S)
    (ele : Bytes) :
    ∃ rev rest, towers = rev.reverse ++ rest ∧ (∀ t ∈ rev, ¬ KeyLt (score, ele) t.key) ∧
      (∀ t ∈ rest, KeyLt (score, ele) t.key) ∧
      ((zslGetRank zsl score ele = .ok 0 ∧ ∀ lower t others, ¬ Seen ele rev lower t others) ∨
        ∃ lower t others, Seen ele rev lower t others ∧
          zslGetRank zsl score ele = .ok (others.length + 1)) := by
  have counted := drawn.counted
  obtain ⟨update, rev, rest, searched, found⟩ := search_spec drawn (notBehind_reads score ele)
    (fun n small => Nat.mod_eq_of_lt (show n < 2 ^ 64 by omega))
  obtain ⟨front, back⟩ := @Found.cut S zsl towers rev rest update _
    (fun t => !decide (KeyLt (score, ele) t.key)) found (fun _ _ => rfl) (ordered.keys.imp (by
      intro s t less behind
      have notMore : ¬ KeyLt (score, ele) t.key := by simpa using behind
      simpa using fun more : KeyLt (score, ele) s.key => notMore (more.trans less)))
  have split := found.split
  refine ⟨rev, rest, split, ?_, ?_, ?_⟩
  · intro t listed
    rw [← mem_reverse, front, mem_filter] at listed
    simpa using listed.2
  · intro t listed
    rw [back, mem_filter] at listed
    simpa using listed.2
  subst split
  obtain ⟨noElement, elements⟩ := drawn.elementAt
  have stored : ∀ entry ∈ update, zsl.heap entry.1 ≠ none := by
    intro entry listed none_
    obtain ⟨i, within, crossed⟩ := found.mem_update.mp listed
    obtain ⟨node, here, _⟩ := drawn.readable i (Nat.zero_le i) within
    rw [crossed, here] at none_
    cases none_
  rw [zslGetRank, rankFrom_seek searched stored]
  cases picked : update.reverse.find? fun entry => Zset.elementAt zsl entry.1 == some ele with
  | none =>
    refine .inl ⟨rfl, ?_⟩
    rintro lower t others ⟨shape, named, high⟩
    -- The highest level of the tower would have ended there.
    have positive := drawn.positive t (by simp [shape])
    have bounded := drawn.bounded t (by simp [shape])
    have low : Low (t.height - 1) lower := fun u listed => Nat.le_sub_one_of_lt (high u listed)
    have crossed : crossing zsl.header (t.height - 1) rev = (t.addr, others.length + 1) := by
      rw [shape, crossing_append_low low, crossing, if_pos (by omega)]
    have other := find?_eq_none.mp picked (t.addr, others.length + 1)
      (mem_reverse.mpr (found.mem_update.mpr ⟨_, by omega, crossed.symm⟩))
    simp [elements t (by simp [shape]), named] at other
  | some entry =>
    obtain ⟨i, _, crossed⟩ :=
      found.mem_update.mp (mem_reverse.mp (mem_of_find?_eq_some picked))
    have named : Zset.elementAt zsl entry.1 = some ele := by simpa using find?_some picked
    rcases crossing_cases zsl.header i rev with
      ⟨_, top⟩ | ⟨lower, t, others, shape, low, tall, top⟩
    · rw [crossed, top, noElement] at named
      cases named
    · rw [crossed, top, elements t (by simp [shape]), Option.some.injEq] at named
      refine .inr ⟨lower, t, others, ⟨shape, named, ?_⟩, by rw [crossed, top]; rfl⟩
      exact fun u listed => Nat.lt_of_le_of_lt (low u listed) tall

theorem zslGetRank_spec (drawn : Drawn zsl towers) (ordered : InOrder towers)
    (unique : (towers.map Tower.ele).Nodup) {before later : List (Tower S)}
    (place : towers = before ++ t :: later) :
    zslGetRank zsl t.score t.ele = .ok (before.length + 1) := by
  obtain ⟨rev, rest, split, passed, ahead, result⟩ := zslGetRank_meets drawn ordered t.score t.ele
  have around := (place ▸ ordered).around
  -- The search passes the node and nothing behind it.
  have here : rev.reverse = before ++ [t] := by
    rcases split_cases (split.symm.trans place) with ⟨more, _, ends⟩ | ⟨more, eq, ends⟩
    · exact absurd (ahead t (by simp [ends])) (KeyLt.irrefl _)
    · cases more with
      | nil => exact eq
      | cons u more =>
        exact absurd (around.2 u (by simp [ends])) (passed u (mem_reverse.mp (by simp [eq])))
  have reversed : rev = t :: before.reverse := by
    rw [← reverse_reverse rev, here]
    simp
  rcases result with ⟨_, unseen⟩ | ⟨lower, u, others, ⟨shape, named, _⟩, rank⟩
  · exact absurd ⟨reversed, rfl, by simp⟩ (unseen [] t before.reverse)
  -- No other node has the element.
  cases lower with
  | nil =>
    rw [reversed, nil_append, List.cons.injEq] at shape
    rw [rank, ← shape.2, length_reverse]
  | cons v lower =>
    rw [reversed, cons_append, List.cons.injEq] at shape
    rw [place, map_append, nodup_append] at unique
    have listed : u ∈ before := mem_reverse.mp (by simp [shape.2])
    exact absurd named (unique.2.2 _ (mem_map_of_mem listed) _ mem_cons_self)

/-- A node with the element is before the key, and none between is as high. -/
def Shadowed (towers : List (Tower S)) (key : S × Bytes) : Prop :=
  ∃ before t later, towers = before ++ t :: later ∧ t.ele = key.2 ∧ KeyLt t.key key ∧
    ∀ u ∈ later, KeyLt u.key key → u.height < t.height

theorem zslGetRank_absent (drawn : Drawn zsl towers) (ordered : InOrder towers)
    (absent : ∀ t ∈ towers, t.key ≠ (score, ele)) :
    zslGetRank zsl score ele = .ok 0 ↔ ¬ Shadowed towers (score, ele) := by
  obtain ⟨rev, rest, split, passed, ahead, result⟩ := zslGetRank_meets drawn ordered score ele
  subst split
  have less : ∀ t ∈ rev, KeyLt t.key (score, ele) := by
    intro t listed
    exact (KeyLt.total (absent t (by simp [listed]))).resolve_right (passed t listed)
  have shadowed : Shadowed (rev.reverse ++ rest) (score, ele) ↔
      ∃ lower t others, Seen ele rev lower t others := by
    constructor
    · rintro ⟨before, t, later, whole, named, isBefore, lower⟩
      rcases split_cases whole with ⟨more, _, ends⟩ | ⟨more, eq, ends⟩
      · exact absurd isBefore (ahead t (by simp [ends])).asymm
      have reversed : rev = more.reverse ++ t :: before.reverse := by
        rw [← reverse_reverse rev, eq]
        simp
      refine ⟨more.reverse, t, before.reverse, reversed, named, ?_⟩
      intro u listed
      exact lower u (by simp [ends, mem_reverse.mp listed]) (less u (by simp [reversed, listed]))
    · rintro ⟨lower, t, others, shape, named, high⟩
      refine ⟨others.reverse, t, lower.reverse ++ rest, by simp [shape], named,
        less t (by simp [shape]), ?_⟩
      intro u listed isBefore
      rcases mem_append.mp listed with inside | behind
      · exact high u (mem_reverse.mp inside)
      · exact absurd isBefore (ahead u behind).asymm
  rw [shadowed]
  rcases result with ⟨zero, unseen⟩ | ⟨lower, t, others, seen, rank⟩
  · exact iff_of_true zero fun ⟨lower, t, others, seen⟩ => unseen lower t others seen
  · exact iff_of_false (by simp [rank]) fun none_ => none_ ⟨lower, t, others, seen⟩

end LearningNotes.Zset
