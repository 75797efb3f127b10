import LearningNotes.Util.Ctype
import Mathlib.Data.List.DropRight

/-! Glob-style patterns, as `stringmatchlen` of `util.c` matches them. -/

namespace LearningNotes.Glob

open Lib Util List

/-- The comparison of a byte of the pattern with one of the string. -/
def same (nocase : Bool) (byte c : UInt8) : Bool :=
  if nocase then tolower byte = tolower c else byte = c

/-- A range of a class; the bytes are compared as signed characters. -/
def between (nocase : Bool) (first last c : UInt8) : Bool :=
  let (start, stop) := if first.toInt8 > last.toInt8 then (last, first) else (first, last)
  let fold := if nocase then tolower else id
  (fold c).toInt8 ≥ (fold start).toInt8 ∧ (fold c).toInt8 ≤ (fold stop).toInt8

/-- The loop over a class: whether the byte is in it, and the pattern behind it. -/
def scanClass (nocase : Bool) (c : UInt8) (found : Bool) : Bytes → Bool × Bytes
  | [] => (found, [])
  | byte :: rest =>
    if byte = 92 ∧ rest ≠ [] then scanClass nocase c (found || rest.head? = some c) rest.tail
    else if byte = 93 then (found, rest)
    else if 2 ≤ rest.length ∧ rest.head? = some 45 then
      scanClass nocase c (found || between nocase byte (rest.getD 1 0) c) (rest.drop 2)
    else scanClass nocase c (found || same nocase byte c) rest
termination_by pattern => pattern.length
decreasing_by
  all_goals
    simp only [length_tail, length_drop, length_cons]
    omega

/-- A class in brackets, behind the opening one. -/
def matchClass (nocase : Bool) (c : UInt8) (pattern : Bytes) : Bool × Bytes :=
  let negated := pattern.head? = some 94
  let (found, rest) := scanClass nocase c false (if negated then pattern.tail else pattern)
  (if negated then !found else found, rest)

/-- A round of the loop for what is no star: whether the byte is accepted, and the pattern left. -/
def matchOne (nocase : Bool) (c byte : UInt8) (rest : Bytes) : Bool × Bytes :=
  if byte = 63 then (true, rest)
  else if byte = 91 then matchClass nocase c rest
  else if byte = 92 ∧ rest ≠ [] then (same nocase (rest.headD 0) c, rest.tail)
  else (same nocase byte c, rest)

/-- The loop behind a star, which tries the rest of the pattern at every place. The flag is
`skipLongerMatches`. -/
def retry (prune : Bool) (attempt : Bytes → Bool → Bool × Bool) : Bytes → Bool → Bool × Bool
  | [], _ => (false, true)
  | c :: string, skip =>
    match attempt (c :: string) skip with
    | (true, skip) => (true, skip)
    | (false, skip) => if prune && skip then (false, skip) else retry prune attempt string skip

/-- `stringmatchlen_impl` with the flag, which is ignored unless `prune` is set. Each round takes at
least one byte of the pattern. -/
def stringmatchlenImpl (prune nocase : Bool) : Nat → Bytes → Bytes → Bool → Bool × Bool
  | rounds + 1, byte :: rest, c :: string, skip =>
    if byte = 42 then
      let rest := rest.dropWhile (· = 42)
      if rest = [] then (true, skip)
      else retry prune (stringmatchlenImpl prune nocase rounds rest) (c :: string) skip
    else
      let (found, rest) := matchOne nocase c byte rest
      if !found then (false, skip)
      else if string = [] then (rest.dropWhile (· = 42) = [], skip)
      else stringmatchlenImpl prune nocase rounds rest string skip
  | _, pattern, string, skip => (pattern = [] ∧ string = [], skip)

def stringmatchlen (prune nocase : Bool) (pattern string : Bytes) : Bool :=
  (stringmatchlenImpl prune nocase pattern.length pattern string false).1

/-- The test of `keysCommand`, and of SCAN if the key is not filtered out. -/
def selects (pattern key : Bytes) : Bool :=
  let allkeys := pattern.head? = some 42 ∧ pattern.length = 1
  allkeys || stringmatchlen true false pattern key

/-- The strings that a pattern stands for. -/
inductive InGlob (nocase : Bool) : Bytes → Bytes → Prop
  | done : InGlob nocase [] []
  | star {rest left string} : left <:+ string →
    InGlob nocase rest left → InGlob nocase (42 :: rest) string
  | any {rest c string} : InGlob nocase rest string → InGlob nocase (63 :: rest) (c :: string)
  | ofClass {pattern rest c string} : matchClass nocase c pattern = (true, rest) →
    InGlob nocase rest string → InGlob nocase (91 :: pattern) (c :: string)
  | escaped {byte rest c string} : same nocase byte c →
    InGlob nocase rest string → InGlob nocase (92 :: byte :: rest) (c :: string)
  | literal {byte rest c string} : byte ∉ [42, 63, 91] → (byte = 92 → rest = []) →
    same nocase byte c → InGlob nocase rest string → InGlob nocase (byte :: rest) (c :: string)

variable {prune nocase found skip : Bool} {byte c d : UInt8} {pattern rest string : Bytes}

theorem scanClass_rest (other : Bool) : (scanClass nocase c found pattern).2 =
    (scanClass nocase d other pattern).2 := by
  fun_induction scanClass nocase c found pattern generalizing other with
  | case1 => simp [scanClass]
  | case2 found byte rest escape ih => rw [scanClass.eq_2 nocase d, if_pos escape, ih]
  | case3 byte rest plain => rw [scanClass.eq_2 nocase d, if_neg plain, if_pos rfl]
  | case4 found byte rest plain noClose range ih =>
    rw [scanClass.eq_2 nocase d, if_neg plain, if_neg noClose, if_pos range, ih]
  | case5 found byte rest plain noClose noRange ih =>
    rw [scanClass.eq_2 nocase d, if_neg plain, if_neg noClose, if_neg noRange, ih]

theorem scanClass_length : (scanClass nocase c found pattern).2.length ≤ pattern.length := by
  fun_induction scanClass nocase c found pattern with
  | case1 => exact Nat.le_refl 0
  | case2 => grind
  | case3 => simp
  | case4 => grind
  | case5 => grind

theorem matchOne_rest : (matchOne nocase c byte rest).2 = (matchOne nocase d byte rest).2 := by
  unfold matchOne
  split_ifs
  · rfl
  · exact scanClass_rest false
  · rfl
  · rfl

theorem matchOne_length : (matchOne nocase c byte rest).2.length ≤ rest.length := by
  unfold matchOne
  split_ifs
  · exact Nat.le_refl _
  · refine Nat.le_trans scanClass_length ?_
    split <;> simp
  · simp
  · exact Nat.le_refl _

theorem inGlob_nil : InGlob nocase [] string ↔ string = [] := by
  constructor
  · rintro ⟨⟩
    rfl
  · rintro rfl
    exact .done

theorem inGlob_star :
    InGlob nocase (42 :: rest) string ↔ ∃ left, left <:+ string ∧ InGlob nocase rest left := by
  constructor
  · intro matched
    cases matched with
    | star suffix matched => exact ⟨_, suffix, matched⟩
    | literal plain => exact absurd plain (by decide)
  · rintro ⟨left, suffix, matched⟩
    exact .star suffix matched

theorem inGlob_one (plain : byte ≠ 42) : InGlob nocase (byte :: rest) (c :: string) ↔
    (matchOne nocase c byte rest).1 = true ∧
      InGlob nocase (matchOne nocase c byte rest).2 string := by
  unfold matchOne
  constructor
  · intro matched
    cases matched with
    | star => exact absurd rfl plain
    | any matched => exact ⟨rfl, matched⟩
    | ofClass accepted matched =>
      rw [if_neg (by decide), if_pos rfl, accepted]
      exact ⟨rfl, matched⟩
    | escaped equal matched => exact ⟨equal, matched⟩
    | literal other last equal matched =>
      simp only [mem_cons, not_mem_nil, or_false, not_or] at other
      rw [if_neg other.2.1, if_neg other.2.2, if_neg fun both => both.2 (last both.1)]
      exact ⟨equal, matched⟩
  · rintro ⟨accepted, matched⟩
    split_ifs at accepted matched with any opened escape
    · exact any ▸ .any matched
    · exact opened ▸ .ofClass (Prod.ext accepted rfl) matched
    · obtain ⟨rfl, more⟩ := escape
      obtain ⟨byte, rest, rfl⟩ := exists_cons_of_ne_nil more
      exact .escaped accepted matched
    · refine .literal ?_ ?_ accepted matched
      · simp [plain, any, opened]
      · intro slash
        by_contra more
        exact escape ⟨slash, more⟩

theorem inGlob_stars : InGlob nocase (42 :: rest) string ↔
    InGlob nocase (42 :: rest.dropWhile (· = 42)) string := by
  induction rest with
  | nil => rfl
  | cons byte rest ih =>
    by_cases star : byte = 42
    · rw [dropWhile_cons_of_pos (by simpa using star), ← ih, star, inGlob_star]
      constructor
      · rintro ⟨left, suffix, matched⟩
        obtain ⟨end_, more, matched⟩ := inGlob_star.mp matched
        exact inGlob_star.mpr ⟨end_, more.trans suffix, matched⟩
      · intro matched
        exact ⟨string, suffix_rfl, matched⟩
    · rw [dropWhile_cons_of_neg (by simpa using star)]

theorem inGlob_empty : InGlob nocase pattern [] ↔ pattern.dropWhile (· = 42) = [] := by
  induction pattern with
  | nil => exact iff_of_true .done rfl
  | cons byte rest ih =>
    by_cases star : byte = 42
    · rw [dropWhile_cons_of_pos (by simpa using star), ← ih, star, inGlob_star]
      simp
    · rw [dropWhile_cons_of_neg (by simpa using star)]
      refine iff_of_false ?_ (by simp)
      rintro ⟨⟩
      exact star rfl

/-- The answer is right, and the flag is raised only if no later part of the string matches. -/
def Answers (prune : Bool) (language : Bytes → Prop) (string : Bytes) (answer : Bool × Bool) : Prop :=
  (answer.1 = true ↔ language string) ∧
    (prune = true → answer = (false, true) → ∀ left, left <:+ string → ¬ language left)

theorem retry_answers {language : Bytes → Prop} {attempt : Bytes → Bool → Bool × Bool}
    (tried : ∀ string skip, string ≠ [] → (prune = true → skip = false) →
      Answers prune language string (attempt string skip))
    (nonempty : ¬ language []) (clear : prune = true → skip = false) :
    (retry prune attempt string skip).1 = true ↔ ∃ left, left <:+ string ∧ language left := by
  induction string generalizing skip with
  | nil => simpa [retry] using nonempty
  | cons c string ih =>
    obtain ⟨right, final⟩ := tried (c :: string) skip (by simp) clear
    rw [retry]
    split
    · rename_i answer
      rw [answer] at right
      exact iff_of_true rfl ⟨_, suffix_rfl, right.mp rfl⟩
    · rename_i skip answer
      rw [answer] at right final
      have here : ¬ language (c :: string) := fun matched => absurd (right.mpr matched) (by simp)
      split
      · rename_i raised
        obtain ⟨pruned, rfl⟩ := Bool.and_eq_true_iff.mp raised
        simpa using final pruned rfl
      · rename_i lowered
        rw [ih (by grind)]
        constructor
        · rintro ⟨left, suffix, matched⟩
          exact ⟨left, suffix.trans (suffix_cons ..), matched⟩
        · rintro ⟨left, suffix, matched⟩
          obtain rfl | suffix := suffix_cons_iff.mp suffix
          · exact absurd matched here
          · exact ⟨left, suffix, matched⟩

theorem stringmatchlenImpl_nil {rounds : Nat} :
    stringmatchlenImpl prune nocase rounds [] string skip = (decide (string = []), skip) := by
  simp [stringmatchlenImpl]

theorem stringmatchlenImpl_answers {rounds : Nat} (enough : pattern.length ≤ rounds)
    (nonempty : string ≠ []) (clear : prune = true → skip = false) :
    Answers prune (InGlob nocase pattern) string
      (stringmatchlenImpl prune nocase rounds pattern string skip) := by
  induction rounds generalizing pattern string skip with
  | zero =>
    obtain rfl := length_eq_zero_iff.mp (Nat.le_zero.mp enough)
    rw [stringmatchlenImpl_nil]
    exact ⟨by simp [inGlob_nil], by grind⟩
  | succ rounds ih =>
    obtain ⟨c, string, rfl⟩ := exists_cons_of_ne_nil nonempty
    cases pattern with
    | nil =>
      rw [stringmatchlenImpl_nil]
      exact ⟨by simp [inGlob_nil], by grind⟩
    | cons byte rest =>
      rw [length_cons] at enough
      rw [stringmatchlenImpl]
      by_cases star : byte = 42
      · -- What a star matches in a later part of the string, it matches in the whole of it.
        suffices right : _ ↔ InGlob nocase (byte :: rest) (c :: string) by
          refine ⟨right, fun _ answer left suffix matched => ?_⟩
          subst star
          obtain ⟨final, more, matched⟩ := inGlob_star.mp matched
          have whole := right.mpr (inGlob_star.mpr ⟨final, more.trans suffix, matched⟩)
          rw [answer] at whole
          cases whole
        rw [if_pos star, star, inGlob_stars, inGlob_star]
        dsimp only
        split
        · rename_i all
          rw [all]
          exact iff_of_true rfl ⟨[], nil_suffix, .done⟩
        · rename_i more
          refine retry_answers (fun _ _ => ih ?_) ?_ clear
          · have shorter := (dropWhile_sublist (· = (42 : UInt8)) (l := rest)).length_le
            omega
          · rwa [inGlob_empty, dropWhile_idempotent]
      · have shorter := @matchOne_length nocase byte c rest
        rw [if_neg star]
        dsimp only
        split
        · rename_i refused
          refine ⟨iff_of_false (by simp) ?_, by grind⟩
          rw [inGlob_one star]
          grind
        rename_i accepted
        split
        · rename_i last
          refine ⟨?_, by grind⟩
          rw [inGlob_one star, last, inGlob_empty]
          grind
        · rename_i more
          obtain ⟨right, final⟩ :=
            @ih skip (matchOne nocase c byte rest).2 string (by omega) more clear
          refine ⟨?_, ?_⟩
          · rw [right, inGlob_one star]
            grind
          · -- A later match would be one of the rest of the pattern in a later part.
            intro pruned answer left suffix matched
            cases left with
            | nil =>
              rcases matched with ⟨⟩
              exact star rfl
            | cons d left =>
              rw [inGlob_one star, @matchOne_rest nocase byte d c] at matched
              have later : left <:+ string := by
                obtain whole | suffix := suffix_cons_iff.mp suffix
                · exact (cons.inj whole).2 ▸ suffix_rfl
                · exact (suffix_cons d left).trans suffix
              exact final pruned answer left later matched.2

theorem stringmatchlen_iff : stringmatchlen prune nocase pattern string = true ↔
    InGlob nocase pattern string ∧ (string = [] → pattern = []) := by
  rw [stringmatchlen]
  by_cases empty : string = []
  · subst empty
    cases pattern with
    | nil => simp [stringmatchlenImpl_nil, inGlob_nil]
    | cons byte rest => simp [stringmatchlenImpl]
  · rw [(stringmatchlenImpl_answers (Nat.le_refl _) empty fun _ => rfl).1]
    simp [empty]

/-- The flag never changes an answer. -/
theorem pruning_changes_nothing (nocase : Bool) (pattern string : Bytes) :
    stringmatchlen true nocase pattern string = stringmatchlen false nocase pattern string := by
  rw [Bool.eq_iff_iff, stringmatchlen_iff, stringmatchlen_iff]

/-- The answer is the language of the pattern but for the empty string and a pattern of stars; the
shortcut for all keys differs from it just for the empty key. -/
theorem glob_complete_iff (nocase : Bool) (pattern string : Bytes) :
    ((stringmatchlen true nocase pattern string = true ↔ InGlob nocase pattern string) ↔
      ¬ (string = [] ∧ pattern ≠ [] ∧ ∀ byte ∈ pattern, byte = 42)) ∧
    (selects pattern string = stringmatchlen true false pattern string ↔
      ¬ (pattern = [42] ∧ string = [])) := by
  constructor
  · rw [stringmatchlen_iff]
    by_cases empty : string = []
    · simp only [empty, inGlob_empty, dropWhile_eq_nil_iff, decide_eq_true_eq]
      tauto
    · simp [empty]
  · have single : pattern.head? = some 42 ∧ pattern.length = 1 ↔ pattern = [42] := by
      cases pattern <;> simp
    have matched := @stringmatchlen_iff true false pattern string
    rw [selects]
    simp only [single]
    by_cases all : pattern = [42]
    · subst all
      have every : InGlob false [42] string := .star nil_suffix .done
      grind
    · simp [all]

/-- The pattern of one star does not match the empty key, which the shortcut takes. -/
theorem star_misses_empty_key : stringmatchlen true false [42] [] = false ∧
    InGlob false [42] [] ∧ selects [42] [] = true :=
  ⟨rfl, .star suffix_rfl .done, rfl⟩

end LearningNotes.Glob
