import Mathlib.Tactic.Ring

/-! When a node of a quicklist may take another entry, or the entries of another node. -/

namespace LearningNotes.Quicklist

def optimizationLevel : List Nat := [4096, 8192, 16384, 32768, 65536]

def sizeSafetyLimit : Int := 8192

/-- The size of the ziplist of a node, and the number of its entries. -/
structure Node where
  sz : Nat
  count : Nat
  fits : sz < 2 ^ 32

def sizeMeetsOptimizationRequirement (sz fill : Int) : Bool :=
  if 0 ≤ fill then false
  else
    match optimizationLevel[(-fill - 1).toNat]? with
    | some level => decide (sz ≤ level)
    | none => false

/-- A size, of which 32 bits are kept, and what the counts allow. -/
def allows (size : Int) (counted : Bool) (fill : Int) : Bool :=
  let newSz := size % 2 ^ 32
  if sizeMeetsOptimizationRequirement newSz fill then true
  else if ¬ newSz ≤ sizeSafetyLimit then false
  else counted

/-- What an entry takes beside its content. -/
def ziplistOverhead (sz : Nat) : Nat :=
  (if sz < 254 then 1 else 5) + if sz < 64 then 1 else if sz < 16384 then 2 else 5

def quicklistNodeAllowInsert (node : Option Node) (fill : Int) (sz : Nat) : Bool :=
  match node with
  | none => false
  | some node => allows (node.sz + sz + ziplistOverhead sz) (decide (node.count < fill)) fill

def quicklistNodeAllowMerge (a b : Option Node) (fill : Int) : Bool :=
  match a, b with
  | some a, some b => allows (a.sz + b.sz - 11) (decide (a.count + b.count ≤ fill)) fill
  | _, _ => false

/-- The two questions, about an element that the commands let pass. -/
inductive Question where
  | allowInsert (node : Node) (sz : Nat) (admitted : sz ≤ 2 ^ 32 - 1024)
  | allowMerge (a b : Node)

def Question.answer (fill : Int) : Question → Bool
  | .allowInsert node sz _ => quicklistNodeAllowInsert (some node) fill sz
  | .allowMerge a b => quicklistNodeAllowMerge (some a) (some b) fill

/-- The size that is asked for, without bounds. -/
def Question.size : Question → Int
  | .allowInsert node sz _ => node.sz + sz + ziplistOverhead sz
  | .allowMerge a b => a.sz + b.sz - 11

/-- Whether there are few enough entries. -/
def Question.counted (fill : Int) : Question → Bool
  | .allowInsert node _ _ => decide (node.count < fill)
  | .allowMerge a b => decide (a.count + b.count ≤ fill)

/-- A size is below the maximum and within the limit of `fill`. -/
def Within (size : Int) (counted : Bool) (fill : Int) : Prop :=
  size < 2 ^ 32 - 1 ∧
    if fill < 0 then ∃ level ∈ optimizationLevel[(-fill - 1).toNat]?, size ≤ level
    else counted = true ∧ size ≤ sizeSafetyLimit

theorem level_le {index level : Nat} (found : optimizationLevel[index]? = some level) :
    level ≤ 65536 := by
  have all : ∀ level ∈ optimizationLevel, level ≤ 65536 := by decide
  exact all level (List.mem_of_getElem? found)

theorem Within.size_le {size fill : Int} {counted : Bool} (within : Within size counted fill) :
    size ≤ 65536 := by
  obtain ⟨_, limit⟩ := within
  split at limit
  · obtain ⟨level, found, le⟩ := limit
    have bound := level_le found
    omega
  · simp only [sizeSafetyLimit] at limit
    omega

theorem allows_iff (size fill : Int) {counted : Bool} (negative : fill < 0 → counted = false) :
    allows size counted fill = true ↔ Within (size % 2 ^ 32) counted fill := by
  rw [allows, Within]
  by_cases sized : fill < 0
  · -- The limit is one of sizes, and the counts do not matter.
    rw [sizeMeetsOptimizationRequirement, if_neg (Int.not_le.mpr sized), if_pos sized]
    cases found : optimizationLevel[(-fill - 1).toNat]? with
    | none => simp [negative sized]
    | some level =>
      have bound := level_le found
      simp [negative sized]
      omega
  · simp only [sizeMeetsOptimizationRequirement, if_pos (Int.not_lt.mp sized), if_neg sized,
      sizeSafetyLimit]
    cases counted with
    | false => simp
    | true =>
      simp
      omega

theorem answer_iff (question : Question) (fill : Int) : question.answer fill = true ↔
    Within (question.size % 2 ^ 32) (question.counted fill) fill := by
  refine Iff.trans ?_ (allows_iff _ _ fun negative => ?_)
  · cases question with
    | allowInsert node sz admitted => rfl
    | allowMerge a b => rfl
  · cases question with
    | allowInsert node sz admitted => exact decide_eq_false (by omega)
    | allowMerge a b => exact decide_eq_false (by omega)

theorem size_bounds (question : Question) : -11 ≤ question.size ∧ question.size < 2 ^ 33 := by
  cases question with
  | allowInsert node sz admitted =>
    have fits := node.fits
    have overhead : ziplistOverhead sz ≤ 10 := by
      grind [ziplistOverhead]
    simp only [Question.size]
    omega
  | allowMerge a b =>
    have fits := a.fits
    have fitsToo := b.fits
    simp only [Question.size]
    omega

/-- The limits are kept, except if a size goes beyond 32 bits and what is left of it looks small. -/
theorem limits_kept_iff (question : Question) (fill : Int) :
    (question.answer fill = true → Within question.size (question.counted fill) fill) ↔
      ¬ (2 ^ 32 ≤ question.size ∧
        Within (question.size - 2 ^ 32) (question.counted fill) fill) := by
  obtain ⟨low, high⟩ := size_bounds question
  rw [answer_iff]
  by_cases fits : 0 ≤ question.size ∧ question.size < 2 ^ 32
  · rw [Int.emod_eq_of_lt fits.1 fits.2]
    exact iff_of_true id fun beyond => absurd beyond.1 (Int.not_le.mpr fits.2)
  · by_cases negative : question.size < 0
    · -- No limit is as large as what a negative size looks like.
      refine iff_of_true (fun within => ?_) fun beyond => ?_
      · have small := within.size_le
        omega
      · omega
    · rw [show question.size % 2 ^ 32 = question.size - 2 ^ 32 by omega]
      constructor
      · intro kept beyond
        have small := (kept beyond.2).size_le
        omega
      · intro small within
        exact absurd ⟨by omega, within⟩ small

/-- The largest element is let into a node with 2000 bytes. -/
theorem large_element_allowed :
    let question : Question := .allowInsert ⟨2000, 1, by decide⟩ (2 ^ 32 - 1024) (by decide)
    question.answer (-2) = true ∧ 2 ^ 32 < question.size := by
  decide

end LearningNotes.Quicklist
