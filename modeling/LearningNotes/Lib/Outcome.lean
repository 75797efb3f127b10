import Mathlib.Tactic.Ring

/-! Faulting computations, the states they may end in, and the runs they make up. -/

namespace LearningNotes.Lib

variable {ε α β : Type}

/-- Every fault is permitted, and every result is wanted. -/
def Meets (computation : Except ε α) (permitted : ε → Prop) (wanted : α → Prop) : Prop :=
  match computation with
  | .error fault => permitted fault
  | .ok result => wanted result

variable {permitted : ε → Prop} {wanted : α → Prop} {result : α} {next : α → Except ε β}
    {computation : Except ε α}

instance Meets.decidable [∀ fault, Decidable (permitted fault)]
    [∀ result, Decidable (wanted result)] : Decidable (Meets computation permitted wanted) :=
  match computation with
  | .error fault => inferInstanceAs (Decidable (permitted fault))
  | .ok result => inferInstanceAs (Decidable (wanted result))

@[simp] theorem meets_ok : Meets (.ok result) permitted wanted ↔ wanted result := Iff.rfl

@[simp] theorem meets_pure : Meets (pure result) permitted wanted ↔ wanted result := Iff.rfl

@[simp] theorem meets_error {fault : ε} :
    Meets (.error fault) permitted wanted ↔ permitted fault := Iff.rfl

@[simp] theorem ok_bind : (Except.ok result >>= next) = next result := rfl

theorem bind_eq_ok {result : β} :
    (computation >>= next) = .ok result ↔ ∃ between, computation = .ok between ∧
      next between = .ok result := by
  cases computation with
  | error fault => simp [Bind.bind, Except.bind]
  | ok between => simp

theorem Meets.mono {weaker : α → Prop} (met : Meets computation permitted wanted)
    (weaken : ∀ result, wanted result → weaker result) :
    Meets computation permitted weaker := by
  cases computation with
  | error fault => exact met
  | ok result => exact weaken result met

theorem Meets.and {more : ε → Prop} {also : α → Prop} (met : Meets computation permitted wanted)
    (other : Meets computation more also) :
    Meets computation permitted fun result => wanted result ∧ also result := by
  cases computation with
  | error fault => exact met
  | ok result => exact ⟨met, other⟩

theorem Meets.permit {more : ε → Prop} (met : Meets computation permitted wanted)
    (grant : ∀ fault, permitted fault → more fault) :
    Meets computation more wanted := by
  cases computation with
  | error fault => exact grant fault met
  | ok result => exact met

theorem Meets.faultless (met : Meets computation (fun _ => False) wanted) :
    Meets computation permitted wanted := by
  cases computation with
  | error fault => exact absurd met id
  | ok result => exact met

theorem Meets.bind {between : α → Prop} {wanted : β → Prop}
    (first : Meets computation permitted between)
    (second : ∀ result, between result → Meets (next result) permitted wanted) :
    Meets (computation >>= next) permitted wanted := by
  cases computation with
  | error fault => exact first
  | ok result => exact second result first

theorem Meets.ite {condition : Prop} [Decidable condition] {other : Except ε α}
    (yes : condition → Meets computation permitted wanted)
    (no : ¬ condition → Meets other permitted wanted) :
    Meets (if condition then computation else other) permitted wanted := by
  split
  · exact yes ‹_›
  · exact no ‹_›

theorem meets_mapError {δ : Type} {rename : ε → δ} {permitted : δ → Prop} :
    Meets (computation.mapError rename) permitted wanted ↔
      Meets computation (fun fault => permitted (rename fault)) wanted := by
  cases computation <;> rfl

theorem Meets.of_ok (met : Meets computation permitted wanted) (returned : computation = .ok result) :
    wanted result := by
  subst returned
  exact met

variable {σ Item : Type} {step : σ → Item → Except ε σ} {items : List Item} {state : σ}

/-- A loop over a list keeps what holds of the part that is done. -/
theorem Meets.foldlM (holds : List Item → σ → Prop) (start : holds [] state)
    (keeps : ∀ finished item rest state, items = finished ++ item :: rest → holds finished state →
      Meets (step state item) permitted (holds (finished ++ [item]))) :
    Meets (items.foldlM step state) permitted (holds items) := by
  -- The part that is done stays in front, so the induction is on what is left.
  suffices general : ∀ rest finished state, items = finished ++ rest → holds finished state →
      Meets (rest.foldlM step state) permitted (holds items) from
    general items [] state rfl start
  intro rest
  induction rest with
  | nil =>
    intro finished state whole held
    rw [List.append_nil] at whole
    exact whole ▸ held
  | cons item rest ih =>
    intro finished state whole held
    refine Meets.bind (keeps finished item rest state whole held) ?_
    intro next held
    exact ih (finished ++ [item]) next (by rw [whole, List.append_assoc]; rfl) held

/-- Every item of a run is proper where it is found. -/
def Guarded {σ Item : Type} (step : σ → Item → Except ε σ) (proper : σ → Item → Prop) :
    σ → List Item → Prop
  | _, [] => True
  | state, item :: items =>
    proper state item ∧ ∀ next, step state item = .ok next → Guarded step proper next items

/-- What proper items keep holds along every guarded run. -/
theorem Meets.guarded {proper : σ → Item → Prop} {holds : σ → Prop}
    (keeps : ∀ state item, holds state → proper state item → Meets (step state item) permitted
      holds) (start : holds state) (guarded : Guarded step proper state items) :
    Meets (items.foldlM step state) permitted holds := by
  induction items generalizing state with
  | nil => exact start
  | cons item items ih =>
    have met := keeps state item start guarded.1
    rw [List.foldlM_cons]
    cases done : step state item with
    | error fault =>
      rw [done] at met
      exact met
    | ok next =>
      rw [done] at met
      exact ih met (guarded.2 next done)

section Runs

variable {σ Call Reply : Type} (step : σ → Call → Except ε (Reply × σ))

def runCalls : σ → List Call → Except ε (List Reply × σ)
  | state, [] => .ok ([], state)
  | state, call :: calls => do
    let (reply, state) ← step state call
    let (replies, state) ← runCalls state calls
    return (reply :: replies, state)

/-- A run of an abstract machine, given by a relation. -/
inductive SpecRun {α : Type} (spec : α → Call → Reply → α → Prop) :
    α → List Call → List Reply → α → Prop
  | nil (state : α) : SpecRun spec state [] [] state
  | cons {state middle final : α} {call : Call} {calls : List Call} {reply : Reply}
      {replies : List Reply} (first : spec state call reply middle)
      (rest : SpecRun spec middle calls replies final) :
      SpecRun spec state (call :: calls) (reply :: replies) final

theorem runCalls_simulates {α : Type} {spec : α → Call → Reply → α → Prop}
    {related : σ → α → Prop} {permitted : ε → Prop}
    (simulates : ∀ state abstract call, related state abstract →
      Meets (step state call) permitted fun result =>
        ∃ next, spec abstract call result.1 next ∧ related result.2 next)
    (calls state abstract) (holds : related state abstract) :
    Meets (runCalls step state calls) permitted fun result =>
      ∃ final, SpecRun spec abstract calls result.1 final ∧ related result.2 final := by
  -- Each call advances both machines by one step and leaves the relation standing.
  induction calls generalizing state abstract with
  | nil => exact ⟨abstract, .nil abstract, holds⟩
  | cons call calls ih =>
    refine Meets.bind (simulates state abstract call holds) ?_
    rintro ⟨reply, middle⟩ ⟨next, stepped, kept⟩
    refine Meets.bind (ih middle next kept) ?_
    rintro ⟨replies, last⟩ ⟨final, ran, kept⟩
    exact ⟨final, .cons stepped ran, kept⟩

end Runs

end LearningNotes.Lib
