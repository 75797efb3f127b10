import LearningNotes.Lib.Outcome

/-! Resumable parsers: what they make of a stream does not depend on how the stream is cut. -/

namespace LearningNotes.Lib

open List

section Parsing

variable {σ α : Type} (step : σ → List α → Option (σ × Nat))

/-- One step of a parser: the next state, and the input without what was consumed. -/
def advance (point : σ × List α) : Option (σ × List α) :=
  (step point.1 point.2).map fun result => (result.1, point.2.drop result.2)

/-- The points that a parser comes to. -/
inductive Parses : σ × List α → σ × List α → Prop
  | refl (point : σ × List α) : Parses point point
  | head {start middle final : σ × List α} (first : advance step start = some middle)
      (rest : Parses middle final) : Parses start final

variable {step} {start middle final : σ × List α}

theorem Parses.single (moved : advance step start = some final) : Parses step start final :=
  .head moved (.refl final)

theorem Parses.trans (first : Parses step start middle) (second : Parses step middle final) :
    Parses step start final := by
  induction first with
  | refl => exact second
  | head moved _ ih => exact .head moved (ih second)

theorem Parses.final_unique {other : σ × List α} (first : Parses step start final)
    (stopped : advance step final = none) (second : Parses step start other)
    (stopped' : advance step other = none) : final = other := by
  induction first with
  | refl =>
    cases second with
    | refl => rfl
    | head moved _ => simp [stopped] at moved
  | head moved _ ih =>
    cases second with
    | refl => simp [stopped'] at moved
    | head moved' rest =>
      -- Steps are determined, so that both runs have taken the same one.
      rw [moved] at moved'
      cases moved'
      exact ih stopped rest

/-- A parser that takes all steps of another comes to all of its points. -/
theorem Parses.mono {other : σ → List α → Option (σ × Nat)}
    (takes : ∀ state input result, step state input = some result → other state input = some result)
    (run : Parses step start final) : Parses other start final := by
  induction run with
  | refl => exact .refl _
  | head moved _ ih =>
    obtain ⟨result, stepped, rfl⟩ := Option.map_eq_some_iff.mp moved
    exact .head (by rw [advance, takes _ _ _ stepped]; rfl) ih

theorem Parses.length_le (run : Parses step start final) : final.2.length ≤ start.2.length := by
  induction run with
  | refl => exact Nat.le_refl _
  | head moved _ ih =>
    rw [advance, Option.map_eq_some_iff] at moved
    obtain ⟨result, -, rfl⟩ := moved
    simp only [length_drop] at ih
    omega

theorem Parses.suffix (run : Parses step start final) : final.2 <:+ start.2 := by
  induction run with
  | refl => exact suffix_rfl
  | head moved _ ih =>
    rw [advance, Option.map_eq_some_iff] at moved
    obtain ⟨result, -, rfl⟩ := moved
    exact ih.trans (drop_suffix _ _)

theorem Parses.total {other : σ × List α} (first : Parses step start final)
    (second : Parses step start other) : Parses step final other ∨ Parses step other final := by
  induction first with
  | refl => exact .inl second
  | head moved rest ih =>
    cases second with
    | refl => exact .inr (.head moved rest)
    | head moved' further =>
      rw [moved] at moved'
      cases moved'
      exact ih further

variable (step) in
/-- What is made of the input so far does not change when more is seen. -/
def StableOn (origin : σ) (stream : List α) : Prop :=
  ∀ state seen more, Parses step (origin, stream) (state, seen ++ more) →
    ∀ next consumed, step state seen = some (next, consumed) →
      consumed ≤ seen.length ∧ step state (seen ++ more) = some (next, consumed)

theorem Parses.extend {origin : σ} {stream : List α} (stable : StableOn step origin stream)
    (run : Parses step start final) {more : List α}
    (reached : Parses step (origin, stream) (start.1, start.2 ++ more)) :
    Parses step (origin, stream) (final.1, final.2 ++ more) := by
  induction run generalizing more with
  | refl => exact reached
  | @head start middle final moved _ ih =>
    obtain ⟨⟨next, consumed⟩, stepped, rfl⟩ := Option.map_eq_some_iff.mp moved
    obtain ⟨inside, again⟩ := stable start.1 start.2 more reached next consumed stepped
    refine ih (reached.trans (.single ?_))
    rw [advance, again, Option.map_some, drop_append_of_le_length inside]

end Parsing

section Feeding

variable {σ α γ ε : Type} {step : σ → List α → Option (σ × Nat)} {view : γ → σ × List α}
  {feed : γ → List α → Except ε γ} {invariant : γ → Prop}

def feedAll (feed : γ → List α → Except ε γ) : γ → List (List α) → Except ε γ
  | machine, [] => .ok machine
  | machine, piece :: pieces => do feedAll feed (← feed machine piece) pieces

/-- A machine that parses as far as it can at each piece parses the stream as far as possible. -/
theorem feedAll_parses {origin : σ} {stream : List α} (stable : StableOn step origin stream)
    (feeds : ∀ machine piece, invariant machine → ∃ next, feed machine piece = .ok next ∧
      invariant next ∧ Parses step ((view machine).1, (view machine).2 ++ piece) (view next) ∧
        advance step (view next) = none) (pieces machine) (holds : invariant machine)
    (reached : Parses step (origin, stream) ((view machine).1, (view machine).2 ++ pieces.flatten))
    (stopped : pieces = [] → advance step (view machine) = none) :
    ∃ final, feedAll feed machine pieces = .ok final ∧ invariant final ∧
      Parses step (origin, stream) (view final) ∧ advance step (view final) = none := by
  -- What has not been fed yet stays behind the input of the machine.
  induction pieces generalizing machine with
  | nil =>
    rw [flatten_nil, append_nil] at reached
    exact ⟨machine, rfl, holds, reached, stopped rfl⟩
  | cons piece pieces ih =>
    obtain ⟨next, fed, kept, run, stopped⟩ := feeds machine piece holds
    rw [flatten_cons, ← append_assoc] at reached
    obtain ⟨final, fedAll, last⟩ := ih next kept (run.extend stable reached) fun _ => stopped
    refine ⟨final, ?_, last⟩
    rw [feedAll, fed, ok_bind, fedAll]

end Feeding

end LearningNotes.Lib
