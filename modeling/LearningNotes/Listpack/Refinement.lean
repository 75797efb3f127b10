import LearningNotes.Listpack.Update

/-! A listpack is a list of byte strings, whatever calls are made on it. -/

namespace LearningNotes.Listpack

open Lib Lib.Memory Util List

/-- The calls; elements are pointed to by their index. -/
inductive Call where
  | append (ele : Bytes)
  | insert (ele : Option Bytes) (index : Int) (where_ : Where)
  | delete (index : Int)
  | length
deriving DecidableEq, Repr

inductive Reply where
  /-- No element has the index to be pointed to. -/
  | noElement
  | null
  | done (newp : Option Nat)
  | count (length : Nat)
deriving DecidableEq, Repr

def Inserted.reply (inserted : Inserted) : Reply :=
  if inserted.isNull then .null else .done inserted.newp

/-- The strings, and how many there were at most since the count is known. -/
structure Model where
  strings : List Bytes
  peak : Nat
deriving DecidableEq, Repr

namespace Model

def new : Model := ⟨[], 0⟩

/-- The count field: once too large, it is unknown. -/
def numele (model : Model) : Nat :=
  if model.peak < numeleUnknown then model.strings.length else numeleUnknown

/-- Put strings at a position, unless the listpack gets too large. -/
def splice (model : Model) (front : List Bytes) (new : Option Bytes) (rest : List Bytes) :
    Reply × Model :=
  let strings := front ++ (new.toList ++ rest)
  if uint32Max < listpackBytes strings then (.null, model)
  else (.done (pointerTo front (new.toList ++ rest)), ⟨strings, max model.peak strings.length⟩)

def insertAt (model : Model) (ele : Option Bytes) (i : Nat) (where_ : Where) : Reply × Model :=
  match ele, where_ with
  | some _, .before => model.splice (model.strings.take i) ele (model.strings.drop i)
  | some _, .after => model.splice (model.strings.take (i + 1)) ele (model.strings.drop (i + 1))
  | some _, .replace | none, _ =>
    model.splice (model.strings.take i) ele (model.strings.drop (i + 1))

def insert (model : Model) (ele : Option Bytes) (index : Int) (where_ : Where) : Reply × Model :=
  match position model.strings.length index with
  | none => (.noElement, model)
  | some i => model.insertAt ele i where_

def step (model : Model) : Call → Reply × Model
  | .append ele => model.splice model.strings (some ele) []
  | .insert ele index where_ => model.insert ele index where_
  | .delete index => model.insert none index .replace
  | .length =>
    (.count model.strings.length, { model with
      peak := if model.strings.length < numeleUnknown then model.strings.length else model.peak })

def run (model : Model) : List Call → List Reply × Model
  | [] => ([], model)
  | call :: calls =>
    let (reply, model) := model.step call
    let (replies, model) := model.run calls
    (reply :: replies, model)

end Model

section Serving

variable (unknown : Nat → UInt8) (slack : Nat → Nat)

def insertAtIndex (lp : Bytes) (ele : Option Bytes) (index : Int) (where_ : Where) :
    Except Fault (Reply × Bytes) := do
  match ← lpSeek lp index with
  | none => return (.noElement, lp)
  | some p =>
    let inserted ← lpInsert unknown slack lp ele p where_
    return (inserted.reply, inserted.lp)

def serve (lp : Bytes) : Call → Except Fault (Reply × Bytes)
  | .append ele => do
    let inserted ← lpAppend unknown slack lp ele
    return (inserted.reply, inserted.lp)
  | .insert ele index where_ => insertAtIndex unknown slack lp ele index where_
  | .delete index => do
    match ← lpSeek lp index with
    | none => return (.noElement, lp)
    | some p =>
      let inserted ← lpDelete unknown slack lp p
      return (inserted.reply, inserted.lp)
  | .length => do
    let (count, lp) ← lpLength lp
    return (.count count, lp)

end Serving

structure Holds (lp : Bytes) (model : Model) : Prop where
  stands : Stands lp model.numele model.strings
  peak : model.strings.length ≤ model.peak

section Steps

variable {unknown : Nat → UInt8} {slack : Nat → Nat} {lp : Bytes} {model : Model}

theorem Holds.counts (_ : Holds lp model) : Counts model.numele model.strings.length := by
  unfold Model.numele
  split
  · exact .inl rfl
  · exact .inr rfl

def Serves (lp : Bytes) (computation : Except Fault (Reply × Bytes)) (wanted : Reply × Model) :
    Prop :=
  ∃ updated, computation = .ok (wanted.1, updated) ∧ Holds updated wanted.2 ∧
    (wanted.1 = .null → updated = lp)

theorem Holds.numeleAfter_eq {front rest : List Bytes} {new old : Option Bytes}
    (holds : Holds lp model) (cut : model.strings = front ++ (old.toList ++ rest))
    (changed : old ≠ none ∨ new ≠ none) :
    numeleAfter model.numele old.isSome new =
      (Model.mk (front ++ (new.toList ++ rest))
        (max model.peak (front ++ (new.toList ++ rest)).length)).numele := by
  have peak := holds.peak
  have length : (front ++ (new.toList ++ rest)).length + old.toList.length =
      model.strings.length + new.toList.length := by
    rw [cut]
    simp only [length_append]
    omega
  unfold Model.numele
  dsimp only
  generalize (front ++ (new.toList ++ rest)).length = size at length
  rw [numeleAfter.eq_def]
  -- A known count is the length, and becomes unknown exactly by reaching the marker.
  by_cases known : model.peak < numeleUnknown
  · rw [if_pos known]
    cases old with
    | none =>
      cases new with
      | none => simp at changed
      | some s =>
        rw [if_neg (by simp), if_neg (by omega)]
        simp only [Option.toList_none, Option.toList_some, length_nil, length_singleton] at length
        dsimp only
        split <;> omega
    | some other =>
      cases new with
      | none =>
        simp only [Option.toList_none, Option.toList_some, length_nil, length_singleton] at length
        rw [if_neg (by simp), if_neg (by omega), if_pos (by omega)]
        dsimp only
        omega
      | some s =>
        simp only [Option.toList_some, length_singleton] at length
        rw [if_pos (by simp), if_pos (by omega)]
        omega
  · rw [if_neg known, if_pos rfl, ite_self, if_neg (by omega)]

theorem Holds.splice {front rest : List Bytes} {new old : Option Bytes}
    {computation : Except Fault Inserted} (holds : Holds lp model)
    (cut : model.strings = front ++ (old.toList ++ rest)) (changed : old ≠ none ∨ new ≠ none)
    (splices : Splices lp model.numele front new rest old.isSome computation) :
    Serves lp (do let inserted ← computation; return (inserted.reply, inserted.lp))
      (model.splice front new rest) := by
  rw [Model.splice]
  by_cases large : uint32Max < listpackBytes (front ++ (new.toList ++ rest))
  · rw [if_pos large, splices.refused large, ok_bind]
    exact ⟨lp, rfl, holds, fun _ => rfl⟩
  · obtain ⟨updated, computed, stands⟩ := splices.done (by omega)
    rw [if_neg large, computed, ok_bind]
    refine ⟨updated, rfl, ⟨?_, Nat.le_max_right ..⟩, fun null => by cases null⟩
    rw [← holds.numeleAfter_eq cut changed]
    exact stands

theorem cut_at {strings : List Bytes} {i : Nat} (inside : i < strings.length) :
    ∃ s, strings[i]? = some s ∧ strings = strings.take i ++ s :: strings.drop (i + 1) ∧
      strings.take i ++ [s] = strings.take (i + 1) := by
  have element : strings[i]? = some strings[i] := getElem?_eq_getElem inside
  refine ⟨strings[i], element, ?_, ?_⟩
  · rw [getElem_cons_drop, take_append_drop]
  · rw [take_add_one, element]
    rfl

theorem Holds.insertAt {ele : Option Bytes} {i : Nat} {where_ : Where} (holds : Holds lp model)
    (inside : i < model.strings.length) :
    Serves lp (do
      let inserted ← lpInsert unknown slack lp ele (offset (model.strings.take i)) where_
      return (inserted.reply, inserted.lp)) (model.insertAt ele i where_) := by
  obtain ⟨s, -, cut, next⟩ := cut_at inside
  have stands := holds.stands
  have here : Stands lp model.numele (model.strings.take i ++ s :: model.strings.drop (i + 1)) := by
    rwa [← cut]
  have replaced {new : Option Bytes} (kind : new = none ∨ where_ = .replace) :
      Serves lp (do
        let inserted ← lpInsert unknown slack lp new (offset (model.strings.take i)) where_
        return (inserted.reply, inserted.lp))
        (model.splice (model.strings.take i) new (model.strings.drop (i + 1))) :=
    @Holds.splice lp model _ _ new (some s) _ holds cut (.inl (by simp))
      (here.lpInsert_replace kind)
  cases ele with
  | none => exact replaced (.inl rfl)
  | some new =>
    cases where_ with
    | replace => exact replaced (.inr rfl)
    | before =>
      have whole : Stands lp model.numele (model.strings.take i ++ model.strings.drop i) := by
        rwa [take_append_drop]
      exact @Holds.splice lp model _ _ (some new) none _ holds
        (take_append_drop i model.strings).symm (.inr (by simp)) whole.lpInsert_before
    | after =>
      have spliced := @Stands.lpInsert_after unknown slack lp model.numele _ _ new s here
      rw [next] at spliced
      exact @Holds.splice lp model _ _ (some new) none _ holds
        (take_append_drop (i + 1) model.strings).symm (.inr (by simp)) spliced

theorem Holds.insert {ele : Option Bytes} {index : Int} {where_ : Where} (holds : Holds lp model) :
    Serves lp (insertAtIndex unknown slack lp ele index where_) (model.insert ele index where_) := by
  rw [insertAtIndex, holds.stands.lpSeek_eq holds.counts, Model.insert]
  cases found : position model.strings.length index with
  | none => exact ⟨lp, rfl, holds, fun _ => rfl⟩
  | some i => exact holds.insertAt (position_eq_some.mp found).1

theorem serve_holds (holds : Holds lp model) (call : Call) :
    Serves lp (serve unknown slack lp call) (model.step call) := by
  cases call with
  | append ele =>
    exact @Holds.splice lp model _ _ (some ele) none _ holds (append_nil _).symm
      (.inr (by simp)) holds.stands.lpAppend_eq
  | insert ele index where_ => exact holds.insert
  | delete index => exact holds.insert
  | length =>
    obtain ⟨updated, counted, stands⟩ := holds.stands.lpLength_eq holds.counts
    rw [serve, counted, ok_bind]
    refine ⟨updated, rfl, ⟨?_, ?_⟩, fun null => by cases null⟩
    · have field : (model.step .length).2.numele =
          if model.strings.length < numeleUnknown then model.strings.length else model.numele := by
        unfold Model.numele Model.step
        by_cases small : model.strings.length < numeleUnknown
        · rw [if_pos small, if_pos small, if_pos small]
        · rw [if_neg small, if_neg small]
      rw [field]
      exact stands
    · simp only [Model.step]
      split
      · exact Nat.le_refl _
      · exact holds.peak

/-- What can be observed without changing the listpack. -/
structure Observes (lp : Bytes) (model : Model) : Prop where
  bytes : lpBytes lp = .ok (listpackBytes model.strings) ∧ listpackBytes model.strings ≤ uint32Max
  numele : lpGetNumElements lp =
    .ok (if model.peak < numeleUnknown then model.strings.length else numeleUnknown)
  seek : ∀ index, lpSeek lp index =
    .ok ((position model.strings.length index).map fun i => offset (model.strings.take i))
  elements : ∀ i s, model.strings[i]? = some s →
    lpGet lp (offset (model.strings.take i)) = .ok s ∧
    lpNext lp (offset (model.strings.take i)) =
      .ok (if i + 1 < model.strings.length then some (offset (model.strings.take (i + 1)))
        else none) ∧
    lpPrev lp (offset (model.strings.take i)) =
      .ok (if 0 < i then some (offset (model.strings.take (i - 1))) else none)
  length : ∃ updated, lpLength lp = .ok (model.strings.length, updated)

theorem Holds.observes (holds : Holds lp model) : Observes lp model := by
  have stands := holds.stands
  obtain ⟨updated, counted, -⟩ := stands.lpLength_eq holds.counts
  refine ⟨⟨stands.lpGetTotalBytes_eq, stands.bounded⟩, stands.lpGetNumElements_eq,
    stands.lpSeek_eq holds.counts, fun i s found => ?_, updated, counted⟩
  obtain ⟨inside, -⟩ := List.getElem?_eq_some_iff.mp found
  obtain ⟨s', same, cut, next⟩ := cut_at inside
  obtain rfl : s = s' := Option.some.inj (found.symm.trans same)
  have here : Stands lp model.numele (model.strings.take i ++ s :: model.strings.drop (i + 1)) := by
    rwa [← cut]
  refine ⟨here.lpGet_eq, ?_, ?_⟩
  · rw [here.lpNext_eq, next, pointerTo]
    simp only [drop_eq_nil_iff]
    by_cases more : i + 1 < model.strings.length
    · rw [if_neg (by omega), if_pos more]
    · rw [if_pos (by omega), if_neg more]
  cases i with
  | zero => exact lpPrev_first
  | succ i =>
    -- The element in front is found from behind it.
    obtain ⟨other, -, front, between⟩ := cut_at (show i < model.strings.length by omega)
    have previous : Stands lp model.numele
        (model.strings.take i ++ other :: model.strings.drop (i + 1)) := by
      rwa [← front]
    rw [← between, previous.lpPrev_eq]
    rfl

end Steps

theorem lpNew_holds {unknown : Nat → UInt8} {slack : Nat → Nat} (capacity : Nat) :
    ∃ lp, lpNew unknown slack capacity = .ok lp ∧ Holds lp Model.new := by
  obtain ⟨lp, created, stands⟩ := @lpNew_stands unknown slack capacity
  exact ⟨lp, created, stands, Nat.le_refl 0⟩

theorem run_holds {unknown : Nat → UInt8} {slack : Nat → Nat} {calls : List Call} {lp : Bytes}
    {model : Model} (holds : Holds lp model) :
    ∃ final,
      runCalls (serve unknown slack) lp calls = .ok ((model.run calls).1, final) ∧
        Holds final (model.run calls).2 := by
  induction calls generalizing lp model with
  | nil => exact ⟨_, rfl, holds⟩
  | cons call calls ih =>
    obtain ⟨middle, served, kept, -⟩ := @serve_holds unknown slack lp model holds call
    obtain ⟨final, ran, last⟩ := ih kept
    refine ⟨final, ?_, last⟩
    rw [runCalls, served, ok_bind]
    dsimp only
    rw [ran, ok_bind]
    rfl

/-- Whatever calls are made on a new listpack, their replies and what can be observed afterwards
are those of the list of strings, and a call that returns `NULL` leaves the block as it was. -/
theorem listpack_refines_list (unknown : Nat → UInt8) (slack : Nat → Nat) (capacity : Nat)
    (calls : List Call) :
    ∃ start lp, lpNew unknown slack capacity = .ok start ∧
      runCalls (serve unknown slack) start calls = .ok ((Model.new.run calls).1, lp) ∧
      Observes lp (Model.new.run calls).2 ∧
      ∀ call updated, serve unknown slack lp call = .ok (.null, updated) → updated = lp := by
  obtain ⟨start, created, holds⟩ := @lpNew_holds unknown slack capacity
  obtain ⟨lp, ran, last⟩ := @run_holds unknown slack calls start Model.new holds
  refine ⟨start, lp, created, ran, last.observes, fun call updated served => ?_⟩
  obtain ⟨other, computed, -, unchanged⟩ := @serve_holds unknown slack lp _ last call
  rw [computed] at served
  injection served with pair
  injection pair with reply block
  rw [← block]
  exact unchanged reply

/-- The bytes of a listpack are those of its strings and its count alone, whatever the calls, its
capacity and the memory were. -/
theorem listpack_canonical (unknown : Nat → UInt8) (slack : Nat → Nat) (capacity : Nat)
    (calls : List Call) :
    let model := (Model.new.run calls).2
    ∃ start replies lp, lpNew unknown slack capacity = .ok start ∧
      runCalls (serve unknown slack) start calls = .ok (replies, lp) ∧
      lp.take (listpackBytes model.strings) = image model.numele model.strings := by
  obtain ⟨start, created, holds⟩ := @lpNew_holds unknown slack capacity
  obtain ⟨lp, ran, last⟩ := @run_holds unknown slack calls start Model.new holds
  obtain ⟨spare, shape⟩ := last.stands.shape
  exact ⟨start, _, lp, created, ran, by rw [shape, take_left' (length_image ..)]⟩

end LearningNotes.Listpack
