import Mathlib.Tactic.Ring

/-! The lock `MyLock` over `AbstractQueuedSynchronizer`, step by atomic step of its threads. -/

namespace LearningNotes.Jdk.MyLock

abbrev Word := BitVec 32

/-- What a thread does next. -/
inductive Pc where
  | idle
  /-- `tryAcquire`: the first `getState`. -/
  | readState
  /-- The `getState` in the argument of `compareAndSetState`. -/
  | rereadState
  /-- `compareAndSetState(expect, arg)`. -/
  | swap (expect : Word)
  /-- `setExclusiveOwnerThread(Thread.currentThread())`. -/
  | takeOwnership
  /-- The state was not zero: `getExclusiveOwnerThread`. -/
  | readOwner
  /-- The owner's `getState` in the argument of `setState`. -/
  | readToBump
  /-- `setState(state + arg)`. -/
  | bump (state : Word)
  /-- `tryRelease`: `getExclusiveOwnerThread`. -/
  | checkOwner
  /-- The owner's `getState() - arg`. -/
  | readToRelease
  /-- The `getState` in the argument of `compareAndSetState`. -/
  | rereadToRelease (state : Word)
  /-- `compareAndSetState(expect, state)`. -/
  | swapToRelease (expect state : Word)
  /-- The state became zero: `setExclusiveOwnerThread(null)`. -/
  | clearOwner
deriving DecidableEq, Repr

/-- What a thread does next, and how often it has locked without unlock since. -/
structure Thread where
  pc : Pc
  locked : Nat
deriving DecidableEq, Repr

variable {Tid : Type} [DecidableEq Tid]

structure System (Tid : Type) where
  state : Word
  owner : Option Tid
  threads : Tid → Thread

def newLock : System Tid := ⟨0, none, fun _ => ⟨.idle, 0⟩⟩

inductive Call where
  | lock
  | unlock
deriving DecidableEq, Repr

/-- One atomic step of a thread, which chooses when it is in no call. -/
def stepThread (state : Word) (owner : Option Tid) (self : Tid) (choice : Call) (thread : Thread) :
    Word × Option Tid × Thread :=
  let goto (pc : Pc) := (state, owner, { thread with pc := pc })
  match thread.pc with
  | .idle =>
    match choice with
    | .lock => goto .readState
    | .unlock =>
      if thread.locked = 0 then goto .idle else (state, owner, ⟨.checkOwner, thread.locked - 1⟩)
  | .readState => if state = 0 then goto .rereadState else goto .readOwner
  | .rereadState => goto (.swap state)
  | .swap expect =>
    if state = expect then (1, owner, { thread with pc := .takeOwnership })
    -- `acquire` queues the thread, which tries again.
    else goto .readState
  | .takeOwnership => (state, some self, ⟨.idle, thread.locked + 1⟩)
  | .readOwner =>
    match owner with
    -- `equals` is called on `null`: the exception ends the call.
    | none => goto .idle
    | some owner => if owner = self then goto .readToBump else goto .readState
  | .readToBump => goto (.bump state)
  | .bump read => (read + 1, owner, ⟨.idle, thread.locked + 1⟩)
  | .checkOwner =>
    match owner with
    -- The exception ends the call, which has not unlocked.
    | none => (state, owner, ⟨.idle, thread.locked + 1⟩)
    | some owner => if owner = self then goto .readToRelease else goto .idle
  | .readToRelease => goto (.rereadToRelease (state - 1))
  | .rereadToRelease released => goto (.swapToRelease state released)
  | .swapToRelease expect released =>
    if state = expect then
      (released, owner, { thread with pc := if released = 0 then .clearOwner else .idle })
    else goto .idle
  | .clearOwner => (state, none, { thread with pc := .idle })

def become (s : System Tid) (self : Tid) (after : Word × Option Tid × Thread) : System Tid :=
  ⟨after.1, after.2.1, Function.update s.threads self after.2.2⟩

def step (s : System Tid) (self : Tid) (choice : Call) : System Tid :=
  become s self (stepThread s.state s.owner self choice (s.threads self))

def run (s : System Tid) (schedule : List (Tid × Call)) : System Tid :=
  schedule.foldl (fun s made => step s made.1 made.2) s

/-- The thread has locked, and not called its last unlock. -/
def Inside (s : System Tid) (t : Tid) : Prop := 0 < (s.threads t).locked

/-- The second look at the state shows the same, and no count runs over. -/
def Calm (s : System Tid) (self : Tid) : Prop :=
  match (s.threads self).pc with
  | .rereadState => s.state = 0
  | .bump read => read + 1 ≠ 0
  | _ => True

instance (s : System Tid) (t : Tid) : Decidable (Inside s t) :=
  inferInstanceAs (Decidable (_ < _))

instance (s : System Tid) (self : Tid) : Decidable (Calm s self) := by
  unfold Calm
  split <;> infer_instance

def CalmRun : System Tid → List (Tid × Call) → Prop
  | _, [] => True
  | s, (self, choice) :: schedule => Calm s self ∧ CalmRun (step s self choice) schedule

instance CalmRun.decide : (s : System Tid) → (schedule : List (Tid × Call)) →
    Decidable (CalmRun s schedule)
  | _, [] => .isTrue trivial
  | s, (self, choice) :: schedule =>
    have := CalmRun.decide (step s self choice) schedule
    inferInstanceAs (Decidable (Calm s self ∧ CalmRun (step s self choice) schedule))

/-! ### Who holds the lock -/

def held (thread : Thread) : Nat :=
  match thread.pc with
  | .takeOwnership | .checkOwner | .readToRelease | .rereadToRelease _ | .swapToRelease _ _ =>
    thread.locked + 1
  | _ => thread.locked

def Fresh (thread : Thread) : Prop :=
  match thread.pc with
  | .swap expect => expect = 0
  | .takeOwnership | .clearOwner => thread.locked = 0
  | .readToBump => 0 < thread.locked
  | .bump read => 0 < thread.locked ∧ read.toNat = thread.locked
  | .rereadToRelease released => released.toNat = thread.locked
  | .swapToRelease expect released =>
    expect.toNat = thread.locked + 1 ∧ released.toNat = thread.locked
  | _ => True

/-- One thread at most holds the lock, and the state counts it. -/
structure Inv (s : System Tid) : Prop where
  exclusive : ∀ t u, 0 < held (s.threads t) → 0 < held (s.threads u) → t = u
  counted : ∀ t, 0 < held (s.threads t) → s.state.toNat = held (s.threads t)
  free : (∀ t, held (s.threads t) = 0) → s.state = 0
  /-- An owner without the lock is about to leave the field, and the holder to enter. -/
  owned : ∀ u, s.owner = some u → 0 < held (s.threads u) ∨ (s.threads u).pc = .clearOwner ∧
    ∀ t, 0 < held (s.threads t) → (s.threads t).pc = .takeOwnership
  fresh : ∀ t, Fresh (s.threads t)

omit [DecidableEq Tid] in
theorem newLock_inv : Inv (newLock : System Tid) :=
  ⟨fun _ _ holds => absurd holds (by simp [newLock, held]),
    fun _ holds => absurd holds (by simp [newLock, held]), fun _ => rfl,
    fun _ owns => absurd owns (by simp [newLock]), fun _ => trivial⟩

variable {s : System Tid} {self : Tid} {thread : Thread}

section

variable (inv : Inv s)
include inv

omit [DecidableEq Tid] in
theorem Inv.nobody (zero : s.state = 0) (t : Tid) : held (s.threads t) = 0 := by
  -- What a holder holds is counted in the state.
  by_contra holds
  have counted := inv.counted t (Nat.pos_of_ne_zero holds)
  rw [zero] at counted
  exact holds counted.symm

omit [DecidableEq Tid] in
theorem Inv.owner_of_held {t u : Tid} (owner : s.owner = some u)
    (holds : 0 < held (s.threads t)) (entered : (s.threads t).pc ≠ .takeOwnership) : u = t := by
  -- An owner that is leaving would leave the field to a holder that enters.
  obtain owns | ⟨_, entering⟩ := inv.owned u owner
  · exact inv.exclusive u t owns holds
  · exact absurd (entering t holds) entered

omit [DecidableEq Tid] in
theorem Inv.others (holds : 0 < held (s.threads self)) (t : Tid) (other : t ≠ self) :
    held (s.threads t) = 0 := by
  -- Two holders are one thread.
  by_contra holdsToo
  exact other (inv.exclusive t self (Nat.pos_of_ne_zero holdsToo) holds)

omit inv in
@[simp] theorem become_self (s : System Tid) (self : Tid) (after : Word × Option Tid × Thread) :
    (become s self after).threads self = after.2.2 :=
  Function.update_self ..

omit inv in
theorem become_other (s : System Tid) {t : Tid} (other : t ≠ self)
    (after : Word × Option Tid × Thread) : (become s self after).threads t = s.threads t :=
  Function.update_of_ne other ..

theorem Inv.fresh_become (self : Tid) (state : Word) (owner : Option Tid)
    (fresh : Fresh thread) (t : Tid) :
    Fresh ((become s self (state, owner, thread)).threads t) := by
  -- The other threads are as they were.
  by_cases mine : t = self
  · subst mine
    rw [become_self]
    exact fresh
  · rw [become_other s mine]
    exact inv.fresh t

theorem Inv.silent {owner : Option Tid} (same : held thread = held (s.threads self))
    (fresh : Fresh thread) (entered : (s.threads self).pc ≠ .takeOwnership)
    (stays : ∀ u, owner = some u → s.owner = some u ∧ (s.threads self).pc ≠ .clearOwner) :
    Inv (become s self (s.state, owner, thread)) := by
  -- Every thread holds what it held.
  have heldBy : ∀ t, held ((become s self (s.state, owner, thread)).threads t) =
      held (s.threads t) := by
    intro t
    by_cases mine : t = self
    · subst mine
      rw [become_self, same]
    · rw [become_other s mine]
  refine ⟨?_, ?_, ?_, ?_, inv.fresh_become self _ _ fresh⟩
  · intro t u
    rw [heldBy, heldBy]
    exact inv.exclusive t u
  · intro t
    rw [heldBy]
    exact inv.counted t
  · intro nobody
    exact inv.free fun t => (heldBy t).symm.trans (nobody t)
  intro u owns
  obtain ⟨owned, staying⟩ := stays u owns
  obtain holds | ⟨leaving, entering⟩ := inv.owned u owned
  · exact .inl ((heldBy u).symm ▸ holds)
  -- Neither the thread that leaves nor the one that enters has made the step.
  have other : u ≠ self := fun mine => staying (mine ▸ leaving)
  refine .inr ⟨(become_other s other _).symm ▸ leaving, ?_⟩
  intro t holds
  rw [heldBy] at holds
  have notMine : t ≠ self := fun mine => entered (mine ▸ entering t holds)
  rw [become_other s notMine]
  exact entering t holds

theorem Inv.quiet {pc : Pc} (at_ : (s.threads self).pc = pc) (fresh : Fresh thread)
    (same : held thread = held (s.threads self) := by simp [held, *])
    (inner : pc ≠ .takeOwnership ∧ pc ≠ .clearOwner := by simp) :
    Inv (become s self (s.state, s.owner, thread)) :=
  inv.silent same fresh (at_ ▸ inner.1) fun _ owns => ⟨owns, at_ ▸ inner.2⟩

theorem Inv.alone {state : Word} {owner : Option Tid}
    (others : ∀ t, t ≠ self → held (s.threads t) = 0) (fresh : Fresh thread)
    (counted : state.toNat = held thread)
    (owned : ∀ u, owner = some u → u = self ∧ (0 < held thread ∨ thread.pc = .clearOwner) ∨ (u ≠
      self ∧ (s.threads u).pc = .clearOwner ∧ thread.pc = .takeOwnership)) :
    Inv (become s self (state, owner, thread)) := by
  -- A holder can only be the thread that made the step.
  have mine : ∀ t, 0 < held ((become s self (state, owner, thread)).threads t) → t = self := by
    intro t holds
    by_contra other
    rw [become_other s other, others t other] at holds
    exact absurd holds (Nat.lt_irrefl 0)
  refine ⟨?_, ?_, ?_, ?_, inv.fresh_become self _ _ fresh⟩
  · intro t u holds holdsToo
    rw [mine t holds, mine u holdsToo]
  · intro t holds
    rw [mine t holds, become_self]
    exact counted
  · intro nobody
    have none := nobody self
    rw [become_self] at none
    exact BitVec.eq_of_toNat_eq (counted.trans none)
  intro u owns
  obtain ⟨rfl, holds | leaving⟩ | ⟨other, leaving, entering⟩ := owned u owns
  · exact .inl ((become_self s u _).symm ▸ holds)
  · -- A thread that leaves the field holds nothing any more, so nobody does.
    refine .inr ⟨(become_self s u _).symm ▸ leaving, fun t holds => ?_⟩
    rw [mine t holds, become_self] at holds
    simp only [held, Fresh, leaving] at holds fresh
    omega
  · refine .inr ⟨(become_other s other _).symm ▸ leaving, fun t holds => ?_⟩
    rw [mine t holds, become_self]
    exact entering

/-! ### The steps -/

theorem Inv.take {expect : Word} (at_ : (s.threads self).pc = .swap expect)
    (found : s.state = expect) :
    Inv (become s self (1, s.owner, { s.threads self with pc := .takeOwnership })) := by
  -- The expected state is zero, so nobody holds the lock, this thread included.
  have zero : s.state = 0 := by
    have fresh := inv.fresh self
    simp only [Fresh, at_] at fresh
    exact found.trans fresh
  have nothing : (s.threads self).locked = 0 := by
    have nobody := inv.nobody zero self
    simpa only [held, at_] using nobody
  refine inv.alone (fun t _ => inv.nobody zero t) nothing ?_ ?_
  · simp [held, nothing]
  intro u owns
  obtain holds | ⟨leaving, _⟩ := inv.owned u owns
  · exact absurd (inv.nobody zero u) (Nat.ne_of_gt holds)
  · refine .inr ⟨fun mine => ?_, leaving, rfl⟩
    rw [mine, at_] at leaving
    exact Pc.noConfusion leaving

theorem Inv.release {expect released : Word}
    (at_ : (s.threads self).pc = .swapToRelease expect released) :
    Inv (become s self (released, s.owner,
      { s.threads self with pc := if released = 0 then .clearOwner else .idle })) := by
  -- Whether the thread leaves is decided by what it still holds.
  have fresh := inv.fresh self
  simp only [Fresh, at_] at fresh
  have holds : 0 < held (s.threads self) := by
    simp only [held, at_]
    omega
  have mine : ∀ u, s.owner = some u → u = self := fun u owns =>
    inv.owner_of_held owns holds (by rw [at_]; exact Pc.noConfusion)
  by_cases last : released = 0
  · have nothing : (s.threads self).locked = 0 := by
      rw [← fresh.2, last]
      rfl
    rw [if_pos last]
    exact inv.alone (inv.others holds) nothing fresh.2 fun u owns => .inl ⟨mine u owns, .inr rfl⟩
  · have some : 0 < (s.threads self).locked := by
      rw [← fresh.2]
      exact Nat.pos_of_ne_zero fun zero => last (BitVec.eq_of_toNat_eq zero)
    rw [if_neg last]
    exact inv.alone (inv.others holds) trivial fresh.2 fun u owns => .inl ⟨mine u owns, .inl some⟩

theorem Inv.bumped {read : Word} (at_ : (s.threads self).pc = .bump read) (fits : read + 1 ≠ 0) :
    Inv (become s self (read + 1, s.owner, ⟨.idle, (s.threads self).locked + 1⟩)) := by
  -- The count does not run over, so it is one more as a number too.
  have fresh := inv.fresh self
  simp only [Fresh, at_] at fresh
  have holds : 0 < held (s.threads self) := by
    simp only [held, at_]
    exact fresh.1
  have next : (read + 1).toNat = read.toNat + 1 := by
    have room : (read + 1).toNat ≠ 0 := fun zero => fits (BitVec.eq_of_toNat_eq zero)
    change (read.toNat + 1) % 2 ^ 32 ≠ 0 at room
    change (read.toNat + 1) % 2 ^ 32 = read.toNat + 1
    omega
  refine inv.alone (inv.others holds) trivial ?_ ?_
  · rw [next, fresh.2]
    rfl
  · intro u owns
    have mine := inv.owner_of_held owns holds (by rw [at_]; exact Pc.noConfusion)
    exact .inl ⟨mine, .inl (Nat.succ_pos _)⟩

omit [DecidableEq Tid] in
theorem Inv.state_eq (self : Tid) {count : Nat}
    (holding : held (s.threads self) = count) (some : 0 < count) : s.state.toNat = count := by
  -- It holds the lock, so the state counts it.
  rw [inv.counted self (holding ▸ some), holding]

theorem Inv.step (self : Tid) (choice : Call) (calm : Calm s self) : Inv (step s self choice) := by
  -- Only five of the steps change the fields; what the others remember is what the state says.
  have fresh := inv.fresh self
  unfold MyLock.step stepThread
  cases at_ : (s.threads self).pc
  all_goals simp only [Calm, Fresh, at_] at calm fresh ⊢
  case idle =>
    cases choice with
    | lock => exact inv.quiet at_ trivial
    | unlock =>
      simp only []
      split
      · exact inv.quiet at_ trivial
      · exact inv.quiet at_ trivial (by simp [held, at_]; omega)
  case readState =>
    split
    · exact inv.quiet at_ trivial
    · exact inv.quiet at_ trivial
  case rereadState => exact inv.quiet at_ calm
  case swap expect =>
    split
    case isTrue found => exact inv.take at_ found
    case isFalse => exact inv.quiet at_ trivial
  case takeOwnership =>
    -- The thread held the lock already: it only enters the field.
    have holding : held (s.threads self) = 1 := by simp [held, at_, fresh]
    refine inv.alone (inv.others (by omega)) trivial ?_ ?_
    · rw [inv.state_eq self holding (by omega), fresh]
      rfl
    · intro u owns
      exact .inl ⟨(Option.some.inj owns).symm, .inl (Nat.succ_pos _)⟩
  case readOwner =>
    cases owns : s.owner with
    | none =>
      simp only [← owns]
      exact inv.quiet at_ trivial
    | some owner =>
      simp only [← owns]
      split
      case isTrue mine =>
        -- An owner in this method is not leaving, so it holds the lock.
        obtain holds | ⟨leaving, _⟩ := inv.owned self (mine ▸ owns)
        · simp only [held, at_] at holds
          exact inv.quiet at_ holds
        · simp [at_] at leaving
      case isFalse => exact inv.quiet at_ trivial
  case readToBump =>
    have count := inv.state_eq self (by simp only [held, at_]) fresh
    exact inv.quiet at_ ⟨fresh, count⟩
  case bump read => exact inv.bumped at_ calm
  case checkOwner =>
    cases owns : s.owner with
    | none =>
      simp only [← owns]
      exact inv.quiet at_ trivial
    | some owner =>
      have mine := inv.owner_of_held (t := self) owns (by simp [held, at_]) (by simp [at_])
      simp only [← owns, if_pos mine]
      exact inv.quiet at_ trivial
  case readToRelease =>
    have count : s.state.toNat = (s.threads self).locked + 1 :=
      inv.state_eq self (by simp only [held, at_]) (Nat.succ_pos _)
    refine inv.quiet at_ ?_
    change (s.state - 1).toNat = (s.threads self).locked
    rw [BitVec.toNat_sub_of_le (by rw [BitVec.le_def, count]; exact Nat.le_add_left _ _), count]
    rfl
  case rereadToRelease released =>
    have count : s.state.toNat = (s.threads self).locked + 1 :=
      inv.state_eq self (by simp only [held, at_]) (Nat.succ_pos _)
    exact inv.quiet at_ ⟨count, fresh⟩
  case swapToRelease expect released =>
    have count : s.state.toNat = (s.threads self).locked + 1 :=
      inv.state_eq self (by simp only [held, at_]) (Nat.succ_pos _)
    rw [if_pos (BitVec.eq_of_toNat_eq (count.trans fresh.1.symm))]
    exact inv.release at_
  case clearOwner =>
    exact inv.silent (by simp [held, at_]) trivial (by simp [at_]) (by simp)

theorem Inv.run (schedule : List (Tid × Call)) (calm : CalmRun s schedule) :
    Inv (run s schedule) := by
  -- Step by step.
  induction schedule generalizing s with
  | nil => exact inv
  | cons made schedule ih => exact ih (inv.step made.1 made.2 calm.1) calm.2

end

/-- After every calm interleaving of the locks and unlocks of any threads, one thread at most is
between a successful lock and its last unlock. -/
theorem exclusive_of_calm (schedule : List (Tid × Call)) (calm : CalmRun newLock schedule)
    (t u : Tid) (inside : Inside (run newLock schedule) t)
    (insideToo : Inside (run newLock schedule) u) : t = u := by
  -- Who is inside holds the lock.
  have inv := newLock_inv.run schedule calm
  have holds : ∀ t, Inside (run newLock schedule) t →
      0 < held ((run newLock schedule).threads t) := by
    intro t inside
    unfold Inside at inside
    unfold held
    split <;> omega
  exact inv.exclusive t u (holds t inside) (holds u insideToo)

/-- One thread locks and unlocks, then another one locks twice. -/
theorem exclusive_of_calm_handover :
    let schedule : List (Bool × Call) := List.replicate 5 (false, .lock) ++
      List.replicate 6 (false, .unlock) ++ List.replicate 10 (true, .lock)
    ((run newLock schedule).threads true).locked = 2 ∧
      ∀ u, Inside (run newLock schedule) u → true = u :=
  ⟨by decide +kernel, fun u => exclusive_of_calm _ (by decide +kernel) true u (by decide +kernel)⟩

/-- A thread that has found the state zero looks at it again once another thread is inside, expects
what it finds, and is let in too. -/
theorem both_inside_after_second_look :
    ¬ ∀ (schedule : List (Bool × Call)) (t u : Bool), Inside (run newLock schedule) t →
      Inside (run newLock schedule) u → t = u := by
  -- The first thread stops between its two looks while the second one locks.
  intro exclusive
  exact absurd (exclusive (List.replicate 2 (false, .lock) ++ List.replicate 5 (true, .lock) ++
    List.replicate 3 (false, .lock)) false true (by decide +kernel) (by decide +kernel)) (by decide)

end LearningNotes.Jdk.MyLock
