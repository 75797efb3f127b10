import LearningNotes.Cluster.SlotSafety

/-! A replica owns no slots, as long as it is not told to add some. -/

namespace LearningNotes.Cluster.SlotTable

open Lib

abbrev ProperRun (config : Config) : State → List Op → Prop := Guarded (step config) Proper

theorem safe_run {config : Config} {ops : List Op} (proper : ProperRun config newState ops) :
    Meets (run config ops) (Spared true) (Safe true) :=
  Meets.guarded (fun _ op safe proper => step_meets config safe op fun _ => proper)
    ⟨newState_sound, fun _ => .inl rfl⟩ proper

/-- Along every proper run this node has no slots while it is a replica, and the assertions in
`clusterSetMaster` hold. -/
theorem replicas_own_nothing (config : Config) (ops : List Op)
    (proper : ProperRun config newState ops) :
    Meets (run config ops) (· ≠ .setMaster) fun s =>
      ∀ me, s.node? s.myself = some me → me.slave = true → me.numslots = 0 := by
  have met := safe_run proper
  refine (met.permit fun fault spared same => ?_).mono fun s safe me here replica => ?_
  · subst same
    cases spared
  · rw [safe.numslots_eq_zero_iff here]
    obtain leads | ⟨_, without⟩ := safe.obedient rfl
    · have role := (role_of_known here).symm.trans leads
      simp [replica] at role
    · exact without

def pong : Packet := .ping false ⟨some 1, 2, 0, 0, true, false, none, 0, false, []⟩

def replica : State :=
  { newState with
    nodes := [(0, ⟨false, true, false, 0, 0, 0, some 1, []⟩),
      (1, ⟨true, false, false, 0, 0, 0, none, [0]⟩)]
    nextId := 2 }

theorem run_replica (config : Config) :
    run config [.meet, .packet pong, .replicate 1 true] = .ok replica := rfl

theorem properRun_replica (config : Config) :
    ProperRun config newState [.meet, .packet pong, .replicate 1 true] :=
  ⟨trivial, fun _ _ => ⟨trivial, fun _ _ => ⟨trivial, fun _ _ => trivial⟩⟩⟩

def firstSlot : Slot := ⟨0, by unfold clusterSlots; decide⟩

/-- The other master is given a slot; this node then follows it, and refuses to add the slot. -/
def servedOps : List Op :=
  [.meet, .packet pong, .setslot firstSlot (.node 1 false), .replicate 1 true,
    .addslots [firstSlot]]

theorem properRun_served (config : Config) : ProperRun config newState servedOps := by
  refine ⟨trivial, ?_⟩
  rintro _ ⟨⟩
  refine ⟨trivial, ?_⟩
  rintro _ ⟨⟩
  refine ⟨trivial, ?_⟩
  rintro _ ⟨⟩
  refine ⟨trivial, ?_⟩
  rintro _ ⟨⟩
  exact ⟨fun _ _ _ => .inr (.inr ⟨firstSlot, .head _, rfl⟩), fun _ _ => trivial⟩

/-- The master has the slot in the end, and its replica none. -/
theorem replica_owns_nothing :
    (∃ s, run ⟨false, true⟩ servedOps = .ok s ∧ s.slots firstSlot = some 1) ∧
    Meets (run ⟨false, true⟩ servedOps) (· ≠ .setMaster) fun s =>
      ∀ me, s.node? s.myself = some me → me.slave = true → me.numslots = 0 :=
  ⟨⟨_, rfl, rfl⟩, replicas_own_nothing _ _ (properRun_served _)⟩

/-- ADDSLOTS gives slots to a replica, which cannot be given another master any more. -/
theorem addslots_on_replica :
    ∃ slot s me,
      run ⟨false, true⟩ [.meet, .packet pong, .replicate 1 true, .addslots [slot]] = .ok s ∧
      s.node? s.myself = some me ∧ me.slave = true ∧ me.numslots ≠ 0 ∧
      ∀ n, clusterSetMaster s n = .error .setMaster := by
  let slot := firstSlot
  have safe : Safe true replica :=
    (safe_run (properRun_replica ⟨false, true⟩)).of_ok (run_replica _)
  have met := @addOrDelSlots_meets replica (fun _ => False) false safe.toSound [slot]
  cases added : addOrDelSlots false replica [slot] with
  | error fault =>
    rw [added] at met
    exact met.elim
  | ok s =>
    rw [added] at met
    obtain ⟨sound, steady, after⟩ := met
    obtain ⟨me, here, _⟩ := sound.linked.me
    have owns : me.numslots ≠ 0 := by
      intro zero
      rw [Reassigned, if_pos (by simp [replica, newState])] at after
      refine (sound.numslots_eq_zero_iff here).mp zero slot ?_
      rw [after, steady.myself]
      simp
    have role := (role_of_known here).symm.trans steady.role
    have ran : run ⟨false, true⟩ ([.meet, .packet pong, .replicate 1 true] ++ [.addslots [slot]]) =
        .ok s := by
      rw [run, List.foldlM_append, ← run, run_replica, ok_bind, List.foldlM_cons, step, added]
      rfl
    have slave := (Prod.mk.inj (Option.some.inj (Prod.mk.inj role).2)).2
    refine ⟨slot, s, me, ran, here, slave, owns, ?_⟩
    intro n
    rw [clusterSetMaster, node_of_known here, ok_bind, if_pos (.inr owns)]
    rfl

end LearningNotes.Cluster.SlotTable
