import LearningNotes.Replication.Backlog

/-! A partial resynchronization sends exactly the bytes of the stream that are missing. -/

namespace LearningNotes.Replication

open Lib Lib.Memory Util List

inductive Call where
  | feed (data : Bytes)
  /-- The size is set at runtime; the new memory is unknown. -/
  | resize (unknown : Nat → UInt8) (newsize : Int)

def serve (s : Server) : Call → Except Fault Server
  | .feed data => feedReplicationBacklog s data
  | .resize unknown newsize => .ok (resizeReplicationBacklog unknown s newsize)

def run : Server → List Call → Except Fault Server
  | s, [] => .ok s
  | s, call :: calls => do run (← serve s call) calls

/-- The stream since the backlog was created. -/
structure History where
  size : Nat
  stream : Bytes
  /-- How long the stream was when the buffer was allocated. -/
  since : Nat

def grantedSize (newsize : Int) : Nat :=
  if newsize < configReplBacklogMinSize then configReplBacklogMinSize else newsize.toNat

def History.step (h : History) : Call → History
  | .feed data => { h with stream := h.stream ++ data }
  | .resize _ newsize =>
    if h.size = grantedSize newsize then h
    else { h with size := grantedSize newsize, since := h.stream.length }

def History.after : History → List Call → History
  | h, [] => h
  | h, call :: calls => (h.step call).after calls

def History.missing (h : History) (start offset : Int) : Bytes :=
  h.stream.drop (offset - start - 1).toNat

/-- The backlog holds the newest bytes of the stream. -/
structure Holds (s : Server) (start : Int) (h : History) : Prop where
  buffer : ∃ buffer, s.replBacklog = some buffer ∧ buffer.length = s.replBacklogSize ∧
    (Ring.unroll buffer s.replBacklogIdx).drop (s.replBacklogSize - s.replBacklogHistlen) =
      h.stream.drop (h.stream.length - s.replBacklogHistlen)
  size : s.replBacklogSize = h.size
  positive : 0 < s.replBacklogSize
  idx : s.replBacklogIdx < s.replBacklogSize
  since : h.since ≤ h.stream.length
  histlen : s.replBacklogHistlen = min (h.stream.length - h.since) s.replBacklogSize
  offset : s.masterReplOffset = start + h.stream.length
  off : s.replBacklogOff = s.masterReplOffset - s.replBacklogHistlen + 1

section Feeding

theorem feedLoop_eq {fuel : Nat} {s : Server} {data buffer : Bytes} (fueled : data.length ≤ fuel)
    (allocated : s.replBacklog = some buffer) (sized : buffer.length = s.replBacklogSize)
    (inside : s.replBacklogIdx < s.replBacklogSize) :
    ∃ buffer' idx', feedLoop fuel s data = .ok
        { s with
          replBacklog := some buffer'
          replBacklogIdx := idx'
          replBacklogHistlen := s.replBacklogHistlen + data.length } ∧
      buffer'.length = s.replBacklogSize ∧ idx' < s.replBacklogSize ∧
      Ring.unroll buffer' idx' =
        (Ring.unroll buffer s.replBacklogIdx ++ data).drop data.length := by
  induction fuel generalizing s data buffer with
  | zero =>
    have none : data = [] := eq_nil_of_length_eq_zero (Nat.le_zero.mp fueled)
    subst none
    refine ⟨buffer, s.replBacklogIdx, ?_, sized, inside, by simp⟩
    rw [feedLoop, ← allocated]
    rfl
  | succ fuel ih =>
    cases data with
    | nil =>
      refine ⟨buffer, s.replBacklogIdx, ?_, sized, inside, by simp⟩
      rw [feedLoop, ← allocated]
      rfl
    | cons byte data =>
      rw [feedLoop]
      case x_3 => exact cons_ne_nil byte data
      generalize whole : byte :: data = all at *
      generalize length : min (s.replBacklogSize - s.replBacklogIdx) all.length = thislen
      -- As much is written as fits in front of the end of the buffer.
      have write : (all.take thislen).length = thislen := by
        rw [length_take]
        omega
      obtain ⟨before, rest, first, beforeLength⟩ :=
        @exists_cut buffer s.replBacklogIdx (by omega)
      have restLength := congrArg List.length first
      rw [length_append] at restLength
      obtain ⟨covered, after, second, coveredLength⟩ := @exists_cut rest thislen (by omega)
      rw [first, second] at allocated sized ⊢
      have stored : store (before ++ (covered ++ after)) s.replBacklogIdx (all.take thislen) =
          .ok (before ++ (all.take thislen ++ after)) :=
        store_middle beforeLength.symm (by rw [write, coveredLength])
      have rolled := @Ring.unroll_write _ before covered after (all.take thislen)
        (by rw [write, coveredLength])
      rw [sized, write, beforeLength] at rolled
      have wrapped : Ring.wrap s.replBacklogSize (s.replBacklogIdx + thislen) <
          s.replBacklogSize := by
        unfold Ring.wrap
        split <;> omega
      obtain ⟨buffer', idx', fed, sized', inside', shape⟩ := @ih
        { s with
          replBacklog := some (before ++ (all.take thislen ++ after))
          replBacklogIdx := Ring.wrap s.replBacklogSize (s.replBacklogIdx + thislen)
          replBacklogHistlen := s.replBacklogHistlen + thislen }
        (all.drop thislen) _ (by rw [length_drop]; omega) rfl
        (by rw [← sized]; simp only [length_append, write, coveredLength]) wrapped
      refine ⟨buffer', idx', ?_, sized', inside', ?_⟩
      · rw [backlogOf, allocated, inBounds, ok_bind, stored, ok_bind, fed]
        congr 2
        simp only [length_drop]
        omega
      · rw [shape, rolled, ← drop_append_of_le_length (by rw [length_append, write]; omega), drop_drop,
          append_assoc, take_append_drop, length_drop]
        congr 1
        omega

theorem feedReplicationBacklog_holds {s : Server} {start : Int} {h : History} (holds : Holds s start h)
    (data : Bytes) :
    ∃ s', feedReplicationBacklog s data = .ok s' ∧ s'.replid = s.replid ∧
      Holds s' start { h with stream := h.stream ++ data } := by
  obtain ⟨⟨buffer, allocated, sized, newest⟩, size, positive, inside, since, histlen, offset, off⟩ :=
    holds
  obtain ⟨buffer', idx', fed, sized', inside', rolled⟩ := @feedLoop_eq data.length
    { s with masterReplOffset := s.masterReplOffset + data.length } data buffer
    (Nat.le_refl _) allocated sized inside
  rw [feedReplicationBacklog]
  rw [fed, ok_bind]
  refine ⟨_, rfl, rfl, ⟨buffer', rfl, sized', ?_⟩, size, positive, inside', ?_, ?_, ?_, rfl⟩
  · -- What was newest before is followed by the data, and the oldest bytes of both are gone.
    have long : (Ring.unroll buffer s.replBacklogIdx).length = s.replBacklogSize := by
      rw [Ring.length_unroll, sized]
    have recent := congrArg (· ++ data) newest
    dsimp only at recent ⊢
    rw [← drop_append_of_le_length (by omega), ← drop_append_of_le_length (by omega)] at recent
    have kept := congrArg (List.drop (data.length + s.replBacklogHistlen -
      min (s.replBacklogHistlen + data.length) s.replBacklogSize)) recent
    rw [drop_drop, drop_drop] at kept
    rw [rolled, drop_drop, length_append]
    refine Eq.trans ?_ (kept.trans ?_)
    · congr 1
      omega
    · congr 1
      omega
  · simp only [length_append]
    omega
  · simp only [length_append]
    omega
  · simp only [length_append]
    omega

theorem emptyBacklog_holds {s : Server} {start : Int} {stream : Bytes} (unknown : Nat → UInt8)
    (positive : 0 < s.replBacklogSize) (offset : s.masterReplOffset = start + stream.length) :
    Holds (emptyBacklog unknown s) start ⟨s.replBacklogSize, stream, stream.length⟩ := by
  refine ⟨⟨zmalloc unknown s.replBacklogSize, rfl, ?_, ?_⟩, rfl, positive, positive,
    Nat.le_refl _, ?_, offset, ?_⟩
  · simp [zmalloc, emptyBacklog]
  · simp [emptyBacklog, zmalloc]
  · simp [emptyBacklog]
  · simp [emptyBacklog]

theorem serve_holds {s : Server} {start : Int} {h : History} (holds : Holds s start h)
    (call : Call) :
    ∃ s', serve s call = .ok s' ∧ s'.replid = s.replid ∧ Holds s' start (h.step call) := by
  cases call with
  | feed data => exact feedReplicationBacklog_holds holds data
  | resize unknown newsize =>
    obtain ⟨buffer, allocated, -⟩ := holds.buffer
    have granted : 0 < grantedSize newsize := by
      unfold grantedSize configReplBacklogMinSize
      split <;> omega
    refine ⟨resizeReplicationBacklog unknown s newsize, rfl, ?_⟩
    rw [resizeReplicationBacklog, ← grantedSize, History.step, ← holds.size]
    dsimp only
    by_cases same : s.replBacklogSize = grantedSize newsize
    · rw [if_pos same, if_pos same]
      exact ⟨rfl, holds⟩
    · rw [if_neg same, if_neg same, allocated, Option.isSome_some, if_pos rfl]
      exact ⟨rfl, emptyBacklog_holds unknown granted holds.offset⟩

theorem run_holds {start : Int} (calls : List Call) {s : Server} {h : History}
    (holds : Holds s start h) :
    ∃ s', run s calls = .ok s' ∧ s'.replid = s.replid ∧ Holds s' start (h.after calls) := by
  induction calls generalizing s h with
  | nil => exact ⟨_, rfl, rfl, holds⟩
  | cons call calls ih =>
    obtain ⟨middle, served, same, kept⟩ := serve_holds holds call
    obtain ⟨last, ran, same', final⟩ := ih kept
    refine ⟨last, ?_, same'.trans same, final⟩
    rw [run, served, ok_bind, ran]

end Feeding

section Replying

end Replying

def smallServer : Server :=
  { replBacklog := none, replBacklogSize := 4, replBacklogHistlen := 0, replBacklogIdx := 0,
    replBacklogOff := 0, masterReplOffset := 10, replid := [97], replid2 := [48],
    secondReplidOffset := -1 }

end LearningNotes.Replication
