import LearningNotes.Hll.Sparse

/-! Sparse and dense objects hold the same registers through every sequence of updates. -/

namespace LearningNotes.Hll

open Lib List

/-- What the first byte tells `hllSparseSet` about an opcode. -/
theorem opcode_tests (op : Opcode) {count : Nat} (positive : 0 < count) :
    ∃ b tail, op.encode = b :: tail ∧
      (!sparseIsZero b && !sparseIsXzero b && decide (sparseValValue b ≥ count)) =
        decide (op.value ≥ count) ∧
      ((!sparseIsZero b && !sparseIsXzero b && op.len == 1 || sparseIsZero b && op.len == 1) = true →
        tail = [] ∧ op.len = 1) ∧
      (if sparseIsXzero b then 2 else 1) = op.encode.length := by
  cases op with
  | zero less =>
    obtain ⟨⟨zero, single, _⟩, _, _⟩ := sparseZeroSet_reads less
    refine ⟨_, [], rfl, ?_, ?_, ?_⟩
    · rw [zero]
      exact (decide_eq_false (Nat.not_le.mpr positive)).symm
    · rw [zero, Bool.not_true, Bool.false_and, Bool.false_and, Bool.true_and]
      exact fun one => ⟨rfl, eq_of_beq one⟩
    · rw [single]
      rfl
  | xzero less =>
    obtain ⟨b, next, shape, ⟨notZero, kind, _⟩, _, _⟩ := sparseXzeroSet_reads less
    refine ⟨b, [next], shape, ?_, ?_, ?_⟩
    · rw [notZero, kind]
      exact (decide_eq_false (Nat.not_le.mpr positive)).symm
    · rw [notZero, kind]
      exact fun never => by cases never
    · rw [kind, Opcode.encode, shape]
      rfl
  | val value less =>
    obtain ⟨⟨notZero, notXzero, _⟩, _, reads, _⟩ := sparseValSet_reads value less
    refine ⟨_, [], rfl, ?_, ?_, ?_⟩
    · rw [notZero, notXzero, reads]
      rfl
    · rw [notZero, notXzero]
      intro one
      rw [Bool.not_false, Bool.false_and, Bool.or_false] at one
      exact ⟨rfl, eq_of_beq one⟩
    · rw [notXzero]
      rfl

section Update

variable {o : Hllhdr} {registers : List Nat} {index count : Nat}

/-- The object holds the registers in a representation. -/
def Holds (o : Hllhdr) (registers : List Nat) : Prop :=
  SparseHolds o registers ∨ DenseHolds o registers

theorem hllSparseSet_spec (hllSparseMaxBytes : Nat) (holds : SparseHolds o registers)
    (inside : index < hllRegisters) (positive : 0 < count) (small : count < 64) :
    ∃ o', hllSparseSet hllSparseMaxBytes o index count =
        .ok (if registers.getD index 0 < count then 1 else 0, o') ∧
      Holds o' (raise registers index count) := by
  obtain ⟨encoding, length, ops, body, same⟩ := id holds
  have total : totalLen ops = hllRegisters := by rw [← length_values, same, length]
  have max : sparseValMaxValue = 32 := rfl
  -- The opcode of the register, which the search finds.
  obtain ⟨before, op, after, split, above, below, located⟩ :=
    @locate_spec index ops none 0 0 0 (Nat.zero_le _) (by omega)
  rw [Nat.zero_add, Nat.zero_add] at located
  rw [Nat.zero_add] at above below
  have value : registers.getD index 0 = op.value := by
    rw [← same, split]
    exact getD_values above below
  by_cases large : count > sparseValMaxValue
  · -- No value of a sparse object is that large.
    have larger : registers.getD index 0 < count := by
      rw [value]
      cases kind : op.isVal with
      | true => have := (op.value_bounds kind).2; omega
      | false => cases op <;> first | exact positive | cases kind
    obtain ⟨o', promoted, dense⟩ := promote_spec holds inside small larger
    exact ⟨o', by rw [hllSparseSet, if_pos large, promoted, if_pos larger], .inr dense⟩
  obtain ⟨b, tail, encoded, enough, short, width⟩ := opcode_tests op positive
  have dropped : o.registers.drop (encodeAll before).length = b :: (tail ++ encodeAll after) := by
    rw [body, split, encodeAll_append, drop_left, encodeAll_cons, encoded, cons_append]
  rw [hllSparseSet, if_neg large]
  dsimp only
  rw [body, located]
  rw [← body, dropped]
  dsimp only
  rw [enough]
  by_cases stays : op.value ≥ count
  · have equal : ¬ registers.getD index 0 < count := by omega
    refine ⟨o, ?_, ?_⟩
    · rw [if_pos (decide_eq_true stays), if_neg equal]
    · rw [raise, if_neg equal]
      exact .inl holds
  have larger : registers.getD index 0 < count := by omega
  have lower : ¬ decide (op.value ≥ count) = true := by
    rw [decide_eq_true_eq]
    omega
  rw [if_neg lower, if_pos larger]
  have set := @set_values before after op index above below count
  have raised : (raise registers index count).length = hllRegisters := by
    rw [raise, if_pos larger, length_set, length]
  rw [← split, same] at set
  by_cases trivial_ : (!sparseIsZero b && !sparseIsXzero b && op.len == 1 ||
      sparseIsZero b && op.len == 1) = true
  · -- The opcode covers this register only, and its byte is overwritten.
    obtain ⟨rfl, one⟩ := short trivial_
    obtain ⟨val, written, len, stored⟩ := val_encode positive (by omega : count ≤ 32)
    rw [if_pos trivial_]
    have overwritten : o.registers.set (encodeAll before).length (sparseValSet count 1) =
        encodeAll (before ++ val :: after) := by
      rw [body, split, encodeAll_append, encodeAll_cons, encoded,
        set_append_right _ _ (Nat.le_refl _), Nat.sub_self, encodeAll_append, encodeAll_cons,
        written]
      rfl
    refine ⟨_, rfl, .inl ?_⟩
    rw [overwritten]
    apply finishUpdate_spec encoding before (val :: after) _ raised
    rw [values_append, values_cons, len, stored, raise, if_pos larger, set,
      show index - totalLen before = 0 by omega,
      show totalLen before + op.len - 1 - index = 0 by omega]
    rfl
  · rw [if_neg trivial_]
    obtain ⟨seq, replaced, changed⟩ := splitOpcode_spec positive (by omega : count ≤ 32)
      (by rw [← total, split, totalLen_append, totalLen_cons]; omega) above below
      (prevOf 0 none before) (encodeAll before).length
    rw [encoded, headD_cons] at replaced
    rw [replaced, width]
    split
    · obtain ⟨o', promoted, dense⟩ := promote_spec holds inside small larger
      exact ⟨o', promoted, .inr dense⟩
    have behind : o.registers.drop ((encodeAll before).length + op.encode.length) =
        encodeAll after := by
      rw [← drop_drop, dropped, encoded, ← cons_append, drop_left]
    have front : o.registers.take (encodeAll before).length = encodeAll before := by
      rw [body, split, encodeAll_append, take_left]
    refine ⟨_, rfl, .inl ?_⟩
    rw [front, behind, take_of_length_le (by
      rw [body, split]
      simp only [encodeAll_append, encodeAll_cons, length_append]
      omega), ← encodeAll_append, ← encodeAll_append]
    apply finishUpdate_spec encoding before (seq ++ after) _ raised
    rw [values_append, values_append, changed, raise, if_pos larger, set]

theorem hllSet_spec (hllSparseMaxBytes : Nat) (holds : Holds o registers)
    (inside : index < hllRegisters) (positive : 0 < count) (small : count < 64) :
    ∃ o', hllSet hllSparseMaxBytes o index count =
        .ok (if registers.getD index 0 < count then 1 else 0, o') ∧
      Holds o' (raise registers index count) := by
  rcases holds with sparse | dense
  · rw [hllSet, sparse.1, if_pos rfl]
    exact hllSparseSet_spec hllSparseMaxBytes sparse inside positive small
  obtain ⟨p, set, raised⟩ := hllDenseSet_spec dense inside small
  refine ⟨{ o with registers := p }, ?_, .inr raised⟩
  rw [hllSet, if_pos dense.1, set]
  by_cases larger : registers.getD index 0 < count
  · rw [if_pos larger, decide_eq_true larger]
    rfl
  · rw [if_neg larger, decide_eq_false larger]
    rfl

theorem hllMerge_spec (holds : Holds o registers) {max : List Nat}
    (size : max.length = hllRegisters) :
    ∃ max', hllMerge max o = .ok (some max') ∧ max'.length = hllRegisters ∧
      ∀ j < hllRegisters, max'.getD j 0 = Nat.max (max.getD j 0) (registers.getD j 0) := by
  rcases holds with ⟨encoding, length, ops, body, same⟩ | ⟨encoding, length, _, seen⟩
  · have differ : ¬ o.encoding = hllDense := by
      rw [encoding]
      decide
    have total : totalLen ops = hllRegisters := by rw [← length_values, same, length]
    obtain ⟨max', decoded, size', seen⟩ := @Writes.decode_values (List Nat) longOverflows raiseMax _
      _ _ raiseMax_writes longOverflows_testsSum ops 0 max size (by omega)
    rw [total] at decoded
    refine ⟨max', ?_, size', ?_⟩
    · rw [hllMerge, if_neg differ, body, decodeSparse_eq, opcodes_encodeAll,
        show (0 : Int) = (0 : Nat) from rfl, decoded, ok_bind]
      exact if_neg (not_not_intro rfl)
    · intro j inside
      rw [seen j inside, if_pos (Nat.zero_le j), same, Nat.sub_zero]
  · obtain ⟨max', merged, size', seen'⟩ := mergeDense_spec o.registers hllRegisters 0
      (Nat.le_of_eq ((Nat.zero_add _).trans size.symm))
    refine ⟨max', by rw [hllMerge, if_pos encoding, merged]; rfl, size'.trans size, ?_⟩
    intro j inside
    rw [seen' j, if_pos (by omega), seen j inside]

theorem getD_zeros (j : Nat) : (List.replicate hllRegisters 0).getD j 0 = 0 := by
  rw [getD_eq_getElem?_getD, getElem?_replicate]
  split <;> rfl

theorem Holds.length (holds : Holds o registers) : registers.length = hllRegisters := by
  rcases holds with ⟨_, size, _⟩ | ⟨_, size, _⟩ <;> exact size

theorem registers_ext {max : List Nat} (size : max.length = hllRegisters)
    (length : registers.length = hllRegisters)
    (agree : ∀ j < hllRegisters, max.getD j 0 = registers.getD j 0) : max = registers := by
  apply ext_getElem (size.trans length.symm)
  intro j left right
  have equal := agree j (size ▸ left)
  rwa [getD_eq_getElem _ _ left, getD_eq_getElem _ _ right] at equal

theorem hllMerge_zeros (holds : Holds o registers) :
    hllMerge (List.replicate hllRegisters 0) o = .ok (some registers) := by
  obtain ⟨max, merged, size, seen⟩ := hllMerge_spec holds length_replicate
  rw [merged, registers_ext size holds.length]
  intro j inside
  rw [seen j inside, getD_zeros]
  exact Nat.zero_max _

end Update

/-- An update of a register, under the limit at that time. -/
structure Update where
  index : Fin hllRegisters
  count : Nat
  bounds : 1 ≤ count ∧ count ≤ 51
  hllSparseMaxBytes : Nat

def serve (o : Hllhdr) (update : Update) : Except Fault (Int × Hllhdr) :=
  hllSet update.hllSparseMaxBytes o update.index update.count

def highest (updates : List Update) (index : Nat) : Nat :=
  ((updates.filter fun update => update.index.val = index).map Update.count).foldr max 0

def raiseAll (registers : List Nat) (updates : List Update) : List Nat :=
  updates.foldl (fun registers update => raise registers update.index update.count) registers

theorem getD_raiseAll (updates : List Update) {registers : List Nat}
    (length : registers.length = hllRegisters) (j : Nat) :
    (raiseAll registers updates).getD j 0 = Nat.max (registers.getD j 0) (highest updates j) := by
  induction updates generalizing registers with
  | nil => exact (Nat.max_zero _).symm
  | cons update updates ih =>
    rw [raiseAll, foldl_cons, ← raiseAll, ih ((length_raise _ _ _).trans length),
      getD_raise (by rw [length]; exact update.index.isLt), highest]
    by_cases same : j = update.index
    · rw [if_pos same, highest, filter_cons_of_pos (by simp [same]), map_cons, foldr_cons]
      exact Nat.max_assoc _ _ _
    · rw [if_neg same, highest, filter_cons_of_neg (by simpa using fun eq => same eq.symm)]

theorem run_holds (updates : List Update) {o : Hllhdr} {registers : List Nat}
    (holds : Holds o registers) :
    ∃ replies o', runCalls serve o updates = .ok (replies, o') ∧
      Holds o' (raiseAll registers updates) ∧ replies.length = updates.length ∧
      ∀ before update after, updates = before ++ update :: after →
        replies[before.length]? =
          some (if (raiseAll registers before).getD update.index 0 < update.count
            then 1 else 0) := by
  induction updates generalizing o registers with
  | nil =>
    exact ⟨[], o, rfl, holds, rfl, fun before update after split => by
      cases before <;> cases split⟩
  | cons update updates ih =>
    obtain ⟨positive, small⟩ := update.bounds
    obtain ⟨middle, served, holds'⟩ := hllSet_spec update.hllSparseMaxBytes holds
      update.index.isLt positive (by omega : update.count < 64)
    obtain ⟨replies, final, ran, holds'', length, returned⟩ := ih holds'
    refine ⟨(if registers.getD update.index 0 < update.count then 1 else 0) :: replies, final, ?_,
      holds'', by rw [length_cons, length, length_cons], ?_⟩
    · rw [runCalls, serve, served, ok_bind]
      dsimp only
      rw [ran]
      rfl
    · intro before later after split
      cases before with
      | nil =>
        obtain ⟨rfl, rfl⟩ := List.cons.inj split
        rfl
      | cons first before =>
        obtain ⟨rfl, rest⟩ := List.cons.inj split
        exact returned before later after rest

theorem createHLLObject_holds : Holds createHLLObject (List.replicate hllRegisters 0) := by
  refine .inl ⟨rfl, length_replicate, [.xzero 16383], rfl, ?_⟩
  rw [values_cons, values_nil, append_nil]
  rfl

def WellFormed (o : Hllhdr) : Prop :=
  (o.encoding = hllSparse ∧
      ∃ ops, o.registers = encodeAll ops ∧ totalLen ops = hllRegisters) ∨
    (o.encoding = hllDense ∧ o.registers.length = hllDenseBytes)

/-- After any updates, the registers of an object are the maxima, in either representation. -/
theorem updates_give_maxima (updates : List Update) :
    ∃ replies o, runCalls serve createHLLObject updates = .ok (replies, o) ∧ WellFormed o ∧
      hllMerge (List.replicate hllRegisters 0) o =
        .ok (some ((List.range hllRegisters).map (highest updates))) ∧
      replies.length = updates.length ∧
      ∀ before update after, updates = before ++ update :: after →
        replies[before.length]? =
          some (if highest before update.index < update.count then 1 else 0) := by
  obtain ⟨replies, o, ran, holds, length, returned⟩ := run_holds updates createHLLObject_holds
  have zeros : ∀ (updates : List Update) (j : Nat),
      (raiseAll (List.replicate hllRegisters 0) updates).getD j 0 = highest updates j := by
    intro updates j
    rw [getD_raiseAll updates length_replicate, getD_zeros]
    exact Nat.zero_max _
  have registers : raiseAll (List.replicate hllRegisters 0) updates =
      (List.range hllRegisters).map (highest updates) := by
    apply ext_getElem (by rw [holds.length, length_map, length_range])
    intro j left right
    rw [getElem_map, getElem_range, ← zeros updates j, getD_eq_getElem _ _ left]
  refine ⟨replies, o, ran, ?_, ?_, length, ?_⟩
  · rcases holds with ⟨encoding, size, ops, body, same⟩ | ⟨encoding, _, size, _⟩
    · exact .inl ⟨encoding, ops, body, by rw [← length_values, same, size]⟩
    · exact .inr ⟨encoding, size⟩
  · rw [hllMerge_zeros holds, registers]
  · intro before update after split
    rw [returned before update after split, zeros]

end LearningNotes.Hll
