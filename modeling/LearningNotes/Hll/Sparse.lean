import LearningNotes.Hll.Robust

/-! One update of a sparse body: the opcode is found, split or overwritten, and values are merged. -/

namespace LearningNotes.Hll

open Lib List
open List (replicate)

section Locate

theorem locate_encode (index : Nat) (op : Opcode) (rest : Bytes) (prev : Option Nat)
    (p first span : Nat) :
    locate index (op.encode ++ rest) ⟨prev, p, first, span⟩ =
      if index < first + op.len then ⟨prev, p, first, op.len⟩
      else locate index rest ⟨some p, p + op.encode.length, first + op.len, op.len⟩ := by
  cases op with
  | zero less =>
    obtain ⟨⟨zero, _, _⟩, len, _⟩ := sparseZeroSet_reads less
    rw [Opcode.encode, singleton_append, Opcode.len]
    -- The last byte of a body is a case of its own.
    cases rest with
    | nil => simp only [locate, zero, len, if_true, Bool.true_or]; rfl
    | cons next rest => simp only [locate, zero, len, if_true, Bool.true_or]; rfl
  | xzero less =>
    obtain ⟨b, next, shape, ⟨zero, _, val⟩, len, _⟩ := sparseXzeroSet_reads less
    rw [Opcode.encode, shape, cons_append, singleton_append, Opcode.len]
    simp only [locate, zero, val, len, Bool.or_self, Bool.false_eq_true, if_false]
    rfl
  | val value less =>
    obtain ⟨⟨zero, _, val⟩, len, _, _⟩ := sparseValSet_reads value less
    rw [Opcode.encode, singleton_append, Opcode.len]
    cases rest with
    | nil => simp only [locate, zero, val, len, if_true, Bool.or_true, Bool.false_eq_true, if_false]; rfl
    | cons next rest =>
      simp only [locate, zero, val, len, if_true, Bool.or_true, Bool.false_eq_true, if_false]
      rfl

/-- The position of the opcode before the place. -/
def prevOf (p : Nat) (prev : Option Nat) : List Opcode → Option Nat
  | [] => prev
  | op :: ops => prevOf (p + op.encode.length) (some p) ops

theorem locate_spec (index : Nat) (ops : List Opcode) {prev : Option Nat} {p first span : Nat}
    (above : first ≤ index) (below : index < first + totalLen ops) :
    ∃ before op after, ops = before ++ op :: after ∧ first + totalLen before ≤ index ∧
      index < first + totalLen before + op.len ∧
      locate index (encodeAll ops) ⟨prev, p, first, span⟩ =
        ⟨prevOf p prev before, p + (encodeAll before).length, first + totalLen before, op.len⟩ := by
  induction ops generalizing prev p first span with
  | nil => rw [totalLen_nil] at below; omega
  | cons op ops ih =>
    rw [encodeAll_cons, locate_encode]
    by_cases here : index < first + op.len
    · exact ⟨[], op, ops, rfl, above, here, by rw [if_pos here]; rfl⟩
    rw [if_neg here]
    rw [totalLen_cons] at below
    obtain ⟨before, found, after, split, low, high, located⟩ :=
      @ih (some p) (p + op.encode.length) (first + op.len) op.len (by omega) (by omega)
    refine ⟨op :: before, found, after, by rw [split, cons_append], ?_, ?_, ?_⟩
    · rw [totalLen_cons]
      omega
    · rw [totalLen_cons]
      omega
    · rw [located, totalLen_cons, encodeAll_cons, length_append, prevOf, Nat.add_assoc,
        Nat.add_assoc]

theorem prevOf_spec (before : List Opcode) :
    ∃ front back, before = front ++ back ∧
      (prevOf 0 none before).getD 0 = (encodeAll front).length := by
  have general : ∀ (before : List Opcode) (p : Nat) (prev : Option Nat), before ≠ [] →
      ∃ front back, before = front ++ back ∧
        prevOf p prev before = some (p + (encodeAll front).length) := by
    intro before p prev some_
    induction before generalizing p prev with
    | nil => exact absurd rfl some_
    | cons op ops ih =>
      cases ops with
      | nil => exact ⟨[], [op], rfl, rfl⟩
      | cons next ops =>
        obtain ⟨front, back, split, found⟩ :=
          ih (p + op.encode.length) (some p) (cons_ne_nil _ _)
        refine ⟨op :: front, back, by rw [split, cons_append], ?_⟩
        rw [prevOf, found, encodeAll_cons, length_append, Nat.add_assoc]
  cases before with
  | nil => exact ⟨[], [], rfl, rfl⟩
  | cons op ops =>
    obtain ⟨front, back, split, found⟩ := general (op :: ops) 0 none (cons_ne_nil _ _)
    exact ⟨front, back, split, by rw [found, Nat.zero_add]; rfl⟩

end Locate

section Merge

theorem mergeVals_pass {b : UInt8} (single : sparseIsXzero b = false) (scanlen : Nat) (rest : Bytes)
    (apart : ∀ next later, rest = next :: later →
      sparseIsZero b = true ∨ sparseIsVal next = false ∨
        sparseValValue b ≠ sparseValValue next ∨
        ¬ sparseValLen b + sparseValLen next ≤ sparseValMaxLen) :
    mergeVals (scanlen + 1) (b :: rest) = b :: mergeVals scanlen rest := by
  cases rest with
  | nil => cases scanlen <;> rfl
  | cons next later =>
    rw [mergeVals, single, if_neg Bool.false_ne_true]
    rcases apart next later rfl with zero | other | differ | long
    · rw [if_pos zero]
    · rw [other, Bool.false_and, Bool.false_and, if_neg Bool.false_ne_true, ite_self]
    · rw [beq_eq_false_iff_ne.mpr differ, Bool.and_false, Bool.false_and,
        if_neg Bool.false_ne_true, ite_self]
    · rw [decide_eq_false long, Bool.and_false, if_neg Bool.false_ne_true, ite_self]

/-- A run that its successor cannot be merged with is passed over. -/
theorem mergeVals_val_pass (value : Fin 32) (less : Fin 4) (scanlen : Nat) (rest : List Opcode)
    (apart : ∀ b later, encodeAll rest = b :: later →
      sparseIsVal b = false ∨ sparseValValue b ≠ value + 1 ∨
        ¬ less + 1 + sparseValLen b ≤ sparseValMaxLen) :
    mergeVals (scanlen + 1) (encodeAll (.val value less :: rest)) =
      (Opcode.val value less).encode ++ mergeVals scanlen (encodeAll rest) := by
  obtain ⟨⟨_, single, _⟩, len, val, _⟩ := sparseValSet_reads value less
  apply mergeVals_pass single
  intro next later shape
  rw [val, len]
  rcases apart next later shape with other | differ | long
  · exact .inr (.inl other)
  · exact .inr (.inr (.inl (Ne.symm differ)))
  · exact .inr (.inr (.inr long))

/-- Two neighbouring runs of one value that fit one opcode become one, and the scan stays at
it. -/
theorem mergeVals_merge (value : Fin 32) {less less' : Fin 4} (scanlen : Nat)
    (rest : List Opcode) (bound : less.val + less'.val + 1 < 4) :
    mergeVals (scanlen + 1) (encodeAll (.val value less :: .val value less' :: rest)) =
      mergeVals scanlen (encodeAll (.val value ⟨_, bound⟩ :: rest)) := by
  obtain ⟨⟨notZero, single, _⟩, len, val, _⟩ := sparseValSet_reads value less
  obtain ⟨⟨_, _, kind⟩, len', val', _⟩ := sparseValSet_reads value less'
  have fits : less.val + 1 + (less'.val + 1) ≤ sparseValMaxLen := by
    change _ ≤ 4
    omega
  rw [encodeAll_cons, encodeAll_cons, Opcode.encode, Opcode.encode,
    singleton_append, singleton_append, mergeVals, single,
    if_neg Bool.false_ne_true, notZero, if_neg Bool.false_ne_true, kind, val, val',
    len, len', BEq.rfl, decide_eq_true fits, Bool.and_self, Bool.and_self,
    if_pos rfl, encodeAll_cons, Opcode.encode, singleton_append,
    show less.val + 1 + (less'.val + 1) = less.val + less'.val + 1 + 1 by omega]

theorem values_merge (value : Fin 32) {less less' : Fin 4} (rest : List Opcode)
    (bound : less.val + less'.val + 1 < 4) :
    values (.val value ⟨_, bound⟩ :: rest) =
      values (.val value less :: .val value less' :: rest) := by
  rw [values_cons, values_cons, values_cons, ← append_assoc]
  congr 1
  change replicate (less.val + less'.val + 1 + 1) (value.val + 1) =
    replicate (less.val + 1) (value.val + 1) ++ replicate (less'.val + 1) (value.val + 1)
  rw [replicate_append_replicate]
  congr 1
  omega

/-- One round at a run of a value: it passes the run, or merges it with the next one. -/
theorem mergeVals_val_round (value : Fin 32) (less : Fin 4) (scanlen : Nat)
    (rest : List Opcode) :
    mergeVals (scanlen + 1) (encodeAll (.val value less :: rest)) =
        (Opcode.val value less).encode ++ mergeVals scanlen (encodeAll rest) ∨
      ∃ ops', mergeVals (scanlen + 1) (encodeAll (.val value less :: rest)) =
          mergeVals scanlen (encodeAll ops') ∧ values ops' = values (.val value less :: rest) := by
  cases rest with
  | nil => exact .inl (mergeVals_val_pass value less scanlen [] fun _ _ none_ => by cases none_)
  | cons next rest =>
    -- Only another run of the same value can be merged with this one.
    cases next with
    | zero less' =>
      obtain ⟨⟨_, _, other⟩, _, _⟩ := sparseZeroSet_reads less'
      refine .inl (mergeVals_val_pass value less scanlen _ fun b later shape => ?_)
      obtain ⟨rfl, _⟩ := List.cons.inj shape
      exact .inl other
    | xzero less' =>
      obtain ⟨high, low, encoded, ⟨_, _, other⟩, _, _⟩ := sparseXzeroSet_reads less'
      refine .inl (mergeVals_val_pass value less scanlen _ fun b later shape => ?_)
      rw [encodeAll_cons, Opcode.encode, encoded] at shape
      obtain ⟨rfl, _⟩ := List.cons.inj shape
      exact .inl other
    | val value' less' =>
      obtain ⟨_, len', val', _⟩ := sparseValSet_reads value' less'
      by_cases merge : value = value' ∧ less.val + 1 + (less'.val + 1) ≤ 4
      · obtain ⟨rfl, fits⟩ := merge
        have bound : less.val + less'.val + 1 < 4 := by omega
        exact .inr ⟨_, mergeVals_merge value scanlen rest bound, values_merge value rest bound⟩
      · refine .inl (mergeVals_val_pass value less scanlen _ fun b later shape => ?_)
        obtain ⟨rfl, _⟩ := List.cons.inj shape
        rw [val', len']
        by_cases same : value = value'
        · exact .inr (.inr fun fits => merge ⟨same, fits⟩)
        · exact .inr (.inl fun eq => same (Fin.ext (Nat.succ.inj eq).symm))

theorem mergeVals_round (op : Opcode) (scanlen : Nat) (rest : List Opcode) :
    mergeVals (scanlen + 1) (encodeAll (op :: rest)) =
        op.encode ++ mergeVals scanlen (encodeAll rest) ∨
      ∃ ops', mergeVals (scanlen + 1) (encodeAll (op :: rest)) =
          mergeVals scanlen (encodeAll ops') ∧ values ops' = values (op :: rest) := by
  cases op with
  | zero less =>
    obtain ⟨⟨zero, single, _⟩, _, _⟩ := sparseZeroSet_reads less
    exact .inl (mergeVals_pass single scanlen _ fun _ _ _ => .inl zero)
  | xzero less =>
    obtain ⟨b, next, shape, ⟨_, kind, _⟩, _, _⟩ := sparseXzeroSet_reads less
    left
    rw [encodeAll_cons, Opcode.encode, shape, cons_append, singleton_append,
      mergeVals, if_pos kind]
    rfl
  | val value less => exact mergeVals_val_round value less scanlen rest

/-- Merging changes the opcodes and none of the registers. -/
theorem mergeVals_spec (scanlen : Nat) (ops : List Opcode) :
    ∃ ops', mergeVals scanlen (encodeAll ops) = encodeAll ops' ∧ values ops' = values ops := by
  induction scanlen generalizing ops with
  | zero => exact ⟨ops, rfl, rfl⟩
  | succ scanlen ih =>
    cases ops with
    | nil => exact ⟨[], rfl, rfl⟩
    | cons op rest =>
      rcases mergeVals_round op scanlen rest with passed | ⟨ops', merged, same⟩
      · obtain ⟨rest', scanned, same⟩ := ih rest
        exact ⟨op :: rest', by rw [passed, scanned, encodeAll_cons],
          by rw [values_cons, same, values_cons]⟩
      · obtain ⟨final, scanned, kept⟩ := ih ops'
        exact ⟨final, merged.trans scanned, kept.trans same⟩

end Merge

section Split

theorem zerosSet_spec {len : Nat} (fits : len ≤ hllRegisters) :
    ∃ ops, zerosSet len = encodeAll ops ∧ values ops = replicate len 0 := by
  have count : hllRegisters = 16384 := rfl
  have max : sparseZeroMaxLen = 64 := rfl
  rw [zerosSet]
  by_cases none_ : len = 0
  · exact ⟨[], by rw [if_pos none_]; rfl, by rw [none_]; rfl⟩
  obtain ⟨less, shape⟩ : ∃ less, len = less + 1 := ⟨len - 1, by omega⟩
  subst shape
  by_cases long : less + 1 > sparseZeroMaxLen
  · refine ⟨[.xzero ⟨less, by omega⟩], ?_, append_nil _⟩
    rw [if_pos long, encodeAll_cons, encodeAll_nil, append_nil]
    rfl
  · exact ⟨[.zero ⟨less, by omega⟩], by rw [if_neg long]; rfl, append_nil _⟩

theorem valsSet_spec (value : Fin 32) {len : Nat} (fits : len ≤ sparseValMaxLen) :
    ∃ ops, valsSet (value + 1) len = encodeAll ops ∧
      values ops = replicate len (value.val + 1) := by
  have max : sparseValMaxLen = 4 := rfl
  rw [valsSet]
  by_cases none_ : len = 0
  · exact ⟨[], by rw [if_pos none_]; rfl, by rw [none_]; rfl⟩
  · obtain ⟨less, shape⟩ : ∃ less, len = less + 1 := ⟨len - 1, by omega⟩
    subst shape
    exact ⟨[.val value ⟨less, by omega⟩], rfl, append_nil _⟩

end Split

section Registers

variable {before after : List Opcode} {op : Opcode} {index : Nat}

theorem getD_values (above : totalLen before ≤ index) (below : index < totalLen before + op.len) :
    (values (before ++ op :: after)).getD index 0 = op.value := by
  rw [values_append, getD_append_right _ _ _ _ (by rw [length_values]; exact above),
    length_values, values_cons,
    getD_append _ _ _ _ (by rw [length_replicate]; omega),
    getD_replicate _ (by omega)]

theorem set_values (above : totalLen before ≤ index) (below : index < totalLen before + op.len)
    (val : Nat) :
    (values (before ++ op :: after)).set index val =
      values before ++ (replicate (index - totalLen before) op.value ++
        val :: replicate (totalLen before + op.len - 1 - index) op.value ++ values after) := by
  have parts : replicate op.len op.value =
      replicate (index - totalLen before) op.value ++
        op.value :: replicate (totalLen before + op.len - 1 - index) op.value := by
    rw [← replicate_succ, replicate_append_replicate]
    congr 1
    omega
  rw [values_append, values_cons, parts,
    set_append_right _ _ (by rw [length_values]; exact above), length_values,
    append_assoc, set_append_right _ _ (Nat.le_of_eq length_replicate),
    length_replicate, Nat.sub_self, cons_append, set_cons_zero, append_assoc,
    cons_append]

end Registers

def SparseHolds (o : Hllhdr) (registers : List Nat) : Prop :=
  o.encoding = hllSparse ∧ registers.length = hllRegisters ∧
    ∃ ops, o.registers = encodeAll ops ∧ values ops = registers

def DenseHolds (o : Hllhdr) (registers : List Nat) : Prop :=
  o.encoding = hllDense ∧ registers.length = hllRegisters ∧
    o.registers.length = hllDenseBytes ∧
    ∀ j < hllRegisters, denseGetRegister o.registers j = registers.getD j 0

section Dense

variable {o : Hllhdr} {registers : List Nat} {index count : Nat}

theorem hllDenseSet_spec (holds : DenseHolds o registers) (inside : index < hllRegisters)
    (small : count < 64) :
    ∃ p, hllDenseSet o.registers index count = (decide (registers.getD index 0 < count), p) ∧
      DenseHolds { o with registers := p } (raise registers index count) := by
  obtain ⟨encoding, length, size, seen⟩ := holds
  rw [hllDenseSet, seen index inside, raise]
  by_cases larger : registers.getD index 0 < count
  · rw [if_pos larger, if_pos larger, decide_eq_true larger]
    refine ⟨_, rfl, encoding, by rw [length_set, length], ?_, ?_⟩
    · exact (length_denseSetRegister _ _ _).trans size
    intro j inside'
    rw [denseGetRegister_set size.ge inside small, getD_eq_getElem?_getD]
    by_cases same : j = index
    · rw [if_pos same, same, getElem?_set_self (by rw [length]; exact inside), Option.getD_some]
    · rw [if_neg same, getElem?_set_ne (fun eq => same eq.symm), seen j inside',
        getD_eq_getElem?_getD]
  · rw [if_neg larger, if_neg larger, decide_eq_false larger]
    exact ⟨_, rfl, encoding, length, size, seen⟩

theorem hllSparseToDense_spec (holds : SparseHolds o registers) :
    ∃ o', hllSparseToDense o = .ok (some o') ∧ DenseHolds o' registers := by
  obtain ⟨encoding, length, ops, body, same⟩ := holds
  have count : hllRegisters = 16384 := rfl
  have total : totalLen ops = hllRegisters := by rw [← length_values, same, length]
  obtain ⟨p, decoded, size, seen⟩ := @Writes.decode_values Bytes intOverflows setDense _ _ _
    setDense_writes intOverflows_testsSum ops 0 (replicate hllDenseBytes 0) length_replicate
    (by omega)
  have differ : ¬ o.encoding = hllDense := by
    rw [encoding]
    decide
  refine ⟨{ o with encoding := hllDense, registers := p }, ?_, rfl, length, size, ?_⟩
  · rw [hllSparseToDense, if_neg differ, body, decodeSparse_eq, opcodes_encodeAll]
    rw [total] at decoded
    rw [show (0 : Int) = (0 : Nat) from rfl, decoded, ok_bind]
    exact if_neg (not_not_intro rfl)
  · intro j inside
    rw [seen j inside, if_pos (Nat.zero_le j), denseGetRegister_zeros, same, Nat.sub_zero]
    split
    · rename_i zero
      exact zero.symm
    · rfl

theorem promote_spec (holds : SparseHolds o registers) (inside : index < hllRegisters)
    (small : count < 64) (larger : registers.getD index 0 < count) :
    ∃ o', promote o index count = .ok (1, o') ∧ DenseHolds o' (raise registers index count) := by
  obtain ⟨dense, converted, denseHolds⟩ := hllSparseToDense_spec holds
  obtain ⟨p, set, raised⟩ := hllDenseSet_spec denseHolds inside small
  refine ⟨{ dense with registers := p }, ?_, raised⟩
  rw [promote, converted, ok_bind]
  dsimp only
  rw [set, decide_eq_true larger]
  rfl

end Dense

section Update

variable {o : Hllhdr} {index count : Nat} {before after : List Opcode} {op : Opcode}

theorem finishUpdate_spec (encoding : o.encoding = hllSparse) (before tail : List Opcode)
    {registers : List Nat} (same : values (before ++ tail) = registers)
    (length : registers.length = hllRegisters) :
    SparseHolds (finishUpdate o (encodeAll (before ++ tail)) (prevOf 0 none before)) registers := by
  obtain ⟨front, back, split, start⟩ := prevOf_spec before
  obtain ⟨merged, scanned, kept⟩ := mergeVals_spec 5 (back ++ tail)
  refine ⟨encoding, length, front ++ merged, ?_, ?_⟩
  · have whole : encodeAll (before ++ tail) = encodeAll front ++ encodeAll (back ++ tail) := by
      rw [← encodeAll_append, split, append_assoc]
    change _ ++ mergeVals 5 _ = _
    rw [start, whole, take_left, drop_left, scanned, encodeAll_append]
  · rw [values_append, kept, ← values_append, ← append_assoc, ← split, same]

theorem val_encode (positive : 0 < count) (small : count ≤ 32) :
    ∃ op : Opcode, op.encode = [sparseValSet count 1] ∧ op.len = 1 ∧ op.value = count := by
  obtain ⟨less, rfl⟩ : ∃ less, count = less + 1 := ⟨count - 1, by omega⟩
  exact ⟨.val ⟨less, by omega⟩ 0, rfl, rfl, rfl⟩

theorem splitOpcode_spec (positive : 0 < count) (small : count ≤ 32)
    (total : totalLen before + op.len ≤ hllRegisters) (above : totalLen before ≤ index)
    (below : index < totalLen before + op.len) (prev : Option Nat) (p : Nat) :
    ∃ seq, splitOpcode (op.encode.headD 0) ⟨prev, p, totalLen before, op.len⟩ index count =
        encodeAll seq ∧
      values seq = replicate (index - totalLen before) op.value ++
        count :: replicate (totalLen before + op.len - 1 - index) op.value := by
  obtain ⟨val, encoded, len, value⟩ := val_encode positive small
  -- The parts on both sides of the register, where the run covers any.
  suffices sides : ∃ left right,
      splitOpcode (op.encode.headD 0) ⟨prev, p, totalLen before, op.len⟩ index count =
        encodeAll left ++ sparseValSet count 1 :: encodeAll right ∧
      values left = replicate (index - totalLen before) op.value ∧
      values right = replicate (totalLen before + op.len - 1 - index) op.value by
    obtain ⟨left, right, shape, ofLeft, ofRight⟩ := sides
    refine ⟨left ++ val :: right, ?_, ?_⟩
    · rw [shape, encodeAll_append, encodeAll_cons, encoded, singleton_append]
    · rw [values_append, values_cons, len, value, ofLeft, ofRight]
      rfl
  have zeros : sparseIsZero (op.encode.headD 0) || sparseIsXzero (op.encode.headD 0) → op.value = 0 →
      ∃ left right,
        splitOpcode (op.encode.headD 0) ⟨prev, p, totalLen before, op.len⟩ index count =
          encodeAll left ++ sparseValSet count 1 :: encodeAll right ∧
        values left = replicate (index - totalLen before) op.value ∧
        values right = replicate (totalLen before + op.len - 1 - index) op.value := by
    intro kind zero
    obtain ⟨left, ofLeft, valuesLeft⟩ :=
      @zerosSet_spec (index - totalLen before) (by omega)
    obtain ⟨right, ofRight, valuesRight⟩ :=
      @zerosSet_spec (totalLen before + op.len - 1 - index) (by omega)
    refine ⟨left, right, ?_, by rw [zero, valuesLeft], by rw [zero, valuesRight]⟩
    rw [splitOpcode, if_pos kind, ofLeft, ofRight]
  cases op with
  | zero less =>
    obtain ⟨⟨zero, _, _⟩, _, _⟩ := sparseZeroSet_reads less
    exact zeros (by rw [Opcode.encode, headD_cons, zero]; rfl) rfl
  | xzero less =>
    obtain ⟨b, next, shape, ⟨_, kind, _⟩, _, _⟩ := sparseXzeroSet_reads less
    exact zeros (by rw [Opcode.encode, shape, headD_cons, kind, Bool.or_true]) rfl
  | val current less =>
    obtain ⟨⟨notZero, notXzero, _⟩, _, reads, _⟩ := sparseValSet_reads current less
    have short : less.val + 1 ≤ sparseValMaxLen := less.isLt
    change index < totalLen before + (less.val + 1) at below
    obtain ⟨left, ofLeft, valuesLeft⟩ :=
      valsSet_spec current (by omega : index - totalLen before ≤ sparseValMaxLen)
    obtain ⟨right, ofRight, valuesRight⟩ :=
      valsSet_spec current
        (by omega : totalLen before + (less.val + 1) - 1 - index ≤ sparseValMaxLen)
    refine ⟨left, right, ?_, valuesLeft, valuesRight⟩
    rw [Opcode.encode, headD_cons, splitOpcode, notZero, notXzero, Bool.or_self, reads]
    change valsSet _ _ ++ _ :: valsSet _ (totalLen before + (less.val + 1) - 1 - index) = _
    rw [ofLeft, ofRight]

end Update

end LearningNotes.Hll
