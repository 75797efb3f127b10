import LearningNotes.Ziplist.Basic

/-! The two paths of `zipEntrySafe`, which decode an entry alike. -/

namespace LearningNotes.Ziplist

open Lib List

theorem intEncodingSize_string {encoding : UInt8} (string : encoding < zipStrMask) :
    intEncodingSize encoding = none := by
  have other : ∀ int : UInt8, zipStrMask ≤ int → encoding ≠ int := by
    rintro int large rfl
    exact absurd string (UInt8.not_lt.mpr large)
  have small : zipIsImm encoding = false := by
    have above : ¬ zipIntImmMin ≤ encoding := fun above =>
      absurd (UInt8.lt_of_le_of_lt above string) (by decide)
    simp [zipIsImm, above]
  rw [intEncodingSize, if_neg (other _ (by decide)), if_neg (other _ (by decide)),
    if_neg (other _ (by decide)), if_neg (other _ (by decide)), if_neg (other _ (by decide)), small]
  rfl

theorem zipEncodingLenSize_le {encoding : UInt8} {lensize : Nat}
    (valid : zipEncodingLenSize encoding = some lensize) : 0 < lensize ∧ lensize ≤ 5 := by
  unfold zipEncodingLenSize at valid
  split_ifs at valid <;> cases valid <;> decide

/-- Both decoders of an encoding find a length field of the same size, or find it invalid. -/
theorem decodeLength_size {zl : Bytes} {p : Nat} {encoding : UInt8} {sizes : Nat × Nat}
    (read : decodeLength zl p encoding = .ok sizes) :
    sizes.1 = (zipEncodingLenSize encoding).getD 0 := by
  by_cases string : encoding < zipStrMask
  · have noInt := intEncodingSize_string string
    rw [decodeLength, if_pos string] at read
    split_ifs at read with six fourteen thirtyTwo
    · obtain ⟨byte, -, result⟩ := bind_eq_ok.mp read
      cases result
      rw [six]
      rfl
    · obtain ⟨high, -, read⟩ := bind_eq_ok.mp read
      obtain ⟨low, -, result⟩ := bind_eq_ok.mp read
      cases result
      rw [fourteen]
      rfl
    · obtain ⟨bytes, -, result⟩ := bind_eq_ok.mp read
      cases result
      rw [thirtyTwo]
      rfl
    · cases read
      simp [zipEncodingLenSize, noInt, six, fourteen, thirtyTwo]
  · have noString : ∀ string : UInt8, string < zipStrMask → encoding ≠ string := by
      rintro _ small rfl
      exact string small
    rw [decodeLength, if_neg string] at read
    rw [zipEncodingLenSize, if_neg (noString _ (by decide)), if_neg (noString _ (by decide)),
      if_neg (noString _ (by decide))]
    split at read <;> cases read <;> simp_all

theorem decodeLength_invalid {zl : Bytes} {p : Nat} {encoding : UInt8}
    (invalid : zipEncodingLenSize encoding = none) : decodeLength zl p encoding = .ok (0, 0) := by
  unfold zipEncodingLenSize at invalid
  split_ifs at invalid with int six fourteen thirtyTwo
  rw [decodeLength, if_neg six, if_neg fourteen, if_neg thirtyTwo,
    Option.not_isSome_iff_eq_none.mp int]
  split <;> rfl

theorem decodePrevlen_cases {zl : Bytes} {p size : Nat}
    (sized : decodePrevlensize zl p = .ok size) :
    (size = 1 ∨ size = 5) ∧ ((∃ prevlen, decodePrevlen zl p = .ok (size, prevlen)) ∨
      decodePrevlen zl p = .error .outOfBounds ∧
        entryEncoding zl (p + size) = .error .outOfBounds) := by
  rw [decodePrevlen, sized, ok_bind]
  obtain ⟨byte, peeked, size_eq⟩ := bind_eq_ok.mp sized
  by_cases short : byte.toNat < zipBigPrevlen
  · rw [if_pos short] at size_eq
    obtain rfl := Except.ok.inj size_eq
    rw [if_pos rfl, peeked]
    exact ⟨.inl rfl, .inl ⟨_, rfl⟩⟩
  · rw [if_neg short] at size_eq
    obtain rfl := Except.ok.inj size_eq
    refine ⟨.inr rfl, ?_⟩
    rw [if_neg (by decide), load, entryEncoding, peek]
    cases read : readAt zl (p + 1) 4 with
    | some bytes => exact .inl ⟨_, rfl⟩
    | none =>
      -- The byte behind the field is missing as well.
      have none : zl[p + 5]? = none := by
        rw [readAt] at read
        split at read
        · cases read
        · exact List.getElem?_eq_none (by omega)
      rw [none]
      exact .inr ⟨rfl, rfl⟩

variable {zl : Bytes} {zlbytes p : Nat} {validatePrevlen : Bool} {entry : Zlentry}

theorem zipEntrySafe_eq_slow :
    zipEntrySafe zl zlbytes p validatePrevlen = slowEntry zl zlbytes p validatePrevlen := by
  rw [zipEntrySafe]
  split
  case isFalse => rfl
  rename_i fast
  -- No header is long enough for a check of the slow path to fail.
  have inside : ∀ size ≤ 10, outOfRange zlbytes (p + size) 0 = false := by
    intro size small
    simp only [outOfRange, Bool.or_eq_false_iff, decide_eq_false_iff_not]
    omega
  have start := inside 0 (by omega)
  rw [Nat.add_zero] at start
  rw [slowEntry, start]
  cases sized : decodePrevlensize zl p with
  | error fault =>
    rw [decodePrevlen, sized]
    rfl
  | ok size =>
    obtain ⟨width, ⟨prevlen, prev⟩ | ⟨prev, missing⟩⟩ := decodePrevlen_cases sized
    · have read : outOfRange zlbytes (p + size) 0 = false := inside size (by omega)
      simp only [prev, ok_bind, read, Bool.false_eq_true, if_false]
      cases entryEncoding zl (p + size) with
      | error fault => rfl
      | ok encoding =>
        simp only [ok_bind]
        cases valid : zipEncodingLenSize encoding with
        | none =>
          rw [decodeLength_invalid valid]
          rfl
        | some lensize =>
          obtain ⟨positive, small⟩ := zipEncodingLenSize_le valid
          have whole := inside (size + lensize) (by omega)
          rw [← Nat.add_assoc] at whole
          simp only [whole, Bool.false_eq_true, if_false]
          cases found : decodeLength zl (p + size) encoding with
          | error fault => rfl
          | ok sizes =>
            have same := decodeLength_size found
            rw [valid, Option.getD_some] at same
            simp only [ok_bind]
            rw [if_neg (by omega)]
    · have read : outOfRange zlbytes (p + size) 0 = false := inside size (by omega)
      simp only [prev, missing, ok_bind, read, Bool.false_eq_true, if_false]
      rfl

theorem slowEntry_inside (given : slowEntry zl zlbytes p validatePrevlen = .ok (some entry)) :
    headerSize ≤ p ∧ p + entry.headersize + entry.len ≤ zlbytes - endSize := by
  rw [slowEntry] at given
  split at given
  · cases given
  rename_i start
  obtain ⟨size, -, given⟩ := bind_eq_ok.mp given
  split at given
  · cases given
  obtain ⟨encoding, -, given⟩ := bind_eq_ok.mp given
  split at given
  · cases given
  split at given
  · cases given
  obtain ⟨⟨prevsize, prevlen⟩, -, given⟩ := bind_eq_ok.mp given
  obtain ⟨⟨lensize, len⟩, -, given⟩ := bind_eq_ok.mp given
  dsimp only at given
  split at given
  · cases given
  rename_i whole
  split at given
  · cases given
  cases given
  simp only [outOfRange, Bool.or_eq_true, decide_eq_true_eq] at start whole
  dsimp only
  omega

theorem zipEntrySafe_of_zipEntry (found : zipEntry zl p = .ok entry) (low : headerSize ≤ p)
    (high : p + entry.headersize + entry.len ≤ zlbytes - endSize) :
    zipEntrySafe zl zlbytes p false = .ok (some entry) := by
  obtain ⟨⟨prevrawlensize, prevrawlen⟩, prev, found⟩ := bind_eq_ok.mp found
  obtain ⟨encoding, read, found⟩ := bind_eq_ok.mp found
  obtain ⟨⟨lensize, len⟩, sizes, found⟩ := bind_eq_ok.mp found
  obtain ⟨_, checked, result⟩ := bind_eq_ok.mp found
  cases result
  dsimp only at high sizes read checked
  have valid : zipEncodingLenSize encoding = some lensize := by
    have same : lensize = (zipEncodingLenSize encoding).getD 0 := decodeLength_size sizes
    cases known : zipEncodingLenSize encoding with
    | some size => rw [same, known, Option.getD_some]
    | none =>
      rw [known] at same
      subst same
      cases checked
  have sized : decodePrevlensize zl p = .ok prevrawlensize := by
    obtain ⟨size, sized, taken⟩ := bind_eq_ok.mp prev
    split at taken
    · obtain ⟨byte, -, taken⟩ := bind_eq_ok.mp taken
      cases taken
      exact sized
    · obtain ⟨bytes, -, taken⟩ := bind_eq_ok.mp taken
      cases taken
      exact sized
  have inside : ∀ q, p ≤ q → q ≤ p + (prevrawlensize + lensize) + len →
      outOfRange zlbytes q 0 = false := by
    intro q after before
    simp only [outOfRange, Bool.or_eq_false_iff, decide_eq_false_iff_not]
    omega
  rw [zipEntrySafe_eq_slow, slowEntry, inside p (by omega) (by omega)]
  simp only [sized, ok_bind, Bool.false_eq_true, if_false, read, valid, prev, sizes,
    inside (p + prevrawlensize) (by omega) (by omega),
    inside (p + prevrawlensize + lensize) (by omega) (by omega),
    inside (p + (prevrawlensize + lensize) + len) (by omega) (by omega), Bool.false_and]
  rfl

/-- Where the fast path of `zipEntrySafe` is taken, the slow one gives the same entry; and an entry
that either of them gives ends in front of the last byte. -/
theorem zipEntrySafe_paths_agree (zl : Bytes) (zlbytes p : Nat) (validatePrevlen : Bool) :
    (headerSize ≤ p → p + 10 < zlbytes - endSize →
      zipEntrySafe zl zlbytes p validatePrevlen = slowEntry zl zlbytes p validatePrevlen) ∧
    (∀ entry, zipEntrySafe zl zlbytes p validatePrevlen = .ok (some entry) ∨
        slowEntry zl zlbytes p validatePrevlen = .ok (some entry) →
      headerSize ≤ p ∧ p + entry.headersize + entry.len ≤ zlbytes - endSize) := by
  refine ⟨fun _ _ => zipEntrySafe_eq_slow, fun entry given => ?_⟩
  rw [zipEntrySafe_eq_slow, or_self] at given
  exact slowEntry_inside given

end LearningNotes.Ziplist
