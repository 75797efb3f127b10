import LearningNotes.Ziplist.Layout

/-! Reading the fields of a ziplist back from its bytes. -/

namespace LearningNotes.Ziplist

open Lib Util List UInt8

section Accesses

variable {before middle after data : Bytes} {p size : Nat}

theorem peek_middle {byte : UInt8} (start : p = before.length) :
    peek (before ++ byte :: after) p = .ok byte := by
  rw [peek, getElem?_middle start, inBounds]

theorem load_middle (start : p = before.length) (width : size = middle.length) :
    load (before ++ (middle ++ after)) p size = .ok middle := by
  rw [load, readAt_middle start width, inBounds]

theorem store_middle (start : p = before.length) (width : data.length = middle.length) :
    store (before ++ (middle ++ after)) p data = .ok (before ++ (data ++ after)) := by
  rw [store, writeAt_middle start width, inBounds]

theorem memmove_views {zl left right : Bytes} {target : Nat} (source : zl = before ++ (data ++ after))
    (start : p = before.length) (width : size = data.length)
    (destination : zl = left ++ (middle ++ right)) (finish : target = left.length)
    (room : data.length = middle.length) :
    memmove zl target p size = .ok (left ++ (data ++ right)) := by
  rw [memmove, moveWithin_views source start width destination finish room, inBounds]

theorem memmove_gap {gap tail : Bytes} {target room : Nat}
    (start : p = before.length + gap.length) (width : size = data.length)
    (finish : target = before.length + room) (fits : room ≤ gap.length + after.length) :
    ∃ fresh rest : Bytes, memmove (before ++ (gap ++ (data ++ (after ++ tail)))) target p size =
      .ok (before ++ (fresh ++ (data ++ (rest ++ tail)))) ∧ fresh.length = room ∧
      room + rest.length = gap.length + after.length := by
  obtain ⟨fresh, rest, moved, sizes⟩ := moveWithin_gap start width finish fits
  exact ⟨fresh, rest, by rw [memmove, moved, inBounds], sizes⟩

end Accesses

section Header

variable {bytes tail length : Nat} {rest : Bytes}

theorem ziplistBytes_header (fits : bytes < 256 ^ 4) :
    ziplistBytes (header bytes tail length ++ rest) = .ok bytes := by
  have field : load (header bytes tail length ++ rest) 0 4 = .ok (littleEndian 4 bytes) := by
    exact @load_middle [] _ _ _ _ rfl (length_littleEndian 4 bytes).symm
  rw [ziplistBytes, field, ok_bind, ofLittleEndian_of_lt fits]
  rfl

theorem ziplistTailOffset_header (fits : tail < 256 ^ 4) :
    ziplistTailOffset (header bytes tail length ++ rest) = .ok tail := by
  have field : load (header bytes tail length ++ rest) 4 4 = .ok (littleEndian 4 tail) := by
    simp only [header, append_assoc]
    exact load_middle (by simp) (by simp)
  rw [ziplistTailOffset, field, ok_bind, ofLittleEndian_of_lt fits]
  rfl

theorem ziplistLength_header (fits : length < 256 ^ 2) :
    ziplistLength (header bytes tail length ++ rest) = .ok length := by
  have field : load (header bytes tail length ++ rest) 8 2 = .ok (littleEndian 2 length) := by
    rw [header, ← append_assoc, append_assoc]
    exact load_middle (by simp) (by simp)
  rw [ziplistLength, field, ok_bind, ofLittleEndian_of_lt fits]
  rfl

theorem setZiplistBytes_header (number : Nat) :
    setZiplistBytes (header bytes tail length ++ rest) number =
      .ok (header number tail length ++ rest) := by
  exact @store_middle [] _ _ _ _ rfl rfl

theorem setZiplistTailOffset_header (number : Nat) :
    setZiplistTailOffset (header bytes tail length ++ rest) number =
      .ok (header bytes number length ++ rest) := by
  simp only [header, append_assoc]
  exact store_middle (by simp) (by simp)

/-- The count is adapted only while it is exact. -/
theorem ziplistIncrLength_header (incr : Int) (fits : length < 256 ^ 2) :
    ziplistIncrLength (header bytes tail length ++ rest) incr =
      .ok (header bytes tail (if length < uint16Max then shift length incr else length) ++ rest) := by
  rw [ziplistIncrLength, ziplistLength_header fits, ok_bind]
  split
  · simp only [header]
    rw [← append_assoc, append_assoc (_ ++ _)]
    exact store_middle (by simp) (by simp)
  · rfl

end Header

section Integers

theorem ofTwosComplement_twosComplement {width : Nat} {value : Int}
    (low : -(256 ^ width : Nat) ≤ 2 * value) (high : 2 * value < (256 ^ width : Nat)) :
    ofTwosComplement (twosComplement width value) = value := by
  have bound : (value % (256 ^ width : Nat)).toNat < 256 ^ width := by
    omega
  simp only [ofTwosComplement, twosComplement, ofLittleEndian_of_lt bound, length_littleEndian]
  -- The remainder is the value itself, or the value and one full period.
  by_cases sign : 0 ≤ value
  · rw [Int.emod_eq_of_lt sign (by omega)]
    split <;> omega
  · have wrapped : value % (256 ^ width : Nat) = value + (256 ^ width : Nat) := by
      rw [← Int.add_emod_right, Int.emod_eq_of_lt (by omega) (by omega)]
    split <;> omega

theorem twosComplement_shifted (value : Int) :
    twosComplement 4 (value * 256) = 0 :: twosComplement 3 value := by
  have scaled : (value * 256 % (256 ^ 4 : Nat)).toNat = (value % (256 ^ 3 : Nat)).toNat * 256 := by
    omega
  rw [twosComplement, scaled, littleEndian, Nat.mul_div_cancel _ (by decide), twosComplement]
  simp

theorem zipIntEncoding_cases (value : Int) :
    (∃ n : Fin 13, value = n.val ∧ zipIntEncoding value = zipIntImmMin + ofNat n.val) ∨
      (zipIntEncoding value = zipInt8b ∧ -2 ^ 7 ≤ value ∧ value < 2 ^ 7) ∨
      (zipIntEncoding value = zipInt16b ∧ -2 ^ 15 ≤ value ∧ value < 2 ^ 15) ∨
      (zipIntEncoding value = zipInt24b ∧ -2 ^ 23 ≤ value ∧ value < 2 ^ 23) ∨
      (zipIntEncoding value = zipInt32b ∧ -2 ^ 31 ≤ value ∧ value < 2 ^ 31) ∨
      zipIntEncoding value = zipInt64b := by
  unfold zipIntEncoding
  split
  · next small =>
    exact .inl ⟨⟨value.toNat, by omega⟩, by simp; omega, rfl⟩
  · repeat' split
    all_goals simp_all

theorem immediate_encoding (n : Fin 13) :
    let encoding := zipIntImmMin + ofNat n.val
    (encoding ≠ zipInt8b ∧ encoding ≠ zipInt16b ∧ encoding ≠ zipInt24b ∧ encoding ≠ zipInt32b ∧
      encoding ≠ zipInt64b) ∧ zipIsImm encoding = true ∧ encoding.toNat % 16 = n.val + 1 ∧
      ¬ encoding < zipStrMask ∧ zipIsStr encoding = false := by
  revert n
  decide

theorem intEncodingSize_immediate (n : Fin 13) :
    intEncodingSize (zipIntImmMin + ofNat n.val) = some 0 := by
  obtain ⟨⟨not8, not16, not24, not32, not64⟩, immediate, -⟩ := immediate_encoding n
  simp only [intEncodingSize, not8, not16, not24, not32, not64, immediate, if_true, if_false]

theorem zipIntEncoding_valid (value : Int) :
    ¬ zipIntEncoding value < zipStrMask ∧ zipIsStr (zipIntEncoding value) = false ∧
      ∃ size, intEncodingSize (zipIntEncoding value) = some size := by
  rcases zipIntEncoding_cases value with ⟨n, -, shape⟩ | ⟨shape, -⟩ | ⟨shape, -⟩ | ⟨shape, -⟩ |
    ⟨shape, -⟩ | shape
  · obtain ⟨-, -, -, large, integer⟩ := immediate_encoding n
    rw [shape]
    exact ⟨large, integer, 0, intEncodingSize_immediate n⟩
  all_goals
    rw [shape]
    exact ⟨by decide, by decide, _, rfl⟩

/-- An integer is written in the width that is chosen for it. -/
theorem zipSaveInteger_eq (value : Int) :
    zipSaveInteger value (zipIntEncoding value) = .ok (Value.int value).content := by
  rcases zipIntEncoding_cases value with ⟨n, -, shape⟩ | ⟨shape, -⟩ | ⟨shape, -⟩ | ⟨shape, -⟩ |
    ⟨shape, -⟩ | shape
  · obtain ⟨⟨not8, not16, not24, not32, not64⟩, immediate, -⟩ := immediate_encoding n
    simp only [Value.content, shape, intEncodingSize_immediate, zipSaveInteger, not8, not16, not24,
      not32, not64, immediate, if_true, if_false]
    rfl
  · simp only [Value.content, shape]
    rfl
  · simp only [Value.content, shape]
    rfl
  · -- The lowest of the four bytes is the room that the shift made.
    simp only [Value.content, shape]
    show Except.ok ((twosComplement 4 (value * 256)).drop 1) = _
    rw [twosComplement_shifted]
    rfl
  · simp only [Value.content, shape]
    rfl
  · simp only [Value.content, shape]
    rfl

/-- An integer reads back from every width. -/
theorem zipLoadInteger_eq {value : Int} (fits : InLong value) {before after : Bytes} {p : Nat}
    (start : p = before.length) :
    zipLoadInteger (before ++ ((Value.int value).content ++ after)) p (zipIntEncoding value) =
      .ok value := by
  -- Every width but the small one loads its bytes and extends the sign.
  have loaded : ∀ size, intEncodingSize (zipIntEncoding value) = some size →
      load (before ++ ((Value.int value).content ++ after)) p size =
        .ok (twosComplement size value) := by
    intro size width
    have content : (Value.int value).content = twosComplement size value := by
      simp only [Value.content, width, Option.getD_some]
    rw [content]
    exact load_middle start (by simp [twosComplement])
  obtain ⟨low, high⟩ := fits
  rcases zipIntEncoding_cases value with ⟨n, equal, shape⟩ | ⟨shape, bounds⟩ | ⟨shape, bounds⟩ |
    ⟨shape, bounds⟩ | ⟨shape, bounds⟩ | shape
  · obtain ⟨⟨not8, not16, not24, not32, not64⟩, immediate, low4, -⟩ := immediate_encoding n
    simp only [shape, zipLoadInteger, not8, not16, not24, not32, not64, immediate, if_true,
      if_false]
    congr 1
    omega
  all_goals rw [shape] at loaded ⊢
  · show (load _ p 1 >>= _) = _
    rw [loaded 1 rfl, ok_bind, ofTwosComplement_twosComplement (by omega) (by omega)]
    rfl
  · show (load _ p 2 >>= _) = _
    rw [loaded 2 rfl, ok_bind, ofTwosComplement_twosComplement (by omega) (by omega)]
    rfl
  · show (load _ p 3 >>= _) = _
    rw [loaded 3 rfl, ok_bind, ← twosComplement_shifted,
      ofTwosComplement_twosComplement (by omega) (by omega), Int.mul_ediv_cancel _ (by decide)]
    rfl
  · show (load _ p 4 >>= _) = _
    rw [loaded 4 rfl, ok_bind, ofTwosComplement_twosComplement (by omega) (by omega)]
    rfl
  · show (load _ p 8 >>= _) = _
    rw [loaded 8 rfl, ok_bind, ofTwosComplement_twosComplement (by omega) (by omega)]
    rfl

end Integers

section Values

variable {value : Value} {before after : Bytes} {p : Nat}

theorem string_encoding (n : Fin 64) :
    let short := zipStr06b ||| ofNat n.val
    let middle := zipStr14b ||| ofNat n.val
    (short < zipStrMask ∧ short &&& zipStrMask = zipStr06b ∧ short.toNat % 64 = n.val) ∧
      middle < zipStrMask ∧ middle &&& zipStrMask = zipStr14b ∧ middle.toNat % 64 = n.val := by
  revert n
  decide

theorem zipIsStr_encoding_str (s : Bytes) : zipIsStr (Value.str s).encoding = true := by
  simp only [Value.encoding]
  repeat' split
  all_goals decide

theorem entryEncoding_eq (start : p = before.length) :
    entryEncoding (before ++ (value.header ++ after)) p = .ok value.encoding := by
  cases value with
  | int number =>
    rw [entryEncoding, Value.header, singleton_append, peek_middle start, ok_bind,
      if_neg (zipIntEncoding_valid number).1]
    rfl
  | str s =>
    rw [entryEncoding]
    simp only [Value.header, Value.encoding, zipStoreEntryEncoding,
      show zipIsStr zipStr06b = true from by decide, if_true]
    -- The length bits are masked out, whichever of the three forms is used.
    split
    · next short =>
      obtain ⟨⟨small, masked, -⟩, -⟩ := string_encoding ⟨s.length, by omega⟩
      rw [singleton_append, peek_middle start, ok_bind, if_pos small, masked]
      rfl
    · split
      · next middle =>
        obtain ⟨-, small, masked, -⟩ := string_encoding ⟨s.length / 256 % 64, by omega⟩
        rw [cons_append, peek_middle start, ok_bind, if_pos small, masked]
        rfl
      · rw [cons_append, peek_middle start, ok_bind]
        rfl

/-- The header of a value reads back. -/
theorem decodeLength_eq (start : p = before.length) (fits : value.Fits) :
    decodeLength (before ++ (value.header ++ after)) p value.encoding =
      .ok (value.header.length, value.content.length) := by
  cases value with
  | int number =>
    obtain ⟨large, -, size, known⟩ := zipIntEncoding_valid number
    simp only [decodeLength, Value.encoding, large, if_false, known, Value.header, Value.content,
      Option.getD_some, twosComplement, length_littleEndian]
    rfl
  | str s =>
    simp only [Value.header, Value.encoding, zipStoreEntryEncoding,
      show zipIsStr zipStr06b = true from by decide, if_true]
    split
    · next short =>
      obtain ⟨⟨-, -, low⟩, -⟩ := string_encoding ⟨s.length, by omega⟩
      show (peek _ p >>= _) = _
      rw [singleton_append, peek_middle start, ok_bind, low]
      rfl
    split
    · next middle =>
      obtain ⟨-, -, -, low⟩ := string_encoding ⟨s.length / 256 % 64, by omega⟩
      have second : (ofNat (s.length % 256)).toNat = s.length % 256 := by simp
      show (peek _ p >>= fun high => peek _ (p + 1) >>= _) = _
      rw [cons_append, peek_middle start, ok_bind, ← singleton_append,
        ← append_assoc, singleton_append, peek_middle (by simp [start]), ok_bind, low,
        second]
      congr 2
      show s.length / 256 % 64 * 256 + s.length % 256 = s.length
      omega
    · -- The four length bytes stand highest first.
      show (load _ (p + 1) 4 >>= _) = _
      rw [cons_append, ← singleton_append, ← append_assoc,
        load_middle (by simp [start]) (by simp), ok_bind, reverse_reverse,
        ofLittleEndian_of_lt fits]
      rfl

theorem zipEncodingLenSize_encoding : zipEncodingLenSize value.encoding = some value.header.length := by
  cases value with
  | int number =>
    obtain ⟨-, -, size, known⟩ := zipIntEncoding_valid number
    simp only [zipEncodingLenSize, Value.encoding, known, Option.isSome_some, if_true]
    rfl
  | str s =>
    simp only [Value.header, Value.encoding, zipStoreEntryEncoding,
      show zipIsStr zipStr06b = true from by decide]
    split
    · rfl
    · split
      · rfl
      · simp
        rfl

end Values

section Entries

variable {entry : Entry} {prev : Nat} {before after : Bytes} {p : Nat}

def Entry.decoded (entry : Entry) (prev p : Nat) : Zlentry where
  prevrawlensize := entry.prevWidth
  prevrawlen := prev
  lensize := entry.value.header.length
  len := entry.value.content.length
  headersize := entry.prevWidth + entry.value.header.length
  encoding := entry.value.encoding
  p := p

theorem Entry.decoded_size (entry : Entry) (prev p : Nat) :
    (entry.decoded prev p).headersize + (entry.decoded prev p).len = entry.size := by
  simp only [decoded, size, Value.body, length_append]
  omega

theorem Entry.Fits.first_byte (fits : entry.Fits prev) :
    ∃ rest, entry.prevField prev = ofNat (if entry.wide then 254 else prev) :: rest ∧
      (if entry.wide then 254 else prev) < 255 := by
  unfold Entry.prevField
  split
  · exact ⟨littleEndian 4 prev, rfl, by decide⟩
  · next narrow =>
    have small := fits.narrow (by simpa using narrow)
    exact ⟨[], rfl, Nat.lt_trans small (by decide)⟩

section

variable (start : p = before.length)
include start

section

variable (fits : entry.Fits prev)
include fits

/-- No entry starts with the byte of the end mark. -/
theorem peek_entry :
    ∃ byte, peek (before ++ (entry.bytes prev ++ after)) p = .ok byte ∧ byte ≠ zipEnd := by
  obtain ⟨rest, shape, small⟩ := fits.first_byte
  refine ⟨ofNat (if entry.wide then 254 else prev), ?_, ?_⟩
  · rw [Entry.bytes, shape, cons_append]
    exact peek_middle start
  · intro equal
    have value := congrArg toNat equal
    rw [toNat_ofNat_of_lt' (Nat.lt_trans small (by decide))] at value
    have last : zipEnd.toNat = 255 := rfl
    omega

omit fits in
theorem peek_layout {entries : List Entry} (chain : Chain prev entries) (bounded : prev < 256 ^ 4) :
    ∃ byte, peek (before ++ (layout prev entries ++ [zipEnd])) p = .ok byte ∧
      (byte = zipEnd ↔ entries = []) := by
  cases entries with
  | nil => exact ⟨zipEnd, peek_middle start, by simp⟩
  | cons entry rest =>
    obtain ⟨byte, peeked, more⟩ := @peek_entry entry prev before (layout entry.size rest ++ [zipEnd])
      p start ⟨chain.1.1, bounded, chain.1.2⟩
    rw [layout, append_assoc]
    exact ⟨byte, peeked, by simp [more]⟩

theorem decodePrevlensize_eq :
    decodePrevlensize (before ++ (entry.bytes prev ++ after)) p = .ok entry.prevWidth := by
  obtain ⟨rest, shape, small⟩ := fits.first_byte
  rw [decodePrevlensize, Entry.bytes, shape, cons_append, cons_append,
    peek_middle start, ok_bind, toNat_ofNat_of_lt' (Nat.lt_trans small (by decide))]
  unfold Entry.prevWidth
  cases kind : entry.wide with
  | true => rfl
  | false =>
    simp only [Bool.false_eq_true, if_false, if_pos (fits.narrow kind)]
    rfl

theorem decodePrevlen_eq :
    decodePrevlen (before ++ (entry.bytes prev ++ after)) p = .ok (entry.prevWidth, prev) := by
  rw [decodePrevlen, decodePrevlensize_eq start fits, ok_bind]
  cases kind : entry.wide with
  | true =>
    simp only [Entry.prevWidth, Entry.bytes, Entry.prevField, prevlenLarge, kind, if_true]
    rw [append_assoc, cons_append, ← singleton_append, ← append_assoc,
      load_middle (by simp [start]) (by simp), ok_bind, ofLittleEndian_of_lt fits.bounded]
    rfl
  | false =>
    have small := Nat.lt_trans (fits.narrow kind) (by decide : zipBigPrevlen < 256)
    simp only [Entry.prevWidth, Entry.bytes, Entry.prevField, kind, Bool.false_eq_true, if_false]
    rw [append_assoc, singleton_append, peek_middle start, ok_bind, toNat_ofNat_of_lt' small]
    rfl

theorem decode_value :
    entryEncoding (before ++ (entry.bytes prev ++ after)) (p + entry.prevWidth) =
        .ok entry.value.encoding ∧
      decodeLength (before ++ (entry.bytes prev ++ after)) (p + entry.prevWidth)
          entry.value.encoding =
        .ok (entry.value.header.length, entry.value.content.length) := by
  have split : before ++ (entry.bytes prev ++ after) =
      (before ++ entry.prevField prev) ++ (entry.value.header ++ (entry.value.content ++ after)) := by
    simp only [Entry.bytes, Value.body, append_assoc]
  have place : p + entry.prevWidth = (before ++ entry.prevField prev).length := by
    simp [start]
  rw [split]
  exact ⟨entryEncoding_eq place, decodeLength_eq place fits.value⟩

/-- An entry reads back with all its fields. -/
theorem zipEntry_eq :
    zipEntry (before ++ (entry.bytes prev ++ after)) p = .ok (entry.decoded prev p) := by
  obtain ⟨encoding, length⟩ := @decode_value entry prev before after p start fits
  have valid : decide (entry.value.header.length ≠ 0) = true := by
    simpa using Nat.ne_of_gt entry.value.header_pos
  rw [zipEntry, decodePrevlen_eq start fits, ok_bind]
  simp only [encoding, length, ok_bind, valid, assert, if_true]
  rfl

/-- The checks of a decoded entry pass inside a ziplist. -/
theorem assertEntry_eq {zlbytes : Nat} {validate : Bool} (first : headerSize ≤ p)
    (last : p + entry.size + endSize ≤ zlbytes) (back : validate = true → headerSize + prev ≤ p) :
    assertEntry (before ++ (entry.bytes prev ++ after)) zlbytes p validate =
      .ok (entry.decoded prev p) := by
  obtain ⟨encoding, length⟩ := @decode_value entry prev before after p start fits
  have valid := Nat.ne_of_gt entry.value.header_pos
  have size := entry.decoded_size prev p
  simp only [Entry.decoded] at size
  -- No check of the source finds a pointer that lies before the first or behind the last entry.
  have inside : ∀ q, p ≤ q → q ≤ p + entry.size → outOfRange zlbytes q 0 = false := by
    simp only [outOfRange, Bool.or_eq_false_iff, decide_eq_false_iff_not]
    omega
  have behind : (validate && outOfRange zlbytes p prev) = false := by
    cases validate with
    | false => rfl
    | true =>
      have enough := back rfl
      simp only [Bool.true_and, outOfRange, Bool.or_eq_false_iff, decide_eq_false_iff_not]
      omega
  have whole := inside (p + (entry.prevWidth + entry.value.header.length) +
    entry.value.content.length) (by omega) (by omega)
  unfold assertEntry zipEntrySafe
  by_cases fast : headerSize ≤ p ∧ p + 10 < zlbytes - endSize
  · rw [if_pos fast, decodePrevlen_eq start fits, ok_bind]
    simp only [encoding, length, ok_bind, valid, if_false, whole, behind, Bool.false_eq_true]
    rfl
  -- The slow path checks every field before it reads the next one.
  rw [if_neg fast, slowEntry, inside p (by omega) (by omega), decodePrevlensize_eq start fits,
    ok_bind]
  simp only [inside (p + entry.prevWidth) (by omega) (by omega),
    inside (p + entry.prevWidth + entry.value.header.length) (by omega) (by omega), encoding,
    length, ok_bind, decodePrevlen_eq start fits, zipEncodingLenSize_encoding, whole, behind,
    Bool.false_eq_true, if_false]
  rfl

end

end

end Entries

end LearningNotes.Ziplist
