import LearningNotes.Listpack.Layout
import Mathlib.Data.List.Induction

/-! Reading the elements of a listpack back from its bytes, forward and backward. -/

namespace LearningNotes.Listpack

open Lib Lib.Memory Util List UInt8

section Header

variable {bytes numele : Nat} {rest : Bytes}

theorem lpGetTotalBytes_header (fits : bytes < 256 ^ 4) :
    lpGetTotalBytes (header bytes numele ++ rest) = .ok bytes := by
  have field : load (header bytes numele ++ rest) 0 4 = .ok (littleEndian 4 bytes) := by
    exact @load_middle [] _ _ _ _ rfl (length_littleEndian 4 bytes).symm
  rw [lpGetTotalBytes, field, ok_bind, ofLittleEndian_of_lt fits]
  rfl

theorem lpGetNumElements_header (fits : numele < 256 ^ 2) :
    lpGetNumElements (header bytes numele ++ rest) = .ok numele := by
  have field : load (header bytes numele ++ rest) 4 2 = .ok (littleEndian 2 numele) := by
    rw [header, append_assoc]
    exact load_middle (by simp) (by simp)
  rw [lpGetNumElements, field, ok_bind, ofLittleEndian_of_lt fits]
  rfl

theorem lpSetTotalBytes_header (v : Nat) :
    lpSetTotalBytes (header bytes numele ++ rest) v = .ok (header v numele ++ rest) := by
  exact @store_middle [] _ _ _ _ rfl rfl

theorem lpSetNumElements_header (v : Nat) :
    lpSetNumElements (header bytes numele ++ rest) v = .ok (header bytes v ++ rest) := by
  rw [header, append_assoc]
  exact store_middle (by simp) (by simp)

end Header

section FirstBytes

theorem encodingOf_uint7 : ∀ n < 128, encodingOf (ofNat n) = some .uint7 ∧
    (ofNat n).toNat % 128 = n ∧ ofNat n ≠ lpEof := by
  decide

theorem encodingOf_str6 : ∀ n < 64, encodingOf (ofNat n ||| 0x80) = some .str6 ∧
    (ofNat n ||| 0x80).toNat % 64 = n ∧ ofNat n ||| 0x80 ≠ lpEof := by
  decide

theorem encodingOf_int13 : ∀ n < 32, encodingOf (ofNat n ||| 0xC0) = some .int13 ∧
    (ofNat n ||| 0xC0).toNat % 32 = n ∧ ofNat n ||| 0xC0 ≠ lpEof := by
  decide

theorem encodingOf_str12 : ∀ n < 16, encodingOf (ofNat n ||| 0xE0) = some .str12 ∧
    (ofNat n ||| 0xE0).toNat % 16 = n ∧ ofNat n ||| 0xE0 ≠ lpEof := by
  decide

/-- Two's complement of any width reads back. -/
theorem signed_unsigned {width half : Nat} {v : Int} (whole : 2 ^ width = 2 * half)
    (low : -(half : Int) ≤ v) (high : v < half) :
    unsigned width v < 2 ^ width ∧ signed (unsigned width v) half (2 ^ width - 1) = v := by
  have power : (2 : Int) ^ width = 2 * half := by exact_mod_cast whole
  rw [unsigned, signed, whole]
  split
  · omega
  · omega

end FirstBytes

/-- What the functions find that look at an encoding. -/
structure Decodes (block : Bytes) (p : Nat) (element : Element) : Prop where
  more : ∃ byte, peek block p = .ok byte ∧ byte ≠ lpEof
  lenbytes : ∃ lenbytes, lpCurrentEncodedSizeBytes block p = .ok lenbytes ∧ 0 < lenbytes ∧
    lenbytes ≤ element.encoded.length
  size : element.encoded.length < 2 ^ 32 →
    lpCurrentEncodedSizeUnsafe block p = .ok element.encoded.length
  get : getElement block p = .ok element

theorem view_behind (front : Bytes) {bytes rest before after : Bytes}
    (shape : bytes = front ++ rest) :
    before ++ (bytes ++ after) = (before ++ front) ++ (rest ++ after) := by
  simp [shape]

theorem peek_first {bytes rest before : Bytes} (after : Bytes) {byte : UInt8} {p : Nat}
    (start : p = before.length) (shape : bytes = byte :: rest) :
    peek (before ++ (bytes ++ after)) p = .ok byte := by
  rw [shape]
  exact peek_middle start

section Integers

variable {before after : Bytes} {p : Nat} {v : Int}

theorem intenc_cases (v : Int) :
    (0 ≤ v ∧ v ≤ 127 ∧ intenc v = [ofNat v.toNat]) ∨
    (-4096 ≤ v ∧ v ≤ 4095 ∧ intenc v =
      [ofNat (unsigned 13 v / 256) ||| 0xC0, ofNat (unsigned 13 v)]) ∨
    (-32768 ≤ v ∧ v ≤ 32767 ∧ intenc v = 0xF1 :: littleEndian 2 (unsigned 16 v)) ∨
    (-8388608 ≤ v ∧ v ≤ 8388607 ∧ intenc v = 0xF2 :: littleEndian 3 (unsigned 24 v)) ∨
    (-2147483648 ≤ v ∧ v ≤ 2147483647 ∧ intenc v = 0xF3 :: littleEndian 4 (unsigned 32 v)) ∨
    intenc v = 0xF4 :: littleEndian 8 (unsigned 64 v) := by
  unfold intenc
  repeat' split
  all_goals simp_all

/-- The bytes of wide integers, with the width and half the range. -/
def wideIntegers : List (UInt8 × Nat × Nat) :=
  [(0xF1, 2, 2 ^ 15), (0xF2, 3, 2 ^ 23), (0xF3, 4, 2 ^ 31), (0xF4, 8, 2 ^ 63)]

theorem wideIntegers_read {byte : UInt8} {width half : Nat}
    (listed : (byte, width, half) ∈ wideIntegers) :
    byte ≠ lpEof ∧ 2 ^ (8 * width) = 2 * half ∧ ∀ {block p}, peek block p = .ok byte →
      lpCurrentEncodedSizeBytes block p = .ok 1 ∧
      lpCurrentEncodedSizeUnsafe block p = .ok (width + 1) ∧
      getElement block p = do
        let data ← load block (p + 1) width
        return .int (signed (ofLittleEndian data) half (2 ^ (8 * width) - 1)) := by
  simp only [wideIntegers, mem_cons, not_mem_nil, or_false] at listed
  rcases listed with ⟨rfl, rfl, rfl⟩ | ⟨rfl, rfl, rfl⟩ | ⟨rfl, rfl, rfl⟩ | ⟨rfl, rfl, rfl⟩
  all_goals
    refine ⟨by decide, by decide, fun peeked => ⟨?_, ?_, ?_⟩⟩
    · rw [lpCurrentEncodedSizeBytes, peeked]
      rfl
    · rw [lpCurrentEncodedSizeUnsafe, peeked]
      rfl
    · rw [getElement, peeked]
      rfl

theorem decodes_wide {width half : Nat} {byte : UInt8}
    (listed : (byte, width, half) ∈ wideIntegers) (start : p = before.length)
    (shape : intenc v = byte :: littleEndian width (unsigned (8 * width) v))
    (low : -(half : Int) ≤ v) (high : v < half) :
    Decodes (before ++ (intenc v ++ after)) p (.int v) := by
  obtain ⟨other, whole, reads⟩ := wideIntegers_read listed
  obtain ⟨fits, back⟩ := signed_unsigned whole low high
  have peeked := peek_first after start shape
  have loaded : load (before ++ (intenc v ++ after)) (p + 1) width =
      .ok (littleEndian width (unsigned (8 * width) v)) := by
    rw [view_behind [byte] shape]
    exact load_middle (by simp [start]) (by simp)
  have spelled : ofLittleEndian (littleEndian width (unsigned (8 * width) v)) =
      unsigned (8 * width) v := by
    apply ofLittleEndian_of_lt
    rwa [show (256 : Nat) = 2 ^ 8 from rfl, ← Nat.pow_mul]
  have length : (Element.int v).encoded.length = width + 1 := by
    rw [Element.encoded, shape]
    simp
  obtain ⟨lenbytes, size, get⟩ := reads peeked
  refine ⟨⟨byte, peeked, other⟩, ⟨1, lenbytes, Nat.one_pos, by omega⟩, fun _ => ?_, ?_⟩
  · rw [size, length]
  · rw [get, loaded, ok_bind, spelled, back]
    rfl

theorem decodes_uint7 (start : p = before.length) (low : 0 ≤ v) (high : v ≤ 127)
    (shape : intenc v = [ofNat v.toNat]) :
    Decodes (before ++ (intenc v ++ after)) p (.int v) := by
  obtain ⟨encoding, value, other⟩ := encodingOf_uint7 v.toNat (by omega)
  have peeked := peek_first after start shape
  have length : (Element.int v).encoded.length = 1 := by
    rw [Element.encoded, shape]
    rfl
  refine ⟨⟨_, peeked, other⟩, ⟨1, ?_, Nat.one_pos, by omega⟩, fun _ => ?_, ?_⟩
  · rw [lpCurrentEncodedSizeBytes, peeked, ok_bind, encoding]
    rfl
  · rw [lpCurrentEncodedSizeUnsafe, peeked, ok_bind, encoding, length]
    rfl
  have small : ¬ uint64Max ≤ v.toNat := by
    rw [uint64Max]
    omega
  rw [getElement, peeked, ok_bind, encoding]
  rw [value, signed, if_neg small, Int.toNat_of_nonneg low]
  rfl

theorem decodes_int13 (start : p = before.length) (low : -4096 ≤ v) (high : v ≤ 4095)
    (shape : intenc v = [ofNat (unsigned 13 v / 256) ||| 0xC0, ofNat (unsigned 13 v)]) :
    Decodes (before ++ (intenc v ++ after)) p (.int v) := by
  obtain ⟨fits, back⟩ := @signed_unsigned 13 4096 v rfl low (by omega)
  obtain ⟨encoding, value, other⟩ := encodingOf_int13 (unsigned 13 v / 256) (by omega)
  have peeked := peek_first after start shape
  have second : peek (before ++ (intenc v ++ after)) (p + 1) = .ok (ofNat (unsigned 13 v)) := by
    rw [view_behind [ofNat (unsigned 13 v / 256) ||| 0xC0] shape]
    exact peek_middle (by simp [start])
  have length : (Element.int v).encoded.length = 2 := by
    rw [Element.encoded, shape]
    rfl
  refine ⟨⟨_, peeked, other⟩, ⟨1, ?_, Nat.one_pos, by omega⟩, fun _ => ?_, ?_⟩
  · rw [lpCurrentEncodedSizeBytes, peeked, ok_bind, encoding]
    rfl
  · rw [lpCurrentEncodedSizeUnsafe, peeked, ok_bind, encoding, length]
    rfl
  -- The two parts of the number are its quotient and its remainder by 256.
  have number : (ofNat (unsigned 13 v / 256) ||| 0xC0).toNat % 32 * 256 +
      (ofNat (unsigned 13 v)).toNat = unsigned 13 v := by
    rw [toNat_ofNat']
    omega
  rw [getElement, peeked, ok_bind, encoding]
  rw [second, ok_bind, number]
  exact congrArg (fun value => Except.ok (Element.int value)) back

/-- Every integer of a long reads back from the encoding that is chosen for it. -/
theorem decodes_int (start : p = before.length) (bounds : InLong v) :
    Decodes (before ++ (intenc v ++ after)) p (.int v) := by
  obtain ⟨low, high⟩ := bounds
  rcases intenc_cases v with ⟨low, high, shape⟩ | ⟨low, high, shape⟩ | ⟨low, high, shape⟩ |
    ⟨low, high, shape⟩ | ⟨low, high, shape⟩ | shape
  · exact decodes_uint7 start low high shape
  · exact decodes_int13 start low high shape
  · exact decodes_wide (by decide : (_, _, 2 ^ 15) ∈ _) start shape (by omega) (by omega)
  · exact decodes_wide (by decide : (_, _, 2 ^ 23) ∈ _) start shape (by omega) (by omega)
  · exact decodes_wide (by decide : (_, _, 2 ^ 31) ∈ _) start shape (by omega) (by omega)
  · exact decodes_wide (by decide : (_, _, 2 ^ 63) ∈ _) start shape (by omega) (by omega)

end Integers

section Strings

variable {before after : Bytes} {p : Nat} {s : Bytes}

theorem decodes_str6 (start : p = before.length) (short : s.length < 64) :
    Decodes (before ++ (lpEncodeString s ++ after)) p (.str s) := by
  obtain ⟨encoding, value, other⟩ := encodingOf_str6 s.length short
  have shape : lpEncodeString s = (ofNat s.length ||| 0x80) :: s := by
    rw [lpEncodeString, if_pos short]
  have peeked := peek_first after start shape
  have loaded : load (before ++ (lpEncodeString s ++ after)) (p + 1) s.length = .ok s := by
    rw [view_behind [ofNat s.length ||| 0x80] shape]
    exact load_middle (by simp [start]) rfl
  have length : (Element.str s).encoded.length = 1 + s.length := by
    rw [Element.encoded, shape, length_cons, Nat.add_comm]
  refine ⟨⟨_, peeked, other⟩, ⟨1, ?_, Nat.one_pos, by omega⟩, fun _ => ?_, ?_⟩
  · rw [lpCurrentEncodedSizeBytes, peeked, ok_bind, encoding]
    rfl
  · rw [lpCurrentEncodedSizeUnsafe, peeked, ok_bind, encoding, length]
    rw [value]
    rfl
  · rw [getElement, peeked, ok_bind, encoding]
    rw [value, loaded, ok_bind]
    rfl

theorem decodes_str12 (start : p = before.length) (long : ¬ s.length < 64)
    (short : s.length < 4096) : Decodes (before ++ (lpEncodeString s ++ after)) p (.str s) := by
  obtain ⟨encoding, value, other⟩ := encodingOf_str12 (s.length / 256) (by omega)
  have shape : lpEncodeString s =
      (ofNat (s.length / 256) ||| 0xE0) :: ofNat s.length :: s := by
    rw [lpEncodeString, if_neg long, if_pos short]
  have peeked := peek_first after start shape
  have second : peek (before ++ (lpEncodeString s ++ after)) (p + 1) =
      .ok (ofNat s.length) := by
    rw [view_behind [ofNat (s.length / 256) ||| 0xE0] shape]
    exact peek_middle (by simp [start])
  have loaded : load (before ++ (lpEncodeString s ++ after)) (p + 2) s.length = .ok s := by
    rw [view_behind [ofNat (s.length / 256) ||| 0xE0, ofNat s.length] shape]
    exact load_middle (by simp [start]) rfl
  have field : str12Len (before ++ (lpEncodeString s ++ after)) p = .ok s.length := by
    have number : s.length / 256 * 256 + (ofNat s.length).toNat = s.length := by
      rw [toNat_ofNat']
      omega
    rw [str12Len, peeked, ok_bind, second, ok_bind, value, number]
    rfl
  have length : (Element.str s).encoded.length = 2 + s.length := by
    rw [Element.encoded, shape, length_cons, length_cons]
    omega
  refine ⟨⟨_, peeked, other⟩, ⟨2, ?_, Nat.two_pos, by omega⟩, fun _ => ?_, ?_⟩
  · rw [lpCurrentEncodedSizeBytes, peeked, ok_bind, encoding]
    rfl
  · rw [lpCurrentEncodedSizeUnsafe, peeked, ok_bind, encoding, length]
    rw [field, ok_bind]
    rfl
  · rw [getElement, peeked, ok_bind, encoding]
    rw [field, ok_bind, loaded, ok_bind]
    rfl

theorem decodes_str32 (start : p = before.length) (long : ¬ s.length < 4096)
    (fits : s.length < 2 ^ 32) : Decodes (before ++ (lpEncodeString s ++ after)) p (.str s) := by
  have shape : lpEncodeString s = 0xF0 :: (littleEndian 4 s.length ++ s) := by
    rw [lpEncodeString, if_neg (by omega), if_neg long]
  have peeked := peek_first after start shape
  have field : str32Len (before ++ (lpEncodeString s ++ after)) p = .ok s.length := by
    have view : lpEncodeString s = [0xF0] ++ (littleEndian 4 s.length ++ s) := shape
    rw [str32Len, view_behind [0xF0] view, append_assoc (littleEndian 4 _),
      load_middle (by simp [start]) (by simp), ok_bind, ofLittleEndian_of_lt (by omega)]
    rfl
  have loaded : load (before ++ (lpEncodeString s ++ after)) (p + 5) s.length = .ok s := by
    rw [view_behind (0xF0 :: littleEndian 4 s.length) shape]
    exact load_middle (by simp [start]) rfl
  have length : (Element.str s).encoded.length = 5 + s.length := by
    rw [Element.encoded, shape]
    simp
    omega
  refine ⟨⟨_, peeked, by decide⟩, ⟨5, ?_, by decide, by omega⟩, fun small => ?_, ?_⟩
  · rw [lpCurrentEncodedSizeBytes, peeked]
    rfl
  · have encoding : encodingOf 0xF0 = some .str32 := by decide
    rw [length] at small ⊢
    rw [lpCurrentEncodedSizeUnsafe, peeked, ok_bind, encoding]
    rw [field, ok_bind, Nat.mod_eq_of_lt small]
    rfl
  · have encoding : encodingOf 0xF0 = some .str32 := by decide
    rw [getElement, peeked, ok_bind, encoding]
    rw [field, ok_bind, loaded, ok_bind]
    rfl

end Strings

/-- Every element that fits reads back. -/
theorem decodes_encoded {before after : Bytes} {p : Nat} {element : Element}
    (start : p = before.length) (fits : element.Fits) :
    Decodes (before ++ (element.encoded ++ after)) p element := by
  cases element with
  | int v => exact decodes_int start fits
  | str s =>
    by_cases short : s.length < 64
    · exact decodes_str6 start short
    · by_cases medium : s.length < 4096
      · exact decodes_str12 start short medium
      · exact decodes_str32 start medium fits

section Backlen

variable {lp : Bytes} {left p shift val : Nat} {byte : UInt8}

theorem decodeBacklen_last (peeked : peek lp p = .ok byte) (last : byte.toNat < 128) :
    decodeBacklen lp (left + 1) p shift val = .ok (val + byte.toNat * 2 ^ shift) := by
  rw [decodeBacklen, peeked, ok_bind]
  rw [if_pos last, Nat.mod_eq_of_lt last]
  rfl

theorem decodeBacklen_more (peeked : peek lp (p + 1) = .ok byte) (more : 128 ≤ byte.toNat) :
    decodeBacklen lp (left + 2) (p + 1) shift val =
      decodeBacklen lp (left + 1) p (shift + 7) (val + byte.toNat % 128 * 2 ^ shift) := by
  rw [decodeBacklen, peeked, ok_bind]
  rw [if_neg (by omega)]

theorem toNat_digit (n : Nat) : (ofNat (n % 128 + 128)).toNat = n % 128 + 128 := by
  rw [toNat_ofNat']
  omega

/-- The number that digits to the base 128 spell behind a first one. -/
def backlenValue (first : UInt8) (digits : Bytes) : Nat :=
  digits.foldl (fun number digit => number * 128 + digit.toNat % 128) first.toNat

/-- The length is read from its last byte to its first. -/
theorem decodeBacklen_digits {before : Bytes} {first : UInt8} {digits : Bytes}
    (last : first.toNat < 128) {after : Bytes} {left shift val : Nat} (short : digits.length ≤ left)
    (carried : ∀ digit ∈ digits, 128 ≤ digit.toNat) :
    decodeBacklen (before ++ (first :: digits ++ after)) (left + 1)
      (before.length + digits.length) shift val =
        .ok (val + backlenValue first digits * 2 ^ shift) := by
  -- The induction takes the last digit off, since that is the one read first.
  induction digits using List.reverseRecOn generalizing after left shift val with
  | nil => exact decodeBacklen_last (peek_middle rfl) last
  | append_singleton digits digit ih =>
    obtain ⟨left, rfl⟩ : ∃ rest, left = rest + 1 :=
      ⟨left - 1, by simp at short; omega⟩
    have view : before ++ (first :: (digits ++ [digit]) ++ after) =
        (before ++ first :: digits) ++ digit :: after := by
      simp
    have peeked : peek (before ++ (first :: (digits ++ [digit]) ++ after))
        (before.length + digits.length + 1) = .ok digit := by
      rw [view]
      exact peek_middle (by simp; omega)
    have onward := @ih (digit :: after) left (shift + 7) (val + digit.toNat % 128 * 2 ^ shift)
      (by simp at short; omega) fun other listed => carried other (by simp [listed])
    have rest : before ++ (first :: digits ++ digit :: after) =
        before ++ (first :: (digits ++ [digit]) ++ after) := by
      simp
    rw [rest] at onward
    rw [length_append, length_singleton, ← Nat.add_assoc,
      decodeBacklen_more peeked (carried digit (by simp)), onward, backlenValue, backlenValue,
      foldl_append, foldl_cons, foldl_nil, Nat.pow_add, Nat.add_mul]
    congr 1
    rw [Nat.mul_assoc _ 128, Nat.mul_comm 128, show 2 ^ 7 = 128 from rfl]
    omega

theorem lpEncodeBacklen_digits {l : Nat} (fits : l < 2 ^ 35) :
    ∃ first digits, lpEncodeBacklen l = first :: digits ∧ first.toNat < 128 ∧
      digits.length ≤ 4 ∧ (∀ digit ∈ digits, 128 ≤ digit.toNat) ∧ backlenValue first digits = l := by
  have digit := toNat_digit
  have carried : ∀ n, 128 ≤ (ofNat (n % 128 + 128)).toNat := fun n => by
    rw [digit]
    omega
  have first : ∀ n < 128, (ofNat n).toNat = n := by decide
  rw [lpEncodeBacklen]
  split
  · refine ⟨ofNat l, [], rfl, ?_, by simp, by simp, first l (by omega)⟩
    rw [first l (by omega)]
    omega
  repeat' split
  all_goals
    refine ⟨_, _, rfl, ?_, by simp, ?_, ?_⟩
    · rw [first _ (by omega)]
      omega
    · simp only [forall_mem_cons, carried, not_mem_nil, false_imp_iff, implies_true, and_true]
    · simp only [backlenValue, foldl_cons, foldl_nil, digit]
      rw [first _ (by omega)]
      omega

/-- The length behind an element reads back. -/
theorem lpDecodeBacklen_eq {before after : Bytes} {l : Nat} (fits : l < 2 ^ 35) :
    lpDecodeBacklen (before ++ (lpEncodeBacklen l ++ after))
      (before.length + (lpEncodeBacklen l).length - 1) = .ok l := by
  obtain ⟨first, digits, shape, last, few, carried, value⟩ := lpEncodeBacklen_digits fits
  have read := @decodeBacklen_digits before first digits last after 4 0 0 few carried
  rw [value, Nat.zero_add, Nat.pow_zero, Nat.mul_one] at read
  rw [shape, length_cons, ← Nat.add_assoc, Nat.add_sub_cancel]
  exact read

end Backlen

end LearningNotes.Listpack
