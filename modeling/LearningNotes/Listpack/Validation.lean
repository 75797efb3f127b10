import LearningNotes.Listpack.Decode
import Mathlib.Tactic.Ring

/-! What deep validation of a byte string as a listpack promises to the code that walks over it. -/

namespace LearningNotes.Listpack

open Lib Lib.Memory Util List Option

/-! ### Walks -/

/-- The pointers from one on, until `NULL`. -/
def walk (next : Nat → Except Fault (Option Nat)) : Nat → Option Nat → Except Fault (List Nat)
  | _, none => .ok []
  | 0, some _ => .error .noProgress
  | fuel + 1, some p => do return p :: (← walk next fuel (← next p))

/-- The elements as `lpFirst` and `lpNext` visit them. -/
def walkForward (lp : Bytes) : Except Fault (List Nat) := do
  walk (lpNext lp) lp.length (← lpFirst lp)

/-- The elements as `lpLast` and `lpPrev` visit them. -/
def walkBackward (lp : Bytes) : Except Fault (List Nat) := do
  walk (lpPrev lp) lp.length (← lpLast lp)

/-- A walk ends behind the last element it visits. -/
def endOfWalk (lp : Bytes) (visited : List Nat) : Except Fault Nat :=
  match visited.getLast? with
  | none => .ok headerSize
  | some p => lpSkip lp p

/-! ### One entry -/

/-- A valid entry, from its first byte to the first one behind it. -/
structure Entry (lp : Bytes) (p q : Nat) : Prop where
  low : headerSize ≤ p
  valid : lpValidateNext lp (some p) lp.length = .ok (some (some q))
  byte : ∃ byte, peek lp p = .ok byte ∧ byte ≠ lpEof ∧ encodingOf byte ≠ none
  size : ∃ size, lpCurrentEncodedSizeUnsafe lp p = .ok size ∧
    q = p + (size + (lpEncodeBacklen size).length) ∧ lpDecodeBacklen lp (q - 1) = .ok size
  inside : q < lp.length

variable {lp : Bytes} {p : Nat}

theorem decodeBacklen_cases {left p shift val v : Nat}
    (decoded : decodeBacklen lp (left + 1) p shift val = .ok v) :
    v = uint64Max ∨
      ∃ byte more, peek lp p = .ok byte ∧ more < 128 ^ left ∧
        v = val + (byte.toNat % 128 + 128 * more) * 2 ^ shift := by
  -- The induction is on the number of bytes that may still be read.
  induction left generalizing p shift val v with
  | zero =>
    obtain ⟨byte, peeked, rest⟩ := bind_eq_ok.mp decoded
    split at rest
    · exact .inr ⟨byte, 0, peeked, by simp, (Except.ok.inj rest).symm⟩
    · cases p <;> exact .inl (Except.ok.inj rest).symm
  | succ left ih =>
    rw [decodeBacklen] at decoded
    obtain ⟨byte, peeked, rest⟩ := bind_eq_ok.mp decoded
    split at rest
    · exact .inr ⟨byte, 0, peeked, Nat.pow_pos (by omega), (Except.ok.inj rest).symm⟩
    cases p with
    | zero => cases rest
    | succ p =>
      -- The digits in front count 128 times as much.
      obtain failed | ⟨next, more, _, few, value⟩ := ih rest
      · exact .inl failed
      · refine .inr ⟨byte, next.toNat % 128 + 128 * more, peeked, ?_, ?_⟩
        · omega
        · rw [value, Nat.pow_add]
          ring

theorem lpDecodeBacklen_cases {v : Nat} (decoded : lpDecodeBacklen lp p = .ok v) :
    v = uint64Max ∨ v < 2 ^ 35 ∧ ∃ byte, peek lp p = .ok byte ∧ v % 128 = byte.toNat % 128 := by
  -- Five digits to the base 128 make a number below `2 ^ 35`.
  obtain failed | ⟨byte, more, peeked, few, value⟩ := decodeBacklen_cases decoded
  · exact .inl failed
  · exact .inr ⟨by omega, byte, peeked, by omega⟩

variable {len size : Nat}

theorem str12Len_lt (read : str12Len lp p = .ok len) : len < 4096 := by
  -- Four bits and a byte.
  obtain ⟨high, _, read⟩ := bind_eq_ok.mp read
  obtain ⟨low, _, read⟩ := bind_eq_ok.mp read
  have value := Except.ok.inj read
  have bound := low.toNat_lt
  omega

theorem str32Len_lt (read : str32Len lp p = .ok len) : len < 2 ^ 32 := by
  -- Four bytes.
  obtain ⟨data, loaded, value⟩ := bind_eq_ok.mp read
  have number := Except.ok.inj value
  have width := (peek_of_load loaded (show 0 < 4 by decide)).1
  have bound := ofLittleEndian_lt data
  rw [width] at bound
  omega

theorem encodedSize_lt (read : lpCurrentEncodedSizeUnsafe lp p = .ok size) : size < 2 ^ 32 := by
  -- Only the size behind a long string may have been cut to that width.
  obtain ⟨byte, _, read⟩ := bind_eq_ok.mp read
  cases encoding : encodingOf byte with
  | none =>
    rw [encoding] at read
    have value := Except.ok.inj read
    split at value <;> omega
  | some kind =>
    rw [encoding] at read
    cases kind
    case str12 =>
      obtain ⟨len, found, read⟩ := bind_eq_ok.mp read
      have value := Except.ok.inj read
      have bound := str12Len_lt found
      omega
    case str32 =>
      obtain ⟨len, found, read⟩ := bind_eq_ok.mp read
      have value := Except.ok.inj read
      omega
    all_goals
      have value := Except.ok.inj read
      omega

theorem outOfRange_eq_false {bytes : Nat} (inRange : ¬ outOfRange bytes p = true) :
    headerSize ≤ p ∧ p ≤ bytes - 1 := by
  simp only [outOfRange, Bool.or_eq_true, decide_eq_true_eq] at inRange
  omega

theorem backlen_eq {prevlen backlen : Nat} (decoded : prevlen = uint64Max ∨ prevlen < 2 ^ 35)
    (short : size < 2 ^ 32) (same : (prevlen + backlen) % 2 ^ 64 = size + backlen) :
    prevlen = size := by
  simp only [uint64Max] at decoded
  omega

theorem entry_of_valid {q : Nat} (some_ : lp ≠ [])
    (valid : lpValidateNext lp (some p) lp.length = .ok (some (some q))) : Entry lp p q := by
  -- The checks are taken apart in the order in which they are made.
  have steps := valid
  rw [lpValidateNext] at steps
  split at steps
  · cases steps
  rename_i inRange
  obtain ⟨byte, peeked, steps⟩ := bind_eq_ok.mp steps
  split at steps
  · cases steps
  rename_i more
  obtain ⟨lenbytes, counted, steps⟩ := bind_eq_ok.mp steps
  split at steps
  · cases steps
  rename_i known
  split at steps
  · cases steps
  obtain ⟨size, sized, steps⟩ := bind_eq_ok.mp steps
  dsimp only at steps
  split at steps
  · cases steps
  rename_i ends
  obtain ⟨prevlen, decoded, steps⟩ := bind_eq_ok.mp steps
  split at steps
  · cases steps
  rename_i same
  have finish := some.inj (some.inj (Except.ok.inj steps))
  have short := encodedSize_lt sized
  have bounds := (lpDecodeBacklen_cases decoded).imp_right And.left
  have back := backlen_eq bounds short (not_not.mp same)
  have length := length_pos_iff.mpr some_
  have stop := outOfRange_eq_false ends
  refine ⟨(outOfRange_eq_false inRange).1, valid, ⟨byte, peeked, more, fun none_ => ?_⟩,
    ⟨size, sized, finish.symm, ?_⟩, by omega⟩
  · -- A byte that starts no encoding and is not the end has no length.
    rw [lpCurrentEncodedSizeBytes, peeked, ok_bind, none_] at counted
    have zero := Except.ok.inj counted
    rw [if_neg more] at zero
    exact known zero.symm
  · rw [← finish]
    exact decoded.trans (congrArg Except.ok back)

theorem ofLittleEndian_high {a b c d : UInt8} {w : Nat} (small : w < 5)
    (number : ofLittleEndian [a, b, c, d] = 2 ^ 32 - 5 + w) :
    a.toNat = 251 + w ∧ b.toNat = 255 ∧ c.toNat = 255 ∧ d.toNat = 255 := by
  -- The number is at least `0xFFFFFFFB`.
  simp only [ofLittleEndian] at number
  have first := a.toNat_lt
  have second := b.toNat_lt
  have third := c.toNat_lt
  omega

theorem encodingOf_str32 : ∀ n < 256, encodingOf (UInt8.ofNat n) = some .str32 → n % 128 ≠ 0 := by
  decide +kernel

variable {lp : Bytes} {p stop : Nat}

variable {len q x : Nat} {byte : UInt8} {visited : List Nat}

theorem wrapped_backlen (peeked : peek lp p = .ok byte) (kind : encodingOf byte = some .str32)
    (read : str32Len lp p = .ok len) (wraps : 2 ^ 32 ≤ 5 + len) (small : 5 + len < 2 ^ 32 + 5) :
    ∃ last, peek lp (p + (5 + len - 2 ^ 32)) = .ok last ∧
      last.toNat % 128 ≠ 5 + len - 2 ^ 32 := by
  obtain ⟨data, loaded, value⟩ := bind_eq_ok.mp read
  have number := Except.ok.inj value
  obtain ⟨w, wrapped⟩ : ∃ w, 5 + len = 2 ^ 32 + w := ⟨5 + len - 2 ^ 32, by omega⟩
  have few : w < 5 := by omega
  rw [show 5 + len - 2 ^ 32 = w by omega]
  obtain ⟨size, _⟩ := peek_of_load loaded (show 0 < 4 by decide)
  match data, size with
  | [a, b, c, d], _ =>
    obtain ⟨first, second, third, fourth⟩ := @ofLittleEndian_high a b c d w few (by omega)
    cases w with
    | zero =>
      -- The byte is the one that tells the encoding.
      refine ⟨byte, peeked, ?_⟩
      have large := encodingOf_str32 byte.toNat byte.toNat_lt
      rw [UInt8.ofNat_toNat] at large
      exact large kind
    | succ w =>
      obtain ⟨_, last, found, member⟩ := peek_of_load loaded (show w < 4 by omega)
      refine ⟨last, by rw [← found]; congr 1; omega, ?_⟩
      have which : last = a ∧ w = 0 ∨ last = b ∧ w = 1 ∨ last = c ∧ w = 2 ∨ last = d ∧ w = 3 := by
        match w, member with
        | 0, member => exact .inl ⟨(some.inj member).symm, rfl⟩
        | 1, member => exact .inr (.inl ⟨(some.inj member).symm, rfl⟩)
        | 2, member => exact .inr (.inr (.inl ⟨(some.inj member).symm, rfl⟩))
        | 3, member => exact .inr (.inr (.inr ⟨(some.inj member).symm, rfl⟩))
      obtain ⟨rfl, rfl⟩ | ⟨rfl, rfl⟩ | ⟨rfl, rfl⟩ | ⟨rfl, rfl⟩ := which
      all_goals omega

theorem Entry.str32_fits (entry : Entry lp p q) (peeked : peek lp p = .ok byte)
    (kind : encodingOf byte = some .str32) (read : str32Len lp p = .ok len) : 5 + len < 2 ^ 32 := by
  -- Otherwise the backlen of the entry would have been another one.
  by_contra wraps
  obtain ⟨size, sized, finish, decoded⟩ := entry.size
  obtain ⟨last, found, other⟩ := wrapped_backlen peeked kind read (by omega)
    (by have := str32Len_lt read; omega)
  rw [lpCurrentEncodedSizeUnsafe, peeked, ok_bind, kind] at sized
  simp only [read] at sized
  have value : (5 + len) % 2 ^ 32 = size := Except.ok.inj sized
  have bound := str32Len_lt read
  have wrapped : 5 + len - 2 ^ 32 = size := by omega
  -- So small a size has a backlen of one byte.
  have single : (lpEncodeBacklen size).length = 1 := by
    rw [lpEncodeBacklen, if_pos (by omega)]
    rfl
  rw [finish, single, show p + (size + 1) - 1 = p + size by omega] at decoded
  rw [wrapped] at found other
  obtain failed | ⟨_, byte, peeked, digit⟩ := lpDecodeBacklen_cases decoded
  · simp only [uint64Max] at failed
    omega
  · have same : byte = last := Except.ok.inj (peeked.symm.trans found)
    rw [same] at digit
    omega

theorem Entry.getElement_eq (entry : Entry lp p q) : ∃ element, getElement lp p = .ok element := by
  -- The element ends where the backlen starts, in front of the next entry.
  obtain ⟨byte, peeked, _, known⟩ := entry.byte
  obtain ⟨size, sized, finish, _⟩ := entry.size
  have inside := entry.inside
  have read := sized
  rw [lpCurrentEncodedSizeUnsafe, peeked, ok_bind] at read
  rw [getElement, peeked, ok_bind]
  cases encoding : encodingOf byte with
  | none => exact absurd encoding known
  | some kind =>
    rw [encoding] at read
    cases kind
    case str12 =>
      obtain ⟨len, found, value⟩ := bind_eq_ok.mp read
      have whole : 2 + len = size := Except.ok.inj value
      simp only [found, ok_bind]
      rw [load_of_le (by omega)]
      exact ⟨_, rfl⟩
    case str32 =>
      obtain ⟨len, found, value⟩ := bind_eq_ok.mp read
      have whole : (5 + len) % 2 ^ 32 = size := Except.ok.inj value
      have fits := entry.str32_fits peeked encoding found
      simp only [found, ok_bind]
      rw [load_of_le (by omega)]
      exact ⟨_, rfl⟩
    case int13 =>
      have whole : 2 = size := Except.ok.inj read
      obtain ⟨low, peeked⟩ := @peek_of_lt lp (p + 1) (by omega)
      simp only [peeked]
      exact ⟨_, rfl⟩
    case uint7 => exact ⟨_, rfl⟩
    all_goals
      have whole := Except.ok.inj read
      simp only []
      rw [load_of_le (by omega)]
      exact ⟨_, rfl⟩

/-- The first bytes of the entries from one place to another. -/
def Entries (lp : Bytes) : Nat → List Nat → Nat → Prop
  | p, [], stop => p = stop
  | p, x :: rest, stop => p = x ∧ ∃ q, Entry lp p q ∧ Entries lp q rest stop

theorem Entries.concat {front : List Nat} (entries : Entries lp p (front ++ [x]) stop) :
    Entries lp p front x ∧ Entry lp x stop := by
  -- The induction is on the entries in front of the last one.
  induction front generalizing p with
  | nil =>
    obtain ⟨start, q, entry, finish⟩ := entries
    exact ⟨start, start ▸ finish ▸ entry⟩
  | cons first front ih =>
    obtain ⟨start, q, entry, behind⟩ := entries
    obtain ⟨before, last⟩ := ih behind
    exact ⟨⟨start, q, entry, before⟩, last⟩

theorem Entries.entry_of_mem (entries : Entries lp p visited stop) (listed : x ∈ visited) :
    ∃ q, Entry lp x q := by
  -- The entry is the first one, or one behind it.
  induction visited generalizing p with
  | nil => cases listed
  | cons first visited ih =>
    obtain ⟨start, q, entry, behind⟩ := entries
    cases listed with
    | head => exact ⟨q, start ▸ entry⟩
    | tail _ listed => exact ih behind listed

theorem Entries.length_le (entries : Entries lp p visited stop) : p + visited.length ≤ stop := by
  -- Even an element without contents has a backlen.
  induction visited generalizing p with
  | nil => exact Nat.le_of_eq entries
  | cons first visited ih =>
    obtain ⟨_, q, entry, behind⟩ := entries
    obtain ⟨size, _, finish, _⟩ := entry.size
    have backlen := lpEncodeBacklen_length size
    have rest := ih behind
    rw [length_cons]
    omega

/-- A block that deep validation accepts, with its entries. -/
structure Validated (lp : Bytes) (visited : List Nat) : Prop where
  total : lpGetTotalBytes lp = .ok lp.length
  terminated : peek lp (lp.length - 1) = .ok lpEof
  entries : Entries lp headerSize visited (lp.length - 1)
  count : ∃ numele, lpGetNumElements lp = .ok numele ∧
    (numele = numeleUnknown ∨ numele = visited.length)

section Walking

variable {lp : Bytes} {visited : List Nat}

variable {p q : Nat}

theorem Entry.lpSkip_eq (entry : Entry lp p q) : lpSkip lp p = .ok q := by
  obtain ⟨size, sized, finish, _⟩ := entry.size
  rw [lpSkip, sized, ok_bind, finish]
  rfl

section Walks

variable (validated : Validated lp visited)
include validated

theorem Validated.lpAssertValidEntry_eq (entry : Entry lp p q) :
    (do lpAssertValidEntry lp (← lpBytes lp) p) = .ok () := by
  rw [lpBytes, validated.total, ok_bind, lpAssertValidEntry, entry.valid, ok_bind,
    isSome_some, assert_true rfl]

variable {rest : List Nat}

theorem Validated.checked (entries : Entries lp p rest (lp.length - 1)) :
    (do
      if (← peek lp p) = lpEof then return none
      else
        lpAssertValidEntry lp (← lpBytes lp) p
        return some p) = (.ok rest.head? : Except Fault (Option Nat)) := by
  -- The place is that of the terminator or that of a valid entry.
  cases rest with
  | nil =>
    rw [show p = lp.length - 1 from entries, validated.terminated, ok_bind, if_pos rfl]
    rfl
  | cons x rest =>
    obtain ⟨rfl, q, entry, _⟩ := entries
    obtain ⟨byte, peeked, more, _⟩ := entry.byte
    have asserted := validated.lpAssertValidEntry_eq entry
    rw [lpBytes, validated.total, ok_bind] at asserted
    rw [peeked, ok_bind, if_neg more, lpBytes, validated.total, ok_bind, asserted, ok_bind]
    rfl

theorem Validated.lpFirst_eq : lpFirst lp = .ok visited.head? :=
  validated.checked validated.entries

theorem Validated.lpNext_eq (entry : Entry lp p q) (behind : Entries lp q rest (lp.length - 1)) :
    lpNext lp p = .ok rest.head? := by
  rw [lpNext, entry.lpSkip_eq, ok_bind]
  exact validated.checked behind

theorem Validated.lpPrev_eq (entry : Entry lp p q) : lpPrev lp q = .ok (some p) := by
  -- The backlen in front of the place is the size of the entry.
  obtain ⟨size, sized, finish, decoded⟩ := entry.size
  have low := entry.low
  have short := encodedSize_lt sized
  have backlen := lpEncodeBacklen_length size
  have asserted := validated.lpAssertValidEntry_eq entry
  rw [lpBytes, validated.total, ok_bind] at asserted
  rw [lpPrev, if_neg (by omega)]
  dsimp only
  rw [decoded, ok_bind, Nat.mod_eq_of_lt (by omega), if_neg (by omega), lpBytes, validated.total,
    ok_bind, show q - 1 - (size + (lpEncodeBacklen size).length - 1) = p by omega, asserted, ok_bind]
  rfl

theorem Validated.walk_lpNext {rest : List Nat} {p fuel : Nat}
    (entries : Entries lp p rest (lp.length - 1)) (enough : rest.length ≤ fuel) :
    walk (lpNext lp) fuel rest.head? = .ok rest := by
  -- Each step passes one entry and leaves those behind it.
  induction rest generalizing p fuel with
  | nil => cases fuel <;> rfl
  | cons x rest ih =>
    obtain ⟨rfl, q, entry, behind⟩ := entries
    cases fuel with
    | zero => cases enough
    | succ fuel =>
      rw [head?_cons, walk, validated.lpNext_eq entry behind, ok_bind,
        ih behind (Nat.le_of_succ_le_succ enough)]
      rfl

theorem Validated.walk_lpPrev : ∀ {front : List Nat}
    {stop fuel : Nat}, Entries lp headerSize front stop → front.length ≤ fuel →
      (do walk (lpPrev lp) fuel (← lpPrev lp stop)) = .ok front.reverse := by
  -- The induction takes the last entry off the front.
  intro front
  induction front using List.reverseRecOn with
  | nil =>
    intro stop fuel start _
    rw [← show headerSize = stop from start, lpPrev, if_pos rfl]
    cases fuel <;> rfl
  | append_singleton front x ih =>
    intro stop fuel entries enough
    obtain ⟨before, last⟩ := entries.concat
    rw [length_append, length_singleton] at enough
    cases fuel with
    | zero => cases enough
    | succ fuel =>
      rw [validated.lpPrev_eq last, ok_bind, walk, reverse_append]
      have rest := ih before (Nat.le_of_succ_le_succ enough)
      obtain ⟨previous, found, walked⟩ := bind_eq_ok.mp rest
      rw [found, ok_bind, walked]
      rfl

theorem Validated.countFrom_eq {rest : List Nat} {p fuel count : Nat}
    (entries : Entries lp p rest (lp.length - 1)) (enough : rest.length ≤ fuel) :
    countFrom lp fuel rest.head? count = .ok (count + rest.length) := by
  -- The count grows by one for each entry that is passed.
  induction rest generalizing p fuel count with
  | nil => cases fuel <;> rfl
  | cons x rest ih =>
    obtain ⟨rfl, q, entry, behind⟩ := entries
    cases fuel with
    | zero => cases enough
    | succ fuel =>
      rw [head?_cons, countFrom, validated.lpNext_eq entry behind, ok_bind,
        ih behind (Nat.le_of_succ_le_succ enough), length_cons]
      congr 1
      omega

end Walks

theorem Validated.endOfWalk_eq {stop : Nat} (entries : Entries lp p visited stop)
    (start : p = headerSize) : endOfWalk lp visited = .ok stop := by
  -- The end is behind the last entry, or behind the header if there is none.
  cases eq_nil_or_concat visited with
  | inl none_ =>
    subst none_
    rw [← show p = stop from entries, start]
    rfl
  | inr some_ =>
    obtain ⟨front, x, shape⟩ := some_
    rw [concat_eq_append] at shape
    subst shape
    rw [endOfWalk, getLast?_append, getLast?_singleton]
    exact entries.concat.2.lpSkip_eq

theorem Validated.lpLength_eq (validated : Validated lp visited) :
    ∃ counted, lpLength lp = .ok (visited.length, counted) := by
  obtain ⟨numele, field, known⟩ := validated.count
  have room := validated.entries.length_le
  rw [lpLength, field, ok_bind]
  by_cases unknown : numele = numeleUnknown
  · rw [if_neg (not_not.mpr unknown), validated.lpFirst_eq, ok_bind,
      validated.countFrom_eq validated.entries (by omega), ok_bind, Nat.zero_add]
    split
    · -- The header, into which the count is written, is inside the block.
      have short : 4 + (littleEndian 2 visited.length).length ≤ lp.length := by
        simp only [headerSize] at room
        rw [length_littleEndian]
        omega
      rw [lpSetNumElements, store, writeAt, if_pos short]
      exact ⟨_, rfl⟩
    · exact ⟨lp, rfl⟩
  · rw [if_pos unknown, known.resolve_left unknown]
    exact ⟨lp, rfl⟩

end Walking

/-! ### What validation accepts -/

theorem entries_of_validateEntries (some_ : lp ≠ []) {fuel p count stop total : Nat}
    (ran : validateEntries lp lp.length fuel (some p) count = .ok (some (some stop, total))) :
    ∃ visited, Entries lp p visited stop ∧ total = count + visited.length := by
  induction fuel generalizing p count with
  | zero => cases ran
  | succ fuel ih =>
    obtain ⟨byte, peeked, rest⟩ := bind_eq_ok.mp ran
    split at rest
    · obtain ⟨here, same⟩ := Prod.mk.inj (some.inj (Except.ok.inj rest))
      exact ⟨[], some.inj here, same.symm⟩
    obtain ⟨verdict, valid, onward⟩ := bind_eq_ok.mp rest
    match verdict with
    | none => cases onward
    | some none =>
      -- A pointer that has become `NULL` is not the end of the block.
      cases fuel <;> cases onward
    | some (some q) =>
      obtain ⟨visited, behind, sum⟩ := ih onward
      refine ⟨p :: visited, ⟨rfl, q, entry_of_valid some_ valid, behind⟩, ?_⟩
      rw [length_cons]
      omega

theorem validated_of_accepted (accepted : lpValidateIntegrity lp true = .ok true) :
    ∃ visited, Validated lp visited := by
  -- The checks are taken apart in the order in which they are made.
  rw [lpValidateIntegrity] at accepted
  split at accepted
  · cases accepted
  rename_i long
  have some_ : lp ≠ [] := fun none_ => long (by rw [none_]; decide)
  obtain ⟨bytes, total, rest⟩ := bind_eq_ok.mp accepted
  split at rest
  · cases rest
  rename_i whole
  have whole := not_not.mp whole
  subst whole
  obtain ⟨byte, last, rest⟩ := bind_eq_ok.mp rest
  split at rest
  · cases rest
  rename_i terminated
  rw [not_not.mp terminated] at last
  obtain ⟨reached, looped, rest⟩ := bind_eq_ok.mp rest
  match reached with
  | none => cases rest
  | some (place, count) =>
    dsimp only at rest
    split at rest
    · cases rest
    rename_i finish
    rw [not_not.mp finish] at looped
    obtain ⟨visited, entries, sum⟩ := entries_of_validateEntries some_ looped
    obtain ⟨numele, field, agrees⟩ := bind_eq_ok.mp rest
    refine ⟨visited, total, last, entries, numele, field, ?_⟩
    have verdict := Except.ok.inj agrees
    by_cases unknown : numele = numeleUnknown
    · exact .inl unknown
    · right
      by_contra other
      rw [sum, Nat.zero_add] at verdict
      simp [unknown, other] at verdict

/-! ### Validation itself -/

/-- Whatever bytes deep validation accepts, a walk from the first element visits as many elements as
`lpLength` counts and ends at the last byte, the walk from the last element visits the same ones in
reverse order, and what `lpGet` decodes of each of them lies inside the bytes. -/
theorem validated_listpack_walkable (lp : Bytes)
    (accepted : lpValidateIntegrity lp true = .ok true) :
    ∃ visited, walkForward lp = .ok visited ∧ walkBackward lp = .ok visited.reverse ∧
      (∃ counted, lpLength lp = .ok (visited.length, counted)) ∧
      endOfWalk lp visited = .ok (lp.length - 1) ∧ peek lp (lp.length - 1) = .ok lpEof ∧
      ∀ p ∈ visited, ∃ element, getElement lp p = .ok element := by
  -- The entries that validation has passed are the elements of both walks.
  obtain ⟨visited, validated⟩ := validated_of_accepted accepted
  have room := validated.entries.length_le
  refine ⟨visited, ?_, ?_, validated.lpLength_eq,
    Validated.endOfWalk_eq validated.entries rfl, validated.terminated, ?_⟩
  · rw [walkForward, validated.lpFirst_eq, ok_bind]
    exact validated.walk_lpNext validated.entries (by omega)
  · rw [walkBackward, lpLast, validated.total, ok_bind]
    exact validated.walk_lpPrev validated.entries (by omega)
  · intro p listed
    obtain ⟨q, entry⟩ := validated.entries.entry_of_mem listed
    exact entry.getElement_eq

/-- A listpack of a small integer, a string and a larger integer. -/
theorem three_elements_walkable :
    let lp : Bytes := [16, 0, 0, 0, 3, 0, 5, 1, 0x81, 97, 2, 0xF1, 255, 127, 3, 0xFF]
    walkForward lp = .ok [6, 8, 11] ∧ ∃ visited, walkForward lp = .ok visited ∧
      walkBackward lp = .ok visited.reverse ∧
      (∃ counted, lpLength lp = .ok (visited.length, counted)) ∧
      endOfWalk lp visited = .ok (lp.length - 1) ∧ peek lp (lp.length - 1) = .ok lpEof ∧
      ∀ p ∈ visited, ∃ element, getElement lp p = .ok element :=
  ⟨rfl, validated_listpack_walkable _ rfl⟩

end LearningNotes.Listpack
