import LearningNotes.Ziplist.Cascade

/-! Inserting an entry, and what follows for the entries behind it. -/

namespace LearningNotes.Ziplist

open Lib Util List

/-- An integer if the string is the decimal form of one. -/
def toValue (s : Bytes) : Value :=
  match zipTryEncoding s with
  | some (value, _) => .int value
  | none => .str s

theorem zipTryEncoding_some {s : Bytes} {value : Int} {encoding : UInt8}
    (parsed : zipTryEncoding s = some (value, encoding)) :
    string2ll s = some value ∧ encoding = zipIntEncoding value := by
  unfold zipTryEncoding at parsed
  split at parsed
  · cases parsed
  · obtain ⟨number, read, pair⟩ := Option.map_eq_some_iff.mp parsed
    cases pair
    exact ⟨read, rfl⟩

/-- A string stored as an integer has the text of that integer. -/
theorem bytes_toValue (s : Bytes) : (toValue s).bytes = s := by
  unfold toValue
  split
  · next parsed => exact (string2ll_decimal (zipTryEncoding_some parsed).1).1
  · rfl

theorem fits_toValue {s : Bytes} (short : (toValue s).content.length < 256 ^ 4) :
    (toValue s).Fits := by
  unfold toValue at *
  split
  · next parsed => exact (string2ll_decimal (zipTryEncoding_some parsed).1).2
  · next parsed =>
    rw [parsed] at short
    exact short

theorem chooseEncoding_spec (s : Bytes) :
    zipStoreEntryEncoding (chooseEncoding s).1 s.length = (toValue s).header ∧
      contentBytes s (chooseEncoding s).1 (chooseEncoding s).2.1 = .ok (toValue s).content ∧
      (chooseEncoding s).2.2 = (toValue s).content.length := by
  unfold chooseEncoding toValue
  cases parsed : zipTryEncoding s with
  | none => exact ⟨rfl, if_pos (show zipIsStr 0 = true by decide), rfl⟩
  | some pair =>
    obtain ⟨value, encoding⟩ := pair
    obtain ⟨-, rfl⟩ := zipTryEncoding_some parsed
    obtain ⟨-, integer, -⟩ := zipIntEncoding_valid value
    simp only [zipStoreEntryEncoding, contentBytes, integer]
    exact ⟨rfl, zipSaveInteger_eq value, by simp [Value.content, twosComplement]⟩

/-- An entry with the narrowest prevlen field. -/
def Entry.tight (prev : Nat) (value : Value) : Entry := ⟨decide (zipBigPrevlen ≤ prev), value⟩

namespace Entry

variable {prev : Nat} {value : Value}

@[simp] theorem tight_value : (tight prev value).value = value := rfl

theorem tight_prevField : (tight prev value).prevField prev = prevlenBytes prev := by
  by_cases small : prev < zipBigPrevlen
  · simp [tight, prevField, prevlenBytes, Nat.not_le.mpr small]
  · simp [tight, prevField, prevlenBytes, small]

theorem tight_prevWidth : (tight prev value).prevWidth = prevlenSize prev := by
  by_cases small : prev < zipBigPrevlen
  · simp [tight, prevWidth, prevlenSize, Nat.not_le.mpr small]
  · simp [tight, prevWidth, prevlenSize, Nat.le_of_not_lt small]

theorem tight_narrow (narrow : (tight prev value).wide = false) : prev < zipBigPrevlen := by
  simpa [tight] using narrow

theorem tight_size :
    (tight prev value).size = value.content.length + prevlenSize prev + value.header.length := by
  simp only [size, tight_prevWidth, tight_value, Value.body, length_append]
  omega

end Entry

theorem prevlenSize_cases (len : Nat) :
    prevlenSize len = 1 ∧ len < zipBigPrevlen ∨ prevlenSize len = 5 ∧ zipBigPrevlen ≤ len := by
  by_cases small : len < zipBigPrevlen
  · exact .inl ⟨prevlenSize_of_lt small, small⟩
  · exact .inr ⟨prevlenSize_of_le (Nat.le_of_not_lt small), Nat.le_of_not_lt small⟩

theorem length_prevlenBytes (len : Nat) : (prevlenBytes len).length = prevlenSize len := by
  unfold prevlenBytes prevlenSize prevlenLarge
  split <;> simp

section Images

variable {length : Nat} {front back rest : List Entry} {entry : Entry}

theorem image_append (length : Nat) (front back : List Entry) :
    image length (front ++ back) =
      (header (headerSize + totalSize (front ++ back) + endSize)
          (lastAt headerSize headerSize (front ++ back)) length ++ layout 0 front) ++
        (layout (lastSize 0 front) back ++ [zipEnd]) := by
  simp only [image, layout_append, append_assoc]

theorem image_entry (length : Nat) (front : List Entry) (entry : Entry) (rest : List Entry) :
    ∃ before : Bytes, headerSize + totalSize front = before.length ∧
      image length (front ++ entry :: rest) =
        before ++ (entry.bytes (lastSize 0 front) ++ (layout entry.size rest ++ [zipEnd])) := by
  refine ⟨header (headerSize + totalSize (front ++ entry :: rest) + endSize)
    (lastAt headerSize headerSize (front ++ entry :: rest)) length ++ layout 0 front, by simp, ?_⟩
  rw [image_append, layout, append_assoc (entry.bytes _)]

theorem entry_facts (stored : Stored (front ++ entry :: rest)) :
    entry.Fits (lastSize 0 front) ∧ headerSize + lastSize 0 front ≤ headerSize + totalSize front ∧
      headerSize + totalSize front + entry.size + endSize ≤
        headerSize + totalSize (front ++ entry :: rest) + endSize := by
  have limit : uint32Max < 256 ^ 4 := by decide
  have previous := lastSize_le 0 front
  obtain ⟨chain, bounded⟩ := stored
  obtain ⟨-, entryChain, -⟩ := Chain.append.mp chain
  simp only [totalSize_append, totalSize] at *
  exact ⟨⟨entryChain.1, by omega, entryChain.2⟩, by omega, by omega⟩

theorem image_reads (stored : Stored (front ++ entry :: rest)) :
    let zl := image length (front ++ entry :: rest)
    let p := headerSize + totalSize front
    let found := entry.decoded (lastSize 0 front) p
    (∃ byte, peek zl p = .ok byte ∧ byte ≠ zipEnd) ∧
      decodePrevlensize zl p = .ok entry.prevWidth ∧
      decodePrevlen zl p = .ok (entry.prevWidth, lastSize 0 front) ∧ zipEntry zl p = .ok found ∧
      ∀ validate, assertEntry zl (headerSize + totalSize (front ++ entry :: rest) + endSize) p
        validate = .ok found := by
  intro zl p found
  obtain ⟨before, start, view⟩ := image_entry length front entry rest
  obtain ⟨fits, inside, within⟩ := entry_facts stored
  simp only [zl, view]
  exact ⟨peek_entry start fits, decodePrevlensize_eq start fits, decodePrevlen_eq start fits,
    zipEntry_eq start fits,
    fun validate => assertEntry_eq start fits (Nat.le_add_right ..) within fun _ => inside⟩

theorem ziplistBytes_image (stored : Stored front) :
    ziplistBytes (image length front) = .ok (headerSize + totalSize front + endSize) :=
  ziplistBytes_header (Nat.lt_trans stored.bounded (by decide))

theorem ziplistTailOffset_image (stored : Stored front) :
    ziplistTailOffset (image length front) = .ok (lastAt headerSize headerSize front) := by
  have limit : uint32Max < 256 ^ 4 := by decide
  have bounded := stored.bounded
  have ended := lastAt_add_lastSize headerSize headerSize front (Nat.le_refl _)
  exact ziplistTailOffset_header (by omega)

theorem peek_image_end : peek (image length front) (headerSize + totalSize front) = .ok zipEnd := by
  rw [image, ← append_assoc]
  exact peek_middle (by simp)

theorem staleImage_eq_image (length : Nat) (front : List Entry) (entry : Entry)
    (rest : List Entry) :
    staleImage length (layout 0 front) entry (lastSize 0 front) entry.size rest =
      image length (front ++ entry :: rest) := by
  simp only [staleImage, image, layout_append, layout, totalSize_append, totalSize, length_layout,
    lastAt_append, lastAt, append_assoc, Nat.add_assoc]

end Images

section Inserting

variable (unknown : Nat → UInt8) {length : Nat} {front rest : List Entry} {next : Entry}

theorem insertPrevlen_end (stored : Stored front) :
    insertPrevlen (image length front) (headerSize + totalSize front + endSize)
      (headerSize + totalSize front) = .ok (lastSize 0 front) := by
  rw [insertPrevlen, peek_image_end, ok_bind, ziplistTailOffset_image stored, ok_bind]
  cases eq_nil_or_concat front with
  | inl none =>
    subst none
    rw [show peek (image length []) (lastAt headerSize headerSize []) = .ok zipEnd from
      peek_image_end, ok_bind, if_neg (by simp)]
    rfl
  | inr some =>
    obtain ⟨others, last, shape⟩ := some
    rw [concat_eq_append] at shape
    subst shape
    obtain ⟨⟨byte, peeked, more⟩, -, -, -, found⟩ := @image_reads length others [] last stored
    have place : lastAt headerSize headerSize (others ++ [last]) = headerSize + totalSize others := by
      rw [lastAt_append]
      rfl
    rw [place, peeked, ok_bind, if_pos more, zipRawEntryLengthSafe, found, ok_bind,
      last.decoded_size, lastSize_append]
    rfl

theorem insertPrevlen_entry (stored : Stored (front ++ next :: rest)) (curlen : Nat) :
    insertPrevlen (image length (front ++ next :: rest)) curlen (headerSize + totalSize front) =
      .ok (lastSize 0 front) := by
  obtain ⟨⟨byte, peeked, more⟩, -, held, -⟩ := @image_reads length front rest next stored
  rw [insertPrevlen, peeked, ok_bind, if_pos more, held, ok_bind]
  rfl

/-- The entry behind the new one keeps a wide field where narrowing it would shrink the block. -/
theorem insertNextdiff_spec (stored : Stored (front ++ next :: rest)) (reqlen : Nat) :
    ∃ nextdiff forcelarge, ∃ adapted : Entry,
      insertNextdiff (image length (front ++ next :: rest)) (headerSize + totalSize front) reqlen =
        .ok (nextdiff, forcelarge) ∧
      adapted.value = next.value ∧ (adapted.prevWidth : Int) = next.prevWidth + nextdiff ∧
      (if forcelarge then prevlenLarge reqlen else prevlenBytes reqlen) =
        adapted.prevField reqlen ∧
      (adapted.wide = false → reqlen < zipBigPrevlen) ∧
      (nextdiff = 0 ∨ nextdiff = 4 ∨ nextdiff = -4 ∧ 4 ≤ reqlen) := by
  obtain ⟨⟨byte, peeked, more⟩, field, -⟩ := @image_reads length front rest next stored
  have difference : zipPrevLenByteDiff (image length (front ++ next :: rest))
      (headerSize + totalSize front) reqlen = .ok ((prevlenSize reqlen : Int) - next.prevWidth) := by
    rw [zipPrevLenByteDiff, field, ok_bind]
    rfl
  have width : next.prevWidth = if next.wide then 5 else 1 := rfl
  rw [insertNextdiff, peeked, ok_bind, if_pos more, difference, ok_bind]
  by_cases forced : (prevlenSize reqlen : Int) - next.prevWidth = -4 ∧ reqlen < 4
  · -- The field stays as wide as it is.
    rw [if_pos forced]
    have wide : next.wide = true := by
      by_contra narrow
      rw [if_neg narrow] at width
      omega
    refine ⟨0, true, next, rfl, rfl, by omega, ?_, ?_, .inl rfl⟩
    · simp [Entry.prevField, wide]
    · intro narrow
      rw [wide] at narrow
      cases narrow
  · rw [if_neg forced]
    refine ⟨_, false, Entry.tight reqlen next.value, rfl, rfl, ?_, ?_, Entry.tight_narrow, ?_⟩
    · rw [Entry.tight_prevWidth]
      omega
    · rw [Entry.tight_prevField]
      rfl
    · rcases prevlenSize_cases reqlen with small | large
      all_goals
        split at width
        all_goals omega

theorem lastAt_moved {p q size newSize : Nat} {difference : Int} {rest : List Entry}
    (sized : (newSize : Int) = size + difference) :
    lastAt q (q + newSize) rest + p =
      shift (lastAt p (p + size) rest + q) (if rest = [] then 0 else difference) := by
  by_cases none : rest = []
  · subst none
    simp [lastAt, shift]
    omega
  have left := lastAt_add q (q + newSize) (p + size) rest
  have right := lastAt_add p (p + size) (q + newSize) rest
  have same := lastAt_of_ne_nil none (q + (p + size)) (p + (q + newSize)) (q + newSize + (p + size))
  rw [Nat.add_comm (p + size) (q + newSize)] at right
  simp only [none, if_false, shift]
  omega

theorem Entry.size_of_same_value {next adapted : Entry} {difference : Int}
    (value : adapted.value = next.value)
    (width : (adapted.prevWidth : Int) = next.prevWidth + difference) :
    (adapted.size : Int) = next.size + difference := by
  rw [Entry.size, Entry.size, value]
  omega

theorem memmove_entry {next adapted : Entry} {before behind junk : Bytes}
    {prev p reqlen curlen : Nat} {nextdiff : Int} (start : p = before.length) (inFront : 10 ≤ p)
    (value : adapted.value = next.value)
    (width : (adapted.prevWidth : Int) = next.prevWidth + nextdiff)
    (room : (junk.length : Int) = reqlen + nextdiff)
    (current : p + next.size + behind.length + endSize = curlen) :
    ∃ slot moved : Bytes, slot.length = reqlen ∧
      memmove (before ++ (next.bytes prev ++ (behind ++ (junk ++ [zipEnd])))) (p + reqlen)
        (shift p (-nextdiff)) (shift (curlen - p - 1) nextdiff) = .ok moved ∧
      store moved (p + reqlen) (adapted.prevField reqlen) =
        .ok (before ++ (slot ++ (adapted.bytes reqlen ++ (behind ++ [zipEnd])))) := by
  have wide := adapted.prevWidth_le
  have sizes : next.size = next.prevWidth + next.value.body.length := rfl
  have newSizes := Entry.size_of_same_value value width
  have one : endSize = 1 := rfl
  -- What is moved starts with as many bytes as the new field needs, whatever they are.
  obtain ⟨ahead, hole, aheadCut, aheadSize, holeSize⟩ := @exists_parts
    (before ++ next.prevField prev) (shift p (-nextdiff)) adapted.prevWidth
    (by simp [shift, ← start]; omega)
  obtain ⟨slot, old, slotCut, slotSize, oldSize⟩ := @exists_parts
    (next.bytes prev ++ (behind ++ junk)) reqlen (adapted.size + behind.length) (by simp; omega)
  have source : before ++ (next.bytes prev ++ (behind ++ (junk ++ [zipEnd]))) =
      ahead ++ ((hole ++ (next.value.body ++ behind)) ++ (junk ++ [zipEnd])) := by
    simp only [Entry.bytes, append_assoc] at aheadCut ⊢
    rw [← append_assoc ahead, ← aheadCut]
    simp only [append_assoc]
  have destination : before ++ (next.bytes prev ++ (behind ++ (junk ++ [zipEnd]))) =
      (before ++ slot) ++ (old ++ [zipEnd]) := by
    have region := congrArg (· ++ [zipEnd]) slotCut
    simp only [append_assoc] at region ⊢
    rw [region]
  refine ⟨slot, _, slotSize, memmove_views source aheadSize.symm
    (by simp [holeSize, shift]; omega) destination (by simp [slotSize, start])
    (by simp [holeSize, oldSize]; omega), ?_⟩
  rw [append_assoc hole, store_middle (by simp [slotSize, start]) (by simp [holeSize])]
  simp [Entry.bytes, value]

/-- The entries behind the place make room, the first of them with a new field. -/
theorem openGap_eq {next adapted : Entry} {rest : List Entry} {lead junk : Bytes}
    {prev p reqlen curlen newlen : Nat} {nextdiff : Int} {forcelarge : Bool}
    (place : p = headerSize + lead.length) (fits : next.Fits prev) (newFits : adapted.Fits reqlen)
    (chain : Chain next.size rest) (value : adapted.value = next.value)
    (width : (adapted.prevWidth : Int) = next.prevWidth + nextdiff)
    (field : (if forcelarge then prevlenLarge reqlen else prevlenBytes reqlen) =
      adapted.prevField reqlen)
    (room : (junk.length : Int) = reqlen + nextdiff)
    (current : p + next.size + totalSize rest + endSize = curlen)
    (whole : p + reqlen + adapted.size + totalSize rest + endSize = newlen)
    (bounded : newlen < uint32Max) :
    ∃ slot : Bytes, slot.length = reqlen ∧
      openGap (header newlen (lastAt p (p + next.size) rest) length ++
          (lead ++ (next.bytes prev ++ (layout next.size rest ++ (junk ++ [zipEnd])))))
        curlen newlen p reqlen nextdiff forcelarge =
      .ok (staleImage length (lead ++ slot) adapted reqlen next.size rest) := by
  have limit : uint32Max + 1 = 256 ^ 4 := by decide
  have narrow := adapted.prevWidth_pos
  have oldWide := next.prevWidth_le
  have nextSize := next.two_le_size
  have inFront : 10 ≤ p := by simp only [headerSize] at place; omega
  have sizes := Entry.size_of_same_value value width
  have one : endSize = 1 := rfl
  generalize tailPlace : lastAt p (p + next.size) rest = tail
  have tailBound := lastAt_add_two_le rest (show p + 2 ≤ p + next.size by omega)
  have start : p = (header newlen tail length ++ lead).length := by simp [place]
  obtain ⟨byte, peeked, more⟩ := @peek_entry next prev (header newlen tail length ++ lead)
    (layout next.size rest ++ (junk ++ [zipEnd])) p start fits
  -- The field of the next entry is written, and the tail moves along.
  obtain ⟨slot, image, slotSize, moved, written⟩ := @memmove_entry next adapted
    (header newlen tail length ++ lead) (layout next.size rest) junk prev p reqlen curlen nextdiff
    start inFront value width room (by simpa using current)
  have entryPlace : p + reqlen =
      (header newlen (tail + reqlen) length ++ (lead ++ slot)).length := by
    simp [slotSize]
    omega
  have found := @assertEntry_eq adapted reqlen _ (layout next.size rest ++ [zipEnd]) _ entryPlace
    newFits newlen true (by omega) (by omega) (fun _ => by omega)
  obtain ⟨after, peekedAfter, ended⟩ := @peek_layout next.size (header newlen (tail + reqlen) length ++
    ((lead ++ slot) ++ adapted.bytes reqlen)) (p + reqlen + adapted.size)
    (by simp [slotSize]; omega) rest chain (by omega)
  simp only [append_assoc] at peeked moved written found peekedAfter
  have afterPlace := adapted.decoded_size reqlen (p + reqlen)
  have moved' := @lastAt_moved p (p + reqlen) next.size adapted.size nextdiff rest (by omega)
  refine ⟨slot, slotSize, ?_⟩
  rw [openGap, peeked, ok_bind, if_pos more, moved, ok_bind, field, written, ok_bind,
    ziplistTailOffset_header (by omega), ok_bind, setZiplistTailOffset_header, ok_bind, found,
    ok_bind, Nat.add_assoc (p + reqlen), afterPlace, peekedAfter, ok_bind]
  have result : staleImage length (lead ++ slot) adapted reqlen next.size rest =
      header newlen (lastAt (p + reqlen) (p + reqlen + adapted.size) rest) length ++ (lead ++
        (slot ++ (adapted.bytes reqlen ++ (layout next.size rest ++ [zipEnd])))) := by
    have base : headerSize + (lead ++ slot).length = p + reqlen := by
      simp [slotSize]
      omega
    simp only [staleImage, base, whole, append_assoc]
  rw [result]
  by_cases none : rest = []
  · rw [if_neg (fun more => more (ended.mpr none))]
    simp only [if_pos none, shift] at moved'
    have same : lastAt (p + reqlen) (p + reqlen + adapted.size) rest = tail + reqlen := by
      omega
    rw [same]
    rfl
  · rw [if_pos (fun last => none (ended.mp last)), ziplistTailOffset_header (by omega), ok_bind,
      setZiplistTailOffset_header]
    simp only [if_neg none, shift] at moved' ⊢
    have same : lastAt (p + reqlen) (p + reqlen + adapted.size) rest =
        ((tail + reqlen : Nat) + nextdiff).toNat := by omega
    rw [same]

theorem writeValue_eq {s slot before after : Bytes} {p : Nat} (start : p = before.length)
    (width : slot.length = (toValue s).body.length) :
    writeValue (before ++ (slot ++ after)) p s (chooseEncoding s).1 (chooseEncoding s).2.1 =
      .ok (before ++ ((toValue s).body ++ after)) := by
  obtain ⟨encoding, content, -⟩ := chooseEncoding_spec s
  rw [Value.body, length_append] at width
  obtain ⟨left, right, cut, leftSize, rightSize⟩ := exists_parts width
  rw [writeValue, encoding, cut, append_assoc, store_middle start leftSize.symm, ok_bind,
    content, ok_bind, ← append_assoc, store_middle (by simp [start]) rightSize.symm]
  simp [Value.body]

def countUp (length : Nat) : Nat := if length < uint16Max then length + 1 else length

theorem fillSlot_eq {s slot lead after : Bytes} {bytes tail prev p : Nat}
    (place : p = headerSize + lead.length) (counted : length < 256 ^ 2)
    (width : slot.length = (Entry.tight prev (toValue s)).size) :
    (do
      let zl ← store (header bytes tail length ++ (lead ++ (slot ++ after))) p (prevlenBytes prev)
      let zl ← writeValue zl (p + prevlenSize prev) s (chooseEncoding s).1 (chooseEncoding s).2.1
      ziplistIncrLength zl 1) =
    .ok (header bytes tail (countUp length) ++
      (lead ++ ((Entry.tight prev (toValue s)).bytes prev ++ after))) := by
  rw [Entry.size, Entry.tight_prevWidth] at width
  obtain ⟨field, others, cut, fieldSize, othersSize⟩ := exists_parts width
  have start : p = (header bytes tail length ++ lead).length := by simp [place]
  rw [cut, append_assoc, ← append_assoc (header bytes tail length),
    store_middle start (by rw [length_prevlenBytes, fieldSize]), ok_bind, ← append_assoc,
    writeValue_eq (by simp [start, length_prevlenBytes, Nat.add_assoc]) othersSize, ok_bind]
  simp only [append_assoc]
  rw [ziplistIncrLength_header 1 counted]
  simp only [Entry.bytes, Entry.tight_prevField, append_assoc, countUp, Entry.tight_value]
  rfl

/-- An insertion counts up, until the count no longer fits. -/
theorem Counts.up {peak entries : Nat} (counts : Counts peak length entries) :
    Counts (max peak (entries + 1)) (countUp length) (entries + 1) := by
  simp only [Counts, countUp] at *
  obtain ⟨most, rfl⟩ := counts
  refine ⟨Nat.le_max_right _ _, ?_⟩
  split_ifs <;> omega

variable {s : Bytes} {peak : Nat}

theorem _ziplistInsert_eq {zl : Bytes} {curlen p prev : Nat} {nextdiff : Int} {forcelarge : Bool}
    (bytes : ziplistBytes zl = .ok curlen) (previous : insertPrevlen zl curlen p = .ok prev)
    (next : insertNextdiff zl p (Entry.tight prev (toValue s)).size = .ok (nextdiff, forcelarge)) :
    _ziplistInsert unknown zl p s = (do
      let reqlen := (Entry.tight prev (toValue s)).size
      let zl ← ziplistResize unknown zl (shift (curlen + reqlen) nextdiff)
      let zl ← openGap zl curlen (shift (curlen + reqlen) nextdiff) p reqlen nextdiff forcelarge
      let zl ← (if nextdiff ≠ 0 then _ziplistCascadeUpdate unknown zl (p + reqlen) else .ok zl)
      let zl ← store zl p (prevlenBytes prev)
      let zl ← writeValue zl (p + prevlenSize prev) s (chooseEncoding s).1 (chooseEncoding s).2.1
      ziplistIncrLength zl 1) := by
  obtain ⟨encoding, -, contentSize⟩ := chooseEncoding_spec s
  rw [_ziplistInsert, bytes, ok_bind, previous, ok_bind]
  simp only [encoding, contentSize, ← Entry.tight_size, next, ok_bind]

theorem fits_tight {prev : Nat} (bounded : prev < 256 ^ 4)
    (small : (Entry.tight prev (toValue s)).size < 256 ^ 4) :
    (Entry.tight prev (toValue s)).Fits prev :=
  ⟨Entry.tight_narrow, bounded, fits_toValue (by rw [Entry.tight_size] at small; omega)⟩

theorem insert_end (stored : Stored front) (counts : Counts peak length front.length) :
    Meets (_ziplistInsert unknown (image length front) (headerSize + totalSize front) s)
      (TooLarge (headerSize + room (front.map Entry.value ++ [toValue s]) + endSize))
      fun zl => ∃ entries, entries.map Entry.value = front.map Entry.value ++ [toValue s] ∧
        Represents (max peak (front.length + 1)) zl entries := by
  have limit : uint32Max < 256 ^ 4 := by decide
  have previous := lastSize_le 0 front
  generalize fresh : Entry.tight (lastSize 0 front) (toValue s) = entry
  have values : (front ++ [entry]).map Entry.value = front.map Entry.value ++ [toValue s] := by
    simp [← fresh]
  have needed := totalSize_le_room (front ++ [entry])
  have total : totalSize (front ++ [entry]) = totalSize front + entry.size := by simp [totalSize]
  rw [values, total] at needed
  have unchanged : insertNextdiff (image length front) (headerSize + totalSize front)
      (Entry.tight (lastSize 0 front) (toValue s)).size = .ok (0, false) := by
    rw [insertNextdiff, peek_image_end, ok_bind, if_neg (by simp)]
    rfl
  have newlen : shift (headerSize + totalSize front + endSize + entry.size) 0 =
      headerSize + totalSize front + endSize + entry.size := by
    unfold shift
    omega
  rw [_ziplistInsert_eq unknown (ziplistBytes_image stored) (insertPrevlen_end stored) unchanged]
  simp only [fresh, newlen]
  refine Meets.bind ((ziplistResize_grow unknown (by simp)).permit ?_) ?_
  · intro fault large
    exact large.mono (by omega)
  rintro zl ⟨small, junk, junkSize, ⟨more, ended⟩, shape⟩
  simp only [length_layout] at junkSize
  -- The old end is still found where the new entry goes.
  have gap : openGap zl (headerSize + totalSize front + endSize)
      (headerSize + totalSize front + endSize + entry.size) (headerSize + totalSize front)
      entry.size 0 false = .ok (header (headerSize + totalSize front + endSize + entry.size)
        (headerSize + totalSize front) length ++ (layout 0 front ++ (junk ++ [zipEnd]))) := by
    have found : peek zl (headerSize + totalSize front) = .ok zipEnd := by
      rw [shape, ended, ← append_assoc]
      exact peek_middle (by simp)
    rw [openGap, found, ok_bind, if_neg (by simp), shape, setZiplistTailOffset_header]
  rw [gap, ok_bind, if_neg (by simp), ok_bind,
    fillSlot_eq (by simp) counts.bounded (by rw [fresh]; omega), fresh]
  have fits := @fits_tight s (lastSize 0 front) (by omega) (by rw [fresh]; omega)
  rw [fresh] at fits
  refine ⟨front ++ [entry], values, ⟨countUp length, ?_, ?_⟩, ?_, by omega⟩
  · simp only [image, lastAt_append, layout_append, layout, append_assoc]
    congr 2
    omega
  · simpa using counts.up
  · exact Chain.append.mpr ⟨stored.chain, ⟨fits.narrow, fits.value⟩, trivial⟩

theorem insert_entry (stored : Stored (front ++ next :: rest))
    (counts : Counts peak length (front ++ next :: rest).length) :
    Meets (_ziplistInsert unknown (image length (front ++ next :: rest))
        (headerSize + totalSize front) s)
      (TooLarge (headerSize +
        room (front.map Entry.value ++ toValue s :: (next :: rest).map Entry.value) + endSize))
      fun zl => ∃ entries, entries.map Entry.value =
          front.map Entry.value ++ toValue s :: (next :: rest).map Entry.value ∧
        Represents (max peak ((front ++ next :: rest).length + 1)) zl entries := by
  have limit : uint32Max < 256 ^ 4 := by decide
  have bounded := stored.bounded
  obtain ⟨frontChain, nextChain, restChain⟩ := Chain.append.mp stored.chain
  obtain ⟨nextFits, inside, -⟩ := entry_facts stored
  have previous := nextFits.bounded
  generalize fresh : Entry.tight (lastSize 0 front) (toValue s) = entry
  have entryValue : entry.value = toValue s := by simp [← fresh]
  -- The sizes: the new entry, and the next one with a field for the size of the new one.
  obtain ⟨nextdiff, forcelarge, adapted, unchanged, value, width, field, narrow, difference⟩ :=
    @insertNextdiff_spec length front rest next stored entry.size
  rw [_ziplistInsert_eq unknown (ziplistBytes_image stored) (insertPrevlen_entry stored _)
    (fresh ▸ unchanged), fresh, image, layout_append, layout, lastAt_append, lastAt]
  have total : totalSize (front ++ next :: rest) = totalSize front + (next.size + totalSize rest) :=
    totalSize_append ..
  have sizes := Entry.size_of_same_value value width
  have sized := next.two_le_size
  have needed := totalSize_le_room (front ++ entry :: adapted :: rest)
  have fewer := totalSize_le_room (front ++ [entry, adapted])
  simp only [totalSize_append, totalSize, map_append] at needed fewer
  simp only [map_cons, map_nil, room_append, room, entryValue, value] at needed fewer ⊢
  generalize whole : headerSize + totalSize (front ++ next :: rest) + endSize = curlen at *
  generalize place : headerSize + totalSize front = p at *
  have newlen : shift (curlen + entry.size) nextdiff =
      p + entry.size + adapted.size + totalSize rest + endSize := by
    simp only [shift]
    omega
  simp only [newlen]
  refine Meets.bind ((ziplistResize_grow unknown (by simp; omega)).permit
    fun fault large => large.mono (by omega)) ?_
  rintro zl ⟨small, junk, junkSize, _, shape⟩
  have entryFits := @fits_tight s (lastSize 0 front) previous (by rw [fresh]; omega)
  have newFits : adapted.Fits entry.size := ⟨narrow, by omega, value ▸ nextFits.value⟩
  rw [fresh] at entryFits
  simp only [append_assoc] at shape
  simp only [length_append, length_layout, Entry.length_bytes] at junkSize
  obtain ⟨slot, slotSize, gap⟩ := @openGap_eq length next adapted rest (layout 0 front) junk
    (lastSize 0 front) p entry.size curlen _ nextdiff forcelarge (by simp [place]) nextFits newFits
    restChain value width field (by omega) (by omega) rfl small
  rw [shape, gap, ok_bind]
  -- The entries behind the next one are settled before the new entry is written.
  have behind : p + entry.size = headerSize + (layout 0 front ++ slot).length := by
    simp only [length_append, length_layout]
    omega
  have settled := @cascadeIfChanged_meets unknown length entry.size next.size
    (layout 0 front ++ slot) adapted rest nextdiff newFits restChain (by omega) (by omega)
    (by omega) (by omega)
  rw [behind]
  refine Meets.bind (settled.permit fun fault large => large.mono (by omega)) ?_
  rintro zl ⟨rest', shape, restChain', values, small'⟩
  rw [shape, staleImage, ← behind, append_assoc,
    fillSlot_eq (by simp [place]) counts.bounded (by rw [fresh, slotSize]), fresh]
  refine ⟨front ++ entry :: adapted :: rest', by simp [entryValue, value, values],
    ⟨countUp length, ?_, ?_⟩, ?_, ?_⟩
  · simp only [image, totalSize_append, totalSize, lastAt_append, layout_append, layout,
      append_assoc, place]
    congr 2
    omega
  · have more := counts.up
    have same := congrArg List.length values
    simp only [length_map] at same
    simpa [same, Nat.add_assoc] using more
  · exact Chain.append.mpr ⟨frontChain, ⟨entryFits.narrow, entryFits.value⟩,
      ⟨newFits.narrow, newFits.value⟩, restChain'⟩
  · simp only [totalSize_append, totalSize]
    omega

/-- Insertion puts the value at its place and keeps the other values, or the block is too large. -/
theorem _ziplistInsert_meets {zl : Bytes} {back : List Entry}
    (represented : Represents peak zl (front ++ back)) :
    Meets (_ziplistInsert unknown zl (headerSize + totalSize front) s)
      (TooLarge (headerSize +
        room (front.map Entry.value ++ toValue s :: back.map Entry.value) + endSize))
      fun zl => ∃ entries, entries.map Entry.value =
          front.map Entry.value ++ toValue s :: back.map Entry.value ∧
        Represents (max peak ((front ++ back).length + 1)) zl entries := by
  have stored := represented.stored
  obtain ⟨⟨length, shape, counts⟩, -, -⟩ := represented
  rw [shape]
  cases back with
  | nil =>
    rw [append_nil] at *
    exact insert_end unknown stored counts
  | cons next rest => exact insert_entry unknown stored counts

end Inserting

end LearningNotes.Ziplist
