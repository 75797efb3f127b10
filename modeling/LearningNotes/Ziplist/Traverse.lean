import LearningNotes.Ziplist.Insert

/-! Finding the entries of a ziplist by their index, and reading them one after the other. -/

namespace LearningNotes.Ziplist

open Lib Util List

section Walking

variable {length : Nat} {front back rest : List Entry} {entry : Entry}

theorem peek_image (stored : Stored (front ++ back)) :
    ∃ byte, peek (image length (front ++ back)) (headerSize + totalSize front) = .ok byte ∧
      (byte = zipEnd ↔ back = []) := by
  cases back with
  | nil =>
    rw [append_nil]
    exact ⟨zipEnd, peek_image_end, by simp⟩
  | cons entry rest =>
    obtain ⟨⟨byte, peeked, more⟩, -⟩ := @image_reads length front rest entry stored
    exact ⟨byte, peeked, by simp [more]⟩

theorem indexForward_eq {index : Nat} {front back : List Entry} (stored : Stored (front ++ back))
    (some : back ≠ [] ∨ index = 0) :
    indexForward (image length (front ++ back))
        (headerSize + totalSize (front ++ back) + endSize) index (headerSize + totalSize front) =
      .ok (headerSize + totalSize (front ++ back.take index)) := by
  induction index generalizing front back with
  | zero =>
    simp [indexForward]
  | succ index ih =>
    cases back with
    | nil => simp at some
    | cons entry rest =>
      obtain ⟨-, -, -, -, found⟩ := @image_reads length front rest entry stored
      have next := append_cons front entry rest
      have place := place_next front entry
      obtain ⟨byte, peeked, ended⟩ := @peek_image length (front ++ [entry]) rest (next ▸ stored)
      rw [← next] at peeked
      rw [indexForward, zipRawEntryLengthSafe, found]
      simp only [ok_bind, pure_bind, entry.decoded_size, place, peeked]
      by_cases none : rest = []
      · rw [if_pos (ended.mpr none), none]
        simp
        rfl
      · have onward := ih (next ▸ stored) (.inl none)
        rw [if_neg (fun last => none (ended.mp last)), next, onward]
        simp

theorem indexBackward_eq {index : Nat} {front rest : List Entry} {entry : Entry}
    (stored : Stored (front ++ entry :: rest)) :
    indexBackward (image length (front ++ entry :: rest))
        (headerSize + totalSize (front ++ entry :: rest) + endSize) index
        (headerSize + totalSize front) (lastSize 0 front) =
      .ok (headerSize + totalSize (front.take (front.length - index)), index - front.length) := by
  -- Each step goes back by the length that the entry at hand has recorded.
  induction index generalizing front rest entry with
  | zero =>
    simp [indexBackward]
  | succ index ih =>
    cases eq_nil_or_concat front with
    | inl none =>
      subst none
      simp [indexBackward, lastSize]
    | inr some =>
      obtain ⟨others, last, shape⟩ := some
      rw [concat_eq_append] at shape
      subst shape
      have view : (others ++ [last]) ++ entry :: rest = others ++ last :: (entry :: rest) := by simp
      have size : lastSize 0 (others ++ [last]) = last.size := by
        rw [lastSize_append]
        rfl
      have positive := last.two_le_size
      have total : totalSize (others ++ [last]) = totalSize others + last.size := by
        simp [totalSize]
      have back : headerSize + totalSize (others ++ [last]) - last.size =
          headerSize + totalSize others := by omega
      rw [view] at stored ⊢
      obtain ⟨-, -, found, -⟩ := @image_reads length others (entry :: rest) last stored
      have whole : totalSize (others ++ last :: entry :: rest) =
          totalSize others + (last.size + totalSize (entry :: rest)) := by
        rw [totalSize_append, totalSize]
      have inside : decide (headerSize + last.size ≤ headerSize + totalSize (others ++ [last]) ∧
          headerSize + totalSize others <
            headerSize + totalSize (others ++ last :: entry :: rest) + endSize - endSize) = true := by
        apply decide_eq_true
        omega
      rw [indexBackward, size, if_neg (by omega), back, inside, assert, if_pos rfl, ok_bind, found,
        ok_bind]
      simp only [ih stored]
      simp [take_append]

/-- The position of an index, counted from the end if it is negative. -/
def position (length : Nat) (index : Int) : Option Nat :=
  if 0 ≤ index then if index < length then some index.toNat else none
  else if -index ≤ length then some (length - (-index).toNat) else none

theorem position_lt {length index : Nat} {given : Int} (found : position length given = some index) :
    index < length := by
  unfold position at found
  split at found
  all_goals
    split at found
    all_goals cases found
    all_goals omega

theorem checkedEntry_eq (stored : Stored (front ++ back)) (left : Nat) :
    (do
      if (← peek (image length (front ++ back)) (headerSize + totalSize front)) = zipEnd ∨ 0 < left
        then return none
      else
        let _ ← assertEntry (image length (front ++ back))
          (headerSize + totalSize (front ++ back) + endSize) (headerSize + totalSize front) true
        return some (headerSize + totalSize front)) =
      (.ok (if back = [] ∨ 0 < left then none else some (headerSize + totalSize front)) :
        Except Fault (Option Nat)) := by
  obtain ⟨byte, peeked, ended⟩ := @peek_image length front back stored
  rw [peeked, ok_bind]
  by_cases none : back = [] ∨ 0 < left
  · rw [if_pos (by rwa [ended]), if_pos none]
    rfl
  rw [if_neg (by rwa [ended]), if_neg none]
  cases back with
  | nil => simp at none
  | cons entry rest =>
    obtain ⟨-, -, -, -, found⟩ := @image_reads length front rest entry stored
    rw [found, ok_bind]
    rfl

/-- An index from either end leads to its entry, or to none. -/
theorem ziplistIndex_eq {entries : List Entry} {index : Int} (stored : Stored entries)
    (some : entries ≠ [] ∨ index ≤ 0) :
    ziplistIndex (image length entries) index =
      .ok ((position entries.length index).map fun i =>
        headerSize + totalSize (entries.take i)) := by
  rw [ziplistIndex, ziplistBytes_image stored, ok_bind]
  by_cases forward : 0 ≤ index
  · have walked := @indexForward_eq length index.toNat [] entries stored
      (some.imp id fun low => by omega)
    have checked := @checkedEntry_eq length (entries.take index.toNat) (entries.drop index.toNat)
      (by rwa [take_append_drop]) 0
    rw [take_append_drop] at checked
    simp only [nil_append, totalSize, Nat.add_zero] at walked
    rw [if_neg (by omega), indexFromHead, walked, ok_bind]
    refine checked.trans ?_
    simp only [position, if_pos forward, drop_eq_nil_iff]
    by_cases inside : index < entries.length
    · rw [if_neg (by omega), if_pos inside]
      rfl
    · rw [if_pos (by omega), if_neg inside]
      rfl
  · rw [if_pos (by omega), indexFromTail, ziplistTailOffset_image stored, ok_bind]
    cases eq_nil_or_concat entries with
    | inl none =>
      have peeked : peek (image length []) headerSize = .ok zipEnd := peek_image_end
      subst none
      have outside : position ([] : List Entry).length index = Option.none := by
        rw [position, if_neg forward, if_neg (by simp; omega)]
      rw [lastAt, peeked, ok_bind, if_neg (by simp), outside]
      rfl
    | inr more =>
      obtain ⟨front, last, shape⟩ := more
      rw [concat_eq_append] at shape
      subst shape
      obtain ⟨⟨byte, peeked, more⟩, width, found, -⟩ :=
        @image_reads length front [] last stored
      have place : lastAt headerSize headerSize (front ++ [last]) = headerSize + totalSize front := by
        rw [lastAt_append]
        rfl
      have inside : decide (headerSize + totalSize front + last.prevWidth <
          headerSize + totalSize (front ++ [last]) + endSize - endSize) = true := by
        have header := last.value.header_pos
        apply decide_eq_true
        simp only [totalSize_append, totalSize, Entry.size, Value.body, length_append]
        omega
      have walked := @indexBackward_eq length (-index - 1).toNat front [] last stored
      rw [place, peeked, ok_bind, if_pos more, width, ok_bind, inside, assert, if_pos rfl, found,
        ok_bind]
      simp only [walked, ok_bind]
      -- The walk ends in front of the entry with the given index, or at the head.
      generalize count : front.length - (-index - 1).toNat = reached
      have taken : (front ++ [last]).take reached = front.take reached :=
        take_append_of_le_length (by omega)
      have checked := @checkedEntry_eq length (front.take reached) ((front ++ [last]).drop reached)
        (by rwa [← taken, take_append_drop])
        ((-index - 1).toNat - front.length)
      rw [← taken, take_append_drop, taken] at checked
      refine checked.trans ?_
      have more : (front ++ [last]).drop reached ≠ [] := by
        simp [drop_eq_nil_iff]
        omega
      simp only [position, if_neg forward, more, false_or, length_append, length_singleton]
      by_cases enough : -index ≤ front.length + 1
      · rw [if_neg (by omega), if_pos (by simpa using enough)]
        simp only [Option.map_some]
        rw [show front.length + 1 - (-index).toNat = reached by omega, taken]
      · rw [if_pos (by omega), if_neg (by simpa using enough)]
        rfl

theorem image_content (length : Nat) (front rest : List Entry) (entry : Entry) :
    ∃ before, headerSize + totalSize front +
        (entry.decoded (lastSize 0 front) (headerSize + totalSize front)).headersize =
          before.length ∧
      image length (front ++ entry :: rest) =
        before ++ (entry.value.content ++ (layout entry.size rest ++ [zipEnd])) := by
  -- In front of it are the other entries, the prevlen field and the encoding.
  obtain ⟨before, start, view⟩ := image_entry length front entry rest
  refine ⟨before ++ (entry.prevField (lastSize 0 front) ++ entry.value.header), ?_, ?_⟩
  · simp [Entry.decoded, start]
  · rw [view]
    simp only [Entry.bytes, Value.body, append_assoc]

theorem image_str {s : Bytes} (kind : entry.value = .str s) :
    let found := entry.decoded (lastSize 0 front) (headerSize + totalSize front)
    zipIsStr found.encoding = true ∧ found.len = s.length ∧
      load (image length (front ++ entry :: rest)) (headerSize + totalSize front + found.headersize)
        s.length = .ok s := by
  intro found
  obtain ⟨before, place, content⟩ := image_content length front rest entry
  rw [kind] at content
  refine ⟨?_, ?_, ?_⟩
  · simp only [found, Entry.decoded, kind]
    exact zipIsStr_encoding_str s
  · simp only [found, Entry.decoded, kind]
    rfl
  · rw [content]
    exact load_middle place rfl

theorem image_int {number : Int} (kind : entry.value = .int number) (bound : InLong number) :
    let found := entry.decoded (lastSize 0 front) (headerSize + totalSize front)
    zipIsStr found.encoding = false ∧
      zipLoadInteger (image length (front ++ entry :: rest))
        (headerSize + totalSize front + found.headersize) found.encoding = .ok number := by
  intro found
  obtain ⟨before, place, content⟩ := image_content length front rest entry
  have encoding : found.encoding = zipIntEncoding number := by
    simp only [found, Entry.decoded, kind, Value.encoding]
  rw [encoding]
  refine ⟨(zipIntEncoding_valid number).2.1, ?_⟩
  rw [content, kind]
  exact zipLoadInteger_eq bound place

/-- The value at an entry reads back. -/
theorem ziplistGet_eq (stored : Stored (front ++ entry :: rest)) :
    ziplistGet (image length (front ++ entry :: rest)) (headerSize + totalSize front) =
      .ok (some entry.value) := by
  obtain ⟨⟨byte, peeked, more⟩, -, -, found, -⟩ :=
    @image_reads length front rest entry stored
  obtain ⟨fits, -⟩ := entry_facts stored
  rw [ziplistGet, peeked, ok_bind, if_neg more, found, ok_bind]
  cases kind : entry.value with
  | str s =>
    obtain ⟨string, len, loaded⟩ := @image_str length front rest entry s kind
    rw [if_pos string, len, loaded, ok_bind]
    rfl
  | int number =>
    have bound : InLong number := by
      have known := fits.value
      rwa [kind] at known
    obtain ⟨integer, loaded⟩ := @image_int length front rest entry number kind bound
    rw [if_neg (by rw [integer]; exact Bool.false_ne_true), loaded, ok_bind]
    rfl

theorem ziplistNext_eq (stored : Stored (front ++ entry :: rest)) :
    ziplistNext (image length (front ++ entry :: rest)) (headerSize + totalSize front) =
      .ok (if rest = [] then none else some (headerSize + totalSize (front ++ [entry]))) := by
  obtain ⟨⟨byte, peeked, more⟩, -, -, found, -⟩ :=
    @image_reads length front rest entry stored
  have view := append_cons front entry rest
  have place := place_next front entry
  have checked := @checkedEntry_eq length (front ++ [entry]) rest (view ▸ stored) 0
  simp only [Nat.lt_irrefl, or_false, ← view] at checked
  rw [ziplistNext, ziplistBytes_image stored, ok_bind, peeked, ok_bind, if_neg more,
    zipRawEntryLength, found]
  simp only [ok_bind, pure_bind, entry.decoded_size, place]
  exact checked

theorem readFrom_eq {rest : List Entry} {front : List Entry} {entry : Entry} {fuel : Nat}
    (stored : Stored (front ++ entry :: rest)) (fueled : rest.length < fuel) :
    readFrom (image length (front ++ entry :: rest)) fuel (some (headerSize + totalSize front)) =
      .ok ((entry :: rest).map fun entry => entry.value.bytes) := by
  induction rest generalizing front entry fuel with
  | nil =>
    obtain ⟨fuel, rfl⟩ := Nat.exists_eq_succ_of_ne_zero (Nat.ne_zero_of_lt fueled)
    rw [readFrom, ziplistGet_eq stored, ziplistNext_eq stored]
    simp only [ok_bind, if_true, readFrom]
    rfl
  | cons next rest ih =>
    obtain ⟨fuel, rfl⟩ := Nat.exists_eq_succ_of_ne_zero (Nat.ne_zero_of_lt fueled)
    have view : front ++ entry :: next :: rest = (front ++ [entry]) ++ next :: rest := by simp
    have onward := @ih (front ++ [entry]) next fuel (view ▸ stored) (by simp at fueled; omega)
    rw [← view] at onward
    rw [readFrom, ziplistGet_eq stored, ziplistNext_eq stored]
    simp only [ok_bind, cons_ne_nil, if_false, onward]
    rfl

end Walking

/-- Reading all entries gives the strings of the list. -/
theorem Represents.readAll_eq {peak : Nat} {zl : Bytes} {entries : List Entry}
    (represented : Represents peak zl entries) :
    readAll zl = .ok (entries.map fun entry => entry.value.bytes) := by
  have stored := represented.stored
  obtain ⟨length, shape, -⟩ := represented.shape
  have many := two_mul_length_le_totalSize entries
  rw [readAll, shape, ziplistIndex_eq stored (.inr (Int.le_refl 0)), ok_bind]
  cases entries with
  | nil => rfl
  | cons entry rest =>
    have first : position (entry :: rest).length 0 = some 0 := by
      rw [position, if_pos (Int.le_refl 0), if_pos (by simp)]
      rfl
    have read := @readFrom_eq length rest [] entry (image length (entry :: rest)).length stored
      (by simp at many ⊢; omega)
    rw [first]
    exact read

end LearningNotes.Ziplist
