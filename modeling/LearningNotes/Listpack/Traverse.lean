import LearningNotes.Listpack.Decode

/-! Walking over the elements of a listpack in both directions, and finding them by index. -/

namespace LearningNotes.Listpack

open Lib Lib.Memory Util List

structure Stands (lp : Bytes) (numele : Nat) (strings : List Bytes) : Prop where
  shape : ∃ spare, lp = image numele strings ++ spare
  bounded : listpackBytes strings ≤ uint32Max
  field : numele ≤ numeleUnknown

/-- Where the entry behind the strings starts. -/
def offset (front : List Bytes) : Nat := headerSize + totalSize front

theorem offset_append (front : List Bytes) (s : Bytes) :
    offset (front ++ [s]) = offset front + entrySize s := by
  simp [offset, Nat.add_assoc]

section Walking

variable {lp : Bytes} {numele : Nat} {strings front rest : List Bytes} {s : Bytes}

theorem Stands.cut {back : List Bytes} (stands : Stands lp numele (front ++ back)) :
    ∃ before spare, lp = before ++ (entries back ++ lpEof :: spare) ∧
      before.length = offset front := by
  obtain ⟨spare, shape⟩ := stands.shape
  refine ⟨header (listpackBytes (front ++ back)) numele ++ entries front, spare, ?_, ?_⟩
  · rw [shape, image, entries_append]
    simp
  · simp [offset]

theorem Stands.lpGetTotalBytes_eq (stands : Stands lp numele strings) :
    lpGetTotalBytes lp = .ok (listpackBytes strings) := by
  obtain ⟨spare, shape⟩ := stands.shape
  rw [shape, image, append_assoc]
  exact lpGetTotalBytes_header (Nat.lt_of_le_of_lt stands.bounded (by decide))

theorem Stands.lpGetNumElements_eq (stands : Stands lp numele strings) :
    lpGetNumElements lp = .ok numele := by
  obtain ⟨spare, shape⟩ := stands.shape
  rw [shape, image, append_assoc]
  exact lpGetNumElements_header (Nat.lt_of_le_of_lt stands.field (by decide))

section Standing

variable (stands : Stands lp numele (front ++ s :: rest))
include stands

theorem Stands.inside :
    offset front + entrySize s < listpackBytes (front ++ s :: rest) ∧
      listpackBytes (front ++ s :: rest) < 2 ^ 32 ∧ (toElement s).Fits := by
  have bounded := stands.bounded
  have within : offset front + entrySize s < listpackBytes (front ++ s :: rest) := by
    simp only [offset, listpackBytes, totalSize_append, totalSize_cons]
    omega
  have small : listpackBytes (front ++ s :: rest) < 2 ^ 32 := by
    simp only [uint32Max] at bounded
    omega
  exact ⟨within, small, length_lt_of_entrySize (by omega)⟩

theorem Stands.decodes :
    Decodes lp (offset front) (toElement s) ∧
      lpCurrentEncodedSizeUnsafe lp (offset front) = .ok (encodedElement s).length := by
  obtain ⟨before, spare, shape, start⟩ := stands.cut
  obtain ⟨within, small, fits⟩ := stands.inside
  have size := entrySize_eq s
  have found : Decodes lp (offset front) (toElement s) := by
    rw [shape, entries, entry, encodedElement_eq, append_assoc, append_assoc]
    exact decodes_encoded start.symm fits
  refine ⟨found, ?_⟩
  rw [encodedElement_eq]
  exact found.size (by rw [← encodedElement_eq]; omega)

/-- The element at an entry is the string that was put there. -/
theorem Stands.lpGet_eq : lpGet lp (offset front) = .ok s := by
  rw [lpGet, stands.decodes.1.get, ok_bind, bytes_toElement]
  rfl

theorem Stands.lpSkip_eq : lpSkip lp (offset front) = .ok (offset (front ++ [s])) := by
  rw [lpSkip, stands.decodes.2, ok_bind, offset_append, entrySize_eq]
  rfl

theorem Stands.lpDecodeBacklen_eq :
    lpDecodeBacklen lp (offset front + entrySize s - 1) = .ok (encodedElement s).length := by
  obtain ⟨before, spare, shape, start⟩ := stands.cut
  obtain ⟨within, small, -⟩ := stands.inside
  have size := entrySize_eq s
  have view : lp = (before ++ encodedElement s) ++
      (lpEncodeBacklen (encodedElement s).length ++ (entries rest ++ lpEof :: spare)) := by
    rw [shape, entries, entry]
    simp
  have place : offset front + entrySize s - 1 = (before ++ encodedElement s).length +
      (lpEncodeBacklen (encodedElement s).length).length - 1 := by
    rw [length_append]
    omega
  rw [place, view]
  exact LearningNotes.Listpack.lpDecodeBacklen_eq (by omega)

theorem Stands.lpValidateNext_eq :
    lpValidateNext lp (some (offset front)) (listpackBytes (front ++ s :: rest)) =
      .ok (some (some (offset (front ++ [s])))) := by
  obtain ⟨found, sized⟩ := stands.decodes
  obtain ⟨byte, peeked, more⟩ := found.more
  obtain ⟨lenbytes, counted, positive, short⟩ := found.lenbytes
  obtain ⟨within, small, -⟩ := stands.inside
  have size := entrySize_eq s
  have low : headerSize ≤ offset front := Nat.le_add_right ..
  rw [← encodedElement_eq] at short
  -- Every pointer that is checked lies within the entry or just behind it.
  have inRange : ∀ p, offset front ≤ p → p ≤ offset front + entrySize s →
      outOfRange (listpackBytes (front ++ s :: rest)) p = false := by
    simp only [outOfRange, Bool.or_eq_false_iff, decide_eq_false_iff_not]
    omega
  rw [lpValidateNext, inRange _ (by omega) (by omega), if_neg Bool.false_ne_true, peeked, ok_bind,
    if_neg more, counted, ok_bind, if_neg (by omega), inRange _ (by omega) (by omega),
    if_neg Bool.false_ne_true, sized, ok_bind]
  dsimp only
  rw [← size, inRange _ (by omega) (by omega), if_neg Bool.false_ne_true,
    stands.lpDecodeBacklen_eq, ok_bind, ← size, Nat.mod_eq_of_lt (by omega),
    if_neg (by simp), offset_append]
  rfl

theorem Stands.lpAssertValidEntry_eq :
    lpAssertValidEntry lp (listpackBytes (front ++ s :: rest)) (offset front) = .ok () := by
  rw [lpAssertValidEntry, stands.lpValidateNext_eq, ok_bind, Option.isSome_some, assert_true rfl]

end Standing

theorem peek_entries {before spare : Bytes} {p : Nat} {back : List Bytes}
    (start : p = before.length) (fits : ∀ s ∈ back, (toElement s).Fits) :
    ∃ byte, peek (before ++ (entries back ++ lpEof :: spare)) p = .ok byte ∧
      (byte = lpEof ↔ back = []) := by
  cases back with
  | nil => exact ⟨lpEof, peek_middle start, by simp⟩
  | cons s rest =>
    have found : Decodes (before ++ (entries (s :: rest) ++ lpEof :: spare)) p (toElement s) := by
      rw [entries, entry, encodedElement_eq, append_assoc, append_assoc]
      exact decodes_encoded start (fits s (by simp))
    obtain ⟨byte, peeked, more⟩ := found.more
    exact ⟨byte, peeked, by simp [more]⟩

theorem Stands.peek_eq {back : List Bytes} (stands : Stands lp numele (front ++ back)) :
    ∃ byte, peek lp (offset front) = .ok byte ∧ (byte = lpEof ↔ back = []) := by
  obtain ⟨before, spare, shape, start⟩ := stands.cut
  rw [shape]
  refine peek_entries start.symm fun s listed => ?_
  obtain ⟨left, right, rfl⟩ := append_of_mem listed
  have here : Stands lp numele ((front ++ left) ++ s :: right) := by simpa using stands
  exact here.inside.2.2

/-- The pointer to the first of the strings, if there is one. -/
def pointerTo (front back : List Bytes) : Option Nat :=
  if back = [] then none else some (offset front)

/-- Every step ends at the end mark or checks the entry that it came to. -/
theorem Stands.checked {back : List Bytes} (stands : Stands lp numele (front ++ back)) :
    (do
      if (← peek lp (offset front)) = lpEof then return none
      else
        lpAssertValidEntry lp (← lpBytes lp) (offset front)
        return some (offset front)) =
      (.ok (pointerTo front back) : Except Fault (Option Nat)) := by
  obtain ⟨byte, peeked, ended⟩ := stands.peek_eq
  rw [peeked, ok_bind, pointerTo]
  by_cases none_ : back = []
  · rw [if_pos (ended.mpr none_), if_pos none_]
    rfl
  · rw [if_neg (fun last => none_ (ended.mp last)), if_neg none_]
    obtain ⟨s, rest, rfl⟩ := exists_cons_of_ne_nil none_
    rw [lpBytes, stands.lpGetTotalBytes_eq, ok_bind, stands.lpAssertValidEntry_eq, ok_bind]
    rfl

theorem Stands.lpFirst_eq (stands : Stands lp numele strings) :
    lpFirst lp = .ok (pointerTo [] strings) := by
  have whole : Stands lp numele ([] ++ strings) := stands
  exact whole.checked

theorem Stands.lpNext_eq (stands : Stands lp numele (front ++ s :: rest)) :
    lpNext lp (offset front) = .ok (pointerTo (front ++ [s]) rest) := by
  have onward : Stands lp numele ((front ++ [s]) ++ rest) := by simpa using stands
  rw [lpNext, stands.lpSkip_eq, ok_bind]
  exact onward.checked

theorem lpPrev_first : lpPrev lp (offset []) = .ok none := by
  have start : offset [] = headerSize := rfl
  rw [lpPrev, if_pos start]
  rfl

/-- The length behind the previous entry leads back to its start. -/
theorem Stands.lpPrev_eq (stands : Stands lp numele (front ++ s :: rest)) :
    lpPrev lp (offset (front ++ [s])) = .ok (some (offset front)) := by
  obtain ⟨within, small, -⟩ := stands.inside
  have size := entrySize_eq s
  have positive := two_le_entrySize s
  have low : headerSize ≤ offset front := Nat.le_add_right ..
  rw [lpPrev, offset_append, if_neg (by omega)]
  dsimp only
  rw [stands.lpDecodeBacklen_eq, ok_bind, ← size, Nat.mod_eq_of_lt (by omega), if_neg (by omega),
    lpBytes, stands.lpGetTotalBytes_eq, ok_bind,
    show offset front + entrySize s - 1 - (entrySize s - 1) = offset front by omega,
    stands.lpAssertValidEntry_eq, ok_bind]
  rfl

theorem Stands.lpLast_eq (stands : Stands lp numele strings) :
    lpLast lp = lpPrev lp (offset strings) := by
  rw [lpLast, stands.lpGetTotalBytes_eq, ok_bind]
  rfl

theorem Stands.seekForward_eq {index : Nat} :
    ∀ {front back : List Bytes}, Stands lp numele (front ++ back) →
      seekForward lp index (pointerTo front back) =
        .ok (pointerTo (front ++ back.take index) (back.drop index)) := by
  induction index with
  | zero =>
    simp [seekForward]
  | succ index ih =>
    intro front back stands
    cases back with
    | nil => rfl
    | cons s rest =>
      have onward : Stands lp numele ((front ++ [s]) ++ rest) := by simpa using stands
      rw [pointerTo, if_neg (cons_ne_nil s rest), seekForward, stands.lpNext_eq, ok_bind, ih onward]
      simp

theorem Stands.seekBackward_eq {index : Nat} {front back : List Bytes}
    (stands : Stands lp numele (front ++ back)) :
    (do seekBackward lp index (← lpPrev lp (offset front))) =
      .ok (if index < front.length then some (offset (front.take (front.length - index - 1)))
        else none) := by
  -- The induction is on the number of steps: each one takes the last string off the front.
  induction index generalizing front back with
  | zero =>
    cases eq_nil_or_concat front with
    | inl none_ =>
      subst none_
      rw [lpPrev_first]
      rfl
    | inr some_ =>
      obtain ⟨others, last, shape⟩ := some_
      rw [concat_eq_append] at shape
      subst shape
      have here : Stands lp numele (others ++ last :: back) := by simpa using stands
      rw [here.lpPrev_eq]
      simp [seekBackward]
  | succ index ih =>
    cases eq_nil_or_concat front with
    | inl none_ =>
      subst none_
      rw [lpPrev_first]
      rfl
    | inr some_ =>
      obtain ⟨others, last, shape⟩ := some_
      rw [concat_eq_append] at shape
      subst shape
      have here : Stands lp numele (others ++ last :: back) := by simpa using stands
      rw [here.lpPrev_eq, ok_bind, seekBackward, ih here]
      simp only [length_append, length_singleton, Nat.add_lt_add_iff_right]
      congr 3
      rw [take_append_of_le_length (by omega)]
      congr 2
      omega

/-- The string of an index, counted from the end if it is negative. -/
def position (length : Nat) (index : Int) : Option Nat :=
  if 0 ≤ index then if index < length then some index.toNat else none
  else if -index ≤ length then some (length - (-index).toNat) else none

theorem position_eq_some {length i : Nat} {index : Int} :
    position length index = some i ↔ i < length ∧ (index = i ∨ index = (i : Int) - length) := by
  unfold position
  split
  all_goals
    split
    all_goals simp only [Option.some.injEq, reduceCtorEq, false_iff]
    all_goals omega

theorem position_eq_none {length : Nat} {index : Int} :
    position length index = none ↔ index < -(length : Int) ∨ (length : Int) ≤ index := by
  unfold position
  split
  all_goals
    split
    all_goals simp only [reduceCtorEq, true_iff, false_iff]
    all_goals omega

section

variable (stands : Stands lp numele strings)
include stands

theorem Stands.seekTo_eq (index : Int) :
    seekTo lp index = .ok ((position strings.length index).map fun i =>
      offset (strings.take i)) := by
  rw [seekTo, position]
  by_cases backward : index < 0
  · have whole : Stands lp numele (strings ++ []) := by rwa [append_nil]
    have walked := @Stands.seekBackward_eq lp numele (-index - 1).toNat _ _ whole
    rw [if_pos backward, if_neg (by omega), stands.lpLast_eq, walked]
    by_cases enough : -index ≤ strings.length
    · rw [if_pos (by omega), if_pos enough, Option.map_some]
      congr 4
      omega
    · rw [if_neg (by omega), if_neg enough]
      rfl
  · have walked := @Stands.seekForward_eq lp numele index.toNat [] strings stands
    rw [if_neg backward, if_pos (by omega), stands.lpFirst_eq, ok_bind, walked, pointerTo]
    by_cases inside : index < strings.length
    · rw [if_pos inside, if_neg (by simp; omega)]
      rfl
    · rw [if_neg inside, if_pos (by simp; omega)]
      rfl

/-- The count field holds the number of strings, or is unknown. -/
def Counts (numele length : Nat) : Prop := numele = length ∨ numele = numeleUnknown

/-- Seeking from either end reaches the entry at the index, or none. -/
theorem Stands.lpSeek_eq (counts : Counts numele strings.length) (index : Int) :
    lpSeek lp index = .ok ((position strings.length index).map fun i =>
      offset (strings.take i)) := by
  rw [lpSeek, stands.lpGetNumElements_eq, ok_bind]
  by_cases known : numele ≠ numeleUnknown
  · have length : numele = strings.length := counts.resolve_right known
    rw [if_pos known, length]
    generalize shifted : (if index < 0 then (strings.length : Int) + index else index) = normal
    by_cases low : normal < 0
    · have outside : position strings.length index = none := by
        rw [position_eq_none]
        split at shifted <;> omega
      rw [if_pos low, outside]
      rfl
    -- The normalized index stands for the same string.
    have same : position strings.length index = position strings.length normal := by
      ext i
      rw [position_eq_some, position_eq_some]
      split at shifted <;> omega
    rw [if_neg low, same]
    by_cases high : (strings.length : Int) ≤ normal
    · rw [if_pos high, position_eq_none.mpr (.inr high)]
      rfl
    rw [if_neg high]
    split
    · -- So does the one counted from the end.
      have back : position strings.length (normal - strings.length) =
          position strings.length normal := by
        ext i
        rw [position_eq_some, position_eq_some]
        omega
      rw [stands.seekTo_eq, back]
    · exact stands.seekTo_eq normal
  · rw [if_neg known]
    exact stands.seekTo_eq index

omit stands in
theorem Stands.countFrom_eq {back : List Bytes} {front : List Bytes} {fuel count : Nat}
    (stands : Stands lp numele (front ++ back)) (fueled : back.length ≤ fuel) :
    countFrom lp fuel (pointerTo front back) count = .ok (count + back.length) := by
  induction back generalizing front fuel count with
  | nil => cases fuel <;> rfl
  | cons s rest ih =>
    have onward : Stands lp numele ((front ++ [s]) ++ rest) := by simpa using stands
    obtain ⟨fuel, rfl⟩ : ∃ left, fuel = left + 1 := ⟨fuel - 1, by simp at fueled; omega⟩
    rw [pointerTo, if_neg (cons_ne_nil s rest), countFrom, stands.lpNext_eq, ok_bind,
      ih onward (by simpa using fueled), length_cons]
    congr 1
    omega

theorem Stands.lpSetNumElements_eq {count : Nat} (small : count ≤ numeleUnknown) :
    ∃ updated, lpSetNumElements lp count = .ok updated ∧ Stands updated count strings := by
  obtain ⟨spare, shape⟩ := stands.shape
  refine ⟨image count strings ++ spare, ?_, ⟨⟨spare, rfl⟩, stands.bounded, small⟩⟩
  simp only [shape, image, append_assoc, lpSetNumElements_header]

/-- Counting stores the count when the header has room for it. -/
theorem Stands.lpLength_eq (counts : Counts numele strings.length) :
    ∃ updated, lpLength lp = .ok (strings.length, updated) ∧
      Stands updated (if strings.length < numeleUnknown then strings.length else numele) strings := by
  rw [lpLength, stands.lpGetNumElements_eq, ok_bind]
  by_cases known : numele ≠ numeleUnknown
  · have length : numele = strings.length := counts.resolve_right known
    rw [if_pos known, ← length, ite_self]
    exact ⟨lp, rfl, stands⟩
  have whole : Stands lp numele ([] ++ strings) := stands
  have few : strings.length ≤ lp.length := by
    obtain ⟨spare, shape⟩ := stands.shape
    have entries := length_le_totalSize strings
    rw [shape]
    simp [listpackBytes]
    omega
  have counted := @Stands.countFrom_eq lp numele strings [] lp.length 0 whole few
  rw [if_neg known, stands.lpFirst_eq, ok_bind, counted, ok_bind, Nat.zero_add]
  by_cases small : strings.length < numeleUnknown
  · obtain ⟨updated, stored, kept⟩ := stands.lpSetNumElements_eq (Nat.le_of_lt small)
    rw [if_pos small, if_pos small, stored]
    exact ⟨updated, rfl, kept⟩
  · rw [if_neg small, if_neg small]
    exact ⟨lp, rfl, stands⟩

end

end Walking

end LearningNotes.Listpack
