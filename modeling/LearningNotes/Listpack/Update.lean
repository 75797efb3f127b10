import LearningNotes.Listpack.Traverse

/-! Inserting, replacing and deleting elements of a listpack. -/

namespace LearningNotes.Listpack

open Lib Lib.Memory Util List

section Updates

variable {unknown : Nat → UInt8} {slack : Nat → Nat} {lp : Bytes} {numele : Nat}
  {front rest : List Bytes}

theorem lpRealloc_keeps {kept spare : Bytes} {size : Nat} (room : kept.length ≤ size) :
    ∃ fresh : Bytes, lpRealloc unknown slack (kept ++ spare) size = kept ++ fresh ∧
      size ≤ (kept ++ fresh).length := by
  obtain ⟨fresh, shape, enough⟩ := resizeTo_eq_take unknown (kept ++ spare) (size + slack size)
  rw [length_append] at enough
  refine ⟨(spare ++ fresh).take (size + slack size - kept.length), ?_, ?_⟩
  · rw [lpRealloc, shape, append_assoc, take_append, take_of_length_le (by omega)]
  · rw [length_append, length_take, length_append]
    omega

theorem lpNew_stands (capacity : Nat) :
    ∃ lp, lpNew unknown slack capacity = .ok lp ∧ Stands lp 0 [] := by
  obtain ⟨spare, shape, room⟩ := @lpRealloc_keeps unknown slack [] []
    (max capacity (headerSize + 1)) (Nat.zero_le _)
  simp only [nil_append] at shape room
  have enough : headerSize + 1 ≤ spare.length := Nat.le_trans (Nat.le_max_right ..) room
  -- The fresh block is cut into the fields of the header, the end and what is behind it.
  obtain ⟨total, others, first, totalLength⟩ := @exists_cut spare 4 (by rw [headerSize] at enough; omega)
  have left := congrArg List.length first
  rw [length_append] at left
  obtain ⟨count, others, second, countLength⟩ := @exists_cut others 2
    (by rw [headerSize] at enough; omega)
  have left' := congrArg List.length second
  rw [length_append] at left'
  obtain ⟨last, others, third, lastLength⟩ := @exists_cut others 1
    (by rw [headerSize] at enough; omega)
  have setTotal : lpSetTotalBytes (total ++ (count ++ (last ++ others))) (headerSize + 1) =
      .ok (littleEndian 4 (headerSize + 1) ++ (count ++ (last ++ others))) :=
    @store_middle [] _ _ _ _ rfl (by simp [totalLength])
  have setCount : lpSetNumElements
      (littleEndian 4 (headerSize + 1) ++ (count ++ (last ++ others))) 0 =
        .ok (littleEndian 4 (headerSize + 1) ++ (littleEndian 2 0 ++ (last ++ others))) :=
    store_middle (by simp) (by simp [countLength])
  have setEnd : store (header (headerSize + 1) 0 ++ (last ++ others)) headerSize [lpEof] =
      .ok (header (headerSize + 1) 0 ++ ([lpEof] ++ others)) :=
    store_middle (by simp) (by simp [lastLength])
  refine ⟨image 0 [] ++ others, ?_, ⟨others, rfl⟩, by decide, by decide⟩
  rw [lpNew, shape, first, second, third, setTotal, ok_bind, setCount, ok_bind, ← append_assoc, ← header,
    setEnd]
  simp [image, listpackBytes, entries]

def entryOf : Option Bytes → Bytes
  | some s => entry s
  | none => []

theorem entries_toList (ele : Option Bytes) : entries ele.toList = entryOf ele := by
  cases ele with
  | some s => simp [entries, entryOf]
  | none => rfl

theorem length_entryOf (ele : Option Bytes) :
    (entryOf ele).length = enclenOf ele + (backlenOf ele).length := by
  cases ele with
  | some s =>
    simp only [entryOf, enclenOf, backlenOf, lpEncodeGetType_length, length_entry, entrySize_eq]
  | none => rfl

theorem totalSize_toList (ele : Option Bytes) : totalSize ele.toList = (entryOf ele).length := by
  rw [← length_entries, entries_toList]

theorem listpackBytes_toList (front rest : List Bytes) (ele : Option Bytes) :
    listpackBytes (front ++ (ele.toList ++ rest)) =
      offset front + (entryOf ele).length + (entries rest ++ [lpEof]).length := by
  simp [listpackBytes, offset, totalSize_toList]
  omega

theorem moveTail_eq {old new : Option Bytes}
    (stands : Stands lp numele (front ++ (old.toList ++ rest))) :
    ∃ fresh spare, moveTail unknown slack lp (offset front) (entryOf new).length
        (entryOf old).length (listpackBytes (front ++ (old.toList ++ rest)))
        (listpackBytes (front ++ (new.toList ++ rest))) =
          .ok ((header (listpackBytes (front ++ (old.toList ++ rest))) numele ++ entries front) ++
            (fresh ++ ((entries rest ++ [lpEof]) ++ spare))) ∧
      fresh.length = (entryOf new).length := by
  obtain ⟨spare, shape⟩ := stands.shape
  have oldSize := listpackBytes_toList front rest old
  have newSize := listpackBytes_toList front rest new
  generalize moved : entries rest ++ [lpEof] = tail at oldSize newSize ⊢
  generalize listpackBytes (front ++ (new.toList ++ rest)) = newBytes at newSize ⊢
  have view : lp = (header (listpackBytes (front ++ (old.toList ++ rest))) numele ++
      entries front) ++ (entryOf old ++ (tail ++ spare)) := by
    rw [shape, image, ← moved, entries_append, entries_append, entries_toList]
    simp
  generalize listpackBytes (front ++ (old.toList ++ rest)) = oldBytes at oldSize view ⊢
  have start : (header oldBytes numele ++ entries front).length = offset front := by simp [offset]
  generalize header oldBytes numele ++ entries front = before at start view ⊢
  -- Growing may need a larger block, which starts with the same bytes.
  have grown : ∃ spare, (if oldBytes < newBytes ∧ lp.length < newBytes
      then lpRealloc unknown slack lp newBytes else lp) =
        before ++ (entryOf old ++ (tail ++ spare)) ∧
      newBytes ≤ (before ++ (entryOf old ++ (tail ++ spare))).length := by
    split
    · obtain ⟨spare, kept, room⟩ := @lpRealloc_keeps unknown slack
        (before ++ (entryOf old ++ tail)) spare newBytes
        (by simp only [length_append]; omega)
      refine ⟨spare, ?_, by simpa using room⟩
      rw [view]
      simpa using kept
    · refine ⟨spare, view, ?_⟩
      rw [← view]
      have length := congrArg List.length view
      simp only [length_append] at length
      omega
  obtain ⟨spare, enlarged, room⟩ := grown
  simp only [length_append] at room
  obtain ⟨fresh, others, shifted, width, left⟩ := @memmove_gap before spare tail
    (offset front + (entryOf old).length) (oldBytes - offset front - (entryOf old).length)
    (entryOf old) (offset front + (entryOf new).length) (entryOf new).length (by omega) (by omega)
    (by omega) (by omega)
  rw [moveTail, enlarged, shifted, ok_bind]
  -- Shrinking gives up what is behind the end.
  split
  · obtain ⟨spare, kept, -⟩ := @lpRealloc_keeps unknown slack (before ++ (fresh ++ tail)) others
      newBytes (by simp only [length_append]; omega)
    refine ⟨fresh, spare, ?_, width⟩
    simp only [append_assoc] at kept ⊢
    rw [kept]
    rfl
  · exact ⟨fresh, others, rfl, width⟩

variable {ele new : Option Bytes} {replace : Bool} {s : Bytes}

theorem storeEntry_eq {before fresh after : Bytes} {p : Nat} (start : p = before.length)
    (room : fresh.length = (entryOf ele).length) :
    storeEntry (before ++ (fresh ++ after)) p ele = .ok (before ++ (entryOf ele ++ after)) := by
  cases ele with
  | none =>
    have nothing : fresh = [] := eq_nil_of_length_eq_zero room
    rw [nothing]
    rfl
  | some s =>
    simp only [entryOf, length_entry, entrySize_eq] at room
    obtain ⟨first, second, cut, width, width'⟩ := exists_parts room
    have encoded : store (before ++ (first ++ (second ++ after))) p (encodedElement s) =
        .ok (before ++ (encodedElement s ++ (second ++ after))) :=
      store_middle start width.symm
    have backlen : store ((before ++ encodedElement s) ++ (second ++ after))
        (p + (encodedElement s).length) (lpEncodeBacklen (encodedElement s).length) =
          .ok ((before ++ encodedElement s) ++
            (lpEncodeBacklen (encodedElement s).length ++ after)) :=
      store_middle (by simp [start]) width'.symm
    rw [storeEntry, cut, append_assoc, encoded, ok_bind, lpEncodeGetType_length,
      ← append_assoc, backlen, entryOf, entry]
    simp

/-- The count after an update, unless it is unknown. -/
def numeleAfter (numele : Nat) (replace : Bool) (ele : Option Bytes) : Nat :=
  if replace ∧ ele ≠ none then numele
  else if numele = numeleUnknown then numele
  else
    match ele with
    | some _ => numele + 1
    | none => numele - 1

theorem updateNumElements_eq {bytes : Nat} {others : Bytes} (field : numele ≤ numeleUnknown) :
    updateNumElements (header bytes numele ++ others) replace ele =
      .ok (header bytes (numeleAfter numele replace ele) ++ others) := by
  have fits : numele < 256 ^ 2 := Nat.lt_of_le_of_lt field (by decide)
  rw [updateNumElements, numeleAfter.eq_def]
  by_cases kept : replace ∧ ele ≠ none
  · rw [if_neg (by simpa using kept), if_pos kept]
    rfl
  have counted : ¬ replace = true ∨ ele = none := by
    cases replace <;> simp_all
  rw [if_pos counted, if_neg kept, lpGetNumElements_header fits, ok_bind]
  by_cases lost : numele = numeleUnknown
  · rw [if_neg (by simpa using lost), if_pos lost]
    rfl
  · rw [if_pos lost, if_neg lost]
    cases ele with
    | some s => exact lpSetNumElements_header _
    | none => exact lpSetNumElements_header _

theorem numeleAfter_le (field : numele ≤ numeleUnknown) :
    numeleAfter numele replace ele ≤ numeleUnknown := by
  unfold numeleAfter
  split
  · exact field
  · split
    · exact field
    · cases ele with
      | some s => exact Nat.lt_of_le_of_ne field ‹_›
      | none => exact Nat.le_trans (Nat.sub_le ..) field

theorem insertAt_eq {old : Option Bytes} (stands : Stands lp numele (front ++ (old.toList ++ rest)))
    (small : listpackBytes (front ++ (new.toList ++ rest)) ≤ uint32Max) :
    ∃ updated, (do
      let lp ← moveTail unknown slack lp (offset front) (enclenOf new + (backlenOf new).length)
        (entryOf old).length (listpackBytes (front ++ (old.toList ++ rest)))
        (listpackBytes (front ++ (new.toList ++ rest)))
      let newp ← newpOf lp (offset front) new
      let lp ← storeEntry lp (offset front) new
      let lp ← updateNumElements lp replace new
      let lp ← lpSetTotalBytes lp (listpackBytes (front ++ (new.toList ++ rest)))
      return ⟨lp, false, newp⟩) =
        (.ok ⟨updated, false, pointerTo front (new.toList ++ rest)⟩ : Except Fault Inserted) ∧
      Stands updated (numeleAfter numele replace new) (front ++ (new.toList ++ rest)) := by
  obtain ⟨fresh, spare, moved, room⟩ :=
    @moveTail_eq unknown slack lp numele front rest old new stands
  have start : offset front =
      (header (listpackBytes (front ++ (old.toList ++ rest))) numele ++ entries front).length := by
    simp [offset]
  have fits : ∀ s ∈ rest, (toElement s).Fits := fun s listed => by
    obtain ⟨left, right, split⟩ := append_of_mem listed
    have here : Stands lp numele ((front ++ (old.toList ++ left)) ++ s :: right) := by
      rw [split] at stands
      simpa using stands
    exact here.inside.2.2
  -- The pointer returned is computed before the entry is stored.
  have pointer : newpOf ((header (listpackBytes (front ++ (old.toList ++ rest))) numele ++
      entries front) ++ (fresh ++ ((entries rest ++ [lpEof]) ++ spare))) (offset front) new =
        .ok (pointerTo front (new.toList ++ rest)) := by
    cases new with
    | some s => rfl
    | none =>
      have nothing : fresh = [] := eq_nil_of_length_eq_zero room
      obtain ⟨byte, peeked, ended⟩ := @peek_entries _ spare (offset front) rest start fits
      rw [nothing, newpOf, nil_append, append_assoc (entries rest),
        singleton_append, peeked, ok_bind, pointerTo]
      simp only [ended, Option.toList_none, nil_append]
      rfl
  refine ⟨image (numeleAfter numele replace new) (front ++ (new.toList ++ rest)) ++ spare, ?_,
    ⟨spare, rfl⟩, small, numeleAfter_le stands.field⟩
  rw [← length_entryOf, moved, ok_bind, pointer, ok_bind, storeEntry_eq start room, ok_bind,
    append_assoc, updateNumElements_eq stands.field, ok_bind, lpSetTotalBytes_header, image,
    entries_append, entries_append, entries_toList]
  simp only [append_assoc]
  rfl

theorem replacedLen_replace (stands : Stands lp numele (front ++ s :: rest)) :
    replacedLen lp (offset front) true = .ok (entrySize s) := by
  obtain ⟨within, small, -⟩ := stands.inside
  have inside : (decide (headerSize ≤ offset front) &&
      decide (offset front + entrySize s < listpackBytes (front ++ s :: rest))) = true := by
    have low : headerSize ≤ offset front := Nat.le_add_right ..
    simp [low, within]
  have asserted : assertIntegrityLen lp (offset front) (entrySize s) = .ok () := by
    rw [assertIntegrityLen, stands.lpGetTotalBytes_eq, ok_bind, inside, assert_true rfl]
  rw [replacedLen, stands.decodes.2, ok_bind, ← entrySize_eq, Nat.mod_eq_of_lt (by omega)]
  dsimp only
  rw [asserted, ok_bind]
  rfl

/-- What `lpInsert` does to strings at a position. -/
structure Splices (lp : Bytes) (numele : Nat) (front : List Bytes) (new : Option Bytes)
    (rest : List Bytes) (replace : Bool) (computation : Except Fault Inserted) : Prop where
  /-- The result would be too large: nothing changes. -/
  refused : uint32Max < listpackBytes (front ++ (new.toList ++ rest)) →
    computation = .ok ⟨lp, true, none⟩
  done : listpackBytes (front ++ (new.toList ++ rest)) ≤ uint32Max → ∃ updated,
    computation = .ok ⟨updated, false, pointerTo front (new.toList ++ rest)⟩ ∧
      Stands updated (numeleAfter numele replace new) (front ++ (new.toList ++ rest))

/-- `lpInsert` from the point of insertion on, for all uses. -/
theorem Stands.splices {old new : Option Bytes} {where_ : Where} {p : Nat}
    (stands : Stands lp numele (front ++ (old.toList ++ rest)))
    (point : insertionPoint lp p (if new = none then .replace else where_) =
      .ok (offset front, old.isSome)) :
    Splices lp numele front new rest old.isSome (lpInsert unknown slack lp new p where_) := by
  have oldSize := listpackBytes_toList front rest old
  have newSize := listpackBytes_toList front rest new
  have replaced : replacedLen lp (offset front) old.isSome = .ok (entryOf old).length := by
    cases old with
    | none => rfl
    | some s => exact replacedLen_replace (by simpa using stands)
  have size : listpackBytes (front ++ (old.toList ++ rest)) + enclenOf new +
      (backlenOf new).length - (entryOf old).length =
        listpackBytes (front ++ (new.toList ++ rest)) := by
    have length := length_entryOf new
    omega
  have unfolded : lpInsert unknown slack lp new p where_ =
      if uint32Max < listpackBytes (front ++ (new.toList ++ rest)) then .ok ⟨lp, true, none⟩
      else do
        let lp ← moveTail unknown slack lp (offset front) (enclenOf new + (backlenOf new).length)
          (entryOf old).length (listpackBytes (front ++ (old.toList ++ rest)))
          (listpackBytes (front ++ (new.toList ++ rest)))
        let newp ← newpOf lp (offset front) new
        let lp ← storeEntry lp (offset front) new
        let lp ← updateNumElements lp old.isSome new
        let lp ← lpSetTotalBytes lp (listpackBytes (front ++ (new.toList ++ rest)))
        return ⟨lp, false, newp⟩ := by
    rw [lpInsert, point, ok_bind]
    dsimp only
    rw [stands.lpGetTotalBytes_eq, ok_bind, replaced, ok_bind, size]
    rfl
  refine ⟨fun large => ?_, fun small => ?_⟩
  · rw [unfolded, if_pos large]
  · rw [unfolded, if_neg (by omega)]
    exact insertAt_eq stands small

theorem Stands.lpInsert_before {s : Bytes} (stands : Stands lp numele (front ++ rest)) :
    Splices lp numele front (some s) rest false
      (lpInsert unknown slack lp (some s) (offset front) .before) :=
  @Stands.splices unknown slack lp numele front rest none (some s) .before _ stands rfl

theorem Stands.lpInsert_after {s other : Bytes} (stands : Stands lp numele (front ++ other :: rest)) :
    Splices lp numele (front ++ [other]) (some s) rest false
      (lpInsert unknown slack lp (some s) (offset front) .after) := by
  have onward : Stands lp numele ((front ++ [other]) ++ rest) := by simpa using stands
  have inside : (decide (headerSize ≤ offset (front ++ [other])) &&
      decide (offset (front ++ [other]) < listpackBytes (front ++ other :: rest))) = true := by
    have low : headerSize ≤ offset (front ++ [other]) := Nat.le_add_right ..
    have high := stands.inside.1
    rw [← offset_append] at high
    simp [low, high]
  refine @Stands.splices unknown slack lp numele _ rest none (some s) .after _ onward ?_
  rw [if_neg (by simp), insertionPoint, stands.lpSkip_eq, ok_bind, assertIntegrity,
    stands.lpGetTotalBytes_eq, ok_bind, inside, assert_true rfl, ok_bind]
  rfl

theorem Stands.lpInsert_replace {other : Bytes} {where_ : Where}
    (stands : Stands lp numele (front ++ other :: rest)) (kind : new = none ∨ where_ = .replace) :
    Splices lp numele front new rest true
      (lpInsert unknown slack lp new (offset front) where_) := by
  refine @Stands.splices unknown slack lp numele front rest (some other) new where_ _
    (by simpa using stands) ?_
  have replacing : (if new = none then Where.replace else where_) = .replace := by
    rcases kind with gone | asked
    · rw [if_pos gone]
    · rw [asked, ite_self]
  rw [replacing]
  rfl

theorem Stands.lpAppend_eq {strings : List Bytes} (stands : Stands lp numele strings) :
    Splices lp numele strings (some s) [] false (lpAppend unknown slack lp s) := by
  have whole : Stands lp numele (strings ++ []) := by rwa [append_nil]
  have appended := @Stands.lpInsert_before unknown slack lp numele strings [] s whole
  have last : listpackBytes strings - 1 = offset strings := rfl
  rw [lpAppend, stands.lpGetTotalBytes_eq, ok_bind, last]
  exact appended

end Updates

end LearningNotes.Listpack
