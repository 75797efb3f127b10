import LearningNotes.Ziplist.Insert

/-! Deleting a range of entries, and replacing one. -/

namespace LearningNotes.Ziplist

open Lib Util List
open Entry (value)

/-- As many entries as asked for, or all there are. -/
def Removes (num : Nat) (removed back : List Entry) : Prop :=
  removed.length = num ∨ removed.length < num ∧ back = []

theorem skipEntries_eq {removed back : List Entry} {zlbytes num deleted prev p : Nat}
    {before : Bytes} (start : p = before.length) (first : headerSize ≤ p)
    (chain : Chain prev (removed ++ back)) (bounded : prev < 256 ^ 4) (limit : zlbytes < 256 ^ 4)
    (whole : p + totalSize (removed ++ back) + endSize = zlbytes)
    (removes : Removes num removed back) :
    skipEntries (before ++ (layout prev (removed ++ back) ++ [zipEnd])) zlbytes num p deleted =
      .ok (p + totalSize removed, deleted + removed.length) := by
  induction removed generalizing num deleted prev p before with
  | nil =>
    rcases removes with done | ⟨more, none⟩
    · subst done
      rfl
    -- The loop ends early, at the end of the ziplist.
    obtain ⟨num, rfl⟩ := Nat.exists_eq_succ_of_ne_zero (Nat.ne_zero_of_lt more)
    subst none
    rw [skipEntries]
    simp only [nil_append, layout, peek_middle start, ok_bind, if_true]
    rfl
  | cons entry rest ih =>
    obtain ⟨num, rfl⟩ : ∃ smaller, num = smaller + 1 := by
      refine Nat.exists_eq_succ_of_ne_zero ?_
      rcases removes with done | ⟨more, -⟩
      · simp [← done]
      · exact Nat.ne_zero_of_lt more
    have removes : Removes num rest back := by
      simpa [Removes] using removes
    have fits : entry.Fits prev := ⟨chain.1.1, bounded, chain.1.2⟩
    simp only [cons_append, totalSize] at whole
    obtain ⟨byte, peeked, more⟩ := @peek_entry entry prev before
      (layout entry.size (rest ++ back) ++ [zipEnd]) p start fits
    have found := @assertEntry_eq entry prev before (layout entry.size (rest ++ back) ++ [zipEnd]) p
      start fits zlbytes false first (by omega) (fun impossible => Bool.noConfusion impossible)
    have skipped := @ih num (deleted + 1) entry.size (p + entry.size) (before ++ entry.bytes prev)
      (by simp [start]) (by omega) chain.2 (by omega) (by omega) removes
    rw [append_assoc] at skipped
    rw [cons_append, layout, append_assoc, skipEntries, peeked, ok_bind, if_neg more,
      zipRawEntryLengthSafe, found]
    simp only [ok_bind, pure_bind, entry.decoded_size]
    rw [skipped]
    simp only [totalSize, length_cons]
    congr 2 <;> omega

/-- The offset of the last entry once the gap is closed: only an entry behind the one after the
gap moves by the change of that one's size as well. -/
theorem lastAt_closed {p totlen size newSize : Nat} {difference : Int} {after : UInt8}
    {rest : List Entry} (sized : (newSize : Int) = size + difference)
    (ended : after = zipEnd ↔ rest = []) :
    shift (lastAt (p + totlen) (p + totlen + size) rest - totlen)
        (if after ≠ zipEnd then difference else 0) = lastAt p (p + newSize) rest := by
  have moves := @lastAt_moved (p + totlen) p size newSize difference rest sized
  have low := le_lastAt_of_le rest (Nat.le_add_right (p + totlen) size)
  by_cases last : rest = []
  · rw [if_neg (fun more => more (ended.mpr last))]
    simp only [if_pos last, shift] at moves ⊢
    omega
  · rw [if_pos (fun stops => last (ended.mp stops))]
    simp only [if_neg last, shift] at moves ⊢
    omega

/-- The field of the entry after the gap is written so that it ends where the old one does. -/
theorem store_field {prev stale p : Nat} {lead gone tail : Bytes} {next : Entry} {nextdiff : Int}
    (place : p = lead.length + gone.length)
    (differs : (prevlenSize prev : Int) - next.prevWidth = nextdiff)
    (enough : nextdiff ≤ gone.length) :
    ∃ ahead : Bytes, ahead.length = shift gone.length (-nextdiff) ∧
      shift p (-nextdiff) = lead.length + ahead.length ∧
      store (lead ++ (gone ++ (next.bytes stale ++ tail))) (lead.length + ahead.length)
        (prevlenBytes prev) =
        .ok ((lead ++ ahead) ++ ((Entry.tight prev next.value).bytes prev ++ tail)) := by
  obtain ⟨ahead, hole, cut, aheadSize, holeSize⟩ := @exists_parts (gone ++ next.prevField stale)
    (shift gone.length (-nextdiff)) (prevlenSize prev) (by simp [shift]; omega)
  refine ⟨ahead, aheadSize, ?_, ?_⟩
  · rw [aheadSize]
    simp only [shift]
    omega
  rw [show lead ++ (gone ++ (next.bytes stale ++ tail)) =
      (lead ++ ahead) ++ (hole ++ (next.value.body ++ tail)) by
    rw [Entry.bytes, append_assoc (next.prevField stale), ← append_assoc gone, cut]
    simp only [append_assoc]]
  rw [store_middle (by simp) (by rw [length_prevlenBytes, holeSize]), Entry.bytes,
    Entry.tight_prevField, append_assoc (prevlenBytes prev)]
  rfl

theorem closeGap_eq {prev stale p totlen zlbytes : Nat} {lead gone : Bytes} {next : Entry}
    {rest : List Entry} {first : Zlentry} (firstPlace : first.p = p)
    (firstPrev : first.prevrawlen = prev) (place : p = lead.length) (inside : headerSize + prev ≤ p)
    (tailOffset : ∀ bytes, ziplistTailOffset (lead ++ bytes) =
      .ok (lastAt (p + totlen) (p + totlen + next.size) rest))
    (goneSize : gone.length = totlen) (fits : next.Fits stale) (chain : Chain next.size rest)
    (enough : zipBigPrevlen ≤ prev → 4 ≤ totlen)
    (whole : p + totlen + next.size + totalSize rest + endSize = zlbytes)
    (bounded : zlbytes < uint32Max) :
    let adapted := Entry.tight prev next.value
    ∃ leftover : Bytes, ∃ nextdiff : Int,
      closeGap (lead ++ (gone ++ (next.bytes stale ++ (layout next.size rest ++ [zipEnd])))) zlbytes
          first (p + totlen) totlen =
        .ok (lead ++ ((adapted.bytes prev ++ layout next.size rest) ++ leftover), nextdiff,
          lastAt p (p + adapted.size) rest) ∧
      (adapted.size : Int) = next.size + nextdiff ∧
      (nextdiff = 0 ∨ nextdiff = 4 ∨ nextdiff = -4) := by
  intro adapted
  have limit : uint32Max + 1 = 256 ^ 4 := by decide
  have one : endSize = 1 := rfl
  have newFits : adapted.Fits prev := ⟨Entry.tight_narrow, by omega, fits.value⟩
  have newWidth : adapted.prevWidth = prevlenSize prev := Entry.tight_prevWidth
  have widths := prevlenSize_cases prev
  have width : next.prevWidth = if next.wide then 5 else 1 := rfl
  have sizes : next.size = next.prevWidth + next.value.body.length := rfl
  have newSizes : adapted.size = adapted.prevWidth + next.value.body.length := rfl
  generalize differs : (prevlenSize prev : Int) - next.prevWidth = nextdiff
  have difference : nextdiff = 0 ∨ nextdiff = 4 ∨ nextdiff = -4 := by
    split at width <;> omega
  have start : p + totlen = (lead ++ gone).length := by simp [place, goneSize]
  obtain ⟨byte, peeked, more⟩ := @peek_entry next stale (lead ++ gone)
    (layout next.size rest ++ [zipEnd]) _ start fits
  have compared : zipPrevLenByteDiff ((lead ++ gone) ++ (next.bytes stale ++
      (layout next.size rest ++ [zipEnd]))) (p + totlen) prev = .ok nextdiff := by
    rw [zipPrevLenByteDiff, decodePrevlensize_eq start fits, ok_bind, differs]
    rfl
  obtain ⟨ahead, aheadSize, moved, written⟩ := @store_field prev stale (p + totlen) lead gone
    (layout next.size rest ++ [zipEnd]) next nextdiff (by omega) differs (by omega)
  rw [← place] at moved written
  change _ = Except.ok ((lead ++ ahead) ++ (adapted.bytes prev ++ _)) at written
  simp only [shift, goneSize] at aheadSize
  have found := @assertEntry_eq adapted prev (lead ++ ahead) (layout next.size rest ++ [zipEnd])
    (p + ahead.length) (by simp [place]) newFits zlbytes true (by omega) (by omega)
    (fun _ => by omega)
  obtain ⟨after, peekedAfter, ended⟩ := @peek_layout next.size ((lead ++ ahead) ++
    adapted.bytes prev) (p + ahead.length + adapted.size) (by simp [place, Nat.add_assoc])
    rest chain (by omega)
  -- Everything from there on is moved to where the deleted entries started.
  obtain ⟨none, leftover, closed, noneSize, -⟩ := @memmove_gap lead [zipEnd]
    (adapted.bytes prev ++ layout next.size rest) (p + ahead.length)
    (zlbytes - (p + ahead.length) - 1) ahead [] p 0 (by simp [place]) (by simp; omega)
    (by simp [place]) (Nat.zero_le _)
  have nothing : none = [] := eq_nil_of_length_eq_zero noneSize
  have checked : decide (first.p ≤ p + ahead.length ∧ p + ahead.length < zlbytes - 1) = true :=
    decide_eq_true (by omega)
  have sized : (adapted.size : Int) = next.size + nextdiff := by omega
  refine ⟨leftover, nextdiff, ?_, sized, difference⟩
  simp only [nothing, append_assoc, nil_append, append_nil] at *
  rw [closeGap, peeked, ok_bind, if_pos more, firstPrev, compared, ok_bind]
  simp only [moved, checked, assert, if_true, ok_bind, written, found, Nat.add_assoc, tailOffset]
  rw [adapted.decoded_size, ← Nat.add_assoc, peekedAfter, ok_bind, firstPlace, closed, ok_bind,
    ← Nat.add_assoc p totlen, lastAt_closed sized ended]
  rfl

theorem Chain.four_le_totalSize {prev : Nat} {head : Entry} {others : List Entry}
    (chain : Chain prev (head :: others)) (large : zipBigPrevlen ≤ prev) :
    4 ≤ totalSize (head :: others) := by
  have wide : head.wide = true := by
    by_contra narrow
    exact absurd (chain.1.1 (Bool.eq_false_iff.mpr narrow)) (Nat.not_lt.mpr large)
  simp [totalSize, Entry.size, Entry.prevWidth, wide]
  omega

def countDown (length deleted : Nat) : Nat :=
  if length < uint16Max then shift length (-deleted) else length

theorem Counts.down {peak length deleted entries : Nat}
    (counts : Counts peak length (deleted + entries)) :
    Counts peak (countDown length deleted) entries := by
  simp only [Counts, countDown, shift] at *
  obtain ⟨most, rfl⟩ := counts
  refine ⟨by omega, ?_⟩
  split_ifs <;> omega

section Deleting

variable (unknown : Nat → UInt8) {peak length num : Nat} {front others back : List Entry}
  {head : Entry}

theorem _ziplistDelete_eq (stored : Stored (front ++ (head :: others ++ back)))
    (removes : Removes num (head :: others) back) :
    _ziplistDelete unknown (image length (front ++ (head :: others ++ back)))
        (headerSize + totalSize front) num = (do
      let zlbytes := headerSize + totalSize (front ++ (head :: others ++ back)) + endSize
      let p := headerSize + totalSize front
      let totlen := totalSize (head :: others)
      let (zl, nextdiff, setTail) ← closeGap (image length (front ++ (head :: others ++ back)))
        zlbytes (head.decoded (lastSize 0 front) p) (p + totlen) totlen
      let zl ← ziplistResize unknown zl (shift (zlbytes - totlen) nextdiff)
      let zl ← ziplistIncrLength zl (-(head :: others).length)
      assert (setTail ≤ shift (zlbytes - totlen) nextdiff - endSize)
      let zl ← setZiplistTailOffset zl setTail
      if nextdiff ≠ 0 then _ziplistCascadeUpdate unknown zl p else return zl) := by
  have limit : uint32Max < 256 ^ 4 := by decide
  have positive := head.two_le_size
  have bounded := stored.bounded
  obtain ⟨before, start, view⟩ := image_entry length front head (others ++ back)
  obtain ⟨-, headChain⟩ := Chain.append.mp stored.chain
  obtain ⟨fits, -⟩ := @entry_facts front (others ++ back) head stored
  obtain ⟨-, -, -, found, -⟩ := @image_reads length front (others ++ back) head stored
  have total : totalSize (front ++ (head :: others ++ back)) =
      totalSize front + totalSize (head :: others ++ back) := totalSize_append ..
  have skipped := @skipEntries_eq (head :: others) back
    (headerSize + totalSize (front ++ (head :: others ++ back)) + endSize) num 0 (lastSize 0 front)
    (headerSize + totalSize front) before start (by omega) headChain fits.bounded (by omega)
    (by omega) removes
  simp only [cons_append, layout, append_assoc] at skipped
  rw [← view] at skipped
  simp only [← cons_append] at found skipped
  rw [_ziplistDelete, ziplistBytes_image stored, found, ok_bind, skipped, ok_bind]
  have forward : decide ((head.decoded (lastSize 0 front) (headerSize + totalSize front)).p ≤
      headerSize + totalSize front + totalSize (head :: others)) = true := by
    apply decide_eq_true
    show headerSize + totalSize front ≤ _
    omega
  have totlen : headerSize + totalSize front + totalSize (head :: others) -
      (head.decoded (lastSize 0 front) (headerSize + totalSize front)).p =
        totalSize (head :: others) := by
    show _ - (headerSize + totalSize front) = _
    omega
  have some : totalSize (head :: others) ≠ 0 := by
    simp only [totalSize]
    omega
  simp only [forward, assert, if_true, ok_bind, totlen, if_neg some, Nat.zero_add]
  rfl

theorem delete_end (stored : Stored (front ++ (head :: others ++ [])))
    (counts : Counts peak length (front ++ (head :: others ++ [])).length)
    (removes : Removes num (head :: others) []) :
    Meets (_ziplistDelete unknown (image length (front ++ (head :: others ++ [])))
        (headerSize + totalSize front) num)
      (TooLarge (headerSize + room (front.map value) + endSize))
      fun zl => Represents peak zl front := by
  have needed := totalSize_le_room front
  have ended := lastAt_add_lastSize headerSize headerSize front (Nat.le_refl _)
  have total : totalSize (front ++ (head :: others ++ [])) =
      totalSize front + totalSize (head :: others) := by simp
  rw [_ziplistDelete_eq unknown stored removes]
  have closed : closeGap (image length (front ++ (head :: others ++ [])))
      (headerSize + totalSize (front ++ (head :: others ++ [])) + endSize)
      (head.decoded (lastSize 0 front) (headerSize + totalSize front))
      (headerSize + totalSize front + totalSize (head :: others)) (totalSize (head :: others)) =
        .ok (image length (front ++ (head :: others ++ [])), 0,
          lastAt headerSize headerSize front) := by
    have tail : headerSize + totalSize front - lastSize 0 front =
        lastAt headerSize headerSize front := by
      rw [Nat.sub_self] at ended
      omega
    rw [closeGap, Nat.add_assoc, ← total, peek_image_end, ok_bind, if_neg (by simp), ← tail]
    rfl
  have newlen : shift (headerSize + totalSize (front ++ (head :: others ++ [])) + endSize -
      totalSize (head :: others)) 0 = headerSize + totalSize front + endSize := by
    simp only [shift]
    omega
  simp only [closed, ok_bind, newlen]
  rw [image_append, append_assoc]
  refine Meets.bind ((ziplistResize_shrink unknown (by simp)).permit ?_) ?_
  · intro fault large
    exact large.mono (by omega)
  rintro zl ⟨small, shape⟩
  have within : decide (lastAt headerSize headerSize front ≤
      headerSize + totalSize front + endSize - endSize) = true := decide_eq_true (by omega)
  rw [shape, ziplistIncrLength_header _ counts.bounded, ok_bind, within, assert, if_pos rfl,
    ok_bind, setZiplistTailOffset_header, ok_bind, if_neg (by simp)]
  refine ⟨⟨countDown length (head :: others).length, rfl, Counts.down ?_⟩,
    (Chain.append.mp stored.chain).1, small⟩
  simpa [Nat.add_comm] using counts

/-- What is left to do once the gap is closed: the bytes after the last entry go, the header is
written, and the entries after the changed one are brought up to date. -/
theorem delete_settle {adapted : Entry} {rest : List Entry} {leftover : Bytes} {nextdiff : Int}
    {bytes tail newlen old deleted : Nat} (fits : adapted.Fits (lastSize 0 front))
    (frontChain : Chain 0 front) (chain : Chain old rest) (positive : 0 < old)
    (width : (adapted.size : Int) = old + nextdiff)
    (difference : nextdiff = 0 ∨ nextdiff = 4 ∨ nextdiff = -4)
    (counts : Counts peak length (deleted + (front ++ adapted :: rest).length))
    (exact_ : headerSize + totalSize (front ++ adapted :: rest) + endSize = newlen) :
    Meets (do
      let setTail := lastAt (headerSize + totalSize front)
        (headerSize + totalSize front + adapted.size) rest
      let zl ← ziplistResize unknown (header bytes tail length ++ (layout 0 front ++
        ((adapted.bytes (lastSize 0 front) ++ layout old rest) ++ leftover))) newlen
      let zl ← ziplistIncrLength zl (-deleted)
      assert (setTail ≤ newlen - endSize)
      let zl ← setZiplistTailOffset zl setTail
      if nextdiff ≠ 0 then _ziplistCascadeUpdate unknown zl (headerSize + totalSize front)
        else return zl)
      (TooLarge (headerSize + room ((front ++ adapted :: rest).map value) + endSize))
      fun zl => ∃ back, back.map value = (adapted :: rest).map value ∧
        Represents peak zl (front ++ back) := by
  have sized := adapted.two_le_size
  have needed := totalSize_le_room (front ++ adapted :: rest)
  have fewer := totalSize_le_room (front ++ [adapted])
  simp only [map_append, map_cons, map_nil, room_append, room, totalSize_append, totalSize]
    at needed fewer exact_ ⊢
  rw [← append_assoc (layout 0 front)]
  refine Meets.bind ((ziplistResize_shrink unknown (by simp; omega)).permit
    fun fault large => large.mono (by omega)) ?_
  rintro zl ⟨small, shape⟩
  have last := lastAt_add_two_le rest (show headerSize + totalSize front + 2 ≤
    headerSize + totalSize front + adapted.size by omega)
  have within : decide (lastAt (headerSize + totalSize front)
      (headerSize + totalSize front + adapted.size) rest ≤ newlen - endSize) = true :=
    decide_eq_true (by omega)
  have stale : header newlen (lastAt (headerSize + totalSize front)
      (headerSize + totalSize front + adapted.size) rest) (countDown length deleted) ++
        ((layout 0 front ++ (adapted.bytes (lastSize 0 front) ++ layout old rest)) ++
          [zipEnd]) = staleImage (countDown length deleted) (layout 0 front) adapted
        (lastSize 0 front) old rest := by
    simp only [staleImage, length_layout, append_assoc, ← exact_, Nat.add_assoc]
  have settled := @cascadeIfChanged_meets unknown (countDown length deleted)
    (lastSize 0 front) old (layout 0 front) adapted rest nextdiff fits chain width
    positive difference (by simp; omega)
  rw [length_layout] at settled
  rw [shape, ziplistIncrLength_header _ counts.bounded, within, assert, ok_bind,
    setZiplistTailOffset_header, ← countDown, stale]
  refine (settled.permit fun fault large => large.mono (by omega)).mono ?_
  rintro zl ⟨rest', shape, restChain, values, small'⟩
  refine ⟨adapted :: rest', by simp [values],
    ⟨countDown length deleted, ?_, Counts.down ?_⟩, ?_, ?_⟩
  · rw [shape, staleImage_eq_image]
  · have same := congrArg List.length values
    simp only [length_map] at same
    simpa [same] using counts
  · exact Chain.append.mpr ⟨frontChain, ⟨fits.narrow, fits.value⟩, restChain⟩
  · simp only [totalSize_append, totalSize]
    omega

theorem delete_middle {next : Entry} {rest : List Entry}
    (stored : Stored (front ++ (head :: others ++ next :: rest)))
    (counts : Counts peak length (front ++ (head :: others ++ next :: rest)).length)
    (removes : Removes num (head :: others) (next :: rest)) :
    Meets (_ziplistDelete unknown (image length (front ++ (head :: others ++ next :: rest)))
        (headerSize + totalSize front) num)
      (TooLarge (headerSize + room ((front ++ next :: rest).map value) + endSize))
      fun zl => ∃ back, back.map value = (next :: rest).map value ∧
        Represents peak zl (front ++ back) := by
  have limit : uint32Max < 256 ^ 4 := by decide
  have previous := lastSize_le 0 front
  have total : totalSize (front ++ (head :: others ++ next :: rest)) =
      totalSize front + (totalSize (head :: others) + (next.size + totalSize rest)) := by
    rw [totalSize_append, totalSize_append, totalSize]
    rfl
  have bounded := stored.bounded
  obtain ⟨frontChain, removedChain⟩ := Chain.append.mp stored.chain
  obtain ⟨headChain, nextChain, restChain⟩ := Chain.append.mp removedChain
  have stale := lastSize_le_totalSize (cons_ne_nil head others) (lastSize 0 front)
  have nextFits : next.Fits (lastSize (lastSize 0 front) (head :: others)) :=
    ⟨nextChain.1, by omega, nextChain.2⟩
  have enough := headChain.four_le_totalSize
  have sized := next.two_le_size
  have gone := length_layout (lastSize 0 front) (head :: others)
  have tail : lastAt headerSize headerSize (front ++ (head :: others ++ next :: rest)) =
      lastAt (headerSize + totalSize front + totalSize (head :: others))
        (headerSize + totalSize front + totalSize (head :: others) + next.size) rest := by
    rw [lastAt_append, lastAt_append, lastAt]
  rw [_ziplistDelete_eq unknown stored removes, image_append, layout_append, tail]
  -- From here on only the sizes of what is in front and of what is deleted matter.
  generalize layout (lastSize 0 front) (head :: others) = goneBytes at *
  generalize totalSize (head :: others) = totlen at *
  generalize whole : headerSize + totalSize (front ++ (head :: others ++ next :: rest)) + endSize =
    zlbytes at *
  generalize place : headerSize + totalSize front = p at *
  have tailBound := lastAt_add_two_le rest (show p + totlen + 2 ≤ p + totlen + next.size by omega)
  obtain ⟨leftover, nextdiff, closed, width, difference⟩ := @closeGap_eq (lastSize 0 front) _ p
    totlen zlbytes (header zlbytes (lastAt (p + totlen) (p + totlen + next.size) rest) length ++
      layout 0 front) goneBytes next rest (head.decoded (lastSize 0 front) p) rfl rfl
    (by simp [place]) (by omega) (fun bytes => by
      exact ziplistTailOffset_header (by omega)) gone nextFits restChain enough (by omega) bounded
  have newFits : (Entry.tight (lastSize 0 front) next.value).Fits (lastSize 0 front) :=
    ⟨Entry.tight_narrow, by omega, nextFits.value⟩
  have value : (Entry.tight (lastSize 0 front) next.value).value = next.value := rfl
  generalize Entry.tight (lastSize 0 front) next.value = adapted at *
  have newlen : headerSize + totalSize (front ++ adapted :: rest) + endSize =
      shift (zlbytes - totlen) nextdiff := by
    simp only [shift, totalSize_append, totalSize]
    omega
  have settled := @delete_settle unknown peak length front adapted rest leftover nextdiff zlbytes
    (lastAt (p + totlen) (p + totlen + next.size) rest) _ next.size (head :: others).length newFits
    frontChain restChain (by omega) width difference
    (by simpa [Nat.add_comm, Nat.add_left_comm, Nat.add_assoc] using counts) newlen
  rw [place] at settled
  simp only [map_append, map_cons, value] at settled ⊢
  simp only [layout, append_assoc] at closed settled ⊢
  simp only [closed, ok_bind]
  exact settled

theorem delete_nothing {next : Entry} {rest : List Entry} (stored : Stored (front ++ next :: rest)) :
    _ziplistDelete unknown (image length (front ++ next :: rest)) (headerSize + totalSize front) 0 =
      .ok (image length (front ++ next :: rest)) := by
  obtain ⟨-, -, -, found, -⟩ := @image_reads length front rest next stored
  have none : headerSize + totalSize front -
      (next.decoded (lastSize 0 front) (headerSize + totalSize front)).p = 0 := Nat.sub_self _
  have forward : decide ((next.decoded (lastSize 0 front) (headerSize + totalSize front)).p ≤
      headerSize + totalSize front) = true := decide_eq_true (Nat.le_refl _)
  rw [_ziplistDelete, ziplistBytes_image stored, found, ok_bind]
  simp only [skipEntries, ok_bind, forward, assert, if_true, none]
  rfl

theorem _ziplistDelete_meets {zl : Bytes} {removed : List Entry}
    (represented : Represents peak zl (front ++ (removed ++ back))) (some : removed ++ back ≠ [])
    (removes : Removes num removed back) :
    Meets (_ziplistDelete unknown zl (headerSize + totalSize front) num)
      (TooLarge (headerSize + room ((front ++ back).map value) + endSize))
      fun zl => ∃ kept, kept.map value = back.map value ∧
        Represents peak zl (front ++ kept) := by
  have stored := represented.stored
  obtain ⟨length, shape, counts⟩ := represented.shape
  cases removed with
  | nil =>
    cases back with
    | nil => exact absurd rfl some
    | cons next rest =>
      have none : num = 0 := by simpa [Removes, eq_comm] using removes
      rw [none, shape, nil_append, delete_nothing unknown stored]
      exact ⟨next :: rest, rfl, shape ▸ represented⟩
  | cons head others =>
    rw [shape]
    cases back with
    | nil =>
      rw [append_nil front]
      refine (delete_end unknown stored counts removes).mono ?_
      intro zl kept
      exact ⟨[], rfl, (append_nil front).symm ▸ kept⟩
    | cons next rest => exact delete_middle unknown stored counts removes

theorem overwrite_meets {s : Bytes} {entry : Entry}
    (represented : Represents peak (image length (front ++ entry :: back)) (front ++ entry :: back))
    (same : (toValue s).body.length = entry.value.body.length) :
    Meets (writeValue (image length (front ++ entry :: back))
        (headerSize + totalSize front + entry.prevWidth) s (chooseEncoding s).1
        (chooseEncoding s).2.1) (fun _ => False)
      fun zl => zl = image length (front ++ { entry with value := toValue s } :: back) ∧
        Chain 0 (front ++ { entry with value := toValue s } :: back) ∧
        totalSize (front ++ { entry with value := toValue s } :: back) =
          totalSize (front ++ entry :: back) := by
  have limit : uint32Max < 256 ^ 4 := by decide
  obtain ⟨-, chain, bounded⟩ := represented
  obtain ⟨frontChain, entryChain, backChain⟩ := Chain.append.mp chain
  generalize replaced : ({ entry with value := toValue s } : Entry) = new
  have field : new.prevField = entry.prevField := by rw [← replaced]; rfl
  have value : new.value = toValue s := by rw [← replaced]
  have size : new.size = entry.size := by
    rw [Entry.size, Entry.size, value, same, ← replaced]
    rfl
  have total : totalSize (front ++ new :: back) = totalSize (front ++ entry :: back) := by
    simp [totalSize, size]
  have view : image length (front ++ entry :: back) =
      ((header (headerSize + totalSize (front ++ entry :: back) + endSize)
          (lastAt headerSize headerSize (front ++ entry :: back)) length ++ layout 0 front) ++
        entry.prevField (lastSize 0 front)) ++
      (entry.value.body ++ (layout entry.size back ++ [zipEnd])) := by
    rw [image_append]
    simp only [layout, Entry.bytes, append_assoc]
  rw [view, writeValue_eq (by simp [Nat.add_assoc]) same.symm]
  refine ⟨?_, ?_, total⟩
  · rw [image_append, total]
    simp only [layout, lastAt_append, lastAt, size, Entry.bytes, field, value, append_assoc]
  refine Chain.append.mpr ⟨frontChain, ⟨?_, ?_⟩, size ▸ backChain⟩
  · rw [← replaced]
    exact entryChain.1
  · rw [value]
    refine fits_toValue ?_
    have sizes : entry.size = entry.prevWidth + entry.value.body.length := rfl
    simp only [Value.body, length_append, totalSize_append, totalSize] at same sizes bounded
    omega

theorem ziplistReplace_meets {zl s : Bytes} {entry : Entry}
    (represented : Represents peak zl (front ++ entry :: back)) :
    Meets (ziplistReplace unknown zl (headerSize + totalSize front) s)
      (TooLarge (headerSize + room (front.map value ++ toValue s :: back.map value) + endSize))
      fun zl => ∃ entries, entries.map value =
          front.map value ++ toValue s :: back.map value ∧ Represents peak zl entries := by
  obtain ⟨length, rfl, counts⟩ := represented.shape
  obtain ⟨-, -, -, found, -⟩ := @image_reads length front back entry represented.stored
  obtain ⟨encoding, -, contentSize⟩ := chooseEncoding_spec s
  rw [ziplistReplace, found, ok_bind]
  simp only [encoding, contentSize]
  split
  · next same =>
    -- The new value takes as many bytes as the old one.
    have same : (toValue s).body.length = entry.value.body.length := by
      simp only [Entry.decoded] at same
      simp only [Value.body, length_append]
      omega
    refine (overwrite_meets represented same).faultless.mono ?_
    rintro zl ⟨shape, newChain, total⟩
    exact ⟨_, by simp, ⟨length, shape, by simpa using counts⟩, newChain,
      total ▸ represented.bounded⟩
  · -- The old entry is deleted, and the new one inserted at its place.
    have deleted := @_ziplistDelete_meets unknown peak 1 front back _ [entry] represented (by simp)
      (.inl rfl)
    have fewer : room ((front ++ back).map value) ≤
        room (front.map value ++ toValue s :: back.map value) := by
      simp only [map_append, room_append, room]
      omega
    refine Meets.bind (deleted.permit fun fault large => large.mono (by omega)) ?_
    rintro zl ⟨kept, values, between⟩
    rw [← values]
    have length := congrArg List.length values
    have again : max peak ((front ++ kept).length + 1) = peak := by
      have most := counts.1
      simp only [length_append, length_cons, length_map] at most length ⊢
      omega
    exact again ▸ _ziplistInsert_meets unknown between

end Deleting

end LearningNotes.Ziplist
