import LearningNotes.Ziplist.Decode
import Mathlib.Data.List.Induction

/-! Growing prevlen fields that have become too small, one after the other. -/

namespace LearningNotes.Ziplist

open Lib Util List
open Entry (widen size_widen)

/-- What values take at most, with the widest prevlen fields. -/
def room : List Value → Nat
  | [] => 0
  | value :: rest => 5 + value.body.length + room rest

/-- The ziplist would not stay below the limit. -/
def TooLarge (needed : Nat) (fault : Fault) : Prop := fault = .tooLarge ∧ uint32Max ≤ needed

theorem TooLarge.mono {few many : Nat} {fault : Fault} (large : TooLarge few fault)
    (more : few ≤ many) : TooLarge many fault :=
  ⟨large.1, Nat.le_trans large.2 more⟩

@[simp] theorem room_append (front back : List Value) :
    room (front ++ back) = room front + room back := by
  induction front with
  | nil => simp [room]
  | cons value rest ih => simp [room, ih, Nat.add_assoc]

theorem Entry.size_le (entry : Entry) : entry.size ≤ 5 + entry.value.body.length := by
  simp only [size, prevWidth]
  split <;> omega

/-- Entries never need more than their values with the widest fields. -/
theorem totalSize_le_room (entries : List Entry) :
    totalSize entries ≤ room (entries.map Entry.value) := by
  induction entries with
  | nil => exact Nat.le_refl 0
  | cons entry rest ih =>
    have bound := entry.size_le
    simp only [totalSize, map_cons, room]
    omega

theorem two_mul_length_le_totalSize (entries : List Entry) :
    2 * entries.length ≤ totalSize entries := by
  induction entries with
  | nil => exact Nat.le_refl 0
  | cons entry rest ih =>
    have bound := entry.two_le_size
    simp only [totalSize, length_cons]
    omega

section Resizing

variable (unknown : Nat → UInt8) {bytes tail length len : Nat} {rest body : Bytes}

theorem ziplistResize_meets (enough : headerSize + endSize ≤ len) :
    Meets (ziplistResize unknown (header bytes tail length ++ rest) len) (TooLarge len) fun zl =>
      len < uint32Max ∧ ∃ fresh : Bytes, len - headerSize ≤ (rest ++ fresh).length ∧
        zl = header len tail length ++
          ((rest ++ fresh).take (len - headerSize - endSize) ++ [zipEnd]) := by
  unfold ziplistResize
  split
  · next large => exact ⟨rfl, Nat.le_of_not_lt large⟩
  next small =>
  have small : len < uint32Max := Decidable.of_not_not small
  obtain ⟨fresh, resized, long⟩ := resizeTo_eq_take unknown (header bytes tail length ++ rest) len
  have header_long : (header bytes tail length).length = headerSize := length_header ..
  rw [length_append, header_long] at long
  -- The header stays in front of the part that is cut.
  rw [resized, append_assoc, take_append, header_long,
    take_of_length_le (by omega), setZiplistBytes_header, ok_bind]
  have cut : (rest ++ fresh).take (len - headerSize) =
      (rest ++ fresh).take (len - headerSize - endSize) ++
        ((rest ++ fresh).drop (len - headerSize - endSize)).take 1 := by
    rw [← take_add]
    congr 1
    simp only [endSize] at *
    omega
  rw [cut, ← append_assoc, ← append_nil (List.take 1 _), store_middle]
  · refine ⟨small, fresh, by simp only [length_append]; omega, by simp⟩
  · simp only [length_append, length_header, length_take]
    simp only [endSize] at *
    omega
  · simp only [length_take, length_drop, length_append, length_singleton]
    simp only [endSize] at *
    omega

theorem ziplistResize_grow (larger : headerSize + body.length + endSize ≤ len) :
    Meets (ziplistResize unknown (header bytes tail length ++ (body ++ [zipEnd])) len)
      (TooLarge len) fun zl => len < uint32Max ∧ ∃ junk : Bytes,
        headerSize + body.length + endSize + junk.length = len ∧
        (∃ more, junk ++ [zipEnd] = zipEnd :: more) ∧
        zl = header len tail length ++ (body ++ (junk ++ [zipEnd])) := by
  refine (ziplistResize_meets unknown (by omega)).mono ?_
  rintro zl ⟨small, fresh, long, shape⟩
  refine ⟨small, ([zipEnd] ++ fresh).take (len - headerSize - endSize - body.length), ?_, ?_, ?_⟩
  · simp only [length_append, length_take] at long ⊢
    omega
  · -- The old end of the ziplist is still in its place.
    cases len - headerSize - endSize - body.length with
    | zero => exact ⟨[], rfl⟩
    | succ count => exact ⟨_, rfl⟩
  · rw [shape, append_assoc, take_append, take_of_length_le (by omega), append_assoc]

/-- Shrinking cuts the block and puts the end mark last. -/
theorem ziplistResize_shrink (exact_ : headerSize + body.length + endSize = len) :
    Meets (ziplistResize unknown (header bytes tail length ++ (body ++ rest)) len)
      (TooLarge len) fun zl => len < uint32Max ∧
        zl = header len tail length ++ (body ++ [zipEnd]) := by
  refine (ziplistResize_meets unknown (by omega)).mono ?_
  rintro zl ⟨small, fresh, long, shape⟩
  refine ⟨small, ?_⟩
  rw [shape, append_assoc, take_append_of_le_length (by omega), take_of_length_le (by omega)]

end Resizing

/-- Entries that are all too narrow for the size before. -/
def Grows : Nat → List Entry → Prop
  | _, [] => True
  | prev, entry :: rest =>
    (entry.wide = false ∧ zipBigPrevlen ≤ prev) ∧ Grows (entry.size + 4) rest

variable {prev old last p : Nat} {entry : Entry} {entries grown : List Entry}

theorem Grows.append {front : List Entry} (grows : Grows prev (front ++ [entry])) :
    Grows prev front ∧ entry.wide = false ∧
      zipBigPrevlen ≤ lastSize prev (front.map widen) := by
  induction front generalizing prev with
  | nil => exact ⟨trivial, grows.1⟩
  | cons head rest ih =>
    obtain ⟨kept, last⟩ := ih grows.2
    rw [← size_widen grows.1.1] at last
    exact ⟨⟨grows.1, kept⟩, last⟩

theorem Grows.lastSize_widen (grows : Grows prev entries) (grew : entries = [] → prev = old + 4) :
    lastSize prev (entries.map widen) = lastSize old entries + 4 := by
  induction entries generalizing prev old with
  | nil => exact grew rfl
  | cons entry rest ih =>
    simp only [map_cons, lastSize, size_widen grows.1.1]
    exact ih grows.2 fun _ => rfl

theorem Grows.totalSize_widen (grows : Grows prev entries) :
    totalSize (entries.map widen) = totalSize entries + 4 * entries.length := by
  induction entries generalizing prev with
  | nil => rfl
  | cons entry rest ih =>
    simp only [map_cons, totalSize, size_widen grows.1.1, ih grows.2, length_cons]
    omega

/-- Widening every entry that was too narrow makes the chain fit. -/
theorem Grows.chain_widen (grows : Grows prev entries) (chain : Chain old entries) :
    Chain prev (entries.map widen) := by
  induction entries generalizing prev old with
  | nil => trivial
  | cons entry rest ih =>
    refine ⟨⟨fun narrow => Bool.noConfusion narrow, chain.1.2⟩, ?_⟩
    rw [size_widen grows.1.1]
    exact ih grows.2 chain.2

variable {len first new : Nat} {settled : List Entry}

theorem prevlenSize_of_lt (small : len < zipBigPrevlen) : prevlenSize len = 1 :=
  if_pos small

theorem prevlenSize_of_le (large : zipBigPrevlen ≤ len) : prevlenSize len = 5 :=
  if_neg (Nat.not_lt.mpr large)

theorem settled_field (enough : prevlenSize prev ≤ entry.prevWidth) :
    (if entry.prevWidth = prevlenSize prev then prevlenBytes prev else prevlenLarge prev) =
        entry.prevField prev ∧ (entry.wide = false → prev < zipBigPrevlen) := by
  by_cases small : prev < zipBigPrevlen
  · refine ⟨?_, fun _ => small⟩
    simp only [prevlenSize_of_lt small, Entry.prevWidth, Entry.prevField, prevlenBytes, small]
    cases entry.wide <;> rfl
  · rw [prevlenSize_of_le (Nat.le_of_not_lt small)] at enough ⊢
    unfold Entry.prevWidth Entry.prevField at *
    cases kind : entry.wide with
    | false => simp [kind] at enough
    | true => simp [prevlenBytes, small]

theorem too_narrow (lacking : ¬ prevlenSize prev ≤ entry.prevWidth) :
    entry.wide = false ∧ zipBigPrevlen ≤ prev := by
  by_cases small : prev < zipBigPrevlen
  · rw [prevlenSize_of_lt small] at lacking
    exact absurd entry.prevWidth_pos lacking
  · refine ⟨?_, Nat.le_of_not_lt small⟩
    rw [prevlenSize_of_le (Nat.le_of_not_lt small)] at lacking
    cases kind : entry.wide with
    | false => rfl
    | true => simp [Entry.prevWidth, kind] at lacking

/-- The scan stops at the first entry whose field is wide enough. -/
theorem cascadeScan_eq {curlen fuel old new last extra cnt : Nat} {rest : List Entry}
    {front : Bytes} (chain : Chain old rest)
    (changed : old = 0 ∧ 0 < new ∨ new = old + 4 ∨ old = new + 4) (bounded : old < 256 ^ 4)
    (first : headerSize ≤ front.length) (whole : front.length + totalSize rest + endSize = curlen)
    (limit : curlen < 256 ^ 4) (fueled : rest.length < fuel) :
    ∃ grown settled, rest = grown ++ settled ∧ Grows new grown ∧
      Chain (lastSize new (grown.map widen)) settled ∧
      cascadeScan curlen fuel
        ⟨front ++ (layout old rest ++ [zipEnd]), front.length, new, last, extra, cnt⟩ =
      .ok ⟨front ++ (layout old grown ++
          (layout (lastSize new (grown.map widen)) settled ++ [zipEnd])),
        front.length + totalSize grown, lastSize new (grown.map widen),
        lastAt last front.length grown, extra + 4 * grown.length, cnt + grown.length⟩ := by
  induction rest generalizing fuel old new last extra cnt front with
  | nil =>
    obtain ⟨fuel, rfl⟩ := Nat.exists_eq_succ_of_ne_zero (Nat.ne_of_gt fueled)
    refine ⟨[], [], rfl, trivial, trivial, ?_⟩
    rw [cascadeScan]
    simp only [layout, nil_append, peek_middle, ok_bind, if_true]
    rfl
  | cons entry rest ih =>
    obtain ⟨fuel, rfl⟩ := Nat.exists_eq_succ_of_ne_zero (Nat.ne_zero_of_lt fueled)
    have fits : entry.Fits old := ⟨chain.1.1, bounded, chain.1.2⟩
    simp only [totalSize] at whole
    simp only [layout, append_assoc]
    obtain ⟨byte, peeked, more⟩ :=
      @peek_entry entry old front (layout entry.size rest ++ [zipEnd]) _ rfl fits
    have decoded := @assertEntry_eq entry old front (layout entry.size rest ++ [zipEnd]) _ rfl
      fits curlen false first (by omega) (fun impossible => Bool.noConfusion impossible)
    rw [cascadeScan]
    simp only [peeked, ok_bind, if_neg more, decoded]
    rw [if_neg (by simp only [Entry.decoded]; omega)]
    by_cases enough : prevlenSize new ≤ (entry.decoded old front.length).prevrawlensize
    · -- The field is large enough, so that nothing behind this entry changes.
      obtain ⟨field, narrow⟩ := settled_field enough
      have written : (if (entry.decoded old front.length).prevrawlensize = prevlenSize new
          then prevlenBytes new else prevlenLarge new) = entry.prevField new := field
      rw [if_pos enough, written, Entry.bytes, append_assoc, store_middle rfl (by simp)]
      refine ⟨[], entry :: rest, rfl, trivial, ⟨⟨narrow, chain.1.2⟩, chain.2⟩, ?_⟩
      simp [layout, lastSize, lastAt, totalSize, Entry.bytes]
    -- A narrow field in front of a size that has just reached the limit.
    obtain ⟨narrow, reached⟩ := too_narrow enough
    have held := chain.1.1 narrow
    have grew : decide ((entry.decoded old front.length).prevrawlen = 0 ∨
        (entry.decoded old front.length).prevrawlen + 4 = new) = true := by
      apply decide_eq_true
      show old = 0 ∨ old + 4 = new
      omega
    rw [if_neg enough]
    obtain ⟨grown, settled, parts, grows, tail, scanned⟩ :=
      @ih fuel entry.size (entry.size + 4) front.length (extra + 4) (cnt + 1)
        (front ++ entry.bytes old) chain.2 (.inr (.inl rfl)) (by omega) (by simp; omega)
        (by simp; omega) (by simp at fueled; omega)
    refine ⟨entry :: grown, settled, by rw [parts]; rfl, ⟨⟨narrow, reached⟩, grows⟩, ?_, ?_⟩
    · simpa only [map_cons, lastSize, size_widen narrow] using tail
    simp only [grew, assert, if_true, ok_bind, entry.decoded_size]
    simp only [append_assoc, length_append, Entry.length_bytes] at scanned
    rw [scanned]
    simp only [map_cons, lastSize, size_widen narrow, layout, totalSize, append_assoc, length_cons]
    congr 2 <;> omega

theorem grow_entry {entry : Entry} {prev new : Nat} {before junk after : Bytes}
    (narrow : entry.wide = false) (enough : 4 ≤ junk.length) :
    ∃ rest : Bytes, rest.length + 4 = junk.length ∧
      (memmove (before ++ (entry.bytes prev ++ (junk ++ after)))
          (before.length + 1 + junk.length) (before.length + 1) entry.value.body.length >>=
        fun zl => store zl (before.length + junk.length - 4) (prevlenLarge new)) =
      .ok (before ++ (rest ++ (entry.widen.bytes new ++ after))) := by
  have field : (entry.prevField prev).length = 1 := by simp [Entry.prevWidth, narrow]
  obtain ⟨fresh, gone, moved, freshSize, goneSize⟩ := @memmove_gap (before ++ entry.prevField prev)
    junk entry.value.body (before.length + 1) entry.value.body.length [] after
    (before.length + 1 + junk.length) junk.length (by simp [field]) rfl (by simp [field]) (by simp)
  have none : gone = [] := eq_nil_of_length_eq_zero (by simpa using goneSize)
  -- The new field covers the end of what the moved bytes leave behind.
  obtain ⟨rest, hole, cut, restSize, holeSize⟩ :=
    @exists_parts (entry.prevField prev ++ fresh) (junk.length - 4) 5 (by simp [field]; omega)
  refine ⟨rest, by omega, ?_⟩
  simp only [none, nil_append, append_assoc] at moved
  rw [Entry.bytes, append_assoc, moved, ok_bind, ← append_assoc (entry.prevField prev),
    cut, append_assoc, ← append_assoc before,
    store_middle (by simp [restSize]; omega) (by simp [prevlenLarge, holeSize])]
  simp [Entry.bytes, Entry.prevField]

/-- The size of an entry before others was none, or has grown. -/
def Regrown (first old new : Nat) : Prop := old = 0 ∧ new = first ∨ 0 < old ∧ new = old + 4

theorem Regrown.field (regrown : Regrown first old new) (grows : Grows new grown) :
    (if lastSize old grown = 0 then first else lastSize old grown + 4) =
      lastSize new (grown.map widen) := by
  by_cases none : lastSize old grown = 0
  · -- Entries have a size, so that there is none before this one.
    rw [if_pos none]
    cases grown with
    | cons entry rest =>
      have held := lastSize_pos (cons_ne_nil entry rest) old
      omega
    | nil =>
      rcases regrown with ⟨-, same⟩ | ⟨positive, -⟩
      · exact same.symm
      · exact absurd none (Nat.ne_of_gt positive)
  · rw [if_neg none, grows.lastSize_widen]
    intro empty
    subst empty
    rcases regrown with ⟨zero, -⟩ | ⟨-, grew⟩
    · exact absurd zero none
    · exact grew

/-- The entries are moved from the last to the first, each with its field widened. -/
theorem cascadeMove_eq {front : Bytes} (grown : List Entry) {junk after : Bytes} {p last : Nat}
    (grows : Grows new grown) (chain : Chain old grown) (regrown : Regrown first old new)
    (bounded : old + totalSize grown < 256 ^ 4) (size : junk.length = 4 * grown.length)
    (place : p = front.length + totalSize grown + 4 * grown.length)
    (lastPlace : grown ≠ [] → last + lastSize old grown = front.length + totalSize grown) :
    cascadeMove first grown.length (front ++ (layout old grown ++ (junk ++ after))) p last =
      .ok (front ++ (layout new (grown.map widen) ++ after)) := by
  -- From the last entry to the first, as the loop goes.
  induction grown using List.reverseRecOn generalizing junk after p last with
  | nil =>
    have none : junk = [] := eq_nil_of_length_eq_zero size
    simp [cascadeMove, layout, none]
  | append_singleton grown entry ih =>
    obtain ⟨before, narrow, reached⟩ := grows.append
    obtain ⟨chain, entryChain⟩ := Chain.append.mp chain
    simp only [totalSize_append, totalSize, length_append, length_singleton,
      lastSize_append, lastSize] at *
    have small := lastSize_le old grown
    have fits : entry.Fits (lastSize old grown) := ⟨entryChain.1.1, by omega, entryChain.1.2⟩
    have lastPlace : last = (front ++ layout old grown).length := by
      have found := lastPlace (by simp)
      simp
      omega
    have raw : entry.size = 1 + entry.value.body.length := by
      simp [Entry.size, Entry.prevWidth, narrow]
    have width : (entry.decoded (lastSize old grown) last).prevrawlensize = 1 := by
      simp [Entry.decoded, Entry.prevWidth, narrow]
    have field : prevlenBytes (lastSize new (grown.map widen)) =
        prevlenLarge (lastSize new (grown.map widen)) := if_neg (Nat.not_lt.mpr reached)
    have view : front ++ (layout old (grown ++ [entry]) ++ (junk ++ after)) =
        (front ++ layout old grown) ++ (entry.bytes (lastSize old grown) ++ (junk ++ after)) := by
      simp [layout_append, layout]
    obtain ⟨rest, restSize, moved⟩ := @grow_entry entry (lastSize old grown)
      (lastSize new (grown.map widen)) (front ++ layout old grown) junk after narrow
      (by omega)
    have target : p - entry.value.body.length = last + 1 + junk.length := by
      simp at lastPlace
      omega
    have fieldPlace : p - (entry.size + 4) = last + junk.length - 4 := by
      omega
    have bodySize : entry.size - 1 = entry.value.body.length := by omega
    have prevrawlen : (entry.decoded (lastSize old grown) last).prevrawlen = lastSize old grown :=
      rfl
    rw [← lastPlace] at moved
    rw [view, cascadeMove, zipEntry_eq lastPlace fits, ok_bind]
    simp only [entry.decoded_size, width, prevrawlen, regrown.field before, field, target,
      fieldPlace, bodySize]
    rw [← bind_assoc, moved, ok_bind]
    have rest := @ih rest (entry.widen.bytes (lastSize new (grown.map widen)) ++ after)
      (last + junk.length - 4) (last - lastSize old grown) before chain (by omega)
      (by omega) (by omega) (by
        intro more
        have inside := lastSize_le_totalSize more old
        omega)
    simp only [append_assoc] at rest ⊢
    rw [rest]
    simp [layout_append, layout]

theorem Grows.lastAt_widen (grows : Grows prev grown) (some : grown ≠ []) (before : last ≤ p) :
    lastAt last p (grown.map widen) + 4 = lastAt last p grown + 4 * grown.length := by
  have ended := lastAt_add_lastSize last p grown before
  have endedWide := lastAt_add_lastSize last p (grown.map widen) before
  have someWide : grown.map widen ≠ [] := by simpa using some
  have grew : lastSize prev (grown.map widen) = lastSize 0 grown + 4 :=
    grows.lastSize_widen fun none => absurd none some
  rw [lastSize_of_ne_nil some _ 0] at ended
  rw [lastSize_of_ne_nil someWide _ prev, grows.totalSize_widen] at endedWide
  omega

theorem Grows.lastAt_settled (grows : Grows prev grown) (some : settled ≠ []) :
    lastAt last p (grown.map widen ++ settled) =
      lastAt last p (grown ++ settled) + 4 * grown.length := by
  rw [lastAt_append, lastAt_append, grows.totalSize_widen, ← Nat.add_assoc, ← lastAt_add]
  exact lastAt_of_ne_nil some _ _ _

/-- The offset of the last entry grows with the fields in front of it. -/
theorem cascadeTail_eq {zl : Bytes} {bytes length : Nat} (grows : Grows prev grown)
    (some : grown ≠ []) (before : last + 2 ≤ p) :
    cascadeTail (header bytes (lastAt last p (grown ++ settled)) length ++ zl)
        (lastAt last p (grown ++ settled)) (lastAt last p grown) (4 * grown.length) =
      .ok (header bytes (lastAt last p (grown.map widen ++ settled)) length ++ zl) := by
  unfold cascadeTail
  by_cases none : settled = []
  · -- The last entry that grew is the last one of all.
    have moved := grows.lastAt_widen some (Nat.le_of_add_right_le before)
    have positive := length_pos_iff.mpr some
    subst none
    simp only [append_nil, if_true]
    split
    · rw [setZiplistTailOffset_header]
      congr 3
      omega
    · congr 3
      omega
  · have behind : lastAt last p (grown ++ settled) ≠ lastAt last p grown := by
      have low := le_lastAt none (lastAt last p grown) (p + totalSize grown)
      have high := lastAt_add_two_le grown before
      rw [lastAt_append]
      omega
    rw [if_neg behind, setZiplistTailOffset_header, grows.lastAt_settled none]

section Update

variable (unknown : Nat → UInt8) {length prev old : Nat} {front : Bytes} {entry : Entry}
  {rest : List Entry}

theorem cascadeGrow_meets {bytes tail first new next p last : Nat} {before : Bytes}
    {grown settled : List Entry} (grows : Grows new grown) (chain : Chain old grown)
    (regrown : Regrown first old new) (bounded : old + totalSize grown < 256 ^ 4)
    (whole : headerSize + before.length + totalSize grown + totalSize settled + endSize = bytes)
    (place : p = headerSize + before.length + totalSize grown)
    (lastPlace : last + lastSize old grown = p) :
    Meets (do
        let zl ← ziplistResize unknown (header bytes tail length ++ (before ++ (layout old grown ++
          (layout next settled ++ [zipEnd])))) (bytes + 4 * grown.length)
        let zl ← memmove zl (p + 4 * grown.length) p (bytes - p - 1)
        cascadeMove first grown.length zl (p + 4 * grown.length) last)
      (TooLarge (bytes + 4 * grown.length)) fun zl => bytes + 4 * grown.length < uint32Max ∧
        zl = header (bytes + 4 * grown.length) tail length ++ (before ++
          (layout new (grown.map widen) ++ (layout next settled ++ [zipEnd]))) := by
  have body : before ++ (layout old grown ++ (layout next settled ++ [zipEnd])) =
      (before ++ (layout old grown ++ layout next settled)) ++ [zipEnd] := by simp
  rw [body]
  refine Meets.bind (ziplistResize_grow unknown (by simp; omega)) ?_
  rintro zl ⟨small, junk, junkSize, _, shape⟩
  simp only [length_append, length_layout] at junkSize
  -- What does not grow is moved to the end, over a part of itself if need be.
  obtain ⟨hole, gone, moved, holeSize, goneSize⟩ := @memmove_gap
    ((header (bytes + 4 * grown.length) tail length ++ before) ++ layout old grown) junk
    (layout next settled) p (bytes - p - 1) [] [zipEnd] (p + 4 * grown.length) (4 * grown.length)
    (by simp; omega) (by simp; simp only [endSize] at whole; omega) (by simp; omega)
    (by omega)
  have none : gone = [] := eq_nil_of_length_eq_zero (by simp at goneSize; omega)
  simp only [none, nil_append, append_assoc] at moved
  simp only [shape, append_assoc]
  rw [moved, ok_bind, ← append_assoc, cascadeMove_eq grown grows chain regrown bounded holeSize
    (by simp; omega) (fun _ => by simp; omega)]
  exact ⟨small, by simp only [append_assoc]⟩

/-- One entry has changed its size, without the next one knowing yet. -/
def staleImage (length : Nat) (front : Bytes) (entry : Entry) (prev old : Nat)
    (rest : List Entry) : Bytes :=
  let p := headerSize + front.length
  header (p + entry.size + totalSize rest + endSize) (lastAt p (p + entry.size) rest) length ++
    (front ++ (entry.bytes prev ++ (layout old rest ++ [zipEnd])))

/-- After an entry changed its size, all fields behind it are right again. -/
theorem _ziplistCascadeUpdate_meets (fits : entry.Fits prev) (chain : Chain old rest)
    (changed : old = 0 ∨ entry.size = old + 4 ∨ old = entry.size + 4)
    (bounded : headerSize + front.length + entry.size + totalSize rest + endSize < uint32Max) :
    Meets (_ziplistCascadeUpdate unknown (staleImage length front entry prev old rest)
        (headerSize + front.length))
      (TooLarge (headerSize + front.length + entry.size + room (rest.map Entry.value) + endSize))
      fun zl => ∃ rest', zl = staleImage length front entry prev entry.size rest' ∧
        Chain entry.size rest' ∧ rest'.map Entry.value = rest.map Entry.value ∧
        headerSize + front.length + entry.size + totalSize rest' + endSize < uint32Max := by
  have limit : uint32Max < 256 ^ 4 := by decide
  have sizes := entry.two_le_size
  have many := two_mul_length_le_totalSize rest
  simp only [staleImage]
  -- The entry that changed is found right behind the part in front of it.
  generalize first : headerSize + front.length = p at *
  have inFront : 10 ≤ p := by
    simp only [headerSize] at first
    omega
  have before : p + 2 ≤ p + entry.size := by omega
  have tailBound := lastAt_add_two_le rest before
  generalize whole : p + entry.size + totalSize rest + endSize = bytes at *
  generalize tailPlace : lastAt p (p + entry.size) rest = tail at *
  have start : p = (header bytes tail length ++ front).length := by simp [← first]
  have sized : (header bytes tail length ++ (front ++ (entry.bytes prev ++
      (layout old rest ++ [zipEnd])))).length = bytes := by
    simp [endSize] at whole ⊢
    omega
  obtain ⟨byte, peeked, more⟩ := @peek_entry entry prev (header bytes tail length ++ front)
    (layout old rest ++ [zipEnd]) _ start fits
  have found := @zipEntry_eq entry prev (header bytes tail length ++ front)
    (layout old rest ++ [zipEnd]) _ start fits
  obtain ⟨grown, settled, parts, grows, tailChain, scanned⟩ :=
    @cascadeScan_eq bytes bytes old entry.size p 0 0 rest
      ((header bytes tail length ++ front) ++ entry.bytes prev) chain (by omega) (by omega)
      (by simp) (by simp; omega) (by omega) (by omega)
  rw [length_append, ← start, Entry.length_bytes] at scanned
  simp only [append_assoc] at peeked found scanned
  rw [_ziplistCascadeUpdate, ziplistBytes_header (by omega), ok_bind,
    ziplistTailOffset_header (by omega), ok_bind, peeked, ok_bind, if_neg more, found, ok_bind]
  simp only [entry.decoded_size, sized]
  rw [scanned, ok_bind]
  obtain ⟨grownChain, -⟩ := Chain.append.mp (parts ▸ chain)
  by_cases some : grown = []
  · -- Nothing had to grow.
    subst some
    refine ⟨rest, ?_, ?_, rfl, by omega⟩
    · rw [whole, tailPlace, parts]
      rfl
    · rw [parts]
      exact tailChain
  have regrown : Regrown entry.size old entry.size := by
    cases grown with
    | nil => exact absurd rfl some
    | cons head tail =>
      have held := grownChain.1.1 grows.1.1
      have reached := grows.1.2
      rcases Nat.eq_zero_or_pos old with zero | positive
      · exact .inl ⟨zero, rfl⟩
      · exact .inr ⟨positive, by omega⟩
  have ended := lastAt_add_lastSize p (p + entry.size) grown (by omega)
  rw [lastSize_of_ne_nil some _ old] at ended
  have together : totalSize rest = totalSize grown + totalSize settled := by
    rw [parts, totalSize_append]
  rw [if_neg (by simp; omega)]
  simp only [Nat.zero_add]
  -- The entries after the cascade: those that have grown, and those that stayed.
  have values : (grown.map widen ++ settled).map Entry.value = rest.map Entry.value := by
    rw [parts]
    simp [Function.comp_def]
  have total : totalSize (grown.map widen ++ settled) =
      totalSize rest + 4 * grown.length := by
    rw [totalSize_append, grows.totalSize_widen]
    omega
  have needed := totalSize_le_room (grown.map widen ++ settled)
  rw [values, total] at needed
  rw [← tailPlace, parts, cascadeTail_eq grows some before, ← append_assoc front]
  refine ((cascadeGrow_meets unknown grows grownChain regrown (by omega) (by simp; omega)
    (by simp; omega) (by omega)).permit ?_).mono ?_
  · intro fault large
    rw [← parts]
    exact large.mono (by omega)
  rintro zl ⟨small, shape⟩
  refine ⟨grown.map widen ++ settled, ?_, ?_, by rw [values, parts], by omega⟩
  · rw [shape, layout_append]
    simp only [append_assoc]
    congr 2
    omega
  · rw [Chain.append]
    exact ⟨grows.chain_widen grownChain, tailChain⟩

theorem cascadeIfChanged_meets {nextdiff : Int} (fits : entry.Fits prev) (chain : Chain old rest)
    (width : (entry.size : Int) = old + nextdiff) (positive : 0 < old)
    (difference : nextdiff = 0 ∨ nextdiff = 4 ∨ nextdiff = -4)
    (bounded : headerSize + front.length + entry.size + totalSize rest + endSize < uint32Max) :
    Meets (if nextdiff ≠ 0
        then _ziplistCascadeUpdate unknown (staleImage length front entry prev old rest)
          (headerSize + front.length)
        else .ok (staleImage length front entry prev old rest))
      (TooLarge (headerSize + front.length + entry.size + room (rest.map Entry.value) + endSize))
      fun zl => ∃ rest', zl = staleImage length front entry prev entry.size rest' ∧
        Chain entry.size rest' ∧ rest'.map Entry.value = rest.map Entry.value ∧
        headerSize + front.length + entry.size + totalSize rest' + endSize < uint32Max := by
  by_cases same : nextdiff = 0
  · have unchanged : old = entry.size := by omega
    rw [if_neg (fun changed => changed same)]
    subst unchanged
    exact ⟨rest, rfl, chain, rfl, bounded⟩
  · rw [if_pos same]
    exact _ziplistCascadeUpdate_meets unknown fits chain (by omega) bounded

end Update

end LearningNotes.Ziplist
