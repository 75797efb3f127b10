import LearningNotes.Ziplist.EntrySafe
import LearningNotes.Ziplist.Refinement
import Mathlib.Data.List.InsertIdx

/-! Searching a ziplist, counting its entries, and pointers that stay where they are. -/

namespace LearningNotes.Ziplist

open Lib Util List

def ziplistBlobLen (zl : Bytes) : Except Fault Nat := ziplistBytes zl

def maxSafetySize : Nat := 2 ^ 30

def ziplistSafeToAdd (zl : Bytes) (add : Nat) : Except Fault Bool := do
  let len ← ziplistBlobLen zl
  return !decide (maxSafetySize < len + add)

/-- How an entry is compared; `tried` is what is known about the string's integer. -/
def compareEntry (zl : Bytes) (e : Zlentry) (q : Nat) (v : Bytes) (tried : Option (Option Int)) :
    Except Fault (Bool × Option (Option Int)) :=
  if zipIsStr e.encoding then
    if e.len = v.length then do
      return (decide ((← load zl q v.length) = v), tried)
    else .ok (false, tried)
  else
    match tried.getD ((zipTryEncoding v).map Prod.fst) with
    | none => .ok (false, some none)
    | some vll => do return (decide ((← zipLoadInteger zl q e.encoding) = vll), some (some vll))

def findFrom (zl : Bytes) (zlbytes : Nat) (v : Bytes) (skip : Nat) :
    Nat → Nat → Nat → Option (Option Int) → Except Fault (Option Nat)
  | 0, _, _, _ => .error .noProgress
  | fuel + 1, p, skipcnt, tried => do
    if (← peek zl p) = zipEnd then return none
    else
      let e ← assertEntry zl zlbytes p true
      let q := p + e.prevrawlensize + e.lensize
      if skipcnt = 0 then
        let (same, tried) ← compareEntry zl e q v tried
        if same then return some p else findFrom zl zlbytes v skip fuel (q + e.len) skip tried
      else findFrom zl zlbytes v skip fuel (q + e.len) (skipcnt - 1) tried

def ziplistFind (zl : Bytes) (p : Nat) (v : Bytes) (skip : Nat) : Except Fault (Option Nat) := do
  let zlbytes ← ziplistBlobLen zl
  -- Every round passes an entry, so that there are fewer rounds than bytes.
  findFrom zl zlbytes v skip zl.length p 0 none

def countEntries (zl : Bytes) (zlbytes : Nat) : Nat → Nat → Nat → Except Fault Nat
  | 0, _, _ => .error .noProgress
  | fuel + 1, p, len => do
    if (← peek zl p) = zipEnd then return len
    else countEntries zl zlbytes fuel (p + (← zipRawEntryLengthSafe zl zlbytes p)) (len + 1)

/-- The number of entries, and the ziplist with an updated header. -/
def ziplistLen (zl : Bytes) : Except Fault (Nat × Bytes) := do
  let length ← ziplistLength zl
  if length < uint16Max then return (length, zl)
  else
    let zlbytes ← ziplistBytes zl
    let len ← countEntries zl zlbytes zl.length headerSize 0
    if len < uint16Max then return (len, ← store zl 8 (littleEndian 2 len)) else return (len, zl)

/-! ### Pointers -/

/-- A pointer to the entry of a ziplist at a position. -/
def Points (zl : Bytes) (strings : List Bytes) (at_ p : Nat) : Prop :=
  ∃ peak entries, entries.map Entry.value = strings.map toValue ∧ Represents peak zl entries ∧
    p = headerSize + totalSize (entries.take at_)

section Reading

variable {zl : Bytes} {strings : List Bytes} {at_ p : Nat}

section

variable (points : Points zl strings at_ p)
include points

theorem Points.holds : Holds zl strings :=
  let ⟨peak, entries, values, represented, _⟩ := points
  ⟨peak, entries, values, represented⟩

omit points in
theorem Holds.length_le (holds : Holds zl strings) : strings.length ≤ zl.length := by
  -- Every entry takes two bytes at least.
  obtain ⟨peak, entries, values, ⟨⟨length, shape, -⟩, -, -⟩⟩ := holds
  have same : entries.length = strings.length := by simpa using congrArg List.length values
  have many := two_mul_length_le_totalSize entries
  rw [shape, length_image]
  omega

theorem Points.cut {s : Bytes} (there : strings[at_]? = some s) :
    ∃ peak length front entry rest, zl = image length (front ++ entry :: rest) ∧
      p = headerSize + totalSize front ∧ entry.value = toValue s ∧ front.length = at_ ∧
      (front ++ entry :: rest).map Entry.value = strings.map toValue ∧
      Represents peak zl (front ++ entry :: rest) := by
  -- There are as many entries as strings.
  obtain ⟨peak, entries, values, represented, place⟩ := points
  obtain ⟨inside, value⟩ := List.getElem?_eq_some_iff.mp there
  have same : entries.length = strings.length := by simpa using congrArg List.length values
  have parts : entries.take at_ ++ entries[at_] :: entries.drop (at_ + 1) = entries := by simp
  obtain ⟨length, shape, -⟩ := represented.shape
  refine ⟨peak, length, entries.take at_, entries[at_], entries.drop (at_ + 1),
    by rw [parts]; exact shape, place, ?_, by simp; omega, by rw [parts]; exact values, by rw [parts]; exact represented⟩
  have read := congrArg (fun list => list[at_]?) values
  simp only [getElem?_map, there, getElem?_eq_getElem (same ▸ inside)] at read
  exact Option.some.inj read

omit points in
theorem ziplistIndex_head (holds : Holds zl strings) :
    if strings = [] then ziplistIndex zl 0 = .ok none
    else ∃ p, ziplistIndex zl 0 = .ok (some p) ∧ Points zl strings 0 p := by
  -- The position zero exists if there is any string.
  obtain ⟨peak, entries, values, represented⟩ := holds
  obtain ⟨length, shape, -⟩ := represented.shape
  have same : entries.length = strings.length := by simpa using congrArg List.length values
  have found := @ziplistIndex_eq length entries 0 represented.stored (.inr (Int.le_refl 0))
  rw [← shape, position, if_pos (Int.le_refl 0)] at found
  split
  · rename_i none_
    rw [none_] at same
    rw [found, if_neg (by simp [same])]
    rfl
  · rename_i some_
    have positive := length_pos_iff.mpr some_
    rw [if_pos (by omega)] at found
    exact ⟨_, found, peak, entries, values, represented, rfl⟩

/-- The next pointer is at the next string, or there is none. -/
theorem Points.next (inside : at_ < strings.length) :
    if at_ + 1 < strings.length then
      ∃ q, ziplistNext zl p = .ok (some q) ∧ Points zl strings (at_ + 1) q
    else ziplistNext zl p = .ok none := by
  -- The entry behind the pointer's is the first of the rest.
  obtain ⟨peak, length, front, entry, rest, shape, place, -, count, values, represented⟩ :=
    points.cut (getElem?_eq_getElem inside)
  have moved := @ziplistNext_eq length front rest entry represented.stored
  rw [← shape, ← place] at moved
  have same : front.length + (rest.length + 1) = strings.length := by
    simpa using congrArg List.length values
  split
  · have some_ : rest ≠ [] := fun none_ => by simp [none_] at same; omega
    rw [if_neg some_] at moved
    refine ⟨_, moved, peak, front ++ entry :: rest, values, represented, ?_⟩
    rw [← count, take_append, take_of_length_le (Nat.le_succ _)]
    simp
  · have none_ : rest = [] := length_eq_zero_iff.mp (by omega)
    rw [moved, if_pos none_]

theorem Points.get {s : Bytes} (there : strings[at_]? = some s) :
    ziplistGet zl p = .ok (some (toValue s)) := by
  obtain ⟨peak, length, front, entry, rest, shape, place, value, -, -, represented⟩ := points.cut there
  rw [shape, place, ziplistGet_eq represented.stored, value]

end

/-! ### Searching -/

/-- The first match, where some strings are passed over behind each compared. -/
def searchFrom (v : Bytes) (skip : Nat) : List Bytes → Nat → Nat → Option Nat
  | [], _, _ => none
  | s :: rest, 0, at_ => if s = v then some at_ else searchFrom v skip rest skip (at_ + 1)
  | _ :: rest, skipcnt + 1, at_ => searchFrom v skip rest skipcnt (at_ + 1)

/-- Different strings are stored as different values. -/
theorem toValue_inj {s v : Bytes} : toValue s = toValue v ↔ s = v := by
  -- The string can be read back from the value.
  refine ⟨fun same => ?_, congrArg toValue⟩
  rw [← bytes_toValue s, same, bytes_toValue]

theorem toValue_eq_str {s v : Bytes} (kind : toValue s = .str v) : s = v := by
  have read := congrArg Value.bytes kind
  rwa [bytes_toValue] at read

theorem toValue_eq_int {s v : Bytes} {number : Int} (kind : toValue s = .int number) :
    (zipTryEncoding v).map Prod.fst = some number ↔ s = v := by
  -- Only the string itself is read as the integer and written back as itself.
  rw [← toValue_inj, kind]
  unfold toValue
  cases zipTryEncoding v with
  | none => simp
  | some pair => simp [eq_comm]

/-- What is known about the wanted integer is so. -/
def Tried (v : Bytes) (tried : Option (Option Int)) : Prop :=
  tried.getD ((zipTryEncoding v).map Prod.fst) = (zipTryEncoding v).map Prod.fst

/-- An entry is compared as a string or as a number, and always as equal strings are. -/
theorem compareEntry_eq {length : Nat} {front rest : List Entry} {entry : Entry} {s v : Bytes}
    {tried : Option (Option Int)} (value : entry.value = toValue s)
    (fits : entry.Fits (lastSize 0 front)) (known : Tried v tried) :
    let found := entry.decoded (lastSize 0 front) (headerSize + totalSize front)
    ∃ now, compareEntry (image length (front ++ entry :: rest)) found
        (headerSize + totalSize front + found.headersize) v tried = .ok (decide (s = v), now) ∧
      Tried v now := by
  intro found
  cases kind : entry.value with
  | str text =>
    -- Strings of the same length are compared byte by byte.
    obtain ⟨string, len, loaded⟩ := @image_str length front rest entry text kind
    have same : s = text := toValue_eq_str (value.symm.trans kind)
    refine ⟨tried, ?_, known⟩
    rw [compareEntry, if_pos string, len, same]
    by_cases sized : text.length = v.length
    · rw [if_pos sized, ← sized, loaded, ok_bind]
      rfl
    · rw [if_neg sized, decide_eq_false fun equal => sized (congrArg List.length equal)]
  | int number =>
    -- An integer is compared with the one that the string stands for, if it does for any.
    have bound : InLong number := by
      have fit := fits.value
      rwa [kind] at fit
    obtain ⟨integer, loaded⟩ := @image_int length front rest entry number kind bound
    have decides := @toValue_eq_int s v number (value.symm.trans kind)
    rw [compareEntry, if_neg (by rw [integer]; exact Bool.false_ne_true), known]
    cases parsed : (zipTryEncoding v).map Prod.fst with
    | none =>
      rw [parsed] at decides
      refine ⟨some none, ?_, by rw [Tried, parsed]; rfl⟩
      simp [← decides]
    | some vll =>
      rw [parsed, Option.some.injEq] at decides
      refine ⟨some (some vll), ?_, by rw [Tried, parsed]; rfl⟩
      simp only [found, loaded, ok_bind, ← decides, eq_comm]
      rfl

theorem findFrom_eq {length : Nat} {v : Bytes} {skip : Nat} {back : List Entry} {front : List Entry}
    {strings : List Bytes} {fuel skipcnt : Nat} {tried : Option (Option Int)}
    (stored : Stored (front ++ back)) (fueled : back.length < fuel)
    (values : back.map Entry.value = strings.map toValue) (known : Tried v tried) :
    findFrom (image length (front ++ back)) (headerSize + totalSize (front ++ back) + endSize) v
        skip fuel (headerSize + totalSize front) skipcnt tried =
      .ok ((searchFrom v skip strings skipcnt front.length).map fun j =>
        headerSize + totalSize ((front ++ back).take j)) := by
  -- The induction is on the entries that are left.
  induction back generalizing front strings fuel skipcnt tried with
  | nil =>
    obtain ⟨fuel, rfl⟩ := Nat.exists_eq_succ_of_ne_zero (Nat.ne_zero_of_lt fueled)
    have none_ : strings = [] := map_eq_nil_iff.mp values.symm
    rw [findFrom, append_nil, peek_image_end, ok_bind, if_pos rfl, none_]
    rfl
  | cons entry rest ih =>
    obtain ⟨fuel, rfl⟩ := Nat.exists_eq_succ_of_ne_zero (Nat.ne_zero_of_lt fueled)
    cases strings with
    | nil => cases values
    | cons s strings =>
      obtain ⟨value, values⟩ := cons_eq_cons.mp values
      obtain ⟨⟨byte, peeked, more⟩, -, -, -, found⟩ :=
        @image_reads length front rest entry stored
      obtain ⟨fits, -⟩ := entry_facts stored
      have size := entry.decoded_size (lastSize 0 front) (headerSize + totalSize front)
      have view := append_cons front entry rest
      -- Going on behind the entry is the induction hypothesis.
      have onward : ∀ {skipcnt : Nat} {tried : Option (Option Int)}, Tried v tried →
          findFrom (image length (front ++ entry :: rest))
            (headerSize + totalSize (front ++ entry :: rest) + endSize) v skip fuel
            (headerSize + totalSize (front ++ [entry])) skipcnt tried =
          .ok ((searchFrom v skip strings skipcnt (front.length + 1)).map fun j =>
            headerSize + totalSize ((front ++ entry :: rest).take j)) := by
        intro skipcnt tried known
        have moved := @ih (front ++ [entry]) strings fuel skipcnt tried (view ▸ stored)
          (by simp at fueled; omega) values known
        rw [← view, length_append, length_singleton] at moved
        exact moved
      generalize here : entry.decoded (lastSize 0 front) (headerSize + totalSize front) = e at *
      have place : headerSize + totalSize front + e.prevrawlensize + e.lensize =
          headerSize + totalSize front + e.headersize := by
        rw [← here]
        simp [Entry.decoded, Nat.add_assoc]
      have behind : headerSize + totalSize front + e.headersize + e.len =
          headerSize + totalSize (front ++ [entry]) := by
        simp only [totalSize_append, totalSize]
        omega
      rw [findFrom, peeked, ok_bind, if_neg more, found, ok_bind]
      simp only [place, behind]
      cases skipcnt with
      | succ skipcnt =>
        exact onward known
      | zero =>
        obtain ⟨now, compared, known⟩ := @compareEntry_eq length front rest entry s v tried value
          fits known
        rw [here] at compared
        rw [searchFrom, compared, ok_bind]
        by_cases equal : s = v
        · simp only [equal, decide_true, if_true, Option.map_some, take_left]
          rfl
        · simp only [equal]
          exact onward known

/-- The search answers as the one in the list of strings does. -/
theorem Points.find (points : Points zl strings at_ p) (inside : at_ ≤ strings.length) (v : Bytes)
    (skip : Nat) :
    match searchFrom v skip (strings.drop at_) 0 at_ with
    | none => ziplistFind zl p v skip = .ok none
    | some j => ∃ q, ziplistFind zl p v skip = .ok (some q) ∧ Points zl strings j q := by
  -- The loop starts at the entry of the pointer with nothing to skip.
  obtain ⟨peak, entries, values, represented, place⟩ := points
  obtain ⟨length, shape, -⟩ := represented.shape
  have same : entries.length = strings.length := by simpa using congrArg List.length values
  have many := two_mul_length_le_totalSize entries
  have parts := take_append_drop at_ entries
  have found := @findFrom_eq length v skip (entries.drop at_) (entries.take at_)
    (strings.drop at_) zl.length 0 none (by rw [parts]; exact represented.stored)
    (by rw [shape, length_image, length_drop, endSize]; omega) (drop_values values at_) rfl
  rw [parts, length_take, Nat.min_eq_left (by omega), ← shape, ← place] at found
  have bytes : ziplistBytes zl = .ok (headerSize + totalSize entries + endSize) :=
    shape ▸ ziplistBytes_image represented.stored
  rw [ziplistFind, ziplistBlobLen, bytes, ok_bind, found]
  cases searchFrom v skip (strings.drop at_) 0 at_ with
  | none => rfl
  | some j => exact ⟨_, rfl, peak, entries, values, represented, rfl⟩

theorem countEntries_eq {zlbytes fuel len : Nat} {entries : List Zlentry}
    (decoded : entriesFrom zl fuel p = .ok entries) (low : headerSize ≤ p)
    (high : p + (entries.map fun entry => entry.headersize + entry.len).sum + endSize ≤ zlbytes) :
    countEntries zl zlbytes fuel p len = .ok (len + entries.length) := by
  -- The loop goes through the entries as the decoder does.
  induction fuel generalizing p len entries with
  | zero => cases decoded
  | succ fuel ih =>
    obtain ⟨byte, peeked, decoded⟩ := bind_eq_ok.mp decoded
    rw [countEntries, peeked, ok_bind]
    split at decoded
    · rename_i last
      cases decoded
      rw [if_pos last]
      rfl
    · rename_i more
      obtain ⟨entry, found, decoded⟩ := bind_eq_ok.mp decoded
      obtain ⟨rest, others, decoded⟩ := bind_eq_ok.mp decoded
      cases decoded
      rw [map_cons, sum_cons] at high
      have safe := @zipEntrySafe_of_zipEntry zl zlbytes p entry found low (by omega)
      rw [if_neg more, zipRawEntryLengthSafe, assertEntry, safe, ok_bind, pure_bind, pure_bind,
        ih others (by omega) (by omega), length_cons]
      congr 1
      omega

theorem WellFormed.countEntries_eq {peak : Nat} {entries : List Zlentry}
    (wellFormed : WellFormed peak zl entries) :
    countEntries zl zl.length zl.length headerSize 0 = .ok entries.length := by
  have closed := wellFormed.closed
  rw [Ziplist.countEntries_eq wellFormed.decoded (Nat.le_refl _) (by omega), Nat.zero_add]

/-- The length is the number of strings, whatever the header has recorded. -/
theorem ziplistLen_eq (holds : Holds zl strings) :
    ∃ counted, ziplistLen zl = .ok (strings.length, counted) ∧ Holds counted strings := by
  -- The field of the header is not exact only if it is full.
  obtain ⟨peak, entries, values, represented⟩ := id holds
  obtain ⟨length, shape, counts⟩ := represented.shape
  have same : entries.length = strings.length := by simpa using congrArg List.length values
  have field : ziplistLength zl = .ok length := by
    rw [shape, image]
    exact ziplistLength_header counts.bounded
  rw [ziplistLen, field, ok_bind]
  split
  · rename_i known
    obtain ⟨-, rfl⟩ := counts
    split at known
    · exact ⟨zl, by rw [if_pos ‹_›, same]; rfl, holds⟩
    · omega
  have counted := represented.wellFormed.countEntries_eq
  rw [(decodedAll_facts headerSize 0 0 entries).2.1, same] at counted
  rw [represented.wellFormed.bytes, ok_bind, counted, ok_bind]
  split
  · rename_i few
    have stored : store zl 8 (littleEndian 2 strings.length) =
        .ok (image strings.length entries) := by
      rw [shape, image, image, header, header, append_assoc, append_assoc,
        ← append_assoc (littleEndian 4 _)]
      exact store_middle (by simp) (by simp)
    rw [stored]
    exact ⟨_, rfl, entries.length, entries, values,
      ⟨strings.length, rfl, Nat.le_refl _, by rw [same, if_pos few]⟩, represented.chain,
      represented.bounded⟩
  · exact ⟨zl, rfl, holds⟩

end Reading

section Writing

variable {zl : Bytes} {strings : List Bytes} {at_ p : Nat}

/-- Deleting at a pointer deletes that string. -/
theorem Points.delete (points : Points zl strings at_ p) (inside : at_ < strings.length)
    (unknown : Nat → UInt8) :
    Meets (ziplistDelete unknown zl p) (TooLarge (space (strings.eraseIdx at_))) fun zl =>
      Points zl (strings.eraseIdx at_) at_ p := by
  -- The entries in front of the deleted one keep their sizes.
  obtain ⟨peak, -, front, entry, rest, -, place, -, count, values, represented⟩ :=
    points.cut (getElem?_eq_getElem inside)
  have kept : (front ++ rest).map Entry.value = (strings.eraseIdx at_).map toValue := by
    have erased := congrArg (List.eraseIdx · at_) values
    rw [← count] at erased ⊢
    simpa [eraseIdx_append_of_length_le, eraseIdx_map] using erased
  have deleted := @_ziplistDelete_meets unknown peak 1 front rest zl [entry] represented (by simp)
    (.inl rfl)
  rw [place]
  rw [kept] at deleted
  refine (deleted.permit fun fault large => large.mono (room_le_space _)).mono ?_
  rintro zl ⟨others, same, represented⟩
  refine ⟨peak, front ++ others, ?_, represented, ?_⟩
  · rw [← kept, map_append, same, ← map_append]
  · rw [← count, take_left]

theorem Points.replace (points : Points zl strings at_ p) (inside : at_ < strings.length)
    (unknown : Nat → UInt8) (s : Bytes) :
    Meets (ziplistReplace unknown zl p s) (TooLarge (space (strings.set at_ s))) fun zl =>
      Holds zl (strings.set at_ s) := by
  -- The entries on both sides keep their values.
  obtain ⟨peak, -, front, entry, rest, -, place, -, count, values, represented⟩ :=
    points.cut (getElem?_eq_getElem inside)
  have changed : front.map Entry.value ++ toValue s :: rest.map Entry.value =
      (strings.set at_ s).map toValue := by
    rw [map_set, ← values, map_append, set_append_right _ _ (by simp [count])]
    simp [count]
  have replaced := @ziplistReplace_meets unknown peak front rest zl s entry represented
  rw [changed] at replaced
  rw [place]
  refine (replaced.permit fun fault large => large.mono (room_le_space _)).mono ?_
  exact fun zl held => ⟨peak, held⟩

theorem Holds.push_tail (holds : Holds zl strings) (unknown : Nat → UInt8) (s : Bytes) :
    Meets (ziplistPush unknown zl s .tail) (TooLarge (space (strings ++ [s]))) fun zl =>
      Holds zl (strings ++ [s]) := by
  obtain ⟨peak, held⟩ := holds
  exact (serve_meets unknown (.push s .tail) held trivial).mono fun zl held => ⟨_, held⟩

end Writing

end LearningNotes.Ziplist
