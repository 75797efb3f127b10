import LearningNotes.Ziplist.Delete
import LearningNotes.Ziplist.Traverse

/-! The ziplist as a list of byte strings: every run of calls keeps it well formed and exact. -/

namespace LearningNotes.Ziplist

open Lib Util List Prod

/-- Decode the entries up to the end of the ziplist. -/
def entriesFrom (zl : Bytes) : Nat → Nat → Except Fault (List Zlentry)
  | 0, _ => .error .noProgress
  | fuel + 1, p => do
    if (← peek zl p) = zipEnd then return []
    else
      let entry ← zipEntry zl p
      let rest ← entriesFrom zl fuel (p + (entry.headersize + entry.len))
      return entry :: rest

/-- Prevlen fields hold the sizes before, and no byte lies between entries. -/
def PrevlensExact : Nat → Nat → List Zlentry → Prop
  | _, _, [] => True
  | p, prev, entry :: rest =>
    (entry.p = p ∧ entry.prevrawlen = prev) ∧
      PrevlensExact (p + (entry.headersize + entry.len)) (entry.headersize + entry.len) rest

/-- The header and the prevlen fields are exact, but for the length field of a ziplist that has once
had more entries than it can count. -/
structure WellFormed (peak : Nat) (zl : Bytes) (entries : List Zlentry) : Prop where
  decoded : entriesFrom zl zl.length headerSize = .ok entries
  bytes : ziplistBytes zl = .ok zl.length
  tail : ziplistTailOffset zl = .ok ((entries.getLast?.map Zlentry.p).getD headerSize)
  prevlens : PrevlensExact headerSize 0 entries
  most : entries.length ≤ peak
  length : ziplistLength zl = .ok (if peak < uint16Max then entries.length else uint16Max)
  closed : headerSize + (entries.map fun entry => entry.headersize + entry.len).sum + endSize =
    zl.length

def decodedAll : Nat → Nat → List Entry → List Zlentry
  | _, _, [] => []
  | p, prev, entry :: rest => entry.decoded prev p :: decodedAll (p + entry.size) entry.size rest

section Decoded

variable {length : Nat}

theorem entriesFrom_eq {back : List Entry} {front : List Entry} {fuel : Nat}
    (stored : Stored (front ++ back)) (fueled : back.length < fuel) :
    entriesFrom (image length (front ++ back)) fuel (headerSize + totalSize front) =
      .ok (decodedAll (headerSize + totalSize front) (lastSize 0 front) back) := by
  induction back generalizing front fuel with
  | nil =>
    obtain ⟨fuel, rfl⟩ := Nat.exists_eq_succ_of_ne_zero (Nat.ne_zero_of_lt fueled)
    rw [entriesFrom, append_nil, peek_image_end, ok_bind, if_pos rfl]
    rfl
  | cons entry rest ih =>
    obtain ⟨fuel, rfl⟩ := Nat.exists_eq_succ_of_ne_zero (Nat.ne_zero_of_lt fueled)
    obtain ⟨⟨byte, peeked, more⟩, -, -, found, -⟩ :=
      @image_reads length front rest entry stored
    have view := append_cons front entry rest
    have onward := @ih (front ++ [entry]) fuel (view ▸ stored) (by simp at fueled; omega)
    rw [← view, ← place_next, lastSize_append] at onward
    rw [entriesFrom, peeked, ok_bind, if_neg more, found, ok_bind, entry.decoded_size, onward]
    rfl

theorem decodedAll_facts (p prev last : Nat) (entries : List Entry) :
    PrevlensExact p prev (decodedAll p prev entries) ∧
      (decodedAll p prev entries).length = entries.length ∧
      ((decodedAll p prev entries).map fun entry => entry.headersize + entry.len).sum =
        totalSize entries ∧
      ((decodedAll p prev entries).getLast?.map Zlentry.p).getD last = lastAt last p entries := by
  induction entries generalizing p prev last with
  | nil => exact ⟨trivial, rfl, rfl, rfl⟩
  | cons entry rest ih =>
    obtain ⟨exact_, counted, total, tail⟩ := ih (p + entry.size) entry.size p
    have size := entry.decoded_size prev p
    refine ⟨⟨⟨rfl, rfl⟩, ?_⟩, by simp [decodedAll, counted], ?_, ?_⟩
    · rw [size]
      exact exact_
    · simp only [decodedAll, map_cons, sum_cons, size, total, totalSize]
    · rw [lastAt, ← tail, decodedAll, getLast?_cons]
      cases (decodedAll (p + entry.size) entry.size rest).getLast? <;> rfl

end Decoded

theorem Represents.wellFormed {peak : Nat} {zl : Bytes} {entries : List Entry}
    (represented : Represents peak zl entries) :
    WellFormed peak zl (decodedAll headerSize 0 entries) := by
  have stored := represented.stored
  obtain ⟨length, shape, counts⟩ := represented.shape
  obtain ⟨prevlens, counted, total, tail⟩ := decodedAll_facts headerSize 0 headerSize entries
  have many := two_mul_length_le_totalSize entries
  have sized := length_image length entries
  rw [shape]
  refine ⟨?_, ?_, ?_, prevlens, counted ▸ counts.1, ?_, ?_⟩
  · exact @entriesFrom_eq length entries [] _ stored (by rw [sized, endSize]; omega)
  · rw [sized]
    exact ziplistBytes_image stored
  · rw [tail]
    exact ziplistTailOffset_image stored
  · rw [counted, image, ziplistLength_header counts.bounded, counts.2]
  · rw [total, sized]

/-- The operations, with positions in place of pointers. -/
inductive Call where
  | push (s : Bytes) (end_ : Where)
  | insert (at_ : Nat) (s : Bytes)
  | delete (at_ : Nat)
  | deleteRange (index : Int) (num : Nat)
  | replace (at_ : Nat) (s : Bytes)
deriving DecidableEq, Repr

def pointerAt (zl : Bytes) (at_ : Nat) : Except Fault Nat := do
  match ← ziplistIndex zl at_ with
  | some p => return p
  | none => return (← ziplistBytes zl) - 1

def serve (unknown : Nat → UInt8) (zl : Bytes) : Call → Except Fault Bytes
  | .push s end_ => ziplistPush unknown zl s end_
  | .insert at_ s => do ziplistInsert unknown zl (← pointerAt zl at_) s
  | .delete at_ => do ziplistDelete unknown zl (← pointerAt zl at_)
  | .deleteRange index num => ziplistDeleteRange unknown zl index num
  | .replace at_ s => do ziplistReplace unknown zl (← pointerAt zl at_) s

def run (zl : Bytes) : List ((Nat → UInt8) × Call) → Except Fault Bytes
  | [] => .ok zl
  | (unknown, call) :: calls => do run (← serve unknown zl call) calls

def listCall (strings : List Bytes) : Call → List Bytes
  | .push s .head => s :: strings
  | .push s .tail => strings ++ [s]
  | .insert at_ s => strings.take at_ ++ s :: strings.drop at_
  | .delete at_ => strings.eraseIdx at_
  | .deleteRange index num =>
    match position strings.length index with
    | none => strings
    | some i => strings.take i ++ strings.drop (i + num)
  | .replace at_ s => strings.set at_ s

def listRun : List Bytes → List Call → List Bytes
  | strings, [] => strings
  | strings, call :: calls => listRun (listCall strings call) calls

/-- The largest number of strings that there have been. -/
def peakRun : Nat → List Bytes → List Call → Nat
  | peak, _, [] => peak
  | peak, strings, call :: calls =>
    peakRun (max peak (listCall strings call).length) (listCall strings call) calls

def ValidCall (strings : List Bytes) : Call → Prop
  | .push _ _ => True
  | .insert at_ _ => at_ ≤ strings.length
  | .delete at_ => at_ < strings.length
  -- Any index will do, but there must be an entry to start counting from.
  | .deleteRange index _ => strings ≠ [] ∨ index ≤ 0
  | .replace at_ _ => at_ < strings.length

instance (strings : List Bytes) : ∀ call, Decidable (ValidCall strings call)
  | .push _ _ => isTrue trivial
  | .insert at_ _ => inferInstanceAs (Decidable (at_ ≤ strings.length))
  | .delete at_ => inferInstanceAs (Decidable (at_ < strings.length))
  | .deleteRange index _ => inferInstanceAs (Decidable (strings ≠ [] ∨ index ≤ 0))
  | .replace at_ _ => inferInstanceAs (Decidable (at_ < strings.length))

def ValidRun : List Bytes → List Call → Prop
  | _, [] => True
  | strings, call :: calls => ValidCall strings call ∧ ValidRun (listCall strings call) calls

instance decidableValidRun : ∀ strings calls, Decidable (ValidRun strings calls)
  | _, [] => isTrue trivial
  | strings, call :: calls =>
    have := decidableValidRun (listCall strings call) calls
    inferInstanceAs (Decidable (_ ∧ _))

/-- An upper bound of the bytes of a ziplist. -/
def space : List Bytes → Nat
  | [] => headerSize + endSize
  | s :: strings => s.length + 14 + space strings

/-- Some call asks for a list that may not fit. -/
def Overflows (strings : List Bytes) (calls : List Call) : Prop :=
  ∃ done call rest, calls = done ++ call :: rest ∧
    uint32Max ≤ space (listRun strings (done ++ [call]))

/-- The ziplist has these strings, and has had so many at most. -/
def HoldsAt (peak : Nat) (zl : Bytes) (strings : List Bytes) : Prop :=
  ∃ entries, entries.map Entry.value = strings.map toValue ∧ Represents peak zl entries

def Holds (zl : Bytes) (strings : List Bytes) : Prop := ∃ peak, HoldsAt peak zl strings

theorem ziplistNew_holdsAt : HoldsAt 0 ziplistNew [] :=
  ⟨[], rfl, ⟨0, rfl, Nat.le_refl _, rfl⟩, trivial, by decide⟩

theorem ziplistNew_holds : Holds ziplistNew [] := ⟨0, ziplistNew_holdsAt⟩

theorem intEncodingSize_le {encoding : UInt8} {size : Nat}
    (known : intEncodingSize encoding = some size) : size ≤ 8 := by
  unfold intEncodingSize at known
  repeat' split at known
  all_goals cases known
  all_goals decide

theorem length_header_le (value : Value) : value.header.length ≤ 5 := by
  cases value with
  | int number => simp [Value.header]
  | str s =>
    simp only [Value.header, zipStoreEntryEncoding]
    repeat' split
    all_goals simp

theorem length_body_toValue (s : Bytes) : (toValue s).body.length ≤ s.length + 9 := by
  have header := length_header_le (toValue s)
  simp only [Value.body, length_append]
  unfold toValue at *
  cases parsed : zipTryEncoding s with
  | none =>
    simp only [parsed] at header ⊢
    simp only [Value.content]
    omega
  | some pair =>
    obtain ⟨size, known⟩ := (zipIntEncoding_valid pair.1).2.2
    have small := intEncodingSize_le known
    simp only [Value.header, Value.content, known, twosComplement, length_littleEndian,
      Option.getD_some, length_singleton]
    omega

theorem room_le_space (strings : List Bytes) :
    headerSize + room (strings.map toValue) + endSize ≤ space strings := by
  induction strings with
  | nil => exact Nat.le_refl _
  | cons s strings ih =>
    have bound := length_body_toValue s
    simp only [map_cons, room, space]
    omega

section Serving

variable {peak : Nat} {zl : Bytes} {strings : List Bytes} {entries : List Entry}

theorem pointerAt_eq {at_ : Nat} (represented : Represents peak zl entries)
    (inside : at_ ≤ entries.length) :
    pointerAt zl at_ = .ok (headerSize + totalSize (entries.take at_)) := by
  have stored := represented.stored
  obtain ⟨length, shape, -⟩ := represented.shape
  have some : entries ≠ [] ∨ (at_ : Int) ≤ 0 := by
    cases entries with
    | nil => exact .inr (by simpa using inside)
    | cons entry rest => exact .inl (cons_ne_nil entry rest)
  rw [pointerAt, shape, ziplistIndex_eq stored some, ok_bind]
  by_cases within : at_ < entries.length
  · rw [position, if_pos (Int.natCast_nonneg at_), if_pos (by omega)]
    rfl
  · rw [position, if_pos (Int.natCast_nonneg at_), if_neg (by omega), take_of_length_le (by omega)]
    simp only [Option.map_none, ziplistBytes_image stored, ok_bind]
    rfl

theorem take_values (values : entries.map Entry.value = strings.map toValue) (count : Nat) :
    (entries.take count).map Entry.value = (strings.take count).map toValue := by
  rw [map_take, values, map_take]

theorem drop_values (values : entries.map Entry.value = strings.map toValue) (count : Nat) :
    (entries.drop count).map Entry.value = (strings.drop count).map toValue := by
  rw [map_drop, values, map_drop]

theorem insert_holds (unknown : Nat → UInt8) {s : Bytes} (at_ : Nat)
    (values : entries.map Entry.value = strings.map toValue)
    (represented : Represents peak zl entries) :
    Meets (_ziplistInsert unknown zl (headerSize + totalSize (entries.take at_)) s)
      (TooLarge (space (strings.take at_ ++ s :: strings.drop at_)))
      fun zl => HoldsAt (max peak (strings.take at_ ++ s :: strings.drop at_).length) zl
        (strings.take at_ ++ s :: strings.drop at_) := by
  have inserted := @_ziplistInsert_meets unknown (entries.take at_) s peak zl (entries.drop at_)
    (by rwa [take_append_drop])
  have same : entries.length = strings.length := by simpa using congrArg List.length values
  have more : (strings.take at_ ++ s :: strings.drop at_).length = entries.length + 1 := by
    simp
    omega
  have mapped : (strings.take at_).map toValue ++ toValue s :: (strings.drop at_).map toValue =
      (strings.take at_ ++ s :: strings.drop at_).map toValue := by simp
  rw [take_values values, drop_values values, mapped, take_append_drop, ← more] at inserted
  exact inserted.permit fun fault large => large.mono (room_le_space _)

theorem delete_holds (unknown : Nat → UInt8) {at_ num : Nat} (inside : at_ < entries.length)
    (values : entries.map Entry.value = strings.map toValue)
    (represented : Represents peak zl entries) :
    Meets (_ziplistDelete unknown zl (headerSize + totalSize (entries.take at_)) num)
      (TooLarge (space (strings.take at_ ++ strings.drop (at_ + num))))
      fun zl => HoldsAt peak zl (strings.take at_ ++ strings.drop (at_ + num)) := by
  have parts : (entries.drop at_).take num ++ entries.drop (at_ + num) = entries.drop at_ := by
    rw [← drop_drop, take_append_drop]
  have removes : Removes num ((entries.drop at_).take num) (entries.drop (at_ + num)) := by
    simp only [Removes, length_take, length_drop, drop_eq_nil_iff]
    omega
  have deleted := @_ziplistDelete_meets unknown peak num (entries.take at_)
    (entries.drop (at_ + num)) zl ((entries.drop at_).take num) (by rwa [parts, take_append_drop])
    (by simp [drop_eq_nil_iff]; omega) removes
  have mapped : (entries.take at_ ++ entries.drop (at_ + num)).map Entry.value =
      (strings.take at_ ++ strings.drop (at_ + num)).map toValue := by
    rw [map_append, take_values values, drop_values values, map_append]
  rw [mapped] at deleted
  refine (deleted.permit fun fault large => large.mono (room_le_space _)).mono ?_
  rintro zl ⟨kept, same, represented⟩
  exact ⟨entries.take at_ ++ kept, by rw [← mapped, map_append, same, ← map_append], represented⟩

theorem serve_meets (unknown : Nat → UInt8) (call : Call) (holds : HoldsAt peak zl strings)
    (valid : ValidCall strings call) :
    Meets (serve unknown zl call) (TooLarge (space (listCall strings call)))
      fun zl => HoldsAt (max peak (listCall strings call).length) zl (listCall strings call) := by
  obtain ⟨entries, values, represented⟩ := holds
  have same : entries.length = strings.length := by
    simpa using congrArg List.length values
  obtain ⟨-, -, most, -⟩ := represented.shape
  -- Where no string is added, the number of them is not a new maximum.
  have kept : (listCall strings call).length ≤ strings.length →
      max peak (listCall strings call).length = peak := by omega
  cases call with
  | push s end_ =>
    obtain ⟨length, shape, -⟩ := represented.shape
    have bytes : ziplistBytes zl = .ok (headerSize + totalSize entries + endSize) :=
      shape ▸ ziplistBytes_image represented.stored
    rw [serve, ziplistPush, bytes, ok_bind]
    cases end_ with
    | head => exact insert_holds unknown 0 values represented
    | tail =>
      have inserted := @insert_holds peak zl strings entries unknown s entries.length values
        represented
      rw [take_length, same, take_length, drop_length] at inserted
      exact inserted
  | insert at_ s =>
    have inside : at_ ≤ entries.length := same ▸ valid
    rw [serve, pointerAt_eq represented inside, ok_bind]
    exact insert_holds unknown at_ values represented
  | delete at_ =>
    have inside : at_ < entries.length := same ▸ valid
    rw [kept (length_eraseIdx_le ..), serve, pointerAt_eq represented (Nat.le_of_lt inside),
      listCall, eraseIdx_eq_take_drop_succ]
    exact delete_holds unknown inside values represented
  | deleteRange index num =>
    obtain ⟨length, shape, -⟩ := represented.shape
    have some : entries ≠ [] ∨ index ≤ 0 := by
      refine valid.imp (fun more none => more ?_) id
      rw [none] at same
      exact eq_nil_of_length_eq_zero same.symm
    have found : ziplistIndex zl index = _ := shape ▸ ziplistIndex_eq represented.stored some
    have fewer : (listCall strings (.deleteRange index num)).length ≤ strings.length := by
      rw [listCall]
      split
      · exact Nat.le_refl _
      · simp
        omega
    rw [kept fewer, serve, ziplistDeleteRange, found, listCall, ← same]
    cases place : position entries.length index with
    | none => exact ⟨entries, values, represented⟩
    | some i => exact delete_holds unknown (position_lt place) values represented
  | replace at_ s =>
    have inside : at_ < entries.length := same ▸ valid
    have parts : entries.take at_ ++ entries[at_] :: entries.drop (at_ + 1) = entries := by simp
    have replaced := @ziplistReplace_meets unknown peak (entries.take at_)
      (entries.drop (at_ + 1)) zl s entries[at_] (by rwa [parts])
    have mapped : (strings.take at_).map toValue ++ toValue s ::
        (strings.drop (at_ + 1)).map toValue = (strings.set at_ s).map toValue := by
      rw [set_eq_take_append_cons_drop, if_pos (same ▸ inside)]
      simp
    rw [take_values values, drop_values values, mapped] at replaced
    rw [kept (Nat.le_of_eq length_set), serve, pointerAt_eq represented (Nat.le_of_lt inside),
      ok_bind]
    exact replaced.permit fun fault large => large.mono (room_le_space _)

end Serving

theorem run_meets (calls : List ((Nat → UInt8) × Call)) {peak : Nat} {zl : Bytes}
    {strings : List Bytes} (holds : HoldsAt peak zl strings)
    (valid : ValidRun strings (calls.map snd)) :
    Meets (run zl calls)
      (fun fault => fault = .tooLarge ∧ Overflows strings (calls.map snd))
      fun zl => HoldsAt (peakRun peak strings (calls.map snd)) zl
        (listRun strings (calls.map snd)) := by
  induction calls generalizing peak zl strings with
  | nil => exact holds
  | cons first calls ih =>
    obtain ⟨unknown, call⟩ := first
    refine Meets.bind ((serve_meets unknown call holds valid.1).permit ?_) ?_
    · intro fault large
      exact ⟨large.1, [], call, calls.map snd, rfl, large.2⟩
    intro zl holds
    refine (ih holds valid.2).permit ?_
    rintro fault ⟨large, done, later, rest, parts, needed⟩
    refine ⟨large, call :: done, later, rest, ?_, needed⟩
    rw [map_cons, parts]
    rfl

/-- After any run of valid calls the ziplist is well formed and reads as the list of strings. -/
theorem ziplist_refines_list (calls : List ((Nat → UInt8) × Call))
    (valid : ValidRun [] (calls.map snd)) :
    Meets (run ziplistNew calls)
      (fun fault => fault = .tooLarge ∧ Overflows [] (calls.map snd))
      fun zl => ∃ entries, WellFormed (peakRun 0 [] (calls.map snd)) zl entries ∧
        entries.length = (listRun [] (calls.map snd)).length ∧
        readAll zl = .ok (listRun [] (calls.map snd)) := by
  refine (run_meets calls ziplistNew_holdsAt valid).mono ?_
  rintro zl ⟨entries, values, represented⟩
  have strings : (entries.map fun entry => entry.value.bytes) = listRun [] (calls.map snd) := by
    have read := congrArg (List.map Value.bytes) values
    simpa [Function.comp_def, bytes_toValue] using read
  refine ⟨_, represented.wellFormed, ?_, ?_⟩
  · rw [(decodedAll_facts headerSize 0 headerSize entries).2.1, ← strings, length_map]
  · rw [represented.readAll_eq, strings]

/-- An entry outgrows two narrow prevlen fields; it stays folded, so as not to be executed. -/
@[irreducible] def growingRun : List ((Nat → UInt8) × Call) :=
  [(fun _ => 0, .push (List.replicate 250 97) .tail), (fun _ => 0, .push [49, 50] .head),
    (fun _ => 0, .push (List.replicate 250 98) .tail),
    (fun _ => 255, .replace 0 (List.replicate 300 99)), (fun _ => 7, .insert 3 [45, 55]),
    (fun _ => 7, .deleteRange (-2) 1), (fun _ => 1, .delete 0)]

theorem growingRun_valid : ValidRun [] (growingRun.map snd) := by decide +kernel

theorem growingRun_refines :
    ValidRun [] (growingRun.map snd) ∧
      Meets (run ziplistNew growingRun)
        (fun fault => fault = .tooLarge ∧ Overflows [] (growingRun.map snd))
        fun zl => ∃ entries, WellFormed (peakRun 0 [] (growingRun.map snd)) zl entries ∧
          entries.length = (listRun [] (growingRun.map snd)).length ∧
          readAll zl = .ok (listRun [] (growingRun.map snd)) :=
  ⟨growingRun_valid, ziplist_refines_list growingRun growingRun_valid⟩

end LearningNotes.Ziplist
