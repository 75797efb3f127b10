import LearningNotes.Aof.Basic

/-! The reader of the append-only file takes whole commands and notices torn ones. -/

namespace LearningNotes.Aof

open Lib Util List

variable {part missing rest : Bytes} {feof : Bool}

/-- The front of a header line that was cut, maybe with the first end byte. -/
structure TornHeader (mark : UInt8) (number : Nat) (part digits tail : Bytes) : Prop where
  shape : part = mark :: (digits ++ tail)
  front : ∃ more, natDigits number = digits ++ more
  tail_cases : tail = [] ∨ tail = [13] ∧ digits = natDigits number

variable {mark : UInt8} {number : Nat} {arg : Bytes} {argv : List Bytes}

/-- A header that is cut off is the mark, some of its digits and a piece of the line end. -/
theorem exists_tornHeader (nonempty : part ≠ []) (torn : missing ≠ [])
    (whole : part ++ missing = headerLine mark number) :
    ∃ digits tail, TornHeader mark number part digits tail := by
  obtain ⟨first, part, rfl⟩ := exists_cons_of_ne_nil nonempty
  obtain ⟨rfl, behind⟩ : first = mark ∧ part ++ missing = natDigits number ++ crlf := by
    simpa [headerLine] using whole
  -- The cut is within the digits or behind them.
  rcases append_eq_append_iff.mp behind with ⟨more, digits, _⟩ | ⟨tail, shape, ends⟩
  · exact ⟨part, [], by simp, ⟨more, digits⟩, .inl rfl⟩
  refine ⟨natDigits number, tail, by rw [shape], ⟨[], by simp⟩, ?_⟩
  match tail, ends with
  | [], _ => exact .inl rfl
  | [_], ends =>
    obtain ⟨rfl, _⟩ := List.cons.inj ends
    exact .inr ⟨rfl, rfl⟩
  | _ :: _ :: _, ends =>
    -- With both end bytes the line is whole.
    have none : missing = [] := by
      have lengths := congrArg List.length ends
      simp only [crlf, length_cons, length_append, length_nil] at lengths
      exact length_eq_zero_iff.mp (by omega)
    exact absurd none torn

section TornHeader

variable {mark : UInt8} {number : Nat} {digits tail : Bytes}

section Torn

variable (torn : TornHeader mark number part digits tail)
include torn

theorem TornHeader.all_digits : ∀ byte ∈ digits, IsDigit byte := by
  obtain ⟨more, whole⟩ := torn.front
  intro byte member
  exact isDigit_of_mem_natDigits (whole ▸ mem_append_left more member)

theorem TornHeader.stops : Stops tail := by
  intro byte first
  rcases torn.tail_cases with rfl | ⟨rfl, _⟩
  · cases first
  · cases first
    rfl

/-- The digits that are left never read as a larger number. -/
theorem TornHeader.value_le : digitsValue digits ≤ number := by
  obtain ⟨more, whole⟩ := torn.front
  have le := digitsValue_le_append digits more
  rwa [← whole, digitsValue_natDigits] at le

theorem TornHeader.fgets_eq (other : mark ≠ 10) (small : number < 10 ^ 19) :
    fgets 128 ⟨part, feof⟩ = (some part, ⟨[], true⟩) := by
  -- There is no newline in it, and it is shorter than the buffer.
  have ends : 10 ∉ tail ∧ tail.length ≤ 1 := by
    rcases torn.tail_cases with rfl | ⟨rfl, _⟩
    · simp
    · simp
  have absent : 10 ∉ digits := fun member => absurd (torn.all_digits 10 member).1 (by decide)
  have short : digits.length ≤ 19 := by
    obtain ⟨more, whole⟩ := torn.front
    have le := length_natDigits_le (by decide) small
    rw [whole, length_append] at le
    omega
  refine fgets_last ?_ ?_ (by simp [torn.shape])
  · rw [torn.shape]
    simp [other.symm, absent, ends.1]
  · rw [torn.shape]
    simp only [length_cons, length_append]
    omega

theorem TornHeader.strtol_nonneg (small : number < 2 ^ 63) : 0 ≤ strtol (digits ++ tail) := by
  by_cases bare : digits = []
  · rcases torn.tail_cases with rfl | ⟨rfl, _⟩
    · rw [bare]
      decide
    · rw [bare]
      decide
  · have le := torn.value_le
    rw [strtol_digits bare torn.all_digits torn.stops (by omega)]
    omega

theorem TornHeader.atoi_pos (some : digits ≠ []) (positive : 0 < number) (small : number < 2 ^ 31) :
    charAt (mark :: (digits ++ tail)) 1 ≠ 0 ∧ 1 ≤ atoi (digits ++ tail) := by
  -- The first digit is that of the whole number, so it is no zero.
  obtain ⟨first, others, rfl⟩ := exists_cons_of_ne_nil some
  obtain ⟨more, whole⟩ := torn.front
  obtain ⟨leading, _, shape, large⟩ := natDigits_head number
  have same : first = leading := by
    rw [whole, cons_append] at shape
    exact (List.cons.inj shape).1
  have bound := large positive
  rw [← same] at bound
  constructor
  · intro zero
    have equal : first = 0 := by simpa [charAt] using zero
    simp [equal] at bound
  have le := torn.value_le
  have ge := digitsValue_le_append [first] others
  have one : digitsValue [first] = first.toNat - 48 := by simp [digitsValue]
  rw [singleton_append] at ge
  rw [atoi_digits some torn.all_digits torn.stops (by omega)]
  omega

end Torn

end TornHeader

theorem fgets_headerLine (other : mark ≠ 10) (small : number < 10 ^ 19) :
    fgets 128 ⟨headerLine mark number ++ rest, feof⟩ =
      (some (mark :: (natDigits number ++ crlf)), ⟨rest, feof⟩) := by
  have short := length_natDigits_le (by decide) small
  have split : headerLine mark number ++ rest = (mark :: (natDigits number ++ [13])) ++ 10 :: rest := by
    simp [headerLine, crlf]
  rw [split, fgets_line ?_ ?_]
  · simp [crlf]
  · simp [other.symm, (ends_not_mem_natDigits number).2]
  · simp only [length_cons, length_append, length_nil]
    omega

theorem charAt_header_ne_zero (number : Nat) :
    charAt (mark :: (natDigits number ++ crlf)) 1 ≠ 0 := by
  obtain ⟨first, others, shape, _⟩ := natDigits_head number
  have member : first ∈ natDigits number := by simp [shape]
  have digit := isDigit_of_mem_natDigits member
  intro zero
  have equal : first = 0 := by simpa [charAt, shape] using zero
  have low := digit.1
  simp [equal] at low

theorem strtol_headerLine (small : number < 2 ^ 63) :
    strtol (natDigits number ++ crlf) = number := by
  obtain ⟨first, others, shape, _⟩ := natDigits_head number
  have stops : Stops crlf := fun byte first => by cases first; rfl
  have value := digitsValue_natDigits number
  rw [strtol_digits (by simp [shape]) (fun _ => isDigit_of_mem_natDigits) stops (by omega), value]

theorem atoi_headerLine (small : number < 2 ^ 31) : atoi (natDigits number ++ crlf) = number := by
  rw [atoi, strtol_headerLine (by omega)]
  exact toInt32_of_lt (by omega) (by omega)

theorem readBulk_whole :
    readBulk arg.length ⟨arg ++ (crlf ++ rest), feof⟩ = .done arg ⟨rest, feof⟩ := by
  have ends : fread 2 ⟨crlf ++ rest, feof⟩ = (some crlf, ⟨rest, feof⟩) := fread_front rfl
  rw [readBulk, fread_front rfl]
  dsimp only
  rw [ends]

theorem readBulk_short {len : Nat} {fp : File} (short : fp.rest.length < len + 2) :
    readBulk len fp = .readerr true := by
  by_cases cut : fp.rest.length < len
  · rw [readBulk, fread_short cut]
  · -- The argument is there; at most one byte is left for the end of the line.
    rw [readBulk, fread, if_pos (by omega)]
    dsimp only
    rw [fread_short (by simp; omega)]

theorem readArg_bulk (small : arg.length < 2 ^ 63) :
    readArg ⟨bulk arg ++ rest, feof⟩ = .done arg ⟨rest, feof⟩ := by
  rw [readArg, bulk, append_assoc, fgets_headerLine (by decide) (by omega)]
  dsimp only
  rw [if_neg (by simp [charAt]), drop_one, tail_cons, strtol_headerLine small,
    if_neg (by omega), Int.toNat_natCast, append_assoc, readBulk_whole]

/-- An argument that is cut off anywhere is read as an error at the end of the file. -/
theorem readArg_torn (small : arg.length < 2 ^ 63) (torn : missing ≠ [])
    (whole : part ++ missing = bulk arg) : readArg ⟨part, feof⟩ = .readerr true := by
  by_cases empty : part = []
  · rw [empty, readArg, fgets_nil (by decide)]
  rcases cut_cases whole with ⟨kept, shape, behind⟩ | ⟨more, torn, header⟩
  · -- The header is whole, and what follows it is too short.
    have lengths := congrArg List.length behind
    have lost : 0 < missing.length := length_pos_iff.mpr torn
    have ends : crlf.length = 2 := rfl
    simp only [length_append] at lengths
    rw [shape, readArg, fgets_headerLine (by decide) (by omega)]
    dsimp only
    rw [if_neg (by simp [charAt]), drop_one, tail_cons, strtol_headerLine small,
      if_neg (by omega), readBulk_short]
    simp only [Int.toNat_natCast]
    omega
  · -- The length is read from the digits that are left; there are no bytes behind it.
    obtain ⟨digits, tail, header⟩ := exists_tornHeader empty torn header
    have value : 0 ≤ strtol (digits ++ tail) := header.strtol_nonneg small
    rw [readArg, header.fgets_eq (by decide) (by omega)]
    dsimp only
    rw [header.shape, if_neg (by simp [charAt]), drop_one, tail_cons,
      if_neg (by omega), readBulk_short (by simp)]

theorem readArgs_bulks (small : ∀ arg ∈ argv, arg.length < 2 ^ 63) :
    readArgs argv.length ⟨argv.flatMap bulk ++ rest, feof⟩ = .done argv ⟨rest, feof⟩ := by
  induction argv with
  | nil => rfl
  | cons arg argv ih =>
    obtain ⟨this, others⟩ := forall_mem_cons.mp small
    rw [length_cons, readArgs, flatMap_cons, append_assoc, readArg_bulk this]
    dsimp only
    rw [ih others]

theorem readArgs_nil {argc : Nat} (some : 0 < argc) : readArgs argc ⟨[], feof⟩ = .readerr true := by
  obtain ⟨argc, rfl⟩ := Nat.exists_eq_succ_of_ne_zero (Nat.ne_of_gt some)
  rw [readArgs, readArg, fgets_nil (by decide)]

theorem readArgs_torn (small : ∀ arg ∈ argv, arg.length < 2 ^ 63) (torn : missing ≠ [])
    {part : Bytes} (whole : part ++ missing = argv.flatMap bulk) :
    readArgs argv.length ⟨part, feof⟩ = .readerr true := by
  induction argv generalizing part with
  | nil => exact absurd (append_eq_nil_iff.mp whole).2 torn
  | cons arg argv ih =>
    obtain ⟨this, others⟩ := forall_mem_cons.mp small
    rw [length_cons, readArgs]
    -- Either the first argument is torn, or it is whole and the others are torn.
    rcases cut_cases whole with ⟨kept, shape, behind⟩ | ⟨more, torn, first⟩
    · rw [shape, readArg_bulk this]
      dsimp only
      rw [ih others behind]
    · rw [readArg_torn this torn first]

structure Encodable (argv : List Bytes) : Prop where
  nonempty : argv ≠ []
  few : argv.length < 2 ^ 31
  small : ∀ arg ∈ argv, arg.length < 2 ^ 63

/-- A command that was written whole is read back, and the rest stays. -/
theorem readCommand_multibulk (fits : Encodable argv) :
    readCommand ⟨multibulk argv ++ rest, feof⟩ = .done argv ⟨rest, feof⟩ := by
  have few := fits.few
  have some : 0 < argv.length := length_pos_iff.mpr fits.nonempty
  rw [readCommand, multibulk, append_assoc, fgets_headerLine (by decide) (by omega)]
  dsimp only
  rw [if_neg (by simp [charAt]), if_neg (charAt_header_ne_zero _), drop_one, tail_cons,
    atoi_headerLine few, if_neg (by omega), Int.toNat_natCast, readArgs_bulks fits.small]

theorem readCommand_nil : readCommand ⟨[], feof⟩ = .eof := by
  rw [readCommand, fgets_nil (by decide)]
  rfl

/-- A command that is cut off is never taken for a whole one. -/
theorem readCommand_torn (fits : Encodable argv) (nonempty : part ≠ []) (torn : missing ≠ [])
    (whole : part ++ missing = multibulk argv) :
    readCommand ⟨part, feof⟩ = .readerr true := by
  have few := fits.few
  have some : 0 < argv.length := length_pos_iff.mpr fits.nonempty
  rcases cut_cases whole with ⟨kept, shape, behind⟩ | ⟨more, torn, header⟩
  · rw [shape, readCommand, fgets_headerLine (by decide) (by omega)]
    dsimp only
    rw [if_neg (by simp [charAt]), if_neg (charAt_header_ne_zero _), drop_one, tail_cons,
      atoi_headerLine few, if_neg (by omega), Int.toNat_natCast,
      readArgs_torn fits.small torn behind]
  -- Of the count some digits are left, or none.
  obtain ⟨digits, tail, header⟩ := exists_tornHeader nonempty torn header
  rw [readCommand, header.fgets_eq (by decide) (by omega)]
  dsimp only
  rw [header.shape, if_neg (by simp [charAt])]
  by_cases bare : digits = []
  · have nothing : tail = [] := by
      rcases header.tail_cases with empty | ⟨_, whole⟩
      · exact empty
      · obtain ⟨first, others, digits, _⟩ := natDigits_head argv.length
        exact absurd (bare.symm.trans (whole.trans digits)) (by simp)
    rw [bare, nothing, if_pos (by simp [charAt])]
  · obtain ⟨solid, value⟩ := header.atoi_pos bare some few
    rw [if_neg solid, drop_one, tail_cons, if_neg (by omega), readArgs_nil (by omega)]

end LearningNotes.Aof
