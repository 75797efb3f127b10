import LearningNotes.Networking.SplitArgs

/-! Strings quoted by `sdscatrepr` of `sds.c`, and how `sdssplitargs` reads them back. -/

namespace LearningNotes.Networking

open Lib List

def isPrint (byte : UInt8) : Bool := decide (32 ≤ byte) && decide (byte ≤ 126)

/-- A digit of `%02x`. -/
def hexChar (digit : UInt8) : UInt8 := if digit < 10 then 48 + digit else 87 + digit

/-- What a round of the loop of `sdscatrepr` appends. -/
def reprByte (byte : UInt8) : Bytes :=
  if byte = 92 ∨ byte = 34 then [92, byte]
  else if byte = 10 then [92, 110]
  else if byte = 13 then [92, 114]
  else if byte = 9 then [92, 116]
  else if byte = 7 then [92, 97]
  else if byte = 8 then [92, 98]
  else if isPrint byte then [byte]
  else [92, 120, hexChar (byte / 16), hexChar (byte % 16)]

def sdscatrepr (s p : Bytes) : Bytes :=
  p.foldl (fun s byte => s ++ reprByte byte) (s ++ [34]) ++ [34]

theorem sdscatrepr_eq (s p : Bytes) : sdscatrepr s p = s ++ 34 :: (p.flatMap reprByte ++ [34]) := by
  -- The loop appends what every round appends.
  have loop : ∀ s : Bytes, p.foldl (fun s byte => s ++ reprByte byte) s =
      s ++ p.flatMap reprByte := by
    induction p with
    | nil => simp
    | cons byte p ih =>
      intro s
      rw [foldl_cons, ih, flatMap_cons, append_assoc]
  rw [sdscatrepr, loop]
  simp

theorem hexDigit_hexChar (digit : Fin 16) :
    hexDigit (hexChar (.ofNat digit)) = some (.ofNat digit) ∧ hexChar (.ofNat digit) ≠ 0 := by
  revert digit
  decide

theorem hex_digits (byte : UInt8) :
    ∃ high low : Fin 16, byte / 16 = .ofNat high ∧ byte % 16 = .ofNat low ∧
      UInt8.ofNat high * 16 + .ofNat low = byte := by
  have small := byte.toNat_lt
  refine ⟨⟨byte.toNat / 16, by omega⟩, ⟨byte.toNat % 16, by omega⟩, ?_, ?_, ?_⟩
  · simp [← UInt8.toNat_inj]
    omega
  · simp [← UInt8.toNat_inj]
    omega
  · simp [← UInt8.toNat_inj]
    omega

theorem splitFrom_reprByte (current rest : Bytes) (byte : UInt8) :
    splitFrom (.inq current) (reprByte byte ++ rest) =
      splitFrom (.inq (current ++ [byte])) rest ∧ 0 ∉ reprByte byte := by
  unfold reprByte
  split
  · rename_i quoted
    rcases quoted with rfl | rfl
    · simp [splitFrom, unescape]
    · simp [splitFrom, unescape]
  rename_i plain
  rw [not_or] at plain
  split
  · subst byte
    simp [splitFrom, unescape]
  split
  · subst byte
    simp [splitFrom, unescape]
  split
  · subst byte
    simp [splitFrom, unescape]
  split
  · subst byte
    simp [splitFrom, unescape]
  split
  · subst byte
    simp [splitFrom, unescape]
  split
  · -- It stands for itself, and neither escapes nor closes.
    rename_i printed
    refine ⟨by simp [splitFrom, plain], ?_⟩
    intro zero
    rw [← mem_singleton.mp zero] at printed
    exact absurd printed (by decide)
  · obtain ⟨high, low, isHigh, isLow, whole⟩ := hex_digits byte
    obtain ⟨readHigh, highNonzero⟩ := hexDigit_hexChar high
    obtain ⟨readLow, lowNonzero⟩ := hexDigit_hexChar low
    rw [isHigh, isLow]
    simp [splitFrom, readHigh, readLow, whole, highNonzero.symm, lowNonzero.symm]

theorem splitFrom_repr (p current rest : Bytes) :
    splitFrom (.inq current) (p.flatMap reprByte ++ rest) =
      splitFrom (.inq (current ++ p)) rest := by
  induction p generalizing current with
  | nil => simp
  | cons byte p ih =>
    rw [flatMap_cons, append_assoc, (splitFrom_reprByte _ _ byte).1, ih, append_assoc,
      singleton_append]

theorem zero_notMem_sdscatrepr (p : Bytes) : 0 ∉ sdscatrepr [] p := by
  rw [sdscatrepr_eq]
  intro zero
  have inside : 0 ∈ p.flatMap reprByte := by simpa using zero
  obtain ⟨byte, _, zero⟩ := mem_flatMap.mp inside
  exact (splitFrom_reprByte [] [] byte).2 zero

theorem sdssplitargs_append (p : Bytes) {rest : Bytes} (closed : closes (rest.takeWhile (· ≠ 0))) :
    sdssplitargs (sdscatrepr [] p ++ rest) = (sdssplitargs rest).map (p :: ·) := by
  have whole : ∀ byte ∈ sdscatrepr [] p, decide (byte ≠ 0) = true := by
    intro byte member
    exact decide_eq_true fun zero => zero_notMem_sdscatrepr p (zero ▸ member)
  rw [sdssplitargs, sdssplitargs, takeWhile_append_of_pos whole]
  generalize rest.takeWhile (· ≠ 0) = line at closed
  rw [sdscatrepr_eq, nil_append, cons_append, append_assoc, splitFrom, if_neg (by decide),
    if_pos rfl, splitFrom_repr]
  simp [splitFrom, closed]

/-- Arguments that are quoted and joined by single spaces are split into the same arguments. -/
theorem sdssplitargs_sdscatrepr (args : List Bytes) :
    sdssplitargs ([32].intercalate (args.map (sdscatrepr []))) = some args := by
  -- One argument after the other is split off.
  induction args with
  | nil => rfl
  | cons p args ih =>
    cases args with
    | nil =>
      rw [map_singleton, intercalate_singleton, ← append_nil (sdscatrepr [] p),
        sdssplitargs_append p rfl]
      rfl
    | cons q args =>
      rw [map_cons, map_cons, intercalate_cons_cons, ← map_cons, append_assoc,
        sdssplitargs_append p rfl]
      have skipped : ∀ rest, sdssplitargs ([32] ++ rest) = sdssplitargs rest := fun rest => by
        simp [sdssplitargs, splitFrom, isSpace]
      rw [skipped, ih, Option.map_some]

end LearningNotes.Networking
