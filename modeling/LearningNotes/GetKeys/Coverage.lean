import LearningNotes.GetKeys.Positions
import LearningNotes.Lib.Outcome

/-! Where the second parsers find the keys that the commands use, and where SORT misleads them. -/

namespace LearningNotes.GetKeys

open Lib Util List

/-! ### Names of options -/

variable {arg s : Bytes} {name : String} {value : Int} {context : Context} {j : Nat}
    {args : List Bytes} {argv : Argv} {touched : List Nat} {command : Command}

theorem named_of_named (same : named arg name = true) (other : String) :
    named arg other = named (text name) other := by
  simp only [named, sameIgnoringCase, beq_iff_eq] at same ⊢
  rw [same]

/-- The names of the options, and the words in front of them. -/
def words : List String :=
  ["asc", "desc", "alpha", "limit", "store", "by", "get", "withdist", "withhash", "withcoord", "any",
    "count", "storedist", "block", "streams", "group", "noack", "idx", "len", "withmatchlen",
    "minmatchlen", "strings", "keys", "lcs", "m", "km", "ft", "mi"]

theorem words_apart : ∀ word ∈ words, (∀ other ∈ words, named (text word) other = (word == other)) ∧
    97 ≤ (((cString (text word)).map tolower).headD 0).toNat := by
  decide +kernel

theorem named_text {word other : String} (known : word ∈ words) (listed : other ∈ words) :
    named (text word) other = (word == other) :=
  (words_apart word known).1 other listed

theorem exists_word (arg : Bytes) : ∃ known ∈ none :: words.map some,
    ∀ other ∈ words, named arg other = (known == some other) := by
  -- The first word that the argument is named by is the only one.
  cases search : words.find? (named arg ·) with
  | none =>
    refine ⟨none, mem_cons_self, fun other listed => ?_⟩
    simpa using find?_eq_none.mp search other listed
  | some word =>
    have listed := mem_of_find?_eq_some search
    refine ⟨some word, mem_cons_of_mem _ (mem_map_of_mem listed), fun other inside => ?_⟩
    rw [named_of_named (find?_some search), named_text listed inside]
    rfl

theorem string2ll_head (parsed : string2ll s = some value) :
    ∃ first rest, s = first :: rest ∧ 0 < first.toNat ∧ first.toNat < 65 := by
  -- The canonical form of the number is at hand, and so is its first character.
  obtain ⟨written, -⟩ := string2ll_decimal parsed
  obtain ⟨first, rest, shape, -⟩ := natDigits_head value.natAbs
  rw [decimal] at written
  split at written
  · exact ⟨45, _, written.symm, by decide, by decide⟩
  · have digit : IsDigit first := isDigit_of_mem_natDigits (by rw [shape]; simp)
    obtain ⟨low, high⟩ := digit
    exact ⟨first, rest, by rw [← written, shape], by omega, by omega⟩

theorem named_number (parsed : string2ll s = some value) (listed : name ∈ words) :
    named s name = false := by
  have letter := (words_apart name listed).2
  obtain ⟨first, rest, shape, positive, small⟩ := string2ll_head parsed
  -- The first character is kept by `tolower`, so it differs from any letter.
  have nonzero : first ≠ 0 := fun zero => by simp [zero] at positive
  have kept : tolower first = first := by
    rw [tolower, if_neg]
    rintro ⟨low, _⟩
    rw [UInt8.le_iff_toNat_le] at low
    have : (65 : UInt8).toNat = 65 := rfl
    omega
  have start : (cString s).map tolower = first :: (cString rest).map tolower := by
    rw [shape, cString, takeWhile_cons_of_pos (by simpa using nonzero), map_cons, kept]
    rfl
  rw [named, sameIgnoringCase, beq_eq_false_iff_ne, start]
  intro equal
  rw [← equal, headD_cons] at letter
  omega

variable {o unit : Bytes} {msg : Option Bytes} {a : GeoArguments} {xreadgroup : Bool} {i : Nat}
    {r result : LcsArguments} {strings : LcsStrings} {guard : Guard}

theorem getLongLong_eq_ok :
    getLongLongFromObjectOrReply o msg = .ok value ↔ string2ll o = some value := by
  rw [getLongLongFromObjectOrReply]
  split <;> rename_i parsed <;> simp [parsed]

theorem string2ll_of_getLong (parsed : getLongFromObjectOrReply o msg = .ok value) :
    string2ll o = some value := by
  -- The range of a `long` is that of a `long long`, so the second test changes nothing.
  obtain ⟨read, accepted, rest⟩ := bind_eq_ok.mp parsed
  split at rest
  · cases rest
  · cases rest
    exact getLongLong_eq_ok.mp accepted

/-! ### SORT -/

/-- The keys that the STORE options of SORT name. -/
def storeKeys : List Bytes → List Bytes
  | [] => []
  | option :: rest =>
    match sortOption option, rest with
    | some .limit, _ :: _ :: rest => storeKeys rest
    | some .store, key :: rest => key :: storeKeys rest
    | some .by_, _ :: rest => storeKeys rest
    | some .get, _ :: rest => storeKeys rest
    | _, rest => storeKeys rest

/-- Key names that `sortGetKeys` takes for options. -/
def misleading (name : Bytes) : Bool :=
  named name "limit" || named name "store" || named name "by" || named name "get"

theorem find_skiplist (arg : Bytes) :
    ((skiplist.find? fun entry => named arg entry.1).map Prod.snd, named arg "store",
      misleading arg) =
    match sortOption arg with
    | some .limit => (some 2, false, true)
    | some .by_ | some .get => (some 1, false, true)
    | some .store => (none, true, true)
    | _ => (none, false, false) := by
  -- Once the argument is known to be one of the words, all comparisons are between constants.
  obtain ⟨known, listed, agrees⟩ := exists_word arg
  simp only [words, forall_mem_cons] at agrees
  simp only [sortOption, misleading, skiplist, find?_cons, find?_nil, agrees]
  clear agrees
  revert known
  decide +kernel

theorem scanSort_nil (i skip : Nat) (found : Option Nat) : scanSort i skip [] found = found := by
  cases skip <;> rfl

theorem scanSort_skip (i skip : Nat) (arg : Bytes) (rest : List Bytes) (found : Option Nat) :
    scanSort i (skip + 1) (arg :: rest) found = scanSort (i + 1) skip rest found := rfl

theorem scanSort_cons (i : Nat) (arg : Bytes) (rest : List Bytes) (found : Option Nat) :
    scanSort i 0 (arg :: rest) found =
    match sortOption arg with
    | some .limit => scanSort (i + 1) 2 rest found
    | some .by_ | some .get => scanSort (i + 1) 1 rest found
    | some .store =>
      if rest ≠ [] then scanSort (i + 1) 0 rest (some (i + 1)) else scanSort (i + 1) 0 rest found
    | _ => scanSort (i + 1) 0 rest found := by
  -- Each option fixes what the search in the list gives, and whether it is STORE.
  have facts := find_skiplist arg
  rw [scanSort]
  cases kind : sortOption arg with
  | none => cases search : skiplist.find? fun entry => named arg entry.1 <;> simp_all
  | some option =>
    cases option <;> cases search : skiplist.find? fun entry => named arg entry.1 <;> simp_all

theorem scanSort_plain {key : Bytes} (plain : misleading key = false) (i : Nat)
    (rest : List Bytes) (found : Option Nat) :
    scanSort i 0 (key :: rest) found = scanSort (i + 1) 0 rest found := by
  -- Of the options only the flags do not mislead, and they are passed too.
  have facts := find_skiplist key
  rw [scanSort_cons]
  cases kind : sortOption key with
  | none => rfl
  | some option => cases option <;> simp_all

/-- `sortGetKeys` ends up at the key that SORT stores to, unless misled. -/
theorem scanSort_of_parseSort {a b : SortArguments} (parsed : parseSort context j args a = .ok b)
    (plain : ∀ key ∈ storeKeys args, misleading key = false) :
    scanSort j 0 args a.storekey = b.storekey := by
  -- Both loops step over the same arguments; the key of STORE is passed like a flag.
  fun_induction parseSort context j args a with
  | case1 => cases parsed; rfl
  | case2 j option a rest kind ih | case3 j option a rest kind ih
  | case4 j option a rest kind ih =>
    rw [storeKeys.eq_def] at plain
    simp only [kind] at plain
    rw [scanSort_cons, kind]
    exact ih parsed plain
  | case5 j option a start count rest kind ih =>
    simp only [storeKeys, kind] at plain
    obtain ⟨limitStart, -, counted⟩ := bind_eq_ok.mp parsed
    obtain ⟨limitCount, -, rest⟩ := bind_eq_ok.mp counted
    rw [scanSort_cons, kind]
    exact ih limitStart limitCount rest plain
  | case6 j option a key rest kind ih =>
    simp only [storeKeys, kind, mem_cons, forall_eq_or_imp] at plain
    rw [scanSort_cons, kind]
    rw [scanSort_plain plain.1]
    exact ih parsed plain.2
  | case7 j option a pattern rest kind _ ih | case9 j option a pattern rest kind _ _ ih
  | case11 j option a pattern rest kind _ ih =>
    simp only [storeKeys, kind] at plain
    rw [scanSort_cons, kind]
    exact ih parsed plain
  | case8 | case10 | case12 => cases parsed

/-! ### GEORADIUS -/

theorem named_store_geo (arg : Bytes) :
    (named arg "store" || named arg "storedist") =
      (geoOption arg == some .store || geoOption arg == some .storedist) := by
  obtain ⟨known, listed, agrees⟩ := exists_word arg
  simp only [words, forall_mem_cons] at agrees
  simp only [geoOption, agrees]
  clear agrees
  revert known
  decide +kernel

theorem scanGeo_pass (other : (named arg "store" || named arg "storedist") = false) (i : Nat)
    (rest : List Bytes) (stored : Option Nat) :
    scanGeo i 0 (arg :: rest) stored = scanGeo (i + 1) 0 rest stored := by
  rw [Bool.or_eq_false_iff] at other
  simp [scanGeo, other]

theorem scanGeo_store (option : (named arg "store" || named arg "storedist") = true) (i : Nat)
    (key : Bytes) (rest : List Bytes) (stored : Option Nat) :
    scanGeo i 0 (arg :: key :: rest) stored = scanGeo (i + 2) 0 rest (some (i + 1)) := by
  rw [Bool.or_eq_true] at option
  simp [scanGeo, option]

theorem not_store_of_number {value : Bytes} {count : Int} (parsed : string2ll value = some count) :
    (named value "store" || named value "storedist") = false := by
  rw [named_number parsed (by simp [words]), named_number parsed (by simp [words])]
  rfl

theorem scanGeo_of_parseGeo {b : GeoArguments} (parsed : parseGeo j args a = .ok b) :
    scanGeo j 0 args a.storekey = b.storekey := by
  -- Both loops step over the same arguments; the number behind COUNT is passed like a flag.
  fun_induction parseGeo j args a with
  | case1 => cases parsed; rfl
  | case2 j arg a rest kind ih | case3 j arg a rest kind ih | case4 j arg a rest kind ih
  | case5 j arg a rest kind ih | case6 j arg a rest kind ih | case7 j arg a rest kind ih =>
    rw [scanGeo_pass (by rw [named_store_geo, kind]; rfl)]
    exact ih parsed
  | case8 j arg a value rest kind ih =>
    obtain ⟨count, number, accepted⟩ := bind_eq_ok.mp parsed
    split at accepted
    · cases accepted
    · rw [scanGeo_pass (by rw [named_store_geo, kind]; rfl),
        scanGeo_pass (not_store_of_number (getLongLong_eq_ok.mp number))]
      exact ih count accepted
  | case9 j arg a key rest kind ih | case10 j arg a key rest kind ih =>
    rw [scanGeo_store (by rw [named_store_geo, kind]; rfl)]
    exact ih parsed
  | case11 => cases parsed

/-! ### XREAD -/

theorem scanXread_cons (i : Nat) (arg : Bytes) (rest : List Bytes) :
    scanXread i 0 (arg :: rest) =
    match xreadOption arg with
    | some .block | some .count => scanXread (i + 1) 1 rest
    | some .group => scanXread (i + 1) 2 rest
    | some .noack => scanXread (i + 1) 0 rest
    | some .streams => some i
    | none => none := by
  -- STREAMS is the third name for the command and the last one here.
  obtain ⟨known, listed, agrees⟩ := exists_word arg
  simp only [words, forall_mem_cons] at agrees
  simp only [scanXread, xreadOption, agrees]
  clear agrees
  revert known
  simp [words]

theorem scanXread_of_parseXread {name : Bytes} {a b : XreadArguments} {argc : Nat}
    (parsed : parseXread context xreadgroup name i args a = .ok b) (fresh : a.streamsArg = 0)
    (found : b.streamsArg ≠ 0) (whole : i + args.length = argc) :
    ∃ pos, scanXread i 0 args = some pos ∧ b.streamsArg = pos + 1 ∧ pos + 1 < argc ∧
      (argc - (pos + 1)) % 2 = 0 := by
  -- The options in front of STREAMS are skipped with their arguments by both loops.
  fun_induction parseXread context xreadgroup name i args a with
  | case1 i a =>
    cases parsed
    exact absurd fresh found
  | case3 i o a value rest kind _ ih | case4 i o a value rest kind ih =>
    obtain ⟨number, -, accepted⟩ := bind_eq_ok.mp parsed
    rw [scanXread_cons, kind]
    exact ih number accepted fresh (by rw [← whole, length_cons, length_cons]; omega)
  | case6 i o a key more kind even =>
    cases parsed
    rw [length_cons, length_cons] at whole
    exact ⟨i, by rw [scanXread_cons, kind], rfl, by omega, by omega⟩
  | case7 i o a groupname consumername rest kind _ ih =>
    rw [scanXread_cons, kind]
    exact ih parsed fresh (by
      rw [← whole, length_cons, length_cons, length_cons]; omega)
  | case9 i o a rest kind _ ih =>
    rw [scanXread_cons, kind]
    exact ih parsed fresh (by rw [← whole, length_cons]; omega)
  | case2 | case5 | case8 | case10 | case11 => cases parsed

/-! ### STRALGO LCS -/

theorem named_lcs (arg : Bytes) :
    (named arg "strings", named arg "keys") =
      (lcsOption arg == some .strings, lcsOption arg == some .keys) := by
  obtain ⟨known, listed, agrees⟩ := exists_word arg
  simp only [words, forall_mem_cons] at agrees
  simp only [lcsOption, agrees]
  clear agrees
  revert known
  decide +kernel

theorem scanLcs_pass (other : (named arg "strings", named arg "keys") = (false, false)) (i : Nat)
    (rest : List Bytes) : scanLcs i (arg :: rest) = scanLcs (i + 1) rest := by
  obtain ⟨strings, keys⟩ := Prod.mk.inj other
  simp [scanLcs, strings, keys]

theorem parseLcs_strings (parsed : parseLcs context j args r = .ok result)
    (given : r.strings = some strings) :
    result.strings = some strings := by
  -- Only KEYS and STRINGS would change them, and both are refused by now.
  fun_induction parseLcs context j args r with
  | case1 => cases parsed; exact given
  | case2 j opt r rest kind ih | case3 j opt r rest kind ih | case4 j opt r rest kind ih =>
    exact ih parsed given
  | case5 j opt r value rest kind ih =>
    obtain ⟨number, -, accepted⟩ := bind_eq_ok.mp parsed
    exact ih number accepted given
  | case7 j opt r a b rest kind missing | case9 j opt r a b rest kind missing =>
    simp [given] at missing
  | case6 | case8 | case10 => cases parsed

theorem scanLcs_of_parseLcs (parsed : parseLcs context j args r = .ok result)
    (fresh : r.strings = none) (given : result.strings = some strings) :
    scanLcs j args = strings.keys := by
  -- The strings are given by one option only, and both loops come to it.
  fun_induction parseLcs context j args r with
  | case1 j r =>
    cases parsed
    rw [fresh] at given
    cases given
  | case2 j opt r rest kind ih | case3 j opt r rest kind ih | case4 j opt r rest kind ih =>
    rw [scanLcs_pass (by rw [named_lcs, kind]; rfl)]
    exact ih parsed fresh
  | case5 j opt r value rest kind ih =>
    obtain ⟨number, read, accepted⟩ := bind_eq_ok.mp parsed
    have numeric := getLongLong_eq_ok.mp read
    rw [scanLcs_pass (by rw [named_lcs, kind]; rfl), scanLcs_pass (by
      rw [named_number numeric (by simp [words]), named_number numeric (by simp [words])])]
    exact ih number accepted fresh
  | case7 j opt r a b rest kind _ ih =>
    obtain ⟨isStrings, -⟩ := Prod.mk.inj (named_lcs opt)
    rw [kind] at isStrings
    have kept := parseLcs_strings parsed rfl
    rw [given] at kept
    cases kept
    simp [scanLcs, isStrings]
  | case9 j opt r first second rest kind _ ih =>
    obtain ⟨isStrings, isKeys⟩ := Prod.mk.inj (named_lcs opt)
    rw [kind] at isStrings isKeys
    obtain ⟨a, -, accepted⟩ := bind_eq_ok.mp parsed
    obtain ⟨b, -, accepted⟩ := bind_eq_ok.mp accepted
    have kept := parseLcs_strings accepted rfl
    rw [given] at kept
    cases kept
    simp [scanLcs, isStrings, isKeys]
  | case6 | case8 | case10 => cases parsed

/-! ### The commands -/

theorem sortGetKeys_of_sortCommand (accepted : sortCommand context argv = .ok touched)
    (plain : ∀ key ∈ storeKeys (argv.args.drop 2), misleading key = false) :
    touched = sortGetKeys argv := by
  -- The type of the value matters only for whether the command goes on.
  obtain ⟨a, parsed, checked⟩ := bind_eq_ok.mp accepted
  have stored := scanSort_of_parseSort parsed plain
  have result : touched = 1 :: a.storekey.toList := by
    split at checked
    · cases checked
    · cases checked
    · cases checked
    all_goals exact (Except.ok.inj checked).symm
  rw [result, sortGetKeys, stored]

theorem checkGeo_eq_ok (accepted : checkGeo a = .ok touched) :
    touched = 1 :: a.storekey.toList := by
  -- Both errors are out of question.
  rw [checkGeo] at accepted
  split at accepted
  · cases accepted
  · split at accepted
    · cases accepted
    · exact (Except.ok.inj accepted).symm

theorem not_store_of_isUnit (known : isUnit unit = true) :
    (named unit "store" || named unit "storedist") = false := by
  -- A unit is spelled in one way only, which settles both comparisons.
  have settled : ∀ word ∈ words, word ≠ "store" → word ≠ "storedist" → equals unit word = true →
      (named unit "store" || named unit "storedist") = false := by
    intro word listed store storedist same
    rw [equals, beq_iff_eq] at same
    have spelled : ∀ name, named unit name = named (text word) name := by
      simp only [named, sameIgnoringCase, same, implies_true]
    rw [spelled, spelled, named_text listed (by simp [words]), named_text listed (by simp [words])]
    simp [store, storedist]
  simp only [isUnit, Bool.or_eq_true] at known
  obtain ((metre | kilometre) | foot) | mile := known
  · exact settled "m" (by simp [words]) (by simp) (by simp) metre
  · exact settled "km" (by simp [words]) (by simp) (by simp) kilometre
  · exact settled "ft" (by simp [words]) (by simp) (by simp) foot
  · exact settled "mi" (by simp [words]) (by simp) (by simp) mile

theorem drop_eq_arg_cons {n : Nat} (inside : n < argv.argc) :
    argv.args.drop n = argv.arg n :: argv.args.drop (n + 1) := by
  have get : argv.arg n = argv.args[n] := by
    rw [Argv.arg, List.getD, getElem?_eq_getElem inside, Option.getD_some]
  rw [drop_eq_getElem_cons inside, get]

theorem isUnit_of_extractDistance {radius : Bytes} {done : Unit}
    (accepted : extractDistanceOrReply context radius unit = .ok done) : isUnit unit = true := by
  -- The unit is looked at last, when the distance has been accepted.
  obtain ⟨distance, -, checked⟩ := bind_eq_ok.mp accepted
  split at checked
  · cases checked
  · split at checked
    · assumption
    · cases checked

theorem georadiusGetKeys_of_georadiusCommand (arity : 6 ≤ argv.argc)
    (accepted : georadiusCommand context argv = .ok touched) :
    touched = georadiusGetKeys argv := by
  obtain ⟨_, -, accepted⟩ := bind_eq_ok.mp accepted
  obtain ⟨_, -, accepted⟩ := bind_eq_ok.mp accepted
  obtain ⟨_, distance, accepted⟩ := bind_eq_ok.mp accepted
  obtain ⟨a, parsed, checked⟩ := bind_eq_ok.mp accepted
  have stored := scanGeo_of_parseGeo parsed
  -- `georadiusGetKeys` starts one argument early, at the unit.
  rw [checkGeo_eq_ok checked, georadiusGetKeys, drop_eq_arg_cons arity,
    scanGeo_pass (not_store_of_isUnit (isUnit_of_extractDistance distance)), stored]

theorem georadiusGetKeys_of_georadiusbymemberCommand
    (accepted : georadiusbymemberCommand context argv = .ok touched) :
    touched = georadiusGetKeys argv := by
  -- The options start where `georadiusGetKeys` does.
  obtain ⟨_, -, accepted⟩ := bind_eq_ok.mp accepted
  obtain ⟨_, -, accepted⟩ := bind_eq_ok.mp accepted
  obtain ⟨a, parsed, checked⟩ := bind_eq_ok.mp accepted
  have stored := scanGeo_of_parseGeo parsed
  rw [checkGeo_eq_ok checked, georadiusGetKeys, stored]

theorem xreadGetKeys_of_xreadCommand (arity : 1 ≤ argv.argc)
    (accepted : xreadCommand context xreadgroup argv = .ok touched) :
    touched = xreadGetKeys argv := by
  obtain ⟨a, parsed, accepted⟩ := bind_eq_ok.mp accepted
  split at accepted
  · cases accepted
  rename_i given
  split at accepted
  · cases accepted
  obtain ⟨_, -, accepted⟩ := bind_eq_ok.mp accepted
  -- The place of STREAMS is the same, and so are the halves of what follows.
  have whole : 1 + (argv.args.drop 1).length = argv.argc := by
    rw [length_drop]
    exact Nat.add_sub_cancel' arity
  obtain ⟨pos, scanned, place, inside, even⟩ := scanXread_of_parseXread parsed rfl given whole
  have halves : argv.argc - pos - 1 = argv.argc - (pos + 1) := by omega
  rw [← Except.ok.inj accepted, xreadGetKeys, scanned, place]
  simp only [halves]
  rw [if_neg (by omega)]

theorem atoi_of_string2ll (parsed : string2ll s = some value) (positive : 0 ≤ value)
    (small : value < 2 ^ 31) : atoi s = value := by
  -- The canonical form of the number consists of digits only, which `atoi` reads to the end.
  obtain ⟨written, -⟩ := string2ll_decimal parsed
  rw [decimal, if_neg (by omega)] at written
  obtain ⟨first, rest, shape, -⟩ := natDigits_head value.natAbs
  have size : digitsValue (natDigits value.natAbs) = value.natAbs := digitsValue_natDigits _
  have read := @atoi_digits (natDigits value.natAbs) [] (by rw [shape]; simp)
    (fun byte member => isDigit_of_mem_natDigits member) (fun byte head => by cases head)
    (by omega)
  rw [append_nil, size, written] at read
  omega

theorem genericGetKeys_of_zunionInterDiff {dstkey : Bool} {numkeysIndex : Nat} {op : SetOp}
    (accepted : zunionInterDiffGenericCommand context name dstkey numkeysIndex op argv = .ok
      touched) :
    touched =
      genericGetKeys (if dstkey then 1 else 0) numkeysIndex (numkeysIndex + 1) 1 argv := by
  obtain ⟨setnum, number, accepted⟩ := bind_eq_ok.mp accepted
  split at accepted
  · cases accepted
  split at accepted
  · cases accepted
  rename_i enough
  obtain ⟨_, -, accepted⟩ := bind_eq_ok.mp accepted
  obtain ⟨_, -, accepted⟩ := bind_eq_ok.mp accepted
  -- The number does not exceed `argc`, so it is an `int` like it.
  have fits := argv.fits
  have read : atoi (argv.arg numkeysIndex) = setnum :=
    atoi_of_string2ll (string2ll_of_getLong number) (by omega) (by
      rw [Argv.argc] at enough
      omega)
  rw [← Except.ok.inj accepted, genericGetKeys, read]
  have places : ((argv.argc : Int) - (numkeysIndex + 1 : Nat)).tdiv (1 : Nat) =
      argv.argc - (numkeysIndex + 1) := by
    rw [show ((1 : Nat) : Int) = 1 from rfl, Int.tdiv_one]
    omega
  have inside : ¬(setnum < 1 ∨ (argv.argc : Int) - (numkeysIndex + 1) < setnum) := by omega
  simp only [places, if_neg inside]
  cases dstkey <;> simp

theorem lcsGetKeys_of_stralgoCommand (arity : 2 ≤ argv.argc)
    (accepted : stralgoCommand context argv = .ok touched) :
    touched = lcsGetKeys argv := by
  rw [stralgoCommand] at accepted
  by_cases lcs : named (argv.arg 1) "lcs" = true
  case neg =>
    rw [if_neg lcs] at accepted
    cases accepted
  rw [if_pos lcs] at accepted
  obtain ⟨r, parsed, accepted⟩ := bind_eq_ok.mp accepted
  split at accepted
  · cases accepted
  rename_i strings given
  split at accepted
  · cases accepted
  split at accepted
  · cases accepted
  -- `lcsGetKeys` starts one argument early, at the name of the algorithm.
  have name : (named (argv.arg 1) "strings", named (argv.arg 1) "keys") = (false, false) := by
    rw [named_of_named lcs, named_of_named lcs, named_text (by simp [words]) (by simp [words]),
      named_text (by simp [words]) (by simp [words])]
    rfl
  rw [lcsGetKeys, drop_eq_arg_cons arity, scanLcs_pass name, scanLcs_of_parseLcs parsed rfl given]
  exact (Except.ok.inj accepted).symm

theorem keysTouched_eq (accepted : keysTouched context command argv = .ok touched)
    (plain : command = .sort → ∀ key ∈ storeKeys (argv.args.drop 2), misleading key = false) :
    touched = getKeysFromCommand command argv := by
  -- The arity in the table makes sure of the arguments in front of the options.
  unfold keysTouched at accepted
  split at accepted
  · cases accepted
  rename_i arity
  cases command with
  | sort => exact sortGetKeys_of_sortCommand accepted (plain rfl)
  | georadius => exact georadiusGetKeys_of_georadiusCommand (Nat.le_of_not_lt arity) accepted
  | georadiusbymember => exact georadiusGetKeys_of_georadiusbymemberCommand accepted
  | xread =>
    exact xreadGetKeys_of_xreadCommand (Nat.le_trans (by decide) (Nat.le_of_not_lt arity)) accepted
  | xreadgroup =>
    exact xreadGetKeys_of_xreadCommand (Nat.le_trans (by decide) (Nat.le_of_not_lt arity)) accepted
  | zunionstore | zinterstore | zdiffstore => exact genericGetKeys_of_zunionInterDiff accepted
  | zunion | zinter | zdiff => exact genericGetKeys_of_zunionInterDiff accepted
  | stralgo => exact lcsGetKeys_of_stralgoCommand (Nat.le_of_not_lt arity) accepted

/-! ### Permissions -/

theorem allowsKey_of_check {u : User} (passed : aclCheckCommandPerm guard u command argv = .ok)
    (restricted : u.allkeys = false) (found : i ∈ getKeysFromCommand command argv) :
    allowsKey guard u (argv.arg i) = true := by
  -- No key without a pattern was found.
  rw [aclCheckCommandPerm] at passed
  split at passed
  · cases passed
  rw [restricted, if_neg Bool.false_ne_true] at passed
  split at passed
  · cases passed
  · rename_i none
    simpa using find?_eq_none.mp none i found

/-- Every key of a command is found, and the check of a user covers it. -/
def Guarded (context : Context) (guard : Guard) (command : Command) (argv : Argv) : Prop :=
  ∀ touched, keysTouched context command argv = .ok touched → ∀ i ∈ touched,
    i ∈ getKeysFromCommand command argv ∧
    ∀ u : User, aclCheckCommandPerm guard u command argv = .ok → u.allkeys = false →
      allowsKey guard u (argv.arg i) = true

theorem guarded_of_plain
    (plain : command = .sort → ∀ key ∈ storeKeys (argv.args.drop 2), misleading key = false) :
    Guarded context guard command argv := by
  intro touched accepted i member
  rw [keysTouched_eq accepted plain] at member
  exact ⟨member, fun u passed restricted => allowsKey_of_check passed restricted member⟩

/-! ### Names that mislead -/

def emptyServer : Context where
  clusterEnabled := false
  lua := false
  mstime := 0
  lookupKey _ := none
  string2d _ := none
  parsesStrictId _ := false

def sortStoring (name : Bytes) (options : List String) (few : options.length < 2 ^ 30) : Argv where
  args := [text "SORT", text "src", text "STORE", name] ++ options.map text
  fits := by
    rw [length_append, length_map]
    simp only [length_cons, length_nil]
    omega

theorem sortOption_words :
    sortOption (text "STORE") = some .store ∧ sortOption (text "store") = some .store ∧
    sortOption (text "BY") = some .by_ ∧ sortOption (text "ASC") = some .asc ∧
    42 ∉ cString (text "store") := by
  decide +kernel

theorem exists_not_found {name : Bytes} (misled : misleading name = true) :
    ∃ argv : Argv, storeKeys (argv.args.drop 2) = [name] ∧
      keysTouched emptyServer .sort argv = .ok [1, 3] ∧ 3 ∉ getKeysFromCommand .sort argv := by
  obtain ⟨store, lower, by_, asc, constant⟩ := sortOption_words
  have facts := find_skiplist name
  rw [misled] at facts
  cases kind : sortOption name with
  | none => simp [kind] at facts
  | some option =>
    cases option with
    | asc | desc | alpha => simp [kind] at facts
    | limit =>
      -- Two arguments are skipped, so that a pattern named `store` is taken for the option.
      refine ⟨sortStoring name ["ASC", "BY", "store", "ASC"] (by decide), ?_, ?_, ?_⟩
      · simp [sortStoring, storeKeys, store, by_, asc]
      · simp [keysTouched, sortCommand, sortStoring, parseSort, store, by_, asc, constant,
          Argv.argc, Command.arity, emptyServer]
      · simp [getKeysFromCommand, sortGetKeys, sortStoring, scanSort_nil, scanSort_skip,
          scanSort_cons, store, lower, asc, kind]
    | store =>
      refine ⟨sortStoring name ["ASC"] (by decide), ?_, ?_, ?_⟩
      · simp [sortStoring, storeKeys, store]
      · simp [keysTouched, sortCommand, sortStoring, parseSort, store, asc,
          Argv.argc, Command.arity, emptyServer]
      · simp [getKeysFromCommand, sortGetKeys, sortStoring, scanSort_nil, scanSort_cons,
          store, asc, kind]
    | by_ | get =>
      refine ⟨sortStoring name ["BY", "store", "ASC"] (by decide), ?_, ?_, ?_⟩
      · simp [sortStoring, storeKeys, store, by_]
      · simp [keysTouched, sortCommand, sortStoring, parseSort, store, by_, asc, constant,
          Argv.argc, Command.arity, emptyServer]
      · simp [getKeysFromCommand, sortGetKeys, sortStoring, scanSort_nil, scanSort_skip,
          scanSort_cons, store, lower, asc, kind]

/-- The keys of all accepted arguments are found and checked just for the names that do not
mislead. -/
theorem guarded_iff_not_misleading (names : Bytes → Prop) :
    (∀ context guard command argv,
      (command = .sort → ∀ key ∈ storeKeys (argv.args.drop 2), names key) →
        Guarded context guard command argv) ↔
    ∀ name, names name → misleading name = false := by
  constructor
  · intro all name allowed
    -- A name that misleads would give a vector whose key is not found.
    rw [← Bool.not_eq_true]
    intro misled
    obtain ⟨argv, stored, accepted, missing⟩ := exists_not_found misled
    have given : ∀ key ∈ storeKeys (argv.args.drop 2), names key := by
      intro key member
      rw [stored, mem_singleton] at member
      rwa [member]
    have covered := all emptyServer ⟨fun _ => 0, fun _ _ => false⟩ .sort argv (fun _ => given)
    exact missing (covered _ accepted 3 (by simp)).1
  · intro plain context guard command argv allowed
    exact guarded_of_plain fun isSort key member => plain key (allowed isSort key member)

/-- A user who may run all commands on two keys only. -/
def restrictedUser : User where
  allcommands := true
  allkeys := false
  allowedCommands := BitVec.allOnes _
  allowedSubcommands _ := []
  patterns := [text "src", text "by"]

/-- Patterns that match themselves only. -/
def literalGuard : Guard := ⟨fun _ => 0, fun pattern key => pattern == key⟩

/-- `SORT src STORE by STORE dest` passes the check of the two keys, and writes a third one. -/
theorem sort_stores_outside_patterns :
    ¬∀ context guard command argv, Guarded context guard command argv := by
  intro all
  have store := sortOption_words.1
  -- The second STORE is the one that is obeyed.
  have touched : keysTouched emptyServer .sort
      (sortStoring (text "by") ["STORE", "dest"] (by decide)) = .ok [1, 5] := by
    simp [keysTouched, sortCommand, sortStoring, parseSort, store, Argv.argc, Command.arity,
      emptyServer]
  -- It is skipped by `sortGetKeys` as if it were the pattern of BY.
  have passed : aclCheckCommandPerm literalGuard restrictedUser .sort
      (sortStoring (text "by") ["STORE", "dest"] (by decide)) = .ok := by
    decide +kernel
  have outside := ((all emptyServer literalGuard .sort _) _ touched 5 (by simp)).2
    restrictedUser passed rfl
  have denied : allowsKey literalGuard restrictedUser
      ((sortStoring (text "by") ["STORE", "dest"] (by decide)).arg 5) = false := by
    decide +kernel
  rw [denied] at outside
  cases outside

end LearningNotes.GetKeys
