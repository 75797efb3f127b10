import LearningNotes.Strings.Counters

/-! The search of LPOS in `t_list.c`. -/

namespace LearningNotes.Lists

open Lib Util GetKeys List

inductive Value where
  | list (elements : List Bytes)
  | other

/-- What the options set; the count is -1 without COUNT. -/
structure Options where
  rank : Int := 1
  count : Int := -1
  maxlen : Int := 0
deriving DecidableEq

inductive Reply where
  | null
  | integer (value : Int)
  | array (values : List Int)
deriving DecidableEq, Repr

def getPositiveLongFromObjectOrReply (o msg : Bytes) : Parsed Int := do
  let value ← getLongFromObjectOrReply o (some msg)
  if value < 0 ∨ 2 ^ 63 - 1 < value then .error msg else .ok value

def parseLpos : List Bytes → Options → Parsed Options
  | [], a => .ok a
  | opt :: value :: rest, a => do
    if named opt "RANK" then
      let rank ← getLongFromObjectOrReply value none
      if rank = 0 then
        .error (text ("RANK can't be zero: use 1 to start from " ++
          "the first match, 2 from the second, ..."))
      else parseLpos rest { a with rank }
    else if named opt "COUNT" then
      let count ← getPositiveLongFromObjectOrReply value (text "COUNT can't be negative")
      parseLpos rest { a with count }
    else if named opt "MAXLEN" then
      let maxlen ← getPositiveLongFromObjectOrReply value (text "MAXLEN can't be negative")
      parseLpos rest { a with maxlen }
    else .error syntaxerr
  | [_], _ => .error syntaxerr

/-- The loop over the list in its direction, with the positions it finds. -/
def seek (ele : Bytes) (rank : Int) (a : Options) (matchindex : Nat → Int) :
    List Bytes → Nat → Int → List Int
  | [], _, _ => []
  | entry :: rest, index, matched =>
    if a.maxlen = 0 ∨ index < a.maxlen then
      if entry = ele then
        if rank ≤ matched + 1 then
          matchindex index ::
            -- Without COUNT the first position ends the loop.
            if a.count = -1 ∨ (a.count ≠ 0 ∧ a.count ≤ toLong (matched + 1 - rank + 1)) then []
            else seek ele rank a matchindex rest (index + 1) (matched + 1)
        else seek ele rank a matchindex rest (index + 1) (matched + 1)
      else seek ele rank a matchindex rest (index + 1) matched
    else []

def toReply (a : Options) (positions : List Int) : Reply :=
  if a.count ≠ -1 then .array positions else positions.head?.elim .null .integer

/-- The positions found; a negative rank starts from the tail. -/
def positions (a : Options) (ele : Bytes) (elements : List Bytes) : List Int :=
  if a.rank < 0 then
    seek ele (toLong (-a.rank)) a (fun index => elements.length - index - 1) elements.reverse 0 0
  else seek ele a.rank a (fun index => index) elements 0 0

/-- Given the value under the key and the arguments behind the element. -/
def lposCommand (o : Option Value) (ele : Bytes) (argv : List Bytes) : Parsed Reply := do
  if 2 ^ 32 - 1024 < ele.length then .error (text "Element too large")
  else
    let a ← parseLpos argv {}
    match o with
    | none => .ok (if a.count ≠ -1 then .array [] else .null)
    | some .other => .error wrongtypeerr
    | some (.list elements) => .ok (toReply a (positions a ele elements))

/-! ### The positions asked for -/

/-- At most as many as a limit says, if it is not zero. -/
def upTo {α : Type} (limit : Int) (items : List α) : List α :=
  if limit = 0 then items else items.take limit.toNat

/-- What stands beside the matches of a scan. -/
def matching {α : Type} (limit : Int) (ele : Bytes) (order : List (Bytes × α)) : List α :=
  ((upTo limit order).filter (·.1 = ele)).map (·.2)

/-- The positions of all matches, in the order of the scan. -/
def found (a : Options) (ele : Bytes) (elements : List Bytes) : List Nat :=
  matching a.maxlen ele (if a.rank < 0 then elements.zipIdx.reverse else elements.zipIdx)

/-- The matches from number `|rank|` on, as many as COUNT says. -/
def wanted (a : Options) (ele : Bytes) (elements : List Bytes) : List Nat :=
  upTo (if a.count = -1 then 1 else a.count) ((found a ele elements).drop (a.rank.natAbs - 1))

/-- Which of the matches the loop replies. -/
def pick (rank count : Int) : List Int → Int → List Int
  | [], _ => []
  | position :: rest, matched =>
    if rank ≤ matched + 1 then
      position ::
        if count = -1 ∨ (count ≠ 0 ∧ count ≤ toLong (matched + 1 - rank + 1)) then []
        else pick rank count rest (matched + 1)
    else pick rank count rest (matched + 1)

variable {ele : Bytes} {rank count matched : Int} {a : Options} {elements : List Bytes}

theorem matching_map {α β : Type} (f : α → β) (limit : Int) (order : List (Bytes × α)) :
    (matching limit ele order).map f = matching limit ele (order.map (Prod.map id f)) := by
  rw [matching, matching, upTo, upTo]
  split <;> simp [← map_take, filter_map, Function.comp_def]

theorem seek_eq_pick (place : Nat → Int) (rest : List Bytes) (index : Nat) (matched : Int) :
    seek ele rank a place rest index matched =
      pick rank a.count (((if a.maxlen = 0 then rest.zipIdx index
        else (rest.zipIdx index).take (a.maxlen - index).toNat).filter (·.1 = ele)).map
          fun entry => place entry.2) matched := by
  induction rest generalizing index matched with
  | nil => simp [seek, pick]
  | cons entry rest ih =>
    by_cases all : a.maxlen = 0
    · simp only [all, if_true] at ih
      by_cases same : entry = ele <;> simp [seek, pick, all, same, ih]
    · by_cases inside : index < a.maxlen
      · have step : (a.maxlen - index).toNat = (a.maxlen - (index + 1 : Nat)).toNat + 1 := by omega
        by_cases same : entry = ele <;> simp [seek, pick, all, inside, same, ih, step]
      · have none : (a.maxlen - index).toNat = 0 := by omega
        simp [seek, pick, all, inside, none]

theorem positions_eq (a : Options) (ele : Bytes) (elements : List Bytes) :
    positions a ele elements = pick (if a.rank < 0 then toLong (-a.rank) else a.rank) a.count
      ((found a ele elements).map (↑)) 0 := by
  have backwards : elements.zipIdx.reverse.map (Prod.map id fun i : Nat => (i : Int)) =
      elements.reverse.zipIdx.map (Prod.map id fun i : Nat => (elements.length : Int) - i - 1) := by
    apply ext_getElem
    · simp
    · intro i inside _
      simp at inside ⊢
      omega
  rw [positions, found]
  split
  · rw [matching_map, backwards, ← matching_map, seek_eq_pick, matching, upTo, map_map]
    simp [Function.comp_def]
  · rw [seek_eq_pick, matching, upTo, map_map]
    simp [Function.comp_def]

theorem pick_drop (k : Nat) (hits : List Int) (before : matched + k < rank) :
    pick rank count hits matched = pick rank count (hits.drop k) (matched + k) := by
  induction k generalizing hits matched with
  | zero => simp
  | succ k ih =>
    cases hits with
    | nil => simp [pick]
    | cons hit hits =>
      rw [pick, if_neg (by omega), ih hits (by omega), drop_succ_cons]
      congr 1
      omega

theorem pick_upTo (hits : List Int) (reached : rank ≤ matched + 1)
    (fits : matched + 1 - rank + hits.length < 2 ^ 63)
    (going : count = 0 ∨ matched + 1 - rank < if count = -1 then 1 else count) :
    pick rank count hits matched = if count = 0 then hits else
      hits.take ((if count = -1 then 1 else count) - (matched + 1 - rank)).toNat := by
  induction hits generalizing matched with
  | nil => simp [pick]
  | cons hit hits ih =>
    rw [length_cons] at fits
    have exact : toLong (matched + 1 - rank + 1) = matched + 1 - rank + 1 :=
      toLong_of_inLong ⟨by omega, by omega⟩
    rw [pick, if_pos reached, exact]
    by_cases last : count = -1 ∨ (count ≠ 0 ∧ count ≤ matched + 1 - rank + 1)
    · have one : ((if count = -1 then 1 else count) - (matched + 1 - rank)).toNat = 1 := by grind
      rw [if_pos last, if_neg (by omega), one, take_one]
      rfl
    · rw [if_neg last, ih (by omega) (by omega) (by grind)]
      split
      · rfl
      · rw [← take_succ_cons]
        grind

theorem pick_eq_nil_iff (hits : List Int) (reached : rank ≤ matched + 1) :
    pick rank count hits matched = [] ↔ hits = [] := by
  cases hits with
  | nil => simp [pick]
  | cons hit hits => simp [pick, reached]

theorem length_found_le (a : Options) (ele : Bytes) (elements : List Bytes) :
    (found a ele elements).length ≤ elements.length := by
  rw [found, matching, length_map, upTo]
  have order : (if a.rank < 0 then elements.zipIdx.reverse else elements.zipIdx).length =
      elements.length := by
    split <;> simp
  split
  · exact order ▸ length_filter_le ..
  · exact order ▸ Nat.le_trans (length_filter_le ..) (length_take_le' ..)

def Options.Accepted (a : Options) : Prop :=
  -(2 ^ 63) ≤ a.rank ∧ a.rank ≠ 0 ∧ (a.count = -1 ∨ 0 ≤ a.count)

theorem getLong_bound {o : Bytes} {msg : Option Bytes} {value : Int}
    (read : getLongFromObjectOrReply o msg = .ok value) : -(2 ^ 63) ≤ value := by
  obtain ⟨number, _, checked⟩ := bind_eq_ok.mp read
  split at checked
  · cases checked
  · cases checked
    omega

theorem getPositiveLong_nonneg {o msg : Bytes} {value : Int}
    (read : getPositiveLongFromObjectOrReply o msg = .ok value) : 0 ≤ value := by
  obtain ⟨number, _, checked⟩ := bind_eq_ok.mp read
  split at checked
  · cases checked
  · cases checked
    omega

theorem accepted_of_parseLpos {argv : List Bytes} {a b : Options}
    (read : parseLpos argv a = .ok b) (accepted : a.Accepted) : b.Accepted := by
  -- The induction is the loop; each round sets one option after its check.
  fun_induction parseLpos argv a with
  | case1 a =>
    cases read
    exact accepted
  | case2 opt value rest a _ ih =>
    obtain ⟨rank, parsed, checked⟩ := bind_eq_ok.mp read
    split at checked
    · cases checked
    · exact ih rank checked ⟨getLong_bound parsed, ‹_›, accepted.2.2⟩
  | case3 opt value rest a _ _ ih =>
    obtain ⟨count, parsed, checked⟩ := bind_eq_ok.mp read
    exact ih count checked ⟨accepted.1, accepted.2.1, .inr (getPositiveLong_nonneg parsed)⟩
  | case4 opt value rest a _ _ _ ih =>
    obtain ⟨maxlen, _, checked⟩ := bind_eq_ok.mp read
    exact ih maxlen checked accepted
  | case5 => cases read
  | case6 => cases read

theorem positions_eq_wanted (accepted : a.Accepted) (fits : elements.length < 2 ^ 63)
    (representable : a.rank ≠ -(2 ^ 63)) :
    positions a ele elements = (wanted a ele elements).map (↑) := by
  obtain ⟨low, nonzero, known⟩ := accepted
  have short := length_found_le a ele elements
  have magnitude : (if a.rank < 0 then toLong (-a.rank) else a.rank) = a.rank.natAbs := by
    split
    · rw [toLong_of_inLong ⟨by omega, by omega⟩]
      omega
    · omega
  rw [positions_eq, magnitude, pick_drop (a.rank.natAbs - 1) _ (by omega),
    pick_upTo _ (by omega) (by rw [length_drop, length_map]; omega) (by grind), wanted, upTo,
    ← map_drop]
  have none : (0 : Int) + (a.rank.natAbs - 1 : Nat) + 1 - a.rank.natAbs = 0 := by omega
  rw [none]
  by_cases first : a.count = -1 <;> simp [first]
  split <;> simp

theorem positions_eq_nil_iff (least : a.rank = -(2 ^ 63)) :
    positions a ele elements = [] ↔ found a ele elements = [] := by
  have negative : toLong (-a.rank) = -(2 ^ 63) := by rw [least]; rfl
  rw [positions_eq, if_pos (by omega), negative, pick_eq_nil_iff _ (by omega), map_eq_nil_iff]

theorem toReply_eq_nil_iff (hits : List Int) : toReply a hits = toReply a [] ↔ hits = [] := by
  rw [toReply, toReply]
  split
  · simp
  · cases hits <;> simp

/-- The wanted positions are replied, unless the rank is the least number and there is a match. -/
theorem lpos_exact_iff {argv : List Bytes} {reply : Reply} (fits : elements.length < 2 ^ 63)
    (read : parseLpos argv {} = .ok a)
    (accepted : lposCommand (some (.list elements)) ele argv = .ok reply) :
    reply = toReply a ((wanted a ele elements).map (↑)) ↔
      ¬ (a.rank = -(2 ^ 63) ∧ found a ele elements ≠ []) := by
  have given : toReply a (positions a ele elements) = reply := by
    rw [lposCommand] at accepted
    split at accepted
    · cases accepted
    · rw [read] at accepted
      exact Except.ok.inj accepted
  rw [← given]
  by_cases least : a.rank = -(2 ^ 63)
  · have short := length_found_le a ele elements
    have nothing : wanted a ele elements = [] := by
      rw [wanted, drop_of_length_le (by omega), upTo]
      simp
    rw [nothing, map_nil, toReply_eq_nil_iff, positions_eq_nil_iff least]
    simp [least]
  · have valid := accepted_of_parseLpos read ⟨by decide, by decide, .inl rfl⟩
    rw [positions_eq_wanted valid fits least]
    exact iff_of_true rfl fun both => least both.1

/-- The last of two matches, asked for by the rank -1. -/
theorem last_match_found : (.integer 2 : Reply) = toReply { rank := -1 }
    ((wanted { rank := -1 } [97] [[97], [98], [97]]).map (↑)) :=
  (@lpos_exact_iff [97] { rank := -1 } [[97], [98], [97]] [text "RANK", text "-1"] (.integer 2)
    (by decide) (by decide +kernel) (by decide +kernel)).mpr (by decide)

theorem least_rank_finds_match :
    lposCommand (some (.list [[97]])) [97] [text "RANK", text "-9223372036854775808"] =
        .ok (.integer 0) ∧
      wanted { rank := -(2 ^ 63) } [97] [[97]] = [] := by
  decide +kernel

end LearningNotes.Lists
