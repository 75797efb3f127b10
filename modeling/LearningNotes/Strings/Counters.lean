import LearningNotes.GetKeys.Arguments
import LearningNotes.Lib.Maps
import LearningNotes.Lib.Outcome

/-! The commands of `t_string.c` that add to a number in a string. -/

namespace LearningNotes.Strings

open Lib Util GetKeys

/-- A string, as bytes or encoded as a `long`, or something else. -/
inductive Value where
  | raw (content : Bytes)
  | int (value : Int) (fits : InLong value)
  | other

abbrev Keyspace := Bytes → Option Value

/-- The number under a key; a missing key counts as zero. -/
def oldValue : Option Value → Parsed Int
  | none => .ok 0
  | some (.raw content) => getLongLongFromObjectOrReply content none
  | some (.int value _) => .ok value
  | some .other => .error wrongtypeerr

def incrDecrCommand (db : Keyspace) (key : Bytes) (incr : Int) : Parsed (Int × Keyspace) := do
  let oldvalue ← oldValue (db key)
  if (incr < 0 ∧ oldvalue < 0 ∧ incr < -(2 ^ 63) - oldvalue) ∨
      (0 < incr ∧ 0 < oldvalue ∧ (2 ^ 63 - 1) - oldvalue < incr) then
    .error (text "increment or decrement would overflow")
  else
    let value := toLong (oldvalue + incr)
    .ok (value, insertKey db key (.int value (inLong_toLong _)))

inductive Command where
  | incr
  | decr
  | incrby (arg : Bytes)
  | decrby (arg : Bytes)

/-- `incrCommand`, `decrCommand`, `incrbyCommand` and `decrbyCommand`: the reply and the keyspace. -/
def command (db : Keyspace) (key : Bytes) : Command → Parsed (Int × Keyspace)
  | .incr => incrDecrCommand db key 1
  | .decr => incrDecrCommand db key (-1)
  | .incrby arg => do
    let incr ← getLongLongFromObjectOrReply arg none
    incrDecrCommand db key incr
  | .decrby arg => do
    let incr ← getLongLongFromObjectOrReply arg none
    incrDecrCommand db key (toLong (-incr))

/-- What a command is to add, without bounds. -/
def Command.amount : Command → Parsed Int
  | .incr => .ok 1
  | .decr => .ok (-1)
  | .incrby arg => getLongLongFromObjectOrReply arg none
  | .decrby arg => return -(← getLongLongFromObjectOrReply arg none)

instance (value : Int) : Decidable (InLong value) := inferInstanceAs (Decidable (_ ∧ _))

/-- The exact sum is stored and replied if it fits. -/
def addExactly (db : Keyspace) (key : Bytes) (amount : Int) : Parsed (Int × Keyspace) := do
  let old ← oldValue (db key)
  if fits : InLong (old + amount) then
    .ok (old + amount, insertKey db key (.int (old + amount) fits))
  else .error (text "increment or decrement would overflow")

/-- The least number is to be subtracted. -/
def SubtractsLeast (db : Keyspace) (key : Bytes) : Command → Prop
  | .decrby arg => string2ll arg = some (-(2 ^ 63)) ∧ ∃ old, oldValue (db key) = .ok old
  | _ => False

variable {db : Keyspace} {key : Bytes} {incr : Int}

theorem getLongLong_inLongLong {o : Bytes} {value : Int}
    (read : getLongLongFromObjectOrReply o none = .ok value) :
    string2ll o = some value ∧ InLong value := by
  rw [getLongLongFromObjectOrReply] at read
  cases parsed : string2ll o with
  | none =>
    rw [parsed] at read
    cases read
  | some number =>
    rw [parsed] at read
    cases read
    exact ⟨rfl, (string2ll_decimal parsed).2⟩

theorem inLongLong_oldValue {value : Option Value} {old : Int} (read : oldValue value = .ok old) :
    InLong old := by
  match value with
  | none =>
    cases read
    decide
  | some (.raw content) => exact (getLongLong_inLongLong read).2
  | some (.int value fits) =>
    cases read
    exact fits
  | some .other => cases read

theorem incrDecrCommand_eq (fits : InLong incr) :
    incrDecrCommand db key incr = addExactly db key incr := by
  rw [incrDecrCommand, addExactly]
  cases read : oldValue (db key) with
  | error msg => rfl
  | ok old =>
    have bounds := inLongLong_oldValue read
    rw [InLong] at fits bounds
    rw [ok_bind, ok_bind]
    by_cases sum : InLong (old + incr)
    · have exact_ := toLong_of_inLong sum
      rw [dif_pos sum, if_neg (by rw [InLong] at sum; omega)]
      simp only [exact_]
    · rw [dif_neg sum, if_pos (by rw [InLong] at sum; omega)]

theorem incrDecrCommand_least {old : Int} (read : oldValue (db key) = .ok old) :
    incrDecrCommand db key (-(2 ^ 63)) ≠ addExactly db key (2 ^ 63) := by
  have bounds := inLongLong_oldValue read
  rw [incrDecrCommand_eq (by decide), addExactly, addExactly, read, ok_bind, ok_bind]
  rw [InLong] at bounds
  by_cases negative : old < 0
  · rw [dif_neg (by rw [InLong]; omega), dif_pos (by rw [InLong]; omega)]
    intro same
    cases same
  · rw [dif_pos (by rw [InLong]; omega), dif_neg (by rw [InLong]; omega)]
    intro same
    cases same

/-- The commands store and reply the exact sum, or fail if there is none that fits, except when the
least number is subtracted. -/
theorem command_exact_iff (db : Keyspace) (key : Bytes) (cmd : Command) :
    command db key cmd = (do addExactly db key (← cmd.amount)) ↔ ¬ SubtractsLeast db key cmd := by
  cases cmd with
  | incr => exact iff_of_true (incrDecrCommand_eq (by decide)) id
  | decr => exact iff_of_true (incrDecrCommand_eq (by decide)) id
  | incrby arg =>
    refine iff_of_true ?_ id
    rw [command, Command.amount]
    cases read : getLongLongFromObjectOrReply arg none with
    | error msg => rfl
    | ok incr => exact incrDecrCommand_eq (getLongLong_inLongLong read).2
  | decrby arg =>
    rw [command, Command.amount, SubtractsLeast]
    cases read : getLongLongFromObjectOrReply arg none with
    | error msg =>
      refine iff_of_true rfl fun least => ?_
      rw [getLongLongFromObjectOrReply, least.1] at read
      cases read
    | ok incr =>
      obtain ⟨parsed, fits⟩ := getLongLong_inLongLong read
      change incrDecrCommand db key (toLong (-incr)) = addExactly db key (-incr) ↔ _
      by_cases least : incr = -(2 ^ 63)
      · subst least
        -- The negation of the least number is the least number again.
        cases stored : oldValue (db key) with
        | error msg =>
          refine iff_of_true ?_ nofun
          rw [incrDecrCommand, addExactly, stored]
          rfl
        | ok old => exact iff_of_false (incrDecrCommand_least stored) (not_not.mpr ⟨parsed, old, rfl⟩)
      · have negated : InLong (-incr) := by
          rw [InLong] at fits ⊢
          omega
        rw [toLong_of_inLong negated]
        refine iff_of_true (incrDecrCommand_eq negated) fun subtracted => least ?_
        exact Option.some.inj (parsed.symm.trans subtracted.1)

/-- Subtracting the least number from a missing key stores it, where the difference does not fit. -/
theorem decrby_least_stored : ∃ later,
    command (fun _ => none) [] (.decrby (text "-9223372036854775808")) = .ok (-(2 ^ 63), later) ∧
      ¬ InLong (0 - -(2 ^ 63)) := by
  have parsed : string2ll (text "-9223372036854775808") = some (-(2 ^ 63)) := by decide +kernel
  rw [command, getLongLongFromObjectOrReply, parsed]
  exact ⟨_, rfl, by decide⟩

end LearningNotes.Strings
