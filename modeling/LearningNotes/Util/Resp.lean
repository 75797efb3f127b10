import LearningNotes.Util.Integer

/-! Commands as the protocol writes them: a count, and every argument behind its length. -/

namespace LearningNotes.Util

open Lib

/-- A string object, as bytes or encoded as an integer. -/
inductive Robj where
  | raw (s : Bytes)
  | int (value : Int)
deriving DecidableEq, Repr

/-- `getDecodedObject`, of which only the bytes matter. -/
def getDecodedObject : Robj → Bytes
  | .raw s => s
  | .int value => decimal value

/-- The length, for which an integer is not written. -/
def stringObjectLen : Robj → Nat
  | .raw s => s.length
  | .int value => sdigits10 value

def crlf : Bytes := [13, 10]

/-- A line that holds a marker and a number. -/
def headerLine (mark : UInt8) (number : Nat) : Bytes := mark :: natDigits number ++ crlf

def bulk (arg : Bytes) : Bytes := headerLine 36 arg.length ++ (arg ++ crlf)

def multibulk (argv : List Bytes) : Bytes := headerLine 42 argv.length ++ argv.flatMap bulk

theorem ends_not_mem_natDigits (number : Nat) :
    (13 : UInt8) ∉ natDigits number ∧ (10 : UInt8) ∉ natDigits number := by
  constructor
  all_goals
    intro member
    exact absurd (isDigit_of_mem_natDigits member).1 (by decide)

theorem stringObjectLen_eq (o : Robj) : stringObjectLen o = (getDecodedObject o).length := by
  cases o with
  | raw s => rfl
  | int value => exact sdigits10_eq value

end LearningNotes.Util
