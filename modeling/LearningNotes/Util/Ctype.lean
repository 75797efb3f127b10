import LearningNotes.Lib.Bytes

/-! Strings, and the comparison of them that ignores case, as in the C library. -/

namespace LearningNotes.Util

open Lib

def text (s : String) : Bytes := s.toUTF8.toList

/-- `tolower`, for the letters of ASCII. -/
def tolower (byte : UInt8) : UInt8 := if 65 ≤ byte ∧ byte ≤ 90 then byte + 32 else byte

/-- A string of C ends in front of its first zero byte. -/
def cString (s : Bytes) : Bytes := s.takeWhile (· ≠ 0)

/-- Whether `strcasecmp` finds no difference. -/
def sameIgnoringCase (a b : Bytes) : Bool := (cString a).map tolower == (cString b).map tolower

end LearningNotes.Util
