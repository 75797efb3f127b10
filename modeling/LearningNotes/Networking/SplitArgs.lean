import LearningNotes.Lib.Bytes

/-! The splitting of inline commands into arguments, as `sdssplitargs` of `sds.c` does it. -/

namespace LearningNotes.Networking

open Lib

def isSpace (byte : UInt8) : Bool := byte = 32 || decide (9 ≤ byte) && decide (byte ≤ 13)

def hexDigit (byte : UInt8) : Option UInt8 :=
  if 48 ≤ byte ∧ byte ≤ 57 then some (byte - 48)
  else if 97 ≤ byte ∧ byte ≤ 102 then some (byte - 87)
  else if 65 ≤ byte ∧ byte ≤ 70 then some (byte - 55)
  else none

/-- The character that an escape in double quotes stands for. -/
def unescape (byte : UInt8) : UInt8 :=
  if byte = 110 then 10
  else if byte = 114 then 13
  else if byte = 116 then 9
  else if byte = 98 then 8
  else if byte = 97 then 7
  else byte

/-- Where the scan of a line is. -/
inductive Scan where
  /-- Blanks between two arguments are skipped. -/
  | between
  /-- Inside an argument, outside of quotes. -/
  | plain (current : Bytes)
  /-- Inside double quotes. -/
  | inq (current : Bytes)
  /-- Inside single quotes. -/
  | insq (current : Bytes)
deriving DecidableEq, Repr

/-- A closing quote is followed by a space or nothing. -/
def closes : Bytes → Bool
  | [] => true
  | byte :: _ => isSpace byte

/-- The scan of `sdssplitargs`; quotes must be balanced. -/
def splitFrom : Scan → Bytes → Option (List Bytes)
  | .between, [] => some []
  | .plain current, [] => some [current]
  | .inq _, [] => none
  | .insq _, [] => none
  | .between, byte :: rest =>
    if isSpace byte then splitFrom .between rest
    -- The first character of an argument may be a quote.
    else if byte = 34 then splitFrom (.inq []) rest
    else if byte = 39 then splitFrom (.insq []) rest
    else splitFrom (.plain [byte]) rest
  | .plain current, byte :: rest =>
    if byte = 32 ∨ byte = 10 ∨ byte = 13 ∨ byte = 9 then
      (splitFrom .between rest).map (current :: ·)
    else if byte = 34 then splitFrom (.inq current) rest
    else if byte = 39 then splitFrom (.insq current) rest
    else splitFrom (.plain (current ++ [byte])) rest
  | .inq current, 92 :: 120 :: high :: low :: rest =>
    match hexDigit high, hexDigit low with
    | some high, some low => splitFrom (.inq (current ++ [high * 16 + low])) rest
    | _, _ => splitFrom (.inq (current ++ [120])) (high :: low :: rest)
  | .inq current, 92 :: byte :: rest => splitFrom (.inq (current ++ [unescape byte])) rest
  | .inq current, byte :: rest =>
    if byte = 34 then
      if closes rest then (splitFrom .between rest).map (current :: ·) else none
    else splitFrom (.inq (current ++ [byte])) rest
  | .insq current, 92 :: 39 :: rest => splitFrom (.insq (current ++ [39])) rest
  | .insq current, byte :: rest =>
    if byte = 39 then
      if closes rest then (splitFrom .between rest).map (current :: ·) else none
    else splitFrom (.insq (current ++ [byte])) rest

/-- `sdssplitargs`, up to the first zero byte. -/
def sdssplitargs (line : Bytes) : Option (List Bytes) :=
  splitFrom .between (line.takeWhile (· ≠ 0))

end LearningNotes.Networking
