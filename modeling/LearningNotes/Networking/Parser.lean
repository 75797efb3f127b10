import LearningNotes.Networking.Basic
import LearningNotes.Lib.Resumable

/-! The protocol parser without a buffer: one step reads a line or an argument of the stream. -/

namespace LearningNotes.Networking

open Lib Util List

/-- A parser between two steps; the next one executes a request that is ready. -/
structure Stage where
  parser : Parser
  ready : Bool
deriving DecidableEq, Repr

namespace Parser

/-- The character that ends the line the parser is waiting for. -/
def terminator (p : Parser) : Option UInt8 :=
  match p.reqtype with
  | none => none
  | some .inline => some nl
  | some .multibulk => if p.multibulklen = 0 ∨ p.bulklen = none then some cr else none

def failed (p : Parser) (error : ProtocolError) : Option (Stage × Nat) :=
  some (⟨setProtocolError p error, false⟩, 0)

/-- Read a line: its length, its first character and its text. -/
def readLine (p : Parser) (newline : UInt8) (tail : Nat) (tooBig : ProtocolError)
    (use : Nat → UInt8 → Bytes → Except ProtocolError (Stage × Nat)) (unparsed : Bytes) :
    Option (Stage × Nat) :=
  match findLine newline tail unparsed with
  | .waiting => none
  | .tooBig => p.failed tooBig
  | .complete length =>
    match use length (unparsed.headD 0) (unparsed.take length) with
    | .error error => p.failed error
    | .ok result => some result

def useInline (server : Server) (p : Parser) (length : Nat) (_ : UInt8) (line : Bytes) :
    Except ProtocolError (Stage × Nat) := do
  let argv ← inlineArgs server p (withoutCr line)
  return (⟨{ p with argv := argv }, true⟩, length + 1)

def useMultibulkLen (server : Server) (p : Parser) (length : Nat) (_ : UInt8) (line : Bytes) :
    Except ProtocolError (Stage × Nat) := do
  let ll ← multibulkLength server p line
  if ll ≤ 0 then return (⟨p, true⟩, length + 2)
  else return (⟨{ p with multibulklen := ll.toNat, argv := [] }, false⟩, length + 2)

def useBulkLen (server : Server) (p : Parser) (length : Nat) (first : UInt8) (line : Bytes) :
    Except ProtocolError (Stage × Nat) := do
  let ll ← bulkLength server p first line
  return (⟨{ p with bulklen := some ll }, false⟩, length + 2)

def stepBulk (p : Parser) (bulklen : Nat) (unparsed : Bytes) : Option (Stage × Nat) :=
  if unparsed.length < bulklen + 2 then none
  else
    let next := { p with
      argv := p.argv ++ [unparsed.take bulklen]
      bulklen := none
      multibulklen := p.multibulklen - 1 }
    some (⟨next, next.multibulklen = 0⟩, bulklen + 2)

/-- One step on what has not been parsed, and how much it consumes. -/
def step (server : Server) (p : Parser) (unparsed : Bytes) : Option (Stage × Nat) :=
  if unparsed = [] ∨ stopped server p then none
  else
    match p.reqtype with
    | none => some (⟨{ p with reqtype := some (reqtypeOf unparsed) }, false⟩, 0)
    | some .inline => p.readLine nl 1 .tooBigInline (p.useInline server) unparsed
    | some .multibulk =>
      if p.multibulklen = 0 then
        p.readLine cr 2 .tooBigMbulkCount (p.useMultibulkLen server) unparsed
      else
        match p.bulklen with
        | none => p.readLine cr 2 .tooBigBulkCount (p.useBulkLen server) unparsed
        | some bulklen => p.stepBulk bulklen unparsed

end Parser

def Stage.step (server : Server) (stage : Stage) (unparsed : Bytes) : Option (Stage × Nat) :=
  if stage.ready then some (⟨execute server stage.parser, false⟩, 0)
  else stage.parser.step server unparsed

def firstStage : Stage := ⟨newParser, false⟩

/-- No line that the parser finds is longer than it may be. -/
def ShortLines (server : Server) (stream : Bytes) : Prop :=
  ∀ stage unparsed newline length, Parses (Stage.step server) (firstStage, stream) (stage, unparsed) →
    stage.parser.terminator = some newline → strchr newline unparsed = some length →
    length ≤ protoInlineMaxSize

section Stability

variable {server : Server} {p : Parser} {seen more : Bytes}

/-- A terminator that is found stays the first one when more bytes arrive. -/
theorem strchr_append {wanted : UInt8} {found : Nat} (first : strchr wanted seen = some found) :
    strchr wanted (seen ++ more) = some found ∧ found < seen.length := by
  induction seen generalizing found with
  | nil => cases first
  | cons byte rest ih =>
    rw [strchr] at first
    rw [cons_append, strchr]
    split at first
    · rename_i same
      cases first
      rw [if_pos same]
      exact ⟨rfl, by simp⟩
    · rename_i other
      split at first
      · cases first
      · rename_i nonzero
        obtain ⟨behind, later, rfl⟩ := Option.map_eq_some_iff.mp first
        obtain ⟨again, inside⟩ := ih later
        rw [if_neg other, if_neg nonzero, again]
        exact ⟨rfl, by simpa using inside⟩

/-- A terminator that was not there is found only among the new bytes. -/
theorem le_of_strchr_append {wanted : UInt8} {found : Nat} (missing : strchr wanted seen = none)
    (later : strchr wanted (seen ++ more) = some found) : seen.length ≤ found := by
  induction seen generalizing found with
  | nil => exact Nat.zero_le found
  | cons byte rest ih =>
    rw [strchr] at missing
    rw [cons_append, strchr] at later
    split at missing
    · cases missing
    rename_i other
    split at missing
    · rename_i zero
      rw [if_neg other, if_pos zero] at later
      cases later
    · rename_i nonzero
      rw [if_neg other, if_neg nonzero] at later
      obtain ⟨behind, found, rfl⟩ := Option.map_eq_some_iff.mp later
      simpa using ih (Option.map_eq_none_iff.mp missing) found

variable {newline first : UInt8} {tail length consumed : Nat} {next : Stage} {line : Bytes}

/-- A line that is complete stays complete. -/
theorem findLine_append_complete (found : findLine newline tail seen = .complete length) :
    findLine newline tail (seen ++ more) = .complete length := by
  unfold findLine at found ⊢
  cases first : strchr newline seen with
  | none =>
    rw [first] at found
    dsimp only at found
    split at found <;> cases found
  | some length =>
    obtain ⟨again, -⟩ := @strchr_append seen more newline length first
    rw [first] at found
    rw [again]
    dsimp only at found ⊢
    split at found
    · cases found
    · rw [if_neg (by rw [length_append]; omega)]
      exact found

/-- A refusal of a line as too big stands when no line of the stream is beyond the limit. -/
theorem findLine_append_tooBig
    (short : ∀ length, strchr newline (seen ++ more) = some length → length ≤ protoInlineMaxSize)
    (found : findLine newline tail seen = .tooBig) :
    findLine newline tail (seen ++ more) = .tooBig := by
  unfold findLine at found ⊢
  cases first : strchr newline seen with
  | some length =>
    rw [first] at found
    dsimp only at found
    split at found <;> cases found
  | none =>
    rw [first] at found
    dsimp only at found
    have big : protoInlineMaxSize < seen.length := by
      split at found
      · assumption
      · cases found
    cases later : strchr newline (seen ++ more) with
    | some length =>
      -- The line would be longer than it may be.
      have behind := le_of_strchr_append first later
      have bound := short length later
      omega
    | none =>
      rw [if_pos (by rw [length_append]; omega)]

/-- A complete line is taken from the bytes that were seen. -/
theorem findLine_complete {newline : UInt8} {tail length : Nat} (enough : 0 < tail)
    (found : findLine newline tail seen = .complete length) :
    length + tail ≤ seen.length ∧ (seen ++ more).take length = seen.take length := by
  unfold findLine at found
  split at found
  · split at found <;> cases found
  · split at found
    · cases found
    · cases found
      exact ⟨by omega, take_append_of_le_length (by omega)⟩

variable {tooBig : ProtocolError} {use : Nat → UInt8 → Bytes → Except ProtocolError (Stage × Nat)}
    {stream : Bytes}

/-- Reading a line takes the same bytes and says the same when more have arrived. -/
theorem Parser.readLine_append (enough : 0 < tail)
    (bound : ∀ length first line next consumed, use length first line = .ok (next, consumed) →
      consumed = length + tail)
    (short : next.parser.status ≠ .alive → ∀ length, strchr newline (seen ++ more) = some length →
      length ≤ protoInlineMaxSize)
    (read : p.readLine newline tail tooBig use seen = some (next, consumed)) :
    consumed ≤ seen.length ∧
      p.readLine newline tail tooBig use (seen ++ more) = some (next, consumed) := by
  unfold readLine at read ⊢
  cases found : findLine newline tail seen with
  | waiting =>
    rw [found] at read
    cases read
  | tooBig =>
    rw [found] at read
    have dead : next.parser.status ≠ .alive := by
      cases read
      exact fun alive => by cases alive
    rw [findLine_append_tooBig (short dead) found]
    refine ⟨?_, read⟩
    cases read
    exact Nat.zero_le _
  | complete length =>
    obtain ⟨inside, same⟩ := @findLine_complete seen more newline tail length enough found
    have first : (seen ++ more).headD 0 = seen.headD 0 := by
      cases seen with
      | nil => simp at inside; omega
      | cons byte rest => rfl
    rw [found] at read
    rw [findLine_append_complete found]
    dsimp only at read ⊢
    rw [same, first]
    refine ⟨?_, read⟩
    split at read
    · cases read
      exact Nat.zero_le _
    · rename_i used
      cases read
      rw [bound _ _ _ _ _ used]
      exact inside

/-- An inline request consumes its line and the newline. -/
theorem Parser.useInline_ok (used : p.useInline server length first line = .ok (next, consumed)) :
    consumed = length + 1 ∧ next.parser.executed = p.executed ∧ next.parser.status = p.status := by
  unfold useInline at used
  cases parsed : inlineArgs server p (withoutCr line) with
  | error error =>
    rw [parsed] at used
    cases used
  | ok argv =>
    rw [parsed] at used
    cases used
    exact ⟨rfl, rfl, rfl⟩

/-- A multibulk header consumes its line and both bytes of its end. -/
theorem Parser.useMultibulkLen_ok
    (used : p.useMultibulkLen server length first line = .ok (next, consumed)) :
    consumed = length + 2 ∧ next.parser.executed = p.executed ∧ next.parser.status = p.status := by
  unfold useMultibulkLen at used
  cases parsed : multibulkLength server p line with
  | error error =>
    rw [parsed] at used
    cases used
  | ok ll =>
    rw [parsed, ok_bind] at used
    split at used
    all_goals
      cases used
      exact ⟨rfl, rfl, rfl⟩

theorem Parser.useBulkLen_ok (used : p.useBulkLen server length first line = .ok (next, consumed)) :
    consumed = length + 2 ∧ next.parser.executed = p.executed ∧ next.parser.status = p.status := by
  unfold useBulkLen at used
  cases parsed : bulkLength server p first line with
  | error error =>
    rw [parsed] at used
    cases used
  | ok ll =>
    rw [parsed] at used
    cases used
    exact ⟨rfl, rfl, rfl⟩

/-- A step that the bytes seen so far allow is the same with more of them. -/
theorem Parser.step_append {next : Stage} {consumed : Nat}
    (short : next.parser.status ≠ .alive → ∀ newline length, p.terminator = some newline →
      strchr newline (seen ++ more) = some length → length ≤ protoInlineMaxSize)
    (stepped : p.step server seen = some (next, consumed)) :
    consumed ≤ seen.length ∧ p.step server (seen ++ more) = some (next, consumed) := by
  unfold step at stepped ⊢
  split at stepped
  · cases stepped
  rename_i running
  have nonempty : seen ≠ [] := fun empty => running (.inl empty)
  have still : ¬ (seen ++ more = [] ∨ stopped server p = true) := by
    rintro (empty | halted)
    · exact nonempty (append_eq_nil_iff.mp empty).1
    · exact running (.inr halted)
  rw [if_neg still]
  unfold terminator at short
  -- What is read is a whole line, or a bulk whose bytes have all arrived.
  cases type : p.reqtype with
  | none =>
    rw [type] at stepped
    obtain ⟨byte, rest, rfl⟩ := exists_cons_of_ne_nil nonempty
    cases stepped
    exact ⟨Nat.zero_le _, rfl⟩
  | some kind =>
    rw [type] at stepped short
    cases kind with
    | inline =>
      exact readLine_append Nat.one_pos (fun _ _ _ _ _ used => (useInline_ok used).1)
        (fun dead length => short dead nl length rfl) stepped
    | multibulk =>
      by_cases header : p.multibulklen = 0
      · rw [if_pos header] at stepped ⊢
        exact readLine_append Nat.two_pos (fun _ _ _ _ _ used => (useMultibulkLen_ok used).1)
          (fun dead length => short dead cr length (if_pos (.inl header))) stepped
      rw [if_neg header] at stepped ⊢
      cases size : p.bulklen with
      | none =>
        rw [size] at stepped
        exact readLine_append Nat.two_pos (fun _ _ _ _ _ used => (useBulkLen_ok used).1)
          (fun dead length => short dead cr length (if_pos (.inr size))) stepped
      | some bulklen =>
        rw [size] at stepped
        dsimp only at stepped ⊢
        unfold stepBulk at stepped ⊢
        split at stepped
        · cases stepped
        · cases stepped
          rw [if_neg (by rw [length_append]; omega), take_append_of_le_length (by omega)]
          exact ⟨by omega, rfl⟩

theorem Parser.readLine_frame
    (kept : ∀ length first line next consumed, use length first line = .ok (next, consumed) →
      next.parser.executed = p.executed ∧ next.parser.status = p.status)
    (read : p.readLine newline tail tooBig use seen = some (next, consumed)) :
    next.parser.executed = p.executed ∧ (next.ready = true → next.parser.status = p.status) := by
  unfold readLine at read
  split at read
  · cases read
  · cases read
    exact ⟨rfl, fun ready => by cases ready⟩
  split at read
  · cases read
    exact ⟨rfl, fun ready => by cases ready⟩
  · rename_i used
    cases read
    obtain ⟨executed, status⟩ := kept _ _ _ _ _ used
    exact ⟨executed, fun _ => status⟩

/-- Parsing executes nothing, and a request is ready only for a client that is alive. -/
theorem Parser.step_frame (stepped : p.step server seen = some (next, consumed)) :
    next.parser.executed = p.executed ∧ (next.ready = true → next.parser.status = .alive) := by
  unfold step at stepped
  split at stepped
  · cases stepped
  rename_i running
  have alive : p.status = .alive := by
    -- Otherwise the parser would be stopped.
    apply Decidable.byContradiction
    intro dead
    exact running (.inr (by simp [stopped, dead]))
  have same : next.parser.executed = p.executed ∧
      (next.ready = true → next.parser.status = p.status) := by
    split at stepped
    · cases stepped
      exact ⟨rfl, fun _ => rfl⟩
    · exact readLine_frame (fun _ _ _ _ _ used => (useInline_ok used).2) stepped
    split at stepped
    · exact readLine_frame (fun _ _ _ _ _ used => (useMultibulkLen_ok used).2) stepped
    split at stepped
    · exact readLine_frame (fun _ _ _ _ _ used => (useBulkLen_ok used).2) stepped
    · unfold stepBulk at stepped
      split at stepped
      · cases stepped
      · cases stepped
        exact ⟨rfl, fun _ => rfl⟩
  exact ⟨same.1, fun ready => (same.2 ready).trans alive⟩

/-- What a stage does with the bytes it has, more bytes do not change. -/
theorem Stage.step_append {stage next : Stage} {consumed : Nat}
    (short : next.parser.status ≠ .alive → ∀ newline length,
      stage.parser.terminator = some newline → strchr newline (seen ++ more) = some length →
      length ≤ protoInlineMaxSize)
    (stepped : stage.step server seen = some (next, consumed)) :
    consumed ≤ seen.length ∧ stage.step server (seen ++ more) = some (next, consumed) := by
  unfold Stage.step at stepped ⊢
  by_cases ready : stage.ready = true
  · -- The execution of a request does not look at the input.
    rw [if_pos ready] at stepped ⊢
    refine ⟨?_, stepped⟩
    cases stepped
    exact Nat.zero_le _
  · rw [if_neg ready] at stepped ⊢
    exact Parser.step_append short stepped

/-- On a stream whose lines are short the steps do not depend on how it is cut. -/
theorem ShortLines.stable (short : ShortLines server stream) :
    StableOn (Stage.step server) firstStage stream := by
  intro stage seen more reached next consumed stepped
  exact Stage.step_append (fun _ newline length => short stage _ newline length reached) stepped

/-- A stream within the limit has no line beyond it. -/
theorem shortLines_of_length (short : stream.length ≤ protoInlineMaxSize) :
    ShortLines server stream := by
  intro stage unparsed newline length reached _ found
  have inside := (@strchr_append unparsed [] newline length found).2
  have consumed := reached.length_le
  dsimp only at consumed
  omega

end Stability

end LearningNotes.Networking
