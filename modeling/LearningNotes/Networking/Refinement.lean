import LearningNotes.Networking.Parser
import Mathlib.Data.List.Infix

/-! The buffer of a client is parsed like the stream, however the stream is cut into reads. -/

namespace LearningNotes.Networking

open Lib Util List
open Stage (step)

/-- What the parser relies on between calls. -/
structure Sound (c : Client) : Prop where
  idle : c.multibulklen = 0 → c.argv = [] ∧ c.bulklen = none
  known : c.reqtype ≠ some .multibulk → c.multibulklen = 0
  star : c.reqtype = some .multibulk → c.multibulklen = 0 → c.unparsed.head? = some star
  inside : c.qbPos ≤ c.querybuf.length

/-- The point of the stream at which a client is. -/
def pointOf (c : Client) (ready : Bool) : Stage × Bytes := (⟨c.toParser, ready⟩, c.unparsed)

section Steps

variable {server : Server} {c : Client} {p : Parser} {unparsed : Bytes}

variable {stage : Stage} {error : ProtocolError} {missing bulklen : Nat}

theorem advance_of_step {next : Stage} {consumed : Nat}
    (stepped : stage.step server unparsed = some (next, consumed)) :
    advance (step server) (stage, unparsed) = some (next, unparsed.drop consumed) := by
  rw [advance, stepped]
  rfl

theorem advance_of_none (waiting : stage.step server unparsed = none) :
    advance (step server) (stage, unparsed) = none := by
  rw [advance, waiting]
  rfl

theorem stage_ready (server : Server) (p : Parser) (unparsed : Bytes) :
    step server ⟨p, true⟩ unparsed = some (⟨execute server p, false⟩, 0) := by
  rw [step, if_pos rfl]

theorem step_of_stopped (halted : stopped server p = true) :
    step server ⟨p, false⟩ unparsed = none := by
  rw [step, if_neg Bool.false_ne_true, Parser.step, if_pos (.inr halted)]

theorem stopped_setProtocolError : stopped server (setProtocolError p error) = true := by
  simp [stopped, setProtocolError]

theorem step_inline (type : p.reqtype = some .inline) (running : stopped server p = false) :
    step server ⟨p, false⟩ unparsed =
      p.readLine nl 1 .tooBigInline (p.useInline server) unparsed := by
  rw [step, if_neg Bool.false_ne_true, Parser.step]
  by_cases empty : unparsed = []
  · rw [if_pos (.inl empty), empty]
    rfl
  · rw [if_neg (by simp [empty, running]), type]

theorem step_multibulk (type : p.reqtype = some .multibulk) (running : stopped server p = false) :
    step server ⟨p, false⟩ unparsed =
      if p.multibulklen = 0 then
        p.readLine cr 2 .tooBigMbulkCount (p.useMultibulkLen server) unparsed
      else p.bulklen.elim (p.readLine cr 2 .tooBigBulkCount (p.useBulkLen server) unparsed)
        (p.stepBulk · unparsed) := by
  rw [step, if_neg Bool.false_ne_true, Parser.step]
  by_cases empty : unparsed = []
  · rw [if_pos (.inl empty), empty]
    split
    · rfl
    · cases p.bulklen <;> rfl
  · rw [if_neg (by simp [empty, running]), type]
    cases p.bulklen <;> rfl

/-- The point a call comes to, and whether it has to wait for more. -/
structure Reads (server : Server) (start : Stage × Bytes) (c : Client) (ready : Bool) : Prop where
  run : Parses (step server) start (pointOf c ready)
  /-- A call that is not ready has parsed as far as possible. -/
  waits : ready = false → advance (step server) (pointOf c false) = none ∧
    Sound c
  /-- A call that is ready has consumed something. -/
  consumes : ready = true → c.unparsed.length < start.2.length
  inside : c.qbPos ≤ c.querybuf.length

theorem reads_fail (sound : Sound c)
    (stepped : step server ⟨c.toParser, false⟩ c.unparsed = c.toParser.failed error) :
    Reads server (pointOf c false) (c.fail error) false := by
  refine ⟨.single ?_, fun _ => ⟨advance_of_none (step_of_stopped stopped_setProtocolError), ?_⟩,
    fun ready => (by cases ready), sound.inside⟩
  · exact advance_of_step stepped
  · exact ⟨sound.idle, sound.known, sound.star, sound.inside⟩

theorem reads_wait (sound : Sound c) (waiting : step server ⟨c.toParser, false⟩ c.unparsed = none) :
    Reads server (pointOf c false) c false :=
  ⟨.refl _, fun _ => ⟨advance_of_none waiting, sound⟩, fun ready => (by cases ready), sound.inside⟩

theorem unparsed_behind {mark : UInt8} {width newline : Nat} (positive : 0 < width)
    (found : findLine mark width c.unparsed = .complete newline) :
    c.querybuf.drop (c.qbPos + newline + width) = c.unparsed.drop (newline + width) ∧
      (c.querybuf.drop (c.qbPos + newline + width)).length < c.unparsed.length ∧
      c.qbPos + newline + width ≤ c.querybuf.length := by
  have inside := (@findLine_complete c.unparsed [] mark width newline positive found).1
  simp only [Client.unparsed, drop_drop, length_drop, Nat.add_assoc] at inside ⊢
  exact ⟨trivial, by omega, by omega⟩

theorem processInlineBuffer_reads (sound : Sound c)
    (type : c.reqtype = some .inline) (running : stopped server c.toParser = false) :
    Reads server (pointOf c false) (processInlineBuffer server c).1
      (processInlineBuffer server c).2 := by
  have step := @step_inline server c.toParser c.unparsed type running
  rw [Parser.readLine] at step
  rw [processInlineBuffer]
  cases found : findLine nl 1 c.unparsed with
  | waiting =>
    rw [found] at step
    exact reads_wait sound step
  | tooBig =>
    rw [found] at step
    exact reads_fail sound step
  | complete newline =>
    obtain ⟨rest, less, within⟩ := unparsed_behind Nat.one_pos found
    rw [found] at step
    dsimp only [Parser.useInline] at step ⊢
    cases parsed : inlineArgs server c.toParser (withoutCr (c.unparsed.take newline)) with
    | error error =>
      rw [parsed] at step
      exact reads_fail sound step
    | ok argv =>
      rw [parsed] at step
      refine ⟨.single ((advance_of_step step).trans ?_), fun waits => (by cases waits), fun _ => less,
        within⟩
      rw [← rest]
      rfl

/-- A client in the middle of a request that has arguments. -/
structure Midway (server : Server) (c : Client) (missing : Nat) : Prop where
  type : c.reqtype = some .multibulk
  running : stopped server c.toParser = false
  missing : c.multibulklen = missing
  inside : c.qbPos ≤ c.querybuf.length

theorem Midway.positive (midway : Midway server c (missing + 1)) : c.multibulklen ≠ 0 := by
  rw [midway.missing]
  exact Nat.succ_ne_zero missing

theorem Midway.sound (midway : Midway server c (missing + 1)) : Sound c :=
  ⟨fun none_ => absurd none_ midway.positive, fun other => absurd midway.type other,
    fun _ none_ => absurd none_ midway.positive, midway.inside⟩

theorem Reads.after {start : Stage × Bytes} {middle last : Client} {ready : Bool}
    (first : Parses (step server) start (pointOf middle false))
    (second : Reads server (pointOf middle false) last ready) : Reads server start last ready :=
  ⟨first.trans second.run, second.waits, fun done =>
    Nat.lt_of_lt_of_le (second.consumes done) first.length_le, second.inside⟩

theorem unparsed_trim : c.trim.unparsed = c.unparsed := by
  simp [Client.trim, Client.unparsed]

theorem readBulkLen_reads (midway : Midway server c (missing + 1)) (size : c.bulklen = none) :
    ((readBulkLen server c).2 = .notReady ∧
        Reads server (pointOf c false) (readBulkLen server c).1 false) ∨
      ((readBulkLen server c).2 = .goOn ∧ Midway server (readBulkLen server c).1 (missing + 1) ∧
        (∃ bulklen, (readBulkLen server c).1.bulklen = some bulklen) ∧
        Parses (step server) (pointOf c false) (pointOf (readBulkLen server c).1 false)) := by
  have step := @step_multibulk server c.toParser c.unparsed midway.type midway.running
  rw [if_neg midway.positive, size] at step
  dsimp only [Option.elim, Parser.readLine] at step
  rw [readBulkLen]
  cases found : findLine cr 2 c.unparsed with
  | waiting =>
    rw [found] at step
    exact .inl ⟨rfl, reads_wait midway.sound step⟩
  | tooBig =>
    rw [found] at step
    exact .inl ⟨rfl, reads_fail midway.sound step⟩
  | complete newline =>
    rw [found] at step
    dsimp only [Parser.useBulkLen] at step ⊢
    cases parsed : bulkLength server c.toParser (c.unparsed.headD 0) (c.unparsed.take newline) with
    | error error =>
      rw [parsed] at step
      exact .inl ⟨rfl, reads_fail midway.sound step⟩
    | ok ll =>
      rw [parsed] at step
      dsimp only
      -- Whether or not the buffer is trimmed, the same bytes are left.
      obtain ⟨rest, -, within⟩ := unparsed_behind Nat.two_pos found
      have same : stopped server { c.toParser with bulklen := some ll } = false := midway.running
      split
      · refine .inr ⟨rfl, ⟨midway.type, same, midway.missing, Nat.zero_le _⟩, ⟨ll, rfl⟩,
          .single ((advance_of_step step).trans ?_)⟩
        rw [pointOf, unparsed_trim, ← rest]
        rfl
      · refine .inr ⟨rfl, ⟨midway.type, same, midway.missing, within⟩, ⟨ll, rfl⟩,
          .single ((advance_of_step step).trans ?_)⟩
        rw [← rest]
        rfl

def withArgument (p : Parser) (argument : Bytes) : Parser :=
  { p with
    argv := p.argv ++ [argument]
    bulklen := none
    multibulklen := p.multibulklen - 1 }

theorem readBulk_eq (arrived : ¬ c.unparsed.length < bulklen + 2) :
    (readBulk c bulklen).2 = .goOn ∧
      (readBulk c bulklen).1.toParser = withArgument c.toParser (c.unparsed.take bulklen) ∧
      (readBulk c bulklen).1.unparsed = c.unparsed.drop (bulklen + 2) ∧
      (readBulk c bulklen).1.qbPos ≤ (readBulk c bulklen).1.querybuf.length := by
  have length : c.querybuf.length - c.qbPos = c.unparsed.length := (length_drop ..).symm
  rw [readBulk, length, if_neg arrived]
  by_cases handed : c.qbPos = 0 ∧ protoMbulkBigArg ≤ bulklen ∧ c.querybuf.length = bulklen + 2
  · have ⟨start, _, whole⟩ := handed
    have all : c.unparsed = c.querybuf := by rw [Client.unparsed, start, drop_zero]
    have argument : c.querybuf.dropLast.dropLast = c.unparsed.take bulklen := by
      rw [all, dropLast_eq_take, dropLast_eq_take, take_take, length_take]
      congr 1
      omega
    have nothing : c.unparsed.drop (bulklen + 2) = [] := by
      rw [all, ← whole, drop_length]
    rw [if_pos handed, argument, nothing]
    exact ⟨rfl, rfl, drop_nil, Nat.le_of_eq start⟩
  · rw [if_neg handed]
    refine ⟨rfl, rfl, ?_, ?_⟩
    · rw [Client.unparsed, Client.unparsed, drop_drop]
    · dsimp only
      omega

theorem readBulk_reads (midway : Midway server c (missing + 1)) (size : c.bulklen = some bulklen) :
    ((readBulk c bulklen).2 = .notReady ∧
        Reads server (pointOf c false) (readBulk c bulklen).1 false) ∨
      ((readBulk c bulklen).2 = .goOn ∧ Midway server (readBulk c bulklen).1 missing ∧
        Parses (step server) (pointOf c false) (pointOf (readBulk c bulklen).1 (missing = 0)) ∧
        (readBulk c bulklen).1.unparsed.length < c.unparsed.length) := by
  have step := @step_multibulk server c.toParser c.unparsed midway.type midway.running
  have length : c.querybuf.length - c.qbPos = c.unparsed.length := (length_drop ..).symm
  have left : c.multibulklen - 1 = missing := by
    rw [midway.missing]
    rfl
  rw [if_neg midway.positive, size] at step
  dsimp only [Option.elim, Parser.stepBulk] at step
  by_cases waiting : c.unparsed.length < bulklen + 2
  · rw [if_pos waiting] at step
    rw [readBulk, length, if_pos waiting]
    exact .inl ⟨rfl, reads_wait midway.sound step⟩
  obtain ⟨goesOn, parser, rest, inside⟩ := readBulk_eq waiting
  rw [if_neg waiting] at step
  refine .inr ⟨goesOn, ⟨?_, ?_, ?_, inside⟩, .single ((advance_of_step step).trans ?_), ?_⟩
  · rw [parser]
    exact midway.type
  · rw [parser]
    exact midway.running
  · rw [parser]
    exact left
  · rw [pointOf, parser, rest, withArgument, left]
  · rw [rest, length_drop]
    omega

theorem readArguments_reads {start : Stage × Bytes} {missing : Nat} {c : Client}
    (midway : Midway server c missing) (run : Parses (step server) start (pointOf c (missing = 0)))
    (consumed : missing = 0 → c.unparsed.length < start.2.length) :
    Reads server start (readArguments server missing c).1
      ((readArguments server missing c).2 == .ready) := by
  induction missing generalizing c with
  | zero => exact ⟨run, fun waits => (by cases waits), fun _ => consumed rfl, midway.inside⟩
  | succ missing ih =>
    have running : Parses (step server) start (pointOf c false) := run
    -- Once its length is known, the argument is read in either case.
    have argument : ∀ {c : Client} {bulklen : Nat}, Midway server c (missing + 1) →
        c.bulklen = some bulklen → Parses (step server) start (pointOf c false) →
        Reads server start (readArguments server (missing + 1) c).1
          ((readArguments server (missing + 1) c).2 == .ready) := by
      intro c bulklen midway size run
      rw [readArguments, if_neg (by simp [size])]
      simp only [size]
      rcases readBulk_reads midway size with ⟨waits, reads⟩ | ⟨goesOn, next, further, less⟩
      · rw [waits]
        exact reads.after run
      · rw [goesOn]
        refine ih next (run.trans further) fun _ => ?_
        exact Nat.lt_of_lt_of_le less run.length_le
    by_cases size : c.bulklen = none
    · rcases readBulkLen_reads midway size with ⟨waits, reads⟩ | ⟨goesOn, next, ⟨ll, known⟩, further⟩
      · rw [readArguments, if_pos size,
          show readBulkLen server c = ((readBulkLen server c).1, .notReady) from
            Prod.ext rfl waits]
        exact reads.after running
      · have same : readArguments server (missing + 1) c =
            readArguments server (missing + 1) (readBulkLen server c).1 := by
          rw [readArguments, readArguments, if_pos size, if_neg (by simp [known]),
            show readBulkLen server c = ((readBulkLen server c).1, .goOn) from Prod.ext rfl goesOn]
        rw [same]
        exact argument next known (running.trans further)
    · obtain ⟨ll, known⟩ := Option.ne_none_iff_exists'.mp size
      exact argument midway known running

theorem readMultibulkLen_reads (sound : Sound c) (type : c.reqtype = some .multibulk)
    (running : stopped server c.toParser = false) (header : c.multibulklen = 0) :
    (∃ next, readMultibulkLen server c = .ok (next, .notReady) ∧
      Reads server (pointOf c false) next false) ∨
    (∃ next, readMultibulkLen server c = .ok (next, .ready) ∧
      Reads server (pointOf c false) next true) ∨
    (∃ next missing, readMultibulkLen server c = .ok (next, .goOn) ∧
      Midway server next (missing + 1) ∧
      Parses (step server) (pointOf c false) (pointOf next false)) := by
  have step := @step_multibulk server c.toParser c.unparsed type running
  have idle : c.argv.isEmpty = true := by
    rw [(sound.idle header).1]
    rfl
  have first : decide (c.unparsed.head? = some star) = true :=
    decide_eq_true (sound.star type header)
  rw [if_pos header, Parser.readLine] at step
  rw [readMultibulkLen, idle, assert, if_pos rfl, ok_bind]
  cases found : findLine cr 2 c.unparsed with
  | waiting =>
    rw [found] at step
    exact .inl ⟨c, rfl, reads_wait sound step⟩
  | tooBig =>
    rw [found] at step
    exact .inl ⟨_, rfl, reads_fail sound step⟩
  | complete newline =>
    obtain ⟨rest, less, within⟩ := unparsed_behind Nat.two_pos found
    rw [found] at step
    dsimp only [Parser.useMultibulkLen] at step ⊢
    rw [first, assert, if_pos rfl, ok_bind]
    cases parsed : multibulkLength server c.toParser (c.unparsed.take newline) with
    | error error =>
      rw [parsed] at step
      exact .inl ⟨_, rfl, reads_fail sound step⟩
    | ok ll =>
      rw [parsed, ok_bind] at step
      dsimp only
      by_cases none_ : ll ≤ 0
      · rw [if_pos none_] at step ⊢
        refine .inr (.inl ⟨_, rfl, .single ((advance_of_step step).trans ?_),
          fun waits => (by cases waits), fun _ => less, within⟩)
        rw [← rest]
        rfl
      · rw [if_neg none_] at step ⊢
        refine .inr (.inr ⟨_, ll.toNat - 1, rfl, ⟨type, running, ?_, within⟩,
          .single ((advance_of_step step).trans ?_)⟩)
        · dsimp only
          omega
        · rw [← rest]
          rfl

theorem processMultibulkBuffer_reads (sound : Sound c)
    (type : c.reqtype = some .multibulk) (running : stopped server c.toParser = false) :
    ∃ next ready, processMultibulkBuffer server c = .ok (next, ready) ∧
      Reads server (pointOf c false) next ready := by
  rw [processMultibulkBuffer]
  -- With the number of arguments known, they are read in either case.
  have arguments : ∀ {next : Client} {missing : Nat}, Midway server next (missing + 1) →
      Parses (step server) (pointOf c false) (pointOf next false) → ∃ final ready, (do
        assert (decide (0 < next.multibulklen))
        let read := readArguments server next.multibulklen next
        return (read.1, read.2 == Progress.ready)) = .ok (final, ready) ∧
          Reads server (pointOf c false) final ready := by
    intro next missing midway run
    rw [decide_eq_true (Nat.pos_of_ne_zero midway.positive), assert, if_pos rfl, midway.missing]
    exact ⟨_, _, rfl, readArguments_reads midway run fun none_ => by cases none_⟩
  by_cases header : c.multibulklen = 0
  · rw [if_pos header]
    rcases readMultibulkLen_reads sound type running header with ⟨next, read, reads⟩ |
      ⟨next, read, reads⟩ | ⟨next, missing, read, midway, run⟩
    · rw [read]
      exact ⟨next, false, rfl, reads⟩
    · rw [read]
      exact ⟨next, true, rfl, reads⟩
    · rw [read]
      exact arguments midway run
  · obtain ⟨missing, known⟩ := Nat.exists_eq_succ_of_ne_zero header
    rw [if_neg header]
    exact arguments ⟨type, running, known, sound.inside⟩ (.refl _)

theorem execute_sound (inside : c.qbPos ≤ c.querybuf.length) :
    Sound (c.withParser (execute server c.toParser)) := by
  have idle : (execute server c.toParser).reqtype = none ∧
      (execute server c.toParser).multibulklen = 0 ∧
      (execute server c.toParser).bulklen = none ∧ (execute server c.toParser).argv = [] := by
    unfold execute
    repeat' split
    all_goals exact ⟨rfl, rfl, rfl, rfl⟩
  obtain ⟨type, missing, size, argv⟩ := idle
  exact ⟨fun _ => ⟨argv, size⟩, fun _ => missing,
    fun multibulk => absurd (type.symm.trans multibulk) (by simp), inside⟩

theorem setReqtype_parses (nonempty : c.unparsed ≠ []) (running : stopped server c.toParser = false)
    (sound : Sound c) :
    Parses (step server) (pointOf c false) (pointOf c.setReqtype false) ∧
      Sound c.setReqtype := by
  cases type : c.reqtype with
  | some kind =>
    have same : c.setReqtype = c := by
      rw [Client.setReqtype, type, Option.getD_some, ← type]
    rw [same]
    exact ⟨.refl _, sound⟩
  | none =>
    have unknown : c.reqtype ≠ some .multibulk := by simp [type]
    have typed : c.setReqtype.reqtype = some (reqtypeOf c.unparsed) := by
      rw [Client.setReqtype, type, Option.getD_none]
    refine ⟨.single ?_, ⟨sound.idle, fun _ => sound.known unknown, fun multibulk _ => ?_,
      sound.inside⟩⟩
    · have step : step server ⟨c.toParser, false⟩ c.unparsed =
          some (⟨c.setReqtype.toParser, false⟩, 0) := by
        rw [step, if_neg Bool.false_ne_true, Parser.step,
          if_neg (by simp [nonempty, running]), Client.setReqtype, type, Option.getD_none]
      exact (advance_of_step step).trans (by rw [drop_zero]; rfl)
    · rw [typed, reqtypeOf] at multibulk
      split at multibulk
      · assumption
      · cases multibulk

theorem processRequest_reads {kind : ReqType} (sound : Sound c)
    (type : c.reqtype = some kind) (running : stopped server c.toParser = false) :
    ∃ next ready, processRequest server c = .ok (next, ready) ∧
      Reads server (pointOf c false) next ready := by
  rw [processRequest, type]
  cases kind with
  | inline => exact ⟨_, _, rfl, processInlineBuffer_reads sound type running⟩
  | multibulk => exact processMultibulkBuffer_reads sound type running

theorem inputLoop_parses {fuel : Nat} {c : Client} (sound : Sound c)
    (fueled : c.unparsed.length < fuel) :
    ∃ final, inputLoop server fuel c = .ok final ∧
      Sound final ∧
      Parses (step server) (pointOf c false) (pointOf final false) ∧
      advance (step server) (pointOf final false) = none := by
  -- Every round that is followed by another one has consumed something.
  induction fuel generalizing c with
  | zero => exact absurd fueled (Nat.not_lt_zero _)
  | succ fuel ih =>
    rw [inputLoop]
    by_cases more : c.qbPos < c.querybuf.length
    · have nonempty : c.unparsed ≠ [] := by
        simp [Client.unparsed]
        omega
      rw [if_neg (by simpa using more)]
      by_cases halted : stopped server c.toParser = true
      · rw [if_pos halted]
        exact ⟨c, rfl, sound, .refl _, advance_of_none (step_of_stopped halted)⟩
      have running : stopped server c.toParser = false := by simpa using halted
      obtain ⟨typing, typed⟩ := setReqtype_parses nonempty running sound
      obtain ⟨next, ready, processed, reads⟩ :=
        @processRequest_reads server c.setReqtype _ typed rfl running
      have run := typing.trans reads.run
      rw [if_neg halted, processed, ok_bind]
      cases ready with
      | false =>
        obtain ⟨waits, kept⟩ := reads.waits rfl
        exact ⟨next, rfl, kept, run, waits⟩
      | true =>
        -- The request is executed, which leaves the parser at the start of the next one.
        have executed : Parses (step server) (pointOf c false)
            (pointOf (next.withParser (execute server next.toParser)) false) :=
          run.trans (.single (advance_of_step (stage_ready server next.toParser next.unparsed)))
        have less : next.unparsed.length < c.unparsed.length := reads.consumes rfl
        obtain ⟨final, looped, kept, further, stopped⟩ :=
          ih (execute_sound reads.inside) (show next.unparsed.length < fuel by omega)
        exact ⟨final, looped, kept, executed.trans further, stopped⟩
    · have empty : c.unparsed = [] := by
        simp [Client.unparsed]
        omega
      rw [if_pos more]
      refine ⟨c, rfl, sound, .refl _, advance_of_none ?_⟩
      rw [step, if_neg Bool.false_ne_true, Parser.step, if_pos (.inl empty)]

theorem readQueryFromClient_parses (server : Server) (c : Client) (piece : Bytes) (sound : Sound c) :
    ∃ final, readQueryFromClient server c piece = .ok final ∧ Sound final ∧
      Parses (step server) ((pointOf c false).1, (pointOf c false).2 ++ piece)
        (pointOf final false) ∧
      advance (step server) (pointOf final false) = none := by
  have appended : ({ c with querybuf := c.querybuf ++ piece } : Client).unparsed =
      c.unparsed ++ piece := drop_append_of_le_length sound.inside
  have ready : Sound { c with querybuf := c.querybuf ++ piece } := by
    refine ⟨sound.idle, sound.known, fun type header => ?_, ?_⟩
    · rw [appended, head?_append, sound.star type header]
      rfl
    · rw [length_append]
      exact Nat.le_trans sound.inside (Nat.le_add_right ..)
  obtain ⟨final, looped, kept, run, stopped⟩ := @inputLoop_parses server
    ((c.querybuf ++ piece).length - c.qbPos + 1) _ ready (by
      rw [Client.unparsed, length_drop]
      exact Nat.lt_succ_self _)
  rw [pointOf, appended] at run
  rw [readQueryFromClient, processInputBuffer, looped, ok_bind]
  by_cases freed : final.status = .freed
  · rw [if_pos freed]
    exact ⟨final, rfl, kept, run, stopped⟩
  rw [if_neg freed]
  refine ⟨final.trim, rfl, ⟨kept.idle, kept.known, ?_, Nat.zero_le _⟩, ?_, ?_⟩
  · exact kept.star
  · exact run
  · exact stopped

end Steps

theorem newClient_sound : Sound newClient :=
  ⟨fun _ => ⟨rfl, rfl⟩, fun _ => rfl, fun type => (by cases type), Nat.le_refl 0⟩

/-- The commands executed, the protocol error, and what is left of the request and the bytes. -/
def outcome (c : Client) : Parser × Bytes := (c.toParser, c.unparsed)

def readPieces (server : Server) (pieces : List Bytes) : Except Fault Client :=
  feedAll (readQueryFromClient server) newClient pieces

theorem readPieces_parses {server : Server} {pieces : List Bytes}
    (short : ShortLines server pieces.flatten) :
    ∃ final, readPieces server pieces = .ok final ∧
      Parses (step server) (firstStage, pieces.flatten) (pointOf final false) ∧
      advance (step server) (pointOf final false) = none := by
  obtain ⟨final, read, -, run, stopped⟩ := feedAll_parses short.stable
    (fun c piece sound => readQueryFromClient_parses server c piece sound) pieces newClient
    newClient_sound (.refl _) fun _ => rfl
  exact ⟨final, read, run, stopped⟩

/-! ### Clients that are blocked and unblocked -/

/-- By how many of the commands the client was blocked. -/
def Server.blocks (server : Server) (executed : List Argv) : Nat :=
  executed.inits.countP fun first => (server.flags first).blocked

/-- The server for a client that has been unblocked so many times. -/
def Server.resumed (server : Server) (times : Nat) : Server :=
  { server with
    flags := fun executed =>
      let flags := server.flags executed
      { flags with blocked := flags.blocked && times < server.blocks executed } }

inductive ClientEvent where
  | read (piece : Bytes)
  | unblock
deriving DecidableEq

/-- `readQueryFromClient`, and `processUnblockedClients` for a client that was blocked; how often the
client has been unblocked is kept beside it. -/
def handleClient (server : Server) : Nat × Client → ClientEvent → Except Fault (Nat × Client)
  | (times, c), .read piece => do
    return (times, ← readQueryFromClient (server.resumed times) c piece)
  | (times, c), .unblock =>
    if ((server.resumed times).flags c.executed).blocked then do
      return (times + 1, ← processInputBuffer (server.resumed (times + 1)) c)
    else .ok (times, c)

def handleClientAll (server : Server) (events : List ClientEvent) : Except Fault (Nat × Client) :=
  events.foldlM (handleClient server) (0, newClient)

def ClientEvent.bytes : ClientEvent → Bytes
  | .read piece => piece
  | .unblock => []

def sent (events : List ClientEvent) : Bytes := events.flatMap ClientEvent.bytes

section Resuming

variable {server : Server} {times later : Nat}

/-- Without any unblocking, the flags are those after the commands. -/
theorem resumed_zero (server : Server) : server.resumed 0 = server := by
  have flags : (server.resumed 0).flags = server.flags := by
    funext executed
    have counted : (server.flags executed).blocked = true → 0 < server.blocks executed := by
      intro blocked
      exact countP_pos_iff.mpr ⟨executed, (mem_inits ..).mpr prefix_rfl, blocked⟩
    cases shape : server.flags executed with
    | mk blocked _ _ _ _ =>
      rw [shape] at counted
      cases blocked <;> simp_all [Server.resumed]
  cases server
  exact congrArg (Server.mk · _ _ _ _ _) flags

theorem stopped_resumed {p : Parser} (less : times ≤ later)
    (halted : stopped (server.resumed later) p = true) :
    stopped (server.resumed times) p = true := by
  simp only [stopped, Server.resumed, Bool.or_eq_true, Bool.and_eq_true,
    decide_eq_true_eq] at halted ⊢
  have fewer : later < server.blocks p.executed → times < server.blocks p.executed := by omega
  tauto

/-- A client that has been unblocked more often still takes the steps that it took before. -/
theorem step_resumed (less : times ≤ later) (stage : Stage) (unparsed : Bytes)
    (result : Stage × Nat) (stepped : step (server.resumed times) stage unparsed = some result) :
    step (server.resumed later) stage unparsed = some result := by
  rw [step] at stepped ⊢
  split
  · rwa [if_pos ‹_›] at stepped
  rw [if_neg ‹_›, Parser.step] at stepped
  rw [Parser.step]
  split at stepped
  · cases stepped
  rename_i running
  -- The two servers differ only in whether the client is blocked.
  rw [if_neg fun idle => running (idle.imp_right (stopped_resumed less))]
  exact stepped

theorem ShortLines.resumed {stream : Bytes} (less : times ≤ later)
    (short : ShortLines (server.resumed later) stream) :
    ShortLines (server.resumed times) stream :=
  fun stage unparsed newline length reached =>
    short stage unparsed newline length (reached.mono (step_resumed less))

theorem processInputBuffer_parses (server : Server) (c : Client) (sound : Sound c) :
    ∃ final, processInputBuffer server c = .ok final ∧ Sound final ∧
      Parses (step server) (pointOf c false) (pointOf final false) ∧
      advance (step server) (pointOf final false) = none := by
  have read := readQueryFromClient_parses server c [] sound
  rwa [readQueryFromClient, append_nil, append_nil] at read

theorem handleClientAll_parses {stream : Bytes} {limit : Nat}
    (short : ShortLines (server.resumed limit) stream) (events : List ClientEvent) (times : Nat)
    {c : Client} (sound : Sound c) (bounded : times + events.count .unblock ≤ limit)
    (reached : Parses (step (server.resumed times)) (firstStage, stream)
      ((pointOf c false).1, (pointOf c false).2 ++ sent events))
    (stops : advance (step (server.resumed times)) (pointOf c false) = none) :
    ∃ times' final, events.foldlM (handleClient server) (times, c) = .ok (times', final) ∧
      Parses (step (server.resumed times')) (firstStage, stream) (pointOf final false) ∧
      advance (step (server.resumed times')) (pointOf final false) = none := by
  -- What has not been sent yet stays behind the buffer, and a run so far is one after more events.
  induction events generalizing times c with
  | nil =>
    rw [sent, flatMap_nil, append_nil] at reached
    exact ⟨times, c, rfl, reached, stops⟩
  | cons event events ih =>
    rw [sent, flatMap_cons, ← sent] at reached
    cases event with
    | read piece =>
      rw [count_cons_of_ne (by simp)] at bounded
      obtain ⟨next, fed, kept, run, stops⟩ := readQueryFromClient_parses _ c piece sound
      rw [ClientEvent.bytes, ← append_assoc] at reached
      obtain ⟨times', final, handled, last⟩ := ih times kept bounded
        (run.extend (short.resumed (by omega)).stable reached) stops
      refine ⟨times', final, ?_, last⟩
      rw [foldlM_cons, handleClient, fed, ok_bind]
      exact handled
    | unblock =>
      rw [count_cons_self] at bounded
      rw [ClientEvent.bytes, nil_append] at reached
      rw [foldlM_cons, handleClient]
      split
      · obtain ⟨next, fed, kept, run, stops⟩ := processInputBuffer_parses
          (server.resumed (times + 1)) c sound
        obtain ⟨times', final, handled, last⟩ := ih (times + 1) kept (by omega)
          (run.extend (short.resumed (by omega)).stable
            (reached.mono (step_resumed (Nat.le_succ times)))) stops
        refine ⟨times', final, ?_, last⟩
        rw [fed, ok_bind]
        exact handled
      · exact ih times sound (by omega) reached stops

end Resuming

/-- A stream without overlong lines gives the same commands, the same protocol error at the same
point and the same rest, in whatever pieces it is read, and whenever the client is unblocked after
commands that block it: those of the parser without a buffer. -/
theorem parsing_independent_of_reads (server : Server) (events others : List ClientEvent)
    (limit : Nat) (same : sent events = sent others) (few : events.count .unblock ≤ limit)
    (few' : others.count .unblock ≤ limit)
    (short : ShortLines (server.resumed limit) (sent events)) :
    ∃ times c times' other, handleClientAll server events = .ok (times, c) ∧
      handleClientAll server others = .ok (times', other) ∧
      (times = times' → outcome c = outcome other) ∧
      Parses (step (server.resumed times)) (firstStage, sent events) (pointOf c false) ∧
      advance (step (server.resumed times)) (pointOf c false) = none := by
  obtain ⟨times, c, handled, run, stopped⟩ := handleClientAll_parses short events 0
    newClient_sound (by omega) (.refl _) rfl
  obtain ⟨times', other, handled', run', stopped'⟩ := handleClientAll_parses (same ▸ short) others
    0 newClient_sound (by omega) (.refl _) rfl
  refine ⟨times, c, times', other, handled, handled', ?_, run, stopped⟩
  rintro rfl
  rw [← same] at run'
  -- Both clients are where the parser of the whole stream cannot go on.
  have equal := run.final_unique stopped run' stopped'
  injection equal with stage rest
  injection stage with parser
  rw [outcome, outcome, parser, rest]

def plainServer : Server where
  flags _ := ⟨false, false, false, false, false⟩
  luaTimedout _ := false
  authRequired _ := false
  protoMaxBulkLen _ := 512 * 1024 * 1024
  gopher _ := false
  freed _ := false

/-- The first command of a client blocks it. -/
def blockingServer : Server :=
  { plainServer with flags := fun executed => ⟨executed.length = 1, false, false, false, false⟩ }

def pingStream : Bytes :=
  [80, 73, 78, 71, 13, 10, 42, 49, 13, 10, 36, 52, 13, 10, 80, 73, 78, 71, 13, 10]

def byteByByte : List ClientEvent := pingStream.map (fun byte => .read [byte]) ++ [.unblock]

/-- Read byte by byte, the stream gives the same two commands as in two pieces. -/
theorem pingStream_byte_by_byte :
    ∃ c other, handleClientAll blockingServer byteByByte = .ok (1, c) ∧
      handleClientAll blockingServer
        [.read (pingStream.take 8), .unblock, .read (pingStream.drop 8)] = .ok (1, other) ∧
      outcome c = outcome other ∧ c.executed.length = 2 := by
  obtain ⟨times, c, times', other, handled, handled', equal, -⟩ :=
    parsing_independent_of_reads blockingServer byteByByte
      [.read (pingStream.take 8), .unblock, .read (pingStream.drop 8)] 1 (by decide) (by decide)
      (by decide) (shortLines_of_length (by decide))
  have first : (handleClientAll blockingServer byteByByte).toOption.map
      (fun result => (result.1, result.2.executed.length)) = some (1, 2) := by decide +kernel
  have second : (handleClientAll blockingServer
      [.read (pingStream.take 8), .unblock, .read (pingStream.drop 8)]).toOption.map Prod.fst =
        some 1 := by decide +kernel
  rw [handled] at first
  rw [handled'] at second
  simp only [Except.toOption, Option.map_some, Option.some.injEq, Prod.mk.injEq] at first second
  obtain ⟨rfl, number⟩ := first
  obtain rfl := second
  exact ⟨c, other, handled, handled', equal rfl, number⟩

example : (readPieces plainServer [pingStream]).toOption.map (fun c => c.executed) =
    some [[[80, 73, 78, 71]], [[80, 73, 78, 71]]] := by
  decide +kernel

end LearningNotes.Networking
