import LearningNotes.Networking.Refinement
import LearningNotes.Util.Resp

/-! Commands that are written in the protocol's own form are read back, in any pieces. -/

namespace LearningNotes.Networking

open Lib Util List

/-- A master's link: what the master sends is always processed. -/
def masterLink (protoMaxBulkLen : List Argv → Int) (gopher : List Argv → Bool) : Server where
  flags _ := ⟨false, false, false, false, true⟩
  luaTimedout _ := false
  authRequired _ := false
  protoMaxBulkLen := protoMaxBulkLen
  gopher := gopher
  freed _ := false

/-- What the protocol can carry in one command. -/
structure Sendable (argv : Argv) : Prop where
  nonempty : argv ≠ []
  few : argv.length ≤ 1024 * 1024
  small : ∀ arg ∈ argv, arg.length ≤ llongMax

section Headers

variable {mark : UInt8} {number : Nat} {rest : Bytes}

theorem strchr_first {wanted : UInt8} {front : Bytes} (absent : wanted ∉ front)
    (nonzero : (0 : UInt8) ∉ front) : strchr wanted (front ++ wanted :: rest) = some front.length := by
  induction front with
  | nil => rw [nil_append, strchr, if_pos rfl, length_nil]
  | cons byte front ih =>
    rw [mem_cons, not_or] at absent nonzero
    rw [cons_append, strchr, if_neg (Ne.symm absent.1), if_neg (Ne.symm nonzero.1),
      ih absent.2 nonzero.2, Option.map_some, length_cons]

theorem strchr_headerLine (notCr : mark ≠ cr) (notZero : mark ≠ 0) :
    strchr cr (headerLine mark number ++ rest) = some ((natDigits number).length + 1) := by
  have zero : (0 : UInt8) ∉ natDigits number := fun member =>
    absurd (isDigit_of_mem_natDigits member).1 (by decide)
  have split : headerLine mark number ++ rest = (mark :: natDigits number) ++ cr :: (10 :: rest) := by
    simp [headerLine, crlf, cr]
  rw [split, strchr_first, length_cons]
  · simpa using ⟨notCr.symm, (ends_not_mem_natDigits number).1⟩
  · simpa using ⟨notZero.symm, zero⟩

/-- The line of a header ends where it was written to. -/
theorem findLine_headerLine (notCr : mark ≠ cr) (notZero : mark ≠ 0) :
    findLine cr 2 (headerLine mark number ++ rest) = .complete ((natDigits number).length + 1) := by
  rw [findLine, strchr_headerLine notCr notZero]
  dsimp only
  rw [if_neg]
  simp only [headerLine, crlf, length_append, length_cons]
  omega

theorem take_headerLine :
    (headerLine mark number ++ rest).take ((natDigits number).length + 1) =
      mark :: natDigits number := by
  simp [headerLine]

theorem drop_headerLine :
    (headerLine mark number ++ rest).drop ((natDigits number).length + 1 + 2) = rest := by
  simp [headerLine, crlf]

theorem short_header (fits : number ≤ llongMax) :
    (natDigits number).length + 1 ≤ protoInlineMaxSize := by
  have bound : llongMax < 10 ^ 19 := by decide
  have short := @length_natDigits_le number 19 (by decide) (by omega)
  have room : 20 ≤ protoInlineMaxSize := by decide
  omega

end Headers

section Stream

variable (protoMaxBulkLen : List Argv → Int) (gopher : List Argv → Bool)

/-- A parser in the middle of a command. -/
def collecting (done : List Argv) (seen : Argv) (missing : Nat) (bulklen : Option Nat) : Parser :=
  { reqtype := some .multibulk, multibulklen := missing, bulklen := bulklen, argv := seen,
    executed := done, status := .alive }

/-- A parser between two commands. -/
def waiting (done : List Argv) : Parser := { newParser with executed := done }

/-- The places of a parser in a stream of commands. -/
inductive OnStream (commands : List Argv) : Stage × Bytes → Prop
  | between {done rest : List Argv} (whole : commands = done ++ rest) :
    OnStream commands (⟨waiting done, false⟩, rest.flatMap multibulk)
  | typed {done rest : List Argv} {argv : Argv} (whole : commands = done ++ argv :: rest) :
    OnStream commands (⟨collecting done [] 0 none, false⟩,
      headerLine star argv.length ++ (argv.flatMap bulk ++ rest.flatMap multibulk))
  | sized {done rest : List Argv} {seen left : Argv} {arg : Bytes}
    (whole : commands = done ++ (seen ++ arg :: left) :: rest) :
    OnStream commands (⟨collecting done seen (left.length + 1) none, false⟩,
      headerLine dollar arg.length ++
        (arg ++ (crlf ++ (left.flatMap bulk ++ rest.flatMap multibulk))))
  | argument {done rest : List Argv} {seen left : Argv} {arg : Bytes}
    (whole : commands = done ++ (seen ++ arg :: left) :: rest) :
    OnStream commands (⟨collecting done seen (left.length + 1) (some arg.length), false⟩,
      arg ++ (crlf ++ (left.flatMap bulk ++ rest.flatMap multibulk)))
  | complete {done rest : List Argv} {argv : Argv} (whole : commands = done ++ argv :: rest) :
    OnStream commands (⟨collecting done argv 0 none, true⟩, rest.flatMap multibulk)

variable {protoMaxBulkLen gopher} {commands : List Argv} {done rest : List Argv} {seen left argv : Argv}
  {arg behind : Bytes}

theorem running_of_alive {p : Parser} (alive : p.status = .alive) :
    stopped (masterLink protoMaxBulkLen gopher) p = false := by
  simp [stopped, masterLink, alive]

theorem advance_between :
    advance (Stage.step (masterLink protoMaxBulkLen gopher))
        (⟨waiting done, false⟩, star :: behind) =
      some (⟨collecting done [] 0 none, false⟩, star :: behind) := by
  have stepped : Stage.step (masterLink protoMaxBulkLen gopher) ⟨waiting done, false⟩
      (star :: behind) = some (⟨collecting done [] 0 none, false⟩, 0) := by
    -- The type was unknown, and nothing is consumed to find it.
    rw [Stage.step, if_neg Bool.false_ne_true, Parser.step,
      if_neg (by simp [running_of_alive (p := waiting done) rfl])]
    rfl
  exact advance_of_step stepped

theorem advance_typed (some_ : 0 < argv.length) (few : argv.length ≤ 1024 * 1024) :
    advance (Stage.step (masterLink protoMaxBulkLen gopher))
        (⟨collecting done [] 0 none, false⟩, headerLine star argv.length ++ behind) =
      some (⟨collecting done [] argv.length none, false⟩, behind) := by
  -- The number is within the limit of the protocol, and no authentication is asked for.
  have parsed : multibulkLength (masterLink protoMaxBulkLen gopher) (collecting done [] 0 none)
      (star :: natDigits argv.length) = .ok (argv.length : Int) := by
    have fits : argv.length ≤ llongMax := Nat.le_trans few (by decide)
    rw [multibulkLength, tail_cons, string2ll_natDigits fits]
    dsimp only
    rw [if_neg (by omega), if_neg (by simp [masterLink])]
  have stepped : Stage.step (masterLink protoMaxBulkLen gopher) ⟨collecting done [] 0 none, false⟩
      (headerLine star argv.length ++ behind) =
        some (⟨collecting done [] argv.length none, false⟩,
          (natDigits argv.length).length + 1 + 2) := by
    refine (step_multibulk rfl (running_of_alive rfl)).trans ((if_pos rfl).trans ?_)
    rw [Parser.readLine, findLine_headerLine (by decide) (by decide)]
    dsimp only
    rw [take_headerLine, Parser.useMultibulkLen, parsed, ok_bind, if_neg (by omega)]
    rfl
  rw [advance_of_step stepped, drop_headerLine]

theorem advance_sized {missing : Nat} (fits : arg.length ≤ llongMax) :
    advance (Stage.step (masterLink protoMaxBulkLen gopher))
        (⟨collecting done seen (missing + 1) none, false⟩, headerLine dollar arg.length ++ behind) =
      some (⟨collecting done seen (missing + 1) (some arg.length), false⟩, behind) := by
  -- What a master sends is not limited in length.
  have parsed : bulkLength (masterLink protoMaxBulkLen gopher)
      (collecting done seen (missing + 1) none) dollar (dollar :: natDigits arg.length) =
        .ok arg.length := by
    rw [bulkLength, if_neg (by simp), tail_cons, string2ll_natDigits fits]
    dsimp only
    rw [if_neg (by simp [masterLink]), if_neg (by simp [masterLink]), Int.toNat_natCast]
  have stepped : Stage.step (masterLink protoMaxBulkLen gopher)
      ⟨collecting done seen (missing + 1) none, false⟩ (headerLine dollar arg.length ++ behind) =
        some (⟨collecting done seen (missing + 1) (some arg.length), false⟩,
          (natDigits arg.length).length + 1 + 2) := by
    have first : (headerLine dollar arg.length ++ behind).headD 0 = dollar := rfl
    refine (step_multibulk rfl (running_of_alive rfl)).trans ((if_neg missing.succ_ne_zero).trans ?_)
    change Parser.readLine _ cr 2 _ _ _ = _
    rw [Parser.readLine, findLine_headerLine (by decide) (by decide)]
    dsimp only
    rw [take_headerLine, first, Parser.useBulkLen, parsed]
    rfl
  rw [advance_of_step stepped, drop_headerLine]

theorem advance_argument {missing : Nat} :
    advance (Stage.step (masterLink protoMaxBulkLen gopher))
        (⟨collecting done seen (missing + 1) (some arg.length), false⟩, arg ++ (crlf ++ behind)) =
      some (⟨collecting done (seen ++ [arg]) missing none, missing = 0⟩, behind) := by
  have stepped : Stage.step (masterLink protoMaxBulkLen gopher)
      ⟨collecting done seen (missing + 1) (some arg.length), false⟩ (arg ++ (crlf ++ behind)) =
        some (⟨collecting done (seen ++ [arg]) missing none, missing = 0⟩, arg.length + 2) := by
    have arrived : ¬ (arg ++ (crlf ++ behind)).length < arg.length + 2 := by
      simp only [crlf, length_append, length_cons]
      omega
    refine (step_multibulk rfl (running_of_alive rfl)).trans ((if_neg missing.succ_ne_zero).trans ?_)
    change Parser.stepBulk _ arg.length _ = _
    rw [Parser.stepBulk, if_neg arrived, take_left]
    rfl
  have rest : (arg ++ (crlf ++ behind)).drop (arg.length + 2) = behind := by
    simp [crlf]
  rw [advance_of_step stepped, rest]

theorem advance_complete (nonempty : argv ≠ []) :
    advance (Stage.step (masterLink protoMaxBulkLen gopher))
        (⟨collecting done argv 0 none, true⟩, behind) =
      some (⟨waiting (done ++ [argv]), false⟩, behind) := by
  have executed : execute (masterLink protoMaxBulkLen gopher) (collecting done argv 0 none) =
      waiting (done ++ [argv]) := by
    rw [execute, if_neg (by simp [collecting]),
      if_neg (show (collecting done argv 0 none).argv ≠ [] from nonempty)]
    rfl
  rw [advance_of_step (stage_ready _ _ behind), executed, drop_zero]

theorem onStream_behind (whole : commands = done ++ (seen ++ left) :: rest) :
    OnStream commands (⟨collecting done seen left.length none, left.length = 0⟩,
      left.flatMap bulk ++ rest.flatMap multibulk) := by
  cases left with
  | nil =>
    rw [append_nil] at whole
    exact .complete whole
  | cons arg left =>
    have shape : (arg :: left).flatMap bulk ++ rest.flatMap multibulk =
        headerLine dollar arg.length ++
          (arg ++ (crlf ++ (left.flatMap bulk ++ rest.flatMap multibulk))) := by
      simp [bulk, dollar]
    rw [shape]
    exact .sized whole

section Sending

variable (sendable : ∀ argv ∈ commands, Sendable argv)
include sendable

variable (protoMaxBulkLen gopher) in
/-- From every point of a stream of commands the parser goes on to another, or is done. -/
theorem OnStream.advance {point : Stage × Bytes} (here : OnStream commands point) :
    (∃ next, Lib.advance (Stage.step (masterLink protoMaxBulkLen gopher)) point = some next ∧
      OnStream commands next) ∨ point = (⟨waiting commands, false⟩, []) := by
  cases here with
  | @between done rest whole =>
    cases rest with
    | nil =>
      rw [whole, append_nil]
      exact .inr rfl
    | cons argv rest =>
      -- The next command begins with a star.
      have shape : (argv :: rest).flatMap multibulk =
          headerLine star argv.length ++ (argv.flatMap bulk ++ rest.flatMap multibulk) := by
        rw [flatMap_cons, multibulk, append_assoc]
        rfl
      rw [shape]
      exact .inl ⟨_, advance_between, .typed whole⟩
  | @typed done rest argv whole =>
    have fits := sendable argv (by simp [whole])
    exact .inl ⟨_, advance_typed (length_pos_iff.mpr fits.nonempty) fits.few, by
      have next := @onStream_behind commands done rest [] argv whole
      rwa [decide_eq_false (mt length_eq_zero_iff.mp fits.nonempty)] at next⟩
  | @sized done rest seen left arg whole =>
    have fits := sendable (seen ++ arg :: left) (by simp [whole])
    exact .inl ⟨_, advance_sized (fits.small arg (by simp)), .argument whole⟩
  | @argument done rest seen left arg whole =>
    refine .inl ⟨_, advance_argument, onStream_behind ?_⟩
    rw [whole, append_assoc, singleton_append]
  | @complete done rest argv whole =>
    have fits := sendable argv (by simp [whole])
    refine .inl ⟨_, advance_complete fits.nonempty, .between ?_⟩
    rw [whole, append_assoc, singleton_append]

theorem OnStream.of_parses {start final : Stage × Bytes} (here : OnStream commands start)
    (run : Parses (Stage.step (masterLink protoMaxBulkLen gopher)) start final) :
    OnStream commands final := by
  induction run with
  | refl => exact here
  | @head start middle final moved _ ih =>
    rcases OnStream.advance protoMaxBulkLen gopher sendable here
      with ⟨next, moved', there⟩ | last
    · -- The step is the one that was found.
      rw [moved] at moved'
      cases moved'
      exact ih there
    · rw [last] at moved
      cases moved

theorem shortLines_commands :
    ShortLines (masterLink protoMaxBulkLen gopher) (commands.flatMap multibulk) := by
  intro stage unparsed newline length run searched found
  have there : OnStream commands (stage, unparsed) :=
    OnStream.of_parses sendable (.between (nil_append commands).symm) run
  -- Wherever the end of a line is searched, a header follows.
  have header : ∀ {mark : UInt8} {number : Nat} {behind : Bytes}, mark ≠ cr → mark ≠ 0 →
      number ≤ llongMax → some cr = some newline →
      strchr newline (headerLine mark number ++ behind) = some length →
      length ≤ protoInlineMaxSize := by
    intro mark number behind notCr notZero fits same found
    cases same
    rw [strchr_headerLine notCr notZero] at found
    cases found
    exact short_header fits
  have few : ∀ argv ∈ commands, argv.length ≤ llongMax := by
    intro argv member
    exact Nat.le_trans (sendable argv member).few (by decide)
  cases there with
  | between => cases searched
  | @typed done rest argv whole =>
    exact header (by decide) (by decide) (few argv (by simp [whole])) searched found
  | @sized done rest seen left arg whole =>
    have fits := sendable (seen ++ arg :: left) (by simp [whole])
    exact header (by decide) (by decide) (fits.small arg (by simp)) searched found
  | argument => cases searched
  | @complete done rest argv whole =>
    cases rest with
    | nil =>
      cases found
    | cons next rest =>
      rw [flatMap_cons, multibulk, append_assoc] at found
      exact header (by decide) (by decide) (few next (by simp [whole])) searched found

/-- However a stream of commands is cut, the commands are executed and nothing is left. -/
theorem readPieces_commands {pieces : List Bytes}
    (stream : pieces.flatten = commands.flatMap multibulk) :
    ∃ c, readPieces (masterLink protoMaxBulkLen gopher) pieces = .ok c ∧
      c.executed = commands ∧ c.unparsed = [] := by
  have short : ShortLines (masterLink protoMaxBulkLen gopher) pieces.flatten := by
    rw [stream]
    exact shortLines_commands sendable
  obtain ⟨c, read, run, stopped⟩ := readPieces_parses short
  rw [stream] at run
  have there := OnStream.of_parses sendable (.between (nil_append commands).symm) run
  -- The parser has stopped, so it is at the end.
  rcases OnStream.advance protoMaxBulkLen gopher sendable there
    with ⟨next, moved, _⟩ | last
  · rw [stopped] at moved
    cases moved
  · have parser : c.toParser = waiting commands := congrArg (fun point => point.1.parser) last
    have nothing : c.unparsed = [] := congrArg Prod.snd last
    exact ⟨c, read, congrArg Parser.executed parser, nothing⟩

end Sending

end Stream

end LearningNotes.Networking
