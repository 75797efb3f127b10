import LearningNotes.Aof.Reader

/-! What is left of an append-only file that was cut off, in memory and on disk. -/

namespace LearningNotes.Aof

open Lib Util List

variable {σ : Type}

structure Command (server : Server σ) (kind : Kind) where
  argv : List Robj
  encodable : Encodable (argv.map getDecodedObject)
  known : (argv.map getDecodedObject).head?.bind server.lookupCommand = some kind

/-- What is written: commands, and transactions as a whole. -/
inductive Entry (server : Server σ) where
  | command (c : Command server .other)
  | transaction (multi : Command server .multi) (queued : List (Command server .other))
      (exec : Command server .exec)

/-- A preamble, whose dataset is loaded whatever follows it. -/
structure Preamble (server : Server σ) where
  bytes : Bytes
  data : σ
  signed : bytes.take 5 = signature
  loads : ∀ rest, server.rdbLoadRio (bytes ++ rest) = .loaded data bytes.length

section Entries

variable {server : Server σ} {kind : Kind}

def Command.words (c : Command server kind) : List Bytes := c.argv.map getDecodedObject

def Command.bytes (c : Command server kind) : Bytes := catAppendOnlyGenericCommand [] c.argv

def tailBytes (queued : List (Command server .other)) (exec : Command server .exec) : Bytes :=
  queued.flatMap Command.bytes ++ exec.bytes

def Entry.bytes : Entry server → Bytes
  | .command c => c.bytes
  | .transaction multi queued exec => multi.bytes ++ tailBytes queued exec

def Entry.effect (data : σ) : Entry server → σ
  | .command c => server.proc data c.words
  | .transaction _ queued _ => queued.foldl (fun data c => server.proc data c.words) data

def written (entries : List (Entry server)) : Bytes := entries.flatMap Entry.bytes

def effects (data : σ) (entries : List (Entry server)) : σ := entries.foldl Entry.effect data

/-- The entries of which the first `cut` bytes hold every byte. -/
def completeEntries : List (Entry server) → Nat → List (Entry server)
  | [], _ => []
  | entry :: entries, cut =>
    if entry.bytes.length ≤ cut then
      entry :: completeEntries entries (cut - entry.bytes.length)
    else []

/-- The entry that the cut tears, with the number of its bytes left. -/
def interrupted : List (Entry server) → Nat → Option (Entry server × Nat)
  | [], _ => none
  | entry :: entries, cut =>
    if entry.bytes.length ≤ cut then interrupted entries (cut - entry.bytes.length)
    else if cut = 0 then none
    else some (entry, cut)

/-- The bytes left of the queued command, or `EXEC`, that the cut tears. -/
def tornInTail (exec : Command server .exec) : List (Command server .other) → Nat → Nat
  | [], kept => kept
  | c :: queued, kept =>
    if c.bytes.length ≤ kept then tornInTail exec queued (kept - c.bytes.length) else kept

/-- The bytes left of a torn command behind a complete `MULTI`. -/
def Entry.torn : Entry server → Nat → Nat
  | .command _, _ => 0
  | .transaction multi queued exec, kept =>
    if kept < multi.bytes.length then 0 else tornInTail exec queued (kept - multi.bytes.length)

variable (c : Command server kind)

theorem Command.bytes_eq : c.bytes = multibulk c.words := rfl

theorem Command.bytes_head : ∃ rest, c.bytes = 42 :: rest := ⟨_, rfl⟩

theorem Command.bytes_ne_nil : c.bytes ≠ [] := cons_ne_nil _ _

theorem Entry.bytes_head (entry : Entry server) : ∃ rest, entry.bytes = 42 :: rest := by
  cases entry with
  | command c => exact c.bytes_head
  | transaction multi queued exec => exact ⟨_, rfl⟩

theorem take_written (entries : List (Entry server)) (cut : Nat) :
    (written entries).take cut = written (completeEntries entries cut) ++
      match interrupted entries cut with
      | none => []
      | some (entry, kept) => entry.bytes.take kept := by
  induction entries generalizing cut with
  | nil => simp [written, completeEntries, interrupted]
  | cons entry entries ih =>
    have split : written (entry :: entries) = entry.bytes ++ written entries := rfl
    rw [completeEntries, interrupted, split, take_append]
    by_cases fits : entry.bytes.length ≤ cut
    · rw [if_pos fits, if_pos fits, take_of_length_le fits, ih]
      simp [written]
    · rw [if_neg fits, if_neg fits, Nat.sub_eq_zero_of_le (by omega)]
      by_cases none : cut = 0
      · simp [none, written]
      · simp [none, written]

theorem interrupted_bounds {entry : Entry server} {entries : List (Entry server)} {kept cut : Nat}
    (found : interrupted entries cut = some (entry, kept)) :
    0 < kept ∧ kept < entry.bytes.length := by
  induction entries generalizing cut with
  | nil => cases found
  | cons first entries ih =>
    rw [interrupted] at found
    split at found
    · exact ih found
    · split at found
      · cases found
      · obtain ⟨rfl, rfl⟩ : first = entry ∧ cut = kept := by simpa using found
        omega

end Entries

section Loop

variable {server : Server σ} {kind : Kind} {size fuel : Nat} {rest part missing : Bytes}
  {feof : Bool} {l : Loader σ}

variable (size feof l) in
theorem loadLoop_command (c : Command server kind) (enough : (c.bytes ++ rest).length < fuel) :
    ∃ fuel', rest.length < fuel' ∧ loadLoop server size fuel ⟨c.bytes ++ rest, feof⟩ l =
      loadLoop server size fuel' ⟨rest, feof⟩
        (runCommand server l kind c.words (size - rest.length)) := by
  have some : 0 < c.bytes.length := length_pos_iff.mpr c.bytes_ne_nil
  rw [length_append] at enough
  obtain ⟨fuel, rfl⟩ := Nat.exists_eq_succ_of_ne_zero (show fuel ≠ 0 by omega)
  have known : c.words.head?.bind server.lookupCommand = .some kind := c.known
  have fits : Encodable c.words := c.encodable
  refine ⟨fuel, by omega, ?_⟩
  rw [loadLoop, c.bytes_eq, readCommand_multibulk fits]
  dsimp only
  rw [known]

theorem loadLoop_end (outside : l.queue = none) (enough : 0 < fuel) :
    loadLoop server size fuel ⟨[], feof⟩ l = some (l.data, size) := by
  obtain ⟨fuel, rfl⟩ := Nat.exists_eq_succ_of_ne_zero (Nat.ne_of_gt enough)
  rw [loadLoop, readCommand_nil]
  rw [outside]
  rfl

theorem foldl_callQueued (queued : List (Command server .other)) (data : σ) :
    (queued.map Command.words).foldl (callQueued server) data =
      queued.foldl (fun data c => server.proc data c.words) data := by
  induction queued generalizing data with
  | nil => rfl
  | cons c queued ih =>
    have known : c.words.head?.bind server.lookupCommand = some .other := c.known
    have call : callQueued server data c.words = server.proc data c.words := by
      rw [callQueued, known]
    rw [map_cons, foldl_cons, foldl_cons, call, ih]

variable (truncated : server.aofLoadTruncated = true)
include truncated

theorem loadLoop_torn (c : Command server kind) (nonempty : part ≠ []) (torn : missing ≠ [])
    (whole : part ++ missing = c.bytes) (enough : part.length < fuel) :
    loadLoop server size fuel ⟨part, feof⟩ l = some (l.data, l.validUpTo) := by
  obtain ⟨fuel, rfl⟩ := Nat.exists_eq_succ_of_ne_zero (show fuel ≠ 0 by omega)
  rw [loadLoop, readCommand_torn c.encodable nonempty torn whole]
  dsimp only
  rw [readError, if_pos rfl, unexpectedEof, if_pos truncated]

theorem loadLoop_end_inside (inside : l.queue.isSome = true) (enough : 0 < fuel) :
    loadLoop server size fuel ⟨[], feof⟩ l = some (l.data, l.validBeforeMulti) := by
  obtain ⟨fuel, rfl⟩ := Nat.exists_eq_succ_of_ne_zero (Nat.ne_of_gt enough)
  rw [loadLoop, readCommand_nil]
  rw [if_pos inside, unexpectedEof, if_pos truncated]

variable {queue : List (List Bytes)} {argv : List Bytes} {ftello : Nat}

theorem runCommand_queued (inside : l.queue = some queue) :
    runCommand server l .other argv ftello =
      { l with queue := some (queue ++ [argv]), validUpTo := ftello } := by
  simp [runCommand, dispatch, inside, truncated]

theorem runCommand_multi (outside : l.queue = none) :
    runCommand server l .multi argv ftello =
      { l with queue := some [], validUpTo := ftello, validBeforeMulti := l.validUpTo } := by
  simp [runCommand, dispatch, outside, truncated]

theorem runCommand_exec (inside : l.queue = some queue) :
    runCommand server l .exec argv ftello =
      { l with data := queue.foldl (callQueued server) l.data, queue := none,
               validUpTo := ftello } := by
  simp [runCommand, dispatch, execCommand, inside, truncated]

variable (size feof) in
theorem loadLoop_queued (queued : List (Command server .other)) (inside : l.queue = some queue)
    (here : l.validUpTo = size - (queued.flatMap Command.bytes ++ rest).length)
    (enough : (queued.flatMap Command.bytes ++ rest).length < fuel) :
    ∃ fuel', rest.length < fuel' ∧
      loadLoop server size fuel ⟨queued.flatMap Command.bytes ++ rest, feof⟩ l =
        loadLoop server size fuel' ⟨rest, feof⟩
          { l with queue := some (queue ++ queued.map Command.words)
                   validUpTo := size - rest.length } := by
  induction queued generalizing fuel l queue with
  | nil =>
    refine ⟨fuel, enough, ?_⟩
    simp only [flatMap_nil, nil_append] at here
    simp only [flatMap_nil, nil_append, map_nil, append_nil, ← inside, ← here]
  | cons c queued ih =>
    rw [flatMap_cons, append_assoc] at enough ⊢
    -- One command goes to the queue, and the others follow it.
    obtain ⟨middle, enough, first⟩ := loadLoop_command size feof l c enough
    rw [runCommand_queued truncated inside] at first
    obtain ⟨fuel', enough, others⟩ := ih (l := { l with
      queue := some (queue ++ [c.words])
      validUpTo := size - (queued.flatMap Command.bytes ++ rest).length }) rfl rfl enough
    refine ⟨fuel', enough, first.trans (others.trans ?_)⟩
    simp

/-- A torn transaction is taken out of the file only if the cut tears none of its commands. -/
theorem loadLoop_tail (exec : Command server .exec) (torn : missing ≠ [])
    (queued : List (Command server .other)) (inside : l.queue.isSome = true)
    (whole : part ++ missing = tailBytes queued exec) (here : l.validUpTo = size - part.length)
    (enough : part.length < fuel) :
    loadLoop server size fuel ⟨part, feof⟩ l =
      some (l.data, if tornInTail exec queued part.length = 0 then l.validBeforeMulti
        else size - tornInTail exec queued part.length) := by
  induction queued generalizing part fuel l with
  | nil =>
    rw [tornInTail]
    by_cases empty : part = []
    · rw [empty, loadLoop_end_inside truncated inside (by omega)]
      rfl
    · rw [loadLoop_torn truncated exec empty torn whole enough, if_neg (by simpa using empty), here]
  | cons c queued ih =>
    have split : tailBytes (c :: queued) exec = c.bytes ++ tailBytes queued exec := by
      simp [tailBytes]
    rw [split] at whole
    rw [tornInTail]
    rcases cut_cases whole with ⟨kept, shape, behind⟩ | ⟨more, lack, first⟩
    · -- The first command is complete and queued; the others follow.
      rw [shape] at enough ⊢
      obtain ⟨queue, queueing⟩ := Option.isSome_iff_exists.mp inside
      obtain ⟨fuel', enough, run⟩ := loadLoop_command size feof l c enough
      rw [runCommand_queued truncated queueing] at run
      rw [run, ih rfl behind rfl enough]
      simp
    · -- The first command is torn, and it counts as the end of the valid part.
      have lengths := congrArg List.length first
      have some := length_pos_iff.mpr lack
      rw [length_append] at lengths
      rw [if_neg (show ¬ c.bytes.length ≤ part.length by omega)]
      by_cases empty : part = []
      · rw [empty, loadLoop_end_inside truncated inside (by omega)]
        rfl
      · rw [loadLoop_torn truncated c empty lack first enough, if_neg (by simpa using empty), here]

variable (size feof) in
theorem loadLoop_entry (entry : Entry server) (outside : l.queue = none)
    (enough : (entry.bytes ++ rest).length < fuel) :
    ∃ fuel' before, rest.length < fuel' ∧
      loadLoop server size fuel ⟨entry.bytes ++ rest, feof⟩ l =
        loadLoop server size fuel' ⟨rest, feof⟩
          { data := entry.effect l.data, queue := none, validUpTo := size - rest.length,
            validBeforeMulti := before } := by
  cases entry with
  | command c =>
    obtain ⟨fuel', enough, run⟩ := loadLoop_command size feof l c enough
    refine ⟨fuel', l.validBeforeMulti, enough, run.trans ?_⟩
    simp [runCommand, dispatch, outside, truncated, Entry.effect]
  | transaction multi queued exec =>
    -- `MULTI` opens the queue, the commands go to it, and `EXEC` runs them all.
    rw [Entry.bytes, tailBytes, append_assoc, append_assoc] at enough ⊢
    obtain ⟨fuel', enough, first⟩ :=
      loadLoop_command size feof l multi enough
    rw [runCommand_multi truncated outside] at first
    obtain ⟨fuel', enough, second⟩ := loadLoop_queued size feof truncated queued
      (l := { l with
        queue := some []
        validUpTo := size - (queued.flatMap Command.bytes ++ (exec.bytes ++ rest)).length
        validBeforeMulti := l.validUpTo }) rfl rfl enough
    obtain ⟨fuel', enough, third⟩ := loadLoop_command size feof
      { l with
        queue := some ([] ++ queued.map Command.words)
        validUpTo := size - (exec.bytes ++ rest).length
        validBeforeMulti := l.validUpTo } exec enough
    rw [runCommand_exec truncated rfl] at third
    refine ⟨fuel', l.validUpTo, enough, first.trans (second.trans (third.trans ?_))⟩
    rw [nil_append, foldl_callQueued]
    rfl

variable (size feof) in
theorem loadLoop_entries (entries : List (Entry server)) (outside : l.queue = none)
    (enough : (written entries ++ rest).length < fuel) :
    ∃ fuel' before, rest.length < fuel' ∧
      loadLoop server size fuel ⟨written entries ++ rest, feof⟩ l =
        loadLoop server size fuel' ⟨rest, feof⟩
          { data := effects l.data entries, queue := none, validBeforeMulti := before
            validUpTo := if entries = [] then l.validUpTo else size - rest.length } := by
  induction entries generalizing fuel l with
  | nil => exact ⟨fuel, l.validBeforeMulti, enough, by simp [written, effects, ← outside]⟩
  | cons entry entries ih =>
    have split : written (entry :: entries) ++ rest = entry.bytes ++ (written entries ++ rest) := by
      simp [written]
    rw [split] at enough ⊢
    obtain ⟨fuel', before, enough, first⟩ := loadLoop_entry size feof truncated entry outside enough
    obtain ⟨fuel', before', enough, others⟩ := ih (l := { l with
      data := entry.effect l.data
      queue := none
      validUpTo := size - (written entries ++ rest).length
      validBeforeMulti := before }) rfl enough
    refine ⟨fuel', before', enough, first.trans (others.trans ?_)⟩
    by_cases last : entries = []
    · simp [last, effects, written]
    · simp [last, effects]

theorem loadLoop_tornEntry (entry : Entry server) (outside : l.queue = none) (nonempty : part ≠ [])
    (torn : missing ≠ []) (whole : part ++ missing = entry.bytes) (enough : part.length < fuel) :
    loadLoop server size fuel ⟨part, feof⟩ l =
      some (l.data, if entry.torn part.length = 0 then l.validUpTo
        else size - entry.torn part.length) := by
  cases entry with
  | command c =>
    rw [loadLoop_torn truncated c nonempty torn whole enough]
    rfl
  | transaction multi queued exec =>
    rw [Entry.torn]
    rcases cut_cases whole with ⟨kept, shape, behind⟩ | ⟨more, lack, first⟩
    · -- `MULTI` is complete, so the loader is inside a transaction.
      rw [shape] at enough ⊢
      obtain ⟨fuel', enough, run⟩ :=
        loadLoop_command size feof l multi enough
      rw [runCommand_multi truncated outside] at run
      rw [run, loadLoop_tail truncated exec torn queued rfl behind rfl enough,
        if_neg (show ¬ (multi.bytes ++ kept).length < multi.bytes.length by simp),
        length_append, Nat.add_sub_cancel_left]
    · -- `MULTI` itself is torn.
      have lengths := congrArg List.length first
      have some := length_pos_iff.mpr lack
      rw [length_append] at lengths
      rw [loadLoop_torn truncated multi nonempty lack first enough,
        if_pos (show part.length < multi.bytes.length by omega), if_pos rfl]

end Loop

section Recovery

variable (server : Server σ) (preamble : Option (Preamble server))

def preambleBytes : Bytes := (preamble.map Preamble.bytes).getD []

def preambleData : σ := (preamble.map Preamble.data).getD server.empty

/-- What a crash leaves: the preamble and the first `cut` bytes behind it. -/
def cutFile (entries : List (Entry server)) (cut : Nat) : Bytes :=
  preambleBytes server preamble ++ (written entries).take cut

def recoveredData (entries : List (Entry server)) (cut : Nat) : σ :=
  effects (preambleData server preamble) (completeEntries entries cut)

def recoveredFile (entries : List (Entry server)) (cut : Nat) : Bytes :=
  preambleBytes server preamble ++ written (completeEntries entries cut)

/-- Nothing of an incomplete entry is left, and what is written later is loaded on top. -/
def Recovers (entries : List (Entry server)) (cut : Nat) : Prop :=
  loadAppendOnlyFile server (cutFile server preamble entries cut) =
      some (recoveredData server preamble entries cut, recoveredFile server preamble entries cut) ∧
    ∀ more : List (Entry server),
      loadAppendOnlyFile server (recoveredFile server preamble entries cut ++ written more) =
        some (effects (recoveredData server preamble entries cut) more,
          recoveredFile server preamble entries cut ++ written more)

/-- The cut tears no entry, or a command or `MULTI` only, and spares the preamble. -/
def Harmless (entries : List (Entry server)) (cut : Nat) : Prop :=
  match interrupted entries cut with
  | none => True
  | some (entry, kept) =>
    entry.torn kept = 0 ∧ (preamble.isNone = true ∨ completeEntries entries cut ≠ [])

variable {server} {preamble}

@[simp] theorem preambleBytes_none : preambleBytes server none = [] := rfl

@[simp] theorem preambleBytes_some (preamble : Preamble server) :
    preambleBytes server (some preamble) = preamble.bytes := rfl

theorem Preamble.bytes_length (preamble : Preamble server) : 5 ≤ preamble.bytes.length := by
  have length := congrArg List.length preamble.signed
  rw [length_take] at length
  simp only [signature, length_cons] at length
  omega

variable (entries : List (Entry server))

theorem take_written_signature (cut : Nat) :
    ((written entries).take cut).take 5 ≠ signature := by
  cases entries with
  | nil => simp [written, signature]
  | cons entry entries =>
    obtain ⟨rest, shape⟩ := entry.bytes_head
    cases cut with
    | zero => simp [signature]
    | succ cut =>
      rw [written, flatMap_cons, shape]
      simp [signature]

variable (preamble) in
theorem loadContents_eq (cut : Nat) :
    ∃ fuel, ((written entries).take cut).length < fuel ∧
      loadContents server (cutFile server preamble entries cut) =
        loadLoop server (cutFile server preamble entries cut).length fuel
          ⟨(written entries).take cut, false⟩ (newLoader (preambleData server preamble)) := by
  have inside : ((written entries).take cut).length ≤
      (cutFile server preamble entries cut).length := by
    rw [cutFile, length_append]
    exact Nat.le_add_left _ _
  refine ⟨(cutFile server preamble entries cut).length + 1, Nat.lt_succ_of_le inside, ?_⟩
  cases preamble with
  | none =>
    -- No command looks like a preamble.
    have plain : cutFile server none entries cut = (written entries).take cut := by
      simp [cutFile]
    rw [loadContents, plain, if_pos (take_written_signature entries cut)]
    rfl
  | some preamble =>
    have signed : (cutFile server (some preamble) entries cut).take 5 = signature := by
      rw [cutFile, preambleBytes_some, take_append_of_le_length preamble.bytes_length]
      exact preamble.signed
    have loaded := preamble.loads ((written entries).take cut)
    have behind : (cutFile server (some preamble) entries cut).drop preamble.bytes.length =
        (written entries).take cut := by
      simp [cutFile]
    rw [loadContents, if_neg (by simp [signed]), ← behind]
    rw [show server.rdbLoadRio (cutFile server (some preamble) entries cut) = _ from loaded]
    rfl

theorem loadAppendOnlyFile_eq (file : Bytes) :
    loadAppendOnlyFile server file =
      (loadContents server file).map fun (data, length) => (data, file.take length) := by
  by_cases empty : file = []
  · have nothing : loadContents server [] = some (server.empty, 0) := by
      rw [loadContents, if_pos (by simp [signature]), loadLoop_end rfl (by simp)]
      rfl
    rw [loadAppendOnlyFile, if_pos empty, empty, nothing]
    rfl
  · rw [loadAppendOnlyFile, if_neg empty]
    cases loadContents server file with
    | none => rfl
    | some result => rfl

def keptFile (preamble : Option (Preamble server)) (entries : List (Entry server)) (cut : Nat) :
    Bytes :=
  match interrupted entries cut with
  | none => cutFile server preamble entries cut
  | some (entry, kept) =>
    if entry.torn kept = 0 then
      if completeEntries entries cut = [] then [] else recoveredFile server preamble entries cut
    else
      (cutFile server preamble entries cut).take
        ((cutFile server preamble entries cut).length - entry.torn kept)

variable (preamble) in
/-- Loading a cut file recovers the dataset, whatever it leaves of the file. -/
theorem loadAppendOnlyFile_cut (truncated : server.aofLoadTruncated = true)
    (entries : List (Entry server)) (cut : Nat) :
    loadAppendOnlyFile server (cutFile server preamble entries cut) =
      some (recoveredData server preamble entries cut, keptFile preamble entries cut) := by
  obtain ⟨fuel, enough, start⟩ := loadContents_eq preamble entries cut
  have split := take_written entries cut
  -- The complete entries are loaded; then comes the end of the file or the entry that is torn.
  rw [split] at enough start
  obtain ⟨fuel', before, enough, run⟩ := loadLoop_entries
    (cutFile server preamble entries cut).length false truncated (completeEntries entries cut)
    (l := newLoader (preambleData server preamble)) rfl enough
  rw [loadAppendOnlyFile_eq, start, run, keptFile]
  cases found : interrupted entries cut with
  | none =>
    rw [found] at enough
    rw [loadLoop_end rfl enough]
    simp [recoveredData, newLoader]
  | some torn =>
    obtain ⟨entry, kept⟩ := torn
    obtain ⟨some, lost⟩ := interrupted_bounds found
    rw [found] at split enough
    dsimp only at split enough ⊢
    have length : (entry.bytes.take kept).length = kept := by
      rw [length_take]
      omega
    have nonempty : entry.bytes.take kept ≠ [] := length_pos_iff.mp (by omega)
    have missing : entry.bytes.drop kept ≠ [] := by
      apply length_pos_iff.mp
      rw [length_drop]
      omega
    have size : (cutFile server preamble entries cut).length - kept =
        (recoveredFile server preamble entries cut).length := by
      rw [cutFile, split, recoveredFile]
      simp only [length_append, length]
      omega
    rw [loadLoop_tornEntry truncated entry rfl nonempty missing
      (take_append_drop kept entry.bytes) enough, length]
    dsimp only [Option.map_some]
    by_cases behind : entry.torn kept = 0
    · rw [if_pos behind, if_pos behind, size]
      by_cases first : completeEntries entries cut = []
      · rw [if_pos first, if_pos first]
        rfl
      have front : (cutFile server preamble entries cut).take
          (recoveredFile server preamble entries cut).length =
          recoveredFile server preamble entries cut := by
        rw [cutFile, split, ← append_assoc, ← recoveredFile, take_left']
        rfl
      rw [if_neg first, if_neg first, front]
      rfl
    · rw [if_neg behind, if_neg behind]
      rfl

theorem complete_all :
    completeEntries entries (written entries).length = entries ∧
      interrupted entries (written entries).length = none := by
  induction entries with
  | nil => exact ⟨rfl, rfl⟩
  | cons entry entries ih =>
    have split : (written (entry :: entries)).length =
        entry.bytes.length + (written entries).length := by simp [written]
    have fits : entry.bytes.length ≤ entry.bytes.length + (written entries).length := by omega
    rw [completeEntries, interrupted, split, if_pos fits, if_pos fits, Nat.add_sub_cancel_left]
    exact ⟨by rw [ih.1], ih.2⟩

variable (preamble) in
theorem loadAppendOnlyFile_complete (truncated : server.aofLoadTruncated = true)
    (entries : List (Entry server)) :
    loadAppendOnlyFile server (preambleBytes server preamble ++ written entries) =
      some (effects (preambleData server preamble) entries,
        preambleBytes server preamble ++ written entries) := by
  have load := loadAppendOnlyFile_cut preamble truncated entries (written entries).length
  obtain ⟨complete, none⟩ := complete_all entries
  rwa [keptFile, none, recoveredData, complete, cutFile, take_length] at load

theorem Entry.torn_lt (entry : Entry server) {kept : Nat} (some : 0 < kept) :
    entry.torn kept < kept := by
  have within : ∀ (exec : Command server .exec) (queued : List (Command server .other)) kept,
      tornInTail exec queued kept ≤ kept := by
    intro exec queued kept
    induction queued generalizing kept with
    | nil => exact Nat.le_refl kept
    | cons c queued ih =>
      rw [tornInTail]
      split
      · exact Nat.le_trans (ih _) (Nat.sub_le _ _)
      · exact Nat.le_refl kept
  cases entry with
  | command c => exact some
  | transaction multi queued exec =>
    have first : 0 < multi.bytes.length := length_pos_iff.mpr multi.bytes_ne_nil
    rw [Entry.torn]
    split
    · exact some
    · have le := within exec queued (kept - multi.bytes.length)
      omega

theorem keptFile_eq_iff (cut : Nat) :
    keptFile preamble entries cut = recoveredFile server preamble entries cut ↔
      Harmless server preamble entries cut := by
  have split := take_written entries cut
  rw [keptFile, Harmless]
  cases found : interrupted entries cut with
  | none =>
    rw [found] at split
    rw [cutFile, split, append_nil]
    exact iff_of_true rfl trivial
  | some torn =>
    obtain ⟨entry, kept⟩ := torn
    obtain ⟨some, lost⟩ := interrupted_bounds found
    rw [found] at split
    dsimp only at split ⊢
    by_cases behind : entry.torn kept = 0
    · rw [if_pos behind]
      by_cases first : completeEntries entries cut = []
      · -- The file is emptied, and with it the preamble.
        rw [recoveredFile, first]
        cases preamble with
        | none => simp [behind, written]
        | some preamble =>
          have long := preamble.bytes_length
          have other : preamble.bytes ≠ [] := length_pos_iff.mp (by omega)
          simp [other]
      · rw [if_neg first]
        exact iff_of_true rfl ⟨behind, .inr first⟩
    · -- Something of the transaction is left in front of the torn command.
      rw [if_neg behind]
      refine iff_of_false (fun same => ?_) fun harmless => behind harmless.1
      have lengths := congrArg List.length same
      have less := entry.torn_lt some
      rw [cutFile, split, recoveredFile] at lengths
      simp only [length_take, length_append] at lengths
      omega

/-- With truncated files allowed, a cut file is recovered exactly if the cut is harmless. -/
theorem recovers_iff_harmless (truncated : server.aofLoadTruncated = true)
    (entries : List (Entry server)) (cut : Nat) :
    Recovers server preamble entries cut ↔ Harmless server preamble entries cut := by
  rw [← keptFile_eq_iff, Recovers, loadAppendOnlyFile_cut preamble truncated]
  constructor
  · -- What was left is what had to be left.
    intro recovers
    exact (Prod.mk.inj (Option.some.inj recovers.1)).2
  intro same
  refine ⟨by rw [same], fun more => ?_⟩
  -- The recovered file and what follows it are a file of complete entries.
  have load := loadAppendOnlyFile_complete preamble truncated (completeEntries entries cut ++ more)
  have file : preambleBytes server preamble ++ written (completeEntries entries cut ++ more) =
      recoveredFile server preamble entries cut ++ written more := by
    simp [written, recoveredFile]
  have data : effects (preambleData server preamble) (completeEntries entries cut ++ more) =
      effects (recoveredData server preamble entries cut) more := by
    rw [effects, foldl_append]
    rfl
  rwa [file, data] at load

end Recovery

section Examples

/-- A server whose dataset is the list of the commands called. -/
def recorder : Server (List (List Bytes)) where
  empty := []
  lookupCommand name :=
    if name = [77, 85, 76, 84, 73] then some .multi
    else if name = [69, 88, 69, 67] then some .exec
    else some .other
  proc data argv := data ++ [argv]
  rdbLoadRio _ := .loaded [] 5
  aofLoadTruncated := true

def multiWord : Command recorder .multi where
  argv := [.raw [77, 85, 76, 84, 73]]
  encodable := ⟨by decide, by decide, by decide⟩
  known := by decide

def execWord : Command recorder .exec where
  argv := [.raw [69, 88, 69, 67]]
  encodable := ⟨by decide, by decide, by decide⟩
  known := by decide

def incr (key : UInt8) : Command recorder .other where
  argv := [.raw [73, 78, 67, 82], .raw [key]]
  encodable := ⟨by simp, by simp, by simp [getDecodedObject]⟩
  known := by simp [getDecodedObject, recorder]

def signaturePreamble : Preamble recorder where
  bytes := signature
  data := []
  signed := rfl
  loads _ := rfl

def incrTransaction (key : UInt8) : Entry recorder :=
  .transaction multiWord [incr key] execWord

/-- A cut between two commands of a transaction is harmless once an entry is complete. -/
theorem cut_before_exec_recovers :
    recorder.aofLoadTruncated = true ∧
      Recovers recorder (some signaturePreamble) [.command (incr 97), incrTransaction 98] 57 := by
  refine ⟨rfl, (recovers_iff_harmless rfl _ _).mpr ?_⟩
  exact ⟨by decide +kernel, .inr (cons_ne_nil _ _)⟩

/-- A cut inside `EXEC` leaves `MULTI` in the file, and what is written later is lost with it; a
cut inside the first command takes the preamble out of the file. -/
theorem torn_entries_not_recovered :
    (¬ ∀ preamble entries cut, Recovers recorder preamble entries cut) ∧
      loadAppendOnlyFile recorder (cutFile recorder none [incrTransaction 97] 40) =
        some ([], multiWord.bytes ++ (incr 97).bytes) ∧
      loadAppendOnlyFile recorder
        (multiWord.bytes ++ (incr 97).bytes ++ written [.command (incr 98)]) = some ([], []) ∧
      loadAppendOnlyFile recorder
        (cutFile recorder (some signaturePreamble) [.command (incr 97)] 3) = some ([], []) := by
  have left : loadAppendOnlyFile recorder (cutFile recorder none [incrTransaction 97] 40) =
      some ([], multiWord.bytes ++ (incr 97).bytes) := by decide +kernel
  refine ⟨fun all => ?_, left, by decide +kernel, by decide +kernel⟩
  -- Nothing at all should have been left of that file.
  have wanted := (all none [incrTransaction 97] 40).1
  exact absurd wanted (by decide +kernel)

end Examples

end LearningNotes.Aof
