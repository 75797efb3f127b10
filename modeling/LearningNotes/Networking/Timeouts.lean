import Mathlib.Data.Finset.Max
import LearningNotes.Lib.ByteOrder
import LearningNotes.Lib.Maps

/-! The clients that are blocked until a time are exactly those in the table of timeouts. -/

namespace LearningNotes.Timeouts

open Lib

/-- `CLIENT_BLOCKED`, `CLIENT_IN_TO_TABLE` and `bpop.timeout` of a client. -/
structure Client where
  blocked : Bool := false
  inToTable : Bool := false
  timeout : BitVec 64 := 0

/-- The address of a client. -/
abbrev Pointer := BitVec 64

/-- A key of the radix tree, of `CLIENT_ST_KEYLEN` bytes. -/
abbrev Key := { bytes : Bytes // bytes.length = 16 }

/-- The timeout comes first, highest byte first, then the pointer as it is in memory. -/
def encodeTimeoutKey (timeout : BitVec 64) (p : Pointer) : Key :=
  ⟨bigEndian 8 timeout.toNat ++ littleEndian 8 p.toNat, by simp⟩

def decodeTimeoutKey (key : Key) : BitVec 64 × Pointer :=
  (BitVec.ofNat 64 (ofBigEndian (key.1.take 8)), BitVec.ofNat 64 (ofLittleEndian (key.1.drop 8)))

/-- The clients by their addresses, and `clients_timeout_table`. -/
structure Server where
  clients : Pointer → Option Client
  table : Finset Key

/-- What happens to a client, or to all at a clock. -/
inductive Step where
  | createClient (p : Pointer)
  | blockClient (p : Pointer) (timeout : BitVec 64)
  | unblockClient (p : Pointer)
  | freeClient (p : Pointer)
  | handleBlockedClientsTimeout (now : Fin (2 ^ 63))

theorem decode_encode (timeout : BitVec 64) (p : Pointer) :
    decodeTimeoutKey (encodeTimeoutKey timeout p) = (timeout, p) := by
  simp only [decodeTimeoutKey, encodeTimeoutKey]
  rw [List.take_left' (length_bigEndian _ _), List.drop_left' (length_bigEndian _ _),
    ofBigEndian_of_lt timeout.isLt, ofLittleEndian_of_lt p.isLt, BitVec.ofNat_toNat,
    BitVec.ofNat_toNat, BitVec.setWidth_eq, BitVec.setWidth_eq]

/-- Every key of that length is one of a timeout and an address. -/
theorem exists_key (key : Key) : ∃ timeout p, key = encodeTimeoutKey timeout p := by
  have front : (key.1.take 8).length = 8 := by simp [key.2]
  have back : (key.1.drop 8).length = 8 := by simp [key.2]
  have small : ofBigEndian (key.1.take 8) < 2 ^ 64 :=
    (ofLittleEndian_lt _).trans_eq (by rw [List.length_reverse, front]; norm_num)
  have small' : ofLittleEndian (key.1.drop 8) < 2 ^ 64 :=
    (ofLittleEndian_lt _).trans_eq (by rw [back]; norm_num)
  have first := bigEndian_ofBigEndian (key.1.take 8)
  have second := littleEndian_ofLittleEndian (key.1.drop 8)
  rw [front] at first
  rw [back] at second
  refine ⟨(decodeTimeoutKey key).1, (decodeTimeoutKey key).2, Subtype.ext ?_⟩
  simp only [decodeTimeoutKey, encodeTimeoutKey, BitVec.toNat_ofNat]
  rw [Nat.mod_eq_of_lt small', Nat.mod_eq_of_lt small, first, second, List.take_append_drop]

@[simp] theorem encodeTimeoutKey_inj {timeout timeout' : BitVec 64} {p p' : Pointer} :
    encodeTimeoutKey timeout p = encodeTimeoutKey timeout' p' ↔ timeout = timeout' ∧ p = p' := by
  refine ⟨fun same => ?_, fun ⟨time, address⟩ => by rw [time, address]⟩
  have decoded := congrArg decodeTimeoutKey same
  rw [decode_encode, decode_encode] at decoded
  exact Prod.mk.inj decoded

/-- The keys are ordered by their timeouts, and those of one timeout by the bytes of the pointers. -/
theorem encodeTimeoutKey_lt_iff {timeout timeout' : BitVec 64} {p p' : Pointer} :
    encodeTimeoutKey timeout p < encodeTimeoutKey timeout' p' ↔ timeout.toNat < timeout'.toNat ∨
      timeout = timeout' ∧ littleEndian 8 p.toNat < littleEndian 8 p'.toNat := by
  have same : bigEndian 8 timeout.toNat = bigEndian 8 timeout'.toNat ↔ timeout = timeout' := by
    refine ⟨fun same => ?_, fun equal => by rw [equal]⟩
    have equal := congrArg ofBigEndian same
    rw [ofBigEndian_of_lt timeout.isLt, ofBigEndian_of_lt timeout'.isLt] at equal
    exact BitVec.eq_of_toNat_eq equal
  rw [← Subtype.coe_lt_coe]
  exact (append_lt_append (by simp)).trans
    (or_congr (bigEndian_lt_bigEndian timeout.isLt timeout'.isLt) (and_congr_left' same))

def Awaits (c : Client) : Prop := c.blocked = true ∧ c.timeout ≠ 0

def Due (now : Nat) (c : Client) : Prop := Awaits c ∧ c.timeout.toNat < now

instance (now : Nat) (c : Client) : Decidable (Due now c) :=
  inferInstanceAs (Decidable ((_ ∧ _) ∧ _))

def Client.freed (c : Client) : Client := { c with blocked := false, inToTable := false }

/-- A client blocked until a time has one key, any other none, and the client knows. -/
def Settled (s : Server) (p : Pointer) : Prop :=
  (∀ timeout, encodeTimeoutKey timeout p ∈ s.table ↔
    ∃ c ∈ s.clients p, Awaits c ∧ timeout = c.timeout) ∧
  ∀ c ∈ s.clients p, (c.inToTable = true ↔ Awaits c)

def Exact (s : Server) : Prop := ∀ p, Settled s p

/-- Just the clients whose time has come are unblocked. -/
def Handled (now : Nat) (s : Server) (result : List Pointer × Server) : Prop :=
  Exact result.2 ∧ result.1.Nodup ∧ (∀ p, p ∈ result.1 ↔ ∃ c ∈ s.clients p, Due now c) ∧
    ∀ p, result.2.clients p = (s.clients p).map fun c => if Due now c then c.freed else c

variable {s : Server}

theorem Exact.exists_client (exactly : Exact s) {key : Key} (member : key ∈ s.table) :
    ∃ p c, s.clients p = some c ∧ Awaits c ∧ key = encodeTimeoutKey c.timeout p := by
  obtain ⟨timeout, p, rfl⟩ := exists_key key
  obtain ⟨c, found, awaits, rfl⟩ := ((exactly p).1 timeout).mp member
  exact ⟨p, c, found, awaits, rfl⟩

theorem handled_of_late {now : Nat} (exactly : Exact s)
    (late : ∀ timeout p, encodeTimeoutKey timeout p ∈ s.table → now ≤ timeout.toNat) :
    Handled now s ([], s) := by
  have early : ∀ p, ∀ c ∈ s.clients p, ¬ Due now c := fun p c found due =>
    absurd due.2 (Nat.not_lt.mpr (late _ p (((exactly p).1 _).mpr ⟨c, found, due.1, rfl⟩)))
  refine ⟨exactly, .nil, fun p => ?_, fun p => ?_⟩
  · exact iff_of_false (by simp) fun ⟨c, found, due⟩ => early p c found due
  · cases found : s.clients p with
    | none => rfl
    | some c => rw [Option.map_some, if_neg (early p c found)]

def onClient (s : Server) (p : Pointer) (act : Client → Server) : Server := (s.clients p).elim s act

theorem Exact.onClient {p : Pointer} (exactly : Exact s) (act : Client → Server)
    (kept : ∀ c, s.clients p = some c → Exact (act c)) : Exact (onClient s p act) := by
  rw [Timeouts.onClient]
  cases found : s.clients p with
  | none => exact exactly
  | some c => exact kept c found

section Functions

variable (table : Finset Key) (p : Pointer) (c : Client)

def addClientToTimeoutTable : Finset Key × Client :=
  if c.timeout = 0 then (table, c)
  else if encodeTimeoutKey c.timeout p ∈ table then (table, c)
  else (insert (encodeTimeoutKey c.timeout p) table, { c with inToTable := true })

def removeClientFromTimeoutTable : Finset Key × Client :=
  if c.inToTable then
    (table.erase (encodeTimeoutKey c.timeout p), { c with inToTable := false })
  else (table, c)

def blockClient : Finset Key × Client :=
  addClientToTimeoutTable table p { c with blocked := true }

def unblockClient : Finset Key × Client :=
  removeClientFromTimeoutTable table p { c with blocked := false }

/-- Also whether the client got the reply for a timeout. -/
def checkBlockedClientTimeout (now : Nat) : Bool × Finset Key × Client :=
  if c.blocked ∧ c.timeout ≠ 0 ∧ c.timeout.toInt < now then (true, unblockClient table p c)
  else (false, table, c)

end Functions

/-- The clients that get the reply; none if a freed client is read. -/
def timeoutLoop (now : Nat) : Nat → Server → Option (List Pointer × Server)
  | 0, s => some ([], s)
  | rounds + 1, s =>
    if nonempty : s.table.Nonempty then
      let key := s.table.min' nonempty
      let (timeout, p) := decodeTimeoutKey key
      if timeout.toNat ≥ now then some ([], s)
      else do
        let c ← s.clients p
        let (timedOut, table, c) :=
          checkBlockedClientTimeout s.table p { c with inToTable := false } now
        let (others, s) ← timeoutLoop now rounds ⟨insertKey s.clients p c, table.erase key⟩
        return (if timedOut then p :: others else others, s)
    else some ([], s)

-- Every round removes a key.
def handleBlockedClientsTimeout (s : Server) (now : Nat) : Option (List Pointer × Server) :=
  timeoutLoop now s.table.card s

/-- A blocked client runs no command, and only a blocked one is unblocked. -/
def step (s : Server) : Step → Option (Server)
  | .createClient p =>
    some (if s.clients p = none then { s with clients := insertKey s.clients p {} } else s)
  | .blockClient p timeout => some <| onClient s p fun c =>
    if c.blocked then s
    else
      let (table, c) := blockClient s.table p { c with timeout := timeout }
      ⟨insertKey s.clients p c, table⟩
  | .unblockClient p => some <| onClient s p fun c =>
    if c.blocked then
      let (table, c) := unblockClient s.table p c
      ⟨insertKey s.clients p c, table⟩
    else s
  | .freeClient p => some <| onClient s p fun c =>
    ⟨eraseKey s.clients p, if c.blocked then (unblockClient s.table p c).1 else s.table⟩
  | .handleBlockedClientsTimeout now => (handleBlockedClientsTimeout s now).map Prod.snd

def start : Server := ⟨fun _ => none, ∅⟩

variable {t : Server} {p : Pointer} {c : Client}

theorem Exact.update (exactly : Exact s) (own : Settled t p)
    (others : ∀ q ≠ p, t.clients q = s.clients q ∧
      ∀ timeout, encodeTimeoutKey timeout q ∈ t.table ↔ encodeTimeoutKey timeout q ∈ s.table) : Exact t := by
  intro q
  by_cases same : q = p
  · exact same ▸ own
  · obtain ⟨clients, table⟩ := others q same
    simpa only [Settled, clients, table] using exactly q

theorem Exact.block (exactly : Exact s) (found : s.clients p = some c) (free : c.blocked = false)
    (timeout : BitVec 64) :
    Exact ⟨insertKey s.clients p (blockClient s.table p { c with timeout := timeout }).2,
      (blockClient s.table p { c with timeout := timeout }).1⟩ := by
  obtain ⟨keys, flag⟩ := exactly p
  have absent : ∀ timeout, encodeTimeoutKey timeout p ∉ s.table := by simp [keys, found, Awaits, free]
  have unset : c.inToTable = false := by simpa [found, Awaits, free] using flag
  rw [blockClient, addClientToTimeoutTable, if_neg (absent _)]
  refine exactly.update (p := p) ?_ fun q other => ⟨if_neg other, ?_⟩
  · by_cases zero : timeout = 0#64
    · simp [Settled, zero, insertKey, Awaits, absent, unset]
    · simp [Settled, zero, insertKey, Awaits, absent]
  · split
    · simp
    · simp [other]

theorem Exact.release (exactly : Exact s)
    (table : ∀ q timeout, encodeTimeoutKey timeout q ∈ t.table ↔ q ≠ p ∧ encodeTimeoutKey timeout q ∈ s.table)
    (own : ∀ c ∈ t.clients p, c.blocked = false ∧ c.inToTable = false)
    (others : ∀ q ≠ p, t.clients q = s.clients q) : Exact t := by
  refine exactly.update (p := p) ⟨fun timeout => ?_, fun c found => ?_⟩ fun q other =>
    ⟨others q other, fun timeout => by rw [table, and_iff_right other]⟩
  · rw [table]
    refine iff_of_false (fun member => member.1 rfl) fun ⟨c, found, awaits, _⟩ => ?_
    exact absurd awaits.1 (by simp [(own c found).1])
  · simp [own c found, Awaits]

theorem mem_erase_key (settled : Settled s p) (found : s.clients p = some c) (q : Pointer)
    (timeout : BitVec 64) : encodeTimeoutKey timeout q ∈ s.table.erase (encodeTimeoutKey c.timeout p) ↔
      q ≠ p ∧ encodeTimeoutKey timeout q ∈ s.table := by
  by_cases same : q = p
  · have keys := settled.1 timeout
    rw [found] at keys
    simp +contextual [same, keys]
  · simp [same]

theorem unblockClient_eq (settled : Settled s p) (found : s.clients p = some c) :
    (∀ q timeout, encodeTimeoutKey timeout q ∈ (unblockClient s.table p c).1 ↔
      q ≠ p ∧ encodeTimeoutKey timeout q ∈ s.table) ∧ (unblockClient s.table p c).2 = c.freed := by
  have flag := settled.2 c found
  rw [unblockClient, removeClientFromTimeoutTable]
  by_cases inside : c.inToTable = true
  · rw [if_pos inside]
    exact ⟨@mem_erase_key s p c settled found, rfl⟩
  · rw [if_neg inside]
    refine ⟨fun q timeout => ?_, by simp [inside, Client.freed]⟩
    by_cases same : q = p
    · have keys := settled.1 timeout
      rw [found] at keys
      simp [same, keys, ← flag, inside]
    · simp [same]

def released (s : Server) (p : Pointer) (c : Client) : Server :=
  ⟨insertKey s.clients p c.freed, s.table.erase (encodeTimeoutKey c.timeout p)⟩

theorem Handled.cons {now : Nat} {result : List Pointer × Server} (found : s.clients p = some c)
    (due : Due now c) (rest : Handled now (released s p c) result) :
    Handled now s (p :: result.1, result.2) := by
  obtain ⟨exactly, distinct, listed, clients⟩ := rest
  have past : ¬ Due now c.freed := fun due => by cases due.1.1
  refine ⟨exactly, List.nodup_cons.mpr ⟨?_, distinct⟩, fun q => ?_, fun q => ?_⟩
  · simp [listed, released, insertKey, past]
  · by_cases same : q = p
    · simp [same, found, due]
    · simp [same, listed, released, insertKey]
  · by_cases same : q = p
    · simp [clients, same, found, released, insertKey, due, past]
    · simp [clients, same, released, insertKey]

theorem timeoutLoop_due {now rounds : Nat} (small : now < 2 ^ 63) (nonempty : s.table.Nonempty)
    (first : s.table.min' nonempty = encodeTimeoutKey c.timeout p) (found : s.clients p = some c)
    (due : Due now c) : timeoutLoop now (rounds + 1) s =
      (timeoutLoop now rounds (released s p c)).map fun result => (p :: result.1, result.2) := by
  obtain ⟨⟨blocked, nonzero⟩, before⟩ := due
  -- Below the clock, the timeout is the same number with and without a sign.
  have signed : c.timeout.toInt < now := by
    rw [BitVec.toInt_eq_toNat_of_lt (by omega)]
    omega
  rw [timeoutLoop, dif_pos nonempty, first]
  dsimp only
  rw [decode_encode, if_neg (Nat.not_le.mpr before), found]
  dsimp only [Option.bind_eq_bind, Option.bind_some]
  rw [checkBlockedClientTimeout, if_pos ⟨blocked, nonzero, signed⟩]
  change (timeoutLoop now rounds (released s p c)).bind _ = _
  cases timeoutLoop now rounds (released s p c) with
  | none => rfl
  | some result => rfl

theorem timeoutLoop_handled {now : Nat} (small : now < 2 ^ 63) (rounds : Nat) (s : Server)
    (enough : s.table.card ≤ rounds) (exactly : Exact s) :
    ∃ result, timeoutLoop now rounds s = some result ∧ Handled now s result := by
  induction rounds generalizing s with
  | zero =>
    have empty := Finset.card_eq_zero.mp (Nat.le_zero.mp enough)
    exact ⟨_, rfl, handled_of_late exactly (by simp [empty])⟩
  | succ rounds ih =>
    by_cases nonempty : s.table.Nonempty
    · have member := s.table.min'_mem nonempty
      obtain ⟨p, c, found, awaits, first⟩ := exactly.exists_client member
      by_cases late : now ≤ c.timeout.toNat
      · refine ⟨([], s), ?_, handled_of_late exactly fun other q inside => ?_⟩
        · rw [timeoutLoop, dif_pos nonempty, first]
          dsimp only
          rw [decode_encode, if_pos late]
        · -- The first key has the least timeout.
          have least := s.table.min'_le _ inside
          rw [first, ← not_lt, encodeTimeoutKey_lt_iff, not_or] at least
          omega
      · have due : Due now c := ⟨awaits, Nat.lt_of_not_le late⟩
        have next := exactly.release (t := released s p c) (mem_erase_key (exactly p) found)
          (by simp [released, insertKey, Client.freed]) fun q other => if_neg other
        have fewer : (released s p c).table.card ≤ rounds := by
          rw [released, ← first, Finset.card_erase_of_mem member]
          omega
        obtain ⟨result, run, handled⟩ := ih _ fewer next
        refine ⟨(p :: result.1, result.2), ?_, .cons found due handled⟩
        rw [timeoutLoop_due small nonempty first found due, run, Option.map_some]
    · have empty := Finset.not_nonempty_iff_eq_empty.mp nonempty
      rw [timeoutLoop, dif_neg nonempty]
      exact ⟨_, rfl, handled_of_late exactly (by simp [empty])⟩

theorem step_exact (exactly : Exact s) (event : Step) : ∃ t, step s event = some t ∧ Exact t := by
  cases event with
  | createClient p =>
    refine ⟨_, rfl, ?_⟩
    split
    · rename_i absent
      have keys := (exactly p).1
      refine exactly.update (p := p) ?_ fun q other => ⟨if_neg other, fun _ => .rfl⟩
      simp [Settled, insertKey, keys, absent, Awaits]
    · exact exactly
  | blockClient p timeout =>
    refine ⟨_, rfl, exactly.onClient _ fun c found => ?_⟩
    split
    · exact exactly
    · rename_i free
      exact exactly.block found (Bool.eq_false_iff.mpr free) timeout
  | unblockClient p =>
    refine ⟨_, rfl, exactly.onClient _ fun c found => ?_⟩
    obtain ⟨keys, left⟩ := unblockClient_eq (exactly p) found
    split
    · refine exactly.release keys ?_ fun q other => if_neg other
      simp [insertKey, left, Client.freed]
    · exact exactly
  | freeClient p =>
    refine ⟨_, rfl, exactly.onClient _ fun c found => ?_⟩
    refine exactly.release (p := p) (fun q timeout => ?_) (by simp [eraseKey]) fun q other =>
      if_neg other
    split
    · exact (unblockClient_eq (exactly p) found).1 q timeout
    · rename_i free
      have keys := (exactly p).1 timeout
      by_cases same : q = p
      · simp [same, keys, found, Awaits, free]
      · simp [same]
  | handleBlockedClientsTimeout now =>
    obtain ⟨result, run, handled⟩ := timeoutLoop_handled now.isLt _ s (Nat.le_refl _) exactly
    exact ⟨result.2, by rw [step, handleBlockedClientsTimeout, run]; rfl, handled.1⟩

theorem run_exact (steps : List (Step)) {s : Server} (exactly : Exact s) :
    ∃ t, steps.foldlM step s = some t ∧ Exact t := by
  induction steps generalizing s with
  | nil => exact ⟨_, rfl, exactly⟩
  | cons event steps ih =>
    obtain ⟨t, done, exactly⟩ := step_exact exactly event
    rw [List.foldlM_cons, done]
    exact ih exactly

/-- After every run, the table has exactly one key for each client that is blocked until a time,
and whenever the timeouts are handled, exactly the clients whose time has come are unblocked. -/
theorem timeout_table_exact (steps : List (Step)) :
    ∃ s, steps.foldlM step start = some s ∧
      (∀ timeout p, encodeTimeoutKey timeout p ∈ s.table ↔
        ∃ c ∈ s.clients p, Awaits c ∧ timeout = c.timeout) ∧
      ∀ now : Fin (2 ^ 63), ∃ result, handleBlockedClientsTimeout s now = some result ∧
        Handled now s result := by
  obtain ⟨s, done, exactly⟩ := @run_exact steps start (by simp [Exact, Settled, start])
  exact ⟨s, done, fun timeout p => (exactly p).1 timeout,
    fun now => timeoutLoop_handled now.isLt _ s (Nat.le_refl _) exactly⟩

end LearningNotes.Timeouts
