import LearningNotes.Dict.Refinement
import LearningNotes.Lib.ReverseOrder

/-! The stateless cursor of `dictScan`, and why no key that stays is missed by it. -/

namespace LearningNotes.Dict

open Lib List

variable {K V : Type}

/-- Swap neighbouring groups of `s` bits; the mask marks the lower ones. -/
def swapGroups (s : Nat) (mask v : BitVec 64) : BitVec 64 :=
  ((v >>> s) &&& mask) ||| ((v <<< s) &&& ~~~mask)

def revLoop : Nat → Nat → BitVec 64 → BitVec 64 → BitVec 64
  | 0, _, _, v => v
  | fuel + 1, s, mask, v =>
    let s := s >>> 1
    if s = 0 then v
    else
      let mask := mask ^^^ (mask <<< s)
      revLoop fuel s mask (swapGroups s mask v)

def rev (v : BitVec 64) : BitVec 64 := revLoop 7 64 (BitVec.allOnes 64) v

def advance (mask v : BitVec 64) : BitVec 64 := rev (rev (v ||| ~~~mask) + 1)

/-- The loop over the buckets of the larger table for one of the smaller. -/
def scanLarger (t1 : Dictht K V) (m0 : BitVec 64) :
    Nat → BitVec 64 → List (Entry K V) → Except Fault (List (Entry K V) × BitVec 64)
  | 0, _, _ => .error .noProgress
  | fuel + 1, v, emitted => do
    let chain ← t1.bucket (t1.index v)
    let v := advance t1.sizemask v
    if v &&& (m0 ^^^ t1.sizemask) ≠ 0 then scanLarger t1 m0 fuel v (emitted ++ chain)
    else return (emitted ++ chain, v)

def dictScan (d : Dict K V) (v : BitVec 64) :
    Except Fault (List (Entry K V) × BitVec 64) :=
  if d.dictSize = 0 then .ok ([], 0)
  else if !d.isRehashing then do
    let chain ← d.ht0.bucket (d.ht0.index v)
    return (chain, advance d.ht0.sizemask v)
  else do
    let (t0, t1) := if d.ht1.size < d.ht0.size then (d.ht1, d.ht0) else (d.ht0, d.ht1)
    let chain ← t0.bucket (t0.index v)
    -- No cursor of the smaller table has more expansions than the larger one has buckets.
    scanLarger t1 t0.sizemask t1.size v chain

theorem getLsbD_swapGroups (bit : Nat) (few : bit < 6) {mask : BitVec 64}
    (marks : ∀ i : Fin 64, mask.getLsbD i = !i.val.testBit bit) (v : BitVec 64) {i : Nat}
    (inside : i < 64) :
    (swapGroups (2 ^ bit) mask v).getLsbD i = v.getLsbD (i ^^^ 2 ^ bit) := by
  have flipped : ∀ (bit : Fin 6) (i : Fin 64), (i.val.testBit bit = true → 2 ^ bit.val ≤ i.val) ∧
      i.val ^^^ 2 ^ bit.val =
        if i.val.testBit bit then i.val - 2 ^ bit.val else i.val + 2 ^ bit.val := by decide
  obtain ⟨reached, target⟩ := flipped ⟨bit, few⟩ ⟨i, inside⟩
  have mark := marks ⟨i, inside⟩
  rw [swapGroups, BitVec.getLsbD_or, BitVec.getLsbD_and, BitVec.getLsbD_and, BitVec.getLsbD_not,
    BitVec.getLsbD_shiftLeft, mark, target]
  cases high : i.testBit bit with
  | true => simp [inside, Nat.not_lt.mpr (reached high)]
  | false => simp [Nat.add_comm]

theorem rev_eq_reverse (v : BitVec 64) : rev v = v.reverse := by
  -- The loop unrolls to six swaps with the alternating masks.
  have unrolled : rev v =
      swapGroups (2 ^ 0) 0x5555555555555555#64 (swapGroups (2 ^ 1) 0x3333333333333333#64
        (swapGroups (2 ^ 2) 0x0f0f0f0f0f0f0f0f#64 (swapGroups (2 ^ 3) 0x00ff00ff00ff00ff#64
          (swapGroups (2 ^ 4) 0x0000ffff0000ffff#64
            (swapGroups (2 ^ 5) 0x00000000ffffffff#64 v))))) := rfl
  -- Flipping all six bits of a position counts it from the other end.
  have opposite : ∀ i : Fin 64,
      (((((i.val ^^^ 2 ^ 0) ^^^ 2 ^ 1) ^^^ 2 ^ 2) ^^^ 2 ^ 3) ^^^ 2 ^ 4) ^^^ 2 ^ 5 =
        63 - i.val := by decide
  have word : ∀ {i : Nat} (bit : Nat), bit < 6 → i < 64 → i ^^^ 2 ^ bit < 64 := by
    intro i bit few inside
    exact Nat.xor_lt_two_pow (n := 6) inside (Nat.pow_lt_pow_right (by decide : 1 < 2) few)
  apply BitVec.eq_of_getLsbD_eq
  intro i inside
  have b0 := word 0 (by decide) inside
  have b1 := word 1 (by decide) b0
  have b2 := word 2 (by decide) b1
  have b3 := word 3 (by decide) b2
  have b4 := word 4 (by decide) b3
  rw [unrolled, getLsbD_swapGroups 0 (by decide) (by decide) _ inside,
    getLsbD_swapGroups 1 (by decide) (by decide) _ b0,
    getLsbD_swapGroups 2 (by decide) (by decide) _ b1,
    getLsbD_swapGroups 3 (by decide) (by decide) _ b2,
    getLsbD_swapGroups 4 (by decide) (by decide) _ b3,
    getLsbD_swapGroups 5 (by decide) (by decide) _ b4,
    BitVec.getLsbD_reverse, BitVec.getMsbD, decide_eq_true inside, Bool.true_and]
  exact congrArg v.getLsbD (opposite ⟨i, inside⟩)

theorem advance_eq (mask v : BitVec 64) : advance mask v = backwardsSucc v mask := by
  rw [advance, rev_eq_reverse, rev_eq_reverse, backwardsSucc]
  rfl

section Tables

variable {type : DictType K} {ht : Dictht K V}

section

variable (sound : ht.Sound type)
include sound

theorem Dictht.Sound.sizemask_eq {bits : Nat} (size : ht.size = 2 ^ bits) :
    ht.sizemask = lowMask 64 bits := by
  rw [sound.mask, size, lowMask]

theorem Dictht.Sound.backwards_advance {bits : Nat} (word : bits < 64)
    (size : ht.size = 2 ^ bits) (v : BitVec 64) :
    backwards (advance ht.sizemask v) =
      blockEnd (2 ^ (64 - bits)) (backwards v) % 2 ^ 64 := by
  rw [advance_eq, sound.sizemask_eq size, backwards_backwardsSucc v (by omega)]

theorem Dictht.Sound.mem_under_cursor {bits : Nat} (word : bits < 64)
    (size : ht.size = 2 ^ bits) {v : BitVec 64} {chain : List (Entry K V)}
    (present : ht.table[ht.index v]? = some chain) {he : Entry K V} (member : he ∈ ht.entries)
    (block : backwards (type.hashFunction he.key) / 2 ^ (64 - bits) =
      backwards v / 2 ^ (64 - bits)) : he ∈ chain := by
  have exists_ : ht.size ≠ 0 := by
    rw [size]
    exact Nat.ne_zero_of_lt (Nat.two_pow_pos bits)
  have same : ht.index (type.hashFunction he.key) = ht.index v := by
    rw [sound.index_eq exists_, sound.index_eq exists_, size]
    exact (mod_eq_iff_backwards_div (by omega)).mpr block
  exact sound.mem_selected member (same ▸ present)

/-- The hash of an entry, in the order of the cursor. -/
def position (type : DictType K) (he : Entry K V) : Nat := backwards (type.hashFunction he.key)

/-- The entries between two cursors, where zero also ends the range. -/
def Between (type : DictType K) (v v' : BitVec 64) (he : Entry K V) : Prop :=
  backwards v ≤ position type he ∧ (v' = 0 ∨ position type he < backwards v')

/-- The loop emits the larger table's entries up to the end of the smaller block. -/
theorem scanLarger_meets {small large : Nat} (order : small ≤ large)
    (word : large < 64) (size : ht.size = 2 ^ large) (fuel v emitted)
    (bound : blockEnd (2 ^ (64 - small)) (backwards v) <
      blockEnd (2 ^ (64 - large)) (backwards v) + fuel * 2 ^ (64 - large)) :
    Meets (scanLarger ht (lowMask 64 small) fuel v emitted) (fun _ => False) fun result =>
      (∀ he ∈ emitted, he ∈ result.1) ∧
        backwards result.2 = blockEnd (2 ^ (64 - small)) (backwards v) % 2 ^ 64 ∧
        ∀ he ∈ ht.entries, backwards v ≤ position type he →
          position type he < blockEnd (2 ^ (64 - small)) (backwards v) → he ∈ result.1 := by
  have exists_ : ht.size ≠ 0 := by
    rw [size]
    exact Nat.ne_zero_of_lt (Nat.two_pow_pos large)
  have narrow := Nat.two_pow_pos (64 - large)
  have wide := Nat.two_pow_pos (64 - small)
  have divides : 2 ^ (64 - large) ∣ 2 ^ (64 - small) := Nat.pow_dvd_pow 2 (by omega)
  induction fuel generalizing v emitted with
  | zero =>
    -- The small block cannot end before the large one.
    have : blockEnd (2 ^ (64 - large)) (backwards v) ≤ blockEnd (2 ^ (64 - small)) (backwards v) :=
      blockEnd_le_blockEnd narrow wide divides
    omega
  | succ fuel ih =>
    obtain ⟨chain, present⟩ := sound.selected exists_ v
    have mask := sound.sizemask_eq size
    have moved := sound.backwards_advance word size v
    have fits : blockEnd (2 ^ (64 - large)) (backwards v) ≤
        blockEnd (2 ^ (64 - small)) (backwards v) := blockEnd_le_blockEnd narrow wide divides
    have inRange : blockEnd (2 ^ (64 - small)) (backwards v) ≤ 2 ^ 64 :=
      blockEnd_le_two_pow (by omega) (backwards_lt v)
    have ahead : backwards v < blockEnd (2 ^ (64 - large)) (backwards v) := lt_blockEnd narrow
    -- The emitted bucket covers the rest of the small block around the cursor.
    have covered : ∀ he ∈ ht.entries, backwards v ≤ position type he →
        position type he < blockEnd (2 ^ (64 - large)) (backwards v) → he ∈ chain := by
      intro he member above below
      exact sound.mem_under_cursor word size present member (div_eq_of_lt_blockEnd above below)
    have aligned : backwards (advance ht.sizemask v) % 2 ^ (64 - large) = 0 := by
      rw [moved, Nat.mod_mod_of_dvd _ (Nat.pow_dvd_pow 2 (by omega))]
      exact blockEnd_mod _ _
    have stops := and_xor_lowMask_eq_zero (x := advance ht.sizemask v) order (by omega) aligned
    simp only [scanLarger, bucket_eq_ok present, Bind.bind, Except.bind]
    rw [← mask] at stops
    by_cases last : blockEnd (2 ^ (64 - large)) (backwards v) =
        blockEnd (2 ^ (64 - small)) (backwards v)
    · -- The small block ends here, so the bits between the masks are clear.
      have clear : backwards (advance ht.sizemask v) % 2 ^ (64 - small) = 0 := by
        rw [moved, Nat.mod_mod_of_dvd _ (Nat.pow_dvd_pow 2 (by omega)), last]
        exact blockEnd_mod _ _
      rw [if_neg (by simpa using stops.mpr clear)]
      refine ⟨fun he member => mem_append_left _ member, by rw [moved, last], ?_⟩
      intro he member above below
      exact mem_append_right _ (covered he member above (by omega))
    -- Otherwise the cursor stands strictly inside the small block and the loop goes on.
    have inside : blockEnd (2 ^ (64 - large)) (backwards v) <
        blockEnd (2 ^ (64 - small)) (backwards v) := by omega
    have stands : backwards (advance ht.sizemask v) =
        blockEnd (2 ^ (64 - large)) (backwards v) := by
      rw [moved]
      exact Nat.mod_eq_of_lt (by omega)
    have busy : backwards (advance ht.sizemask v) % 2 ^ (64 - small) ≠ 0 := by
      rw [stands]
      exact mod_ne_zero_of_lt_blockEnd ahead inside
    have sameEnd : blockEnd (2 ^ (64 - small)) (backwards (advance ht.sizemask v)) =
        blockEnd (2 ^ (64 - small)) (backwards v) := by
      rw [stands]
      exact blockEnd_eq_of_lt (Nat.le_of_lt ahead) inside
    have going : advance ht.sizemask v &&& (lowMask 64 small ^^^ ht.sizemask) ≠ 0 :=
      fun zero => busy (stops.mp zero)
    rw [if_pos going]
    refine (ih (advance ht.sizemask v) (emitted ++ chain) ?_).mono ?_
    · have next : blockEnd (2 ^ (64 - large)) (backwards (advance ht.sizemask v)) =
          blockEnd (2 ^ (64 - large)) (backwards v) + 2 ^ (64 - large) := by
        rw [stands, blockEnd, blockEnd, Nat.mul_div_cancel _ narrow, Nat.add_mul _ 1, Nat.one_mul]
      rw [Nat.add_mul, Nat.one_mul] at bound
      omega
    · rintro ⟨out, v'⟩ ⟨kept, cursor, emits⟩
      refine ⟨fun he member => kept he (mem_append_left _ member), by rw [cursor, sameEnd], ?_⟩
      intro he member above below
      by_cases here : position type he < blockEnd (2 ^ (64 - large)) (backwards v)
      · exact kept he (mem_append_right _ (covered he member above here))
      · exact emits he member (by omega) (by omega)

end

end Tables

/-- A cursor at the end of a block has moved on, or has come round to zero. -/
theorem cursor_moves {bits : Nat} {v v' : BitVec 64}
    (moved : backwards v' = blockEnd (2 ^ (64 - bits)) (backwards v) % 2 ^ 64) :
    v' = 0 ∧ blockEnd (2 ^ (64 - bits)) (backwards v) = 2 ^ 64 ∨
      v' ≠ 0 ∧ backwards v' = blockEnd (2 ^ (64 - bits)) (backwards v) := by
  have inRange : blockEnd (2 ^ (64 - bits)) (backwards v) ≤ 2 ^ 64 :=
    blockEnd_le_two_pow (by omega) (backwards_lt v)
  have ahead : backwards v < blockEnd (2 ^ (64 - bits)) (backwards v) :=
    lt_blockEnd (Nat.two_pow_pos _)
  by_cases whole : blockEnd (2 ^ (64 - bits)) (backwards v) = 2 ^ 64
  · rw [whole, Nat.mod_self] at moved
    exact .inl ⟨backwards_eq_zero.mp moved, whole⟩
  · rw [Nat.mod_eq_of_lt (by omega)] at moved
    exact .inr ⟨fun zero => by rw [backwards_eq_zero.mpr zero] at moved; omega, moved⟩

/-- A call passes on what lies between the two cursors, and the cursor never stands still. -/
theorem dictScan_meets {type : DictType K} {d : Dict K V} (sound : d.Sound type) (v : BitVec 64) :
    Meets (dictScan d v) (fun _ => False) fun result =>
      (result.2 = 0 ∨ backwards v < backwards result.2) ∧
        ∀ he ∈ d.entries, Between type v result.2 he → he ∈ result.1 := by
  unfold dictScan
  split
  · rename_i empty
    rw [sound.entries_nil empty]
    simp
  rename_i occupied
  have exists0 := sound.exists_first occupied
  obtain ⟨bits0, word0, size0⟩ := sound.first.power.resolve_left exists0
  have moves : ∀ {bits} {v' : BitVec 64},
      backwards v' = blockEnd (2 ^ (64 - bits)) (backwards v) % 2 ^ 64 →
      v' = 0 ∨ backwards v < backwards v' := by
    intro bits v' moved
    refine (cursor_moves moved).imp And.left fun stands => ?_
    rw [stands.2]
    exact lt_blockEnd (Nat.two_pow_pos _)
  have reach : ∀ {bits} {v' : BitVec 64} {he : Entry K V},
      backwards v' = blockEnd (2 ^ (64 - bits)) (backwards v) % 2 ^ 64 → Between type v v' he →
      position type he < blockEnd (2 ^ (64 - bits)) (backwards v) := by
    intro bits v' he moved between
    rcases cursor_moves moved with ⟨_, whole⟩ | ⟨running, stands⟩
    · exact whole ▸ backwards_lt _
    · exact stands ▸ between.2.resolve_left running
  split
  · rename_i stopped
    have stopped : d.isRehashing = false := by simpa using stopped
    obtain ⟨chain, present⟩ := sound.first.selected exists0 v
    have moved := sound.first.backwards_advance word0 size0 v
    simp only [bucket_eq_ok present]
    refine ⟨moves moved, fun he member between => ?_⟩
    rw [sound.entries_idle stopped] at member
    have below := reach moved between
    exact sound.first.mem_under_cursor word0 size0 present member
      (div_eq_of_lt_blockEnd between.1 below)
  rename_i running
  have running : d.isRehashing = true := by simpa using running
  have exists1 := sound.exists_second running
  obtain ⟨bits1, word1, size1⟩ := sound.second.power.resolve_left exists1
  -- Both orders of the two tables are the same argument.
  have scanned : ∀ (t0 t1 : Dictht K V) (small large : Nat), t0.Sound type → t1.Sound type →
      t0.size = 2 ^ small → t1.size = 2 ^ large → small ≤ large → large < 64 →
      Meets (do
        let chain ← t0.bucket (t0.index v)
        scanLarger t1 t0.sizemask t1.size v chain) (fun _ => False) fun result =>
          (result.2 = 0 ∨ backwards v < backwards result.2) ∧
            ∀ he, he ∈ t0.entries ∨ he ∈ t1.entries → Between type v result.2 he →
              he ∈ result.1 := by
    intro t0 t1 small large sound0 sound1 size0 size1 order word
    obtain ⟨chain, present⟩ := sound0.selected
      (by rw [size0]; exact Nat.ne_zero_of_lt (Nat.two_pow_pos small)) v
    simp only [bucket_eq_ok present]
    rw [sound0.sizemask_eq size0]
    have enough : blockEnd (2 ^ (64 - small)) (backwards v) <
        blockEnd (2 ^ (64 - large)) (backwards v) + t1.size * 2 ^ (64 - large) := by
      have inRange : blockEnd (2 ^ (64 - small)) (backwards v) ≤ 2 ^ 64 :=
        blockEnd_le_two_pow (by omega) (backwards_lt v)
      have start : backwards v < blockEnd (2 ^ (64 - large)) (backwards v) :=
        lt_blockEnd (Nat.two_pow_pos _)
      rw [size1, ← Nat.pow_add, Nat.add_sub_cancel' (by omega : large ≤ 64)]
      omega
    refine (scanLarger_meets sound1 order word size1 t1.size v chain enough).mono ?_
    rintro ⟨out, v'⟩ ⟨kept, cursor, emits⟩
    refine ⟨moves cursor, fun he member between => ?_⟩
    have below := reach cursor between
    rcases member with member | member
    · exact kept he (sound0.mem_under_cursor (by omega) size0 present member
        (div_eq_of_lt_blockEnd between.1 below))
    · exact emits he member between.1 below
  by_cases shrinking : d.ht1.size < d.ht0.size
  · have order : bits1 ≤ bits0 := by
      rw [size0, size1] at shrinking
      exact Nat.le_of_lt ((Nat.pow_lt_pow_iff_right (by decide)).mp shrinking)
    simp only [if_pos shrinking]
    refine (scanned d.ht1 d.ht0 bits1 bits0 sound.second sound.first size1 size0 order
      word0).mono ?_
    exact fun result scanned =>
      ⟨scanned.1, fun he member => scanned.2 he (mem_append.mp member).symm⟩
  · have order : bits0 ≤ bits1 := by
      rw [size0, size1] at shrinking
      exact (Nat.pow_le_pow_iff_right (by decide)).mp (Nat.not_lt.mp shrinking)
    simp only [if_neg shrinking]
    refine (scanned d.ht0 d.ht1 bits0 bits1 sound.first sound.second size0 size1 order
      word1).mono ?_
    exact fun result scanned => ⟨scanned.1, fun he member => scanned.2 he (mem_append.mp member)⟩

inductive ScanEvent (K V : Type) where
  /-- The next `dictScan` call, with the cursor returned last. -/
  | scan
  | call (call : Call K V)

def ScanEvent.isScan : ScanEvent K V → Bool
  | scan => true
  | call _ => false

/-- A dict being scanned: the next cursor, and all that was passed to the callback. -/
structure ScanSession (K V : Type) where
  server : Server K V
  cursor : BitVec 64
  emitted : List (Entry K V)

section Sessions

variable [DecidableEq K]

def scanStep (type : DictType K) (session : ScanSession K V) :
    ScanEvent K V → Except Fault (ScanSession K V)
  | .scan => do
    let (entries, v) ← dictScan session.server.dict session.cursor
    return { session with cursor := v, emitted := session.emitted ++ entries }
  | .call call => do
    let (_, server) ← serve type session.server call
    return { session with server := server }

def scanRun (type : DictType K) (session : ScanSession K V) :
    List (ScanEvent K V) → Except Fault (List (ScanSession K V) × ScanSession K V)
  | [] => .ok ([session], session)
  | event :: events => do
    let next ← scanStep type session event
    let (trace, last) ← scanRun type next events
    return (session :: trace, last)

/-- Some entry under the key has been emitted. -/
def Emitted (session : ScanSession K V) (key : K) : Prop := ∃ he ∈ session.emitted, he.key = key

/-- The key has been emitted if the cursor has gone past its hash. -/
def Seen (type : DictType K) (session : ScanSession K V) (key : K) : Prop :=
  backwards (type.hashFunction key) < backwards session.cursor ∨ session.cursor = 0 →
    Emitted session key

theorem scanStep_scan_meets {type : DictType K} {session : ScanSession K V}
    (sound : session.server.dict.Sound type) :
    Meets (scanStep type session .scan) (· = .outOfMemory) fun next =>
      next.server = session.server ∧
        (next.cursor = 0 ∨ backwards session.cursor < backwards next.cursor) ∧
        ∀ key, session.server.dict.toMap key ≠ none →
          (backwards (type.hashFunction key) < backwards session.cursor → Emitted session key) →
            Seen type next key := by
  refine Meets.bind (dictScan_meets sound session.cursor).faultless ?_
  rintro ⟨entries, v⟩ ⟨moves, emits⟩
  refine ⟨rfl, moves, ?_⟩
  intro key present before past
  -- The key is either behind the old cursor or between the two cursors.
  by_cases behind : backwards (type.hashFunction key) < backwards session.cursor
  · obtain ⟨he, member, named⟩ := before behind
    exact ⟨he, mem_append_left _ member, named⟩
  · obtain ⟨val, held⟩ := Option.ne_none_iff_exists'.mp present
    have member : ⟨key, val⟩ ∈ session.server.dict.entries :=
      (toMap_eq_some sound.distinct).mp held
    refine ⟨⟨key, val⟩, mem_append_right _ (emits _ member ⟨?_, past.symm⟩), rfl⟩
    exact Nat.not_lt.mp behind

theorem scanStep_call_meets {type : DictType K} {session : ScanSession K V}
    (sound : session.server.dict.Sound type) (call : Call K V) :
    Meets (scanStep type session (.call call)) (· = .outOfMemory) fun next =>
      next.server.dict.Sound type ∧ next.cursor = session.cursor ∧
        next.emitted = session.emitted := by
  refine Meets.bind (serve_simulates type session.server _ call ⟨sound, rfl⟩) ?_
  rintro ⟨reply, server⟩ ⟨_, _, kept, _⟩
  exact ⟨kept, rfl, rfl⟩

/-- Along a run the keys that stay remain seen; each scan moves the cursor on until it is zero. -/
theorem scanRun_meets {type : DictType K} (events) (session : ScanSession K V)
    (sound : session.server.dict.Sound type) :
    Meets (scanRun type session events) (· = .outOfMemory) fun result =>
      session ∈ result.1 ∧
      (∀ key, (∀ state ∈ result.1, state.server.dict.toMap key ≠ none) →
        Seen type session key → Seen type result.2 key) ∧
      ((∃ state ∈ result.1, state.cursor = 0) ∨ backwards session.cursor +
        events.countP ScanEvent.isScan ≤ backwards result.2.cursor) := by
  induction events generalizing session with
  | nil => exact ⟨mem_cons_self, fun key _ seen => seen, .inr (Nat.le_refl _)⟩
  | cons event events ih =>
    -- What the rest of the run does holds with the first state in front as well.
    have later : ∀ {trace : List (ScanSession K V)}, (∃ state ∈ trace, state.cursor = 0) →
        ∃ state ∈ session :: trace, state.cursor = 0 :=
      fun ⟨state, member, zero⟩ => ⟨state, mem_cons_of_mem _ member, zero⟩
    cases event with
    | scan =>
      refine Meets.bind (scanStep_scan_meets sound) ?_
      rintro next ⟨same, moves, extends_⟩
      refine Meets.bind (ih next (same ▸ sound)) ?_
      rintro ⟨trace, last⟩ ⟨starts, onward, progress⟩
      refine ⟨mem_cons_self, fun key stays seen => ?_, ?_⟩
      · refine onward key (fun state member => stays state (mem_cons_of_mem _ member)) ?_
        exact extends_ key (stays session mem_cons_self) fun behind => seen (.inl behind)
      · rcases moves with zero | ahead
        · exact .inl (later ⟨next, starts, zero⟩)
        · refine progress.imp later fun reached => ?_
          rw [countP_cons_of_pos rfl]
          dsimp only at reached ⊢
          omega
    | call call =>
      refine Meets.bind (scanStep_call_meets sound call) ?_
      rintro next ⟨kept, cursor, emitted⟩
      refine Meets.bind (ih next kept) ?_
      rintro ⟨trace, last⟩ ⟨_, onward, progress⟩
      refine ⟨mem_cons_self, fun key stays seen => ?_, ?_⟩
      · refine onward key (fun state member => stays state (mem_cons_of_mem _ member)) ?_
        rw [Seen, Emitted, cursor, emitted]
        exact seen
      · rw [cursor] at progress
        exact progress.imp_left later

/--
The guarantee of an iteration with `dictScan`.

A session scans a dict built by any calls, starting with cursor zero, with any calls in between.
When the cursor has come back to zero, every key that stayed has been passed to the callback, and
it does come back to zero if the iteration is not given up.
-/
theorem dictScan_complete (type : DictType K) (canResize : ResizeEnable)
    (before : List (Call K V)) (events : List (ScanEvent K V)) :
    Meets (do
      let (_, server) ← runCalls (serve type) ⟨canResize, dictCreate⟩ before
      scanRun type ⟨server, 0, []⟩ (.scan :: events))
      (fun fault => fault = .outOfMemory) fun result =>
        (result.2.cursor = 0 → ∀ key,
          (∀ state ∈ result.1, state.server.dict.toMap key ≠ none) → Emitted result.2 key) ∧
        (2 ^ 64 ≤ events.countP ScanEvent.isScan →
          ∃ state ∈ result.1.tail, state.cursor = 0) := by
  refine Meets.bind (dict_refines_map type canResize before) ?_
  rintro ⟨replies, server⟩ ⟨sound, _⟩
  -- The first call starts where nothing lies behind the cursor.
  refine Meets.bind (@scanStep_scan_meets K V _ type ⟨server, 0, []⟩ sound) ?_
  rintro next ⟨same, _, starts⟩
  refine Meets.bind (scanRun_meets events next (same ▸ sound)) ?_
  rintro ⟨trace, last⟩ ⟨_, onward, progress⟩
  refine ⟨fun zero key stays => ?_, fun many => progress.resolve_right fun reached => ?_⟩
  · refine onward key (fun state member => stays state (mem_cons_of_mem _ member)) ?_ (.inr zero)
    refine starts key (stays _ mem_cons_self) fun behind => ?_
    have origin : backwards (0 : BitVec 64) = 0 := backwards_eq_zero.mpr rfl
    dsimp only at behind
    omega
  · -- So many steps would lead beyond the greatest cursor.
    have := backwards_lt last.cursor
    dsimp only at reached
    omega

/-- The table grows and shrinks while it is scanned. -/
def resizedScan : List (ScanEvent Nat Unit) :=
  [.scan, .call (.rehash 8), .scan, .call (.delete 8), .call (.delete 0), .call .resize,
    .call (.rehash 1), .scan, .call (.rehash 8), .scan]

/-- Keys that are their own hash are added, and the dict is scanned. -/
def resizedRun : Except Fault (List (ScanSession Nat Unit) × ScanSession Nat Unit) := do
  let (_, server) ← runCalls (serve ⟨BitVec.ofNat 64, none⟩) ⟨.enable, dictCreate⟩
    ([0, 1, 2, 3, 8].map fun key => .add key () ())
  scanRun ⟨BitVec.ofNat 64, none⟩ ⟨server, 0, []⟩ (.scan :: resizedScan)

theorem resizedRun_complete : Meets resizedRun (fun _ => False) fun result =>
    (result.2.cursor = 0 ∧ ∀ state ∈ result.1, state.server.dict.toMap 3 ≠ none) ∧
      Emitted result.2 3 := by
  have complete := dictScan_complete ⟨BitVec.ofNat 64, none⟩ .enable
    ([0, 1, 2, 3, 8].map fun key => .add key () ()) resizedScan
  have stays : Meets resizedRun (fun _ => False) fun result =>
      result.2.cursor = 0 ∧ ∀ state ∈ result.1, state.server.dict.toMap 3 ≠ none := by
    decide +kernel
  exact (stays.and complete).mono fun result held => ⟨held.1, held.2.1 held.1.1 3 held.1.2⟩

end Sessions

end LearningNotes.Dict
