import LearningNotes.Dict.Invariant

/-! Growing, shrinking and migrating tables keeps a dict sound and moves no entry out of it. -/

namespace LearningNotes.Dict

open Lib List

variable {K V : Type} {type : DictType K}

theorem nextPowerFrom_spec (size fuel bits : Nat) :
    ∃ result, nextPowerFrom size fuel (2 ^ bits) = 2 ^ result ∧
      (size ≤ 2 ^ result ∨ result = bits + fuel) ∧
      ∀ enough, bits ≤ enough → size ≤ 2 ^ enough → result ≤ enough := by
  -- One round either stops here or tries the next power with one round less.
  induction fuel generalizing bits with
  | zero => exact ⟨bits, rfl, .inr rfl, fun enough above _ => above⟩
  | succ fuel ih =>
    rw [nextPowerFrom]
    by_cases large : size ≤ 2 ^ bits
    · exact ⟨bits, if_pos large, .inl large, fun enough above _ => above⟩
    obtain ⟨result, computed, reached, least⟩ := ih (bits + 1)
    refine ⟨result, ?_, ?_, ?_⟩
    · rw [if_neg large, ← Nat.pow_succ, computed]
    · rcases reached with reached | reached
      · exact .inl reached
      · exact .inr (by omega)
    intro enough above holds
    -- The current power was too small, so the wanted one lies strictly above it.
    have other : bits ≠ enough := by
      intro same
      subst same
      exact large holds
    exact least enough (by omega) holds

/-- The size is the smallest power of two, from four on, that is enough. -/
theorem _dictNextPower_spec (size : Nat) :
    ∃ bits, bits < 64 ∧ _dictNextPower size = 2 ^ bits ∧
      ∀ enough, 2 ≤ enough → enough ≤ 62 → size ≤ 2 ^ enough →
        bits ≤ enough ∧ size ≤ 2 ^ bits := by
  unfold _dictNextPower
  by_cases huge : longMax ≤ size
  · refine ⟨63, by decide, by rw [if_pos huge]; rfl, ?_⟩
    intro enough _ bound holds
    -- A size this large exceeds every power that is asked about.
    have := Nat.pow_le_pow_right (by decide : 0 < 2) bound
    have : (2 : Nat) ^ 62 < longMax := by decide
    omega
  obtain ⟨bits, computed, reached, least⟩ := nextPowerFrom_spec size 62 2
  have small : size ≤ 2 ^ 63 := by
    have : longMax < 2 ^ 63 := by decide
    omega
  have word : bits ≤ 63 := least 63 (by decide) small
  refine ⟨bits, by omega, by rw [if_neg huge]; exact computed, ?_⟩
  intro enough above _ holds
  refine ⟨least enough above holds, ?_⟩
  rcases reached with reached | reached
  · exact reached
  · omega

variable {bits rehashidx : Nat} {d : Dict K V} {table : List (List (Entry K V))}

theorem fresh_sound (word : bits < 64) :
    (freshTable (2 ^ bits) : Dictht K V).Sound type where
  length := length_replicate
  power := .inr ⟨bits, word, rfl⟩
  mask := rfl
  placed := by
    intro idx chain located he inside
    simp only [freshTable, getElem?_replicate] at located
    split at located
    · cases located
      simp at inside
    · cases located
  counted := by simp [Dictht.entries, freshTable]

theorem fresh_entries (realsize : Nat) : (freshTable realsize : Dictht K V).entries = [] := by
  simp [Dictht.entries, freshTable]

theorem bytesInUse_eq (d : Dict K V) :
    d.bytesInUse = 8 * (d.ht0.size + d.ht1.size) + 24 * (d.ht0.used + d.ht1.used) := rfl

structure Expanded (type : DictType K) (d d' : Dict K V) : Prop where
  sound : d'.Sound type
  entries : d'.entries = d.entries
  pauserehash : d'.pauserehash = d.pauserehash

/-- A requested size fits the word and differs from the present one. -/
def Growable (d : Dict K V) (size : Nat) : Prop :=
  d.rehashidx = none ∧ d.ht0.used ≤ size ∧ size ≤ 2 ^ 60 ∧ _dictNextPower size ≠ d.ht0.size

theorem install_expanded (sound : d.Sound type) (idle : d.rehashidx = none) (word : bits < 64)
    (memory : d.fits (2 ^ bits * pointerSize)) :
    (d.ht0.table = [] → Expanded type d { d with ht0 := freshTable (2 ^ bits) }) ∧
      (d.ht0.table ≠ [] →
        Expanded type d { d with ht1 := freshTable (2 ^ bits), rehashidx := some 0 }) := by
  have only := sound.idle idle
  have room : d.bytesInUse + 2 ^ bits * pointerSize ≤ addressSpace := by simpa [fits] using memory
  constructor
  · -- The first table replaces one without buckets, which held no entries either.
    intro unset
    have noEntries : d.ht0.entries = [] := by simp [Dictht.entries, unset]
    have same : ({ d with ht0 := freshTable (2 ^ bits) } : Dict K V).entries = d.entries := by
      simp [entries, noEntries, fresh_entries]
    refine ⟨⟨fresh_sound word, sound.second, ?_, sound.idle, ?_, ?_⟩, same, rfl⟩
    · rw [same]; exact sound.distinct
    · intro rehashidx started
      simp [idle] at started
    · simp only [bytesInUse_eq, freshTable, pointerSize] at room ⊢
      omega
  · -- The second table starts empty, and no bucket has been passed yet.
    intro present
    have same : ({ d with ht1 := freshTable (2 ^ bits), rehashidx := some 0 } :
        Dict K V).entries = d.entries := by
      rw [entries, entries, only, fresh_entries]
      rfl
    refine ⟨⟨sound.first, fresh_sound word, ?_, ?_, ?_, ?_⟩, same, rfl⟩
    · rw [same]; exact sound.distinct
    · intro stopped
      cases stopped
    · intro rehashidx started
      cases started
      refine ⟨?_, Nat.ne_zero_of_lt (Nat.two_pow_pos bits), fun idx chain below => by omega⟩
      rw [← sound.first.length]
      exact fun none => present (length_eq_zero_iff.mp none)
    · simp only [bytesInUse_eq, freshTable, pointerSize] at room ⊢
      omega

/-- Expanding installs an empty table and touches no entry. -/
theorem _dictExpand_meets (sound : d.Sound type) (size : Nat) (tryAlloc : Bool) :
    Meets (_dictExpand d size tryAlloc) (· = .outOfMemory) fun result =>
      Expanded type d result.2 ∧
        (Growable d size → result.1.2 = false → result.1.1 = .ok ∧ result.2.ht0.size ≠ 0) := by
  have kept : Expanded type d d := ⟨sound, rfl, rfl⟩
  obtain ⟨bits, word, realsize, least⟩ := _dictNextPower_spec size
  unfold _dictExpand
  split
  · -- A running rehashing or a size below the entry count rules growth out.
    rename_i refused
    refine ⟨kept, ?_⟩
    rintro ⟨idle, enough, _⟩
    simp [isRehashing, idle] at refused
    omega
  rename_i accepted
  simp only [isRehashing, Bool.or_eq_true, Option.isSome_iff_ne_none, not_or,
    Decidable.not_not] at accepted
  obtain ⟨idle, enough⟩ := accepted
  rw [realsize]
  dsimp only
  split
  · -- Below the sixtieth power neither the rounding nor the byte count overflows.
    rename_i overflow
    refine ⟨kept, ?_⟩
    rintro ⟨_, _, bound, _⟩
    obtain ⟨low, covers⟩ := least 60 (by decide) (by decide) bound
    have ceiling := Nat.pow_le_pow_right (by decide : 0 < 2) low
    rcases (Bool.or_eq_true _ _).mp overflow with below | wrapped
    · have := of_decide_eq_true below
      omega
    · have wrapped := of_decide_eq_true wrapped
      simp only [pointerSize, addressSpace] at wrapped
      omega
  · split
    · rename_i same
      refine ⟨kept, ?_⟩
      rintro ⟨_, _, _, differs⟩
      exact absurd (realsize.trans same) differs
    split
    · -- Without memory the call aborts, or reports the failure if asked to.
      split
      · exact ⟨kept, fun _ failed => by cases failed⟩
      · rfl
    rename_i memory
    obtain ⟨initial, second⟩ := install_expanded sound idle word (by simpa using memory)
    split
    · rename_i unset
      exact ⟨initial (by simpa using unset), fun _ _ => ⟨rfl, Nat.ne_zero_of_lt (Nat.two_pow_pos bits)⟩⟩
    · rename_i present
      have present : d.ht0.table ≠ [] := by simpa using present
      refine ⟨second present, fun _ _ => ⟨rfl, ?_⟩⟩
      rw [← sound.first.length]
      exact fun none => present (length_eq_zero_iff.mp none)

theorem _dictExpandIfNeeded_meets (sound : d.Sound type) (canResize : ResizeEnable) :
    Meets (_dictExpandIfNeeded type canResize d) (· = .outOfMemory) fun result =>
      result.1 = .ok ∧ result.2.ht0.size ≠ 0 ∧ Expanded type d result.2 := by
  have kept : Expanded type d d := ⟨sound, rfl, rfl⟩
  have request : ∀ size, Growable d size →
      Meets (dictExpand d size) (· = .outOfMemory) fun result =>
        result.1 = .ok ∧ result.2.ht0.size ≠ 0 ∧ Expanded type d result.2 := by
    intro size growable
    unfold dictExpand
    -- Outside the trying variant a failed allocation is never reported.
    have plain : Meets (_dictExpand d size false) (· = .outOfMemory)
        fun result => result.1.2 = false := by
      unfold _dictExpand
      dsimp only
      repeat' split
      all_goals first | rfl | contradiction
    cases ended : _dictExpand d size false with
    | error fault => simpa [ended] using (_dictExpand_meets sound size false)
    | ok result =>
      obtain ⟨expanded, grows⟩ := (_dictExpand_meets sound size false).of_ok ended
      obtain ⟨succeeded, exists_⟩ := grows growable (plain.of_ok ended)
      exact ⟨succeeded, exists_, expanded⟩
  unfold _dictExpandIfNeeded
  split
  · rename_i running
    obtain ⟨rehashidx, started⟩ := Option.isSome_iff_exists.mp running
    exact ⟨rfl, (sound.moving rehashidx started).1, kept⟩
  rename_i stopped
  have idle : d.rehashidx = none := by simpa [isRehashing] using stopped
  split
  · -- The null table is replaced by one of the initial size.
    rename_i unset
    refine request initialSize ⟨idle, ?_, by decide, ?_⟩
    · have noTable : d.ht0.table = [] := by
        apply length_eq_zero_iff.mp
        rw [sound.first.length, unset]
      rw [sound.first.counted, Dictht.entries, noTable]
      exact Nat.zero_le _
    · rw [unset]
      decide
  rename_i present
  split
  · exact ⟨rfl, present, kept⟩
  split
  · -- More entries than buckets: the next power lies above the present size.
    rename_i crowded
    have beyond : d.ht0.size ≤ d.ht0.used := by
      simp only [Bool.or_eq_true, Bool.and_eq_true, decide_eq_true_eq] at crowded
      rcases crowded with ⟨_, full⟩ | ⟨_, ratio⟩
      · exact full
      · have := Nat.div_mul_le_self d.ht0.used d.ht0.size
        have : d.ht0.size * 1 ≤ d.ht0.size * (d.ht0.used / d.ht0.size) :=
          Nat.mul_le_mul_left _ (by omega)
        rw [Nat.mul_comm d.ht0.size (_ / _)] at this
        omega
    have memory := sound.resident
    simp only [bytesInUse, entrySize, addressSpace] at memory
    have bound : d.ht0.used + 1 ≤ 2 ^ 60 := by omega
    refine request (d.ht0.used + 1) ⟨idle, by omega, bound, ?_⟩
    obtain ⟨bits, _, realsize, least⟩ := _dictNextPower_spec (d.ht0.used + 1)
    have covers := (least 60 (by decide) (by decide) bound).2
    omega
  · exact ⟨rfl, present, kept⟩

/-- Buckets below an index are empty. -/
def Passed (table : List (List (Entry K V))) (rehashidx : Nat) : Prop :=
  ∀ (idx : Nat) (chain : List (Entry K V)), idx < rehashidx →
    table[idx]? = some chain → chain = []

theorem Passed.succ (passed : Passed table rehashidx) (empty : table[rehashidx]? = some []) :
    Passed table (rehashidx + 1) := by
  intro idx chain below located
  by_cases last : idx = rehashidx
  · subst last
    rw [empty] at located
    exact (Option.some.inj located).symm
  · exact passed idx chain (by omega) located

/-- The scan for a bucket passes empty ones only. -/
theorem skipEmpty_meets (chains rehashidx emptyVisits) (suffix : table.drop rehashidx = chains)
    (left : ∃ chain ∈ chains, chain ≠ []) (passed : Passed table rehashidx) :
    Meets (skipEmpty chains rehashidx emptyVisits) (fun _ => False) fun skip =>
      match skip with
      | .spent next => Passed table next
      | .found next _ => rehashidx ≤ next ∧ Passed table next ∧
          ∃ he rest, table[next]? = some (he :: rest) := by
  induction chains generalizing rehashidx emptyVisits with
  | nil => simp at left
  | cons head chains ih =>
    have here : table[rehashidx]? = some head := by
      have := congrArg (fun l : List (List (Entry K V)) => l[0]?) suffix
      simpa using this
    cases head with
    | nil =>
      -- An empty bucket is passed, and the remaining entry lies further on.
      have next := passed.succ here
      rw [skipEmpty]
      split
      · exact next
      have further : table.drop (rehashidx + 1) = chains := by
        rw [← drop_drop, suffix]
        rfl
      have remaining : ∃ chain ∈ chains, chain ≠ [] := by
        obtain ⟨chain, member, occupied⟩ := left
        rcases mem_cons.mp member with same | member
        · exact absurd same occupied
        · exact ⟨chain, member, occupied⟩
      refine (ih (rehashidx + 1) (emptyVisits - 1) further remaining next).mono ?_
      intro skip reached
      cases skip with
      | spent next => exact reached
      | found next visits => exact ⟨by omega, reached.2⟩
    | cons he rest => exact ⟨Nat.le_refl _, passed, he, rest, here⟩

/-- Every entry of the chain goes to the bucket of the new table that its hash selects. -/
theorem moveChain_meets (chain : List (Entry K V)) (ht0 ht1 : Dictht K V)
    (sound : ht1.Sound type) (exists_ : ht1.size ≠ 0) :
    Meets (moveChain type chain ht0 ht1) (fun _ => False) fun result =>
      result.1 = { ht0 with used := ht0.used - chain.length } ∧
        result.2.Sound type ∧ result.2.size = ht1.size ∧
        result.2.entries.Perm (chain ++ ht1.entries) := by
  induction chain generalizing ht0 ht1 with
  | nil => exact ⟨rfl, sound, rfl, List.Perm.refl _⟩
  | cons de nextde ih =>
    obtain ⟨old, present⟩ := sound.selected exists_ (type.hashFunction de.key)
    have added := flatten_set_cons_perm present de
    simp only [moveChain, bucket_eq_ok present, setBucket_eq_ok present]
    -- The entry goes to the head of the bucket that its own hash selects.
    have grown : Dictht.Sound type { ht1 with
        table := ht1.table.set (ht1.index (type.hashFunction de.key)) (de :: old)
        used := ht1.used + 1 } := by
      refine sound.set ?_ ?_
      · exact forall_mem_cons.mpr ⟨rfl, sound.placed _ _ present⟩
      · rw [added.length_eq, sound.counted]
        rfl
    refine (ih _ _ grown exists_).mono ?_
    rintro ⟨moved0, moved1⟩ ⟨shrunk, kept, size, members⟩
    refine ⟨?_, kept, size, ?_⟩
    · rw [shrunk, length_cons, Nat.sub_sub, Nat.add_comm 1]
    · refine members.trans ?_
      refine ((added.append_left nextde)).trans ?_
      exact perm_middle

structure Rehashed (type : DictType K) (d d' : Dict K V) : Prop where
  sound : d'.Sound type
  entries : d'.entries.Perm d.entries
  pauserehash : d'.pauserehash = d.pauserehash
  exists_ : d.ht0.size ≠ 0 → d'.ht0.size ≠ 0

theorem moveBucket_rehashed {next : Nat} {he : Entry K V} {rest : List (Entry K V)}
    (sound : Sound type { d with rehashidx := some rehashidx }) (passed : Passed d.ht0.table next)
    (present : d.ht0.table[next]? = some (he :: rest)) {ht1 : Dictht K V} (grown : ht1.Sound type)
    (size : ht1.size = d.ht1.size) (members : ht1.entries.Perm (he :: rest ++ d.ht1.entries)) :
    Rehashed type d { d with
      ht0 := { d.ht0 with
        table := d.ht0.table.set next []
        used := d.ht0.used - (he :: rest).length }
      ht1 := ht1
      rehashidx := some (next + 1) } := by
  obtain ⟨exists0, exists1, _⟩ := sound.moving rehashidx rfl
  have within : next < d.ht0.table.length := (List.getElem?_eq_some_iff.mp present).1
  have exchanged := flatten_set_perm present []
  rw [append_nil] at exchanged
  have count := exchanged.length_eq
  have received := members.length_eq
  rw [length_append] at count received
  have counted : d.ht0.used = d.ht0.table.flatten.length := sound.first.counted
  -- The first table loses exactly the chain that the second one receives.
  have together : ((d.ht0.table.set next []).flatten ++ ht1.entries).Perm
      (d.ht0.entries ++ d.ht1.entries) := by
    refine (members.append_left _).trans ?_
    rw [← append_assoc]
    exact exchanged.append_right _
  refine ⟨⟨?_, grown, ?_, ?_, ?_, ?_⟩, together, rfl, fun _ => exists0⟩
  · have shrunk : d.ht0.used - (he :: rest).length = (d.ht0.table.set next []).flatten.length := by
      omega
    exact sound.first.set (by simp) shrunk
  · exact (together.map Entry.key).nodup_iff.mpr sound.distinct
  · intro stopped
    cases stopped
  · intro reached started
    cases started
    refine ⟨exists0, size.trans_ne exists1, ?_⟩
    -- The bucket just moved is empty now, and the earlier ones were empty before.
    intro idx chain below located
    rw [getElem?_set] at located
    split at located
    · exact (Option.some.inj located).symm
    · exact passed idx chain (by omega) located
  · have memory := sound.resident
    have after : ht1.used = ht1.entries.length := grown.counted
    have before : d.ht1.used = d.ht1.entries.length := sound.second.counted
    simp only [bytesInUse_eq] at memory ⊢
    omega

theorem rehashLoop_meets (fuel n emptyVisits rehashidx) (d : Dict K V)
    (sound : Sound type { d with rehashidx := some rehashidx })
    (bound : d.ht0.size < rehashidx + fuel) (last : fuel = 0 → rehashidx ≤ d.ht0.size) :
    Meets (rehashLoop type fuel n emptyVisits rehashidx d) (fun _ => False) fun result =>
      Rehashed type d result.2 ∧ result.2.rehashidx.isSome := by
  induction fuel generalizing n emptyVisits rehashidx d with
  | zero => omega
  | succ fuel ih =>
    have stays : ∀ next, Passed d.ht0.table next →
        Rehashed type d { d with rehashidx := some next } := by
      intro next passed
      refine ⟨⟨sound.first, sound.second, sound.distinct, ?_, ?_, sound.resident⟩,
        List.Perm.refl _, rfl, id⟩
      · intro stopped
        cases stopped
      · intro reached started
        cases started
        obtain ⟨exists0, exists1, _⟩ := sound.moving rehashidx rfl
        exact ⟨exists0, exists1, passed⟩
    have passed : Passed d.ht0.table rehashidx := (sound.moving rehashidx rfl).2.2
    rw [rehashLoop]
    split
    · exact ⟨stays rehashidx passed, rfl⟩
    rename_i going
    have occupied : d.ht0.used ≠ 0 := by
      intro none
      simp [none] at going
    -- Some entry is left, and it stands at or after the current bucket.
    obtain ⟨idx, chain, located, filled⟩ := sound.first.used_ne_zero occupied
    have ahead : rehashidx ≤ idx := by
      by_cases before : idx < rehashidx
      · exact absurd (passed idx chain before located) filled
      · omega
    have within : idx < d.ht0.size := by
      rw [← sound.first.length]
      exact (List.getElem?_eq_some_iff.mp located).1
    rw [if_neg (by omega)]
    have remaining : ∃ chain ∈ d.ht0.table.drop rehashidx, chain ≠ [] := by
      refine ⟨chain, mem_iff_getElem?.mpr ⟨idx - rehashidx, ?_⟩, filled⟩
      rw [getElem?_drop, Nat.add_sub_cancel' ahead, located]
    refine Meets.bind (skipEmpty_meets _ rehashidx emptyVisits rfl remaining passed) ?_
    intro skip reached
    cases skip with
    | spent next => exact ⟨stays next reached, rfl⟩
    | found next visits =>
      obtain ⟨later, empty, he, rest, present⟩ := reached
      obtain ⟨_, exists1, _⟩ := sound.moving rehashidx rfl
      simp only [bucket_eq_ok present]
      change Meets (moveChain type (he :: rest) d.ht0 d.ht1 >>= _) _ _
      refine Meets.bind (moveChain_meets (he :: rest) d.ht0 d.ht1 sound.second exists1) ?_
      rintro ⟨ht0, ht1⟩ ⟨shrunk, grown, size, members⟩
      have within : next < d.ht0.table.length := (List.getElem?_eq_some_iff.mp present).1
      have written : ht0.setBucket next [] = .ok { d.ht0 with
          table := d.ht0.table.set next []
          used := d.ht0.used - (he :: rest).length } := by
        subst shrunk
        simp [Dictht.setBucket, within]
      rw [written]
      have moved := moveBucket_rehashed sound empty present grown size members
      refine (ih (n - 1) visits (next + 1) _ moved.sound ?_ ?_).mono ?_
      · dsimp only
        omega
      · omega
      · rintro result ⟨onward, started⟩
        exact ⟨⟨onward.sound, onward.entries.trans moved.entries,
          onward.pauserehash, fun exists_ => onward.exists_ exists_⟩, started⟩

/-- A step of rehashing moves entries between the tables and loses none. -/
theorem dictRehash_meets (sound : d.Sound type) (canResize : ResizeEnable) (n : Int) :
    Meets (dictRehash type canResize d n) (fun _ => False) fun result =>
      Rehashed type d result.2 := by
  have unchanged : Rehashed type d d := ⟨sound, List.Perm.refl _, rfl, id⟩
  unfold dictRehash
  split
  · exact unchanged
  rename_i rehashidx started
  split
  · exact unchanged
  split
  · exact unchanged
  have running : Sound type { d with rehashidx := some rehashidx } := by
    rw [← started]
    exact sound
  refine Meets.bind (rehashLoop_meets (d.ht0.size + 1) n (n * 10) rehashidx d running
    (by omega) (by omega)) ?_
  rintro ⟨early, d'⟩ ⟨moved, active⟩
  dsimp only at moved active ⊢
  split
  · exact moved
  split
  · -- The first table is empty, so the second one takes its place.
    rename_i drained
    obtain ⟨reached, started'⟩ := Option.isSome_iff_exists.mp active
    obtain ⟨_, exists1, _⟩ := moved.sound.moving reached started'
    have noEntries : d'.ht0.entries = [] := by
      apply length_eq_zero_iff.mp
      rw [← moved.sound.first.counted, drained]
    have same : ({ d' with ht0 := d'.ht1, ht1 := _dictReset, rehashidx := none } :
        Dict K V).entries = d'.entries := by
      rw [entries, entries, noEntries, nil_append]
      exact append_nil _
    refine ⟨⟨moved.sound.second, reset_sound type, ?_, fun _ => rfl, ?_, ?_⟩,
      same ▸ moved.entries, moved.pauserehash, fun _ => exists1⟩
    · rw [same]; exact moved.sound.distinct
    · intro rehashidx resumed
      cases resumed
    · have memory := moved.sound.resident
      simp only [bytesInUse_eq, _dictReset] at memory ⊢
      omega
  · exact moved

theorem rehashStepIfNeeded_meets (sound : d.Sound type) (canResize : ResizeEnable) :
    Meets (rehashStepIfNeeded type canResize d) (fun _ => False) fun d' =>
      Rehashed type d d' := by
  have unchanged : Rehashed type d d := ⟨sound, List.Perm.refl _, rfl, id⟩
  unfold rehashStepIfNeeded _dictRehashStep
  split
  · split
    · exact Meets.bind (dictRehash_meets sound canResize 1) fun _ moved => moved
    · exact unchanged
  · exact unchanged

end LearningNotes.Dict
