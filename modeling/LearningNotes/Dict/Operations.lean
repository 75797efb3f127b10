import LearningNotes.Dict.Rehash

/-! Lookups and updates of a sound dict, described by what they do to its entries. -/

namespace LearningNotes.Dict

open Lib List

variable {K V : Type} {type : DictType K} {d : Dict K V}

theorem Sound.table (sound : d.Sound type) (side : Side) : (d.ht side).Sound type := by
  cases side with
  | first => exact sound.first
  | second => exact sound.second

def exchange (d : Dict K V) (side : Side) (idx : Nat) (new : List (Entry K V)) (used : Nat) :
    Dict K V :=
  d.setHt side { d.ht side with table := (d.ht side).table.set idx new, used := used }

/-- Replacing a bucket exchanges its entries and no others. -/
theorem exchange_entries {side : Side} {idx : Nat} {old : List (Entry K V)}
    (present : (d.ht side).table[idx]? = some old) (new : List (Entry K V)) (used : Nat) :
    ((d.exchange side idx new used).entries ++ old).Perm (d.entries ++ new) := by
  have swapped := flatten_set_perm present new
  cases side with
  | first =>
    -- The chain is carried past the entries of the second table on both sides.
    simp only [entries, append_assoc] at swapped ⊢
    refine (List.Perm.append_left _ perm_append_comm).trans ?_
    refine List.Perm.trans ?_ (List.Perm.append_left _ perm_append_comm)
    rw [← append_assoc, ← append_assoc]
    exact swapped.append_right _
  | second =>
    simp only [entries, append_assoc] at swapped ⊢
    exact swapped.append_left _

theorem Sound.exchange (sound : d.Sound type) {side : Side} {idx : Nat}
    {old new : List (Entry K V)} {used : Nat} (present : (d.ht side).table[idx]? = some old)
    (belongs : ∀ he ∈ new, (d.ht side).index (type.hashFunction he.key) = idx)
    (count : used + old.length = (d.ht side).used + new.length)
    (quiet : side = .first → d.isRehashing → old = [] → new = [])
    (distinct : ((d.exchange side idx new used).entries.map Entry.key).Nodup)
    (room : (d.exchange side idx new used).bytesInUse ≤ addressSpace) :
    (d.exchange side idx new used).Sound type := by
  have lengths := (flatten_set_perm present new).length_eq
  rw [length_append, length_append] at lengths
  have counted : (d.ht side).used = (d.ht side).table.flatten.length := (sound.table side).counted
  have changed := (sound.table side).set belongs
    (show used = ((d.ht side).table.set idx new).flatten.length by omega)
  cases side with
  | first =>
    refine ⟨changed, sound.second, distinct, sound.idle, ?_, room⟩
    -- A bucket that the migration has passed was empty, and quiet exchanges keep it so.
    intro rehashidx started
    obtain ⟨exists0, exists1, passed⟩ := sound.moving rehashidx started
    refine ⟨exists0, exists1, ?_⟩
    intro at_ chain below located
    simp only [Dict.exchange, setHt] at located
    rw [getElem?_set] at located
    split at located
    · rename_i same
      split at located
      · cases located
        subst same
        have running : d.isRehashing := by
          rw [isRehashing, Option.isSome_iff_exists]
          exact ⟨rehashidx, started⟩
        exact quiet rfl running (passed idx old below present)
      · cases located
    · exact passed at_ chain below located
  | second =>
    refine ⟨sound.first, changed, distinct, ?_, sound.moving, room⟩
    -- The second table has a bucket, so a rehashing is going on.
    intro stopped
    have only := sound.idle stopped
    simp [ht, only, _dictReset] at present

def PointsTo (d : Dict K V) (ref : Ref) (he : Entry K V) : Prop :=
  ∃ chain, (d.ht ref.table).table[ref.idx]? = some chain ∧ chain[ref.pos]? = some he

theorem PointsTo.deref {ref : Ref} {he : Entry K V} (points : d.PointsTo ref he) :
    d.deref ref = .ok he := by
  obtain ⟨chain, present, stands⟩ := points
  simp [Dict.deref, bucket_eq_ok present, stands, Pure.pure, Except.pure]

theorem PointsTo.mem {ref : Ref} {he : Entry K V} (points : d.PointsTo ref he) :
    he ∈ d.entries := by
  obtain ⟨chain, present, stands⟩ := points
  have member : he ∈ (d.ht ref.table).entries :=
    mem_flatten_iff_getElem?.mpr ⟨_, _, present, mem_of_getElem? stands⟩
  cases side : ref.table with
  | first => exact mem_append_left _ (by simpa [ht, side] using member)
  | second => exact mem_append_right _ (by simpa [ht, side] using member)

section

variable (sound : d.Sound type)
include sound

theorem dictSetVal_meets {ref : Ref} {he : Entry K V} (points : d.PointsTo ref he) (val : V) :
    Meets (dictSetVal d ref val) (fun _ => False) fun d' =>
      d'.Sound type ∧ d'.pauserehash = d.pauserehash ∧ ∃ others,
        d.entries.Perm (he :: others) ∧ d'.entries.Perm (⟨he.key, val⟩ :: others) := by
  obtain ⟨chain, present, stands⟩ := points
  have within : ref.pos < chain.length := (List.getElem?_eq_some_iff.mp stands).1
  have written : dictSetVal d ref val = .ok (d.exchange ref.table ref.idx
      (chain.set ref.pos { he with val := val }) (d.ht ref.table).used) := by
    simp only [dictSetVal, bucket_eq_ok present, setBucket_eq_ok present, stands, Bind.bind,
      Except.bind, Pure.pure, Except.pure, exchange]
  -- Taking the written position out of both chains leaves the same others.
  have shorter : chain.Perm (he :: chain.eraseIdx ref.pos) := by
    have := (getElem_cons_eraseIdx_perm within).symm
    rwa [(List.getElem?_eq_some_iff.mp stands).2] at this
  have rewritten : (chain.set ref.pos { he with val := val }).Perm
      (⟨he.key, val⟩ :: chain.eraseIdx ref.pos) :=
    set_perm_cons_eraseIdx within _
  have swapped := exchange_entries present (chain.set ref.pos { he with val := val })
    (d.ht ref.table).used
  have mine : he ∈ d.entries := PointsTo.mem ⟨chain, present, stands⟩
  obtain ⟨before, after, split_⟩ := append_of_mem mine
  have before_ : d.entries.Perm (he :: (before ++ after)) := by
    rw [split_]
    exact perm_middle
  have after_ : (d.exchange ref.table ref.idx (chain.set ref.pos { he with val := val })
      (d.ht ref.table).used).entries.Perm (⟨he.key, val⟩ :: (before ++ after)) := by
    -- Both sides gain the old entry and the rest of its chain, which then cancel.
    refine (perm_append_right_iff (he :: chain.eraseIdx ref.pos)).mp ?_
    refine ((List.Perm.append_left _ shorter.symm).trans swapped).trans ?_
    refine (before_.append rewritten).trans ?_
    refine (List.Perm.cons _ perm_middle).trans ?_
    refine (List.Perm.swap _ _ _).trans (List.Perm.cons _ ?_)
    exact perm_middle.symm
  rw [written]
  refine ⟨sound.exchange present ?_ ?_ ?_ ?_ ?_, ?_, before ++ after, before_, after_⟩
  · intro other member
    rcases mem_cons.mp (rewritten.mem_iff.mp member) with same | member
    · subst same
      exact (sound.table ref.table).placed _ _ present he (mem_of_getElem? stands)
    · exact (sound.table ref.table).placed _ _ present other (mem_of_mem_eraseIdx member)
  · simp
  · intro _ _ empty
    simp [empty] at within
  · have keys := after_.map Entry.key
    have old := before_.map Entry.key
    exact (keys.trans old.symm).nodup_iff.mpr sound.distinct
  · have memory := sound.resident
    cases side : ref.table with
    | first => simpa [Dict.exchange, setHt, ht, bytesInUse] using memory
    | second => simpa [Dict.exchange, setHt, ht, bytesInUse] using memory
  · cases side : ref.table with
    | first => rfl
    | second => rfl

theorem Sound.entries_idle (stopped : d.isRehashing = false) : d.entries = d.ht0.entries := by
  have idle : d.rehashidx = none := by simpa [isRehashing] using stopped
  rw [entries, sound.idle idle]
  exact append_nil _

theorem Sound.exists_second (running : d.isRehashing = true) : d.ht1.size ≠ 0 := by
  obtain ⟨rehashidx, started⟩ := Option.isSome_iff_exists.mp running
  exact (sound.moving rehashidx started).2.1

theorem Sound.exists_first (occupied : d.dictSize ≠ 0) : d.ht0.size ≠ 0 := by
  intro unset
  have noTable : d.ht0.table = [] := by
    apply length_eq_zero_iff.mp
    rw [sound.first.length, unset]
  have noEntries : d.ht0.used = 0 := by
    rw [sound.first.counted, Dictht.entries, noTable]
    rfl
  -- Without a first table there is no rehashing, and then no second table either.
  cases started : d.rehashidx with
  | none =>
    have only := sound.idle started
    simp [dictSize, noEntries, only, _dictReset] at occupied
  | some rehashidx => exact (sound.moving rehashidx started).1 unset

theorem Sound.entries_nil (empty : d.dictSize = 0) : d.entries = [] := by
  have first := sound.first.counted
  have second := sound.second.counted
  apply length_eq_zero_iff.mp
  rw [entries, length_append]
  rw [dictSize] at empty
  omega

end

section Keys

variable [DecidableEq K]

theorem findIdx?_key (chain : List (Entry K V)) (key : K) :
    match chain.findIdx? fun he => he.key = key with
    | none => ∀ he ∈ chain, he.key ≠ key
    | some pos => ∃ he, chain[pos]? = some he ∧ he.key = key := by
  cases found : chain.findIdx? fun he => he.key = key with
  | none => simpa [findIdx?_eq_none_iff] using found
  | some pos =>
    obtain ⟨within, holds, _⟩ := findIdx?_eq_some_iff_getElem.mp found
    exact ⟨chain[pos], getElem?_eq_getElem within, by simpa using holds⟩

variable (sound : d.Sound type)
include sound

theorem searchTable_meets (side : Side) (exists_ : (d.ht side).size ≠ 0) (key : K) :
    Meets (searchTable d side (type.hashFunction key) key) (fun _ => False) fun found =>
      match found with
      | none => ∀ he ∈ (d.ht side).entries, he.key ≠ key
      | some ref => ∃ he, d.PointsTo ref he ∧ he.key = key := by
  obtain ⟨chain, present⟩ := (sound.table side).selected exists_ (type.hashFunction key)
  have searched := findIdx?_key chain key
  simp only [searchTable, bucket_eq_ok present, Bind.bind, Except.bind]
  cases found : chain.findIdx? fun he => he.key = key with
  | none =>
    -- An entry with the key would stand in the very chain that was searched.
    rw [found] at searched
    intro he member named
    subst named
    exact searched he ((sound.table side).mem_selected member present) rfl
  | some pos =>
    rw [found] at searched
    obtain ⟨he, stands, named⟩ := searched
    exact ⟨he, ⟨chain, present, stands⟩, named⟩

/-- The search looks at both tables while the dictionary is rehashing. -/
theorem searchTables_meets (exists_ : d.ht0.size ≠ 0) (key : K) :
    Meets (searchTables d (type.hashFunction key) key) (fun _ => False) fun found =>
      match found with
      | none => ∀ he ∈ d.entries, he.key ≠ key
      | some ref => ∃ he, d.PointsTo ref he ∧ he.key = key := by
  refine Meets.bind (searchTable_meets sound .first exists_ key) ?_
  intro found searched
  cases found with
  | some ref => exact searched
  | none =>
    dsimp only
    split
    · -- While rehashing, the key may have moved to the second table already.
      rename_i running
      refine (searchTable_meets sound .second (sound.exists_second running) key).mono ?_
      intro found second
      cases found with
      | some ref => exact second
      | none =>
        exact forall_mem_append.mpr ⟨searched, second⟩
    · rename_i stopped
      rw [Bool.not_eq_true] at stopped
      intro he member
      rw [sound.entries_idle stopped] at member
      exact searched he member

/-- Where a new entry goes: the second table while rehashing. -/
def insertSide (d : Dict K V) : Side := if d.isRehashing then .second else .first

omit [DecidableEq K] in
theorem Sound.exists_insertSide (exists_ : d.ht0.size ≠ 0) : (d.ht d.insertSide).size ≠ 0 := by
  cases running : d.isRehashing with
  | true => simpa [insertSide, running, ht] using sound.exists_second running
  | false => simpa [insertSide, running, ht] using exists_

variable (canResize : ResizeEnable)

theorem _dictKeyIndex_meets (key : K) :
    Meets (_dictKeyIndex type canResize d key (type.hashFunction key))
      (· = .outOfMemory) fun result =>
        Expanded type d result.2 ∧ result.2.ht0.size ≠ 0 ∧
          ((result.1 = (some ((result.2.ht result.2.insertSide).index (type.hashFunction key)),
              none) ∧ ∀ he ∈ d.entries, he.key ≠ key) ∨
            ∃ ref he, result.1 = (none, some ref) ∧ result.2.PointsTo ref he ∧ he.key = key) := by
  refine Meets.bind (_dictExpandIfNeeded_meets sound canResize) ?_
  rintro ⟨status, d1⟩ ⟨fine, exists_, grown⟩
  dsimp only at fine exists_ grown ⊢
  -- The expansion on demand succeeds, so the key is searched for.
  rw [fine, if_neg (by decide)]
  refine Meets.bind (searchTables_meets grown.sound exists_ key).faultless ?_
  intro found searched
  cases found with
  | some ref =>
    obtain ⟨he, points, named⟩ := searched
    exact ⟨grown, exists_, .inr ⟨ref, he, rfl, points, named⟩⟩
  | none => exact ⟨grown, exists_, .inl ⟨rfl, fun he member => searched he (grown.entries ▸ member)⟩⟩

omit [DecidableEq K] in
/-- The new entry goes to the table that stays. -/
theorem linkEntry_meets (exists_ : d.ht0.size ≠ 0) (he : Entry K V)
    (absent : ∀ other ∈ d.entries, other.key ≠ he.key) :
    let index := (d.ht d.insertSide).index (type.hashFunction he.key)
    Meets (linkEntry d d.insertSide index he) (· = .outOfMemory) fun d' =>
      d'.Sound type ∧ d'.pauserehash = d.pauserehash ∧ d'.PointsTo ⟨d.insertSide, index, 0⟩ he ∧
        d'.entries.Perm (he :: d.entries) := by
  intro index
  unfold linkEntry
  split
  · rfl
  rename_i memory
  have room : d.bytesInUse + 24 ≤ addressSpace := by
    have fitting : d.fits entrySize = true := by simpa using memory
    exact of_decide_eq_true fitting
  obtain ⟨chain, present⟩ := (sound.table d.insertSide).selected
    (sound.exists_insertSide exists_) (type.hashFunction he.key)
  have swapped := exchange_entries present (he :: chain) ((d.ht d.insertSide).used + 1)
  have added : (d.exchange d.insertSide index (he :: chain)
      ((d.ht d.insertSide).used + 1)).entries.Perm (he :: d.entries) := by
    refine (perm_append_right_iff chain).mp (swapped.trans ?_)
    exact perm_middle
  simp only [bucket_eq_ok present, setBucket_eq_ok present, Bind.bind, Except.bind,
    Pure.pure, Except.pure, meets_ok, index]
  refine ⟨sound.exchange present ?_ ?_ ?_ ?_ ?_, ?_, ?_, added⟩
  · exact forall_mem_cons.mpr ⟨rfl, (sound.table d.insertSide).placed _ _ present⟩
  · simp only [length_cons]
    omega
  · -- Insertions go into the first table only while nothing is migrating.
    intro first running
    rw [insertSide, running] at first
    cases first
  · refine (added.map Entry.key).nodup_iff.mpr ?_
    rw [map_cons, nodup_cons]
    refine ⟨?_, sound.distinct⟩
    intro listed
    obtain ⟨other, member, clash⟩ := mem_map.mp listed
    exact absent other member clash
  · rw [bytesInUse_eq] at room ⊢
    cases d.insertSide with
    | first =>
      simp only [Dict.exchange, setHt, ht] at room ⊢
      omega
    | second =>
      simp only [Dict.exchange, setHt, ht] at room ⊢
      omega
  · cases d.insertSide with
    | first => rfl
    | second => rfl
  · have within := (List.getElem?_eq_some_iff.mp present).1
    refine ⟨he :: chain, ?_, rfl⟩
    generalize d.insertSide = side at within ⊢
    cases side with
    | first => exact getElem?_set_self within
    | second => exact getElem?_set_self within

inductive Added (d : Dict K V) (he : Entry K V) : Option Ref × Option Ref → Dict K V → Prop
  | fresh {d' : Dict K V} {ref : Ref} (absent : ∀ other ∈ d.entries, other.key ≠ he.key)
      (points : d'.PointsTo ref he) (entries : d'.entries.Perm (he :: d.entries)) :
      Added d he (some ref, none) d'
  | present {d' : Dict K V} {ref : Ref} {old : Entry K V} (points : d'.PointsTo ref old)
      (named : old.key = he.key) (entries : d'.entries.Perm d.entries) :
      Added d he (none, some ref) d'

/-- Adding keeps the invariant and adds exactly a key that was absent. -/
theorem dictAddRaw_meets (key : K) (val : V) :
    Meets (dictAddRaw type canResize d key val) (· = .outOfMemory) fun result =>
      result.2.Sound type ∧ result.2.pauserehash = d.pauserehash ∧
        Added d ⟨key, val⟩ result.1 result.2 := by
  refine Meets.bind (rehashStepIfNeeded_meets sound canResize).faultless ?_
  intro d1 moved
  refine Meets.bind (_dictKeyIndex_meets moved.sound canResize key) ?_
  rintro ⟨⟨index, existing⟩, d2⟩ ⟨grown, exists_, outcome⟩
  dsimp only at grown exists_ outcome
  have order : d2.entries.Perm d.entries := grown.entries ▸ moved.entries
  have pause : d2.pauserehash = d.pauserehash := grown.pauserehash.trans moved.pauserehash
  rcases outcome with ⟨unfound, absent⟩ | ⟨ref, he, found, points, named⟩
  · cases unfound
    have absent : ∀ other ∈ d2.entries, other.key ≠ key := grown.entries ▸ absent
    refine Meets.bind (linkEntry_meets grown.sound exists_ ⟨key, val⟩ absent) ?_
    rintro d3 ⟨kept, unpaused, points, added⟩
    refine ⟨kept, unpaused.trans pause, .fresh ?_ points (added.trans (order.cons _))⟩
    exact fun other member => absent other (order.mem_iff.mpr member)
  · cases found
    exact ⟨grown.sound, pause, .present points named order⟩

theorem unlinkFrom_meets (side : Side) (exists_ : (d.ht side).size ≠ 0) (key : K) :
    Meets (unlinkFrom d side (type.hashFunction key) key) (fun _ => False) fun result =>
      match result.1 with
      | none => result = (none, d) ∧ ∀ he ∈ (d.ht side).entries, he.key ≠ key
      | some he => result.2.Sound type ∧ result.2.pauserehash = d.pauserehash ∧ he.key = key ∧
          d.entries.Perm (he :: result.2.entries) := by
  obtain ⟨chain, present⟩ := (sound.table side).selected exists_ (type.hashFunction key)
  have searched := findIdx?_key chain key
  cases found : chain.findIdx? fun he => he.key = key with
  | none =>
    rw [found] at searched
    simp only [unlinkFrom, bucket_eq_ok present, found, Bind.bind, Except.bind, Pure.pure,
      Except.pure, meets_ok]
    refine ⟨trivial, ?_⟩
    intro he member named
    subst named
    exact searched he ((sound.table side).mem_selected member present) rfl
  | some pos =>
    rw [found] at searched
    obtain ⟨he, stands, named⟩ := searched
    have within : pos < chain.length := (List.getElem?_eq_some_iff.mp stands).1
    have shorter : chain.Perm (he :: chain.eraseIdx pos) := by
      have := (getElem_cons_eraseIdx_perm within).symm
      rwa [(List.getElem?_eq_some_iff.mp stands).2] at this
    have removed : d.entries.Perm (he :: (d.exchange side
        ((d.ht side).index (type.hashFunction key)) (chain.eraseIdx pos)
        ((d.ht side).used - 1)).entries) := by
      -- Both sides gain the shortened chain, which then cancels.
      have swapped := exchange_entries present (chain.eraseIdx pos) ((d.ht side).used - 1)
      refine (perm_append_right_iff (chain.eraseIdx pos)).mp ?_
      refine swapped.symm.trans ?_
      refine (shorter.append_left _).trans ?_
      exact perm_middle
    have occupied : 0 < (d.ht side).used := by
      rw [(sound.table side).counted]
      exact length_pos_of_mem (mem_flatten_iff_getElem?.mpr ⟨_, _, present, mem_of_getElem? stands⟩)
    simp only [unlinkFrom, bucket_eq_ok present, setBucket_eq_ok present, found, stands, Bind.bind,
      Except.bind]
    refine ⟨sound.exchange present ?_ ?_ ?_ ?_ ?_, ?_, named, removed⟩
    · intro other member
      exact (sound.table side).placed _ _ present other (mem_of_mem_eraseIdx member)
    · rw [length_eraseIdx_of_lt within]
      omega
    · intro _ _ empty
      simp [empty] at within
    · have keys := (removed.map Entry.key).nodup_iff.mp sound.distinct
      exact (nodup_cons.mp keys).2
    · have memory := sound.resident
      rw [bytesInUse_eq] at memory ⊢
      cases side with
      | first =>
        simp only [Dict.exchange, setHt, ht] at memory ⊢
        omega
      | second =>
        simp only [Dict.exchange, setHt, ht] at memory ⊢
        omega
    · cases side with
      | first => rfl
      | second => rfl

/-- Deleting takes out the one entry of the key, or says that there is none. -/
theorem dictGenericDelete_meets (key : K) :
    Meets (dictGenericDelete type canResize d key) (fun _ => False) fun result =>
      result.2.Sound type ∧ result.2.pauserehash = d.pauserehash ∧
        match result.1 with
        | none => result.2.entries.Perm d.entries ∧ ∀ he ∈ d.entries, he.key ≠ key
        | some he => he.key = key ∧ d.entries.Perm (he :: result.2.entries) := by
  unfold dictGenericDelete
  split
  · rename_i empty
    have empty : d.dictSize = 0 := by
      simp only [Bool.and_eq_true, decide_eq_true_eq] at empty
      rw [dictSize, empty.1, empty.2]
    refine ⟨sound, rfl, List.Perm.refl _, ?_⟩
    rw [sound.entries_nil empty]
    simp
  rename_i occupied
  have occupied : d.dictSize ≠ 0 := by
    simp only [Bool.and_eq_true, decide_eq_true_eq] at occupied
    rw [dictSize]
    omega
  refine Meets.bind (rehashStepIfNeeded_meets sound canResize) ?_
  intro d1 moved
  have exists_ := moved.exists_ (sound.exists_first occupied)
  -- The second table is searched only if the first has no such key.
  refine Meets.bind (unlinkFrom_meets moved.sound .first exists_ key) ?_
  rintro ⟨he, d2⟩ unlinked
  cases he with
  | some he =>
    obtain ⟨kept, pause, named, removed⟩ := unlinked
    exact ⟨kept, pause.trans moved.pauserehash, named, moved.entries.symm.trans removed⟩
  | none =>
    obtain ⟨same, first⟩ := unlinked
    cases same
    dsimp only
    split
    · rename_i running
      refine (unlinkFrom_meets moved.sound .second (moved.sound.exists_second running) key).mono ?_
      rintro ⟨he, d3⟩ unlinked
      cases he with
      | some he =>
        obtain ⟨kept, pause, named, removed⟩ := unlinked
        exact ⟨kept, pause.trans moved.pauserehash, named, moved.entries.symm.trans removed⟩
      | none =>
        obtain ⟨same, second⟩ := unlinked
        cases same
        refine ⟨moved.sound, moved.pauserehash, moved.entries, ?_⟩
        intro he member
        exact forall_mem_append.mpr ⟨first, second⟩ he (moved.entries.mem_iff.mpr member)
    · rename_i stopped
      rw [Bool.not_eq_true] at stopped
      refine ⟨moved.sound, moved.pauserehash, moved.entries, ?_⟩
      intro he member
      have member := moved.entries.mem_iff.mpr member
      rw [moved.sound.entries_idle stopped] at member
      exact first he member

/-- Finding may move entries and loses none. -/
theorem dictFind_meets (key : K) :
    Meets (dictFind type canResize d key) (fun _ => False) fun result =>
      result.2.Sound type ∧ result.2.pauserehash = d.pauserehash ∧
        result.2.entries.Perm d.entries ∧
        match result.1 with
        | none => ∀ he ∈ d.entries, he.key ≠ key
        | some ref => ∃ he, result.2.PointsTo ref he ∧ he.key = key := by
  unfold dictFind
  split
  · rename_i empty
    refine ⟨sound, rfl, List.Perm.refl _, ?_⟩
    rw [sound.entries_nil empty]
    simp
  rename_i occupied
  refine Meets.bind (rehashStepIfNeeded_meets sound canResize) ?_
  intro d1 moved
  have exists_ := moved.exists_ (sound.exists_first occupied)
  refine Meets.bind (searchTables_meets moved.sound exists_ key) ?_
  intro found searched
  refine ⟨moved.sound, moved.pauserehash, moved.entries, ?_⟩
  cases found with
  | none => exact fun he member => searched he (moved.entries.mem_iff.mpr member)
  | some ref => exact searched

end Keys

end LearningNotes.Dict
