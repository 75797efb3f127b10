import LearningNotes.Multi.Watch

/-! A transaction runs only if no command reported a change of a key that its client watches. -/

namespace LearningNotes.Multi

open Lib List
open Server (setClient setTable)
open Prod (fst)

variable {V Cmd : Type}

def Op.Touches (dict : Dict V) (key : Key) : Op V → Prop
  | .signalModifiedKey other => other = key
  | .touchAllWatchedKeysInDb emptied replacedWith =>
    key.1 = emptied ∧ existsInEither dict emptied replacedWith key.2 = true
  | _ => False

def touchesFrom (key : Key) : Dict V → List (Op V) → Prop
  | _, [] => False
  | dict, op :: ops => op.Touches dict key ∨ touchesFrom key (op.onDict dict) ops

def Call.Touches (call : Call V) (key : Key) : Prop := touchesFrom key call.before call.ops

def Call.Changes (call : Call V) (key : Key) : Prop := call.after key ≠ call.before key

instance (dict : Dict V) (key : Key) : (op : Op V) → Decidable (op.Touches dict key)
  | .signalModifiedKey other => inferInstanceAs (Decidable (other = key))
  | .touchAllWatchedKeysInDb _ _ => inferInstanceAs (Decidable (_ ∧ _))
  | .write .. | .emptyDb .. | .swapDb .. | .selectDb .. => .isFalse id

instance decidableTouchesFrom (key : Key) : (dict : Dict V) → (ops : List (Op V)) →
    Decidable (touchesFrom key dict ops)
  | _, [] => .isFalse id
  | dict, op :: ops =>
    have := decidableTouchesFrom key (op.onDict dict) ops
    inferInstanceAs (Decidable (_ ∨ _))

instance (call : Call V) (key : Key) : Decidable (call.Touches key) :=
  decidableTouchesFrom key call.before call.ops

instance [DecidableEq V] (call : Call V) (key : Key) : Decidable (call.Changes key) :=
  inferInstanceAs (Decidable (_ ≠ _))

/-- What a client watches is in the tables. -/
structure Linked (s : Server V Cmd) : Prop where
  distinct : ∀ db, ((s.watchedKeys db).map fst).Nodup
  listed : ∀ c, ∀ key ∈ (s.clients c).watchedKeys,
    ∃ clients, (key.2, clients) ∈ s.watchedKeys key.1 ∧ c ∈ clients

section Tables

variable {table : List (Bytes × List Nat)} {name other : Bytes} {c x : Nat} {clients : List Nat}

theorem addWatcher_listed : ∃ clients, (name, clients) ∈ addWatcher table name c ∧ c ∈ clients := by
  rw [addWatcher]
  cases found : fetchClients table name with
  | none => exact ⟨[c], mem_cons_self, mem_singleton_self c⟩
  | some clients =>
    obtain ⟨entry, first, same⟩ := Option.map_eq_some_iff.mp found
    have member := mem_of_find?_eq_some first
    have named : entry.1 = name := by
      simpa using find?_some first
    refine ⟨entry.2 ++ [c], mem_map.mpr ⟨entry, member, ?_⟩, by simp⟩
    rw [if_pos named, named]

theorem addWatcher_keeps (listed : (other, clients) ∈ table) (inside : x ∈ clients) :
    ∃ clients, (other, clients) ∈ addWatcher table name c ∧ x ∈ clients := by
  rw [addWatcher]
  cases fetchClients table name with
  | none => exact ⟨clients, mem_cons_of_mem _ listed, inside⟩
  | some _ =>
    by_cases same : other = name
    · exact ⟨clients ++ [c], mem_map.mpr ⟨_, listed, if_pos same⟩, mem_append_left _ inside⟩
    · exact ⟨clients, mem_map.mpr ⟨_, listed, if_neg same⟩, inside⟩

variable (table name) in
theorem names_of_change (change : List Nat → List Nat) :
    (table.map fun entry => if entry.1 = name then (entry.1, change entry.2) else entry).map fst =
      table.map fst := by
  rw [map_map]
  apply map_congr_left
  intro entry _
  rw [Function.comp_apply]
  split
  · rfl
  · rfl

theorem addWatcher_distinct (distinct : (table.map fst).Nodup) :
    ((addWatcher table name c).map fst).Nodup := by
  rw [addWatcher]
  cases found : fetchClients table name with
  | none =>
    refine nodup_cons.mpr ⟨fun listed => ?_, distinct⟩
    obtain ⟨entry, member, named⟩ := mem_map.mp listed
    exact (keyedMap_eq_none fst Prod.snd).mp found entry member named
  | some _ =>
    exact (names_of_change table name (· ++ [c])).symm ▸ distinct

theorem removeWatcher_keeps (listed : (other, clients) ∈ table) (inside : x ∈ clients)
    (apart : x ≠ c) : ∃ clients, (other, clients) ∈ removeWatcher table name c ∧ x ∈ clients := by
  by_cases same : other = name
  · have stays : x ∈ clients.erase c := (mem_erase_of_ne apart).mpr inside
    refine ⟨clients.erase c, mem_filter.mpr ⟨mem_map.mpr ⟨_, listed, if_pos same⟩, ?_⟩, stays⟩
    -- The list of the key does not get empty.
    have some : clients.erase c ≠ [] := ne_nil_of_mem stays
    simp [some]
  · exact ⟨clients, mem_filter.mpr ⟨mem_map.mpr ⟨_, listed, if_neg same⟩, by simp [same]⟩, inside⟩

theorem removeWatcher_distinct (distinct : (table.map fst).Nodup) :
    ((removeWatcher table name c).map fst).Nodup := by
  have names := names_of_change table name fun clients => clients.erase c
  exact (names ▸ distinct).sublist (filter_sublist.map _)

end Tables

section Marking

variable {s s' : Server V Cmd} {key : Key} {x : Nat}

/-- What is watched stays, and nobody becomes clean. -/
structure Keeps (s s' : Server V Cmd) : Prop where
  tables : s'.watchedKeys = s.watchedKeys
  watched : ∀ x, (s'.clients x).watchedKeys = (s.clients x).watchedKeys
  dirty : ∀ x, (s.clients x).dirtyCas = true → (s'.clients x).dirtyCas = true

theorem Keeps.refl (s : Server V Cmd) : Keeps s s := ⟨rfl, fun _ => rfl, fun _ dirty => dirty⟩

theorem Keeps.trans {s'' : Server V Cmd} (first : Keeps s s') (second : Keeps s' s'') :
    Keeps s s'' where
  tables := second.tables.trans first.tables
  watched := fun x => (second.watched x).trans (first.watched x)
  dirty := fun x dirty => second.dirty x (first.dirty x dirty)

theorem Keeps.linked (keeps : Keeps s s') (linked : Linked s) : Linked s' where
  distinct := by
    rw [keeps.tables]
    exact linked.distinct
  listed := by
    intro c key watched
    rw [keeps.tables]
    exact linked.listed c key (keeps.watched c ▸ watched)

theorem markDirty_keeps (s : Server V Cmd) (marked : List Nat) : Keeps s (markDirty s marked) where
  tables := rfl
  watched := by
    intro x
    rw [markDirty]
    dsimp only
    split
    · rfl
    · rfl
  dirty := by
    intro x dirty
    rw [markDirty]
    dsimp only
    split
    · rfl
    · exact dirty

theorem markDirty_marks {marked : List Nat} (member : x ∈ marked) :
    ((markDirty s marked).clients x).dirtyCas = true := by
  rw [markDirty]
  dsimp only
  rw [if_pos member]

theorem touchWatchedKey_keeps (s : Server V Cmd) (key : Key) : Keeps s (touchWatchedKey s key) := by
  rw [touchWatchedKey]
  split
  · exact .refl s
  · exact markDirty_keeps s _

theorem touchWatchedKey_marks (linked : Linked s) (watched : key ∈ (s.clients x).watchedKeys) :
    ((touchWatchedKey s key).clients x).dirtyCas = true := by
  obtain ⟨clients, listed, inside⟩ := linked.listed x key watched
  have found : fetchClients (s.watchedKeys key.1) key.2 = some clients :=
    (keyedMap_eq_some fst Prod.snd (linked.distinct key.1)).mpr ⟨_, listed, rfl, rfl⟩
  rw [touchWatchedKey, found]
  exact markDirty_marks inside

theorem touchLoop_marks (emptied : Nat) (replacedWith : Option Nat)
    (entries : List (Bytes × List Nat)) (s : Server V Cmd) :
    let after := entries.foldl (fun s entry =>
      if existsInEither s.dict emptied replacedWith entry.1 then markDirty s entry.2 else s) s
    Keeps s after ∧ after.dict = s.dict ∧ ∀ entry ∈ entries,
      existsInEither s.dict emptied replacedWith entry.1 = true →
      ∀ x ∈ entry.2, (after.clients x).dirtyCas = true := by
  induction entries generalizing s with
  | nil => exact ⟨.refl s, rfl, forall_mem_nil _⟩
  | cons first entries ih =>
    -- One round, and what the other rounds keep of it.
    rw [foldl_cons]
    split
    · obtain ⟨keeps, dict, marks⟩ := ih (markDirty s first.2)
      refine ⟨(markDirty_keeps s _).trans keeps, dict, forall_mem_cons.mpr ⟨?_, marks⟩⟩
      intro _ x inside
      exact keeps.dirty x (markDirty_marks inside)
    · rename_i missed
      obtain ⟨keeps, dict, marks⟩ := ih s
      exact ⟨keeps, dict, forall_mem_cons.mpr ⟨fun hit => absurd hit missed, marks⟩⟩

theorem applyOp_keeps (c : Option Nat) (s : Server V Cmd) (op : Op V) :
    Keeps s (applyOp c s op) ∧ (applyOp c s op).dict = op.onDict s.dict ∧
      (Linked s → ∀ x, ∀ key ∈ (s.clients x).watchedKeys, op.Touches s.dict key →
        ((applyOp c s op).clients x).dirtyCas = true) := by
  cases op with
  | write key value => exact ⟨⟨rfl, fun _ => rfl, fun _ dirty => dirty⟩, rfl, fun _ _ _ _ => False.elim⟩
  | emptyDb db => exact ⟨⟨rfl, fun _ => rfl, fun _ dirty => dirty⟩, rfl, fun _ _ _ _ => False.elim⟩
  | swapDb db1 db2 =>
    exact ⟨⟨rfl, fun _ => rfl, fun _ dirty => dirty⟩, rfl, fun _ _ _ _ => False.elim⟩
  | selectDb db =>
    cases c with
    | none => exact ⟨.refl s, rfl, fun _ _ _ _ => False.elim⟩
    | some c =>
      refine ⟨⟨rfl, fun x => ?_, fun x dirty => ?_⟩, rfl, fun _ _ _ _ => False.elim⟩
      · by_cases same : x = c
        · simp [applyOp, setClient, same]
        · simp [applyOp, setClient, same]
      · by_cases same : x = c
        · simpa [applyOp, setClient, same] using same ▸ dirty
        · simpa [applyOp, setClient, same] using dirty
  | signalModifiedKey key =>
    refine ⟨touchWatchedKey_keeps s key, ?_, ?_⟩
    · change (touchWatchedKey s key).dict = s.dict
      rw [touchWatchedKey]
      split
      · rfl
      · rfl
    · intro linked x other watched same
      cases same
      exact touchWatchedKey_marks linked watched
  | touchAllWatchedKeysInDb emptied replacedWith =>
    obtain ⟨keeps, dict, marks⟩ := touchLoop_marks emptied replacedWith (s.watchedKeys emptied) s
    refine ⟨keeps, dict, ?_⟩
    intro linked x key watched touched
    obtain ⟨clients, listed, inside⟩ := linked.listed x key watched
    rw [touched.1] at listed
    exact marks (key.2, clients) listed touched.2 x inside

theorem applyOps_keeps (c : Option Nat) (ops : List (Op V)) (s : Server V Cmd) :
    Keeps s (ops.foldl (applyOp c) s) ∧
      (ops.foldl (applyOp c) s).dict = ops.foldl Op.onDict s.dict ∧
      (Linked s → ∀ x, ∀ key ∈ (s.clients x).watchedKeys, touchesFrom key s.dict ops →
        ((ops.foldl (applyOp c) s).clients x).dirtyCas = true) := by
  induction ops generalizing s with
  | nil => exact ⟨.refl s, rfl, fun _ _ _ _ => False.elim⟩
  | cons op ops ih =>
    obtain ⟨first, values, marks⟩ := applyOp_keeps c s op
    obtain ⟨later, result, marksLater⟩ := ih (applyOp c s op)
    simp only [foldl_cons]
    refine ⟨first.trans later, by rw [result, values], ?_⟩
    intro linked x key watched touched
    rcases touched with now | then_
    · exact later.dirty x (marks linked x key watched now)
    · exact marksLater (first.linked linked) x key (first.watched x ▸ watched) (values ▸ then_)

end Marking

section Steps

variable {commands : Commands V Cmd} {s s' s'' : Server V Cmd} {c : Nat} {calls more : List (Call V)}

/-- What a client does touches others only through reported keys. -/
structure Spares (c : Nat) (s : Server V Cmd) (calls : List (Call V)) (s' : Server V Cmd) :
    Prop where
  linked : Linked s → Linked s'
  watched : ∀ x, x ≠ c → (s'.clients x).watchedKeys = (s.clients x).watchedKeys
  dirty : ∀ x, x ≠ c → (s.clients x).dirtyCas = true → (s'.clients x).dirtyCas = true
  touched : Linked s → ∀ x, x ≠ c → ∀ key ∈ (s.clients x).watchedKeys, ∀ call ∈ calls,
    call.Touches key → (s'.clients x).dirtyCas = true

theorem Spares.trans (first : Spares c s calls s') (second : Spares c s' more s'') :
    Spares c s (calls ++ more) s'' where
  linked := fun linked => second.linked (first.linked linked)
  watched := fun x apart => (second.watched x apart).trans (first.watched x apart)
  dirty := fun x apart dirty => second.dirty x apart (first.dirty x apart dirty)
  touched := by
    intro linked x apart key watched call listed touched
    rcases mem_append.mp listed with early | late
    · exact second.dirty x apart (first.touched linked x apart key watched call early touched)
    · exact second.touched (first.linked linked) x apart key
        (first.watched x apart ▸ watched) call late touched

theorem Spares.of_others (linked : Linked s → Linked s')
    (others : ∀ x, x ≠ c → s'.clients x = s.clients x) : Spares c s [] s' :=
  ⟨linked, fun x apart => by rw [others x apart], fun x apart dirty => by rwa [others x apart],
    fun _ _ _ _ _ => forall_mem_nil _⟩

theorem Spares.refl (c : Nat) (s : Server V Cmd) : Spares c s [] s := .of_others id fun _ _ => rfl

theorem call_spares (commands : Commands V Cmd) (s : Server V Cmd) (c : Nat) (cmd : Cmd) :
    Spares c s [(call commands s c cmd).1] (call commands s c cmd).2 ∧
      Keeps s (call commands s c cmd).2 := by
  obtain ⟨keeps, _, marks⟩ := applyOps_keeps (some c) (commands s.dict (s.clients c).db cmd) s
  refine ⟨⟨keeps.linked, fun x _ => keeps.watched x, fun x _ => keeps.dirty x, ?_⟩, keeps⟩
  intro linked x _ key watched made listed touched
  rw [mem_singleton.mp listed] at touched
  exact marks linked x key watched touched

theorem setClient_spares {client : Client Cmd}
    (fewer : client.watchedKeys ⊆ (s.clients c).watchedKeys) :
    Spares c s [] (s.setClient c client) := by
  have others : ∀ x, x ≠ c → (s.setClient c client).clients x = s.clients x :=
    fun x apart => if_neg apart
  refine .of_others (fun linked => ⟨linked.distinct, ?_⟩) others
  intro x key watched
  by_cases same : x = c
  · have own : (s.setClient c client).clients x = client := if_pos same
    rw [own] at watched
    exact linked.listed x key (same ▸ fewer watched)
  · rw [others x same] at watched
    exact linked.listed x key watched

section

variable (commands s c)

theorem unwatchKeys_tables (c : Nat) (keys : List Key) (s : Server V Cmd) :
    (unwatchKeys s c keys).clients = s.clients ∧
      ((∀ db, ((s.watchedKeys db).map fst).Nodup) →
        ∀ db, (((unwatchKeys s c keys).watchedKeys db).map fst).Nodup) ∧
      ∀ x, x ≠ c → ∀ db name, (∃ clients, (name, clients) ∈ s.watchedKeys db ∧ x ∈ clients) →
        ∃ clients, (name, clients) ∈ (unwatchKeys s c keys).watchedKeys db ∧ x ∈ clients := by
  induction keys generalizing s with
  | nil => exact ⟨rfl, id, fun _ _ _ _ => id⟩
  | cons key keys ih =>
    obtain ⟨clients, distinct, keeps⟩ :=
      ih (s.setTable key.1 (removeWatcher (s.watchedKeys key.1) key.2 c))
    refine ⟨clients, fun before => distinct fun db => ?_, fun x apart db name inside =>
      keeps x apart db name ?_⟩
    · rw [setTable]
      dsimp only
      split
      · exact removeWatcher_distinct (before key.1)
      · exact before db
    · rw [setTable]
      dsimp only
      split
      · rename_i same
        obtain ⟨clients, listed, member⟩ := inside
        exact removeWatcher_keeps (same ▸ listed) member apart
      · exact inside

theorem unwatchAllKeys_spares :
    Spares c s [] (unwatchAllKeys s c) ∧ ((unwatchAllKeys s c).clients c).watchedKeys = [] := by
  obtain ⟨clients, distinct, keeps⟩ := unwatchKeys_tables c (s.clients c).watchedKeys s
  have others : ∀ x, x ≠ c → (unwatchAllKeys s c).clients x = s.clients x := by
    intro x apart
    simp only [unwatchAllKeys, setClient, if_neg apart, clients]
  have own : ((unwatchAllKeys s c).clients c).watchedKeys = [] := by
    simp [unwatchAllKeys, setClient]
  refine ⟨.of_others (fun linked => ⟨distinct linked.distinct, ?_⟩) others, own⟩
  intro x key watched
  by_cases same : x = c
  · rw [same, own] at watched
    cases watched
  · rw [others x same] at watched
    exact keeps x same key.1 key.2 (linked.listed x key watched)

theorem unwatchCommand_spares :
    Spares c s [] (unwatchCommand s c) ∧ ((unwatchCommand s c).clients c).watchedKeys = [] := by
  obtain ⟨spares, none⟩ := unwatchAllKeys_spares s c
  exact ⟨spares.trans (setClient_spares (List.Subset.refl _)), by
    simpa [unwatchCommand, setClient] using none⟩

theorem discardTransaction_spares :
    Spares c s [] (discardTransaction s c) ∧
      ((discardTransaction s c).clients c).watchedKeys = [] := by
  obtain ⟨spares, none⟩ := unwatchAllKeys_spares (s.setClient c
    { s.clients c with mstate := [], multi := false, dirtyCas := false, dirtyExec := false }) c
  have cleared : Spares c s [] (s.setClient c { s.clients c with
      mstate := [], multi := false, dirtyCas := false, dirtyExec := false }) :=
    setClient_spares (List.Subset.refl _)
  exact ⟨cleared.trans spares, none⟩

theorem callQueued_spares (c : Nat) (queued : List (Queued Cmd)) (s : Server V Cmd) :
    Spares c s (callQueued commands c queued s).1 (callQueued commands c queued s).2 ∧
      ∀ call ∈ (callQueued commands c queued s).1, call.client = c := by
  induction queued generalizing s with
  | nil => exact ⟨.refl c s, forall_mem_nil _⟩
  | cons first queued ih =>
    cases first with
    | unwatch =>
      obtain ⟨later, mine⟩ := ih (unwatchCommand s c)
      exact ⟨(unwatchCommand_spares s c).1.trans later, mine⟩
    | other cmd =>
      obtain ⟨later, mine⟩ := ih (call commands s c cmd).2
      exact ⟨(call_spares commands s c cmd).1.trans later, forall_mem_cons.mpr ⟨rfl, mine⟩⟩

theorem watchForKey_spares (name : Bytes) :
    Spares c s [] (watchForKey s c name) ∧
      ((watchForKey s c name).clients c).dirtyCas = (s.clients c).dirtyCas := by
  rw [watchForKey]
  split
  · exact ⟨.refl c s, rfl⟩
  refine ⟨.of_others (fun linked => ⟨fun db => ?_, fun x key watched => ?_⟩) fun x apart => ?_, ?_⟩
  · simp only [setClient, setTable]
    split
    · exact addWatcher_distinct (linked.distinct _)
    · exact linked.distinct db
  · -- A key that was watched before keeps its clients, and the new one gets the client.
    have kept : ∀ other, (∃ clients, (other, clients) ∈ s.watchedKeys key.1 ∧ x ∈ clients) →
        ∃ clients, (other, clients) ∈ ((s.setTable (s.clients c).db
          (addWatcher (s.watchedKeys (s.clients c).db) name c)).watchedKeys key.1) ∧
          x ∈ clients := by
      intro other inside
      rw [setTable]
      dsimp only
      split
      · rename_i same
        obtain ⟨clients, listed, member⟩ := inside
        exact addWatcher_keeps (same ▸ listed) member
      · exact inside
    by_cases same : x = c
    · simp only [setClient, same, if_true, mem_append, mem_singleton] at watched
      rcases watched with old | rfl
      · exact kept key.2 (linked.listed x key (same ▸ old))
      · simp only [setClient, setTable, same]
        exact addWatcher_listed
    · simp only [setClient, same] at watched
      exact kept key.2 (linked.listed x key watched)
  · simp [setClient, setTable, apart]
  · simp [setClient]

theorem watchForKeys_spares (c : Nat) (names : List Bytes) (s : Server V Cmd) :
    Spares c s [] (names.foldl (fun s name => watchForKey s c name) s) ∧
      ((names.foldl (fun s name => watchForKey s c name) s).clients c).dirtyCas =
        (s.clients c).dirtyCas := by
  induction names generalizing s with
  | nil => exact ⟨.refl c s, rfl⟩
  | cons name names ih =>
    obtain ⟨first, clean⟩ := watchForKey_spares s c name
    obtain ⟨later, stays⟩ := ih (watchForKey s c name)
    exact ⟨first.trans later, stays.trans clean⟩

theorem queueMultiCommand_spares (cmd : Queued Cmd) :
    Spares c s [] (queueMultiCommand s c cmd) ∧
      ((queueMultiCommand s c cmd).clients c).dirtyCas = (s.clients c).dirtyCas := by
  rw [queueMultiCommand]
  split
  · exact ⟨.refl c s, rfl⟩
  · exact ⟨setClient_spares (List.Subset.refl _), by simp [setClient]⟩

/-- A client stays dirty unless it stops watching. -/
def StaysDirty (c : Nat) (s s' : Server V Cmd) : Prop :=
  (s'.clients c).watchedKeys = [] ∨
    ((s.clients c).dirtyCas = true → (s'.clients c).dirtyCas = true)

/-- What a client asks for touches others only through reported keys. -/
theorem processCommand_spares (request : Request Cmd) :
    Spares c s (processCommand commands s c request).1 (processCommand commands s c request).2 ∧
      StaysDirty c s (processCommand commands s c request).2 ∧
      ∀ call ∈ (processCommand commands s c request).1, call.client = c := by
  have silent : ∀ call ∈ ([] : List (Call V)), call.client = c := forall_mem_nil _
  cases request with
  | watch names =>
    rw [processCommand]
    split
    · exact ⟨.refl c s, .inr id, silent⟩
    · obtain ⟨spares, same⟩ := watchForKeys_spares c names s
      exact ⟨spares, .inr fun dirty => same.trans dirty, silent⟩
  | unwatch =>
    rw [processCommand]
    split
    · obtain ⟨spares, same⟩ := queueMultiCommand_spares s c .unwatch
      exact ⟨spares, .inr fun dirty => same.trans dirty, silent⟩
    · obtain ⟨spares, none⟩ := unwatchCommand_spares s c
      exact ⟨spares, .inl none, silent⟩
  | multi =>
    exact ⟨setClient_spares (List.Subset.refl _),
      .inr fun dirty => by simpa [processCommand, setClient] using dirty, silent⟩
  | exec expired =>
    rw [processCommand, execCommand]
    split
    · exact ⟨.refl c s, .inr id, silent⟩
    split
    · -- The queued commands run after the keys are unwatched.
      obtain ⟨calls, mine⟩ := callQueued_spares commands c (s.clients c).mstate (unwatchAllKeys s c)
      obtain ⟨ended, none⟩ := discardTransaction_spares
        (callQueued commands c (s.clients c).mstate (unwatchAllKeys s c)).2 c
      have all := ((unwatchAllKeys_spares s c).1.trans calls).trans ended
      rw [append_nil] at all
      exact ⟨all, .inl none, mine⟩
    · obtain ⟨ended, none⟩ := discardTransaction_spares s c
      exact ⟨ended, .inl none, silent⟩
  | discard =>
    rw [processCommand]
    split
    · obtain ⟨ended, none⟩ := discardTransaction_spares s c
      exact ⟨ended, .inl none, silent⟩
    · exact ⟨.refl c s, .inr id, silent⟩
  | reset =>
    obtain ⟨ended, none⟩ :=
      discardTransaction_spares (s.setClient c { s.clients c with db := 0 }) c
    have selected : Spares c s [] (s.setClient c { s.clients c with db := 0 }) :=
      setClient_spares (List.Subset.refl _)
    exact ⟨selected.trans ended, .inl none, silent⟩
  | other cmd =>
    rw [processCommand]
    split
    · obtain ⟨spares, same⟩ := queueMultiCommand_spares s c (.other cmd)
      exact ⟨spares, .inr fun dirty => same.trans dirty, silent⟩
    · obtain ⟨spares, keeps⟩ := call_spares commands s c cmd
      exact ⟨spares, .inr (keeps.dirty c), forall_mem_singleton.mpr rfl⟩

theorem rejectCommand_spares (isExec : Bool) :
    Spares c s [] (rejectCommand s c isExec) ∧ StaysDirty c s (rejectCommand s c isExec) := by
  have flagged : Spares c s [] (if (s.clients c).multi = true then
      s.setClient c { s.clients c with dirtyExec := true } else s) ∧
      ((if (s.clients c).multi = true then
        s.setClient c { s.clients c with dirtyExec := true } else s).clients c).dirtyCas =
        (s.clients c).dirtyCas := by
    split
    · exact ⟨setClient_spares (List.Subset.refl _), by simp [setClient]⟩
    · exact ⟨.refl c s, rfl⟩
  rw [rejectCommand]
  generalize (if (s.clients c).multi = true then
    s.setClient c { s.clients c with dirtyExec := true } else s) = after at flagged
  cases isExec with
  | true =>
    obtain ⟨ended, none⟩ := discardTransaction_spares after c
    exact ⟨flagged.1.trans ended, .inl none⟩
  | false => exact ⟨flagged.1, .inr fun dirty => flagged.2.trans dirty⟩

end

theorem Spares.locks (spares : Spares c s calls s') (own : StaysDirty c s s')
    (mine : ∀ call ∈ calls, call.client = c) (linked : Linked s) {x : Nat} {key : Key}
    (before : key ∈ (s.clients x).watchedKeys) (after : key ∈ (s'.clients x).watchedKeys) :
    ((s.clients x).dirtyCas = true → (s'.clients x).dirtyCas = true) ∧
      ∀ call ∈ calls, call.client ≠ x → call.Touches key → (s'.clients x).dirtyCas = true := by
  by_cases same : x = c
  · subst same
    refine ⟨?_, fun call listed other => absurd (mine call listed) other⟩
    rcases own with none | stays
    · rw [none] at after
      cases after
    · exact stays
  · exact ⟨spares.dirty x same, fun call listed _ =>
      spares.touched linked x same key before call listed⟩

theorem step_locks (commands : Commands V Cmd) (linked : Linked s) (one : Step V Cmd) :
    Linked (step commands s one).2 ∧ ∀ x key, key ∈ (s.clients x).watchedKeys →
      key ∈ ((step commands s one).2.clients x).watchedKeys →
      ((s.clients x).dirtyCas = true → ((step commands s one).2.clients x).dirtyCas = true) ∧
        ∀ call ∈ (step commands s one).1, call.client ≠ x → call.Touches key →
          ((step commands s one).2.clients x).dirtyCas = true := by
  cases one with
  | request c request =>
    obtain ⟨spares, own, mine⟩ := processCommand_spares commands s c request
    exact ⟨spares.linked linked, fun x key => spares.locks own mine linked⟩
  | reject c isExec =>
    obtain ⟨spares, own⟩ := rejectCommand_spares s c isExec
    exact ⟨spares.linked linked, fun x key => spares.locks own (forall_mem_nil _) linked⟩
  | freeClient c =>
    have gone : Spares c s [] ((unwatchAllKeys s c).setClient c newClient) :=
      (unwatchAllKeys_spares s c).1.trans (setClient_spares (nil_subset _))
    have none : StaysDirty c s ((unwatchAllKeys s c).setClient c newClient) :=
      .inl (by simp [setClient, newClient])
    exact ⟨gone.linked linked, fun x key => gone.locks none (forall_mem_nil _) linked⟩
  | background ops =>
    obtain ⟨keeps, _, _⟩ := applyOps_keeps none ops s
    exact ⟨keeps.linked linked, fun x key _ _ => ⟨keeps.dirty x, forall_mem_nil _⟩⟩

end Steps

section Runs

variable {commands : Commands V Cmd} {s : Server V Cmd} {c : Nat} {key : Key}

def Watching (commands : Commands V Cmd) (c : Nat) (key : Key) :
    Server V Cmd → List (Step V Cmd) → Prop
  | s, [] => key ∈ (s.clients c).watchedKeys
  | s, one :: steps =>
    key ∈ (s.clients c).watchedKeys ∧ Watching commands c key (step commands s one).2 steps

instance decidableWatching (commands : Commands V Cmd) (c : Nat) (key : Key) :
    (s : Server V Cmd) → (steps : List (Step V Cmd)) → Decidable (Watching commands c key s steps)
  | s, [] => inferInstanceAs (Decidable (key ∈ (s.clients c).watchedKeys))
  | s, one :: steps =>
    have := decidableWatching commands c key (step commands s one).2 steps
    inferInstanceAs (Decidable (_ ∧ _))

theorem Watching.now {steps : List (Step V Cmd)} (watching : Watching commands c key s steps) :
    key ∈ (s.clients c).watchedKeys := by
  cases steps with
  | nil => exact watching
  | cons one steps => exact watching.1

theorem run_linked (commands : Commands V Cmd) (steps : List (Step V Cmd)) (linked : Linked s) :
    Linked (run commands s steps).2 := by
  induction steps generalizing s with
  | nil => exact linked
  | cons one steps ih => exact ih (step_locks commands linked one).1

theorem run_locks (steps : List (Step V Cmd)) (linked : Linked s)
    (watching : Watching commands c key s steps) :
    ((s.clients c).dirtyCas = true → ((run commands s steps).2.clients c).dirtyCas = true) ∧
      ∀ call ∈ (run commands s steps).1, call.client ≠ c → call.Touches key →
        ((run commands s steps).2.clients c).dirtyCas = true := by
  induction steps generalizing s with
  | nil => exact ⟨id, forall_mem_nil _⟩
  | cons one steps ih =>
    obtain ⟨now, rest⟩ := watching
    obtain ⟨links, locks⟩ := step_locks commands linked one
    obtain ⟨stays, touched⟩ := locks c key now rest.now
    obtain ⟨staysLater, touchedLater⟩ := ih links rest
    refine ⟨fun dirty => staysLater (stays dirty), fun call listed other hit => ?_⟩
    rcases mem_append.mp listed with early | late
    · exact staysLater (touched call early other hit)
    · exact touchedLater call late other hit

/-- A server to which no client has connected yet. -/
structure Fresh (s : Server V Cmd) : Prop where
  unwatched : ∀ db, s.watchedKeys db = []
  idle : ∀ c, (s.clients c).watchedKeys = []

theorem Fresh.linked (fresh : Fresh s) : Linked s where
  distinct := fun db => by simp [fresh.unwatched]
  listed := fun c key watched => by
    rw [fresh.idle] at watched
    cases watched

/-- Where `EXEC` runs the queued commands, no other client has changed a watched key since it was
watched, exactly if all changes of that key by other clients were reported. -/
theorem exec_unchanged_iff_reported (commands : Commands V Cmd) (fresh : Fresh s)
    (earlier later : List (Step V Cmd))
    (watching : Watching commands c key (run commands s earlier).2 later) {expired : Key → Bool}
    (runs : execRuns expired ((run commands (run commands s earlier).2 later).2.clients c) = true) :
    (∀ call ∈ (run commands (run commands s earlier).2 later).1, call.client ≠ c →
      ¬ call.Changes key) ↔
    ∀ call ∈ (run commands (run commands s earlier).2 later).1, call.client ≠ c →
      call.Changes key → call.Touches key := by
  have linked := run_linked commands earlier fresh.linked
  constructor
  · intro unchanged call listed other changes
    exact absurd changes (unchanged call listed other)
  · intro reported call listed other changes
    -- A reported change would have made the client dirty.
    have dirty := (run_locks later linked watching).2 call listed other
      (reported call listed other changes)
    simp [execRuns, dirty] at runs

end Runs

end LearningNotes.Multi
