import LearningNotes.Dict.Basic
import LearningNotes.Lib.Maps

/-! What every reachable dict satisfies, and the finite map it stands for. -/

namespace LearningNotes.Dict

open Lib

variable {K V : Type}

def Dictht.entries (ht : Dictht K V) : List (Entry K V) := ht.table.flatten

def entries (d : Dict K V) : List (Entry K V) := d.ht0.entries ++ d.ht1.entries

def toMap [DecidableEq K] (d : Dict K V) (key : K) : Option V :=
  (lookupKey Entry.key d.entries key).map Entry.val

/-- A table whose bookkeeping describes its buckets. -/
structure Dictht.Sound (type : DictType K) (ht : Dictht K V) : Prop where
  length : ht.table.length = ht.size
  power : ht.size = 0 ∨ ∃ bits, bits < 64 ∧ ht.size = 2 ^ bits
  mask : ht.sizemask = BitVec.ofNat 64 (ht.size - 1)
  placed : ∀ (idx : Nat) (chain : List (Entry K V)), ht.table[idx]? = some chain →
    ∀ he ∈ chain, ht.index (type.hashFunction he.key) = idx
  counted : ht.used = ht.entries.length

/-- A dict between two calls. -/
structure Sound (type : DictType K) (d : Dict K V) : Prop where
  first : d.ht0.Sound type
  second : d.ht1.Sound type
  distinct : (d.entries.map Entry.key).Nodup
  idle : d.rehashidx = none → d.ht1 = _dictReset
  /-- While rehashing both tables exist and the buckets passed are empty. -/
  moving : ∀ rehashidx, d.rehashidx = some rehashidx → d.ht0.size ≠ 0 ∧ d.ht1.size ≠ 0 ∧
    ∀ (idx : Nat) (chain : List (Entry K V)), idx < rehashidx →
      d.ht0.table[idx]? = some chain → chain = []
  resident : d.bytesInUse ≤ addressSpace

section Tables

variable {type : DictType K} {ht : Dictht K V}

theorem Dictht.Sound.mask_toNat (sound : ht.Sound type) : ht.sizemask.toNat = ht.size - 1 := by
  rw [sound.mask, BitVec.toNat_ofNat]
  rcases sound.power with empty | ⟨bits, bound, size⟩
  · omega
  · have := Nat.pow_lt_pow_right (by decide : 1 < 2) bound
    omega

/-- The mask selects the bucket by the remainder of the hash. -/
theorem Dictht.Sound.index_eq (sound : ht.Sound type) (exists_ : ht.size ≠ 0)
    (hash : BitVec 64) : ht.index hash = hash.toNat % ht.size := by
  -- Masking with one less than a power of two keeps exactly the low bits.
  rcases sound.power with empty | ⟨bits, _, size⟩
  · exact absurd empty exists_
  · rw [Dictht.index, BitVec.toNat_and, sound.mask_toNat, size, Nat.and_two_pow_sub_one_eq_mod]

theorem Dictht.Sound.index_lt (sound : ht.Sound type) (exists_ : ht.size ≠ 0)
    (hash : BitVec 64) : ht.index hash < ht.table.length := by
  rw [sound.index_eq exists_, sound.length]
  exact Nat.mod_lt _ (by omega)

variable {idx : Nat} {chain : List (Entry K V)}

theorem bucket_eq_ok (present : ht.table[idx]? = some chain) : ht.bucket idx = .ok chain := by
  simp [Dictht.bucket, present]

theorem setBucket_eq_ok (present : ht.table[idx]? = some chain) (new : List (Entry K V)) :
    ht.setBucket idx new = .ok { ht with table := ht.table.set idx new } := by
  have within : idx < ht.table.length := (List.getElem?_eq_some_iff.mp present).1
  simp [Dictht.setBucket, within]

theorem Dictht.Sound.selected (sound : ht.Sound type) (exists_ : ht.size ≠ 0)
    (hash : BitVec 64) : ∃ chain, ht.table[ht.index hash]? = some chain :=
  ⟨_, List.getElem?_eq_getElem (sound.index_lt exists_ hash)⟩

/-- An entry is in the bucket that its hash selects. -/
theorem Dictht.Sound.mem_selected (sound : ht.Sound type) {he : Entry K V}
    (member : he ∈ ht.entries)
    (present : ht.table[ht.index (type.hashFunction he.key)]? = some chain) : he ∈ chain := by
  -- Wherever it stands, placement says that its bucket is the selected one.
  obtain ⟨idx, other, located, inside⟩ := mem_flatten_iff_getElem?.mp member
  have same := sound.placed idx other located he inside
  rw [same, located] at present
  cases present
  exact inside

theorem Dictht.Sound.used_ne_zero (sound : ht.Sound type) (occupied : ht.used ≠ 0) :
    ∃ (idx : Nat) (chain : List (Entry K V)), ht.table[idx]? = some chain ∧ chain ≠ [] := by
  rw [sound.counted] at occupied
  obtain ⟨he, member⟩ := List.exists_mem_of_length_pos (Nat.pos_of_ne_zero occupied)
  obtain ⟨idx, chain, located, inside⟩ := mem_flatten_iff_getElem?.mp member
  exact ⟨idx, chain, located, List.ne_nil_of_mem inside⟩

theorem reset_sound (type : DictType K) : (_dictReset : Dictht K V).Sound type where
  length := rfl
  power := .inl rfl
  mask := rfl
  placed := by intro idx chain located; simp [_dictReset] at located
  counted := rfl

/-- A bucket may be replaced by entries that belong to it, with the count adapted. -/
theorem Dictht.Sound.set (sound : ht.Sound type) {new : List (Entry K V)}
    (belongs : ∀ he ∈ new, ht.index (type.hashFunction he.key) = idx) {used : Nat}
    (counted : used = (ht.table.set idx new).flatten.length) :
    Dictht.Sound type { ht with table := ht.table.set idx new, used := used } where
  length := by simpa using sound.length
  power := sound.power
  mask := sound.mask
  placed := by
    intro at_ chain located he inside
    rw [List.getElem?_set] at located
    split at located
    · split at located
      · cases located
        subst at_
        exact belongs he inside
      · cases located
    · exact sound.placed at_ chain located he inside
  counted := counted

end Tables

theorem create_sound (type : DictType K) : (dictCreate : Dict K V).Sound type where
  first := reset_sound type
  second := reset_sound type
  distinct := List.nodup_nil
  idle := fun _ => rfl
  moving := by intro rehashidx started; cases started
  resident := Nat.zero_le _

theorem create_toMap [DecidableEq K] : (dictCreate : Dict K V).toMap = fun _ => none := rfl

section Maps

variable [DecidableEq K] {type : DictType K} {d d' : Dict K V}

/-- The map does not depend on where the entries are. -/
theorem toMap_perm (distinct : (d.entries.map Entry.key).Nodup)
    (reordered : d.entries.Perm d'.entries) : d'.toMap = d.toMap := by
  exact keyedMap_perm Entry.key Entry.val distinct reordered

variable {key : K}

theorem toMap_eq_some (distinct : (d.entries.map Entry.key).Nodup) {val : V} :
    d.toMap key = some val ↔ ⟨key, val⟩ ∈ d.entries := by
  rw [toMap, Option.map_eq_some_iff]
  constructor
  · rintro ⟨he, found, same⟩
    obtain ⟨member, named⟩ := (lookupKey_eq_some Entry.key distinct).mp found
    subst named same
    exact member
  · intro member
    exact ⟨⟨key, val⟩, (lookupKey_eq_some Entry.key distinct).mpr ⟨member, rfl⟩, rfl⟩

theorem toMap_eq_none : d.toMap key = none ↔ ∀ he ∈ d.entries, he.key ≠ key := by
  rw [toMap, Option.map_eq_none_iff, lookupKey_eq_none]

end Maps

end LearningNotes.Dict
