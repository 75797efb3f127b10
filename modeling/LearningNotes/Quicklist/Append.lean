import LearningNotes.Ziplist.Find

/-! The counts of a quicklist to which a whole ziplist is appended. -/

namespace LearningNotes.Quicklist

open Lib Ziplist List

/-- A node with its ziplist, the size of that, and a count of 16 bits. -/
structure ZiplistNode where
  zl : Bytes
  sz : Nat
  count : Nat
deriving DecidableEq, Repr

end LearningNotes.Quicklist

/-- The nodes from the head to the tail, and the `unsigned long` that counts all entries. -/
structure LearningNotes.Quicklist where
  nodes : List LearningNotes.Quicklist.ZiplistNode
  count : Nat
deriving DecidableEq, Repr

namespace LearningNotes.Quicklist

open Lib Ziplist List

/-- The new node becomes the tail; that the old one may be compressed then changes no count. -/
def quicklistAppendZiplist (quicklist : Quicklist) (zl : Bytes) : Except Fault Quicklist := do
  let (len, zl) ← ziplistLen zl
  let sz ← ziplistBytes zl
  let node : ZiplistNode := ⟨zl, sz, len % 2 ^ 16⟩
  return ⟨quicklist.nodes ++ [node], (quicklist.count + node.count) % 2 ^ 64⟩

variable {peak : Nat} {zl : Bytes} {entries : List Zlentry}

theorem ziplistLen_wellFormed (wellFormed : WellFormed peak zl entries) :
    ∃ counted, ziplistLen zl = .ok (entries.length, counted) ∧
      ziplistBytes counted = .ok zl.length := by
  obtain ⟨length, field, known⟩ : ∃ length, ziplistLength zl = .ok length ∧
      (length < uint16Max → length = entries.length) := by
    refine ⟨_, wellFormed.length, ?_⟩
    split
    · exact fun _ => rfl
    · exact fun less => absurd less (Nat.lt_irrefl _)
  rw [ziplistLen, field, ok_bind]
  split
  · rename_i few
    exact ⟨zl, by rw [known few]; rfl, wellFormed.bytes⟩
  rw [wellFormed.bytes, ok_bind, wellFormed.countEntries_eq, ok_bind]
  split
  · -- The length that is stored lies behind the field of the size.
    have long : 10 ≤ zl.length := by
      rw [← wellFormed.closed, headerSize]
      omega
    refine ⟨zl.take 8 ++ (littleEndian 2 entries.length ++ zl.drop 10), ?_, ?_⟩
    · rw [store, writeAt, length_littleEndian, if_pos long]
      rfl
    · rw [← wellFormed.bytes, ziplistBytes, ziplistBytes, load, load, readAt, readAt,
        if_pos (by simp; omega), if_pos (by omega), drop_zero, drop_zero,
        take_append_of_le_length (by simp; omega), take_take]
      rfl
  · exact ⟨zl, rfl, wellFormed.bytes⟩

theorem quicklistAppendZiplist_eq (quicklist : Quicklist)
    (wellFormed : WellFormed peak zl entries) :
    ∃ counted, quicklistAppendZiplist quicklist zl =
      .ok ⟨quicklist.nodes ++ [⟨counted, zl.length, entries.length % 2 ^ 16⟩],
        (quicklist.count + entries.length % 2 ^ 16) % 2 ^ 64⟩ := by
  obtain ⟨counted, measured, bytes⟩ := ziplistLen_wellFormed wellFormed
  refine ⟨counted, ?_⟩
  rw [quicklistAppendZiplist, measured, ok_bind]
  dsimp only
  rw [bytes]
  rfl

/-- The counts of the tail and of the quicklist are exact just if they have room for the entries. -/
theorem appended_counts_exact_iff (quicklist : Quicklist)
    (wellFormed : WellFormed peak zl entries) :
    ∃ tail count, quicklistAppendZiplist quicklist zl = .ok ⟨quicklist.nodes ++ [tail], count⟩ ∧
      (tail.count = entries.length ∧ count = quicklist.count + entries.length ↔
        entries.length < 2 ^ 16 ∧ quicklist.count + entries.length < 2 ^ 64) := by
  obtain ⟨counted, appended⟩ := quicklistAppendZiplist_eq quicklist wellFormed
  refine ⟨_, _, appended, ?_⟩
  dsimp only
  omega

/-- So many entries with the number zero, which take two bytes each. -/
def zeros (n : Nat) : List Entry := replicate n ⟨false, .int 0⟩

theorem zeros_wellFormed {n : Nat} (few : n ≤ 2 ^ 16) :
    ∃ entries, WellFormed (2 ^ 16) (image uint16Max (zeros n)) entries ∧ entries.length = n := by
  have chain : ∀ n prev, prev < zipBigPrevlen → Chain prev (zeros n) := by
    intro n
    induction n with
    | zero => exact fun _ _ => trivial
    | succ n ih =>
      intro prev small
      exact ⟨⟨fun _ => small, by decide, by decide⟩, ih 2 (by decide)⟩
  have size : ∀ n, totalSize (zeros n) = n * 2 := by
    intro n
    induction n with
    | zero => rfl
    | succ n ih =>
      rw [zeros, replicate_succ, totalSize, ← zeros, ih, Nat.succ_mul, Nat.add_comm]
      rfl
  have represented : Represents (2 ^ 16) (image uint16Max (zeros n)) (zeros n) := by
    refine ⟨⟨_, rfl, by rwa [zeros, length_replicate], rfl⟩, chain n 0 (by decide), ?_⟩
    rw [size, headerSize, endSize, uint32Max]
    omega
  refine ⟨_, represented.wellFormed, ?_⟩
  rw [(decodedAll_facts headerSize 0 0 _).2.1, zeros, length_replicate]

/-- Three entries are counted. -/
theorem three_entries_counted : ∃ entries, WellFormed (2 ^ 16) (image uint16Max (zeros 3)) entries ∧
    ∃ tail count, quicklistAppendZiplist ⟨[], 0⟩ (image uint16Max (zeros 3)) =
      .ok ⟨[tail], count⟩ ∧ tail.count = 3 ∧ count = 3 := by
  obtain ⟨entries, wellFormed, number⟩ := @zeros_wellFormed 3 (by decide)
  obtain ⟨tail, count, appended, exact_⟩ := appended_counts_exact_iff ⟨[], 0⟩ wellFormed
  rw [number] at exact_
  have counts := exact_.mpr (by decide)
  exact ⟨entries, wellFormed, tail, count, appended, counts.1, by simpa using counts.2⟩

/-- A ziplist with 65536 entries adds nothing to the counts. -/
theorem many_entries_not_counted : ∃ zl entries, WellFormed (2 ^ 16) zl entries ∧
    entries.length = 65536 ∧ ∃ tail, quicklistAppendZiplist ⟨[], 0⟩ zl = .ok ⟨[tail], 0⟩ ∧
      tail.count = 0 := by
  obtain ⟨entries, wellFormed, number⟩ := @zeros_wellFormed (2 ^ 16) (Nat.le_refl _)
  obtain ⟨counted, appended⟩ := quicklistAppendZiplist_eq ⟨[], 0⟩ wellFormed
  rw [number] at appended
  exact ⟨_, entries, wellFormed, number, _, appended, rfl⟩

end LearningNotes.Quicklist
