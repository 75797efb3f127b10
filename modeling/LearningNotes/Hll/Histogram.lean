import LearningNotes.Hll.Dense
import Mathlib.Data.List.Nodup

/-! The histogram of a dense representation, which an unrolled loop counts. -/

namespace LearningNotes.Hll

open Lib List

/-- The registers that a round of the loop reads from `r[0]` to `r[11]`. -/
def sixteenRegisters (r : Bytes) : List Nat :=
  let r (i : Nat) := (r.getD i 0).toNat
  [r 0 &&& 63,
    (r 0 >>> 6 ||| r 1 <<< 2) &&& 63,
    (r 1 >>> 4 ||| r 2 <<< 4) &&& 63,
    (r 2 >>> 2) &&& 63,
    r 3 &&& 63,
    (r 3 >>> 6 ||| r 4 <<< 2) &&& 63,
    (r 4 >>> 4 ||| r 5 <<< 4) &&& 63,
    (r 5 >>> 2) &&& 63,
    r 6 &&& 63,
    (r 6 >>> 6 ||| r 7 <<< 2) &&& 63,
    (r 7 >>> 4 ||| r 8 <<< 4) &&& 63,
    (r 8 >>> 2) &&& 63,
    r 9 &&& 63,
    (r 9 >>> 6 ||| r 10 <<< 2) &&& 63,
    (r 10 >>> 4 ||| r 11 <<< 4) &&& 63,
    (r 11 >>> 2) &&& 63]

def increment (reghisto : List Nat) (reg : Nat) : List Nat := reghisto.modify reg (· + 1)

def unrolledHisto : Nat → Bytes → List Nat → List Nat
  | 0, _, reghisto => reghisto
  | rounds + 1, r, reghisto =>
    unrolledHisto rounds (r.drop 12) ((sixteenRegisters r).foldl increment reghisto)

/-- The loop that reads one register after the other with `HLL_DENSE_GET_REGISTER`. -/
def plainHisto (count : Nat) (registers : Bytes) (reghisto : List Nat) : List Nat :=
  ((range count).map (denseGetRegister registers)).foldl increment reghisto

def hllDenseRegHisto (registers : Bytes) (reghisto : List Nat) : List Nat :=
  if hllRegisters = 16384 ∧ hllBits = 6 then unrolledHisto 1024 registers reghisto
  else plainHisto hllRegisters registers reghisto

theorem or_shiftLeft_mask (a b : Nat) {k : Nat} (six : 6 ≤ k) :
    (a ||| b <<< k) &&& hllRegisterMax = a &&& hllRegisterMax := by
  apply Nat.eq_of_testBit_eq
  intro i
  simp only [Nat.testBit_and, Nat.testBit_or, Nat.testBit_shiftLeft, testBit_registerMax]
  by_cases low : i < 6
  · rw [decide_eq_false (show ¬ i ≥ k by omega), Bool.false_and, Bool.or_false]
  · simp [low]

theorem sixteenRegisters_eq (r : Bytes) :
    sixteenRegisters r = (range 16).map (denseGetRegister r) := by
  -- Registers that start or end with their byte have nothing of the next one.
  have start := fun a b => or_shiftLeft_mask a b (show 6 ≤ 8 by decide)
  have stop := fun a b => or_shiftLeft_mask a b (show 6 ≤ 6 by decide)
  simp only [hllRegisterMax] at start stop
  simp [sixteenRegisters, range_succ, denseGetRegister, hllBits, hllRegisterMax, start, stop]

theorem denseGetRegister_drop (r : Bytes) (j : Nat) :
    denseGetRegister (r.drop 12) j = denseGetRegister r (16 + j) := by
  have byte : (16 + j) * 6 / 8 = 12 + j * 6 / 8 := by omega
  have bit : (16 + j) * 6 % 8 = j * 6 % 8 := by omega
  simp only [denseGetRegister, hllBits, byte, bit, getD_eq_getElem?_getD, getElem?_drop,
    Nat.add_assoc]

theorem unrolledHisto_eq (rounds : Nat) (r : Bytes) (reghisto : List Nat) :
    unrolledHisto rounds r reghisto = plainHisto (16 * rounds) r reghisto := by
  induction rounds generalizing r reghisto with
  | zero => rfl
  | succ rounds ih =>
    rw [unrolledHisto, ih, plainHisto, plainHisto, Nat.mul_succ, Nat.add_comm, range_add,
      map_append, foldl_append, map_map, sixteenRegisters_eq]
    congr 2
    funext j
    exact denseGetRegister_drop r j

/-- A counter grows by one for each register with its value. -/
theorem getD_foldl_increment (registers reghisto : List Nat) {value : Nat}
    (inside : value < reghisto.length) :
    (registers.foldl increment reghisto).getD value 0 =
      reghisto.getD value 0 + registers.count value := by
  induction registers generalizing reghisto with
  | nil => rfl
  | cons reg registers ih =>
    have length : (increment reghisto reg).length = reghisto.length := length_modify ..
    rw [foldl_cons, ih _ (length ▸ inside), count_cons, increment, getD_eq_getElem?_getD,
      getD_eq_getElem?_getD, getElem?_modify, getElem?_eq_getElem inside]
    by_cases same : reg = value
    · simp [same, Nat.add_assoc, Nat.add_comm 1]
    · simp [same]

/-- The unrolled loop counts every register of a string once, as the loop over all registers would,
and to set a register changes no other one and nothing behind them. -/
theorem dense_registers_exact (p : Bytes) (size : hllDenseBytes ≤ p.length) :
    (∀ reghisto, hllDenseRegHisto p reghisto = plainHisto hllRegisters p reghisto ∧
      ∀ value < reghisto.length, (hllDenseRegHisto p reghisto).getD value 0 =
        reghisto.getD value 0 + ((range hllRegisters).map (denseGetRegister p)).count value) ∧
    ∀ regnum < hllRegisters, ∀ val ≤ hllRegisterMax,
      (denseSetRegister p regnum val).length = p.length ∧
      ∀ other, denseGetRegister (denseSetRegister p regnum val) other =
        if other = regnum then val else denseGetRegister p other := by
  constructor
  · intro reghisto
    have plain : hllDenseRegHisto p reghisto = plainHisto hllRegisters p reghisto := by
      rw [hllDenseRegHisto, if_pos ⟨rfl, rfl⟩]
      exact unrolledHisto_eq 1024 p reghisto
    refine ⟨plain, fun value inside => ?_⟩
    rw [plain, plainHisto, getD_foldl_increment _ _ inside]
  · intro regnum inside val small
    exact ⟨length_denseSetRegister p regnum val,
      denseGetRegister_set size inside (Nat.lt_succ_of_le small)⟩

/-- Setting the last register leaves the terminator of the string, and is counted once. -/
theorem last_register_set :
    let p := denseSetRegister (replicate (hllDenseBytes + 1) 0) 16383 63
    denseGetRegister p 16384 = 0 ∧ (hllDenseRegHisto p (replicate 64 0)).getD 63 0 = 1 := by
  intro p
  have long : hllDenseBytes ≤ (replicate (hllDenseBytes + 1) (0 : UInt8)).length := by
    rw [length_replicate]
    exact Nat.le_succ _
  obtain ⟨length, set⟩ := (dense_registers_exact _ long).2 16383 (by decide) 63 (by decide)
  have registers : denseGetRegister p = fun other => if other = 16383 then 63 else 0 :=
    funext fun other => (set other).trans (by rw [denseGetRegister_zeros])
  have counted := ((dense_registers_exact p (by rw [length]; exact long)).1
    (replicate 64 0)).2 63 (by decide)
  refine ⟨by rw [registers]; rfl, counted.trans ?_⟩
  -- One index of all has that value.
  rw [registers, count_eq_countP, countP_map]
  have once : ∀ other ∈ range hllRegisters,
      ((· == 63) ∘ fun other => if other = 16383 then 63 else 0) other = true ↔
        (other == 16383) = true := by
    intro other _
    by_cases last : other = 16383 <;> simp [last]
  have listed : 16383 ∈ range hllRegisters := mem_range.mpr (Nat.lt_succ_self 16383)
  rw [countP_congr once, ← count_eq_countP, count_eq_one_of_mem nodup_range listed]
  rfl

end LearningNotes.Hll
