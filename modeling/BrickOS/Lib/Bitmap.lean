import Mathlib.Data.Nat.Bitwise
import Mathlib.Data.Nat.Count

/-! Bitmaps stored as bytes, least significant bit first. -/
namespace BrickOS.Lib

variable {n : ℕ}

/-- A byte with bit `i % 8` set. -/
def bitMask (i : ℕ) : UInt8 := 1 <<< UInt8.ofNat (i % 8)

/-- The byte that holds bit `i`; bytes behind the map count as zero. -/
def bitByte (m : Vector UInt8 n) (i : ℕ) : UInt8 := m[i / 8]?.getD 0

def bitCheck (m : Vector UInt8 n) (i : ℕ) : Bool := bitByte m i &&& bitMask i != 0

def bitSet (m : Vector UInt8 n) (i : ℕ) : Vector UInt8 n :=
  m.setIfInBounds (i / 8) (bitByte m i ||| bitMask i)

def bitClear (m : Vector UInt8 n) (i : ℕ) : Vector UInt8 n :=
  m.setIfInBounds (i / 8) (bitByte m i &&& ~~~bitMask i)

private theorem toNat_bitMask (i : ℕ) : (bitMask i).toNat = 2 ^ (i % 8) := by
  have h : ∀ k < 8, ((1 : UInt8) <<< UInt8.ofNat k).toNat = 2 ^ k := by decide
  exact h _ (Nat.mod_lt _ (by decide))

private theorem testBit_compl_bitMask (i j : ℕ) :
    (~~~bitMask i).toNat.testBit (j % 8) = decide (i % 8 ≠ j % 8) := by
  have h : ∀ k < 8, ∀ l < 8,
      (~~~((1 : UInt8) <<< UInt8.ofNat k)).toNat.testBit l = decide (k ≠ l) := by decide
  exact h _ (Nat.mod_lt _ (by decide)) _ (Nat.mod_lt _ (by decide))

theorem bitCheck_eq (m : Vector UInt8 n) (i : ℕ) :
    bitCheck m i = (bitByte m i).toNat.testBit (i % 8) := by
  have hzero : bitByte m i &&& bitMask i = 0 ↔ (bitByte m i).toNat.testBit (i % 8) = false := by
    rw [← UInt8.toNat_inj, UInt8.toNat_and, toNat_bitMask, Nat.and_two_pow]
    cases (bitByte m i).toNat.testBit (i % 8) <;> simp
  unfold bitCheck
  cases hb : (bitByte m i).toNat.testBit (i % 8) with
  | false => simp [hzero.mpr hb]
  | true => simp [hzero, hb]

theorem bitCheck_of_le (m : Vector UInt8 n) {i : ℕ} (hi : 8 * n ≤ i) : bitCheck m i = false := by
  have h0 : bitByte m i = 0 := by
    rw [bitByte, Vector.getElem?_eq_none (by omega), Option.getD_none]
  simp [bitCheck, h0]

private theorem bitByte_setIfInBounds (m : Vector UInt8 n) {i : ℕ} (j : ℕ) (b : UInt8)
    (hi : i < 8 * n) : bitByte (m.setIfInBounds (i / 8) b) j =
      if i / 8 = j / 8 then b else bitByte m j := by
  have hin : i / 8 < n := by omega
  unfold bitByte
  rw [Vector.getElem?_setIfInBounds]
  split_ifs with h <;> simp

theorem bitCheck_bitSet (m : Vector UInt8 n) {i : ℕ} (j : ℕ) (hi : i < 8 * n) :
    bitCheck (bitSet m i) j = (decide (j = i) || bitCheck m j) := by
  rw [bitCheck_eq, bitCheck_eq, bitSet, bitByte_setIfInBounds m j _ hi]
  by_cases hbyte : i / 8 = j / 8
  · have hsame : bitByte m i = bitByte m j := by rw [bitByte, bitByte, hbyte]
    have hji : j = i ↔ i % 8 = j % 8 := by omega
    rw [if_pos hbyte, UInt8.toNat_or, Nat.testBit_or, toNat_bitMask, Nat.testBit_two_pow, hsame,
      Bool.or_comm]
    simp only [hji]
  · have hji : j ≠ i := fun h => hbyte (by rw [h])
    rw [if_neg hbyte, decide_eq_false hji, Bool.false_or]

theorem bitCheck_bitClear (m : Vector UInt8 n) {i : ℕ} (j : ℕ) (hi : i < 8 * n) :
    bitCheck (bitClear m i) j = (decide (j ≠ i) && bitCheck m j) := by
  rw [bitCheck_eq, bitCheck_eq, bitClear, bitByte_setIfInBounds m j _ hi]
  by_cases hbyte : i / 8 = j / 8
  · have hsame : bitByte m i = bitByte m j := by rw [bitByte, bitByte, hbyte]
    have hji : j ≠ i ↔ i % 8 ≠ j % 8 := by omega
    rw [if_pos hbyte, UInt8.toNat_and, Nat.testBit_and, testBit_compl_bitMask, hsame,
      Bool.and_comm]
    simp only [hji]
  · have hji : j ≠ i := fun h => hbyte (by rw [h])
    rw [if_neg hbyte, decide_eq_true hji, Bool.true_and]

/-- A byte is given by its eight bits. -/
private theorem byte_ext {b c : UInt8} (h : ∀ k < 8, b.toNat.testBit k = c.toNat.testBit k) :
    b = c := by
  refine UInt8.toNat_inj.mp (Nat.eq_of_testBit_eq fun k => ?_)
  by_cases hk : k < 8
  · exact h k hk
  · have hpow : 2 ^ 8 ≤ 2 ^ k := Nat.pow_le_pow_right (by decide) (by omega)
    rw [Nat.testBit_lt_two_pow (b.toNat_lt.trans_le hpow),
      Nat.testBit_lt_two_pow (c.toNat_lt.trans_le hpow)]

private theorem bitByte_eq (m : Vector UInt8 n) {k l : ℕ} (hk : k < n) (hl : l < 8) :
    bitByte m (8 * k + l) = m[k] := by
  rw [bitByte, show (8 * k + l) / 8 = k by omega, Vector.getElem?_eq_getElem hk, Option.getD_some]

theorem bitmap_ext {m m' : Vector UInt8 n} (h : ∀ i < 8 * n, bitCheck m i = bitCheck m' i) :
    m = m' := by
  refine Vector.ext fun k hk => byte_ext fun l hl => ?_
  have hbit := h (8 * k + l) (by omega)
  rwa [bitCheck_eq, bitCheck_eq, bitByte_eq m hk hl, bitByte_eq m' hk hl,
    show (8 * k + l) % 8 = l by omega] at hbit

theorem bitClear_of_not_bitCheck {m : Vector UInt8 n} {i : ℕ} (hi : i < 8 * n)
    (h : bitCheck m i = false) : bitClear m i = m := by
  refine bitmap_ext fun j _ => ?_
  rw [bitCheck_bitClear m j hi]
  by_cases hj : j = i <;> simp [hj, h]

theorem eq_replicate_iff (m : Vector UInt8 n) (b : UInt8) :
    (m.all fun c => c == b) = true ↔ m = Vector.replicate n b := by
  rw [Vector.all_eq_true, Vector.eq_replicate_iff]
  simp only [beq_iff_eq]
  constructor
  · intro h c hc
    obtain ⟨i, hi, rfl⟩ := Vector.getElem_of_mem hc
    exact h i hi
  · exact fun h i hi => h _ (Vector.getElem_mem hi)

@[simp] theorem bitCheck_replicate_zero (i : ℕ) :
    bitCheck (Vector.replicate n (0 : UInt8)) i = false := by
  have h0 : bitByte (Vector.replicate n (0 : UInt8)) i = 0 := by
    unfold bitByte
    by_cases h : i / 8 < n
    · simp [h]
    · rw [Vector.getElem?_eq_none (by omega), Option.getD_none]
  simp [bitCheck, h0]

theorem bitCheck_replicate_ones {i : ℕ} (hi : i < 8 * n) :
    bitCheck (Vector.replicate n (0xff : UInt8)) i = true := by
  have hone : ∀ k < 8, (0xff : UInt8).toNat.testBit k = true := by decide
  have hbyte : bitByte (Vector.replicate n (0xff : UInt8)) i = 0xff := by
    have h : i / 8 < n := by omega
    simp [bitByte, h]
  rw [bitCheck_eq, hbyte]
  exact hone _ (Nat.mod_lt _ (by decide))

theorem all_zero_iff (m : Vector UInt8 n) :
    (m.all fun c => c == 0) = true ↔ ∀ i < 8 * n, bitCheck m i = false := by
  rw [eq_replicate_iff]
  constructor
  · rintro rfl i _
    simp
  · exact fun h => bitmap_ext fun i hi => by rw [h i hi, bitCheck_replicate_zero]

theorem all_ones_iff (m : Vector UInt8 n) :
    (m.all fun c => c == 0xff) = true ↔ ∀ i < 8 * n, bitCheck m i = true := by
  rw [eq_replicate_iff]
  constructor
  · rintro rfl i hi
    exact bitCheck_replicate_ones hi
  · exact fun h => bitmap_ext fun i hi => by rw [h i hi, bitCheck_replicate_ones hi]

end BrickOS.Lib
