import BrickOS.Basic
import Mathlib.Data.Nat.Bitwise
import Mathlib.Tactic.Common

/-! Virtual addresses and page-table entries, as the macros of `memory.h` take them apart. -/
namespace BrickOS.Memory

def pageFlagPresent : ℕ := 0x1

def pageFlagWrite : ℕ := 1 <<< 1

def pageFlagUser : ℕ := 1 <<< 2

def invalidPhysAddr : ℕ := 2 ^ 64 - 1

def pml4e (a : ℕ) : Fin 512 := Fin.ofNat 512 (a >>> 39)

def pdpte (a : ℕ) : Fin 512 := Fin.ofNat 512 (a >>> 30)

def pde (a : ℕ) : Fin 512 := Fin.ofNat 512 (a >>> 21)

def pte (a : ℕ) : Fin 512 := Fin.ofNat 512 (a >>> 12)

def tablePath (a : ℕ) : List (Fin 512) := [pml4e a, pdpte a, pde a]

def pteGetAddr (value : ℕ) : ℕ := value &&& 0x000ffffffffff000

def canonicalize (addr : ℕ) : ℕ :=
  if addr &&& 1 <<< 47 ≠ 0 then addr ||| 0xffff000000000000 else addr &&& 0x0000ffffffffffff

def present (entry : ℕ) : Bool := entry &&& pageFlagPresent != 0

def pageEntry (physAddr flags : ℕ) : ℕ :=
  (physAddr &&& 0xfffffffffffff000) ||| pageFlagPresent ||| flags

def tableEntry (physAddr flags : ℕ) : ℕ :=
  physAddr ||| pageFlagPresent ||| pageFlagWrite ||| (flags &&& pageFlagUser)

/-- A 64-bit address whose bits from 47 on are all equal. -/
def Canonical (a : ℕ) : Prop := a < 2 ^ 47 ∨ (2 ^ 64 - 2 ^ 47 ≤ a ∧ a < 2 ^ 64)

instance (a : ℕ) : Decidable (Canonical a) := inferInstanceAs (Decidable (_ ∨ _))

theorem page_eq_of_indices {v w : ℕ} (hv : Canonical v) (hw : Canonical w)
    (hpath : tablePath v = tablePath w) (hpte : pte v = pte w) : v / 4096 = w / 4096 := by
  simp only [tablePath, List.cons.injEq, and_true, pml4e, pdpte, pde, Fin.ext_iff, Fin.val_ofNat,
    Nat.shiftRight_eq_div_pow] at hpath
  simp only [pte, Fin.ext_iff, Fin.val_ofNat, Nat.shiftRight_eq_div_pow] at hpte
  unfold Canonical at hv hw
  omega

theorem indices_of_page {v w : ℕ} (h : v / 4096 = w / 4096) :
    tablePath v = tablePath w ∧ pte v = pte w := by
  simp only [tablePath, List.cons.injEq, and_true, pml4e, pdpte, pde, pte, Fin.ext_iff,
    Fin.val_ofNat, Nat.shiftRight_eq_div_pow]
  omega

theorem testBit_low {a i : ℕ} (h : a % 4096 = 0) (hi : i < 12) : a.testBit i = false := by
  obtain ⟨q, rfl⟩ := Nat.dvd_of_mod_eq_zero h
  rw [show 4096 = 2 ^ 12 from rfl, Nat.testBit_two_pow_mul]
  simp [hi]

theorem testBit_high {a i n : ℕ} (h : a < 2 ^ n) (hi : n ≤ i) : a.testBit i = false :=
  Nat.testBit_lt_two_pow (h.trans_le (Nat.pow_le_pow_right (by decide) hi))

theorem testBit_pteGetAddr (value i : ℕ) :
    (pteGetAddr value).testBit i = (decide (12 ≤ i ∧ i < 52) && value.testBit i) := by
  have hmask : 0x000ffffffffff000 = 2 ^ 12 * (2 ^ 40 - 1) := by decide
  rw [pteGetAddr, hmask, Nat.testBit_and, Nat.testBit_two_pow_mul, Nat.testBit_two_pow_sub_one,
    Bool.and_comm, ← Bool.decide_and]
  congr 2
  exact propext (by omega)

theorem testBit_canonicalize {addr : ℕ} (h : addr < 2 ^ 64) (i : ℕ) :
    (canonicalize addr).testBit i =
      if i < 48 then addr.testBit i else (decide (i < 64) && addr.testBit 47) := by
  have hbit : addr &&& 1 <<< 47 ≠ 0 ↔ addr.testBit 47 = true := by
    rw [Nat.one_shiftLeft, Nat.and_two_pow]
    cases addr.testBit 47 <;> simp
  have hhigh : 0xffff000000000000 = 2 ^ 48 * (2 ^ 16 - 1) := by decide
  have hlow : 0x0000ffffffffffff = 2 ^ 48 - 1 := by decide
  unfold canonicalize
  by_cases h47 : addr.testBit 47 = true
  · rw [if_pos (hbit.mpr h47), hhigh, Nat.testBit_or, Nat.testBit_two_pow_mul,
      Nat.testBit_two_pow_sub_one, h47]
    split_ifs with hi
    · simp [hi]
    · by_cases hi64 : i < 64
      · simp [hi64, Nat.not_lt.mp hi, show i - 48 < 16 by omega]
      · simp [hi64, testBit_high h (Nat.not_lt.mp hi64), show ¬ i - 48 < 16 by omega]
  · rw [if_neg (fun hne => h47 (hbit.mp hne)), hlow, Nat.testBit_and, Nat.testBit_two_pow_sub_one]
    split_ifs with hi <;> simp [hi, h47]

theorem testBit_of_canonical {a i : ℕ} (h : Canonical a) (hi : 47 ≤ i) (hi64 : i < 64) :
    a.testBit i = a.testBit 47 := by
  rcases h with h | ⟨h, h64⟩
  · rw [testBit_high h hi, testBit_high h le_rfl]
  · have hbits : ∀ k, 47 ≤ k → k < 64 → a.testBit k = true := by
      intro k hk hk64
      have hsum : a = 2 ^ 47 * (2 ^ 17 - 1) + (a - (2 ^ 64 - 2 ^ 47)) := by omega
      rw [hsum, Nat.testBit_two_pow_mul_add _ (by omega), if_neg (by omega),
        Nat.testBit_two_pow_sub_one, decide_eq_true (by omega)]
    rw [hbits i hi hi64, hbits 47 le_rfl (by omega)]

theorem canonical_of_testBit {a : ℕ} (h64 : a < 2 ^ 64)
    (h : ∀ i, 47 ≤ i → i < 64 → a.testBit i = a.testBit 47) : Canonical a := by
  cases h47 : a.testBit 47 with
  | false =>
    refine Or.inl (Nat.lt_pow_two_of_testBit a fun i hi => ?_)
    by_cases hi64 : i < 64
    · rw [h i hi hi64, h47]
    · exact testBit_high h64 (Nat.not_lt.mp hi64)
  | true =>
    have hdiv : a / 2 ^ 47 = 2 ^ 17 - 1 := by
      refine Nat.eq_of_testBit_eq fun i => ?_
      rw [Nat.testBit_div_two_pow, Nat.testBit_two_pow_sub_one]
      by_cases hi : i < 17
      · rw [h _ (by omega) (by omega), h47, decide_eq_true hi]
      · rw [testBit_high h64 (by omega), decide_eq_false hi]
    exact Or.inr ⟨by omega, h64⟩

theorem present_eq_testBit (entry : ℕ) : present entry = entry.testBit 0 := by
  rw [present, pageFlagPresent, Nat.and_one_is_mod, Nat.testBit_zero]
  rcases Nat.mod_two_eq_zero_or_one entry with h | h <;> rw [h] <;> rfl

@[simp] theorem not_present_zero : present 0 = false := rfl

@[simp] theorem present_pageEntry (physAddr flags : ℕ) :
    present (pageEntry physAddr flags) = true := by
  simp [present_eq_testBit, pageEntry, pageFlagPresent]

@[simp] theorem present_tableEntry (physAddr flags : ℕ) :
    present (tableEntry physAddr flags) = true := by
  simp [present_eq_testBit, tableEntry, pageFlagPresent]

theorem pteGetAddr_aligned (value : ℕ) : pteGetAddr value % 4096 = 0 := by
  refine Nat.eq_of_testBit_eq fun i => ?_
  rw [show 4096 = 2 ^ 12 from rfl, Nat.testBit_mod_two_pow, testBit_pteGetAddr, Nat.zero_testBit]
  by_cases hi : i < 12
  · simp [Nat.not_le.mpr hi]
  · simp [hi]

theorem pteGetAddr_lt (value : ℕ) : pteGetAddr value < 2 ^ 52 := by
  refine Nat.lt_pow_two_of_testBit _ fun i hi => ?_
  simp [testBit_pteGetAddr, Nat.not_lt.mpr hi]

theorem testBit_pageEntry {physAddr flags i : ℕ} (hi : 12 ≤ i) (hi64 : i < 64) :
    (pageEntry physAddr flags).testBit i = (physAddr.testBit i || flags.testBit i) := by
  have hmask : 0xfffffffffffff000 = 2 ^ 12 * (2 ^ 52 - 1) := by decide
  have hone : pageFlagPresent.testBit i = false := testBit_high (n := 1) (by decide) (by omega)
  rw [pageEntry, hmask, Nat.testBit_or, Nat.testBit_or, Nat.testBit_and, Nat.testBit_two_pow_mul,
    Nat.testBit_two_pow_sub_one, hone, decide_eq_true hi,
    decide_eq_true (show i - 12 < 52 by omega)]
  simp

theorem pteGetAddr_eq {value physAddr : ℕ} (haligned : physAddr % 4096 = 0)
    (hphys : physAddr < 2 ^ 52)
    (h : ∀ i, 12 ≤ i → i < 52 → value.testBit i = physAddr.testBit i) :
    pteGetAddr value = physAddr := by
  refine Nat.eq_of_testBit_eq fun i => ?_
  rw [testBit_pteGetAddr]
  by_cases hlow : i < 12
  · simp [Nat.not_le.mpr hlow, testBit_low haligned hlow]
  by_cases hhigh : 52 ≤ i
  · simp [Nat.not_lt.mpr hhigh, testBit_high hphys hhigh]
  rw [decide_eq_true (by omega), Bool.true_and, h i (by omega) (by omega)]

theorem pteGetAddr_tableEntry {physAddr : ℕ} (flags : ℕ) (haligned : physAddr % 4096 = 0)
    (hphys : physAddr < 2 ^ 52) : pteGetAddr (tableEntry physAddr flags) = physAddr := by
  refine pteGetAddr_eq haligned hphys fun i hi _ => ?_
  have hsmall : ∀ f < 2 ^ 3, f.testBit i = false := fun f hf => testBit_high hf (by omega)
  rw [tableEntry, Nat.testBit_or, Nat.testBit_or, Nat.testBit_or, hsmall _ (by decide : pageFlagPresent < 2 ^ 3),
    hsmall _ (by decide : pageFlagWrite < 2 ^ 3),
    hsmall _ (Nat.and_lt_two_pow flags (by decide : pageFlagUser < 2 ^ 3))]
  simp

theorem pteGetAddr_pageEntry {physAddr flags : ℕ} (haligned : physAddr % 4096 = 0)
    (hphys : physAddr < 2 ^ 52) (hflags : flags < 2 ^ 12) :
    pteGetAddr (pageEntry physAddr flags) = physAddr := by
  refine pteGetAddr_eq haligned hphys fun i hi hi52 => ?_
  rw [testBit_pageEntry hi (by omega), testBit_high hflags hi, Bool.or_false]

theorem canonicalize_pageEntry {physAddr flags : ℕ} (hphys : physAddr < 2 ^ 64)
    (hflags : flags < 2 ^ 32) : canonicalize (pteGetAddr (pageEntry physAddr flags)) = physAddr ↔
      physAddr % 4096 = 0 ∧ Canonical physAddr ∧
        ∀ i, 12 ≤ i → flags.testBit i → physAddr.testBit i := by
  have haddr : pteGetAddr (pageEntry physAddr flags) < 2 ^ 64 :=
    (pteGetAddr_lt _).trans (by decide)
  have hbit : ∀ i, (canonicalize (pteGetAddr (pageEntry physAddr flags))).testBit i =
      (decide (12 ≤ i ∧ i < 64) &&
        if i < 47 then physAddr.testBit i || flags.testBit i else physAddr.testBit 47) := by
    intro i
    rw [testBit_canonicalize haddr, testBit_pteGetAddr, testBit_pteGetAddr,
      testBit_pageEntry (i := 47) (by omega) (by omega), testBit_high hflags (by omega)]
    by_cases hlow : i < 12
    · simp [Nat.not_le.mpr hlow, show i < 48 by omega]
    by_cases h47 : i < 47
    · rw [if_pos (by omega), if_pos h47, testBit_pageEntry (by omega) (by omega),
        decide_eq_true (by omega), decide_eq_true (by omega)]
    rw [if_neg h47]
    obtain rfl | h48 := Nat.eq_or_lt_of_le (Nat.not_lt.mp h47)
    · rw [if_pos (by omega), testBit_pageEntry (by omega) (by omega), testBit_high hflags (by omega)]
      simp
    · rw [if_neg (by omega)]
      simp [Nat.not_lt.mp hlow]
  constructor
  · intro h
    rw [h] at hbit
    refine ⟨Nat.eq_of_testBit_eq fun i => ?_, canonical_of_testBit hphys fun i hi hi64 => ?_,
      fun i hi hflag => ?_⟩
    · rw [show 4096 = 2 ^ 12 from rfl, Nat.testBit_mod_two_pow, Nat.zero_testBit]
      by_cases hi : i < 12
      · rw [hbit i]
        simp [Nat.not_le.mpr hi]
      · simp [hi]
    · rw [hbit i, if_neg (by omega), decide_eq_true (by omega), Bool.true_and]
    · have hi32 : i < 32 := by
        by_contra hge
        rw [testBit_high hflags (Nat.not_lt.mp hge)] at hflag
        exact Bool.false_ne_true hflag
      rw [hbit i, if_pos (by omega), decide_eq_true (by omega), hflag, Bool.or_true, Bool.true_and]
  · rintro ⟨haligned, hcanonical, hsub⟩
    refine Nat.eq_of_testBit_eq fun i => ?_
    rw [hbit i]
    by_cases hlow : i < 12
    · simp [Nat.not_le.mpr hlow, testBit_low haligned hlow]
    by_cases h64 : 64 ≤ i
    · simp [Nat.not_lt.mpr h64, testBit_high hphys h64]
    rw [decide_eq_true (by omega), Bool.true_and]
    split_ifs with h47
    · cases hflag : flags.testBit i with
      | false => rw [Bool.or_false]
      | true => rw [hsub i (by omega) hflag, Bool.true_or]
    · exact (testBit_of_canonical hcanonical (by omega) (by omega)).symm

theorem canonicalize_aligned {addr : ℕ} (h : addr < 2 ^ 64) (haligned : addr % 4096 = 0) :
    canonicalize addr % 4096 = 0 := by
  refine Nat.eq_of_testBit_eq fun i => ?_
  rw [show 4096 = 2 ^ 12 from rfl, Nat.testBit_mod_two_pow, Nat.zero_testBit]
  by_cases hi : i < 12
  · rw [testBit_canonicalize h, if_pos (by omega), testBit_low haligned hi, Bool.and_false]
  · simp [hi]

theorem or_offset {a : ℕ} (h : a % 4096 = 0) (w : ℕ) : a ||| (w &&& 0xfff) = a + w % 4096 := by
  obtain ⟨q, rfl⟩ := Nat.dvd_of_mod_eq_zero h
  rw [show 0xfff = 2 ^ 12 - 1 from rfl, Nat.and_two_pow_sub_one_eq_mod,
    show 4096 = 2 ^ 12 from rfl, Nat.two_pow_add_eq_or_of_lt (Nat.mod_lt _ (by decide))]

theorem canonicalize_or_offset (e w : ℕ) : canonicalize (pteGetAddr e) ||| (w &&& 0xfff) =
    canonicalize (pteGetAddr e) + w % 4096 :=
  or_offset (canonicalize_aligned ((pteGetAddr_lt e).trans (by decide)) (pteGetAddr_aligned e)) w

end BrickOS.Memory
