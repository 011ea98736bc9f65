import BrickOS.Lib.Block
import BrickOS.Lib.ByteReader

/-! Little-endian words in a byte string whose length counts, and what a read says about it. -/
namespace BrickOS.Lib

/-- The number whose digits are the bytes, least significant first. -/
def leValue : List UInt8 → ℕ
  | [] => 0
  | b :: bs => b.toNat + 2 ^ 8 * leValue bs

/-- The four bytes from `i` on, least significant first. -/
def readLe32 (p : List UInt8) (i : ℕ) : Except Fault ℕ := do
  let bytes ← readBytes p i 4
  return leValue bytes

@[simp] theorem length_le32 (v : ℕ) : (le32 v).length = 4 := rfl

theorem leValue_le32 {v : ℕ} (hv : v < 2 ^ 32) : leValue (le32 v) = v := by
  simp only [le32, leValue, UInt8.toNat_ofNat']
  omega

theorem exists_eq_le32 {bs : List UInt8} (h : bs.length = 4) : ∃ v < 2 ^ 32, bs = le32 v := by
  cases bs with
  | nil => cases h
  | cons a bs =>
    obtain ⟨b, c, d, rfl⟩ := List.length_eq_three.mp (Nat.succ.inj h)
    have ha := a.toNat_lt
    have hb := b.toNat_lt
    have hc := c.toNat_lt
    have hd := d.toNat_lt
    refine ⟨leValue [a, b, c, d], ?_, ?_⟩
    · simp only [leValue]
      omega
    · simp only [le32, leValue, List.cons.injEq, and_true, ← UInt8.toNat_inj, UInt8.toNat_ofNat']
      omega

section

variable {p l l' : List UInt8} {i n v : ℕ}

theorem append_isPrefix_iff : l ++ l' <+: p ↔ l <+: p ∧ l' <+: p.drop l.length := by
  constructor
  · rintro ⟨t, rfl⟩
    exact ⟨⟨l' ++ t, by simp⟩, ⟨t, by simp⟩⟩
  · rintro ⟨⟨t, rfl⟩, ⟨u, hu⟩⟩
    rw [List.drop_left] at hu
    exact ⟨u, by rw [← hu, List.append_assoc]⟩

theorem readBytes_eq_ok (hi : i ≤ p.length) :
    readBytes p i n = .ok l ↔ l.length = n ∧ l <+: p.drop i := by
  unfold readBytes
  split_ifs with h
  · rw [Except.ok.injEq]
    constructor
    · rintro rfl
      exact ⟨by rw [List.length_take, List.length_drop]; omega, List.take_prefix _ _⟩
    · rintro ⟨rfl, hl⟩
      exact (List.prefix_iff_eq_take.mp hl).symm
  · simp only [false_iff, not_and]
    rintro rfl hl
    have hle := hl.length_le
    rw [List.length_drop] at hle
    omega

theorem readLe32_eq_ok : readLe32 p i = .ok v ↔ v < 2 ^ 32 ∧ le32 v <+: p.drop i := by
  rw [readLe32, bind_eq_ok]
  constructor
  · rintro ⟨bs, hbs, hv⟩
    have hi : i ≤ p.length := by
      by_contra hi
      rw [readBytes, if_neg (by omega)] at hbs
      cases hbs
    obtain ⟨hlen, hpre⟩ := (readBytes_eq_ok hi).mp hbs
    obtain ⟨w, hw, rfl⟩ := exists_eq_le32 hlen
    rw [leValue_le32 hw] at hv
    cases hv
    exact ⟨hw, hpre⟩
  · rintro ⟨hv, hpre⟩
    have hle : 4 ≤ (p.drop i).length := hpre.length_le
    rw [List.length_drop] at hle
    exact ⟨le32 v, (readBytes_eq_ok (by omega)).mpr ⟨rfl, hpre⟩, by rw [leValue_le32 hv]; rfl⟩

end

end BrickOS.Lib
