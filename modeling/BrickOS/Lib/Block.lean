import Mathlib.Algebra.Order.Ring.Nat
import Mathlib.Data.List.Basic

/-! Blocks of bytes of a fixed size: reading a byte or a little-endian word, and copying bytes in
at an offset. -/
namespace BrickOS.Lib

def Block (n : ℕ) : Type := Fin n → UInt8

/-- The four bytes of a word, least significant first. -/
def le32 (v : ℕ) : List UInt8 :=
  [UInt8.ofNat v, UInt8.ofNat (v / 2 ^ 8), UInt8.ofNat (v / 2 ^ 16), UInt8.ofNat (v / 2 ^ 24)]

namespace Block
variable {n : ℕ}

def zero : Block n := fun _ => 0

instance : Inhabited (Block n) := ⟨zero⟩

/-- One byte everywhere. -/
def fill (v : UInt8) : Block n := fun _ => v

/-- The byte at `i`, 0 behind the end. -/
def byte (b : Block n) (i : ℕ) : UInt8 := if h : i < n then b ⟨i, h⟩ else 0

/-- The word that starts at byte `i`. -/
def wordAt (b : Block n) (i : ℕ) : ℕ :=
  (b.byte i).toNat + (b.byte (i + 1)).toNat * 2 ^ 8 + (b.byte (i + 2)).toNat * 2 ^ 16 +
    (b.byte (i + 3)).toNat * 2 ^ 24

/-- The long word that starts at byte `i`. -/
def longAt (b : Block n) (i : ℕ) : ℕ := b.wordAt i + b.wordAt (i + 4) * 2 ^ 32

/-- Entry `k` of the block read as an array of words. -/
def word (b : Block n) (k : ℕ) : ℕ := b.wordAt (4 * k)

/-- `memcpy` of `bs` to offset `off`. -/
def blit (b : Block n) (off : ℕ) (bs : List UInt8) : Block n := fun i =>
  if off ≤ i.val ∧ i.val < off + bs.length then bs[i.val - off]?.getD 0 else b i

def setWord (b : Block n) (k v : ℕ) : Block n := b.blit (4 * k) (le32 v)

@[ext] theorem ext {a b : Block n} (h : ∀ i < n, a.byte i = b.byte i) : a = b := by
  funext i
  simpa [byte] using h i i.isLt

@[simp] theorem byte_zero (i : ℕ) : (zero : Block n).byte i = 0 := by
  simp [byte, zero]

theorem byte_fill {v : UInt8} {i : ℕ} (hi : i < n) : (fill v : Block n).byte i = v := dif_pos hi

@[simp] theorem word_zero (k : ℕ) : (zero : Block n).word k = 0 := by
  simp [word, wordAt]

theorem byte_blit {b : Block n} {off i : ℕ} {bs : List UInt8} (hi : i < n) :
    (b.blit off bs).byte i =
      if off ≤ i ∧ i < off + bs.length then bs[i - off]?.getD 0 else b.byte i := by
  simp [byte, blit, hi]

theorem byte_blit_of_lt {b : Block n} {off i : ℕ} {bs : List UInt8} (h : i < off) :
    (b.blit off bs).byte i = b.byte i := by
  by_cases hi : i < n
  · rw [byte_blit hi, if_neg (by omega)]
  · simp [byte, hi]

theorem byte_blit_of_le {b : Block n} {off i : ℕ} {bs : List UInt8} (h : off + bs.length ≤ i) :
    (b.blit off bs).byte i = b.byte i := by
  by_cases hi : i < n
  · rw [byte_blit hi, if_neg (by omega)]
  · simp [byte, hi]

theorem byte_blit_inside {b : Block n} {off j : ℕ} {bs : List UInt8} (hj : j < bs.length)
    (hn : off + bs.length ≤ n) : (b.blit off bs).byte (off + j) = bs[j]?.getD 0 := by
  rw [byte_blit (by omega), if_pos (by omega), Nat.add_sub_cancel_left]

theorem wordAt_blit_le32 {b : Block n} {off v : ℕ} (h : off + 4 ≤ n) (hv : v < 2 ^ 32) :
    (b.blit off (le32 v)).wordAt off = v := by
  have hbyte : ∀ j < 4, (b.blit off (le32 v)).byte (off + j) = (le32 v)[j]?.getD 0 :=
    fun j hj => byte_blit_inside hj h
  have h0 := hbyte 0 (by omega)
  rw [Nat.add_zero] at h0
  unfold wordAt
  rw [h0, hbyte 1 (by omega), hbyte 2 (by omega), hbyte 3 (by omega)]
  simp only [le32, List.getElem?_cons_zero, List.getElem?_cons_succ, Option.getD_some,
    UInt8.toNat_ofNat']
  omega

theorem wordAt_blit_of_disjoint {b : Block n} {off i : ℕ} {bs : List UInt8}
    (h : i + 4 ≤ off ∨ off + bs.length ≤ i) : (b.blit off bs).wordAt i = b.wordAt i := by
  unfold wordAt
  rcases h with h | h
  · rw [byte_blit_of_lt (by omega), byte_blit_of_lt (by omega), byte_blit_of_lt (by omega),
      byte_blit_of_lt (by omega)]
  · rw [byte_blit_of_le (by omega), byte_blit_of_le (by omega), byte_blit_of_le (by omega),
      byte_blit_of_le (by omega)]

theorem word_setWord_self {b : Block n} {k v : ℕ} (h : 4 * k + 4 ≤ n) (hv : v < 2 ^ 32) :
    (b.setWord k v).word k = v := wordAt_blit_le32 h hv

theorem word_setWord_of_ne {b : Block n} {k j v : ℕ} (h : j ≠ k) :
    (b.setWord k v).word j = b.word j := by
  refine wordAt_blit_of_disjoint ?_
  have hlen : (le32 v).length = 4 := rfl
  omega

theorem blit_append (b : Block n) (off : ℕ) (as bs : List UInt8) :
    b.blit off (as ++ bs) = (b.blit off as).blit (off + as.length) bs := by
  ext i hi
  rw [byte_blit hi, byte_blit hi, byte_blit hi, List.length_append]
  by_cases hlt : i < off + as.length
  · rw [if_neg (show ¬ (off + as.length ≤ i ∧ i < off + as.length + bs.length) by omega)]
    by_cases hle : off ≤ i
    · rw [if_pos (by omega), if_pos ⟨hle, hlt⟩, List.getElem?_append_left (by omega)]
    · rw [if_neg (by omega), if_neg (by omega)]
  · rw [if_neg (show ¬ (off ≤ i ∧ i < off + as.length) by omega)]
    by_cases hin : i < off + as.length + bs.length
    · rw [if_pos (by omega), if_pos (by omega), List.getElem?_append_right (by omega), Nat.sub_add_eq]
    · rw [if_neg (by omega), if_neg (by omega)]

theorem wordAt_blit_flatMap (b : Block n) (off : ℕ) (vs : List ℕ) (hv : ∀ v ∈ vs, v < 2 ^ 32)
    (hn : off + 4 * vs.length ≤ n) {i : ℕ} (hi : i < vs.length) :
    (b.blit off (vs.flatMap le32)).wordAt (off + 4 * i) = vs[i] := by
  induction vs generalizing b off i with
  | nil => exact absurd hi (Nat.not_lt_zero i)
  | cons v vs ih =>
    rw [List.length_cons] at hn
    have hlen : (le32 v).length = 4 := rfl
    rw [List.flatMap_cons, blit_append, hlen]
    cases i with
    | zero =>
      rw [wordAt_blit_of_disjoint (by omega)]
      exact wordAt_blit_le32 (by omega) (hv v List.mem_cons_self)
    | succ i =>
      have hrest := ih (b.blit off (le32 v)) (off + 4)
        (fun w hw => hv w (List.mem_cons_of_mem _ hw)) (by omega)
        (Nat.lt_of_succ_lt_succ (by simpa using hi))
      rw [show off + 4 * (i + 1) = off + 4 + 4 * i by omega, hrest, List.getElem_cons_succ]

end Block

end BrickOS.Lib
