import BrickOS.Basic
import BrickOS.Lib.ByteWriter

/-! The internet checksum. -/
namespace BrickOS.Networking
open BrickOS.Lib

def checksumAccumulate (data : List UInt8) : ℕ → ℕ → ℕ → Except Fault ℕ
  | _, 0, sum => .ok sum
  | off, 1, sum => do
    let hi ← readByte data off
    return (sum + hi * 2 ^ 8) % 2 ^ 32
  | off, len + 2, sum => do
    let hi ← readByte data off
    let lo ← readByte data (off + 1)
    checksumAccumulate data (off + 2) len ((sum + (hi * 2 ^ 8 + lo)) % 2 ^ 32)

def checksumFold : ℕ → ℕ → ℕ
  | 0, sum => sum
  | k + 1, sum => if sum / 2 ^ 16 ≠ 0 then checksumFold k (sum % 2 ^ 16 + sum / 2 ^ 16) else sum

def checksumFinalise (sum : ℕ) : ℕ := 2 ^ 16 - 1 - checksumFold 3 sum % 2 ^ 16

def computeChecksum (data : List UInt8) (off len : ℕ) : Except Fault ℕ := do
  let sum ← checksumAccumulate data off len 0
  return checksumFinalise sum

theorem checksumFold_lt {sum : ℕ} (h : sum < 2 ^ 32) : checksumFold 3 sum < 2 ^ 16 := by
  simp only [checksumFold]
  split_ifs <;> omega

def checksumSum (data : List UInt8) : ℕ → ℕ → ℕ → ℕ
  | _, 0, sum => sum
  | off, 1, sum => (sum + byteAt data off * 2 ^ 8) % 2 ^ 32
  | off, len + 2, sum => checksumSum data (off + 2) len ((sum + be16 data off) % 2 ^ 32)

def checksum (data : List UInt8) (off len : ℕ) : ℕ := checksumFinalise (checksumSum data off len 0)

theorem checksumAccumulate_of_le {data : List UInt8} {off len : ℕ} (sum : ℕ)
    (h : off + len ≤ data.length) :
    checksumAccumulate data off len sum = .ok (checksumSum data off len sum) := by
  fun_induction checksumAccumulate data off len sum with
  | case1 => rfl
  | case2 off sum =>
    rw [readByte_of_lt (by omega)]
    rfl
  | case3 off sum len ih =>
    rw [readByte_of_lt (by omega), readByte_of_lt (by omega)]
    simp only [ok_bind]
    rw [ih _ _ (by omega)]
    rfl

theorem computeChecksum_of_le {data : List UInt8} {off len : ℕ} (h : off + len ≤ data.length) :
    computeChecksum data off len = .ok (checksum data off len) := by
  rw [computeChecksum, checksumAccumulate_of_le 0 h]
  rfl

theorem two_le_of_checksum_eq_zero {data : List UInt8} {off len : ℕ}
    (h : checksum data off len = 0) : 2 ≤ len := by
  by_contra hlen
  have hb := byteAt_lt data off
  have hsum : checksumSum data off len 0 < 2 ^ 16 - 1 := by
    rcases len with _ | _ | len
    · simp [checksumSum]
    · simp only [checksumSum]
      omega
    · omega
  have hfold : checksumFold 3 (checksumSum data off len 0) = checksumSum data off len 0 := by
    unfold checksumFold
    rw [if_neg (by omega)]
  rw [checksum, checksumFinalise, hfold] at h
  omega

def wordSum : List UInt8 → ℕ
  | [] => 0
  | [hi] => hi.toNat * 2 ^ 8
  | hi :: lo :: l => hi.toNat * 2 ^ 8 + lo.toNat + wordSum l

theorem wordSum_le (l : List UInt8) : wordSum l ≤ (2 ^ 16 - 1) * ((l.length + 1) / 2) := by
  fun_induction wordSum l with
  | case1 => simp
  | case2 hi =>
    have hhi := hi.toNat_lt
    simp only [List.length_singleton]
    omega
  | case3 hi lo l ih =>
    have hhi := hi.toNat_lt
    have hlo := lo.toNat_lt
    simp only [List.length_cons]
    omega

theorem wordSum_append {l : List UInt8} (h : l.length % 2 = 0) (l' : List UInt8) :
    wordSum (l ++ l') = wordSum l + wordSum l' := by
  fun_induction wordSum l with
  | case1 => simp
  | case2 hi => simp at h
  | case3 hi lo l ih =>
    rw [List.length_cons, List.length_cons] at h
    simp only [List.cons_append, wordSum]
    rw [ih (by omega)]
    omega

theorem wordSum_bytes16 (n : ℕ) : wordSum (bytes16 n) = n % 2 ^ 16 := by
  have hhi : (UInt8.ofNat (n / 2 ^ 8)).toNat = n / 2 ^ 8 % 2 ^ 8 := UInt8.toNat_ofNat'
  have hlo : (UInt8.ofNat n).toNat = n % 2 ^ 8 := UInt8.toNat_ofNat'
  simp only [bytes16, wordSum, hhi, hlo]
  omega

theorem take_drop_eq_cons {data : List UInt8} {off : ℕ} (h : off < data.length) (len : ℕ) :
    ∃ b : UInt8, byteAt data off = b.toNat ∧
      (data.drop off).take (len + 1) = b :: (data.drop (off + 1)).take len := by
  refine ⟨data[off], ?_, ?_⟩
  · rw [byteAt, List.getElem?_eq_getElem h]
    rfl
  · rw [List.drop_eq_getElem_cons h, List.take_succ_cons]

theorem checksumSum_eq {data : List UInt8} {off len sum : ℕ} (h : off + len ≤ data.length)
    (hlt : sum + wordSum ((data.drop off).take len) < 2 ^ 32) :
    checksumSum data off len sum = sum + wordSum ((data.drop off).take len) := by
  fun_induction checksumSum data off len sum with
  | case1 => simp [wordSum]
  | case2 off sum =>
    obtain ⟨hi, hhi, htake⟩ := take_drop_eq_cons (show off < data.length by omega) 0
    rw [htake] at hlt ⊢
    simp only [List.take_zero, wordSum] at hlt ⊢
    rw [hhi, Nat.mod_eq_of_lt hlt]
  | case3 off len sum ih =>
    obtain ⟨hi, hhi, htake⟩ := take_drop_eq_cons (show off < data.length by omega) (len + 1)
    obtain ⟨lo, hlo, htake'⟩ := take_drop_eq_cons (show off + 1 < data.length by omega) len
    rw [Nat.succ_eq_add_one, htake, htake', show off + 1 + 1 = off + 2 from rfl] at hlt ⊢
    simp only [wordSum] at hlt ⊢
    have hword : be16 data off = hi.toNat * 2 ^ 8 + lo.toNat := by rw [be16, hhi, hlo]
    have hmod : (sum + be16 data off) % 2 ^ 32 = sum + be16 data off :=
      Nat.mod_eq_of_lt (by omega)
    rw [ih (by omega) (by omega), hmod]
    omega

section
variable {a b c : List UInt8} {n : ℕ}

theorem checksumSum_append (hlt : n + wordSum b < 2 ^ 32) :
    checksumSum (a ++ b ++ c) a.length b.length n = n + wordSum b := by
  have hle : a.length + b.length ≤ (a ++ b ++ c).length := by
    simp only [List.length_append]
    omega
  have hpart : ((a ++ b ++ c).drop a.length).take b.length = b := by
    rw [List.append_assoc, List.drop_left, List.take_left]
  rw [checksumSum_eq hle (by rwa [hpart]), hpart]

theorem checksumAccumulate_append (hlt : n + wordSum b < 2 ^ 32) :
    checksumAccumulate (a ++ b ++ c) a.length b.length n = .ok (n + wordSum b) := by
  have hle : a.length + b.length ≤ (a ++ b ++ c).length := by
    simp only [List.length_append]
    omega
  rw [checksumAccumulate_of_le n hle, checksumSum_append hlt]

end

theorem checksumFold_mod (k sum : ℕ) : checksumFold k sum % 65535 = sum % 65535 := by
  induction k generalizing sum with
  | zero => rfl
  | succ k ih =>
    rw [checksumFold]
    split_ifs
    · rw [ih]
      omega
    · rfl

theorem checksumFold_pos {k sum : ℕ} (h : 0 < sum) : 0 < checksumFold k sum := by
  induction k generalizing sum with
  | zero => exact h
  | succ k ih =>
    rw [checksumFold]
    split_ifs with hcarry
    · exact ih (by omega)
    · exact h

theorem checksumFinalise_lt (sum : ℕ) : checksumFinalise sum < 2 ^ 16 := by
  unfold checksumFinalise
  omega

theorem wordSum_field {f : List UInt8} (hf : f.length % 2 = 0) (g : List UInt8) {sum : ℕ}
    (hsum : sum < 2 ^ 16) :
    wordSum (f ++ bytes16 sum ++ g) = wordSum (f ++ bytes16 0 ++ g) + sum := by
  have hword : ∀ n, wordSum (f ++ bytes16 n ++ g) = wordSum f + (n % 2 ^ 16 + wordSum g) := by
    intro n
    have heven : (bytes16 n).length % 2 = 0 := by rw [length_bytes16]
    rw [List.append_assoc, wordSum_append hf, wordSum_append heven, wordSum_bytes16]
  rw [hword, hword, Nat.mod_eq_of_lt hsum]
  omega

theorem checksumFinalise_add {sum : ℕ} (h : sum + checksumFinalise sum < 2 ^ 32) :
    checksumFinalise (sum + checksumFinalise sum) = 0 := by
  have hlt := checksumFold_lt (Nat.lt_of_le_of_lt (Nat.le_add_right _ _) h)
  have hmod := checksumFold_mod 3 sum
  have hlt' := checksumFold_lt h
  have hmod' := checksumFold_mod 3 (sum + checksumFinalise sum)
  have hpos : 0 < sum + checksumFinalise sum := by
    rcases Nat.eq_zero_or_pos sum with rfl | hsum
    · decide
    · omega
  have hpos' := checksumFold_pos (k := 3) hpos
  unfold checksumFinalise at *
  omega

end BrickOS.Networking
