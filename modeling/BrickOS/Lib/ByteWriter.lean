import BrickOS.Lib.ByteReader

/-! Writing into a buffer whose length counts, and numbers as bytes in network order. -/
namespace BrickOS.Lib

/-- The low 16 bits of a number, in network order. -/
def bytes16 (n : ℕ) : List UInt8 := [UInt8.ofNat (n / 2 ^ 8), UInt8.ofNat n]

/-- The low 32 bits of a number, in network order. -/
def bytes32 (n : ℕ) : List UInt8 := bytes16 (n / 2 ^ 16) ++ bytes16 n

/-- The bytes are written over those from `off` on. -/
def writeBytes (p : List UInt8) (off : ℕ) (bytes : List UInt8) : Except Fault (List UInt8) :=
  if off + bytes.length ≤ p.length then .ok (p.take off ++ bytes ++ p.drop (off + bytes.length))
  else .error (.outOfBounds (off + bytes.length - 1))

@[simp] theorem length_bytes16 (n : ℕ) : (bytes16 n).length = 2 := rfl

@[simp] theorem length_bytes32 (n : ℕ) : (bytes32 n).length = 4 := rfl

theorem be16_bytes16 (n : ℕ) (l : List UInt8) : be16 (bytes16 n ++ l) 0 = n % 2 ^ 16 := by
  have hhi : byteAt (bytes16 n ++ l) 0 = n / 2 ^ 8 % 2 ^ 8 := UInt8.toNat_ofNat'
  have hlo : byteAt (bytes16 n ++ l) 1 = n % 2 ^ 8 := UInt8.toNat_ofNat'
  rw [be16, hhi, hlo]
  omega

theorem bytes16_be16 {p : List UInt8} {i : ℕ} (h : i + 1 < p.length) :
    bytes16 (be16 p i) ++ p.drop (i + 2) = p.drop i := by
  have hbyte : ∀ j (hj : j < p.length), byteAt p j = (p.get ⟨j, hj⟩).toNat := by
    intro j hj
    rw [byteAt, List.getElem?_eq_getElem hj]
    rfl
  have hhi : UInt8.ofNat (be16 p i / 2 ^ 8) = p.get ⟨i, by omega⟩ := by
    have hlt := byteAt_lt p (i + 1)
    have hdiv : be16 p i / 2 ^ 8 = byteAt p i := by
      unfold be16
      omega
    rw [hdiv, hbyte i (by omega), UInt8.ofNat_toNat]
  have hlo : UInt8.ofNat (be16 p i) = p.get ⟨i + 1, h⟩ := by
    apply UInt8.toNat_inj.mp
    have hlt := byteAt_lt p (i + 1)
    rw [UInt8.toNat_ofNat', ← hbyte (i + 1) h, be16]
    omega
  rw [bytes16, hhi, hlo, List.drop_eq_getElem_cons (show i < p.length by omega),
    List.drop_eq_getElem_cons h]
  rfl

theorem be32_bytes32 (n : ℕ) (l : List UInt8) : be32 (bytes32 n ++ l) 0 = n % 2 ^ 32 := by
  have hhi : be16 (bytes32 n ++ l) 0 = n / 2 ^ 16 % 2 ^ 16 := by
    rw [bytes32, List.append_assoc, be16_bytes16]
  have hlo : be16 (bytes32 n ++ l) 2 = n % 2 ^ 16 := by
    rw [bytes32, List.append_assoc]
    exact (be16_append_right (bytes16 (n / 2 ^ 16)) _ 0).trans (be16_bytes16 n l)
  rw [be32, hhi, hlo]
  omega

section
variable {p q bytes : List UInt8} {off : ℕ}

theorem writeBytes_of_le (h : off + bytes.length ≤ p.length) :
    writeBytes p off bytes = .ok (p.take off ++ bytes ++ p.drop (off + bytes.length)) := if_pos h

theorem writeBytes_eq_ok (h : writeBytes p off bytes = .ok q) :
    off + bytes.length ≤ p.length ∧ q.length = p.length := by
  by_cases hle : off + bytes.length ≤ p.length
  · rw [writeBytes_of_le hle] at h
    cases h
    refine ⟨hle, ?_⟩
    simp only [List.length_append, List.length_take, List.length_drop]
    omega
  · rw [writeBytes, if_neg hle] at h
    cases h

theorem writeBytes_append {a b c : List UInt8} (ha : a.length = off)
    (hb : b.length = bytes.length) : writeBytes (a ++ b ++ c) off bytes = .ok (a ++ bytes ++ c) := by
  have hle : off + bytes.length ≤ (a ++ b ++ c).length := by
    simp only [List.length_append]
    omega
  have hab : off + bytes.length = (a ++ b).length := by
    rw [List.length_append]
    omega
  rw [writeBytes_of_le hle, hab, List.drop_left, List.append_assoc a b c, ← ha, List.take_left]

theorem writeBytes_field (a f g c : List UInt8) (n m : ℕ) :
    writeBytes (a ++ (f ++ bytes16 n ++ g) ++ c) (a.length + f.length) (bytes16 m) =
      .ok (a ++ (f ++ bytes16 m ++ g) ++ c) := by
  have hassoc : ∀ l : List UInt8, a ++ (f ++ l ++ g) ++ c = (a ++ f) ++ l ++ (g ++ c) := by simp
  rw [hassoc, hassoc]
  exact writeBytes_append List.length_append rfl

end

theorem exists_append_of_length {l : List UInt8} {m n : ℕ} (h : l.length = m + n) :
    ∃ a b, l = a ++ b ∧ a.length = m ∧ b.length = n := by
  refine ⟨l.take m, l.drop m, (List.take_append_drop m l).symm, ?_, ?_⟩
  · rw [List.length_take]
    omega
  · rw [List.length_drop]
    omega

end BrickOS.Lib
