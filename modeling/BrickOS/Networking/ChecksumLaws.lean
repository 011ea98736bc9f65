import BrickOS.Networking.Send

/-! What the internet checksum is good for: a string with its checksum stored in it has the checksum
0, a changed word is noticed, and a checksum taken in parts is that of the whole. -/
namespace BrickOS.Networking
open BrickOS.Lib

def storeChecksum (data : List UInt8) (pos : ℕ) : Except Fault (List UInt8) := do
  let data ← writeBytes data pos [0, 0]
  let sum ← computeChecksum data 0 data.length
  writeBytes data pos (bytes16 sum)

/-- The part of a string that is one of its 16-bit words: two bytes at an even position, or the last
byte of a string of odd length. -/
structure IsWord (before word after : List UInt8) : Prop where
  even : before.length % 2 = 0
  two : word.length = 2 ∨ (word.length = 1 ∧ after = [])

theorem wordSum_lt_of_length {l : List UInt8} (h : l.length < 2 ^ 17) : wordSum l < 2 ^ 32 := by
  have hle := wordSum_le l
  omega

theorem computeChecksum_eq {l : List UInt8} (h : l.length < 2 ^ 17) :
    computeChecksum l 0 l.length = .ok (checksumFinalise (wordSum l)) := by
  have hsum := checksumAccumulate_append (a := []) (c := []) (b := l) (n := 0)
    (by rw [Nat.zero_add]; exact wordSum_lt_of_length h)
  simp only [List.nil_append, List.append_nil, List.length_nil, Nat.zero_add] at hsum
  rw [computeChecksum, hsum]
  rfl

/-! Strings of any length: the sum is that of the words modulo `2 ^ 32`. -/

theorem checksumSum_lt (data : List UInt8) (off len : ℕ) {sum : ℕ} (h : sum < 2 ^ 32) :
    checksumSum data off len sum < 2 ^ 32 := by
  fun_induction checksumSum data off len sum with
  | case1 => exact h
  | case2 off sum => exact Nat.mod_lt _ (by decide)
  | case3 off len sum ih => exact ih (Nat.mod_lt _ (by decide))

theorem checksumSum_mod {data : List UInt8} {off len : ℕ} (sum : ℕ)
    (h : off + len ≤ data.length) :
    checksumSum data off len sum % 2 ^ 32 =
      (sum + wordSum ((data.drop off).take len)) % 2 ^ 32 := by
  fun_induction checksumSum data off len sum with
  | case1 => simp [wordSum]
  | case2 off sum =>
    obtain ⟨hi, hhi, htake⟩ := take_drop_eq_cons (show off < data.length by omega) 0
    rw [htake]
    simp only [List.take_zero, wordSum]
    rw [hhi, Nat.mod_mod]
  | case3 off len sum ih =>
    obtain ⟨hi, hhi, htake⟩ := take_drop_eq_cons (show off < data.length by omega) (len + 1)
    obtain ⟨lo, hlo, htake'⟩ := take_drop_eq_cons (show off + 1 < data.length by omega) len
    rw [ih (by omega), Nat.succ_eq_add_one, htake, htake', show off + 1 + 1 = off + 2 from rfl]
    simp only [wordSum, be16]
    rw [hhi, hlo, Nat.mod_add_mod]
    congr 1
    omega

theorem checksum_eq_wordSum (l : List UInt8) :
    checksum l 0 l.length = checksumFinalise (wordSum l % 2 ^ 32) := by
  have hmod := @checksumSum_mod l 0 l.length 0 (by omega)
  rw [Nat.mod_eq_of_lt (checksumSum_lt l 0 l.length (by decide)), Nat.zero_add, List.drop_zero,
    List.take_length] at hmod
  rw [checksum, hmod]

theorem checksumFinalise_eq_zero_iff {sum : ℕ} (h : sum < 2 ^ 32) :
    checksumFinalise sum = 0 ↔ 0 < sum ∧ sum % 65535 = 0 := by
  have hlt := checksumFold_lt h
  have hmod := checksumFold_mod 3 sum
  unfold checksumFinalise
  constructor
  · intro hzero
    have hfold : checksumFold 3 sum = 65535 := by omega
    refine ⟨Nat.pos_of_ne_zero fun hsum => ?_, by omega⟩
    rw [hsum] at hfold
    exact absurd hfold (by decide)
  · rintro ⟨hpos, hzero⟩
    have hfold := checksumFold_pos (k := 3) hpos
    omega

theorem checksumFinalise_stored_iff {sum : ℕ} (h : sum < 2 ^ 32) :
    checksumFinalise ((sum + checksumFinalise sum) % 2 ^ 32) = 0 ↔
      sum + checksumFinalise sum < 2 ^ 32 := by
  constructor
  · intro hzero
    by_contra hge
    have hmod := ((checksumFinalise_eq_zero_iff (Nat.mod_lt _ (by decide))).mp hzero).2
    have hfold := checksumFold_mod 3 sum
    have hlt := checksumFold_lt h
    unfold checksumFinalise at hmod hge
    omega
  · intro hlt
    rw [Nat.mod_eq_of_lt hlt]
    exact checksumFinalise_add hlt

theorem storeChecksum_eq {f w g : List UInt8} (hw : w.length = 2) (hf : f.length % 2 = 0)
    (hlen : (f ++ w ++ g).length < 2 ^ 17) : ∃ stored, storeChecksum (f ++ w ++ g) f.length =
      .ok stored ∧ stored.length = (f ++ w ++ g).length ∧
        computeChecksum stored 0 stored.length = .ok 0 := by
  have hlength : ∀ n, (f ++ bytes16 n ++ g).length = (f ++ w ++ g).length := by
    intro n
    simp [hw]
  set sum := checksumFinalise (wordSum (f ++ bytes16 0 ++ g)) with hsum
  have hzeroed : writeBytes (f ++ w ++ g) f.length [0, 0] = .ok (f ++ bytes16 0 ++ g) :=
    writeBytes_append rfl hw
  have hcompute : computeChecksum (f ++ bytes16 0 ++ g) 0 (f ++ bytes16 0 ++ g).length =
      .ok sum := computeChecksum_eq (by rw [hlength]; exact hlen)
  have hstore : writeBytes (f ++ bytes16 0 ++ g) f.length (bytes16 sum) =
      .ok (f ++ bytes16 sum ++ g) := writeBytes_append rfl rfl
  refine ⟨f ++ bytes16 sum ++ g, ?_, hlength sum, ?_⟩
  · rw [storeChecksum, hzeroed, ok_bind, hcompute, ok_bind, hstore]
  · have hfield := wordSum_field hf g (checksumFinalise_lt (wordSum (f ++ bytes16 0 ++ g)))
    have hlt := wordSum_lt_of_length (l := f ++ bytes16 sum ++ g) (by rw [hlength]; exact hlen)
    rw [computeChecksum_eq (by rw [hlength]; exact hlen), hsum, hfield, ← hsum]
    rw [hsum, hfield, ← hsum] at hlt
    exact congrArg Except.ok (checksumFinalise_add hlt)

theorem wordSum_isWord {f w g : List UInt8} (h : IsWord f w g) :
    wordSum (f ++ w ++ g) = wordSum f + wordSum w + wordSum g := by
  rw [List.append_assoc, wordSum_append h.even]
  rcases h.two with htwo | ⟨_, rfl⟩
  · rw [wordSum_append (by rw [htwo])]
    omega
  · simp [wordSum]

theorem wordSum_lt {w : List UInt8} (h : w.length ≤ 2) : wordSum w < 2 ^ 16 := by
  have hle := wordSum_le w
  omega

/-- A changed word changes the checksum from 0, unless 0 becomes `0xffff` or the other way round. -/
theorem computeChecksum_changed {f w w' g : List UInt8} (h : IsWord f w g) (h' : IsWord f w' g)
    (hlen : (f ++ w ++ g).length < 2 ^ 17) (hlen' : (f ++ w' ++ g).length < 2 ^ 17)
    (hne : wordSum w ≠ wordSum w')
    (hzero : ¬ (wordSum w = 0 ∧ wordSum w' = 0xffff) ∧ ¬ (wordSum w = 0xffff ∧ wordSum w' = 0))
    (hsum : computeChecksum (f ++ w ++ g) 0 (f ++ w ++ g).length = .ok 0) :
    computeChecksum (f ++ w' ++ g) 0 (f ++ w' ++ g).length ≠ .ok 0 := by
  intro hsum'
  rw [computeChecksum_eq hlen] at hsum
  rw [computeChecksum_eq hlen'] at hsum'
  have hmod := ((checksumFinalise_eq_zero_iff (wordSum_lt_of_length hlen)).mp
    (Except.ok.inj hsum)).2
  have hmod' := ((checksumFinalise_eq_zero_iff (wordSum_lt_of_length hlen')).mp
    (Except.ok.inj hsum')).2
  rw [wordSum_isWord h] at hmod
  rw [wordSum_isWord h'] at hmod'
  have hw : wordSum w < 2 ^ 16 := wordSum_lt (by rcases h.two with h | h <;> omega)
  have hw' : wordSum w' < 2 ^ 16 := wordSum_lt (by rcases h'.two with h | h <;> omega)
  omega

theorem computeUdpChecksumOf_eq {hdr pseudo payload : List UInt8} (hhdr : hdr.length = 8)
    (hpseudo : pseudo.length = 12) (hlen : payload.length < 2 ^ 16) :
    computeUdpChecksumOf hdr 0 pseudo payload =
      computeChecksum (pseudo ++ hdr ++ payload) 0 (pseudo ++ hdr ++ payload).length := by
  have hlength : (pseudo ++ hdr ++ payload).length < 2 ^ 17 := by
    simp only [List.length_append]
    omega
  have hsum : wordSum (pseudo ++ hdr ++ payload) =
      wordSum hdr + wordSum pseudo + wordSum payload := by
    rw [wordSum_append (by simp [hhdr, hpseudo]), wordSum_append (by rw [hpseudo])]
    omega
  have hlt := wordSum_lt_of_length hlength
  rw [hsum] at hlt
  have hparts := computeUdpChecksumOf_append (a := []) (c := []) hhdr hpseudo hlt
  simp only [List.nil_append, List.append_nil, List.length_nil] at hparts
  rw [hparts, computeChecksum_eq hlength, hsum]

/-- The laws of the checksum for strings of up to 65535 bytes. -/
theorem checksum_laws :
    (∀ (data : List UInt8) (pos : ℕ), data.length ≤ 65535 → pos % 2 = 0 →
      pos + 2 ≤ data.length → ∃ stored, storeChecksum data pos = .ok stored ∧
        stored.length = data.length ∧ computeChecksum stored 0 stored.length = .ok 0) ∧
    (∀ f w w' g : List UInt8, IsWord f w g → w'.length = w.length →
      (f ++ w ++ g).length ≤ 65535 → wordSum w ≠ wordSum w' →
      ¬ (wordSum w = 0 ∧ wordSum w' = 0xffff) → ¬ (wordSum w = 0xffff ∧ wordSum w' = 0) →
      computeChecksum (f ++ w ++ g) 0 (f ++ w ++ g).length = .ok 0 →
        computeChecksum (f ++ w' ++ g) 0 (f ++ w' ++ g).length ≠ .ok 0) ∧
    (∀ hdr pseudo payload : List UInt8, hdr.length = 8 → pseudo.length = 12 →
      payload.length ≤ 65535 → computeUdpChecksumOf hdr 0 pseudo payload =
        computeChecksum (pseudo ++ hdr ++ payload) 0 (pseudo ++ hdr ++ payload).length) := by
  refine ⟨?_, ?_, ?_⟩
  · intro data pos hlen hpos hle
    obtain ⟨f, rest, rfl, hf, hrest⟩ := exists_append_of_length
      (show data.length = pos + (data.length - pos) by omega)
    obtain ⟨w, g, rfl, hw, _⟩ := exists_append_of_length
      (show rest.length = 2 + (rest.length - 2) by omega)
    rw [← List.append_assoc] at hlen ⊢
    rw [← hf]
    exact storeChecksum_eq hw (by omega) (by omega)
  · intro f w w' g hword hw hlen hne hup hdown
    have hlength : (f ++ w' ++ g).length = (f ++ w ++ g).length := by
      simp only [List.length_append]
      omega
    exact computeChecksum_changed hword ⟨hword.even, by rw [hw]; exact hword.two⟩ (by omega)
      (by omega) hne ⟨hup, hdown⟩
  · intro hdr pseudo payload hhdr hpseudo hlen
    exact computeUdpChecksumOf_eq hhdr hpseudo (by omega)

/-- Three bytes with a checksum in the first two, which is then changed. -/
theorem checksum_laws_three :
    (∃ stored, storeChecksum [1, 2, 3] 0 = .ok stored ∧ stored.length = 3 ∧
      computeChecksum stored 0 stored.length = .ok 0) ∧
    computeChecksum ([] ++ [0xfc, 0xfe] ++ [3]) 0 3 ≠ .ok 0 ∧
    computeUdpChecksumOf (List.replicate 8 1) 0 (List.replicate 12 2) [3] =
      computeChecksum (List.replicate 12 2 ++ List.replicate 8 1 ++ [3]) 0 21 :=
  ⟨checksum_laws.1 [1, 2, 3] 0 (by decide) rfl (by decide),
    checksum_laws.2.1 [] [0xfc, 0xff] [0xfc, 0xfe] [3] ⟨rfl, .inl rfl⟩ rfl (by decide) (by decide)
      (by decide) (by decide) (by decide),
    checksum_laws.2.2 (List.replicate 8 1) (List.replicate 12 2) [3] rfl rfl (by decide)⟩

end BrickOS.Networking
