import BrickOS.Filesystem.FileMap
import BrickOS.Filesystem.Operations

/-! Reading a file. `fs_read` stops where it finds no sector, and does not look at the size. -/
namespace BrickOS.Filesystem
open BrickOS.Lib

def Inode.byteAt (disk : ℕ → Sector) (n : Inode) (pos : ℕ) : Option UInt8 :=
  let sector := n.ptr disk (dataPlace (pos / 512))
  if pos < n.size ∧ sector ≠ 0 then some ((disk (lba28 sector)).byte (pos % 512)) else none

def Inode.lookupReads (disk : ℕ → Sector) (n : Inode) (i : ℕ) : List ℕ :=
  if i < 11 then []
  else if i < 128 + 11 then [n.indirectSector]
  else [n.dIndirectSector, (disk (lba28 n.dIndirectSector)).word ((i - (128 + 11)) / 128)]

structure ReadTrace where
  bytes : List UInt8
  sectors : List ℕ
deriving DecidableEq

def readTrace (disk : ℕ → Sector) (n : Inode) : ℕ → ℕ → ℕ → ReadTrace
  | 0, _, _ => ⟨[], []⟩
  | k + 1, readPos, size =>
    if size = 0 ∨ readPos / 512 ≥ maxFileSectors then ⟨[], []⟩
    else
      let sector := n.lookup disk (readPos / 512)
      let tables := n.lookupReads disk (readPos / 512)
      if sector = 0 then ⟨[], tables⟩
      else
        let sectorOffset := readPos % 512
        let toRead := min size (512 - sectorOffset)
        let bytes := (List.range toRead).map fun i =>
          (disk (lba28 sector)).byte (sectorOffset + i)
        let rest := readTrace disk n k (readPos + toRead) (size - toRead)
        ⟨bytes ++ rest.bytes, tables ++ sector :: rest.sectors⟩

def readSize (n : Inode) (size : ℕ) : ℕ := if size = fileReadAll then n.size else size

/-- What a read from `pos` on is for: no more bytes than the file has there, each of them the
file's own, and found without a pointer that is missing. -/
structure Inode.ReadsOwn (disk : ℕ → Sector) (n : Inode) (pos : ℕ) (t : ReadTrace)
    (result : Except FileError (List UInt8)) : Prop where
  count : ∀ bytes, result = .ok bytes → bytes.length ≤ n.size - pos
  own : ∀ i b, t.bytes[i]? = some b → n.byteAt disk (pos + i) = some b
  follows : 0 ∉ t.sectors

/-- At every index from that of `pos` on, as far as the range and the sectors go, the pointer blocks
are there, and so much of the range as lies in the sector lies in the file. -/
def Inode.ReadClear (disk : ℕ → Sector) (n : Inode) (pos size : ℕ) : Prop :=
  ∀ i, pos / 512 ≤ i → max pos (512 * i) < pos + size → i < maxFileSectors →
    (∀ j, pos / 512 ≤ j → j < i → n.lookup disk j ≠ 0) →
      0 ∉ n.lookupReads disk i ∧
        (n.lookup disk i ≠ 0 → min (pos + size) (512 * (i + 1)) ≤ n.size)

def Inode.Reaches (disk : ℕ → Sector) (n : Inode) (pos p : ℕ) : Prop :=
  ∀ j, pos / 512 ≤ j → j ≤ p / 512 → n.lookup disk j ≠ 0

section trace
variable {disk : ℕ → Sector} {n : Inode} {i : ℕ}

theorem readTrace_stop {k pos size : ℕ} (h : size = 0 ∨ pos / 512 ≥ maxFileSectors) :
    readTrace disk n k pos size = ⟨[], []⟩ := by
  cases k with
  | zero => rfl
  | succ k => rw [readTrace, if_pos h]

theorem lookupReads_iff (disk : ℕ → Sector) (n : Inode) (i : ℕ) :
    0 ∉ n.lookupReads disk i ↔ ∀ t ∈ (dataPlace i).tables, n.ptr disk t ≠ 0 := by
  unfold Inode.lookupReads dataPlace
  by_cases h₁ : i < 11
  · rw [if_pos h₁, dif_pos h₁]
    simp [Place.tables]
  rw [if_neg h₁, dif_neg h₁]
  by_cases h₂ : i < 128 + 11
  · rw [if_pos h₂, if_pos h₂]
    simp [Place.tables, Inode.ptr, eq_comm]
  · rw [if_neg h₂, if_neg h₂]
    by_cases hd : n.dIndirectSector = 0
    · simp [Place.tables, Inode.ptr, hd]
    · simp [Place.tables, Inode.ptr, blockEntry_of_ne hd, eq_comm]

theorem byteAt_of_lookup {pos : ℕ} (hi : pos / 512 < maxFileSectors)
    (htables : 0 ∉ n.lookupReads disk (pos / 512)) (hsector : n.lookup disk (pos / 512) ≠ 0) :
    n.byteAt disk pos = if pos < n.size then
      some ((disk (lba28 (n.lookup disk (pos / 512)))).byte (pos % 512)) else none := by
  have heq := lookup_eq_ptr hi ((lookupReads_iff disk n _).mp htables)
  rw [heq] at hsector
  unfold Inode.byteAt
  rw [heq]
  by_cases hpos : pos < n.size
  · rw [if_pos hpos, if_pos ⟨hpos, hsector⟩]
  · rw [if_neg hpos, if_neg (fun h => hpos h.1)]

/-- The first sector of a range, and the rest. -/
theorem readClear_iff {pos size : ℕ} (hsize : size ≠ 0) (hi : pos / 512 < maxFileSectors)
    (hsector : n.lookup disk (pos / 512) ≠ 0) :
    n.ReadClear disk pos size ↔
      0 ∉ n.lookupReads disk (pos / 512) ∧ pos + min size (512 - pos % 512) ≤ n.size ∧
        n.ReadClear disk (pos + min size (512 - pos % 512)) (size - min size (512 - pos % 512)) := by
  have hmin : min (pos + size) (512 * (pos / 512 + 1)) = pos + min size (512 - pos % 512) := by
    omega
  -- what is left starts with the next sector, or is empty
  have hnext : size - min size (512 - pos % 512) ≠ 0 →
      (pos + min size (512 - pos % 512)) / 512 = pos / 512 + 1 := by omega
  constructor
  · intro h
    obtain ⟨htables, hle⟩ := h (pos / 512) le_rfl (by omega) hi fun j hj hlt => by omega
    refine ⟨htables, hmin ▸ hle hsector, fun i hle' hlt hmax hbefore => ?_⟩
    have hrest : size - min size (512 - pos % 512) ≠ 0 := by omega
    rw [hnext hrest] at hle' hbefore
    have hsum : pos + min size (512 - pos % 512) + (size - min size (512 - pos % 512)) =
        pos + size := by omega
    rw [hsum] at hlt ⊢
    refine h i (by omega) (by omega) hmax fun j hj hji => ?_
    rcases Nat.eq_or_lt_of_le hj with rfl | hj
    · exact hsector
    · exact hbefore j hj hji
  · rintro ⟨htables, hle, hrest⟩ i hle' hlt hmax hbefore
    rcases Nat.eq_or_lt_of_le hle' with rfl | hlt'
    · exact ⟨htables, fun _ => hmin.le.trans hle⟩
    · have hne : size - min size (512 - pos % 512) ≠ 0 := by omega
      have hsum : pos + min size (512 - pos % 512) + (size - min size (512 - pos % 512)) =
          pos + size := by omega
      have hi' := hrest i (by rw [hnext hne]; omega) (by omega) hmax fun j hj hji =>
        hbefore j (by rw [hnext hne] at hj; omega) hji
      rwa [hsum] at hi'

theorem forall_getElem?_append {α : Type} (l m : List α) (P : ℕ → α → Prop) :
    (∀ i a, (l ++ m)[i]? = some a → P i a) ↔
      (∀ i a, l[i]? = some a → P i a) ∧ ∀ i a, m[i]? = some a → P (l.length + i) a := by
  constructor
  · intro h
    refine ⟨fun i a ha => h i a ?_, fun i a ha => h _ a ?_⟩
    · rw [List.getElem?_append_left (List.getElem?_eq_some_iff.mp ha).1, ha]
    · rw [List.getElem?_append_right (Nat.le_add_right _ _), Nat.add_sub_cancel_left, ha]
  · rintro ⟨hl, hm⟩ i a ha
    by_cases hi : i < l.length
    · rw [List.getElem?_append_left hi] at ha
      exact hl i a ha
    · rw [List.getElem?_append_right (Nat.not_lt.mp hi)] at ha
      have hp := hm _ a ha
      rwa [Nat.add_sub_cancel' (Nat.not_lt.mp hi)] at hp

/-- The first `m` bytes from `pos` on, all in one sector, are the file's own exactly if the file
reaches so far. -/
theorem own_chunk_iff {pos m : ℕ} (hi : pos / 512 < maxFileSectors)
    (htables : 0 ∉ n.lookupReads disk (pos / 512)) (hsector : n.lookup disk (pos / 512) ≠ 0)
    (hm : 0 < m) (hle : pos % 512 + m ≤ 512) :
    (∀ i b, ((List.range m).map fun i => (disk (lba28 (n.lookup disk (pos / 512)))).byte
        (pos % 512 + i))[i]? = some b → n.byteAt disk (pos + i) = some b) ↔ pos + m ≤ n.size := by
  have hbyte : ∀ i < m, n.byteAt disk (pos + i) = if pos + i < n.size then
      some ((disk (lba28 (n.lookup disk (pos / 512)))).byte (pos % 512 + i)) else none := by
    intro i him
    have hdiv : (pos + i) / 512 = pos / 512 := by omega
    have hmod : (pos + i) % 512 = pos % 512 + i := by omega
    rw [← hdiv] at hi htables hsector
    rw [byteAt_of_lookup hi htables hsector, hdiv, hmod]
  constructor
  · intro h
    have hlast := h (m - 1) _ (by
      rw [List.getElem?_map, List.getElem?_range (by omega), Option.map_some])
    rw [hbyte _ (by omega)] at hlast
    by_contra hnot
    rw [if_neg (by omega)] at hlast
    cases hlast
  · intro hle' i b hb
    rw [List.getElem?_map] at hb
    obtain ⟨j, hj, rfl⟩ := Option.map_eq_some_iff.mp hb
    obtain ⟨him, rfl⟩ := List.getElem?_eq_some_iff.mp hj
    rw [List.length_range] at him
    rw [hbyte i him, if_pos (by omega), List.getElem_range]

theorem readTrace_own_iff (disk : ℕ → Sector) (n : Inode) {k pos size : ℕ} (hk : size ≤ k) :
    ((∀ i b, (readTrace disk n k pos size).bytes[i]? = some b →
        n.byteAt disk (pos + i) = some b) ∧
      0 ∉ (readTrace disk n k pos size).sectors) ↔ n.ReadClear disk pos size := by
  induction k generalizing pos size with
  | zero =>
    obtain rfl := Nat.le_zero.mp hk
    rw [readTrace_stop (.inl rfl)]
    refine iff_of_true ⟨fun i b h => by simp at h, by simp⟩ fun i _ hlt _ _ => ?_
    omega
  | succ k ih =>
    by_cases hstop : size = 0 ∨ pos / 512 ≥ maxFileSectors
    · rw [readTrace_stop hstop]
      refine iff_of_true ⟨fun i b h => by simp at h, by simp⟩ fun i hle hlt hmax _ => ?_
      omega
    obtain ⟨hsize, hmax⟩ := not_or.mp hstop
    have hmax : pos / 512 < maxFileSectors := Nat.not_le.mp hmax
    rw [readTrace, if_neg hstop]
    dsimp only
    by_cases hsector : n.lookup disk (pos / 512) = 0
    · rw [if_pos hsector]
      constructor
      · rintro ⟨-, hfollows⟩ i hle hlt hi hbefore
        rcases Nat.eq_or_lt_of_le hle with rfl | hlt'
        · exact ⟨hfollows, fun hne => absurd hsector hne⟩
        · exact absurd hsector (hbefore _ le_rfl hlt')
      · intro h
        exact ⟨fun i b h => by simp at h,
          (h (pos / 512) le_rfl (by omega) hmax fun j hj hlt => by omega).1⟩
    have hrest := @ih (pos + min size (512 - pos % 512)) (size - min size (512 - pos % 512))
      (by omega)
    rw [if_neg hsector, readClear_iff hsize hmax hsector, ← hrest, forall_getElem?_append,
      List.mem_append, List.mem_cons, not_or, not_or, List.length_map, List.length_range]
    constructor
    · rintro ⟨⟨hchunk, hafter⟩, htables, -, hfollows⟩
      refine ⟨htables, (own_chunk_iff hmax htables hsector (by omega) (by omega)).mp hchunk, ?_,
        hfollows⟩
      exact fun i b hb => Nat.add_assoc pos _ i ▸ hafter i b hb
    · rintro ⟨htables, hle, hafter, hfollows⟩
      refine ⟨⟨(own_chunk_iff hmax htables hsector (by omega) (by omega)).mpr hle, ?_⟩, htables,
        fun h => hsector h.symm, hfollows⟩
      exact fun i b hb => Nat.add_assoc pos _ i ▸ hafter i b hb

theorem readTrace_getElem?_iff {k pos size i : ℕ} {b : UInt8} (hk : size ≤ k) :
    (readTrace disk n k pos size).bytes[i]? = some b ↔
      i < size ∧ n.Reaches disk pos (pos + i) ∧
        (disk (lba28 (n.lookup disk ((pos + i) / 512)))).byte ((pos + i) % 512) = b := by
  induction k generalizing pos size i with
  | zero =>
    obtain rfl := Nat.le_zero.mp hk
    rw [readTrace_stop (.inl rfl)]
    simp
  | succ k ih =>
    by_cases hsize : size = 0
    · rw [readTrace_stop (.inl hsize)]
      simp [hsize]
    have hfirst : pos / 512 ≤ (pos + i) / 512 := Nat.div_le_div_right (Nat.le_add_right _ _)
    by_cases hmax : pos / 512 ≥ maxFileSectors
    · rw [readTrace_stop (.inr hmax)]
      have hnone : n.lookup disk (pos / 512) = 0 := if_pos hmax
      refine iff_of_false (by simp) fun h => ?_
      exact h.2.1 (pos / 512) le_rfl hfirst hnone
    rw [readTrace, if_neg (not_or.mpr ⟨hsize, hmax⟩)]
    dsimp only
    by_cases hsector : n.lookup disk (pos / 512) = 0
    · rw [if_pos hsector]
      refine iff_of_false (by simp) fun h => ?_
      exact h.2.1 (pos / 512) le_rfl hfirst hsector
    rw [if_neg hsector]
    by_cases hi : i < min size (512 - pos % 512)
    · have hdiv : (pos + i) / 512 = pos / 512 := by omega
      have hmod : (pos + i) % 512 = pos % 512 + i := by omega
      have hreaches : n.Reaches disk pos (pos + i) := by
        intro j hj hj'
        rwa [show j = pos / 512 by omega]
      rw [List.getElem?_append_left (by simpa using hi), List.getElem?_map,
        List.getElem?_range hi, Option.map_some, Option.some_inj, hdiv, hmod]
      exact ⟨fun h => ⟨by omega, hreaches, h⟩, fun h => h.2.2⟩
    · rw [List.getElem?_append_right (by rw [List.length_map, List.length_range]; omega),
        List.length_map, List.length_range, ih (by omega)]
      by_cases hlt : i < size
      · have hsum : pos + min size (512 - pos % 512) + (i - min size (512 - pos % 512)) =
            pos + i := by omega
        have hnext : (pos + min size (512 - pos % 512)) / 512 = pos / 512 + 1 := by omega
        have hreaches : n.Reaches disk (pos + min size (512 - pos % 512)) (pos + i) ↔
            n.Reaches disk pos (pos + i) := by
          unfold Inode.Reaches
          rw [hnext]
          constructor
          · intro h j hj hj'
            rcases Nat.eq_or_lt_of_le hj with rfl | hj
            · exact hsector
            · exact h j hj hj'
          · exact fun h j hj hj' => h j (by omega) hj'
        rw [hsum, hreaches]
        exact and_congr_left fun _ => ⟨fun _ => hlt, fun _ => by omega⟩
      · exact iff_of_false (fun h => by omega) fun h => hlt h.1

theorem byteAt_isSome {pos : ℕ} (h : (n.byteAt disk pos).isSome) :
    n.lookup disk (pos / 512) ≠ 0 ∧ n.byteAt disk pos =
      some ((disk (lba28 (n.lookup disk (pos / 512)))).byte (pos % 512)) := by
  unfold Inode.byteAt at h ⊢
  dsimp only at h ⊢
  by_cases hown : pos < n.size ∧ n.ptr disk (dataPlace (pos / 512)) ≠ 0
  · rw [lookup_eq_ptr (lt_maxFileSectors hown.2) (ptr_tables hown.2)]
    exact ⟨hown.2, if_pos hown⟩
  · rw [if_neg hown] at h
    cases h

theorem byteAt_lt {pos : ℕ} (h : (n.byteAt disk pos).isSome) : pos < n.size := by
  by_contra hge
  unfold Inode.byteAt at h
  rw [if_neg fun hand => hge hand.1] at h
  cases h

theorem readTrace_eq_byteAt {pos size i : ℕ} (hi : i < size)
    (hall : ∀ k ≤ i, (n.byteAt disk (pos + k)).isSome) :
    (readTrace disk n size pos size).bytes[i]? = n.byteAt disk (pos + i) := by
  rw [(byteAt_isSome (hall i le_rfl)).2]
  refine (readTrace_getElem?_iff le_rfl).mpr ⟨hi, fun j hj hj' => ?_, rfl⟩
  by_cases hfirst : j = pos / 512
  · rw [hfirst]
    exact (byteAt_isSome (hall 0 (Nat.zero_le i))).1
  · have hbyte := (byteAt_isSome (hall (512 * j - pos) (by omega))).1
    rwa [show (pos + (512 * j - pos)) / 512 = j by omega] at hbyte

end trace

section read
variable {s : Storage} {n : Inode}

theorem fsReadLoop_trace (n : Inode) (k pos size : ℕ) (acc : List UInt8) (hc : s.Coherent) :
    ∃ s' result, fsReadLoop k s n pos size acc = some (s', result) ∧ s'.disk = s.disk ∧
      ∀ bytes, result = .ok bytes → bytes = acc ++ (readTrace s.disk n k pos size).bytes := by
  induction k generalizing s pos size acc with
  | zero =>
    refine ⟨s, .ok acc, rfl, rfl, fun bytes h => ?_⟩
    rw [← Except.ok.inj h, readTrace, List.append_nil]
  | succ k ih =>
    rw [fsReadLoop]
    by_cases hsize : size = 0
    · refine ⟨s, .ok acc, if_pos hsize, rfl, fun bytes h => ?_⟩
      rw [← Except.ok.inj h, readTrace_stop (.inl hsize), List.append_nil]
    rw [if_neg hsize]
    by_cases hmax : pos / 512 ≥ maxFileSectors
    · refine ⟨s, .error .readOverEnd, if_pos hmax, rfl, fun bytes h => ?_⟩
      cases h
    obtain ⟨s₁, hlookup, hdisk, -, hc₁⟩ := getSectorForRw_read hc n (pos / 512)
    rw [if_neg hmax, hlookup, Option.bind_eq_bind, Option.bind_some, readTrace,
      if_neg (not_or.mpr ⟨hsize, hmax⟩)]
    dsimp only
    by_cases hsector : n.lookup s.disk (pos / 512) = 0
    · rw [if_pos hsector, if_pos hsector]
      refine ⟨s₁, .ok acc, rfl, hdisk, fun bytes h => ?_⟩
      rw [← Except.ok.inj h, List.append_nil]
    rw [if_neg hsector, if_neg hsector]
    obtain ⟨s', result, hloop, hdisk', hbytes⟩ := ih (pos + min size (512 - pos % 512))
      (size - min size (512 - pos % 512)) _
      (Storage.readSector_coherent s₁ (n.lookup s.disk (pos / 512)))
    rw [disk_readSector, hdisk] at hdisk' hbytes
    refine ⟨s', result, hloop, hdisk', fun bytes h => ?_⟩
    rw [hbytes bytes h, List.append_assoc, buffer_readSector, hdisk]

/-- The loop of `fs_read` does not come back with fewer bytes than it was asked for exactly if it
meets no index without a sector. -/
theorem fsReadLoop_full_iff (n : Inode) {k pos size : ℕ} (hk : size ≤ k) (acc : List UInt8)
    (hc : s.Coherent) : ∃ s' result, fsReadLoop k s n pos size acc = some (s', result) ∧
      (∀ e, result = .error e → e = .readOverEnd) ∧
      ((∀ bytes, result = .ok bytes → acc.length + size ≤ bytes.length) ↔
        ∀ j, pos / 512 ≤ j → max pos (512 * j) < pos + size → j < maxFileSectors →
          n.lookup s.disk j ≠ 0) := by
  induction k generalizing s pos size acc with
  | zero =>
    obtain rfl := Nat.le_zero.mp hk
    refine ⟨s, .ok acc, rfl, fun e h => (by cases h), iff_of_true (fun bytes h => ?_)
      fun j _ hlt => by omega⟩
    rw [← Except.ok.inj h, Nat.add_zero]
  | succ k ih =>
    rw [fsReadLoop]
    by_cases hsize : size = 0
    · refine ⟨s, .ok acc, if_pos hsize, fun e h => (by cases h), iff_of_true (fun bytes h => ?_)
        fun j _ hlt => by omega⟩
      rw [← Except.ok.inj h, hsize, Nat.add_zero]
    rw [if_neg hsize]
    by_cases hmax : pos / 512 ≥ maxFileSectors
    · refine ⟨s, .error .readOverEnd, if_pos hmax, fun e h => (Except.error.inj h).symm,
        iff_of_true (fun bytes h => ?_) ?_⟩
      · cases h
      · exact fun j hj _ hlt => absurd hlt (by omega)
    obtain ⟨s₁, hlookup, hdisk, -, hc₁⟩ := getSectorForRw_read hc n (pos / 512)
    rw [if_neg hmax, hlookup, Option.bind_eq_bind, Option.bind_some]
    dsimp only
    by_cases hsector : n.lookup s.disk (pos / 512) = 0
    · rw [if_pos hsector]
      refine ⟨s₁, .ok acc, rfl, fun e h => (by cases h), iff_of_false (fun h => ?_) fun h => ?_⟩
      · have := h acc rfl
        omega
      · exact h (pos / 512) le_rfl (by omega) (by omega) hsector
    rw [if_neg hsector]
    obtain ⟨w, hw⟩ : ∃ w, w = min size (512 - pos % 512) := ⟨_, rfl⟩
    rw [← hw]
    obtain ⟨s', result, hloop, herror, hiff⟩ := ih (show size - w ≤ k by omega) (acc ++ (List.range w).map
      fun i => (s₁.readSector (n.lookup s.disk (pos / 512))).buffer.byte (pos % 512 + i))
      (Storage.readSector_coherent s₁ (n.lookup s.disk (pos / 512)))
    refine ⟨s', result, hloop, herror, ?_⟩
    rw [disk_readSector, hdisk, List.length_append, List.length_map, List.length_range,
      show acc.length + w + (size - w) = acc.length + size by omega,
      show pos + w + (size - w) = pos + size by omega] at hiff
    rw [hiff]
    constructor
    · intro h j hj hlt hmax'
      rcases Nat.eq_or_lt_of_le hj with rfl | hj
      · exact hsector
      · exact h j (by omega) (by omega) hmax'
    · intro h j hj hlt hmax'
      exact h j (by omega) (by omega) hmax'

/-- `fs_read` of a readable file returns, and keeps to the file's own bytes exactly if the range is
clear. -/
theorem fsRead_readsOwn (file : OpenFile) (size : ℕ) (hc : s.Coherent)
    (hread : file.flags &&& fileFlagRead ≠ 0) (htype : n.type ≠ fsTypeDir) :
    ∃ s' result, fsRead s n file size = some (s', result) ∧
      (n.ReadsOwn s.disk file.rwPointer
          (readTrace s.disk n (readSize n size) file.rwPointer (readSize n size)) result ↔
        n.ReadClear s.disk file.rwPointer (readSize n size)) := by
  obtain ⟨s', result, hloop, -, hbytes⟩ := fsReadLoop_trace n (readSize n size) file.rwPointer
    (readSize n size) [] hc
  refine ⟨s', result, ?_, ?_⟩
  · rw [fsRead, if_neg hread]
    dsimp only
    rw [if_neg htype]
    exact hloop
  rw [← readTrace_own_iff s.disk n le_rfl]
  refine ⟨fun h => ⟨h.own, h.follows⟩, fun h => ⟨fun bytes hok => ?_, h.1, h.2⟩⟩
  -- the last byte that was stored is one of the file's
  rw [List.nil_append] at hbytes
  rw [← hbytes bytes hok] at h
  by_contra hlong
  have hlast : bytes[bytes.length - 1]? = some (bytes.getLast (by
    rintro rfl
    exact hlong (Nat.zero_le _))) := by
    rw [← List.getLast?_eq_getElem?, List.getLast?_eq_some_getLast]
  have hown := h.1 _ _ hlast
  unfold Inode.byteAt at hown
  rw [if_neg (fun hand => by omega)] at hown
  cases hown

end read

def FileError.code : FileError → ℕ
  | .invalidTarget => 3
  | .noCapacity => 4
  | .readOverEnd => 5
  | .invalidPermissions => 6

/-- `fs_read` as seen by a caller of `sys_read` in the kernel: the bytes it has stored, also when it
fails over the end of the largest file, and the `int` it returns as a `uint64_t`. -/
def fsReadInto (s : Storage) (n : Inode) (file : OpenFile) (size : ℕ) :
    Option (Storage × List UInt8 × ℕ) :=
  (fsRead s n file size).map fun r => (r.1, match r.2 with
    | .ok bytes => (bytes,
      if bytes.length % 2 ^ 32 < 2 ^ 31 then bytes.length % 2 ^ 32
      else 2 ^ 64 - 2 ^ 32 + bytes.length % 2 ^ 32)
    | .error .readOverEnd =>
      ((readTrace s.disk n (readSize n size) file.rwPointer (readSize n size)).bytes, 2 ^ 64 - 5)
    | .error e => ([], 2 ^ 64 - e.code))

section readInto
variable {s : Storage} {n : Inode}

theorem readTrace_length_le (disk : ℕ → Sector) (n : Inode) {k pos size : ℕ} (hk : size ≤ k) :
    (readTrace disk n k pos size).bytes.length ≤ 512 * maxFileSectors := by
  by_contra hlong
  have hget := List.getElem?_eq_getElem (Nat.not_le.mp hlong)
  obtain ⟨-, hreaches, -⟩ := (readTrace_getElem?_iff hk).mp hget
  refine hreaches ((pos + 512 * maxFileSectors) / 512) (by omega) le_rfl (if_pos ?_)
  omega

theorem fsReadInto_unreadable {file : OpenFile} (hread : file.flags &&& fileFlagRead = 0)
    (s : Storage) (n : Inode) (size : ℕ) :
    fsReadInto s n file size = some (s, [], 2 ^ 64 - 6) := by
  unfold fsReadInto fsRead
  rw [if_pos hread]
  rfl

theorem fsReadInto_dir {file : OpenFile} (hread : file.flags &&& fileFlagRead ≠ 0)
    (htype : n.type = fsTypeDir) (s : Storage) (size : ℕ) :
    fsReadInto s n file size = some (s, [], 2 ^ 64 - 3) := by
  unfold fsReadInto fsRead
  rw [if_neg hread]
  dsimp only
  rw [if_pos htype]
  rfl

/-- The bytes of the trace are stored, and the number returned is too small exactly if an index
without a sector is met. -/
theorem fsReadInto_regular {file : OpenFile} {size : ℕ} (hc : s.Coherent)
    (hread : file.flags &&& fileFlagRead ≠ 0) (htype : n.type ≠ fsTypeDir)
    (hsize : size < fileReadAll) :
    ∃ s' nBytes, fsReadInto s n file size =
        some (s', (readTrace s.disk n size file.rwPointer size).bytes, nBytes) ∧
      s'.disk = s.disk ∧ s'.Coherent ∧ (size ≤ nBytes ↔ ∀ j, file.rwPointer / 512 ≤ j →
        max file.rwPointer (512 * j) < file.rwPointer + size → j < maxFileSectors →
          n.lookup s.disk j ≠ 0) := by
  have hall : readSize n size = size := if_neg (Nat.ne_of_lt hsize)
  have hfs : fsRead s n file size = fsReadLoop size s n file.rwPointer size [] := by
    unfold fsRead
    rw [if_neg hread]
    dsimp only
    rw [if_neg htype, if_neg (Nat.ne_of_lt hsize)]
  obtain ⟨s', result, hloop, hdisk, hbytes⟩ := fsReadLoop_trace n size file.rwPointer size [] hc
  obtain ⟨s₁, result₁, hloop₁, herror, hshort⟩ :=
    @fsReadLoop_full_iff s n size file.rwPointer size le_rfl [] hc
  obtain ⟨rfl, rfl⟩ := Prod.mk.inj (Option.some.inj (hloop.symm.trans hloop₁))
  have hc' := (fsReadLoop_kept hloop).coherent hc
  rw [List.nil_append] at hbytes
  rw [List.length_nil, Nat.zero_add] at hshort
  have hlong : fileReadAll = 4294967295 := by decide
  have hmax : maxFileSectors = 16523 := by decide
  unfold fsReadInto
  rw [hfs, hloop, Option.map_some, hall]
  cases result with
  | ok bytes =>
    have hle := @readTrace_length_le s.disk n size file.rwPointer size le_rfl
    rw [hbytes bytes rfl] at hshort ⊢
    have hmod : (readTrace s.disk n size file.rwPointer size).bytes.length % 2 ^ 32 =
        (readTrace s.disk n size file.rwPointer size).bytes.length := Nat.mod_eq_of_lt (by omega)
    refine ⟨s', _, rfl, hdisk, hc', ?_⟩
    rw [hmod, if_pos (by omega), ← hshort]
    exact ⟨fun h bytes' hb => Except.ok.inj hb ▸ h, fun h => h _ rfl⟩
  | error e =>
    obtain rfl := herror e rfl
    refine ⟨s', _, rfl, hdisk, hc', ?_⟩
    rw [← hshort]
    exact iff_of_true (by omega) fun bytes hb => by cases hb

end readInto

def helloFile : Option (Storage × Inode × Except FileError ℕ) :=
  fsWrite oneFileFs.storage ⟨0, 0, 1, 7, 2, 0, 0, fun _ => 0⟩ ⟨7, 0, 0⟩ [104, 101, 108, 108, 111]

theorem helloFile_spec : ∃ s n, helloFile = some (s, n, .ok 5) ∧ n.size = 5 ∧ n.type = 1 ∧
    s.Coherent ∧ (fsRead s n ⟨7, 0, 0⟩ 512).map (fun r => r.2.toOption.map List.length) =
      some (some 512) := by
  have hdata : helloFile.map (fun r => (r.2.1.size, r.2.1.type, r.2.2.toOption,
      (fsRead r.1 r.2.1 ⟨7, 0, 0⟩ 512).map fun q => q.2.toOption.map List.length)) =
      some (5, 1, some 5, some (some 512)) := by
    decide +kernel
  obtain ⟨⟨s, n, written⟩, hwrite, hdata⟩ := Option.map_eq_some_iff.mp hdata
  simp only [Prod.mk.injEq] at hdata
  obtain ⟨hsize, htype, hwritten, hread⟩ := hdata
  cases written with
  | error e => cases hwritten
  | ok m =>
    obtain rfl := Option.some.inj hwritten
    exact ⟨s, n, hwrite, hsize, htype, (fsWrite_kept hwrite).1.coherent oneFileFs_coherent, hread⟩

/-- Five bytes are read from the file. -/
theorem fsRead_readsOwn_hello : ∃ s n, helloFile = some (s, n, .ok 5) ∧ ∃ s' result,
    fsRead s n ⟨7, 0, 0⟩ 5 = some (s', result) ∧
    n.ReadsOwn s.disk 0 (readTrace s.disk n 5 0 5) result := by
  obtain ⟨s, n, hwrite, hsize, htype, hc, -⟩ := helloFile_spec
  have hclear : n.ReadClear s.disk 0 5 := by
    intro i _ hlt _ _
    obtain rfl : i = 0 := by omega
    exact ⟨by simp [Inode.lookupReads], fun _ => by omega⟩
  have hregular : n.type ≠ fsTypeDir := by
    rw [htype]
    decide
  obtain ⟨s', result, hread, hiff⟩ := fsRead_readsOwn ⟨7, 0, 0⟩ 5 hc (by decide) hregular
  have hall : readSize n 5 = 5 := if_neg (by decide)
  rw [hall] at hiff
  exact ⟨s, n, hwrite, s', result, hread, hiff.mpr hclear⟩

/-- 512 bytes are read from the file, which has five. -/
theorem fsRead_over_end : ∃ s n s' result, helloFile = some (s, n, .ok 5) ∧
    fsRead s n ⟨7, 0, 0⟩ 512 = some (s', result) ∧
    ¬ n.ReadsOwn s.disk 0 (readTrace s.disk n 512 0 512) result := by
  obtain ⟨s, n, hwrite, hsize, -, -, hread⟩ := helloFile_spec
  obtain ⟨⟨s', result⟩, hread, hlen⟩ := Option.map_eq_some_iff.mp hread
  obtain ⟨bytes, hok, hlen⟩ := Option.map_eq_some_iff.mp hlen
  refine ⟨s, n, s', result, hwrite, hread, fun h => ?_⟩
  cases result with
  | error e => cases hok
  | ok b =>
    obtain rfl := Option.some.inj hok
    have hle := h.count b rfl
    omega

end BrickOS.Filesystem
