import BrickOS.Filesystem.FileMap

/-! Reading a directory. `read_dir_entries_to_buffer` first counts the sectors and then reads so many
of them, both through the one buffer for pointer blocks. -/
namespace BrickOS.Filesystem
open BrickOS.Lib

def blockCount (b : Sector) : ℕ := (List.range 128).countP fun i => b.word i != 0

def countBlocks (disk : ℕ → Sector) : ℕ → ℕ → Sector → ℕ
  | 0, _, _ => 0
  | k + 1, i, b =>
    if b.word i ≠ 0 then
      let block := disk (lba28 (b.word i))
      blockCount block + countBlocks disk k (i + 1) block
    else countBlocks disk k (i + 1) b

/-- `total_sectors` as the disk has it. -/
def Inode.sectorCount (disk : ℕ → Sector) (dir : Inode) : ℕ :=
  (if dir.indirectSector ≠ 0 then blockCount (disk (lba28 dir.indirectSector)) else 0) +
    (if dir.dIndirectSector ≠ 0 then countBlocks disk 128 0 (disk (lba28 dir.dIndirectSector))
      else 0) + countDirect dir

def Inode.sectorsFrom (disk : ℕ → Sector) (dir : Inode) (i k : ℕ) : List UInt8 :=
  (List.range' i k).flatMap fun j => sectorBytes (disk (lba28 (dir.lookup disk j)))

def Inode.dirBytes (disk : ℕ → Sector) (dir : Inode) : Option (List UInt8) :=
  if dir.sectorCount disk = 0 then none else some (dir.sectorsFrom disk 0 (dir.sectorCount disk))

/-- The slots of `data_sectors` that the counting loop reads from `sec` on, for at most `k` rounds:
it looks at the slot before it compares the index. -/
def slotsRead (dir : Inode) : ℕ → ℕ → List ℕ
  | 0, _ => []
  | k + 1, sec =>
    sec :: if h : sec < 11 then
      if dir.dataSectors ⟨sec, h⟩ ≠ 0 then slotsRead dir k (sec + 1) else []
    else []

def Inode.Filled (disk : ℕ → Sector) (dir : Inode) (count : ℕ) : Prop :=
  count ≤ maxFileSectors ∧ ∀ i < maxFileSectors, dir.ptr disk (dataPlace i) ≠ 0 ↔ i < count

/-- What `read_dir_entries_to_buffer` is for: all sectors in the order of their indices, each
counted once, with no read behind the direct slots. -/
structure Storage.Concatenates (s : Storage) (dir : Inode) (count : ℕ) : Prop where
  bytes : (readDirEntriesToBuffer s dir).2.getD [] =
    (List.range count).flatMap fun i => sectorBytes (s.disk (lba28 (dir.ptr s.disk (dataPlace i))))
  counted : (countDirSectors s dir).2 = count
  slots : ∀ sec ∈ slotsRead dir 12 0, sec < 11

section read
variable {s : Storage} {dir : Inode}

theorem countIndirectSectorEntries_eq (hc : s.Coherent) (sector : ℕ) :
    countIndirectSectorEntries s sector =
      (s.efficientReadSector sector, blockCount (s.disk (lba28 sector))) := by
  rw [countIndirectSectorEntries, buffer_efficientReadSector hc]
  rfl

theorem countDoubleIndirect_eq (k i total : ℕ) (hc : s.Coherent) :
    ∃ s', countDoubleIndirect k i s total = (s', total + countBlocks s.disk k i s.buffer) ∧
      s'.disk = s.disk ∧ s'.header = s.header ∧ s'.Coherent := by
  induction k generalizing s i total with
  | zero => exact ⟨s, rfl, rfl, rfl, hc⟩
  | succ k ih =>
    rw [countDoubleIndirect, countBlocks]
    by_cases hword : s.buffer.word i ≠ 0
    · rw [if_pos hword, if_pos hword, countIndirectSectorEntries_eq hc]
      dsimp only
      obtain ⟨s', heq, hdisk, hheader, hc'⟩ := ih (i + 1)
        (total + blockCount (s.disk (lba28 (s.buffer.word i)))) (hc.efficientReadSector _)
      rw [heq, buffer_efficientReadSector hc, disk_efficientReadSector, Nat.add_assoc]
      exact ⟨s', rfl, hdisk.trans (disk_efficientReadSector _ _), hheader, hc'⟩
    · rw [if_neg hword, if_neg hword]
      exact ih (i + 1) total hc

theorem countDirSectors_eq (dir : Inode) (hc : s.Coherent) :
    ∃ s', countDirSectors s dir = (s', dir.sectorCount s.disk) ∧ s'.disk = s.disk ∧
      s'.header = s.header ∧ s'.Coherent := by
  have hsingle : ∃ s₁, (if dir.indirectSector ≠ 0 then
      countIndirectSectorEntries s dir.indirectSector else (s, 0)) =
        (s₁, if dir.indirectSector ≠ 0 then blockCount (s.disk (lba28 dir.indirectSector)) else 0) ∧
      s₁.disk = s.disk ∧ s₁.header = s.header ∧ s₁.Coherent := by
    by_cases h : dir.indirectSector ≠ 0
    · rw [if_pos h, if_pos h, countIndirectSectorEntries_eq hc]
      exact ⟨_, rfl, disk_efficientReadSector _ _, rfl, hc.efficientReadSector _⟩
    · rw [if_neg h, if_neg h]
      exact ⟨s, rfl, rfl, rfl, hc⟩
  obtain ⟨s₁, heq, hdisk, hheader, hc₁⟩ := hsingle
  unfold countDirSectors Inode.sectorCount
  rw [heq]
  dsimp only
  by_cases h : dir.dIndirectSector ≠ 0
  · obtain ⟨s', heq', hdisk', hheader', hc'⟩ := countDoubleIndirect_eq 128 0
      (if dir.indirectSector ≠ 0 then blockCount (s.disk (lba28 dir.indirectSector)) else 0)
      (hc₁.efficientReadSector dir.dIndirectSector)
    rw [buffer_efficientReadSector hc₁, disk_efficientReadSector, hdisk] at heq'
    rw [if_pos h, if_pos h, heq']
    exact ⟨s', rfl, hdisk'.trans ((disk_efficientReadSector _ _).trans hdisk),
      hheader'.trans hheader, hc'⟩
  · rw [if_neg h, if_neg h]
    exact ⟨s₁, rfl, hdisk, hheader, hc₁⟩

theorem dirSector_eq {i : ℕ} (hi : i < maxFileSectors) (dir : Inode) (hc : s.Coherent) :
    ∃ s', dirSector s dir i = (s', dir.lookup s.disk i) ∧ s'.disk = s.disk ∧
      s'.header = s.header ∧ s'.Coherent := by
  unfold dirSector Inode.lookup
  rw [if_neg (Nat.not_le.mpr hi)]
  by_cases h₁ : i < 11
  · rw [dif_pos h₁, dif_pos h₁]
    exact ⟨s, rfl, rfl, rfl, hc⟩
  rw [dif_neg h₁, dif_neg h₁]
  by_cases h₂ : i < 128 + 11
  · rw [if_pos h₂, if_pos h₂]
    dsimp only
    rw [buffer_efficientReadSector hc]
    exact ⟨_, rfl, disk_efficientReadSector _ _, rfl, hc.efficientReadSector _⟩
  · rw [if_neg h₂, if_neg h₂]
    dsimp only
    rw [buffer_efficientReadSector (hc.efficientReadSector _), buffer_efficientReadSector hc,
      disk_efficientReadSector]
    exact ⟨_, rfl, by simp, rfl, (hc.efficientReadSector _).efficientReadSector _⟩

theorem readDirSectors_eq (k i : ℕ) (dir : Inode) (hi : i + k ≤ maxFileSectors)
    (hc : s.Coherent) :
    ∃ s', readDirSectors k i s dir = (s', dir.sectorsFrom s.disk i k) ∧ s'.disk = s.disk ∧
      s'.header = s.header ∧ s'.Coherent := by
  induction k generalizing s i with
  | zero => exact ⟨s, rfl, rfl, rfl, hc⟩
  | succ k ih =>
    obtain ⟨s₁, hsector, hdisk, hheader, hc₁⟩ := dirSector_eq (i := i) (by omega) dir hc
    obtain ⟨s', heq, hdisk', hheader', hc'⟩ := ih (i + 1) (by omega) hc₁
    rw [readDirSectors, hsector]
    dsimp only
    rw [heq, hdisk]
    refine ⟨s', ?_, hdisk'.trans hdisk, hheader'.trans hheader, hc'⟩
    rw [Inode.sectorsFrom, Inode.sectorsFrom, List.range'_succ, List.flatMap_cons, ← hdisk]
    rfl

theorem blockCount_le (b : Sector) : blockCount b ≤ 128 := by
  unfold blockCount
  calc _ ≤ (List.range 128).length := List.countP_le_length
    _ = 128 := List.length_range

theorem countBlocks_le (disk : ℕ → Sector) (k i : ℕ) (b : Sector) :
    countBlocks disk k i b ≤ 128 * k := by
  induction k generalizing i b with
  | zero => exact le_rfl
  | succ k ih =>
    rw [countBlocks]
    split
    · have hle := blockCount_le (disk (lba28 (b.word i)))
      have hrest := ih (i + 1) (disk (lba28 (b.word i)))
      dsimp only
      omega
    · exact (ih (i + 1) b).trans (by omega)

theorem countDirect_le (dir : Inode) : countDirect dir ≤ 11 := by
  unfold countDirect
  calc _ ≤ (List.ofFn dir.dataSectors).length := (List.takeWhile_sublist _).length_le
    _ = 11 := List.length_ofFn

theorem sectorCount_le (disk : ℕ → Sector) (dir : Inode) :
    dir.sectorCount disk ≤ maxFileSectors := by
  have hdirect := countDirect_le dir
  have hsingle := blockCount_le (disk (lba28 dir.indirectSector))
  have hdouble := countBlocks_le disk 128 0 (disk (lba28 dir.dIndirectSector))
  have hmax : maxFileSectors = 11 + 128 + 128 * 128 := rfl
  unfold Inode.sectorCount
  split_ifs <;> omega

theorem readDirEntriesToBuffer_eq (dir : Inode) (hc : s.Coherent) :
    ∃ s', readDirEntriesToBuffer s dir = (s', dir.dirBytes s.disk) ∧ s'.disk = s.disk ∧
      s'.header = s.header ∧ s'.Coherent := by
  obtain ⟨s₁, hcount, hdisk, hheader, hc₁⟩ := countDirSectors_eq dir hc
  unfold readDirEntriesToBuffer Inode.dirBytes
  rw [hcount]
  dsimp only
  by_cases hzero : dir.sectorCount s.disk = 0
  · rw [if_pos hzero, if_pos hzero]
    exact ⟨s₁, rfl, hdisk, hheader, hc₁⟩
  · have hle := sectorCount_le s.disk dir
    obtain ⟨s', hread, hdisk', hheader', hc'⟩ := readDirSectors_eq (dir.sectorCount s.disk) 0 dir
      (by omega) hc₁
    rw [if_neg hzero, if_neg hzero, hread, hdisk]
    exact ⟨s', rfl, hdisk'.trans hdisk, hheader'.trans hheader, hc'⟩

end read

section filled
variable {disk : ℕ → Sector} {dir : Inode} {count : ℕ}

theorem blockCount_eq {b : Sector} {m : ℕ} (h : ∀ j < 128, b.word j ≠ 0 ↔ j < m) :
    blockCount b = min m 128 := by
  have hcongr : blockCount b = (List.range 128).countP fun j => decide (j < m) := by
    refine List.countP_congr fun j hj => ?_
    simpa using h j (List.mem_range.mp hj)
  have hcount : ∀ n, (List.range n).countP (fun j => decide (j < m)) = min m n := by
    intro n
    induction n with
    | zero => simp
    | succ n ih =>
      rw [List.range_succ, List.countP_append, ih, List.countP_singleton]
      split_ifs with hlt
      · have : n < m := by simpa using hlt
        omega
      · have : ¬ n < m := by simpa using hlt
        omega
  rw [hcongr, hcount]

theorem countBlocks_of_zero {b : Sector} (k i : ℕ) (h : ∀ j, i ≤ j → j < i + k → b.word j = 0) :
    countBlocks disk k i b = 0 := by
  induction k generalizing i with
  | zero => rfl
  | succ k ih =>
    rw [countBlocks, if_neg (not_not.mpr (h i le_rfl (by omega)))]
    exact ih (i + 1) fun j hj hlt => h j (by omega) (by omega)

theorem countBlocks_of_empty {b : Sector} (k i : ℕ) (hik : i + k ≤ 128)
    (h : ∀ j, i ≤ j → j < i + k → b.word j ≠ 0 →
      ∀ l < 128, (disk (lba28 (b.word j))).word l = 0) : countBlocks disk k i b = 0 := by
  induction k generalizing i with
  | zero => rfl
  | succ k ih =>
    rw [countBlocks]
    by_cases hword : b.word i ≠ 0
    · have hempty := h i le_rfl (by omega) hword
      have hnone : blockCount (disk (lba28 (b.word i))) = 0 := by
        rw [blockCount_eq (m := 0) fun j hj => by simp [hempty j hj], Nat.zero_min]
      rw [if_pos hword]
      dsimp only
      rw [hnone, countBlocks_of_zero k (i + 1) fun j _ hlt => hempty j (by omega)]
    · rw [if_neg hword]
      exact ih (i + 1) (by omega) fun j hj hlt => h j (by omega) (by omega)

theorem dataPlace_single {j : ℕ} (hj : j < 128) : dataPlace (11 + j) = .single j := by
  unfold dataPlace
  rw [dif_neg (by omega), if_pos (by omega), Nat.add_sub_cancel_left]

theorem dataPlace_double {j l : ℕ} (hl : l < 128) :
    dataPlace (128 + 11 + (128 * j + l)) = .double j l := by
  have hj : (128 * j + l) / 128 = j := by omega
  have hl' : (128 * j + l) % 128 = l := by omega
  unfold dataPlace
  rw [dif_neg (by omega), if_neg (by omega), Nat.add_sub_cancel_left, hj, hl']

theorem Inode.Filled.single (h : dir.Filled disk count) (hne : dir.indirectSector ≠ 0) {j : ℕ}
    (hj : j < 128) : (disk (lba28 dir.indirectSector)).word j ≠ 0 ↔ 11 + j < count := by
  rw [← h.2 (11 + j) (by unfold maxFileSectors; omega), dataPlace_single hj, Inode.ptr,
    blockEntry_of_ne hne]

theorem Inode.Filled.double (h : dir.Filled disk count) (hne : dir.dIndirectSector ≠ 0) {j l : ℕ}
    (hj : j < 128) (hl : l < 128)
    (hblock : (disk (lba28 dir.dIndirectSector)).word j ≠ 0) :
    (disk (lba28 ((disk (lba28 dir.dIndirectSector)).word j))).word l ≠ 0 ↔
      128 + 11 + (128 * j + l) < count := by
  rw [← h.2 _ (by unfold maxFileSectors; omega), dataPlace_double hl, Inode.ptr,
    blockEntry_of_ne hne, blockEntry_of_ne hblock]

theorem Inode.Filled.tables (h : dir.Filled disk count) {i : ℕ} (hi : i < count) :
    ∀ t ∈ (dataPlace i).tables, dir.ptr disk t ≠ 0 :=
  ptr_tables ((h.2 i (hi.trans_le h.1)).mpr hi)

theorem length_takeWhile_ne_zero {l : List ℕ} {m : ℕ}
    (h : ∀ i (hi : i < l.length), l[i] ≠ 0 ↔ i < m) :
    (l.takeWhile (· != 0)).length = min m l.length := by
  induction l generalizing m with
  | nil => simp
  | cons a l ih =>
    have hhead := h 0 (by simp)
    rw [List.getElem_cons_zero] at hhead
    by_cases ha : a = 0
    · have hm : m = 0 := Nat.eq_zero_of_not_pos fun hpos => hhead.mpr hpos ha
      simp [ha, hm]
    · have htail := ih (m := m - 1) fun i hi => by
        rw [← List.getElem_cons_succ a l i (by simpa using hi), h (i + 1) (by simpa using hi)]
        omega
      have hpos := hhead.mp ha
      rw [List.takeWhile_cons_of_pos (by simpa using ha), List.length_cons, List.length_cons, htail]
      omega

theorem Inode.Filled.direct (h : dir.Filled disk count) (i : Fin 11) :
    dir.dataSectors i ≠ 0 ↔ i.val < count := by
  have hi := h.2 i.val (by unfold maxFileSectors; omega)
  rwa [dataPlace, dif_pos i.isLt] at hi

theorem Inode.Filled.countDirect (h : dir.Filled disk count) : countDirect dir = min count 11 := by
  have hlen := length_takeWhile_ne_zero (l := List.ofFn dir.dataSectors) (m := count)
    fun i hi => by
      rw [List.getElem_ofFn]
      exact h.direct _
  rwa [List.length_ofFn] at hlen

theorem Inode.Filled.sectorCount (h : dir.Filled disk count) (hcount : count ≤ 140) :
    dir.sectorCount disk = count := by
  have hsingle : (if dir.indirectSector ≠ 0 then blockCount (disk (lba28 dir.indirectSector))
      else 0) = min (count - 11) 128 := by
    split_ifs with hne
    · exact blockCount_eq fun j hj => (h.single hne hj).trans (by omega)
    · have hnone : ¬ 11 < count := fun hlt => hne (h.tables hlt .indirect (by decide))
      omega
  have hdouble : (if dir.dIndirectSector ≠ 0 then
      countBlocks disk 128 0 (disk (lba28 dir.dIndirectSector)) else 0) = count - 139 := by
    split_ifs with hne
    · by_cases hfew : count ≤ 139
      · rw [countBlocks_of_empty 128 0 le_rfl fun j _ hj hblock l hl => ?_]
        · omega
        · by_contra hword
          have := (h.double hne (by omega) hl hblock).mp hword
          omega
      · -- the one sector of the first block; what the buffer then holds has no other entry
        have hblock : (disk (lba28 dir.dIndirectSector)).word 0 ≠ 0 := by
          have hne' := h.tables (i := 139) (by omega) (.block 0) (by decide)
          rwa [Inode.ptr, blockEntry_of_ne hne] at hne'
        have hword := fun l (hl : l < 128) => h.double hne (by omega) hl hblock
        rw [countBlocks, if_pos hblock]
        dsimp only
        rw [blockCount_eq (m := 1) fun l hl => (hword l hl).trans (by omega),
          countBlocks_of_zero 127 1 fun l hl hlt => ?_]
        · omega
        · by_contra hne'
          have := (hword l (by omega)).mp hne'
          omega
    · have hnone : ¬ 139 < count := fun hlt => hne (h.tables hlt .dIndirect (by decide))
      omega
  rw [Inode.sectorCount, hsingle, hdouble, h.countDirect]
  omega

theorem Inode.Filled.sectorsFrom (h : dir.Filled disk count) :
    dir.sectorsFrom disk 0 count =
      (List.range count).flatMap fun i => sectorBytes (disk (lba28 (dir.ptr disk (dataPlace i)))) := by
  rw [Inode.sectorsFrom, ← List.range_eq_range']
  refine List.flatMap_congr fun i hi => ?_
  have hi := List.mem_range.mp hi
  rw [lookup_eq_ptr (hi.trans_le h.1) (h.tables hi)]

theorem Inode.Filled.dirBytes (h : dir.Filled disk count) (hcount : count ≤ 140) :
    (dir.dirBytes disk).getD [] =
      (List.range count).flatMap fun i => sectorBytes (disk (lba28 (dir.ptr disk (dataPlace i)))) := by
  rw [Inode.dirBytes, h.sectorCount hcount, h.sectorsFrom]
  by_cases hzero : count = 0
  · rw [if_pos hzero, hzero]
    rfl
  · rw [if_neg hzero, Option.getD_some]

theorem slotsRead_le {m : Fin 11} (hm : dir.dataSectors m = 0) (k sec : ℕ) (hsec : sec ≤ m) :
    ∀ x ∈ slotsRead dir k sec, x ≤ m := by
  induction k generalizing sec with
  | zero => simp [slotsRead]
  | succ k ih =>
    intro x hx
    rw [slotsRead, dif_pos (by omega)] at hx
    rcases List.mem_cons.mp hx with rfl | hx
    · exact hsec
    split_ifs at hx with hne
    · refine ih (sec + 1) (Nat.lt_of_le_of_ne hsec fun heq => hne ?_) x hx
      rw [← hm]
      congr
    · cases hx

theorem mem_slotsRead (hfull : ∀ i, dir.dataSectors i ≠ 0) (k sec : ℕ) (hsec : sec + k = 12)
    (hk : 0 < k) : 11 ∈ slotsRead dir k sec := by
  induction k generalizing sec with
  | zero => exact absurd hk (by decide)
  | succ k ih =>
    rw [slotsRead]
    by_cases hlast : sec < 11
    · rw [dif_pos hlast, if_pos (hfull _)]
      exact List.mem_cons_of_mem _ (ih (sec + 1) (by omega) (by omega))
    · obtain rfl : sec = 11 := by omega
      exact List.mem_cons_self

end filled

/-- Reading a directory concatenates its sectors as long as there are at most 140, and stays within
the direct slots exactly if there are fewer than 11. -/
theorem readDirEntriesToBuffer_concatenates {s : Storage} {dir : Inode} {count : ℕ}
    (hc : s.Coherent) (hfilled : dir.Filled s.disk count) :
    (count ≤ 140 → (countDirSectors s dir).2 = count ∧
      (readDirEntriesToBuffer s dir).2.getD [] = (List.range count).flatMap fun i =>
        sectorBytes (s.disk (lba28 (dir.ptr s.disk (dataPlace i))))) ∧
      (s.Concatenates dir count ↔ count < 11) := by
  have hread : count ≤ 140 → (countDirSectors s dir).2 = count ∧
      (readDirEntriesToBuffer s dir).2.getD [] = (List.range count).flatMap fun i =>
        sectorBytes (s.disk (lba28 (dir.ptr s.disk (dataPlace i)))) := by
    intro hcount
    obtain ⟨s₁, hcounted, -⟩ := countDirSectors_eq dir hc
    obtain ⟨s₂, hbytes, -⟩ := readDirEntriesToBuffer_eq dir hc
    rw [hcounted, hbytes]
    exact ⟨hfilled.sectorCount hcount, hfilled.dirBytes hcount⟩
  refine ⟨hread, fun h => ?_, fun hlt => ?_⟩
  · by_contra hge
    have hfull : ∀ i, dir.dataSectors i ≠ 0 := fun i => (hfilled.direct i).mpr (by omega)
    exact absurd (h.slots 11 (mem_slotsRead hfull 12 0 rfl (by decide))) (by decide)
  · obtain ⟨hcounted, hbytes⟩ := hread (by omega)
    refine ⟨hbytes, hcounted, fun sec hsec => ?_⟩
    have hempty : dir.dataSectors ⟨count, hlt⟩ = 0 := by
      by_contra hne
      exact absurd ((hfilled.direct _).mp hne) (lt_irrefl count)
    exact (slotsRead_le hempty 12 0 (Nat.zero_le _) sec hsec).trans_lt hlt

def directDir (m : ℕ) : Inode := ⟨1, 0, fsTypeDir, 0, 2, 0, 0, fun i =>
  if i.val < m then 118 + i.val else 0⟩

def emptyDisk : Storage := ⟨.empty, ⟨fun _ => Block.zero, Block.zero, 0⟩⟩

theorem emptyDisk_coherent : emptyDisk.Coherent := rfl

theorem directDir_filled {m : ℕ} (hm : m ≤ 11) : (directDir m).Filled emptyDisk.disk m := by
  refine ⟨hm.trans (by decide), fun i _ => ?_⟩
  unfold dataPlace
  split_ifs with h₁ h₂
  · simp only [Inode.ptr, directDir]
    split_ifs with hlt <;> omega
  · simp only [Inode.ptr, directDir, blockEntry_zero]
    omega
  · simp only [Inode.ptr, directDir, blockEntry_zero]
    omega

/-- A directory with three sectors. -/
theorem readDirEntriesToBuffer_concatenates_three :
    emptyDisk.Concatenates (directDir 3) 3 :=
  (readDirEntriesToBuffer_concatenates emptyDisk_coherent
    (directDir_filled (by decide))).2.mpr (by decide)

/-- A directory with 11 sectors: the count reads `data_sectors[11]`. -/
theorem readDirEntriesToBuffer_behind_slots :
    (directDir 11).Filled emptyDisk.disk 11 ∧ 11 ∈ slotsRead (directDir 11) 12 0 ∧
      ¬ emptyDisk.Concatenates (directDir 11) 11 := by
  have hmem : 11 ∈ slotsRead (directDir 11) 12 0 := by decide
  exact ⟨directDir_filled le_rfl, hmem, fun h => absurd (h.slots 11 hmem) (by decide)⟩

end BrickOS.Filesystem
