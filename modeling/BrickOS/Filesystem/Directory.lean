import BrickOS.Filesystem.FileOperations

/-! Directories. A directory's bytes are the number of entries and then, for each entry, the inode
id in 4 bytes, the length of the name in one, and the name. -/
namespace BrickOS.Filesystem
open BrickOS.Lib

structure InodeNamePair where
  parentId : ℕ
  id : ℕ
  name : List UInt8
deriving DecidableEq, Repr

def countIndirectSectorEntries (s : Storage) (sector : ℕ) : Storage × ℕ :=
  let s := s.efficientReadSector sector
  (s, (List.range 128).countP fun i => s.buffer.word i != 0)

/-- The loop over the double indirect sector in `read_dir_entries_to_buffer`, for the entries from
`i` on. Counting the entries of one block reloads the buffer, and the next entry is taken from
what the buffer holds then. -/
def countDoubleIndirect : ℕ → ℕ → Storage → ℕ → Storage × ℕ
  | 0, _, s, total => (s, total)
  | k + 1, i, s, total =>
    let indirectSectorIdx := s.buffer.word i
    if indirectSectorIdx ≠ 0 then
      let r := countIndirectSectorEntries s indirectSectorIdx
      countDoubleIndirect k (i + 1) r.1 (total + r.2)
    else countDoubleIndirect k (i + 1) s total

def countDirect (dir : Inode) : ℕ := ((List.ofFn dir.dataSectors).takeWhile (· != 0)).length

/-- `total_sectors` of `read_dir_entries_to_buffer`. -/
def countDirSectors (s : Storage) (dir : Inode) : Storage × ℕ :=
  let r :=
    if dir.indirectSector ≠ 0 then countIndirectSectorEntries s dir.indirectSector else (s, 0)
  let r :=
    if dir.dIndirectSector ≠ 0 then
      countDoubleIndirect 128 0 (r.1.efficientReadSector dir.dIndirectSector) r.2
    else r
  (r.1, r.2 + countDirect dir)

/-- The sector that `read_dir_entries_to_buffer` and `write_data_buffer_to_disk` take for index
`i`, with the pointer blocks read through the cache. -/
def dirSector (s : Storage) (dir : Inode) (i : ℕ) : Storage × ℕ :=
  if h : i < 11 then (s, dir.dataSectors ⟨i, h⟩)
  else if i < 128 + 11 then
    let s := s.efficientReadSector dir.indirectSector
    (s, s.buffer.word (i - 11))
  else
    let s := s.efficientReadSector dir.dIndirectSector
    let s := s.efficientReadSector (s.buffer.word ((i - (128 + 11)) / 128))
    (s, s.buffer.word ((i - (128 + 11)) % 128))

def sectorBytes (b : Sector) : List UInt8 := List.ofFn b

/-- The sectors from index `i` on, read past the cache into the buffer one by one. -/
def readDirSectors : ℕ → ℕ → Storage → Inode → Storage × List UInt8
  | 0, _, s, _ => (s, [])
  | k + 1, i, s, dir =>
    let r := dirSector s dir i
    let rest := readDirSectors k (i + 1) r.1 dir
    (rest.1, sectorBytes (r.1.sectors.store (lba28 r.2)) ++ rest.2)

/-- `read_dir_entries_to_buffer`; `none` for the null pointer of a directory without sectors. -/
def readDirEntriesToBuffer (s : Storage) (dir : Inode) : Storage × Option (List UInt8) :=
  let r := countDirSectors s dir
  if r.2 = 0 then (r.1, none)
  else
    let b := readDirSectors r.2 0 r.1 dir
    (b.1, some b.2)

/-- An empty entry of a pointer block gets a sector; says whether it did. Neither the new sector
nor a new pointer block is cleared. -/
def takeEntry (s : Storage) (block idx : ℕ) : Option (Storage × ℕ × Bool) :=
  let s := s.efficientReadSector block
  if s.buffer.word idx = 0 then
    (allocateSector s.header).map fun (header, sector) =>
      ({ s with header }.writeBuffer block fun b => b.setWord idx sector, sector, true)
  else some (s, s.buffer.word idx, false)

def takeBlock (s : Storage) (block : ℕ) : Option (Storage × ℕ) :=
  if block = 0 then (allocateSector s.header).map fun (header, sector) => ({ s with header }, sector)
  else some (s, block)

/-- The sector for one round of `write_directory_entry`; the flag says that the offset starts over,
which only happens in the indirect ranges. -/
def entrySector (s : Storage) (dir : Inode) (sectorIdx : ℕ) :
    Option (Storage × Inode × ℕ × Bool) :=
  -- behind the last slot the entry of the double indirect sector lies outside the buffer
  if sectorIdx ≥ maxFileSectors then none
  else if sectorIdx ≥ 128 + 11 then do
    let (s, dIndirectSector) ← takeBlock s dir.dIndirectSector
    let (s, sIndirSector, fresh) ← takeEntry s dIndirectSector ((sectorIdx - (128 + 11)) / 128)
    let (s, sector, fresh') ← takeEntry s sIndirSector ((sectorIdx - (128 + 11)) % 128)
    return (s, { dir with dIndirectSector }, sector, fresh || fresh')
  else if h : sectorIdx < 11 then
    if dir.dataSectors ⟨sectorIdx, h⟩ = 0 then
      (allocateSector s.header).map fun (header, sector) =>
        ({ s with header },
          { dir with dataSectors := Function.update dir.dataSectors ⟨sectorIdx, h⟩ sector },
          sector, false)
    else some (s, dir, dir.dataSectors ⟨sectorIdx, h⟩, false)
  else do
    let (s, indirectSector) ← takeBlock s dir.indirectSector
    let (s, sector, fresh) ← takeEntry s indirectSector (sectorIdx - 11)
    return (s, { dir with indirectSector }, sector, fresh)

/-- The loop of `write_directory_entry`, for at most `k` rounds. The number of bytes is taken
before the offset may start over, and in the direct range the offset never does. -/
def writeEntryLoop : ℕ → Storage → Inode → ℕ → ℕ → ℕ → List UInt8 → Option (Storage × Inode)
  | 0, s, dir, _, _, _, _ => some (s, dir)
  | k + 1, s, dir, sectorIdx, sectorOffset, remaining, bytes =>
    if bytes.isEmpty then some (s, dir)
    else do
      let toWrite := min bytes.length remaining
      let (s, dir, sector, fresh) ← entrySector s dir sectorIdx
      let sectorOffset := if fresh then 0 else sectorOffset
      let remaining := if fresh then 512 else remaining
      let s := (s.efficientReadSector sector).writeBuffer sector fun b =>
        b.blit sectorOffset (bytes.take toWrite)
      writeEntryLoop k s { dir with size := dir.size + toWrite } (sectorIdx + 1) sectorOffset
        remaining (bytes.drop toWrite)

def entryBytes (id : ℕ) (name : List UInt8) : List UInt8 :=
  le32 id ++ UInt8.ofNat name.length :: name

def writeDirectoryEntry (s : Storage) (dir : Inode) (id : ℕ) (name : List UInt8) :
    Option (Storage × Inode) := do
  let bytes := entryBytes id name
  let (s, dir) ← writeEntryLoop bytes.length s dir (dir.size / 512) (dir.size % 512)
    (512 - dir.size % 512) bytes
  let first := dir.dataSectors firstSlot
  -- one more entry, counted in the first sector
  return ((s.readSector first).writeBuffer first fun b => b.setWord 0 ((b.word 0 + 1) % 2 ^ 32), dir)

def writeDataFails (dir : Inode) (i : ℕ) : Bool :=
  decide (i ≥ maxFileSectors) || decide (128 + 11 ≤ i ∧ dir.dIndirectSector = 0) ||
    decide (11 ≤ i ∧ i < 128 + 11 ∧ dir.indirectSector = 0)

def dataChunk (bytes : List UInt8) (i : ℕ) : Sector :=
  Block.zero.blit 0 ((bytes.drop (512 * i)).take 512)

/-- The loop of `write_data_buffer_to_disk` from sector index `i` on, for at most `k` rounds. The
sectors are written past the cache. -/
def writeDataLoop : ℕ → ℕ → Storage → Inode → List UInt8 → Storage
  | 0, _, s, _, _ => s
  | k + 1, i, s, dir, bytes =>
    if writeDataFails dir i then s
    else
      let r := dirSector s dir i
      if r.2 = 0 then r.1
      else
        writeDataLoop k (i + 1)
          { r.1 with sectors := r.1.sectors.put lba28 r.2 (dataChunk bytes i) } dir bytes

def writeDataBufferToDisk (s : Storage) (dir : Inode) (bytes : List UInt8) (size : ℕ) : Storage :=
  writeDataLoop ((size + 511) / 512) 0 s dir bytes

def bufferWord (bytes : List UInt8) (i : ℕ) : Option ℕ :=
  if i + 4 ≤ bytes.length then
    some ((bytes.getD i 0).toNat + (bytes.getD (i + 1) 0).toNat * 2 ^ 8 +
      (bytes.getD (i + 2) 0).toNat * 2 ^ 16 + (bytes.getD (i + 3) 0).toNat * 2 ^ 24)
  else none

/-- The scan of `erase_directory_entry` over `k` entries from `off` on: the last entry with the id,
by its start and length, and where the scan ends. -/
def scanEntries (bytes : List UInt8) (id : ℕ) : ℕ → ℕ → Option (ℕ × ℕ) → Option (Option (ℕ × ℕ) × ℕ)
  | 0, off, found => some (found, off)
  | k + 1, off, found => do
    let entryId ← bufferWord bytes off
    let len ← bytes[off + 4]?
    scanEntries bytes id k (off + 5 + len.toNat)
      (if entryId = id then some (off, len.toNat + 5) else found)

/-- The buffer without the entry: what follows moves up, zeroes fill in behind, and the number of
entries goes down. -/
def eraseFromBuffer (bytes : List UInt8) (start dataLen stop : ℕ) : List UInt8 :=
  let n := (bufferWord bytes 0).getD 0
  le32 (dec32 n) ++ (bytes.take start).drop 4 ++
    ((bytes.take stop).drop (start + dataLen) ++ List.replicate dataLen 0) ++ bytes.drop stop

/-- The branch of `erase_directory_entry` that frees the last sector: slot `sectorIdx` is given
back and emptied. -/
def freeDirSector (s : Storage) (dir : Inode) (sectorIdx : ℕ) : Option (Storage × Inode) :=
  if sectorIdx ≥ maxFileSectors then none
  else if sectorIdx ≥ 128 + 11 then do
    let s := s.efficientReadSector dir.dIndirectSector
    let sIndirSector := s.buffer.word ((sectorIdx - (128 + 11)) / 128)
    let s := s.efficientReadSector sIndirSector
    let idx := (sectorIdx - (128 + 11)) % 128
    let header ← freeSector s.header (s.buffer.word idx)
    return ({ s with header }.writeBuffer sIndirSector fun b => b.setWord idx 0, dir)
  else if h : sectorIdx < 11 then do
    let header ← freeSector s.header (dir.dataSectors ⟨sectorIdx, h⟩)
    return ({ s with header },
      { dir with dataSectors := Function.update dir.dataSectors ⟨sectorIdx, h⟩ 0 })
  else do
    let s := s.efficientReadSector dir.indirectSector
    let header ← freeSector s.header (s.buffer.word (sectorIdx - 11))
    return ({ s with header }.writeBuffer dir.indirectSector fun b => b.setWord (sectorIdx - 11) 0,
      dir)

/-- `first_sector_header`: with one sector the entry count in front is not part of the entries. -/
def firstSectorHeader (dir : Inode) : ℕ := if dir.dataSectors secondSlot = 0 then 4 else 0

def Inode.withSize (n : Inode) (size : ℕ) : Inode := { n with size }

/-- The part of `erase_directory_entry` that takes `dataLen` bytes off the size of a directory whose
entries end at `stop`, and frees its last sector if nothing is left there. -/
def shrinkDir (s : Storage) (dir : Inode) (dataLen stop : ℕ) : Option (Storage × Inode) :=
  let dir := dir.withSize ((dir.size + 2 ^ 32 - dataLen) % 2 ^ 32)
  if (stop - firstSectorHeader dir) % 512 ≤ dataLen then
    (freeDirSector s dir (stop / 512)).map fun r =>
      (r.1, if firstSectorHeader dir ≠ 0 then r.2.withSize 0 else r.2)
  else some (s, dir)

/-- `erase_directory_entry` up to the write-back: the buffer that is left to write and where it
ends, if the entry was found; `none` where the scan leaves the buffer. -/
def prepareErase (s : Storage) (dir : Inode) (id : ℕ) :
    Option (Storage × Inode × Option (List UInt8 × ℕ)) :=
  if dir.dataSectors firstSlot = 0 then some (s, dir, none)
  else do
    let r := readDirEntriesToBuffer s dir
    let bytes ← r.2
    let n ← bufferWord bytes 0
    let (found, stop) ← scanEntries bytes id n 4 none
    match found with
    | none => return (r.1, dir, none)
    | some (start, dataLen) =>
      let d ← shrinkDir r.1 dir dataLen stop
      return (d.1, d.2, some (eraseFromBuffer bytes start dataLen stop, stop))

def writeBack (s : Storage) (dir : Inode) : Option (List UInt8 × ℕ) → Storage
  | none => s
  | some (buffer, stop) => writeDataBufferToDisk s dir buffer stop

def eraseDirectoryEntry (s : Storage) (dir : Inode) (id : ℕ) : Option (Storage × Inode) :=
  (prepareErase s dir id).map fun r => (writeBack r.1 r.2.1 r.2.2, r.2.1)

def freeSectors : List ℕ → SectorsHeaderdata → Option SectorsHeaderdata
  | [], h => some h
  | x :: xs, h => if x ≠ 0 then (freeSector h x).bind (freeSectors xs) else freeSectors xs h

def freeIndirectSector (s : Storage) (sector : ℕ) : Option Storage := do
  let s := s.efficientReadSector sector
  let header ← freeSectors ((List.range 128).map s.buffer.word) s.header
  let header ← freeSector header sector
  return { s with header }

/-- The loop over the double indirect sector in `delete_file_by_inode`, for the entries from `i`
on. Freeing one block reloads the buffer, and the next entry is taken from what it holds then. -/
def freeDoubleIndirect : ℕ → ℕ → Storage → Option Storage
  | 0, _, s => some s
  | k + 1, i, s =>
    if s.buffer.word i ≠ 0 then
      (freeIndirectSector s (s.buffer.word i)).bind (freeDoubleIndirect k (i + 1))
    else freeDoubleIndirect k (i + 1) s

def freeDoubleIndirectSector (s : Storage) (inode : Inode) : Option Storage :=
  if inode.dIndirectSector ≠ 0 then do
    let s ← freeDoubleIndirect 128 0 (s.efficientReadSector inode.dIndirectSector)
    let header ← freeSector s.header inode.dIndirectSector
    return { s with header }
  else some s

def freeSingleIndirectSector (s : Storage) (inode : Inode) : Option Storage :=
  if inode.indirectSector ≠ 0 then freeIndirectSector s inode.indirectSector else some s

def freeFileSectors (s : Storage) (inode : Inode) : Option Storage := do
  let s ← freeDoubleIndirectSector s inode
  let s ← freeSingleIndirectSector s inode
  -- the direct slots are freed up to the first empty one
  let header ← freeSectors ((List.ofFn inode.dataSectors).takeWhile (· != 0)) s.header
  return { s with header }

/-- No sector that `write_data_buffer_to_disk` writes is the cached one, unless it writes there
what the cache holds. -/
def WriteMissesCache : ℕ → ℕ → Storage → Inode → List UInt8 → Prop
  | 0, _, _, _, _ => True
  | k + 1, i, s, dir, bytes =>
    let r := dirSector s dir i
    writeDataFails dir i = false → r.2 ≠ 0 →
      (lba28 r.2 = lba28 r.1.sectors.tag → dataChunk bytes i = r.1.buffer) ∧
        WriteMissesCache k (i + 1)
          { r.1 with sectors := r.1.sectors.put lba28 r.2 (dataChunk bytes i) } dir bytes

def WriteBackMissesCache (s : Storage) (dir : Inode) : Option (List UInt8 × ℕ) → Prop
  | none => True
  | some (buffer, stop) => WriteMissesCache ((stop + 511) / 512) 0 s dir buffer

section coherence
variable {s : Storage} {dir : Inode}

theorem countIndirectSectorEntries_fst (s : Storage) (sector : ℕ) :
    (countIndirectSectorEntries s sector).1 = s.efficientReadSector sector := by
  unfold countIndirectSectorEntries
  generalize List.range 128 = l
  rfl

theorem readDirSectors_succ_fst (k i : ℕ) (s : Storage) (dir : Inode) :
    (readDirSectors (k + 1) i s dir).1 =
      (readDirSectors k (i + 1) (dirSector s dir i).1 dir).1 := by
  simp only [readDirSectors]

structure Storage.Reads (s s' : Storage) : Prop where
  coherent : s.Coherent → s'.Coherent
  header : s'.header = s.header

theorem Storage.Reads.refl (s : Storage) : s.Reads s := ⟨id, rfl⟩

theorem Storage.Reads.trans {s' s'' : Storage} (h : s.Reads s') (h' : s'.Reads s'') : s.Reads s'' :=
  ⟨fun hc => h'.coherent (h.coherent hc), h'.header.trans h.header⟩

theorem Storage.Reads.kept {s' : Storage} (h : s.Reads s') : s.Kept s' :=
  ⟨h.coherent, congrArg SectorsHeaderdata.inodeSectorMap h.header⟩

theorem Storage.reads_efficientReadSector (s : Storage) (sector : ℕ) :
    s.Reads (s.efficientReadSector sector) := ⟨fun hc => hc.efficientReadSector sector, rfl⟩

theorem countIndirectSectorEntries_reads (s : Storage) (sector : ℕ) :
    s.Reads (countIndirectSectorEntries s sector).1 := by
  rw [countIndirectSectorEntries_fst]
  exact s.reads_efficientReadSector sector

theorem countDoubleIndirect_reads (k i total : ℕ) (s : Storage) :
    s.Reads (countDoubleIndirect k i s total).1 := by
  induction k generalizing i s total with
  | zero =>
    rw [countDoubleIndirect]
    exact .refl s
  | succ k ih =>
    rw [countDoubleIndirect]
    by_cases hw : s.buffer.word i ≠ 0
    · rw [if_pos hw]
      exact (countIndirectSectorEntries_reads s _).trans (ih _ _ _)
    · rw [if_neg hw]
      exact ih _ _ _

theorem countDirSectors_reads (s : Storage) (dir : Inode) :
    s.Reads (countDirSectors s dir).1 := by
  have h₁ : s.Reads (if dir.indirectSector ≠ 0 then
      countIndirectSectorEntries s dir.indirectSector else (s, 0)).1 := by
    split_ifs
    · exact countIndirectSectorEntries_reads s _
    · exact .refl s
  unfold countDirSectors
  generalize (if dir.indirectSector ≠ 0 then countIndirectSectorEntries s dir.indirectSector
    else (s, 0)) = r at h₁ ⊢
  dsimp only
  split_ifs
  · exact (h₁.trans (r.1.reads_efficientReadSector _)).trans (countDoubleIndirect_reads _ _ _ _)
  · exact h₁

theorem dirSector_reads (s : Storage) (dir : Inode) (i : ℕ) : s.Reads (dirSector s dir i).1 := by
  unfold dirSector
  split_ifs
  · exact .refl s
  · exact s.reads_efficientReadSector _
  · exact (s.reads_efficientReadSector _).trans (Storage.reads_efficientReadSector _ _)

theorem readDirSectors_reads (k i : ℕ) (s : Storage) (dir : Inode) :
    s.Reads (readDirSectors k i s dir).1 := by
  induction k generalizing i s with
  | zero => exact .refl s
  | succ k ih =>
    rw [readDirSectors_succ_fst]
    exact (dirSector_reads s dir i).trans (ih (i + 1) _)

theorem readDirEntriesToBuffer_reads (s : Storage) (dir : Inode) :
    s.Reads (readDirEntriesToBuffer s dir).1 := by
  have hcount := countDirSectors_reads s dir
  unfold readDirEntriesToBuffer
  dsimp only
  split_ifs
  · exact hcount
  · exact hcount.trans (readDirSectors_reads _ _ _ dir)

theorem writeDirectoryEntry_coherent {s' : Storage} {dir' : Inode} {id : ℕ} {name : List UInt8}
    (h : writeDirectoryEntry s dir id name = some (s', dir')) : s'.Coherent := by
  obtain ⟨⟨s₁, dir₁⟩, -, h⟩ := Option.bind_eq_some_iff.mp h
  obtain ⟨rfl, -⟩ := Prod.mk.inj (Option.some.inj h)
  exact Storage.writeBuffer_coherent rfl _

theorem Storage.Coherent.withHeader (h : s.Coherent) (header : SectorsHeaderdata) :
    ({ s with header } : Storage).Coherent := h

theorem freeSectors_inodeSectorMap {l : List ℕ} {h h' : SectorsHeaderdata}
    (hf : freeSectors l h = some h') : h'.inodeSectorMap = h.inodeSectorMap := by
  induction l generalizing h with
  | nil =>
    obtain rfl := Option.some.inj hf
    rfl
  | cons x xs ih =>
    unfold freeSectors at hf
    split_ifs at hf
    · obtain ⟨h₁, hx, hf⟩ := Option.bind_eq_some_iff.mp hf
      exact (ih hf).trans (freeSector_inodeSectorMap hx)
    · exact ih hf

theorem Storage.kept_withHeader {header : SectorsHeaderdata}
    (h : header.inodeSectorMap = s.header.inodeSectorMap) : s.Kept { s with header } := ⟨id, h⟩

theorem freeIndirectSector_kept {s' : Storage} {sector : ℕ}
    (h : freeIndirectSector s sector = some s') : s.Kept s' := by
  obtain ⟨h₁, hl, h⟩ := Option.bind_eq_some_iff.mp h
  obtain ⟨h₂, hx, h⟩ := Option.bind_eq_some_iff.mp h
  obtain rfl := Option.some.inj h
  exact (s.reads_efficientReadSector sector).kept.trans
    (Storage.kept_withHeader ((freeSector_inodeSectorMap hx).trans (freeSectors_inodeSectorMap hl)))

theorem freeDoubleIndirect_kept {s' : Storage} (k i : ℕ)
    (h : freeDoubleIndirect k i s = some s') : s.Kept s' := by
  induction k generalizing i s with
  | zero =>
    obtain rfl := Option.some.inj h
    exact .refl s
  | succ k ih =>
    rw [freeDoubleIndirect] at h
    by_cases hw : s.buffer.word i ≠ 0
    · rw [if_pos hw] at h
      obtain ⟨s₁, h₁, h⟩ := Option.bind_eq_some_iff.mp h
      exact (freeIndirectSector_kept h₁).trans (ih (i + 1) h)
    · rw [if_neg hw] at h
      exact ih (i + 1) h

theorem freeDoubleIndirectSector_kept {s' : Storage} {inode : Inode}
    (h : freeDoubleIndirectSector s inode = some s') : s.Kept s' := by
  unfold freeDoubleIndirectSector at h
  split_ifs at h
  · obtain ⟨s₁, h₁, h⟩ := Option.bind_eq_some_iff.mp h
    obtain ⟨header, hx, h⟩ := Option.bind_eq_some_iff.mp h
    obtain rfl := Option.some.inj h
    exact ((s.reads_efficientReadSector _).kept.trans (freeDoubleIndirect_kept _ _ h₁)).trans
      (Storage.kept_withHeader (freeSector_inodeSectorMap hx))
  · obtain rfl := Option.some.inj h
    exact .refl s

theorem freeFileSectors_kept {s' : Storage} {inode : Inode}
    (h : freeFileSectors s inode = some s') : s.Kept s' := by
  unfold freeFileSectors at h
  obtain ⟨s₁, h₁, h⟩ := Option.bind_eq_some_iff.mp h
  obtain ⟨s₂, h₂, h⟩ := Option.bind_eq_some_iff.mp h
  obtain ⟨header, hl, h⟩ := Option.bind_eq_some_iff.mp h
  obtain rfl := Option.some.inj h
  have hsingle : s₁.Kept s₂ := by
    unfold freeSingleIndirectSector at h₂
    split_ifs at h₂
    · exact freeIndirectSector_kept h₂
    · obtain rfl := Option.some.inj h₂
      exact .refl s₁
  exact ((freeDoubleIndirectSector_kept h₁).trans hsingle).trans
    (Storage.kept_withHeader (freeSectors_inodeSectorMap hl))

theorem freeDirSector_kept {s' : Storage} {dir' : Inode} {sectorIdx : ℕ}
    (h : freeDirSector s dir sectorIdx = some (s', dir')) : s.Kept s' ∧ dir'.key = dir.key := by
  unfold freeDirSector at h
  split_ifs at h
  all_goals
    obtain ⟨header, hx, h⟩ := Option.bind_eq_some_iff.mp h
    obtain ⟨rfl, rfl⟩ := Prod.mk.inj (Option.some.inj h)
  · exact ⟨⟨fun _ => Storage.writeBuffer_coherent (Cached.fetch_tag _) _,
      freeSector_inodeSectorMap hx⟩, rfl⟩
  · exact ⟨Storage.kept_withHeader (freeSector_inodeSectorMap hx), rfl⟩
  · exact ⟨⟨fun _ => Storage.writeBuffer_coherent (Cached.fetch_tag _) _,
      freeSector_inodeSectorMap hx⟩, rfl⟩

theorem firstSectorHeader_withSize (n : Inode) (size : ℕ) :
    firstSectorHeader (n.withSize size) = firstSectorHeader n := rfl

theorem shrinkDir_cases {s' : Storage} {dir' : Inode} {dataLen stop : ℕ}
    (h : shrinkDir s dir dataLen stop = some (s', dir')) :
    (stop - firstSectorHeader dir) % 512 ≤ dataLen ∧ (∃ dir₁,
      freeDirSector s (dir.withSize ((dir.size + 2 ^ 32 - dataLen) % 2 ^ 32)) (stop / 512) =
        some (s', dir₁) ∧ dir' = if firstSectorHeader dir ≠ 0 then dir₁.withSize 0 else dir₁) ∨
    dataLen < (stop - firstSectorHeader dir) % 512 ∧ s' = s ∧
      dir' = dir.withSize ((dir.size + 2 ^ 32 - dataLen) % 2 ^ 32) := by
  unfold shrinkDir at h
  have hheader := firstSectorHeader_withSize dir ((dir.size + 2 ^ 32 - dataLen) % 2 ^ 32)
  generalize dir.withSize ((dir.size + 2 ^ 32 - dataLen) % 2 ^ 32) = dir₀ at h hheader ⊢
  dsimp only at h
  rw [hheader] at h
  by_cases hfree : (stop - firstSectorHeader dir) % 512 ≤ dataLen
  · rw [if_pos hfree] at h
    obtain ⟨⟨s₁, dir₁⟩, h₁, hr⟩ := Option.map_eq_some_iff.mp h
    obtain ⟨rfl, rfl⟩ := Prod.mk.inj hr
    exact .inl ⟨hfree, dir₁, h₁, rfl⟩
  · rw [if_neg hfree] at h
    obtain ⟨rfl, rfl⟩ := Prod.mk.inj (Option.some.inj h)
    exact .inr ⟨by omega, rfl, rfl⟩

/-- What `erase_directory_entry` does before the write-back: nothing in a directory without sectors,
only reads if the entry is not there, and otherwise it takes the entry out of the buffer and off the
directory. -/
theorem prepareErase_cases {s' : Storage} {dir' : Inode} {id : ℕ} {w : Option (List UInt8 × ℕ)}
    (h : prepareErase s dir id = some (s', dir', w)) :
    dir.dataSectors firstSlot = 0 ∧ s' = s ∧ dir' = dir ∧ w = none ∨
    dir.dataSectors firstSlot ≠ 0 ∧ ∃ bytes n found stop,
      (readDirEntriesToBuffer s dir).2 = some bytes ∧ bufferWord bytes 0 = some n ∧
      scanEntries bytes id n 4 none = some (found, stop) ∧
      (found = none ∧ s' = (readDirEntriesToBuffer s dir).1 ∧ dir' = dir ∧ w = none ∨
        ∃ start dataLen, found = some (start, dataLen) ∧
          shrinkDir (readDirEntriesToBuffer s dir).1 dir dataLen stop = some (s', dir') ∧
          w = some (eraseFromBuffer bytes start dataLen stop, stop)) := by
  unfold prepareErase at h
  by_cases h₀ : dir.dataSectors firstSlot = 0
  · rw [if_pos h₀] at h
    obtain ⟨rfl, hd⟩ := Prod.mk.inj (Option.some.inj h)
    obtain ⟨rfl, rfl⟩ := Prod.mk.inj hd
    exact .inl ⟨h₀, rfl, rfl, rfl⟩
  rw [if_neg h₀] at h
  obtain ⟨bytes, hbytes, h⟩ := Option.bind_eq_some_iff.mp h
  obtain ⟨n, hn, h⟩ := Option.bind_eq_some_iff.mp h
  obtain ⟨⟨found, stop⟩, hscan, h⟩ := Option.bind_eq_some_iff.mp h
  refine .inr ⟨h₀, bytes, n, found, stop, hbytes, hn, hscan, ?_⟩
  cases found with
  | none =>
    obtain ⟨rfl, hd⟩ := Prod.mk.inj (Option.some.inj h)
    obtain ⟨rfl, rfl⟩ := Prod.mk.inj hd
    exact .inl ⟨rfl, rfl, rfl, rfl⟩
  | some e =>
    obtain ⟨⟨s₁, dir₁⟩, h₁, h⟩ := Option.bind_eq_some_iff.mp h
    obtain ⟨rfl, hd⟩ := Prod.mk.inj (Option.some.inj h)
    obtain ⟨rfl, rfl⟩ := Prod.mk.inj hd
    exact .inr ⟨e.1, e.2, rfl, h₁, rfl⟩

@[simp] theorem Inode.key_withSize (n : Inode) (size : ℕ) : (n.withSize size).key = n.key := rfl

theorem shrinkDir_kept {s' : Storage} {dir' : Inode} {dataLen stop : ℕ}
    (h : shrinkDir s dir dataLen stop = some (s', dir')) : s.Kept s' ∧ dir'.key = dir.key := by
  obtain ⟨-, dir₁, hfree, rfl⟩ | ⟨-, rfl, rfl⟩ := shrinkDir_cases h
  · obtain ⟨hkept, hkey⟩ := freeDirSector_kept hfree
    rw [Inode.key_withSize] at hkey
    refine ⟨hkept, Eq.trans ?_ hkey⟩
    split <;> simp only [Inode.key_withSize]
  · exact ⟨.refl s', Inode.key_withSize dir _⟩

theorem prepareErase_kept {s' : Storage} {dir' : Inode} {id : ℕ} {w : Option (List UInt8 × ℕ)}
    (h : prepareErase s dir id = some (s', dir', w)) : s.Kept s' ∧ dir'.key = dir.key := by
  have hr := (readDirEntriesToBuffer_reads s dir).kept
  obtain ⟨-, rfl, rfl, -⟩ | ⟨-, bytes, n, found, stop, -, -, -, hf⟩ := prepareErase_cases h
  · exact ⟨.refl s', rfl⟩
  obtain ⟨-, rfl, rfl, -⟩ | ⟨start, dataLen, -, hs, -⟩ := hf
  · exact ⟨hr, rfl⟩
  · obtain ⟨hkept, hkey⟩ := shrinkDir_kept hs
    exact ⟨hr.trans hkept, hkey⟩

theorem writeDataLoop_coherent (k i : ℕ) (bytes : List UInt8) (hc : s.Coherent)
    (hm : WriteMissesCache k i s dir bytes) : (writeDataLoop k i s dir bytes).Coherent := by
  induction k generalizing i s with
  | zero => exact hc
  | succ k ih =>
    have hr := (dirSector_reads s dir i).coherent hc
    rw [writeDataLoop]
    by_cases hfail : writeDataFails dir i = true
    · rw [if_pos hfail]
      exact hc
    rw [if_neg hfail]
    by_cases hzero : (dirSector s dir i).2 = 0
    · rw [if_pos hzero]
      exact hr
    rw [if_neg hzero]
    obtain ⟨hput, hrest⟩ := hm (Bool.eq_false_iff.mpr hfail) hzero
    exact ih (i + 1) ((Cached.Coherent.put_iff hr _ _).mpr hput) hrest

theorem writeBack_coherent {w : Option (List UInt8 × ℕ)} (hc : s.Coherent)
    (hm : WriteBackMissesCache s dir w) : (writeBack s dir w).Coherent := by
  cases w with
  | none => exact hc
  | some e => exact writeDataLoop_coherent _ _ _ hc hm

theorem writeMissesCache_of_direct (k i : ℕ) (bytes : List UInt8) (hk : i + k ≤ 11)
    (h : ∀ j, dir.dataSectors j ≠ 0 → lba28 (dir.dataSectors j) ≠ lba28 s.sectors.tag) :
    WriteMissesCache k i s dir bytes := by
  induction k generalizing i s with
  | zero => trivial
  | succ k ih =>
    have hdir : dirSector s dir i = (s, dir.dataSectors ⟨i, by omega⟩) := by
      rw [dirSector, dif_pos (by omega)]
    rw [WriteMissesCache, hdir]
    intro _ hne
    exact ⟨fun htag => absurd htag (h _ hne), ih (i + 1) (by omega) h⟩

end coherence

/-! No directory operation touches the inode map, and the directory stays the same inode. -/

section frame
variable {s s' : Storage} {dir dir' : Inode}

theorem writeDataLoop_header (k i : ℕ) (s : Storage) (dir : Inode) (bytes : List UInt8) :
    (writeDataLoop k i s dir bytes).header = s.header := by
  induction k generalizing i s with
  | zero => rfl
  | succ k ih =>
    rw [writeDataLoop]
    by_cases hfail : writeDataFails dir i = true
    · rw [if_pos hfail]
    rw [if_neg hfail]
    by_cases hzero : (dirSector s dir i).2 = 0
    · rw [if_pos hzero, (dirSector_reads s dir i).header]
    · rw [if_neg hzero, ih]
      exact (dirSector_reads s dir i).header

theorem writeBack_header (s : Storage) (dir : Inode) (w : Option (List UInt8 × ℕ)) :
    (writeBack s dir w).header = s.header := by
  cases w with
  | none => rfl
  | some e => exact writeDataLoop_header _ _ s dir e.1

theorem eraseDirectoryEntry_frame {id : ℕ} (h : eraseDirectoryEntry s dir id = some (s', dir')) :
    s'.inodeMap = s.inodeMap ∧ dir'.key = dir.key := by
  obtain ⟨⟨s₁, dir₁, w⟩, h₁, hw⟩ := Option.map_eq_some_iff.mp h
  obtain ⟨rfl, rfl⟩ := Prod.mk.inj hw
  obtain ⟨hkept, hkey⟩ := prepareErase_kept h₁
  exact ⟨(congrArg SectorsHeaderdata.inodeSectorMap (writeBack_header s₁ dir₁ w)).trans
    hkept.inodeMap, hkey⟩

end frame

end BrickOS.Filesystem
