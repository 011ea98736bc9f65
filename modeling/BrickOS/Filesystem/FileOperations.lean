import BrickOS.Filesystem.SectorAllocator
import BrickOS.Lib.Block
import BrickOS.Lib.Cache

/-! Reading and writing regular files. A file's sectors are found through 11 direct slots, an
indirect sector and a double indirect sector, all read through the one-sector cache. -/
namespace BrickOS.Filesystem
open BrickOS.Lib

abbrev Sector := Block 512

/-- The place on disk that `read_sectors` and `write_sectors` address: 28 bits of the number. -/
def lba28 (sector : ℕ) : ℕ := sector % 2 ^ 28

structure Storage where
  header : SectorsHeaderdata
  sectors : Cached ℕ ℕ Sector

/-- `inode_t`, without its unused flag. -/
structure Inode where
  id : ℕ
  size : ℕ
  type : ℕ
  perms : ℕ
  privLvl : ℕ
  indirectSector : ℕ
  dIndirectSector : ℕ
  dataSectors : Fin 11 → ℕ

def firstSlot : Fin 11 := ⟨0, by decide⟩

def secondSlot : Fin 11 := ⟨1, by decide⟩

def fsTypeDir : ℕ := 2

def maxFileSectors : ℕ := 11 + 128 + 128 * 128

namespace Storage

def buffer (s : Storage) : Sector := s.sectors.buffer

def efficientReadSector (s : Storage) (sector : ℕ) : Storage :=
  { s with sectors := s.sectors.fetch lba28 sector }

/-- `read_sectors` into `last_read_sector`, which is then tagged with the sector. -/
def readSector (s : Storage) (sector : ℕ) : Storage :=
  { s with sectors := s.sectors.load lba28 sector }

def writeBuffer (s : Storage) (sector : ℕ) (f : Sector → Sector) : Storage :=
  { s with sectors := s.sectors.modify lba28 sector f }

end Storage

/-- `create_new_write_sector`, `none` for the panic of `allocate_sector`. -/
def createNewWriteSector (s : Storage) : Option (Storage × ℕ) :=
  (allocateSector s.header).map fun (header, newSector) =>
    -- the buffer is cleared, written to the new sector and tagged with it
    ({ header, sectors := { s.sectors.modify lba28 newSector (fun _ => Block.zero) with
        tag := newSector } }, newSector)

def getBlockEntry (s : Storage) (block idx : ℕ) (isWrite : Bool) : Option (Storage × ℕ) :=
  let s := s.efficientReadSector block
  let sector := s.buffer.word idx
  if isWrite && sector == 0 then
    (createNewWriteSector s).map fun (s, sector) =>
      ((s.efficientReadSector block).writeBuffer block fun b => b.setWord idx sector, sector)
  else some (s, sector)

def getBlock (s : Storage) (block : ℕ) (isWrite : Bool) : Option (Storage × ℕ) :=
  if isWrite && block == 0 then createNewWriteSector s else some (s, block)

/-- `get_sector_for_rw`; 0 signals an invalid index or, when reading, a sector that is not
there. -/
def getSectorForRw (s : Storage) (inode : Inode) (sectorIdx : ℕ) (isWrite : Bool) :
    Option (Storage × Inode × ℕ) :=
  if sectorIdx ≥ 128 * 128 + 128 + 11 then some (s, inode, 0)
  else if sectorIdx ≥ 128 + 11 then do
    let (s, dIndirectSector) ← getBlock s inode.dIndirectSector isWrite
    let (s, sIndirSector) ← getBlockEntry s dIndirectSector ((sectorIdx - (11 + 128)) / 128) isWrite
    let (s, sector) ← getBlockEntry s sIndirSector ((sectorIdx - (11 + 128)) % 128) isWrite
    return (s, { inode with dIndirectSector }, sector)
  else if h : sectorIdx < 11 then
    if isWrite && inode.dataSectors ⟨sectorIdx, h⟩ == 0 then
      (createNewWriteSector s).map fun (s, sector) =>
        (s, { inode with dataSectors := Function.update inode.dataSectors ⟨sectorIdx, h⟩ sector },
          sector)
    else some (s, inode, inode.dataSectors ⟨sectorIdx, h⟩)
  else do
    let (s, indirectSector) ← getBlock s inode.indirectSector isWrite
    let (s, sector) ← getBlockEntry s indirectSector (sectorIdx - 11) isWrite
    return (s, { inode with indirectSector }, sector)

structure OpenFile where
  flags : ℕ
  inodeId : ℕ
  rwPointer : ℕ
deriving DecidableEq, Repr

inductive Whence where
  | set | cur | fromEnd
deriving DecidableEq, Repr

def fsSeek (file : OpenFile) (inode : Inode) (offset : ℕ) (whence : Whence) : OpenFile :=
  let rwPointer := match whence with
    | .cur => (file.rwPointer + offset) % 2 ^ 32
    | .fromEnd => (inode.size + offset) % 2 ^ 32
    | .set => offset
  { file with rwPointer := min rwPointer inode.size }

inductive FileError where
  | invalidPermissions | invalidTarget | noCapacity | readOverEnd
deriving DecidableEq, Repr

/-- The loop of `fs_write`, for at most `k` rounds: where it ends, and whether it wrote all. -/
def fsWriteLoop : ℕ → Storage → Inode → ℕ → List UInt8 → Option (Storage × Inode × ℕ × Bool)
  | 0, s, inode, writePos, bytes => some (s, inode, writePos, bytes.isEmpty)
  | k + 1, s, inode, writePos, bytes =>
    if bytes.isEmpty then some (s, inode, writePos, true)
    else if writePos / 512 ≥ maxFileSectors then some (s, inode, writePos, false)
    else do
      let (s, inode, sector) ← getSectorForRw s inode (writePos / 512) true
      if sector = 0 then return (s, inode, writePos, false)
      let sectorOffset := writePos % 512
      let toWrite := min bytes.length (512 - sectorOffset)
      let s := (s.readSector sector).writeBuffer sector fun b =>
        b.blit sectorOffset (bytes.take toWrite)
      fsWriteLoop k s inode (writePos + toWrite) (bytes.drop toWrite)

/-- `fs_write`. Every round writes a byte, so the length of the buffer bounds the rounds. When
the capacity runs out, what was written stays and the size is not changed. -/
def fsWrite (s : Storage) (inode : Inode) (file : OpenFile) (bytes : List UInt8) :
    Option (Storage × Inode × Except FileError ℕ) :=
  if file.flags &&& fileFlagWrite = 0 then some (s, inode, .error .invalidPermissions)
  else if inode.type = fsTypeDir then some (s, inode, .error .invalidTarget)
  else do
    let writePos := if file.flags &&& fileFlagAppend ≠ 0 then inode.size else file.rwPointer
    let (s, inode, writePos, done) ← fsWriteLoop bytes.length s inode writePos bytes
    if done then return (s, { inode with size := max inode.size writePos }, .ok bytes.length)
    else return (s, inode, .error .noCapacity)

def fsReadLoop : ℕ → Storage → Inode → ℕ → ℕ → List UInt8 →
    Option (Storage × Except FileError (List UInt8))
  | 0, s, _, _, _, acc => some (s, .ok acc)
  | k + 1, s, inode, readPos, size, acc =>
    if size = 0 then some (s, .ok acc)
    else if readPos / 512 ≥ maxFileSectors then some (s, .error .readOverEnd)
    else do
      let (s, _, sector) ← getSectorForRw s inode (readPos / 512) false
      if sector = 0 then return (s, .ok acc)
      let sectorOffset := readPos % 512
      let s := s.readSector sector
      let toRead := min size (512 - sectorOffset)
      fsReadLoop k s inode (readPos + toRead) (size - toRead)
        (acc ++ (List.range toRead).map fun i => s.buffer.byte (sectorOffset + i))

def fileReadAll : ℕ := 2 ^ 32 - 1

def fsRead (s : Storage) (inode : Inode) (file : OpenFile) (size : ℕ) :
    Option (Storage × Except FileError (List UInt8)) :=
  if file.flags &&& fileFlagRead = 0 then some (s, .error .invalidPermissions)
  else
    let size := if size = fileReadAll then inode.size else size
    if inode.type = fsTypeDir then some (s, .error .invalidTarget)
    else fsReadLoop size s inode file.rwPointer size []

/-- `last_read_sector` holds what the disk holds under `last_read_sector_idx`. -/
def Storage.Coherent (s : Storage) : Prop := s.sectors.Coherent lba28

section coherence
variable {s s' : Storage} {inode inode' : Inode} {sector : ℕ}

theorem Storage.Coherent.efficientReadSector (h : s.Coherent) (sector : ℕ) :
    (s.efficientReadSector sector).Coherent := h.fetch sector

theorem Storage.readSector_coherent (s : Storage) (sector : ℕ) : (s.readSector sector).Coherent :=
  Cached.load_coherent s.sectors sector

theorem Storage.writeBuffer_coherent (h : s.sectors.tag = sector) (f : Sector → Sector) :
    (s.writeBuffer sector f).Coherent := Cached.modify_coherent h f

theorem createNewWriteSector_coherent (h : createNewWriteSector s = some (s', sector)) :
    s'.Coherent := by
  obtain ⟨⟨header, r⟩, -, hr⟩ := Option.map_eq_some_iff.mp h
  obtain ⟨rfl, -⟩ := Prod.mk.inj hr
  simp [Storage.Coherent, Cached.Coherent, Cached.modify]

end coherence

def Storage.inodeMap (s : Storage) : Vector UInt8 100 := s.header.inodeSectorMap

def Inode.key (n : Inode) : ℕ × ℕ := (n.id, n.type)

structure Storage.Kept (s s' : Storage) : Prop where
  coherent : s.Coherent → s'.Coherent
  inodeMap : s'.inodeMap = s.inodeMap

/-! Reads and writes keep the cache and the inode map, and the file stays the same inode. -/

section kept
variable {s s' : Storage} {inode inode' : Inode} {sector : ℕ}

theorem Storage.Kept.refl (s : Storage) : s.Kept s := ⟨id, rfl⟩

theorem Storage.Kept.trans {s'' : Storage} (h : s.Kept s') (h' : s'.Kept s'') : s.Kept s'' :=
  ⟨fun hc => h'.coherent (h.coherent hc), h'.inodeMap.trans h.inodeMap⟩

theorem createNewWriteSector_kept (h : createNewWriteSector s = some (s', sector)) :
    s.Kept s' := by
  refine ⟨fun _ => createNewWriteSector_coherent h, ?_⟩
  obtain ⟨⟨header, r⟩, ha, hr⟩ := Option.map_eq_some_iff.mp h
  obtain ⟨rfl, -⟩ := Prod.mk.inj hr
  exact allocateSector_inodeSectorMap ha

theorem getBlock_kept {block : ℕ} {isWrite : Bool}
    (h : getBlock s block isWrite = some (s', sector)) : s.Kept s' := by
  unfold getBlock at h
  split_ifs at h
  · exact createNewWriteSector_kept h
  · obtain ⟨rfl, -⟩ := Prod.mk.inj (Option.some.inj h)
    exact .refl s

theorem getBlockEntry_kept {block idx : ℕ} {isWrite : Bool}
    (h : getBlockEntry s block idx isWrite = some (s', sector)) : s.Kept s' := by
  unfold getBlockEntry at h
  dsimp only at h
  split_ifs at h
  · obtain ⟨⟨s₁, r⟩, h₁, hr⟩ := Option.map_eq_some_iff.mp h
    obtain ⟨rfl, -⟩ := Prod.mk.inj hr
    have hmap := (createNewWriteSector_kept h₁).inodeMap
    exact ⟨fun _ => Storage.writeBuffer_coherent (Cached.fetch_tag block) _, hmap⟩
  · obtain ⟨rfl, -⟩ := Prod.mk.inj (Option.some.inj h)
    exact ⟨fun hc => hc.efficientReadSector block, rfl⟩

theorem getSectorForRw_kept {sectorIdx : ℕ} {isWrite : Bool}
    (h : getSectorForRw s inode sectorIdx isWrite = some (s', inode', sector)) :
    s.Kept s' ∧ inode'.key = inode.key := by
  unfold getSectorForRw at h
  split_ifs at h
  · obtain ⟨rfl, hn⟩ := Prod.mk.inj (Option.some.inj h)
    obtain ⟨rfl, -⟩ := Prod.mk.inj hn
    exact ⟨.refl s, rfl⟩
  · -- the three blocks of the double indirect range
    obtain ⟨⟨s₁, b₁⟩, h₁, h⟩ := Option.bind_eq_some_iff.mp h
    obtain ⟨⟨s₂, b₂⟩, h₂, h⟩ := Option.bind_eq_some_iff.mp h
    obtain ⟨⟨s₃, b₃⟩, h₃, h⟩ := Option.bind_eq_some_iff.mp h
    obtain ⟨rfl, hn⟩ := Prod.mk.inj (Option.some.inj h)
    obtain ⟨rfl, -⟩ := Prod.mk.inj hn
    exact ⟨((getBlock_kept h₁).trans (getBlockEntry_kept h₂)).trans (getBlockEntry_kept h₃), rfl⟩
  · obtain ⟨⟨s₁, r⟩, h₁, hr⟩ := Option.map_eq_some_iff.mp h
    obtain ⟨rfl, hn⟩ := Prod.mk.inj hr
    obtain ⟨rfl, -⟩ := Prod.mk.inj hn
    exact ⟨createNewWriteSector_kept h₁, rfl⟩
  · obtain ⟨rfl, hn⟩ := Prod.mk.inj (Option.some.inj h)
    obtain ⟨rfl, -⟩ := Prod.mk.inj hn
    exact ⟨.refl s, rfl⟩
  · obtain ⟨⟨s₁, b₁⟩, h₁, h⟩ := Option.bind_eq_some_iff.mp h
    obtain ⟨⟨s₂, b₂⟩, h₂, h⟩ := Option.bind_eq_some_iff.mp h
    obtain ⟨rfl, hn⟩ := Prod.mk.inj (Option.some.inj h)
    obtain ⟨rfl, -⟩ := Prod.mk.inj hn
    exact ⟨(getBlock_kept h₁).trans (getBlockEntry_kept h₂), rfl⟩

theorem fsWriteLoop_kept {k pos pos' : ℕ} {bytes : List UInt8} {done : Bool}
    (h : fsWriteLoop k s inode pos bytes = some (s', inode', pos', done)) :
    s.Kept s' ∧ inode'.key = inode.key := by
  induction k generalizing s inode pos bytes with
  | zero =>
    obtain ⟨rfl, hn⟩ := Prod.mk.inj (Option.some.inj h)
    obtain ⟨rfl, -⟩ := Prod.mk.inj hn
    exact ⟨.refl s, rfl⟩
  | succ k ih =>
    unfold fsWriteLoop at h
    split_ifs at h
    case pos | pos =>
      obtain ⟨rfl, hn⟩ := Prod.mk.inj (Option.some.inj h)
      obtain ⟨rfl, -⟩ := Prod.mk.inj hn
      exact ⟨.refl s, rfl⟩
    · obtain ⟨⟨s₁, inode₁, r⟩, h₁, h⟩ := Option.bind_eq_some_iff.mp h
      obtain ⟨hkept, hkey⟩ := getSectorForRw_kept h₁
      dsimp only at h
      split_ifs at h
      · obtain ⟨rfl, hn⟩ := Prod.mk.inj (Option.some.inj h)
        obtain ⟨rfl, -⟩ := Prod.mk.inj hn
        exact ⟨hkept, hkey⟩
      · obtain ⟨hkept', hkey'⟩ := ih h
        have hwritten : ∀ f, s₁.Kept ((s₁.readSector r).writeBuffer r f) :=
          fun f => ⟨fun _ => Storage.writeBuffer_coherent (Cached.load_tag r) f, rfl⟩
        exact ⟨(hkept.trans (hwritten _)).trans hkept', hkey'.trans hkey⟩

theorem fsWrite_kept {file : OpenFile} {bytes : List UInt8} {result : Except FileError ℕ}
    (h : fsWrite s inode file bytes = some (s', inode', result)) :
    s.Kept s' ∧ inode'.key = inode.key := by
  unfold fsWrite at h
  by_cases h₁ : file.flags &&& fileFlagWrite = 0
  · rw [if_pos h₁] at h
    obtain ⟨rfl, hn⟩ := Prod.mk.inj (Option.some.inj h)
    obtain ⟨rfl, -⟩ := Prod.mk.inj hn
    exact ⟨.refl s, rfl⟩
  rw [if_neg h₁] at h
  by_cases h₂ : inode.type = fsTypeDir
  · rw [if_pos h₂] at h
    obtain ⟨rfl, hn⟩ := Prod.mk.inj (Option.some.inj h)
    obtain ⟨rfl, -⟩ := Prod.mk.inj hn
    exact ⟨.refl s, rfl⟩
  rw [if_neg h₂] at h
  obtain ⟨⟨s₁, inode₁, pos, done⟩, hloop, h⟩ := Option.bind_eq_some_iff.mp h
  obtain ⟨hkept, hkey⟩ := fsWriteLoop_kept hloop
  dsimp only at h
  split_ifs at h
  all_goals
    obtain ⟨rfl, hn⟩ := Prod.mk.inj (Option.some.inj h)
    obtain ⟨rfl, -⟩ := Prod.mk.inj hn
    exact ⟨hkept, hkey⟩

theorem fsReadLoop_kept {k pos size : ℕ} {acc : List UInt8}
    {result : Except FileError (List UInt8)}
    (h : fsReadLoop k s inode pos size acc = some (s', result)) : s.Kept s' := by
  induction k generalizing s pos size acc with
  | zero =>
    obtain ⟨rfl, -⟩ := Prod.mk.inj (Option.some.inj h)
    exact .refl s
  | succ k ih =>
    unfold fsReadLoop at h
    split_ifs at h
    case pos | pos =>
      obtain ⟨rfl, -⟩ := Prod.mk.inj (Option.some.inj h)
      exact .refl s
    · obtain ⟨⟨s₁, inode₁, r⟩, h₁, h⟩ := Option.bind_eq_some_iff.mp h
      have hkept := (getSectorForRw_kept h₁).1
      dsimp only at h
      split_ifs at h
      · obtain ⟨rfl, -⟩ := Prod.mk.inj (Option.some.inj h)
        exact hkept
      · exact (hkept.trans ⟨fun _ => Storage.readSector_coherent s₁ r, rfl⟩).trans (ih h)

theorem fsRead_kept {file : OpenFile} {size : ℕ} {result : Except FileError (List UInt8)}
    (h : fsRead s inode file size = some (s', result)) : s.Kept s' := by
  unfold fsRead at h
  by_cases h₁ : file.flags &&& fileFlagRead = 0
  · rw [if_pos h₁] at h
    obtain ⟨rfl, -⟩ := Prod.mk.inj (Option.some.inj h)
    exact .refl s
  rw [if_neg h₁] at h
  by_cases h₂ : inode.type = fsTypeDir
  · rw [if_pos h₂] at h
    obtain ⟨rfl, -⟩ := Prod.mk.inj (Option.some.inj h)
    exact .refl s
  rw [if_neg h₂] at h
  exact fsReadLoop_kept h

end kept

end BrickOS.Filesystem
