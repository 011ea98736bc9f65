import BrickOS.Filesystem.Directory
import BrickOS.Lib.Keyed

/-! Creating and deleting files, and the filesystem as a whole. -/
namespace BrickOS.Filesystem
open BrickOS.Lib

structure Fs where
  storage : Storage
  inodes : List Inode
  inodeNamePairs : List InodeNamePair
  /-- `get_virt_dir_names_in_dir`, by the id of the directory. -/
  virtDirNames : ℕ → List (List UInt8)

def Fs.getInodeById (fs : Fs) (id : ℕ) : Option Inode := Keyed.lookup Inode.id fs.inodes id

def Fs.setInode (fs : Fs) (inode : Inode) : Fs :=
  { fs with inodes := Keyed.replace Inode.id fs.inodes inode }

def scanNames (bytes : List UInt8) : ℕ → ℕ → Option (List (List UInt8))
  | 0, _ => some []
  | k + 1, off => do
    let len ← bytes[off + 4]?
    if off + 5 + len.toNat ≤ bytes.length then
      let rest ← scanNames bytes k (off + 5 + len.toNat)
      return (bytes.drop (off + 5)).take len.toNat :: rest
    else none

/-- `get_all_names_in_dir` for an inode on disk; `none` for the null pointer that it returns when
this is no directory, and where it reads behind the buffer. -/
def getAllNamesInDir (fs : Fs) (dir : Inode) : Option (Storage × List (List UInt8)) :=
  if dir.type ≠ fsTypeDir then none
  else if dir.size < 4 then some (fs.storage, [])
  else
    let r := readDirEntriesToBuffer fs.storage dir
    match r.2 with
    | none => some (r.1, [])
    | some bytes => do
      let n ← bufferWord bytes 0
      let names ← scanNames bytes n 4
      return (r.1, names ++ fs.virtDirNames dir.id)

def cString (l : List UInt8) : List UInt8 := l.takeWhile (· != 0)

def strneq (a b : List UInt8) (lenA lenB : ℕ) : Bool :=
  (cString a).take (max lenA lenB) == (cString b).take (max lenA lenB)

def allocateInodeSection (h : SectorsHeaderdata) : Option (SectorsHeaderdata × ℕ) :=
  (findClearBit h.inodeSectorMap 800 0).map fun i =>
    ({ h with inodeSectorMap := bitSet h.inodeSectorMap i }, i)

def freeInodeSection (h : SectorsHeaderdata) (id : ℕ) : SectorsHeaderdata :=
  if !bitCheck h.inodeSectorMap id then h
  else if id = 0 ∨ id ≥ 800 then h
  else { h with inodeSectorMap := bitClear h.inodeSectorMap id }

inductive CreateError where
  | creationFailed | alreadyExists
deriving DecidableEq, Repr

/-- The first sector of a directory without one: allocated, and cleared through the buffer, whose
tag stays as it was. -/
def openDirectory (s : Storage) (dir : Inode) : Option (Storage × Inode) :=
  if dir.dataSectors firstSlot = 0 then
    (allocateSector s.header).map fun (header, sector) =>
      ({ header, sectors := s.sectors.modify lba28 sector fun _ => Block.zero },
        { dir with dataSectors := Function.update dir.dataSectors firstSlot sector, size := 4 })
  else some (s, dir)

def fsTypeVirtDir : ℕ := 6

/-- `FS_TYPE_VIRT_FILE`, which is also `FS_MAX_VALID_TYPE`. -/
def fsTypeVirtFile : ℕ := 7

def createInode (perms type privLvl id : ℕ) : Inode := ⟨id, 0, type, perms, privLvl, 0, 0, fun _ => 0⟩

def Fs.withFile (fs : Fs) (s : Storage) (dir file : Inode) (name : List UInt8) : Fs where
  storage := s
  inodes := Keyed.replace Inode.id fs.inodes dir ++ [file]
  inodeNamePairs := fs.inodeNamePairs ++ [⟨dir.id, file.id, name⟩]
  virtDirNames := fs.virtDirNames

def Fs.withoutFile (fs : Fs) (s : Storage) (dir : Inode) (id : ℕ) : Fs where
  storage := s
  inodes := Keyed.remove Inode.id (Keyed.replace Inode.id fs.inodes dir) id
  inodeNamePairs := Keyed.remove InodeNamePair.id fs.inodeNamePairs id
  virtDirNames := fs.virtDirNames

/-- The 8 bits of `strlen(name)` that every caller of `create_file` passes as `name_length`. -/
def nameLength (name : List UInt8) : ℕ := name.length % 2 ^ 8

/-- `create_file` in the directory `dir`; `none` for a panic or a null pointer. -/
def createFile (fs : Fs) (dir : Inode) (name : List UInt8) (type perms privLvl : ℕ) :
    Option (Fs × Except CreateError ℕ) := do
  if type > fsTypeVirtFile then return (fs, .error .creationFailed)
  if type = fsTypeVirtFile then return (fs, .error .creationFailed)
  if dir.type = fsTypeVirtDir then return (fs, .error .creationFailed)
  let (s, names) ← getAllNamesInDir fs dir
  if names.any fun str => strneq name str (nameLength name) str.length then
    return ({ fs with storage := s }, .error .alreadyExists)
  let (s, dir) ← openDirectory s dir
  let (header, id) ← allocateInodeSection s.header
  let entry := name.take (nameLength name)
  let (s, dir) ← writeDirectoryEntry { s with header } dir id entry
  return (fs.withFile s dir (createInode perms type privLvl id) entry, .ok id)

/-- `delete_file_by_inode`; `false` for a directory that still has sectors, `none` for a panic or
when no name is known for the inode. -/
def deleteFileByInode (fs : Fs) (dir inode : Inode) : Option (Fs × Bool) :=
  if inode.type = fsTypeDir ∧ inode.dataSectors firstSlot ≠ 0 then some (fs, false)
  else do
    let s ← freeFileSectors fs.storage inode
    let (s, dir) ← eraseDirectoryEntry s dir inode.id
    let _ ← Keyed.lookup InodeNamePair.id fs.inodeNamePairs inode.id
    let s := { s with header := freeInodeSection s.header inode.id }
    return (fs.withoutFile s dir inode.id, true)

def inodeBytes (n : Inode) : List UInt8 :=
  le32 n.id ++ le32 n.size ++
    [UInt8.ofNat n.type, UInt8.ofNat n.perms, UInt8.ofNat n.privLvl, 0] ++
    le32 n.indirectSector ++ le32 n.dIndirectSector ++ (List.ofFn n.dataSectors).flatMap le32

def fsRootDirId : ℕ := 801

def writeInodeToDisk (s : Storage) (n : Inode) : Storage :=
  let sectorIdx := if n.id = fsRootDirId then 0 else n.id / 8 + 1
  let sectorStart := if n.id = fsRootDirId then 0 else n.id % 8 * 64
  (s.efficientReadSector sectorIdx).writeBuffer sectorIdx fun b => b.blit sectorStart (inodeBytes n)

inductive FsCall where
  | createFile (dirId : ℕ) (name : List UInt8) (type perms privLvl : ℕ)
  | deleteFileByInode (dirId id : ℕ)
  | fsRead (file : OpenFile) (size : ℕ)
  | fsWrite (file : OpenFile) (bytes : List UInt8)
  | writeInodeToDisk (id : ℕ)

def FsCall.step (fs : Fs) : FsCall → Option Fs
  | .createFile dirId name type perms privLvl => do
    let dir ← fs.getInodeById dirId
    let r ← Filesystem.createFile fs dir name type perms privLvl
    return r.1
  | .deleteFileByInode dirId id => do
    let dir ← fs.getInodeById dirId
    let inode ← fs.getInodeById id
    let r ← Filesystem.deleteFileByInode fs dir inode
    return r.1
  | .fsRead file size => do
    let inode ← fs.getInodeById file.inodeId
    let r ← Filesystem.fsRead fs.storage inode file size
    return { fs with storage := r.1 }
  | .fsWrite file bytes => do
    let inode ← fs.getInodeById file.inodeId
    let r ← Filesystem.fsWrite fs.storage inode file bytes
    return { fs.setInode r.2.1 with storage := r.1 }
  | .writeInodeToDisk id => do
    let inode ← fs.getInodeById id
    return { fs with storage := Filesystem.writeInodeToDisk fs.storage inode }

/-- What `create_file` can do: refuse the arguments, find the name in the directory, or create the
file in four stages. -/
theorem createFile_cases {fs fs' : Fs} {dir : Inode} {name : List UInt8} {type perms privLvl : ℕ}
    {result : Except CreateError ℕ}
    (h : createFile fs dir name type perms privLvl = some (fs', result)) :
    fs' = fs ∧ result = .error .creationFailed ∨
    (∃ s names, getAllNamesInDir fs dir = some (s, names) ∧ fs' = { fs with storage := s } ∧
      result = .error .alreadyExists) ∨
    type < fsTypeVirtFile ∧ ∃ s₁ names s₂ dir₂ header id s₃ dir₃,
      getAllNamesInDir fs dir = some (s₁, names) ∧
      (∀ str ∈ names, strneq name str (nameLength name) str.length = false) ∧
      openDirectory s₁ dir = some (s₂, dir₂) ∧ allocateInodeSection s₂.header = some (header, id) ∧
      writeDirectoryEntry { s₂ with header } dir₂ id (name.take (nameLength name)) =
        some (s₃, dir₃) ∧
      fs' = fs.withFile s₃ dir₃ (createInode perms type privLvl id) (name.take (nameLength name)) ∧
      result = .ok id := by
  unfold createFile at h
  by_cases h₁ : type > fsTypeVirtFile
  · rw [if_pos h₁] at h
    obtain ⟨rfl, rfl⟩ := Prod.mk.inj (Option.some.inj h)
    exact .inl ⟨rfl, rfl⟩
  rw [if_neg h₁] at h
  by_cases h₂ : type = fsTypeVirtFile
  · rw [if_pos h₂] at h
    obtain ⟨rfl, rfl⟩ := Prod.mk.inj (Option.some.inj h)
    exact .inl ⟨rfl, rfl⟩
  rw [if_neg h₂] at h
  by_cases h₃ : dir.type = fsTypeVirtDir
  · rw [if_pos h₃] at h
    obtain ⟨rfl, rfl⟩ := Prod.mk.inj (Option.some.inj h)
    exact .inl ⟨rfl, rfl⟩
  rw [if_neg h₃] at h
  obtain ⟨⟨s₁, names⟩, hnames, h⟩ := Option.bind_eq_some_iff.mp h
  dsimp only at h
  by_cases h₄ : (names.any fun str => strneq name str (nameLength name) str.length) = true
  · rw [if_pos h₄] at h
    obtain ⟨rfl, rfl⟩ := Prod.mk.inj (Option.some.inj h)
    exact .inr (.inl ⟨s₁, names, hnames, rfl, rfl⟩)
  rw [if_neg h₄] at h
  obtain ⟨⟨s₂, dir₂⟩, hopen, h⟩ := Option.bind_eq_some_iff.mp h
  obtain ⟨⟨header, id⟩, halloc, h⟩ := Option.bind_eq_some_iff.mp h
  obtain ⟨⟨s₃, dir₃⟩, hentry, h⟩ := Option.bind_eq_some_iff.mp h
  obtain ⟨rfl, rfl⟩ := Prod.mk.inj (Option.some.inj h)
  refine .inr (.inr ⟨by omega, s₁, names, s₂, dir₂, header, id, s₃, dir₃, hnames, ?_, hopen, halloc,
    hentry, rfl, rfl⟩)
  simpa using h₄

/-- What `delete_file_by_inode` can do: refuse a directory with sectors, or free the sectors, erase
the entry and forget the inode. -/
theorem deleteFileByInode_cases {fs fs' : Fs} {dir inode : Inode} {deleted : Bool}
    (h : deleteFileByInode fs dir inode = some (fs', deleted)) :
    inode.type = fsTypeDir ∧ inode.dataSectors firstSlot ≠ 0 ∧ fs' = fs ∧ deleted = false ∨
    ¬(inode.type = fsTypeDir ∧ inode.dataSectors firstSlot ≠ 0) ∧ ∃ s₁ s₂ dir₂,
      freeFileSectors fs.storage inode = some s₁ ∧
      eraseDirectoryEntry s₁ dir inode.id = some (s₂, dir₂) ∧
      fs' = fs.withoutFile { s₂ with header := freeInodeSection s₂.header inode.id } dir₂ inode.id ∧
      deleted = true := by
  unfold deleteFileByInode at h
  by_cases hdir : inode.type = fsTypeDir ∧ inode.dataSectors firstSlot ≠ 0
  · rw [if_pos hdir] at h
    obtain ⟨rfl, rfl⟩ := Prod.mk.inj (Option.some.inj h)
    exact .inl ⟨hdir.1, hdir.2, rfl, rfl⟩
  rw [if_neg hdir] at h
  obtain ⟨s₁, h₁, h⟩ := Option.bind_eq_some_iff.mp h
  obtain ⟨⟨s₂, dir₂⟩, h₂, h⟩ := Option.bind_eq_some_iff.mp h
  obtain ⟨pair, -, h⟩ := Option.bind_eq_some_iff.mp h
  obtain ⟨rfl, rfl⟩ := Prod.mk.inj (Option.some.inj h)
  exact .inr ⟨hdir, s₁, s₂, dir₂, h₁, h₂, rfl, rfl⟩

section coherence
variable {fs fs' : Fs} {dir inode : Inode}

theorem getAllNamesInDir_reads {s' : Storage} {names : List (List UInt8)}
    (h : getAllNamesInDir fs dir = some (s', names)) : fs.storage.Reads s' := by
  have hr := readDirEntriesToBuffer_reads fs.storage dir
  unfold getAllNamesInDir at h
  split_ifs at h
  · obtain ⟨rfl, -⟩ := Prod.mk.inj (Option.some.inj h)
    exact .refl _
  · dsimp only at h
    cases hb : (readDirEntriesToBuffer fs.storage dir).2 with
    | none =>
      rw [hb] at h
      obtain ⟨rfl, -⟩ := Prod.mk.inj (Option.some.inj h)
      exact hr
    | some bytes =>
      rw [hb] at h
      obtain ⟨n, -, h⟩ := Option.bind_eq_some_iff.mp h
      obtain ⟨l, -, h⟩ := Option.bind_eq_some_iff.mp h
      obtain ⟨rfl, -⟩ := Prod.mk.inj (Option.some.inj h)
      exact hr

theorem createFile_coherent {name : List UInt8} {type perms privLvl : ℕ}
    {result : Except CreateError ℕ} (hc : fs.storage.Coherent)
    (h : createFile fs dir name type perms privLvl = some (fs', result)) :
    fs'.storage.Coherent := by
  obtain ⟨rfl, -⟩ | ⟨s, names, hnames, rfl, -⟩ |
    ⟨-, s₁, names, s₂, dir₂, header, id, s₃, dir₃, -, -, -, -, hentry, rfl, -⟩ := createFile_cases h
  · exact hc
  · exact (getAllNamesInDir_reads hnames).coherent hc
  · exact writeDirectoryEntry_coherent hentry

def DeleteMissesCache (fs : Fs) (dir inode : Inode) : Prop :=
  ∀ s s' dir' w, freeFileSectors fs.storage inode = some s →
    prepareErase s dir inode.id = some (s', dir', w) → WriteBackMissesCache s' dir' w

theorem deleteFileByInode_coherent {deleted : Bool} (hc : fs.storage.Coherent)
    (hm : DeleteMissesCache fs dir inode)
    (h : deleteFileByInode fs dir inode = some (fs', deleted)) : fs'.storage.Coherent := by
  obtain ⟨-, -, rfl, -⟩ | ⟨-, s₁, s₂, dir₂, h₁, h₂, rfl, -⟩ := deleteFileByInode_cases h
  · exact hc
  · obtain ⟨⟨s₃, dir₃, w⟩, h₃, hw⟩ := Option.map_eq_some_iff.mp h₂
    obtain ⟨rfl, rfl⟩ := Prod.mk.inj hw
    have hc₃ := (prepareErase_kept h₃).1.coherent ((freeFileSectors_kept h₁).coherent hc)
    exact (writeBack_coherent hc₃ (hm _ _ _ _ h₁ h₃)).withHeader _

theorem writeInodeToDisk_coherent (s : Storage) (n : Inode) :
    (writeInodeToDisk s n).Coherent := Storage.writeBuffer_coherent (Cached.fetch_tag _) _

/-- What a call must meet to leave the cache coherent: only a deletion can fail to. -/
def FsCall.MissesCache (fs : Fs) : FsCall → Prop
  | .deleteFileByInode dirId id => ∀ dir inode, fs.getInodeById dirId = some dir →
      fs.getInodeById id = some inode → DeleteMissesCache fs dir inode
  | _ => True

theorem FsCall.step_coherent {c : FsCall} (hm : c.MissesCache fs) (h : c.step fs = some fs')
    (hc : fs.storage.Coherent) : fs'.storage.Coherent := by
  cases c with
  | createFile dirId name type perms privLvl =>
    obtain ⟨dir, -, h⟩ := Option.bind_eq_some_iff.mp h
    obtain ⟨⟨fs₁, result⟩, h₁, h⟩ := Option.bind_eq_some_iff.mp h
    obtain rfl := Option.some.inj h
    exact createFile_coherent hc h₁
  | deleteFileByInode dirId id =>
    obtain ⟨dir, hdir, h⟩ := Option.bind_eq_some_iff.mp h
    obtain ⟨inode, hinode, h⟩ := Option.bind_eq_some_iff.mp h
    obtain ⟨⟨fs₁, deleted⟩, h₁, h⟩ := Option.bind_eq_some_iff.mp h
    obtain rfl := Option.some.inj h
    exact deleteFileByInode_coherent hc (hm dir inode hdir hinode) h₁
  | fsRead file size =>
    obtain ⟨inode, -, h⟩ := Option.bind_eq_some_iff.mp h
    obtain ⟨⟨s₁, result⟩, h₁, h⟩ := Option.bind_eq_some_iff.mp h
    obtain rfl := Option.some.inj h
    exact (fsRead_kept h₁).coherent hc
  | fsWrite file bytes =>
    obtain ⟨inode, -, h⟩ := Option.bind_eq_some_iff.mp h
    obtain ⟨⟨s₁, inode₁, result⟩, h₁, h⟩ := Option.bind_eq_some_iff.mp h
    obtain rfl := Option.some.inj h
    exact (fsWrite_kept h₁).1.coherent hc
  | writeInodeToDisk id =>
    obtain ⟨inode, -, h⟩ := Option.bind_eq_some_iff.mp h
    obtain rfl := Option.some.inj h
    exact writeInodeToDisk_coherent _ _

end coherence

/-! What creating and deleting do to the inodes and their bitmap. -/

section frame
variable {fs fs' : Fs} {dir inode : Inode}

theorem allocateInodeSection_spec {h h' : SectorsHeaderdata} {id : ℕ}
    (ha : allocateInodeSection h = some (h', id)) :
    id < 800 ∧ bitCheck h.inodeSectorMap id = false ∧
      h' = { h with inodeSectorMap := bitSet h.inodeSectorMap id } := by
  obtain ⟨i, hi, hr⟩ := Option.map_eq_some_iff.mp ha
  obtain ⟨rfl, rfl⟩ := Prod.mk.inj hr
  rcases findClearBit_spec h.inodeSectorMap 800 0 with ⟨hnone, -⟩ | ⟨j, hj, hlt, hclear, -⟩
  · rw [hnone] at hi
    cases hi
  · obtain rfl : j = i := Option.some.inj (hj.symm.trans hi)
    exact ⟨by omega, hclear, rfl⟩

theorem Fs.id_of_getInodeById {id : ℕ} (h : fs.getInodeById id = some inode) : inode.id = id :=
  Keyed.key_of_lookup h

end frame

def oneSectorHeader : SectorsHeaderdata where
  bigSectorUsedMap := bitSet (Vector.replicate 128 0) 0
  bigSectorFullMap := Vector.replicate 128 0
  inodeSectorMap := bitSet (Vector.replicate 100 0) 0
  sectorBitmaps := fun i => if i = 0 then
    some (Vector.ofFn fun j => if j.val < 14 then 0xff else if j.val = 14 then 0x7f else 0) else none
  activePartiallyUsedBitmaps := 1
  usedSectors := 119

def oneEntrySector : Sector := (Block.zero.setWord 0 1).blit 4 (entryBytes 0 [97])

def oneFileFs : Fs where
  storage := ⟨oneSectorHeader,
    ⟨Function.update (fun _ => Block.zero) 118 oneEntrySector, oneEntrySector, 118⟩⟩
  inodes := [⟨fsRootDirId, 10, fsTypeDir, 0, 2, 0, 0, Function.update (fun _ => 0) firstSlot 118⟩,
    ⟨0, 0, 1, 7, 2, 0, 0, fun _ => 0⟩]
  inodeNamePairs := [⟨fsRootDirId, fsRootDirId, [114, 111, 111, 116]⟩, ⟨fsRootDirId, 0, [97]⟩]
  virtDirNames := fun _ => []

theorem oneFileFs_coherent : oneFileFs.storage.Coherent := by
  simp [Storage.Coherent, Cached.Coherent, oneFileFs, lba28]

/-- The last sector that is allocated there. -/
example : oneSectorHeader.allocated 118 = true ∧ oneSectorHeader.allocated 119 = false := by
  decide +kernel

end BrickOS.Filesystem
