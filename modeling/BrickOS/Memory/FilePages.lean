import BrickOS.Filesystem.Handles
import BrickOS.Filesystem.ReadFile
import BrickOS.Memory.FaultResolution

/-! The contents of a page that a fault in an area maps. A file is read through the number of the
descriptor that `sys_mmap` was given, whatever is behind that number by then. -/
namespace BrickOS.Memory
open BrickOS.Lib BrickOS.Filesystem

def FileByte (disk : ℕ → Sector) (n : Inode) (pos : ℕ) (b : UInt8) : Prop :=
  n.byteAt disk pos = some b ∨ n.size ≤ pos ∧ b = 0

def ShowsFile (disk : ℕ → Sector) (n : Inode) (pos : ℕ) (page : Block 4096) : Prop :=
  ∀ i < 4096, FileByte disk n (pos + i) (page.byte i)

structure FaultFiles where
  fs : Fs
  fdTable : ℕ → Option Filesystem.GenericFile
  answer : List UInt8
  mem : ℕ → Block 4096

namespace FaultFiles

/-- `seek` from the start and `read` of a page, with the bytes that are stored; `none` where the
inode of the file is gone. Errors are not looked at. -/
def readFrom (k : FaultFiles) (off : ℕ) : Filesystem.GenericFile → Option (List UInt8)
  | .other => some (k.answer.take memoryPageSize)
  | .regular file _ => (k.fs.getInodeById file.inodeId).bind fun inode =>
      (fsReadInto k.fs.storage inode (fsSeek file inode (off % 2 ^ 32) .set) memoryPageSize).map
        fun r => r.2.1

def readPage (k : FaultFiles) (fd off : ℕ) : Option (List UInt8) :=
  if maxFds ≤ fd then some [] else (k.fdTable fd).elim (some []) (k.readFrom off)

def fileOff (v : VirtMemArea) (page : ℕ) : ℕ := (v.offset + (page + 2 ^ 64 - v.addr)) % 2 ^ 64

def initNewPage (k : FaultFiles) (v : VirtMemArea) (page : ℕ) (old : Block 4096) :
    Option (Block 4096) :=
  if v.fd ≠ mapFdNone then (k.readPage v.fd (fileOff v page)).map fun bytes => old.blit 0 bytes
  else some (old.blit 0 (List.replicate memoryPageSize 0))

/-- What is behind the descriptor has the bytes of the file from `pos` on: in its answer, or in the
sectors of a file that may be read, from where `sys_seek` ends. -/
def SuppliesFrom (k : FaultFiles) (off : ℕ) (n : Inode) (pos : ℕ) : Filesystem.GenericFile → Prop
  | .other => ∀ i < 4096, ∃ b, k.answer[i]? = some b ∧ FileByte k.fs.storage.disk n (pos + i) b
  | .regular file _ => ∃ m, k.fs.getInodeById file.inodeId = some m ∧
      file.flags &&& fileFlagRead ≠ 0 ∧ m.type ≠ fsTypeDir ∧ ∀ i < 4096,
        m.Reaches k.fs.storage.disk (min (off % 2 ^ 32) m.size) (min (off % 2 ^ 32) m.size + i) ∧
        FileByte k.fs.storage.disk n (pos + i) ((k.fs.storage.disk (lba28 (m.lookup
          k.fs.storage.disk ((min (off % 2 ^ 32) m.size + i) / 512)))).byte
            ((min (off % 2 ^ 32) m.size + i) % 512))

def Supplies (k : FaultFiles) (fd off : ℕ) (n : Inode) (pos : ℕ) : Prop :=
  fd < maxFds ∧ ∃ f, k.fdTable fd = some f ∧ k.SuppliesFrom off n pos f

def SuppliesArea (k : FaultFiles) (v : VirtMemArea) (page : ℕ) (n : Inode) (pos : ℕ) : Prop :=
  if v.fd ≠ mapFdNone then k.Supplies v.fd (fileOff v page) n pos
  else ∀ i < 4096, FileByte k.fs.storage.disk n (pos + i) 0

end FaultFiles

namespace Vm

/-- The contents of the page that a fault in the area maps: those of a new frame that held `old`, or
of the page that the object has already. -/
def servedPage (s : Vm) (k : FaultFiles) (v : VirtMemArea) (page : ℕ) (old : Block 4096) :
    Option (Block 4096) :=
  match v.shrdObj with
  | none => k.initNewPage v page old
  | some o => (s.pageSlot o (v.pageIdx page)).bind fun
    | none => k.initNewPage v page old
    | some shrdPage => some (k.mem shrdPage.physAddr)

def Serves (s : Vm) (k : FaultFiles) (v : VirtMemArea) (page : ℕ) (n : Inode) (pos : ℕ) : Prop :=
  match v.shrdObj with
  | none => k.SuppliesArea v page n pos
  | some o => ∃ slot, s.pageSlot o (v.pageIdx page) = some slot ∧ match slot with
    | none => k.SuppliesArea v page n pos
    | some shrdPage => ShowsFile k.fs.storage.disk n pos (k.mem shrdPage.physAddr)

def faultPage (s : Vm) (k : FaultFiles) (p : Process) (a : ℕ) (old : Block 4096) :
    Option (Block 4096) :=
  match s.faultEnd p a with
  | .area i => s.vmAreas[i]?.bind fun v => s.servedPage k v (alignDown a) old
  | _ => none

end Vm

section bytes
variable {disk : ℕ → Sector} {n : Inode} {pos : ℕ}

theorem FileByte.unique {b b' : UInt8} (h : FileByte disk n pos b) (h' : FileByte disk n pos b') :
    b = b' := by
  have hlt : ∀ {b}, n.byteAt disk pos = some b → pos < n.size :=
    fun hb => byteAt_lt (by rw [hb]; rfl)
  rcases h with hb | ⟨hle, rfl⟩
  · rcases h' with hb' | ⟨hle, -⟩
    · exact Option.some.inj (hb.symm.trans hb')
    · exact absurd (hlt hb) (Nat.not_lt.mpr hle)
  · rcases h' with hb' | ⟨-, rfl⟩
    · exact absurd (hlt hb') (Nat.not_lt.mpr hle)
    · rfl

theorem blit_showsFile_iff {bytes : List UInt8} :
    (∀ old : Block 4096, ShowsFile disk n pos (old.blit 0 bytes)) ↔
      ∀ i < 4096, ∃ b, bytes[i]? = some b ∧ FileByte disk n (pos + i) b := by
  constructor
  · intro h i hi
    by_cases hstored : i < bytes.length
    · refine ⟨bytes.get ⟨i, hstored⟩, List.getElem?_eq_getElem hstored, ?_⟩
      have hbyte := h Block.zero i hi
      rwa [Block.byte_blit hi, if_pos (by omega), Nat.sub_zero, List.getElem?_eq_getElem hstored,
        Option.getD_some] at hbyte
    · -- the byte is what the frame held
      have hkept : ∀ b : UInt8, FileByte disk n (pos + i) b := by
        intro b
        have hbyte := h (Block.fill b) i hi
        rwa [Block.byte_blit_of_le (by omega), Block.byte_fill hi] at hbyte
      exact absurd ((hkept 0).unique (hkept 1)) (by decide)
  · intro h old i hi
    obtain ⟨b, hb, hbyte⟩ := h i hi
    have hstored := (List.getElem?_eq_some_iff.mp hb).1
    rwa [Block.byte_blit hi, if_pos (by omega), Nat.sub_zero, hb, Option.getD_some]

end bytes

section files
variable {k : FaultFiles} {v : VirtMemArea} {n : Inode} {fd off page pos : ℕ}

def Fills (disk : ℕ → Sector) (n : Inode) (pos : ℕ) (bytes : List UInt8) : Prop :=
  ∀ i < 4096, ∃ b, bytes[i]? = some b ∧ FileByte disk n (pos + i) b

theorem not_fills_nil (disk : ℕ → Sector) (n : Inode) (pos : ℕ) : ¬ Fills disk n pos [] := by
  intro h
  obtain ⟨b, hb, -⟩ := h 0 (by omega)
  cases hb

theorem readFrom_fills_iff (hc : k.fs.storage.Coherent) (f : Filesystem.GenericFile) :
    (∃ bytes, k.readFrom off f = some bytes ∧ Fills k.fs.storage.disk n pos bytes) ↔
      k.SuppliesFrom off n pos f := by
  cases f with
  | other =>
    unfold FaultFiles.readFrom FaultFiles.SuppliesFrom Fills
    simp only [Option.some.injEq, exists_eq_left']
    refine forall₂_congr fun i hi => ?_
    have hsize : i < memoryPageSize := hi
    rw [List.getElem?_take_of_lt hsize]
  | regular file opened =>
    unfold FaultFiles.readFrom FaultFiles.SuppliesFrom
    cases hinode : k.fs.getInodeById file.inodeId with
    | none => simp [hinode]
    | some m =>
      simp only [hinode, Option.bind_some, Option.some.injEq, exists_eq_left']
      generalize hsought : fsSeek file m (off % 2 ^ 32) .set = sought
      have hflags : sought.flags = file.flags := by
        rw [← hsought]
        rfl
      have hpointer : sought.rwPointer = min (off % 2 ^ 32) m.size := by
        rw [← hsought]
        rfl
      by_cases hread : file.flags &&& fileFlagRead = 0
      · rw [fsReadInto_unreadable (hflags ▸ hread), Option.map_some]
        refine iff_of_false ?_ fun h => h.1 hread
        rintro ⟨bytes, hbytes, hfills⟩
        rw [← Option.some.inj hbytes] at hfills
        exact not_fills_nil _ n pos hfills
      by_cases htype : m.type = fsTypeDir
      · rw [fsReadInto_dir (hflags ▸ hread) htype, Option.map_some]
        refine iff_of_false ?_ fun h => h.2.1 htype
        rintro ⟨bytes, hbytes, hfills⟩
        rw [← Option.some.inj hbytes] at hfills
        exact not_fills_nil _ n pos hfills
      obtain ⟨s', nBytes, hstored, -⟩ :=
        fsReadInto_regular hc (hflags ▸ hread) htype
          (show memoryPageSize < fileReadAll by decide)
      rw [hstored, Option.map_some, hpointer]
      simp only [Option.some.injEq, exists_eq_left', hread, htype, ne_eq, not_false_eq_true, true_and]
      refine forall₂_congr fun i hi => ?_
      have hsize : i < memoryPageSize := hi
      simp only [readTrace_getElem?_iff le_rfl, hsize, true_and, and_assoc]
      constructor
      · rintro ⟨b, hreaches, rfl, hbyte⟩
        exact ⟨hreaches, hbyte⟩
      · rintro ⟨hreaches, hbyte⟩
        exact ⟨_, hreaches, rfl, hbyte⟩

theorem readPage_fills_iff (hc : k.fs.storage.Coherent) :
    (∃ bytes, k.readPage fd off = some bytes ∧ Fills k.fs.storage.disk n pos bytes) ↔
      k.Supplies fd off n pos := by
  have hnil : ¬ ∃ bytes, some [] = some bytes ∧ Fills k.fs.storage.disk n pos bytes := by
    rintro ⟨bytes, hbytes, hfills⟩
    rw [← Option.some.inj hbytes] at hfills
    exact not_fills_nil _ n pos hfills
  unfold FaultFiles.readPage FaultFiles.Supplies
  by_cases hfd : maxFds ≤ fd
  · rw [if_pos hfd]
    exact iff_of_false hnil fun h => absurd h.1 (Nat.not_lt.mpr hfd)
  rw [if_neg hfd, and_iff_right (Nat.not_le.mp hfd)]
  cases htable : k.fdTable fd with
  | none => exact iff_of_false hnil fun ⟨f, hf, _⟩ => by cases hf
  | some f =>
    simp only [Option.elim_some, Option.some.injEq, exists_eq_left']
    exact readFrom_fills_iff hc f

theorem initNewPage_shows_iff (hc : k.fs.storage.Coherent) :
    (∀ old, ∃ c, k.initNewPage v page old = some c ∧ ShowsFile k.fs.storage.disk n pos c) ↔
      k.SuppliesArea v page n pos := by
  unfold FaultFiles.initNewPage FaultFiles.SuppliesArea
  by_cases hfd : v.fd ≠ mapFdNone
  · simp only [if_pos hfd]
    rw [← readPage_fills_iff hc]
    cases hbytes : k.readPage v.fd (FaultFiles.fileOff v page) with
    | none => simp
    | some bytes =>
      simp only [Option.map_some, Option.some.injEq, exists_eq_left']
      exact blit_showsFile_iff
  · simp only [if_neg hfd, Option.some.injEq, exists_eq_left']
    rw [blit_showsFile_iff]
    refine forall₂_congr fun i hi => ?_
    have hzero : (List.replicate memoryPageSize (0 : UInt8))[i]? = some 0 := by
      have hsize : i < memoryPageSize := hi
      rw [List.getElem?_replicate, if_pos hsize]
    simp only [hzero, Option.some.injEq, exists_eq_left']

end files

namespace Vm

theorem servedPage_shows_iff {s : Vm} {k : FaultFiles} {v : VirtMemArea} {n : Inode} {page pos : ℕ}
    (hc : k.fs.storage.Coherent) :
    (∀ old, ∃ c, s.servedPage k v page old = some c ∧ ShowsFile k.fs.storage.disk n pos c) ↔
      s.Serves k v page n pos := by
  unfold servedPage Serves
  cases v.shrdObj with
  | none => exact initNewPage_shows_iff hc
  | some o =>
    dsimp only
    cases hslot : s.pageSlot o (v.pageIdx page) with
    | none => simp
    | some slot => cases slot with
      | none =>
        simp only [Option.bind_some, Option.some.injEq, exists_eq_left']
        exact initNewPage_shows_iff hc
      | some shrdPage => simp

def sevensInode (size sectors : ℕ) : Inode :=
  ⟨1, size, 1, 7, 2, 0, 0, fun i => if i.val < sectors then 200 else 0⟩

def sevens (size sectors : ℕ) (fd : Option Filesystem.GenericFile) : FaultFiles where
  fs := {
    storage := ⟨.empty, fun x => if x = 200 then Block.fill 7 else Block.zero, Block.zero, 0⟩
    inodes := [sevensInode size sectors]
    inodeNamePairs := []
    virtDirNames := fun _ => [] }
  fdTable := fun i => if i = 3 then fd else none
  answer := []
  mem := fun _ => Block.zero

theorem sevens_coherent (size sectors : ℕ) (fd : Option Filesystem.GenericFile) :
    (sevens size sectors fd).fs.storage.Coherent := by
  unfold Storage.Coherent Cached.Coherent
  rfl

theorem mapped_view : ∃ s p, run Vm.step bootVm [.createFile, .createProcess 0 1 0x10000 [],
      .sysOpen 1 0, .sysMmap 1 mmapUnspecAddr 4096 3 0 3 0] = some s ∧ s.process 1 = some p ∧
    s.faultEnd p 0x10000 = .area 0 ∧
      s.vmAreas[0]? = some ⟨1, 0x10000, 4096, 3, 0, 3, 0, none, []⟩ := by
  obtain ⟨s, hrun, hview⟩ := Option.bind_eq_some_iff.mp
    (by decide +kernel : (run Vm.step bootVm [.createFile, .createProcess 0 1 0x10000 [],
      .sysOpen 1 0, .sysMmap 1 mmapUnspecAddr 4096 3 0 3 0]).bind (fun s => (s.process 1).map
        fun p => (s.faultEnd p 0x10000, s.vmAreas[0]?)) =
      some (.area 0, some ⟨1, 0x10000, 4096, 3, 0, 3, 0, none, []⟩))
  obtain ⟨p, hp, hview⟩ := Option.map_eq_some_iff.mp hview
  obtain ⟨hend, harea⟩ := Prod.mk.inj hview
  exact ⟨s, p, hrun, hp, hend, harea⟩

end Vm

end BrickOS.Memory
