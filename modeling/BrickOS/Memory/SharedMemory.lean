import BrickOS.Basic
import BrickOS.Filesystem.Operations
import BrickOS.Lib.Keyed
import BrickOS.Lib.Run
import BrickOS.Memory.PageEntry
import BrickOS.Memory.Pmm

/-! Memory areas of processes, the registry of shared objects, and the calls that map, fault in,
unmap and tear down pages. The tables of all processes are one list of mappings, which is what
the page-table code makes of them, and the areas of all processes are one list as well. -/
namespace BrickOS.Memory
open BrickOS.Lib BrickOS.Filesystem

def mapShared : ℕ := 0x01

def mapAnonymous : ℕ := 0x20

def mapFdNone : ℕ := 2 ^ 32 - 1

def mmapUnspecAddr : ℕ := 0x12345

def maxFds : ℕ := 512

def ptLoad : ℕ := 1

def userStackPagesPerProcess : ℕ := 5

def alignDown (a : ℕ) : ℕ := a - a % memoryPageSize

def alignUp (a : ℕ) : ℕ := alignDown ((a + memoryPageSize - 1) % 2 ^ 64)

structure SharedPage where
  physAddr : ℕ
  refCount : ℕ
  kernelRef : ℕ
deriving DecidableEq

/-- `shared_object_t`, with `n_pages` the length of `sharedPages`. After `kfree` the object is
`freed`, and the registry still points to it. -/
structure SharedObject where
  sharedPages : List (Option SharedPage)
  refCount : ℕ
  uniqueId : ℕ
  freed : Bool
deriving DecidableEq

/-- `virt_mem_area_t` in the list of the process `owner`. The object is named by its position in
`shm_obj_vec`. -/
structure VirtMemArea where
  owner : ℕ
  addr : ℕ
  size : ℕ
  prot : ℕ
  flags : ℕ
  fd : ℕ
  offset : ℕ
  shrdObj : Option ℕ
  mappedPages : List ℕ
deriving DecidableEq

/-- `generic_file_t`. `origin` is the file it was opened for, by the number of the creation of
that file; a socket has none. -/
structure GenericFile where
  objectId : ℕ
  origin : Option ℕ
deriving DecidableEq

/-- `Elf64_Phdr`. -/
structure Phdr where
  pType : ℕ
  pVaddr : ℕ
  pMemsz : ℕ
deriving DecidableEq

structure Process where
  processId : ℕ
  pageAllocStart : ℕ
  fdTable : ℕ → Option GenericFile
  phdrs : List Phdr

structure Obtained where
  pid : ℕ
  object : ℕ
  origin : Option ℕ
deriving DecidableEq

structure FileTable where
  header : SectorsHeaderdata
  inodes : List (ℕ × ℕ)
  created : ℕ

/-- The kernel's state as far as it concerns user memory. `kernelFrames` are the frames the rest
of the kernel has allocated, page tables among them, and `stale` is what a block from `kmalloc`
holds before it is written. -/
structure Vm where
  hhdm : ℕ
  pmm : Pmm
  procs : List Process
  vmAreas : List VirtMemArea
  shmObjVec : List SharedObject
  pageTables : List ((ℕ × ℕ) × ℕ)
  kernelFrames : List ℕ
  stale : VirtMemArea
  files : FileTable
  obtained : List Obtained

/-- `uint32_t` counters as they go up and down. -/
def increment (n : ℕ) : ℕ := (n + 1) % 2 ^ 32

def decrement (n : ℕ) : ℕ := (n + 2 ^ 32 - 1) % 2 ^ 32

namespace VirtMemArea

def top (v : VirtMemArea) : ℕ := (v.addr + v.size) % 2 ^ 64

def pageIdx (v : VirtMemArea) (page : ℕ) : ℕ :=
  ((page + 2 ^ 64 - v.addr) % 2 ^ 64 + v.offset) % 2 ^ 64 / memoryPageSize % 2 ^ 32

def InRange (v : VirtMemArea) (low high : ℕ) : Prop :=
  (v.addr ≤ low ∧ low < v.top) ∨ (low ≤ v.addr ∧ v.addr < high)

instance (v : VirtMemArea) (low high : ℕ) : Decidable (v.InRange low high) :=
  inferInstanceAs (Decidable (_ ∨ _))

end VirtMemArea

namespace Process

def freeFd (p : Process) : Option ℕ :=
  (List.range' 3 (maxFds - 3)).find? fun fd => (p.fdTable fd).isNone

def assignFd (p : Process) (file : GenericFile) : Process :=
  match p.freeFd with
  | none => p
  | some fd => { p with fdTable := Function.update p.fdTable fd (some file) }

def findLowestResponsiblePhdr (p : Process) (low : ℕ) : Option Phdr :=
  let high := alignUp (low + 1)
  (p.phdrs.foldl (fun a ph =>
    if ph.pVaddr ≤ high ∧ low ≤ (ph.pVaddr + ph.pMemsz) % 2 ^ 64 ∧ ph.pVaddr < a.1
    then (ph.pVaddr % 2 ^ 32, some ph) else a) (high % 2 ^ 32, none)).2

/-- Whether `handle_phdr_mapping` succeeds: its loop gets through the first segment. The further
segments only add to the contents of the page. -/
def loadsPage (p : Process) (page : ℕ) : Bool :=
  let pageTop := (page + memoryPageSize) % 2 ^ 64
  match p.findLowestResponsiblePhdr page with
  | none => false
  | some ph => page ≤ pageTop && ph.pType == ptLoad &&
      min ((ph.pVaddr + ph.pMemsz) % 2 ^ 64) pageTop != maxSigned ph.pVaddr page

end Process

namespace Vm

/-- `get_process_by_pid`. -/
def process (s : Vm) (pid : ℕ) : Option Process := Keyed.lookup Process.processId s.procs pid

def setProcess (s : Vm) (p : Process) : Vm :=
  { s with procs := Keyed.replace Process.processId s.procs p }

def userScratchPage (s : Vm) : ℕ := alignDown (canonicalize ((s.hhdm + 2 ^ 64 - 8) % 2 ^ 64))

def stackBase (s : Vm) : ℕ :=
  alignDown (canonicalize ((s.hhdm + 2 ^ 64 - 8 - memoryPageSize * 2) % 2 ^ 64))

/-! The page tables of the processes. -/

/-- Where `mem_map_page` and `mem_unmap_page` look for a page while `pid` is running. Addresses
from `HHDM` on belong to the kernel, process 0. -/
def slot (s : Vm) (pid page : ℕ) : ℕ × ℕ := (if s.hhdm ≤ page then 0 else pid, page)

/-- `mem_map_page_in_pml4`, with the PML4 given by its process. -/
def mapIn (s : Vm) (slot : ℕ × ℕ) (frame : ℕ) : Vm :=
  { s with pageTables := (slot, frame) :: s.pageTables.filter fun m => decide (m.1 ≠ slot) }

def memMapPage (s : Vm) (pid page frame : ℕ) : Vm := s.mapIn (s.slot pid page) frame

def memUnmapPage (s : Vm) (pid page : ℕ) : Vm :=
  { s with pageTables := s.pageTables.filter fun m => decide (m.1 ≠ s.slot pid page) }

def virtToPhys (s : Vm) (pid page : ℕ) : ℕ :=
  match Keyed.lookup Prod.fst s.pageTables (s.slot pid page) with
  | none => invalidPhysAddr
  | some m => canonicalize (pteGetAddr m.2) ||| (page &&& 0xfff)

def allocFrame (s : Vm) : Option (ℕ × Vm) :=
  s.pmm.pmmAllocPageFrame.map fun a => (a.1, { s with pmm := a.2 })

/-- `pmm_free_page_frame`. -/
def freeFrame (s : Vm) (frame : ℕ) : Vm := { s with pmm := s.pmm.pmmFreePageFrame frame }

def initNewPage (s : Vm) (pid : ℕ) : Option (ℕ × Vm) :=
  s.allocFrame.map fun a =>
    (a.1, (a.2.memMapPage pid s.userScratchPage a.1).memUnmapPage pid s.userScratchPage)

/-! The registry of shared objects. -/

def findSharedObjectById (s : Vm) (uniqueId : ℕ) : Option ℕ :=
  s.shmObjVec.findIdx? fun obj => obj.uniqueId == uniqueId

def sharedPage (s : Vm) (o i : ℕ) : Option SharedPage :=
  s.shmObjVec[o]?.bind fun obj => obj.sharedPages[i]?.join

/-- `obj->shared_pages[i]` for an `int` index; `none` where there is no such element. -/
def pageSlot (s : Vm) (o i : ℕ) : Option (Option SharedPage) :=
  if i < 2 ^ 31 then s.shmObjVec[o]?.bind fun obj => obj.sharedPages[i]? else none

def setSharedPage (s : Vm) (o i : ℕ) (page : Option SharedPage) : Vm :=
  { s with
    shmObjVec := s.shmObjVec.modify o fun obj =>
      { obj with sharedPages := obj.sharedPages.set i page } }

def shareObject (s : Vm) (pid : ℕ) (file : GenericFile) (nPages : ℕ) : Vm × ℕ :=
  match s.findSharedObjectById file.objectId with
  | none =>
    ({ s with
        shmObjVec := s.shmObjVec ++ [⟨List.replicate nPages none, 1, file.objectId, false⟩]
        obtained := ⟨pid, s.shmObjVec.length, file.origin⟩ :: s.obtained }, s.shmObjVec.length)
  | some o =>
    ({ s with
        shmObjVec := s.shmObjVec.modify o fun obj => { obj with
          refCount := increment obj.refCount
          sharedPages := obj.sharedPages ++
            List.replicate (nPages - obj.sharedPages.length) none }
        obtained := ⟨pid, o, file.origin⟩ :: s.obtained }, o)

/-- The part of `sys_mmap` that makes the area. The size is computed in 32 bits. -/
def addArea (s : Vm) (p : Process) (addr size prot flags fd offset : ℕ)
    (shrdObj : Option ℕ) : Vm :=
  let nPages := (size + memoryPageSize - 1) % 2 ^ 64 / memoryPageSize % 2 ^ 32
  let size := nPages * memoryPageSize % 2 ^ 32
  { s.setProcess { p with pageAllocStart := (addr + size) % 2 ^ 64 } with
    vmAreas := ⟨p.processId, addr, size, prot, flags, fd, offset, shrdObj, []⟩ :: s.vmAreas }

/-- `sys_mmap`, with the address it returns unless it fails; `none` where it reads behind the
table of descriptors. -/
def sysMmap (s : Vm) (p : Process) (addr size prot flags fd offset : ℕ) :
    Option (Vm × Option ℕ) :=
  let addr := if addr = mmapUnspecAddr then p.pageAllocStart else addr
  let fd := if fd < 3 then mapFdNone else fd
  let nPages := (size + memoryPageSize - 1) % 2 ^ 64 / memoryPageSize % 2 ^ 32
  if s.hhdm ≤ (addr + size) % 2 ^ 64 then some (s, none)
  else if size = 0 ∨ addr % memoryPageSize ≠ 0 then some (s, none)
  else if flags &&& mapAnonymous ≠ 0 ∧ flags &&& mapShared ≠ 0 then some (s, none)
  else if flags &&& mapAnonymous ≠ 0 then
    some (s.addArea p addr size prot flags fd offset none, some addr)
  else if maxFds ≤ fd then none
  else match p.fdTable fd with
  | none => some (s, none)
  | some file =>
    if flags &&& mapShared ≠ 0 then
      let r := s.shareObject p.processId file nPages
      some (r.1.addArea p addr size prot flags fd offset (some r.2), some addr)
    else some (s.addArea p addr size prot flags fd offset none, some addr)

/-! Page faults. -/

def handlePhdrMapping (s : Vm) (p : Process) (faultAddr : ℕ) : Option (Bool × Vm) :=
  if p.freeFd.isNone then some (false, s)
  else (s.initNewPage p.processId).map fun a =>
    if p.loadsPage (alignDown faultAddr) then
      (true, a.2.memMapPage p.processId (alignDown faultAddr) a.1)
    else (false, a.2.freeFrame a.1)

def findVirtMemArea (s : Vm) (pid addr : ℕ) : Option ℕ :=
  s.vmAreas.findIdx? fun v => v.owner == pid && v.addr ≤ addr && addr ≤ v.top

def mapInArea (s : Vm) (i : ℕ) (pid page frame : ℕ) : Vm :=
  { s.memMapPage pid page frame with
    vmAreas := s.vmAreas.modify i fun v => { v with mappedPages := v.mappedPages ++ [page] } }

/-- The part of `page_fault_handler` for an area with an object, whose page is null or not. -/
def faultShared (s : Vm) (pid i o pageIdx page : ℕ) : Option SharedPage → Option Vm
  | none => (s.initNewPage pid).map fun a =>
      (a.2.setSharedPage o pageIdx (some ⟨a.1, 1, 0⟩)).mapInArea i pid page a.1
  | some shrdPage =>
    let counted := { shrdPage with refCount := increment shrdPage.refCount }
    some ((s.setSharedPage o pageIdx (some counted)).mapInArea i pid page shrdPage.physAddr)

/-- The part of `page_fault_handler` behind the search for the area at `i`; `none` where it
reads behind the pages of the object. -/
def faultInArea (s : Vm) (pid i : ℕ) (v : VirtMemArea) (page : ℕ) : Option Vm :=
  match v.shrdObj with
  | none => (s.initNewPage pid).map fun a => a.2.mapInArea i pid page a.1
  | some o => (s.pageSlot o (v.pageIdx page)).bind (s.faultShared pid i o (v.pageIdx page) page)

def pageFaultHandler (s : Vm) (p : Process) (faultAddr : ℕ) : Option Vm :=
  (s.handlePhdrMapping p faultAddr).bind fun a =>
    if a.1 then some a.2
    else match a.2.findVirtMemArea p.processId faultAddr with
    | none => some a.2
    | some i => a.2.vmAreas[i]?.bind fun v =>
        a.2.faultInArea p.processId i v (alignDown faultAddr)

/-! Unmapping. -/

def findLowestFrom (pid low high : ℕ) : List VirtMemArea → ℕ → ℕ → Option ℕ → Option ℕ
  | [], _, _, lowest => lowest
  | v :: vs, i, min, lowest =>
    if v.owner = pid ∧ v.InRange low high ∧ v.addr < min then
      findLowestFrom pid low high vs (i + 1) v.addr (some i)
    else findLowestFrom pid low high vs (i + 1) min lowest

def findLowestVmaInRange (s : Vm) (pid low high : ℕ) : Option ℕ :=
  findLowestFrom pid low high s.vmAreas 0 high none

def unmapPage (v : VirtMemArea) (s : Vm) (page : ℕ) : Vm :=
  let phys := s.virtToPhys v.owner page
  let s := s.memUnmapPage v.owner page
  match v.shrdObj.bind fun o => (s.sharedPage o (v.pageIdx page)).map fun sp => (o, sp) with
  | none => s.freeFrame phys
  | some (o, shrdPage) =>
    if decrement shrdPage.refCount = 0 then
      (s.freeFrame phys).setSharedPage o (v.pageIdx page) none
    else s.setSharedPage o (v.pageIdx page)
      (some { shrdPage with refCount := decrement shrdPage.refCount })

def takenPages (v : VirtMemArea) (low high : ℕ) : List ℕ :=
  v.mappedPages.filter fun page => low ≤ page && page < high

def leftPages (v : VirtMemArea) (low high : ℕ) : List ℕ :=
  v.mappedPages.filter fun page => !(low ≤ page && page < high)

def cutFromStart (v : VirtMemArea) (high : ℕ) : VirtMemArea :=
  { v with size := (v.size + 2 ^ 64 - (high - v.addr)) % 2 ^ 64, addr := high }

/-- The new area for what is behind `high` when `sys_munmap` cuts out of the middle. It keeps
what was in its memory as descriptor and as list of pages. -/
def splitOff (stale v : VirtMemArea) (high : ℕ) : VirtMemArea :=
  { stale with
    owner := v.owner
    addr := high
    size := (v.size + 2 ^ 64 - (high - v.addr)) % 2 ^ 64
    flags := v.flags
    prot := v.prot
    offset := (v.offset + (high - v.addr)) % 2 ^ 64
    shrdObj := v.shrdObj }

/-- What a turn of the loop of `sys_munmap` makes of the areas, `v` being the one at position
`i`, and the new `low`. Cutting from the end leaves the size as it is. -/
def cutArea (stale : VirtMemArea) (vmAreas : List VirtMemArea) (i : ℕ) (v : VirtMemArea)
    (low high : ℕ) : List VirtMemArea × ℕ :=
  if low ≤ v.addr then
    if v.top < high then (vmAreas.eraseIdx i, v.top + 1)
    else (vmAreas.set i (cutFromStart v high), high)
  else if v.top < high then (vmAreas.set i v, v.top)
  else ((vmAreas.set i { v with size := low - v.addr }).insertIdx (i + 1)
    (splitOff stale v high), high)

def munmapArea (s : Vm) (i : ℕ) (v : VirtMemArea) (low high : ℕ) : Vm × ℕ :=
  let s := (takenPages v low high).foldl (unmapPage v) s
  let r := cutArea s.stale s.vmAreas i { v with mappedPages := leftPages v low high } low high
  ({ s with vmAreas := r.1 }, r.2)

def munmapLoop (pid high : ℕ) : ℕ → Vm → ℕ → Option Vm
  | 0, _, _ => none
  | n + 1, s, low =>
    if low < high then
      match s.findLowestVmaInRange pid low high with
      | none => some s
      | some i => match s.vmAreas[i]? with
        | none => none
        | some v =>
          let r := s.munmapArea i v low high
          munmapLoop pid high n r.1 r.2
    else some s

def munmapTurns (s : Vm) : ℕ := (s.vmAreas.length + 1) * (s.vmAreas.length + 1)

def sysMunmap (s : Vm) (pid addr size : ℕ) : Option Vm :=
  if s.hhdm ≤ addr then some s
  else if size = 0 ∨ addr % memoryPageSize ≠ 0 then some s
  else munmapLoop pid ((addr + alignUp size) % 2 ^ 64) s.munmapTurns s addr

/-! The end of a process. -/

def dropPages (pmm : Pmm) : List (Option SharedPage) → Pmm × List (Option SharedPage)
  | [] => (pmm, [])
  | none :: pages =>
    let r := dropPages pmm pages
    (r.1, none :: r.2)
  | some page :: pages =>
    if decrement page.refCount = 0 then
      let r := dropPages (pmm.pmmFreePageFrame page.physAddr) pages
      (r.1, none :: r.2)
    else
      let r := dropPages pmm pages
      (r.1, some { page with refCount := decrement page.refCount } :: r.2)

def freeShrdVmaObj (s : Vm) (v : VirtMemArea) : Vm :=
  match v.shrdObj.bind fun o => s.shmObjVec[o]?.map fun obj => (o, obj) with
  | none => s
  | some (o, obj) =>
    let r := dropPages s.pmm obj.sharedPages
    let refCount := decrement obj.refCount
    let dropped := { obj with
      sharedPages := r.2
      refCount := refCount
      freed := obj.freed || refCount == 0 }
    { s with
      pmm := r.1
      shmObjVec := s.shmObjVec.set o dropped }

/-- `free_user_pml4_table`, as far as it concerns the pages of the process. -/
def freeUserPages (s : Vm) (pid : ℕ) : Vm :=
  { s with
    pmm := (s.pageTables.filter fun m => decide (m.1.1 = pid)).foldl
      (fun pmm m => pmm.pmmFreePageFrame (m.2 &&& 0xfffffffffffff000)) s.pmm
    pageTables := s.pageTables.filter fun m => decide (m.1.1 ≠ pid) }

def killProcess (s : Vm) (pid : ℕ) : Vm :=
  let s := (s.vmAreas.filter fun v => decide (v.owner = pid)).foldl freeShrdVmaObj s
  { s.freeUserPages pid with
    vmAreas := s.vmAreas.filter fun v => decide (v.owner ≠ pid)
    procs := Keyed.remove Process.processId s.procs pid }

/-! Calls that bring about processes, files and descriptors. -/

def mapStackPage (pid : ℕ) (s : Vm) (i : ℕ) : Option Vm :=
  s.allocFrame.map fun a =>
    a.2.mapIn (pid, (s.stackBase + 2 ^ 64 - i * memoryPageSize) % 2 ^ 64) a.1

/-- `create_process`, by the process `creator`. The first page of the stack is filled through the
scratch page of the creator. -/
def createProcess (s : Vm) (creator : ℕ) (p : Process) : Option Vm :=
  (initNewPage { s with procs := s.procs ++ [p] } creator).bind fun a =>
    (List.range' 1 (userStackPagesPerProcess - 1)).foldlM (mapStackPage p.processId)
      (a.2.mapIn (p.processId, s.stackBase) a.1)

end Vm

namespace FileTable

def createFile (t : FileTable) : Option FileTable :=
  (allocateInodeSection t.header).map fun a => ⟨a.1, (a.2, t.created) :: t.inodes, t.created + 1⟩

def deleteFile (t : FileTable) (id : ℕ) : FileTable :=
  { t with
    header := freeInodeSection t.header id
    inodes := t.inodes.filter fun inode => decide (inode.1 ≠ id) }

end FileTable

inductive VmCall where
  | createProcess (creator pid pageAllocStart : ℕ) (phdrs : List Phdr)
  | createFile
  | deleteFile (id : ℕ)
  | sysOpen (pid id : ℕ)
  | sysSocket (pid : ℕ)
  | sysClose (pid fd : ℕ)
  | sysMmap (pid addr size prot flags fd offset : ℕ)
  | pageFault (pid faultAddr : ℕ)
  | sysMunmap (pid addr size : ℕ)
  | killProcess (pid : ℕ)
  | kernelAlloc
  | kernelFree (frame : ℕ)

namespace Vm

/-- A call; `none` when it panics, when what it does is undefined, and when it cannot occur. -/
def step (s : Vm) : VmCall → Option Vm
  | .createProcess creator pid pageAllocStart phdrs =>
    -- `get_pid` returns a number that is not in use
    if pid = 0 ∨ (s.process pid).isSome then none
    else s.createProcess creator ⟨pid, pageAllocStart, fun _ => none, phdrs⟩
  | .createFile => s.files.createFile.map fun files => { s with files }
  | .deleteFile id => some { s with files := s.files.deleteFile id }
  | .sysOpen pid id => (s.process pid).bind fun p =>
    match Keyed.lookup Prod.fst s.files.inodes id with
    | none => some s
    | some inode => some (s.setProcess (p.assignFd ⟨id, some inode.2⟩))
  | .sysSocket pid => (s.process pid).map fun p => s.setProcess (p.assignFd ⟨0, none⟩)
  | .sysClose pid fd => (s.process pid).map fun p =>
    if fd < 3 then s else s.setProcess { p with fdTable := Function.update p.fdTable fd none }
  | .sysMmap pid addr size prot flags fd offset => (s.process pid).bind fun p =>
    (s.sysMmap p addr size prot flags fd offset).map Prod.fst
  | .pageFault pid faultAddr => (s.process pid).bind fun p => s.pageFaultHandler p faultAddr
  | .sysMunmap pid addr size => (s.process pid).bind fun _ => s.sysMunmap pid addr size
  | .killProcess pid => (s.process pid).map fun _ => s.killProcess pid
  | .kernelAlloc => s.allocFrame.map fun a => { a.2 with kernelFrames := a.1 :: s.kernelFrames }
  | .kernelFree frame =>
    if frame ∈ s.kernelFrames then
      some { s.freeFrame frame with kernelFrames := s.kernelFrames.erase frame }
    else none

end Vm

end BrickOS.Memory
