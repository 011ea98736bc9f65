import BrickOS.Lib.Run
import BrickOS.Memory.MmapPlacement
import Mathlib.Data.List.FinRange

/-! The table of descriptors of a process and the system calls that look a file up in it. Files
are heap objects named by their addresses; what the drivers and protocols do with a file is left
open. -/
namespace BrickOS.Descriptors
open BrickOS.Lib BrickOS.Memory

def syscallFail : ℕ := 2 ^ 64 - 1

def solSocket : ℕ := 256

def solIp : ℕ := 257

/-- `SOCKET_SETOPTS_SUCCESS` and `SOCKET_GETOPTS_SUCCESS`. -/
def socketOptsSuccess : ℕ := 0

def fdStdin : Fin maxFds := ⟨0, by decide⟩

inductive Fault
  | behindTable
  | freedFile
deriving DecidableEq

/-- A function of a driver: it gets the address of its file and the other arguments, and changes
its own part of the machine. -/
abbrev Handle (σ : Type) := ℕ → List ℕ → σ → σ × ℕ

structure VfsHandles (σ : Type) where
  read : Option (Handle σ)
  write : Option (Handle σ)
  close : Option (Handle σ)
  seek : Option (Handle σ)
  ioctl : Option (Handle σ)

inductive FileType
  | regular
  | socket
  | pipe
  | device
  | virt
deriving DecidableEq

structure GenericFile (σ : Type) where
  ops : Option (VfsHandles σ)
  genericData : Option ℕ
  type : FileType
  objectId : ℕ

structure ProtoOps (σ : Type) where
  bind : Option (Handle σ)
  recvfrom : Option (Handle σ)
  sendto : Option (Handle σ)

/-- What the system calls go on with when they have found their file. `protoOps` is null also when
`prot_sock` is. -/
structure Bodies (σ : Type) where
  getdents : Handle σ
  protoOps : σ → ℕ → Option (ProtoOps σ)
  socketSetopt : Handle σ
  ipSetopt : Handle σ
  socketGetopt : Handle σ
  ipGetopt : Handle σ

/-- The current process with its table, the files on the heap, the memory of processes, and what
the handles work on. -/
structure Machine (σ : Type) where
  fdTable : Fin maxFds → Option ℕ
  files : ℕ → Option (GenericFile σ)
  process : Memory.Process
  vm : Vm
  rest : σ

inductive DescriptorCall
  | read (fd buf size : ℕ)
  | write (fd buf size : ℕ)
  | close (fd : ℕ)
  | seek (fd offset whence : ℕ)
  | ioctl (fd cmd arg : ℕ)
  | mmap (c : MmapCall)
  | getdents (fd entBuffer size : ℕ)
  | bind (fd sockAddr sockAddrLen : ℕ)
  | recvfrom (fd buf bufLen flags srcAddr addrLen : ℕ)
  | sendto (fd buf bufLen flags dstAddr addrLen : ℕ)
  | setsockopt (fd level optname optval optlen : ℕ)
  | getsockopt (fd level optname optval optlen : ℕ)

def DescriptorCall.fd : DescriptorCall → ℕ
  | .read fd _ _ | .write fd _ _ | .close fd | .seek fd _ _ | .ioctl fd _ _ => fd
  | .mmap c => c.fd
  | .getdents fd _ _ | .bind fd _ _ => fd
  | .recvfrom fd _ _ _ _ _ | .sendto fd _ _ _ _ _ => fd
  | .setsockopt fd _ _ _ _ | .getsockopt fd _ _ _ _ => fd

namespace Machine
variable {σ : Type}

def fdAt (m : Machine σ) (fd : ℕ) : Except Fault (Option ℕ) :=
  if h : fd < maxFds then .ok (m.fdTable ⟨fd, h⟩) else .error .behindTable

def deref (m : Machine σ) (file : ℕ) : Except Fault (GenericFile σ) :=
  match m.files file with
  | none => .error .freedFile
  | some f => .ok f

def run (m : Machine σ) (f : σ → σ × ℕ) : Machine σ × ℕ :=
  ({ m with rest := (f m.rest).1 }, (f m.rest).2)

def runOpt (m : Machine σ) (f : σ → σ × ℕ) : Machine σ × ℕ :=
  ((m.run f).1, if (m.run f).2 = socketOptsSuccess then 0 else syscallFail)

def viaHandle (select : VfsHandles σ → Option (Handle σ)) (m : Machine σ) (fd : ℕ)
    (args : List ℕ) : Except Fault (Machine σ × ℕ) :=
  if fd ≥ maxFds then .ok (m, syscallFail)
  else do
    match ← m.fdAt fd with
    | none => return (m, syscallFail)
    | some file =>
      match (← m.deref file).ops.bind select with
      | none => return (m, syscallFail)
      | some handle => return m.run (handle file args)

def sysWrite (m : Machine σ) (fd buf size : ℕ) : Except Fault (Machine σ × ℕ) :=
  viaHandle VfsHandles.write m fd [buf, size]

def sysRead (m : Machine σ) (fd buf size : ℕ) : Except Fault (Machine σ × ℕ) :=
  viaHandle VfsHandles.read m fd [buf, size]

def sysSeek (m : Machine σ) (fd offset whence : ℕ) : Except Fault (Machine σ × ℕ) :=
  viaHandle VfsHandles.seek m fd [offset, whence]

def sysIoctl (m : Machine σ) (fd cmd arg : ℕ) : Except Fault (Machine σ × ℕ) :=
  viaHandle VfsHandles.ioctl m fd [cmd, arg]

def freeFd (m : Machine σ) (file : ℕ) : Machine σ :=
  { m with fdTable := fun i =>
      if 3 ≤ i.val ∧ m.fdTable i = some file then none else m.fdTable i }

/-- `sys_close`. The file is taken from the table, closed and freed. -/
def sysClose (m : Machine σ) (fd : ℕ) : Except Fault (Machine σ × ℕ) :=
  if fd ≥ maxFds then .ok (m, syscallFail)
  else do
    match ← m.fdAt fd with
    | none => return (m, syscallFail)
    | some file =>
      match (← m.deref file).ops.bind VfsHandles.close with
      | none => return (m, syscallFail)
      | some close =>
        let r := (m.freeFd file).run (close file [])
        return ({ r.1 with files := Function.update r.1.files file none }, r.2)

def closeEach : List (Fin maxFds) → Machine σ → Except Fault (Machine σ)
  | [], m => .ok m
  | i :: is, m =>
    if (m.fdTable i).isNone then closeEach is m
    else do closeEach is (← m.sysClose i).1

def closeAll (m : Machine σ) : Except Fault (Machine σ) := closeEach (List.finRange maxFds) m

def mappable (m : Machine σ) (fd : ℕ) : Option Memory.GenericFile :=
  if h : fd < maxFds then
    (m.fdTable ⟨fd, h⟩).map fun file => ⟨((m.files file).map GenericFile.objectId).getD 0, none⟩
  else none

def dangling (m : Machine σ) (fd : ℕ) : Bool :=
  if h : fd < maxFds then (m.fdTable ⟨fd, h⟩).any fun file => (m.files file).isNone else false

/-- `sys_mmap`. A descriptor below 3 becomes `MAP_FD_NONE`, and none is checked. The file is looked
at for a shared mapping only. -/
def sysMmap (m : Machine σ) (c : MmapCall) : Except Fault (Machine σ × ℕ) :=
  match c.perform m.vm { m.process with fdTable := m.mappable } with
  | none => .error .behindTable
  | some (vm, none) => .ok ({ m with vm }, syscallFail)
  | some (vm, some addr) =>
    if c.flags &&& mapShared ≠ 0 ∧ m.dangling c.fd then .error .freedFile
    else .ok ({ m with vm, process := (vm.process m.process.processId).getD m.process }, addr)

def sysGetdents (b : Bodies σ) (m : Machine σ) (fd entBuffer size : ℕ) :
    Except Fault (Machine σ × ℕ) := do
  match ← m.fdAt fd with
  | none => return (m, syscallFail)
  | some file =>
    match (← m.deref file).genericData with
    | none => return (m, syscallFail)
    | some openFile => return m.run (b.getdents openFile [entBuffer, size])

/-- `valid_socket`. The table has no entry `MAX_FDS`. -/
def validSocket (m : Machine σ) (fd : ℕ) : Except Fault (Option ℕ) :=
  if fd > maxFds then .ok none
  else do
    match ← m.fdAt fd with
    | none => return none
    | some file =>
      let f ← m.deref file
      if f.type ≠ .socket then return none else return f.genericData

def viaProto (b : Bodies σ) (select : ProtoOps σ → Option (Handle σ)) (m : Machine σ) (fd : ℕ)
    (args : List ℕ) : Except Fault (Machine σ × ℕ) := do
  match ← m.validSocket fd with
  | none => return (m, syscallFail)
  | some sock =>
    match (b.protoOps m.rest sock).bind select with
    | none => return (m, syscallFail)
    | some op => return m.run (op sock args)

def sysBind (b : Bodies σ) (m : Machine σ) (fd sockAddr sockAddrLen : ℕ) :
    Except Fault (Machine σ × ℕ) :=
  viaProto b ProtoOps.bind m fd [sockAddr, sockAddrLen]

def sysRecvfrom (b : Bodies σ) (m : Machine σ) (fd buf bufLen flags srcAddr addrLen : ℕ) :
    Except Fault (Machine σ × ℕ) :=
  viaProto b ProtoOps.recvfrom m fd [buf, bufLen, flags, srcAddr, addrLen]

def sysSendto (b : Bodies σ) (m : Machine σ) (fd buf bufLen flags dstAddr addrLen : ℕ) :
    Except Fault (Machine σ × ℕ) :=
  viaProto b ProtoOps.sendto m fd [buf, bufLen, flags, dstAddr, addrLen]

def viaLevel (socketOpt ipOpt : Handle σ) (m : Machine σ) (fd level : ℕ) (args : List ℕ) :
    Except Fault (Machine σ × ℕ) := do
  match ← m.validSocket fd with
  | none => return (m, syscallFail)
  | some sock =>
    if level = solSocket then return m.runOpt (socketOpt sock args)
    else if level = solIp then return m.runOpt (ipOpt sock args)
    else return (m, syscallFail)

def sysSetsockopt (b : Bodies σ) (m : Machine σ) (fd level optname optval optlen : ℕ) :
    Except Fault (Machine σ × ℕ) :=
  viaLevel b.socketSetopt b.ipSetopt m fd level [optname, optval, optlen]

def sysGetsockopt (b : Bodies σ) (m : Machine σ) (fd level optname optval optlen : ℕ) :
    Except Fault (Machine σ × ℕ) :=
  viaLevel b.socketGetopt b.ipGetopt m fd level [optname, optval, optlen]

def call (b : Bodies σ) (m : Machine σ) : DescriptorCall → Except Fault (Machine σ × ℕ)
  | .read fd buf size => m.sysRead fd buf size
  | .write fd buf size => m.sysWrite fd buf size
  | .close fd => m.sysClose fd
  | .seek fd offset whence => m.sysSeek fd offset whence
  | .ioctl fd cmd arg => m.sysIoctl fd cmd arg
  | .mmap c => m.sysMmap c
  | .getdents fd entBuffer size => m.sysGetdents b fd entBuffer size
  | .bind fd sockAddr len => m.sysBind b fd sockAddr len
  | .recvfrom fd buf len flags srcAddr addrLen => m.sysRecvfrom b fd buf len flags srcAddr addrLen
  | .sendto fd buf len flags dstAddr addrLen => m.sysSendto b fd buf len flags dstAddr addrLen
  | .setsockopt fd level name val len => m.sysSetsockopt b fd level name val len
  | .getsockopt fd level name val len => m.sysGetsockopt b fd level name val len

/-- `sys_close` finds a file at the descriptor and calls its close operation. -/
def Closes (m : Machine σ) (fd file : ℕ) : Prop :=
  m.fdAt fd = .ok (some file) ∧
    ∃ f close, m.files file = some f ∧ f.ops.bind VfsHandles.close = some close

def Forgets (m m' : Machine σ) (file : ℕ) : Prop :=
  (∀ i, m'.fdTable i ≠ some file) ∧ ∀ i, m.fdTable i ≠ some file → m'.fdTable i = m.fdTable i

/-- No call reads `fd_table` outside its bounds, and one with a descriptor that is out of range
fails and does nothing else. -/
def BoundsChecked (b : Bodies σ) (m : Machine σ) (c : DescriptorCall) : Prop :=
  m.call b c ≠ .error .behindTable ∧ (maxFds ≤ c.fd → m.call b c = .ok (m, syscallFail))

def MmapRefused (m : Machine σ) (c : MmapCall) : Prop :=
  m.vm.hhdm ≤ (c.start m.process + c.size.toNat) % 2 ^ 64 ∨ c.size.toNat = 0 ∨
    c.start m.process % memoryPageSize ≠ 0 ∨
    (c.flags &&& mapAnonymous ≠ 0 ∧ c.flags &&& mapShared ≠ 0)

def Expects (m : Machine σ) : DescriptorCall → Prop
  | .read .. | .write .. | .close .. | .seek .. | .ioctl .. => True
  | .getdents fd _ _ => fd < maxFds
  | .mmap c => m.MmapRefused c ∨
      (c.fd < maxFds ∧ (c.flags &&& mapAnonymous ≠ 0 ∨ 3 ≤ c.fd))
  | .bind fd _ _ => fd ≠ maxFds
  | .recvfrom fd _ _ _ _ _ | .sendto fd _ _ _ _ _ => fd ≠ maxFds
  | .setsockopt fd _ _ _ _ | .getsockopt fd _ _ _ _ => fd ≠ maxFds

end Machine

section
variable {σ : Type} {m m' : Machine σ} {b : Bodies σ} {fd file : ℕ}

/-! Closing. -/

theorem lt_of_fdAt {r : Option ℕ} (h : m.fdAt fd = .ok r) : fd < maxFds := by
  unfold Machine.fdAt at h
  split at h
  · assumption
  · cases h

theorem fdAt_eq (i : Fin maxFds) : m.fdAt i = .ok (m.fdTable i) := dif_pos i.isLt

theorem fdTable_freeFd (i : Fin maxFds) : (m.freeFd file).fdTable i =
    if 3 ≤ i.val ∧ m.fdTable i = some file then none else m.fdTable i := rfl

theorem sysClose_eq (h : m.Closes fd file) : ∃ m' r, m.sysClose fd = .ok (m', r) ∧
    m'.fdTable = (m.freeFd file).fdTable ∧ m'.files = Function.update m.files file none := by
  obtain ⟨hfd, f, close, hfile, hclose⟩ := h
  have hderef : m.deref file = .ok f := by
    unfold Machine.deref
    rw [hfile]
  have hlt : ¬ fd ≥ maxFds := Nat.not_le.mpr (lt_of_fdAt hfd)
  unfold Machine.sysClose
  rw [if_neg hlt, hfd]
  simp only [bind, Except.bind, hderef, hclose]
  exact ⟨_, _, rfl, rfl, rfl⟩

theorem forgets_freeFd_iff (h : m'.fdTable = (m.freeFd file).fdTable) :
    m.Forgets m' file ↔ ∀ i : Fin maxFds, i.val < 3 → m.fdTable i ≠ some file := by
  unfold Machine.Forgets
  rw [h]
  constructor
  · intro hforgets i hi hfile
    apply hforgets.1 i
    rw [fdTable_freeFd, if_neg (fun h => absurd h.1 (by omega)), hfile]
  · intro hlow
    refine ⟨fun i hi => ?_, fun i hi => ?_⟩
    · rw [fdTable_freeFd] at hi
      split at hi
      · cases hi
      · rename_i hkept
        exact hlow i (by by_contra hge; exact hkept ⟨by omega, hi⟩) hi
    · rw [fdTable_freeFd, if_neg (fun h => hi h.2)]

/-- A close that calls the file's close operation makes the table forget the file exactly when
no standard descriptor refers to it. -/
theorem sysClose_forgets_iff (h : m.Closes fd file) :
    (∃ m' r, m.sysClose fd = .ok (m', r) ∧ m.Forgets m' file) ↔
      ∀ i : Fin maxFds, i.val < 3 → m.fdTable i ≠ some file := by
  obtain ⟨m₁, r₁, heq, htable, _⟩ := sysClose_eq h
  rw [← forgets_freeFd_iff htable, heq]
  constructor
  · rintro ⟨m', r, hm, hforgets⟩
    cases hm
    exact hforgets
  · intro hforgets
    exact ⟨m₁, r₁, rfl, hforgets⟩

def devNull : VfsHandles Unit where
  read := some fun _ _ s => (s, 0)
  write := some fun _ args s => (s, args.getD 1 0)
  close := some fun _ _ s => (s, 0)
  seek := none
  ioctl := none

/-- A process that was started without files of its own, so that its standard descriptors are
`dev/null`, and that has opened `dev/null` once more. -/
def spawned : Machine Unit where
  fdTable := fun i => if i.val < 4 then some (i.val + 1) else none
  files := fun file => if file < 5 then some ⟨some devNull, none, .device, 0⟩ else none
  process := ⟨1, 0x10000, fun _ => none, []⟩
  vm := Vm.bootVm
  rest := ()

theorem closes_spawned (i : Fin 4) : spawned.Closes i.val (i.val + 1) := by
  have hlt : i.val < maxFds := Nat.lt_trans i.isLt (by decide)
  refine ⟨?_, ⟨some devNull, none, .device, 0⟩, fun _ _ s => (s, 0), ?_, rfl⟩
  · unfold Machine.fdAt
    rw [dif_pos hlt]
    exact congrArg Except.ok (if_pos i.isLt)
  · exact if_pos (by omega)

/-- Closing the file that was opened. -/
theorem sysClose_forgets_iff_opened :
    spawned.Closes 3 4 ∧ ∃ m' r, spawned.sysClose 3 = .ok (m', r) ∧ spawned.Forgets m' 4 := by
  refine ⟨closes_spawned 3, (sysClose_forgets_iff (closes_spawned 3)).mpr fun i hi hfile => ?_⟩
  have htable : spawned.fdTable i = some (i.val + 1) := if_pos (by omega)
  rw [htable] at hfile
  have := Option.some.inj hfile
  omega

/-- The process closes its standard input. The entry stays, and when the process exits
`kill_process` closes the freed file again. -/
theorem sysClose_standard_input : ∃ m' r, spawned.Closes 0 1 ∧ spawned.sysClose 0 = .ok (m', r) ∧
    m'.fdTable fdStdin = some 1 ∧ ¬ spawned.Forgets m' 1 ∧
      m'.closeAll = .error .freedFile := by
  have hcloses := closes_spawned 0
  obtain ⟨m', r, heq, htable, hfiles⟩ := sysClose_eq hcloses
  have hentry : m'.fdTable fdStdin = some 1 := by rw [htable]; rfl
  have hfreed : m'.files 1 = none := by rw [hfiles]; rfl
  refine ⟨m', r, hcloses, heq, hentry, fun h => h.1 fdStdin hentry, ?_⟩
  have hrange : List.finRange maxFds = fdStdin :: (List.finRange 511).map Fin.succ :=
    List.finRange_succ
  have hsecond : m'.sysClose fdStdin = .error .freedFile := by
    have hderef : m'.deref 1 = .error .freedFile := by
      unfold Machine.deref
      rw [hfreed]
    unfold Machine.sysClose
    rw [if_neg (by decide), fdAt_eq, hentry]
    simp only [bind, Except.bind, hderef]
  unfold Machine.closeAll
  rw [hrange, Machine.closeEach, hentry, if_neg (by simp), hsecond]
  rfl

/-! The closes of `kill_process`. -/

/-! The bounds of the table. -/

theorem fdAt_of_lt (h : fd < maxFds) : ∃ r, m.fdAt fd = .ok r := ⟨_, dif_pos h⟩

theorem fdAt_of_le (h : maxFds ≤ fd) : m.fdAt fd = .error .behindTable :=
  dif_neg (Nat.not_lt.mpr h)

theorem ok_ne_behind {α : Type} (r : α) : (.ok r : Except Fault α) ≠ .error .behindTable := nofun

theorem deref_ne_behind : m.deref file ≠ .error .behindTable := by
  unfold Machine.deref
  cases m.files file <;> simp

theorem bind_deref_ne {α : Type} {next : GenericFile σ → Except Fault α}
    (h : ∀ f, next f ≠ .error .behindTable) :
    (m.deref file >>= next) ≠ .error .behindTable := by
  intro hnext
  cases heq : m.deref file with
  | error e =>
    rw [heq] at hnext
    simp only [bind, Except.bind, Except.error.injEq] at hnext
    exact deref_ne_behind (heq.trans (congrArg Except.error hnext))
  | ok f =>
    rw [heq] at hnext
    exact h f hnext

theorem viaHandle_checked (select : VfsHandles σ → Option (Handle σ)) (args : List ℕ) :
    m.viaHandle select fd args ≠ .error .behindTable ∧
      (maxFds ≤ fd → m.viaHandle select fd args = .ok (m, syscallFail)) := by
  unfold Machine.viaHandle
  rcases Nat.lt_or_ge fd maxFds with hlt | hge
  · obtain ⟨r, hr⟩ := @fdAt_of_lt σ m fd hlt
    rw [if_neg (Nat.not_le.mpr hlt), hr]
    refine ⟨?_, fun hle => absurd hle (Nat.not_le.mpr hlt)⟩
    cases r with
    | none => exact ok_ne_behind _
    | some file =>
      apply bind_deref_ne
      intro f
      cases f.ops.bind select <;> exact ok_ne_behind _
  · rw [if_pos hge]
    exact ⟨ok_ne_behind _, fun _ => rfl⟩

theorem sysClose_checked : m.sysClose fd ≠ .error .behindTable ∧
    (maxFds ≤ fd → m.sysClose fd = .ok (m, syscallFail)) := by
  unfold Machine.sysClose
  rcases Nat.lt_or_ge fd maxFds with hlt | hge
  · obtain ⟨r, hr⟩ := @fdAt_of_lt σ m fd hlt
    rw [if_neg (Nat.not_le.mpr hlt), hr]
    refine ⟨?_, fun hle => absurd hle (Nat.not_le.mpr hlt)⟩
    cases r with
    | none => exact ok_ne_behind _
    | some file =>
      apply bind_deref_ne
      intro f
      cases f.ops.bind VfsHandles.close <;> exact ok_ne_behind _
  · rw [if_pos hge]
    exact ⟨ok_ne_behind _, fun _ => rfl⟩

theorem sysGetdents_checked_iff (entBuffer size : ℕ) :
    (m.sysGetdents b fd entBuffer size ≠ .error .behindTable ∧
      (maxFds ≤ fd → m.sysGetdents b fd entBuffer size = .ok (m, syscallFail))) ↔
        fd < maxFds := by
  unfold Machine.sysGetdents
  rcases Nat.lt_or_ge fd maxFds with hlt | hge
  · obtain ⟨r, hr⟩ := @fdAt_of_lt σ m fd hlt
    rw [hr]
    refine iff_of_true ⟨?_, fun hle => absurd hle (Nat.not_le.mpr hlt)⟩ hlt
    cases r with
    | none => exact ok_ne_behind _
    | some file =>
      apply bind_deref_ne
      intro f
      cases f.genericData <;> exact ok_ne_behind _
  · rw [fdAt_of_le hge]
    exact iff_of_false (fun h => h.1 rfl) (Nat.not_lt.mpr hge)

theorem validSocket_of_lt (h : fd < maxFds) : m.validSocket fd ≠ .error .behindTable := by
  obtain ⟨r, hr⟩ := @fdAt_of_lt σ m fd h
  unfold Machine.validSocket
  rw [if_neg (Nat.not_lt.mpr h.le), hr]
  cases r with
  | none => exact ok_ne_behind _
  | some file =>
    apply bind_deref_ne
    intro f
    by_cases htype : f.type ≠ .socket
    · rw [if_pos htype]
      exact ok_ne_behind _
    · rw [if_neg htype]
      exact ok_ne_behind _

theorem socket_checked_iff {next : Option ℕ → Except Fault (Machine σ × ℕ)}
    (hnone : next none = .ok (m, syscallFail)) (hsome : ∀ sock, next sock ≠ .error .behindTable) :
    ((m.validSocket fd >>= next) ≠ .error .behindTable ∧
      (maxFds ≤ fd → (m.validSocket fd >>= next) = .ok (m, syscallFail))) ↔ fd ≠ maxFds := by
  rcases Nat.lt_trichotomy fd maxFds with hlt | heq | hgt
  · refine iff_of_true ⟨?_, fun hle => absurd hle (Nat.not_le.mpr hlt)⟩ hlt.ne
    intro hnext
    cases hsock : m.validSocket fd with
    | error e =>
      rw [hsock] at hnext
      simp only [bind, Except.bind, Except.error.injEq] at hnext
      exact validSocket_of_lt hlt (hsock.trans (congrArg Except.error hnext))
    | ok sock =>
      rw [hsock] at hnext
      exact hsome sock hnext
  · refine iff_of_false (fun h => h.1 ?_) (not_not.mpr heq)
    unfold Machine.validSocket
    rw [if_neg (by omega), fdAt_of_le heq.ge]
    rfl
  · have hsock : m.validSocket fd = .ok none := if_pos hgt
    have hcall : (m.validSocket fd >>= next) = .ok (m, syscallFail) := by
      rw [hsock]
      exact hnone
    rw [hcall]
    exact iff_of_true ⟨ok_ne_behind _, fun _ => rfl⟩ hgt.ne'

theorem viaProto_checked_iff (select : ProtoOps σ → Option (Handle σ)) (args : List ℕ) :
    (m.viaProto b select fd args ≠ .error .behindTable ∧
      (maxFds ≤ fd → m.viaProto b select fd args = .ok (m, syscallFail))) ↔ fd ≠ maxFds := by
  apply socket_checked_iff rfl
  intro sock
  cases sock with
  | none => exact ok_ne_behind _
  | some sock =>
    dsimp only
    cases (b.protoOps m.rest sock).bind select <;> exact ok_ne_behind _

theorem viaLevel_checked_iff (socketOpt ipOpt : Handle σ) (level : ℕ) (args : List ℕ) :
    (m.viaLevel socketOpt ipOpt fd level args ≠ .error .behindTable ∧
      (maxFds ≤ fd → m.viaLevel socketOpt ipOpt fd level args = .ok (m, syscallFail))) ↔
        fd ≠ maxFds := by
  apply socket_checked_iff rfl
  intro sock
  cases sock with
  | none => exact ok_ne_behind _
  | some sock =>
    dsimp only
    split_ifs <;> exact ok_ne_behind _

theorem sysMmap_refused {c : MmapCall} (h : m.MmapRefused c) :
    m.sysMmap c = .ok (m, syscallFail) := by
  have hperform : c.perform m.vm { m.process with fdTable := m.mappable } = some (m.vm, none) := by
    have hstart : c.start { m.process with fdTable := m.mappable } = c.start m.process := rfl
    rw [MmapCall.perform_eq, hstart]
    split_ifs with htop hsize hflags
    · rfl
    · rfl
    · rfl
    all_goals
      rcases h with h | h | h | h
      · exact absurd h htop
      · exact absurd (.inl h) hsize
      · exact absurd (.inr h) hsize
      · exact absurd h hflags
  unfold Machine.sysMmap
  rw [hperform]

theorem sysMmap_anonymous {c : MmapCall} (h : ¬ m.MmapRefused c)
    (hanon : c.flags &&& mapAnonymous ≠ 0) :
    ∃ m', m.sysMmap c = .ok (m', c.start m.process) := by
  unfold Machine.MmapRefused at h
  push Not at h
  obtain ⟨htop, hsize, halign, hshared⟩ := h
  have hperform : c.perform m.vm { m.process with fdTable := m.mappable } =
      some (m.vm.addArea { m.process with fdTable := m.mappable } (c.start m.process)
        c.size.toNat c.prot c.flags c.descriptor c.offset none, some (c.start m.process)) := by
    have hstart : c.start { m.process with fdTable := m.mappable } = c.start m.process := rfl
    rw [MmapCall.perform_eq, hstart, if_neg (Nat.not_le.mpr htop),
      if_neg (not_or.mpr ⟨hsize, not_not.mpr halign⟩), if_neg (fun h => h.2 (hshared h.1)),
      if_pos hanon]
  unfold Machine.sysMmap
  rw [hperform]
  exact ⟨_, if_neg (fun h => h.1 (hshared hanon))⟩

theorem sysMmap_file_iff {c : MmapCall} (h : ¬ m.MmapRefused c)
    (hfile : c.flags &&& mapAnonymous = 0) :
    m.sysMmap c ≠ .error .behindTable ↔ 3 ≤ c.fd ∧ c.fd < maxFds := by
  unfold Machine.MmapRefused at h
  push Not at h
  obtain ⟨htop, hsize, halign, _⟩ := h
  have hstart : c.start { m.process with fdTable := m.mappable } = c.start m.process := rfl
  have hmax : maxFds < mapFdNone := by decide
  unfold Machine.sysMmap
  rw [MmapCall.perform_eq, hstart, if_neg (Nat.not_le.mpr htop),
    if_neg (not_or.mpr ⟨hsize, not_not.mpr halign⟩), if_neg (fun h => h.1 hfile),
    if_neg (not_not.mpr hfile)]
  by_cases hin : maxFds ≤ c.descriptor
  · rw [if_pos hin]
    refine iff_of_false (fun h => h rfl) fun h => ?_
    have hfd : c.descriptor = c.fd := if_neg (by omega)
    omega
  · rw [if_neg hin]
    refine iff_of_true ?_ ?_
    · dsimp only
      cases m.mappable c.descriptor with
      | none => exact ok_ne_behind _
      | some file =>
        dsimp only
        split_ifs <;> simp
    · unfold MmapCall.descriptor at hin
      split_ifs at hin with hlow
      · omega
      · omega

theorem sysMmap_checked_iff (c : MmapCall) : (m.sysMmap c ≠ .error .behindTable ∧
    (maxFds ≤ c.fd → m.sysMmap c = .ok (m, syscallFail))) ↔
      m.MmapRefused c ∨ (c.fd < maxFds ∧ (c.flags &&& mapAnonymous ≠ 0 ∨ 3 ≤ c.fd)) := by
  by_cases hrefused : m.MmapRefused c
  · rw [sysMmap_refused hrefused]
    exact iff_of_true ⟨ok_ne_behind _, fun _ => rfl⟩ (.inl hrefused)
  rw [or_iff_right hrefused]
  by_cases hanon : c.flags &&& mapAnonymous ≠ 0
  · obtain ⟨m', heq⟩ := sysMmap_anonymous hrefused hanon
    -- the address that is returned is aligned, and `SYSCALL_FAIL` is not
    have hne : c.start m.process ≠ syscallFail := by
      intro h
      apply hrefused
      refine .inr (.inr (.inl ?_))
      rw [h]
      decide
    rw [heq]
    constructor
    · intro h
      refine ⟨Nat.lt_of_not_le fun hle => hne ?_, .inl hanon⟩
      exact congrArg Prod.snd (Except.ok.inj (h.2 hle))
    · intro h
      exact ⟨ok_ne_behind _, fun hle => absurd h.1 (Nat.not_lt.mpr hle)⟩
  · have hfile := sysMmap_file_iff hrefused (not_not.mp hanon)
    rw [hfile]
    constructor
    · intro h
      exact ⟨h.1.2, .inr h.1.1⟩
    · rintro ⟨hlt, hlow⟩
      exact ⟨⟨hlow.resolve_left hanon, hlt⟩, fun hle => absurd hlt (Nat.not_lt.mpr hle)⟩

/-- Which calls check their descriptor: those that go through a handle always do, the calls on
sockets miss `MAX_FDS`, and `sys_getdents` and `sys_mmap` do not check. -/
theorem call_boundsChecked_iff (b : Bodies σ) (m : Machine σ) (c : DescriptorCall) :
    m.BoundsChecked b c ↔ m.Expects c := by
  unfold Machine.BoundsChecked
  cases c with
  | read fd buf size => exact iff_of_true (viaHandle_checked _ _) trivial
  | write fd buf size => exact iff_of_true (viaHandle_checked _ _) trivial
  | close fd => exact iff_of_true sysClose_checked trivial
  | seek fd offset whence => exact iff_of_true (viaHandle_checked _ _) trivial
  | ioctl fd cmd arg => exact iff_of_true (viaHandle_checked _ _) trivial
  | mmap c => exact sysMmap_checked_iff c
  | getdents fd entBuffer size => exact sysGetdents_checked_iff entBuffer size
  | bind fd sockAddr len => exact viaProto_checked_iff _ _
  | recvfrom fd buf len flags srcAddr addrLen => exact viaProto_checked_iff _ _
  | sendto fd buf len flags dstAddr addrLen => exact viaProto_checked_iff _ _
  | setsockopt fd level name val len => exact viaLevel_checked_iff _ _ _ _
  | getsockopt fd level name val len => exact viaLevel_checked_iff _ _ _ _

def idleBodies : Bodies Unit where
  getdents := fun _ _ s => (s, 0)
  protoOps := fun _ _ => none
  socketSetopt := fun _ _ s => (s, 1)
  ipSetopt := fun _ _ s => (s, 1)
  socketGetopt := fun _ _ s => (s, 1)
  ipGetopt := fun _ _ s => (s, 1)

/-- Descriptor 512 of `sys_getdents` and of `sys_bind`, and standard input of `sys_mmap`, are looked
up behind the table. -/
theorem call_behind_table :
    spawned.call idleBodies (.getdents 512 0 64) = .error .behindTable ∧
      spawned.call idleBodies (.bind 512 0 16) = .error .behindTable ∧
        spawned.call idleBodies (.mmap ⟨0x12345, 4096, 3, 0, 0, 0⟩) = .error .behindTable ∧
          ¬ spawned.BoundsChecked idleBodies (.getdents 512 0 64) :=
  ⟨rfl, rfl, rfl, fun h => h.1 rfl⟩

end
end BrickOS.Descriptors
