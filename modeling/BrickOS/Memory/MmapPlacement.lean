import BrickOS.Memory.FaultResolution

/-! Where `sys_mmap` places areas. It takes the address it is given, or the one behind the area it
made last, and does not look at the other areas or at the program. -/
namespace BrickOS.Memory
open BrickOS.Lib BrickOS.Filesystem

structure MmapCall where
  addr : UInt64
  size : UInt64
  prot : ℕ
  flags : ℕ
  fd : ℕ
  offset : ℕ

def Phdr.Holds (ph : Phdr) (a : ℕ) : Prop := ph.pVaddr ≤ a ∧ a < ph.pVaddr + ph.pMemsz

namespace MmapCall

def start (c : MmapCall) (p : Process) : ℕ :=
  if c.addr.toNat = mmapUnspecAddr then p.pageAllocStart else c.addr.toNat

def rounded (c : MmapCall) : ℕ := (c.size.toNat + memoryPageSize - 1) / memoryPageSize * memoryPageSize

/-- `sys_mmap` with these arguments. -/
def perform (c : MmapCall) (s : Vm) (p : Process) : Option (Vm × Option ℕ) :=
  s.sysMmap p c.addr.toNat c.size.toNat c.prot c.flags c.fd c.offset

def Accepted (c : MmapCall) (s : Vm) (p : Process) : Prop :=
  (c.start p + c.size.toNat) % 2 ^ 64 < s.hhdm ∧ c.size.toNat ≠ 0 ∧
    c.start p % memoryPageSize = 0 ∧
    if c.flags &&& mapAnonymous ≠ 0 then c.flags &&& mapShared = 0
    else 3 ≤ c.fd ∧ c.fd < maxFds ∧ (p.fdTable c.fd).isSome

/-- What a successful call is for: the new area is page-aligned, large enough, in user memory, and
shares no address with another area of the process or a segment of its program. -/
structure Placed (c : MmapCall) (s : Vm) (p : Process) (v : VirtMemArea) : Prop where
  aligned : v.addr % memoryPageSize = 0
  large : c.size.toNat ≤ v.size
  user : v.addr + v.size ≤ s.hhdm
  apart : ∀ w ∈ s.vmAreas, w.owner = p.processId → ∀ a, v.Contains a → ¬ w.Contains a
  program : ∀ ph ∈ p.phdrs, ph.pType = ptLoad → ∀ a, v.Contains a → ¬ ph.Holds a

structure Clear (c : MmapCall) (s : Vm) (p : Process) : Prop where
  size : c.rounded < 2 ^ 32
  top : c.start p + c.size.toNat < 2 ^ 64
  apart : ∀ w ∈ s.vmAreas, w.owner = p.processId →
    ∀ a, c.start p ≤ a → a < c.start p + c.rounded → ¬ w.Contains a
  program : ∀ ph ∈ p.phdrs, ph.pType = ptLoad →
    ∀ a, c.start p ≤ a → a < c.start p + c.rounded → ¬ ph.Holds a

end MmapCall

namespace Vm

def mmapStep (pid : ℕ) (s : Vm) (c : MmapCall) : Option Vm :=
  (s.process pid).bind fun p => (c.perform s p).map Prod.fst

def HandsOut (pid : ℕ) (s : Vm) (c : MmapCall) : Prop :=
  ∀ p, s.process pid = some p → ∀ s' addr, c.perform s p = some (s', some addr) →
    ∃ v, s'.vmAreas = v :: s.vmAreas ∧ v.owner = p.processId ∧ v.addr = addr ∧ c.Placed s p v

def MmapClear (pid : ℕ) (s : Vm) (c : MmapCall) : Prop :=
  ∀ p, s.process pid = some p → c.Accepted s p → c.Clear s p

end Vm

section
variable {s s' : Vm} {p : Process} {c : MmapCall} {pid addr : ℕ}

/-- The size of the area: the pages are counted, and the size is computed from them, in 32 bits. -/
def MmapCall.areaSize (c : MmapCall) : ℕ :=
  (c.size.toNat + memoryPageSize - 1) % 2 ^ 64 / memoryPageSize % 2 ^ 32 * memoryPageSize % 2 ^ 32

theorem vmAreas_addArea (s : Vm) (p : Process) (addr size prot flags fd offset : ℕ)
    (shrdObj : Option ℕ) :
    (s.addArea p addr size prot flags fd offset shrdObj).vmAreas =
      ⟨p.processId, addr, (size + memoryPageSize - 1) % 2 ^ 64 / memoryPageSize % 2 ^ 32 *
        memoryPageSize % 2 ^ 32, prot, flags, fd, offset, shrdObj, []⟩ :: s.vmAreas := rfl

theorem vmAreas_shareObject (s : Vm) (pid : ℕ) (file : GenericFile) (nPages : ℕ) :
    (s.shareObject pid file nPages).1.vmAreas = s.vmAreas := by
  unfold Vm.shareObject
  cases s.findSharedObjectById file.objectId <;> rfl

theorem hhdm_shareObject (s : Vm) (pid : ℕ) (file : GenericFile) (nPages : ℕ) :
    (s.shareObject pid file nPages).1.hhdm = s.hhdm := by
  unfold Vm.shareObject
  cases s.findSharedObjectById file.objectId <;> rfl

namespace MmapCall

def descriptor (c : MmapCall) : ℕ := if c.fd < 3 then mapFdNone else c.fd

theorem perform_eq (c : MmapCall) (s : Vm) (p : Process) : c.perform s p =
    if s.hhdm ≤ (c.start p + c.size.toNat) % 2 ^ 64 then some (s, none)
    else if c.size.toNat = 0 ∨ c.start p % memoryPageSize ≠ 0 then some (s, none)
    else if c.flags &&& mapAnonymous ≠ 0 ∧ c.flags &&& mapShared ≠ 0 then some (s, none)
    else if c.flags &&& mapAnonymous ≠ 0 then
      some (s.addArea p (c.start p) c.size.toNat c.prot c.flags c.descriptor c.offset none,
        some (c.start p))
    else if maxFds ≤ c.descriptor then none
    else match p.fdTable c.descriptor with
    | none => some (s, none)
    | some file =>
      if c.flags &&& mapShared ≠ 0 then
        let r := s.shareObject p.processId file
          ((c.size.toNat + memoryPageSize - 1) % 2 ^ 64 / memoryPageSize % 2 ^ 32)
        some (r.1.addArea p (c.start p) c.size.toNat c.prot c.flags c.descriptor c.offset
          (some r.2), some (c.start p))
      else some (s.addArea p (c.start p) c.size.toNat c.prot c.flags c.descriptor c.offset none,
        some (c.start p)) := rfl

/-- A call is refused, or undefined, or it is accepted and makes an area. -/
theorem perform_cases (c : MmapCall) (s : Vm) (p : Process) :
    (¬ c.Accepted s p ∧ (c.perform s p = none ∨ c.perform s p = some (s, none))) ∨
      (c.Accepted s p ∧ ∃ s' v, c.perform s p = some (s', some (c.start p)) ∧ s'.hhdm = s.hhdm ∧
        s'.vmAreas = v :: s.vmAreas ∧ v.owner = p.processId ∧ v.addr = c.start p ∧
          v.size = c.areaSize) := by
  rw [perform_eq]
  unfold Accepted
  by_cases htop : s.hhdm ≤ (c.start p + c.size.toNat) % 2 ^ 64
  · rw [if_pos htop]
    exact .inl ⟨fun h => absurd h.1 (by omega), .inr rfl⟩
  rw [if_neg htop]
  by_cases hsize : c.size.toNat = 0 ∨ c.start p % memoryPageSize ≠ 0
  · rw [if_pos hsize]
    exact .inl ⟨fun h => hsize.elim h.2.1 fun hne => hne h.2.2.1, .inr rfl⟩
  rw [if_neg hsize]
  obtain ⟨hpos, haligned⟩ := not_or.mp hsize
  have hfront := (⟨Nat.not_le.mp htop, hpos, not_not.mp haligned⟩ : _ ∧ _ ∧ _)
  by_cases hanon : c.flags &&& mapAnonymous ≠ 0
  · simp only [if_pos hanon]
    by_cases hshared : c.flags &&& mapShared ≠ 0
    · rw [if_pos ⟨hanon, hshared⟩]
      exact .inl ⟨fun h => hshared h.2.2.2, .inr rfl⟩
    · rw [if_neg fun h => hshared h.2]
      exact .inr ⟨⟨hfront.1, hfront.2.1, hfront.2.2, not_not.mp hshared⟩, _, _, rfl, rfl,
        vmAreas_addArea .., rfl, rfl, rfl⟩
  simp only [if_neg hanon]
  rw [if_neg fun h => hanon h.1]
  by_cases hrange : 3 ≤ c.fd ∧ c.fd < maxFds
  swap
  · refine .inl ⟨fun h => hrange ⟨h.2.2.2.1, h.2.2.2.2.1⟩, .inl (if_pos ?_)⟩
    unfold descriptor
    split_ifs with hfd
    · decide
    · exact Nat.le_of_not_lt fun hlt => hrange ⟨Nat.le_of_not_lt hfd, hlt⟩
  have hdescriptor : c.descriptor = c.fd := if_neg (Nat.not_lt.mpr hrange.1)
  rw [hdescriptor, if_neg (Nat.not_le.mpr hrange.2)]
  cases hfile : p.fdTable c.fd with
  | none => exact .inl ⟨fun h => by simp at h, .inr rfl⟩
  | some file =>
    have haccepted := (⟨hfront.1, hfront.2.1, hfront.2.2, hrange.1, hrange.2, rfl⟩ :
      _ ∧ _ ∧ _ ∧ 3 ≤ c.fd ∧ c.fd < maxFds ∧ (some file).isSome = true)
    refine .inr ⟨haccepted, ?_⟩
    dsimp only
    by_cases hshared : c.flags &&& mapShared ≠ 0
    · rw [if_pos hshared]
      have hareas := vmAreas_shareObject s p.processId file
        ((c.size.toNat + memoryPageSize - 1) % 2 ^ 64 / memoryPageSize % 2 ^ 32)
      exact ⟨_, _, rfl, hhdm_shareObject .., (vmAreas_addArea ..).trans (by rw [hareas]), rfl, rfl,
        rfl⟩
    · rw [if_neg hshared]
      exact ⟨_, _, rfl, rfl, vmAreas_addArea .., rfl, rfl, rfl⟩

theorem areaSize_of_lt (h : c.rounded < 2 ^ 32) : c.areaSize = c.rounded := by
  have hlt := c.size.toNat_lt
  unfold rounded at h
  unfold areaSize rounded
  unfold memoryPageSize at *
  omega

theorem size_le_areaSize_iff (c : MmapCall) : c.size.toNat ≤ c.areaSize ↔ c.rounded < 2 ^ 32 := by
  have hlt := c.size.toNat_lt
  unfold areaSize rounded memoryPageSize
  omega

theorem rounded_mod (c : MmapCall) :
    c.size.toNat ≤ c.rounded ∧ c.rounded < c.size.toNat + memoryPageSize ∧
      c.rounded % memoryPageSize = 0 := by
  unfold rounded memoryPageSize
  omega

theorem placed_iff_clear (haligned : s.hhdm % memoryPageSize = 0) (hlt : s.hhdm < 2 ^ 64)
    (haccepted : c.Accepted s p) {v : VirtMemArea} (haddr : v.addr = c.start p)
    (hsize : v.size = c.areaSize) : c.Placed s p v ↔ c.Clear s p := by
  obtain ⟨htop, -, hstart, -⟩ := haccepted
  obtain ⟨hle, hround, hmod⟩ := c.rounded_mod
  constructor
  · intro h
    have hfits := (size_le_areaSize_iff c).mp (hsize ▸ h.large)
    have harea := areaSize_of_lt hfits
    have huser := h.user
    refine ⟨hfits, by omega, fun w hw howner a hlow hhigh => ?_, fun ph hph htype a hlow hhigh => ?_⟩
    · exact h.apart w hw howner a ⟨by omega, by omega⟩
    · exact h.program ph hph htype a ⟨by omega, by omega⟩
  · intro h
    have harea := areaSize_of_lt h.size
    have hend := h.top
    refine ⟨haddr ▸ hstart, by omega, ?_, fun w hw howner a ha => ?_, fun ph hph htype a ha => ?_⟩
    · unfold memoryPageSize at *
      omega
    · exact h.apart w hw howner a (haddr ▸ ha.1) (by have := ha.2; omega)
    · exact h.program ph hph htype a (haddr ▸ ha.1) (by have := ha.2; omega)

end MmapCall

theorem Vm.handsOut_iff_clear (haligned : s.hhdm % memoryPageSize = 0) (hlt : s.hhdm < 2 ^ 64) :
    Vm.HandsOut pid s c ↔ Vm.MmapClear pid s c := by
  refine forall₂_congr fun p _ => ?_
  rcases c.perform_cases s p with ⟨hnot, hrefused⟩ |
    ⟨haccepted, t, v, hperform, -, hareas, howner, haddr, hsize⟩
  · refine iff_of_true (fun s' addr h => ?_) fun h => absurd h hnot
    rcases hrefused with hnone | hnone
    · cases hnone.symm.trans h
    · cases hnone.symm.trans h
  · have hiff := MmapCall.placed_iff_clear haligned hlt haccepted haddr hsize
    constructor
    · intro h _
      obtain ⟨w, hw, -, -, hplaced⟩ := h t _ hperform
      obtain ⟨rfl, -⟩ := List.cons.inj (hareas.symm.trans hw)
      exact hiff.mp hplaced
    · intro h s' addr hs'
      cases hperform.symm.trans hs'
      exact ⟨v, hareas, howner, haddr, hiff.mpr (h haccepted)⟩

theorem Vm.hhdm_mmapStep (h : Vm.mmapStep pid s c = some s') : s'.hhdm = s.hhdm := by
  obtain ⟨p, -, h⟩ := Option.bind_eq_some_iff.mp h
  obtain ⟨⟨t, r⟩, hr, rfl⟩ := Option.map_eq_some_iff.mp h
  rcases c.perform_cases s p with ⟨-, hnone | hnone⟩ | ⟨-, u, v, hperform, hhdm, -⟩
  · cases hnone.symm.trans hr
  · cases hnone.symm.trans hr
    rfl
  · cases hperform.symm.trans hr
    exact hhdm

end

namespace Vm

/-- In a sequence of calls of `sys_mmap`, all that succeed place their areas well if and only if
all that are accepted are clear. -/
theorem mmap_handsOut_iff (s : Vm) (pid : ℕ) (haligned : s.hhdm % memoryPageSize = 0)
    (hlt : s.hhdm < 2 ^ 64) (cs : List MmapCall) :
    Along (mmapStep pid) (HandsOut pid) s cs ↔ Along (mmapStep pid) (MmapClear pid) s cs := by
  refine along_congr (I := fun t => t.hhdm = s.hhdm) (fun t c ht => ?_) (fun t c u hu ht => ?_) rfl cs
  · exact handsOut_iff_clear (ht ▸ haligned) (ht ▸ hlt)
  · exact (hhdm_mmapStep hu).trans ht

def anonymousCall (size : UInt64) : MmapCall := ⟨0x12345, size, 3, mapAnonymous, 0, 0⟩

structure Placement where
  hhdm : ℕ
  vmAreas : List VirtMemArea
  start : ℕ
  phdrs : List Phdr
deriving DecidableEq

def placement (s : Vm) (pid : ℕ) : Option Placement :=
  (s.process pid).map fun p => ⟨s.hhdm, s.vmAreas, p.pageAllocStart, p.phdrs⟩

theorem mmapClear_of_placement {s : Vm} {pid : ℕ} {size : UInt64} {q : Placement}
    (h : s.placement pid = some q) (hsize : (anonymousCall size).rounded < 2 ^ 32)
    (htop : q.start + size.toNat < 2 ^ 64) (hareas : ∀ w ∈ q.vmAreas, w.addr + w.size ≤ q.start)
    (hphdrs : ∀ ph ∈ q.phdrs, ph.pVaddr + ph.pMemsz ≤ q.start) :
    MmapClear pid s (anonymousCall size) := by
  intro p hp _
  unfold placement at h
  rw [hp, Option.map_some, Option.some_inj] at h
  subst h
  dsimp only at htop hareas hphdrs
  have hstart : (anonymousCall size).start p = p.pageAllocStart := rfl
  refine ⟨hsize, htop, fun w hw _ a hlow _ hin => ?_, fun ph hph _ a hlow _ hin => ?_⟩
  · have hend := hareas w hw
    unfold VirtMemArea.Contains at hin
    omega
  · have hend := hphdrs ph hph
    unfold Phdr.Holds at hin
    omega

/-- A program of one page that maps a page twice. -/
theorem mmap_handsOut_iff_twice : ∃ s,
    run Vm.step bootVm [.createProcess 0 1 0x2000 [⟨ptLoad, 0, 0x1000⟩]] = some s ∧
      Along (mmapStep 1) (HandsOut 1) s [anonymousCall 4096, anonymousCall 4096] := by
  obtain ⟨s, hrun, hview⟩ := Option.bind_eq_some_iff.mp
    (by decide +kernel : (run Vm.step bootVm [.createProcess 0 1 0x2000
      [⟨ptLoad, 0, 0x1000⟩]]).bind (fun s => (s.placement 1).bind fun q =>
        (s.mmapStep 1 (anonymousCall 4096)).bind fun t => (t.placement 1).map fun q' => (q, q')) =
      some (⟨0xffff800000000000, [], 0x2000, [⟨ptLoad, 0, 0x1000⟩]⟩,
        ⟨0xffff800000000000, [⟨1, 0x2000, 4096, 3, 0x20, 2 ^ 32 - 1, 0, none, []⟩], 0x3000,
          [⟨ptLoad, 0, 0x1000⟩]⟩))
  obtain ⟨q, hq, hview⟩ := Option.bind_eq_some_iff.mp hview
  obtain ⟨t, ht, hview⟩ := Option.bind_eq_some_iff.mp hview
  obtain ⟨q', hq', hview⟩ := Option.map_eq_some_iff.mp hview
  obtain ⟨rfl, rfl⟩ := Prod.mk.inj hview
  have hhdm : s.hhdm = 0xffff800000000000 := by
    obtain ⟨p, -, hp⟩ := Option.map_eq_some_iff.mp hq
    exact congrArg Placement.hhdm hp
  refine ⟨s, hrun, (mmap_handsOut_iff s 1 (by rw [hhdm]; decide) (by rw [hhdm]; decide) _).mpr
    ((along_cons_iff ht).mpr ⟨?_, ?_, fun _ _ => trivial⟩)⟩
  · exact mmapClear_of_placement hq (by decide) (by decide) (by decide) (by decide)
  · exact mmapClear_of_placement hq' (by decide) (by decide) (by decide) (by decide)

/-- An area of 4 GiB has no byte. And the area of a program whose variables take more memory than
the file has bytes lies among the variables. -/
theorem mmap_not_handedOut :
    (∃ s, run Vm.step bootVm [.createProcess 0 1 0x2000 [⟨ptLoad, 0, 0x1000⟩]] = some s ∧
      ¬ HandsOut 1 s (anonymousCall 0x100000000)) ∧
    ∃ s, run Vm.step bootVm [.createProcess 0 1 0x2000 [⟨ptLoad, 0, 0x100000⟩]] = some s ∧
      ¬ HandsOut 1 s (anonymousCall 4096) := by
  have hmade : ∀ {s : Vm} {size : UInt64} {addr n : ℕ} {phdrs : List Phdr},
      (s.process 1).bind (fun p => ((anonymousCall size).perform s p).map fun r =>
        (p.phdrs, r.2, r.1.vmAreas.map fun v => (v.addr, v.size))) =
          some (phdrs, some addr, [(addr, n)]) → HandsOut 1 s (anonymousCall size) →
      ∃ p v, (anonymousCall size).Placed s p v ∧ v.addr = addr ∧ v.size = n ∧ p.phdrs = phdrs := by
    intro s size addr n phdrs hview hhands
    obtain ⟨p, hp, hview⟩ := Option.bind_eq_some_iff.mp hview
    obtain ⟨⟨s', r⟩, hperform, hview⟩ := Option.map_eq_some_iff.mp hview
    simp only [Prod.mk.injEq] at hview
    obtain ⟨hphdrs, rfl, hareas⟩ := hview
    obtain ⟨v, hv, -, -, hplaced⟩ := hhands p hp s' addr hperform
    rw [hv, List.map_cons, List.cons.injEq, Prod.mk.injEq] at hareas
    exact ⟨p, v, hplaced, hareas.1.1, hareas.1.2, hphdrs⟩
  constructor
  · obtain ⟨s, hrun, hview⟩ := Option.bind_eq_some_iff.mp
      (by decide +kernel : (run Vm.step bootVm [.createProcess 0 1 0x2000
        [⟨ptLoad, 0, 0x1000⟩]]).bind (fun s => (s.process 1).bind fun p =>
          ((anonymousCall 0x100000000).perform s p).map fun r =>
            (p.phdrs, r.2, r.1.vmAreas.map fun v => (v.addr, v.size))) =
        some ([⟨ptLoad, 0, 0x1000⟩], some 0x2000, [(0x2000, 0)]))
    refine ⟨s, hrun, fun hhands => ?_⟩
    obtain ⟨p, v, hplaced, -, hsize, -⟩ := hmade hview hhands
    have hlarge := hplaced.large
    rw [hsize] at hlarge
    exact absurd hlarge (by decide)
  · obtain ⟨s, hrun, hview⟩ := Option.bind_eq_some_iff.mp
      (by decide +kernel : (run Vm.step bootVm [.createProcess 0 1 0x2000
        [⟨ptLoad, 0, 0x100000⟩]]).bind (fun s => (s.process 1).bind fun p =>
          ((anonymousCall 4096).perform s p).map fun r =>
            (p.phdrs, r.2, r.1.vmAreas.map fun v => (v.addr, v.size))) =
        some ([⟨ptLoad, 0, 0x100000⟩], some 0x2000, [(0x2000, 4096)]))
    refine ⟨s, hrun, fun hhands => ?_⟩
    obtain ⟨p, v, hplaced, haddr, hsize, hphdrs⟩ := hmade hview hhands
    refine hplaced.program ⟨ptLoad, 0, 0x100000⟩ (by rw [hphdrs]; exact List.mem_cons_self) rfl
      0x2000 ?_ (by unfold Phdr.Holds; decide)
    unfold VirtMemArea.Contains
    omega

end Vm

end BrickOS.Memory
