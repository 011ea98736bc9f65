import BrickOS.Memory.SharedMemory

/-! How `page_fault_handler` resolves a fault: by a page of the program, by a page of an area, or
not at all, which ends the process. -/
namespace BrickOS.Memory
open BrickOS.Lib BrickOS.Filesystem

def VirtMemArea.Contains (v : VirtMemArea) (a : ℕ) : Prop := v.addr ≤ a ∧ a < v.addr + v.size

instance (v : VirtMemArea) (a : ℕ) : Decidable (v.Contains a) :=
  inferInstanceAs (Decidable (_ ∧ _))

inductive FaultEnd where
  | program
  | area (i : ℕ)
  | exit
deriving DecidableEq

namespace Vm

/-- `handle_phdr_mapping` has a descriptor for the program, and maps the page of the address. -/
def takenForProgram (p : Process) (a : ℕ) : Bool := p.freeFd.isSome && p.loadsPage (alignDown a)

def faultEnd (s : Vm) (p : Process) (a : ℕ) : FaultEnd :=
  if takenForProgram p a then .program
  else match s.findVirtMemArea p.processId a with
  | none => .exit
  | some i => .area i

def Within (s : Vm) (pid a : ℕ) : Prop := ∃ v ∈ s.vmAreas, v.owner = pid ∧ v.Contains a

instance (s : Vm) (pid a : ℕ) : Decidable (s.Within pid a) :=
  inferInstanceAs (Decidable (∃ v ∈ s.vmAreas, _))

def Indexed (s : Vm) (v : VirtMemArea) (a : ℕ) : Prop :=
  ∀ o, v.shrdObj = some o → ∃ obj, s.shmObjVec[o]? = some obj ∧
    v.pageIdx (alignDown a) < obj.sharedPages.length

/-- A page is mapped only if some area contains the address and, for a shared one, at an index
within the object. Otherwise the process ends. -/
def Resolves (s : Vm) (p : Process) (a : ℕ) : Prop :=
  match s.faultEnd p a with
  | .program => s.Within p.processId a
  | .area i => s.Within p.processId a ∧ ∀ v, s.vmAreas[i]? = some v → s.Indexed v a
  | .exit => True

/-- No area ends at the address, and its page is not taken for one of the program, unless an area
contains the address; and the area that is found has the page in its object. -/
structure FaultClear (s : Vm) (p : Process) (a : ℕ) : Prop where
  apart : s.Within p.processId a ∨ takenForProgram p a = false ∧
    ∀ v ∈ s.vmAreas, v.owner = p.processId → v.addr ≤ a → v.top ≠ a
  object : takenForProgram p a = false → ∀ i v, s.findVirtMemArea p.processId a = some i →
    s.vmAreas[i]? = some v → s.Indexed v a

section
variable {s : Vm} {p : Process} {a i : ℕ} {v : VirtMemArea}

theorem findVirtMemArea_eq_none : s.findVirtMemArea p.processId a = none ↔
    ∀ v ∈ s.vmAreas, v.owner = p.processId → v.addr ≤ a → v.top < a := by
  unfold findVirtMemArea
  rw [List.findIdx?_eq_none_iff]
  refine forall₂_congr fun v _ => ?_
  simp only [Bool.and_eq_false_iff, beq_eq_false_iff_ne, decide_eq_false_iff_not, not_le]
  constructor
  · rintro ((hne | hlt) | hlt) howner hle
    · exact absurd howner hne
    · omega
    · exact hlt
  · intro h
    by_cases howner : v.owner = p.processId
    · by_cases hle : v.addr ≤ a
      · exact .inr (h howner hle)
      · exact .inl (.inr (by omega))
    · exact .inl (.inl howner)

theorem top_lt_or (hle : v.addr ≤ a) : v.top < a ∨ v.top = a ∨ v.Contains a := by
  unfold VirtMemArea.top VirtMemArea.Contains
  omega

theorem findVirtMemArea_of_not_within (hnot : ¬ s.Within p.processId a) :
    s.findVirtMemArea p.processId a = none ↔
      ∀ v ∈ s.vmAreas, v.owner = p.processId → v.addr ≤ a → v.top ≠ a := by
  rw [findVirtMemArea_eq_none]
  constructor
  · intro h v hv howner hle
    exact Nat.ne_of_lt (h v hv howner hle)
  · intro h v hv howner hle
    rcases top_lt_or hle with hlt | heq | hin
    · exact hlt
    · exact absurd heq (h v hv howner hle)
    · exact absurd ⟨v, hv, howner, hin⟩ hnot

end

def bootVm : Vm where
  hhdm := 0xffff800000000000
  pmm := ⟨0x100000, 64, fun _ => false⟩
  procs := []
  vmAreas := []
  shmObjVec := []
  pageTables := []
  kernelFrames := []
  stale := ⟨0, 0, 0, 0, 0, 0, 0, none, []⟩
  files := ⟨.empty, [], 0⟩
  obtained := []

end Vm

end BrickOS.Memory
