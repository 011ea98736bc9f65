import BrickOS.Basic
import Mathlib.Data.List.Basic
import Mathlib.Logic.Function.Basic
import Mathlib.Tactic.Common

/-! The physical frame allocator, which keeps one bit of `memory_bitmap` per frame. -/
namespace BrickOS.Memory

/-- The allocator's globals, `memory_bitmap` as its bits. -/
structure Pmm where
  memPhysAllocStart : ℕ
  totalPages : ℕ
  memoryBitmap : ℕ → Bool

namespace Pmm

/-- The number of bits `pmm_alloc_page_frame` looks at: the last byte is looked at whole. -/
def nFrames (p : Pmm) : ℕ := 8 * ((p.totalPages + 8 - 1) / 8 % 2 ^ 32)

/-- The address computed for bit `k`. The product is taken in `uint32_t`. -/
def frame (p : Pmm) (k : ℕ) : ℕ :=
  (k * memoryPageSize % 2 ^ 32 + p.memPhysAllocStart) % 2 ^ 64

def pmmAllocPageFrame (p : Pmm) : Option (ℕ × Pmm) :=
  ((List.range p.nFrames).find? fun k => !p.memoryBitmap k).map fun k =>
    (p.frame k, { p with memoryBitmap := Function.update p.memoryBitmap k true })

def pmmFreePageFrame (p : Pmm) (physAddr : ℕ) : Pmm :=
  let frame := (physAddr + 2 ^ 64 - p.memPhysAllocStart) % 2 ^ 64 / memoryPageSize
  { p with memoryBitmap := Function.update p.memoryBitmap frame false }

def Managed (p : Pmm) (f : ℕ) : Prop := ∃ k < p.nFrames, p.frame k = f

def Free (p : Pmm) (f : ℕ) : Prop := ∃ k < p.nFrames, p.memoryBitmap k = false ∧ p.frame k = f

/-- The frames taken for free are whole frames at 52-bit addresses, one for each clear bit. -/
structure Fresh (p : Pmm) : Prop where
  inj : ∀ k < p.nFrames, ∀ l < p.nFrames, p.memoryBitmap k = false → p.memoryBitmap l = false →
    p.frame k = p.frame l → k = l
  aligned : ∀ f, p.Free f → f % memoryPageSize = 0
  physical : ∀ f, p.Free f → f < 2 ^ 52

/-- The region consists of whole frames at 52-bit addresses, and is no larger than the 4 GiB
whose frames have different addresses. -/
structure Exact (p : Pmm) : Prop where
  aligned : p.memPhysAllocStart % memoryPageSize = 0
  small : p.nFrames ≤ 2 ^ 20
  physical : p.memPhysAllocStart + p.nFrames * memoryPageSize ≤ 2 ^ 52

variable {p p' : Pmm} {f g k l : ℕ}

theorem Free.managed (h : p.Free f) : p.Managed f := by
  obtain ⟨k, hk, -, hf⟩ := h
  exact ⟨k, hk, hf⟩

namespace Exact

theorem frame_eq (hp : p.Exact) (hk : k < p.nFrames) :
    p.frame k = p.memPhysAllocStart + k * memoryPageSize := by
  obtain ⟨-, hsmall, hphys⟩ := hp
  unfold frame memoryPageSize at *
  rw [Nat.mod_eq_of_lt (a := k * 0x1000) (by omega), Nat.mod_eq_of_lt (by omega), Nat.add_comm]

theorem frame_inj (hp : p.Exact) (hk : k < p.nFrames) (hl : l < p.nFrames)
    (h : p.frame k = p.frame l) : k = l := by
  rw [hp.frame_eq hk, hp.frame_eq hl] at h
  unfold memoryPageSize at h
  omega

theorem frame_aligned (hp : p.Exact) (hf : p.Managed f) : f % memoryPageSize = 0 := by
  obtain ⟨k, hk, rfl⟩ := hf
  have haligned := hp.aligned
  rw [hp.frame_eq hk]
  unfold memoryPageSize at *
  omega

theorem frame_lt (hp : p.Exact) (hf : p.Managed f) : f < 2 ^ 52 := by
  obtain ⟨k, hk, rfl⟩ := hf
  have hphys := hp.physical
  rw [hp.frame_eq hk]
  unfold memoryPageSize at *
  omega

theorem fresh (hp : p.Exact) : p.Fresh where
  inj _ hk _ hl _ _ h := hp.frame_inj hk hl h
  aligned _ h := hp.frame_aligned h.managed
  physical _ h := hp.frame_lt h.managed

end Exact

theorem free_of_alloc (h : p.pmmAllocPageFrame = some (f, p')) : p.Free f := by
  obtain ⟨k, hfind, hk⟩ := Option.map_eq_some_iff.mp h
  obtain ⟨rfl, -⟩ := Prod.mk.inj hk
  have hbit := List.find?_some hfind
  have hmem := List.mem_of_find?_eq_some hfind
  exact ⟨k, List.mem_range.mp hmem, by simpa using hbit, rfl⟩

theorem managed_alloc (h : p.pmmAllocPageFrame = some (f, p')) : p'.Managed g ↔ p.Managed g := by
  obtain ⟨k, -, hk⟩ := Option.map_eq_some_iff.mp h
  obtain ⟨-, rfl⟩ := Prod.mk.inj hk
  rfl

theorem exact_alloc (h : p.pmmAllocPageFrame = some (f, p')) (hp : p.Exact) : p'.Exact := by
  obtain ⟨k, -, hk⟩ := Option.map_eq_some_iff.mp h
  obtain ⟨-, rfl⟩ := Prod.mk.inj hk
  exact ⟨hp.aligned, hp.small, hp.physical⟩

theorem free_alloc (h : p.pmmAllocPageFrame = some (f, p')) (hp : p.Fresh) :
    p'.Free g ↔ p.Free g ∧ g ≠ f := by
  obtain ⟨k, hfind, hk⟩ := Option.map_eq_some_iff.mp h
  obtain ⟨rfl, rfl⟩ := Prod.mk.inj hk
  have hkn : k < p.nFrames := List.mem_range.mp (List.mem_of_find?_eq_some hfind)
  have hkbit : p.memoryBitmap k = false := by simpa using List.find?_some hfind
  constructor
  · rintro ⟨l, hl, hbit, rfl⟩
    have hlk : l ≠ k := by
      rintro rfl
      simp at hbit
    have hbit' : p.memoryBitmap l = false := by simpa [hlk] using hbit
    exact ⟨⟨l, hl, hbit', rfl⟩, fun heq => hlk (hp.inj l hl k hkn hbit' hkbit heq)⟩
  · rintro ⟨⟨l, hl, hbit, rfl⟩, hne⟩
    have hlk : l ≠ k := by
      rintro rfl
      exact hne rfl
    exact ⟨l, hl, by simpa [hlk] using hbit, rfl⟩

theorem fresh_alloc (h : p.pmmAllocPageFrame = some (f, p')) (hp : p.Fresh) : p'.Fresh := by
  have hfree : ∀ g, p'.Free g → p.Free g := fun g hg => ((free_alloc h hp).mp hg).1
  refine ⟨?_, fun g hg => hp.aligned g (hfree g hg), fun g hg => hp.physical g (hfree g hg)⟩
  obtain ⟨k, -, hk⟩ := Option.map_eq_some_iff.mp h
  obtain ⟨-, rfl⟩ := Prod.mk.inj hk
  have hclear : ∀ l, Function.update p.memoryBitmap k true l = false →
      p.memoryBitmap l = false := by
    intro l hl
    by_cases hlk : l = k
    · simp [hlk] at hl
    · simpa [hlk] using hl
  exact fun l hl m hm hlbit hmbit => hp.inj l hl m hm (hclear l hlbit) (hclear m hmbit)

@[simp] theorem nFrames_freePageFrame (p : Pmm) (f : ℕ) :
    (p.pmmFreePageFrame f).nFrames = p.nFrames := rfl

@[simp] theorem managed_freePageFrame : (p.pmmFreePageFrame f).Managed g ↔ p.Managed g := Iff.rfl

theorem Exact.freePageFrame (hp : p.Exact) (f : ℕ) : (p.pmmFreePageFrame f).Exact :=
  ⟨hp.aligned, hp.small, hp.physical⟩

theorem memoryBitmap_freePageFrame (hp : p.Exact) (haligned : f % memoryPageSize = 0)
    (hf : f < 2 ^ 52) (hl : l < p.nFrames) : (p.pmmFreePageFrame f).memoryBitmap l =
      if p.frame l = f then false else p.memoryBitmap l := by
  have hbit : l = (f + 2 ^ 64 - p.memPhysAllocStart) % 2 ^ 64 / memoryPageSize ↔
      p.frame l = f := by
    have hstart := hp.aligned
    have hphys := hp.physical
    rw [hp.frame_eq hl]
    unfold memoryPageSize at *
    omega
  simp only [pmmFreePageFrame, Function.update_apply, hbit]

theorem free_freePageFrame (hp : p.Exact) (haligned : f % memoryPageSize = 0) (hf : f < 2 ^ 52) :
    (p.pmmFreePageFrame f).Free g ↔ p.Free g ∨ (g = f ∧ p.Managed f) := by
  have hbitmap := fun l (hl : l < p.nFrames) => memoryBitmap_freePageFrame hp haligned hf hl
  constructor
  · rintro ⟨l, hl, hfree, rfl⟩
    rw [hbitmap l hl] at hfree
    by_cases hlf : p.frame l = f
    · exact Or.inr ⟨hlf, l, hl, hlf⟩
    · rw [if_neg hlf] at hfree
      exact Or.inl ⟨l, hl, hfree, rfl⟩
  · rintro (⟨l, hl, hfree, rfl⟩ | ⟨rfl, l, hl, hlf⟩)
    · refine ⟨l, hl, ?_, rfl⟩
      rw [hbitmap l hl, hfree, ite_self]
    · refine ⟨l, hl, ?_, hlf⟩
      rw [hbitmap l hl, if_pos hlf]

end Pmm

end BrickOS.Memory
