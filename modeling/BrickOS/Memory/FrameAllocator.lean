import BrickOS.Lib.Run
import BrickOS.Memory.Pmm

/-! The frames that the allocator hands out over a whole run, from `pmm_init` on. -/
namespace BrickOS.Memory
open BrickOS.Lib

namespace Pmm

def kernelPages (totalPages : ℕ) : ℕ :=
  ((totalPages + 8 - 1) / 8 + memoryPageSize - 1) / memoryPageSize

def pmmInit (physAllocStart memHigh : ℕ) : Pmm :=
  let totalPages := (memHigh + 2 ^ 64 - physAllocStart) % 2 ^ 64 / memoryPageSize
  ⟨physAllocStart, totalPages, fun k => decide (k < kernelPages totalPages)⟩

end Pmm

structure FrameUse where
  pmm : Pmm
  allocated : List ℕ

inductive FrameCall where
  | alloc
  | free (frame : ℕ)

def FrameCall.step (s : FrameUse) : FrameCall → Option FrameUse
  | .alloc => s.pmm.pmmAllocPageFrame.map fun a => ⟨a.2, a.1 :: s.allocated⟩
  | .free frame =>
    if frame ∈ s.allocated then some ⟨s.pmm.pmmFreePageFrame frame, s.allocated.erase frame⟩
    else none

namespace FrameUse

def Usable (s : FrameUse) (f : ℕ) : Prop :=
  ∃ k < s.pmm.totalPages, Pmm.kernelPages s.pmm.totalPages ≤ k ∧
    f = s.pmm.memPhysAllocStart + memoryPageSize * k

/-- The next frame is a usable one that is not allocated, and there is a panic only when none is
left. -/
structure Right (s : FrameUse) : Prop where
  returned : ∀ f p, s.pmm.pmmAllocPageFrame = some (f, p) → s.Usable f ∧ f ∉ s.allocated
  panics : s.pmm.pmmAllocPageFrame = none → ∀ f, s.Usable f → f ∈ s.allocated

def start (physAllocStart memHigh : ℕ) : FrameUse := ⟨Pmm.pmmInit physAllocStart memHigh, []⟩

structure Marked (s : FrameUse) : Prop where
  whole : s.pmm.totalPages % 8 = 0
  small : s.pmm.totalPages ≤ 2 ^ 20
  high : s.pmm.memPhysAllocStart + memoryPageSize * s.pmm.totalPages < 2 ^ 64
  bits : ∀ k < s.pmm.totalPages, s.pmm.memoryBitmap k = true ↔
    k < Pmm.kernelPages s.pmm.totalPages ∨
      s.pmm.memPhysAllocStart + memoryPageSize * k ∈ s.allocated
  usable : ∀ f ∈ s.allocated, s.Usable f
  nodup : s.allocated.Nodup

end FrameUse

section alloc
variable {p p' : Pmm} {f k : ℕ}

theorem pmmAllocPageFrame_eq_some (h : p.pmmAllocPageFrame = some (f, p')) :
    ∃ k < p.nFrames, p.memoryBitmap k = false ∧ f = p.frame k ∧
      p' = { p with memoryBitmap := Function.update p.memoryBitmap k true } := by
  obtain ⟨k, hfind, heq⟩ := Option.map_eq_some_iff.mp h
  obtain ⟨rfl, rfl⟩ := Prod.mk.inj heq
  refine ⟨k, List.mem_range.mp (List.mem_of_find?_eq_some hfind), ?_, rfl, rfl⟩
  simpa using List.find?_some hfind

theorem pmmAllocPageFrame_eq_none :
    p.pmmAllocPageFrame = none ↔ ∀ k < p.nFrames, p.memoryBitmap k = true := by
  unfold Pmm.pmmAllocPageFrame
  simp [List.find?_eq_none]

theorem pmmAllocPageFrame_first (hk : k < p.nFrames) (hclear : p.memoryBitmap k = false)
    (hset : ∀ l < k, p.memoryBitmap l = true) : p.pmmAllocPageFrame =
      some (p.frame k, { p with memoryBitmap := Function.update p.memoryBitmap k true }) := by
  have hfind : ((List.range p.nFrames).find? fun k => !p.memoryBitmap k) = some k := by
    rw [List.find?_range_eq_some]
    refine ⟨by simp [hclear], List.mem_range.mpr hk, fun j hj => ?_⟩
    simp [hset j hj]
  unfold Pmm.pmmAllocPageFrame
  rw [hfind]
  rfl

end alloc

namespace FrameUse
variable {s t : FrameUse} {c : FrameCall} {physAllocStart memHigh k : ℕ}

namespace Marked

theorem nFrames_eq (h : s.Marked) : s.pmm.nFrames = s.pmm.totalPages := by
  have hwhole := h.whole
  have hsmall := h.small
  unfold Pmm.nFrames
  omega

theorem frame_eq (h : s.Marked) (hk : k < s.pmm.totalPages) :
    s.pmm.frame k = s.pmm.memPhysAllocStart + memoryPageSize * k := by
  have hsmall := h.small
  have hhigh := h.high
  unfold Pmm.frame memoryPageSize at *
  omega

theorem right (h : s.Marked) : s.Right := by
  constructor
  · intro f p hf
    obtain ⟨k, hk, hclear, rfl, -⟩ := pmmAllocPageFrame_eq_some hf
    rw [h.nFrames_eq] at hk
    have hbit := (h.bits k hk).not.mp (by rw [hclear]; exact Bool.false_ne_true)
    rw [h.frame_eq hk]
    exact ⟨⟨k, hk, Nat.not_lt.mp fun hlt => hbit (.inl hlt), rfl⟩, fun hmem => hbit (.inr hmem)⟩
  · rintro hnone _ ⟨k, hk, hle, rfl⟩
    have hset := pmmAllocPageFrame_eq_none.mp hnone k (h.nFrames_eq.symm ▸ hk)
    exact ((h.bits k hk).mp hset).resolve_left (Nat.not_lt.mpr hle)

theorem alloc (h : s.Marked) (hstep : FrameCall.step s .alloc = some t) : t.Marked := by
  obtain ⟨⟨f, p⟩, hf, rfl⟩ := Option.map_eq_some_iff.mp hstep
  obtain ⟨husable, hnew⟩ := h.right.returned f p hf
  obtain ⟨k, hk, hclear, rfl, rfl⟩ := pmmAllocPageFrame_eq_some hf
  rw [h.nFrames_eq] at hk
  rw [h.frame_eq hk] at husable hnew ⊢
  refine ⟨h.whole, h.small, h.high, fun l hl => ?_, ?_, List.nodup_cons.mpr ⟨hnew, h.nodup⟩⟩
  · dsimp only
    rw [List.mem_cons]
    by_cases hlk : l = k
    · simp [hlk]
    · have hne : s.pmm.memPhysAllocStart + memoryPageSize * l ≠
          s.pmm.memPhysAllocStart + memoryPageSize * k := by
        unfold memoryPageSize
        omega
      rw [Function.update_of_ne hlk, or_iff_right hne]
      exact h.bits l hl
  · intro g hg
    rcases List.mem_cons.mp hg with rfl | hg
    · exact husable
    · exact h.usable g hg

theorem free (h : s.Marked) {f : ℕ} (hstep : FrameCall.step s (.free f) = some t) : t.Marked := by
  dsimp only [FrameCall.step] at hstep
  split_ifs at hstep with hmem
  obtain rfl := Option.some.inj hstep
  obtain ⟨k, hk, hle, rfl⟩ := h.usable f hmem
  have hindex : (s.pmm.memPhysAllocStart + memoryPageSize * k + 2 ^ 64 - s.pmm.memPhysAllocStart) %
      2 ^ 64 / memoryPageSize = k := by
    have hhigh := h.high
    unfold memoryPageSize at *
    omega
  refine ⟨h.whole, h.small, h.high, fun l hl => ?_, ?_, h.nodup.erase _⟩
  · show Function.update s.pmm.memoryBitmap _ false l = true ↔
      l < Pmm.kernelPages s.pmm.totalPages ∨
        s.pmm.memPhysAllocStart + memoryPageSize * l ∈ s.allocated.erase _
    rw [hindex, h.nodup.mem_erase_iff]
    by_cases hlk : l = k
    · rw [hlk, Function.update_self]
      refine iff_of_false Bool.false_ne_true ?_
      rintro (hlt | ⟨hne, -⟩)
      · exact absurd hlt (Nat.not_lt.mpr hle)
      · exact hne rfl
    · have hne : s.pmm.memPhysAllocStart + memoryPageSize * l ≠
          s.pmm.memPhysAllocStart + memoryPageSize * k := by
        unfold memoryPageSize
        omega
      rw [Function.update_of_ne hlk, and_iff_right hne]
      exact h.bits l hl
  · intro g hg
    exact h.usable g (List.mem_of_mem_erase hg)

theorem step (h : s.Marked) (hstep : FrameCall.step s c = some t) : t.Marked := by
  cases c with
  | alloc => exact h.alloc hstep
  | free f => exact h.free hstep

end Marked

theorem totalPages_start (hle : physAllocStart ≤ memHigh) (hlt : memHigh < 2 ^ 64) :
    (start physAllocStart memHigh).pmm.totalPages = (memHigh - physAllocStart) / memoryPageSize := by
  show (memHigh + 2 ^ 64 - physAllocStart) % 2 ^ 64 / memoryPageSize = _
  congr 1
  omega

theorem memoryBitmap_start (physAllocStart memHigh k : ℕ) :
    (start physAllocStart memHigh).pmm.memoryBitmap k =
      decide (k < Pmm.kernelPages (start physAllocStart memHigh).pmm.totalPages) := rfl

theorem start_marked (hle : physAllocStart ≤ memHigh) (hlt : memHigh < 2 ^ 64)
    (hwhole : (start physAllocStart memHigh).pmm.totalPages % 8 = 0)
    (hsmall : (start physAllocStart memHigh).pmm.totalPages ≤ 2 ^ 20) :
    (start physAllocStart memHigh).Marked where
  whole := hwhole
  small := hsmall
  high := by
    rw [totalPages_start hle hlt]
    show physAllocStart + _ < _
    unfold memoryPageSize
    omega
  bits k _ := by
    rw [memoryBitmap_start, decide_eq_true_eq]
    exact (or_iff_left List.not_mem_nil).symm
  usable f hf := absurd hf List.not_mem_nil
  nodup := List.nodup_nil

/-- Allocations only: the frames come one after the other. -/
theorem exists_allocs {m : ℕ}
    (hm : Pmm.kernelPages (start physAllocStart memHigh).pmm.totalPages = m) {n : ℕ}
    (hn : 0 < n → m + n ≤ (start physAllocStart memHigh).pmm.nFrames) :
    ∃ s, run FrameCall.step (start physAllocStart memHigh) (List.replicate n .alloc) = some s ∧
      s.pmm.memPhysAllocStart = physAllocStart ∧
      s.pmm.totalPages = (start physAllocStart memHigh).pmm.totalPages ∧
      (∀ k, s.pmm.memoryBitmap k = decide (k < m + n)) ∧
      ∀ f ∈ s.allocated, ∃ k < s.pmm.nFrames, f = s.pmm.frame k := by
  induction n with
  | zero =>
    refine ⟨_, rfl, rfl, rfl, fun k => ?_, fun f hf => absurd hf List.not_mem_nil⟩
    rw [memoryBitmap_start, hm, Nat.add_zero]
  | succ n ih =>
    obtain ⟨s, hrun, hstart, htotal, hbits, hframes⟩ := ih fun _ => by omega
    have hroom : m + n < s.pmm.nFrames := by
      unfold Pmm.nFrames at hn ⊢
      rw [htotal]
      omega
    have halloc := pmmAllocPageFrame_first hroom (by rw [hbits]; simp)
      (fun l hl => by rw [hbits]; simpa using hl)
    obtain ⟨p, hp⟩ : ∃ p : Pmm, p =
        { s.pmm with memoryBitmap := Function.update s.pmm.memoryBitmap (m + n) true } := ⟨_, rfl⟩
    rw [← hp] at halloc
    refine ⟨⟨p, s.pmm.frame (m + n) :: s.allocated⟩, ?_, ?_, ?_, fun k => ?_, fun f hf => ?_⟩
    · rw [List.replicate_succ', run_concat, hrun, Option.bind_some, FrameCall.step, halloc]
      rfl
    · rw [hp]
      exact hstart
    · rw [hp]
      exact htotal
    · rw [hp]
      dsimp only
      rw [Function.update_apply, hbits, ← Nat.add_assoc]
      split_ifs with hk
      · simp [hk]
      · rw [decide_eq_decide]
        omega
    · rw [hp]
      rcases List.mem_cons.mp hf with rfl | hf
      · exact ⟨_, hroom, rfl⟩
      · exact hframes f hf

end FrameUse

section region
variable {physAllocStart memHigh : ℕ}

theorem FrameUse.not_right_of_partial (hle : physAllocStart ≤ memHigh) (hlt : memHigh < 2 ^ 64)
    (hsmall : (FrameUse.start physAllocStart memHigh).pmm.totalPages ≤ 2 ^ 20)
    (hpart : (FrameUse.start physAllocStart memHigh).pmm.totalPages % 8 ≠ 0) :
    ∃ cs s, run FrameCall.step (FrameUse.start physAllocStart memHigh) cs = some s ∧ ¬ s.Right := by
  have htotal := FrameUse.totalPages_start hle hlt
  obtain ⟨n, hn⟩ : ∃ n, (FrameUse.start physAllocStart memHigh).pmm.totalPages = n := ⟨_, rfl⟩
  have hpages : Pmm.kernelPages n ≤ n := by
    unfold Pmm.kernelPages memoryPageSize
    omega
  have hframes : n < (FrameUse.start physAllocStart memHigh).pmm.nFrames := by
    unfold Pmm.nFrames
    rw [hn]
    omega
  obtain ⟨s, hrun, hstart, htotal', hbits, -⟩ := FrameUse.exists_allocs
    (congrArg Pmm.kernelPages hn) (n := n - Pmm.kernelPages n) fun _ => by omega
  refine ⟨_, s, hrun, fun hright => ?_⟩
  rw [Nat.add_sub_cancel' hpages] at hbits
  have halloc := pmmAllocPageFrame_first (p := s.pmm) (k := n)
    (by unfold Pmm.nFrames at hframes ⊢; rwa [htotal'])
    (by rw [hbits]; simp) (fun l hl => by rw [hbits]; simpa using hl)
  obtain ⟨⟨k, hk, -, heq⟩, -⟩ := hright.returned _ _ halloc
  rw [htotal', hn] at hk
  unfold Pmm.frame at heq
  rw [hstart] at heq
  unfold memoryPageSize at *
  omega

theorem FrameUse.not_right_of_large (hle : physAllocStart ≤ memHigh) (hlt : memHigh < 2 ^ 64)
    (hlarge : 2 ^ 20 < (FrameUse.start physAllocStart memHigh).pmm.totalPages) :
    ∃ cs s, run FrameCall.step (FrameUse.start physAllocStart memHigh) cs = some s ∧ ¬ s.Right := by
  have htotal := FrameUse.totalPages_start hle hlt
  obtain ⟨n, hn⟩ : ∃ n, (FrameUse.start physAllocStart memHigh).pmm.totalPages = n := ⟨_, rfl⟩
  rw [hn] at hlarge htotal
  have hpages : 0 < Pmm.kernelPages n ∧ Pmm.kernelPages n < n := by
    unfold Pmm.kernelPages memoryPageSize
    omega
  obtain ⟨m, hm⟩ : ∃ m, m = max (Pmm.kernelPages n) (2 ^ 20) := ⟨_, rfl⟩
  obtain ⟨total, htotal''⟩ : ∃ total, (FrameUse.start physAllocStart memHigh).pmm.nFrames = total :=
    ⟨_, rfl⟩
  have hsame : ∀ s : FrameUse, s.pmm.totalPages = n → s.pmm.nFrames = total := by
    intro s hs
    rw [← htotal'']
    unfold Pmm.nFrames
    rw [hs, hn]
  by_cases hframes : m < total
  · obtain ⟨s, hrun, hstart, htotal', hbits, -⟩ := FrameUse.exists_allocs
      (congrArg Pmm.kernelPages hn) (n := m - Pmm.kernelPages n) fun _ => by omega
    refine ⟨_, s, hrun, fun hright => ?_⟩
    rw [hn] at htotal'
    rw [Nat.add_sub_cancel' (by omega)] at hbits
    have halloc := pmmAllocPageFrame_first (p := s.pmm) (k := m) (by rw [hsame s htotal']; exact hframes)
      (by rw [hbits]; simp) (fun l hl => by rw [hbits]; simpa using hl)
    obtain ⟨⟨k, hk, hkernel, heq⟩, -⟩ := hright.returned _ _ halloc
    rw [htotal'] at hk hkernel
    unfold Pmm.frame at heq
    rw [hstart] at heq
    unfold memoryPageSize at *
    omega
  · obtain ⟨s, hrun, hstart, htotal', hbits, hallocated⟩ :=
      FrameUse.exists_allocs (congrArg Pmm.kernelPages hn)
        (n := total - Pmm.kernelPages n) fun _ => by omega
    refine ⟨_, s, hrun, fun hright => ?_⟩
    rw [hn] at htotal'
    have hnone : s.pmm.pmmAllocPageFrame = none := by
      rw [pmmAllocPageFrame_eq_none, hsame s htotal']
      intro k hk
      rw [hbits, decide_eq_true_eq]
      omega
    have hmem := hright.panics hnone (physAllocStart + memoryPageSize * (n - 1))
      ⟨n - 1, by omega, by rw [htotal']; omega, by rw [hstart]⟩
    obtain ⟨k, -, heq⟩ := hallocated _ hmem
    unfold Pmm.frame at heq
    rw [hstart] at heq
    unfold memoryPageSize at *
    omega

end region

/-- In all runs over a region, the allocator hands out a usable frame that is not allocated and
panics only when there is none, if and only if the pages of the region fill whole bytes of the
bitmap and there are no more than 4 GiB of them. -/
theorem frameAllocator_right_iff {physAllocStart memHigh : ℕ} (hle : physAllocStart ≤ memHigh)
    (hlt : memHigh < 2 ^ 64) :
    (∀ cs s, run FrameCall.step (FrameUse.start physAllocStart memHigh) cs = some s → s.Right) ↔
      (memHigh - physAllocStart) / memoryPageSize % 8 = 0 ∧
        (memHigh - physAllocStart) / memoryPageSize ≤ 2 ^ 20 := by
  rw [← FrameUse.totalPages_start hle hlt]
  constructor
  · intro hall
    have hsmall : (FrameUse.start physAllocStart memHigh).pmm.totalPages ≤ 2 ^ 20 := by
      by_contra hlarge
      obtain ⟨cs, s, hrun, hnot⟩ := FrameUse.not_right_of_large hle hlt (Nat.not_le.mp hlarge)
      exact hnot (hall cs s hrun)
    refine ⟨?_, hsmall⟩
    by_contra hpart
    obtain ⟨cs, s, hrun, hnot⟩ := FrameUse.not_right_of_partial hle hlt hsmall hpart
    exact hnot (hall cs s hrun)
  · rintro ⟨hwhole, hsmall⟩ cs s hrun
    refine FrameUse.Marked.right (run_invariant (P := fun _ _ => True) ?_ (along_true _ _) hrun
      (FrameUse.start_marked hle hlt hwhole hsmall))
    exact fun _ _ _ _ hstep h => h.step hstep

/-- A region of 64 pages. -/
theorem frameAllocator_right_iff_whole : (0x140000 - 0x100000) / memoryPageSize = 64 ∧
    ∀ cs s, run FrameCall.step (FrameUse.start 0x100000 0x140000) cs = some s → s.Right :=
  ⟨rfl, (frameAllocator_right_iff (by decide) (by decide)).mpr (by decide)⟩

/-- A region of two pages, the first of which holds the bitmap: the second allocation returns the
frame behind the region. -/
theorem frameAllocator_behind_region : ∃ s,
    run FrameCall.step (FrameUse.start 0x100000 0x102000) [.alloc, .alloc] = some s ∧
      0x102000 ∈ s.allocated ∧ ¬ s.Usable 0x102000 := by
  refine ⟨_, rfl, by decide, ?_⟩
  rintro ⟨k, hk, -, heq⟩
  have hk : k < 2 := hk
  have heq : 0x102000 = 0x100000 + 0x1000 * k := heq
  omega

end BrickOS.Memory
