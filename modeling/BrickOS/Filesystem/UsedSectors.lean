import BrickOS.Filesystem.BitmapSectors
import Mathlib.Algebra.BigOperators.Group.Finset.Basic

/-! The counter of used sectors, which is kept beside the maps. -/
namespace BrickOS.Filesystem
open BrickOS.Lib

namespace SectorsHeaderdata

def markedIn (h : SectorsHeaderdata) (b : ℕ) : ℕ :=
  if bitCheck h.bigSectorFullMap b then 512
  else if partiallyUsed h b then (h.bitmapOf b).elim 0 fun m => Nat.count (fun k => bitCheck m k) 512
  else 0

/-- The number of sectors that are marked as allocated: 512 for each full big sector, and the bits
that are set in the bitmaps of the partially used ones. -/
def markedSectors (h : SectorsHeaderdata) : ℕ := ∑ b ∈ Finset.range 1024, h.markedIn b

def Counted (h : SectorsHeaderdata) : Prop := h.usedSectors = h.markedSectors

/-- The maps after `init_filesystem`: those of a disk that it has formatted, or what
`read_bitmaps_from_disk` makes of the maps on a formatted disk. -/
def Initialised (h : SectorsHeaderdata) : Prop :=
  formattedMaps = some h ∨
    ∃ c s, readBitmapsFromDisk ⟨.empty, c⟩ = some s ∧ s.header = h ∧ h.WellFormed

end SectorsHeaderdata

def AllocCall.Counts (h : SectorsHeaderdata) : AllocCall → Prop
  | .allocate => True
  | .free sector => h.allocated sector = true ∨ bitCheck h.bigSectorUsedMap (sector / 512) = false

section marked
variable {h h' : SectorsHeaderdata} {b r : ℕ}

theorem markedIn_eq (wf : h.WellFormed) (b : ℕ) :
    h.markedIn b = Nat.count (fun k => h.bit b k) 512 := by
  unfold SectorsHeaderdata.markedIn
  split_ifs with hfull hpartial
  · have hall : ∀ k < 512, h.bit b k = true := fun k _ => SectorsHeaderdata.bit_of_full wf hfull k
    exact (Nat.count_of_forall hall).symm
  · obtain ⟨m, hm, -⟩ := wf.exists_bitmap hpartial
    have hbitmap : h.bitmapOf b = some m := (h.bitmapOf_eq b).trans hm
    rw [hbitmap, Option.elim_some]
    simp only [SectorsHeaderdata.bit_of_partiallyUsed hpartial hbitmap]
  · have hused : bitCheck h.bigSectorUsedMap b = false := by
      simpa [partiallyUsed, hfull] using hpartial
    have hnone : ∀ k < 512, ¬ h.bit b k = true := by
      intro k _
      simp [SectorsHeaderdata.bit, hused]
    exact (Nat.count_of_forall_not hnone).symm

theorem markedSectors_eq (wf : h.WellFormed) :
    h.markedSectors = Nat.count (fun s => h.allocated s) 524288 := by
  have hsum : ∀ n, ∑ b ∈ Finset.range n, h.markedIn b =
      Nat.count (fun s => h.allocated s) (n * 512) := by
    intro n
    induction n with
    | zero => simp
    | succ n ih =>
      have hblock : ∀ k < 512, (h.allocated (n * 512 + k) = true ↔ h.bit n k = true) := by
        intro k hk
        rw [SectorsHeaderdata.allocated, show (n * 512 + k) / 512 = n by omega,
          show (n * 512 + k) % 512 = k by omega]
      rw [Finset.sum_range_succ, ih, Nat.succ_mul, Nat.count_add, markedIn_eq wf]
      exact congrArg _ (le_antisymm (Nat.count_mono_left fun k hk => (hblock k hk).mpr)
        (Nat.count_mono_left fun k hk => (hblock k hk).mp))
  have htotal := hsum 1024
  rw [show 1024 * 512 = 524288 by decide] at htotal
  exact htotal

theorem markedSectors_le (wf : h.WellFormed) : h.markedSectors ≤ 524288 := by
  rw [markedSectors_eq wf]
  exact Nat.count_le _

theorem markedSectors_eq_zero (wf : h.WellFormed) :
    h.markedSectors = 0 ↔ ∀ x, h.allocated x = false := by
  rw [markedSectors_eq wf, Nat.count_iff_forall_not]
  constructor
  · intro hnone x
    rw [Bool.eq_false_iff]
    intro hx
    have hu := SectorsHeaderdata.lt_of_used (Bool.and_eq_true_iff.mp hx).1
    exact hnone x (by omega) hx
  · intro hnone x _
    rw [hnone x]
    exact Bool.false_ne_true

theorem markedSectors_congr (wf : h.WellFormed) (wf' : h'.WellFormed)
    (hsame : ∀ x, h'.allocated x = h.allocated x) : h'.markedSectors = h.markedSectors := by
  rw [markedSectors_eq wf, markedSectors_eq wf']
  simp only [hsame]

theorem wellFormed_withUsedSectors (wf : h.WellFormed) (n : ℕ) :
    { h with usedSectors := n }.WellFormed where
  full_used := wf.full_used
  active_eq := by
    rw [countPartiallyUsedBigSectors_eq]
    exact wf.active_rank
  bitmap := wf.bitmap
  empty := wf.empty

theorem allocated_withUsedSectors (h : SectorsHeaderdata) (n x : ℕ) :
    { h with usedSectors := n }.allocated x = h.allocated x := by
  unfold SectorsHeaderdata.allocated SectorsHeaderdata.bit
  rw [SectorsHeaderdata.bitmapOf_eq, SectorsHeaderdata.bitmapOf_eq]
  rfl

theorem markedSectors_insert (wf : h.WellFormed) (wf' : h'.WellFormed) (hr : r < 524288)
    (hfree : h.allocated r = false)
    (hinsert : ∀ x, h'.allocated x = (decide (x = r) || h.allocated x)) :
    h'.markedSectors = h.markedSectors + 1 := by
  have hset : (Finset.range 524288).filter (fun x => h'.allocated x = true) =
      insert r ((Finset.range 524288).filter fun x => h.allocated x = true) := by
    ext x
    simp only [Finset.mem_filter, Finset.mem_range, Finset.mem_insert, hinsert, Bool.or_eq_true,
      decide_eq_true_eq]
    constructor
    · rintro ⟨hx, rfl | hold⟩
      · exact .inl rfl
      · exact .inr ⟨hx, hold⟩
    · rintro (rfl | ⟨hx, hold⟩)
      · exact ⟨hr, .inl rfl⟩
      · exact ⟨hx, .inr hold⟩
  rw [markedSectors_eq wf, markedSectors_eq wf', Nat.count_eq_card_filter_range,
    Nat.count_eq_card_filter_range, hset, Finset.card_insert_of_notMem]
  simp [hfree]

end marked

section calls
variable {h h' : SectorsHeaderdata} {s : ℕ}

theorem usedSectors_allocateSector {r : ℕ} (ha : allocateSector h = some (h', r))
    (hr : r < 524288) : h'.usedSectors = (h.usedSectors + 1) % 2 ^ 32 := by
  unfold allocateSector at ha
  split at ha
  · cases ha
  · cases ha
    rfl
  · obtain ⟨bitmap, -, heq⟩ := Option.map_eq_some_iff.mp ha
    split at heq
    · cases heq
      exact absurd hr (by decide)
    · cases heq
      unfold takeInPartial
      dsimp only
      split_ifs <;> rfl

theorem usedSectors_freeSector (hf : freeSector h s = some h') : h'.usedSectors =
    if bitCheck h.bigSectorUsedMap (s / 512) then dec32 h.usedSectors else h.usedSectors := by
  unfold freeSector at hf
  by_cases hused : bitCheck h.bigSectorUsedMap (s / 512) = true
  · have hb := SectorsHeaderdata.lt_of_used hused
    have hk := Nat.mod_lt s (show 512 > 0 by decide)
    rw [if_neg (by rw [hused]; decide), if_neg (by omega)] at hf
    rw [if_pos hused]
    split_ifs at hf
    · cases hf
      rfl
    · obtain ⟨m, -, rfl⟩ := Option.map_eq_some_iff.mp hf
      unfold freeInPartial
      dsimp only
      split_ifs <;> rfl
  · rw [if_pos (by simpa using hused)] at hf
    cases hf
    rw [if_neg hused]

theorem counted_allocate (wf : h.WellFormed) (hc : h.Counted)
    (hstep : AllocCall.step h .allocate = some h') : h'.Counted := by
  obtain ⟨⟨h₁, r⟩, ha, rfl⟩ := Option.map_eq_some_iff.mp hstep
  rcases allocateSector_cases wf with ⟨hnone, -⟩ | ⟨h₂, r', hr', hlt, hfree, wf', -, hinsert, -⟩
  · rw [hnone] at ha
    cases ha
  · cases hr'.symm.trans ha
    have hle := markedSectors_le wf
    unfold SectorsHeaderdata.Counted at *
    rw [usedSectors_allocateSector hr' hlt, markedSectors_insert wf wf' hlt hfree hinsert, hc]
    exact Nat.mod_eq_of_lt (by omega)

theorem counted_free_iff (wf : h.WellFormed) (hc : h.Counted) (hf : freeSector h s = some h') :
    h'.Counted ↔ h.allocated s = true ∨ bitCheck h.bigSectorUsedMap (s / 512) = false := by
  obtain ⟨h₁, hf', wf', -, herase⟩ := freeSector_spec wf s
  obtain rfl : h₁ = h' := Option.some.inj (hf'.symm.trans hf)
  have hle := markedSectors_le wf
  unfold SectorsHeaderdata.Counted at *
  rw [usedSectors_freeSector hf, hc]
  by_cases hs : h.allocated s = true
  · have hu : bitCheck h.bigSectorUsedMap (s / 512) = true := (Bool.and_eq_true_iff.mp hs).1
    have hlt := SectorsHeaderdata.lt_of_used hu
    have hmarked : h.markedSectors = h₁.markedSectors + 1 := by
      refine markedSectors_insert wf' wf (show s < 524288 by omega) ?_ fun x => ?_
      · rw [herase]
        simp
      · rw [herase]
        by_cases hx : x = s
        · simp [hx, hs]
        · simp [hx]
    refine iff_of_true ?_ (.inl hs)
    rw [if_pos hu, dec32_of_pos (by omega) (by omega)]
    omega
  · have hsame : h₁.markedSectors = h.markedSectors := by
      refine markedSectors_congr wf wf' fun x => ?_
      rw [herase]
      by_cases hx : x = s
      · simp [hx, hs]
      · simp [hx]
    rw [hsame]
    cases hu : bitCheck h.bigSectorUsedMap (s / 512) with
    | false => simp
    | true =>
      refine iff_of_false ?_ (by simp [hs])
      rw [if_pos rfl]
      unfold dec32
      omega

theorem counted_step_iff {c : AllocCall} (hc : AllocCall.step h c = some h') (wf : h.WellFormed)
    (hcounted : h.Counted) : h'.WellFormed ∧ (h'.Counted ↔ c.Counts h) := by
  refine ⟨AllocCall.step_wellFormed wf hc, ?_⟩
  cases c with
  | allocate => exact iff_of_true (counted_allocate wf hcounted hc) trivial
  | free s => exact counted_free_iff wf hcounted hc

theorem usedSectors_readSectorBitmaps (n : ℕ) (s : Storage) :
    (readSectorBitmaps n s).header.usedSectors = s.header.usedSectors := by
  induction n with
  | zero => rfl
  | succ n ih => exact ih

theorem usedSectors_readBitmapsFromDisk {s s' : Storage} (h : readBitmapsFromDisk s = some s') :
    s'.header.usedSectors = s.header.usedSectors := by
  unfold readBitmapsFromDisk at h
  dsimp only at h
  split_ifs at h
  obtain rfl := Option.some.inj h
  rw [usedSectors_readSectorBitmaps]
  dsimp only [readMaps, Storage.readSector]

theorem counted_formatted (hformat : formattedMaps = some h) : h.WellFormed ∧ h.Counted := by
  have hempty : SectorsHeaderdata.empty.Counted := by
    refine ((markedSectors_eq_zero SectorsHeaderdata.empty_wellFormed).mpr fun x => ?_).symm
    simp [SectorsHeaderdata.allocated, SectorsHeaderdata.bit, SectorsHeaderdata.empty]
  have halong : Along MapCall.step (fun _ c => c = .allocateSector) .empty
      (List.replicate 118 .allocateSector) :=
    (along_true _ _).mono_of_mem fun _ _ hc _ => List.eq_of_mem_replicate hc
  refine run_invariant (I := fun h => h.WellFormed ∧ h.Counted) ?_ halong hformat
    ⟨SectorsHeaderdata.empty_wellFormed, hempty⟩
  rintro h _ h' rfl hstep ⟨wf, hcounted⟩
  exact ⟨MapCall.step_wellFormed wf hstep, counted_allocate wf hcounted hstep⟩

theorem counted_initialised_iff (hinit : h.Initialised) :
    h.WellFormed ∧ (h.Counted ↔ formattedMaps = some h ∨ ∀ x, h.allocated x = false) := by
  rcases hinit with hformat | ⟨c, s, hread, rfl, wf⟩
  · obtain ⟨wf, hcounted⟩ := counted_formatted hformat
    exact ⟨wf, iff_of_true hcounted (.inl hformat)⟩
  · have hzero : s.header.usedSectors = 0 := usedSectors_readBitmapsFromDisk hread
    refine ⟨wf, ?_⟩
    constructor
    · intro hcounted
      exact .inr ((markedSectors_eq_zero wf).mp (hcounted.symm.trans hzero))
    · rintro (hformat | hnone)
      · exact (counted_formatted hformat).2
      · exact hzero.trans ((markedSectors_eq_zero wf).mpr hnone).symm

end calls

end BrickOS.Filesystem
