import BrickOS.Filesystem.SectorAllocator
import Mathlib.Data.Set.Card

/-! The indices of `sector_bitmaps` that the allocator uses when it makes room for a bitmap or closes
the gap that one leaves. -/
namespace BrickOS.Filesystem
open BrickOS.Lib SectorsHeaderdata

def moveRightIndices (pos : ℕ) : ℕ → List ℕ
  | 0 => []
  | i + 1 => if i + 1 > pos then (i + 1) :: i :: moveRightIndices pos i else []

def insertSectorBitmapIndices (pos nActive : ℕ) : List ℕ :=
  moveRightIndices pos (nActive + 1) ++ [pos]

def moveLeftIndices (i : ℕ) : ℕ → List ℕ
  | 0 => []
  | k + 1 => i :: (i + 1) :: moveLeftIndices (i + 1) k

def shiftSectorBitmapsLeftIndices (start nActive : ℕ) : List ℕ :=
  moveLeftIndices start (dec32 nActive - start) ++ [dec32 nActive]

def freeSectorIndices (h : SectorsHeaderdata) (sectorIdx : ℕ) : List ℕ :=
  let bigSectorIdx := sectorIdx / 512
  let bigSectorSectorIdx := sectorIdx % 512
  if !bitCheck h.bigSectorUsedMap bigSectorIdx then []
  else if bigSectorIdx ≥ 1024 ∨ bigSectorSectorIdx ≥ 512 then []
  else
    let bitmapIdx := countPartiallyUsedBigSectors h bigSectorIdx
    if bitCheck h.bigSectorFullMap bigSectorIdx then
      insertSectorBitmapIndices bitmapIdx h.activePartiallyUsedBitmaps
    else
      match h.sectorBitmaps bitmapIdx with
      | none => []
      | some bitmap =>
        if isBitmapClear (bitClear bitmap bigSectorSectorIdx) then
          shiftSectorBitmapsLeftIndices bitmapIdx h.activePartiallyUsedBitmaps
        else []

def allocateSectorIndices (h : SectorsHeaderdata) : List ℕ :=
  match findBigSector h 1024 0 none with
  | (none, _) => []
  | (some bigSectorIdx, _) =>
    let bitmapIdx := countPartiallyUsedBigSectors h bigSectorIdx
    match h.sectorBitmaps bitmapIdx with
    | none => []
    | some bitmap =>
      match findClearBit bitmap 512 0 with
      | none => []
      | some k =>
        if isBitmapFull (bitSet bitmap k) then
          shiftSectorBitmapsLeftIndices bitmapIdx h.activePartiallyUsedBitmaps
        else []

def AllocCall.indices (h : SectorsHeaderdata) : AllocCall → List ℕ
  | .allocate => allocateSectorIndices h
  | .free sector => freeSectorIndices h sector

def AllocCall.InRange (h : SectorsHeaderdata) (c : AllocCall) : Prop := ∀ i ∈ c.indices h, i < 1024

theorem mem_moveRightIndices {pos i j : ℕ} :
    j ∈ moveRightIndices pos i ↔ pos < i ∧ pos ≤ j ∧ j ≤ i := by
  induction i with
  | zero => simp [moveRightIndices]
  | succ i ih =>
    unfold moveRightIndices
    split_ifs with hpos
    · rw [List.mem_cons, List.mem_cons, ih]
      omega
    · simp only [List.not_mem_nil, false_iff]
      omega

theorem mem_moveLeftIndices {i k j : ℕ} :
    j ∈ moveLeftIndices i k ↔ 0 < k ∧ i ≤ j ∧ j ≤ i + k := by
  induction k generalizing i with
  | zero => simp [moveLeftIndices]
  | succ k ih =>
    rw [moveLeftIndices, List.mem_cons, List.mem_cons, ih]
    omega

theorem mem_insertSectorBitmapIndices {pos nActive j : ℕ} (h : pos ≤ nActive) :
    j ∈ insertSectorBitmapIndices pos nActive ↔ pos ≤ j ∧ j ≤ nActive + 1 := by
  rw [insertSectorBitmapIndices, List.mem_append, mem_moveRightIndices, List.mem_singleton]
  omega

theorem lt_of_mem_shiftSectorBitmapsLeftIndices {start nActive j : ℕ} (h : start < nActive)
    (hsmall : nActive < 2 ^ 32) (hj : j ∈ shiftSectorBitmapsLeftIndices start nActive) :
    j < nActive := by
  rw [shiftSectorBitmapsLeftIndices, List.mem_append, mem_moveLeftIndices, List.mem_singleton,
    dec32_of_pos (by omega) hsmall] at hj
  omega

section
variable {h : SectorsHeaderdata} {b : ℕ}

/-- The bitmaps that are shifted are there. -/
theorem SectorsHeaderdata.WellFormed.shift_inRange (wf : h.WellFormed)
    (hb : partiallyUsed h b = true) : ∀ i ∈ shiftSectorBitmapsLeftIndices
      (countPartiallyUsedBigSectors h b) h.activePartiallyUsedBitmaps, i < 1024 := by
  intro i hi
  have hlt := wf.rank_lt_active hb
  have hle := wf.active_le
  rw [← countPartiallyUsedBigSectors_eq] at hlt
  exact (lt_of_mem_shiftSectorBitmapsLeftIndices hlt (by omega) hi).trans_le hle

/-- Room is made up to the index behind the bitmaps that are there. -/
theorem SectorsHeaderdata.WellFormed.insert_inRange_iff (wf : h.WellFormed) (hb : b < 1024) :
    (∀ i ∈ insertSectorBitmapIndices (countPartiallyUsedBigSectors h b)
      h.activePartiallyUsedBitmaps, i < 1024) ↔ h.activePartiallyUsedBitmaps < 1023 := by
  have hle : countPartiallyUsedBigSectors h b ≤ h.activePartiallyUsedBitmaps := by
    rw [wf.active_rank, countPartiallyUsedBigSectors_eq]
    exact rank_mono _ hb.le
  simp only [mem_insertSectorBitmapIndices hle]
  constructor
  · intro hall
    have hlast := hall (h.activePartiallyUsedBitmaps + 1) ⟨by omega, le_rfl⟩
    omega
  · intro hlt i hi
    omega

theorem SectorsHeaderdata.WellFormed.allocate_inRange (wf : h.WellFormed) :
    AllocCall.allocate.InRange h := by
  intro i hi
  simp only [AllocCall.indices, allocateSectorIndices] at hi
  split at hi
  · cases hi
  rename_i b _ hfind
  have hp := (findBigSector_some hfind).1
  split at hi
  · cases hi
  split at hi
  · cases hi
  split at hi
  · exact wf.shift_inRange hp i hi
  · cases hi

theorem SectorsHeaderdata.WellFormed.free_inRange_iff (wf : h.WellFormed) (s : ℕ) :
    (AllocCall.free s).InRange h ↔
      (bitCheck h.bigSectorFullMap (s / 512) = true → h.activePartiallyUsedBitmaps < 1023) := by
  unfold AllocCall.InRange AllocCall.indices freeSectorIndices
  by_cases hu : bitCheck h.bigSectorUsedMap (s / 512) = true
  swap
  · have hf : ¬bitCheck h.bigSectorFullMap (s / 512) = true := fun hf => hu (wf.full_used _ hf)
    simp [hu, hf]
  have hb := lt_of_used hu
  simp only [hu, Bool.not_true, Bool.false_eq_true, if_false]
  rw [if_neg (by omega)]
  by_cases hf : bitCheck h.bigSectorFullMap (s / 512) = true
  · simp only [hf, if_true, forall_const]
    exact wf.insert_inRange_iff hb
  · have hp : partiallyUsed h (s / 512) = true := by simp [partiallyUsed, hu, hf]
    refine iff_of_true ?_ fun hf' => absurd hf' hf
    intro i hi
    rw [if_neg hf] at hi
    split at hi
    · cases hi
    split at hi
    · exact wf.shift_inRange hp i hi
    · cases hi

end

/-- In every state that calls from empty maps reach, the next call stays in the array unless it frees
a sector of a full big sector while 1023 big sectors are partially used. -/
theorem inRange_iff {cs : List AllocCall} {h : SectorsHeaderdata}
    (hrun : run AllocCall.step .empty cs = some h) (c : AllocCall) :
    c.InRange h ↔ ∀ s, c = .free s → bitCheck h.bigSectorFullMap (s / 512) = true →
      h.activePartiallyUsedBitmaps < 1023 := by
  have wf := AllocCall.run_wellFormed hrun
  cases c with
  | allocate => exact iff_of_true wf.allocate_inRange fun s hs => by cases hs
  | free s =>
    rw [wf.free_inRange_iff]
    constructor
    · intro hlt t ht
      cases ht
      exact hlt
    · intro hall
      exact hall s rfl

/-! A disk filled up, and then a sector freed in each big sector. -/

section
variable {h : SectorsHeaderdata}

theorem SectorsHeaderdata.sectors_subset (h : SectorsHeaderdata) :
    h.sectors ⊆ Finset.range 524288 := by
  intro s hs
  rw [Finset.coe_range]
  exact lt_of_mem_sectors hs

/-- While there are free sectors, they can be allocated. -/
theorem run_allocate (wf : h.WellFormed) {n : ℕ} (hn : h.sectors.ncard + n ≤ 524288) :
    ∃ h', run AllocCall.step h (List.replicate n .allocate) = some h' ∧ h'.WellFormed ∧
      h'.sectors.ncard = h.sectors.ncard + n := by
  induction n generalizing h with
  | zero => exact ⟨h, rfl, wf, rfl⟩
  | succ n ih =>
    rcases allocateSector_cases wf with ⟨-, hall⟩ | ⟨h₁, r, hr, -, hfree, wf₁, -, hins, -⟩
    · have hle : (Finset.range 524288).card ≤ h.sectors.ncard := by
        rw [← Set.ncard_coe_finset]
        apply Set.ncard_le_ncard _ ((Finset.finite_toSet _).subset (sectors_subset h))
        exact fun s hs => hall s (Finset.mem_range.mp hs)
      rw [Finset.card_range] at hle
      omega
    have hsectors : h₁.sectors = insert r h.sectors := by
      ext x
      simp [SectorsHeaderdata.sectors, hins]
    have hout : r ∉ h.sectors := by simp [SectorsHeaderdata.sectors, hfree]
    have hcard : h₁.sectors.ncard = h.sectors.ncard + 1 := by
      rw [hsectors]
      exact Set.ncard_insert_of_notMem hout ((Finset.finite_toSet _).subset (sectors_subset h))
    obtain ⟨h₂, hrun, wf₂, hcard₂⟩ := ih wf₁ (by omega)
    refine ⟨h₂, ?_, wf₂, by omega⟩
    rw [List.replicate_succ, run_cons, AllocCall.step, hr]
    exact hrun

theorem full_of_bits {b : ℕ} (wf : h.WellFormed) (hbits : ∀ k < 512, h.bit b k = true) :
    bitCheck h.bigSectorFullMap b = true := by
  by_contra hf
  have hu := (Bool.and_eq_true_iff.mp (hbits 0 (by decide))).1
  have hp : partiallyUsed h b = true := by
    rw [partiallyUsed, hu, Bool.not_eq_true _ |>.mp hf]
    rfl
  obtain ⟨m, hm, -, hm1⟩ := wf.exists_bitmap hp
  obtain ⟨k, hk, hclear⟩ := isBitmapFull_eq_false.mp hm1
  have hbit := hbits k hk
  rw [bit_of_partiallyUsed hp (by rw [bitmapOf_eq, hm]), hclear] at hbit
  cases hbit

structure Opened (h : SectorsHeaderdata) (m : ℕ) : Prop where
  wf : h.WellFormed
  full : ∀ b, m ≤ b → b < 1024 → bitCheck h.bigSectorFullMap b = true
  active : h.activePartiallyUsedBitmaps = m

theorem opened_zero (wf : h.WellFormed) (hcard : h.sectors.ncard = 524288) : Opened h 0 := by
  have heq : h.sectors = Finset.range 524288 := by
    apply Set.eq_of_subset_of_ncard_le (sectors_subset h) _ (Finset.finite_toSet _)
    rw [hcard, Set.ncard_coe_finset, Finset.card_range]
  have hfull : ∀ b < 1024, bitCheck h.bigSectorFullMap b = true := by
    intro b hb
    apply full_of_bits wf
    intro k hk
    have hmem : b * 512 + k ∈ h.sectors := by
      rw [heq, Finset.coe_range]
      exact show _ < 524288 by omega
    have hbit : h.bit ((b * 512 + k) / 512) ((b * 512 + k) % 512) = true := hmem
    rwa [show (b * 512 + k) / 512 = b by omega, show (b * 512 + k) % 512 = k by omega] at hbit
  refine ⟨wf, fun b _ hb => hfull b hb, ?_⟩
  by_contra hne
  rw [wf.active_rank] at hne
  obtain ⟨b, hb, hp, -⟩ := exists_of_lt_rank (Nat.pos_of_ne_zero hne)
  simp [partiallyUsed, hfull b hb] at hp

theorem Opened.free {m : ℕ} (h₀ : Opened h m) (hm : m < 1024) :
    ∃ h', freeSector h (m * 512) = some h' ∧ Opened h' (m + 1) := by
  have hf := h₀.full m le_rfl hm
  have hdiv : m * 512 / 512 = m := Nat.mul_div_cancel m (by decide)
  have hmod : m * 512 % 512 = 0 := Nat.mul_mod_left m 512
  refine ⟨freeInFull h m 0, ?_, (freeInFull_spec h₀.wf (by decide) hf).1, ?_, ?_⟩
  · rw [freeSector, hdiv, hmod]
    simp only [h₀.wf.full_used m hf, hf, Bool.not_true, Bool.false_eq_true, if_false, if_true]
    rw [if_neg (by omega)]
  · intro b hmb hb
    show bitCheck (bitClear h.bigSectorFullMap m) b = true
    rw [bitCheck_bitClear _ _ (by omega), h₀.full b (by omega) hb, Bool.and_true]
    exact decide_eq_true (by omega)
  · show h.activePartiallyUsedBitmaps + 1 = m + 1
    rw [h₀.active]

theorem Opened.run_free {m : ℕ} (h₀ : Opened h 0) (hm : m ≤ 1024) :
    ∃ h', run AllocCall.step h ((List.range m).map fun b => .free (b * 512)) = some h' ∧
      Opened h' m := by
  induction m with
  | zero => exact ⟨h, rfl, h₀⟩
  | succ m ih =>
    obtain ⟨h₁, hrun, h₁m⟩ := ih (by omega)
    obtain ⟨h₂, hfree, h₂m⟩ := h₁m.free (by omega)
    refine ⟨h₂, ?_, h₂m⟩
    rw [List.range_succ, List.map_append, List.map_singleton, run_concat, hrun]
    exact hfree

/-- The disk filled up, and then the first `m` big sectors opened. -/
theorem exists_opened {n m : ℕ} (hn : n = 524288) (hm : m ≤ 1024) : ∃ h,
    run AllocCall.step .empty (List.replicate n .allocate ++
      (List.range m).map fun b => .free (b * 512)) = some h ∧ Opened h m := by
  have hcard : SectorsHeaderdata.empty.sectors.ncard = 0 := by
    rw [SectorsHeaderdata.empty_sectors, Set.ncard_empty]
  obtain ⟨h₁, hrun₁, wf₁, hcard₁⟩ :=
    run_allocate (n := n) SectorsHeaderdata.empty_wellFormed (by omega)
  obtain ⟨h₂, hrun₂, h₂m⟩ := (opened_zero wf₁ (by omega)).run_free hm
  refine ⟨h₂, ?_, h₂m⟩
  rw [run_append, hrun₁]
  exact hrun₂

end

/-- The next call after 600 allocations. -/
theorem inRange_allocate_after : ∃ h,
    run AllocCall.step .empty (List.replicate 600 .allocate) = some h ∧
      AllocCall.allocate.InRange h := by
  have hcard : SectorsHeaderdata.empty.sectors.ncard = 0 := by
    rw [SectorsHeaderdata.empty_sectors, Set.ncard_empty]
  obtain ⟨h, hrun, -⟩ := run_allocate (n := 600) SectorsHeaderdata.empty_wellFormed (by omega)
  exact ⟨h, hrun, (inRange_iff hrun .allocate).mpr fun s hs => by cases hs⟩

theorem not_inRange_last : ∃ h,
    run AllocCall.step .empty (List.replicate 524288 .allocate ++
      (List.range 1023).map fun b => .free (b * 512)) = some h ∧
      ¬(AllocCall.free (1023 * 512)).InRange h := by
  obtain ⟨h, hrun, hopened⟩ := exists_opened rfl (show 1023 ≤ 1024 by decide)
  refine ⟨h, hrun, ?_⟩
  rw [hopened.wf.free_inRange_iff, hopened.active]
  intro hlt
  exact absurd (hlt (hopened.full _ (by decide) (by decide))) (by decide)

end BrickOS.Filesystem
