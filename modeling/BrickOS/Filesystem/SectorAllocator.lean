import BrickOS.Basic
import BrickOS.Lib.Run
import BrickOS.Lib.Bitmap
import BrickOS.Lib.Ranked
import Mathlib.Logic.Function.Basic
import Mathlib.Data.Set.Insert

/-! The sector allocator. The disk's 524288 sectors form 1024 big sectors of 512 sectors each.
Two bitmaps say which big sectors are used and which are full; only a big sector that is used
and not full has a bitmap of its own, and these are kept in the order of their big sectors. -/
namespace BrickOS.Filesystem
open BrickOS.Lib

structure SectorsHeaderdata where
  bigSectorUsedMap : Vector UInt8 128
  bigSectorFullMap : Vector UInt8 128
  inodeSectorMap : Vector UInt8 100
  sectorBitmaps : ℕ → Option (Vector UInt8 64)
  activePartiallyUsedBitmaps : ℕ
  usedSectors : ℕ

def SectorsHeaderdata.empty : SectorsHeaderdata where
  bigSectorUsedMap := Vector.replicate 128 0
  bigSectorFullMap := Vector.replicate 128 0
  inodeSectorMap := Vector.replicate 100 0
  sectorBitmaps := fun _ => none
  activePartiallyUsedBitmaps := 0
  usedSectors := 0

def dec32 (n : ℕ) : ℕ := (n + 2 ^ 32 - 1) % 2 ^ 32

def partiallyUsed (h : SectorsHeaderdata) (i : ℕ) : Bool :=
  bitCheck h.bigSectorUsedMap i && !bitCheck h.bigSectorFullMap i

def countPartiallyUsedBigSectors (h : SectorsHeaderdata) : ℕ → ℕ
  | 0 => 0
  | i + 1 => countPartiallyUsedBigSectors h i + if partiallyUsed h i then 1 else 0

def isBitmapClear {n : ℕ} (bitmap : Vector UInt8 n) : Bool := bitmap.all fun b => b == 0x00

def isBitmapFull {n : ℕ} (bitmap : Vector UInt8 n) : Bool := bitmap.all fun b => b == 0xff

def moveRight {β : Type*} (bitmaps : ℕ → β) (pos : ℕ) : ℕ → (ℕ → β)
  | 0 => bitmaps
  | i + 1 =>
    if i + 1 > pos then moveRight (Function.update bitmaps (i + 1) (bitmaps i)) pos i else bitmaps

def insertSectorBitmap {β : Type*} (bitmaps : ℕ → Option β) (newMap : β) (pos nActive : ℕ) :
    ℕ → Option β :=
  Function.update (moveRight bitmaps pos (nActive + 1)) pos (some newMap)

def moveLeft {β : Type*} (bitmaps : ℕ → β) (i : ℕ) : ℕ → (ℕ → β)
  | 0 => bitmaps
  | k + 1 => moveLeft (Function.update bitmaps i (bitmaps (i + 1))) (i + 1) k

def shiftSectorBitmapsLeft {β : Type*} (bitmaps : ℕ → Option β) (start nActive : ℕ) :
    ℕ → Option β :=
  Function.update (moveLeft bitmaps start (dec32 nActive - start)) (dec32 nActive) none

def freeInFull (h : SectorsHeaderdata) (bigSectorIdx bigSectorSectorIdx : ℕ) :
    SectorsHeaderdata :=
  { h with
    sectorBitmaps := insertSectorBitmap h.sectorBitmaps
      (bitClear (Vector.replicate 64 0xff) bigSectorSectorIdx)
      (countPartiallyUsedBigSectors h bigSectorIdx) h.activePartiallyUsedBitmaps
    activePartiallyUsedBitmaps := h.activePartiallyUsedBitmaps + 1
    bigSectorFullMap := bitClear h.bigSectorFullMap bigSectorIdx
    usedSectors := dec32 h.usedSectors }

def freeInPartial (h : SectorsHeaderdata) (bigSectorIdx bigSectorSectorIdx : ℕ)
    (bitmap : Vector UInt8 64) : SectorsHeaderdata :=
  let bitmapIdx := countPartiallyUsedBigSectors h bigSectorIdx
  let bitmap := bitClear bitmap bigSectorSectorIdx
  let bitmaps := Function.update h.sectorBitmaps bitmapIdx (some bitmap)
  if isBitmapClear bitmap then
    { h with
      bigSectorUsedMap := bitClear h.bigSectorUsedMap bigSectorIdx
      sectorBitmaps := shiftSectorBitmapsLeft bitmaps bitmapIdx h.activePartiallyUsedBitmaps
      activePartiallyUsedBitmaps := dec32 h.activePartiallyUsedBitmaps
      usedSectors := dec32 h.usedSectors }
  else { h with sectorBitmaps := bitmaps, usedSectors := dec32 h.usedSectors }

/-- `free_sector`, `none` where the code would follow a null pointer. The check of the used map
comes before the range check and may look behind the map; both of its outcomes return there. -/
def freeSector (h : SectorsHeaderdata) (sectorIdx : ℕ) : Option SectorsHeaderdata :=
  let bigSectorIdx := sectorIdx / 512
  let bigSectorSectorIdx := sectorIdx % 512
  if !bitCheck h.bigSectorUsedMap bigSectorIdx then some h
  else if bigSectorIdx ≥ 1024 ∨ bigSectorSectorIdx ≥ 512 then some h
  else if bitCheck h.bigSectorFullMap bigSectorIdx then
    some (freeInFull h bigSectorIdx bigSectorSectorIdx)
  else
    (h.sectorBitmaps (countPartiallyUsedBigSectors h bigSectorIdx)).map
      (freeInPartial h bigSectorIdx bigSectorSectorIdx)

/-- The search of `allocate_sector` over the `k` big sectors from `i` on: the first partially
used one, and the first unused one seen before it. -/
def findBigSector (h : SectorsHeaderdata) : ℕ → ℕ → Option ℕ → Option ℕ × Option ℕ
  | 0, _, firstFree => (none, firstFree)
  | k + 1, i, firstFree =>
    if partiallyUsed h i then (some i, firstFree)
    else findBigSector h k (i + 1)
      (if !bitCheck h.bigSectorUsedMap i && firstFree.isNone then some i else firstFree)

def findClearBit {n : ℕ} (bitmap : Vector UInt8 n) : ℕ → ℕ → Option ℕ
  | 0, _ => none
  | k + 1, i => if !bitCheck bitmap i then some i else findClearBit bitmap k (i + 1)

/-- The branch of `allocate_sector` that opens an unused big sector. No bitmap exists then, so
the new one goes to position 0. -/
def openBigSector (h : SectorsHeaderdata) (bigSectorIdx : ℕ) : SectorsHeaderdata :=
  { h with
    bigSectorUsedMap := bitSet h.bigSectorUsedMap bigSectorIdx
    activePartiallyUsedBitmaps := h.activePartiallyUsedBitmaps + 1
    sectorBitmaps :=
      Function.update h.sectorBitmaps 0 (some (bitSet (Vector.replicate 64 0x00) 0))
    usedSectors := (h.usedSectors + 1) % 2 ^ 32 }

def takeInPartial (h : SectorsHeaderdata) (bigSectorIdx : ℕ) (bitmap : Vector UInt8 64) (k : ℕ) :
    SectorsHeaderdata :=
  let bitmapIdx := countPartiallyUsedBigSectors h bigSectorIdx
  let bitmap := bitSet bitmap k
  let bitmaps := Function.update h.sectorBitmaps bitmapIdx (some bitmap)
  if isBitmapFull bitmap then
    { h with
      sectorBitmaps := shiftSectorBitmapsLeft bitmaps bitmapIdx h.activePartiallyUsedBitmaps
      activePartiallyUsedBitmaps := dec32 h.activePartiallyUsedBitmaps
      bigSectorFullMap := bitSet h.bigSectorFullMap bigSectorIdx
      usedSectors := (h.usedSectors + 1) % 2 ^ 32 }
  else { h with sectorBitmaps := bitmaps, usedSectors := (h.usedSectors + 1) % 2 ^ 32 }

/-- `allocate_sector`, `none` for its panic and for a null bitmap. -/
def allocateSector (h : SectorsHeaderdata) : Option (SectorsHeaderdata × ℕ) :=
  match findBigSector h 1024 0 none with
  | (none, none) => none
  | (none, some firstFree) => some (openBigSector h firstFree, firstFree * 512)
  | (some bigSectorIdx, _) =>
    (h.sectorBitmaps (countPartiallyUsedBigSectors h bigSectorIdx)).map fun bitmap =>
      match findClearBit bitmap 512 0 with
      -- "should never happen"
      | none => (h, 2 ^ 32 - 1)
      | some k => (takeInPartial h bigSectorIdx bitmap k, bigSectorIdx * 512 + k)

theorem dec32_of_pos {n : ℕ} (h0 : 0 < n) (h : n < 2 ^ 32) : dec32 n = n - 1 := by
  unfold dec32
  omega

theorem countPartiallyUsedBigSectors_eq (h : SectorsHeaderdata) (n : ℕ) :
    countPartiallyUsedBigSectors h n = rank (partiallyUsed h) n := by
  induction n with
  | zero => simp [countPartiallyUsedBigSectors, rank]
  | succ n ih =>
    unfold rank at ih ⊢
    rw [countPartiallyUsedBigSectors, Nat.count_succ, ih]

theorem moveRight_apply {β : Type*} (bitmaps : ℕ → β) (pos i j : ℕ) :
    moveRight bitmaps pos i j = if pos < j ∧ j ≤ i then bitmaps (j - 1) else bitmaps j := by
  induction i generalizing bitmaps with
  | zero => rw [moveRight, if_neg (by omega)]
  | succ i ih =>
    unfold moveRight
    split_ifs with hpos hj hj
    · rw [ih]
      by_cases hji : j = i + 1
      · subst hji
        rw [if_neg (by omega), Function.update_self, Nat.add_sub_cancel]
      · rw [if_pos (by omega), Function.update_of_ne (show j - 1 ≠ i + 1 by omega)]
    · rw [ih, if_neg (by omega), Function.update_of_ne (show j ≠ i + 1 by omega)]
    · omega
    · rfl

theorem moveLeft_apply {β : Type*} (bitmaps : ℕ → β) (i k j : ℕ) :
    moveLeft bitmaps i k j = if i ≤ j ∧ j < i + k then bitmaps (j + 1) else bitmaps j := by
  induction k generalizing bitmaps i with
  | zero => rw [moveLeft, if_neg (by omega)]
  | succ k ih =>
    rw [moveLeft, ih]
    by_cases hji : j = i
    · subst hji
      rw [if_neg (by omega), if_pos (by omega), Function.update_self]
    · by_cases hin : i + 1 ≤ j ∧ j < i + 1 + k
      · rw [if_pos hin, if_pos (by omega), Function.update_of_ne (by omega)]
      · rw [if_neg hin, if_neg (by omega), Function.update_of_ne hji]

section
variable {β : Type*} {bitmaps : ℕ → Option β} {pos nActive : ℕ}
  (hnone : ∀ i ≥ nActive, bitmaps i = none)
include hnone

theorem insertSectorBitmap_eq (newMap : β) (hpos : pos ≤ nActive) :
    insertSectorBitmap bitmaps newMap pos nActive = insertAt bitmaps pos (some newMap) := by
  funext j
  unfold insertSectorBitmap insertAt
  by_cases hj : j = pos
  · subst hj
    rw [Function.update_self, if_neg (lt_irrefl _), if_pos rfl]
  rw [Function.update_of_ne hj, moveRight_apply]
  by_cases hlt : j < pos
  · rw [if_neg (by omega), if_pos hlt]
  rw [if_neg hlt, if_neg hj]
  split_ifs with hin
  · rfl
  · rw [hnone j (by omega), hnone (j - 1) (by omega)]

theorem shiftSectorBitmapsLeft_eq (hpos : pos < nActive) (hsmall : nActive < 2 ^ 32) :
    shiftSectorBitmapsLeft bitmaps pos nActive = removeAt bitmaps pos := by
  funext j
  unfold shiftSectorBitmapsLeft removeAt
  rw [dec32_of_pos (by omega) hsmall]
  by_cases hj : j = nActive - 1
  · subst hj
    rw [Function.update_self, if_neg (by omega), hnone _ (by omega)]
  rw [Function.update_of_ne hj, moveLeft_apply]
  by_cases hlt : j < pos
  · rw [if_neg (by omega), if_pos hlt]
  rw [if_neg hlt]
  split_ifs with hin
  · rfl
  · rw [hnone j (by omega), hnone (j + 1) (by omega)]

end

theorem removeAt_update {β : Type*} (slot : ℕ → β) (pos : ℕ) (v : β) :
    removeAt (Function.update slot pos v) pos = removeAt slot pos := by
  funext i
  unfold removeAt
  split_ifs with h
  · rw [Function.update_of_ne (by omega)]
  · rw [Function.update_of_ne (by omega)]

namespace SectorsHeaderdata

def bitmapOf (h : SectorsHeaderdata) (b : ℕ) : Option (Vector UInt8 64) :=
  h.sectorBitmaps (countPartiallyUsedBigSectors h b)

def bit (h : SectorsHeaderdata) (b k : ℕ) : Bool :=
  bitCheck h.bigSectorUsedMap b &&
    (bitCheck h.bigSectorFullMap b || (h.bitmapOf b).any fun m => bitCheck m k)

def allocated (h : SectorsHeaderdata) (s : ℕ) : Bool := h.bit (s / 512) (s % 512)

/-- Full big sectors are used, and the bitmaps are those of the partially used big sectors,
neither all-zero nor all-one. -/
structure WellFormed (h : SectorsHeaderdata) : Prop where
  full_used : ∀ b, bitCheck h.bigSectorFullMap b = true → bitCheck h.bigSectorUsedMap b = true
  active_eq : h.activePartiallyUsedBitmaps = countPartiallyUsedBigSectors h 1024
  bitmap : ∀ i < h.activePartiallyUsedBitmaps, ∃ m, h.sectorBitmaps i = some m ∧
    isBitmapClear m = false ∧ isBitmapFull m = false
  empty : ∀ i ≥ h.activePartiallyUsedBitmaps, h.sectorBitmaps i = none

variable {h h' : SectorsHeaderdata} {b : ℕ} {m : Vector UInt8 64} {v : ℕ → Bool}

theorem lt_of_used (hb : bitCheck h.bigSectorUsedMap b = true) : b < 1024 := by
  by_contra hge
  rw [bitCheck_of_le _ (by omega)] at hb
  cases hb

theorem bitmapOf_eq (h : SectorsHeaderdata) (b : ℕ) :
    h.bitmapOf b = h.sectorBitmaps (rank (partiallyUsed h) b) := by
  rw [bitmapOf, countPartiallyUsedBigSectors_eq]

theorem WellFormed.active_rank (wf : h.WellFormed) :
    h.activePartiallyUsedBitmaps = rank (partiallyUsed h) 1024 := by
  rw [wf.active_eq, countPartiallyUsedBigSectors_eq]

theorem WellFormed.active_le (wf : h.WellFormed) : h.activePartiallyUsedBitmaps ≤ 1024 := by
  rw [wf.active_rank]
  exact Nat.count_le _

theorem lt_of_partiallyUsed (hb : partiallyUsed h b = true) : b < 1024 := by
  unfold partiallyUsed at hb
  exact lt_of_used (Bool.and_eq_true_iff.mp hb).1

theorem WellFormed.rank_lt_active (wf : h.WellFormed) (hb : partiallyUsed h b = true) :
    rank (partiallyUsed h) b < h.activePartiallyUsedBitmaps := by
  rw [wf.active_rank]
  exact rank_lt hb (lt_of_partiallyUsed hb)

theorem bit_congr {c : ℕ} (hu : bitCheck h'.bigSectorUsedMap c = bitCheck h.bigSectorUsedMap c)
    (hf : bitCheck h'.bigSectorFullMap c = bitCheck h.bigSectorFullMap c)
    (hm : partiallyUsed h c = true → h'.bitmapOf c = h.bitmapOf c) (k : ℕ) :
    h'.bit c k = h.bit c k := by
  unfold bit
  rw [hu, hf]
  unfold partiallyUsed at hm
  cases hu' : bitCheck h.bigSectorUsedMap c <;> cases hf' : bitCheck h.bigSectorFullMap c
  all_goals simp_all

theorem bit_of_full (wf : h.WellFormed) (hb : bitCheck h.bigSectorFullMap b = true) (k : ℕ) :
    h.bit b k = true := by
  simp [bit, wf.full_used b hb, hb]

theorem bit_of_partiallyUsed (hb : partiallyUsed h b = true) (hm : h.bitmapOf b = some m) (k : ℕ) :
    h.bit b k = bitCheck m k := by
  simp only [partiallyUsed, Bool.and_eq_true, Bool.not_eq_true'] at hb
  simp [bit, hb, hm]

structure SameElsewhere (h h' : SectorsHeaderdata) (b : ℕ) : Prop where
  used : ∀ c ≠ b, bitCheck h'.bigSectorUsedMap c = bitCheck h.bigSectorUsedMap c
  full : ∀ c ≠ b, bitCheck h'.bigSectorFullMap c = bitCheck h.bigSectorFullMap c

theorem SameElsewhere.partiallyUsed (h₁ : SameElsewhere h h' b) {c : ℕ} (hc : c ≠ b) :
    partiallyUsed h' c = partiallyUsed h c := by
  unfold Filesystem.partiallyUsed
  rw [h₁.used c hc, h₁.full c hc]

theorem SameElsewhere.full_used (h₁ : SameElsewhere h h' b) (wf : h.WellFormed)
    (hb : bitCheck h'.bigSectorFullMap b = true → bitCheck h'.bigSectorUsedMap b = true) (c : ℕ)
    (hc : bitCheck h'.bigSectorFullMap c = true) : bitCheck h'.bigSectorUsedMap c = true := by
  by_cases hcb : c = b
  · rw [hcb] at hc ⊢
    exact hb hc
  · rw [h₁.full c hcb] at hc
    rw [h₁.used c hcb]
    exact wf.full_used c hc

/-- A big sector that becomes partially used, its bitmap put in front of those behind it. -/
theorem WellFormed.insert (wf : h.WellFormed) (h₁ : SameElsewhere h h' b)
    (hp : partiallyUsed h b = false) (hp' : partiallyUsed h' b = true)
    (hslots : h'.sectorBitmaps = insertAt h.sectorBitmaps (rank (partiallyUsed h) b) (some m))
    (hactive : h'.activePartiallyUsedBitmaps = h.activePartiallyUsedBitmaps + 1)
    (hm0 : isBitmapClear m = false) (hm1 : isBitmapFull m = false)
    (hself : ∀ j < 512, bitCheck m j = v j) :
    h'.WellFormed ∧ (∀ c ≠ b, ∀ j, h'.bit c j = h.bit c j) ∧ ∀ j < 512, h'.bit b j = v j := by
  have hb := lt_of_partiallyUsed hp'
  have hmark : Marked (partiallyUsed h) (partiallyUsed h') b := ⟨hp, hp', fun _ => h₁.partiallyUsed⟩
  have hpos : rank (partiallyUsed h) b ≤ h.activePartiallyUsedBitmaps := by
    rw [wf.active_rank]
    exact rank_mono _ hb.le
  refine ⟨⟨h₁.full_used wf fun _ => (Bool.and_eq_true_iff.mp hp').1, ?_, ?_, ?_⟩, ?_, ?_⟩
  · rw [hactive, wf.active_rank, countPartiallyUsedBigSectors_eq, hmark.rank_eq, if_pos hb]
  · intro i hi
    rw [hslots]
    unfold insertAt
    split_ifs with hlt heq
    · exact wf.bitmap i (by omega)
    · exact ⟨m, rfl, hm0, hm1⟩
    · exact wf.bitmap (i - 1) (by omega)
  · intro i hi
    rw [hslots]
    unfold insertAt
    rw [if_neg (by omega), if_neg (by omega), wf.empty (i - 1) (by omega)]
  · intro c hc
    refine bit_congr (h₁.used c hc) (h₁.full c hc) fun hpc => ?_
    rw [bitmapOf_eq, bitmapOf_eq, hslots, hmark.insertAt_of_ne _ _ hpc]
  · intro j hj
    rw [bit_of_partiallyUsed hp' (by rw [bitmapOf_eq, hslots, hmark.insertAt_self]), hself j hj]

/-- A big sector that is no longer partially used, its bitmap taken out. -/
theorem WellFormed.remove (wf : h.WellFormed) (h₁ : SameElsewhere h h' b)
    (hp : partiallyUsed h b = true) (hp' : partiallyUsed h' b = false)
    (hfull : bitCheck h'.bigSectorFullMap b = true → bitCheck h'.bigSectorUsedMap b = true)
    (hslots : h'.sectorBitmaps = shiftSectorBitmapsLeft (Function.update h.sectorBitmaps
      (countPartiallyUsedBigSectors h b) (some m)) (countPartiallyUsedBigSectors h b)
      h.activePartiallyUsedBitmaps)
    (hactive : h'.activePartiallyUsedBitmaps = dec32 h.activePartiallyUsedBitmaps)
    (hself : ∀ j < 512, h'.bit b j = v j) :
    h'.WellFormed ∧ (∀ c ≠ b, ∀ j, h'.bit c j = h.bit c j) ∧ ∀ j < 512, h'.bit b j = v j := by
  have hpos := wf.rank_lt_active hp
  have hsmall := wf.active_le
  have hmark : Marked (partiallyUsed h') (partiallyUsed h) b :=
    ⟨hp', hp, fun _ hc => (h₁.partiallyUsed hc).symm⟩
  rw [countPartiallyUsedBigSectors_eq, shiftSectorBitmapsLeft_eq (fun i hi => by
    rw [Function.update_of_ne (by omega), wf.empty i hi]) hpos (by omega), removeAt_update] at hslots
  rw [dec32_of_pos (by omega) (by omega)] at hactive
  refine ⟨⟨h₁.full_used wf hfull, ?_, ?_, ?_⟩, ?_, hself⟩
  · rw [hactive, wf.active_rank, countPartiallyUsedBigSectors_eq, hmark.rank_eq,
      if_pos (lt_of_partiallyUsed hp), Nat.add_sub_cancel]
  · intro i hi
    rw [hslots]
    unfold removeAt
    split_ifs with hlt
    · exact wf.bitmap i (by omega)
    · exact wf.bitmap (i + 1) (by omega)
  · intro i hi
    rw [hslots]
    unfold removeAt
    rw [if_neg (by omega), wf.empty (i + 1) (by omega)]
  · intro c hc
    refine bit_congr (h₁.used c hc) (h₁.full c hc) fun hpc => ?_
    rw [← h₁.partiallyUsed hc] at hpc
    rw [bitmapOf_eq, bitmapOf_eq, hslots, hmark.removeAt_of_ne _ hpc]

/-- A partially used big sector that stays so, with another bitmap. -/
theorem WellFormed.replace (wf : h.WellFormed) (hb : partiallyUsed h b = true)
    (hused : h'.bigSectorUsedMap = h.bigSectorUsedMap)
    (hfull : h'.bigSectorFullMap = h.bigSectorFullMap)
    (hslots : h'.sectorBitmaps =
      Function.update h.sectorBitmaps (countPartiallyUsedBigSectors h b) (some m))
    (hactive : h'.activePartiallyUsedBitmaps = h.activePartiallyUsedBitmaps)
    (hm0 : isBitmapClear m = false) (hm1 : isBitmapFull m = false)
    (hself : ∀ j < 512, bitCheck m j = v j) :
    h'.WellFormed ∧ (∀ c ≠ b, ∀ j, h'.bit c j = h.bit c j) ∧ ∀ j < 512, h'.bit b j = v j := by
  have hp : partiallyUsed h' = partiallyUsed h := by
    funext i
    simp only [partiallyUsed, hused, hfull]
  rw [countPartiallyUsedBigSectors_eq] at hslots
  refine ⟨⟨by rw [hused, hfull]; exact wf.full_used, ?_, ?_, ?_⟩, ?_, ?_⟩
  · rw [hactive, wf.active_rank, countPartiallyUsedBigSectors_eq, hp]
  · intro i hi
    rw [hslots]
    by_cases heq : i = rank (partiallyUsed h) b
    · exact ⟨m, by rw [heq, Function.update_self], hm0, hm1⟩
    · rw [Function.update_of_ne heq]
      exact wf.bitmap i (by omega)
  · intro i hi
    have hpos := wf.rank_lt_active hb
    rw [hslots, Function.update_of_ne (by omega), wf.empty i (by omega)]
  · intro c hc
    refine bit_congr (by rw [hused]) (by rw [hfull]) fun hpc => ?_
    rw [bitmapOf_eq, bitmapOf_eq, hslots, hp,
      Function.update_of_ne fun heq => hc (rank_inj hpc hb heq)]
  · intro j hj
    rw [bit_of_partiallyUsed (by rw [hp, hb]) (by rw [bitmapOf_eq, hslots, hp, Function.update_self]),
      hself j hj]

theorem WellFormed.exists_bitmap (wf : h.WellFormed) (hb : partiallyUsed h b = true) :
    ∃ m, h.sectorBitmaps (rank (partiallyUsed h) b) = some m ∧ isBitmapClear m = false ∧
      isBitmapFull m = false := wf.bitmap _ (wf.rank_lt_active hb)

theorem allocated_erase {s : ℕ} (hother : ∀ c ≠ s / 512, ∀ k, h'.bit c k = h.bit c k)
    (hself : ∀ k < 512, h'.bit (s / 512) k = (decide (k ≠ s % 512) && h.bit (s / 512) k)) (x : ℕ) :
    h'.allocated x = (decide (x ≠ s) && h.allocated x) := by
  unfold allocated
  by_cases hx : x / 512 = s / 512
  · have hxs : x ≠ s ↔ x % 512 ≠ s % 512 := by omega
    rw [hx, hself _ (Nat.mod_lt _ (by decide))]
    simp only [hxs]
  · have hxs : x ≠ s := fun h => hx (by rw [h])
    rw [hother _ hx, decide_eq_true hxs, Bool.true_and]

theorem allocated_insert {k₀ : ℕ} (hk₀ : k₀ < 512) (hother : ∀ c ≠ b, ∀ k, h'.bit c k = h.bit c k)
    (hself : ∀ k < 512, h'.bit b k = (decide (k = k₀) || h.bit b k)) (x : ℕ) :
    h'.allocated x = (decide (x = b * 512 + k₀) || h.allocated x) := by
  unfold allocated
  by_cases hx : x / 512 = b
  · have hxs : x = b * 512 + k₀ ↔ x % 512 = k₀ := by omega
    rw [hx, hself _ (Nat.mod_lt _ (by decide))]
    simp only [hxs]
  · have hxs : x ≠ b * 512 + k₀ := by omega
    rw [hother _ hx, decide_eq_false hxs, Bool.false_or]

end SectorsHeaderdata

theorem isBitmapClear_eq_false {m : Vector UInt8 64} :
    isBitmapClear m = false ↔ ∃ k < 512, bitCheck m k = true := by
  rw [← Bool.not_eq_true, isBitmapClear, all_zero_iff]
  simp

theorem isBitmapFull_eq_false {m : Vector UInt8 64} :
    isBitmapFull m = false ↔ ∃ k < 512, bitCheck m k = false := by
  rw [← Bool.not_eq_true, isBitmapFull, all_ones_iff]
  simp

open SectorsHeaderdata

theorem freeInFull_spec {h : SectorsHeaderdata} {b k : ℕ} (wf : h.WellFormed) (hk : k < 512)
    (hf : bitCheck h.bigSectorFullMap b = true) :
    (freeInFull h b k).WellFormed ∧ (∀ c ≠ b, ∀ j, (freeInFull h b k).bit c j = h.bit c j) ∧
      ∀ j < 512, (freeInFull h b k).bit b j = (decide (j ≠ k) && h.bit b j) := by
  have hu := wf.full_used _ hf
  have hb := lt_of_used hu
  have hbits : ∀ j < 512, bitCheck (bitClear (Vector.replicate 64 (0xff : UInt8)) k) j =
      decide (j ≠ k) := fun j hj => by
    rw [bitCheck_bitClear _ _ hk, bitCheck_replicate_ones hj, Bool.and_true]
  have hfull : ∀ c, bitCheck (freeInFull h b k).bigSectorFullMap c =
      (decide (c ≠ b) && bitCheck h.bigSectorFullMap c) := fun c =>
    bitCheck_bitClear _ c (by omega)
  have hused : (freeInFull h b k).bigSectorUsedMap = h.bigSectorUsedMap := rfl
  have hle : rank (partiallyUsed h) b ≤ h.activePartiallyUsedBitmaps := by
    rw [wf.active_rank]
    exact rank_mono _ hb.le
  have hslots : (freeInFull h b k).sectorBitmaps = insertAt h.sectorBitmaps
      (rank (partiallyUsed h) b) (some (bitClear (Vector.replicate 64 0xff) k)) := by
    simp only [freeInFull]
    rw [countPartiallyUsedBigSectors_eq, insertSectorBitmap_eq wf.empty _ hle]
  refine wf.insert ⟨fun _ _ => rfl, fun c hc => by simp [hfull, hc]⟩ (by simp [partiallyUsed, hf])
    (by simp [partiallyUsed, hused, hu, hfull]) hslots rfl ?_ ?_ ?_
  · rw [isBitmapClear_eq_false]
    refine ⟨(k + 1) % 512, Nat.mod_lt _ (by decide), ?_⟩
    rw [hbits _ (Nat.mod_lt _ (by decide))]
    exact decide_eq_true (by omega)
  · rw [isBitmapFull_eq_false]
    exact ⟨k, hk, by simp [hbits _ hk]⟩
  · intro j hj
    rw [hbits j hj, bit_of_full wf hf, Bool.and_true]

/-- Clearing a bit of a partially used big sector, which becomes unused with its last bit. -/
theorem freeInPartial_spec {h : SectorsHeaderdata} {b k : ℕ} {m : Vector UInt8 64}
    (wf : h.WellFormed) (hk : k < 512) (hp : partiallyUsed h b = true)
    (hm : h.sectorBitmaps (rank (partiallyUsed h) b) = some m) :
    (freeInPartial h b k m).WellFormed ∧
      (∀ c ≠ b, ∀ j, (freeInPartial h b k m).bit c j = h.bit c j) ∧
      ∀ j < 512, (freeInPartial h b k m).bit b j = (decide (j ≠ k) && h.bit b j) := by
  have hb := lt_of_partiallyUsed hp
  have hf : bitCheck h.bigSectorFullMap b = false := by
    simpa using (Bool.and_eq_true_iff.mp hp).2
  have hbit : ∀ j, h.bit b j = bitCheck m j := bit_of_partiallyUsed hp (by rw [bitmapOf_eq, hm])
  have hbits : ∀ j, bitCheck (bitClear m k) j = (decide (j ≠ k) && bitCheck m j) :=
    fun j => bitCheck_bitClear m j hk
  have hused : ∀ c, bitCheck (bitClear h.bigSectorUsedMap b) c =
      (decide (c ≠ b) && bitCheck h.bigSectorUsedMap c) := fun c => bitCheck_bitClear _ c (by omega)
  simp only [freeInPartial]
  split_ifs with hclear
  · -- the big sector's last allocated sector goes
    refine wf.remove ⟨fun c hc => by simp [hused, hc], fun _ _ => rfl⟩ hp
      (by simp [partiallyUsed, hused]) (fun hfull => absurd (hf.symm.trans hfull) (by decide)) rfl rfl
      fun j hj => ?_
    rw [hbit, ← hbits, (all_zero_iff _).mp hclear j hj]
    simp [SectorsHeaderdata.bit, hused]
  · refine wf.replace hp rfl rfl rfl rfl (by simpa using hclear) ?_ ?_
    · rw [isBitmapFull_eq_false]
      exact ⟨k, hk, by simp [hbits]⟩
    · intro j _
      rw [hbits, hbit]

theorem freeSector_inodeSectorMap {h h' : SectorsHeaderdata} {x : ℕ}
    (hf : freeSector h x = some h') : h'.inodeSectorMap = h.inodeSectorMap := by
  unfold freeSector at hf
  dsimp only at hf
  split_ifs at hf
  · rw [Option.some.inj hf]
  · rw [Option.some.inj hf]
  · rw [← Option.some.inj hf]
    rfl
  · obtain ⟨bitmap, -, rfl⟩ := Option.map_eq_some_iff.mp hf
    unfold freeInPartial
    dsimp only
    split_ifs <;> rfl

theorem allocateSector_inodeSectorMap {h h' : SectorsHeaderdata} {r : ℕ}
    (ha : allocateSector h = some (h', r)) : h'.inodeSectorMap = h.inodeSectorMap := by
  unfold allocateSector at ha
  split at ha
  · cases ha
  · rw [← (Prod.mk.inj (Option.some.inj ha)).1]
    rfl
  · obtain ⟨bitmap, -, hb⟩ := Option.map_eq_some_iff.mp ha
    split at hb
    · rw [(Prod.mk.inj hb).1]
    · rw [← (Prod.mk.inj hb).1]
      unfold takeInPartial
      dsimp only
      split_ifs <;> rfl

theorem freeSector_spec {h : SectorsHeaderdata} (wf : h.WellFormed) (s : ℕ) :
    ∃ h', freeSector h s = some h' ∧ h'.WellFormed ∧ h'.inodeSectorMap = h.inodeSectorMap ∧
      ∀ x, h'.allocated x = (decide (x ≠ s) && h.allocated x) := by
  have hk : s % 512 < 512 := Nat.mod_lt _ (by decide)
  unfold freeSector
  by_cases hu : bitCheck h.bigSectorUsedMap (s / 512) = true
  swap
  · refine ⟨h, by simp [hu], wf, rfl, fun x => ?_⟩
    by_cases hx : x = s
    · simp [hx, allocated, SectorsHeaderdata.bit, hu]
    · simp [hx]
  have hb := lt_of_used hu
  simp only [hu, Bool.not_true, Bool.false_eq_true, if_false]
  rw [if_neg (by omega)]
  by_cases hf : bitCheck h.bigSectorFullMap (s / 512) = true
  · obtain ⟨wf', hother, hself⟩ := freeInFull_spec wf hk hf
    exact ⟨_, if_pos hf, wf', rfl, allocated_erase hother hself⟩
  · have hp : partiallyUsed h (s / 512) = true := by simp [partiallyUsed, hu, hf]
    obtain ⟨m, hm, -⟩ := wf.exists_bitmap hp
    obtain ⟨wf', hother, hself⟩ := freeInPartial_spec wf hk hp hm
    refine ⟨_, ?_, wf', ?_, allocated_erase hother hself⟩
    · rw [if_neg hf, countPartiallyUsedBigSectors_eq, hm, Option.map_some]
    · simp only [freeInPartial]
      split_ifs <;> rfl

theorem freeSector_of_not_allocated {h : SectorsHeaderdata} (wf : h.WellFormed) {s : ℕ}
    (hs : h.allocated s = false) :
    ∃ n, freeSector h s = some { h with usedSectors := n } := by
  have hk : s % 512 < 512 := Nat.mod_lt _ (by decide)
  unfold freeSector
  by_cases hu : bitCheck h.bigSectorUsedMap (s / 512) = true
  swap
  · exact ⟨h.usedSectors, by simp [hu]⟩
  have hb := lt_of_used hu
  simp only [hu, Bool.not_true, Bool.false_eq_true, if_false]
  rw [if_neg (by omega)]
  have hf : bitCheck h.bigSectorFullMap (s / 512) = false := by
    by_contra hf
    rw [allocated, bit_of_full wf (by simpa using hf)] at hs
    cases hs
  have hp : partiallyUsed h (s / 512) = true := by simp [partiallyUsed, hu, hf]
  obtain ⟨m, hm, hm0, -⟩ := wf.exists_bitmap hp
  rw [allocated, bit_of_partiallyUsed hp (by rw [bitmapOf_eq, hm])] at hs
  refine ⟨dec32 h.usedSectors, ?_⟩
  rw [if_neg (by simp [hf]), countPartiallyUsedBigSectors_eq, hm, Option.map_some]
  simp only [freeInPartial, bitClear_of_not_bitCheck hk hs, hm0, Bool.false_eq_true, if_false]
  rw [countPartiallyUsedBigSectors_eq, ← hm, Function.update_eq_self]

private theorem forall_from {P : ℕ → Prop} {i n : ℕ} (hi : P i)
    (h : ∀ c, i + 1 ≤ c → c < n → P c) : ∀ c, i ≤ c → c < n → P c := by
  intro c hic hcn
  rcases Nat.eq_or_lt_of_le hic with rfl | hlt
  · exact hi
  · exact h c hlt hcn

theorem findBigSector_some {h : SectorsHeaderdata} {k i p : ℕ} {ff r : Option ℕ}
    (he : findBigSector h k i ff = (some p, r)) :
    partiallyUsed h p = true ∧ ∀ c, i ≤ c → c < p → partiallyUsed h c = false := by
  induction k generalizing i ff with
  | zero => simp [findBigSector] at he
  | succ k ih =>
    rw [findBigSector] at he
    by_cases hp : partiallyUsed h i = true
    · obtain ⟨rfl, -⟩ : i = p ∧ ff = r := by simpa [hp] using he
      exact ⟨hp, fun c h1 h2 => by omega⟩
    · rw [if_neg hp] at he
      obtain ⟨hpp, hbefore⟩ := ih he
      exact ⟨hpp, forall_from (by simpa using hp) hbefore⟩

theorem findBigSector_none {h : SectorsHeaderdata} {k i : ℕ} {ff r : Option ℕ}
    (he : findBigSector h k i ff = (none, r)) :
    (∀ c, i ≤ c → c < i + k → partiallyUsed h c = false) ∧
      (∀ f, ff = some f → r = some f) ∧
      (ff = none → (r = none ∧ ∀ c, i ≤ c → c < i + k → bitCheck h.bigSectorUsedMap c = true) ∨
        ∃ f, r = some f ∧ f < i + k ∧ bitCheck h.bigSectorUsedMap f = false ∧
          ∀ c, i ≤ c → c < f → bitCheck h.bigSectorUsedMap c = true) := by
  induction k generalizing i ff with
  | zero =>
    obtain rfl : ff = r := by simpa [findBigSector] using he
    exact ⟨fun c h1 h2 => by omega, fun f hf => hf, fun hf => .inl ⟨hf, fun c h1 h2 => by omega⟩⟩
  | succ k ih =>
    rw [findBigSector] at he
    by_cases hp : partiallyUsed h i = true
    · simp [hp] at he
    rw [if_neg hp] at he
    rw [Nat.add_comm k 1, ← Nat.add_assoc]
    obtain ⟨hnone, hkeep, hfirst⟩ := ih he
    refine ⟨forall_from (by simpa using hp) hnone, ?_, ?_⟩
    · intro f hf
      exact hkeep f (by simp [hf])
    · intro hff
      by_cases hu : bitCheck h.bigSectorUsedMap i = true
      · simp only [hu, Bool.not_true, Bool.false_and, Bool.false_eq_true, if_false] at hfirst
        rcases hfirst hff with ⟨hr, hall⟩ | ⟨f, hr, hf, hfu, hall⟩
        · exact .inl ⟨hr, forall_from hu hall⟩
        · exact .inr ⟨f, hr, hf, hfu, forall_from hu hall⟩
      · -- the first unused big sector
        simp only [Bool.not_eq_true] at hu
        exact .inr ⟨i, hkeep i (by simp [hu, hff]), by omega, hu, fun c h1 h2 => by omega⟩

theorem findClearBit_spec {n : ℕ} (m : Vector UInt8 n) (k i : ℕ) :
    (findClearBit m k i = none ∧ ∀ c, i ≤ c → c < i + k → bitCheck m c = true) ∨
      ∃ j, findClearBit m k i = some j ∧ j < i + k ∧ bitCheck m j = false ∧
        ∀ c, i ≤ c → c < j → bitCheck m c = true := by
  induction k generalizing i with
  | zero => exact .inl ⟨rfl, fun c h1 h2 => by omega⟩
  | succ k ih =>
    rw [findClearBit]
    by_cases hi : bitCheck m i = true
    · simp only [hi, Bool.not_true, Bool.false_eq_true, if_false]
      rw [Nat.add_comm k 1, ← Nat.add_assoc]
      rcases ih (i + 1) with ⟨hr, hall⟩ | ⟨j, hr, hj, hjc, hall⟩
      · exact .inl ⟨hr, forall_from hi hall⟩
      · exact .inr ⟨j, hr, hj, hjc, forall_from hi hall⟩
    · simp only [Bool.not_eq_true] at hi
      exact .inr ⟨i, by simp [hi], by omega, hi, fun c h1 h2 => by omega⟩

/-- Setting a clear bit of a partially used big sector, which becomes full with its last one. -/
theorem takeInPartial_spec {h : SectorsHeaderdata} {b k : ℕ} {m : Vector UInt8 64}
    (wf : h.WellFormed) (hk : k < 512) (hp : partiallyUsed h b = true)
    (hm : h.sectorBitmaps (rank (partiallyUsed h) b) = some m) :
    (takeInPartial h b m k).WellFormed ∧
      (∀ c ≠ b, ∀ j, (takeInPartial h b m k).bit c j = h.bit c j) ∧
      ∀ j < 512, (takeInPartial h b m k).bit b j = (decide (j = k) || h.bit b j) := by
  have hb := lt_of_partiallyUsed hp
  have hu := (Bool.and_eq_true_iff.mp hp).1
  have hbit : ∀ j, h.bit b j = bitCheck m j := bit_of_partiallyUsed hp (by rw [bitmapOf_eq, hm])
  have hbits : ∀ j, bitCheck (bitSet m k) j = (decide (j = k) || bitCheck m j) :=
    fun j => bitCheck_bitSet m j hk
  have hfull : ∀ c, bitCheck (bitSet h.bigSectorFullMap b) c =
      (decide (c = b) || bitCheck h.bigSectorFullMap c) := fun c => bitCheck_bitSet _ c (by omega)
  simp only [takeInPartial]
  split_ifs with hones
  · -- the big sector's last free sector goes
    refine wf.remove ⟨fun _ _ => rfl, fun c hc => by simp [hfull, hc]⟩ hp
      (by simp [partiallyUsed, hfull]) (fun _ => hu) rfl rfl fun j hj => ?_
    rw [hbit, ← hbits, (all_ones_iff _).mp hones j hj]
    simp [SectorsHeaderdata.bit, hfull, hu]
  · refine wf.replace hp rfl rfl rfl rfl ?_ (by simpa using hones) ?_
    · rw [isBitmapClear_eq_false]
      exact ⟨k, hk, by simp [hbits]⟩
    · intro j _
      rw [hbits, hbit]

/-- Opening an unused big sector when no big sector is partially used. -/
theorem openBigSector_spec {h : SectorsHeaderdata} {b : ℕ} (wf : h.WellFormed) (hb : b < 1024)
    (hu : bitCheck h.bigSectorUsedMap b = false)
    (hnone : ∀ c < 1024, partiallyUsed h c = false) :
    (openBigSector h b).WellFormed ∧ (∀ c ≠ b, ∀ j, (openBigSector h b).bit c j = h.bit c j) ∧
      ∀ j < 512, (openBigSector h b).bit b j = (decide (j = 0) || h.bit b j) := by
  have hf : bitCheck h.bigSectorFullMap b = false := by
    by_contra hf
    rw [wf.full_used b (by simpa using hf)] at hu
    cases hu
  have hrank : ∀ n ≤ 1024, rank (partiallyUsed h) n = 0 := fun n hn => by
    refine Nat.eq_zero_of_not_pos fun hpos => ?_
    obtain ⟨i, hi, hp, -⟩ := exists_of_lt_rank hpos
    rw [hnone i (by omega)] at hp
    cases hp
  have hactive : h.activePartiallyUsedBitmaps = 0 := by rw [wf.active_rank, hrank _ le_rfl]
  have hused : ∀ c, bitCheck (openBigSector h b).bigSectorUsedMap c =
      (decide (c = b) || bitCheck h.bigSectorUsedMap c) := fun c => bitCheck_bitSet _ c (by omega)
  have hfull : (openBigSector h b).bigSectorFullMap = h.bigSectorFullMap := rfl
  have hslots : (openBigSector h b).sectorBitmaps = insertAt h.sectorBitmaps
      (rank (partiallyUsed h) b) (some (bitSet (Vector.replicate 64 0) 0)) := by
    rw [hrank b hb.le]
    funext i
    simp only [openBigSector, insertAt]
    by_cases hi : i = 0
    · simp [hi]
    · rw [if_neg (by omega), if_neg hi, wf.empty (i - 1) (by omega), Function.update_of_ne hi,
        wf.empty i (by omega)]
  have hbits : ∀ j, bitCheck (bitSet (Vector.replicate 64 (0 : UInt8)) 0) j = decide (j = 0) :=
    fun j => by rw [bitCheck_bitSet _ j (by decide), bitCheck_replicate_zero, Bool.or_false]
  refine wf.insert ⟨fun c hc => by simp [hused, hc], fun _ _ => rfl⟩ (hnone b hb)
    (by simp [partiallyUsed, hused, hfull, hf]) hslots rfl ?_ ?_ ?_
  · rw [isBitmapClear_eq_false]
    exact ⟨0, by decide, by simp [hbits]⟩
  · rw [isBitmapFull_eq_false]
    exact ⟨1, by decide, by simp [hbits]⟩
  · intro j _
    rw [hbits]
    simp [SectorsHeaderdata.bit, hu]

/-- What `allocate_sector` can do: panic on a full disk, or hand out a free sector. Free sectors
below the one handed out lie in unused big sectors, and then its own big sector is in use. -/
theorem allocateSector_cases {h : SectorsHeaderdata} (wf : h.WellFormed) :
    (allocateSector h = none ∧ ∀ s < 524288, h.allocated s = true) ∨
      ∃ h' r, allocateSector h = some (h', r) ∧ r < 524288 ∧ h.allocated r = false ∧
        h'.WellFormed ∧ h'.inodeSectorMap = h.inodeSectorMap ∧
        (∀ x, h'.allocated x = (decide (x = r) || h.allocated x)) ∧
        ∀ s < r, h.allocated s = false → (∀ k, h.bit (s / 512) k = false) ∧
          ∃ k < 512, h.bit (r / 512) k = true := by
  have hfullOf : ∀ c < 1024, partiallyUsed h c = false → bitCheck h.bigSectorUsedMap c = true →
      ∀ k, h.bit c k = true := fun c _ hp hu k => by
    simp only [partiallyUsed, hu, Bool.true_and, Bool.not_eq_false'] at hp
    exact bit_of_full wf hp k
  unfold allocateSector
  rcases hfind : findBigSector h 1024 0 none with ⟨_ | b, r⟩
  · obtain ⟨hnone, -, hfirst⟩ := findBigSector_none hfind
    rcases hfirst rfl with ⟨rfl, hall⟩ | ⟨f, rfl, hf, hfu, hall⟩
    · refine .inl ⟨rfl, fun s hs => ?_⟩
      exact hfullOf _ (by omega) (hnone _ (by omega) (by omega)) (hall _ (by omega) (by omega)) _
    · obtain ⟨wf', hother, hself⟩ := openBigSector_spec wf (by omega) hfu
        fun c hc => hnone c (by omega) (by omega)
      refine .inr ⟨openBigSector h f, f * 512, rfl, by omega, ?_, wf', rfl, fun x => ?_, ?_⟩
      · simp [allocated, SectorsHeaderdata.bit, hfu]
      · have hins := allocated_insert (show 0 < 512 by decide) hother hself x
        rwa [Nat.add_zero] at hins
      · intro s hs hsfree
        rw [allocated, hfullOf _ (by omega) (hnone _ (by omega) (by omega))
          (hall _ (by omega) (by omega))] at hsfree
        cases hsfree
  · obtain ⟨hp, hbefore⟩ := findBigSector_some hfind
    have hb := lt_of_partiallyUsed hp
    obtain ⟨m, hm, hm0, hm1⟩ := wf.exists_bitmap hp
    have hbit : ∀ j, h.bit b j = bitCheck m j := bit_of_partiallyUsed hp (by rw [bitmapOf_eq, hm])
    obtain ⟨j₀, hj₀, hj₀c⟩ := isBitmapFull_eq_false.mp hm1
    rcases findClearBit_spec m 512 0 with ⟨-, hall⟩ | ⟨k, hk, hk512, hkc, hall⟩
    · rw [hall j₀ (by omega) (by omega)] at hj₀c
      cases hj₀c
    obtain ⟨wf', hother, hself⟩ := takeInPartial_spec (k := k) wf (by omega) hp hm
    refine .inr ⟨takeInPartial h b m k, b * 512 + k, ?_, by omega, ?_, wf', ?_,
      allocated_insert (by omega) hother hself, ?_⟩
    · simp only
      rw [countPartiallyUsedBigSectors_eq, hm, Option.map_some, hk]
    · rw [allocated, show (b * 512 + k) / 512 = b by omega, show (b * 512 + k) % 512 = k by omega,
        hbit, hkc]
    · simp only [takeInPartial]
      split_ifs <;> rfl
    · intro s hs hsfree
      rw [show (b * 512 + k) / 512 = b by omega]
      obtain ⟨j₁, hj₁, hj₁s⟩ := isBitmapClear_eq_false.mp hm0
      refine ⟨fun j => ?_, j₁, hj₁, by rw [hbit, hj₁s]⟩
      by_cases hsb : s / 512 = b
      · rw [allocated, hsb, hbit, hall _ (by omega) (by omega)] at hsfree
        cases hsfree
      · cases hu : bitCheck h.bigSectorUsedMap (s / 512) with
        | false => simp [SectorsHeaderdata.bit, hu]
        | true =>
          rw [allocated, hfullOf _ (by omega) (hbefore _ (by omega) (by omega)) hu] at hsfree
          cases hsfree

theorem SectorsHeaderdata.empty_wellFormed : SectorsHeaderdata.empty.WellFormed := by
  have hp : ∀ i, partiallyUsed .empty i = false := by simp [partiallyUsed, SectorsHeaderdata.empty]
  refine ⟨by simp [SectorsHeaderdata.empty], ?_, fun i hi => ?_, fun i _ => rfl⟩
  · rw [countPartiallyUsedBigSectors_eq]
    refine (Nat.eq_zero_of_not_pos fun hpos => ?_).symm
    obtain ⟨i, -, hi, -⟩ := exists_of_lt_rank hpos
    rw [hp i] at hi
    cases hi
  · exact absurd hi (Nat.not_lt_zero i)

def SectorsHeaderdata.sectors (h : SectorsHeaderdata) : Set ℕ := {s | h.allocated s = true}

theorem SectorsHeaderdata.empty_sectors : SectorsHeaderdata.empty.sectors = ∅ := by
  ext s
  simp [sectors, allocated, SectorsHeaderdata.bit, SectorsHeaderdata.empty]

inductive AllocCall where
  | allocate
  | free (sector : ℕ)

def AllocCall.step (h : SectorsHeaderdata) : AllocCall → Option SectorsHeaderdata
  | .allocate => (allocateSector h).map Prod.fst
  | .free sector => freeSector h sector

theorem AllocCall.step_wellFormed {h h' : SectorsHeaderdata} {c : AllocCall} (wf : h.WellFormed)
    (hc : AllocCall.step h c = some h') : h'.WellFormed := by
  cases c with
  | allocate =>
    rcases allocateSector_cases wf with ⟨hn, -⟩ | ⟨h'', r, hr, -, -, wf', -⟩
    · simp [AllocCall.step, hn] at hc
    · obtain rfl : h'' = h' := by simpa [AllocCall.step, hr] using hc
      exact wf'
  | free s =>
    obtain ⟨h'', hs, wf', -⟩ := freeSector_spec wf s
    obtain rfl : h'' = h' := Option.some.inj (hs.symm.trans hc)
    exact wf'

theorem AllocCall.run_wellFormed {h : SectorsHeaderdata} {cs : List AllocCall}
    (hrun : run AllocCall.step .empty cs = some h) : h.WellFormed :=
  run_invariant (P := fun _ _ => True) (fun _ _ _ _ hc wf => AllocCall.step_wellFormed wf hc)
    (along_true _ _) hrun SectorsHeaderdata.empty_wellFormed

theorem SectorsHeaderdata.lt_of_mem_sectors {h : SectorsHeaderdata} {s : ℕ} (hs : s ∈ h.sectors) :
    s < 524288 := by
  have hu := (Bool.and_eq_true_iff.mp (show h.bit (s / 512) (s % 512) = true from hs)).1
  have hb := lt_of_used hu
  omega

end BrickOS.Filesystem
