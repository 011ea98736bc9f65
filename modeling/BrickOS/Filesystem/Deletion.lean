import BrickOS.Filesystem.DirectoryReading
import BrickOS.Filesystem.Operations
import Mathlib.Data.Set.Basic

/-! What `delete_file_by_inode` gives back. -/
namespace BrickOS.Filesystem
open BrickOS.Lib

structure Storage.Frees (s : Storage) (sectors : Set ℕ) (s' : Storage) : Prop where
  disk : s'.disk = s.disk
  coherent : s'.Coherent
  wf : s'.header.WellFormed
  inodeMap : s'.inodeMap = s.inodeMap
  allocated : ∀ x, s'.header.allocated x = true ↔ s.header.allocated x = true ∧ x ∉ sectors

def Inode.OneBlock (disk : ℕ → Sector) (n : Inode) : Prop :=
  ∀ i j, i < j → n.ptr disk (.block i) ≠ 0 →
    n.ptr disk (.block j) = 0 ∧ n.ptr disk (.double i j) = 0

def Inode.DirectFirst (n : Inode) : Prop :=
  ∀ i j : Fin 11, i < j → n.dataSectors i = 0 → n.dataSectors j = 0

def Inode.ShrinkClear (disk : ℕ → Sector) (dir : Inode) (id : ℕ) : Prop :=
  ∀ bytes n start dataLen stop, dir.dirBytes disk = some bytes → bufferWord bytes 0 = some n →
    scanEntries bytes id n 4 none = some (some (start, dataLen), stop) →
    (stop - firstSectorHeader dir) % 512 ≤ dataLen → dir.ptr disk (dataPlace (stop / 512)) ≠ 0

structure Fs.DeleteClear (fs : Fs) (dir file : Inode) : Prop where
  oneBlock : file.OneBlock fs.storage.disk
  directFirst : file.DirectFirst
  shrink : dir.ShrinkClear fs.storage.disk file.id
  id : file.id ≠ 0

/-- The sectors of the file and at most one of the directory are no longer allocated, and the id of
the file is free. -/
def Fs.FreesExactly (fs fs' : Fs) (dir file : Inode) : Prop :=
  (∃ given : Option ℕ,
    (∀ x ∈ given, x ≠ 0 ∧ ∃ i, dir.ptr fs.storage.disk (dataPlace i) = x) ∧
    ∀ x, fs'.storage.header.allocated x = true ↔
      fs.storage.header.allocated x = true ∧ ¬ file.Owns fs.storage.disk x ∧ x ∉ given) ∧
  ∀ i, bitCheck fs'.storage.inodeMap i = true ↔
    bitCheck fs.storage.inodeMap i = true ∧ i ≠ file.id

theorem word_of_le (b : Sector) {j : ℕ} (hj : 128 ≤ j) : b.word j = 0 := by
  have hbyte : ∀ i, 512 ≤ i → b.byte i = 0 := fun i hi => dif_neg (by omega)
  rw [Block.word, Block.wordAt, hbyte _ (by omega), hbyte _ (by omega), hbyte _ (by omega),
    hbyte _ (by omega)]
  rfl

theorem mem_words {b : Sector} {x : ℕ} (hx : x ≠ 0) :
    x ∈ (List.range 128).map b.word ↔ ∃ j, b.word j = x := by
  rw [List.mem_map]
  constructor
  · rintro ⟨j, -, hj⟩
    exact ⟨j, hj⟩
  · rintro ⟨j, hj⟩
    refine ⟨j, List.mem_range.mpr (Nat.not_le.mp fun hle => hx ?_), hj⟩
    rw [← hj, word_of_le b hle]

section frees
variable {s s₁ s₂ : Storage} {X Y : Set ℕ}

theorem Storage.Frees.refl (hc : s.Coherent) (wf : s.header.WellFormed) : s.Frees ∅ s :=
  ⟨rfl, hc, wf, rfl, fun x => by simp⟩

theorem Storage.Frees.trans (h₁ : s.Frees X s₁) (h₂ : s₁.Frees Y s₂) : s.Frees (X ∪ Y) s₂ where
  disk := h₂.disk.trans h₁.disk
  coherent := h₂.coherent
  wf := h₂.wf
  inodeMap := h₂.inodeMap.trans h₁.inodeMap
  allocated x := by
    rw [h₂.allocated, h₁.allocated, Set.mem_union, not_or, and_assoc]

theorem Storage.Frees.congr (h : s.Frees X s₁) (heq : ∀ x, x ∈ X ↔ x ∈ Y) : s.Frees Y s₁ :=
  Set.ext heq ▸ h

theorem Storage.Frees.read (hc : s.Coherent) (wf : s.header.WellFormed) (sector : ℕ) :
    s.Frees ∅ (s.efficientReadSector sector) :=
  ⟨disk_efficientReadSector _ _, hc.efficientReadSector _, wf, rfl, fun x => by simp⟩

theorem Storage.Frees.withHeader {header : SectorsHeaderdata} (hc : s.Coherent)
    (wf : header.WellFormed) (hmap : header.inodeSectorMap = s.header.inodeSectorMap)
    (hx : ∀ x, header.allocated x = true ↔ s.header.allocated x = true ∧ x ∉ X) :
    s.Frees X { s with header } :=
  ⟨rfl, hc, wf, hmap, hx⟩

theorem freeSector_allocated {h : SectorsHeaderdata} (wf : h.WellFormed) (sector : ℕ) :
    ∃ h', freeSector h sector = some h' ∧ h'.WellFormed ∧ h'.inodeSectorMap = h.inodeSectorMap ∧
      ∀ x, h'.allocated x = true ↔ h.allocated x = true ∧ x ≠ sector := by
  obtain ⟨h', heq, wf', hmap, hx⟩ := freeSector_spec wf sector
  refine ⟨h', heq, wf', hmap, fun x => ?_⟩
  rw [hx, Bool.and_eq_true, decide_eq_true_eq, and_comm]

theorem freeSectors_allocated {h : SectorsHeaderdata} (l : List ℕ) (wf : h.WellFormed) :
    ∃ h', freeSectors l h = some h' ∧ h'.WellFormed ∧ h'.inodeSectorMap = h.inodeSectorMap ∧
      ∀ x, h'.allocated x = true ↔ h.allocated x = true ∧ ¬ (x ≠ 0 ∧ x ∈ l) := by
  induction l generalizing h with
  | nil => exact ⟨h, rfl, wf, rfl, fun x => by simp⟩
  | cons y l ih =>
    rw [freeSectors]
    by_cases hy : y ≠ 0
    · obtain ⟨h₁, heq₁, wf₁, hmap₁, hx₁⟩ := freeSector_allocated wf y
      obtain ⟨h₂, heq₂, wf₂, hmap₂, hx₂⟩ := ih wf₁
      rw [if_pos hy, heq₁, Option.bind_some]
      refine ⟨h₂, heq₂, wf₂, hmap₂.trans hmap₁, fun x => ?_⟩
      rw [hx₂, hx₁, List.mem_cons]
      by_cases hxy : x = y
      · simp [hxy, hy]
      · simp [hxy]
    · obtain ⟨h₂, heq₂, wf₂, hmap₂, hx₂⟩ := ih wf
      rw [if_neg hy]
      refine ⟨h₂, heq₂, wf₂, hmap₂, fun x => ?_⟩
      rw [hx₂, List.mem_cons, not_not.mp hy]
      by_cases hx : x = 0
      · simp [hx]
      · simp [hx]

theorem freeIndirectSector_frees (sector : ℕ) (hc : s.Coherent) (wf : s.header.WellFormed) :
    ∃ s', freeIndirectSector s sector = some s' ∧ s'.buffer = s.disk (lba28 sector) ∧
      s.Frees {x | x = sector ∨ x ≠ 0 ∧ ∃ j, (s.disk (lba28 sector)).word j = x} s' := by
  obtain ⟨h₁, heq₁, wf₁, hmap₁, hx₁⟩ := freeSectors_allocated
    ((List.range 128).map (s.efficientReadSector sector).buffer.word)
    (h := (s.efficientReadSector sector).header) wf
  obtain ⟨h₂, heq₂, wf₂, hmap₂, hx₂⟩ := freeSector_allocated wf₁ sector
  refine ⟨{ s.efficientReadSector sector with header := h₂ }, ?_,
    buffer_efficientReadSector hc sector, disk_efficientReadSector _ _, hc.efficientReadSector _,
    wf₂, hmap₂.trans hmap₁, fun x => ?_⟩
  · rw [freeIndirectSector]
    dsimp only
    rw [heq₁, Option.bind_eq_bind, Option.bind_some, heq₂]
    rfl
  · rw [hx₂, hx₁, buffer_efficientReadSector hc, header_efficientReadSector]
    rw [and_congr_right fun hx => mem_words hx, Set.mem_ofPred_eq, not_or, and_assoc,
      and_comm (a := ¬ (x ≠ 0 ∧ _))]

theorem freeDoubleIndirect_of_zero (k i : ℕ)
    (h : ∀ j, i ≤ j → j < i + k → s.buffer.word j = 0) : freeDoubleIndirect k i s = some s := by
  induction k generalizing i with
  | zero => rfl
  | succ k ih =>
    rw [freeDoubleIndirect, if_neg (not_not.mpr (h i le_rfl (by omega)))]
    exact ih (i + 1) fun j hj hlt => h j (by omega) (by omega)

/-- The loop over the double indirect sector, which meets at most one block. -/
theorem freeDoubleIndirect_frees (k i : ℕ) (hik : i + k = 128) (hc : s.Coherent)
    (wf : s.header.WellFormed) (hbefore : ∀ j < i, s.buffer.word j = 0)
    (hone : ∀ j l, j < l → s.buffer.word j ≠ 0 →
      s.buffer.word l = 0 ∧ (s.disk (lba28 (s.buffer.word j))).word l = 0) :
    ∃ s', freeDoubleIndirect k i s = some s' ∧
      s.Frees {x | x ≠ 0 ∧ ∃ j, s.buffer.word j = x ∨
        s.buffer.word j ≠ 0 ∧ ∃ l, (s.disk (lba28 (s.buffer.word j))).word l = x} s' := by
  induction k generalizing i with
  | zero =>
    refine ⟨s, rfl, (Storage.Frees.refl hc wf).congr fun x => ?_⟩
    simp only [Set.mem_empty_iff_false, Set.mem_ofPred_eq, false_iff]
    have hall : ∀ j, s.buffer.word j = 0 := fun j => by
      by_cases hj : j < 128
      · exact hbefore j (by omega)
      · exact word_of_le _ (Nat.not_lt.mp hj)
    rintro ⟨hx, j, hword | ⟨hne, -⟩⟩
    · exact hx (hword.symm.trans (hall j))
    · exact hne (hall j)
  | succ k ih =>
    rw [freeDoubleIndirect]
    by_cases hword : s.buffer.word i ≠ 0
    · obtain ⟨s₁, hfree, hbuffer, hfrees⟩ := freeIndirectSector_frees (s.buffer.word i) hc wf
      have hrest : freeDoubleIndirect k (i + 1) s₁ = some s₁ := by
        refine freeDoubleIndirect_of_zero k (i + 1) fun j hj _ => ?_
        rw [hbuffer]
        exact (hone i j (by omega) hword).2
      rw [if_pos hword, hfree, Option.bind_some, hrest]
      refine ⟨s₁, rfl, hfrees.congr fun x => ?_⟩
      simp only [Set.mem_ofPred_eq]
      constructor
      · rintro (rfl | ⟨hx, hentry⟩)
        · exact ⟨hword, i, .inl rfl⟩
        · exact ⟨hx, i, .inr ⟨hword, hentry⟩⟩
      · rintro ⟨hx, j, hcase⟩
        have hj0 : s.buffer.word j ≠ 0 := by
          rcases hcase with hcase | hcase
          · exact hcase ▸ hx
          · exact hcase.1
        -- `i` is the only entry
        obtain rfl : j = i := by
          rcases Nat.lt_trichotomy j i with hlt | heq | hgt
          · exact absurd (hbefore j hlt) hj0
          · exact heq
          · exact absurd (hone i j hgt hword).1 hj0
        exact hcase.imp Eq.symm fun hentry => ⟨hx, hentry.2⟩
    · rw [if_neg hword]
      refine ih (i + 1) (by omega) fun j hj => ?_
      rcases Nat.lt_succ_iff_lt_or_eq.mp hj with hlt | rfl
      · exact hbefore j hlt
      · exact not_not.mp hword

end frees

section file
variable {s : Storage} {n : Inode}

theorem freeDoubleIndirectSector_frees (hc : s.Coherent) (wf : s.header.WellFormed)
    (hone : n.OneBlock s.disk) :
    ∃ s', freeDoubleIndirectSector s n = some s' ∧
      s.Frees {x | x ≠ 0 ∧ (n.ptr s.disk .dIndirect = x ∨ (∃ j, n.ptr s.disk (.block j) = x) ∨
        ∃ j l, n.ptr s.disk (.double j l) = x)} s' := by
  unfold freeDoubleIndirectSector
  by_cases hd : n.dIndirectSector ≠ 0
  · have hread := Storage.Frees.read hc wf n.dIndirectSector
    have hbuffer := buffer_efficientReadSector hc n.dIndirectSector
    obtain ⟨s₁, hloop, hfrees₁⟩ := freeDoubleIndirect_frees 128 0 rfl hread.coherent hread.wf
      (fun j hj => absurd hj (Nat.not_lt_zero j)) (by
        intro j l hjl hne
        rw [hbuffer] at hne ⊢
        have hclear := hone j l hjl
        simp only [Inode.ptr, blockEntry_of_ne hd] at hclear
        rw [disk_efficientReadSector]
        obtain ⟨hblock, hentry⟩ := hclear hne
        exact ⟨hblock, (blockEntry_of_ne hne l).symm.trans hentry⟩)
    obtain ⟨h₂, hfree, wf₂, hmap₂, hx₂⟩ := freeSector_allocated hfrees₁.wf n.dIndirectSector
    have hfrees₂ : s₁.Frees {n.dIndirectSector} { s₁ with header := h₂ } :=
      .withHeader hfrees₁.coherent wf₂ hmap₂ hx₂
    rw [if_pos hd, hloop, Option.bind_eq_bind, Option.bind_some, hfree]
    refine ⟨_, rfl, ((hread.trans hfrees₁).trans hfrees₂).congr fun x => ?_⟩
    simp only [hbuffer, disk_efficientReadSector, Set.empty_union, Set.mem_union,
      Set.mem_ofPred_eq, Set.mem_singleton_iff, Inode.ptr, blockEntry_of_ne hd]
    constructor
    · rintro (⟨hx, j, hblock | ⟨hne, l, hentry⟩⟩ | rfl)
      · exact ⟨hx, .inr (.inl ⟨j, hblock⟩)⟩
      · exact ⟨hx, .inr (.inr ⟨j, l, (blockEntry_of_ne hne l).trans hentry⟩)⟩
      · exact ⟨hd, .inl rfl⟩
    · rintro ⟨hx, rfl | ⟨j, hblock⟩ | ⟨j, l, hentry⟩⟩
      · exact .inr rfl
      · exact .inl ⟨hx, j, .inl hblock⟩
      · have hne : (s.disk (lba28 n.dIndirectSector)).word j ≠ 0 := by
          intro hzero
          rw [hzero, blockEntry_zero] at hentry
          exact hx hentry.symm
        exact .inl ⟨hx, j, .inr ⟨hne, l, (blockEntry_of_ne hne l).symm.trans hentry⟩⟩
  · rw [if_neg hd]
    refine ⟨s, rfl, (Storage.Frees.refl hc wf).congr fun x => ?_⟩
    simp only [Inode.ptr, not_not.mp hd, blockEntry_zero, Set.mem_empty_iff_false,
      Set.mem_ofPred_eq, false_iff]
    rintro ⟨hx, rfl | ⟨-, rfl⟩ | ⟨-, -, rfl⟩⟩ <;> exact hx rfl

theorem freeSingleIndirectSector_frees (hc : s.Coherent) (wf : s.header.WellFormed) :
    ∃ s', freeSingleIndirectSector s n = some s' ∧
      s.Frees {x | x ≠ 0 ∧ (n.ptr s.disk .indirect = x ∨ ∃ j, n.ptr s.disk (.single j) = x)} s' := by
  unfold freeSingleIndirectSector
  by_cases hne : n.indirectSector ≠ 0
  · obtain ⟨s', hfree, -, hfrees⟩ := freeIndirectSector_frees n.indirectSector hc wf
    rw [if_pos hne]
    refine ⟨s', hfree, hfrees.congr fun x => ?_⟩
    simp only [Inode.ptr, blockEntry_of_ne hne, Set.mem_ofPred_eq]
    constructor
    · rintro (rfl | ⟨hx, hword⟩)
      · exact ⟨hne, .inl rfl⟩
      · exact ⟨hx, .inr hword⟩
    · rintro ⟨hx, rfl | hword⟩
      · exact .inl rfl
      · exact .inr ⟨hx, hword⟩
  · rw [if_neg hne]
    refine ⟨s, rfl, (Storage.Frees.refl hc wf).congr fun x => ?_⟩
    simp only [Inode.ptr, not_not.mp hne, blockEntry_zero, Set.mem_empty_iff_false,
      Set.mem_ofPred_eq, false_iff]
    rintro ⟨hx, rfl | ⟨-, rfl⟩⟩ <;> exact hx rfl

theorem mem_takeWhile_ne_zero {l : List ℕ} {x : ℕ} (hx : x ≠ 0)
    (h : l.Pairwise fun a b => a = 0 → b = 0) : x ∈ l.takeWhile (· != 0) ↔ x ∈ l := by
  induction l with
  | nil => simp
  | cons a l ih =>
    obtain ⟨hhead, htail⟩ := List.pairwise_cons.mp h
    by_cases ha : a = 0
    · rw [List.takeWhile_cons_of_neg (by simp [ha])]
      refine iff_of_false List.not_mem_nil fun hmem => ?_
      rcases List.mem_cons.mp hmem with rfl | hmem
      · exact hx ha
      · exact hx (hhead x hmem ha)
    · rw [List.takeWhile_cons_of_pos (by simpa using ha), List.mem_cons, List.mem_cons, ih htail]

theorem freeFileSectors_frees (hc : s.Coherent) (wf : s.header.WellFormed)
    (hone : n.OneBlock s.disk) (hfirst : n.DirectFirst) :
    ∃ s', freeFileSectors s n = some s' ∧ s.Frees {x | n.Owns s.disk x} s' := by
  obtain ⟨s₁, heq₁, hfrees₁⟩ := freeDoubleIndirectSector_frees hc wf hone
  obtain ⟨s₂, heq₂, hfrees₂⟩ := freeSingleIndirectSector_frees (n := n) hfrees₁.coherent hfrees₁.wf
  obtain ⟨h₃, heq₃, wf₃, hmap₃, hx₃⟩ := freeSectors_allocated
    ((List.ofFn n.dataSectors).takeWhile (· != 0)) hfrees₂.wf
  have hfrees₃ : s₂.Frees {x | x ≠ 0 ∧ x ∈ (List.ofFn n.dataSectors).takeWhile (· != 0)}
      { s₂ with header := h₃ } := .withHeader hfrees₂.coherent wf₃ hmap₃ hx₃
  have hdirect : ∀ x, x ≠ 0 → (x ∈ (List.ofFn n.dataSectors).takeWhile (· != 0) ↔
      ∃ i, n.dataSectors i = x) := by
    intro x hx
    rw [mem_takeWhile_ne_zero hx (List.pairwise_ofFn.mpr hfirst), List.mem_ofFn]
  rw [freeFileSectors, heq₁, Option.bind_eq_bind, Option.bind_some, heq₂, Option.bind_eq_bind,
    Option.bind_some, heq₃]
  refine ⟨_, rfl, ((hfrees₁.trans hfrees₂).trans hfrees₃).congr fun x => ?_⟩
  rw [hfrees₁.disk]
  simp only [Set.mem_union, Set.mem_ofPred_eq, Inode.Owns]
  rw [and_congr_right (hdirect x), ← and_or_left, ← and_or_left]
  refine and_congr_right fun _ => ⟨?_, ?_⟩
  · rintro (((h | ⟨j, h⟩ | ⟨j, l, h⟩) | h | ⟨j, h⟩) | ⟨i, h⟩)
    · exact ⟨_, h⟩
    · exact ⟨_, h⟩
    · exact ⟨_, h⟩
    · exact ⟨_, h⟩
    · exact ⟨_, h⟩
    · exact ⟨.direct i, h⟩
  · rintro ⟨p, h⟩
    cases p with
    | direct i => exact .inr ⟨i, h⟩
    | indirect => exact .inl (.inr (.inl h))
    | single j => exact .inl (.inr (.inr ⟨j, h⟩))
    | dIndirect => exact .inl (.inl (.inl h))
    | block j => exact .inl (.inl (.inr (.inl ⟨j, h⟩)))
    | double j l => exact .inl (.inl (.inr (.inr ⟨j, l, h⟩)))

end file

theorem allocated_withInodeMap (h : SectorsHeaderdata) (m : Vector UInt8 100) (x : ℕ) :
    { h with inodeSectorMap := m }.allocated x = h.allocated x := by
  unfold SectorsHeaderdata.allocated SectorsHeaderdata.bit
  rw [SectorsHeaderdata.bitmapOf_eq, SectorsHeaderdata.bitmapOf_eq]
  rfl

section erase
variable {s s' : Storage} {dir dir' : Inode}

theorem lookup_withSize (disk : ℕ → Sector) (n : Inode) (size i : ℕ) :
    (n.withSize size).lookup disk i = n.lookup disk i := rfl

theorem freeDirSector_allocated {i : ℕ} (hc : s.Coherent) (wf : s.header.WellFormed)
    (h : freeDirSector s dir i = some (s', dir')) :
    i < maxFileSectors ∧ ∀ x, s'.header.allocated x = true ↔
      s.header.allocated x = true ∧ x ≠ dir.lookup s.disk i := by
  unfold freeDirSector at h
  by_cases h₁ : i ≥ maxFileSectors
  · rw [if_pos h₁] at h
    cases h
  refine ⟨Nat.not_le.mp h₁, ?_⟩
  unfold Inode.lookup
  rw [if_neg h₁] at h ⊢
  by_cases h₂ : i < 11
  · rw [if_neg (by omega), dif_pos h₂] at h
    rw [dif_pos h₂]
    obtain ⟨header, hfree, h⟩ := Option.bind_eq_some_iff.mp h
    obtain ⟨rfl, -⟩ := Prod.mk.inj (Option.some.inj h)
    obtain ⟨h', heq, -, -, hx⟩ := freeSector_allocated wf (dir.dataSectors ⟨i, h₂⟩)
    obtain rfl := Option.some.inj (heq.symm.trans hfree)
    exact hx
  rw [dif_neg h₂]
  by_cases h₃ : i < 128 + 11
  · rw [if_neg (by omega), dif_neg h₂] at h
    rw [if_pos h₃]
    obtain ⟨header, hfree, h⟩ := Option.bind_eq_some_iff.mp h
    obtain ⟨rfl, -⟩ := Prod.mk.inj (Option.some.inj h)
    rw [header_efficientReadSector, buffer_efficientReadSector hc] at hfree
    obtain ⟨h', heq, -, -, hx⟩ := freeSector_allocated wf
      ((s.disk (lba28 dir.indirectSector)).word (i - 11))
    obtain rfl := Option.some.inj (heq.symm.trans hfree)
    exact hx
  · rw [if_pos (by omega)] at h
    rw [if_neg h₃]
    obtain ⟨header, hfree, h⟩ := Option.bind_eq_some_iff.mp h
    obtain ⟨rfl, -⟩ := Prod.mk.inj (Option.some.inj h)
    rw [header_efficientReadSector, header_efficientReadSector,
      buffer_efficientReadSector (hc.efficientReadSector _), buffer_efficientReadSector hc,
      disk_efficientReadSector] at hfree
    obtain ⟨h', heq, -, -, hx⟩ := freeSector_allocated wf _
    obtain rfl := Option.some.inj (heq.symm.trans hfree)
    exact hx

theorem eraseDirectoryEntry_allocated {id : ℕ} (hc : s.Coherent) (wf : s.header.WellFormed)
    (hclear : dir.ShrinkClear s.disk id) (h : eraseDirectoryEntry s dir id = some (s', dir')) :
    ∃ given : Option ℕ, (∀ x ∈ given, x ≠ 0 ∧ ∃ i, dir.ptr s.disk (dataPlace i) = x) ∧
      ∀ x, s'.header.allocated x = true ↔ s.header.allocated x = true ∧ x ∉ given := by
  obtain ⟨⟨s₁, dir₁, w⟩, hprepare, h⟩ := Option.map_eq_some_iff.mp h
  obtain ⟨rfl, rfl⟩ := Prod.mk.inj h
  obtain ⟨s₂, hread, hdisk, hheader, hc₂⟩ := readDirEntriesToBuffer_eq dir hc
  rw [writeBack_header]
  -- nothing is freed unless the directory shrinks
  have hnone : s₁.header = s.header → ∃ given : Option ℕ,
      (∀ x ∈ given, x ≠ 0 ∧ ∃ i, dir.ptr s.disk (dataPlace i) = x) ∧
      ∀ x, s₁.header.allocated x = true ↔ s.header.allocated x = true ∧ x ∉ given := by
    intro heq
    exact ⟨none, by simp, fun x => by simp [heq]⟩
  obtain ⟨-, rfl, -, -⟩ | ⟨-, bytes, n, found, stop, hbytes, hn, hscan, hcase⟩ :=
    prepareErase_cases hprepare
  · exact hnone rfl
  rw [hread] at hbytes hcase
  obtain ⟨-, rfl, -, -⟩ | ⟨start, dataLen, rfl, hshrink, -⟩ := hcase
  · exact hnone hheader
  obtain ⟨hfree, dir₂, hsector, -⟩ | ⟨-, rfl, -⟩ := shrinkDir_cases hshrink
  · have hne := hclear bytes n start dataLen stop hbytes hn hscan hfree
    obtain ⟨hi, hx⟩ := freeDirSector_allocated hc₂ (hheader ▸ wf) hsector
    have hlookup : dir.lookup s.disk (stop / 512) = dir.ptr s.disk (dataPlace (stop / 512)) :=
      lookup_eq_ptr hi (ptr_tables hne)
    refine ⟨some (dir.ptr s.disk (dataPlace (stop / 512))), ?_, fun x => ?_⟩
    · intro x hx
      obtain rfl := Option.mem_some_iff.mp hx
      exact ⟨hne, _, rfl⟩
    · rw [hx, lookup_withSize, hdisk, hheader, hlookup, Option.mem_some_iff,
        ne_comm]
  · exact hnone hheader

end erase

/-- A deletion that succeeds gives back exactly the sectors of the file, at most one of the
directory, and the id of the file, when the way is clear. -/
theorem deleteFileByInode_freesExactly {fs fs' : Fs} {dir file : Inode}
    (hc : fs.storage.Coherent) (wf : fs.storage.header.WellFormed)
    (hclear : fs.DeleteClear dir file) (h : deleteFileByInode fs dir file = some (fs', true)) :
    fs.FreesExactly fs' dir file := by
  obtain ⟨-, -, -, hfalse⟩ | ⟨-, s₁, s₂, dir₂, hfree, herase, rfl, -⟩ := deleteFileByInode_cases h
  · cases hfalse
  obtain ⟨s₁', heq, hfrees⟩ := freeFileSectors_frees hc wf hclear.oneBlock hclear.directFirst
  obtain rfl := Option.some.inj (heq.symm.trans hfree)
  obtain ⟨given, hgiven, hallocated⟩ := eraseDirectoryEntry_allocated hfrees.coherent hfrees.wf
    (hfrees.disk.symm ▸ hclear.shrink) herase
  rw [hfrees.disk] at hgiven
  refine ⟨⟨given, hgiven, fun x => ?_⟩, fun i => ?_⟩
  · have hkeep : (freeInodeSection s₂.header file.id).allocated x = s₂.header.allocated x := by
      unfold freeInodeSection
      split_ifs
      · rfl
      · rfl
      · exact allocated_withInodeMap _ _ x
    show (freeInodeSection s₂.header file.id).allocated x = true ↔ _
    rw [hkeep, hallocated, hfrees.allocated, and_assoc]
    rfl
  · have hmap : s₂.inodeMap = fs.storage.inodeMap :=
      (eraseDirectoryEntry_frame herase).1.trans hfrees.inodeMap
    show bitCheck (freeInodeSection s₂.header file.id).inodeSectorMap i = true ↔ _
    rw [← hmap]
    unfold freeInodeSection
    split_ifs with hset hrange
    · -- the id is not in use
      rw [Bool.not_eq_true'] at hset
      refine ⟨fun hi => ⟨hi, ?_⟩, fun hi => hi.1⟩
      rintro rfl
      exact absurd (hset.symm.trans hi) Bool.false_ne_true
    · -- the map has no bit for it
      refine ⟨fun hi => ⟨hi, ?_⟩, fun hi => hi.1⟩
      rintro rfl
      rw [bitCheck_of_le _ (hrange.resolve_left hclear.id)] at hi
      cases hi
    · rw [bitCheck_bitClear _ _ (by omega), Bool.and_eq_true, decide_eq_true_eq, and_comm]
      rfl

def smallHeader : SectorsHeaderdata where
  bigSectorUsedMap := bitSet (Vector.replicate 128 0) 0
  bigSectorFullMap := Vector.replicate 128 0
  inodeSectorMap := Vector.ofFn fun i => if i.val = 0 then 0x1f else 0
  sectorBitmaps := fun i =>
    if i = 0 then some (Vector.ofFn fun j => if j.val < 15 then 0xff else 0) else none
  activePartiallyUsedBitmaps := 1
  usedSectors := 120

theorem smallHeader_partiallyUsed (i : ℕ) : partiallyUsed smallHeader i = decide (i = 0) := by
  rw [partiallyUsed, smallHeader, bitCheck_bitSet _ i (by decide)]
  simp

theorem smallHeader_count (n : ℕ) : countPartiallyUsedBigSectors smallHeader (n + 1) = 1 := by
  induction n with
  | zero => rw [countPartiallyUsedBigSectors, smallHeader_partiallyUsed]; rfl
  | succ n ih => rw [countPartiallyUsedBigSectors, ih, smallHeader_partiallyUsed]; rfl

theorem smallHeader_wellFormed : smallHeader.WellFormed where
  full_used b hb := by simp [smallHeader] at hb
  active_eq := (smallHeader_count 1023).symm
  bitmap i hi := by
    obtain rfl : i = 0 := Nat.lt_one_iff.mp hi
    exact ⟨_, rfl, by decide +kernel, by decide +kernel⟩
  empty i hi := if_neg (Nat.one_le_iff_ne_zero.mp hi)

def smallFs (root : Inode) (first second : Sector) (files : List (Inode × List UInt8)) : Fs where
  storage := ⟨smallHeader,
    ⟨Function.update (Function.update (fun _ => Block.zero) 118 first) 119 second, Block.zero, 0⟩⟩
  inodes := root :: files.map Prod.fst
  inodeNamePairs := files.map fun f => ⟨fsRootDirId, f.1.id, f.2⟩
  virtDirNames := fun _ => []

theorem smallFs_coherent (root : Inode) (first second : Sector)
    (files : List (Inode × List UInt8)) : (smallFs root first second files).storage.Coherent := by
  simp [Storage.Coherent, Cached.Coherent, smallFs, lba28]

def smallRoot : Inode :=
  ⟨fsRootDirId, 10, fsTypeDir, 0, 2, 0, 0, Function.update (fun _ => 0) firstSlot 118⟩

def smallFile : Inode := ⟨1, 5, 1, 7, 2, 0, 0, Function.update (fun _ => 0) firstSlot 119⟩

/-- The file `a` is deleted. -/
theorem deleteFileByInode_freesExactly_small :
    let fs := smallFs smallRoot ((Block.zero.setWord 0 1).blit 4 (entryBytes 1 [97]))
      (Block.zero.blit 0 [104, 101, 108, 108, 111]) [(smallFile, [97])]
    ∃ fs', deleteFileByInode fs smallRoot smallFile = some (fs', true) ∧
      fs.FreesExactly fs' smallRoot smallFile := by
  intro fs
  have hdelete : (deleteFileByInode fs smallRoot smallFile).map Prod.snd = some true := by
    decide +kernel
  have hscan : (smallRoot.dirBytes fs.storage.disk).bind (fun bytes =>
      (bufferWord bytes 0).bind fun n => scanEntries bytes 1 n 4 none) =
      some (some (4, 6), 10) := by
    decide +kernel
  obtain ⟨⟨fs', deleted⟩, hdelete, rfl⟩ := Option.map_eq_some_iff.mp hdelete
  refine ⟨fs', hdelete, deleteFileByInode_freesExactly (smallFs_coherent _ _ _ _)
    smallHeader_wellFormed ⟨?_, ?_, ?_, by decide⟩ hdelete⟩
  · intro i j _ hne
    exact absurd rfl hne
  · unfold Inode.DirectFirst
    decide
  · intro bytes n start dataLen stop hbytes hn hfound _
    rw [hbytes, Option.bind_some, hn, Option.bind_some] at hscan
    obtain ⟨-, rfl⟩ := Prod.mk.inj (Option.some.inj (hfound.symm.trans hscan))
    decide

def fullRoot : Inode := ⟨fsRootDirId, 1024, fsTypeDir, 0, 2, 0, 0,
  Function.update (Function.update (fun _ => 0) firstSlot 118) secondSlot 119⟩

def fourthFile : Inode := ⟨4, 0, 1, 7, 2, 0, 0, fun _ => 0⟩

/-- The entries of four files end with the second sector of the directory. Deleting the last of them
frees the sector behind it, which is sector 0. -/
theorem deleteFileByInode_frees_sector_zero :
    let fs := smallFs fullRoot
      (((Block.zero.setWord 0 4).blit 4 (entryBytes 1 (List.replicate 255 97))).blit 264
        (entryBytes 2 (List.replicate 243 98)))
      ((Block.zero.blit 0 (entryBytes 3 (List.replicate 255 99))).blit 260
        (entryBytes 4 (List.replicate 247 100)))
      [(fourthFile, List.replicate 247 100)]
    fs.storage.Coherent ∧ fs.storage.header.WellFormed ∧
      ∃ fs', deleteFileByInode fs fullRoot fourthFile = some (fs', true) ∧
        ¬ fs.FreesExactly fs' fullRoot fourthFile := by
  intro fs
  have hdelete : (deleteFileByInode fs fullRoot fourthFile).map (fun r =>
      (r.1.storage.header.allocated 0, r.2)) = some (false, true) := by
    decide +kernel
  have hzero : fs.storage.header.allocated 0 = true := by decide +kernel
  obtain ⟨⟨fs', deleted⟩, hdelete, hr⟩ := Option.map_eq_some_iff.mp hdelete
  obtain ⟨hfreed, rfl⟩ := Prod.mk.inj hr
  refine ⟨smallFs_coherent _ _ _ _, smallHeader_wellFormed, fs', hdelete, ?_⟩
  rintro ⟨⟨given, hgiven, hallocated⟩, -⟩
  have hkept := (hallocated 0).mpr ⟨hzero, fun howns => howns.1 rfl, fun hmem =>
    (hgiven 0 hmem).1 rfl⟩
  exact absurd (hfreed.symm.trans hkept) Bool.false_ne_true

end BrickOS.Filesystem
