import BrickOS.Filesystem.Operations
import BrickOS.Lib.Ring

/-! The sector maps on disk: how they are written at shutdown and read back at the next start. -/
namespace BrickOS.Filesystem
open BrickOS.Lib

def bitmapSectorStart : ℕ := 101

def sectorOf (buf : ℕ → UInt8) (sec : ℕ) : Sector := fun i => buf (sec * 512 + i)

def writeSectorsLoop (c : Cached ℕ ℕ Sector) (buf : ℕ → UInt8) (lba : ℕ) : ℕ → Cached ℕ ℕ Sector
  | 0 => c
  | sec + 1 => (writeSectorsLoop c buf lba sec).put lba28 (lba + sec) (sectorOf buf sec)

def writeSectors (c : Cached ℕ ℕ Sector) (nSectors : ℕ) (buf : ℕ → UInt8) (lba : ℕ) :
    Cached ℕ ℕ Sector := writeSectorsLoop c buf lba (nSectors % 2 ^ 8)

def headerSector (h : SectorsHeaderdata) : Sector :=
  ((Block.zero.blit 0 h.bigSectorUsedMap.toList).blit 128 h.bigSectorFullMap.toList).blit 256
    h.inodeSectorMap.toList

/-- The loop that copies the bitmaps to a buffer, which holds `memory` before; `none` for a null
pointer. -/
def copyBitmaps (h : SectorsHeaderdata) (memory : ℕ → UInt8) : ℕ → Option (ℕ → UInt8)
  | 0 => some memory
  | i + 1 => do
    let bitmaps ← copyBitmaps h memory i
    let bitmap ← h.sectorBitmaps i
    return copyInto bitmaps (i * 64) bitmap.toList

/-- `write_bitmaps_to_disk`. The last sector is filled up with what lies behind the buffer. -/
def writeBitmapsToDisk (s : Storage) (memory : ℕ → UInt8) : Option Storage :=
  let n := s.header.activePartiallyUsedBitmaps
  let c := s.sectors.put lba28 bitmapSectorStart (headerSector s.header)
  (copyBitmaps s.header memory n).map fun bitmaps =>
    { s with sectors := writeSectors c ((n + 7) / 8) bitmaps (bitmapSectorStart + 1) }

/-- `memcpy` of `n` bytes of a sector to an array. -/
def bytesAt (b : Sector) (off n : ℕ) : Vector UInt8 n := Vector.ofFn fun i => b.byte (off + i)

def readSectorBitmaps : ℕ → Storage → Storage
  | 0, s => s
  | i + 1, s =>
    let s := (readSectorBitmaps i s).efficientReadSector (bitmapSectorStart + 1 + i / 8)
    { s with header := { s.header with
        sectorBitmaps := Function.update s.header.sectorBitmaps i
          (some (bytesAt s.buffer (i % 8 * 64) 64)) } }

def readMaps (h : SectorsHeaderdata) (b : Sector) : SectorsHeaderdata :=
  { h with
    bigSectorUsedMap := bytesAt b 0 128
    bigSectorFullMap := bytesAt b 128 128
    inodeSectorMap := bytesAt b 256 100 }

/-- `read_bitmaps_from_disk`, `none` for its panic. -/
def readBitmapsFromDisk (s : Storage) : Option Storage :=
  let s := s.readSector bitmapSectorStart
  let h := readMaps s.header s.buffer
  let n := countPartiallyUsedBigSectors h 1024
  if n > 128 then none
  else some (readSectorBitmaps n { s with header := { h with activePartiallyUsedBitmaps := n } })

inductive MapCall where
  | allocateSector
  | freeSector (sector : ℕ)
  | allocateInodeSection
  | freeInodeSection (id : ℕ)

def MapCall.step (h : SectorsHeaderdata) : MapCall → Option SectorsHeaderdata
  | .allocateSector => (Filesystem.allocateSector h).map Prod.fst
  | .freeSector sector => Filesystem.freeSector h sector
  | .allocateInodeSection => (Filesystem.allocateInodeSection h).map Prod.fst
  | .freeInodeSection id => some (Filesystem.freeInodeSection h id)

def formattedMaps : Option SectorsHeaderdata :=
  run MapCall.step .empty (List.replicate 118 .allocateSector)

/-- The maps are written to sectors 101 to 117 and nowhere else, and come back into fresh header
data, whatever the cache holds then. -/
def Persisted (h : SectorsHeaderdata) (disk : Cached ℕ ℕ Sector) (memory : ℕ → UInt8) : Prop :=
  ∃ s, writeBitmapsToDisk ⟨h, disk⟩ memory = some s ∧
    (∀ sector, sector < 101 ∨ 117 < sector → s.sectors.store sector = disk.store sector) ∧
    ∀ c : Cached ℕ ℕ Sector, c.store = s.sectors.store →
      ∃ s', readBitmapsFromDisk ⟨.empty, c⟩ = some s' ∧ s'.header = { h with usedSectors := 0 }

section Bytes

theorem byte_sectorOf (buf : ℕ → UInt8) (sec : ℕ) {i : ℕ} (hi : i < 512) :
    (sectorOf buf sec).byte i = buf (sec * 512 + i) := by
  simp [Block.byte, sectorOf, hi]

theorem bytesAt_eq {n : ℕ} {b : Sector} {off : ℕ} {m : Vector UInt8 n}
    (h : ∀ i (hi : i < n), b.byte (off + i) = m[i]) : bytesAt b off n = m := by
  apply Vector.ext
  intro i hi
  rw [bytesAt, Vector.getElem_ofFn]
  exact h i hi

theorem store_writeSectorsLoop (c : Cached ℕ ℕ Sector) (buf : ℕ → UInt8) (lba n : ℕ)
    (hn : lba + n ≤ 2 ^ 28) (x : ℕ) : (writeSectorsLoop c buf lba n).store x =
      if lba ≤ x ∧ x < lba + n then sectorOf buf (x - lba) else c.store x := by
  induction n with
  | zero => rw [writeSectorsLoop, if_neg (by omega)]
  | succ n ih =>
    have haddr : lba28 (lba + n) = lba + n := Nat.mod_eq_of_lt (by omega)
    rw [writeSectorsLoop, Cached.put, haddr]
    dsimp only
    by_cases hx : x = lba + n
    · rw [hx, Function.update_self, if_pos (by omega), Nat.add_sub_cancel_left]
    · rw [Function.update_of_ne hx, ih (by omega)]
      by_cases hin : lba ≤ x ∧ x < lba + n
      · rw [if_pos hin, if_pos (by omega)]
      · rw [if_neg hin, if_neg (by omega)]

theorem bytesAt_headerSector (h : SectorsHeaderdata) :
    bytesAt (headerSector h) 0 128 = h.bigSectorUsedMap ∧
      bytesAt (headerSector h) 128 128 = h.bigSectorFullMap ∧
      bytesAt (headerSector h) 256 100 = h.inodeSectorMap := by
  have hused : h.bigSectorUsedMap.toList.length = 128 := Vector.length_toList
  have hfull : h.bigSectorFullMap.toList.length = 128 := Vector.length_toList
  have hinode : h.inodeSectorMap.toList.length = 100 := Vector.length_toList
  refine ⟨bytesAt_eq fun i hi => ?_, bytesAt_eq fun i hi => ?_, bytesAt_eq fun i hi => ?_⟩
  · rw [headerSector, Block.byte_blit_of_lt (by omega), Block.byte_blit_of_lt (by omega),
      Block.byte_blit_inside (by omega) (by omega)]
    simp [hi]
  · rw [headerSector, Block.byte_blit_of_lt (by omega),
      Block.byte_blit_inside (by omega) (by omega)]
    simp [hi]
  · rw [headerSector, Block.byte_blit_inside (by omega) (by omega)]
    simp [hi]

end Bytes

section Maps

variable {h : SectorsHeaderdata}

theorem exists_copyBitmaps (wf : h.WellFormed) (memory : ℕ → UInt8) {n : ℕ}
    (hn : n ≤ h.activePartiallyUsedBitmaps) : ∃ buf, copyBitmaps h memory n = some buf ∧
      ∀ i < n, ∀ m, h.sectorBitmaps i = some m → ∀ j (hj : j < 64), buf (i * 64 + j) = m[j] := by
  induction n with
  | zero => exact ⟨memory, rfl, fun i hi => absurd hi (Nat.not_lt_zero i)⟩
  | succ n ih =>
    obtain ⟨buf, hbuf, hbytes⟩ := ih (by omega)
    obtain ⟨bitmap, hbitmap, -⟩ := wf.bitmap n (by omega)
    have hlen : bitmap.toList.length = 64 := Vector.length_toList
    refine ⟨copyInto buf (n * 64) bitmap.toList, ?_, fun i hi m hm j hj => ?_⟩
    · rw [copyBitmaps, hbuf, hbitmap]
      rfl
    · by_cases hin : i = n
      · obtain rfl : bitmap = m := by
          rw [hin, hbitmap] at hm
          exact Option.some.inj hm
        rw [hin, copyInto_inside buf (n * 64) bitmap.toList j (by omega)]
        simp
      · rw [copyInto_outside _ _ _ _ (by omega)]
        exact hbytes i (by omega) m hm j hj

/-- What `write_bitmaps_to_disk` leaves on the disk. -/
theorem exists_writeBitmapsToDisk (wf : h.WellFormed) (disk : Cached ℕ ℕ Sector)
    (memory : ℕ → UInt8) : ∃ s buf, writeBitmapsToDisk ⟨h, disk⟩ memory = some s ∧
      (∀ i < h.activePartiallyUsedBitmaps, ∀ m, h.sectorBitmaps i = some m →
        ∀ j (hj : j < 64), buf (i * 64 + j) = m[j]) ∧
      ∀ x, s.sectors.store x = if x = 101 then headerSector h
        else if 102 ≤ x ∧ x < 102 + (h.activePartiallyUsedBitmaps + 7) / 8 then
          sectorOf buf (x - 102)
        else disk.store x := by
  obtain ⟨buf, hbuf, hbytes⟩ := exists_copyBitmaps wf memory le_rfl
  have hactive := wf.active_le
  have hcount : (h.activePartiallyUsedBitmaps + 7) / 8 % 2 ^ 8 =
      (h.activePartiallyUsedBitmaps + 7) / 8 := Nat.mod_eq_of_lt (by omega)
  have hwrite : writeBitmapsToDisk ⟨h, disk⟩ memory =
      some ⟨h, writeSectors (disk.put lba28 bitmapSectorStart (headerSector h))
        ((h.activePartiallyUsedBitmaps + 7) / 8) buf 102⟩ := by
    simp only [writeBitmapsToDisk, hbuf, Option.map_some, bitmapSectorStart]
  refine ⟨_, buf, hwrite, hbytes, fun x => ?_⟩
  rw [writeSectors, hcount, store_writeSectorsLoop _ _ _ _ (by omega)]
  change (if 102 ≤ x ∧ x < 102 + _ then sectorOf buf (x - 102)
    else Function.update disk.store 101 (headerSector h) x) = _
  by_cases hx : x = 101
  · rw [hx, if_neg (by omega), if_pos rfl, Function.update_self]
  · rw [Function.update_of_ne hx, if_neg hx]

/-- The loop reads the bitmaps from where they were written. -/
theorem readSectorBitmaps_spec {s : Storage} (hc : s.sectors.Coherent lba28)
    {buf : ℕ → UInt8} {active : ℕ} (hactive : active ≤ 128)
    (hbytes : ∀ i < active, ∀ m, h.sectorBitmaps i = some m →
      ∀ j (hj : j < 64), buf (i * 64 + j) = m[j])
    (hbitmap : ∀ i < active, (h.sectorBitmaps i).isSome)
    (hstore : ∀ sec < (active + 7) / 8, s.sectors.store (102 + sec) = sectorOf buf sec)
    (hfresh : s.header.sectorBitmaps = fun _ => none) {n : ℕ} (hn : n ≤ active) :
    (readSectorBitmaps n s).sectors.Coherent lba28 ∧
      (readSectorBitmaps n s).sectors.store = s.sectors.store ∧
      (readSectorBitmaps n s).header = { s.header with
        sectorBitmaps := fun i => if i < n then h.sectorBitmaps i else none } := by
  induction n with
  | zero =>
    refine ⟨hc, rfl, ?_⟩
    simp only [readSectorBitmaps, Nat.not_lt_zero, if_false]
    rw [← hfresh]
  | succ n ih =>
    obtain ⟨hcoherent, hsame, hheader⟩ := ih (by omega)
    obtain ⟨m, hm⟩ := Option.isSome_iff_exists.mp (hbitmap n (by omega))
    have haddr : lba28 (102 + n / 8) = 102 + n / 8 := Nat.mod_eq_of_lt (by omega)
    have hbuffer : ((readSectorBitmaps n s).efficientReadSector (102 + n / 8)).buffer =
        sectorOf buf (n / 8) := by
      refine (hcoherent.fetch_buffer (102 + n / 8)).trans ?_
      rw [hsame, haddr]
      exact hstore (n / 8) (by omega)
    have hread : bytesAt ((readSectorBitmaps n s).efficientReadSector (102 + n / 8)).buffer
        (n % 8 * 64) 64 = m := by
      refine bytesAt_eq fun j hj => ?_
      have hpos : n / 8 * 512 + (n % 8 * 64 + j) = n * 64 + j := by omega
      rw [hbuffer, byte_sectorOf _ _ (by omega), hpos]
      exact hbytes n (by omega) m hm j hj
    refine ⟨hcoherent.fetch _, ?_, ?_⟩
    · exact (Cached.fetch_store _).trans hsame
    · change { (readSectorBitmaps n s).header with
        sectorBitmaps := Function.update (readSectorBitmaps n s).header.sectorBitmaps n
          (some (bytesAt ((readSectorBitmaps n s).efficientReadSector (102 + n / 8)).buffer
            (n % 8 * 64) 64)) } = _
      rw [hread, hheader]
      dsimp only
      congr 1
      funext i
      rw [Function.update_apply]
      by_cases hi : i = n
      · rw [if_pos hi, hi, if_pos (by omega), hm]
      · rw [if_neg hi]
        by_cases hlt : i < n
        · rw [if_pos hlt, if_pos (by omega)]
        · rw [if_neg hlt, if_neg (by omega)]

theorem active_readSectorBitmaps (n : ℕ) (s : Storage) :
    (readSectorBitmaps n s).header.activePartiallyUsedBitmaps =
      s.header.activePartiallyUsedBitmaps := by
  induction n with
  | zero => rfl
  | succ n ih => exact ih

theorem readMaps_headerSector (wf : h.WellFormed) :
    { readMaps .empty (headerSector h) with
      activePartiallyUsedBitmaps := h.activePartiallyUsedBitmaps
      sectorBitmaps := h.sectorBitmaps } = { h with usedSectors := 0 } ∧
    countPartiallyUsedBigSectors (readMaps .empty (headerSector h)) 1024 =
      h.activePartiallyUsedBitmaps := by
  obtain ⟨hused, hfull, hinode⟩ := bytesAt_headerSector h
  constructor
  · simp only [readMaps, hused, hfull, hinode]
    rfl
  · have hpartial : partiallyUsed (readMaps .empty (headerSector h)) = partiallyUsed h := by
      funext i
      simp only [partiallyUsed, readMaps, hused, hfull]
    rw [wf.active_rank, countPartiallyUsedBigSectors_eq, hpartial]

/-- The maps are read back from the disk that they were written to. -/
theorem exists_readBitmapsFromDisk (wf : h.WellFormed)
    (hactive : h.activePartiallyUsedBitmaps ≤ 128) {c : Cached ℕ ℕ Sector} {buf : ℕ → UInt8}
    (hbytes : ∀ i < h.activePartiallyUsedBitmaps, ∀ m, h.sectorBitmaps i = some m →
      ∀ j (hj : j < 64), buf (i * 64 + j) = m[j])
    (hheader : c.store 101 = headerSector h)
    (hstore : ∀ sec < (h.activePartiallyUsedBitmaps + 7) / 8,
      c.store (102 + sec) = sectorOf buf sec) :
    ∃ s, readBitmapsFromDisk ⟨.empty, c⟩ = some s ∧ s.header = { h with usedSectors := 0 } := by
  obtain ⟨hmaps, hcount⟩ := readMaps_headerSector wf
  have hbuffer : (Storage.readSector ⟨.empty, c⟩ bitmapSectorStart).buffer = headerSector h :=
    hheader
  have hread : readBitmapsFromDisk ⟨.empty, c⟩ =
      some (readSectorBitmaps h.activePartiallyUsedBitmaps
        ⟨{ readMaps .empty (headerSector h) with
            activePartiallyUsedBitmaps := h.activePartiallyUsedBitmaps },
          c.load lba28 bitmapSectorStart⟩) := by
    simp only [readBitmapsFromDisk, hbuffer]
    have hsame : (Storage.readSector ⟨.empty, c⟩ bitmapSectorStart).header = .empty := rfl
    rw [hsame, hcount, if_neg (by omega)]
    rfl
  refine ⟨_, hread, ?_⟩
  obtain ⟨-, -, hspec⟩ := readSectorBitmaps_spec (h := h)
    (s := ⟨{ readMaps .empty (headerSector h) with
      activePartiallyUsedBitmaps := h.activePartiallyUsedBitmaps },
      c.load lba28 bitmapSectorStart⟩)
    (Cached.load_coherent c _) hactive hbytes
    (fun i hi => by
      obtain ⟨m, hm, -⟩ := wf.bitmap i hi
      rw [hm]
      rfl)
    hstore rfl le_rfl
  have hbitmaps : (fun i => if i < h.activePartiallyUsedBitmaps then h.sectorBitmaps i else none) =
      h.sectorBitmaps := by
    funext i
    split_ifs with hi
    · rfl
    · exact (wf.empty i (not_lt.mp hi)).symm
  rw [hspec, ← hmaps, hbitmaps]

theorem persisted_iff (wf : h.WellFormed) (disk : Cached ℕ ℕ Sector) (memory : ℕ → UInt8) :
    Persisted h disk memory ↔ h.activePartiallyUsedBitmaps ≤ 128 := by
  constructor
  · rintro ⟨s, -, -, hread⟩
    obtain ⟨s', hs', hheader⟩ := hread s.sectors rfl
    simp only [readBitmapsFromDisk] at hs'
    split_ifs at hs' with hroom
    have hactive := congrArg SectorsHeaderdata.activePartiallyUsedBitmaps hheader
    rw [← Option.some.inj hs', active_readSectorBitmaps] at hactive
    dsimp only at hactive
    omega
  · intro hactive
    obtain ⟨s, buf, hwrite, hbytes, hstore⟩ := exists_writeBitmapsToDisk wf disk memory
    refine ⟨s, hwrite, fun x hx => ?_, fun c hc => ?_⟩
    · rw [hstore, if_neg (by omega), if_neg (by omega)]
    · refine exists_readBitmapsFromDisk wf hactive hbytes ?_ fun sec hsec => ?_
      · rw [hc, hstore, if_pos rfl]
      · rw [hc, hstore, if_neg (by omega), if_pos (by omega), Nat.add_sub_cancel_left]

theorem SectorsHeaderdata.WellFormed.withInodes (wf : h.WellFormed) (map : Vector UInt8 100) :
    { h with inodeSectorMap := map }.WellFormed where
  full_used := wf.full_used
  active_eq := by
    rw [countPartiallyUsedBigSectors_eq]
    exact wf.active_rank
  bitmap := wf.bitmap
  empty := wf.empty

theorem MapCall.step_wellFormed {h' : SectorsHeaderdata} {c : MapCall} (wf : h.WellFormed)
    (hc : MapCall.step h c = some h') : h'.WellFormed := by
  cases c with
  | allocateSector => exact AllocCall.step_wellFormed (c := .allocate) wf hc
  | freeSector sector => exact AllocCall.step_wellFormed (c := .free sector) wf hc
  | allocateInodeSection =>
    obtain ⟨r, hr, rfl⟩ := Option.map_eq_some_iff.mp hc
    rw [(allocateInodeSection_spec hr).2.2]
    exact wf.withInodes _
  | freeInodeSection id =>
    obtain rfl := Option.some.inj hc
    unfold Filesystem.freeInodeSection
    split_ifs
    · exact wf
    · exact wf
    · exact wf.withInodes _

theorem wellFormed_of_run {cs : List MapCall} (wf : h.WellFormed) {h' : SectorsHeaderdata}
    (hrun : run MapCall.step h cs = some h') : h'.WellFormed :=
  run_invariant (P := fun _ _ => True) (fun _ _ _ _ hc wf => MapCall.step_wellFormed wf hc)
    (along_true _ _) hrun wf

theorem SectorsHeaderdata.WellFormed.partiallyUsed_iff (wf : h.WellFormed) (b : ℕ) : partiallyUsed h b = true ↔
    (∃ k < 512, h.bit b k = true) ∧ ∃ k < 512, h.bit b k = false := by
  constructor
  · intro hb
    obtain ⟨m, hm, hclear, hfull⟩ := wf.exists_bitmap hb
    have hbit := bit_of_partiallyUsed hb (by rw [bitmapOf_eq, hm])
    obtain ⟨j, hj, hset⟩ := isBitmapClear_eq_false.mp hclear
    obtain ⟨k, hk, hnot⟩ := isBitmapFull_eq_false.mp hfull
    exact ⟨⟨j, hj, by rw [hbit, hset]⟩, k, hk, by rw [hbit, hnot]⟩
  · rintro ⟨⟨j, -, hj⟩, k, -, hk⟩
    have hused := (Bool.and_eq_true_iff.mp hj).1
    have hfull : bitCheck h.bigSectorFullMap b = false := by
      by_contra hfull
      rw [bit_of_full wf (by simpa using hfull)] at hk
      cases hk
    rw [partiallyUsed, hused, hfull]
    rfl

theorem SectorsHeaderdata.WellFormed.active_le_of_allocated (wf : h.WellFormed) {n : ℕ}
    (hn : ∀ s, h.allocated s = true → s < n * 512) : h.activePartiallyUsedBitmaps ≤ n := by
  by_contra hlt
  rw [wf.active_rank, not_le] at hlt
  obtain ⟨b, -, hused, hb⟩ := exists_of_lt_rank hlt
  obtain ⟨⟨k, hk, hset⟩, -⟩ := (wf.partiallyUsed_iff b).mp hused
  have hsector := hn (b * 512 + k) (by
    rw [SectorsHeaderdata.allocated, show (b * 512 + k) / 512 = b by omega,
      show (b * 512 + k) % 512 = k by omega]
    exact hset)
  have hle : rank (partiallyUsed h) b ≤ b := Nat.count_le _
  omega

theorem exists_fill {n : ℕ} (hn : n ≤ 524288) : ∃ h,
    run MapCall.step .empty (List.replicate n .allocateSector) = some h ∧ h.WellFormed ∧
      (∀ s, h.allocated s = decide (s < n)) ∧
      h.inodeSectorMap = SectorsHeaderdata.empty.inodeSectorMap := by
  induction n with
  | zero =>
    refine ⟨.empty, rfl, SectorsHeaderdata.empty_wellFormed, fun s => ?_, rfl⟩
    simp [SectorsHeaderdata.allocated, SectorsHeaderdata.bit, SectorsHeaderdata.empty]
  | succ n ih =>
    obtain ⟨h, hrun, wf, halloc, hmap⟩ := ih (by omega)
    have hbit : ∀ b k, k < 512 → h.bit b k = decide (b * 512 + k < n) := by
      intro b k hk
      rw [← halloc, SectorsHeaderdata.allocated, show (b * 512 + k) / 512 = b by omega,
        show (b * 512 + k) % 512 = k by omega]
    rcases allocateSector_cases wf with ⟨-, hall⟩ |
      ⟨h', r, hr, -, hfree, wf', hkeep, hinsert, hbelow⟩
    · have hin := hall n (by omega)
      rw [halloc] at hin
      simp at hin
    · have hrn : r = n := by
        rw [halloc, decide_eq_false_iff_not] at hfree
        by_contra hne
        obtain ⟨hempty, k, hk, hset⟩ := hbelow n (by omega) (by rw [halloc]; simp)
        have hstart := hempty 0
        rw [hbit _ _ (by omega), decide_eq_false_iff_not] at hstart
        rw [hbit _ _ hk, decide_eq_true_eq] at hset
        omega
      refine ⟨h', ?_, wf', fun s => ?_, hkeep.trans hmap⟩
      · rw [List.replicate_succ', run_concat, hrun, Option.bind_some, MapCall.step, hr]
        rfl
      · rw [hinsert, halloc, hrn, ← Bool.decide_or, decide_eq_decide]
        omega

theorem exists_freeLast {n : ℕ} (wf : h.WellFormed) (k : ℕ)
    (halloc : ∀ s, h.allocated s = decide (s < n)) : ∃ h',
      run MapCall.step h ((List.range k).map fun b => .freeSector (b * 512 + 511)) = some h' ∧
      h'.WellFormed ∧ ∀ s, h'.allocated s = decide (s < n ∧ ¬ (s % 512 = 511 ∧ s / 512 < k)) := by
  induction k with
  | zero => exact ⟨h, rfl, wf, fun s => by rw [halloc]; simp⟩
  | succ k ih =>
    obtain ⟨h', hrun, wf', halloc'⟩ := ih
    obtain ⟨h'', hfree, wf'', -, herase⟩ := freeSector_spec wf' (k * 512 + 511)
    refine ⟨h'', ?_, wf'', fun s => ?_⟩
    · rw [List.range_succ, List.map_append, List.map_singleton, run_concat, hrun, Option.bind_some]
      exact hfree
    · rw [herase, halloc', ← Bool.decide_and, decide_eq_decide]
      omega

end Maps

/-- After every run from a formatted disk, the maps come back from the disk if and only if at most
128 big sectors are partially used. -/
theorem bitmaps_persisted_iff (cs : List MapCall) (h₀ h : SectorsHeaderdata)
    (hformat : formattedMaps = some h₀) (hrun : run MapCall.step h₀ cs = some h)
    (disk : Cached ℕ ℕ Sector) (memory : ℕ → UInt8) :
    Persisted h disk memory ↔ h.activePartiallyUsedBitmaps ≤ 128 :=
  persisted_iff (wellFormed_of_run
    (wellFormed_of_run SectorsHeaderdata.empty_wellFormed hformat) hrun) disk memory

/-- A formatted disk, and a sector freed. -/
theorem bitmaps_persisted_iff_one_call :
    ∃ h₀ h, formattedMaps = some h₀ ∧ run MapCall.step h₀ [.freeSector 117] = some h ∧
      Persisted h ⟨fun _ => Block.zero, Block.zero, 0⟩ fun _ => 0 := by
  obtain ⟨h₀, hformat, wf₀, halloc, -⟩ := exists_fill (n := 118) (by decide)
  obtain ⟨h, hfree, wf, -, herase⟩ := freeSector_spec wf₀ 117
  have hrun : run MapCall.step h₀ [.freeSector 117] = some h := by
    rw [run_cons, MapCall.step, hfree]
    rfl
  refine ⟨h₀, h, hformat, hrun, (bitmaps_persisted_iff _ h₀ h hformat hrun _ _).mpr ?_⟩
  apply wf.active_le_of_allocated
  intro s hs
  rw [herase, halloc, Bool.and_eq_true_iff, decide_eq_true_eq, decide_eq_true_eq] at hs
  omega

def scatter (k : ℕ) : List MapCall :=
  List.replicate (k * 512 - 118) .allocateSector ++
    (List.range k).map fun b => .freeSector (b * 512 + 511)

theorem exists_run_scatter {k : ℕ} (hpos : 0 < k) (hk : k ≤ 1024) : ∃ h₀ h,
    formattedMaps = some h₀ ∧ run MapCall.step h₀ (scatter k) = some h ∧ h.WellFormed ∧
      ∀ b, partiallyUsed h b = decide (b < k) := by
  obtain ⟨h₁, hfill, wf₁, halloc₁, -⟩ := exists_fill (n := k * 512) (by omega)
  have hsum : List.replicate (k * 512) MapCall.allocateSector =
      List.replicate 118 .allocateSector ++ List.replicate (k * 512 - 118) .allocateSector := by
    rw [List.replicate_append_replicate, Nat.add_sub_cancel' (by omega)]
  rw [hsum, run_append] at hfill
  obtain ⟨h₀, hformat, hfill⟩ := Option.bind_eq_some_iff.mp hfill
  obtain ⟨h, hfree, wf, halloc⟩ := exists_freeLast wf₁ k halloc₁
  refine ⟨h₀, h, hformat, ?_, wf, fun b => ?_⟩
  · rw [scatter, run_append, hfill]
    exact hfree
  · have hbit : ∀ i < 512, h.bit b i = decide (b * 512 + i < k * 512 ∧ ¬ (i = 511 ∧ b < k)) := by
      intro i hi
      have hdiv : (b * 512 + i) / 512 = b := by omega
      have hmod : (b * 512 + i) % 512 = i := by omega
      have hsector := halloc (b * 512 + i)
      rwa [SectorsHeaderdata.allocated, hdiv, hmod] at hsector
    rw [Bool.eq_iff_iff, wf.partiallyUsed_iff, decide_eq_true_eq]
    constructor
    · rintro ⟨⟨i, hi, hset⟩, -⟩
      rw [hbit i hi, decide_eq_true_eq] at hset
      omega
    · intro hb
      refine ⟨⟨0, by decide, ?_⟩, 511, by decide, ?_⟩
      · rw [hbit 0 (by decide), decide_eq_true_eq]
        omega
      · rw [hbit 511 (by decide), decide_eq_false_iff_not]
        omega

/-- With 129 partially used big sectors there are more bitmaps than 16 sectors hold: sector 118 is
overwritten, and reading panics. -/
theorem bitmaps_not_persisted :
    ∃ h₀ h s, formattedMaps = some h₀ ∧ run MapCall.step h₀ (scatter 129) = some h ∧
      writeBitmapsToDisk ⟨h, ⟨fun _ => Block.zero, Block.zero, 0⟩⟩ (fun _ => 0) = some s ∧
      s.sectors.store 118 ≠ Block.zero ∧ readBitmapsFromDisk ⟨.empty, s.sectors⟩ = none := by
  obtain ⟨h₀, h, hformat, hrun, wf, hpartial⟩ := exists_run_scatter (k := 129)
    (by decide) (by decide)
  obtain ⟨s, buf, hwrite, hbytes, hstore⟩ := exists_writeBitmapsToDisk wf
    ⟨fun _ => Block.zero, Block.zero, 0⟩ fun _ => 0
  have hmarks : partiallyUsed h = fun b => decide (b < 129) := funext hpartial
  have hactive : h.activePartiallyUsedBitmaps = 129 := by
    rw [wf.active_rank, hmarks, rank_decide_lt (by decide)]
  refine ⟨h₀, h, s, hformat, hrun, hwrite, ?_, ?_⟩
  · -- the bitmap of big sector 128 is the first in sector 118
    obtain ⟨m, hm, hclear, -⟩ := wf.bitmap 128 (by rw [hactive]; decide)
    have hsector : s.sectors.store 118 = sectorOf buf 16 := by
      rw [hstore, hactive]
      rfl
    intro hzero
    have hzeros : m.all (fun b => b == 0x00) = true := by
      rw [Vector.all_eq_true]
      intro j hj
      have hbyte := hbytes 128 (by rw [hactive]; decide) m hm j hj
      have hdisk := congrArg (fun b => Block.byte b j) (hsector.symm.trans hzero)
      rw [byte_sectorOf _ _ (by omega), Block.byte_zero] at hdisk
      rw [← hbyte]
      exact beq_iff_eq.mpr hdisk
    rw [isBitmapClear, hzeros] at hclear
    cases hclear
  · obtain ⟨-, hcount⟩ := readMaps_headerSector wf
    have hbuffer : (Storage.readSector ⟨.empty, s.sectors⟩ bitmapSectorStart).buffer =
        headerSector h := (hstore 101).trans (if_pos rfl)
    have hsame : (Storage.readSector ⟨.empty, s.sectors⟩ bitmapSectorStart).header = .empty := rfl
    simp only [readBitmapsFromDisk, hbuffer, hsame, hcount, hactive, gt_iff_lt]
    rw [if_pos (by decide)]

end BrickOS.Filesystem
