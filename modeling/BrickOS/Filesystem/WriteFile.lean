import BrickOS.Filesystem.FileMap

/-! Writing a file. `get_sector_for_rw` adds the sectors and pointer blocks that are missing, one at
a time, and `fs_write` then changes the bytes of one sector after the other. -/
namespace BrickOS.Filesystem
open BrickOS.Lib

structure Storage.Ready (s : Storage) : Prop where
  coherent : s.Coherent
  wf : s.header.WellFormed
  zero : s.header.allocated 0 = true

structure Storage.Maps (s : Storage) (n : Inode) : Prop where
  allocated : ∀ p, n.ptr s.disk p ≠ 0 → s.header.allocated (n.ptr s.disk p) = true
  inj : ∀ p q, n.ptr s.disk p ≠ 0 → n.ptr s.disk p = n.ptr s.disk q → p = q

def Inode.contentAt (disk : ℕ → Sector) (n : Inode) (pos : ℕ) : UInt8 :=
  let sector := n.ptr disk (dataPlace (pos / 512))
  if sector = 0 then 0 else (disk (lba28 sector)).byte (pos % 512)

structure Grows (s : Storage) (n : Inode) (s' : Storage) (n' : Inode) : Prop where
  ready : s'.Ready
  maps : s'.Maps n'
  key : n'.key = n.key
  size : n'.size = n.size
  inodeMap : s'.inodeMap = s.inodeMap
  kept : ∀ p, n.ptr s.disk p ≠ 0 → n'.ptr s'.disk p = n.ptr s.disk p
  fresh : ∀ p, n.ptr s.disk p = 0 → n'.ptr s'.disk p ≠ 0 →
    s.header.allocated (n'.ptr s'.disk p) = false
  allocated : ∀ x, s'.header.allocated x = true ↔
    s.header.allocated x = true ∨ n'.Owns s'.disk x
  frame : ∀ x, s.header.allocated x = true → ¬ n.Owns s.disk x → s'.disk x = s.disk x

theorem dataPlace_isTable (i : ℕ) : (dataPlace i).isTable = false := by
  unfold dataPlace
  split_ifs <;> rfl

section grows
variable {s s₁ s₂ : Storage} {n n₁ n₂ : Inode}

theorem lt_of_allocated {h : SectorsHeaderdata} {x : ℕ} (hx : h.allocated x = true) :
    x < 524288 := by
  have hb := SectorsHeaderdata.lt_of_used (Bool.and_eq_true_iff.mp hx).1
  omega

theorem lba28_of_allocated {h : SectorsHeaderdata} {x : ℕ} (hx : h.allocated x = true) :
    lba28 x = x :=
  lba28_of_lt ((lt_of_allocated hx).trans (by decide))

theorem Storage.Maps.lba28 (hm : s.Maps n) {p : Place} (hp : n.ptr s.disk p ≠ 0) :
    lba28 (n.ptr s.disk p) = n.ptr s.disk p := lba28_of_allocated (hm.allocated p hp)

theorem Storage.Maps.owns_allocated (hm : s.Maps n) {x : ℕ} (hx : n.Owns s.disk x) :
    s.header.allocated x = true := by
  obtain ⟨hne, p, rfl⟩ := hx
  exact hm.allocated p hne

theorem Grows.refl (hr : s.Ready) (hm : s.Maps n) : Grows s n s n where
  ready := hr
  maps := hm
  key := rfl
  size := rfl
  inodeMap := rfl
  kept _ _ := rfl
  fresh _ h₀ hne := absurd h₀ hne
  allocated _ := ⟨.inl, fun h => h.elim id hm.owns_allocated⟩
  frame _ _ _ := rfl

theorem Grows.owns (h : Grows s n s₁ n₁) {x : ℕ} (hx : n.Owns s.disk x) : n₁.Owns s₁.disk x := by
  obtain ⟨hne, p, rfl⟩ := hx
  exact ⟨hne, p, h.kept p hne⟩

theorem Grows.not_owns (h : Grows s n s₁ n₁) {x : ℕ} (hx : s.header.allocated x = true)
    (hno : ¬ n.Owns s.disk x) : ¬ n₁.Owns s₁.disk x := by
  rintro ⟨hne, p, rfl⟩
  by_cases hp : n.ptr s.disk p = 0
  · exact absurd ((h.fresh p hp hne).symm.trans hx) Bool.false_ne_true
  · exact hno ⟨hne, p, (h.kept p hp).symm⟩

theorem Grows.trans (h₁ : Grows s n s₁ n₁) (h₂ : Grows s₁ n₁ s₂ n₂) : Grows s n s₂ n₂ where
  ready := h₂.ready
  maps := h₂.maps
  key := h₂.key.trans h₁.key
  size := h₂.size.trans h₁.size
  inodeMap := h₂.inodeMap.trans h₁.inodeMap
  kept p hp := by
    have hkept := h₁.kept p hp
    rw [h₂.kept p (hkept.symm ▸ hp), hkept]
  fresh p h₀ hne := by
    by_cases hp : n₁.ptr s₁.disk p = 0
    · have hfresh := h₂.fresh p hp hne
      by_contra hx
      rw [(h₁.allocated _).mpr (.inl (by simpa using hx))] at hfresh
      cases hfresh
    · rw [h₂.kept p hp]
      exact h₁.fresh p h₀ hp
  allocated x := by
    rw [h₂.allocated, h₁.allocated, or_assoc]
    exact or_congr_right ⟨fun h => h.elim h₂.owns id, .inr⟩
  frame x hx hno := by
    rw [h₂.frame x ((h₁.allocated x).mpr (.inl hx)) (h₁.not_owns hx hno), h₁.frame x hx hno]

end grows

structure Extends (s : Storage) (n : Inode) (s' : Storage) (n' : Inode) : Prop extends
    Grows s n s' n' where
  content : n'.contentAt s'.disk = n.contentAt s.disk

theorem Extends.refl {s : Storage} {n : Inode} (hr : s.Ready) (hm : s.Maps n) : Extends s n s n :=
  ⟨.refl hr hm, rfl⟩

theorem Extends.trans {s s₁ s₂ : Storage} {n n₁ n₂ : Inode} (h₁ : Extends s n s₁ n₁)
    (h₂ : Extends s₁ n₁ s₂ n₂) : Extends s n s₂ n₂ :=
  ⟨h₁.toGrows.trans h₂.toGrows, h₂.content.trans h₁.content⟩

theorem Extends.of_disk_eq {s s' : Storage} {n : Inode} (hr' : s'.Ready) (hm : s.Maps n)
    (hdisk : s'.disk = s.disk) (hheader : s'.header = s.header) : Extends s n s' n where
  ready := hr'
  maps := ⟨by rw [hdisk, hheader]; exact hm.allocated, by rw [hdisk]; exact hm.inj⟩
  key := rfl
  size := rfl
  inodeMap := congrArg SectorsHeaderdata.inodeSectorMap hheader
  kept _ _ := by rw [hdisk]
  fresh p h₀ hne := absurd h₀ (hdisk ▸ hne)
  allocated _ := by
    rw [hdisk, hheader]
    exact ⟨.inl, fun h => h.elim id hm.owns_allocated⟩
  frame _ _ _ := by rw [hdisk]
  content := by rw [hdisk]

structure Storage.Adds (s : Storage) (x : ℕ) (s' : Storage) : Prop where
  lt : x < 524288
  fresh : s.header.allocated x = false
  ready : s'.Ready
  inodeMap : s'.inodeMap = s.inodeMap
  allocated : ∀ y, s'.header.allocated y = true ↔ y = x ∨ s.header.allocated y = true

section adds
variable {s s' : Storage} {n n' : Inode} {x : ℕ}

theorem allocateSector_adds (hr : s.Ready) {header : SectorsHeaderdata}
    (ha : allocateSector s.header = some (header, x)) (hheader : s'.header = header)
    (hc : s'.Coherent) : s.Adds x s' := by
  subst hheader
  rcases allocateSector_cases hr.wf with ⟨hnone, -⟩ | ⟨h', r, hsome, hlt, hfresh, wf', hmap, hall, -⟩
  · cases hnone.symm.trans ha
  · obtain ⟨rfl, rfl⟩ := Prod.mk.inj (Option.some.inj (hsome.symm.trans ha))
    have hallocated : ∀ y, s'.header.allocated y = true ↔ y = r ∨ s.header.allocated y = true := by
      intro y
      rw [hall, Bool.or_eq_true, decide_eq_true_iff]
    exact ⟨hlt, hfresh, ⟨hc, wf', (hallocated 0).mpr (.inr hr.zero)⟩, hmap, hallocated⟩

theorem Storage.Adds.lba28_eq (h : s.Adds x s') : lba28 x = x :=
  lba28_of_lt (h.lt.trans (by decide))

theorem createNewWriteSector_adds (hr : s.Ready) (h : createNewWriteSector s = some (s', x)) :
    s.Adds x s' ∧ s'.disk = Function.update s.disk x Block.zero := by
  obtain ⟨⟨header, r⟩, ha, hs'⟩ := Option.map_eq_some_iff.mp h
  have hc := createNewWriteSector_coherent h
  obtain ⟨rfl, rfl⟩ := Prod.mk.inj hs'
  have hadd := allocateSector_adds hr ha rfl hc
  have hdisk : Function.update s.disk (lba28 r) Block.zero = Function.update s.disk r Block.zero := by
    rw [hadd.lba28_eq]
  exact ⟨hadd, hdisk⟩

theorem Storage.Adds.ne_zero (h : s.Adds x s') (hr : s.Ready) : x ≠ 0 := by
  rintro rfl
  cases h.fresh.symm.trans hr.zero

theorem Storage.Adds.ne (h : s.Adds x s') {y : ℕ} (hy : s.header.allocated y = true) : y ≠ x := by
  rintro rfl
  cases h.fresh.symm.trans hy

theorem Storage.Maps.ptr_update (hm : s.Maps n) {b : Sector}
    (hx : ∀ t : Place, t.isTable = true → n.ptr s.disk t ≠ 0 → n.ptr s.disk t ≠ x) :
    n.ptr (Function.update s.disk x b) = n.ptr s.disk := by
  refine ptr_congr fun t ht h0 => Function.update_of_ne ?_ _ _
  rw [hm.lba28 h0]
  exact hx t ht h0

theorem Storage.Adds.ptr_update (hadd : s.Adds x s') (hm : s.Maps n) (b : Sector) :
    n.ptr (Function.update s.disk x b) = n.ptr s.disk :=
  hm.ptr_update fun t _ h0 => hadd.ne (hm.allocated t h0)

/-- The number of a new sector is entered in a pointer block. When the new sector is itself a pointer
block, it is empty. -/
theorem Storage.Adds.ptr_setEntry (hadd : s.Adds x s') (hm : s.Maps n) {p t : Place} {b j : ℕ}
    (hp : p.inBlock = some (t, j)) (hj : j < 128) (hb : n.ptr s.disk t = b) (hb0 : b ≠ 0)
    (hfree : n.ptr s.disk p = 0) {disk : ℕ → Sector} (hsame : ∀ y, y ≠ x → disk y = s.disk y)
    (hzero : p.isTable = true → disk x = Block.zero)
    (hdisk : s'.disk = Function.update disk b ((disk b).setWord j x)) :
    n.ptr s'.disk = Function.update (n.ptr s.disk) p x ∧
      ∀ y, s.header.allocated y = true →
        (∀ t : Place, t.isTable = true → n.ptr s.disk t ≠ 0 → n.ptr s.disk t ≠ y) →
        s'.disk y = s.disk y := by
  have hba : s.header.allocated b = true := hb ▸ hm.allocated t (hb ▸ hb0)
  have hlba : lba28 b = b := lba28_of_allocated hba
  have hptr₁ : n.ptr disk = n.ptr s.disk := ptr_congr fun t _ h0 => by
    rw [hm.lba28 h0, hsame _ (hadd.ne (hm.allocated t h0))]
  have hptr := Filesystem.ptr_setEntry (n := n) (x := x) hp hj
    (hadd.lt.trans (by decide)) (show n.ptr disk t ≠ 0 by rwa [hptr₁, hb]) (by rwa [hptr₁])
    (fun ht => by
      rw [hptr₁, hb, hlba, hadd.lba28_eq]
      exact ⟨hzero ht, (hadd.ne hba).symm⟩)
    (fun t' _ h0 hne hlba' => by
      rw [hptr₁] at h0 hlba'
      rw [hm.lba28 h0, hm.lba28 (hb ▸ hb0)] at hlba'
      exact hne (hm.inj t' t h0 hlba'))
  rw [hptr₁, hb, hlba, ← hdisk] at hptr
  refine ⟨hptr, fun y hy htable => ?_⟩
  have hyb : y ≠ b := fun hyb =>
    htable t (Place.inBlock_isTable hp) (hb ▸ hb0) (hb.trans hyb.symm)
  rw [hdisk, Function.update_of_ne hyb, hsame y (hadd.ne hy)]

section add
variable (hr : s.Ready) (hm : s.Maps n) (hadd : s.Adds x s') {p : Place}
  (hp : n.ptr s.disk p = 0) (hptr : n'.ptr s'.disk = Function.update (n.ptr s.disk) p x)
  (hdisk : ∀ y, s.header.allocated y = true →
    (∀ t : Place, t.isTable = true → n.ptr s.disk t ≠ 0 → n.ptr s.disk t ≠ y) →
    s'.disk y = s.disk y)
include hr hm hadd hp hptr hdisk

theorem Grows.of_adds (hkey : n'.key = n.key) (hsize : n'.size = n.size) : Grows s n s' n' := by
  have hx0 := hadd.ne_zero hr
  have hself : n'.ptr s'.disk p = x := by rw [hptr, Function.update_self]
  have hother : ∀ q, q ≠ p → n'.ptr s'.disk q = n.ptr s.disk q := fun q hq => by
    rw [hptr, Function.update_of_ne hq]
  have hkept : ∀ q, n.ptr s.disk q ≠ 0 → n'.ptr s'.disk q = n.ptr s.disk q :=
    fun q hq => hother q fun hqp => hq (hqp ▸ hp)
  refine ⟨hadd.ready, ⟨?_, ?_⟩, hkey, hsize, hadd.inodeMap, hkept, ?_, ?_, ?_⟩
  · intro q hq
    by_cases hqp : q = p
    · rw [hqp, hself]
      exact (hadd.allocated x).mpr (.inl rfl)
    · rw [hother q hqp] at hq ⊢
      exact (hadd.allocated _).mpr (.inr (hm.allocated q hq))
  · intro q r hq hqr
    by_cases hqp : q = p
    · by_contra hne
      have hrp : r ≠ p := fun h => hne (hqp.trans h.symm)
      rw [hqp, hself, hother r hrp] at hqr
      exact hadd.ne (hm.allocated r (hqr ▸ hx0)) hqr.symm
    · rw [hother q hqp] at hq hqr
      by_cases hrp : r = p
      · rw [hrp, hself] at hqr
        exact absurd hqr (hadd.ne (hm.allocated q hq))
      · rw [hother r hrp] at hqr
        exact hm.inj q r hq hqr
  · intro q h0 hne
    by_cases hqp : q = p
    · rw [hqp, hself]
      exact hadd.fresh
    · exact absurd ((hother q hqp).trans h0) hne
  · intro y
    rw [hadd.allocated, or_comm]
    refine or_congr_right' fun hy => ⟨fun h => ⟨h ▸ hx0, p, h ▸ hself⟩, ?_⟩
    rintro ⟨hne, q, rfl⟩
    by_cases hqp : q = p
    · rw [hqp, hself]
    · rw [hother q hqp] at hne hy
      exact absurd (hm.allocated q hne) hy
  · intro y hy hno
    exact hdisk y hy fun t _ h0 hty => hno ⟨hty ▸ h0, t, hty⟩

omit hr hadd hp in
theorem contentAt_of_adds {pos : ℕ} (hpos : dataPlace (pos / 512) ≠ p) :
    n'.contentAt s'.disk pos = n.contentAt s.disk pos := by
  unfold Inode.contentAt
  dsimp only
  rw [hptr, Function.update_of_ne hpos]
  by_cases h0 : n.ptr s.disk (dataPlace (pos / 512)) = 0
  · rw [if_pos h0, if_pos h0]
  · rw [if_neg h0, if_neg h0, hm.lba28 h0, hdisk _ (hm.allocated _ h0)]
    intro t ht _ heq
    have hplace := hm.inj _ t h0 heq.symm
    rw [← hplace, dataPlace_isTable] at ht
    cases ht

theorem Extends.of_adds (hkey : n'.key = n.key) (hsize : n'.size = n.size)
    (hzero : s'.disk x = Block.zero) : Extends s n s' n' := by
  refine ⟨.of_adds hr hm hadd hp hptr hdisk hkey hsize, ?_⟩
  funext pos
  by_cases hq : dataPlace (pos / 512) = p
  · unfold Inode.contentAt
    dsimp only
    rw [hq, hptr, Function.update_self, hp, if_neg (hadd.ne_zero hr), if_pos rfl, hadd.lba28_eq,
      hzero, Block.byte_zero]
  · exact contentAt_of_adds hm hptr hdisk hq

end add

end adds

/-! `get_sector_for_rw` when writing: every block on the way and the sector itself are found or
added. -/

section getSector
variable {s s' : Storage} {n n' : Inode} {b x : ℕ}

/-- A block named by the inode. -/
theorem getBlock_extends (hr : s.Ready) (hm : s.Maps n) (h : getBlock s b true = some (s', x))
    {t : Place} (hb : n.ptr s.disk t = b) (hkey : n'.key = n.key) (hsize : n'.size = n.size)
    (hsame : x = b → n' = n)
    (hptr : b = 0 → ∀ disk : ℕ → Sector, disk (lba28 x) = Block.zero →
      n'.ptr disk = Function.update (n.ptr disk) t x) :
    Extends s n s' n' ∧ n'.ptr s'.disk t = x ∧ x ≠ 0 := by
  unfold getBlock at h
  rw [Bool.true_and] at h
  split_ifs at h with h0
  · have hzero : b = 0 := beq_iff_eq.mp h0
    obtain ⟨hadd, hdisk⟩ := createNewWriteSector_adds hr h
    have hx : s'.disk x = Block.zero := by rw [hdisk, Function.update_self]
    have hptr' : n'.ptr s'.disk = Function.update (n.ptr s.disk) t x := by
      rw [hptr hzero s'.disk (by rwa [hadd.lba28_eq]), hdisk, hadd.ptr_update hm]
    refine ⟨.of_adds hr hm hadd (hb.trans hzero) hptr' (fun y hy _ => ?_) hkey hsize hx, ?_,
      hadd.ne_zero hr⟩
    · rw [hdisk, Function.update_of_ne (hadd.ne hy)]
    · rw [hptr', Function.update_self]
  · have hne : b ≠ 0 := fun hb0 => h0 (beq_iff_eq.mpr hb0)
    obtain ⟨rfl, rfl⟩ := Prod.mk.inj (Option.some.inj h)
    rw [hsame rfl]
    exact ⟨.refl hr hm, hb, hne⟩

theorem getBlockEntry_extends (hr : s.Ready) (hm : s.Maps n) {p t : Place} {j : ℕ}
    (hp : p.inBlock = some (t, j)) (hj : j < 128) (hb : n.ptr s.disk t = b) (hb0 : b ≠ 0)
    (h : getBlockEntry s b j true = some (s', x)) :
    Extends s n s' n ∧ n.ptr s'.disk p = x ∧ x ≠ 0 := by
  have hba : s.header.allocated b = true := hb ▸ hm.allocated t (hb ▸ hb0)
  have hlba : lba28 b = b := lba28_of_allocated hba
  have hword : n.ptr s.disk p = (s.disk b).word j := by
    rw [ptr_inBlock hp, hb, blockEntry_of_ne hb0, hlba]
  unfold getBlockEntry at h
  dsimp only at h
  rw [buffer_efficientReadSector hr.coherent, hlba, ← hword, Bool.true_and] at h
  have hr₀ : (s.efficientReadSector b).Ready :=
    ⟨hr.coherent.efficientReadSector b, hr.wf, hr.zero⟩
  split_ifs at h with h0
  · have hfree : n.ptr s.disk p = 0 := beq_iff_eq.mp h0
    obtain ⟨⟨s₁, y⟩, hnew, heq⟩ := Option.map_eq_some_iff.mp h
    obtain ⟨hadd₁, hdisk₁⟩ := createNewWriteSector_adds hr₀ hnew
    rw [disk_efficientReadSector] at hdisk₁
    obtain ⟨rfl, rfl⟩ := Prod.mk.inj heq
    have hcoh := Storage.writeBuffer_coherent (s := s₁.efficientReadSector b)
      (Cached.fetch_tag b) fun c => c.setWord j y
    have hadd : s.Adds y ((s₁.efficientReadSector b).writeBuffer b fun c => c.setWord j y) :=
      ⟨hadd₁.lt, hadd₁.fresh, ⟨hcoh, hadd₁.ready.wf, hadd₁.ready.zero⟩, hadd₁.inodeMap,
        hadd₁.allocated⟩
    have hdisk : ((s₁.efficientReadSector b).writeBuffer b fun c => c.setWord j y).disk =
        Function.update s₁.disk b ((s₁.disk b).setWord j y) := by
      rw [disk_writeBuffer, disk_efficientReadSector,
        buffer_efficientReadSector hadd₁.ready.coherent, hlba]
    have hy : s₁.disk y = Block.zero := by rw [hdisk₁, Function.update_self]
    have hsame : ∀ z, z ≠ y → s₁.disk z = s.disk z := fun z hz => by
      rw [hdisk₁, Function.update_of_ne hz]
    obtain ⟨hptr, hframe⟩ :=
      hadd.ptr_setEntry hm hp hj hb hb0 hfree hsame (fun _ => hy) hdisk
    refine ⟨.of_adds hr hm hadd hfree hptr hframe rfl rfl ?_, ?_, hadd.ne_zero hr⟩
    · rw [hdisk, Function.update_of_ne (hadd.ne hba).symm, hy]
    · rw [hptr, Function.update_self]
  · have hne : n.ptr s.disk p ≠ 0 := fun h1 => h0 (beq_iff_eq.mpr h1)
    obtain ⟨rfl, rfl⟩ := Prod.mk.inj (Option.some.inj h)
    refine ⟨.of_disk_eq hr₀ hm (disk_efficientReadSector s b) rfl, ?_, hne⟩
    rw [disk_efficientReadSector]

theorem getSectorForRw_extends (hr : s.Ready) (hm : s.Maps n) {i : ℕ} (hi : i < maxFileSectors)
    (h : getSectorForRw s n i true = some (s', n', x)) :
    Extends s n s' n' ∧ n'.ptr s'.disk (dataPlace i) = x ∧ x ≠ 0 := by
  have hmax : maxFileSectors = 128 * 128 + 128 + 11 := by decide
  rw [hmax] at hi
  unfold getSectorForRw at h
  unfold dataPlace
  rw [if_neg (by omega)] at h
  by_cases h₁ : i ≥ 128 + 11
  · have hsub : i - (11 + 128) = i - (128 + 11) := by omega
    rw [if_pos h₁, hsub] at h
    rw [dif_neg (by omega), if_neg (by omega)]
    obtain ⟨⟨s₁, b₁⟩, hb₁, h⟩ := Option.bind_eq_some_iff.mp h
    obtain ⟨⟨s₂, b₂⟩, hb₂, h⟩ := Option.bind_eq_some_iff.mp h
    obtain ⟨⟨s₃, b₃⟩, hb₃, h⟩ := Option.bind_eq_some_iff.mp h
    obtain ⟨rfl, hn⟩ := Prod.mk.inj (Option.some.inj h)
    obtain ⟨rfl, rfl⟩ := Prod.mk.inj hn
    obtain ⟨hext₁, hptr₁, hne₁⟩ := getBlock_extends (t := .dIndirect)
      hr hm hb₁ rfl (show Inode.key { n with dIndirectSector := b₁ } = n.key from rfl) rfl
      (fun h => by rw [h]) (fun h0 disk hz => ptr_setDIndirect h0 hz)
    obtain ⟨hext₂, hptr₂, hne₂⟩ := getBlockEntry_extends hext₁.ready hext₁.maps
      (p := .block ((i - (128 + 11)) / 128)) rfl (by omega) hptr₁ hne₁ hb₂
    obtain ⟨hext₃, hptr₃, hne₃⟩ := getBlockEntry_extends hext₂.ready hext₂.maps
      (p := .double ((i - (128 + 11)) / 128) ((i - (128 + 11)) % 128)) rfl
      (Nat.mod_lt _ (by decide)) hptr₂ hne₂ hb₃
    exact ⟨(hext₁.trans hext₂).trans hext₃, hptr₃, hne₃⟩
  rw [if_neg h₁] at h
  by_cases h₂ : i < 11
  · rw [dif_pos h₂] at h
    rw [dif_pos h₂]
    have hslot : getBlock s (n.dataSectors ⟨i, h₂⟩) true = some (s', x) ∧
        n' = { n with dataSectors := Function.update n.dataSectors ⟨i, h₂⟩ x } := by
      unfold getBlock
      split_ifs at h ⊢
      · obtain ⟨⟨s₁, y⟩, hnew, h⟩ := Option.map_eq_some_iff.mp h
        obtain ⟨rfl, hn⟩ := Prod.mk.inj h
        obtain ⟨rfl, rfl⟩ := Prod.mk.inj hn
        exact ⟨hnew, rfl⟩
      · obtain ⟨rfl, hn⟩ := Prod.mk.inj (Option.some.inj h)
        obtain ⟨rfl, rfl⟩ := Prod.mk.inj hn
        exact ⟨rfl, by rw [Function.update_eq_self]⟩
    obtain ⟨hblock, rfl⟩ := hslot
    exact getBlock_extends (t := .direct ⟨i, h₂⟩) hr hm hblock rfl rfl rfl
      (fun h => by rw [h, Function.update_eq_self]) (fun _ disk _ => ptr_setDirect disk n _ x)
  · rw [dif_neg h₂] at h
    rw [dif_neg h₂, if_pos (by omega)]
    obtain ⟨⟨s₁, b₁⟩, hb₁, h⟩ := Option.bind_eq_some_iff.mp h
    obtain ⟨⟨s₂, b₂⟩, hb₂, h⟩ := Option.bind_eq_some_iff.mp h
    obtain ⟨rfl, hn⟩ := Prod.mk.inj (Option.some.inj h)
    obtain ⟨rfl, rfl⟩ := Prod.mk.inj hn
    obtain ⟨hext₁, hptr₁, hne₁⟩ := getBlock_extends (t := .indirect)
      hr hm hb₁ rfl (show Inode.key { n with indirectSector := b₁ } = n.key from rfl) rfl
      (fun h => by rw [h]) (fun h0 disk hz => ptr_setIndirect h0 hz)
    obtain ⟨hext₂, hptr₂, hne₂⟩ := getBlockEntry_extends hext₁.ready hext₁.maps
      (p := .single (i - 11)) rfl (by omega) hptr₁ hne₁ hb₂
    exact ⟨hext₁.trans hext₂, hptr₂, hne₂⟩

theorem getBlock_of_ne (hb : b ≠ 0) : getBlock s b true = some (s, b) := by
  unfold getBlock
  rw [if_neg (by simpa using hb)]

theorem getBlockEntry_of_ne (hc : s.Coherent) (hb : b ≠ 0) {j : ℕ} (hx : blockEntry s.disk b j ≠ 0) :
    getBlockEntry s b j true = some (s.efficientReadSector b, blockEntry s.disk b j) := by
  rw [blockEntry_of_ne hb] at hx ⊢
  unfold getBlockEntry
  dsimp only
  rw [buffer_efficientReadSector hc, if_neg (by simpa using hx)]

theorem getSectorForRw_header (hc : s.Coherent) {i : ℕ} (hi : i < maxFileSectors)
    (hp : n.ptr s.disk (dataPlace i) ≠ 0) (h : getSectorForRw s n i true = some (s', n', x)) :
    s'.header = s.header := by
  have hmax : maxFileSectors = 128 * 128 + 128 + 11 := by decide
  rw [hmax] at hi
  have htables := ptr_tables hp
  unfold getSectorForRw at h
  unfold dataPlace at hp htables
  rw [if_neg (by omega)] at h
  by_cases h₁ : i ≥ 128 + 11
  · have hsub : i - (11 + 128) = i - (128 + 11) := by omega
    rw [if_pos h₁, hsub] at h
    rw [dif_neg (by omega), if_neg (by omega)] at hp htables
    have hd : n.dIndirectSector ≠ 0 := htables .dIndirect List.mem_cons_self
    have hb : blockEntry s.disk n.dIndirectSector ((i - (128 + 11)) / 128) ≠ 0 :=
      htables (.block _) (List.mem_cons_of_mem _ List.mem_cons_self)
    rw [getBlock_of_ne hd, Option.bind_eq_bind, Option.bind_some] at h
    dsimp only at h
    rw [getBlockEntry_of_ne hc hd hb, Option.bind_some] at h
    dsimp only at h
    have hx : blockEntry (s.efficientReadSector n.dIndirectSector).disk
        (blockEntry s.disk n.dIndirectSector ((i - (128 + 11)) / 128))
        ((i - (128 + 11)) % 128) ≠ 0 := by
      rw [disk_efficientReadSector]
      exact hp
    rw [getBlockEntry_of_ne (hc.efficientReadSector _) hb hx, Option.bind_some] at h
    obtain ⟨rfl, -⟩ := Prod.mk.inj (Option.some.inj h)
    rfl
  rw [if_neg h₁] at h
  by_cases h₂ : i < 11
  · rw [dif_pos h₂] at h hp
    have hp' : n.dataSectors ⟨i, h₂⟩ ≠ 0 := hp
    rw [if_neg (by simpa using hp')] at h
    obtain ⟨rfl, -⟩ := Prod.mk.inj (Option.some.inj h)
    rfl
  · rw [dif_neg h₂] at h
    rw [dif_neg h₂, if_pos (by omega)] at hp htables
    have hb : n.indirectSector ≠ 0 := htables .indirect List.mem_cons_self
    rw [getBlock_of_ne hb, Option.bind_eq_bind, Option.bind_some] at h
    dsimp only at h
    rw [getBlockEntry_of_ne hc hb hp, Option.bind_some] at h
    obtain ⟨rfl, -⟩ := Prod.mk.inj (Option.some.inj h)
    rfl

end getSector

def overwrite (content : ℕ → UInt8) (pos : ℕ) (bytes : List UInt8) : ℕ → UInt8 := fun p =>
  if pos ≤ p ∧ p < pos + bytes.length then bytes[p - pos]?.getD 0 else content p

@[simp] theorem overwrite_nil (content : ℕ → UInt8) (pos : ℕ) : overwrite content pos [] = content := by
  funext p
  unfold overwrite
  rw [if_neg (by simp)]

theorem overwrite_append (content : ℕ → UInt8) (pos : ℕ) (as bs : List UInt8) :
    overwrite (overwrite content pos as) (pos + as.length) bs = overwrite content pos (as ++ bs) := by
  funext p
  unfold overwrite
  rw [List.length_append]
  by_cases hlt : p < pos + as.length
  · rw [if_neg (show ¬ (pos + as.length ≤ p ∧ p < pos + as.length + bs.length) by omega)]
    by_cases hle : pos ≤ p
    · rw [if_pos ⟨hle, hlt⟩, if_pos (by omega), List.getElem?_append_left (by omega)]
    · rw [if_neg (by omega), if_neg (by omega)]
  · rw [if_neg (show ¬ (pos ≤ p ∧ p < pos + as.length) by omega)]
    by_cases hin : p < pos + as.length + bs.length
    · rw [if_pos (by omega), if_pos (by omega), List.getElem?_append_right (by omega), Nat.sub_add_eq]
    · rw [if_neg (by omega), if_neg (by omega)]

def Place.index : Place → ℕ
  | .direct i => i
  | .single j => 11 + j
  | .double j l => 128 + 11 + 128 * j + l
  | .indirect | .dIndirect | .block _ => 0

theorem index_dataPlace : Function.LeftInverse Place.index dataPlace := by
  intro i
  unfold dataPlace
  split_ifs
  · rfl
  · unfold Place.index
    dsimp only
    omega
  · unfold Place.index
    dsimp only
    omega

section write
variable {s s' : Storage} {n n' : Inode} {pos : ℕ} {bytes : List UInt8}

/-- Bytes written to one sector of the file. -/
theorem writeSector_grows (hr : s.Ready) (hm : s.Maps n) {x : ℕ} (hx : x ≠ 0)
    (hp : n.ptr s.disk (dataPlace (pos / 512)) = x) (hlen : pos % 512 + bytes.length ≤ 512)
    (hdisk : s'.disk = Function.update s.disk x ((s.disk x).blit (pos % 512) bytes))
    (hheader : s'.header = s.header) (hc' : s'.Coherent) :
    Grows s n s' n ∧ n.ptr s'.disk = n.ptr s.disk ∧
      n.contentAt s'.disk = overwrite (n.contentAt s.disk) pos bytes := by
  have hlba : lba28 x = x := hp ▸ hm.lba28 (hp.symm ▸ hx)
  have hready : s'.Ready := ⟨hc', hheader ▸ hr.wf, hheader ▸ hr.zero⟩
  have hptr : n.ptr s'.disk = n.ptr s.disk := by
    rw [hdisk]
    refine hm.ptr_update fun t ht h0 htx => ?_
    rw [hm.inj t _ h0 (htx.trans hp.symm), dataPlace_isTable] at ht
    cases ht
  refine ⟨⟨hready, ⟨?_, ?_⟩, rfl, rfl, ?_, ?_, ?_, ?_, ?_⟩, hptr, ?_⟩
  · rw [hptr, hheader]
    exact hm.allocated
  · rw [hptr]
    exact hm.inj
  · exact congrArg SectorsHeaderdata.inodeSectorMap hheader
  · exact fun p _ => by rw [hptr]
  · exact fun p h0 hne => absurd h0 (hptr ▸ hne)
  · intro y
    unfold Inode.Owns
    rw [hptr, hheader]
    exact ⟨.inl, fun h => h.elim id hm.owns_allocated⟩
  · intro y _ hno
    rw [hdisk, Function.update_of_ne]
    rintro rfl
    exact hno ⟨hx, _, hp⟩
  · funext p
    unfold Inode.contentAt overwrite
    dsimp only
    rw [hptr]
    by_cases hi : p / 512 = pos / 512
    · rw [hi, hp, if_neg hx, if_neg hx, hlba, hdisk, Function.update_self,
        Block.byte_blit (Nat.mod_lt p (by decide))]
      by_cases hin : pos ≤ p ∧ p < pos + bytes.length
      · have hsub : p % 512 - pos % 512 = p - pos := by omega
        rw [if_pos hin, if_pos (by omega), hsub]
      · rw [if_neg hin, if_neg (by omega)]
    · rw [if_neg (show ¬ (pos ≤ p ∧ p < pos + bytes.length) by omega)]
      by_cases h0 : n.ptr s.disk (dataPlace (p / 512)) = 0
      · rw [if_pos h0, if_pos h0]
      · rw [if_neg h0, if_neg h0, hm.lba28 h0, hdisk, Function.update_of_ne]
        intro heq
        exact hi (index_dataPlace.injective (hm.inj _ _ h0 (heq.trans hp.symm)))

structure Wrote (s : Storage) (n : Inode) (pos : ℕ) (bytes : List UInt8) (s' : Storage) (n' : Inode)
    (pos' : ℕ) : Prop extends Grows s n s' n' where
  end_eq : pos' = pos + min bytes.length (512 * maxFileSectors - pos)
  content : n'.contentAt s'.disk =
    overwrite (n.contentAt s.disk) pos (bytes.take (512 * maxFileSectors - pos))
  present : ∀ p, pos ≤ p → p < pos' → n'.ptr s'.disk (dataPlace (p / 512)) ≠ 0
  header : (∀ p, pos ≤ p → p < pos' → n.ptr s.disk (dataPlace (p / 512)) ≠ 0) → s'.header = s.header

theorem Wrote.nothing (hr : s.Ready) (hm : s.Maps n)
    (h : bytes = [] ∨ 512 * maxFileSectors ≤ pos) : Wrote s n pos bytes s n pos := by
  have hend : min bytes.length (512 * maxFileSectors - pos) = 0 := by
    rcases h with rfl | h
    · exact Nat.zero_min _
    · omega
  have htake : bytes.take (512 * maxFileSectors - pos) = [] := by
    rw [← List.length_eq_zero_iff, List.length_take, min_comm, hend]
  refine ⟨.refl hr hm, by rw [hend, Nat.add_zero], by rw [htake, overwrite_nil], ?_, fun _ => rfl⟩
  intro p hle hlt
  omega

/-- One round of the loop, and what follows it. -/
theorem Wrote.step {s₁ s₂ : Storage} {n₁ : Inode} {w pos' : ℕ}
    (hw : w = min bytes.length (512 - pos % 512)) (hbytes : bytes ≠ [])
    (hpos : pos / 512 < maxFileSectors) (hext : Extends s n s₁ n₁)
    (hp : n₁.ptr s₁.disk (dataPlace (pos / 512)) ≠ 0)
    (hheader : n.ptr s.disk (dataPlace (pos / 512)) ≠ 0 → s₂.header = s.header)
    (hgrows : Grows s₁ n₁ s₂ n₁)
    (hcontent : n₁.contentAt s₂.disk = overwrite (n₁.contentAt s₁.disk) pos (bytes.take w))
    (hrest : Wrote s₂ n₁ (pos + w) (bytes.drop w) s' n' pos') : Wrote s n pos bytes s' n' pos' := by
  have hlen : 0 < bytes.length := List.length_pos_iff.mpr hbytes
  have hend := hrest.end_eq
  rw [List.length_drop] at hend
  have hgrows₂ := hext.toGrows.trans hgrows
  -- the round stays within the sector of its first byte
  have hsector : ∀ p, pos ≤ p → p < pos + w → p / 512 = pos / 512 := by omega
  refine ⟨hgrows₂.trans hrest.toGrows, by omega, ?_, ?_, ?_⟩
  · have htake : (bytes.take w).length = w := by rw [List.length_take]; omega
    have hcap : 512 * maxFileSectors - pos = w + (512 * maxFileSectors - (pos + w)) := by omega
    rw [hrest.content, hcontent, hext.content, hcap, List.take_add, ← overwrite_append, htake]
  · intro p hle hlt
    by_cases hpw : p < pos + w
    · rw [hrest.kept _ (by rwa [hgrows.kept _ (by rwa [hsector p hle hpw]), hsector p hle hpw]),
        hgrows.kept _ (by rwa [hsector p hle hpw]), hsector p hle hpw]
      exact hp
    · exact hrest.present p (by omega) hlt
  · intro hall
    have hfirst := hheader (hall pos le_rfl (by omega))
    rw [hrest.header fun p hle hlt => ?_, hfirst]
    have hne := hall p (by omega) hlt
    rwa [hgrows₂.kept _ hne]

theorem fsWriteLoop_wrote {k pos' : ℕ} {done : Bool} (hr : s.Ready) (hm : s.Maps n)
    (hk : bytes.length ≤ k) (h : fsWriteLoop k s n pos bytes = some (s', n', pos', done)) :
    Wrote s n pos bytes s' n' pos' ∧ (done = true ↔ bytes.length ≤ 512 * maxFileSectors - pos) := by
  induction k generalizing s n pos bytes with
  | zero =>
    obtain rfl := List.length_eq_zero_iff.mp (Nat.le_zero.mp hk)
    cases h
    exact ⟨.nothing hr hm (.inl rfl), by simp⟩
  | succ k ih =>
    unfold fsWriteLoop at h
    split_ifs at h with hempty hcap
    · obtain rfl := List.isEmpty_iff.mp hempty
      cases h
      exact ⟨.nothing hr hm (.inl rfl), by simp⟩
    · have hlen : 0 < bytes.length := by simpa [List.length_pos_iff] using hempty
      cases h
      refine ⟨.nothing hr hm (.inr (by omega)), ?_⟩
      rw [Bool.false_eq_true, false_iff]
      omega
    · have hbytes : bytes ≠ [] := fun h0 => hempty (List.isEmpty_iff.mpr h0)
      have hlen : 0 < bytes.length := List.length_pos_iff.mpr hbytes
      have hpos : pos / 512 < maxFileSectors := Nat.lt_of_not_le hcap
      obtain ⟨⟨s₁, n₁, x⟩, hget, h⟩ := Option.bind_eq_some_iff.mp h
      dsimp only at h
      obtain ⟨hext, hptr, hx⟩ := getSectorForRw_extends hr hm hpos hget
      rw [if_neg hx] at h
      obtain ⟨w, hw⟩ : ∃ w, w = min bytes.length (512 - pos % 512) := ⟨_, rfl⟩
      rw [← hw] at h
      have hwlen : (bytes.take w).length = w := by rw [List.length_take]; omega
      have hlba : lba28 x = x := hptr ▸ hext.maps.lba28 (hptr.symm ▸ hx)
      have hdisk : ((s₁.readSector x).writeBuffer x fun b => b.blit (pos % 512) (bytes.take w)).disk =
          Function.update s₁.disk x ((s₁.disk x).blit (pos % 512) (bytes.take w)) := by
        rw [disk_writeBuffer, buffer_readSector, disk_readSector, hlba]
      obtain ⟨hgrows, -, hcontent⟩ := writeSector_grows hext.ready hext.maps hx hptr
        (by omega) hdisk rfl (Storage.writeBuffer_coherent (Cached.load_tag x) _)
      have hdrop : (bytes.drop w).length = bytes.length - w := List.length_drop
      obtain ⟨hrest, hdone⟩ := ih hgrows.ready hgrows.maps (by omega) h
      refine ⟨.step hw hbytes hpos hext (hptr.symm ▸ hx) (fun hp => ?_) hgrows hcontent hrest, ?_⟩
      · have hheader : s₁.header = s.header := getSectorForRw_header hr.coherent hpos hp hget
        exact hheader
      · rw [hdone, hdrop]
        omega

end write

def Inode.writeStart (n : Inode) (file : OpenFile) : ℕ :=
  if file.flags &&& fileFlagAppend ≠ 0 then n.size else file.rwPointer

structure Unchanged (s : Storage) (n : Inode) (s' : Storage) (n' : Inode) : Prop where
  size : n'.size = n.size
  contents : ∀ p < n.size, n'.contentAt s'.disk p = n.contentAt s.disk p
  allocated : ∀ x, s'.header.allocated x = s.header.allocated x

/-- The write is refused at once, or there is room for it, or all sectors up to the largest size are
there and hold what is written. -/
def Inode.FailsClean (disk : ℕ → Sector) (n : Inode) (file : OpenFile) (bytes : List UInt8) :
    Prop :=
  file.flags &&& fileFlagWrite = 0 ∨ n.type = fsTypeDir ∨
    512 * maxFileSectors ≤ n.writeStart file ∨
    n.writeStart file + bytes.length ≤ 512 * maxFileSectors ∨
    ∀ p, n.writeStart file ≤ p → p < 512 * maxFileSectors →
      n.ptr disk (dataPlace (p / 512)) ≠ 0 ∧
        (p < n.size → bytes[p - n.writeStart file]?.getD 0 = n.contentAt disk p)

section fsWrite
variable {s s' : Storage} {n n' : Inode} {file : OpenFile} {bytes : List UInt8}
  {result : Except FileError ℕ}

/-- `fs_write` on a file that may be written. -/
theorem fsWrite_wrote (hr : s.Ready) (hm : s.Maps n) (hflag : file.flags &&& fileFlagWrite ≠ 0)
    (htype : n.type ≠ fsTypeDir) (h : fsWrite s n file bytes = some (s', n', result)) :
    ∃ n₁ pos', Wrote s n (n.writeStart file) bytes s' n₁ pos' ∧
      ((bytes.length ≤ 512 * maxFileSectors - n.writeStart file ∧
          n' = { n₁ with size := max n₁.size pos' } ∧ result = .ok bytes.length) ∨
        (512 * maxFileSectors - n.writeStart file < bytes.length ∧ n' = n₁ ∧
          result = .error .noCapacity)) := by
  unfold fsWrite at h
  rw [if_neg hflag, if_neg htype] at h
  obtain ⟨⟨s₁, n₁, pos', done⟩, hloop, h⟩ := Option.bind_eq_some_iff.mp h
  obtain ⟨hwrote, hdone⟩ := fsWriteLoop_wrote hr hm le_rfl hloop
  dsimp only at h
  split_ifs at h with hd
  · cases h
    exact ⟨n₁, pos', hwrote, .inl ⟨hdone.mp hd, rfl, rfl⟩⟩
  · cases h
    exact ⟨_, pos', hwrote, .inr ⟨Nat.lt_of_not_le (mt hdone.mpr hd), rfl, rfl⟩⟩

/-- A write that fails changes nothing exactly when it fails before the first byte or finds all it
would write in place. -/
theorem fsWrite_error_unchanged_iff (hr : s.Ready) (hm : s.Maps n)
    (h : fsWrite s n file bytes = some (s', n', result)) :
    ((∃ e, result = .error e) → Unchanged s n s' n') ↔ n.FailsClean s.disk file bytes := by
  unfold Inode.FailsClean
  by_cases hflag : file.flags &&& fileFlagWrite = 0
  · refine iff_of_true (fun _ => ?_) (.inl hflag)
    unfold fsWrite at h
    rw [if_pos hflag] at h
    cases h
    exact ⟨rfl, fun _ _ => rfl, fun _ => rfl⟩
  by_cases htype : n.type = fsTypeDir
  · refine iff_of_true (fun _ => ?_) (.inr (.inl htype))
    unfold fsWrite at h
    rw [if_neg hflag, if_pos htype] at h
    cases h
    exact ⟨rfl, fun _ _ => rfl, fun _ => rfl⟩
  obtain ⟨n₁, pos', hwrote, ⟨hfits, -, rfl⟩ | ⟨hover, rfl, rfl⟩⟩ := fsWrite_wrote hr hm hflag htype h
  · -- a write that succeeds
    refine iff_of_true ?_ (by omega)
    rintro ⟨e, he⟩
    cases he
  have hend := hwrote.end_eq
  have hlen : (bytes.take (512 * maxFileSectors - n.writeStart file)).length =
      512 * maxFileSectors - n.writeStart file := by
    rw [List.length_take]
    omega
  have hcontent : ∀ p, n.writeStart file ≤ p → p < 512 * maxFileSectors →
      n'.contentAt s'.disk p = bytes[p - n.writeStart file]?.getD 0 := by
    intro p hle hlt
    rw [hwrote.content]
    unfold overwrite
    rw [if_pos (by omega), List.getElem?_take_of_lt (by omega)]
  constructor
  · intro hsame
    obtain ⟨-, hcontents, hallocated⟩ := hsame ⟨_, rfl⟩
    refine .inr (.inr (.inr (.inr fun p hle hlt => ⟨fun h0 => ?_, fun hp => ?_⟩)))
    · -- a sector that was missing is allocated now
      have hne := hwrote.present p hle (by omega)
      have hfresh := hwrote.fresh _ h0 hne
      have hnow := hwrote.maps.allocated _ hne
      rw [hallocated, hfresh] at hnow
      cases hnow
    · rw [← hcontent p hle hlt]
      exact hcontents p hp
  · rintro (h0 | h0 | hstart | hroom | hclean) -
    · exact absurd h0 hflag
    · exact absurd h0 htype
    · refine ⟨hwrote.size, fun p _ => ?_, fun x => ?_⟩
      · rw [hwrote.content, Nat.sub_eq_zero_of_le hstart, List.take_zero, overwrite_nil]
      · rw [hwrote.header fun p hle hlt => absurd hlt (by omega)]
    · omega
    · refine ⟨hwrote.size, fun p hp => ?_, fun x => ?_⟩
      · by_cases hin : n.writeStart file ≤ p ∧ p < 512 * maxFileSectors
        · rw [hcontent p hin.1 hin.2]
          exact (hclean p hin.1 hin.2).2 hp
        · rw [hwrote.content]
          unfold overwrite
          rw [if_neg (by omega)]
      · rw [hwrote.header fun p hle hlt => (hclean p hle (by omega)).1]

end fsWrite

/-! A file of the largest size, in the sectors from 118 on. -/

def wordSector (w : ℕ → ℕ) : Sector := fun i =>
  UInt8.ofNat (w (i.val / 4) / 2 ^ (8 * (i.val % 4)))

theorem word_wordSector {w : ℕ → ℕ} (hw : ∀ j < 128, w j < 2 ^ 32) (j : ℕ) :
    (wordSector w).word j = if j < 128 then w j else 0 := by
  have hbyte : ∀ k < 4, ((wordSector w).byte (4 * j + k)).toNat =
      if j < 128 then w j / 2 ^ (8 * k) % 256 else 0 := by
    intro k hk
    unfold Block.byte
    by_cases hj : j < 128
    · rw [dif_pos (by omega), if_pos hj]
      unfold wordSector
      have hdiv : (4 * j + k) / 4 = j := by omega
      have hmod : (4 * j + k) % 4 = k := by omega
      dsimp only
      rw [hdiv, hmod, UInt8.toNat_ofNat']
    · rw [dif_neg (by omega), if_neg hj]
      rfl
  unfold Block.word Block.wordAt
  have h0 := hbyte 0 (by decide)
  rw [Nat.add_zero] at h0
  rw [h0, hbyte 1 (by decide), hbyte 2 (by decide), hbyte 3 (by decide)]
  split_ifs with hj
  · have hlt := hw j hj
    omega
  · rfl

def fullDisk : ℕ → Sector := fun x =>
  if x = 129 then wordSector fun j => 130 + j
  else if x = 258 then wordSector fun j => 259 + j
  else if 259 ≤ x ∧ x < 387 then wordSector fun l => 387 + 128 * (x - 259) + l
  else Block.zero

def fullHeader : SectorsHeaderdata where
  bigSectorUsedMap := Vector.ofFn fun i => if i.val < 5 then 0xff else 0
  bigSectorFullMap := Vector.ofFn fun i => if i.val < 5 then 0xff else 0
  inodeSectorMap := Vector.ofFn fun i => if i.val = 0 then 3 else 0
  sectorBitmaps := fun _ => none
  activePartiallyUsedBitmaps := 0
  usedSectors := 20480

def fullStorage : Storage := ⟨fullHeader, ⟨fullDisk, Block.zero, 0⟩⟩

def fullFile : Inode := ⟨1, 512 * maxFileSectors, 1, 7, 2, 129, 258, fun i => 118 + i.val⟩

theorem fullStorage_ready : fullStorage.Ready := by
  have hpart : ∀ i, partiallyUsed fullHeader i = false := fun i => Bool.and_not_self _
  have hcount : ∀ n, countPartiallyUsedBigSectors fullHeader n = 0 := by
    intro n
    induction n with
    | zero => rfl
    | succ n ih => rw [countPartiallyUsedBigSectors, ih, hpart]; rfl
  refine ⟨rfl, ⟨fun _ h => h, (hcount 1024).symm, fun i hi => absurd hi (Nat.not_lt_zero i),
    fun _ _ => rfl⟩, by decide +kernel⟩

def fullPlace : Place → ℕ
  | .direct i => 118 + i
  | .indirect => 129
  | .single j => if j < 128 then 130 + j else 0
  | .dIndirect => 258
  | .block j => if j < 128 then 259 + j else 0
  | .double j l => if j < 128 ∧ l < 128 then 387 + 128 * j + l else 0

theorem fullFile_ptr : fullFile.ptr fullDisk = fullPlace := by
  have hindirect : ∀ j, (fullDisk (lba28 129)).word j = if j < 128 then 130 + j else 0 :=
    word_wordSector fun j hj => by omega
  have hdouble : ∀ j, (fullDisk (lba28 258)).word j = if j < 128 then 259 + j else 0 :=
    word_wordSector fun j hj => by omega
  have hblock : ∀ j < 128, ∀ l, (fullDisk (lba28 (259 + j))).word l =
      if l < 128 then 387 + 128 * j + l else 0 := by
    intro j hj l
    have hdisk : fullDisk (259 + j) = wordSector fun l => 387 + 128 * j + l := by
      unfold fullDisk
      rw [if_neg (by omega), if_neg (by omega), if_pos (by omega), Nat.add_sub_cancel_left]
    rw [lba28_of_lt (by omega), hdisk, word_wordSector fun l hl => by omega]
  have hnames : ∀ j, blockEntry fullDisk 258 j = if j < 128 then 259 + j else 0 := fun j => by
    rw [blockEntry_of_ne (by decide), hdouble]
  funext p
  cases p with
  | direct i => rfl
  | indirect => rfl
  | dIndirect => rfl
  | single j =>
    show blockEntry fullDisk 129 j = _
    rw [blockEntry_of_ne (by decide), hindirect]
    rfl
  | block j => exact hnames j
  | double j l =>
    show blockEntry fullDisk (blockEntry fullDisk 258 j) l =
      if j < 128 ∧ l < 128 then 387 + 128 * j + l else 0
    rw [hnames]
    by_cases hj : j < 128
    · rw [if_pos hj, blockEntry_of_ne (by omega), hblock j hj]
      simp only [hj, true_and]
    · rw [if_neg hj, blockEntry_zero, if_neg fun h => hj h.1]

theorem fullPlace_lt (p : Place) : fullPlace p < 20480 := by
  cases p <;> unfold fullPlace <;> grind

theorem fullPlace_inj {p q : Place} (hp : fullPlace p ≠ 0) (hpq : fullPlace p = fullPlace q) :
    p = q := by
  cases p <;> cases q <;> simp only [fullPlace] at hp hpq <;> grind

theorem fullStorage_maps : fullStorage.Maps fullFile := by
  have hfull : ∀ b < 40, fullHeader.bit b = fun _ => true := by
    intro b hb
    have hused : ∀ b < 40, bitCheck fullHeader.bigSectorUsedMap b = true := by decide +kernel
    have hused' : bitCheck fullHeader.bigSectorFullMap b = true := hused b hb
    funext k
    rw [SectorsHeaderdata.bit, hused b hb, hused']
    rfl
  have hptr : fullFile.ptr fullStorage.disk = fullPlace := fullFile_ptr
  refine ⟨fun p hp => ?_, fun p q hp hpq => ?_⟩
  · have hlt := fullPlace_lt p
    rw [hptr]
    exact congrFun (hfull (fullPlace p / 512) (by omega)) _
  · rw [hptr] at hp hpq
    exact fullPlace_inj hp hpq

def endWrite (b c : UInt8) : Option (Storage × Inode × Except FileError ℕ) :=
  fsWrite fullStorage fullFile ⟨fileFlagWrite, 1, 512 * maxFileSectors - 1⟩ [b, c]

theorem fullFile_writeStart : fullFile.writeStart ⟨fileFlagWrite, 1, 512 * maxFileSectors - 1⟩ =
    512 * maxFileSectors - 1 := by decide

theorem endWrite_eq {b c : UInt8} (h : (endWrite b c).isSome = true) : ∃ s' n',
    endWrite b c = some (s', n', .error .noCapacity) ∧
      n'.contentAt s'.disk (512 * maxFileSectors - 1) = b := by
  obtain ⟨⟨s', n', result⟩, hwrite⟩ := Option.isSome_iff_exists.mp h
  obtain ⟨n₁, pos', hwrote, ⟨hfits, -⟩ | ⟨-, rfl, rfl⟩⟩ :=
    fsWrite_wrote fullStorage_ready fullStorage_maps (by decide) (by decide) hwrite
  · have hlen : [b, c].length = 2 := rfl
    rw [fullFile_writeStart] at hfits
    omega
  · refine ⟨s', n', hwrite, ?_⟩
    rw [hwrote.content]
    rfl

/-- Writing what is there already at the end of a full file fails and changes nothing. -/
theorem fsWrite_error_unchanged_same : ∃ s' n',
    endWrite 0 5 = some (s', n', .error .noCapacity) ∧ Unchanged fullStorage fullFile s' n' := by
  obtain ⟨s', n', hwrite, -⟩ := endWrite_eq (b := 0) (c := 5) (by decide +kernel)
  refine ⟨s', n', hwrite, (fsWrite_error_unchanged_iff fullStorage_ready fullStorage_maps
    hwrite).mpr (.inr (.inr (.inr (.inr fun p hle hlt => ?_)))) ⟨_, rfl⟩⟩
  rw [fullFile_writeStart] at hle ⊢
  obtain rfl : p = 512 * maxFileSectors - 1 := by omega
  decide +kernel

/-- Two bytes at the last position of a full file: the write fails, but the first is written. -/
theorem fsWrite_error_changes : fullStorage.Ready ∧ fullStorage.Maps fullFile ∧ ∃ s' n',
    endWrite 1 2 = some (s', n', .error .noCapacity) ∧
      fullFile.contentAt fullStorage.disk (512 * maxFileSectors - 1) = 0 ∧
      n'.contentAt s'.disk (512 * maxFileSectors - 1) = 1 := by
  obtain ⟨s', n', hwrite, hbyte⟩ := endWrite_eq (b := 1) (c := 2) (by decide +kernel)
  exact ⟨fullStorage_ready, fullStorage_maps, s', n', hwrite, by decide +kernel, hbyte⟩

end BrickOS.Filesystem
