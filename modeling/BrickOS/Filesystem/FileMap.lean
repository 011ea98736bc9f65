import BrickOS.Filesystem.Directory

/-! Where the sectors of a file are. Their numbers are kept in the inode, in its indirect sector, in
its double indirect sector, and in the blocks that the double indirect sector names. -/
namespace BrickOS.Filesystem
open BrickOS.Lib

def Storage.disk (s : Storage) : ℕ → Sector := s.sectors.store

inductive Place where
  | direct (i : Fin 11)
  | indirect
  | single (j : ℕ)
  | dIndirect
  | block (j : ℕ)
  | double (j l : ℕ)
deriving DecidableEq, Repr

def Place.isTable : Place → Bool
  | .indirect | .dIndirect | .block _ => true
  | .direct _ | .single _ | .double _ _ => false

def blockEntry (disk : ℕ → Sector) (block j : ℕ) : ℕ :=
  if block = 0 then 0 else (disk (lba28 block)).word j

def Inode.ptr (disk : ℕ → Sector) (n : Inode) : Place → ℕ
  | .direct i => n.dataSectors i
  | .indirect => n.indirectSector
  | .single j => blockEntry disk n.indirectSector j
  | .dIndirect => n.dIndirectSector
  | .block j => blockEntry disk n.dIndirectSector j
  | .double j l => blockEntry disk (blockEntry disk n.dIndirectSector j) l

def dataPlace (i : ℕ) : Place :=
  if h : i < 11 then .direct ⟨i, h⟩
  else if i < 128 + 11 then .single (i - 11)
  else .double ((i - (128 + 11)) / 128) ((i - (128 + 11)) % 128)

def Place.tables : Place → List Place
  | .direct _ | .indirect | .dIndirect => []
  | .single _ => [.indirect]
  | .block _ => [.dIndirect]
  | .double j _ => [.dIndirect, .block j]

def Inode.Owns (disk : ℕ → Sector) (n : Inode) (x : ℕ) : Prop := x ≠ 0 ∧ ∃ p, n.ptr disk p = x

section disk
variable {s : Storage} {sector : ℕ}

@[simp] theorem disk_efficientReadSector (s : Storage) (sector : ℕ) :
    (s.efficientReadSector sector).disk = s.disk := Cached.fetch_store sector

@[simp] theorem header_efficientReadSector (s : Storage) (sector : ℕ) :
    (s.efficientReadSector sector).header = s.header := rfl

@[simp] theorem disk_readSector (s : Storage) (sector : ℕ) : (s.readSector sector).disk = s.disk :=
  rfl

@[simp] theorem header_readSector (s : Storage) (sector : ℕ) :
    (s.readSector sector).header = s.header := rfl

theorem disk_writeBuffer (s : Storage) (sector : ℕ) (f : Sector → Sector) :
    (s.writeBuffer sector f).disk = Function.update s.disk (lba28 sector) (f s.buffer) := rfl

theorem buffer_efficientReadSector (hc : s.Coherent) (sector : ℕ) :
    (s.efficientReadSector sector).buffer = s.disk (lba28 sector) := hc.fetch_buffer sector

theorem buffer_readSector (s : Storage) (sector : ℕ) :
    (s.readSector sector).buffer = s.disk (lba28 sector) := rfl

theorem lba28_of_lt (h : sector < 2 ^ 28) : lba28 sector = sector := Nat.mod_eq_of_lt h

end disk

section ptr
variable {disk disk' : ℕ → Sector} {n : Inode} {x : ℕ}

@[simp] theorem blockEntry_zero (disk : ℕ → Sector) (j : ℕ) : blockEntry disk 0 j = 0 := if_pos rfl

theorem blockEntry_of_ne {block : ℕ} (h : block ≠ 0) (j : ℕ) :
    blockEntry disk block j = (disk (lba28 block)).word j := if_neg h

theorem blockEntry_congr {block : ℕ}
    (h : block ≠ 0 → disk' (lba28 block) = disk (lba28 block)) (j : ℕ) :
    blockEntry disk' block j = blockEntry disk block j := by
  unfold blockEntry
  by_cases hb : block = 0
  · rw [if_pos hb, if_pos hb]
  · rw [if_neg hb, if_neg hb, h hb]

theorem ptr_congr (h : ∀ t : Place, t.isTable = true → n.ptr disk t ≠ 0 →
    disk' (lba28 (n.ptr disk t)) = disk (lba28 (n.ptr disk t))) : n.ptr disk' = n.ptr disk := by
  have hblock : ∀ j, blockEntry disk' n.dIndirectSector j = blockEntry disk n.dIndirectSector j :=
    blockEntry_congr fun hb => h .dIndirect rfl hb
  funext p
  cases p with
  | direct i => rfl
  | indirect => rfl
  | single j => exact blockEntry_congr (fun hb => h .indirect rfl hb) j
  | dIndirect => rfl
  | block j => exact hblock j
  | double j l =>
    simp only [Inode.ptr, hblock]
    exact blockEntry_congr (fun hb => h (.block j) rfl hb) l

theorem ptr_setDirect (disk : ℕ → Sector) (n : Inode) (i : Fin 11) (x : ℕ) :
    Inode.ptr disk { n with dataSectors := Function.update n.dataSectors i x } =
      Function.update (n.ptr disk) (.direct i) x := by
  funext p
  cases p <;> simp [Inode.ptr, Function.update_apply]

theorem ptr_setIndirect (hn : n.indirectSector = 0) (hzero : disk (lba28 x) = Block.zero) :
    Inode.ptr disk { n with indirectSector := x } = Function.update (n.ptr disk) .indirect x := by
  have hempty : ∀ j, blockEntry disk x j = 0 := fun j => by simp [blockEntry, hzero]
  funext p
  cases p <;> simp [Inode.ptr, hn, hempty]

theorem ptr_setDIndirect (hn : n.dIndirectSector = 0) (hzero : disk (lba28 x) = Block.zero) :
    Inode.ptr disk { n with dIndirectSector := x } = Function.update (n.ptr disk) .dIndirect x := by
  have hempty : ∀ j, blockEntry disk x j = 0 := fun j => by simp [blockEntry, hzero]
  funext p
  cases p <;> simp [Inode.ptr, hn, hempty]

def Place.inBlock : Place → Option (Place × ℕ)
  | .direct _ | .indirect | .dIndirect => none
  | .single j => some (.indirect, j)
  | .block j => some (.dIndirect, j)
  | .double j l => some (.block j, l)

theorem ptr_inBlock {p t : Place} {j : ℕ} (hp : p.inBlock = some (t, j)) :
    n.ptr disk p = blockEntry disk (n.ptr disk t) j := by
  cases p <;> cases hp <;> rfl

theorem Place.inBlock_isTable {p t : Place} {j : ℕ} (hp : p.inBlock = some (t, j)) :
    t.isTable = true := by
  cases p <;> cases hp <;> rfl

theorem Place.inBlock_inj {p q t : Place} {j : ℕ} (hp : p.inBlock = some (t, j))
    (hq : q.inBlock = some (t, j)) : p = q := by
  cases p <;> cases hp <;> cases q <;> cases hq <;> rfl

/-- The number of a sector is entered in a pointer block. When the new sector is itself a pointer
block, it is empty. -/
theorem ptr_setEntry {p t : Place} {j : ℕ} (hp : p.inBlock = some (t, j)) (hj : j < 128)
    (hx : x < 2 ^ 32) (ht : n.ptr disk t ≠ 0) (hfree : n.ptr disk p = 0)
    (hzero : p.isTable = true → disk (lba28 x) = Block.zero ∧ lba28 x ≠ lba28 (n.ptr disk t))
    (hinj : ∀ t', t'.isTable = true → n.ptr disk t' ≠ 0 → t' ≠ t →
      lba28 (n.ptr disk t') ≠ lba28 (n.ptr disk t)) :
    n.ptr (Function.update disk (lba28 (n.ptr disk t))
      ((disk (lba28 (n.ptr disk t))).setWord j x)) = Function.update (n.ptr disk) p x := by
  obtain ⟨disk', hdisk'⟩ : ∃ d, d = Function.update disk (lba28 (n.ptr disk t))
    ((disk (lba28 (n.ptr disk t))).setWord j x) := ⟨_, rfl⟩
  rw [← hdisk']
  have hself : ∀ k, blockEntry disk' (n.ptr disk t) k =
      if k = j then x else blockEntry disk (n.ptr disk t) k := by
    intro k
    rw [blockEntry_of_ne ht, blockEntry_of_ne ht, hdisk', Function.update_self]
    split_ifs with hk
    · rw [hk, Block.word_setWord_self (by omega) hx]
    · rw [Block.word_setWord_of_ne hk]
  have hother : ∀ t' k, t'.isTable = true → t' ≠ t →
      blockEntry disk' (n.ptr disk t') k = blockEntry disk (n.ptr disk t') k := by
    intro t' k htable hne
    refine blockEntry_congr (fun h0 => ?_) k
    rw [hdisk', Function.update_of_ne (hinj t' htable h0 hne)]
  have hstep : ∀ q t' k, q.inBlock = some (t', k) → n.ptr disk' t' = n.ptr disk t' →
      n.ptr disk' q = Function.update (n.ptr disk) p x q := by
    intro q t' k hq heq
    rw [ptr_inBlock hq, heq]
    by_cases hqp : q = p
    · subst hqp
      obtain ⟨rfl, rfl⟩ := Prod.mk.inj (Option.some.inj (hp.symm.trans hq))
      rw [hself, if_pos rfl, Function.update_self]
    · rw [Function.update_of_ne hqp, ptr_inBlock hq]
      by_cases htt : t' = t
      · subst htt
        rw [hself, if_neg]
        rintro rfl
        exact hqp (Place.inBlock_inj hq hp)
      · exact hother t' k (Place.inBlock_isTable hq) htt
  have hroot : ∀ q, q.inBlock = none → q ≠ p := by
    rintro q hq rfl
    cases hp.symm.trans hq
  funext q
  cases q with
  | single k => exact hstep _ .indirect k rfl rfl
  | block k => exact hstep _ .dIndirect k rfl rfl
  | double k l =>
    have hblock := hstep (.block k) .dIndirect k rfl rfl
    by_cases hkp : .block k = p
    · -- the new block is empty
      have hempty : blockEntry disk' x l = 0 := by
        obtain ⟨hz, hne⟩ := hzero (hkp ▸ rfl)
        unfold blockEntry
        rw [hdisk', Function.update_of_ne hne, hz, Block.word_zero, ite_self]
      rw [← hkp, Function.update_self] at hblock
      rw [Function.update_of_ne (hkp ▸ Place.noConfusion), ptr_inBlock (t := .block k) rfl, hblock,
        ptr_inBlock (p := .double k l) rfl, hkp, hfree, hempty, blockEntry_zero]
    · rw [Function.update_of_ne hkp] at hblock
      exact hstep _ (.block k) l rfl hblock
  | direct i =>
    rw [Function.update_of_ne (hroot _ rfl)]
    rfl
  | indirect =>
    rw [Function.update_of_ne (hroot _ rfl)]
    rfl
  | dIndirect =>
    rw [Function.update_of_ne (hroot _ rfl)]
    rfl

end ptr

/-- The sector that `get_sector_for_rw` finds when it only reads: a pointer block that is missing
is looked up in sector 0. -/
def Inode.lookup (disk : ℕ → Sector) (n : Inode) (i : ℕ) : ℕ :=
  if i ≥ maxFileSectors then 0
  else if h : i < 11 then n.dataSectors ⟨i, h⟩
  else if i < 128 + 11 then (disk (lba28 n.indirectSector)).word (i - 11)
  else
    let block := (disk (lba28 n.dIndirectSector)).word ((i - (128 + 11)) / 128)
    (disk (lba28 block)).word ((i - (128 + 11)) % 128)

section lookup
variable {s : Storage} {n : Inode} {i : ℕ}

theorem getBlock_read (s : Storage) (block : ℕ) : getBlock s block false = some (s, block) := rfl

theorem getBlockEntry_read (hc : s.Coherent) (block idx : ℕ) :
    getBlockEntry s block idx false =
      some (s.efficientReadSector block, (s.disk (lba28 block)).word idx) := by
  rw [← buffer_efficientReadSector hc]
  rfl

theorem getSectorForRw_read (hc : s.Coherent) (n : Inode) (i : ℕ) :
    ∃ s', getSectorForRw s n i false = some (s', n, n.lookup s.disk i) ∧ s'.disk = s.disk ∧
      s'.header = s.header ∧ s'.Coherent := by
  have hmax : maxFileSectors = 128 * 128 + 128 + 11 := by decide
  unfold getSectorForRw Inode.lookup
  rw [hmax]
  by_cases h₁ : i ≥ 128 * 128 + 128 + 11
  · rw [if_pos h₁, if_pos h₁]
    exact ⟨s, rfl, rfl, rfl, hc⟩
  rw [if_neg h₁, if_neg h₁]
  by_cases h₂ : i ≥ 128 + 11
  · have hsub : i - (11 + 128) = i - (128 + 11) := by omega
    rw [if_pos h₂, dif_neg (by omega), if_neg (by omega), hsub, getBlock_read, Option.bind_eq_bind,
      Option.bind_some]
    dsimp only
    rw [getBlockEntry_read hc, Option.bind_some]
    dsimp only
    rw [getBlockEntry_read (hc.efficientReadSector _), Option.bind_some, disk_efficientReadSector]
    exact ⟨_, rfl, by simp, by simp, (hc.efficientReadSector _).efficientReadSector _⟩
  rw [if_neg h₂]
  by_cases h₃ : i < 11
  · rw [dif_pos h₃, dif_pos h₃]
    exact ⟨s, rfl, rfl, rfl, hc⟩
  · rw [dif_neg h₃, dif_neg h₃, if_pos (by omega)]
    simp only [getBlock_read, getBlockEntry_read hc, Option.bind_eq_bind, Option.bind_some]
    exact ⟨_, rfl, by simp, by simp, hc.efficientReadSector _⟩

theorem lookup_eq_ptr {disk : ℕ → Sector} (hi : i < maxFileSectors)
    (h : ∀ t ∈ (dataPlace i).tables, n.ptr disk t ≠ 0) :
    n.lookup disk i = n.ptr disk (dataPlace i) := by
  unfold Inode.lookup
  rw [if_neg (Nat.not_le.mpr hi)]
  unfold dataPlace at h ⊢
  by_cases h₁ : i < 11
  · rw [dif_pos h₁, dif_pos h₁]
    rfl
  rw [dif_neg h₁] at h
  rw [dif_neg h₁, dif_neg h₁]
  by_cases h₂ : i < 128 + 11
  · rw [if_pos h₂] at h
    rw [if_pos h₂, if_pos h₂]
    exact (blockEntry_of_ne (h .indirect List.mem_cons_self) _).symm
  · rw [if_neg h₂] at h
    rw [if_neg h₂, if_neg h₂]
    have hd : n.dIndirectSector ≠ 0 := h .dIndirect List.mem_cons_self
    have hb := h (.block ((i - (128 + 11)) / 128)) (List.mem_cons_of_mem _ List.mem_cons_self)
    simp only [Inode.ptr] at hb ⊢
    rw [blockEntry_of_ne hb, blockEntry_of_ne hd]

theorem ptr_tables {disk : ℕ → Sector} {p : Place} (h : n.ptr disk p ≠ 0) :
    ∀ t ∈ p.tables, n.ptr disk t ≠ 0 := by
  have hblock : ∀ b j, blockEntry disk b j ≠ 0 → b ≠ 0 := by
    rintro b j hne rfl
    exact hne (blockEntry_zero disk j)
  intro t ht
  cases p with
  | direct i => cases ht
  | indirect => cases ht
  | dIndirect => cases ht
  | single j =>
    obtain rfl := List.mem_singleton.mp ht
    exact hblock _ _ h
  | block j =>
    obtain rfl := List.mem_singleton.mp ht
    exact hblock _ _ h
  | double j l =>
    have hb : n.ptr disk (.block j) ≠ 0 := hblock _ _ h
    rcases List.mem_cons.mp ht with rfl | ht
    · exact hblock _ _ hb
    · obtain rfl := List.mem_singleton.mp ht
      exact hb

theorem lt_maxFileSectors {disk : ℕ → Sector} (h : n.ptr disk (dataPlace i) ≠ 0) : i < maxFileSectors := by
  have hmax : maxFileSectors = 128 * 128 + 128 + 11 := by decide
  by_contra hge
  rw [hmax] at hge
  have hplace : dataPlace i =
      .double ((i - (128 + 11)) / 128) ((i - (128 + 11)) % 128) := by
    unfold dataPlace
    rw [dif_neg (by omega), if_neg (by omega)]
  have hentry : ∀ b j, 128 ≤ j → blockEntry disk b j = 0 := by
    intro b j hj
    unfold blockEntry
    split_ifs
    · rfl
    · unfold Block.word Block.wordAt Block.byte
      rw [dif_neg (by omega), dif_neg (by omega), dif_neg (by omega), dif_neg (by omega)]
      rfl
  rw [hplace] at h
  unfold Inode.ptr at h
  dsimp only at h
  rw [hentry _ ((i - (128 + 11)) / 128) (by omega), blockEntry_zero] at h
  exact h rfl

end lookup

end BrickOS.Filesystem
