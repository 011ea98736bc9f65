import BrickOS.Filesystem.WriteFile
import BrickOS.Filesystem.Deletion
import BrickOS.Lib.Run

/-! Open files as arrays of bytes. Every write and seek through a handle does to the stored files
what it does to the arrays, and a read returns a piece of the array. -/
namespace BrickOS.Filesystem
open BrickOS.Lib

structure OpenFiles where
  fs : Fs
  handles : ℕ → Option OpenFile

inductive FileCall where
  | write (handle : ℕ) (bytes : List UInt8)
  | seek (handle offset : ℕ) (whence : Whence)

def FileCall.step (st : OpenFiles) : FileCall → Option OpenFiles
  | .write handle bytes => do
    let file ← st.handles handle
    let inode ← st.fs.getInodeById file.inodeId
    let (s, inode, result) ← fsWrite st.fs.storage inode file bytes
    match result with
    | .ok _ => return { st with fs := { st.fs.setInode inode with storage := s } }
    | .error _ => none
  | .seek handle offset whence => do
    let file ← st.handles handle
    let inode ← st.fs.getInodeById file.inodeId
    return { st with
      handles := Function.update st.handles handle (some (fsSeek file inode offset whence)) }

/-- What the files are for: an array of bytes for each of them, and a position for each handle. -/
structure FileModel where
  data : ℕ → Option (List UInt8)
  handles : ℕ → Option OpenFile

def writeAt (data : List UInt8) (pos : ℕ) (bytes : List UInt8) : List UInt8 :=
  data.take pos ++ bytes ++ data.drop (pos + bytes.length)

def FileCall.spec (m : FileModel) : FileCall → Option FileModel
  | .write handle bytes => do
    let file ← m.handles handle
    let data ← m.data file.inodeId
    let pos := if file.flags &&& fileFlagAppend ≠ 0 then data.length else file.rwPointer
    return { m with data := Function.update m.data file.inodeId (some (writeAt data pos bytes)) }
  | .seek handle offset whence => do
    let file ← m.handles handle
    let data ← m.data file.inodeId
    let pos := match whence with
      | .set => offset
      | .cur => (file.rwPointer + offset) % 2 ^ 32
      | .fromEnd => (data.length + offset) % 2 ^ 32
    return { m with
      handles := Function.update m.handles handle (some { file with rwPointer := min pos data.length }) }

def Inode.bytes (disk : ℕ → Sector) (n : Inode) : List UInt8 :=
  (List.range n.size).map (n.contentAt disk)

def OpenFiles.model (st : OpenFiles) : FileModel where
  data id := ((st.fs.getInodeById id).filter fun n => n.type ≠ fsTypeDir).map
    (Inode.bytes st.fs.storage.disk)
  handles := st.handles

structure OpenFiles.Laid (st : OpenFiles) : Prop where
  coherent : st.fs.storage.Coherent
  unique : (st.fs.inodes.map Inode.id).Nodup
  maps : ∀ n ∈ st.fs.inodes, st.fs.storage.Maps n
  disjoint : ∀ n ∈ st.fs.inodes, ∀ m ∈ st.fs.inodes, n.id ≠ m.id → ∀ x,
    n.Owns st.fs.storage.disk x → ¬ m.Owns st.fs.storage.disk x
  holeFree : ∀ n ∈ st.fs.inodes, n.type ≠ fsTypeDir → ∀ p < n.size,
    n.ptr st.fs.storage.disk (dataPlace (p / 512)) ≠ 0

/-- Besides, the maps are well formed, sector 0 is reserved, the handles are those of regular files,
and none of them is behind the end of its file. -/
structure OpenFiles.Sound (st : OpenFiles) : Prop extends st.Laid where
  wf : st.fs.storage.header.WellFormed
  zero : st.fs.storage.header.allocated 0 = true
  handles : ∀ handle file, st.handles handle = some file → ∃ n,
    st.fs.getInodeById file.inodeId = some n ∧ n.type ≠ fsTypeDir ∧ file.rwPointer ≤ n.size

theorem OpenFiles.Sound.ready {st : OpenFiles} (h : st.Sound) : st.fs.storage.Ready :=
  ⟨h.coherent, h.wf, h.zero⟩

def OpenFiles.Stores (st : OpenFiles) (m : FileModel) : Prop :=
  ∀ id data, m.data id = some data → ∃ n, st.fs.getInodeById id = some n ∧ n.size = data.length ∧
    ∀ file size, file.flags &&& fileFlagRead ≠ 0 → file.rwPointer + size ≤ n.size →
      ∃ s, fsRead st.fs.storage n file size =
        some (s, .ok ((data.drop file.rwPointer).take size))

section bytes
variable {disk disk' : ℕ → Sector} {n n' : Inode}

@[simp] theorem length_bytes (disk : ℕ → Sector) (n : Inode) : (n.bytes disk).length = n.size := by
  simp [Inode.bytes]

theorem getElem_bytes {i : ℕ} (h : i < (n.bytes disk).length) :
    (n.bytes disk)[i] = n.contentAt disk i := by
  simp [Inode.bytes]

theorem bytes_slice (disk : ℕ → Sector) (n : Inode) {pos size : ℕ} (h : pos + size ≤ n.size) :
    ((n.bytes disk).drop pos).take size =
      (List.range size).map fun i => n.contentAt disk (pos + i) := by
  apply List.ext_getElem
  · simp only [List.length_take, List.length_drop, length_bytes, List.length_map, List.length_range]
    omega
  · intro i h₁ h₂
    simp [getElem_bytes]

theorem bytes_overwrite {pos : ℕ} {bs : List UInt8} (hpos : pos ≤ n.size)
    (hsize : n'.size = max n.size (pos + bs.length))
    (hcontent : n'.contentAt disk' = overwrite (n.contentAt disk) pos bs) :
    n'.bytes disk' = writeAt (n.bytes disk) pos bs := by
  have htake : ((n.bytes disk).take pos).length = pos := by
    rw [List.length_take, length_bytes]
    omega
  apply List.ext_getElem
  · simp only [length_bytes, writeAt, List.length_append, List.length_take, List.length_drop]
    omega
  · intro i h₁ h₂
    rw [length_bytes] at h₁
    unfold writeAt at h₂ ⊢
    rw [getElem_bytes, hcontent]
    unfold overwrite
    by_cases hlt : i < pos
    · rw [if_neg (by omega), List.getElem_append_left (by rw [List.length_append]; omega),
        List.getElem_append_left (by omega), List.getElem_take, getElem_bytes]
    by_cases hin : i < pos + bs.length
    · rw [if_pos (by omega), List.getElem_append_left (by rw [List.length_append]; omega),
        List.getElem_append_right (by omega), List.getElem?_eq_getElem (by omega)]
      simp only [htake, Option.getD_some]
    · rw [if_neg (by omega), List.getElem_append_right (by rw [List.length_append]; omega)]
      simp only [List.length_append, htake, List.getElem_drop, getElem_bytes]
      congr 1
      omega

end bytes

section read
variable {s : Storage} {n : Inode}

/-- The loop of `fs_read` within a file without holes. -/
theorem fsReadLoop_holeFree (hc : s.Coherent)
    (hfree : ∀ p < n.size, n.ptr s.disk (dataPlace (p / 512)) ≠ 0) {k pos size : ℕ} (hk : size ≤ k)
    (hle : pos + size ≤ n.size) (acc : List UInt8) :
    ∃ s', fsReadLoop k s n pos size acc =
      some (s', .ok (acc ++ (List.range size).map fun i => n.contentAt s.disk (pos + i))) := by
  induction k generalizing s pos size acc with
  | zero =>
    obtain rfl := Nat.le_zero.mp hk
    refine ⟨s, ?_⟩
    rw [fsReadLoop, List.range_zero, List.map_nil, List.append_nil]
  | succ k ih =>
    rw [fsReadLoop]
    by_cases hsize : size = 0
    · refine ⟨s, ?_⟩
      rw [if_pos hsize, hsize, List.range_zero, List.map_nil, List.append_nil]
    have hptr := hfree pos (by omega)
    have hmax := lt_maxFileSectors hptr
    obtain ⟨s₁, hlookup, hdisk, hheader, hc₁⟩ := getSectorForRw_read hc n (pos / 512)
    rw [lookup_eq_ptr hmax (ptr_tables hptr)] at hlookup
    rw [if_neg hsize, if_neg (Nat.not_le.mpr hmax), hlookup, Option.bind_eq_bind, Option.bind_some]
    dsimp only
    rw [if_neg hptr, buffer_readSector, hdisk]
    obtain ⟨w, hw⟩ : ∃ w, w = min size (512 - pos % 512) := ⟨_, rfl⟩
    rw [← hw]
    have hchunk : ((List.range w).map fun i =>
        (s.disk (lba28 (n.ptr s.disk (dataPlace (pos / 512))))).byte (pos % 512 + i)) =
        (List.range w).map fun i => n.contentAt s.disk (pos + i) := by
      refine List.map_congr_left fun i hi => ?_
      have hiw := List.mem_range.mp hi
      have hdiv : (pos + i) / 512 = pos / 512 := by omega
      have hmod : (pos + i) % 512 = pos % 512 + i := by omega
      unfold Inode.contentAt
      rw [hdiv, hmod, if_neg hptr]
    have hdisk₂ : (s₁.readSector (n.ptr s.disk (dataPlace (pos / 512)))).disk = s.disk := hdisk
    obtain ⟨s', hs'⟩ := ih (s := s₁.readSector (n.ptr s.disk (dataPlace (pos / 512))))
      (Storage.readSector_coherent _ _) (by rwa [hdisk₂]) (show size - w ≤ k by omega)
      (show pos + w + (size - w) ≤ n.size by omega) (acc ++ (List.range w).map fun i => n.contentAt s.disk (pos + i))
    refine ⟨s', ?_⟩
    have hrange : List.range size =
        List.range w ++ (List.range (size - w)).map fun i => w + i := by
      rw [← List.range_add, Nat.add_sub_cancel' (by omega)]
    rw [hchunk, hs', hdisk₂, List.append_assoc, hrange, List.map_append, List.map_map]
    simp only [Function.comp_def, Nat.add_assoc]

/-- A piece of a file without holes is read as it is. -/
theorem fsRead_holeFree (hc : s.Coherent) (htype : n.type ≠ fsTypeDir)
    (hfree : ∀ p < n.size, n.ptr s.disk (dataPlace (p / 512)) ≠ 0) {file : OpenFile} {size : ℕ}
    (hflag : file.flags &&& fileFlagRead ≠ 0) (hle : file.rwPointer + size ≤ n.size) :
    ∃ s', fsRead s n file size =
      some (s', .ok (((n.bytes s.disk).drop file.rwPointer).take size)) := by
  have hall : (if size = fileReadAll then n.size else size) = size := by
    refine if_neg fun hsize => ?_
    -- no file is that long
    have hlong : fileReadAll = 4294967295 := by decide
    have hmax : maxFileSectors = 16523 := by decide
    have hlast := lt_maxFileSectors (hfree (n.size - 1) (by omega))
    omega
  obtain ⟨s', hs'⟩ := fsReadLoop_holeFree hc hfree (le_refl size) hle []
  refine ⟨s', ?_⟩
  unfold fsRead
  dsimp only
  rw [if_neg hflag, hall, if_neg htype, hs', bytes_slice _ _ hle, List.nil_append]

end read

section step
variable {st st' : OpenFiles} {c : FileCall}

structure Untouched (s : Storage) (m : Inode) (s' : Storage) : Prop where
  maps : s'.Maps m
  ptr : m.ptr s'.disk = m.ptr s.disk
  content : m.contentAt s'.disk = m.contentAt s.disk

theorem Grows.untouched {s s' : Storage} {n n' m : Inode} (h : Grows s n s' n') (hm : s.Maps m)
    (hdisj : ∀ x, m.Owns s.disk x → ¬ n.Owns s.disk x) : Untouched s m s' := by
  have hdisk : ∀ p, m.ptr s.disk p ≠ 0 → s'.disk (m.ptr s.disk p) = s.disk (m.ptr s.disk p) :=
    fun p hp => h.frame _ (hm.allocated p hp) (hdisj _ ⟨hp, p, rfl⟩)
  have hptr : m.ptr s'.disk = m.ptr s.disk := ptr_congr fun t _ h0 => by
    rw [hm.lba28 h0, hdisk t h0]
  refine ⟨⟨fun p hp => ?_, ?_⟩, hptr, ?_⟩
  · rw [hptr] at hp ⊢
    exact (h.allocated _).mpr (.inl (hm.allocated p hp))
  · rw [hptr]
    exact hm.inj
  · funext pos
    unfold Inode.contentAt
    dsimp only
    rw [hptr]
    by_cases h0 : m.ptr s.disk (dataPlace (pos / 512)) = 0
    · rw [if_pos h0, if_pos h0]
    · rw [if_neg h0, if_neg h0, hm.lba28 h0, hdisk _ h0]

/-- What a write that succeeds does to the file and to the others. -/
theorem write_cases {handle : ℕ} {bytes : List UInt8}
    (h : FileCall.step st (.write handle bytes) = some st') : ∃ file n n' s' k,
      st.handles handle = some file ∧ st.fs.getInodeById file.inodeId = some n ∧
      fsWrite st.fs.storage n file bytes = some (s', n', .ok k) ∧
      st' = { st with fs := { st.fs.setInode n' with storage := s' } } := by
  obtain ⟨file, hfile, h⟩ := Option.bind_eq_some_iff.mp h
  obtain ⟨n, hn, h⟩ := Option.bind_eq_some_iff.mp h
  obtain ⟨⟨s', n', result⟩, hwrite, h⟩ := Option.bind_eq_some_iff.mp h
  cases result with
  | error e => cases h
  | ok k => exact ⟨file, n, n', s', k, hfile, hn, hwrite, (Option.some.inj h).symm⟩

theorem seek_cases {handle offset : ℕ} {whence : Whence}
    (h : FileCall.step st (.seek handle offset whence) = some st') : ∃ file n,
      st.handles handle = some file ∧ st.fs.getInodeById file.inodeId = some n ∧
      st' = { st with
        handles := Function.update st.handles handle (some (fsSeek file n offset whence)) } := by
  obtain ⟨file, hfile, h⟩ := Option.bind_eq_some_iff.mp h
  obtain ⟨n, hn, h⟩ := Option.bind_eq_some_iff.mp h
  exact ⟨file, n, hfile, hn, (Option.some.inj h).symm⟩

structure WroteFile (st : OpenFiles) (n : Inode) (pos : ℕ) (bytes : List UInt8) (s' : Storage)
    (n' : Inode) : Prop where
  id_eq : n'.id = n.id
  type_eq : n'.type = n.type
  size_eq : n'.size = max n.size (pos + bytes.length)
  ready : s'.Ready
  maps : s'.Maps n'
  fresh : ∀ x, n'.Owns s'.disk x → n.Owns st.fs.storage.disk x ∨
    st.fs.storage.header.allocated x = false
  content : n'.contentAt s'.disk = overwrite (n.contentAt st.fs.storage.disk) pos bytes
  holeFree : ∀ p < n'.size, n'.ptr s'.disk (dataPlace (p / 512)) ≠ 0
  others : ∀ m ∈ st.fs.inodes, m.id ≠ n.id → Untouched st.fs.storage m s'

theorem ptr_withSize (disk : ℕ → Sector) (n : Inode) (size : ℕ) :
    Inode.ptr disk { n with size } = n.ptr disk := by
  funext p
  cases p <;> rfl

theorem contentAt_withSize (disk : ℕ → Sector) (n : Inode) (size : ℕ) :
    Inode.contentAt disk { n with size } = n.contentAt disk := by
  unfold Inode.contentAt
  rw [ptr_withSize]

/-- A write that succeeds, through a handle that is not behind the end of its file. -/
theorem OpenFiles.Sound.wroteFile (hs : st.Sound) {file : OpenFile} {n n' : Inode} {s' : Storage}
    {bytes : List UInt8} {k : ℕ} (hn : st.fs.getInodeById file.inodeId = some n)
    (htype : n.type ≠ fsTypeDir) (hpos : file.rwPointer ≤ n.size)
    (hwrite : fsWrite st.fs.storage n file bytes = some (s', n', .ok k)) :
    WroteFile st n (n.writeStart file) bytes s' n' := by
  have hmem : n ∈ st.fs.inodes := Keyed.mem_of_lookup hn
  have hflag : file.flags &&& fileFlagWrite ≠ 0 := by
    intro h0
    unfold fsWrite at hwrite
    rw [if_pos h0] at hwrite
    cases hwrite
  have hstart : n.writeStart file ≤ n.size := by
    unfold Inode.writeStart
    split_ifs
    · exact le_rfl
    · exact hpos
  obtain ⟨n₁, pos', hwrote, ⟨hfits, rfl, -⟩ | ⟨-, -, herror⟩⟩ :=
    fsWrite_wrote hs.ready (hs.maps n hmem) hflag htype hwrite
  · have hend := hwrote.end_eq
    have hsize := hwrote.size
    have hcontent := hwrote.content
    rw [List.take_of_length_le hfits] at hcontent
    refine ⟨congrArg Prod.fst hwrote.key, congrArg Prod.snd hwrote.key, ?_, hwrote.ready, ⟨?_, ?_⟩,
      ?_, ?_, ?_, ?_⟩
    · show max n₁.size pos' = _
      rw [hsize, hend, Nat.min_eq_left hfits]
    · rw [ptr_withSize]
      exact hwrote.maps.allocated
    · rw [ptr_withSize]
      exact hwrote.maps.inj
    · rintro x ⟨hx, p, hp⟩
      rw [ptr_withSize] at hp
      by_cases h0 : n.ptr st.fs.storage.disk p = 0
      · exact .inr (hp ▸ hwrote.fresh p h0 (hp.symm ▸ hx))
      · exact .inl ⟨hx, p, (hwrote.kept p h0).symm.trans hp⟩
    · rw [contentAt_withSize, hcontent]
    · intro p hp
      rw [ptr_withSize]
      by_cases hlt : p < n.size
      · have hfree := hs.holeFree n hmem htype p hlt
        rwa [hwrote.kept _ hfree]
      · have hp' : p < max n₁.size pos' := hp
        exact hwrote.present p (by omega) (by omega)
    · intro m hm hne
      exact hwrote.toGrows.untouched (hs.maps m hm) (hs.disjoint m hm n hmem hne)
  · cases herror

theorem getInodeById_setInode {fs : Fs} {n n' : Inode} {id : ℕ} (hn : fs.getInodeById id = some n)
    (hid : n'.id = n.id) (j : ℕ) :
    (fs.setInode n').getInodeById j = if j = id then some n' else fs.getInodeById j := by
  have hkey : n'.id = id := hid.trans (Keyed.key_of_lookup hn)
  unfold Fs.getInodeById Fs.setInode
  rw [Keyed.lookup_replace, hkey]
  by_cases hj : j = id
  · have hlookup : Keyed.lookup Inode.id fs.inodes id = some n := hn
    rw [if_pos hj, if_pos hj, hj, hlookup, Option.map_some]
  · rw [if_neg hj, if_neg hj]

theorem WroteFile.sound {file : OpenFile} {n n' : Inode} {s' : Storage} {pos : ℕ}
    {bytes : List UInt8} (hs : st.Sound) (hn : st.fs.getInodeById file.inodeId = some n)
    (hw : WroteFile st n pos bytes s' n') :
    OpenFiles.Sound { st with fs := { st.fs.setInode n' with storage := s' } } := by
  have hmem : n ∈ st.fs.inodes := Keyed.mem_of_lookup hn
  have hcases : ∀ m ∈ (st.fs.setInode n').inodes, m = n' ∨ m ∈ st.fs.inodes ∧ m.id ≠ n.id := by
    intro m hm
    exact hw.id_eq ▸ Keyed.mem_of_mem_replace hm
  -- a sector of another file is not one that was added
  have hdisj : ∀ m ∈ st.fs.inodes, m.id ≠ n.id → ∀ x, n'.Owns s'.disk x → ¬ m.Owns s'.disk x := by
    intro m hm hne x hx hmx
    have hptr := (hw.others m hm hne).ptr
    have hmx' : m.Owns st.fs.storage.disk x := by
      unfold Inode.Owns at hmx ⊢
      rwa [hptr] at hmx
    rcases hw.fresh x hx with hold | hfree
    · exact hs.disjoint n hmem m hm hne.symm x hold hmx'
    · cases hfree.symm.trans ((hs.maps m hm).owns_allocated hmx')
  refine ⟨⟨hw.ready.coherent, ?_, ?_, ?_, ?_⟩, hw.ready.wf, hw.ready.zero, ?_⟩
  · show ((Keyed.replace Inode.id st.fs.inodes n').map Inode.id).Nodup
    rw [Keyed.map_key_replace]
    exact hs.unique
  · intro m hm
    rcases hcases m hm with rfl | ⟨hm, hne⟩
    · exact hw.maps
    · exact (hw.others m hm hne).maps
  · intro m hm l hl hne x
    rcases hcases m hm with rfl | ⟨hm', hmn⟩ <;> rcases hcases l hl with rfl | ⟨hl', hln⟩
    · exact absurd rfl hne
    · exact hdisj l hl' hln x
    · exact fun hmx hlx => hdisj m hm' hmn x hlx hmx
    · show m.Owns s'.disk x → ¬ l.Owns s'.disk x
      unfold Inode.Owns
      rw [(hw.others m hm' hmn).ptr, (hw.others l hl' hln).ptr]
      exact hs.disjoint m hm' l hl' hne x
  · intro m hm htype p hp
    rcases hcases m hm with rfl | ⟨hm, hne⟩
    · exact hw.holeFree p hp
    · show m.ptr s'.disk _ ≠ 0
      rw [(hw.others m hm hne).ptr]
      exact hs.holeFree m hm htype p hp
  · intro handle' file' hfile'
    obtain ⟨m, hm, htype, hle⟩ := hs.handles handle' file' hfile'
    have hlookup := getInodeById_setInode hn hw.id_eq file'.inodeId
    by_cases hsame : file'.inodeId = file.inodeId
    · rw [if_pos hsame] at hlookup
      obtain rfl : m = n := by
        rw [hsame, hn] at hm
        exact (Option.some.inj hm).symm
      have hsize := hw.size_eq
      exact ⟨n', hlookup, hw.type_eq ▸ htype, by omega⟩
    · rw [if_neg hsame] at hlookup
      exact ⟨m, hlookup.trans hm, htype, hle⟩

theorem WroteFile.model {file : OpenFile} {n n' : Inode} {s' : Storage} {pos : ℕ}
    {bytes : List UInt8} (hn : st.fs.getInodeById file.inodeId = some n) (htype : n.type ≠ fsTypeDir)
    (hpos : pos ≤ n.size) (hw : WroteFile st n pos bytes s' n') :
    OpenFiles.model { st with fs := { st.fs.setInode n' with storage := s' } } =
      ⟨Function.update st.model.data file.inodeId
        (some (writeAt (n.bytes st.fs.storage.disk) pos bytes)), st.handles⟩ := by
  unfold OpenFiles.model
  congr 1
  funext id
  have hlookup := getInodeById_setInode hn hw.id_eq id
  show (((st.fs.setInode n').getInodeById id).filter _).map (Inode.bytes s'.disk) = _
  by_cases hid : id = file.inodeId
  · have htype' : n'.type ≠ fsTypeDir := hw.type_eq ▸ htype
    rw [hlookup, if_pos hid, hid, Function.update_self, Option.filter_some,
      if_pos (decide_eq_true htype'), Option.map_some,
      bytes_overwrite hpos hw.size_eq hw.content]
  · rw [hlookup, if_neg hid, Function.update_of_ne hid]
    refine Option.map_congr fun m hm => ?_
    have hm' := (Option.filter_eq_some_iff.mp hm).1
    have hne : m.id ≠ n.id := by
      rw [Keyed.key_of_lookup hm', Keyed.key_of_lookup hn]
      exact hid
    unfold Inode.bytes
    rw [(hw.others m (Keyed.mem_of_lookup hm') hne).content]

theorem OpenFiles.model_data {n : Inode} {id : ℕ} (hn : st.fs.getInodeById id = some n)
    (htype : n.type ≠ fsTypeDir) : st.model.data id = some (n.bytes st.fs.storage.disk) := by
  unfold OpenFiles.model
  dsimp only
  rw [hn, Option.filter_some, if_pos (decide_eq_true htype), Option.map_some]

theorem fileCall_step (hs : st.Sound) (h : FileCall.step st c = some st') :
    st'.Sound ∧ FileCall.spec st.model c = some st'.model := by
  cases c with
  | write handle bytes =>
    obtain ⟨file, n, n', s', k, hfile, hn, hwrite, rfl⟩ := write_cases h
    obtain ⟨m, hm, htype, hle⟩ := hs.handles handle file hfile
    obtain rfl := Option.some.inj (hm.symm.trans hn)
    have hw := hs.wroteFile hn htype hle hwrite
    have hpos : m.writeStart file ≤ m.size := by
      unfold Inode.writeStart
      split_ifs
      · exact le_rfl
      · exact hle
    have hfile' : st.model.handles handle = some file := hfile
    refine ⟨hw.sound hs hn, ?_⟩
    rw [hw.model hn htype hpos]
    unfold FileCall.spec
    dsimp only
    rw [hfile', Option.bind_eq_bind, Option.bind_some, OpenFiles.model_data hn htype,
      Option.bind_eq_bind, Option.bind_some, length_bytes]
    rfl
  | seek handle offset whence =>
    obtain ⟨file, n, hfile, hn, rfl⟩ := seek_cases h
    obtain ⟨m, hm, htype, hle⟩ := hs.handles handle file hfile
    obtain rfl := Option.some.inj (hm.symm.trans hn)
    have hfile' : st.model.handles handle = some file := hfile
    constructor
    · refine ⟨⟨hs.coherent, hs.unique, hs.maps, hs.disjoint, hs.holeFree⟩, hs.wf, hs.zero, ?_⟩
      intro handle' file' h'
      dsimp only at h'
      by_cases hsame : handle' = handle
      · rw [hsame, Function.update_self] at h'
        obtain rfl := Option.some.inj h'
        exact ⟨m, hn, htype, Nat.min_le_right _ _⟩
      · rw [Function.update_of_ne hsame] at h'
        exact hs.handles handle' file' h'
    · unfold FileCall.spec
      dsimp only
      rw [hfile', Option.bind_eq_bind, Option.bind_some, OpenFiles.model_data hn htype,
        Option.bind_eq_bind, Option.bind_some, length_bytes]
      cases whence <;> rfl

theorem OpenFiles.Sound.stores (hs : st.Sound) : st.Stores st.model := by
  intro id data hdata
  unfold OpenFiles.model at hdata
  obtain ⟨n, hn, rfl⟩ := Option.map_eq_some_iff.mp hdata
  obtain ⟨hn, htype⟩ := Option.filter_eq_some_iff.mp hn
  refine ⟨n, hn, (length_bytes _ _).symm, fun file size hflag hle => ?_⟩
  exact fsRead_holeFree hs.coherent (of_decide_eq_true htype)
    (hs.holeFree n (Keyed.mem_of_lookup hn) (of_decide_eq_true htype)) hflag hle

/-- Every run of writes and seeks on open files does to the stored files what it does to the arrays;
afterwards every piece of an array can be read, and the files have no holes. -/
theorem fileCalls_refine (calls : List FileCall) (hs : st.Sound)
    (h : run FileCall.step st calls = some st') :
    st'.Sound ∧ run FileCall.spec st.model calls = some st'.model ∧ st'.Stores st'.model := by
  induction calls generalizing st with
  | nil =>
    obtain rfl := Option.some.inj h
    exact ⟨hs, rfl, hs.stores⟩
  | cons c calls ih =>
    rw [run_cons] at h
    obtain ⟨st₁, h₁, h⟩ := Option.bind_eq_some_iff.mp h
    obtain ⟨hs₁, hspec⟩ := fileCall_step hs h₁
    obtain ⟨hs', hrun, hstores⟩ := ih hs₁ h
    refine ⟨hs', ?_, hstores⟩
    rw [run_cons, hspec, Option.bind_some, hrun]

end step

def emptyFileAt (pos : ℕ) : OpenFiles where
  fs := ⟨⟨smallHeader, ⟨fun _ => Block.zero, Block.zero, 0⟩⟩, [createInode 7 1 2 1], [], fun _ => []⟩
  handles := Function.update (fun _ => none) 3 (some ⟨fileFlagRead ||| fileFlagWrite, 1, pos⟩)

theorem ptr_createInode (disk : ℕ → Sector) (perms type privLvl id : ℕ) (p : Place) :
    (createInode perms type privLvl id).ptr disk p = 0 := by
  cases p <;> simp [createInode, Inode.ptr]

theorem emptyFileAt_laid (pos : ℕ) : (emptyFileAt pos).Laid where
  coherent := rfl
  unique := List.nodup_singleton _
  maps n hn := by
    obtain rfl := List.mem_singleton.mp hn
    exact ⟨fun p hp => absurd (ptr_createInode _ _ _ _ _ p) hp,
      fun p _ hp => absurd (ptr_createInode _ _ _ _ _ p) hp⟩
  disjoint n hn m hm hne := by
    obtain rfl := List.mem_singleton.mp hn
    obtain rfl := List.mem_singleton.mp hm
    exact absurd rfl hne
  holeFree n hn _ p hp := by
    obtain rfl := List.mem_singleton.mp hn
    exact absurd hp (Nat.not_lt_zero p)

theorem emptyFileAt_sound : (emptyFileAt 0).Sound where
  toLaid := emptyFileAt_laid 0
  wf := smallHeader_wellFormed
  zero := by decide +kernel
  handles handle file h := by
    unfold emptyFileAt at h
    dsimp only at h
    by_cases hsame : handle = 3
    · rw [hsame, Function.update_self] at h
      obtain rfl := Option.some.inj h
      exact ⟨_, rfl, by decide, Nat.zero_le _⟩
    · rw [Function.update_of_ne hsame] at h
      cases h

/-- Three bytes are written, and then one over the second of them. -/
theorem fileCalls_refine_two_writes : ∃ st', run FileCall.step (emptyFileAt 0)
      [.write 3 [1, 2, 3], .seek 3 1 .set, .write 3 [9]] = some st' ∧
    st'.model.data 1 = some [1, 9, 3] ∧ st'.Sound ∧ st'.Stores st'.model := by
  have hrun : (run FileCall.step (emptyFileAt 0)
      [.write 3 [1, 2, 3], .seek 3 1 .set, .write 3 [9]]).isSome = true := by
    decide +kernel
  obtain ⟨st', hrun⟩ := Option.isSome_iff_exists.mp hrun
  obtain ⟨hs, hspec, hstores⟩ := fileCalls_refine _ emptyFileAt_sound hrun
  refine ⟨st', hrun, ?_, hs, hstores⟩
  have hmodel : (run FileCall.spec (emptyFileAt 0).model
      [.write 3 [1, 2, 3], .seek 3 1 .set, .write 3 [9]]).bind (fun m => m.data 1) =
      some [1, 9, 3] := by
    decide +kernel
  rwa [hspec, Option.bind_some] at hmodel

/-- A handle that is behind the end of its file leaves a hole. -/
theorem fileCalls_leave_hole : (emptyFileAt 1000).Laid ∧ ∃ st',
    run FileCall.step (emptyFileAt 1000) [.write 3 [7]] = some st' ∧ ¬ st'.Laid := by
  have hrun : (run FileCall.step (emptyFileAt 1000) [.write 3 [7]]).map (fun st' =>
      st'.fs.inodes.map fun n => (n.type, n.size, n.ptr st'.fs.storage.disk (dataPlace 0))) =
      some [(1, 1001, 0)] := by
    decide +kernel
  obtain ⟨st', hrun, hdata⟩ := Option.map_eq_some_iff.mp hrun
  refine ⟨emptyFileAt_laid 1000, st', hrun, fun hlaid => ?_⟩
  obtain ⟨n, hn⟩ : ∃ n, st'.fs.inodes = [n] := List.length_eq_one_iff.mp (by
    rw [← List.length_map, hdata, List.length_singleton])
  rw [hn, List.map_singleton] at hdata
  obtain ⟨htype, hrest⟩ := Prod.mk.inj (List.cons.inj hdata).1
  obtain ⟨hsize, hptr⟩ := Prod.mk.inj hrest
  refine hlaid.holeFree n (hn ▸ List.mem_singleton_self n) ?_ 0 ?_ hptr
  · rw [htype]
    decide
  · rw [hsize]
    decide

end BrickOS.Filesystem
