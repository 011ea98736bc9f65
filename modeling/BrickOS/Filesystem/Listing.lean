import BrickOS.Filesystem.ActivePath
import BrickOS.Lib.ByteWriter
import Mathlib.Algebra.Order.BigOperators.Group.List

/-! `sys_getdents`: the entries of a directory as a stream of records. -/
namespace BrickOS.Filesystem
open BrickOS.Lib

structure DirEntry where
  id : ℕ
  name : List UInt8
deriving DecidableEq, Repr

def scanDirEntries (bytes : List UInt8) : ℕ → ℕ → Option (List DirEntry)
  | 0, _ => some []
  | k + 1, off => do
    let id ← bufferWord bytes off
    let len ← bytes[off + 4]?
    if off + 5 + len.toNat ≤ bytes.length then
      let rest ← scanDirEntries bytes k (off + 5 + len.toNat)
      return ⟨id, (bytes.drop (off + 5)).take len.toNat⟩ :: rest
    else none

structure Dirent where
  inodeId : ℕ
  len : ℕ
  type : ℕ
  name : List UInt8
deriving DecidableEq, Repr

def direntLen (name : List UInt8) : ℕ := 4 * 3 + name.length + 1

def direntType (type : ℕ) : ℕ :=
  if type = fsTypeVirtDir then fsTypeDir
  else if type = fsTypeVirtFile then fsTypeFile
  else type

def direntBytes (inode : Inode) (name : List UInt8) : List UInt8 :=
  le32 inode.id ++ le32 (direntLen name) ++ le32 (direntType inode.type) ++ (name ++ [0])

/-- `get_inode_by_id` of `get_inode_id_by_name`; without a name the id is -1, which no inode has. -/
def entryInode (fs : Fs) (dirId : ℕ) (name : List UInt8) : Option Inode :=
  (getInodeIdByName fs dirId (cString name)).bind fs.getInodeById

/-- The second loop of `sys_getdents`; `none` for a null pointer and for a write behind the
buffer. -/
def writeDirents (fs : Fs) (dirId : ℕ) : List (List UInt8) → ℕ → List UInt8 → Option (List UInt8)
  | [], _, buffer => some buffer
  | name :: names, bpos, buffer => do
    let inode ← entryInode fs dirId name
    let buffer ← (writeBytes buffer bpos (direntBytes inode name)).toOption
    writeDirents fs dirId names ((bpos + direntLen name) % 2 ^ 32) buffer

def totalSize (names : List (List UInt8)) : ℕ := (names.map direntLen).sum % 2 ^ 32

/-- `sys_getdents` with a buffer of the given size; `none` for a use of a null pointer, for a write
behind the buffer, and for a descriptor outside the table or without an `open_file_t`. -/
def Kernel.sysGetdents (k : Kernel) (tid fd : ℕ) (buffer : List UInt8) :
    Option (Kernel × Reply × List UInt8) :=
  if fd ≥ maxFds then none
  else match k.fileOf tid fd with
    | none => some (k, .fail, buffer)
    | some (_, .other) => none
    | some (_, .regular file _) => match k.fs.getInodeById file.inodeId with
      | none => some (k, .value 0, buffer)
      | some inode =>
        if !isDirectory inode then some (k, .value 0, buffer)
        else do
          let r ← k.namesIn inode
          let k := k.withStorage r.1
          if totalSize r.2 > buffer.length then return (k, .fail, buffer)
          let buffer ← writeDirents k.fs file.inodeId r.2 0 buffer
          return (k, .value r.2.length, buffer)

/-- A reader's walk over `n` records from `bpos` on, each of which has to end in the buffer and to
hold the zero byte of its name. -/
def walkDirents (buffer : List UInt8) : ℕ → ℕ → Option (List Dirent)
  | 0, _ => some []
  | n + 1, bpos => do
    let inodeId ← bufferWord buffer bpos
    let len ← bufferWord buffer (bpos + 4)
    let type ← bufferWord buffer (bpos + 8)
    let name := (buffer.drop (bpos + 12)).take (len - 12)
    if bpos + len ≤ buffer.length ∧ 0 ∈ name then
      let rest ← walkDirents buffer n (bpos + len)
      return ⟨inodeId, len, type, cString name⟩ :: rest
    else none

def Fs.VirtualEntries (fs : Fs) (dirId : ℕ) (names : List (List UInt8)) (entries : List DirEntry) :
    Prop :=
  entries.map DirEntry.name = names ∧
    ∀ e ∈ entries, (⟨dirId, e.id, e.name⟩ : InodeNamePair) ∈ fs.inodeNamePairs

inductive Kernel.Lists (k : Kernel) (dir : Inode) : List DirEntry → Prop
  | virtDir {names entries} (htype : dir.type = fsTypeVirtDir)
      (hnames : k.virtEntryNames dir.id = some names)
      (hentries : k.fs.VirtualEntries dir.id names entries) : k.Lists dir entries
  | empty (htype : dir.type = fsTypeDir)
      (hempty : dir.size < 4 ∨ (readDirEntriesToBuffer k.fs.storage dir).2 = none) :
      k.Lists dir []
  | dir {bytes n disk virt} (htype : dir.type = fsTypeDir) (hsize : 4 ≤ dir.size)
      (hbytes : (readDirEntriesToBuffer k.fs.storage dir).2 = some bytes)
      (hn : bufferWord bytes 0 = some n) (hdisk : scanDirEntries bytes n 4 = some disk)
      (hvirt : k.fs.VirtualEntries dir.id (k.fs.virtDirNames dir.id) virt) :
      k.Lists dir (disk ++ virt)

structure Fs.Describes (fs : Fs) (r : Dirent) (e : DirEntry) : Prop where
  inodeId : r.inodeId = e.id
  len : r.len = direntLen e.name
  type : ∃ n, fs.getInodeById e.id = some n ∧ r.type = direntType n.type
  name : r.name = cString e.name

/-- What `sys_getdents` is for: it fails and leaves the buffer alone, or a walk over the buffer
meets one record for each entry. -/
def Fs.Streamed (fs : Fs) (entries : List DirEntry) (buffer : List UInt8) (reply : Reply)
    (buffer' : List UInt8) : Prop :=
  reply = .fail ∧ buffer' = buffer ∨
    buffer'.length = buffer.length ∧ ∃ records,
      walkDirents buffer' entries.length 0 = some records ∧ List.Forall₂ fs.Describes records entries

def streamSize (entries : List DirEntry) : ℕ :=
  (entries.map fun e => direntLen e.name).sum

/-- There is no room for the records, as far as 32 bits tell, or their size fits into 32 bits and
the name table knows each entry by its name. -/
def Fs.StreamClear (fs : Fs) (dirId : ℕ) (entries : List DirEntry) (size : ℕ) : Prop :=
  size < streamSize entries % 2 ^ 32 ∨
    streamSize entries < 2 ^ 32 ∧
      ∀ e ∈ entries, getInodeIdByName fs dirId (cString e.name) = some e.id

def Fs.Widths (fs : Fs) : Prop := ∀ n ∈ fs.inodes, n.id < 2 ^ 32 ∧ n.type < 2 ^ 8

theorem scanNames_eq (bytes : List UInt8) (k off : ℕ) {entries : List DirEntry}
    (h : scanDirEntries bytes k off = some entries) :
    scanNames bytes k off = some (entries.map DirEntry.name) := by
  induction k generalizing off entries with
  | zero =>
    obtain rfl := Option.some.inj h
    rfl
  | succ k ih =>
    obtain ⟨id, -, h⟩ := Option.bind_eq_some_iff.mp h
    obtain ⟨len, hlen, h⟩ := Option.bind_eq_some_iff.mp h
    by_cases hle : off + 5 + len.toNat ≤ bytes.length
    · rw [if_pos hle] at h
      obtain ⟨rest, hrest, h⟩ := Option.bind_eq_some_iff.mp h
      obtain rfl := Option.some.inj h
      rw [scanNames, hlen, Option.bind_eq_bind, Option.bind_some, if_pos hle, ih _ hrest]
      rfl
    · rw [if_neg hle] at h
      cases h

theorem Kernel.Lists.namesIn {k : Kernel} {dir : Inode} {entries : List DirEntry}
    (h : k.Lists dir entries) : ∃ s, k.namesIn dir = some (s, entries.map DirEntry.name) := by
  have hne : fsTypeDir ≠ fsTypeVirtDir := by decide
  unfold Kernel.namesIn
  cases h with
  | virtDir htype hnames hentries =>
    rw [if_pos htype, hnames, hentries.1]
    exact ⟨_, rfl⟩
  | empty htype hempty =>
    rw [if_neg (htype ▸ hne), getAllNamesInDir, if_neg (not_not.mpr htype)]
    by_cases hsize : dir.size < 4
    · rw [if_pos hsize]
      exact ⟨_, rfl⟩
    · rw [if_neg hsize]
      simp only [hempty.resolve_left hsize]
      exact ⟨_, rfl⟩
  | dir htype hsize hbytes hn hdisk hvirt =>
    rw [if_neg (htype ▸ hne), getAllNamesInDir, if_neg (not_not.mpr htype),
      if_neg (Nat.not_lt.mpr hsize)]
    simp only [hbytes, hn, scanNames_eq _ _ _ hdisk, Option.bind_eq_bind, Option.bind_some]
    rw [List.map_append, hvirt.1]
    exact ⟨_, rfl⟩

section Stream
variable {fs : Fs} {dirId : ℕ}

@[simp] theorem length_direntBytes (inode : Inode) (name : List UInt8) :
    (direntBytes inode name).length = direntLen name := by
  simp only [direntBytes, direntLen, le32, List.length_append, List.length_cons, List.length_nil]
  omega

theorem direntType_lt {type : ℕ} (h : type < 2 ^ 32) : direntType type < 2 ^ 32 := by
  unfold direntType
  split
  · decide
  · split
    · decide
    · exact h

theorem totalSize_eq (entries : List DirEntry) :
    totalSize (entries.map DirEntry.name) = streamSize entries % 2 ^ 32 := by
  rw [totalSize, streamSize, List.map_map]
  rfl

def direntStream (l : List (Inode × List UInt8)) : List UInt8 :=
  l.flatMap fun p => direntBytes p.1 p.2

theorem length_direntStream (l : List (Inode × List UInt8)) :
    (direntStream l).length = (l.map fun p => direntLen p.2).sum := by
  rw [direntStream, List.length_flatMap]
  simp only [length_direntBytes]

/-- The loop lays the records down one after the other, as long as they fit. -/
theorem writeDirents_eq {l : List (Inode × List UInt8)}
    (hl : ∀ p ∈ l, entryInode fs dirId p.2 = some p.1) (a b c : List UInt8)
    (hb : b.length = (direntStream l).length) (hlt : a.length + b.length < 2 ^ 32) :
    writeDirents fs dirId (l.map Prod.snd) a.length (a ++ b ++ c) =
      some (a ++ direntStream l ++ c) := by
  induction l generalizing a b with
  | nil =>
    obtain rfl := List.eq_nil_of_length_eq_zero hb
    rfl
  | cons p l ih =>
    have hlen : b.length = direntLen p.2 + (direntStream l).length := by
      rw [hb, direntStream, List.flatMap_cons, List.length_append, length_direntBytes]
      rfl
    obtain ⟨b₁, b₂, rfl, hb₁, hb₂⟩ := exists_append_of_length hlen
    have hwrite : writeBytes (a ++ (b₁ ++ b₂) ++ c) a.length (direntBytes p.1 p.2) =
        .ok (a ++ direntBytes p.1 p.2 ++ b₂ ++ c) := by
      rw [← List.append_assoc a, List.append_assoc (a ++ b₁), writeBytes_append rfl
        (hb₁.trans (length_direntBytes _ _).symm), ← List.append_assoc]
    have hpos : (a.length + direntLen p.2) % 2 ^ 32 = (a ++ direntBytes p.1 p.2).length := by
      rw [List.length_append, length_direntBytes, Nat.mod_eq_of_lt]
      rw [List.length_append] at hlt
      omega
    have hrest : (a ++ direntBytes p.1 p.2).length + b₂.length < 2 ^ 32 := by
      rw [List.length_append, length_direntBytes]
      rw [List.length_append] at hlt
      omega
    rw [List.map_cons, writeDirents, hl p List.mem_cons_self, Option.bind_eq_bind, Option.bind_some,
      hwrite, Except.toOption, Option.bind_eq_bind, Option.bind_some, hpos,
      ih (fun q hq => hl q (List.mem_cons_of_mem _ hq)) _ _ hb₂ hrest, List.append_assoc a]
    rfl

/-- Records that do not fit make the loop leave the buffer. -/
theorem writeDirents_overflow (fs : Fs) (dirId : ℕ) (names : List (List UInt8)) (bpos : ℕ)
    (buffer : List UInt8)
    (hbuffer : buffer.length < 2 ^ 32) (hpos : bpos ≤ buffer.length)
    (h : buffer.length < bpos + (names.map direntLen).sum) :
    writeDirents fs dirId names bpos buffer = none := by
  induction names generalizing bpos buffer with
  | nil =>
    rw [List.map_nil, List.sum_nil] at h
    omega
  | cons name names ih =>
    rw [List.map_cons, List.sum_cons] at h
    rw [writeDirents]
    cases hinode : entryInode fs dirId name with
    | none => rfl
    | some inode =>
      rw [Option.bind_eq_bind, Option.bind_some]
      by_cases hfits : bpos + (direntBytes inode name).length ≤ buffer.length
      · obtain ⟨buffer', hwrite⟩ : ∃ b, writeBytes buffer bpos (direntBytes inode name) = .ok b :=
          ⟨_, writeBytes_of_le hfits⟩
        have hlen := (writeBytes_eq_ok hwrite).2
        rw [length_direntBytes] at hfits
        rw [hwrite, Except.toOption, Option.bind_eq_bind, Option.bind_some,
          Nat.mod_eq_of_lt (by omega)]
        exact ih _ _ (by omega) (by omega) (by omega)
      · rw [writeBytes, if_neg hfits]
        rfl

theorem bufferWord_append (a c : List UInt8) {v : ℕ} (hv : v < 2 ^ 32) :
    bufferWord (a ++ (le32 v ++ c)) a.length = some v := by
  have hle : a.length + 4 ≤ (a ++ (le32 v ++ c)).length := by
    simp only [List.length_append, le32, List.length_cons, List.length_nil]
    omega
  have hbyte : ∀ i (h : i < 4), (a ++ (le32 v ++ c)).getD (a.length + i) 0 =
      (le32 v).get ⟨i, h⟩ := by
    intro i h
    rw [List.getD_append_right _ _ _ _ (Nat.le_add_right _ _), Nat.add_sub_cancel_left,
      List.getD_append _ _ _ _ h, List.getD_eq_getElem _ _ h]
    rfl
  rw [bufferWord, if_pos hle]
  have h0 := hbyte 0 (by omega)
  rw [Nat.add_zero] at h0
  rw [h0, hbyte 1 (by omega), hbyte 2 (by omega), hbyte 3 (by omega)]
  simp only [le32, List.get_eq_getElem, List.getElem_cons_zero, List.getElem_cons_succ,
    UInt8.toNat_ofNat', Option.some.injEq]
  omega

theorem cString_append_zero (name : List UInt8) : cString (name ++ [0]) = cString name := by
  induction name with
  | nil => rfl
  | cons b name ih =>
    rw [cString, cString, List.cons_append, List.takeWhile_cons, List.takeWhile_cons]
    split
    · rw [← cString, ← cString, ih]
    · rfl

def direntOf (p : Inode × List UInt8) : Dirent :=
  ⟨p.1.id, direntLen p.2, direntType p.1.type, cString p.2⟩

theorem walkDirents_stream {l : List (Inode × List UInt8)} (a c : List UInt8)
    (hwidth : ∀ p ∈ l, p.1.id < 2 ^ 32 ∧ direntType p.1.type < 2 ^ 32 ∧ direntLen p.2 < 2 ^ 32) :
    walkDirents (a ++ direntStream l ++ c) l.length a.length = some (l.map direntOf) := by
  induction l generalizing a with
  | nil => rfl
  | cons p l ih =>
    obtain ⟨hid, htype, hlen⟩ := hwidth p List.mem_cons_self
    -- the buffer, split where the walk reads
    obtain ⟨rest, hrest⟩ : ∃ r, r = direntStream l ++ c := ⟨_, rfl⟩
    have hbuffer : a ++ direntStream (p :: l) ++ c = a ++ (le32 p.1.id ++ (le32 (direntLen p.2) ++
        (le32 (direntType p.1.type) ++ ((p.2 ++ [0]) ++ rest)))) := by
      rw [hrest, direntStream, List.flatMap_cons, direntBytes]
      simp only [List.append_assoc]
      rfl
    have hword : ∀ v : ℕ, (le32 v).length = 4 := fun _ => rfl
    have hread₀ : bufferWord (a ++ direntStream (p :: l) ++ c) a.length = some p.1.id := by
      rw [hbuffer, bufferWord_append _ _ hid]
    have hread₁ : bufferWord (a ++ direntStream (p :: l) ++ c) (a.length + 4) =
        some (direntLen p.2) := by
      rw [hbuffer, ← List.append_assoc a, ← hword p.1.id, ← List.length_append,
        bufferWord_append _ _ hlen]
    have hread₂ : bufferWord (a ++ direntStream (p :: l) ++ c) (a.length + 8) =
        some (direntType p.1.type) := by
      rw [hbuffer, ← List.append_assoc a, ← List.append_assoc (a ++ le32 p.1.id),
        show a.length + 8 = (a ++ le32 p.1.id ++ le32 (direntLen p.2)).length by
          rw [List.length_append, List.length_append, hword, hword], bufferWord_append _ _ htype]
    have hname : ((a ++ direntStream (p :: l) ++ c).drop (a.length + 12)).take
        (direntLen p.2 - 12) = p.2 ++ [0] := by
      have hpre : a.length + 12 = (a ++ (le32 p.1.id ++ (le32 (direntLen p.2) ++
          le32 (direntType p.1.type)))).length := by
        simp only [List.length_append, hword]
      have htake : direntLen p.2 - 12 = (p.2 ++ [0]).length := by
        rw [direntLen, List.length_append, List.length_singleton]
        omega
      have hassoc : ∀ u v w x y : List UInt8, a ++ (u ++ (v ++ (w ++ (x ++ y)))) =
          (a ++ (u ++ (v ++ w))) ++ (x ++ y) := by simp
      rw [hbuffer, hassoc, hpre, List.drop_left, htake, List.take_left]
    have hend : a.length + direntLen p.2 = (a ++ direntBytes p.1 p.2).length := by
      rw [List.length_append, length_direntBytes]
    have hsplit : a ++ direntStream (p :: l) ++ c =
        (a ++ direntBytes p.1 p.2) ++ direntStream l ++ c := by
      rw [direntStream, List.flatMap_cons, ← List.append_assoc]
      rfl
    have hfits : a.length + direntLen p.2 ≤ (a ++ direntStream (p :: l) ++ c).length := by
      rw [hend, hsplit, List.append_assoc (a ++ _)]
      exact (List.sublist_append_left _ _).length_le
    rw [List.length_cons, walkDirents, hread₀, hread₁, hread₂]
    simp only [Option.bind_eq_bind, Option.bind_some, hname]
    rw [if_pos ⟨hfits, by simp⟩, hend, hsplit,
      ih _ fun q hq => hwidth q (List.mem_cons_of_mem _ hq), cString_append_zero]
    rfl

def foundInode (fs : Fs) (dirId : ℕ) (e : DirEntry) : Inode :=
  (entryInode fs dirId e.name).getD (createInode 0 0 0 0)

theorem foundInode_eq {e : DirEntry} (h : (entryInode fs dirId e.name).isSome) :
    entryInode fs dirId e.name = some (foundInode fs dirId e) := by
  obtain ⟨n, hn⟩ := Option.isSome_iff_exists.mp h
  rw [foundInode, hn, Option.getD_some]

theorem describes_iff {e : DirEntry} {n : Inode} (h : entryInode fs dirId e.name = some n) :
    fs.Describes (direntOf (n, e.name)) e ↔
      getInodeIdByName fs dirId (cString e.name) = some e.id := by
  obtain ⟨id, hid, hn⟩ := Option.bind_eq_some_iff.mp h
  have heq : n.id = id := Fs.id_of_getInodeById hn
  constructor
  · intro hd
    rw [hid, ← heq]
    exact congrArg some hd.inodeId
  · intro he
    obtain rfl := Option.some.inj (hid.symm.trans he)
    exact ⟨heq, rfl, ⟨n, hn, rfl⟩, rfl⟩

end Stream

theorem writeDirents_withStorage (k : Kernel) (s : Storage) (dirId : ℕ) (names : List (List UInt8))
    (bpos : ℕ) (buffer : List UInt8) :
    writeDirents (k.withStorage s).fs dirId names bpos buffer =
      writeDirents k.fs dirId names bpos buffer := by
  induction names generalizing bpos buffer with
  | nil => rfl
  | cons name names ih =>
    simp only [writeDirents, ih]
    rfl

theorem Kernel.Lists.isDirectory {k : Kernel} {dir : Inode} {entries : List DirEntry}
    (h : k.Lists dir entries) : Kernel.isDirectory dir = true := by
  cases h with
  | virtDir htype => simp [Kernel.isDirectory, htype]
  | empty htype => simp [Kernel.isDirectory, htype]
  | dir htype => simp [Kernel.isDirectory, htype]

section Getdents
variable {k : Kernel} {tid fd pid : ℕ} {file : OpenFile} {ref : InodeRef} {dir : Inode}
  {entries : List DirEntry} {buffer : List UInt8}

theorem sysGetdents_eq (buffer : List UInt8) (hfile : k.fileOf tid fd = some (pid, .regular file ref))
    (hdir : k.fs.getInodeById file.inodeId = some dir) (hlist : k.Lists dir entries) :
    ∃ s, k.sysGetdents tid fd buffer =
      if streamSize entries % 2 ^ 32 > buffer.length then some (k.withStorage s, .fail, buffer)
      else (writeDirents k.fs dir.id (entries.map DirEntry.name) 0 buffer).map fun b =>
        (k.withStorage s, .value entries.length, b) := by
  obtain ⟨s, hnames⟩ := hlist.namesIn
  have hfd : ¬ fd ≥ maxFds := by
    intro hge
    obtain ⟨t, -, h⟩ := Option.bind_eq_some_iff.mp hfile
    obtain ⟨p, -, h⟩ := Option.bind_eq_some_iff.mp h
    rw [if_pos hge] at h
    cases h
  have hnot : ¬ (!Kernel.isDirectory dir) = true := by
    rw [hlist.isDirectory]
    decide
  refine ⟨s, ?_⟩
  rw [Kernel.sysGetdents, if_neg hfd, hfile]
  simp only [hdir]
  rw [if_neg hnot, hnames, Option.bind_eq_bind, Option.bind_some]
  simp only [totalSize_eq, writeDirents_withStorage, Fs.id_of_getInodeById hdir, List.length_map]
  split
  · rfl
  · rw [Option.map_eq_bind]
    rfl

/-- `sys_getdents` streams a directory whose names are all found: it stays within the buffer, and
each record is that of the entry exactly if every entry is found under its own name. -/
theorem sysGetdents_streamed (hfile : k.fileOf tid fd = some (pid, .regular file ref))
    (hdir : k.fs.getInodeById file.inodeId = some dir) (hlist : k.Lists dir entries)
    (hfound : ∀ e ∈ entries, (entryInode k.fs dir.id e.name).isSome) (hwidths : k.fs.Widths)
    (hbuffer : buffer.length < 2 ^ 32) :
    (∃ k' reply buffer', k.sysGetdents tid fd buffer = some (k', reply, buffer') ∧
        k.fs.Streamed entries buffer reply buffer') ↔
      k.fs.StreamClear dir.id entries buffer.length := by
  obtain ⟨s, heq⟩ := sysGetdents_eq buffer hfile hdir hlist
  by_cases hroom : buffer.length < streamSize entries % 2 ^ 32
  · rw [if_pos hroom] at heq
    exact ⟨fun _ => .inl hroom, fun _ => ⟨_, _, _, heq, .inl ⟨rfl, rfl⟩⟩⟩
  rw [if_neg hroom] at heq
  have hnames : entries.map DirEntry.name =
      (entries.map fun e => (foundInode k.fs dir.id e, e.name)).map Prod.snd := by
    rw [List.map_map]
    rfl
  have hsize : (direntStream (entries.map fun e => (foundInode k.fs dir.id e, e.name))).length =
      streamSize entries := by
    rw [length_direntStream, List.map_map]
    rfl
  by_cases hfits : streamSize entries ≤ buffer.length
  · -- the records and what is left of the buffer
    obtain ⟨b, c, rfl, hb, -⟩ := exists_append_of_length (Nat.add_sub_cancel' hfits).symm
    have hlt : streamSize entries < 2 ^ 32 := hfits.trans_lt hbuffer
    have hfoundIn : ∀ p ∈ entries.map fun e => (foundInode k.fs dir.id e, e.name),
        entryInode k.fs dir.id p.2 = some p.1 := by
      intro p hp
      obtain ⟨e, he, rfl⟩ := List.mem_map.mp hp
      exact foundInode_eq (hfound e he)
    have hwrite := writeDirents_eq hfoundIn [] b c (hb.trans hsize.symm) (by simpa [hb] using hlt)
    have hwidth : ∀ p ∈ entries.map fun e => (foundInode k.fs dir.id e, e.name),
        p.1.id < 2 ^ 32 ∧ direntType p.1.type < 2 ^ 32 ∧ direntLen p.2 < 2 ^ 32 := by
      intro p hp
      obtain ⟨n, -, hn⟩ := Option.bind_eq_some_iff.mp (hfoundIn p hp)
      obtain ⟨hid, htype⟩ := hwidths _ (Fs.mem_of_getInodeById hn)
      obtain ⟨e, he, rfl⟩ := List.mem_map.mp hp
      have hle : direntLen e.name ≤ streamSize entries :=
        List.le_sum_of_mem (List.mem_map_of_mem he)
      exact ⟨hid, direntType_lt (htype.trans (by decide)), hle.trans_lt hlt⟩
    have hwalk := walkDirents_stream [] c hwidth
    rw [List.length_map, List.map_map] at hwalk
    rw [← hnames, List.length_nil, List.nil_append] at hwrite
    rw [hwrite, Option.map_some] at heq
    have hdescribed : List.Forall₂ k.fs.Describes
        (entries.map (direntOf ∘ fun e => (foundInode k.fs dir.id e, e.name))) entries ↔
          ∀ e ∈ entries, getInodeIdByName k.fs dir.id (cString e.name) = some e.id := by
      rw [List.forall₂_map_left_iff, List.forall₂_same]
      exact forall₂_congr fun e he => describes_iff (foundInode_eq (hfound e he))
    constructor
    · rintro ⟨k', reply, buffer', hcall, hfail | ⟨-, records, hrecords, hall⟩⟩
      · obtain ⟨-, hr⟩ := Prod.mk.inj (Option.some.inj (heq.symm.trans hcall))
        rw [← (Prod.mk.inj hr).1] at hfail
        cases hfail.1
      · obtain ⟨-, hr⟩ := Prod.mk.inj (Option.some.inj (heq.symm.trans hcall))
        rw [← (Prod.mk.inj hr).2] at hrecords
        obtain rfl := Option.some.inj (hwalk.symm.trans hrecords)
        exact .inr ⟨hlt, hdescribed.mp hall⟩
    · intro hclear
      refine ⟨_, _, _, heq, .inr ⟨?_, _, hwalk, hdescribed.mpr (hclear.resolve_left hroom).2⟩⟩
      rw [List.nil_append, List.length_append, List.length_append, hsize, hb]
  · -- the sum of the sizes has wrapped round
    have hover := writeDirents_overflow k.fs dir.id (entries.map DirEntry.name) 0 buffer
      hbuffer (Nat.zero_le _) (by
        rw [List.map_map, Nat.zero_add]
        exact Nat.not_le.mp hfits)
    rw [hover, Option.map_none] at heq
    constructor
    · rintro ⟨k', reply, buffer', hcall, -⟩
      cases heq.symm.trans hcall
    · rintro (hlt | ⟨hlt, -⟩)
      · exact absurd hlt hroom
      · rw [Nat.mod_eq_of_lt hlt] at hroom
        exact absurd hfits (not_not.mpr (Nat.not_lt.mp hroom))

end Getdents

def rootOpenKernel (fs : Fs) : Kernel :=
  { kernelInOne fs with
    processes := fun _ => some
      ⟨privStd, fun _ => some (.regular ⟨fileFlagRead, fsRootDirId, 0⟩ ⟨fsRootDirId, 0⟩)⟩ }

def entriesOnDisk (fs : Fs) (dir : Inode) : Option (List DirEntry) := do
  let bytes ← (readDirEntriesToBuffer fs.storage dir).2
  let n ← bufferWord bytes 0
  scanDirEntries bytes n 4

theorem Kernel.Lists.of_entriesOnDisk {k : Kernel} {dir : Inode} {entries : List DirEntry}
    (htype : dir.type = fsTypeDir) (hsize : 4 ≤ dir.size)
    (hvirt : k.fs.virtDirNames dir.id = []) (h : entriesOnDisk k.fs dir = some entries) :
    k.Lists dir entries := by
  obtain ⟨bytes, hbytes, h⟩ := Option.bind_eq_some_iff.mp h
  obtain ⟨n, hn, hdisk⟩ := Option.bind_eq_some_iff.mp h
  have hnone : k.fs.VirtualEntries dir.id (k.fs.virtDirNames dir.id) [] := ⟨hvirt.symm, by simp⟩
  rw [← List.append_nil entries]
  exact .dir htype hsize hbytes hn hdisk hnone

structure ListingData where
  type : ℕ
  size : ℕ
  virtual : List (List UInt8)
  entries : Option (List DirEntry)
  inodes : List (ℕ × ℕ)
  found : Option ℕ
  read : Option (Reply × Option (List Dirent))
deriving DecidableEq

def listingData (fs : Fs) (dir : Inode) (name : List UInt8) : ListingData where
  type := dir.type
  size := dir.size
  virtual := fs.virtDirNames dir.id
  entries := entriesOnDisk fs dir
  inodes := fs.inodes.map fun n => (n.id, n.type)
  found := (entryInode fs dir.id name).map Inode.id
  read := ((rootOpenKernel fs).sysGetdents 0 3 (List.replicate 64 0)).map fun r =>
    (r.2.1, walkDirents r.2.2 1 0)

def listingAfter (name : List UInt8) : Option ListingData :=
  (createIn rootOnlyFs fsRootDirId name fsTypeFile).bind fun fs =>
    (fs.getInodeById fsRootDirId).map fun dir => listingData fs dir name

/-- A file `a` in the root directory is listed. -/
theorem sysGetdents_streamed_one : ∃ fs, createIn rootOnlyFs fsRootDirId [97] fsTypeFile = some fs ∧
    ∃ k' reply buffer',
      (rootOpenKernel fs).sysGetdents 0 3 (List.replicate 64 0) = some (k', reply, buffer') ∧
      fs.Streamed [⟨1, [97]⟩] (List.replicate 64 0) reply buffer' := by
  have hdata : listingAfter [97] = some ⟨fsTypeDir, 10, [], some [⟨1, [97]⟩],
      [(fsRootDirId, fsTypeDir), (1, fsTypeFile)], some 1,
      some (.value 1, some [⟨1, 14, fsTypeFile, [97]⟩])⟩ := by
    decide +kernel
  obtain ⟨fs, hfs, hdata⟩ := Option.bind_eq_some_iff.mp hdata
  obtain ⟨dir, hdir, hdata⟩ := Option.map_eq_some_iff.mp hdata
  obtain ⟨htype, hsize, hvirt, hentries, hinodes, hfound, -⟩ := ListingData.mk.inj hdata
  have hwidths : fs.Widths := by
    have hall : ∀ x ∈ fs.inodes.map fun n => (n.id, n.type), x.1 < 2 ^ 32 ∧ x.2 < 2 ^ 8 := by
      rw [hinodes]
      decide
    exact fun n hn => hall _ (List.mem_map_of_mem hn)
  obtain ⟨n, hn, hid⟩ := Option.map_eq_some_iff.mp hfound
  obtain ⟨id, hname, hlive⟩ := Option.bind_eq_some_iff.mp hn
  obtain rfl := (Fs.id_of_getInodeById hlive).symm.trans hid
  have hlist : (rootOpenKernel fs).Lists dir [⟨1, [97]⟩] :=
    .of_entriesOnDisk htype (by omega) hvirt hentries
  refine ⟨fs, hfs, (sysGetdents_streamed rfl hdir hlist ?_ hwidths (by decide)).mpr (.inr ?_)⟩
  · intro e he
    obtain rfl := List.mem_singleton.mp he
    exact Option.isSome_iff_exists.mpr ⟨n, hn⟩
  · refine ⟨by decide, fun e he => ?_⟩
    obtain rfl := List.mem_singleton.mp he
    exact hname

/-- A file called `root` in the root directory: its name is found to be that of the root directory
itself, which the record then tells of. -/
theorem sysGetdents_not_streamed : ∃ fs dir k' reply buffer',
    createIn rootOnlyFs fsRootDirId rootName fsTypeFile = some fs ∧
    (rootOpenKernel fs).Lists dir [⟨1, rootName⟩] ∧
    (entryInode fs dir.id rootName).isSome ∧
    (rootOpenKernel fs).sysGetdents 0 3 (List.replicate 64 0) = some (k', reply, buffer') ∧
    ¬ fs.Streamed [⟨1, rootName⟩] (List.replicate 64 0) reply buffer' := by
  have hdata : listingAfter rootName = some ⟨fsTypeDir, 13, [], some [⟨1, rootName⟩],
      [(fsRootDirId, fsTypeDir), (1, fsTypeFile)], some fsRootDirId,
      some (.value 1, some [⟨fsRootDirId, 17, fsTypeDir, rootName⟩])⟩ := by
    decide +kernel
  obtain ⟨fs, hfs, hdata⟩ := Option.bind_eq_some_iff.mp hdata
  obtain ⟨dir, hdir, hdata⟩ := Option.map_eq_some_iff.mp hdata
  obtain ⟨htype, hsize, hvirt, hentries, -, hfound, hread⟩ := ListingData.mk.inj hdata
  obtain ⟨n, hn, -⟩ := Option.map_eq_some_iff.mp hfound
  obtain ⟨⟨k', reply, buffer'⟩, hcall, hread⟩ := Option.map_eq_some_iff.mp hread
  obtain ⟨rfl, hwalk⟩ := Prod.mk.inj hread
  refine ⟨fs, dir, k', _, buffer', hfs, .of_entriesOnDisk htype (by omega) hvirt hentries,
    Option.isSome_iff_exists.mpr ⟨n, hn⟩, hcall, ?_⟩
  rintro (⟨hfail, -⟩ | ⟨-, records, hrecords, hall⟩)
  · cases hfail
  · obtain rfl := Option.some.inj (hwalk.symm.trans hrecords)
    obtain ⟨hdescribes, -⟩ := List.forall₂_cons.mp hall
    exact absurd hdescribes.inodeId (by decide)

end BrickOS.Filesystem
