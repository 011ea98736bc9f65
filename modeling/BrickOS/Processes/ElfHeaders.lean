import BrickOS.Filesystem.FileContents
import BrickOS.Filesystem.ReadFile
import BrickOS.Lib.Ring

/-! The program headers of a new process: `validate_elf` accepts a file by its header, and
`extract_elf_phdrs` reads the header once more and then the table it describes. -/
namespace BrickOS.Processes
open BrickOS.Lib BrickOS.Filesystem

/-- `Elf64_Ehdr`, as the bytes that are read. -/
abbrev Ehdr := Block 64

def phdrSize : ℕ := 56

namespace Ehdr

def halfAt (h : Ehdr) (i : ℕ) : ℕ := (h.byte i).toNat + (h.byte (i + 1)).toNat * 2 ^ 8

def ePhoff (h : Ehdr) : ℕ := h.longAt 32

def ePhentsize (h : Ehdr) : ℕ := h.halfAt 54

def ePhnum (h : Ehdr) : ℕ := h.halfAt 56

/-- The checks of `validate_elf`: `ELFMAG`, `ELFCLASS64`, `ELFDATA2LSB`, `ET_EXEC`, `EM_X86_64`, and
that there is a table. -/
def valid (h : Ehdr) : Bool :=
  (List.range 4).map h.byte == [0x7f, 0x45, 0x4c, 0x46] && h.byte 4 == 2 && h.byte 5 == 1 &&
    h.halfAt 16 == 2 && h.halfAt 18 == 62 && h.ePhoff != 0 && h.ePhnum != 0

end Ehdr

def openedRead (n : Inode) : OpenFile := ⟨fileFlagRead, n.id, 0⟩

/-- `sys_read` of the header into a variable that holds `stack`. An error of `fs_read` is never
`SYSCALL_FAIL`, so what was there is then taken for the header. -/
def readEhdr (s : Storage) (n : Inode) (stack : Ehdr) : Option (Storage × Ehdr) :=
  (fsReadInto s n (openedRead n) 64).map fun r => (r.1, stack.blit 0 r.2.1)

/-- `validate_elf`, with the header of a file that is accepted. Whether the file can be opened for
reading is `opened`. -/
def validateElf (opened : Bool) (s : Storage) (n : Inode) (stack : Ehdr) :
    Option (Storage × Option Ehdr) :=
  if opened then
    (readEhdr s n stack).map fun r => (r.1, if r.2.valid then some r.2 else none)
  else some (s, none)

/-- The file position after `sys_seek`, which takes 32 bits of the offset. -/
def seekTable (n : Inode) (h : Ehdr) : OpenFile := fsSeek (openedRead n) n (h.ePhoff % 2 ^ 32) .set

/-- `extract_elf_phdrs`: the buffer of `total_phdrs_size` bytes, which `kmalloc` hands out with
what `heap` holds, or a null pointer. -/
def extractElfPhdrs (opened : Bool) (s : Storage) (n : Inode) (stack : Ehdr) (heap : ℕ → UInt8) :
    Option (Storage × Option (List UInt8)) :=
  if opened then do
    let (s, ehdr) ← readEhdr s n stack
    if ehdr.ePhnum = 0 ∨ ehdr.ePhoff = 0 then return (s, none)
    let total := ehdr.ePhentsize * ehdr.ePhnum
    -- `kmalloc` of nothing is a null pointer
    if total = 0 then return (s, none)
    let (s, stored, nBytes) ← fsReadInto s n (seekTable n ehdr) total
    if nBytes < total then return (s, none)
    return (s, some (slice (copyInto heap 0 stored) 0 total))
  else some (s, none)

/-- `n_phdrs` and `phdrs` of a process. -/
structure ProgramHeaders where
  nPhdrs : ℕ
  phdrs : Option (List UInt8)

/-- What `create_process` does with the file: it refuses what `validate_elf` refuses, and takes
what `extract_elf_phdrs` returns without a look. The disk is the same for both, the cached sector
`s'` and the old contents of the stack and the heap need not be. -/
def createProcessHeaders (opened : Bool) (s s' : Storage) (n : Inode) (stack stack' : Ehdr)
    (heap : ℕ → UInt8) : Option (Option ProgramHeaders) := do
  let (_, accepted) ← validateElf opened s n stack
  match accepted with
  | none => return none
  | some ehdr =>
    let (_, phdrs) ← extractElfPhdrs opened s' n stack' heap
    return some ⟨ehdr.ePhnum, phdrs⟩

/-- The headers that the process will index lie in the buffer, and hold what the file holds from
`off` on. -/
def ProgramHeaders.Filled (p : ProgramHeaders) (disk : ℕ → Sector) (n : Inode) (off : ℕ) : Prop :=
  ∃ buffer, p.phdrs = some buffer ∧ phdrSize * p.nPhdrs ≤ buffer.length ∧
    ∀ i < phdrSize * p.nPhdrs, n.byteAt disk (off + i) = buffer[i]?

/-- The header comes from the file, its entries are not smaller than a program header, the file has
the bytes of all headers, and a sector for all that is read with them. -/
structure TableComplete (disk : ℕ → Sector) (n : Inode) (h : Ehdr) : Prop where
  regular : n.type ≠ fsTypeDir
  header : n.lookup disk 0 ≠ 0
  entry : phdrSize ≤ h.ePhentsize
  table : ∀ i < phdrSize * h.ePhnum, (n.byteAt disk (h.ePhoff + i)).isSome
  sectors : ∀ j, h.ePhoff / 512 ≤ j → max h.ePhoff (512 * j) < h.ePhoff + h.ePhentsize * h.ePhnum →
    j < maxFileSectors → n.lookup disk j ≠ 0

section
variable {s s' : Storage} {n : Inode} {stack ehdr : Ehdr}

theorem halfAt_lt (h : Ehdr) (i : ℕ) : h.halfAt i < 2 ^ 16 := by
  have h0 := (h.byte i).toNat_lt
  have h1 := (h.byte (i + 1)).toNat_lt
  unfold Ehdr.halfAt
  omega

theorem total_lt (h : Ehdr) : h.ePhentsize * h.ePhnum < fileReadAll := by
  have hentry := halfAt_lt h 54
  have hnum := halfAt_lt h 56
  have hmul : h.ePhentsize * h.ePhnum ≤ 65535 * 65535 :=
    Nat.mul_le_mul (by unfold Ehdr.ePhentsize; omega) (by unfold Ehdr.ePhnum; omega)
  have hall : fileReadAll = 4294967295 := by decide
  omega

theorem openedRead_flags (n : Inode) : (openedRead n).flags &&& fileFlagRead ≠ 0 := by
  change fileFlagRead &&& fileFlagRead ≠ 0
  decide

theorem readEhdr_of_sector (hc : s.Coherent) (htype : n.type ≠ fsTypeDir)
    (hsector : n.lookup s.disk 0 ≠ 0) : ∃ s₁, s₁.disk = s.disk ∧ s₁.Coherent ∧
      ∀ stack, readEhdr s n stack =
        some (s₁, Block.zero.blit 0 (readTrace s.disk n 64 0 64).bytes) := by
  obtain ⟨s₁, nBytes, hread, hdisk, hc₁, -⟩ := fsReadInto_regular hc (openedRead_flags n) htype
    (show 64 < fileReadAll by decide)
  have hstored : ∀ i < 64, ∃ b,
      (readTrace s.disk n 64 0 64).bytes[i]? = some b := by
    intro i hi
    refine ⟨_, (readTrace_getElem?_iff le_rfl).mpr ⟨hi, fun j _ hj => ?_, rfl⟩⟩
    rw [show j = 0 by omega]
    exact hsector
  refine ⟨s₁, hdisk, hc₁, fun stack => ?_⟩
  unfold readEhdr
  rw [hread, Option.map_some]
  congr 2
  change stack.blit 0 (readTrace s.disk n 64 0 64).bytes = _
  refine Block.ext fun i hi => ?_
  obtain ⟨b, hb⟩ := hstored i hi
  have hlen := (List.getElem?_eq_some_iff.mp hb).1
  rw [Block.byte_blit hi, Block.byte_blit hi, if_pos ⟨Nat.zero_le i, by omega⟩,
    if_pos ⟨Nat.zero_le i, by omega⟩]

theorem blit_nil (stack : Ehdr) : stack.blit 0 [] = stack := by
  refine Block.ext fun i hi => ?_
  rw [Block.byte_blit hi, if_neg (by simp)]

theorem readEhdr_of_none (hc : s.Coherent) (hnone : n.type = fsTypeDir ∨ n.lookup s.disk 0 = 0) :
    ∃ s₁, ∀ stack, readEhdr s n stack = some (s₁, stack) := by
  by_cases htype : n.type = fsTypeDir
  · refine ⟨s, fun stack => ?_⟩
    unfold readEhdr
    rw [fsReadInto_dir (openedRead_flags n) htype, Option.map_some, blit_nil]
  · obtain ⟨s₁, nBytes, hread, -⟩ := fsReadInto_regular hc (openedRead_flags n) htype
      (show 64 < fileReadAll by decide)
    have hempty : (readTrace s.disk n 64 (openedRead n).rwPointer 64).bytes = [] := by
      rw [List.eq_nil_iff_length_eq_zero]
      by_contra hpos
      have hget := List.getElem?_eq_getElem (Nat.pos_of_ne_zero hpos)
      obtain ⟨-, hreaches, -⟩ := (readTrace_getElem?_iff le_rfl).mp hget
      have hpos : (openedRead n).rwPointer = 0 := rfl
      exact hreaches 0 (by omega) (Nat.zero_le _) (hnone.resolve_left htype)
    refine ⟨s₁, fun stack => ?_⟩
    unfold readEhdr
    rw [hread, Option.map_some, hempty, blit_nil]

/-- The result of `extract_elf_phdrs` once the header is read. -/
theorem extractElfPhdrs_of_header {s₁ : Storage} {h : Ehdr} (hread : readEhdr s n stack = some (s₁, h))
    (hc : s₁.Coherent) (htype : n.type ≠ fsTypeDir) (hnum : h.ePhnum ≠ 0) (hoff : h.ePhoff ≠ 0)
    (heap : ℕ → UInt8) :
    ∃ s₂ r, extractElfPhdrs true s n stack heap = some (s₂, r) ∧
      (r ≠ none ↔ h.ePhentsize ≠ 0 ∧ ∀ j, (seekTable n h).rwPointer / 512 ≤ j →
        max (seekTable n h).rwPointer (512 * j) <
          (seekTable n h).rwPointer + h.ePhentsize * h.ePhnum →
        j < maxFileSectors → n.lookup s₁.disk j ≠ 0) ∧
      ∀ buffer, r = some buffer → buffer = slice (copyInto heap 0
        (readTrace s₁.disk n (h.ePhentsize * h.ePhnum) (seekTable n h).rwPointer
          (h.ePhentsize * h.ePhnum)).bytes) 0 (h.ePhentsize * h.ePhnum) := by
  unfold extractElfPhdrs
  rw [if_pos rfl, hread, Option.bind_eq_bind, Option.bind_some]
  dsimp only
  rw [if_neg (not_or.mpr ⟨hnum, hoff⟩)]
  by_cases hentry : h.ePhentsize = 0
  · rw [if_pos (by rw [hentry, Nat.zero_mul])]
    exact ⟨s₁, none, rfl, iff_of_false (fun hne => hne rfl) fun hne => hne.1 hentry,
      fun buffer hb => by cases hb⟩
  rw [if_neg (Nat.mul_ne_zero hentry hnum)]
  obtain ⟨s₂, nBytes, htable, -, -, hfull⟩ := fsReadInto_regular hc
    (show (seekTable n h).flags &&& fileFlagRead ≠ 0 from openedRead_flags n) htype (total_lt h)
  rw [htable, Option.bind_eq_bind, Option.bind_some]
  dsimp only
  rw [← hfull]
  by_cases hshort : nBytes < h.ePhentsize * h.ePhnum
  · rw [if_pos hshort]
    exact ⟨s₂, none, rfl, iff_of_false (fun hne => hne rfl) fun hne => absurd hne.2 (by omega),
      fun buffer hb => by cases hb⟩
  · rw [if_neg hshort]
    exact ⟨s₂, _, rfl, iff_of_true (Option.some_ne_none _) ⟨hentry, by omega⟩,
      fun buffer hb => (Option.some.inj hb).symm⟩

theorem validateElf_eq_some {opened : Bool} {s₁ : Storage}
    (h : validateElf opened s n stack = some (s₁, some ehdr)) :
    opened = true ∧ readEhdr s n stack = some (s₁, ehdr) ∧ ehdr.ePhoff ≠ 0 ∧ ehdr.ePhnum ≠ 0 := by
  unfold validateElf at h
  split_ifs at h with hopened
  · obtain ⟨⟨s₂, ehdr'⟩, hread, heq⟩ := Option.map_eq_some_iff.mp h
    dsimp only at heq
    split_ifs at heq with hvalid
    · obtain ⟨rfl, hehdr⟩ := Prod.mk.inj heq
      obtain rfl := Option.some.inj hehdr
      simp only [Ehdr.valid, Bool.and_eq_true, bne_iff_ne, ne_eq] at hvalid
      exact ⟨hopened, hread, hvalid.1.2, hvalid.2⟩
    · cases heq
  · cases h

theorem extractElfPhdrs_zero (hc : s.Coherent) (hnone : n.type = fsTypeDir ∨ n.lookup s.disk 0 = 0)
    (heap : ℕ → UInt8) : ∃ s₁, extractElfPhdrs true s n Block.zero heap = some (s₁, none) := by
  obtain ⟨s₁, hread⟩ := readEhdr_of_none hc hnone
  have hzero : Ehdr.ePhnum Block.zero = 0 := by decide
  refine ⟨s₁, ?_⟩
  unfold extractElfPhdrs
  rw [if_pos rfl, hread, Option.bind_eq_bind, Option.bind_some]
  dsimp only
  rw [if_pos (.inl hzero)]
  rfl

theorem readEhdr_again {s₁ : Storage} (hc : s.Coherent) (htype : n.type ≠ fsTypeDir)
    (hsector : n.lookup s.disk 0 ≠ 0) (hread : readEhdr s n stack = some (s₁, ehdr))
    (hc' : s'.Coherent) (hdisk : s'.disk = s.disk) :
    ∃ s₂, s₂.disk = s.disk ∧ s₂.Coherent ∧ ∀ stack', readEhdr s' n stack' = some (s₂, ehdr) := by
  obtain ⟨s₂, hdisk₂, hc₂, hread₂⟩ := readEhdr_of_sector hc' htype (by rwa [hdisk])
  obtain ⟨s₃, -, -, hread₃⟩ := readEhdr_of_sector hc htype hsector
  have hehdr : ehdr = Block.zero.blit 0 (readTrace s.disk n 64 0 64).bytes :=
    congrArg Prod.snd (Option.some.inj (hread.symm.trans (hread₃ stack)))
  rw [hdisk] at hread₂ hdisk₂
  rw [hehdr]
  exact ⟨s₂, hdisk₂, hc₂, hread₂⟩

theorem seekTable_rwPointer (hsize : n.size < 2 ^ 32) (h : ehdr.ePhoff < n.size) :
    (seekTable n ehdr).rwPointer = ehdr.ePhoff := by
  have hmod : ehdr.ePhoff % 2 ^ 32 = ehdr.ePhoff := Nat.mod_eq_of_lt (lt_trans h hsize)
  unfold seekTable fsSeek
  dsimp only
  rw [hmod]
  exact min_eq_left (Nat.le_of_lt h)

theorem getElem?_slice_stored {disk : ℕ → Sector} {total off i : ℕ} (heap : ℕ → UInt8)
    (hi : i < total) (hall : ∀ k ≤ i, (n.byteAt disk (off + k)).isSome) :
    (slice (copyInto heap 0 (readTrace disk n total off total).bytes) 0 total)[i]? =
      n.byteAt disk (off + i) := by
  have hstored := readTrace_eq_byteAt hi hall
  obtain ⟨b, hb⟩ := Option.isSome_iff_exists.mp (hall i le_rfl)
  rw [hb] at hstored
  unfold slice copyInto
  rw [List.getElem?_map, List.getElem?_range hi, Option.map_some, Nat.zero_add,
    if_neg (Nat.not_lt_zero i), Nat.sub_zero, hstored, Option.getD_some, hb]

theorem TableComplete.of_filled {s₁ : Storage} (hc : s.Coherent) (hsize : n.size < 2 ^ 32)
    (htype : n.type ≠ fsTypeDir) (hsector : n.lookup s.disk 0 ≠ 0)
    (hread : readEhdr s n stack = some (s₁, ehdr)) (hoff : ehdr.ePhoff ≠ 0)
    (hnum : ehdr.ePhnum ≠ 0) {heap : ℕ → UInt8} {s₂ : Storage} {phdrs : Option (List UInt8)}
    (hextract : extractElfPhdrs true s n stack heap = some (s₂, phdrs))
    (hfilled : ProgramHeaders.Filled ⟨ehdr.ePhnum, phdrs⟩ s.disk n ehdr.ePhoff) :
    TableComplete s.disk n ehdr := by
  obtain ⟨s₃, hdisk₃, hc₃, hread₃⟩ := readEhdr_again hc htype hsector hread hc rfl
  obtain ⟨s₄, r, hextract₄, hsome, hbuffer⟩ :=
    extractElfPhdrs_of_header (hread₃ stack) hc₃ htype hnum hoff heap
  obtain ⟨-, rfl⟩ := Prod.mk.inj (Option.some.inj (hextract₄.symm.trans hextract))
  obtain ⟨buffer, hphdrs, hlen, hbytes⟩ := hfilled
  dsimp only at hphdrs hlen hbytes
  obtain ⟨-, hsectors⟩ := hsome.mp (by rw [hphdrs]; exact Option.some_ne_none _)
  have htable : ∀ i < phdrSize * ehdr.ePhnum, (n.byteAt s.disk (ehdr.ePhoff + i)).isSome := by
    intro i hi
    rw [hbytes i hi, List.getElem?_eq_getElem (lt_of_lt_of_le hi hlen), Option.isSome_some]
  have hlt := byteAt_lt (htable 0 (Nat.mul_pos (by decide) (Nat.pos_of_ne_zero hnum)))
  rw [Nat.add_zero] at hlt
  rw [seekTable_rwPointer hsize hlt, hdisk₃] at hsectors
  rw [hbuffer buffer hphdrs, length_slice] at hlen
  exact ⟨htype, hsector, Nat.le_of_mul_le_mul_right hlen (Nat.pos_of_ne_zero hnum), htable,
    hsectors⟩

theorem TableComplete.filled {s₁ : Storage} (h : TableComplete s.disk n ehdr) (hc : s.Coherent)
    (hsize : n.size < 2 ^ 32) (hread : readEhdr s n stack = some (s₁, ehdr))
    (hoff : ehdr.ePhoff ≠ 0) (hnum : ehdr.ePhnum ≠ 0) (hc' : s'.Coherent)
    (hdisk : s'.disk = s.disk) (stack' : Ehdr) (heap : ℕ → UInt8) :
    ∃ s₂ phdrs, extractElfPhdrs true s' n stack' heap = some (s₂, phdrs) ∧
      ProgramHeaders.Filled ⟨ehdr.ePhnum, phdrs⟩ s.disk n ehdr.ePhoff := by
  obtain ⟨s₃, hdisk₃, hc₃, hread₃⟩ := readEhdr_again hc h.regular h.header hread hc' hdisk
  obtain ⟨s₄, r, hextract, hsome, hbuffer⟩ :=
    extractElfPhdrs_of_header (hread₃ stack') hc₃ h.regular hnum hoff heap
  have hlt := byteAt_lt (h.table 0 (Nat.mul_pos (by decide) (Nat.pos_of_ne_zero hnum)))
  rw [Nat.add_zero] at hlt
  have hentry : ehdr.ePhentsize ≠ 0 := by
    have := h.entry
    unfold phdrSize at this
    omega
  rw [seekTable_rwPointer hsize hlt, hdisk₃] at hsome hbuffer
  obtain ⟨buffer, hr⟩ := Option.ne_none_iff_exists'.mp (hsome.mpr ⟨hentry, h.sectors⟩)
  have hle := Nat.mul_le_mul_right ehdr.ePhnum h.entry
  refine ⟨s₄, r, hextract, buffer, hr, ?_, fun i hi => ?_⟩
  · rw [hbuffer buffer hr, length_slice]
    exact hle
  · rw [hbuffer buffer hr]
    exact (getElem?_slice_stored heap (lt_of_lt_of_le hi hle)
      fun k hk => h.table k (lt_of_le_of_lt hk hi)).symm

end

/-- Whatever is left on the stack and the heap, the headers that a process of an accepted file will
index lie in the buffer and come from the file, or the process is not created, exactly if the table
is complete. -/
theorem createProcess_headers_iff {opened : Bool} {s s₁ : Storage} {n : Inode} {stack ehdr : Ehdr}
    (hc : s.Coherent) (hsize : n.size < 2 ^ 32)
    (haccepted : validateElf opened s n stack = some (s₁, some ehdr)) :
    (∀ s' stack' heap, s'.Coherent → s'.disk = s.disk →
        ∃ created, createProcessHeaders opened s s' n stack stack' heap = some created ∧
          ∀ p ∈ created, p.Filled s.disk n ehdr.ePhoff) ↔ TableComplete s.disk n ehdr := by
  obtain ⟨rfl, hread, hoff, hnum⟩ := validateElf_eq_some haccepted
  have hcreated : ∀ {s' : Storage} {stack' : Ehdr} {heap : ℕ → UInt8} {s₂ : Storage}
      {phdrs : Option (List UInt8)}, extractElfPhdrs true s' n stack' heap = some (s₂, phdrs) →
      createProcessHeaders true s s' n stack stack' heap = some (some ⟨ehdr.ePhnum, phdrs⟩) := by
    intro s' stack' heap s₂ phdrs hextract
    unfold createProcessHeaders
    rw [haccepted, Option.bind_eq_bind, Option.bind_some]
    dsimp only
    rw [hextract]
    rfl
  constructor
  · intro h
    by_cases hheader : n.type = fsTypeDir ∨ n.lookup s.disk 0 = 0
    · obtain ⟨s₂, hextract⟩ := extractElfPhdrs_zero hc hheader fun _ => 0
      obtain ⟨created, hrun, hfilled⟩ := h s Block.zero (fun _ => 0) hc rfl
      obtain rfl := Option.some.inj ((hcreated hextract).symm.trans hrun)
      obtain ⟨buffer, hbuffer, -⟩ := hfilled _ rfl
      cases hbuffer
    · obtain ⟨htype, hsector⟩ := not_or.mp hheader
      obtain ⟨s₃, hdisk₃, hc₃, hread₃⟩ := readEhdr_again hc htype hsector hread hc rfl
      obtain ⟨s₂, r, hextract, -⟩ :=
        extractElfPhdrs_of_header (hread₃ stack) hc₃ htype hnum hoff fun _ => 0
      obtain ⟨created, hrun, hfilled⟩ := h s stack (fun _ => 0) hc rfl
      obtain rfl := Option.some.inj ((hcreated hextract).symm.trans hrun)
      exact TableComplete.of_filled hc hsize htype hsector hread hoff hnum hextract
        (hfilled _ rfl)
  · intro h s' stack' heap hc' hdisk
    obtain ⟨s₂, phdrs, hextract, hfilled⟩ :=
      h.filled hc hsize hread hoff hnum hc' hdisk stack' heap
    refine ⟨_, hcreated hextract, fun p hp => ?_⟩
    obtain rfl := Option.some.inj hp
    exact hfilled

def elfBytes (entsize : UInt8) : List UInt8 :=
  [0x7f, 0x45, 0x4c, 0x46, 2, 1, 1, 0] ++ List.replicate 8 0 ++ [2, 0, 62, 0, 1, 0, 0, 0] ++
    List.replicate 8 0 ++ [64, 0, 0, 0, 0, 0, 0, 0] ++ List.replicate 12 0 ++
    [64, 0, entsize, 0, 1, 0]

def elfStorage (entsize : UInt8) : Storage where
  header := .empty
  sectors := ⟨fun x => if x = 200 then Block.zero.blit 0 (elfBytes entsize) else Block.zero,
    Block.zero, 0⟩

def elfInode : Inode := ⟨1, 120, 1, 7, 2, 0, 0, fun i => if i = firstSlot then 200 else 0⟩

theorem elfStorage_coherent (entsize : UInt8) : (elfStorage entsize).Coherent := by
  unfold Storage.Coherent Cached.Coherent
  rfl

/-- The header of the file, with 56 as the size of its entries. -/
theorem createProcess_headers_iff_complete : ∃ s₁ ehdr,
    validateElf true (elfStorage 56) elfInode Block.zero = some (s₁, some ehdr) ∧
      ∀ s' stack' heap, s'.Coherent → s'.disk = (elfStorage 56).disk → ∃ created,
        createProcessHeaders true (elfStorage 56) s' elfInode Block.zero stack' heap =
          some created ∧ ∀ p ∈ created, p.Filled (elfStorage 56).disk elfInode ehdr.ePhoff := by
  obtain ⟨⟨s₁, accepted⟩, hvalidate, hfields⟩ := Option.map_eq_some_iff.mp
    (by decide +kernel : (validateElf true (elfStorage 56) elfInode Block.zero).map
      (fun r => r.2.map fun h => (h.ePhoff, h.ePhentsize, h.ePhnum)) = some (some (64, 56, 1)))
  obtain ⟨ehdr, haccepted, hfields⟩ := Option.map_eq_some_iff.mp hfields
  obtain ⟨hoff, hsizes⟩ := Prod.mk.inj hfields
  obtain ⟨hentry, hnum⟩ := Prod.mk.inj hsizes
  dsimp only at haccepted
  rw [haccepted] at hvalidate
  refine ⟨s₁, ehdr, hvalidate, (createProcess_headers_iff (elfStorage_coherent 56) (by decide)
    hvalidate).mpr ?_⟩
  have hfirst : elfInode.lookup (elfStorage 56).disk 0 ≠ 0 := by decide
  refine ⟨by decide, hfirst, by rw [hentry]; decide, ?_, ?_⟩
  · rw [hoff, hnum]
    decide +kernel
  · rw [hoff, hentry, hnum]
    intro j _ hlt _
    rw [show j = 0 by omega]
    exact hfirst

theorem exists_not_filled {entsize : UInt8} (hentsize : entsize ∈ [(32 : UInt8), 0]) : ∃ p,
    createProcessHeaders true (elfStorage entsize) (elfStorage entsize) elfInode Block.zero
      Block.zero (fun _ => 0) = some (some p) ∧ p.nPhdrs = 1 ∧
        ∀ off, ¬ p.Filled (elfStorage entsize).disk elfInode off := by
  have hrun : ∀ entsize ∈ [(32 : UInt8), 0], (createProcessHeaders true (elfStorage entsize)
      (elfStorage entsize) elfInode Block.zero Block.zero fun _ => 0).map
        (Option.map fun p => (p.nPhdrs, p.phdrs.elim true fun b => decide (b.length < 56))) =
      some (some (1, true)) := by
    decide +kernel
  obtain ⟨created, hcreated, hfields⟩ := Option.map_eq_some_iff.mp (hrun entsize hentsize)
  obtain ⟨p, rfl, hpair⟩ := Option.map_eq_some_iff.mp hfields
  obtain ⟨hnum, hshort⟩ := Prod.mk.inj hpair
  refine ⟨p, hcreated, hnum, fun off hfilled => ?_⟩
  obtain ⟨buffer, hbuffer, hlen, -⟩ := hfilled
  rw [hbuffer, Option.elim_some, decide_eq_true_eq] at hshort
  rw [hnum] at hlen
  unfold phdrSize at hlen
  omega

/-- The entries are 32 bytes long, but 56 bytes of them are used; or they have no length, and a
null pointer is. -/
theorem createProcess_headers_outside :
    (∃ p, createProcessHeaders true (elfStorage 32) (elfStorage 32) elfInode Block.zero Block.zero
      (fun _ => 0) = some (some p) ∧ p.nPhdrs = 1 ∧
        ∀ off, ¬ p.Filled (elfStorage 32).disk elfInode off) ∧
    ∃ p, createProcessHeaders true (elfStorage 0) (elfStorage 0) elfInode Block.zero Block.zero
      (fun _ => 0) = some (some p) ∧ p.nPhdrs = 1 ∧
        ∀ off, ¬ p.Filled (elfStorage 0).disk elfInode off :=
  ⟨exists_not_filled (by decide), exists_not_filled (by decide)⟩

end BrickOS.Processes
