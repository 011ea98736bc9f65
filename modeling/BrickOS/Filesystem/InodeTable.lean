import BrickOS.Filesystem.Operations

/-! The inode table on disk: inodes written one by one, and read back at the next start. -/
namespace BrickOS.Filesystem
open BrickOS.Lib

structure Inode.InRange (n : Inode) : Prop where
  id : n.id < 2 ^ 32
  size : n.size < 2 ^ 32
  type : n.type < 2 ^ 8
  perms : n.perms < 2 ^ 8
  privLvl : n.privLvl < 2 ^ 8
  indirectSector : n.indirectSector < 2 ^ 32
  dIndirectSector : n.dIndirectSector < 2 ^ 32
  dataSectors : ∀ i, n.dataSectors i < 2 ^ 32

def inodeAt (b : Sector) (off : ℕ) : Inode where
  id := b.wordAt off
  size := b.wordAt (off + 4)
  type := (b.byte (off + 8)).toNat
  perms := (b.byte (off + 9)).toNat
  privLvl := (b.byte (off + 10)).toNat
  indirectSector := b.wordAt (off + 12)
  dIndirectSector := b.wordAt (off + 16)
  dataSectors := fun i => b.wordAt (off + 20 + 4 * i)

def readRoot (s : Storage) : Option Inode :=
  let s := s.readSector 0
  if s.buffer.byte 511 = 0xff then some (inodeAt s.buffer 0) else none

def readInode (s : Storage) (id : ℕ) : Inode :=
  let s := s.efficientReadSector (id / 8 + 1)
  inodeAt s.buffer (id % 8 * 64)

def IsLast (ns : List Inode) (n : Inode) : Prop :=
  ∃ before behind, ns = before ++ n :: behind ∧ ∀ m ∈ behind, m.id ≠ n.id

def inodePlace (id : ℕ) : ℕ × ℕ := if id = fsRootDirId then (0, 0) else (id / 8 + 1, id % 8 * 64)

def inodeOn (store : ℕ → Sector) (id : ℕ) : Inode :=
  inodeAt (store (inodePlace id).1) (inodePlace id).2

def Inode.Stored (n : Inode) : Prop := n.id < 800 ∨ n.id = fsRootDirId

section Bytes

variable {b : Sector} {off : ℕ} {n : Inode}

theorem length_inodeBytes (n : Inode) : (inodeBytes n).length = 64 := by
  simp [inodeBytes, le32]

/-- The fields of an inode are copied one behind the other. -/
theorem blit_inodeBytes (b : Sector) (off : ℕ) (n : Inode) : b.blit off (inodeBytes n) =
    (((((b.blit off (le32 n.id)).blit (off + 4) (le32 n.size)).blit (off + 8)
      [UInt8.ofNat n.type, UInt8.ofNat n.perms, UInt8.ofNat n.privLvl, 0]).blit (off + 12)
      (le32 n.indirectSector)).blit (off + 16) (le32 n.dIndirectSector)).blit (off + 20)
      ((List.ofFn n.dataSectors).flatMap le32) := by
  simp only [inodeBytes, Block.blit_append, List.length_append, le32, List.length_cons,
    List.length_nil]

theorem inodeAt_blit_of_disjoint {bs : List UInt8} {start : ℕ}
    (h : off + 64 ≤ start ∨ start + bs.length ≤ off) :
    inodeAt (b.blit start bs) off = inodeAt b off := by
  have hword : ∀ i, i + 4 ≤ 64 → (b.blit start bs).wordAt (off + i) = b.wordAt (off + i) :=
    fun i hi => Block.wordAt_blit_of_disjoint (by omega)
  have hbyte : ∀ i, i < 64 → (b.blit start bs).byte (off + i) = b.byte (off + i) := by
    intro i hi
    rcases h with h | h
    · exact Block.byte_blit_of_lt (by omega)
    · exact Block.byte_blit_of_le (by omega)
  unfold inodeAt
  rw [Inode.mk.injEq]
  refine ⟨hword 0 (by omega), ?_, ?_, ?_, ?_, ?_, ?_, ?_⟩
  · exact hword 4 (by omega)
  · rw [hbyte 8 (by omega)]
  · rw [hbyte 9 (by omega)]
  · rw [hbyte 10 (by omega)]
  · exact hword 12 (by omega)
  · exact hword 16 (by omega)
  · funext i
    rw [Nat.add_assoc]
    exact hword (20 + 4 * i) (by omega)

theorem inodeAt_blit_self (hn : n.InRange) (hoff : off + 64 ≤ 512) :
    inodeAt (b.blit off (inodeBytes n)) off = n := by
  have hlen : ∀ v, (le32 v).length = 4 := fun _ => rfl
  have hdata : ((List.ofFn n.dataSectors).flatMap le32).length = 44 := by simp [le32]
  obtain ⟨flags, hflags⟩ : ∃ flags : List UInt8, flags =
    [UInt8.ofNat n.type, UInt8.ofNat n.perms, UInt8.ofNat n.privLvl, 0] := ⟨_, rfl⟩
  have hfour : flags.length = 4 := by rw [hflags]; rfl
  have hblit := blit_inodeBytes b off n
  rw [← hflags] at hblit
  have hbyte : ∀ i < 4, (b.blit off (inodeBytes n)).byte (off + 8 + i) = flags[i]?.getD 0 := by
    intro i hi
    rw [hblit, Block.byte_blit_of_lt (by omega), Block.byte_blit_of_lt (by omega),
      Block.byte_blit_of_lt (by omega), Block.byte_blit_inside (by omega) (by omega)]
  refine Eq.trans ?_ (rfl : Inode.mk n.id n.size n.type n.perms n.privLvl n.indirectSector
    n.dIndirectSector n.dataSectors = n)
  unfold inodeAt
  rw [Inode.mk.injEq]
  refine ⟨?_, ?_, ?_, ?_, ?_, ?_, ?_, ?_⟩
  · rw [hblit, Block.wordAt_blit_of_disjoint (by omega), Block.wordAt_blit_of_disjoint (by omega),
      Block.wordAt_blit_of_disjoint (by omega), Block.wordAt_blit_of_disjoint (by omega),
      Block.wordAt_blit_of_disjoint (by omega), Block.wordAt_blit_le32 (by omega) hn.id]
  · rw [hblit, Block.wordAt_blit_of_disjoint (by omega), Block.wordAt_blit_of_disjoint (by omega),
      Block.wordAt_blit_of_disjoint (by omega), Block.wordAt_blit_of_disjoint (by omega),
      Block.wordAt_blit_le32 (by omega) hn.size]
  · rw [hbyte 0 (by decide), hflags]
    exact Nat.mod_eq_of_lt hn.type
  · rw [hbyte 1 (by decide), hflags]
    exact Nat.mod_eq_of_lt hn.perms
  · rw [hbyte 2 (by decide), hflags]
    exact Nat.mod_eq_of_lt hn.privLvl
  · rw [hblit, Block.wordAt_blit_of_disjoint (by omega), Block.wordAt_blit_of_disjoint (by omega),
      Block.wordAt_blit_le32 (by omega) hn.indirectSector]
  · rw [hblit, Block.wordAt_blit_of_disjoint (by omega),
      Block.wordAt_blit_le32 (by omega) hn.dIndirectSector]
  · funext i
    have hsectors : ∀ v ∈ List.ofFn n.dataSectors, v < 2 ^ 32 := by
      intro v hv
      obtain ⟨j, rfl⟩ := List.mem_ofFn.mp hv
      exact hn.dataSectors j
    have hcount : (List.ofFn n.dataSectors).length = 11 := List.length_ofFn
    rw [hblit, Block.wordAt_blit_flatMap _ _ _ hsectors (by omega) (by omega), List.getElem_ofFn]

end Bytes

section Writes

variable {s : Storage} {n : Inode}

theorem inodePlace_lt (hn : n.Stored) :
    (inodePlace n.id).1 ≤ 100 ∧ (inodePlace n.id).2 + 64 ≤ 512 := by
  unfold inodePlace
  rcases hn with hn | hn
  · rw [if_neg (by rw [fsRootDirId]; omega)]
    dsimp only
    omega
  · rw [if_pos hn]
    decide

theorem inodePlace_disjoint {i j : ℕ} (hne : i ≠ j) (hi : i < 800 ∨ i = fsRootDirId)
    (hj : j < 800 ∨ j = fsRootDirId) : (inodePlace i).1 ≠ (inodePlace j).1 ∨
      (inodePlace i).2 + 64 ≤ (inodePlace j).2 ∨ (inodePlace j).2 + 64 ≤ (inodePlace i).2 := by
  unfold inodePlace
  split_ifs <;> dsimp only <;> omega

theorem store_writeInodeToDisk (hc : s.Coherent) (hn : n.Stored) :
    (writeInodeToDisk s n).sectors.store = Function.update s.sectors.store (inodePlace n.id).1
      ((s.sectors.store (inodePlace n.id).1).blit (inodePlace n.id).2 (inodeBytes n)) := by
  have hplace := inodePlace_lt hn
  have haddr : lba28 (inodePlace n.id).1 = (inodePlace n.id).1 := Nat.mod_eq_of_lt (by omega)
  have hsector : (if n.id = fsRootDirId then 0 else n.id / 8 + 1) = (inodePlace n.id).1 := by
    unfold inodePlace
    split_ifs <;> rfl
  have hstart : (if n.id = fsRootDirId then 0 else n.id % 8 * 64) = (inodePlace n.id).2 := by
    unfold inodePlace
    split_ifs <;> rfl
  have hbuffer : (s.sectors.fetch lba28 (inodePlace n.id).1).buffer =
      s.sectors.store (inodePlace n.id).1 := by
    rw [Cached.Coherent.fetch_buffer hc, haddr]
  simp only [writeInodeToDisk, hsector, hstart, Storage.writeBuffer, Storage.efficientReadSector,
    Cached.modify_store, Cached.fetch_store, haddr, hbuffer]

theorem inodeOn_writeInodeToDisk (hc : s.Coherent) (hn : n.Stored) (hrange : n.InRange) {i : ℕ}
    (hi : i < 800 ∨ i = fsRootDirId) : inodeOn (writeInodeToDisk s n).sectors.store i =
      if i = n.id then n else inodeOn s.sectors.store i := by
  rw [store_writeInodeToDisk hc hn]
  unfold inodeOn
  by_cases hin : i = n.id
  · rw [if_pos hin, hin, Function.update_self]
    exact inodeAt_blit_self hrange (inodePlace_lt hn).2
  · rw [if_neg hin]
    by_cases hsector : (inodePlace i).1 = (inodePlace n.id).1
    · rw [hsector, Function.update_self]
      apply inodeAt_blit_of_disjoint
      rw [length_inodeBytes]
      exact (inodePlace_disjoint hin hi hn).resolve_left (not_not.mpr hsector)
    · rw [Function.update_of_ne hsector]

theorem writeInodeToDisk_frame (hc : s.Coherent) (hn : n.Stored) :
    (∀ x, 100 < x → (writeInodeToDisk s n).sectors.store x = s.sectors.store x) ∧
      ((writeInodeToDisk s n).sectors.store 0).byte 511 = (s.sectors.store 0).byte 511 := by
  rw [store_writeInodeToDisk hc hn]
  have hplace := (inodePlace_lt hn).1
  constructor
  · intro x hx
    exact Function.update_of_ne (by omega) _ _
  · by_cases hroot : n.id = fsRootDirId
    · have hfirst : inodePlace n.id = (0, 0) := if_pos hroot
      rw [hfirst, Function.update_self]
      apply Block.byte_blit_of_le
      rw [length_inodeBytes]
      decide
    · have hother : (inodePlace n.id).1 ≠ 0 := by
        rw [inodePlace, if_neg hroot]
        exact Nat.succ_ne_zero _
      rw [Function.update_of_ne hother.symm]

/-- `write_inode_to_disk` for the inodes of a list. -/
def writeInodes (s : Storage) (ns : List Inode) : Storage := ns.foldl writeInodeToDisk s

theorem writeInodes_frame {ns : List Inode} (hc : s.Coherent) (hns : ∀ n ∈ ns, n.Stored) :
    (writeInodes s ns).Coherent ∧
      (∀ x, 100 < x → (writeInodes s ns).sectors.store x = s.sectors.store x) ∧
      ((writeInodes s ns).sectors.store 0).byte 511 = (s.sectors.store 0).byte 511 := by
  induction ns generalizing s with
  | nil => exact ⟨hc, fun _ _ => rfl, rfl⟩
  | cons n ns ih =>
    have hn := hns n List.mem_cons_self
    obtain ⟨hsectors, hflag⟩ := writeInodeToDisk_frame hc hn
    obtain ⟨hc', hsectors', hflag'⟩ := ih (writeInodeToDisk_coherent s n)
      fun m hm => hns m (List.mem_cons_of_mem _ hm)
    refine ⟨hc', fun x hx => ?_, hflag'.trans hflag⟩
    exact (hsectors' x hx).trans (hsectors x hx)

theorem inodeOn_writeInodes {ns : List Inode} (hc : s.Coherent)
    (hns : ∀ n ∈ ns, n.Stored ∧ n.InRange) {i : ℕ} (hi : i < 800 ∨ i = fsRootDirId)
    (hne : ∀ n ∈ ns, n.id ≠ i) :
    inodeOn (writeInodes s ns).sectors.store i = inodeOn s.sectors.store i := by
  induction ns generalizing s with
  | nil => rfl
  | cons n ns ih =>
    obtain ⟨hn, hrange⟩ := hns n List.mem_cons_self
    have hrest := ih (writeInodeToDisk_coherent s n)
      (fun m hm => hns m (List.mem_cons_of_mem _ hm))
      fun m hm => hne m (List.mem_cons_of_mem _ hm)
    refine hrest.trans ?_
    rw [inodeOn_writeInodeToDisk hc hn hrange hi, if_neg (hne n List.mem_cons_self).symm]

theorem inodeOn_of_isLast {ns : List Inode} (hc : s.Coherent)
    (hns : ∀ n ∈ ns, n.Stored ∧ n.InRange) (hlast : IsLast ns n) :
    inodeOn (writeInodes s ns).sectors.store n.id = n := by
  obtain ⟨before, behind, rfl, hbehind⟩ := hlast
  obtain ⟨hn, hrange⟩ := hns n (List.mem_append_right _ List.mem_cons_self)
  have hbefore := (writeInodes_frame hc fun m hm => (hns m (List.mem_append_left _ hm)).1).1
  have hsplit : writeInodes s (before ++ n :: behind) =
      writeInodes (writeInodeToDisk (writeInodes s before) n) behind := by
    rw [writeInodes, List.foldl_append]
    rfl
  rw [hsplit, inodeOn_writeInodes (writeInodeToDisk_coherent _ _)
    (fun m hm => hns m (List.mem_append_right _ (List.mem_cons_of_mem _ hm))) hn hbehind,
    inodeOn_writeInodeToDisk hbefore hn hrange hn, if_pos rfl]

theorem readInode_eq (hc : s.Coherent) {id : ℕ} (hid : id < 800) :
    readInode s id = inodeOn s.sectors.store id := by
  have haddr : lba28 (id / 8 + 1) = id / 8 + 1 := Nat.mod_eq_of_lt (by omega)
  have hplace : inodePlace id = (id / 8 + 1, id % 8 * 64) :=
    if_neg (by rw [fsRootDirId]; omega)
  have hbuffer : (s.efficientReadSector (id / 8 + 1)).buffer = s.sectors.store (id / 8 + 1) := by
    refine (Cached.Coherent.fetch_buffer hc _).trans ?_
    rw [haddr]
  simp only [readInode, inodeOn, hplace, hbuffer]

theorem readRoot_eq (hflag : (s.sectors.store 0).byte 511 = 0xff) :
    readRoot s = some (inodeOn s.sectors.store fsRootDirId) := if_pos hflag

end Writes

/-- Inodes that have been written in any order are read back as they were written last; the flag in
sector 0 stays, and no sector behind the table is written. -/
theorem inodeTable_persisted (s : Storage) (hc : s.Coherent) (ns : List Inode)
    (hns : ∀ n ∈ ns, n.Stored ∧ n.InRange) :
    (∀ c : Storage, c.Coherent → c.sectors.store = (writeInodes s ns).sectors.store →
      ∀ n, IsLast ns n → (n.id < 800 → readInode c n.id = n) ∧
        (n.id = fsRootDirId → (s.sectors.store 0).byte 511 = 0xff → readRoot c = some n)) ∧
      ((writeInodes s ns).sectors.store 0).byte 511 = (s.sectors.store 0).byte 511 ∧
      ∀ x, 100 < x → (writeInodes s ns).sectors.store x = s.sectors.store x := by
  obtain ⟨-, hsectors, hflag⟩ := writeInodes_frame hc fun n hn => (hns n hn).1
  refine ⟨fun c hcoherent hstore n hlast => ⟨fun hid => ?_, fun hid hset => ?_⟩, hflag, hsectors⟩
  · rw [readInode_eq hcoherent hid, hstore, inodeOn_of_isLast hc hns hlast]
  · have hset' : (c.sectors.store 0).byte 511 = 0xff := by
      rw [hstore, hflag, hset]
    rw [readRoot_eq hset', hstore, ← hid, inodeOn_of_isLast hc hns hlast]

/-- A file's inode is written, then the root's, then the first again with other permissions. -/
theorem inodeTable_persisted_three_writes :
    readInode (writeInodes ⟨.empty, ⟨fun _ _ => 0xff, fun _ => 0xff, 0⟩⟩
      [createInode 7 1 3 5, createInode 0 2 3 fsRootDirId, createInode 6 1 3 5]) 5 =
        createInode 6 1 3 5 := by
  have hns : ∀ n ∈ [createInode 7 1 3 5, createInode 0 2 3 fsRootDirId, createInode 6 1 3 5],
      n.Stored ∧ n.InRange := by
    simp only [List.forall_mem_cons, List.not_mem_nil, false_imp_iff, implies_true, and_true]
    refine ⟨⟨.inl (by decide), ?_⟩, ⟨.inr rfl, ?_⟩, ⟨.inl (by decide), ?_⟩⟩ <;>
      exact ⟨by decide, by decide, by decide, by decide, by decide, by decide, by decide,
        fun _ => Nat.two_pow_pos 32⟩
  have hc : Storage.Coherent ⟨.empty, ⟨fun _ _ => 0xff, fun _ => 0xff, 0⟩⟩ := rfl
  have hlast : IsLast [createInode 7 1 3 5, createInode 0 2 3 fsRootDirId, createInode 6 1 3 5]
      (createInode 6 1 3 5) :=
    ⟨[createInode 7 1 3 5, createInode 0 2 3 fsRootDirId], [], rfl, by simp⟩
  exact ((inodeTable_persisted _ hc _ hns).1 _
    (writeInodes_frame hc fun n hn => (hns n hn).1).1 rfl _ hlast).1 (by decide)

end BrickOS.Filesystem
