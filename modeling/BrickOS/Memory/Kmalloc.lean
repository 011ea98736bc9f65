import BrickOS.Basic
import BrickOS.Lib.Run
import BrickOS.Lib.Segments
import Mathlib.Logic.Function.Basic

/-! The kernel heap: a list of blocks linked through headers that lie in the heap itself. -/
namespace BrickOS.Memory
open BrickOS.Lib

structure MemoryBlock where
  size : ℕ
  next : ℕ
  free : Bool
deriving DecidableEq, Repr

def memoryBlockSize : ℕ := 13

def kernelMallocStart (hhdm : ℕ) : ℕ := hhdm + 0xd0000000

def kernelMallocEnd (hhdm : ℕ) : ℕ := hhdm + 0xf0000000

/-- `CEIL_DIV` on `uint32_t`. -/
def ceilDiv32 (a b : ℕ) : ℕ := ((a + b - 1) % 2 ^ 32) / b

structure Heap where
  hhdm : ℕ
  mem : ℕ → MemoryBlock
  head : ℕ
  heapSize : ℕ

/-- The number of rounds the list walks below are given, more than a heap below 4 GiB has
blocks. -/
def walkFuel : ℕ := 2 ^ 32

def allocAndMapNewPage (h : Heap) : Option Heap :=
  if h.heapSize + memoryPageSize > kernelMallocEnd h.hhdm then none
  else some { h with heapSize := h.heapSize + memoryPageSize }

def allocAndMapNewPages : ℕ → Heap → Option Heap
  | 0, h => some h
  | n + 1, h => (allocAndMapNewPage h).bind (allocAndMapNewPages n)

def mergeBlocks : ℕ → (ℕ → MemoryBlock) → ℕ → Option (ℕ → MemoryBlock)
  | 0, _, _ => none
  | fuel + 1, mem, block =>
    if (mem block).next ≠ 0 ∧ (mem (mem block).next).free = true then
      mergeBlocks fuel (Function.update mem block
        { mem block with
          size := ((mem block).size + memoryBlockSize + (mem (mem block).next).size) % 2 ^ 32
          next := (mem (mem block).next).next }) block
    else some mem

def defragFrom : ℕ → (ℕ → MemoryBlock) → ℕ → Option (ℕ → MemoryBlock)
  | 0, _, _ => none
  | fuel + 1, mem, current =>
    if current = 0 then some mem
    else (if (mem current).free then mergeBlocks walkFuel mem current else some mem).bind fun mem' =>
      defragFrom fuel mem' (mem' current).next

def defragHeap (h : Heap) : Option Heap :=
  (defragFrom walkFuel h.mem h.head).map fun mem => { h with mem := mem }

def findFreeFrom (mem : ℕ → MemoryBlock) (size : ℕ) : ℕ → ℕ → Option ℕ
  | 0, _ => none
  | fuel + 1, current =>
    if current = 0 then some 0
    else if (mem current).free = true ∧ (mem current).size ≥ size then some current
    else findFreeFrom mem size fuel (mem current).next

def findFreeBlock (h : Heap) (size : ℕ) : Option ℕ := findFreeFrom h.mem size walkFuel h.head

def splitBlock (mem : ℕ → MemoryBlock) (block size : ℕ) : ℕ → MemoryBlock :=
  if (mem block).size > size + memoryBlockSize then
    let newBlock := block + memoryBlockSize + size
    let mem' := Function.update mem newBlock
      ⟨(mem block).size - size - memoryBlockSize, (mem block).next, true⟩
    Function.update mem' block { mem' block with size := size, next := newBlock }
  else mem

def findLast (mem : ℕ → MemoryBlock) : ℕ → ℕ → Option ℕ
  | 0, _ => none
  | fuel + 1, last =>
    if last ≠ 0 ∧ (mem last).next ≠ 0 then findLast mem fuel (mem last).next else some last

/-- `kmalloc`, `none` for the panic of the page allocation. -/
def kmalloc (h : Heap) (size : ℕ) : Option (Heap × ℕ) :=
  if size = 0 then some (h, 0)
  else (findFreeBlock h size).bind fun block =>
    if block ≠ 0 then
      let mem := splitBlock h.mem block size
      some ({ h with mem := Function.update mem block { mem block with free := false } },
        block + memoryBlockSize)
    else
      let totalSize := (size + memoryBlockSize) % 2 ^ 32
      (allocAndMapNewPages (ceilDiv32 totalSize memoryPageSize) h).bind fun h =>
        (findLast h.mem walkFuel h.head).map fun last =>
          let block := last + memoryBlockSize + (h.mem last).size
          let mem := Function.update h.mem block ⟨size, 0, false⟩
          let h' := if last ≠ 0 then
            { h with mem := Function.update mem last { mem last with next := block } }
            else { h with mem := mem, head := block }
          (h', block + memoryBlockSize)

/-- `kfree`, `none` for the panic on a double free. -/
def kfree (h : Heap) (addr : ℕ) : Option Heap :=
  if addr = 0 then some h
  else
    let block := addr - memoryBlockSize
    if (h.mem block).free then none
    else defragHeap
      { h with mem := Function.update h.mem block { h.mem block with free := true } }

/-- `init_kmalloc`; `mem` is what the memory holds before. -/
def initKmalloc (hhdm : ℕ) (mem : ℕ → MemoryBlock) (initialHeapsize : ℕ) : Heap :=
  let heapSize := ceilDiv32 initialHeapsize memoryPageSize * memoryPageSize
  { hhdm := hhdm
    mem := Function.update mem (kernelMallocStart hhdm)
      ⟨(heapSize + 2 ^ 32 - memoryBlockSize) % 2 ^ 32, 0, true⟩
    head := kernelMallocStart hhdm
    heapSize := heapSize }

/-- The headers of `segs`, linked from `a` on: each block's `next` is the address behind its
payload, the last block's is null. -/
def Linked (mem : ℕ → MemoryBlock) : ℕ → List Seg → Prop
  | _, [] => True
  | a, s :: ss =>
    mem a = ⟨s.size, if ss = [] then 0 else a + memoryBlockSize + s.size, s.free⟩ ∧
      Linked mem (a + memoryBlockSize + s.size) ss

def Chained (mem : ℕ → MemoryBlock) : ℕ → List Seg → Prop
  | _, [] => True
  | a, s :: ss => mem a = ⟨s.size, a + memoryBlockSize + s.size, s.free⟩ ∧
      Chained mem (a + memoryBlockSize + s.size) ss

theorem linked_append (mem : ℕ → MemoryBlock) (a : ℕ) (ls : List Seg) (x : Seg) (rs : List Seg) :
    Linked mem a (ls ++ x :: rs) ↔
      Chained mem a ls ∧ Linked mem (a + span memoryBlockSize ls) (x :: rs) := by
  induction ls generalizing a with
  | nil => simp [Chained, span]
  | cons s ls ih =>
    simp only [List.cons_append, Linked, Chained, span, ih]
    rw [show a + memoryBlockSize + s.size + span memoryBlockSize ls =
      a + (memoryBlockSize + s.size + span memoryBlockSize ls) by omega]
    simp [and_assoc]

theorem Linked.congr {mem mem' : ℕ → MemoryBlock} {a : ℕ} {ss : List Seg}
    (h : Linked mem a ss) (heq : ∀ i, a ≤ i → i < a + span memoryBlockSize ss → mem' i = mem i) :
    Linked mem' a ss := by
  induction ss generalizing a with
  | nil => trivial
  | cons s ss ih =>
    have hpos : 0 < memoryBlockSize := by decide
    simp only [span] at heq
    refine ⟨(heq a le_rfl (by omega)).trans h.1, ih h.2 fun i hi hlt => heq i (by omega) (by omega)⟩

theorem Chained.congr {mem mem' : ℕ → MemoryBlock} {a : ℕ} {ss : List Seg}
    (h : Chained mem a ss) (heq : ∀ i, a ≤ i → i < a + span memoryBlockSize ss → mem' i = mem i) :
    Chained mem' a ss := by
  induction ss generalizing a with
  | nil => trivial
  | cons s ss ih =>
    have hpos : 0 < memoryBlockSize := by decide
    simp only [span] at heq
    refine ⟨(heq a le_rfl (by omega)).trans h.1, ih h.2 fun i hi hlt => heq i (by omega) (by omega)⟩

theorem Linked.header {mem : ℕ → MemoryBlock} {a : ℕ} {ss : List Seg} {b : ℕ × Seg}
    (h : Linked mem a ss) (hb : b ∈ place memoryBlockSize a ss) :
    (mem b.1).size = b.2.size ∧ (mem b.1).free = b.2.free := by
  induction ss generalizing a with
  | nil => simp [place] at hb
  | cons s ss ih =>
    rcases List.mem_cons.mp hb with rfl | hb
    · simp [h.1]
    · exact ih h.2 hb

theorem length_le_span (ss : List Seg) : ss.length ≤ span memoryBlockSize ss := by
  induction ss with
  | nil => rfl
  | cons s ss ih =>
    have hpos : 0 < memoryBlockSize := by decide
    simp only [List.length_cons, span]
    omega

theorem findFreeFrom_spec {mem : ℕ → MemoryBlock} (n : ℕ) {a : ℕ} {ss : List Seg} {fuel : ℕ}
    (h : Linked mem a ss) (ha : a ≠ 0) (hfuel : ss.length < fuel) :
    findFreeFrom mem n fuel (if ss = [] then 0 else a) = some 0 ∨
      ∃ ls x rs, ss = ls ++ x :: rs ∧ x.free = true ∧ n ≤ x.size ∧
        findFreeFrom mem n fuel (if ss = [] then 0 else a) =
          some (a + span memoryBlockSize ls) := by
  induction ss generalizing a fuel with
  | nil =>
    left
    cases fuel with
    | zero => simp at hfuel
    | succ fuel => simp [findFreeFrom]
  | cons s ss ih =>
    cases fuel with
    | zero => simp at hfuel
    | succ fuel =>
      simp only [List.cons_ne_nil, if_false]
      rw [findFreeFrom, if_neg ha]
      simp only [h.1]
      by_cases hfit : s.free = true ∧ s.size ≥ n
      · right
        exact ⟨[], s, ss, rfl, hfit.1, hfit.2, by rw [if_pos hfit]; simp [span]⟩
      · rw [if_neg hfit]
        rcases ih h.2 (by omega) (by simpa using hfuel) with h0 | ⟨ls, x, rs, hs, hx, hn, hr⟩
        · exact Or.inl h0
        · right
          refine ⟨s :: ls, x, rs, by rw [hs]; rfl, hx, hn, ?_⟩
          rw [hr, span]
          congr 1
          omega

theorem findLast_spec {mem : ℕ → MemoryBlock} {a : ℕ} {ls : List Seg} {x : Seg} {fuel : ℕ}
    (h : Linked mem a (ls ++ [x])) (ha : a ≠ 0) (hfuel : ls.length < fuel) :
    findLast mem fuel a = some (a + span memoryBlockSize ls) := by
  induction ls generalizing a fuel with
  | nil =>
    cases fuel with
    | zero => simp at hfuel
    | succ fuel =>
      have hm : (mem a).next = 0 := by rw [h.1]; simp
      simp [findLast, hm, span]
  | cons s ls ih =>
    cases fuel with
    | zero => simp at hfuel
    | succ fuel =>
      have hm : (mem a).next = a + memoryBlockSize + s.size := by rw [h.1]; simp
      rw [findLast, if_pos ⟨ha, by rw [hm]; omega⟩, hm, ih h.2 (by omega) (by simpa using hfuel),
        span]
      congr 1
      omega

theorem mergeBlocks_spec {mem : ℕ → MemoryBlock} {a s : ℕ} {ss : List Seg} {fuel : ℕ}
    (h : Linked mem a (⟨s, true⟩ :: ss)) (hfuel : ss.length < fuel)
    (hsize : s + span memoryBlockSize ss < 2 ^ 32) :
    ∃ mem', mergeBlocks fuel mem a = some mem' ∧ (∀ i, i ≠ a → mem' i = mem i) ∧
      Linked mem' a (⟨(absorb memoryBlockSize s ss).1, true⟩ :: (absorb memoryBlockSize s ss).2) := by
  induction ss generalizing mem s fuel with
  | nil =>
    cases fuel with
    | zero => simp at hfuel
    | succ fuel =>
      have hm : (mem a).next = 0 := by rw [h.1]; simp
      exact ⟨mem, by simp [mergeBlocks, hm], fun _ _ => rfl, h⟩
  | cons t ss ih =>
    cases fuel with
    | zero => simp at hfuel
    | succ fuel =>
      have hm : mem a = ⟨s, a + memoryBlockSize + s, true⟩ := by rw [h.1]; simp
      have ht := h.2.1
      by_cases hf : t.free = true
      swap
      · refine ⟨mem, ?_, fun _ _ => rfl, ?_⟩
        · simp [mergeBlocks, hm, ht, hf]
        · simpa [absorb, hf] using h
      simp only [span] at hsize
      have hpos : 0 < memoryBlockSize := by decide
      have hjoined : Linked (Function.update mem a ⟨s + memoryBlockSize + t.size,
          if ss = [] then 0 else a + memoryBlockSize + s + memoryBlockSize + t.size, true⟩) a
          (⟨s + memoryBlockSize + t.size, true⟩ :: ss) := by
        refine ⟨by simp [Nat.add_assoc], ?_⟩
        have hrest := h.2.2
        rw [show a + memoryBlockSize + s + memoryBlockSize + t.size =
          a + memoryBlockSize + (s + memoryBlockSize + t.size) by omega] at hrest
        exact hrest.congr fun i hi _ => Function.update_of_ne (by omega) _ _
      obtain ⟨mem', hmerge, hframe, hlink⟩ := ih hjoined
        (show ss.length < fuel by simpa using hfuel) (by omega)
      refine ⟨mem', ?_, ?_, ?_⟩
      · rw [mergeBlocks, if_pos ⟨by rw [hm]; simp; omega, by rw [hm]; simp only; rw [ht, hf]⟩]
        rw [← hmerge]
        congr 2
        rw [hm]
        simp only
        rw [ht]
        simp only
        rw [Nat.mod_eq_of_lt (by omega)]
      · intro i hi
        rw [hframe i hi, Function.update_of_ne hi]
      · simpa [absorb, hf] using hlink

theorem coalesce_eq_nil {ss : List Seg} : coalesce memoryBlockSize ss = [] ↔ ss = [] := by
  cases ss with
  | nil => simp [coalesce]
  | cons s ss =>
    rw [coalesce]
    split <;> simp

theorem Linked.replace_tail {mem mem' : ℕ → MemoryBlock} {a : ℕ} {s : Seg} {ss ts : List Seg}
    (h : Linked mem a (s :: ss)) (ha : mem' a = mem a) (hnil : ts = [] ↔ ss = [])
    (ht : Linked mem' (a + memoryBlockSize + s.size) ts) : Linked mem' a (s :: ts) := by
  refine ⟨?_, ht⟩
  rw [ha, h.1]
  simp only [hnil]

theorem defragFrom_spec {mem : ℕ → MemoryBlock} {a : ℕ} {ss : List Seg} {fuel : ℕ}
    (h : Linked mem a ss) (ha : a ≠ 0) (hfuel : ss.length < fuel)
    (hsize : span memoryBlockSize ss < 2 ^ 32) :
    ∃ mem', defragFrom fuel mem (if ss = [] then 0 else a) = some mem' ∧
      (∀ i, i < a → mem' i = mem i) ∧ Linked mem' a (coalesce memoryBlockSize ss) := by
  induction fuel generalizing mem a ss with
  | zero => omega
  | succ fuel ih =>
    cases ss with
    | nil => exact ⟨mem, by simp [defragFrom], fun _ _ => rfl, by simp [coalesce, Linked]⟩
    | cons s ss =>
      have hpos : 0 < memoryBlockSize := by decide
      simp only [span] at hsize
      simp only [List.length_cons] at hfuel
      simp only [List.cons_ne_nil, if_false]
      by_cases hf : s.free = true
      · obtain ⟨n, f⟩ := s
        obtain rfl : f = true := hf
        have hlen := length_le_span ss
        obtain ⟨mem₁, hmerge, hframe₁, hlink₁⟩ := mergeBlocks_spec h
          (show ss.length < walkFuel by unfold walkFuel; omega) (by simp only at hsize; omega)
        have hspan : memoryBlockSize + _ + _ = _ := span_absorb n ss
        have hle := length_absorb_le memoryBlockSize n ss
        obtain ⟨mem₂, hdef, hframe₂, hlink₂⟩ := ih hlink₁.2 (by omega) (by omega)
          (by simp only at hsize; omega)
        refine ⟨mem₂, ?_, ?_, ?_⟩
        · rw [defragFrom, if_neg ha]
          simp only [h.1, if_true, hmerge, Option.bind_some]
          rw [hlink₁.1]
          exact hdef
        · intro i hi
          rw [hframe₂ i (by simp only; omega), hframe₁ i (by omega)]
        · rw [coalesce, if_pos rfl]
          exact hlink₁.replace_tail (hframe₂ a (by simp only; omega)) coalesce_eq_nil hlink₂
      · obtain ⟨mem₂, hdef, hframe₂, hlink₂⟩ := ih h.2 (by omega) (by omega) (by omega)
        have hfree : (mem a).free = false := by rw [h.1]; simpa using hf
        refine ⟨mem₂, ?_, ?_, ?_⟩
        · rw [defragFrom, if_neg ha]
          simp only [hfree, Bool.false_eq_true, if_false, Option.bind_some]
          rw [h.1]
          exact hdef
        · intro i hi
          exact hframe₂ i (by omega)
        · rw [coalesce, if_neg hf]
          exact h.replace_tail (hframe₂ a (by omega)) coalesce_eq_nil hlink₂

theorem splitBlock_spec {mem : ℕ → MemoryBlock} {a n : ℕ} {x : Seg} {rs : List Seg}
    (h : Linked mem a (x :: rs)) :
    Linked (Function.update (splitBlock mem a n) a { splitBlock mem a n a with free := false }) a
        (carve memoryBlockSize x n ++ rs) ∧
      ∀ i, i < a → Function.update (splitBlock mem a n) a
        { splitBlock mem a n a with free := false } i = mem i := by
  have hm : (mem a).size = x.size := by rw [h.1]
  have hpos : 0 < memoryBlockSize := by decide
  constructor
  · unfold splitBlock carve
    simp only [hm]
    split
    · simp only [List.cons_append, List.nil_append]
      refine ⟨by simp, ?_, ?_⟩
      · simp only
        rw [Function.update_of_ne (by omega), Function.update_of_ne (by omega),
          Function.update_self, h.1]
        simp only [MemoryBlock.mk.injEq, and_true, true_and]
        rw [show a + memoryBlockSize + n + memoryBlockSize + (x.size - n - memoryBlockSize) =
          a + memoryBlockSize + x.size by omega]
      · rw [show a + memoryBlockSize + n + memoryBlockSize + (x.size - n - memoryBlockSize) =
          a + memoryBlockSize + x.size by omega]
        refine h.2.congr fun i hi _ => ?_
        rw [Function.update_of_ne (by omega), Function.update_of_ne (by omega),
          Function.update_of_ne (by omega)]
    · refine ⟨by simp [h.1], h.2.congr fun i hi _ => Function.update_of_ne (by omega) _ _⟩
  · intro i hi
    rw [Function.update_of_ne (by omega)]
    unfold splitBlock
    split
    · simp only
      rw [Function.update_of_ne (by omega), Function.update_of_ne (by omega)]
    · rfl

structure Heap.Shape (h : Heap) (ss : List Seg) : Prop where
  head_eq : h.head = kernelMallocStart h.hhdm
  nonempty : ss ≠ []
  linked : Linked h.mem h.head ss
  coalesced : Coalesced ss
  small : span memoryBlockSize ss < 2 ^ 32

theorem kernelMallocStart_ne_zero (hhdm : ℕ) : kernelMallocStart hhdm ≠ 0 := by
  unfold kernelMallocStart
  omega

theorem Heap.Shape.head_ne {h : Heap} {ss : List Seg} (hs : h.Shape ss) : h.head ≠ 0 := by
  rw [hs.head_eq]
  exact kernelMallocStart_ne_zero _

theorem Heap.Shape.length_lt {h : Heap} {ss : List Seg} (hs : h.Shape ss) :
    ss.length < walkFuel := (length_le_span ss).trans_lt hs.small

theorem allocAndMapNewPages_frame {n : ℕ} {h h' : Heap} (he : allocAndMapNewPages n h = some h') :
    h'.mem = h.mem ∧ h'.head = h.head ∧ h'.hhdm = h.hhdm ∧
      h'.heapSize = h.heapSize + n * memoryPageSize := by
  induction n generalizing h with
  | zero => cases he; exact ⟨rfl, rfl, rfl, by omega⟩
  | succ n ih =>
    obtain ⟨u, hu, hr⟩ := Option.bind_eq_some_iff.mp he
    obtain ⟨hm, hh, hd, hsize⟩ := ih hr
    unfold allocAndMapNewPage at hu
    split at hu
    · cases hu
    · cases hu
      refine ⟨hm, hh, hd, ?_⟩
      rw [hsize, Nat.succ_mul, Nat.add_assoc, Nat.add_comm memoryPageSize]

theorem allocAndMapNewPages_isSome {n : ℕ} {h : Heap}
    (hroom : h.heapSize + n * memoryPageSize ≤ kernelMallocEnd h.hhdm) :
    (allocAndMapNewPages n h).isSome := by
  induction n generalizing h with
  | zero => rfl
  | succ n ih =>
    rw [Nat.succ_mul] at hroom
    rw [allocAndMapNewPages, allocAndMapNewPage, if_neg (by omega), Option.bind_some]
    exact ih (by simp only; omega)

inductive Grown (n : ℕ) : List Seg → List Seg → ℕ → Prop
  | carved (ls : List Seg) (x : Seg) (rs : List Seg) (hx : x.free = true) (hn : n ≤ x.size) :
      Grown n (ls ++ x :: rs) (ls ++ (carve memoryBlockSize x n ++ rs)) (span memoryBlockSize ls)
  | appended (ss : List Seg) : Grown n ss (ss ++ [⟨n, false⟩]) (span memoryBlockSize ss)

/-- The blocks stay within what is mapped, or a block is added behind them and the pages that
the code takes the request to need are mapped. -/
def Heap.Extends (h h' : Heap) (ss ts : List Seg) (n : ℕ) : Prop :=
  span memoryBlockSize ts = span memoryBlockSize ss ∧ h'.heapSize = h.heapSize ∨
    findFreeBlock h n = some 0 ∧
    span memoryBlockSize ts = span memoryBlockSize ss + memoryBlockSize + n ∧
    h'.heapSize = h.heapSize +
      ceilDiv32 ((n + memoryBlockSize) % 2 ^ 32) memoryPageSize * memoryPageSize

theorem kmalloc_cases {h h' : Heap} {ss : List Seg} {n p : ℕ} (hs : h.Shape ss) (hn : 0 < n)
    (he : kmalloc h n = some (h', p)) :
    h'.hhdm = h.hhdm ∧ h'.head = h.head ∧ ∃ ts off, Grown n ss ts off ∧
      p = h.head + off + memoryBlockSize ∧ Linked h'.mem h'.head ts ∧ h.Extends h' ss ts n := by
  have hpos : 0 < memoryBlockSize := by decide
  rw [kmalloc, if_neg (by omega)] at he
  obtain ⟨block, hb, he⟩ := Option.bind_eq_some_iff.mp he
  rcases findFreeFrom_spec n hs.linked hs.head_ne hs.length_lt with h0 | ⟨ls, x, rs, rfl, hx, hfit, hr⟩
  · rw [if_neg hs.nonempty] at h0
    obtain rfl : block = 0 := by
      rw [findFreeBlock, h0] at hb
      exact (Option.some.inj hb).symm
    rw [if_neg (by simp)] at he
    obtain ⟨h₁, hpages, he⟩ := Option.bind_eq_some_iff.mp he
    obtain ⟨hm, hh, hd, hsize⟩ := allocAndMapNewPages_frame hpages
    obtain ⟨last, hlast, he⟩ := Option.map_eq_some_iff.mp he
    obtain ⟨ls, x, rfl⟩ := List.eq_nil_or_concat' ss |>.resolve_left hs.nonempty
    have hlen := hs.length_lt
    rw [List.length_append] at hlen
    rw [hm, hh, findLast_spec hs.linked hs.head_ne (by simpa using Nat.lt_of_succ_lt hlen)] at hlast
    obtain rfl : h.head + span memoryBlockSize ls = last := Option.some.inj hlast
    obtain ⟨hchain, hx⟩ := (linked_append _ _ _ _ _).mp hs.linked
    have hhead := hs.head_ne
    dsimp only at he
    rw [if_pos (by omega)] at he
    obtain ⟨rfl, rfl⟩ := Prod.mk.inj he
    have hxm := hx.1
    rw [if_pos rfl] at hxm
    have hspan : span memoryBlockSize (ls ++ [x] ++ [⟨n, false⟩]) =
        span memoryBlockSize (ls ++ [x]) + memoryBlockSize + n := by
      simp only [span_append, span]
      omega
    refine ⟨hd, hh, ls ++ [x] ++ [⟨n, false⟩], _, .appended _, ?_, ?_, Or.inr ⟨hb, hspan, hsize⟩⟩
    · simp only [hm, hxm, span_append, span]
      omega
    · simp only [hm, hh, hxm]
      rw [List.append_assoc, List.singleton_append, linked_append]
      refine ⟨hchain.congr fun i _ hi => ?_, ?_, ?_, trivial⟩
      · rw [Function.update_of_ne (by omega), Function.update_of_ne (by omega)]
      · rw [Function.update_self, Function.update_of_ne (by omega), hxm, if_neg (by simp)]
      · rw [Function.update_of_ne (by omega), Function.update_self, if_pos rfl]
  · rw [if_neg hs.nonempty] at hr
    have hhead := hs.head_ne
    obtain rfl : h.head + span memoryBlockSize ls = block := by
      rw [findFreeBlock, hr] at hb
      exact Option.some.inj hb
    rw [if_pos (by omega)] at he
    obtain ⟨rfl, rfl⟩ := Prod.mk.inj (Option.some.inj he)
    obtain ⟨hchain, hxl⟩ := (linked_append _ _ _ _ _).mp hs.linked
    obtain ⟨hcarve, hframe⟩ := splitBlock_spec (n := n) hxl
    have hspan : span memoryBlockSize (ls ++ (carve memoryBlockSize x n ++ rs)) =
        span memoryBlockSize (ls ++ x :: rs) := by
      simp only [span_append, span_carve, span]
    refine ⟨rfl, rfl, _, _, .carved ls x rs hx hfit, rfl, ?_, Or.inl ⟨hspan, rfl⟩⟩
    have hne : ∃ y ys, carve memoryBlockSize x n ++ rs = y :: ys := by
      unfold carve
      split <;> exact ⟨_, _, rfl⟩
    obtain ⟨y, ys, hy⟩ := hne
    rw [hy] at hcarve ⊢
    exact (linked_append _ _ _ _ _).mpr ⟨hchain.congr fun i _ hi => hframe i hi, hcarve⟩

theorem kmalloc_isSome {h : Heap} {ss : List Seg} {n : ℕ} (hs : h.Shape ss)
    (hroom : h.heapSize + ceilDiv32 ((n + memoryBlockSize) % 2 ^ 32) memoryPageSize * memoryPageSize ≤
      kernelMallocEnd h.hhdm) : (kmalloc h n).isSome := by
  unfold kmalloc
  split
  · rfl
  have hfind : ∃ b, findFreeBlock h n = some b := by
    have := findFreeFrom_spec n hs.linked hs.head_ne hs.length_lt
    rw [if_neg hs.nonempty] at this
    rcases this with h0 | ⟨_, _, _, _, _, _, hr⟩
    · exact ⟨_, h0⟩
    · exact ⟨_, hr⟩
  obtain ⟨b, hb⟩ := hfind
  rw [hb, Option.bind_some]
  split
  · rfl
  dsimp only
  obtain ⟨h₁, hpages⟩ := Option.isSome_iff_exists.mp (allocAndMapNewPages_isSome hroom)
  obtain ⟨hm, hh, -, -⟩ := allocAndMapNewPages_frame hpages
  obtain ⟨ls, x, rfl⟩ := List.eq_nil_or_concat' ss |>.resolve_left hs.nonempty
  have hlen := hs.length_lt
  rw [List.length_append] at hlen
  rw [hpages, Option.bind_some, hm, hh,
    findLast_spec hs.linked hs.head_ne (by simpa using Nat.lt_of_succ_lt hlen)]
  rfl

theorem Grown.used {n : ℕ} {ss ts : List Seg} {off : ℕ} (h : Grown n ss ts off) (a : ℕ) :
    ∃ s : Seg, n ≤ s.size ∧ s.free = false ∧
      (used memoryBlockSize a ts).Perm ((a + off, s) :: used memoryBlockSize a ss) := by
  cases h with
  | carved ls x rs hx hn =>
    refine ⟨⟨if x.size > n + memoryBlockSize then n else x.size, false⟩, ?_, rfl, ?_⟩
    · simp only
      split
      · exact le_rfl
      · exact hn
    · rw [used_append, used_carve, used_append, used_cons_free _ _ _ hx]
      exact List.perm_middle
  | appended =>
    refine ⟨⟨n, false⟩, le_rfl, rfl, ?_⟩
    rw [used_append, used_cons_taken _ _ _ rfl]
    exact List.perm_append_singleton _ _

theorem Grown.coalesced {n : ℕ} {ss ts : List Seg} {off : ℕ} (h : Grown n ss ts off)
    (hs : Coalesced ss) : Coalesced ts := by
  cases h with
  | carved ls x rs hx hn => exact hs.carve n hx
  | appended => exact hs.concat_taken n

theorem Grown.length_le {n : ℕ} {ss ts : List Seg} {off : ℕ} (h : Grown n ss ts off) :
    ts ≠ [] ∧ ts.length ≤ ss.length + 1 := by
  cases h with
  | carved ls x rs hx hn =>
    unfold carve
    split <;> simp
    omega
  | appended => simp

/-- Freeing a block in use gives the list with that block free, coalesced. -/
theorem kfree_spec {h : Heap} {ls rs : List Seg} {x : Seg} (hs : h.Shape (ls ++ x :: rs))
    (hx : x.free = false) :
    ∃ h', kfree h (h.head + span memoryBlockSize ls + memoryBlockSize) = some h' ∧
      h'.hhdm = h.hhdm ∧ h'.head = h.head ∧ h'.heapSize = h.heapSize ∧
      Linked h'.mem h'.head (coalesce memoryBlockSize (ls ++ ⟨x.size, true⟩ :: rs)) := by
  have hpos : 0 < memoryBlockSize := by decide
  obtain ⟨hchain, hxl⟩ := (linked_append _ _ _ _ _).mp hs.linked
  obtain ⟨b, hb⟩ : ∃ b, b = h.head + span memoryBlockSize ls := ⟨_, rfl⟩
  rw [← hb] at hxl
  have hlink : Linked (Function.update h.mem b { h.mem b with free := true }) h.head
      (ls ++ ⟨x.size, true⟩ :: rs) := by
    rw [linked_append, ← hb]
    refine ⟨hchain.congr fun i _ hi => Function.update_of_ne (by omega) _ _, ?_, ?_⟩
    · rw [Function.update_self, hxl.1]
    · exact hxl.2.congr fun i hi _ => Function.update_of_ne (by omega) _ _
  have hspan : span memoryBlockSize (ls ++ ⟨x.size, true⟩ :: rs) =
      span memoryBlockSize (ls ++ x :: rs) := by simp [span]
  obtain ⟨mem', hdef, -, hlink'⟩ := defragFrom_spec hlink hs.head_ne
    (show _ < walkFuel by simpa using hs.length_lt) (by rw [hspan]; exact hs.small)
  rw [if_neg (by simp)] at hdef
  refine ⟨{ h with mem := mem' }, ?_, rfl, rfl, rfl, hlink'⟩
  have hfree : (h.mem b).free = false := by rw [hxl.1]; exact hx
  rw [kfree, if_neg (by omega), ← hb, Nat.add_sub_cancel]
  simp only [hfree, Bool.false_eq_true, if_false, defragHeap, hdef, Option.map_some]

def Heap.top (h : Heap) : Option ℕ :=
  (findLast h.mem walkFuel h.head).map fun last => last + memoryBlockSize + (h.mem last).size

def Heap.Below4GiB (h : Heap) : Prop := ∀ t ∈ h.top, t < kernelMallocStart h.hhdm + 2 ^ 32

instance (h : Heap) : Decidable h.Below4GiB :=
  inferInstanceAs (Decidable (∀ t ∈ h.top, t < kernelMallocStart h.hhdm + 2 ^ 32))

theorem Linked.top {h : Heap} {ss : List Seg} (hl : Linked h.mem h.head ss) (hne : ss ≠ [])
    (hhead : h.head ≠ 0) (hlen : ss.length ≤ walkFuel) :
    h.top = some (h.head + span memoryBlockSize ss) := by
  obtain ⟨ls, x, rfl⟩ := (List.eq_nil_or_concat' ss).resolve_left hne
  rw [List.length_append, List.length_singleton] at hlen
  have hx := ((linked_append _ _ _ _ _).mp hl).2.1
  rw [Heap.top, findLast_spec hl hhead hlen, Option.map_some, hx]
  simp only [span_append, span]
  congr 1
  omega

/-- The heap with the live allocations: the pointers handed out and not yet freed, each with
the number of bytes asked for. -/
structure KernelHeap where
  heap : Heap
  live : List (ℕ × ℕ)

inductive HeapCall where
  | kmalloc (size : ℕ)
  | kfree (addr : ℕ)

/-- A call the kernel may make: a non-empty 32-bit request, or a live pointer given back. -/
def KernelHeap.step (s : KernelHeap) : HeapCall → Option KernelHeap
  | .kmalloc size =>
    if 0 < size ∧ size < 2 ^ 32 then
      (Memory.kmalloc s.heap size).map fun r => ⟨r.1, (r.2, size) :: s.live⟩
    else none
  | .kfree addr =>
    if addr ∈ s.live.map Prod.fst then
      (Memory.kfree s.heap addr).map fun h => ⟨h, s.live.filter fun l => l.1 ≠ addr⟩
    else none

def KernelHeap.start (hhdm : ℕ) (mem : ℕ → MemoryBlock) (initialHeapsize : ℕ) : KernelHeap :=
  ⟨initKmalloc hhdm mem initialHeapsize, []⟩

/-- The blocks tile the heap from its start, no two neighbours are free, and the blocks in use
are those of the live allocations, each at least as long as the request. -/
structure KernelHeap.Inv (s : KernelHeap) (ss : List Seg) : Prop where
  shape : s.heap.Shape ss
  nodup : (s.live.map Prod.fst).Nodup
  live_used : ∀ l ∈ s.live, ∃ b ∈ used memoryBlockSize s.heap.head ss,
    l.1 = b.1 + memoryBlockSize ∧ l.2 ≤ b.2.size
  used_live : ∀ b ∈ used memoryBlockSize s.heap.head ss, ∃ n, (b.1 + memoryBlockSize, n) ∈ s.live

theorem KernelHeap.start_inv (hhdm : ℕ) (mem : ℕ → MemoryBlock) (n : ℕ)
    (h : (initKmalloc hhdm mem n).Below4GiB) :
    (KernelHeap.start hhdm mem n).Inv
      [⟨((initKmalloc hhdm mem n).heapSize + 2 ^ 32 - memoryBlockSize) % 2 ^ 32, true⟩] := by
  obtain ⟨k, hk⟩ : ∃ k, k = ((initKmalloc hhdm mem n).heapSize + 2 ^ 32 - memoryBlockSize) %
      2 ^ 32 := ⟨_, rfl⟩
  rw [← hk]
  have hl : Linked (initKmalloc hhdm mem n).mem (initKmalloc hhdm mem n).head [⟨k, true⟩] :=
    ⟨by rw [hk]; simp [initKmalloc], trivial⟩
  have htop := hl.top (by simp) (kernelMallocStart_ne_zero hhdm) (by simp [walkFuel])
  have hsmall := h _ htop
  refine ⟨⟨rfl, by simp, hl, by simp [Coalesced], ?_⟩, List.nodup_nil, ?_, ?_⟩
  · change kernelMallocStart hhdm + _ < kernelMallocStart hhdm + _ at hsmall
    omega
  · simp [KernelHeap.start]
  · simp [used, place]

theorem KernelHeap.step_kmalloc {s t : KernelHeap} {ss : List Seg} {n : ℕ} (h : s.Inv ss)
    (hc : s.step (.kmalloc n) = some t) (hbelow : t.heap.Below4GiB) :
    ∃ ts, t.Inv ts ∧ t.heap.hhdm = s.heap.hhdm ∧ s.heap.Extends t.heap ss ts n ∧
      ∀ b ∈ used memoryBlockSize s.heap.head ss, b ∈ used memoryBlockSize t.heap.head ts := by
  simp only [KernelHeap.step] at hc
  split at hc
  case isFalse => cases hc
  rename_i hn
  obtain ⟨⟨h', p⟩, hm, rfl⟩ := Option.map_eq_some_iff.mp hc
  obtain ⟨hhdm, hhead, ts, off, hg, rfl, hl, hext⟩ := kmalloc_cases h.shape hn.1 hm
  obtain ⟨hne, hlen⟩ := hg.length_le
  obtain ⟨x, hx, hxf, hperm⟩ := hg.used s.heap.head
  have hhead0 : h'.head ≠ 0 := by rw [hhead]; exact h.shape.head_ne
  have hsmall := hbelow _ (hl.top hne hhead0 (hlen.trans h.shape.length_lt))
  have hfresh : ∀ b ∈ used memoryBlockSize s.heap.head ss, s.heap.head + off ≠ b.1 := by
    have hpw := used_addr_pairwise (by decide : 0 < memoryBlockSize) s.heap.head ts
    exact (List.pairwise_cons.mp ((hperm.pairwise_iff fun hxy => Ne.symm hxy).mp hpw)).1
  refine ⟨ts, ⟨⟨?_, hne, hl, hg.coalesced h.shape.coalesced, ?_⟩, ?_, ?_, ?_⟩, hhdm, hext, ?_⟩
  · simp only [hhead, hhdm]
    exact h.shape.head_eq
  · have hstart := h.shape.head_eq
    simp only [hhead, hhdm] at hsmall
    omega
  · rw [List.map_cons, List.nodup_cons]
    refine ⟨fun hp => ?_, h.nodup⟩
    obtain ⟨l, hl', hlp⟩ := List.mem_map.mp hp
    obtain ⟨b, hb, hlb, -⟩ := h.live_used l hl'
    exact hfresh b hb (by simp only at hlp; omega)
  · intro l hl'
    simp only [hhead]
    rcases List.mem_cons.mp hl' with rfl | hl'
    · exact ⟨_, hperm.mem_iff.mpr List.mem_cons_self, rfl, hx⟩
    · obtain ⟨b, hb, hlb⟩ := h.live_used l hl'
      exact ⟨b, hperm.mem_iff.mpr (List.mem_cons_of_mem _ hb), hlb⟩
  · intro b hb
    simp only [hhead] at hb
    rcases List.mem_cons.mp (hperm.mem_iff.mp hb) with rfl | hb
    · exact ⟨n, List.mem_cons_self⟩
    · obtain ⟨m, hm'⟩ := h.used_live b hb
      exact ⟨m, List.mem_cons_of_mem _ hm'⟩
  · intro b hb
    simp only [hhead]
    exact hperm.mem_iff.mpr (List.mem_cons_of_mem _ hb)

/-- Freeing a live pointer returns, and takes away the block in use in front of it only. -/
theorem KernelHeap.step_kfree {s : KernelHeap} {ss : List Seg} {p : ℕ} (h : s.Inv ss)
    (hp : p ∈ s.live.map Prod.fst) :
    ∃ t ts, s.step (.kfree p) = some t ∧ t.Inv ts ∧
      span memoryBlockSize ts = span memoryBlockSize ss ∧ t.heap.heapSize = s.heap.heapSize ∧
      t.heap.hhdm = s.heap.hhdm ∧
      ∀ b, b ∈ used memoryBlockSize t.heap.head ts ↔
        b ∈ used memoryBlockSize s.heap.head ss ∧ b.1 + memoryBlockSize ≠ p := by
  obtain ⟨l, hl, rfl⟩ := List.mem_map.mp hp
  obtain ⟨b, hb, hlb, -⟩ := h.live_used l hl
  obtain ⟨hplace, hbf⟩ := List.mem_filter.mp hb
  obtain ⟨ls, rs, rfl, hba⟩ := exists_split_of_mem_place hplace
  have hx : b.2.free = false := by simpa using hbf
  obtain ⟨h', hfree, hhdm, hhead, hsize, hlink⟩ := kfree_spec h.shape hx
  rw [← hba, ← hlb] at hfree
  have hused : ∀ c, c ∈ used memoryBlockSize h'.head
      (coalesce memoryBlockSize (ls ++ ⟨b.2.size, true⟩ :: rs)) ↔
      c ∈ used memoryBlockSize s.heap.head (ls ++ b.2 :: rs) ∧ c.1 + memoryBlockSize ≠ l.1 := by
    intro c
    have hpos : 0 < memoryBlockSize := by decide
    rw [used_coalesce, hhead, used_append, used_append, used_cons_free _ _ _ rfl,
      used_cons_taken _ _ _ hx, List.mem_append, List.mem_append, List.mem_cons]
    constructor
    · rintro (hc | hc)
      · have := used_bounds hc
        exact ⟨.inl hc, by omega⟩
      · have := used_bounds hc
        simp only at this
        exact ⟨.inr (.inr hc), by omega⟩
    · rintro ⟨hc | rfl | hc, hne⟩
      · exact .inl hc
      · exact absurd (by simp only; omega) hne
      · exact .inr hc
  have hne : coalesce memoryBlockSize (ls ++ ⟨b.2.size, true⟩ :: rs) ≠ [] := by
    rw [Ne, coalesce_eq_nil]
    simp
  have hspan : span memoryBlockSize (coalesce memoryBlockSize (ls ++ ⟨b.2.size, true⟩ :: rs)) =
      span memoryBlockSize (ls ++ b.2 :: rs) := by
    rw [span_coalesce]
    simp [span]
  refine ⟨⟨h', s.live.filter fun m => m.1 ≠ l.1⟩, _, ?_, ⟨⟨?_, hne, hlink, coalesced_coalesce _, ?_⟩,
    ?_, ?_, ?_⟩, hspan, hsize, hhdm, hused⟩
  · simp only [KernelHeap.step]
    rw [if_pos hp, hfree, Option.map_some]
  · simp only [hhead, hhdm]
    exact h.shape.head_eq
  · rw [hspan]
    exact h.shape.small
  · exact (List.filter_sublist.map _).nodup h.nodup
  · intro m hm
    obtain ⟨hm, hne⟩ := List.mem_filter.mp hm
    obtain ⟨c, hc, hmc, hsize⟩ := h.live_used m hm
    exact ⟨c, (hused c).mpr ⟨hc, by rw [← hmc]; simpa using hne⟩, hmc, hsize⟩
  · intro c hc
    obtain ⟨hc, hne⟩ := (hused c).mp hc
    obtain ⟨m, hm⟩ := h.used_live c hc
    exact ⟨m, List.mem_filter.mpr ⟨hm, by simpa using hne⟩⟩

def KernelHeap.StaysBelow (s : KernelHeap) (c : HeapCall) : Prop :=
  ∀ t, s.step c = some t → t.heap.Below4GiB

theorem KernelHeap.StaysBelow.of_step {s t : KernelHeap} {c : HeapCall} (h : s.step c = some t)
    (ht : t.heap.Below4GiB) : s.StaysBelow c := by
  rintro u hu
  obtain rfl : t = u := Option.some.inj (h.symm.trans hu)
  exact ht

theorem KernelHeap.step_inv {s t : KernelHeap} {ss : List Seg} {c : HeapCall} (h : s.Inv ss)
    (hc : s.step c = some t) (hbelow : s.StaysBelow c) :
    ∃ ts, t.Inv ts ∧ ∀ b ∈ used memoryBlockSize s.heap.head ss,
      c ≠ .kfree (b.1 + memoryBlockSize) → b ∈ used memoryBlockSize t.heap.head ts := by
  cases c with
  | kmalloc n =>
    obtain ⟨ts, hinv, -, -, hkeep⟩ := step_kmalloc h hc (hbelow t hc)
    exact ⟨ts, hinv, fun b hb _ => hkeep b hb⟩
  | kfree p =>
    have hp : p ∈ s.live.map Prod.fst := by
      by_contra hp
      simp [KernelHeap.step, if_neg hp] at hc
    obtain ⟨t', ts, ht', hinv, -, -, -, hkeep⟩ := step_kfree h hp
    obtain rfl : t' = t := Option.some.inj (ht'.symm.trans hc)
    exact ⟨ts, hinv, fun b hb hne => (hkeep b).mpr ⟨hb, fun heq => hne (heq ▸ rfl)⟩⟩

theorem KernelHeap.Inv.disjoint {s : KernelHeap} {ss : List Seg} (h : s.Inv ss) :
    s.live.Pairwise fun l m => l.1 + l.2 ≤ m.1 ∨ m.1 + m.2 ≤ l.1 := by
  refine (List.pairwise_map.mp h.nodup).imp_of_mem fun {l m} hl hm hne => ?_
  obtain ⟨b, hb, hlb, hlsize⟩ := h.live_used l hl
  obtain ⟨c, hc, hmc, hmsize⟩ := h.live_used m hm
  have := used_disjoint hb hc (by omega)
  omega

theorem KernelHeap.step_live {s t : KernelHeap} {c : HeapCall} {l : ℕ × ℕ}
    (hc : s.step c = some t) (hl : l ∈ s.live) (hne : c ≠ .kfree l.1) : l ∈ t.live := by
  cases c with
  | kmalloc n =>
    simp only [KernelHeap.step] at hc
    split at hc
    · obtain ⟨r, -, rfl⟩ := Option.map_eq_some_iff.mp hc
      exact List.mem_cons_of_mem _ hl
    · cases hc
  | kfree p =>
    simp only [KernelHeap.step] at hc
    split at hc
    · obtain ⟨r, -, rfl⟩ := Option.map_eq_some_iff.mp hc
      exact List.mem_filter.mpr ⟨hl, by simpa using fun h : l.1 = p => hne (h ▸ rfl)⟩
    · cases hc

/-- After every run of allocations and frees of live pointers the blocks tile the heap, no two
neighbours are free, the blocks in use are the live allocations, these are pairwise disjoint,
and the next call leaves every other live allocation where it is and as long as it is. -/
theorem kernelHeap_invariant (hhdm : ℕ) (mem : ℕ → MemoryBlock) (n : ℕ) (cs : List HeapCall)
    (t : KernelHeap) (hstart : (initKmalloc hhdm mem n).Below4GiB)
    (hbelow : Along KernelHeap.step KernelHeap.StaysBelow (.start hhdm mem n) cs)
    (hrun : run KernelHeap.step (.start hhdm mem n) cs = some t) :
    (∃ ss, t.Inv ss) ∧
      (t.live.Pairwise fun l m => l.1 + l.2 ≤ m.1 ∨ m.1 + m.2 ≤ l.1) ∧
      (∀ p ∈ t.live.map Prod.fst, (t.step (.kfree p)).isSome) ∧
      (∀ size, 0 < size → size < 2 ^ 32 → t.heap.heapSize +
        ceilDiv32 ((size + memoryBlockSize) % 2 ^ 32) memoryPageSize * memoryPageSize ≤
          kernelMallocEnd t.heap.hhdm → (t.step (.kmalloc size)).isSome) ∧
      ∀ c u, t.step c = some u → t.StaysBelow c → ∀ l ∈ t.live, c ≠ .kfree l.1 →
        l ∈ u.live ∧
        (u.heap.mem (l.1 - memoryBlockSize)).size = (t.heap.mem (l.1 - memoryBlockSize)).size ∧
        (u.heap.mem (l.1 - memoryBlockSize)).free = false := by
  obtain ⟨ss, hinv⟩ : ∃ ss, t.Inv ss :=
    run_invariant (I := fun s => ∃ ss, KernelHeap.Inv s ss)
      (fun s c u hP hu ⟨ss, hs⟩ => (KernelHeap.step_inv hs hu hP).imp fun _ h => h.1)
      hbelow hrun ⟨_, KernelHeap.start_inv hhdm mem n hstart⟩
  refine ⟨⟨ss, hinv⟩, hinv.disjoint, ?_, ?_, ?_⟩
  · intro p hp
    obtain ⟨u, -, hu, -⟩ := KernelHeap.step_kfree hinv hp
    exact Option.isSome_iff_exists.mpr ⟨u, hu⟩
  · intro size h0 h32 hroom
    simp only [KernelHeap.step]
    rw [if_pos ⟨h0, h32⟩, Option.isSome_map]
    exact kmalloc_isSome hinv.shape hroom
  · intro c u hu hc l hl hne
    obtain ⟨b, hb, hlb, -⟩ := hinv.live_used l hl
    obtain ⟨us, huinv, hkeep⟩ := KernelHeap.step_inv hinv hu hc
    have hbu := hkeep b hb (by rwa [← hlb])
    have hbt := (List.mem_filter.mp hb).1
    have hbu' := List.mem_filter.mp hbu
    obtain ⟨hsize, -⟩ := hinv.shape.linked.header hbt
    obtain ⟨hsize', hfree'⟩ := huinv.shape.linked.header hbu'.1
    rw [hlb, Nat.add_sub_cancel]
    exact ⟨KernelHeap.step_live hu hl hne, by rw [hsize, hsize'], by
      rw [hfree']; simpa using hbu'.2⟩

/-- Two allocations on a one-page heap, the first of them freed again. -/
theorem kernelHeap_invariant_one_page : ∃ t : KernelHeap,
    run KernelHeap.step (.start 0 (fun _ => ⟨0, 0, false⟩) 4096)
      [.kmalloc 16, .kmalloc 5, .kfree (0xd0000000 + 13)] = some t ∧
      t.live = [(0xd0000000 + 42, 5)] ∧ ∃ ss, t.Inv ss := by
  have hbelow : Along KernelHeap.step KernelHeap.StaysBelow
      (.start 0 (fun _ => ⟨0, 0, false⟩) 4096)
      [.kmalloc 16, .kmalloc 5, .kfree (0xd0000000 + 13)] := by
    refine along_cons rfl (.of_step rfl ?_) <| along_cons rfl (.of_step rfl ?_) <|
      along_cons rfl (.of_step rfl ?_) trivial <;> decide +kernel
  exact ⟨_, rfl, by decide +kernel,
    (kernelHeap_invariant 0 (fun _ => ⟨0, 0, false⟩) 4096 _ _ (by decide +kernel) hbelow rfl).1⟩

theorem KernelHeap.Inv.top {s : KernelHeap} {ss : List Seg} (h : s.Inv ss) :
    s.heap.top = some (s.heap.head + span memoryBlockSize ss) :=
  h.shape.linked.top h.shape.nonempty h.shape.head_ne h.shape.length_lt.le

/-- A call leaves the blocks as long as they are, or puts one behind them. -/
theorem KernelHeap.step_span {s t : KernelHeap} {ss : List Seg} {c : HeapCall} (h : s.Inv ss)
    (hc : s.step c = some t) (hbelow : s.StaysBelow c) :
    ∃ ts, t.Inv ts ∧ t.heap.hhdm = s.heap.hhdm ∧
      span memoryBlockSize ss ≤ span memoryBlockSize ts := by
  cases c with
  | kmalloc n =>
    obtain ⟨ts, hinv, hhdm, hext, -⟩ := step_kmalloc h hc (hbelow t hc)
    refine ⟨ts, hinv, hhdm, ?_⟩
    rcases hext with ⟨hspan, -⟩ | ⟨-, hspan, -⟩ <;> omega
  | kfree p =>
    have hp : p ∈ s.live.map Prod.fst := by
      by_contra hp
      simp [KernelHeap.step, if_neg hp] at hc
    obtain ⟨u, ts, hu, hinv, hspan, -, hhdm, -⟩ := step_kfree h hp
    obtain rfl : u = t := Option.some.inj (hu.symm.trans hc)
    exact ⟨ts, hinv, hhdm, hspan.ge⟩

theorem KernelHeap.Inv.eq_singleton {s : KernelHeap} {ss : List Seg} (h : s.Inv ss)
    (hlive : s.live = []) : ∃ size, ss = [⟨size, true⟩] := by
  have hfree : ∀ x ∈ ss, x.free = true := by
    intro x hx
    obtain ⟨ls, rs, rfl⟩ := List.append_of_mem hx
    by_contra hused
    obtain ⟨n, hn⟩ := h.used_live (s.heap.head + span memoryBlockSize ls, x) (by
      rw [used_append, used_cons_taken _ _ _ (by simpa using hused)]
      simp)
    simp [hlive] at hn
  match ss, h.shape.nonempty, h.shape.coalesced, hfree with
  | [x], _, _, hfree => exact ⟨x.size, by rw [← hfree x List.mem_cons_self]⟩
  | x :: y :: _, _, hco, hfree =>
    exact absurd ⟨hfree x (by simp), hfree y (by simp)⟩ (List.isChain_cons_cons.mp hco).1

/-- Once every allocation of a run has been freed, the heap is one free block that reaches as far
as the heap did at any time, and whatever fits into it is allocated without mapping a page. -/
theorem kernelHeap_drained (hhdm : ℕ) (mem : ℕ → MemoryBlock) (n : ℕ) (cs ds : List HeapCall)
    (s t : KernelHeap) (hstart : (initKmalloc hhdm mem n).Below4GiB)
    (hbelow : Along KernelHeap.step KernelHeap.StaysBelow (.start hhdm mem n) cs)
    (hrun : run KernelHeap.step (.start hhdm mem n) cs = some s)
    (hbelow' : Along KernelHeap.step KernelHeap.StaysBelow s ds)
    (hrun' : run KernelHeap.step s ds = some t) (hlive : t.live = []) :
    ∃ size, t.heap.mem t.heap.head = ⟨size, 0, true⟩ ∧
      (∀ top ∈ s.heap.top, top ≤ t.heap.head + memoryBlockSize + size) ∧
      ∀ k, 0 < k → k ≤ size → ∃ u, t.step (.kmalloc k) = some u ∧
        u.heap.heapSize = t.heap.heapSize ∧ u.live = [(t.heap.head + memoryBlockSize, k)] := by
  obtain ⟨ss, hs⟩ := run_invariant (I := fun s => ∃ ss, KernelHeap.Inv s ss)
    (fun a c b hP hb ⟨as, ha⟩ => (KernelHeap.step_span ha hb hP).imp fun _ h => h.1)
    hbelow hrun ⟨_, KernelHeap.start_inv hhdm mem n hstart⟩
  obtain ⟨ts, ht, hhdm, hspan⟩ := run_invariant (I := fun u => ∃ us, KernelHeap.Inv u us ∧
      u.heap.hhdm = s.heap.hhdm ∧ span memoryBlockSize ss ≤ span memoryBlockSize us)
    (fun a c b hP hb ⟨as, ha, hah, has⟩ =>
      (KernelHeap.step_span ha hb hP).imp fun _ h => ⟨h.1, h.2.1.trans hah, has.trans h.2.2⟩)
    hbelow' hrun' ⟨ss, hs, rfl, le_rfl⟩
  obtain ⟨size, rfl⟩ := ht.eq_singleton hlive
  have hhead : t.heap.mem t.heap.head = ⟨size, 0, true⟩ := ht.shape.linked.1
  refine ⟨size, hhead, ?_, ?_⟩
  · intro top htop
    obtain rfl := Option.some.inj (hs.top.symm.trans htop)
    have hsame : t.heap.head = s.heap.head := by
      rw [ht.shape.head_eq, hs.shape.head_eq, hhdm]
    simp only [span] at hspan
    omega
  · intro k hk hsize
    have hsmall := ht.shape.small
    have hfind : findFreeBlock t.heap k = some t.heap.head := by
      rw [findFreeBlock, show walkFuel = 2 ^ 32 - 1 + 1 from rfl, findFreeFrom,
        if_neg ht.shape.head_ne, hhead, if_pos ⟨rfl, hsize⟩]
    simp only [span] at hsmall
    rw [KernelHeap.step, if_pos ⟨hk, by omega⟩, kmalloc, if_neg hk.ne', hfind, Option.bind_some,
      if_pos ht.shape.head_ne, hlive]
    exact ⟨_, rfl, rfl, rfl⟩

/-- A heap of one page after an allocation that was freed. -/
theorem kernelHeap_drained_page : ∃ s t : KernelHeap,
    run KernelHeap.step (.start 0 (fun _ => ⟨0, 0, false⟩) 4096) [.kmalloc 16] = some s ∧
    run KernelHeap.step s [.kfree (0xd0000000 + 13)] = some t ∧ t.live = [] ∧
    ∃ size, t.heap.mem t.heap.head = ⟨size, 0, true⟩ ∧
      ∀ top ∈ s.heap.top, top ≤ t.heap.head + memoryBlockSize + size := by
  have hbelow : Along KernelHeap.step KernelHeap.StaysBelow
      (.start 0 (fun _ => ⟨0, 0, false⟩) 4096) [.kmalloc 16] :=
    along_cons rfl (.of_step rfl (by decide +kernel)) trivial
  obtain ⟨size, hfree, htop, -⟩ := kernelHeap_drained 0 (fun _ => ⟨0, 0, false⟩) 4096
    [.kmalloc 16] [.kfree (0xd0000000 + 13)] _ _ (by decide +kernel) hbelow rfl
    (along_cons rfl (.of_step rfl (by decide +kernel)) trivial) rfl (by decide +kernel)
  exact ⟨_, _, rfl, rfl, by decide +kernel, size, hfree, htop⟩

structure Heap.InRegion (h : Heap) (ss : List Seg) : Prop where
  span_le : span memoryBlockSize ss ≤ h.heapSize
  end_le : kernelMallocStart h.hhdm + h.heapSize ≤ kernelMallocEnd h.hhdm

/-- A free block is large enough for the request, or the pages for the request and its header
fit into the region behind those mapped. -/
def Heap.Satisfiable (h : Heap) (size : ℕ) : Prop :=
  findFreeBlock h size ≠ some 0 ∨
    kernelMallocStart h.hhdm + h.heapSize +
        (size + memoryBlockSize + (memoryPageSize - 1)) / memoryPageSize * memoryPageSize ≤
      kernelMallocEnd h.hhdm

instance (h : Heap) (size : ℕ) : Decidable (h.Satisfiable size) :=
  inferInstanceAs (Decidable (_ ∨ _))

theorem kernelMallocEnd_eq (hhdm : ℕ) :
    kernelMallocEnd hhdm = kernelMallocStart hhdm + 0x20000000 := by
  unfold kernelMallocEnd kernelMallocStart
  omega

theorem ceilDiv32_eq {size : ℕ} (h : size + memoryBlockSize ≤ 0x20000000) :
    ceilDiv32 ((size + memoryBlockSize) % 2 ^ 32) memoryPageSize =
      (size + memoryBlockSize + (memoryPageSize - 1)) / memoryPageSize := by
  unfold ceilDiv32 memoryPageSize
  rw [Nat.mod_eq_of_lt (a := size + memoryBlockSize) (by omega), Nat.mod_eq_of_lt (by omega)]
  congr 1

theorem Heap.InRegion.extends {h h' : Heap} {ss ts : List Seg} {n : ℕ} (hr : h.InRegion ss)
    (hsat : h.Satisfiable n) (hhdm : h'.hhdm = h.hhdm) (he : h.Extends h' ss ts n) :
    h'.InRegion ts := by
  obtain ⟨hspan, hend⟩ := hr
  rw [kernelMallocEnd_eq] at hend
  obtain ⟨hts, hsize⟩ | ⟨hfind, hts, hsize⟩ := he
  · constructor
    · omega
    · rw [kernelMallocEnd_eq, hhdm]
      omega
  · have hroom := hsat.resolve_left (not_not.mpr hfind)
    rw [kernelMallocEnd_eq] at hroom
    have hceil : n + memoryBlockSize ≤
        (n + memoryBlockSize + (memoryPageSize - 1)) / memoryPageSize * memoryPageSize := by
      unfold memoryPageSize
      omega
    rw [ceilDiv32_eq (by omega)] at hsize
    constructor
    · omega
    · rw [kernelMallocEnd_eq, hhdm]
      omega

theorem Heap.InRegion.below {h : Heap} {ss : List Seg} (hr : h.InRegion ss)
    (htop : h.top = some (kernelMallocStart h.hhdm + span memoryBlockSize ss)) :
    h.Below4GiB := by
  intro t ht
  obtain rfl : _ = t := Option.some.inj (htop.symm.trans ht)
  have hspan := hr.span_le
  have hend := hr.end_le
  rw [kernelMallocEnd_eq] at hend
  omega

/-- `KernelHeap.step` for any request: an empty one returns null and changes nothing. -/
def KernelHeap.stepAny (s : KernelHeap) : HeapCall → Option KernelHeap
  | .kmalloc 0 => (Memory.kmalloc s.heap 0).map fun r => ⟨r.1, s.live⟩
  | c => s.step c

theorem KernelHeap.stepAny_kmalloc {s : KernelHeap} {n : ℕ} (hn : 0 < n) :
    s.stepAny (.kmalloc n) = s.step (.kmalloc n) := by
  cases n with
  | zero => omega
  | succ n => rfl

def KernelHeap.Satisfiable (s : KernelHeap) : HeapCall → Prop
  | .kmalloc size => 0 < size → s.heap.Satisfiable size
  | .kfree _ => True

instance (s : KernelHeap) : ∀ c, Decidable (s.Satisfiable c)
  | .kmalloc size => inferInstanceAs (Decidable (0 < size → s.heap.Satisfiable size))
  | .kfree _ => inferInstanceAs (Decidable True)

theorem initKmalloc_inRegion (hhdm : ℕ) (mem : ℕ → MemoryBlock) {n : ℕ} (hn : 0 < n)
    (hregion : n ≤ 0x20000000) :
    (initKmalloc hhdm mem n).InRegion
      [⟨((initKmalloc hhdm mem n).heapSize + 2 ^ 32 - memoryBlockSize) % 2 ^ 32, true⟩] := by
  have hceil : ceilDiv32 n memoryPageSize = (n + (memoryPageSize - 1)) / memoryPageSize := by
    unfold ceilDiv32 memoryPageSize
    rw [Nat.mod_eq_of_lt (by omega)]
    congr 1
  obtain ⟨size, hsize⟩ : ∃ size, size = (initKmalloc hhdm mem n).heapSize := ⟨_, rfl⟩
  have hbounds : 4096 ≤ size ∧ size ≤ 0x20000000 := by
    rw [hsize]
    simp only [initKmalloc, hceil]
    unfold memoryPageSize
    omega
  rw [← hsize]
  constructor
  · simp only [span, memoryBlockSize, ← hsize]
    omega
  · rw [kernelMallocEnd_eq, ← hsize]
    omega

theorem kmalloc_below {h h' : Heap} {ss : List Seg} {n p : ℕ} (hs : h.Shape ss)
    (hr : h.InRegion ss) (hn : 0 < n) (hsat : h.Satisfiable n)
    (he : kmalloc h n = some (h', p)) : h'.Below4GiB := by
  obtain ⟨hhdm, hhead, ts, off, hg, -, hl, hext⟩ := kmalloc_cases hs hn he
  obtain ⟨hnil, hlen⟩ := hg.length_le
  have hhead' : h'.head = kernelMallocStart h'.hhdm := by
    rw [hhead, hhdm]
    exact hs.head_eq
  have htop := hl.top hnil (hhead' ▸ kernelMallocStart_ne_zero _) (hlen.trans hs.length_lt)
  rw [hhead'] at htop
  exact (hr.extends hsat hhdm hext).below htop

theorem KernelHeap.step_inRegion {s t : KernelHeap} {ss : List Seg} {c : HeapCall}
    (h : s.Inv ss) (hr : s.heap.InRegion ss) (hsat : s.Satisfiable c)
    (hc : s.stepAny c = some t) : ∃ ts, t.Inv ts ∧ t.heap.InRegion ts := by
  cases c with
  | kmalloc n =>
    rcases Nat.eq_zero_or_pos n with rfl | hn
    · obtain rfl := Option.some.inj hc
      exact ⟨ss, h, hr⟩
    rw [KernelHeap.stepAny_kmalloc hn] at hc
    have hbelow : t.heap.Below4GiB := by
      simp only [KernelHeap.step] at hc
      split at hc
      · obtain ⟨r, hm, rfl⟩ := Option.map_eq_some_iff.mp hc
        exact kmalloc_below h.shape hr hn (hsat hn) hm
      · cases hc
    obtain ⟨ts, hinv, hhdm, hext, -⟩ := KernelHeap.step_kmalloc h hc hbelow
    exact ⟨ts, hinv, hr.extends (hsat hn) hhdm hext⟩
  | kfree p =>
    have hp : p ∈ s.live.map Prod.fst := by
      by_contra hp
      simp [KernelHeap.stepAny, KernelHeap.step, if_neg hp] at hc
    obtain ⟨t', ts, ht', hinv, hspan, hsize, hhdm, -⟩ := KernelHeap.step_kfree h hp
    obtain rfl : t' = t := Option.some.inj (ht'.symm.trans hc)
    refine ⟨ts, hinv, ?_, ?_⟩
    · rw [hspan, hsize]
      exact hr.span_le
    · rw [hhdm, hsize]
      exact hr.end_le

/-- As long as every request can be satisfied within the region, each live block ends inside the
mapped heap and the heap inside the region. -/
theorem kernelHeap_inRegion (hhdm : ℕ) (mem : ℕ → MemoryBlock) (n : ℕ) (cs : List HeapCall)
    (t : KernelHeap) (hn : 0 < n) (hregion : n ≤ 0x20000000)
    (hsat : Along KernelHeap.stepAny KernelHeap.Satisfiable (.start hhdm mem n) cs)
    (hrun : run KernelHeap.stepAny (.start hhdm mem n) cs = some t) :
    (∀ l ∈ t.live, ∃ block, l.1 = block + memoryBlockSize ∧ l.2 ≤ (t.heap.mem block).size ∧
      kernelMallocStart t.heap.hhdm ≤ block ∧
      block + memoryBlockSize + (t.heap.mem block).size ≤
        kernelMallocStart t.heap.hhdm + t.heap.heapSize) ∧
    kernelMallocStart t.heap.hhdm + t.heap.heapSize ≤ kernelMallocEnd t.heap.hhdm := by
  have hstart := initKmalloc_inRegion hhdm mem hn hregion
  have hbelow : (initKmalloc hhdm mem n).Below4GiB := by
    apply hstart.below
    exact Linked.top ⟨by simp [initKmalloc], trivial⟩ (by simp) (kernelMallocStart_ne_zero hhdm)
      (by simp [walkFuel])
  obtain ⟨ss, hinv, hr⟩ : ∃ ss, t.Inv ss ∧ t.heap.InRegion ss :=
    run_invariant (I := fun s => ∃ ss, KernelHeap.Inv s ss ∧ s.heap.InRegion ss)
      (fun s c u hP hu ⟨ss, hs, hr⟩ => KernelHeap.step_inRegion hs hr hP hu) hsat hrun
      ⟨_, KernelHeap.start_inv hhdm mem n hbelow, hstart⟩
  refine ⟨fun l hl => ?_, hr.end_le⟩
  obtain ⟨b, hb, hlb, hsize⟩ := hinv.live_used l hl
  obtain ⟨hheader, -⟩ := hinv.shape.linked.header (List.mem_filter.mp hb).1
  have hbounds := used_bounds hb
  have hspan := hr.span_le
  rw [hinv.shape.head_eq] at hbounds
  refine ⟨b.1, hlb, ?_, hbounds.1, ?_⟩
  · rw [hheader]
    exact hsize
  · rw [hheader]
    omega

/-- A page heap that serves a small request, frees it and grows for a larger one. -/
theorem kernelHeap_inRegion_grown : ∃ t : KernelHeap,
    run KernelHeap.stepAny (.start 0xffff800000000000 (fun _ => ⟨0, 0, false⟩) 4096)
      [.kmalloc 16, .kfree (0xffff8000d0000000 + 13), .kmalloc 0, .kmalloc 5000] = some t ∧
      t.live = [(0xffff8000d0001000 + 13, 5000)] ∧ t.heap.heapSize = 0x3000 ∧
      kernelMallocStart t.heap.hhdm + t.heap.heapSize ≤ kernelMallocEnd t.heap.hhdm :=
  ⟨_, rfl, by decide +kernel, by decide +kernel,
    (kernelHeap_inRegion 0xffff800000000000 (fun _ => ⟨0, 0, false⟩) 4096
      [.kmalloc 16, .kfree (0xffff8000d0000000 + 13), .kmalloc 0, .kmalloc 5000] _ (by decide)
      (by decide) (by decide +kernel) rfl).2⟩

/-- Only the absolute address of the region's end stops the heap from growing. -/
theorem kmalloc_grows {h : Heap} {n last : ℕ} (hn : n ≠ 0) (hfind : findFreeBlock h n = some 0)
    (hlast : findLast h.mem walkFuel h.head = some last)
    (hroom : h.heapSize + ceilDiv32 ((n + memoryBlockSize) % 2 ^ 32) memoryPageSize * memoryPageSize ≤
      kernelMallocEnd h.hhdm) :
    ∃ r, kmalloc h n = some r ∧ r.1.hhdm = h.hhdm ∧ r.1.heapSize = h.heapSize +
      ceilDiv32 ((n + memoryBlockSize) % 2 ^ 32) memoryPageSize * memoryPageSize := by
  obtain ⟨h₁, hpages⟩ := Option.isSome_iff_exists.mp (allocAndMapNewPages_isSome hroom)
  obtain ⟨hm, hh, hd, hsize⟩ := allocAndMapNewPages_frame hpages
  rw [kmalloc, if_neg hn, hfind, Option.bind_some, if_neg (by simp)]
  simp only
  rw [hpages, Option.bind_some, hm, hh, hlast, Option.map_some]
  refine ⟨_, rfl, ?_, ?_⟩
  · dsimp only
    split <;> exact hd
  · dsimp only
    split <;> exact hsize

/-- The number of pages for a request of 2 ^ 32 - 1 bytes is computed modulo 2 ^ 32: one page is
mapped and the block reaches far behind it. A request for the whole region is not refused, and
the heap grows past the region's end. -/
theorem heap_leaves_region :
    (run KernelHeap.stepAny (.start 0xffff800000000000 (fun _ => ⟨0, 0, false⟩) 4096)
      [.kmalloc (2 ^ 32 - 1)]).map (fun t =>
        (t.live, kernelMallocStart t.heap.hhdm + t.heap.heapSize,
          (t.heap.mem 0xffff8000d0001000).size)) =
      some ([(0xffff8000d0001000 + 13, 2 ^ 32 - 1)], 0xffff8000d0002000, 2 ^ 32 - 1) ∧
    ∃ t, run KernelHeap.stepAny (.start 0xffff800000000000 (fun _ => ⟨0, 0, false⟩) 4096)
        [.kmalloc 0x20000000] = some t ∧
      kernelMallocEnd t.heap.hhdm < kernelMallocStart t.heap.hhdm + t.heap.heapSize := by
  refine ⟨by decide +kernel, ?_⟩
  obtain ⟨r, hr, hhdm, hsize⟩ := kmalloc_grows
    (h := initKmalloc 0xffff800000000000 (fun _ => ⟨0, 0, false⟩) 4096) (n := 0x20000000)
    (by decide) (by decide +kernel) rfl (by decide +kernel)
  refine ⟨⟨r.1, [(r.2, 0x20000000)]⟩, ?_, ?_⟩
  · rw [run_cons, KernelHeap.stepAny_kmalloc (by decide), KernelHeap.step, if_pos (by decide)]
    rw [show (KernelHeap.start 0xffff800000000000 (fun _ => ⟨0, 0, false⟩) 4096).heap =
      initKmalloc 0xffff800000000000 (fun _ => ⟨0, 0, false⟩) 4096 from rfl, hr]
    rfl
  · simp only [kernelMallocEnd_eq, hhdm, hsize]
    decide +kernel

end BrickOS.Memory
