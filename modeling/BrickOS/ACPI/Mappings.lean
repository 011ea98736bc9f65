import BrickOS.Lib.Keyed
import BrickOS.Lib.Run
import Mathlib.Algebra.Order.Ring.Nat
import Mathlib.Data.List.Count
import Mathlib.Data.List.Nodup

/-! The pages that uACPI maps. Ranges may overlap, so that each page has a counter, and only the first
map and the last unmap of a page reach the page tables. -/
namespace BrickOS.ACPI
open BrickOS.Lib

def memoryPageSize : ℕ := 0x1000

structure SharedAddr where
  addr : ℕ
  cntr : ℕ

def sharedAddressFind (vec : List SharedAddr) (addr : ℕ) : Option SharedAddr :=
  Keyed.lookup SharedAddr.addr vec addr

def sharedAddressAdd (vec : List SharedAddr) (addr : ℕ) : List SharedAddr × Bool :=
  match sharedAddressFind vec addr with
  | none => (vec ++ [⟨addr, 1⟩], true)
  | some _ =>
    (Keyed.modify SharedAddr.addr vec addr fun e => { e with cntr := (e.cntr + 1) % 2 ^ 32 }, false)

def sharedAddressRemove (vec : List SharedAddr) (addr : ℕ) : List SharedAddr × Bool :=
  match sharedAddressFind vec addr with
  | none => (vec, false)
  | some e =>
    let cntr := (e.cntr + 2 ^ 32 - 1) % 2 ^ 32
    if cntr = 0 then (Keyed.remove SharedAddr.addr vec addr, true)
    else (Keyed.modify SharedAddr.addr vec addr fun e => { e with cntr }, false)

inductive PageCall
  | memMapPage (virt phys : ℕ)
  | memUnmapPage (virt : ℕ)
deriving DecidableEq

def PageCall.page : PageCall → ℕ
  | .memMapPage virt _ | .memUnmapPage virt => virt

/-- `shared_pages_vec`, the physical pages behind those that are mapped here, the calls made for that,
and the address and length of each map that was not undone. -/
structure AcpiMappings where
  sharedPages : List SharedAddr
  pageTable : ℕ → Option ℕ
  calls : List PageCall
  outstanding : List (ℕ × ℕ)

def ceilDivPage (len : ℕ) : ℕ :=
  ((len + memoryPageSize) % 2 ^ 64 + 2 ^ 64 - 1) % 2 ^ 64 / memoryPageSize

def pageOf (addr : ℕ) : ℕ := addr - addr % memoryPageSize

def pageOffset (i : ℕ) : ℕ := i * memoryPageSize % 2 ^ 32

def mappedAddr (hhdm addr : ℕ) : ℕ := ((hhdm + pageOf addr) % 2 ^ 64 + (addr - pageOf addr)) % 2 ^ 64

namespace AcpiMappings

def initial : AcpiMappings := ⟨[], fun _ => none, [], []⟩

def memMapPage (s : AcpiMappings) (virt phys : ℕ) : AcpiMappings :=
  { s with
    pageTable := Function.update s.pageTable virt (some phys)
    calls := s.calls ++ [.memMapPage virt phys] }

def memUnmapPage (s : AcpiMappings) (virt : ℕ) : AcpiMappings :=
  { s with
    pageTable := Function.update s.pageTable virt none
    calls := s.calls ++ [.memUnmapPage virt] }

def mapPage (s : AcpiMappings) (virtPageAddr phys : ℕ) : AcpiMappings :=
  let (vec, first) := sharedAddressAdd s.sharedPages virtPageAddr
  let s := { s with sharedPages := vec }
  if first then s.memMapPage virtPageAddr phys else s

def unmapPage (s : AcpiMappings) (virtPageAddr : ℕ) : AcpiMappings :=
  let (vec, last) := sharedAddressRemove s.sharedPages virtPageAddr
  let s := { s with sharedPages := vec }
  if last then s.memUnmapPage virtPageAddr else s

/-- The mappings and the address returned; `none` when the 32-bit counter of the loop never reaches
the number of pages. -/
def uacpiKernelMap (hhdm : ℕ) (s : AcpiMappings) (addr len : ℕ) : Option (AcpiMappings × ℕ) :=
  let alignedAddr := pageOf addr
  let realLen := (len + (addr - alignedAddr)) % 2 ^ 64
  let nPages := ceilDivPage realLen
  let virtAddr := (hhdm + alignedAddr) % 2 ^ 64
  if nPages < 2 ^ 32 then
    some ((List.range nPages).foldl (fun s i =>
        s.mapPage ((virtAddr + pageOffset i) % 2 ^ 64) ((alignedAddr + pageOffset i) % 2 ^ 64)) s,
      mappedAddr hhdm addr)
  else none

def uacpiKernelUnmap (s : AcpiMappings) (addr len : ℕ) : Option AcpiMappings :=
  let virtAddr := pageOf addr
  let offset := addr - virtAddr
  let realLen := (len + offset) % 2 ^ 64
  let nPages := ceilDivPage realLen
  if nPages < 2 ^ 32 then
    some ((List.range nPages).foldl (fun s i => s.unmapPage ((virtAddr + pageOffset i) % 2 ^ 64)) s)
  else none

end AcpiMappings

inductive MappingCall
  | map (addr len : ℕ)
  | unmap (addr len : ℕ)

namespace AcpiMappings

def step (hhdm : ℕ) (s : AcpiMappings) : MappingCall → Option AcpiMappings
  | .map addr len => do
    let (s, _) ← uacpiKernelMap hhdm s addr len
    return { s with outstanding := (addr, len) :: s.outstanding }
  | .unmap addr len => do
    let s ← s.uacpiKernelUnmap (mappedAddr hhdm addr) len
    return { s with outstanding := s.outstanding.erase (addr, len) }

end AcpiMappings

def Covers (hhdm : ℕ) (range : ℕ × ℕ) (page : ℕ) : Prop :=
  ∃ k < range.2, pageOf ((hhdm + range.1 + k) % 2 ^ 64) = page

instance (hhdm : ℕ) (range : ℕ × ℕ) (page : ℕ) : Decidable (Covers hhdm range page) :=
  inferInstanceAs (Decidable (∃ k < _, _))

structure ProperRange (range : ℕ × ℕ) : Prop where
  fits : range.1 % memoryPageSize + range.2 ≤ 2 ^ 32
  aligned : range.2 = 0 → memoryPageSize ∣ range.1

def physOf (hhdm page : ℕ) : ℕ := (page + 2 ^ 64 - hhdm) % 2 ^ 64

namespace AcpiMappings

def count (hhdm : ℕ) (s : AcpiMappings) (page : ℕ) : ℕ :=
  s.outstanding.countP fun range => Covers hhdm range page

def Covered (hhdm : ℕ) (s : AcpiMappings) (page : ℕ) : Prop :=
  ∃ range ∈ s.outstanding, Covers hhdm range page

instance (hhdm : ℕ) (s : AcpiMappings) (page : ℕ) : Decidable (s.Covered hhdm page) :=
  inferInstanceAs (Decidable (∃ range ∈ _, _))

def Exact (hhdm : ℕ) (s : AcpiMappings) : Prop :=
  ∀ page, s.pageTable page = if s.Covered hhdm page then some (physOf hhdm page) else none

def Transitions (hhdm : ℕ) (s t : AcpiMappings) : Prop :=
  ∃ new, t.calls = s.calls ++ new ∧ ∀ page, new.filter (·.page = page) =
    if ¬ s.Covered hhdm page ∧ t.Covered hhdm page then [.memMapPage page (physOf hhdm page)]
    else if s.Covered hhdm page ∧ ¬ t.Covered hhdm page then [.memUnmapPage page]
    else []

/-- The call returns, with the right pages mapped before and after it, and changes only the page table
entries of those that become covered or uncovered. -/
def Counted (hhdm : ℕ) (s : AcpiMappings) (c : MappingCall) : Prop :=
  s.Exact hhdm ∧ ∃ t, s.step hhdm c = some t ∧ t.Exact hhdm ∧ s.Transitions hhdm t

/-- Only a map that was made is undone. The counter of a page that is undone is not 1 by a turn around
32 bits. -/
def Proper (hhdm : ℕ) (s : AcpiMappings) : MappingCall → Prop
  | .map addr len => ProperRange (addr, len)
  | .unmap addr len => (addr, len) ∈ s.outstanding ∧
    ∀ page, Covers hhdm (addr, len) page → s.count hhdm page % 2 ^ 32 = 1 → s.count hhdm page = 1

end AcpiMappings

/-! Counters. -/

structure Holds (f : ℕ → ℕ) (vec : List SharedAddr) : Prop where
  nodup : (vec.map SharedAddr.addr).Nodup
  find : ∀ page, sharedAddressFind vec page =
    if f page = 0 then none else some ⟨page, f page % 2 ^ 32⟩

section Counters
variable {f : ℕ → ℕ} {vec : List SharedAddr} {page : ℕ}

/-- The counter of a page that is in the vector is changed. -/
theorem Holds.modify {g : SharedAddr → SharedAddr} {n : ℕ} (h : Holds f vec) (hzero : f page ≠ 0)
    (hn : n ≠ 0) (haddr : ∀ e, (g e).addr = e.addr)
    (hcntr : (g ⟨page, f page % 2 ^ 32⟩).cntr = n % 2 ^ 32) :
    Holds (Function.update f page n) (Keyed.modify SharedAddr.addr vec page g) := by
  have hkey : ∀ e : SharedAddr, e.addr = page → (g e).addr = page := fun e he => (haddr e).trans he
  have hfind := h.find page
  rw [if_neg hzero] at hfind
  constructor
  · rw [Keyed.map_key_modify hkey]
    exact h.nodup
  · intro p
    rw [sharedAddressFind, Keyed.lookup_modify hkey]
    by_cases hp : p = page
    · rw [if_pos hp, hp, Function.update_self, if_neg hn, ← hcntr,
        show Keyed.lookup SharedAddr.addr vec page = _ from hfind]
      exact congrArg some (congrArg (SharedAddr.mk · _) (haddr _))
    · rw [if_neg hp, Function.update_of_ne hp]
      exact h.find p

theorem Holds.add (h : Holds f vec) (page : ℕ) :
    Holds (Function.update f page (f page + 1)) (sharedAddressAdd vec page).1 ∧
      ((sharedAddressAdd vec page).2 = true ↔ f page = 0) := by
  have hfind := h.find page
  unfold sharedAddressAdd
  by_cases hzero : f page = 0
  · rw [if_pos hzero] at hfind
    rw [hfind]
    refine ⟨⟨Keyed.nodup_append h.nodup hfind, fun p => ?_⟩, iff_of_true rfl hzero⟩
    rw [sharedAddressFind, Keyed.lookup_append]
    by_cases hp : p = page
    · rw [hp, Function.update_self, hzero, show Keyed.lookup SharedAddr.addr vec page = none from hfind]
      simp
    · rw [Function.update_of_ne hp, if_neg (Ne.symm hp), Option.or_none]
      exact h.find p
  · rw [if_neg hzero] at hfind
    rw [hfind]
    refine ⟨h.modify hzero (Nat.succ_ne_zero _) (fun _ => rfl) ?_, iff_of_false Bool.false_ne_true hzero⟩
    exact Nat.mod_add_mod _ _ _

theorem Holds.remove (h : Holds f vec) (hpos : 0 < f page) (hone : f page % 2 ^ 32 = 1 → f page = 1) :
    Holds (Function.update f page (f page - 1)) (sharedAddressRemove vec page).1 ∧
      ((sharedAddressRemove vec page).2 = true ↔ f page = 1) := by
  have hfind := h.find page
  rw [if_neg hpos.ne'] at hfind
  unfold sharedAddressRemove
  rw [hfind]
  dsimp only
  by_cases hcntr : f page = 1
  · have hzero : (f page % 2 ^ 32 + 2 ^ 32 - 1) % 2 ^ 32 = 0 := by omega
    rw [if_pos hzero]
    refine ⟨⟨Keyed.nodup_remove h.nodup page, fun p => ?_⟩, iff_of_true rfl hcntr⟩
    rw [sharedAddressFind, Keyed.lookup_remove h.nodup]
    by_cases hp : p = page
    · rw [if_pos hp, hp, Function.update_self, hcntr]
      rfl
    · rw [if_neg hp, Function.update_of_ne hp]
      exact h.find p
  · have hne : (f page % 2 ^ 32 + 2 ^ 32 - 1) % 2 ^ 32 ≠ 0 := by
      intro hzero
      exact hcntr (hone (by omega))
    rw [if_neg hne]
    refine ⟨h.modify hpos.ne' (by omega) (fun _ => rfl) ?_, iff_of_false Bool.false_ne_true hcntr⟩
    show (f page % 2 ^ 32 + 2 ^ 32 - 1) % 2 ^ 32 = (f page - 1) % 2 ^ 32
    omega

end Counters

/-! The loops, over pages that are distinct. -/

namespace AcpiMappings

structure Turn (f : ℕ → ℕ) (s t : AcpiMappings) (page n : ℕ) (fires : Bool) (entry : Option ℕ)
    (call : PageCall) : Prop where
  holds : Holds (Function.update f page n) t.sharedPages
  pageTable : t.pageTable = if fires then Function.update s.pageTable page entry else s.pageTable
  calls : t.calls = s.calls ++ if fires then [call] else []
  outstanding : t.outstanding = s.outstanding

structure Turns (f : ℕ → ℕ) (s t : AcpiMappings) (pages : List ℕ) (n : ℕ → ℕ) (fires : ℕ → Bool)
    (entry : ℕ → Option ℕ) (call : ℕ → PageCall) : Prop where
  holds : Holds (fun p => if p ∈ pages then n (f p) else f p) t.sharedPages
  pageTable : ∀ p, t.pageTable p = if p ∈ pages ∧ fires (f p) then entry p else s.pageTable p
  calls : t.calls = s.calls ++ (pages.filter fun p => fires (f p)).map call
  outstanding : t.outstanding = s.outstanding

section Loops
variable {f : ℕ → ℕ} {s : AcpiMappings} {pages : List ℕ}

/-- A loop body that counts a page and makes its call when `fires`. -/
theorem turn_of_counted {u t : AcpiMappings} {vec : List SharedAddr} {page n : ℕ} {first : Bool}
    {fires : Prop} [Decidable fires] {entry : Option ℕ} {call : PageCall}
    (hholds : Holds (Function.update f page n) vec) (hfirst : first = true ↔ fires)
    (hu : u = { s with
      sharedPages := vec
      pageTable := Function.update s.pageTable page entry
      calls := s.calls ++ [call] })
    (ht : t = if first then u else { s with sharedPages := vec }) :
    Turn f s t page n fires entry call := by
  by_cases hfires : fires
  · rw [if_pos (hfirst.mpr hfires)] at ht
    rw [ht, hu]
    constructor
    · exact hholds
    · exact (if_pos (decide_eq_true hfires)).symm
    · rw [if_pos (decide_eq_true hfires)]
    · rfl
  · rw [if_neg (mt hfirst.mp hfires)] at ht
    rw [ht]
    constructor
    · exact hholds
    · rw [decide_eq_false hfires]
      rfl
    · rw [decide_eq_false hfires]
      exact (List.append_nil _).symm
    · rfl

theorem turn_mapPage (h : Holds f s.sharedPages) (page phys : ℕ) :
    Turn f s (s.mapPage page phys) page (f page + 1) (f page = 0) (some phys)
      (.memMapPage page phys) := by
  obtain ⟨hadd, hfirst⟩ := h.add page
  exact turn_of_counted hadd hfirst rfl rfl

theorem turn_unmapPage {page : ℕ} (h : Holds f s.sharedPages) (hpos : 0 < f page)
    (hone : f page % 2 ^ 32 = 1 → f page = 1) :
    Turn f s (s.unmapPage page) page (f page - 1) (f page = 1) none (.memUnmapPage page) := by
  obtain ⟨hremove, hlast⟩ := h.remove hpos hone
  exact turn_of_counted hremove hlast rfl rfl

/-- The pages are distinct, so that a page still has its count when its turn comes. -/
theorem turns_foldl {body : AcpiMappings → ℕ → AcpiMappings} {n : ℕ → ℕ} (allowed : ℕ → Prop)
    {fires : ℕ → Bool} {entry : ℕ → Option ℕ} {call : ℕ → PageCall}
    (hbody : ∀ f s page, Holds f s.sharedPages → allowed (f page) →
      Turn f s (body s page) page (n (f page)) (fires (f page)) (entry page) (call page))
    (h : Holds f s.sharedPages) (hpages : pages.Nodup) (hallowed : ∀ p ∈ pages, allowed (f p)) :
    Turns f s (pages.foldl body s) pages n fires entry call := by
  induction pages generalizing f s with
  | nil => exact ⟨by simpa using h, by simp, by simp, rfl⟩
  | cons page pages ih =>
    obtain ⟨hpage, hpages⟩ := List.nodup_cons.mp hpages
    have hturn := hbody f s page h (hallowed page List.mem_cons_self)
    have hsame : ∀ p ∈ pages, Function.update f page (n (f page)) p = f p := fun p hp =>
      Function.update_of_ne (fun heq : p = page => hpage (heq ▸ hp)) _ _
    obtain ⟨hholds, htable, hcalls, hout⟩ := ih hturn.holds hpages fun p hp => by
      rw [hsame p hp]
      exact hallowed p (List.mem_cons_of_mem _ hp)
    refine ⟨?_, fun p => ?_, ?_, hout.trans hturn.outstanding⟩
    · have hcount : (fun p => if p ∈ page :: pages then n (f p) else f p) = fun p =>
          if p ∈ pages then n (Function.update f page (n (f page)) p)
          else Function.update f page (n (f page)) p := by
        funext p
        by_cases hp : p = page
        · simp [hp, hpage]
        · by_cases hmem : p ∈ pages <;> simp [hp, hmem]
      rw [List.foldl_cons, hcount]
      exact hholds
    · rw [List.foldl_cons, htable, hturn.pageTable]
      by_cases hp : p = page
      · subst hp
        by_cases hfires : fires (f p) = true <;> simp [hpage, hfires]
      · by_cases hfires : fires (f page) = true <;> simp [hp, hfires]
    · have hfilter : (pages.filter fun p => fires (Function.update f page (n (f page)) p)) =
          pages.filter fun p => fires (f p) :=
        List.filter_congr fun p hp => by rw [hsame p hp]
      rw [List.foldl_cons, hcalls, hturn.calls, hfilter, List.append_assoc, List.filter_cons]
      by_cases hfires : fires (f page) = true <;> simp [hfires]

theorem turns_mapPages (phys : ℕ → ℕ) (h : Holds f s.sharedPages) (hpages : pages.Nodup) :
    Turns f s (pages.foldl (fun s page => s.mapPage page (phys page)) s) pages (· + 1) (· = 0)
      (fun p => some (phys p)) fun p => .memMapPage p (phys p) :=
  turns_foldl (fun _ => True) (fun _ _ page hs _ => turn_mapPage hs page (phys page)) h hpages
    fun _ _ => trivial

theorem turns_unmapPages (h : Holds f s.sharedPages) (hpages : pages.Nodup)
    (hcounts : ∀ p ∈ pages, 0 < f p ∧ (f p % 2 ^ 32 = 1 → f p = 1)) :
    Turns f s (pages.foldl unmapPage s) pages (· - 1) (· = 1) (fun _ => none) .memUnmapPage :=
  turns_foldl (fun c => 0 < c ∧ (c % 2 ^ 32 = 1 → c = 1))
    (fun _ _ _ hs hc => turn_unmapPage hs hc.1 hc.2) h hpages hcounts

end Loops
end AcpiMappings

/-! The pages of a range. -/

def pagesOf (hhdm addr len : ℕ) : List ℕ :=
  (List.range (ceilDivPage ((len + (addr - pageOf addr)) % 2 ^ 64))).map fun i =>
    ((hhdm + pageOf addr) % 2 ^ 64 + pageOffset i) % 2 ^ 64

section Pages
variable {hhdm addr len : ℕ}

theorem sub_pageOf (addr : ℕ) : addr - pageOf addr = addr % memoryPageSize := by
  have := Nat.mod_le addr memoryPageSize
  unfold pageOf
  omega

theorem nPages_eq (hlen : addr % memoryPageSize + len ≤ 2 ^ 32) :
    ceilDivPage ((len + (addr - pageOf addr)) % 2 ^ 64) =
      (addr % memoryPageSize + len + 4095) / 4096 := by
  rw [sub_pageOf]
  unfold ceilDivPage memoryPageSize at *
  omega

theorem nPages_le (hlen : addr % memoryPageSize + len ≤ 2 ^ 32) :
    ceilDivPage ((len + (addr - pageOf addr)) % 2 ^ 64) ≤ 2 ^ 20 := by
  rw [nPages_eq hlen]
  omega

theorem pageOffset_eq {i : ℕ} (hi : i < 2 ^ 20) : pageOffset i = i * 4096 := by
  unfold pageOffset memoryPageSize
  omega

theorem nodup_pagesOf (hhdm : ℕ) (hlen : addr % memoryPageSize + len ≤ 2 ^ 32) :
    (pagesOf hhdm addr len).Nodup := by
  have hle := nPages_le hlen
  refine List.Nodup.map_on (fun i hi j hj heq => ?_) List.nodup_range
  have hi' := (List.mem_range.mp hi).trans_le hle
  have hj' := (List.mem_range.mp hj).trans_le hle
  rw [pageOffset_eq hi', pageOffset_eq hj'] at heq
  omega

/-- The page of a byte, counted from the first page of the range. -/
theorem pageOf_add {base j : ℕ} (hbase : memoryPageSize ∣ base) :
    pageOf ((base + j) % 2 ^ 64) = (base + j / 4096 * 4096) % 2 ^ 64 := by
  unfold pageOf memoryPageSize at *
  omega

theorem mem_pagesOf_iff (hhhdm : memoryPageSize ∣ hhdm) (hrange : ProperRange (addr, len)) (page : ℕ) :
    page ∈ pagesOf hhdm addr len ↔ Covers hhdm (addr, len) page := by
  have hlen : addr % memoryPageSize + len ≤ 2 ^ 32 := hrange.fits
  have hbase : memoryPageSize ∣ hhdm + pageOf addr := by
    refine (Nat.dvd_add_right hhhdm).mpr ?_
    unfold pageOf
    exact Nat.dvd_sub_mod addr
  have haddr : pageOf addr + addr % memoryPageSize = addr := Nat.sub_add_cancel (Nat.mod_le _ _)
  have hn := nPages_eq hlen
  have hle := nPages_le hlen
  have hoff : addr % memoryPageSize < 4096 := Nat.mod_lt _ (by decide)
  have hbyte : ∀ k, pageOf ((hhdm + addr + k) % 2 ^ 64) =
      (hhdm + pageOf addr + (addr % memoryPageSize + k) / 4096 * 4096) % 2 ^ 64 := by
    intro k
    rw [← pageOf_add hbase, show hhdm + pageOf addr + (addr % memoryPageSize + k) = hhdm + addr + k by
      omega]
  rw [pagesOf, List.mem_map]
  constructor
  · rintro ⟨i, hi, rfl⟩
    have hi' := List.mem_range.mp hi
    rw [hn] at hi'
    have hpos : len ≠ 0 := by
      intro hlen0
      have hmod : addr % memoryPageSize = 0 := Nat.mod_eq_zero_of_dvd (hrange.aligned hlen0)
      omega
    -- The first byte of the range on the page.
    refine ⟨i * 4096 - addr % memoryPageSize, by dsimp only; omega, ?_⟩
    have hi : (addr % memoryPageSize + (i * 4096 - addr % memoryPageSize)) / 4096 = i := by omega
    rw [hbyte, hi, pageOffset_eq (by omega), Nat.mod_add_mod]
  · rintro ⟨k, hk, rfl⟩
    dsimp only at hk
    refine ⟨(addr % memoryPageSize + k) / 4096, List.mem_range.mpr ?_, ?_⟩
    · rw [hn]
      omega
    · rw [hbyte, pageOffset_eq (by omega), Nat.mod_add_mod]

end Pages

namespace AcpiMappings

section Calls
variable {hhdm addr len : ℕ} {s : AcpiMappings}

theorem uacpiKernelMap_eq (hhhdm : hhdm < 2 ^ 64) (hlen : addr % memoryPageSize + len ≤ 2 ^ 32) :
    uacpiKernelMap hhdm s addr len = some ((pagesOf hhdm addr len).foldl
      (fun s page => s.mapPage page (physOf hhdm page)) s, mappedAddr hhdm addr) := by
  have hle := nPages_le hlen
  have hphys : ∀ a o : ℕ, (a + o) % 2 ^ 64 = physOf hhdm (((hhdm + a) % 2 ^ 64 + o) % 2 ^ 64) := by
    intro a o
    unfold physOf
    omega
  unfold uacpiKernelMap
  dsimp only
  rw [if_pos (hle.trans_lt (by decide)), pagesOf, List.foldl_map]
  have hbody : (fun (s : AcpiMappings) i => s.mapPage (((hhdm + pageOf addr) % 2 ^ 64 + pageOffset i) %
        2 ^ 64) ((pageOf addr + pageOffset i) % 2 ^ 64)) =
      fun s i => s.mapPage (((hhdm + pageOf addr) % 2 ^ 64 + pageOffset i) % 2 ^ 64)
        (physOf hhdm (((hhdm + pageOf addr) % 2 ^ 64 + pageOffset i) % 2 ^ 64)) := by
    funext s i
    rw [hphys (pageOf addr) (pageOffset i)]
  rw [hbody]

/-- The unmap goes through the pages of the map. -/
theorem uacpiKernelUnmap_eq (hhhdm : memoryPageSize ∣ hhdm)
    (hlen : addr % memoryPageSize + len ≤ 2 ^ 32) :
    uacpiKernelUnmap s (mappedAddr hhdm addr) len =
      some ((pagesOf hhdm addr len).foldl unmapPage s) := by
  have hle := nPages_le hlen
  have hpage : pageOf (mappedAddr hhdm addr) = (hhdm + pageOf addr) % 2 ^ 64 := by
    unfold mappedAddr
    rw [sub_pageOf]
    unfold pageOf memoryPageSize at *
    omega
  have hoffset : mappedAddr hhdm addr - pageOf (mappedAddr hhdm addr) = addr - pageOf addr := by
    rw [hpage]
    unfold mappedAddr
    rw [sub_pageOf]
    unfold pageOf memoryPageSize at *
    omega
  unfold uacpiKernelUnmap
  dsimp only
  rw [hoffset, hpage, if_pos (hle.trans_lt (by decide)), pagesOf, List.foldl_map]

structure Inv (hhdm : ℕ) (s : AcpiMappings) : Prop where
  holds : Holds (s.count hhdm) s.sharedPages
  exact : s.Exact hhdm
  proper : ∀ range ∈ s.outstanding, ProperRange range

theorem inv_initial (hhdm : ℕ) : initial.Inv hhdm where
  holds := ⟨List.nodup_nil, fun _ => rfl⟩
  exact := fun _ => rfl
  proper := fun _ h => absurd h List.not_mem_nil

theorem covered_iff (page : ℕ) : s.Covered hhdm page ↔ 0 < s.count hhdm page := by
  unfold Covered count
  simp [List.countP_pos_iff]

/-- The calls of a loop for one page. -/
theorem filter_calls {pages : List ℕ} (hpages : pages.Nodup) (call : ℕ → PageCall)
    (hcall : ∀ p, (call p).page = p) (q : ℕ → Bool) (page : ℕ) :
    ((pages.filter q).map call).filter (·.page = page) =
      if page ∈ pages ∧ q page then [call page] else [] := by
  rw [List.filter_map]
  have hpage : ((fun c : PageCall => decide (c.page = page)) ∘ call) = fun p => decide (p = page) := by
    funext p
    simp [hcall]
  rw [hpage, List.filter_eq, (hpages.filter q).count]
  simp only [List.mem_filter]
  split <;> rfl

section Turns
variable {t u : AcpiMappings} {pages : List ℕ} {n : ℕ → ℕ} {fires : ℕ → Bool}
  {entry : ℕ → Option ℕ} {call : ℕ → PageCall}

/-- A call that makes a turn for each of its pages keeps the counts when it counts as its turns do, and
when these set the entry of a page as its count goes from or to 0. -/
theorem Turns.inv (h : s.Inv hhdm) (hpages : pages.Nodup) (hcall : ∀ p, (call p).page = p)
    (hu : Turns (s.count hhdm) s u pages n fires entry call) (ht : ∃ l, t = { u with outstanding := l })
    (hproper : ∀ range ∈ t.outstanding, ProperRange range)
    (hcount : ∀ page, t.count hhdm page =
      if page ∈ pages then n (s.count hhdm page) else s.count hhdm page)
    (hentry : ∀ page ∈ pages, (if fires (s.count hhdm page) then entry page
        else if 0 < s.count hhdm page then some (physOf hhdm page) else none) =
      if 0 < n (s.count hhdm page) then some (physOf hhdm page) else none)
    (hcalls : ∀ page ∈ pages, (if fires (s.count hhdm page) then [call page] else []) =
      if ¬ 0 < s.count hhdm page ∧ 0 < n (s.count hhdm page) then
        [.memMapPage page (physOf hhdm page)]
      else if 0 < s.count hhdm page ∧ ¬ 0 < n (s.count hhdm page) then [.memUnmapPage page]
      else []) :
    t.Inv hhdm ∧ s.Transitions hhdm t := by
  obtain ⟨l, rfl⟩ := ht
  refine ⟨⟨?_, fun page => ?_, hproper⟩, ⟨_, hu.calls, fun page => ?_⟩⟩
  · rw [funext hcount]
    exact hu.holds
  · have hexact := h.exact page
    simp only [covered_iff] at hexact ⊢
    show u.pageTable page = _
    rw [hu.pageTable, hexact, hcount]
    by_cases hp : page ∈ pages
    · simp only [hp, true_and, if_true]
      exact hentry page hp
    · simp [hp]
  · rw [filter_calls hpages call hcall]
    simp only [covered_iff, hcount]
    by_cases hp : page ∈ pages
    · simp only [hp, true_and, if_true]
      exact hcalls page hp
    · simp only [hp, false_and, if_false]
      rw [if_neg fun h => h.1 h.2, if_neg fun h => h.2 h.1]

/-- A map covers its pages once more, and maps those that were not covered. -/
theorem Inv.map_turns (h : s.Inv hhdm) (hrange : ProperRange (addr, len)) (hpages : pages.Nodup)
    (hmem : ∀ page, page ∈ pages ↔ Covers hhdm (addr, len) page)
    (hu : Turns (s.count hhdm) s u pages (· + 1) (· = 0) (fun p => some (physOf hhdm p))
      fun p => .memMapPage p (physOf hhdm p)) :
    Inv hhdm { u with outstanding := (addr, len) :: u.outstanding } ∧
      s.Transitions hhdm { u with outstanding := (addr, len) :: u.outstanding } := by
  apply Turns.inv h hpages (fun _ => rfl) hu ⟨_, rfl⟩
  · intro range hin
    rcases List.mem_cons.mp hin with rfl | hin
    · exact hrange
    · exact h.proper range (hu.outstanding ▸ hin)
  · intro page
    simp only [count, hu.outstanding, List.countP_cons, decide_eq_true_eq, hmem]
    by_cases hp : Covers hhdm (addr, len) page
    · rw [if_pos hp, if_pos hp]
    · rw [if_neg hp, if_neg hp, Nat.add_zero]
  all_goals
    intro page _
    by_cases hfirst : s.count hhdm page = 0 <;> simp [hfirst, Nat.pos_iff_ne_zero]

/-- An unmap covers its pages once less, and unmaps those that are not covered any more. -/
theorem Inv.unmap_turns (h : s.Inv hhdm) (hrange : (addr, len) ∈ s.outstanding) (hpages : pages.Nodup)
    (hmem : ∀ page, page ∈ pages ↔ Covers hhdm (addr, len) page)
    (hu : Turns (s.count hhdm) s u pages (· - 1) (· = 1) (fun _ => none) .memUnmapPage) :
    Inv hhdm { u with outstanding := u.outstanding.erase (addr, len) } ∧
      s.Transitions hhdm { u with outstanding := u.outstanding.erase (addr, len) } := by
  have hpos : ∀ page ∈ pages, 0 < s.count hhdm page := fun page hp =>
    List.countP_pos_iff.mpr ⟨_, hrange, decide_eq_true ((hmem page).mp hp)⟩
  apply Turns.inv h hpages (fun _ => rfl) hu ⟨_, rfl⟩
  · intro range hin
    exact h.proper range (hu.outstanding ▸ List.mem_of_mem_erase hin)
  · intro page
    have hperm := (List.perm_cons_erase hrange).countP_eq fun range => decide (Covers hhdm range page)
    rw [List.countP_cons] at hperm
    simp only [count, hu.outstanding, hmem]
    by_cases hp : Covers hhdm (addr, len) page
    · simp only [hp, decide_true, if_true] at hperm ⊢
      omega
    · simp only [hp, decide_false, Bool.false_eq_true, if_false] at hperm ⊢
      omega
  all_goals
    intro page hp
    have := hpos page hp
    by_cases hlast : s.count hhdm page = 1
    · simp [hlast]
    · have hmore : 0 < s.count hhdm page - 1 := by omega
      simp [hlast, this, hmore]

end Turns

theorem Inv.step {c : MappingCall} (h : s.Inv hhdm) (hhhdm : memoryPageSize ∣ hhdm)
    (hlt : hhdm < 2 ^ 64) (hc : s.Proper hhdm c) :
    ∃ t, s.step hhdm c = some t ∧ t.Inv hhdm ∧ s.Transitions hhdm t := by
  cases c with
  | map addr len =>
    have hrange : ProperRange (addr, len) := hc
    have hpages := nodup_pagesOf hhdm hrange.fits
    have hu := turns_mapPages (physOf hhdm) h.holds hpages
    refine ⟨_, ?_, h.map_turns hrange hpages (mem_pagesOf_iff hhhdm hrange) hu⟩
    rw [AcpiMappings.step, uacpiKernelMap_eq hlt hrange.fits]
    rfl
  | unmap addr len =>
    obtain ⟨hmem, hone⟩ := hc
    have hrange := h.proper _ hmem
    have hpages := nodup_pagesOf hhdm hrange.fits
    have hcovers := mem_pagesOf_iff hhhdm hrange
    have hu := turns_unmapPages h.holds hpages fun page hp => by
      have hcover := (hcovers page).mp hp
      exact ⟨(covered_iff page).mp ⟨_, hmem, hcover⟩, hone page hcover⟩
    refine ⟨_, ?_, h.unmap_turns hmem hpages hcovers hu⟩
    rw [AcpiMappings.step, uacpiKernelUnmap_eq hhhdm hrange.fits]
    rfl

/-- In every run of maps and unmaps whose ranges and counters keep to 32 bits, the pages that are
mapped are those that a map covers, and the page tables are changed only when that changes. -/
theorem mappings_counted {calls : List MappingCall} (hhhdm : memoryPageSize ∣ hhdm)
    (hlt : hhdm < 2 ^ 64) (hcalls : Along (step hhdm) (Proper hhdm) initial calls) :
    Along (step hhdm) (Counted hhdm) initial calls := by
  refine Along.of_invariant (fun s c hs hc => ?_) (inv_initial hhdm) hcalls
  obtain ⟨t, ht, hinv, htransitions⟩ := hs.step hhhdm hlt hc
  refine ⟨⟨hs.exact, t, ht, hinv.exact, htransitions⟩, fun u hu => ?_⟩
  obtain rfl : t = u := Option.some.inj (ht.symm.trans hu)
  exact hinv

end Calls

/-! Two overlapping ranges, and a range of more than `2 ^ 20` pages. -/

def hhdmOffset : ℕ := 0xffff800000000000

theorem outstanding_mapPage (s : AcpiMappings) (virt phys : ℕ) :
    (s.mapPage virt phys).outstanding = s.outstanding := by
  unfold mapPage
  dsimp only
  split <;> rfl

theorem pageTable_mapPage {s : AcpiMappings} {virt phys page : ℕ} (h : virt ≠ page) :
    (s.mapPage virt phys).pageTable page = s.pageTable page := by
  unfold mapPage
  dsimp only
  split
  · exact Function.update_of_ne h.symm _ _
  · rfl

theorem outstanding_foldl_mapPage {α : Type} (virt phys : α → ℕ) (l : List α) (s : AcpiMappings) :
    (l.foldl (fun s i => s.mapPage (virt i) (phys i)) s).outstanding = s.outstanding := by
  induction l generalizing s with
  | nil => rfl
  | cons i l ih => exact (ih _).trans (outstanding_mapPage _ _ _)

theorem pageTable_foldl_mapPage {α : Type} {virt phys : α → ℕ} {page : ℕ}
    (h : ∀ i, virt i ≠ page) (l : List α) (s : AcpiMappings) :
    (l.foldl (fun s i => s.mapPage (virt i) (phys i)) s).pageTable page = s.pageTable page := by
  induction l generalizing s with
  | nil => rfl
  | cons i l ih => exact (ih _).trans (pageTable_mapPage (h i))

-- The number of pages is a variable from here on: its terms of `2 ^ 64` must not be evaluated.
theorem exists_foldl_of_uacpiKernelMap {hhdm addr len : ℕ} {s : AcpiMappings}
    {r : AcpiMappings × ℕ} (h : uacpiKernelMap hhdm s addr len = some r) :
    ∃ nPages, r.1 = (List.range nPages).foldl (fun s i => s.mapPage
      (((hhdm + pageOf addr) % 2 ^ 64 + pageOffset i) % 2 ^ 64)
      ((pageOf addr + pageOffset i) % 2 ^ 64)) s := by
  refine ⟨ceilDivPage ((len + (addr - pageOf addr)) % 2 ^ 64), ?_⟩
  by_cases hn : ceilDivPage ((len + (addr - pageOf addr)) % 2 ^ 64) < 2 ^ 32
  · have heq := h
    rw [uacpiKernelMap, if_pos hn] at heq
    exact congrArg Prod.fst (Option.some.inj heq).symm
  · rw [uacpiKernelMap, if_neg hn] at h
    exact absurd h (Option.some_ne_none r).symm

/-- A map changes only the entries of the pages it goes through. -/
theorem uacpiKernelMap_frame {hhdm addr len : ℕ} {s : AcpiMappings} {r : AcpiMappings × ℕ}
    (h : uacpiKernelMap hhdm s addr len = some r) : r.1.outstanding = s.outstanding ∧
      ∀ page, (∀ i, ((hhdm + pageOf addr) % 2 ^ 64 + pageOffset i) % 2 ^ 64 ≠ page) →
        r.1.pageTable page = s.pageTable page := by
  obtain ⟨nPages, hr⟩ := exists_foldl_of_uacpiKernelMap h
  rw [hr]
  constructor
  · exact outstanding_foldl_mapPage _ _ _ _
  · intro page hpage
    exact pageTable_foldl_mapPage hpage _ _

theorem step_map {hhdm addr len : ℕ} {s t : AcpiMappings}
    (h : s.step hhdm (.map addr len) = some t) : t.outstanding = (addr, len) :: s.outstanding ∧
      ∀ page, (∀ i, ((hhdm + pageOf addr) % 2 ^ 64 + pageOffset i) % 2 ^ 64 ≠ page) →
        t.pageTable page = s.pageTable page := by
  obtain ⟨u, hu, ht⟩ := Option.bind_eq_some_iff.mp h
  obtain ⟨hout, htable⟩ := uacpiKernelMap_frame hu
  cases ht
  exact ⟨congrArg ((addr, len) :: ·) hout, htable⟩

theorem mappings_counted_two : Along (step hhdmOffset) (Counted hhdmOffset) initial
    [.map 0x1ff0 0x20, .map 0x1000 0x1000, .unmap 0x1ff0 0x20] := by
  apply mappings_counted (by decide) (by decide)
  refine ⟨⟨by decide, by decide⟩, fun s hs => ⟨⟨by decide, by decide⟩, fun t ht => ⟨⟨?_, ?_⟩, ?_⟩⟩⟩
  · rw [(step_map ht).1, (step_map hs).1]
    exact List.mem_cons_of_mem _ List.mem_cons_self
  · intro page _ hone
    have hle : t.count hhdmOffset page ≤ t.outstanding.length := List.countP_le_length
    rw [(step_map ht).1, (step_map hs).1] at hle
    have hle' : t.count hhdmOffset page ≤ 2 := hle
    omega
  · exact fun _ _ => trivial

/-- The offset of the last page of the range is 0 again in 32 bits. -/
theorem not_counted_long :
    ¬ Along (step hhdmOffset) (Counted hhdmOffset) initial [.map 0 (2 ^ 32 + 1)] := by
  intro h
  obtain ⟨-, t, ht, hexact, -⟩ := h.1
  have hcovered : t.Covered hhdmOffset (hhdmOffset + 2 ^ 32) := by
    refine ⟨(0, 2 ^ 32 + 1), ?_, 2 ^ 32, Nat.lt_succ_self _, by decide⟩
    rw [(step_map ht).1]
    exact List.mem_cons_self
  have hmapped := hexact (hhdmOffset + 2 ^ 32)
  rw [if_pos hcovered, (step_map ht).2] at hmapped
  · cases hmapped
  · intro i
    have hlt : pageOffset i < 2 ^ 32 := Nat.mod_lt _ (by decide)
    have hzero : pageOf 0 = 0 := rfl
    rw [hzero]
    unfold hhdmOffset
    omega

end AcpiMappings
end BrickOS.ACPI
