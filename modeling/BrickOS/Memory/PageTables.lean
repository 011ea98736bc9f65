import BrickOS.Lib.PathTree
import BrickOS.Memory.PageEntry
import BrickOS.Memory.Pmm
import Mathlib.Data.Fintype.Basic

/-! The four-level page tables. A table is named by the physical address of its frame, through
which the kernel reaches it at `HHDM` plus that address. -/
namespace BrickOS.Memory
open BrickOS.Lib

inductive PageEvent where
  | entry (table : ℕ) (index : Fin 512) (value : ℕ)
  | free (frame : ℕ)
deriving DecidableEq

structure Paging where
  mem : ℕ → Fin 512 → ℕ
  pmm : Pmm
  kernelPml4 : ℕ
  currentPml4 : ℕ
  hhdm : ℕ
  events : List PageEvent

def pageCodec : PathTree.Codec ℕ ℕ := ⟨present, pteGetAddr⟩

namespace Paging

def writeEntry (s : Paging) (table : ℕ) (index : Fin 512) (value : ℕ) : Paging :=
  { s with
    mem := Function.update s.mem table (Function.update (s.mem table) index value)
    events := s.events ++ [.entry table index value] }

def freeFrame (s : Paging) (frame : ℕ) : Paging :=
  { s with
    pmm := s.pmm.pmmFreePageFrame frame
    events := s.events ++ [.free frame] }

def memSetCurrentPml4Table (s : Paging) (pml4 : ℕ) : Paging := { s with currentPml4 := pml4 }

def virtToPhys (s : Paging) (virtAddr : ℕ) : ℕ :=
  let pml4 := s.currentPml4
  if !present (s.mem pml4 (pml4e virtAddr)) then invalidPhysAddr else
  let pdpt := pteGetAddr (s.mem pml4 (pml4e virtAddr))
  if !present (s.mem pdpt (pdpte virtAddr)) then invalidPhysAddr else
  let pd := pteGetAddr (s.mem pdpt (pdpte virtAddr))
  if !present (s.mem pd (pde virtAddr)) then invalidPhysAddr else
  let pt := pteGetAddr (s.mem pd (pde virtAddr))
  if !present (s.mem pt (pte virtAddr)) then invalidPhysAddr else
  canonicalize (pteGetAddr (s.mem pt (pte virtAddr))) ||| (virtAddr &&& 0xfff)

def createTableIfNotPresent (s : Paging) (tbl : ℕ) (tblIdx : Fin 512) (flags : ℕ) :
    Option (ℕ × Paging) :=
  if present (s.mem tbl tblIdx) then some (pteGetAddr (s.mem tbl tblIdx), s)
  else s.pmm.pmmAllocPageFrame.map fun a =>
    let s' := { s with pmm := a.2 }.writeEntry tbl tblIdx (tableEntry a.1 flags)
    (a.1, { s' with mem := Function.update s'.mem a.1 fun _ => 0 })

/-- `mem_map_page_in_pml4`. The switch to `pml4` is undone before it returns. -/
def memMapPageInPml4 (s : Paging) (pml4 virtAddr physAddr flags : ℕ) : Option Paging :=
  (s.createTableIfNotPresent pml4 (pml4e virtAddr) flags).bind fun a =>
  (a.2.createTableIfNotPresent a.1 (pdpte virtAddr) flags).bind fun b =>
  (b.2.createTableIfNotPresent b.1 (pde virtAddr) flags).map fun c =>
    c.2.writeEntry c.1 (pte virtAddr) (pageEntry physAddr flags)

/-- The PML4 that `mem_map_page` and `mem_unmap_page` work on: addresses from `HHDM` on are
mapped in the kernel's, and the switch is undone before they return. -/
def pml4For (s : Paging) (virtAddr : ℕ) : ℕ :=
  if s.hhdm ≤ virtAddr then s.kernelPml4 else s.currentPml4

def memMapPage (s : Paging) (virtAddr physAddr flags : ℕ) : Option Paging :=
  s.memMapPageInPml4 (s.pml4For virtAddr) virtAddr physAddr flags

def freeTableIfEmpty (s : Paging) (lower higher : ℕ) (higherIdx : Fin 512) : Paging :=
  if ∀ i, present (s.mem lower i) = false then (s.writeEntry higher higherIdx 0).freeFrame lower
  else s

def memUnmapPage (s : Paging) (virtAddr : ℕ) : Paging :=
  let pml4 := s.pml4For virtAddr
  if !present (s.mem pml4 (pml4e virtAddr)) then s else
  let pdpt := pteGetAddr (s.mem pml4 (pml4e virtAddr))
  if !present (s.mem pdpt (pdpte virtAddr)) then s else
  let pd := pteGetAddr (s.mem pdpt (pdpte virtAddr))
  if !present (s.mem pd (pde virtAddr)) then s else
  let pt := pteGetAddr (s.mem pd (pde virtAddr))
  if !present (s.mem pt (pte virtAddr)) then s else
  let s := s.writeEntry pt (pte virtAddr) 0
  let s := s.freeTableIfEmpty pt pd (pde virtAddr)
  let s := s.freeTableIfEmpty pd pdpt (pdpte virtAddr)
  s.freeTableIfEmpty pdpt pml4 (pml4e virtAddr)

abbrev walk (s : Paging) (pml4 : ℕ) (path : List (Fin 512)) : Option ℕ :=
  PathTree.walk pageCodec s.mem pml4 path

abbrev leaf (s : Paging) (pml4 : ℕ) (path : List (Fin 512)) (i : Fin 512) : Option ℕ :=
  PathTree.leaf pageCodec s.mem pml4 path i

abbrev Table (V : ℕ → List (Fin 512) → Prop) (s : Paging) (t : ℕ) : Prop :=
  PathTree.Table pageCodec V s.mem t

abbrev Distinct (V : ℕ → List (Fin 512) → Prop) (s : Paging) : Prop :=
  PathTree.Distinct pageCodec V s.mem

structure Sound (V : ℕ → List (Fin 512) → Prop) (s : Paging) : Prop where
  distinct : Distinct V s
  notFree : ∀ t, Table V s t → ¬ s.pmm.Free t
  fresh : s.pmm.Fresh

variable {V : ℕ → List (Fin 512) → Prop} {s s' s₁ s₂ s₃ : Paging} {r r' t u f e : ℕ}
  {p p' : List (Fin 512)} {i j : Fin 512}

theorem mem_writeEntry (s : Paging) (t : ℕ) (i : Fin 512) (e u : ℕ) (j : Fin 512) :
    (s.writeEntry t i e).mem u j = if u = t ∧ j = i then e else s.mem u j := by
  by_cases hu : u = t
  · subst hu
    by_cases hj : j = i
    · simp [writeEntry, hj]
    · simp [writeEntry, hj]
  · simp [writeEntry, hu]

@[simp] theorem pmm_writeEntry (s : Paging) (t : ℕ) (i : Fin 512) (e : ℕ) :
    (s.writeEntry t i e).pmm = s.pmm := rfl

theorem changed_writeEntry (V : ℕ → List (Fin 512) → Prop) (s : Paging) (t : ℕ) (i : Fin 512)
    (e : ℕ) : PathTree.Changed pageCodec V s.mem (s.writeEntry t i e).mem t i := by
  intro u j _ hne
  rw [mem_writeEntry, if_neg hne]

theorem virtToPhys_eq (s : Paging) (v : ℕ) : s.virtToPhys v =
    match s.leaf s.currentPml4 (tablePath v) (pte v) with
    | none => invalidPhysAddr
    | some e => canonicalize (pteGetAddr e) ||| (v &&& 0xfff) := by
  simp only [virtToPhys, leaf, PathTree.leaf, tablePath, PathTree.walk, pageCodec]
  split_ifs <;> simp_all

/-! What the operations leave alone. -/

structure SameMachine (s s' : Paging) : Prop where
  kernelPml4 : s'.kernelPml4 = s.kernelPml4
  currentPml4 : s'.currentPml4 = s.currentPml4
  hhdm : s'.hhdm = s.hhdm
  managed : ∀ f, s'.pmm.Managed f ↔ s.pmm.Managed f

theorem SameMachine.refl (s : Paging) : SameMachine s s := ⟨rfl, rfl, rfl, fun _ => Iff.rfl⟩

theorem SameMachine.trans (h₁ : SameMachine s₁ s₂) (h₂ : SameMachine s₂ s₃) :
    SameMachine s₁ s₃ :=
  ⟨h₂.kernelPml4.trans h₁.kernelPml4, h₂.currentPml4.trans h₁.currentPml4,
    h₂.hhdm.trans h₁.hhdm, fun f => (h₂.managed f).trans (h₁.managed f)⟩

theorem SameMachine.writeEntry (s : Paging) (t : ℕ) (i : Fin 512) (e : ℕ) :
    SameMachine s (s.writeEntry t i e) := ⟨rfl, rfl, rfl, fun _ => Iff.rfl⟩

structure Grown (V : ℕ → List (Fin 512) → Prop) (s s' : Paging) : Prop where
  sound : Sound V s'
  exact : s.pmm.Exact → s'.pmm.Exact
  same : SameMachine s s'
  walk : ∀ r p t, V r p → s.walk r p = some t → s'.walk r p = some t
  leaf : ∀ r p i, PathTree.Page V r p i → s'.leaf r p i = s.leaf r p i
  table : ∀ t, Table V s' t → Table V s t ∨ s.pmm.Free t
  free : ∀ f, s'.pmm.Free f → s.pmm.Free f
  mem : ∀ t, ¬ Table V s t → ¬ s.pmm.Free t → s'.mem t = s.mem t

theorem Grown.refl (hs : Sound V s) : Grown V s s :=
  ⟨hs, fun h => h, SameMachine.refl s, fun _ _ _ _ h => h, fun _ _ _ _ => rfl, fun _ => Or.inl,
    fun _ h => h, fun _ _ _ => rfl⟩

theorem Grown.trans (h₁ : Grown V s₁ s₂) (h₂ : Grown V s₂ s₃) : Grown V s₁ s₃ where
  sound := h₂.sound
  exact h := h₂.exact (h₁.exact h)
  same := h₁.same.trans h₂.same
  walk r p t hV h := h₂.walk r p t hV (h₁.walk r p t hV h)
  leaf r p i hpage := (h₂.leaf r p i hpage).trans (h₁.leaf r p i hpage)
  table t h := by
    rcases h₂.table t h with h | h
    · exact h₁.table t h
    · exact Or.inr (h₁.free t h)
  free f h := h₁.free f (h₂.free f h)
  mem t htable hfree := by
    have htable₂ : ¬ Table V s₂ t := fun h => (h₁.table t h).elim htable hfree
    have hfree₂ : ¬ s₂.pmm.Free t := fun h => hfree (h₁.free t h)
    rw [h₂.mem t htable₂ hfree₂, h₁.mem t htable hfree]

structure Shrunk (V : ℕ → List (Fin 512) → Prop) (s s' : Paging) : Prop where
  distinct : Distinct V s'
  exact : s.pmm.Exact → s'.pmm.Exact
  walk : ∀ r p t, V r p → s'.walk r p = some t → s.walk r p = some t
  leaf : ∀ r p i, PathTree.Page V r p i → s'.leaf r p i = s.leaf r p i
  free : s.pmm.Exact → ∀ f, s'.pmm.Free f → s.pmm.Free f ∨ (Table V s f ∧ ¬ Table V s' f)
  mem : ∀ t, ¬ Table V s t → s'.mem t = s.mem t

theorem Shrunk.table (h : Shrunk V s s') (ht : Table V s' t) : Table V s t := by
  obtain ⟨r, p, hV, hwalk⟩ := ht
  exact ⟨r, p, hV, h.walk r p t hV hwalk⟩

theorem Shrunk.sound (h : Shrunk V s s') (hexact : s.pmm.Exact) (hs : Sound V s) :
    Sound V s' where
  distinct := h.distinct
  notFree t ht hfree := by
    rcases h.free hexact t hfree with hfree | ⟨-, hgone⟩
    · exact hs.notFree t (h.table ht) hfree
    · exact hgone ht
  fresh := (h.exact hexact).fresh

theorem Shrunk.refl (hs : Distinct V s) : Shrunk V s s :=
  ⟨hs, fun h => h, fun _ _ _ _ h => h, fun _ _ _ _ => rfl, fun _ _ => Or.inl, fun _ _ => rfl⟩

theorem Shrunk.trans (h₁ : Shrunk V s₁ s₂) (h₂ : Shrunk V s₂ s₃) : Shrunk V s₁ s₃ where
  distinct := h₂.distinct
  exact h := h₂.exact (h₁.exact h)
  walk r p t hV h := h₁.walk r p t hV (h₂.walk r p t hV h)
  leaf r p i hpage := (h₂.leaf r p i hpage).trans (h₁.leaf r p i hpage)
  free hexact f h := by
    rcases h₂.free (h₁.exact hexact) f h with h | ⟨htable, hgone⟩
    · exact (h₁.free hexact f h).imp_right fun h => ⟨h.1, fun h₃ => h.2 (h₂.table h₃)⟩
    · exact Or.inr ⟨h₁.table htable, hgone⟩
  mem t htable := by
    rw [h₂.mem t fun h => htable (h₁.table h), h₁.mem t htable]

/-! One lemma per operation. -/

theorem createTableIfNotPresent_cases {flags : ℕ}
    (h : s.createTableIfNotPresent t i flags = some (f, s')) :
    (present (s.mem t i) ∧ f = pteGetAddr (s.mem t i) ∧ s' = s) ∨
    (present (s.mem t i) = false ∧ ∃ pmm, s.pmm.pmmAllocPageFrame = some (f, pmm) ∧
      s'.pmm = pmm ∧ s'.kernelPml4 = s.kernelPml4 ∧ s'.currentPml4 = s.currentPml4 ∧
      s'.hhdm = s.hhdm ∧ ∀ u j, s'.mem u j =
        if u = f then 0 else if u = t ∧ j = i then tableEntry f flags else s.mem u j) := by
  unfold createTableIfNotPresent at h
  split_ifs at h with hpresent
  · obtain ⟨rfl, rfl⟩ := Prod.mk.inj (Option.some.inj h)
    exact Or.inl ⟨hpresent, rfl, rfl⟩
  · obtain ⟨⟨f', pmm⟩, halloc, h⟩ := Option.map_eq_some_iff.mp h
    obtain ⟨rfl, rfl⟩ := Prod.mk.inj h
    refine Or.inr ⟨by simpa using hpresent, pmm, halloc, rfl, rfl, rfl, rfl, fun u j => ?_⟩
    by_cases hu : u = f'
    · simp [hu]
    · simp only [Function.update_of_ne hu, mem_writeEntry, if_neg hu]

section Create

variable (hclosed : PathTree.Closed V) (hs : Sound V s) (hV : V r (p ++ [i]))
  (ht : s.walk r p = some t)
include hclosed hs hV ht

theorem createTableIfNotPresent_spec {flags : ℕ}
    (h : s.createTableIfNotPresent t i flags = some (f, s')) :
    Grown V s s' ∧ s'.walk r (p ++ [i]) = some f ∧
      ∀ u, u ≠ t → ¬ s.pmm.Free u → s'.mem u = s.mem u := by
  rcases createTableIfNotPresent_cases h with
    ⟨hpresent, rfl, rfl⟩ | ⟨habsent, pmm, halloc, rfl, hkernel, hcurrent, hhdm, hmem⟩
  · exact ⟨Grown.refl hs, PathTree.walk_concat_of_some ht hpresent, fun _ _ _ => rfl⟩
  have hfree : s.pmm.Free f := Pmm.free_of_alloc halloc
  have hfresh : ¬ Table V s f := fun hf => hs.notFree f hf hfree
  have hVp : V r p := hclosed hV
  have htable : Table V s t := ⟨r, p, hVp, ht⟩
  have htf : t ≠ f := fun heq => hfresh (heq ▸ htable)
  have hchange : PathTree.Changed pageCodec V s.mem s'.mem t i := by
    intro u j hu hne
    have huf : u ≠ f := fun heq => hfresh (heq ▸ hu)
    rw [hmem, if_neg huf, if_neg hne]
  have hentry : s'.mem t i = tableEntry f flags := by rw [hmem, if_neg htf, if_pos ⟨rfl, rfl⟩]
  have hpresent : pageCodec.present (s'.mem t i) := by
    rw [hentry]
    exact present_tableEntry f flags
  have hchild : pageCodec.child (s'.mem t i) = f := by
    rw [hentry]
    exact pteGetAddr_tableEntry flags (hs.fresh.aligned f hfree) (hs.fresh.physical f hfree)
  have hempty : ∀ j, ¬ pageCodec.present (s'.mem f j) := by
    intro j
    rw [hmem, if_pos rfl]
    exact Bool.false_ne_true
  have hnot : ¬ pageCodec.present (s.mem t i) := by
    rw [show pageCodec.present (s.mem t i) = false from habsent]
    exact Bool.false_ne_true
  have hfree' : ∀ g, s'.pmm.Free g ↔ s.pmm.Free g ∧ g ≠ f := fun g =>
    Pmm.free_alloc halloc hs.fresh
  have htable' : ∀ u, Table V s' u ↔ Table V s u ∨ u = f := fun u =>
    PathTree.table_link hclosed hs.distinct hVp ht hchange hV hnot hpresent hchild hempty
  have hwalk' := fun r' p' u (hV' : V r' p') => PathTree.walk_link (u := u) hclosed hs.distinct
    hVp ht hchange hV hnot hpresent hchild hempty hV'
  refine ⟨⟨⟨?_, ?_, Pmm.fresh_alloc halloc hs.fresh⟩, Pmm.exact_alloc halloc,
    ⟨hkernel, hcurrent, hhdm, ?_⟩, ?_, ?_, ?_, ?_, ?_⟩, ?_, ?_⟩
  · exact PathTree.distinct_link hclosed hs.distinct hVp ht hchange hV hnot hpresent hchild
      hempty hfresh
  · intro u hu hu'
    obtain ⟨hu', hne⟩ := (hfree' u).mp hu'
    exact hs.notFree u (((htable' u).mp hu).resolve_right hne) hu'
  · exact fun g => Pmm.managed_alloc halloc
  · exact fun r' p' u hV' hu => (hwalk' r' p' u hV').mpr (Or.inl hu)
  · exact fun r' p' j hpage => PathTree.leaf_link hclosed hs.distinct hVp ht hchange hV hnot
      hpresent hchild hempty hpage
  · intro u hu
    rcases (htable' u).mp hu with hu | rfl
    · exact Or.inl hu
    · exact Or.inr hfree
  · exact fun g hg => ((hfree' g).mp hg).1
  · intro u hu hu'
    have huf : u ≠ f := fun heq => hu' (heq ▸ hfree)
    have hut : u ≠ t := fun heq => hu (heq ▸ htable)
    funext j
    rw [hmem, if_neg huf, if_neg fun h => hut h.1]
  · exact (hwalk' r _ f hV).mpr (Or.inr ⟨rfl, rfl, rfl⟩)
  · intro u hut hu'
    have huf : u ≠ f := fun heq => hu' (heq ▸ hfree)
    funext j
    rw [hmem, if_neg huf, if_neg fun h => hut h.1]

end Create

theorem freeTableIfEmpty_mem (s : Paging) (f t : ℕ) (i : Fin 512) (u : ℕ) (j : Fin 512) :
    (s.freeTableIfEmpty f t i).mem u j = s.mem u j ∨
      (u = t ∧ j = i ∧ (s.freeTableIfEmpty f t i).mem u j = 0) := by
  unfold freeTableIfEmpty
  split_ifs with hempty
  · by_cases h : u = t ∧ j = i
    · refine Or.inr ⟨h.1, h.2, ?_⟩
      rw [freeFrame, mem_writeEntry, if_pos h]
    · left
      rw [freeFrame, mem_writeEntry, if_neg h]
  · exact Or.inl rfl

theorem freeTableIfEmpty_mem_of_ne (s : Paging) (f : ℕ) (i : Fin 512) (hne : u ≠ t) :
    (s.freeTableIfEmpty f t i).mem u = s.mem u := by
  funext j
  exact (freeTableIfEmpty_mem s f t i u j).resolve_right fun h => hne h.1

section Free

variable (hclosed : PathTree.Closed V) (hs : Distinct V s) (hV : V r (p ++ [i]))
  (ht : s.walk r p = some t) (hf : s.walk r (p ++ [i]) = some f)
include hclosed hs hV ht hf

theorem freeTableIfEmpty_spec : Shrunk V s (s.freeTableIfEmpty f t i) ∧
    ∀ q u, V r q → q ≠ p ++ [i] → s.walk r q = some u →
      (s.freeTableIfEmpty f t i).walk r q = some u := by
  unfold freeTableIfEmpty
  split_ifs with hempty
  swap
  · exact ⟨Shrunk.refl hs, fun _ _ _ _ h => h⟩
  obtain ⟨hpresent, hchild⟩ := PathTree.entry_of_walk_concat ht hf
  have hVp : V r p := hclosed hV
  have hchange := changed_writeEntry V s t i 0
  have hnone : ∀ j, ¬ pageCodec.present (s.mem f j) := fun j => by
    rw [show pageCodec.present (s.mem f j) = false from hempty j]
    exact Bool.false_ne_true
  have habsent : ¬ pageCodec.present ((s.writeEntry t i 0).mem t i) := by
    rw [mem_writeEntry, if_pos ⟨rfl, rfl⟩]
    exact Bool.false_ne_true
  have hwalk := fun r' p' u (hV' : V r' p') => PathTree.walk_unlink (u := u) hclosed hs hVp ht hchange hV hpresent hchild hnone habsent hV'
  have htable : ∀ u, Table V ((s.writeEntry t i 0).freeFrame f) u ↔ Table V s u ∧ u ≠ f :=
    fun u => PathTree.table_unlink hclosed hs hVp ht hchange hV hpresent hchild hnone
      habsent
  refine ⟨⟨?_, fun h => h.freePageFrame f, ?_, ?_, ?_, ?_⟩, ?_⟩
  · exact PathTree.distinct_unlink hclosed hs hVp ht hchange hV hpresent hchild hnone
      habsent
  · exact fun r' p' u hV' hu => ((hwalk r' p' u hV').mp hu).1
  · exact fun r' p' j hpage => PathTree.leaf_unlink hclosed hs hVp ht hchange hV hpresent
      hchild hnone habsent hpage
  · intro hexact g hg
    have haligned : f % memoryPageSize = 0 := hchild ▸ pteGetAddr_aligned _
    have hphys : f < 2 ^ 52 := hchild ▸ pteGetAddr_lt _
    rcases (Pmm.free_freePageFrame hexact haligned hphys).mp hg with hg | ⟨rfl, -⟩
    · exact Or.inl hg
    · exact Or.inr ⟨⟨r, p ++ [i], hV, hf⟩, fun h => ((htable g).mp h).2 rfl⟩
  · intro u hu
    have hut : u ≠ t := fun heq => hu (heq ▸ PathTree.Table.of_walk hVp ht)
    funext j
    rw [freeFrame, mem_writeEntry, if_neg fun h => hut h.1]
  · exact fun q u hVq hne hu => (hwalk r q u hVq).mpr ⟨hu, fun h => hne h.2⟩

end Free

section WritePage

variable (hclosed : PathTree.Closed V) (hs : Distinct V s) (hpage : PathTree.Page V r p i)
  (ht : s.walk r p = some t)
include hclosed hs hpage ht

theorem walk_writePage (e : ℕ) (hV : V r' p') :
    (s.writeEntry t i e).walk r' p' = s.walk r' p' :=
  PathTree.walk_setPage hclosed hs hpage.1 ht (changed_writeEntry V s t i e) hpage hV

theorem table_writePage (e : ℕ) : Table V (s.writeEntry t i e) u ↔ Table V s u := by
  refine exists_congr fun r' => exists_congr fun p' => and_congr_right fun hV => ?_
  exact iff_of_eq (congrArg (· = some u) (walk_writePage hclosed hs hpage ht e hV))

theorem distinct_writePage (e : ℕ) : Distinct V (s.writeEntry t i e) := by
  intro r₁ r₂ p₁ p₂ u h₁ h₂ hw₁ hw₂
  have hw₁' := (walk_writePage hclosed hs hpage ht e h₁).symm.trans hw₁
  have hw₂' := (walk_writePage hclosed hs hpage ht e h₂).symm.trans hw₂
  exact hs h₁ h₂ hw₁' hw₂'

theorem leaf_writePage_self (e : ℕ) : (s.writeEntry t i e).leaf r p i =
    if present e then some e else none := by
  have h := PathTree.leaf_setPage_self hclosed hs hpage.1 ht
    (changed_writeEntry V s t i e) hpage
  have hentry : (s.writeEntry t i e).mem t i = e := by rw [mem_writeEntry, if_pos ⟨rfl, rfl⟩]
  rwa [hentry] at h

theorem leaf_writePage_of_ne (e : ℕ) (hV : V r' p') (hne : ¬ (r' = r ∧ p' = p ∧ j = i)) :
    (s.writeEntry t i e).leaf r' p' j = s.leaf r' p' j :=
  PathTree.leaf_setPage_of_ne hclosed hs hpage.1 ht (changed_writeEntry V s t i e) hpage
    hV hne

end WritePage

theorem Sound.writePage (hclosed : PathTree.Closed V) (hs : Sound V s)
    (hpage : PathTree.Page V r p i) (ht : s.walk r p = some t) (e : ℕ) :
    Sound V (s.writeEntry t i e) where
  distinct := distinct_writePage hclosed hs.distinct hpage ht e
  notFree u hu := hs.notFree u ((table_writePage hclosed hs.distinct hpage ht e).mp hu)
  fresh := hs.fresh

theorem ne_root {q : List (Fin 512)} (hclosed : PathTree.Closed V) (hs : Distinct V s)
    (hV : V r (i :: q)) (ht : s.walk r (i :: q) = some t) : t ≠ r := by
  rintro rfl
  have hnil := hs hV (hclosed (p := []) hV) ht rfl
  exact List.cons_ne_nil i q hnil.2

/-- `mem_map_page_in_pml4` adds the missing tables and writes the page's entry. -/
theorem memMapPageInPml4_spec {v physAddr flags : ℕ} (hclosed : PathTree.Closed V)
    (hs : Sound V s) (hV : V r (tablePath v))
    (h : s.memMapPageInPml4 r v physAddr flags = some s') :
    ∃ s₁ pt, Grown V s s₁ ∧ s₁.walk r (tablePath v) = some pt ∧
      s' = s₁.writeEntry pt (pte v) (pageEntry physAddr flags) ∧
      (present (s.mem r (pml4e v)) → s₁.mem r = s.mem r) ∧
      ∀ r' p' u, V r' p' → s.walk r' p' = some u → r' ≠ r → s₁.mem u = s.mem u := by
  have hV₂ : V r ([pml4e v] ++ [pdpte v]) := hclosed (q := [pde v]) hV
  have hV₁ : V r ([] ++ [pml4e v]) := hclosed (q := [pdpte v]) hV₂
  obtain ⟨⟨pdpt, sa⟩, ha, h⟩ := Option.bind_eq_some_iff.mp h
  obtain ⟨⟨pd, sb⟩, hb, h⟩ := Option.bind_eq_some_iff.mp h
  obtain ⟨⟨pt, sc⟩, hc, rfl⟩ := Option.map_eq_some_iff.mp h
  obtain ⟨hga, hpdpt, hroot_a⟩ := createTableIfNotPresent_spec hclosed hs hV₁ rfl ha
  obtain ⟨hgb, hpd, hroot_b⟩ := createTableIfNotPresent_spec hclosed hga.sound hV₂ hpdpt hb
  obtain ⟨hgc, hpt, hroot_c⟩ := createTableIfNotPresent_spec hclosed hgb.sound
    (p := [pml4e v, pdpte v]) hV hpd hc
  have hused : ∀ s₁ u, Grown V s s₁ → Table V s u → ¬ s₁.pmm.Free u := fun s₁ u hg hu hfree =>
    hs.notFree u hu (hg.free u hfree)
  have hV₀ : V r [] := hclosed hV₁
  refine ⟨sc, pt, hga.trans (hgb.trans hgc), hpt, rfl, fun hpresent => ?_, ?_⟩
  · have hr : Table V s r := ⟨r, [], hV₀, rfl⟩
    have hsame : sa = s := by
      rcases createTableIfNotPresent_cases ha with ⟨-, -, heq⟩ | ⟨habsent, -⟩
      · exact heq
      · rw [hpresent] at habsent
        cases habsent
    rw [hroot_c r (ne_root hclosed hgb.sound.distinct hV₂ hpd).symm
        (hused sb r (hga.trans hgb) hr),
      hroot_b r (ne_root hclosed hga.sound.distinct hV₁ hpdpt).symm (hused sa r hga hr), hsame]
  · -- a table of another tree is none of the tables that are written
    intro r' p' u hV' hu hne
    have hu' : Table V s u := ⟨r', p', hV', hu⟩
    have hua := hga.walk r' p' u hV' hu
    have hub := hgb.walk r' p' u hV' hua
    have hroot : u ≠ r := fun heq => hne (hs.distinct hV' hV₀ hu (congrArg some heq.symm)).1
    have hpdptu : u ≠ pdpt := by
      rintro rfl
      exact hne (hga.sound.distinct hV' hV₁ hua hpdpt).1
    have hpdu : u ≠ pd := by
      rintro rfl
      exact hne (hgb.sound.distinct hV' hV₂ hub hpd).1
    rw [hroot_c u hpdu (hused sb u (hga.trans hgb) hu'), hroot_b u hpdptu (hused sa u hga hu'),
      hroot_a u hroot (hs.notFree u hu')]

/-- `mem_unmap_page` does nothing for an address that is not mapped, and otherwise clears the
page's entry and then frees what has become empty, from the last level up. -/
theorem memUnmapPage_cases (s : Paging) (v : ℕ) :
    (s.leaf (s.pml4For v) (tablePath v) (pte v) = none ∧ s.memUnmapPage v = s) ∨
    ∃ pdpt pd pt, s.walk (s.pml4For v) [pml4e v] = some pdpt ∧
      s.walk (s.pml4For v) [pml4e v, pdpte v] = some pd ∧
      s.walk (s.pml4For v) (tablePath v) = some pt ∧ present (s.mem pt (pte v)) ∧
      s.memUnmapPage v = (((s.writeEntry pt (pte v) 0).freeTableIfEmpty pt pd
        (pde v)).freeTableIfEmpty pd pdpt (pdpte v)).freeTableIfEmpty pdpt (s.pml4For v)
          (pml4e v) := by
  simp only [memUnmapPage, leaf, PathTree.leaf, walk, tablePath, PathTree.walk, pageCodec]
  split_ifs <;> simp_all

theorem SameMachine.freeTableIfEmpty (s : Paging) (f t : ℕ) (i : Fin 512) :
    SameMachine s (s.freeTableIfEmpty f t i) := by
  unfold Paging.freeTableIfEmpty
  split_ifs
  · exact ⟨rfl, rfl, rfl, fun _ => Iff.rfl⟩
  · exact SameMachine.refl s

theorem SameMachine.memUnmapPage (s : Paging) (v : ℕ) : SameMachine s (s.memUnmapPage v) := by
  rcases memUnmapPage_cases s v with ⟨-, heq⟩ | ⟨pdpt, pd, pt, -, -, -, -, heq⟩
  · rw [heq]
    exact SameMachine.refl s
  · rw [heq]
    exact (((SameMachine.writeEntry s pt (pte v) 0).trans (SameMachine.freeTableIfEmpty _ _ _ _)).trans
      (SameMachine.freeTableIfEmpty _ _ _ _)).trans (SameMachine.freeTableIfEmpty _ _ _ _)

theorem leaf_memUnmapPage_self (s : Paging) (v : ℕ) :
    (s.memUnmapPage v).leaf (s.pml4For v) (tablePath v) (pte v) = none := by
  rcases memUnmapPage_cases s v with ⟨hnone, heq⟩ | ⟨pdpt, pd, pt, -, -, hpt, -, heq⟩
  · rw [heq]
    exact hnone
  have hstep : ∀ (s₁ : Paging) (f t : ℕ) (i : Fin 512) (u : ℕ) (j : Fin 512),
      present ((s₁.freeTableIfEmpty f t i).mem u j) →
        (s₁.freeTableIfEmpty f t i).mem u j = s₁.mem u j := by
    intro s₁ f t i u j hpresent
    refine (freeTableIfEmpty_mem s₁ f t i u j).resolve_right fun h => ?_
    rw [h.2.2] at hpresent
    exact Bool.false_ne_true hpresent
  have hremoved : ∀ u j, present ((s.memUnmapPage v).mem u j) →
      (s.memUnmapPage v).mem u j = (s.writeEntry pt (pte v) 0).mem u j := by
    intro u j hpresent
    rw [heq] at hpresent ⊢
    have h₄ := hstep _ _ _ _ u j hpresent
    rw [h₄] at hpresent ⊢
    have h₃ := hstep _ _ _ _ u j hpresent
    rw [h₃] at hpresent ⊢
    exact hstep _ _ _ _ u j hpresent
  cases hleaf : (s.memUnmapPage v).leaf (s.pml4For v) (tablePath v) (pte v) with
  | none => rfl
  | some e =>
    obtain ⟨t, ht, hpresent, -⟩ := PathTree.leaf_eq_some hleaf
    have hentry := hremoved t (pte v) hpresent
    rw [mem_writeEntry] at hentry
    have hwalk : s.walk (s.pml4For v) (tablePath v) = some t := by
      refine PathTree.walk_of_removed (fun u j h => ?_) ht
      have hsame := hremoved u j h
      rw [mem_writeEntry] at hsame
      split_ifs at hsame with hcleared
      · rw [hsame] at h
        exact (Bool.false_ne_true h).elim
      · exact hsame
    obtain rfl : pt = t := Option.some.inj (hpt.symm.trans hwalk)
    rw [if_pos ⟨rfl, rfl⟩] at hentry
    rw [hentry] at hpresent
    exact (Bool.false_ne_true hpresent).elim

section Unmap

variable {v pdpt pd pt : ℕ} (hclosed : PathTree.Closed V) (hs : Distinct V s)
  (hpage : PathTree.Page V r (tablePath v) (pte v)) (hpdpt : s.walk r [pml4e v] = some pdpt)
  (hpd : s.walk r [pml4e v, pdpte v] = some pd) (hpt : s.walk r (tablePath v) = some pt)
include hclosed hs hpage hpdpt hpd hpt

theorem shrunk_of_unmap : Shrunk V (s.writeEntry pt (pte v) 0)
    ((((s.writeEntry pt (pte v) 0).freeTableIfEmpty pt pd (pde v)).freeTableIfEmpty pd pdpt
      (pdpte v)).freeTableIfEmpty pdpt r (pml4e v)) := by
  have hV₃ : V r ([pml4e v, pdpte v] ++ [pde v]) := hpage.1
  have hV₂ : V r ([pml4e v] ++ [pdpte v]) := hclosed (q := [pde v]) hV₃
  have hV₁ : V r ([] ++ [pml4e v]) := hclosed (q := [pdpte v]) hV₂
  have hwalk := fun p (hV : V r p) => walk_writePage hclosed hs hpage hpt 0 hV
  obtain ⟨h₂, hkeep₂⟩ := freeTableIfEmpty_spec hclosed
    (distinct_writePage hclosed hs hpage hpt 0) hV₃
    ((hwalk _ hV₂).trans hpd) ((hwalk _ hV₃).trans hpt)
  have hpd₂ := hkeep₂ [pml4e v, pdpte v] pd hV₂ (by simp) ((hwalk _ hV₂).trans hpd)
  have hpdpt₂ := hkeep₂ [pml4e v] pdpt hV₁ (by simp) ((hwalk _ hV₁).trans hpdpt)
  obtain ⟨h₃, hkeep₃⟩ := freeTableIfEmpty_spec hclosed h₂.distinct hV₂ hpdpt₂ hpd₂
  have hpdpt₃ := hkeep₃ [pml4e v] pdpt hV₁ (by simp) hpdpt₂
  obtain ⟨h₄, -⟩ := freeTableIfEmpty_spec hclosed h₃.distinct hV₁ rfl hpdpt₃
  exact h₂.trans (h₃.trans h₄)

theorem tables_ne : pdpt ≠ r ∧ pd ≠ r ∧ pt ≠ r ∧ pd ≠ pdpt ∧ pt ≠ pdpt ∧ pt ≠ pd := by
  have hV₂ : V r [pml4e v, pdpte v] := hclosed (q := [pde v]) hpage.1
  have hV₁ : V r [pml4e v] := hclosed (q := [pdpte v]) hV₂
  refine ⟨ne_root hclosed hs hV₁ hpdpt, ne_root hclosed hs hV₂ hpd,
    ne_root hclosed hs hpage.1 hpt, ?_, ?_, ?_⟩
  · rintro rfl
    simpa using (hs hV₂ hV₁ hpd hpdpt).2
  · rintro rfl
    simpa [tablePath] using (hs hpage.1 hV₁ hpt hpdpt).2
  · rintro rfl
    simpa [tablePath] using (hs hpage.1 hV₂ hpt hpd).2

end Unmap

/-- `mem_unmap_page` is at most a cleared page entry followed by freeing empty tables. -/
theorem memUnmapPage_spec {v : ℕ} (hclosed : PathTree.Closed V) (hs : Distinct V s)
    (hpage : PathTree.Page V (s.pml4For v) (tablePath v) (pte v)) :
    ∃ s₁, Shrunk V s₁ (s.memUnmapPage v) ∧
      (s₁ = s ∨ ∃ pt, s.walk (s.pml4For v) (tablePath v) = some pt ∧
        s₁ = s.writeEntry pt (pte v) 0) := by
  rcases memUnmapPage_cases s v with ⟨-, heq⟩ | ⟨pdpt, pd, pt, hpdpt, hpd, hpt, -, heq⟩
  · rw [heq]
    exact ⟨s, Shrunk.refl hs, Or.inl rfl⟩
  · rw [heq]
    exact ⟨s.writeEntry pt (pte v) 0, shrunk_of_unmap hclosed hs hpage hpdpt hpd hpt,
      Or.inr ⟨pt, hpt, rfl⟩⟩

section Unmapped

variable {v : ℕ} (hclosed : PathTree.Closed V) (hs : Distinct V s)
  (hpage : PathTree.Page V (s.pml4For v) (tablePath v) (pte v))
include hclosed hs hpage

theorem leaf_memUnmapPage_of_ne (hpage' : PathTree.Page V r' p' j)
    (hne : ¬ (r' = s.pml4For v ∧ p' = tablePath v ∧ j = pte v)) :
    (s.memUnmapPage v).leaf r' p' j = s.leaf r' p' j := by
  obtain ⟨s₁, hshrunk, rfl | ⟨pt, hpt, rfl⟩⟩ := memUnmapPage_spec hclosed hs hpage
  · exact hshrunk.leaf r' p' j hpage'
  · exact (hshrunk.leaf r' p' j hpage').trans
      (leaf_writePage_of_ne hclosed hs hpage hpt 0 hpage'.1 hne)

theorem mem_memUnmapPage_root (i : Fin 512) :
    (s.memUnmapPage v).mem (s.pml4For v) i = s.mem (s.pml4For v) i ∨
      (i = pml4e v ∧ (s.memUnmapPage v).mem (s.pml4For v) i = 0) := by
  rcases memUnmapPage_cases s v with ⟨-, heq⟩ | ⟨pdpt, pd, pt, hpdpt, hpd, hpt, -, heq⟩
  · exact Or.inl (by rw [heq])
  obtain ⟨hpdptr, hpdr, hptr, -⟩ := tables_ne hclosed hs hpage hpdpt hpd hpt
  have hlower : ∀ (s₁ : Paging) (f t : ℕ) (k : Fin 512), t ≠ s.pml4For v →
      (s₁.freeTableIfEmpty f t k).mem (s.pml4For v) i = s₁.mem (s.pml4For v) i := by
    intro s₁ f t k hne
    exact (freeTableIfEmpty_mem s₁ f t k (s.pml4For v) i).resolve_right fun h => hne h.1.symm
  have hbelow : ((((s.writeEntry pt (pte v) 0).freeTableIfEmpty pt pd (pde v)).freeTableIfEmpty
      pd pdpt (pdpte v))).mem (s.pml4For v) i = s.mem (s.pml4For v) i := by
    rw [hlower _ _ _ _ hpdptr, hlower _ _ _ _ hpdr, mem_writeEntry, if_neg fun h => hptr h.1.symm]
  rw [heq]
  rcases freeTableIfEmpty_mem _ pdpt (s.pml4For v) (pml4e v) (s.pml4For v) i with h | ⟨-, hi, h⟩
  · exact Or.inl (h.trans hbelow)
  · exact Or.inr ⟨hi, h⟩

theorem mem_memUnmapPage_other (hV : V r' p') (hu : s.walk r' p' = some u)
    (hne : r' ≠ s.pml4For v) : (s.memUnmapPage v).mem u = s.mem u := by
  rcases memUnmapPage_cases s v with ⟨-, heq⟩ | ⟨pdpt, pd, pt, hpdpt, hpd, hpt, -, heq⟩
  · rw [heq]
  have hV₂ : V (s.pml4For v) [pml4e v, pdpte v] := hclosed (q := [pde v]) hpage.1
  have hV₁ : V (s.pml4For v) [pml4e v] := hclosed (q := [pdpte v]) hV₂
  have hV₀ : V (s.pml4For v) [] := hclosed (q := [pml4e v]) hV₁
  have hother : ∀ p t, V (s.pml4For v) p → s.walk (s.pml4For v) p = some t → u ≠ t := by
    rintro p t hVp ht rfl
    exact hne (hs hV hVp hu ht).1
  rw [heq, freeTableIfEmpty_mem_of_ne _ _ _ (hother _ _ hV₀ rfl),
    freeTableIfEmpty_mem_of_ne _ _ _ (hother _ _ hV₁ hpdpt),
    freeTableIfEmpty_mem_of_ne _ _ _ (hother _ _ hV₂ hpd)]
  funext j
  rw [mem_writeEntry, if_neg fun h => hother _ _ hpage.1 hpt h.1]

theorem Sound.memUnmapPage (hsound : Sound V s) (hexact : s.pmm.Exact) :
    Sound V (s.memUnmapPage v) ∧ (s.memUnmapPage v).pmm.Exact := by
  obtain ⟨s₁, hshrunk, rfl | ⟨pt, hpt, rfl⟩⟩ := memUnmapPage_spec hclosed hs hpage
  · exact ⟨hshrunk.sound hexact hsound, hshrunk.exact hexact⟩
  · exact ⟨hshrunk.sound hexact (hsound.writePage hclosed hpage hpt 0), hshrunk.exact hexact⟩

end Unmapped

/-! When a table's frame is given back. -/

def Emptied (s s' : Paging) (t : ℕ) : Prop :=
  (∃ i, present (s.mem t i) = true) ∧ ∀ i, present (s'.mem t i) = false

inductive Unlinked (V : ℕ → List (Fin 512) → Prop) (s : Paging) : List PageEvent → Prop
  | nil : Unlinked V s []
  | entry {l : List PageEvent} (t : ℕ) (i : Fin 512) (e : ℕ) (h : Unlinked V s l) :
    Unlinked V s (.entry t i e :: l)
  | free {l : List PageEvent} {t f : ℕ} {i : Fin 512} (ht : Table V s t)
    (hpresent : present (s.mem t i)) (hchild : pteGetAddr (s.mem t i) = f)
    (h : Unlinked V s l) : Unlinked V s (.entry t i 0 :: .free f :: l)

def freeEvents (s : Paging) (lower higher : ℕ) (higherIdx : Fin 512) : List PageEvent :=
  if ∀ i, present (s.mem lower i) = false then [.entry higher higherIdx 0, .free lower] else []

theorem events_freeTableIfEmpty (s : Paging) (f t : ℕ) (i : Fin 512) :
    (s.freeTableIfEmpty f t i).events = s.events ++ s.freeEvents f t i := by
  unfold freeTableIfEmpty freeEvents
  split_ifs
  · simp [freeFrame, writeEntry]
  · simp

theorem free_mem_freeEvents :
    .free u ∈ s.freeEvents f t i ↔ u = f ∧ ∀ j, present (s.mem f j) = false := by
  unfold freeEvents
  split_ifs with h
  · simp [h]
  · simp [h]

theorem Unlinked.freeEvents {l : List PageEvent} (h : Unlinked V s l) (s₁ : Paging)
    (ht : Table V s t) (hpresent : present (s.mem t i)) (hchild : pteGetAddr (s.mem t i) = f) :
    Unlinked V s (s₁.freeEvents f t i ++ l) := by
  unfold Paging.freeEvents
  split_ifs
  · exact .free ht hpresent hchild h
  · exact h

theorem memUnmapPage_events {v : ℕ} (hclosed : PathTree.Closed V) (hs : Distinct V s)
    (hpage : PathTree.Page V (s.pml4For v) (tablePath v) (pte v)) :
    ∃ l, (s.memUnmapPage v).events = s.events ++ l ∧ Unlinked V s l ∧
      ∀ t, .free t ∈ l ↔ Table V s t ∧ t ≠ s.pml4For v ∧ Emptied s (s.memUnmapPage v) t := by
  rcases memUnmapPage_cases s v with ⟨-, heq⟩ | ⟨pdpt, pd, pt, hpdpt, hpd, hpt, hpresent, heq⟩
  · refine ⟨[], by rw [heq, List.append_nil], .nil, fun t => ?_⟩
    rw [heq]
    refine iff_of_false List.not_mem_nil ?_
    rintro ⟨-, -, ⟨i, hi⟩, hnone⟩
    exact Bool.false_ne_true ((hnone i).symm.trans hi)
  obtain ⟨hpdptr, hpdr, hptr, hpdpdpt, hptpdpt, hptpd⟩ := tables_ne hclosed hs hpage hpdpt hpd hpt
  have hV₂ : V (s.pml4For v) [pml4e v, pdpte v] := hclosed (q := [pde v]) hpage.1
  have hV₁ : V (s.pml4For v) [pml4e v] := hclosed (q := [pdpte v]) hV₂
  have hV₀ : V (s.pml4For v) [] := hclosed (q := [pml4e v]) hV₁
  obtain ⟨hpe₄, hch₄⟩ := PathTree.entry_of_walk_concat (p := []) (i := pml4e v) rfl hpdpt
  obtain ⟨hpe₃, hch₃⟩ := PathTree.entry_of_walk_concat (p := [pml4e v]) hpdpt hpd
  obtain ⟨hpe₂, hch₂⟩ := PathTree.entry_of_walk_concat (p := [pml4e v, pdpte v]) hpd hpt
  generalize hs₁ : s.writeEntry pt (pte v) 0 = s₁ at heq
  generalize hs₂ : s₁.freeTableIfEmpty pt pd (pde v) = s₂ at heq
  generalize hs₃ : s₂.freeTableIfEmpty pd pdpt (pdpte v) = s₃ at heq
  have hmem₁ : ∀ t, t ≠ pt → s₁.mem t = s.mem t := by
    intro t hne
    funext j
    rw [← hs₁, mem_writeEntry, if_neg fun h => hne h.1]
  have hmem₂ : ∀ t, t ≠ pd → s₂.mem t = s₁.mem t := fun t hne => by
    rw [← hs₂, freeTableIfEmpty_mem_of_ne _ _ _ hne]
  have hmem₃ : ∀ t, t ≠ pdpt → s₃.mem t = s₂.mem t := fun t hne => by
    rw [← hs₃, freeTableIfEmpty_mem_of_ne _ _ _ hne]
  have hmem₄ : ∀ t, t ≠ s.pml4For v → (s.memUnmapPage v).mem t = s₃.mem t := fun t hne => by
    rw [heq, freeTableIfEmpty_mem_of_ne _ _ _ hne]
  refine ⟨.entry pt (pte v) 0 :: (s₁.freeEvents pt pd (pde v) ++
    (s₂.freeEvents pd pdpt (pdpte v) ++ s₃.freeEvents pdpt (s.pml4For v) (pml4e v))), ?_, ?_, ?_⟩
  · have hev₁ : s₁.events = s.events ++ [.entry pt (pte v) 0] := by rw [← hs₁, writeEntry]
    have hev₂ : s₂.events = s₁.events ++ s₁.freeEvents pt pd (pde v) := by
      rw [← hs₂, events_freeTableIfEmpty]
    have hev₃ : s₃.events = s₂.events ++ s₂.freeEvents pd pdpt (pdpte v) := by
      rw [← hs₃, events_freeTableIfEmpty]
    rw [heq, events_freeTableIfEmpty, hev₃, hev₂, hev₁]
    simp only [List.append_assoc, List.cons_append, List.nil_append]
  · have h₄ : Unlinked V s (s₃.freeEvents pdpt (s.pml4For v) (pml4e v) ++ []) :=
      Unlinked.nil.freeEvents s₃ ⟨_, _, hV₀, rfl⟩ hpe₄ hch₄
    rw [List.append_nil] at h₄
    have h₃ := h₄.freeEvents s₂ ⟨_, _, hV₁, hpdpt⟩ hpe₃ hch₃
    have h₂ := h₃.freeEvents s₁ ⟨_, _, hV₂, hpd⟩ hpe₂ hch₂
    exact h₂.entry pt (pte v) 0
  · intro t
    simp only [List.mem_cons, List.mem_append, reduceCtorEq, false_or, free_mem_freeEvents]
    constructor
    · rintro (⟨rfl, hnone⟩ | ⟨rfl, hnone⟩ | ⟨rfl, hnone⟩)
      · refine ⟨⟨_, _, hpage.1, hpt⟩, hptr, ⟨pte v, hpresent⟩, ?_⟩
        rwa [hmem₄ _ hptr, hmem₃ _ hptpdpt, hmem₂ _ hptpd]
      · refine ⟨⟨_, _, hV₂, hpd⟩, hpdr, ⟨pde v, hpe₂⟩, ?_⟩
        rwa [hmem₄ _ hpdr, hmem₃ _ hpdpdpt]
      · refine ⟨⟨_, _, hV₁, hpdpt⟩, hpdptr, ⟨pdpte v, hpe₃⟩, ?_⟩
        rwa [hmem₄ _ hpdptr]
    · rintro ⟨-, hne, ⟨i, hi⟩, hnone⟩
      by_cases htpt : t = pt
      · subst htpt
        rw [hmem₄ _ hptr, hmem₃ _ hptpdpt, hmem₂ _ hptpd] at hnone
        exact Or.inl ⟨rfl, hnone⟩
      by_cases htpd : t = pd
      · subst htpd
        rw [hmem₄ _ hpdr, hmem₃ _ hpdpdpt] at hnone
        exact Or.inr (Or.inl ⟨rfl, hnone⟩)
      by_cases htpdpt : t = pdpt
      · subst htpdpt
        rw [hmem₄ _ hpdptr] at hnone
        exact Or.inr (Or.inr ⟨rfl, hnone⟩)
      rw [hmem₄ _ hne, hmem₃ _ htpdpt, hmem₂ _ htpd, hmem₁ _ htpt] at hnone
      exact (Bool.false_ne_true ((hnone i).symm.trans hi)).elim

section Mapped

variable {v physAddr flags : ℕ} (hclosed : PathTree.Closed V) (hs : Sound V s)
  (hpage : PathTree.Page V r (tablePath v) (pte v))
  (h : s.memMapPageInPml4 r v physAddr flags = some s')
include hclosed hs hpage h

theorem leaf_memMapPageInPml4_self :
    s'.leaf r (tablePath v) (pte v) = some (pageEntry physAddr flags) := by
  obtain ⟨s₁, pt, hgrown, hpt, rfl, -, -⟩ := memMapPageInPml4_spec hclosed hs hpage.1 h
  rw [leaf_writePage_self hclosed hgrown.sound.distinct hpage hpt, if_pos (present_pageEntry _ _)]

theorem leaf_memMapPageInPml4_of_ne (hpage' : PathTree.Page V r' p' j)
    (hne : ¬ (r' = r ∧ p' = tablePath v ∧ j = pte v)) : s'.leaf r' p' j = s.leaf r' p' j := by
  obtain ⟨s₁, pt, hgrown, hpt, rfl, -, -⟩ := memMapPageInPml4_spec hclosed hs hpage.1 h
  rw [leaf_writePage_of_ne hclosed hgrown.sound.distinct hpage hpt _ hpage'.1 hne,
    hgrown.leaf r' p' j hpage']

theorem mem_memMapPageInPml4_root (hpresent : present (s.mem r (pml4e v))) :
    s'.mem r = s.mem r := by
  obtain ⟨s₁, pt, hgrown, hpt, rfl, hroot, -⟩ := memMapPageInPml4_spec hclosed hs hpage.1 h
  have hne : pt ≠ r := ne_root hclosed hgrown.sound.distinct hpage.1 hpt
  rw [← hroot hpresent]
  funext j
  rw [mem_writeEntry, if_neg fun h => hne h.1.symm]

theorem mem_memMapPageInPml4_other (hV : V r' p') (hu : s.walk r' p' = some u) (hne : r' ≠ r) :
    s'.mem u = s.mem u := by
  obtain ⟨s₁, pt, hgrown, hpt, rfl, -, hother⟩ := memMapPageInPml4_spec hclosed hs hpage.1 h
  have hupt : u ≠ pt := by
    rintro rfl
    exact hne (hgrown.sound.distinct hV hpage.1 (hgrown.walk r' p' u hV hu) hpt).1
  rw [← hother r' p' u hV hu hne]
  funext j
  rw [mem_writeEntry, if_neg fun h => hupt h.1]

theorem mem_memMapPageInPml4_of_not_table (hu : ¬ Table V s u) (hfree : ¬ s.pmm.Free u) :
    ¬ Table V s' u ∧ s'.mem u = s.mem u := by
  obtain ⟨s₁, pt, hgrown, hpt, rfl, -, -⟩ := memMapPageInPml4_spec hclosed hs hpage.1 h
  have hu₁ : ¬ Table V s₁ u := fun hu' => (hgrown.table u hu').elim hu hfree
  refine ⟨fun hu' => hu₁ ((table_writePage hclosed hgrown.sound.distinct hpage hpt _).mp hu'), ?_⟩
  rw [← hgrown.mem u hu hfree]
  funext j
  rw [mem_writeEntry, if_neg]
  rintro ⟨rfl, -⟩
  exact hu₁ ⟨r, tablePath v, hpage.1, hpt⟩

theorem Sound.memMapPageInPml4 : Sound V s' ∧ (s.pmm.Exact → s'.pmm.Exact) ∧ SameMachine s s' ∧
    ∀ f, s'.pmm.Free f → s.pmm.Free f := by
  obtain ⟨s₁, pt, hgrown, hpt, rfl, -, -⟩ := memMapPageInPml4_spec hclosed hs hpage.1 h
  exact ⟨hgrown.sound.writePage hclosed hpage hpt _, hgrown.exact,
    hgrown.same.trans (SameMachine.writeEntry s₁ pt (pte v) _), hgrown.free⟩

end Mapped

/-! The laws for the tables below one PML4. -/

def belowPml4 (pml4 : ℕ) (r : ℕ) (p : List (Fin 512)) : Prop := r = pml4 ∧ p.length ≤ 3

theorem belowPml4_closed (pml4 : ℕ) : PathTree.Closed (belowPml4 pml4) := by
  rintro r p q ⟨hr, hlen⟩
  rw [List.length_append] at hlen
  exact ⟨hr, by omega⟩

theorem belowPml4_page (pml4 v : ℕ) :
    PathTree.Page (belowPml4 pml4) pml4 (tablePath v) (pte v) := by
  refine ⟨⟨rfl, le_refl 3⟩, ?_⟩
  rintro ⟨-, hlen⟩
  exact absurd hlen (by simp [tablePath])

/-- `virt_to_phys` gives back a mapped physical address: it is page aligned and canonical, and
the flags have no further bits from bit 12 on. -/
def Translates (physAddr flags : ℕ) : Prop :=
  physAddr % 4096 = 0 ∧ Canonical physAddr ∧ ∀ i, 12 ≤ i → flags.testBit i → physAddr.testBit i

/-- Mapping and unmapping a page change the translation of this page only, and unmapping gives
back exactly the tables it leaves empty, each after its parent entry was cleared. -/
theorem page_table_laws (s : Paging) (pml4 v : ℕ) (hs : Sound (belowPml4 pml4) s)
    (hv : Canonical v) :
    (∀ physAddr flags s', physAddr < 2 ^ 64 → flags < 2 ^ 32 →
      s.memMapPageInPml4 pml4 v physAddr flags = some s' →
      ((∀ w, w / 4096 = v / 4096 →
        (s'.memSetCurrentPml4Table pml4).virtToPhys w = physAddr + w % 4096) ↔
          Translates physAddr flags) ∧
      ∀ w, Canonical w → w / 4096 ≠ v / 4096 →
        (s'.memSetCurrentPml4Table pml4).virtToPhys w =
          (s.memSetCurrentPml4Table pml4).virtToPhys w) ∧
    (s.pml4For v = pml4 →
      (∀ w, w / 4096 = v / 4096 →
        ((s.memUnmapPage v).memSetCurrentPml4Table pml4).virtToPhys w = invalidPhysAddr) ∧
      (∀ w, Canonical w → w / 4096 ≠ v / 4096 →
        ((s.memUnmapPage v).memSetCurrentPml4Table pml4).virtToPhys w =
          (s.memSetCurrentPml4Table pml4).virtToPhys w) ∧
      ∃ l, (s.memUnmapPage v).events = s.events ++ l ∧ Unlinked (belowPml4 pml4) s l ∧
        ∀ t, .free t ∈ l ↔ Table (belowPml4 pml4) s t ∧ t ≠ pml4 ∧
          Emptied s (s.memUnmapPage v) t) := by
  have hclosed := belowPml4_closed pml4
  have hpage := belowPml4_page pml4
  -- an address of another page has another path, so its last-level entry is another one
  have hother : ∀ w, Canonical w → w / 4096 ≠ v / 4096 →
      ¬ (pml4 = pml4 ∧ tablePath w = tablePath v ∧ pte w = pte v) := by
    rintro w hw hne ⟨-, hpath, hpte⟩
    exact hne (page_eq_of_indices hw hv hpath hpte)
  refine ⟨fun physAddr flags s' hphys hflags h => ⟨?_, fun w hw hne => ?_⟩, ?_⟩
  · have hvalue : ∀ w, w / 4096 = v / 4096 → (s'.memSetCurrentPml4Table pml4).virtToPhys w =
        canonicalize (pteGetAddr (pageEntry physAddr flags)) + w % 4096 := by
      intro w hw
      obtain ⟨hpath, hpte⟩ := indices_of_page hw
      have hleaf := leaf_memMapPageInPml4_self hclosed hs (hpage v) h
      rw [virtToPhys_eq, hpath, hpte]
      simp only [leaf, memSetCurrentPml4Table, hleaf, canonicalize_or_offset]
    rw [Translates, ← canonicalize_pageEntry hphys hflags]
    constructor
    · intro hall
      have hbase := (hvalue v rfl).symm.trans (hall v rfl)
      omega
    · intro heq w hw
      rw [hvalue w hw, heq]
  · have hleaf := leaf_memMapPageInPml4_of_ne hclosed hs (hpage v) h (hpage w) (hother w hw hne)
    rw [virtToPhys_eq, virtToPhys_eq]
    simp only [leaf, memSetCurrentPml4Table, hleaf]
  · rintro rfl
    refine ⟨fun w hw => ?_, fun w hw hne => ?_, memUnmapPage_events hclosed hs.distinct (hpage v)⟩
    · obtain ⟨hpath, hpte⟩ := indices_of_page hw
      have hleaf := leaf_memUnmapPage_self s v
      rw [virtToPhys_eq, hpath, hpte]
      simp only [leaf, memSetCurrentPml4Table, hleaf]
    · have hleaf := leaf_memUnmapPage_of_ne hclosed hs.distinct (hpage v) (hpage w)
        (hother w hw hne)
      rw [virtToPhys_eq, virtToPhys_eq]
      simp only [leaf, memSetCurrentPml4Table, hleaf]

def emptyPml4 : Paging where
  mem _ _ := 0
  pmm := ⟨0x8000, 8, fun _ => false⟩
  kernelPml4 := 0x1000
  currentPml4 := 0x1000
  hhdm := 0xffff800000000000
  events := []

theorem emptyPml4_exact : emptyPml4.pmm.Exact := by constructor <;> decide

theorem emptyPml4_sound : Sound (belowPml4 0x1000) emptyPml4 := by
  have hwalk : ∀ r p t, emptyPml4.walk r p = some t → p = [] ∧ t = r := by
    intro r p t h
    cases p with
    | nil => exact ⟨rfl, (Option.some.inj h).symm⟩
    | cons i p =>
      have habsent : ¬ pageCodec.present (emptyPml4.mem r i) = true := by
        simp [pageCodec, emptyPml4]
      rw [walk, PathTree.walk_cons, if_neg habsent] at h
      cases h
  refine ⟨?_, ?_, emptyPml4_exact.fresh⟩
  · intro r r' p p' t hV hV' h h'
    exact ⟨hV.1.trans hV'.1.symm, (hwalk r p t h).1.trans (hwalk r' p' t h').1.symm⟩
  · rintro t ⟨r, p, ⟨rfl, -⟩, h⟩ ⟨k, hk, -, hframe⟩
    obtain ⟨-, rfl⟩ := hwalk _ p t h
    have hstart : emptyPml4.pmm.memPhysAllocStart = 0x8000 := rfl
    rw [emptyPml4_exact.frame_eq hk, hstart] at hframe
    omega

theorem page_table_laws_mapped : ∃ s, emptyPml4.memMapPageInPml4 0x1000 0x400000 0x5000 7 = some s ∧
    (s.memSetCurrentPml4Table 0x1000).virtToPhys 0x400123 = 0x5123 ∧
    (emptyPml4.memUnmapPage 0x400000).virtToPhys 0x400123 = invalidPhysAddr := by
  have hmap : (emptyPml4.memMapPageInPml4 0x1000 0x400000 0x5000 7).isSome = true := by
    decide +kernel
  obtain ⟨s, hs⟩ := Option.isSome_iff_exists.mp hmap
  obtain ⟨hmapped, hunmapped⟩ := page_table_laws emptyPml4 0x1000 0x400000 emptyPml4_sound
    (by decide)
  have htranslates : Translates 0x5000 7 := by
    refine ⟨by decide, by decide, fun i hi hflag => ?_⟩
    rw [testBit_high (n := 3) (by decide) (by omega)] at hflag
    cases hflag
  refine ⟨s, hs, ?_, ?_⟩
  · exact ((hmapped 0x5000 7 s (by decide) (by decide) hs).1.mpr htranslates) 0x400123 (by decide)
  · exact (hunmapped rfl).1 0x400123 (by decide)

/-- `virt_to_phys` does not give back a physical address with bit 47 set. -/
theorem high_frame_not_translated : Sound (belowPml4 0x1000) emptyPml4 ∧ Canonical 0x400000 ∧
    (emptyPml4.memMapPageInPml4 0x1000 0x400000 (2 ^ 47) 3).map
      (fun s => (s.memSetCurrentPml4Table 0x1000).virtToPhys 0x400000) =
        some 0xffff800000000000 ∧ 0xffff800000000000 ≠ 2 ^ 47 :=
  ⟨emptyPml4_sound, by decide, by decide +kernel, by decide⟩

end Paging

end BrickOS.Memory
