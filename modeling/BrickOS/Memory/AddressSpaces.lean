import BrickOS.Lib.Run
import BrickOS.Memory.PageTables

/-! The address spaces of the processes: user PML4 tables next to the kernel's, whose upper half
they copy when they are created. -/
namespace BrickOS.Memory
open BrickOS.Lib

def kernelSharedMappingIdx : ℕ := 256

namespace Paging

def freeTableEntry (s : Paging) (tbl : ℕ) (tblIdx : Fin 512) : Paging :=
  (s.freeFrame (s.mem tbl tblIdx &&& 0xfffffffffffff000)).writeEntry tbl tblIdx 0

/-- One of the nested loops of `free_user_pml4_table`: what a present entry leads to is taken
down by `lower` before the entry itself is freed. -/
def freeEntries (lower : Paging → ℕ → Paging) (s : Paging) (tbl : ℕ)
    (idxs : List (Fin 512)) : Paging :=
  idxs.foldl (fun s i =>
    if present (s.mem tbl i) then
      (lower s (s.mem tbl i &&& 0xfffffffffffff000)).freeTableEntry tbl i
    else s) s

def freePt (s : Paging) (pt : ℕ) : Paging :=
  freeEntries (fun s _ => s) s pt (List.finRange 512)

def freePd (s : Paging) (pd : ℕ) : Paging := freeEntries freePt s pd (List.finRange 512)

def freePdpt (s : Paging) (pdpt : ℕ) : Paging := freeEntries freePd s pdpt (List.finRange 512)

def freeUserPml4Table (s : Paging) (userPml4 : ℕ) : Paging :=
  let s := freeEntries freePdpt s userPml4 ((List.finRange 512).take kernelSharedMappingIdx)
  let s := s.memUnmapPage ((userPml4 + s.hhdm) % 2 ^ 64)
  s.freeFrame userPml4

def copyKernelMapping (s : Paging) (pml4 : ℕ) : Paging :=
  let cleared := Function.update s.mem pml4 fun _ => 0
  { s with
    mem := Function.update cleared pml4 fun j =>
      if j.val < kernelSharedMappingIdx then cleared pml4 j else cleared s.kernelPml4 j }

def createUserPml4Table (s : Paging) : Option (ℕ × Paging) :=
  s.pmm.pmmAllocPageFrame.bind fun a =>
  (memMapPage { s with pmm := a.2 } ((a.1 + s.hhdm) % 2 ^ 64) a.1 pageFlagWrite).map fun s' =>
    (a.1, s'.copyKernelMapping a.1)

theorem freeEntries_of_absent {lower : Paging → ℕ → Paging} {s : Paging} {tbl : ℕ}
    {idxs : List (Fin 512)} (h : ∀ i ∈ idxs, present (s.mem tbl i) = false) :
    freeEntries lower s tbl idxs = s := by
  unfold freeEntries
  induction idxs with
  | nil => rfl
  | cons i idxs ih =>
    have habsent : ¬ present (s.mem tbl i) = true := by
      rw [h i List.mem_cons_self]
      exact Bool.false_ne_true
    rw [List.foldl_cons, if_neg habsent]
    exact ih fun j hj => h j (List.mem_cons_of_mem i hj)

theorem mem_copyKernelMapping_of_ne {s : Paging} {pml4 t : ℕ} (h : t ≠ pml4) :
    (s.copyKernelMapping pml4).mem t = s.mem t := by
  simp [copyKernelMapping, h]

theorem mem_copyKernelMapping_self {s : Paging} {pml4 : ℕ} (h : s.kernelPml4 ≠ pml4)
    (j : Fin 512) : (s.copyKernelMapping pml4).mem pml4 j =
      if j.val < kernelSharedMappingIdx then 0 else s.mem s.kernelPml4 j := by
  simp [copyKernelMapping, h]

end Paging

structure AddressSpaces where
  paging : Paging
  users : List ℕ

inductive SpaceCall where
  | createUserPml4Table
  | freeUserPml4Table (userPml4 : ℕ)
  | memMapPageInPml4 (pml4 virtAddr physAddr flags : ℕ)
  | memMapPage (virtAddr physAddr flags : ℕ)
  | memUnmapPage (virtAddr : ℕ)
  | memSetCurrentPml4Table (pml4 : ℕ)

namespace AddressSpaces

def pml4s (a : AddressSpaces) : List ℕ := a.paging.kernelPml4 :: a.users

def step (a : AddressSpaces) : SpaceCall → Option AddressSpaces
  | .createUserPml4Table =>
    a.paging.createUserPml4Table.map fun c => ⟨c.2, c.1 :: a.users⟩
  | .freeUserPml4Table userPml4 =>
    if userPml4 ∈ a.users then
      some ⟨a.paging.freeUserPml4Table userPml4, a.users.filter (· ≠ userPml4)⟩
    else none
  | .memMapPageInPml4 pml4 virtAddr physAddr flags =>
    if pml4 ∈ a.pml4s then
      (a.paging.memMapPageInPml4 pml4 virtAddr physAddr flags).map fun s => ⟨s, a.users⟩
    else none
  | .memMapPage virtAddr physAddr flags =>
    (a.paging.memMapPage virtAddr physAddr flags).map fun s => ⟨s, a.users⟩
  | .memUnmapPage virtAddr => some ⟨a.paging.memUnmapPage virtAddr, a.users⟩
  | .memSetCurrentPml4Table pml4 =>
    if pml4 ∈ a.pml4s then some ⟨a.paging.memSetCurrentPml4Table pml4, a.users⟩ else none

/-- The positions of the tables that are not shared: all tables of the kernel's PML4, and those
of the lower half of the user PML4 tables. -/
def positions (kernelPml4 : ℕ) (users : List ℕ) (r : ℕ) (p : List (Fin 512)) : Prop :=
  p.length ≤ 3 ∧ (r = kernelPml4 ∨
    (r ∈ users ∧ ∀ i ∈ p.head?, i.val < kernelSharedMappingIdx))

variable {k : ℕ} {us : List ℕ}

theorem positions_closed (k : ℕ) (us : List ℕ) : PathTree.Closed (positions k us) := by
  rintro r p q ⟨hlen, h⟩
  rw [List.length_append] at hlen
  refine ⟨by omega, h.imp_right fun h => ⟨h.1, fun i hi => h.2 i ?_⟩⟩
  cases p with
  | nil => cases hi
  | cons j p => exact hi

theorem positions_page_kernel (k : ℕ) (us : List ℕ) (v : ℕ) :
    PathTree.Page (positions k us) k (tablePath v) (pte v) := by
  refine ⟨⟨le_refl 3, Or.inl rfl⟩, ?_⟩
  rintro ⟨hlen, -⟩
  exact absurd hlen (by simp [tablePath])

theorem pml4e_lower {v : ℕ} (hv : v < 2 ^ 47) : (pml4e v).val < kernelSharedMappingIdx := by
  simp only [pml4e, Fin.val_ofNat, Nat.shiftRight_eq_div_pow, kernelSharedMappingIdx]
  omega

theorem pml4e_upper {v : ℕ} (hv : 2 ^ 64 - 2 ^ 47 ≤ v) (hv' : v < 2 ^ 64) :
    kernelSharedMappingIdx ≤ (pml4e v).val := by
  simp only [pml4e, Fin.val_ofNat, Nat.shiftRight_eq_div_pow, kernelSharedMappingIdx]
  omega

theorem positions_page_user {r v : ℕ} (hr : r = k ∨ r ∈ us) (hv : v < 2 ^ 47) :
    PathTree.Page (positions k us) r (tablePath v) (pte v) := by
  refine ⟨⟨le_refl 3, hr.imp_right fun hr => ⟨hr, fun i hi => ?_⟩⟩, ?_⟩
  · obtain rfl : pml4e v = i := Option.some.inj hi
    exact pml4e_lower hv
  · rintro ⟨hlen, -⟩
    exact absurd hlen (by simp [tablePath])

/-- The tables are sound, the kernel's PML4 is none of the users', and the managed frames lie
behind `HHDM` without running over the end of the address space. -/
structure Wf (a : AddressSpaces) : Prop where
  sound : a.paging.Sound (positions a.paging.kernelPml4 a.users)
  exact : a.paging.pmm.Exact
  kernel : a.paging.kernelPml4 ∉ a.users
  upper : 2 ^ 64 - 2 ^ 47 ≤ a.paging.hhdm
  aligned : a.paging.hhdm % 4096 = 0
  range : ∀ f, a.paging.pmm.Managed f → f + a.paging.hhdm < 2 ^ 64
  users : ∀ u ∈ a.users, a.paging.pmm.Managed u

variable {a b : AddressSpaces} {s s' : Paging} {f : ℕ}

theorem sound_alloc {V : ℕ → List (Fin 512) → Prop} {pmm : Pmm} (hs : s.Sound V)
    (h : s.pmm.pmmAllocPageFrame = some (f, pmm)) :
    Paging.Sound V { s with pmm := pmm } ∧ ¬ s.Table V f ∧ ¬ pmm.Free f := by
  have hfree := fun g => Pmm.free_alloc (g := g) h hs.fresh
  refine ⟨⟨hs.distinct, fun t ht htfree => ?_, Pmm.fresh_alloc h hs.fresh⟩, fun ht => ?_,
    fun hf => ?_⟩
  · exact hs.notFree t ht ((hfree t).mp htfree).1
  · exact hs.notFree f ht (Pmm.free_of_alloc h)
  · exact ((hfree f).mp hf).2 rfl

theorem sound_addUser (hs : s.Sound (positions k us)) (hf : ¬ s.Table (positions k us) f)
    (hfree : ¬ s.pmm.Free f) (hmem : ∀ t, t ≠ f → s'.mem t = s.mem t)
    (hempty : ∀ i : Fin 512, i.val < kernelSharedMappingIdx → present (s'.mem f i) = false)
    (hpmm : s'.pmm = s.pmm) : s'.Sound (positions k (f :: us)) := by
  have hclosed := positions_closed k us
  have hagree : ∀ u, s.Table (positions k us) u → s'.mem u = s.mem u := by
    intro u hu
    exact hmem u fun heq => hf (heq ▸ hu)
  -- a position is an old one or the new PML4 itself, below which there is nothing yet
  have hwalk : ∀ r p t, positions k (f :: us) r p → s'.walk r p = some t →
      (positions k us r p ∧ s.walk r p = some t) ∨ (r = f ∧ p = [] ∧ t = f) := by
    intro r p t hV ht
    by_cases hold : positions k us r p
    · exact Or.inl ⟨hold, (PathTree.walk_of_agree hclosed hagree hold).symm.trans ht⟩
    obtain ⟨hlen, hr⟩ := hV
    have hr' : r ∈ f :: us ∧ ∀ i ∈ p.head?, i.val < kernelSharedMappingIdx :=
      hr.resolve_left fun h => hold ⟨hlen, Or.inl h⟩
    have hrf : r = f := (List.mem_cons.mp hr'.1).resolve_right fun h =>
      hold ⟨hlen, Or.inr ⟨h, hr'.2⟩⟩
    subst hrf
    cases p with
    | nil => exact Or.inr ⟨rfl, rfl, (Option.some.inj ht).symm⟩
    | cons i p =>
      have habsent : ¬ pageCodec.present (s'.mem r i) = true := by
        rw [show pageCodec.present (s'.mem r i) = false from hempty i (hr'.2 i rfl)]
        exact Bool.false_ne_true
      rw [Paging.walk, PathTree.walk_cons, if_neg habsent] at ht
      cases ht
  refine ⟨?_, ?_, hpmm ▸ hs.fresh⟩
  · intro r₁ r₂ p₁ p₂ t h₁ h₂ hw₁ hw₂
    rcases hwalk r₁ p₁ t h₁ hw₁ with ⟨h₁, hw₁⟩ | ⟨hr₁, hp₁, ht₁⟩ <;>
      rcases hwalk r₂ p₂ t h₂ hw₂ with ⟨h₂, hw₂⟩ | ⟨hr₂, hp₂, ht₂⟩
    · exact hs.distinct h₁ h₂ hw₁ hw₂
    · exact (hf ⟨r₁, p₁, h₁, ht₂ ▸ hw₁⟩).elim
    · exact (hf ⟨r₂, p₂, h₂, ht₁ ▸ hw₂⟩).elim
    · exact ⟨hr₁.trans hr₂.symm, hp₁.trans hp₂.symm⟩
  · rintro t ⟨r, p, hV, ht⟩ htfree
    rw [hpmm] at htfree
    rcases hwalk r p t hV ht with ⟨hV, ht⟩ | ⟨-, -, rfl⟩
    · exact hs.notFree t ⟨r, p, hV, ht⟩ htfree
    · exact hfree htfree

theorem wf_of_same {us : List ℕ} (hw : Wf a) (hsame : a.paging.SameMachine s')
    (hsound : s'.Sound (positions a.paging.kernelPml4 us)) (hexact : s'.pmm.Exact)
    (hkernel : a.paging.kernelPml4 ∉ us) (husers : ∀ u ∈ us, a.paging.pmm.Managed u) :
    Wf ⟨s', us⟩ where
  sound := by
    rw [show s'.kernelPml4 = a.paging.kernelPml4 from hsame.kernelPml4]
    exact hsound
  exact := hexact
  kernel := hsame.kernelPml4 ▸ hkernel
  upper := hsame.hhdm ▸ hw.upper
  aligned := hsame.hhdm ▸ hw.aligned
  range f hf := hsame.hhdm ▸ hw.range f ((hsame.managed f).mp hf)
  users u hu := (hsame.managed u).mpr (husers u hu)

structure Created (a : AddressSpaces) (f : ℕ) (s' : Paging) : Prop where
  wf : Wf ⟨s', f :: a.users⟩
  same : a.paging.SameMachine s'
  managed : a.paging.pmm.Managed f
  leaf_self : s'.leaf a.paging.kernelPml4 (tablePath (f + a.paging.hhdm))
    (pte (f + a.paging.hhdm)) = some (pageEntry f pageFlagWrite)
  leaf_of_ne : ∀ v, ¬ (tablePath v = tablePath (f + a.paging.hhdm) ∧
    pte v = pte (f + a.paging.hhdm)) → s'.leaf a.paging.kernelPml4 (tablePath v) (pte v) =
      a.paging.leaf a.paging.kernelPml4 (tablePath v) (pte v)
  copied : ∀ i, s'.mem f i =
    if i.val < kernelSharedMappingIdx then 0 else s'.mem a.paging.kernelPml4 i
  others : ∀ u ∈ a.users, u ≠ f ∧ s'.mem u = a.paging.mem u
  root : present (a.paging.mem a.paging.kernelPml4 (pml4e (f + a.paging.hhdm))) →
    s'.mem a.paging.kernelPml4 = a.paging.mem a.paging.kernelPml4

theorem created_of_createUserPml4Table (hw : Wf a)
    (h : a.paging.createUserPml4Table = some (f, s')) : Created a f s' := by
  obtain ⟨⟨f', pmm⟩, halloc, h⟩ := Option.bind_eq_some_iff.mp h
  obtain ⟨s₂, hmap, h⟩ := Option.map_eq_some_iff.mp h
  obtain ⟨rfl, rfl⟩ := Prod.mk.inj h
  obtain ⟨hs₁, htable, hfree⟩ := sound_alloc hw.sound halloc
  have hmanaged : a.paging.pmm.Managed f' := (Pmm.free_of_alloc halloc).managed
  have hclosed := positions_closed a.paging.kernelPml4 a.users
  have hpage := positions_page_kernel a.paging.kernelPml4 a.users
  -- the frame's page lies in the kernel's half, whatever PML4 is current
  have hmap : { a.paging with pmm := pmm }.memMapPageInPml4 a.paging.kernelPml4
      (f' + a.paging.hhdm) f' pageFlagWrite = some s₂ := by
    rw [Nat.mod_eq_of_lt (hw.range f' hmanaged), Paging.memMapPage, Paging.pml4For,
      if_pos (Nat.le_add_left _ _)] at hmap
    exact hmap
  obtain ⟨hs₂, hexact, hsame, hgrown⟩ := Paging.Sound.memMapPageInPml4 hclosed hs₁ (hpage _) hmap
  obtain ⟨htable₂, -⟩ := Paging.mem_memMapPageInPml4_of_not_table hclosed hs₁ (hpage _) hmap
    htable hfree
  have hkernelf : s₂.kernelPml4 ≠ f' := by
    rw [hsame.kernelPml4]
    rintro rfl
    exact htable ⟨_, [], hclosed (hpage 0).1, rfl⟩
  have hkeep : ∀ t, t ≠ f' → (s₂.copyKernelMapping f').mem t = s₂.mem t := fun t ht =>
    Paging.mem_copyKernelMapping_of_ne ht
  have hagree : ∀ u, s₂.Table (positions a.paging.kernelPml4 a.users) u →
      (s₂.copyKernelMapping f').mem u = s₂.mem u := by
    intro u hu
    exact hkeep u fun heq => htable₂ (heq ▸ hu)
  have hleaf := fun v => PathTree.leaf_of_agree (c := pageCodec) (i := pte v) hclosed hagree
    (hpage v).1
  have hsound : (s₂.copyKernelMapping f').Sound (positions a.paging.kernelPml4
      (f' :: a.users)) := by
    refine sound_addUser hs₂ htable₂ (fun hf => hfree (hgrown f' hf)) hkeep (fun i hi => ?_) rfl
    rw [Paging.mem_copyKernelMapping_self hkernelf, if_pos hi]
    rfl
  have hsame' : a.paging.SameMachine (s₂.copyKernelMapping f') :=
    ⟨hsame.kernelPml4, hsame.currentPml4, hsame.hhdm, fun g =>
      (hsame.managed g).trans (Pmm.managed_alloc halloc)⟩
  have husers : ∀ u ∈ a.users, positions a.paging.kernelPml4 a.users u [] := fun u hu =>
    ⟨Nat.zero_le 3, Or.inr ⟨hu, fun i hi => nomatch hi⟩⟩
  refine ⟨wf_of_same hw hsame' hsound (hexact (Pmm.exact_alloc halloc hw.exact)) ?_ ?_, hsame',
    hmanaged, ?_, fun v hne => ?_, fun i => ?_, fun u hu => ?_, fun hpresent => ?_⟩
  · rintro (_ | ⟨_, hu⟩)
    · exact hkernelf hsame.kernelPml4
    · exact hw.kernel hu
  · rintro u (_ | ⟨_, hu⟩)
    · exact hmanaged
    · exact hw.users u hu
  · rw [Paging.leaf, hleaf]
    exact Paging.leaf_memMapPageInPml4_self hclosed hs₁ (hpage _) hmap
  · have hsame := Paging.leaf_memMapPageInPml4_of_ne hclosed hs₁ (hpage _) hmap (hpage v)
      fun h => hne h.2
    rw [Paging.leaf, hleaf]
    exact hsame
  · rw [Paging.mem_copyKernelMapping_self hkernelf, hkeep _ (hsame.kernelPml4 ▸ hkernelf),
      hsame.kernelPml4]
  · have huf : u ≠ f' := by
      rintro rfl
      exact htable ⟨u, [], husers u hu, rfl⟩
    have huk : u ≠ a.paging.kernelPml4 := fun heq => hw.kernel (heq ▸ hu)
    have hother := Paging.mem_memMapPageInPml4_other hclosed hs₁ (hpage _) hmap (husers u hu)
      rfl huk
    exact ⟨huf, (hkeep u huf).trans hother⟩
  · have hroot := Paging.mem_memMapPageInPml4_root hclosed hs₁ (hpage _) hmap hpresent
    rw [hkeep _ (hsame.kernelPml4 ▸ hkernelf)]
    exact hroot

section Tables

variable {r v physAddr flags : ℕ} (hw : Wf a)
include hw

theorem wf_map (hpage : PathTree.Page (positions a.paging.kernelPml4 a.users) r (tablePath v)
    (pte v)) (h : a.paging.memMapPageInPml4 r v physAddr flags = some s') :
    Wf ⟨s', a.users⟩ ∧ a.paging.SameMachine s' := by
  obtain ⟨hsound, hexact, hsame, -⟩ := Paging.Sound.memMapPageInPml4
    (positions_closed a.paging.kernelPml4 a.users) hw.sound hpage h
  exact ⟨wf_of_same hw hsame hsound (hexact hw.exact) hw.kernel hw.users, hsame⟩

theorem wf_unmap (hpage : PathTree.Page (positions a.paging.kernelPml4 a.users)
    (a.paging.pml4For v) (tablePath v) (pte v)) :
    Wf ⟨a.paging.memUnmapPage v, a.users⟩ ∧ a.paging.SameMachine (a.paging.memUnmapPage v) := by
  obtain ⟨hsound, hexact⟩ := Paging.Sound.memUnmapPage
    (positions_closed a.paging.kernelPml4 a.users) hw.sound.distinct hpage hw.sound hw.exact
  have hsame := Paging.SameMachine.memUnmapPage a.paging v
  exact ⟨wf_of_same hw hsame hsound hexact hw.kernel hw.users, hsame⟩

end Tables

/-! The direct map: every managed frame is mapped behind `HHDM`. -/

def Mapped (s : Paging) (f : ℕ) : Prop :=
  ∃ e, s.leaf s.kernelPml4 (tablePath (f + s.hhdm)) (pte (f + s.hhdm)) = some e ∧
    pteGetAddr e = f

def DirectMapped (s : Paging) : Prop := ∀ f, s.pmm.Managed f → Mapped s f

theorem Wf.frame_eq (hw : Wf a) {f g : ℕ} (hf : a.paging.pmm.Managed f)
    (hg : a.paging.pmm.Managed g)
    (hpath : tablePath (g + a.paging.hhdm) = tablePath (f + a.paging.hhdm))
    (hpte : pte (g + a.paging.hhdm) = pte (f + a.paging.hhdm)) : g = f := by
  have hcanonical : ∀ f, a.paging.pmm.Managed f → Canonical (f + a.paging.hhdm) := fun f hf =>
    Or.inr ⟨hw.upper.trans (Nat.le_add_left _ _), hw.range f hf⟩
  have hpage := page_eq_of_indices (hcanonical g hg) (hcanonical f hf) hpath hpte
  have haligned := hw.aligned
  have hgf := hw.exact.frame_aligned hg
  have hff := hw.exact.frame_aligned hf
  unfold memoryPageSize at hgf hff
  omega

def UserCall : SpaceCall → Prop
  | .createUserPml4Table => True
  | .freeUserPml4Table _ => True
  | .memMapPageInPml4 _ virtAddr _ _ => virtAddr < 2 ^ 47
  | .memMapPage _ _ _ => False
  | .memUnmapPage virtAddr => virtAddr < 2 ^ 47
  | .memSetCurrentPml4Table _ => True

def FreesNoPml4 : SpaceCall → Prop
  | .freeUserPml4Table _ => False
  | _ => True

structure DirectInv (a : AddressSpaces) : Prop where
  wf : Wf a
  current : a.paging.currentPml4 ∈ a.pml4s
  direct : DirectMapped a.paging

theorem directInv_create (hi : DirectInv a) (hc : Created a f s') :
    DirectInv ⟨s', f :: a.users⟩ := by
  refine ⟨hc.wf, ?_, fun g hg => ?_⟩
  · have hcurrent := hi.current
    unfold pml4s at hcurrent ⊢
    rw [hc.same.kernelPml4, hc.same.currentPml4]
    rcases List.mem_cons.mp hcurrent with h | h
    · exact List.mem_cons.mpr (Or.inl h)
    · exact List.mem_cons_of_mem _ (List.mem_cons_of_mem _ h)
  · have hg' := (hc.same.managed g).mp hg
    obtain ⟨e, he, haddr⟩ := hi.direct g hg'
    unfold Mapped
    rw [hc.same.kernelPml4, hc.same.hhdm]
    by_cases hgf : g = f
    · subst hgf
      refine ⟨_, hc.leaf_self, pteGetAddr_pageEntry (hi.wf.exact.frame_aligned hc.managed)
        (hi.wf.exact.frame_lt hc.managed) (by decide)⟩
    · refine ⟨e, (hc.leaf_of_ne _ fun h => hgf ?_).trans he, haddr⟩
      exact hi.wf.frame_eq hc.managed hg' h.1 h.2

/-- An operation that keeps the kernel's upper half keeps the direct map. -/
theorem directInv_of_leaf (hi : DirectInv a) (hw : Wf ⟨s', a.users⟩)
    (hsame : a.paging.SameMachine s')
    (hleaf : ∀ v, 2 ^ 64 - 2 ^ 47 ≤ v → v < 2 ^ 64 →
      s'.leaf a.paging.kernelPml4 (tablePath v) (pte v) =
        a.paging.leaf a.paging.kernelPml4 (tablePath v) (pte v)) :
    DirectInv ⟨s', a.users⟩ := by
  refine ⟨hw, ?_, fun g hg => ?_⟩
  · have hcurrent := hi.current
    unfold pml4s at hcurrent ⊢
    rw [hsame.kernelPml4, hsame.currentPml4]
    exact hcurrent
  · have hg' := (hsame.managed g).mp hg
    obtain ⟨e, he, haddr⟩ := hi.direct g hg'
    unfold Mapped
    rw [hsame.kernelPml4, hsame.hhdm, hleaf _ (hi.wf.upper.trans (Nat.le_add_left _ _))
      (hi.wf.range g hg')]
    exact ⟨e, he, haddr⟩

theorem path_ne {v w : ℕ} (hv : v < 2 ^ 47) (hw : 2 ^ 64 - 2 ^ 47 ≤ w) (hw' : w < 2 ^ 64) :
    tablePath w ≠ tablePath v := by
  intro h
  have hidx : pml4e w = pml4e v := (List.cons.inj h).1
  have hlower := pml4e_lower hv
  have hupper := pml4e_upper hw hw'
  rw [hidx] at hupper
  omega

theorem directInv_step {c : SpaceCall} (hc : UserCall c ∧ FreesNoPml4 c)
    (h : a.step c = some b) (hi : DirectInv a) : DirectInv b := by
  have hclosed := positions_closed a.paging.kernelPml4 a.users
  have hkernel := positions_page_kernel a.paging.kernelPml4 a.users
  cases c with
  | createUserPml4Table =>
    obtain ⟨⟨f, s'⟩, hcreate, rfl⟩ := Option.map_eq_some_iff.mp h
    exact directInv_create hi (created_of_createUserPml4Table hi.wf hcreate)
  | freeUserPml4Table => exact hc.2.elim
  | memMapPageInPml4 pml4 v physAddr flags =>
    simp only [step] at h
    split_ifs at h with hpml4
    obtain ⟨s', hmap, rfl⟩ := Option.map_eq_some_iff.mp h
    have hv : v < 2 ^ 47 := hc.1
    have hpage := positions_page_user (List.mem_cons.mp hpml4) hv
    obtain ⟨hw, hsame⟩ := wf_map hi.wf hpage hmap
    refine directInv_of_leaf hi hw hsame fun w hw hw' => ?_
    exact Paging.leaf_memMapPageInPml4_of_ne hclosed hi.wf.sound hpage hmap (hkernel w)
      fun h => path_ne hv hw hw' h.2.1
  | memMapPage => exact hc.1.elim
  | memUnmapPage v =>
    obtain rfl := Option.some.inj h
    have hv : v < 2 ^ 47 := hc.1
    have hupper := hi.wf.upper
    have hroot : a.paging.pml4For v = a.paging.currentPml4 := if_neg (by omega)
    have hpage : PathTree.Page (positions a.paging.kernelPml4 a.users) (a.paging.pml4For v)
        (tablePath v) (pte v) :=
      hroot ▸ positions_page_user (List.mem_cons.mp hi.current) hv
    obtain ⟨hw, hsame⟩ := wf_unmap hi.wf hpage
    refine directInv_of_leaf hi hw hsame fun w hw hw' => ?_
    exact Paging.leaf_memUnmapPage_of_ne hclosed hi.wf.sound.distinct hpage (hkernel w)
      fun h => path_ne hv hw hw' h.2.1
  | memSetCurrentPml4Table pml4 =>
    simp only [step] at h
    split_ifs at h with hpml4
    obtain rfl := Option.some.inj h
    exact ⟨⟨⟨hi.wf.sound.distinct, hi.wf.sound.notFree, hi.wf.sound.fresh⟩, hi.wf.exact,
      hi.wf.kernel, hi.wf.upper, hi.wf.aligned, hi.wf.range, hi.wf.users⟩, hpml4, hi.direct⟩

/-- As long as no PML4 is freed, every managed frame stays mapped behind `HHDM`, and with it
every frame that the page-table code may use for a new table. -/
theorem direct_map_preserved (a b : AddressSpaces) (calls : List SpaceCall) (ha : DirectInv a)
    (hcalls : Along step (fun _ c => UserCall c ∧ FreesNoPml4 c) a calls)
    (hrun : run step a calls = some b) :
    DirectMapped b.paging ∧ ∀ f pmm, b.paging.pmm.pmmAllocPageFrame = some (f, pmm) →
      Mapped b.paging f := by
  have hb : DirectInv b := run_invariant (fun _ _ _ hc h hi => directInv_step hc h hi) hcalls
    hrun ha
  exact ⟨hb.direct, fun f pmm halloc => hb.direct f (Pmm.free_of_alloc halloc).managed⟩

instance decidableUserCall : ∀ c : SpaceCall, Decidable (UserCall c)
  | .createUserPml4Table => inferInstanceAs (Decidable True)
  | .freeUserPml4Table _ => inferInstanceAs (Decidable True)
  | .memMapPageInPml4 _ _ _ _ => inferInstanceAs (Decidable (_ < _))
  | .memMapPage _ _ _ => inferInstanceAs (Decidable False)
  | .memUnmapPage _ => inferInstanceAs (Decidable (_ < _))
  | .memSetCurrentPml4Table _ => inferInstanceAs (Decidable True)

instance decidableFreesNoPml4 : ∀ c : SpaceCall, Decidable (FreesNoPml4 c)
  | .freeUserPml4Table _ => inferInstanceAs (Decidable False)
  | .createUserPml4Table => inferInstanceAs (Decidable True)
  | .memMapPageInPml4 _ _ _ _ => inferInstanceAs (Decidable True)
  | .memMapPage _ _ _ => inferInstanceAs (Decidable True)
  | .memUnmapPage _ => inferInstanceAs (Decidable True)
  | .memSetCurrentPml4Table _ => inferInstanceAs (Decidable True)

theorem emptyPml4_wf : Wf ⟨Paging.emptyPml4, []⟩ where
  sound := by
    have hV : positions 0x1000 [] = Paging.belowPml4 0x1000 := by
      funext r p
      simp [positions, Paging.belowPml4, and_comm]
    exact hV ▸ Paging.emptyPml4_sound
  exact := Paging.emptyPml4_exact
  kernel := List.not_mem_nil
  upper := by decide
  aligned := by decide
  range f hf := by
    obtain ⟨k, hk, rfl⟩ := hf
    have hk8 : k < 8 := hk
    have hstart : Paging.emptyPml4.pmm.memPhysAllocStart = 0x8000 := rfl
    have hhdm : Paging.emptyPml4.hhdm = 0xffff800000000000 := rfl
    rw [Paging.emptyPml4_exact.frame_eq hk, hstart, hhdm, memoryPageSize]
    omega
  users := by simp

def bootCalls : List SpaceCall := (List.range 8).map fun k =>
  .memMapPage (0xffff800000008000 + k * 0x1000) (0x8000 + k * 0x1000) pageFlagWrite

def booted : AddressSpaces :=
  (run step ⟨Paging.emptyPml4, []⟩ bootCalls).getD ⟨Paging.emptyPml4, []⟩

theorem run_bootCalls : run step ⟨Paging.emptyPml4, []⟩ bootCalls = some booted := by
  have hsome : (run step ⟨Paging.emptyPml4, []⟩ bootCalls).isSome = true := by decide +kernel
  obtain ⟨b, hb⟩ := Option.isSome_iff_exists.mp hsome
  rw [booted, hb, Option.getD_some]

theorem booted_mapped : ∀ k < 8,
    (booted.paging.leaf booted.paging.kernelPml4
      (tablePath (booted.paging.pmm.frame k + booted.paging.hhdm))
      (pte (booted.paging.pmm.frame k + booted.paging.hhdm))).map pteGetAddr =
        some (booted.paging.pmm.frame k) := by
  decide +kernel

def MapsKernelPage (a : AddressSpaces) : SpaceCall → Prop
  | .memMapPage virtAddr _ _ => a.paging.hhdm ≤ virtAddr
  | _ => False

instance decidableMapsKernelPage (a : AddressSpaces) :
    ∀ c : SpaceCall, Decidable (MapsKernelPage a c)
  | .memMapPage _ _ _ => inferInstanceAs (Decidable (_ ≤ _))
  | .freeUserPml4Table _ => inferInstanceAs (Decidable False)
  | .createUserPml4Table => inferInstanceAs (Decidable False)
  | .memMapPageInPml4 _ _ _ _ => inferInstanceAs (Decidable False)
  | .memUnmapPage _ => inferInstanceAs (Decidable False)
  | .memSetCurrentPml4Table _ => inferInstanceAs (Decidable False)

theorem booted_wf : Wf booted := by
  refine run_invariant (P := MapsKernelPage) (fun a c b hc h hw => ?_) (by decide +kernel)
    run_bootCalls emptyPml4_wf
  cases c with
  | memMapPage v physAddr flags =>
    obtain ⟨s', hmap, rfl⟩ := Option.map_eq_some_iff.mp h
    have hv : a.paging.hhdm ≤ v := hc
    rw [Paging.memMapPage, Paging.pml4For, if_pos hv] at hmap
    exact (wf_map hw (positions_page_kernel _ _ v) hmap).1
  | _ => exact hc.elim

theorem booted_directInv : DirectInv booted where
  wf := booted_wf
  current := by decide +kernel
  direct f hf := by
    obtain ⟨k, hk, rfl⟩ := hf
    have hn : booted.paging.pmm.nFrames = 8 := by decide +kernel
    exact Option.map_eq_some_iff.mp (booted_mapped k (hn ▸ hk))

theorem direct_map_preserved_user_page : DirectInv booted ∧
    ∃ b, run step booted [.createUserPml4Table, .memMapPageInPml4 0xb000 0x400000 0xf000 7,
      .memSetCurrentPml4Table 0xb000, .memUnmapPage 0x400000] = some b ∧
      DirectMapped b.paging := by
  have hsome : (run step booted [.createUserPml4Table,
      .memMapPageInPml4 0xb000 0x400000 0xf000 7, .memSetCurrentPml4Table 0xb000,
      .memUnmapPage 0x400000]).isSome = true := by decide +kernel
  obtain ⟨b, hb⟩ := Option.isSome_iff_exists.mp hsome
  exact ⟨booted_directInv, b, hb, (direct_map_preserved booted b _ booted_directInv
    (by decide +kernel) hb).1⟩

/-- A PML4 is created and freed again: its frame is free, and the next user of it finds it
unmapped. -/
theorem freed_pml4_unmapped : DirectInv booted ∧
    ∃ b, run step booted [.createUserPml4Table, .freeUserPml4Table 0xb000] = some b ∧
      ¬ DirectMapped b.paging ∧ ∃ pmm, b.paging.pmm.pmmAllocPageFrame = some (0xb000, pmm) ∧
        ¬ Mapped b.paging 0xb000 := by
  have hvalues : (run step booted [.createUserPml4Table, .freeUserPml4Table 0xb000]).map
      (fun b => (b.paging.pmm.pmmAllocPageFrame.map Prod.fst,
        b.paging.leaf b.paging.kernelPml4 (tablePath (0xb000 + b.paging.hhdm))
          (pte (0xb000 + b.paging.hhdm)))) = some (some 0xb000, none) := by decide +kernel
  obtain ⟨b, hb, heq⟩ := Option.map_eq_some_iff.mp hvalues
  obtain ⟨halloc, hleaf⟩ := Prod.mk.inj heq
  obtain ⟨⟨f, pmm⟩, hpmm, rfl⟩ := Option.map_eq_some_iff.mp halloc
  have hnot : ¬ Mapped b.paging 0xb000 := by
    rintro ⟨e, he, -⟩
    exact Option.some_ne_none e (he.symm.trans hleaf)
  exact ⟨booted_directInv, b, hb, fun hdirect =>
    hnot (hdirect _ (Pmm.free_of_alloc hpmm).managed), pmm, hpmm, hnot⟩

/-! The kernel's half, which every user PML4 copies when it is created. -/

def KernelCall (a : AddressSpaces) : SpaceCall → Prop
  | .createUserPml4Table => True
  | .freeUserPml4Table _ => True
  | .memMapPage virtAddr _ _ => a.paging.hhdm ≤ virtAddr ∧ virtAddr < 2 ^ 64
  | .memUnmapPage virtAddr => a.paging.hhdm ≤ virtAddr ∧ virtAddr < 2 ^ 64
  | .memMapPageInPml4 _ _ _ _ => False
  | .memSetCurrentPml4Table _ => False

def MapKeepsPml4 (s : Paging) (v : ℕ) : Prop := present (s.mem s.kernelPml4 (pml4e v))

/-- Unmapping the page leaves the kernel's PML4 alone: the page is not mapped, or it is not the
only page below its PML4 entry. -/
def UnmapKeepsPml4 (s : Paging) (v : ℕ) : Prop :=
  s.leaf s.kernelPml4 (tablePath v) (pte v) = none ∨
    ∃ w, pml4e w = pml4e v ∧ ¬ (tablePath w = tablePath v ∧ pte w = pte v) ∧
      s.leaf s.kernelPml4 (tablePath w) (pte w) ≠ none

def KeepsPml4 (a : AddressSpaces) : SpaceCall → Prop
  | .createUserPml4Table => a.users = [] ∨ ∀ f pmm,
    a.paging.pmm.pmmAllocPageFrame = some (f, pmm) → MapKeepsPml4 a.paging (f + a.paging.hhdm)
  | .freeUserPml4Table userPml4 => a.users.filter (· ≠ userPml4) = [] ∨
    UnmapKeepsPml4 a.paging (userPml4 + a.paging.hhdm)
  | .memMapPage virtAddr _ _ => a.users = [] ∨ MapKeepsPml4 a.paging virtAddr
  | .memUnmapPage virtAddr => a.users = [] ∨ UnmapKeepsPml4 a.paging virtAddr
  | .memMapPageInPml4 _ _ _ _ => True
  | .memSetCurrentPml4Table _ => True

structure SharedInv (a : AddressSpaces) : Prop where
  wf : Wf a
  lower : ∀ u ∈ a.users, ∀ i : Fin 512, i.val < kernelSharedMappingIdx →
    present (a.paging.mem u i) = false
  upper : ∀ u ∈ a.users, ∀ i : Fin 512, kernelSharedMappingIdx ≤ i.val →
    a.paging.mem u i = a.paging.mem a.paging.kernelPml4 i

theorem position_user {u : ℕ} (hu : u ∈ us) : positions k us u [] :=
  ⟨Nat.zero_le 3, Or.inr ⟨hu, fun _ hi => nomatch hi⟩⟩

/-- Where neither the users' PML4 tables nor, as long as there are any, the kernel's change,
they stay the same. -/
theorem sharedInv_of_mem (hi : SharedInv a) (hw : Wf ⟨s', us⟩) (husers : ∀ u ∈ us, u ∈ a.users)
    (hkernel : s'.kernelPml4 = a.paging.kernelPml4)
    (hmem : ∀ u ∈ us, s'.mem u = a.paging.mem u)
    (hroot : us = [] ∨ s'.mem a.paging.kernelPml4 = a.paging.mem a.paging.kernelPml4) :
    SharedInv ⟨s', us⟩ := by
  refine ⟨hw, fun u hu i hlow => ?_, fun u hu i hup => ?_⟩
  · dsimp only at hu ⊢
    rw [hmem u hu]
    exact hi.lower u (husers u hu) i hlow
  · dsimp only at hu ⊢
    have hroot' := hroot.resolve_left (List.ne_nil_of_mem hu)
    rw [hmem u hu, hkernel, hroot']
    exact hi.upper u (husers u hu) i hup

/-- Unmapping a page from `HHDM` on. -/
theorem unmap_kernel {v : ℕ} (hw : Wf a) (hv : a.paging.hhdm ≤ v) :
    Wf ⟨a.paging.memUnmapPage v, a.users⟩ ∧ a.paging.SameMachine (a.paging.memUnmapPage v) ∧
      (∀ u ∈ a.users, (a.paging.memUnmapPage v).mem u = a.paging.mem u) ∧
      (UnmapKeepsPml4 a.paging v → (a.paging.memUnmapPage v).mem a.paging.kernelPml4 =
        a.paging.mem a.paging.kernelPml4) := by
  have hclosed := positions_closed a.paging.kernelPml4 a.users
  have hkernel := positions_page_kernel a.paging.kernelPml4 a.users
  have hroot : a.paging.pml4For v = a.paging.kernelPml4 := if_pos hv
  have hpage : PathTree.Page (positions a.paging.kernelPml4 a.users) (a.paging.pml4For v)
      (tablePath v) (pte v) := hroot ▸ hkernel v
  obtain ⟨hw', hsame⟩ := wf_unmap hw hpage
  refine ⟨hw', hsame, fun u hu => ?_, ?_⟩
  · have huk : u ≠ a.paging.pml4For v := by
      rintro rfl
      exact hw.kernel (hroot ▸ hu)
    exact Paging.mem_memUnmapPage_other hclosed hw.sound.distinct hpage (position_user hu) rfl huk
  · rintro (hnone | ⟨w, hidx, hne, hsome⟩)
    · rcases Paging.memUnmapPage_cases a.paging v with
        ⟨-, heq⟩ | ⟨pdpt, pd, pt, -, -, hpt, hpresent, -⟩
      · rw [heq]
      · rw [hroot] at hpt
        have hleaf := (PathTree.leaf_of_walk hpt).trans (if_pos hpresent)
        exact (Option.some_ne_none _ (hleaf.symm.trans hnone)).elim
    · -- the other page is still mapped, so its PML4 entry has not been cleared
      have hstill : (a.paging.memUnmapPage v).leaf a.paging.kernelPml4 (tablePath w) (pte w) ≠
          none := by
        rw [Paging.leaf_memUnmapPage_of_ne hclosed hw.sound.distinct hpage (hkernel w)
          fun h => hne h.2]
        exact hsome
      obtain ⟨e, he⟩ := Option.ne_none_iff_exists'.mp hstill
      obtain ⟨t, ht, -, -⟩ := PathTree.leaf_eq_some he
      have hpresent : present ((a.paging.memUnmapPage v).mem a.paging.kernelPml4 (pml4e v)) := by
        rw [tablePath, PathTree.walk_cons] at ht
        split_ifs at ht with hpresent
        rw [← hidx]
        exact hpresent
      funext i
      have hcase := Paging.mem_memUnmapPage_root hclosed hw.sound.distinct hpage i
      rw [hroot] at hcase
      refine hcase.resolve_right ?_
      rintro ⟨rfl, hzero⟩
      rw [hzero] at hpresent
      exact Bool.false_ne_true hpresent

theorem sound_removeUser {u : ℕ} (hw : Wf a) (hu : u ∈ a.users) :
    (a.paging.freeFrame u).Sound (positions a.paging.kernelPml4 (a.users.filter (· ≠ u))) := by
  have hsub : ∀ r p, positions a.paging.kernelPml4 (a.users.filter (· ≠ u)) r p →
      positions a.paging.kernelPml4 a.users r p := fun r p h =>
    ⟨h.1, h.2.imp_right fun h => ⟨(List.mem_filter.mp h.1).1, h.2⟩⟩
  have hmanaged := hw.users u hu
  refine ⟨fun r₁ r₂ p₁ p₂ t h₁ h₂ hw₁ hw₂ =>
    hw.sound.distinct (hsub _ _ h₁) (hsub _ _ h₂) hw₁ hw₂, ?_, (hw.exact.freePageFrame u).fresh⟩
  rintro t ⟨r, p, hV, ht⟩ hfree
  rcases (Pmm.free_freePageFrame hw.exact (hw.exact.frame_aligned hmanaged)
    (hw.exact.frame_lt hmanaged)).mp hfree with hfree | ⟨rfl, -⟩
  · exact hw.sound.notFree t ⟨r, p, hsub r p hV, ht⟩ hfree
  · obtain ⟨rfl, -⟩ := hw.sound.distinct (hsub r p hV) (position_user hu) ht rfl
    rcases hV.2 with hk | ⟨hmem, -⟩
    · exact hw.kernel (hk ▸ hu)
    · simp at hmem

theorem sharedInv_create (hi : SharedInv a) (hc : KeepsPml4 a .createUserPml4Table)
    (h : a.paging.createUserPml4Table = some (f, s')) : SharedInv ⟨s', f :: a.users⟩ := by
  have hcreated := created_of_createUserPml4Table hi.wf h
  obtain ⟨⟨f', pmm⟩, halloc, h⟩ := Option.bind_eq_some_iff.mp h
  obtain ⟨s₂, -, h⟩ := Option.map_eq_some_iff.mp h
  obtain rfl : f' = f := (Prod.mk.inj h).1
  refine ⟨hcreated.wf, fun u hu i hlow => ?_, fun u hu i hup => ?_⟩
  · rcases List.mem_cons.mp hu with rfl | hu
    · dsimp only
      rw [hcreated.copied i, if_pos hlow]
      rfl
    · dsimp only
      rw [(hcreated.others u hu).2]
      exact hi.lower u hu i hlow
  · dsimp only
    rw [hcreated.same.kernelPml4]
    rcases List.mem_cons.mp hu with rfl | hu
    · rw [hcreated.copied i, if_neg (Nat.not_lt.mpr hup)]
    · have hkeeps := hc.resolve_left (List.ne_nil_of_mem hu) f' pmm halloc
      rw [(hcreated.others u hu).2, hcreated.root hkeeps]
      exact hi.upper u hu i hup

theorem sharedInv_free {u : ℕ} (hi : SharedInv a) (hu : u ∈ a.users)
    (hc : KeepsPml4 a (.freeUserPml4Table u)) :
    SharedInv ⟨a.paging.freeUserPml4Table u, a.users.filter (· ≠ u)⟩ := by
  -- the lower half is empty, so the loops have nothing to free
  have hloop : Paging.freeEntries Paging.freePdpt a.paging u
      ((List.finRange 512).take kernelSharedMappingIdx) = a.paging := by
    refine Paging.freeEntries_of_absent fun i hmem => hi.lower u hu i ?_
    obtain ⟨j, hj, rfl⟩ := List.mem_take_iff_getElem.mp hmem
    rw [List.getElem_finRange]
    exact (lt_min_iff.mp hj).1
  have hmod := Nat.mod_eq_of_lt (hi.wf.range u (hi.wf.users u hu))
  have hfree : a.paging.freeUserPml4Table u =
      (a.paging.memUnmapPage (u + a.paging.hhdm)).freeFrame u := by
    simp only [Paging.freeUserPml4Table, hloop, hmod]
  obtain ⟨hw, hsame, hothers, hroot⟩ := unmap_kernel (v := u + a.paging.hhdm) hi.wf
    (Nat.le_add_left _ _)
  have hsame' : a.paging.SameMachine ((a.paging.memUnmapPage (u + a.paging.hhdm)).freeFrame u) :=
    ⟨hsame.kernelPml4, hsame.currentPml4, hsame.hhdm, hsame.managed⟩
  have hsound := sound_removeUser hw hu
  dsimp only at hsound
  rw [hsame.kernelPml4] at hsound
  have hsub : ∀ v ∈ a.users.filter (· ≠ u), v ∈ a.users := fun v hv => (List.mem_filter.mp hv).1
  rw [hfree]
  refine sharedInv_of_mem hi ?_ hsub hsame.kernelPml4 (fun v hv => hothers v (hsub v hv))
    (hc.imp_right hroot)
  exact wf_of_same hi.wf hsame' hsound (hw.exact.freePageFrame u)
    (fun h => hi.wf.kernel (hsub _ h)) fun v hv => hi.wf.users v (hsub v hv)

theorem sharedInv_step {c : SpaceCall} (hc : KernelCall a c ∧ KeepsPml4 a c)
    (h : a.step c = some b) (hi : SharedInv a) : SharedInv b := by
  have hclosed := positions_closed a.paging.kernelPml4 a.users
  have hkernel := positions_page_kernel a.paging.kernelPml4 a.users
  cases c with
  | createUserPml4Table =>
    obtain ⟨⟨f, s'⟩, hcreate, rfl⟩ := Option.map_eq_some_iff.mp h
    exact sharedInv_create hi hc.2 hcreate
  | freeUserPml4Table u =>
    simp only [step] at h
    split_ifs at h with hu
    obtain rfl := Option.some.inj h
    exact sharedInv_free hi hu hc.2
  | memMapPageInPml4 => exact hc.1.elim
  | memMapPage v physAddr flags =>
    obtain ⟨s', hmap, rfl⟩ := Option.map_eq_some_iff.mp h
    have hv : a.paging.hhdm ≤ v := hc.1.1
    rw [Paging.memMapPage, Paging.pml4For, if_pos hv] at hmap
    obtain ⟨hw, hsame⟩ := wf_map hi.wf (hkernel v) hmap
    refine sharedInv_of_mem hi hw (fun _ hu => hu) hsame.kernelPml4 (fun u hu => ?_)
      (hc.2.imp_right ?_)
    · have huk : u ≠ a.paging.kernelPml4 := fun heq => hi.wf.kernel (heq ▸ hu)
      exact Paging.mem_memMapPageInPml4_other hclosed hi.wf.sound (hkernel v) hmap
        (position_user hu) rfl huk
    · exact Paging.mem_memMapPageInPml4_root hclosed hi.wf.sound (hkernel v) hmap
  | memUnmapPage v =>
    obtain rfl := Option.some.inj h
    obtain ⟨hw, hsame, hothers, hroot⟩ := unmap_kernel hi.wf hc.1.1
    exact sharedInv_of_mem hi hw (fun _ hu => hu) hsame.kernelPml4 hothers (hc.2.imp_right hroot)
  | memSetCurrentPml4Table => exact hc.1.elim

/-- As long as the kernel's PML4 does not change while there are user PML4 tables, all of them
translate the kernel's addresses alike, and none has an entry to a freed table. -/
theorem kernel_half_shared (a b : AddressSpaces) (calls : List SpaceCall) (ha : SharedInv a)
    (hcalls : Along step (fun a c => KernelCall a c ∧ KeepsPml4 a c) a calls)
    (hrun : run step a calls = some b) :
    ∀ u ∈ b.users,
      (∀ w, b.paging.hhdm ≤ w → w < 2 ^ 64 → (b.paging.memSetCurrentPml4Table u).virtToPhys w =
        (b.paging.memSetCurrentPml4Table b.paging.kernelPml4).virtToPhys w) ∧
      ∀ i, present (b.paging.mem u i) → ¬ b.paging.pmm.Free (pteGetAddr (b.paging.mem u i)) := by
  have hb : SharedInv b := run_invariant (fun _ _ _ hc h hi => sharedInv_step hc h hi) hcalls
    hrun ha
  intro u hu
  refine ⟨fun w hw hw' => ?_, fun i hpresent => ?_⟩
  · have hentry : b.paging.mem u (pml4e w) = b.paging.mem b.paging.kernelPml4 (pml4e w) :=
      hb.upper u hu _ (pml4e_upper (hb.wf.upper.trans hw) hw')
    have hleaf : b.paging.leaf u (tablePath w) (pte w) =
        b.paging.leaf b.paging.kernelPml4 (tablePath w) (pte w) :=
      congrArg (Option.bind · _) (PathTree.walk_cons_congr hentry _)
    rw [Paging.virtToPhys_eq, Paging.virtToPhys_eq]
    simp only [Paging.leaf, Paging.memSetCurrentPml4Table] at hleaf ⊢
    rw [hleaf]
  · have hup : kernelSharedMappingIdx ≤ i.val := by
      by_contra hlow
      rw [hb.lower u hu i (Nat.not_le.mp hlow)] at hpresent
      exact Bool.false_ne_true hpresent
    rw [hb.upper u hu i hup] at hpresent ⊢
    refine hb.wf.sound.notFree _ ⟨b.paging.kernelPml4, [i], ⟨by simp, Or.inl rfl⟩, ?_⟩
    exact PathTree.walk_concat_of_some (p := []) rfl hpresent

theorem sharedInv_of_no_users (hw : Wf a) (h : a.users = []) : SharedInv a := by
  refine ⟨hw, fun u hu => ?_, fun u hu => ?_⟩
  · rw [h] at hu
    cases hu
  · rw [h] at hu
    cases hu

theorem booted_sharedInv : SharedInv booted := sharedInv_of_no_users booted_wf (by decide +kernel)

theorem kernel_half_shared_unmapped :
    ∃ b, run step booted [.createUserPml4Table, .memUnmapPage 0xffff80000000f000] = some b ∧
      0xb000 ∈ b.users ∧ (b.paging.memSetCurrentPml4Table 0xb000).virtToPhys 0xffff800000008000 =
        (b.paging.memSetCurrentPml4Table b.paging.kernelPml4).virtToPhys 0xffff800000008000 := by
  have hvalues : (run step booted [.createUserPml4Table, .memUnmapPage 0xffff80000000f000]).map
      (fun b => (b.users, b.paging.hhdm)) = some ([0xb000], 0xffff800000000000) := by
    decide +kernel
  obtain ⟨b, hb, heq⟩ := Option.map_eq_some_iff.mp hvalues
  obtain ⟨husers, hhdm⟩ := Prod.mk.inj heq
  have hcreated : (step booted .createUserPml4Table).map (fun t => (t.paging.hhdm,
      t.paging.leaf t.paging.kernelPml4 (tablePath 0xffff800000008000) (pte 0xffff800000008000))) =
        some (0xffff800000000000, some 0x8003) := by decide +kernel
  have hu : 0xb000 ∈ b.users := by rw [husers]; exact List.mem_singleton_self _
  refine ⟨b, hb, hu, (kernel_half_shared booted b _ booted_sharedInv ?_ hb 0xb000 hu).1
    0xffff800000008000 (by rw [hhdm]; decide) (by decide)⟩
  refine ⟨⟨trivial, Or.inl (by decide +kernel)⟩, fun t ht => ⟨⟨?_, Or.inr (Or.inr ?_)⟩,
    fun _ _ => trivial⟩⟩
  all_goals
    rw [ht] at hcreated
    obtain ⟨hhdm, hleaf⟩ := Prod.mk.inj (Option.some.inj hcreated)
  · exact ⟨by rw [hhdm]; decide, by decide⟩
  · refine ⟨0xffff800000008000, by decide, by decide, ?_⟩
    rw [hleaf]
    exact Option.some_ne_none _

/-- A kernel page mapped below a new PML4 entry after a user PML4 was created is missing there,
and when the last page below a shared PML4 entry is unmapped, the user PML4 keeps an entry to a
freed table. -/
theorem kernel_half_differs : SharedInv booted ∧
    (∃ b, run step booted [.createUserPml4Table,
        .memMapPage 0xffffff8000000000 0xf000 pageFlagWrite] = some b ∧ 0xb000 ∈ b.users ∧
      (b.paging.memSetCurrentPml4Table 0xb000).virtToPhys 0xffffff8000000000 ≠
        (b.paging.memSetCurrentPml4Table b.paging.kernelPml4).virtToPhys 0xffffff8000000000) ∧
    SharedInv ⟨Paging.emptyPml4, []⟩ ∧
    ∃ b, run step ⟨Paging.emptyPml4, []⟩ [.createUserPml4Table,
        .memUnmapPage 0xffff800000008000] = some b ∧ 0x8000 ∈ b.users ∧
      present (b.paging.mem 0x8000 256) ∧
      b.paging.pmm.Free (pteGetAddr (b.paging.mem 0x8000 256)) := by
  refine ⟨booted_sharedInv, ?_, sharedInv_of_no_users emptyPml4_wf rfl, ?_⟩
  · have hvalues : (run step booted [.createUserPml4Table,
        .memMapPage 0xffffff8000000000 0xf000 pageFlagWrite]).map (fun b => (b.users,
          (b.paging.memSetCurrentPml4Table 0xb000).virtToPhys 0xffffff8000000000,
          (b.paging.memSetCurrentPml4Table b.paging.kernelPml4).virtToPhys
            0xffffff8000000000)) = some ([0xb000], invalidPhysAddr, 0xf000) := by decide +kernel
    obtain ⟨b, hb, heq⟩ := Option.map_eq_some_iff.mp hvalues
    obtain ⟨husers, heq⟩ := Prod.mk.inj heq
    obtain ⟨huser, hkernel⟩ := Prod.mk.inj heq
    refine ⟨b, hb, by rw [husers]; exact List.mem_singleton_self _, ?_⟩
    rw [huser, hkernel]
    decide
  · have hvalues : (run step ⟨Paging.emptyPml4, []⟩ [.createUserPml4Table,
        .memUnmapPage 0xffff800000008000]).map (fun b => ((b.users, b.paging.mem 0x8000 256),
          b.paging.pmm.nFrames, b.paging.pmm.memoryBitmap 1, b.paging.pmm.frame 1)) =
        some (([0x8000], 0x9003), 8, false, 0x9000) := by decide +kernel
    obtain ⟨b, hb, heq⟩ := Option.map_eq_some_iff.mp hvalues
    obtain ⟨hfst, heq⟩ := Prod.mk.inj heq
    obtain ⟨husers, hentry⟩ := Prod.mk.inj hfst
    obtain ⟨hn, heq⟩ := Prod.mk.inj heq
    obtain ⟨hbit, hframe⟩ := Prod.mk.inj heq
    refine ⟨b, hb, by rw [husers]; exact List.mem_singleton_self _, ?_, 1, ?_, hbit, ?_⟩
    · rw [hentry]
      decide
    · rw [hn]
      decide
    · rw [hentry, hframe]
      decide

end AddressSpaces

end BrickOS.Memory
