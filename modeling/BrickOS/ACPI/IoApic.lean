import Mathlib.Algebra.Order.Ring.Nat
import Mathlib.Data.Int.Notation
import Mathlib.Data.List.Basic

/-! The redirection tables of the I/O APICs: entries are programmed when a legacy or PCI interrupt gets
a vector, and masked through the vector later. -/
namespace BrickOS.ACPI

def apicInterruptStart : ℕ := 0x20

def maxVectors : ℕ := 256

def ioapicVer : ℕ := 1

def ioredtbl (n : ℕ) : ℕ := 0x10 + n * 2

def ioapicRegMaskOffset : ℕ := 16

/-- An I/O APIC of the MADT. Its registers have 8-bit offsets, so that it has at most 120 entries. -/
structure IoApic where
  gsiBase : ℕ
  entries : ℕ
  version : ℕ
  entries_pos : 0 < entries
  entries_le : entries ≤ 120
  version_lt : version < 2 ^ 16

def IoApic.versionRegister (a : IoApic) : ℕ := (a.entries - 1) * 2 ^ 16 + a.version

/-- `acpi_madt_interrupt_source_override`. -/
structure SourceOverride where
  source : ℕ
  gsi : ℕ
  flags : ℕ

structure Madt where
  ioapics : List IoApic
  intSrcOverrides : List SourceOverride
  apicId : ℕ

structure Redirection where
  regs : ℕ → ℕ → BitVec 32
  vecToGsi : ℕ → ℤ
  nextVec : ℕ

def ioapicGetRedirEntryCnt (a : IoApic) : ℕ := (a.versionRegister / 2 ^ 16 + 1) % 2 ^ 8

def IoApic.Responsible (a : IoApic) (irq : ℕ) : Prop :=
  a.gsiBase ≤ irq ∧ irq < (a.gsiBase + ioapicGetRedirEntryCnt a) % 2 ^ 32

instance (a : IoApic) (irq : ℕ) : Decidable (a.Responsible irq) := inferInstanceAs (Decidable (_ ∧ _))

namespace Madt

def findResponsibleIoapic (m : Madt) (irq : ℕ) : Option (IoApic × ℕ) :=
  m.ioapics.zipIdx.find? fun a => a.1.Responsible irq

def findIntSrcOverride (m : Madt) (irq : ℕ) : Option SourceOverride :=
  m.intSrcOverrides.find? fun o => o.source = irq

def gsi (m : Madt) (irq : ℕ) : ℕ := ((m.findIntSrcOverride (irq % 2 ^ 8)).map (·.gsi)).getD irq

def polarity (m : Madt) (irq : ℕ) : Bool :=
  ((m.findIntSrcOverride (irq % 2 ^ 8)).map (·.flags &&& 0x2 != 0)).getD false

def trigger (m : Madt) (irq : ℕ) : Bool :=
  ((m.findIntSrcOverride (irq % 2 ^ 8)).map (·.flags &&& 0x8 != 0)).getD false

end Madt

def entryVal (vec : ℕ) (polarity trigger : Bool) : BitVec 32 :=
  BitVec.ofNat 32 vec ||| (BitVec.ofBool polarity).setWidth 32 <<< 13 |||
    (BitVec.ofBool trigger).setWidth 32 <<< 15 ||| 1#32 <<< ioapicRegMaskOffset

def entryDest (apicId : ℕ) : BitVec 32 := BitVec.ofNat 32 apicId <<< 24

namespace Redirection

/-- The version register cannot be written. -/
def writeIoapicRegister (s : Redirection) (i offset : ℕ) (val : BitVec 32) : Redirection :=
  if offset % 2 ^ 8 = ioapicVer then s
  else { s with regs := fun j o => if j = i ∧ o = offset % 2 ^ 8 then val else s.regs j o }

def readIoapicRegister (s : Redirection) (a : IoApic) (i offset : ℕ) : BitVec 32 :=
  if offset % 2 ^ 8 = ioapicVer then BitVec.ofNat 32 a.versionRegister
  else s.regs i (offset % 2 ^ 8)

def allocIrqVector (s : Redirection) (gsi : ℕ) : Redirection × ℕ :=
  if s.nextVec = maxVectors - 1 then (s, 0)
  else
    ({ s with
        vecToGsi := Function.update s.vecToGsi s.nextVec (gsi % 2 ^ 8 : ℕ)
        nextVec := (s.nextVec + 1) % 2 ^ 8 }, s.nextVec)

/-- A vector for the interrupt, with its entry on the `i`-th I/O APIC; 0 when there is none left. -/
def redirect (s : Redirection) (m : Madt) (i pin gsi : ℕ) (polarity trigger : Bool) :
    Redirection × ℕ :=
  let (s, vec) := s.allocIrqVector gsi
  if vec = 0 then (s, 0)
  else
    let s := s.writeIoapicRegister i (ioredtbl pin + 0) (entryVal vec polarity trigger)
    let s := s.writeIoapicRegister i (ioredtbl pin + 1) (entryDest m.apicId)
    (s, vec)

def ioapicRedirectLegacyIrq (m : Madt) (s : Redirection) (irq : ℕ) : Redirection × ℕ :=
  match m.findResponsibleIoapic irq with
  | none => (s, 0)
  | some (ioapic, i) =>
    let pin := (m.gsi irq + 2 ^ 32 - ioapic.gsiBase) % 2 ^ 32
    s.redirect m i pin (m.gsi irq) (m.polarity irq) (m.trigger irq)

/-- `ioapic_register_pci_irq` once the routing table has given an interrupt number. -/
def ioapicRegisterPciIrq (m : Madt) (s : Redirection) (gsi : ℕ) (polarity trigger : Bool) :
    Redirection × ℕ :=
  if gsi = 0 then (s, 0)
  else match m.findResponsibleIoapic gsi with
    | none => (s, 0)
    | some (ioapic, i) => s.redirect m i ((gsi - ioapic.gsiBase) % 2 ^ 8) gsi polarity trigger

def maskBit : BitVec 32 := 1#32 <<< ioapicRegMaskOffset

def ioapicSetMask (m : Madt) (s : Redirection) (irq : ℕ) (mask : Bool) : Redirection :=
  if irq < apicInterruptStart then s
  else
    let gsi := s.vecToGsi irq
    if gsi < 0 then s
    else match m.findResponsibleIoapic (gsi.toNat % 2 ^ 32) with
      | none => s
      | some (ioapic, i) =>
        let pin := (gsi.toNat - ioapic.gsiBase) % 2 ^ 8
        let low := s.readIoapicRegister ioapic i (ioredtbl pin)
        let low := if mask then low ||| maskBit else low &&& ~~~maskBit
        s.writeIoapicRegister i (ioredtbl pin) low

def ioapicSetMaskAll (m : Madt) (s : Redirection) (mask : Bool) : Redirection :=
  (List.range' apicInterruptStart (s.nextVec - apicInterruptStart)).foldl
    (fun s irq => ioapicSetMask m s irq mask) s

end Redirection

inductive ApicCall
  | redirectLegacyIrq (irq : ℕ)
  | registerPciIrq (gsi : ℕ) (polarity trigger : Bool)
  | setMask (irq : ℕ) (mask : Bool)
  | setMaskAll (mask : Bool)

namespace Redirection

def call (m : Madt) (s : Redirection) : ApicCall → Redirection
  | .redirectLegacyIrq irq => (ioapicRedirectLegacyIrq m s irq).1
  | .registerPciIrq gsi polarity trigger => (ioapicRegisterPciIrq m s gsi polarity trigger).1
  | .setMask irq mask => ioapicSetMask m s irq mask
  | .setMaskAll mask => ioapicSetMaskAll m s mask

def Started (s : Redirection) : Prop := apicInterruptStart ≤ s.nextVec ∧ s.nextVec < maxVectors

end Redirection

def IoApic.Covers (a : IoApic) (gsi : ℕ) : Prop := a.gsiBase ≤ gsi ∧ gsi < a.gsiBase + a.entries

def Madt.Disjoint (m : Madt) : Prop :=
  ∀ (i j : ℕ) (a b : IoApic) (gsi : ℕ), m.ioapics[i]? = some a → m.ioapics[j]? = some b →
    a.Covers gsi → b.Covers gsi → i = j

/-- The call programs the entry of the interrupt number on the I/O APIC responsible for it, and nothing
else; whatever is called after that, the vector masks that entry and changes nothing else. -/
def MasksProgrammed (m : Madt) (irq : ℕ) : Prop :=
  ∀ s s₁ vec, Redirection.Started s → Redirection.ioapicRedirectLegacyIrq m s irq = (s₁, vec) → vec ≠ 0 →
    ∃ a i, m.ioapics[i]? = some a ∧ a.Covers (m.gsi irq) ∧
      (∀ j o, s₁.regs j o =
        if j = i ∧ o = ioredtbl (m.gsi irq - a.gsiBase) then
          entryVal vec (m.polarity irq) (m.trigger irq)
        else if j = i ∧ o = ioredtbl (m.gsi irq - a.gsiBase) + 1 then entryDest m.apicId
        else s.regs j o) ∧
      ∀ (calls : List ApicCall) mask, let s₂ := calls.foldl (Redirection.call m) s₁
        let s₃ := Redirection.ioapicSetMask m s₂ vec mask
        s₃.vecToGsi = s₂.vecToGsi ∧ s₃.nextVec = s₂.nextVec ∧
          ∀ j o k, k < 32 → (s₃.regs j o).getLsbD k =
            if j = i ∧ o = ioredtbl (m.gsi irq - a.gsiBase) ∧ k = ioapicRegMaskOffset then mask
            else (s₂.regs j o).getLsbD k

theorem ioapicGetRedirEntryCnt_eq (a : IoApic) : ioapicGetRedirEntryCnt a = a.entries := by
  have := a.entries_pos
  have := a.entries_le
  have := a.version_lt
  unfold ioapicGetRedirEntryCnt IoApic.versionRegister
  omega

theorem IoApic.Responsible.covers {a : IoApic} {irq : ℕ} (h : a.Responsible irq) : a.Covers irq := by
  unfold IoApic.Responsible at h
  rw [ioapicGetRedirEntryCnt_eq] at h
  exact ⟨h.1, h.2.trans_le (Nat.mod_le _ _)⟩

/-- A range that begins below the vectors ends within 32 bits. -/
theorem IoApic.Covers.responsible {a : IoApic} {irq : ℕ} (h : a.Covers irq) (hirq : irq < maxVectors) :
    a.Responsible irq := by
  have hle := a.entries_le
  obtain ⟨hbase, hlt⟩ := h
  unfold maxVectors at hirq
  refine ⟨hbase, ?_⟩
  rw [ioapicGetRedirEntryCnt_eq, Nat.mod_eq_of_lt (by omega)]
  exact hlt

section Find
variable {m : Madt} {a : IoApic} {i irq : ℕ}

theorem findResponsibleIoapic_some (h : m.findResponsibleIoapic irq = some (a, i)) :
    m.ioapics[i]? = some a ∧ a.Responsible irq := by
  have hmem := List.mem_of_find?_eq_some h
  exact ⟨List.mem_zipIdx_iff_getElem?.mp hmem, by simpa using List.find?_some h⟩

theorem Madt.Disjoint.find (hm : m.Disjoint) (ha : m.ioapics[i]? = some a)
    (hresp : a.Responsible irq) : m.findResponsibleIoapic irq = some (a, i) := by
  cases hfind : m.findResponsibleIoapic irq with
  | none =>
    have hnone := List.find?_eq_none.mp hfind (a, i) (List.mem_zipIdx_iff_getElem?.mpr ha)
    exact absurd hresp (by simpa using hnone)
  | some found =>
    obtain ⟨b, j⟩ := found
    obtain ⟨hb, hresp'⟩ := findResponsibleIoapic_some hfind
    obtain rfl := hm i j a b irq ha hb hresp.covers hresp'.covers
    rw [ha] at hb
    cases hb
    rfl

end Find

namespace Redirection
variable {m : Madt} {s : Redirection} {i pin : ℕ}

theorem ioredtbl_mod {a : IoApic} (h : pin < a.entries) : ioredtbl pin % 2 ^ 8 = ioredtbl pin := by
  have := a.entries_le
  unfold ioredtbl
  omega

/-! The table of vectors. -/

@[simp] theorem vecToGsi_write (s : Redirection) (i offset : ℕ) (val : BitVec 32) :
    (s.writeIoapicRegister i offset val).vecToGsi = s.vecToGsi := by
  unfold writeIoapicRegister
  split <;> rfl

@[simp] theorem nextVec_write (s : Redirection) (i offset : ℕ) (val : BitVec 32) :
    (s.writeIoapicRegister i offset val).nextVec = s.nextVec := by
  unfold writeIoapicRegister
  split <;> rfl

def Keeps (s t : Redirection) : Prop :=
  s.Started → t.Started ∧ s.nextVec ≤ t.nextVec ∧ ∀ v < s.nextVec, t.vecToGsi v = s.vecToGsi v

theorem Keeps.refl (s : Redirection) : s.Keeps s := fun h => ⟨h, le_rfl, fun _ _ => rfl⟩

theorem Keeps.trans {t u : Redirection} (h : s.Keeps t) (h' : t.Keeps u) : s.Keeps u := by
  intro hs
  obtain ⟨ht, hle, heq⟩ := h hs
  obtain ⟨hu, hle', heq'⟩ := h' ht
  exact ⟨hu, hle.trans hle', fun v hv => (heq' v (hv.trans_le hle)).trans (heq v hv)⟩

theorem keeps_of_eq {t : Redirection} (hvec : t.vecToGsi = s.vecToGsi) (hnext : t.nextVec = s.nextVec) :
    s.Keeps t := by
  intro hs
  unfold Started at *
  rw [hvec, hnext]
  exact ⟨hs, le_rfl, fun _ _ => rfl⟩

theorem keeps_alloc (s : Redirection) (gsi : ℕ) : s.Keeps (s.allocIrqVector gsi).1 := by
  intro hs
  obtain ⟨hlo, hhi⟩ := hs
  unfold allocIrqVector
  split
  · exact Keeps.refl s ⟨hlo, hhi⟩
  · rename_i hne
    have hsucc : (s.nextVec + 1) % 2 ^ 8 = s.nextVec + 1 := by
      unfold maxVectors at *
      omega
    refine ⟨?_, ?_, ?_⟩
    · unfold Started maxVectors at *
      simp only [hsucc]
      omega
    · simp only [hsucc]
      omega
    · intro v hv
      exact Function.update_of_ne hv.ne _ _

theorem keeps_redirect (s : Redirection) (m : Madt) (i pin gsi : ℕ) (polarity trigger : Bool) :
    s.Keeps (s.redirect m i pin gsi polarity trigger).1 := by
  have halloc := keeps_alloc s gsi
  unfold redirect
  dsimp only
  split
  · exact halloc
  · exact halloc.trans (keeps_of_eq (by simp) (by simp))

theorem ioapicSetMask_table (m : Madt) (s : Redirection) (irq : ℕ) (mask : Bool) :
    (ioapicSetMask m s irq mask).vecToGsi = s.vecToGsi ∧
      (ioapicSetMask m s irq mask).nextVec = s.nextVec := by
  unfold ioapicSetMask
  dsimp only
  split
  · exact ⟨rfl, rfl⟩
  · split
    · exact ⟨rfl, rfl⟩
    · split
      · exact ⟨rfl, rfl⟩
      · exact ⟨vecToGsi_write _ _ _ _, nextVec_write _ _ _ _⟩

theorem keeps_setMask (m : Madt) (s : Redirection) (irq : ℕ) (mask : Bool) :
    s.Keeps (ioapicSetMask m s irq mask) :=
  keeps_of_eq (ioapicSetMask_table m s irq mask).1 (ioapicSetMask_table m s irq mask).2

theorem keeps_setMasks (m : Madt) (mask : Bool) (irqs : List ℕ) (s : Redirection) :
    s.Keeps (irqs.foldl (fun s irq => ioapicSetMask m s irq mask) s) := by
  induction irqs generalizing s with
  | nil => exact Keeps.refl s
  | cons irq irqs ih => exact (keeps_setMask m s irq mask).trans (ih _)

theorem keeps_call (m : Madt) (s : Redirection) (c : ApicCall) : s.Keeps (s.call m c) := by
  cases c with
  | redirectLegacyIrq irq =>
    show s.Keeps (ioapicRedirectLegacyIrq m s irq).1
    unfold ioapicRedirectLegacyIrq
    split
    · exact Keeps.refl s
    · exact keeps_redirect _ _ _ _ _ _ _
  | registerPciIrq gsi polarity trigger =>
    show s.Keeps (ioapicRegisterPciIrq m s gsi polarity trigger).1
    unfold ioapicRegisterPciIrq
    split
    · exact Keeps.refl s
    · split
      · exact Keeps.refl s
      · exact keeps_redirect _ _ _ _ _ _ _
  | setMask irq mask => exact keeps_setMask m s irq mask
  | setMaskAll mask => exact keeps_setMasks m mask _ s

theorem keeps_calls (m : Madt) (calls : List ApicCall) (s : Redirection) :
    s.Keeps (calls.foldl (call m) s) := by
  induction calls generalizing s with
  | nil => exact Keeps.refl s
  | cons c calls ih => exact (keeps_call m s c).trans (ih _)

/-! The entries. -/

theorem regs_write {offset : ℕ} (h : offset % 2 ^ 8 ≠ ioapicVer) (s : Redirection) (i : ℕ)
    (val : BitVec 32) (j o : ℕ) : (s.writeIoapicRegister i offset val).regs j o =
      if j = i ∧ o = offset % 2 ^ 8 then val else s.regs j o := by
  rw [writeIoapicRegister, if_neg h]

/-- Other I/O APICs do not change. -/
theorem regs_write_of_ne {j : ℕ} (h : j ≠ i) (s : Redirection) (offset : ℕ) (val : BitVec 32)
    (o : ℕ) : (s.writeIoapicRegister i offset val).regs j o = s.regs j o := by
  unfold writeIoapicRegister
  split
  · rfl
  · exact if_neg fun hj => h hj.1

section Redirect
variable {t : Redirection} {gsi vec : ℕ} {polarity trigger : Bool}

/-- The state before the entry is written. -/
theorem redirect_eq (h : s.redirect m i pin gsi polarity trigger = (t, vec)) (hvec : vec ≠ 0) :
    vec = s.nextVec ∧ s.nextVec ≠ maxVectors - 1 ∧
      t = ((s.allocIrqVector gsi).1.writeIoapicRegister i (ioredtbl pin)
        (entryVal vec polarity trigger)).writeIoapicRegister i (ioredtbl pin + 1)
          (entryDest m.apicId) := by
  unfold redirect at h
  by_cases hnext : s.nextVec = maxVectors - 1
  · rw [allocIrqVector, if_pos hnext] at h
    cases h
    exact absurd rfl hvec
  · have hsnd : (s.allocIrqVector gsi).2 = s.nextVec := by
      rw [allocIrqVector, if_neg hnext]
    dsimp only at h
    split at h
    · cases h
      exact absurd rfl hvec
    · cases h
      exact ⟨hsnd, hnext, rfl⟩

theorem redirect_table (hs : s.Started)
    (h : s.redirect m i pin gsi polarity trigger = (t, vec)) (hvec : vec ≠ 0) :
    apicInterruptStart ≤ vec ∧ vec < t.nextVec ∧ t.vecToGsi vec = (gsi % 2 ^ 8 : ℕ) ∧ t.Started := by
  have hstarted := ((keeps_redirect s m i pin gsi polarity trigger) hs).1
  rw [h] at hstarted
  obtain ⟨rfl, hnext, rfl⟩ := redirect_eq h hvec
  refine ⟨hs.1, ?_, ?_, hstarted⟩
  · have hlt := hs.2
    rw [nextVec_write, nextVec_write, allocIrqVector, if_neg hnext]
    show s.nextVec < (s.nextVec + 1) % 2 ^ 8
    unfold maxVectors at *
    omega
  · rw [vecToGsi_write, vecToGsi_write, allocIrqVector, if_neg hnext]
    exact Function.update_self _ _ _

theorem regs_alloc (s : Redirection) (gsi : ℕ) : (s.allocIrqVector gsi).1.regs = s.regs := by
  unfold allocIrqVector
  split <;> rfl

theorem redirect_regs {a : IoApic} (hpin : pin < a.entries)
    (h : s.redirect m i pin gsi polarity trigger = (t, vec)) (hvec : vec ≠ 0) (j o : ℕ) :
    t.regs j o =
      if j = i ∧ o = ioredtbl pin then entryVal vec polarity trigger
      else if j = i ∧ o = ioredtbl pin + 1 then entryDest m.apicId
      else s.regs j o := by
  have hle := a.entries_le
  obtain ⟨-, -, rfl⟩ := redirect_eq h hvec
  have hlow : ioredtbl pin % 2 ^ 8 = ioredtbl pin := ioredtbl_mod hpin
  have hhigh : (ioredtbl pin + 1) % 2 ^ 8 = ioredtbl pin + 1 := by
    unfold ioredtbl
    omega
  have hver : ioredtbl pin ≠ ioapicVer ∧ ioredtbl pin + 1 ≠ ioapicVer := by
    unfold ioredtbl ioapicVer
    omega
  rw [regs_write (by rw [hhigh]; exact hver.2), regs_write (by rw [hlow]; exact hver.1), regs_alloc,
    hlow, hhigh]
  by_cases hj : j = i ∧ o = ioredtbl pin
  · rw [if_neg (by omega), if_pos hj, if_pos hj]
  · rw [if_neg hj]
    split <;> simp_all

theorem redirect_regs_of_ne {j : ℕ} (hj : j ≠ i)
    (h : s.redirect m i pin gsi polarity trigger = (t, vec)) (hvec : vec ≠ 0) (o : ℕ) :
    t.regs j o = s.regs j o := by
  obtain ⟨-, -, rfl⟩ := redirect_eq h hvec
  rw [regs_write_of_ne hj, regs_write_of_ne hj, regs_alloc]

end Redirect

theorem getLsbD_mask (low : BitVec 32) (mask : Bool) {k : ℕ} (hk : k < 32) :
    (if mask then low ||| maskBit else low &&& ~~~maskBit).getLsbD k =
      if k = ioapicRegMaskOffset then mask else low.getLsbD k := by
  have hbit : maskBit.getLsbD k = decide (k = ioapicRegMaskOffset) := by
    unfold maskBit ioapicRegMaskOffset
    revert k
    decide
  cases mask
  · simp only [Bool.false_eq_true, if_false, BitVec.getLsbD_and, BitVec.getLsbD_not, hk, hbit]
    by_cases h : k = ioapicRegMaskOffset <;> simp [h]
  · simp only [if_true, BitVec.getLsbD_or, hbit]
    by_cases h : k = ioapicRegMaskOffset <;> simp [h]

/-- Masking through a vector whose interrupt number is `gsi`. -/
theorem ioapicSetMask_regs {a : IoApic} {vec gsi : ℕ} (hvec : apicInterruptStart ≤ vec)
    (htable : s.vecToGsi vec = (gsi : ℕ)) (hgsi : gsi < maxVectors)
    (hfind : m.findResponsibleIoapic gsi = some (a, i)) (mask : Bool) (j o k : ℕ) (hk : k < 32) :
    ((ioapicSetMask m s vec mask).regs j o).getLsbD k =
      if j = i ∧ o = ioredtbl (gsi - a.gsiBase) ∧ k = ioapicRegMaskOffset then mask
      else (s.regs j o).getLsbD k := by
  have hcovers := (findResponsibleIoapic_some hfind).2.covers
  have hle := a.entries_le
  have hpin : gsi - a.gsiBase < a.entries := by
    have := hcovers.1
    have := hcovers.2
    omega
  have hpin' : (gsi - a.gsiBase) % 2 ^ 8 = gsi - a.gsiBase := Nat.mod_eq_of_lt (by omega)
  have hlow := ioredtbl_mod hpin
  have hver : ioredtbl (gsi - a.gsiBase) ≠ ioapicVer := by
    unfold ioredtbl ioapicVer
    omega
  have hmod : gsi % 2 ^ 32 = gsi := Nat.mod_eq_of_lt (by unfold maxVectors at hgsi; omega)
  unfold ioapicSetMask
  simp only [if_neg (Nat.not_lt.mpr hvec), htable, Int.toNat_natCast, hmod, hfind, hpin',
    if_neg (Int.not_lt.mpr (Int.natCast_nonneg gsi))]
  rw [regs_write (by rw [hlow]; exact hver), hlow, readIoapicRegister, hlow, if_neg hver]
  by_cases hj : j = i ∧ o = ioredtbl (gsi - a.gsiBase)
  · obtain ⟨rfl, rfl⟩ := hj
    rw [if_pos ⟨rfl, rfl⟩, getLsbD_mask _ _ hk]
    simp
  · rw [if_neg hj, if_neg fun h => hj ⟨h.1, h.2.1⟩]

theorem ioapicSetMask_of_none {vec gsi : ℕ} (htable : s.vecToGsi vec = (gsi : ℕ))
    (hgsi : gsi < maxVectors) (hfind : m.findResponsibleIoapic gsi = none) (mask : Bool) :
    ioapicSetMask m s vec mask = s := by
  have hmod : gsi % 2 ^ 32 = gsi := Nat.mod_eq_of_lt (by unfold maxVectors at hgsi; omega)
  unfold ioapicSetMask
  simp only [htable, Int.toNat_natCast, hmod, hfind]
  split_ifs <;> rfl

end Redirection

section Legacy
variable {m : Madt} {irq : ℕ}

open Redirection

/-- The entry is masked at first. -/
theorem getLsbD_entryVal (vec : ℕ) (polarity trigger : Bool) :
    (entryVal vec polarity trigger).getLsbD ioapicRegMaskOffset = true := by
  rw [entryVal, BitVec.getLsbD_or]
  exact Bool.or_true _

theorem masksProgrammed_of_covers {a : IoApic} (hm : m.Disjoint) (hirq : irq < 16)
    (ha : a ∈ m.ioapics) (hcovers : a.Covers irq) (hgsi : a.Covers (m.gsi irq))
    (hlt : m.gsi irq < maxVectors) : MasksProgrammed m irq := by
  intro s s₁ vec hs hredirect hvec
  obtain ⟨i, hi⟩ := List.mem_iff_getElem?.mp ha
  have hfind := hm.find hi (hcovers.responsible (hirq.trans (by decide)))
  have hfind' := hm.find hi (hgsi.responsible hlt)
  have hbase := hgsi.1
  have hend := hgsi.2
  have hmod : m.gsi irq % 2 ^ 8 = m.gsi irq := Nat.mod_eq_of_lt hlt
  have hpin : (m.gsi irq + 2 ^ 32 - a.gsiBase) % 2 ^ 32 = m.gsi irq - a.gsiBase := by
    unfold maxVectors at hlt
    omega
  simp only [ioapicRedirectLegacyIrq, hfind, hpin] at hredirect
  obtain ⟨hstart, hnext, htable, hs₁⟩ := redirect_table hs hredirect hvec
  refine ⟨a, i, hi, hgsi, redirect_regs (a := a) (by omega) hredirect hvec, ?_⟩
  intro calls mask
  obtain ⟨-, -, hkept⟩ := keeps_calls m calls s₁ hs₁
  obtain ⟨htable', hnext'⟩ := ioapicSetMask_table m (calls.foldl (call m) s₁) vec mask
  refine ⟨htable', hnext', ?_⟩
  have hentry : (calls.foldl (call m) s₁).vecToGsi vec = (m.gsi irq : ℕ) := by
    rw [hkept vec hnext, htable, hmod]
  exact ioapicSetMask_regs hstart hentry hlt hfind' mask

def unprogrammed : Redirection := ⟨fun _ _ => 0, fun _ => -1, apicInterruptStart⟩

/-- Programming and masking meet in one entry only if the I/O APIC of the interrupt also has its
overridden number, and this fits into a byte. -/
theorem covers_of_masksProgrammed (hfound : (m.findResponsibleIoapic irq).isSome)
    (h : MasksProgrammed m irq) :
    (∃ a ∈ m.ioapics, a.Covers irq ∧ a.Covers (m.gsi irq)) ∧ m.gsi irq < maxVectors := by
  obtain ⟨⟨b, j⟩, hfind⟩ := Option.isSome_iff_exists.mp hfound
  obtain ⟨hj, hresp⟩ := findResponsibleIoapic_some hfind
  have hs : unprogrammed.Started := ⟨le_rfl, by decide⟩
  obtain ⟨s₁, vec, hredirect, hvec⟩ : ∃ s₁ vec,
      ioapicRedirectLegacyIrq m unprogrammed irq = (s₁, vec) ∧ vec ≠ 0 := by
    refine ⟨_, _, rfl, ?_⟩
    simp only [hfind]
    exact Nat.succ_ne_zero 31
  obtain ⟨a, i, hi, hgsi, hregs, hmask⟩ := h unprogrammed s₁ vec hs hredirect hvec
  simp only [ioapicRedirectLegacyIrq, hfind] at hredirect
  -- The entry was written, on the I/O APIC of the interrupt.
  have hprogrammed : (s₁.regs i (ioredtbl (m.gsi irq - a.gsiBase))).getLsbD ioapicRegMaskOffset =
      true := by
    rw [hregs, if_pos ⟨rfl, rfl⟩, getLsbD_entryVal]
  obtain rfl : i = j := by
    by_contra hne
    rw [redirect_regs_of_ne hne hredirect hvec] at hprogrammed
    exact absurd hprogrammed (by simp [unprogrammed])
  obtain rfl : a = b := Option.some.inj (hi.symm.trans hj)
  refine ⟨⟨a, List.mem_of_getElem? hi, hresp.covers, hgsi⟩, ?_⟩
  -- Unmasking finds it by the lower byte of the number.
  obtain ⟨hstart, -, htable, -⟩ := redirect_table hs hredirect hvec
  have hbyte : m.gsi irq % 2 ^ 8 < maxVectors := Nat.mod_lt _ (by decide)
  have hcleared := (hmask [] false).2.2 i (ioredtbl (m.gsi irq - a.gsiBase)) ioapicRegMaskOffset
    (by decide)
  rw [if_pos ⟨rfl, rfl, rfl⟩, List.foldl_nil] at hcleared
  cases hfind' : m.findResponsibleIoapic (m.gsi irq % 2 ^ 8) with
  | none =>
    rw [ioapicSetMask_of_none htable hbyte hfind', hprogrammed] at hcleared
    cases hcleared
  | some found =>
    obtain ⟨b, j⟩ := found
    obtain ⟨hj, hresp'⟩ := findResponsibleIoapic_some hfind'
    rw [ioapicSetMask_regs hstart htable hbyte hfind' false _ _ _ (by decide), hprogrammed] at hcleared
    obtain ⟨rfl, hsame, -⟩ : i = j ∧ ioredtbl (m.gsi irq - a.gsiBase) =
        ioredtbl (m.gsi irq % 2 ^ 8 - b.gsiBase) ∧ ioapicRegMaskOffset = ioapicRegMaskOffset := by
      by_contra hne
      rw [if_neg hne] at hcleared
      cases hcleared
    obtain rfl : a = b := Option.some.inj (hi.symm.trans hj)
    have := hgsi.1
    have := hresp'.1
    unfold ioredtbl at hsame
    omega

/-- Masking hits the programmed entry exactly when the I/O APIC of the legacy interrupt is also
responsible for the number it is overridden with, and the number fits into a byte. -/
theorem masksProgrammed_iff (hm : m.Disjoint) (hirq : irq < 16)
    (hfound : (m.findResponsibleIoapic irq).isSome) :
    MasksProgrammed m irq ↔
      (∃ a ∈ m.ioapics, a.Covers irq ∧ a.Covers (m.gsi irq)) ∧ m.gsi irq < 256 := by
  refine ⟨covers_of_masksProgrammed hfound, ?_⟩
  rintro ⟨⟨a, ha, hcovers, hgsi⟩, hlt⟩
  exact masksProgrammed_of_covers hm hirq ha hcovers hgsi hlt

end Legacy

def pcMadt : Madt := ⟨[⟨0, 24, 0x20, by decide, by decide, by decide⟩], [⟨0, 2, 0⟩], 0⟩

theorem pcMadt_disjoint : pcMadt.Disjoint := by
  intro i j a b gsi hi hj _ _
  have hi' := (List.getElem?_eq_some_iff.mp hi).1
  have hj' := (List.getElem?_eq_some_iff.mp hj).1
  change i < 1 at hi'
  change j < 1 at hj'
  omega

theorem masksProgrammed_pc : MasksProgrammed pcMadt 0 := by
  refine (masksProgrammed_iff pcMadt_disjoint (by decide) (by decide)).mpr ⟨?_, by decide⟩
  exact ⟨_, List.mem_cons_self, ⟨by decide, by decide⟩, ⟨by decide, by decide⟩⟩

def twoMadt : Madt :=
  ⟨[⟨0, 24, 0x20, by decide, by decide, by decide⟩, ⟨24, 24, 0x20, by decide, by decide, by decide⟩],
    [⟨9, 24, 0xf⟩], 0⟩

theorem not_masksProgrammed_two : ¬ MasksProgrammed twoMadt 9 := by
  intro h
  obtain ⟨⟨a, ha, hirq, hgsi⟩, -⟩ := covers_of_masksProgrammed (by decide) h
  have hgsi' : a.Covers 24 := hgsi
  rcases List.mem_cons.mp ha with rfl | ha
  · exact absurd hgsi'.2 (by decide)
  · obtain rfl := List.mem_singleton.mp ha
    exact absurd hirq.1 (by decide)

end BrickOS.ACPI
