import Mathlib.Algebra.Order.Ring.Nat
import Mathlib.Data.List.Basic

/-! The accesses of uACPI to the configuration space of PCI devices. They come in three widths and go
through the two 32-bit ports of the bus. -/
namespace BrickOS.ACPI

/-- `uacpi_pci_address`; a bus has 32 devices with 8 functions each. -/
structure PciAddress where
  bus : ℕ
  device : ℕ
  function : ℕ
  bus_lt : bus < 2 ^ 8
  device_lt : device < 2 ^ 5
  function_lt : function < 2 ^ 3

abbrev PciSpace := ℕ → BitVec 8

def PciAddress.base (d : PciAddress) : ℕ := d.bus * 2 ^ 16 + d.device * 2 ^ 11 + d.function * 2 ^ 8

def configAddr (d : PciAddress) (offset : ℕ) : ℕ :=
  d.bus <<< 16 ||| d.device <<< 11 ||| d.function <<< 8 ||| offset % 2 ^ 8 &&& 0xfc ||| 1 <<< 31

/-- The address of the double word behind `PCI_CONFIG_DATA`: the bits below the reserved ones. -/
def selected (configAddr : ℕ) : ℕ := configAddr % 2 ^ 24

def inl (space : PciSpace) (addr : ℕ) : BitVec 32 :=
  space (addr + 3) ++ space (addr + 2) ++ space (addr + 1) ++ space addr

def outl (space : PciSpace) (addr : ℕ) (config : BitVec 32) : PciSpace := fun a =>
  if addr ≤ a ∧ a < addr + 4 then config.extractLsb' (8 * (a - addr)) 8 else space a

def pciConfigReadDword (space : PciSpace) (d : PciAddress) (offset : ℕ) : BitVec 32 :=
  inl space (selected (configAddr d offset))

def pciConfigReadWord (space : PciSpace) (d : PciAddress) (offset : ℕ) : BitVec 16 :=
  let data32 := pciConfigReadDword space d offset
  ((data32 >>> if offset % 2 ^ 8 &&& 0x2 ≠ 0 then 16 else 0) &&& 0xffff).setWidth 16

def pciConfigWriteDword (space : PciSpace) (d : PciAddress) (offset : ℕ) (config : BitVec 32) :
    PciSpace :=
  outl space (selected (configAddr d offset)) config

inductive UacpiStatus
  | ok
  | invalidArgument
deriving DecidableEq

def storedBytes (value : BitVec 64) : List (BitVec 8) :=
  (List.range 8).map fun k => value.extractLsb' (8 * k) 8

/-- The result and what is stored at `value`. `offset & ~0x1` is the offset without its lowest bit. -/
def uacpiKernelPciRead (space : PciSpace) (d : PciAddress) (offset width : ℕ) :
    UacpiStatus × List (BitVec 8) :=
  match width with
  | 1 =>
    let value : BitVec 64 := (pciConfigReadWord space d (offset - offset % 2)).setWidth 64
    let value := (value >>> if offset % 2 = 1 then 8 else 0) &&& 0xff
    (.ok, storedBytes value)
  | 2 => (.ok, storedBytes ((pciConfigReadWord space d offset).setWidth 64))
  | 8 =>
    let value : BitVec 64 := (pciConfigReadWord space d offset).setWidth 64
    -- The shifted word is an `int`.
    let upper : BitVec 32 := (pciConfigReadWord space d (offset + 2)).setWidth 32 <<< 16
    (.ok, storedBytes (value ||| upper.signExtend 64))
  | _ => (.invalidArgument, [])

def uacpiKernelPciRead8 (space : PciSpace) (d : PciAddress) (offset : ℕ) :=
  uacpiKernelPciRead space d offset 1

def uacpiKernelPciRead16 (space : PciSpace) (d : PciAddress) (offset : ℕ) :=
  uacpiKernelPciRead space d offset 2

def uacpiKernelPciRead32 (space : PciSpace) (d : PciAddress) (offset : ℕ) :=
  uacpiKernelPciRead space d offset 4

def replaceBits (dword mask : BitVec 32) (shift : ℕ) (value : BitVec 64) : BitVec 32 :=
  let dword := dword &&& ~~~(mask <<< shift)
  (dword.setWidth 64 ||| (value &&& mask.setWidth 64) <<< shift).setWidth 32

def uacpiKernelPciWrite (space : PciSpace) (d : PciAddress) (offset width : ℕ) (value : BitVec 64) :
    UacpiStatus × PciSpace :=
  match width with
  | 1 =>
    let dword : BitVec 32 := (pciConfigReadWord space d (offset - offset % 4)).setWidth 32
    let dword := replaceBits dword 0xff (offset % 4 * 8) value
    (.ok, pciConfigWriteDword space d (offset - offset % 4) dword)
  | 2 =>
    let dword : BitVec 32 := (pciConfigReadWord space d (offset - offset % 4)).setWidth 32
    let dword := replaceBits dword 0xffff ((offset &&& 0x2) * 8) value
    (.ok, pciConfigWriteDword space d (offset - offset % 4) dword)
  | 4 => (.ok, pciConfigWriteDword space d offset (value.setWidth 32))
  | _ => (.invalidArgument, space)

def uacpiKernelPciWrite8 (space : PciSpace) (d : PciAddress) (offset : ℕ) (value : BitVec 8) :=
  uacpiKernelPciWrite space d offset 1 (value.setWidth 64)

def uacpiKernelPciWrite16 (space : PciSpace) (d : PciAddress) (offset : ℕ) (value : BitVec 16) :=
  uacpiKernelPciWrite space d offset 2 (value.setWidth 64)

def uacpiKernelPciWrite32 (space : PciSpace) (d : PciAddress) (offset : ℕ) (value : BitVec 32) :=
  uacpiKernelPciWrite space d offset 4 (value.setWidth 64)

inductive PciAccess
  | read8
  | read16
  | read32
  | write8 (value : BitVec 8)
  | write16 (value : BitVec 16)
  | write32 (value : BitVec 32)

def PciAccess.width : PciAccess → ℕ
  | .read8 | .write8 _ => 1
  | .read16 | .write16 _ => 2
  | .read32 | .write32 _ => 4

def Reads (space : PciSpace) (a n : ℕ) (result : UacpiStatus × List (BitVec 8)) : Prop :=
  result = (.ok, (List.range n).map fun k => space (a + k))

def Writes {w : ℕ} (space : PciSpace) (a n : ℕ) (value : BitVec w)
    (result : UacpiStatus × PciSpace) : Prop :=
  result.1 = .ok ∧ ∀ b, result.2 b =
    if a ≤ b ∧ b < a + n then value.extractLsb' (8 * (b - a)) 8 else space b

def LikeMemory (space : PciSpace) (d : PciAddress) (offset : ℕ) : PciAccess → Prop
  | .read8 => Reads space (d.base + offset) 1 (uacpiKernelPciRead8 space d offset)
  | .read16 => Reads space (d.base + offset) 2 (uacpiKernelPciRead16 space d offset)
  | .read32 => Reads space (d.base + offset) 4 (uacpiKernelPciRead32 space d offset)
  | .write8 value =>
    Writes space (d.base + offset) 1 value (uacpiKernelPciWrite8 space d offset value)
  | .write16 value =>
    Writes space (d.base + offset) 2 value (uacpiKernelPciWrite16 space d offset value)
  | .write32 value =>
    Writes space (d.base + offset) 4 value (uacpiKernelPciWrite32 space d offset value)

def PciAccess.UpperClear (space : PciSpace) (d : PciAddress) (offset : ℕ) : PciAccess → Prop
  | .read8 | .read16 | .read32 => False
  | .write8 _ => ∀ k, 2 ≤ k → k < 4 → k ≠ offset % 4 → space (d.base + (offset - offset % 4) + k) = 0
  | .write16 _ => offset % 4 = 0 → space (d.base + offset + 2) = 0 ∧ space (d.base + offset + 3) = 0
  | .write32 _ => True

/-! The address of a double word. -/

/-- The fields of the address do not overlap, so that their union is their sum. -/
theorem fields_eq {b d f o : ℕ} (hd : d < 2 ^ 5) (hf : f < 2 ^ 3) (ho : o < 2 ^ 8) :
    b <<< 16 ||| d <<< 11 ||| f <<< 8 ||| o = b * 2 ^ 16 + (d * 2 ^ 11 + (f * 2 ^ 8 + o)) := by
  obtain ⟨hfo, hdfo⟩ : f * 2 ^ 8 + o < 2 ^ 11 ∧ d * 2 ^ 11 + (f * 2 ^ 8 + o) < 2 ^ 16 := by
    constructor <;> omega
  rw [Nat.or_assoc, Nat.or_assoc, ← Nat.shiftLeft_add_eq_or_of_lt ho, Nat.shiftLeft_eq f,
    ← Nat.shiftLeft_add_eq_or_of_lt hfo, Nat.shiftLeft_eq d, ← Nat.shiftLeft_add_eq_or_of_lt hdfo,
    Nat.shiftLeft_eq]

theorem aligned_eq : ∀ offset < 256, offset % 2 ^ 8 &&& 0xfc = offset - offset % 4 := by
  decide +kernel

theorem selected_configAddr (d : PciAddress) {offset : ℕ} (hoff : offset < 256) :
    selected (configAddr d offset) = d.base + (offset - offset % 4) := by
  have hbus := d.bus_lt
  have hdevice := d.device_lt
  have hfunction := d.function_lt
  have haligned : offset - offset % 4 < 2 ^ 8 := by omega
  have hbase : d.base + (offset - offset % 4) < 2 ^ 24 := by
    unfold PciAddress.base
    omega
  have hsum : d.bus * 2 ^ 16 + (d.device * 2 ^ 11 + (d.function * 2 ^ 8 + (offset - offset % 4))) =
      d.base + (offset - offset % 4) := by
    rw [PciAddress.base, Nat.add_assoc, Nat.add_assoc]
  rw [selected, configAddr, aligned_eq offset hoff, fields_eq hdevice hfunction haligned, hsum,
    Nat.or_comm, ← Nat.shiftLeft_add_eq_or_of_lt (hbase.trans (by decide)), Nat.shiftLeft_eq]
  omega

/-! Bits of the double word that is written back. -/

theorem getLsbD_inl (space : PciSpace) (addr : ℕ) {k i : ℕ} (hk : k < 4) (hi : i < 8) :
    (inl space addr).getLsbD (8 * k + i) = (space (addr + k)).getLsbD i := by
  unfold inl
  simp only [BitVec.getLsbD_append]
  match k, hk with
  | 0, _ => rw [if_pos (by omega), Nat.mul_zero, Nat.zero_add, Nat.add_zero]
  | 1, _ => rw [if_neg (by omega), if_pos (by omega), Nat.mul_one, Nat.add_sub_cancel_left]
  | 2, _ =>
    rw [if_neg (by omega), if_neg (by omega), if_pos (by omega),
      show 8 * 2 + i - 8 - 8 = i by omega]
  | 3, _ =>
    rw [if_neg (by omega), if_neg (by omega), if_neg (by omega),
      show 8 * 3 + i - 8 - 8 - 8 = i by omega]

theorem getLsbD_replaceBits {dword mask : BitVec 32} {n : ℕ} {value : BitVec 64}
    (hmask : ∀ j, mask.getLsbD j = decide (j < n)) (shift : ℕ) {j : ℕ} (hj : j < 32) :
    (replaceBits dword mask shift value).getLsbD j =
      if shift ≤ j ∧ j < shift + n then value.getLsbD (j - shift) else dword.getLsbD j := by
  have hj' : j < 64 := hj.trans (by decide)
  have hsub : j - shift < 64 := (Nat.sub_le _ _).trans_lt hj'
  simp only [replaceBits, BitVec.getLsbD_setWidth, BitVec.getLsbD_or, BitVec.getLsbD_and,
    BitVec.getLsbD_not, BitVec.getLsbD_shiftLeft, hmask, hj, hj', hsub, decide_true, Bool.true_and]
  by_cases hlo : j < shift
  · have hout : ¬ (shift ≤ j ∧ j < shift + n) := by omega
    rw [if_neg hout]
    simp [hlo]
  · by_cases hhi : j < shift + n
    · have hn : j - shift < n := by omega
      rw [if_pos ⟨Nat.le_of_not_lt hlo, hhi⟩]
      simp [hlo, hn]
    · have hn : ¬ j - shift < n := by omega
      rw [if_neg fun h => hhi h.2]
      simp [hlo, hn]

theorem getLsbD_ones (j : ℕ) : (0xff : BitVec 32).getLsbD j = decide (j < 8) ∧
    (0xffff : BitVec 32).getLsbD j = decide (j < 16) := by
  by_cases hj : j < 32
  · revert j
    decide
  · rw [BitVec.getLsbD_of_ge _ _ (by omega), BitVec.getLsbD_of_ge _ _ (by omega)]
    constructor <;> exact (decide_eq_false (by omega)).symm

/-- The lower word of a double word, with zeros above. -/
theorem getLsbD_readWord (space : PciSpace) (d : PciAddress) {offset k i : ℕ} (hoff : offset < 256)
    (hk : k < 4) (hi : i < 8) :
    ((pciConfigReadWord space d (offset - offset % 4)).setWidth 32).getLsbD (8 * k + i) =
      if k < 2 then (space (d.base + (offset - offset % 4) + k)).getLsbD i else false := by
  have haligned : offset - offset % 4 < 256 := by omega
  have hmod : (offset - offset % 4) % 4 = 0 := by omega
  have heven : (offset - offset % 4) % 2 ^ 8 &&& 0x2 = 0 := by
    clear hoff hk hi
    generalize offset - offset % 4 = o at *
    revert o
    decide +kernel
  have hsel : selected (configAddr d (offset - offset % 4)) = d.base + (offset - offset % 4) := by
    rw [selected_configAddr d haligned, hmod, Nat.sub_zero]
  have h32 : 8 * k + i < 32 := by omega
  have h16 : 8 * k + i < 16 ↔ k < 2 := by omega
  rw [pciConfigReadWord, heven, if_neg (not_not.mpr rfl), pciConfigReadDword, hsel]
  simp only [BitVec.ushiftRight_zero, BitVec.getLsbD_setWidth, BitVec.getLsbD_and,
    (getLsbD_ones _).2, getLsbD_inl space _ hk hi, h16, h32]
  by_cases hk2 : k < 2 <;> simp [hk2]

/-- The bytes of the double word that is written back for `n` bytes at `offset`. -/
theorem byte_replaceBits {space : PciSpace} {d : PciAddress} {mask : BitVec 32} {value : BitVec 64}
    {offset n k : ℕ} (hoff : offset < 256) (hmask : ∀ j, mask.getLsbD j = decide (j < 8 * n))
    (hk : k < 4) :
    (replaceBits ((pciConfigReadWord space d (offset - offset % 4)).setWidth 32) mask
        (offset % 4 * 8) value).extractLsb' (8 * k) 8 =
      if offset % 4 ≤ k ∧ k < offset % 4 + n then value.extractLsb' (8 * (k - offset % 4)) 8
      else if k < 2 then space (d.base + (offset - offset % 4) + k) else 0 := by
  apply BitVec.eq_of_getLsbD_eq
  intro i hi
  rw [BitVec.getLsbD_extractLsb', getLsbD_replaceBits hmask _ (by omega),
    getLsbD_readWord space d hoff hk hi]
  by_cases hin : offset % 4 ≤ k ∧ k < offset % 4 + n
  · have hin' : offset % 4 * 8 ≤ 8 * k + i ∧ 8 * k + i < offset % 4 * 8 + 8 * n := by omega
    rw [if_pos hin, if_pos hin', BitVec.getLsbD_extractLsb']
    simp [hi, show 8 * k + i - offset % 4 * 8 = 8 * (k - offset % 4) + i by omega]
  · have hin' : ¬ (offset % 4 * 8 ≤ 8 * k + i ∧ 8 * k + i < offset % 4 * 8 + 8 * n) := by omega
    rw [if_neg hin, if_neg hin']
    by_cases hk2 : k < 2 <;> simp [hk2, hi]

/-! The accesses. -/

/-- A double word is written back in place of the one around `offset`. It is right when its bytes
are those of the value, where they are addressed, and the old ones elsewhere. -/
theorem writes_iff {w : ℕ} (space : PciSpace) (d : PciAddress) {offset n : ℕ} (value : BitVec w)
    (dword : BitVec 32) (old : ℕ → BitVec 8) (hoff : offset < 256) (hn : offset % 4 + n ≤ 4)
    (hbytes : ∀ k < 4, dword.extractLsb' (8 * k) 8 =
      if offset % 4 ≤ k ∧ k < offset % 4 + n then value.extractLsb' (8 * (k - offset % 4)) 8
      else old k) :
    Writes space (d.base + offset) n value
        (.ok, pciConfigWriteDword space d (offset - offset % 4) dword) ↔
      ∀ k < 4, ¬ (offset % 4 ≤ k ∧ k < offset % 4 + n) →
        old k = space (d.base + (offset - offset % 4) + k) := by
  have hsel : selected (configAddr d (offset - offset % 4)) = d.base + (offset - offset % 4) := by
    rw [selected_configAddr d (by omega), show (offset - offset % 4) % 4 = 0 by omega, Nat.sub_zero]
  rw [Writes, pciConfigWriteDword, hsel]
  simp only [true_and, outl]
  constructor
  · intro h k hk hout
    have hb := h (d.base + (offset - offset % 4) + k)
    rw [if_pos (by omega), if_neg (by omega), Nat.add_sub_cancel_left, hbytes k hk, if_neg hout] at hb
    exact hb
  · intro h b
    by_cases hb : d.base + (offset - offset % 4) ≤ b ∧ b < d.base + (offset - offset % 4) + 4
    · obtain ⟨k, rfl⟩ := Nat.exists_eq_add_of_le hb.1
      have hk : k < 4 := by omega
      rw [if_pos hb, Nat.add_sub_cancel_left, hbytes k hk]
      by_cases hin : offset % 4 ≤ k ∧ k < offset % 4 + n
      · rw [if_pos hin, if_pos (by omega)]
        congr 2
        omega
      · rw [if_neg hin, if_neg (by omega), h k hk hin]
    · rw [if_neg hb, if_neg (by omega)]

theorem byte_setWidth {w : ℕ} (value : BitVec w) {k : ℕ} (hk : k < 8) :
    (value.setWidth 64).extractLsb' (8 * k) 8 = value.extractLsb' (8 * k) 8 := by
  apply BitVec.eq_of_getLsbD_eq
  intro i hi
  have h64 : 8 * k + i < 64 := by omega
  simp [BitVec.getLsbD_extractLsb', h64]

/-- A read stores eight bytes. -/
theorem not_reads {space : PciSpace} {a n : ℕ} {value : BitVec 64} (hn : n < 8) :
    ¬ Reads space a n (.ok, storedBytes value) := by
  intro h
  have hlen := congrArg (fun r => r.2.length) h
  simp only [storedBytes, List.length_map, List.length_range] at hlen
  omega

section
variable {space : PciSpace} {d : PciAddress} {offset : ℕ}

/-- A byte or a word leaves zeros in the upper half of its double word. -/
theorem writes_narrow_iff {w n : ℕ} {mask : BitVec 32} (space : PciSpace) (d : PciAddress)
    (value : BitVec w) (hoff : offset < 256) (hn : offset % 4 + n ≤ 4)
    (hmask : ∀ j, mask.getLsbD j = decide (j < 8 * n)) :
    Writes space (d.base + offset) n value (.ok, pciConfigWriteDword space d (offset - offset % 4)
        (replaceBits ((pciConfigReadWord space d (offset - offset % 4)).setWidth 32) mask
          (offset % 4 * 8) (value.setWidth 64))) ↔
      ∀ k < 4, ¬ (offset % 4 ≤ k ∧ k < offset % 4 + n) → 2 ≤ k →
        space (d.base + (offset - offset % 4) + k) = 0 := by
  rw [writes_iff space d value _
    (fun k => if k < 2 then space (d.base + (offset - offset % 4) + k) else 0) hoff hn]
  · refine forall₂_congr fun k _ => forall_congr' fun _ => ?_
    by_cases hk : k < 2
    · simp [hk, Nat.not_le.mpr hk]
    · rw [if_neg hk]
      exact ⟨fun h _ => h.symm, fun h => (h (Nat.le_of_not_lt hk)).symm⟩
  · intro k hk
    rw [byte_replaceBits hoff hmask hk, byte_setWidth value (by omega)]

theorem write8_iff (value : BitVec 8) (hoff : offset < 256) :
    LikeMemory space d offset (.write8 value) ↔ (PciAccess.write8 value).UpperClear space d offset := by
  have h := writes_narrow_iff space d value hoff
    (show offset % 4 + 1 ≤ 4 by omega) fun j => (getLsbD_ones j).1
  refine h.trans ⟨fun h k hk hk4 hne => h k hk4 (by omega) hk, fun h k hk4 hout hk => ?_⟩
  exact h k hk hk4 (by omega)

theorem half_eq : ∀ offset < 256, 2 ∣ offset → offset &&& 0x2 = offset % 4 := by
  decide +kernel

theorem write16_iff (value : BitVec 16) (halign : 2 ∣ offset) (hoff : offset < 256) :
    LikeMemory space d offset (.write16 value) ↔
      (PciAccess.write16 value).UpperClear space d offset := by
  have h := writes_narrow_iff space d value hoff
    (show offset % 4 + 2 ≤ 4 by omega) fun j => (getLsbD_ones j).2
  rw [LikeMemory, uacpiKernelPciWrite16, uacpiKernelPciWrite, half_eq offset hoff halign]
  refine h.trans ⟨fun h hzero => ?_, fun h k hk4 hout hk => ?_⟩
  · rw [hzero, Nat.sub_zero] at h
    exact ⟨h 2 (by decide) (by decide) (by decide), h 3 (by decide) (by decide) (by decide)⟩
  · -- Only the lower word leaves the upper half out.
    have hzero : offset % 4 = 0 := by omega
    rw [hzero, Nat.sub_zero]
    obtain rfl | rfl : k = 2 ∨ k = 3 := by omega
    · exact (h hzero).1
    · exact (h hzero).2

theorem write32_likeMemory (value : BitVec 32) (halign : 4 ∣ offset) (hoff : offset < 256) :
    LikeMemory space d offset (.write32 value) := by
  have hzero : offset % 4 = 0 := Nat.mod_eq_zero_of_dvd halign
  have hvalue : (value.setWidth 64).setWidth 32 = value := by simp
  have h := writes_iff space d value value (fun _ => 0) hoff (show offset % 4 + 4 ≤ 4 by omega)
    fun k hk => by
      rw [if_pos (by omega), hzero, Nat.sub_zero]
  rw [hzero, Nat.sub_zero] at h
  rw [LikeMemory, uacpiKernelPciWrite32, uacpiKernelPciWrite, hvalue]
  exact h.mpr fun k hk hout => absurd ⟨Nat.zero_le k, by omega⟩ hout

/-- The accesses behave like memory exactly when they are writes that find zeros in the rest of the
upper half of their double word. -/
theorem likeMemory_iff {access : PciAccess} (halign : access.width ∣ offset) (hoff : offset < 256) :
    LikeMemory space d offset access ↔ access.UpperClear space d offset := by
  cases access with
  | read8 => exact iff_of_false (not_reads (by decide)) id
  | read16 => exact iff_of_false (not_reads (by decide)) id
  | read32 =>
    refine iff_of_false (fun h => ?_) id
    cases congrArg Prod.fst h
  | write8 value => exact write8_iff value hoff
  | write16 value => exact write16_iff value halign hoff
  | write32 value => exact iff_of_true (write32_likeMemory value halign hoff) trivial

end

def idSpace : PciSpace := fun a => if a < 2 then 0x86 else 0

theorem likeMemory_write16 :
    LikeMemory idSpace ⟨0, 0, 0, by decide, by decide, by decide⟩ 4 (.write16 0x107) :=
  (likeMemory_iff (by decide) (by decide)).mpr fun _ => ⟨rfl, rfl⟩

/-- Reading one byte stores eight. -/
theorem not_likeMemory_read8 :
    ¬ LikeMemory idSpace ⟨0, 0, 0, by decide, by decide, by decide⟩ 0 .read8 :=
  not_reads (by decide)

end BrickOS.ACPI
