import BrickOS.Basic

/-! Sections of the screen: what two have in common, and how one is split around another. -/
namespace BrickOS.Userland

structure Section where
  x : UInt32
  y : UInt32
  width : UInt32
  height : UInt32
deriving DecidableEq, Inhabited

def validSection (sec : Section) : Bool := !(sec.width == 0 || sec.height == 0)

def sectionsOverlapping (a b : Section) : Bool :=
  if a.x + a.width ≤ b.x then false
  else if b.x + b.width ≤ a.x then false
  else if a.y + a.height ≤ b.y then false
  else if b.y + b.height ≤ a.y then false
  else true

def sectionContains (container containee : Section) : Bool :=
  container.x ≤ containee.x && container.y ≤ containee.y &&
    container.x + container.width ≥ containee.x + containee.width &&
    container.y + container.height ≥ containee.y + containee.height

def intersection (a b : Section) : Section :=
  if sectionsOverlapping a b then
    let x := max a.x b.x
    let y := max a.y b.y
    let right := min (a.x + a.width) (b.x + b.width)
    let bottom := min (a.y + a.height) (b.y + b.height)
    ⟨x, y, right - x, bottom - y⟩
  else ⟨0, 0, 0, 0⟩

def splitSection (sec center : Section) : List Section :=
  [center,
    if sec.x < center.x then ⟨sec.x, sec.y, center.x - sec.x, sec.height⟩ else ⟨0, 0, 0, 0⟩,
    if sec.y < center.y then ⟨center.x, sec.y, center.width, center.y - sec.y⟩ else ⟨0, 0, 0, 0⟩,
    if sec.x + sec.width > center.x + center.width then
      ⟨center.x + center.width, sec.y, sec.x + sec.width - (center.x + center.width), sec.height⟩
    else ⟨0, 0, 0, 0⟩,
    if sec.y + sec.height > center.y + center.height then
      ⟨center.x, center.y + center.height, center.width,
        sec.y + sec.height - (center.y + center.height)⟩
    else ⟨0, 0, 0, 0⟩]

namespace Section

def right (sec : Section) : ℕ := sec.x.toNat + sec.width.toNat

def bottom (sec : Section) : ℕ := sec.y.toNat + sec.height.toNat

def Has (sec : Section) (i j : ℕ) : Prop :=
  (sec.x.toNat ≤ i ∧ i < sec.right) ∧ sec.y.toNat ≤ j ∧ j < sec.bottom

def Near (sec : Section) (i j : ℕ) : Prop :=
  (sec.x.toNat ≤ i + 1 ∧ i ≤ sec.right) ∧ sec.y.toNat ≤ j + 1 ∧ j ≤ sec.bottom

def Fits (sec : Section) : Prop := sec.right < 2 ^ 32 ∧ sec.bottom < 2 ^ 32

def Within (sec : Section) (width height : UInt32) : Prop :=
  sec.right ≤ width.toNat ∧ sec.bottom ≤ height.toNat

instance (sec : Section) (i j : ℕ) : Decidable (sec.Has i j) :=
  inferInstanceAs (Decidable (_ ∧ _))

instance (sec : Section) (i j : ℕ) : Decidable (sec.Near i j) :=
  inferInstanceAs (Decidable (_ ∧ _))

instance (sec : Section) : Decidable sec.Fits := inferInstanceAs (Decidable (_ ∧ _))

instance (sec : Section) (width height : UInt32) : Decidable (sec.Within width height) :=
  inferInstanceAs (Decidable (_ ∧ _))

end Section

section

variable {a b : Section} {i j : ℕ}

theorem toNat_add_of_lt {u v : UInt32} (h : u.toNat + v.toNat < 2 ^ 32) :
    (u + v).toNat = u.toNat + v.toNat := by
  rw [UInt32.toNat_add, Nat.mod_eq_of_lt h]

theorem add_toNat_sub {u v : UInt32} (h : u.toNat ≤ v.toNat) :
    u.toNat + (v - u).toNat = v.toNat := by
  rw [UInt32.toNat_sub_of_le _ _ (UInt32.le_iff_toNat_le.mpr h)]
  omega

theorem toNat_max (u v : UInt32) : (max u v).toNat = max u.toNat v.toNat := by
  show (if u ≤ v then v else u).toNat = _
  split <;> rename_i h <;> rw [UInt32.le_iff_toNat_le] at h <;> omega

theorem toNat_min (u v : UInt32) : (min u v).toNat = min u.toNat v.toNat := by
  show (if u ≤ v then u else v).toNat = _
  split <;> rename_i h <;> rw [UInt32.le_iff_toNat_le] at h <;> omega

theorem Section.Fits.right_eq (h : a.Fits) : (a.x + a.width).toNat = a.right :=
  toNat_add_of_lt h.1

theorem Section.Fits.bottom_eq (h : a.Fits) : (a.y + a.height).toNat = a.bottom :=
  toNat_add_of_lt h.2

theorem Section.Within.fits {width height : UInt32} (h : a.Within width height) : a.Fits :=
  ⟨lt_of_le_of_lt h.1 width.toNat_lt, lt_of_le_of_lt h.2 height.toNat_lt⟩

theorem validSection_iff : validSection a = true ↔ a.x.toNat < a.right ∧ a.y.toNat < a.bottom := by
  have hwidth : a.width = 0 ↔ a.width.toNat = 0 := by
    rw [← UInt32.toNat_inj]
    rfl
  have hheight : a.height = 0 ↔ a.height.toNat = 0 := by
    rw [← UInt32.toNat_inj]
    rfl
  simp only [validSection, Bool.not_eq_true', Bool.or_eq_false_iff, beq_eq_false_iff_ne, ne_eq,
    hwidth, hheight, Section.right, Section.bottom]
  omega

theorem sectionsOverlapping_iff (ha : a.Fits) (hb : b.Fits) :
    sectionsOverlapping a b = true ↔ (b.x.toNat < a.right ∧ a.x.toNat < b.right) ∧
      b.y.toNat < a.bottom ∧ a.y.toNat < b.bottom := by
  simp only [sectionsOverlapping, UInt32.le_iff_toNat_le, ha.right_eq, hb.right_eq, ha.bottom_eq,
    hb.bottom_eq]
  split_ifs <;> simp <;> omega

structure Section.IsMeet (m a b : Section) : Prop where
  x : m.x.toNat = max a.x.toNat b.x.toNat
  right : m.right = min a.right b.right
  y : m.y.toNat = max a.y.toNat b.y.toNat
  bottom : m.bottom = min a.bottom b.bottom

theorem isMeet_intersection (ha : a.Fits) (hb : b.Fits) (h : sectionsOverlapping a b = true) :
    (intersection a b).IsMeet a b := by
  have hover := (sectionsOverlapping_iff ha hb).mp h
  have hright : a.x.toNat ≤ a.right ∧ b.x.toNat ≤ b.right :=
    ⟨Nat.le_add_right _ _, Nat.le_add_right _ _⟩
  have hbottom : a.y.toNat ≤ a.bottom ∧ b.y.toNat ≤ b.bottom :=
    ⟨Nat.le_add_right _ _, Nat.le_add_right _ _⟩
  have hmeet : intersection a b = ⟨max a.x b.x, max a.y b.y,
      min (a.x + a.width) (b.x + b.width) - max a.x b.x,
      min (a.y + a.height) (b.y + b.height) - max a.y b.y⟩ := if_pos h
  rw [hmeet]
  constructor
  · exact toNat_max _ _
  · show (max a.x b.x).toNat + (_ - _ : UInt32).toNat = _
    rw [add_toNat_sub, toNat_min, ha.right_eq, hb.right_eq]
    rw [toNat_max, toNat_min, ha.right_eq, hb.right_eq]
    omega
  · exact toNat_max _ _
  · show (max a.y b.y).toNat + (_ - _ : UInt32).toNat = _
    rw [add_toNat_sub, toNat_min, ha.bottom_eq, hb.bottom_eq]
    rw [toNat_max, toNat_min, ha.bottom_eq, hb.bottom_eq]
    omega

theorem intersection_of_valid (ha : a.Fits) (hb : b.Fits)
    (h : validSection (intersection a b) = true) : (intersection a b).IsMeet a b := by
  apply isMeet_intersection ha hb
  by_contra hnot
  rw [intersection, if_neg hnot] at h
  exact absurd h (by decide)

theorem Section.IsMeet.has_iff {m : Section} (h : m.IsMeet a b) :
    m.Has i j ↔ a.Has i j ∧ b.Has i j := by
  simp only [Section.Has, h.x, h.right, h.y, h.bottom]
  omega

theorem Section.IsMeet.within {m : Section} {width height : UInt32} (h : m.IsMeet a b)
    (hb : b.Within width height) : m.Within width height := by
  obtain ⟨hright, hbottom⟩ := hb
  rw [Section.Within, h.right, h.bottom]
  omega

theorem not_has_of_not_valid (ha : a.Fits) (hb : b.Fits)
    (h : ¬validSection (intersection a b) = true) (hi : a.Has i j) : ¬b.Has i j := by
  intro hj
  apply h
  have hover : sectionsOverlapping a b = true := by
    rw [sectionsOverlapping_iff ha hb]
    simp only [Section.Has] at hi hj
    omega
  have hmeet := isMeet_intersection ha hb hover
  have hhas := hmeet.has_iff.mpr ⟨hi, hj⟩
  rw [validSection_iff]
  exact ⟨lt_of_le_of_lt hhas.1.1 hhas.1.2, lt_of_le_of_lt hhas.2.1 hhas.2.2⟩

end

section Split

variable {sec center part : Section} {i j : ℕ}

theorem not_has_zero : ¬Section.Has ⟨0, 0, 0, 0⟩ i j := fun h => absurd h.1.2 (Nat.not_lt_zero i)

inductive IsPart (sec center : Section) : Section → Prop
  | none : IsPart sec center ⟨0, 0, 0, 0⟩
  | left {part : Section} (hx : part.x = sec.x) (hright : part.right = center.x.toNat)
      (hy : part.y = sec.y) (hbottom : part.bottom = sec.bottom) : IsPart sec center part
  | top {part : Section} (hx : part.x = center.x) (hright : part.right = center.right)
      (hy : part.y = sec.y) (hbottom : part.bottom = center.y.toNat) : IsPart sec center part
  | right {part : Section} (hx : part.x.toNat = center.right) (hright : part.right = sec.right)
      (hy : part.y = sec.y) (hbottom : part.bottom = sec.bottom) : IsPart sec center part
  | bottom {part : Section} (hx : part.x = center.x) (hright : part.right = center.right)
      (hy : part.y.toNat = center.bottom) (hbottom : part.bottom = sec.bottom) :
      IsPart sec center part

theorem isPart_of_mem_splitSection (hsec : sec.Fits) (hcenter : center.Fits)
    (h : part ∈ (splitSection sec center).tail) : IsPart sec center part := by
  simp only [splitSection, List.tail_cons, List.mem_cons, List.not_mem_nil, or_false,
    UInt32.lt_iff_toNat_lt, gt_iff_lt, hsec.right_eq, hcenter.right_eq, hsec.bottom_eq,
    hcenter.bottom_eq] at h
  rcases h with rfl | rfl | rfl | rfl
  · split_ifs with hlt
    · exact .left rfl (add_toNat_sub hlt.le) rfl rfl
    · exact .none
  · split_ifs with hlt
    · exact .top rfl rfl rfl (add_toNat_sub hlt.le)
    · exact .none
  · split_ifs with hlt
    · refine .right hcenter.right_eq ?_ rfl rfl
      rw [← hsec.right_eq]
      apply add_toNat_sub
      rw [hsec.right_eq, hcenter.right_eq]
      exact hlt.le
    · exact .none
  · split_ifs with hlt
    · refine .bottom rfl rfl hcenter.bottom_eq ?_
      rw [← hsec.bottom_eq]
      apply add_toNat_sub
      rw [hsec.bottom_eq, hcenter.bottom_eq]
      exact hlt.le
    · exact .none

theorem IsPart.not_has_center (h : IsPart sec center part) (hpart : part.Has i j) :
    ¬center.Has i j := by
  cases h with
  | none => exact absurd hpart not_has_zero
  | left hx hright hy hbottom => simp only [Section.Has] at hpart ⊢; omega
  | top hx hright hy hbottom => simp only [Section.Has] at hpart ⊢; omega
  | right hx hright hy hbottom => simp only [Section.Has] at hpart ⊢; omega
  | bottom hx hright hy hbottom => simp only [Section.Has] at hpart ⊢; omega

theorem IsPart.within {width height : UInt32} (h : IsPart sec center part)
    (hsec : sec.Within width height) (hcenter : center.Within width height) :
    part.Within width height := by
  have hx : center.x.toNat ≤ center.right := Nat.le_add_right _ _
  have hy : center.y.toNat ≤ center.bottom := Nat.le_add_right _ _
  cases h with
  | none => exact ⟨Nat.zero_le _, Nat.zero_le _⟩
  | left hx hright hy hbottom => simp only [Section.Within] at hsec hcenter ⊢; omega
  | top hx hright hy hbottom => simp only [Section.Within] at hsec hcenter ⊢; omega
  | right hx hright hy hbottom => simp only [Section.Within] at hsec hcenter ⊢; omega
  | bottom hx hright hy hbottom => simp only [Section.Within] at hsec hcenter ⊢; omega

theorem has_ite_iff {c : Prop} [Decidable c] :
    (if c then part else ⟨0, 0, 0, 0⟩).Has i j ↔ c ∧ part.Has i j := by
  by_cases hc : c
  · rw [if_pos hc]
    exact (and_iff_right hc).symm
  · rw [if_neg hc]
    exact iff_of_false not_has_zero fun h => hc h.1

/-- The pixels from one edge on and before another, when there are any. -/
theorem between_iff {u v : UInt32} :
    (u.toNat < v.toNat ∧ u.toNat ≤ i ∧ i < u.toNat + (v - u).toNat) ↔
      u.toNat ≤ i ∧ i < v.toNat := by
  by_cases hlt : u.toNat < v.toNat
  · rw [add_toNat_sub hlt.le]
    exact and_iff_right hlt
  · omega

/-- The pixels of each part of a split, whether the part is there or not. -/
theorem splitSection_eq (hsec : sec.Fits) (hcenter : center.Fits) : ∃ left top right bottom,
    splitSection sec center = [center, left, top, right, bottom] ∧
      (∀ i j, left.Has i j ↔ (sec.x.toNat ≤ i ∧ i < center.x.toNat) ∧
        sec.y.toNat ≤ j ∧ j < sec.bottom) ∧
      (∀ i j, top.Has i j ↔ (center.x.toNat ≤ i ∧ i < center.right) ∧
        sec.y.toNat ≤ j ∧ j < center.y.toNat) ∧
      (∀ i j, right.Has i j ↔ (center.right ≤ i ∧ i < sec.right) ∧
        sec.y.toNat ≤ j ∧ j < sec.bottom) ∧
      ∀ i j, bottom.Has i j ↔ (center.x.toNat ≤ i ∧ i < center.right) ∧
        center.bottom ≤ j ∧ j < sec.bottom := by
  refine ⟨_, _, _, _, rfl, ?_, ?_, ?_, ?_⟩
  · intro i j
    rw [has_ite_iff, UInt32.lt_iff_toNat_lt]
    exact and_assoc.symm.trans (and_congr_left' between_iff)
  · intro i j
    rw [has_ite_iff, UInt32.lt_iff_toNat_lt]
    exact and_left_comm.trans (and_congr_right' between_iff)
  · intro i j
    rw [has_ite_iff, gt_iff_lt, UInt32.lt_iff_toNat_lt, ← hsec.right_eq, ← hcenter.right_eq]
    exact and_assoc.symm.trans (and_congr_left' between_iff)
  · intro i j
    rw [has_ite_iff, gt_iff_lt, UInt32.lt_iff_toNat_lt, ← hsec.bottom_eq, ← hcenter.bottom_eq]
    exact and_left_comm.trans (and_congr_right' between_iff)

theorem exists_mem_splitSection (hsec : sec.Fits) (hcenter : center.Fits) (h : sec.Has i j)
    (hnot : ¬center.Has i j) : ∃ part ∈ (splitSection sec center).tail, part.Has i j := by
  obtain ⟨left, top, right, bottom, heq, hleft, htop, hright, hbottom⟩ :=
    splitSection_eq hsec hcenter
  rw [heq]
  simp only [List.tail_cons, List.mem_cons, List.not_mem_nil, or_false, exists_eq_or_imp,
    exists_eq_left, hleft, htop, hright, hbottom]
  simp only [Section.Has] at h hnot
  omega

def Section.Disjoint (a b : Section) : Prop := ∀ i j, a.Has i j → ¬b.Has i j

/-- The parts make up the section `a` without overlapping, and the first is what it has in common
with `b`. -/
structure IsPartition (parts : List Section) (a b : Section) : Prop where
  disjoint : parts.Pairwise Section.Disjoint
  cover : ∀ i j, (∃ part ∈ parts, part.Has i j) ↔ a.Has i j
  first : ∃ part, parts[0]? = some part ∧ ∀ i j, part.Has i j ↔ a.Has i j ∧ b.Has i j

theorem Section.IsMeet.isPartition {m a b : Section} (h : m.IsMeet a b) (ha : a.Fits) :
    IsPartition (splitSection a m) a b := by
  have hm : m.Fits := by
    obtain ⟨hright, hbottom⟩ := ha
    rw [Section.Fits, h.right, h.bottom]
    omega
  have hx : m.x.toNat ≤ m.right := Nat.le_add_right _ _
  have hy : m.y.toNat ≤ m.bottom := Nat.le_add_right _ _
  have hmx := h.x
  have hmy := h.y
  have hmright := h.right
  have hmbottom := h.bottom
  obtain ⟨left, top, right, bottom, heq, hleft, htop, hright, hbottom⟩ := splitSection_eq ha hm
  rw [heq]
  constructor
  · simp only [List.pairwise_cons, List.mem_cons, List.not_mem_nil, or_false, forall_eq_or_imp,
      forall_eq, IsEmpty.forall_iff, implies_true, List.Pairwise.nil, and_true, Section.Disjoint,
      hleft, htop, hright, hbottom]
    simp only [Section.Has]
    refine ⟨⟨?_, ?_, ?_, ?_⟩, ⟨?_, ?_, ?_⟩, ⟨?_, ?_⟩, ?_⟩ <;> (intro i j; omega)
  · intro i j
    simp only [List.mem_cons, List.not_mem_nil, or_false, exists_eq_or_imp, exists_eq_left, hleft,
      htop, hright, hbottom]
    simp only [Section.Has]
    omega
  · exact ⟨m, rfl, fun i j => h.has_iff⟩

end Split

theorem sectionsOverlapping_iff_not_disjoint {a b : Section} (ha : validSection a = true)
    (hb : validSection b = true) (hafits : a.Fits) (hbfits : b.Fits) :
    sectionsOverlapping a b = true ↔ ¬a.Disjoint b := by
  have haedges := validSection_iff.mp ha
  have hbedges := validSection_iff.mp hb
  rw [sectionsOverlapping_iff hafits hbfits]
  simp only [Section.Disjoint, not_forall, not_not, exists_prop, Section.Has]
  constructor
  · intro hover
    refine ⟨max a.x.toNat b.x.toNat, max a.y.toNat b.y.toNat, ?_⟩
    omega
  · intro hcommon
    obtain ⟨i, j, hi, hj⟩ := hcommon
    omega

/-- Sections that overlap are split into a partition, and others have an empty intersection. -/
theorem splitSection_partition {a b : Section} (ha : validSection a = true)
    (hb : validSection b = true) (hafits : a.Fits) (hbfits : b.Fits) :
    (sectionsOverlapping a b = true ↔ ¬a.Disjoint b) ∧
      (¬a.Disjoint b → IsPartition (splitSection a (intersection a b)) a b) ∧
      (a.Disjoint b → validSection (intersection a b) = false) := by
  have hoverlapping := sectionsOverlapping_iff_not_disjoint ha hb hafits hbfits
  refine ⟨hoverlapping, fun hover => ?_, fun hdisjoint => ?_⟩
  · have hmeet := isMeet_intersection hafits hbfits (hoverlapping.mpr hover)
    exact hmeet.isPartition hafits
  · rw [intersection, if_neg fun h => hoverlapping.mp h hdisjoint]
    rfl

/-- The second window covers the lower right corner of the first. -/
theorem splitSection_partition_corner : IsPartition
    (splitSection ⟨0, 0, 4, 3⟩ (intersection ⟨0, 0, 4, 3⟩ ⟨2, 1, 5, 5⟩)) ⟨0, 0, 4, 3⟩ ⟨2, 1, 5, 5⟩ :=
  (splitSection_partition (by decide) (by decide) (by decide) (by decide)).2.1
    fun h => h 2 1 (by decide) (by decide)

end BrickOS.Userland
