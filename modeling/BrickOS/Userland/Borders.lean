import BrickOS.Userland.Sections

/-! The four sides of a section, where a window gets a border of one pixel. -/
namespace BrickOS.Userland

structure Framebuffer where
  width : UInt32
  height : UInt32

def maxDirtySections : ℕ := 0x400

inductive Rect where
  | dirty (secIdx : ℕ)
  | part (sec : Section)

inductive Side where
  | top | bottom | left | right

namespace Side

/-- `SECTION_EXPANDED_TOP` and so on. -/
def flag : Side → UInt8
  | .top => 0x1
  | .left => 0x2
  | .bottom => 0x4
  | .right => 0x8

def onEdge (fb : Framebuffer) (win visible : Section) : Side → Bool
  | .top => visible.y == win.y && win.y > 0
  | .bottom => visible.y + visible.height == win.y + win.height && win.y + win.height < fb.height
  | .left => visible.x == win.x && win.x > 0
  | .right => visible.x + visible.width == win.x + win.width && win.x + win.width < fb.width

def border (fb : Framebuffer) (visible : Section) : Side → Section
  | .top => ⟨visible.x, visible.y - 1, min visible.width (fb.width - visible.x), 1⟩
  | .bottom => ⟨visible.x, visible.y + visible.height,
      min visible.width (fb.width - visible.x), 1⟩
  | .left => ⟨visible.x - 1, visible.y, 1, min visible.height (fb.height - visible.y)⟩
  | .right => ⟨visible.x + visible.width, visible.y, 1,
      min visible.height (fb.height - visible.y)⟩

def aligned (dirty visible : Section) : Side → Bool
  | .top => dirty.y == visible.y
  | .bottom => dirty.y + dirty.height == visible.y + visible.height
  | .left => dirty.x == visible.x
  | .right => dirty.x + dirty.width == visible.x + visible.width

def enlarge (sec : Section) : Side → Section
  | .top => { sec with y := sec.y - 1, height := sec.height + 1 }
  | .bottom => { sec with height := sec.height + 1 }
  | .left => { sec with x := sec.x - 1, width := sec.width + 1 }
  | .right => { sec with width := sec.width + 1 }

def edge (sec : Section) : Side → ℕ
  | .top => sec.y.toNat
  | .bottom => sec.bottom
  | .left => sec.x.toNat
  | .right => sec.right

def Inside (fb : Framebuffer) (sec : Section) : Side → Prop
  | .top => 0 < sec.y.toNat
  | .bottom => sec.bottom < fb.height.toNat
  | .left => 0 < sec.x.toNat
  | .right => sec.right < fb.width.toNat

variable {fb : Framebuffer} {sec sec' win : Section} {side : Side} {i j : ℕ}

theorem Inside.congr (h : side.Inside fb sec) (hedge : side.edge sec' = side.edge sec) :
    side.Inside fb sec' := by
  cases side <;> simp only [Inside, edge] at * <;> omega

theorem onEdge_iff (hwin : win.Fits) (hsec : sec.Fits) :
    side.onEdge fb win sec = true ↔ side.edge sec = side.edge win ∧ side.Inside fb sec := by
  cases side <;>
    simp only [onEdge, edge, Inside, Bool.and_eq_true, beq_iff_eq, decide_eq_true_eq, gt_iff_lt,
      UInt32.lt_iff_toNat_lt, ← UInt32.toNat_inj, hwin.right_eq, hwin.bottom_eq, hsec.right_eq,
      hsec.bottom_eq, UInt32.toNat_zero]
  all_goals
    constructor
    · rintro ⟨hedge, hinside⟩
      exact ⟨hedge, by omega⟩
    · rintro ⟨hedge, hinside⟩
      exact ⟨hedge, by omega⟩

theorem aligned_iff (hsec' : sec'.Fits) (hsec : sec.Fits) :
    side.aligned sec' sec = true ↔ side.edge sec' = side.edge sec := by
  cases side <;>
    simp only [aligned, edge, beq_iff_eq, ← UInt32.toNat_inj, hsec'.right_eq, hsec'.bottom_eq,
      hsec.right_eq, hsec.bottom_eq]

theorem toNat_sub_one {u : UInt32} (h : 0 < u.toNat) : (u - 1).toNat = u.toNat - 1 :=
  UInt32.toNat_sub_of_le _ _ (UInt32.le_iff_toNat_le.mpr h)

theorem toNat_add_one {u : UInt32} (h : u.toNat + 1 < 2 ^ 32) : (u + 1).toNat = u.toNat + 1 :=
  toNat_add_of_lt h

/-- A section gets the row or column beside it, if there is one, and keeps its other edges. -/
theorem edge_enlarge (h : side.Inside fb sec) (hsec : sec.Within fb.width fb.height)
    (other : Side) : other.edge (side.enlarge sec) = match side, other with
      | .top, .top => sec.y.toNat - 1
      | .bottom, .bottom => sec.bottom + 1
      | .left, .left => sec.x.toNat - 1
      | .right, .right => sec.right + 1
      | _, other => other.edge sec := by
  have hwidth := fb.width.toNat_lt
  have hheight := fb.height.toNat_lt
  simp only [Section.Within, Section.right, Section.bottom] at hsec
  cases side <;> simp only [Inside, Section.right, Section.bottom] at h
  · have hy := toNat_sub_one h
    have hgrown : (sec.height + 1).toNat = sec.height.toNat + 1 := toNat_add_one (by omega)
    cases other <;> simp only [edge, enlarge, Section.right, Section.bottom]
    all_goals omega
  · have hgrown : (sec.height + 1).toNat = sec.height.toNat + 1 := toNat_add_one (by omega)
    cases other <;> simp only [edge, enlarge, Section.right, Section.bottom]
    all_goals omega
  · have hx := toNat_sub_one h
    have hgrown : (sec.width + 1).toNat = sec.width.toNat + 1 := toNat_add_one (by omega)
    cases other <;> simp only [edge, enlarge, Section.right, Section.bottom]
    all_goals omega
  · have hgrown : (sec.width + 1).toNat = sec.width.toNat + 1 := toNat_add_one (by omega)
    cases other <;> simp only [edge, enlarge, Section.right, Section.bottom]
    all_goals omega

theorem toNat_clamped {u v w : UInt32} (h : u.toNat + v.toNat ≤ w.toNat) :
    (min v (w - u)).toNat = v.toNat := by
  rw [toNat_min, UInt32.toNat_sub_of_le _ _ (UInt32.le_iff_toNat_le.mpr (by omega))]
  omega

theorem has_iff_edge (sec : Section) : sec.Has i j ↔ (left.edge sec ≤ i ∧ i < right.edge sec) ∧
    top.edge sec ≤ j ∧ j < bottom.edge sec := Iff.rfl

theorem has_border (h : side.Inside fb sec) (hsec : sec.Within fb.width fb.height) :
    (side.border fb sec).Has i j ↔ (side.enlarge sec).Has i j ∧ ¬sec.Has i j := by
  have hedge := edge_enlarge h hsec
  have hwidth : (min sec.width (fb.width - sec.x)).toNat = sec.width.toNat := toNat_clamped hsec.1
  have hheight : (min sec.height (fb.height - sec.y)).toNat = sec.height.toNat :=
    toNat_clamped hsec.2
  have hright := hsec.fits.right_eq
  have hbottom := hsec.fits.bottom_eq
  rw [has_iff_edge (side.enlarge sec), hedge, hedge, hedge, hedge]
  simp only [Section.right, Section.bottom] at hright hbottom
  cases side <;>
    simp only [Section.Has, border, edge, Section.right, Section.bottom, UInt32.toNat_one]
  · rw [toNat_sub_one h]
    simp only [Inside] at h
    omega
  · omega
  · rw [toNat_sub_one h]
    simp only [Inside] at h
    omega
  · omega

theorem has_enlarge (h : side.Inside fb sec) (hsec : sec.Within fb.width fb.height)
    (hhas : sec.Has i j) : (side.enlarge sec).Has i j := by
  have hedge := edge_enlarge h hsec
  rw [has_iff_edge] at hhas ⊢
  rw [hedge, hedge, hedge, hedge]
  cases side <;> simp only [edge] at hhas ⊢ <;> omega

theorem within_enlarge (h : side.Inside fb sec) (hsec : sec.Within fb.width fb.height) :
    (side.enlarge sec).Within fb.width fb.height := by
  have hedge := edge_enlarge h hsec
  show right.edge (side.enlarge sec) ≤ _ ∧ bottom.edge (side.enlarge sec) ≤ _
  rw [hedge, hedge]
  obtain ⟨hright, hbottom⟩ := hsec
  cases side <;> simp only [edge, Inside] at h ⊢ <;> omega

theorem within_border (h : side.Inside fb sec) (hsec : sec.Within fb.width fb.height) :
    (side.border fb sec).Within fb.width fb.height := by
  have hright := hsec.fits.right_eq
  have hbottom := hsec.fits.bottom_eq
  obtain ⟨hw, hh⟩ := hsec
  have hwidth : (min sec.width (fb.width - sec.x)).toNat = sec.width.toNat := toNat_clamped hw
  have hheight : (min sec.height (fb.height - sec.y)).toNat = sec.height.toNat := toNat_clamped hh
  rw [Section.Within]
  cases side <;> simp only [Inside] at h <;>
    simp only [border, Section.right, Section.bottom, hwidth, hheight, UInt32.toNat_one] at *
  · rw [toNat_sub_one h]
    omega
  · omega
  · rw [toNat_sub_one h]
    omega
  · omega

def InFrame (win sec : Section) : Prop :=
  (win.x.toNat ≤ left.edge sec + 1 ∧ right.edge sec ≤ win.right + 1) ∧
    win.y.toNat ≤ top.edge sec + 1 ∧ bottom.edge sec ≤ win.bottom + 1

theorem InFrame.enlarge (hframe : InFrame win sec) (h : side.Inside fb sec)
    (hsec : sec.Within fb.width fb.height) (hwin : side.edge sec = side.edge win) :
    InFrame win (side.enlarge sec) := by
  have hedge := edge_enlarge h hsec
  rw [InFrame, hedge, hedge, hedge, hedge]
  rw [InFrame] at hframe
  cases side <;> simp only [edge] at hframe hwin ⊢ <;> omega

theorem InFrame.near (hframe : InFrame win sec) (h : sec.Has i j) : win.Near i j := by
  rw [has_iff_edge] at h
  rw [InFrame] at hframe
  rw [Section.Near]
  omega

theorem not_has_of_enlarge (h : side.Inside fb sec) (hsec : sec.Within fb.width fb.height)
    (hwin : side.edge sec = side.edge win) (hhas : (side.enlarge sec).Has i j)
    (hnot : ¬sec.Has i j) : ¬win.Has i j := by
  have hedge := edge_enlarge h hsec
  rw [has_iff_edge, hedge, hedge, hedge, hedge] at hhas
  rw [has_iff_edge] at hnot ⊢
  cases side <;> simp only [edge] at hhas hnot hwin ⊢ <;> omega

end Side

end BrickOS.Userland
