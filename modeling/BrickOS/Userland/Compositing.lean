import BrickOS.Lib.Run
import BrickOS.Userland.Borders

/-! The window manager's drawing of a part of the screen, window by window from the top. -/
namespace BrickOS.Userland
open BrickOS.Lib

structure Window where
  sec : Section
  comittedBuffer : ℕ → ℕ → UInt32

structure Compositor where
  backBuffer : ℕ → ℕ → UInt32
  dirtySections : List Section
  dirtySectionExpanded : ℕ → UInt8

def borderColour : UInt32 := 0xAAAAAAAA

def setRow (buffer : ℕ → ℕ → UInt32) (x y width : ℕ) (row : ℕ → UInt32) : ℕ → ℕ → UInt32 :=
  fun i j => if j = y ∧ x ≤ i ∧ i < x + width then row (i - x) else buffer i j

def setRows (buffer : ℕ → ℕ → UInt32) (sec : Section) (rows : ℕ → ℕ → UInt32) :
    ℕ → ℕ → UInt32 :=
  (List.range sec.height.toNat).foldl (fun buffer y =>
    setRow buffer sec.x.toNat (sec.y.toNat + y) sec.width.toNat fun x => rows x y) buffer

namespace Compositor

def dirtySection (s : Compositor) (secIdx : ℕ) : Section := s.dirtySections.getD secIdx default

def setSectionExpanded (s : Compositor) (idx : ℕ) (expanded : UInt8) : Compositor :=
  if idx ≥ maxDirtySections then s
  else { s with dirtySectionExpanded :=
    Function.update s.dirtySectionExpanded idx (s.dirtySectionExpanded idx ||| expanded) }

/-- A dirty section gets one more row or column, once on each side. -/
def expandDirty (s : Compositor) (secIdx : ℕ) (visible : Section) (side : Side) : Compositor :=
  if side.aligned (s.dirtySection secIdx) visible &&
      s.dirtySectionExpanded secIdx &&& side.flag == 0 then
    let dirtySec := s.dirtySection secIdx
    let dirtySections := s.dirtySections.set secIdx (side.enlarge dirtySec)
    { s with dirtySections }.setSectionExpanded secIdx side.flag
  else s

def drawBorder (fb : Framebuffer) (win : Window) (secIdx : ℕ) (r : Section × Compositor)
    (side : Side) : Section × Compositor :=
  if side.onEdge fb win.sec r.1 then
    let s : Compositor := { r.2 with
      backBuffer := setRows r.2.backBuffer (side.border fb r.1) fun _ _ => borderColour }
    (side.enlarge r.1, s.expandDirty secIdx r.1 side)
  else r

def findContainingDirtySectionIdx (s : Compositor) (sec : Section) : Option ℕ :=
  s.dirtySections.findIdx? (sectionContains · sec)

def drawVisibleWindowDecorations (fb : Framebuffer) (win : Window) (visible : Section)
    (s : Compositor) : Section × Compositor :=
  match s.findContainingDirtySectionIdx visible with
  | none => (visible, s)
  | some secIdx =>
    if validSection (s.dirtySection secIdx) then
      [.top, .bottom, .left, .right].foldl (drawBorder fb win secIdx) (visible, s)
    else (visible, s)

def drawBackgroundSection (backgroundImage : ℕ → ℕ → UInt32) (sec : Section) (s : Compositor) :
    Compositor :=
  { s with backBuffer := setRows s.backBuffer sec fun x y =>
      backgroundImage (sec.x.toNat + x) (sec.y.toNat + y) }

def partialWindowCopy (win : Window) (sec : Section) (s : Compositor) : Compositor :=
  if sec.x < win.sec.x || sec.y < win.sec.y ||
      sec.x + sec.width > win.sec.x + win.sec.width ||
      sec.y + sec.height > win.sec.y + win.sec.height then s
  else
    let yOffset := sec.y - win.sec.y
    let xOffset := sec.x - win.sec.x
    { s with backBuffer := setRows s.backBuffer sec fun x y =>
        win.comittedBuffer (xOffset.toNat + x) (yOffset.toNat + y) }

end Compositor

def Rect.get (s : Compositor) : Rect → Section
  | .dirty secIdx => s.dirtySection secIdx
  | .part sec => sec

/-- The windows from `win` on, downwards. A dirty section that the decorations have expanded is
split as it then is. -/
def updateRect (fb : Framebuffer) (backgroundImage : ℕ → ℕ → UInt32) :
    List Window → Rect → Compositor → Compositor
  | [], rect, s => s.drawBackgroundSection backgroundImage (rect.get s)
  | win :: next, rect, s =>
    let originalIntersec := intersection win.sec (rect.get s)
    if validSection originalIntersec then
      let (visibleIntersection, s) := s.drawVisibleWindowDecorations fb win originalIntersec
      let splitSec := splitSection (rect.get s) visibleIntersection
      splitSec.tail.foldl (fun s sec =>
          if validSection sec then updateRect fb backgroundImage next (.part sec) s else s)
        (s.partialWindowCopy win originalIntersec)
    else updateRect fb backgroundImage next rect s

theorem foldl_setRow (buffer : ℕ → ℕ → UInt32) (x y width n : ℕ) (rows : ℕ → ℕ → UInt32)
    (i j : ℕ) :
    (List.range n).foldl (fun buffer k => setRow buffer x (y + k) width fun x => rows x k)
        buffer i j =
      if (x ≤ i ∧ i < x + width) ∧ y ≤ j ∧ j < y + n then rows (i - x) (j - y)
      else buffer i j := by
  induction n with
  | zero => rw [if_neg (by omega)]; rfl
  | succ n ih =>
    rw [List.range_succ, List.foldl_append, List.foldl_cons, List.foldl_nil, setRow, ih]
    by_cases hrow : j = y + n ∧ x ≤ i ∧ i < x + width
    · rw [if_pos hrow, if_pos (by omega), hrow.1, Nat.add_sub_cancel_left]
    · rw [if_neg hrow]
      by_cases hbefore : (x ≤ i ∧ i < x + width) ∧ y ≤ j ∧ j < y + n
      · rw [if_pos hbefore, if_pos (by omega)]
      · rw [if_neg hbefore, if_neg (by omega)]

theorem setRows_apply (buffer : ℕ → ℕ → UInt32) (sec : Section) (rows : ℕ → ℕ → UInt32)
    (i j : ℕ) : setRows buffer sec rows i j =
      if sec.Has i j then rows (i - sec.x.toNat) (j - sec.y.toNat) else buffer i j :=
  foldl_setRow buffer sec.x.toNat sec.y.toNat sec.width.toNat sec.height.toNat rows i j

namespace Compositor

variable {fb : Framebuffer} {win : Window} {visible : Section} {s : Compositor} {i j : ℕ}

@[simp] theorem backBuffer_expandDirty (s : Compositor) (secIdx : ℕ) (visible : Section)
    (side : Side) : (s.expandDirty secIdx visible side).backBuffer = s.backBuffer := by
  unfold expandDirty setSectionExpanded
  split_ifs <;> rfl

def DirtyGrows (fb : Framebuffer) (s t : Compositor) : Prop :=
  ∀ k, (s.dirtySection k).Within fb.width fb.height →
    (t.dirtySection k).Within fb.width fb.height ∧
      ∀ i j, (s.dirtySection k).Has i j → (t.dirtySection k).Has i j

theorem DirtyGrows.refl (fb : Framebuffer) (s : Compositor) : DirtyGrows fb s s :=
  fun _ h => ⟨h, fun _ _ hhas => hhas⟩

theorem DirtyGrows.trans {t u : Compositor} (h : DirtyGrows fb s t) (h' : DirtyGrows fb t u) :
    DirtyGrows fb s u := by
  intro k hk
  obtain ⟨ht, hhas⟩ := h k hk
  obtain ⟨hu, hhas'⟩ := h' k ht
  exact ⟨hu, fun i j hij => hhas' i j (hhas i j hij)⟩

theorem dirtySection_setSectionExpanded (s : Compositor) (idx k : ℕ) (expanded : UInt8) :
    (s.setSectionExpanded idx expanded).dirtySection k = s.dirtySection k := by
  unfold setSectionExpanded
  split_ifs <;> rfl

theorem dirtyGrows_expandDirty {side : Side} (secIdx : ℕ) (h : side.Inside fb visible)
    (hvisible : visible.Within fb.width fb.height) :
    DirtyGrows fb s (s.expandDirty secIdx visible side) := by
  intro k hk
  unfold expandDirty
  split_ifs with hcond
  · rw [dirtySection_setSectionExpanded]
    by_cases hset : k = secIdx ∧ secIdx < s.dirtySections.length
    · obtain ⟨rfl, hlt⟩ := hset
      have hgrown : Compositor.dirtySection { s with
          dirtySections := s.dirtySections.set k (side.enlarge (s.dirtySection k)) } k =
          side.enlarge (s.dirtySection k) := by
        simp [dirtySection, hlt]
      have hedge : side.edge (s.dirtySection k) = side.edge visible :=
        (Side.aligned_iff hk.fits hvisible.fits).mp (Bool.and_eq_true_iff.mp hcond).1
      have hinside := h.congr hedge
      rw [hgrown]
      exact ⟨Side.within_enlarge hinside hk, fun i j hhas => Side.has_enlarge hinside hk hhas⟩
    · have hsame : Compositor.dirtySection { s with
          dirtySections := s.dirtySections.set secIdx (side.enlarge (s.dirtySection secIdx)) } k =
          s.dirtySection k := by
        simp only [dirtySection, List.getD_eq_getElem?_getD, List.getElem?_set]
        split_ifs with hk hlt
        · exact absurd ⟨hk.symm, hlt⟩ hset
        · rw [hk] at hlt
          rw [List.getElem?_eq_none (Nat.le_of_not_lt hlt)]
        · rfl
      rw [hsame]
      exact ⟨hk, fun i j hhas => hhas⟩
  · exact ⟨hk, fun i j hhas => hhas⟩

/-- The visible part of a window after some of its borders are drawn: what it has got is not in the
window, lies beside it, and is drawn as its border. -/
structure Bordered (fb : Framebuffer) (win visible : Section) (s : Compositor)
    (r : Section × Compositor) : Prop where
  within : r.1.Within fb.width fb.height
  inFrame : Side.InFrame win r.1
  has : ∀ i j, visible.Has i j → r.1.Has i j
  not_has : ∀ i j, r.1.Has i j → ¬visible.Has i j → ¬win.Has i j
  backBuffer : ∀ i j, r.2.backBuffer i j =
    if r.1.Has i j ∧ ¬visible.Has i j then borderColour else s.backBuffer i j
  dirtyGrows : DirtyGrows fb s r.2

theorem Bordered.drawBorder {r : Section × Compositor} (h : Bordered fb win.sec visible s r)
    (hwin : win.sec.Fits) (secIdx : ℕ) (side : Side) :
    Bordered fb win.sec visible s (drawBorder fb win secIdx r side) := by
  unfold Compositor.drawBorder
  split_ifs with hcond
  · obtain ⟨hedge, hinside⟩ := (Side.onEdge_iff hwin h.within.fits).mp hcond
    constructor
    · exact Side.within_enlarge hinside h.within
    · exact h.inFrame.enlarge hinside h.within hedge
    · exact fun i j hhas => Side.has_enlarge hinside h.within (h.has i j hhas)
    · intro i j hhas hnot
      by_cases hin : r.1.Has i j
      · exact h.not_has i j hin hnot
      · exact Side.not_has_of_enlarge hinside h.within hedge hhas hin
    · intro i j
      rw [backBuffer_expandDirty]
      show setRows r.2.backBuffer _ _ i j =
        if (side.enlarge r.1).Has i j ∧ ¬visible.Has i j then borderColour else _
      rw [setRows_apply, h.backBuffer]
      have hborder : (side.border fb r.1).Has i j ↔ (side.enlarge r.1).Has i j ∧ ¬r.1.Has i j :=
        Side.has_border hinside h.within
      have hmono : r.1.Has i j → (side.enlarge r.1).Has i j := Side.has_enlarge hinside h.within
      have hhas := h.has i j
      split_ifs <;> tauto
    · apply h.dirtyGrows.trans
      have hgrows := dirtyGrows_expandDirty (s := { r.2 with
        backBuffer := setRows r.2.backBuffer (side.border fb r.1) fun _ _ => borderColour })
        secIdx hinside h.within
      exact fun k hk => hgrows k hk
  · exact h

theorem bordered_drawVisibleWindowDecorations (hwin : win.sec.Fits)
    (hvisible : visible.Within fb.width fb.height) (hframe : Side.InFrame win.sec visible) :
    Bordered fb win.sec visible s (s.drawVisibleWindowDecorations fb win visible) := by
  have hstart : Bordered fb win.sec visible s (visible, s) := by
    constructor
    · exact hvisible
    · exact hframe
    · exact fun i j hhas => hhas
    · exact fun i j hhas hnot => absurd hhas hnot
    · exact fun i j => (if_neg (fun h => h.2 h.1)).symm
    · exact DirtyGrows.refl fb s
  unfold drawVisibleWindowDecorations
  split
  · exact hstart
  · rename_i secIdx _
    split_ifs
    · rw [List.foldl_cons, List.foldl_cons, List.foldl_cons, List.foldl_cons, List.foldl_nil]
      have htop := hstart.drawBorder hwin secIdx .top
      have hbottom := htop.drawBorder hwin secIdx .bottom
      have hleft := hbottom.drawBorder hwin secIdx .left
      exact hleft.drawBorder hwin secIdx .right
    · exact hstart

end Compositor

def Section.OnFrame (sec : Section) (i j : ℕ) : Prop := sec.Near i j ∧ ¬sec.Has i j

/-- A pixel of a window shows its content or the frame of a window above; any other pixel shows the
background or a frame. -/
def Shows (backgroundImage : ℕ → ℕ → UInt32) (windows : List Window) (i j : ℕ) (pixel : UInt32) :
    Prop :=
  match windows.find? fun win => win.sec.Has i j with
  | some win => pixel = win.comittedBuffer (i - win.sec.x.toNat) (j - win.sec.y.toNat) ∨
      pixel = borderColour ∧
        ∃ above ∈ windows.takeWhile fun win => ¬win.sec.Has i j, above.sec.OnFrame i j
  | none => pixel = backgroundImage i j ∨ pixel = borderColour

structure Composited (backgroundImage : ℕ → ℕ → UInt32) (windows : List Window) (sec : Section)
    (s t : Compositor) : Prop where
  inside : ∀ i j, sec.Has i j → Shows backgroundImage windows i j (t.backBuffer i j)
  outside : ∀ i j, ¬sec.Near i j → t.backBuffer i j = s.backBuffer i j

def Clear (dirty : Section) (above : List Window) (i j : ℕ) : Prop :=
  dirty.Near i j ∧ ∀ win ∈ above, ¬win.sec.Has i j

def Tidy (fb : Framebuffer) (backgroundImage : ℕ → ℕ → UInt32) (dirty : Section) :
    List Window → List Window → Rect → Compositor → Prop
  | _, [], _, _ => True
  | above, win :: next, rect, s =>
    let sec := rect.get s
    let visible := intersection win.sec sec
    if validSection visible then
      let r := s.drawVisibleWindowDecorations fb win visible
      (∀ i j, r.1.Has i j → sec.Has i j ∨ Clear dirty above i j) ∧
        Along (fun s part => some
            (if validSection part then updateRect fb backgroundImage next (.part part) s else s))
          (fun s part => (∀ i j, part.Has i j → sec.Has i j ∨ Clear dirty (above ++ [win]) i j) ∧
            Tidy fb backgroundImage dirty (above ++ [win]) next (.part part) s)
          (r.2.partialWindowCopy win visible) (splitSection (rect.get r.2) r.1).tail
    else Tidy fb backgroundImage dirty (above ++ [win]) next rect s

section Decidable

instance (sec : Section) (i j : ℕ) : Decidable (sec.OnFrame i j) :=
  inferInstanceAs (Decidable (_ ∧ _))

instance (backgroundImage : ℕ → ℕ → UInt32) (windows : List Window) (i j : ℕ) (pixel : UInt32) :
    Decidable (Shows backgroundImage windows i j pixel) :=
  match h : windows.find? fun win => win.sec.Has i j with
  | some win => decidable_of_iff
      (pixel = win.comittedBuffer (i - win.sec.x.toNat) (j - win.sec.y.toNat) ∨
        pixel = borderColour ∧ ∃ above ∈ windows.takeWhile fun win : Window => ¬win.sec.Has i j,
          above.sec.OnFrame i j)
      (by rw [Shows, h])
  | none => decidable_of_iff (pixel = backgroundImage i j ∨ pixel = borderColour)
      (by rw [Shows, h])

instance (dirty : Section) (above : List Window) (i j : ℕ) : Decidable (Clear dirty above i j) :=
  inferInstanceAs (Decidable (_ ∧ _))

/-- A condition on the pixels of a section is checked column by column. -/
instance decidableForallHas (sec : Section) (P : ℕ → ℕ → Prop) [∀ i j, Decidable (P i j)] :
    Decidable (∀ i j, sec.Has i j → P i j) :=
  decidable_of_iff (∀ i ∈ List.range' sec.x.toNat sec.width.toNat,
      ∀ j ∈ List.range' sec.y.toNat sec.height.toNat, P i j) (by
    simp only [List.mem_range'_1, Section.Has, Section.right, Section.bottom]
    constructor
    · exact fun h i j hhas => h i hhas.1 j hhas.2
    · exact fun h i hi j hj => h i j ⟨hi, hj⟩)

instance decidableTidy (fb : Framebuffer) (backgroundImage : ℕ → ℕ → UInt32) (dirty : Section) :
    ∀ (above windows : List Window) (rect : Rect) (s : Compositor),
      Decidable (Tidy fb backgroundImage dirty above windows rect s)
  | _, [], _, _ => isTrue trivial
  | above, win :: next, rect, s =>
    have := decidableTidy fb backgroundImage dirty (above ++ [win]) next
    decidable_of_iff' _ (iff_of_eq (Tidy.eq_2 fb backgroundImage dirty above rect s win next))

end Decidable

section Shows

variable {backgroundImage : ℕ → ℕ → UInt32} {above next : List Window} {win : Window} {i j : ℕ}

theorem shows_content (habove : ∀ win ∈ above, ¬win.sec.Has i j) (h : win.sec.Has i j) :
    Shows backgroundImage (above ++ win :: next) i j
      (win.comittedBuffer (i - win.sec.x.toNat) (j - win.sec.y.toNat)) := by
  have hnone : above.find? (fun win => win.sec.Has i j) = none := by
    simpa using habove
  have hfind : (above ++ win :: next).find? (fun win => win.sec.Has i j) = some win := by
    simp [List.find?_append, hnone, h]
  rw [Shows, hfind]
  exact Or.inl rfl

theorem shows_border (habove : ∀ win ∈ above, ¬win.sec.Has i j) (h : win.sec.OnFrame i j) :
    Shows backgroundImage (above ++ win :: next) i j borderColour := by
  have hmem : win ∈ (above ++ win :: next).takeWhile fun win => ¬win.sec.Has i j := by
    rw [List.takeWhile_append_of_pos (by simpa using habove)]
    simp [h.2]
  rw [Shows]
  split
  · exact Or.inr ⟨rfl, win, hmem, h⟩
  · exact Or.inr rfl

theorem shows_background (habove : ∀ win ∈ above, ¬win.sec.Has i j) :
    Shows backgroundImage above i j (backgroundImage i j) := by
  have hfind : above.find? (fun win => win.sec.Has i j) = none := by
    simpa using habove
  rw [Shows, hfind]
  exact Or.inl rfl

end Shows

section Paints

variable {ok : ℕ → ℕ → UInt32 → Prop} {s t u : Compositor} {sec : Section}

structure Paints (ok : ℕ → ℕ → UInt32 → Prop) (s t : Compositor) (sec : Section) : Prop where
  changes : ∀ i j, t.backBuffer i j = s.backBuffer i j ∨ ok i j (t.backBuffer i j)
  covers : ∀ i j, sec.Has i j → ok i j (t.backBuffer i j)

theorem ok_of_changes (h : ∀ i j, t.backBuffer i j = s.backBuffer i j ∨ ok i j (t.backBuffer i j))
    {i j : ℕ} (hok : ok i j (s.backBuffer i j)) : ok i j (t.backBuffer i j) := by
  rcases h i j with hsame | hok'
  · rw [hsame]
    exact hok
  · exact hok'

theorem changes_trans (h : ∀ i j, t.backBuffer i j = s.backBuffer i j ∨ ok i j (t.backBuffer i j))
    (h' : ∀ i j, u.backBuffer i j = t.backBuffer i j ∨ ok i j (u.backBuffer i j)) (i j : ℕ) :
    u.backBuffer i j = s.backBuffer i j ∨ ok i j (u.backBuffer i j) := by
  rcases h' i j with hsame | hok
  · rw [hsame]
    exact h i j
  · exact Or.inr hok

/-- The loop over the parts of a split. -/
theorem paints_foldl {f : Compositor → Section → Compositor} {parts : List Section}
    (h : Along (fun s part => some (f s part)) (fun s part => Paints ok s (f s part) part) s
      parts) :
    (∀ i j, (parts.foldl f s).backBuffer i j = s.backBuffer i j ∨
        ok i j ((parts.foldl f s).backBuffer i j)) ∧
      ∀ part ∈ parts, ∀ i j, part.Has i j → ok i j ((parts.foldl f s).backBuffer i j) := by
  induction parts generalizing s with
  | nil =>
    constructor
    · exact fun i j => Or.inl rfl
    · exact fun part hpart => absurd hpart List.not_mem_nil
  | cons part parts ih =>
    obtain ⟨hpaints, hrest⟩ := h
    obtain ⟨hchanges, hcovers⟩ := ih (hrest _ rfl)
    constructor
    · exact changes_trans hpaints.changes hchanges
    · intro p hp i j hhas
      rcases List.mem_cons.mp hp with rfl | hp
      · exact ok_of_changes hchanges (hpaints.covers i j hhas)
      · exact hcovers p hp i j hhas

end Paints

section Main

variable {fb : Framebuffer} {backgroundImage : ℕ → ℕ → UInt32} {dirty : Section}
  {windows above next : List Window} {rect : Rect} {s : Compositor}

def Right (backgroundImage : ℕ → ℕ → UInt32) (windows : List Window) (dirty : Section) (i j : ℕ)
    (pixel : UInt32) : Prop :=
  dirty.Near i j ∧ Shows backgroundImage windows i j pixel

theorem paints_background (hclear : ∀ i j, (rect.get s).Has i j → Clear dirty windows i j) :
    Paints (Right backgroundImage windows dirty) s
      (s.drawBackgroundSection backgroundImage (rect.get s)) (rect.get s) := by
  have hdrawn : ∀ i j, (rect.get s).Has i j →
      (s.drawBackgroundSection backgroundImage (rect.get s)).backBuffer i j =
        backgroundImage i j := by
    intro i j hhas
    have hx : (rect.get s).x.toNat + (i - (rect.get s).x.toNat) = i := Nat.add_sub_of_le hhas.1.1
    have hy : (rect.get s).y.toNat + (j - (rect.get s).y.toNat) = j := Nat.add_sub_of_le hhas.2.1
    show setRows _ _ _ i j = _
    rw [setRows_apply, if_pos hhas, hx, hy]
  have hright : ∀ i j, (rect.get s).Has i j → Right backgroundImage windows dirty i j
      ((s.drawBackgroundSection backgroundImage (rect.get s)).backBuffer i j) := by
    intro i j hhas
    obtain ⟨hnear, habove⟩ := hclear i j hhas
    rw [hdrawn i j hhas]
    exact ⟨hnear, shows_background habove⟩
  refine ⟨fun i j => ?_, hright⟩
  by_cases hhas : (rect.get s).Has i j
  · exact Or.inr (hright i j hhas)
  · refine Or.inl ?_
    show setRows _ _ _ i j = _
    rw [setRows_apply, if_neg hhas]

theorem partialWindowCopy_apply {win : Window} {sec other : Section} (hwin : win.sec.Fits)
    (hsec : sec.Fits) (hmeet : sec.IsMeet win.sec other) (i j : ℕ) :
    (s.partialWindowCopy win sec).backBuffer i j =
      if sec.Has i j then win.comittedBuffer (i - win.sec.x.toNat) (j - win.sec.y.toNat)
      else s.backBuffer i j := by
  have hx : win.sec.x.toNat ≤ sec.x.toNat := hmeet.x ▸ le_max_left _ _
  have hy : win.sec.y.toNat ≤ sec.y.toNat := hmeet.y ▸ le_max_left _ _
  have hright : sec.right ≤ win.sec.right := hmeet.right ▸ min_le_left _ _
  have hbottom : sec.bottom ≤ win.sec.bottom := hmeet.bottom ▸ min_le_left _ _
  have hguard : (sec.x < win.sec.x || sec.y < win.sec.y ||
      sec.x + sec.width > win.sec.x + win.sec.width ||
      sec.y + sec.height > win.sec.y + win.sec.height) = false := by
    simp only [Bool.or_eq_false_iff, decide_eq_false_iff_not, gt_iff_lt, UInt32.lt_iff_toNat_lt,
      hsec.right_eq, hwin.right_eq, hsec.bottom_eq, hwin.bottom_eq]
    omega
  rw [Compositor.partialWindowCopy, hguard, if_neg Bool.false_ne_true]
  show setRows _ _ _ i j = _
  rw [setRows_apply]
  by_cases hhas : sec.Has i j
  · have hcolumn : (sec.x - win.sec.x).toNat + (i - sec.x.toNat) = i - win.sec.x.toNat := by
      rw [UInt32.toNat_sub_of_le _ _ (UInt32.le_iff_toNat_le.mpr hx)]
      have := hhas.1.1
      omega
    have hrow : (sec.y - win.sec.y).toNat + (j - sec.y.toNat) = j - win.sec.y.toNat := by
      rw [UInt32.toNat_sub_of_le _ _ (UInt32.le_iff_toNat_le.mpr hy)]
      have := hhas.2.1
      omega
    rw [if_pos hhas, if_pos hhas, hcolumn, hrow]
  · rw [if_neg hhas, if_neg hhas]

section Window

variable {win : Window} {visible sec : Section} {r : Section × Compositor} {i j : ℕ}

/-- The visible part of a window and its borders are drawn as they may be. -/
theorem right_of_has (hwindows : windows = above ++ win :: next) (hwin : win.sec.Fits)
    (hmeet : visible.IsMeet win.sec sec) (hvisible : visible.Fits)
    (hclear : ∀ i j, sec.Has i j → Clear dirty above i j)
    (hr : Compositor.Bordered fb win.sec visible s r)
    (hleaves : ∀ i j, r.1.Has i j → sec.Has i j ∨ Clear dirty above i j) (hhas : r.1.Has i j) :
    Right backgroundImage windows dirty i j
      ((r.2.partialWindowCopy win visible).backBuffer i j) := by
  obtain ⟨hnear, habove⟩ : Clear dirty above i j := (hleaves i j hhas).elim (hclear i j) id
  refine ⟨hnear, ?_⟩
  rw [partialWindowCopy_apply hwin hvisible hmeet, hwindows]
  by_cases hin : visible.Has i j
  · rw [if_pos hin]
    exact shows_content habove (hmeet.has_iff.mp hin).1
  · rw [if_neg hin, hr.backBuffer, if_pos ⟨hhas, hin⟩]
    exact shows_border habove ⟨hr.inFrame.near hhas, hr.not_has i j hhas hin⟩

theorem same_of_not_has (hwin : win.sec.Fits) (hmeet : visible.IsMeet win.sec sec)
    (hvisible : visible.Fits) (hr : Compositor.Bordered fb win.sec visible s r)
    (hnot : ¬r.1.Has i j) :
    (r.2.partialWindowCopy win visible).backBuffer i j = s.backBuffer i j := by
  rw [partialWindowCopy_apply hwin hvisible hmeet, if_neg fun hin => hnot (hr.has i j hin),
    hr.backBuffer, if_neg fun hin => hnot hin.1]

/-- A part of the split is clear of the window as well. -/
theorem clear_of_part {part rectNow : Section} (hmeet : visible.IsMeet win.sec sec)
    (hclear : ∀ i j, sec.Has i j → Clear dirty above i j)
    (hr : Compositor.Bordered fb win.sec visible s r) (hpart : IsPart rectNow r.1 part)
    (hleaves : ∀ i j, part.Has i j → sec.Has i j ∨ Clear dirty (above ++ [win]) i j)
    (hhas : part.Has i j) : Clear dirty (above ++ [win]) i j := by
  rcases hleaves i j hhas with hin | hclear'
  · obtain ⟨hnear, habove⟩ := hclear i j hin
    refine ⟨hnear, fun w hw => ?_⟩
    rcases List.mem_append.mp hw with hw | hw
    · exact habove w hw
    · rw [List.mem_singleton.mp hw]
      intro hwin
      exact hpart.not_has_center hhas (hr.has i j (hmeet.has_iff.mpr ⟨hwin, hin⟩))
  · exact hclear'

/-- The window is drawn, and then the parts of the split around it. -/
theorem paints_window {rectNow : Section} {f : Compositor → Section → Compositor}
    (hwindows : windows = above ++ win :: next) (hwin : win.sec.Fits)
    (hmeet : visible.IsMeet win.sec sec) (hvisible : visible.Fits)
    (hclear : ∀ i j, sec.Has i j → Clear dirty above i j)
    (hr : Compositor.Bordered fb win.sec visible s r)
    (hleaves : ∀ i j, r.1.Has i j → sec.Has i j ∨ Clear dirty above i j)
    (hnow : rectNow.Fits) (hsub : ∀ i j, sec.Has i j → rectNow.Has i j)
    (hparts : Along (fun s part => some (f s part))
      (fun s part => Paints (Right backgroundImage windows dirty) s (f s part) part)
      (r.2.partialWindowCopy win visible) (splitSection rectNow r.1).tail) :
    Paints (Right backgroundImage windows dirty) s
      ((splitSection rectNow r.1).tail.foldl f (r.2.partialWindowCopy win visible)) sec := by
  obtain ⟨hchanges, hcovers⟩ := paints_foldl hparts
  have hdrawn : ∀ i j, r.1.Has i j → Right backgroundImage windows dirty i j
      ((r.2.partialWindowCopy win visible).backBuffer i j) := fun i j hhas =>
    right_of_has hwindows hwin hmeet hvisible hclear hr hleaves hhas
  constructor
  · apply changes_trans _ hchanges
    intro i j
    by_cases hhas : r.1.Has i j
    · exact Or.inr (hdrawn i j hhas)
    · exact Or.inl (same_of_not_has hwin hmeet hvisible hr hhas)
  · intro i j hhas
    by_cases hcenter : r.1.Has i j
    · exact ok_of_changes hchanges (hdrawn i j hcenter)
    · obtain ⟨part, hpart, hin⟩ :=
        exists_mem_splitSection hnow hr.within.fits (hsub i j hhas) hcenter
      exact hcovers part hpart i j hin

end Window

theorem Compositor.DirtyGrows.get {t : Compositor} (h : Compositor.DirtyGrows fb s t)
    (hsec : (rect.get s).Within fb.width fb.height) :
    (rect.get t).Within fb.width fb.height ∧
      ∀ i j, (rect.get s).Has i j → (rect.get t).Has i j := by
  cases rect with
  | dirty secIdx => exact h secIdx hsec
  | part sec => exact ⟨hsec, fun i j hhas => hhas⟩

theorem not_has_of_invalid {sec : Section} (h : ¬validSection sec = true) (i j : ℕ) :
    ¬sec.Has i j := by
  rw [validSection_iff] at h
  rw [Section.Has]
  omega

/-- The window `win` and all below it. The induction goes down the list; every section that a call
gets is clear of the windows above. -/
theorem updateRect_paints (hwindows : windows = above ++ next)
    (hfits : ∀ win ∈ next, win.sec.Fits) (hsec : (rect.get s).Within fb.width fb.height)
    (hclear : ∀ i j, (rect.get s).Has i j → Clear dirty above i j)
    (htidy : Tidy fb backgroundImage dirty above next rect s) :
    Paints (Right backgroundImage windows dirty) s (updateRect fb backgroundImage next rect s)
      (rect.get s) := by
  induction next generalizing above rect s with
  | nil =>
    rw [List.append_nil] at hwindows
    subst hwindows
    exact paints_background hclear
  | cons win next ih =>
    have hwin := hfits win List.mem_cons_self
    have hnext : ∀ win ∈ next, win.sec.Fits := fun w hw => hfits w (List.mem_cons_of_mem _ hw)
    have hbelow : windows = (above ++ [win]) ++ next := by simp [hwindows]
    rw [updateRect]
    rw [Tidy] at htidy
    by_cases hvalid : validSection (intersection win.sec (rect.get s)) = true
    · rw [if_pos hvalid] at htidy ⊢
      obtain ⟨hleaves, hparts⟩ := htidy
      have hmeet := intersection_of_valid hwin hsec.fits hvalid
      have hvisible : (intersection win.sec (rect.get s)).Within fb.width fb.height := by
        rw [Section.Within, hmeet.right, hmeet.bottom]
        exact ⟨(min_le_right _ _).trans hsec.1, (min_le_right _ _).trans hsec.2⟩
      have hframe : Side.InFrame win.sec (intersection win.sec (rect.get s)) := by
        simp only [Side.InFrame, Side.edge, hmeet.x, hmeet.right, hmeet.y, hmeet.bottom]
        omega
      have hr := Compositor.bordered_drawVisibleWindowDecorations (s := s) hwin hvisible hframe
      revert hleaves hparts hr
      generalize intersection win.sec (rect.get s) = visible at hmeet hvisible ⊢
      generalize s.drawVisibleWindowDecorations fb win visible = r
      intro hleaves hparts hr
      obtain ⟨hnow, hsub⟩ := hr.dirtyGrows.get hsec
      apply paints_window hwindows hwin hmeet hvisible.fits hclear hr hleaves hnow.fits hsub
      apply hparts.mono_of_mem
      rintro t part hpart ⟨hpartLeaves, hpartTidy⟩
      have hisPart := isPart_of_mem_splitSection hnow.fits hr.within.fits hpart
      by_cases hpartValid : validSection part = true
      · rw [if_pos hpartValid]
        have hpartClear : ∀ i j, part.Has i j → Clear dirty (above ++ [win]) i j :=
          fun i j hhas => clear_of_part hmeet hclear hr hisPart hpartLeaves hhas
        exact ih hbelow hnext (hisPart.within hnow hr.within) hpartClear hpartTidy
      · rw [if_neg hpartValid]
        constructor
        · exact fun i j => Or.inl rfl
        · exact fun i j hhas => absurd hhas (not_has_of_invalid hpartValid i j)
    · rw [if_neg hvalid] at htidy ⊢
      apply ih hbelow hnext hsec _ htidy
      intro i j hhas
      obtain ⟨hnear, habove⟩ := hclear i j hhas
      refine ⟨hnear, fun w hw => ?_⟩
      rcases List.mem_append.mp hw with hw | hw
      · exact habove w hw
      · rw [List.mem_singleton.mp hw]
        exact fun hin => not_has_of_not_valid hwin hsec.fits hvalid hin hhas

end Main

def plainWindow (x y width height colour : UInt32) : Window :=
  ⟨⟨x, y, width, height⟩, fun _ _ => colour⟩

end BrickOS.Userland
