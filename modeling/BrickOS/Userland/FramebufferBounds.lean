import BrickOS.Userland.Borders
import BrickOS.Userland.MergeSections

/-! Which bytes of the frame buffers the window manager touches when it draws the screen. -/
namespace BrickOS.Userland

structure Screen extends Framebuffer where
  bytesPerRow : UInt32
  size : UInt32
  width_pos : 0 < width.toNat
  height_pos : 0 < height.toNat
  width_le : 4 * width.toNat ≤ bytesPerRow.toNat
  size_eq : size.toNat = height.toNat * bytesPerRow.toNat

inductive Buffer where
  | backBuffer | backgroundImage | fb0
deriving DecidableEq

def Buffer.stride (fb : Screen) : Buffer → UInt32
  | .backBuffer | .fb0 => fb.bytesPerRow
  | .backgroundImage => fb.width * 4

def Buffer.size (fb : Screen) : Buffer → ℕ
  | .backBuffer | .fb0 => fb.size.toNat
  | .backgroundImage => 4 * fb.width.toNat * fb.height.toNat

structure Access where
  buffer : Buffer
  row : ℕ
  offset : ℕ
  length : ℕ

def Access.Inside (fb : Screen) (a : Access) : Prop :=
  ∀ b < a.length, a.offset + b < a.buffer.size fb ∧
    (a.offset + b) / (a.buffer.stride fb).toNat = a.row

def sectionRows (fb : Screen) (buffer : Buffer) (sec : Section) : List Access :=
  (List.range sec.height.toNat).map fun y =>
    { buffer
      row := sec.y.toNat + y
      offset := ((sec.y + .ofNat y) * buffer.stride fb).toNat + (sec.x * 4).toNat
      length := (sec.width * 4).toNat }

def drawBackgroundSection (fb : Screen) (sec : Section) : List Access :=
  sectionRows fb .backBuffer sec ++ sectionRows fb .backgroundImage sec

def blitSection (fb : Screen) (sec : Section) : List Access :=
  sectionRows fb .fb0 sec ++ sectionRows fb .backBuffer sec

structure Canvas where
  dirty : DirtySections
  dirtySectionExpanded : ℕ → UInt8
  accesses : List Access

namespace Canvas

def touch (c : Canvas) (accesses : List Access) : Canvas :=
  { c with accesses := c.accesses ++ accesses }

def setSectionExpanded (c : Canvas) (idx : ℕ) (expanded : UInt8) : Canvas :=
  if idx ≥ maxDirtySections then c
  else { c with dirtySectionExpanded :=
    Function.update c.dirtySectionExpanded idx (c.dirtySectionExpanded idx ||| expanded) }

/-- A dirty section gets one more row or column, once on each side. -/
def expandDirty (c : Canvas) (secIdx : ℕ) (visible : Section) (side : Side) : Canvas :=
  if side.aligned (c.dirty.sec secIdx) visible &&
      c.dirtySectionExpanded secIdx &&& side.flag == 0 then
    let sec := Function.update c.dirty.sec secIdx (side.enlarge (c.dirty.sec secIdx))
    { c with dirty := { c.dirty with sec } }.setSectionExpanded secIdx side.flag
  else c

def drawBorder (fb : Screen) (win : Section) (secIdx : ℕ) (r : Section × Canvas) (side : Side) :
    Section × Canvas :=
  if side.onEdge fb.toFramebuffer win r.1 then
    (side.enlarge r.1, (r.2.touch
      (sectionRows fb .backBuffer (side.border fb.toFramebuffer r.1))).expandDirty secIdx r.1 side)
  else r

def drawVisibleWindowDecorations (fb : Screen) (win visible : Section) (c : Canvas) :
    Section × Canvas :=
  match (List.range c.dirty.idx).find? fun i => sectionContains (c.dirty.sec i) visible with
  | none => (visible, c)
  | some secIdx =>
    if validSection (c.dirty.sec secIdx) then
      [.top, .bottom, .left, .right].foldl (drawBorder fb win secIdx) (visible, c)
    else (visible, c)

/-- The writes to the back buffer; the buffer of the window is not among those looked at. -/
def partialWindowCopy (fb : Screen) (win sec : Section) (c : Canvas) : Canvas :=
  if sec.x < win.x || sec.y < win.y || sec.x + sec.width > win.x + win.width ||
      sec.y + sec.height > win.y + win.height then c
  else c.touch (sectionRows fb .backBuffer sec)

def get (c : Canvas) : Rect → Section
  | .dirty secIdx => c.dirty.sec secIdx
  | .part sec => sec

def updateRect (fb : Screen) : List Section → Rect → Canvas → Canvas
  | [], rect, c => c.touch (drawBackgroundSection fb (c.get rect))
  | win :: next, rect, c =>
    let originalIntersec := intersection win (c.get rect)
    if validSection originalIntersec then
      let r := c.drawVisibleWindowDecorations fb win originalIntersec
      (splitSection (r.2.get rect) r.1).tail.foldl
        (fun c sec => if validSection sec then updateRect fb next (.part sec) c else c)
        (r.2.partialWindowCopy fb win originalIntersec)
    else updateRect fb next rect c

end Canvas

def clampSection (fb : Screen) (sec : Section) : Section :=
  if sec.x ≥ fb.width || sec.y ≥ fb.height then { sec with width := 0, height := 0 }
  else { sec with
    width := min sec.width (fb.width - sec.x)
    height := min sec.height (fb.height - sec.y) }

def clampDirtySections (fb : Screen) (d : DirtySections) : DirtySections :=
  { d with sec := fun k => if k < d.idx then clampSection fb (d.sec k) else d.sec k }

structure Mouse where
  posx : UInt32
  posy : UInt32

def drawMouse (fb : Screen) (mouse : Mouse) : List Access :=
  (List.range 3).flatMap fun x => (List.range 3).flatMap fun y =>
    let pixel := (mouse.posy * fb.bytesPerRow).toNat + (mouse.posx * 4).toNat +
      y * fb.bytesPerRow.toNat + x * 4
    if pixel + 4 > fb.size.toNat || pixel / fb.bytesPerRow.toNat != mouse.posy.toNat + y then []
    else [⟨.backBuffer, mouse.posy.toNat + y, pixel, 4⟩]

def compositeWindows (fb : Screen) (windows : List Section) (mouse : Mouse) (d : DirtySections) :
    List Access :=
  if windows = [] then []
  else
    let c : Canvas := ⟨clampDirtySections fb (mergeDirtySections d), fun _ => 0, []⟩
    let c := (List.range c.dirty.idx).foldl (fun c i =>
      if validSection (c.dirty.sec i) then c.updateRect fb windows (.dirty i) else c) c
    let blits := (List.range c.dirty.idx).flatMap fun i =>
      if validSection (c.dirty.sec i) then blitSection fb (c.dirty.sec i) else []
    c.accesses ++ blits ++ drawMouse fb mouse ++ blitSection fb ⟨mouse.posx, mouse.posy, 3, 3⟩

def moveBy (pos : UInt32) (rel : ℤ) (limit : UInt32) : UInt32 :=
  let new := pos.toInt32.toInt + rel
  let new := if new < 0 then 0 else new
  let new := if new ≥ limit.toInt32.toInt then limit.toInt32.toInt - 1 else new
  .ofNat new.toNat

def requestSection (fb : Screen) (nWindows width height : UInt32) : Section :=
  ⟨nWindows * 50 + 1, nWindows * 50 + 1, if width > fb.width then fb.width else width,
    if height > fb.height then fb.height else height⟩

def moveWindow (fb : Screen) (sec : Section) (relx rely : Int16) : Section :=
  if relx == 0 && rely == 0 then sec
  else { sec with
    x := moveBy sec.x relx.toInt fb.width
    y := moveBy sec.y (-rely.toInt) fb.height }

def moveMouse (fb : Screen) (mouse : Mouse) (relx rely : Int16) : Mouse :=
  ⟨moveBy mouse.posx relx.toInt fb.width, moveBy mouse.posy (-rely.toInt) fb.height⟩

inductive Placed (fb : Screen) : Section → Prop
  | request (nWindows width height : UInt32) : Placed fb (requestSection fb nWindows width height)
  | move {sec : Section} (h : Placed fb sec) (relx rely : Int16) :
    Placed fb (moveWindow fb sec relx rely)

inductive Pointed (fb : Screen) : Mouse → Prop
  | start : Pointed fb ⟨fb.width / 2, fb.height / 2⟩
  | move {mouse : Mouse} (h : Pointed fb mouse) (relx rely : Int16) :
    Pointed fb (moveMouse fb mouse relx rely)

section Screen

variable {fb : Screen}

theorem Screen.width_lt (fb : Screen) : fb.width.toNat < 2 ^ 30 := by
  have hle := fb.width_le
  have hlt := fb.bytesPerRow.toNat_lt
  omega

theorem Screen.height_lt (fb : Screen) : fb.height.toNat < 2 ^ 30 := by
  have hsize := fb.size_eq
  have hle := fb.width_le
  have hpos := fb.width_pos
  have hlt := fb.size.toNat_lt
  have hrow : fb.height.toNat * 4 ≤ fb.height.toNat * fb.bytesPerRow.toNat :=
    Nat.mul_le_mul_left _ (by omega)
  omega

theorem toNat_mul_four {u : UInt32} (h : u.toNat < 2 ^ 30) : (u * 4).toNat = 4 * u.toNat := by
  rw [UInt32.toNat_mul, Nat.mod_eq_of_lt]
  · exact Nat.mul_comm _ _
  · show u.toNat * 4 < 2 ^ 32
    omega

theorem Buffer.toNat_stride (fb : Screen) (buffer : Buffer) :
    4 * fb.width.toNat ≤ (buffer.stride fb).toNat ∧
      buffer.size fb = fb.height.toNat * (buffer.stride fb).toNat ∧ buffer.size fb < 2 ^ 32 := by
  have hwidth := fb.width_lt
  have hle := fb.width_le
  have hsize := fb.size_eq
  have hlt := fb.size.toNat_lt
  cases buffer with
  | backBuffer => exact ⟨hle, hsize, hlt⟩
  | fb0 => exact ⟨hle, hsize, hlt⟩
  | backgroundImage =>
    have hstride : (fb.width * 4).toNat = 4 * fb.width.toNat := toNat_mul_four hwidth
    have hsmall : fb.height.toNat * (4 * fb.width.toNat) ≤
        fb.height.toNat * fb.bytesPerRow.toNat := Nat.mul_le_mul_left _ hle
    refine ⟨hstride.ge, ?_, ?_⟩
    · show 4 * fb.width.toNat * fb.height.toNat = fb.height.toNat * (fb.width * 4).toNat
      rw [hstride, Nat.mul_comm]
    · show 4 * fb.width.toNat * fb.height.toNat < 2 ^ 32
      rw [Nat.mul_comm]
      omega

/-- Bytes of a row that are on the screen. -/
theorem inside_of_column {buffer : Buffer} {row column length : ℕ} (hrow : row < fb.height.toNat)
    (hcolumn : column + length ≤ (buffer.stride fb).toNat) :
    Access.Inside fb ⟨buffer, row, row * (buffer.stride fb).toNat + column, length⟩ := by
  intro b hb
  dsimp only at hb ⊢
  obtain ⟨-, hsize, -⟩ := buffer.toNat_stride fb
  rw [hsize, Nat.add_assoc]
  constructor
  · calc row * (buffer.stride fb).toNat + (column + b)
        < row * (buffer.stride fb).toNat + (buffer.stride fb).toNat := by omega
      _ = (row + 1) * (buffer.stride fb).toNat := (Nat.succ_mul _ _).symm
      _ ≤ fb.height.toNat * (buffer.stride fb).toNat := Nat.mul_le_mul_right _ hrow
  · rw [Nat.mul_comm, Nat.mul_add_div (by omega), Nat.div_eq_of_lt (by omega), Nat.add_zero]

theorem Access.Inside.row_lt {a : Access} (h : a.Inside fb) (hlength : 0 < a.length) :
    a.row < fb.height.toNat := by
  obtain ⟨hoffset, hrow⟩ := h 0 hlength
  obtain ⟨-, hsize, -⟩ := a.buffer.toNat_stride fb
  rw [hsize, Nat.mul_comm] at hoffset
  rw [← hrow]
  exact Nat.div_lt_of_lt_mul hoffset

/-- The offset of a row of the screen does not wrap. -/
theorem toNat_row {buffer : Buffer} {row : UInt32} (h : row.toNat < fb.height.toNat) :
    (row * buffer.stride fb).toNat = row.toNat * (buffer.stride fb).toNat := by
  obtain ⟨-, hsize, hlt⟩ := buffer.toNat_stride fb
  have hsmall : row.toNat * (buffer.stride fb).toNat ≤
      fb.height.toNat * (buffer.stride fb).toNat := Nat.mul_le_mul_right _ h.le
  rw [UInt32.toNat_mul, Nat.mod_eq_of_lt (by omega)]

theorem inside_rows {sec : Section} {buffer : Buffer}
    (hright : 4 * sec.right ≤ (buffer.stride fb).toNat) (hbottom : sec.bottom ≤ fb.height.toNat) :
    ∀ a ∈ sectionRows fb buffer sec, a.Inside fb := by
  intro a ha
  obtain ⟨y, hy, rfl⟩ := List.mem_map.mp ha
  rw [List.mem_range] at hy
  rw [Section.right] at hright
  rw [Section.bottom] at hbottom
  have hstride := (buffer.stride fb).toNat_lt
  have hheight := fb.height_lt
  have hlength : (sec.width * 4).toNat = 4 * sec.width.toNat := toNat_mul_four (by omega)
  have hcolumn : (sec.x * 4).toNat = 4 * sec.x.toNat := toNat_mul_four (by omega)
  have hrow : (sec.y + .ofNat y).toNat = sec.y.toNat + y := by
    have hy : (UInt32.ofNat y).toNat = y :=
      UInt32.toNat_ofNat_of_lt' (show y < 2 ^ 32 by omega)
    rw [UInt32.toNat_add, hy, Nat.mod_eq_of_lt (by omega)]
  rw [toNat_row (by omega), hrow, hcolumn, hlength]
  exact inside_of_column (by omega) (by omega)

theorem inside_sectionRows {sec : Section} (h : sec.Within fb.width fb.height) (buffer : Buffer) :
    ∀ a ∈ sectionRows fb buffer sec, a.Inside fb := by
  obtain ⟨hright, hbottom⟩ := h
  have hstride := (buffer.toNat_stride fb).1
  exact inside_rows (by omega) hbottom

end Screen

section Reachable

variable {fb : Screen}

theorem toNat_moveBy_lt (pos : UInt32) (rel : ℤ) {limit : UInt32} (hpos : 0 < limit.toNat)
    (hlt : limit.toNat < 2 ^ 30) : (moveBy pos rel limit).toNat < limit.toNat := by
  have hlimit : limit.toInt32.toInt = limit.toNat :=
    BitVec.toInt_eq_toNat_of_lt (show 2 * limit.toNat < 2 ^ 32 by omega)
  unfold moveBy
  rw [hlimit]
  generalize pos.toInt32.toInt + rel = new
  dsimp only
  rw [UInt32.toNat_ofNat']
  split_ifs <;> omega

theorem Placed.size_le {win : Section} (h : Placed fb win) :
    win.width.toNat ≤ fb.width.toNat ∧ win.height.toNat ≤ fb.height.toNat := by
  induction h with
  | request nWindows width height =>
    simp only [requestSection, gt_iff_lt, UInt32.lt_iff_toNat_lt]
    split_ifs <;> omega
  | @move sec h relx rely ih =>
    rw [moveWindow]
    split_ifs
    · exact ih
    · exact ih

theorem Pointed.on_screen {mouse : Mouse} (h : Pointed fb mouse) :
    mouse.posx.toNat < fb.width.toNat ∧ mouse.posy.toNat < fb.height.toNat := by
  have hwidth := fb.width_pos
  have hheight := fb.height_pos
  cases h with
  | start =>
    simp only [UInt32.toNat_div]
    exact ⟨Nat.div_lt_self hwidth (by decide), Nat.div_lt_self hheight (by decide)⟩
  | move h relx rely =>
    exact ⟨toNat_moveBy_lt _ _ hwidth fb.width_lt, toNat_moveBy_lt _ _ hheight fb.height_lt⟩

/-- A window that has a pixel in common with a section of the screen ends before `2 ^ 32`. -/
theorem Placed.fits {win sec : Section} (h : Placed fb win) (hsec : sec.Within fb.width fb.height)
    (hvalid : validSection (intersection win sec) = true) : win.Fits := by
  obtain ⟨hw, hh⟩ := h.size_le
  have hwidth := fb.width_lt
  have hheight := fb.height_lt
  have hover : sectionsOverlapping win sec = true := by
    by_contra hnot
    rw [intersection, if_neg hnot] at hvalid
    exact absurd hvalid (by decide)
  simp only [sectionsOverlapping, UInt32.le_iff_toNat_le, hsec.fits.right_eq,
    hsec.fits.bottom_eq] at hover
  obtain ⟨hright, hbottom⟩ := hsec
  split_ifs at hover
  rw [Section.Fits, Section.right, Section.bottom]
  omega

end Reachable

namespace Canvas

variable {fb : Screen} {n : ℕ} {valid : Set ℕ} {c : Canvas} {win visible sec : Section}

structure Steady (fb : Screen) (n : ℕ) (valid : Set ℕ) (c : Canvas) : Prop where
  idx : c.dirty.idx = n
  within : ∀ k ∈ valid, (c.dirty.sec k).Within fb.width fb.height
  mem_valid : ∀ k < n, validSection (c.dirty.sec k) = true → k ∈ valid
  inside : ∀ a ∈ c.accesses, a.Inside fb

theorem Steady.touch (h : Steady fb n valid c) {accesses : List Access}
    (haccesses : ∀ a ∈ accesses, a.Inside fb) : Steady fb n valid (c.touch accesses) := by
  refine ⟨h.idx, h.within, h.mem_valid, ?_⟩
  intro a ha
  rcases List.mem_append.mp ha with ha | ha
  · exact h.inside a ha
  · exact haccesses a ha

theorem Steady.setSectionExpanded (h : Steady fb n valid c) (idx : ℕ) (expanded : UInt8) :
    Steady fb n valid (c.setSectionExpanded idx expanded) := by
  unfold Canvas.setSectionExpanded
  split_ifs
  · exact h
  · exact ⟨h.idx, h.within, h.mem_valid, h.inside⟩

theorem Steady.expandDirty (h : Steady fb n valid c) {side : Side} {secIdx : ℕ}
    (hsecIdx : secIdx ∈ valid) (hinside : side.Inside fb.toFramebuffer visible)
    (hvisible : visible.Within fb.width fb.height) :
    Steady fb n valid (c.expandDirty secIdx visible side) := by
  unfold Canvas.expandDirty
  split_ifs with hcond
  · have hself := h.within secIdx hsecIdx
    have hedge :=
      (Side.aligned_iff hself.fits hvisible.fits).mp (Bool.and_eq_true_iff.mp hcond).1
    have hgrown := Side.within_enlarge (hinside.congr hedge) hself
    have hsteady : Steady fb n valid { c with dirty := { c.dirty with
        sec := Function.update c.dirty.sec secIdx (side.enlarge (c.dirty.sec secIdx)) } } := by
      refine ⟨h.idx, ?_, ?_, h.inside⟩
      · intro k hk
        dsimp only
        by_cases hset : k = secIdx
        · rw [hset, Function.update_self]
          exact hgrown
        · rw [Function.update_of_ne hset]
          exact h.within k hk
      · intro k hk hvalid
        dsimp only at hvalid
        by_cases hset : k = secIdx
        · exact hset ▸ hsecIdx
        · rw [Function.update_of_ne hset] at hvalid
          exact h.mem_valid k hk hvalid
    exact hsteady.setSectionExpanded secIdx side.flag
  · exact h

theorem steady_drawBorder (hwin : win.Fits) {secIdx : ℕ} (hsecIdx : secIdx ∈ valid) (side : Side)
    {r : Section × Canvas}
    (hr : r.1.Within fb.width fb.height ∧ Steady fb n valid r.2) :
    (drawBorder fb win secIdx r side).1.Within fb.width fb.height ∧
      Steady fb n valid (drawBorder fb win secIdx r side).2 := by
  obtain ⟨hwithin, h⟩ := hr
  unfold drawBorder
  split_ifs with hcond
  · obtain ⟨-, hinside⟩ := (Side.onEdge_iff hwin hwithin.fits).mp hcond
    have hborder := inside_sectionRows (Side.within_border hinside hwithin) .backBuffer
    exact ⟨Side.within_enlarge hinside hwithin,
      (h.touch hborder).expandDirty hsecIdx hinside hwithin⟩
  · exact ⟨hwithin, h⟩

theorem steady_drawVisibleWindowDecorations (h : Steady fb n valid c) (hwin : win.Fits)
    (hvisible : visible.Within fb.width fb.height) :
    (c.drawVisibleWindowDecorations fb win visible).1.Within fb.width fb.height ∧
      Steady fb n valid (c.drawVisibleWindowDecorations fb win visible).2 := by
  unfold drawVisibleWindowDecorations
  split
  · exact ⟨hvisible, h⟩
  · rename_i secIdx hfind
    split_ifs with hvalid
    · have hlt := List.mem_range.mp (List.mem_of_find?_eq_some hfind)
      have hsecIdx := h.mem_valid secIdx (h.idx ▸ hlt) hvalid
      exact List.foldlRecOn _ _ (motive := fun r : Section × Canvas =>
        r.1.Within fb.width fb.height ∧ Steady fb n valid r.2) ⟨hvisible, h⟩
        fun r hr side _ => steady_drawBorder hwin hsecIdx side hr
    · exact ⟨hvisible, h⟩

theorem Steady.partialWindowCopy (h : Steady fb n valid c) (hsec : sec.Within fb.width fb.height) :
    Steady fb n valid (c.partialWindowCopy fb win sec) := by
  unfold Canvas.partialWindowCopy
  split_ifs
  · exact h
  · exact h.touch (inside_sectionRows hsec .backBuffer)

def OnScreen (fb : Screen) (valid : Set ℕ) : Rect → Prop
  | .dirty secIdx => secIdx ∈ valid
  | .part sec => sec.Within fb.width fb.height

theorem Steady.get_within (h : Steady fb n valid c) {rect : Rect} (hrect : OnScreen fb valid rect) :
    (c.get rect).Within fb.width fb.height := by
  cases rect with
  | dirty secIdx => exact h.within secIdx hrect
  | part sec => exact hrect

/-- The recursion goes down the windows; it is called with parts of the screen only. -/
theorem Steady.updateRect {windows : List Section} (hwindows : ∀ win ∈ windows, Placed fb win)
    {rect : Rect} (hrect : OnScreen fb valid rect) (h : Steady fb n valid c) :
    Steady fb n valid (c.updateRect fb windows rect) := by
  induction windows generalizing rect c with
  | nil =>
    have hwithin := h.get_within hrect
    apply h.touch
    intro a ha
    rcases List.mem_append.mp ha with ha | ha
    · exact inside_sectionRows hwithin _ a ha
    · exact inside_sectionRows hwithin _ a ha
  | cons win next ih =>
    have hnext : ∀ win ∈ next, Placed fb win := fun w hw => hwindows w (List.mem_cons_of_mem _ hw)
    have hwithin := h.get_within hrect
    rw [Canvas.updateRect]
    split_ifs with hvalid
    · have hwin := (hwindows win List.mem_cons_self).fits hwithin hvalid
      have hvisible := (intersection_of_valid hwin hwithin.fits hvalid).within hwithin
      obtain ⟨hcenter, hsteady⟩ := steady_drawVisibleWindowDecorations h hwin hvisible
      have hnow := hsteady.get_within hrect
      have hparts : ∀ part ∈ (splitSection
          ((c.drawVisibleWindowDecorations fb win (intersection win (c.get rect))).2.get rect)
          (c.drawVisibleWindowDecorations fb win (intersection win (c.get rect))).1).tail,
          part.Within fb.width fb.height := fun part hpart =>
        (isPart_of_mem_splitSection hnow.fits hcenter.fits hpart).within hnow hcenter
      refine List.foldlRecOn _ _ (hsteady.partialWindowCopy hvisible) ?_
      intro c hc part hpart
      split_ifs
      · exact ih hnext (hparts part hpart) hc
      · exact hc
    · exact ih hnext hrect h

end Canvas

section Composite

variable {fb : Screen} {windows : List Section} {mouse : Mouse} {d : DirtySections}

theorem within_clampSection {sec : Section} (h : validSection (clampSection fb sec) = true) :
    (clampSection fb sec).Within fb.width fb.height := by
  unfold clampSection at h ⊢
  split_ifs at h ⊢ with hout
  · simp [validSection] at h
  · simp only [Bool.or_eq_true, decide_eq_true_eq, ge_iff_le, UInt32.le_iff_toNat_le] at hout
    simp only [Section.Within, Section.right, Section.bottom, toNat_min]
    rw [UInt32.toNat_sub_of_le _ _ (UInt32.le_iff_toNat_le.mpr (by omega)),
      UInt32.toNat_sub_of_le _ _ (UInt32.le_iff_toNat_le.mpr (by omega))]
    omega

def Mouse.Fits (fb : Screen) (mouse : Mouse) : Prop :=
  4 * mouse.posx.toNat + 12 ≤ fb.bytesPerRow.toNat ∧ mouse.posy.toNat + 3 ≤ fb.height.toNat

theorem Mouse.fits_of_blit (hmouse : Pointed fb mouse)
    (h : ∀ a ∈ blitSection fb ⟨mouse.posx, mouse.posy, 3, 3⟩, a.Inside fb) : mouse.Fits fb := by
  obtain ⟨hposx, hposy⟩ := hmouse.on_screen
  have hwidth := fb.width_lt
  have hpos := fb.width_pos
  have hle := fb.width_le
  have hrow : ∀ y < 3, Access.Inside fb ⟨.fb0, mouse.posy.toNat + y,
      ((mouse.posy + .ofNat y) * fb.bytesPerRow).toNat + (mouse.posx * 4).toNat, 12⟩ := by
    intro y hy
    apply h
    exact List.mem_append_left _ (List.mem_map.mpr ⟨y, List.mem_range.mpr hy, rfl⟩)
  constructor
  · have hfirst := (hrow 0 (by decide) 11 (show 11 < 12 by decide)).2
    have hzero : mouse.posy + .ofNat 0 = mouse.posy := UInt32.add_zero mouse.posy
    have hoffset : (mouse.posy * fb.bytesPerRow).toNat =
        mouse.posy.toNat * fb.bytesPerRow.toNat := @toNat_row fb .fb0 _ hposy
    have hcolumn : (mouse.posx * 4).toNat = 4 * mouse.posx.toNat := toNat_mul_four (by omega)
    dsimp only [Buffer.stride] at hfirst
    rw [hzero, hoffset, hcolumn] at hfirst
    by_contra hnot
    have hnext : mouse.posy.toNat + 1 ≤ (mouse.posy.toNat * fb.bytesPerRow.toNat +
        4 * mouse.posx.toNat + 11) / fb.bytesPerRow.toNat := by
      rw [Nat.le_div_iff_mul_le (by omega), Nat.succ_mul]
      omega
    omega
  · have hlast := (hrow 2 (by decide)).row_lt (show 0 < 12 by decide)
    dsimp only at hlast
    omega

theorem Mouse.Fits.inside_drawMouse (h : mouse.Fits fb) (hmouse : Pointed fb mouse) :
    ∀ a ∈ drawMouse fb mouse, a.Inside fb := by
  intro a ha
  obtain ⟨hposx, hposy⟩ := hmouse.on_screen
  obtain ⟨hright, hbottom⟩ := h
  have hwidth := fb.width_lt
  have hoffset : (mouse.posy * fb.bytesPerRow).toNat =
      mouse.posy.toNat * fb.bytesPerRow.toNat := @toNat_row fb .fb0 _ hposy
  have hcolumn : (mouse.posx * 4).toNat = 4 * mouse.posx.toNat := toNat_mul_four (by omega)
  simp only [drawMouse, List.mem_flatMap, List.mem_range] at ha
  obtain ⟨x, hx, y, hy, ha⟩ := ha
  split_ifs at ha with hskip
  · exact absurd ha List.not_mem_nil
  · rw [List.mem_singleton.mp ha, hoffset, hcolumn]
    have hpixel : mouse.posy.toNat * fb.bytesPerRow.toNat + 4 * mouse.posx.toNat +
        y * fb.bytesPerRow.toNat + x * 4 =
        (mouse.posy.toNat + y) * fb.bytesPerRow.toNat + (4 * mouse.posx.toNat + x * 4) := by
      rw [Nat.add_mul]
      omega
    rw [hpixel]
    exact @inside_of_column fb .backBuffer _ _ _ (by omega) (show _ ≤ fb.bytesPerRow.toNat by omega)

theorem Mouse.Fits.inside_blitSection (h : mouse.Fits fb) :
    ∀ a ∈ blitSection fb ⟨mouse.posx, mouse.posy, 3, 3⟩, a.Inside fb := by
  obtain ⟨hright, hbottom⟩ := h
  have hcolumns : 4 * Section.right ⟨mouse.posx, mouse.posy, 3, 3⟩ ≤ fb.bytesPerRow.toNat :=
    show 4 * (mouse.posx.toNat + 3) ≤ _ by omega
  have hrows : Section.bottom ⟨mouse.posx, mouse.posy, 3, 3⟩ ≤ fb.height.toNat := hbottom
  intro a ha
  rcases List.mem_append.mp ha with ha | ha
  · exact inside_rows hcolumns hrows a ha
  · exact inside_rows hcolumns hrows a ha

theorem steady_clampDirtySections (fb : Screen) (d : DirtySections) :
    Canvas.Steady fb d.idx {k | k < d.idx ∧ validSection (clampSection fb (d.sec k)) = true}
      ⟨clampDirtySections fb d, fun _ => 0, []⟩ := by
  refine ⟨rfl, ?_, ?_, fun a ha => absurd ha List.not_mem_nil⟩
  · rintro k ⟨hk, hvalid⟩
    simp only [clampDirtySections, if_pos hk]
    exact within_clampSection hvalid
  · intro k hk hvalid
    simp only [clampDirtySections, if_pos hk] at hvalid
    exact ⟨hk, hvalid⟩

/-- The loop that updates the dirty sections. -/
theorem Canvas.Steady.updateRects {n : ℕ} {valid : Set ℕ} {c : Canvas}
    (hwindows : ∀ win ∈ windows, Placed fb win) (h : Canvas.Steady fb n valid c) :
    Canvas.Steady fb n valid ((List.range c.dirty.idx).foldl (fun c i =>
      if validSection (c.dirty.sec i) then c.updateRect fb windows (.dirty i) else c) c) := by
  refine List.foldlRecOn _ _ h ?_
  intro c' hc' i hi
  rw [h.idx, List.mem_range] at hi
  split_ifs with hvalid
  · exact hc'.updateRect hwindows (hc'.mem_valid i hi hvalid)
  · exact hc'

theorem inside_blitSection {sec : Section} (h : sec.Within fb.width fb.height) :
    ∀ a ∈ blitSection fb sec, a.Inside fb := by
  intro a ha
  rcases List.mem_append.mp ha with ha | ha
  · exact inside_sectionRows h _ a ha
  · exact inside_sectionRows h _ a ha

theorem compositeWindows_inside_iff (hwindows : ∀ win ∈ windows, Placed fb win)
    (hmouse : Pointed fb mouse) (d : DirtySections) :
    (∀ a ∈ compositeWindows fb windows mouse d, a.Inside fb) ↔ windows = [] ∨ mouse.Fits fb := by
  unfold compositeWindows
  split_ifs with hempty
  · simp [hempty]
  · rw [or_iff_right hempty]
    have hdrawn := (steady_clampDirtySections fb (mergeDirtySections d)).updateRects hwindows
    dsimp only at hdrawn ⊢
    generalize (List.range _).foldl _ _ = c at hdrawn ⊢
    constructor
    · intro h
      exact Mouse.fits_of_blit hmouse fun a ha => h a (List.mem_append_right _ ha)
    · intro hfits a ha
      rcases List.mem_append.mp ha with ha | ha
      · rcases List.mem_append.mp ha with ha | ha
        · rcases List.mem_append.mp ha with ha | ha
          · exact hdrawn.inside a ha
          · obtain ⟨i, hi, ha⟩ := List.mem_flatMap.mp ha
            rw [hdrawn.idx, List.mem_range] at hi
            split_ifs at ha with hvalid
            · exact inside_blitSection (hdrawn.within i (hdrawn.mem_valid i hi hvalid)) a ha
            · exact absurd ha List.not_mem_nil
        · exact hfits.inside_drawMouse hmouse a ha
      · exact hfits.inside_blitSection a ha

def vgaScreen : Screen where
  width := 640
  height := 480
  bytesPerRow := 2560
  size := 1228800
  width_pos := by decide
  height_pos := by decide
  width_le := by decide
  size_eq := by decide

def vgaWindow : Section := requestSection vgaScreen 0 200 100

theorem compositeWindows_inside_start :
    (∀ a ∈ compositeWindows vgaScreen [moveWindow vgaScreen vgaWindow 600 0] ⟨320, 240⟩
        ⟨fun _ => vgaWindow, 1⟩, a.Inside vgaScreen) ∧ Mouse.Fits vgaScreen ⟨320, 240⟩ := by
  have hfits : Mouse.Fits vgaScreen ⟨320, 240⟩ := by
    rw [Mouse.Fits]
    decide
  refine ⟨(compositeWindows_inside_iff ?_ .start _).mpr (.inr hfits), hfits⟩
  intro win hwin
  rw [List.mem_singleton.mp hwin]
  exact .move (.request 0 200 100) 600 0

/-- The mouse is moved to the lower right corner of the screen. -/
theorem not_compositeWindows_inside_corner :
    Placed vgaScreen vgaWindow ∧ Pointed vgaScreen ⟨639, 479⟩ ∧
      ¬∀ a ∈ compositeWindows vgaScreen [vgaWindow] ⟨639, 479⟩ ⟨fun _ => vgaWindow, 0⟩,
        a.Inside vgaScreen := by
  have hmouse : Pointed vgaScreen ⟨639, 479⟩ := .move (.move .start 200 (-200)) 200 (-200)
  refine ⟨.request 0 200 100, hmouse, fun h => ?_⟩
  have hfits : Mouse.Fits vgaScreen ⟨639, 479⟩ :=
    Mouse.fits_of_blit hmouse fun a ha => h a (List.mem_append_right _ ha)
  exact absurd hfits.2 (by decide)

end Composite

end BrickOS.Userland
