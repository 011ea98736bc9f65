import BrickOS.Userland.Sections
import Mathlib.Data.Set.Basic
import Mathlib.Logic.Function.Basic

/-! Dirty sections that overlap enough are merged before the screen is drawn. -/
namespace BrickOS.Userland

def enlargeSection (sec : Section) (x y width height : UInt32) : Section :=
  if !validSection sec then ⟨x, y, width, height⟩
  else
    let newLeft := min sec.x x
    let newTop := min sec.y y
    let newRight := max (sec.x + sec.width) (x + width)
    let newBottom := max (sec.y + sec.height) (y + height)
    ⟨newLeft, newTop, newRight - newLeft, newBottom - newTop⟩

/-- Whether two sections have more in common than merging them would add. The areas wrap. -/
def sectionsOverlappingLarge (a b : Section) : Bool :=
  if !sectionsOverlapping a b then false
  else
    let intersec := intersection a b
    let intersecArea := intersec.width * intersec.height
    let aCopy := enlargeSection a b.x b.y b.width b.height
    let extraArea :=
      aCopy.width * aCopy.height - b.height * b.width - a.height * a.width + intersecArea
    intersecArea > extraArea

structure DirtySections where
  sec : ℕ → Section
  idx : ℕ

def mergeTurn (i : ℕ) (sec : ℕ → Section) (j : ℕ) : ℕ → Section :=
  if i = j then sec
  else if !validSection (sec j) then sec
  else if sectionsOverlappingLarge (sec i) (sec j) then
    let sec := Function.update sec i
      (enlargeSection (sec i) (sec j).x (sec j).y (sec j).width (sec j).height)
    Function.update sec j { sec j with height := 0, width := 0 }
  else sec

def mergeTurns (n : ℕ) (sec : ℕ → Section) (i : ℕ) : ℕ → Section :=
  if !validSection (sec i) then sec else (List.range n).foldl (mergeTurn i) sec

def removeTurn (r : (ℕ → Section) × ℕ) (i : ℕ) : (ℕ → Section) × ℕ :=
  if validSection (r.1 i) then
    (if r.2 ≠ i then Function.update r.1 r.2 (r.1 i) else r.1, r.2 + 1)
  else r

def mergeDirtySections (d : DirtySections) : DirtySections :=
  let sec := (List.range d.idx).foldl (mergeTurns d.idx) d.sec
  let r := (List.range d.idx).foldl removeTurn (sec, 0)
  ⟨r.1, r.2⟩

structure IsBoundingBox (box : Section) (sec : ℕ → Section) (ks : Set ℕ) : Prop where
  around : ∀ k ∈ ks, (box.x.toNat ≤ (sec k).x.toNat ∧ (sec k).right ≤ box.right) ∧
    box.y.toNat ≤ (sec k).y.toNat ∧ (sec k).bottom ≤ box.bottom
  left : ∃ k ∈ ks, (sec k).x.toNat = box.x.toNat
  right : ∃ k ∈ ks, (sec k).right = box.right
  top : ∃ k ∈ ks, (sec k).y.toNat = box.y.toNat
  bottom : ∃ k ∈ ks, (sec k).bottom = box.bottom

structure Merged (d d' : DirtySections) : Prop where
  covers : ∀ i j, (∃ k < d.idx, (d.sec k).Has i j) → ∃ k < d'.idx, (d'.sec k).Has i j
  nonempty : ∀ k < d'.idx, (d'.sec k).width ≠ 0 ∧ (d'.sec k).height ≠ 0
  idx_le : d'.idx ≤ d.idx
  box : ∀ k < d'.idx, ∃ ks ⊆ Set.Iio d.idx, IsBoundingBox (d'.sec k) d.sec ks

section Join

variable {a b m : Section} {i j : ℕ}

structure Section.IsJoin (m a b : Section) : Prop where
  x : m.x.toNat = min a.x.toNat b.x.toNat
  right : m.right = max a.right b.right
  y : m.y.toNat = min a.y.toNat b.y.toNat
  bottom : m.bottom = max a.bottom b.bottom

theorem isJoin_enlargeSection (ha : a.Fits) (hb : b.Fits) (hvalid : validSection a = true) :
    (enlargeSection a b.x b.y b.width b.height).IsJoin a b := by
  have hright : a.x.toNat ≤ a.right := Nat.le_add_right _ _
  have hbottom : a.y.toNat ≤ a.bottom := Nat.le_add_right _ _
  have hbox : enlargeSection a b.x b.y b.width b.height = ⟨min a.x b.x, min a.y b.y,
      max (a.x + a.width) (b.x + b.width) - min a.x b.x,
      max (a.y + a.height) (b.y + b.height) - min a.y b.y⟩ := by
    rw [enlargeSection, hvalid]
    rfl
  rw [hbox]
  constructor
  · exact toNat_min _ _
  · show (min a.x b.x).toNat + (_ - _ : UInt32).toNat = _
    rw [add_toNat_sub, toNat_max, ha.right_eq, hb.right_eq]
    rw [toNat_min, toNat_max, ha.right_eq, hb.right_eq]
    omega
  · exact toNat_min _ _
  · show (min a.y b.y).toNat + (_ - _ : UInt32).toNat = _
    rw [add_toNat_sub, toNat_max, ha.bottom_eq, hb.bottom_eq]
    rw [toNat_min, toNat_max, ha.bottom_eq, hb.bottom_eq]
    omega

theorem Section.IsJoin.has (h : m.IsJoin a b) (hin : a.Has i j ∨ b.Has i j) : m.Has i j := by
  simp only [Section.Has, h.x, h.right, h.y, h.bottom] at hin ⊢
  omega

theorem Section.IsJoin.valid (h : m.IsJoin a b) (ha : validSection a = true) :
    validSection m = true := by
  rw [validSection_iff] at ha ⊢
  rw [h.x, h.right, h.y, h.bottom]
  omega

theorem exists_mem_union {f : ℕ → ℕ} {ks ls : Set ℕ} {u v w : ℕ} (hu : ∃ k ∈ ks, f k = u)
    (hv : ∃ k ∈ ls, f k = v) (h : w = u ∨ w = v) : ∃ k ∈ ks ∪ ls, f k = w := by
  rcases h with rfl | rfl
  · obtain ⟨k, hk, hw⟩ := hu
    exact ⟨k, .inl hk, hw⟩
  · obtain ⟨k, hk, hw⟩ := hv
    exact ⟨k, .inr hk, hw⟩

theorem IsBoundingBox.join {sec : ℕ → Section} {ks ls : Set ℕ} (ha : IsBoundingBox a sec ks)
    (hb : IsBoundingBox b sec ls) (h : m.IsJoin a b) : IsBoundingBox m sec (ks ∪ ls) := by
  constructor
  · rintro k (hk | hk)
    · have haround := ha.around k hk
      rw [h.x, h.right, h.y, h.bottom]
      omega
    · have haround := hb.around k hk
      rw [h.x, h.right, h.y, h.bottom]
      omega
  · rw [h.x]
    exact exists_mem_union ha.left hb.left (min_choice _ _)
  · rw [h.right]
    exact exists_mem_union ha.right hb.right (max_choice _ _)
  · rw [h.y]
    exact exists_mem_union ha.top hb.top (min_choice _ _)
  · rw [h.bottom]
    exact exists_mem_union ha.bottom hb.bottom (max_choice _ _)

theorem IsBoundingBox.self (sec : ℕ → Section) (k : ℕ) : IsBoundingBox (sec k) sec {k} where
  around := by
    rintro l rfl
    exact ⟨⟨le_refl _, le_refl _⟩, le_refl _, le_refl _⟩
  left := ⟨k, rfl, rfl⟩
  right := ⟨k, rfl, rfl⟩
  top := ⟨k, rfl, rfl⟩
  bottom := ⟨k, rfl, rfl⟩

theorem IsBoundingBox.fits {d : DirtySections} (hfits : ∀ k < d.idx, (d.sec k).Fits) {ks : Set ℕ}
    (hks : ks ⊆ Set.Iio d.idx) (h : IsBoundingBox a d.sec ks) : a.Fits := by
  obtain ⟨k, hk, hright⟩ := h.right
  obtain ⟨l, hl, hbottom⟩ := h.bottom
  exact ⟨hright ▸ (hfits k (hks hk)).1, hbottom ▸ (hfits l (hks hl)).2⟩

theorem Section.Has.valid (h : a.Has i j) : validSection a = true :=
  validSection_iff.mpr ⟨lt_of_le_of_lt h.1.1 h.1.2, lt_of_le_of_lt h.2.1 h.2.2⟩

end Join

section Merge

variable {d : DirtySections} {sec : ℕ → Section} {i j : ℕ}

structure Merging (d : DirtySections) (sec : ℕ → Section) : Prop where
  covers : ∀ i j, (∃ k < d.idx, (d.sec k).Has i j) → ∃ k < d.idx, (sec k).Has i j
  box : ∀ k < d.idx, validSection (sec k) = true →
    ∃ ks ⊆ Set.Iio d.idx, IsBoundingBox (sec k) d.sec ks

theorem Merging.start (d : DirtySections) : Merging d d.sec where
  covers _ _ h := h
  box k hk _ := ⟨{k}, Set.singleton_subset_iff.mpr hk, .self d.sec k⟩

/-- A section takes another one's place as well as its own. -/
theorem Merging.join (h : Merging d sec) (hi : i < d.idx) (hj : j < d.idx) (hij : i ≠ j)
    (hvalid : validSection (sec i) = true) (hvalid' : validSection (sec j) = true)
    {m e : Section} (hjoin : m.IsJoin (sec i) (sec j)) (hempty : ¬validSection e = true) :
    Merging d (Function.update (Function.update sec i m) j e) := by
  have hself : Function.update (Function.update sec i m) j e i = m := by
    rw [Function.update_of_ne hij, Function.update_self]
  have hother : ∀ k, k ≠ i → k ≠ j → Function.update (Function.update sec i m) j e k = sec k := by
    intro k hki hkj
    rw [Function.update_of_ne hkj, Function.update_of_ne hki]
  constructor
  · intro x y hcovered
    obtain ⟨k, hk, hhas⟩ := h.covers x y hcovered
    by_cases hki : k = i
    · subst hki
      exact ⟨k, hk, by rw [hself]; exact hjoin.has (.inl hhas)⟩
    · by_cases hkj : k = j
      · subst hkj
        exact ⟨i, hi, by rw [hself]; exact hjoin.has (.inr hhas)⟩
      · exact ⟨k, hk, (hother k hki hkj).symm ▸ hhas⟩
  · intro k hk hkvalid
    by_cases hki : k = i
    · subst hki
      rw [hself]
      obtain ⟨ks, hks, hbox⟩ := h.box k hi hvalid
      obtain ⟨ls, hls, hbox'⟩ := h.box j hj hvalid'
      exact ⟨ks ∪ ls, Set.union_subset hks hls, hbox.join hbox' hjoin⟩
    · by_cases hkj : k = j
      · subst hkj
        rw [Function.update_self] at hkvalid
        exact absurd hkvalid hempty
      · rw [hother k hki hkj] at hkvalid ⊢
        exact h.box k hk hkvalid

theorem Merging.fits (hfits : ∀ k < d.idx, (d.sec k).Fits) (h : Merging d sec) (hi : i < d.idx)
    (hvalid : validSection (sec i) = true) : (sec i).Fits := by
  obtain ⟨ks, hks, hbox⟩ := h.box i hi hvalid
  exact hbox.fits hfits hks

theorem Merging.turn (hfits : ∀ k < d.idx, (d.sec k).Fits) (h : Merging d sec) (hi : i < d.idx)
    (hj : j < d.idx) (hvalid : validSection (sec i) = true) :
    Merging d (mergeTurn i sec j) ∧ validSection (mergeTurn i sec j i) = true := by
  unfold mergeTurn
  split_ifs with hij hnot hlarge
  · exact ⟨h, hvalid⟩
  · exact ⟨h, hvalid⟩
  · rw [Bool.not_eq_true', Bool.not_eq_false] at hnot
    have hjoin :=
      isJoin_enlargeSection (h.fits hfits hi hvalid) (h.fits hfits hj hnot) hvalid
    constructor
    · exact h.join hi hj hij hvalid hnot hjoin (by simp [validSection])
    · dsimp only
      rw [Function.update_of_ne hij, Function.update_self]
      exact hjoin.valid hvalid
  · exact ⟨h, hvalid⟩

theorem Merging.turns (hfits : ∀ k < d.idx, (d.sec k).Fits) (h : Merging d sec) (hi : i < d.idx) :
    Merging d (mergeTurns d.idx sec i) := by
  unfold mergeTurns
  split_ifs with hnot
  · exact h
  · rw [Bool.not_eq_true', Bool.not_eq_false] at hnot
    -- section `i` stays valid, as it only grows
    have hinv : ∀ n ≤ d.idx, Merging d ((List.range n).foldl (mergeTurn i) sec) ∧
        validSection ((List.range n).foldl (mergeTurn i) sec i) = true := by
      intro n hn
      induction n with
      | zero => exact ⟨h, hnot⟩
      | succ n ih =>
        obtain ⟨hmerging, hvalid⟩ := ih (by omega)
        rw [List.range_succ, List.foldl_append]
        exact hmerging.turn hfits hi (by omega) hvalid
    exact (hinv d.idx (le_refl _)).1

theorem Merging.all (hfits : ∀ k < d.idx, (d.sec k).Fits) :
    Merging d ((List.range d.idx).foldl (mergeTurns d.idx) d.sec) := by
  have hinv : ∀ n ≤ d.idx, Merging d ((List.range n).foldl (mergeTurns d.idx) d.sec) := by
    intro n hn
    induction n with
    | zero => exact .start d
    | succ n ih =>
      rw [List.range_succ, List.foldl_append]
      exact (ih (by omega)).turns hfits (by omega)
  exact hinv d.idx (le_refl _)

end Merge

section Remove

variable {sec f : ℕ → Section} {n dst : ℕ}

structure Removing (sec : ℕ → Section) (n : ℕ) (f : ℕ → Section) (dst : ℕ) : Prop where
  dst_le : dst ≤ n
  rest : ∀ k, n ≤ k → f k = sec k
  kept : ∀ k < dst, validSection (f k) = true ∧ ∃ l < n, f k = sec l
  found : ∀ l < n, validSection (sec l) = true → ∃ k < dst, f k = sec l

theorem Removing.keep (h : Removing sec n f dst) (hvalid : validSection (sec n) = true)
    {g : ℕ → Section} (hself : g dst = sec n) (hother : ∀ k, k ≠ dst → g k = f k) :
    Removing sec (n + 1) g (dst + 1) := by
  have hdst := h.dst_le
  refine ⟨by omega, ?_, ?_, ?_⟩
  · intro k hk
    rw [hother k (by omega), h.rest k (by omega)]
  · intro k hk
    obtain rfl | hlt := Nat.eq_or_lt_of_le (Nat.le_of_lt_succ hk)
    · rw [hself]
      exact ⟨hvalid, n, by omega, rfl⟩
    · rw [hother k (by omega)]
      obtain ⟨hkept, l, hl, heq⟩ := h.kept k hlt
      exact ⟨hkept, l, by omega, heq⟩
  · intro l hl hlvalid
    obtain rfl | hlt := Nat.eq_or_lt_of_le (Nat.le_of_lt_succ hl)
    · exact ⟨dst, Nat.lt_succ_self _, hself⟩
    · obtain ⟨k, hk, heq⟩ := h.found l hlt hlvalid
      exact ⟨k, Nat.lt_succ_of_lt hk, (hother k (by omega)).trans heq⟩

theorem Removing.turn (h : Removing sec n f dst) :
    Removing sec (n + 1) (removeTurn (f, dst) n).1 (removeTurn (f, dst) n).2 := by
  have hdst := h.dst_le
  have hn := h.rest n (le_refl n)
  simp only [removeTurn, hn]
  split_ifs with hvalid hne
  · exact h.keep hvalid (Function.update_self ..) fun k hk => Function.update_of_ne hk ..
  · rw [not_not] at hne
    exact h.keep hvalid ((congrArg f hne).trans hn) fun k _ => rfl
  · refine ⟨by omega, fun k hk => h.rest k (by omega), ?_, ?_⟩
    · intro k hk
      obtain ⟨hkept, l, hl, heq⟩ := h.kept k hk
      exact ⟨hkept, l, by omega, heq⟩
    · intro l hl hlvalid
      obtain rfl | hlt := Nat.eq_or_lt_of_le (Nat.le_of_lt_succ hl)
      · exact absurd hlvalid hvalid
      · exact h.found l hlt hlvalid

theorem Removing.all (sec : ℕ → Section) (n : ℕ) :
    Removing sec n ((List.range n).foldl removeTurn (sec, 0)).1
      ((List.range n).foldl removeTurn (sec, 0)).2 := by
  induction n with
  | zero => exact ⟨le_refl 0, fun _ _ => rfl, fun k hk => absurd hk (Nat.not_lt_zero k),
      fun l hl => absurd hl (Nat.not_lt_zero l)⟩
  | succ n ih =>
    rw [List.range_succ, List.foldl_append]
    exact ih.turn

end Remove

theorem mergeDirtySections_merged (d : DirtySections) (hfits : ∀ k < d.idx, (d.sec k).Fits) :
    Merged d (mergeDirtySections d) := by
  have hmerging := Merging.all hfits
  have hremoving : Removing ((List.range d.idx).foldl (mergeTurns d.idx) d.sec) d.idx
      (mergeDirtySections d).sec (mergeDirtySections d).idx := Removing.all _ _
  refine ⟨?_, ?_, hremoving.dst_le, ?_⟩
  · intro i j hcovered
    obtain ⟨l, hl, hhas⟩ := hmerging.covers i j hcovered
    obtain ⟨k, hk, heq⟩ := hremoving.found l hl hhas.valid
    exact ⟨k, hk, heq ▸ hhas⟩
  · intro k hk
    have hvalid := (hremoving.kept k hk).1
    simpa [validSection] using hvalid
  · intro k hk
    obtain ⟨hvalid, l, hl, heq⟩ := hremoving.kept k hk
    rw [heq] at hvalid
    obtain ⟨ks, hks, hbox⟩ := hmerging.box l hl hvalid
    exact ⟨ks, hks, heq ▸ hbox⟩

def movedSections : DirtySections where
  sec := fun k => if k = 0 then ⟨10, 10, 100, 50⟩ else if k = 1 then ⟨11, 10, 100, 50⟩
    else ⟨300, 200, 3, 3⟩
  idx := 3

theorem mergeDirtySections_merged_moved :
    Merged movedSections (mergeDirtySections movedSections) ∧
      (mergeDirtySections movedSections).idx = 2 ∧
      (mergeDirtySections movedSections).sec 0 = ⟨10, 10, 101, 50⟩ :=
  ⟨mergeDirtySections_merged movedSections (by decide), by decide, by decide⟩

end BrickOS.Userland
