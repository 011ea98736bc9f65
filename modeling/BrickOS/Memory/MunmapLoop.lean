import BrickOS.Memory.SharedMemory
import Mathlib.Tactic.Linarith

/-! The loop of `sys_munmap` ends: each turn takes an area away or moves behind one. -/
namespace BrickOS.Memory
open BrickOS.Lib

namespace Vm

variable {s s' : Vm} {pid page f i low high : ℕ} {v : VirtMemArea} {vs : List VirtMemArea}
  {pages : List ℕ}

theorem perm_of_getElem? {vs : List VirtMemArea} {v : VirtMemArea} (hv : vs[i]? = some v) :
    vs.Perm (v :: vs.eraseIdx i) := by
  obtain ⟨hi, rfl⟩ := List.getElem?_eq_some_iff.mp hv
  exact (List.getElem_cons_eraseIdx_perm hi).symm

theorem perm_set {vs : List VirtMemArea} {v : VirtMemArea} (hv : vs[i]? = some v)
    (w : VirtMemArea) : (vs.set i w).Perm (w :: vs.eraseIdx i) := by
  obtain ⟨hi, rfl⟩ := List.getElem?_eq_some_iff.mp hv
  have hw : (vs.set i w)[i]? = some w := List.getElem?_set_self hi
  have hrest : (vs.set i w).eraseIdx i = vs.eraseIdx i := List.eraseIdx_set_eq
  exact hrest ▸ perm_of_getElem? hw

structure SameAreas (s s' : Vm) : Prop where
  vmAreas : s'.vmAreas = s.vmAreas
  procs : s'.procs = s.procs
  hhdm : s'.hhdm = s.hhdm
  stale : s'.stale = s.stale
  kernelFrames : s'.kernelFrames = s.kernelFrames
  pageTables : s'.pageTables ⊆ s.pageTables

theorem sameAreas_unmapPage (v : VirtMemArea) (s : Vm) (page : ℕ) :
    SameAreas s (unmapPage v s page) := by
  have hfilter : (s.memUnmapPage v.owner page).pageTables ⊆ s.pageTables :=
    (List.filter_sublist (l := s.pageTables)).subset
  unfold unmapPage
  dsimp only
  split
  · exact ⟨rfl, rfl, rfl, rfl, rfl, hfilter⟩
  · split_ifs
    · exact ⟨rfl, rfl, rfl, rfl, rfl, hfilter⟩
    · exact ⟨rfl, rfl, rfl, rfl, rfl, hfilter⟩

/-- The loop ends with the first of the lowest areas in the range, or with what it had. -/
theorem findLowestFrom_spec {vs : List VirtMemArea} {j min : ℕ} {lowest : Option ℕ}
    (h : findLowestFrom pid low high vs j min lowest = some i) :
    (lowest = some i ∧ ∀ w ∈ vs, w.owner = pid → w.InRange low high → min ≤ w.addr) ∨
      ∃ k v, i = j + k ∧ vs[k]? = some v ∧ v.owner = pid ∧ v.InRange low high ∧ v.addr < min ∧
        ∀ w ∈ vs, w.owner = pid → w.InRange low high → v.addr ≤ w.addr := by
  induction vs generalizing j min lowest with
  | nil => exact Or.inl ⟨h, by simp⟩
  | cons u vs ih =>
    rw [findLowestFrom] at h
    simp only [List.forall_mem_cons]
    split_ifs at h with hu
    · refine Or.inr ?_
      rcases ih h with ⟨hj, hrest⟩ | ⟨k, v, rfl, hv, howner, hrange, hlt, hrest⟩
      · obtain rfl := Option.some.inj hj
        exact ⟨0, u, rfl, rfl, hu.1, hu.2.1, hu.2.2, fun _ _ => le_rfl, hrest⟩
      · exact ⟨k + 1, v, by omega, hv, howner, hrange, hlt.trans hu.2.2,
          fun _ _ => Nat.le_of_lt hlt, hrest⟩
    · have hmin : u.owner = pid → u.InRange low high → min ≤ u.addr :=
        fun howner hrange => Nat.le_of_not_lt fun hlt => hu ⟨howner, hrange, hlt⟩
      rcases ih h with ⟨hj, hrest⟩ | ⟨k, v, rfl, hv, howner, hrange, hlt, hrest⟩
      · exact Or.inl ⟨hj, hmin, hrest⟩
      · exact Or.inr ⟨k + 1, v, by omega, hv, howner, hrange, hlt,
          fun ho hr => (Nat.le_of_lt hlt).trans (hmin ho hr), hrest⟩

theorem findLowestVmaInRange_spec (h : s.findLowestVmaInRange pid low high = some i) :
    ∃ v, s.vmAreas[i]? = some v ∧ v.InRange low high ∧ v.addr < high ∧ v.owner = pid ∧
      ∀ w ∈ s.vmAreas, w.owner = pid → w.InRange low high → v.addr ≤ w.addr := by
  rcases findLowestFrom_spec h with ⟨hnone, -⟩ | ⟨k, v, rfl, hv, howner, hrange, hlt, hlowest⟩
  · cases hnone
  · exact ⟨v, by rwa [Nat.zero_add], hrange, hlt, howner, hlowest⟩

/-- A bound for the turns that are left: each turn but the last takes an area away, or moves `low`
behind one. -/
def turnsLeft (vs : List VirtMemArea) (low high : ℕ) : ℕ :=
  vs.length * (vs.length + 1) + vs.countP fun v => v.InRange low high

theorem turnsLeft_lt (vs : List VirtMemArea) (low high : ℕ) :
    turnsLeft vs low high < (vs.length + 1) * (vs.length + 1) := by
  have hle : vs.countP (fun v => v.InRange low high) ≤ vs.length := List.countP_le_length
  unfold turnsLeft
  nlinarith

theorem inRange_mono {low' : ℕ} (hlow : low ≤ low') (hhigh : low' < high)
    (h : v.InRange low' high) : v.InRange low high := by
  unfold VirtMemArea.InRange at *
  omega

theorem turnsLeft_cutArea {stale w : VirtMemArea} (hv : vs[i]? = some v)
    (haddr : w.addr = v.addr) (htop : w.top = v.top) (hrange : v.InRange low high)
    (hnext : (cutArea stale vs i w low high).2 < high) :
    turnsLeft (cutArea stale vs i w low high).1 (cutArea stale vs i w low high).2 high <
      turnsLeft vs low high := by
  have hi : i < vs.length := (List.getElem?_eq_some_iff.mp hv).1
  unfold cutArea at hnext ⊢
  rw [haddr, htop] at hnext ⊢
  by_cases hlow : low ≤ v.addr
  · rw [if_pos hlow] at hnext ⊢
    by_cases hhigh : v.top < high
    · -- the area is gone
      rw [if_pos hhigh] at hnext ⊢
      have hlen : (vs.eraseIdx i).length + 1 = vs.length := by
        rw [List.length_eraseIdx_of_lt hi]
        omega
      have hless := turnsLeft_lt (vs.eraseIdx i) (v.top + 1) high
      rw [hlen] at hless
      refine hless.trans_le ?_
      unfold turnsLeft
      nlinarith
    · rw [if_neg hhigh] at hnext
      exact absurd hnext (lt_irrefl _)
  · rw [if_neg hlow] at hnext ⊢
    by_cases hhigh : v.top < high
    · -- `low` is behind the area now
      rw [if_pos hhigh] at hnext ⊢
      have hrange' : ¬ w.InRange v.top high ∧ low ≤ v.top := by
        unfold VirtMemArea.InRange at hrange ⊢
        omega
      have hless : (vs.eraseIdx i).countP (fun w => w.InRange v.top high) ≤
          (vs.eraseIdx i).countP fun w => w.InRange low high := by
        refine List.countP_mono_left fun w _ hw => ?_
        exact decide_eq_true (inRange_mono hrange'.2 hnext (of_decide_eq_true hw))
      have hset : (vs.set i w).countP (fun w => w.InRange v.top high) =
          (vs.eraseIdx i).countP fun w => w.InRange v.top high := by
        rw [(perm_set hv w).countP_eq, List.countP_cons_of_neg (by simpa using hrange'.1)]
      have hold : vs.countP (fun w => w.InRange low high) =
          (vs.eraseIdx i).countP (fun w => w.InRange low high) + 1 := by
        rw [(perm_of_getElem? hv).countP_eq, List.countP_cons_of_pos (by simpa using hrange)]
      unfold turnsLeft
      dsimp only
      rw [List.length_set, hset, hold]
      omega
    · rw [if_neg hhigh] at hnext
      exact absurd hnext (lt_irrefl _)

theorem vmAreas_unmapPages (v : VirtMemArea) (pages : List ℕ) (s : Vm) :
    (pages.foldl (unmapPage v) s).vmAreas = s.vmAreas := by
  induction pages generalizing s with
  | nil => rfl
  | cons page pages ih => exact (ih _).trans (sameAreas_unmapPage v s page).vmAreas

theorem turnsLeft_munmapArea (hv : s.vmAreas[i]? = some v) (hrange : v.InRange low high)
    (hnext : (s.munmapArea i v low high).2 < high) :
    turnsLeft (s.munmapArea i v low high).1.vmAreas (s.munmapArea i v low high).2 high <
      turnsLeft s.vmAreas low high := by
  unfold munmapArea at hnext ⊢
  dsimp only at hnext ⊢
  rw [vmAreas_unmapPages] at hnext ⊢
  exact turnsLeft_cutArea hv rfl rfl hrange hnext

theorem munmapLoop_isSome {n : ℕ} (hn : low < high → turnsLeft s.vmAreas low high < n) (hpos : 0 < n) :
    ∃ t, munmapLoop pid high n s low = some t := by
  induction n generalizing s low with
  | zero => cases hpos
  | succ n ih =>
    rw [munmapLoop]
    by_cases hlow : low < high
    · rw [if_pos hlow]
      cases hfind : s.findLowestVmaInRange pid low high with
      | none => exact ⟨s, rfl⟩
      | some i =>
        obtain ⟨v, hv, hrange, -⟩ := findLowestVmaInRange_spec hfind
        have hturns := hn hlow
        have hpos : 0 < turnsLeft s.vmAreas low high := Nat.add_pos_right _
          (List.countP_pos_iff.mpr ⟨v, List.mem_of_getElem? hv, by simpa using hrange⟩)
        simp only [hv]
        refine ih (fun hnext => ?_) (by omega)
        have hless := turnsLeft_munmapArea hv hrange hnext
        omega
    · rw [if_neg hlow]
      exact ⟨s, rfl⟩

/-- `sys_munmap` returns, whatever the areas are: its loop has stopped by itself before the turns
it is given are used up. -/
theorem sysMunmap_terminates (s : Vm) (pid addr size : ℕ) :
    ∃ t, s.sysMunmap pid addr size = some t := by
  unfold sysMunmap
  split_ifs
  · exact ⟨s, rfl⟩
  · exact ⟨s, rfl⟩
  · exact munmapLoop_isSome (fun _ => turnsLeft_lt _ _ _) (Nat.mul_pos (by omega) (by omega))

end Vm

end BrickOS.Memory
