import Mathlib.Data.List.Basic
import Mathlib.Data.Nat.ModEq

/-! Byte copies in flat memory, and the contents of a window of a ring laid out in it. -/
namespace BrickOS.Lib

variable {α : Type*}

/-- Memory after `src` is copied to `off`. -/
def copyInto (mem : ℕ → α) (off : ℕ) (src : List α) : ℕ → α :=
  fun i => if i < off then mem i else (src[i - off]?).getD (mem i)

/-- The `n` cells from `off` on. -/
def slice (mem : ℕ → α) (off n : ℕ) : List α :=
  (List.range n).map fun i => mem (off + i)

/-- The `n` cells from `start` on, wrapping at `cap`. -/
def ringSlice (mem : ℕ → α) (cap start n : ℕ) : List α :=
  (List.range n).map fun i => mem ((start + i) % cap)

@[simp] theorem length_slice (mem : ℕ → α) (off n : ℕ) : (slice mem off n).length = n := by
  simp [slice]

@[simp] theorem length_ringSlice (mem : ℕ → α) (cap start n : ℕ) :
    (ringSlice mem cap start n).length = n := by
  simp [ringSlice]

theorem copyInto_inside (mem : ℕ → α) (off : ℕ) (src : List α) (i : ℕ) (hi : i < src.length) :
    copyInto mem off src (off + i) = src[i] := by
  simp [copyInto, hi]

theorem copyInto_outside (mem : ℕ → α) (off : ℕ) (src : List α) (i : ℕ)
    (hi : i < off ∨ off + src.length ≤ i) : copyInto mem off src i = mem i := by
  unfold copyInto
  split_ifs with h
  · rfl
  · rw [List.getElem?_eq_none (by omega), Option.getD_none]

theorem slice_copyInto (mem : ℕ → α) (off : ℕ) (src : List α) :
    slice (copyInto mem off src) off src.length = src := by
  apply List.ext_getElem (by simp)
  intro i hi _
  simp only [length_slice] at hi
  simp [slice, copyInto_inside mem off src i hi]

theorem ringSlice_add (mem : ℕ → α) (cap start m n : ℕ) :
    ringSlice mem cap start (m + n) =
      ringSlice mem cap start m ++ ringSlice mem cap ((start + m) % cap) n := by
  simp only [ringSlice, List.range_add, List.map_append, List.map_map]
  congr 1
  apply List.map_congr_left
  intro i _
  simp [Nat.add_assoc]

theorem ringSlice_eq_slice (mem : ℕ → α) (cap start n : ℕ) (h : start + n ≤ cap) :
    ringSlice mem cap start n = slice mem start n := by
  apply List.map_congr_left
  intro i hi
  rw [Nat.mod_eq_of_lt (by have := List.mem_range.mp hi; omega)]

theorem ring_index_ne {cap start i j : ℕ} (hij : i ≠ j) (hi : i < cap) (hj : j < cap) :
    (start + i) % cap ≠ (start + j) % cap := by
  intro h
  have hmod : i ≡ j [MOD cap] := Nat.ModEq.add_left_cancel' start h
  exact hij (by rwa [Nat.ModEq, Nat.mod_eq_of_lt hi, Nat.mod_eq_of_lt hj] at hmod)

theorem mod_ne_of_window (start : ℕ) {cap i j : ℕ} (hij : i ≠ j) (hi : start ≤ i ∧ i < start + cap)
    (hj : start ≤ j ∧ j < start + cap) : i % cap ≠ j % cap := by
  obtain ⟨a, rfl⟩ := Nat.exists_eq_add_of_le hi.1
  obtain ⟨b, rfl⟩ := Nat.exists_eq_add_of_le hj.1
  exact ring_index_ne (fun h => hij (h ▸ rfl)) (by omega) (by omega)

theorem ringSlice_copyInto (mem : ℕ → α) (cap start n : ℕ) (src : List α)
    (hfit : (start + n) % cap + src.length ≤ cap) (hroom : n + src.length ≤ cap) :
    ringSlice (copyInto mem ((start + n) % cap) src) cap start (n + src.length) =
      ringSlice mem cap start n ++ src := by
  rw [ringSlice_add]
  congr 1
  · apply List.map_congr_left
    intro i hi
    have hin := List.mem_range.mp hi
    apply copyInto_outside
    by_contra hc
    push Not at hc
    obtain ⟨k, hk⟩ := Nat.exists_eq_add_of_le hc.1
    have hlt : (start + i) % cap < cap := Nat.mod_lt _ (by omega)
    have hpos : (start + i) % cap = (start + (n + k)) % cap := by
      rw [← Nat.add_assoc, ← Nat.mod_add_mod (start + n), ← hk, Nat.mod_mod]
    exact ring_index_ne (by omega) (by omega) (by omega) hpos
  · rw [ringSlice_eq_slice _ _ _ _ hfit, slice_copyInto]

end BrickOS.Lib
