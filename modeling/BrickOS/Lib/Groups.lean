import Mathlib.Data.List.Basic
import Mathlib.Data.List.Infix

/-! A stream cut into groups, each ended by a marked element. -/
namespace BrickOS.Lib

section Between

variable {α : Type*}

/-- The elements from place `i` up to place `j`. -/
def between (l : List α) (i j : ℕ) : List α := (l.take j).drop i

@[simp] theorem between_self (l : List α) (i : ℕ) : between l i i = [] := by
  simp [between]

theorem take_append_between (l : List α) {i j : ℕ} (h : i ≤ j) :
    l.take i ++ between l i j = l.take j := by
  have htake : l.take i = (l.take j).take i := by rw [List.take_take, Nat.min_eq_left h]
  rw [between, htake, List.take_append_drop]

theorem between_succ {l : List α} {i j : ℕ} {a : α} (ha : l[j]? = some a) (h : i ≤ j) :
    between l i (j + 1) = between l i j ++ [a] := by
  have hj : j < l.length := (List.getElem?_eq_some_iff.mp ha).1
  rw [between, List.take_add_one, ha, List.drop_append_of_le_length]
  · rfl
  · rw [List.length_take]
    omega

theorem between_append (l m : List α) {i j : ℕ} (h : j ≤ l.length) :
    between (l ++ m) i j = between l i j := by
  rw [between, List.take_append_of_le_length h, between]

theorem length_between {l : List α} {i j : ℕ} (h : j ≤ l.length) :
    (between l i j).length = j - i := by
  rw [between, List.length_drop, List.length_take, Nat.min_eq_left h]

theorem mem_between {l : List α} {i j k : ℕ} {a : α} (ha : l[k]? = some a) (hi : i ≤ k)
    (hj : k < j) : a ∈ between l i j := by
  apply List.mem_of_getElem? (i := k - i)
  rw [between, List.getElem?_drop, Nat.add_sub_cancel' hi, List.getElem?_take_of_lt hj, ha]

end Between

variable {α : Type*} (last : α → Bool)

/-- One more element: it ends the open group or joins it. -/
def addToGroups (p : List (List α) × List α) (a : α) : List (List α) × List α :=
  if last a then (p.1 ++ [p.2 ++ [a]], []) else (p.1, p.2 ++ [a])

/-- The complete groups, and the open one. -/
def groups (as : List α) : List (List α) × List α := as.foldl (addToGroups last) ([], [])

variable {last}

theorem groups_concat (as : List α) (a : α) :
    groups last (as ++ [a]) = addToGroups last (groups last as) a := by
  simp [groups]

theorem groups_append_open (as : List α) {bs : List α} (h : ∀ b ∈ bs, last b = false) :
    groups last (as ++ bs) = ((groups last as).1, (groups last as).2 ++ bs) := by
  induction bs using List.reverseRecOn with
  | nil => simp
  | append_singleton bs b ih =>
    have hb : last b = false := h b (by simp)
    have hbs : ∀ c ∈ bs, last c = false := fun c hc => h c (List.mem_append_left _ hc)
    rw [← List.append_assoc, groups_concat, ih hbs, addToGroups, hb]
    simp

theorem groups_append_group (as : List α) {bs : List α} {b : α}
    (h : ∀ c ∈ bs, last c = false) (hb : last b = true) :
    groups last (as ++ (bs ++ [b])) =
      ((groups last as).1 ++ [(groups last as).2 ++ (bs ++ [b])], []) := by
  rw [← List.append_assoc, groups_concat, groups_append_open as h, addToGroups, if_pos hb]
  simp

variable (last) in
theorem groups_isPrefix (as bs : List α) :
    (groups last as).1 <+: (groups last (as ++ bs)).1 := by
  induction bs using List.reverseRecOn with
  | nil => simp
  | append_singleton bs b ih =>
    rw [← List.append_assoc, groups_concat, addToGroups]
    split
    · exact ih.trans (List.prefix_append _ _)
    · exact ih

variable (last) in
theorem groups_flatten (as : List α) :
    (groups last as).1.flatten ++ (groups last as).2 = as := by
  induction as using List.reverseRecOn with
  | nil => rfl
  | append_singleton as a ih =>
    rw [groups_concat, addToGroups]
    split <;> simp [← List.append_assoc, ih]

end BrickOS.Lib
