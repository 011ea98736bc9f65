import Mathlib.Data.List.Nodup
import Mathlib.Tactic.SplitIfs

/-! Lists of records that are found, changed and removed by a key. -/
namespace BrickOS.Lib.Keyed

variable {α κ : Type*} [DecidableEq κ] {key : α → κ} {l : List α} {a : α} {k : κ}

/-- The first record with the key. -/
def lookup (key : α → κ) (l : List α) (k : κ) : Option α := l.find? fun a => key a == k

/-- The record put in place of those with its key. -/
def replace (key : α → κ) (l : List α) (a : α) : List α :=
  l.map fun b => if key b = key a then a else b

/-- The first record with the key changed by `f`. -/
def modify (key : α → κ) (l : List α) (k : κ) (f : α → α) : List α :=
  match l with
  | [] => []
  | b :: l => if key b = k then f b :: l else b :: modify key l k f

/-- The list without its first record with the key. -/
def remove (key : α → κ) (l : List α) (k : κ) : List α := l.eraseP fun a => key a == k

theorem lookup_cons (b : α) (l : List α) (k : κ) :
    lookup key (b :: l) k = if key b = k then some b else lookup key l k := by
  by_cases h : key b = k <;> simp [lookup, h]

theorem key_of_lookup (h : lookup key l k = some a) : key a = k := by
  simpa using List.find?_some h

theorem mem_of_lookup (h : lookup key l k = some a) : a ∈ l := List.mem_of_find?_eq_some h

theorem lookup_eq_none_iff : lookup key l k = none ↔ k ∉ l.map key := by
  simp [lookup]

theorem lookup_of_mem (hl : (l.map key).Nodup) (ha : a ∈ l) : lookup key l (key a) = some a := by
  induction l with
  | nil => cases ha
  | cons b l ih =>
    rw [List.map_cons, List.nodup_cons] at hl
    rw [lookup_cons]
    obtain rfl | ha := List.mem_cons.mp ha
    · exact if_pos rfl
    · have hne : key b ≠ key a := fun h => hl.1 (h ▸ List.mem_map_of_mem ha)
      rw [if_neg hne]
      exact ih hl.2 ha

theorem map_key_replace (l : List α) (a : α) : (replace key l a).map key = l.map key := by
  unfold replace
  rw [List.map_map]
  refine List.map_congr_left fun b _ => ?_
  by_cases h : key b = key a <;> simp [h]

theorem mem_of_mem_replace {b : α} (h : b ∈ replace key l a) : b = a ∨ b ∈ l ∧ key b ≠ key a := by
  obtain ⟨c, hc, hb⟩ := List.mem_map.mp h
  split_ifs at hb with heq
  · exact .inl hb.symm
  · exact .inr ⟨hb ▸ hc, hb ▸ heq⟩

theorem lookup_replace (l : List α) (a : α) (k : κ) :
    lookup key (replace key l a) k =
      if k = key a then (lookup key l k).map fun _ => a else lookup key l k := by
  induction l with
  | nil => simp [lookup, replace]
  | cons b l ih =>
    have hcons : replace key (b :: l) a =
        (if key b = key a then a else b) :: replace key l a := rfl
    rw [hcons, lookup_cons, lookup_cons, ih]
    by_cases hb : key b = key a <;> by_cases hk : k = key a <;> grind

theorem lookup_append (l : List α) (a : α) (k : κ) :
    lookup key (l ++ [a]) k = (lookup key l k).or (if key a = k then some a else none) := by
  induction l with
  | nil => simp [lookup]
  | cons b l ih =>
    rw [List.cons_append, lookup_cons, lookup_cons, ih]
    by_cases hb : key b = k <;> simp [hb]

theorem nodup_append (hl : (l.map key).Nodup) (ha : lookup key l (key a) = none) :
    ((l ++ [a]).map key).Nodup := by
  rw [List.map_append, List.map_singleton]
  refine List.Nodup.append hl (List.nodup_singleton _) ?_
  simpa using lookup_eq_none_iff.mp ha

theorem lookup_remove (hl : (l.map key).Nodup) (k j : κ) :
    lookup key (remove key l k) j = if j = k then none else lookup key l j := by
  induction l with
  | nil => simp [lookup, remove]
  | cons b l ih =>
    rw [List.map_cons, List.nodup_cons] at hl
    by_cases hb : key b = k
    · have hrest : remove key (b :: l) k = l := by simp [remove, hb]
      have hnone : lookup key l k = none := lookup_eq_none_iff.mpr (hb ▸ hl.1)
      rw [hrest, lookup_cons]
      by_cases hj : j = k <;> grind
    · have hrest : remove key (b :: l) k = b :: remove key l k := by simp [remove, hb]
      rw [hrest, lookup_cons, lookup_cons, ih hl.2]
      by_cases hj : j = k <;> grind

theorem nodup_remove (hl : (l.map key).Nodup) (k : κ) : ((remove key l k).map key).Nodup :=
  hl.sublist (List.eraseP_sublist.map key)

theorem mem_remove_of_ne (h : key a ≠ k) (ha : a ∈ l) : a ∈ remove key l k :=
  (List.mem_eraseP_of_neg (by simpa using h)).mpr ha

theorem modify_cons_self {b : α} (h : key b = k) (l : List α) (f : α → α) :
    modify key (b :: l) k f = f b :: l := if_pos h

theorem modify_cons_of_ne {b : α} (h : key b ≠ k) (l : List α) (f : α → α) :
    modify key (b :: l) k f = b :: modify key l k f := if_neg h

theorem modify_of_lookup_eq_none (h : lookup key l k = none) (f : α → α) :
    modify key l k f = l := by
  induction l with
  | nil => rfl
  | cons b l ih =>
    rw [lookup_eq_none_iff, List.map_cons, List.mem_cons, not_or] at h
    rw [modify_cons_of_ne (Ne.symm h.1), ih (lookup_eq_none_iff.mpr h.2)]

theorem mem_modify_of_mem {f : α → α} (ha : a ∈ l) (h : lookup key l k ≠ some a) :
    a ∈ modify key l k f := by
  induction l with
  | nil => cases ha
  | cons b l ih =>
    rw [lookup_cons] at h
    by_cases hb : key b = k
    · rw [if_pos hb] at h
      rw [modify, if_pos hb]
      obtain rfl | ha := List.mem_cons.mp ha
      · exact absurd rfl h
      · exact List.mem_cons_of_mem _ ha
    · rw [if_neg hb] at h
      rw [modify, if_neg hb]
      obtain rfl | ha := List.mem_cons.mp ha
      · exact List.mem_cons_self
      · exact List.mem_cons_of_mem _ (ih ha h)

theorem filter_modify {f : α → α} {q : α → Bool} (h : ∀ b, key b = k → q b = false)
    (hf : ∀ b, key b = k → q (f b) = false) : (modify key l k f).filter q = l.filter q := by
  induction l with
  | nil => rfl
  | cons b l ih =>
    by_cases hb : key b = k
    · rw [modify_cons_self hb, List.filter_cons_of_neg (by rw [hf b hb]; decide),
        List.filter_cons_of_neg (by rw [h b hb]; decide)]
    · rw [modify_cons_of_ne hb, List.filter_cons, List.filter_cons, ih]

theorem map_key_modify {f : α → α} (hf : ∀ b, key b = k → key (f b) = k) :
    (modify key l k f).map key = l.map key := by
  induction l with
  | nil => rfl
  | cons b l ih =>
    by_cases hb : key b = k
    · rw [modify_cons_self hb, List.map_cons, List.map_cons, hf b hb, hb]
    · rw [modify_cons_of_ne hb, List.map_cons, List.map_cons, ih]

theorem lookup_modify {f : α → α} (hf : ∀ b, key b = k → key (f b) = k) (l : List α) (j : κ) :
    lookup key (modify key l k f) j = if j = k then (lookup key l k).map f else lookup key l j := by
  induction l with
  | nil => simp [modify, lookup]
  | cons b l ih =>
    by_cases hb : key b = k
    · rw [modify_cons_self hb, lookup_cons, lookup_cons, lookup_cons, hf b hb, hb]
      by_cases hj : j = k
      · simp [hj]
      · simp [hj, Ne.symm hj]
    · rw [modify_cons_of_ne hb, lookup_cons, lookup_cons, lookup_cons, if_neg hb, ih]
      by_cases hj : j = k
      · simp [hj, hb]
      · simp [hj]

theorem modify_eq_self_iff {f : α → α} (h : lookup key l k = some a) :
    modify key l k f = l ↔ f a = a := by
  induction l with
  | nil => cases h
  | cons b l ih =>
    rw [lookup_cons] at h
    by_cases hb : key b = k
    · rw [if_pos hb] at h
      cases h
      rw [modify_cons_self hb, List.cons.injEq, and_iff_left rfl]
    · rw [if_neg hb] at h
      rw [modify_cons_of_ne hb, List.cons.injEq, and_iff_right rfl, ih h]

theorem modify_eq_set (f : α → α) (h : lookup key l k = some a) :
    ∃ i, modify key l k f = l.set i (f a) := by
  induction l with
  | nil => cases h
  | cons b l ih =>
    rw [lookup_cons] at h
    by_cases hb : key b = k
    · rw [if_pos hb] at h
      cases h
      exact ⟨0, modify_cons_self hb l f⟩
    · rw [if_neg hb] at h
      obtain ⟨i, hi⟩ := ih h
      exact ⟨i + 1, by rw [modify_cons_of_ne hb, hi, List.set_cons_succ]⟩

theorem mem_of_mem_modify {f : α → α} {b : α} (h : b ∈ modify key l k f) :
    b ∈ l ∨ ∃ c ∈ l, key c = k ∧ b = f c := by
  induction l with
  | nil => cases h
  | cons c l ih =>
    by_cases hc : key c = k
    · rw [modify_cons_self hc] at h
      rcases List.mem_cons.mp h with rfl | h
      · exact .inr ⟨c, List.mem_cons_self, hc, rfl⟩
      · exact .inl (List.mem_cons_of_mem _ h)
    · rw [modify_cons_of_ne hc] at h
      rcases List.mem_cons.mp h with rfl | h
      · exact .inl List.mem_cons_self
      · obtain h | ⟨d, hd, hkey, rfl⟩ := ih h
        · exact .inl (List.mem_cons_of_mem _ h)
        · exact .inr ⟨d, List.mem_cons_of_mem _ hd, hkey, rfl⟩

end BrickOS.Lib.Keyed
