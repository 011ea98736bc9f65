import Mathlib.Data.List.Induction
import Mathlib.Data.List.Infix
import Mathlib.Tactic.Common

/-! Trees of tables kept in a memory of tables: the present entries of a table lead to other
tables. A table is named by a root and the path of indices that leads to it, and `V` says which
of these positions hold tables. -/
namespace BrickOS.Lib.PathTree

variable {α ι E : Type*}

/-- How an entry is read: whether it is present, and the table it leads to. -/
structure Codec (α E : Type*) where
  present : E → Bool
  child : E → α

/-- The table reached from `t` along a path. -/
def walk (c : Codec α E) (mem : α → ι → E) : α → List ι → Option α
  | t, [] => some t
  | t, i :: is => if c.present (mem t i) then walk c mem (c.child (mem t i)) is else none

/-- The present entry `i` of the table at the end of a path. -/
def leaf (c : Codec α E) (mem : α → ι → E) (r : α) (p : List ι) (i : ι) : Option E :=
  (walk c mem r p).bind fun t => if c.present (mem t i) then some (mem t i) else none

/-- `t` is a table at one of the positions `V`. -/
def Table (c : Codec α E) (V : α → List ι → Prop) (mem : α → ι → E) (t : α) : Prop :=
  ∃ r p, V r p ∧ walk c mem r p = some t

/-- No table is at two positions. -/
def Distinct (c : Codec α E) (V : α → List ι → Prop) (mem : α → ι → E) : Prop :=
  ∀ ⦃r r' : α⦄ ⦃p p' : List ι⦄ ⦃t : α⦄, V r p → V r' p' →
    walk c mem r p = some t → walk c mem r' p' = some t → r = r' ∧ p = p'

/-- Whatever leads to a position is a position. -/
def Closed (V : α → List ι → Prop) : Prop :=
  ∀ ⦃r : α⦄ ⦃p q : List ι⦄, V r (p ++ q) → V r p

/-- Among the entries of the tables, at most entry `i` of `t` differs. -/
def Changed (c : Codec α E) (V : α → List ι → Prop) (mem mem' : α → ι → E) (t : α) (i : ι) :
    Prop :=
  ∀ u j, Table c V mem u → ¬ (u = t ∧ j = i) → mem' u j = mem u j

/-- `i` leads from a position to a page and not to a table. -/
def Page (V : α → List ι → Prop) (r : α) (p : List ι) (i : ι) : Prop :=
  V r p ∧ ¬ V r (p ++ [i])

variable {c : Codec α E} {V : α → List ι → Prop} {mem mem' : α → ι → E} {r r' t u f : α}
  {p p' pre : List ι} {i j : ι}

@[simp] theorem walk_nil (t : α) : walk c mem t [] = some t := rfl

theorem walk_cons (t : α) (i : ι) (is : List ι) : walk c mem t (i :: is) =
    if c.present (mem t i) then walk c mem (c.child (mem t i)) is else none := rfl

theorem walk_cons_congr (h : mem t i = mem u i) (is : List ι) :
    walk c mem t (i :: is) = walk c mem u (i :: is) := by
  rw [walk_cons, walk_cons, h]

theorem walk_append (t : α) (p q : List ι) :
    walk c mem t (p ++ q) = (walk c mem t p).bind fun u => walk c mem u q := by
  induction p generalizing t with
  | nil => rfl
  | cons i p ih =>
    simp only [List.cons_append, walk_cons]
    split_ifs
    · exact ih _
    · rfl

theorem walk_concat (t : α) (p : List ι) (i : ι) : walk c mem t (p ++ [i]) =
    (walk c mem t p).bind fun u =>
      if c.present (mem u i) then some (c.child (mem u i)) else none := by
  rw [walk_append]
  rfl

theorem walk_concat_of_some (h : walk c mem r p = some t) (hpresent : c.present (mem t i)) :
    walk c mem r (p ++ [i]) = some (c.child (mem t i)) := by
  rw [walk_concat, h, Option.bind_some, if_pos hpresent]

theorem entry_of_walk_concat (h : walk c mem r p = some t) (hf : walk c mem r (p ++ [i]) = some f) :
    c.present (mem t i) ∧ c.child (mem t i) = f := by
  rw [walk_concat, h, Option.bind_some] at hf
  split_ifs at hf with hpresent
  exact ⟨hpresent, Option.some.inj hf⟩

theorem leaf_of_walk (h : walk c mem r p = some t) :
    leaf c mem r p i = if c.present (mem t i) then some (mem t i) else none := by
  rw [leaf, h, Option.bind_some]

theorem leaf_eq_some {e : E} (h : leaf c mem r p i = some e) :
    ∃ t, walk c mem r p = some t ∧ c.present (mem t i) ∧ mem t i = e := by
  obtain ⟨t, ht, he⟩ := Option.bind_eq_some_iff.mp h
  split_ifs at he with hpresent
  exact ⟨t, ht, hpresent, Option.some.inj he⟩

theorem Table.of_walk (hV : V r p) (h : walk c mem r p = some t) : Table c V mem t :=
  ⟨r, p, hV, h⟩

theorem Page.not_position (h : Page V r p i) (hV : V r (pre ++ [j])) :
    ¬ (pre ++ [j] = p ++ [i]) := fun heq => h.2 (heq ▸ hV)

theorem walk_of_agree (hclosed : Closed V) (hagree : ∀ u, Table c V mem u → mem' u = mem u)
    (hV : V r p) : walk c mem' r p = walk c mem r p := by
  induction p using List.reverseRecOn with
  | nil => rfl
  | append_singleton p i ih =>
    have hVp : V r p := hclosed hV
    rw [walk_concat, walk_concat, ih hVp]
    cases hu : walk c mem r p with
    | none => rfl
    | some u => rw [Option.bind_some, Option.bind_some, hagree u ⟨r, p, hVp, hu⟩]

theorem leaf_of_agree (hclosed : Closed V) (hagree : ∀ u, Table c V mem u → mem' u = mem u)
    (hV : V r p) : leaf c mem' r p i = leaf c mem r p i := by
  rw [leaf, leaf, walk_of_agree hclosed hagree hV]
  cases hu : walk c mem r p with
  | none => rfl
  | some u => rw [Option.bind_some, Option.bind_some, hagree u ⟨r, p, hV, hu⟩]

theorem walk_of_removed (h : ∀ u j, c.present (mem' u j) → mem' u j = mem u j)
    (hp : walk c mem' r p = some t) : walk c mem r p = some t := by
  induction p generalizing r with
  | nil => exact hp
  | cons i p ih =>
    rw [walk_cons] at hp ⊢
    split_ifs at hp with hpresent
    rw [h r i hpresent] at hp hpresent
    rw [if_pos hpresent]
    exact ih hp

section Change

variable (hclosed : Closed V) (hdistinct : Distinct c V mem) (hpre : V r pre)
  (ht : walk c mem r pre = some t) (hchange : Changed c V mem mem' t i)
include hclosed hdistinct hpre ht hchange

theorem walk_of_not_prefix (hV : ∀ q j, p' = q ++ [j] → V r' q)
    (hoff : ¬ (r' = r ∧ pre ++ [i] <+: p')) : walk c mem' r' p' = walk c mem r' p' := by
  induction p' using List.reverseRecOn with
  | nil => rfl
  | append_singleton p' j ih =>
    have hVp : V r' p' := hV p' j rfl
    have hoff' : ¬ (r' = r ∧ pre ++ [i] <+: p') := fun h =>
      hoff ⟨h.1, h.2.trans (List.prefix_append p' [j])⟩
    have hsame := ih (fun q k hq => hclosed (q := [k]) (hq ▸ hVp)) hoff'
    rw [walk_concat, walk_concat, hsame]
    cases hu : walk c mem r' p' with
    | none => rfl
    | some u =>
      have hentry : mem' u j = mem u j := by
        refine hchange u j ⟨r', p', hVp, hu⟩ ?_
        rintro ⟨rfl, rfl⟩
        obtain ⟨rfl, rfl⟩ := hdistinct hVp hpre hu ht
        exact hoff ⟨rfl, List.prefix_rfl⟩
      simp only [Option.bind_some, hentry]

theorem walk_of_position (hV : V r' p') (hoff : ¬ (r' = r ∧ pre ++ [i] <+: p')) :
    walk c mem' r' p' = walk c mem r' p' :=
  walk_of_not_prefix hclosed hdistinct hpre ht hchange
    (fun _ _ hq => hclosed (hq ▸ hV)) hoff

theorem walk_changed : walk c mem' r pre = some t := by
  rw [walk_of_position hclosed hdistinct hpre ht hchange hpre, ht]
  rintro ⟨-, hpref⟩
  have hlen := hpref.length_le
  rw [List.length_append, List.length_singleton] at hlen
  omega

theorem leaf_of_not_prefix (hV : V r' p') (hoff : ¬ (r' = r ∧ pre ++ [i] <+: p' ++ [j])) :
    leaf c mem' r' p' j = leaf c mem r' p' j := by
  have hwalk : walk c mem' r' p' = walk c mem r' p' :=
    walk_of_position hclosed hdistinct hpre ht hchange hV fun h =>
      hoff ⟨h.1, h.2.trans (List.prefix_append p' [j])⟩
  rw [leaf, leaf, hwalk]
  cases hu : walk c mem r' p' with
  | none => rfl
  | some u =>
    have hentry : mem' u j = mem u j := by
      refine hchange u j ⟨r', p', hV, hu⟩ ?_
      rintro ⟨rfl, rfl⟩
      obtain ⟨rfl, rfl⟩ := hdistinct hV hpre hu ht
      exact hoff ⟨rfl, List.prefix_rfl⟩
    simp only [Option.bind_some, hentry]

/-- The entry of a table is not one of a page, so that the pages not below it are left alone. -/
theorem leaf_of_not_below (hV : V r (pre ++ [i])) (hpage : Page V r' p' j)
    (hoff : ¬ (r' = r ∧ pre ++ [i] <+: p')) : leaf c mem' r' p' j = leaf c mem r' p' j := by
  refine leaf_of_not_prefix hclosed hdistinct hpre ht hchange hpage.1 ?_
  rintro ⟨rfl, hpref⟩
  rcases List.prefix_concat_iff.mp hpref with heq | hpref
  · exact hpage.not_position hV heq
  · exact hoff ⟨rfl, hpref⟩

/-! A changed page entry. -/

theorem walk_setPage (hpage : Page V r pre i) (hV : V r' p') :
    walk c mem' r' p' = walk c mem r' p' := by
  refine walk_of_position hclosed hdistinct hpre ht hchange hV ?_
  rintro ⟨rfl, q, rfl⟩
  exact hpage.2 (hclosed hV)

theorem leaf_setPage_self (hpage : Page V r pre i) : leaf c mem' r pre i =
    if c.present (mem' t i) then some (mem' t i) else none :=
  leaf_of_walk ((walk_setPage hclosed hdistinct hpre ht hchange hpage hpre).trans ht)

theorem leaf_setPage_of_ne (hpage : Page V r pre i) (hV : V r' p')
    (hne : ¬ (r' = r ∧ p' = pre ∧ j = i)) : leaf c mem' r' p' j = leaf c mem r' p' j := by
  refine leaf_of_not_prefix hclosed hdistinct hpre ht hchange hV ?_
  rintro ⟨rfl, q, hq⟩
  rcases List.eq_nil_or_concat q with rfl | ⟨q, k, rfl⟩
  · rw [List.append_nil] at hq
    obtain ⟨rfl, heq⟩ := List.append_inj' hq rfl
    exact hne ⟨rfl, rfl, (List.singleton_inj.mp heq).symm⟩
  · rw [List.concat_eq_append, ← List.append_assoc] at hq
    obtain ⟨rfl, -⟩ := List.append_inj' hq rfl
    exact hpage.2 (hclosed hV)

/-! An empty table is linked in at an absent entry. -/

section Link

variable (hV : V r (pre ++ [i])) (habsent : ¬ c.present (mem t i))
  (hpresent : c.present (mem' t i)) (hchild : c.child (mem' t i) = f)
  (hempty : ∀ j, ¬ c.present (mem' f j))
include hV habsent hpresent hchild hempty

theorem walk_link (hV' : V r' p') : walk c mem' r' p' = some u ↔
    walk c mem r' p' = some u ∨ (r' = r ∧ p' = pre ++ [i] ∧ u = f) := by
  by_cases hon : r' = r ∧ pre ++ [i] <+: p'
  · obtain ⟨rfl, q, rfl⟩ := hon
    have hnew : walk c mem' r' (pre ++ [i]) = some f := by
      rw [walk_concat_of_some (walk_changed hclosed hdistinct hpre ht hchange) hpresent, hchild]
    have hold : walk c mem r' (pre ++ [i]) = none := by
      rw [walk_concat, ht, Option.bind_some, if_neg habsent]
    rw [walk_append _ (pre ++ [i]), walk_append _ (pre ++ [i]), hnew, hold]
    cases q with
    | nil => simp [eq_comm]
    | cons k q => simp [walk_cons, hempty k]
  · rw [walk_of_position hclosed hdistinct hpre ht hchange hV' hon]
    refine ⟨Or.inl, fun h => h.resolve_right ?_⟩
    rintro ⟨rfl, rfl, -⟩
    exact hon ⟨rfl, List.prefix_rfl⟩

theorem table_link : Table c V mem' u ↔ Table c V mem u ∨ u = f := by
  have hwalk : ∀ r' p', V r' p' → (walk c mem' r' p' = some u ↔
      walk c mem r' p' = some u ∨ (r' = r ∧ p' = pre ++ [i] ∧ u = f)) := fun _ _ hV' =>
    walk_link hclosed hdistinct hpre ht hchange hV habsent hpresent hchild hempty hV'
  constructor
  · rintro ⟨r', p', hV', h⟩
    rcases (hwalk r' p' hV').mp h with h | ⟨-, -, h⟩
    · exact Or.inl ⟨r', p', hV', h⟩
    · exact Or.inr h
  · rintro (⟨r', p', hV', h⟩ | rfl)
    · exact ⟨r', p', hV', (hwalk r' p' hV').mpr (Or.inl h)⟩
    · exact ⟨r, pre ++ [i], hV, (hwalk _ _ hV).mpr (Or.inr ⟨rfl, rfl, rfl⟩)⟩

theorem distinct_link (hfresh : ¬ Table c V mem f) : Distinct c V mem' := by
  intro r₁ r₂ p₁ p₂ u h₁ h₂ hw₁ hw₂
  rw [walk_link hclosed hdistinct hpre ht hchange hV habsent hpresent hchild hempty h₁] at hw₁
  rw [walk_link hclosed hdistinct hpre ht hchange hV habsent hpresent hchild hempty h₂] at hw₂
  rcases hw₁ with hw₁ | ⟨hr₁, hp₁, hu₁⟩ <;> rcases hw₂ with hw₂ | ⟨hr₂, hp₂, hu₂⟩
  · exact hdistinct h₁ h₂ hw₁ hw₂
  · exact (hfresh (hu₂ ▸ Table.of_walk h₁ hw₁)).elim
  · exact (hfresh (hu₁ ▸ Table.of_walk h₂ hw₂)).elim
  · exact ⟨hr₁.trans hr₂.symm, hp₁.trans hp₂.symm⟩

theorem leaf_link (hpage : Page V r' p' j) : leaf c mem' r' p' j = leaf c mem r' p' j := by
  by_cases hon : r' = r ∧ pre ++ [i] <+: p'
  · obtain ⟨rfl, hpref⟩ := hon
    have hold : walk c mem r' p' = none := by
      obtain ⟨q, rfl⟩ := hpref
      rw [walk_append, walk_concat, ht, Option.bind_some, if_neg habsent]
      rfl
    rw [leaf, leaf, hold]
    cases hu : walk c mem' r' p' with
    | none => rfl
    | some u =>
      obtain ⟨-, -, rfl⟩ := ((walk_link hclosed hdistinct hpre ht hchange hV habsent hpresent
        hchild hempty hpage.1).mp hu).resolve_left (by simp [hold])
      simp [hempty j]
  · exact leaf_of_not_below hclosed hdistinct hpre ht hchange hV hpage hon

end Link

/-! The entry of an empty table is cleared. -/

section Unlink

variable (hV : V r (pre ++ [i])) (hpresent : c.present (mem t i))
  (hchild : c.child (mem t i) = f) (hempty : ∀ j, ¬ c.present (mem f j))
  (habsent : ¬ c.present (mem' t i))
include hV hpresent hchild hempty habsent

theorem walk_unlink (hV' : V r' p') : walk c mem' r' p' = some u ↔
    walk c mem r' p' = some u ∧ ¬ (r' = r ∧ p' = pre ++ [i]) := by
  by_cases hon : r' = r ∧ pre ++ [i] <+: p'
  · obtain ⟨rfl, q, rfl⟩ := hon
    have hnew : walk c mem' r' (pre ++ [i]) = none := by
      rw [walk_concat, walk_changed hclosed hdistinct hpre ht hchange, Option.bind_some,
        if_neg habsent]
    have hold : walk c mem r' (pre ++ [i]) = some f := by
      rw [walk_concat_of_some ht hpresent, hchild]
    rw [walk_append _ (pre ++ [i]), walk_append _ (pre ++ [i]), hnew, hold]
    cases q with
    | nil => simp
    | cons k q => simp [walk_cons, hempty k]
  · rw [walk_of_position hclosed hdistinct hpre ht hchange hV' hon, iff_self_and]
    rintro - ⟨rfl, rfl⟩
    exact hon ⟨rfl, List.prefix_rfl⟩

theorem table_unlink : Table c V mem' u ↔ Table c V mem u ∧ u ≠ f := by
  have hf : walk c mem r (pre ++ [i]) = some f := by
    rw [walk_concat_of_some ht hpresent, hchild]
  have hwalk : ∀ r' p', V r' p' → (walk c mem' r' p' = some u ↔
      walk c mem r' p' = some u ∧ ¬ (r' = r ∧ p' = pre ++ [i])) := fun _ _ hV' =>
    walk_unlink hclosed hdistinct hpre ht hchange hV hpresent hchild hempty habsent hV'
  constructor
  · rintro ⟨r', p', hV', h⟩
    obtain ⟨h, hne⟩ := (hwalk r' p' hV').mp h
    refine ⟨⟨r', p', hV', h⟩, ?_⟩
    rintro rfl
    exact hne (hdistinct hV' hV h hf)
  · rintro ⟨⟨r', p', hV', h⟩, hne⟩
    refine ⟨r', p', hV', (hwalk r' p' hV').mpr ⟨h, ?_⟩⟩
    rintro ⟨rfl, rfl⟩
    exact hne (Option.some.inj (h.symm.trans hf))

theorem distinct_unlink : Distinct c V mem' := by
  intro r₁ r₂ p₁ p₂ u h₁ h₂ hw₁ hw₂
  rw [walk_unlink hclosed hdistinct hpre ht hchange hV hpresent hchild hempty habsent h₁] at hw₁
  rw [walk_unlink hclosed hdistinct hpre ht hchange hV hpresent hchild hempty habsent h₂] at hw₂
  exact hdistinct h₁ h₂ hw₁.1 hw₂.1

theorem leaf_unlink (hpage : Page V r' p' j) : leaf c mem' r' p' j = leaf c mem r' p' j := by
  by_cases hon : r' = r ∧ pre ++ [i] <+: p'
  · obtain ⟨rfl, q, rfl⟩ := hon
    have hnew : walk c mem' r' (pre ++ [i] ++ q) = none := by
      rw [walk_append, walk_concat, walk_changed hclosed hdistinct hpre ht hchange,
        Option.bind_some, if_neg habsent]
      rfl
    have hold : walk c mem r' (pre ++ [i]) = some f := by
      rw [walk_concat_of_some ht hpresent, hchild]
    rw [leaf, leaf, hnew, walk_append _ (pre ++ [i]), hold]
    cases q with
    | nil => simp [hempty j]
    | cons k q => simp [walk_cons, hempty k]
  · exact leaf_of_not_below hclosed hdistinct hpre ht hchange hV hpage hon

end Unlink

end Change

end BrickOS.Lib.PathTree
