import Mathlib.Data.List.Induction
import Mathlib.Order.Lattice

/-! The first among the best elements of a list, as one pass over it finds it. -/
namespace BrickOS.Lib

variable {α β : Type*} [LinearOrder β] {p : α → Prop} [DecidablePred p] {f : α → β}
  {l l' : List α} {a : α}

/-- One pass: an element replaces the best so far when it counts and is better. -/
def firstBest (p : α → Prop) [DecidablePred p] (f : α → β) (l : List α) : Option α :=
  l.foldl (fun best a => if p a ∧ best.all (fun b => f a > f b) then some a else best) none

/-- No element in front of `a` is as good, and none behind it is better. -/
structure IsFirstBest (p : α → Prop) (f : α → β) (before : List α) (a : α) (after : List α) :
    Prop where
  holds : p a
  before : ∀ b ∈ before, p b → f b < f a
  after : ∀ b ∈ after, p b → f b ≤ f a

theorem firstBest_concat (l : List α) (a : α) : firstBest p f (l ++ [a]) =
    if p a ∧ (firstBest p f l).all (fun b => f a > f b) then some a else firstBest p f l := by
  unfold firstBest
  rw [List.foldl_append]
  rfl

theorem firstBest_spec (l : List α) :
    (firstBest p f l = none ∧ ∀ b ∈ l, ¬ p b) ∨
      ∃ before a after, firstBest p f l = some a ∧ l = before ++ a :: after ∧
        IsFirstBest p f before a after := by
  induction l using List.reverseRecOn with
  | nil => exact .inl ⟨rfl, fun b hb => nomatch hb⟩
  | append_singleton l c ih =>
    rw [firstBest_concat]
    obtain ⟨hnone, hl⟩ | ⟨before, a, after, hsome, hl, hbest⟩ := ih
    · rw [hnone]
      by_cases hc : p c
      · refine .inr ⟨l, c, [], if_pos ⟨hc, rfl⟩, rfl, hc, fun b hb hpb => ?_, fun b hb => nomatch hb⟩
        exact absurd hpb (hl b hb)
      · refine .inl ⟨if_neg fun h => hc h.1, fun b hb => ?_⟩
        rcases List.mem_append.mp hb with hb | hb
        · exact hl b hb
        · rwa [List.mem_singleton.mp hb]
    · rw [hsome]
      right
      by_cases hc : p c ∧ f a < f c
      · refine ⟨l, c, [], if_pos ⟨hc.1, by simpa using hc.2⟩, rfl, hc.1, fun b hb hpb => ?_,
          fun b hb => nomatch hb⟩
        rw [hl] at hb
        rcases List.mem_append.mp hb with hb | hb
        · exact (hbest.before b hb hpb).trans hc.2
        rcases List.mem_cons.mp hb with rfl | hb
        · exact hc.2
        · exact (hbest.after b hb hpb).trans_lt hc.2
      · refine ⟨before, a, after ++ [c], if_neg fun h => hc ⟨h.1, by simpa using h.2⟩, ?_,
          hbest.holds, hbest.before, fun b hb hpb => ?_⟩
        · rw [hl, List.append_assoc, List.cons_append]
        · rcases List.mem_append.mp hb with hb | hb
          · exact hbest.after b hb hpb
          · rw [List.mem_singleton.mp hb] at hpb ⊢
            exact not_lt.mp fun hlt => hc ⟨hpb, hlt⟩

theorem holds_of_firstBest (h : firstBest p f l = some a) : p a := by
  obtain ⟨hnone, -⟩ | ⟨before, b, after, hsome, -, hbest⟩ := @firstBest_spec _ _ _ p _ f l
  · rw [hnone] at h
    cases h
  · rw [hsome] at h
    cases h
    exact hbest.holds

theorem mem_of_firstBest (h : firstBest p f l = some a) : a ∈ l := by
  obtain ⟨hnone, -⟩ | ⟨before, b, after, hsome, hl, -⟩ := @firstBest_spec _ _ _ p _ f l
  · rw [hnone] at h
    cases h
  · rw [hsome] at h
    cases h
    rw [hl]
    exact List.mem_append_right _ List.mem_cons_self

theorem firstBest_filter (l : List α) : firstBest p f (l.filter p) = firstBest p f l := by
  induction l using List.reverseRecOn with
  | nil => rfl
  | append_singleton l c ih =>
    rw [List.filter_append, firstBest_concat]
    by_cases hc : p c
    · rw [List.filter_cons_of_pos (by simpa using hc), List.filter_nil, firstBest_concat, ih]
    · rw [List.filter_cons_of_neg (by simpa using hc), List.filter_nil, List.append_nil, ih,
        if_neg fun h => hc h.1]

theorem firstBest_filter_gt (l : List α) (t : β) :
    firstBest p f (l.filter fun a => t < f a) = (firstBest p f l).filter fun a => t < f a := by
  induction l using List.reverseRecOn with
  | nil => rfl
  | append_singleton l c ih =>
    rw [List.filter_append, firstBest_concat]
    by_cases hc : t < f c
    · rw [List.filter_cons_of_pos (by simpa using hc), List.filter_nil, firstBest_concat, ih]
      cases firstBest p f l with
      | none => by_cases hp : p c <;> simp [Option.filter, hp, hc]
      | some b =>
        by_cases hb : t < f b
        · by_cases hcond : p c ∧ f b < f c <;> simp [Option.filter, hb, hc, hcond]
        · have hbc : f b < f c := (not_lt.mp hb).trans_lt hc
          by_cases hp : p c <;> simp [Option.filter, hb, hc, hbc, hp]
    · rw [List.filter_cons_of_neg (by simpa using hc), List.filter_nil, List.append_nil, ih]
      cases firstBest p f l with
      | none => by_cases hp : p c <;> simp [Option.filter, hp, hc]
      | some b =>
        by_cases hcond : p c ∧ f b < f c
        · have hb : ¬ t < f b := fun hb => hc (hb.trans hcond.2)
          simp [Option.filter, hcond, hb, hc]
        · simp [hcond]

theorem firstBest_congr (h : l.filter p = l'.filter p) :
    firstBest p f l = firstBest p f l' := by
  rw [← firstBest_filter l, h, firstBest_filter]

theorem firstBest_congr_gt {t : β} (h : (l.filter fun a => t < f a) = l'.filter fun a => t < f a)
    (ha : firstBest p f l = some a) (ht : t < f a) : firstBest p f l' = some a := by
  have hfilter := @firstBest_filter_gt _ _ _ p _ f l t
  have hfilter' := @firstBest_filter_gt _ _ _ p _ f l' t
  rw [ha, Option.filter_some_pos (by simpa using ht), h, hfilter', Option.filter_eq_some_iff] at hfilter
  exact hfilter.1

end BrickOS.Lib
