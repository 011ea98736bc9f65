import Mathlib.Data.List.Basic

/-! Finite runs of a partial step function. A step that yields `none` ends the run without
a final state. -/
namespace BrickOS.Lib

variable {σ α : Type*}

/-- The state reached by performing the actions in order. -/
def run (step : σ → α → Option σ) : σ → List α → Option σ
  | s, [] => some s
  | s, a :: as => (step s a).bind fun t => run step t as

/-- Every action of the run meets `P` in the state it is performed in. -/
def Along (step : σ → α → Option σ) (P : σ → α → Prop) : σ → List α → Prop
  | _, [] => True
  | s, a :: as => P s a ∧ ∀ t, step s a = some t → Along step P t as

variable {step : σ → α → Option σ} {P : σ → α → Prop} {I : σ → Prop}

@[simp] theorem run_nil (s : σ) : run step s [] = some s := rfl

theorem run_cons (s : σ) (a : α) (as : List α) :
    run step s (a :: as) = (step s a).bind fun t => run step t as := rfl

theorem run_append (s : σ) (as bs : List α) :
    run step s (as ++ bs) = (run step s as).bind fun t => run step t bs := by
  induction as generalizing s with
  | nil => rfl
  | cons a as ih =>
    simp only [List.cons_append, run_cons, Option.bind_assoc]
    cases step s a with
    | none => rfl
    | some t => exact ih t

theorem run_concat (s : σ) (as : List α) (a : α) :
    run step s (as ++ [a]) = (run step s as).bind fun t => step t a := by
  rw [run_append]
  congr 1
  funext t
  simp [run_cons]

theorem along_cons {s t : σ} {a : α} {as : List α} (h : step s a = some t) (ha : P s a)
    (has : Along step P t as) : Along step P s (a :: as) := by
  refine ⟨ha, fun u hu => ?_⟩
  obtain rfl : t = u := Option.some.inj (h.symm.trans hu)
  exact has

theorem along_cons_iff {s t : σ} {a : α} {as : List α} (h : step s a = some t) :
    Along step P s (a :: as) ↔ P s a ∧ Along step P t as :=
  ⟨fun hP => ⟨hP.1, hP.2 t h⟩, fun hP => along_cons h hP.1 hP.2⟩

theorem along_cons_none {s : σ} {a : α} {as : List α} (h : step s a = none) :
    Along step P s (a :: as) ↔ P s a := by
  simp [Along, h]

instance decidableAlong [∀ s a, Decidable (P s a)] :
    ∀ (s : σ) (as : List α), Decidable (Along step P s as)
  | _, [] => isTrue trivial
  | s, a :: as =>
    match h : step s a with
    | none => decidable_of_iff' (P s a) (along_cons_none h)
    | some t =>
      have := decidableAlong t as
      decidable_of_iff' (P s a ∧ Along step P t as) (along_cons_iff h)

theorem along_true (s : σ) (as : List α) : Along step (fun _ _ => True) s as := by
  induction as generalizing s with
  | nil => trivial
  | cons a as ih => exact ⟨trivial, fun t _ => ih t⟩

theorem Along.mono_of_mem {Q : σ → α → Prop} {s : σ} {as : List α}
    (hPQ : ∀ s a, a ∈ as → P s a → Q s a) (h : Along step P s as) : Along step Q s as := by
  induction as generalizing s with
  | nil => trivial
  | cons a as ih =>
    constructor
    · exact hPQ s a List.mem_cons_self h.1
    · intro t ht
      exact ih (fun s b hb => hPQ s b (List.mem_cons_of_mem a hb)) (h.2 t ht)

theorem Along.of_invariant {Q : σ → α → Prop}
    (hstep : ∀ s a, I s → P s a → Q s a ∧ ∀ t, step s a = some t → I t) {s : σ} {as : List α} (hs : I s)
    (h : Along step P s as) : Along step Q s as := by
  induction as generalizing s with
  | nil => trivial
  | cons a as ih =>
    obtain ⟨hQ, hI⟩ := hstep s a hs h.1
    exact ⟨hQ, fun t ht => ih (hI t ht) (h.2 t ht)⟩

theorem along_congr {Q : σ → α → Prop} (hPQ : ∀ s a, I s → (P s a ↔ Q s a))
    (hstep : ∀ s a t, step s a = some t → I s → I t) {s : σ} (hI : I s) (as : List α) :
    Along step P s as ↔ Along step Q s as := by
  induction as generalizing s with
  | nil => exact Iff.rfl
  | cons a as ih =>
    exact and_congr (hPQ s a hI) (forall₂_congr fun t ht => ih (hstep s a t ht hI))

theorem run_invariant (hstep : ∀ s a t, P s a → step s a = some t → I s → I t)
    {s t : σ} {as : List α} (hP : Along step P s as) (hr : run step s as = some t)
    (hs : I s) : I t := by
  induction as generalizing s with
  | nil => cases hr; exact hs
  | cons a as ih =>
    obtain ⟨u, hu, hr'⟩ := Option.bind_eq_some_iff.mp hr
    exact ih (hP.2 u hu) hr' (hstep s a u hP.1 hu hs)

theorem forall_reached_iff_along {J : σ → Prop}
    (hstep : ∀ s a t, step s a = some t → I s → J s → I t ∧ (J t ↔ P s a))
    (hnone : ∀ s a, step s a = none → I s → P s a) {s : σ} {as : List α} (hI : I s) (hJ : J s) :
    (∀ bs, bs <+: as → ∀ t, run step s bs = some t → J t) ↔ Along step P s as := by
  induction as generalizing s with
  | nil =>
    refine iff_of_true (fun bs hbs t ht => ?_) trivial
    rw [List.prefix_nil.mp hbs] at ht
    cases ht
    exact hJ
  | cons a as ih =>
    cases ha : step s a with
    | none =>
      refine iff_of_true (fun bs hbs t ht => ?_) ((along_cons_none ha).mpr (hnone s a ha hI))
      rcases List.prefix_cons_iff.mp hbs with rfl | ⟨bs, rfl, -⟩
      · cases ht
        exact hJ
      · rw [run_cons, ha] at ht
        cases ht
    | some u =>
      obtain ⟨hIu, hJu⟩ := hstep s a u ha hI hJ
      rw [along_cons_iff ha]
      constructor
      · intro hall
        have hu : J u := hall [a] (List.prefix_cons_iff.mpr (.inr ⟨[], rfl, List.nil_prefix⟩)) u
          (by rw [run_cons, ha]; rfl)
        refine ⟨hJu.mp hu, (ih hIu hu).mp fun bs hbs t ht => ?_⟩
        refine hall (a :: bs) (List.prefix_cons_iff.mpr (.inr ⟨bs, rfl, hbs⟩)) t ?_
        rw [run_cons, ha]
        exact ht
      · rintro ⟨hP, hrest⟩ bs hbs t ht
        rcases List.prefix_cons_iff.mp hbs with rfl | ⟨bs, rfl, hrests⟩
        · cases ht
          exact hJ
        · rw [run_cons, ha] at ht
          exact (ih hIu (hJu.mpr hP)).mpr hrest bs hrests t ht

theorem run_total (hstep : ∀ s a, P s a → I s → ∃ t, step s a = some t ∧ I t)
    {s : σ} {as : List α} (hP : Along step P s as) (hs : I s) :
    ∃ t, run step s as = some t ∧ I t := by
  induction as generalizing s with
  | nil => exact ⟨s, rfl, hs⟩
  | cons a as ih =>
    obtain ⟨u, hu, hi⟩ := hstep s a hP.1 hs
    obtain ⟨t, ht, hit⟩ := ih (hP.2 u hu) hi
    exact ⟨t, by rw [run_cons, hu]; exact ht, hit⟩

theorem run_related {τ : Type*} {step' : τ → α → Option τ} {R : σ → τ → Prop}
    (hstep : ∀ s m a, P s a → R s m → ∃ t n, step s a = some t ∧ step' m a = some n ∧ R t n)
    {s : σ} {m : τ} {as : List α} (hP : Along step P s as) (hs : R s m) :
    ∃ t n, run step s as = some t ∧ run step' m as = some n ∧ R t n := by
  induction as generalizing s m with
  | nil => exact ⟨s, m, rfl, rfl, hs⟩
  | cons a as ih =>
    obtain ⟨u, v, hu, hv, huv⟩ := hstep s m a hP.1 hs
    obtain ⟨t, n, ht, hn, htn⟩ := ih (hP.2 u hu) huv
    refine ⟨t, n, ?_, ?_, htn⟩
    · rw [run_cons, hu]
      exact ht
    · rw [run_cons, hv]
      exact hn

end BrickOS.Lib
