import Mathlib.Data.Set.Basic

/-! Waiting for locks. `waits t` is the lock that `t` waits for and `holder l` the one who has it. -/
namespace BrickOS.Lib

variable {T L : Type*} {waits : T → Option L} {holder : L → Option T}

def WaitsFor (waits : T → Option L) (holder : L → Option T) (t u : T) : Prop :=
  ∃ l, waits t = some l ∧ holder l = some u

/-- Each of a set waits for a lock that another of the set holds. -/
def Deadlocked (waits : T → Option L) (holder : L → Option T) : Prop :=
  ∃ S : Set T, S.Nonempty ∧ ∀ t ∈ S, ∃ u ∈ S, u ≠ t ∧ WaitsFor waits holder t u

theorem not_deadlocked_of_rank (rank : T → ℕ)
    (h : ∀ t u v, WaitsFor waits holder t u → WaitsFor waits holder u v → rank u < rank t) :
    ¬ Deadlocked waits holder := by
  rintro ⟨S, ⟨t, ht⟩, hS⟩
  -- nobody of any rank is in the set
  have hnone : ∀ n, ∀ t ∈ S, rank t ≠ n := by
    intro n
    induction n using Nat.strong_induction_on with
    | h n ih =>
      intro t ht hrank
      obtain ⟨u, hu, -, htu⟩ := hS t ht
      obtain ⟨v, -, -, huv⟩ := hS u hu
      exact ih (rank u) (hrank ▸ h t u v htu huv) u hu rfl
  exact hnone (rank t) t ht rfl

end BrickOS.Lib
