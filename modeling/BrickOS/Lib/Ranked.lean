import Mathlib.Data.Nat.Count

/-! Tables kept in the order of the marked positions: the entry of a marked position stands at
its rank, the number of marked positions before it. -/
namespace BrickOS.Lib

variable {β : Type*}

/-- The number of marked positions below `n`. -/
def rank (p : ℕ → Bool) (n : ℕ) : ℕ := Nat.count (fun i => p i = true) n

/-- The table with room made for `v` at `pos`. -/
def insertAt (slot : ℕ → β) (pos : ℕ) (v : β) : ℕ → β := fun i =>
  if i < pos then slot i else if i = pos then v else slot (i - 1)

/-- The table with the entry at `pos` taken out. -/
def removeAt (slot : ℕ → β) (pos : ℕ) : ℕ → β := fun i =>
  if i < pos then slot i else slot (i + 1)

/-- `q` marks what `p` marks, and `b` in addition. -/
structure Marked (p q : ℕ → Bool) (b : ℕ) : Prop where
  fresh : p b = false
  mark : q b = true
  same : ∀ i, i ≠ b → q i = p i

theorem rank_mono (p : ℕ → Bool) {m n : ℕ} (h : m ≤ n) : rank p m ≤ rank p n :=
  Nat.count_monotone _ h

theorem rank_lt {p : ℕ → Bool} {m n : ℕ} (hm : p m = true) (h : m < n) : rank p m < rank p n :=
  Nat.count_strict_mono hm h

theorem rank_inj {p : ℕ → Bool} {m n : ℕ} (hm : p m = true) (hn : p n = true)
    (h : rank p m = rank p n) : m = n := Nat.count_injective hm hn h

theorem rank_decide_lt {k n : ℕ} (hn : k ≤ n) : rank (fun i => decide (i < k)) n = k := by
  obtain ⟨d, rfl⟩ := Nat.exists_eq_add_of_le hn
  have hmarked : Nat.count (fun i => decide (i < k) = true) k = k :=
    Nat.count_of_forall fun i hi => decide_eq_true hi
  have hbehind : Nat.count (fun i => decide (k + i < k) = true) d = 0 := by
    rw [Nat.count_iff_forall_not]
    intro i _
    rw [decide_eq_true_eq]
    omega
  rw [rank, Nat.count_add, hmarked, hbehind, Nat.add_zero]

theorem exists_of_lt_rank {p : ℕ → Bool} {i n : ℕ} (h : i < rank p n) :
    ∃ m < n, p m = true ∧ rank p m = i := by
  induction n with
  | zero => simp [rank] at h
  | succ n ih =>
    unfold rank at h
    rw [Nat.count_succ] at h
    by_cases hi : i < rank p n
    · obtain ⟨m, hm, hp, hr⟩ := ih hi
      exact ⟨m, by omega, hp, hr⟩
    · unfold rank at hi
      split_ifs at h with hp
      · exact ⟨n, by omega, hp, show Nat.count _ n = i by omega⟩
      · omega

namespace Marked

variable {p q : ℕ → Bool} {b : ℕ}

theorem rank_eq (h : Marked p q b) (n : ℕ) : rank q n = rank p n + if b < n then 1 else 0 := by
  induction n with
  | zero => simp [rank]
  | succ n ih =>
    unfold rank at ih ⊢
    rw [Nat.count_succ, Nat.count_succ, ih]
    by_cases hb : n = b
    · subst hb
      simp [h.mark, h.fresh]
    · have hlt : b < n + 1 ↔ b < n := by omega
      rw [h.same n hb, Nat.add_right_comm]
      simp only [hlt]

theorem rank_self (h : Marked p q b) : rank q b = rank p b := by
  rw [h.rank_eq, if_neg (lt_irrefl b), add_zero]

theorem insertAt_of_ne (h : Marked p q b) (slot : ℕ → β) (v : β) {c : ℕ} (hc : p c = true) :
    insertAt slot (rank p b) v (rank q c) = slot (rank p c) := by
  have hne : c ≠ b := fun hcb => by rw [hcb, h.fresh] at hc; cases hc
  unfold insertAt
  rw [h.rank_eq]
  by_cases hlt : b < c
  · have hle : rank p b ≤ rank p c := rank_mono p hlt.le
    rw [if_pos hlt, if_neg (by omega), if_neg (by omega), Nat.add_sub_cancel]
  · have hcb : rank p c < rank p b := rank_lt hc (by omega)
    rw [if_neg hlt, add_zero, if_pos hcb]

theorem insertAt_self (h : Marked p q b) (slot : ℕ → β) (v : β) :
    insertAt slot (rank p b) v (rank q b) = v := by
  unfold insertAt
  rw [h.rank_self, if_neg (lt_irrefl _), if_pos rfl]

theorem removeAt_of_ne (h : Marked p q b) (slot : ℕ → β) {c : ℕ} (hc : p c = true) :
    removeAt slot (rank q b) (rank p c) = slot (rank q c) := by
  have hne : c ≠ b := fun hcb => by rw [hcb, h.fresh] at hc; cases hc
  unfold removeAt
  rw [h.rank_self, h.rank_eq c]
  by_cases hlt : b < c
  · have hle : rank p b ≤ rank p c := rank_mono p hlt.le
    rw [if_pos hlt, if_neg (by omega)]
  · have hcb : rank p c < rank p b := rank_lt hc (by omega)
    rw [if_neg hlt, add_zero, if_pos hcb]

end Marked

end BrickOS.Lib
