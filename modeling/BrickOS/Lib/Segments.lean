import Mathlib.Data.List.Chain
import Mathlib.Data.List.Basic

/-! Blocks laid out one after another, each behind a header of a fixed length. -/
namespace BrickOS.Lib

/-- The length of a block's payload, and whether the block is free. -/
structure Seg where
  size : ℕ
  free : Bool
deriving DecidableEq, Repr

variable (hdr : ℕ)

/-- The number of bytes that the blocks and their headers take. -/
def span : List Seg → ℕ
  | [] => 0
  | s :: ss => hdr + s.size + span ss

/-- The blocks with their addresses, when the first one is at `a`. -/
def place (a : ℕ) : List Seg → List (ℕ × Seg)
  | [] => []
  | s :: ss => (a, s) :: place (a + hdr + s.size) ss

/-- The blocks in use, with their addresses. -/
def used (a : ℕ) (ss : List Seg) : List (ℕ × Seg) :=
  (place hdr a ss).filter fun b => !b.2.free

/-- No two neighbours are both free. -/
def Coalesced (ss : List Seg) : Prop := ss.IsChain fun s t => ¬ (s.free = true ∧ t.free = true)

/-- A free block of length `s` takes in the free blocks right behind it. -/
def absorb (s : ℕ) : List Seg → ℕ × List Seg
  | [] => (s, [])
  | t :: ss => if t.free then absorb (s + hdr + t.size) ss else (s, t :: ss)

theorem length_absorb_le (s : ℕ) (ss : List Seg) : (absorb hdr s ss).2.length ≤ ss.length := by
  induction ss generalizing s with
  | nil => rfl
  | cons t ss ih =>
    unfold absorb
    split
    · exact (ih _).trans (Nat.le_succ _)
    · rfl

/-- Every free block absorbs the free blocks behind it. -/
def coalesce : List Seg → List Seg
  | [] => []
  | s :: ss =>
    if s.free then ⟨(absorb hdr s.size ss).1, true⟩ :: coalesce (absorb hdr s.size ss).2
    else s :: coalesce ss
termination_by ss => ss.length
decreasing_by
  · exact Nat.lt_succ_of_le (length_absorb_le hdr _ _)
  · exact Nat.lt_succ_self _

/-- A free block from which `n` bytes are taken; the rest becomes a block when there is room
for its header and a byte. -/
def carve (s : Seg) (n : ℕ) : List Seg :=
  if s.size > n + hdr then [⟨n, false⟩, ⟨s.size - n - hdr, true⟩] else [⟨s.size, false⟩]

variable {hdr}

@[simp] theorem span_append (ss ts : List Seg) : span hdr (ss ++ ts) = span hdr ss + span hdr ts := by
  induction ss with
  | nil => simp [span]
  | cons s ss ih =>
    simp only [List.cons_append, span, ih]
    omega

@[simp] theorem place_append (a : ℕ) (ss ts : List Seg) :
    place hdr a (ss ++ ts) = place hdr a ss ++ place hdr (a + span hdr ss) ts := by
  induction ss generalizing a with
  | nil => simp [place, span]
  | cons s ss ih =>
    simp only [List.cons_append, place, span, ih]
    rw [show a + hdr + s.size + span hdr ss = a + (hdr + s.size + span hdr ss) by omega]

@[simp] theorem used_nil (a : ℕ) : used hdr a [] = [] := rfl

theorem used_append (a : ℕ) (ss ts : List Seg) :
    used hdr a (ss ++ ts) = used hdr a ss ++ used hdr (a + span hdr ss) ts := by
  simp [used]

theorem used_cons_free (a : ℕ) (s : Seg) (ss : List Seg) (h : s.free = true) :
    used hdr a (s :: ss) = used hdr (a + hdr + s.size) ss := by
  simp [used, place, h]

theorem used_cons_taken (a : ℕ) (s : Seg) (ss : List Seg) (h : s.free = false) :
    used hdr a (s :: ss) = (a, s) :: used hdr (a + hdr + s.size) ss := by
  simp [used, place, h]

theorem place_bounds {a : ℕ} {ss : List Seg} {b : ℕ × Seg} (h : b ∈ place hdr a ss) :
    a ≤ b.1 ∧ b.1 + hdr + b.2.size ≤ a + span hdr ss := by
  induction ss generalizing a with
  | nil => simp [place] at h
  | cons s ss ih =>
    rcases List.mem_cons.mp h with rfl | h
    · simp only [span]
      omega
    · have := ih h
      simp only [span]
      omega

theorem place_pairwise (a : ℕ) (ss : List Seg) :
    (place hdr a ss).Pairwise fun b c => b.1 + hdr + b.2.size ≤ c.1 := by
  induction ss generalizing a with
  | nil => exact List.Pairwise.nil
  | cons s ss ih =>
    refine List.Pairwise.cons ?_ (ih _)
    intro c hc
    exact (place_bounds hc).1

theorem used_pairwise (a : ℕ) (ss : List Seg) :
    (used hdr a ss).Pairwise fun b c => b.1 + hdr + b.2.size ≤ c.1 :=
  (place_pairwise a ss).filter _

theorem used_addr_pairwise (hpos : 0 < hdr) (a : ℕ) (ss : List Seg) :
    (used hdr a ss).Pairwise fun b c => b.1 ≠ c.1 :=
  (used_pairwise a ss).imp fun _ => by omega

theorem used_disjoint {a : ℕ} {ss : List Seg} {b c : ℕ × Seg} (hb : b ∈ used hdr a ss)
    (hc : c ∈ used hdr a ss) (hne : b.1 ≠ c.1) :
    b.1 + hdr + b.2.size ≤ c.1 ∨ c.1 + hdr + c.2.size ≤ b.1 := by
  let R := fun b c : ℕ × Seg => b.1 + hdr + b.2.size ≤ c.1 ∨ c.1 + hdr + c.2.size ≤ b.1
  have hsymm : Std.Symm R := ⟨fun _ _ h => h.symm⟩
  have hpw : (used hdr a ss).Pairwise R := (used_pairwise a ss).imp Or.inl
  exact hpw.forall hb hc fun h => hne (h ▸ rfl)

theorem used_bounds {a : ℕ} {ss : List Seg} {b : ℕ × Seg} (h : b ∈ used hdr a ss) :
    a ≤ b.1 ∧ b.1 + hdr + b.2.size ≤ a + span hdr ss :=
  place_bounds (List.mem_filter.mp h).1

theorem exists_split_of_mem_place {a : ℕ} {ss : List Seg} {b : ℕ × Seg} (h : b ∈ place hdr a ss) :
    ∃ ls rs, ss = ls ++ b.2 :: rs ∧ b.1 = a + span hdr ls := by
  induction ss generalizing a with
  | nil => simp [place] at h
  | cons s ss ih =>
    rcases List.mem_cons.mp h with rfl | h
    · exact ⟨[], ss, rfl, by simp [span]⟩
    · obtain ⟨ls, rs, hs, hb⟩ := ih h
      refine ⟨s :: ls, rs, by rw [hs]; rfl, ?_⟩
      rw [hb, span]
      omega

theorem span_absorb (s : ℕ) (ss : List Seg) :
    hdr + (absorb hdr s ss).1 + span hdr (absorb hdr s ss).2 = hdr + s + span hdr ss := by
  induction ss generalizing s with
  | nil => rfl
  | cons t ss ih =>
    unfold absorb
    split
    · rw [ih]
      simp only [span]
      omega
    · rfl

theorem used_absorb (a s : ℕ) (ss : List Seg) :
    used hdr (a + hdr + (absorb hdr s ss).1) (absorb hdr s ss).2 = used hdr (a + hdr + s) ss := by
  induction ss generalizing s with
  | nil => rfl
  | cons t ss ih =>
    unfold absorb
    split
    · rename_i ht
      rw [ih, used_cons_free _ _ _ ht]
      simp only [Nat.add_assoc]
    · rfl

theorem absorb_head (s : ℕ) (ss : List Seg) : ∀ t ∈ (absorb hdr s ss).2.head?, t.free = false := by
  induction ss generalizing s with
  | nil => simp [absorb]
  | cons t ss ih =>
    unfold absorb
    split
    · exact ih _
    · simp_all

theorem span_coalesce (ss : List Seg) : span hdr (coalesce hdr ss) = span hdr ss := by
  induction ss using coalesce.induct hdr with
  | case1 => simp [coalesce]
  | case2 s ss hf ih =>
    rw [coalesce, if_pos hf]
    simp only [span, ih]
    exact span_absorb s.size ss
  | case3 s ss hf ih =>
    rw [coalesce, if_neg hf]
    simp only [span, ih]

theorem used_coalesce (a : ℕ) (ss : List Seg) :
    used hdr a (coalesce hdr ss) = used hdr a ss := by
  induction ss using coalesce.induct hdr generalizing a with
  | case1 => simp [coalesce]
  | case2 s ss hf ih =>
    rw [coalesce, if_pos hf, used_cons_free _ _ _ rfl, used_cons_free _ _ _ hf, ih, used_absorb]
  | case3 s ss hf ih =>
    have hf' : s.free = false := by simpa using hf
    rw [coalesce, if_neg hf, used_cons_taken _ _ _ hf', used_cons_taken _ _ _ hf', ih]

theorem coalesce_head (ss : List Seg) (h : ∀ t ∈ ss.head?, t.free = false) :
    ∀ t ∈ (coalesce hdr ss).head?, t.free = false := by
  cases ss with
  | nil => simp [coalesce]
  | cons s ss =>
    have hf : s.free = false := h s rfl
    rw [coalesce, if_neg (by simp [hf])]
    simpa using hf

theorem coalesced_coalesce (ss : List Seg) : Coalesced (coalesce hdr ss) := by
  induction ss using coalesce.induct hdr with
  | case1 => simp [coalesce, Coalesced]
  | case2 s ss hf ih =>
    rw [coalesce, if_pos hf]
    refine List.IsChain.cons ih ?_
    intro t ht hst
    have := coalesce_head _ (absorb_head s.size ss) t ht
    simp [this] at hst
  | case3 s ss hf ih =>
    rw [coalesce, if_neg hf]
    refine List.IsChain.cons ih ?_
    intro t _ hst
    exact hf hst.1

theorem span_carve (s : Seg) (n : ℕ) : span hdr (carve hdr s n) = hdr + s.size := by
  unfold carve
  split
  · simp only [span]
    omega
  · simp [span]

theorem used_carve (a : ℕ) (s : Seg) (n : ℕ) (ss : List Seg) :
    used hdr a (carve hdr s n ++ ss) =
      (a, ⟨if s.size > n + hdr then n else s.size, false⟩) :: used hdr (a + hdr + s.size) ss := by
  rw [used_append, span_carve, ← Nat.add_assoc]
  unfold carve
  split
  · rw [used_cons_taken _ _ _ rfl, used_cons_free _ _ _ rfl]
    rfl
  · rw [used_cons_taken _ _ _ rfl]
    rfl

theorem Coalesced.carve {ls : List Seg} {s : Seg} {rs : List Seg} (n : ℕ)
    (h : Coalesced (ls ++ s :: rs)) (hs : s.free = true) :
    Coalesced (ls ++ (carve hdr s n ++ rs)) := by
  obtain ⟨hl, hsr, -⟩ := List.isChain_append.mp h
  have hr : ∀ t ∈ rs.head?, t.free = false := by
    intro t ht
    have := List.IsChain.rel_head? hsr ht
    simpa [hs] using this
  refine List.isChain_append.mpr ⟨hl, ?_, ?_⟩
  · unfold Lib.carve
    split
    · refine (List.IsChain.cons (hsr.tail.cons ?_) ?_)
      · intro t ht hst
        simp [hr t ht] at hst
      · simp
    · exact hsr.tail.cons (by simp)
  · intro x _ y hy
    unfold Lib.carve at hy
    split at hy
    · obtain rfl : _ = y := by simpa using hy
      simp
    · obtain rfl : _ = y := by simpa using hy
      simp

theorem Coalesced.concat_taken {ss : List Seg} (n : ℕ) (h : Coalesced ss) :
    Coalesced (ss ++ [⟨n, false⟩]) := by
  refine List.isChain_append.mpr ⟨h, List.isChain_singleton _, ?_⟩
  intro x _ y hy
  obtain rfl : _ = y := by simpa using hy
  simp

end BrickOS.Lib
