import Mathlib.Data.List.Nodup
import Mathlib.Logic.Function.Basic

/-! Singly linked lists of nodes named by numbers. `link p` is the pointer that node `p` holds, or
`none` when there is no such node. -/
namespace BrickOS.Lib

variable {link link' : ℕ → Option (Option ℕ)}

/-- From `head` on, the nodes are those of the list, and the last one holds a null pointer. -/
def Linked (link : ℕ → Option (Option ℕ)) : Option ℕ → List ℕ → Prop
  | head, [] => head = none
  | head, p :: l => head = some p ∧ ∃ next, link p = some next ∧ Linked link next l

/-- The last node of the list that `p` is in, found within `fuel` nodes. -/
def lastFrom (link : ℕ → Option (Option ℕ)) : ℕ → ℕ → Option ℕ
  | 0, _ => none
  | fuel + 1, p => (link p).bind fun next => next.elim (some p) (lastFrom link fuel)

/-- The node before `target` in the list that `p` is in, found within `fuel` nodes; `some none`
when the list ends first. -/
def beforeFrom (link : ℕ → Option (Option ℕ)) (target : ℕ) : ℕ → ℕ → Option (Option ℕ)
  | 0, _ => none
  | fuel + 1, p => (link p).bind fun next =>
    if next = some target then some (some p)
    else next.elim (some none) (beforeFrom link target fuel)

/-- The node before `target` in the list that `p` is in, or the last node when `target` is not
there, found within `fuel` nodes. -/
def stopBefore (link : ℕ → Option (Option ℕ)) (target : ℕ) : ℕ → ℕ → Option ℕ
  | 0, _ => none
  | fuel + 1, p => (link p).bind fun next =>
    if next = some target then some p else next.elim (some p) (stopBefore link target fuel)

@[simp] theorem linked_nil {head : Option ℕ} : Linked link head [] ↔ head = none := Iff.rfl

theorem Linked.congr {head : Option ℕ} {l : List ℕ} (h : Linked link head l)
    (hl : ∀ p ∈ l, link' p = link p) : Linked link' head l := by
  induction l generalizing head with
  | nil => exact h
  | cons p l ih =>
    obtain ⟨rfl, next, hnext, hrest⟩ := h
    refine ⟨rfl, next, ?_, ih hrest fun q hq => hl q (List.mem_cons_of_mem _ hq)⟩
    rw [hl p List.mem_cons_self, hnext]

theorem Linked.isSome_of_mem {head : Option ℕ} {l : List ℕ} (h : Linked link head l) {p : ℕ}
    (hp : p ∈ l) : (link p).isSome := by
  induction l generalizing head with
  | nil => cases hp
  | cons q l ih =>
    obtain ⟨-, next, hnext, hrest⟩ := h
    obtain rfl | hp := List.mem_cons.mp hp
    · rw [hnext]
      rfl
    · exact ih hrest hp

theorem Linked.unique {head : Option ℕ} {l l' : List ℕ} (h : Linked link head l)
    (h' : Linked link head l') : l = l' := by
  induction l generalizing head l' with
  | nil =>
    cases l' with
    | nil => rfl
    | cons q l' =>
      obtain ⟨hq, -⟩ := h'
      rw [linked_nil.mp h] at hq
      cases hq
  | cons p l ih =>
    obtain ⟨rfl, next, hnext, hrest⟩ := h
    cases l' with
    | nil => cases h'
    | cons q l' =>
      obtain ⟨hq, next', hnext', hrest'⟩ := h'
      cases hq
      obtain rfl : next = next' := Option.some.inj (hnext.symm.trans hnext')
      rw [ih hrest hrest']

theorem Linked.of_mem {head : Option ℕ} {l : List ℕ} (h : Linked link head l) {p : ℕ}
    (hp : p ∈ l) : ∃ rest, Linked link (some p) (p :: rest) ∧ (p :: rest).length ≤ l.length := by
  induction l generalizing head with
  | nil => cases hp
  | cons q l ih =>
    obtain ⟨rfl, next, hnext, hrest⟩ := h
    obtain rfl | hp := List.mem_cons.mp hp
    · exact ⟨l, ⟨rfl, next, hnext, hrest⟩, Nat.le_refl _⟩
    · obtain ⟨rest, hr, hle⟩ := ih hrest hp
      exact ⟨rest, hr, Nat.le_trans hle (Nat.le_succ _)⟩

theorem Linked.nodup {head : Option ℕ} {l : List ℕ} (h : Linked link head l) : l.Nodup := by
  induction l generalizing head with
  | nil => exact List.nodup_nil
  | cons p l ih =>
    obtain ⟨rfl, next, hnext, hrest⟩ := h
    refine List.nodup_cons.mpr ⟨fun hp => ?_, ih hrest⟩
    obtain ⟨rest, hr, hle⟩ := hrest.of_mem hp
    have heq : p :: rest = p :: l := hr.unique ⟨rfl, next, hnext, hrest⟩
    rw [heq] at hle
    exact absurd hle (Nat.not_succ_le_self _)

theorem lastFrom_of_linked {l : List ℕ} {last p fuel : ℕ}
    (h : Linked link (some p) (l ++ [last])) (hfuel : l.length < fuel) :
    lastFrom link fuel p = some last := by
  induction l generalizing p fuel with
  | nil =>
    obtain ⟨hp, next, hnext, hrest⟩ := h
    obtain ⟨fuel, rfl⟩ := Nat.exists_eq_succ_of_ne_zero (Nat.ne_of_gt hfuel)
    cases hp
    rw [lastFrom, hnext, linked_nil.mp hrest]
    rfl
  | cons q l ih =>
    obtain ⟨hp, next, hnext, hrest⟩ := h
    obtain ⟨fuel, rfl⟩ := Nat.exists_eq_succ_of_ne_zero (Nat.ne_of_gt (Nat.zero_lt_of_lt hfuel))
    cases hp
    cases next with
    | none => cases l <;> cases hrest.1
    | some r =>
      rw [lastFrom, hnext]
      exact ih hrest (Nat.lt_of_succ_lt_succ hfuel)

theorem Linked.concat {head : Option ℕ} {l : List ℕ} {last p : ℕ}
    (h : Linked link head (l ++ [last])) (hl : ∀ q ∈ l, link' q = link q)
    (hlast : link' last = some (some p)) (hp : link' p = some none) :
    Linked link' head (l ++ [last] ++ [p]) := by
  induction l generalizing head with
  | nil =>
    obtain ⟨rfl, -⟩ := h
    exact ⟨rfl, some p, hlast, rfl, none, hp, rfl⟩
  | cons q l ih =>
    obtain ⟨rfl, next, hnext, hrest⟩ := h
    refine ⟨rfl, next, ?_, ih hrest fun r hr => hl r (List.mem_cons_of_mem _ hr)⟩
    rw [hl q List.mem_cons_self, hnext]

/-- A node can be put behind the last one, which is found. -/
theorem Linked.exists_last {p : ℕ} {l : List ℕ} {fuel : ℕ} (h : Linked link (some p) (p :: l))
    (hfuel : l.length < fuel) :
    ∃ last ∈ p :: l, lastFrom link fuel p = some last ∧ ∀ (link' : ℕ → Option (Option ℕ)) (q : ℕ),
      (∀ r ∈ p :: l, r ≠ last → link' r = link r) → link' last = some (some q) →
      link' q = some none → Linked link' (some p) (p :: l ++ [q]) := by
  obtain ⟨l', last, hl⟩ : ∃ l' last, p :: l = l' ++ [last] :=
    (List.eq_nil_or_concat' (p :: l)).resolve_left (List.cons_ne_nil _ _)
  have hlen : l'.length = l.length := by
    have := congrArg List.length hl
    simpa using this.symm
  rw [hl] at h ⊢
  refine ⟨last, List.mem_append_right _ List.mem_cons_self,
    lastFrom_of_linked h (hlen ▸ hfuel), ?_⟩
  intro link' q hsame hlast hq
  refine h.concat (fun r hr => ?_) hlast hq
  apply hsame r (List.mem_append_left _ hr)
  rintro rfl
  have hnodup := h.nodup
  rw [List.nodup_append'] at hnodup
  exact hnodup.2.2 hr List.mem_cons_self

/-- A node other than the first can be taken out; the one before it is found. -/
theorem Linked.exists_before {p target : ℕ} {l : List ℕ} {fuel : ℕ}
    (h : Linked link (some p) (p :: l)) (hmem : target ∈ l) (hfuel : l.length < fuel) :
    ∃ before ∈ p :: l, before ≠ target ∧ stopBefore link target fuel p = some before ∧
      ∀ link' : ℕ → Option (Option ℕ), (∀ r ∈ p :: l, r ≠ before → r ≠ target →
        link' r = link r) → link' before = link target →
        Linked link' (some p) ((p :: l).erase target) := by
  induction l generalizing p fuel with
  | nil => cases hmem
  | cons r l ih =>
    have hnodup := h.nodup
    obtain ⟨-, next, hnext, hrest⟩ := h
    obtain ⟨rfl, next', hnext', htail⟩ := hrest
    obtain ⟨fuel, rfl⟩ := Nat.exists_eq_succ_of_ne_zero (Nat.ne_of_gt (Nat.zero_lt_of_lt hfuel))
    rw [List.nodup_cons, List.nodup_cons] at hnodup
    obtain ⟨hp, hr, -⟩ := hnodup
    have hpt : p ≠ target := fun heq => hp (heq ▸ hmem)
    by_cases hrt : r = target
    · subst hrt
      refine ⟨p, List.mem_cons_self, hpt, ?_, ?_⟩
      · rw [stopBefore, hnext, Option.bind_some, if_pos rfl]
      · intro link' hsame hbefore
        rw [List.erase_cons_tail (by simpa using hpt), List.erase_cons_head]
        refine ⟨rfl, next', hbefore.trans hnext', htail.congr fun q hq => ?_⟩
        apply hsame q (List.mem_cons_of_mem _ (List.mem_cons_of_mem _ hq))
        · rintro rfl
          exact hp (List.mem_cons_of_mem _ hq)
        · rintro rfl
          exact hr hq
    · have hmem' : target ∈ l := (List.mem_cons.mp hmem).resolve_left (Ne.symm hrt)
      obtain ⟨before, hbefore, hne, hstop, hlinked⟩ :=
        ih ⟨rfl, next', hnext', htail⟩ hmem' (Nat.lt_of_succ_lt_succ hfuel)
      refine ⟨before, List.mem_cons_of_mem _ hbefore, hne, ?_, ?_⟩
      · rw [stopBefore, hnext, Option.bind_some, if_neg fun heq => hrt (Option.some.inj heq)]
        exact hstop
      · intro link' hsame hlink
        rw [List.erase_cons_tail (by simpa using hpt)]
        refine ⟨rfl, some r, ?_, hlinked link' (fun q hq => ?_) hlink⟩
        · rw [hsame p List.mem_cons_self (fun heq => hp (heq ▸ hbefore)) hpt, hnext]
        · exact hsame q (List.mem_cons_of_mem _ hq)

end BrickOS.Lib
