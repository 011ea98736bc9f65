import BrickOS.Networking.Ip

/-! The store of fragments over whole runs: fragments that come in, packets that are put together
or given up, and the timer. -/
namespace BrickOS.Networking
open BrickOS.Lib

/-- `abort_reassembly`; nothing is done for a null pointer. -/
def abortReassembly (links : List Ipv4LlLink) (part : Option Ipv4PacketPart) : List Ipv4LlLink :=
  part.elim links fun part => links.eraseP fun l => l.ident == part.ident

namespace Ipv4LlLink

def start (l : Ipv4LlLink) : Ipv4PacketPart := l.parts.head l.parts_ne

def lower (l : Ipv4LlLink) : Ipv4LlLink := { l with timeout := (l.timeout + 2 ^ 8 - 1) % 2 ^ 8 }

end Ipv4LlLink

/-- The loop of `ipv4_timer_callback`, with the links before the head. The link that is given up is
the first one with its key, so it is the head or one of these. -/
def timerLoop (done : List Ipv4LlLink) : List Ipv4LlLink → List Ipv4LlLink
  | [] => done
  | head :: rest =>
    let seen := done ++ [head.lower]
    timerLoop (if head.lower.timeout = 0 then abortReassembly seen (some head.lower.start)
      else seen) rest

def ipv4TimerCallback (links : List Ipv4LlLink) : List Ipv4LlLink := timerLoop [] links

inductive FragmentAction where
  | insertIpv4PacketPart (part : Ipv4PacketPart)
  | unifyIpPacket (part : Ipv4PacketPart)
  | abortReassembly (part : Option Ipv4PacketPart)
  | ipv4TimerCallback

/-- What happens to the store; `unify_ip_packet` panics without a link for the part. -/
def fragmentStep (links : List Ipv4LlLink) : FragmentAction → Option (List Ipv4LlLink)
  | .insertIpv4PacketPart part => some (insertIpv4PacketPart part links)
  | .unifyIpPacket part => (unifyIpPacket links part).map Prod.fst
  | .abortReassembly part => some (abortReassembly links part)
  | .ipv4TimerCallback => some (ipv4TimerCallback links)

def FragmentAction.key : FragmentAction → Option ℕ
  | .insertIpv4PacketPart part | .unifyIpPacket part => some part.ident
  | .abortReassembly part => part.map Ipv4PacketPart.ident
  | .ipv4TimerCallback => none

structure Ipv4LlLink.Sorted (l : Ipv4LlLink) : Prop where
  ident : ∀ part ∈ l.parts, part.ident = l.ident
  offsets : l.parts.Pairwise fun p q => p.fragOffset ≤ q.fragOffset
  timeout : 0 < l.timeout ∧ l.timeout ≤ ipPacketTimeout

structure StoreKept (links : List Ipv4LlLink) : Prop where
  distinct : DistinctKeys links
  sorted : ∀ l ∈ links, l.Sorted

section
variable {links : List Ipv4LlLink} {part : Ipv4PacketPart}

theorem insertPart_sorted {parts : List Ipv4PacketPart}
    (h : parts.Pairwise fun p q => p.fragOffset ≤ q.fragOffset) :
    (insertPart part parts).Pairwise fun p q => p.fragOffset ≤ q.fragOffset := by
  induction parts with
  | nil => exact List.pairwise_singleton _ part
  | cons p ps ih =>
    obtain ⟨hp, hps⟩ := List.pairwise_cons.mp h
    unfold insertPart
    split_ifs with hlt
    · refine List.pairwise_cons.mpr ⟨fun q hq => ?_, ih hps⟩
      rcases List.mem_cons.mp ((insertPart_perm part ps).mem_iff.mp hq) with rfl | hq
      · exact hlt.le
      · exact hp q hq
    · refine List.pairwise_cons.mpr ⟨fun q hq => ?_, h⟩
      rcases List.mem_cons.mp hq with rfl | hq
      · exact Nat.le_of_not_lt hlt
      · exact (Nat.le_of_not_lt hlt).trans (hp q hq)

theorem Ipv4LlLink.Sorted.insert {l : Ipv4LlLink} (h : l.Sorted) (hl : l.ident = part.ident) :
    (l.insert part).Sorted := by
  refine ⟨fun p hp => ?_, insertPart_sorted h.offsets, h.timeout⟩
  rw [Ipv4LlLink.insert_ident hl]
  rcases List.mem_cons.mp ((insertPart_perm part l.parts).mem_iff.mp hp) with rfl | hp
  · rfl
  · exact (h.ident p hp).trans hl

theorem StoreKept.insert (h : StoreKept links) : StoreKept (insertIpv4PacketPart part links) := by
  refine ⟨h.distinct.insert, ?_⟩
  have hsorted := h.sorted
  clear h
  induction links with
  | nil =>
    intro l hl
    obtain rfl := List.mem_singleton.mp hl
    refine ⟨fun p hp => ?_, List.pairwise_singleton _ part,
      Nat.succ_pos _, le_refl _⟩
    rw [List.mem_singleton.mp hp]
    rfl
  | cons l links ih =>
    obtain ⟨hl, hlinks⟩ := List.forall_mem_cons.mp hsorted
    unfold insertIpv4PacketPart
    split_ifs with hident
    · exact List.forall_mem_cons.mpr ⟨hl.insert hident, hlinks⟩
    · exact List.forall_mem_cons.mpr ⟨hl, ih hlinks⟩

theorem StoreKept.sublist {links' : List Ipv4LlLink} (h : StoreKept links)
    (hsub : links'.Sublist links) : StoreKept links' :=
  ⟨(hsub.map _).nodup h.distinct, fun l hl => h.sorted l (hsub.subset hl)⟩

theorem Ipv4LlLink.Sorted.lower_timeout {l : Ipv4LlLink} (h : l.Sorted) :
    l.lower.timeout + 1 = l.timeout := by
  have htimeout := h.timeout
  unfold ipPacketTimeout at htimeout
  unfold Ipv4LlLink.lower
  dsimp only
  omega

theorem timerLoop_eq {done : List Ipv4LlLink} (hdistinct : DistinctKeys (done ++ links)) :
    timerLoop done links =
      done ++ (links.map Ipv4LlLink.lower).filter fun l => l.timeout ≠ 0 := by
  induction links generalizing done with
  | nil => simp [timerLoop]
  | cons head links ih =>
    have hkeys : (done.map Ipv4LlLink.ident ++
        head.ident :: links.map Ipv4LlLink.ident).Nodup := by
      rw [← List.map_cons, ← List.map_append]
      exact hdistinct
    have hnext : DistinctKeys (done ++ [head.lower] ++ links) := by
      rw [DistinctKeys, List.map_append, List.map_append, List.append_assoc]
      exact hkeys
    rw [timerLoop, List.map_cons, List.filter_cons]
    by_cases hzero : head.lower.timeout = 0
    · -- No link before the head has its key, so the head is what is given up.
      have hnot : ∀ l ∈ done, ¬ (l.ident == head.lower.start.ident) = true := by
        intro l hl heq
        exact (List.nodup_append.mp hkeys).2.2 l.ident (List.mem_map_of_mem hl) head.ident
          List.mem_cons_self (beq_iff_eq.mp heq)
      have habort : abortReassembly (done ++ [head.lower]) (some head.lower.start) = done := by
        have hself : [head.lower].eraseP (fun l => l.ident == head.lower.start.ident) = [] :=
          List.eraseP_cons_of_pos (p := fun l : Ipv4LlLink => l.ident == head.lower.start.ident)
            (beq_self_eq_true head.ident)
        rw [abortReassembly, Option.elim_some, List.eraseP_append_right _ hnot, hself,
          List.append_nil]
      simp only [hzero, if_true, habort, ne_eq, not_true_eq_false, decide_false,
        Bool.false_eq_true, if_false]
      refine ih ((List.Sublist.append_left ?_ _).map _ |>.nodup hdistinct)
      exact List.sublist_cons_self head links
    · simp only [hzero, if_false, ne_eq, not_false_eq_true, decide_true, if_true]
      rw [ih hnext, List.append_assoc, List.singleton_append]

theorem ipv4TimerCallback_eq (h : DistinctKeys links) : ipv4TimerCallback links =
    (links.map Ipv4LlLink.lower).filter fun l => l.timeout ≠ 0 :=
  @timerLoop_eq links [] h

theorem StoreKept.tick (h : StoreKept links) : StoreKept (ipv4TimerCallback links) := by
  have hlower : (links.map Ipv4LlLink.lower).map Ipv4LlLink.ident = links.map Ipv4LlLink.ident := by
    rw [List.map_map]
    rfl
  rw [ipv4TimerCallback_eq h.distinct]
  refine ⟨(List.filter_sublist.map _).nodup (hlower ▸ h.distinct), fun l hl => ?_⟩
  obtain ⟨hlow, hpos⟩ := List.mem_filter.mp hl
  obtain ⟨l, hmem, rfl⟩ := List.mem_map.mp hlow
  have hsorted := h.sorted l hmem
  have hle := hsorted.timeout.2
  have htimeout := hsorted.lower_timeout
  exact ⟨hsorted.ident, hsorted.offsets, Nat.pos_of_ne_zero (of_decide_eq_true hpos), by omega⟩

theorem StoreKept.step {links' : List Ipv4LlLink} {a : FragmentAction} (h : StoreKept links)
    (hstep : fragmentStep links a = some links') : StoreKept links' := by
  cases a with
  | insertIpv4PacketPart part =>
    cases hstep
    exact h.insert
  | unifyIpPacket part =>
    obtain ⟨⟨rest, data⟩, hunify, rfl⟩ := Option.map_eq_some_iff.mp hstep
    obtain ⟨l, -, hl⟩ := Option.map_eq_some_iff.mp hunify
    cases hl
    exact h.sublist List.eraseP_sublist
  | abortReassembly part =>
    cases hstep
    cases part with
    | none => exact h
    | some part => exact h.sublist List.eraseP_sublist
  | ipv4TimerCallback =>
    cases hstep
    exact h.tick

theorem partsOf_fragmentStep {links' : List Ipv4LlLink} {a : FragmentAction} {key : ℕ}
    (hstep : fragmentStep links a = some links') (htick : a ≠ .ipv4TimerCallback)
    (hkey : a.key ≠ some key) : partsOf links' key = partsOf links key := by
  cases a with
  | insertIpv4PacketPart part =>
    cases hstep
    exact partsOf_insert_of_ne fun h => hkey (congrArg some h)
  | unifyIpPacket part =>
    obtain ⟨⟨rest, data⟩, hunify, rfl⟩ := Option.map_eq_some_iff.mp hstep
    obtain ⟨l, -, hl⟩ := Option.map_eq_some_iff.mp hunify
    cases hl
    exact partsOf_erase_of_ne fun h => hkey (congrArg some h)
  | abortReassembly part =>
    cases hstep
    cases part with
    | none => rfl
    | some part => exact partsOf_erase_of_ne fun h => hkey (congrArg some h)
  | ipv4TimerCallback => exact absurd rfl htick

end

theorem createPacketPartIdent_inj {s i p s' i' p' : ℕ} (hs : s < 2 ^ 32) (hi : i < 2 ^ 16)
    (hs' : s' < 2 ^ 32) (hi' : i' < 2 ^ 16)
    (h : createPacketPartIdent s i p = createPacketPartIdent s' i' p') :
    s = s' ∧ i = i' ∧ p = p' := by
  rw [createPacketPartIdent_eq s i p hs hi, createPacketPartIdent_eq s' i' p' hs' hi'] at h
  omega

/-- In every run the store is kept well, a tick does to it what it should, and the other actions
leave alone what has another source, identification or protocol. -/
theorem fragmentStore_kept {actions : List FragmentAction} {links : List Ipv4LlLink}
    (hrun : run fragmentStep [] actions = some links) :
    StoreKept links ∧
    (ipv4TimerCallback links =
        (links.map Ipv4LlLink.lower).filter (fun l => l.timeout ≠ 0) ∧
      ∀ l ∈ links, l.lower.parts = l.parts ∧ l.lower.timeout + 1 = l.timeout) ∧
    (∀ a links' key, fragmentStep links a = some links' → a ≠ .ipv4TimerCallback →
      a.key ≠ some key → partsOf links' key = partsOf links key) ∧
    ∀ s i p s' i' p', s < 2 ^ 32 → i < 2 ^ 16 → s' < 2 ^ 32 → i' < 2 ^ 16 →
      createPacketPartIdent s i p = createPacketPartIdent s' i' p' → s = s' ∧ i = i' ∧ p = p' := by
  have hkept : StoreKept links :=
    run_invariant (P := fun _ _ => True) (fun _ _ _ _ hstep h => h.step hstep)
      (along_true _ _) hrun ⟨List.nodup_nil, fun l hl => by cases hl⟩
  exact ⟨hkept, ⟨ipv4TimerCallback_eq hkept.distinct,
      fun l hl => ⟨rfl, (hkept.sorted l hl).lower_timeout⟩⟩,
    fun _ _ _ => partsOf_fragmentStep, fun _ _ _ _ _ _ => createPacketPartIdent_inj⟩

def lateFragment : Ipv4PacketPart := ⟨true, createPacketPartIdent 0x0a000001 7 17, 2, 1, 17, [9]⟩

def earlyFragment : Ipv4PacketPart := { lateFragment with noMoreFrags := false, fragOffset := 0 }

theorem fragmentStore_kept_two : run fragmentStep [] [.insertIpv4PacketPart lateFragment,
      .insertIpv4PacketPart earlyFragment] = some [⟨[earlyFragment, lateFragment], 15, by simp⟩] ∧
    StoreKept [⟨[earlyFragment, lateFragment], 15, by simp⟩] :=
  ⟨rfl, (@fragmentStore_kept [.insertIpv4PacketPart lateFragment,
    .insertIpv4PacketPart earlyFragment] _ rfl).1⟩

end BrickOS.Networking
