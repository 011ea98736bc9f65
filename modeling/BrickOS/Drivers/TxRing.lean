import BrickOS.Lib.Run
import BrickOS.Lib.Ring

/-! The transmit ring of the 82540EM network card: threads fill descriptors, the card marks them
done, and the interrupt handler frees their page frames. -/
namespace BrickOS.Drivers
open BrickOS.Lib

def nTxDescrs : ℕ := 16

def txStatDd : ℕ := 1

def txCmdEop : ℕ := 1

def txCmdIfcs : ℕ := 2

def txCmdRs : ℕ := 8

/-- `i8254x_tx_descriptor_t`. -/
structure TxDescriptor where
  buffAddr : ℕ
  len : ℕ
  cmd : ℕ
  status : ℕ

/-- Where a call of `i8254x_send_packet` is: waiting for its descriptor, before the allocation of
a page frame, with a frame, or with a descriptor that is filled. -/
inductive TxPhase where
  | poll
  | alloc
  | copy (buffPhys : ℕ)
  | notify
  deriving DecidableEq

structure TxCall where
  txTail : ℕ
  len : ℕ
  eop : Bool
  phase : TxPhase
  deriving DecidableEq

/-- The transmitting half of `i82540em_t`, the card's registers, the calls in progress and whether
the interrupt handler is in its loop. The lists hold page frames in the order in which they were
obtained, marked done by the card, and freed. -/
structure TxNic where
  txRing : ℕ → TxDescriptor
  tdh : ℕ
  tdt : ℕ
  txCleanup : ℕ
  sending : List TxCall
  handling : Bool
  obtained : List ℕ
  done : List ℕ
  freed : List ℕ

def txSetup : TxNic where
  txRing := fun _ => ⟨0, 0, 0, txStatDd⟩
  tdh := 0
  tdt := 0
  txCleanup := 0
  sending := []
  handling := false
  obtained := []
  done := []
  freed := []

namespace TxNic

/-- The next step of the call `c`, the `i`-th in progress; `frame` is what
`pmm_alloc_page_frame` returns. -/
def sendPacket (nic : TxNic) (i : ℕ) (c : TxCall) (frame : ℕ) : TxNic :=
  let txDesc := nic.txRing c.txTail
  match c.phase with
  | .poll =>
    if txDesc.status &&& txStatDd = 0 then nic
    else { nic with sending := nic.sending.set i { c with phase := .alloc } }
  | .alloc =>
    { nic with
      sending := nic.sending.set i { c with phase := .copy frame }
      obtained := nic.obtained ++ [frame] }
  | .copy buffPhys =>
    { nic with
      sending := nic.sending.set i { c with phase := .notify }
      txRing := Function.update nic.txRing c.txTail
        { buffAddr := buffPhys
          len := c.len
          cmd := if c.eop then txCmdRs ||| (txCmdEop ||| txCmdIfcs) else txCmdRs
          status := 0 } }
  | .notify =>
    { nic with
      sending := nic.sending.eraseIdx i
      tdt := (c.txTail + 1) % nTxDescrs }

def cleanup (nic : TxNic) : TxNic :=
  let txDesc := nic.txRing nic.txCleanup
  if nic.txCleanup = nic.tdt then { nic with handling := false }
  else if txDesc.status &&& txStatDd = 0 then { nic with handling := false }
  else
    { nic with
      freed := nic.freed ++ [txDesc.buffAddr]
      txRing := Function.update nic.txRing nic.txCleanup { txDesc with cmd := 0 }
      txCleanup := (nic.txCleanup + 1) % nTxDescrs }

def complete (nic : TxNic) : TxNic :=
  let txDesc := nic.txRing nic.tdh
  { nic with
    txRing := Function.update nic.txRing nic.tdh { txDesc with status := txDesc.status ||| txStatDd }
    tdh := (nic.tdh + 1) % nTxDescrs
    done := nic.done ++ [txDesc.buffAddr] }

end TxNic

/-- What happens: a thread calls `i8254x_send_packet`, the `i`-th call in progress takes a step,
the card finishes a descriptor, an interrupt comes, or its handler takes a step. -/
inductive TxEvent where
  | call (len : ℕ) (eop : Bool)
  | drive (i frame : ℕ)
  | complete
  | interrupt
  | cleanup

def txStep (nic : TxNic) : TxEvent → Option TxNic
  | .call len eop =>
    if nic.handling then none
    else some { nic with sending := nic.sending ++ [⟨nic.tdt, len, eop, .poll⟩] }
  | .drive i frame =>
    if nic.handling then none
    else nic.sending[i]?.map fun c => nic.sendPacket i c frame
  | .complete => if nic.tdh = nic.tdt then none else some nic.complete
  | .interrupt => if nic.handling then none else some { nic with handling := true }
  | .cleanup => if nic.handling then some nic.cleanup else none

def TxNic.Pending (nic : TxNic) (i : ℕ) : Prop :=
  ∃ j, j < (nic.tdt + nTxDescrs - nic.tdh) % nTxDescrs ∧ i = (nic.tdh + j) % nTxDescrs

/-- Frames are freed in the order in which the card has done them, each once, and the card does
them in the order in which they were obtained; no call is about to write to a descriptor that the
card still has. -/
structure TxNic.Accounted (nic : TxNic) : Prop where
  freed : nic.freed <+: nic.done
  done : nic.done <+: nic.obtained
  intact : ∀ c ∈ nic.sending, ∀ buffPhys, c.phase = .copy buffPhys → ¬ nic.Pending c.txTail

/-- A call starts when no other is in progress, and does not let the tail catch up with the
clean-up index. -/
def TxKept (nic : TxNic) : TxEvent → Prop
  | .call _ _ => nic.sending = []
  | .drive i _ => ∀ c ∈ nic.sending[i]?, c.phase = .notify →
    (c.txTail + 1) % nTxDescrs ≠ nic.txCleanup
  | .complete | .interrupt | .cleanup => True

instance (nic : TxNic) : (e : TxEvent) → Decidable (TxKept nic e)
  | .call _ _ => inferInstanceAs (Decidable (_ = _))
  | .drive i _ => inferInstanceAs (Decidable (∀ c ∈ nic.sending[i]?, _))
  | .complete | .interrupt | .cleanup => inferInstanceAs (Decidable True)

structure Carries (d : TxDescriptor) (frame : ℕ) (isDone : Prop) : Prop where
  buffAddr : d.buffAddr = frame
  status : d.status &&& txStatDd = 0 ↔ ¬ isDone

def CallAt (txRing : ℕ → TxDescriptor) (obtained : List ℕ) (submitted : ℕ) (c : TxCall) : Prop :=
  c.txTail = submitted % nTxDescrs ∧
    match c.phase with
    | .poll | .alloc => obtained.length = submitted
    | .copy buffPhys => obtained.length = submitted + 1 ∧ obtained[submitted]? = some buffPhys
    | .notify => obtained.length = submitted + 1 ∧
      ∀ frame, obtained[submitted]? = some frame →
        Carries (txRing (submitted % nTxDescrs)) frame False

structure TxSynced (nic : TxNic) (cleaned completed submitted : ℕ) : Prop where
  cleaned_le : cleaned ≤ completed
  completed_le : completed ≤ submitted
  submitted_le : submitted ≤ nic.obtained.length
  room : submitted < cleaned + nTxDescrs
  txCleanup : nic.txCleanup = cleaned % nTxDescrs
  tdh : nic.tdh = completed % nTxDescrs
  tdt : nic.tdt = submitted % nTxDescrs
  freed : nic.freed = nic.obtained.take cleaned
  done : nic.done = nic.obtained.take completed
  filled : ∀ k frame, cleaned ≤ k → k < submitted → nic.obtained[k]? = some frame →
    Carries (nic.txRing (k % nTxDescrs)) frame (k < completed)
  sending : nic.sending = [] ∧ nic.obtained.length = submitted ∨
    ∃ c, nic.sending = [c] ∧ CallAt nic.txRing nic.obtained submitted c

section

variable {nic nic' : TxNic} {cleaned completed submitted : ℕ}

theorem txSynced_txSetup : TxSynced txSetup 0 0 0 := by
  constructor <;> simp [txSetup, nTxDescrs]

/-- Other places of the ring keep their descriptors. -/
theorem TxSynced.update_of_ne (h : TxSynced nic cleaned completed submitted) {j k : ℕ}
    (hj : cleaned ≤ j ∧ j ≤ submitted) (hk : cleaned ≤ k ∧ k ≤ submitted) (hjk : k ≠ j)
    (d : TxDescriptor) :
    Function.update nic.txRing (j % nTxDescrs) d (k % nTxDescrs) =
      nic.txRing (k % nTxDescrs) := by
  have hroom := h.room
  apply Function.update_of_ne
  exact mod_ne_of_window cleaned hjk (by omega) (by omega)

/-- A call in progress does not notice a change of another place of the ring. -/
theorem TxSynced.sending_update (h : TxSynced nic cleaned completed submitted) {j : ℕ}
    (hj : cleaned ≤ j) (hlt : j < submitted) (d : TxDescriptor) :
    nic.sending = [] ∧ nic.obtained.length = submitted ∨
      ∃ c, nic.sending = [c] ∧
        CallAt (Function.update nic.txRing (j % nTxDescrs) d) nic.obtained submitted c := by
  rcases h.sending with hnone | ⟨c, hc, htail, hphase⟩
  · exact Or.inl hnone
  · refine Or.inr ⟨c, hc, htail, ?_⟩
    rw [h.update_of_ne ⟨hj, Nat.le_of_lt hlt⟩ ⟨by omega, Nat.le_refl _⟩ (Nat.ne_of_gt hlt)]
    exact hphase

theorem TxSynced.complete (h : TxSynced nic cleaned completed submitted)
    (hne : nic.tdh ≠ nic.tdt) : TxSynced nic.complete cleaned (completed + 1) submitted := by
  have hcleaned := h.cleaned_le
  have hsubmitted := h.submitted_le
  have hlt : completed < submitted := by
    apply Nat.lt_of_le_of_ne h.completed_le
    intro heq
    apply hne
    rw [h.tdh, h.tdt, heq]
  have hget := List.getElem?_eq_getElem (Nat.lt_of_lt_of_le hlt hsubmitted)
  have hcarries := h.filled completed _ hcleaned hlt hget
  unfold TxNic.complete
  dsimp only
  rw [h.tdh]
  refine { h with
    cleaned_le := Nat.le_succ_of_le hcleaned
    completed_le := hlt
    tdh := Nat.mod_add_mod _ _ _
    done := ?_
    filled := ?_
    sending := h.sending_update hcleaned hlt _ }
  · rw [h.done, hcarries.buffAddr, List.take_add_one, hget]
    rfl
  · intro k frame hk hks hframe
    by_cases hkc : k = completed
    · subst hkc
      dsimp only
      rw [Function.update_self]
      constructor
      · exact (h.filled k frame hk hks hframe).buffAddr
      · have hbit : ((nic.txRing (k % nTxDescrs)).status ||| txStatDd) &&& txStatDd = 1 := by
          rw [Nat.and_or_distrib_right]
          unfold txStatDd
          rw [Nat.and_self, Nat.and_one_is_mod]
          rcases Nat.mod_two_eq_zero_or_one (nic.txRing (k % nTxDescrs)).status with h2 | h2 <;>
            rw [h2] <;> rfl
        simp [hbit]
    · have hother := h.filled k frame hk hks hframe
      dsimp only
      rw [h.update_of_ne ⟨hcleaned, Nat.le_of_lt hlt⟩ ⟨hk, Nat.le_of_lt hks⟩ hkc]
      refine ⟨hother.buffAddr, hother.status.trans ?_⟩
      omega

theorem TxSynced.cleanup (h : TxSynced nic cleaned completed submitted) :
    nic.cleanup = { nic with handling := false } ∧ cleaned = completed ∨
      cleaned < completed ∧ nic.cleanup.handling = nic.handling ∧
        nic.cleanup.obtained = nic.obtained ∧ nic.cleanup.sending = nic.sending ∧
        TxSynced nic.cleanup (cleaned + 1) completed submitted := by
  have hcleaned := h.cleaned_le
  have hcompleted := h.completed_le
  have hsubmitted := h.submitted_le
  have hroom := h.room
  have hfilled : ∀ hlt : cleaned < submitted, Carries (nic.txRing (cleaned % nTxDescrs))
      (nic.obtained[cleaned]) (cleaned < completed) := fun hlt =>
    h.filled cleaned _ (Nat.le_refl _) hlt (List.getElem?_eq_getElem _)
  unfold TxNic.cleanup
  dsimp only
  rw [h.txCleanup, h.tdt]
  split_ifs with hempty hdd
  · refine Or.inl ⟨rfl, ?_⟩
    by_contra hne
    exact mod_ne_of_window cleaned (by omega) (by omega) (by omega) hempty
  · refine Or.inl ⟨rfl, ?_⟩
    have hlt : cleaned < submitted := by
      apply Nat.lt_of_le_of_ne (hcleaned.trans hcompleted)
      rintro rfl
      exact hempty rfl
    have hnot := (hfilled hlt).status.mp hdd
    omega
  · have hlt : cleaned < submitted := by
      apply Nat.lt_of_le_of_ne (hcleaned.trans hcompleted)
      rintro rfl
      exact hempty rfl
    have hdone : cleaned < completed := by
      by_contra hnot
      exact hdd ((hfilled hlt).status.mpr hnot)
    refine Or.inr ⟨hdone, rfl, rfl, rfl, { h with
      cleaned_le := hdone
      room := by omega
      txCleanup := Nat.mod_add_mod _ _ _
      tdt := rfl
      freed := ?_
      filled := ?_
      sending := h.sending_update (Nat.le_refl _) hlt _ }⟩
    · have hget := List.getElem?_eq_getElem (Nat.lt_of_lt_of_le hlt hsubmitted)
      rw [h.freed, (hfilled hlt).buffAddr, List.take_add_one, hget]
      rfl
    · intro k frame hk hks hframe
      dsimp only
      rw [h.update_of_ne ⟨Nat.le_refl _, Nat.le_of_lt hlt⟩ ⟨by omega, Nat.le_of_lt hks⟩ (by omega)]
      exact h.filled k frame (by omega) hks hframe

theorem TxSynced.sendPacket (h : TxSynced nic cleaned completed submitted) {c : TxCall}
    (hone : nic.sending = [c]) (hc : CallAt nic.txRing nic.obtained submitted c) (frame : ℕ)
    (hkept : c.phase = .notify → (c.txTail + 1) % nTxDescrs ≠ nic.txCleanup) :
    ∃ submitted', TxSynced (nic.sendPacket 0 c frame) cleaned completed submitted' := by
  have hcleaned := h.cleaned_le
  have hcompleted := h.completed_le
  obtain ⟨htail, hat⟩ := hc
  unfold TxNic.sendPacket
  cases hphase : c.phase with
  | poll =>
    rw [hphase] at hat
    dsimp only
    split_ifs
    · exact ⟨submitted, h⟩
    · refine ⟨submitted, { h with sending := Or.inr ⟨{ c with phase := .alloc }, ?_, htail, hat⟩ }⟩
      rw [hone]
      rfl
  | alloc =>
    have hlen : nic.obtained.length = submitted := by rwa [hphase] at hat
    refine ⟨submitted, { h with
      submitted_le := ?_
      freed := ?_
      done := ?_
      filled := ?_
      sending := Or.inr ⟨{ c with phase := .copy frame }, ?_, htail, ?_, ?_⟩ }⟩
    · rw [List.length_append]
      omega
    · rw [h.freed, List.take_append_of_le_length (by omega)]
    · rw [h.done, List.take_append_of_le_length (by omega)]
    · intro k fr hk hks hfr
      rw [List.getElem?_append_left (by omega)] at hfr
      exact h.filled k fr hk hks hfr
    · rw [hone]
      rfl
    · rw [List.length_append, hlen, List.length_singleton]
    · rw [← hlen, List.getElem?_concat_length]
  | copy buffPhys =>
    rw [hphase] at hat
    obtain ⟨hlen, hget⟩ := hat
    dsimp only
    rw [htail]
    refine ⟨submitted, { h with
      filled := ?_
      sending := Or.inr ⟨{ c with phase := .notify }, ?_, htail, hlen, ?_⟩ }⟩
    · intro k fr hk hks hfr
      dsimp only
      rw [h.update_of_ne ⟨by omega, Nat.le_refl _⟩ ⟨hk, Nat.le_of_lt hks⟩ (Nat.ne_of_lt hks)]
      exact h.filled k fr hk hks hfr
    · rw [hone, htail]
      rfl
    · intro fr hfr
      rw [hget] at hfr
      dsimp only
      rw [Function.update_self]
      constructor
      · exact Option.some.inj hfr
      · simp
  | notify =>
    rw [hphase] at hat
    obtain ⟨hlen, hcarries⟩ := hat
    have hroom : submitted + 1 < cleaned + nTxDescrs := by
      have hplace := hkept hphase
      have hlt := h.room
      rw [htail, h.txCleanup, Nat.mod_add_mod] at hplace
      apply Nat.lt_of_le_of_ne hlt
      intro heq
      apply hplace
      rw [← Nat.succ_eq_add_one, heq, Nat.add_mod_right]
    refine ⟨submitted + 1, { h with
      completed_le := Nat.le_succ_of_le hcompleted
      submitted_le := Nat.le_of_eq hlen.symm
      room := hroom
      tdt := ?_
      filled := ?_
      sending := Or.inl ⟨?_, hlen⟩ }⟩
    · rw [htail, Nat.mod_add_mod]
    · intro k fr hk hks hfr
      by_cases hks' : k = submitted
      · subst hks'
        have hnew := hcarries fr hfr
        refine ⟨hnew.buffAddr, hnew.status.trans ?_⟩
        simp [hcompleted]
      · exact h.filled k fr hk (by omega) hfr
    · rw [hone]
      rfl

theorem TxSynced.step (h : TxSynced nic cleaned completed submitted) {e : TxEvent}
    (hkept : TxKept nic e) (hstep : txStep nic e = some nic') :
    ∃ cleaned' completed' submitted', TxSynced nic' cleaned' completed' submitted' := by
  cases e with
  | call len eop =>
    simp only [txStep] at hstep
    split_ifs at hstep
    obtain rfl := Option.some.inj hstep
    have hnone : nic.sending = [] := hkept
    have hlen : nic.obtained.length = submitted := by
      rcases h.sending with ⟨-, hlen⟩ | ⟨c, hc, -⟩
      · exact hlen
      · rw [hnone] at hc
        cases hc
    refine ⟨cleaned, completed, submitted, { h with
      sending := Or.inr ⟨⟨nic.tdt, len, eop, .poll⟩, ?_, h.tdt, hlen⟩ }⟩
    rw [hnone]
    rfl
  | drive i frame =>
    simp only [txStep] at hstep
    split_ifs at hstep
    obtain ⟨c, hget, rfl⟩ := Option.map_eq_some_iff.mp hstep
    rcases h.sending with ⟨hnone, -⟩ | ⟨c', hone, hc⟩
    · rw [hnone] at hget
      cases hget
    · have hkept' := hkept c hget
      rw [hone] at hget
      obtain ⟨rfl, rfl⟩ : i = 0 ∧ c' = c := by
        cases i with
        | zero => exact ⟨rfl, Option.some.inj hget⟩
        | succ i => cases hget
      obtain ⟨submitted', hsend⟩ := h.sendPacket hone hc frame hkept'
      exact ⟨cleaned, completed, submitted', hsend⟩
  | complete =>
    simp only [txStep] at hstep
    split_ifs at hstep with hne
    obtain rfl := Option.some.inj hstep
    exact ⟨cleaned, completed + 1, submitted, h.complete hne⟩
  | interrupt =>
    simp only [txStep] at hstep
    split_ifs at hstep
    obtain rfl := Option.some.inj hstep
    exact ⟨cleaned, completed, submitted, { h with }⟩
  | cleanup =>
    simp only [txStep] at hstep
    split_ifs at hstep
    obtain rfl := Option.some.inj hstep
    rcases h.cleanup with ⟨hend, -⟩ | ⟨-, -, -, -, hclean⟩
    · rw [hend]
      exact ⟨cleaned, completed, submitted, { h with }⟩
    · exact ⟨cleaned + 1, completed, submitted, hclean⟩

theorem TxSynced.accounted (h : TxSynced nic cleaned completed submitted) : nic.Accounted := by
  have hcleaned := h.cleaned_le
  have hcompleted := h.completed_le
  have hroom := h.room
  constructor
  · rw [h.freed, h.done]
    exact List.take_prefix_take_left hcleaned
  · rw [h.done]
    exact List.take_prefix _ _
  · rintro c hc buffPhys - ⟨j, hj, hplace⟩
    rcases h.sending with ⟨hnone, -⟩ | ⟨c', hone, htail, -⟩
    · rw [hnone] at hc
      cases hc
    · rw [hone] at hc
      obtain rfl := List.mem_singleton.mp hc
      have hpending : (nic.tdt + nTxDescrs - nic.tdh) % nTxDescrs = submitted - completed := by
        rw [h.tdt, h.tdh]
        unfold nTxDescrs at *
        omega
      rw [hpending] at hj
      rw [htail, h.tdh, Nat.mod_add_mod] at hplace
      exact mod_ne_of_window cleaned (by omega) (by omega) (by omega) hplace

theorem TxSynced.run_complete (h : TxSynced nic cleaned completed submitted) :
    ∃ n nic', run txStep nic (List.replicate n .complete) = some nic' ∧
      TxSynced nic' cleaned submitted submitted ∧ nic'.obtained = nic.obtained ∧
      nic'.sending = nic.sending ∧ nic'.handling = nic.handling := by
  have hcompleted := h.completed_le
  generalize hm : submitted - completed = m
  induction m generalizing nic completed with
  | zero =>
    obtain rfl : completed = submitted := by omega
    exact ⟨0, nic, rfl, h, rfl, rfl, rfl⟩
  | succ m ih =>
    have hne : nic.tdh ≠ nic.tdt := by
      have hcleaned := h.cleaned_le
      have hroom := h.room
      rw [h.tdh, h.tdt]
      exact mod_ne_of_window cleaned (by omega) (by omega) (by omega)
    have hnext := h.complete hne
    obtain ⟨n, nic', hrun, hsynced, hobtained, hsending, hhandling⟩ :=
      ih hnext hnext.completed_le (by omega)
    refine ⟨n + 1, nic', ?_, hsynced, hobtained, hsending, hhandling⟩
    rw [List.replicate_succ, run_cons, txStep, if_neg hne]
    exact hrun

/-- The handler frees what the card has done. -/
theorem TxSynced.run_cleanup (h : TxSynced nic cleaned completed submitted)
    (hhandling : nic.handling = true) :
    ∃ n nic', run txStep nic (List.replicate n .cleanup) = some nic' ∧
      nic'.handling = false ∧ nic'.obtained = nic.obtained ∧
      TxSynced nic' completed completed submitted := by
  have hcleaned := h.cleaned_le
  generalize hm : completed - cleaned = m
  induction m generalizing nic cleaned with
  | zero =>
    obtain rfl : cleaned = completed := by omega
    rcases h.cleanup with ⟨hend, -⟩ | ⟨hlt, -⟩
    · refine ⟨1, { nic with handling := false }, ?_, rfl, rfl, { h with }⟩
      rw [List.replicate_one, run_cons, txStep, if_pos hhandling, hend]
      rfl
    · exact absurd hlt (Nat.lt_irrefl _)
  | succ m ih =>
    rcases h.cleanup with ⟨-, heq⟩ | ⟨-, hstill, hobtained, -, hnext⟩
    · omega
    · obtain ⟨n, nic', hrun, hend, hobtained', hsynced⟩ :=
        ih hnext (hstill.trans hhandling) hnext.cleaned_le (by omega)
      refine ⟨n + 1, nic', ?_, hend, hobtained'.trans hobtained, hsynced⟩
      rw [List.replicate_succ, run_cons, txStep, if_pos hhandling]
      exact hrun

/-- Once the card is done, an interrupt frees every page frame. -/
theorem TxSynced.run_frees_all (h : TxSynced nic cleaned completed submitted)
    (hsending : nic.sending = []) (hhandling : nic.handling = false) :
    ∃ m n nic', run txStep nic (List.replicate m .complete ++
        .interrupt :: List.replicate n .cleanup) = some nic' ∧
      nic'.freed = nic.obtained := by
  obtain ⟨m, nic₁, hrun₁, hsynced₁, hobtained₁, hsending₁, hhandling₁⟩ := h.run_complete
  have hbegin : TxSynced { nic₁ with handling := true } cleaned submitted submitted :=
    { hsynced₁ with }
  obtain ⟨n, nic₂, hrun₂, -, hobtained₂, hsynced₂⟩ := hbegin.run_cleanup rfl
  refine ⟨m, n, nic₂, ?_, ?_⟩
  · rw [run_append, hrun₁, Option.bind_some, run_cons, txStep, hhandling₁, hhandling]
    exact hrun₂
  · have hlen : nic.obtained.length = submitted := by
      rcases h.sending with ⟨-, hlen⟩ | ⟨c, hc, -⟩
      · exact hlen
      · rw [hsending] at hc
        cases hc
    have hobtained : nic₂.obtained = nic.obtained := hobtained₂.trans hobtained₁
    rw [hsynced₂.freed, hobtained, ← hlen, List.take_length]

end

/-- In every run in which calls do not overlap and the tail never catches up with the clean-up
index, page frames are accounted for, and once the card is done an interrupt has freed them all. -/
theorem txFrames_accounted (es : List TxEvent) (nic : TxNic)
    (hkept : Along txStep TxKept txSetup es) (hrun : run txStep txSetup es = some nic) :
    nic.Accounted ∧ (nic.sending = [] → nic.handling = false →
      ∃ m n nic', run txStep nic (List.replicate m .complete ++
          .interrupt :: List.replicate n .cleanup) = some nic' ∧
        nic'.freed = nic.obtained) := by
  have hkeep : ∀ n e n', TxKept n e → txStep n e = some n' →
      (∃ cleaned completed submitted, TxSynced n cleaned completed submitted) →
      ∃ cleaned completed submitted, TxSynced n' cleaned completed submitted := by
    intro n e n' hk hn' hn
    obtain ⟨_, _, _, hsynced⟩ := hn
    exact hsynced.step hk hn'
  obtain ⟨_, _, _, hsynced⟩ := run_invariant
    (I := fun n => ∃ cleaned completed submitted, TxSynced n cleaned completed submitted)
    hkeep hkept hrun ⟨_, _, _, txSynced_txSetup⟩
  exact ⟨hsynced.accounted, hsynced.run_frees_all⟩

def sendOnce (frame : ℕ) : List TxEvent :=
  .call 60 true :: List.replicate 4 (.drive 0 frame)

/-- One packet is sent, and an interrupt frees its page frame. -/
theorem txFrames_accounted_one_packet :
    ∃ nic, run txStep txSetup (sendOnce 0x1000 ++ .complete :: .interrupt ::
        List.replicate 2 .cleanup) = some nic ∧
      nic.obtained = [0x1000] ∧ nic.freed = [0x1000] ∧ nic.Accounted := by
  have hkept : Along txStep TxKept txSetup (sendOnce 0x1000 ++ .complete :: .interrupt ::
      List.replicate 2 .cleanup) := by decide +kernel
  obtain ⟨nic, hrun, hnic⟩ := Option.map_eq_some_iff.mp (by decide +kernel :
    (run txStep txSetup (sendOnce 0x1000 ++ .complete :: .interrupt ::
      List.replicate 2 .cleanup)).map (fun nic => (nic.obtained, nic.freed)) =
        some ([0x1000], [0x1000]))
  obtain ⟨hobtained, hfreed⟩ := Prod.mk.inj hnic
  exact ⟨nic, hrun, hobtained, hfreed, (txFrames_accounted _ nic hkept hrun).1⟩

def sendTwice : List TxEvent :=
  [.call 60 true, .call 60 true, .drive 0 0, .drive 1 0, .drive 0 0x1000, .drive 1 0x2000,
    .drive 0 0, .drive 1 0, .drive 0 0, .drive 0 0]

/-- Seventeen packets are sent and done before an interrupt comes: the tail has gone round the
ring, and the interrupt frees the last frame only. Two calls overlap: the second overwrites the
descriptor of the first. -/
theorem txFrames_lost :
    (∃ nic, run txStep txSetup
        ((List.range 17).flatMap (fun i => sendOnce (0x1000 * (i + 1)) ++ [.complete]) ++
          .interrupt :: List.replicate 2 .cleanup) = some nic ∧
      nic.freed = [0x11000] ∧ nic.done.head? = some 0x1000 ∧ ¬ nic.Accounted) ∧
    ∃ nic, run txStep txSetup (sendTwice ++ [.complete]) = some nic ∧
      nic.obtained = [0x1000, 0x2000] ∧ nic.done = [0x2000] ∧ nic.tdh = nic.tdt ∧
      ¬ nic.Accounted := by
  constructor
  · obtain ⟨nic, hrun, hnic⟩ := Option.map_eq_some_iff.mp (by decide +kernel :
      (run txStep txSetup
        ((List.range 17).flatMap (fun i => sendOnce (0x1000 * (i + 1)) ++ [.complete]) ++
          .interrupt :: List.replicate 2 .cleanup)).map
        (fun nic => (nic.freed, nic.done.head?)) = some ([0x11000], some 0x1000))
    obtain ⟨hfreed, hdone⟩ := Prod.mk.inj hnic
    refine ⟨nic, hrun, hfreed, hdone, fun haccounted => ?_⟩
    obtain ⟨rest, hrest⟩ := haccounted.freed
    rw [hfreed] at hrest
    rw [← hrest] at hdone
    cases hdone
  · obtain ⟨nic, hrun, hnic⟩ := Option.map_eq_some_iff.mp (by decide +kernel :
      (run txStep txSetup (sendTwice ++ [.complete])).map
        (fun nic => (nic.obtained, nic.done, nic.tdh, nic.tdt)) =
          some ([0x1000, 0x2000], [0x2000], 1, 1))
    obtain ⟨hobtained, hnic⟩ := Prod.mk.inj hnic
    obtain ⟨hdone, hnic⟩ := Prod.mk.inj hnic
    obtain ⟨htdh, htdt⟩ := Prod.mk.inj hnic
    refine ⟨nic, hrun, hobtained, hdone, htdh.trans htdt.symm, fun haccounted => ?_⟩
    obtain ⟨rest, hrest⟩ := haccounted.done
    rw [hdone, hobtained] at hrest
    cases hrest

end BrickOS.Drivers
