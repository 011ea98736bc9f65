import BrickOS.Networking.Dhcp

/-! How far the lease is kept up: a renewal callback is registered whenever none runs, a callback
that comes due takes part in the protocol, and a bound interface has what was last acknowledged. -/
namespace BrickOS.Networking
open BrickOS.Lib BrickOS.Processes

def RenewerPhase.iface : RenewerPhase → Option ℕ
  | .idle => none
  | .awaitingOffer iface _ _ | .awaitingNewAck iface _ _ | .awaitingAck iface _ _ _ => some iface

def DhcpAction.worker : DhcpAction → Option ℕ
  | .takeWork worker _ | .answer worker _ _ => some worker
  | .tick | .arp _ => none

namespace DhcpHost

structure HasLease (s : DhcpHost) (iface : ℕ) (lease : Lease) : Prop where
  ipAddr : (s.net.table.ifaces iface).ipAddr = lease.info.ipAddr
  subnetMask : (s.client iface).subnetMask = lease.info.subnetMask
  routerAddr : (s.client iface).routerAddr = lease.info.routerAddr
  leaseEnd : (s.client iface).leaseEnd = lease.acceptedAt + lease.info.leaseTime * 100
  renewalTimestamp : (s.client iface).renewalTimestamp =
    lease.acceptedAt + lease.info.leaseTime / 2 * 100
  rebindTimestamp : (s.client iface).rebindTimestamp =
    lease.acceptedAt + lease.info.leaseTime * 7 / 8 * 100

structure LeaseMaintained (s : DhcpHost) (iface : ℕ) : Prop where
  /-- No run of the renewer leaves the timer without it. -/
  registered : (∀ worker, s.phase worker = .idle) →
    ∃ cb ∈ s.timers, cb.callback = KernelWork.dhcpLeaseRenewer
  /-- A run at or after the renewal timestamp that can send asks for the lease again or for a new
  one, unless another run is doing so. -/
  takesPart : ∀ worker sent t, s.work.head? = some .dhcpLeaseRenewer →
    (s.client iface).renewalTimestamp ≤ s.ticks → sent iface = true →
    s.step (.takeWork worker sent) = some t → ∃ other, (t.phase other).iface = some iface
  /-- The interface is bound to what was last acknowledged. -/
  current : (s.client iface).state = .bound →
    ∃ lease, s.granted iface = some lease ∧ s.HasLease iface lease

def maxLeaseTime : ℕ := 85899

def Confirms (ack offer : DhcpReply) : Prop :=
  ack.subnetMask = offer.subnetMask ∧ ack.routerAddr = offer.routerAddr ∧
    ack.leaseTime ≤ maxLeaseTime

instance (ack offer : DhcpReply) : Decidable (Confirms ack offer) :=
  inferInstanceAs (Decidable (_ ∧ _ ∧ _))

def LeaseKept (iface : ℕ) (s : DhcpHost) : DhcpAction → Prop
  | .takeWork _ sent => s.work.head? = some .dhcpLeaseRenewer →
      s.ticks < (s.client iface).leaseEnd ∧ sent iface = true
  | .answer _ reply _ =>
    reply.isSome ∧ ∀ ack ∈ reply, ∀ lease ∈ s.granted iface, Confirms ack lease.info
  | _ => True

instance (iface : ℕ) (s : DhcpHost) (a : DhcpAction) : Decidable (LeaseKept iface s a) :=
  match a with
  | .takeWork _ sent => inferInstanceAs (Decidable (s.work.head? = some .dhcpLeaseRenewer →
      s.ticks < (s.client iface).leaseEnd ∧ sent iface = true))
  | .answer _ reply _ => inferInstanceAs (Decidable (reply.isSome ∧
      ∀ ack ∈ reply, ∀ lease ∈ s.granted iface, Confirms ack lease.info))
  | .tick | .arp _ => inferInstanceAs (Decidable True)

structure Settled (s : DhcpHost) (iface : ℕ) (lease : Lease) : Prop where
  idle : ∀ worker, s.phase worker = .idle
  bound : (s.client iface).state = .bound
  due : ∃ cb, registrations s.timers .dhcpLeaseRenewer = [cb] ∧
    cb.periodTicks = lease.info.leaseTime * 50 ∧
    lease.acceptedAt + s.work.count .dhcpLeaseRenewer * (lease.info.leaseTime * 50) +
      cb.runningTicks ≤ s.ticks

structure Renewing (s : DhcpHost) (iface worker : ℕ) (lease : Lease) : Prop where
  phase : ∃ info broadcast, s.phase worker = .awaitingAck iface info broadcast [] ∧
    info.subnetMask = lease.info.subnetMask ∧ info.routerAddr = lease.info.routerAddr
  idle : ∀ other, other ≠ worker → s.phase other = .idle
  state : (s.client iface).state = .rebinding
  timers : registrations s.timers .dhcpLeaseRenewer = []
  work : s.work.count .dhcpLeaseRenewer = 0

structure Maintaining (s : DhcpHost) (iface : ℕ) (lease : Lease) : Prop where
  vec : s.dhcpIfacesVec = [iface]
  granted : s.granted iface = some lease
  short : lease.info.leaseTime ≤ maxLeaseTime
  hasLease : s.HasLease iface lease
  stage : s.Settled iface lease ∨ ∃ worker, s.Renewing iface worker lease

variable {s t : DhcpHost} {iface : ℕ} {lease : Lease}

theorem renewerPeriod_ticks {leaseTime : ℕ} (h : leaseTime ≤ maxLeaseTime) :
    msToTicks32 (renewerPeriodMs leaseTime) = leaseTime * 50 := by
  unfold msToTicks32 renewerPeriodMs desiredStandardFreq
  unfold maxLeaseTime at h
  omega

example : msToTicks32 (renewerPeriodMs 86400) = 25032 := by decide

/-- The table of the interfaces is all that the lease needs of the network. -/
theorem HasLease.congr (h : s.HasLease iface lease)
    (hip : (t.net.table.ifaces iface).ipAddr = (s.net.table.ifaces iface).ipAddr)
    (hmask : (t.client iface).subnetMask = (s.client iface).subnetMask)
    (hrouter : (t.client iface).routerAddr = (s.client iface).routerAddr)
    (hend : (t.client iface).leaseEnd = (s.client iface).leaseEnd)
    (hrenewal : (t.client iface).renewalTimestamp = (s.client iface).renewalTimestamp)
    (hrebind : (t.client iface).rebindTimestamp = (s.client iface).rebindTimestamp) :
    t.HasLease iface lease where
  ipAddr := hip.trans h.ipAddr
  subnetMask := hmask.trans h.subnetMask
  routerAddr := hrouter.trans h.routerAddr
  leaseEnd := hend.trans h.leaseEnd
  renewalTimestamp := hrenewal.trans h.renewalTimestamp
  rebindTimestamp := hrebind.trans h.rebindTimestamp

theorem dhcpConfigureIface_hasLease {info : DhcpOptionInfo} {ack : DhcpReply}
    (hmask : info.subnetMask = ack.subnetMask) (hrouter : info.routerAddr = ack.routerAddr)
    (hshort : ack.leaseTime ≤ maxLeaseTime) (s : DhcpHost) :
    (s.dhcpConfigureIface iface (info.acknowledge ack.toDhcpOptionInfo)).HasLease iface
      ⟨ack, s.ticks⟩ := by
  unfold maxLeaseTime at hshort
  constructor
  · simp [dhcpConfigureIface, setTable, setClient, RoutingTable.setIpAddr, NetStack.setTable,
      DhcpOptionInfo.acknowledge]
  · simpa [dhcpConfigureIface, setClient, DhcpOptionInfo.acknowledge] using hmask
  · simpa [dhcpConfigureIface, setClient, DhcpOptionInfo.acknowledge] using hrouter
  · simp only [dhcpConfigureIface, setClient, DhcpOptionInfo.acknowledge, Function.update_self,
      secsToTicks, desiredStandardFreq]
    omega
  · simp only [dhcpConfigureIface, setClient, DhcpOptionInfo.acknowledge, Function.update_self,
      secsToTicks, desiredStandardFreq]
    omega
  · have hseven : ack.leaseTime * 7 % 2 ^ 32 = ack.leaseTime * 7 := Nat.mod_eq_of_lt (by omega)
    simp only [dhcpConfigureIface, setClient, DhcpOptionInfo.acknowledge, Function.update_self,
      secsToTicks, desiredStandardFreq, hseven]
    omega

theorem Settled.renewal_le_ticks (h : s.Settled iface lease) (hlease : s.HasLease iface lease)
    (hwork : s.work.head? = some .dhcpLeaseRenewer) :
    (s.client iface).renewalTimestamp ≤ s.ticks := by
  obtain ⟨cb, -, -, hdue⟩ := h.due
  have hqueued : 1 ≤ s.work.count .dhcpLeaseRenewer :=
    List.count_pos_iff.mpr (List.mem_of_mem_head? hwork)
  have hperiod := Nat.mul_le_mul_right (lease.info.leaseTime * 50) hqueued
  rw [hlease.renewalTimestamp]
  omega

theorem Settled.count_le_one (h : s.Settled iface lease) (hlease : s.HasLease iface lease)
    (hend : s.ticks < (s.client iface).leaseEnd) :
    s.work.count .dhcpLeaseRenewer ≤ 1 := by
  obtain ⟨cb, -, -, hdue⟩ := h.due
  rw [hlease.leaseEnd] at hend
  by_contra hcount
  have hperiods := Nat.mul_le_mul_right (lease.info.leaseTime * 50)
    (show 2 ≤ s.work.count .dhcpLeaseRenewer by omega)
  omega

theorem Settled.tick (h : s.Settled iface lease) : s.tick.Settled iface lease := by
  obtain ⟨cb, hcb, hperiod, hdue⟩ := h.due
  refine ⟨h.idle, h.bound, cb.tick.1, ?_, ?_, ?_⟩
  · show registrations (handleTimerCallbacks s.timers).1 _ = _
    rw [registrations_handle, hcb]
    rfl
  · rw [cb.tick_periodTicks, hperiod]
  · have hcounts := cb.tick_counts
    have hqueued : (handleTimerCallbacks s.timers).2.count .dhcpLeaseRenewer =
        if cb.tick.2 then 1 else 0 := by
      rw [count_handle, hcb]
      cases hfires : cb.tick.2 <;> simp [hfires]
    show _ + (s.work ++ (handleTimerCallbacks s.timers).2).count _ * _ + _ ≤ s.ticks + 1
    rw [List.count_append, hqueued, Nat.add_mul]
    cases hfires : cb.tick.2 <;> simp only [hfires, hperiod] at hcounts ⊢ <;> simp at hcounts ⊢ <;>
      omega

theorem Renewing.tick {worker : ℕ} (h : s.Renewing iface worker lease) :
    s.tick.Renewing iface worker lease := by
  refine ⟨h.phase, h.idle, h.state, ?_, ?_⟩
  · show registrations (handleTimerCallbacks s.timers).1 _ = _
    rw [registrations_handle, h.timers]
    rfl
  · show (s.work ++ (handleTimerCallbacks s.timers).2).count _ = 0
    rw [List.count_append, h.work, count_handle, h.timers]
    rfl

theorem Maintaining.tick (h : s.Maintaining iface lease) : s.tick.Maintaining iface lease := by
  refine ⟨h.vec, h.granted, h.short, h.hasLease.congr rfl rfl rfl rfl rfl rfl, ?_⟩
  cases h.stage with
  | inl hs => exact .inl hs.tick
  | inr hr =>
    obtain ⟨worker, hr⟩ := hr
    exact .inr ⟨worker, hr.tick⟩

theorem Maintaining.congr (h : s.Maintaining iface lease)
    (ht : t = { s with net := t.net, work := t.work })
    (htable : t.net.table = s.net.table)
    (hwork : t.work.count .dhcpLeaseRenewer = s.work.count .dhcpLeaseRenewer) :
    t.Maintaining iface lease := by
  obtain ⟨hvec, hgranted, hshort, hlease, hstage⟩ := h
  rw [ht]
  refine ⟨hvec, hgranted, hshort, hlease.congr ?_ rfl rfl rfl rfl rfl, ?_⟩
  · show (t.net.table.ifaces iface).ipAddr = _
    rw [htable]
  cases hstage with
  | inl hs =>
    obtain ⟨cb, hcb, hperiod, hdue⟩ := hs.due
    exact .inl ⟨hs.idle, hs.bound, cb, hcb, hperiod, hwork ▸ hdue⟩
  | inr hr =>
    obtain ⟨worker, hr⟩ := hr
    exact .inr ⟨worker, hr.phase, hr.idle, hr.state, hr.timers, hwork.trans hr.work⟩

theorem runNet_eq_some {sections : List NetSection} (h : s.runNet sections = some t) :
    run NetStack.step s.net sections = some t.net ∧ t = { s with net := t.net } := by
  obtain ⟨net, hnet, rfl⟩ := Option.map_eq_some_iff.mp h
  exact ⟨hnet, rfl⟩

theorem Maintaining.renew (h : s.Maintaining iface lease) {worker : ℕ} {sent : ℕ → Bool}
    {work : List KernelWork} (hwork : s.work = .dhcpLeaseRenewer :: work)
    (hend : s.ticks < (s.client iface).leaseEnd) (hsent : sent iface = true)
    (hs : s.step (.takeWork worker sent) = some t) : t.Maintaining iface lease := by
  have hhead : s.work.head? = some .dhcpLeaseRenewer := by rw [hwork]; rfl
  obtain ⟨hvec, hgranted, hshort, hlease, hset | ⟨other, hr⟩⟩ := h
  swap
  · -- it is not queued while it runs
    have hzero := hr.work
    rw [hwork, List.count_cons_self] at hzero
    omega
  have hdue := hset.renewal_le_ticks hlease hhead
  have hone := hset.count_le_one hlease hend
  rw [hwork, List.count_cons_self] at hone
  obtain ⟨cb, hcb, -⟩ := hset.due
  have hround : s.step (.takeWork worker sent) = some
      ((setState { s with
          work := work
          timers := unregisterTimerCallback s.timers .dhcpLeaseRenewer } iface
        .rebinding).setPhase worker
        (.awaitingAck iface (s.oldInfo iface)
          (decide ((s.client iface).rebindTimestamp ≤ s.ticks)) [])) := by
    simp only [step, hset.idle worker, takeWork, hwork, hvec, renewLoop, hset.bound, hdue, hsent,
      if_true, not_true_eq_false, if_false, and_self, not_le.mpr hend]
    rfl
  rw [hround] at hs
  cases hs
  refine ⟨hvec, hgranted, hshort, ?_, .inr ⟨worker, ?_, ?_, ?_, ?_, ?_⟩⟩
  · exact hlease.congr rfl (by simp [setState, setClient, setPhase])
      (by simp [setState, setClient, setPhase]) (by simp [setState, setClient, setPhase])
      (by simp [setState, setClient, setPhase]) (by simp [setState, setClient, setPhase])
  · exact ⟨_, _, Function.update_self .., hlease.subnetMask, hlease.routerAddr⟩
  · intro other hother
    exact (Function.update_of_ne hother ..).trans (hset.idle other)
  · simp [setState, setClient, setPhase]
  · show registrations (unregisterTimerCallback s.timers .dhcpLeaseRenewer) _ = []
    rw [registrations_unregister, hcb]
    rfl
  · show work.count _ = 0
    omega

theorem Maintaining.takeWork (h : s.Maintaining iface lease) {worker : ℕ} {sent : ℕ → Bool}
    (hkept : LeaseKept iface s (.takeWork worker sent))
    (hs : s.step (.takeWork worker sent) = some t) : t.Maintaining iface lease := by
  cases hwork : s.work with
  | nil => simp [step, DhcpHost.takeWork, hwork] at hs
  | cons item work =>
    cases item with
    | dhcpLeaseRenewer =>
      obtain ⟨hend, hsent⟩ := hkept (by rw [hwork]; rfl)
      exact h.renew hwork hend hsent hs
    | ipv4TimerCallback =>
      simp only [step, DhcpHost.takeWork, hwork] at hs
      split at hs
      · cases hs
        refine h.congr rfl rfl ?_
        rw [hwork, List.count_cons_of_ne (by decide)]
      · cases hs
    | arpTimerCallback =>
      simp only [step, DhcpHost.takeWork, hwork] at hs
      split at hs
      · obtain ⟨hrun, ht⟩ := runNet_eq_some hs
        refine h.congr ?_ ?_ ?_
        · rw [ht]
        · exact table_of_run_isArp (fun a ha => isArp_of_mem_arpTimerCallback ha) hrun
        · rw [ht, hwork, List.count_cons_of_ne (by decide)]
      · cases hs

theorem Maintaining.takeAck (h : s.Maintaining iface lease) {worker : ℕ} {ack : DhcpReply}
    {sent : ℕ → Bool} (hconfirms : Confirms ack lease.info)
    (hs : s.step (.answer worker (some ack) sent) = some t) :
    t.Maintaining iface ⟨ack, s.ticks⟩ := by
  obtain ⟨hvec, hgranted, hshort, hlease, hset | ⟨other, hr⟩⟩ := h
  · simp [step, hset.idle worker] at hs
  obtain rfl : worker = other := by
    by_contra hne
    simp [step, hr.idle worker hne] at hs
  obtain ⟨info, broadcast, hphase, hmask, hrouter⟩ := hr.phase
  simp only [step, hphase, DhcpHost.takeAck, renewLoop] at hs
  cases hs
  obtain ⟨hamask, harouter, hashort⟩ := hconfirms
  refine ⟨hvec, Function.update_self .., hashort, ?_, .inl ⟨?_, ?_, ?_⟩⟩
  · exact (dhcpConfigureIface_hasLease (hmask.trans hamask.symm) (hrouter.trans harouter.symm)
      hashort ((s.grant iface ack).setState iface .bound)).congr rfl rfl rfl rfl rfl rfl
  · intro other
    by_cases hother : other = worker
    · subst hother
      exact Function.update_self ..
    · exact (Function.update_of_ne hother ..).trans (hr.idle other hother)
  · simp [setPhase, registerRenewer, dhcpConfigureIface, setClient]
  · refine ⟨⟨.dhcpLeaseRenewer, ack.leaseTime * 50, 0⟩, ?_, rfl, ?_⟩
    · show registrations (registerTimerCallback s.timers _ _) _ = _
      rw [registrations_register, hr.timers]
      show [_] = [_]
      rw [show (info.acknowledge ack.toDhcpOptionInfo).leaseTime = ack.leaseTime from rfl,
        renewerPeriod_ticks hashort]
    · show s.ticks + s.work.count _ * _ + 0 ≤ s.ticks
      rw [hr.work]
      omega

theorem Maintaining.step {a : DhcpAction} (h : s.Maintaining iface lease)
    (hkept : LeaseKept iface s a) (hs : s.step a = some t) : ∃ lease, t.Maintaining iface lease := by
  cases a with
  | tick =>
    cases hs
    exact ⟨lease, h.tick⟩
  | takeWork worker sent => exact ⟨lease, h.takeWork hkept hs⟩
  | answer worker reply sent =>
    obtain ⟨hsome, hconfirms⟩ := hkept
    obtain ⟨ack, rfl⟩ := Option.isSome_iff_exists.mp hsome
    exact ⟨_, h.takeAck (hconfirms ack rfl lease h.granted) hs⟩
  | arp a =>
    simp only [DhcpHost.step] at hs
    split at hs
    · next harp =>
      obtain ⟨hrun, ht⟩ := runNet_eq_some hs
      refine ⟨lease, h.congr ?_ ?_ ?_⟩
      · rw [ht]
      · exact table_of_run_isArp (by simpa using harp) hrun
      · rw [ht]
    · cases hs

theorem renewLoop_phase {worker other : ℕ} (hne : other ≠ worker) {sent : ℕ → Bool}
    {ifaces : List ℕ} (hs : renewLoop worker sent ifaces s = some t) :
    t.phase other = s.phase other := by
  induction ifaces generalizing s with
  | nil =>
    cases hs
    exact Function.update_of_ne hne ..
  | cons iface rest ih =>
    simp only [renewLoop] at hs
    split at hs
    · exact ih hs
    split at hs
    · obtain ⟨u, hu, hs⟩ := Option.bind_eq_some_iff.mp hs
      obtain ⟨-, hu⟩ := runNet_eq_some hu
      have hphase : u.phase other = s.phase other := by rw [hu]
      split at hs
      · cases hs
        exact (Function.update_of_ne hne ..).trans hphase
      · exact (ih hs).trans hphase
    split at hs
    · cases hs
      exact Function.update_of_ne hne ..
    · exact (ih hs).trans rfl

theorem runNet_phase {sections : List NetSection} (hs : s.runNet sections = some t) :
    t.phase = s.phase := by
  rw [(runNet_eq_some hs).2]

theorem step_phase {other : ℕ} {a : DhcpAction} (hne : a.worker ≠ some other)
    (hs : s.step a = some t) : t.phase other = s.phase other := by
  cases a with
  | tick =>
    cases hs
    rfl
  | takeWork worker sent =>
    have hother : other ≠ worker := fun h => hne (congrArg some h.symm)
    simp only [DhcpHost.step, DhcpHost.takeWork] at hs
    split at hs
    swap
    · cases hs
    split at hs
    · cases hs
    · cases hs
      rfl
    · rw [runNet_phase hs]
    · exact (renewLoop_phase hother hs).trans rfl
  | answer worker reply sent =>
    have hother : other ≠ worker := fun h => hne (congrArg some h.symm)
    simp only [DhcpHost.step, takeOffer, takeNewAck, DhcpHost.takeAck] at hs
    split at hs
    · cases hs
    · split at hs
      · exact renewLoop_phase hother hs
      · split at hs
        · cases hs
          exact Function.update_of_ne hother ..
        · exact (renewLoop_phase hother hs).trans rfl
    · split at hs
      · exact renewLoop_phase hother hs
      · obtain ⟨u, hu, hs⟩ := Option.bind_eq_some_iff.mp hs
        exact (renewLoop_phase hother hs).trans (congrFun (runNet_phase hu) other)
    · split at hs <;> exact (renewLoop_phase hother hs).trans rfl
  | arp a =>
    simp only [DhcpHost.step] at hs
    split at hs
    · rw [runNet_phase hs]
    · cases hs

theorem run_phase {other : ℕ} {actions : List DhcpAction}
    (hne : ∀ a ∈ actions, a.worker ≠ some other) (hrun : run DhcpHost.step s actions = some t) :
    t.phase other = s.phase other := by
  induction actions generalizing s with
  | nil =>
    cases hrun
    rfl
  | cons a actions ih =>
    obtain ⟨u, hu, hrun⟩ := Option.bind_eq_some_iff.mp hrun
    rw [ih (fun b hb => hne b (List.mem_cons_of_mem _ hb)) hrun]
    exact step_phase (hne a List.mem_cons_self) hu

theorem idle_of_run {worker : ℕ} {actions : List DhcpAction}
    (hs : ∀ worker, s.phase worker = .idle) (hrun : run DhcpHost.step s actions = some t)
    (hactors : actions.all fun a => a.worker.all fun w => w == worker)
    (hidle : t.phase worker = .idle) (other : ℕ) : t.phase other = .idle := by
  by_cases hw : other = worker
  · rw [hw, hidle]
  · rw [← hs other]
    refine run_phase (fun a ha hactor => ?_) hrun
    have hall := List.all_eq_true.mp hactors a ha
    rw [hactor, Option.all_some] at hall
    exact hw (by simpa using hall)

theorem dhcpConfigureIp_phase {discoverSent requestSent ok : Bool} {offer ack : Option DhcpReply}
    (hs : s.dhcpConfigureIp discoverSent offer requestSent ack = some (t, ok)) :
    t.phase = s.phase := by
  simp only [dhcpConfigureIp] at hs
  split at hs
  · cases hs
    rfl
  split at hs
  · cases hs
    rfl
  split at hs
  · cases hs
    rfl
  obtain ⟨u, hu, hut⟩ := Option.map_eq_some_iff.mp hs
  cases hut
  exact (runNet_phase hu).trans rfl

theorem registered_of_registrations {timers : List (TimerCallback KernelWork)}
    {cb : TimerCallback KernelWork} (h : registrations timers .dhcpLeaseRenewer = [cb]) :
    cb ∈ timers ∧ cb.callback = .dhcpLeaseRenewer := by
  have hmem : cb ∈ registrations timers .dhcpLeaseRenewer := by rw [h]; exact List.mem_singleton_self _
  simpa [registrations] using hmem

theorem Settled.takesPart (h : s.Settled iface lease) (hvec : s.dhcpIfacesVec = [iface])
    {worker : ℕ} {sent : ℕ → Bool} (hwork : s.work.head? = some .dhcpLeaseRenewer)
    (hdue : (s.client iface).renewalTimestamp ≤ s.ticks) (hsent : sent iface = true)
    (hs : s.step (.takeWork worker sent) = some t) : (t.phase worker).iface = some iface := by
  obtain ⟨work, hwork⟩ := List.head?_eq_some_iff.mp hwork
  simp only [DhcpHost.step, h.idle worker, DhcpHost.takeWork, hwork, hvec, renewLoop, h.bound, hdue,
    hsent, if_true, not_true_eq_false, if_false, and_self] at hs
  split at hs
  · obtain ⟨u, -, hu⟩ := Option.bind_eq_some_iff.mp hs
    cases hu
    simp [setPhase, RenewerPhase.iface]
  · cases hs
    simp [setPhase, RenewerPhase.iface]

theorem Maintaining.leaseMaintained (h : s.Maintaining iface lease) : s.LeaseMaintained iface := by
  obtain ⟨hvec, hgranted, hshort, hlease, hstage⟩ := h
  constructor
  · intro hidle
    obtain hset | ⟨worker, hr⟩ := hstage
    · obtain ⟨cb, hcb, -⟩ := hset.due
      exact ⟨cb, registered_of_registrations hcb⟩
    · obtain ⟨info, broadcast, hphase, -⟩ := hr.phase
      rw [hidle worker] at hphase
      cases hphase
  · intro worker sent t hwork hdue hsent hs
    obtain hset | ⟨other, hr⟩ := hstage
    · exact ⟨worker, hset.takesPart hvec hwork hdue hsent hs⟩
    · have hmem := List.mem_of_mem_head? hwork
      exact absurd hr.work (List.count_pos_iff.mpr hmem).ne'
  · exact fun _ => ⟨lease, hgranted, hlease⟩

def leased (s : DhcpHost) (offer ack : DhcpReply) : DhcpHost :=
  ((setState { s with dhcpIfacesVec := [] } eth0 .selecting).registerOffer eth0 offer).acceptLease
    eth0 offer ack

theorem dhcpConfigureIp_eq_some {discoverSent requestSent : Bool} {offer ack : Option DhcpReply}
    (hb : s.Booted)
    (hs : s.dhcpConfigureIp discoverSent offer requestSent ack = some (t, true)) :
    ∃ o ∈ offer, ∃ a ∈ ack, ∃ net,
      run NetStack.step (s.leased o a).net ((s.leased o a).net.dhcpConfigureLoopback a.ipAddr) =
        some net ∧
      t = registerRenewer { s.leased o a with net := net } (renewerPeriodMs a.leaseTime) := by
  have hroute : routeLookup s.net.table ipBroadcastAddress =
      some ⟨ipBroadcastAddress, 0xffffffff, 0, eth0⟩ := by
    rw [routeLookup, hb.routes]
    decide
  simp only [dhcpConfigureIp, hroute] at hs
  split at hs
  · cases hs
  next o ho =>
  split at hs
  · cases hs
  next a ha =>
  have ho' : offer = some o := by
    cases discoverSent <;> simp at ho
    exact ho
  have ha' : ack = some a := by
    cases requestSent <;> simp at ha
    exact ha
  obtain ⟨u, hu, hut⟩ := Option.map_eq_some_iff.mp hs
  obtain ⟨hrun, hnet⟩ := runNet_eq_some hu
  cases hut
  refine ⟨o, ho', a, ha', u.net, hrun, ?_⟩
  rw [hnet]
  rfl

/-- A successful `dhcp_configure_ip` leaves the renewer registered for the lease. -/
theorem dhcpConfigureIp_maintaining {discoverSent requestSent : Bool}
    {offer ack : Option DhcpReply} (hb : s.Booted)
    (hconfirms : ∀ o ∈ offer, ∀ a ∈ ack, Confirms a o)
    (hs : s.dhcpConfigureIp discoverSent offer requestSent ack = some (t, true)) :
    ∃ lease, t.Maintaining eth0 lease := by
  obtain ⟨o, ho, a, ha, net, hrun, rfl⟩ := dhcpConfigureIp_eq_some hb hs
  obtain ⟨hmask, hrouter, hshort⟩ := hconfirms o ho a ha
  have hcurrent : (s.leased o a).HasLease eth0 ⟨a, s.ticks⟩ :=
    (dhcpConfigureIface_hasLease hmask.symm hrouter.symm hshort _).congr rfl rfl rfl rfl rfl rfl
  refine ⟨⟨a, s.ticks⟩, rfl, ?_, hshort, ?_, .inl ⟨hb.idle, ?_, ?_⟩⟩
  · simp [registerRenewer, leased, acceptLease, dhcpConfigureIface, setClient, setTable, grant,
      registerOffer, setState]
  · have hip := ipAddr_of_dhcpConfigureLoopback hrun hcurrent.ipAddr
    exact hcurrent.congr (hip.trans hcurrent.ipAddr.symm) rfl rfl rfl rfl rfl
  · simp [registerRenewer, leased, acceptLease, dhcpConfigureIface, setClient]
  · refine ⟨⟨.dhcpLeaseRenewer, a.leaseTime * 50, 0⟩, ?_, rfl, ?_⟩
    · show registrations (registerTimerCallback s.timers _ _) _ = _
      rw [registrations_register, hb.timers, renewerPeriod_ticks hshort]
      rfl
    · show s.ticks + s.work.count _ * _ + 0 ≤ s.ticks
      rw [List.count_eq_zero.mpr hb.work]
      omega

/-- After a successful `dhcp_configure_ip` the lease is maintained in every run in which the
renewer gets to run before the lease ends and every answer confirms the lease. -/
theorem lease_maintained {s₀ : DhcpHost} {discoverSent requestSent : Bool}
    {offer ack : Option DhcpReply} {actions : List DhcpAction} (hb : s.Booted)
    (hconfirms : ∀ o ∈ offer, ∀ a ∈ ack, Confirms a o)
    (hconfigured : s.dhcpConfigureIp discoverSent offer requestSent ack = some (s₀, true))
    (hkept : Along DhcpHost.step (LeaseKept eth0) s₀ actions)
    (hrun : run DhcpHost.step s₀ actions = some t) : t.LeaseMaintained eth0 := by
  have hstep : ∀ u a v, LeaseKept eth0 u a → u.step a = some v →
      (∃ lease, u.Maintaining eth0 lease) → ∃ lease, v.Maintaining eth0 lease := by
    rintro u a v hk huv ⟨lease, hu⟩
    exact hu.step hk huv
  obtain ⟨lease, h⟩ := run_invariant hstep hkept hrun
    (dhcpConfigureIp_maintaining hb hconfirms hconfigured)
  exact h.leaseMaintained

def fresh : DhcpHost where
  net := bareStack
  client := fun _ => ⟨.init, 0, 0, 0, 0, 0, 0⟩
  dhcpIfacesVec := []
  ticks := 0
  timers := []
  work := []
  phase := fun _ => .idle
  granted := fun _ => none

theorem fresh_booted : fresh.Booted := ⟨rfl, rfl, by decide, fun _ => rfl⟩

def shortLease : DhcpReply where
  ipAddr := 0x0a00020f
  serverIpAddr := 0x0a000202
  subnetMask := 0xffffff00
  routerAddr := 0x0a000202
  leaseTime := 1

def configured : DhcpHost :=
  ((fresh.dhcpConfigureIp true (some shortLease) true (some shortLease)).getD (fresh, false)).1

theorem fresh_dhcpConfigureIp :
    fresh.dhcpConfigureIp true (some shortLease) true (some shortLease) =
      some (configured, true) := by
  have hok : (fresh.dhcpConfigureIp true (some shortLease) true (some shortLease)).map Prod.snd =
      some true := by decide +kernel
  obtain ⟨⟨s₀, ok⟩, hs₀, rfl⟩ := Option.map_eq_some_iff.mp hok
  rw [configured, hs₀, Option.getD_some]

theorem configured_idle (worker : ℕ) : configured.phase worker = .idle := by
  rw [dhcpConfigureIp_phase fresh_dhcpConfigureIp]
  rfl

def sendAll : ℕ → Bool := fun _ => true

/-- The lease is renewed when half of it is over. -/
theorem lease_maintained_renewed :
    ∃ t, run DhcpHost.step configured (List.replicate 50 .tick ++
        [.takeWork 0 sendAll, .answer 0 (some shortLease) sendAll]) = some t ∧
      t.granted eth0 = some ⟨shortLease, 50⟩ ∧ t.LeaseMaintained eth0 := by
  obtain ⟨t, ht, hgranted⟩ := Option.map_eq_some_iff.mp (by decide +kernel :
    (run DhcpHost.step configured (List.replicate 50 .tick ++
        [.takeWork 0 sendAll, .answer 0 (some shortLease) sendAll])).map
      (fun t => t.granted eth0) = some (some ⟨shortLease, 50⟩))
  exact ⟨t, ht, hgranted, lease_maintained fresh_booted (by decide) fresh_dhcpConfigureIp
    (by decide +kernel) ht⟩

/-- The renewer runs when the lease has just ended. Without an offer it is not registered again;
with a new lease the timestamps stay those of the old one. -/
theorem lease_lost_after_its_end :
    (∃ t, run DhcpHost.step configured (List.replicate 100 .tick ++
        [.takeWork 0 sendAll, .answer 0 none sendAll]) = some t ∧ ¬ t.LeaseMaintained eth0) ∧
      ∃ t, run DhcpHost.step configured (List.replicate 100 .tick ++
          [.takeWork 0 sendAll, .answer 0 (some shortLease) sendAll,
            .answer 0 (some shortLease) sendAll]) = some t ∧ ¬ t.LeaseMaintained eth0 := by
  obtain ⟨t, ht, hunregistered⟩ := Option.map_eq_some_iff.mp (by decide +kernel :
    (run DhcpHost.step configured (List.replicate 100 .tick ++
        [.takeWork 0 sendAll, .answer 0 none sendAll])).map
      (fun t => (t.phase 0, t.timers.length)) = some (.idle, 0))
  obtain ⟨u, hu, hstale⟩ := Option.map_eq_some_iff.mp (by decide +kernel :
    (run DhcpHost.step configured (List.replicate 100 .tick ++
        [.takeWork 0 sendAll, .answer 0 (some shortLease) sendAll,
          .answer 0 (some shortLease) sendAll])).map
      (fun t => ((t.client eth0).state, (t.client eth0).leaseEnd, t.granted eth0)) =
        some (.bound, 100, some ⟨shortLease, 100⟩))
  simp only [Prod.mk.injEq] at hunregistered hstale
  refine ⟨⟨t, ht, fun h => ?_⟩, u, hu, fun h => ?_⟩
  · obtain ⟨cb, hcb, -⟩ :=
      h.registered (idle_of_run configured_idle ht (by decide) hunregistered.1)
    rw [List.length_eq_zero_iff.mp hunregistered.2] at hcb
    cases hcb
  · obtain ⟨lease, hlease, hhas⟩ := h.current hstale.1
    rw [hstale.2.2] at hlease
    cases hlease
    have hend := hhas.leaseEnd
    rw [hstale.2.1] at hend
    cases hend

end DhcpHost

end BrickOS.Networking
