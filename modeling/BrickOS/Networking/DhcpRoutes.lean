import BrickOS.Networking.DhcpLease

/-! How far the routing table follows the lease. -/
namespace BrickOS.Networking
open BrickOS.Lib BrickOS.Processes

def prescribed (lease : DhcpReply) (dstIp : ℕ) : ℕ × ℕ :=
  if dstIp = loopbackAddr ∨ dstIp = lease.ipAddr then (lo, 0)
  else if dstIp = ipBroadcastAddress ∨
      dstIp &&& lease.subnetMask = lease.routerAddr &&& lease.subnetMask then (eth0, 0)
  else (eth0, lease.routerAddr)

def RoutesFollow (table : RoutingTable) (lease : DhcpReply) : Prop :=
  ∀ dstIp < 2 ^ 32, (routeLookup table dstIp).map (fun r => (r.iface, r.gateway)) =
    some (prescribed lease dstIp)

def DhcpOptionInfo.network (info : DhcpOptionInfo) : ℕ × ℕ :=
  (info.routerAddr &&& info.subnetMask, info.subnetMask)

/-- A lease whose prescriptions do not contradict each other: the own address is neither the
broadcast address nor the whole local network. -/
def DhcpOptionInfo.Proper (info : DhcpOptionInfo) : Prop :=
  info.ipAddr ≠ ipBroadcastAddress ∧ (info.ipAddr, 0xffffffff) ≠ info.network

instance (info : DhcpOptionInfo) : Decidable info.Proper := inferInstanceAs (Decidable (_ ∧ _))

def leaseRoutes (info : DhcpOptionInfo) (n : ℕ) : List Route :=
  ⟨loopbackAddr, 0xffffffff, 0, lo⟩ :: ⟨ipBroadcastAddress, 0xffffffff, 0, eth0⟩ ::
    ⟨info.network.1, info.network.2, 0, eth0⟩ :: ⟨0, 0, info.routerAddr, eth0⟩ ::
      List.replicate n ⟨info.ipAddr, 0xffffffff, 0, lo⟩

theorem and_full {n : ℕ} (h : n < 2 ^ 32) : n &&& 0xffffffff = n := by
  have hmod := Nat.and_two_pow_sub_one_eq_mod n 32
  rw [Nat.mod_eq_of_lt h] at hmod
  exact hmod

theorem netmask_le_of_mem_leaseRoutes {info : DhcpOptionInfo} {n : ℕ}
    (hmask : info.subnetMask < 2 ^ 32) {r : Route} (hr : r ∈ leaseRoutes info n) :
    r.netmask ≤ 0xffffffff := by
  simp only [leaseRoutes, List.mem_cons, List.mem_replicate] at hr
  obtain rfl | rfl | rfl | rfl | ⟨-, rfl⟩ := hr
  · exact le_rfl
  · exact le_rfl
  · exact Nat.le_of_lt_succ hmask
  · exact Nat.zero_le _
  · exact le_rfl

theorem routeLookup_loopback {table : RoutingTable} {info : DhcpOptionInfo} {n : ℕ}
    (hmask : info.subnetMask < 2 ^ 32) (hroutes : table.routes = leaseRoutes info n) :
    routeLookup table loopbackAddr = some ⟨loopbackAddr, 0xffffffff, 0, lo⟩ := by
  rw [routeLookup_eq_foldl, hroutes, leaseRoutes, List.foldl_cons, improve_none (by decide)]
  refine foldl_improve_of_le fun r hr => ?_
  exact netmask_le_of_mem_leaseRoutes hmask (List.mem_cons_of_mem _ hr)

theorem routeLookup_broadcast {table : RoutingTable} {info : DhcpOptionInfo} {n : ℕ}
    (hmask : info.subnetMask < 2 ^ 32) (hroutes : table.routes = leaseRoutes info n) :
    routeLookup table ipBroadcastAddress = some ⟨ipBroadcastAddress, 0xffffffff, 0, eth0⟩ := by
  rw [routeLookup_eq_foldl, hroutes, leaseRoutes, List.foldl_cons, improve_of_ne (by decide),
    List.foldl_cons, improve_none (by decide)]
  refine foldl_improve_of_le fun r hr => ?_
  exact netmask_le_of_mem_leaseRoutes hmask (List.mem_cons_of_mem _ (List.mem_cons_of_mem _ hr))

/-- The best of the routes to the local network, to the router and to the own address. -/
theorem routeLookup_other {table : RoutingTable} {info : DhcpOptionInfo} {n dstIp : ℕ}
    (hmask : info.subnetMask < 2 ^ 32) (hproper : info.Proper)
    (hroutes : table.routes = leaseRoutes info (n + 1)) (hdst : dstIp < 2 ^ 32)
    (hlo : dstIp ≠ loopbackAddr) (hbroadcast : dstIp ≠ ipBroadcastAddress) :
    routeLookup table dstIp = some
      (if dstIp = info.ipAddr then ⟨info.ipAddr, 0xffffffff, 0, lo⟩
      else if dstIp &&& info.subnetMask = info.network.1 then
        ⟨info.network.1, info.network.2, 0, eth0⟩
      else ⟨0, 0, info.routerAddr, eth0⟩) := by
  have hfull := and_full hdst
  rw [routeLookup_eq_foldl, hroutes, leaseRoutes, List.foldl_cons,
    improve_of_ne (by simpa [hfull] using hlo), List.foldl_cons,
    improve_of_ne (by simpa [hfull] using hbroadcast), List.foldl_cons, List.foldl_cons,
    foldl_improve_replicate]
  by_cases hnet : dstIp &&& info.subnetMask = info.network.1
  · rw [improve_none hnet, improve_of_le (Nat.zero_le _), if_pos hnet]
    by_cases hown : dstIp = info.ipAddr
    · -- the own address is more specific than its network, as it is not all of it
      have hlt : info.subnetMask < 0xffffffff := by
        refine lt_of_le_of_ne (Nat.le_of_lt_succ hmask) fun heq => ?_
        refine hproper.2 (Prod.ext ?_ heq.symm)
        rw [← hnet, heq, hfull, hown]
      rw [if_pos hown, improve_some (by simpa [hfull] using hown) hlt]
    · rw [if_neg hown, improve_of_ne (by simpa [hfull] using hown)]
  · rw [improve_of_ne (r := ⟨info.network.1, info.network.2, 0, eth0⟩) hnet,
      improve_none (Nat.and_zero _), if_neg hnet]
    by_cases hown : dstIp = info.ipAddr
    · rw [if_pos hown, improve_some (by simpa [hfull] using hown)
        (by decide : 0 < 0xffffffff)]
    · rw [if_neg hown, improve_of_ne (by simpa [hfull] using hown)]

theorem leaseRoutes_follow {table : RoutingTable} {lease : DhcpReply} {n : ℕ}
    (hproper : lease.Proper)
    (hroutes : table.routes = leaseRoutes lease.toDhcpOptionInfo (n + 1)) :
    RoutesFollow table lease := by
  intro dstIp hdst
  by_cases hlo : dstIp = loopbackAddr
  · rw [hlo, routeLookup_loopback lease.subnetMask_lt hroutes]
    simp [prescribed]
  by_cases hbroadcast : dstIp = ipBroadcastAddress
  · have hown : ipBroadcastAddress ≠ lease.ipAddr := hproper.1.symm
    rw [hbroadcast, routeLookup_broadcast lease.subnetMask_lt hroutes]
    simp [prescribed, hown, hbroadcast ▸ hlo]
  have hnetwork : lease.routerAddr &&& lease.subnetMask = lease.network.1 := rfl
  rw [routeLookup_other lease.subnetMask_lt hproper hroutes hdst hlo hbroadcast, Option.map_some,
    prescribed, hnetwork]
  simp only [hlo, hbroadcast, false_or]
  by_cases hown : dstIp = lease.ipAddr
  · rw [if_pos hown, if_pos hown]
  rw [if_neg hown, if_neg hown]
  by_cases hnet : dstIp &&& lease.subnetMask = lease.network.1
  · rw [if_pos hnet, if_pos hnet]
  · rw [if_neg hnet, if_neg hnet]

/-- The offer's network is found by the old information and is none of the first two routes, or
it is the one there is and nothing is found. -/
def OfferFits (routes : List Route) (lease old offer : DhcpOptionInfo) : Prop :=
  0 < offer.subnetMask ∧
    (old.network = lease.network ∧ lease.network ≠ (loopbackAddr, 0xffffffff) ∧
        lease.network ≠ (ipBroadcastAddress, 0xffffffff) ∨
      offer.network = lease.network ∧ old.network ∉ routes.map Route.key)

instance (routes : List Route) (lease old offer : DhcpOptionInfo) :
    Decidable (OfferFits routes lease old offer) :=
  inferInstanceAs (Decidable (_ ∧ (_ ∧ _ ∧ _ ∨ _ ∧ _)))

/-- The local network after `fully_update_route`. -/
theorem routes_fullyUpdateRoute {table : RoutingTable} {lease old offer : DhcpOptionInfo} {n : ℕ}
    (hroutes : table.routes = leaseRoutes lease n)
    (h : OfferFits table.routes lease old offer) :
    (table.fullyUpdateRoute eth0 old.network.1 old.network.2 offer.network.1 offer.network.2
        0).routes =
      ⟨loopbackAddr, 0xffffffff, 0, lo⟩ :: ⟨ipBroadcastAddress, 0xffffffff, 0, eth0⟩ ::
        ⟨offer.network.1, offer.network.2, 0, eth0⟩ :: ⟨0, 0, lease.routerAddr, eth0⟩ ::
          List.replicate n ⟨lease.ipAddr, 0xffffffff, 0, lo⟩ := by
  show Keyed.modify Route.key table.routes old.network _ = _
  obtain ⟨-, ⟨hsync, hlo, hbroadcast⟩ | ⟨hsame, habsent⟩⟩ := h
  · have hfirst : Route.key ⟨loopbackAddr, 0xffffffff, 0, lo⟩ ≠ lease.network := Ne.symm hlo
    have hsecond : Route.key ⟨ipBroadcastAddress, 0xffffffff, 0, eth0⟩ ≠ lease.network :=
      Ne.symm hbroadcast
    have hthird : Route.key ⟨lease.network.1, lease.network.2, 0, eth0⟩ = lease.network := rfl
    rw [hroutes, leaseRoutes, hsync, Keyed.modify_cons_of_ne hfirst,
      Keyed.modify_cons_of_ne hsecond, Keyed.modify_cons_self hthird]
  · rw [Keyed.modify_of_lookup_eq_none (Keyed.lookup_eq_none_iff.mpr habsent), hroutes, hsame]
    rfl

/-- The default route is the first with mask zero. -/
theorem routes_updateOrInsertRoute {table : RoutingTable} {a b c d : Route} {rest : List Route}
    (hroutes : table.routes = a :: b :: c :: d :: rest) (ha : a.key ≠ (0, 0))
    (hb : b.key ≠ (0, 0)) (hc : c.key ≠ (0, 0)) (hd : d.key = (0, 0)) (iface gateway : ℕ) :
    (table.updateOrInsertRoute iface 0 0 gateway).routes =
      a :: b :: c :: ⟨0, 0, gateway, iface⟩ :: rest := by
  have hfound : (Keyed.lookup Route.key table.routes (0, 0)).isSome := by
    rw [hroutes, Keyed.lookup_cons, if_neg ha, Keyed.lookup_cons, if_neg hb, Keyed.lookup_cons,
      if_neg hc, Keyed.lookup_cons, if_pos hd]
    rfl
  rw [RoutingTable.updateOrInsertRoute, if_pos hfound]
  show Keyed.modify Route.key table.routes _ _ = _
  rw [hroutes, Keyed.modify_cons_of_ne ha, Keyed.modify_cons_of_ne hb,
    Keyed.modify_cons_of_ne hc, Keyed.modify_cons_self hd]
  obtain ⟨hnetwork, hnetmask⟩ := Prod.ext_iff.mp hd
  rw [show d.network = 0 from hnetwork, show d.netmask = 0 from hnetmask]

/-- The table follows an offer but for the own address. -/
theorem routes_of_offer {table : RoutingTable} {lease old offer : DhcpOptionInfo} {n : ℕ}
    (hroutes : table.routes = leaseRoutes lease n)
    (h : OfferFits table.routes lease old offer) :
    ((table.fullyUpdateRoute eth0 old.network.1 old.network.2 offer.network.1 offer.network.2
        0).updateOrInsertRoute eth0 0 0 offer.routerAddr).routes =
      leaseRoutes { offer with ipAddr := lease.ipAddr } n := by
  have hmask : (offer.network.1, offer.network.2) ≠ ((0, 0) : ℕ × ℕ) :=
    fun heq => h.1.ne' (congrArg Prod.snd heq)
  rw [routes_updateOrInsertRoute (routes_fullyUpdateRoute hroutes h) (by decide) (by decide) hmask
    rfl]
  rfl

/-- What the answer to a worker must be like for the routes to follow the lease: an
acknowledgement repeats the address and whatever else is known; an offer fits the table and gets
acknowledged. -/
def AnswerKept (routes : List Route) (lease : DhcpOptionInfo) (reply : Option DhcpReply)
    (sent : ℕ → Bool) : RenewerPhase → Prop
  | .idle => True
  | .awaitingOffer _ old _ => ∀ offer ∈ reply, sent eth0 = true ∧
      OfferFits routes lease old offer.toDhcpOptionInfo
  | .awaitingNewAck _ info _ => reply.isSome ∧ ∀ ack ∈ reply, ack.ipAddr = lease.ipAddr ∧
      ack.subnetMask = info.subnetMask ∧ ack.routerAddr = info.routerAddr ∧ ack.Proper
  | .awaitingAck _ _ _ _ => ∀ ack ∈ reply, ack.ipAddr = lease.ipAddr ∧
      ack.subnetMask = lease.subnetMask ∧ ack.routerAddr = lease.routerAddr

instance (routes : List Route) (lease : DhcpOptionInfo) (reply : Option DhcpReply)
    (sent : ℕ → Bool) (phase : RenewerPhase) :
    Decidable (AnswerKept routes lease reply sent phase) :=
  match phase with
  | .idle => inferInstanceAs (Decidable True)
  | .awaitingOffer _ old _ => inferInstanceAs (Decidable (∀ offer ∈ reply, sent eth0 = true ∧
      OfferFits routes lease old offer.toDhcpOptionInfo))
  | .awaitingNewAck _ info _ => inferInstanceAs (Decidable (reply.isSome ∧ ∀ ack ∈ reply,
      ack.ipAddr = lease.ipAddr ∧ ack.subnetMask = info.subnetMask ∧
        ack.routerAddr = info.routerAddr ∧ ack.Proper))
  | .awaitingAck _ _ _ _ => inferInstanceAs (Decidable (∀ ack ∈ reply,
      ack.ipAddr = lease.ipAddr ∧ ack.subnetMask = lease.subnetMask ∧
        ack.routerAddr = lease.routerAddr))

namespace DhcpHost

def RoutesKept (s : DhcpHost) : DhcpAction → Prop
  | .answer worker reply sent => ∀ lease ∈ s.granted eth0,
      AnswerKept s.net.table.routes lease.info.toDhcpOptionInfo reply sent (s.phase worker)
  | _ => True

instance (s : DhcpHost) (a : DhcpAction) : Decidable (RoutesKept s a) :=
  match a with
  | .answer worker reply sent => inferInstanceAs (Decidable (∀ lease ∈ s.granted eth0,
      AnswerKept s.net.table.routes lease.info.toDhcpOptionInfo reply sent (s.phase worker)))
  | .tick | .takeWork _ _ | .arp _ => inferInstanceAs (Decidable True)

def HasRoutes (s : DhcpHost) (info : DhcpOptionInfo) : Prop :=
  info.subnetMask < 2 ^ 32 ∧ ∃ n, s.net.table.routes = leaseRoutes info (n + 1)

inductive Exchange (s : DhcpHost) (lease : DhcpOptionInfo) : RenewerPhase → Prop
  | offer (old : DhcpOptionInfo) : s.HasRoutes lease → Exchange s lease (.awaitingOffer eth0 old [])
  | newAck (info : DhcpOptionInfo) : s.HasRoutes { info with ipAddr := lease.ipAddr } →
      Exchange s lease (.awaitingNewAck eth0 info [])
  | ack (info : DhcpOptionInfo) (broadcast : Bool) : s.HasRoutes lease →
      Exchange s lease (.awaitingAck eth0 info broadcast [])

def RouteStage (s : DhcpHost) (lease : DhcpOptionInfo) : Prop :=
  (∀ worker, s.phase worker = .idle) ∧ s.HasRoutes lease ∨
    ∃ worker, (∀ other, other ≠ worker → s.phase other = .idle) ∧
      (s.client eth0).state ≠ .bound ∧ s.Exchange lease (s.phase worker)

structure Routed (s : DhcpHost) (lease : Lease) : Prop where
  vec : s.dhcpIfacesVec = [eth0]
  granted : s.granted eth0 = some lease
  proper : lease.info.Proper
  stage : s.RouteStage lease.info.toDhcpOptionInfo

variable {s t : DhcpHost} {lease : Lease}

theorem HasRoutes.of_eq {info info' : DhcpOptionInfo} (h : s.HasRoutes info)
    (hip : info'.ipAddr = info.ipAddr) (hmask : info'.subnetMask = info.subnetMask)
    (hrouter : info'.routerAddr = info.routerAddr) : s.HasRoutes info' := by
  obtain ⟨hlt, n, hroutes⟩ := h
  refine ⟨hmask ▸ hlt, n, ?_⟩
  rw [hroutes, leaseRoutes, leaseRoutes, DhcpOptionInfo.network, DhcpOptionInfo.network, hip, hmask,
    hrouter]

theorem Exchange.congr {info : DhcpOptionInfo} {phase : RenewerPhase} (h : s.Exchange info phase)
    (hroutes : t.net.table.routes = s.net.table.routes) : t.Exchange info phase := by
  cases h with
  | offer old h => exact .offer old (by rwa [HasRoutes, hroutes])
  | newAck info h => exact .newAck info (by rwa [HasRoutes, hroutes])
  | ack info broadcast h => exact .ack info broadcast (by rwa [HasRoutes, hroutes])

theorem Routed.congr (h : s.Routed lease) (hvec : t.dhcpIfacesVec = s.dhcpIfacesVec)
    (hgranted : t.granted = s.granted) (hphase : t.phase = s.phase)
    (hclient : t.client = s.client) (hroutes : t.net.table.routes = s.net.table.routes) :
    t.Routed lease := by
  refine ⟨hvec.trans h.vec, hgranted ▸ h.granted, h.proper, ?_⟩
  unfold RouteStage HasRoutes
  rw [hphase, hclient, hroutes]
  obtain ⟨hidle, hr⟩ | ⟨worker, hother, hstate, hex⟩ := h.stage
  · exact .inl ⟨hidle, hr⟩
  · exact .inr ⟨worker, hother, hstate, hex.congr hroutes⟩

theorem setPhase_idle {worker : ℕ} (h : ∀ other, other ≠ worker → s.phase other = .idle)
    (other : ℕ) : (s.setPhase worker .idle).phase other = .idle := by
  by_cases hw : other = worker
  · subst hw
    exact Function.update_self ..
  · exact (Function.update_of_ne hw ..).trans (h other hw)

theorem routeStage_exchange {info : DhcpOptionInfo} {worker : ℕ} {phase : RenewerPhase}
    (hidle : ∀ other, other ≠ worker → s.phase other = .idle)
    (hstate : (s.client eth0).state ≠ .bound) (hex : s.Exchange info phase) :
    (s.setPhase worker phase).RouteStage info := by
  refine .inr ⟨worker, fun other hw => (Function.update_of_ne hw ..).trans (hidle other hw),
    hstate, ?_⟩
  show Exchange _ _ (Function.update s.phase worker phase worker)
  rw [Function.update_self]
  exact hex.congr rfl

theorem setState_state (s : DhcpHost) (iface : ℕ) (state : DhcpState) :
    ((s.setState iface state).client iface).state = state := by
  simp [setState, setClient]

theorem renewLoop_routeStage {info : DhcpOptionInfo} {worker : ℕ} {sent : ℕ → Bool}
    (hidle : ∀ worker, s.phase worker = .idle) (hr : s.HasRoutes info)
    (hs : renewLoop worker sent [eth0] s = some t) : t.RouteStage info := by
  simp only [renewLoop] at hs
  split at hs
  · cases hs
    exact .inl ⟨setPhase_idle fun other _ => hidle other, hr⟩
  split at hs
  · obtain ⟨u, hu, hs⟩ := Option.bind_eq_some_iff.mp hs
    obtain ⟨hrun, hnet⟩ := runNet_eq_some hu
    have hroutes : u.HasRoutes info := by
      rw [HasRoutes, table_of_dhcpCleanLoopback hrun]
      exact hr
    have hphase : ∀ other, u.phase other = .idle := by
      rw [hnet]
      exact hidle
    split at hs
    · cases hs
      refine routeStage_exchange (fun other _ => hphase other) ?_ (.offer _ hroutes)
      rw [setState_state]
      decide
    · cases hs
      exact .inl ⟨setPhase_idle fun other _ => hphase other, hroutes⟩
  split at hs
  · cases hs
    refine routeStage_exchange (fun other _ => hidle other) ?_ (.ack _ _ hr)
    rw [setState_state]
    decide
  · cases hs
    exact .inl ⟨setPhase_idle fun other _ => hidle other, hr⟩

theorem renewLoop_granted {worker : ℕ} {sent : ℕ → Bool} {ifaces : List ℕ}
    (hs : renewLoop worker sent ifaces s = some t) :
    t.dhcpIfacesVec = s.dhcpIfacesVec ∧ t.granted = s.granted := by
  induction ifaces generalizing s with
  | nil =>
    cases hs
    exact ⟨rfl, rfl⟩
  | cons iface rest ih =>
    simp only [renewLoop] at hs
    split at hs
    · exact ih hs
    split at hs
    · obtain ⟨u, hu, hs⟩ := Option.bind_eq_some_iff.mp hs
      obtain ⟨-, hu⟩ := runNet_eq_some hu
      have hsame : u.dhcpIfacesVec = s.dhcpIfacesVec ∧ u.granted = s.granted := by
        rw [hu]
        exact ⟨rfl, rfl⟩
      split at hs
      · cases hs
        exact hsame
      · obtain ⟨hvec, hgranted⟩ := ih hs
        exact ⟨hvec.trans hsame.1, hgranted.trans hsame.2⟩
    split at hs
    · cases hs
      exact ⟨rfl, rfl⟩
    · obtain ⟨hvec, hgranted⟩ := ih hs
      exact ⟨hvec.trans rfl, hgranted.trans rfl⟩

theorem Routed.renew (h : s.Routed lease) {worker : ℕ} {sent : ℕ → Bool}
    {work : List KernelWork} (hw : s.phase worker = .idle)
    (hs : renewLoop worker sent s.dhcpIfacesVec
      { s with work := work, timers := unregisterTimerCallback s.timers .dhcpLeaseRenewer } =
        some t) : t.Routed lease := by
  obtain ⟨hvec, hgranted⟩ := renewLoop_granted hs
  refine ⟨hvec.trans h.vec, (congrFun hgranted eth0).trans h.granted, h.proper, ?_⟩
  rw [h.vec] at hs
  obtain ⟨hidle, hr⟩ | ⟨other, hothers, hstate, hex⟩ := h.stage
  · refine renewLoop_routeStage ?_ ?_ hs
    · exact hidle
    · exact hr
  · -- the interface is not bound while another worker waits
    simp only [renewLoop, hstate, false_and, not_false_eq_true, if_true] at hs
    cases hs
    have hne : other ≠ worker := by
      rintro rfl
      rw [hw] at hex
      cases hex
    refine .inr ⟨other, fun v hv => ?_, hstate, ?_⟩
    · by_cases hvw : v = worker
      · subst hvw
        exact Function.update_self ..
      · exact (Function.update_of_ne hvw ..).trans (hothers v hv)
    · show Exchange _ _ (Function.update s.phase worker .idle other)
      rw [Function.update_of_ne hne]
      exact hex.congr rfl

theorem Routed.takeWork (h : s.Routed lease) {worker : ℕ} {sent : ℕ → Bool}
    (hs : s.step (.takeWork worker sent) = some t) : t.Routed lease := by
  simp only [DhcpHost.step, DhcpHost.takeWork] at hs
  split at hs
  swap
  · cases hs
  next hw =>
  split at hs
  · cases hs
  · cases hs
    exact h.congr rfl rfl rfl rfl rfl
  · obtain ⟨hrun, hnet⟩ := runNet_eq_some hs
    have htable := table_of_run_isArp (fun a ha => isArp_of_mem_arpTimerCallback ha) hrun
    refine h.congr ?_ ?_ ?_ ?_ (congrArg RoutingTable.routes htable) <;> rw [hnet]
  · exact h.renew hw hs

theorem Routed.finish (h : s.Routed lease) {worker : ℕ}
    (hothers : ∀ other, other ≠ worker → s.phase other = .idle)
    (hr : s.HasRoutes lease.info.toDhcpOptionInfo) : (s.setPhase worker .idle).Routed lease :=
  ⟨h.vec, h.granted, h.proper, .inl ⟨setPhase_idle hothers, hr⟩⟩

theorem Routed.takeOffer (h : s.Routed lease) {worker : ℕ} {old : DhcpOptionInfo}
    {reply : Option DhcpReply} {sent : ℕ → Bool}
    (hothers : ∀ other, other ≠ worker → s.phase other = .idle)
    (hr : s.HasRoutes lease.info.toDhcpOptionInfo)
    (hkept : ∀ offer ∈ reply, sent eth0 = true ∧ OfferFits s.net.table.routes
      lease.info.toDhcpOptionInfo old offer.toDhcpOptionInfo)
    (hs : s.takeOffer worker eth0 old [] reply sent = some t) : t.Routed lease := by
  cases reply with
  | none =>
    cases hs
    exact h.finish hothers hr
  | some offer =>
    obtain ⟨hsent, hfits⟩ := hkept offer rfl
    simp only [DhcpHost.takeOffer, hsent, if_true] at hs
    cases hs
    obtain ⟨-, n, hroutes⟩ := hr
    refine ⟨h.vec, h.granted, h.proper, routeStage_exchange hothers ?_ (.newAck _ ?_)⟩
    · rw [setState_state]
      decide
    · exact ⟨offer.subnetMask_lt, n, routes_of_offer hroutes hfits⟩

theorem routes_configureLoopback {info : DhcpOptionInfo} {net net' : NetStack} {n : ℕ}
    (hmask : info.subnetMask < 2 ^ 32) (hroutes : net.table.routes = leaseRoutes info n)
    (hrun : run NetStack.step net (net.dhcpConfigureLoopback info.ipAddr) = some net') :
    ∃ m, net'.table.routes = leaseRoutes info (m + 1) := by
  have hlo : net.table.getLoopbackIface = some lo := by
    rw [RoutingTable.getLoopbackIface, routeLookup_loopback hmask hroutes]
    rfl
  have htable := table_of_dhcpConfigureLoopback hrun
  rw [hlo, Option.elim_some] at htable
  rw [htable, RoutingTable.registerRoute]
  split
  · next hfull =>
    have hlength : (leaseRoutes info n).length = 4 + n := by
      simp [leaseRoutes]
      omega
    have hn : 10 ≤ 4 + n := by
      rw [← hlength, ← hroutes]
      exact hfull
    refine ⟨n - 1, ?_⟩
    show net.table.routes = _
    rw [hroutes, Nat.sub_add_cancel (by omega)]
  · refine ⟨n, ?_⟩
    show net.table.routes ++ _ = _
    rw [hroutes, leaseRoutes, leaseRoutes, List.replicate_succ']
    rfl

theorem Routed.takeNewAck (h : s.Routed lease) {worker : ℕ} {info : DhcpOptionInfo}
    {ack : DhcpReply} {sent : ℕ → Bool}
    (hothers : ∀ other, other ≠ worker → s.phase other = .idle)
    (hr : s.HasRoutes { info with ipAddr := lease.info.ipAddr })
    (hip : ack.ipAddr = lease.info.ipAddr) (hmask : ack.subnetMask = info.subnetMask)
    (hrouter : ack.routerAddr = info.routerAddr) (hproper : ack.Proper)
    (hs : s.takeNewAck worker eth0 info [] (some ack) sent = some t) :
    t.Routed ⟨ack, s.ticks⟩ := by
  obtain ⟨u, hu, hs⟩ := Option.bind_eq_some_iff.mp hs
  obtain ⟨hrun, hnet⟩ := runNet_eq_some hu
  cases hs
  have hinfo : s.HasRoutes ack.toDhcpOptionInfo := hr.of_eq hip hmask hrouter
  refine ⟨?_, ?_, hproper, .inl ⟨setPhase_idle fun other hne => ?_, ?_⟩⟩
  · rw [hnet]
    exact h.vec
  · rw [hnet]
    simp [setPhase, registerRenewer, setState, setClient, grant]
  · rw [hnet]
    exact hothers other hne
  · obtain ⟨hlt, n, hroutes⟩ := hinfo
    exact ⟨hlt, routes_configureLoopback hlt hroutes hrun⟩

theorem Routed.takeAck (h : s.Routed lease) {worker : ℕ} {info : DhcpOptionInfo}
    {reply : Option DhcpReply} {sent : ℕ → Bool}
    (hothers : ∀ other, other ≠ worker → s.phase other = .idle)
    (hr : s.HasRoutes lease.info.toDhcpOptionInfo)
    (hkept : ∀ ack ∈ reply, ack.ipAddr = lease.info.ipAddr ∧
      ack.subnetMask = lease.info.subnetMask ∧ ack.routerAddr = lease.info.routerAddr)
    (hs : s.takeAck worker eth0 info [] reply sent = some t) : ∃ lease, t.Routed lease := by
  cases reply with
  | none =>
    cases hs
    refine ⟨lease, h.vec, h.granted, h.proper, .inl ⟨setPhase_idle fun other hne => ?_, hr⟩⟩
    exact hothers other hne
  | some ack =>
    obtain ⟨hip, hmask, hrouter⟩ := hkept ack rfl
    cases hs
    refine ⟨⟨ack, s.ticks⟩, h.vec, ?_, ?_,
      .inl ⟨setPhase_idle fun other hne => hothers other hne, hr.of_eq hip hmask hrouter⟩⟩
    · simp [setPhase, registerRenewer, dhcpConfigureIface, setTable, setState, setClient, grant]
    · have hproper := h.proper
      rw [DhcpOptionInfo.Proper, DhcpOptionInfo.network] at hproper ⊢
      rwa [hip, hmask, hrouter]

theorem Routed.answer (h : s.Routed lease) {worker : ℕ} {reply : Option DhcpReply}
    {sent : ℕ → Bool} (hkept : RoutesKept s (.answer worker reply sent))
    (hs : s.step (.answer worker reply sent) = some t) : ∃ lease, t.Routed lease := by
  replace hkept := hkept lease h.granted
  obtain ⟨hidle, -⟩ | ⟨other, hothers, -, hex⟩ := h.stage
  · simp [DhcpHost.step, hidle worker] at hs
  obtain rfl : worker = other := by
    by_contra hne
    simp [DhcpHost.step, hothers worker hne] at hs
  simp only [DhcpHost.step] at hs
  generalize s.phase worker = phase at hex hs hkept
  cases hex with
  | offer old hr => exact ⟨lease, h.takeOffer hothers hr hkept hs⟩
  | newAck info hr =>
    obtain ⟨hsome, hack⟩ := hkept
    obtain ⟨ack, rfl⟩ := Option.isSome_iff_exists.mp hsome
    obtain ⟨hip, hmask, hrouter, hproper⟩ := hack ack rfl
    exact ⟨_, h.takeNewAck hothers hr hip hmask hrouter hproper hs⟩
  | ack info broadcast hr => exact h.takeAck hothers hr hkept hs

theorem Routed.step {a : DhcpAction} (h : s.Routed lease) (hkept : RoutesKept s a)
    (hs : s.step a = some t) : ∃ lease, t.Routed lease := by
  cases a with
  | tick =>
    cases hs
    exact ⟨lease, h.congr rfl rfl rfl rfl rfl⟩
  | takeWork worker sent => exact ⟨lease, h.takeWork hs⟩
  | answer worker reply sent => exact h.answer hkept hs
  | arp a =>
    simp only [DhcpHost.step] at hs
    split at hs
    · next harp =>
      obtain ⟨hrun, hnet⟩ := runNet_eq_some hs
      have htable := table_of_run_isArp (by simpa using harp) hrun
      refine ⟨lease, h.congr ?_ ?_ ?_ ?_ (congrArg RoutingTable.routes htable)⟩ <;> rw [hnet]
    · cases hs

def Repeats (ack offer : DhcpReply) : Prop :=
  ack.subnetMask = offer.subnetMask ∧ ack.routerAddr = offer.routerAddr ∧ ack.Proper

instance (ack offer : DhcpReply) : Decidable (Repeats ack offer) :=
  inferInstanceAs (Decidable (_ ∧ _ ∧ _))

theorem dhcpConfigureIp_routed {discoverSent requestSent : Bool}
    {offer ack : Option DhcpReply} (hb : s.Booted)
    (hrepeats : ∀ o ∈ offer, ∀ a ∈ ack, Repeats a o)
    (hs : s.dhcpConfigureIp discoverSent offer requestSent ack = some (t, true)) :
    ∃ lease, t.Routed lease := by
  obtain ⟨o, ho, a, ha, net, hrun, rfl⟩ := dhcpConfigureIp_eq_some hb hs
  obtain ⟨hmask, hrouter, hproper⟩ := hrepeats o ho a ha
  have hroutes : (s.leased o a).net.table.routes = leaseRoutes a.toDhcpOptionInfo 0 := by
    simp [leased, acceptLease, registerOffer, dhcpConfigureIface, setTable, setClient, setState,
      grant, NetStack.setTable, RoutingTable.setIpAddr, RoutingTable.registerRoute, hb.routes,
      maxRoutingTableEntries, leaseRoutes, DhcpOptionInfo.network, hmask, hrouter]
  refine ⟨⟨a, s.ticks⟩, rfl, ?_, hproper, .inl ⟨hb.idle, a.subnetMask_lt, ?_⟩⟩
  · simp [registerRenewer, leased, acceptLease, dhcpConfigureIface, setClient, setTable, grant,
      registerOffer, setState]
  · exact routes_configureLoopback a.subnetMask_lt hroutes hrun

/-- After a successful `dhcp_configure_ip` the routes follow the last lease whenever no exchange is
under way, in every run whose leases keep the address and whose offers fit the table. -/
theorem routes_follow_lease {s₀ : DhcpHost} {discoverSent requestSent : Bool}
    {offer ack : Option DhcpReply} {actions : List DhcpAction} (hb : s.Booted)
    (hrepeats : ∀ o ∈ offer, ∀ a ∈ ack, Repeats a o)
    (hconfigured : s.dhcpConfigureIp discoverSent offer requestSent ack = some (s₀, true))
    (hkept : Along DhcpHost.step RoutesKept s₀ actions)
    (hrun : run DhcpHost.step s₀ actions = some t) (hidle : ∀ worker, t.phase worker = .idle) :
    ∃ lease, t.granted eth0 = some lease ∧ RoutesFollow t.net.table lease.info := by
  have hstep : ∀ u a v, RoutesKept u a → u.step a = some v →
      (∃ lease, u.Routed lease) → ∃ lease, v.Routed lease := by
    rintro u a v hk huv ⟨lease, hu⟩
    exact hu.step hk huv
  obtain ⟨lease, h⟩ := run_invariant hstep hkept hrun
    (dhcpConfigureIp_routed hb hrepeats hconfigured)
  obtain ⟨-, -, n, hroutes⟩ | ⟨worker, -, -, hex⟩ := h.stage
  · exact ⟨lease, h.granted, leaseRoutes_follow h.proper hroutes⟩
  · rw [hidle worker] at hex
    cases hex

/-- The lease has ended and is given again. -/
theorem routes_follow_lease_again :
    ∃ t lease, run DhcpHost.step configured (List.replicate 100 .tick ++
        [.takeWork 0 sendAll, .answer 0 (some shortLease) sendAll,
          .answer 0 (some shortLease) sendAll]) = some t ∧
      t.granted eth0 = some lease ∧ RoutesFollow t.net.table lease.info := by
  obtain ⟨t, ht, hidle⟩ := Option.map_eq_some_iff.mp (by decide +kernel :
    (run DhcpHost.step configured (List.replicate 100 .tick ++
        [.takeWork 0 sendAll, .answer 0 (some shortLease) sendAll,
          .answer 0 (some shortLease) sendAll])).map (fun t => t.phase 0) = some .idle)
  obtain ⟨lease, hgranted, hfollow⟩ := routes_follow_lease fresh_booted (by decide)
    fresh_dhcpConfigureIp (by decide +kernel) ht
    (idle_of_run configured_idle ht (by decide) hidle)
  exact ⟨t, lease, ht, hgranted, hfollow⟩

def otherLease : DhcpReply :=
  { shortLease with
    ipAddr := 0x0a00030f
    routerAddr := 0x0a000302
    ipAddr_lt := by decide
    routerAddr_lt := by decide }

/-- After a lease of another address, packets to the old one still go to the loopback
interface. -/
theorem routes_keep_old_address :
    ∃ t, run DhcpHost.step configured (List.replicate 100 .tick ++
        [.takeWork 0 sendAll, .answer 0 (some otherLease) sendAll,
          .answer 0 (some otherLease) sendAll]) = some t ∧
      (∀ worker, t.phase worker = .idle) ∧ t.granted eth0 = some ⟨otherLease, 100⟩ ∧
      ¬ RoutesFollow t.net.table otherLease := by
  obtain ⟨t, ht, hvalues⟩ := Option.map_eq_some_iff.mp (by decide +kernel :
    (run DhcpHost.step configured (List.replicate 100 .tick ++
        [.takeWork 0 sendAll, .answer 0 (some otherLease) sendAll,
          .answer 0 (some otherLease) sendAll])).map
      (fun t => (t.phase 0, t.granted eth0,
        (routeLookup t.net.table 0x0a00020f).map fun r => (r.iface, r.gateway))) =
      some (.idle, some ⟨otherLease, 100⟩, some (lo, 0)))
  simp only [Prod.mk.injEq] at hvalues
  obtain ⟨hidle, hgranted, hroute⟩ := hvalues
  refine ⟨t, ht, idle_of_run configured_idle ht (by decide) hidle, hgranted, fun h => ?_⟩
  have hprescribed := h 0x0a00020f (by decide)
  rw [hroute] at hprescribed
  revert hprescribed
  decide

end DhcpHost

end BrickOS.Networking
