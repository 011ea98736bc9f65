import BrickOS.Networking.Receive
import BrickOS.Networking.RouteLaws

/-! ICMP redirects: from whom they are taken and what they do to `route_lookup`. -/
namespace BrickOS.Networking
open BrickOS.Lib

def RoutingTable.handle (table : RoutingTable) : NetEvent → RoutingTable
  | .updateOrInsertRoute iface network netmask gateway =>
    table.updateOrInsertRoute iface network netmask gateway
  | .arpSendResponse _ _ | .arpCacheMac _ _ | .icmpToSockets _ _ | .sendEchoReply _ _ _ _
  | .udpToSocket _ _ _ _ _ | .rawIpToSockets _ _ _ _ => table

/-- `icmp_handle_packet` takes the packet for a redirect. -/
structure IsRedirect (data : List UInt8) : Prop extends IcmpAccepted data where
  type : byteAt data (ipHlenOf data) = 5

/-! The fields of a redirect. -/

def redirectSrc (data : List UInt8) : ℕ := be32 data 12

def redirectCode (data : List UInt8) : ℕ := byteAt data (ipHlenOf data + 1)

def redirectGateway (data : List UInt8) : ℕ := be32 data (ipHlenOf data + 4)

def redirectDest (data : List UInt8) : ℕ := be32 data (ipHlenOf data + 24)

/-- The table changes only for a redirect from the gateway in use, and then only lookups of the
destination, or of its network, are changed. -/
def ChangesFromGateway (table table' : RoutingTable) (data : List UInt8) : Prop :=
  table'.routes ≠ table.routes →
    ∃ route, routeLookup table (redirectDest data) = some route ∧
      route.gateway = redirectSrc data ∧ redirectSrc data ≠ 0 ∧
      ∀ dstIp < 2 ^ 32, routeLookup table' dstIp ≠ routeLookup table dstIp →
        ((redirectCode data = 1 ∨ redirectCode data = 3) ∧ dstIp = redirectDest data) ∨
          ((redirectCode data = 0 ∨ redirectCode data = 2) ∧
            dstIp &&& route.netmask = route.network)

/-- A redirect is handled without reading past its end, and changes the table as a redirect may. -/
def OnlyFromGateway (host : Host) (data : List UInt8) : Prop :=
  ∃ events, icmpHandlePacket host data = .ok events ∧
    ChangesFromGateway host.table (events.foldl RoutingTable.handle host.table) data

/-- What keeps a redirect from the address 0 from changing a directly connected route: with a
network code, or a host route in use, the new gateway must be 0 too; otherwise the table must be
full. -/
def Harmless (table : RoutingTable) (data : List UInt8) : Prop :=
  ∀ route, routeLookup table (redirectDest data) = some route → route.gateway = 0 →
    redirectCode data ≤ 3 →
      if redirectCode data % 2 = 0 ∨ route.netmask = 0xffffffff then redirectGateway data = 0
      else maxRoutingTableEntries ≤ table.routes.length

namespace RoutingTable
variable {table : RoutingTable} {dstIp : ℕ} {route : Route}

theorem matches_of_routeLookup (h : routeLookup table dstIp = some route) :
    dstIp &&& route.netmask = route.network := by
  rw [routeLookup_eq_firstBest] at h
  exact holds_of_firstBest (p := fun r : Route => dstIp &&& r.netmask = r.network) h

theorem netmask_le_of_routeLookup (h : routeLookup table dstIp = some route) {r : Route}
    (hr : r ∈ table.routes) (hmatch : dstIp &&& r.netmask = r.network) :
    r.netmask ≤ route.netmask := by
  rw [routeLookup_eq_firstBest] at h
  obtain ⟨hnone, -⟩ | ⟨before, a, after, hsome, hroutes, hbest⟩ :=
    firstBest_spec (p := fun r : Route => dstIp &&& r.netmask = r.network) (f := Route.netmask)
      table.routes
  · rw [hnone] at h
    cases h
  · rw [hsome] at h
    cases h
    rw [hroutes] at hr
    rcases List.mem_append.mp hr with hr | hr
    · exact (hbest.before r hr hmatch).le
    rcases List.mem_cons.mp hr with rfl | hr
    · exact le_rfl
    · exact hbest.after r hr hmatch

theorem lookup_key_of_routeLookup (h : routeLookup table dstIp = some route) :
    Keyed.lookup Route.key table.routes route.key = some route := by
  rw [routeLookup_eq_firstBest] at h
  obtain ⟨hnone, -⟩ | ⟨before, a, after, hsome, hroutes, hbest⟩ :=
    firstBest_spec (p := fun r : Route => dstIp &&& r.netmask = r.network) (f := Route.netmask)
      table.routes
  · rw [hnone] at h
    cases h
  · rw [hsome] at h
    cases h
    have hbefore : Keyed.lookup Route.key before route.key = none := by
      rw [Keyed.lookup_eq_none_iff]
      intro hkey
      obtain ⟨r, hr, hkey⟩ := List.mem_map.mp hkey
      have hnetwork : r.network = route.network := congrArg Prod.fst hkey
      have hnetmask : r.netmask = route.netmask := congrArg Prod.snd hkey
      have hlt := hbest.before r hr (by rw [hnetmask, hnetwork]; exact hbest.holds)
      omega
    rw [Keyed.lookup] at hbefore
    rw [Keyed.lookup, hroutes, List.find?_append, hbefore]
    simp

theorem updateOrInsertRoute_key_iff (h : routeLookup table dstIp = some route) (gateway : ℕ) :
    (table.updateOrInsertRoute route.iface route.network route.netmask gateway).routes =
      table.routes ↔ gateway = route.gateway := by
  have hkey := lookup_key_of_routeLookup h
  have hsome : (Keyed.lookup Route.key table.routes (route.network, route.netmask)).isSome := by
    rw [show (route.network, route.netmask) = route.key from rfl, hkey]
    rfl
  unfold updateOrInsertRoute
  rw [if_pos hsome]
  refine (Keyed.modify_eq_self_iff hkey).trans ?_
  constructor
  · intro heq
    exact congrArg Route.gateway heq
  · rintro rfl
    rfl

/-- When a host route beside a route that is not for one host changes nothing. -/
theorem updateOrInsertRoute_host_iff (hmasks : ∀ r ∈ table.routes, r.netmask < 2 ^ 32)
    (h : routeLookup table dstIp = some route) (hdst : dstIp < 2 ^ 32)
    (hne : route.netmask ≠ 0xffffffff) (gateway : ℕ) :
    (table.updateOrInsertRoute route.iface dstIp 0xffffffff gateway).routes = table.routes ↔
      maxRoutingTableEntries ≤ table.routes.length := by
  have hnone : Keyed.lookup Route.key table.routes (dstIp, 0xffffffff) = none := by
    cases hlookup : Keyed.lookup Route.key table.routes (dstIp, 0xffffffff) with
    | none => rfl
    | some r =>
      have hkey := Keyed.key_of_lookup hlookup
      have hnetwork : r.network = dstIp := congrArg Prod.fst hkey
      have hnetmask : r.netmask = 0xffffffff := congrArg Prod.snd hkey
      have hmatch : dstIp &&& r.netmask = r.network := by
        rw [hnetmask, hnetwork]
        exact Nat.and_two_pow_sub_one_of_lt_two_pow hdst
      have hle := netmask_le_of_routeLookup h (Keyed.mem_of_lookup hlookup) hmatch
      have hlt := hmasks route (by
        rw [routeLookup_eq_firstBest] at h
        exact mem_of_firstBest h)
      omega
  unfold updateOrInsertRoute registerRoute
  rw [hnone, if_neg (by decide)]
  by_cases hfull : maxRoutingTableEntries ≤ table.routes.length
  · rw [if_pos hfull]
    exact iff_of_true rfl hfull
  · rw [if_neg hfull]
    refine iff_of_false (fun heq => ?_) hfull
    have hlength := congrArg List.length heq
    simp at hlength

theorem eq_of_host_changed {iface gateway dst : ℕ} (hdst : dst < 2 ^ 32)
    (h : routeLookup (table.updateOrInsertRoute iface dstIp 0xffffffff gateway) dst ≠
      routeLookup table dst) : dst = dstIp := by
  by_contra hne
  refine h (routeLookup_updateOrInsertRoute_of_ne ?_)
  rwa [show 0xffffffff = 2 ^ 32 - 1 from rfl, Nat.and_two_pow_sub_one_of_lt_two_pow hdst]

end RoutingTable

def redirectEvents (table : RoutingTable) (data : List UInt8) : List NetEvent :=
  if redirectDest data = 0 then []
  else match routeLookup table (redirectDest data) with
    | none => []
    | some route =>
      if route.gateway ≠ redirectSrc data then []
      else if redirectCode data = 0 ∨ redirectCode data = 2 then
        [.updateOrInsertRoute route.iface (redirectDest data &&& route.netmask) route.netmask
          (redirectGateway data)]
      else if redirectCode data = 1 ∨ redirectCode data = 3 then
        [.updateOrInsertRoute route.iface (redirectDest data) 0xffffffff (redirectGateway data)]
      else []

section
variable {data : List UInt8} {host : Host}

theorem icmpHandlePacket_redirect (h : IsRedirect data) (host : Host) :
    icmpHandlePacket host data = icmpHandleRedirect host data (ipHlenOf data) := by
  rw [icmpHandlePacket_accepted h.toIcmpAccepted, h.type]
  rfl

theorem icmpHandleRedirect_short (host : Host) (h : data.length < 28) (ipHlen : ℕ) :
    icmpHandleRedirect host data ipHlen = .ok [] := if_pos h

theorem icmpHandleRedirect_eq (h : IsRedirect data) (host : Host)
    (hlen : ipHlenOf data + 28 ≤ data.length) :
    icmpHandleRedirect host data (ipHlenOf data) = .ok (redirectEvents host.table data) := by
  have hheader := h.header
  have hsize : getTrueIcmpHeaderSize 5 = 8 := rfl
  have hdest : be32 data (ipHlenOf data + 8 + 16) = redirectDest data := rfl
  have hgateway : be32 data (ipHlenOf data + 4) = redirectGateway data := rfl
  have hsrc : be32 data 12 = redirectSrc data := rfl
  have hcode : byteAt data (ipHlenOf data + 1) = redirectCode data := rfl
  unfold icmpHandleRedirect redirectEvents
  rw [hsize, if_neg (by omega), readBe32_of_lt (by omega), ok_bind, hdest]
  by_cases hzero : redirectDest data = 0
  · rw [if_pos hzero, if_pos hzero]
    rfl
  rw [if_neg hzero, if_neg hzero, readBe32_of_lt (by omega), ok_bind, hgateway]
  cases routeLookup host.table (redirectDest data) with
  | none => rfl
  | some route =>
    dsimp only
    rw [readBe32_of_lt (by omega), ok_bind, hsrc, readByte_of_lt (by omega), ok_bind, hcode]
    split_ifs <;> rfl

theorem changesFromGateway_zero_iff {table table' : RoutingTable} (hzero : redirectSrc data = 0) :
    ChangesFromGateway table table' data ↔ table'.routes = table.routes := by
  constructor
  · intro h
    by_contra hne
    obtain ⟨-, -, -, hsrc, -⟩ := h hne
    exact hsrc hzero
  · intro heq hne
    exact absurd heq hne

theorem changesFromGateway_iff (table : RoutingTable) (data : List UInt8)
    (hmasks : ∀ r ∈ table.routes, r.netmask < 2 ^ 32) :
    ChangesFromGateway table ((redirectEvents table data).foldl RoutingTable.handle table) data ↔
      redirectDest data = 0 ∨ redirectSrc data ≠ 0 ∨ Harmless table data := by
  have hnothing : redirectEvents table data = [] →
      ChangesFromGateway table ((redirectEvents table data).foldl RoutingTable.handle table)
        data := by
    intro hevents hchanged
    rw [hevents] at hchanged
    exact absurd rfl hchanged
  unfold redirectEvents at hnothing ⊢
  by_cases hdest : redirectDest data = 0
  · exact iff_of_true (hnothing (if_pos hdest)) (.inl hdest)
  rw [if_neg hdest] at hnothing ⊢
  rw [or_iff_right hdest]
  cases hroute : routeLookup table (redirectDest data) with
  | none =>
    rw [hroute] at hnothing
    refine iff_of_true (hnothing rfl) (.inr fun route h => ?_)
    rw [hroute] at h
    cases h
  | some route =>
    rw [hroute] at hnothing
    dsimp only at hnothing ⊢
    have hharmless : Harmless table data ↔ (route.gateway = 0 → redirectCode data ≤ 3 →
        if redirectCode data % 2 = 0 ∨ route.netmask = 0xffffffff then redirectGateway data = 0
        else maxRoutingTableEntries ≤ table.routes.length) := by
      unfold Harmless
      rw [hroute]
      constructor
      · exact fun h => h route rfl
      · rintro h _ ⟨⟩
        exact h
    by_cases hgateway : route.gateway ≠ redirectSrc data
    · refine iff_of_true (hnothing (if_pos hgateway)) ?_
      rw [hharmless]
      by_cases hsrc : redirectSrc data = 0
      · exact .inr fun h => absurd (h.trans hsrc.symm) hgateway
      · exact .inl hsrc
    rw [if_neg hgateway] at hnothing ⊢
    rw [ne_eq, not_not] at hgateway
    by_cases hnet : redirectCode data = 0 ∨ redirectCode data = 2
    · rw [if_pos hnet, RoutingTable.matches_of_routeLookup hroute]
      show ChangesFromGateway table (table.updateOrInsertRoute route.iface route.network
        route.netmask (redirectGateway data)) data ↔ _
      by_cases hsrc : redirectSrc data = 0
      · have hdirect : route.gateway = 0 := hgateway.trans hsrc
        rw [changesFromGateway_zero_iff hsrc, RoutingTable.updateOrInsertRoute_key_iff hroute,
          hdirect, or_iff_right (not_not.mpr hsrc), hharmless, if_pos (.inl (by omega))]
        exact ⟨fun h _ _ => h, fun h => h hdirect (by omega)⟩
      · refine iff_of_true (fun _ => ⟨route, hroute, hgateway, hsrc, ?_⟩) (.inl hsrc)
        intro dstIp hdst hchanged
        refine .inr ⟨hnet, ?_⟩
        by_contra hne
        exact hchanged (RoutingTable.routeLookup_updateOrInsertRoute_of_ne hne)
    rw [if_neg hnet] at hnothing ⊢
    by_cases hhost : redirectCode data = 1 ∨ redirectCode data = 3
    · rw [if_pos hhost]
      show ChangesFromGateway table (table.updateOrInsertRoute route.iface (redirectDest data)
        0xffffffff (redirectGateway data)) data ↔ _
      have hdst : redirectDest data < 2 ^ 32 := be32_lt _ _
      by_cases hsrc : redirectSrc data = 0
      · have hdirect : route.gateway = 0 := hgateway.trans hsrc
        rw [changesFromGateway_zero_iff hsrc, or_iff_right (not_not.mpr hsrc), hharmless]
        by_cases hfull : route.netmask = 0xffffffff
        · -- the route in use is the one for the destination alone
          have hnetwork : redirectDest data = route.network := by
            have hmatch := RoutingTable.matches_of_routeLookup hroute
            rwa [hfull, show 0xffffffff = 2 ^ 32 - 1 from rfl,
              Nat.and_two_pow_sub_one_of_lt_two_pow hdst] at hmatch
          rw [if_pos (.inr hfull), hnetwork, ← hfull,
            RoutingTable.updateOrInsertRoute_key_iff hroute, hdirect]
          exact ⟨fun h _ _ => h, fun h => h rfl (by omega)⟩
        · rw [if_neg (by omega), RoutingTable.updateOrInsertRoute_host_iff hmasks hroute hdst hfull]
          exact ⟨fun h _ _ => h, fun h => h hdirect (by omega)⟩
      · refine iff_of_true (fun _ => ⟨route, hroute, hgateway, hsrc, ?_⟩) (.inl hsrc)
        intro dstIp hlt hchanged
        exact .inl ⟨hhost, RoutingTable.eq_of_host_changed hlt hchanged⟩
    · refine iff_of_true (hnothing (if_neg hhost)) ?_
      rw [hharmless]
      exact .inr fun _ hcode => by omega

/-- A redirect is taken only from the gateway in use exactly when it is too short to be looked at,
or it has all its fields and quotes no destination, does not come from the address 0, or is
harmless. -/
theorem onlyFromGateway_iff (host : Host) (data : List UInt8) (h : IsRedirect data)
    (hmasks : ∀ r ∈ host.table.routes, r.netmask < 2 ^ 32) :
    OnlyFromGateway host data ↔ data.length < 28 ∨ (ipHlenOf data + 28 ≤ data.length ∧
      (redirectDest data = 0 ∨ redirectSrc data ≠ 0 ∨ Harmless host.table data)) := by
  have hhandle := icmpHandlePacket_redirect h host
  by_cases hshort : data.length < 28
  · rw [icmpHandleRedirect_short host hshort] at hhandle
    exact iff_of_true ⟨[], hhandle, fun hne => absurd rfl hne⟩ (.inl hshort)
  rw [or_iff_right hshort]
  by_cases hlen : ipHlenOf data + 28 ≤ data.length
  · rw [icmpHandleRedirect_eq h host hlen] at hhandle
    rw [and_iff_right hlen, ← changesFromGateway_iff host.table data hmasks]
    constructor
    · rintro ⟨events, hevents, hchanges⟩
      rwa [← Except.ok.inj (hhandle.symm.trans hevents)] at hchanges
    · exact fun hchanges => ⟨_, hhandle, hchanges⟩
  · refine iff_of_false ?_ fun hcond => hlen hcond.1
    rintro ⟨events, hevents, -⟩
    have hok : InBounds (icmpHandleRedirect host data (ipHlenOf data)) := by
      rw [← hhandle, hevents]
      exact inBounds_ok _
    have hfits := (icmpHandleRedirect_inBounds host h.inside).mp hok (by omega)
    omega

end

def leasedTable : RoutingTable where
  routes := [⟨0x7f000001, 0xffffffff, 0, 0⟩, ⟨0xffffffff, 0xffffffff, 0, 1⟩,
    ⟨0x0a000000, 0xffffff00, 0, 1⟩, ⟨0, 0, 0x0a000001, 1⟩]
  ifaces := fun _ => ⟨[2, 0, 0, 0, 0, 1], 0x0a000002⟩

def leasedHost : Host := ⟨leasedTable, fun _ => false, false, false⟩

def redirectPacket (ipSum src icmpSum dest : ℕ) : List UInt8 :=
  [0x45, 0, 0, 48, 0, 0, 0, 0, 64, 1] ++ bytes16 ipSum ++ bytes32 src ++ bytes32 0xffffffff ++
    ([5, 1] ++ bytes16 icmpSum ++ bytes32 0x0a000009 ++
      ([0x45] ++ List.replicate 15 0 ++ bytes32 dest))

/-- The gateway redirects packets for 8.8.8.8. -/
theorem onlyFromGateway_iff_gateway :
    OnlyFromGateway leasedHost (redirectPacket 0 0x0a000001 0x9be5 0x08080808) :=
  (onlyFromGateway_iff leasedHost (redirectPacket 0 0x0a000001 0x9be5 0x08080808)
    ⟨⟨by decide, by decide, rfl⟩, by decide⟩ (by decide)).mpr
    (.inr ⟨by decide, .inr (.inl (by decide))⟩)

/-- Whoever sends from the address 0 redirects packets for a host in the directly connected network:
the frame is accepted and its redirect changes the table. -/
theorem onlyFromGateway_address_zero :
    ethernetHandlePacket leasedHost [] (List.replicate 6 0xff ++ [2, 0, 0, 0, 0, 9, 0x08, 0x00] ++
        redirectPacket 0x7ace 0 0xa1f0 0x0a000005) =
      .ok ([.updateOrInsertRoute 1 0x0a000005 0xffffffff 0x0a000009], []) ∧
    IsRedirect (redirectPacket 0x7ace 0 0xa1f0 0x0a000005) ∧
    ¬ OnlyFromGateway leasedHost (redirectPacket 0x7ace 0 0xa1f0 0x0a000005) := by
  have hredirect : IsRedirect (redirectPacket 0x7ace 0 0xa1f0 0x0a000005) :=
    ⟨⟨by decide, by decide, rfl⟩, by decide⟩
  refine ⟨rfl, hredirect, ?_⟩
  rintro ⟨events, hevents, hchanges⟩
  rw [icmpHandlePacket_redirect hredirect, icmpHandleRedirect_eq hredirect _ (by decide)] at hevents
  obtain rfl := Except.ok.inj hevents
  rw [changesFromGateway_zero_iff rfl] at hchanges
  exact absurd hchanges (by decide)

end BrickOS.Networking
