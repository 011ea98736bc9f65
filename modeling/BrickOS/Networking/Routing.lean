import BrickOS.Basic
import BrickOS.Lib.Keyed

/-! Interfaces and the routing table. -/
namespace BrickOS.Networking
open BrickOS.Lib

/-- The part of `net_interface_t` that incoming packets are checked against: the MAC address and
`dhcp->ip_addr`. -/
structure NetInterface where
  macAddr : List UInt8
  ipAddr : ℕ

structure Route where
  network : ℕ
  netmask : ℕ
  gateway : ℕ
  iface : ℕ
deriving DecidableEq, Repr

structure RoutingTable where
  routes : List Route
  ifaces : ℕ → NetInterface

def routeLookup (table : RoutingTable) (dstIp : ℕ) : Option Route :=
  table.routes.foldl (fun best r =>
    if dstIp &&& r.netmask = r.network ∧ best.all (fun b => r.netmask > b.netmask) then some r
    else best) none

def improve (dstIp : ℕ) (best : Option Route) (r : Route) : Option Route :=
  if dstIp &&& r.netmask = r.network ∧ best.all (fun b => r.netmask > b.netmask) then some r
  else best

theorem routeLookup_eq_foldl (table : RoutingTable) (dstIp : ℕ) :
    routeLookup table dstIp = table.routes.foldl (improve dstIp) none := rfl

theorem improve_of_ne {dstIp : ℕ} {r : Route} (h : dstIp &&& r.netmask ≠ r.network)
    (best : Option Route) : improve dstIp best r = best := if_neg fun hr => h hr.1

theorem improve_none {dstIp : ℕ} {r : Route} (h : dstIp &&& r.netmask = r.network) :
    improve dstIp none r = some r := if_pos ⟨h, rfl⟩

theorem improve_some {dstIp : ℕ} {best r : Route} (h : dstIp &&& r.netmask = r.network)
    (hlt : best.netmask < r.netmask) : improve dstIp (some best) r = some r :=
  if_pos ⟨h, by simpa using hlt⟩

theorem improve_of_le {best r : Route} (h : r.netmask ≤ best.netmask) (dstIp : ℕ) :
    improve dstIp (some best) r = some best := by
  simp [improve, h]

theorem improve_improve (dstIp : ℕ) (best : Option Route) (r : Route) :
    improve dstIp (improve dstIp best r) r = improve dstIp best r := by
  unfold improve
  split <;> simp_all

theorem foldl_improve_replicate (dstIp : ℕ) (best : Option Route) (r : Route) (k : ℕ) :
    (List.replicate (k + 1) r).foldl (improve dstIp) best = improve dstIp best r := by
  induction k generalizing best with
  | zero => rfl
  | succ k ih => rw [List.replicate_succ, List.foldl_cons, ih, improve_improve]

theorem foldl_improve_of_le {dstIp : ℕ} {best : Route} {routes : List Route}
    (h : ∀ r ∈ routes, r.netmask ≤ best.netmask) :
    routes.foldl (improve dstIp) (some best) = some best := by
  induction routes with
  | nil => rfl
  | cons r routes ih =>
    rw [List.foldl_cons, improve_of_le (h r List.mem_cons_self)]
    exact ih fun r hr => h r (List.mem_cons_of_mem _ hr)

def ipBroadcastAddress : ℕ := 0xffffffff

def loopbackAddr : ℕ := 0x7f000001

def maxRoutingTableEntries : ℕ := 10

def Route.key (r : Route) : ℕ × ℕ := (r.network, r.netmask)

namespace RoutingTable

def registerRoute (table : RoutingTable) (iface network netmask gateway : ℕ) : RoutingTable :=
  if maxRoutingTableEntries ≤ table.routes.length then table
  else { table with routes := table.routes ++ [⟨network, netmask, gateway, iface⟩] }

def updateOrInsertRoute (table : RoutingTable) (iface network netmask gateway : ℕ) :
    RoutingTable :=
  if (Keyed.lookup Route.key table.routes (network, netmask)).isSome then
    { table with routes := Keyed.modify Route.key table.routes (network, netmask) fun r =>
        ⟨r.network, r.netmask, gateway, iface⟩ }
  else table.registerRoute iface network netmask gateway

def fullyUpdateRoute (table : RoutingTable)
    (iface oldNetwork oldNetmask newNetwork newNetmask newGateway : ℕ) : RoutingTable :=
  { table with routes := Keyed.modify Route.key table.routes (oldNetwork, oldNetmask) fun _ =>
      ⟨newNetwork, newNetmask, newGateway, iface⟩ }

def getLoopbackIface (table : RoutingTable) : Option ℕ :=
  (routeLookup table loopbackAddr).map Route.iface

def setIpAddr (table : RoutingTable) (iface ipAddr : ℕ) : RoutingTable :=
  { table with
    ifaces := Function.update table.ifaces iface ⟨(table.ifaces iface).macAddr, ipAddr⟩ }

@[simp] theorem ifaces_registerRoute (table : RoutingTable)
    (iface network netmask gateway : ℕ) :
    (table.registerRoute iface network netmask gateway).ifaces = table.ifaces := by
  unfold registerRoute
  split <;> rfl

end RoutingTable

end BrickOS.Networking
