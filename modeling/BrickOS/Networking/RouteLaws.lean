import BrickOS.Networking.Routing
import BrickOS.Lib.FirstBest
import Mathlib.Data.Nat.Bitwise

/-! The routing table as longest-prefix match: what `route_lookup` finds in a table of contiguous
netmasks, and what the changes of the table do to it. -/
namespace BrickOS.Networking
open BrickOS.Lib

def netmaskOf (p : ℕ) : ℕ := 2 ^ 32 - 2 ^ (32 - p)

def Contiguous (netmask : ℕ) : Prop := ∃ p ≤ 32, netmask = netmaskOf p

def prefixLen (netmask : ℕ) : ℕ := (List.range 32).countP netmask.testBit

def Route.Covers (r : Route) (dstIp : ℕ) : Prop :=
  dstIp / 2 ^ (32 - prefixLen r.netmask) = r.network / 2 ^ (32 - prefixLen r.netmask)

structure Route.Proper (r : Route) : Prop where
  contiguous : Contiguous r.netmask
  masked : r.network &&& r.netmask = r.network

/-- The entry is the one of the longest prefix, the first of them; none if there is none. -/
def LongestPrefix (routes : List Route) (dstIp : ℕ) : Option Route → Prop
  | none => ∀ r ∈ routes, ¬ r.Covers dstIp
  | some r => ∃ before after, routes = before ++ r :: after ∧ r.Covers dstIp ∧
      (∀ s ∈ before, s.Covers dstIp → prefixLen s.netmask < prefixLen r.netmask) ∧
      ∀ s ∈ after, s.Covers dstIp → prefixLen s.netmask ≤ prefixLen r.netmask

section
variable {m m' p q n : ℕ}

theorem prefixLen_netmaskOf (h : p ≤ 32) : prefixLen (netmaskOf p) = p := by
  have hall : ∀ p < 33, prefixLen (netmaskOf p) = p := by decide
  exact hall p (by omega)

theorem netmaskOf_lt_iff (hp : p ≤ 32) (hq : q ≤ 32) : netmaskOf p < netmaskOf q ↔ p < q := by
  have hpow : 2 ^ (32 - q) < 2 ^ (32 - p) ↔ 32 - q < 32 - p :=
    Nat.pow_lt_pow_iff_right (by decide)
  have hple : 2 ^ (32 - p) ≤ 2 ^ 32 := Nat.pow_le_pow_right (by decide) (by omega)
  have hqle : 2 ^ (32 - q) ≤ 2 ^ 32 := Nat.pow_le_pow_right (by decide) (by omega)
  unfold netmaskOf
  omega

theorem prefixLen_lt_iff (hm : Contiguous m) (hm' : Contiguous m') :
    prefixLen m < prefixLen m' ↔ m < m' := by
  obtain ⟨p, hp, rfl⟩ := hm
  obtain ⟨q, hq, rfl⟩ := hm'
  rw [prefixLen_netmaskOf hp, prefixLen_netmaskOf hq, netmaskOf_lt_iff hp hq]

theorem prefixLen_le_iff (hm : Contiguous m) (hm' : Contiguous m') :
    prefixLen m ≤ prefixLen m' ↔ m ≤ m' := by
  rw [← not_lt, ← not_lt, prefixLen_lt_iff hm' hm]

theorem testBit_netmaskOf (p i : ℕ) :
    (netmaskOf p).testBit i = (decide (i < 32) && decide (32 - p ≤ i)) := by
  have hpos : 0 < 2 ^ (32 - p) := Nat.two_pow_pos _
  have hle : 2 ^ (32 - p) ≤ 2 ^ 32 := Nat.pow_le_pow_right (by decide) (by omega)
  have hsub : netmaskOf p = 2 ^ 32 - (2 ^ (32 - p) - 1 + 1) := by
    unfold netmaskOf
    omega
  rw [hsub, Nat.testBit_two_pow_sub_succ (by omega), Nat.testBit_two_pow_sub_one]
  by_cases hi : i < 32 - p
  · rw [decide_eq_true hi, decide_eq_false (Nat.not_le.mpr hi)]
    rfl
  · rw [decide_eq_false hi, decide_eq_true (Nat.not_lt.mp hi)]
    rfl

theorem and_netmaskOf (h : n < 2 ^ 32) (p : ℕ) :
    n &&& netmaskOf p = n / 2 ^ (32 - p) * 2 ^ (32 - p) := by
  apply Nat.eq_of_testBit_eq
  intro i
  rw [Nat.testBit_and, testBit_netmaskOf, Nat.testBit_mul_two_pow, Nat.testBit_div_two_pow]
  by_cases hk : 32 - p ≤ i
  · rw [Nat.sub_add_cancel hk]
    by_cases hi : i < 32
    · simp [hi, hk]
    · have hhigh : n.testBit i = false :=
        Nat.testBit_lt_two_pow (h.trans_le (Nat.pow_le_pow_right (by decide) (by omega)))
      simp [hhigh]
  · simp [hk]

theorem lt_of_masked {r : Route} (h : r.Proper) : r.network < 2 ^ 32 := by
  obtain ⟨p, -, hmask⟩ := h.contiguous
  have hle : r.network ≤ r.netmask := h.masked ▸ Nat.and_le_right
  have hlt : netmaskOf p < 2 ^ 32 := Nat.sub_lt (by decide) (Nat.two_pow_pos _)
  omega

theorem covers_iff {r : Route} (hr : r.Proper) (h : n < 2 ^ 32) :
    r.Covers n ↔ n &&& r.netmask = r.network := by
  obtain ⟨p, hp, hmask⟩ := hr.contiguous
  have hlen : prefixLen r.netmask = p := by rw [hmask, prefixLen_netmaskOf hp]
  have hnetwork : r.network / 2 ^ (32 - p) * 2 ^ (32 - p) = r.network := by
    rw [← and_netmaskOf (lt_of_masked hr), ← hmask, hr.masked]
  rw [Route.Covers, hlen, hmask, and_netmaskOf h]
  constructor
  · intro heq
    rw [heq, hnetwork]
  · intro heq
    have hdiv := congrArg (· / 2 ^ (32 - p)) heq
    rwa [Nat.mul_div_cancel _ (Nat.two_pow_pos _)] at hdiv

end

theorem routeLookup_eq_firstBest (table : RoutingTable) (dstIp : ℕ) :
    routeLookup table dstIp =
      firstBest (fun r : Route => dstIp &&& r.netmask = r.network) Route.netmask table.routes := rfl

inductive RouteCall where
  | registerRoute (iface network netmask gateway : ℕ)
  | updateOrInsertRoute (iface network netmask gateway : ℕ)
  | fullyUpdateRoute (iface oldNetwork oldNetmask newNetwork newNetmask newGateway : ℕ)

def RouteCall.Proper : RouteCall → Prop
  | .registerRoute iface network netmask gateway
  | .updateOrInsertRoute iface network netmask gateway
  | .fullyUpdateRoute iface _ _ network netmask gateway =>
    Route.Proper ⟨network, netmask, gateway, iface⟩

namespace RoutingTable

def call (table : RoutingTable) : RouteCall → RoutingTable
  | .registerRoute iface network netmask gateway =>
    table.registerRoute iface network netmask gateway
  | .updateOrInsertRoute iface network netmask gateway =>
    table.updateOrInsertRoute iface network netmask gateway
  | .fullyUpdateRoute iface oldNetwork oldNetmask newNetwork newNetmask newGateway =>
    table.fullyUpdateRoute iface oldNetwork oldNetmask newNetwork newNetmask newGateway

def calls (table : RoutingTable) (cs : List RouteCall) : RoutingTable := cs.foldl call table

def Proper (table : RoutingTable) : Prop := ∀ r ∈ table.routes, r.Proper

variable {table : RoutingTable} {iface network netmask gateway : ℕ}

/-! What a call does to the entries. -/

theorem routes_registerRoute (table : RoutingTable) (iface network netmask gateway : ℕ) :
    (table.registerRoute iface network netmask gateway).routes = table.routes ∨
      (table.registerRoute iface network netmask gateway).routes =
        table.routes ++ [⟨network, netmask, gateway, iface⟩] := by
  unfold registerRoute
  split_ifs
  · exact .inl rfl
  · exact .inr rfl

/-- Entries are changed in place, or one is added behind the others. -/
theorem routes_updateOrInsertRoute_cases (table : RoutingTable)
    (iface network netmask gateway : ℕ) :
    (table.updateOrInsertRoute iface network netmask gateway).routes =
        Keyed.modify Route.key table.routes (network, netmask) (fun r =>
          ⟨r.network, r.netmask, gateway, iface⟩) ∨
      Keyed.lookup Route.key table.routes (network, netmask) = none ∧
        (table.updateOrInsertRoute iface network netmask gateway).routes =
          table.routes ++ [⟨network, netmask, gateway, iface⟩] := by
  unfold updateOrInsertRoute
  cases hlookup : Keyed.lookup Route.key table.routes (network, netmask) with
  | some r => exact .inl rfl
  | none =>
    rw [Keyed.modify_of_lookup_eq_none hlookup]
    rcases table.routes_registerRoute iface network netmask gateway with h | h
    · exact .inl h
    · exact .inr ⟨rfl, h⟩

def InOrder (routes routes' : List Route) : Prop :=
  (∃ i r, routes' = routes.set i r) ∨ ∃ r, routes' = routes ++ [r]

theorem inOrder_modify (routes : List Route) (k : ℕ × ℕ) (f : Route → Route) :
    InOrder routes (Keyed.modify Route.key routes k f) := by
  cases hlookup : Keyed.lookup Route.key routes k with
  | none =>
    rw [Keyed.modify_of_lookup_eq_none hlookup]
    exact .inl ⟨routes.length, ⟨0, 0, 0, 0⟩, (List.set_eq_of_length_le le_rfl).symm⟩
  | some r =>
    obtain ⟨i, hi⟩ := Keyed.modify_eq_set f hlookup
    exact .inl ⟨i, f r, hi⟩

theorem inOrder_call (table : RoutingTable) (c : RouteCall) :
    InOrder table.routes (table.call c).routes := by
  cases c with
  | registerRoute iface network netmask gateway =>
    rcases table.routes_registerRoute iface network netmask gateway with h | h
    · exact .inl ⟨table.routes.length, ⟨0, 0, 0, 0⟩,
        h.trans (List.set_eq_of_length_le le_rfl).symm⟩
    · exact .inr ⟨_, h⟩
  | updateOrInsertRoute iface network netmask gateway =>
    rcases table.routes_updateOrInsertRoute_cases iface network netmask gateway with h | ⟨-, h⟩
    · have hset := inOrder_modify table.routes (network, netmask) fun r =>
        ⟨r.network, r.netmask, gateway, iface⟩
      rwa [← h] at hset
    · exact .inr ⟨_, h⟩
  | fullyUpdateRoute iface oldNetwork oldNetmask newNetwork newNetmask newGateway =>
    exact inOrder_modify table.routes (oldNetwork, oldNetmask) _

theorem proper_append {r : Route} (h : ∀ s ∈ table.routes, s.Proper) (hr : r.Proper) :
    ∀ s ∈ table.routes ++ [r], s.Proper := by
  intro s hs
  rcases List.mem_append.mp hs with hs | hs
  · exact h s hs
  · rwa [List.mem_singleton.mp hs]

theorem Proper.call {c : RouteCall} (h : table.Proper) (hc : c.Proper) :
    (table.call c).Proper := by
  cases c with
  | registerRoute iface network netmask gateway =>
    show ∀ r ∈ (table.registerRoute iface network netmask gateway).routes, r.Proper
    rcases table.routes_registerRoute iface network netmask gateway with heq | heq
    · rwa [heq]
    · rw [heq]
      exact proper_append h hc
  | updateOrInsertRoute iface network netmask gateway =>
    show ∀ r ∈ (table.updateOrInsertRoute iface network netmask gateway).routes, r.Proper
    rcases table.routes_updateOrInsertRoute_cases iface network netmask gateway with
      heq | ⟨-, heq⟩
    · rw [heq]
      intro r hr
      obtain hr | ⟨s, hs, -, rfl⟩ := Keyed.mem_of_mem_modify hr
      · exact h r hr
      · exact ⟨(h s hs).contiguous, (h s hs).masked⟩
    · rw [heq]
      exact proper_append h hc
  | fullyUpdateRoute iface oldNetwork oldNetmask newNetwork newNetmask newGateway =>
    intro r hr
    obtain hr | ⟨s, -, -, rfl⟩ := Keyed.mem_of_mem_modify hr
    · exact h r hr
    · exact hc

theorem Proper.calls {cs : List RouteCall} (h : table.Proper) (hcs : ∀ c ∈ cs, c.Proper) :
    (table.calls cs).Proper := by
  induction cs generalizing table with
  | nil => exact h
  | cons c cs ih =>
    exact ih (h.call (hcs c List.mem_cons_self)) fun d hd => hcs d (List.mem_cons_of_mem _ hd)

/-! What a call does to lookups. -/

theorem routeLookup_updateOrInsertRoute_of_ne {dstIp : ℕ} (h : dstIp &&& netmask ≠ network) :
    routeLookup (table.updateOrInsertRoute iface network netmask gateway) dstIp =
      routeLookup table dstIp := by
  rw [routeLookup_eq_firstBest, routeLookup_eq_firstBest]
  apply firstBest_congr
  rcases table.routes_updateOrInsertRoute_cases iface network netmask gateway with
    heq | ⟨-, heq⟩
  · rw [heq]
    have hkey : ∀ r : Route, r.key = (network, netmask) →
        decide (dstIp &&& r.netmask = r.network) = false := by
      intro r hr
      have hnetwork : r.network = network := congrArg Prod.fst hr
      have hnetmask : r.netmask = netmask := congrArg Prod.snd hr
      rw [hnetwork, hnetmask]
      exact decide_eq_false h
    refine Keyed.filter_modify hkey ?_
    exact fun r hr => hkey r hr
  · rw [heq, List.filter_append, List.filter_cons_of_neg (by simpa using h), List.filter_nil,
      List.append_nil]

theorem routeLookup_updateOrInsertRoute_of_lt {dstIp : ℕ} {r : Route}
    (h : routeLookup table dstIp = some r) (hlt : netmask < r.netmask) :
    routeLookup (table.updateOrInsertRoute iface network netmask gateway) dstIp = some r := by
  rw [routeLookup_eq_firstBest] at h ⊢
  refine firstBest_congr_gt ?_ h hlt
  rcases table.routes_updateOrInsertRoute_cases iface network netmask gateway with
    heq | ⟨-, heq⟩
  · rw [heq]
    have hkey : ∀ s : Route, s.key = (network, netmask) →
        decide (netmask < s.netmask) = false := by
      intro s hs
      have hnetmask : s.netmask = netmask := congrArg Prod.snd hs
      rw [hnetmask]
      exact decide_eq_false (lt_irrefl _)
    refine (Keyed.filter_modify hkey ?_).symm
    exact fun s hs => hkey s hs
  · rw [heq, List.filter_append, List.filter_cons_of_neg (by simp), List.filter_nil,
      List.append_nil]

def entries (table : RoutingTable) (network netmask : ℕ) : ℕ :=
  (table.routes.map Route.key).count (network, netmask)

theorem entries_updateOrInsertRoute (table : RoutingTable)
    (iface network netmask gateway : ℕ) :
    (table.updateOrInsertRoute iface network netmask gateway).entries network netmask ≤
      max 1 (table.entries network netmask) := by
  unfold entries
  rcases table.routes_updateOrInsertRoute_cases iface network netmask gateway with
    heq | ⟨hnone, heq⟩
  · have hkeys := @Keyed.map_key_modify _ _ _ Route.key table.routes (network, netmask)
      (fun r => ⟨r.network, r.netmask, gateway, iface⟩) fun r hr => hr
    rw [heq, hkeys]
    exact le_max_right _ _
  · have hzero : (table.routes.map Route.key).count (network, netmask) = 0 :=
      List.count_eq_zero.mpr (Keyed.lookup_eq_none_iff.mp hnone)
    rw [heq, List.map_append, List.count_append, hzero, Nat.zero_add]
    exact List.count_le_length.trans (le_max_left _ _)

theorem Proper.longestPrefix (h : table.Proper) {dstIp : ℕ} (hdst : dstIp < 2 ^ 32) :
    LongestPrefix table.routes dstIp (routeLookup table dstIp) := by
  have hcovers : ∀ r ∈ table.routes, r.Covers dstIp ↔ dstIp &&& r.netmask = r.network :=
    fun r hr => covers_iff (h r hr) hdst
  rw [routeLookup_eq_firstBest]
  obtain ⟨hnone, hall⟩ | ⟨before, r, after, hsome, hroutes, hbest⟩ :=
    firstBest_spec (p := fun r : Route => dstIp &&& r.netmask = r.network) (f := Route.netmask)
      table.routes
  · rw [hnone]
    intro r hr hcover
    exact hall r hr ((hcovers r hr).mp hcover)
  · rw [hsome]
    have hbefore : ∀ s ∈ before, s ∈ table.routes := fun s hs => by
      rw [hroutes]
      exact List.mem_append_left _ hs
    have hr : r ∈ table.routes := by
      rw [hroutes]
      exact List.mem_append_right _ List.mem_cons_self
    have hafter : ∀ s ∈ after, s ∈ table.routes := fun s hs => by
      rw [hroutes]
      exact List.mem_append_right _ (List.mem_cons_of_mem _ hs)
    refine ⟨before, after, hroutes, (hcovers r hr).mpr hbest.holds, ?_, ?_⟩
    · intro s hs hcover
      have hlt := hbest.before s hs ((hcovers s (hbefore s hs)).mp hcover)
      exact (prefixLen_lt_iff (h s (hbefore s hs)).contiguous (h r hr).contiguous).mpr hlt
    · intro s hs hcover
      have hle := hbest.after s hs ((hcovers s (hafter s hs)).mp hcover)
      exact (prefixLen_le_iff (h s (hafter s hs)).contiguous (h r hr).contiguous).mpr hle

end RoutingTable

/-- After any calls with proper routes, `route_lookup` finds the first entry of the longest prefix,
calls keep the entries in the order of their registration, and `update_or_insert_route` changes only
lookups in its network that had no longer prefix, without a second entry for it. -/
theorem routing_table_laws (table : RoutingTable) (cs : List RouteCall) (htable : table.Proper)
    (hcs : ∀ c ∈ cs, c.Proper) :
    (∀ dstIp < 2 ^ 32, LongestPrefix (table.calls cs).routes dstIp
      (routeLookup (table.calls cs) dstIp)) ∧
    (∀ c, RoutingTable.InOrder (table.calls cs).routes ((table.calls cs).call c).routes) ∧
    ∀ r : Route, r.Proper →
      let updated := (table.calls cs).updateOrInsertRoute r.iface r.network r.netmask r.gateway
      (∀ dstIp < 2 ^ 32, routeLookup updated dstIp ≠ routeLookup (table.calls cs) dstIp →
        r.Covers dstIp ∧ ∀ s, routeLookup (table.calls cs) dstIp = some s →
          prefixLen s.netmask ≤ prefixLen r.netmask) ∧
      updated.entries r.network r.netmask ≤
        max 1 ((table.calls cs).entries r.network r.netmask) := by
  have hproper := htable.calls hcs
  refine ⟨fun dstIp hdst => hproper.longestPrefix hdst, (table.calls cs).inOrder_call, ?_⟩
  intro r hr updated
  refine ⟨fun dstIp hdst hchanged => ⟨?_, fun s hs => ?_⟩,
    (table.calls cs).entries_updateOrInsertRoute _ _ _ _⟩
  · by_contra hcover
    rw [covers_iff hr hdst] at hcover
    exact hchanged (RoutingTable.routeLookup_updateOrInsertRoute_of_ne hcover)
  · by_contra hlonger
    rw [routeLookup_eq_firstBest] at hs
    have hmem : s ∈ (table.calls cs).routes := mem_of_firstBest hs
    rw [prefixLen_le_iff (hproper s hmem).contiguous hr.contiguous, Nat.not_le] at hlonger
    rw [← routeLookup_eq_firstBest] at hs
    exact hchanged ((RoutingTable.routeLookup_updateOrInsertRoute_of_lt hs hlonger).trans hs.symm)

def threeCalls : List RouteCall :=
  [.registerRoute 0 0x7f000001 0xffffffff 0, .updateOrInsertRoute 1 0x0a000000 0xff000000 0,
    .fullyUpdateRoute 1 0x0a000000 0xff000000 0x0a010000 0xffff0000 0x0a010001]

theorem routing_table_laws_three :
    LongestPrefix (RoutingTable.calls ⟨[], fun _ => ⟨[], 0⟩⟩ threeCalls).routes 0x0a010203
      (some ⟨0x0a010000, 0xffff0000, 0x0a010001, 1⟩) := by
  have hcalls : ∀ c ∈ threeCalls, c.Proper := by
    intro c hc
    simp only [threeCalls, List.mem_cons, List.not_mem_nil, or_false] at hc
    rcases hc with rfl | rfl | rfl
    · exact ⟨⟨32, by decide, by decide⟩, by decide⟩
    · exact ⟨⟨8, by decide, by decide⟩, by decide⟩
    · exact ⟨⟨16, by decide, by decide⟩, by decide⟩
  exact (routing_table_laws ⟨[], fun _ => ⟨[], 0⟩⟩ threeCalls (fun r hr => nomatch hr) hcalls).1
    0x0a010203 (by decide)

end BrickOS.Networking
