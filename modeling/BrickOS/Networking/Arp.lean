import BrickOS.Lib.Run
import BrickOS.Networking.Receive

/-! The MAC caches of the interfaces. A section is what a thread does under one hold of a cache's
lock, or of the routing table's; a call is the list of its sections, and other threads' sections
may come between them. -/
namespace BrickOS.Networking
open BrickOS.Lib

def arpCacheTimeout : ℕ := 30

def arpCacheDontTimeout : ℕ := 0xffff

structure ArpMacCache where
  node : ℕ
  ipAddr : ℕ
  timeout : ℕ
  mac : List UInt8
deriving DecidableEq, Repr

/-- The routing table and the list behind each interface's `arp_cache_head`. -/
structure NetStack where
  table : RoutingTable
  arpCache : ℕ → List ArpMacCache
  nextNode : ℕ

def ArpMacCache.decrement (e : ArpMacCache) : Option ArpMacCache :=
  let timeout := if 0 < e.timeout ∧ e.timeout ≠ arpCacheDontTimeout then e.timeout - 1
    else e.timeout
  if timeout = 0 then none else some { e with timeout := timeout }

namespace NetStack

def setCache (s : NetStack) (iface : ℕ) (cache : List ArpMacCache) : NetStack :=
  { s with arpCache := Function.update s.arpCache iface cache }

def setTable (s : NetStack) (table : RoutingTable) : NetStack := { s with table := table }

def appendEntry (s : NetStack) (iface ipAddr timeout : ℕ) (mac : List UInt8) : NetStack :=
  { s.setCache iface (s.arpCache iface ++ [⟨s.nextNode, ipAddr, timeout, mac⟩]) with
    nextNode := s.nextNode + 1 }

def decrementAndCleanupArpCache (s : NetStack) (iface : ℕ) : NetStack :=
  s.setCache iface ((s.arpCache iface).filterMap ArpMacCache.decrement)

def arpCacheMac (s : NetStack) (srcMac : List UInt8) (srcIp : ℕ) : NetStack :=
  match routeLookup s.table srcIp with
  | none => s
  | some route => s.appendEntry route.iface srcIp arpCacheTimeout srcMac

def arpCacheMacPermanentToIface (s : NetStack) (iface ipAddr : ℕ) (mac : List UInt8) : NetStack :=
  s.appendEntry iface ipAddr arpCacheDontTimeout mac

def arpUncacheMacFromIface (s : NetStack) (iface ipAddr : ℕ) : NetStack :=
  s.setCache iface (Keyed.remove ArpMacCache.ipAddr (s.arpCache iface) ipAddr)

def arpCacheContainsIpLocked (s : NetStack) (iface ipAddr : ℕ) : Option ArpMacCache :=
  Keyed.lookup ArpMacCache.ipAddr (s.arpCache iface) ipAddr

def arpCacheContainsIp (s : NetStack) (ipAddr : ℕ) : Option ArpMacCache :=
  (routeLookup s.table ipAddr).bind fun route => s.arpCacheContainsIpLocked route.iface ipAddr

/-- The first section of `arp_lookup`, with the address it copies out when there is an entry.
Otherwise the request is sent and the loop that waits for the answer only reads the cache. -/
def arpLookup (s : NetStack) (ipAddr : ℕ) : NetStack × Option (List UInt8) :=
  match routeLookup s.table ipAddr with
  | none => (s, none)
  | some route =>
    (s.setCache route.iface (Keyed.modify ArpMacCache.ipAddr (s.arpCache route.iface) ipAddr
        fun e => { e with timeout := arpCacheTimeout }),
      (s.arpCacheContainsIpLocked route.iface ipAddr).map ArpMacCache.mac)

def host (s : NetStack) : Host where
  table := s.table
  arpCacheContainsIp := fun ipAddr => (s.arpCacheContainsIp ipAddr).isSome
  icmpSockets := false
  rawIpSockets := false

/-- What a received packet makes of the caches; a response only leaves the machine. -/
def handleEvent (s : NetStack) : NetEvent → NetStack
  | .arpCacheMac srcMac srcIp => s.arpCacheMac srcMac srcIp
  | _ => s

def arpHandlePacket (s : NetStack) (data : List UInt8) (writeOff : ℕ) : Option NetStack :=
  match Networking.arpHandlePacket s.host data writeOff with
  | .ok events => some (events.foldl handleEvent s)
  | .error _ => none

def writeHeadIp (s : NetStack) (iface ipAddr : ℕ) : Option NetStack :=
  match s.arpCache iface with
  | [] => none
  | e :: rest => some (s.setCache iface ({ e with ipAddr := ipAddr } :: rest))

end NetStack

inductive NetSection where
  | arpLookup (ipAddr : ℕ)
  | arpCacheMac (srcMac : List UInt8) (srcIp : ℕ)
  | arpHandlePacket (data : List UInt8) (writeOff : ℕ)
  | decrementAndCleanupArpCache (iface : ℕ)
  | arpCacheMacPermanentToIface (iface ipAddr : ℕ) (mac : List UInt8)
  | arpUncacheMacFromIface (iface ipAddr : ℕ)
  | registerRoute (iface network netmask gateway : ℕ)
  | updateOrInsertRoute (iface network netmask gateway : ℕ)
  | fullyUpdateRoute (iface oldNetwork oldNetmask newNetwork newNetmask newGateway : ℕ)
  | setIpAddr (iface ipAddr : ℕ)
  | writeHeadIp (iface ipAddr : ℕ)
deriving DecidableEq, Repr

namespace NetStack

def step (s : NetStack) : NetSection → Option NetStack
  | .arpLookup ipAddr => some (s.arpLookup ipAddr).1
  | .arpCacheMac srcMac srcIp => some (s.arpCacheMac srcMac srcIp)
  | .arpHandlePacket data writeOff => s.arpHandlePacket data writeOff
  | .decrementAndCleanupArpCache iface => some (s.decrementAndCleanupArpCache iface)
  | .arpCacheMacPermanentToIface iface ipAddr mac =>
    some (s.arpCacheMacPermanentToIface iface ipAddr mac)
  | .arpUncacheMacFromIface iface ipAddr => some (s.arpUncacheMacFromIface iface ipAddr)
  | .registerRoute iface network netmask gateway =>
    some (s.setTable (s.table.registerRoute iface network netmask gateway))
  | .updateOrInsertRoute iface network netmask gateway =>
    some (s.setTable (s.table.updateOrInsertRoute iface network netmask gateway))
  | .fullyUpdateRoute iface oldNetwork oldNetmask newNetwork newNetmask newGateway =>
    some (s.setTable (s.table.fullyUpdateRoute iface oldNetwork oldNetmask newNetwork newNetmask
      newGateway))
  | .setIpAddr iface ipAddr => some (s.setTable (s.table.setIpAddr iface ipAddr))
  | .writeHeadIp iface ipAddr => s.writeHeadIp iface ipAddr

/-- `arp_timer_callback`: every interface that has a route, once. -/
def arpTimerCallback (s : NetStack) : List NetSection :=
  (s.table.routes.foldl (fun seen route =>
    if route.iface ∈ seen then seen else seen ++ [route.iface]) []).map
      .decrementAndCleanupArpCache

def dhcpConfigureLoopback (s : NetStack) (ipAddr : ℕ) : List NetSection :=
  match s.table.getLoopbackIface with
  | none => []
  | some lo =>
    [.setIpAddr lo ipAddr, .registerRoute lo ipAddr 0xffffffff 0, .writeHeadIp lo ipAddr,
      .arpCacheMacPermanentToIface lo ipAddr (s.table.ifaces lo).macAddr]

def dhcpCleanLoopback (s : NetStack) (oldIp : ℕ) : List NetSection :=
  match s.table.getLoopbackIface with
  | none => []
  | some lo => [.arpUncacheMacFromIface lo oldIp]

end NetStack

def lo : ℕ := 0

def eth0 : ℕ := 1

def setupNetworkDriver (macAddr : List UInt8) (ipAddr : ℕ → ℕ) : NetStack :=
  let s : NetStack := ⟨⟨[], fun iface => ⟨macAddr, ipAddr iface⟩⟩, fun _ => [], 0⟩
  let s := s.setTable (s.table.registerRoute lo loopbackAddr 0xffffffff 0)
  let s := s.arpCacheMacPermanentToIface lo loopbackAddr macAddr
  let s := s.setTable (s.table.registerRoute eth0 ipBroadcastAddress 0xffffffff 0)
  s.arpCacheMacPermanentToIface eth0 ipBroadcastAddress (List.replicate 6 0xff)

def Undisturbed (iface : ℕ) (entry : ArpMacCache) (s : NetStack) : NetSection → Prop
  | .arpLookup ipAddr =>
    ∀ route ∈ routeLookup s.table ipAddr, route.iface = iface →
      ∀ e ∈ s.arpCacheContainsIpLocked iface ipAddr, e.node ≠ entry.node
  | .writeHeadIp i ipAddr =>
    i = iface → ∀ e ∈ (s.arpCache iface).head?, e.node = entry.node → ipAddr = entry.ipAddr
  | .arpUncacheMacFromIface i ipAddr => ¬ (i = iface ∧ ipAddr = entry.ipAddr)
  | _ => True

instance (iface : ℕ) (entry : ArpMacCache) (s : NetStack) (a : NetSection) :
    Decidable (Undisturbed iface entry s a) :=
  match a with
  | .arpLookup ipAddr => inferInstanceAs (Decidable (∀ route ∈ routeLookup s.table ipAddr,
      route.iface = iface →
        ∀ e ∈ s.arpCacheContainsIpLocked iface ipAddr, e.node ≠ entry.node))
  | .writeHeadIp i ipAddr => inferInstanceAs (Decidable (i = iface →
      ∀ e ∈ (s.arpCache iface).head?, e.node = entry.node → ipAddr = entry.ipAddr))
  | .arpUncacheMacFromIface i ipAddr =>
    inferInstanceAs (Decidable (¬ (i = iface ∧ ipAddr = entry.ipAddr)))
  | .arpCacheMac _ _ | .arpHandlePacket _ _ | .decrementAndCleanupArpCache _
  | .arpCacheMacPermanentToIface _ _ _ | .registerRoute _ _ _ _ | .updateOrInsertRoute _ _ _ _
  | .fullyUpdateRoute _ _ _ _ _ _ | .setIpAddr _ _ => inferInstanceAs (Decidable True)

section
variable {s t : NetStack} {iface : ℕ} {entry : ArpMacCache}

theorem mem_setCache {i : ℕ} {cache : List ArpMacCache} (h : entry ∈ s.arpCache iface)
    (hcache : i = iface → entry ∈ cache) : entry ∈ (s.setCache i cache).arpCache iface := by
  by_cases hi : iface = i
  · subst hi
    simpa [NetStack.setCache] using hcache rfl
  · simpa [NetStack.setCache, Function.update_of_ne hi] using h

theorem mem_appendEntry (i ipAddr timeout : ℕ) (mac : List UInt8)
    (h : entry ∈ s.arpCache iface) :
    entry ∈ (s.appendEntry i ipAddr timeout mac).arpCache iface := by
  refine mem_setCache h fun hi => ?_
  exact List.mem_append_left _ (hi ▸ h)

theorem mem_arpCacheMac (srcMac : List UInt8) (srcIp : ℕ) (h : entry ∈ s.arpCache iface) :
    entry ∈ (s.arpCacheMac srcMac srcIp).arpCache iface := by
  unfold NetStack.arpCacheMac
  cases routeLookup s.table srcIp with
  | none => exact h
  | some route => exact mem_appendEntry _ _ _ _ h

theorem mem_handleEvents (events : List NetEvent) (h : entry ∈ s.arpCache iface) :
    entry ∈ (events.foldl NetStack.handleEvent s).arpCache iface := by
  induction events generalizing s with
  | nil => exact h
  | cons event events ih =>
    refine ih ?_
    cases event with
    | arpCacheMac srcMac srcIp => exact mem_arpCacheMac srcMac srcIp h
    | _ => exact h

theorem mem_decrementAndCleanup (i : ℕ) (hperm : entry.timeout = arpCacheDontTimeout)
    (h : entry ∈ s.arpCache iface) :
    entry ∈ (s.decrementAndCleanupArpCache i).arpCache iface := by
  refine mem_setCache h fun hi => ?_
  have hkept : entry.decrement = some entry := by
    cases entry
    simp_all [ArpMacCache.decrement, arpCacheDontTimeout]
  exact List.mem_filterMap.mpr ⟨entry, hi ▸ h, hkept⟩

theorem mem_arpLookup (ipAddr : ℕ) (h : entry ∈ s.arpCache iface)
    (hu : Undisturbed iface entry s (.arpLookup ipAddr)) :
    entry ∈ (s.arpLookup ipAddr).1.arpCache iface := by
  unfold NetStack.arpLookup
  unfold Undisturbed at hu
  cases hroute : routeLookup s.table ipAddr with
  | none => exact h
  | some route =>
    refine mem_setCache h fun hi => ?_
    subst hi
    refine Keyed.mem_modify_of_mem h fun hfound => ?_
    exact hu route hroute rfl entry hfound rfl

theorem mem_writeHeadIp {i ipAddr : ℕ} (h : entry ∈ s.arpCache iface)
    (hu : Undisturbed iface entry s (.writeHeadIp i ipAddr))
    (hs : s.writeHeadIp i ipAddr = some t) : entry ∈ t.arpCache iface := by
  unfold NetStack.writeHeadIp at hs
  split at hs
  · cases hs
  · next e rest hcache =>
    cases hs
    refine mem_setCache h fun hi => ?_
    subst hi
    rw [hcache] at h
    obtain rfl | hrest := List.mem_cons.mp h
    · -- the head is written with the address it has
      have hsame : ipAddr = entry.ipAddr := hu rfl entry (by simp [hcache]) rfl
      rw [hsame]
      exact List.mem_cons_self
    · exact List.mem_cons_of_mem _ hrest

theorem step_mem {a : NetSection} (hperm : entry.timeout = arpCacheDontTimeout)
    (hu : Undisturbed iface entry s a) (hs : s.step a = some t) (h : entry ∈ s.arpCache iface) :
    entry ∈ t.arpCache iface := by
  cases a with
  | arpLookup ipAddr =>
    cases hs
    exact mem_arpLookup ipAddr h hu
  | arpCacheMac srcMac srcIp =>
    cases hs
    exact mem_arpCacheMac srcMac srcIp h
  | arpHandlePacket data writeOff =>
    simp only [NetStack.step, NetStack.arpHandlePacket] at hs
    split at hs
    · cases hs
      exact mem_handleEvents _ h
    · cases hs
  | decrementAndCleanupArpCache i =>
    cases hs
    exact mem_decrementAndCleanup i hperm h
  | arpCacheMacPermanentToIface i ipAddr mac =>
    cases hs
    exact mem_appendEntry _ _ _ _ h
  | arpUncacheMacFromIface i ipAddr =>
    cases hs
    refine mem_setCache h fun hi => ?_
    exact Keyed.mem_remove_of_ne (fun hip => hu ⟨hi, hip.symm⟩) (hi ▸ h)
  | writeHeadIp i ipAddr => exact mem_writeHeadIp h hu hs
  | _ =>
    cases hs
    exact h

end

/-- A permanent entry stays as it was inserted along every run of sections that does not disturb
it. -/
theorem permanent_entry_stays (s : NetStack) (iface ipAddr : ℕ) (mac : List UInt8)
    (sections : List NetSection) (t : NetStack)
    (hkept : Along NetStack.step
      (Undisturbed iface ⟨s.nextNode, ipAddr, arpCacheDontTimeout, mac⟩)
      (s.arpCacheMacPermanentToIface iface ipAddr mac) sections)
    (hrun : run NetStack.step (s.arpCacheMacPermanentToIface iface ipAddr mac) sections = some t) :
    ⟨s.nextNode, ipAddr, arpCacheDontTimeout, mac⟩ ∈ t.arpCache iface := by
  refine run_invariant (fun u a v hu hs h => step_mem rfl hu hs h) hkept hrun ?_
  simp [NetStack.arpCacheMacPermanentToIface, NetStack.appendEntry, NetStack.setCache]

def bareStack : NetStack := setupNetworkDriver [2, 0, 0, 0, 0, 1] fun _ => 0

/-- A second of the clock, a lookup of another address and a new entry leave it alone. -/
theorem permanent_entry_stays_gateway :
    ∃ t, run NetStack.step
        (bareStack.arpCacheMacPermanentToIface eth0 0x0a000202 [2, 0, 0, 0, 0, 2])
        (bareStack.arpTimerCallback ++
          [.arpLookup loopbackAddr, .arpCacheMac [2, 0, 0, 0, 0, 3] loopbackAddr]) = some t ∧
      ⟨2, 0x0a000202, arpCacheDontTimeout, [2, 0, 0, 0, 0, 2]⟩ ∈ t.arpCache eth0 := by
  obtain ⟨t, ht⟩ := Option.isSome_iff_exists.mp (by decide :
    (run NetStack.step
      (bareStack.arpCacheMacPermanentToIface eth0 0x0a000202 [2, 0, 0, 0, 0, 2])
      (bareStack.arpTimerCallback ++
        [.arpLookup loopbackAddr, .arpCacheMac [2, 0, 0, 0, 0, 3] loopbackAddr])).isSome)
  exact ⟨t, ht, permanent_entry_stays bareStack eth0 _ _ _ t (by decide) ht⟩

/-- The loopback entry is gone 30 seconds after it was looked up, and configuring the loopback
interface gives it another address. -/
theorem permanent_entries_lost :
    bareStack.arpCache lo = [⟨0, loopbackAddr, arpCacheDontTimeout, [2, 0, 0, 0, 0, 1]⟩] ∧
      (run NetStack.step bareStack
          (.arpLookup loopbackAddr :: (List.replicate 30 bareStack.arpTimerCallback).flatten)).map
        (fun t => t.arpCache lo) = some [] ∧
      (run NetStack.step bareStack (bareStack.dhcpConfigureLoopback 0x0a00020f)).map
        (fun t => (t.arpCache lo).map ArpMacCache.ipAddr) = some [0x0a00020f, 0x0a00020f] := by
  decide +kernel

end BrickOS.Networking
