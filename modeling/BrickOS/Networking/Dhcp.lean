import BrickOS.Networking.Arp
import BrickOS.Processes.TimerCallbacks

/-! The DHCP client: how an address is obtained, kept and obtained again. The renewal callback
runs as kernel work on any number of workers. A run of it stops wherever it waits for an answer;
ticks and other work may come in between. -/
namespace BrickOS.Networking
open BrickOS.Lib BrickOS.Processes

inductive DhcpState
  | init
  | selecting
  | requesting
  | bound
  | renewing
  | rebinding
deriving DecidableEq, Repr

/-- `dhcp_option_info_t`, without the name servers. -/
structure DhcpOptionInfo where
  ipAddr : ℕ
  serverIpAddr : ℕ
  subnetMask : ℕ
  routerAddr : ℕ
  leaseTime : ℕ
deriving DecidableEq, Repr

structure DhcpReply extends DhcpOptionInfo where
  ipAddr_lt : ipAddr < 2 ^ 32 := by decide
  serverIpAddr_lt : serverIpAddr < 2 ^ 32 := by decide
  subnetMask_lt : subnetMask < 2 ^ 32 := by decide
  routerAddr_lt : routerAddr < 2 ^ 32 := by decide
  leaseTime_lt : leaseTime < 2 ^ 32 := by decide
deriving DecidableEq, Repr

def DhcpOptionInfo.acknowledge (info ack : DhcpOptionInfo) : DhcpOptionInfo :=
  { info with ipAddr := ack.ipAddr, leaseTime := ack.leaseTime }

structure DhcpClient where
  state : DhcpState
  serverAddr : ℕ
  routerAddr : ℕ
  subnetMask : ℕ
  leaseEnd : ℕ
  renewalTimestamp : ℕ
  rebindTimestamp : ℕ
deriving DecidableEq, Repr

inductive KernelWork
  | ipv4TimerCallback
  | arpTimerCallback
  | dhcpLeaseRenewer
deriving DecidableEq, Repr

/-- Where a worker stands in `dhcp_lease_renewer`: not in it, or waiting for an answer with the
interfaces behind this one still to be looked at. -/
inductive RenewerPhase
  | idle
  /-- The lease has ended and a new one was asked for; `old` is `old_info`. -/
  | awaitingOffer (iface : ℕ) (old : DhcpOptionInfo) (rest : List ℕ)
  /-- The offer `info` was requested. -/
  | awaitingNewAck (iface : ℕ) (info : DhcpOptionInfo) (rest : List ℕ)
  /-- The lease in `info` was requested again, from every server or from the one that gave it. -/
  | awaitingAck (iface : ℕ) (info : DhcpOptionInfo) (broadcast : Bool) (rest : List ℕ)
deriving DecidableEq, Repr

structure Lease where
  info : DhcpReply
  acceptedAt : ℕ
deriving DecidableEq, Repr

/-- What the client reads and writes. `granted` is the last acknowledgement that was accepted for
each interface, which the kernel does not keep. -/
structure DhcpHost where
  net : NetStack
  client : ℕ → DhcpClient
  dhcpIfacesVec : List ℕ
  ticks : ℕ
  timers : List (TimerCallback KernelWork)
  work : List KernelWork
  phase : ℕ → RenewerPhase
  granted : ℕ → Option Lease

namespace DhcpHost

def runNet (s : DhcpHost) (sections : List NetSection) : Option DhcpHost :=
  (run NetStack.step s.net sections).map fun net => { s with net := net }

def setClient (s : DhcpHost) (iface : ℕ) (client : DhcpClient) : DhcpHost :=
  { s with client := Function.update s.client iface client }

def setState (s : DhcpHost) (iface : ℕ) (state : DhcpState) : DhcpHost :=
  s.setClient iface { s.client iface with state := state }

def setPhase (s : DhcpHost) (worker : ℕ) (phase : RenewerPhase) : DhcpHost :=
  { s with phase := Function.update s.phase worker phase }

def setTable (s : DhcpHost) (table : RoutingTable) : DhcpHost :=
  { s with net := s.net.setTable table }

def grant (s : DhcpHost) (iface : ℕ) (ack : DhcpReply) : DhcpHost :=
  { s with granted := Function.update s.granted iface (some ⟨ack, s.ticks⟩) }

def registerRenewer (s : DhcpHost) (periodMs : ℕ) : DhcpHost :=
  { s with timers := registerTimerCallback s.timers .dhcpLeaseRenewer periodMs }

def renewerPeriodMs (leaseTime : ℕ) : ℕ := leaseTime * 1000 % 2 ^ 32 / 2

def dhcpConfigureIface (s : DhcpHost) (iface : ℕ) (info : DhcpOptionInfo) : DhcpHost :=
  (s.setTable (s.net.table.setIpAddr iface info.ipAddr)).setClient iface
    { state := .bound
      serverAddr := info.serverIpAddr
      routerAddr := info.routerAddr
      subnetMask := info.subnetMask
      leaseEnd := s.ticks + secsToTicks info.leaseTime
      renewalTimestamp := s.ticks + secsToTicks (info.leaseTime / 2)
      rebindTimestamp := s.ticks + secsToTicks (info.leaseTime * 7 % 2 ^ 32 / 8) }

def registerOffer (s : DhcpHost) (iface : ℕ) (offer : DhcpReply) : DhcpHost :=
  let s := s.setTable (s.net.table.registerRoute iface
    (offer.routerAddr &&& offer.subnetMask) offer.subnetMask 0)
  let s := s.setTable (s.net.table.registerRoute iface 0 0 offer.routerAddr)
  s.setState iface .requesting

def acceptLease (s : DhcpHost) (iface : ℕ) (offer ack : DhcpReply) : DhcpHost :=
  let s := (s.grant iface ack).dhcpConfigureIface iface (offer.acknowledge ack.toDhcpOptionInfo)
  { s with dhcpIfacesVec := s.dhcpIfacesVec ++ [iface] }

/-- `dhcp_configure_ip`, with the fate of its messages: whether they were sent, and the answers
that were accepted. The result says whether it got to the end. -/
def dhcpConfigureIp (s : DhcpHost) (discoverSent : Bool) (offer : Option DhcpReply)
    (requestSent : Bool) (ack : Option DhcpReply) : Option (DhcpHost × Bool) :=
  let s := { s with dhcpIfacesVec := [] }
  match routeLookup s.net.table ipBroadcastAddress with
  | none => some (s, false)
  | some route =>
    let s := s.setState route.iface .selecting
    match (if discoverSent then offer else none) with
    | none => some (s, false)
    | some offer =>
      let s := s.registerOffer route.iface offer
      match (if requestSent then ack else none) with
      | none => some (s, false)
      | some ack =>
        let s := s.acceptLease route.iface offer ack
        (s.runNet (s.net.dhcpConfigureLoopback ack.ipAddr)).map fun s =>
          (s.registerRenewer (renewerPeriodMs ack.leaseTime), true)

/-- `old_info`; its lease time is not set. -/
def oldInfo (s : DhcpHost) (iface : ℕ) : DhcpOptionInfo where
  ipAddr := (s.net.table.ifaces iface).ipAddr
  serverIpAddr := (s.client iface).serverAddr
  subnetMask := (s.client iface).subnetMask
  routerAddr := (s.client iface).routerAddr
  leaseTime := 0

/-- The loop of `dhcp_lease_renewer` from an interface on, until it waits for an answer. `sent`
tells for which interfaces the message can be sent. -/
def renewLoop (worker : ℕ) (sent : ℕ → Bool) : List ℕ → DhcpHost → Option DhcpHost
  | [], s => some (s.setPhase worker .idle)
  | iface :: rest, s =>
    let client := s.client iface
    let old := s.oldInfo iface
    if ¬ (client.state = .bound ∧ client.renewalTimestamp ≤ s.ticks) then
      renewLoop worker sent rest s
    else if client.leaseEnd ≤ s.ticks then
      (s.runNet (s.net.dhcpCleanLoopback old.ipAddr)).bind fun s =>
        let s := s.setState iface .selecting
        if sent iface then some (s.setPhase worker (.awaitingOffer iface old rest))
        else renewLoop worker sent rest s
    else
      let s := s.setState iface .rebinding
      if sent iface then
        some (s.setPhase worker
          (.awaitingAck iface old (decide (client.rebindTimestamp ≤ s.ticks)) rest))
      else renewLoop worker sent rest (s.registerRenewer (30 * 1000))

def takeOffer (s : DhcpHost) (worker iface : ℕ) (old : DhcpOptionInfo) (rest : List ℕ)
    (answer : Option DhcpReply) (sent : ℕ → Bool) : Option DhcpHost :=
  match answer with
  | none => renewLoop worker sent rest s
  | some offer =>
    let s := s.setTable (s.net.table.fullyUpdateRoute iface
      (old.routerAddr &&& old.subnetMask) old.subnetMask
      (offer.routerAddr &&& offer.subnetMask) offer.subnetMask 0)
    let s := s.setTable (s.net.table.updateOrInsertRoute iface 0 0 offer.routerAddr)
    let s := s.setState iface .requesting
    if sent iface then
      some (s.setPhase worker (.awaitingNewAck iface offer.toDhcpOptionInfo rest))
    else renewLoop worker sent rest s

/-- The loop goes on after the acknowledgement of a new lease: `dhcp_configure_iface` is not
called. -/
def takeNewAck (s : DhcpHost) (worker iface : ℕ) (info : DhcpOptionInfo) (rest : List ℕ)
    (answer : Option DhcpReply) (sent : ℕ → Bool) : Option DhcpHost :=
  match answer with
  | none => renewLoop worker sent rest s
  | some ack =>
    let info := info.acknowledge ack.toDhcpOptionInfo
    let s := (s.grant iface ack).setState iface .bound
    (s.runNet (s.net.dhcpConfigureLoopback info.ipAddr)).bind fun s =>
      renewLoop worker sent rest (s.registerRenewer (renewerPeriodMs info.leaseTime))

def takeAck (s : DhcpHost) (worker iface : ℕ) (info : DhcpOptionInfo) (rest : List ℕ)
    (answer : Option DhcpReply) (sent : ℕ → Bool) : Option DhcpHost :=
  match answer with
  | none => renewLoop worker sent rest (s.registerRenewer (30 * 1000))
  | some ack =>
    let info := info.acknowledge ack.toDhcpOptionInfo
    let s := ((s.grant iface ack).setState iface .bound).dhcpConfigureIface iface info
    renewLoop worker sent rest (s.registerRenewer (renewerPeriodMs info.leaseTime))

def tick (s : DhcpHost) : DhcpHost :=
  { s with
    ticks := s.ticks + 1
    timers := (handleTimerCallbacks s.timers).1
    work := s.work ++ (handleTimerCallbacks s.timers).2 }

def takeWork (s : DhcpHost) (worker : ℕ) (sent : ℕ → Bool) : Option DhcpHost :=
  match s.work with
  | [] => none
  | .ipv4TimerCallback :: work => some { s with work := work }
  | .arpTimerCallback :: work => runNet { s with work := work } s.net.arpTimerCallback
  | .dhcpLeaseRenewer :: work =>
    renewLoop worker sent s.dhcpIfacesVec
      { s with work := work, timers := unregisterTimerCallback s.timers .dhcpLeaseRenewer }

end DhcpHost

def NetSection.isArp : NetSection → Bool
  | .arpLookup _ | .arpCacheMac _ _ | .arpHandlePacket _ _ | .decrementAndCleanupArpCache _ => true
  | _ => false

/-- What happens to the client. An answer is `none` when nothing acceptable came: a negative
acknowledgement, another message or another transaction. -/
inductive DhcpAction where
  | tick
  | takeWork (worker : ℕ) (sent : ℕ → Bool)
  | answer (worker : ℕ) (reply : Option DhcpReply) (sent : ℕ → Bool)
  | arp (a : NetSection)

namespace DhcpHost

def step (s : DhcpHost) : DhcpAction → Option DhcpHost
  | .tick => some s.tick
  | .takeWork worker sent => if s.phase worker = .idle then s.takeWork worker sent else none
  | .answer worker reply sent =>
    match s.phase worker with
    | .idle => none
    | .awaitingOffer iface old rest => s.takeOffer worker iface old rest reply sent
    | .awaitingNewAck iface info rest => s.takeNewAck worker iface info rest reply sent
    | .awaitingAck iface info _ rest => s.takeAck worker iface info rest reply sent
  | .arp a => if a.isArp then s.runNet [a] else none

structure Booted (s : DhcpHost) : Prop where
  routes : s.net.table.routes =
    [⟨loopbackAddr, 0xffffffff, 0, lo⟩, ⟨ipBroadcastAddress, 0xffffffff, 0, eth0⟩]
  timers : registrations s.timers .dhcpLeaseRenewer = []
  work : KernelWork.dhcpLeaseRenewer ∉ s.work
  idle : ∀ worker, s.phase worker = .idle

end DhcpHost

theorem table_handleEvents (events : List NetEvent) (s : NetStack) :
    (events.foldl NetStack.handleEvent s).table = s.table := by
  induction events generalizing s with
  | nil => rfl
  | cons event events ih =>
    rw [List.foldl_cons, ih]
    cases event with
    | arpCacheMac srcMac srcIp =>
      simp only [NetStack.handleEvent, NetStack.arpCacheMac]
      split <;> rfl
    | _ => rfl

theorem table_of_isArp {s t : NetStack} {a : NetSection} (ha : a.isArp)
    (hs : s.step a = some t) : t.table = s.table := by
  cases a with
  | arpLookup ipAddr =>
    cases hs
    simp only [NetStack.arpLookup]
    split <;> rfl
  | arpCacheMac srcMac srcIp =>
    cases hs
    simp only [NetStack.arpCacheMac]
    split <;> rfl
  | arpHandlePacket data writeOff =>
    simp only [NetStack.step, NetStack.arpHandlePacket] at hs
    split at hs
    · cases hs
      exact table_handleEvents _ s
    · cases hs
  | decrementAndCleanupArpCache iface =>
    cases hs
    rfl
  | _ => cases ha

theorem table_of_run_isArp {s t : NetStack} {sections : List NetSection}
    (ha : ∀ a ∈ sections, a.isArp) (hs : run NetStack.step s sections = some t) :
    t.table = s.table := by
  induction sections generalizing s with
  | nil =>
    cases hs
    rfl
  | cons a sections ih =>
    obtain ⟨u, hu, hr⟩ := Option.bind_eq_some_iff.mp hs
    rw [ih (fun b hb => ha b (List.mem_cons_of_mem _ hb)) hr]
    exact table_of_isArp (ha a List.mem_cons_self) hu

theorem isArp_of_mem_arpTimerCallback {s : NetStack} {a : NetSection}
    (ha : a ∈ s.arpTimerCallback) : a.isArp := by
  obtain ⟨iface, -, rfl⟩ := List.mem_map.mp ha
  rfl

theorem table_of_dhcpCleanLoopback {s t : NetStack} {oldIp : ℕ}
    (hs : run NetStack.step s (s.dhcpCleanLoopback oldIp) = some t) : t.table = s.table := by
  unfold NetStack.dhcpCleanLoopback at hs
  split at hs
  · cases hs
    rfl
  · cases hs
    rfl

theorem table_of_dhcpConfigureLoopback {s t : NetStack} {ipAddr : ℕ}
    (hs : run NetStack.step s (s.dhcpConfigureLoopback ipAddr) = some t) :
    t.table = (s.table.getLoopbackIface).elim s.table fun lo =>
      (s.table.setIpAddr lo ipAddr).registerRoute lo ipAddr 0xffffffff 0 := by
  unfold NetStack.dhcpConfigureLoopback at hs
  cases hlo : s.table.getLoopbackIface with
  | none =>
    rw [hlo] at hs
    cases hs
    rfl
  | some lo =>
    rw [hlo] at hs
    simp only [run_cons, NetStack.step, Option.bind_some, Option.bind_eq_some_iff, run_nil,
      NetStack.writeHeadIp, NetStack.setTable] at hs
    obtain ⟨u, hu, ht⟩ := hs
    split at hu
    · cases hu
    · cases hu
      cases ht
      rfl

theorem ipAddr_of_dhcpConfigureLoopback {s t : NetStack} {iface ipAddr : ℕ}
    (hs : run NetStack.step s (s.dhcpConfigureLoopback ipAddr) = some t)
    (h : (s.table.ifaces iface).ipAddr = ipAddr) : (t.table.ifaces iface).ipAddr = ipAddr := by
  rw [table_of_dhcpConfigureLoopback hs]
  cases s.table.getLoopbackIface with
  | none => exact h
  | some lo =>
    rw [Option.elim_some, RoutingTable.ifaces_registerRoute]
    by_cases hlo : iface = lo
    · subst hlo
      simp [RoutingTable.setIpAddr]
    · simpa [RoutingTable.setIpAddr, Function.update_of_ne hlo] using h

end BrickOS.Networking
