import BrickOS.Networking.Arp
import BrickOS.Networking.Send

/-! ARP between hosts whose interfaces are all on one Ethernet segment. A frame that was sent stays on
the segment, so that any host can receive it, at any later time, more than once or never. -/
namespace BrickOS.Networking
open BrickOS.Lib

def arpHdrBytes (iface : NetInterface) (opcode : ℕ) (dstMac : List UInt8) (dstIp : ℕ) :
    List UInt8 :=
  bytes16 0x1 ++ bytes16 0x0800 ++ [6, 4] ++ bytes16 opcode ++ iface.macAddr ++
    bytes32 iface.ipAddr ++ dstMac ++ bytes32 dstIp

def arpAddHeader (iface : NetInterface) (data : List UInt8) (writeOff opcode : ℕ)
    (dstMac : Option (List UInt8)) (dstIp : ℕ) : Except Fault Headed := do
  if writeOff < 28 then return .error .dataOverflow
  let hdr := writeOff - 28
  let data ← writeBytes data hdr
    (arpHdrBytes iface opcode (dstMac.getD (List.replicate 6 0)) dstIp)
  return .ok (data, hdr)

/-- What `arp_send_request` and `arp_send_response` share; `heap` is what `kmalloc` hands out. -/
def sendArp (table : RoutingTable) (heap : ℕ → UInt8) (opcode : ℕ) (dstMac : Option (List UInt8))
    (ethDst : List UInt8) (dstIp : ℕ) : Except Fault (Option (List UInt8)) :=
  match routeLookup table dstIp with
  | none => return none
  | some route => do
    let iface := table.ifaces route.iface
    match ← arpAddHeader iface ((List.range 42).map heap) 42 opcode dstMac dstIp with
    | .error _ => return none
    | .ok (data, writeOff) =>
      match ← ethernetAddHeader iface data writeOff ethDst 0x0806 with
      | .error _ => return none
      | .ok (data, _) => return some data

def arpSendRequest (table : RoutingTable) (heap : ℕ → UInt8) (dstIp : ℕ) :
    Except Fault (Option (List UInt8)) :=
  sendArp table heap 0x1 none (List.replicate 6 0xff) dstIp

def arpSendResponse (table : RoutingTable) (heap : ℕ → UInt8) (srcMac : List UInt8) (srcIp : ℕ) :
    Except Fault (Option (List UInt8)) :=
  sendArp table heap 0x2 (some srcMac) srcMac srcIp

structure ArpNetwork where
  hosts : ℕ → NetStack
  frames : List (List UInt8)

/-- A host looks an address up, receives a frame, or lets the entries of an interface age. -/
inductive ArpStep where
  | arpLookup (host : ℕ) (ipAddr : UInt32) (heap : ℕ → UInt8)
  | receive (host : ℕ) (frame : List UInt8) (heap : ℕ → UInt8)
  | cleanup (host iface : ℕ)

namespace ArpNetwork

def setHost (n : ArpNetwork) (host : ℕ) (s : NetStack) : ArpNetwork :=
  { n with hosts := Function.update n.hosts host s }

/-- The frame is sent, if there is one; `none` for a fault. -/
def send (n : ArpNetwork) : Except Fault (Option (List UInt8)) → Option ArpNetwork
  | .ok frame => some { n with frames := n.frames ++ frame.toList }
  | .error _ => none

/-- A host does what a received frame asks for. -/
def perform (heap : ℕ → UInt8) (host : ℕ) (n : ArpNetwork) : NetEvent → Option ArpNetwork
  | .arpSendResponse srcMac srcIp => n.send (arpSendResponse (n.hosts host).table heap srcMac srcIp)
  | event => some (n.setHost host ((n.hosts host).handleEvent event))

def step (n : ArpNetwork) : ArpStep → Option ArpNetwork
  | .arpLookup host ipAddr heap =>
    let r := (n.hosts host).arpLookup ipAddr.toNat
    if r.2.isSome then some (n.setHost host r.1)
    else (n.setHost host r.1).send (arpSendRequest r.1.table heap ipAddr.toNat)
  | .receive host frame heap =>
    if frame ∈ n.frames then
      match ethernetReceive (n.hosts host).host [] frame with
      | .ok r => r.1.foldlM (perform heap host) n
      | .error _ => none
    else none
  | .cleanup host iface => some (n.setHost host ((n.hosts host).decrementAndCleanupArpCache iface))

end ArpNetwork

/-- The addresses have the sizes of their types. -/
structure NetInterface.Sized (iface : NetInterface) : Prop where
  mac : iface.macAddr.length = 6
  ip : iface.ipAddr < 2 ^ 32

/-- A request or a response that the interface sends. -/
structure ArpMessage where
  iface : NetInterface
  opcode : ℕ
  dstMac : List UInt8
  ethDst : List UInt8
  dstIp : ℕ
  iface_sized : iface.Sized
  opcode_eq : opcode = 1 ∨ opcode = 2
  length_dstMac : dstMac.length = 6
  length_ethDst : ethDst.length = 6
  dstIp_lt : dstIp < 2 ^ 32

namespace ArpMessage

def frame (a : ArpMessage) : List UInt8 :=
  a.ethDst ++ a.iface.macAddr ++ bytes16 0x0806 ++ arpHdrBytes a.iface a.opcode a.dstMac a.dstIp

/-- What a host does with the message. -/
def events (a : ArpMessage) (host : Host) : List NetEvent :=
  match routeLookup host.table a.iface.ipAddr with
  | none => []
  | some route =>
    if a.dstIp ≠ (host.table.ifaces route.iface).ipAddr then []
    else if a.opcode = 1 then [.arpSendResponse a.iface.macAddr a.iface.ipAddr]
    else if host.arpCacheContainsIp a.iface.ipAddr then []
    else [.arpCacheMac a.iface.macAddr a.iface.ipAddr]

theorem length_frame (a : ArpMessage) : a.frame.length = 42 := by
  simp [frame, arpHdrBytes, a.iface_sized.mac, a.length_dstMac, a.length_ethDst]

theorem sendArp_eq (a : ArpMessage) {table : RoutingTable} {route : Route}
    (hroute : routeLookup table a.dstIp = some route)
    (hiface : table.ifaces route.iface = a.iface) {dst : Option (List UInt8)}
    (hdst : dst.getD (List.replicate 6 0) = a.dstMac) (heap : ℕ → UInt8) :
    sendArp table heap a.opcode dst a.ethDst a.dstIp = .ok (some a.frame) := by
  obtain ⟨b, c, hbc, hb, hc⟩ := exists_append_of_length
    (show ((List.range 42).map heap).length = 14 + 28 by simp)
  have hlength := a.length_frame
  rw [frame, List.length_append] at hlength
  generalize hhdr : arpHdrBytes a.iface a.opcode a.dstMac a.dstIp = hdr at hlength
  have heth : (a.ethDst ++ a.iface.macAddr ++ bytes16 0x0806).length = 14 := by
    simp [a.length_ethDst, a.iface_sized.mac]
  have harp : writeBytes ((List.range 42).map heap) (42 - 28) hdr = .ok (b ++ hdr) := by
    simpa [hbc] using writeBytes_append (c := []) hb (show c.length = hdr.length by omega)
  have hethHdr : writeBytes (b ++ hdr) (42 - 28 - 14) _ = .ok _ :=
    writeBytes_append (a := []) (c := hdr) rfl (hb.trans heth.symm)
  simp only [sendArp, hroute, hiface, arpAddHeader, hdst, hhdr, harp, ethernetAddHeader, frame]
  rw [if_neg (by decide), ok_bind, pure_bind]
  dsimp only
  rw [if_neg (by decide), hethHdr]
  rfl

theorem exists_mac {l : List UInt8} (h : l.length = 6) : ∃ a b c d e f, l = [a, b, c, d, e, f] :=
  match l, h with
  | [a, b, c, d, e, f], _ => ⟨a, b, c, d, e, f, rfl⟩

theorem arpHandlePacket_frame (a : ArpMessage) (host : Host) :
    arpHandlePacket host a.frame 14 = .ok (a.events host) := by
  obtain ⟨⟨mac, ip⟩, opcode, dstMac, ethDst, dstIp, ⟨hmac, hsrc⟩, hop, hdst, heth, hip⟩ := a
  dsimp only at hmac hsrc
  obtain ⟨m₁, m₂, m₃, m₄, m₅, m₆, rfl⟩ := exists_mac hmac
  obtain ⟨d₁, d₂, d₃, d₄, d₅, d₆, rfl⟩ := exists_mac hdst
  obtain ⟨e₁, e₂, e₃, e₄, e₅, e₆, rfl⟩ := exists_mac heth
  generalize hframe : frame _ = bytes
  have hlen : bytes.length = 42 := by
    rw [← hframe]
    rfl
  have hsrcIp : be32 bytes 28 = ip := by
    rw [← hframe]
    exact (be32_bytes32 ip []).trans (Nat.mod_eq_of_lt hsrc)
  have hdstIp : be32 bytes 38 = dstIp := by
    rw [← hframe]
    exact (be32_bytes32 dstIp []).trans (Nat.mod_eq_of_lt hip)
  have hmac : (bytes.drop 22).take 6 = [m₁, m₂, m₃, m₄, m₅, m₆] := by
    rw [← hframe]
    rfl
  have hfix : be16 bytes 16 = 0x0800 ∧ be16 bytes 14 = 1 ∧ byteAt bytes 18 = 6 ∧
      byteAt bytes 19 = 4 ∧ be16 bytes 20 = opcode := by
    rw [← hframe]
    exact ⟨be16_bytes16 0x0800 [], be16_bytes16 1 [], rfl, rfl,
      (be16_bytes16 opcode []).trans (Nat.mod_eq_of_lt (by omega))⟩
  obtain ⟨hptype, htype, hhlen, hplen, hopcode⟩ := hfix
  simp only [arpHandlePacket]
  rw [if_neg (by omega), readBe16_of_lt (by omega), readBe16_of_lt (by omega),
    readByte_of_lt (by omega), readByte_of_lt (by omega), readBe32_of_lt (by omega),
    readBe32_of_lt (by omega), readBe16_of_lt (by omega), readBytes_of_le (by omega)]
  simp only [ok_bind, hptype, htype, hhlen, hplen, hsrcIp, hdstIp, hopcode, hmac]
  unfold events
  cases routeLookup host.table ip with
  | none => rfl
  | some route =>
    obtain rfl | rfl := hop
    · simp
      split_ifs <;> rfl
    · simp
      split_ifs <;> rfl

theorem ethernetReceive_frame (a : ArpMessage) (host : Host) :
    ethernetReceive host [] a.frame =
      .ok (if packetDesignatedForThisMachine host a.ethDst then a.events host else [], [], none) := by
  have hlen := a.length_frame
  have harp := a.arpHandlePacket_frame host
  have hmac : (a.frame.drop 0).take 6 = a.ethDst := by
    rw [frame, ← a.length_ethDst]
    simp
  have htype : be16 a.frame 12 = 0x0806 := by
    have happ := be16_append_right (a.ethDst ++ a.iface.macAddr)
      (bytes16 0x0806 ++ arpHdrBytes a.iface a.opcode a.dstMac a.dstIp) 0
    rw [be16_bytes16, List.length_append, a.length_ethDst, a.iface_sized.mac] at happ
    simpa [frame] using happ
  rw [ethernetReceive, if_neg (by omega), readBytes_of_le (by omega), readBe16_of_lt (by omega)]
  simp only [ok_bind, hmac, htype, harp]
  cases packetDesignatedForThisMachine host a.ethDst <;> rfl

theorem events_cases (a : ArpMessage) (host : Host) :
    a.events host = [] ∨ a.events host = [.arpSendResponse a.iface.macAddr a.iface.ipAddr] ∨
      a.events host = [.arpCacheMac a.iface.macAddr a.iface.ipAddr] := by
  unfold events
  split
  · exact Or.inl rfl
  · split_ifs <;> simp

end ArpMessage

namespace NetStack

/-- The interface has an entry that gives the MAC address for the IP address. -/
def Knows (s : NetStack) (iface ipAddr : ℕ) (mac : List UInt8) : Prop :=
  ∃ e ∈ s.arpCache iface, e.ipAddr = ipAddr ∧ e.mac = mac

section
variable {s : NetStack} {i iface ip ipAddr : ℕ} {mac : List UInt8}

theorem arpLookup_table (s : NetStack) (ip : ℕ) : (s.arpLookup ip).1.table = s.table := by
  unfold arpLookup
  split <;> rfl

theorem arpCacheMac_table (s : NetStack) (srcMac : List UInt8) (srcIp : ℕ) :
    (s.arpCacheMac srcMac srcIp).table = s.table := by
  unfold arpCacheMac
  split <;> rfl

theorem arpLookup_snd (s : NetStack) (ip : ℕ) :
    (s.arpLookup ip).2 = (s.arpCacheContainsIp ip).map ArpMacCache.mac := by
  unfold arpLookup arpCacheContainsIp
  split <;> simp_all

theorem isSome_arpLookup_arpCacheMac {route : Route} (srcMac : List UInt8)
    (hroute : routeLookup s.table ip = some route) :
    ((s.arpCacheMac srcMac ip).arpLookup ip).2.isSome := by
  rw [arpLookup_snd, arpCacheContainsIp, arpCacheMac_table, arpCacheMac, hroute]
  simp [arpCacheContainsIpLocked, appendEntry, setCache, Keyed.lookup_append]

/-- What is known after a write to a cache is what is known before, or new in that cache. -/
theorem Knows.of_setCache {cache : List ArpMacCache} {Q : Prop}
    (h : (s.setCache i cache).Knows iface ipAddr mac)
    (hcache : ∀ e ∈ cache, (∃ c ∈ s.arpCache i, e.ipAddr = c.ipAddr ∧ e.mac = c.mac) ∨
      (e.ipAddr = ipAddr → e.mac = mac → Q)) : s.Knows iface ipAddr mac ∨ Q := by
  obtain ⟨e, he, hip, hmac⟩ := h
  by_cases hi : iface = i
  · subst hi
    simp only [setCache, Function.update_self] at he
    obtain ⟨c, hc, hcip, hcmac⟩ | hnew := hcache e he
    · exact Or.inl ⟨c, hc, hcip ▸ hip, hcmac ▸ hmac⟩
    · exact Or.inr (hnew hip hmac)
  · simp only [setCache, Function.update_of_ne hi] at he
    exact Or.inl ⟨e, he, hip, hmac⟩

theorem Knows.of_arpLookup (h : (s.arpLookup ip).1.Knows iface ipAddr mac) :
    s.Knows iface ipAddr mac := by
  unfold NetStack.arpLookup at h
  split at h
  · exact h
  · refine (h.of_setCache (Q := False) fun e he => Or.inl ?_).resolve_right id
    obtain he | ⟨c, hc, -, rfl⟩ := Keyed.mem_of_mem_modify he
    · exact ⟨e, he, rfl, rfl⟩
    · exact ⟨c, hc, rfl, rfl⟩

theorem Knows.of_arpLookup_eq_some (h : (s.arpLookup ip).2 = some mac) :
    ∃ iface, s.Knows iface ip mac := by
  rw [arpLookup_snd] at h
  obtain ⟨e, he, rfl⟩ := Option.map_eq_some_iff.mp h
  obtain ⟨route, -, he⟩ := Option.bind_eq_some_iff.mp he
  exact ⟨route.iface, e, Keyed.mem_of_lookup he, Keyed.key_of_lookup he, rfl⟩

theorem Knows.of_arpCacheMac {srcMac : List UInt8}
    (h : (s.arpCacheMac srcMac ip).Knows iface ipAddr mac) :
    s.Knows iface ipAddr mac ∨ ip = ipAddr ∧ srcMac = mac := by
  unfold NetStack.arpCacheMac at h
  split at h
  · exact Or.inl h
  · next route hroute =>
    refine Knows.of_setCache (s := s) (i := route.iface) h fun e he => ?_
    obtain he | he := List.mem_append.mp he
    · exact Or.inl ⟨e, he, rfl, rfl⟩
    · obtain rfl := List.mem_singleton.mp he
      exact Or.inr And.intro

theorem Knows.of_decrementAndCleanup
    (h : (s.decrementAndCleanupArpCache i).Knows iface ipAddr mac) : s.Knows iface ipAddr mac := by
  refine (Knows.of_setCache (Q := False) h fun e he => Or.inl ?_).resolve_right id
  obtain ⟨c, hc, hdec⟩ := List.mem_filterMap.mp he
  unfold ArpMacCache.decrement at hdec
  dsimp only at hdec
  split_ifs at hdec <;> cases hdec <;> exact ⟨c, hc, rfl, rfl⟩

end

end NetStack

namespace ArpNetwork

def Sized (n : ArpNetwork) : Prop := ∀ host iface, ((n.hosts host).table.ifaces iface).Sized

/-- Some host has the interface. -/
def Has (n : ArpNetwork) (iface : NetInterface) : Prop :=
  ∃ host i, (n.hosts host).table.ifaces i = iface

/-- What holds when the hosts have only done ARP: no frame is lost, every frame is a host's message,
and whatever was learned is true. -/
structure Inv (start n : ArpNetwork) : Prop where
  table : ∀ host, (n.hosts host).table = (start.hosts host).table
  kept : ∀ frame ∈ start.frames, frame ∈ n.frames
  sent : ∀ frame ∈ n.frames, ∃ a : ArpMessage, a.frame = frame ∧ start.Has a.iface
  known : ∀ host iface ipAddr mac, (n.hosts host).Knows iface ipAddr mac →
    (start.hosts host).Knows iface ipAddr mac ∨ start.Has ⟨mac, ipAddr⟩

section
variable {start n t : ArpNetwork} {host : ℕ} {heap : ℕ → UInt8}

theorem inv_of_frames (h : start.frames = []) : Inv start start :=
  ⟨fun _ => rfl, fun _ => id, by simp [h], fun _ _ _ _ => Or.inl⟩

theorem Inv.setHost (h : Inv start n) {s : NetStack} (htable : s.table = (n.hosts host).table)
    (hknows : ∀ iface ipAddr mac, s.Knows iface ipAddr mac →
      (n.hosts host).Knows iface ipAddr mac ∨ start.Has ⟨mac, ipAddr⟩) :
    Inv start (n.setHost host s) := by
  refine ⟨fun g => ?_, h.kept, h.sent, fun g iface ipAddr mac hk => ?_⟩
  · obtain rfl | hg := eq_or_ne g host
    · simpa [ArpNetwork.setHost] using htable.trans (h.table g)
    · simpa [ArpNetwork.setHost, hg] using h.table g
  · obtain rfl | hg := eq_or_ne g host
    · have hs := hknows iface ipAddr mac (by simpa [ArpNetwork.setHost] using hk)
      exact hs.elim (h.known g iface ipAddr mac) Or.inr
    · exact h.known g iface ipAddr mac (by simpa [ArpNetwork.setHost, hg] using hk)

theorem Inv.send (h : Inv start n) (hsized : start.Sized) {opcode dstIp : ℕ}
    (dst : Option (List UInt8)) {ethDst : List UInt8}
    (hdst : (dst.getD (List.replicate 6 0)).length = 6) (heth : ethDst.length = 6)
    (hip : dstIp < 2 ^ 32) (hop : opcode = 1 ∨ opcode = 2)
    (hsend : n.send (sendArp (start.hosts host).table heap opcode dst ethDst dstIp) = some t) :
    Inv start t := by
  cases hroute : routeLookup (start.hosts host).table dstIp with
  | none =>
    simp only [sendArp, hroute] at hsend
    obtain rfl : n = t := by simpa [ArpNetwork.send, pure, Except.pure] using hsend
    exact h
  | some route =>
    let a : ArpMessage := ⟨_, opcode, _, ethDst, dstIp, hsized host route.iface, hop, hdst, heth, hip⟩
    rw [a.sendArp_eq hroute rfl rfl heap] at hsend
    obtain rfl := Option.some.inj hsend
    refine ⟨h.table, fun frame hframe => List.mem_append_left _ (h.kept frame hframe),
      fun frame hframe => ?_, h.known⟩
    obtain hframe | hframe := List.mem_append.mp hframe
    · exact h.sent frame hframe
    · obtain rfl := List.mem_singleton.mp hframe
      exact ⟨a, rfl, host, _, rfl⟩

theorem step_receive {a : ArpMessage} (hmem : a.frame ∈ n.frames) :
    n.step (.receive host a.frame heap) =
      if packetDesignatedForThisMachine (n.hosts host).host a.ethDst then
        (a.events (n.hosts host).host).foldlM (perform heap host) n
      else some n := by
  rw [step, if_pos hmem, a.ethernetReceive_frame]
  dsimp only
  split_ifs <;> rfl

theorem Inv.receive (h : Inv start n) (hsized : start.Sized) {a : ArpMessage}
    (ha : start.Has a.iface) (hmem : a.frame ∈ n.frames)
    (hstep : n.step (.receive host a.frame heap) = some t) : Inv start t := by
  rw [step_receive hmem] at hstep
  split_ifs at hstep
  · obtain hevents | hevents | hevents := a.events_cases (n.hosts host).host <;>
      simp only [hevents, List.foldlM_cons, List.foldlM_nil, bind_pure] at hstep
    · exact Option.some.inj hstep ▸ h
    · simp only [perform, arpSendResponse, h.table] at hstep
      exact h.send hsized (some _) a.iface_sized.mac a.iface_sized.mac a.iface_sized.ip
        (Or.inr rfl) hstep
    · obtain rfl := Option.some.inj hstep
      refine h.setHost (NetStack.arpCacheMac_table _ _ _) fun iface ipAddr mac hk => ?_
      refine hk.of_arpCacheMac.imp_right fun ⟨hip, hmac⟩ => ?_
      rwa [← hip, ← hmac]
  · exact Option.some.inj hstep ▸ h

theorem Inv.step (h : Inv start n) (hsized : start.Sized) {a : ArpStep}
    (hstep : n.step a = some t) : Inv start t := by
  cases a with
  | arpLookup host ipAddr heap =>
    have htable := NetStack.arpLookup_table (n.hosts host) ipAddr.toNat
    have hset := h.setHost htable fun iface ip mac hk => Or.inl hk.of_arpLookup
    simp only [ArpNetwork.step] at hstep
    split_ifs at hstep
    · exact Option.some.inj hstep ▸ hset
    · rw [htable, h.table] at hstep
      exact hset.send hsized none rfl List.length_replicate ipAddr.toNat_lt (Or.inl rfl) hstep
  | receive host frame heap =>
    have hmem : frame ∈ n.frames := by
      by_contra hmem
      rw [ArpNetwork.step, if_neg hmem] at hstep
      cases hstep
    obtain ⟨a, rfl, ha⟩ := h.sent frame hmem
    exact h.receive hsized ha hmem hstep
  | cleanup host iface =>
    obtain rfl := Option.some.inj hstep
    exact h.setHost rfl fun _ _ _ hk => Or.inl hk.of_decrementAndCleanup

theorem Inv.run (h : Inv start n) (hsized : start.Sized) {steps : List ArpStep}
    (hrun : run ArpNetwork.step n steps = some t) : Inv start t :=
  run_invariant (fun _ _ _ _ hstep h => h.step hsized hstep) (along_true n steps) hrun h

/-- A frame stays on the segment. -/
theorem Inv.frames_run (h : Inv start n) (hsized : start.Sized) {steps : List ArpStep}
    (hrun : Lib.run ArpNetwork.step n steps = some t) {frame : List UInt8}
    (hframe : frame ∈ n.frames) : frame ∈ t.frames := by
  have hself : Inv n n := by
    refine ⟨fun _ => rfl, fun _ => id, fun frame hframe => ?_, fun _ _ _ _ => Or.inl⟩
    obtain ⟨a, ha, g, i, hi⟩ := h.sent frame hframe
    exact ⟨a, ha, g, i, by rw [h.table, hi]⟩
  exact (hself.run (fun host iface => h.table host ▸ hsized host iface) hrun).kept frame hframe

end

/-- Whatever the hosts look up and in whatever order frames arrive, are lost or arrive again: a
MAC address in a cache that was not there at the start is that of an interface with the IP
address. -/
theorem arp_genuine {start t : ArpNetwork} {steps : List ArpStep} (hframes : start.frames = [])
    (hsized : start.Sized) (hrun : run step start steps = some t) (host iface ipAddr : ℕ)
    (mac : List UInt8) (hknows : (t.hosts host).Knows iface ipAddr mac) :
    (start.hosts host).Knows iface ipAddr mac ∨ start.Has ⟨mac, ipAddr⟩ :=
  ((inv_of_frames hframes).run hsized hrun).known host iface ipAddr mac hknows

/-- The request that a host sends over the interface of its route. -/
def Sized.request {n : ArpNetwork} (h : n.Sized) (host : ℕ) (ipAddr : UInt32) (there : Route) :
    ArpMessage where
  iface := (n.hosts host).table.ifaces there.iface
  opcode := 1
  dstMac := List.replicate 6 0
  ethDst := List.replicate 6 0xff
  dstIp := ipAddr.toNat
  iface_sized := h host there.iface
  opcode_eq := Or.inl rfl
  length_dstMac := List.length_replicate
  length_ethDst := List.length_replicate
  dstIp_lt := ipAddr.toNat_lt

/-- The response to the message over the interface of the route back. -/
def Sized.response {n : ArpNetwork} (h : n.Sized) (host : ℕ) (back : Route) (a : ArpMessage) :
    ArpMessage where
  iface := (n.hosts host).table.ifaces back.iface
  opcode := 2
  dstMac := a.iface.macAddr
  ethDst := a.iface.macAddr
  dstIp := a.iface.ipAddr
  iface_sized := h host back.iface
  opcode_eq := Or.inr rfl
  length_dstMac := a.iface_sized.mac
  length_ethDst := a.iface_sized.mac
  dstIp_lt := a.iface_sized.ip

def segmentRoute : Route := ⟨0x0a000000, 0xffffff00, 0, 0⟩

/-- Host 0 and other hosts, all with one address, in the network of one route. -/
def segment : ArpNetwork where
  hosts host := ⟨⟨[segmentRoute], fun _ =>
    if host = 0 then ⟨[2, 0, 0, 0, 0, 1], 0x0a000001⟩ else ⟨[2, 0, 0, 0, 0, 2], 0x0a000002⟩⟩,
    fun _ => [], 0⟩
  frames := []

theorem segment_sized : segment.Sized := by
  intro host iface
  by_cases h : host = 0 <;> exact ⟨by simp [segment, h], by simp [segment, h]⟩

/-- A lookup, the receipt of the request and that of the response. -/
def exchange : List ArpStep :=
  let request := segment_sized.request 0 0x0a000002 segmentRoute
  [.arpLookup 0 0x0a000002 fun _ => 0, .receive 1 request.frame fun _ => 0,
    .receive 0 (segment_sized.response 1 segmentRoute request).frame fun _ => 0]

theorem arp_genuine_exchange : ∃ t ∈ run step segment exchange,
    (t.hosts 0).Knows 0 0x0a000002 [2, 0, 0, 0, 0, 2] ∧
      ((segment.hosts 0).Knows 0 0x0a000002 [2, 0, 0, 0, 0, 2] ∨
        segment.Has ⟨[2, 0, 0, 0, 0, 2], 0x0a000002⟩) := by
  obtain ⟨t, ht, hknows⟩ : ∃ t ∈ run step segment exchange,
      (t.hosts 0).Knows 0 0x0a000002 [2, 0, 0, 0, 0, 2] := by
    unfold NetStack.Knows
    decide +kernel
  exact ⟨t, ht, hknows, arp_genuine rfl segment_sized ht 0 0 _ _ hknows⟩

/-- Host `h` has a route for the address, over the interface that its card's frames are checked
against, and host `g` has the address on the interface of its route back. -/
structure Neighbours (n : ArpNetwork) (h g ipAddr : ℕ) (there back : Route) : Prop where
  route : routeLookup (n.hosts h).table ipAddr = some there
  first : ((n.hosts h).table.routes.headD ⟨0, 0, 0, 0⟩).iface = there.iface
  routeBack : routeLookup (n.hosts g).table ((n.hosts h).table.ifaces there.iface).ipAddr = some back
  ip : ((n.hosts g).table.ifaces back.iface).ipAddr = ipAddr

section
variable {start n t : ArpNetwork} {h g : ℕ} {ipAddr : UInt32} {there back : Route}
  {heap : ℕ → UInt8} (hsized : start.Sized)

theorem Neighbours.lookup (hn : start.Neighbours h g ipAddr.toNat there back) (hinv : Inv start n)
    (hmiss : ((n.hosts h).arpLookup ipAddr.toNat).2 = none)
    (hstep : n.step (.arpLookup h ipAddr heap) = some t) :
    (hsized.request h ipAddr there).frame ∈ t.frames := by
  simp only [step, hmiss] at hstep
  rw [if_neg (by simp), NetStack.arpLookup_table, hinv.table] at hstep
  have hsend : arpSendRequest (start.hosts h).table heap ipAddr.toNat = _ :=
    (hsized.request h ipAddr there).sendArp_eq hn.route rfl rfl heap
  rw [hsend] at hstep
  obtain rfl := Option.some.inj hstep
  exact List.mem_append_right _ (List.mem_singleton_self _)

theorem Neighbours.request (hn : start.Neighbours h g ipAddr.toNat there back) (hinv : Inv start n)
    {a : ArpMessage} (ha : a = hsized.request h ipAddr there) (hmem : a.frame ∈ n.frames) :
    ∃ t, n.step (.receive g a.frame heap) = some t ∧
      (hsized.response g back a).frame ∈ t.frames := by
  have hevents : a.events (n.hosts g).host =
      [.arpSendResponse a.iface.macAddr a.iface.ipAddr] := by
    simp [ha, ArpMessage.events, Sized.request, NetStack.host, hinv.table, hn.routeBack, hn.ip]
  have hmine : packetDesignatedForThisMachine (n.hosts g).host a.ethDst = true := by
    rw [ha]
    rfl
  have hsend : arpSendResponse (start.hosts g).table heap a.iface.macAddr a.iface.ipAddr = _ :=
    (hsized.response g back a).sendArp_eq (by rw [ha]; exact hn.routeBack) rfl rfl heap
  rw [step_receive hmem, if_pos hmine, hevents]
  simp only [List.foldlM_cons, List.foldlM_nil, bind_pure, perform]
  rw [hinv.table, hsend]
  exact ⟨_, rfl, List.mem_append_right _ (List.mem_singleton_self _)⟩

theorem Neighbours.response (hn : start.Neighbours h g ipAddr.toNat there back) (hinv : Inv start n)
    {a : ArpMessage} (ha : a = hsized.response g back (hsized.request h ipAddr there))
    (hmem : a.frame ∈ n.frames) :
    ∃ t, n.step (.receive h a.frame heap) = some t ∧
      ((t.hosts h).arpLookup ipAddr.toNat).2.isSome := by
  have hmine : packetDesignatedForThisMachine (n.hosts h).host a.ethDst = true := by
    rw [packetDesignatedForThisMachine, NetStack.host, hinv.table, hn.first, ha, Bool.or_eq_true]
    exact Or.inr (beq_self_eq_true _)
  have hevents : a.events (n.hosts h).host =
      if ((n.hosts h).arpCacheContainsIp ipAddr.toNat).isSome then []
      else [.arpCacheMac a.iface.macAddr ipAddr.toNat] := by
    simp [ha, ArpMessage.events, Sized.request, Sized.response, NetStack.host, hn.ip, hn.route,
      hinv.table h]
  rw [step_receive hmem, if_pos hmine, hevents]
  split_ifs with hcached
  · refine ⟨n, rfl, ?_⟩
    rwa [NetStack.arpLookup_snd, Option.isSome_map]
  · refine ⟨_, rfl, ?_⟩
    simp only [setHost, Function.update_self, NetStack.handleEvent]
    exact NetStack.isSome_arpLookup_arpCacheMac _ (hinv.table h ▸ hn.route)

end

end ArpNetwork

end BrickOS.Networking
