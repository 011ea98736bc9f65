import BrickOS.Networking.Ip

/-! The receive path: Ethernet, ARP, IPv4, ICMP and UDP. Every handler reads the frame, or the
packet it is handed, through bounds-checked reads. -/
namespace BrickOS.Networking
open BrickOS.Lib

structure Host where
  table : RoutingTable
  /-- `arp_cache_contains_ip`. -/
  arpCacheContainsIp : ℕ → Bool
  /-- Whether `icmp_sock_head` is not null. -/
  icmpSockets : Bool
  /-- Whether `raw_ip_sock_head` is not null. -/
  rawIpSockets : Bool

inductive NetEvent where
  | arpSendResponse (srcMac : List UInt8) (srcIp : ℕ)
  | arpCacheMac (srcMac : List UInt8) (srcIp : ℕ)
  | icmpToSockets (data : List UInt8) (srcIp : ℕ)
  | updateOrInsertRoute (iface network netmask gateway : ℕ)
  | sendEchoReply (dstIp ident seq : ℕ) (payload : List UInt8)
  | udpToSocket (dstIp dstPort srcIp srcPort : ℕ) (payload : List UInt8)
  | rawIpToSockets (srcIp dstIp protocol : ℕ) (payload : List UInt8)
deriving DecidableEq, Repr

def arpHandlePacket (host : Host) (data : List UInt8) (writeOff : ℕ) :
    Except Fault (List NetEvent) := do
  if data.length < writeOff + 28 then return []
  let ptype ← readBe16 data (writeOff + 2)
  let htype ← readBe16 data writeOff
  if ptype ≠ 0x0800 then return []
  if htype ≠ 0x1 then return []
  let hlen ← readByte data (writeOff + 4)
  let plen ← readByte data (writeOff + 5)
  if hlen ≠ 6 ∨ plen ≠ 4 then return []
  let dstIp ← readBe32 data (writeOff + 24)
  let srcIp ← readBe32 data (writeOff + 14)
  match routeLookup host.table srcIp with
  | none => return []
  | some route =>
    if dstIp ≠ (host.table.ifaces route.iface).ipAddr then return []
    let opcode ← readBe16 data (writeOff + 6)
    if opcode = 0x1 then
      let srcMac ← readBytes data (writeOff + 8) 6
      return [.arpSendResponse srcMac srcIp]
    else if opcode = 0x2 then
      if host.arpCacheContainsIp srcIp then return []
      let srcMac ← readBytes data (writeOff + 8) 6
      return [.arpCacheMac srcMac srcIp]
    else return []

def getTrueIcmpHeaderSize (icmpType : ℕ) : ℕ := if icmpType = 13 ∨ icmpType = 14 then 20 else 8

def icmpHandleSocketPacket (host : Host) (data : List UInt8) : Except Fault (List NetEvent) := do
  if !host.icmpSockets then return []
  let bytes ← readBytes data 0 data.length
  let srcIp ← readBe32 data 12
  return [.icmpToSockets bytes srcIp]

def icmpHandleRedirect (host : Host) (data : List UInt8) (ipHlen : ℕ) :
    Except Fault (List NetEvent) := do
  let trueSize := getTrueIcmpHeaderSize 5
  if data.length < trueSize + 20 then return []
  let originalDestIp ← readBe32 data (ipHlen + trueSize + 16)
  if originalDestIp = 0 then return []
  let newGateway ← readBe32 data (ipHlen + 4)
  match routeLookup host.table originalDestIp with
  | none => return []
  | some route =>
    let srcIp ← readBe32 data 12
    if route.gateway ≠ srcIp then return []
    let code ← readByte data (ipHlen + 1)
    if code = 0 ∨ code = 2 then
      return [.updateOrInsertRoute route.iface (originalDestIp &&& route.netmask) route.netmask
        newGateway]
    else if code = 1 ∨ code = 3 then
      return [.updateOrInsertRoute route.iface originalDestIp 0xffffffff newGateway]
    else return []

def icmpHandleEchoRequest (data : List UInt8) (ipHlen : ℕ) : Except Fault (List NetEvent) := do
  let srcIp ← readBe32 data 12
  let ident ← readBe16 data (ipHlen + 4)
  let seq ← readBe16 data (ipHlen + 6)
  let trueSize := getTrueIcmpHeaderSize 8
  let postIpHdrDataLen ← subLen data.length ipHlen
  let extraPayloadLen ← subLen postIpHdrDataLen trueSize
  let payload ← readBytes data (ipHlen + trueSize) extraPayloadLen
  return [.sendEchoReply srcIp ident seq payload]

def icmpHandlePacket (host : Host) (data : List UInt8) : Except Fault (List NetEvent) := do
  if data.length < 8 then return []
  let versionIhl ← readByte data 0
  let ipHlen := versionIhl % 2 ^ 4 * 4
  let postIpHdrDataLen ← subLen data.length ipHlen
  let sum ← computeChecksum data ipHlen postIpHdrDataLen
  if sum ≠ 0 then return []
  let icmpType ← readByte data ipHlen
  if icmpType = 0 ∨ icmpType = 14 then icmpHandleSocketPacket host data
  else if icmpType = 5 then icmpHandleRedirect host data ipHlen
  else if icmpType = 8 then icmpHandleEchoRequest data ipHlen
  else return []

def pseudoIpHdr (data : List UInt8) (ipHlen : ℕ) : List UInt8 :=
  (data.drop 12).take 8 ++ [0, 17] ++ (data.drop (ipHlen + 4)).take 2

/-- `compute_udp_checksum` on the UDP header at `off` and the `payloadSize` bytes behind it. -/
def computeUdpChecksum (data : List UInt8) (off : ℕ) (pseudo : List UInt8) (payloadSize : ℕ) :
    Except Fault ℕ := do
  let sum ← checksumAccumulate data off 8 0
  let sum ← checksumAccumulate pseudo 0 12 sum
  let sum ← checksumAccumulate data (off + 8) payloadSize sum
  return checksumFinalise sum

def udpHandlePacket (data : List UInt8) : Except Fault (List NetEvent) := do
  if data.length < 8 then return []
  let versionIhl ← readByte data 0
  let ipHlen := versionIhl % 2 ^ 4 * 4
  let postIpHdrDataLen ← subLen data.length ipHlen
  let srcIp ← readBe32 data 12
  let dstIp ← readBe32 data 16
  let totalLen ← readBe16 data (ipHlen + 4)
  let payloadLen ← subLen postIpHdrDataLen 8
  -- `payload_size` is a `uint16_t`
  let payloadSize := payloadLen % 2 ^ 16
  let sum ← computeUdpChecksum data ipHlen (pseudoIpHdr data ipHlen) payloadSize
  if sum ≠ 0 then return []
  if totalLen ≠ postIpHdrDataLen then return []
  let dstPort ← readBe16 data (ipHlen + 2)
  let srcPort ← readBe16 data ipHlen
  let payload ← readBytes data (ipHlen + 8) payloadSize
  return [.udpToSocket dstIp dstPort srcIp srcPort payload]

def handleRawIpPacket (host : Host) (data : List UInt8) : Except Fault (List NetEvent) := do
  let versionIhl ← readByte data 0
  let ipHlen := versionIhl % 2 ^ 4 * 4
  let postHdrDataLen ← subLen data.length ipHlen
  let srcIp ← readBe32 data 12
  let dstIp ← readBe32 data 16
  if !host.rawIpSockets then return []
  let payload ← readBytes data ipHlen postHdrDataLen
  let protocol ← readByte data 9
  return [.rawIpToSockets srcIp dstIp protocol payload]

def handIpPacketAlong (host : Host) (packet : HandedPacket) : Except Fault (List NetEvent) :=
  if packet.protocol = 1 then icmpHandlePacket host packet.data
  else if packet.protocol = 17 then udpHandlePacket packet.data
  else if packet.protocol = 253 ∨ packet.protocol = 254 then handleRawIpPacket host packet.data
  else .ok []

def packetDesignatedForThisMachine (host : Host) (dstMac : List UInt8) : Bool :=
  dstMac == List.replicate 6 0xff ||
    dstMac == (host.table.ifaces (host.table.routes.headD ⟨0, 0, 0, 0⟩).iface).macAddr

/-- `ethernet_handle_packet` as far as the frame itself is read: what the kernel does, the
fragment store, and the packet for `hand_ip_packet_along`. -/
def ethernetReceive (host : Host) (links : List Ipv4LlLink) (data : List UInt8) :
    Except Fault (List NetEvent × List Ipv4LlLink × Option HandedPacket) := do
  if data.length < 14 then return ([], links, none)
  let dstMac ← readBytes data 0 6
  if !packetDesignatedForThisMachine host dstMac then return ([], links, none)
  let type ← readBe16 data 12
  if type = 0x0806 then
    let events ← arpHandlePacket host data 14
    return (events, links, none)
  else if type = 0x0800 then
    let r ← ipHandlePacket host.table links data 14
    return ([], r.1, r.2)
  else return ([], links, none)

def ethernetHandlePacket (host : Host) (links : List Ipv4LlLink) (data : List UInt8) :
    Except Fault (List NetEvent × List Ipv4LlLink) := do
  let (events, links, handed) ← ethernetReceive host links data
  match handed with
  | none => return (events, links)
  | some packet =>
    let events ← handIpPacketAlong host packet
    return (events, links)

theorem arpHandlePacket_inBounds (host : Host) (data : List UInt8) (writeOff : ℕ) :
    InBounds (arpHandlePacket host data writeOff) := by
  unfold arpHandlePacket
  by_cases hlen : data.length < writeOff + 28
  · rw [if_pos hlen]
    exact inBounds_pure _
  rw [if_neg hlen, readBe16_of_lt (by omega), readBe16_of_lt (by omega),
    readByte_of_lt (by omega), readByte_of_lt (by omega), readBe32_of_lt (by omega),
    readBe32_of_lt (by omega), readBe16_of_lt (by omega), readBytes_of_le (by omega)]
  simp only [ok_bind]
  cases routeLookup host.table (be32 data (writeOff + 14)) with
  | none => split_ifs <;> exact inBounds_pure _
  | some route =>
    dsimp only
    split_ifs <;> exact inBounds_pure _

section
variable {data : List UInt8} {ipHlen : ℕ}

theorem icmpHandleSocketPacket_inBounds (host : Host) (h : 20 ≤ data.length) :
    InBounds (icmpHandleSocketPacket host data) := by
  rw [icmpHandleSocketPacket, readBytes_of_le (by omega), readBe32_of_lt (by omega)]
  simp only [ok_bind]
  split_ifs <;> exact inBounds_pure _

theorem icmpHandleRedirect_inBounds (host : Host) (hle : ipHlen ≤ data.length) :
    InBounds (icmpHandleRedirect host data ipHlen) ↔
      (28 ≤ data.length → 28 ≤ data.length - ipHlen) := by
  have hsize : getTrueIcmpHeaderSize 5 = 8 := rfl
  unfold icmpHandleRedirect
  simp only [hsize]
  by_cases hshort : data.length < 8 + 20
  · rw [if_pos hshort]
    exact iff_of_true (inBounds_pure _) (by omega)
  rw [if_neg hshort, inBounds_readBe32_bind]
  refine ⟨fun hread _ => by omega, fun hfit => ⟨by omega, ?_⟩⟩
  have hpost := hfit (by omega)
  rw [readBe32_of_lt (by omega), readBe32_of_lt (by omega), readByte_of_lt (by omega)]
  simp only [ok_bind]
  cases routeLookup host.table (be32 data (ipHlen + 8 + 16)) with
  | none => split_ifs <;> exact inBounds_pure _
  | some route =>
    dsimp only
    split_ifs <;> exact inBounds_pure _

theorem icmpHandleEchoRequest_inBounds (h : 20 ≤ ipHlen) (hle : ipHlen ≤ data.length) :
    InBounds (icmpHandleEchoRequest data ipHlen) ↔ 8 ≤ data.length - ipHlen := by
  have hsize : getTrueIcmpHeaderSize 8 = 8 := rfl
  unfold icmpHandleEchoRequest
  simp only [hsize, inBounds_readBe32_bind, inBounds_readBe16_bind, inBounds_subLen_bind,
    inBounds_readBytes_bind, inBounds_pure, and_true]
  omega

def IcmpFits (data : List UInt8) (ipHlen : ℕ) : Prop :=
  checksum data ipHlen (data.length - ipHlen) = 0 →
    (byteAt data ipHlen = 5 → 28 ≤ data.length → 28 ≤ data.length - ipHlen) ∧
    (byteAt data ipHlen = 8 → 8 ≤ data.length - ipHlen)

theorem icmpHandlePacket_inBounds (host : Host) (hihl : byteAt data 0 % 2 ^ 4 * 4 = ipHlen)
    (h : 20 ≤ ipHlen) (hle : ipHlen ≤ data.length) :
    InBounds (icmpHandlePacket host data) ↔ IcmpFits data ipHlen := by
  unfold icmpHandlePacket IcmpFits
  rw [if_neg (by omega), readByte_of_lt (by omega)]
  simp only [ok_bind, hihl]
  rw [subLen_of_le hle, ok_bind, computeChecksum_of_le (by omega), ok_bind]
  by_cases hsum : checksum data ipHlen (data.length - ipHlen) = 0
  swap
  · rw [if_pos hsum]
    exact iff_of_true (inBounds_pure _) (fun h0 => absurd h0 hsum)
  -- a right checksum takes two bytes, so the type is there
  have htwo := two_le_of_checksum_eq_zero hsum
  rw [if_neg (not_not.mpr hsum), readByte_of_lt (by omega), ok_bind]
  simp only [inBounds_ite, icmpHandleRedirect_inBounds host hle,
    icmpHandleEchoRequest_inBounds h hle,
    icmpHandleSocketPacket_inBounds host (h.trans hle), inBounds_pure, hsum]
  grind

theorem pseudoIpHdr_length (h : 20 ≤ data.length) (hle : ipHlen + 6 ≤ data.length) :
    (pseudoIpHdr data ipHlen).length = 12 := by
  simp only [pseudoIpHdr, List.length_append, List.length_take, List.length_drop,
    List.length_cons, List.length_nil]
  omega

theorem udpHandlePacket_inBounds (hihl : byteAt data 0 % 2 ^ 4 * 4 = ipHlen)
    (h : 20 ≤ ipHlen) (hle : ipHlen ≤ data.length) :
    InBounds (udpHandlePacket data) ↔ 8 ≤ data.length - ipHlen := by
  unfold udpHandlePacket
  rw [if_neg (by omega), readByte_of_lt (by omega)]
  simp only [ok_bind, hihl, inBounds_subLen_bind, inBounds_readBe32_bind, inBounds_readBe16_bind]
  refine ⟨fun hread => hread.2.2.2.2.1, fun hpost => ⟨hle, by omega, by omega, by omega, hpost, ?_⟩⟩
  have hmod := Nat.mod_le (data.length - ipHlen - 8) (2 ^ 16)
  have hpseudo : (pseudoIpHdr data ipHlen).length = 12 :=
    pseudoIpHdr_length (by omega) (by omega)
  rw [computeUdpChecksum, checksumAccumulate_of_le _ (by omega), ok_bind,
    checksumAccumulate_of_le _ (by omega), ok_bind, checksumAccumulate_of_le _ (by omega), ok_bind,
    readBe16_of_lt (by omega), readBe16_of_lt (by omega), readBytes_of_le (by omega)]
  simp only [pure_bind, ok_bind]
  split_ifs <;> exact inBounds_pure _

theorem handleRawIpPacket_inBounds (host : Host) (hihl : byteAt data 0 % 2 ^ 4 * 4 = ipHlen)
    (h : 20 ≤ ipHlen) (hle : ipHlen ≤ data.length) : InBounds (handleRawIpPacket host data) := by
  unfold handleRawIpPacket
  rw [readByte_of_lt (by omega)]
  simp only [ok_bind, hihl]
  rw [subLen_of_le hle, readBe32_of_lt (by omega), readBe32_of_lt (by omega),
    readByte_of_lt (by omega)]
  simp only [ok_bind]
  rw [readBytes_of_le (by omega)]
  simp only [ok_bind]
  split_ifs <;> exact inBounds_pure _

def PacketFits (packet : HandedPacket) (ipHlen : ℕ) : Prop :=
  (packet.protocol = 1 → IcmpFits packet.data ipHlen) ∧
    (packet.protocol = 17 → 8 ≤ packet.data.length - ipHlen)

theorem handIpPacketAlong_inBounds (host : Host) {packet : HandedPacket}
    (hihl : byteAt packet.data 0 % 2 ^ 4 * 4 = ipHlen) (h : 20 ≤ ipHlen)
    (hle : ipHlen ≤ packet.data.length) :
    InBounds (handIpPacketAlong host packet) ↔ PacketFits packet ipHlen := by
  unfold handIpPacketAlong PacketFits
  simp only [inBounds_ite, icmpHandlePacket_inBounds host hihl h hle,
    udpHandlePacket_inBounds hihl h hle, handleRawIpPacket_inBounds host hihl h hle, inBounds_ok]
  grind

end

/-- `ip_hlen` of a packet. -/
def ipHlenOf (data : List UInt8) : ℕ := byteAt data 0 % 2 ^ 4 * 4

/-- `icmp_handle_packet` finds a right checksum; `ip_handle_packet` hands along no packet with a
shorter header. -/
structure IcmpAccepted (data : List UInt8) : Prop where
  header : 20 ≤ ipHlenOf data
  inside : ipHlenOf data ≤ data.length
  checksum : computeChecksum data (ipHlenOf data) (data.length - ipHlenOf data) = .ok 0

/-- An accepted packet goes to the handler of its type. -/
theorem icmpHandlePacket_accepted {data : List UInt8} (h : IcmpAccepted data) (host : Host) :
    icmpHandlePacket host data =
      if byteAt data (ipHlenOf data) = 0 ∨ byteAt data (ipHlenOf data) = 14 then
        icmpHandleSocketPacket host data
      else if byteAt data (ipHlenOf data) = 5 then icmpHandleRedirect host data (ipHlenOf data)
      else if byteAt data (ipHlenOf data) = 8 then icmpHandleEchoRequest data (ipHlenOf data)
      else .ok [] := by
  have hheader := h.header
  have hinside := h.inside
  have htwo : 2 ≤ data.length - ipHlenOf data := by
    have hsum := h.checksum
    rw [computeChecksum_of_le (by omega)] at hsum
    exact two_le_of_checksum_eq_zero (Except.ok.inj hsum)
  have hihl : byteAt data 0 % 2 ^ 4 * 4 = ipHlenOf data := rfl
  unfold icmpHandlePacket
  rw [if_neg (by omega), readByte_of_lt (by omega), ok_bind]
  dsimp only
  rw [hihl, subLen_of_le hinside, ok_bind, h.checksum, ok_bind, if_neg (by decide),
    readByte_of_lt (by omega), ok_bind]
  rfl

def CarriesIpv4 (host : Host) (data : List UInt8) : Prop :=
  14 ≤ data.length ∧ packetDesignatedForThisMachine host (data.take 6) = true ∧
    be16 data 12 = 0x0800

theorem ethernetReceive_of_carriesIpv4 {host : Host} {data : List UInt8}
    (h : CarriesIpv4 host data) (links : List Ipv4LlLink) :
    ethernetReceive host links data =
      ipHandlePacket host.table links data 14 >>= fun r => pure ([], r.1, r.2) := by
  obtain ⟨hlen, hmac, htype⟩ := h
  rw [ethernetReceive, if_neg (by omega), readBytes_of_le (by omega), ok_bind, List.drop_zero,
    if_neg (by simp [hmac]), readBe16_of_lt (by omega), ok_bind, htype, if_neg (by decide),
    if_pos rfl]

theorem ethernetReceive_of_not_carriesIpv4 {host : Host} {data : List UInt8}
    (h : ¬ CarriesIpv4 host data) (links : List Ipv4LlLink) :
    ∃ events, ethernetReceive host links data = .ok (events, links, none) := by
  unfold ethernetReceive
  by_cases hlen : data.length < 14
  · exact ⟨[], if_pos hlen⟩
  rw [if_neg hlen, readBytes_of_le (by omega), ok_bind, List.drop_zero]
  by_cases hmac : packetDesignatedForThisMachine host (data.take 6) = true
  swap
  · exact ⟨[], if_pos (by simp [hmac])⟩
  rw [if_neg (by simp [hmac]), readBe16_of_lt (by omega), ok_bind]
  by_cases harp : be16 data 12 = 0x0806
  · obtain ⟨events, hevents⟩ := arpHandlePacket_inBounds host data 14
    exact ⟨events, by rw [if_pos harp, hevents]; rfl⟩
  rw [if_neg harp, if_neg (fun htype => h ⟨by omega, hmac, htype⟩)]
  exact ⟨[], rfl⟩

/-- The frame is read inside its length, and a packet that is handed along without having been
put together from fragments is read inside its own. -/
def ReadsInside (host : Host) (links : List Ipv4LlLink) (data : List UInt8) : Prop :=
  InBounds (ethernetReceive host links data) ∧
    ∀ events links' packet,
      ethernetReceive host links data = .ok (events, links', some packet) →
      (ipFields data 14).Unfragmented → InBounds (handIpPacketAlong host packet)

def FrameFits (host : Host) (data : List UInt8) : Prop :=
  CarriesIpv4 host data →
    14 < data.length ∧
      (byteAt data 14 / 2 ^ 4 = 4 →
        34 ≤ data.length ∧
          (IpAccepts host.table data 14 (ipFields data 14) → (ipFields data 14).Unfragmented →
            PacketFits (handedWhole data 14) (ipFields data 14).hdrLen))

theorem handedWhole_inBounds (host : Host) {data : List UInt8}
    (h : IpAccepts host.table data 14 (ipFields data 14)) :
    InBounds (handIpPacketAlong host (handedWhole data 14)) ↔
      PacketFits (handedWhole data 14) (ipFields data 14).hdrLen := by
  have hmin := h.min_hdrLen
  have htotal := h.hdrLen_le_total
  have hle := h.total_le
  refine handIpPacketAlong_inBounds host ?_ hmin ?_
  · have hfirst : byteAt (handedWhole data 14).data 0 = byteAt data 14 := by
      simp only [byteAt, handedWhole]
      rw [List.getElem?_take_of_lt (by omega), List.getElem?_drop]
    rw [hfirst]
    rfl
  · simp only [handedWhole, List.length_take, List.length_drop]
    omega

theorem receive_readsInside_iff (host : Host) (links : List Ipv4LlLink) (data : List UInt8) :
    ReadsInside host links data ↔ FrameFits host data := by
  unfold ReadsInside FrameFits
  by_cases hip : CarriesIpv4 host data
  swap
  · obtain ⟨events, hr⟩ := ethernetReceive_of_not_carriesIpv4 hip links
    rw [hr]
    exact iff_of_true ⟨inBounds_ok _, fun _ _ _ h => by simp at h⟩ (fun h => absurd h hip)
  rw [ethernetReceive_of_carriesIpv4 hip links]
  by_cases hlen : 34 ≤ data.length
  swap
  · -- too short for a header: either a fault, or another version and nothing handed along
    constructor
    · rintro ⟨hin, -⟩ -
      obtain ⟨hfirst, hversion⟩ := (ipHandlePacket_inBounds _ _ _ _).mp hin.of_bind
      exact ⟨hfirst, fun h => absurd (hversion h) hlen⟩
    · intro hfit
      obtain ⟨hfirst, hversion⟩ := hfit hip
      obtain ⟨r, hr⟩ := (ipHandlePacket_inBounds host.table links data 14).mpr
        ⟨hfirst, fun h => absurd (hversion h).1 hlen⟩
      rw [hr, ipHandlePacket_of_short (by omega) hr]
      exact ⟨inBounds_pure _, fun _ _ _ h => by cases h⟩
  rcases ipHandlePacket_cases host.table links hlen with
    ⟨hn, h⟩ | ⟨ha, hun, h⟩ | ⟨ha, hun, h⟩
  · rw [h]
    exact iff_of_true ⟨inBounds_pure _, fun _ _ _ h => by cases h⟩
      (fun _ => ⟨by omega, fun _ => ⟨hlen, fun ha => absurd ha hn⟩⟩)
  · rw [h, ← handedWhole_inBounds host ha]
    constructor
    · rintro ⟨-, hhanded⟩ -
      exact ⟨by omega, fun _ => ⟨hlen, fun _ _ => hhanded _ _ _ rfl hun⟩⟩
    · intro hfit
      refine ⟨inBounds_pure _, fun events links' packet heq _ => ?_⟩
      obtain rfl : handedWhole data 14 = packet := by cases heq; rfl
      exact ((hfit hip).2 ha.version).2 ha hun
  · rw [h]
    exact iff_of_true ⟨inBounds_pure _, fun _ _ _ _ h => absurd h hun⟩
      (fun _ => ⟨by omega, fun _ => ⟨hlen, fun _ h => absurd h hun⟩⟩)

theorem not_readsInside_of_handed {host : Host} {links links' : List Ipv4LlLink}
    {data : List UInt8} {events : List NetEvent} {packet : HandedPacket} {e : Fault}
    (hr : ethernetReceive host links data = .ok (events, links', some packet))
    (hun : (ipFields data 14).Unfragmented) (he : handIpPacketAlong host packet = .error e) :
    ¬ ReadsInside host links data := by
  rintro ⟨-, hhanded⟩
  have hin := hhanded _ _ _ hr hun
  rw [he] at hin
  exact not_inBounds_error e hin

def bareHost : Host where
  table := ⟨[], fun _ => ⟨List.replicate 6 0, 0⟩⟩
  arpCacheContainsIp := fun _ => false
  icmpSockets := false
  rawIpSockets := false

def broadcastFrame (packet : List UInt8) : List UInt8 :=
  List.replicate 6 0xff ++ List.replicate 6 0 ++ [0x08, 0x00] ++ packet

def broadcastPacket (totalLength protocol sumHi sumLo : UInt8) (payload : List UInt8) :
    List UInt8 :=
  [0x45, 0, 0, totalLength, 0, 0, 0, 0, 64, protocol, sumHi, sumLo, 10, 0, 0, 2,
    0xff, 0xff, 0xff, 0xff] ++ payload

/-- No byte behind the Ethernet header; a UDP packet without a UDP header; an echo request and a
redirect that end after their checksum and their gateway. -/
theorem short_frames_read_outside :
    ¬ ReadsInside bareHost [] (broadcastFrame []) ∧
      ¬ ReadsInside bareHost [] (broadcastFrame (broadcastPacket 20 17 0x70 0xd8 [])) ∧
      ¬ ReadsInside bareHost []
        (broadcastFrame (broadcastPacket 24 1 0x70 0xe4 [8, 0, 0xf7, 0xff])) ∧
      ¬ ReadsInside bareHost []
        (broadcastFrame (broadcastPacket 28 1 0x70 0xe0 [5, 0, 0xfa, 0xff, 0, 0, 0, 0])) := by
  -- the frames are run through the handlers, which is deep for the elaborator
  set_option maxRecDepth 4000 in
  refine ⟨fun h => ?_, not_readsInside_of_handed rfl ⟨by decide, by decide⟩ rfl,
    not_readsInside_of_handed rfl ⟨by decide, by decide⟩ rfl,
    not_readsInside_of_handed rfl ⟨by decide, by decide⟩ rfl⟩
  have he : ethernetReceive bareHost [] (broadcastFrame []) = .error (.outOfBounds 14) := by
    set_option maxRecDepth 4000 in rfl
  obtain ⟨r, hr⟩ := h.1
  rw [he] at hr
  cases hr

end BrickOS.Networking
