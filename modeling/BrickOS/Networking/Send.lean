import BrickOS.Networking.Receive

/-! Outgoing IP packets. The headers are written into one buffer from back to front, each in front
of the write offset that the one before left behind; the user's data comes last. -/
namespace BrickOS.Networking
open BrickOS.Lib

inductive HdrRet where
  | dataOverflow
  | invalidType
deriving DecidableEq, Repr

inductive IpSendRet where
  | noRoute
  | mtuOverstep
  | ipHdrFailed
  | ethHdrFailed
  | icmpHdrFailed
  | udpHdrFailed
deriving DecidableEq, Repr

abbrev Headed := Except HdrRet (List UInt8 × ℕ)

structure UdpSendData where
  srcPort : ℕ
  dstPort : ℕ
  srcPort_lt : srcPort < 2 ^ 16
  dstPort_lt : dstPort < 2 ^ 16

structure IcmpSendData where
  icmpType : ℕ
  icmpCode : ℕ
  mayBeUsed : ℕ
  extraPayload : List UInt8

inductive HigherProt where
  | icmp (send : Option IcmpSendData)
  | udp (send : UdpSendData)
  | other (protocol : ℕ) (h : protocol ≠ 1 ∧ protocol ≠ 17)

/-- `IP_PROTOCOL_ICMP`, `IP_PROTOCOL_UDP` or another number. -/
def HigherProt.number : HigherProt → ℕ
  | .icmp _ => 1
  | .udp _ => 17
  | .other protocol _ => protocol

def HigherProt.totalHdrLen : HigherProt → ℕ
  | .icmp (some send) =>
    (14 + 20 + getTrueIcmpHeaderSize send.icmpType + send.extraPayload.length) % 2 ^ 32
  | .icmp none => 14 + 20
  | .udp _ => 14 + 20 + 8
  | .other _ _ => 14 + 20

structure IpOpts where
  tos : UInt8
  ttl : UInt8
  hdrIncl : Bool

/-- What the sender looks up. `arp_lookup` waits until the interface has the MAC address of the
next hop in its cache; `cachedMac` is what it finds there. -/
structure SendHost where
  table : RoutingTable
  mtu : ℕ → ℕ
  cachedMac : ℕ → ℕ → Vector UInt8 6
  ipAddr_lt : ∀ iface, (table.ifaces iface).ipAddr < 2 ^ 32
  macAddr_length : ∀ iface, (table.ifaces iface).macAddr.length = 6

def arpLookup (host : SendHost) (ipAddr : ℕ) : List UInt8 :=
  match routeLookup host.table ipAddr with
  | none => List.replicate 6 0
  | some route => (host.cachedMac route.iface ipAddr).toList

def ipHdrBytes (srcIp dstAddr prot : ℕ) (tos ttl : UInt8) (id flags postHdrDataLen sum : ℕ) :
    List UInt8 :=
  ([0x45, tos] ++ bytes16 (20 + postHdrDataLen) ++ bytes16 id ++ bytes16 flags ++
    [ttl, UInt8.ofNat prot]) ++ bytes16 sum ++ (bytes32 srcIp ++ bytes32 dstAddr)

def ipAddHeader (iface : NetInterface) (data : List UInt8) (writeOff dstAddr prot : ℕ)
    (tos ttl : UInt8) (id : ℕ) (df : Bool) (postHdrDataLen : ℕ) : Except Fault Headed := do
  if writeOff < 20 then return .error .dataOverflow
  let hdr := writeOff - 20
  let flags := if df then 2 ^ 14 else 0
  let data ← writeBytes data hdr
    (ipHdrBytes iface.ipAddr dstAddr prot tos ttl id flags postHdrDataLen 0)
  let sum ← computeChecksum data hdr 20
  let data ← writeBytes data (hdr + 10) (bytes16 sum)
  return .ok (data, hdr)

def udpHdrBytes (srcPort dstPort postHdrDataLen sum : ℕ) : List UInt8 :=
  bytes16 srcPort ++ bytes16 dstPort ++ bytes16 (8 + postHdrDataLen) ++ bytes16 sum

def pseudoIpHdrBytes (srcIp dstAddr postHdrDataLen : ℕ) : List UInt8 :=
  bytes32 srcIp ++ bytes32 dstAddr ++ [0, 17] ++ bytes16 (8 + postHdrDataLen)

/-- `compute_udp_checksum` with the data in a buffer of its own. -/
def computeUdpChecksumOf (data : List UInt8) (off : ℕ) (pseudo payload : List UInt8) :
    Except Fault ℕ := do
  let sum ← checksumAccumulate data off 8 0
  let sum ← checksumAccumulate pseudo 0 12 sum
  let sum ← checksumAccumulate payload 0 payload.length sum
  return checksumFinalise sum

def udpAddHeader (iface : NetInterface) (data : List UInt8) (writeOff srcPort dstPort : ℕ)
    (postHdrData : List UInt8) (dstAddr : ℕ) : Except Fault Headed := do
  if writeOff < 8 then return .error .dataOverflow
  let hdr := writeOff - 8
  let data ← writeBytes data hdr (udpHdrBytes srcPort dstPort postHdrData.length 0)
  let pseudo := pseudoIpHdrBytes iface.ipAddr dstAddr postHdrData.length
  let sum ← computeUdpChecksumOf data hdr pseudo postHdrData
  let data ← writeBytes data (hdr + 6) (bytes16 sum)
  return .ok (data, hdr)

/-- The four bytes behind `icmp_header_t` for the types that `icmp_add_hdr` knows. -/
def icmpPostHdr (icmpType mayBeUsed : ℕ) : Option (List UInt8) :=
  if icmpType ∈ [0, 8, 13, 14, 15, 16] then
    some (bytes16 (mayBeUsed / 2 ^ 16) ++ bytes16 mayBeUsed)
  else if icmpType = 5 then some (bytes32 mayBeUsed)
  else if icmpType = 12 then some [UInt8.ofNat mayBeUsed, 0, 0, 0]
  else none

def icmpAddHdr (data : List UInt8) (writeOff : ℕ) (send : IcmpSendData) :
    Except Fault Headed := do
  let trueSize := getTrueIcmpHeaderSize send.icmpType
  let extraLen := send.extraPayload.length
  if writeOff < (trueSize + extraLen) % 2 ^ 32 then return .error .dataOverflow
  let payloadOff ← subLen writeOff extraLen
  let data ← writeBytes data payloadOff send.extraPayload
  let hdr ← subLen payloadOff trueSize
  let data ← writeBytes data hdr (List.replicate trueSize 0)
  match icmpPostHdr send.icmpType send.mayBeUsed with
  | none => return .error .invalidType
  | some postHdr =>
    let data ← writeBytes data hdr
      ([UInt8.ofNat send.icmpType, UInt8.ofNat send.icmpCode, 0, 0] ++ postHdr)
    let sum ← computeChecksum data hdr (trueSize + extraLen)
    let data ← writeBytes data (hdr + 2) (bytes16 sum)
    return .ok (data, hdr)

def ethernetAddHeader (iface : NetInterface) (data : List UInt8) (writeOff : ℕ)
    (dstMac : List UInt8) (ethertype : ℕ) : Except Fault Headed := do
  if writeOff < 14 then return .error .dataOverflow
  let hdr := writeOff - 14
  let data ← writeBytes data hdr (dstMac ++ iface.macAddr ++ bytes16 ethertype)
  return .ok (data, hdr)

/-- The header of the protocol above IP, and the length of what is behind the IP header. A user
that sends ICMP brings the header along. -/
def addHigherProtHeader (iface : NetInterface) (data : List UInt8) (writeOff : ℕ)
    (usrData : List UInt8) (dstIp : ℕ) : HigherProt → Except Fault (Headed × ℕ)
  | .icmp (some send) => do
    let headed ← icmpAddHdr data writeOff send
    return (headed, usrData.length + getTrueIcmpHeaderSize send.icmpType +
      send.extraPayload.length)
  | .udp send => do
    let headed ← udpAddHeader iface data writeOff send.srcPort send.dstPort usrData dstIp
    return (headed, usrData.length + 8)
  | .icmp none | .other _ _ => .ok (.ok (data, writeOff), usrData.length)

def HigherProt.hdrFailed : HigherProt → IpSendRet
  | .udp _ => .udpHdrFailed
  | .icmp _ | .other _ _ => .icmpHdrFailed

def addIpHeader (iface : NetInterface) (opts : IpOpts) (data : List UInt8)
    (writeOff dstIp prot id postHdrLen : ℕ) : Except Fault Headed :=
  if opts.hdrIncl then .ok (.ok (data, writeOff))
  else ipAddHeader iface data writeOff dstIp prot opts.tos opts.ttl id false postHdrLen

section
variable (iface : NetInterface) {a b c : List UInt8}

def ipHdrSum (srcIp dstAddr prot : ℕ) (tos ttl : UInt8) (id flags postHdrDataLen : ℕ) : ℕ :=
  checksumFinalise (wordSum (ipHdrBytes srcIp dstAddr prot tos ttl id flags postHdrDataLen 0))

theorem ipHdrSum_lt (srcIp dstAddr prot : ℕ) (tos ttl : UInt8)
    (id flags postHdrDataLen sum : ℕ) :
    wordSum (ipHdrBytes srcIp dstAddr prot tos ttl id flags postHdrDataLen sum) < 2 ^ 32 := by
  have hle := wordSum_le (ipHdrBytes srcIp dstAddr prot tos ttl id flags postHdrDataLen sum)
  have hlen : (ipHdrBytes srcIp dstAddr prot tos ttl id flags postHdrDataLen sum).length = 20 := rfl
  rw [hlen] at hle
  omega

/-- The header goes into the 20 bytes in front of the write offset. -/
theorem ipAddHeader_append (hb : b.length = 20) (dstAddr prot : ℕ) (tos ttl : UInt8) (id : ℕ)
    (postHdrDataLen : ℕ) :
    ipAddHeader iface (a ++ b ++ c) (a.length + 20) dstAddr prot tos ttl id false postHdrDataLen =
      .ok (.ok (a ++ ipHdrBytes iface.ipAddr dstAddr prot tos ttl id 0 postHdrDataLen
        (ipHdrSum iface.ipAddr dstAddr prot tos ttl id 0 postHdrDataLen) ++ c, a.length)) := by
  rw [ipAddHeader, if_neg (by omega), Nat.add_sub_cancel, if_neg (by decide)]
  dsimp only
  rw [writeBytes_append rfl hb, ok_bind]
  have hsum : computeChecksum (a ++ ipHdrBytes iface.ipAddr dstAddr prot tos ttl id 0
      postHdrDataLen 0 ++ c) a.length 20 =
      .ok (ipHdrSum iface.ipAddr dstAddr prot tos ttl id 0 postHdrDataLen) := by
    have hlt := ipHdrSum_lt iface.ipAddr dstAddr prot tos ttl id 0 postHdrDataLen 0
    have hacc := checksumAccumulate_append (a := a) (c := c) (n := 0)
      (b := ipHdrBytes iface.ipAddr dstAddr prot tos ttl id 0 postHdrDataLen 0) (by omega)
    rw [Nat.zero_add] at hacc
    exact congrArg (· >>= fun sum => pure (checksumFinalise sum)) hacc
  rw [hsum, ok_bind]
  exact congrArg (· >>= fun data => pure (Except.ok (data, a.length)))
    (writeBytes_field a _ _ c 0 _)

theorem computeUdpChecksumOf_append {hdr pseudo payload : List UInt8} (hhdr : hdr.length = 8)
    (hpseudo : pseudo.length = 12)
    (hlt : wordSum hdr + wordSum pseudo + wordSum payload < 2 ^ 32) :
    computeUdpChecksumOf (a ++ hdr ++ c) a.length pseudo payload =
      .ok (checksumFinalise (wordSum hdr + wordSum pseudo + wordSum payload)) := by
  have h1 := checksumAccumulate_append (a := a) (b := hdr) (c := c) (n := 0) (by omega)
  have h2 := checksumAccumulate_append (a := []) (b := pseudo) (c := []) (n := wordSum hdr)
    (by omega)
  have h3 := checksumAccumulate_append (a := []) (b := payload) (c := [])
    (n := wordSum hdr + wordSum pseudo) hlt
  simp only [List.nil_append, List.append_nil, List.length_nil, Nat.zero_add, hhdr, hpseudo]
    at h1 h2 h3
  rw [computeUdpChecksumOf, h1, ok_bind, h2, ok_bind, h3, ok_bind]
  rfl

end

theorem length_arpLookup (host : SendHost) (ipAddr : ℕ) : (arpLookup host ipAddr).length = 6 := by
  unfold arpLookup
  split
  · rfl
  · exact Vector.length_toList

end BrickOS.Networking
