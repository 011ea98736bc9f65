import BrickOS.Networking.ChecksumLaws

/-! What `send_ip_based_packet` has in its buffer when it calls the `send` function of an interface,
for every protocol, option and payload: the headers one behind the other and the payload. -/
namespace BrickOS.Networking
open BrickOS.Lib

structure UsrData where
  null : Bool
  data : List UInt8

def fillFrame (iface : NetInterface) (opts : IpOpts) (id : ℕ) (dstMac dataBuf : List UInt8)
    (usr : UsrData) (dstIp : ℕ) (prot : HigherProt) :
    Except Fault (Except IpSendRet (List UInt8 × ℕ)) := do
  match ← addHigherProtHeader iface dataBuf prot.totalHdrLen usr.data dstIp prot with
  | (.error _, _) => return .error prot.hdrFailed
  | (.ok (dataBuf, writeOff), postHdrLen) =>
    match ← addIpHeader iface opts dataBuf writeOff dstIp prot.number id postHdrLen with
    | .error _ => return .error .ipHdrFailed
    | .ok (dataBuf, writeOff) =>
      match ← ethernetAddHeader iface dataBuf writeOff dstMac 0x0800 with
      | .error _ => return .error .ethHdrFailed
      | .ok (dataBuf, writeOff) =>
        if usr.null then return .ok (dataBuf, writeOff)
        else
          let dataBuf ← writeBytes dataBuf prot.totalHdrLen usr.data
          return .ok (dataBuf, writeOff)

/-- `send_ip_based_packet`, with the write offset at the call of `send`. -/
def sendFrame (host : SendHost) (opts : IpOpts) (heap : ℕ → UInt8) (id : ℕ) (usr : UsrData)
    (dstIp : ℕ) (prot : HigherProt) : Except Fault (Except IpSendRet (ℕ × List UInt8 × ℕ)) :=
  match routeLookup host.table dstIp with
  | none => .ok (.error .noRoute)
  | some route => do
    let totalLen := (prot.totalHdrLen + usr.data.length) % 2 ^ 32
    if totalLen > host.mtu route.iface then return .error .mtuOverstep
    let dstMac := arpLookup host (if route.gateway ≠ 0 then route.gateway else dstIp)
    let dataBuf := (List.range totalLen).map heap
    let filled ← fillFrame (host.table.ifaces route.iface) opts id dstMac dataBuf usr dstIp prot
    return filled.map fun frame => (route.iface, frame)

/-- `extra_payload_len` is a `uint32_t`. -/
def HigherProt.Fits : HigherProt → Prop
  | .icmp (some send) => send.extraPayload.length < 2 ^ 32
  | .icmp none | .udp _ | .other _ _ => True

def HigherProt.upperLen : HigherProt → ℕ
  | .icmp (some send) => getTrueIcmpHeaderSize send.icmpType + send.extraPayload.length
  | .udp _ => 8
  | .icmp none | .other _ _ => 0

def icmpBytes (send : IcmpSendData) (postHdr : List UInt8) (sum : ℕ) : List UInt8 :=
  [UInt8.ofNat send.icmpType, UInt8.ofNat send.icmpCode] ++ bytes16 sum ++
    (postHdr ++ List.replicate (getTrueIcmpHeaderSize send.icmpType - 8) 0 ++ send.extraPayload)

def icmpSum (send : IcmpSendData) (postHdr : List UInt8) : ℕ :=
  checksum (icmpBytes send postHdr 0) 0 (icmpBytes send postHdr 0).length

def udpSum (srcIp dstAddr srcPort dstPort : ℕ) (payload : List UInt8) : ℕ :=
  checksumFinalise (checksumSum payload 0 payload.length
    (wordSum (udpHdrBytes srcPort dstPort payload.length 0) +
      wordSum (pseudoIpHdrBytes srcIp dstAddr payload.length)))

/-- What the kernel puts between the IP header and the user's data; `none` for an ICMP message of a
type it does not know. -/
def upperBytes (srcIp dstIp : ℕ) (payload : List UInt8) : HigherProt → Option (List UInt8)
  | .icmp (some send) =>
    (icmpPostHdr send.icmpType send.mayBeUsed).map fun postHdr =>
      icmpBytes send postHdr (icmpSum send postHdr)
  | .udp send => some (udpHdrBytes send.srcPort send.dstPort payload.length
      (udpSum srcIp dstIp send.srcPort send.dstPort payload))
  | .icmp none | .other _ _ => some []

def ethHdrBytes (iface : NetInterface) (dstMac : List UInt8) : List UInt8 :=
  dstMac ++ iface.macAddr ++ bytes16 0x0800

def ipHdr (iface : NetInterface) (opts : IpOpts) (id dstIp : ℕ) (prot : HigherProt)
    (postHdrLen : ℕ) : List UInt8 :=
  ipHdrBytes iface.ipAddr dstIp prot.number opts.tos opts.ttl id 0 postHdrLen
    (ipHdrSum iface.ipAddr dstIp prot.number opts.tos opts.ttl id 0 postHdrLen)

section
variable {a b c : List UInt8}

/-! Parts of a buffer. -/

theorem byteAt_middle {i : ℕ} (h : i < b.length) :
    byteAt (a ++ b ++ c) (a.length + i) = byteAt b i := by
  rw [List.append_assoc, byteAt_append_right, byteAt_append_left h]

theorem checksumSum_middle {off len : ℕ} (n : ℕ) (h : off + len ≤ b.length) :
    checksumSum (a ++ b ++ c) (a.length + off) len n = checksumSum b off len n := by
  fun_induction checksumSum b off len n with
  | case1 => rfl
  | case2 off n =>
    rw [checksumSum, byteAt_middle (by omega)]
  | case3 off len n ih =>
    have hword : be16 (a ++ b ++ c) (a.length + off) = be16 b off := by
      rw [be16, be16, byteAt_middle (by omega), Nat.add_assoc, byteAt_middle (by omega)]
    rw [checksumSum, hword, Nat.add_assoc]
    exact ih (by omega)

theorem computeChecksum_middle :
    computeChecksum (a ++ b ++ c) a.length b.length = .ok (checksum b 0 b.length) := by
  have hle : a.length + b.length ≤ (a ++ b ++ c).length := by
    simp only [List.length_append]
    omega
  have hsum := @checksumSum_middle a b c 0 b.length 0 (by omega)
  rw [Nat.add_zero] at hsum
  rw [computeChecksum_of_le hle, checksum, checksum, hsum]

/-! The headers. -/

theorem length_icmpPostHdr {icmpType mayBeUsed : ℕ} {postHdr : List UInt8}
    (h : icmpPostHdr icmpType mayBeUsed = some postHdr) : postHdr.length = 4 := by
  unfold icmpPostHdr at h
  split_ifs at h <;> cases h <;> rfl

theorem getTrueIcmpHeaderSize_ge (icmpType : ℕ) : 8 ≤ getTrueIcmpHeaderSize icmpType := by
  unfold getTrueIcmpHeaderSize
  split_ifs <;> decide

theorem getTrueIcmpHeaderSize_le (icmpType : ℕ) : getTrueIcmpHeaderSize icmpType ≤ 20 := by
  unfold getTrueIcmpHeaderSize
  split_ifs <;> decide

theorem length_icmpBytes {send : IcmpSendData} {postHdr : List UInt8} (h : postHdr.length = 4)
    (sum : ℕ) : (icmpBytes send postHdr sum).length =
      getTrueIcmpHeaderSize send.icmpType + send.extraPayload.length := by
  have hge := getTrueIcmpHeaderSize_ge send.icmpType
  simp only [icmpBytes, List.length_append, List.length_cons, List.length_nil, length_bytes16,
    List.length_replicate, h]
  omega

/-- The message goes into the bytes in front of the write offset. -/
theorem icmpAddHdr_append {send : IcmpSendData}
    (hb : b.length = getTrueIcmpHeaderSize send.icmpType + send.extraPayload.length)
    (hlt : b.length < 2 ^ 32) : icmpAddHdr (a ++ b ++ c) (a.length + b.length) send =
      .ok ((icmpPostHdr send.icmpType send.mayBeUsed).elim (.error .invalidType) fun postHdr =>
        .ok (a ++ icmpBytes send postHdr (icmpSum send postHdr) ++ c, a.length)) := by
  set size := getTrueIcmpHeaderSize send.icmpType with hsize
  set extra := send.extraPayload with hextra
  have hge : 8 ≤ size := getTrueIcmpHeaderSize_ge _
  obtain ⟨h, p, rfl, hh, hp⟩ := exists_append_of_length hb
  have hoff : ¬ a.length + (h ++ p).length < (size + extra.length) % 2 ^ 32 := by
    rw [← hb, Nat.mod_eq_of_lt hlt]
    omega
  have hpayloadOff : subLen (a.length + (h ++ p).length) extra.length =
      .ok (a ++ h).length := by
    rw [subLen_of_le (by omega), List.length_append, List.length_append]
    congr 1
    omega
  have hpayload : writeBytes (a ++ (h ++ p) ++ c) (a ++ h).length extra =
      .ok (a ++ h ++ extra ++ c) := by
    have hwrite := @writeBytes_append extra (a ++ h).length (a ++ h) p c rfl hp
    rwa [List.append_assoc a h p] at hwrite
  have hhdrOff : subLen (a ++ h).length size = .ok a.length := by
    rw [subLen_of_le (by rw [List.length_append]; omega), List.length_append]
    congr 1
    omega
  have hzeros : writeBytes (a ++ h ++ extra ++ c) a.length (List.replicate size 0) =
      .ok (a ++ List.replicate size 0 ++ (extra ++ c)) := by
    rw [List.append_assoc (a ++ h) extra c]
    exact writeBytes_append rfl (by rw [List.length_replicate, hh])
  unfold icmpAddHdr
  simp only [← hsize, ← hextra]
  rw [if_neg hoff, hpayloadOff, ok_bind, hpayload, ok_bind, hhdrOff, ok_bind, hzeros, ok_bind]
  cases hpost : icmpPostHdr send.icmpType send.mayBeUsed with
  | none => rfl
  | some postHdr =>
    have hfour := length_icmpPostHdr hpost
    have hbytes : ∀ n, icmpBytes send postHdr n =
        [UInt8.ofNat send.icmpType, UInt8.ofNat send.icmpCode] ++ bytes16 n ++
          (postHdr ++ List.replicate (size - 8) 0 ++ extra) := fun _ => rfl
    have hfields : writeBytes (a ++ List.replicate size 0 ++ (extra ++ c)) a.length
        ([UInt8.ofNat send.icmpType, UInt8.ofNat send.icmpCode, 0, 0] ++ postHdr) =
          .ok (a ++ icmpBytes send postHdr 0 ++ c) := by
      have hsplit : List.replicate size (0 : UInt8) =
          List.replicate 8 0 ++ List.replicate (size - 8) 0 := by
        rw [List.replicate_append_replicate]
        congr 1
        omega
      have hwrite := @writeBytes_append
        ([UInt8.ofNat send.icmpType, UInt8.ofNat send.icmpCode, 0, 0] ++ postHdr) a.length a
        (List.replicate 8 0) (List.replicate (size - 8) 0 ++ (extra ++ c)) rfl
        (by simp [hfour])
      have hassoc : a ++ (List.replicate 8 0 ++ List.replicate (size - 8) 0) ++ (extra ++ c) =
          a ++ List.replicate 8 0 ++ (List.replicate (size - 8) 0 ++ (extra ++ c)) := by simp
      have hzero : bytes16 0 = [0, 0] := rfl
      rw [hsplit, hassoc, hwrite, hbytes]
      congr 1
      simp [hzero]
    have hlength : (icmpBytes send postHdr 0).length = size + extra.length :=
      length_icmpBytes hfour 0
    have hsum : computeChecksum (a ++ icmpBytes send postHdr 0 ++ c) a.length
        (size + extra.length) = .ok (icmpSum send postHdr) := by
      rw [← hlength]
      exact computeChecksum_middle
    have hstore : writeBytes (a ++ icmpBytes send postHdr 0 ++ c) (a.length + 2)
        (bytes16 (icmpSum send postHdr)) =
          .ok (a ++ icmpBytes send postHdr (icmpSum send postHdr) ++ c) := by
      rw [hbytes, hbytes]
      exact writeBytes_field a [_, _] _ c 0 _
    dsimp only
    rw [hfields, ok_bind, hsum, ok_bind, hstore, ok_bind]
    rfl

/-- The UDP header goes into the 8 bytes in front of the write offset. -/
theorem udpAddHeader_any (iface : NetInterface) (hb : b.length = 8) (srcPort dstPort : ℕ)
    (payload : List UInt8) (dstAddr : ℕ) :
    udpAddHeader iface (a ++ b ++ c) (a.length + 8) srcPort dstPort payload dstAddr =
      .ok (.ok (a ++ udpHdrBytes srcPort dstPort payload.length
        (udpSum iface.ipAddr dstAddr srcPort dstPort payload) ++ c, a.length)) := by
  set hdr := udpHdrBytes srcPort dstPort payload.length 0 with hhdr
  set pseudo := pseudoIpHdrBytes iface.ipAddr dstAddr payload.length with hpseudo
  have hboth : wordSum hdr + wordSum pseudo < 2 ^ 32 := by
    have hle := wordSum_le hdr
    have hle' := wordSum_le pseudo
    have hlen : hdr.length = 8 := rfl
    have hlen' : pseudo.length = 12 := rfl
    omega
  have hsum : computeUdpChecksumOf (a ++ hdr ++ c) a.length pseudo payload =
      .ok (udpSum iface.ipAddr dstAddr srcPort dstPort payload) := by
    have h1 := checksumAccumulate_append (a := a) (b := hdr) (c := c) (n := 0) (by omega)
    have h2 := checksumAccumulate_append (a := []) (b := pseudo) (c := []) (n := wordSum hdr) hboth
    have h3 := @checksumAccumulate_of_le payload 0 payload.length (wordSum hdr + wordSum pseudo)
      (by omega)
    simp only [List.nil_append, List.append_nil, List.length_nil, Nat.zero_add] at h1 h2
    rw [computeUdpChecksumOf, show (8 : ℕ) = hdr.length from rfl, h1, ok_bind,
      show (12 : ℕ) = pseudo.length from rfl, h2, ok_bind, h3, ok_bind]
    rfl
  rw [udpAddHeader, if_neg (by omega), Nat.add_sub_cancel]
  dsimp only
  rw [writeBytes_append rfl hb, ok_bind, hsum, ok_bind]
  have hwrite := writeBytes_field a
    (bytes16 srcPort ++ bytes16 dstPort ++ bytes16 (8 + payload.length)) [] c 0
    (udpSum iface.ipAddr dstAddr srcPort dstPort payload)
  simp only [List.append_nil] at hwrite
  exact congrArg (· >>= fun data => pure (Except.ok (data, a.length))) hwrite

theorem ethernetAddHeader_any {iface : NetInterface} {dstMac : List UInt8} (hb : b.length = 14)
    (hdst : dstMac.length = 6) (hsrc : iface.macAddr.length = 6) :
    ethernetAddHeader iface (a ++ b ++ c) (a.length + 14) dstMac 0x0800 =
      .ok (.ok (a ++ ethHdrBytes iface dstMac ++ c, a.length)) := by
  have hhdr : b.length = (ethHdrBytes iface dstMac).length := by
    simp [ethHdrBytes, hb, hdst, hsrc]
  have hwrite := @writeBytes_append (ethHdrBytes iface dstMac) a.length a b c rfl hhdr
  rw [ethernetAddHeader, if_neg (by omega), Nat.add_sub_cancel]
  exact congrArg (· >>= fun data => pure (Except.ok (data, a.length))) hwrite

/-- The header above IP, or the code for an ICMP type that is not known. -/
theorem addHigherProtHeader_append (iface : NetInterface) (data : List UInt8) (dstIp : ℕ)
    {prot : HigherProt} (hb : b.length = prot.upperLen) (hlt : b.length < 2 ^ 32) :
    addHigherProtHeader iface (a ++ b ++ c) (a.length + b.length) data dstIp prot =
      .ok ((upperBytes iface.ipAddr dstIp data prot).elim (.error .invalidType) fun u =>
        .ok (a ++ u ++ c, a.length), data.length + prot.upperLen) := by
  have hnil : prot.upperLen = 0 → a ++ b ++ c = a ++ [] ++ c ∧ a.length + b.length = a.length := by
    intro hzero
    have hempty : b = [] := List.length_eq_zero_iff.mp (hb.trans hzero)
    rw [hempty]
    exact ⟨rfl, rfl⟩
  cases prot with
  | icmp send =>
    cases send with
    | none =>
      obtain ⟨hbuf, hoff⟩ := hnil rfl
      rw [hbuf, hoff]
      rfl
    | some send =>
      dsimp only [addHigherProtHeader, upperBytes]
      rw [icmpAddHdr_append hb hlt, ok_bind, Nat.add_assoc]
      cases icmpPostHdr send.icmpType send.mayBeUsed <;> rfl
  | udp send =>
    have height : b.length = 8 := hb
    dsimp only [addHigherProtHeader]
    rw [height, udpAddHeader_any iface height, ok_bind]
    rfl
  | other protocol h =>
    obtain ⟨hbuf, hoff⟩ := hnil rfl
    rw [hbuf, hoff]
    rfl

end

/-- The first 34 bytes of the buffer that is handed to the interface. Without an IP header of the
kernel's own the first 20 stay as they were. -/
def frameFront (iface : NetInterface) (opts : IpOpts) (id : ℕ) (dstMac : List UInt8) (dstIp : ℕ)
    (prot : HigherProt) (postHdrLen : ℕ) (untouched : List UInt8) : List UInt8 :=
  if opts.hdrIncl then untouched ++ ethHdrBytes iface dstMac
  else ethHdrBytes iface dstMac ++ ipHdr iface opts id dstIp prot postHdrLen

theorem totalHdrLen_eq (prot : HigherProt) : prot.totalHdrLen = (34 + prot.upperLen) % 2 ^ 32 := by
  cases prot with
  | icmp send =>
    cases send with
    | none => rfl
    | some send =>
      dsimp only [HigherProt.totalHdrLen, HigherProt.upperLen]
      rw [Nat.add_assoc]
  | udp send => rfl
  | other protocol h => rfl

theorem length_upperBytes {srcIp dstIp : ℕ} {payload u : List UInt8} {prot : HigherProt}
    (h : upperBytes srcIp dstIp payload prot = some u) : u.length = prot.upperLen := by
  cases prot with
  | icmp send =>
    cases send with
    | none =>
      cases h
      rfl
    | some send =>
      obtain ⟨postHdr, hpost, rfl⟩ := Option.map_eq_some_iff.mp h
      exact length_icmpBytes (length_icmpPostHdr hpost) _
  | udp send =>
    cases h
    rfl
  | other protocol h' =>
    cases h
    rfl

section
variable {iface : NetInterface} {opts : IpOpts} {id dstIp : ℕ} {dstMac : List UInt8}
  {prot : HigherProt} {usr : UsrData} {heap : ℕ → UInt8} {host : SendHost}

/-- The IP header and the Ethernet header in front of the rest. -/
theorem addHeaders_eq {hd rest : List UInt8} (hhd : hd.length = 34) (hdst : dstMac.length = 6)
    (hsrc : iface.macAddr.length = 6) (postHdrLen : ℕ) : ∃ head off,
      addIpHeader iface opts (hd ++ rest) 34 dstIp prot.number id postHdrLen =
        .ok (.ok (head ++ rest, off)) ∧
      ethernetAddHeader iface (head ++ rest) off dstMac 0x0800 =
        .ok (.ok (frameFront iface opts id dstMac dstIp prot postHdrLen (hd.take 20) ++ rest,
          if opts.hdrIncl then 20 else 0)) := by
  unfold addIpHeader frameFront
  cases hincl : opts.hdrIncl with
  | true =>
    obtain ⟨p, q, rfl, hp, hq⟩ := exists_append_of_length (m := 20) (n := 14) hhd
    refine ⟨p ++ q, 34, rfl, ?_⟩
    have heth := @ethernetAddHeader_any p q rest iface dstMac hq hdst hsrc
    rw [hp] at heth
    rw [if_pos rfl, if_pos rfl, List.take_left' hp]
    exact heth
  | false =>
    obtain ⟨e, i, rfl, he, hi⟩ := exists_append_of_length (m := 14) (n := 20) hhd
    refine ⟨e ++ ipHdr iface opts id dstIp prot postHdrLen, 14, ?_, ?_⟩
    · have hip := ipAddHeader_append iface (a := e) (c := rest) hi dstIp prot.number opts.tos
        opts.ttl id postHdrLen
      rw [he] at hip
      exact hip
    · have heth := @ethernetAddHeader_any [] e (ipHdr iface opts id dstIp prot postHdrLen ++ rest)
        iface dstMac he hdst hsrc
      simpa using heth

theorem length_frameFront {untouched : List UInt8} (hdst : dstMac.length = 6)
    (hsrc : iface.macAddr.length = 6) (postHdrLen : ℕ) (hlen : untouched.length = 20) :
    (frameFront iface opts id dstMac dstIp prot postHdrLen untouched).length = 34 := by
  have heth : (ethHdrBytes iface dstMac).length = 14 := by simp [ethHdrBytes, hdst, hsrc]
  have hip : (ipHdr iface opts id dstIp prot postHdrLen).length = 20 := rfl
  unfold frameFront
  split_ifs
  · rw [List.length_append, hlen, heth]
  · rw [List.length_append, heth, hip]

theorem fillFrame_eq {dataBuf : List UInt8} (hdst : dstMac.length = 6)
    (hsrc : iface.macAddr.length = 6) (hlt : 34 + prot.upperLen < 2 ^ 32)
    (hbuf : dataBuf.length = 34 + prot.upperLen + usr.data.length) :
    fillFrame iface opts id dstMac dataBuf usr dstIp prot =
      .ok ((upperBytes iface.ipAddr dstIp usr.data prot).elim (.error prot.hdrFailed) fun u =>
        .ok (frameFront iface opts id dstMac dstIp prot (usr.data.length + prot.upperLen)
          (dataBuf.take 20) ++ u ++
          (if usr.null then dataBuf.drop (34 + prot.upperLen) else usr.data),
          if opts.hdrIncl then 20 else 0)) := by
  have hhdrLen : prot.totalHdrLen = 34 + prot.upperLen := by
    rw [totalHdrLen_eq, Nat.mod_eq_of_lt hlt]
  obtain ⟨hdb, d, rfl, hhdb, hd⟩ := exists_append_of_length hbuf
  obtain ⟨hd', b, rfl, hhd', hb⟩ := exists_append_of_length hhdb
  have hupper := addHigherProtHeader_append iface usr.data dstIp (a := hd') (c := d) hb (by omega)
  rw [hb, hhd'] at hupper
  unfold fillFrame
  rw [hhdrLen, hupper, ok_bind]
  cases hu : upperBytes iface.ipAddr dstIp usr.data prot with
  | none => rfl
  | some u =>
    have hlength : u.length = prot.upperLen := length_upperBytes hu
    obtain ⟨head, off, hip, heth⟩ := @addHeaders_eq iface opts id dstIp dstMac prot hd' (u ++ d)
      hhd' hdst hsrc (usr.data.length + prot.upperLen)
    have htake : (hd' ++ b ++ d).take 20 = hd'.take 20 := by
      rw [List.append_assoc, List.take_append_of_le_length (by omega)]
    have hdrop : (hd' ++ b ++ d).drop (34 + prot.upperLen) = d := List.drop_left' hhdb
    set front := frameFront iface opts id dstMac dstIp prot (usr.data.length + prot.upperLen)
      (hd'.take 20) with hfront
    have hfrontLen : (front ++ u).length = 34 + prot.upperLen := by
      rw [List.length_append, hlength, hfront,
        length_frameFront hdst hsrc _ (by rw [List.length_take]; omega)]
    rw [htake, hdrop]
    simp only [Option.elim_some, List.append_assoc, ← hfront]
    rw [hip, ok_bind]
    dsimp only
    rw [heth, ok_bind]
    dsimp only
    cases usr.null with
    | true => rfl
    | false =>
      have hwrite := @writeBytes_append usr.data (34 + prot.upperLen) (front ++ u) d [] hfrontLen hd
      simp only [List.append_nil, List.append_assoc] at hwrite
      simp only [Bool.false_eq_true, if_false]
      rw [hwrite]
      rfl

/-! Lengths that do not fit in 32 bits. -/

theorem writeBytes_of_lt {p bytes : List UInt8} {off : ℕ} (h : p.length < off + bytes.length) :
    writeBytes p off bytes = .error (.outOfBounds (off + bytes.length - 1)) :=
  if_neg (Nat.not_le.mpr h)

theorem fillFrame_icmp_fault {dataBuf : List UInt8} {send : IcmpSendData} {e : Fault}
    (h : icmpAddHdr dataBuf (HigherProt.icmp (some send)).totalHdrLen send = .error e) :
    fillFrame iface opts id dstMac dataBuf usr dstIp (.icmp (some send)) = .error e := by
  unfold fillFrame
  dsimp only [addHigherProtHeader]
  rw [h]
  rfl

theorem fillFrame_icmp_failed {dataBuf : List UInt8} {send : IcmpSendData} {e : HdrRet}
    (h : icmpAddHdr dataBuf (HigherProt.icmp (some send)).totalHdrLen send = .ok (.error e)) :
    fillFrame iface opts id dstMac dataBuf usr dstIp (.icmp (some send)) =
      .ok (.error .icmpHdrFailed) := by
  unfold fillFrame
  dsimp only [addHigherProtHeader]
  rw [h]
  rfl

/-- A buffer that is too short for an ICMP message. -/
theorem icmpAddHdr_short {dataBuf : List UInt8} {send : IcmpSendData}
    (hlt : getTrueIcmpHeaderSize send.icmpType + send.extraPayload.length < 2 ^ 32)
    (hbuf : dataBuf.length <
      34 + (getTrueIcmpHeaderSize send.icmpType + send.extraPayload.length)) : ∃ e,
    icmpAddHdr dataBuf (34 + (getTrueIcmpHeaderSize send.icmpType + send.extraPayload.length))
      send = .error e := by
  unfold icmpAddHdr
  dsimp only
  rw [if_neg (by rw [Nat.mod_eq_of_lt hlt]; omega), subLen_of_le (by omega), ok_bind,
    writeBytes_of_lt (by omega)]
  exact ⟨_, rfl⟩

theorem fillFrame_short {dataBuf : List UInt8} (hdst : dstMac.length = 6)
    (hsrc : iface.macAddr.length = 6) (hlt : 34 + prot.upperLen < 2 ^ 32)
    (hbuf : dataBuf.length < 34 + prot.upperLen) :
    ∃ e, fillFrame iface opts id dstMac dataBuf usr dstIp prot = .error e := by
  have hhdrLen : prot.totalHdrLen = 34 + prot.upperLen := by
    rw [totalHdrLen_eq, Nat.mod_eq_of_lt hlt]
  -- without a header above IP, that of IP or that of Ethernet does not fit
  have hplain : prot.upperLen = 0 → addHigherProtHeader iface dataBuf (34 + prot.upperLen)
      usr.data dstIp prot = .ok (.ok (dataBuf, 34), usr.data.length) →
      ∃ e, fillFrame iface opts id dstMac dataBuf usr dstIp prot = .error e := by
    intro hzero hupper
    rw [hzero] at hbuf
    unfold fillFrame
    rw [hhdrLen, hupper, ok_bind]
    dsimp only
    unfold addIpHeader
    cases opts.hdrIncl with
    | true =>
      have hlength : (dstMac ++ iface.macAddr ++ bytes16 0x0800).length = 14 := by
        simp [hdst, hsrc]
      rw [if_pos rfl, ok_bind]
      dsimp only
      rw [ethernetAddHeader, if_neg (by decide)]
      dsimp only
      rw [writeBytes_of_lt (by rw [hlength]; omega)]
      exact ⟨_, rfl⟩
    | false =>
      have hlength : ∀ flags, (ipHdrBytes iface.ipAddr dstIp prot.number opts.tos opts.ttl id
        flags usr.data.length 0).length = 20 := fun _ => rfl
      rw [if_neg (by decide), ipAddHeader, if_neg (by decide)]
      dsimp only
      rw [writeBytes_of_lt (by rw [hlength]; omega)]
      exact ⟨_, rfl⟩
  cases prot with
  | icmp send =>
    cases send with
    | none => exact hplain rfl rfl
    | some send =>
      have hupper : 34 + (HigherProt.icmp (some send)).upperLen =
        34 + (getTrueIcmpHeaderSize send.icmpType + send.extraPayload.length) := rfl
      rw [hupper] at hlt hbuf
      obtain ⟨e, he⟩ := icmpAddHdr_short (by omega) hbuf
      exact ⟨e, fillFrame_icmp_fault (by rw [hhdrLen]; exact he)⟩
  | udp send =>
    have hbuf' : dataBuf.length < 42 := hbuf
    have hlength : (udpHdrBytes send.srcPort send.dstPort usr.data.length 0).length = 8 := rfl
    unfold fillFrame
    rw [hhdrLen]
    dsimp only [addHigherProtHeader, HigherProt.upperLen]
    rw [udpAddHeader, if_neg (by decide)]
    dsimp only
    rw [writeBytes_of_lt (by rw [hlength]; omega)]
    exact ⟨_, rfl⟩
  | other protocol h => exact hplain rfl rfl

/-- The headers alone do not fit in 32 bits: the offset is then found to be too small, or it
becomes negative. -/
theorem fillFrame_long {dataBuf : List UInt8} (hfits : prot.Fits)
    (hge : 2 ^ 32 ≤ 34 + prot.upperLen) :
    if prot.upperLen < 2 ^ 32 then
      fillFrame iface opts id dstMac dataBuf usr dstIp prot = .ok (.error .icmpHdrFailed)
    else ∃ e, fillFrame iface opts id dstMac dataBuf usr dstIp prot = .error e := by
  cases prot with
  | icmp send =>
    cases send with
    | none => exact absurd hge (by decide)
    | some send =>
      have hsize := getTrueIcmpHeaderSize_le send.icmpType
      have hextra : send.extraPayload.length < 2 ^ 32 := hfits
      have hupper : (HigherProt.icmp (some send)).upperLen =
        getTrueIcmpHeaderSize send.icmpType + send.extraPayload.length := rfl
      rw [hupper] at hge ⊢
      have hoff : (HigherProt.icmp (some send)).totalHdrLen = 34 +
          (getTrueIcmpHeaderSize send.icmpType + send.extraPayload.length) - 2 ^ 32 := by
        rw [totalHdrLen_eq, hupper]
        omega
      by_cases hlt : getTrueIcmpHeaderSize send.icmpType + send.extraPayload.length < 2 ^ 32
      · rw [if_pos hlt]
        apply fillFrame_icmp_failed
        rw [hoff]
        exact if_pos (by rw [Nat.mod_eq_of_lt hlt]; omega)
      · rw [if_neg hlt]
        refine ⟨.underflow, fillFrame_icmp_fault ?_⟩
        have hsub : subLen (34 + (getTrueIcmpHeaderSize send.icmpType +
          send.extraPayload.length) - 2 ^ 32) send.extraPayload.length = .error .underflow :=
            if_neg (by omega)
        rw [hoff, icmpAddHdr, if_neg (by omega), hsub]
        rfl
  | udp send => exact absurd hge (by simp [HigherProt.upperLen])
  | other protocol h => exact absurd hge (by simp [HigherProt.upperLen])

end
end BrickOS.Networking
