import BrickOS.Networking.FrameLaws

/-! The answer to an echo request, from `icmp_handle_packet` to the frame that is sent. -/
namespace BrickOS.Networking
open BrickOS.Lib

/-- `icmp_handle_packet` takes the packet for an echo request. -/
structure IsEchoRequest (data : List UInt8) : Prop extends IcmpAccepted data where
  type : byteAt data (ipHlenOf data) = 8

/-- `send_data`, with `may_be_used` made of the identifier and the sequence number. -/
def echoReply (ident seq : ℕ) (payload : List UInt8) : HigherProt :=
  .icmp (some ⟨0, 0, ident * 2 ^ 16 + seq, payload⟩)

def sendEchoReply (sender : SendHost) (heap : ℕ → UInt8) (id dstIp ident seq : ℕ)
    (payload : List UInt8) : Except Fault (Except IpSendRet (ℕ × List UInt8 × ℕ)) :=
  sendFrame sender ⟨0, 255, false⟩ heap id ⟨true, []⟩ dstIp (echoReply ident seq payload)

def ReplySent (sender : SendHost) (id : ℕ) (data : List UInt8) (dstIp ident seq : ℕ)
    (payload : List UInt8) : Prop :=
  ∀ heap, ∃ ret, sendEchoReply sender heap id dstIp ident seq payload = .ok ret ∧
    ∀ iface frame off, ret = .ok (iface, frame, off) →
      (∃ sum, frame.drop 34 = [0, 0] ++ bytes16 sum ++ data.drop (ipHlenOf data + 4)) ∧
      computeChecksum frame 34 (frame.length - 34) = .ok 0

/-- Every reply that is handed to `send_ip_based_packet` mirrors the request, and so does what is
sent for it. -/
def EchoMirrored (host : Host) (sender : SendHost) (id : ℕ) (data : List UInt8) : Prop :=
  ∃ events, icmpHandlePacket host data = .ok events ∧
    ∀ dstIp ident seq payload, NetEvent.sendEchoReply dstIp ident seq payload ∈ events →
      (dstIp = be32 data 12 ∧ ident = be16 data (ipHlenOf data + 4) ∧
        seq = be16 data (ipHlenOf data + 6) ∧ payload = data.drop (ipHlenOf data + 8)) ∧
      ReplySent sender id data dstIp ident seq payload

def replyTo (data : List UInt8) : HigherProt :=
  echoReply (be16 data (ipHlenOf data + 4)) (be16 data (ipHlenOf data + 6))
    (data.drop (ipHlenOf data + 8))

def replySum (data : List UInt8) : ℕ := wordSum (data.drop (ipHlenOf data + 4)) % 2 ^ 32

section
variable {data : List UInt8}

theorem icmpHandlePacket_echo (h : IsEchoRequest data) (host : Host) :
    icmpHandlePacket host data = icmpHandleEchoRequest data (ipHlenOf data) := by
  rw [icmpHandlePacket_accepted h.toIcmpAccepted, h.type]
  rfl

theorem icmpHandleEchoRequest_eq (h : IsEchoRequest data)
    (hlen : ipHlenOf data + 8 ≤ data.length) :
    icmpHandleEchoRequest data (ipHlenOf data) =
      .ok [.sendEchoReply (be32 data 12) (be16 data (ipHlenOf data + 4))
        (be16 data (ipHlenOf data + 6)) (data.drop (ipHlenOf data + 8))] := by
  have hheader := h.header
  have hsize : getTrueIcmpHeaderSize 8 = 8 := rfl
  have hall : (data.drop (ipHlenOf data + 8)).take (data.length - ipHlenOf data - 8) =
      data.drop (ipHlenOf data + 8) := by
    apply List.take_of_length_le
    rw [List.length_drop]
    omega
  unfold icmpHandleEchoRequest
  rw [readBe32_of_lt (by omega), ok_bind, readBe16_of_lt (by omega), ok_bind,
    readBe16_of_lt (by omega), ok_bind, subLen_of_le h.inside, ok_bind, hsize,
    subLen_of_le (by omega), ok_bind, readBytes_of_le (by omega), ok_bind, hall]
  rfl

theorem reply_drop (hlen : ipHlenOf data + 8 ≤ data.length) :
    bytes16 (be16 data (ipHlenOf data + 4)) ++ bytes16 (be16 data (ipHlenOf data + 6)) ++
      data.drop (ipHlenOf data + 8) = data.drop (ipHlenOf data + 4) := by
  rw [List.append_assoc, bytes16_be16 (by omega), bytes16_be16 (by omega)]

theorem icmpPostHdr_reply {ident seq : ℕ} (hseq : seq < 2 ^ 16) :
    icmpPostHdr 0 (ident * 2 ^ 16 + seq) = some (bytes16 ident ++ bytes16 seq) := by
  have hident : (ident * 2 ^ 16 + seq) / 2 ^ 16 = ident := by omega
  have hlow : bytes16 (ident * 2 ^ 16 + seq) = bytes16 seq := by
    have hhi : UInt8.ofNat ((ident * 2 ^ 16 + seq) / 2 ^ 8) = UInt8.ofNat (seq / 2 ^ 8) := by
      apply UInt8.toNat_inj.mp
      rw [UInt8.toNat_ofNat', UInt8.toNat_ofNat']
      omega
    have hlo : UInt8.ofNat (ident * 2 ^ 16 + seq) = UInt8.ofNat seq := by
      apply UInt8.toNat_inj.mp
      rw [UInt8.toNat_ofNat', UInt8.toNat_ofNat']
      omega
    rw [bytes16, bytes16, hhi, hlo]
  rw [icmpPostHdr, if_pos (by decide), hident, hlow]

theorem upperBytes_replyTo (hlen : ipHlenOf data + 8 ≤ data.length) (srcIp dstIp : ℕ)
    (payload : List UInt8) : upperBytes srcIp dstIp payload (replyTo data) =
      some ([0, 0] ++ bytes16 (checksumFinalise (replySum data)) ++
        data.drop (ipHlenOf data + 4)) := by
  set send : IcmpSendData := ⟨0, 0, be16 data (ipHlenOf data + 4) * 2 ^ 16 +
    be16 data (ipHlenOf data + 6), data.drop (ipHlenOf data + 8)⟩ with hsend
  set postHdr := bytes16 (be16 data (ipHlenOf data + 4)) ++ bytes16 (be16 data (ipHlenOf data + 6))
    with hpost
  have hbytes : ∀ sum, icmpBytes send postHdr sum =
      [0, 0] ++ bytes16 sum ++ data.drop (ipHlenOf data + 4) := by
    intro sum
    rw [← reply_drop hlen, ← hpost]
    rfl
  have hsum : icmpSum send postHdr = checksumFinalise (replySum data) := by
    have hzero : wordSum ([0, 0] ++ bytes16 0 ++ data.drop (ipHlenOf data + 4)) =
        wordSum (data.drop (ipHlenOf data + 4)) := by
      rw [wordSum_append rfl]
      exact Nat.zero_add _
    rw [icmpSum, checksum_eq_wordSum, hbytes, hzero, replySum]
  have hupper : upperBytes srcIp dstIp payload (replyTo data) =
      (icmpPostHdr 0 (be16 data (ipHlenOf data + 4) * 2 ^ 16 + be16 data (ipHlenOf data + 6))).map
        fun postHdr => icmpBytes send postHdr (icmpSum send postHdr) := rfl
  rw [hupper, icmpPostHdr_reply (be16_lt _ _), ← hpost, Option.map_some, hbytes, hsum]

theorem upperLen_replyTo : (replyTo data).upperLen = 8 + (data.length - (ipHlenOf data + 8)) := by
  rw [← List.length_drop]
  rfl

/-- A checksum over the reply is 0 exactly when the stored one does not make the sum overflow. -/
theorem checksum_reply_iff (data : List UInt8) :
    checksum ([0, 0] ++ bytes16 (checksumFinalise (replySum data)) ++ data.drop (ipHlenOf data + 4)) 0
        ([0, 0] ++ bytes16 (checksumFinalise (replySum data)) ++
          data.drop (ipHlenOf data + 4)).length = 0 ↔
      replySum data + checksumFinalise (replySum data) < 2 ^ 32 := by
  have hword : wordSum ([0, 0] ++ bytes16 (checksumFinalise (replySum data)) ++
      data.drop (ipHlenOf data + 4)) =
        checksumFinalise (replySum data) + wordSum (data.drop (ipHlenOf data + 4)) := by
    rw [wordSum_append (by simp)]
    congr 1
    rw [wordSum_append rfl, wordSum_bytes16, Nat.mod_eq_of_lt (checksumFinalise_lt _)]
    exact Nat.zero_add _
  rw [checksum_eq_wordSum, hword, Nat.add_comm, ← Nat.mod_add_mod]
  exact checksumFinalise_stored_iff (Nat.mod_lt _ (by decide))

theorem sentFrame_noData (host : SendHost) (opts : IpOpts) (heap : ℕ → UInt8) (id dstIp : ℕ)
    (prot : HigherProt) (route : Route) (upper : List UInt8) :
    ∃ front, front.length = 34 ∧
      (sentFrame host opts heap id ⟨true, []⟩ dstIp prot route upper).1 = front ++ upper := by
  refine ⟨frameFront (host.table.ifaces route.iface) opts id
    (arpLookup host (if route.gateway ≠ 0 then route.gateway else dstIp)) dstIp prot
    (0 + prot.upperLen) ((List.range 20).map heap),
    length_frameFront (length_arpLookup host _) (host.macAddr_length _) _ rfl, ?_⟩
  have hnone : ((List.range (frameLen ⟨true, []⟩ prot)).map heap).drop (34 + prot.upperLen) =
      [] := by
    rw [List.drop_eq_nil_iff, List.length_map, List.length_range]
    exact le_rfl
  rw [sentFrame, if_pos rfl, hnone, List.append_nil]
  rfl

theorem replySent_iff (sender : SendHost) (id : ℕ) (h : IsEchoRequest data)
    (hlt : data.length < 2 ^ 32) (hlen : ipHlenOf data + 8 ≤ data.length) :
    ReplySent sender id data (be32 data 12) (be16 data (ipHlenOf data + 4))
        (be16 data (ipHlenOf data + 6)) (data.drop (ipHlenOf data + 8)) ↔
      Refused sender ⟨true, []⟩ (be32 data 12) (replyTo data) ∨
        replySum data + checksumFinalise (replySum data) < 2 ^ 32 := by
  have hheader := h.header
  have hupperLen := @upperLen_replyTo data
  have hfits : (replyTo data).Fits := by
    show (data.drop (ipHlenOf data + 8)).length < 2 ^ 32
    rw [List.length_drop]
    omega
  have hknown : (replyTo data).Known :=
    (isSome_upperBytes 0 0 [] _).mp (by rw [upperBytes_replyTo hlen]; rfl)
  refine (forall_sent_iff hfits (by decide)).trans ?_
  by_cases hrefused : Refused sender ⟨true, []⟩ (be32 data 12) (replyTo data)
  · exact iff_of_true (.inl hrefused) (.inl hrefused)
  -- a reply whose headers wrap would be refused
  have hframe : frameLen ⟨true, []⟩ (replyTo data) < 2 ^ 32 := by
    by_contra hge
    apply hrefused
    unfold Refused
    cases routeLookup sender.table (be32 data 12) with
    | none => trivial
    | some route =>
      refine .inr ⟨?_, by omega⟩
      unfold frameLen at hge
      simpa using hge
  rw [or_iff_right hrefused, or_iff_right hrefused, and_iff_right hframe,
    or_iff_right (not_not.mpr hknown), ← checksum_reply_iff]
  set reply := [0, 0] ++ bytes16 (checksumFinalise (replySum data)) ++
    data.drop (ipHlenOf data + 4) with hreply
  have hsum : ∀ front : List UInt8, front.length = 34 →
      computeChecksum (front ++ reply) 34 ((front ++ reply).length - 34) =
        .ok (checksum reply 0 reply.length) := by
    intro front hfront
    have hmiddle := @computeChecksum_middle front reply []
    rw [List.append_nil, hfront] at hmiddle
    rw [List.length_append, hfront, Nat.add_sub_cancel_left]
    exact hmiddle
  constructor
  · rintro ⟨route, upper, -, -, hupper, hsent⟩
    rw [upperBytes_replyTo hlen] at hupper
    obtain rfl := Option.some.inj hupper
    obtain ⟨front, hfront, hbytes⟩ := sentFrame_noData sender ⟨0, 255, false⟩ (fun _ => 0) id
      (be32 data 12) (replyTo data) route reply
    obtain ⟨-, hcheck⟩ := hsent fun _ => 0
    rw [hbytes, hsum front hfront] at hcheck
    exact Except.ok.inj hcheck
  · intro hcheck
    obtain ⟨route, hroute, hmtu⟩ := exists_route_of_not_refused hrefused hframe
    refine ⟨route, reply, hroute, hmtu, upperBytes_replyTo hlen _ _ _, fun heap => ?_⟩
    obtain ⟨front, hfront, hbytes⟩ := sentFrame_noData sender ⟨0, 255, false⟩ heap id
      (be32 data 12) (replyTo data) route reply
    rw [hbytes, hsum front hfront, hcheck, List.drop_left' hfront]
    exact ⟨⟨_, rfl⟩, rfl⟩

/-- Every accepted echo request is answered with its own bytes exactly when it has a whole header,
and the reply is not sent or its checksum does not overflow. -/
theorem echoMirrored_iff (host : Host) (sender : SendHost) (id : ℕ) (data : List UInt8)
    (h : IsEchoRequest data) (hlt : data.length < 2 ^ 32) :
    EchoMirrored host sender id data ↔ ipHlenOf data + 8 ≤ data.length ∧
      (Refused sender ⟨true, []⟩ (be32 data 12) (replyTo data) ∨
        replySum data + checksumFinalise (replySum data) < 2 ^ 32) := by
  have hhandle := icmpHandlePacket_echo h host
  by_cases hlen : ipHlenOf data + 8 ≤ data.length
  · rw [icmpHandleEchoRequest_eq h hlen] at hhandle
    rw [and_iff_right hlen, ← replySent_iff sender id h hlt hlen]
    constructor
    · rintro ⟨events, hevents, hmirror⟩
      obtain rfl := Except.ok.inj (hhandle.symm.trans hevents)
      exact (hmirror _ _ _ _ List.mem_cons_self).2
    · intro hsent
      refine ⟨_, hhandle, fun dstIp ident seq payload hmem => ?_⟩
      cases List.mem_singleton.mp hmem
      exact ⟨⟨rfl, rfl, rfl, rfl⟩, hsent⟩
  · refine iff_of_false ?_ fun hcond => hlen hcond.1
    rintro ⟨events, hevents, -⟩
    have hinBounds := icmpHandleEchoRequest_inBounds h.header h.inside
    have hok : InBounds (icmpHandleEchoRequest data (ipHlenOf data)) := by
      rw [← hhandle, hevents]
      exact inBounds_ok _
    have hle := hinBounds.mp hok
    omega

end

theorem replySum_lt_of_length {data : List UInt8} (h : data.length < 2 ^ 17) :
    replySum data + checksumFinalise (replySum data) < 2 ^ 32 := by
  have hle := wordSum_le (data.drop (ipHlenOf data + 4))
  have hlt := checksumFinalise_lt (replySum data)
  rw [List.length_drop] at hle
  have hsum : replySum data ≤ wordSum (data.drop (ipHlenOf data + 4)) := Nat.mod_le _ _
  omega

def fromLoopback (icmp : List UInt8) : List UInt8 :=
  [0x45] ++ List.replicate 11 0 ++ [127, 0, 0, 1, 127, 0, 0, 1] ++ icmp

def loHost : Host := ⟨loSender.table, fun _ => false, false, false⟩

/-- A request without payload is answered. -/
theorem echoMirrored_iff_empty :
    EchoMirrored loHost loSender 0 (fromLoopback [8, 0, 0xf7, 0xfc, 0, 1, 0, 2]) :=
  (echoMirrored_iff loHost loSender 0 (fromLoopback [8, 0, 0xf7, 0xfc, 0, 1, 0, 2])
    ⟨⟨by decide, by decide, rfl⟩, by decide⟩ (by decide)).mpr
    ⟨by decide, .inr (replySum_lt_of_length (by decide))⟩

/-- A request of four bytes with a right checksum is accepted, and its identifier and its payload
are looked for behind its end. -/
theorem echoMirrored_short :
    IsEchoRequest (fromLoopback [8, 0, 0xf7, 0xff]) ∧
      icmpHandlePacket loHost (fromLoopback [8, 0, 0xf7, 0xff]) = .error (.outOfBounds 24) ∧
      ¬ EchoMirrored loHost loSender 0 (fromLoopback [8, 0, 0xf7, 0xff]) := by
  have hrequest : IsEchoRequest (fromLoopback [8, 0, 0xf7, 0xff]) :=
    ⟨⟨by decide, by decide, rfl⟩, by decide⟩
  have hfault : icmpHandlePacket loHost (fromLoopback [8, 0, 0xf7, 0xff]) =
      .error (.outOfBounds 24) := by
    rw [icmpHandlePacket_echo hrequest]
    rfl
  refine ⟨hrequest, hfault, ?_⟩
  rintro ⟨events, hevents, -⟩
  rw [hfault] at hevents
  cases hevents

end BrickOS.Networking
