import BrickOS.Networking.Frames

/-! What `send_ip_based_packet` promises of a frame: that its length fields are right and that it is
made of its headers and the payload. Both hold when the lengths fit and the kernel writes the IP
header. -/
namespace BrickOS.Networking
open BrickOS.Lib

def frameLen (usr : UsrData) (prot : HigherProt) : ℕ := 34 + prot.upperLen + usr.data.length

/-- A code is returned before a frame is written: there is no route, the length that is compared
with the MTU is too large, or the ICMP message does not fit below the wrapped length of the
headers. -/
def Refused (host : SendHost) (usr : UsrData) (dstIp : ℕ) (prot : HigherProt) : Prop :=
  match routeLookup host.table dstIp with
  | none => True
  | some route => host.mtu route.iface < frameLen usr prot % 2 ^ 32 ∨
      (2 ^ 32 ≤ 34 + prot.upperLen ∧ prot.upperLen < 2 ^ 32)

/-- `icmp_add_hdr` has a case for the type of message that the kernel sends. -/
def HigherProt.Known : HigherProt → Prop
  | .icmp (some send) => (icmpPostHdr send.icmpType send.mayBeUsed).isSome
  | .icmp none | .udp _ | .other _ _ => True

theorem isSome_upperBytes (srcIp dstIp : ℕ) (payload : List UInt8) (prot : HigherProt) :
    (upperBytes srcIp dstIp payload prot).isSome ↔ prot.Known := by
  cases prot with
  | icmp send =>
    cases send with
    | none => exact ⟨fun _ => trivial, fun _ => rfl⟩
    | some send =>
      dsimp only [upperBytes, HigherProt.Known]
      rw [Option.isSome_map]
  | udp send => exact ⟨fun _ => trivial, fun _ => rfl⟩
  | other protocol h => exact ⟨fun _ => trivial, fun _ => rfl⟩

section
variable {opts : IpOpts} {id dstIp : ℕ} {prot : HigherProt} {usr : UsrData} {host : SendHost}
  {route : Route}

def sentFrame (host : SendHost) (opts : IpOpts) (heap : ℕ → UInt8) (id : ℕ) (usr : UsrData)
    (dstIp : ℕ) (prot : HigherProt) (route : Route) (upper : List UInt8) : List UInt8 × ℕ :=
  (frameFront (host.table.ifaces route.iface) opts id
      (arpLookup host (if route.gateway ≠ 0 then route.gateway else dstIp)) dstIp prot
      (usr.data.length + prot.upperLen) ((List.range 20).map heap) ++ upper ++
    (if usr.null then ((List.range (frameLen usr prot)).map heap).drop (34 + prot.upperLen)
      else usr.data),
    if opts.hdrIncl then 20 else 0)

theorem totalLen_eq (usr : UsrData) (prot : HigherProt) :
    (prot.totalHdrLen + usr.data.length) % 2 ^ 32 = frameLen usr prot % 2 ^ 32 := by
  rw [totalHdrLen_eq, frameLen, Nat.mod_add_mod]

/-- `send_ip_based_packet` behind the check of the MTU. -/
theorem sendFrame_of_route (heap : ℕ → UInt8) (hroute : routeLookup host.table dstIp = some route)
    (hmtu : frameLen usr prot % 2 ^ 32 ≤ host.mtu route.iface) :
    sendFrame host opts heap id usr dstIp prot =
      (fillFrame (host.table.ifaces route.iface) opts id
        (arpLookup host (if route.gateway ≠ 0 then route.gateway else dstIp))
        ((List.range (frameLen usr prot % 2 ^ 32)).map heap) usr dstIp prot >>= fun filled =>
          pure (filled.map fun frame => (route.iface, frame))) := by
  unfold sendFrame
  rw [hroute]
  dsimp only
  rw [totalLen_eq, if_neg (Nat.not_lt.mpr hmtu)]

theorem sendFrame_eq (heap : ℕ → UInt8) (hroute : routeLookup host.table dstIp = some route)
    (hmtu : frameLen usr prot ≤ host.mtu route.iface) (hlt : frameLen usr prot < 2 ^ 32) :
    sendFrame host opts heap id usr dstIp prot =
      .ok ((upperBytes (host.table.ifaces route.iface).ipAddr dstIp usr.data prot).elim
        (.error prot.hdrFailed) fun upper =>
          .ok (route.iface, sentFrame host opts heap id usr dstIp prot route upper)) := by
  have hmod : frameLen usr prot % 2 ^ 32 = frameLen usr prot := Nat.mod_eq_of_lt hlt
  have hlen : ((List.range (frameLen usr prot)).map heap).length =
      34 + prot.upperLen + usr.data.length := by
    rw [List.length_map, List.length_range, frameLen]
  have htake : ((List.range (frameLen usr prot)).map heap).take 20 =
      (List.range 20).map heap := by
    have hmin : min 20 (frameLen usr prot) = 20 := by
      unfold frameLen
      omega
    rw [← List.map_take, List.take_range, hmin]
  rw [sendFrame_of_route heap hroute (by omega), hmod,
    fillFrame_eq (length_arpLookup host _) (host.macAddr_length _)
      (by unfold frameLen at hlt; omega) hlen, ok_bind, htake]
  cases upperBytes (host.table.ifaces route.iface).ipAddr dstIp usr.data prot <;> rfl

theorem sendFrame_refused (heap : ℕ → UInt8) (hfits : prot.Fits)
    (h : Refused host usr dstIp prot) :
    ∃ e, sendFrame host opts heap id usr dstIp prot = .ok (.error e) := by
  unfold Refused at h
  cases hroute : routeLookup host.table dstIp with
  | none =>
    refine ⟨.noRoute, ?_⟩
    rw [sendFrame, hroute]
  | some route =>
    rw [hroute] at h
    dsimp only at h
    by_cases hmtu : host.mtu route.iface < frameLen usr prot % 2 ^ 32
    · refine ⟨.mtuOverstep, ?_⟩
      rw [sendFrame, hroute]
      dsimp only
      rw [totalLen_eq, if_pos hmtu]
      rfl
    · have hlong := h.resolve_left hmtu
      have hfill := @fillFrame_long (host.table.ifaces route.iface) opts id dstIp
        (arpLookup host (if route.gateway ≠ 0 then route.gateway else dstIp)) prot usr
        ((List.range (frameLen usr prot % 2 ^ 32)).map heap) hfits hlong.1
      rw [if_pos hlong.2] at hfill
      refine ⟨.icmpHdrFailed, ?_⟩
      rw [sendFrame_of_route heap hroute (Nat.not_lt.mp hmtu), hfill]
      rfl

theorem sendFrame_wrapped (heap : ℕ → UInt8) (hfits : prot.Fits)
    (hdata : usr.data.length < 2 ^ 32) (h : ¬ Refused host usr dstIp prot)
    (hge : 2 ^ 32 ≤ frameLen usr prot) :
    ∃ e, sendFrame host opts heap id usr dstIp prot = .error e := by
  unfold Refused at h
  cases hroute : routeLookup host.table dstIp with
  | none =>
    rw [hroute] at h
    exact absurd trivial h
  | some route =>
    rw [hroute] at h
    dsimp only at h
    rw [not_or] at h
    set dataBuf := (List.range (frameLen usr prot % 2 ^ 32)).map heap with hdataBuf
    have hlength : dataBuf.length = frameLen usr prot % 2 ^ 32 := by
      rw [hdataBuf, List.length_map, List.length_range]
    have hfill : ∃ e, fillFrame (host.table.ifaces route.iface) opts id
        (arpLookup host (if route.gateway ≠ 0 then route.gateway else dstIp)) dataBuf usr dstIp
        prot = .error e := by
      by_cases hupper : 34 + prot.upperLen < 2 ^ 32
      · apply fillFrame_short (length_arpLookup host _) (host.macAddr_length _) hupper
        rw [hlength]
        unfold frameLen at hge ⊢
        omega
      · have hlong := @fillFrame_long (host.table.ifaces route.iface) opts id dstIp
          (arpLookup host (if route.gateway ≠ 0 then route.gateway else dstIp)) prot usr dataBuf
          hfits (Nat.not_lt.mp hupper)
        rwa [if_neg (by omega)] at hlong
    obtain ⟨e, he⟩ := hfill
    refine ⟨e, ?_⟩
    rw [sendFrame_of_route heap hroute (Nat.not_lt.mp h.1), ← hdataBuf, he]
    rfl

theorem exists_route_of_not_refused (h : ¬ Refused host usr dstIp prot)
    (hlt : frameLen usr prot < 2 ^ 32) : ∃ route, routeLookup host.table dstIp = some route ∧
      frameLen usr prot ≤ host.mtu route.iface := by
  unfold Refused at h
  cases hroute : routeLookup host.table dstIp with
  | none =>
    rw [hroute] at h
    exact absurd trivial h
  | some route =>
    rw [hroute] at h
    dsimp only at h
    rw [not_or, Nat.mod_eq_of_lt hlt] at h
    exact ⟨route, rfl, Nat.not_lt.mp h.1⟩

/-! With a buffer for the user's data this is `send_ip_based_packet` as it stands in `Send`, with the
write offset left out. -/

end

def LengthsExact (host : SendHost) (opts : IpOpts) (id : ℕ) (usr : UsrData) (dstIp : ℕ)
    (prot : HigherProt) : Prop :=
  ∀ heap, ∃ ret, sendFrame host opts heap id usr dstIp prot = .ok ret ∧
    ∀ iface frame off, ret = .ok (iface, frame, off) →
      frameLen usr prot ≤ host.mtu iface ∧
      be16 frame 16 = frameLen usr prot - 14 ∧
      ∀ send, prot = .udp send → be16 frame 38 = 8 + usr.data.length

def FrameWhole (host : SendHost) (opts : IpOpts) (id : ℕ) (usr : UsrData) (dstIp : ℕ)
    (prot : HigherProt) : Prop :=
  ∀ heap, ∃ ret, sendFrame host opts heap id usr dstIp prot = .ok ret ∧
    ∀ iface frame off, ret = .ok (iface, frame, off) →
      off = 0 ∧ ∃ route upper, routeLookup host.table dstIp = some route ∧ route.iface = iface ∧
        upperBytes (host.table.ifaces iface).ipAddr dstIp usr.data prot = some upper ∧
        frame = ethHdrBytes (host.table.ifaces iface)
            (arpLookup host (if route.gateway ≠ 0 then route.gateway else dstIp)) ++
          -- a user that brings the IP header along has it in front of the data
          (if opts.hdrIncl then [] else ipHdr (host.table.ifaces iface) opts id dstIp prot
            (usr.data.length + prot.upperLen)) ++ upper ++ usr.data

section
variable {opts : IpOpts} {id dstIp : ℕ} {prot : HigherProt} {usr : UsrData} {host : SendHost}
  {route : Route}

/-! The fields of a frame that is sent. -/

theorem totalLength_sentFrame (heap : ℕ → UInt8) (hincl : opts.hdrIncl = false)
    (upper : List UInt8) :
    be16 (sentFrame host opts heap id usr dstIp prot route upper).1 16 =
      (frameLen usr prot - 14) % 2 ^ 16 := by
  set eth := ethHdrBytes (host.table.ifaces route.iface)
    (arpLookup host (if route.gateway ≠ 0 then route.gateway else dstIp)) with heth
  have hpos : 16 = eth.length + 2 := by
    simp [heth, ethHdrBytes, length_arpLookup, host.macAddr_length]
  have hlen : frameLen usr prot - 14 = 20 + (usr.data.length + prot.upperLen) := by
    unfold frameLen
    omega
  rw [sentFrame, frameFront, ← heth, hincl, if_neg (by decide), hlen]
  simp only [List.append_assoc]
  refine (congrArg (be16 _) hpos).trans ((be16_append_right eth _ 2).trans ?_)
  unfold ipHdr ipHdrBytes
  simp only [List.append_assoc]
  exact (be16_append_right [_, _] _ 0).trans (be16_bytes16 _ _)

theorem udpLength_sentFrame (heap : ℕ → UInt8) (send : UdpSendData) {sum : ℕ} :
    be16 (sentFrame host opts heap id usr dstIp prot route
      (udpHdrBytes send.srcPort send.dstPort usr.data.length sum)).1 38 =
      (8 + usr.data.length) % 2 ^ 16 := by
  set front := frameFront (host.table.ifaces route.iface) opts id
      (arpLookup host (if route.gateway ≠ 0 then route.gateway else dstIp)) dstIp prot
      (usr.data.length + prot.upperLen) ((List.range 20).map heap) with hfront
  have hlen : front.length = 34 :=
    length_frameFront (length_arpLookup host _) (host.macAddr_length _) _ rfl
  rw [sentFrame, ← hfront]
  simp only [List.append_assoc]
  rw [show 38 = front.length + 4 by rw [hlen], be16_append_right]
  unfold udpHdrBytes
  simp only [List.append_assoc]
  exact (be16_append_right (bytes16 _) _ 2).trans
    ((be16_append_right (bytes16 _) _ 0).trans (be16_bytes16 _ _))

theorem totalLength_sentFrame_hdrIncl (hincl : opts.hdrIncl = true) (upper : List UInt8) :
    be16 (sentFrame host opts (fun _ => 0) id usr dstIp prot route upper).1 16 = 0 := by
  rw [sentFrame, frameFront, hincl, if_pos rfl]
  simp only [List.append_assoc]
  rw [be16_append_left (by decide)]
  rfl

/-- What holds of all that is sent, when it holds. -/
theorem forall_sent_iff {P : ℕ → List UInt8 → ℕ → Prop} (hfits : prot.Fits)
    (hdata : usr.data.length < 2 ^ 32) :
    (∀ heap, ∃ ret, sendFrame host opts heap id usr dstIp prot = .ok ret ∧
      ∀ iface frame off, ret = .ok (iface, frame, off) → P iface frame off) ↔
    Refused host usr dstIp prot ∨ (frameLen usr prot < 2 ^ 32 ∧ (¬ prot.Known ∨
      ∃ route upper, routeLookup host.table dstIp = some route ∧
        frameLen usr prot ≤ host.mtu route.iface ∧
        upperBytes (host.table.ifaces route.iface).ipAddr dstIp usr.data prot = some upper ∧
        ∀ heap, P route.iface (sentFrame host opts heap id usr dstIp prot route upper).1
          (sentFrame host opts heap id usr dstIp prot route upper).2)) := by
  by_cases hrefused : Refused host usr dstIp prot
  · refine ⟨fun _ => .inl hrefused, fun _ heap => ?_⟩
    obtain ⟨e, he⟩ := @sendFrame_refused opts id dstIp prot usr host heap hfits hrefused
    exact ⟨.error e, he, fun _ _ _ h => nomatch h⟩
  by_cases hlt : frameLen usr prot < 2 ^ 32
  · obtain ⟨route, hroute, hmtu⟩ := exists_route_of_not_refused hrefused hlt
    have hsend := fun heap => @sendFrame_eq opts id dstIp prot usr host route heap hroute hmtu hlt
    have hknown := isSome_upperBytes (host.table.ifaces route.iface).ipAddr dstIp usr.data prot
    cases hupper : upperBytes (host.table.ifaces route.iface).ipAddr dstIp usr.data prot with
    | none =>
      rw [hupper] at hsend hknown
      refine ⟨fun _ => .inr ⟨hlt, .inl fun h => nomatch hknown.mpr h⟩, fun _ heap => ?_⟩
      exact ⟨_, hsend heap, fun _ _ _ h => nomatch h⟩
    | some upper =>
      rw [hupper] at hsend hknown
      constructor
      · intro h
        refine .inr ⟨hlt, .inr ⟨route, upper, hroute, hmtu, hupper, fun heap => ?_⟩⟩
        obtain ⟨ret, hret, hP⟩ := h heap
        exact hP _ _ _ (Except.ok.inj ((hsend heap).symm.trans hret)).symm
      · intro h heap
        obtain ⟨-, h⟩ := h.resolve_left hrefused
        obtain ⟨route', upper', hroute', -, hupper', hP⟩ :=
          h.resolve_left (not_not.mpr (hknown.mp rfl))
        obtain rfl := Option.some.inj (hroute.symm.trans hroute')
        obtain rfl := Option.some.inj (hupper.symm.trans hupper')
        refine ⟨_, hsend heap, fun iface frame off hret => ?_⟩
        cases hret
        exact hP heap
  · constructor
    · intro h
      obtain ⟨e, he⟩ := @sendFrame_wrapped opts id dstIp prot usr host (fun _ => 0) hfits hdata
        hrefused (Nat.not_lt.mp hlt)
      obtain ⟨ret, hret, -⟩ := h fun _ => 0
      rw [he] at hret
      cases hret
    · intro h
      exact absurd (h.resolve_left hrefused).1 hlt

/-- A property of all that is sent that does not depend on the route and the upper header. -/
theorem sent_iff {P : ℕ → List UInt8 → ℕ → Prop} {Q : Prop} (hfits : prot.Fits)
    (hdata : usr.data.length < 2 ^ 32)
    (h : ∀ route upper, routeLookup host.table dstIp = some route →
      frameLen usr prot ≤ host.mtu route.iface →
      upperBytes (host.table.ifaces route.iface).ipAddr dstIp usr.data prot = some upper →
      ((∀ heap, P route.iface (sentFrame host opts heap id usr dstIp prot route upper).1
        (sentFrame host opts heap id usr dstIp prot route upper).2) ↔ Q)) :
    (∀ heap, ∃ ret, sendFrame host opts heap id usr dstIp prot = .ok ret ∧
      ∀ iface frame off, ret = .ok (iface, frame, off) → P iface frame off) ↔
    Refused host usr dstIp prot ∨ (frameLen usr prot < 2 ^ 32 ∧ (¬ prot.Known ∨ Q)) := by
  rw [forall_sent_iff hfits hdata]
  by_cases hrefused : Refused host usr dstIp prot
  · exact iff_of_true (.inl hrefused) (.inl hrefused)
  refine or_congr_right (and_congr_right fun hlt => ?_)
  by_cases hknown : prot.Known
  swap
  · exact iff_of_true (.inl hknown) (.inl hknown)
  refine or_congr_right ⟨?_, fun hQ => ?_⟩
  · rintro ⟨route, upper, hroute, hmtu, hupper, hP⟩
    exact (h route upper hroute hmtu hupper).mp hP
  · obtain ⟨route, hroute, hmtu⟩ := exists_route_of_not_refused hrefused hlt
    obtain ⟨upper, hupper⟩ := Option.isSome_iff_exists.mp ((isSome_upperBytes
      (host.table.ifaces route.iface).ipAddr dstIp usr.data prot).mpr hknown)
    exact ⟨route, upper, hroute, hmtu, hupper, (h route upper hroute hmtu hupper).mpr hQ⟩

/-- The lengths are right exactly when nothing is sent, or the length of the packet fits in 16 bits
and the kernel writes its header. -/
theorem lengthsExact_iff (host : SendHost) (opts : IpOpts) (id : ℕ) (usr : UsrData) (dstIp : ℕ)
    (prot : HigherProt) (hfits : prot.Fits) (hdata : usr.data.length < 2 ^ 32) :
    LengthsExact host opts id usr dstIp prot ↔ Refused host usr dstIp prot ∨
      (frameLen usr prot < 2 ^ 32 ∧
        (¬ prot.Known ∨ (opts.hdrIncl = false ∧ frameLen usr prot - 14 < 2 ^ 16))) := by
  refine sent_iff hfits hdata fun route upper hroute hmtu hupper => ⟨fun hP => ?_, ?_⟩
  · obtain ⟨-, hlength, -⟩ := hP fun _ => 0
    cases hincl : opts.hdrIncl with
    | true =>
      rw [totalLength_sentFrame_hdrIncl hincl] at hlength
      unfold frameLen at hlength
      omega
    | false =>
      rw [totalLength_sentFrame _ hincl] at hlength
      exact ⟨rfl, by omega⟩
  · rintro ⟨hincl, hlength⟩
    refine fun heap => ⟨hmtu, ?_, ?_⟩
    · rw [totalLength_sentFrame heap hincl, Nat.mod_eq_of_lt hlength]
    · rintro send rfl
      cases hupper
      have hshort : 8 + usr.data.length < 2 ^ 16 := by
        dsimp only [frameLen, HigherProt.upperLen] at hlength
        omega
      rw [udpLength_sentFrame, Nat.mod_eq_of_lt hshort]

end

def loSender : SendHost where
  table := ⟨[⟨0x7f000001, 0xffffffff, 0, 0⟩], fun _ => ⟨List.replicate 6 0, 0x7f000001⟩⟩
  mtu := fun _ => 2 ^ 32 - 1
  cachedMac := fun _ _ => Vector.replicate 6 0
  ipAddr_lt := fun _ => (by decide : 0x7f000001 < 2 ^ 32)
  macAddr_length := fun _ => rfl

def clientToServer : HigherProt := .udp ⟨68, 67, by decide, by decide⟩

theorem routeLookup_loSender :
    routeLookup loSender.table 0x7f000001 = some ⟨0x7f000001, 0xffffffff, 0, 0⟩ := by
  decide

theorem lengthsExact_iff_three_bytes :
    LengthsExact loSender ⟨0, 64, false⟩ 0 ⟨false, [1, 2, 3]⟩ 0x7f000001 clientToServer :=
  (lengthsExact_iff loSender ⟨0, 64, false⟩ 0 ⟨false, [1, 2, 3]⟩ 0x7f000001 clientToServer trivial
    (by decide)).mpr (.inr ⟨by decide, .inr ⟨rfl, by decide⟩⟩)

/-- The length fields of what is sent over the loopback interface. -/
theorem sendFrame_loSender (heap : ℕ → UInt8) {payload : List UInt8}
    (hlen : payload.length < 2 ^ 32 - 42) :
    ∃ frame, sendFrame loSender ⟨0, 64, false⟩ heap 0 ⟨false, payload⟩ 0x7f000001 clientToServer =
        .ok (.ok (0, frame, 0)) ∧
      be16 frame 16 = (28 + payload.length) % 2 ^ 16 ∧
      be16 frame 38 = (8 + payload.length) % 2 ^ 16 := by
  have hframe : frameLen ⟨false, payload⟩ clientToServer = 42 + payload.length := rfl
  have hmtu : loSender.mtu 0 = 2 ^ 32 - 1 := rfl
  have hsend := @sendFrame_eq ⟨0, 64, false⟩ 0 0x7f000001 clientToServer ⟨false, payload⟩ loSender _
    heap routeLookup_loSender (by rw [hframe, hmtu]; omega) (by rw [hframe]; omega)
  refine ⟨_, hsend, ?_, udpLength_sentFrame heap _⟩
  have htotal : frameLen ⟨false, payload⟩ clientToServer - 14 = 28 + payload.length := by
    rw [hframe]
    omega
  rw [← htotal]
  exact totalLength_sentFrame heap rfl _

theorem not_lengthsExact_loSender {payload : List UInt8} (hlen : payload.length < 2 ^ 32 - 42)
    (hlong : 2 ^ 16 ≤ 28 + payload.length) :
    ¬ LengthsExact loSender ⟨0, 64, false⟩ 0 ⟨false, payload⟩ 0x7f000001 clientToServer := by
  intro hexact
  obtain ⟨ret, hret, hlengths⟩ := hexact fun _ => 0
  obtain ⟨frame, hsend, hfield, -⟩ := sendFrame_loSender (fun _ => 0) hlen
  have htotal := (hlengths _ _ _ (Except.ok.inj (hret.symm.trans hsend))).2.1
  have hframe : frameLen ⟨false, payload⟩ clientToServer = 42 + payload.length := rfl
  omega

/-- A datagram of 70000 bytes passes the MTU of the loopback interface, and both its length fields
are cut to 16 bits. -/
theorem lengthsExact_datagram_long :
    ¬ LengthsExact loSender ⟨0, 64, false⟩ 0 ⟨false, List.replicate 70000 0⟩ 0x7f000001
      clientToServer ∧
    ∀ heap, ∃ frame, sendFrame loSender ⟨0, 64, false⟩ heap 0 ⟨false, List.replicate 70000 0⟩
        0x7f000001 clientToServer = .ok (.ok (0, frame, 0)) ∧
      be16 frame 16 = 4492 ∧ be16 frame 38 = 4472 := by
  have hlen : (List.replicate 70000 (0 : UInt8)).length = 70000 := List.length_replicate
  refine ⟨not_lengthsExact_loSender (by omega) (by omega), fun heap => ?_⟩
  obtain ⟨frame, hsend, htotal, hudp⟩ :=
    @sendFrame_loSender heap (List.replicate 70000 0) (by omega)
  exact ⟨frame, hsend, by omega, by omega⟩

theorem drop_heap (b : UInt8) (usr : UsrData) (prot : HigherProt) :
    ((List.range (frameLen usr prot)).map fun _ => b).drop (34 + prot.upperLen) =
      List.replicate usr.data.length b := by
  rw [List.map_const', List.length_range, List.drop_replicate, frameLen, Nat.add_sub_cancel_left]

/-- A frame is made of its headers and the payload exactly when nothing is sent, or the lengths fit,
the kernel writes the IP header and there is a buffer to copy the payload from. -/
theorem frameWhole_iff (host : SendHost) (opts : IpOpts) (id : ℕ) (usr : UsrData) (dstIp : ℕ)
    (prot : HigherProt) (hfits : prot.Fits) (hdata : usr.data.length < 2 ^ 32) :
    FrameWhole host opts id usr dstIp prot ↔ Refused host usr dstIp prot ∨
      (frameLen usr prot < 2 ^ 32 ∧
        (¬ prot.Known ∨ (opts.hdrIncl = false ∧ (usr.null = false ∨ usr.data = [])))) := by
  refine sent_iff hfits hdata fun route upper hroute hmtu hupper => ⟨fun hP => ?_, ?_⟩
  · have hincl : opts.hdrIncl = false := by
      obtain ⟨hoff, -⟩ := hP fun _ => 0
      cases hincl : opts.hdrIncl with
      | true =>
        rw [sentFrame, hincl] at hoff
        cases hoff
      | false => rfl
    refine ⟨hincl, ?_⟩
    cases hnull : usr.null with
    | false => exact .inl rfl
    | true =>
      -- the payload's place keeps the heap's bytes, so two heaps give two payloads
      have hkeeps : ∀ b : UInt8, List.replicate usr.data.length b = usr.data := by
        intro b
        obtain ⟨-, route', upper', -, -, -, hframe⟩ := hP fun _ => b
        rw [sentFrame, hnull, if_pos rfl, drop_heap] at hframe
        exact List.append_inj_right' hframe List.length_replicate
      have hzero : usr.data.length = 0 := by
        have hboth := (hkeeps 0).trans (hkeeps 1).symm
        rw [List.replicate_inj] at hboth
        exact hboth.2.resolve_right (by decide)
      exact .inr (List.length_eq_zero_iff.mp hzero)
  · rintro ⟨hincl, hbuffer⟩ heap
    have hpayload : (if usr.null then
        ((List.range (frameLen usr prot)).map heap).drop (34 + prot.upperLen)
        else usr.data) = usr.data := by
      split_ifs with hnull
      · have hempty : usr.data = [] := hbuffer.resolve_left (by rw [hnull]; decide)
        rw [hempty, List.drop_eq_nil_iff, List.length_map, List.length_range, frameLen, hempty]
        exact le_rfl
      · rfl
    rw [sentFrame, hpayload, frameFront, hincl]
    exact ⟨rfl, route, upper, hroute, rfl, hupper, rfl⟩

theorem frameWhole_iff_three_bytes :
    FrameWhole loSender ⟨0, 64, false⟩ 0 ⟨false, [1, 2, 3]⟩ 0x7f000001 clientToServer :=
  (frameWhole_iff loSender ⟨0, 64, false⟩ 0 ⟨false, [1, 2, 3]⟩ 0x7f000001 clientToServer trivial
    (by decide)).mpr (.inr ⟨by decide, .inr ⟨rfl, .inl rfl⟩⟩)

/-- A raw socket whose user brings the IP header along: 20 bytes of the heap are sent in front of
the Ethernet header. -/
theorem frameWhole_hdrIncl :
    ¬ FrameWhole loSender ⟨0, 64, true⟩ 0 ⟨false, List.replicate 20 0x45⟩ 0x7f000001
      (.other 255 (by decide)) ∧
    ∀ heap, sendFrame loSender ⟨0, 64, true⟩ heap 0 ⟨false, List.replicate 20 0x45⟩
        0x7f000001 (.other 255 (by decide)) =
      .ok (.ok (0, (List.range 20).map heap ++
        ethHdrBytes (loSender.table.ifaces 0) (List.replicate 6 0) ++ List.replicate 20 0x45,
        20)) := by
  have hsend : ∀ heap, sendFrame loSender ⟨0, 64, true⟩ heap 0 ⟨false, List.replicate 20 0x45⟩
        0x7f000001 (.other 255 (by decide)) =
      .ok (.ok (0, (List.range 20).map heap ++
        ethHdrBytes (loSender.table.ifaces 0) (List.replicate 6 0) ++ List.replicate 20 0x45,
        20)) := fun heap =>
    @sendFrame_eq ⟨0, 64, true⟩ 0 0x7f000001 (.other 255 (by decide))
      ⟨false, List.replicate 20 0x45⟩ loSender _ heap routeLookup_loSender (by decide) (by decide)
  refine ⟨fun hwhole => ?_, hsend⟩
  obtain ⟨ret, hret, hparts⟩ := hwhole fun _ => 0
  have hoff := (hparts _ _ _ (Except.ok.inj (hret.symm.trans (hsend _)))).1
  exact absurd hoff (by decide)

end BrickOS.Networking
