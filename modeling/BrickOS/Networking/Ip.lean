import BrickOS.Lib.Run
import BrickOS.Networking.Checksum
import BrickOS.Networking.Routing
import Mathlib.Data.List.Perm.Subperm
import Mathlib.Data.List.Induction
import Mathlib.Algebra.Order.BigOperators.Group.List

/-! Incoming IPv4 packets and the reassembly of fragmented ones. -/
namespace BrickOS.Networking
open BrickOS.Lib

structure Ipv4PacketPart where
  noMoreFrags : Bool
  ident : ℕ
  fragOffset : ℕ
  dataLen : ℕ
  protocol : ℕ
  data : List UInt8
deriving DecidableEq, Repr

/-- `ipv4_ll_link_t`. A link is made with a first part in it and no part is taken out of it. -/
structure Ipv4LlLink where
  parts : List Ipv4PacketPart
  timeout : ℕ
  parts_ne : parts ≠ []

def ipPacketTimeout : ℕ := 15

def Ipv4LlLink.ident (l : Ipv4LlLink) : ℕ := (l.parts.head l.parts_ne).ident

def createPacketPartIdent (srcIp ident protocol : ℕ) : ℕ :=
  srcIp ||| ident <<< 32 ||| protocol <<< 48

def findIpv4PacketStartLink (links : List Ipv4LlLink) (ident : ℕ) : Option Ipv4LlLink :=
  links.find? fun l => l.ident == ident

def insertPart (part : Ipv4PacketPart) : List Ipv4PacketPart → List Ipv4PacketPart
  | [] => [part]
  | p :: ps => if p.fragOffset < part.fragOffset then p :: insertPart part ps else part :: p :: ps

theorem insertPart_ne_nil (part : Ipv4PacketPart) (ps : List Ipv4PacketPart) :
    insertPart part ps ≠ [] := by
  cases ps with
  | nil => simp [insertPart]
  | cons p ps =>
    unfold insertPart
    split_ifs <;> simp

def Ipv4LlLink.insert (l : Ipv4LlLink) (part : Ipv4PacketPart) : Ipv4LlLink :=
  ⟨insertPart part l.parts, l.timeout, insertPart_ne_nil part l.parts⟩

def insertIpv4PacketPart (part : Ipv4PacketPart) : List Ipv4LlLink → List Ipv4LlLink
  | [] => [⟨[part], ipPacketTimeout, by simp⟩]
  | l :: ls =>
    if l.ident = part.ident then l.insert part :: ls else l :: insertIpv4PacketPart part ls

/-- The loop of `ipv4_packet_complete`: the offset expected behind the last part, if every part
starts where the one before it is expected to end. -/
def expectedOffset : ℕ → List Ipv4PacketPart → Option ℕ
  | e, [] => some e
  | e, p :: ps => if p.fragOffset * 8 ≠ e then none else expectedOffset (e + p.dataLen) ps

/-- `ipv4_packet_complete` on the parts of a link. -/
def partsComplete (parts : List Ipv4PacketPart) : Bool :=
  match expectedOffset 0 parts, parts.getLast? with
  | some e, some last => last.noMoreFrags && e == last.fragOffset * 8 + last.dataLen
  | _, _ => false

def ipv4PacketComplete (links : List Ipv4LlLink) (part : Ipv4PacketPart) : Bool :=
  (findIpv4PacketStartLink links part.ident).any fun l => partsComplete l.parts

/-- The packet that `unify_ip_packet` builds. The size it counts and returns leaves out the last
part, whose bytes are written behind the buffer. -/
def unifiedData (parts : List Ipv4PacketPart) : List UInt8 :=
  (parts.flatMap Ipv4PacketPart.data).take (parts.dropLast.map Ipv4PacketPart.dataLen).sum

def unifyIpPacket (links : List Ipv4LlLink) (part : Ipv4PacketPart) :
    Option (List Ipv4LlLink × List UInt8) :=
  (findIpv4PacketStartLink links part.ident).map fun l =>
    (links.eraseP fun l => l.ident == part.ident, unifiedData l.parts)

structure HandedPacket where
  data : List UInt8
  protocol : ℕ
deriving DecidableEq, Repr

def storePart (links : List Ipv4LlLink) (part : Ipv4PacketPart) :
    List Ipv4LlLink × Option HandedPacket :=
  let links := insertIpv4PacketPart part links
  if ipv4PacketComplete links part then
    match unifyIpPacket links part with
    | some (links, data) => (links, some ⟨data, part.protocol⟩)
    | none => (links, none)
  else (links, none)

def isForMe (table : RoutingTable) (srcIp dstIp : ℕ) : Bool :=
  dstIp == ipBroadcastAddress || dstIp == loopbackAddr ||
    (routeLookup table srcIp).any fun route => dstIp == (table.ifaces route.iface).ipAddr

structure Ipv4Packet where
  srcIp : ℕ
  hdrLen : ℕ
  totalPacketPartLength : ℕ
  ident : ℕ
  flagsFragOff : ℕ
  protocol : ℕ
deriving DecidableEq, Repr

def Ipv4Packet.fragOff (p : Ipv4Packet) : ℕ := p.flagsFragOff % 2 ^ 13

def Ipv4Packet.moreFragments (p : Ipv4Packet) : Bool := p.flagsFragOff / 2 ^ 13 % 2 == 1

def Ipv4Packet.Unfragmented (p : Ipv4Packet) : Prop := p.moreFragments = false ∧ p.fragOff = 0

def ipv4MaxPacketSize : ℕ := 65535

/-- The checks at the head of `ip_handle_packet`, in their order; `none` when the packet is
dropped. `total_len` is the length of the frame. -/
def ipCheckHeader (table : RoutingTable) (data : List UInt8) (writeOff : ℕ) :
    Except Fault (Option Ipv4Packet) := do
  let versionIhl ← readByte data writeOff
  if versionIhl / 2 ^ 4 ≠ 4 then return none
  let srcIp ← readBe32 data (writeOff + 12)
  let dstIp ← readBe32 data (writeOff + 16)
  if !isForMe table srcIp dstIp then return none
  let hdrLen := versionIhl % 2 ^ 4 * 4
  if hdrLen < 5 * 4 then return none
  if data.length < writeOff + hdrLen then return none
  let totalPacketPartLength ← readBe16 data (writeOff + 2)
  if totalPacketPartLength < hdrLen then return none
  if data.length < writeOff + totalPacketPartLength then return none
  let sum ← computeChecksum data writeOff hdrLen
  if sum ≠ 0 then return none
  let flagsFragOff ← readBe16 data (writeOff + 6)
  let ident ← readBe16 data (writeOff + 4)
  let postHdrDataLen ← subLen totalPacketPartLength hdrLen
  if flagsFragOff % 2 ^ 13 * 8 + postHdrDataLen > ipv4MaxPacketSize then return none
  let protocol ← readByte data (writeOff + 9)
  return some ⟨srcIp, hdrLen, totalPacketPartLength, ident, flagsFragOff, protocol⟩

/-- The part that `ip_handle_packet` makes of a fragment: the header is copied along with the data
of the first one. -/
def Ipv4Packet.part (p : Ipv4Packet) (bytes : List UInt8) : Ipv4PacketPart where
  noMoreFrags := !p.moreFragments
  ident := createPacketPartIdent p.srcIp p.ident p.protocol
  fragOffset := p.fragOff
  dataLen := bytes.length
  protocol := p.protocol
  data := bytes

def ipHandlePacket (table : RoutingTable) (links : List Ipv4LlLink) (data : List UInt8)
    (writeOff : ℕ) : Except Fault (List Ipv4LlLink × Option HandedPacket) := do
  match ← ipCheckHeader table data writeOff with
  | none => return (links, none)
  | some p =>
    let postHdrDataLen := p.totalPacketPartLength - p.hdrLen
    if !p.moreFragments && p.fragOff == 0 then
      return (links, some ⟨(data.drop writeOff).take p.totalPacketPartLength, p.protocol⟩)
    else if p.fragOff = 0 then
      let bytes ← readBytes data writeOff (postHdrDataLen + p.hdrLen)
      return storePart links (p.part bytes)
    else
      let bytes ← readBytes data (writeOff + p.hdrLen) postHdrDataLen
      return storePart links (p.part bytes)

def ipFields (data : List UInt8) (writeOff : ℕ) : Ipv4Packet where
  srcIp := be32 data (writeOff + 12)
  hdrLen := byteAt data writeOff % 2 ^ 4 * 4
  totalPacketPartLength := be16 data (writeOff + 2)
  ident := be16 data (writeOff + 4)
  flagsFragOff := be16 data (writeOff + 6)
  protocol := byteAt data (writeOff + 9)

structure IpAccepts (table : RoutingTable) (data : List UInt8) (writeOff : ℕ) (p : Ipv4Packet) :
    Prop where
  version : byteAt data writeOff / 2 ^ 4 = 4
  forMe : isForMe table p.srcIp (be32 data (writeOff + 16)) = true
  min_hdrLen : 5 * 4 ≤ p.hdrLen
  hdrLen_le : writeOff + p.hdrLen ≤ data.length
  hdrLen_le_total : p.hdrLen ≤ p.totalPacketPartLength
  total_le : writeOff + p.totalPacketPartLength ≤ data.length
  checksum : checksum data writeOff p.hdrLen = 0
  size_le : p.fragOff * 8 + (p.totalPacketPartLength - p.hdrLen) ≤ ipv4MaxPacketSize

/-- A frame that holds a whole header is checked without a fault. -/
theorem ipCheckHeader_cases (table : RoutingTable) {data : List UInt8} {writeOff : ℕ}
    (h : writeOff + 20 ≤ data.length) :
    (IpAccepts table data writeOff (ipFields data writeOff) ∧
        ipCheckHeader table data writeOff = .ok (some (ipFields data writeOff))) ∨
      (¬ IpAccepts table data writeOff (ipFields data writeOff) ∧
        ipCheckHeader table data writeOff = .ok none) := by
  obtain ⟨p, hp⟩ : ∃ p, p = ipFields data writeOff := ⟨_, rfl⟩
  have hsrc : be32 data (writeOff + 12) = p.srcIp := by rw [hp]; rfl
  have hhdr : byteAt data writeOff % 2 ^ 4 * 4 = p.hdrLen := by rw [hp]; rfl
  have htotal : be16 data (writeOff + 2) = p.totalPacketPartLength := by rw [hp]; rfl
  have hfrag : be16 data (writeOff + 6) % 2 ^ 13 = p.fragOff := by rw [hp]; rfl
  unfold ipCheckHeader
  rw [readByte_of_lt (by omega), readBe32_of_lt (by omega), readBe32_of_lt (by omega),
    readBe16_of_lt (by omega), readBe16_of_lt (by omega), readBe16_of_lt (by omega),
    readByte_of_lt (by omega), ← hp]
  simp only [ok_bind, hsrc, hhdr, htotal, hfrag]
  -- the guards one after the other: one that fails drops the packet
  by_cases h1 : byteAt data writeOff / 2 ^ 4 = 4
  swap
  · exact .inr ⟨fun ha => h1 ha.version, if_pos h1⟩
  rw [if_neg (not_not.mpr h1)]
  by_cases h2 : isForMe table p.srcIp (be32 data (writeOff + 16)) = true
  swap
  · exact .inr ⟨fun ha => h2 ha.forMe, if_pos (by simp [h2])⟩
  rw [if_neg (by simp [h2])]
  by_cases h3 : p.hdrLen < 5 * 4
  · exact .inr ⟨fun ha => absurd ha.min_hdrLen (by omega), if_pos h3⟩
  rw [if_neg h3]
  by_cases h4 : data.length < writeOff + p.hdrLen
  · exact .inr ⟨fun ha => absurd ha.hdrLen_le (by omega), if_pos h4⟩
  rw [if_neg h4]
  by_cases h5 : p.totalPacketPartLength < p.hdrLen
  · exact .inr ⟨fun ha => absurd ha.hdrLen_le_total (by omega), if_pos h5⟩
  rw [if_neg h5]
  by_cases h6 : data.length < writeOff + p.totalPacketPartLength
  · exact .inr ⟨fun ha => absurd ha.total_le (by omega), if_pos h6⟩
  rw [if_neg h6, computeChecksum_of_le (by omega), ok_bind]
  by_cases h7 : checksum data writeOff p.hdrLen = 0
  swap
  · exact .inr ⟨fun ha => h7 ha.checksum, if_pos h7⟩
  rw [if_neg (not_not.mpr h7), subLen_of_le (by omega), ok_bind]
  by_cases h8 : p.fragOff * 8 + (p.totalPacketPartLength - p.hdrLen) > ipv4MaxPacketSize
  · exact .inr ⟨fun ha => absurd ha.size_le (by omega), if_pos h8⟩
  rw [if_neg h8]
  exact .inl ⟨⟨h1, h2, by omega, by omega, by omega, by omega, h7, by omega⟩, by rw [hp]; rfl⟩

def ipPart (data : List UInt8) (writeOff : ℕ) : Ipv4PacketPart :=
  let p := ipFields data writeOff
  let hdrLen := if p.fragOff = 0 then 0 else p.hdrLen
  p.part ((data.drop (writeOff + hdrLen)).take (p.totalPacketPartLength - hdrLen))

def handedWhole (data : List UInt8) (writeOff : ℕ) : HandedPacket where
  data := (data.drop writeOff).take (ipFields data writeOff).totalPacketPartLength
  protocol := (ipFields data writeOff).protocol

/-- What becomes of a frame that holds a whole header. -/
theorem ipHandlePacket_cases (table : RoutingTable) (links : List Ipv4LlLink) {data : List UInt8}
    {writeOff : ℕ} (h : writeOff + 20 ≤ data.length) :
    (¬ IpAccepts table data writeOff (ipFields data writeOff) ∧
        ipHandlePacket table links data writeOff = .ok (links, none)) ∨
      (IpAccepts table data writeOff (ipFields data writeOff) ∧
        (ipFields data writeOff).Unfragmented ∧
        ipHandlePacket table links data writeOff = .ok (links, some (handedWhole data writeOff))) ∨
      (IpAccepts table data writeOff (ipFields data writeOff) ∧
        ¬ (ipFields data writeOff).Unfragmented ∧
        ipHandlePacket table links data writeOff = .ok (storePart links (ipPart data writeOff))) := by
  unfold ipHandlePacket
  rcases ipCheckHeader_cases table h with ⟨ha, hc⟩ | ⟨hn, hc⟩
  swap
  · exact .inl ⟨hn, by rw [hc]; rfl⟩
  rw [hc]
  simp only [ok_bind, ipPart, handedWhole]
  obtain ⟨p, hp⟩ : ∃ p, p = ipFields data writeOff := ⟨_, rfl⟩
  rw [← hp] at ha ⊢
  have hle := ha.hdrLen_le_total
  have htotal := ha.total_le
  by_cases hun : p.Unfragmented
  · exact .inr (.inl ⟨ha, hun, if_pos (by simp [hun.1, hun.2])⟩)
  refine .inr (.inr ⟨ha, hun, ?_⟩)
  rw [if_neg (by simpa [Ipv4Packet.Unfragmented] using hun)]
  by_cases hf : p.fragOff = 0
  · rw [if_pos hf, if_pos hf, readBytes_of_le (by omega), Nat.sub_add_cancel hle]
    rfl
  · rw [if_neg hf, if_neg hf, readBytes_of_le (by omega)]
    rfl

def partsOf (links : List Ipv4LlLink) (key : ℕ) : List Ipv4PacketPart :=
  (findIpv4PacketStartLink links key).elim [] Ipv4LlLink.parts

def DistinctKeys (links : List Ipv4LlLink) : Prop := (links.map Ipv4LlLink.ident).Nodup

theorem insertPart_perm (part : Ipv4PacketPart) (ps : List Ipv4PacketPart) :
    (insertPart part ps).Perm (part :: ps) := by
  induction ps with
  | nil => exact List.Perm.refl _
  | cons p ps ih =>
    unfold insertPart
    split_ifs
    · exact (ih.cons p).trans (List.Perm.swap part p ps)
    · exact List.Perm.refl _

theorem Ipv4LlLink.insert_ident {part : Ipv4PacketPart} {l : Ipv4LlLink}
    (h : l.ident = part.ident) : (l.insert part).ident = part.ident := by
  obtain ⟨parts, timeout, hne⟩ := l
  cases parts with
  | nil => exact absurd rfl hne
  | cons p ps =>
    simp only [Ipv4LlLink.insert, Ipv4LlLink.ident, insertPart]
    split_ifs
    · exact h
    · rfl

section
variable {links : List Ipv4LlLink} {part : Ipv4PacketPart} {key : ℕ}

theorem partsOf_cons (l : Ipv4LlLink) (ls : List Ipv4LlLink) (key : ℕ) :
    partsOf (l :: ls) key = if l.ident = key then l.parts else partsOf ls key := by
  unfold partsOf findIpv4PacketStartLink
  by_cases h : l.ident = key <;> simp [h]

theorem partsOf_insert_self :
    partsOf (insertIpv4PacketPart part links) part.ident =
      insertPart part (partsOf links part.ident) := by
  induction links with
  | nil => simp [insertIpv4PacketPart, partsOf, findIpv4PacketStartLink, Ipv4LlLink.ident, insertPart]
  | cons l ls ih =>
    unfold insertIpv4PacketPart
    by_cases h : l.ident = part.ident
    · rw [if_pos h, partsOf_cons, partsOf_cons, if_pos h,
        if_pos (Ipv4LlLink.insert_ident h)]
      rfl
    · rw [if_neg h, partsOf_cons, partsOf_cons, if_neg h, if_neg h, ih]

theorem partsOf_insert_of_ne (hne : part.ident ≠ key) :
    partsOf (insertIpv4PacketPart part links) key = partsOf links key := by
  induction links with
  | nil => simp [insertIpv4PacketPart, partsOf, findIpv4PacketStartLink, Ipv4LlLink.ident, hne]
  | cons l ls ih =>
    unfold insertIpv4PacketPart
    by_cases h : l.ident = part.ident
    · have hk : (l.insert part).ident ≠ key := fun hk =>
        hne ((Ipv4LlLink.insert_ident h).symm.trans hk)
      rw [if_pos h, partsOf_cons, partsOf_cons, if_neg hk, if_neg (by rwa [h])]
    · rw [if_neg h, partsOf_cons, partsOf_cons, ih]

theorem mem_insert_ident {i : ℕ}
    (h : i ∈ (insertIpv4PacketPart part links).map Ipv4LlLink.ident) :
    i = part.ident ∨ i ∈ links.map Ipv4LlLink.ident := by
  induction links with
  | nil => exact .inl (by simpa [insertIpv4PacketPart, Ipv4LlLink.ident] using h)
  | cons l ls ih =>
    unfold insertIpv4PacketPart at h
    split_ifs at h with hl
    · rcases List.mem_cons.mp h with h | h
      · exact .inl (h.trans (Ipv4LlLink.insert_ident hl))
      · exact .inr (List.mem_cons_of_mem _ h)
    · rcases List.mem_cons.mp h with h | h
      · exact .inr (by rw [h]; exact List.mem_cons_self)
      · exact (ih h).imp id (List.mem_cons_of_mem _)

theorem DistinctKeys.insert (h : DistinctKeys links) :
    DistinctKeys (insertIpv4PacketPart part links) := by
  unfold DistinctKeys at h ⊢
  induction links with
  | nil => simp [insertIpv4PacketPart]
  | cons l ls ih =>
    rw [List.map_cons, List.nodup_cons] at h
    unfold insertIpv4PacketPart
    split_ifs with hl
    · rw [List.map_cons, List.nodup_cons]
      refine ⟨?_, h.2⟩
      rw [Ipv4LlLink.insert_ident hl, ← hl]
      exact h.1
    · rw [List.map_cons, List.nodup_cons]
      refine ⟨fun hm => ?_, ih h.2⟩
      rcases mem_insert_ident hm with h' | h'
      · exact hl h'
      · exact h.1 h'

theorem DistinctKeys.erase (h : DistinctKeys links) :
    DistinctKeys (links.eraseP fun l => l.ident == key) :=
  (List.eraseP_sublist.map _).nodup h

theorem partsOf_erase_self (h : DistinctKeys links) :
    partsOf (links.eraseP fun l => l.ident == key) key = [] := by
  unfold DistinctKeys at h
  induction links with
  | nil => rfl
  | cons l ls ih =>
    rw [List.map_cons, List.nodup_cons] at h
    by_cases hl : l.ident = key
    · rw [List.eraseP_cons_of_pos (by simpa using hl)]
      have hnone : findIpv4PacketStartLink ls key = none := by
        refine List.find?_eq_none.mpr fun x hx hxk => h.1 ?_
        rw [hl, ← show x.ident = key by simpa using hxk]
        exact List.mem_map_of_mem hx
      rw [partsOf, hnone, Option.elim_none]
    · rw [List.eraseP_cons_of_neg (by simpa using hl), partsOf_cons, if_neg hl, ih h.2]

theorem partsOf_erase_of_ne {k : ℕ} (hne : k ≠ key) :
    partsOf (links.eraseP fun l => l.ident == k) key = partsOf links key := by
  induction links with
  | nil => rfl
  | cons l ls ih =>
    by_cases hl : l.ident = k
    · rw [List.eraseP_cons_of_pos (by simpa using hl), partsOf_cons, if_neg (by rwa [hl])]
    · rw [List.eraseP_cons_of_neg (by simpa using hl), partsOf_cons, partsOf_cons, ih]

/-- What storing a part leaves under each key, and what it hands along. -/
theorem storePart_cases (links : List Ipv4LlLink) (part : Ipv4PacketPart) :
    storePart links part = (insertIpv4PacketPart part links, none) ∨
      storePart links part =
        ((insertIpv4PacketPart part links).eraseP fun l => l.ident == part.ident,
          some ⟨unifiedData (insertPart part (partsOf links part.ident)), part.protocol⟩) := by
  unfold storePart
  simp only
  split_ifs with hc
  · obtain ⟨l, hl⟩ : ∃ l, findIpv4PacketStartLink (insertIpv4PacketPart part links) part.ident =
        some l := by
      cases hl : findIpv4PacketStartLink (insertIpv4PacketPart part links) part.ident with
      | none => simp [ipv4PacketComplete, hl] at hc
      | some l => exact ⟨l, rfl⟩
    have hparts : l.parts = insertPart part (partsOf links part.ident) := by
      rw [← partsOf_insert_self, partsOf, hl, Option.elim_some]
    exact .inr (by rw [unifyIpPacket, hl, ← hparts]; rfl)
  · exact .inl rfl

end

/-- The version is read before any length is checked, the addresses before the header length. -/
theorem ipHandlePacket_inBounds (table : RoutingTable) (links : List Ipv4LlLink)
    (data : List UInt8) (writeOff : ℕ) :
    InBounds (ipHandlePacket table links data writeOff) ↔
      writeOff < data.length ∧
        (byteAt data writeOff / 2 ^ 4 = 4 → writeOff + 20 ≤ data.length) := by
  by_cases hlen : writeOff + 20 ≤ data.length
  · refine iff_of_true ?_ ⟨by omega, fun _ => hlen⟩
    rcases ipHandlePacket_cases table links hlen with ⟨-, h⟩ | ⟨-, -, h⟩ | ⟨-, -, h⟩ <;>
      exact ⟨_, h⟩
  constructor
  · intro h
    have hcheck := h.of_bind
    rw [ipCheckHeader, inBounds_readByte_bind] at hcheck
    refine ⟨hcheck.1, fun hversion => ?_⟩
    rw [if_neg (not_not.mpr hversion), inBounds_readBe32_bind, inBounds_readBe32_bind] at hcheck
    omega
  · rintro ⟨hfirst, hversion⟩
    refine ⟨(links, none), ?_⟩
    rw [ipHandlePacket, ipCheckHeader, readByte_of_lt hfirst, ok_bind,
      if_pos (fun h => hlen (hversion h))]
    rfl

theorem ipHandlePacket_of_short {table : RoutingTable} {links : List Ipv4LlLink}
    {data : List UInt8} {writeOff : ℕ} {r : List Ipv4LlLink × Option HandedPacket}
    (h : data.length < writeOff + 20) (hr : ipHandlePacket table links data writeOff = .ok r) :
    r = (links, none) := by
  obtain ⟨hlt, hversion⟩ := (ipHandlePacket_inBounds table links data writeOff).mp ⟨r, hr⟩
  have hc : ipCheckHeader table data writeOff = .ok none := by
    rw [ipCheckHeader, readByte_of_lt hlt, ok_bind,
      if_pos (fun hv => absurd (hversion hv) (by omega))]
    rfl
  rw [ipHandlePacket, hc] at hr
  exact (Except.ok.inj hr).symm

structure Datagram where
  srcIp : ℕ
  ident : ℕ
  protocol : ℕ

def Datagram.key (d : Datagram) : ℕ := createPacketPartIdent d.srcIp d.ident d.protocol

def Datagram.owns (d : Datagram) (frame : List UInt8) : Bool :=
  be32 frame (14 + 12) == d.srcIp && be16 frame (14 + 4) == d.ident &&
    byteAt frame (14 + 9) == d.protocol

structure IpFragment where
  eth : List UInt8
  header : List UInt8
  payload : List UInt8
  trailer : List UInt8

def IpFragment.frame (f : IpFragment) : List UInt8 :=
  f.eth ++ (f.header ++ (f.payload ++ f.trailer))

structure IpFragment.Carries (f : IpFragment) (d : Datagram) (off : ℕ) (more : Bool) : Prop where
  eth_length : f.eth.length = 14
  version : byteAt f.header 0 / 2 ^ 4 = 4
  ihl : f.header.length = byteAt f.header 0 % 2 ^ 4 * 4
  min_length : 20 ≤ f.header.length
  total : be16 f.header 2 = f.header.length + f.payload.length
  ident : be16 f.header 4 = d.ident
  offset : be16 f.header 6 % 2 ^ 13 * 8 = off
  moreFragments : be16 f.header 6 / 2 ^ 13 % 2 = if more then 1 else 0
  protocol : byteAt f.header 9 = d.protocol
  checksum : checksum f.header 0 f.header.length = 0
  srcIp : be32 f.header 12 = d.srcIp

/-- A list of non-empty fragments that tile the datagram from `off` on, all but the last a
multiple of 8 bytes long. -/
def Fragmentation (d : Datagram) : ℕ → List IpFragment → Prop
  | _, [] => False
  | off, [f] => f.Carries d off false ∧ f.payload ≠ []
  | off, f :: g :: fs => f.Carries d off true ∧ f.payload ≠ [] ∧ 8 ∣ f.payload.length ∧
      Fragmentation d (off + f.payload.length) (g :: fs)

abbrev Arrival := RoutingTable × List UInt8

def ipStep (links : List Ipv4LlLink) (a : Arrival) : Option (List Ipv4LlLink) :=
  (ipHandlePacket a.1 links a.2 14).toOption.map Prod.fst

def handedAt (pre : List Arrival) (a : Arrival) : Option HandedPacket :=
  (run ipStep [] pre).bind fun links => (ipHandlePacket a.1 links a.2 14).toOption.bind Prod.snd

def Reassembles (d : Datagram) (header payload : List UInt8) (pre : List Arrival) (x : Arrival) :
    Prop :=
  (∀ pre' y, pre' ++ [y] <+: pre → d.owns y.2 = true → handedAt pre' y = none) ∧
    handedAt pre x = some ⟨header ++ payload, d.protocol⟩

def Datagram.arrived (d : Datagram) (as : List Arrival) : List (List UInt8) :=
  (as.map Prod.snd).filter d.owns

theorem createPacketPartIdent_eq (s i p : ℕ) (hs : s < 2 ^ 32) (hi : i < 2 ^ 16) :
    createPacketPartIdent s i p = s + 2 ^ 32 * i + 2 ^ 48 * p := by
  have h1 : s ||| i <<< 32 = 2 ^ 32 * i + s := by
    rw [Nat.or_comm, Nat.shiftLeft_eq, Nat.mul_comm, ← Nat.two_pow_add_eq_or_of_lt hs]
  have h2 : 2 ^ 32 * i + s ||| p <<< 48 = 2 ^ 48 * p + (2 ^ 32 * i + s) := by
    rw [Nat.or_comm, Nat.shiftLeft_eq, Nat.mul_comm p, ← Nat.two_pow_add_eq_or_of_lt (by omega)]
  rw [createPacketPartIdent, h1, h2]
  omega

theorem ipPart_ident (data : List UInt8) (w : ℕ) : (ipPart data w).ident =
    createPacketPartIdent (be32 data (w + 12)) (be16 data (w + 4)) (byteAt data (w + 9)) := rfl

theorem Datagram.owns_iff {d : Datagram} (hs : d.srcIp < 2 ^ 32) (hi : d.ident < 2 ^ 16)
    (data : List UInt8) : d.owns data = true ↔ (ipPart data 14).ident = d.key := by
  have h1 := be32_lt data (14 + 12)
  have h2 := be16_lt data (14 + 4)
  have h3 := byteAt_lt data (14 + 9)
  rw [ipPart_ident, Datagram.key, createPacketPartIdent_eq _ _ _ h1 h2,
    createPacketPartIdent_eq _ _ _ hs hi]
  simp only [Datagram.owns, Bool.and_eq_true, beq_iff_eq]
  omega

theorem eq_ok_of_toOption {α : Type} {m : Except Fault α} {a : α} (h : m.toOption = some a) :
    m = .ok a := by
  cases m with
  | error e => simp [Except.toOption] at h
  | ok b => exact congrArg _ (Option.some.inj h)

theorem Datagram.arrived_concat (d : Datagram) (pre : List Arrival) (a : Arrival) :
    d.arrived (pre ++ [a]) = d.arrived pre ++ if d.owns a.2 = true then [a.2] else [] := by
  simp only [Datagram.arrived, List.map_append, List.filter_append, List.map_cons, List.map_nil,
    List.filter_cons, List.filter_nil]

/-- Storing the part of a frame of the datagram keeps the stored parts among those come in. -/
theorem insertPart_subperm {d : Datagram} {pre : List Arrival} {a : Arrival}
    {ps : List Ipv4PacketPart} (ha : d.owns a.2 = true)
    (h : ps.Subperm ((d.arrived pre).map fun f => ipPart f 14)) :
    (insertPart (ipPart a.2 14) ps).Subperm
      ((d.arrived (pre ++ [a])).map fun f => ipPart f 14) := by
  rw [d.arrived_concat, if_pos ha, List.map_append]
  exact ((insertPart_perm _ _).subperm.trans ((List.subperm_cons _).mpr h)).trans
    (List.perm_append_singleton _ _).symm.subperm

theorem run_partsOf {d : Datagram} (hs : d.srcIp < 2 ^ 32) (hi : d.ident < 2 ^ 16)
    {pre : List Arrival} {links : List Ipv4LlLink} (hrun : run ipStep [] pre = some links) :
    DistinctKeys links ∧
      (partsOf links d.key).Subperm ((d.arrived pre).map fun f => ipPart f 14) := by
  induction pre using List.reverseRecOn generalizing links with
  | nil =>
    obtain rfl : [] = links := Option.some.inj hrun
    exact ⟨List.nodup_nil, List.nil_subperm⟩
  | append_singleton pre a ih =>
    rw [run_concat] at hrun
    obtain ⟨links₁, hrun₁, hstep⟩ := Option.bind_eq_some_iff.mp hrun
    obtain ⟨hdist, hsub⟩ := ih hrun₁
    have hkeep : (partsOf links₁ d.key).Subperm
        ((d.arrived (pre ++ [a])).map fun f => ipPart f 14) := by
      rw [d.arrived_concat, List.map_append]
      exact hsub.trans (List.sublist_append_left _ _).subperm
    obtain ⟨r, hr, rfl⟩ := Option.map_eq_some_iff.mp hstep
    have hok := eq_ok_of_toOption hr
    by_cases hlen : a.2.length < 14 + 20
    · rw [ipHandlePacket_of_short hlen hok]
      exact ⟨hdist, hkeep⟩
    rcases ipHandlePacket_cases a.1 links₁ (Nat.le_of_not_lt hlen) with
      ⟨-, h⟩ | ⟨-, -, h⟩ | ⟨-, -, h⟩
    · obtain rfl : r = _ := Except.ok.inj (hok.symm.trans h)
      exact ⟨hdist, hkeep⟩
    · obtain rfl : r = _ := Except.ok.inj (hok.symm.trans h)
      exact ⟨hdist, hkeep⟩
    obtain rfl : r = _ := Except.ok.inj (hok.symm.trans h)
    by_cases hown : (ipPart a.2 14).ident = d.key
    · rcases storePart_cases links₁ (ipPart a.2 14) with hst | hst
      · rw [hst]
        refine ⟨hdist.insert, ?_⟩
        rw [← hown, partsOf_insert_self, hown]
        exact insertPart_subperm ((Datagram.owns_iff hs hi _).mpr hown) hsub
      · rw [hst]
        refine ⟨hdist.insert.erase, ?_⟩
        rw [hown, partsOf_erase_self hdist.insert]
        exact List.nil_subperm
    · rcases storePart_cases links₁ (ipPart a.2 14) with hst | hst
      · rw [hst]
        exact ⟨hdist.insert, by rw [partsOf_insert_of_ne hown]; exact hkeep⟩
      · rw [hst]
        exact ⟨hdist.insert.erase, by
          rw [partsOf_erase_of_ne hown, partsOf_insert_of_ne hown]; exact hkeep⟩

theorem IpFragment.Carries.dataLen {f : IpFragment} {d : Datagram} {off : ℕ} {more : Bool}
    (h : f.Carries d off more) :
    (ipPart f.frame 14).dataLen = f.payload.length + if off = 0 then f.header.length else 0 := by
  obtain ⟨p, hp⟩ : ∃ p, p = ipFields f.frame 14 := ⟨_, rfl⟩
  have hmin := h.min_length
  have hbyte : ∀ i < f.header.length, byteAt f.frame (14 + i) = byteAt f.header i := fun i hi => by
    rw [IpFragment.frame, ← h.eth_length, byteAt_append_right, byteAt_append_left hi]
  have hbe : ∀ i, i + 1 < f.header.length → be16 f.frame (14 + i) = be16 f.header i := fun i hi => by
    rw [IpFragment.frame, ← h.eth_length, be16_append_right, be16_append_left hi]
  have hhdr : p.hdrLen = f.header.length := by
    rw [hp, h.ihl, ← hbyte 0 (by omega)]
    rfl
  have htotal : p.totalPacketPartLength = f.header.length + f.payload.length := by
    rw [hp, ← h.total, ← hbe 2 (by omega)]
    rfl
  have hfrag : p.fragOff * 8 = off := by
    rw [hp, ← h.offset, ← hbe 6 (by omega)]
    rfl
  have hlen : f.frame.length = 14 + f.header.length + f.payload.length + f.trailer.length := by
    simp only [IpFragment.frame, List.length_append, h.eth_length]
    omega
  have hfrag0 : p.fragOff = 0 ↔ off = 0 := by omega
  simp only [ipPart, Ipv4Packet.part, ← hp, List.length_take, List.length_drop, htotal, hhdr, hlen,
    hfrag0]
  split_ifs <;> omega

/-- The stored parts of a whole datagram together are its payload and the first header. -/
theorem Fragmentation.sum_dataLen {d : Datagram} {off : ℕ} {fs : List IpFragment}
    (h : Fragmentation d off fs) :
    (fs.map fun f => (ipPart f.frame 14).dataLen).sum =
      (fs.flatMap IpFragment.payload).length +
        if off = 0 then (fs.head?.elim 0 fun f => f.header.length) else 0 := by
  induction fs generalizing off with
  | nil => exact h.elim
  | cons f fs ih =>
    cases fs with
    | nil => simp [h.1.dataLen]
    | cons g fs =>
      obtain ⟨hf, hne, -, hrest⟩ := h
      have hpos : off + f.payload.length ≠ 0 := by
        have := List.length_pos_iff.mpr hne
        omega
      rw [List.map_cons, List.sum_cons, ih hrest, hf.dataLen, if_neg hpos]
      simp only [List.flatMap_cons, List.length_append, List.head?_cons, Option.elim_some]
      omega

theorem Fragmentation.carries {d : Datagram} {off : ℕ} {fs : List IpFragment}
    (h : Fragmentation d off fs) {f : IpFragment} (hf : f ∈ fs) :
    ∃ o more, f.Carries d o more ∧ f.payload ≠ [] ∧ off ≤ o ∧
      (more = true ∨ fs.length = 1 ∨ off < o) := by
  induction fs generalizing off with
  | nil => exact h.elim
  | cons g fs ih =>
    cases fs with
    | nil =>
      obtain rfl := List.mem_singleton.mp hf
      exact ⟨off, false, h.1, h.2, le_rfl, .inr (.inl rfl)⟩
    | cons g' fs =>
      obtain ⟨hg, hne, -, hrest⟩ := h
      rcases List.mem_cons.mp hf with rfl | hf
      · exact ⟨off, true, hg, hne, le_rfl, .inl rfl⟩
      · have hpos := List.length_pos_iff.mpr hne
        obtain ⟨o, more, hc, hp, hle, -⟩ := ih hrest hf
        exact ⟨o, more, hc, hp, by omega, .inr (.inr (by omega))⟩

theorem Fragmentation.fragmented {d : Datagram} {f₀ f₁ f : IpFragment} {fs : List IpFragment}
    (h : Fragmentation d 0 (f₀ :: f₁ :: fs)) (hf : f ∈ f₀ :: f₁ :: fs) :
    ¬ ((ipFields f.frame 14).moreFragments = false ∧ (ipFields f.frame 14).fragOff = 0) := by
  obtain ⟨o, more, hc, -, -, hfrag⟩ := h.carries hf
  have hbe : (ipFields f.frame 14).flagsFragOff = be16 f.header 6 := by
    have hmin := hc.min_length
    simp only [ipFields]
    rw [IpFragment.frame, ← hc.eth_length, be16_append_right, be16_append_left (by omega)]
  have hoff := hc.offset
  have hmore := hc.moreFragments
  simp only [Ipv4Packet.moreFragments, Ipv4Packet.fragOff, hbe]
  rintro ⟨h1, h2⟩
  rcases hfrag with rfl | hlen | hlt
  · rw [if_pos rfl] at hmore
    rw [hmore] at h1
    cases h1
  · simp at hlen
  · omega

theorem sum_dataLen_le {ps qs : List Ipv4PacketPart} (h : ps.Subperm qs) :
    (ps.map Ipv4PacketPart.dataLen).sum ≤ (qs.map Ipv4PacketPart.dataLen).sum := by
  obtain ⟨rs, hperm, hsub⟩ := h
  rw [← (hperm.map Ipv4PacketPart.dataLen).sum_eq]
  exact (hsub.map Ipv4PacketPart.dataLen).sum_le_sum fun _ _ => Nat.zero_le _

theorem length_unifiedData_le (parts : List Ipv4PacketPart) :
    (unifiedData parts).length ≤ (parts.dropLast.map Ipv4PacketPart.dataLen).sum := by
  rw [unifiedData, List.length_take]
  exact min_le_left _ _

/-- However a datagram is cut into two or more fragments, in whatever order they come in and
whatever comes in between, it is not handed along whole: the size `unify_ip_packet` returns
leaves out the last part. -/
theorem ipv4_never_reassembled (d : Datagram) (f₀ f₁ : IpFragment) (fs : List IpFragment)
    (hfrag : Fragmentation d 0 (f₀ :: f₁ :: fs)) (pre : List Arrival) (x : Arrival)
    (hx : d.owns x.2 = true)
    (hperm : (d.arrived (pre ++ [x])).Perm ((f₀ :: f₁ :: fs).map IpFragment.frame)) :
    ¬ Reassembles d f₀.header ((f₀ :: f₁ :: fs).flatMap IpFragment.payload) pre x := by
  rintro ⟨-, hhanded⟩
  obtain ⟨o₀, m₀, hc₀, -⟩ := hfrag.carries (List.mem_cons_self)
  have hs : d.srcIp < 2 ^ 32 := hc₀.srcIp ▸ be32_lt _ _
  have hi : d.ident < 2 ^ 16 := hc₀.ident ▸ be16_lt _ _
  obtain ⟨links, hrun, hbind⟩ := Option.bind_eq_some_iff.mp hhanded
  obtain ⟨⟨links', out⟩, hr, hout⟩ := Option.bind_eq_some_iff.mp hbind
  have hok := eq_ok_of_toOption hr
  obtain ⟨hdist, hsub⟩ := run_partsOf hs hi hrun
  have hmem : x.2 ∈ d.arrived (pre ++ [x]) := by simp [d.arrived_concat, hx]
  obtain ⟨f, hf, hfx⟩ := List.mem_map.mp (hperm.mem_iff.mp hmem)
  obtain ⟨o, m, hc, -⟩ := hfrag.carries hf
  have hlen : 14 + 20 ≤ x.2.length := by
    have hmin := hc.min_length
    rw [← hfx, IpFragment.frame, List.length_append, List.length_append, hc.eth_length]
    omega
  rcases ipHandlePacket_cases x.1 links hlen with ⟨-, h⟩ | ⟨-, hun, -⟩ | ⟨-, -, h⟩
  · obtain ⟨-, rfl⟩ := Prod.mk.inj (Except.ok.inj (hok.symm.trans h))
    cases hout
  · rw [← hfx] at hun
    exact hfrag.fragmented hf hun
  have hkey := (Datagram.owns_iff hs hi x.2).mp hx
  have hst := Except.ok.inj (hok.symm.trans h)
  rcases storePart_cases links (ipPart x.2 14) with hcase | hcase
  · rw [hcase] at hst
    obtain ⟨-, rfl⟩ := Prod.mk.inj hst
    cases hout
  rw [hcase, hkey] at hst
  obtain ⟨-, rfl⟩ := Prod.mk.inj hst
  -- the lengths decide: a last part is always there, and it is not counted
  have hdata := congrArg (fun p => p.data.length) (Option.some.inj hout)
  have hsub' := (insertPart_subperm hx hsub).trans (hperm.map fun f => ipPart f 14).subperm
  have hne := insertPart_ne_nil (ipPart x.2 14) (partsOf links d.key)
  obtain ⟨ps, hps⟩ : ∃ ps, ps = insertPart (ipPart x.2 14) (partsOf links d.key) := ⟨_, rfl⟩
  rw [← hps] at hdata hsub' hne
  have hle := sum_dataLen_le hsub'
  have hlast : 0 < (ps.getLast hne).dataLen := by
    obtain ⟨fr, hfr, hpart⟩ := List.mem_map.mp (hsub'.subset (List.getLast_mem hne))
    obtain ⟨g, hg, rfl⟩ := List.mem_map.mp hfr
    obtain ⟨og, mg, hcg, hpay, -⟩ := hfrag.carries hg
    have hpos := List.length_pos_iff.mpr hpay
    rw [← hpart, hcg.dataLen]
    omega
  have hsum := hfrag.sum_dataLen
  have hsplit : (ps.map Ipv4PacketPart.dataLen).sum =
      (ps.dropLast.map Ipv4PacketPart.dataLen).sum + (ps.getLast hne).dataLen := by
    conv_lhs => rw [← List.dropLast_append_getLast hne]
    simp
  have hshort := length_unifiedData_le ps
  simp only [List.map_map, Function.comp_def, if_true, List.head?_cons, Option.elim_some,
    List.length_append] at hle hsum hdata
  omega

def twoFragments : IpFragment × IpFragment :=
  (⟨List.replicate 14 0, [0x45, 0x00, 0x00, 0x1c, 0x00, 0x07, 0x20, 0x00, 0x40, 0x11,
    0x50, 0xc9, 0x0a, 0x00, 0x00, 0x02, 0xff, 0xff, 0xff, 0xff], [1, 2, 3, 4, 5, 6, 7, 8], []⟩,
   ⟨List.replicate 14 0, [0x45, 0x00, 0x00, 0x18, 0x00, 0x07, 0x00, 0x01, 0x40, 0x11,
    0x70, 0xcc, 0x0a, 0x00, 0x00, 0x02, 0xff, 0xff, 0xff, 0xff], [9, 10, 11, 12], []⟩)

theorem twoFragments_fragmentation :
    Fragmentation ⟨0x0a000002, 7, 17⟩ 0 [twoFragments.1, twoFragments.2] := by
  refine ⟨⟨?_, ?_, ?_, ?_, ?_, ?_, ?_, ?_, ?_, ?_, ?_⟩, ?_, ?_, ⟨?_, ?_, ?_, ?_, ?_, ?_, ?_, ?_, ?_,
    ?_, ?_⟩, ?_⟩ <;> decide

def twoArrivals : Arrival × Arrival :=
  ((⟨[], fun _ => ⟨[], 0⟩⟩, twoFragments.1.frame), (⟨[], fun _ => ⟨[], 0⟩⟩, twoFragments.2.frame))

theorem ipv4_never_reassembled_two_fragments :
    ¬ Reassembles ⟨0x0a000002, 7, 17⟩ twoFragments.1.header
      ([twoFragments.1, twoFragments.2].flatMap IpFragment.payload) [twoArrivals.1] twoArrivals.2 :=
  ipv4_never_reassembled _ _ _ _ twoFragments_fragmentation _ _ (by decide) (by decide)

/-- Both fragments are accepted and stored, and nothing is handed along: the second part is
expected 20 bytes further than it starts. -/
theorem ipv4_two_fragments_kept :
    Fragmentation ⟨0x0a000002, 7, 17⟩ 0 [twoFragments.1, twoFragments.2] ∧
      ((run ipStep [] [twoArrivals.1, twoArrivals.2]).map fun links =>
        links.map fun l => l.parts.map fun p => (p.fragOffset * 8, p.dataLen)) =
          some [[(0, 28), (8, 4)]] ∧
      handedAt [] twoArrivals.1 = none ∧ handedAt [twoArrivals.1] twoArrivals.2 = none ∧
      ¬ Reassembles ⟨0x0a000002, 7, 17⟩ twoFragments.1.header
        ([twoFragments.1, twoFragments.2].flatMap IpFragment.payload)
        [twoArrivals.1] twoArrivals.2 := by
  have hnone : handedAt [twoArrivals.1] twoArrivals.2 = none := by decide +kernel
  refine ⟨twoFragments_fragmentation, by decide +kernel, by decide +kernel, hnone, fun h => ?_⟩
  rw [h.2] at hnone
  cases hnone

end BrickOS.Networking
