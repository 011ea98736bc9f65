import BrickOS.Networking.DhcpOptions

/-! What `dhcp_extract_options` finds in a message of `dhcp_write_header`. -/
namespace BrickOS.Networking
open BrickOS.Lib

structure DhcpOption where
  type : UInt8
  data : List UInt8
  length_le : data.length ≤ 255

namespace DhcpOption

def bytes (option : DhcpOption) : List UInt8 :=
  option.type :: UInt8.ofNat option.data.length :: option.data

def kind (option : DhcpOption) : DhcpOptionType := dhcpOptionType option.type.toNat

def totalLen (option : DhcpOption) : ℕ :=
  if option.kind = .pad ∨ option.kind = .stop then 1 else option.data.length + 2

def encode (option : DhcpOption) : List UInt8 := option.bytes.take option.totalLen

end DhcpOption

def writeOptions (data : List UInt8) (writeOff : ℕ) :
    List DhcpOption → Except Fault (List UInt8)
  | [] => .ok data
  | option :: options => do
    let data ← writeBytes data writeOff option.encode
    writeOptions data (writeOff + option.totalLen) options

def dhcpWriteHeader (iface : NetInterface) (data : List UInt8) (xid recvStyle gatewayIpAddr
    clientIpAddr serverIpAddr : ℕ) (options : List DhcpOption) : Except Fault (List UInt8) := do
  let data ← writeBytes data 0 ([1, 1, 6, 0] ++ bytes32 xid ++ bytes16 0 ++
    bytes16 (if recvStyle = 1 then 2 ^ 15 else 0) ++ bytes32 clientIpAddr ++ bytes32 0 ++
    bytes32 serverIpAddr ++ bytes32 gatewayIpAddr ++ iface.macAddr)
  -- Ten bytes of `client_hardware_addr` stay as they are.
  let data ← writeBytes data 44 (List.replicate 192 0 ++ bytes32 0x63825363)
  writeOptions data dhcpHeaderSize options

def lastOf {α : Type} (type : DhcpOptionType) (value : List UInt8 → α) (absent : α)
    (options : List (List UInt8)) : α :=
  ((options.reverse.find? fun option => dhcpOptionType (byteAt option 0) = type).map value).getD
    absent

def lastValues (options : List (List UInt8)) : ℕ × ℕ × ℕ × List ℕ :=
  (lastOf .subnetMask (be32 · 2) 0 options, lastOf .router (be32 · 2) 0 options,
    lastOf .addrLeaseTime (be32 · 2) 0 options,
    lastOf .dns (fun o => (List.range (byteAt o 1 / 4)).map fun i => be32 o (2 + i * 4)) [] options)

def DhcpOptions.values (info : DhcpOptions) : ℕ × ℕ × ℕ × List ℕ :=
  (info.subnetMask, info.routerAddr, info.leaseTime, info.dnsArr)

def encodeAll (options : List DhcpOption) : List UInt8 := options.flatMap DhcpOption.encode

/-- Written into any buffer that has the room, the options come out again, whatever stands behind
the buffer. -/
def RoundTrips (expected : ℕ) (options : List DhcpOption) : Prop :=
  ∀ (iface : NetInterface) (data behind : List UInt8) (xid recvStyle gateway client server : ℕ),
    iface.macAddr.length = 6 → dhcpHeaderSize + (encodeAll options).length ≤ data.length →
    257 ≤ behind.length →
    ∃ message, dhcpWriteHeader iface data xid recvStyle gateway client server options =
        .ok message ∧
      ∃ fuel info, dhcpExtractOptions fuel expected (message ++ behind)
          (dhcpHeaderSize + (encodeAll options).length) = some (.ok (some info)) ∧
        info.values = lastValues (options.map DhcpOption.bytes)

def FramesAgree (expected : ℕ) (options : List DhcpOption) : Prop :=
  ∀ behind : List UInt8, 257 ≤ behind.length →
    (∀ option ∈ frames (encodeAll options).length (encodeAll options ++ behind),
      ¬ Invalid expected option) ∧
    lastValues (frames (encodeAll options).length (encodeAll options ++ behind)) =
      lastValues (options.map DhcpOption.bytes)

section Writing

variable {options : List DhcpOption}

theorem DhcpOption.length_encode (option : DhcpOption) :
    option.encode.length = option.totalLen := by
  simp only [encode, List.length_take, bytes, List.length_cons, totalLen]
  split_ifs <;> omega

theorem writeOptions_eq {a b : List UInt8} (c : List UInt8)
    (hb : b.length = (encodeAll options).length) :
    writeOptions (a ++ b ++ c) a.length options = .ok (a ++ encodeAll options ++ c) := by
  induction options generalizing a b with
  | nil => simp_all [encodeAll, writeOptions]
  | cons option options ih =>
    rw [encodeAll, List.flatMap_cons, List.length_append] at hb
    obtain ⟨b₁, b₂, rfl, hb₁, hb₂⟩ := exists_append_of_length hb
    have hwrite : writeBytes (a ++ b₁ ++ (b₂ ++ c)) a.length option.encode =
        .ok (a ++ option.encode ++ (b₂ ++ c)) := writeBytes_append rfl hb₁
    have hnext := ih (a := a ++ option.encode) hb₂
    rw [List.length_append, option.length_encode] at hnext
    rw [writeOptions, show a ++ (b₁ ++ b₂) ++ c = a ++ b₁ ++ (b₂ ++ c) by simp, hwrite, ok_bind,
      ← List.append_assoc, hnext]
    simp [encodeAll]

theorem dhcpWriteHeader_eq {iface : NetInterface} {data : List UInt8}
    (xid recvStyle gateway client server : ℕ) (hmac : iface.macAddr.length = 6)
    (hroom : dhcpHeaderSize + (encodeAll options).length ≤ data.length) :
    ∃ header rest, header.length = dhcpHeaderSize ∧
      rest.length = data.length - (dhcpHeaderSize + (encodeAll options).length) ∧
      dhcpWriteHeader iface data xid recvStyle gateway client server options =
        .ok (header ++ encodeAll options ++ rest) := by
  have hsize : dhcpHeaderSize = 240 := rfl
  obtain ⟨fields, data, rfl, hfields, hdata⟩ := exists_append_of_length (l := data) (m := 34)
    (n := 10 + (196 + ((encodeAll options).length +
      (data.length - (dhcpHeaderSize + (encodeAll options).length))))) (by omega)
  obtain ⟨chaddr, data, rfl, hchaddr, hdata⟩ := exists_append_of_length hdata
  obtain ⟨names, data, rfl, hnames, hdata⟩ := exists_append_of_length hdata
  obtain ⟨old, rest, rfl, hold, hrest⟩ := exists_append_of_length hdata
  unfold dhcpWriteHeader
  generalize hfirst : [1, 1, 6, 0] ++ bytes32 xid ++ bytes16 0 ++
    bytes16 (if recvStyle = 1 then 2 ^ 15 else 0) ++ bytes32 client ++ bytes32 0 ++
    bytes32 server ++ bytes32 gateway ++ iface.macAddr = first
  generalize hsecond : List.replicate 192 0 ++ bytes32 0x63825363 = second
  have hfirstLen : first.length = 34 := by simp [← hfirst, hmac]
  have hsecondLen : second.length = 196 := by
    rw [← hsecond, List.length_append, List.length_replicate, length_bytes32]
  have hlen : (first ++ chaddr ++ second).length = dhcpHeaderSize := by
    simp only [List.length_append]
    omega
  refine ⟨first ++ chaddr ++ second, rest, hlen, hrest, ?_⟩
  have hwrite₁ : writeBytes (fields ++ (chaddr ++ (names ++ (old ++ rest)))) 0 first =
      .ok (first ++ (chaddr ++ (names ++ (old ++ rest)))) :=
    writeBytes_append (a := []) rfl (hfields.trans hfirstLen.symm)
  have hwrite₂ : writeBytes (first ++ chaddr ++ names ++ (old ++ rest)) 44 second =
      .ok (first ++ chaddr ++ second ++ (old ++ rest)) :=
    writeBytes_append (by rw [List.length_append]; omega) (hnames.trans hsecondLen.symm)
  have hwrite₃ := writeOptions_eq (a := first ++ chaddr ++ second) rest hold
  rw [hlen] at hwrite₃
  rw [hwrite₁, ok_bind, ← List.append_assoc first, ← List.append_assoc, hwrite₂, ok_bind,
    ← List.append_assoc, hwrite₃]

end Writing

section Reading

variable {expected : ℕ} {options : List (List UInt8)} {info : DhcpOptions}

@[simp] theorem lastOf_concat {α : Type} (type : DhcpOptionType) (value : List UInt8 → α)
    (absent : α) (option : List UInt8) :
    lastOf type value absent (options ++ [option]) =
      if dhcpOptionType (byteAt option 0) = type then value option
      else lastOf type value absent options := by
  by_cases h : dhcpOptionType (byteAt option 0) = type <;> simp [lastOf, h]

theorem values_foldl (hinfo : info.values = (0, 0, 0, [])) :
    (options.foldl applyOption info).values = lastValues options := by
  induction options using List.reverseRecOn with
  | nil => exact hinfo
  | append_singleton options option ih =>
    rw [List.foldl_concat]
    simp only [DhcpOptions.values, lastValues, lastOf_concat, Prod.mk.injEq] at ih ⊢
    cases htype : dhcpOptionType (byteAt option 0) <;> simp [applyOption, htype, ih]

theorem readable_of_complete (h : ∀ option ∈ options, Complete option) :
    Readable expected options := by
  induction options with
  | nil => trivial
  | cons option options ih =>
    exact .inr ⟨h option List.mem_cons_self, ih fun o ho => h o (List.mem_cons_of_mem option ho)⟩

theorem complete_of_mem_frames {n : ℕ} {option first : List UInt8}
    (hlen : n + 257 ≤ first.length) (hmem : option ∈ frames n first) : Complete option := by
  fun_induction frames n first with
  | case1 n first hpos ih =>
    have hbyte := byteAt_lt first 1
    cases hmem with
    | head =>
      unfold Complete
      split <;> omega
    | tail _ hmem =>
      split_ifs at hmem with hstop
      · cases hmem
      by_cases hle : byteAt first 1 + 2 ≤ n
      · refine ih (by rw [List.length_drop]; omega) hmem
      · rw [Nat.sub_eq_zero_of_le (by omega), frames, if_neg (lt_irrefl 0)] at hmem
        cases hmem
  | case2 => cases hmem

/-- With enough bytes behind the message nothing is missing, so only what is invalid is refused. -/
theorem extracts_iff {header encoded behind : List UInt8} {values : ℕ × ℕ × ℕ × List ℕ}
    (hheader : header.length = dhcpHeaderSize) (hbehind : 257 ≤ behind.length)
    (hlt : dhcpHeaderSize + encoded.length + 16 < 2 ^ 32) :
    (∃ fuel info, dhcpExtractOptions fuel expected (header ++ (encoded ++ behind))
        (dhcpHeaderSize + encoded.length) = some (.ok (some info)) ∧ info.values = values) ↔
      (∀ option ∈ frames encoded.length (encoded ++ behind), ¬ Invalid expected option) ∧
        lastValues (frames encoded.length (encoded ++ behind)) = values := by
  have hextract := fun r => @dhcpExtractOptions_iff expected (dhcpHeaderSize + encoded.length)
    (header ++ (encoded ++ behind)) (by rw [List.length_append]; omega) hlt r
  rw [← hheader, Nat.add_sub_cancel_left, List.drop_left, hheader] at hextract
  have hread : Readable expected (frames encoded.length (encoded ++ behind)) :=
    readable_of_complete fun option => complete_of_mem_frames (by rw [List.length_append]; omega)
  constructor
  · rintro ⟨fuel, info, hinfo, rfl⟩
    have heq := (hextract _).mp ⟨fuel, hinfo⟩
    have hvalid : ∀ option ∈ frames encoded.length (encoded ++ behind),
        ¬ Invalid expected option := by
      intro option hmem hinvalid
      rw [visitAll_of_invalid hread hmem hinvalid] at heq
      cases heq
    rw [visitAll_of_valid hread hvalid] at heq
    cases heq
    exact ⟨hvalid, (values_foldl rfl).symm⟩
  · rintro ⟨hvalid, rfl⟩
    obtain ⟨fuel, hfuel⟩ := (hextract _).mpr (visitAll_of_valid hread hvalid).symm
    exact ⟨fuel, _, hfuel, values_foldl rfl⟩

/-- The options come out again when their bytes, taken in frames, hold the same. -/
theorem roundTrips_iff_framesAgree {options : List DhcpOption}
    (hlt : dhcpHeaderSize + (encodeAll options).length + 16 < 2 ^ 32) :
    RoundTrips expected options ↔ FramesAgree expected options := by
  constructor
  · intro h behind hbehind
    have hroom := (List.length_replicate (n := dhcpHeaderSize + (encodeAll options).length)
      (a := (0 : UInt8))).ge
    obtain ⟨message, hmessage, hextract⟩ := h ⟨List.replicate 6 0, 0⟩ _ behind 0 0 0 0 0 rfl hroom
      hbehind
    obtain ⟨header, rest, hheader, hrest, hwrite⟩ :=
      @dhcpWriteHeader_eq options ⟨List.replicate 6 0, 0⟩ _ 0 0 0 0 0 rfl hroom
    rw [List.length_replicate, Nat.sub_self] at hrest
    cases hmessage.symm.trans hwrite
    rw [List.eq_nil_of_length_eq_zero hrest, List.append_nil, List.append_assoc] at hextract
    exact (extracts_iff hheader hbehind hlt).mp hextract
  · intro h iface data behind xid recvStyle gateway client server hmac hroom hbehind
    obtain ⟨header, rest, hheader, -, hwrite⟩ :=
      dhcpWriteHeader_eq xid recvStyle gateway client server hmac hroom
    refine ⟨_, hwrite, ?_⟩
    have hrest : 257 ≤ (rest ++ behind).length := by
      rw [List.length_append]
      omega
    have hiff := (extracts_iff hheader hrest hlt).mpr (h _ hrest)
    simpa only [List.append_assoc] using hiff

end Reading

section Plain

variable {expected : ℕ} {option : DhcpOption}

def DhcpOption.Suited (expected : ℕ) (option : DhcpOption) : Prop :=
  match option.kind with
  | .subnetMask | .router | .addrLeaseTime => option.data.length = 4
  | .dns => option.data.length ≠ 0 ∧ option.data.length % 4 = 0
  | .dhcpMsgType => ∃ msgType : UInt8, option.data = [msgType] ∧ msgType.toNat = expected
  | .pad | .stop | .other => True

def Plain (expected : ℕ) (options : List DhcpOption) : Prop :=
  ∃ front last, options = front ++ [last] ∧ last.kind = .stop ∧
    ∀ option ∈ front, option.Suited expected ∧ option.kind ≠ .pad ∧ option.kind ≠ .stop

namespace DhcpOption

theorem encode_eq_bytes (hpad : option.kind ≠ .pad) (hstop : option.kind ≠ .stop) :
    option.encode = option.bytes := by
  rw [encode, totalLen, if_neg (by simp [hpad, hstop])]
  exact List.take_of_length_le (le_refl _)

theorem type_bytes (q : List UInt8) :
    dhcpOptionType (byteAt (option.bytes ++ q) 0) = option.kind := rfl

theorem byteAt_bytes_one (q : List UInt8) : byteAt (option.bytes ++ q) 1 = option.data.length := by
  have := option.length_le
  simp only [bytes, byteAt, List.cons_append, List.getElem?_cons_succ, List.getElem?_cons_zero,
    Option.getD_some, UInt8.toNat_ofNat']
  omega

theorem frames_bytes (hstop : option.kind ≠ .stop) (n : ℕ) (q : List UInt8) :
    frames (option.bytes.length + n) (option.bytes ++ q) = (option.bytes ++ q) :: frames n q := by
  have hlen : option.bytes.length = byteAt (option.bytes ++ q) 1 + 2 := by
    rw [byteAt_bytes_one]
    rfl
  rw [frames, if_pos (by omega), type_bytes, if_neg hstop, ← hlen, Nat.add_sub_cancel_left,
    List.drop_left]

theorem Suited.not_invalid (h : option.Suited expected) (q : List UInt8) :
    ¬ Invalid expected (option.bytes ++ q) := by
  unfold Suited at h
  unfold Invalid
  rw [byteAt_bytes_one, type_bytes]
  cases hk : option.kind <;> simp only [hk] at h ⊢
  case dhcpMsgType =>
    obtain ⟨msgType, hdata, htype⟩ := h
    have hbyte : byteAt (option.bytes ++ q) 2 = msgType.toNat := by
      rw [bytes, hdata]
      rfl
    simp [hbyte, htype]
  case pad | stop | other => exact not_false
  all_goals omega

theorem Suited.applyOption_bytes (h : option.Suited expected) (info : DhcpOptions)
    (q : List UInt8) : applyOption info (option.bytes ++ q) = applyOption info option.bytes := by
  have hone : byteAt option.bytes 1 = option.data.length := by
    simpa using option.byteAt_bytes_one []
  have hlen : option.bytes.length = option.data.length + 2 := rfl
  have htype : dhcpOptionType (byteAt option.bytes 0) = option.kind := rfl
  unfold Suited at h
  unfold applyOption
  rw [byteAt_bytes_one, hone, type_bytes, htype]
  cases hk : option.kind <;> simp only [hk] at h ⊢
  case subnetMask | router | addrLeaseTime => rw [be32_append_left (by omega)]
  case dns =>
    have hword : ∀ i ∈ List.range (option.data.length / 4),
        be32 (option.bytes ++ q) (2 + i * 4) = be32 option.bytes (2 + i * 4) := by
      intro i hi
      have := List.mem_range.mp hi
      exact be32_append_left (by omega)
    rw [List.map_congr_left hword]

end DhcpOption

/-- The frames of plain options are the options themselves. -/
theorem frames_plain {front : List DhcpOption} {last : DhcpOption} (hlast : last.kind = .stop)
    (hfront : ∀ option ∈ front, option.Suited expected ∧ option.kind ≠ .pad ∧ option.kind ≠ .stop)
    (behind : List UInt8) (info : DhcpOptions) :
    (∀ option ∈ frames (encodeAll (front ++ [last])).length (encodeAll (front ++ [last]) ++ behind),
      ¬ Invalid expected option) ∧
    (frames (encodeAll (front ++ [last])).length (encodeAll (front ++ [last]) ++ behind)).foldl
        applyOption info = ((front ++ [last]).map DhcpOption.bytes).foldl applyOption info := by
  induction front generalizing info with
  | nil =>
    have hencode : encodeAll [last] = [last.type] := by
      simp [encodeAll, DhcpOption.encode, DhcpOption.totalLen, hlast, DhcpOption.bytes]
    have htype : ∀ q : List UInt8, dhcpOptionType (byteAt (last.type :: q) 0) = .stop :=
      fun _ => hlast
    rw [List.nil_append, hencode, List.length_singleton, frames, if_pos Nat.one_pos,
      List.singleton_append, if_pos (htype _)]
    simp [Invalid, applyOption, DhcpOption.bytes, htype]
  | cons option front ih =>
    obtain ⟨hsuited, hpad, hstop⟩ := hfront option List.mem_cons_self
    obtain ⟨hvalid, hfold⟩ := ih (fun o ho => hfront o (List.mem_cons_of_mem option ho))
      (applyOption info option.bytes)
    have hencode : encodeAll (option :: front ++ [last]) =
        option.bytes ++ encodeAll (front ++ [last]) := by
      rw [List.cons_append, encodeAll, List.flatMap_cons, DhcpOption.encode_eq_bytes hpad hstop]
      rfl
    rw [hencode, List.length_append, List.append_assoc, DhcpOption.frames_bytes hstop]
    refine ⟨List.forall_mem_cons.mpr ⟨hsuited.not_invalid _, hvalid⟩, ?_⟩
    rw [List.foldl_cons, hsuited.applyOption_bytes, hfold]
    rfl

/-- The options come out again when their bytes, taken in frames, hold the same; plain ones do. -/
theorem roundTrips_iff {options : List DhcpOption}
    (hlt : dhcpHeaderSize + (encodeAll options).length + 16 < 2 ^ 32) :
    (RoundTrips expected options ↔ FramesAgree expected options) ∧
      (Plain expected options → RoundTrips expected options) := by
  have hiff : RoundTrips expected options ↔ FramesAgree expected options :=
    roundTrips_iff_framesAgree hlt
  refine ⟨hiff, ?_⟩
  rintro ⟨front, last, rfl, hlast, hfront⟩
  refine hiff.mpr fun behind _ => ?_
  obtain ⟨hvalid, hfold⟩ := frames_plain hlast hfront behind ⟨⟨0, 0, 0, 0, 0⟩, []⟩
  exact ⟨hvalid, (values_foldl rfl).symm.trans (congrArg DhcpOptions.values hfold |>.trans
    (values_foldl rfl))⟩

end Plain

def padOption : DhcpOption := ⟨0, [], by decide⟩

def maskOption : DhcpOption := ⟨1, [255, 255, 255, 0], by decide⟩

def endOption : DhcpOption := ⟨255, [], by decide⟩

theorem roundTrips_mask :
    dhcpHeaderSize + (encodeAll [maskOption, endOption]).length + 16 < 2 ^ 32 ∧
    RoundTrips 2 [maskOption, endOption] := by
  have hlt : dhcpHeaderSize + (encodeAll [maskOption, endOption]).length + 16 < 2 ^ 32 := by decide
  refine ⟨hlt, (roundTrips_iff hlt).2 ⟨[maskOption], endOption, rfl, rfl, fun option hmem => ?_⟩⟩
  rw [List.mem_singleton.mp hmem]
  exact ⟨rfl, by decide, by decide⟩

/-- A pad before the subnet mask hides it. -/
theorem not_roundTrips_pad : ¬ RoundTrips 2 [padOption, maskOption, endOption] := by
  intro h
  have hframes : ∀ q : List UInt8, frames 8 ([0, 1, 4, 255, 255, 255, 0, 255] ++ q) =
      [[0, 1, 4, 255, 255, 255, 0, 255] ++ q, [255, 255, 255, 0, 255] ++ q] := by
    intro q
    rw [frames, if_pos (by decide), if_neg (fun h => by cases h), frames]
    rfl
  have hlen : 257 ≤ (List.replicate 257 (0 : UInt8)).length := List.length_replicate.ge
  have hagree := ((roundTrips_iff_framesAgree (by decide)).mp h _ hlen).2
  rw [show encodeAll [padOption, maskOption, endOption] = [0, 1, 4, 255, 255, 255, 0, 255] from rfl]
    at hagree
  generalize List.replicate 257 (0 : UInt8) = q at hagree
  cases (congrArg lastValues (hframes q)).symm.trans hagree

end BrickOS.Networking
