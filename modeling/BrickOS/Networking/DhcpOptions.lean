import BrickOS.Lib.ByteWriter
import BrickOS.Networking.Dhcp

/-! The options of a DHCP message as `dhcp_extract_options` walks through them. A pointer into the
message is the list of the bytes from it on. -/
namespace BrickOS.Networking
open BrickOS.Lib

inductive DhcpOptionType
  | pad
  | subnetMask
  | router
  | dns
  | addrLeaseTime
  | dhcpMsgType
  | stop
  | other
deriving DecidableEq, Repr

def dhcpOptionType : ℕ → DhcpOptionType
  | 0 => .pad
  | 1 => .subnetMask
  | 3 => .router
  | 6 => .dns
  | 51 => .addrLeaseTime
  | 53 => .dhcpMsgType
  | 255 => .stop
  | _ => .other

/-- `dhcp_option_info_t`; `dnsArr` has `dns_cnt` elements. -/
structure DhcpOptions extends DhcpOptionInfo where
  dnsArr : List ℕ
deriving DecidableEq, Repr

def dhcpHeaderSize : ℕ := 240

def optionWord (option : List UInt8) : Except Fault (Option ℕ) := do
  let len ← readByte option 1
  if len ≠ 4 then return none
  let word ← readBe32 option 2
  return some word

def takeOption (expected : ℕ) (option : List UInt8) (info : DhcpOptions) :
    DhcpOptionType → Except Fault (Option DhcpOptions)
  | .dhcpMsgType => do
    let msgType ← readByte option 2
    return if msgType ≠ expected then none else some info
  | .subnetMask => do return (← optionWord option).map fun w => { info with subnetMask := w }
  | .router => do return (← optionWord option).map fun w => { info with routerAddr := w }
  | .addrLeaseTime => do return (← optionWord option).map fun w => { info with leaseTime := w }
  | .dns => do
    let len ← readByte option 1
    if len = 0 ∨ len % 4 ≠ 0 then return none
    let words ← (List.range (len / 4)).mapM fun i => readBe32 option (2 + i * 4)
    return some { info with dnsArr := words }
  | .pad | .stop | .other => return some info

/-- The option is taken and its length read, that of `OPT_END` too. -/
def visitOption (expected : ℕ) (option : List UInt8) (info : DhcpOptions) :
    Except Fault (Option (ℕ × DhcpOptions)) := do
  let type ← readByte option 0
  let some info ← takeOption expected option info (dhcpOptionType type) | return none
  let len ← readByte option 1
  return some (len, info)

def extractTurn (expected : ℕ) (dhcpHdr : List UInt8) (recvdBytes optionOffset : ℕ)
    (info : DhcpOptions) : Except Fault (Option DhcpOptions ⊕ ℕ × DhcpOptions) := do
  if recvdBytes ≤ optionOffset + dhcpHeaderSize then return .inl (some info)
  let option := dhcpHdr.drop (dhcpHeaderSize + optionOffset)
  let some (len, info) ← visitOption expected option info | return .inl none
  if dhcpOptionType (byteAt option 0) = .stop then return .inl (some info)
  return .inr ((optionOffset + (len + 2)) % 2 ^ 32, info)

def extractLoop (expected : ℕ) (dhcpHdr : List UInt8) (recvdBytes : ℕ) :
    ℕ → ℕ → DhcpOptions → Option (Except Fault (Option DhcpOptions))
  | 0, _, _ => none
  | fuel + 1, optionOffset, info =>
    match extractTurn expected dhcpHdr recvdBytes optionOffset info with
    | .error e => some (.error e)
    | .ok (.inl result) => some (.ok result)
    | .ok (.inr (optionOffset, info)) =>
      extractLoop expected dhcpHdr recvdBytes fuel optionOffset info

def dhcpExtractOptions (fuel expected : ℕ) (dhcpHdr : List UInt8) (recvdBytes : ℕ) :
    Option (Except Fault (Option DhcpOptions)) :=
  match readBe32 dhcpHdr 16, readBe32 dhcpHdr 20 with
  | .ok yourIpAddr, .ok serverIpAddr =>
    extractLoop expected dhcpHdr recvdBytes fuel 0 ⟨⟨yourIpAddr, serverIpAddr, 0, 0, 0⟩, []⟩
  | .error e, _ | _, .error e => some (.error e)

/-! The walk without offsets. -/

/-- Where the walk finds options that start in the first `n` bytes: each type is taken to have a
length behind it, that of a pad too. -/
def frames (n : ℕ) (option : List UInt8) : List (List UInt8) :=
  if 0 < n then
    option :: if dhcpOptionType (byteAt option 0) = .stop then []
      else frames (n - (byteAt option 1 + 2)) (option.drop (byteAt option 1 + 2))
  else []
termination_by n

def Invalid (expected : ℕ) (option : List UInt8) : Prop :=
  match dhcpOptionType (byteAt option 0) with
  | .dhcpMsgType => 2 < option.length ∧ byteAt option 2 ≠ expected
  | .subnetMask | .router | .addrLeaseTime => 1 < option.length ∧ byteAt option 1 ≠ 4
  | .dns => 1 < option.length ∧ (byteAt option 1 = 0 ∨ byteAt option 1 % 4 ≠ 0)
  | .pad | .stop | .other => False

def Complete (option : List UInt8) : Prop :=
  match dhcpOptionType (byteAt option 0) with
  | .dhcpMsgType => 2 < option.length
  | .subnetMask | .router | .addrLeaseTime | .dns => byteAt option 1 + 1 < option.length
  | .pad | .stop | .other => 1 < option.length

def applyOption (info : DhcpOptions) (option : List UInt8) : DhcpOptions :=
  match dhcpOptionType (byteAt option 0) with
  | .subnetMask => { info with subnetMask := be32 option 2 }
  | .router => { info with routerAddr := be32 option 2 }
  | .addrLeaseTime => { info with leaseTime := be32 option 2 }
  | .dns =>
    { info with dnsArr := (List.range (byteAt option 1 / 4)).map fun i => be32 option (2 + i * 4) }
  | .dhcpMsgType | .pad | .stop | .other => info

def Readable (expected : ℕ) : List (List UInt8) → Prop
  | [] => True
  | option :: options =>
    Invalid expected option ∨ Complete option ∧ Readable expected options

def visitAll (expected : ℕ) (info : DhcpOptions) :
    List (List UInt8) → Except Fault (Option DhcpOptions)
  | [] => .ok (some info)
  | option :: options => do
    let some (_, info) ← visitOption expected option info | return none
    visitAll expected info options

section Visit

variable {expected : ℕ} {option : List UInt8} {info : DhcpOptions}

theorem mapM_readBe32 {p : List UInt8} {l : List ℕ} (h : ∀ i ∈ l, 2 + i * 4 + 3 < p.length) :
    l.mapM (fun i => readBe32 p (2 + i * 4)) = .ok (l.map fun i => be32 p (2 + i * 4)) := by
  induction l with
  | nil => rfl
  | cons i l ih =>
    rw [List.mapM_cons, readBe32_of_lt (h i List.mem_cons_self),
      ih fun j hj => h j (List.mem_cons_of_mem i hj)]
    rfl

theorem lt_of_inBounds_mapM {p : List UInt8} {l : List ℕ}
    (h : InBounds (l.mapM fun i => readBe32 p (2 + i * 4))) {i : ℕ} (hi : i ∈ l) :
    2 + i * 4 + 3 < p.length := by
  induction l with
  | nil => cases hi
  | cons j l ih =>
    rw [List.mapM_cons, inBounds_readBe32_bind] at h
    cases hi with
    | head => exact h.1
    | tail _ hi => exact ih h.2.of_bind hi

theorem visitOption_invalid (h : Invalid expected option) :
    visitOption expected option info = .ok none := by
  have hpos : 0 < option.length := by
    unfold Invalid at h
    split at h <;> first | omega | exact h.elim
  rw [visitOption, readByte_of_lt hpos, ok_bind]
  cases htype : dhcpOptionType (byteAt option 0) <;> simp only [Invalid, htype] at h
  case dhcpMsgType | dns =>
    simp only [takeOption, readByte_of_lt h.1, ok_bind, h.2, ne_eq, not_false_eq_true, if_true]
    rfl
  case subnetMask | router | addrLeaseTime =>
    simp only [takeOption, optionWord, readByte_of_lt h.1, ok_bind, h.2, ne_eq, not_false_eq_true,
      if_true]
    rfl

theorem visitOption_complete (hvalid : ¬ Invalid expected option) (h : Complete option) :
    visitOption expected option info = .ok (some (byteAt option 1, applyOption info option)) := by
  have hlen : 1 < option.length := by
    unfold Complete at h
    split at h <;> omega
  rw [visitOption, readByte_of_lt (by omega), ok_bind]
  cases htype : dhcpOptionType (byteAt option 0) <;>
    simp only [Invalid, Complete, htype, not_and, not_not, hlen, true_implies, not_or, ne_eq]
      at h hvalid
  case pad | stop | other =>
    simp only [takeOption, pure_bind, readByte_of_lt hlen, ok_bind, applyOption, htype]
    rfl
  case dhcpMsgType =>
    simp only [takeOption, readByte_of_lt h, ok_bind, hvalid h, ne_eq, not_true_eq_false, if_false,
      pure_bind, readByte_of_lt hlen, applyOption, htype]
    rfl
  case subnetMask | router | addrLeaseTime =>
    rw [hvalid] at h
    simp only [takeOption, optionWord, readByte_of_lt hlen, hvalid, ok_bind, ne_eq,
      not_true_eq_false, if_false, readBe32_of_lt h, pure_bind, applyOption, htype]
    rfl
  case dns =>
    have hwords : ∀ i ∈ List.range (byteAt option 1 / 4), 2 + i * 4 + 3 < option.length := by
      intro i hi
      have := List.mem_range.mp hi
      omega
    simp only [takeOption, readByte_of_lt hlen, ok_bind, hvalid, false_or, ne_eq, not_true_eq_false,
      if_false, mapM_readBe32 hwords, pure_bind, applyOption, htype]
    rfl

theorem complete_of_inBounds (hvalid : ¬ Invalid expected option)
    (h : InBounds (visitOption expected option info)) : Complete option := by
  rw [visitOption, inBounds_readByte_bind] at h
  obtain ⟨hpos, h⟩ := h
  cases htype : dhcpOptionType (byteAt option 0) <;> rw [htype] at h <;>
    simp only [Invalid, Complete, htype, not_and, not_not, not_or, ne_eq] at hvalid ⊢
  case pad | stop | other =>
    simp only [takeOption, pure_bind, inBounds_readByte_bind] at h
    exact h.1
  case dhcpMsgType =>
    simp only [takeOption, bind_assoc, inBounds_readByte_bind] at h
    exact h.1
  case subnetMask | router | addrLeaseTime =>
    simp only [takeOption, optionWord, bind_assoc, inBounds_readByte_bind] at h
    obtain ⟨hlen, h⟩ := h
    simp only [hvalid hlen, ne_eq, not_true_eq_false, if_false, bind_assoc,
      inBounds_readBe32_bind] at h
    rw [hvalid hlen]
    exact h.1
  case dns =>
    simp only [takeOption, bind_assoc, inBounds_readByte_bind] at h
    obtain ⟨hlen, h⟩ := h
    obtain ⟨hzero, hmod⟩ := hvalid hlen
    simp only [hzero, hmod, ne_eq, not_true_eq_false, or_self, if_false, bind_assoc] at h
    have hlast := lt_of_inBounds_mapM h.of_bind
      (List.mem_range.mpr (by omega : byteAt option 1 / 4 - 1 < byteAt option 1 / 4))
    omega

variable {options : List (List UInt8)}

theorem inBounds_visitAll :
    InBounds (visitAll expected info options) ↔ Readable expected options := by
  induction options generalizing info with
  | nil => simp [visitAll, Readable]
  | cons option options ih =>
    rw [visitAll, Readable]
    by_cases hvalid : Invalid expected option
    · simp [visitOption_invalid hvalid, hvalid]
    by_cases hcomplete : Complete option
    · simp [visitOption_complete hvalid hcomplete, hvalid, hcomplete, ih]
    · simp only [hvalid, hcomplete, false_and, or_self, iff_false]
      exact fun h => hcomplete (complete_of_inBounds hvalid h.of_bind)

theorem visitAll_of_valid (hread : Readable expected options)
    (hvalid : ∀ option ∈ options, ¬ Invalid expected option) :
    visitAll expected info options = .ok (some (options.foldl applyOption info)) := by
  induction options generalizing info with
  | nil => rfl
  | cons option options ih =>
    obtain ⟨hcomplete, hread⟩ := hread.resolve_left (hvalid option List.mem_cons_self)
    rw [visitAll, visitOption_complete (hvalid option List.mem_cons_self) hcomplete, ok_bind]
    exact ih hread fun o ho => hvalid o (List.mem_cons_of_mem option ho)

theorem visitAll_of_invalid (hread : Readable expected options) {option : List UInt8}
    (hmem : option ∈ options) (hinvalid : Invalid expected option) :
    visitAll expected info options = .ok none := by
  induction options generalizing info with
  | nil => cases hmem
  | cons first options ih =>
    by_cases hfirst : Invalid expected first
    · rw [visitAll, visitOption_invalid hfirst, ok_bind]
      rfl
    obtain ⟨hcomplete, hread⟩ := hread.resolve_left hfirst
    rw [visitAll, visitOption_complete hfirst hcomplete, ok_bind]
    cases hmem with
    | head => exact absurd hinvalid hfirst
    | tail _ hmem => exact ih hread hmem

theorem len_of_visitOption {len : ℕ} {info' : DhcpOptions}
    (h : visitOption expected option info = .ok (some (len, info'))) : len = byteAt option 1 := by
  by_cases hvalid : Invalid expected option
  · rw [visitOption_invalid hvalid] at h
    cases h
  · rw [visitOption_complete hvalid (complete_of_inBounds hvalid ⟨_, h⟩)] at h
    cases h
    rfl

/-- The loop visits the frames of the bytes that it has left. -/
theorem extractLoop_eq {fuel recvdBytes off n : ℕ} {dhcpHdr : List UInt8}
    (hrecvd : recvdBytes + 16 < 2 ^ 32) (hn : n = recvdBytes - (off + dhcpHeaderSize))
    (hoption : option = dhcpHdr.drop (dhcpHeaderSize + off)) :
    (n < fuel → ∃ r, extractLoop expected dhcpHdr recvdBytes fuel off info = some r) ∧
      ∀ r, extractLoop expected dhcpHdr recvdBytes fuel off info = some r →
        r = visitAll expected info (frames n option) := by
  induction fuel generalizing off info n option with
  | zero => exact ⟨fun h => absurd h (Nat.not_lt_zero _), fun r h => by cases h⟩
  | succ fuel ih =>
    rw [extractLoop, frames]
    unfold extractTurn
    by_cases hend : recvdBytes ≤ off + dhcpHeaderSize
    · rw [if_pos hend, if_neg (by omega)]
      exact ⟨fun _ => ⟨_, rfl⟩, fun r hr => (Option.some.inj hr).symm⟩
    rw [if_neg hend, if_pos (by omega), ← hoption, visitAll]
    dsimp only
    cases hvisit : visitOption expected option info with
    | error e => exact ⟨fun _ => ⟨_, rfl⟩, fun r hr => (Option.some.inj hr).symm⟩
    | ok visited =>
      match visited with
      | none => exact ⟨fun _ => ⟨_, rfl⟩, fun r hr => (Option.some.inj hr).symm⟩
      | some (len, info') =>
        obtain rfl := len_of_visitOption hvisit
        have hsize : dhcpHeaderSize = 240 := rfl
        have hlt := byteAt_lt option 1
        simp only [ok_bind]
        by_cases hstop : dhcpOptionType (byteAt option 0) = .stop
        · simp only [if_pos hstop]
          exact ⟨fun _ => ⟨_, rfl⟩, fun r hr => (Option.some.inj hr).symm⟩
        · simp only [if_neg hstop]
          rw [Nat.mod_eq_of_lt (by omega)]
          have hdrop : option.drop (byteAt option 1 + 2) =
              dhcpHdr.drop (dhcpHeaderSize + (off + (byteAt option 1 + 2))) := by
            rw [← Nat.add_assoc]
            exact (congrArg _ hoption).trans List.drop_drop
          obtain ⟨hends, heq⟩ := @ih _ info' _ _ (by omega : n - (byteAt option 1 + 2) = _) hdrop
          exact ⟨fun h => hends (by omega), heq⟩

def headerInfo (dhcpHdr : List UInt8) : DhcpOptions :=
  ⟨⟨be32 dhcpHdr 16, be32 dhcpHdr 20, 0, 0, 0⟩, []⟩

theorem dhcpExtractOptions_iff {recvdBytes : ℕ} {dhcpHdr : List UInt8}
    (hlen : dhcpHeaderSize ≤ dhcpHdr.length) (hrecvd : recvdBytes + 16 < 2 ^ 32)
    {r : Except Fault (Option DhcpOptions)} :
    (∃ fuel, dhcpExtractOptions fuel expected dhcpHdr recvdBytes = some r) ↔
      r = visitAll expected (headerInfo dhcpHdr)
        (frames (recvdBytes - dhcpHeaderSize) (dhcpHdr.drop dhcpHeaderSize)) := by
  have hsize : dhcpHeaderSize = 240 := rfl
  have hloop : ∀ fuel, dhcpExtractOptions fuel expected dhcpHdr recvdBytes =
      extractLoop expected dhcpHdr recvdBytes fuel 0 (headerInfo dhcpHdr) := by
    intro fuel
    rw [dhcpExtractOptions, readBe32_of_lt (by omega), readBe32_of_lt (by omega)]
    rfl
  have heq := fun fuel => @extractLoop_eq expected (dhcpHdr.drop dhcpHeaderSize)
    (headerInfo dhcpHdr) fuel recvdBytes 0 (recvdBytes - dhcpHeaderSize) dhcpHdr hrecvd
    (by omega) rfl
  constructor
  · rintro ⟨fuel, h⟩
    exact (heq fuel).2 r (hloop fuel ▸ h)
  · rintro rfl
    obtain ⟨r, hr⟩ := (heq (recvdBytes - dhcpHeaderSize + 1)).1 (Nat.lt_succ_self _)
    exact ⟨_, (hloop _).trans (hr.trans (congrArg some ((heq _).2 r hr)))⟩

end Visit

inductive HasMessageType (expected : ℕ) : List UInt8 → Prop
  | here {len msgType : UInt8} {rest : List UInt8} : 0 < len → msgType.toNat = expected →
    HasMessageType expected (53 :: len :: msgType :: rest)
  | pad {rest : List UInt8} : HasMessageType expected rest → HasMessageType expected (0 :: rest)
  | skip {type len : UInt8} {rest : List UInt8} : type ≠ 0 → type ≠ 255 →
    HasMessageType expected (rest.drop len.toNat) → HasMessageType expected (type :: len :: rest)

/-- The received bytes are gone through without a read behind them, and something is returned only
if the expected message type is among the options. -/
def ParsedSafely (expected : ℕ) (data : List UInt8) : Prop :=
  ∃ fuel r, dhcpExtractOptions fuel expected data data.length = some (.ok r) ∧
    (r ≠ none → HasMessageType expected (data.drop dhcpHeaderSize))

/-- The messages that are parsed safely: all that is looked at is there, and something is invalid
or the message type is there. -/
theorem parsedSafely_iff {expected : ℕ} {data : List UInt8} (hlen : dhcpHeaderSize ≤ data.length)
    (hlt : data.length + 16 < 2 ^ 32) :
    ParsedSafely expected data ↔
      Readable expected (frames (data.length - dhcpHeaderSize) (data.drop dhcpHeaderSize)) ∧
      ((∃ option ∈ frames (data.length - dhcpHeaderSize) (data.drop dhcpHeaderSize),
          Invalid expected option) ∨
        HasMessageType expected (data.drop dhcpHeaderSize)) := by
  constructor
  · rintro ⟨fuel, r, hr, htype⟩
    have heq := (dhcpExtractOptions_iff hlen hlt).mp ⟨fuel, hr⟩
    have hread := inBounds_visitAll.mp ⟨r, heq.symm⟩
    refine ⟨hread, or_iff_not_imp_left.mpr fun hvalid => htype ?_⟩
    push Not at hvalid
    rw [visitAll_of_valid hread hvalid] at heq
    cases heq
    exact Option.some_ne_none _
  · rintro ⟨hread, h⟩
    have hbounds : InBounds (visitAll expected (headerInfo data) _) := inBounds_visitAll.mpr hread
    obtain ⟨r, hr⟩ := hbounds
    obtain ⟨fuel, hfuel⟩ := (dhcpExtractOptions_iff hlen hlt).mpr hr.symm
    refine ⟨fuel, r, hfuel, fun hsome => h.resolve_left ?_⟩
    rintro ⟨option, hmem, hinvalid⟩
    rw [visitAll_of_invalid hread hmem hinvalid] at hr
    cases hr
    exact hsome rfl

def bareMessage (options : List UInt8) : List UInt8 := List.replicate dhcpHeaderSize 0 ++ options

@[simp] theorem length_bareMessage (options : List UInt8) :
    (bareMessage options).length = dhcpHeaderSize + options.length := by simp [bareMessage]

@[simp] theorem drop_bareMessage (options : List UInt8) :
    (bareMessage options).drop dhcpHeaderSize = options := List.drop_left' List.length_replicate

/-- An offer with a byte behind its end. -/
theorem parsedSafely_offer : dhcpHeaderSize ≤ (bareMessage [53, 1, 2, 255, 0]).length ∧
    ParsedSafely 2 (bareMessage [53, 1, 2, 255, 0]) := by
  have hlen : dhcpHeaderSize ≤ (bareMessage [53, 1, 2, 255, 0]).length := by simp
  refine ⟨hlen, (parsedSafely_iff hlen (by simp [dhcpHeaderSize])).mpr ⟨?_, .inr ?_⟩⟩
  · have hframes : frames 5 [53, 1, 2, 255, 0] = [[53, 1, 2, 255, 0], [255, 0]] := by
      simp [frames, byteAt, dhcpOptionType]
    simp [hframes, Readable, Complete, byteAt, dhcpOptionType]
  · rw [drop_bareMessage]
    exact .here (by decide) rfl

/-- A message without a message type is taken for any that is expected. -/
theorem not_parsedSafely_no_type : ¬ ParsedSafely 2 (bareMessage [255, 0]) := by
  rintro ⟨fuel, r, hr, htype⟩
  have heq := (dhcpExtractOptions_iff (by simp) (by simp [dhcpHeaderSize])).mp ⟨fuel, hr⟩
  have hframes : frames ([255, 0] : List UInt8).length [255, 0] = [[255, 0]] := by
    simp [frames, byteAt, dhcpOptionType]
  rw [length_bareMessage, drop_bareMessage, Nat.add_sub_cancel_left, hframes] at heq
  cases heq
  have h := htype (Option.some_ne_none _)
  rw [drop_bareMessage] at h
  cases h with
  | skip _ hstop _ => exact hstop rfl

end BrickOS.Networking
