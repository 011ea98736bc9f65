import BrickOS.Shared.Format

/-! IPv4 addresses as text: how they are printed, and which strings are read as addresses. -/
namespace BrickOS.Shared

def writeBufferf (buf fmt : List UInt8) (args : List Arg) : Option (List UInt8) :=
  (simpleVsnprintf buf fmt args).map Prod.fst

def ipv4ToStr (ipAddr : UInt32) (outBuffer : Vector UInt8 16) : Option (List UInt8) :=
  writeBufferf outBuffer.toList ("%d.%d.%d.%d".toList.map ascii)
    [.int ((ipAddr >>> 24) &&& 0xff), .int ((ipAddr >>> 16) &&& 0xff),
      .int ((ipAddr >>> 8) &&& 0xff), .int (ipAddr &&& 0xff)]

def isDigit (b : UInt8) : Bool := ascii '0' ≤ b ∧ b ≤ ascii '9'

/-- The loop of `ipv4_to_uint32` over the characters in front of the terminator, with the `parts` that
are complete; `none` where it returns 0. -/
def ipv4Loop : List UInt8 → List ℕ → ℕ → Option (List ℕ × ℕ)
  | [], parts, value => some (parts, value)
  | b :: str, parts, value =>
    if isDigit b then
      if value * 10 + (b.toNat - 48) > 255 then none
      else ipv4Loop str parts (value * 10 + (b.toNat - 48))
    else if b = ascii '.' then
      if parts.length ≥ 3 then none else ipv4Loop str (parts ++ [value]) 0
    else none

def ipv4ToUint32 (str : List UInt8) : UInt32 :=
  match ipv4Loop str [] 0 with
  | some ([part0, part1, part2], part3) =>
    UInt32.ofNat part0 <<< 24 ||| UInt32.ofNat part1 <<< 16 ||| UInt32.ofNat part2 <<< 8 |||
      UInt32.ofNat part3
  | _ => 0

def numberFrom (value : ℕ) (digits : List UInt8) : ℕ :=
  digits.foldl (fun n b => n * 10 + (b.toNat - 48)) value

def address (parts : List ℕ) : UInt32 := UInt32.ofNat (parts.foldl (fun n part => n * 256 + part) 0)

/-- Digits, perhaps none, of a number up to 255. -/
structure IsOctet (text : List UInt8) : Prop where
  digits : ∀ b ∈ text, isDigit b = true
  le : numberFrom 0 text ≤ 255

def octets (str : List UInt8) : List ℕ := (str.splitOn (ascii '.')).map (numberFrom 0)

structure IsQuad (str : List UInt8) : Prop where
  four : (str.splitOn (ascii '.')).length = 4
  octets : ∀ text ∈ str.splitOn (ascii '.'), IsOctet text

def ReadsAddress (str : List UInt8) : Prop :=
  (IsQuad str ∧ [] ∉ str.splitOn (ascii '.') → ipv4ToUint32 str = address (octets str)) ∧
    (¬ (IsQuad str ∧ [] ∉ str.splitOn (ascii '.')) → ipv4ToUint32 str = 0)

section Shifts

theorem mul_or (a : ℕ) {b i : ℕ} (hb : b < 2 ^ i) : a * 2 ^ i ||| b = a * 2 ^ i + b := by
  rw [← Nat.shiftLeft_eq, Nat.shiftLeft_add_eq_or_of_lt hb]

theorem toNat_ofNat_shiftLeft {a n : ℕ} (ha : a ≤ 255) (hn : n ≤ 24) :
    (UInt32.ofNat a <<< UInt32.ofNat n).toNat = a * 2 ^ n := by
  have hpow : a * 2 ^ n < 2 ^ 32 := by
    calc a * 2 ^ n ≤ 255 * 2 ^ 24 := Nat.mul_le_mul ha (Nat.pow_le_pow_right (by norm_num) hn)
      _ < 2 ^ 32 := by norm_num
  rw [UInt32.toNat_shiftLeft, UInt32.toNat_ofNat', UInt32.toNat_ofNat',
    Nat.mod_eq_of_lt (show a < 2 ^ 32 by omega), Nat.mod_eq_of_lt (show n < 2 ^ 32 by omega),
    Nat.mod_eq_of_lt (show n < 32 by omega), Nat.shiftLeft_eq, Nat.mod_eq_of_lt hpow]

theorem or_eq_address {a b c d : ℕ} (ha : a ≤ 255) (hb : b ≤ 255) (hc : c ≤ 255) (hd : d ≤ 255) :
    UInt32.ofNat a <<< 24 ||| UInt32.ofNat b <<< 16 ||| UInt32.ofNat c <<< 8 ||| UInt32.ofNat d =
      address [a, b, c, d] := by
  have ha' : (UInt32.ofNat a <<< 24).toNat = a * 2 ^ 24 := toNat_ofNat_shiftLeft ha le_rfl
  have hb' : (UInt32.ofNat b <<< 16).toNat = b * 2 ^ 16 := toNat_ofNat_shiftLeft hb (by norm_num)
  have hc' : (UInt32.ofNat c <<< 8).toNat = c * 2 ^ 8 := toNat_ofNat_shiftLeft hc (by norm_num)
  apply UInt32.toNat_inj.mp
  rw [UInt32.toNat_or, UInt32.toNat_or, UInt32.toNat_or, ha', hb', hc', UInt32.toNat_ofNat',
    Nat.mod_eq_of_lt (show d < 2 ^ 32 by omega), mul_or a (show b * 2 ^ 16 < 2 ^ 24 by omega),
    show a * 2 ^ 24 + b * 2 ^ 16 = (a * 2 ^ 8 + b) * 2 ^ 16 by ring,
    mul_or _ (show c * 2 ^ 8 < 2 ^ 16 by omega),
    show (a * 2 ^ 8 + b) * 2 ^ 16 + c * 2 ^ 8 = ((a * 2 ^ 8 + b) * 2 ^ 8 + c) * 2 ^ 8 by ring,
    mul_or _ (show d < 2 ^ 8 by omega), address, UInt32.toNat_ofNat']
  simp only [List.foldl_cons, List.foldl_nil]
  omega

end Shifts

section Loop

variable {str first : List UInt8} {rest : List (List UInt8)} {parts : List ℕ} {value : ℕ}

theorem le_numberFrom (value : ℕ) (digits : List UInt8) : value ≤ numberFrom value digits := by
  induction digits generalizing value with
  | nil => exact le_rfl
  | cons b digits ih =>
    have h := ih (value * 10 + (b.toNat - 48))
    rw [numberFrom, List.foldl_cons]
    rw [numberFrom] at h
    omega

/-- The rest of a string completes an address: `first` goes on with the digits of `value`, behind
`parts`. -/
structure Completes (parts : List ℕ) (value : ℕ) (first : List UInt8) (rest : List (List UInt8)) :
    Prop where
  count : parts.length + rest.length ≤ 3
  digits : ∀ b ∈ first, isDigit b = true
  le : numberFrom value first ≤ 255
  octets : ∀ text ∈ rest, IsOctet text

theorem completes_digit {b : UInt8} :
    Completes parts value (b :: first) rest ↔
      isDigit b = true ∧ Completes parts (value * 10 + (b.toNat - 48)) first rest := by
  constructor
  · intro h
    have hdigits := List.forall_mem_cons.mp h.digits
    exact ⟨hdigits.1, h.count, hdigits.2, h.le, h.octets⟩
  · rintro ⟨hb, h⟩
    exact ⟨h.count, List.forall_mem_cons.mpr ⟨hb, h.digits⟩, h.le, h.octets⟩

theorem completes_dot (hvalue : value ≤ 255) :
    Completes parts value [] (first :: rest) ↔ Completes (parts ++ [value]) 0 first rest := by
  constructor
  · intro h
    have hcount := h.count
    have hfirst := h.octets first List.mem_cons_self
    refine ⟨?_, hfirst.digits, hfirst.le, fun text ht => h.octets text (List.mem_cons_of_mem _ ht)⟩
    rw [List.length_append, List.length_singleton]
    rw [List.length_cons] at hcount
    omega
  · intro h
    have hcount := h.count
    refine ⟨?_, nofun, hvalue, List.forall_mem_cons.mpr ⟨⟨h.digits, h.le⟩, h.octets⟩⟩
    rw [List.length_append, List.length_singleton] at hcount
    rw [List.length_cons]
    omega

/-- The loop ends with a complete address, or returns 0 on the way. -/
theorem ipv4Loop_spec (hsplit : str.splitOn (ascii '.') = first :: rest)
    (hparts : parts.length ≤ 3) (hvalue : value ≤ 255) :
    (Completes parts value first rest → ∃ ps v, ipv4Loop str parts value = some (ps, v) ∧
      ps ++ [v] = parts ++ numberFrom value first :: rest.map (numberFrom 0)) ∧
    (¬ Completes parts value first rest → ipv4Loop str parts value = none) := by
  induction str generalizing first rest parts value with
  | nil =>
    obtain ⟨rfl, rfl⟩ := List.cons.inj (hsplit.symm.trans (List.splitOn_nil _))
    refine ⟨fun _ => ⟨parts, value, rfl, rfl⟩, fun hno => (hno ?_).elim⟩
    exact ⟨hparts, nofun, hvalue, nofun⟩
  | cons b str ih =>
    obtain ⟨first', rest', hsplit'⟩ := List.exists_cons_of_ne_nil (List.splitOn_ne_nil (ascii '.') str)
    rw [List.splitOn_cons_eq_if_modifyHead, hsplit'] at hsplit
    by_cases hdot : b = ascii '.'
    · subst hdot
      rw [if_pos (by simp)] at hsplit
      obtain ⟨rfl, rfl⟩ := List.cons.inj hsplit
      rw [ipv4Loop, if_neg (by decide), if_pos rfl, completes_dot hvalue]
      by_cases hthree : parts.length ≥ 3
      · rw [if_pos hthree]
        refine ⟨fun h => ?_, fun _ => rfl⟩
        have hcount := h.count
        rw [List.length_append, List.length_singleton] at hcount
        omega
      · rw [if_neg hthree]
        have hlen : (parts ++ [value]).length ≤ 3 := by
          rw [List.length_append, List.length_singleton]
          omega
        have h := ih hsplit' hlen (Nat.zero_le 255)
        rw [List.append_assoc] at h
        exact h
    · rw [if_neg (by simpa using hdot), List.modifyHead_cons] at hsplit
      obtain ⟨rfl, rfl⟩ := List.cons.inj hsplit
      rw [ipv4Loop, completes_digit]
      by_cases hdigit : isDigit b = true
      · rw [if_pos hdigit]
        by_cases hbig : value * 10 + (b.toNat - 48) > 255
        · rw [if_pos hbig]
          refine ⟨fun h => ?_, fun _ => rfl⟩
          have hle := (le_numberFrom _ first').trans h.2.le
          omega
        · rw [if_neg hbig]
          have h := ih hsplit' hparts (not_lt.mp hbig)
          exact ⟨fun hc => h.1 hc.2, fun hno => h.2 fun hc => hno ⟨hdigit, hc⟩⟩
      · rw [if_neg hdigit, if_neg hdot]
        exact ⟨fun h => (hdigit h.1).elim, fun _ => rfl⟩

theorem ipv4Loop_start (hsplit : str.splitOn (ascii '.') = first :: rest) :
    (Completes [] 0 first rest → ∃ ps v, ipv4Loop str [] 0 = some (ps, v) ∧
      ps ++ [v] = numberFrom 0 first :: rest.map (numberFrom 0)) ∧
    (¬ Completes [] 0 first rest → ipv4Loop str [] 0 = none) :=
  ipv4Loop_spec hsplit (Nat.zero_le 3) (Nat.zero_le 255)

end Loop

section Reading

variable {str : List UInt8}

theorem isQuad_iff {first : List UInt8} {rest : List (List UInt8)}
    (hsplit : str.splitOn (ascii '.') = first :: rest) :
    IsQuad str ↔ rest.length = 3 ∧ Completes [] 0 first rest := by
  constructor
  · intro h
    have hfour := h.four
    have hoctets := h.octets
    rw [hsplit] at hfour hoctets
    obtain ⟨hfirst, hrest⟩ := List.forall_mem_cons.mp hoctets
    rw [List.length_cons] at hfour
    refine ⟨by omega, ?_, hfirst.digits, hfirst.le, hrest⟩
    rw [List.length_nil]
    omega
  · rintro ⟨hthree, h⟩
    constructor
    · rw [hsplit, List.length_cons, hthree]
    · rw [hsplit]
      exact List.forall_mem_cons.mpr ⟨⟨h.digits, h.le⟩, h.octets⟩

theorem ipv4ToUint32_of_isQuad (h : IsQuad str) : ipv4ToUint32 str = address (octets str) := by
  obtain ⟨first, rest, hsplit⟩ := List.exists_cons_of_ne_nil (List.splitOn_ne_nil (ascii '.') str)
  obtain ⟨hthree, hc⟩ := (isQuad_iff hsplit).mp h
  obtain ⟨b, c, d, rfl⟩ := List.length_eq_three.mp hthree
  obtain ⟨ps, v, hloop, hps⟩ := (ipv4Loop_start hsplit).1 hc
  have hrest := List.forall_mem_cons.mp hc.octets
  have hrest' := List.forall_mem_cons.mp hrest.2
  have hd := (List.forall_mem_cons.mp hrest'.2).1
  have happend : ps ++ [v] = [numberFrom 0 first, numberFrom 0 b, numberFrom 0 c] ++
      [numberFrom 0 d] := hps
  obtain ⟨rfl, hv⟩ := List.append_inj' happend rfl
  obtain rfl := (List.cons.inj hv).1
  rw [ipv4ToUint32, hloop, octets, hsplit]
  exact or_eq_address hc.le hrest.1.le hrest'.1.le hd.le

theorem ipv4ToUint32_of_not_isQuad (h : ¬ IsQuad str) : ipv4ToUint32 str = 0 := by
  obtain ⟨first, rest, hsplit⟩ := List.exists_cons_of_ne_nil (List.splitOn_ne_nil (ascii '.') str)
  rw [isQuad_iff hsplit] at h
  have hspec := ipv4Loop_start hsplit
  by_cases hc : Completes [] 0 first rest
  · -- Too few dots: the loop ends with fewer than three parts.
    obtain ⟨ps, v, hloop, hps⟩ := hspec.1 hc
    have hlen := congrArg List.length hps
    have hps3 : ps.length ≠ 3 := by
      simp only [List.length_append, List.length_nil, List.length_cons, List.length_map] at hlen
      intro h3
      exact h ⟨by omega, hc⟩
    rw [ipv4ToUint32, hloop]
    split
    · next heq =>
      obtain ⟨rfl, -⟩ := Prod.mk.inj (Option.some.inj heq)
      exact (hps3 rfl).elim
    · rfl
  · rw [ipv4ToUint32, hspec.2 hc]

/-- `ipv4_to_uint32` accepts exactly the dotted quads, apart from strings with an empty number. -/
theorem readsAddress_iff (str : List UInt8) :
    ReadsAddress str ↔
      (IsQuad str → [] ∈ str.splitOn (ascii '.') → address (octets str) = 0) := by
  by_cases hquad : IsQuad str
  · rw [ReadsAddress, ipv4ToUint32_of_isQuad hquad]
    by_cases hempty : [] ∈ str.splitOn (ascii '.')
    · simp [hquad, hempty]
    · simp [hquad, hempty]
  · rw [ReadsAddress, ipv4ToUint32_of_not_isQuad hquad]
    simp [hquad]

end Reading

/-- `1..2.3` is read as 1.0.2.3. -/
theorem not_readsAddress_empty : ¬ ReadsAddress ("1..2.3".toList.map ascii) := by
  intro h
  have hempty : [] ∈ ("1..2.3".toList.map ascii).splitOn (ascii '.') := by decide
  have hzero := h.2 fun hquad => hquad.2 hempty
  revert hzero
  decide

section Printing

theorem toNat_digitChar {d : ℕ} (hd : d < 10) : (digitChar d).toNat = 48 + d := by
  rw [digitChar, if_pos hd, UInt8.toNat_ofNat']
  omega

theorem isDigit_digitChar {d : ℕ} (hd : d < 10) : isDigit (digitChar d) = true := by
  have h := toNat_digitChar hd
  have hlo : ascii '0' ≤ digitChar d := by
    rw [UInt8.le_iff_toNat_le, h]
    exact Nat.le_add_right 48 d
  have hhi : digitChar d ≤ ascii '9' := by
    rw [UInt8.le_iff_toNat_le, h]
    change 48 + d ≤ 57
    omega
  simp [isDigit, hlo, hhi]

/-- The digits of a numeral, the first one first. -/
theorem exists_numeral (v : ℕ) : ∃ ds : List ℕ, numeral 10 v = ds.map digitChar ∧
    (∀ d ∈ ds, d < 10) ∧ ds.foldl (fun n d => n * 10 + d) 0 = v ∧ (v ≤ 255 → ds.length ≤ 3) := by
  by_cases hv : v = 0
  · refine ⟨[0], by rw [numeral, if_pos hv], by simp, ?_, fun _ => by norm_num⟩
    rw [hv]
    rfl
  · refine ⟨(Nat.digits 10 v).reverse, by rw [numeral, if_neg hv], ?_, ?_, ?_⟩
    · intro d hd
      exact Nat.digits_lt_base (by norm_num) (List.mem_reverse.mp hd)
    · rw [List.foldl_reverse]
      have hstep : (fun d n : ℕ => n * 10 + d) = fun d n => d + 10 * n := by
        funext d n
        ring
      have h := Nat.ofDigits_digits 10 v
      rw [Nat.ofDigits_eq_foldr] at h
      rw [hstep]
      exact h
    · intro hle
      rw [List.length_reverse]
      exact (Nat.digits_length_le_iff (by norm_num) v).mpr (by omega)

theorem isOctet_numeral {v : ℕ} (hv : v ≤ 255) : IsOctet (numeral 10 v) ∧
    numberFrom 0 (numeral 10 v) = v ∧ (numeral 10 v).length ≤ 3 := by
  obtain ⟨ds, hds, hlt, hfold, hlen⟩ := exists_numeral v
  have hnumber : numberFrom 0 (numeral 10 v) = v := by
    rw [numberFrom, hds, List.foldl_map, ← hfold]
    apply List.foldl_ext
    intro n d hd
    rw [toNat_digitChar (hlt d hd), Nat.add_sub_cancel_left]
  refine ⟨⟨?_, hnumber.le.trans hv⟩, hnumber, ?_⟩
  · intro b hb
    rw [hds] at hb
    obtain ⟨d, hd, rfl⟩ := List.mem_map.mp hb
    exact isDigit_digitChar (hlt d hd)
  · rw [hds, List.length_map]
    exact hlen hv

theorem notMem_numeral {v : ℕ} (hv : v ≤ 255) {b : UInt8} (hb : isDigit b = false) :
    b ∉ numeral 10 v := by
  intro h
  have hdigit := (isOctet_numeral hv).1.digits b h
  rw [hb] at hdigit
  cases hdigit

theorem signed_of_le {v : ℕ} (hv : v ≤ 255) : signed (toInt v) = numeral 10 v := by
  rw [toInt_of_lt (by omega), signed, if_neg (by omega)]
  rfl

theorem pieces_literal {c : UInt8} (hc : c ≠ ascii '%') (fmt : List UInt8) (args : List Arg) :
    pieces (c :: fmt) args = (pieces fmt args).map (⟨false, [c]⟩ :: ·) := by
  rw [pieces.eq_def]
  exact if_pos hc

theorem pieces_decimal (fmt : List UInt8) (v : UInt32) (args : List Arg) :
    pieces (ascii '%' :: ascii 'd' :: fmt) (.int v :: args) =
      (pieces fmt args).map (⟨false, signed (toInt v.toNat)⟩ :: ·) := by
  have hd : ascii 'd' ≠ ascii '%' := by decide
  have hsp : specifier (ascii 'd') = .d := rfl
  rw [pieces, if_neg (fun h => h rfl)]
  simp only [if_neg hd, hsp]
  rfl

def dotted (a b c d : ℕ) : List UInt8 :=
  [ascii '.'].intercalate [numeral 10 a, numeral 10 b, numeral 10 c, numeral 10 d]

section
variable {a b c d : ℕ} (ha : a ≤ 255) (hb : b ≤ 255) (hc : c ≤ 255) (hd : d ≤ 255)
include ha hb hc hd

theorem splitOn_dotted : (dotted a b c d).splitOn (ascii '.') =
    [numeral 10 a, numeral 10 b, numeral 10 c, numeral 10 d] := by
  apply List.splitOn_intercalate _ _ (List.cons_ne_nil _ _)
  have hdot : isDigit (ascii '.') = false := by decide
  simp only [List.forall_mem_cons]
  exact ⟨notMem_numeral ha hdot, notMem_numeral hb hdot, notMem_numeral hc hdot,
    notMem_numeral hd hdot, nofun⟩

theorem ipv4ToUint32_dotted : ipv4ToUint32 (dotted a b c d) = address [a, b, c, d] := by
  have hsplit := splitOn_dotted ha hb hc hd
  have hquad : IsQuad (dotted a b c d) := by
    constructor
    · rw [hsplit]
      rfl
    · rw [hsplit]
      simp only [List.forall_mem_cons]
      exact ⟨(isOctet_numeral ha).1, (isOctet_numeral hb).1, (isOctet_numeral hc).1,
        (isOctet_numeral hd).1, nofun⟩
  rw [ipv4ToUint32_of_isQuad hquad, octets, hsplit]
  simp only [List.map_cons, List.map_nil, (isOctet_numeral ha).2.1, (isOctet_numeral hb).2.1,
    (isOctet_numeral hc).2.1, (isOctet_numeral hd).2.1]

theorem length_dotted : (dotted a b c d).length ≤ 15 := by
  have h₁ := (isOctet_numeral ha).2.2
  have h₂ := (isOctet_numeral hb).2.2
  have h₃ := (isOctet_numeral hc).2.2
  have h₄ := (isOctet_numeral hd).2.2
  simp only [dotted, List.intercalate_cons_cons, List.intercalate_singleton, List.length_append,
    List.length_singleton]
  omega

theorem zero_notMem_dotted : 0 ∉ dotted a b c d := by
  have hzero : isDigit 0 = false := by decide
  have hdot : (0 : UInt8) ≠ ascii '.' := by decide
  simp only [dotted, List.intercalate_cons_cons, List.intercalate_singleton, List.mem_append,
    List.mem_singleton, notMem_numeral ha hzero, notMem_numeral hb hzero, notMem_numeral hc hzero,
    notMem_numeral hd hzero, hdot, or_self, not_false_eq_true]

end

theorem pieces_dotted (a b c d : UInt32) :
    pieces ("%d.%d.%d.%d".toList.map ascii) [.int a, .int b, .int c, .int d] =
      some [⟨false, signed (toInt a.toNat)⟩, ⟨false, [ascii '.']⟩,
        ⟨false, signed (toInt b.toNat)⟩, ⟨false, [ascii '.']⟩,
        ⟨false, signed (toInt c.toNat)⟩, ⟨false, [ascii '.']⟩,
        ⟨false, signed (toInt d.toNat)⟩] := by
  have hdot : ascii '.' ≠ ascii '%' := by decide
  have hfmt : "%d.%d.%d.%d".toList.map ascii = [ascii '%', ascii 'd', ascii '.', ascii '%',
      ascii 'd', ascii '.', ascii '%', ascii 'd', ascii '.', ascii '%', ascii 'd'] := rfl
  rw [hfmt, pieces_decimal, pieces_literal hdot, pieces_decimal, pieces_literal hdot,
    pieces_decimal, pieces_literal hdot, pieces_decimal, pieces]
  rfl

/-- The formatter has room for every address. -/
theorem writeBufferf_dotted {a b c d : UInt32} (ha : a.toNat ≤ 255) (hb : b.toNat ≤ 255)
    (hc : c.toNat ≤ 255) (hd : d.toNat ≤ 255) (outBuffer : Vector UInt8 16) :
    ∃ r, writeBufferf outBuffer.toList ("%d.%d.%d.%d".toList.map ascii)
        [.int a, .int b, .int c, .int d] = some r ∧
      dotted a.toNat b.toNat c.toNat d.toNat ++ [0] <+: r := by
  have hps := pieces_dotted a b c d
  rw [signed_of_le ha, signed_of_le hb, signed_of_le hc, signed_of_le hd] at hps
  have hlen := length_dotted ha hb hc hd
  have hbuf : outBuffer.toList.length = 16 := outBuffer.length_toList
  obtain ⟨r, hr, htake, hzero⟩ := simpleVsnprintf_of_room hps (by rw [hbuf]; decide)
    ⟨nofun, nofun, nofun, nofun, nofun, nofun, nofun, trivial⟩
  refine ⟨r, by rw [writeBufferf, hr]; rfl, ?_⟩
  have htext : fullText [⟨false, numeral 10 a.toNat⟩, ⟨false, [ascii '.']⟩,
      ⟨false, numeral 10 b.toNat⟩, ⟨false, [ascii '.']⟩, ⟨false, numeral 10 c.toNat⟩,
      ⟨false, [ascii '.']⟩, ⟨false, numeral 10 d.toNat⟩] =
      dotted a.toNat b.toNat c.toNat d.toNat := by
    simp [fullText, dotted]
  rw [htext, hbuf, min_eq_right hlen] at htake hzero
  rw [List.take_of_length_le hlen] at htake
  have hsucc : r.take ((dotted a.toNat b.toNat c.toNat d.toNat).length + 1) =
      dotted a.toNat b.toNat c.toNat d.toNat ++ [0] := by
    rw [List.take_add_one, htake, hzero]
    rfl
  rw [← hsucc]
  exact List.take_prefix _ r

end Printing

theorem toNat_octet (ipAddr : UInt32) {k : ℕ} (hk : k < 32) :
    ((ipAddr >>> UInt32.ofNat k) &&& 0xff).toNat = ipAddr.toNat / 2 ^ k % 256 := by
  rw [UInt32.toNat_and, UInt32.toNat_shiftRight, UInt32.toNat_ofNat',
    Nat.mod_eq_of_lt (show k < 2 ^ 32 by omega), Nat.mod_eq_of_lt hk, Nat.shiftRight_eq_div_pow]
  exact Nat.and_two_pow_sub_one_eq_mod _ 8

/-- The text of an address fits in the 16 bytes with its terminator and is read back as the
address. -/
theorem ipv4ToStr_roundTrip (ipAddr : UInt32) (outBuffer : Vector UInt8 16) :
    ∃ r text, ipv4ToStr ipAddr outBuffer = some r ∧ text ++ [0] <+: r ∧ text.length + 1 ≤ 16 ∧
      0 ∉ text ∧ ipv4ToUint32 text = ipAddr := by
  have hlt := ipAddr.toNat_lt
  have ha : ((ipAddr >>> 24) &&& 0xff).toNat = ipAddr.toNat / 2 ^ 24 % 256 :=
    toNat_octet ipAddr (by norm_num)
  have hb : ((ipAddr >>> 16) &&& 0xff).toNat = ipAddr.toNat / 2 ^ 16 % 256 :=
    toNat_octet ipAddr (by norm_num)
  have hc : ((ipAddr >>> 8) &&& 0xff).toNat = ipAddr.toNat / 2 ^ 8 % 256 :=
    toNat_octet ipAddr (by norm_num)
  have hd : (ipAddr &&& 0xff).toNat = ipAddr.toNat % 256 := by
    rw [UInt32.toNat_and]
    exact Nat.and_two_pow_sub_one_eq_mod _ 8
  have ha' : ((ipAddr >>> 24) &&& 0xff).toNat ≤ 255 := by omega
  have hb' : ((ipAddr >>> 16) &&& 0xff).toNat ≤ 255 := by omega
  have hc' : ((ipAddr >>> 8) &&& 0xff).toNat ≤ 255 := by omega
  have hd' : (ipAddr &&& 0xff).toNat ≤ 255 := by omega
  obtain ⟨r, hr, hprefix⟩ := writeBufferf_dotted ha' hb' hc' hd' outBuffer
  refine ⟨r, _, hr, hprefix, Nat.succ_le_succ (length_dotted ha' hb' hc' hd'),
    zero_notMem_dotted ha' hb' hc' hd', ?_⟩
  rw [ipv4ToUint32_dotted ha' hb' hc' hd', ha, hb, hc, hd]
  apply UInt32.toNat_inj.mp
  rw [address, UInt32.toNat_ofNat']
  simp only [List.foldl_cons, List.foldl_nil]
  omega

end BrickOS.Shared
