import BrickOS.Basic
import Mathlib.Data.Nat.Digits.Lemmas

/-! The formatter behind the log and `write_bufferf`. The buffer is a list of `bufsz` bytes, and a
write behind its end has no result. -/
namespace BrickOS.Shared

def ascii (c : Char) : UInt8 := UInt8.ofNat c.toNat

/-- What `va_arg` finds: a string or a null pointer, the 32 bits of an `int` or `unsigned int`, or
the 64 bits of an `unsigned long` or a pointer. -/
inductive Arg where
  | string (s : Option (List UInt8))
  | int (v : UInt32)
  | long (v : UInt64)

inductive Specifier where
  | s | c | u | d | x | p
  | unknown (b : UInt8)

def specifier (b : UInt8) : Specifier :=
  if b = ascii 's' then .s
  else if b = ascii 'c' then .c
  else if b = ascii 'u' then .u
  else if b = ascii 'd' then .d
  else if b = ascii 'x' then .x
  else if b = ascii 'p' then .p
  else .unknown b

def nullText : List UInt8 := "(null)".toList.map ascii

def digitChar (n : ℕ) : UInt8 := if n < 10 then UInt8.ofNat (48 + n) else UInt8.ofNat (87 + n)

def digitLoop (base : ℕ) : ℕ → ℕ → List UInt8
  | 0, _ => []
  | room + 1, v => if v = 0 then [] else digitChar (v % base) :: digitLoop base room (v / base)

/-- What is in `tmp`, an array of `size` bytes, before it is copied from its end on. -/
def tmpDigits (base size v : ℕ) : List UInt8 :=
  if v = 0 then [digitChar 0] else digitLoop base size v

structure Output where
  buf : List UInt8
  idx : ℕ

namespace Output

def put (o : Output) (c : UInt8) : Option Output :=
  if o.idx < o.buf.length then some ⟨o.buf.set o.idx c, o.idx + 1⟩ else none

def putChecked (o : Output) (c : UInt8) : Option Output :=
  if o.idx < o.buf.length - 1 then o.put c else some o

def putWhile : Output → List UInt8 → Option Output
  | o, [] => some o
  | o, c :: s => if o.idx < o.buf.length - 1 then (o.put c).bind fun o => o.putWhile s else some o

/-- The `switch` over the conversions. There is no result either when the argument is of another
type. -/
def convert (o : Output) : Specifier → List Arg → Option (Output × List Arg)
  | .s, .string s :: args => do
    return (← o.putWhile (s.getD nullText), args)
  | .c, .int v :: args => do
    return (← o.putChecked v.toUInt8, args)
  | .u, .int v :: args => do
    return (← o.putWhile (tmpDigits 10 32 v.toNat).reverse, args)
  | .d, .int v :: args => do
    let o ← (if toInt v.toNat < 0 then o.putChecked (ascii '-') else some o)
    let uv := if toInt v.toNat < 0 then -v else v
    return (← o.putWhile (tmpDigits 10 32 uv.toNat).reverse, args)
  | .x, .long v :: args => do
    -- These two are the writes without a check.
    let o ← o.put (ascii '0')
    let o ← o.put (ascii 'x')
    return (← o.putWhile (tmpDigits 16 32 v.toNat).reverse, args)
  | .p, .long v :: args => do
    let o ← o.putChecked (ascii '0')
    let o ← o.putChecked (ascii 'x')
    return (← o.putWhile (tmpDigits 16 17 v.toNat).reverse, args)
  | .unknown b, args => do
    let o ← o.putChecked (ascii '%')
    return (← o.putChecked b, args)
  | _, _ => none

def format : Output → List UInt8 → List Arg → Option Output
  | o, [], _ => some o
  | o, c :: fmt, args =>
    if o.idx < o.buf.length - 1 then
      if c ≠ ascii '%' then (o.put c).bind fun o => o.format fmt args
      else match fmt with
        | [] => some o
        | d :: fmt =>
          if d = ascii '%' then (o.put (ascii '%')).bind fun o => o.format fmt args
          else (o.convert (specifier d) args).bind fun r => r.1.format fmt r.2
    else some o

end Output

def simpleVsnprintf (buf fmt : List UInt8) (args : List Arg) : Option (List UInt8 × ℤ) :=
  if buf.length = 0 then some (buf, 0)
  else do
    let o ← Output.format ⟨buf, 0⟩ fmt args
    let r ← o.put 0
    return (r.buf, toInt o.idx)

/-! The complete text. -/

structure Piece where
  hex : Bool
  text : List UInt8

def numeral (base v : ℕ) : List UInt8 :=
  (if v = 0 then [0] else (Nat.digits base v).reverse).map digitChar

def signed (v : ℤ) : List UInt8 := (if v < 0 then [ascii '-'] else []) ++ numeral 10 v.natAbs

def piece : Specifier → List Arg → Option (Piece × List Arg)
  | .s, .string s :: args => some (⟨false, s.getD nullText⟩, args)
  | .c, .int v :: args => some (⟨false, [v.toUInt8]⟩, args)
  | .u, .int v :: args => some (⟨false, numeral 10 v.toNat⟩, args)
  | .d, .int v :: args => some (⟨false, signed (toInt v.toNat)⟩, args)
  | .x, .long v :: args => some (⟨true, [ascii '0', ascii 'x'] ++ numeral 16 v.toNat⟩, args)
  | .p, .long v :: args => some (⟨false, [ascii '0', ascii 'x'] ++ numeral 16 v.toNat⟩, args)
  | .unknown b, args => some (⟨false, [ascii '%', b]⟩, args)
  | _, _ => none

/-- The text of a format string piece by piece. A single `%` at the end stands for nothing; there
is no text when the arguments do not match. -/
def pieces : List UInt8 → List Arg → Option (List Piece)
  | [], _ => some []
  | c :: fmt, args =>
    if c ≠ ascii '%' then (pieces fmt args).map (⟨false, [c]⟩ :: ·)
    else match fmt with
      | [] => some []
      | d :: fmt =>
        if d = ascii '%' then (pieces fmt args).map (⟨false, [ascii '%']⟩ :: ·)
        else (piece (specifier d) args).bind fun r => (pieces fmt r.2).map (r.1 :: ·)

def fullText (ps : List Piece) : List UInt8 := ps.flatMap Piece.text

/-- No `%x` of the pieces, the first of which comes at `k`, has just one character of a buffer of
`bufsz` bytes in front of the place for the terminator. -/
def HexRoom (bufsz : ℕ) : ℕ → List Piece → Prop
  | _, [] => True
  | k, p :: ps => (p.hex → k + 2 ≠ bufsz) ∧ HexRoom bufsz (k + p.text.length) ps

/-- The call stays in the buffer, stores as much of the text as fits in front of a terminator and
returns how much that is. -/
def StoresPrefix (buf fmt : List UInt8) (args : List Arg) (text : List UInt8) : Prop :=
  ∃ r ret, simpleVsnprintf buf fmt args = some (r, ret) ∧ (0 < buf.length →
    r.take (min (buf.length - 1) text.length) = text.take (buf.length - 1) ∧
    r[min (buf.length - 1) text.length]? = some 0 ∧
    ret = (min (buf.length - 1) text.length : ℕ))

section Digits

theorem digitLoop_eq {base : ℕ} (hbase : 1 < base) {room v : ℕ} (h : v < base ^ room) :
    digitLoop base room v = (Nat.digits base v).map digitChar := by
  induction room generalizing v with
  | zero =>
    have hv : v = 0 := by simpa using h
    rw [hv, Nat.digits_zero]
    rfl
  | succ room ih =>
    rw [digitLoop]
    split
    · next hv => rw [hv, Nat.digits_zero, List.map_nil]
    · next hv =>
      have hdiv : v / base < base ^ room := by
        apply Nat.div_lt_of_lt_mul
        rw [← pow_succ']
        exact h
      rw [Nat.digits_def' hbase (Nat.pos_of_ne_zero hv), List.map_cons, ih hdiv]

theorem tmpDigits_reverse {base size v : ℕ} (hbase : 1 < base) (h : v < base ^ size) :
    (tmpDigits base size v).reverse = numeral base v := by
  unfold tmpDigits numeral
  split
  · rfl
  · rw [digitLoop_eq hbase h, List.map_reverse]

theorem toNat_lt_decimal (v : UInt32) : v.toNat < 10 ^ 32 :=
  v.toNat_lt.trans (by norm_num)

theorem toNat_lt_hex (v : UInt64) {size : ℕ} (hsize : 16 ≤ size) : v.toNat < 16 ^ size :=
  v.toNat_lt.trans_le (by
    calc 2 ^ 64 = 16 ^ 16 := by norm_num
      _ ≤ 16 ^ size := Nat.pow_le_pow_right (by norm_num) hsize)

/-- The conversion of a negative number in `%d`, which is right for the smallest one too. -/
theorem toNat_abs (v : UInt32) :
    (if toInt v.toNat < 0 then -v else v).toNat = (toInt v.toNat).natAbs := by
  have hv := v.toNat_lt
  have hmod : v.toNat % 2 ^ 32 = v.toNat := Nat.mod_eq_of_lt hv
  unfold toInt
  rw [hmod]
  split_ifs
  · omega
  · omega
  · rw [UInt32.toNat_neg, UInt32.size]
    omega
  · omega

end Digits

theorem Output.put_of_lt {o : Output} (h : o.idx < o.buf.length) (c : UInt8) :
    ∃ o', o.put c = some o' ∧ o'.idx = o.idx + 1 ∧ o'.buf.length = o.buf.length :=
  ⟨⟨o.buf.set o.idx c, o.idx + 1⟩, if_pos h, rfl, List.length_set⟩

theorem Output.putWhile_full {o : Output} (h : ¬ o.idx < o.buf.length - 1) (s : List UInt8) :
    o.putWhile s = some o := by
  cases s with
  | nil => rfl
  | cons c s => exact if_neg h

structure Output.Stored (bufsz : ℕ) (o : Output) (text : List UInt8) : Prop where
  length : o.buf.length = bufsz
  idx : o.idx = min (bufsz - 1) text.length
  text : o.buf.take o.idx = text.take (bufsz - 1)

namespace Output.Stored

variable {bufsz : ℕ} {o : Output} {text : List UInt8}

theorem full (h : o.Stored bufsz text) (hge : ¬ o.idx < o.buf.length - 1) (s : List UInt8) :
    o.Stored bufsz (text ++ s) := by
  have hlen := h.length
  have hidx := h.idx
  have hle : bufsz - 1 ≤ text.length := by omega
  constructor
  · exact hlen
  · rw [List.length_append]
    omega
  · rw [h.text, List.take_append_of_le_length hle]

theorem put (h : o.Stored bufsz text) (hlt : o.idx < o.buf.length - 1) (c : UInt8) :
    ∃ o', o.put c = some o' ∧ o'.Stored bufsz (text ++ [c]) := by
  have hlen := h.length
  have hidx := h.idx
  have htext := h.text
  have hshort : text.length < bufsz - 1 := by omega
  have hidx' : o.idx = text.length := by omega
  refine ⟨⟨o.buf.set o.idx c, o.idx + 1⟩, if_pos (by omega), ?_⟩
  constructor
  · rw [List.length_set]
    exact hlen
  · change o.idx + 1 = _
    rw [List.length_append, List.length_singleton]
    omega
  · change (o.buf.set o.idx c).take (o.idx + 1) = _
    rw [List.take_of_length_le hshort.le] at htext
    rw [List.take_add_one, List.take_set_of_le le_rfl, htext,
      List.getElem?_set_self (by omega), List.take_of_length_le]
    · rfl
    · rw [List.length_append, List.length_singleton]
      omega

theorem putChecked (h : o.Stored bufsz text) (c : UInt8) :
    ∃ o', o.putChecked c = some o' ∧ o'.Stored bufsz (text ++ [c]) := by
  by_cases hlt : o.idx < o.buf.length - 1
  · obtain ⟨o', ho', h'⟩ := h.put hlt c
    exact ⟨o', (if_pos hlt).trans ho', h'⟩
  · exact ⟨o, if_neg hlt, h.full hlt [c]⟩

theorem putWhile (h : o.Stored bufsz text) (s : List UInt8) :
    ∃ o', o.putWhile s = some o' ∧ o'.Stored bufsz (text ++ s) := by
  induction s generalizing o text with
  | nil => exact ⟨o, rfl, by rwa [List.append_nil]⟩
  | cons c s ih =>
    by_cases hlt : o.idx < o.buf.length - 1
    · obtain ⟨o₁, ho₁, h₁⟩ := h.put hlt c
      obtain ⟨o₂, ho₂, h₂⟩ := ih h₁
      refine ⟨o₂, ?_, ?_⟩
      · rw [Output.putWhile, if_pos hlt, ho₁]
        exact ho₂
      · rwa [List.append_assoc] at h₂
    · exact ⟨o, putWhile_full hlt (c :: s), h.full hlt (c :: s)⟩

/-- `%x` writes its first two characters whenever there is one place for a character. -/
theorem putHex (h : o.Stored bufsz text) (hlt : o.idx < o.buf.length - 1)
    (hroom : text.length + 2 ≠ bufsz) :
    ∃ o₁ o₂, o.put (ascii '0') = some o₁ ∧ o₁.put (ascii 'x') = some o₂ ∧
      o₂.Stored bufsz (text ++ [ascii '0', ascii 'x']) := by
  obtain ⟨o₁, ho₁, h₁⟩ := h.put hlt (ascii '0')
  have hlt₁ : o₁.idx < o₁.buf.length - 1 := by
    have hidx := h.idx
    have hidx₁ := h₁.idx
    have hlen := h.length
    have hlen₁ := h₁.length
    rw [List.length_append, List.length_singleton] at hidx₁
    omega
  obtain ⟨o₂, ho₂, h₂⟩ := h₁.put hlt₁ (ascii 'x')
  rw [List.append_assoc] at h₂
  exact ⟨o₁, o₂, ho₁, ho₂, h₂⟩

end Output.Stored

section Conversions

variable {bufsz : ℕ} {o : Output} {text : List UInt8} {sp : Specifier} {p : Piece}
  {args args' : List Arg}

theorem convert_of_room (hp : piece sp args = some (p, args')) (h : o.Stored bufsz text)
    (hlt : o.idx < o.buf.length - 1) (hroom : p.hex → text.length + 2 ≠ bufsz) :
    ∃ o', o.convert sp args = some (o', args') ∧ o'.Stored bufsz (text ++ p.text) := by
  unfold piece at hp
  split at hp <;> cases hp
  · next s =>
    obtain ⟨o', ho', h'⟩ := h.putWhile (s.getD nullText)
    exact ⟨o', by simp [Output.convert, ho'], h'⟩
  · next v =>
    obtain ⟨o', ho', h'⟩ := h.putChecked v.toUInt8
    exact ⟨o', by simp [Output.convert, ho'], h'⟩
  · next v =>
    obtain ⟨o', ho', h'⟩ := h.putWhile (numeral 10 v.toNat)
    rw [← tmpDigits_reverse (by norm_num) (toNat_lt_decimal v)] at ho'
    exact ⟨o', by simp [Output.convert, ho'], h'⟩
  · next v =>
    -- The sign goes first, if there is one.
    obtain ⟨o₁, ho₁, h₁⟩ : ∃ o₁,
        (if toInt v.toNat < 0 then o.putChecked (ascii '-') else some o) = some o₁ ∧
          o₁.Stored bufsz (text ++ if toInt v.toNat < 0 then [ascii '-'] else []) := by
      split
      · exact h.putChecked (ascii '-')
      · exact ⟨o, rfl, by rwa [List.append_nil]⟩
    obtain ⟨o₂, ho₂, h₂⟩ := h₁.putWhile (numeral 10 (toInt v.toNat).natAbs)
    rw [← toNat_abs, ← tmpDigits_reverse (by norm_num) (toNat_lt_decimal _)] at ho₂
    rw [List.append_assoc] at h₂
    exact ⟨o₂, by simp [Output.convert, ho₁, ho₂], h₂⟩
  · next v =>
    obtain ⟨o₁, o₂, ho₁, ho₂, h₂⟩ := h.putHex hlt (hroom rfl)
    obtain ⟨o₃, ho₃, h₃⟩ := h₂.putWhile (numeral 16 v.toNat)
    rw [← tmpDigits_reverse (by norm_num) (toNat_lt_hex v (by norm_num : 16 ≤ 32))] at ho₃
    rw [List.append_assoc] at h₃
    exact ⟨o₃, by simp [Output.convert, ho₁, ho₂, ho₃], h₃⟩
  · next v =>
    obtain ⟨o₁, ho₁, h₁⟩ := h.putChecked (ascii '0')
    obtain ⟨o₂, ho₂, h₂⟩ := h₁.putChecked (ascii 'x')
    obtain ⟨o₃, ho₃, h₃⟩ := h₂.putWhile (numeral 16 v.toNat)
    rw [← tmpDigits_reverse (by norm_num) (toNat_lt_hex v (by norm_num : 16 ≤ 17))] at ho₃
    rw [List.append_assoc, List.append_assoc] at h₃
    exact ⟨o₃, by simp [Output.convert, ho₁, ho₂, ho₃], h₃⟩
  · next b =>
    obtain ⟨o₁, ho₁, h₁⟩ := h.putChecked (ascii '%')
    obtain ⟨o₂, ho₂, h₂⟩ := h₁.putChecked b
    rw [List.append_assoc] at h₂
    exact ⟨o₂, by simp [Output.convert, ho₁, ho₂], h₂⟩

/-- Without the room the second character takes the place of the terminator. -/
theorem convert_of_no_room (hp : piece sp args = some (p, args')) (h : o.Stored bufsz text)
    (hhex : p.hex = true) (hroom : text.length + 2 = bufsz) :
    ∃ o', o.convert sp args = some (o', args') ∧ o'.idx = bufsz ∧ o'.buf.length = bufsz := by
  have hlen := h.length
  have hidx := h.idx
  unfold piece at hp
  split at hp <;> cases hp
  case h_5 v =>
    obtain ⟨o₁, ho₁, hidx₁, hlen₁⟩ := Output.put_of_lt (o := o) (by omega) (ascii '0')
    obtain ⟨o₂, ho₂, hidx₂, hlen₂⟩ := Output.put_of_lt (o := o₁) (by omega) (ascii 'x')
    have hstop : ¬ o₂.idx < o₂.buf.length - 1 := by omega
    exact ⟨o₂, by simp [Output.convert, ho₁, ho₂, Output.putWhile_full hstop], by omega, by omega⟩
  all_goals cases hhex

end Conversions

section Loop

variable {bufsz : ℕ} {o : Output} {text fmt : List UInt8} {args : List Arg} {ps : List Piece}

theorem hexRoom_of_le {k : ℕ} (h : bufsz ≤ k + 1) (ps : List Piece) : HexRoom bufsz k ps := by
  induction ps generalizing k with
  | nil => trivial
  | cons p ps ih =>
    constructor
    · intro
      omega
    · apply ih
      omega

theorem format_full (hfull : ¬ o.idx < o.buf.length - 1) (fmt : List UInt8) (args : List Arg) :
    o.format fmt args = some o := by
  cases fmt with
  | nil => rfl
  | cons c fmt =>
    rw [Output.format.eq_def]
    exact if_neg hfull

structure Formatted (bufsz : ℕ) (text : List UInt8) (ps : List Piece) (o : Output) : Prop where
  length : o.buf.length = bufsz
  stored : HexRoom bufsz text.length ps → o.Stored bufsz (text ++ fullText ps)
  overrun : ¬ HexRoom bufsz text.length ps → o.idx = bufsz

theorem Formatted.of_stored (h : o.Stored bufsz (text ++ fullText ps))
    (hroom : HexRoom bufsz text.length ps) : Formatted bufsz text ps o :=
  ⟨h.length, fun _ => h, fun hno => (hno hroom).elim⟩

theorem Formatted.cons {p : Piece} (h : Formatted bufsz (text ++ p.text) ps o)
    (hroom : p.hex → text.length + 2 ≠ bufsz) : Formatted bufsz text (p :: ps) o := by
  have hstored := h.stored
  have hover := h.overrun
  rw [List.length_append] at hstored hover
  constructor
  · exact h.length
  · intro hall
    have hs := hstored hall.2
    rwa [List.append_assoc] at hs
  · intro hno
    exact hover fun hrest => hno ⟨hroom, hrest⟩

theorem Formatted.of_full (h : o.Stored bufsz text) (hfull : ¬ o.idx < o.buf.length - 1)
    (ps : List Piece) : Formatted bufsz text ps o := by
  have hlen := h.length
  have hidx := h.idx
  exact .of_stored (h.full hfull _) (hexRoom_of_le (by omega) ps)

theorem format_spec (hps : pieces fmt args = some ps) (h : o.Stored bufsz text) :
    ∃ o', o.format fmt args = some o' ∧ Formatted bufsz text ps o' := by
  induction fmt, args using pieces.induct generalizing o text ps with
  | case1 args =>
    cases hps
    refine ⟨o, rfl, .of_stored ?_ trivial⟩
    rwa [fullText, List.flatMap_nil, List.append_nil]
  | case2 c fmt args hc ih =>
    by_cases hlt : o.idx < o.buf.length - 1
    · rw [pieces.eq_def] at hps
      simp only [if_pos hc] at hps
      obtain ⟨qs, hqs, rfl⟩ := Option.map_eq_some_iff.mp hps
      obtain ⟨o₁, ho₁, h₁⟩ := h.put hlt c
      obtain ⟨o', ho', hf⟩ := ih hqs h₁
      refine ⟨o', ?_, hf.cons nofun⟩
      rw [Output.format.eq_def]
      simp only [if_pos hlt, if_pos hc, ho₁]
      exact ho'
    · exact ⟨o, format_full hlt _ _, .of_full h hlt ps⟩
  | case3 c args hc =>
    by_cases hlt : o.idx < o.buf.length - 1
    · simp only [pieces, if_neg hc, Option.some.injEq] at hps
      subst hps
      refine ⟨o, ?_, .of_stored ?_ trivial⟩
      · simp only [Output.format, if_pos hlt, if_neg hc]
      · rwa [fullText, List.flatMap_nil, List.append_nil]
    · exact ⟨o, format_full hlt _ _, .of_full h hlt ps⟩
  | case4 c args hc fmt ih =>
    by_cases hlt : o.idx < o.buf.length - 1
    · simp only [pieces, if_neg hc, if_true] at hps
      obtain ⟨qs, hqs, rfl⟩ := Option.map_eq_some_iff.mp hps
      obtain ⟨o₁, ho₁, h₁⟩ := h.put hlt (ascii '%')
      obtain ⟨o', ho', hf⟩ := ih hqs h₁
      refine ⟨o', ?_, hf.cons nofun⟩
      simp only [Output.format, if_pos hlt, if_neg hc, if_true, ho₁]
      exact ho'
    · exact ⟨o, format_full hlt _ _, .of_full h hlt ps⟩
  | case5 c args hc d fmt hd ih =>
    by_cases hlt : o.idx < o.buf.length - 1
    · simp only [pieces, if_neg hc, if_neg hd] at hps
      obtain ⟨⟨p, args'⟩, hp, hps⟩ := Option.bind_eq_some_iff.mp hps
      obtain ⟨qs, hqs, rfl⟩ := Option.map_eq_some_iff.mp hps
      by_cases hroom : p.hex → text.length + 2 ≠ bufsz
      · obtain ⟨o₁, ho₁, h₁⟩ := convert_of_room hp h hlt hroom
        obtain ⟨o', ho', hf⟩ := ih (p, args') hqs h₁
        refine ⟨o', ?_, hf.cons hroom⟩
        simp only [Output.format, if_pos hlt, if_neg hc, if_neg hd, ho₁]
        exact ho'
      · have hhex : p.hex = true ∧ text.length + 2 = bufsz := by
          simpa only [Classical.not_imp, not_not] using hroom
        obtain ⟨o₁, ho₁, hidx₁, hlen₁⟩ := convert_of_no_room hp h hhex.1 hhex.2
        have hfull : ¬ o₁.idx < o₁.buf.length - 1 := by omega
        refine ⟨o₁, ?_, hlen₁, fun hall => (hroom hall.1).elim, fun _ => hidx₁⟩
        simp only [Output.format, if_pos hlt, if_neg hc, if_neg hd, ho₁]
        exact format_full hfull fmt args'
    · exact ⟨o, format_full hlt _ _, .of_full h hlt ps⟩

end Loop

theorem toInt_eq_iff (n : ℕ) : toInt n = n ↔ n < 2 ^ 31 := by
  constructor
  · intro h
    unfold toInt at h
    split at h <;> omega
  · exact toInt_of_lt

section
variable {buf fmt : List UInt8} {args : List Arg} {ps : List Piece}

theorem simpleVsnprintf_of_room (hps : pieces fmt args = some ps) (hbuf : buf.length ≠ 0)
    (hroom : HexRoom buf.length 0 ps) :
    ∃ r, simpleVsnprintf buf fmt args =
        some (r, toInt (min (buf.length - 1) (fullText ps).length)) ∧
      r.take (min (buf.length - 1) (fullText ps).length) = (fullText ps).take (buf.length - 1) ∧
      r[min (buf.length - 1) (fullText ps).length]? = some 0 := by
  have hstart : Output.Stored buf.length ⟨buf, 0⟩ [] := ⟨rfl, (Nat.min_zero _).symm, by simp⟩
  obtain ⟨o, ho, hf⟩ := format_spec hps hstart
  have h := hf.stored hroom
  rw [List.nil_append] at h
  have hlt : o.idx < o.buf.length := by
    have hlen := h.length
    have hidx := h.idx
    omega
  refine ⟨o.buf.set o.idx 0, ?_, ?_, ?_⟩
  · rw [simpleVsnprintf, if_neg hbuf, ho, ← h.idx]
    simp [Output.put, hlt]
  · rw [← h.idx, List.take_set_of_le le_rfl]
    exact h.text
  · rw [← h.idx]
    exact List.getElem?_set_self hlt

theorem simpleVsnprintf_of_no_room (hps : pieces fmt args = some ps)
    (hroom : ¬ HexRoom buf.length 0 ps) : simpleVsnprintf buf fmt args = none := by
  have hstart : Output.Stored buf.length ⟨buf, 0⟩ [] := ⟨rfl, (Nat.min_zero _).symm, by simp⟩
  obtain ⟨o, ho, hf⟩ := format_spec hps hstart
  have hbuf : buf.length ≠ 0 := by
    intro hzero
    exact hroom (hexRoom_of_le (by omega) ps)
  have hidx : ¬ o.idx < o.buf.length := by
    rw [hf.overrun hroom, hf.length]
    exact lt_irrefl _
  rw [simpleVsnprintf, if_neg hbuf, ho]
  simp [Output.put, hidx]

/-- `simple_vsnprintf` stores a terminated prefix of the text and returns its length exactly when no
`%x` begins at the last place for a character and the length is an `int`. -/
theorem storesPrefix_iff (hps : pieces fmt args = some ps) :
    StoresPrefix buf fmt args (fullText ps) ↔
      HexRoom buf.length 0 ps ∧ min (buf.length - 1) (fullText ps).length < 2 ^ 31 := by
  by_cases hbuf : buf.length = 0
  · refine iff_of_true ⟨buf, 0, if_pos hbuf, fun hpos => by omega⟩ ⟨?_, ?_⟩
    · exact hexRoom_of_le (by omega) ps
    · rw [hbuf]
      norm_num
  by_cases hroom : HexRoom buf.length 0 ps
  · obtain ⟨r, hr, htake, hzero⟩ := simpleVsnprintf_of_room hps hbuf hroom
    constructor
    · rintro ⟨r', ret, hr', hall⟩
      obtain ⟨-, hret⟩ := Prod.mk.inj (Option.some.inj (hr.symm.trans hr'))
      have hret' := (hall (Nat.pos_of_ne_zero hbuf)).2.2
      exact ⟨hroom, (toInt_eq_iff _).mp (hret.trans hret')⟩
    · intro h
      exact ⟨r, _, hr, fun _ => ⟨htake, hzero, (toInt_eq_iff _).mpr h.2⟩⟩
  · refine iff_of_false ?_ fun h => hroom h.1
    rintro ⟨r, ret, hr, -⟩
    rw [simpleVsnprintf_of_no_room hps hroom] at hr
    cases hr

end

/-- `"%x"` in a buffer of six bytes, which hold the text of 255 and the terminator. -/
theorem storesPrefix_ff :
    StoresPrefix (List.replicate 6 0) [ascii '%', ascii 'x'] [.long 255]
      ("0xff".toList.map ascii) := by
  have hps : pieces [ascii '%', ascii 'x'] [.long 255] =
      some [⟨true, [ascii '0', ascii 'x'] ++ numeral 16 255⟩] := rfl
  have hdigits : Nat.digits 16 255 = [15, 15] := by norm_num
  have htext : fullText [⟨true, [ascii '0', ascii 'x'] ++ numeral 16 255⟩] =
      "0xff".toList.map ascii := by
    rw [fullText, numeral, hdigits]
    decide
  have hroom : HexRoom (List.replicate 6 (0 : UInt8)).length 0
      [⟨true, [ascii '0', ascii 'x'] ++ numeral 16 255⟩] := ⟨fun _ => by decide, trivial⟩
  rw [← htext]
  exact (storesPrefix_iff hps).mpr ⟨hroom, by rw [htext]; decide⟩

/-- `"%x"` in a buffer of two bytes: the terminator goes behind its end. -/
theorem not_storesPrefix_two :
    ¬ StoresPrefix [0, 0] [ascii '%', ascii 'x'] [.long 0] ("0x0".toList.map ascii) := by
  rintro ⟨r, ret, hr, -⟩
  have hnone : simpleVsnprintf [0, 0] [ascii '%', ascii 'x'] [.long 0] = none := by decide
  rw [hnone] at hr
  cases hr

end BrickOS.Shared
