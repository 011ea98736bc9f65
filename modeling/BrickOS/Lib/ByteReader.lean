import Mathlib.Algebra.Order.Ring.Nat
import Mathlib.Data.List.Basic

/-! Reading a byte string whose length counts: an index behind the end is a fault, and so is a
difference of lengths that would be negative. -/
namespace BrickOS.Lib

inductive Fault where
  | outOfBounds (index : ℕ)
  | underflow
deriving DecidableEq, Repr

/-- A computation that ran without a fault. -/
def InBounds {α : Type} (m : Except Fault α) : Prop := ∃ a, m = .ok a

/-- The byte at `i`, 0 behind the end. -/
def byteAt (p : List UInt8) (i : ℕ) : ℕ := (p[i]?.getD 0).toNat

/-- The two bytes from `i` on, in network order. -/
def be16 (p : List UInt8) (i : ℕ) : ℕ := byteAt p i * 2 ^ 8 + byteAt p (i + 1)

/-- The four bytes from `i` on, in network order. -/
def be32 (p : List UInt8) (i : ℕ) : ℕ := be16 p i * 2 ^ 16 + be16 p (i + 2)

def readByte (p : List UInt8) (i : ℕ) : Except Fault ℕ :=
  if i < p.length then .ok (byteAt p i) else .error (.outOfBounds i)

def readBe16 (p : List UInt8) (i : ℕ) : Except Fault ℕ := do
  let hi ← readByte p i
  let lo ← readByte p (i + 1)
  return hi * 2 ^ 8 + lo

def readBe32 (p : List UInt8) (i : ℕ) : Except Fault ℕ := do
  let hi ← readBe16 p i
  let lo ← readBe16 p (i + 2)
  return hi * 2 ^ 16 + lo

/-- The `n` bytes from `i` on. -/
def readBytes (p : List UInt8) (i n : ℕ) : Except Fault (List UInt8) :=
  if i + n ≤ p.length then .ok ((p.drop i).take n) else .error (.outOfBounds (i + n - 1))

/-- A difference of lengths. -/
def subLen (a b : ℕ) : Except Fault ℕ := if b ≤ a then .ok (a - b) else .error .underflow

section
variable {α β : Type} {p : List UInt8} {i n : ℕ}

@[simp] theorem ok_bind {ε : Type} (a : α) (f : α → Except ε β) : (Except.ok a >>= f) = f a := rfl

@[simp] theorem error_bind {ε : Type} (e : ε) (f : α → Except ε β) :
    ((Except.error e : Except ε α) >>= f) = .error e := rfl

@[simp] theorem inBounds_ok (a : α) : InBounds (.ok a) := ⟨a, rfl⟩

@[simp] theorem inBounds_pure (a : α) : InBounds (pure a) := ⟨a, rfl⟩

@[simp] theorem not_inBounds_error (e : Fault) : ¬ InBounds (.error e : Except Fault α) := by
  rintro ⟨a, h⟩
  cases h

theorem bind_eq_ok {m : Except Fault α} {f : α → Except Fault β} {b : β} :
    m >>= f = .ok b ↔ ∃ a, m = .ok a ∧ f a = .ok b := by
  cases m with
  | error e => simp
  | ok a => simp

theorem InBounds.of_bind {m : Except Fault α} {f : α → Except Fault β} (h : InBounds (m >>= f)) :
    InBounds m := by
  cases m with
  | error e => exact absurd h (not_inBounds_error e)
  | ok a => exact inBounds_ok a

theorem inBounds_ite {c : Prop} [Decidable c] {m m' : Except Fault α} :
    InBounds (if c then m else m') ↔ (c → InBounds m) ∧ (¬ c → InBounds m') := by
  split_ifs with h <;> simp [h]

theorem readByte_of_lt (h : i < p.length) : readByte p i = .ok (byteAt p i) := if_pos h

theorem readBe16_of_lt (h : i + 1 < p.length) : readBe16 p i = .ok (be16 p i) := by
  rw [readBe16, readByte_of_lt (by omega), readByte_of_lt h]
  rfl

theorem readBe32_of_lt (h : i + 3 < p.length) : readBe32 p i = .ok (be32 p i) := by
  rw [readBe32, readBe16_of_lt (by omega), readBe16_of_lt (by omega)]
  rfl

theorem readBytes_of_le (h : i + n ≤ p.length) : readBytes p i n = .ok ((p.drop i).take n) :=
  if_pos h

theorem subLen_of_le {a b : ℕ} (h : b ≤ a) : subLen a b = .ok (a - b) := if_pos h

@[simp] theorem inBounds_readByte_bind (f : ℕ → Except Fault α) :
    InBounds (readByte p i >>= f) ↔ i < p.length ∧ InBounds (f (byteAt p i)) := by
  by_cases h : i < p.length
  · simp [readByte, h]
  · simp [readByte, h]

@[simp] theorem inBounds_readBe16_bind (f : ℕ → Except Fault α) :
    InBounds (readBe16 p i >>= f) ↔ i + 1 < p.length ∧ InBounds (f (be16 p i)) := by
  simp only [readBe16, bind_assoc, inBounds_readByte_bind, pure_bind, be16]
  constructor
  · exact fun h => h.2
  · exact fun h => ⟨by omega, h⟩

@[simp] theorem inBounds_readBe32_bind (f : ℕ → Except Fault α) :
    InBounds (readBe32 p i >>= f) ↔ i + 3 < p.length ∧ InBounds (f (be32 p i)) := by
  simp only [readBe32, bind_assoc, inBounds_readBe16_bind, pure_bind, be32]
  constructor
  · exact fun h => h.2
  · exact fun h => ⟨by omega, h⟩

@[simp] theorem inBounds_readBytes_bind (f : List UInt8 → Except Fault α) :
    InBounds (readBytes p i n >>= f) ↔ i + n ≤ p.length ∧ InBounds (f ((p.drop i).take n)) := by
  by_cases h : i + n ≤ p.length
  · simp [readBytes, h]
  · simp [readBytes, h]

@[simp] theorem inBounds_subLen_bind {a b : ℕ} (f : ℕ → Except Fault α) :
    InBounds (subLen a b >>= f) ↔ b ≤ a ∧ InBounds (f (a - b)) := by
  by_cases h : b ≤ a
  · simp [subLen, h]
  · simp [subLen, h]

end

theorem byteAt_append_left {p q : List UInt8} {i : ℕ} (h : i < p.length) :
    byteAt (p ++ q) i = byteAt p i := by
  rw [byteAt, byteAt, List.getElem?_append_left h]

theorem byteAt_append_right (p q : List UInt8) (i : ℕ) :
    byteAt (p ++ q) (p.length + i) = byteAt q i := by
  rw [byteAt, byteAt, List.getElem?_append_right (by omega), Nat.add_sub_cancel_left]

theorem be16_append_left {p q : List UInt8} {i : ℕ} (h : i + 1 < p.length) :
    be16 (p ++ q) i = be16 p i := by
  rw [be16, be16, byteAt_append_left (by omega), byteAt_append_left h]

theorem be16_append_right (p q : List UInt8) (i : ℕ) :
    be16 (p ++ q) (p.length + i) = be16 q i := by
  rw [be16, be16, byteAt_append_right, Nat.add_assoc, byteAt_append_right]

theorem be32_append_left {p q : List UInt8} {i : ℕ} (h : i + 3 < p.length) :
    be32 (p ++ q) i = be32 p i := by
  rw [be32, be32, be16_append_left (by omega), be16_append_left h]

theorem byteAt_lt (p : List UInt8) (i : ℕ) : byteAt p i < 2 ^ 8 := UInt8.toNat_lt _

theorem be16_lt (p : List UInt8) (i : ℕ) : be16 p i < 2 ^ 16 := by
  have h1 := byteAt_lt p i
  have h2 := byteAt_lt p (i + 1)
  unfold be16
  omega

theorem be32_lt (p : List UInt8) (i : ℕ) : be32 p i < 2 ^ 32 := by
  have h1 := be16_lt p i
  have h2 := be16_lt p (i + 2)
  unfold be32
  omega

end BrickOS.Lib
