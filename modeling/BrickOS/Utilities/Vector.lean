import BrickOS.Lib.ByteReader
import BrickOS.Lib.Run
import Mathlib.Algebra.Order.Ring.Nat
import Mathlib.Data.List.Basic
import Mathlib.Data.Nat.Log

/-! The kernel's growable arrays. An array is the list of the elements that `kmalloc` made room for. -/
namespace BrickOS.Utilities
open BrickOS.Lib

/-- How a call ends without a next state: the heap is used up and `kmalloc` panics, or an element
outside the array is read or written. -/
inductive VectorStop where
  | panic
  | outOfBounds
deriving DecidableEq

structure VectorT where
  size : ℕ
  capacity : ℕ
  data : List UInt64

def kernelHeapSize : ℕ := 0x20000000

/-- `kmalloc` of an array of `n` elements; `stale` is what the memory holds. Its argument has 32
bits. -/
def kmallocArray (stale : ℕ → UInt64) (n : ℕ) : Except VectorStop (List UInt64) :=
  if 8 * n % 2 ^ 32 ≤ kernelHeapSize then .ok ((List.range (8 * n % 2 ^ 32 / 8)).map stale)
  else .error .panic

def load (data : List UInt64) (i : ℕ) : Except VectorStop UInt64 :=
  match data[i]? with
  | some x => .ok x
  | none => .error .outOfBounds

def store (data : List UInt64) (i : ℕ) (x : UInt64) : Except VectorStop (List UInt64) :=
  if i < data.length then .ok (data.set i x) else .error .outOfBounds

/-- `memcpy` of the first elements, as many as there are in `bytes`. -/
def copyElements (dest src : List UInt64) (bytes : ℕ) : Except VectorStop (List UInt64) :=
  if bytes / 8 ≤ dest.length ∧ bytes / 8 ≤ src.length then
    .ok (src.take (bytes / 8) ++ dest.drop (bytes / 8))
  else .error .outOfBounds

/-- A `uint32_t` as a `float`: rounded to 24 bits, ties to even. -/
def toFloat (n : ℕ) : ℕ :=
  let ulp := 2 ^ (Nat.log 2 n - 23)
  let up := 2 * (n % ulp) > ulp ∨ 2 * (n % ulp) = ulp ∧ n / ulp % 2 = 1
  (n / ulp + if up then 1 else 0) * ulp

namespace VectorT

def resize (stale : ℕ → UInt64) (v : VectorT) (newCapacity : ℕ) : Except VectorStop VectorT := do
  let newData ← kmallocArray stale newCapacity
  let newData ← copyElements newData v.data (v.size * 8 % 2 ^ 32)
  return { v with data := newData, capacity := newCapacity }

def append (stale : ℕ → UInt64) (v : VectorT) (x : UInt64) : Except VectorStop VectorT := do
  let v ← (if v.size ≥ v.capacity then v.resize stale (v.capacity * 2 % 2 ^ 32) else .ok v)
  let data ← store v.data v.size x
  return { v with data := data, size := (v.size + 1) % 2 ^ 32 }

def isEmpty (v : VectorT) : Bool := v.size = 0

def pop (stale : ℕ → UInt64) (v : VectorT) : Except VectorStop (VectorT × UInt64) :=
  if !v.isEmpty then do
    -- `size - 1 <= capacity * 0.25f`
    let v ← (if 4 * toFloat (v.size - 1) ≤ toFloat v.capacity then v.resize stale (v.capacity / 2)
      else .ok v)
    let x ← load v.data (v.size - 1)
    return ({ v with size := v.size - 1 }, x)
  else .ok (v, 0)

def eraseLoop : List UInt64 → ℕ → ℕ → Except VectorStop (List UInt64)
  | data, 0, _ => .ok data
  | data, turns + 1, i => do
    let x ← load data (i + 1)
    let data ← store data i x
    eraseLoop data turns (i + 1)

def erase (v : VectorT) (idx : ℕ) : Except VectorStop (VectorT × UInt64) := do
  let erasedItem ← load v.data idx
  let data ← eraseLoop v.data (v.size - 1 - idx) idx
  return ({ v with data := data, size := v.size - 1 }, erasedItem)

def findLoop (data : List UInt64) (x : UInt64) : ℕ → ℕ → Except VectorStop ℕ
  | 0, _ => .ok (2 ^ 32 - 1)
  | turns + 1, i => do
    let y ← load data i
    if y = x then return i else findLoop data x turns (i + 1)

def find (v : VectorT) (x : UInt64) : Except VectorStop ℕ := findLoop v.data x v.size 0

def eraseItem (v : VectorT) (x : UInt64) : Except VectorStop (VectorT × UInt64) := do
  let idx ← v.find x
  if idx = 2 ^ 32 - 1 then return (v, UInt64.ofNat idx) else v.erase idx

end VectorT

def initVector (stale : ℕ → UInt64) : VectorT := ⟨0, 1, [stale 0]⟩

inductive VectorCall where
  | append (x : UInt64)
  | pop
  | erase (idx : ℕ)
  | find (x : UInt64)
  | eraseItem (x : UInt64)
deriving DecidableEq

def VectorT.step (stale : ℕ → UInt64) (v : VectorT) :
    VectorCall → Except VectorStop (VectorT × UInt64)
  | .append x => return (← v.append stale x, 0)
  | .pop => v.pop stale
  | .erase idx => v.erase idx
  | .find x => return (v, UInt64.ofNat (← v.find x))
  | .eraseItem x => v.eraseItem x

/-- A call on a list. An item that is not found has the index `2 ^ 32 - 1`. -/
def VectorCall.onList (l : List UInt64) : VectorCall → List UInt64 × UInt64
  | .append x => (l ++ [x], 0)
  | .pop => (l.dropLast, l.getLast?.getD 0)
  | .erase idx => (l.eraseIdx idx, l[idx]?.getD 0)
  | .find x => (l, if x ∈ l then UInt64.ofNat (l.idxOf x) else UInt64.ofNat (2 ^ 32 - 1))
  | .eraseItem x => (l.erase x, if x ∈ l then x else UInt64.ofNat (2 ^ 32 - 1))

def Legal : List UInt64 → List VectorCall → Prop
  | _, [] => True
  | l, c :: calls => (∀ idx, c = .erase idx → idx < l.length) ∧ Legal (c.onList l).1 calls

structure VectorT.Holds (v : VectorT) (l : List UInt64) : Prop where
  elements : v.data.take v.size = l
  size_le : v.size ≤ v.capacity
  capacity_pos : 1 ≤ v.capacity
  allocated : v.data.length = v.capacity

/-- After every call the vector holds the list, and no element outside the array is touched. -/
def VectorT.Refines (stale : ℕ → UInt64) : VectorT → List UInt64 → List VectorCall → Prop
  | v, l, [] => v.Holds l
  | v, l, c :: calls => v.Holds l ∧ match v.step stale c with
    | .ok r => r.2 = (c.onList l).2 ∧ r.1.Refines stale (c.onList l).1 calls
    | .error stop => stop = .panic

def VectorT.next (stale : ℕ → UInt64) (v : VectorT) (c : VectorCall) : Option VectorT :=
  match v.step stale c with
  | .ok r => some r.1
  | .error _ => none

def VectorT.KeepsOne (v : VectorT) (c : VectorCall) : Prop :=
  c = .pop → ¬ (v.size = 1 ∧ v.capacity = 1)

section Float

theorem toFloat_two_pow (k : ℕ) : toFloat (2 ^ k) = 2 ^ k := by
  have hlog : Nat.log 2 (2 ^ k) = k := Nat.log_pow (by decide) k
  have hdvd : 2 ^ (k - 23) ∣ 2 ^ k := Nat.pow_dvd_pow 2 (Nat.sub_le k 23)
  have hpos : 0 < 2 ^ (k - 23) := Nat.two_pow_pos _
  have hmod : 2 ^ k % 2 ^ (k - 23) = 0 := Nat.mod_eq_zero_of_dvd hdvd
  simp only [toFloat, hlog, hmod]
  rw [if_neg (by omega), Nat.add_zero, Nat.div_mul_cancel hdvd]

theorem two_pow_log_le_toFloat {n : ℕ} (hn : n ≠ 0) : 2 ^ Nat.log 2 n ≤ toFloat n := by
  have hdvd : 2 ^ (Nat.log 2 n - 23) ∣ 2 ^ Nat.log 2 n := Nat.pow_dvd_pow 2 (Nat.sub_le _ 23)
  have hle : 2 ^ Nat.log 2 n ≤ n := Nat.pow_log_le_self 2 hn
  calc 2 ^ Nat.log 2 n = 2 ^ Nat.log 2 n / 2 ^ (Nat.log 2 n - 23) * 2 ^ (Nat.log 2 n - 23) :=
        (Nat.div_mul_cancel hdvd).symm
    _ ≤ n / 2 ^ (Nat.log 2 n - 23) * 2 ^ (Nat.log 2 n - 23) :=
        Nat.mul_le_mul_right _ (Nat.div_le_div_right hle)
    _ ≤ toFloat n := Nat.mul_le_mul_right _ (Nat.le_add_right _ _)

/-- Rounding takes no number to a power of two below it. -/
theorem lt_two_pow_of_toFloat_lt {n k : ℕ} (h : toFloat n < 2 ^ k) : n < 2 ^ k := by
  by_contra hge
  have hn : n ≠ 0 := by
    have hpos : 0 < 2 ^ k := Nat.two_pow_pos k
    omega
  have hlog : k ≤ Nat.log 2 n := (Nat.le_log_iff_pow_le (by decide) hn).mpr (not_lt.mp hge)
  have hpow : 2 ^ k ≤ 2 ^ Nat.log 2 n := Nat.pow_le_pow_right (by decide) hlog
  have hle := two_pow_log_le_toFloat hn
  omega

/-- A vector that is shrunk fits in half of its capacity. -/
theorem size_le_of_shrinks {size k : ℕ} (hshrink : 4 * toFloat (size - 1) ≤ toFloat (2 ^ (k + 1))) :
    size ≤ 2 ^ k := by
  rw [toFloat_two_pow, pow_succ] at hshrink
  have hpos : 0 < 2 ^ k := Nat.two_pow_pos k
  have hlt := lt_two_pow_of_toFloat_lt (n := size - 1) (k := k) (by omega)
  omega

end Float

structure VectorT.Inv (v : VectorT) (l : List UInt64) : Prop extends v.Holds l where
  power : ∃ k ≤ 26, v.capacity = 2 ^ k

section Calls

variable {stale : ℕ → UInt64} {v : VectorT} {l : List UInt64}

theorem VectorT.Holds.length_eq (h : v.Holds l) : l.length = v.size := by
  have hle := h.size_le
  have hlen := h.allocated
  rw [← h.elements, List.length_take]
  omega

theorem VectorT.Inv.size_lt (h : v.Inv l) : v.size ≤ 2 ^ 26 := by
  obtain ⟨k, hk, hcap⟩ := h.power
  have hle := h.size_le
  have hpow : 2 ^ k ≤ 2 ^ 26 := Nat.pow_le_pow_right (by decide) hk
  omega

theorem kmallocArray_of_le {k : ℕ} (hk : k ≤ 26) :
    kmallocArray stale (2 ^ k) = .ok ((List.range (2 ^ k)).map stale) := by
  have hpow : 2 ^ k ≤ 2 ^ 26 := Nat.pow_le_pow_right (by decide) hk
  have hmod : 8 * 2 ^ k % 2 ^ 32 = 8 * 2 ^ k := Nat.mod_eq_of_lt (by omega)
  have hheap : 8 * 2 ^ k ≤ kernelHeapSize := by
    unfold kernelHeapSize
    omega
  rw [kmallocArray, hmod, if_pos hheap, Nat.mul_div_cancel_left _ (by decide)]

theorem VectorT.Inv.resize (h : v.Inv l) (stale : ℕ → UInt64) {k : ℕ} (hk : k ≤ 26) (hsize : v.size ≤ 2 ^ k) :
    ∃ w, v.resize stale (2 ^ k) = .ok w ∧ w.Inv l ∧ w.size = v.size ∧ w.capacity = 2 ^ k := by
  have hlt := h.size_lt
  have hlen := h.allocated
  have hle := h.size_le
  have hbytes : v.size * 8 % 2 ^ 32 / 8 = v.size := by omega
  have hnew : ((List.range (2 ^ k)).map stale).length = 2 ^ k := by
    rw [List.length_map, List.length_range]
  have htake : (v.data.take v.size).length = v.size := by
    rw [List.length_take]
    omega
  refine ⟨⟨v.size, 2 ^ k, v.data.take v.size ++ ((List.range (2 ^ k)).map stale).drop v.size⟩, ?_, ?_,
    rfl, rfl⟩
  · have hcopy : copyElements ((List.range (2 ^ k)).map stale) v.data (v.size * 8 % 2 ^ 32) =
        .ok (v.data.take v.size ++ ((List.range (2 ^ k)).map stale).drop v.size) := by
      rw [copyElements, hbytes, if_pos ⟨by omega, by omega⟩]
    simp only [VectorT.resize, kmallocArray_of_le hk, ok_bind, hcopy]
    rfl
  · refine ⟨⟨?_, hsize, Nat.two_pow_pos k, ?_⟩, k, hk, rfl⟩
    · change (v.data.take v.size ++ _).take v.size = l
      rw [List.take_append_of_le_length htake.ge, List.take_take, min_self]
      exact h.elements
    · change (v.data.take v.size ++ _).length = 2 ^ k
      rw [List.length_append, List.length_drop, htake, hnew]
      omega

def Steps (stale : ℕ → UInt64) (v : VectorT) (l : List UInt64) (c : VectorCall) : Prop :=
  v.step stale c = .error .panic ∨
    ∃ w, v.step stale c = .ok (w, (c.onList l).2) ∧ w.Inv (c.onList l).1

theorem VectorT.Inv.store (h : v.Inv l) (hlt : v.size < v.capacity) (x : UInt64) :
    ∃ data, store v.data v.size x = .ok data ∧
      VectorT.Inv ⟨(v.size + 1) % 2 ^ 32, v.capacity, data⟩ (l ++ [x]) := by
  have hlen := h.allocated
  have hsmall := h.size_lt
  refine ⟨v.data.set v.size x, if_pos (by omega), ⟨?_, ?_, h.capacity_pos, ?_⟩, h.power⟩
  · change (v.data.set v.size x).take ((v.size + 1) % 2 ^ 32) = l ++ [x]
    rw [Nat.mod_eq_of_lt (by omega), List.take_add_one, List.take_set_of_le le_rfl, h.elements,
      List.getElem?_set_self (by omega)]
    rfl
  · change (v.size + 1) % 2 ^ 32 ≤ v.capacity
    omega
  · change (v.data.set v.size x).length = v.capacity
    rw [List.length_set, hlen]

theorem steps_append (h : v.Inv l) (x : UInt64) : Steps stale v l (.append x) := by
  obtain ⟨k, hk, hcap⟩ := h.power
  have hle := h.size_le
  by_cases hfull : v.size ≥ v.capacity
  · have hdouble : v.capacity * 2 % 2 ^ 32 = 2 ^ (k + 1) := by
      have hpow : 2 ^ k ≤ 2 ^ 26 := Nat.pow_le_pow_right (by decide) hk
      rw [hcap, Nat.mod_eq_of_lt (by omega), pow_succ]
    have hpow : 2 ^ (k + 1) = 2 ^ k * 2 := pow_succ 2 k
    have hpos : 0 < 2 ^ k := Nat.two_pow_pos k
    by_cases hroom : k + 1 ≤ 26
    · obtain ⟨w, hw, hinv, hsize, hwcap⟩ := h.resize stale hroom (by omega)
      obtain ⟨data, hdata, hinv'⟩ := hinv.store (by omega) x
      refine .inr ⟨_, ?_, hinv'⟩
      simp only [VectorT.step, VectorT.append, if_pos hfull, hdouble, hw, ok_bind, hdata]
      rfl
    · left
      obtain rfl : k = 26 := by omega
      have hpanic : kmallocArray stale (2 ^ 27) = .error .panic := if_neg (by decide)
      simp only [VectorT.step, VectorT.append, if_pos hfull, hdouble, VectorT.resize, hpanic,
        error_bind]
  · obtain ⟨data, hdata, hinv'⟩ := h.store (not_le.mp hfull) x
    refine .inr ⟨_, ?_, hinv'⟩
    simp only [VectorT.step, VectorT.append, if_neg hfull, ok_bind, hdata]
    rfl

theorem load_of_lt {data : List UInt64} {i : ℕ} (h : i < data.length) :
    load data i = .ok (data.get ⟨i, h⟩) := by
  rw [load, List.getElem?_eq_getElem h]
  rfl

theorem take_drop_of_lt {data : List UInt64} {i : ℕ} (h : i < data.length) (n : ℕ) :
    (data.drop i).take (n + 1) = data.get ⟨i, h⟩ :: (data.drop (i + 1)).take n := by
  rw [List.drop_eq_getElem_cons h, List.take_succ_cons]
  rfl

theorem VectorT.Holds.load (h : v.Holds l) {i : ℕ} (hi : i < l.length) :
    load v.data i = .ok (l[i]?.getD 0) := by
  have hlt : i < v.data.length := by
    rw [← h.elements, List.length_take] at hi
    omega
  rw [load_of_lt hlt, ← h.elements, List.getElem?_take_of_lt (h.length_eq ▸ hi),
    List.getElem?_eq_getElem hlt]
  rfl

theorem VectorT.Inv.popLast (h : v.Inv l) (hpos : 0 < v.size) :
    ∃ x, load v.data (v.size - 1) = .ok x ∧ l.getLast?.getD 0 = x ∧
      VectorT.Inv ⟨v.size - 1, v.capacity, v.data⟩ l.dropLast := by
  have hlength := h.length_eq
  refine ⟨_, h.load (by omega), ?_, ⟨?_, ?_, h.capacity_pos, h.allocated⟩, h.power⟩
  · rw [List.getLast?_eq_getElem?, hlength]
  · change v.data.take (v.size - 1) = _
    rw [List.dropLast_eq_take, hlength, ← h.elements, List.take_take, min_eq_left (Nat.sub_le _ _)]
  · exact (Nat.sub_le _ _).trans h.size_le

theorem steps_pop (h : v.Inv l) (hone : ¬ (v.size = 1 ∧ v.capacity = 1)) :
    Steps stale v l .pop := by
  have hlength := h.length_eq
  right
  by_cases hzero : v.size = 0
  · obtain rfl : l = [] := List.length_eq_zero_iff.mp (hlength.trans hzero)
    refine ⟨v, ?_, h⟩
    simp [VectorT.step, VectorT.pop, VectorT.isEmpty, hzero, VectorCall.onList]
  · have hempty : (!v.isEmpty) = true := by simpa [VectorT.isEmpty] using hzero
    simp only [VectorT.step, VectorT.pop, if_pos hempty]
    by_cases hshrink : 4 * toFloat (v.size - 1) ≤ toFloat v.capacity
    · obtain ⟨k, hk, hcap⟩ := h.power
      cases k with
      | zero =>
        have hle := h.size_le
        exact (hone ⟨by omega, hcap⟩).elim
      | succ k =>
        rw [hcap] at hshrink
        have hhalf : v.capacity / 2 = 2 ^ k := by
          rw [hcap, pow_succ, Nat.mul_div_cancel _ (by decide)]
        obtain ⟨w, hw, hinv, hsize, -⟩ := h.resize stale (by omega) (size_le_of_shrinks hshrink)
        obtain ⟨x, hx, hlast, hinv'⟩ := hinv.popLast (by omega)
        refine ⟨_, ?_, hinv'⟩
        rw [hcap, if_pos hshrink, ← hcap, hhalf, hw]
        simp only [ok_bind, hx]
        rw [← hlast]
        rfl
    · obtain ⟨x, hx, hlast, hinv'⟩ := h.popLast (by omega)
      refine ⟨_, ?_, hinv'⟩
      rw [if_neg hshrink]
      simp only [ok_bind, hx]
      rw [← hlast]
      rfl

/-- The last element of a vector of capacity one is copied to an array of no elements. -/
theorem pop_of_one (hsize : v.size = 1) (hcap : v.capacity = 1) :
    v.step stale .pop = .error .outOfBounds := by
  have hempty : (!v.isEmpty) = true := by simp [VectorT.isEmpty, hsize]
  have hshrink : 4 * toFloat (v.size - 1) ≤ toFloat v.capacity := by
    rw [hsize, hcap]
    decide
  have hcopy : copyElements [] v.data (1 * 8 % 2 ^ 32) = .error .outOfBounds := if_neg (by simp)
  have hnew : kmallocArray stale 0 = .ok [] := rfl
  have hresize : v.resize stale (v.capacity / 2) = .error .outOfBounds := by
    simp only [VectorT.resize, hcap, hsize]
    rw [show 1 / 2 = 0 from rfl, hnew, ok_bind, hcopy, error_bind]
  simp only [VectorT.step, VectorT.pop, if_pos hempty, if_pos hshrink, hresize, error_bind]

theorem eraseLoop_eq {data : List UInt64} {turns i : ℕ} (h : i + turns < data.length) :
    VectorT.eraseLoop data turns i =
      .ok (data.take i ++ (data.drop (i + 1)).take turns ++ data.drop (i + turns)) := by
  induction turns generalizing data i with
  | zero => simp [VectorT.eraseLoop]
  | succ turns ih =>
    have hlt : i + 1 < data.length := by omega
    have hstore : store data i (data.get ⟨i + 1, hlt⟩) = .ok (data.set i (data.get ⟨i + 1, hlt⟩)) :=
      if_pos (by omega)
    have hset : i + 1 + turns < (data.set i (data.get ⟨i + 1, hlt⟩)).length := by
      rw [List.length_set]
      omega
    have htake : (data.set i (data.get ⟨i + 1, hlt⟩)).take (i + 1) =
        data.take i ++ [data.get ⟨i + 1, hlt⟩] := by
      rw [List.take_add_one, List.take_set_of_le le_rfl, List.getElem?_set_self (by omega)]
      rfl
    rw [VectorT.eraseLoop, load_of_lt hlt, ok_bind, hstore, ok_bind, ih hset, htake,
      take_drop_of_lt hlt,
      List.drop_set_of_lt (by omega), List.drop_set_of_lt (by omega), List.append_assoc _ [_],
      List.singleton_append, show i + 1 + turns = i + (turns + 1) by omega]

theorem VectorT.Inv.erase (h : v.Inv l) {idx : ℕ} (hidx : idx < l.length) :
    ∃ w, v.erase idx = .ok (w, l[idx]?.getD 0) ∧ w.Inv (l.eraseIdx idx) := by
  have hlen := h.allocated
  have hle := h.size_le
  have hlength := h.length_eq
  have hkept : (v.data.take idx ++ (v.data.drop (idx + 1)).take (v.size - 1 - idx)).length =
      v.size - 1 := by
    rw [List.length_append, List.length_take, List.length_take, List.length_drop]
    omega
  refine ⟨⟨v.size - 1, v.capacity, v.data.take idx ++ (v.data.drop (idx + 1)).take
    (v.size - 1 - idx) ++ v.data.drop (idx + (v.size - 1 - idx))⟩, ?_, ⟨?_, ?_, h.capacity_pos, ?_⟩,
    h.power⟩
  · rw [VectorT.erase, h.load hidx, ok_bind, eraseLoop_eq (by omega), ok_bind]
    rfl
  · change List.take (v.size - 1) (_ ++ _ ++ _) = _
    rw [List.take_append_of_le_length hkept.ge, List.take_of_length_le hkept.le,
      List.eraseIdx_eq_take_drop_succ, ← h.elements, List.take_take, List.drop_take,
      min_eq_left (by omega), Nat.sub_sub, Nat.add_comm 1 idx]
  · exact (Nat.sub_le _ _).trans hle
  · change List.length (_ ++ _ ++ _) = v.capacity
    rw [List.length_append, hkept, List.length_drop]
    omega

theorem findLoop_eq {data : List UInt64} {x : UInt64} {turns i : ℕ} (h : i + turns ≤ data.length) :
    VectorT.findLoop data x turns i = .ok (if x ∈ (data.drop i).take turns then
      i + ((data.drop i).take turns).idxOf x else 2 ^ 32 - 1) := by
  induction turns generalizing i with
  | zero => simp [VectorT.findLoop]
  | succ turns ih =>
    have hlt : i < data.length := by omega
    rw [VectorT.findLoop, load_of_lt hlt, ok_bind, take_drop_of_lt hlt]
    by_cases hx : data.get ⟨i, hlt⟩ = x
    · rw [if_pos hx, if_pos (List.mem_cons.mpr (.inl hx.symm)), hx, List.idxOf_cons_self]
      rfl
    · rw [if_neg hx, ih (by omega), List.idxOf_cons_ne _ hx]
      have hmem : x ∈ data.get ⟨i, hlt⟩ :: (data.drop (i + 1)).take turns ↔
          x ∈ (data.drop (i + 1)).take turns :=
        List.mem_cons.trans (or_iff_right (Ne.symm hx))
      simp only [hmem, Nat.succ_eq_add_one]
      congr 1
      split <;> omega

theorem VectorT.Inv.find (h : v.Inv l) (x : UInt64) :
    v.find x = .ok (if x ∈ l then l.idxOf x else 2 ^ 32 - 1) := by
  have hlen := h.allocated
  have hle := h.size_le
  rw [VectorT.find, findLoop_eq (by omega), List.drop_zero, h.elements, Nat.zero_add]

theorem steps_find (h : v.Inv l) (x : UInt64) : Steps stale v l (.find x) := by
  refine .inr ⟨v, ?_, h⟩
  simp only [VectorT.step, h.find x, ok_bind, VectorCall.onList]
  split <;> rfl

theorem steps_eraseItem (h : v.Inv l) (x : UInt64) : Steps stale v l (.eraseItem x) := by
  right
  simp only [VectorT.step, VectorT.eraseItem, h.find x, ok_bind, VectorCall.onList]
  by_cases hx : x ∈ l
  · have hidx : l.idxOf x < l.length := List.idxOf_lt_length_of_mem hx
    have hsmall : l.idxOf x ≠ 2 ^ 32 - 1 := by
      have hsize := h.size_lt
      have hlength := h.length_eq
      omega
    obtain ⟨w, hw, hinv⟩ := h.erase hidx
    rw [if_pos hx, if_neg hsmall, if_pos hx, ← List.eraseIdx_idxOf_eq_erase]
    refine ⟨w, ?_, hinv⟩
    rw [hw, List.getElem?_eq_getElem hidx, List.getElem_idxOf hidx]
    rfl
  · rw [if_neg hx, if_pos rfl, if_neg hx, List.erase_of_not_mem hx]
    exact ⟨v, rfl, h⟩

end Calls

/-- Every call but the pop of the only element from an array of one keeps the vector and the list
together. -/
theorem VectorT.Inv.steps {v : VectorT} {l : List UInt64} {c : VectorCall} (stale : ℕ → UInt64)
    (h : v.Inv l) (hidx : ∀ idx, c = .erase idx → idx < l.length) (hone : v.KeepsOne c) :
    Steps stale v l c := by
  cases c with
  | append x => exact steps_append h x
  | pop => exact steps_pop h (hone rfl)
  | erase idx => exact .inr (h.erase (hidx idx rfl))
  | find x => exact steps_find h x
  | eraseItem x => exact steps_eraseItem h x

theorem VectorT.Inv.refines_iff {stale : ℕ → UInt64} {v : VectorT} {l : List UInt64}
    {calls : List VectorCall} (h : v.Inv l) (hlegal : Legal l calls) :
    v.Refines stale l calls ↔ Along (VectorT.next stale) VectorT.KeepsOne v calls := by
  induction calls generalizing v l with
  | nil => exact iff_of_true h.toHolds trivial
  | cons c calls ih =>
    by_cases hone : v.KeepsOne c
    · rcases h.steps stale hlegal.1 hone with hpanic | ⟨w, hw, hinv⟩
      · have hnext : v.next stale c = none := by rw [VectorT.next, hpanic]
        rw [VectorT.Refines, hpanic, along_cons_none hnext]
        exact iff_of_true ⟨h.toHolds, rfl⟩ hone
      · have hnext : v.next stale c = some w := by rw [VectorT.next, hw]
        rw [VectorT.Refines, hw, along_cons_iff hnext, ← ih hinv hlegal.2]
        exact ⟨fun hr => ⟨hone, hr.2.2⟩, fun hr => ⟨h.toHolds, rfl, hr.2⟩⟩
    · -- The pop is out of bounds.
      obtain ⟨rfl, hsize, hcap⟩ : c = .pop ∧ v.size = 1 ∧ v.capacity = 1 := by
        simpa only [VectorT.KeepsOne, Classical.not_imp, not_not] using hone
      refine iff_of_false ?_ fun ha => hone ha.1
      rw [VectorT.Refines, pop_of_one hsize hcap]
      rintro ⟨-, hstop⟩
      cases hstop

theorem inv_initVector (stale : ℕ → UInt64) : (initVector stale).Inv [] :=
  ⟨⟨rfl, Nat.zero_le 1, le_rfl, rfl⟩, 0, by decide, rfl⟩

instance (v : VectorT) (c : VectorCall) : Decidable (v.KeepsOne c) :=
  inferInstanceAs (Decidable (c = .pop → ¬ (v.size = 1 ∧ v.capacity = 1)))

end BrickOS.Utilities
