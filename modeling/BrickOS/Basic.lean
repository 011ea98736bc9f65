import Mathlib.Algebra.Order.Ring.Nat
import Mathlib.Algebra.Order.Ring.Int

/-! Constants and C conversions shared by the kernel's modules. -/
namespace BrickOS

def memoryPageSize : ℕ := 0x1000

def fileFlagRead : ℕ := 0x1

def fileFlagWrite : ℕ := 0x2

def fileFlagAppend : ℕ := 0x8

def fileCreateDir : ℕ := 0x80

def toInt (n : ℕ) : ℤ :=
  if n % 2 ^ 32 < 2 ^ 31 then (n % 2 ^ 32 : ℕ) else (n % 2 ^ 32 : ℕ) - 2 ^ 32

/-- `max` of two `uint64_t`, which it takes as `int64_t`. -/
def maxSigned (a b : ℕ) : ℕ :=
  -- moving both by `2 ^ 63` makes the signed order that of the numbers
  if (b + 2 ^ 63) % 2 ^ 64 < (a + 2 ^ 63) % 2 ^ 64 then a else b

theorem toInt_of_lt {n : ℕ} (h : n < 2 ^ 31) : toInt n = n := by
  unfold toInt
  rw [Nat.mod_eq_of_lt (by omega), if_pos h]

end BrickOS
