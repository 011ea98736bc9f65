import Mathlib.Data.Fintype.EquivFin
import Mathlib.Dynamics.PeriodicPts.Lemmas

/-! The random numbers of the kernel, from which DHCP takes its transaction ids. -/
namespace BrickOS.Utilities

/-- `random_state`. -/
abbrev RandomState := BitVec 64

def simpleRandInit (seed : BitVec 64) : RandomState :=
  if seed = 0 then 0x9E3779B97F4A7C15 else seed

def xorRight (k : ℕ) (x : BitVec 64) : BitVec 64 := x ^^^ x >>> k

def xorLeft (k : ℕ) (x : BitVec 64) : BitVec 64 := x ^^^ x <<< k

def nextState (x : RandomState) : RandomState := xorRight 27 (xorLeft 25 (xorRight 12 x))

/-- The state behind a call, and the number that it returns. -/
def simpleRandU64 (s : RandomState) : RandomState × BitVec 64 :=
  (nextState s, nextState s * 0x2545F4914F6CDD1D)

/-- `setup_rng` seeds with the boot time only; the other seed that it computes is not used. -/
def setupRng (bootTime : BitVec 64) : RandomState := simpleRandInit bootTime

/-- The state behind `n` calls. -/
def stateAfter (s : RandomState) (n : ℕ) : RandomState := (fun s => (simpleRandU64 s).1)^[n] s

/-- The number returned by the call behind `n` others. -/
def output (s : RandomState) (n : ℕ) : BitVec 64 := (simpleRandU64 (stateAfter s n)).2

/-- A linear map whose only fixed point is 0, added to the identity. -/
theorem injective_xor {f : BitVec 64 → BitVec 64} (hf : ∀ x y, f (x ^^^ y) = f x ^^^ f y)
    (hfix : ∀ x, x = f x → x = 0) : Function.Injective fun x => x ^^^ f x := by
  intro x y h
  have hzero : x ^^^ y = 0 := by
    apply hfix
    rw [hf]
    calc x ^^^ y = (x ^^^ f x) ^^^ (f x ^^^ y) := by
          rw [BitVec.xor_assoc, ← BitVec.xor_assoc (f x), BitVec.xor_self, BitVec.zero_xor]
      _ = (f y ^^^ y) ^^^ (y ^^^ f x) := by
          rw [show x ^^^ f x = y ^^^ f y from h, BitVec.xor_comm y (f y), BitVec.xor_comm y (f x)]
      _ = f x ^^^ f y := by
          rw [BitVec.xor_assoc, ← BitVec.xor_assoc y, BitVec.xor_self, BitVec.zero_xor,
            BitVec.xor_comm]
  simpa using hzero

theorem eq_zero_of_eq_ushiftRight {x : BitVec 64} {k : ℕ} (hk : 0 < k) (h : x = x >>> k) :
    x = 0 := by
  have hnat := congrArg BitVec.toNat h
  rw [BitVec.toNat_ushiftRight, Nat.shiftRight_eq_div_pow] at hnat
  have hzero : x.toNat = 0 := by
    by_contra hne
    have := Nat.div_lt_self (Nat.pos_of_ne_zero hne) (Nat.one_lt_two_pow hk.ne')
    omega
  exact BitVec.eq_of_toNat_eq hzero

theorem eq_zero_of_eq_shiftLeft {x : BitVec 64} {k : ℕ} (hk : 0 < k) (h : x = x <<< k) :
    x = 0 := by
  have hbit : ∀ i, x.getLsbD i = false := by
    intro i
    induction i using Nat.strong_induction_on with
    | _ i ih =>
      have hi := congrArg (BitVec.getLsbD · i) h
      simp only [BitVec.getLsbD_shiftLeft] at hi
      by_cases hlt : i < k
      · simpa [hlt] using hi
      · rw [hi, ih (i - k) (by omega)]
        simp
  exact BitVec.eq_of_getLsbD_eq fun i _ => (hbit i).trans (by simp)

/-- No two states meet. -/
theorem nextState_injective : Function.Injective nextState := by
  have hright : ∀ k, 0 < k → Function.Injective (xorRight k) := fun k hk =>
    injective_xor (fun x y => BitVec.ushiftRight_xor_distrib x y k)
      fun x => eq_zero_of_eq_ushiftRight hk
  have hleft : ∀ k, 0 < k → Function.Injective (xorLeft k) := fun k hk =>
    injective_xor (fun x y => BitVec.shiftLeft_xor_distrib x y k)
      fun x => eq_zero_of_eq_shiftLeft hk
  exact (hright 27 (by decide)).comp ((hleft 25 (by decide)).comp (hright 12 (by decide)))

/-- The factor is odd. -/
theorem eq_of_output_eq {x y : RandomState} (h : (simpleRandU64 x).2 = (simpleRandU64 y).2) :
    x = y := by
  have hinv : (0x2545F4914F6CDD1D : BitVec 64) * 0x59071d96d81ecd35 = 1 := by decide
  have hcancel := congrArg (· * (0x59071d96d81ecd35 : BitVec 64)) h
  simp only [simpleRandU64, BitVec.mul_assoc, hinv] at hcancel
  exact nextState_injective (by simpa using hcancel)

/-- Whatever the boot time, the generator never returns 0, and it goes through a cycle: it comes
back to its first state, and no number is returned twice before that. -/
theorem simpleRand_cycles (bootTime : BitVec 64) :
    (∀ n, output (setupRng bootTime) n ≠ 0) ∧
      ∃ period > 0, stateAfter (setupRng bootTime) period = setupRng bootTime ∧
        ∀ i < period, ∀ j < period,
          output (setupRng bootTime) i = output (setupRng bootTime) j → i = j := by
  have hstep : Function.Injective fun s => (simpleRandU64 s).1 := nextState_injective
  have hseed : setupRng bootTime ≠ 0 := by
    unfold setupRng simpleRandInit
    split_ifs with h
    · decide
    · exact h
  have : Finite RandomState := Finite.of_injective BitVec.toFin fun x y h => by
    exact BitVec.eq_of_toFin_eq h
  refine ⟨fun n h => ?_, Function.minimalPeriod (fun s => (simpleRandU64 s).1) (setupRng bootTime),
    Function.minimalPeriod_pos_of_mem_periodicPts (hstep.mem_periodicPts _),
    Function.iterate_minimalPeriod, fun i hi j hj h =>
      Function.iterate_injOn_Iio_minimalPeriod hi hj (eq_of_output_eq h)⟩
  -- 0 is returned in the state 0 only, which is left by no call
  have hzero : stateAfter (setupRng bootTime) n = stateAfter 0 n := by
    have hfix : stateAfter 0 n = 0 := Function.iterate_fixed rfl n
    rw [hfix]
    exact eq_of_output_eq h
  exact hseed (hstep.iterate n hzero)

end BrickOS.Utilities
