import BrickOS.Lib.Keyed
import BrickOS.Processes.Scheduler

/-! The periodic callbacks that the timer interrupt queues as kernel work. -/
namespace BrickOS.Processes
open BrickOS.Lib

/-- `MS_TO_TICKS` on a `uint32_t`. -/
def msToTicks32 (ms : ℕ) : ℕ := ms * desiredStandardFreq % 2 ^ 32 / 1000

def secsToTicks (secs : ℕ) : ℕ := secs * desiredStandardFreq % 2 ^ 32

structure TimerCallback (α : Type) where
  callback : α
  periodTicks : ℕ
  runningTicks : ℕ
deriving DecidableEq, Repr

variable {α : Type}

def TimerCallback.tick (cb : TimerCallback α) : TimerCallback α × Bool :=
  if cb.periodTicks ≤ (cb.runningTicks + 1) % 2 ^ 32 then ({ cb with runningTicks := 0 }, true)
  else ({ cb with runningTicks := (cb.runningTicks + 1) % 2 ^ 32 }, false)

def handleTimerCallbacks (timers : List (TimerCallback α)) : List (TimerCallback α) × List α :=
  (timers.map fun cb => cb.tick.1,
    timers.filterMap fun cb => if cb.tick.2 then some cb.callback else none)

def registerTimerCallback (timers : List (TimerCallback α)) (callback : α) (periodMs : ℕ) :
    List (TimerCallback α) :=
  timers ++ [⟨callback, msToTicks32 periodMs, 0⟩]

def unregisterTimerCallback [DecidableEq α] (timers : List (TimerCallback α)) (callback : α) :
    List (TimerCallback α) :=
  Keyed.remove TimerCallback.callback timers callback

def registrations [DecidableEq α] (timers : List (TimerCallback α)) (callback : α) :
    List (TimerCallback α) :=
  timers.filter fun cb => cb.callback = callback

@[simp] theorem TimerCallback.tick_callback (cb : TimerCallback α) :
    cb.tick.1.callback = cb.callback := by
  unfold TimerCallback.tick
  split <;> rfl

@[simp] theorem TimerCallback.tick_periodTicks (cb : TimerCallback α) :
    cb.tick.1.periodTicks = cb.periodTicks := by
  unfold TimerCallback.tick
  split <;> rfl

theorem TimerCallback.tick_counts (cb : TimerCallback α) :
    (if cb.tick.2 then cb.periodTicks else 0) + cb.tick.1.runningTicks ≤ cb.runningTicks + 1 := by
  have hmod := Nat.mod_le (cb.runningTicks + 1) (2 ^ 32)
  unfold TimerCallback.tick
  split
  · simp only [if_true]
    omega
  · simp only [Bool.false_eq_true, if_false]
    omega

variable [DecidableEq α]

theorem registrations_handle (timers : List (TimerCallback α)) (c : α) :
    registrations (handleTimerCallbacks timers).1 c =
      (registrations timers c).map fun cb => cb.tick.1 := by
  induction timers with
  | nil => rfl
  | cons cb timers ih =>
    simp only [registrations, handleTimerCallbacks, List.map_cons, List.filter_cons,
      TimerCallback.tick_callback] at ih ⊢
    by_cases hc : cb.callback = c <;> simp [hc, ih]

theorem count_handle (timers : List (TimerCallback α)) (c : α) :
    (handleTimerCallbacks timers).2.count c =
      ((registrations timers c).filter fun cb => cb.tick.2).length := by
  induction timers with
  | nil => rfl
  | cons cb timers ih =>
    simp only [registrations, handleTimerCallbacks, List.filterMap_cons, List.filter_cons] at ih ⊢
    by_cases hc : cb.callback = c <;> cases ht : cb.tick.2 <;> simp [hc, ht, ih]

theorem registrations_register (timers : List (TimerCallback α)) (c : α) (periodMs : ℕ) :
    registrations (registerTimerCallback timers c periodMs) c =
      registrations timers c ++ [⟨c, msToTicks32 periodMs, 0⟩] := by
  simp [registrations, registerTimerCallback, List.filter_append]

theorem registrations_unregister (timers : List (TimerCallback α)) (c : α) :
    registrations (unregisterTimerCallback timers c) c = (registrations timers c).tail := by
  induction timers with
  | nil => rfl
  | cons cb timers ih =>
    simp only [registrations, unregisterTimerCallback, Keyed.remove, List.filter_cons] at ih ⊢
    by_cases hc : cb.callback = c <;> simp [hc, ih]

end BrickOS.Processes
