import BrickOS.Basic
import Mathlib.Data.List.Perm.Basic
import Mathlib.Logic.Function.Basic

/-! The scheduler's queue of sleeping threads: how a thread is put to sleep, woken by another
thread and woken by the clock. -/
namespace BrickOS.Processes

inductive WaitState
  | waiting
  | timedOut
  | signaled
  deriving DecidableEq, Repr

/-- The two values of `exec_state_e` that a thread moves between once it has been started. -/
inductive ExecState
  | running
  | sleeping
  deriving DecidableEq, Repr

structure SleepingThread where
  wakeupTick : ℕ
  thread : ℕ
  deriving DecidableEq, Repr

def threadEternalSleep : ℕ := 2 ^ 64 - 1

def desiredStandardFreq : ℕ := 100

def msToTicks (ms : ℕ) : ℕ := ms * desiredStandardFreq % 2 ^ 64 / 1000

/-- The clock, the list behind `sleeping_thread_head`, and the two fields of each thread that
sleeping and waking change. -/
structure Scheduler where
  ticks : ℕ
  sleepingThreads : List SleepingThread
  execState : ℕ → ExecState
  waitState : ℕ → WaitState

/-- `insert_sleeping_thread`: in front of the first entry that is not woken earlier. -/
def insertSleepingThread (thread : SleepingThread) : List SleepingThread → List SleepingThread
  | [] => [thread]
  | curr :: rest =>
    if curr.wakeupTick < thread.wakeupTick then curr :: insertSleepingThread thread rest
    else thread :: curr :: rest

namespace Scheduler

def start (ticks : ℕ) (waitState : ℕ → WaitState) : Scheduler where
  ticks := ticks
  sleepingThreads := []
  execState := fun _ => .running
  waitState := waitState

/-- `add_sleeping_thread` up to the call of `insert_sleeping_thread`. -/
def markSleeping (s : Scheduler) (thread : ℕ) : Scheduler :=
  { s with execState := Function.update s.execState thread .sleeping }

def insertSleeping (s : Scheduler) (thread sleepTicks : ℕ) : Scheduler :=
  { s with
    sleepingThreads := insertSleepingThread
      { wakeupTick := s.ticks + min (2 ^ 64 - 1 - s.ticks) sleepTicks, thread := thread }
      s.sleepingThreads }

def addSleepingThread (s : Scheduler) (thread sleepTicks : ℕ) : Scheduler :=
  if s.execState thread = .sleeping then s
  else (s.markSleeping thread).insertSleeping thread sleepTicks

def listed (s : Scheduler) : List ℕ := s.sleepingThreads.map SleepingThread.thread

/-- A thread that is marked sleeping but not in the list yet stays as it is. -/
def wakeupThread (s : Scheduler) (thread : ℕ) : Scheduler :=
  if s.execState thread = .sleeping ∧ thread ∈ s.listed then
    { s with
      sleepingThreads := s.sleepingThreads.eraseP (·.thread == thread)
      execState := Function.update s.execState thread .running }
  else s

def expire (s : Scheduler) (thread : ℕ) : Scheduler :=
  { s with
    waitState := Function.update s.waitState thread .timedOut
    execState := Function.update s.execState thread .running }

def manageFrom : List SleepingThread → Scheduler → Scheduler
  | [], s => { s with sleepingThreads := [] }
  | curr :: rest, s =>
    if curr.wakeupTick ≤ s.ticks then manageFrom rest (s.expire curr.thread)
    else { s with sleepingThreads := curr :: rest }

def manageSleepingThreads (s : Scheduler) : Scheduler := manageFrom s.sleepingThreads s

def tick (s : Scheduler) : Scheduler := { s with ticks := (s.ticks + 1) % 2 ^ 64 }

structure Inv (s : Scheduler) : Prop where
  nodup : s.listed.Nodup
  mem_listed : ∀ t, t ∈ s.listed ↔ s.execState t = .sleeping

theorem start_inv (ticks : ℕ) (waitState : ℕ → WaitState) : (start ticks waitState).Inv :=
  ⟨List.nodup_nil, by simp [start, listed]⟩

theorem tick_inv {s : Scheduler} (hs : s.Inv) : s.tick.Inv := ⟨hs.nodup, hs.mem_listed⟩

theorem perm_insertSleepingThread (e : SleepingThread) (l : List SleepingThread) :
    (insertSleepingThread e l).Perm (e :: l) := by
  induction l with
  | nil => exact List.Perm.refl _
  | cons c l ih =>
    unfold insertSleepingThread
    split
    · exact (ih.cons c).trans (List.Perm.swap e c l)
    · exact List.Perm.refl _

theorem listed_insertSleeping (s : Scheduler) (t n : ℕ) :
    (s.insertSleeping t n).listed.Perm (t :: s.listed) :=
  (perm_insertSleepingThread _ _).map SleepingThread.thread

theorem ne_sleeping_iff {s : Scheduler} {t : ℕ} :
    s.execState t ≠ .sleeping ↔ s.execState t = .running := by
  cases s.execState t <;> simp

section AddSleeping

variable (s : Scheduler) (t n : ℕ)

@[simp] theorem addSleepingThread_waitState :
    (s.addSleepingThread t n).waitState = s.waitState := by
  unfold addSleepingThread
  split <;> rfl

theorem addSleepingThread_execState :
    (s.addSleepingThread t n).execState = Function.update s.execState t .sleeping := by
  unfold addSleepingThread
  split
  · rename_i h
    rw [← h, Function.update_eq_self]
  · rfl

variable {s}

theorem addSleepingThread_inv (hs : s.Inv) : (s.addSleepingThread t n).Inv := by
  by_cases h : s.execState t = .sleeping
  · rw [addSleepingThread, if_pos h]
    exact hs
  have hperm : (s.addSleepingThread t n).listed.Perm (t :: s.listed) := by
    rw [addSleepingThread, if_neg h]
    exact listed_insertSleeping _ t n
  have ht : t ∉ s.listed := fun hm => h ((hs.mem_listed t).mp hm)
  constructor
  · exact hperm.nodup_iff.mpr (List.nodup_cons.mpr ⟨ht, hs.nodup⟩)
  · intro u
    rw [hperm.mem_iff, addSleepingThread_execState, List.mem_cons, hs.mem_listed u]
    by_cases hu : u = t <;> simp [hu]

end AddSleeping

section Wakeup

variable (s : Scheduler) (t : ℕ)

@[simp] theorem wakeupThread_waitState : (s.wakeupThread t).waitState = s.waitState := by
  unfold wakeupThread
  split <;> rfl

variable {s t}

theorem wakeupThread_of_not (h : ¬ (s.execState t = .sleeping ∧ t ∈ s.listed)) :
    s.wakeupThread t = s := if_neg h

theorem listed_wakeupThread (h : s.execState t = .sleeping ∧ t ∈ s.listed) :
    (s.wakeupThread t).listed = s.listed.erase t := by
  rw [wakeupThread, if_pos h, listed, listed, List.erase_eq_eraseP', List.eraseP_map]
  rfl

theorem execState_wakeupThread (h : s.execState t = .sleeping ∧ t ∈ s.listed) :
    (s.wakeupThread t).execState = Function.update s.execState t .running := by
  rw [wakeupThread, if_pos h]

variable (t)

theorem wakeupThread_execState (hs : s.Inv) :
    (s.wakeupThread t).execState = Function.update s.execState t .running := by
  by_cases h : s.execState t = .sleeping
  · exact execState_wakeupThread ⟨h, (hs.mem_listed t).mpr h⟩
  · rw [wakeupThread_of_not fun hw => h hw.1, ← ne_sleeping_iff.mp h, Function.update_eq_self]

theorem wakeupThread_listed (hs : s.Inv) : (s.wakeupThread t).listed = s.listed.erase t := by
  by_cases h : s.execState t = .sleeping ∧ t ∈ s.listed
  · exact listed_wakeupThread h
  · rw [wakeupThread_of_not h, List.erase_of_not_mem]
    exact fun hm => h ⟨(hs.mem_listed t).mp hm, hm⟩

theorem wakeupThread_inv (hs : s.Inv) : (s.wakeupThread t).Inv := by
  constructor
  · rw [wakeupThread_listed t hs]
    exact hs.nodup.erase t
  · intro u
    rw [wakeupThread_listed t hs, wakeupThread_execState t hs, hs.nodup.mem_erase_iff,
      hs.mem_listed u]
    by_cases hu : u = t <;> simp [hu]

end Wakeup

theorem manageSleepingThreads_induction {P : Scheduler → Prop}
    (step : ∀ s c rest, s.sleepingThreads = c :: rest → P s →
      P { s.expire c.thread with sleepingThreads := rest })
    {s : Scheduler} (hs : P s) : P s.manageSleepingThreads := by
  -- the loop's state with what is left of the list written back is the state `P` speaks of
  have loop : ∀ (l : List SleepingThread) (s : Scheduler),
      P { s with sleepingThreads := l } → P (manageFrom l s) := by
    intro l
    induction l with
    | nil => intro s h; exact h
    | cons c rest ih =>
      intro s h
      unfold manageFrom
      split
      · exact ih _ (step { s with sleepingThreads := c :: rest } c rest rfl h)
      · exact h
  exact loop s.sleepingThreads s hs

theorem expire_inv {s : Scheduler} {c : SleepingThread} {rest : List SleepingThread}
    (hl : s.sleepingThreads = c :: rest) (hs : s.Inv) :
    Inv { s.expire c.thread with sleepingThreads := rest } := by
  have hlisted : s.listed = c.thread :: rest.map SleepingThread.thread := by
    rw [listed, hl, List.map_cons]
  have hnodup := hs.nodup
  rw [hlisted, List.nodup_cons] at hnodup
  constructor
  · exact hnodup.2
  · intro u
    have hu := hs.mem_listed u
    rw [hlisted, List.mem_cons] at hu
    by_cases huc : u = c.thread
    · subst huc
      simp [listed, expire] at hnodup ⊢
      exact hnodup.1
    · simpa [listed, expire, huc] using hu

end Scheduler

end BrickOS.Processes
