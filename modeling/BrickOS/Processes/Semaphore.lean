import BrickOS.Lib.Run
import BrickOS.Processes.WaitQueue

/-! Semaphores, as a system of the same steps as a mutex: tokens are counted, not owned. -/
namespace BrickOS.Processes
open BrickOS.Lib

/-- `semaphore_t` with its waiters, the number of signals so far, the number of waits that
returned true and the result of each thread's last wait. -/
structure Semaphore where
  waiters : Waiters
  cnt : ℕ
  signals : ℕ
  passed : ℕ
  lastWait : ℕ → Bool

inductive SemaphoreCall
  | wait (thread timeout : ℕ)
  | resume (thread : ℕ)
  | signal
  | tick
  | manageSleepingThreads

namespace Semaphore

/-- `semaphore_init`. -/
def init (n ticks : ℕ) (waitState : ℕ → WaitState) : Semaphore where
  waiters := Waiters.start ticks waitState
  cnt := n
  signals := 0
  passed := 0
  lastWait := fun _ => false

def returned (sem : Semaphore) (thread : ℕ) (result : Bool) : Semaphore :=
  { sem with
    passed := sem.passed + if result then 1 else 0
    lastWait := Function.update sem.lastWait thread result }

def semaphoreWait (sem : Semaphore) (thread timeout : ℕ) : Semaphore :=
  if sem.cnt > 0 then returned { sem with cnt := sem.cnt - 1 } thread true
  else if timeout = 0 then sem.returned thread false
  else { sem with waiters := sem.waiters.blockCurrentThread thread timeout }

/-- `semaphore_wait` from its `yield` on. -/
def semaphoreWaitResumed (sem : Semaphore) (thread : ℕ) : Option Semaphore :=
  (sem.waiters.finishWait thread).map fun r => returned { sem with waiters := r.2 } thread r.1

def semaphoreSignal (sem : Semaphore) : Semaphore :=
  match sem.waiters.waitQueue with
  | [] => { sem with cnt := (sem.cnt + 1) % 2 ^ 32, signals := sem.signals + 1 }
  | wthread :: rest =>
    { sem with
      waiters := sem.waiters.signalHead wthread rest
      signals := sem.signals + 1 }

def step (sem : Semaphore) : SemaphoreCall → Option Semaphore
  | .wait thread timeout =>
    if thread ∈ sem.waiters.blocked then none else some (sem.semaphoreWait thread timeout)
  | .resume thread => sem.semaphoreWaitResumed thread
  | .signal => some sem.semaphoreSignal
  | .tick => some { sem with waiters := sem.waiters.withSched sem.waiters.sched.tick }
  | .manageSleepingThreads =>
    some { sem with waiters := sem.waiters.withSched sem.waiters.sched.manageSleepingThreads }

/-- A signal finds a wait whose time is not up at the head of the queue, or no wait and room in
the 32 bit counter. -/
def ReachesHead (sem : Semaphore) : SemaphoreCall → Prop
  | .signal => (sem.waiters.waitQueue = [] → sem.cnt + 1 < 2 ^ 32) ∧
      ∀ t ∈ sem.waiters.waitQueue.head?, sem.waiters.sched.waitState t = .waiting
  | _ => True

instance (sem : Semaphore) : ∀ call, Decidable (sem.ReachesHead call)
  | .signal => inferInstanceAs (Decidable ((sem.waiters.waitQueue = [] → sem.cnt + 1 < 2 ^ 32) ∧
      ∀ t ∈ sem.waiters.waitQueue.head?, sem.waiters.sched.waitState t = .waiting))
  | .wait _ _ | .resume _ | .tick | .manageSleepingThreads => inferInstanceAs (Decidable True)

structure Conserves (n : ℕ) (sem : Semaphore) : Prop where
  waiters : sem.waiters.Inv
  noneDropped : sem.waiters.NoneDropped
  tokens : n + sem.signals = sem.cnt + sem.passed + sem.waiters.woken

variable {n : ℕ} {sem sem' : Semaphore}

theorem init_conserves (n ticks : ℕ) (waitState : ℕ → WaitState) :
    Conserves n (init n ticks waitState) where
  waiters := Waiters.start_inv ticks waitState
  noneDropped := Waiters.start_noneDropped ticks waitState
  tokens := rfl

theorem semaphoreWait_conserves {t : ℕ} (timeout : ℕ) (ht : t ∉ sem.waiters.blocked)
    (hs : Conserves n sem) : Conserves n (sem.semaphoreWait t timeout) := by
  have htokens := hs.tokens
  unfold semaphoreWait
  split_ifs with hcnt htimeout
  · refine ⟨hs.waiters, hs.noneDropped, ?_⟩
    simp only [returned, if_true]
    omega
  · exact ⟨hs.waiters, hs.noneDropped, htokens⟩
  · constructor
    · exact Waiters.blockCurrentThread_inv timeout hs.waiters ht
    · exact Waiters.blockCurrentThread_noneDropped timeout ht hs.noneDropped
    · rw [Waiters.woken_blockCurrentThread timeout ht]
      exact htokens

theorem semaphoreWaitResumed_conserves {t : ℕ} (h : sem.semaphoreWaitResumed t = some sem')
    (hs : Conserves n sem) : Conserves n sem' := by
  obtain ⟨⟨result, w⟩, hfinish, rfl⟩ := Option.map_eq_some_iff.mp h
  have htokens := hs.tokens
  have hwoken := Waiters.woken_finishWait hfinish
  constructor
  · exact Waiters.finishWait_inv hs.waiters hfinish
  · exact Waiters.finishWait_noneDropped hs.waiters hfinish hs.noneDropped
  · simp only [returned]
    omega

theorem semaphoreSignal_conserves (hhead : sem.ReachesHead .signal) (hs : Conserves n sem) :
    Conserves n sem.semaphoreSignal := by
  have htokens := hs.tokens
  unfold semaphoreSignal
  split
  · rename_i hqueue
    have hmod : (sem.cnt + 1) % 2 ^ 32 = sem.cnt + 1 := Nat.mod_eq_of_lt (hhead.1 hqueue)
    refine ⟨hs.waiters, hs.noneDropped, ?_⟩
    simp only [hmod]
    omega
  · rename_i t rest hqueue
    have hwait : sem.waiters.sched.waitState t = .waiting := hhead.2 t (by simp [hqueue])
    have hwoken := Waiters.woken_signalHead hs.waiters hqueue hwait
    constructor
    · exact Waiters.signalHead_inv hs.waiters hqueue
    · exact Waiters.signalHead_noneDropped hs.waiters hqueue hwait hs.noneDropped
    · simp only [hwoken]
      omega

theorem timed_conserves {w : Waiters} (hw : Waiters.Timed sem.waiters w)
    (hs : Conserves n sem) : Conserves n { sem with waiters := w } where
  waiters := hw.inv
  noneDropped := hw.noneDropped hs.noneDropped
  tokens := by
    rw [hw.woken_eq]
    exact hs.tokens

theorem step_conserves {call : SemaphoreCall} (hcall : sem.ReachesHead call)
    (h : sem.step call = some sem') (hs : Conserves n sem) : Conserves n sem' := by
  cases call with
  | wait t timeout =>
    simp only [step] at h
    split_ifs at h with hblocked
    obtain rfl := Option.some.inj h
    exact semaphoreWait_conserves timeout hblocked hs
  | resume t => exact semaphoreWaitResumed_conserves h hs
  | signal =>
    obtain rfl := Option.some.inj h
    exact semaphoreSignal_conserves hcall hs
  | tick =>
    obtain rfl := Option.some.inj h
    exact timed_conserves (Waiters.timed_tick hs.waiters) hs
  | manageSleepingThreads =>
    obtain rfl := Option.some.inj h
    exact timed_conserves (Waiters.timed_manageSleepingThreads hs.waiters) hs

def WaitSucceeds (sem : Semaphore) (t : ℕ) : Prop :=
  ∃ sem', sem.step (.resume t) = some sem' ∧ sem'.lastWait t = true

theorem waitSucceeds_of_woken {t : ℕ} (hs : sem.waiters.Inv) (ht : sem.waiters.Woken t) :
    sem.WaitSucceeds t := by
  have hfinish := Waiters.finishWait_of_woken hs ht
  refine ⟨_, congrArg (Option.map _) hfinish, ?_⟩
  simp [returned]

theorem semaphore_conservation {n ticks : ℕ} {waitState : ℕ → WaitState}
    {calls : List SemaphoreCall}
    (hcalls : Along step ReachesHead (init n ticks waitState) calls)
    (h : run step (init n ticks waitState) calls = some sem) :
    n + sem.signals = sem.cnt + sem.passed + sem.waiters.woken ∧
    (∀ t, sem.waiters.Woken t → sem.WaitSucceeds t) ∧
    (∀ t ∈ sem.waiters.blocked, t ∉ sem.waiters.waitQueue → sem.WaitSucceeds t) := by
  have hs : Conserves n sem :=
    run_invariant (fun _ _ _ => step_conserves) hcalls h (init_conserves n ticks waitState)
  refine ⟨hs.tokens, fun t => waitSucceeds_of_woken hs.waiters, fun t ht hnq => ?_⟩
  exact waitSucceeds_of_woken hs.waiters (hs.noneDropped t ht hnq)

/-- One token is taken at once, one wait times out, and the token of the signal reaches the
wait that is left. -/
theorem semaphore_conservation_timeout :
    ∃ sem, run step (init 1 0 fun _ => .waiting)
        [.wait 1 lockTimeoutInf, .wait 2 10, .wait 3 lockTimeoutInf, .tick,
          .manageSleepingThreads, .resume 2, .signal] = some sem ∧
      (sem.signals, sem.cnt, sem.passed) = (1, 0, 1) ∧ sem.waiters.woken = 1 ∧
      sem.WaitSucceeds 3 := by
  have hvalues : (run step (init 1 0 fun _ => .waiting)
      [.wait 1 lockTimeoutInf, .wait 2 10, .wait 3 lockTimeoutInf, .tick,
        .manageSleepingThreads, .resume 2, .signal]).map (fun sem =>
      (sem.signals, sem.cnt, sem.passed, sem.waiters.blocked, sem.waiters.waitQueue)) =
      some (1, 0, 1, [3], []) := by decide +kernel
  obtain ⟨sem, hsem, heq⟩ := Option.map_eq_some_iff.mp hvalues
  simp only [Prod.mk.injEq] at heq
  obtain ⟨hsignals, hcnt, hpassed, hblocked, hqueue⟩ := heq
  obtain ⟨htokens, -, hsucceeds⟩ := semaphore_conservation (by decide +kernel) hsem
  refine ⟨sem, hsem, by rw [hsignals, hcnt, hpassed], by omega, ?_⟩
  exact hsucceeds 3 (by simp [hblocked]) (by simp [hqueue])

/-- The token of the signal goes to thread 1, whose time is up and whose wait returns false,
while thread 2 waits on. -/
theorem semaphore_token_lost :
    (run step (init 0 0 fun _ => .waiting)
      [.wait 1 10, .wait 2 lockTimeoutInf, .tick, .manageSleepingThreads, .signal,
        .resume 1]).map (fun sem =>
      ((sem.signals, sem.cnt, sem.passed), sem.waiters.woken, sem.lastWait 1)) =
    some ((1, 0, 0), 0, false) := by
  decide +kernel

end Semaphore

end BrickOS.Processes
