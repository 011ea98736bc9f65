import BrickOS.Processes.Scheduler

/-! The wait queue under a mutex or a semaphore. A wait is two sections under the lock's
spinlock: it queues itself and goes to sleep, and when it runs again it finds out why. A signal
and the clock come in between. -/
namespace BrickOS.Processes

def lockTimeoutInf : ℕ := 2 ^ 64 - 1

/-- A lock's wait queue with the scheduler it relies on. `blocked` holds the threads whose wait
has queued itself and not returned yet. -/
structure Waiters where
  sched : Scheduler
  waitQueue : List ℕ
  blocked : List ℕ

/-- `unlink_waiting_thread`. An empty queue makes it read the `next` field of a null pointer. -/
def unlinkWaitingThread (waitQueue : List ℕ) (target : ℕ) : Option (List ℕ) :=
  match waitQueue with
  | [] => none
  | prev :: rest => if prev = target then some rest else some (prev :: rest.erase target)

namespace Waiters

def start (ticks : ℕ) (waitState : ℕ → WaitState) : Waiters where
  sched := Scheduler.start ticks waitState
  waitQueue := []
  blocked := []

def blockCurrentThread (w : Waiters) (thread timeout : ℕ) : Waiters :=
  let waiting := { w.sched with waitState := Function.update w.sched.waitState thread .waiting }
  let timeoutTicks :=
    if timeout = lockTimeoutInf then threadEternalSleep else msToTicks timeout
  { sched := waiting.addSleepingThread thread timeoutTicks
    waitQueue := w.waitQueue ++ [thread]
    blocked := thread :: w.blocked }

def signalHead (w : Waiters) (thread : ℕ) (rest : List ℕ) : Waiters :=
  let waitState := if w.sched.waitState thread = .waiting then
    Function.update w.sched.waitState thread .signaled else w.sched.waitState
  { w with
    sched := Scheduler.wakeupThread { w.sched with waitState := waitState } thread
    waitQueue := rest }

/-- The end of both waits, once the scheduler runs the thread again: the wait's result. -/
def finishWait (w : Waiters) (thread : ℕ) : Option (Bool × Waiters) :=
  if thread ∈ w.blocked ∧ w.sched.execState thread = .running then
    if w.sched.waitState thread = .signaled then
      some (true, { w with blocked := w.blocked.erase thread })
    else (unlinkWaitingThread w.waitQueue thread).map fun waitQueue =>
      (false, { w with waitQueue := waitQueue, blocked := w.blocked.erase thread })
  else none

def Woken (w : Waiters) (t : ℕ) : Prop := t ∈ w.blocked ∧ w.sched.waitState t = .signaled

structure Inv (w : Waiters) : Prop where
  sched : w.sched.Inv
  nodup_blocked : w.blocked.Nodup
  nodup_queue : w.waitQueue.Nodup
  blocked_of_queued : ∀ t ∈ w.waitQueue, t ∈ w.blocked
  unsignaled : ∀ t ∈ w.waitQueue, w.sched.waitState t ≠ .signaled
  queued_of_asleep : ∀ t, w.sched.execState t = .sleeping → t ∈ w.waitQueue

def NoneDropped (w : Waiters) : Prop := ∀ t ∈ w.blocked, t ∉ w.waitQueue → w.Woken t

def woken (w : Waiters) : ℕ := w.blocked.countP fun t => w.sched.waitState t = .signaled

theorem start_inv (ticks : ℕ) (waitState : ℕ → WaitState) : (start ticks waitState).Inv where
  sched := Scheduler.start_inv ticks waitState
  nodup_blocked := List.nodup_nil
  nodup_queue := List.nodup_nil
  blocked_of_queued := by simp [start]
  unsignaled := by simp [start]
  queued_of_asleep := by simp [start, Scheduler.start]

theorem start_noneDropped (ticks : ℕ) (waitState : ℕ → WaitState) :
    (start ticks waitState).NoneDropped := by
  simp [NoneDropped, start]

variable {w w' : Waiters} {t : ℕ}

theorem Inv.not_woken_of_queued (hw : w.Inv) (ht : t ∈ w.waitQueue) : ¬ w.Woken t :=
  fun h => hw.unsignaled t ht h.2

theorem Inv.running_of_woken (hw : w.Inv) (ht : w.Woken t) : w.sched.execState t = .running := by
  rw [← Scheduler.ne_sleeping_iff]
  intro hsleep
  exact hw.not_woken_of_queued (hw.queued_of_asleep t hsleep) ht

section Block

theorem blockCurrentThread_waitState (w : Waiters) (t timeout : ℕ) :
    (w.blockCurrentThread t timeout).sched.waitState =
      Function.update w.sched.waitState t .waiting :=
  Scheduler.addSleepingThread_waitState _ _ _

theorem blockCurrentThread_inv (timeout : ℕ) (hw : w.Inv) (ht : t ∉ w.blocked) :
    (w.blockCurrentThread t timeout).Inv := by
  have hq : t ∉ w.waitQueue := fun h => ht (hw.blocked_of_queued t h)
  have hsched : Scheduler.Inv
      { w.sched with waitState := Function.update w.sched.waitState t .waiting } :=
    ⟨hw.sched.nodup, hw.sched.mem_listed⟩
  constructor
  · exact Scheduler.addSleepingThread_inv _ _ hsched
  · exact List.nodup_cons.mpr ⟨ht, hw.nodup_blocked⟩
  · apply (List.perm_append_singleton t w.waitQueue).nodup_iff.mpr
    exact List.nodup_cons.mpr ⟨hq, hw.nodup_queue⟩
  · intro u hu
    rcases List.mem_append.mp hu with hu | hu
    · exact List.mem_cons_of_mem _ (hw.blocked_of_queued u hu)
    · exact List.mem_cons.mpr (Or.inl (List.mem_singleton.mp hu))
  · intro u hu
    rw [blockCurrentThread_waitState]
    rcases List.mem_append.mp hu with hu | hu
    · have hne : u ≠ t := fun h => hq (h ▸ hu)
      rw [Function.update_of_ne hne]
      exact hw.unsignaled u hu
    · rw [List.mem_singleton.mp hu, Function.update_self]
      simp
  · intro u hu
    apply List.mem_append.mpr
    by_cases hut : u = t
    · exact Or.inr (List.mem_singleton.mpr hut)
    · have hexec : w.sched.execState u = .sleeping := by
        simpa [blockCurrentThread, Scheduler.addSleepingThread_execState, hut] using hu
      exact Or.inl (hw.queued_of_asleep u hexec)

theorem woken_blockCurrentThread_iff (timeout : ℕ) (ht : t ∉ w.blocked) (u : ℕ) :
    (w.blockCurrentThread t timeout).Woken u ↔ w.Woken u := by
  unfold Woken
  rw [blockCurrentThread_waitState]
  by_cases hut : u = t
  · subst hut
    simp [ht]
  · simp [blockCurrentThread, hut]

theorem blockCurrentThread_noneDropped (timeout : ℕ) (ht : t ∉ w.blocked)
    (hd : w.NoneDropped) : (w.blockCurrentThread t timeout).NoneDropped := by
  intro u hu hnq
  have hne : u ≠ t := fun h => hnq (List.mem_append.mpr (Or.inr (by simp [h])))
  have hblocked : u ∈ w.blocked := (List.mem_cons.mp hu).resolve_left hne
  rw [woken_blockCurrentThread_iff timeout ht]
  exact hd u hblocked fun h => hnq (List.mem_append.mpr (Or.inl h))

theorem woken_blockCurrentThread (timeout : ℕ) (ht : t ∉ w.blocked) :
    (w.blockCurrentThread t timeout).woken = w.woken := by
  have hrest : ∀ u ∈ w.blocked,
      ((w.blockCurrentThread t timeout).sched.waitState u = .signaled ↔
        w.sched.waitState u = .signaled) := by
    intro u hu
    have hne : u ≠ t := fun h => ht (h ▸ hu)
    rw [blockCurrentThread_waitState, Function.update_of_ne hne]
  have hself : (w.blockCurrentThread t timeout).sched.waitState t ≠ .signaled := by
    rw [blockCurrentThread_waitState, Function.update_self]
    simp
  calc (w.blockCurrentThread t timeout).woken
      = w.blocked.countP
          (fun u => (w.blockCurrentThread t timeout).sched.waitState u = .signaled) :=
        List.countP_cons_of_neg (by simpa using hself)
    _ = w.woken := List.countP_congr (by simpa using hrest)

end Block

section Signal

variable {rest : List ℕ}

theorem signalHead_execState (hw : w.Inv) (t : ℕ) (rest : List ℕ) :
    (w.signalHead t rest).sched.execState = Function.update w.sched.execState t .running :=
  Scheduler.wakeupThread_execState t ⟨hw.sched.nodup, hw.sched.mem_listed⟩

theorem signalHead_waitState (w : Waiters) (t : ℕ) (rest : List ℕ) :
    (w.signalHead t rest).sched.waitState = if w.sched.waitState t = .waiting then
      Function.update w.sched.waitState t .signaled else w.sched.waitState :=
  Scheduler.wakeupThread_waitState _ _

theorem signalHead_waitState_of_ne (w : Waiters) {t u : ℕ} (rest : List ℕ) (hu : u ≠ t) :
    (w.signalHead t rest).sched.waitState u = w.sched.waitState u := by
  rw [signalHead_waitState]
  split
  · rw [Function.update_of_ne hu]
  · rfl

theorem signalHead_inv (hw : w.Inv) (hq : w.waitQueue = t :: rest) :
    (w.signalHead t rest).Inv := by
  have hnodup := hw.nodup_queue
  rw [hq, List.nodup_cons] at hnodup
  have hmem : ∀ u ∈ rest, u ∈ w.waitQueue := fun u hu => hq ▸ List.mem_cons_of_mem _ hu
  constructor
  · exact Scheduler.wakeupThread_inv t ⟨hw.sched.nodup, hw.sched.mem_listed⟩
  · exact hw.nodup_blocked
  · exact hnodup.2
  · exact fun u hu => hw.blocked_of_queued u (hmem u hu)
  · intro u hu
    have hne : u ≠ t := fun h => hnodup.1 (h ▸ hu)
    rw [signalHead_waitState_of_ne w rest hne]
    exact hw.unsignaled u (hmem u hu)
  · intro u hu
    rw [signalHead_execState hw] at hu
    by_cases hut : u = t
    · simp [hut] at hu
    · rw [Function.update_of_ne hut] at hu
      have huq := hw.queued_of_asleep u hu
      rw [hq, List.mem_cons] at huq
      exact huq.resolve_left hut

theorem woken_signalHead_iff (hw : w.Inv) (hq : w.waitQueue = t :: rest) (u : ℕ) :
    (w.signalHead t rest).Woken u ↔
      w.Woken u ∨ u = t ∧ w.sched.waitState t = .waiting := by
  have ht : t ∈ w.waitQueue := hq ▸ List.mem_cons_self
  by_cases hut : u = t
  · subst hut
    have hnot := hw.unsignaled u ht
    have hblocked := hw.blocked_of_queued u ht
    unfold Woken
    rw [signalHead_waitState]
    by_cases hwait : w.sched.waitState u = .waiting
    · simp [hwait, signalHead, hblocked]
    · simp [hwait, hnot]
  · unfold Woken
    rw [signalHead_waitState_of_ne w rest hut]
    simp [hut, signalHead]

theorem signalHead_noneDropped (hw : w.Inv) (hq : w.waitQueue = t :: rest)
    (hwait : w.sched.waitState t = .waiting) (hd : w.NoneDropped) :
    (w.signalHead t rest).NoneDropped := by
  intro u hu hnq
  rw [woken_signalHead_iff hw hq]
  by_cases hut : u = t
  · exact Or.inr ⟨hut, hwait⟩
  · apply Or.inl
    apply hd u hu
    rw [hq, List.mem_cons]
    rintro (h | h)
    · exact hut h
    · exact hnq h

theorem woken_signalHead (hw : w.Inv) (hq : w.waitQueue = t :: rest)
    (hwait : w.sched.waitState t = .waiting) : (w.signalHead t rest).woken = w.woken + 1 := by
  have ht : t ∈ w.blocked := hw.blocked_of_queued t (hq ▸ List.mem_cons_self)
  have hperm := List.perm_cons_erase ht
  have hrest : ∀ u ∈ w.blocked.erase t,
      ((w.signalHead t rest).sched.waitState u = .signaled ↔
        w.sched.waitState u = .signaled) := by
    intro u hu
    rw [signalHead_waitState_of_ne w rest (hw.nodup_blocked.mem_erase_iff.mp hu).1]
  have hself : (w.signalHead t rest).sched.waitState t = .signaled := by
    rw [signalHead_waitState, if_pos hwait, Function.update_self]
  calc (w.signalHead t rest).woken
      = (t :: w.blocked.erase t).countP
          (fun u => (w.signalHead t rest).sched.waitState u = .signaled) := hperm.countP_eq _
    _ = (w.blocked.erase t).countP
          (fun u => (w.signalHead t rest).sched.waitState u = .signaled) + 1 :=
        List.countP_cons_of_pos (by simpa using hself)
    _ = (w.blocked.erase t).countP (fun u => w.sched.waitState u = .signaled) + 1 :=
        congrArg (· + 1) (List.countP_congr (by simpa using hrest))
    _ = w.woken + 1 := by
        rw [woken, hperm.countP_eq, List.countP_cons_of_neg (by simp [hwait])]

end Signal

section Finish

variable {result : Bool}

theorem unlinkWaitingThread_eq {q q' : List ℕ} (h : unlinkWaitingThread q t = some q') :
    q' = q.erase t := by
  cases q with
  | nil => simp [unlinkWaitingThread] at h
  | cons a q =>
    by_cases hat : a = t
    · simpa [unlinkWaitingThread, hat] using h.symm
    · simpa [unlinkWaitingThread, hat, List.erase_cons] using h.symm

/-- A wait that finishes was woken, or leaves the queue without what it waited for. -/
theorem finishWait_cases (h : w.finishWait t = some (result, w')) :
    t ∈ w.blocked ∧ w.sched.execState t = .running ∧ w'.sched = w.sched ∧
      w'.blocked = w.blocked.erase t ∧
      (result = true ∧ w.Woken t ∧ w'.waitQueue = w.waitQueue ∨
        result = false ∧ ¬ w.Woken t ∧ w'.waitQueue = w.waitQueue.erase t) := by
  unfold finishWait at h
  split_ifs at h with hrun hsig
  · obtain ⟨rfl, rfl⟩ := Prod.mk.inj (Option.some.inj h)
    exact ⟨hrun.1, hrun.2, rfl, rfl, Or.inl ⟨rfl, ⟨hrun.1, hsig⟩, rfl⟩⟩
  · obtain ⟨q, hq, heq⟩ := Option.map_eq_some_iff.mp h
    obtain ⟨rfl, rfl⟩ := Prod.mk.inj heq
    exact ⟨hrun.1, hrun.2, rfl, rfl,
      Or.inr ⟨rfl, fun hw => hsig hw.2, unlinkWaitingThread_eq hq⟩⟩

theorem finishWait_of_woken (hw : w.Inv) (ht : w.Woken t) :
    w.finishWait t = some (true, { w with blocked := w.blocked.erase t }) := by
  rw [finishWait, if_pos ⟨ht.1, hw.running_of_woken ht⟩, if_pos ht.2]

theorem mem_waitQueue_finishWait (hw : w.Inv) (h : w.finishWait t = some (result, w')) (u : ℕ) :
    u ∈ w'.waitQueue ↔ u ≠ t ∧ u ∈ w.waitQueue := by
  obtain ⟨-, -, -, -, ⟨-, hwoken, hq⟩ | ⟨-, -, hq⟩⟩ := finishWait_cases h
  · rw [hq]
    constructor
    · intro hu
      exact ⟨fun hut => hw.not_woken_of_queued (hut ▸ hu) hwoken, hu⟩
    · exact And.right
  · rw [hq]
    exact hw.nodup_queue.mem_erase_iff

theorem woken_finishWait_iff (hw : w.Inv) (h : w.finishWait t = some (result, w')) (u : ℕ) :
    w'.Woken u ↔ u ≠ t ∧ w.Woken u := by
  obtain ⟨-, -, hsched, hblocked, -⟩ := finishWait_cases h
  unfold Woken
  rw [hsched, hblocked, hw.nodup_blocked.mem_erase_iff, and_assoc]

theorem finishWait_inv (hw : w.Inv) (h : w.finishWait t = some (result, w')) : w'.Inv := by
  obtain ⟨-, hrun, hsched, hblocked, hcases⟩ := finishWait_cases h
  have hmem := mem_waitQueue_finishWait hw h
  constructor
  · rw [hsched]
    exact hw.sched
  · rw [hblocked]
    exact hw.nodup_blocked.erase t
  · obtain ⟨-, -, hq⟩ | ⟨-, -, hq⟩ := hcases
    · exact hq ▸ hw.nodup_queue
    · exact hq ▸ hw.nodup_queue.erase t
  · intro u hu
    obtain ⟨hne, huq⟩ := (hmem u).mp hu
    rw [hblocked, hw.nodup_blocked.mem_erase_iff]
    exact ⟨hne, hw.blocked_of_queued u huq⟩
  · intro u hu
    rw [hsched]
    exact hw.unsignaled u ((hmem u).mp hu).2
  · intro u hu
    rw [hsched] at hu
    apply (hmem u).mpr
    constructor
    · rintro rfl
      exact Scheduler.ne_sleeping_iff.mpr hrun hu
    · exact hw.queued_of_asleep u hu

theorem finishWait_noneDropped (hw : w.Inv) (h : w.finishWait t = some (result, w'))
    (hd : w.NoneDropped) : w'.NoneDropped := by
  obtain ⟨-, -, -, hblocked, -⟩ := finishWait_cases h
  intro u hu hnq
  rw [hblocked, hw.nodup_blocked.mem_erase_iff] at hu
  rw [woken_finishWait_iff hw h]
  refine ⟨hu.1, hd u hu.2 fun huq => hnq ?_⟩
  exact (mem_waitQueue_finishWait hw h u).mpr ⟨hu.1, huq⟩

theorem woken_finishWait (h : w.finishWait t = some (result, w')) :
    w.woken = w'.woken + if result then 1 else 0 := by
  obtain ⟨ht, -, hsched, hblocked, hcases⟩ := finishWait_cases h
  have hperm := List.perm_cons_erase ht
  unfold woken
  rw [hsched, hblocked, hperm.countP_eq]
  obtain ⟨rfl, hwoken, -⟩ | ⟨rfl, hnot, -⟩ := hcases
  · exact List.countP_cons_of_pos (by simpa using hwoken.2)
  · exact List.countP_cons_of_neg (by simpa using fun hsig => hnot ⟨ht, hsig⟩)

end Finish

section Clock

def withSched (w : Waiters) (sched : Scheduler) : Waiters := { w with sched := sched }

theorem tick_inv (hw : w.Inv) : (w.withSched w.sched.tick).Inv where
  sched := Scheduler.tick_inv hw.sched
  nodup_blocked := hw.nodup_blocked
  nodup_queue := hw.nodup_queue
  blocked_of_queued := hw.blocked_of_queued
  unsignaled := hw.unsignaled
  queued_of_asleep := hw.queued_of_asleep

structure Timed (w w' : Waiters) : Prop where
  inv : w'.Inv
  waitQueue : w'.waitQueue = w.waitQueue
  blocked : w'.blocked = w.blocked
  signaled : ∀ t, w'.sched.waitState t = .signaled ↔ w.sched.waitState t = .signaled

theorem Timed.woken_iff (h : Timed w w') (t : ℕ) : w'.Woken t ↔ w.Woken t := by
  unfold Woken
  rw [h.blocked, h.signaled]

theorem Timed.noneDropped (h : Timed w w') (hd : w.NoneDropped) : w'.NoneDropped := by
  intro t ht hnq
  rw [h.blocked] at ht
  rw [h.waitQueue] at hnq
  exact (h.woken_iff t).mpr (hd t ht hnq)

theorem Timed.woken_eq (h : Timed w w') : w'.woken = w.woken := by
  unfold woken
  rw [h.blocked]
  exact List.countP_congr fun t _ => by simpa using h.signaled t

theorem timed_tick (hw : w.Inv) : Timed w (w.withSched w.sched.tick) :=
  ⟨tick_inv hw, rfl, rfl, fun _ => Iff.rfl⟩

theorem expire_timed {s : Scheduler} {c : SleepingThread} {rest : List SleepingThread}
    (hl : s.sleepingThreads = c :: rest) (h : Timed w (w.withSched s)) :
    Timed w (w.withSched { s.expire c.thread with sleepingThreads := rest }) := by
  have hlisted : c.thread ∈ s.listed := by simp [Scheduler.listed, hl]
  have hasleep : s.execState c.thread = .sleeping := (h.inv.sched.mem_listed _).mp hlisted
  have hunsig := h.inv.unsignaled _ (h.inv.queued_of_asleep _ hasleep)
  have hsignaled : ∀ t, (s.expire c.thread).waitState t = .signaled ↔
      s.waitState t = .signaled := by
    intro t
    by_cases htc : t = c.thread
    · subst htc
      have hno : s.waitState c.thread ≠ .signaled := hunsig
      simp [Scheduler.expire, hno]
    · simp [Scheduler.expire, htc]
  constructor
  · constructor
    · exact Scheduler.expire_inv hl h.inv.sched
    · exact h.inv.nodup_blocked
    · exact h.inv.nodup_queue
    · exact h.inv.blocked_of_queued
    · exact fun t ht hsig => h.inv.unsignaled t ht ((hsignaled t).mp hsig)
    · intro t ht
      apply h.inv.queued_of_asleep t
      by_cases htc : t = c.thread
      · simp [withSched, Scheduler.expire, htc] at ht
      · simpa [withSched, Scheduler.expire, htc] using ht
  · rfl
  · rfl
  · exact fun t => (hsignaled t).trans (h.signaled t)

theorem timed_manageSleepingThreads (hw : w.Inv) :
    Timed w (w.withSched w.sched.manageSleepingThreads) := by
  apply Scheduler.manageSleepingThreads_induction
    (P := fun s => Timed w (w.withSched s)) (fun s c rest hl h => expire_timed hl h)
  exact ⟨hw, rfl, rfl, fun _ => Iff.rfl⟩

end Clock

end Waiters

end BrickOS.Processes
