import BrickOS.Lib.Run
import BrickOS.Processes.Scheduler
import Mathlib.Data.List.Induction

/-! The queue of sleeping threads over whole runs: it is sorted, it holds exactly the threads that
are asleep, and each of them until the tick it asked for. The threads have all their states here. -/
namespace BrickOS.Processes
open BrickOS.Lib

/-- `exec_state_e`. -/
inductive ThreadState
  | init
  | running
  | sleeping
  | dead
  | finalized
  | dontSchedule
deriving DecidableEq

/-- The clock, `t_queue` from its head on, the running thread, the list behind
`sleeping_thread_head`, and the states of the threads. -/
structure Sched where
  ticks : ℕ
  tQueue : List ℕ
  currentThread : ℕ
  sleepingThreads : List SleepingThread
  execState : ℕ → ThreadState
  waitState : ℕ → WaitState

namespace Sched

def listed (s : Sched) : List ℕ := s.sleepingThreads.map SleepingThread.thread

def setState (s : Sched) (t : ℕ) (state : ThreadState) : Sched :=
  { s with execState := Function.update s.execState t state }

def addSleepingThread (s : Sched) (thread sleepTicks : ℕ) : Sched :=
  if s.execState thread = .sleeping then s
  else { s.setState thread .sleeping with
    sleepingThreads := insertSleepingThread
      { wakeupTick := s.ticks + min (2 ^ 64 - 1 - s.ticks) sleepTicks, thread := thread }
      s.sleepingThreads }

def wakeupThread (s : Sched) (thread : ℕ) : Sched :=
  if s.execState thread = .sleeping ∧ thread ∈ s.listed then
    { s.setState thread .running with
      sleepingThreads := s.sleepingThreads.eraseP (·.thread == thread) }
  else s

def manageFrom : List SleepingThread → Sched → Sched
  | [], s => { s with sleepingThreads := [] }
  | curr :: rest, s =>
    if curr.wakeupTick ≤ s.ticks then
      manageFrom rest { s.setState curr.thread .running with
        waitState := Function.update s.waitState curr.thread .timedOut }
    else { s with sleepingThreads := curr :: rest }

def manageSleepingThreads (s : Sched) : Sched := manageFrom s.sleepingThreads s

end Sched

inductive SleepCall
  | addSleepingThread (thread sleepTicks : ℕ)
  | wakeupThread (thread : ℕ)
  | manageSleepingThreads
  | clock (ticks : ℕ)

namespace Sched

def sleepStep (s : Sched) : SleepCall → Option Sched
  | .addSleepingThread thread sleepTicks => some (s.addSleepingThread thread sleepTicks)
  | .wakeupThread thread => some (s.wakeupThread thread)
  | .manageSleepingThreads => some s.manageSleepingThreads
  | .clock ticks => if s.ticks ≤ ticks ∧ ticks < 2 ^ 64 then some { s with ticks } else none

structure QueueExact (s : Sched) : Prop where
  sorted : s.sleepingThreads.Pairwise fun a b => a.wakeupTick ≤ b.wakeupTick
  nodup : s.listed.Nodup
  mem_listed : ∀ t, t ∈ s.listed ↔ s.execState t = .sleeping

def Due (s : Sched) (t : ℕ) : Prop :=
  ∃ e ∈ s.sleepingThreads, e.thread = t ∧ e.wakeupTick ≤ s.ticks

def WakesDue (s : Sched) : Prop :=
  ∀ t, (s.Due t → s.manageSleepingThreads.execState t = .running ∧
      s.manageSleepingThreads.waitState t = .timedOut) ∧
    (¬ s.Due t → s.manageSleepingThreads.execState t = s.execState t ∧
      s.manageSleepingThreads.waitState t = s.waitState t)

/-- An entry was put into the queue by a call in the run, at which its thread was awake, and since
then the thread has been asleep. -/
def AskedFor (s₀ : Sched) (calls : List SleepCall) (e : SleepingThread) : Prop :=
  ∃ before n after s₁, calls = before ++ .addSleepingThread e.thread n :: after ∧
    run sleepStep s₀ before = some s₁ ∧ s₁.execState e.thread ≠ .sleeping ∧
      e.wakeupTick = min (2 ^ 64 - 1) (s₁.ticks + n) ∧
      ∀ mid, mid <+: after → ∀ s₂,
        run sleepStep s₀ (before ++ .addSleepingThread e.thread n :: mid) = some s₂ →
          s₂.execState e.thread = .sleeping

section
variable {s s' : Sched}

theorem sorted_insertSleepingThread (e : SleepingThread) {l : List SleepingThread}
    (h : l.Pairwise fun a b => a.wakeupTick ≤ b.wakeupTick) :
    (insertSleepingThread e l).Pairwise fun a b => a.wakeupTick ≤ b.wakeupTick := by
  induction l with
  | nil => exact List.pairwise_singleton _ _
  | cons c l ih =>
    obtain ⟨hc, hl⟩ := List.pairwise_cons.mp h
    unfold insertSleepingThread
    split_ifs with hlt
    · refine List.pairwise_cons.mpr ⟨fun d hd => ?_, ih hl⟩
      rcases List.mem_cons.mp ((Scheduler.perm_insertSleepingThread e l).mem_iff.mp hd) with rfl | hmem
      · exact hlt.le
      · exact hc d hmem
    · refine List.pairwise_cons.mpr ⟨fun d hd => ?_, h⟩
      rcases List.mem_cons.mp hd with rfl | hmem
      · exact Nat.le_of_not_lt hlt
      · exact (Nat.le_of_not_lt hlt).trans (hc d hmem)

/-! One step. -/

theorem listed_addSleepingThread {t : ℕ} (h : s.execState t ≠ .sleeping) (n : ℕ) :
    (s.addSleepingThread t n).listed.Perm (t :: s.listed) := by
  rw [addSleepingThread, if_neg h]
  exact (Scheduler.perm_insertSleepingThread _ _).map SleepingThread.thread

theorem QueueExact.addSleepingThread (hs : s.QueueExact) (t n : ℕ) :
    (s.addSleepingThread t n).QueueExact := by
  by_cases h : s.execState t = .sleeping
  · rw [Sched.addSleepingThread, if_pos h]
    exact hs
  have hperm := listed_addSleepingThread h n
  have ht : t ∉ s.listed := fun hmem => h ((hs.mem_listed t).mp hmem)
  constructor
  · rw [Sched.addSleepingThread, if_neg h]
    exact sorted_insertSleepingThread _ hs.sorted
  · exact hperm.nodup_iff.mpr (List.nodup_cons.mpr ⟨ht, hs.nodup⟩)
  · intro u
    have hstate : (s.addSleepingThread t n).execState =
        Function.update s.execState t .sleeping := by
      rw [Sched.addSleepingThread, if_neg h]
      rfl
    rw [hperm.mem_iff, hstate, List.mem_cons, hs.mem_listed u]
    by_cases hu : u = t <;> simp [hu]

theorem listed_wakeupThread {t : ℕ} (h : s.execState t = .sleeping ∧ t ∈ s.listed) :
    (s.wakeupThread t).listed = s.listed.erase t := by
  rw [wakeupThread, if_pos h, listed, listed, List.erase_eq_eraseP', List.eraseP_map]
  rfl

theorem QueueExact.wakeupThread (hs : s.QueueExact) (t : ℕ) : (s.wakeupThread t).QueueExact := by
  by_cases h : s.execState t = .sleeping ∧ t ∈ s.listed
  · have hlisted := listed_wakeupThread h
    constructor
    · rw [Sched.wakeupThread, if_pos h]
      exact hs.sorted.sublist List.eraseP_sublist
    · rw [hlisted]
      exact hs.nodup.erase t
    · intro u
      rw [hlisted, hs.nodup.mem_erase_iff, hs.mem_listed u, Sched.wakeupThread, if_pos h]
      by_cases hu : u = t <;> simp [setState, hu]
  · rw [Sched.wakeupThread, if_neg h]
    exact hs

def expired (ticks : ℕ) (l : List SleepingThread) : List SleepingThread :=
  l.takeWhile fun e => e.wakeupTick ≤ ticks

theorem manageFrom_eq (l : List SleepingThread) (s : Sched) : manageFrom l s = { s with
    sleepingThreads := l.dropWhile fun e => e.wakeupTick ≤ s.ticks
    execState := fun t => if t ∈ (expired s.ticks l).map SleepingThread.thread then .running
      else s.execState t
    waitState := fun t => if t ∈ (expired s.ticks l).map SleepingThread.thread then .timedOut
      else s.waitState t } := by
  induction l generalizing s with
  | nil => simp [manageFrom, expired]
  | cons c l ih =>
    unfold manageFrom
    by_cases hdue : c.wakeupTick ≤ s.ticks
    · have hexpired : expired s.ticks (c :: l) = c :: expired s.ticks l :=
        List.takeWhile_cons_of_pos (by simpa using hdue)
      have hrest : ((c :: l).dropWhile fun e => e.wakeupTick ≤ s.ticks) =
          l.dropWhile fun e => e.wakeupTick ≤ s.ticks :=
        List.dropWhile_cons_of_pos (by simpa using hdue)
      rw [if_pos hdue, ih, hexpired, hrest]
      simp only [setState, List.map_cons, List.mem_cons, Sched.mk.injEq, true_and]
      refine ⟨rfl, ?_, ?_⟩
      · funext t
        by_cases ht : t = c.thread <;> simp [ht]
      · funext t
        by_cases ht : t = c.thread <;> simp [ht]
    · have hexpired : expired s.ticks (c :: l) = [] :=
        List.takeWhile_cons_of_neg (by simpa using hdue)
      have hrest : ((c :: l).dropWhile fun e => e.wakeupTick ≤ s.ticks) = c :: l :=
        List.dropWhile_cons_of_neg (by simpa using hdue)
      rw [if_neg hdue, hexpired, hrest]
      simp

theorem mem_expired_iff {ticks : ℕ} {l : List SleepingThread} {e : SleepingThread}
    (h : l.Pairwise fun a b => a.wakeupTick ≤ b.wakeupTick) :
    e ∈ expired ticks l ↔ e ∈ l ∧ e.wakeupTick ≤ ticks := by
  induction l with
  | nil => simp [expired]
  | cons c l ih =>
    obtain ⟨hc, hl⟩ := List.pairwise_cons.mp h
    by_cases hdue : c.wakeupTick ≤ ticks
    · have hexpired : expired ticks (c :: l) = c :: expired ticks l :=
        List.takeWhile_cons_of_pos (by simpa using hdue)
      rw [hexpired, List.mem_cons, List.mem_cons, ih hl]
      constructor
      · rintro (rfl | ⟨hmem, hle⟩)
        · exact ⟨.inl rfl, hdue⟩
        · exact ⟨.inr hmem, hle⟩
      · rintro ⟨rfl | hmem, hle⟩
        · exact .inl rfl
        · exact .inr ⟨hmem, hle⟩
    · have hexpired : expired ticks (c :: l) = [] :=
        List.takeWhile_cons_of_neg (by simpa using hdue)
      rw [hexpired]
      refine iff_of_false List.not_mem_nil ?_
      rintro ⟨hmem, hle⟩
      rcases List.mem_cons.mp hmem with rfl | hmem
      · exact hdue hle
      · exact hdue ((hc e hmem).trans hle)

theorem mem_expired_threads_iff (hs : s.QueueExact) (t : ℕ) :
    t ∈ (expired s.ticks s.sleepingThreads).map SleepingThread.thread ↔ s.Due t := by
  rw [List.mem_map]
  constructor
  · rintro ⟨e, he, rfl⟩
    obtain ⟨hmem, hle⟩ := (mem_expired_iff hs.sorted).mp he
    exact ⟨e, hmem, rfl, hle⟩
  · rintro ⟨e, hmem, rfl, hle⟩
    exact ⟨e, (mem_expired_iff hs.sorted).mpr ⟨hmem, hle⟩, rfl⟩

theorem QueueExact.wakesDue (hs : s.QueueExact) : s.WakesDue := by
  intro t
  unfold manageSleepingThreads
  rw [manageFrom_eq]
  constructor
  · intro hdue
    have hmem := (mem_expired_threads_iff hs t).mpr hdue
    exact ⟨if_pos hmem, if_pos hmem⟩
  · intro hdue
    have hmem := fun h => hdue ((mem_expired_threads_iff hs t).mp h)
    exact ⟨if_neg hmem, if_neg hmem⟩

theorem sleepingThreads_manage :
    s.manageSleepingThreads.sleepingThreads.Sublist s.sleepingThreads := by
  unfold manageSleepingThreads
  rw [manageFrom_eq]
  exact List.dropWhile_sublist _

theorem QueueExact.manageSleepingThreads (hs : s.QueueExact) :
    s.manageSleepingThreads.QueueExact := by
  have hsub := @sleepingThreads_manage s
  have hsplit : s.listed = (expired s.ticks s.sleepingThreads).map SleepingThread.thread ++
      s.manageSleepingThreads.listed := by
    unfold listed Sched.manageSleepingThreads
    rw [manageFrom_eq, ← List.map_append]
    exact congrArg _ List.takeWhile_append_dropWhile.symm
  have hnodup := hs.nodup
  rw [hsplit] at hnodup
  refine ⟨hs.sorted.sublist hsub, (List.nodup_append.mp hnodup).2.1, fun t => ?_⟩
  have hmem := hs.mem_listed t
  rw [hsplit, List.mem_append] at hmem
  by_cases hdue : s.Due t
  · have hexpired := (mem_expired_threads_iff hs t).mpr hdue
    rw [((hs.wakesDue t).1 hdue).1]
    refine iff_of_false (fun hrest => ?_) ThreadState.noConfusion
    exact (List.nodup_append.mp hnodup).2.2 t hexpired t hrest rfl
  · have hexpired := fun h => hdue ((mem_expired_threads_iff hs t).mp h)
    rw [((hs.wakesDue t).2 hdue).1, ← hmem, or_iff_right hexpired]

theorem QueueExact.step {c : SleepCall} (hs : s.QueueExact) (h : s.sleepStep c = some s') :
    s'.QueueExact := by
  cases c with
  | addSleepingThread t n =>
    cases h
    exact hs.addSleepingThread t n
  | wakeupThread t =>
    cases h
    exact hs.wakeupThread t
  | manageSleepingThreads =>
    cases h
    exact hs.manageSleepingThreads
  | clock ticks =>
    dsimp only [sleepStep] at h
    split_ifs at h
    cases h
    exact ⟨hs.sorted, hs.nodup, hs.mem_listed⟩

theorem mem_sleepStep {c : SleepCall} {e : SleepingThread} (h : s.sleepStep c = some s')
    (he : e ∈ s'.sleepingThreads) : e ∈ s.sleepingThreads ∨
      ∃ n, c = .addSleepingThread e.thread n ∧ s.execState e.thread ≠ .sleeping ∧
        e.wakeupTick = s.ticks + min (2 ^ 64 - 1 - s.ticks) n := by
  cases c with
  | addSleepingThread t n =>
    cases h
    by_cases hstate : s.execState t = .sleeping
    · rw [addSleepingThread, if_pos hstate] at he
      exact .inl he
    · rw [addSleepingThread, if_neg hstate] at he
      have hmem := (Scheduler.perm_insertSleepingThread _ _).mem_iff.mp he
      rcases List.mem_cons.mp hmem with rfl | hold
      · exact .inr ⟨n, rfl, hstate, rfl⟩
      · exact .inl hold
  | wakeupThread t =>
    cases h
    unfold wakeupThread at he
    split_ifs at he
    · exact .inl (List.mem_of_mem_eraseP he)
    · exact .inl he
  | manageSleepingThreads =>
    cases h
    exact .inl (sleepingThreads_manage.subset he)
  | clock ticks =>
    dsimp only [sleepStep] at h
    split_ifs at h
    cases h
    exact .inl he

theorem ticks_sleepStep {c : SleepCall} (h : s.sleepStep c = some s') (hs : s.ticks < 2 ^ 64) :
    s'.ticks < 2 ^ 64 := by
  cases c with
  | addSleepingThread t n =>
    cases h
    unfold addSleepingThread
    split_ifs <;> exact hs
  | wakeupThread t =>
    cases h
    unfold wakeupThread
    split_ifs <;> exact hs
  | manageSleepingThreads =>
    cases h
    unfold manageSleepingThreads
    rw [manageFrom_eq]
    exact hs
  | clock ticks =>
    dsimp only [sleepStep] at h
    split_ifs at h with hticks
    cases h
    exact hticks.2

/-! Runs. -/

theorem sleepRun_exact {s₀ : Sched} {calls : List SleepCall} (hstart : s₀.QueueExact)
    (hticks : s₀.ticks < 2 ^ 64) (hrun : run sleepStep s₀ calls = some s) :
    s.QueueExact ∧ s.ticks < 2 ^ 64 := by
  have hstep : ∀ (a : Sched) (c : SleepCall) (b : Sched), True → a.sleepStep c = some b →
      a.QueueExact ∧ a.ticks < 2 ^ 64 → b.QueueExact ∧ b.ticks < 2 ^ 64 :=
    fun _ _ _ _ h ha => ⟨ha.1.step h, ticks_sleepStep h ha.2⟩
  exact run_invariant hstep (along_true s₀ calls) hrun ⟨hstart, hticks⟩

theorem AskedFor.concat {s₀ : Sched} {calls : List SleepCall} {c : SleepCall} {e : SleepingThread}
    (h : AskedFor s₀ calls e) (hrun : run sleepStep s₀ (calls ++ [c]) = some s')
    (hasleep : s'.execState e.thread = .sleeping) : AskedFor s₀ (calls ++ [c]) e := by
  obtain ⟨before, n, after, s₁, rfl, hbefore, hawake, htick, hsince⟩ := h
  refine ⟨before, n, after ++ [c], s₁, by simp, hbefore, hawake, htick, fun mid hmid s₂ hs₂ => ?_⟩
  rcases List.prefix_concat_iff.mp hmid with rfl | hmid
  · rw [List.append_assoc, List.cons_append] at hrun
    rw [hrun] at hs₂
    cases hs₂
    exact hasleep
  · exact hsince mid hmid s₂ hs₂

theorem askedFor_of_run {s₀ : Sched} {calls : List SleepCall} (hempty : s₀.sleepingThreads = [])
    (hstart : s₀.QueueExact) (hticks : s₀.ticks < 2 ^ 64)
    (hrun : run sleepStep s₀ calls = some s) : ∀ e ∈ s.sleepingThreads, AskedFor s₀ calls e := by
  induction calls using List.reverseRecOn generalizing s with
  | nil =>
    cases hrun
    rw [hempty]
    exact fun e he => absurd he List.not_mem_nil
  | append_singleton calls c ih =>
    intro e he
    obtain ⟨hexact, _⟩ := sleepRun_exact hstart hticks hrun
    have hasleep : s.execState e.thread = .sleeping :=
      (hexact.mem_listed e.thread).mp (List.mem_map_of_mem he)
    rw [run_concat] at hrun
    obtain ⟨s₁, hs₁, hstep⟩ := Option.bind_eq_some_iff.mp hrun
    rw [← run_concat] at hrun
    rcases mem_sleepStep hstep he with hold | ⟨n, rfl, hawake, htick⟩
    · exact (ih hs₁ e hold).concat hrun hasleep
    · have hlt := (sleepRun_exact hstart hticks hs₁).2
      refine ⟨calls, n, [], s₁, rfl, hs₁, hawake, by omega, fun mid hmid s₂ hs₂ => ?_⟩
      rw [List.prefix_nil.mp hmid, hrun] at hs₂
      cases hs₂
      exact hasleep

/-- After any calls from a state in which no thread sleeps the queue is exact, the clock wakes
exactly the threads that are due, and every thread in the queue sleeps for as long as it asked. -/
theorem sleepRun_queue {s₀ s : Sched} {calls : List SleepCall}
    (hempty : s₀.sleepingThreads = []) (hawake : ∀ t, s₀.execState t ≠ .sleeping)
    (hticks : s₀.ticks < 2 ^ 64) (hrun : run sleepStep s₀ calls = some s) :
    s.QueueExact ∧ s.WakesDue ∧ ∀ e ∈ s.sleepingThreads, AskedFor s₀ calls e := by
  have hlisted : s₀.listed = [] := by rw [listed, hempty, List.map_nil]
  have hstart : s₀.QueueExact := by
    constructor
    · rw [hempty]
      exact List.Pairwise.nil
    · rw [hlisted]
      exact List.nodup_nil
    · intro t
      rw [hlisted]
      exact iff_of_false List.not_mem_nil (hawake t)
  have hexact := (sleepRun_exact hstart hticks hrun).1
  exact ⟨hexact, hexact.wakesDue, askedFor_of_run hempty hstart hticks hrun⟩

def awakeThree : Sched where
  ticks := 5
  tQueue := [0, 1, 2]
  currentThread := 1
  sleepingThreads := []
  execState := fun _ => .running
  waitState := fun _ => .waiting

/-- One thread sleeps for 10 ticks and one for ever. -/
theorem sleepRun_queue_two : ∃ s, run sleepStep awakeThree [.addSleepingThread 1 10,
      .addSleepingThread 2 (2 ^ 64 - 1), .clock 15] = some s ∧
    s.QueueExact ∧ s.WakesDue ∧ ∀ e ∈ s.sleepingThreads, AskedFor awakeThree
      [.addSleepingThread 1 10, .addSleepingThread 2 (2 ^ 64 - 1), .clock 15] e :=
  ⟨_, rfl, sleepRun_queue rfl (fun _ => ThreadState.noConfusion) (by decide) rfl⟩

end
end Sched
end BrickOS.Processes
