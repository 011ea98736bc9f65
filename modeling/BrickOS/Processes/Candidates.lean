import BrickOS.Processes.SleepQueue
import Mathlib.Data.List.Rotate

/-! The choice of the next thread. `find_schedule_candidate` goes round the queue of threads until
it comes to one that can run; there may be none. -/
namespace BrickOS.Processes
open BrickOS.Lib

/-- `next` of a thread in the queue. -/
def nextIn : List ℕ → ℕ → Option ℕ
  | a :: b :: l, t => if a = t then some b else nextIn (b :: l) t
  | _, _ => none

inductive Candidate
  | thread (t : ℕ)
  | shutdown
deriving DecidableEq

namespace Sched

/-- The condition of the loop in `find_schedule_candidate`, negated. The root thread is the head of
the queue. -/
def Schedulable (s : Sched) (t : ℕ) : Prop :=
  (s.execState t = .running ∨ s.execState t = .finalized) ∧ s.tQueue.head? ≠ some t

instance (s : Sched) : DecidablePred s.Schedulable :=
  fun _ => inferInstanceAs (Decidable (_ ∧ _))

/-- The loop of `find_schedule_candidate`, for as many rounds as there is fuel. -/
def candidateLoop (s : Sched) : ℕ → ℕ → Option Candidate
  | 0, _ => none
  | fuel + 1, candidate =>
    match s.tQueue with
    | root :: _ :: _ :: _ =>
      let candidate := (nextIn s.tQueue candidate).getD root
      if s.Schedulable candidate then some (.thread candidate)
      else s.candidateLoop fuel candidate
    | _ => some .shutdown

/-- `find_schedule_candidate` returns the thread. -/
def Returns (s : Sched) (t : ℕ) : Prop :=
  ∃ fuel, s.candidateLoop fuel s.currentThread = some (.thread t)

def cycle (s : Sched) : List ℕ := s.tQueue.rotate (s.tQueue.idxOf s.currentThread + 1)

/-- `find_schedule_candidate` terminates and returns the first thread of the cycle that can be
scheduled. -/
def PicksFirst (s : Sched) : Prop :=
  ∃ t, s.cycle.find? (fun u => s.Schedulable u) = some t ∧ ∀ u, s.Returns u ↔ u = t

/-- `switch_task`; `none` when the machine is shut down or the search does not end. -/
def switchTask (s : Sched) : Option Sched :=
  if s.tQueue.length < 2 then some s
  else match s.candidateLoop s.tQueue.length s.currentThread with
    | some (.thread t) =>
      some { (if s.execState t = .finalized then s.setState t .running else s) with
        currentThread := t }
    | _ => none

end Sched

/-- What happens to threads: the clock, the running thread going to sleep, a thread being woken by
another or by the clock, a thread being created, started, ended and removed, and a switch. -/
inductive SchedCall
  | clock (ticks : ℕ)
  | sleep (sleepTicks : ℕ)
  | wakeupThread (thread : ℕ)
  | manageSleepingThreads
  | enqueueThread (thread : ℕ)
  | finalize (thread : ℕ)
  | exit (threads : List ℕ)
  | removeThread (thread : ℕ)
  | switchTask

namespace Sched

def start (root : ℕ) : Sched where
  ticks := 0
  tQueue := [root]
  currentThread := root
  sleepingThreads := []
  execState := Function.update (fun _ => .init) root .dontSchedule
  waitState := fun _ => .waiting

def markDead (s : Sched) (threads : List ℕ) : Sched :=
  { s with execState := fun t => if t ∈ threads then .dead else s.execState t }

/-- A step; `none` for what cannot happen: a thread is put into the queue once and starts once, and
`remove_thread` is called by a worker for a thread that has ended. -/
def step (s : Sched) : SchedCall → Option Sched
  | .clock ticks => if s.ticks ≤ ticks ∧ ticks < 2 ^ 64 then some { s with ticks } else none
  | .sleep sleepTicks => some (s.addSleepingThread s.currentThread sleepTicks)
  | .wakeupThread thread => some (s.wakeupThread thread)
  | .manageSleepingThreads => some s.manageSleepingThreads
  | .enqueueThread thread =>
    if thread ∈ s.tQueue then none
    else some { s.setState thread .init with tQueue := s.tQueue ++ [thread] }
  | .finalize thread =>
    if s.execState thread = .init then some (s.setState thread .finalized) else none
  | .exit threads => if s.currentThread ∈ threads then some (s.markDead threads) else none
  | .removeThread thread =>
    if s.execState thread = .dead ∧ thread ≠ s.currentThread ∧ s.tQueue.head? ≠ some thread then
      some { s with tQueue := s.tQueue.erase thread }
    else none
  | .switchTask => s.switchTask

structure Queued (s : Sched) : Prop where
  nodup : s.tQueue.Nodup
  current : s.currentThread ∈ s.tQueue

section
variable {s s' : Sched} {t : ℕ}

/-! The search. -/

theorem nextIn_eq {q : List ℕ} (h : q.Nodup) {i : ℕ} (ht : q[i]? = some t) :
    nextIn q t = q[i + 1]? := by
  induction q generalizing i with
  | nil => cases ht
  | cons a q ih =>
    obtain ⟨ha, hq⟩ := List.nodup_cons.mp h
    cases q with
    | nil =>
      cases i <;> rfl
    | cons b l =>
      cases i with
      | zero =>
        cases ht
        exact if_pos rfl
      | succ i =>
        have hmem : t ∈ b :: l := List.mem_of_getElem? ht
        have hne : a ≠ t := fun heq => ha (heq ▸ hmem)
        exact (if_neg hne).trans (ih hq ht)

theorem nextIn_getD {q : List ℕ} (h : q.Nodup) {i root : ℕ} (ht : q[i]? = some t)
    (hroot : q.head? = some root) :
    q[(i + 1) % q.length]? = some ((nextIn q t).getD root) := by
  have hi : i < q.length := (List.getElem?_eq_some_iff.mp ht).1
  rw [nextIn_eq h ht]
  rcases Nat.lt_or_ge (i + 1) q.length with hlt | hge
  · rw [Nat.mod_eq_of_lt hlt, List.getElem?_eq_getElem hlt, Option.getD_some]
  · have hend : (i + 1) % q.length = 0 := by
      rw [show i + 1 = q.length by omega, Nat.mod_self]
    rw [List.getElem?_eq_none hge, hend, Option.getD_none, ← List.head?_eq_getElem?, hroot]

theorem candidateLoop_succ (h : 3 ≤ s.tQueue.length) (hnodup : s.tQueue.Nodup) {i : ℕ}
    (ht : s.tQueue[i]? = some t) (fuel : ℕ) :
    ∃ u, s.tQueue[(i + 1) % s.tQueue.length]? = some u ∧ s.candidateLoop (fuel + 1) t =
      if s.Schedulable u then some (.thread u) else s.candidateLoop fuel u := by
  obtain ⟨root, b, c, l, hq⟩ : ∃ root b c l, s.tQueue = root :: b :: c :: l := by
    match hq : s.tQueue, h with
    | root :: b :: c :: l, _ => exact ⟨root, b, c, l, rfl⟩
  have hroot : s.tQueue.head? = some root := by rw [hq]; rfl
  refine ⟨_, nextIn_getD hnodup ht hroot, ?_⟩
  rw [candidateLoop]
  split
  · rename_i root' b' c' l' hq'
    rw [hq] at hq'
    cases hq'
    rfl
  · rename_i hnot
    exact absurd hq (hnot root b c l)

theorem candidateLoop_eq (h : 3 ≤ s.tQueue.length) (hnodup : s.tQueue.Nodup) {i fuel : ℕ}
    (ht : s.tQueue[i]? = some t) (hfuel : fuel ≤ s.tQueue.length) :
    s.candidateLoop fuel t = (((s.tQueue.rotate (i + 1)).take fuel).find?
      fun u => s.Schedulable u).map .thread := by
  induction fuel generalizing i t with
  | zero => rfl
  | succ fuel ih =>
    obtain ⟨u, hu, hloop⟩ := candidateLoop_succ h hnodup ht fuel
    -- the cycle behind `u` is the cycle behind `t` with `u` moved to its end
    obtain ⟨l, hl⟩ : ∃ l, s.tQueue.rotate (i + 1) = u :: l := by
      apply List.head?_eq_some_iff.mp
      rw [← List.rotate_mod, List.head?_rotate (Nat.mod_lt _ (by omega)), hu]
    have hnext : s.tQueue.rotate ((i + 1) % s.tQueue.length + 1) = l ++ [u] := by
      rw [← List.rotate_rotate, List.rotate_mod, hl]
      simp
    have hlength : l.length + 1 = s.tQueue.length := by
      rw [← List.length_rotate s.tQueue (i + 1), hl, List.length_cons]
    rw [hloop, ih hu (by omega), hnext, hl, List.take_succ_cons,
      List.take_append_of_le_length (by omega)]
    by_cases hsched : s.Schedulable u
    · simp [hsched]
    · simp [hsched]

theorem schedulable_of_candidateLoop {fuel u : ℕ} (h : 3 ≤ s.tQueue.length)
    (hnodup : s.tQueue.Nodup) (ht : t ∈ s.tQueue)
    (hloop : s.candidateLoop fuel t = some (.thread u)) : u ∈ s.tQueue ∧ s.Schedulable u := by
  induction fuel generalizing t with
  | zero => cases hloop
  | succ fuel ih =>
    obtain ⟨i, hi⟩ := List.mem_iff_getElem?.mp ht
    obtain ⟨v, hv, hnext⟩ := candidateLoop_succ h hnodup hi fuel
    rw [hnext] at hloop
    have hmem : v ∈ s.tQueue := List.mem_of_getElem? hv
    split_ifs at hloop with hsched
    · cases hloop
      exact ⟨hmem, hsched⟩
    · exact ih hmem hloop

theorem candidateLoop_eq_none (h : 3 ≤ s.tQueue.length) (hnodup : s.tQueue.Nodup)
    (hnone : ¬ ∃ u ∈ s.tQueue, s.Schedulable u) (ht : t ∈ s.tQueue) (fuel : ℕ) :
    s.candidateLoop fuel t = none := by
  induction fuel generalizing t with
  | zero => rfl
  | succ fuel ih =>
    obtain ⟨i, hi⟩ := List.mem_iff_getElem?.mp ht
    obtain ⟨v, hv, hnext⟩ := candidateLoop_succ h hnodup hi fuel
    have hmem : v ∈ s.tQueue := List.mem_of_getElem? hv
    rw [hnext, if_neg fun hsched => hnone ⟨v, hmem, hsched⟩]
    exact ih hmem

theorem candidateLoop_mono {fuel fuel' : ℕ} {c : Candidate}
    (h : s.candidateLoop fuel t = some c) (hle : fuel ≤ fuel') :
    s.candidateLoop fuel' t = some c := by
  induction fuel generalizing t fuel' with
  | zero => cases h
  | succ fuel ih =>
    obtain ⟨k, rfl⟩ : ∃ k, fuel' = k + 1 := ⟨fuel' - 1, by omega⟩
    rw [candidateLoop] at h ⊢
    split at h
    · dsimp only at h ⊢
      split_ifs at h ⊢
      · exact h
      · exact ih h (by omega)
    · exact h

theorem Returns.unique {u : ℕ} (ht : s.Returns t) (hu : s.Returns u) : u = t := by
  obtain ⟨m, hm⟩ := ht
  obtain ⟨n, hn⟩ := hu
  have hm' := candidateLoop_mono hm (Nat.le_max_left m n)
  have hn' := candidateLoop_mono hn (Nat.le_max_right m n)
  rw [hm'] at hn'
  cases hn'
  rfl

theorem mem_cycle : t ∈ s.cycle ↔ t ∈ s.tQueue := List.mem_rotate

theorem Queued.picksFirst_iff (hs : s.Queued) (h : 3 ≤ s.tQueue.length) :
    s.PicksFirst ↔ ∃ t ∈ s.tQueue, s.Schedulable t := by
  have hcurrent : s.tQueue[s.tQueue.idxOf s.currentThread]? = some s.currentThread :=
    List.getElem?_idxOf hs.current
  constructor
  · rintro ⟨t, -, ht⟩
    obtain ⟨fuel, hloop⟩ := (ht t).mpr rfl
    exact ⟨t, schedulable_of_candidateLoop h hs.nodup hs.current hloop⟩
  · rintro ⟨t, hmem, hsched⟩
    have hsome : (s.cycle.find? fun u => s.Schedulable u).isSome := by
      rw [List.find?_isSome]
      exact ⟨t, mem_cycle.mpr hmem, by simpa using hsched⟩
    obtain ⟨u, hu⟩ := Option.isSome_iff_exists.mp hsome
    have hreturns : s.Returns u := by
      refine ⟨s.tQueue.length, ?_⟩
      rw [candidateLoop_eq h hs.nodup hcurrent le_rfl,
        List.take_of_length_le (by rw [List.length_rotate])]
      exact congrArg _ hu
    refine ⟨u, hu, fun v => ⟨fun hv => hreturns.unique hv, ?_⟩⟩
    rintro rfl
    exact hreturns

/-! Runs. -/

theorem Queued.congr (hs : s.Queued) (hqueue : s'.tQueue = s.tQueue)
    (hcurrent : s'.currentThread = s.currentThread) : s'.Queued := by
  constructor
  · rw [hqueue]
    exact hs.nodup
  · rw [hqueue, hcurrent]
    exact hs.current

theorem addSleepingThread_queue (s : Sched) (t n : ℕ) :
    (s.addSleepingThread t n).tQueue = s.tQueue ∧
      (s.addSleepingThread t n).currentThread = s.currentThread := by
  unfold addSleepingThread
  split_ifs <;> exact ⟨rfl, rfl⟩

theorem wakeupThread_queue (s : Sched) (t : ℕ) : (s.wakeupThread t).tQueue = s.tQueue ∧
    (s.wakeupThread t).currentThread = s.currentThread := by
  unfold wakeupThread
  split_ifs <;> exact ⟨rfl, rfl⟩

theorem manageSleepingThreads_queue (s : Sched) : s.manageSleepingThreads.tQueue = s.tQueue ∧
    s.manageSleepingThreads.currentThread = s.currentThread := by
  unfold manageSleepingThreads
  rw [manageFrom_eq]
  exact ⟨rfl, rfl⟩

theorem Queued.switchTask (hs : s.Queued) (h : s.switchTask = some s') : s'.Queued := by
  unfold Sched.switchTask at h
  split_ifs at h with hlength
  · cases h
    exact hs
  cases hloop : s.candidateLoop s.tQueue.length s.currentThread with
  | none =>
    rw [hloop] at h
    cases h
  | some c =>
    cases c with
    | shutdown =>
      rw [hloop] at h
      cases h
    | thread t =>
      rw [hloop] at h
      cases h
      have hlong : 3 ≤ s.tQueue.length := by
        -- with two threads the loop shuts the machine down
        by_contra hshort
        have htwo : s.tQueue.length = 2 := by omega
        obtain ⟨a, b, hq⟩ := List.length_eq_two.mp htwo
        rw [htwo, candidateLoop, hq] at hloop
        cases hloop
      have hmem := (schedulable_of_candidateLoop hlong hs.nodup hs.current hloop).1
      split_ifs
      · exact ⟨hs.nodup, hmem⟩
      · exact ⟨hs.nodup, hmem⟩

theorem Queued.step {c : SchedCall} (hs : s.Queued) (h : s.step c = some s') : s'.Queued := by
  cases c with
  | clock ticks =>
    dsimp only [Sched.step] at h
    split_ifs at h
    cases h
    exact hs.congr rfl rfl
  | sleep n =>
    cases h
    exact hs.congr (addSleepingThread_queue s _ n).1 (addSleepingThread_queue s _ n).2
  | wakeupThread t =>
    cases h
    exact hs.congr (wakeupThread_queue s t).1 (wakeupThread_queue s t).2
  | manageSleepingThreads =>
    cases h
    exact hs.congr (manageSleepingThreads_queue s).1 (manageSleepingThreads_queue s).2
  | enqueueThread t =>
    dsimp only [Sched.step] at h
    split_ifs at h with ht
    cases h
    constructor
    · exact List.nodup_append.mpr ⟨hs.nodup, List.nodup_singleton t, by
        intro a ha b hb heq
        rw [List.mem_singleton.mp hb] at heq
        exact ht (heq ▸ ha)⟩
    · exact List.mem_append_left _ hs.current
  | finalize t =>
    dsimp only [Sched.step] at h
    split_ifs at h
    cases h
    exact hs.congr rfl rfl
  | exit threads =>
    dsimp only [Sched.step] at h
    split_ifs at h
    cases h
    exact hs.congr rfl rfl
  | removeThread t =>
    dsimp only [Sched.step] at h
    split_ifs at h with ht
    cases h
    exact ⟨hs.nodup.erase t, (List.mem_erase_of_ne ht.2.1.symm).mpr hs.current⟩
  | switchTask => exact hs.switchTask h

theorem queued_of_run {root : ℕ} {calls : List SchedCall}
    (hrun : run step (start root) calls = some s) : s.Queued := by
  have hstep : ∀ (a : Sched) (c : SchedCall) (b : Sched), True → a.step c = some b →
      a.Queued → b.Queued := fun _ _ _ _ h ha => ha.step h
  have hstart : (start root).Queued := ⟨List.nodup_singleton root, List.mem_singleton_self root⟩
  exact run_invariant hstep (along_true _ calls) hrun hstart

/-- In every state that is reached with at least two threads besides the root thread, the search
ends with the next thread that can be scheduled exactly when there is such a thread. -/
theorem picksFirst_iff_of_run {s : Sched} {root : ℕ} {calls : List SchedCall}
    (hrun : run step (start root) calls = some s) (hlength : 3 ≤ s.tQueue.length) :
    s.PicksFirst ↔ ∃ t ∈ s.tQueue, s.Schedulable t :=
  (queued_of_run hrun).picksFirst_iff hlength

def workersRun : List SchedCall :=
  [.enqueueThread 1, .finalize 1, .enqueueThread 2, .finalize 2, .switchTask]

theorem picksFirst_iff_of_run_workers : ∃ s, run step (start 0) workersRun = some s ∧
    3 ≤ s.tQueue.length ∧ s.currentThread = 1 ∧ s.PicksFirst := by
  obtain ⟨s, hrun, hview⟩ := Option.map_eq_some_iff.mp
    (by decide : (run step (start 0) workersRun).map (fun s =>
      (decide (3 ≤ s.tQueue.length), s.currentThread, decide (∃ t ∈ s.tQueue, s.Schedulable t))) =
        some (true, 1, true))
  simp only [Prod.mk.injEq, decide_eq_true_eq] at hview
  obtain ⟨hlength, hcurrent, hsome⟩ := hview
  exact ⟨s, hrun, hlength, hcurrent, (picksFirst_iff_of_run hrun hlength).mpr hsome⟩

/-- The workers have nothing to do and sleep, and the only process, which was started before, calls
`sys_mssleep`. -/
def allSleep : List SchedCall :=
  [.enqueueThread 1, .finalize 1, .enqueueThread 2, .finalize 2, .enqueueThread 3, .finalize 3,
    .switchTask, .sleep threadEternalSleep, .switchTask, .sleep threadEternalSleep, .switchTask,
    .sleep 1]

/-- The search then goes round the queue for ever. -/
theorem candidateLoop_endless : ∃ s, run step (start 0) allSleep = some s ∧
    3 ≤ s.tQueue.length ∧ ¬ s.PicksFirst ∧
      ∀ fuel, s.candidateLoop fuel s.currentThread = none := by
  obtain ⟨s, hrun, hview⟩ := Option.map_eq_some_iff.mp
    (by decide : (run step (start 0) allSleep).map (fun s =>
      (decide (3 ≤ s.tQueue.length), decide (∃ t ∈ s.tQueue, s.Schedulable t))) =
        some (true, false))
  simp only [Prod.mk.injEq, decide_eq_true_eq, decide_eq_false_iff_not] at hview
  obtain ⟨hlength, hnone⟩ := hview
  have hs := queued_of_run hrun
  refine ⟨s, hrun, hlength, fun h => hnone ((hs.picksFirst_iff hlength).mp h), fun fuel => ?_⟩
  exact candidateLoop_eq_none hlength hs.nodup hnone hs.current fuel

end
end Sched
end BrickOS.Processes
