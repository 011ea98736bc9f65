import BrickOS.Lib.Run
import BrickOS.Processes.WaitQueue

/-! Mutexes. A step is one section under the mutex's spinlock, or the scheduler's work on the
sleeping threads between two of them. -/
namespace BrickOS.Processes
open BrickOS.Lib

/-- `mutex_t` with its waiters, and what each thread knows of its own waits: the result of the
last one that returned, and whether it still has to signal for one that returned true. -/
structure Mutex where
  waiters : Waiters
  owner : Option ℕ
  holding : ℕ → Bool
  lastWait : ℕ → Bool

inductive MutexCall
  | wait (thread timeout : ℕ)
  | resume (thread : ℕ)
  | signal (thread : ℕ)
  | tick
  | manageSleepingThreads

namespace Mutex

/-- `mutex_init`. -/
def init (ticks : ℕ) (waitState : ℕ → WaitState) : Mutex where
  waiters := Waiters.start ticks waitState
  owner := none
  holding := fun _ => false
  lastWait := fun _ => false

def returned (m : Mutex) (thread : ℕ) (result : Bool) : Mutex :=
  { m with
    holding := if result then Function.update m.holding thread true else m.holding
    lastWait := Function.update m.lastWait thread result }

def mutexWait (m : Mutex) (thread timeout : ℕ) : Mutex :=
  match m.owner with
  | none => returned { m with owner := some thread } thread true
  | some owner =>
    if timeout = 0 ∨ owner = thread then m.returned thread false
    else { m with waiters := m.waiters.blockCurrentThread thread timeout }

/-- `mutex_wait` from its `yield` on. -/
def mutexWaitResumed (m : Mutex) (thread : ℕ) : Option Mutex :=
  (m.waiters.finishWait thread).map fun r => returned { m with waiters := r.2 } thread r.1

def mutexSignal (m : Mutex) (thread : ℕ) : Mutex :=
  if m.owner ≠ some thread then m
  else
    match m.waiters.waitQueue with
    | [] => { m with owner := none, holding := Function.update m.holding thread false }
    | wthread :: rest =>
      { m with
        waiters := m.waiters.signalHead wthread rest
        owner := some wthread
        holding := Function.update m.holding thread false }

def step (m : Mutex) : MutexCall → Option Mutex
  | .wait thread timeout =>
    if thread ∈ m.waiters.blocked then none else some (m.mutexWait thread timeout)
  | .resume thread => m.mutexWaitResumed thread
  | .signal thread => if thread ∈ m.waiters.blocked then none else some (m.mutexSignal thread)
  | .tick => some { m with waiters := m.waiters.withSched m.waiters.sched.tick }
  | .manageSleepingThreads =>
    some { m with waiters := m.waiters.withSched m.waiters.sched.manageSleepingThreads }

structure Exclusive (m : Mutex) : Prop where
  waiters : m.waiters.Inv
  owner_of_holding : ∀ t, m.holding t = true ∨ m.waiters.Woken t → m.owner = some t
  not_blocked : ∀ t, m.holding t = true → t ∉ m.waiters.blocked

structure Kept (m : Mutex) : Prop where
  noneDropped : m.waiters.NoneDropped
  holding_of_owner : ∀ t, m.owner = some t → m.holding t = true ∨ m.waiters.Woken t
  lastWait : ∀ t, m.holding t = true → m.lastWait t = true

variable {m m' : Mutex} {t timeout : ℕ}

theorem init_exclusive (ticks : ℕ) (waitState : ℕ → WaitState) :
    (init ticks waitState).Exclusive where
  waiters := Waiters.start_inv ticks waitState
  owner_of_holding := by simp [init, Waiters.Woken, Waiters.start]
  not_blocked := by simp [init]

theorem init_kept (ticks : ℕ) (waitState : ℕ → WaitState) : (init ticks waitState).Kept where
  noneDropped := Waiters.start_noneDropped ticks waitState
  holding_of_owner := by simp [init]
  lastWait := by simp [init]

inductive Transition (m : Mutex) : MutexCall → Mutex → Prop
  | acquire {t timeout : ℕ} (hblocked : t ∉ m.waiters.blocked) (howner : m.owner = none) :
      Transition m (.wait t timeout) (returned { m with owner := some t } t true)
  | refuse {t timeout : ℕ} (hblocked : t ∉ m.waiters.blocked) :
      Transition m (.wait t timeout) (m.returned t false)
  | block {t timeout : ℕ} (hblocked : t ∉ m.waiters.blocked) (howner : m.owner ≠ some t) :
      Transition m (.wait t timeout)
        { m with waiters := m.waiters.blockCurrentThread t timeout }
  | finish {t : ℕ} {result : Bool} {w : Waiters}
      (hfinish : m.waiters.finishWait t = some (result, w)) :
      Transition m (.resume t) (returned { m with waiters := w } t result)
  | ignore {t : ℕ} : Transition m (.signal t) m
  | release {t : ℕ} (hblocked : t ∉ m.waiters.blocked) (howner : m.owner = some t) :
      Transition m (.signal t)
        { m with owner := none, holding := Function.update m.holding t false }
  | handOver {t u : ℕ} {rest : List ℕ} (hblocked : t ∉ m.waiters.blocked)
      (howner : m.owner = some t) (hqueue : m.waiters.waitQueue = u :: rest) :
      Transition m (.signal t)
        { m with
          waiters := m.waiters.signalHead u rest
          owner := some u
          holding := Function.update m.holding t false }
  | clock {call : MutexCall} {w : Waiters} (htimed : m.waiters.Inv → Waiters.Timed m.waiters w) :
      Transition m call { m with waiters := w }

theorem transition_of_step {call : MutexCall} (h : m.step call = some m') :
    Transition m call m' := by
  cases call with
  | wait t timeout =>
    simp only [step] at h
    split_ifs at h with hblocked
    obtain rfl := Option.some.inj h
    unfold mutexWait
    split
    · rename_i howner
      exact .acquire hblocked howner
    · rename_i owner howner
      split
      · exact .refuse hblocked
      · rename_i hwait
        exact .block hblocked fun h => hwait (Or.inr (Option.some.inj (howner.symm.trans h)))
  | resume t =>
    obtain ⟨r, hr, rfl⟩ := Option.map_eq_some_iff.mp h
    exact .finish hr
  | signal t =>
    simp only [step] at h
    split_ifs at h with hblocked
    obtain rfl := Option.some.inj h
    unfold mutexSignal
    split
    · exact .ignore
    · rename_i howner
      split
      · exact .release hblocked (not_not.mp howner)
      · rename_i u rest hqueue
        exact .handOver hblocked (not_not.mp howner) hqueue
  | tick =>
    obtain rfl := Option.some.inj h
    exact .clock Waiters.timed_tick
  | manageSleepingThreads =>
    obtain rfl := Option.some.inj h
    exact .clock Waiters.timed_manageSleepingThreads

theorem holding_of_update_false {holding : ℕ → Bool} {u : ℕ}
    (h : Function.update holding t false u = true) : u ≠ t ∧ holding u = true := by
  by_cases hut : u = t
  · simp [hut] at h
  · exact ⟨hut, by simpa [hut] using h⟩

theorem Exclusive.eq_owner (hm : m.Exclusive) {u : ℕ} (howner : m.owner = some t)
    (hu : m.holding u = true ∨ m.waiters.Woken u) : u = t :=
  Option.some.inj ((hm.owner_of_holding u hu).symm.trans howner)

theorem Exclusive.nobody_after (hm : m.Exclusive) {u : ℕ} (hblocked : t ∉ m.waiters.blocked)
    (howner : m.owner = some t) :
    ¬ (Function.update m.holding t false u = true ∨ m.waiters.Woken u) := by
  rintro (hu | hu)
  · obtain ⟨hne, hhold⟩ := holding_of_update_false hu
    exact hne (hm.eq_owner howner (Or.inl hhold))
  · have hut := hm.eq_owner howner (Or.inr hu)
    exact hblocked (hut ▸ hu.1)

theorem step_exclusive {call : MutexCall} (h : m.step call = some m') (hm : m.Exclusive) :
    m'.Exclusive := by
  cases transition_of_step h with
  | @acquire t _ hblocked howner =>
    have hfree : ∀ u, ¬ (m.holding u = true ∨ m.waiters.Woken u) := by
      intro u hu
      simpa [howner] using hm.owner_of_holding u hu
    constructor
    · exact hm.waiters
    · intro u hu
      by_cases hut : u = t
      · rw [hut]
        rfl
      · exact absurd (by simpa [returned, hut] using hu) (hfree u)
    · intro u hu
      by_cases hut : u = t
      · rw [hut]
        exact hblocked
      · exact hm.not_blocked u (by simpa [returned, hut] using hu)
  | refuse _ => exact ⟨hm.waiters, hm.owner_of_holding, hm.not_blocked⟩
  | @block t timeout hblocked howner =>
    constructor
    · exact Waiters.blockCurrentThread_inv timeout hm.waiters hblocked
    · intro u hu
      rw [Waiters.woken_blockCurrentThread_iff timeout hblocked] at hu
      exact hm.owner_of_holding u hu
    · intro u hu hmem
      -- the holder is the owner, and the owner is never queued behind itself
      have hne : u ≠ t := fun hut => howner (hut ▸ hm.owner_of_holding u (Or.inl hu))
      exact hm.not_blocked u hu ((List.mem_cons.mp hmem).resolve_left hne)
  | @finish t result w hfinish =>
    obtain ⟨-, -, -, hblocked, hcases⟩ := Waiters.finishWait_cases hfinish
    have hwoken := Waiters.woken_finishWait_iff hm.waiters hfinish
    have hmem := fun u => hm.waiters.nodup_blocked.mem_erase_iff (a := u) (b := t)
    constructor
    · exact Waiters.finishWait_inv hm.waiters hfinish
    · intro u hu
      by_cases hut : u = t
      · obtain ⟨rfl, hw, -⟩ | ⟨rfl, -, -⟩ := hcases
        · exact hm.owner_of_holding u (Or.inr (hut ▸ hw))
        · exact hm.owner_of_holding u (hu.imp id fun h => ((hwoken u).mp h).2)
      · have hhold : m.holding u = true ∨ w.Woken u := by
          cases result <;> simpa [returned, hut] using hu
        exact hm.owner_of_holding u (hhold.imp id fun h => ((hwoken u).mp h).2)
    · intro u hu hmemu
      have hmemu' : u ≠ t ∧ u ∈ m.waiters.blocked := (hmem u).mp (hblocked ▸ hmemu)
      have hhold : m.holding u = true := by
        cases result <;> simpa [returned, hmemu'.1] using hu
      exact hm.not_blocked u hhold hmemu'.2
  | ignore => exact hm
  | @release t hblocked howner =>
    constructor
    · exact hm.waiters
    · exact fun u hu => absurd hu (hm.nobody_after hblocked howner)
    · exact fun u hu => hm.not_blocked u (holding_of_update_false hu).2
  | @handOver t u rest hblocked howner hqueue =>
    constructor
    · exact Waiters.signalHead_inv hm.waiters hqueue
    · intro v hv
      rw [Waiters.woken_signalHead_iff hm.waiters hqueue, ← or_assoc] at hv
      obtain ⟨rfl, -⟩ := hv.resolve_left (hm.nobody_after hblocked howner)
      rfl
    · exact fun v hv => hm.not_blocked v (holding_of_update_false hv).2
  | @clock _ w htimed =>
    have ht := htimed hm.waiters
    constructor
    · exact ht.inv
    · intro u hu
      rw [ht.woken_iff] at hu
      exact hm.owner_of_holding u hu
    · intro u hu hmem
      rw [ht.blocked] at hmem
      exact hm.not_blocked u hu hmem

theorem exclusive_of_run {ticks : ℕ} {waitState : ℕ → WaitState} {calls : List MutexCall}
    (h : run step (init ticks waitState) calls = some m) : m.Exclusive :=
  run_invariant (P := fun _ _ => True) (fun _ _ _ _ hs hi => step_exclusive hs hi)
    (along_true _ _) h (init_exclusive ticks waitState)

theorem holding_unique {ticks : ℕ} {waitState : ℕ → WaitState} {calls : List MutexCall}
    (h : run step (init ticks waitState) calls = some m) {t u : ℕ}
    (ht : m.holding t = true) (hu : m.holding u = true) : t = u := by
  have hm := exclusive_of_run h
  exact hm.eq_owner (hm.owner_of_holding u (Or.inl hu)) (Or.inl ht)

/-- The owner does not wait for its own mutex, and when it signals, the time of the wait at the
head of the queue is not up. -/
def ReachesHead (m : Mutex) : MutexCall → Prop
  | .wait t _ => m.owner ≠ some t
  | .signal t => m.owner = some t →
      ∀ u ∈ m.waiters.waitQueue.head?, m.waiters.sched.waitState u = .waiting
  | _ => True

instance (m : Mutex) : ∀ call, Decidable (m.ReachesHead call)
  | .wait t _ => inferInstanceAs (Decidable (m.owner ≠ some t))
  | .signal t => inferInstanceAs (Decidable (m.owner = some t →
      ∀ u ∈ m.waiters.waitQueue.head?, m.waiters.sched.waitState u = .waiting))
  | .resume _ | .tick | .manageSleepingThreads => inferInstanceAs (Decidable True)

theorem step_kept {call : MutexCall} (hcall : m.ReachesHead call) (h : m.step call = some m')
    (hm : m.Exclusive) (hk : m.Kept) : m'.Kept := by
  cases transition_of_step h with
  | @acquire t _ hblocked howner =>
    constructor
    · exact hk.noneDropped
    · intro u hu
      obtain rfl : t = u := Option.some.inj hu
      exact Or.inl (by simp [returned])
    · intro u hu
      by_cases hut : u = t
      · simp [returned, hut]
      · have hold : m.holding u = true := by simpa [returned, hut] using hu
        simpa [returned, hut] using hk.lastWait u hold
  | @refuse t _ _ =>
    constructor
    · exact hk.noneDropped
    · exact hk.holding_of_owner
    · intro u hu
      have hne : u ≠ t := fun hut => hcall (hut ▸ hm.owner_of_holding u (Or.inl hu))
      simpa [returned, hne] using hk.lastWait u hu
  | @block t timeout hblocked _ =>
    constructor
    · exact Waiters.blockCurrentThread_noneDropped timeout hblocked hk.noneDropped
    · intro u hu
      rw [Waiters.woken_blockCurrentThread_iff timeout hblocked]
      exact hk.holding_of_owner u hu
    · exact hk.lastWait
  | @finish t result w hfinish =>
    obtain ⟨hmem, -, -, -, hcases⟩ := Waiters.finishWait_cases hfinish
    have hwoken := Waiters.woken_finishWait_iff hm.waiters hfinish
    have hnot : m.holding t ≠ true := fun hold => hm.not_blocked t hold hmem
    constructor
    · exact Waiters.finishWait_noneDropped hm.waiters hfinish hk.noneDropped
    · intro u hu
      by_cases hut : u = t
      · subst hut
        obtain ⟨rfl, -, -⟩ | ⟨-, hno, -⟩ := hcases
        · exact Or.inl (by simp [returned])
        · exact absurd ((hk.holding_of_owner u hu).resolve_left hnot) hno
      · refine (hk.holding_of_owner u hu).imp (fun hold => ?_) fun hw => ?_
        · cases result <;> simpa [returned, hut] using hold
        · exact (hwoken u).mpr ⟨hut, hw⟩
    · intro u hu
      by_cases hut : u = t
      · subst hut
        cases result with
        | false => exact absurd hu hnot
        | true => simp [returned]
      · have hold : m.holding u = true := by
          cases result <;> simpa [returned, hut] using hu
        simpa [returned, hut] using hk.lastWait u hold
  | ignore => exact hk
  | release _ _ =>
    constructor
    · exact hk.noneDropped
    · exact fun u hu => absurd hu (by simp)
    · exact fun u hu => hk.lastWait u (holding_of_update_false hu).2
  | @handOver t u rest _ howner hqueue =>
    have hwait : m.waiters.sched.waitState u = .waiting := hcall howner u (by simp [hqueue])
    constructor
    · exact Waiters.signalHead_noneDropped hm.waiters hqueue hwait hk.noneDropped
    · intro v hv
      obtain rfl : u = v := Option.some.inj hv
      rw [Waiters.woken_signalHead_iff hm.waiters hqueue]
      exact Or.inr (Or.inr ⟨rfl, hwait⟩)
    · exact fun v hv => hk.lastWait v (holding_of_update_false hv).2
  | @clock _ w htimed =>
    have ht := htimed hm.waiters
    constructor
    · exact ht.noneDropped hk.noneDropped
    · intro u hu
      rw [ht.woken_iff]
      exact hk.holding_of_owner u hu
    · exact hk.lastWait

/-- The thread's last wait returned true, or the one it is in does once the thread runs. -/
def WaitSucceeds (m : Mutex) (t : ℕ) : Prop :=
  t ∉ m.waiters.blocked ∧ m.lastWait t = true ∨
    t ∈ m.waiters.blocked ∧ ∃ m', m.step (.resume t) = some m' ∧ m'.lastWait t = true

theorem Kept.waitSucceeds (hm : m.Exclusive) (hk : m.Kept) (howner : m.owner = some t) :
    m.WaitSucceeds t := by
  rcases hk.holding_of_owner t howner with hold | hwoken
  · exact Or.inl ⟨hm.not_blocked t hold, hk.lastWait t hold⟩
  · have hfinish := Waiters.finishWait_of_woken hm.waiters hwoken
    refine Or.inr ⟨hwoken.1, _, congrArg (Option.map _) hfinish, ?_⟩
    simp [returned]

theorem mutex_ownership {ticks : ℕ} {waitState : ℕ → WaitState} {calls : List MutexCall}
    (hcalls : Along step ReachesHead (init ticks waitState) calls)
    (h : run step (init ticks waitState) calls = some m) :
    (∀ t u, m.holding t = true → m.holding u = true → t = u) ∧
    (∀ t, m.owner = some t → m.WaitSucceeds t) ∧
    ((∀ t, m.holding t = false) → m.waiters.blocked = [] → m.owner = none) := by
  have hm : m.Exclusive ∧ m.Kept := by
    apply run_invariant (P := ReachesHead) (I := fun m => m.Exclusive ∧ m.Kept) ?_ hcalls h
    · exact ⟨init_exclusive ticks waitState, init_kept ticks waitState⟩
    · intro s call s' hcall hs hi
      exact ⟨step_exclusive hs hi.1, step_kept hcall hs hi.1 hi.2⟩
  refine ⟨fun t u => holding_unique h, fun t => hm.2.waitSucceeds hm.1, fun hhold hblocked => ?_⟩
  cases howner : m.owner with
  | none => rfl
  | some t =>
    rcases hm.2.holding_of_owner t howner with hold | hwoken
    · simp [hhold t] at hold
    · simp [Waiters.Woken, hblocked] at hwoken

/-- The mutex passes from thread 1 to thread 2, whose wait is going to return true. -/
theorem mutex_ownership_handed_over :
    ∃ m, run step (init 0 fun _ => .waiting)
        [.wait 1 lockTimeoutInf, .wait 2 1000, .tick, .manageSleepingThreads, .signal 1] = some m ∧
      m.owner = some 2 ∧ m.WaitSucceeds 2 ∧ m.waiters.blocked = [2] := by
  have hvalues : (run step (init 0 fun _ => .waiting)
      [.wait 1 lockTimeoutInf, .wait 2 1000, .tick, .manageSleepingThreads, .signal 1]).map
        (fun m => (m.owner, m.waiters.blocked)) = some (some 2, [2]) := by decide +kernel
  obtain ⟨m, hm, heq⟩ := Option.map_eq_some_iff.mp hvalues
  obtain ⟨howner, hblocked⟩ := Prod.mk.inj heq
  exact ⟨m, hm, howner, (mutex_ownership (by decide +kernel) hm).2.1 2 howner, hblocked⟩

/-- Thread 2 is handed the mutex after its time was up. Its wait returns false, so it never
signals: when threads 2 and 3 have given up, thread 2 still owns the mutex. -/
theorem mutex_owned_by_timed_out_wait :
    ∃ m, run step (init 0 fun _ => .waiting)
        [.wait 1 lockTimeoutInf, .wait 2 10, .wait 3 20, .tick, .manageSleepingThreads, .signal 1,
          .resume 2, .tick, .manageSleepingThreads, .resume 3] = some m ∧
      m.owner = some 2 ∧ ¬ m.WaitSucceeds 2 ∧
      (∀ t, m.holding t = false) ∧ m.waiters.blocked = [] := by
  have hvalues : (run step (init 0 fun _ => .waiting)
      [.wait 1 lockTimeoutInf, .wait 2 10, .wait 3 20, .tick, .manageSleepingThreads, .signal 1,
        .resume 2, .tick, .manageSleepingThreads, .resume 3]).map (fun m =>
      (m.owner, m.waiters.blocked, m.holding 2, m.lastWait 2)) =
      some (some 2, [], false, false) := by decide +kernel
  obtain ⟨m, hm, heq⟩ := Option.map_eq_some_iff.mp hvalues
  simp only [Prod.mk.injEq] at heq
  obtain ⟨howner, hblocked, hhold, hlast⟩ := heq
  refine ⟨m, hm, howner, ?_, fun t => ?_, hblocked⟩
  · simp [WaitSucceeds, hblocked, hlast]
  · by_contra ht
    have hown := (exclusive_of_run hm).eq_owner howner (Or.inl (by simpa using ht))
    exact ht (hown ▸ hhold)

/-- The owner and the threads that are in the queue in front of the thread. -/
def line (m : Mutex) (t : ℕ) : List ℕ :=
  m.owner.toList ++ m.waiters.waitQueue.takeWhile (· ≠ t)

/-- A mutex that is waited for is owned. -/
def Owned (m : Mutex) : Prop := m.waiters.waitQueue ≠ [] → m.owner.isSome

/-- What a call does to the owner and to the queue. -/
inductive Moves (m m' : Mutex) : Prop
  | same (howner : m'.owner = m.owner) (hqueue : m'.waiters.waitQueue = m.waiters.waitQueue)
  | acquire {t : ℕ} (howner : m.owner = none) (howner' : m'.owner = some t)
      (hqueue : m'.waiters.waitQueue = m.waiters.waitQueue)
  | block {t : ℕ} (howned : m.owner.isSome) (howner : m'.owner = m.owner)
      (hqueue : m'.waiters.waitQueue = m.waiters.waitQueue ++ [t])
  | leave {t : ℕ} (howner : m'.owner = m.owner)
      (hqueue : m'.waiters.waitQueue = m.waiters.waitQueue.erase t)
  | release (hqueue : m.waiters.waitQueue = []) (hqueue' : m'.waiters.waitQueue = [])
  | handOver {t : ℕ} (howned : m.owner.isSome) (howner : m'.owner = some t)
      (hqueue : m.waiters.waitQueue = t :: m'.waiters.waitQueue)

theorem moves_of_step {call : MutexCall} (h : m.step call = some m') (hm : m.Exclusive) :
    m.Moves m' := by
  cases call with
  | wait t timeout =>
    simp only [step] at h
    split_ifs at h
    obtain rfl := Option.some.inj h
    cases howner : m.owner with
    | none =>
      rw [mutexWait, howner]
      exact .acquire howner rfl rfl
    | some owner =>
      simp only [mutexWait, howner]
      split_ifs
      · exact .same rfl rfl
      · exact .block (howner ▸ rfl) howner.symm rfl
  | resume t =>
    obtain ⟨⟨result, w⟩, hr, rfl⟩ := Option.map_eq_some_iff.mp h
    obtain ⟨-, -, -, -, ⟨-, -, hqueue⟩ | ⟨-, -, hqueue⟩⟩ := Waiters.finishWait_cases hr
    · exact .same rfl hqueue
    · exact .leave rfl hqueue
  | signal t =>
    simp only [step] at h
    split_ifs at h
    obtain rfl := Option.some.inj h
    unfold mutexSignal
    split_ifs with howner
    · exact .same rfl rfl
    · cases hqueue : m.waiters.waitQueue with
      | nil => exact .release hqueue hqueue
      | cons u rest => exact .handOver (not_not.mp howner ▸ rfl) rfl hqueue
  | tick =>
    obtain rfl := Option.some.inj h
    exact .same rfl rfl
  | manageSleepingThreads =>
    obtain rfl := Option.some.inj h
    exact .same rfl (Waiters.timed_manageSleepingThreads hm.waiters).waitQueue

theorem Moves.owned (h : m.Moves m') (hm : m.Owned) : m'.Owned := by
  intro hne
  cases h with
  | same howner hqueue => exact howner ▸ hm (hqueue ▸ hne)
  | acquire _ howner' _ => exact howner' ▸ rfl
  | block howned howner _ => exact howner ▸ howned
  | leave howner hqueue =>
    rw [howner]
    refine hm fun h => hne ?_
    rw [hqueue, h, List.erase_nil]
  | release _ hqueue' => exact absurd hqueue' hne
  | handOver _ howner _ => exact howner ▸ rfl

theorem takeWhile_ne {a b : List ℕ} (ha : t ∉ a) : (a ++ t :: b).takeWhile (· ≠ t) = a := by
  rw [List.takeWhile_append_of_pos fun x hx => by simpa using fun h : x = t => ha (h ▸ hx)]
  simp

theorem Moves.line_sublist (h : m.Moves m') (hm : m.Owned) (hnodup : m.waiters.waitQueue.Nodup)
    (ht : t ∈ m.waiters.waitQueue) (ht' : t ∈ m'.waiters.waitQueue) :
    (m'.line t).Sublist (m.line t) := by
  obtain ⟨a, b, hq, ha⟩ := List.eq_append_cons_of_mem ht
  unfold line
  cases h with
  | same howner hqueue => rw [howner, hqueue]
  | acquire howner _ _ => exact absurd (hm (List.ne_nil_of_mem ht)) (by simp [howner])
  | block _ howner hqueue =>
    rw [howner, hqueue, hq, List.append_assoc, List.cons_append, takeWhile_ne ha, takeWhile_ne ha]
  | @leave u howner hqueue =>
    rw [hq] at hqueue hnodup
    have hu : u ≠ t := by
      rintro rfl
      exact (hnodup.mem_erase_iff.mp (hqueue ▸ ht')).1 rfl
    rw [howner, hqueue, hq, takeWhile_ne ha]
    by_cases hua : u ∈ a
    · rw [List.erase_append_left _ hua, takeWhile_ne fun h => ha (List.mem_of_mem_erase h)]
      exact List.erase_sublist.append_left _
    · rw [List.erase_append_right _ hua, List.erase_cons_tail (by simpa using hu.symm),
        takeWhile_ne ha]
  | release hqueue _ => simp [hqueue] at ht
  | @handOver u howned howner hqueue =>
    rw [hqueue] at hnodup ⊢
    have hu : u ≠ t := fun h => (List.nodup_cons.mp hnodup).1 (h ▸ ht')
    rw [howner, List.takeWhile_cons_of_pos (by simpa using hu)]
    exact List.sublist_append_right _ _

theorem owned_of_run {ticks : ℕ} {waitState : ℕ → WaitState} {calls : List MutexCall}
    (h : run step (init ticks waitState) calls = some m) : m.Exclusive ∧ m.Owned :=
  run_invariant (P := fun _ _ => True) (I := fun m => m.Exclusive ∧ m.Owned)
    (fun _ _ _ _ hs hi => ⟨step_exclusive hs hi.1, (moves_of_step hs hi.1).owned hi.2⟩)
    (along_true _ _) h ⟨init_exclusive ticks waitState, fun h => absurd rfl h⟩

theorem line_sublist_of_run {calls : List MutexCall} (hm : m.Exclusive) (howned : m.Owned)
    (hwaits : Along step (fun m _ => t ∈ m.waiters.waitQueue) m calls)
    (hrun : run step m calls = some m') (ht : t ∈ m'.waiters.waitQueue) :
    (m'.line t).Sublist (m.line t) := by
  induction calls generalizing m with
  | nil =>
    cases hrun
    exact List.Sublist.refl _
  | cons call calls ih =>
    obtain ⟨u, hu, hrun⟩ := Option.bind_eq_some_iff.mp hrun
    have hmoves := moves_of_step hu hm
    have htu : t ∈ u.waiters.waitQueue := by
      cases calls with
      | nil =>
        cases hrun
        exact ht
      | cons => exact (hwaits.2 u hu).1
    exact (ih (step_exclusive hu hm) (hmoves.owned howned) (hwaits.2 u hu) hrun).trans
      (hmoves.line_sublist howned hm.waiters.nodup_queue hwaits.1 htu)

/-- The mutex goes to those who wait for it in the order in which they came. While a thread waits,
the owner and the threads in front of it are among those of before, in their order, and with none
left in front of it the next release gives it the mutex. -/
theorem mutex_fifo {ticks : ℕ} {waitState : ℕ → WaitState} {calls calls' : List MutexCall}
    (hrun : run step (init ticks waitState) calls = some m)
    (hwaits : Along step (fun m _ => t ∈ m.waiters.waitQueue) m calls')
    (hrun' : run step m calls' = some m') (ht : t ∈ m'.waiters.waitQueue) :
    (m'.line t).Sublist (m.line t) ∧
      ∀ u, m'.line t = [u] → (m'.mutexSignal u).owner = some t := by
  obtain ⟨hm, howned⟩ := owned_of_run hrun
  refine ⟨line_sublist_of_run hm howned hwaits hrun' ht, fun u hu => ?_⟩
  have hwhole : run step (init ticks waitState) (calls ++ calls') = some m' := by
    rw [run_append, hrun]
    exact hrun'
  obtain ⟨a, b, hq, ha⟩ := List.eq_append_cons_of_mem ht
  obtain ⟨owner, howner⟩ :=
    Option.isSome_iff_exists.mp ((owned_of_run hwhole).2 (List.ne_nil_of_mem ht))
  rw [line, howner, hq, takeWhile_ne ha] at hu
  obtain ⟨rfl, rfl⟩ : owner = u ∧ a = [] := by simpa using hu
  simp [mutexSignal, howner, hq]

/-- Thread 3 waits behind thread 2 while thread 1 gives the mutex back and asks for it again. -/
theorem mutex_fifo_three : ∃ m m', run step (init 0 fun _ => .waiting)
      [.wait 1 lockTimeoutInf, .wait 2 lockTimeoutInf, .wait 3 lockTimeoutInf] = some m ∧
    run step m [.signal 1, .wait 1 lockTimeoutInf] = some m' ∧
    m.line 3 = [1, 2] ∧ m'.line 3 = [2] ∧ (m'.mutexSignal 2).owner = some 3 := by
  obtain ⟨m, hm, hwaits, m', hm', ht, hline, hline'⟩ : ∃ m ∈ run step (init 0 fun _ => .waiting)
      [.wait 1 lockTimeoutInf, .wait 2 lockTimeoutInf, .wait 3 lockTimeoutInf],
      Along step (fun m _ => 3 ∈ m.waiters.waitQueue) m [.signal 1, .wait 1 lockTimeoutInf] ∧
      ∃ m' ∈ run step m [.signal 1, .wait 1 lockTimeoutInf],
        3 ∈ m'.waiters.waitQueue ∧ m.line 3 = [1, 2] ∧ m'.line 3 = [2] := by
    decide +kernel
  exact ⟨m, m', hm, hm', hline, hline', (mutex_fifo hm hwaits hm' ht).2 2 hline'⟩

end Mutex

end BrickOS.Processes
