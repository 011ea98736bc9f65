import BrickOS.Processes.TimerCallbacks
import BrickOS.Processes.Candidates

/-! Periods in milliseconds: when a registered callback is queued, while other callbacks come and go,
and how long `sys_mssleep` keeps a thread asleep. -/
namespace BrickOS.Processes
open BrickOS.Lib

inductive TimerEvent (α : Type)
  | tick
  | register (callback : α) (periodMs : ℕ)
  | unregister (callback : α)
deriving DecidableEq

section
variable {α : Type} [DecidableEq α]

def timerStep (timers : List (TimerCallback α)) : TimerEvent α → List (TimerCallback α)
  | .tick => (handleTimerCallbacks timers).1
  | .register callback periodMs => registerTimerCallback timers callback periodMs
  | .unregister callback => unregisterTimerCallback timers callback

end

/-- A callback that is registered with `periodMs` is queued at every `period`-th tick from then on,
among the work of the other entries. It is unregistered when the registrations of the same callback
before it are. -/
def FiresEvery (period periodMs : ℕ) : Prop :=
  ∀ (α : Type) [DecidableEq α] (timers : List (TimerCallback α)) (c : α)
    (events : List (TimerEvent α)),
    events.count (.unregister c) ≤ (registrations timers c).length →
      ∃ before cb after,
        events.foldl timerStep (registerTimerCallback timers c periodMs) = before ++ cb :: after ∧
        cb.callback = c ∧
        (registrations before c).length + events.count (.unregister c) =
          (registrations timers c).length ∧
        (handleTimerCallbacks (before ++ cb :: after)).2 = (handleTimerCallbacks before).2 ++
          (if period ∣ events.count .tick + 1 then [c] else []) ++ (handleTimerCallbacks after).2 ∧
        (registrations before c = [] →
          unregisterTimerCallback (before ++ cb :: after) c = before ++ after)

namespace Sched

def sysMssleep (s : Sched) (time : ℕ) : Option Sched :=
  let sleepTicks := msToTicks32 time
  let sleepTicks := if sleepTicks = 0 then 1 else sleepTicks
  (s.addSleepingThread s.currentThread sleepTicks).switchTask

/-- Nothing but the clock wakes the thread, and the queue is not processed at the tick or later. -/
def WaitsUntil (thread tick : ℕ) (s : Sched) (c : SleepCall) : Prop :=
  c ≠ .wakeupThread thread ∧ (c = .manageSleepingThreads → s.ticks < tick)

end Sched

/-- After `sys_mssleep` the thread sleeps until the queue is processed `period` ticks later, and can run
from then on. -/
def SleepsFor (period time : ℕ) : Prop :=
  ∀ s s₁ : Sched, s.QueueExact → s.execState s.currentThread ≠ .sleeping →
    s.ticks + period < 2 ^ 64 → s.sysMssleep time = some s₁ →
      ∀ calls s₂, run Sched.sleepStep s₁ calls = some s₂ →
        Along Sched.sleepStep (Sched.WaitsUntil s.currentThread (s.ticks + period)) s₁ calls →
          s₂.execState s.currentThread = .sleeping ∧
            (s.ticks + period ≤ s₂.ticks →
              s₂.manageSleepingThreads.execState s.currentThread = .running)

def HonoursPeriod (p : ℕ) : Prop := FiresEvery (p / 10) p ∧ SleepsFor (p / 10) p

section Callbacks
variable {α : Type} {q n k : ℕ}

theorem handle_append (before after : List (TimerCallback α)) (cb : TimerCallback α) :
    handleTimerCallbacks (before ++ cb :: after) =
      ((handleTimerCallbacks before).1 ++ cb.tick.1 :: (handleTimerCallbacks after).1,
        (handleTimerCallbacks before).2 ++ (if cb.tick.2 then [cb.callback] else []) ++
          (handleTimerCallbacks after).2) := by
  unfold handleTimerCallbacks
  rw [List.map_append, List.map_cons, List.filterMap_append, List.filterMap_cons]
  cases cb.tick.2 <;> simp

/-- The counter is the number of ticks modulo the period. -/
theorem tick_eq {cb : TimerCallback α} (hq : q < 2 ^ 32) (hperiod : cb.periodTicks = q)
    (hrunning : cb.runningTicks = n % max q 1) :
    cb.tick = ({ cb with runningTicks := (n + 1) % max q 1 }, decide (max q 1 ∣ n + 1)) := by
  have hlt : n % max q 1 < max q 1 := Nat.mod_lt _ (by omega)
  have hsucc : (n % max q 1 + 1) % 2 ^ 32 = n % max q 1 + 1 := Nat.mod_eq_of_lt (by omega)
  have hmod : (n + 1) % max q 1 = (n % max q 1 + 1) % max q 1 := (Nat.mod_add_mod n _ 1).symm
  unfold TimerCallback.tick
  rw [hperiod, hrunning, hsucc]
  by_cases hfull : n % max q 1 + 1 = max q 1
  · have hzero : (n + 1) % max q 1 = 0 := by rw [hmod, hfull, Nat.mod_self]
    rw [if_pos (by omega), hzero, decide_eq_true (Nat.dvd_of_mod_eq_zero hzero)]
  · have hkeep : (n + 1) % max q 1 = n % max q 1 + 1 := by
      rw [hmod, Nat.mod_eq_of_lt (by omega)]
    have hdvd : ¬ max q 1 ∣ n + 1 := by
      rw [Nat.dvd_iff_mod_eq_zero, hkeep]
      omega
    rw [if_neg (by omega), hkeep, decide_eq_false hdvd]

variable [DecidableEq α] {c : α} {timers : List (TimerCallback α)}

def Tracked (c : α) (q n k : ℕ) (timers : List (TimerCallback α)) : Prop :=
  ∃ before cb after, timers = before ++ cb :: after ∧ cb.callback = c ∧
    (registrations before c).length = k ∧ cb.periodTicks = q ∧ cb.runningTicks = n % max q 1

theorem registrations_eq_nil_iff :
    registrations timers c = [] ↔ ∀ cb ∈ timers, cb.callback ≠ c := by
  simp [registrations]

/-- The first entry with the callback is among those before, or it is `cb` itself, or behind it. -/
theorem unregister_append (before after : List (TimerCallback α)) (cb : TimerCallback α) (d : α) :
    unregisterTimerCallback (before ++ cb :: after) d =
      if registrations before d ≠ [] then unregisterTimerCallback before d ++ cb :: after
      else if cb.callback = d then before ++ after
      else before ++ cb :: unregisterTimerCallback after d := by
  unfold unregisterTimerCallback Keyed.remove
  by_cases h : registrations before d = []
  · have hnone : ∀ b ∈ before, ¬ (b.callback == d) = true := by
      simpa using registrations_eq_nil_iff.mp h
    rw [if_neg (not_not.mpr h), List.eraseP_append_right _ hnone, List.eraseP_cons]
    by_cases hd : cb.callback = d
    · simp [hd]
    · simp [hd, beq_eq_false_iff_ne.mpr hd]
  · obtain ⟨b, hb, hbd⟩ : ∃ b ∈ before, b.callback = d := by
      simpa using mt registrations_eq_nil_iff.mpr h
    rw [if_pos h]
    exact List.eraseP_append_left (by simpa using hbd) _ hb

theorem registrations_unregister_of_ne {d : α} (h : d ≠ c) (timers : List (TimerCallback α)) :
    registrations (unregisterTimerCallback timers d) c = registrations timers c := by
  induction timers with
  | nil => rfl
  | cons cb timers ih =>
    simp only [registrations, unregisterTimerCallback, Keyed.remove, List.filter_cons,
      List.eraseP_cons] at ih ⊢
    by_cases hd : cb.callback = d
    · simp [hd, h]
    · simp [beq_eq_false_iff_ne.mpr hd, List.filter_cons, ih]

theorem Tracked.tick (hq : q < 2 ^ 32) (h : Tracked c q n k timers) :
    Tracked c q (n + 1) k (handleTimerCallbacks timers).1 := by
  obtain ⟨before, cb, after, rfl, hcb, hk, hperiod, hrunning⟩ := h
  refine ⟨(handleTimerCallbacks before).1, cb.tick.1, (handleTimerCallbacks after).1, ?_, ?_, ?_, ?_, ?_⟩
  · rw [handle_append]
  · rw [TimerCallback.tick_callback, hcb]
  · rw [registrations_handle, List.length_map, hk]
  · rw [TimerCallback.tick_periodTicks, hperiod]
  · rw [tick_eq hq hperiod hrunning]

theorem Tracked.register (h : Tracked c q n k timers) (d : α) (periodMs : ℕ) :
    Tracked c q n k (registerTimerCallback timers d periodMs) := by
  obtain ⟨before, cb, after, rfl, hcb⟩ := h
  exact ⟨before, cb, registerTimerCallback after d periodMs, List.append_assoc _ _ _, hcb⟩

theorem Tracked.unregister_of_ne {d : α} (h : Tracked c q n k timers) (hd : d ≠ c) :
    Tracked c q n k (unregisterTimerCallback timers d) := by
  obtain ⟨before, cb, after, rfl, hcb, hk, hentry⟩ := h
  rw [unregister_append]
  split_ifs with hbefore hself
  · refine ⟨_, cb, after, rfl, hcb, ?_, hentry⟩
    rw [registrations_unregister_of_ne hd, hk]
  · exact absurd (hself.symm.trans hcb) hd
  · exact ⟨before, cb, _, rfl, hcb, hk, hentry⟩

/-- An entry of the same callback before it goes first. -/
theorem Tracked.unregister (h : Tracked c q n (k + 1) timers) :
    Tracked c q n k (unregisterTimerCallback timers c) := by
  obtain ⟨before, cb, after, rfl, hcb, hk, hentry⟩ := h
  have hne : registrations before c ≠ [] := by
    intro hnil
    rw [hnil] at hk
    cases hk
  rw [unregister_append, if_pos hne]
  refine ⟨_, cb, after, rfl, hcb, ?_, hentry⟩
  rw [registrations_unregister, List.length_tail, hk, Nat.add_sub_cancel]

theorem Tracked.foldl (hq : q < 2 ^ 32) {events : List (TimerEvent α)} (h : Tracked c q n k timers)
    (hk : events.count (.unregister c) ≤ k) :
    Tracked c q (n + events.count .tick) (k - events.count (.unregister c))
      (events.foldl timerStep timers) := by
  induction events generalizing timers n k with
  | nil => exact h
  | cons e events ih =>
    rw [List.count_cons] at hk
    rw [List.foldl_cons, List.count_cons, List.count_cons]
    cases e with
    | tick =>
      simp only [beq_self_eq_true, if_true, reduceCtorEq, beq_iff_eq, if_false, Nat.add_zero] at hk ⊢
      have := ih (h.tick hq) hk
      rwa [Nat.add_right_comm, Nat.add_assoc] at this
    | register d periodMs =>
      simp only [reduceCtorEq, beq_iff_eq, if_false, Nat.add_zero] at hk ⊢
      exact ih (h.register d periodMs) hk
    | unregister d =>
      by_cases hd : d = c
      · subst hd
        simp only [beq_self_eq_true, if_true, reduceCtorEq, beq_iff_eq, if_false, Nat.add_zero]
          at hk ⊢
        obtain ⟨k, rfl⟩ := Nat.exists_eq_add_of_le' (Nat.le_of_add_left_le hk)
        have := ih h.unregister (Nat.le_of_add_le_add_right hk)
        rwa [Nat.add_sub_add_right]
      · simp only [TimerEvent.unregister.injEq, hd, reduceCtorEq, beq_iff_eq, if_false,
          Nat.add_zero] at hk ⊢
        exact ih (h.unregister_of_ne hd) hk

/-- With a period of 0 ticks the callback is queued at every tick. -/
theorem firesEvery (p : ℕ) : FiresEvery (max (msToTicks32 p) 1) p := by
  intro α _ timers c events hcount
  have hq : msToTicks32 p < 2 ^ 32 :=
    (Nat.div_le_self _ _).trans_lt (Nat.mod_lt _ (Nat.two_pow_pos 32))
  have hstart : Tracked c (msToTicks32 p) 0 (registrations timers c).length
      (registerTimerCallback timers c p) :=
    ⟨timers, ⟨c, msToTicks32 p, 0⟩, [], rfl, rfl, rfl, rfl, (Nat.zero_mod _).symm⟩
  obtain ⟨before, cb, after, heq, hcb, hk, hperiod, hrunning⟩ := hstart.foldl hq hcount
  refine ⟨before, cb, after, heq, hcb, by omega, ?_, fun hnil => ?_⟩
  · rw [Nat.zero_add] at hrunning
    rw [handle_append, tick_eq hq hperiod hrunning, hcb]
    simp only [decide_eq_true_eq]
  · rw [unregister_append, if_neg (not_not.mpr hnil), if_pos hcb]

end Callbacks

namespace Sched
variable {s s' : Sched} {t tick : ℕ}

def AsleepUntil (t tick : ℕ) (s : Sched) : Prop :=
  s.QueueExact ∧ ∃ e ∈ s.sleepingThreads, e.thread = t ∧ e.wakeupTick = tick

theorem AsleepUntil.sleeping (h : s.AsleepUntil t tick) : s.execState t = .sleeping := by
  obtain ⟨hs, e, he, rfl, -⟩ := h
  exact (hs.mem_listed e.thread).mp (List.mem_map_of_mem he)

theorem AsleepUntil.wakes (h : s.AsleepUntil t tick) (hticks : tick ≤ s.ticks) :
    s.manageSleepingThreads.execState t = .running := by
  obtain ⟨hs, e, he, rfl, rfl⟩ := h
  exact ((hs.wakesDue e.thread).1 ⟨e, he, rfl, hticks⟩).1

theorem mem_manageSleepingThreads {e : SleepingThread} (hs : s.QueueExact)
    (he : e ∈ s.sleepingThreads) (hticks : s.ticks < e.wakeupTick) :
    e ∈ s.manageSleepingThreads.sleepingThreads := by
  unfold manageSleepingThreads
  rw [manageFrom_eq]
  have hsplit := List.takeWhile_append_dropWhile (p := fun e => e.wakeupTick ≤ s.ticks)
    (l := s.sleepingThreads)
  rw [← hsplit] at he
  refine (List.mem_append.mp he).resolve_left fun hexpired => ?_
  have := ((mem_expired_iff hs.sorted).mp hexpired).2
  omega

theorem AsleepUntil.step {c : SleepCall} (h : s.AsleepUntil t tick) (hc : WaitsUntil t tick s c)
    (hstep : s.sleepStep c = some s') : s'.AsleepUntil t tick := by
  have hs' := h.1.step hstep
  obtain ⟨hs, e, he, rfl, rfl⟩ := h
  refine ⟨hs', e, ?_, rfl, rfl⟩
  cases c with
  | addSleepingThread u n =>
    cases hstep
    unfold addSleepingThread
    split_ifs
    · exact he
    · exact (Scheduler.perm_insertSleepingThread _ _).mem_iff.mpr (List.mem_cons_of_mem _ he)
  | wakeupThread u =>
    cases hstep
    have hne : e.thread ≠ u := fun heq => hc.1 (heq ▸ rfl)
    unfold wakeupThread
    split_ifs
    · exact (List.mem_eraseP_of_neg (by simpa using hne)).mpr he
    · exact he
  | manageSleepingThreads =>
    cases hstep
    exact mem_manageSleepingThreads hs he (hc.2 rfl)
  | clock ticks =>
    dsimp only [sleepStep] at hstep
    split_ifs at hstep
    cases hstep
    exact he

theorem AsleepUntil.run {calls : List SleepCall} (h : s.AsleepUntil t tick)
    (hcalls : Along sleepStep (WaitsUntil t tick) s calls)
    (hrun : run sleepStep s calls = some s') : s'.AsleepUntil t tick :=
  run_invariant (fun _ _ _ hc hstep ha => AsleepUntil.step ha hc hstep) hcalls hrun h

/-- The switch leaves the queue of sleeping threads as it is. -/
theorem AsleepUntil.switchTask (h : s.AsleepUntil t tick) (hswitch : s.switchTask = some s') :
    s'.AsleepUntil t tick := by
  obtain ⟨hs, hentry⟩ := h
  unfold Sched.switchTask at hswitch
  split_ifs at hswitch
  · cases hswitch
    exact ⟨hs, hentry⟩
  · split at hswitch
    · rename_i u _
      cases hswitch
      split_ifs with hfinal
      · refine ⟨⟨hs.sorted, hs.nodup, fun v => (hs.mem_listed v).trans ?_⟩, hentry⟩
        show s.execState v = .sleeping ↔ Function.update s.execState u .running v = .sleeping
        by_cases hv : v = u
        · rw [hv, Function.update_self, hfinal]
          decide
        · rw [Function.update_of_ne hv]
      · exact ⟨⟨hs.sorted, hs.nodup, hs.mem_listed⟩, hentry⟩
    · cases hswitch

end Sched

theorem msToTicks32_of_lt {p : ℕ} (h : 100 * p < 2 ^ 32) : msToTicks32 p = p / 10 := by
  unfold msToTicks32 desiredStandardFreq
  rw [Nat.mod_eq_of_lt (by omega)]
  omega

theorem sleepsFor {p : ℕ} (hp : 10 ≤ p) (h : 100 * p < 2 ^ 32) : SleepsFor (p / 10) p := by
  intro s s₁ hs hawake hticks hsleep calls s₂ hrun hcalls
  have hpos : p / 10 ≠ 0 := by omega
  have hadded : (s.addSleepingThread s.currentThread (p / 10)).AsleepUntil s.currentThread
      (s.ticks + p / 10) := by
    refine ⟨hs.addSleepingThread _ _, ?_⟩
    rw [Sched.addSleepingThread, if_neg hawake]
    refine ⟨_, (Scheduler.perm_insertSleepingThread _ _).mem_iff.mpr List.mem_cons_self, rfl, ?_⟩
    show s.ticks + min (2 ^ 64 - 1 - s.ticks) (p / 10) = s.ticks + p / 10
    omega
  simp only [Sched.sysMssleep, msToTicks32_of_lt h, if_neg hpos] at hsleep
  have hasleep := (hadded.switchTask hsleep).run hcalls hrun
  exact ⟨hasleep.sleeping, hasleep.wakes⟩

/-- A callback that is alone in the list is queued too early. -/
theorem not_firesEvery {period p : ℕ} (h : max (msToTicks32 p) 1 < period) :
    ¬ FiresEvery period p := by
  intro hfires
  let q := max (msToTicks32 p) 1
  let events : List (TimerEvent Unit) := List.replicate (q - 1) .tick
  have hpos : 1 ≤ q := le_max_right _ _
  have hticks : events.count .tick + 1 = q := by
    rw [List.count_replicate_self]
    exact Nat.sub_add_cancel hpos
  have hcount : events.count (.unregister ()) ≤ 0 := by
    rw [List.count_replicate]
    rfl
  have hfirst : ∀ before : List (TimerCallback Unit),
      (registrations before ()).length + events.count (.unregister ()) = 0 → before = [] := by
    intro before hlen
    have hnil := List.length_eq_zero_iff.mp (Nat.eq_zero_of_add_eq_zero hlen).1
    exact List.eq_nil_iff_forall_not_mem.mpr fun cb hcb => registrations_eq_nil_iff.mp hnil cb hcb rfl
  obtain ⟨before, cb, after, heq, -, hlen, hwork, -⟩ := hfires Unit [] () events hcount
  obtain ⟨before', cb', after', heq', -, hlen', hwork', -⟩ := firesEvery p Unit [] () events hcount
  obtain rfl := hfirst before hlen
  obtain rfl := hfirst before' hlen'
  obtain ⟨rfl, rfl⟩ := List.cons.inj (heq.symm.trans heq')
  have hdvd : ¬ period ∣ q := Nat.not_dvd_of_pos_of_lt hpos h
  rw [hwork', hticks, if_neg hdvd, if_pos (dvd_refl q)] at hwork
  exact List.cons_ne_nil _ _ (List.append_cancel_right hwork)

/-- Periods are honoured exactly as long as they can be multiplied by the frequency in 32 bits. -/
theorem honoursPeriod_iff {p : ℕ} (hp : 10 ≤ p) (hp' : p < 2 ^ 32) :
    HonoursPeriod p ↔ 100 * p < 2 ^ 32 := by
  constructor
  · intro hhonours
    by_contra h
    refine not_firesEvery ?_ hhonours.1
    unfold msToTicks32 desiredStandardFreq
    omega
  · intro h
    refine ⟨?_, sleepsFor hp h⟩
    have hfires := firesEvery p
    rwa [msToTicks32_of_lt h, max_eq_left (by omega)] at hfires

/-- One second. -/
theorem honoursPeriod_second : HonoursPeriod 1000 :=
  (honoursPeriod_iff (by decide) (by decide)).mpr (by decide)

/-- 42949673 ms are a little under 12 hours, and no tick at all in 32 bits. -/
theorem not_honoursPeriod_halfDay : ¬ HonoursPeriod 42949673 :=
  fun h => not_firesEvery (by decide) h.1

end BrickOS.Processes
