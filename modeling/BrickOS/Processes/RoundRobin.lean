import BrickOS.Processes.Candidates

/-! Turns are taken in the order of the queue: a thread that stays able to run is not starved. A new
thread joins at the end of the queue, which may be in front of a thread that waits for its turn. -/
namespace BrickOS.Processes
open BrickOS.Lib

def SchedCall.isSwitch : SchedCall → Bool
  | .switchTask => true
  | _ => false

def SchedCall.isEnqueue : SchedCall → Bool
  | .enqueueThread _ => true
  | _ => false

theorem idxOf_le_of_sublist {l l' : List ℕ} {t : ℕ} (h : l.Sublist l') (hnodup : l'.Nodup)
    (ht : t ∈ l) : l.idxOf t ≤ l'.idxOf t := by
  induction h with
  | slnil => cases ht
  | cons a hsub ih =>
    obtain ⟨ha, hnodup⟩ := List.nodup_cons.mp hnodup
    have hne : a ≠ t := fun heq => ha (heq ▸ hsub.subset ht)
    rw [List.idxOf_cons_ne _ hne]
    exact (ih hnodup ht).trans (Nat.le_succ _)
  | cons_cons a hsub ih =>
    by_cases heq : a = t
    · rw [List.idxOf_cons_eq _ heq]
      exact Nat.zero_le _
    · rw [List.idxOf_cons_ne _ heq, List.idxOf_cons_ne _ heq]
      exact Nat.succ_le_succ (ih (List.nodup_cons.mp hnodup).2
        ((List.mem_cons.mp ht).resolve_left (Ne.symm heq)))

/-- The cycle that starts behind an element of another one. -/
theorem rotate_idxOf {q a b : List ℕ} {v m : ℕ} (hq : q.Nodup) (h : q.rotate m = a ++ v :: b) :
    q.rotate (q.idxOf v + 1) = b ++ (a ++ [v]) := by
  have hlength : (q.rotate m).length = a.length + (b.length + 1) := by
    rw [h, List.length_append, List.length_cons]
  rw [List.length_rotate] at hlength
  have hv : (q.rotate m)[a.length]? = some v := by rw [h]; simp
  rw [List.getElem?_rotate (by omega), List.getElem?_eq_getElem (Nat.mod_lt _ (by omega))] at hv
  have hidx : q.idxOf v = (a.length + m) % q.length := by
    rw [← Option.some.inj hv, hq.idxOf_getElem]
  calc q.rotate (q.idxOf v + 1)
      = (q.rotate m).rotate (a ++ [v]).length := by
        rw [hidx, ← List.rotate_rotate, List.rotate_mod, List.rotate_rotate, List.rotate_rotate]
        congr 1
        simp
        omega
    _ = b ++ (a ++ [v]) := by
        rw [h, ← List.singleton_append, ← List.append_assoc, List.rotate_append_length_eq]

namespace Sched

/-- How many threads may have their turn before the thread has it. -/
def distance (s : Sched) (t : ℕ) : ℕ := s.cycle.idxOf t

section
variable {s s' : Sched} {t : ℕ}

theorem cycle_eq {l r : List ℕ} (hq : s.tQueue = l ++ s.currentThread :: r)
    (hl : s.currentThread ∉ l) : s.cycle = r ++ (l ++ [s.currentThread]) := by
  have hidx : s.tQueue.idxOf s.currentThread + 1 = (l ++ [s.currentThread]).length := by
    rw [hq, List.idxOf_append_of_notMem hl, List.idxOf_cons_self]
    simp
  rw [cycle, hidx, hq, ← List.singleton_append, ← List.append_assoc, List.rotate_append_length_eq]

theorem Queued.split (hs : s.Queued) : ∃ l r, s.tQueue = l ++ s.currentThread :: r ∧
    s.currentThread ∉ l ∧ s.currentThread ∉ r := by
  obtain ⟨l, r, hq⟩ := List.append_of_mem hs.current
  have hnodup := hq ▸ hs.nodup
  have hr := (List.nodup_cons.mp (List.nodup_append.mp hnodup).2.1).1
  have hl : s.currentThread ∉ l := fun h =>
    (List.nodup_append.mp hnodup).2.2 _ h _ List.mem_cons_self rfl
  exact ⟨l, r, hq, hl, hr⟩

theorem Queued.nodup_cycle (hs : s.Queued) : s.cycle.Nodup := List.nodup_rotate.mpr hs.nodup

theorem distance_congr (hqueue : s'.tQueue = s.tQueue)
    (hcurrent : s'.currentThread = s.currentThread) : s'.distance t = s.distance t := by
  rw [distance, cycle, hqueue, hcurrent, distance, cycle]

theorem Queued.distance_enqueue (hs : s.Queued) {u : ℕ} (hqueue : s'.tQueue = s.tQueue ++ [u])
    (hcurrent : s'.currentThread = s.currentThread) : s'.distance t ≤ s.distance t + 1 := by
  obtain ⟨l, r, hq, hl, -⟩ := hs.split
  have hq' : s'.tQueue = l ++ s'.currentThread :: (r ++ [u]) := by
    rw [hqueue, hq, hcurrent, List.append_assoc, List.cons_append]
  rw [distance, distance, cycle_eq hq hl, cycle_eq hq' (hcurrent ▸ hl), hcurrent, List.append_assoc]
  by_cases hr : t ∈ r
  · rw [List.idxOf_append_of_mem hr, List.idxOf_append_of_mem hr]
    exact Nat.le_succ _
  · rw [List.idxOf_append_of_notMem hr, List.idxOf_append_of_notMem hr, List.singleton_append,
      Nat.add_assoc]
    by_cases hu : u = t
    · rw [List.idxOf_cons_eq _ hu]
      omega
    · rw [List.idxOf_cons_ne _ hu]

theorem Queued.distance_remove (hs : s.Queued) {u : ℕ} (ht : t ∈ s.tQueue) (htu : t ≠ u)
    (hu : u ≠ s.currentThread) (hqueue : s'.tQueue = s.tQueue.erase u)
    (hcurrent : s'.currentThread = s.currentThread) : s'.distance t ≤ s.distance t := by
  obtain ⟨l, r, hq, hl, -⟩ := hs.split
  obtain ⟨l', r', hq', hl', hr'⟩ : ∃ l' r', s'.tQueue = l' ++ s'.currentThread :: r' ∧
      l'.Sublist l ∧ r'.Sublist r := by
    rw [hqueue, hq, hcurrent]
    by_cases hul : u ∈ l
    · exact ⟨l.erase u, r, List.erase_append_left _ hul, List.erase_sublist, .refl r⟩
    · refine ⟨l, r.erase u, ?_, .refl l, List.erase_sublist⟩
      rw [List.erase_append_right _ hul, List.erase_cons_tail (by simpa using hu.symm)]
  have hcycle := cycle_eq hq' (hcurrent ▸ fun h => hl (hl'.subset h))
  refine idxOf_le_of_sublist ?_ hs.nodup_cycle ?_
  · rw [hcycle, cycle_eq hq hl, hcurrent]
    exact hr'.append (hl'.append_right _)
  · rw [mem_cycle, hqueue]
    exact (List.mem_erase_of_ne htu).mpr ht

/-- A switch gives the turn to the thread, or to one that is in front of it. -/
theorem Queued.distance_switch (hs : s.Queued) (ht : t ∈ s.tQueue) (hsched : s.Schedulable t)
    (h : s.switchTask = some s') :
    s'.tQueue = s.tQueue ∧ (s'.currentThread = t ∨ s'.distance t < s.distance t) := by
  have hlong : 3 ≤ s.tQueue.length := by
    by_contra hshort
    match hq : s.tQueue with
    | [] => simp [hq] at ht
    | [a] => simp_all [Schedulable]
    | [a, b] => simp [Sched.switchTask, candidateLoop, hq] at h
    | a :: b :: c :: l => simp [hq] at hshort
  have hloop := candidateLoop_eq hlong hs.nodup (List.getElem?_idxOf hs.current) le_rfl
  rw [List.take_of_length_le (by rw [List.length_rotate])] at hloop
  change _ = Option.map _ (s.cycle.find? _) at hloop
  rw [Sched.switchTask, if_neg (by omega), hloop] at h
  cases hfind : s.cycle.find? fun u => s.Schedulable u with
  | none => simp [hfind] at h
  | some v =>
    obtain ⟨-, a, b, hcycle, ha⟩ := List.find?_eq_some_iff_append.mp hfind
    have hqueue : s'.tQueue = s.tQueue ∧ s'.currentThread = v := by
      rw [hfind] at h
      obtain rfl := Option.some.inj h
      split_ifs <;> exact ⟨rfl, rfl⟩
    obtain ⟨hqueue, rfl⟩ := hqueue
    refine ⟨hqueue, or_iff_not_imp_left.mpr fun hne => ?_⟩
    have hta : t ∉ a := fun hta => by simpa [hsched] using ha t hta
    have htb : t ∈ b := by
      have hmem : t ∈ a ++ s'.currentThread :: b := hcycle ▸ mem_cycle.mpr ht
      simpa [hta, Ne.symm hne] using hmem
    have hcycle' : s'.cycle = b ++ (a ++ [s'.currentThread]) := by
      rw [cycle, hqueue]
      exact rotate_idxOf hs.nodup hcycle
    rw [distance, distance, hcycle', hcycle, List.idxOf_append_of_mem htb,
      List.idxOf_append_of_notMem hta, List.idxOf_cons_ne _ hne]
    omega

/-- What a step does while the thread can be scheduled. -/
theorem Queued.distance_step (hs : s.Queued) (ht : t ∈ s.tQueue) (hsched : s.Schedulable t)
    {c : SchedCall} (h : s.step c = some s') :
    t ∈ s'.tQueue ∧ (c = .switchTask ∧ s'.currentThread = t ∨
      s'.distance t + [c].countP SchedCall.isSwitch ≤
        s.distance t + [c].countP SchedCall.isEnqueue) := by
  have hsame : s'.tQueue = s.tQueue ∧ s'.currentThread = s.currentThread →
      t ∈ s'.tQueue ∧ s'.distance t ≤ s.distance t :=
    fun ⟨hqueue, hcurrent⟩ => ⟨hqueue ▸ ht, (distance_congr hqueue hcurrent).le⟩
  cases c with
  | switchTask =>
    obtain ⟨hqueue, hcurrent | hlt⟩ := hs.distance_switch ht hsched h
    · exact ⟨hqueue ▸ ht, Or.inl ⟨rfl, hcurrent⟩⟩
    · exact ⟨hqueue ▸ ht, Or.inr hlt⟩
  | enqueueThread u =>
    dsimp only [Sched.step] at h
    split_ifs at h
    cases h
    exact ⟨List.mem_append_left _ ht, Or.inr (hs.distance_enqueue rfl rfl)⟩
  | removeThread u =>
    dsimp only [Sched.step] at h
    split_ifs at h with hu
    cases h
    have htu : t ≠ u := by
      rintro rfl
      rcases hsched.1 with hstate | hstate <;> simp [hu.1] at hstate
    exact ⟨(List.mem_erase_of_ne htu).mpr ht,
      Or.inr (hs.distance_remove ht htu hu.2.1 rfl rfl)⟩
  | sleep n =>
    cases h
    exact (hsame (addSleepingThread_queue s _ n)).imp_right Or.inr
  | wakeupThread u =>
    cases h
    exact (hsame (wakeupThread_queue s u)).imp_right Or.inr
  | manageSleepingThreads =>
    cases h
    exact (hsame (manageSleepingThreads_queue s)).imp_right Or.inr
  | clock _ | finalize _ | exit _ =>
    dsimp only [Sched.step] at h
    split_ifs at h
    cases h
    exact (hsame ⟨rfl, rfl⟩).imp_right Or.inr

end

/-- A thread that can be scheduled throughout a run has its turn in it, as soon as there were more
switches than threads in front of it and threads that came later. -/
theorem not_starved {root t : ℕ} {made calls : List SchedCall} {s s' : Sched}
    (hmade : run step (start root) made = some s) (ht : t ∈ s.tQueue)
    (hrun : run step s calls = some s') (hsched : Along step (fun u _ => u.Schedulable t) s calls)
    (hturns : s.distance t + calls.countP SchedCall.isEnqueue < calls.countP SchedCall.isSwitch) :
    ∃ before after u, calls = before ++ .switchTask :: after ∧
      run step s (before ++ [.switchTask]) = some u ∧ u.currentThread = t := by
  have hs := queued_of_run hmade
  clear hmade
  induction calls generalizing s with
  | nil => cases hturns
  | cons c calls ih =>
    obtain ⟨u, hu, hrun⟩ := Option.bind_eq_some_iff.mp hrun
    obtain ⟨htu, ⟨rfl, hcurrent⟩ | hdist⟩ := hs.distance_step ht hsched.1 hu
    · exact ⟨[], calls, u, rfl, by simp [run, hu], hcurrent⟩
    · -- the bound goes down with every switch and up with every new thread
      rw [← List.singleton_append, List.countP_append, List.countP_append] at hturns
      obtain ⟨before, after, v, rfl, hv, hcurrent⟩ :=
        ih htu hrun (hsched.2 u hu) (by omega) (hs.step hu)
      exact ⟨c :: before, after, v, rfl, by simpa [run, hu] using hv, hcurrent⟩

/-- The first worker starts a process and goes to sleep while the second one waits. -/
def workerWaits : List SchedCall :=
  [.enqueueThread 3, .finalize 3, .sleep 5, .switchTask, .switchTask]

theorem not_starved_worker : ∃ s, run step (start 0) workersRun = some s ∧ s.distance 2 = 0 ∧
    ∃ before after u, workerWaits = before ++ .switchTask :: after ∧
      run step s (before ++ [.switchTask]) = some u ∧ u.currentThread = 2 := by
  obtain ⟨s, hs, hdistance, ht, hrun, hsched⟩ : ∃ s ∈ run step (start 0) workersRun,
      s.distance 2 = 0 ∧ 2 ∈ s.tQueue ∧ (run step s workerWaits).isSome ∧
        Along step (fun u _ => u.Schedulable 2) s workerWaits := by decide
  obtain ⟨s', hs'⟩ := Option.isSome_iff_exists.mp hrun
  have hturns : s.distance 2 + workerWaits.countP SchedCall.isEnqueue <
      workerWaits.countP SchedCall.isSwitch := by
    rw [hdistance]
    decide
  exact ⟨s, hs, hdistance, not_starved hs ht hs' hsched hturns⟩

end Sched

end BrickOS.Processes
