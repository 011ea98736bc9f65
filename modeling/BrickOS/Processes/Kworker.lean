import BrickOS.Lib.Run
import BrickOS.Processes.Scheduler
import Mathlib.Algebra.BigOperators.Group.Finset.Basic
import Mathlib.Algebra.Order.BigOperators.Group.Finset

/-! The kernel workers and their two queues. A step is one section of a worker's loop or of a
call of `enqueue_kernel_work` that no interrupt divides. -/
namespace BrickOS.Processes
open BrickOS.Lib

inductive WorkerPc
  | look
  | execute (work : ℕ)
  | recheck
  | markSleeping
  | insertSleeping
  | register
  | yield
  deriving DecidableEq, Repr

def WorkerPc.work : WorkerPc → Option ℕ
  | .execute work => some work
  | _ => none

def WorkerPc.Fits (pc : WorkerPc) (exec : ExecState) (listed : Prop) : Prop :=
  match pc with
  | .insertSleeping => exec = .sleeping ∧ ¬ listed
  | .register | .yield => exec = .sleeping ↔ listed
  | _ => exec = .running ∧ ¬ listed

def WorkerPc.Attentive (pc : WorkerPc) (exec : ExecState) : Prop :=
  match pc with
  | .look | .execute _ | .recheck => True
  | .markSleeping | .insertSleeping => False
  | .register | .yield => exec = .running

instance (pc : WorkerPc) (exec : ExecState) : Decidable (pc.Attentive exec) :=
  match pc with
  | .look | .execute _ | .recheck => inferInstanceAs (Decidable True)
  | .markSleeping | .insertSleeping => inferInstanceAs (Decidable False)
  | .register | .yield => inferInstanceAs (Decidable (exec = .running))

/-- How far the worker is from sleeping in its `yield`. The second look at the queue counts for
more while there is work, as it leads back to the first. -/
def WorkerPc.rank (pc : WorkerPc) (exec : ExecState) (idle : Prop) [Decidable idle] : ℕ :=
  match pc with
  | .yield => if exec = .sleeping then 0 else 6
  | .register => if exec = .sleeping then 1 else 7
  | .insertSleeping => 2
  | .markSleeping => 3
  | .recheck => if idle then 4 else 6
  | .look => 5
  | .execute _ => 6

theorem WorkerPc.rank_le (pc : WorkerPc) (exec : ExecState) {idle idle' : Prop}
    [Decidable idle] [Decidable idle'] (h : idle → idle') :
    pc.rank exec idle' ≤ pc.rank exec idle := by
  cases pc with
  | recheck =>
    by_cases hidle : idle
    · simp [rank, hidle, h hidle]
    · by_cases hidle' : idle' <;> simp [rank, hidle, hidle']
  | _ => exact le_rfl

/-- The queues and the workers, which are the threads below `nWorkers`. Items are numbered as
they are enqueued. Of the calls of `enqueue_kernel_work` in progress, `choosing` have queued
their item and not yet looked for a worker, and those in `waking` are about to wake one. -/
structure Kworkers where
  nWorkers : ℕ
  workQueue : List ℕ
  workerQueue : List ℕ
  sched : Scheduler
  pc : ℕ → WorkerPc
  choosing : ℕ
  waking : List ℕ
  enqueued : ℕ
  executed : List ℕ

inductive KworkStep
  | enqueue
  | choose
  | wake (thread : ℕ)
  | work (worker : ℕ)
  deriving DecidableEq

namespace Kworkers

/-- After `init_kworkers` and `n` calls of `add_kworker`: the workers are registered before
they have run. -/
def init (n ticks : ℕ) (waitState : ℕ → WaitState) : Kworkers where
  nWorkers := n
  workQueue := []
  workerQueue := List.range n
  sched := Scheduler.start ticks waitState
  pc := fun _ => .look
  choosing := 0
  waking := []
  enqueued := 0
  executed := []

def goto (k : Kworkers) (worker : ℕ) (pc : WorkerPc) : Kworkers :=
  { k with pc := Function.update k.pc worker pc }

/-- The next section of `kwork`. A worker marked sleeping goes on until its `yield` unless it is
interrupted; there it waits to be woken. -/
def kwork (k : Kworkers) (worker : ℕ) : Option Kworkers :=
  match k.pc worker with
  | .look =>
    match k.workQueue with
    | [] => some (k.goto worker .recheck)
    | work :: rest => some (goto { k with workQueue := rest } worker (.execute work))
  | .execute work => some (goto { k with executed := k.executed ++ [work] } worker .look)
  | .recheck => some (k.goto worker (if k.workQueue = [] then .markSleeping else .look))
  | .markSleeping =>
    if k.sched.execState worker = .sleeping then some (k.goto worker .register)
    else some (goto { k with sched := k.sched.markSleeping worker } worker .insertSleeping)
  | .insertSleeping =>
    some (goto { k with sched := k.sched.insertSleeping worker threadEternalSleep } worker
      .register)
  | .register => some (goto { k with workerQueue := k.workerQueue ++ [worker] } worker .yield)
  | .yield =>
    if k.sched.execState worker = .running then some (k.goto worker .look) else none

def chooseWorker (k : Kworkers) : Kworkers :=
  match k.workerQueue with
  | [] => { k with choosing := k.choosing - 1 }
  | t :: rest =>
    { k with choosing := k.choosing - 1, workerQueue := rest, waking := k.waking ++ [t] }

def step (k : Kworkers) : KworkStep → Option Kworkers
  | .enqueue =>
    some { k with
      workQueue := k.workQueue ++ [k.enqueued]
      enqueued := k.enqueued + 1
      choosing := k.choosing + 1 }
  | .choose => if k.choosing = 0 then none else some k.chooseWorker
  | .wake t =>
    if t ∈ k.waking then
      some { k with waking := k.waking.erase t, sched := k.sched.wakeupThread t }
    else none
  | .work worker => if worker < k.nWorkers then k.kwork worker else none

inductive Move (k : Kworkers) (w : ℕ) : WorkerPc → Prop
  | stop (hpc : k.pc w = .look) (hwork : k.workQueue = []) : Move k w .recheck
  | again (hpc : k.pc w = .recheck) (hwork : k.workQueue ≠ []) : Move k w .look
  | leave (hpc : k.pc w = .recheck) (hwork : k.workQueue = []) : Move k w .markSleeping
  | already (hpc : k.pc w = .markSleeping) (hasleep : k.sched.execState w = .sleeping) :
      Move k w .register
  | resume (hpc : k.pc w = .yield) (hrun : k.sched.execState w = .running) : Move k w .look

def Wakeable (k : Kworkers) (t : ℕ) : Prop :=
  k.sched.execState t = .sleeping ∧ t ∈ k.sched.listed

inductive Transition (k : Kworkers) : KworkStep → Kworkers → Prop
  | enqueue : Transition k .enqueue
      { k with
        workQueue := k.workQueue ++ [k.enqueued]
        enqueued := k.enqueued + 1
        choosing := k.choosing + 1 }
  | chooseNone (hchoosing : 0 < k.choosing) (hqueue : k.workerQueue = []) :
      Transition k .choose { k with choosing := k.choosing - 1 }
  | chooseHead {t : ℕ} {rest : List ℕ} (hchoosing : 0 < k.choosing)
      (hqueue : k.workerQueue = t :: rest) :
      Transition k .choose
        { k with choosing := k.choosing - 1, workerQueue := rest, waking := k.waking ++ [t] }
  | wakeUp {t : ℕ} (ht : t ∈ k.waking) (hwake : k.Wakeable t) :
      Transition k (.wake t)
        { k with waking := k.waking.erase t, sched := k.sched.wakeupThread t }
  | wakeNobody {t : ℕ} (ht : t ∈ k.waking) (hwake : ¬ k.Wakeable t) :
      Transition k (.wake t) { k with waking := k.waking.erase t }
  | move {w : ℕ} {p : WorkerPc} (hw : w < k.nWorkers) (hmove : k.Move w p) :
      Transition k (.work w) (k.goto w p)
  | take {w i : ℕ} {rest : List ℕ} (hw : w < k.nWorkers) (hpc : k.pc w = .look)
      (hwork : k.workQueue = i :: rest) :
      Transition k (.work w) (goto { k with workQueue := rest } w (.execute i))
  | finish {w i : ℕ} (hw : w < k.nWorkers) (hpc : k.pc w = .execute i) :
      Transition k (.work w) (goto { k with executed := k.executed ++ [i] } w .look)
  | mark {w : ℕ} (hw : w < k.nWorkers) (hpc : k.pc w = .markSleeping) :
      Transition k (.work w)
        (goto { k with sched := k.sched.markSleeping w } w .insertSleeping)
  | insert {w : ℕ} (hw : w < k.nWorkers) (hpc : k.pc w = .insertSleeping) :
      Transition k (.work w)
        (goto { k with sched := k.sched.insertSleeping w threadEternalSleep } w .register)
  | register {w : ℕ} (hw : w < k.nWorkers) (hpc : k.pc w = .register) :
      Transition k (.work w)
        (goto { k with workerQueue := k.workerQueue ++ [w] } w .yield)

variable {k k' : Kworkers}

theorem transition_of_kwork {w : ℕ} (hw : w < k.nWorkers) (h : k.kwork w = some k') :
    Transition k (.work w) k' := by
  unfold kwork at h
  split at h
  · rename_i hpc
    split at h
    · rename_i hwork
      obtain rfl := Option.some.inj h
      exact .move hw (.stop hpc hwork)
    · rename_i hwork
      obtain rfl := Option.some.inj h
      exact .take hw hpc hwork
  · rename_i hpc
    obtain rfl := Option.some.inj h
    exact .finish hw hpc
  · rename_i hpc
    obtain rfl := Option.some.inj h
    split
    · rename_i hwork
      exact .move hw (.leave hpc hwork)
    · rename_i hwork
      exact .move hw (.again hpc hwork)
  · rename_i hpc
    split at h
    · rename_i hasleep
      obtain rfl := Option.some.inj h
      exact .move hw (.already hpc hasleep)
    · obtain rfl := Option.some.inj h
      exact .mark hw hpc
  · rename_i hpc
    obtain rfl := Option.some.inj h
    exact .insert hw hpc
  · rename_i hpc
    obtain rfl := Option.some.inj h
    exact .register hw hpc
  · rename_i hpc
    split_ifs at h with hrun
    obtain rfl := Option.some.inj h
    exact .move hw (.resume hpc hrun)

theorem transition_of_step {a : KworkStep} (h : k.step a = some k') : Transition k a k' := by
  cases a with
  | enqueue =>
    obtain rfl := Option.some.inj h
    exact .enqueue
  | choose =>
    simp only [step] at h
    split_ifs at h with hchoosing
    obtain rfl := Option.some.inj h
    unfold chooseWorker
    split
    · rename_i hqueue
      exact .chooseNone (Nat.pos_of_ne_zero hchoosing) hqueue
    · rename_i hqueue
      exact .chooseHead (Nat.pos_of_ne_zero hchoosing) hqueue
  | wake t =>
    simp only [step] at h
    split_ifs at h with ht
    obtain rfl := Option.some.inj h
    by_cases hwake : k.Wakeable t
    · exact .wakeUp ht hwake
    · rw [Scheduler.wakeupThread_of_not hwake]
      exact .wakeNobody ht hwake
  | work w =>
    simp only [step] at h
    split_ifs at h with hw
    exact transition_of_kwork hw h

structure Inv (k : Kworkers) : Prop where
  nodup : k.sched.listed.Nodup
  fits : ∀ t, (k.pc t).Fits (k.sched.execState t) (t ∈ k.sched.listed)
  lt : ∀ t, k.pc t ≠ .look → t < k.nWorkers

theorem init_inv (n ticks : ℕ) (waitState : ℕ → WaitState) : (init n ticks waitState).Inv where
  nodup := List.nodup_nil
  fits := fun t => ⟨rfl, by simp [init, Scheduler.start, Scheduler.listed]⟩
  lt := fun t h => absurd rfl h

/-- A worker that moves to a place that fits leaves the others as they are. -/
theorem Inv.goto (hk : k.Inv) {w : ℕ} {p : WorkerPc} (hw : w < k.nWorkers) {s : Scheduler}
    (hnodup : s.listed.Nodup) (hp : p.Fits (s.execState w) (w ∈ s.listed))
    (hother : ∀ t, t ≠ w → s.execState t = k.sched.execState t ∧
      (t ∈ s.listed ↔ t ∈ k.sched.listed))
    (hn : k'.nWorkers = k.nWorkers) (hs : k'.sched = s)
    (hpc : k'.pc = Function.update k.pc w p) : k'.Inv := by
  constructor
  · exact hs ▸ hnodup
  · intro t
    rw [hs, hpc]
    by_cases htw : t = w
    · subst htw
      rw [Function.update_self]
      exact hp
    · obtain ⟨hexec, hlisted⟩ := hother t htw
      rw [Function.update_of_ne htw, hexec, propext hlisted]
      exact hk.fits t
  · intro t ht
    rw [hpc] at ht
    rw [hn]
    by_cases htw : t = w
    · exact htw ▸ hw
    · rw [Function.update_of_ne htw] at ht
      exact hk.lt t ht

theorem Inv.goto_same (hk : k.Inv) {w : ℕ} {p : WorkerPc} (hw : w < k.nWorkers)
    (hp : p.Fits (k.sched.execState w) (w ∈ k.sched.listed))
    (hn : k'.nWorkers = k.nWorkers) (hs : k'.sched = k.sched)
    (hpc : k'.pc = Function.update k.pc w p) : k'.Inv :=
  hk.goto hw hk.nodup hp (fun _ _ => ⟨rfl, Iff.rfl⟩) hn hs hpc

theorem Move.fits {w : ℕ} {p : WorkerPc} (hmove : k.Move w p) (hk : k.Inv) :
    p.Fits (k.sched.execState w) (w ∈ k.sched.listed) := by
  have hfits := hk.fits w
  cases hmove with
  | stop hpc _ => simpa [hpc, WorkerPc.Fits] using hfits
  | again hpc _ => simpa [hpc, WorkerPc.Fits] using hfits
  | leave hpc _ => simpa [hpc, WorkerPc.Fits] using hfits
  | already hpc hasleep => simp [hpc, WorkerPc.Fits, hasleep] at hfits
  | resume hpc hrun =>
    simp only [hpc, WorkerPc.Fits, hrun] at hfits
    simpa [WorkerPc.Fits, hrun] using hfits

theorem step_inv {a : KworkStep} (h : k.step a = some k') (hk : k.Inv) : k'.Inv := by
  cases transition_of_step h with
  | enqueue => exact ⟨hk.nodup, hk.fits, hk.lt⟩
  | chooseNone _ _ => exact ⟨hk.nodup, hk.fits, hk.lt⟩
  | chooseHead _ _ => exact ⟨hk.nodup, hk.fits, hk.lt⟩
  | wakeNobody _ _ => exact ⟨hk.nodup, hk.fits, hk.lt⟩
  | @wakeUp t _ hwake =>
    have hlisted := Scheduler.listed_wakeupThread hwake
    have hexec := Scheduler.execState_wakeupThread hwake
    constructor
    · exact hlisted ▸ hk.nodup.erase t
    · intro u
      have hfits := hk.fits u
      simp only [hlisted, hexec, hk.nodup.mem_erase_iff]
      by_cases hut : u = t
      · subst hut
        have hmem := hwake.2
        have hsleep := hwake.1
        cases hpc : k.pc u <;> simp_all [WorkerPc.Fits]
      · simpa [hut] using hfits
    · exact hk.lt
  | @move w p hw hmove => exact hk.goto_same hw (hmove.fits hk) rfl rfl rfl
  | @take w i rest hw hpc _ =>
    have hfits := hk.fits w
    rw [hpc] at hfits
    exact hk.goto_same (p := .execute i) hw hfits rfl rfl rfl
  | @finish w i hw hpc =>
    have hfits := hk.fits w
    rw [hpc] at hfits
    exact hk.goto_same (p := .look) hw hfits rfl rfl rfl
  | @mark w hw hpc =>
    have hfits := hk.fits w
    rw [hpc] at hfits
    refine hk.goto (s := k.sched.markSleeping w) hw hk.nodup ?_ (fun t ht => ⟨?_, Iff.rfl⟩)
      rfl rfl rfl
    · exact ⟨Function.update_self .., hfits.2⟩
    · exact Function.update_of_ne ht ..
  | @insert w hw hpc =>
    have hfits := hk.fits w
    rw [hpc] at hfits
    have hperm := Scheduler.listed_insertSleeping k.sched w threadEternalSleep
    refine hk.goto (s := k.sched.insertSleeping w threadEternalSleep) hw ?_ ?_
      (fun t ht => ⟨rfl, ?_⟩) rfl rfl rfl
    · exact hperm.nodup_iff.mpr (List.nodup_cons.mpr ⟨hfits.2, hk.nodup⟩)
    · have hmem : w ∈ (k.sched.insertSleeping w threadEternalSleep).listed :=
        hperm.mem_iff.mpr List.mem_cons_self
      exact ⟨fun _ => hmem, fun _ => hfits.1⟩
    · rw [hperm.mem_iff, List.mem_cons]
      exact ⟨fun h => h.resolve_left ht, Or.inr⟩
  | @register w hw hpc =>
    have hfits := hk.fits w
    rw [hpc] at hfits
    exact hk.goto_same (p := .yield) hw hfits rfl rfl rfl

section Items

def inHand (k : Kworkers) : List ℕ :=
  (List.range k.nWorkers).filterMap fun w => (k.pc w).work

def Conserved (k : Kworkers) : Prop :=
  (List.range k.enqueued).Perm (k.executed ++ (k.inHand ++ k.workQueue))

theorem inHand_goto {w : ℕ} {p : WorkerPc} (hw : w < k.nWorkers)
    (hn : k'.nWorkers = k.nWorkers) (hpc : k'.pc = Function.update k.pc w p) :
    k'.inHand.Perm (p.work.toList ++
      ((List.range k.nWorkers).erase w).filterMap fun v => (k.pc v).work) := by
  have hrange : (List.range k.nWorkers).Perm (w :: (List.range k.nWorkers).erase w) :=
    List.perm_cons_erase (List.mem_range.mpr hw)
  have hother : ∀ v ∈ (List.range k.nWorkers).erase w,
      (Function.update k.pc w p v).work = (k.pc v).work := by
    intro v hv
    rw [Function.update_of_ne (List.nodup_range.mem_erase_iff.mp hv).1]
  unfold inHand
  rw [hn, hpc]
  refine (hrange.filterMap _).trans ?_
  rw [List.filterMap_cons, Function.update_self, List.filterMap_congr hother]
  cases p.work <;> exact List.Perm.refl _

theorem Conserved.goto (hk : k.Conserved) {w : ℕ} {p : WorkerPc} (hp : p.work = (k.pc w).work)
    (hn : k'.nWorkers = k.nWorkers) (hpc : k'.pc = Function.update k.pc w p)
    (he : k'.enqueued = k.enqueued) (hx : k'.executed = k.executed)
    (hq : k'.workQueue = k.workQueue) : k'.Conserved := by
  have hsame : (fun v => (Function.update k.pc w p v).work) = fun v => (k.pc v).work := by
    funext v
    by_cases hv : v = w
    · rw [hv, Function.update_self, hp]
    · rw [Function.update_of_ne hv]
  have hhand : k'.inHand = k.inHand := by rw [inHand, hn, hpc, hsame, inHand]
  rw [Conserved, hhand, he, hx, hq]
  exact hk

theorem Move.work_eq {w : ℕ} {p : WorkerPc} (hmove : k.Move w p) : p.work = (k.pc w).work := by
  cases hmove with
  | stop hpc _ => simp [hpc, WorkerPc.work]
  | again hpc _ => simp [hpc, WorkerPc.work]
  | leave hpc _ => simp [hpc, WorkerPc.work]
  | already hpc _ => simp [hpc, WorkerPc.work]
  | resume hpc _ => simp [hpc, WorkerPc.work]

theorem init_conserved (n ticks : ℕ) (waitState : ℕ → WaitState) :
    (init n ticks waitState).Conserved := by
  have hnone : (init n ticks waitState).inHand = [] := by
    simp [inHand, init, WorkerPc.work]
  rw [Conserved, hnone]
  exact List.Perm.refl _

theorem step_conserved {a : KworkStep} (h : k.step a = some k') (hk : k.Conserved) :
    k'.Conserved := by
  cases transition_of_step h with
  | enqueue =>
    have hk' := List.Perm.append_right [k.enqueued] hk
    rw [List.append_assoc, List.append_assoc] at hk'
    rw [Conserved, List.range_succ]
    exact hk'
  | chooseNone _ _ => exact hk
  | chooseHead _ _ => exact hk
  | wakeUp _ _ => exact hk
  | wakeNobody _ _ => exact hk
  | @move w p hw hmove =>
    exact hk.goto hmove.work_eq rfl rfl rfl rfl rfl
  | @take w i rest hw hpc hwork =>
    have hbefore := inHand_goto (k := k) hw rfl (Function.update_eq_self w k.pc).symm
    have hafter : (goto { k with workQueue := rest } w (.execute i)).inHand.Perm _ :=
      inHand_goto (k := k) (p := .execute i) hw rfl rfl
    rw [hpc] at hbefore
    refine List.Perm.trans hk (List.Perm.append_left _ ?_)
    rw [hwork]
    -- the item moves from the head of the queue into the hands of the worker
    refine ((hbefore.append_right _).trans ?_).trans (hafter.append_right rest).symm
    exact List.perm_middle
  | @finish w i hw hpc =>
    have hbefore := inHand_goto (k := k) hw rfl (Function.update_eq_self w k.pc).symm
    have hafter : (goto { k with executed := k.executed ++ [i] } w .look).inHand.Perm _ :=
      inHand_goto (k := k) (p := .look) hw rfl rfl
    rw [hpc] at hbefore
    have htail : (k.inHand ++ k.workQueue).Perm
        ([i] ++ ((goto { k with executed := k.executed ++ [i] } w .look).inHand ++ k.workQueue)) :=
      (hbefore.append_right _).trans ((hafter.symm.append_right _).cons i)
    refine List.Perm.trans hk ((htail.append_left _).trans ?_)
    rw [← List.append_assoc]
    exact List.Perm.refl _
  | @mark w hw hpc =>
    exact hk.goto (p := .insertSleeping) (by rw [hpc]; rfl) rfl rfl rfl rfl rfl
  | @insert w hw hpc =>
    exact hk.goto (p := .register) (by rw [hpc]; rfl) rfl rfl rfl rfl rfl
  | @register w hw hpc =>
    exact hk.goto (p := .yield) (by rw [hpc]; rfl) rfl rfl rfl rfl rfl

end Items

section Wakeups

def Attentive (k : Kworkers) (w : ℕ) : Prop :=
  w < k.nWorkers ∧ (k.pc w).Attentive (k.sched.execState w)

/-- Queued work is going to be found: by a worker that is still going to look, or by one that a
call in progress is going to wake. -/
def Heard (k : Kworkers) : Prop :=
  (∃ w, k.Attentive w) ∨ 0 < k.choosing ∨ ∃ t ∈ k.waking, k.Wakeable t

/-- When a call looks for a worker to wake, some worker is still going to look at the work
queue, or is asleep and about to be woken, or the one it finds is asleep. -/
def FindsWorker (k : Kworkers) : KworkStep → Prop
  | .choose => k.workQueue ≠ [] → (∃ w, k.Attentive w) ∨ (∃ t ∈ k.waking, k.Wakeable t) ∨
      ∃ t ∈ k.workerQueue.head?, k.Wakeable t
  | _ => True

instance (k : Kworkers) (t : ℕ) : Decidable (k.Wakeable t) :=
  inferInstanceAs (Decidable (k.sched.execState t = .sleeping ∧ t ∈ k.sched.listed))

instance (k : Kworkers) : ∀ a, Decidable (k.FindsWorker a)
  | .choose => inferInstanceAs (Decidable (k.workQueue ≠ [] →
      (∃ w, w < k.nWorkers ∧ (k.pc w).Attentive (k.sched.execState w)) ∨
        (∃ t ∈ k.waking, k.Wakeable t) ∨ ∃ t ∈ k.workerQueue.head?, k.Wakeable t))
  | .enqueue | .wake _ | .work _ => inferInstanceAs (Decidable True)

theorem Heard.mono (hk : k.Heard) (hattentive : ∀ w, k.Attentive w → k'.Attentive w)
    (hchoosing : k.choosing ≤ k'.choosing)
    (hwaking : ∀ t ∈ k.waking, k.Wakeable t → t ∈ k'.waking ∧ k'.Wakeable t) : k'.Heard := by
  obtain ⟨w, hw⟩ | hpos | ⟨t, ht, hwake⟩ := hk
  · exact Or.inl ⟨w, hattentive w hw⟩
  · exact Or.inr (Or.inl (hpos.trans_le hchoosing))
  · exact Or.inr (Or.inr ⟨t, hwaking t ht hwake⟩)

theorem attentive_goto {w : ℕ} {p : WorkerPc} (hw : w < k.nWorkers)
    (hp : p.Attentive (k.sched.execState w)) : (k.goto w p).Attentive w := by
  refine ⟨hw, ?_⟩
  simpa [goto] using hp

theorem attentive_goto_of_ne {s : Scheduler} {w v : ℕ} {p : WorkerPc} (hv : v ≠ w)
    (hexec : s.execState v = k.sched.execState v) (hn : k'.nWorkers = k.nWorkers)
    (hs : k'.sched = s) (hpc : k'.pc = Function.update k.pc w p) (h : k.Attentive v) :
    k'.Attentive v := by
  unfold Attentive at h ⊢
  rw [hn, hs, hpc, Function.update_of_ne hv, hexec]
  exact h

theorem Wakeable.pc_eq {t : ℕ} (hwake : k.Wakeable t) (hk : k.Inv) :
    k.pc t = .register ∨ k.pc t = .yield := by
  have hfits := hk.fits t
  obtain ⟨hsleep, hlisted⟩ := hwake
  cases hpc : k.pc t <;> simp_all [WorkerPc.Fits]

theorem attentive_wakeupThread {t : ℕ} (hwake : k.Wakeable t) (hk : k.Inv) :
    Attentive { k with waking := k.waking.erase t, sched := k.sched.wakeupThread t } t := by
  have hpc := hwake.pc_eq hk
  have hexec : (k.sched.wakeupThread t).execState t = .running := by
    rw [Scheduler.execState_wakeupThread hwake, Function.update_self]
  constructor
  · apply hk.lt t
    rcases hpc with hpc | hpc <;> simp [hpc]
  · rcases hpc with hpc | hpc <;> simpa [hpc, WorkerPc.Attentive] using hexec

theorem step_heard {a : KworkStep} (ha : k.FindsWorker a) (h : k.step a = some k') (hk : k.Inv)
    (hheard : k.workQueue ≠ [] → k.Heard) : k'.workQueue ≠ [] → k'.Heard := by
  intro hwork
  cases transition_of_step h with
  | enqueue => exact Or.inr (Or.inl (Nat.succ_pos _))
  | chooseNone _ hqueue =>
    obtain hattentive | hwaking | ⟨t, ht, -⟩ := ha hwork
    · exact Or.inl hattentive
    · exact Or.inr (Or.inr hwaking)
    · simp [hqueue] at ht
  | @chooseHead t rest _ hqueue =>
    obtain hattentive | ⟨u, hu, hwake⟩ | ⟨u, hu, hwake⟩ := ha hwork
    · exact Or.inl hattentive
    · exact Or.inr (Or.inr ⟨u, List.mem_append_left _ hu, hwake⟩)
    · obtain rfl : t = u := by simpa [hqueue] using hu
      exact Or.inr (Or.inr ⟨t, by simp, hwake⟩)
  | @wakeUp t _ hwake => exact Or.inl ⟨t, attentive_wakeupThread hwake hk⟩
  | @wakeNobody t _ hwake =>
    refine (hheard hwork).mono (fun w hw => hw) le_rfl fun u hu hwakeu => ⟨?_, hwakeu⟩
    have hne : u ≠ t := fun hut => hwake (hut ▸ hwakeu)
    exact (List.mem_erase_of_ne hne).mpr hu
  | @move w p hw hmove =>
    cases hmove with
    | stop _ hempty => exact absurd hempty hwork
    | again _ _ => exact Or.inl ⟨w, attentive_goto hw trivial⟩
    | leave _ hempty => exact absurd hempty hwork
    | already hpc hasleep =>
      have hfits := hk.fits w
      simp [hpc, WorkerPc.Fits, hasleep] at hfits
    | resume _ _ => exact Or.inl ⟨w, attentive_goto hw trivial⟩
  | @take w i rest hw _ _ => exact Or.inl ⟨w, hw, by simp [goto, WorkerPc.Attentive]⟩
  | @finish w i hw _ => exact Or.inl ⟨w, hw, by simp [goto, WorkerPc.Attentive]⟩
  | @mark w hw hpc =>
    refine (hheard hwork).mono (fun v hv => ?_) le_rfl fun t ht hwake => ⟨ht, ?_, hwake.2⟩
    · have hne : v ≠ w := by
        rintro rfl
        simp [Attentive, hpc, WorkerPc.Attentive] at hv
      exact attentive_goto_of_ne (s := k.sched.markSleeping w) hne
        (Function.update_of_ne hne ..) rfl rfl rfl hv
    · by_cases htw : t = w
      · simp [goto, Scheduler.markSleeping, htw]
      · simpa [goto, Scheduler.markSleeping, htw] using hwake.1
  | @insert w hw hpc =>
    refine (hheard hwork).mono (fun v hv => ?_) le_rfl fun t ht hwake => ⟨ht, hwake.1, ?_⟩
    · have hne : v ≠ w := by
        rintro rfl
        simp [Attentive, hpc, WorkerPc.Attentive] at hv
      exact attentive_goto_of_ne (s := k.sched.insertSleeping w threadEternalSleep) hne rfl rfl
        rfl rfl hv
    · exact (Scheduler.listed_insertSleeping k.sched w _).mem_iff.mpr
        (List.mem_cons_of_mem _ hwake.2)
  | @register w hw hpc =>
    refine (hheard hwork).mono (fun v hv => ?_) le_rfl fun t ht hwake => ⟨ht, hwake⟩
    by_cases hvw : v = w
    · subst hvw
      refine ⟨hw, ?_⟩
      have hrun := hv.2
      rw [hpc] at hrun
      simpa [goto, WorkerPc.Attentive] using hrun
    · exact attentive_goto_of_ne (s := k.sched) hvw rfl rfl rfl rfl hv

end Wakeups

section Progress

def rank (k : Kworkers) (w : ℕ) : ℕ :=
  (k.pc w).rank (k.sched.execState w) (k.workQueue = [])

def ranks (k : Kworkers) : ℕ := ∑ w ∈ Finset.range k.nWorkers, k.rank w

def effort (k : Kworkers) : ℕ :=
  2 * k.workQueue.length + 8 * k.choosing + 7 * k.waking.length + k.ranks

theorem ranks_le {w : ℕ} (hw : w < k.nWorkers) (hother : ∀ v, v ≠ w → k'.rank v ≤ k.rank v)
    (hn : k'.nWorkers = k.nWorkers) :
    k'.ranks + k.rank w ≤ k.ranks + k'.rank w := by
  have hmem : w ∈ Finset.range k.nWorkers := Finset.mem_range.mpr hw
  have hrest : ∑ v ∈ (Finset.range k.nWorkers).erase w, k'.rank v ≤
      ∑ v ∈ (Finset.range k.nWorkers).erase w, k.rank v :=
    Finset.sum_le_sum fun v hv => hother v (Finset.ne_of_mem_erase hv)
  unfold ranks
  rw [hn, ← Finset.add_sum_erase _ _ hmem, ← Finset.add_sum_erase _ _ hmem]
  omega

theorem rank_goto_le {w v : ℕ} {p : WorkerPc} (hv : v ≠ w)
    (hpc : k'.pc = Function.update k.pc w p)
    (hexec : k'.sched.execState v = k.sched.execState v)
    (hidle : k.workQueue = [] → k'.workQueue = []) : k'.rank v ≤ k.rank v := by
  unfold rank
  rw [hpc, Function.update_of_ne hv, hexec]
  exact WorkerPc.rank_le _ _ hidle

theorem Move.rank_lt {w : ℕ} {p : WorkerPc} (hmove : k.Move w p) :
    (k.goto w p).rank w < k.rank w := by
  cases hmove with
  | stop hpc hwork => simp [rank, goto, hpc, WorkerPc.rank, hwork]
  | again hpc hwork => simp [rank, goto, hpc, WorkerPc.rank, hwork]
  | leave hpc hwork => simp [rank, goto, hpc, WorkerPc.rank, hwork]
  | already hpc hasleep => simp [rank, goto, hpc, WorkerPc.rank, hasleep]
  | resume hpc hrun => simp [rank, goto, hpc, WorkerPc.rank, hrun]

theorem rank_wakeupThread {t : ℕ} (hwake : k.Wakeable t) (hk : k.Inv) :
    rank { k with waking := k.waking.erase t, sched := k.sched.wakeupThread t } t =
      k.rank t + 6 := by
  have hexec : (k.sched.wakeupThread t).execState t = .running := by
    rw [Scheduler.execState_wakeupThread hwake, Function.update_self]
  rcases hwake.pc_eq hk with hpc | hpc <;>
    simp [rank, hpc, WorkerPc.rank, hexec, hwake.1]

/-- A worker's section is progress if what it does to its own rank and to the queue is. -/
theorem effort_lt_of_goto {w : ℕ} {p : WorkerPc} (hw : w < k.nWorkers)
    (hn : k'.nWorkers = k.nWorkers) (hpc : k'.pc = Function.update k.pc w p)
    (hexec : ∀ v, v ≠ w → k'.sched.execState v = k.sched.execState v)
    (hidle : k.workQueue = [] → k'.workQueue = [])
    (hchoosing : k'.choosing = k.choosing) (hwaking : k'.waking = k.waking)
    (hlt : 2 * k'.workQueue.length + k'.rank w < 2 * k.workQueue.length + k.rank w) :
    k'.effort < k.effort := by
  have hranks := ranks_le hw (fun v hv => rank_goto_le hv hpc (hexec v hv) hidle) hn
  unfold effort
  rw [hchoosing, hwaking]
  omega

theorem step_effort {a : KworkStep} (ha : a ≠ .enqueue) (h : k.step a = some k') (hk : k.Inv) :
    k'.effort < k.effort := by
  cases transition_of_step h with
  | enqueue => exact absurd rfl ha
  | chooseNone hchoosing _ =>
    have hranks : ranks { k with choosing := k.choosing - 1 } = k.ranks := rfl
    simp only [effort, hranks]
    omega
  | @chooseHead t rest hchoosing _ =>
    have hranks : ranks { k with
        choosing := k.choosing - 1, workerQueue := rest, waking := k.waking ++ [t] } =
      k.ranks := rfl
    simp only [effort, hranks, List.length_append, List.length_singleton]
    omega
  | @wakeUp t ht hwake =>
    have hlt : t < k.nWorkers := (attentive_wakeupThread hwake hk).1
    have hpos := List.length_pos_of_mem ht
    have hother : ∀ v, v ≠ t →
        rank { k with waking := k.waking.erase t, sched := k.sched.wakeupThread t } v ≤
          k.rank v := by
      intro v hv
      unfold rank
      simp only [Scheduler.execState_wakeupThread hwake, Function.update_of_ne hv, le_refl]
    have hranks := ranks_le hlt hother rfl
    rw [rank_wakeupThread hwake hk] at hranks
    simp only [effort, List.length_erase_of_mem ht]
    omega
  | @wakeNobody t ht _ =>
    have hpos := List.length_pos_of_mem ht
    have hranks : ranks { k with waking := k.waking.erase t } = k.ranks := rfl
    simp only [effort, hranks, List.length_erase_of_mem ht]
    omega
  | @move w p hw hmove =>
    exact effort_lt_of_goto hw rfl rfl (fun _ _ => rfl) (fun h => h) rfl rfl
      (Nat.add_lt_add_left hmove.rank_lt _)
  | @take w i rest hw hpc hwork =>
    refine effort_lt_of_goto (p := .execute i) hw rfl rfl (fun _ _ => rfl) ?_ rfl rfl ?_
    · simp [hwork]
    · simp [rank, goto, hpc, WorkerPc.rank, hwork]
      omega
  | @finish w i hw hpc =>
    refine effort_lt_of_goto (p := .look) hw rfl rfl (fun _ _ => rfl) (fun h => h) rfl rfl ?_
    simp [rank, goto, hpc, WorkerPc.rank]
  | @mark w hw hpc =>
    refine effort_lt_of_goto (p := .insertSleeping) hw rfl rfl
      (fun v hv => Function.update_of_ne hv ..) (fun h => h) rfl rfl ?_
    simp [rank, goto, hpc, WorkerPc.rank]
  | @insert w hw hpc =>
    have hfits := hk.fits w
    rw [hpc] at hfits
    refine effort_lt_of_goto (p := .register) hw rfl rfl (fun _ _ => rfl) (fun h => h) rfl rfl ?_
    simp [rank, goto, hpc, WorkerPc.rank, Scheduler.insertSleeping, hfits.1]
  | @register w hw hpc =>
    refine effort_lt_of_goto (p := .yield) hw rfl rfl (fun _ _ => rfl) (fun h => h) rfl rfl ?_
    by_cases hsleep : k.sched.execState w = .sleeping <;>
      simp [rank, goto, hpc, WorkerPc.rank, hsleep]

theorem run_effort {as : List KworkStep} (has : .enqueue ∉ as) (h : run step k as = some k')
    (hk : k.Inv) : as.length + k'.effort ≤ k.effort := by
  induction as generalizing k with
  | nil =>
    obtain rfl := Option.some.inj h
    simp
  | cons a as ih =>
    obtain ⟨u, hu, hrest⟩ := Option.bind_eq_some_iff.mp h
    obtain ⟨hne, hnot⟩ := not_or.mp (List.mem_cons.not.mp has)
    have hlt := step_effort (fun h => hne h.symm) hu hk
    have hle := ih hnot hrest (step_inv hu hk)
    rw [List.length_cons]
    omega

theorem run_enqueued {as : List KworkStep} (has : .enqueue ∉ as)
    (h : run step k as = some k') : k'.enqueued = k.enqueued := by
  induction as generalizing k with
  | nil =>
    obtain rfl := Option.some.inj h
    rfl
  | cons a as ih =>
    obtain ⟨u, hu, hrest⟩ := Option.bind_eq_some_iff.mp h
    obtain ⟨hne, hnot⟩ := not_or.mp (List.mem_cons.not.mp has)
    rw [ih hnot hrest]
    cases transition_of_step hu with
    | enqueue => exact absurd rfl hne
    | _ => rfl

end Progress

def NotStuck (k : Kworkers) : Prop :=
  ¬ (k.workQueue ≠ [] ∧ (∀ w < k.nWorkers, k.sched.execState w = .sleeping) ∧
    k.choosing = 0 ∧ ∀ t ∈ k.waking, k.sched.execState t ≠ .sleeping)

def AtRest (k : Kworkers) : Prop :=
  (∀ w < k.nWorkers, k.sched.execState w = .sleeping) ∧ k.choosing = 0 ∧ k.waking = []

theorem not_attentive_of_sleeping {w : ℕ} (hk : k.Inv)
    (hsleep : k.sched.execState w = .sleeping) : ¬ k.Attentive w := by
  rintro ⟨-, hw⟩
  have hfits := hk.fits w
  cases hpc : k.pc w <;> simp_all [WorkerPc.Fits, WorkerPc.Attentive]

theorem notStuck_of_heard (hk : k.Inv) (hheard : k.workQueue ≠ [] → k.Heard) : k.NotStuck := by
  rintro ⟨hwork, hsleep, hchoosing, hwaking⟩
  obtain ⟨w, hw⟩ | hpos | ⟨t, ht, hwake⟩ := hheard hwork
  · exact not_attentive_of_sleeping hk (hsleep w hw.1) hw
  · omega
  · exact hwaking t ht hwake.1

theorem executed_of_atRest (hk : k.Inv) (hc : k.Conserved)
    (hheard : k.workQueue ≠ [] → k.Heard) (hrest : k.AtRest) :
    k.executed.Perm (List.range k.enqueued) := by
  obtain ⟨hsleep, hchoosing, hwaking⟩ := hrest
  have hwork : k.workQueue = [] := by
    by_contra hwork
    exact notStuck_of_heard hk hheard ⟨hwork, hsleep, hchoosing, by simp [hwaking]⟩
  have hhand : k.inHand = [] := by
    apply List.filterMap_eq_nil_iff.mpr
    intro w hw
    have hfits := hk.fits w
    have hs := hsleep w (List.mem_range.mp hw)
    cases hpc : k.pc w <;> simp_all [WorkerPc.Fits, WorkerPc.work]
  unfold Conserved at hc
  rw [hwork, hhand, List.append_nil, List.append_nil] at hc
  exact hc.symm

structure Sound (k : Kworkers) : Prop where
  inv : k.Inv
  conserved : k.Conserved
  heard : k.workQueue ≠ [] → k.Heard

theorem init_sound (n ticks : ℕ) (waitState : ℕ → WaitState) :
    (init n ticks waitState).Sound :=
  ⟨init_inv n ticks waitState, init_conserved n ticks waitState, fun h => absurd rfl h⟩

theorem step_sound {a : KworkStep} (ha : k.FindsWorker a) (h : k.step a = some k')
    (hk : k.Sound) : k'.Sound :=
  ⟨step_inv h hk.inv, step_conserved h hk.conserved, step_heard ha h hk.inv hk.heard⟩

def twoItems : List KworkStep :=
  [[.enqueue, .choose, .wake 0], List.replicate 7 (.work 0), List.replicate 5 (.work 1),
    [.enqueue, .choose, .wake 1], List.replicate 8 (.work 1)].flatten

def lateItem : List KworkStep :=
  [[.enqueue, .choose, .wake 0], List.replicate 4 (.work 0), [.enqueue, .choose],
    List.replicate 3 (.work 0)].flatten

end Kworkers

end BrickOS.Processes
