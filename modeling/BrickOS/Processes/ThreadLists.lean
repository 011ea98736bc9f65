import BrickOS.Lib.Run
import BrickOS.Lib.LinkedList
import BrickOS.Lib.Keyed
import Mathlib.Data.List.AList

/-! The queue of all threads and the chains of the threads of each process, two intrusive lists
over the same nodes, against the plain list of the live threads. -/
namespace BrickOS.Processes
open BrickOS.Lib

structure Thread where
  tid : ℕ
  ownerProc : ℕ
  next : Option ℕ
  nextProcThread : Option ℕ

/-- The threads that are allocated, by address, `main_thread` of each process, and `t_queue`. -/
structure ThreadLists where
  threads : AList fun _ : ℕ => Thread
  mainThread : ℕ → Option ℕ
  tQueue : Option ℕ

namespace ThreadLists

def next (s : ThreadLists) (t : ℕ) : Option (Option ℕ) := (s.threads.lookup t).map Thread.next

def nextProcThread (s : ThreadLists) (t : ℕ) : Option (Option ℕ) :=
  (s.threads.lookup t).map Thread.nextProcThread

def size (s : ThreadLists) : ℕ := s.threads.keys.length

def setThread (s : ThreadLists) (t : ℕ) (thread : Thread) : ThreadLists :=
  { s with threads := s.threads.insert t thread }

def setNext (s : ThreadLists) (t : ℕ) (q : Option ℕ) : ThreadLists :=
  (s.threads.lookup t).elim s fun thread => s.setThread t { thread with next := q }

def setNextProcThread (s : ThreadLists) (t : ℕ) (q : Option ℕ) : ThreadLists :=
  (s.threads.lookup t).elim s fun thread => s.setThread t { thread with nextProcThread := q }

def setMainThread (s : ThreadLists) (p : ℕ) (q : Option ℕ) : ThreadLists :=
  { s with mainThread := Function.update s.mainThread p q }

def kfree (s : ThreadLists) (t : ℕ) : ThreadLists := { s with threads := s.threads.erase t }

def enqueueThread (s : ThreadLists) (t : ℕ) : Option ThreadLists :=
  match s.tQueue with
  | none => some s
  | some head =>
    (s.threads.lookup t).bind fun thread =>
    (lastFrom s.next s.size head).bind fun last =>
    let s := s.setNext last (some t)
    match s.mainThread thread.ownerProc with
    | none => some (s.setMainThread thread.ownerProc (some t))
    | some main =>
      (lastFrom s.nextProcThread s.size main).map fun last => s.setNextProcThread last (some t)

def removeThread (s : ThreadLists) (t : ℕ) : Option (ThreadLists × Option ℕ) :=
  s.tQueue.bind fun head =>
  (s.threads.lookup t).bind fun thread =>
  (stopBefore s.next t s.size head).bind fun beforeThread =>
  let s := s.setNext beforeThread thread.next
  if s.mainThread thread.ownerProc = some t then
    some ((s.setMainThread thread.ownerProc thread.nextProcThread).kfree t,
      if thread.nextProcThread = none then some thread.ownerProc else none)
  else
    (s.mainThread thread.ownerProc).bind fun main =>
    (stopBefore s.nextProcThread t s.size main).map fun beforeThread =>
      ((s.setNextProcThread beforeThread thread.nextProcThread).kfree t, none)

/-- `create_root_process` and `init_scheduler`: the kernel's process has one thread. -/
def start (root kernelProcess tid : ℕ) : ThreadLists where
  threads := AList.insert root ⟨tid, kernelProcess, none, none⟩ ∅
  mainThread := fun p => if p = kernelProcess then some root else none
  tQueue := some root

def ownerProc (s : ThreadLists) (t : ℕ) : Option ℕ := (s.threads.lookup t).map Thread.ownerProc

section Fields

variable {s : ThreadLists} {t u : ℕ}

theorem lookup_setThread_self (s : ThreadLists) (t : ℕ) (thread : Thread) :
    (s.setThread t thread).threads.lookup t = some thread := AList.lookup_insert _

theorem lookup_setThread_of_ne (h : u ≠ t) (s : ThreadLists) (thread : Thread) :
    (s.setThread t thread).threads.lookup u = s.threads.lookup u := AList.lookup_insert_ne h

theorem lookup_kfree_of_ne (h : u ≠ t) (s : ThreadLists) :
    (s.kfree t).threads.lookup u = s.threads.lookup u := AList.lookup_erase_ne h

theorem lookup_setNext (s : ThreadLists) (t u : ℕ) (q : Option ℕ) :
    (s.setNext t q).threads.lookup u =
      (s.threads.lookup u).map fun thread => if u = t then { thread with next := q } else thread := by
  unfold setNext
  by_cases hut : u = t
  · subst hut
    cases h : s.threads.lookup u with
    | none => simpa using h
    | some thread => simpa using lookup_setThread_self _ _ _
  · cases h : s.threads.lookup t with
    | none => simp [hut]
    | some thread => simpa [hut] using lookup_setThread_of_ne hut _ _

theorem lookup_setNextProcThread (s : ThreadLists) (t u : ℕ) (q : Option ℕ) :
    (s.setNextProcThread t q).threads.lookup u = (s.threads.lookup u).map fun thread =>
      if u = t then { thread with nextProcThread := q } else thread := by
  unfold setNextProcThread
  by_cases hut : u = t
  · subst hut
    cases h : s.threads.lookup u with
    | none => simpa using h
    | some thread => simpa using lookup_setThread_self _ _ _
  · cases h : s.threads.lookup t with
    | none => simp [hut]
    | some thread => simpa [hut] using lookup_setThread_of_ne hut _ _

@[simp] theorem mainThread_setNext (s : ThreadLists) (t : ℕ) (q : Option ℕ) :
    (s.setNext t q).mainThread = s.mainThread := by
  unfold setNext
  cases s.threads.lookup t <;> rfl

@[simp] theorem tQueue_setNext (s : ThreadLists) (t : ℕ) (q : Option ℕ) :
    (s.setNext t q).tQueue = s.tQueue := by
  unfold setNext
  cases s.threads.lookup t <;> rfl

@[simp] theorem mainThread_setNextProcThread (s : ThreadLists) (t : ℕ) (q : Option ℕ) :
    (s.setNextProcThread t q).mainThread = s.mainThread := by
  unfold setNextProcThread
  cases s.threads.lookup t <;> rfl

@[simp] theorem tQueue_setNextProcThread (s : ThreadLists) (t : ℕ) (q : Option ℕ) :
    (s.setNextProcThread t q).tQueue = s.tQueue := by
  unfold setNextProcThread
  cases s.threads.lookup t <;> rfl

theorem next_setNext_of_ne (h : u ≠ t) (s : ThreadLists) (q : Option ℕ) :
    (s.setNext t q).next u = s.next u := by
  simp [next, lookup_setNext, h]

theorem next_setNext_self (h : (s.ownerProc t).isSome) (q : Option ℕ) :
    (s.setNext t q).next t = some q := by
  rw [ownerProc, Option.isSome_map] at h
  obtain ⟨thread, hthread⟩ := Option.isSome_iff_exists.mp h
  simp [next, lookup_setNext, hthread]

@[simp] theorem nextProcThread_setNext (s : ThreadLists) (t : ℕ) (q : Option ℕ) :
    (s.setNext t q).nextProcThread = s.nextProcThread := by
  funext u
  rw [nextProcThread, nextProcThread, lookup_setNext, Option.map_map]
  congr 1
  funext thread
  by_cases h : u = t <;> simp [h]

@[simp] theorem next_setNextProcThread (s : ThreadLists) (t : ℕ) (q : Option ℕ) :
    (s.setNextProcThread t q).next = s.next := by
  funext u
  rw [next, next, lookup_setNextProcThread, Option.map_map]
  congr 1
  funext thread
  by_cases h : u = t <;> simp [h]

theorem nextProcThread_setNextProcThread_of_ne (h : u ≠ t) (s : ThreadLists) (q : Option ℕ) :
    (s.setNextProcThread t q).nextProcThread u = s.nextProcThread u := by
  simp [nextProcThread, lookup_setNextProcThread, h]

theorem nextProcThread_setNextProcThread_self (h : (s.ownerProc t).isSome) (q : Option ℕ) :
    (s.setNextProcThread t q).nextProcThread t = some q := by
  rw [ownerProc, Option.isSome_map] at h
  obtain ⟨thread, hthread⟩ := Option.isSome_iff_exists.mp h
  simp [nextProcThread, lookup_setNextProcThread, hthread]

@[simp] theorem ownerProc_setNext (s : ThreadLists) (t : ℕ) (q : Option ℕ) :
    (s.setNext t q).ownerProc = s.ownerProc := by
  funext u
  rw [ownerProc, ownerProc, lookup_setNext, Option.map_map]
  congr 1
  funext thread
  by_cases h : u = t <;> simp [h]

@[simp] theorem ownerProc_setNextProcThread (s : ThreadLists) (t : ℕ) (q : Option ℕ) :
    (s.setNextProcThread t q).ownerProc = s.ownerProc := by
  funext u
  rw [ownerProc, ownerProc, lookup_setNextProcThread, Option.map_map]
  congr 1
  funext thread
  by_cases h : u = t <;> simp [h]

@[simp] theorem mainThread_kfree (s : ThreadLists) (t : ℕ) :
    (s.kfree t).mainThread = s.mainThread := rfl

@[simp] theorem tQueue_kfree (s : ThreadLists) (t : ℕ) : (s.kfree t).tQueue = s.tQueue := rfl

@[simp] theorem tQueue_setMainThread (s : ThreadLists) (p : ℕ) (q : Option ℕ) :
    (s.setMainThread p q).tQueue = s.tQueue := rfl

@[simp] theorem next_setMainThread (s : ThreadLists) (p : ℕ) (q : Option ℕ) :
    (s.setMainThread p q).next = s.next := rfl

@[simp] theorem nextProcThread_setMainThread (s : ThreadLists) (p : ℕ) (q : Option ℕ) :
    (s.setMainThread p q).nextProcThread = s.nextProcThread := rfl

@[simp] theorem ownerProc_setMainThread (s : ThreadLists) (p : ℕ) (q : Option ℕ) :
    (s.setMainThread p q).ownerProc = s.ownerProc := rfl

@[simp] theorem mainThread_setMainThread_self (s : ThreadLists) (p : ℕ) (q : Option ℕ) :
    (s.setMainThread p q).mainThread p = q := Function.update_self _ _ _

theorem mainThread_setMainThread_of_ne {p p' : ℕ} (h : p' ≠ p) (s : ThreadLists) (q : Option ℕ) :
    (s.setMainThread p q).mainThread p' = s.mainThread p' := Function.update_of_ne h _ _

theorem next_kfree_of_ne (h : u ≠ t) (s : ThreadLists) : (s.kfree t).next u = s.next u := by
  rw [next, lookup_kfree_of_ne h]
  rfl

theorem nextProcThread_kfree_of_ne (h : u ≠ t) (s : ThreadLists) :
    (s.kfree t).nextProcThread u = s.nextProcThread u := by
  rw [nextProcThread, lookup_kfree_of_ne h]
  rfl

theorem ownerProc_kfree_of_ne (h : u ≠ t) (s : ThreadLists) :
    (s.kfree t).ownerProc u = s.ownerProc u := by
  rw [ownerProc, lookup_kfree_of_ne h]
  rfl

theorem ownerProc_kfree_self (s : ThreadLists) (t : ℕ) : (s.kfree t).ownerProc t = none := by
  have hnone : (s.kfree t).threads.lookup t = none := AList.lookup_erase _ _
  rw [ownerProc, hnone]
  rfl

theorem length_le_size {l : List ℕ} (hnodup : l.Nodup)
    (hl : ∀ t ∈ l, (s.ownerProc t).isSome) : l.length ≤ s.size := by
  have hsub : l ⊆ s.threads.keys := by
    intro t ht
    have hsome := hl t ht
    rw [ownerProc, Option.isSome_map] at hsome
    exact AList.mem_keys.mp (AList.lookup_isSome.mp hsome)
  exact (List.subperm_of_subset hnodup hsub).length_le

end Fields

end ThreadLists

structure Task where
  thread : ℕ
  owner : ℕ
  deriving DecidableEq

def threadsOf (l : List Task) (p : ℕ) : List ℕ :=
  (l.filter fun task => task.owner = p).map Task.thread

def without (l : List Task) (t : ℕ) : List Task := l.filter fun task => task.thread ≠ t

structure Represents (s : ThreadLists) (l : List Task) : Prop where
  queue : Linked s.next s.tQueue (l.map Task.thread)
  chains : ∀ p, Linked s.nextProcThread (s.mainThread p) (threadsOf l p)
  owners : ∀ t p, s.ownerProc t = some p ↔ ⟨t, p⟩ ∈ l

section

variable {s : ThreadLists} {l : List Task} {t p : ℕ}

theorem mem_threadsOf : t ∈ threadsOf l p ↔ ⟨t, p⟩ ∈ l := by
  simp only [threadsOf, List.mem_map, List.mem_filter, decide_eq_true_eq]
  constructor
  · rintro ⟨⟨u, q⟩, ⟨hmem, rfl⟩, rfl⟩
    exact hmem
  · exact fun hmem => ⟨⟨t, p⟩, ⟨hmem, rfl⟩, rfl⟩

theorem threadsOf_concat (l : List Task) (t p q : ℕ) :
    threadsOf (l ++ [⟨t, p⟩]) q = if p = q then threadsOf l q ++ [t] else threadsOf l q := by
  by_cases h : p = q <;> simp [threadsOf, h]

theorem map_without (hnodup : (l.map Task.thread).Nodup) (t : ℕ) :
    (without l t).map Task.thread = (l.map Task.thread).erase t := by
  rw [hnodup.erase_eq_filter, List.filter_map]
  congr 1
  apply List.filter_congr
  intro task _
  by_cases h : task.thread = t <;> simp [h]

theorem threadsOf_without (hnodup : (threadsOf l p).Nodup) (t : ℕ) :
    threadsOf (without l t) p = (threadsOf l p).erase t := by
  rw [hnodup.erase_eq_filter, threadsOf, threadsOf, without, List.filter_filter,
    List.filter_map, List.filter_filter]
  congr 1
  apply List.filter_congr
  intro task _
  by_cases h : task.thread = t <;> simp [h]

namespace Represents

theorem owner_of_mem (h : Represents s l) (hmem : t ∈ l.map Task.thread) :
    (s.ownerProc t).isSome := by
  obtain ⟨task, htask, rfl⟩ := List.mem_map.mp hmem
  rw [(h.owners task.thread task.owner).mpr htask]
  rfl

theorem owner_of_threadsOf (h : Represents s l) (hmem : t ∈ threadsOf l p) :
    s.ownerProc t = some p := (h.owners t p).mpr (mem_threadsOf.mp hmem)

theorem owner_unique (h : Represents s l) {q : ℕ} (hp : ⟨t, p⟩ ∈ l) (hq : ⟨t, q⟩ ∈ l) : p = q :=
  Option.some.inj (((h.owners t p).mpr hp).symm.trans ((h.owners t q).mpr hq))

end Represents

structure Created (s : ThreadLists) (l : List Task) (t p : ℕ) : Prop where
  chains : ∀ q, Linked s.nextProcThread (s.mainThread q) (threadsOf l q)
  owners : ∀ u q, s.ownerProc u = some q ↔ ⟨u, q⟩ ∈ l ++ [⟨t, p⟩]
  nextProcThread : s.nextProcThread t = some none
  notMem : t ∉ l.map Task.thread

theorem Represents.created (h : Represents s l) (ht : s.ownerProc t = none) (tid p : ℕ) :
    Created (s.setThread t ⟨tid, p, none, none⟩) l t p ∧
      Linked (s.setThread t ⟨tid, p, none, none⟩).next s.tQueue (l.map Task.thread) ∧
      (s.setThread t ⟨tid, p, none, none⟩).next t = some none := by
  have hne : t ∉ l.map Task.thread := by
    intro hmem
    have hsome := h.owner_of_mem hmem
    rw [ht] at hsome
    cases hsome
  have hother : ∀ u, u ≠ t → (s.setThread t ⟨tid, p, none, none⟩).threads.lookup u =
      s.threads.lookup u := fun u hu => ThreadLists.lookup_setThread_of_ne hu _ _
  have hself := ThreadLists.lookup_setThread_self s t ⟨tid, p, none, none⟩
  refine ⟨⟨?_, ?_, ?_, hne⟩, ?_, ?_⟩
  · intro q
    apply (h.chains q).congr
    intro u hu
    have hu' : u ∈ l.map Task.thread := List.mem_map_of_mem (f := Task.thread) (mem_threadsOf.mp hu)
    rw [ThreadLists.nextProcThread, hother u fun heq => hne (heq ▸ hu')]
    rfl
  · intro u q
    rw [List.mem_append, List.mem_singleton]
    by_cases hut : u = t
    · subst hut
      have hnot : (⟨u, q⟩ : Task) ∉ l := fun hmem => hne (List.mem_map_of_mem (f := Task.thread) hmem)
      rw [ThreadLists.ownerProc, hself]
      simp [hnot, eq_comm]
    · rw [ThreadLists.ownerProc, hother u hut, ← ThreadLists.ownerProc, h.owners]
      simp [hut]
  · rw [ThreadLists.nextProcThread, hself]
    rfl
  · apply h.queue.congr
    intro u hu
    rw [ThreadLists.next, hother u fun heq => hne (heq ▸ hu)]
    rfl
  · rw [ThreadLists.next, hself]
    rfl

namespace Created

theorem owner_of_mem (h : Created s l t p) {u q : ℕ} (hmem : ⟨u, q⟩ ∈ l) :
    s.ownerProc u = some q := (h.owners u q).mpr (List.mem_append_left _ hmem)

theorem isSome_of_mem (h : Created s l t p) {u : ℕ} (hmem : u ∈ l.map Task.thread) :
    (s.ownerProc u).isSome := by
  obtain ⟨task, htask, rfl⟩ := List.mem_map.mp hmem
  rw [h.owner_of_mem htask]
  rfl

theorem setNext (h : Created s l t p) (u : ℕ) (q : Option ℕ) : Created (s.setNext u q) l t p := by
  constructor
  · rw [ThreadLists.nextProcThread_setNext, ThreadLists.mainThread_setNext]
    exact h.chains
  · rw [ThreadLists.ownerProc_setNext]
    exact h.owners
  · rw [ThreadLists.nextProcThread_setNext]
    exact h.nextProcThread
  · exact h.notMem

theorem exists_last (h : Created s l t p) (hqueue : Linked s.next s.tQueue (l.map Task.thread))
    (hnext : s.next t = some none) (hl : l ≠ []) :
    ∃ head last, s.tQueue = some head ∧ lastFrom s.next s.size head = some last ∧
      Linked (s.setNext last (some t)).next s.tQueue ((l ++ [Task.mk t p]).map Task.thread) := by
  obtain ⟨task, rest, rfl⟩ := List.exists_cons_of_ne_nil hl
  have hmem : ∀ u ∈ task.thread :: rest.map Task.thread, (s.ownerProc u).isSome :=
    fun u hu => h.isSome_of_mem hu
  rw [List.map_cons] at hqueue
  have hhead : s.tQueue = some task.thread := hqueue.1
  rw [hhead] at hqueue ⊢
  obtain ⟨last, hlast, hfound, hlinked⟩ :=
    hqueue.exists_last (ThreadLists.length_le_size hqueue.nodup hmem)
  have hne : t ≠ last := fun heq => h.notMem (heq ▸ hlast)
  refine ⟨task.thread, last, rfl, hfound, ?_⟩
  rw [List.map_append, List.map_cons]
  apply hlinked
  · exact fun r _ hr => ThreadLists.next_setNext_of_ne hr _ _
  · exact ThreadLists.next_setNext_self (hmem last hlast) _
  · rw [ThreadLists.next_setNext_of_ne hne]
    exact hnext

theorem first (h : Created s l t p)
    (hqueue : Linked s.next s.tQueue ((l ++ [Task.mk t p]).map Task.thread))
    (hnone : threadsOf l p = []) : Represents (s.setMainThread p (some t)) (l ++ [⟨t, p⟩]) := by
  refine ⟨hqueue, fun q => ?_, h.owners⟩
  rw [threadsOf_concat]
  split_ifs with hq
  · subst hq
    rw [ThreadLists.mainThread_setMainThread_self, hnone]
    exact ⟨rfl, none, h.nextProcThread, rfl⟩
  · rw [ThreadLists.mainThread_setMainThread_of_ne (Ne.symm hq)]
    exact h.chains q

/-- The chain of a process: its last node is found, and the new thread is put behind it. -/
theorem append (h : Created s l t p)
    (hqueue : Linked s.next s.tQueue ((l ++ [Task.mk t p]).map Task.thread))
    {main : ℕ} (hmain : s.mainThread p = some main) :
    ∃ last, lastFrom s.nextProcThread s.size main = some last ∧
      Represents (s.setNextProcThread last (some t)) (l ++ [⟨t, p⟩]) := by
  have hmem : ∀ u ∈ threadsOf l p, s.ownerProc u = some p :=
    fun u hu => h.owner_of_mem (mem_threadsOf.mp hu)
  have hchain := h.chains p
  obtain ⟨rest, hrest⟩ : ∃ rest, threadsOf l p = main :: rest := by
    cases hthreads : threadsOf l p with
    | nil =>
      rw [hthreads, hmain] at hchain
      cases hchain
    | cons u rest =>
      rw [hthreads, hmain] at hchain
      obtain rfl := Option.some.inj hchain.1
      exact ⟨rest, rfl⟩
  rw [hmain, hrest] at hchain
  rw [hrest] at hmem
  have hfuel : rest.length < s.size := by
    apply ThreadLists.length_le_size hchain.nodup
    intro u hu
    rw [hmem u hu]
    rfl
  obtain ⟨last, hlast, hfound, hlinked⟩ := hchain.exists_last hfuel
  have hne : t ≠ last := by
    rintro rfl
    rw [← hrest] at hlast
    exact h.notMem (List.mem_map_of_mem (f := Task.thread) (mem_threadsOf.mp hlast))
  refine ⟨last, hfound, ?_, ?_, ?_⟩
  · rw [ThreadLists.next_setNextProcThread, ThreadLists.tQueue_setNextProcThread]
    exact hqueue
  · intro q
    rw [ThreadLists.mainThread_setNextProcThread, threadsOf_concat]
    split_ifs with hq
    · subst hq
      rw [hmain, hrest]
      apply hlinked
      · exact fun r _ hr => ThreadLists.nextProcThread_setNextProcThread_of_ne hr _ _
      · apply ThreadLists.nextProcThread_setNextProcThread_self
        rw [hmem last hlast]
        rfl
      · rw [ThreadLists.nextProcThread_setNextProcThread_of_ne hne]
        exact h.nextProcThread
    · apply (h.chains q).congr
      intro u hu
      apply ThreadLists.nextProcThread_setNextProcThread_of_ne
      rintro rfl
      have huq := h.owner_of_mem (mem_threadsOf.mp hu)
      rw [hmem u hlast] at huq
      exact hq (Option.some.inj huq)
  · rw [ThreadLists.ownerProc_setNextProcThread]
    exact h.owners

end Created

theorem Represents.enqueueThread (h : Represents s l) (hl : l ≠ []) (ht : s.ownerProc t = none)
    (tid p : ℕ) : ∃ s', (s.setThread t ⟨tid, p, none, none⟩).enqueueThread t = some s' ∧
      Represents s' (l ++ [⟨t, p⟩]) := by
  obtain ⟨hcreated, hqueue, hnext⟩ := h.created ht tid p
  have hthread := ThreadLists.lookup_setThread_self s t ⟨tid, p, none, none⟩
  obtain ⟨head, last, hhead, hlast, hqueue'⟩ := hcreated.exists_last hqueue hnext hl
  have hcreated' := hcreated.setNext last (some t)
  rw [← ThreadLists.tQueue_setNext _ last (some t)] at hqueue'
  simp only [ThreadLists.enqueueThread, hhead, hthread, hlast, Option.bind_some]
  generalize (s.setThread t ⟨tid, p, none, none⟩).setNext last (some t) = s' at *
  cases hmain : s'.mainThread p with
  | none =>
    have hnone : threadsOf l p = [] := by
      have hchain := hcreated'.chains p
      rw [hmain] at hchain
      cases hthreads : threadsOf l p with
      | nil => rfl
      | cons u rest =>
        rw [hthreads] at hchain
        cases hchain.1
    exact ⟨_, rfl, hcreated'.first hqueue' hnone⟩
  | some main =>
    obtain ⟨last', hlast', hrepresents⟩ := hcreated'.append hqueue' hmain
    exact ⟨_, by simp only [hlast', Option.map_some], hrepresents⟩

theorem Represents.nodup_threads (h : Represents s l) : (l.map Task.thread).Nodup := h.queue.nodup

/-- The queue without a thread that is not its first; the chains are as before. -/
theorem Represents.exists_before (h : Represents s l) (hmem : t ∈ l.map Task.thread)
    (hroot : s.tQueue ≠ some t) {thread : Thread} (ht : s.threads.lookup t = some thread) :
    ∃ head before, s.tQueue = some head ∧ stopBefore s.next t s.size head = some before ∧
      ∀ next', (∀ u, u ≠ t → next' u = (s.setNext before thread.next).next u) →
        Linked next' s.tQueue ((without l t).map Task.thread) := by
  have hqueue := h.queue
  have hsome : ∀ u ∈ l.map Task.thread, (s.ownerProc u).isSome := fun u hu => h.owner_of_mem hu
  rw [map_without h.nodup_threads]
  cases hl : l.map Task.thread with
  | nil =>
    rw [hl] at hmem
    cases hmem
  | cons head rest =>
    rw [hl] at hqueue hmem hsome
    have hhead : s.tQueue = some head := hqueue.1
    rw [hhead] at hqueue hroot ⊢
    have hrest : t ∈ rest := by
      apply (List.mem_cons.mp hmem).resolve_left
      rintro rfl
      exact hroot rfl
    obtain ⟨before, hbefore, hne, hstop, hlinked⟩ :=
      hqueue.exists_before hrest (ThreadLists.length_le_size hqueue.nodup hsome)
    refine ⟨head, before, rfl, hstop, fun next' hnext' => hlinked next' ?_ ?_⟩
    · intro r _ hr hrt
      rw [hnext' r hrt, ThreadLists.next_setNext_of_ne hr]
    · rw [hnext' before hne, ThreadLists.next_setNext_self (hsome before hbefore),
        ThreadLists.next, ht]
      rfl

/-- What is left after a thread of the process `p` was taken out of both lists and freed. -/
theorem Represents.of_removed (h : Represents s l) (hmem : ⟨t, p⟩ ∈ l) {s' : ThreadLists}
    (hqueue : Linked s'.next s'.tQueue ((without l t).map Task.thread))
    (hchain : Linked s'.nextProcThread (s'.mainThread p) ((threadsOf l p).erase t))
    (hmain : ∀ q, q ≠ p → s'.mainThread q = s.mainThread q)
    (hnext : ∀ u, s.ownerProc u ≠ some p → s'.nextProcThread u = s.nextProcThread u)
    (howners : ∀ u, u ≠ t → s'.ownerProc u = s.ownerProc u) (hfreed : s'.ownerProc t = none) :
    Represents s' (without l t) := by
  refine ⟨hqueue, fun q => ?_, fun u q => ?_⟩
  · rw [threadsOf_without (h.chains q).nodup]
    by_cases hq : q = p
    · rw [hq]
      exact hchain
    · have hnot : t ∉ threadsOf l q := fun ht => hq (h.owner_unique (mem_threadsOf.mp ht) hmem)
      rw [List.erase_of_not_mem hnot, hmain q hq]
      apply (h.chains q).congr
      intro u hu
      apply hnext
      rw [h.owner_of_threadsOf hu]
      exact fun heq => hq (Option.some.inj heq)
  · rw [without, List.mem_filter, decide_eq_true_eq]
    by_cases hut : u = t
    · subst hut
      rw [hfreed]
      simp
    · rw [howners u hut, h.owners]
      simp [hut]

section

variable {before : ℕ} {thread : Thread}

/-- The thread is the first of its process. -/
theorem Represents.removeMain (h : Represents s l) (hmem : ⟨t, p⟩ ∈ l)
    (hthread : s.threads.lookup t = some thread) (hmain : s.mainThread p = some t)
    (hqueue : ∀ next', (∀ u, u ≠ t → next' u = (s.setNext before thread.next).next u) →
      Linked next' s.tQueue ((without l t).map Task.thread)) :
    Represents (((s.setNext before thread.next).setMainThread p thread.nextProcThread).kfree t)
        (without l t) ∧
      (thread.nextProcThread = none ↔ threadsOf (without l t) p = []) := by
  have hchain := h.chains p
  have hrest := threadsOf_without hchain.nodup t
  cases hthreads : threadsOf l p with
  | nil =>
    rw [hthreads, hmain] at hchain
    cases hchain
  | cons u rest =>
    have hnodup := hchain.nodup
    rw [hthreads, hmain] at hchain
    rw [hthreads] at hnodup
    obtain ⟨hu, next, hnext, hlinked⟩ := hchain
    obtain rfl := Option.some.inj hu
    obtain rfl : thread.nextProcThread = next := by
      rw [ThreadLists.nextProcThread, hthread] at hnext
      exact Option.some.inj hnext
    rw [hthreads, List.erase_cons_head] at hrest
    constructor
    · apply h.of_removed hmem
      · rw [ThreadLists.tQueue_kfree, ThreadLists.tQueue_setMainThread, ThreadLists.tQueue_setNext]
        exact hqueue _ fun u hu => ThreadLists.next_kfree_of_ne hu _
      · rw [ThreadLists.mainThread_kfree, ThreadLists.mainThread_setMainThread_self, hthreads,
          List.erase_cons_head]
        apply hlinked.congr
        intro u hu
        have hut : u ≠ t := fun heq => (List.nodup_cons.mp hnodup).1 (heq ▸ hu)
        rw [ThreadLists.nextProcThread_kfree_of_ne hut, ThreadLists.nextProcThread_setMainThread,
          ThreadLists.nextProcThread_setNext]
      · intro q hq
        rw [ThreadLists.mainThread_kfree, ThreadLists.mainThread_setMainThread_of_ne hq,
          ThreadLists.mainThread_setNext]
      · intro u hu
        have hut : u ≠ t := fun heq => hu (heq ▸ (h.owners t p).mpr hmem)
        rw [ThreadLists.nextProcThread_kfree_of_ne hut, ThreadLists.nextProcThread_setMainThread,
          ThreadLists.nextProcThread_setNext]
      · intro u hu
        rw [ThreadLists.ownerProc_kfree_of_ne hu, ThreadLists.ownerProc_setMainThread,
          ThreadLists.ownerProc_setNext]
      · exact ThreadLists.ownerProc_kfree_self _ _
    · rw [hrest]
      cases rest with
      | nil => simpa using hlinked
      | cons u rest => simp [hlinked.1]

/-- The thread is another one of its process. -/
theorem Represents.removeOther (h : Represents s l) (hmem : ⟨t, p⟩ ∈ l)
    (hthread : s.threads.lookup t = some thread) (hmain : s.mainThread p ≠ some t)
    (hqueue : ∀ next', (∀ u, u ≠ t → next' u = (s.setNext before thread.next).next u) →
      Linked next' s.tQueue ((without l t).map Task.thread)) :
    ∃ main before', s.mainThread p = some main ∧
      stopBefore s.nextProcThread t (s.setNext before thread.next).size main = some before' ∧
      Represents (((s.setNext before thread.next).setNextProcThread before'
        thread.nextProcThread).kfree t) (without l t) ∧ threadsOf (without l t) p ≠ [] := by
  have hchain := h.chains p
  have hrest := threadsOf_without hchain.nodup t
  have hin : t ∈ threadsOf l p := mem_threadsOf.mpr hmem
  have howned : ∀ u ∈ threadsOf l p, s.ownerProc u = some p := fun u hu => h.owner_of_threadsOf hu
  cases hthreads : threadsOf l p with
  | nil =>
    rw [hthreads] at hin
    cases hin
  | cons main rest =>
    rw [hthreads] at hchain hin howned hrest
    have hmain' : s.mainThread p = some main := hchain.1
    rw [hmain'] at hchain hmain
    have hne : main ≠ t := fun heq => hmain (heq ▸ rfl)
    have hfuel : rest.length < (s.setNext before thread.next).size := by
      apply ThreadLists.length_le_size (s := s.setNext before thread.next) hchain.nodup
      intro u hu
      rw [ThreadLists.ownerProc_setNext, howned u hu]
      rfl
    obtain ⟨before', hbefore, hbeforeT, hstop, hlinked⟩ :=
      hchain.exists_before ((List.mem_cons.mp hin).resolve_left (Ne.symm hne)) hfuel
    refine ⟨main, before', hmain', hstop, h.of_removed hmem ?_ ?_ ?_ ?_ ?_ ?_, ?_⟩
    · rw [ThreadLists.tQueue_kfree, ThreadLists.tQueue_setNextProcThread,
        ThreadLists.tQueue_setNext]
      apply hqueue
      intro u hu
      rw [ThreadLists.next_kfree_of_ne hu, ThreadLists.next_setNextProcThread]
    · rw [ThreadLists.mainThread_kfree, ThreadLists.mainThread_setNextProcThread,
        ThreadLists.mainThread_setNext, hmain', hthreads]
      apply hlinked
      · intro r _ hr hrt
        rw [ThreadLists.nextProcThread_kfree_of_ne hrt,
          ThreadLists.nextProcThread_setNextProcThread_of_ne hr,
          ThreadLists.nextProcThread_setNext]
      · rw [ThreadLists.nextProcThread_kfree_of_ne hbeforeT,
          ThreadLists.nextProcThread_setNextProcThread_self, ThreadLists.nextProcThread, hthread]
        · rfl
        · rw [ThreadLists.ownerProc_setNext, howned before' hbefore]
          rfl
    · intro q _
      rw [ThreadLists.mainThread_kfree, ThreadLists.mainThread_setNextProcThread,
        ThreadLists.mainThread_setNext]
    · intro u hu
      have hut : u ≠ t := fun heq => hu (heq ▸ (h.owners t p).mpr hmem)
      have hub : u ≠ before' := fun heq => hu (heq ▸ howned before' hbefore)
      rw [ThreadLists.nextProcThread_kfree_of_ne hut,
        ThreadLists.nextProcThread_setNextProcThread_of_ne hub,
        ThreadLists.nextProcThread_setNext]
    · intro u hu
      rw [ThreadLists.ownerProc_kfree_of_ne hu, ThreadLists.ownerProc_setNextProcThread,
        ThreadLists.ownerProc_setNext]
    · exact ThreadLists.ownerProc_kfree_self _ _
    · rw [hrest, List.erase_cons_tail (by simpa using hne)]
      exact List.cons_ne_nil _ _

end

/-- `remove_thread` takes a thread out of the queue and out of its chain, and calls `kill_process`
for its process when no other thread is left. -/
theorem Represents.removeThread (h : Represents s l) (hmem : ⟨t, p⟩ ∈ l)
    (hroot : s.tQueue ≠ some t) :
    ∃ s', s.removeThread t =
        some (s', if threadsOf (without l t) p = [] then some p else none) ∧
      Represents s' (without l t) := by
  obtain ⟨thread, hthread, howner⟩ := Option.map_eq_some_iff.mp ((h.owners t p).mpr hmem)
  obtain ⟨head, before, hhead, hstop, hqueue⟩ :=
    h.exists_before (List.mem_map_of_mem (f := Task.thread) hmem) hroot hthread
  simp only [ThreadLists.removeThread, hhead, hthread, hstop, Option.bind_some, howner,
    ThreadLists.mainThread_setNext, ThreadLists.nextProcThread_setNext]
  by_cases hmain : s.mainThread p = some t
  · obtain ⟨hrepresents, hlast⟩ := h.removeMain hmem hthread hmain hqueue
    rw [if_pos hmain]
    simp only [hlast]
    exact ⟨_, rfl, hrepresents⟩
  · obtain ⟨main, before', hmain', hstop', hrepresents, hmore⟩ :=
      h.removeOther hmem hthread hmain hqueue
    rw [if_neg hmain, if_neg hmore, hmain', Option.bind_some, hstop', Option.map_some]
    exact ⟨_, rfl, hrepresents⟩

end

inductive ListCall where
  | enqueueThread (t tid owner : ℕ)
  | removeThread (t : ℕ)

def listStep (s : ThreadLists × List ℕ) : ListCall → Option (ThreadLists × List ℕ)
  | .enqueueThread t tid owner =>
    ((s.1.setThread t ⟨tid, owner, none, none⟩).enqueueThread t).map fun s' => (s', s.2)
  | .removeThread t => (s.1.removeThread t).map fun r => (r.1, s.2 ++ r.2.toList)

def Permitted (s : ThreadLists × List ℕ) : ListCall → Prop
  | .enqueueThread t _ _ => s.1.ownerProc t = none
  | .removeThread t => (s.1.ownerProc t).isSome ∧ s.1.tQueue ≠ some t

instance (s : ThreadLists × List ℕ) : (c : ListCall) → Decidable (Permitted s c)
  | .enqueueThread _ _ _ => inferInstanceAs (Decidable (_ = _))
  | .removeThread _ => inferInstanceAs (Decidable (_ ∧ _))

def taskStep (l : List Task × List ℕ) : ListCall → Option (List Task × List ℕ)
  | .enqueueThread t _ owner => some (l.1 ++ [⟨t, owner⟩], l.2)
  | .removeThread t =>
    let left := without l.1 t
    let owner := (Keyed.lookup Task.thread l.1 t).map Task.owner
    some (left, l.2 ++ owner.toList.filter fun p => threadsOf left p = [])

def Tracks (root : Task) (s : ThreadLists × List ℕ) (l : List Task × List ℕ) : Prop :=
  Represents s.1 l.1 ∧ (∃ rest, l.1 = root :: rest) ∧ s.2 = l.2

theorem ThreadLists.lookup_start (root kernelProcess tid : ℕ) :
    (ThreadLists.start root kernelProcess tid).threads.lookup root =
      some ⟨tid, kernelProcess, none, none⟩ := AList.lookup_insert _

theorem represents_start (root kernelProcess tid : ℕ) :
    Represents (ThreadLists.start root kernelProcess tid) [⟨root, kernelProcess⟩] := by
  have hself := ThreadLists.lookup_start root kernelProcess tid
  have hother : ∀ u, u ≠ root →
      (ThreadLists.start root kernelProcess tid).threads.lookup u = none :=
    fun u hu => (AList.lookup_insert_ne hu).trans (AList.lookup_empty u)
  constructor
  · refine ⟨rfl, none, ?_, rfl⟩
    rw [ThreadLists.next, hself]
    rfl
  · intro p
    by_cases hp : p = kernelProcess
    · subst hp
      simp only [threadsOf, ThreadLists.start, decide_true, List.filter_cons_of_pos,
        List.filter_nil, List.map_cons, List.map_nil, if_pos]
      refine ⟨rfl, none, ?_, rfl⟩
      exact congrArg (Option.map Thread.nextProcThread) hself
    · simp [threadsOf, ThreadLists.start, hp, Ne.symm hp]
  · intro t p
    rw [List.mem_singleton, ThreadLists.ownerProc]
    by_cases ht : t = root
    · subst ht
      rw [hself]
      simp [eq_comm]
    · rw [hother t ht]
      simp [ht]

theorem Tracks.step {root : Task} {s : ThreadLists × List ℕ} {l : List Task × List ℕ}
    (h : Tracks root s l) {c : ListCall} (hc : Permitted s c) :
    ∃ s' l', listStep s c = some s' ∧ taskStep l c = some l' ∧ Tracks root s' l' := by
  obtain ⟨hrepresents, ⟨rest, hrest⟩, hkills⟩ := h
  cases c with
  | enqueueThread t tid owner =>
    have hne : l.1 ≠ [] := hrest ▸ List.cons_ne_nil _ _
    obtain ⟨s', hs', hrepresents'⟩ := hrepresents.enqueueThread hne hc tid owner
    refine ⟨(s', s.2), _, ?_, rfl, hrepresents', ⟨rest ++ [⟨t, owner⟩], ?_⟩, hkills⟩
    · rw [listStep, hs']
      rfl
    · rw [hrest]
      rfl
  | removeThread t =>
    obtain ⟨hlive, hroot⟩ := hc
    obtain ⟨p, hp⟩ := Option.isSome_iff_exists.mp hlive
    have hmem : (⟨t, p⟩ : Task) ∈ l.1 := (hrepresents.owners t p).mp hp
    obtain ⟨s', hs', hrepresents'⟩ := hrepresents.removeThread hmem hroot
    have hrootT : root.thread ≠ t := by
      intro heq
      have hqueue := hrepresents.queue
      rw [hrest] at hqueue
      exact hroot (heq ▸ hqueue.1)
    refine ⟨_, _, by rw [listStep, hs']; rfl, rfl, hrepresents', ⟨without rest t, ?_⟩, ?_⟩
    · rw [hrest, without, List.filter_cons_of_pos (by simpa using hrootT), without]
    · have howner : Keyed.lookup Task.thread l.1 t = some ⟨t, p⟩ :=
        Keyed.lookup_of_mem hrepresents.nodup_threads hmem
      simp only [hkills, howner]
      split_ifs with hlast <;> simp [hlast]

/-- In every sequence of calls on new threads and on threads in the queue, no call fails, the queue
starts with the kernel's first thread and has every live thread once, the chain of each process has
its live threads, both in the order in which they came, and a process is killed when its last
thread is removed. -/
theorem threadLists_track (root kernelProcess tid : ℕ) (cs : List ListCall)
    (hcs : Along listStep Permitted (ThreadLists.start root kernelProcess tid, []) cs) :
    ∃ s l, run listStep (ThreadLists.start root kernelProcess tid, []) cs = some s ∧
      run taskStep ([⟨root, kernelProcess⟩], []) cs = some l ∧
      Tracks ⟨root, kernelProcess⟩ s l ∧ (l.1.map Task.thread).Nodup := by
  have hstart : Tracks ⟨root, kernelProcess⟩ (ThreadLists.start root kernelProcess tid, [])
      ([⟨root, kernelProcess⟩], []) := ⟨represents_start _ _ _, ⟨[], rfl⟩, rfl⟩
  obtain ⟨s, l, hs, hl, htracks⟩ :=
    run_related (fun _ _ _ hc htracks => htracks.step hc) hcs hstart
  exact ⟨s, l, hs, hl, htracks, htracks.1.nodup_threads⟩

/-- A process with two threads ends with the second of them. -/
theorem threadLists_track_two_threads :
    ∃ s l, run listStep (ThreadLists.start 1 0 2, []) [.enqueueThread 5 4 9, .enqueueThread 6 7 0,
        .enqueueThread 7 8 9, .removeThread 5, .removeThread 7] = some s ∧
      l = ([⟨1, 0⟩, ⟨6, 0⟩], [9]) ∧ Tracks ⟨1, 0⟩ s l := by
  have hcs : Along listStep Permitted (ThreadLists.start 1 0 2, []) [.enqueueThread 5 4 9,
      .enqueueThread 6 7 0, .enqueueThread 7 8 9, .removeThread 5, .removeThread 7] := by
    decide +kernel
  obtain ⟨s, l, hs, hl, htracks, -⟩ := threadLists_track 1 0 2 _ hcs
  exact ⟨s, l, hs, (Option.some.inj hl).symm, htracks⟩

end BrickOS.Processes
