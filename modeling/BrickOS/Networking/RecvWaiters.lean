import BrickOS.Lib.Run
import Mathlib.Algebra.Order.Ring.Nat
import Mathlib.Data.List.Nodup
import Mathlib.Logic.Function.Basic

/-! Threads that wait in `generic_inet_recvfrom` for the packets of one socket. A step is what is
done while the lock of the socket is held, or a tick of the clock. -/
namespace BrickOS.Networking
open BrickOS.Lib

def threadEternalSleep : ℕ := 2 ^ 64 - 1

structure RecvCall where
  dontWait : Bool
  peek : Bool
  timeoutTick : ℕ
deriving DecidableEq, Repr

inductive RecvPhase
  | outside
  | woken (call : RecvCall)
  | blocked (call : RecvCall) (wakeupTick : ℕ)
deriving DecidableEq, Repr

namespace RecvPhase

def isWoken : RecvPhase → Bool
  | woken _ => true
  | outside | blocked _ _ => false

def isBlocked : RecvPhase → Bool
  | blocked _ _ => true
  | outside | woken _ => false

def wakeup : RecvPhase → RecvPhase
  | blocked call _ => woken call
  | outside => outside
  | woken call => woken call

/-- `manage_sleeping_threads`. -/
def manage (ticks : ℕ) : RecvPhase → RecvPhase
  | blocked call wakeupTick => if wakeupTick ≤ ticks then woken call else blocked call wakeupTick
  | outside => outside
  | woken call => woken call

end RecvPhase

/-- A socket with the lengths of the packets in `rx_queue`, the threads of the entries in
`wait_queue`, and where each thread stands. -/
structure RecvSocket where
  ticks : ℕ
  recvTimeout : ℕ
  recvMaxBufSize : ℕ
  rxQueue : List ℕ
  waitQueue : List ℕ
  phase : ℕ → RecvPhase

inductive RecvAction
  | recvfrom (thread : ℕ) (dontWait peek : Bool)
  | resume (thread : ℕ)
  | enqueueRxData (dataLen : ℕ)
  | bind
  | setRecvTimeout (recvTimeout : ℕ)
  | tick
deriving DecidableEq, Repr

namespace RecvSocket

def setPhase (s : RecvSocket) (thread : ℕ) (phase : RecvPhase) : RecvSocket :=
  { s with phase := Function.update s.phase thread phase }

def wakeupThread (s : RecvSocket) (thread : ℕ) : RecvSocket :=
  s.setPhase thread (s.phase thread).wakeup

/-- `generic_inet_recvfrom` from the condition of its loop to where it gives up the lock. -/
def recvLoop (s : RecvSocket) (thread : ℕ) (call : RecvCall) : RecvSocket :=
  match s.rxQueue with
  | [] =>
    if call.dontWait ∨ call.timeoutTick ≤ s.ticks then s.setPhase thread .outside
    else
      { s.setPhase thread (.blocked call
          (s.ticks + min (2 ^ 64 - 1 - s.ticks) s.recvTimeout)) with
        waitQueue := s.waitQueue ++ [thread] }
  | packet :: rest =>
    { s.setPhase thread .outside with rxQueue := if call.peek then packet :: rest else rest }

def timeoutTick (s : RecvSocket) : ℕ :=
  if s.recvTimeout = threadEternalSleep then threadEternalSleep
  else (s.ticks + s.recvTimeout) % 2 ^ 64

def enqueueRxData (s : RecvSocket) (dataLen : ℕ) : RecvSocket :=
  if s.recvMaxBufSize < (s.rxQueue.sum + dataLen) % 2 ^ 32 then s
  else
    let s := { s with rxQueue := s.rxQueue ++ [dataLen] }
    match s.waitQueue with
    | [] => s
    | thread :: rest => { s.wakeupThread thread with waitQueue := rest }

def bind (s : RecvSocket) : RecvSocket :=
  { s.waitQueue.foldl wakeupThread s with rxQueue := [], waitQueue := [] }

def tick (s : RecvSocket) : RecvSocket :=
  { s with ticks := s.ticks + 1, phase := fun thread => (s.phase thread).manage (s.ticks + 1) }

def step (s : RecvSocket) : RecvAction → Option RecvSocket
  | .recvfrom thread dontWait peek =>
    if s.phase thread = .outside then
      some (s.recvLoop thread ⟨dontWait, peek, s.timeoutTick⟩)
    else none
  | .resume thread =>
    match s.phase thread with
    | .woken call => some (s.recvLoop thread call)
    | .outside | .blocked _ _ => none
  | .enqueueRxData dataLen => some (s.enqueueRxData dataLen)
  | .bind => some s.bind
  | .setRecvTimeout recvTimeout => some { s with recvTimeout }
  | .tick => some s.tick

/-- The entries of `wait_queue` are the threads that are asleep, each once, and no packet lies in
the queue unheeded while a thread sleeps. -/
structure Attended (s : RecvSocket) : Prop where
  nodup : s.waitQueue.Nodup
  mem_waitQueue : ∀ thread, thread ∈ s.waitQueue ↔ (s.phase thread).isBlocked
  heeded : s.rxQueue ≠ [] → (∃ thread, (s.phase thread).isBlocked) →
    ∃ thread, (s.phase thread).isWoken

def PeekKept (s : RecvSocket) (peek : Bool) : Prop := peek → s.rxQueue = [] ∨ s.waitQueue = []

/-- No thread wakes up because its time has come, and packets are only looked at while no thread
waits. -/
def Kept (s : RecvSocket) : RecvAction → Prop
  | .recvfrom _ _ peek => s.PeekKept peek
  | .resume thread => ∀ call, s.phase thread = .woken call → s.PeekKept call.peek
  | .tick => ∀ thread call wakeupTick, s.phase thread = .blocked call wakeupTick →
      s.ticks + 1 < wakeupTick
  | .enqueueRxData _ | .bind | .setRecvTimeout _ => True

structure Sound (s : RecvSocket) : Prop where
  nodup : s.waitQueue.Nodup
  mem_waitQueue : ∀ thread, thread ∈ s.waitQueue ↔ (s.phase thread).isBlocked
  enough : ∃ woken : List ℕ, woken.Nodup ∧ (∀ thread ∈ woken, (s.phase thread).isWoken) ∧
    (s.waitQueue ≠ [] → s.rxQueue.length ≤ woken.length)

variable {s t : RecvSocket} {thread : ℕ}

theorem Sound.attended (h : s.Sound) : s.Attended := by
  refine ⟨h.nodup, h.mem_waitQueue, fun hpackets ⟨thread, hthread⟩ => ?_⟩
  obtain ⟨woken, -, hwoken, henough⟩ := h.enough
  have hle := henough (List.ne_nil_of_mem ((h.mem_waitQueue thread).mpr hthread))
  obtain ⟨u, hu⟩ := List.exists_mem_of_ne_nil woken fun hnil => by
    rw [hnil] at hle
    exact hpackets (List.eq_nil_of_length_eq_zero (Nat.le_zero.mp hle))
  exact ⟨u, hwoken u hu⟩

theorem sound_of_no_waiter (hqueue : s.waitQueue = [])
    (hawake : ∀ thread, (s.phase thread).isBlocked = false) : s.Sound := by
  refine ⟨hqueue ▸ List.nodup_nil, fun thread => ?_, [], List.nodup_nil, ?_,
    fun hne => absurd hqueue hne⟩
  · simp [hqueue, hawake thread]
  · exact fun thread hthread => absurd hthread List.not_mem_nil

/-- The thread looks at the queue; the others in `woken` still will. -/
theorem Sound.recvLoop {call : RecvCall} (h : s.Sound) (hawake : (s.phase thread).isBlocked = false)
    (hpeek : s.PeekKept call.peek) {woken : List ℕ} (hnodup : woken.Nodup) (hnot : thread ∉ woken)
    (hwoken : ∀ u ∈ woken, (s.phase u).isWoken)
    (henough : s.waitQueue ≠ [] → s.rxQueue.length ≤ woken.length + 1) :
    (s.recvLoop thread call).Sound := by
  have hother : ∀ u ∈ woken, u ≠ thread := fun u hu heq => hnot (heq ▸ hu)
  have hwaits : thread ∉ s.waitQueue := by
    rw [h.mem_waitQueue, hawake]
    exact Bool.false_ne_true
  have hkept : ∀ phase u, u ∈ woken → (Function.update s.phase thread phase u).isWoken :=
    fun phase u hu => by
      rw [Function.update_of_ne (hother u hu)]
      exact hwoken u hu
  have hmem : ∀ u, u ∈ s.waitQueue ↔
      (Function.update s.phase thread .outside u).isBlocked := by
    intro u
    by_cases hu : u = thread
    · simp [hu, hwaits, RecvPhase.isBlocked]
    · rw [Function.update_of_ne hu, h.mem_waitQueue]
  unfold RecvSocket.recvLoop
  split
  · next hnil =>
    split_ifs with hreturn
    · refine ⟨h.nodup, hmem, woken, hnodup, hkept _, fun _ => ?_⟩
      exact (congrArg List.length hnil).trans_le (Nat.zero_le _)
    · refine ⟨?_, fun u => ?_, woken, hnodup, hkept _, fun _ => ?_⟩
      · exact List.nodup_append.mpr ⟨h.nodup, List.nodup_singleton thread, fun a ha b hb => by
          rw [List.mem_singleton.mp hb]
          exact fun heq => hwaits (heq ▸ ha)⟩
      · simp only [setPhase, List.mem_append, List.mem_singleton]
        by_cases hu : u = thread
        · simp [hu, RecvPhase.isBlocked]
        · rw [Function.update_of_ne hu, h.mem_waitQueue]
          simp [hu]
      · exact (congrArg List.length hnil).trans_le (Nat.zero_le _)
  · next packet rest hcons =>
    refine ⟨h.nodup, hmem, woken, hnodup, hkept _, fun hne => ?_⟩
    have hle := henough hne
    rw [hcons, List.length_cons] at hle
    split_ifs with hp
    · exact absurd (hpeek hp) (by simp [hcons, show s.waitQueue ≠ [] from hne])
    · exact Nat.le_of_succ_le_succ hle

theorem isBlocked_foldl_wakeupThread (l : List ℕ) (u : ℕ) :
    ((l.foldl wakeupThread s).phase u).isBlocked ↔ (s.phase u).isBlocked ∧ u ∉ l := by
  induction l generalizing s with
  | nil => simp
  | cons thread l ih =>
    rw [List.foldl_cons, ih, wakeupThread, setPhase]
    by_cases hu : u = thread
    · subst hu
      cases s.phase u <;> simp [RecvPhase.wakeup, RecvPhase.isBlocked]
    · simp [hu]

theorem Sound.enqueueRxData (h : s.Sound) (dataLen : ℕ) : (s.enqueueRxData dataLen).Sound := by
  unfold RecvSocket.enqueueRxData
  split_ifs
  · exact h
  obtain ⟨woken, hnodup, hwoken, henough⟩ := h.enough
  dsimp only
  split
  · next hnil => exact ⟨h.nodup, h.mem_waitQueue, woken, hnodup, hwoken, fun hne => absurd hnil hne⟩
  · next thread rest hcons =>
    change s.waitQueue = thread :: rest at hcons
    have hkeys := hcons ▸ h.nodup
    obtain ⟨hnot, hrest⟩ := List.nodup_cons.mp hkeys
    have hblocked : (s.phase thread).isBlocked :=
      (h.mem_waitQueue thread).mp (hcons ▸ List.mem_cons_self)
    have hphase : ((s.phase thread).wakeup).isWoken ∧ ((s.phase thread).wakeup).isBlocked = false ∧
        (s.phase thread).isWoken = false := by
      cases hp : s.phase thread with
      | blocked call wakeupTick => exact ⟨rfl, rfl, rfl⟩
      | outside | woken call =>
        rw [hp] at hblocked
        cases hblocked
    have hfresh : thread ∉ woken := fun hmem => by
      rw [hwoken thread hmem] at hphase
      cases hphase.2.2
    refine ⟨hrest, fun u => ?_, thread :: woken, List.nodup_cons.mpr ⟨hfresh, hnodup⟩,
      fun u hu => ?_, fun _ => ?_⟩
    · change u ∈ rest ↔ (Function.update s.phase thread (s.phase thread).wakeup u).isBlocked
      by_cases hut : u = thread
      · simp [hut, hnot, hphase.2.1]
      · rw [Function.update_of_ne hut, ← h.mem_waitQueue, hcons, List.mem_cons]
        simp [hut]
    · change (Function.update s.phase thread (s.phase thread).wakeup u).isWoken
      by_cases hut : u = thread
      · rw [hut, Function.update_self]
        exact hphase.1
      · rw [Function.update_of_ne hut]
        exact hwoken u ((List.mem_cons.mp hu).resolve_left hut)
    · have hle := henough (by rw [hcons]; exact List.cons_ne_nil _ _)
      change (s.rxQueue ++ [dataLen]).length ≤ woken.length + 1
      rw [List.length_append, List.length_singleton]
      omega

theorem Sound.step {a : RecvAction} (h : s.Sound) (hkept : s.Kept a) (hstep : s.step a = some t) :
    t.Sound := by
  obtain ⟨woken, hnodup, hwoken, henough⟩ := h.enough
  cases a with
  | recvfrom thread dontWait peek =>
    rw [RecvSocket.step] at hstep
    split_ifs at hstep with houtside
    cases hstep
    have hnot : thread ∉ woken := fun hmem => by
      have := hwoken thread hmem
      rw [houtside] at this
      cases this
    exact h.recvLoop (by rw [houtside]; rfl) hkept hnodup hnot hwoken
      fun hne => (henough hne).trans (Nat.le_succ _)
  | resume thread =>
    rw [RecvSocket.step] at hstep
    split at hstep
    · next call hphase =>
      cases hstep
      refine h.recvLoop (by rw [hphase]; rfl) (hkept call hphase) (hnodup.erase thread)
        hnodup.not_mem_erase (fun u hu => hwoken u (List.mem_of_mem_erase hu)) fun hne => ?_
      have hle := henough hne
      have hlen := List.length_erase (a := thread) (l := woken)
      split_ifs at hlen <;> omega
    · cases hstep
    · cases hstep
  | enqueueRxData dataLen =>
    cases hstep
    exact h.enqueueRxData dataLen
  | bind =>
    cases hstep
    refine sound_of_no_waiter rfl fun u => Bool.eq_false_iff.mpr fun hu => ?_
    obtain ⟨hblocked, hnot⟩ := (isBlocked_foldl_wakeupThread s.waitQueue u).mp hu
    exact hnot ((h.mem_waitQueue u).mpr hblocked)
  | setRecvTimeout recvTimeout =>
    cases hstep
    exact ⟨h.nodup, h.mem_waitQueue, h.enough⟩
  | tick =>
    cases hstep
    have hsame : (fun thread => (s.phase thread).manage (s.ticks + 1)) = s.phase := by
      funext thread
      cases hphase : s.phase thread with
      | outside | woken call => rfl
      | blocked call wakeupTick =>
        exact if_neg (Nat.not_le_of_lt (hkept thread call wakeupTick hphase))
    rw [tick, hsame]
    exact ⟨h.nodup, h.mem_waitQueue, h.enough⟩

def idle (recvTimeout recvMaxBufSize : ℕ) : RecvSocket :=
  ⟨0, recvTimeout, recvMaxBufSize, [], [], fun _ => .outside⟩

/-- In every state of every run in which no time runs out and nothing is only looked at while a
thread waits, the waiting threads are attended to. -/
theorem attended_of_run {recvTimeout recvMaxBufSize : ℕ} {actions : List RecvAction}
    (hkept : Along RecvSocket.step Kept (idle recvTimeout recvMaxBufSize) actions)
    (hrun : run RecvSocket.step (idle recvTimeout recvMaxBufSize) actions = some s) :
    s.Attended := by
  have hsound : s.Sound :=
    run_invariant (fun _ _ _ hk hstep h => h.step hk hstep) hkept hrun
      (sound_of_no_waiter rfl fun _ => rfl)
  exact hsound.attended

/-- A thread waits for a packet and gets it. -/
theorem attended_of_run_woken : ∃ s, run RecvSocket.step (idle threadEternalSleep 100)
    [.recvfrom 1 false false, .enqueueRxData 3, .resume 1] = some s ∧ s.Attended := by
  have hpeek : ∀ s : RecvSocket, s.PeekKept false := fun _ h => absurd h Bool.false_ne_true
  have hkept : Along RecvSocket.step Kept (idle threadEternalSleep 100)
      [.recvfrom 1 false false, .enqueueRxData 3, .resume 1] := by
    refine along_cons rfl (hpeek _) (along_cons rfl trivial (along_cons rfl ?_ trivial))
    intro call hcall
    cases hcall
    exact hpeek _
  exact ⟨_, rfl, attended_of_run hkept rfl⟩

/-- The entry of a thread whose time ran out takes the wake-up that another thread waits for. -/
theorem not_attended_timeout : ∃ s, run RecvSocket.step (idle 2 100)
    [.recvfrom 1 false false, .tick, .recvfrom 2 false false, .tick, .resume 1,
      .enqueueRxData 3] = some s ∧ ¬ s.Attended := by
  refine ⟨_, rfl, fun h => ?_⟩
  obtain ⟨u, hu⟩ := h.heeded (List.cons_ne_nil _ _) ⟨2, rfl⟩
  by_cases h1 : u = 1
  · subst h1
    cases hu
  by_cases h2 : u = 2
  · subst h2
    cases hu
  simp [RecvSocket.enqueueRxData, RecvSocket.recvLoop, tick, idle, setPhase, wakeupThread,
    RecvPhase.manage, RecvPhase.isWoken, timeoutTick, threadEternalSleep, h1, h2] at hu

end RecvSocket

end BrickOS.Networking
