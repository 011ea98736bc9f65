import BrickOS.Lib.Deadlock
import BrickOS.Networking.Sockets
import Mathlib.Data.Fintype.Basic

/-! The locks of the UDP sockets: `udp_sock_queue_lock` and the lock in each socket. Any number of
threads are each at some point of `insert_socket`, `udp_bind`, `udp_handle_packet` or
`cleanup_socket`; the points lie between two accesses to a lock. -/
namespace BrickOS.Networking
open BrickOS.Lib

/-- Where a thread is. A point named after a wait is the one before the lock is taken. -/
inductive UdpPoint where
  | idle
  | insertWait
  | insertLink
  | bindWaitSock (sock ipAddr port : ℕ)
  | bindWaitQueue (sock ipAddr port : ℕ)
  | bindCheck (sock ipAddr port : ℕ)
  | bindAssign (sock ipAddr port : ℕ)
  | bindFail (sock : ℕ)
  | bindDone (sock : ℕ)
  | handleWaitQueue (ipAddr port : ℕ)
  | handleFind (ipAddr port : ℕ)
  | handleWaitSock (sock : ℕ)
  | handleLocked (sock : ℕ)
  | handleEnqueue (sock : ℕ)
  | cleanupWaitQueue (sock : ℕ)
  | cleanupUnlink (sock : ℕ)
  | cleanupWaitSock (sock : ℕ)
  | cleanupLocked (sock : ℕ)
  | cleanupFree (sock : ℕ)
deriving DecidableEq, Repr

inductive UdpLock where
  | queue
  | sock (sock : ℕ)
deriving DecidableEq, Repr

namespace UdpPoint

def waits : UdpPoint → Option UdpLock
  | insertWait | bindWaitQueue _ _ _ | handleWaitQueue _ _ | cleanupWaitQueue _ => some .queue
  | bindWaitSock sock _ _ | handleWaitSock sock | cleanupWaitSock sock => some (.sock sock)
  | _ => none

def holdsQueue : UdpPoint → Bool
  | insertLink | bindCheck _ _ _ | handleFind _ _ | handleWaitSock _ | handleLocked _
  | cleanupUnlink _ | cleanupWaitSock _ | cleanupLocked _ => true
  | _ => false

def holdsSock : UdpPoint → Option ℕ
  | bindWaitQueue sock _ _ | bindCheck sock _ _ | bindAssign sock _ _ | bindFail sock
  | bindDone sock | handleLocked sock | handleEnqueue sock | cleanupLocked sock
  | cleanupFree sock => some sock
  | _ => none

def Holds (point : UdpPoint) : UdpLock → Prop
  | .queue => point.holdsQueue
  | .sock sock => point.holdsSock = some sock

def wantsSock : UdpPoint → Option ℕ
  | handleWaitSock sock | cleanupWaitSock sock => some sock
  | _ => none

def wantsQueue : UdpPoint → Option ℕ
  | bindWaitQueue sock _ _ => some sock
  | _ => none

def bindSock : UdpPoint → Option ℕ
  | bindWaitSock sock _ _ => some sock
  | _ => none

def rank : UdpPoint → ℕ
  | bindWaitSock _ _ _ => 3
  | insertWait | bindWaitQueue _ _ _ | handleWaitQueue _ _ | cleanupWaitQueue _ => 2
  | handleWaitSock _ | cleanupWaitSock _ => 1
  | _ => 0

theorem rank_of_waits_of_holdsQueue {point : UdpPoint} {lock : UdpLock}
    (hwaits : point.waits = some lock) (hqueue : point.holdsQueue) : point.rank = 1 := by
  cases point <;> simp_all [waits, holdsQueue, rank]

theorem wantsQueue_of_waits_of_holdsSock {point : UdpPoint} {lock : UdpLock} {sock : ℕ}
    (hwaits : point.waits = some lock) (hsock : point.holdsSock = some sock) :
    point.wantsQueue = some sock ∧ point.rank = 2 := by
  cases point <;> simp_all [waits, holdsSock, wantsQueue, rank]

theorem rank_of_waits_queue {point : UdpPoint} (hwaits : point.waits = some .queue) :
    point.rank = 2 := by
  cases point <;> simp_all [waits, rank]

theorem rank_of_waits_sock {point : UdpPoint} {sock : ℕ} (hwaits : point.waits = some (.sock sock)) :
    point.rank = 3 ∨ point.wantsSock = some sock := by
  cases point <;> simp_all [waits, wantsSock, rank]

theorem wantsQueue_of_wantsSock {point : UdpPoint} {sock : ℕ}
    (h : point.wantsSock = some sock) : point.wantsQueue = none := by
  cases point <;> simp_all [wantsSock, wantsQueue]

end UdpPoint

/-- `n` threads and the UDP sockets. `bound` says that `udp_bind` has returned success on the
socket. -/
structure UdpWorld (n : ℕ) where
  base : SocketBase
  bound : ℕ → Bool
  freed : ℕ → Bool
  queueLock : Option (Fin n)
  sockLock : ℕ → Option (Fin n)
  point : Fin n → UdpPoint

inductive UdpAction (n : ℕ) where
  | insertSocket (t : Fin n)
  | bind (t : Fin n) (sock ipAddr port : ℕ)
  | handlePacket (t : Fin n) (ipAddr port : ℕ)
  | cleanupSocket (t : Fin n) (sock : ℕ)
  | go (t : Fin n)
deriving DecidableEq, Repr

namespace UdpWorld

variable {n : ℕ}

def moveTo (w : UdpWorld n) (t : Fin n) (point : UdpPoint) : UdpWorld n :=
  { w with point := Function.update w.point t point }

def acquireQueue (w : UdpWorld n) (t : Fin n) (point : UdpPoint) : Option (UdpWorld n) :=
  if w.queueLock = none then some { w.moveTo t point with queueLock := some t } else none

def releaseQueue (w : UdpWorld n) (t : Fin n) (point : UdpPoint) : UdpWorld n :=
  { w.moveTo t point with queueLock := none }

def acquireSock (w : UdpWorld n) (t : Fin n) (sock : ℕ) (point : UdpPoint) :
    Option (UdpWorld n) :=
  if w.sockLock sock = none ∧ w.freed sock = false then
    some { w.moveTo t point with sockLock := Function.update w.sockLock sock (some t) }
  else none

def releaseSock (w : UdpWorld n) (t : Fin n) (sock : ℕ) (point : UdpPoint) : UdpWorld n :=
  { w.moveTo t point with sockLock := Function.update w.sockLock sock none }

def go (w : UdpWorld n) (t : Fin n) : Option (UdpWorld n) :=
  match w.point t with
  | .idle => none
  | .insertWait => w.acquireQueue t .insertLink
  | .insertLink => some { w.releaseQueue t .idle with
      base := w.base.insertSocket .udp 0
      bound := Function.update w.bound w.base.nextSock false }
  | .bindWaitSock sock ipAddr port => w.acquireSock t sock (.bindWaitQueue sock ipAddr port)
  | .bindWaitQueue sock ipAddr port => w.acquireQueue t (.bindCheck sock ipAddr port)
  | .bindCheck sock ipAddr port =>
    if w.base.isUdpPortUsed port then some (w.releaseQueue t (.bindFail sock))
    else some (w.releaseQueue t (.bindAssign sock ipAddr port))
  | .bindAssign sock ipAddr port =>
    some { w.moveTo t (.bindDone sock) with base := w.base.bind sock ipAddr port }
  | .bindFail sock => some (w.releaseSock t sock .idle)
  | .bindDone sock =>
    some { w.releaseSock t sock .idle with bound := Function.update w.bound sock true }
  | .handleWaitQueue ipAddr port => w.acquireQueue t (.handleFind ipAddr port)
  | .handleFind ipAddr port =>
    match w.base.findTargetUdpSocket ipAddr port with
    | none => some (w.releaseQueue t .idle)
    | some sock => some (w.moveTo t (.handleWaitSock sock))
  | .handleWaitSock sock => w.acquireSock t sock (.handleLocked sock)
  | .handleLocked sock => some (w.releaseQueue t (.handleEnqueue sock))
  | .handleEnqueue sock => some (w.releaseSock t sock .idle)
  | .cleanupWaitQueue sock => w.acquireQueue t (.cleanupUnlink sock)
  | .cleanupUnlink sock =>
    -- with an empty list the code follows a null pointer
    if w.base.chain .udp = [] then none
    else if sock ∈ w.base.chain .udp then
      some { w.moveTo t (.cleanupWaitSock sock) with base := w.base.removeSocket sock }
    else some (w.releaseQueue t .idle)
  | .cleanupWaitSock sock => w.acquireSock t sock (.cleanupLocked sock)
  | .cleanupLocked sock => some (w.releaseQueue t (.cleanupFree sock))
  | .cleanupFree sock =>
    some { w.releaseSock t sock .idle with freed := Function.update w.freed sock true }

def step (w : UdpWorld n) : UdpAction n → Option (UdpWorld n)
  | .insertSocket t => if w.point t = .idle then some (w.moveTo t .insertWait) else none
  | .bind t sock ipAddr port =>
    if w.point t = .idle ∧ sock < w.base.nextSock ∧ w.freed sock = false then
      some (w.moveTo t (.bindWaitSock sock ipAddr port))
    else none
  | .handlePacket t ipAddr port =>
    if w.point t = .idle then some (w.moveTo t (.handleWaitQueue ipAddr port)) else none
  | .cleanupSocket t sock =>
    if w.point t = .idle ∧ sock < w.base.nextSock ∧ w.freed sock = false then
      some (w.moveTo t (.cleanupWaitQueue sock))
    else none
  | .go t => w.go t

def init : UdpWorld n where
  base := SocketTable.init.base
  bound := fun _ => false
  freed := fun _ => false
  queueLock := none
  sockLock := fun _ => none
  point := fun _ => .idle

def holder (w : UdpWorld n) : UdpLock → Option (Fin n)
  | .queue => w.queueLock
  | .sock sock => w.sockLock sock

structure LocksHeld (w : UdpWorld n) : Prop where
  queue : ∀ t, w.queueLock = some t ↔ (w.point t).holdsQueue
  sock : ∀ sock t, w.sockLock sock = some t ↔ (w.point t).holdsSock = some sock

section LocksHeld

variable {w w' : UdpWorld n} {t : Fin n} {sock : ℕ} {point : UdpPoint}

theorem locksHeld_iff :
    w.LocksHeld ↔ ∀ lock t, w.holder lock = some t ↔ (w.point t).Holds lock := by
  constructor
  · intro h lock
    cases lock with
    | queue => exact h.queue
    | sock k => exact h.sock k
  · intro h
    exact ⟨h .queue, fun k => h (.sock k)⟩

structure Moved (w w' : UdpWorld n) (t : Fin n) (next : UdpPoint) : Prop where
  point : w'.point = Function.update w.point t next
  lock : ∀ lock, (w'.holder lock = w.holder lock ∧ (next.Holds lock ↔ (w.point t).Holds lock)) ∨
    (w.holder lock = none ∧ w'.holder lock = some t ∧ next.Holds lock) ∨
    (w'.holder lock = none ∧ (w.point t).Holds lock ∧ ¬ next.Holds lock)

theorem LocksHeld.moved (h : w.LocksHeld) (hmoved : Moved w w' t point) : w'.LocksHeld := by
  rw [locksHeld_iff] at h ⊢
  intro lock u
  have hlock := h lock u
  rw [hmoved.point]
  by_cases hu : u = t
  · subst hu
    rw [Function.update_self]
    obtain ⟨hsame, hiff⟩ | ⟨-, hnew, hholds⟩ | ⟨hnone, -, hnot⟩ := hmoved.lock lock
    · rw [hsame, hlock, hiff]
    · simp [hnew, hholds]
    · simp [hnone, hnot]
  · rw [Function.update_of_ne hu]
    obtain ⟨hsame, -⟩ | ⟨hfree, hnew, -⟩ | ⟨hnone, hheld, -⟩ := hmoved.lock lock
    · rw [hsame, hlock]
    · rw [hfree] at hlock
      simp [hnew, ← hlock, Ne.symm hu]
    · -- the thread that gives the lock back was its only holder
      rw [(h lock t).mpr hheld] at hlock
      simp [hnone, ← hlock, Ne.symm hu]

/-! The shapes of the steps; `w'` may differ from `w` in the sockets too. -/

theorem Moved.keep (hpoint : w'.point = Function.update w.point t point)
    (hholder : w'.holder = w.holder) (hqueue : point.holdsQueue = (w.point t).holdsQueue)
    (hsock : point.holdsSock = (w.point t).holdsSock) : Moved w w' t point := by
  refine ⟨hpoint, fun lock => .inl ⟨congrFun hholder lock, ?_⟩⟩
  cases lock with
  | queue => simp [UdpPoint.Holds, hqueue]
  | sock k => simp [UdpPoint.Holds, hsock]

theorem Moved.acquireQueue (h : w.acquireQueue t point = some w') (hqueue : point.holdsQueue)
    (hsock : point.holdsSock = (w.point t).holdsSock) : Moved w w' t point := by
  obtain ⟨hfree, hw⟩ := Option.ite_none_right_eq_some.mp h
  cases hw
  refine ⟨rfl, fun lock => ?_⟩
  cases lock with
  | queue => exact .inr (.inl ⟨hfree, rfl, hqueue⟩)
  | sock k => exact .inl ⟨rfl, by simp [UdpPoint.Holds, hsock]⟩

theorem Moved.releaseQueue (hpoint : w'.point = Function.update w.point t point)
    (hnone : w'.queueLock = none) (hsame : w'.sockLock = w.sockLock)
    (hheld : (w.point t).holdsQueue) (hqueue : point.holdsQueue = false)
    (hsock : point.holdsSock = (w.point t).holdsSock) : Moved w w' t point := by
  refine ⟨hpoint, fun lock => ?_⟩
  cases lock with
  | queue => exact .inr (.inr ⟨hnone, hheld, by simp [UdpPoint.Holds, hqueue]⟩)
  | sock k => exact .inl ⟨congrFun hsame k, by simp [UdpPoint.Holds, hsock]⟩

theorem Moved.acquireSock (h : w.acquireSock t sock point = some w')
    (hqueue : point.holdsQueue = (w.point t).holdsQueue) (hnone : (w.point t).holdsSock = none)
    (hsock : point.holdsSock = some sock) : Moved w w' t point := by
  obtain ⟨⟨hfree, -⟩, hw⟩ := Option.ite_none_right_eq_some.mp h
  cases hw
  refine ⟨rfl, fun lock => ?_⟩
  cases lock with
  | queue => exact .inl ⟨rfl, by simp [UdpPoint.Holds, hqueue]⟩
  | sock k =>
    by_cases hk : k = sock
    · subst hk
      exact .inr (.inl ⟨hfree, Function.update_self .., hsock⟩)
    · refine .inl ⟨Function.update_of_ne hk .., ?_⟩
      simp [UdpPoint.Holds, hsock, hnone, Ne.symm hk]

theorem Moved.releaseSock (hpoint : w'.point = Function.update w.point t point)
    (hsame : w'.queueLock = w.queueLock) (hgone : w'.sockLock = Function.update w.sockLock sock none)
    (hheld : (w.point t).holdsSock = some sock)
    (hqueue : point.holdsQueue = (w.point t).holdsQueue) (hsock : point.holdsSock = none) :
    Moved w w' t point := by
  refine ⟨hpoint, fun lock => ?_⟩
  cases lock with
  | queue => exact .inl ⟨hsame, by simp [UdpPoint.Holds, hqueue]⟩
  | sock k =>
    by_cases hk : k = sock
    · subst hk
      refine .inr (.inr ⟨?_, hheld, by simp [UdpPoint.Holds, hsock]⟩)
      exact (congrFun hgone k).trans (Function.update_self ..)
    · refine .inl ⟨(congrFun hgone k).trans (Function.update_of_ne hk ..), ?_⟩
      simp [UdpPoint.Holds, hsock, hheld, Ne.symm hk]

theorem locksHeld_init : (init : UdpWorld n).LocksHeld := by
  constructor
  · intro t
    simp [init, UdpPoint.holdsQueue]
  · intro sock t
    simp [init, UdpPoint.holdsSock]

end LocksHeld

def foundSock (b : SocketBase) : UdpPoint → Option ℕ
  | .handleFind ipAddr port => b.findTargetUdpSocket ipAddr port
  | .cleanupUnlink sock => if sock ∈ b.chain .udp then some sock else none
  | _ => none

/-- The two locks are not taken in both orders at once: no thread has the lock of a socket and goes
for `udp_sock_queue_lock` while another has that one and goes for the lock of the socket. -/
def Ordered (w : UdpWorld n) : UdpAction n → Prop
  | .go t =>
    (∀ sock ∈ (w.point t).bindSock, ∀ u, (w.point u).wantsSock ≠ some sock) ∧
      ∀ sock ∈ foundSock w.base (w.point t), ∀ u, (w.point u).wantsQueue ≠ some sock
  | _ => True

instance (w : UdpWorld n) : (a : UdpAction n) → Decidable (w.Ordered a)
  | .go _ => inferInstanceAs (Decidable ((∀ sock ∈ _, ∀ _, _) ∧ ∀ sock ∈ _, ∀ _, _))
  | .insertSocket _ | .bind _ _ _ _ | .handlePacket _ _ _ | .cleanupSocket _ _ =>
    inferInstanceAs (Decidable True)

def Apart (w : UdpWorld n) : Prop :=
  ∀ t u sock, (w.point t).wantsSock = some sock → (w.point u).wantsQueue ≠ some sock

theorem not_deadlocked {w : UdpWorld n} (hlocks : w.LocksHeld) (hapart : w.Apart) :
    ¬ Deadlocked (fun t => (w.point t).waits) w.holder := by
  apply not_deadlocked_of_rank fun t => (w.point t).rank
  rintro t u v ⟨lock, hwaits, hholder⟩ ⟨lock', hwaits', -⟩
  cases lock with
  | queue =>
    have hu := UdpPoint.rank_of_waits_of_holdsQueue hwaits' ((hlocks.queue u).mp hholder)
    rw [hu, UdpPoint.rank_of_waits_queue hwaits]
    decide
  | sock k =>
    obtain ⟨hqueue, hu⟩ := UdpPoint.wantsQueue_of_waits_of_holdsSock hwaits'
      ((hlocks.sock k u).mp hholder)
    obtain ht | ht := UdpPoint.rank_of_waits_sock hwaits
    · rw [hu, ht]
      decide
    · exact absurd hqueue (hapart t u k ht)

section Points

variable {w w' : UdpWorld n} {t : Fin n} {point : UdpPoint}

theorem moved_go (hstep : w.go t = some w') :
    ∃ point, Moved w w' t point ∧
      (∀ sock, point.wantsSock = some sock → foundSock w.base (w.point t) = some sock) ∧
      ∀ sock, point.wantsQueue = some sock → (w.point t).bindSock = some sock := by
  rw [UdpWorld.go] at hstep
  cases hpoint : w.point t
  all_goals simp only [hpoint] at hstep
  case idle => cases hstep
  case insertWait | bindWaitQueue | handleWaitQueue | cleanupWaitQueue =>
    exact ⟨_, .acquireQueue hstep rfl (by rw [hpoint]; rfl), nofun, nofun⟩
  case bindWaitSock | handleWaitSock | cleanupWaitSock =>
    refine ⟨_, .acquireSock hstep ?_ ?_ rfl, nofun, fun k hk => hk⟩
    all_goals rw [hpoint]; rfl
  case insertLink | handleLocked | cleanupLocked =>
    cases hstep
    refine ⟨_, .releaseQueue rfl rfl rfl ?_ rfl ?_, nofun, nofun⟩
    all_goals rw [hpoint]; rfl
  case bindFail | bindDone | handleEnqueue | cleanupFree =>
    cases hstep
    refine ⟨_, .releaseSock rfl rfl rfl ?_ ?_ rfl, nofun, nofun⟩
    all_goals rw [hpoint]; rfl
  case bindAssign =>
    cases hstep
    refine ⟨_, .keep rfl rfl ?_ ?_, nofun, nofun⟩
    all_goals rw [hpoint]; rfl
  case bindCheck =>
    split at hstep
    all_goals
      cases hstep
      refine ⟨_, .releaseQueue rfl rfl rfl ?_ rfl ?_, nofun, nofun⟩
      all_goals rw [hpoint]; rfl
  case handleFind =>
    split at hstep
    case h_1 =>
      cases hstep
      refine ⟨_, .releaseQueue rfl rfl rfl ?_ rfl ?_, nofun, nofun⟩
      all_goals rw [hpoint]; rfl
    case h_2 sock hfind =>
      cases hstep
      refine ⟨_, .keep rfl rfl ?_ ?_, fun k hk => hfind.trans hk, nofun⟩
      all_goals rw [hpoint]; rfl
  case cleanupUnlink sock =>
    split_ifs at hstep with hempty hmem
    · cases hstep
      refine ⟨_, .keep rfl rfl ?_ ?_, fun k hk => (if_pos hmem).trans hk, nofun⟩
      all_goals rw [hpoint]; rfl
    · cases hstep
      refine ⟨_, .releaseQueue rfl rfl rfl ?_ rfl ?_, nofun, nofun⟩
      all_goals rw [hpoint]; rfl

theorem moved_step {a : UdpAction n} (hstep : w.step a = some w') :
    ∃ t point, Moved w w' t point ∧
      (∀ sock, point.wantsSock = some sock →
        a = .go t ∧ foundSock w.base (w.point t) = some sock) ∧
      ∀ sock, point.wantsQueue = some sock → a = .go t ∧ (w.point t).bindSock = some sock := by
  cases a
  case go t =>
    obtain ⟨point, hmoved, hfound, hbind⟩ := moved_go hstep
    exact ⟨t, point, hmoved, fun k hk => ⟨rfl, hfound k hk⟩, fun k hk => ⟨rfl, hbind k hk⟩⟩
  all_goals
    -- a call sets an idle thread to its first point
    obtain ⟨hguard, hw⟩ := Option.ite_none_right_eq_some.mp hstep
    cases hw
    refine ⟨_, _, .keep rfl rfl ?_ ?_, nofun, nofun⟩
    all_goals simp [hguard, UdpPoint.holdsQueue, UdpPoint.holdsSock]

theorem Apart.moved (h : w.Apart) (hpoint : w'.point = Function.update w.point t point)
    (hsock : ∀ sock, point.wantsSock = some sock → ∀ u, (w.point u).wantsQueue ≠ some sock)
    (hqueue : ∀ sock, point.wantsQueue = some sock → ∀ u, (w.point u).wantsSock ≠ some sock) :
    w'.Apart := by
  intro u v sock hu hv
  rw [hpoint] at hu hv
  by_cases hut : u = t
  · rw [hut, Function.update_self] at hu
    by_cases hvt : v = t
    · rw [hvt, Function.update_self, UdpPoint.wantsQueue_of_wantsSock hu] at hv
      cases hv
    · rw [Function.update_of_ne hvt] at hv
      exact hsock sock hu v hv
  · rw [Function.update_of_ne hut] at hu
    by_cases hvt : v = t
    · rw [hvt, Function.update_self] at hv
      exact hqueue sock hv u hu
    · rw [Function.update_of_ne hvt] at hv
      exact h u v sock hu hv

theorem Apart.step {a : UdpAction n} (h : w.Apart) (hordered : w.Ordered a)
    (hstep : w.step a = some w') : w'.Apart := by
  obtain ⟨t, point, hmoved, hfound, hbind⟩ := moved_step hstep
  refine h.moved hmoved.point (fun sock hsock => ?_) fun sock hsock => ?_
  · obtain ⟨rfl, hwants⟩ := hfound sock hsock
    exact hordered.2 sock hwants
  · obtain ⟨rfl, hwants⟩ := hbind sock hsock
    exact hordered.1 sock hwants

theorem LocksHeld.step {a : UdpAction n} (h : w.LocksHeld) (hstep : w.step a = some w') :
    w'.LocksHeld := by
  obtain ⟨t, point, hmoved, -⟩ := moved_step hstep
  exact h.moved hmoved

end Points

/-- There is no deadlock as long as the two locks are not taken in both orders at once. -/
theorem udp_deadlock_free {as : List (UdpAction n)} {w : UdpWorld n}
    (h : Along step Ordered init as) (hrun : run step init as = some w) :
    ¬ Deadlocked (fun t => (w.point t).waits) w.holder := by
  obtain ⟨hlocks, hapart⟩ := run_invariant (I := fun w => w.LocksHeld ∧ w.Apart)
    (fun _ _ _ hordered hstep hI => ⟨hI.1.step hstep, hI.2.step hordered hstep⟩)
    h hrun ⟨locksHeld_init, fun _ _ _ hwants => nomatch hwants⟩
  exact not_deadlocked hlocks hapart

def first : Fin 2 := 0

def second : Fin 2 := 1

def received : List (UdpAction 2) :=
  [.insertSocket first, .go first, .go first, .bind first 0 0 9, .handlePacket second 7 9,
    .go first, .go first, .go first, .go first, .go first, .go second, .go second, .go second,
    .cleanupSocket first 0, .go second, .go second, .go first, .go first, .go first, .go first,
    .go first]

theorem udp_deadlock_free_received :
    ∃ w, Along step Ordered init received ∧ run step init received = some w ∧
      ¬ Deadlocked (fun t => (w.point t).waits) w.holder := by
  have h : Along step Ordered init received := by decide +kernel
  obtain ⟨w, hrun, -⟩ := Option.map_eq_some_iff.mp
    (by decide +kernel : (run step init received).map (fun _ => ()) = some ())
  exact ⟨w, h, hrun, udp_deadlock_free h hrun⟩

def rebound : List (UdpAction 2) :=
  [.insertSocket first, .go first, .go first, .bind first 0 0 9, .go first, .go first, .go first,
    .go first, .go first, .bind first 0 0 10, .go first, .handlePacket second 7 9, .go second,
    .go second]

theorem udp_bind_deadlock :
    ∃ w, run step init rebound = some w ∧
      Deadlocked (fun t => (w.point t).waits) w.holder := by
  obtain ⟨w, hrun, hval⟩ := Option.map_eq_some_iff.mp (by decide +kernel : (run step init
    rebound).map (fun w => (w.point 0, w.point 1, w.queueLock, w.sockLock 0)) =
      some (.bindWaitQueue 0 0 10, .handleWaitSock 0, some 1, some 0))
  simp only [Prod.mk.injEq] at hval
  obtain ⟨h0, h1, hqueue, hsock⟩ := hval
  refine ⟨w, hrun, Set.univ, Set.univ_nonempty, fun t _ => ?_⟩
  match t with
  | 0 => exact ⟨1, trivial, by decide, .queue, congrArg UdpPoint.waits h0, hqueue⟩
  | 1 => exact ⟨0, trivial, by decide, .sock 0, congrArg UdpPoint.waits h1, hsock⟩

end UdpWorld

end BrickOS.Networking
