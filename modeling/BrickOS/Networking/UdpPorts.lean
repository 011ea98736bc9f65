import BrickOS.Networking.UdpLocks

/-! The ports of the UDP sockets. `udp_bind` looks for a free port under `udp_sock_queue_lock` and
writes it to its socket after that lock was given back. -/
namespace BrickOS.Networking
open BrickOS.Lib

namespace UdpPoint

def bindTarget : UdpPoint → Option ℕ
  | bindWaitSock sock _ _ | bindWaitQueue sock _ _ | bindCheck sock _ _ | bindAssign sock _ _
  | bindFail sock | bindDone sock => some sock
  | _ => none

def checkedPort : UdpPoint → Option ℕ
  | bindCheck _ _ port => some port
  | _ => none

def pendingPort : UdpPoint → Option ℕ
  | bindAssign _ _ port => some port
  | _ => none

def doneSock : UdpPoint → Option ℕ
  | bindDone sock => some sock
  | _ => none

theorem bindTarget_of_doneSock {point : UdpPoint} {sock : ℕ} (h : point.doneSock = some sock) :
    point.bindTarget = some sock := by
  cases point <;> simp_all [doneSock, bindTarget]

end UdpPoint

namespace UdpWorld

variable {n : ℕ} {w w' : UdpWorld n} {t : Fin n} {point : UdpPoint}

def port (w : UdpWorld n) (sock : ℕ) : ℕ := (w.base.info sock).port

def Assigned (w : UdpWorld n) (sock : ℕ) : Prop :=
  w.bound sock ∨ ∃ t, (w.point t).doneSock = some sock

/-- When a port is found free, no other thread is about to write the same one. -/
def Lone (w : UdpWorld n) : UdpAction n → Prop
  | .go t => ∀ port ∈ (w.point t).checkedPort, w.base.isUdpPortUsed port = false →
      ∀ u, (w.point u).pendingPort ≠ some port
  | _ => True

instance (w : UdpWorld n) : (a : UdpAction n) → Decidable (w.Lone a)
  | .go _ => inferInstanceAs (Decidable (∀ port ∈ _, _ → ∀ _, _))
  | .insertSocket _ | .bind _ _ _ _ | .handlePacket _ _ _ | .cleanupSocket _ _ =>
    inferInstanceAs (Decidable True)

structure Distinct (w : UdpWorld n) : Prop where
  kind : ∀ sock, (w.base.info sock).kind = .udp
  chain_lt : ∀ sock ∈ w.base.chain .udp, sock < w.base.nextSock
  bound_lt : ∀ sock, w.bound sock → sock < w.base.nextSock
  target_lt : ∀ t sock, (w.point t).bindTarget = some sock → sock < w.base.nextSock
  ports : ∀ k ∈ w.base.chain .udp, ∀ j ∈ w.base.chain .udp, w.Assigned k → w.Assigned j →
    w.port k = w.port j → k = j
  pending : ∀ t sock ipAddr port, w.point t = .bindAssign sock ipAddr port →
    ∀ j ∈ w.base.chain .udp, w.Assigned j → w.port j = port → j = sock
  alone : ∀ t u port, (w.point t).pendingPort = some port → (w.point u).pendingPort = some port →
    t = u

theorem distinct_init : (init : UdpWorld n).Distinct where
  kind := fun _ => rfl
  chain_lt := fun _ h => absurd h List.not_mem_nil
  bound_lt := nofun
  target_lt := nofun
  ports := fun _ h => absurd h List.not_mem_nil
  pending := nofun
  alone := nofun

theorem Distinct.assigned_lt (h : w.Distinct) {sock : ℕ} (hsock : w.Assigned sock) :
    sock < w.base.nextSock := by
  obtain hbound | ⟨t, ht⟩ := hsock
  · exact h.bound_lt sock hbound
  · exact h.target_lt t sock (UdpPoint.bindTarget_of_doneSock ht)

/-- A thread moves on and no port is written; a port that it found free is free. -/
theorem Distinct.moved (h : w.Distinct) (hpoint : w'.point = Function.update w.point t point)
    (hkind : ∀ sock, (w'.base.info sock).kind = .udp)
    (hlt : ∀ sock ∈ w'.base.chain .udp, sock < w'.base.nextSock)
    (hnext : w.base.nextSock ≤ w'.base.nextSock)
    (hassigned : ∀ sock, w'.Assigned sock → w.Assigned sock)
    (hchain : ∀ sock ∈ w'.base.chain .udp, w'.Assigned sock → sock ∈ w.base.chain .udp)
    (hport : ∀ sock, w'.Assigned sock → w'.port sock = w.port sock)
    (htarget : ∀ sock, point.bindTarget = some sock → sock < w.base.nextSock)
    (hfree : ∀ port, point.pendingPort = some port →
      (∀ j ∈ w.base.chain .udp, w.port j ≠ port) ∧ ∀ u, (w.point u).pendingPort ≠ some port) :
    w'.Distinct := by
  refine ⟨hkind, hlt, fun sock hsock => ?_, fun u sock hu => ?_, fun k hk j hj hak haj heq => ?_,
    fun u sock ipAddr port hu j hj haj heq => ?_, fun u v port hu hv => ?_⟩
  · exact Nat.lt_of_lt_of_le (h.assigned_lt (hassigned sock (.inl hsock))) hnext
  · refine Nat.lt_of_lt_of_le ?_ hnext
    rw [hpoint] at hu
    by_cases hut : u = t
    · rw [hut, Function.update_self] at hu
      exact htarget sock hu
    · rw [Function.update_of_ne hut] at hu
      exact h.target_lt u sock hu
  · rw [hport k hak, hport j haj] at heq
    exact h.ports k (hchain k hk hak) j (hchain j hj haj) (hassigned k hak) (hassigned j haj) heq
  · rw [hport j haj] at heq
    rw [hpoint] at hu
    by_cases hut : u = t
    · rw [hut, Function.update_self] at hu
      exact absurd heq ((hfree port (hu ▸ rfl)).1 j (hchain j hj haj))
    · rw [Function.update_of_ne hut] at hu
      exact h.pending u sock ipAddr port hu j (hchain j hj haj) (hassigned j haj) heq
  · rw [hpoint] at hu hv
    by_cases hut : u = t
    · by_cases hvt : v = t
      · exact hut.trans hvt.symm
      · rw [hut, Function.update_self] at hu
        rw [Function.update_of_ne hvt] at hv
        exact absurd hv ((hfree port hu).2 v)
    · rw [Function.update_of_ne hut] at hu
      by_cases hvt : v = t
      · rw [hvt, Function.update_self] at hv
        exact absurd hu ((hfree port hv).2 u)
      · rw [Function.update_of_ne hvt] at hv
        exact h.alone u v port hu hv

theorem Assigned.of_moved {sock : ℕ} (h : w'.Assigned sock) (hbound : w'.bound = w.bound)
    (hpoint : w'.point = Function.update w.point t point) (hdone : point.doneSock = none) :
    w.Assigned sock := by
  obtain hb | ⟨u, hu⟩ := h
  · exact .inl (hbound ▸ hb)
  · rw [hpoint] at hu
    by_cases hut : u = t
    · rw [hut, Function.update_self, hdone] at hu
      cases hu
    · rw [Function.update_of_ne hut] at hu
      exact .inr ⟨u, hu⟩

theorem Distinct.quiet (h : w.Distinct) (hinfo : w'.base.info = w.base.info)
    (hnext : w'.base.nextSock = w.base.nextSock)
    (hchain : ∀ sock ∈ w'.base.chain .udp, sock ∈ w.base.chain .udp) (hbound : w'.bound = w.bound)
    (hpoint : w'.point = Function.update w.point t point) (hpending : point.pendingPort = none)
    (hdone : point.doneSock = none)
    (htarget : ∀ sock, point.bindTarget = some sock → sock < w.base.nextSock) : w'.Distinct := by
  apply h.moved hpoint
  · rw [hinfo]
    exact h.kind
  · intro sock hsock
    rw [hnext]
    exact h.chain_lt sock (hchain sock hsock)
  · exact Nat.le_of_eq hnext.symm
  · exact fun sock hsock => hsock.of_moved hbound hpoint hdone
  · exact fun sock hsock _ => hchain sock hsock
  · intro sock _
    rw [port, port, hinfo]
  · exact htarget
  · intro port hport
    rw [hpending] at hport
    cases hport

theorem acquireQueue_eq (h : w.acquireQueue t point = some w') :
    w' = { w.moveTo t point with queueLock := some t } := by
  obtain ⟨-, hw⟩ := Option.ite_none_right_eq_some.mp h
  cases hw
  rfl

theorem acquireSock_eq {sock : ℕ} (h : w.acquireSock t sock point = some w') :
    w' = { w.moveTo t point with sockLock := Function.update w.sockLock sock (some t) } := by
  obtain ⟨-, hw⟩ := Option.ite_none_right_eq_some.mp h
  cases hw
  rfl

theorem Distinct.insertLink (h : w.Distinct) (hbase : w'.base = w.base.insertSocket .udp 0)
    (hbound : w'.bound = Function.update w.bound w.base.nextSock false)
    (hpoint : w'.point = Function.update w.point t .idle) : w'.Distinct := by
  have hassigned : ∀ sock, w'.Assigned sock → w.Assigned sock := by
    rintro sock (hb | ⟨u, hu⟩)
    · rw [hbound] at hb
      by_cases hnew : sock = w.base.nextSock
      · simp [hnew] at hb
      · exact .inl (by simpa [Function.update_of_ne hnew] using hb)
    · rw [hpoint] at hu
      by_cases hut : u = t
      · rw [hut, Function.update_self] at hu
        cases hu
      · rw [Function.update_of_ne hut] at hu
        exact .inr ⟨u, hu⟩
  have hne : ∀ sock, w'.Assigned sock → sock ≠ w.base.nextSock :=
    fun sock hsock => Nat.ne_of_lt (h.assigned_lt (hassigned sock hsock))
  apply h.moved hpoint
  · intro sock
    rw [hbase]
    by_cases hnew : sock = w.base.nextSock
    · simp [SocketBase.insertSocket, hnew]
    · simpa [SocketBase.insertSocket, Function.update_of_ne hnew] using h.kind sock
  · intro sock hsock
    rw [hbase] at hsock ⊢
    simp only [SocketBase.insertSocket, Function.update_self, List.mem_append,
      List.mem_singleton] at hsock
    obtain hsock | rfl := hsock
    · exact Nat.lt_succ_of_lt (h.chain_lt sock hsock)
    · exact Nat.lt_succ_self _
  · rw [hbase]
    exact Nat.le_succ _
  · exact hassigned
  · intro sock hsock hasg
    simpa [hbase, SocketBase.insertSocket, hne sock hasg] using hsock
  · intro sock hasg
    rw [port, port, hbase]
    simp [SocketBase.insertSocket, Function.update_of_ne (hne sock hasg)]
  · nofun
  · nofun

theorem Distinct.found {sock ipAddr port : ℕ} (h : w.Distinct)
    (htarget : sock < w.base.nextSock) (hfree : w.base.isUdpPortUsed port = false)
    (hlone : ∀ u, (w.point u).pendingPort ≠ some port) :
    (w.releaseQueue t (.bindAssign sock ipAddr port)).Distinct := by
  have hunused : ∀ j ∈ w.base.chain .udp, w.port j ≠ port := by
    intro j hj
    rw [SocketBase.isUdpPortUsed, List.any_eq_false] at hfree
    exact fun heq => hfree j hj (beq_iff_eq.mpr heq)
  apply h.moved
  · rfl
  · exact h.kind
  · exact h.chain_lt
  · exact Nat.le_refl _
  · exact fun k hk => hk.of_moved rfl rfl rfl
  · exact fun k hk _ => hk
  · exact fun k _ => rfl
  · intro k hk
    cases hk
    exact htarget
  · intro p hp
    cases hp
    exact ⟨hunused, hlone⟩

theorem Distinct.assign {sock ipAddr port : ℕ} (h : w.Distinct)
    (hold : w.point t = .bindAssign sock ipAddr port)
    (hbase : w'.base = w.base.bind sock ipAddr port) (hbound : w'.bound = w.bound)
    (hpoint : w'.point = Function.update w.point t (.bindDone sock)) : w'.Distinct := by
  have hinfo : w'.base = w.base.setInfo sock
      { w.base.info sock with ipAddr := ipAddr, port := port } := by
    rw [hbase, SocketBase.bind_of_udp (h.kind sock)]
  have hself : w'.port sock = port := by
    rw [UdpWorld.port, hinfo]
    simp [SocketBase.setInfo]
  have hother : ∀ k, k ≠ sock → w'.port k = w.port k := by
    intro k hk
    rw [UdpWorld.port, UdpWorld.port, hinfo]
    simp [SocketBase.setInfo, Function.update_of_ne hk]
  have hassigned : ∀ k, k ≠ sock → w'.Assigned k → w.Assigned k := by
    rintro k hk (hb | ⟨u, hu⟩)
    · exact .inl (hbound ▸ hb)
    · rw [hpoint] at hu
      by_cases hut : u = t
      · rw [hut, Function.update_self] at hu
        cases hu
        exact absurd rfl hk
      · rw [Function.update_of_ne hut] at hu
        exact .inr ⟨u, hu⟩
  have hpending : ∀ u p, (w'.point u).pendingPort = some p → u ≠ t ∧ w'.point u = w.point u := by
    intro u p hu
    rw [hpoint] at hu ⊢
    by_cases hut : u = t
    · rw [hut, Function.update_self] at hu
      cases hu
    · exact ⟨hut, Function.update_of_ne hut _ _⟩
  -- the socket written to against one that already has the port
  have hnew : ∀ j ∈ w.base.chain .udp, j ≠ sock → w'.Assigned j → w'.port j ≠ port := by
    intro j hj hne haj heq
    rw [hother j hne] at heq
    exact hne (h.pending t sock ipAddr port hold j hj (hassigned j hne haj) heq)
  have hchain : w'.base.chain = w.base.chain := by rw [hinfo]; rfl
  have hnext : w'.base.nextSock = w.base.nextSock := by rw [hinfo]; rfl
  have hsock : sock < w.base.nextSock := h.target_lt t sock (by rw [hold]; rfl)
  refine ⟨fun k => ?_, ?_, fun k hk => ?_, fun u k hu => ?_, fun k hk j hj hak haj heq => ?_,
    fun u k ip p hu j hj haj heq => ?_, fun u v p hu hv => ?_⟩
  · rw [hbase, (w.base.sameSockets_bind sock ipAddr port).kind]
    exact h.kind k
  · rw [hchain, hnext]
    exact h.chain_lt
  · rw [hnext]
    exact h.bound_lt k (hbound ▸ hk)
  · rw [hnext]
    rw [hpoint] at hu
    by_cases hut : u = t
    · rw [hut, Function.update_self] at hu
      cases hu
      exact hsock
    · rw [Function.update_of_ne hut] at hu
      exact h.target_lt u k hu
  · rw [hchain] at hk hj
    by_cases hks : k = sock
    · by_contra hne
      rw [hks, hself] at heq
      exact hnew j hj (fun hjs => hne (hks.trans hjs.symm)) haj heq.symm
    · by_cases hjs : j = sock
      · rw [hjs, hself] at heq
        exact absurd heq (hnew k hk hks hak)
      · rw [hother k hks, hother j hjs] at heq
        exact h.ports k hk j hj (hassigned k hks hak) (hassigned j hjs haj) heq
  · rw [hchain] at hj
    obtain ⟨hut, hsame⟩ := hpending u p (by rw [hu]; rfl)
    rw [hsame] at hu
    by_cases hjs : j = sock
    · -- another thread would be about to write the same port
      rw [hjs, hself] at heq
      exact absurd (h.alone u t p (by rw [hu]; rfl) (by rw [hold, ← heq]; rfl)) hut
    · rw [hother j hjs] at heq
      exact h.pending u k ip p hu j hj (hassigned j hjs haj) heq
  · rw [(hpending u p hu).2] at hu
    rw [(hpending v p hv).2] at hv
    exact h.alone u v p hu hv

theorem Distinct.done {sock : ℕ} (h : w.Distinct) (hold : w.point t = .bindDone sock)
    (hbase : w'.base = w.base) (hbound : w'.bound = Function.update w.bound sock true)
    (hpoint : w'.point = Function.update w.point t .idle) : w'.Distinct := by
  apply h.moved hpoint
  · rw [hbase]
    exact h.kind
  · rw [hbase]
    exact h.chain_lt
  · rw [hbase]
  · rintro k (hb | ⟨u, hu⟩)
    · by_cases heq : k = sock
      · exact .inr ⟨t, by rw [hold, heq]; rfl⟩
      · exact .inl (by simpa [hbound, Function.update_of_ne heq] using hb)
    · rw [hpoint] at hu
      by_cases hut : u = t
      · rw [hut, Function.update_self] at hu
        cases hu
      · rw [Function.update_of_ne hut] at hu
        exact .inr ⟨u, hu⟩
  · intro k hk _
    rwa [hbase] at hk
  · intro k _
    rw [port, port, hbase]
  · nofun
  · nofun

theorem lt_of_bindTarget_none (h : point.bindTarget = none) {bound : ℕ} :
    ∀ sock, point.bindTarget = some sock → sock < bound := by
  intro sock hsock
  rw [h] at hsock
  cases hsock

theorem Distinct.go (h : w.Distinct) (hlone : w.Lone (.go t)) (hstep : w.go t = some w') :
    w'.Distinct := by
  have htarget := h.target_lt t
  rw [UdpWorld.go] at hstep
  cases hpoint : w.point t
  all_goals simp only [hpoint] at hstep htarget
  case idle => cases hstep
  case insertLink =>
    cases hstep
    exact h.insertLink rfl rfl rfl
  case bindCheck sock ipAddr port =>
    split_ifs at hstep with hused
    · cases hstep
      exact h.quiet rfl rfl (fun _ hk => hk) rfl rfl rfl rfl htarget
    · cases hstep
      have hfree := Bool.eq_false_iff.mpr hused
      exact h.found (htarget sock rfl) hfree (hlone port (by rw [hpoint]; rfl) hfree)
  case bindAssign =>
    cases hstep
    exact h.assign hpoint rfl rfl rfl
  case bindDone =>
    cases hstep
    exact h.done hpoint rfl rfl rfl
  case cleanupUnlink =>
    split_ifs at hstep
    · cases hstep
      refine h.quiet rfl rfl (fun k hk => ?_) rfl rfl rfl rfl (lt_of_bindTarget_none rfl)
      simp only [SocketBase.removeSocket, h.kind, Function.update_self] at hk
      exact List.mem_of_mem_erase hk
    · cases hstep
      exact h.quiet rfl rfl (fun _ hk => hk) rfl rfl rfl rfl (lt_of_bindTarget_none rfl)
  case handleFind =>
    split at hstep
    all_goals
      cases hstep
      exact h.quiet rfl rfl (fun _ hk => hk) rfl rfl rfl rfl (lt_of_bindTarget_none rfl)
  -- the other points only take or give back a lock
  case insertWait | handleWaitQueue | cleanupWaitQueue =>
    cases acquireQueue_eq hstep
    exact h.quiet rfl rfl (fun _ hk => hk) rfl rfl rfl rfl (lt_of_bindTarget_none rfl)
  case bindWaitQueue =>
    cases acquireQueue_eq hstep
    exact h.quiet rfl rfl (fun _ hk => hk) rfl rfl rfl rfl htarget
  case bindWaitSock =>
    cases acquireSock_eq hstep
    exact h.quiet rfl rfl (fun _ hk => hk) rfl rfl rfl rfl htarget
  case handleWaitSock | cleanupWaitSock =>
    cases acquireSock_eq hstep
    exact h.quiet rfl rfl (fun _ hk => hk) rfl rfl rfl rfl (lt_of_bindTarget_none rfl)
  case bindFail | handleLocked | handleEnqueue | cleanupLocked | cleanupFree =>
    cases hstep
    exact h.quiet rfl rfl (fun _ hk => hk) rfl rfl rfl rfl (lt_of_bindTarget_none rfl)

theorem Distinct.step {a : UdpAction n} (h : w.Distinct) (hlone : w.Lone a)
    (hstep : w.step a = some w') : w'.Distinct := by
  cases a
  case go t => exact h.go hlone hstep
  all_goals
    obtain ⟨hguard, hw⟩ := Option.ite_none_right_eq_some.mp hstep
    cases hw
    refine h.quiet rfl rfl (fun _ hk => hk) rfl rfl rfl rfl fun k hk => ?_
    cases hk
  exact hguard.2.1

def Takes (w : UdpWorld n) (ipAddr port sock : ℕ) : Prop :=
  sock ∈ w.base.chain .udp ∧ w.bound sock ∧ w.port sock = port ∧
    ((w.base.info sock).ipAddr = ipAddr ∨ (w.base.info sock).ipAddr = inaddrAny ∨
      ipAddr = ipBroadcastAddress)

/-- The open sockets that were bound have distinct ports, so that a datagram is for one of them at
most. -/
theorem udp_ports_unique {as : List (UdpAction n)} {w : UdpWorld n}
    (h : Along step Lone init as) (hrun : run step init as = some w) :
    (∀ k ∈ w.base.chain .udp, ∀ j ∈ w.base.chain .udp, w.bound k → w.bound j →
      w.port k = w.port j → k = j) ∧
    ∀ ipAddr port k j, w.Takes ipAddr port k → w.Takes ipAddr port j → k = j := by
  have hdistinct : w.Distinct := run_invariant (I := Distinct)
    (fun _ _ _ hlone hstep hI => hI.step hlone hstep) h hrun distinct_init
  have hports : ∀ k ∈ w.base.chain .udp, ∀ j ∈ w.base.chain .udp, w.bound k → w.bound j →
      w.port k = w.port j → k = j :=
    fun k hk j hj hbk hbj heq => hdistinct.ports k hk j hj (.inl hbk) (.inl hbj) heq
  refine ⟨hports, fun ipAddr port k j hk hj => ?_⟩
  exact hports k hk.1 j hj.1 hk.2.1 hj.2.1 (hk.2.2.1.trans hj.2.2.1.symm)

def inTurn : List (UdpAction 2) :=
  [.insertSocket first, .go first, .go first, .insertSocket first, .go first, .go first,
    .bind first 0 0 9, .bind second 1 0 10, .go first, .go second, .go first, .go first, .go second,
    .go second, .go first, .go second, .go first, .go second]

theorem udp_ports_unique_inTurn :
    ∃ w, Along step Lone init inTurn ∧ run step init inTurn = some w ∧
      (∀ k ∈ w.base.chain .udp, ∀ j ∈ w.base.chain .udp, w.bound k → w.bound j →
        w.port k = w.port j → k = j) ∧
      ∀ ipAddr port k j, w.Takes ipAddr port k → w.Takes ipAddr port j → k = j := by
  have h : Along step Lone init inTurn := by decide +kernel
  obtain ⟨w, hrun, -⟩ := Option.map_eq_some_iff.mp
    (by decide +kernel : (run step init inTurn).map (fun _ => ()) = some ())
  exact ⟨w, h, hrun, udp_ports_unique h hrun⟩

def atOnce : List (UdpAction 2) :=
  [.insertSocket first, .go first, .go first, .insertSocket first, .go first, .go first,
    .bind first 0 0 9, .bind second 1 0 9, .go first, .go second, .go first, .go first, .go second,
    .go second, .go first, .go second, .go first, .go second]

theorem udp_port_bound_twice :
    ∃ w, run step init atOnce = some w ∧ w.base.chain .udp = [0, 1] ∧ w.bound 0 ∧ w.bound 1 ∧
      w.port 0 = 9 ∧ w.port 1 = 9 := by
  obtain ⟨w, hrun, hval⟩ := Option.map_eq_some_iff.mp (by decide +kernel : (run step init
    atOnce).map (fun w => (w.base.chain .udp, w.bound 0, w.bound 1, w.port 0, w.port 1)) =
      some ([0, 1], true, true, 9, 9))
  simp only [Prod.mk.injEq] at hval
  exact ⟨w, hrun, hval⟩

end UdpWorld

end BrickOS.Networking
