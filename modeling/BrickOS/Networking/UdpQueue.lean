import BrickOS.Networking.RxOperations

/-! The receive queue of one UDP socket, with what its calls return, is a FIFO bounded in bytes. -/
namespace BrickOS.Networking
open BrickOS.Lib

inductive UdpCall
  | udpEnqueueRxData (packet : RecvdPacket)
  | recvfrom (bufLen : ℕ) (peek : Bool)
  | bind (ipAddr port : ℕ)
deriving DecidableEq, Repr

namespace SocketTable

def udpEnqueueRxData (s : SocketTable) (sock : ℕ) (packet : RecvdPacket) : Option SocketTable :=
  enqueueRxData { s with packets := s.packets ++ [⟨packet, none, 0, 0⟩] } sock s.packets.length

def udpCall (sock : ℕ) (s : SocketTable) : UdpCall → Option (SocketTable × Option RecvdPacket)
  | .udpEnqueueRxData packet => (s.udpEnqueueRxData sock packet).map fun s => (s, none)
  | .recvfrom bufLen peek => s.recvfrom sock bufLen peek
  | .bind ipAddr port => (s.bind sock ipAddr port).map fun s => (s, none)

def udpCalls (sock : ℕ) :
    List UdpCall → SocketTable → Option (SocketTable × List (Option RecvdPacket))
  | [], s => some (s, [])
  | c :: cs, s => (s.udpCall sock c).bind fun r =>
      (udpCalls sock cs r.1).map fun rs => (rs.1, r.2 :: rs.2)

end SocketTable

structure Fifo where
  base : SocketBase
  queue : List RecvdPacket

namespace Fifo

def bytes (f : Fifo) : ℕ := (f.queue.map fun p => p.data.length).sum

/-- A datagram is accepted if it fits, the oldest one is returned and goes unless it was only
looked at, and a new address empties the queue. -/
def call (sock : ℕ) (f : Fifo) : UdpCall → Fifo × Option RecvdPacket
  | .udpEnqueueRxData packet =>
    (if f.bytes + packet.data.length ≤ (f.base.info sock).recvMaxBufSize then
      { f with queue := f.queue ++ [packet] } else f, none)
  | .recvfrom bufLen peek =>
    (if peek then f else { f with queue := f.queue.tail },
      f.queue.head?.map fun packet => { packet with data := packet.data.take bufLen })
  | .bind ipAddr port =>
    (if f.base.mayBind sock port then ⟨f.base.bind sock ipAddr port, []⟩ else f, none)

def calls (sock : ℕ) : List UdpCall → Fifo → Fifo × List (Option RecvdPacket)
  | [], f => (f, [])
  | c :: cs, f =>
    ((calls sock cs (f.call sock c).1).1,
      (f.call sock c).2 :: (calls sock cs (f.call sock c).1).2)

def Fits (sock : ℕ) : List UdpCall → Fifo → Prop
  | [], _ => True
  | c :: cs, f =>
    (∀ packet, c = .udpEnqueueRxData packet → f.bytes + packet.data.length < 2 ^ 32) ∧
      Fits sock cs (f.call sock c).1

end Fifo

namespace SocketTable

variable {s : SocketTable} {sock : ℕ} {l : List ℕ}

structure UdpQueue (s : SocketTable) (sock : ℕ) (l : List ℕ) : Prop where
  kind : (s.base.info sock).kind = .udp
  linked : Linked s.link (s.rxQueue sock) l
  size : s.rxQueueSize sock = ((l.map s.content).map fun p => p.data.length).sum
  size_lt : s.rxQueueSize sock < 2 ^ 32

def fifo (s : SocketTable) (l : List ℕ) : Fifo := ⟨s.base, l.map s.content⟩

def Serves (s : SocketTable) (sock : ℕ) (l : List ℕ) (c : UdpCall) : Prop :=
  ∃ t l', s.udpCall sock c = some (t, ((s.fifo l).call sock c).2) ∧ t.UdpQueue sock l' ∧
    t.fifo l' = ((s.fifo l).call sock c).1

theorem content_congr {t : SocketTable} (h : ∀ p ∈ l, t.packet p = s.packet p) :
    l.map t.content = l.map s.content :=
  List.map_congr_left fun p hp => by rw [content, content, h p hp]

/-- The packets of the queue are all that it depends on. -/
theorem UdpQueue.congr {t : SocketTable} (h : s.UdpQueue sock l) (hbase : t.base = s.base)
    (hhead : t.rxQueue sock = s.rxQueue sock) (hsize : t.rxQueueSize sock = s.rxQueueSize sock)
    (hpacket : ∀ p ∈ l, t.packet p = s.packet p) : t.UdpQueue sock l where
  kind := hbase ▸ h.kind
  linked := hhead ▸ h.linked.congr fun p hp => by rw [link, link, hpacket p hp]
  size := by rw [hsize, h.size, content_congr hpacket]
  size_lt := hsize ▸ h.size_lt

theorem UdpQueue.enqueue (h : s.UdpQueue sock l) (packet : RecvdPacket)
    (hlt : (s.fifo l).bytes + packet.data.length < 2 ^ 32) :
    s.Serves sock l (.udpEnqueueRxData packet) := by
  have hbytes : (s.fifo l).bytes = s.rxQueueSize sock := h.size.symm
  have hnot : s.packets.length ∉ l := by
    intro hmem
    obtain ⟨node, hnode⟩ := exists_packet_of_link (h.linked.isSome_of_mem hmem)
    exact Nat.lt_irrefl _ (lt_of_packet hnode)
  have hsame : ∀ p ∈ l, (s.allocated (.udp 0 0 packet)).packet p = s.packet p :=
    fun p hp => packet_allocated_of_ne (fun heq => hnot (heq ▸ hp)) _
  have hnew := s.packet_allocated (.udp 0 0 packet)
  have hqueue : (s.allocated (.udp 0 0 packet)).UdpQueue sock l := h.congr rfl rfl rfl hsame
  rw [hbytes] at hlt
  unfold Serves
  simp only [udpCall, Fifo.call, hbytes]
  by_cases hroom : s.rxQueueSize sock + packet.data.length ≤ (s.base.info sock).recvMaxBufSize
  · obtain ⟨t, ht, henq⟩ := enqueueRxData_of_linked hqueue.linked hnew rfl hnot
      ((Nat.mod_eq_of_lt hlt).trans_le hroom)
    have hcontent : (l ++ [s.packets.length]).map t.content = l.map s.content ++ [packet] := by
      rw [List.map_append, List.map_singleton, content_of_packet henq.packet,
        ← content_congr hsame, List.map_congr_left fun p _ => henq.rewired.content_eq p]
      rfl
    have hsize : t.rxQueueSize sock = s.rxQueueSize sock + packet.data.length :=
      henq.size.trans (Nat.mod_eq_of_lt hlt)
    refine ⟨t, l ++ [s.packets.length], ?_, ⟨henq.base ▸ h.kind, henq.linked, ?_, hsize ▸ hlt⟩, ?_⟩
    · exact congrArg (Option.map fun s => (s, none)) ht
    · rw [hsize, hcontent, List.map_append, List.sum_append, ← h.size]
      rfl
    · rw [if_pos (show _ ≤ ((s.fifo l).base.info sock).recvMaxBufSize from hroom), fifo, hcontent,
        henq.base]
      rfl
  · have hdrop : (s.allocated (.udp 0 0 packet)).enqueueRxData sock s.packets.length = _ :=
      enqueueRxData_of_not_room hnew hlt hroom
    have hkept : ∀ node, ∀ p ∈ l, ((s.allocated (.udp 0 0 packet)).kfree s.packets.length
        node).packet p = s.packet p := by
      intro node p hp
      have hne : p ≠ s.packets.length := fun heq => hnot (heq ▸ hp)
      rw [kfree, packet_setPacket_of_ne hne]
      exact hsame p hp
    refine ⟨_, l, congrArg (Option.map fun s => (s, none)) hdrop,
      h.congr rfl rfl rfl (hkept _), ?_⟩
    rw [if_neg (show ¬ _ ≤ ((s.fifo l).base.info sock).recvMaxBufSize from hroom), fifo,
      content_congr (hkept _)]
    rfl

theorem UdpQueue.recvfrom (h : s.UdpQueue sock l) (bufLen : ℕ) (peek : Bool) :
    s.Serves sock l (.recvfrom bufLen peek) := by
  unfold Serves
  cases l with
  | nil =>
    refine ⟨s, [], ?_, h, ?_⟩
    · rw [udpCall, SocketTable.recvfrom, linked_nil.mp h.linked]
      rfl
    · cases peek <;> rfl
  | cons p rest =>
    obtain ⟨hhead, next, hnext, hrest⟩ := h.linked
    obtain ⟨node, hnode⟩ := exists_packet_of_link (h.linked.isSome_of_mem List.mem_cons_self)
    obtain rfl : node.next = next := Option.some.inj ((link_of_packet hnode).symm.trans hnext)
    have hcontent := content_of_packet hnode
    simp only [udpCall, SocketTable.recvfrom, hhead, hnode, Option.bind_some, Fifo.call, fifo,
      List.map_cons, List.head?_cons, Option.map_some, hcontent]
    cases peek with
    | true =>
      refine ⟨s, p :: rest, if_pos h.kind, h, ?_⟩
      rw [if_pos rfl, List.map_cons, hcontent]
    | false =>
      have hsize := h.size
      have hsize_lt := h.size_lt
      rw [List.map_cons, List.map_cons, List.sum_cons, hcontent] at hsize
      have hleft : (s.rxQueueSize sock + 2 ^ 32 - node.data.length) % 2 ^ 32 =
          ((rest.map s.content).map fun p => p.data.length).sum := by omega
      rw [if_neg Bool.false_ne_true, removePacketFromRxQueue, hhead]
      simp only [if_true, Option.bind_some]
      refine ⟨_, rest, if_pos h.kind, ⟨h.kind, ?_, ?_, ?_⟩, rfl⟩
      · rw [rxQueue_setQueue]
        exact hrest
      · rw [rxQueueSize_setQueue, hleft]
        rfl
      · rw [rxQueueSize_setQueue]
        exact Nat.mod_lt _ (Nat.two_pow_pos 32)

theorem clearLoop_of_linked {fuel : ℕ} (h : Linked s.link (s.rxQueue sock) l)
    (hfuel : l.length ≤ fuel) : ∃ t, clearLoop sock fuel s = some t ∧ t.rxQueue sock = none ∧
      t.rxQueueSize sock = 0 ∧ t.base = s.base := by
  induction l generalizing s fuel with
  | nil =>
    refine ⟨s.setQueue sock none 0, ?_, rxQueue_setQueue .., rxQueueSize_setQueue .., rfl⟩
    cases fuel <;> rw [clearLoop, linked_nil.mp h]
  | cons p rest ih =>
    have hnot : p ∉ rest := (List.nodup_cons.mp h.nodup).1
    obtain ⟨node, hnode⟩ := exists_packet_of_link (h.isSome_of_mem List.mem_cons_self)
    obtain ⟨hhead, next, hnext, hrest⟩ := h
    obtain rfl : node.next = next := Option.some.inj ((link_of_packet hnode).symm.trans hnext)
    obtain ⟨fuel, rfl⟩ := Nat.exists_eq_add_of_le' (Nat.one_le_of_lt hfuel)
    rw [clearLoop, hhead]
    simp only [hnode, Option.bind_some]
    refine ih ?_ (Nat.le_of_succ_le_succ hfuel)
    rw [kfree, rxQueue_setPacket, rxQueue_setQueue]
    refine hrest.congr fun q hq => ?_
    have hne : q ≠ p := fun heq => hnot (heq ▸ hq)
    rw [link, packet_setPacket_of_ne hne, packet_setQueue, link]

theorem UdpQueue.bind (h : s.UdpQueue sock l) (ipAddr port : ℕ) :
    s.Serves sock l (.bind ipAddr port) := by
  have hbase : (s.fifo l).base = s.base := rfl
  unfold Serves
  simp only [udpCall, SocketTable.bind, Fifo.call, hbase]
  by_cases hmay : s.base.mayBind sock port
  · obtain ⟨t, ht, hhead, hsize, hbase⟩ :=
      clearLoop_of_linked h.linked (length_le_of_linked h.linked)
    rw [if_pos hmay, if_pos hmay, socketClearRxQueue, ht]
    refine ⟨_, [], rfl, ⟨?_, hhead, hsize, hsize ▸ Nat.two_pow_pos 32⟩, ?_⟩
    · exact ((t.base.sameSockets_bind sock ipAddr port).kind sock).trans (hbase ▸ h.kind)
    · exact congrArg (fun b => (⟨b.bind sock ipAddr port, []⟩ : Fifo)) hbase
  · rw [if_neg hmay, if_neg hmay]
    exact ⟨s, l, rfl, h, rfl⟩

theorem UdpQueue.serves (h : s.UdpQueue sock l) {c : UdpCall}
    (hfits : ∀ packet, c = .udpEnqueueRxData packet →
      (s.fifo l).bytes + packet.data.length < 2 ^ 32) : s.Serves sock l c := by
  cases c with
  | udpEnqueueRxData packet => exact h.enqueue packet (hfits packet rfl)
  | recvfrom bufLen peek => exact h.recvfrom bufLen peek
  | bind ipAddr port => exact h.bind ipAddr port

/-- The calls on a UDP socket return what they return on the FIFO, which is what the queue holds
afterwards. -/
theorem udpQueue_is_fifo {calls : List UdpCall} (h : s.UdpQueue sock l)
    (hfits : Fifo.Fits sock calls (s.fifo l)) :
    ∃ t l', udpCalls sock calls s = some (t, (Fifo.calls sock calls (s.fifo l)).2) ∧
      Linked t.link (t.rxQueue sock) l' ∧
      (Fifo.calls sock calls (s.fifo l)).1 = ⟨t.base, l'.map t.content⟩ ∧
      t.rxQueueSize sock = (Fifo.calls sock calls (s.fifo l)).1.bytes := by
  induction calls generalizing s l with
  | nil => exact ⟨s, l, rfl, h.linked, rfl, h.size⟩
  | cons c calls ih =>
    obtain ⟨t, l', hcall, hqueue, hfifo⟩ := h.serves hfits.1
    obtain ⟨u, l'', hcalls, hlinked, hbase, hsize⟩ := ih hqueue (hfifo ▸ hfits.2)
    rw [hfifo] at hcalls hbase hsize
    refine ⟨u, l'', ?_, hlinked, hbase, hsize⟩
    rw [udpCalls, hcall, Option.bind_some, hcalls]
    rfl

def freshUdp : SocketTable := { init with base := init.base.insertSocket .udp 0 }

def peekedCalls : List UdpCall :=
  [.udpEnqueueRxData ⟨[1, 2, 3], 7, 9⟩, .recvfrom 2 true, .recvfrom 2 false, .recvfrom 2 false]

theorem udpQueue_is_fifo_peeked : Fifo.Fits 0 peekedCalls (freshUdp.fifo []) ∧
    ∃ t, udpCalls 0 peekedCalls freshUdp =
      some (t, [none, some ⟨[1, 2], 7, 9⟩, some ⟨[1, 2], 7, 9⟩, none]) := by
  have hqueue : freshUdp.UdpQueue 0 [] := ⟨rfl, rfl, rfl, Nat.two_pow_pos 32⟩
  have hfits : Fifo.Fits 0 peekedCalls (freshUdp.fifo []) := by
    simp [Fifo.Fits, peekedCalls, Fifo.call, Fifo.bytes, fifo]
  obtain ⟨t, l, hcalls, -⟩ := udpQueue_is_fifo hqueue hfits
  exact ⟨hfits, t, hcalls⟩

end SocketTable

end BrickOS.Networking
