import BrickOS.Networking.Sockets
import Mathlib.Data.Finset.Card
import Mathlib.Data.List.Nodup

/-! The receive queues against the mailboxes they are meant to be. `Q` gives the nodes of each
socket's queue. A node may be in several queues, as the last one of each. -/
namespace BrickOS.Networking
open BrickOS.Lib

def PacketNode.unlinked (node : PacketNode) : PacketNode := { node with next := none }

namespace SocketTable

variable {s t : SocketTable} {Q : ℕ → List ℕ} {p q sock : ℕ}
  {node : PacketNode}

def content (s : SocketTable) (p : ℕ) : RecvdPacket :=
  ((s.packet p).map PacketNode.toRecvdPacket).getD ⟨[], 0, 0⟩

theorem packet_eq_some : s.packet p = some node ↔ s.packets[p]? = some node ∧ node.frees = 0 := by
  simp [packet, Option.filter_eq_some_iff]

theorem lt_of_packet (h : s.packet p = some node) : p < s.packets.length :=
  (List.getElem?_eq_some_iff.mp (packet_eq_some.mp h).1).1

theorem link_of_packet (h : s.packet p = some node) : s.link p = some node.next := by
  rw [link, h]
  rfl

theorem content_of_packet (h : s.packet p = some node) : s.content p = node.toRecvdPacket := by
  rw [content, h]
  rfl

theorem packet_setPacket_of_ne (h : q ≠ p) (node : PacketNode) :
    (s.setPacket p node).packet q = s.packet q := by
  simp only [packet, setPacket]
  rw [List.getElem?_set_ne (Ne.symm h)]

theorem packet_setPacket_self (h : p < s.packets.length) (hnode : node.frees = 0) :
    (s.setPacket p node).packet p = some node := by
  refine packet_eq_some.mpr ⟨?_, hnode⟩
  simp [setPacket, List.getElem?_set_self h]

@[simp] theorem packet_setQueue (s : SocketTable) (sock : ℕ) (head : Option ℕ) (size p : ℕ) :
    (s.setQueue sock head size).packet p = s.packet p := rfl

@[simp] theorem rxQueue_setQueue (s : SocketTable) (sock : ℕ) (head : Option ℕ) (size : ℕ) :
    (s.setQueue sock head size).rxQueue sock = head := Function.update_self ..

@[simp] theorem rxQueueSize_setQueue (s : SocketTable) (sock : ℕ) (head : Option ℕ) (size : ℕ) :
    (s.setQueue sock head size).rxQueueSize sock = size := Function.update_self ..

@[simp] theorem rxQueue_setPacket (s : SocketTable) (p : ℕ) (node : PacketNode) :
    (s.setPacket p node).rxQueue = s.rxQueue := rfl

@[simp] theorem rxQueueSize_setPacket (s : SocketTable) (p : ℕ) (node : PacketNode) :
    (s.setPacket p node).rxQueueSize = s.rxQueueSize := rfl

theorem exists_packet_of_link (h : (s.link p).isSome) : ∃ node, s.packet p = some node := by
  rw [link, Option.isSome_map] at h
  exact Option.isSome_iff_exists.mp h

theorem length_le_of_linked {head : Option ℕ} {l : List ℕ} (h : Linked s.link head l) :
    l.length ≤ s.packets.length := by
  have hsub : l ⊆ List.range s.packets.length := by
    intro p hp
    obtain ⟨node, hnode⟩ := exists_packet_of_link (h.isSome_of_mem hp)
    exact List.mem_range.mpr (lt_of_packet hnode)
  simpa using (List.subperm_of_subset h.nodup hsub).length_le

def Rewired (s t : SocketTable) : Prop :=
  ∀ p : ℕ, (t.packets[p]?).map PacketNode.unlinked = (s.packets[p]?).map PacketNode.unlinked

theorem Rewired.of_getElem (h : Rewired s t) {n : PacketNode} (hn : t.packets[p]? = some n) :
    ∃ n', s.packets[p]? = some n' ∧ n'.toRecvdPacket = n.toRecvdPacket ∧ n'.refcnt = n.refcnt ∧
      n'.frees = n.frees := by
  have hp := h p
  rw [hn, Option.map_some] at hp
  obtain ⟨n', hn', heq⟩ := Option.map_eq_some_iff.mp hp.symm
  simp only [PacketNode.unlinked, PacketNode.mk.injEq, true_and] at heq
  exact ⟨n', hn', heq⟩

theorem Rewired.symm (h : Rewired s t) : Rewired t s := fun p => (h p).symm

theorem Rewired.of_packet (h : Rewired s t) {n : PacketNode} (hn : t.packet p = some n) :
    ∃ n', s.packet p = some n' ∧ n'.toRecvdPacket = n.toRecvdPacket ∧ n'.refcnt = n.refcnt := by
  obtain ⟨hget, hfrees⟩ := packet_eq_some.mp hn
  obtain ⟨n', hn', hrecvd, hrefcnt, hfrees'⟩ := h.of_getElem hget
  exact ⟨n', packet_eq_some.mpr ⟨hn', hfrees'.trans hfrees⟩, hrecvd, hrefcnt⟩

theorem Rewired.content_eq (h : Rewired s t) (p : ℕ) : t.content p = s.content p := by
  cases ht : t.packet p with
  | some n =>
    obtain ⟨n', hn', hrecvd, -⟩ := h.of_packet ht
    rw [content_of_packet ht, content_of_packet hn', hrecvd]
  | none =>
    cases hs : s.packet p with
    | none => rw [content, content, ht, hs]
    | some n =>
      obtain ⟨n', hn', -⟩ := h.symm.of_packet hs
      rw [ht] at hn'
      cases hn'

theorem rewired_setPacket {n : PacketNode} (hn : s.packets[p]? = some n) (next : Option ℕ) :
    Rewired s (s.setPacket p { n with next := next }) := by
  intro q
  by_cases hq : q = p
  · subst hq
    have hlt := (List.getElem?_eq_some_iff.mp hn).1
    rw [setPacket, List.getElem?_set_self hlt, hn]
    rfl
  · rw [setPacket, List.getElem?_set_ne (Ne.symm hq)]

structure Enqueued (s t : SocketTable) (sock p : ℕ) (l : List ℕ) (node : PacketNode) : Prop where
  base : t.base = s.base
  rewired : Rewired s t
  packet : t.packet p = some node
  linked : Linked t.link (t.rxQueue sock) (l ++ [p])
  size : t.rxQueueSize sock = (s.rxQueueSize sock + node.data.length) % 2 ^ 32
  queue_other : ∀ other, other ≠ sock → t.rxQueue other = s.rxQueue other
  size_other : ∀ other, other ≠ sock → t.rxQueueSize other = s.rxQueueSize other
  link_other : ∀ q, l.getLast? ≠ some q → t.link q = s.link q

theorem enqueueRxData_of_linked {l : List ℕ} (hlinked : Linked s.link (s.rxQueue sock) l)
    (hnode : s.packet p = some node) (hnext : node.next = none) (hp : p ∉ l)
    (hroom : (s.rxQueueSize sock + node.data.length) % 2 ^ 32 ≤ (s.base.info sock).recvMaxBufSize) :
    ∃ t, s.enqueueRxData sock p = some t ∧ Enqueued s t sock p l node := by
  rw [SocketTable.enqueueRxData, hnode, Option.bind_some]
  simp only
  rw [if_neg (Nat.not_lt.mpr hroom)]
  have hlinkp : s.link p = some none := by rw [link_of_packet hnode, hnext]
  rcases List.eq_nil_or_concat l with rfl | ⟨l, last, rfl⟩
  · rw [linked_nil.mp hlinked]
    refine ⟨_, rfl, ?_⟩
    constructor
    · rfl
    · exact fun q => rfl
    · exact hnode
    · rw [rxQueue_setQueue]
      exact ⟨rfl, none, hlinkp, rfl⟩
    · rw [rxQueueSize_setQueue]
    · exact fun other hother => Function.update_of_ne hother _ _
    · exact fun other hother => Function.update_of_ne hother _ _
    · exact fun q _ => rfl
  · rw [List.concat_eq_append] at hlinked hp ⊢
    have hmem : last ∈ l ++ [last] := List.mem_append_right _ (List.mem_singleton_self last)
    obtain ⟨lastNode, hlastNode⟩ := exists_packet_of_link (hlinked.isSome_of_mem hmem)
    have hne : p ≠ last := fun heq => hp (heq ▸ hmem)
    have hlength : l.length < s.packets.length := by
      have hle := length_le_of_linked hlinked
      rw [List.length_append, List.length_singleton] at hle
      exact hle
    cases hhead : s.rxQueue sock with
    | none =>
      rw [hhead] at hlinked
      cases l <;> cases hlinked.1
    | some head =>
      rw [hhead] at hlinked
      simp only
      rw [lastFrom_of_linked hlinked hlength, Option.bind_some, hlastNode, Option.map_some]
      refine ⟨_, rfl, ?_⟩
      generalize hstate : SocketTable.setPacket _ _ _ = t
      have hself : t.packet last = some { lastNode with next := some p } := by
        rw [← hstate]
        exact packet_setPacket_self (lt_of_packet hlastNode) (packet_eq_some.mp hlastNode).2
      have hpacket : ∀ q, q ≠ last → t.packet q = s.packet q := by
        intro q hq
        rw [← hstate, packet_setPacket_of_ne hq, packet_setQueue]
      have hlink : ∀ q, q ≠ last → t.link q = s.link q := by
        intro q hq
        rw [link, link, hpacket q hq]
      constructor
      · rw [← hstate]
        rfl
      · rw [← hstate]
        exact rewired_setPacket (s := s.setQueue sock _ _) (packet_eq_some.mp hlastNode).1 _
      · exact (hpacket p hne).trans hnode
      · rw [← hstate, rxQueue_setPacket, rxQueue_setQueue, hstate]
        refine hlinked.concat (fun q hq => hlink q ?_) (link_of_packet hself) ?_
        · rintro rfl
          exact absurd hlinked.nodup (by simp [List.nodup_append, hq])
        · rw [hlink p hne, hlinkp]
      · rw [← hstate, rxQueueSize_setPacket, rxQueueSize_setQueue]
      · intro other hother
        rw [← hstate]
        exact Function.update_of_ne hother _ _
      · intro other hother
        rw [← hstate]
        exact Function.update_of_ne hother _ _
      · intro q hq
        refine hlink q fun heq => hq ?_
        rw [heq, List.getLast?_concat]

end SocketTable

end BrickOS.Networking
