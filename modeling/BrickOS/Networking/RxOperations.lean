import BrickOS.Networking.RxQueues

/-! What the calls on sockets do to the receive queues, to the counts of the packets in them and
to the packets that are still owned. -/
namespace BrickOS.Networking
open BrickOS.Lib

namespace SocketTable

variable {s t : SocketTable} {Q : ℕ → List ℕ} {p q sock : ℕ} {node : PacketNode}

def Room (s : SocketTable) (len sock : ℕ) : Prop :=
  s.rxQueueSize sock + len ≤ (s.base.info sock).recvMaxBufSize

theorem enqueueRxData_of_not_room (hnode : s.packet p = some node)
    (hlt : s.rxQueueSize sock + node.data.length < 2 ^ 32)
    (hroom : ¬ s.Room node.data.length sock) :
    s.enqueueRxData sock p = some (s.kfree p node) := by
  rw [enqueueRxData, hnode, Option.bind_some]
  simp only [Nat.mod_eq_of_lt hlt]
  exact if_pos (Nat.lt_of_not_le hroom)

def allocated (s : SocketTable) (a : Incoming) : SocketTable :=
  { s with packets := s.packets ++ [⟨a.packet, none, 0, 0⟩] }

theorem packet_allocated (s : SocketTable) (a : Incoming) :
    (s.allocated a).packet s.packets.length = some ⟨a.packet, none, 0, 0⟩ := by
  refine packet_eq_some.mpr ⟨?_, rfl⟩
  rw [allocated, List.getElem?_append_right (Nat.le_refl _), Nat.sub_self]
  rfl

theorem packet_allocated_of_ne (h : p ≠ s.packets.length) (a : Incoming) :
    (s.allocated a).packet p = s.packet p := by
  simp only [packet, allocated]
  obtain hlt | hle := Nat.lt_or_ge p s.packets.length
  · rw [List.getElem?_append_left hlt]
  · have hle' : (s.packets ++ [(⟨a.packet, none, 0, 0⟩ : PacketNode)]).length ≤ p := by
      simp only [List.length_append, List.length_singleton]
      omega
    rw [List.getElem?_eq_none hle, List.getElem?_eq_none hle']

end SocketTable

end BrickOS.Networking
