import BrickOS.Lib.LinkedList
import BrickOS.Lib.Run
import BrickOS.Networking.Routing

/-! The receive queues of the sockets. The packets are nodes of a heap, each with one pointer to
the next, and a queue is the list from a socket's `rx_queue` on. -/
namespace BrickOS.Networking
open BrickOS.Lib

inductive SockKind
  | udp
  | icmp
  | rawIp
deriving DecidableEq, Repr

def inaddrAny : ℕ := 0

def sockDefaultMaxBufSz : ℕ := 64 * 1024

structure RecvdPacket where
  data : List UInt8
  srcAddr : ℕ
  srcPort : ℕ
deriving DecidableEq, Repr

/-- A `recvd_packet_t` on the heap. `refcnt` is there for ICMP and raw packets; `frees` counts the
calls of `kfree` on it. -/
structure PacketNode extends RecvdPacket where
  next : Option ℕ
  refcnt : ℕ
  frees : ℕ
deriving DecidableEq, Repr

structure SocketInfo where
  kind : SockKind
  protocol : ℕ
  ipAddr : ℕ
  port : ℕ
  recvMaxBufSize : ℕ
deriving DecidableEq, Repr

structure SocketBase where
  info : ℕ → SocketInfo
  chain : SockKind → List ℕ
  nextSock : ℕ

namespace SocketBase

def setInfo (b : SocketBase) (sock : ℕ) (info : SocketInfo) : SocketBase :=
  { b with info := Function.update b.info sock info }

/-- `init_socket` and `insert_socket`. -/
def insertSocket (b : SocketBase) (kind : SockKind) (protocol : ℕ) : SocketBase where
  info := Function.update b.info b.nextSock ⟨kind, protocol, 0, 0, sockDefaultMaxBufSz⟩
  chain := Function.update b.chain kind (b.chain kind ++ [b.nextSock])
  nextSock := b.nextSock + 1

/-- `cleanup_socket` takes the socket out of its list. -/
def removeSocket (b : SocketBase) (sock : ℕ) : SocketBase :=
  let kind := (b.info sock).kind
  { b with chain := Function.update b.chain kind ((b.chain kind).erase sock) }

def isUdpPortUsed (b : SocketBase) (port : ℕ) : Bool :=
  (b.chain .udp).any fun sock => (b.info sock).port == port

/-- Whether `bind` on the socket gets as far as to change it. ICMP sockets cannot be bound. -/
def mayBind (b : SocketBase) (sock port : ℕ) : Bool :=
  match (b.info sock).kind with
  | .udp => !b.isUdpPortUsed port
  | .icmp => false
  | .rawIp => true

def bind (b : SocketBase) (sock ipAddr port : ℕ) : SocketBase :=
  let info := b.info sock
  match info.kind with
  | .udp => b.setInfo sock { info with ipAddr := ipAddr, port := port }
  | .icmp => b
  | .rawIp => b.setInfo sock { info with ipAddr := ipAddr }

def findTargetUdpSocket (b : SocketBase) (ipAddr port : ℕ) : Option ℕ :=
  (b.chain .udp).find? fun sock =>
    (b.info sock).port = port ∧
      ((b.info sock).ipAddr = ipAddr ∨ (b.info sock).ipAddr = inaddrAny ∨
        ipAddr = ipBroadcastAddress)

structure SameSockets (b b' : SocketBase) : Prop where
  chain : b'.chain = b.chain
  nextSock : b'.nextSock = b.nextSock
  kind : ∀ sock, (b'.info sock).kind = (b.info sock).kind

theorem SameSockets.refl (b : SocketBase) : SameSockets b b := ⟨rfl, rfl, fun _ => rfl⟩

theorem sameSockets_setInfo {b : SocketBase} {sock : ℕ} {info : SocketInfo}
    (hkind : info.kind = (b.info sock).kind) : SameSockets b (b.setInfo sock info) := by
  refine ⟨rfl, rfl, fun k => ?_⟩
  by_cases heq : k = sock
  · subst heq
    simp [setInfo, hkind]
  · simp [setInfo, Function.update_of_ne heq]

theorem bind_of_udp {b : SocketBase} {sock : ℕ} (h : (b.info sock).kind = .udp)
    (ipAddr port : ℕ) : b.bind sock ipAddr port =
      b.setInfo sock { b.info sock with ipAddr := ipAddr, port := port } := by
  simp only [bind, h]

theorem sameSockets_bind (b : SocketBase) (sock ipAddr port : ℕ) :
    SameSockets b (b.bind sock ipAddr port) := by
  cases hkind : (b.info sock).kind with
  | udp =>
    simp only [bind, hkind]
    exact sameSockets_setInfo hkind.symm
  | icmp =>
    simp only [bind, hkind]
    exact SameSockets.refl b
  | rawIp =>
    simp only [bind, hkind]
    exact sameSockets_setInfo hkind.symm

end SocketBase

inductive Incoming where
  | udp (dstIp dstPort : ℕ) (packet : RecvdPacket)
  | icmp (packet : RecvdPacket)
  | rawIp (dstIp protocol : ℕ) (packet : RecvdPacket)
deriving DecidableEq, Repr

def Incoming.packet : Incoming → RecvdPacket
  | .udp _ _ packet | .icmp packet | .rawIp _ _ packet => packet

structure SocketTable where
  base : SocketBase
  rxQueue : ℕ → Option ℕ
  rxQueueSize : ℕ → ℕ
  packets : List PacketNode

namespace SocketTable

def packet (s : SocketTable) (p : ℕ) : Option PacketNode :=
  (s.packets[p]?).filter fun node => node.frees = 0

def link (s : SocketTable) (p : ℕ) : Option (Option ℕ) := (s.packet p).map PacketNode.next

def setPacket (s : SocketTable) (p : ℕ) (node : PacketNode) : SocketTable :=
  { s with packets := s.packets.set p node }

def kfree (s : SocketTable) (p : ℕ) (node : PacketNode) : SocketTable :=
  s.setPacket p { node with frees := node.frees + 1 }

def setQueue (s : SocketTable) (sock : ℕ) (head : Option ℕ) (size : ℕ) : SocketTable :=
  { s with
    rxQueue := Function.update s.rxQueue sock head
    rxQueueSize := Function.update s.rxQueueSize sock size }

def removePacketFromRxQueue (s : SocketTable) (sock p : ℕ) (node : PacketNode) :
    Option SocketTable :=
  let size := (s.rxQueueSize sock + 2 ^ 32 - node.data.length) % 2 ^ 32
  match s.rxQueue sock with
  | none => some s
  | some head =>
    if head = p then some (s.setQueue sock node.next size)
    else
      (beforeFrom s.link p s.packets.length head).bind fun before =>
        before.elim (some s) fun curr =>
          (s.packet curr).map fun prev =>
            (s.setQueue sock (some head) size).setPacket curr { prev with next := node.next }

def clearLoop (sock : ℕ) : ℕ → SocketTable → Option SocketTable
  | fuel, s =>
    match s.rxQueue sock with
    | none => some (s.setQueue sock none 0)
    | some p =>
      match fuel with
      | 0 => none
      | fuel + 1 => (s.packet p).bind fun node =>
          clearLoop sock fuel ((s.setQueue sock node.next (s.rxQueueSize sock)).kfree p node)

def socketClearRxQueue (s : SocketTable) (sock : ℕ) : Option SocketTable :=
  clearLoop sock s.packets.length s

def enqueueRxData (s : SocketTable) (sock p : ℕ) : Option SocketTable :=
  (s.packet p).bind fun node =>
    let size := (s.rxQueueSize sock + node.data.length) % 2 ^ 32
    if (s.base.info sock).recvMaxBufSize < size then some (s.kfree p node)
    else
      match s.rxQueue sock with
      | none => some (s.setQueue sock (some p) size)
      | some head =>
        (lastFrom s.link s.packets.length head).bind fun last =>
          (s.packet last).map fun node =>
            (s.setQueue sock (some head) size).setPacket last { node with next := some p }

/-- The end of `generic_inet_recvfrom` for ICMP and raw packets: the count falls also when the
packet was only looked at. -/
def release (s : SocketTable) (p : ℕ) : Option SocketTable :=
  (s.packet p).map fun node =>
    let s := s.setPacket p { node with refcnt := (node.refcnt + 2 ^ 32 - 1) % 2 ^ 32 }
    if node.refcnt = 1 then
      s.kfree p { node with refcnt := (node.refcnt + 2 ^ 32 - 1) % 2 ^ 32 }
    else s

/-- `generic_inet_recvfrom` as called for the socket's protocol, with the bytes and the source it
copies out; without a packet it fails or waits. -/
def recvfrom (s : SocketTable) (sock bufLen : ℕ) (peek : Bool) :
    Option (SocketTable × Option RecvdPacket) :=
  match s.rxQueue sock with
  | none => some (s, none)
  | some p =>
    (s.packet p).bind fun node =>
      let copied := { node.toRecvdPacket with data := node.data.take bufLen }
      (if peek then some s else s.removePacketFromRxQueue sock p node).bind fun s =>
        if (s.base.info sock).kind = .udp then some (s, some copied)
        else (s.release p).map fun s => (s, some copied)

/-- `udp_bind` and `raw_ip_bind` on a well-formed address. -/
def bind (s : SocketTable) (sock ipAddr port : ℕ) : Option SocketTable :=
  if s.base.mayBind sock port then
    (s.socketClearRxQueue sock).map fun s => { s with base := s.base.bind sock ipAddr port }
  else some s

end SocketTable

namespace SocketTable

def init : SocketTable where
  base := ⟨fun _ => ⟨.udp, 0, 0, 0, 0⟩, fun _ => [], 0⟩
  rxQueue := fun _ => none
  rxQueueSize := fun _ => 0
  packets := []

end SocketTable

end BrickOS.Networking
