import BrickOS.Basic
import BrickOS.Lib.Run
import BrickOS.Lib.Ring
import BrickOS.Lib.Groups

/-! The receive ring of the 82540EM network card. The card fills descriptors up to the tail
register while the driver reads them; a packet may span several descriptors. -/
namespace BrickOS.Drivers
open BrickOS.Lib

def nRxDescrs : ℕ := 32

def rxStatDd : ℕ := 1

def rxStatEop : ℕ := 2

/-- `i8254x_rx_descriptor_t`, with the contents of its page. -/
structure RxDescriptor where
  len : ℕ
  status : ℕ
  page : List UInt8

structure RxBuffer where
  allocated : ℕ
  data : List UInt8
  deriving DecidableEq

structure Fill where
  data : List UInt8
  eop : Bool
  deriving DecidableEq

def Fill.status (f : Fill) : ℕ := if f.eop then rxStatDd ||| rxStatEop else rxStatDd

/-- Where `i8254x_recv_packets` is: outside, in the outer loop, copying the descriptor `idx`, or
behind the loop. -/
inductive RxPhase where
  | idle
  | scan
  | copy (idx : ℕ) (dataBuffer : List UInt8)
  | finish
  deriving DecidableEq

/-- The receiving half of `i82540em_t`, the card's head and tail registers, the buffers of the
batch and of the batches passed up, and all that the card has received. -/
structure RxNic where
  rxRing : ℕ → RxDescriptor
  rdh : ℕ
  rdt : ℕ
  rxNext : ℕ
  accumulating : Bool
  totalSize : ℕ
  startIdx : ℕ
  phase : RxPhase
  batch : List RxBuffer
  passedUp : List RxBuffer
  fills : List Fill

/-- `i82540em_rx_setup`; `pages` is what the page frames hold. -/
def rxSetup (pages : ℕ → List UInt8) : RxNic where
  rxRing := fun i => ⟨0, 0, pages i⟩
  rdh := 0
  rdt := nRxDescrs - 1
  rxNext := 0
  accumulating := false
  totalSize := 0
  startIdx := 0
  phase := .idle
  batch := []
  passedUp := []
  fills := []

namespace RxNic

def accumulate (nic : RxNic) : RxNic :=
  let nic :=
    if nic.accumulating then nic
    else { nic with startIdx := nic.rxNext, totalSize := 0, accumulating := true }
  { nic with totalSize := nic.totalSize + (nic.rxRing nic.rxNext).len }

def scan (nic : RxNic) : RxNic :=
  let rxDesc := nic.rxRing nic.rxNext
  if rxDesc.status &&& rxStatDd = 0 then { nic with phase := .finish }
  else
    let nic := nic.accumulate
    if rxDesc.status &&& rxStatEop ≠ 0 then { nic with phase := .copy nic.startIdx [] }
    else { nic with rxNext := (nic.rxNext + 1) % nRxDescrs }

/-- The inner loop copies a descriptor's data and clears its status. After the last descriptor of
the packet the buffer joins the batch. -/
def copy (nic : RxNic) (idx : ℕ) (dataBuffer : List UInt8) : RxNic :=
  let desc := nic.rxRing idx
  let dataBuffer := dataBuffer ++ desc.page.take desc.len
  let nic := { nic with rxRing := Function.update nic.rxRing idx { desc with status := 0 } }
  if desc.status &&& rxStatEop ≠ 0 then
    { nic with
      accumulating := false
      totalSize := 0
      batch := nic.batch ++ [⟨nic.totalSize, dataBuffer⟩]
      rxNext := (nic.rxNext + 1) % nRxDescrs
      phase := .scan }
  else { nic with phase := .copy ((idx + 1) % nRxDescrs) dataBuffer }

def finish (nic : RxNic) : RxNic :=
  { nic with
    rdt := if nic.rxNext = 0 then nRxDescrs - 1 else nic.rxNext - 1
    passedUp := nic.passedUp ++ nic.batch
    batch := []
    phase := .idle }

/-- The next step of `i8254x_recv_packets`, which `rx_lock` lets only one thread execute. -/
def recvPackets (nic : RxNic) : RxNic :=
  match nic.phase with
  | .idle => { nic with phase := .scan }
  | .scan => nic.scan
  | .copy idx dataBuffer => nic.copy idx dataBuffer
  | .finish => nic.finish

/-- The card fills the descriptor at its head unless it is the one at the tail. A descriptor has a
page for its data. -/
def fill (nic : RxNic) (f : Fill) : Option RxNic :=
  if nic.rdh ≠ nic.rdt ∧ f.data.length ≤ memoryPageSize then
    let desc := nic.rxRing nic.rdh
    some { nic with
      rxRing := Function.update nic.rxRing nic.rdh
        ⟨f.data.length, f.status, f.data ++ desc.page.drop f.data.length⟩
      rdh := (nic.rdh + 1) % nRxDescrs
      fills := nic.fills ++ [f] }
  else none

end RxNic

inductive RxEvent where
  | fill (f : Fill)
  | drive

def rxStep (nic : RxNic) : RxEvent → Option RxNic
  | .fill f => nic.fill f
  | .drive => some nic.recvPackets

def receivedGroups (nic : RxNic) : List (List Fill) × List Fill := groups Fill.eop nic.fills

def packet (g : List Fill) : List UInt8 := g.flatMap Fill.data

def RxNic.received (nic : RxNic) : List (List UInt8) := (receivedGroups nic).1.map packet

def RxNic.buffers (nic : RxNic) : List RxBuffer := nic.passedUp ++ nic.batch

def RxNic.fillsPassed (nic : RxNic) : ℕ :=
  ((receivedGroups nic).1.take nic.buffers.length).flatten.length

def RxNic.CardOwns (nic : RxNic) (i : ℕ) : Prop :=
  ∃ j, j < (nic.rdt + nRxDescrs - nic.rdh) % nRxDescrs ∧ i = (nic.rdh + j) % nRxDescrs

/-- What the driver promises at every moment: buffers are packets in the order they were received,
of the size allocated for them; a batch has room for them; and the card gets no descriptor whose
data is in no buffer. -/
structure RxNic.Faithful (nic : RxNic) : Prop where
  order : nic.buffers.map RxBuffer.data <+: nic.received
  size : ∀ b ∈ nic.buffers, b.allocated = b.data.length
  fits : nic.batch.length ≤ nRxDescrs
  keeps : ∀ k, nic.fillsPassed ≤ k → k < nic.fills.length → ¬ nic.CardOwns (k % nRxDescrs)

/-- The driver has room for the packet: it has at most as many descriptors as the ring, and when
the driver gives descriptors back it has seen at most one of a packet whose end it has not seen. -/
def RxKept (nic : RxNic) : RxEvent → Prop
  | .fill f => f.eop = true ∨ (receivedGroups nic).2.length + 1 < nRxDescrs
  | .drive =>
    nic.phase = .finish → nic.accumulating = true → nic.rxNext = (nic.startIdx + 1) % nRxDescrs

instance (nic : RxNic) : (e : RxEvent) → Decidable (RxKept nic e)
  | .fill _ => inferInstanceAs (Decidable (_ ∨ _))
  | .drive => inferInstanceAs (Decidable (_ → _ → _))

structure Holds (d : RxDescriptor) (f : Fill) : Prop where
  status : d.status = f.status
  len : d.len = f.data.length
  data : d.page.take d.len = f.data

theorem Holds.dd {d : RxDescriptor} {f : Fill} (h : Holds d f) : d.status &&& rxStatDd ≠ 0 := by
  rw [h.status, Fill.status]
  cases f.eop <;> decide

theorem Holds.eop_iff {d : RxDescriptor} {f : Fill} (h : Holds d f) :
    d.status &&& rxStatEop ≠ 0 ↔ f.eop = true := by
  rw [h.status, Fill.status]
  cases f.eop <;> decide

structure Contents (rxRing : ℕ → RxDescriptor) (fills : List Fill) (copied : ℕ) : Prop where
  filled : ∀ k f, copied ≤ k → fills[k]? = some f → Holds (rxRing (k % nRxDescrs)) f
  clear : ∀ k, fills.length ≤ k → k < copied + nRxDescrs → (rxRing (k % nRxDescrs)).status = 0

structure Delivered (fills : List Fill) (buffers : List RxBuffer) (start : ℕ) : Prop where
  closed : (groups Fill.eop (fills.take start)).2 = []
  data : buffers.map RxBuffer.data = (groups Fill.eop (fills.take start)).1.map packet
  size : ∀ b ∈ buffers, b.allocated = b.data.length

def PhaseAt (fills : List Fill) (accumulating : Bool) (totalSize start copied next : ℕ) :
    RxPhase → Prop
  | .copy idx dataBuffer =>
    idx = copied % nRxDescrs ∧ accumulating = true ∧
      dataBuffer = packet (between fills start copied) ∧
      (∃ f, fills[next]? = some f ∧ f.eop = true) ∧
      totalSize = (packet (between fills start (next + 1))).length
  | .idle | .scan | .finish =>
    copied = start ∧
      (accumulating = true → totalSize = (packet (between fills start next)).length)

/-- The card's and the driver's places in the stream of descriptors: the packet that is read
starts at `start`, the driver has copied up to `copied` and looks at `next`, and the card fills
up to `tail`. -/
structure Synced (nic : RxNic) (start copied next tail : ℕ) : Prop where
  start_le : start ≤ copied
  copied_le : copied ≤ next
  next_le : next ≤ nic.fills.length
  head_le : nic.fills.length ≤ tail
  room : tail + nic.batch.length ≤ start + nRxDescrs
  ahead : tail < next + nRxDescrs
  rdh : nic.rdh = nic.fills.length % nRxDescrs
  rdt : nic.rdt = tail % nRxDescrs
  rxNext : nic.rxNext = next % nRxDescrs
  startIdx : nic.accumulating = true → nic.startIdx = start % nRxDescrs
  waiting : nic.accumulating = false → start = next
  scanned : ∀ f ∈ between nic.fills start next, f.eop = false
  ring : Contents nic.rxRing nic.fills copied
  delivered : Delivered nic.fills nic.buffers start
  short : (receivedGroups nic).2.length < nRxDescrs
  phase : PhaseAt nic.fills nic.accumulating nic.totalSize start copied next nic.phase

section

variable {nic nic' : RxNic} {start copied next tail : ℕ} {f : Fill}

theorem synced_rxSetup (pages : ℕ → List UInt8) :
    Synced (rxSetup pages) 0 0 0 (nRxDescrs - 1) := by
  constructor <;> simp [rxSetup, nRxDescrs, receivedGroups, groups, PhaseAt]
  · constructor <;> simp
  · constructor <;> simp [RxNic.buffers, groups]

theorem Contents.fill {rxRing : ℕ → RxDescriptor} {fills : List Fill}
    (h : Contents rxRing fills copied) {d : RxDescriptor} (hd : Holds d f)
    (hroom : fills.length < copied + nRxDescrs) (hcopied : copied ≤ fills.length) :
    Contents (Function.update rxRing (fills.length % nRxDescrs) d) (fills ++ [f]) copied := by
  have hother : ∀ k, k ≠ fills.length → copied ≤ k → k < copied + nRxDescrs →
      Function.update rxRing (fills.length % nRxDescrs) d (k % nRxDescrs) =
        rxRing (k % nRxDescrs) := by
    intro k hk hlow hhigh
    apply Function.update_of_ne
    exact mod_ne_of_window copied hk ⟨hlow, hhigh⟩ ⟨hcopied, hroom⟩
  constructor
  · intro k g hk hg
    rcases Nat.lt_or_ge k fills.length with hlt | hge
    · rw [hother k (Nat.ne_of_lt hlt) hk (by omega)]
      rw [List.getElem?_append_left hlt] at hg
      exact h.filled k g hk hg
    · have hlen := (List.getElem?_eq_some_iff.mp hg).1
      rw [List.length_append, List.length_singleton] at hlen
      obtain rfl : k = fills.length := by omega
      rw [List.getElem?_concat_length] at hg
      rw [Function.update_self, ← Option.some.inj hg]
      exact hd
  · intro k hk hhigh
    rw [List.length_append, List.length_singleton] at hk
    rw [hother k (by omega) (by omega) hhigh]
    exact h.clear k (by omega) hhigh

theorem Contents.copy {rxRing : ℕ → RxDescriptor} {fills : List Fill}
    (h : Contents rxRing fills copied) {d : RxDescriptor} (hd : d.status = 0)
    (hroom : fills.length ≤ copied + nRxDescrs) :
    Contents (Function.update rxRing (copied % nRxDescrs) d) fills (copied + 1) := by
  constructor
  · intro k g hk hg
    have hlen := (List.getElem?_eq_some_iff.mp hg).1
    rw [Function.update_of_ne]
    · exact h.filled k g (by omega) hg
    · exact mod_ne_of_window copied (by omega) (by omega) (by omega)
  · intro k hk hhigh
    by_cases hplace : k % nRxDescrs = copied % nRxDescrs
    · rw [hplace, Function.update_self]
      exact hd
    · rw [Function.update_of_ne hplace]
      apply h.clear k hk
      rcases Nat.lt_or_ge k (copied + nRxDescrs) with hlt | hge
      · exact hlt
      · obtain rfl : k = copied + nRxDescrs := by omega
        exact absurd (Nat.add_mod_right _ _) hplace

theorem Delivered.append {fills : List Fill} {buffers : List RxBuffer}
    (h : Delivered fills buffers start) (hstart : start ≤ fills.length) (gs : List Fill) :
    Delivered (fills ++ gs) buffers start := by
  obtain ⟨hclosed, hdata, hsize⟩ := h
  have htake : (fills ++ gs).take start = fills.take start :=
    List.take_append_of_le_length hstart
  rw [← htake] at hclosed hdata
  exact ⟨hclosed, hdata, hsize⟩

/-- One more packet, whose descriptors are those from `start` to `next`, gets a buffer. -/
theorem Delivered.concat {fills : List Fill} {buffers : List RxBuffer}
    (h : Delivered fills buffers start) (hstart : start ≤ next)
    (hscanned : ∀ f ∈ between fills start next, f.eop = false) (hf : fills[next]? = some f)
    (heop : f.eop = true) {b : RxBuffer} (hb : b.data = packet (between fills start (next + 1)))
    (hsize : b.allocated = b.data.length) : Delivered fills (buffers ++ [b]) (next + 1) := by
  have hstream : fills.take (next + 1) =
      fills.take start ++ (between fills start next ++ [f]) := by
    rw [← between_succ hf hstart, take_append_between _ (Nat.le_succ_of_le hstart)]
  have hgroups := groups_append_group (fills.take start) hscanned heop
  rw [← hstream, h.closed, List.nil_append, ← between_succ hf hstart] at hgroups
  constructor
  · rw [hgroups]
  · rw [hgroups, List.map_append, List.map_append, h.data, List.map_singleton,
      List.map_singleton, hb]
  · intro c hc
    rcases List.mem_append.mp hc with hc | hc
    · exact h.size c hc
    · rw [List.mem_singleton.mp hc]
      exact hsize

theorem PhaseAt.append {fills : List Fill} {accumulating : Bool} {totalSize : ℕ} {phase : RxPhase}
    (h : PhaseAt fills accumulating totalSize start copied next phase) (gs : List Fill)
    (hcopied : copied ≤ next) (hnext : next ≤ fills.length) :
    PhaseAt (fills ++ gs) accumulating totalSize start copied next phase := by
  cases phase with
  | copy idx dataBuffer =>
    obtain ⟨hidx, hacc, hdata, ⟨f, hf, heop⟩, htotal⟩ := h
    have hlt : next < fills.length := (List.getElem?_eq_some_iff.mp hf).1
    refine ⟨hidx, hacc, ?_, ⟨f, ?_, heop⟩, ?_⟩
    · rw [between_append _ _ (hcopied.trans hnext)]
      exact hdata
    · rw [List.getElem?_append_left hlt]
      exact hf
    · rw [between_append _ _ hlt]
      exact htotal
  | idle | scan | finish =>
    unfold PhaseAt
    rw [between_append _ _ hnext]
    exact h

theorem Synced.receivedGroups_eq (h : Synced nic start copied next tail)
    (hall : next = nic.fills.length) :
    receivedGroups nic = ((groups Fill.eop (nic.fills.take start)).1,
      between nic.fills start next) := by
  have hstream : nic.fills = nic.fills.take start ++ between nic.fills start next := by
    rw [take_append_between _ (h.start_le.trans h.copied_le), hall, List.take_length]
  have hgroups := groups_append_open (nic.fills.take start) h.scanned
  rw [← hstream, h.delivered.closed, List.nil_append] at hgroups
  exact hgroups

theorem Synced.fill (h : Synced nic start copied next tail) (hkept : RxKept nic (.fill f))
    (hfill : nic.fill f = some nic') : Synced nic' start copied next tail := by
  have hstart := h.start_le
  have hcopied := h.copied_le
  have hnext := h.next_le
  have hroom := h.room
  unfold RxNic.fill at hfill
  split_ifs at hfill with hfree
  obtain rfl := Option.some.inj hfill
  have hhead : nic.fills.length < tail := by
    apply Nat.lt_of_le_of_ne h.head_le
    intro heq
    apply hfree.1
    rw [h.rdh, h.rdt, heq]
  have hholds : Holds ⟨f.data.length, f.status,
      f.data ++ (nic.rxRing nic.rdh).page.drop f.data.length⟩ f := by
    constructor
    · rfl
    · rfl
    · simp
  have hgroups : receivedGroups { nic with fills := nic.fills ++ [f] } =
      addToGroups Fill.eop (receivedGroups nic) f := groups_concat _ _
  constructor
  · exact hstart
  · exact hcopied
  · rw [List.length_append]
    omega
  · rw [List.length_append]
    exact hhead
  · exact hroom
  · exact h.ahead
  · rw [List.length_append, List.length_singleton, h.rdh, Nat.mod_add_mod]
  · exact h.rdt
  · exact h.rxNext
  · exact h.startIdx
  · exact h.waiting
  · rw [between_append _ _ hnext]
    exact h.scanned
  · rw [h.rdh]
    exact h.ring.fill (h.rdh ▸ hholds) (by omega) (by omega)
  · exact h.delivered.append (by omega) _
  · change (receivedGroups { nic with fills := nic.fills ++ [f] }).2.length < nRxDescrs
    rw [hgroups, addToGroups]
    split_ifs with heop
    · exact Nat.succ_pos _
    · rw [List.length_append]
      exact hkept.resolve_left heop
  · exact h.phase.append _ hcopied hnext

theorem Synced.next_lt (h : Synced nic start copied next tail) (hcopied : copied = start)
    (hdd : (nic.rxRing nic.rxNext).status &&& rxStatDd ≠ 0) : next < nic.fills.length := by
  apply Nat.lt_of_le_of_ne h.next_le
  intro hall
  have hshort := h.short
  rw [h.receivedGroups_eq hall, length_between h.next_le] at hshort
  have hclear := h.ring.clear next (Nat.le_of_eq hall.symm) (by omega)
  rw [h.rxNext, hclear] at hdd
  exact hdd (Nat.zero_and _)

theorem packet_between_succ {fills : List Fill} (hf : fills[next]? = some f)
    (hstart : start ≤ next) :
    packet (between fills start (next + 1)) = packet (between fills start next) ++ f.data := by
  rw [between_succ hf hstart, packet, packet, List.flatMap_append, List.flatMap_singleton]

theorem accumulate_eq (nic : RxNic) : nic.accumulate = { nic with
    accumulating := true
    startIdx := nic.accumulate.startIdx
    totalSize := nic.accumulate.totalSize } := by
  unfold RxNic.accumulate
  cases hacc : nic.accumulating <;> simp [hacc]

theorem Synced.accumulate_startIdx (h : Synced nic start copied next tail) :
    nic.accumulate.startIdx = start % nRxDescrs := by
  unfold RxNic.accumulate
  cases hacc : nic.accumulating with
  | true => exact h.startIdx hacc
  | false =>
    rw [h.waiting hacc]
    exact h.rxNext

theorem Synced.accumulate_totalSize (h : Synced nic start copied next tail)
    (hf : nic.fills[next]? = some f)
    (htotal : nic.accumulating = true →
      nic.totalSize = (packet (between nic.fills start next)).length) :
    nic.accumulate.totalSize = (packet (between nic.fills start (next + 1))).length := by
  have hstart : start ≤ next := h.start_le.trans h.copied_le
  have hlen : (nic.rxRing nic.rxNext).len = f.data.length := by
    rw [h.rxNext]
    exact (h.ring.filled next f h.copied_le hf).len
  rw [packet_between_succ hf hstart, List.length_append, ← hlen]
  unfold RxNic.accumulate
  cases hacc : nic.accumulating with
  | true => exact congrArg (· + _) (htotal hacc)
  | false =>
    rw [h.waiting hacc, between_self]
    rfl

def remaining (nic : RxNic) (copied next : ℕ) : ℕ :=
  match nic.phase with
  | .scan => (nic.fills.length - next) * 34 + 1
  | .copy _ _ => (nic.fills.length - next - 1) * 34 + (next - copied) + 2
  | .idle | .finish => 0

def Advances (nic : RxNic) (copied next bound : ℕ) : Prop :=
  nic.phase = .finish ∧ next = nic.fills.length ∨
    0 < remaining nic copied next ∧ remaining nic copied next < bound

theorem Synced.scan (h : Synced nic start copied next tail) (hphase : nic.phase = .scan) :
    ∃ next', Synced nic.scan start copied next' tail ∧ nic.scan.fills = nic.fills ∧
      Advances nic.scan copied next' (remaining nic copied next) := by
  have hat := h.phase
  rw [hphase] at hat
  obtain ⟨hcopied, htotal⟩ := hat
  have hnext := h.copied_le
  have hahead := h.ahead
  have hhead := h.head_le
  have hroom := h.room
  have hremaining : remaining nic copied next = (nic.fills.length - next) * 34 + 1 := by
    rw [remaining, hphase]
  rw [hremaining]
  unfold RxNic.scan
  dsimp only
  split_ifs with hdd heop
  · refine ⟨next, { h with phase := ⟨hcopied, htotal⟩ }, rfl, Or.inl ⟨rfl, ?_⟩⟩
    apply Nat.le_antisymm h.next_le
    by_contra hlt
    have hf := List.getElem?_eq_getElem (Nat.lt_of_not_le hlt)
    exact (h.rxNext ▸ h.ring.filled next _ hnext hf).dd hdd
  all_goals
    have hlt : next < nic.fills.length := h.next_lt hcopied hdd
    have hf : nic.fills[next]? = some nic.fills[next] := List.getElem?_eq_getElem hlt
    have hholds : Holds (nic.rxRing nic.rxNext) nic.fills[next] :=
      h.rxNext ▸ h.ring.filled next _ hnext hf
    have htotal' := h.accumulate_totalSize hf htotal
    have hidx := h.accumulate_startIdx
    rw [accumulate_eq]
  · refine ⟨next, { h with startIdx := fun _ => hidx, waiting := fun hacc => ?_, phase := ?_ },
      rfl, Or.inr ?_⟩
    · cases hacc
    · refine ⟨hcopied ▸ hidx, rfl, ?_, ⟨_, hf, hholds.eop_iff.mp heop⟩, htotal'⟩
      rw [hcopied, between_self]
      rfl
    · simp only [remaining]
      unfold nRxDescrs at hroom
      omega
  · refine ⟨next + 1, { h with
      copied_le := by omega
      next_le := hlt
      ahead := by omega
      rxNext := by rw [h.rxNext, Nat.mod_add_mod]
      startIdx := fun _ => hidx
      waiting := fun hacc => ?_
      scanned := ?_
      phase := ?_ }, rfl, Or.inr ?_⟩
    · cases hacc
    · rw [between_succ hf (by omega)]
      intro g hg
      rcases List.mem_append.mp hg with hg | hg
      · exact h.scanned g hg
      · rw [List.mem_singleton.mp hg]
        exact Bool.eq_false_iff.mpr fun hlast => heop (hholds.eop_iff.mpr hlast)
    · rw [hphase]
      exact ⟨hcopied, fun _ => htotal'⟩
    · simp only [remaining, hphase]
      omega

theorem Synced.copy (h : Synced nic start copied next tail) {idx : ℕ} {dataBuffer : List UInt8}
    (hphase : nic.phase = .copy idx dataBuffer) :
    ∃ start' next', Synced (nic.copy idx dataBuffer) start' (copied + 1) next' tail ∧
      (nic.copy idx dataBuffer).fills = nic.fills ∧
      Advances (nic.copy idx dataBuffer) (copied + 1) next' (remaining nic copied next) := by
  have hat := h.phase
  rw [hphase] at hat
  obtain ⟨hidx, hacc, hdata, ⟨f, hf, heop⟩, htotal⟩ := hat
  have hstart := h.start_le
  have hcopied := h.copied_le
  have hhead := h.head_le
  have hroom := h.room
  have hlt : next < nic.fills.length := (List.getElem?_eq_some_iff.mp hf).1
  have hg : nic.fills[copied]? = some nic.fills[copied] :=
    List.getElem?_eq_getElem (Nat.lt_of_le_of_lt hcopied hlt)
  have hholds : Holds (nic.rxRing idx) nic.fills[copied] :=
    hidx ▸ h.ring.filled copied _ (Nat.le_refl _) hg
  have hdata' : dataBuffer ++ (nic.rxRing idx).page.take (nic.rxRing idx).len =
      packet (between nic.fills start (copied + 1)) := by
    rw [packet_between_succ hg hstart, hdata, hholds.data]
  have hring : Contents (Function.update nic.rxRing idx { nic.rxRing idx with status := 0 })
      nic.fills (copied + 1) := hidx ▸ h.ring.copy rfl (by omega)
  have hremaining : remaining nic copied next =
      (nic.fills.length - next - 1) * 34 + (next - copied) + 2 := by
    rw [remaining, hphase]
  rw [hremaining]
  unfold RxNic.copy
  dsimp only
  rw [hdata']
  split_ifs with hlast
  · -- The last descriptor of the packet is the one that the outer loop looked at.
    obtain rfl : copied = next := by
      apply Nat.le_antisymm hcopied
      by_contra hlt'
      have hopen := h.scanned _ (mem_between hg hstart (Nat.lt_of_not_le hlt'))
      rw [hholds.eop_iff.mp hlast] at hopen
      cases hopen
    have hbuffers : RxNic.buffers nic ++
        [⟨nic.totalSize, packet (between nic.fills start (copied + 1))⟩] =
        nic.passedUp ++ (nic.batch ++
          [⟨nic.totalSize, packet (between nic.fills start (copied + 1))⟩]) :=
      List.append_assoc _ _ _
    refine ⟨copied + 1, copied + 1, { h with
      start_le := Nat.le_refl _
      copied_le := Nat.le_refl _
      next_le := hlt
      room := ?_
      ahead := ?_
      rxNext := ?_
      startIdx := fun hacc => ?_
      waiting := fun _ => rfl
      scanned := ?_
      ring := hring
      delivered := ?_
      phase := ⟨rfl, fun hacc => ?_⟩ }, rfl, Or.inr ?_⟩
    · rw [List.length_append, List.length_singleton]
      omega
    · have hahead := h.ahead
      omega
    · rw [h.rxNext, Nat.mod_add_mod]
    · cases hacc
    · rw [between_self]
      exact fun g hg => (List.not_mem_nil hg).elim
    · have hdelivered := h.delivered.concat hstart h.scanned hf heop
        (b := ⟨nic.totalSize, packet (between nic.fills start (copied + 1))⟩) rfl htotal
      rw [hbuffers] at hdelivered
      exact hdelivered
    · cases hacc
    · simp only [remaining]
      omega
  · have hlt' : copied < next := by
      apply Nat.lt_of_le_of_ne hcopied
      rintro rfl
      rw [hf] at hg
      rw [← Option.some.inj hg] at hholds
      exact hlast (hholds.eop_iff.mpr heop)
    refine ⟨start, next, { h with
      start_le := Nat.le_succ_of_le hstart
      copied_le := hlt'
      ring := hring
      phase := ⟨?_, hacc, rfl, ⟨f, hf, heop⟩, htotal⟩ }, rfl, Or.inr ?_⟩
    · rw [hidx, Nat.mod_add_mod]
    · simp only [remaining]
      omega

theorem Synced.finish (h : Synced nic start copied next tail) (hphase : nic.phase = .finish)
    (hkept : RxKept nic .drive) : ∃ tail', Synced nic.finish start copied next tail' := by
  have hat := h.phase
  rw [hphase] at hat
  have hnext : next ≤ start + 1 := by
    cases hacc : nic.accumulating with
    | false =>
      rw [h.waiting hacc]
      exact Nat.le_succ _
    | true =>
      have hplace := hkept hphase hacc
      have hshort := h.room
      rw [h.rxNext, h.startIdx hacc, Nat.mod_add_mod] at hplace
      have := h.next_le
      have := h.head_le
      by_contra hfar
      refine mod_ne_of_window (start + 1) ?_ ?_ ?_ hplace
      · omega
      · omega
      · exact ⟨Nat.le_refl _, Nat.lt_add_of_pos_right (Nat.succ_pos _)⟩
  have hhead := h.head_le
  have hahead := h.ahead
  refine ⟨next + (nRxDescrs - 1), { h with
    head_le := ?_
    room := ?_
    ahead := ?_
    rdt := ?_
    delivered := ?_
    phase := hat }⟩
  · change nic.fills.length ≤ _
    unfold nRxDescrs at *
    omega
  · rw [RxNic.finish, List.length_nil]
    unfold nRxDescrs
    omega
  · unfold nRxDescrs
    omega
  · simp only [RxNic.finish, h.rxNext]
    unfold nRxDescrs
    split_ifs <;> omega
  · have hbuffers : nic.finish.buffers = nic.buffers := List.append_nil _
    rw [hbuffers]
    exact h.delivered

theorem Synced.step (h : Synced nic start copied next tail) {e : RxEvent} (hkept : RxKept nic e)
    (hstep : rxStep nic e = some nic') :
    ∃ start' copied' next' tail', Synced nic' start' copied' next' tail' := by
  cases e with
  | fill f => exact ⟨_, _, _, _, h.fill hkept hstep⟩
  | drive =>
    obtain rfl := Option.some.inj hstep
    unfold RxNic.recvPackets
    cases hphase : nic.phase with
    | idle =>
      have hat := h.phase
      rw [hphase] at hat
      exact ⟨_, _, _, _, { h with phase := hat }⟩
    | scan =>
      obtain ⟨next', hscan, -⟩ := h.scan hphase
      exact ⟨_, _, _, _, hscan⟩
    | copy idx dataBuffer =>
      obtain ⟨start', next', hcopy, -⟩ := h.copy hphase
      exact ⟨_, _, _, _, hcopy⟩
    | finish =>
      obtain ⟨tail', hfinish⟩ := h.finish hphase hkept
      exact ⟨_, _, _, _, hfinish⟩

theorem Synced.fillsPassed_eq (h : Synced nic start copied next tail) :
    nic.fillsPassed = start := by
  have hstart : start ≤ nic.fills.length := h.start_le.trans (h.copied_le.trans h.next_le)
  have hprefix : (groups Fill.eop (nic.fills.take start)).1 <+: (receivedGroups nic).1 := by
    have hp := groups_isPrefix Fill.eop (nic.fills.take start) (nic.fills.drop start)
    rw [List.take_append_drop] at hp
    exact hp
  have hlen : nic.buffers.length = (groups Fill.eop (nic.fills.take start)).1.length := by
    have hdata := congrArg List.length h.delivered.data
    rwa [List.length_map, List.length_map] at hdata
  have hflat := groups_flatten Fill.eop (nic.fills.take start)
  rw [h.delivered.closed, List.append_nil] at hflat
  rw [RxNic.fillsPassed, hlen, ← List.prefix_iff_eq_take.mp hprefix, hflat, List.length_take,
    Nat.min_eq_left hstart]

theorem Synced.faithful (h : Synced nic start copied next tail) : nic.Faithful := by
  have hstart := h.start_le
  have hcopied := h.copied_le
  have hnext := h.next_le
  have hhead := h.head_le
  have hroom := h.room
  have hahead := h.ahead
  constructor
  · have hp := groups_isPrefix Fill.eop (nic.fills.take start) (nic.fills.drop start)
    rw [List.take_append_drop] at hp
    rw [h.delivered.data]
    exact hp.map packet
  · exact h.delivered.size
  · omega
  · intro k hk hlt hcard
    rw [h.fillsPassed_eq] at hk
    obtain ⟨j, hj, hplace⟩ := hcard
    have hfree : (nic.rdt + nRxDescrs - nic.rdh) % nRxDescrs = tail - nic.fills.length := by
      rw [h.rdt, h.rdh]
      unfold nRxDescrs at *
      omega
    rw [hfree] at hj
    rw [h.rdh, Nat.mod_add_mod] at hplace
    exact mod_ne_of_window start (by omega) (by omega) (by omega) hplace

/-- The loop reads every descriptor that the card has filled, and ends. -/
theorem Synced.loop_ends (h : Synced nic start copied next tail)
    (hpos : 0 < remaining nic copied next) :
    ∃ n nic' start' copied' tail', run rxStep nic (List.replicate n .drive) = some nic' ∧
      Synced nic' start' copied' nic'.fills.length tail' ∧ nic'.phase = .finish ∧
      nic'.fills = nic.fills := by
  generalize hm : remaining nic copied next = m at hpos
  induction m using Nat.strong_induction_on generalizing nic start copied next with
  | h m ih =>
    have hadvance : ∃ start' copied' next', Synced nic.recvPackets start' copied' next' tail ∧
        nic.recvPackets.fills = nic.fills ∧ Advances nic.recvPackets copied' next' m := by
      unfold RxNic.recvPackets
      cases hphase : nic.phase with
      | idle => simp [remaining, hphase] at hm; omega
      | finish => simp [remaining, hphase] at hm; omega
      | scan =>
        obtain ⟨next', hscan⟩ := h.scan hphase
        exact ⟨start, copied, next', hm ▸ hscan⟩
      | copy idx dataBuffer =>
        obtain ⟨start', next', hcopy⟩ := h.copy hphase
        exact ⟨start', copied + 1, next', hm ▸ hcopy⟩
    obtain ⟨start', copied', next', hsynced, hfills, ⟨hfinish, hall⟩ | ⟨hpos', hlt⟩⟩ := hadvance
    · rw [hall] at hsynced
      exact ⟨1, _, _, _, _, rfl, hsynced, hfinish, hfills⟩
    · obtain ⟨n, nic', start'', copied'', tail', hrun, hsynced', hfinish, hfills'⟩ :=
        ih _ hlt hsynced rfl hpos'
      exact ⟨n + 1, nic', start'', copied'', tail', hrun, hsynced', hfinish,
        hfills'.trans hfills⟩

theorem Synced.run_passes_all (h : Synced nic start copied next tail)
    (hphase : nic.phase = .idle) :
    ∃ n nic', run rxStep nic (List.replicate n .drive) = some nic' ∧ nic'.phase = .idle ∧
      nic'.passedUp.map RxBuffer.data = nic.received := by
  have hat := h.phase
  rw [hphase] at hat
  have hbegin : Synced { nic with phase := .scan } start copied next tail :=
    { h with phase := hat }
  obtain ⟨n, nic', start', copied', tail', hrun, hsynced, hfinish, hfills⟩ :=
    hbegin.loop_ends (Nat.succ_pos _)
  refine ⟨1 + n + 1, nic'.finish, ?_, rfl, ?_⟩
  · have hfirst : run rxStep nic (List.replicate 1 .drive) = some { nic with phase := .scan } := by
      simp [run, rxStep, RxNic.recvPackets, hphase]
    have hlast : run rxStep nic' (List.replicate 1 .drive) = some nic'.finish := by
      simp [run, rxStep, RxNic.recvPackets, hfinish]
    rw [List.replicate_add, run_append, List.replicate_add, run_append, hfirst,
      Option.bind_some, hrun, Option.bind_some, hlast]
  · have hreceived : nic.received = nic'.received := by
      unfold RxNic.received receivedGroups
      rw [hfills]
    rw [hreceived, RxNic.received, hsynced.receivedGroups_eq rfl, ← hsynced.delivered.data]
    rfl

end

/-- In every interleaving of the card and the driver in which the driver has room for the packets,
buffers are passed up faithfully, and whenever the driver is called it passes up all that was
received. -/
theorem recvPackets_faithful (pages : ℕ → List UInt8) (es : List RxEvent) (nic : RxNic)
    (hkept : Along rxStep RxKept (rxSetup pages) es)
    (hrun : run rxStep (rxSetup pages) es = some nic) :
    nic.Faithful ∧ (nic.phase = .idle →
      ∃ n nic', run rxStep nic (List.replicate n .drive) = some nic' ∧ nic'.phase = .idle ∧
        nic'.passedUp.map RxBuffer.data = nic.received) := by
  have hstart : ∃ start copied next tail, Synced (rxSetup pages) start copied next tail :=
    ⟨_, _, _, _, synced_rxSetup pages⟩
  have hkeep : ∀ n e n', RxKept n e → rxStep n e = some n' →
      (∃ start copied next tail, Synced n start copied next tail) →
      ∃ start copied next tail, Synced n' start copied next tail := by
    intro n e n' hk hn' hn
    obtain ⟨_, _, _, _, hsynced⟩ := hn
    exact hsynced.step hk hn'
  obtain ⟨_, _, _, _, hsynced⟩ := run_invariant
    (I := fun n => ∃ start copied next tail, Synced n start copied next tail) hkeep hkept hrun hstart
  exact ⟨hsynced.faithful, hsynced.run_passes_all⟩

/-- A packet of two descriptors; the driver runs after the first and after the second. -/
theorem recvPackets_faithful_two_descriptors :
    ∃ nic, run rxStep (rxSetup fun _ => []) (.fill ⟨[1], false⟩ :: List.replicate 4 .drive ++
        .fill ⟨[2], true⟩ :: List.replicate 6 .drive) = some nic ∧
      nic.passedUp = [⟨2, [1, 2]⟩] ∧ nic.Faithful := by
  have hkept : Along rxStep RxKept (rxSetup fun _ => [])
      (.fill ⟨[1], false⟩ :: List.replicate 4 .drive ++
        .fill ⟨[2], true⟩ :: List.replicate 6 .drive) := by decide +kernel
  obtain ⟨nic, hrun, hpassed⟩ := Option.map_eq_some_iff.mp (by decide +kernel :
    (run rxStep (rxSetup fun _ => []) (.fill ⟨[1], false⟩ :: List.replicate 4 .drive ++
      .fill ⟨[2], true⟩ :: List.replicate 6 .drive)).map RxNic.passedUp = some [⟨2, [1, 2]⟩])
  exact ⟨nic, hrun, hpassed, (recvPackets_faithful _ _ nic hkept hrun).1⟩

/-- The driver has seen two descriptors of a packet of three and gives the first back. The card
goes round the ring, and the first descriptor's data is passed up with a later packet's. -/
theorem recvPackets_overwritten :
    ∃ nic, run rxStep (rxSetup fun _ => [])
        (.fill ⟨[1], false⟩ :: .fill ⟨[2], false⟩ :: List.replicate 5 .drive ++
          .fill ⟨[3], true⟩ :: List.replicate 29 (.fill ⟨[4], true⟩) ++
          .fill ⟨[9], true⟩ :: List.replicate 3 .drive) = some nic ∧
      nic.buffers = [⟨3, [9]⟩] ∧ nic.received.head? = some [1, 2, 3] ∧ ¬ nic.Faithful := by
  obtain ⟨nic, hrun, hnic⟩ := Option.map_eq_some_iff.mp (by decide +kernel :
    (run rxStep (rxSetup fun _ => [])
      (.fill ⟨[1], false⟩ :: .fill ⟨[2], false⟩ :: List.replicate 5 .drive ++
        .fill ⟨[3], true⟩ :: List.replicate 29 (.fill ⟨[4], true⟩) ++
        .fill ⟨[9], true⟩ :: List.replicate 3 .drive)).map
      (fun nic => (nic.buffers, nic.received.head?)) = some ([⟨3, [9]⟩], some [1, 2, 3]))
  obtain ⟨hbuffers, hreceived⟩ := Prod.mk.inj hnic
  refine ⟨nic, hrun, hbuffers, hreceived, fun hfaithful => ?_⟩
  have hsize := hfaithful.size ⟨3, [9]⟩ (by rw [hbuffers]; exact List.mem_singleton_self _)
  cases hsize

end BrickOS.Drivers
