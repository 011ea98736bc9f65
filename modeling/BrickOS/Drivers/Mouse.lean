import BrickOS.Lib.Ring

/-! The PS/2 mouse. The interrupt handler puts three bytes together to a packet and pushes it to a
ring, from which `mouse_read` takes packets; a byte may arrive at any point of a read. -/
namespace BrickOS.Drivers
open BrickOS.Lib

def mouseBufferSize : ℕ := 256

def sizeofMousePacket : ℕ := 6

structure MousePacket where
  relx : BitVec 16
  rely : BitVec 16
  btns : BitVec 8
  deriving DecidableEq

structure Mouse where
  mouseCycle : ℕ
  mouseStatus : BitVec 8
  mouseX : BitVec 16
  mouseY : BitVec 16
  packets : ℕ → MousePacket
  mouseHead : ℕ
  mouseTail : ℕ

namespace Mouse

def mouseBufferPush (packet : MousePacket) (m : Mouse) : Mouse :=
  let next := (m.mouseHead + 1) % mouseBufferSize
  if next ≠ m.mouseTail then
    { m with packets := copyInto m.packets m.mouseHead [packet], mouseHead := next }
  else m

def store (data : BitVec 8) (m : Mouse) : Mouse :=
  match m.mouseCycle with
  | 0 => { m with mouseStatus := data }
  | 1 => { m with mouseX := data.setWidth 16 }
  | 2 => { m with mouseY := data.setWidth 16 }
  | _ => m

def packet (m : Mouse) : MousePacket :=
  let leftClicked := m.mouseStatus &&& 0x1
  let rightClicked := m.mouseStatus &&& 0x2
  let middleClicked := m.mouseStatus &&& 0x4
  let relX := if m.mouseStatus &&& 0x10 ≠ 0 then m.mouseX ||| 0xFF00 else m.mouseX
  let relY := if m.mouseStatus &&& 0x20 ≠ 0 then m.mouseY ||| 0xFF00 else m.mouseY
  let btns : BitVec 8 := 0
  let btns := if leftClicked ≠ 0 then btns ||| 1#8 <<< 0 else btns
  let btns := if middleClicked ≠ 0 then btns ||| 1#8 <<< 1 else btns
  let btns := if rightClicked ≠ 0 then btns ||| 1#8 <<< 2 else btns
  ⟨relX, relY, btns⟩

def handleMouseInterrupt (data : BitVec 8) (m : Mouse) : Mouse :=
  let m := m.store data
  let m := { m with mouseCycle := (m.mouseCycle + 1) % 3 }
  if m.mouseCycle ≠ 0 then m
  else if m.mouseStatus &&& 0x80 ≠ 0 ∨ m.mouseStatus &&& 0x40 ≠ 0 then m
  else m.mouseBufferPush m.packet

def count (m : Mouse) : ℕ := (m.mouseHead + mouseBufferSize - m.mouseTail) % mouseBufferSize

def buffered (m : Mouse) : List MousePacket :=
  ringSlice m.packets mouseBufferSize m.mouseTail m.count

def Full (m : Mouse) : Prop := m.buffered.length = mouseBufferSize - 1

instance (m : Mouse) : Decidable m.Full := inferInstanceAs (Decidable (_ = _))

end Mouse

/-- Where `mouse_read` is, with its aligned `size` and what it has put in the caller's buffer: at the
head of its loop, in `mouse_buffer_pop` behind the test, or there with the packet copied and the tail not
yet moved. -/
inductive MouseReader where
  | idle
  | loop (size : ℕ) (buffer : List MousePacket)
  | copy (size : ℕ) (buffer : List MousePacket)
  | advance (size : ℕ) (buffer : List MousePacket) (packet : MousePacket)

def MouseReader.popped : MouseReader → List MousePacket
  | .idle => []
  | .loop _ buffer | .copy _ buffer | .advance _ buffer _ => buffer

/-- The driver and its reader, with the bytes that have arrived, whether the ring was full at the end
of each packet, and the packets of the calls that have returned. -/
structure MouseSystem where
  mouse : Mouse
  reader : MouseReader
  received : List (BitVec 8)
  full : List Bool
  returned : List MousePacket

inductive MouseEvent where
  | byte (data : BitVec 8)
  | read (size : ℕ)
  | step

def MouseEvent.data? : MouseEvent → Option (BitVec 8)
  | .byte data => some data
  | _ => none

namespace MouseSystem

def initial : MouseSystem where
  mouse := ⟨0, 0, 0, 0, fun _ => ⟨0, 0, 0⟩, 0, 0⟩
  reader := .idle
  received := []
  full := []
  returned := []

def receive (data : BitVec 8) (s : MouseSystem) : MouseSystem :=
  { s with
    mouse := s.mouse.handleMouseInterrupt data
    received := s.received ++ [data]
    full := if s.mouse.mouseCycle = 2 then s.full ++ [decide s.mouse.Full] else s.full }

def alignedSize (size : ℕ) : ℕ :=
  let size :=
    if size > mouseBufferSize * sizeofMousePacket then mouseBufferSize * sizeofMousePacket else size
  size / sizeofMousePacket * sizeofMousePacket

def readStep (s : MouseSystem) : MouseSystem :=
  match s.reader with
  | .idle => s
  | .loop size buffer =>
    if sizeofMousePacket * buffer.length < size then
      if s.mouse.mouseHead = s.mouse.mouseTail then
        { s with reader := .idle, returned := s.returned ++ buffer }
      else { s with reader := .copy size buffer }
    else { s with reader := .idle, returned := s.returned ++ buffer }
  | .copy size buffer => { s with reader := .advance size buffer (s.mouse.packets s.mouse.mouseTail) }
  | .advance size buffer packet =>
    { s with
      mouse := { s.mouse with mouseTail := (s.mouse.mouseTail + 1) % mouseBufferSize }
      reader := .loop size (buffer ++ [packet]) }

def step (s : MouseSystem) : MouseEvent → MouseSystem
  | .byte data => s.receive data
  | .read size =>
    match s.reader with
    | .idle => { s with reader := .loop (alignedSize size) [] }
    | _ => s
  | .step => s.readStep

end MouseSystem

/-- The packet that three bytes stand for: movements of 9 bits in two's complement and the buttons in
the order left, middle, right. -/
def decode (status x y : BitVec 8) : MousePacket where
  relx := (BitVec.ofBool (status.getLsbD 4) ++ x).signExtend 16
  rely := (BitVec.ofBool (status.getLsbD 5) ++ y).signExtend 16
  btns := (BitVec.ofBool (status.getLsbD 1) ++ BitVec.ofBool (status.getLsbD 2) ++
    BitVec.ofBool (status.getLsbD 0)).setWidth 8

def overflows (status : BitVec 8) : Bool := status.getLsbD 6 || status.getLsbD 7

section Threes

variable {α : Type*}

def threes : List α → List (α × α × α)
  | a :: b :: c :: l => (a, b, c) :: threes l
  | _ => []

def remainder : List α → List α
  | _ :: _ :: _ :: l => remainder l
  | l => l

theorem threes_concat (l : List α) (d : α) :
    threes (l ++ [d]) = threes l ++ match remainder l with
      | [a, b] => [(a, b, d)]
      | _ => [] := by
  fun_induction threes l with
  | case1 a b c l ih =>
    rw [remainder]
    exact congrArg ((a, b, c) :: ·) ih
  | case2 l hl =>
    match l with
    | [] => rfl
    | [a] => rfl
    | [a, b] => rfl
    | a :: b :: c :: l => exact absurd rfl (hl a b c l)

theorem remainder_concat (l : List α) (d : α) :
    remainder (l ++ [d]) = match remainder l with
      | [_, _] => []
      | r => r ++ [d] := by
  fun_induction threes l with
  | case1 a b c l ih =>
    rw [remainder, ← ih]
    rfl
  | case2 l hl =>
    match l with
    | [] => rfl
    | [a] => rfl
    | [a, b] => rfl
    | a :: b :: c :: l => exact absurd rfl (hl a b c l)

end Threes

def keep : (BitVec 8 × BitVec 8 × BitVec 8) × Bool → Option MousePacket
  | ((status, x, y), full) => if overflows status || full then none else some (decode status x y)

namespace Mouse

theorem overflow_iff (status : BitVec 8) :
    (status &&& 0x80 ≠ 0 ∨ status &&& 0x40 ≠ 0) ↔ overflows status = true := by
  revert status
  decide +kernel

theorem signBits (status : BitVec 8) :
    (status &&& 0x10 ≠ 0 ↔ status.getLsbD 4 = true) ∧
      (status &&& 0x20 ≠ 0 ↔ status.getLsbD 5 = true) := by
  revert status
  decide +kernel

theorem signExtend_cons (sign : Bool) (x : BitVec 8) :
    (BitVec.ofBool sign ++ x).signExtend 16 =
      if sign = true then x.setWidth 16 ||| 0xFF00 else x.setWidth 16 := by
  revert sign x
  decide +kernel

theorem buttons_eq (m : Mouse) (x y : BitVec 8) :
    m.packet.btns = (decode m.mouseStatus x y).btns := by
  dsimp only [packet, decode]
  generalize m.mouseStatus = status
  revert status
  decide +kernel

theorem packet_eq {m : Mouse} {x y : BitVec 8} (hx : m.mouseX = x.setWidth 16)
    (hy : m.mouseY = y.setWidth 16) : m.packet = decode m.mouseStatus x y := by
  have hbtns := buttons_eq m x y
  have hrelx : m.packet.relx = (decode m.mouseStatus x y).relx := by
    simp only [packet, decode, signExtend_cons, (signBits _).1, hx]
  have hrely : m.packet.rely = (decode m.mouseStatus x y).rely := by
    simp only [packet, decode, signExtend_cons, (signBits _).2, hy]
  cases h : m.packet
  cases h' : decode m.mouseStatus x y
  simp_all

structure InRing (m : Mouse) : Prop where
  head_lt : m.mouseHead < mouseBufferSize
  tail_lt : m.mouseTail < mouseBufferSize

section Ring

variable {m : Mouse}

theorem length_buffered (m : Mouse) : m.buffered.length = m.count :=
  length_ringSlice _ _ _ _

theorem InRing.head_eq (h : m.InRing) : (m.mouseTail + m.count) % mouseBufferSize = m.mouseHead := by
  have := h.head_lt
  have := h.tail_lt
  unfold count mouseBufferSize at *
  omega

theorem InRing.empty_iff (h : m.InRing) : m.mouseHead = m.mouseTail ↔ m.count = 0 := by
  have := h.head_lt
  have := h.tail_lt
  unfold count mouseBufferSize at *
  omega

theorem InRing.full_iff (h : m.InRing) :
    (m.mouseHead + 1) % mouseBufferSize = m.mouseTail ↔ m.Full := by
  have := h.head_lt
  have := h.tail_lt
  rw [Full, length_buffered]
  unfold count mouseBufferSize at *
  omega

theorem InRing.push (h : m.InRing) (p : MousePacket) : (m.mouseBufferPush p).InRing := by
  dsimp only [mouseBufferPush]
  split
  · exact ⟨Nat.mod_lt _ (by decide), h.tail_lt⟩
  · exact h

theorem InRing.buffered_push (h : m.InRing) (p : MousePacket) :
    (m.mouseBufferPush p).buffered = if m.Full then m.buffered else m.buffered ++ [p] := by
  by_cases hfull : m.Full
  · rw [mouseBufferPush, if_neg (not_not.mpr (h.full_iff.mpr hfull)), if_pos hfull]
  · have hne := mt h.full_iff.mp hfull
    have hcount : m.count + 1 < mouseBufferSize := by
      have hlt : m.count < mouseBufferSize := Nat.mod_lt _ (by decide)
      rw [Full, length_buffered] at hfull
      omega
    have hhead := h.head_lt
    have htail := h.tail_lt
    have hcount' : ((m.mouseHead + 1) % mouseBufferSize + mouseBufferSize - m.mouseTail) %
        mouseBufferSize = m.count + 1 := by
      unfold count mouseBufferSize at *
      omega
    rw [mouseBufferPush, if_pos hne, if_neg hfull]
    unfold buffered
    rw [count, hcount', ← h.head_eq]
    apply ringSlice_copyInto
    · exact Nat.mod_lt _ (by decide)
    · exact hcount.le

theorem InRing.buffered_pop (h : m.InRing) (hcount : 0 < m.count) :
    m.buffered = m.packets m.mouseTail ::
      buffered { m with mouseTail := (m.mouseTail + 1) % mouseBufferSize } := by
  have hhead := h.head_lt
  have htail := h.tail_lt
  have hcount' : m.count =
      1 + (m.mouseHead + mouseBufferSize - (m.mouseTail + 1) % mouseBufferSize) % mouseBufferSize := by
    unfold count mouseBufferSize at *
    omega
  unfold buffered
  rw [hcount', ringSlice_add]
  simp [ringSlice, count, Nat.mod_eq_of_lt htail]

end Ring

def Holds (m : Mouse) : List (BitVec 8) → Prop
  | [] => m.mouseCycle = 0
  | [status] => m.mouseCycle = 1 ∧ m.mouseStatus = status
  | [status, x] => m.mouseCycle = 2 ∧ m.mouseStatus = status ∧ m.mouseX = x.setWidth 16
  | _ => False

section Interrupt

variable {m : Mouse} {status x : BitVec 8}

theorem handleMouseInterrupt_first (h : m.Holds []) (data : BitVec 8) :
    m.handleMouseInterrupt data = { m with mouseCycle := 1, mouseStatus := data } := by
  have hcycle : m.mouseCycle = 0 := h
  simp [handleMouseInterrupt, store, hcycle]

theorem handleMouseInterrupt_second (h : m.Holds [status]) (data : BitVec 8) :
    m.handleMouseInterrupt data = { m with mouseCycle := 2, mouseX := data.setWidth 16 } := by
  have hcycle : m.mouseCycle = 1 := h.1
  simp [handleMouseInterrupt, store, hcycle]

theorem handleMouseInterrupt_third (h : m.Holds [status, x]) (data : BitVec 8) :
    m.handleMouseInterrupt data =
      let m' := { m with mouseCycle := 0, mouseY := data.setWidth 16 }
      if overflows status then m' else m'.mouseBufferPush (decode status x data) := by
  obtain ⟨hcycle, rfl, hx⟩ := h
  have hpacket : packet { m with mouseCycle := 0, mouseY := data.setWidth 16 } =
      decode m.mouseStatus x data := packet_eq hx rfl
  simp only [handleMouseInterrupt, store, hcycle]
  rw [if_neg (by decide)]
  simp only [overflow_iff]
  rw [← hpacket]

end Interrupt
end Mouse

namespace MouseSystem

variable {s : MouseSystem}

def ReaderHolds (s : MouseSystem) : Prop :=
  match s.reader with
  | .copy _ _ => 0 < s.mouse.count
  | .advance _ _ packet => ∃ rest, s.mouse.buffered = packet :: rest
  | _ => True

structure Inv (s : MouseSystem) : Prop where
  inRing : s.mouse.InRing
  holds : s.mouse.Holds (remainder s.received)
  full_length : s.full.length = (threes s.received).length
  reader : s.ReaderHolds
  stream : s.returned ++ s.reader.popped ++ s.mouse.buffered =
    ((threes s.received).zip s.full).filterMap keep

theorem inv_initial : initial.Inv where
  inRing := ⟨by decide, by decide⟩
  holds := rfl
  full_length := rfl
  reader := trivial
  stream := rfl

/-- The reader holds as the ring grows at its end. -/
theorem ReaderHolds.append {t : MouseSystem} {l : List MousePacket} (h : s.ReaderHolds)
    (hreader : t.reader = s.reader) (hbuf : t.mouse.buffered = s.mouse.buffered ++ l) :
    t.ReaderHolds := by
  have hcount := congrArg List.length hbuf
  rw [List.length_append, Mouse.length_buffered, Mouse.length_buffered] at hcount
  unfold ReaderHolds at *
  rw [hreader]
  cases hr : s.reader with
  | idle => trivial
  | loop size buffer => trivial
  | copy size buffer =>
    rw [hr] at h
    show 0 < t.mouse.count
    have : 0 < s.mouse.count := h
    omega
  | advance size buffer packet =>
    rw [hr] at h
    obtain ⟨rest, hrest⟩ := h
    exact ⟨rest ++ l, by rw [hbuf, hrest]; rfl⟩

/-- A byte adds groups to the bytes received, and to the ring what is kept of them. -/
theorem Inv.extend {data : BitVec 8} {m : Mouse} {l : List MousePacket} {f : List Bool}
    {g : List (BitVec 8 × BitVec 8 × BitVec 8)} (h : s.Inv)
    (hmouse : s.mouse.handleMouseInterrupt data = m) (hring : m.InRing)
    (hholds : m.Holds (remainder (s.received ++ [data])))
    (hthrees : threes (s.received ++ [data]) = threes s.received ++ g)
    (hfull : (s.receive data).full = s.full ++ f) (hlen : f.length = g.length)
    (hkeep : (g.zip f).filterMap keep = l) (hbuf : m.buffered = s.mouse.buffered ++ l) :
    (s.receive data).Inv := by
  subst hmouse
  refine ⟨hring, hholds, ?_, h.reader.append rfl hbuf, ?_⟩
  · rw [hfull, List.length_append, hlen, h.full_length, ← List.length_append, ← hthrees]
    rfl
  · show s.returned ++ s.reader.popped ++ (s.mouse.handleMouseInterrupt data).buffered =
      ((threes (s.received ++ [data])).zip (s.receive data).full).filterMap keep
    rw [hthrees, hfull, List.zip_append h.full_length.symm, List.filterMap_append, hkeep, ← h.stream,
      hbuf, List.append_assoc _ s.mouse.buffered]

/-- The ring and the flags stay as they are before the third byte. -/
theorem Inv.receive_partial {data : BitVec 8} {m : Mouse} (h : s.Inv) (hcycle : s.mouse.mouseCycle ≠ 2)
    (hmouse : s.mouse.handleMouseInterrupt data = m) (hpackets : m.packets = s.mouse.packets)
    (hhead : m.mouseHead = s.mouse.mouseHead) (htail : m.mouseTail = s.mouse.mouseTail)
    (hholds : m.Holds (remainder (s.received ++ [data])))
    (hthrees : threes (s.received ++ [data]) = threes s.received) : (s.receive data).Inv := by
  apply h.extend (g := []) (f := []) (l := []) hmouse _ hholds _ _ rfl rfl
  · rw [Mouse.buffered, Mouse.count, hpackets, hhead, htail, List.append_nil]
    rfl
  · constructor
    · rw [hhead]
      exact h.inRing.head_lt
    · rw [htail]
      exact h.inRing.tail_lt
  · rw [hthrees, List.append_nil]
  · rw [List.append_nil]
    exact if_neg hcycle

theorem Inv.receive_third {status x : BitVec 8} (h : s.Inv) (hr : remainder s.received = [status, x])
    (data : BitVec 8) : (s.receive data).Inv := by
  have hholds := h.holds
  have hthrees := threes_concat s.received data
  have hremainder := remainder_concat s.received data
  rw [hr] at hholds hthrees hremainder
  have hring : Mouse.InRing { s.mouse with mouseCycle := 0, mouseY := data.setWidth 16 } :=
    ⟨h.inRing.head_lt, h.inRing.tail_lt⟩
  have hfull : (s.receive data).full = s.full ++ [decide s.mouse.Full] := if_pos hholds.1
  have hmouse := Mouse.handleMouseInterrupt_third hholds data
  dsimp only at hmouse
  by_cases hover : overflows status = true
  · rw [if_pos hover] at hmouse
    apply h.extend hmouse hring _ hthrees hfull rfl rfl
    · rw [List.zip_cons_cons, List.zip_nil_left, List.filterMap_cons, keep, hover]
      exact (List.append_nil _).symm
    · rw [hremainder]
      rfl
  · rw [if_neg hover] at hmouse
    apply h.extend hmouse (hring.push _) _ hthrees hfull rfl rfl
    · rw [hring.buffered_push, List.zip_cons_cons, List.zip_nil_left, List.filterMap_cons, keep,
        Bool.eq_false_iff.mpr hover, Bool.false_or]
      show (if s.mouse.Full then s.mouse.buffered else s.mouse.buffered ++ [decode status x data]) = _
      by_cases hf : s.mouse.Full
      · rw [if_pos hf, if_pos (decide_eq_true hf)]
        exact (List.append_nil _).symm
      · rw [if_neg hf, if_neg (by simpa using hf)]
        rfl
    · rw [hremainder]
      show Mouse.mouseCycle _ = 0
      dsimp only [Mouse.mouseBufferPush]
      split <;> rfl

theorem Inv.receive (h : s.Inv) (data : BitVec 8) : (s.receive data).Inv := by
  have hholds := h.holds
  have hthrees := threes_concat s.received data
  have hremainder := remainder_concat s.received data
  -- By the bytes of the packet that have arrived before.
  match hr : remainder s.received with
  | [] =>
    rw [hr] at hholds hthrees hremainder
    have hcycle : s.mouse.mouseCycle ≠ 2 := by
      rw [show s.mouse.mouseCycle = 0 from hholds]
      decide
    apply h.receive_partial hcycle (Mouse.handleMouseInterrupt_first hholds data) rfl rfl rfl
    · rw [hremainder]
      exact ⟨rfl, rfl⟩
    · rw [hthrees, List.append_nil]
  | [status] =>
    rw [hr] at hholds hthrees hremainder
    have hcycle : s.mouse.mouseCycle ≠ 2 := by
      rw [hholds.1]
      decide
    apply h.receive_partial hcycle (Mouse.handleMouseInterrupt_second hholds data) rfl rfl rfl
    · rw [hremainder]
      exact ⟨rfl, hholds.2, rfl⟩
    · rw [hthrees, List.append_nil]
  | [status, x] => exact h.receive_third hr data
  | _ :: _ :: _ :: _ =>
    rw [hr] at hholds
    exact hholds.elim

theorem Inv.readStep (h : s.Inv) : s.readStep.Inv := by
  have hreader := h.reader
  have hstream := h.stream
  unfold MouseSystem.readStep
  unfold ReaderHolds at hreader
  cases hr : s.reader with
  | idle => exact h
  | loop size buffer =>
    rw [hr] at hstream
    dsimp only
    split
    · split
      · exact ⟨h.inRing, h.holds, h.full_length, trivial, by simpa [MouseReader.popped] using hstream⟩
      · rename_i hne
        exact ⟨h.inRing, h.holds, h.full_length, Nat.pos_of_ne_zero (mt h.inRing.empty_iff.mpr hne),
          hstream⟩
    · exact ⟨h.inRing, h.holds, h.full_length, trivial, by simpa [MouseReader.popped] using hstream⟩
  | copy size buffer =>
    rw [hr] at hstream hreader
    refine ⟨h.inRing, h.holds, h.full_length, ?_, hstream⟩
    exact ⟨_, h.inRing.buffered_pop hreader⟩
  | advance size buffer packet =>
    rw [hr] at hstream hreader
    obtain ⟨rest, hrest⟩ := hreader
    have hcount : 0 < s.mouse.count := by
      rw [← Mouse.length_buffered, hrest]
      exact Nat.succ_pos _
    have hpop := h.inRing.buffered_pop hcount
    obtain ⟨rfl, -⟩ := List.cons.inj (hrest.symm.trans hpop)
    refine ⟨⟨h.inRing.head_lt, Nat.mod_lt _ (by decide)⟩, ?_, h.full_length, trivial, ?_⟩
    · exact h.holds
    · rw [← hstream, hpop]
      simp [MouseReader.popped]

theorem Inv.step (h : s.Inv) (e : MouseEvent) : (s.step e).Inv := by
  cases e with
  | byte data => exact h.receive data
  | read size =>
    have hstream := h.stream
    unfold MouseSystem.step
    cases hr : s.reader with
    | idle =>
      rw [hr] at hstream
      exact ⟨h.inRing, h.holds, h.full_length, trivial, hstream⟩
    | _ => exact h
  | step => exact h.readStep

theorem received_step (s : MouseSystem) (e : MouseEvent) :
    (s.step e).received = s.received ++ e.data?.toList := by
  cases e with
  | byte data => rfl
  | read size =>
    rw [MouseSystem.step]
    split <;> exact (List.append_nil _).symm
  | step =>
    rw [MouseSystem.step, MouseSystem.readStep]
    split
    · exact (List.append_nil _).symm
    · split
      · split <;> exact (List.append_nil _).symm
      · exact (List.append_nil _).symm
    · exact (List.append_nil _).symm
    · exact (List.append_nil _).symm

theorem inv_foldl (h : s.Inv) (events : List MouseEvent) :
    (events.foldl step s).Inv ∧
      (events.foldl step s).received = s.received ++ events.filterMap MouseEvent.data? := by
  induction events generalizing s with
  | nil => exact ⟨h, (List.append_nil _).symm⟩
  | cons e events ih =>
    obtain ⟨hinv, hreceived⟩ := ih (h.step e)
    refine ⟨hinv, ?_⟩
    rw [List.foldl_cons, hreceived, received_step, List.append_assoc]
    cases e <;> rfl

/-- The packets that the calls have returned and those in the ring are the packets of the bytes,
without those with an overflow bit and those that found the ring full. -/
theorem mouse_stream (events : List MouseEvent) :
    let s := events.foldl step initial
    s.full.length = (threes (events.filterMap MouseEvent.data?)).length ∧
      s.returned ++ s.reader.popped ++ s.mouse.buffered =
        ((threes (events.filterMap MouseEvent.data?)).zip s.full).filterMap keep := by
  obtain ⟨hinv, hreceived⟩ := inv_foldl inv_initial events
  rw [show initial.received = [] from rfl, List.nil_append] at hreceived
  rw [← hreceived]
  exact ⟨hinv.full_length, hinv.stream⟩

end MouseSystem
end BrickOS.Drivers
