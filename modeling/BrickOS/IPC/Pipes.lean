import BrickOS.Basic
import BrickOS.Lib.Run
import BrickOS.Lib.Ring

/-! Kernel pipes: a ring of bytes between one writing and one reading process. -/
namespace BrickOS.IPC
open BrickOS.Lib

def pipeDefaultAccessId : ℕ := 2 ^ 32 - 1

/-- `pipe_t`. Both positions stay inside the buffer, so the code's unsigned differences of
positions never wrap. -/
structure Pipe where
  buffer : ℕ → UInt8
  bufferSize : ℕ
  inodeId : ℕ
  readTail : ℕ
  writeHead : ℕ
  readId : ℕ
  writeId : ℕ
  closed : Bool
  tail_lt : readTail < bufferSize
  head_lt : writeHead < bufferSize

def createPipe (inodeId : ℕ) (memory : ℕ → UInt8) : Pipe where
  buffer := memory
  bufferSize := memoryPageSize
  inodeId := inodeId
  readTail := 0
  writeHead := 0
  readId := pipeDefaultAccessId
  writeId := pipeDefaultAccessId
  closed := false
  tail_lt := by decide
  head_lt := by decide

/-- `open_pipe` by process `pid`, for the pipe found for the inode. The flag says whether a
handle is returned. -/
def openPipe (pipe : Pipe) (flags pid : ℕ) : Pipe × Bool :=
  if flags &&& fileFlagRead ≠ 0 ∧ flags &&& fileFlagWrite ≠ 0 then (pipe, false)
  else if flags &&& fileFlagRead ≠ 0 then
    if pipe.readId ≠ pipeDefaultAccessId then (pipe, false)
    else ({ pipe with readId := pid }, true)
  else if flags &&& fileFlagWrite ≠ 0 then
    if pipe.writeId ≠ pipeDefaultAccessId then (pipe, false)
    else ({ pipe with writeId := pid }, true)
  else (pipe, true)

theorem Pipe.size_pos (p : Pipe) : 0 < p.bufferSize := Nat.zero_lt_of_lt p.head_lt

def Pipe.put (p : Pipe) (chunk : List UInt8) : Pipe :=
  { p with
    buffer := copyInto p.buffer p.writeHead chunk
    writeHead := (p.writeHead + chunk.length) % p.bufferSize
    head_lt := Nat.mod_lt _ p.size_pos }

def Pipe.advance (p : Pipe) (n : ℕ) : Pipe :=
  { p with
    readTail := (p.readTail + n) % p.bufferSize
    tail_lt := Nat.mod_lt _ p.size_pos }

def pipeWriteLoop (data : List UInt8) : ℕ → Pipe → ℕ → Option (Pipe × ℕ)
  | 0, _, _ => none
  | fuel + 1, p, bytesWritten =>
    if bytesWritten < data.length then
      if (p.writeHead + 1) % p.bufferSize = p.readTail then some (p, bytesWritten)
      else
        let bytesUntilEnd := if p.writeHead ≥ p.readTail then p.bufferSize - p.writeHead
          else p.readTail - p.writeHead - 1
        let remainingSize := data.length - bytesWritten
        let toWrite := if bytesUntilEnd > remainingSize then remainingSize else bytesUntilEnd
        pipeWriteLoop data fuel (p.put ((data.drop bytesWritten).take toWrite))
          (bytesWritten + toWrite)
    else some (p, bytesWritten)

def pipeReadLoop (size : ℕ) : ℕ → Pipe → List UInt8 → Option (Pipe × List UInt8)
  | 0, _, _ => none
  | fuel + 1, p, out =>
    if out.length < size then
      if p.readTail = p.writeHead then some (p, out)
      else
        let bytesUntilEnd := if p.readTail > p.writeHead then p.bufferSize - p.readTail
          else p.writeHead - p.readTail
        let remainingSize := size - out.length
        let toRead := if bytesUntilEnd > remainingSize then remainingSize else bytesUntilEnd
        pipeReadLoop size fuel (p.advance toRead) (out ++ slice p.buffer p.readTail toRead)
    else some (p, out)

/-- `pipe_write` by process `pid`. A round of the loop moves at least one byte, so the fuel
is never used up. -/
def pipeWrite (p : Pipe) (pid : ℕ) (data : List UInt8) : Option (Pipe × ℤ) :=
  if p.closed then some (p, -1)
  else if p.writeId ≠ pid then some (p, -1)
  else (pipeWriteLoop data (data.length + 1) p 0).map fun r => (r.1, toInt r.2)

def pipeRead (p : Pipe) (pid size : ℕ) : Option (Pipe × ℤ × List UInt8) :=
  if p.closed then some (p, -1, [])
  else if p.readId ≠ pid then some (p, -1, [])
  else (pipeReadLoop size (size + 1) p []).map fun r => (r.1, toInt r.2.length, r.2)

def Pipe.unreadCount (p : Pipe) : ℕ := (p.writeHead + p.bufferSize - p.readTail) % p.bufferSize

def Pipe.unread (p : Pipe) : List UInt8 :=
  ringSlice p.buffer p.bufferSize p.readTail p.unreadCount

/-- A write of `n` bytes does not run into the read position at slot 0: with the read
position there the copy up to the end of the buffer has to leave the last slot free. -/
def Pipe.Fits (p : Pipe) (n : ℕ) : Prop :=
  p.readTail = 0 → p.writeHead + n < p.bufferSize ∨ p.writeHead + 1 = p.bufferSize

instance (p : Pipe) (n : ℕ) : Decidable (p.Fits n) :=
  inferInstanceAs (Decidable (_ → _))

@[simp] theorem Pipe.put_size (p : Pipe) (c : List UInt8) : (p.put c).bufferSize = p.bufferSize :=
  rfl

@[simp] theorem Pipe.put_tail (p : Pipe) (c : List UInt8) : (p.put c).readTail = p.readTail := rfl

@[simp] theorem Pipe.put_head (p : Pipe) (c : List UInt8) :
    (p.put c).writeHead = (p.writeHead + c.length) % p.bufferSize := rfl

@[simp] theorem Pipe.advance_size (p : Pipe) (n : ℕ) : (p.advance n).bufferSize = p.bufferSize :=
  rfl

@[simp] theorem Pipe.advance_head (p : Pipe) (n : ℕ) : (p.advance n).writeHead = p.writeHead := rfl

@[simp] theorem Pipe.advance_tail (p : Pipe) (n : ℕ) :
    (p.advance n).readTail = (p.readTail + n) % p.bufferSize := rfl

theorem Pipe.unreadCount_lt (p : Pipe) : p.unreadCount < p.bufferSize := Nat.mod_lt _ p.size_pos

theorem Pipe.length_unread (p : Pipe) : p.unread.length = p.unreadCount := by
  simp [Pipe.unread]

theorem Pipe.unreadCount_eq (p : Pipe) :
    p.unreadCount = if p.readTail ≤ p.writeHead then p.writeHead - p.readTail
      else p.writeHead + p.bufferSize - p.readTail := by
  have ht := p.tail_lt
  have hh := p.head_lt
  unfold Pipe.unreadCount
  split_ifs with h
  · rw [show p.writeHead + p.bufferSize - p.readTail = (p.writeHead - p.readTail) + p.bufferSize by
      omega, Nat.add_mod_right, Nat.mod_eq_of_lt (by omega)]
  · exact Nat.mod_eq_of_lt (by omega)

theorem Pipe.head_eq (p : Pipe) : p.writeHead = (p.readTail + p.unreadCount) % p.bufferSize := by
  have ht := p.tail_lt
  have hh := p.head_lt
  rw [p.unreadCount_eq]
  split_ifs with h
  · rw [Nat.mod_eq_of_lt (by omega)]
    omega
  · rw [show p.readTail + (p.writeHead + p.bufferSize - p.readTail) = p.writeHead + p.bufferSize by
      omega, Nat.add_mod_right, Nat.mod_eq_of_lt hh]

theorem Pipe.unread_put (p : Pipe) (c : List UInt8) (hend : p.writeHead + c.length ≤ p.bufferSize)
    (hroom : p.unreadCount + c.length < p.bufferSize) :
    (p.put c).unread = p.unread ++ c ∧ (p.put c).unreadCount = p.unreadCount + c.length := by
  have hcount : (p.put c).unreadCount = p.unreadCount + c.length := by
    have ht := p.tail_lt
    have hh := p.head_lt
    have ht' : (p.put c).readTail = p.readTail := rfl
    have hs' : (p.put c).bufferSize = p.bufferSize := rfl
    have hh' : (p.put c).writeHead = (p.writeHead + c.length) % p.bufferSize := rfl
    rw [(p.put c).unreadCount_eq]
    rw [p.unreadCount_eq] at hroom ⊢
    rcases hend.lt_or_eq with hlt | heq
    · rw [Nat.mod_eq_of_lt hlt] at hh'
      split_ifs at hroom ⊢ <;> omega
    · rw [heq, Nat.mod_self] at hh'
      split_ifs at hroom ⊢ <;> omega
  refine ⟨?_, hcount⟩
  unfold Pipe.unread
  rw [hcount]
  have h := ringSlice_copyInto p.buffer p.bufferSize p.readTail p.unreadCount c
    (by rw [← p.head_eq]; exact hend) hroom.le
  rw [← p.head_eq] at h
  exact h

theorem Pipe.unread_advance (p : Pipe) (n : ℕ) (hend : p.readTail + n ≤ p.bufferSize)
    (hn : n ≤ p.unreadCount) :
    p.unread = slice p.buffer p.readTail n ++ (p.advance n).unread ∧
      (p.advance n).unreadCount = p.unreadCount - n := by
  have hcount : (p.advance n).unreadCount = p.unreadCount - n := by
    have ht := p.tail_lt
    have hh := p.head_lt
    have ht' : (p.advance n).readTail = (p.readTail + n) % p.bufferSize := rfl
    have hs' : (p.advance n).bufferSize = p.bufferSize := rfl
    have hh' : (p.advance n).writeHead = p.writeHead := rfl
    rw [(p.advance n).unreadCount_eq]
    rw [p.unreadCount_eq] at hn ⊢
    rcases hend.lt_or_eq with hlt | heq
    · rw [Nat.mod_eq_of_lt hlt] at ht'
      split_ifs at hn ⊢ <;> omega
    · rw [heq, Nat.mod_self] at ht'
      split_ifs at hn ⊢ <;> omega
  refine ⟨?_, hcount⟩
  unfold Pipe.unread
  rw [hcount, ← ringSlice_eq_slice _ _ _ _ hend, show (p.advance n).buffer = p.buffer from rfl,
    Pipe.advance_tail, Pipe.advance_size, ← ringSlice_add, Nat.add_sub_cancel' hn]

def Pipe.ends (p : Pipe) : ℕ × ℕ × ℕ × Bool := (p.bufferSize, p.readId, p.writeId, p.closed)

@[simp] theorem Pipe.put_ends (p : Pipe) (c : List UInt8) : (p.put c).ends = p.ends := rfl

@[simp] theorem Pipe.advance_ends (p : Pipe) (n : ℕ) : (p.advance n).ends = p.ends := rfl

theorem pipeWriteLoop_spec (data : List UInt8) (fuel : ℕ) (p : Pipe) (k : ℕ)
    (hk : k ≤ data.length) (hfuel : data.length - k < fuel) (hfit : p.Fits (data.length - k)) :
    ∃ q n, pipeWriteLoop data fuel p k = some (q, n) ∧ k ≤ n ∧ n ≤ data.length ∧
      q.ends = p.ends ∧ q.unread = p.unread ++ (data.drop k).take (n - k) := by
  induction fuel generalizing p k with
  | zero => omega
  | succ fuel ih =>
    by_cases hlt : k < data.length
    swap
    · exact ⟨p, k, by simp [pipeWriteLoop, hlt], le_rfl, hk, rfl, by simp⟩
    by_cases hfull : (p.writeHead + 1) % p.bufferSize = p.readTail
    · exact ⟨p, k, by simp [pipeWriteLoop, hlt, hfull], le_rfl, hk, rfl, by simp⟩
    obtain ⟨w, hw⟩ : ∃ w, w = if (if p.writeHead ≥ p.readTail then p.bufferSize - p.writeHead
        else p.readTail - p.writeHead - 1) > data.length - k then data.length - k
        else if p.writeHead ≥ p.readTail then p.bufferSize - p.writeHead
        else p.readTail - p.writeHead - 1 := ⟨_, rfl⟩
    have hstep : pipeWriteLoop data (fuel + 1) p k =
        pipeWriteLoop data fuel (p.put ((data.drop k).take w)) (k + w) := by
      rw [pipeWriteLoop, if_pos hlt, if_neg hfull, hw]
    have ht := p.tail_lt
    have hh := p.head_lt
    have hnext : (p.writeHead + 1 < p.bufferSize ∧ p.writeHead + 1 ≠ p.readTail) ∨
        (p.writeHead + 1 = p.bufferSize ∧ p.readTail ≠ 0) := by
      rcases Nat.lt_or_ge (p.writeHead + 1) p.bufferSize with h | h
      · rw [Nat.mod_eq_of_lt h] at hfull
        exact Or.inl ⟨h, hfull⟩
      · have he : p.writeHead + 1 = p.bufferSize := by omega
        rw [he, Nat.mod_self] at hfull
        exact Or.inr ⟨he, fun h => hfull h.symm⟩
    -- With the read position at 0 the copy ends before the last slot, by `hfit`.
    have hw0 : 0 < w ∧ w ≤ data.length - k ∧ p.writeHead + w ≤ p.bufferSize ∧
        p.unreadCount + w < p.bufferSize := by
      rw [p.unreadCount_eq, hw]
      unfold Pipe.Fits at hfit
      split_ifs <;> omega
    have hlen : ((data.drop k).take w).length = w := by
      rw [List.length_take, List.length_drop]
      omega
    have hfit' : (p.put ((data.drop k).take w)).Fits (data.length - (k + w)) := by
      intro h0
      have h0' : p.readTail = 0 := h0
      left
      simp only [Pipe.put_head, Pipe.put_size, hlen]
      have hcap : p.writeHead + (data.length - k) < p.bufferSize := by
        rcases hfit h0' with h | h
        · exact h
        · omega
      rw [Nat.mod_eq_of_lt (by omega)]
      omega
    obtain ⟨hput, -⟩ := p.unread_put ((data.drop k).take w) (by omega) (by omega)
    obtain ⟨q, n, hq, hkn, hn, hends, hun⟩ := ih _ (k + w) (by omega) (by omega) hfit'
    refine ⟨q, n, hstep.trans hq, by omega, hn, hends.trans (p.put_ends _), ?_⟩
    rw [hun, hput, List.append_assoc]
    congr 1
    rw [← List.drop_drop, ← List.take_add]
    congr 1
    omega

/-- With the read position at slot 0 nothing stops the loop, whatever the request. -/
theorem pipeWriteLoop_tail_zero (data : List UInt8) (fuel : ℕ) (p : Pipe) (k : ℕ)
    (hk : k ≤ data.length) (hfuel : data.length - k < fuel) (ht : p.readTail = 0)
    (hh : p.writeHead + 1 < p.bufferSize) :
    ∃ q, pipeWriteLoop data fuel p k = some (q, data.length) ∧ q.ends = p.ends ∧
      q.readTail = 0 ∧ q.writeHead = (p.writeHead + (data.length - k)) % p.bufferSize := by
  induction fuel generalizing p k with
  | zero => omega
  | succ fuel ih =>
    by_cases hlt : k < data.length
    swap
    · refine ⟨p, by simp [pipeWriteLoop, hlt]; omega, rfl, ht, ?_⟩
      rw [show data.length - k = 0 by omega, Nat.add_zero, Nat.mod_eq_of_lt p.head_lt]
    have hfull : (p.writeHead + 1) % p.bufferSize ≠ p.readTail := by
      rw [Nat.mod_eq_of_lt hh]
      omega
    by_cases hrem : p.bufferSize - p.writeHead > data.length - k
    · have hlen : ((data.drop k).take (data.length - k)).length = data.length - k := by simp
      refine ⟨p.put ((data.drop k).take (data.length - k)), ?_, rfl, ht, ?_⟩
      · rw [pipeWriteLoop, if_pos hlt, if_neg hfull]
        simp only [ge_iff_le, ht, Nat.zero_le, if_true, if_pos hrem, Nat.add_sub_cancel' hk]
        cases fuel with
        | zero => omega
        | succ fuel => rw [pipeWriteLoop, if_neg (lt_irrefl _)]
      · rw [Pipe.put_head, hlen]
    · obtain ⟨w, hw⟩ := Nat.exists_eq_add_of_le p.head_lt.le
      have hlen : ((data.drop k).take w).length = w := by
        rw [List.length_take, List.length_drop]
        omega
      have hhead : (p.put ((data.drop k).take w)).writeHead = 0 := by
        rw [Pipe.put_head, hlen, ← hw, Nat.mod_self]
      obtain ⟨q, hq, he, hq0, hqh⟩ := ih (p.put ((data.drop k).take w)) (k + w) (by omega) (by omega)
        ht (by rw [hhead, Pipe.put_size]; omega)
      refine ⟨q, ?_, he, hq0, ?_⟩
      · rw [pipeWriteLoop, if_pos hlt, if_neg hfull]
        simp only [ge_iff_le, ht, Nat.zero_le, if_true, if_neg hrem]
        rw [show p.bufferSize - p.writeHead = w by omega]
        exact hq
      · rw [hqh, hhead, Pipe.put_size, Nat.zero_add,
          show p.writeHead + (data.length - k) = data.length - (k + w) + p.bufferSize by omega,
          Nat.add_mod_right]

theorem pipeReadLoop_spec (size fuel : ℕ) (p : Pipe) (out : List UInt8)
    (hfuel : size - out.length < fuel) :
    ∃ q taken, pipeReadLoop size fuel p out = some (q, out ++ taken) ∧ q.ends = p.ends ∧
      p.unread = taken ++ q.unread := by
  induction fuel generalizing p out with
  | zero => omega
  | succ fuel ih =>
    by_cases hlt : out.length < size
    swap
    · exact ⟨p, [], by simp [pipeReadLoop, hlt], rfl, by simp⟩
    by_cases hempty : p.readTail = p.writeHead
    · exact ⟨p, [], by simp [pipeReadLoop, hlt, hempty], rfl, by simp⟩
    obtain ⟨w, hw⟩ : ∃ w, w = if (if p.readTail > p.writeHead then p.bufferSize - p.readTail
        else p.writeHead - p.readTail) > size - out.length then size - out.length
        else if p.readTail > p.writeHead then p.bufferSize - p.readTail
        else p.writeHead - p.readTail := ⟨_, rfl⟩
    have hstep : pipeReadLoop size (fuel + 1) p out =
        pipeReadLoop size fuel (p.advance w) (out ++ slice p.buffer p.readTail w) := by
      rw [pipeReadLoop, if_pos hlt, if_neg hempty, hw]
    have ht := p.tail_lt
    have hh := p.head_lt
    have hw0 : 0 < w ∧ p.readTail + w ≤ p.bufferSize ∧ w ≤ p.unreadCount := by
      rw [p.unreadCount_eq, hw]
      split_ifs <;> omega
    obtain ⟨hadv, -⟩ := p.unread_advance w hw0.2.1 hw0.2.2
    obtain ⟨q, taken, hq, hends, hun⟩ := ih (p.advance w) (out ++ slice p.buffer p.readTail w)
      (by rw [List.length_append, length_slice]; omega)
    refine ⟨q, slice p.buffer p.readTail w ++ taken, ?_, hends.trans (p.advance_ends w), ?_⟩
    · rw [hstep, hq, List.append_assoc]
    · rw [hadv, hun, List.append_assoc]

theorem pipeWriteLoop_end {data : List UInt8} {fuel k n : ℕ} {p q : Pipe}
    (h : pipeWriteLoop data fuel p k = some (q, n)) :
    data.length ≤ n ∨ (q.writeHead + 1) % q.bufferSize = q.readTail := by
  induction fuel generalizing p k with
  | zero => cases h
  | succ fuel ih =>
    rw [pipeWriteLoop] at h
    by_cases hmore : k < data.length
    · rw [if_pos hmore] at h
      by_cases hfull : (p.writeHead + 1) % p.bufferSize = p.readTail
      · rw [if_pos hfull] at h
        obtain ⟨rfl, rfl⟩ := Prod.mk.inj (Option.some.inj h)
        exact .inr hfull
      · rw [if_neg hfull] at h
        exact ih h
    · rw [if_neg hmore] at h
      obtain ⟨rfl, rfl⟩ := Prod.mk.inj (Option.some.inj h)
      exact .inl (not_lt.mp hmore)

theorem Pipe.unreadCount_of_full {p : Pipe} (h : (p.writeHead + 1) % p.bufferSize = p.readTail) :
    p.unreadCount + 1 = p.bufferSize := by
  have hh := p.head_lt
  rw [p.unreadCount_eq]
  rcases Nat.lt_or_ge (p.writeHead + 1) p.bufferSize with hlt | hge
  · rw [Nat.mod_eq_of_lt hlt] at h
    rw [if_neg (by omega)]
    omega
  · have hlast : p.writeHead + 1 = p.bufferSize := by omega
    rw [hlast, Nat.mod_self] at h
    rw [if_pos (by omega)]
    omega

theorem pipeWrite_all {p : Pipe} {pid : ℕ} {data : List UInt8} (hclosed : p.closed = false)
    (hid : p.writeId = pid) (hfit : p.Fits data.length)
    (hroom : p.unreadCount + data.length < p.bufferSize) :
    ∃ q r, pipeWrite p pid data = some (q, r) ∧ q.ends = p.ends ∧ q.unread = p.unread ++ data := by
  obtain ⟨q, n, hloop, -, hn, hends, hunread⟩ := pipeWriteLoop_spec data (data.length + 1) p 0
    (Nat.zero_le _) (by omega) hfit
  rw [List.drop_zero, Nat.sub_zero] at hunread
  have hcount := congrArg List.length hunread
  rw [q.length_unread, List.length_append, p.length_unread, List.length_take,
    min_eq_left hn] at hcount
  have hsize : q.bufferSize = p.bufferSize := congrArg Prod.fst hends
  have hall : n = data.length := by
    rcases pipeWriteLoop_end hloop with hle | hfull
    · omega
    · have hlast := Pipe.unreadCount_of_full hfull
      omega
  refine ⟨q, toInt n, ?_, hends, ?_⟩
  · simp [pipeWrite, hclosed, hid, hloop]
  · rw [hunread, hall, List.take_length]

theorem pipeReadLoop_end {size fuel : ℕ} {p q : Pipe} {out out' : List UInt8}
    (h : pipeReadLoop size fuel p out = some (q, out')) :
    (size ≤ out'.length ∨ q.readTail = q.writeHead) ∧
      (out.length ≤ size → out'.length ≤ size) := by
  induction fuel generalizing p out with
  | zero => cases h
  | succ fuel ih =>
    rw [pipeReadLoop] at h
    by_cases hmore : out.length < size
    · rw [if_pos hmore] at h
      by_cases hempty : p.readTail = p.writeHead
      · rw [if_pos hempty] at h
        obtain ⟨rfl, rfl⟩ := Prod.mk.inj (Option.some.inj h)
        exact ⟨.inr hempty, id⟩
      · rw [if_neg hempty] at h
        obtain ⟨hend, hle⟩ := ih h
        refine ⟨hend, fun _ => hle ?_⟩
        rw [List.length_append, length_slice]
        split_ifs <;> omega
    · rw [if_neg hmore] at h
      obtain ⟨rfl, rfl⟩ := Prod.mk.inj (Option.some.inj h)
      exact ⟨.inl (not_lt.mp hmore), id⟩

theorem pipeRead_take {p : Pipe} {pid : ℕ} (hclosed : p.closed = false) (hid : p.readId = pid)
    (size : ℕ) : ∃ q, pipeRead p pid size =
      some (q, toInt (p.unread.take size).length, p.unread.take size) ∧ q.ends = p.ends ∧
        q.unread = p.unread.drop size := by
  obtain ⟨q, taken, hloop, hends, hunread⟩ := pipeReadLoop_spec size (size + 1) p [] (by simp)
  rw [List.nil_append] at hloop
  obtain ⟨hend, hle⟩ := pipeReadLoop_end hloop
  have htaken : taken = p.unread.take size ∧ q.unread = p.unread.drop size := by
    rw [hunread]
    rcases hend with hfull | hempty
    · have hlen : taken.length = size := le_antisymm (hle (Nat.zero_le _)) hfull
      rw [← hlen, List.take_left, List.drop_left]
      exact ⟨rfl, rfl⟩
    · have hnil : q.unread = [] := by
        rw [← List.length_eq_zero_iff, q.length_unread, q.unreadCount_eq, hempty]
        simp
      have hshort : taken.length ≤ size := hle (Nat.zero_le _)
      rw [hnil, List.append_nil, List.take_of_length_le hshort, List.drop_of_length_le hshort]
      exact ⟨rfl, rfl⟩
  refine ⟨q, ?_, hends, htaken.2⟩
  rw [← htaken.1]
  simp [pipeRead, hclosed, hid, hloop]

structure Session where
  pipe : Pipe
  accepted : List UInt8
  returned : List UInt8

inductive Call where
  | openEnd (flags pid : ℕ)
  | write (pid : ℕ) (data : List UInt8)
  | read (pid size : ℕ)

def Session.step (s : Session) : Call → Option Session
  | .openEnd flags pid => some { s with pipe := (openPipe s.pipe flags pid).1 }
  | .write pid data => (pipeWrite s.pipe pid data).map fun r =>
      { s with pipe := r.1, accepted := s.accepted ++ data.take r.2.toNat }
  | .read pid size => (pipeRead s.pipe pid size).map fun r =>
      { s with pipe := r.1, returned := s.returned ++ r.2.2.take r.2.1.toNat }

def Session.start (inodeId : ℕ) (memory : ℕ → UInt8) : Session :=
  ⟨createPipe inodeId memory, [], []⟩

def Session.CallFits (s : Session) : Call → Prop
  | .write pid data => s.pipe.writeId = pid → s.pipe.Fits data.length
  | _ => True

def Session.Fifo (s : Session) : Prop :=
  s.returned <+: s.accepted ∧ s.accepted.length = s.returned.length +
    (s.pipe.writeHead + s.pipe.bufferSize - s.pipe.readTail) % s.pipe.bufferSize

structure Session.Inv (s : Session) : Prop where
  size : s.pipe.bufferSize = memoryPageSize
  bytes : s.accepted = s.returned ++ s.pipe.unread

theorem Session.Inv.fifo {s : Session} (h : s.Inv) : s.Fifo := by
  refine ⟨⟨s.pipe.unread, h.bytes.symm⟩, ?_⟩
  rw [h.bytes, List.length_append, s.pipe.length_unread]
  rfl

theorem openPipe_unread (p : Pipe) (flags pid : ℕ) :
    (openPipe p flags pid).1.unread = p.unread ∧
      (openPipe p flags pid).1.bufferSize = p.bufferSize := by
  unfold openPipe
  split_ifs <;> exact ⟨rfl, rfl⟩

theorem Session.step_inv (s : Session) (c : Call) (hfit : s.CallFits c) (h : s.Inv) :
    ∃ t, s.step c = some t ∧ t.Inv := by
  have hpage : memoryPageSize < 2 ^ 31 := by decide
  cases c with
  | openEnd flags pid =>
    obtain ⟨hun, hsize⟩ := openPipe_unread s.pipe flags pid
    exact ⟨_, rfl, hsize.trans h.size, by rw [h.bytes]; simp only [hun]⟩
  | write pid data =>
    by_cases hc : s.pipe.closed
    · exact ⟨s, by simp [Session.step, pipeWrite, hc], h⟩
    by_cases hw : s.pipe.writeId = pid
    swap
    · exact ⟨s, by simp [Session.step, pipeWrite, hc, hw], h⟩
    obtain ⟨q, n, hq, -, hn, hends, hun⟩ := pipeWriteLoop_spec data (data.length + 1) s.pipe 0
      (Nat.zero_le _) (by omega) (hfit hw)
    have hsize : q.bufferSize = s.pipe.bufferSize := congrArg Prod.fst hends
    have hlen : n < 2 ^ 31 := by
      have hl := congrArg List.length hun
      rw [q.length_unread, List.length_append, List.drop_zero, Nat.sub_zero, List.length_take,
        min_eq_left hn] at hl
      have := q.unreadCount_lt
      rw [hsize, h.size] at this
      omega
    refine ⟨_, by simp [Session.step, pipeWrite, hc, hw, hq]; rfl, hsize.trans h.size, ?_⟩
    simp only [toInt_of_lt hlen, Int.toNat_natCast, hun, h.bytes, List.append_assoc,
      List.drop_zero, Nat.sub_zero]
  | read pid size =>
    by_cases hc : s.pipe.closed
    · exact ⟨s, by simp [Session.step, pipeRead, hc], h⟩
    by_cases hr : s.pipe.readId = pid
    swap
    · exact ⟨s, by simp [Session.step, pipeRead, hc, hr], h⟩
    obtain ⟨q, taken, hq, hends, hun⟩ := pipeReadLoop_spec size (size + 1) s.pipe [] (by simp)
    have hsize : q.bufferSize = s.pipe.bufferSize := congrArg Prod.fst hends
    have hlen : taken.length < 2 ^ 31 := by
      have hl := congrArg List.length hun
      rw [s.pipe.length_unread, List.length_append] at hl
      have := s.pipe.unreadCount_lt
      rw [h.size] at this
      omega
    rw [List.nil_append] at hq
    refine ⟨_, by simp [Session.step, pipeRead, hc, hr, hq]; rfl, hsize.trans h.size, ?_⟩
    simp only [toInt_of_lt hlen, Int.toNat_natCast, List.take_length, h.bytes, hun,
      List.append_assoc]

theorem Session.start_inv (inodeId : ℕ) (memory : ℕ → UInt8) :
    (Session.start inodeId memory).Inv := by
  refine ⟨rfl, ?_⟩
  simp [Session.start, createPipe, Pipe.unread, Pipe.unreadCount, ringSlice]

/-- Calls whose writes all fit return, and leave the pipe a queue. -/
theorem pipe_fifo (inodeId : ℕ) (memory : ℕ → UInt8) (calls : List Call)
    (hfit : Along Session.step Session.CallFits (Session.start inodeId memory) calls) :
    ∃ s, run Session.step (Session.start inodeId memory) calls = some s ∧ s.Fifo := by
  obtain ⟨s, hs, hi⟩ := run_total (fun s c => s.step_inv c) hfit (Session.start_inv inodeId memory)
  exact ⟨s, hs, hi.fifo⟩

theorem pipe_fifo_three_bytes :
    ∃ s, run Session.step (Session.start 7 fun _ => 0)
      [.openEnd fileFlagWrite 1, .openEnd fileFlagRead 2, .write 1 [10, 20, 30], .read 2 2] =
        some s ∧ s.Fifo := by
  apply pipe_fifo
  simp [Along, Session.step, Session.CallFits, Session.start, openPipe, createPipe, Pipe.Fits,
    fileFlagRead, fileFlagWrite, memoryPageSize]

theorem Session.step_overrun (s : Session) (pid : ℕ) (data : List UInt8) (h : s.Inv)
    (hc : s.pipe.closed = false) (hw : s.pipe.writeId = pid) (hfit : ¬ s.pipe.Fits data.length)
    (hsize : data.length < 2 ^ 31) : ∃ t, s.step (.write pid data) = some t ∧ ¬ t.Fifo := by
  have hh := s.pipe.head_lt
  unfold Pipe.Fits at hfit
  push Not at hfit
  obtain ⟨ht, hn, hlast⟩ := hfit
  obtain ⟨q, hq, hends, hq0, hqh⟩ := pipeWriteLoop_tail_zero data (data.length + 1) s.pipe 0
    (Nat.zero_le _) (by omega) ht (by omega)
  have hq' : q.bufferSize = s.pipe.bufferSize := congrArg Prod.fst hends
  refine ⟨⟨q, s.accepted ++ data, s.returned⟩, ?_, ?_⟩
  · simp [Session.step, pipeWrite, hc, hw, hq, toInt_of_lt hsize]
  · rintro ⟨-, hcount⟩
    have hold := h.fifo.2
    have hlt := Nat.mod_lt (q.writeHead + q.bufferSize - q.readTail) q.size_pos
    rw [ht, Nat.sub_zero, Nat.add_mod_right, Nat.mod_eq_of_lt hh] at hold
    simp only [List.length_append] at hcount
    omega

/-- A write to an empty pipe as long as the buffer is accepted, and none of it is left to
read. -/
theorem pipe_fifo_page_write_lost :
    ¬ ∀ calls : List Call, ∃ s,
      run Session.step (Session.start 7 fun _ => 0) calls = some s ∧ s.Fifo := by
  intro h
  obtain ⟨s, hs, hi⟩ := (Session.start 7 fun _ => 0).step_inv (.openEnd fileFlagWrite 1) trivial
    (Session.start_inv 7 _)
  obtain ⟨t, ht, hfifo⟩ := h [.openEnd fileFlagWrite 1, .write 1 (List.replicate memoryPageSize 0)]
  have hp : s.pipe = { createPipe 7 (fun _ => 0) with writeId := 1 } :=
    congrArg Session.pipe (Option.some.inj hs).symm
  obtain ⟨u, hu, hlost⟩ := s.step_overrun 1 (List.replicate memoryPageSize 0) hi (by rw [hp]; rfl)
    (by rw [hp]) (by rw [hp, List.length_replicate]; decide) (by rw [List.length_replicate]; decide)
  rw [run_cons, hs, Option.bind_some, run_cons, hu, Option.bind_some, run_nil] at ht
  exact hlost (Option.some.inj ht ▸ hfifo)

end BrickOS.IPC
