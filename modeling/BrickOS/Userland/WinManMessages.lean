import BrickOS.IPC.Pipes
import BrickOS.Lib.Block

/-! Messages from the kernel to the window manager, and the loop that takes them from a pipe. -/
namespace BrickOS.Userland
open BrickOS.Lib BrickOS.IPC

inductive WmMsg where
  | requestWindow (pid width height flags : UInt32)
  | commitWindow (pid : UInt32)
  | procShutdown (pid : UInt32)
deriving DecidableEq

namespace WmMsg

/-- `DEV_WM_REQUEST_WINDOW`, `DEV_WM_COMMIT_WINDOW` and `DEV_WM_PROC_SHUTDOWN`. -/
def cmd : WmMsg → ℕ
  | .requestWindow .. => 0x01
  | .commitWindow _ => 0x03
  | .procShutdown _ => 0x04

def pid : WmMsg → UInt32
  | .requestWindow pid _ _ _ | .commitWindow pid | .procShutdown pid => pid

def data : WmMsg → List UInt8
  | .requestWindow _ width height flags =>
    le32 width.toNat ++ le32 height.toNat ++ le32 flags.toNat
  | .commitWindow _ | .procShutdown _ => []

/-- `cmd_hdr`, with the size of the whole message. -/
def header (m : WmMsg) : List UInt8 :=
  le32 m.cmd ++ le32 m.pid.toNat ++ le32 (12 + m.data.length)

def bytes (m : WmMsg) : List UInt8 := m.header ++ m.data

end WmMsg

def wordIn (memory : ℕ → UInt8) (i : ℕ) : ℕ :=
  (memory i).toNat + (memory (i + 1)).toNat * 2 ^ 8 + (memory (i + 2)).toNat * 2 ^ 16 +
    (memory (i + 3)).toNat * 2 ^ 24

/-- The message that the `switch` of the main loop dispatches for a `win_man_msg_t` at an address;
other commands are passed over. -/
def dispatch (memory : ℕ → UInt8) (i : ℕ) : List WmMsg :=
  let pid := UInt32.ofNat (wordIn memory (i + 4))
  match wordIn memory i with
  | 0x01 => [.requestWindow pid (.ofNat (wordIn memory (i + 12))) (.ofNat (wordIn memory (i + 16)))
      (.ofNat (wordIn memory (i + 20)))]
  | 0x03 => [.commitWindow pid]
  | 0x04 => [.procShutdown pid]
  | _ => []

def dispatchLoop (memory : ℕ → UInt8) (nKmsg : ℕ) : ℕ → ℕ → Option (List WmMsg)
  | 0, _ => none
  | fuel + 1, bytesRead =>
    if bytesRead < nKmsg then
      (dispatchLoop memory nKmsg fuel ((bytesRead + wordIn memory (bytesRead + 8)) % 2 ^ 32)).map
        fun rest => dispatch memory bytesRead ++ rest
    else some []

/-- The pipe to the window manager, requests whose header is written and whose data is not, the
messages written so far, and those dispatched. -/
structure WmSystem where
  kernelPid : ℕ
  wmPid : ℕ
  pipe : Pipe
  pending : List WmMsg
  sent : List WmMsg
  dispatched : List WmMsg

/-- The steps: a system call of a client can be interrupted between the writes of `dev_wm_ioctl`.
`behind` is what lies behind the buffer of the window manager. -/
inductive WmStep where
  | header (m : WmMsg)
  | data (m : WmMsg)
  | poll (behind : ℕ → UInt8)

namespace WmSystem

def start (kernelPid wmPid inodeId : ℕ) (memory : ℕ → UInt8) : WmSystem where
  kernelPid := kernelPid
  wmPid := wmPid
  pipe := (openPipe (openPipe (createPipe inodeId memory) fileFlagWrite kernelPid).1 fileFlagRead
    wmPid).1
  pending := []
  sent := []
  dispatched := []

/-- A `sys_write` of the kernel to the pipe, whose result is not looked at. -/
def write (s : WmSystem) (bytes : List UInt8) : Option WmSystem :=
  (pipeWrite s.pipe s.kernelPid bytes).map fun r => { s with pipe := r.1 }

def buffer (bytes : List UInt8) (behind : ℕ → UInt8) (i : ℕ) : UInt8 :=
  if i < 256 then bytes[i]?.getD 0 else behind i

def read (s : WmSystem) (behind : ℕ → UInt8) : Option (WmSystem × ℕ × (ℕ → UInt8)) :=
  (pipeRead s.pipe s.wmPid 256).map fun r =>
    ({ s with pipe := r.1 }, (r.2.1 % 2 ^ 32).toNat, buffer r.2.2 behind)

/-- A step. As `bytes_read` has 32 bits, a loop that takes more rounds than it has values never
ends, which is `none`. -/
def step (s : WmSystem) : WmStep → Option WmSystem
  | .header m => (s.write m.header).map fun s =>
    if m.data.isEmpty then { s with sent := s.sent ++ [m] }
    else { s with pending := s.pending ++ [m] }
  | .data m =>
    if m ∈ s.pending then (s.write m.data).map fun s =>
      { s with pending := s.pending.erase m, sent := s.sent ++ [m] }
    else none
  | .poll behind => (s.read behind).bind fun (s, nKmsg, memory) =>
    (dispatchLoop memory nKmsg (2 ^ 32 + 1) 0).map fun ms =>
      { s with dispatched := s.dispatched ++ ms }

def Exact (s : WmSystem) : Prop :=
  s.dispatched <+: s.sent ∧ (s.pipe.unread = [] → s.dispatched = s.sent)

def Room (s : WmSystem) (n : ℕ) : Prop :=
  s.pipe.unreadCount + n < s.pipe.bufferSize ∧ s.pipe.Fits n

/-- The pipe has room for all that is written, messages are written one after the other, and a read
finds whole messages, of no more than 256 bytes. -/
def Kept (s : WmSystem) : WmStep → Prop
  | .header m => s.pending = [] ∧ s.Room m.header.length
  | .data m => m ∈ s.pending ∧ s.Room m.data.length
  | .poll _ => s.pending = [] ∧ s.pipe.unreadCount ≤ 256

end WmSystem

section Bytes

variable {memory : ℕ → UInt8} {a : ℕ}

def Holds (memory : ℕ → UInt8) (a : ℕ) (l : List UInt8) : Prop :=
  ∀ i (hi : i < l.length), memory (a + i) = l[i]

theorem holds_append {l l' : List UInt8} :
    Holds memory a (l ++ l') ↔ Holds memory a l ∧ Holds memory (a + l.length) l' := by
  constructor
  · intro h
    constructor
    · intro i hi
      rw [h i (by rw [List.length_append]; omega), List.getElem_append_left hi]
    · intro i hi
      rw [Nat.add_assoc, h (l.length + i) (by rw [List.length_append]; omega),
        List.getElem_append_right (by omega)]
      simp
  · rintro ⟨hl, hl'⟩ i hi
    rw [List.length_append] at hi
    by_cases hin : i < l.length
    · rw [List.getElem_append_left hin, hl i hin]
    · rw [List.getElem_append_right (by omega), ← hl' (i - l.length) (by omega)]
      congr 1
      omega

theorem wordIn_of_holds {v : ℕ} (h : Holds memory a (le32 v)) (hv : v < 2 ^ 32) :
    wordIn memory a = v := by
  have hlen : (le32 v).length = 4 := rfl
  have h0 := h 0 (by omega)
  have h1 := h 1 (by omega)
  have h2 := h 2 (by omega)
  have h3 := h 3 (by omega)
  rw [Nat.add_zero] at h0
  rw [wordIn, h0, h1, h2, h3]
  simp only [le32, List.getElem_cons_zero, List.getElem_cons_succ, UInt8.toNat_ofNat']
  omega

theorem WmMsg.length_header (m : WmMsg) : m.header.length = 12 := rfl

theorem WmMsg.length_data (m : WmMsg) : m.data.length ≤ 12 := by
  cases m with
  | requestWindow pid width height flags => exact le_refl 12
  | commitWindow pid => exact Nat.zero_le 12
  | procShutdown pid => exact Nat.zero_le 12

theorem WmMsg.cmd_lt (m : WmMsg) : m.cmd < 2 ^ 32 := by
  cases m <;> simp [cmd]

theorem WmMsg.length_bytes (m : WmMsg) : m.bytes.length = 12 + m.data.length := by
  rw [bytes, List.length_append, m.length_header]

theorem dispatch_of_holds {m : WmMsg} (h : Holds memory a m.bytes) :
    dispatch memory a = [m] ∧ wordIn memory (a + 8) = m.bytes.length := by
  have hdata := m.length_data
  obtain ⟨hheader, hbody⟩ := holds_append.mp h
  obtain ⟨hfront, hsize⟩ := holds_append.mp hheader
  obtain ⟨hcmd, hpid⟩ := holds_append.mp hfront
  have hcmd : wordIn memory a = m.cmd := wordIn_of_holds hcmd m.cmd_lt
  have hpid : wordIn memory (a + 4) = m.pid.toNat := wordIn_of_holds hpid m.pid.toNat_lt
  have hsize : wordIn memory (a + 8) = 12 + m.data.length := wordIn_of_holds hsize (by omega)
  refine ⟨?_, hsize.trans m.length_bytes.symm⟩
  cases m with
  | requestWindow pid width height flags =>
    obtain ⟨hfront, hflags⟩ := holds_append.mp hbody
    obtain ⟨hwidth, hheight⟩ := holds_append.mp hfront
    have hwidth : wordIn memory (a + 12) = width.toNat := wordIn_of_holds hwidth width.toNat_lt
    have hheight : wordIn memory (a + 16) = height.toNat :=
      wordIn_of_holds hheight height.toNat_lt
    have hflags : wordIn memory (a + 20) = flags.toNat := wordIn_of_holds hflags flags.toNat_lt
    simp [dispatch, hcmd, hpid, hwidth, hheight, hflags, WmMsg.cmd, WmMsg.pid]
  | commitWindow pid => simp [dispatch, hcmd, hpid, WmMsg.cmd, WmMsg.pid]
  | procShutdown pid => simp [dispatch, hcmd, hpid, WmMsg.cmd, WmMsg.pid]

/-- The loop dispatches the messages that are in memory one behind the other. -/
theorem dispatchLoop_messages {n : ℕ} (hn : n < 2 ^ 32) (ms : List WmMsg) (fuel : ℕ)
    (h : Holds memory a (ms.flatMap WmMsg.bytes))
    (hle : a + (ms.flatMap WmMsg.bytes).length ≤ n) :
    dispatchLoop memory n (ms.length + fuel) a =
      (dispatchLoop memory n fuel (a + (ms.flatMap WmMsg.bytes).length)).map (ms ++ ·) := by
  induction ms generalizing a with
  | nil => simp
  | cons m ms ih =>
    rw [List.flatMap_cons] at h hle ⊢
    rw [List.length_append] at hle ⊢
    obtain ⟨hfirst, hrest⟩ := holds_append.mp h
    obtain ⟨hdispatch, hsize⟩ := dispatch_of_holds hfirst
    have hlen := m.length_bytes
    have hnext : (a + m.bytes.length) % 2 ^ 32 = a + m.bytes.length :=
      Nat.mod_eq_of_lt (by omega)
    rw [List.length_cons, Nat.add_right_comm, dispatchLoop, if_pos (by omega), hsize, hnext,
      ih hrest (by omega), hdispatch, Nat.add_assoc, Option.map_map]
    rfl

theorem dispatchLoop_of_size_zero {n : ℕ} (ha : a < n) (hn : n ≤ 2 ^ 32)
    (hsize : wordIn memory (a + 8) = 0) (fuel : ℕ) : dispatchLoop memory n fuel a = none := by
  induction fuel with
  | zero => rfl
  | succ fuel ih =>
    rw [dispatchLoop, if_pos ha, hsize, Nat.add_zero, Nat.mod_eq_of_lt (by omega), ih]
    rfl

end Bytes

namespace WmSystem

structure Open (s : WmSystem) : Prop where
  closed : s.pipe.closed = false
  writeId : s.pipe.writeId = s.kernelPid
  readId : s.pipe.readId = s.wmPid

structure Inv (s : WmSystem) (rest : List WmMsg) : Prop extends s.Open where
  sent : s.sent = s.dispatched ++ rest
  one : s.pending.length ≤ 1
  unread : s.pipe.unread = rest.flatMap WmMsg.bytes ++ s.pending.flatMap WmMsg.header

section

variable {s : WmSystem} {rest : List WmMsg}

theorem Inv.exact (h : s.Inv rest) : s.Exact := by
  refine ⟨⟨rest, h.sent.symm⟩, fun hempty => ?_⟩
  have hunread := h.unread
  rw [hempty] at hunread
  have hnil : rest.flatMap WmMsg.bytes = [] := (List.append_eq_nil_iff.mp hunread.symm).1
  have hrest : rest = [] := by
    by_contra hne
    obtain ⟨m, ms, rfl⟩ := List.exists_cons_of_ne_nil hne
    have hlen := congrArg List.length hnil
    rw [List.flatMap_cons, List.length_append, m.length_bytes, List.length_nil] at hlen
    omega
  rw [h.sent, hrest, List.append_nil]

theorem Open.congr {s' : WmSystem} (h : s.Open) (hends : s'.pipe.ends = s.pipe.ends)
    (hkernel : s'.kernelPid = s.kernelPid) (hwm : s'.wmPid = s.wmPid) : s'.Open where
  closed := (congrArg (fun e => e.2.2.2) hends).trans h.closed
  writeId := (congrArg (fun e => e.2.2.1) hends).trans (h.writeId.trans hkernel.symm)
  readId := (congrArg (fun e => e.2.1) hends).trans (h.readId.trans hwm.symm)

theorem Open.exists_write (h : s.Open) {bytes : List UInt8} (hroom : s.Room bytes.length) :
    ∃ q, s.write bytes = some { s with pipe := q } ∧ q.ends = s.pipe.ends ∧
      q.unread = s.pipe.unread ++ bytes := by
  obtain ⟨q, r, hwrite, hends, hunread⟩ := pipeWrite_all h.closed h.writeId hroom.2 hroom.1
  refine ⟨q, ?_, hends, hunread⟩
  rw [write, hwrite]
  rfl

theorem flatMap_bytes_append (m : WmMsg) :
    (rest ++ [m]).flatMap WmMsg.bytes = rest.flatMap WmMsg.bytes ++ m.bytes := by
  simp [List.flatMap_append]

theorem Inv.exists_header (h : s.Inv rest) {m : WmMsg} (hkept : s.Kept (.header m)) :
    ∃ s' rest', s.step (.header m) = some s' ∧ s'.Inv rest' := by
  obtain ⟨hpending, hroom⟩ := hkept
  obtain ⟨q, hwrite, hends, hunread⟩ := h.toOpen.exists_write hroom
  have hq : q.unread = rest.flatMap WmMsg.bytes ++ m.header := by
    rw [hunread, h.unread, hpending]
    simp
  by_cases hdata : m.data = []
  · -- A command alone is a whole message.
    have hstep : s.step (.header m) = some { s with pipe := q, sent := s.sent ++ [m] } := by
      simp [step, hwrite, hdata]
    refine ⟨_, rest ++ [m], hstep, h.toOpen.congr hends rfl rfl, ?_, h.one, ?_⟩
    · show s.sent ++ [m] = s.dispatched ++ (rest ++ [m])
      rw [h.sent, List.append_assoc]
    · show q.unread = _ ++ s.pending.flatMap WmMsg.header
      rw [hq, flatMap_bytes_append, hpending, WmMsg.bytes, hdata]
      simp
  · have hstep : s.step (.header m) =
        some { s with pipe := q, pending := s.pending ++ [m] } := by
      simp [step, hwrite, hdata]
    refine ⟨_, rest, hstep, h.toOpen.congr hends rfl rfl, h.sent, ?_, ?_⟩
    · show (s.pending ++ [m]).length ≤ 1
      simp [hpending]
    · show q.unread = _ ++ (s.pending ++ [m]).flatMap WmMsg.header
      rw [hq, hpending]
      simp

theorem Inv.exists_data (h : s.Inv rest) {m : WmMsg} (hkept : s.Kept (.data m)) :
    ∃ s' rest', s.step (.data m) = some s' ∧ s'.Inv rest' := by
  obtain ⟨hmem, hroom⟩ := hkept
  obtain ⟨q, hwrite, hends, hunread⟩ := h.toOpen.exists_write hroom
  have hpending : s.pending = [m] := by
    obtain ⟨x, hx⟩ := List.length_eq_one_iff.mp
      (le_antisymm h.one (List.length_pos_of_mem hmem))
    rw [hx] at hmem ⊢
    rw [List.mem_singleton.mp hmem]
  have hstep : s.step (.data m) = some { s with
      pipe := q
      pending := s.pending.erase m
      sent := s.sent ++ [m] } := by
    simp [step, hmem, hwrite]
  refine ⟨_, rest ++ [m], hstep, h.toOpen.congr hends rfl rfl, ?_, ?_, ?_⟩
  · show s.sent ++ [m] = s.dispatched ++ (rest ++ [m])
    rw [h.sent, List.append_assoc]
  · show (s.pending.erase m).length ≤ 1
    simp [hpending]
  · show q.unread = _ ++ (s.pending.erase m).flatMap WmMsg.header
    rw [hunread, h.unread, hpending, flatMap_bytes_append, WmMsg.bytes]
    simp

theorem holds_buffer {bytes : List UInt8} (hle : bytes.length ≤ 256) (behind : ℕ → UInt8) :
    Holds (buffer bytes behind) 0 bytes := by
  intro i hi
  rw [Nat.zero_add, buffer, if_pos (by omega), List.getElem?_eq_getElem hi, Option.getD_some]

theorem toNat_toInt_mod {n : ℕ} (hn : n ≤ 256) : (toInt n % 2 ^ 32).toNat = n := by
  rw [toInt_of_lt (by omega)]
  omega

/-- A round of the main loop. -/
theorem Open.exists_poll (h : s.Open) (behind : ℕ → UInt8) :
    ∃ q : Pipe, s.step (.poll behind) =
        (dispatchLoop (buffer (s.pipe.unread.take 256) behind) (s.pipe.unread.take 256).length
          (2 ^ 32 + 1) 0).map
          (fun ms => { s with pipe := q, dispatched := s.dispatched ++ ms }) ∧
      q.ends = s.pipe.ends ∧ q.unread = s.pipe.unread.drop 256 := by
  obtain ⟨q, hread, hends, hunread⟩ := pipeRead_take h.closed h.readId 256
  refine ⟨q, ?_, hends, hunread⟩
  rw [step, read, hread, Option.map_some, Option.bind_some,
    toNat_toInt_mod (List.length_take_le _ _)]

theorem length_le_length_flatMap (ms : List WmMsg) :
    ms.length ≤ (ms.flatMap WmMsg.bytes).length := by
  induction ms with
  | nil => exact le_refl 0
  | cons m ms ih =>
    have hlen := m.length_bytes
    rw [List.flatMap_cons, List.length_append, List.length_cons]
    omega

theorem Inv.exists_poll (h : s.Inv rest) {behind : ℕ → UInt8} (hkept : s.Kept (.poll behind)) :
    ∃ s' rest', s.step (.poll behind) = some s' ∧ s'.Inv rest' := by
  obtain ⟨hpending, hle⟩ := hkept
  have hunread : s.pipe.unread = rest.flatMap WmMsg.bytes := by
    rw [h.unread, hpending, List.flatMap_nil, List.append_nil]
  rw [← Pipe.length_unread] at hle
  obtain ⟨q, hpoll, hends, hq⟩ := h.toOpen.exists_poll behind
  rw [List.take_of_length_le hle] at hpoll
  rw [List.drop_of_length_le hle] at hq
  have hloop : dispatchLoop (buffer s.pipe.unread behind) s.pipe.unread.length (2 ^ 32 + 1) 0 =
      some rest := by
    rw [hunread] at hle ⊢
    have hcount := (length_le_length_flatMap rest).trans hle
    obtain ⟨fuel, hfuel⟩ : ∃ fuel, 2 ^ 32 + 1 = rest.length + (fuel + 1) :=
      ⟨2 ^ 32 - rest.length, by omega⟩
    rw [hfuel, dispatchLoop_messages (by omega) rest _ (holds_buffer hle behind) (by omega),
      dispatchLoop, if_neg (by omega), Option.map_some, List.append_nil]
  rw [hloop, Option.map_some] at hpoll
  refine ⟨_, [], hpoll, h.toOpen.congr hends rfl rfl, ?_, h.one, ?_⟩
  · show s.sent = s.dispatched ++ rest ++ []
    rw [h.sent, List.append_nil]
  · show q.unread = _ ++ s.pending.flatMap WmMsg.header
    rw [hq, hpending]
    rfl

theorem Inv.exists_step (h : s.Inv rest) {step : WmStep} (hkept : s.Kept step) :
    ∃ s' rest', s.step step = some s' ∧ s'.Inv rest' := by
  cases step with
  | header m => exact h.exists_header hkept
  | data m => exact h.exists_data hkept
  | poll behind => exact h.exists_poll hkept

theorem start_pipe (kernelPid wmPid inodeId : ℕ) (memory : ℕ → UInt8) :
    (start kernelPid wmPid inodeId memory).pipe =
      { createPipe inodeId memory with writeId := kernelPid, readId := wmPid } := by
  simp [start, openPipe, createPipe, fileFlagRead, fileFlagWrite]

theorem inv_start (kernelPid wmPid inodeId : ℕ) (memory : ℕ → UInt8) :
    (start kernelPid wmPid inodeId memory).Inv [] where
  closed := by rw [start_pipe]; rfl
  writeId := by rw [start_pipe]; rfl
  readId := by rw [start_pipe]; rfl
  sent := rfl
  one := Nat.zero_le 1
  unread := by
    apply List.eq_nil_of_length_eq_zero
    rw [Pipe.length_unread, Pipe.unreadCount_eq, start_pipe]
    rfl

/-- In a run whose steps are all kept, every round of the main loop ends, and what it dispatches is
what was written. -/
theorem wmMessages_exact (kernelPid wmPid inodeId : ℕ) (memory : ℕ → UInt8)
    (steps : List WmStep) (hkept : Along step Kept (start kernelPid wmPid inodeId memory) steps) :
    ∃ s, run step (start kernelPid wmPid inodeId memory) steps = some s ∧ s.Exact := by
  have hstep : ∀ s a, Kept s a → (∃ rest, s.Inv rest) →
      ∃ t, step s a = some t ∧ ∃ rest, t.Inv rest := by
    rintro s a ha ⟨rest, h⟩
    obtain ⟨t, rest', ht, hinv⟩ := h.exists_step ha
    exact ⟨t, ht, rest', hinv⟩
  obtain ⟨s, hrun, rest, h⟩ := run_total hstep hkept ⟨[], inv_start kernelPid wmPid inodeId memory⟩
  exact ⟨s, hrun, h.exact⟩

end

instance (s : WmSystem) (n : ℕ) : Decidable (s.Room n) := inferInstanceAs (Decidable (_ ∧ _))

instance (s : WmSystem) : ∀ step, Decidable (s.Kept step)
  | .header _ | .data _ | .poll _ => inferInstanceAs (Decidable (_ ∧ _))

/-- Process 5 requests a window, and commits it after the window manager has looked. -/
theorem wmMessages_exact_commit :
    Along step Kept (start 1 2 3 fun _ => 0) [.header (.requestWindow 5 64 32 0),
        .data (.requestWindow 5 64 32 0), .poll fun _ => 7, .header (.commitWindow 5)] ∧
      ∃ s, run step (start 1 2 3 fun _ => 0) [.header (.requestWindow 5 64 32 0),
        .data (.requestWindow 5 64 32 0), .poll fun _ => 7, .header (.commitWindow 5)] = some s ∧
        s.Exact := by
  have hkept : Along step Kept (start 1 2 3 fun _ => 0) [.header (.requestWindow 5 64 32 0),
      .data (.requestWindow 5 64 32 0), .poll fun _ => 7, .header (.commitWindow 5)] := by
    decide +kernel
  exact ⟨hkept, wmMessages_exact 1 2 3 (fun _ => 0) _ hkept⟩

theorem Open.poll_eq_none {s : WmSystem} (h : s.Open)
    (hunread : s.pipe.unread = [5, 0, 0, 0, 12, 0, 0, 0]) (behind : ℕ → UInt8) :
    s.step (.poll behind) = none := by
  obtain ⟨q, hpoll, -⟩ := h.exists_poll behind
  rw [hunread, List.take_of_length_le (by decide)] at hpoll
  have hsize : wordIn (buffer [5, 0, 0, 0, 12, 0, 0, 0] behind) (0 + 8) = 0 := by
    simp [wordIn, buffer]
  rw [hpoll, dispatchLoop_of_size_zero (by decide) (by decide) hsize]
  rfl

theorem exists_run_commits : ∃ s, run step (start 1 2 3 fun _ => 0)
      (List.replicate 22 (.header (.commitWindow 5))) = some s ∧ s.Open ∧
    s.pipe.unread.drop 256 = [5, 0, 0, 0, 12, 0, 0, 0] := by
  obtain ⟨s, hrun, hs⟩ := Option.map_eq_some_iff.mp (by decide +kernel :
    (run step (start 1 2 3 fun _ => 0) (List.replicate 22 (.header (.commitWindow 5)))).map
        (fun s => ((s.pipe.closed, s.pipe.writeId, s.pipe.readId), (s.kernelPid, s.wmPid),
          s.pipe.unread.drop 256)) =
      some ((false, 1, 2), (1, 2), [5, 0, 0, 0, 12, 0, 0, 0]))
  simp only [Prod.mk.injEq] at hs
  obtain ⟨⟨hclosed, hwrite, hread⟩, ⟨hkernel, hwm⟩, hunread⟩ := hs
  exact ⟨s, hrun, ⟨hclosed, hwrite.trans hkernel.symm, hread.trans hwm.symm⟩, hunread⟩

/-- Of 22 commands a read takes 256 bytes, with the first word of the last one; in the round after
that, if there is one, the loop never ends. -/
theorem wmMessages_stuck :
    (∃ s, run step (start 1 2 3 fun _ => 0) (List.replicate 22 (.header (.commitWindow 5))) =
        some s) ∧
      ∀ behind behind', run step (start 1 2 3 fun _ => 0)
        (List.replicate 22 (.header (.commitWindow 5)) ++ [.poll behind, .poll behind']) =
          none := by
  obtain ⟨s, hrun, hopen, hrest⟩ := exists_run_commits
  refine ⟨⟨s, hrun⟩, fun behind behind' => ?_⟩
  obtain ⟨q, hpoll, hends, hunread⟩ := hopen.exists_poll behind
  rw [run_append, hrun, Option.bind_some, run_cons, hpoll, Option.bind_eq_none_iff]
  intro t ht
  obtain ⟨ms, -, rfl⟩ := Option.map_eq_some_iff.mp ht
  have hopen' : Open { s with pipe := q, dispatched := s.dispatched ++ ms } :=
    hopen.congr hends rfl rfl
  rw [run_cons, hopen'.poll_eq_none (hunread.trans hrest) behind']
  rfl

end WmSystem

end BrickOS.Userland
