import BrickOS.Lib.LittleEndian
import BrickOS.Lib.Run

/-! Answers from the window manager: how the kernel takes them from the pipe and hands them out. -/
namespace BrickOS.Userland
open BrickOS.Lib

structure WindowCreationAns where
  pid : UInt32
  width : UInt32
  height : UInt32
  kbFd : UInt32
  filename : List UInt8
  length_filename : filename.length < 2 ^ 32
deriving DecidableEq

def devWmAnsTypeWinCreation : ℕ := 0x04

namespace WindowCreationAns

def header (a : WindowCreationAns) : List UInt8 :=
  le32 devWmAnsTypeWinCreation ++ (le32 a.pid.toNat ++ (le32 a.width.toNat ++
    (le32 a.height.toNat ++ (le32 a.kbFd.toNat ++ le32 a.filename.length))))

def bytes (a : WindowCreationAns) : List UInt8 := a.header ++ a.filename

end WindowCreationAns

def collectRound (p : List UInt8) (bytesParsed : ℕ) :
    Except Fault (ℕ × List WindowCreationAns) := do
  let answerType ← readLe32 p bytesParsed
  if answerType = devWmAnsTypeWinCreation then
    let pid ← readLe32 p (bytesParsed + 4)
    let width ← readLe32 p (bytesParsed + 8)
    let height ← readLe32 p (bytesParsed + 12)
    let kbFd ← readLe32 p (bytesParsed + 16)
    let filenameLen ← readLe32 p (bytesParsed + 20)
    let filename ← readBytes p (bytesParsed + 24) filenameLen
    if h : filename.length < 2 ^ 32 then
      -- always so, as `filename_len` is a word
      return ((bytesParsed + 24 + filenameLen) % 2 ^ 32,
        [⟨.ofNat pid, .ofNat width, .ofNat height, .ofNat kbFd, filename, h⟩])
    else throw (.outOfBounds filename.length)
  else return (bytesParsed, [])

def collectLoop (p : List UInt8) :
    ℕ → ℕ → List WindowCreationAns → Option (Except Fault (List WindowCreationAns))
  | 0, _, _ => none
  | fuel + 1, bytesParsed, wmAnswers =>
    if bytesParsed < p.length then
      match collectRound p bytesParsed with
      | .error e => some (.error e)
      | .ok r => collectLoop p fuel r.1 (wmAnswers ++ r.2)
    else some (.ok wmAnswers)

def devWmCollectPipe (fuel : ℕ) (p : List UInt8) (wmAnswers : List WindowCreationAns) :
    Option (Except Fault (List WindowCreationAns)) :=
  if p = [] then some (.ok wmAnswers) else collectLoop p fuel 0 wmAnswers

structure WmDevice where
  wmAnswers : List WindowCreationAns
  received : List (UInt32 × WindowCreationAns)

namespace WmDevice

def init : WmDevice := ⟨[], []⟩

def handOut (d : WmDevice) (pid : UInt32) : WmDevice :=
  match d.wmAnswers.find? (·.pid == pid) with
  | none => d
  | some a => ⟨d.wmAnswers.eraseP (·.pid == pid), d.received ++ [(pid, a)]⟩

/-- `DEV_WM_REQUEST_WINDOW_CREATION_ANSWER` of a process, whose read of the pipe returns the bytes.
There is no next state if the loop does not end or reads behind them. -/
def ioctl (fuel : ℕ) (d : WmDevice) (call : UInt32 × List UInt8) : Option WmDevice :=
  match devWmCollectPipe fuel call.2 d.wmAnswers with
  | some (.ok wmAnswers) => some (handOut { d with wmAnswers := wmAnswers } call.1)
  | _ => none

def receivedBy (d : WmDevice) (pid : UInt32) : List WindowCreationAns :=
  (d.received.filter (·.1 == pid)).map Prod.snd

def waitingFor (d : WmDevice) (pid : UInt32) : List WindowCreationAns :=
  d.wmAnswers.filter (·.pid == pid)

end WmDevice

/-- The loop comes to an end without a read behind the bytes, and appends the answers at the front
of `p`, up to a rest that does not start with a complete one. -/
def ParsedWhole (p : List UInt8) : Prop :=
  ∀ wmAnswers, ∃ fuel new rest, devWmCollectPipe fuel p wmAnswers = some (.ok (wmAnswers ++ new)) ∧
    p = new.flatMap WindowCreationAns.bytes ++ rest ∧ ∀ a : WindowCreationAns, ¬ a.bytes <+: rest

/-- When the reads of some calls together return a stream of answers, a process that goes on asking
receives those that name it, each once and in order. -/
def HandedOut (calls : List (UInt32 × List UInt8)) : Prop :=
  ∀ answers : List WindowCreationAns,
    (calls.map Prod.snd).flatten = answers.flatMap WindowCreationAns.bytes →
    ∀ pid, ∃ fuel d, run (WmDevice.ioctl fuel) .init
      (calls ++ List.replicate answers.length (pid, [])) = some d ∧
      d.receivedBy pid = answers.filter (·.pid == pid)

def WholeAnswers (p : List UInt8) : Prop :=
  ∃ answers : List WindowCreationAns, p = answers.flatMap WindowCreationAns.bytes

section Parsing

variable {p : List UInt8} {i : ℕ} {a : WindowCreationAns}

theorem WindowCreationAns.length_bytes (a : WindowCreationAns) :
    a.bytes.length = 24 + a.filename.length := by
  rw [bytes, List.length_append]
  rfl

theorem collectRound_of_isPrefix (h : a.bytes <+: p.drop i) :
    collectRound p i = .ok ((i + a.bytes.length) % 2 ^ 32, [a]) := by
  have hlen := h.length_le
  rw [a.length_bytes, List.length_drop] at hlen
  simp only [WindowCreationAns.bytes, WindowCreationAns.header, append_isPrefix_iff,
    List.drop_drop, List.length_append, length_le32, Nat.add_assoc, Nat.reduceAdd] at h
  obtain ⟨⟨htype, hpid, hwidth, hheight, hkbFd, hfilenameLen⟩, hfilename⟩ := h
  have htype := readLe32_eq_ok.mpr ⟨by decide, htype⟩
  have hpid := readLe32_eq_ok.mpr ⟨a.pid.toNat_lt, hpid⟩
  have hwidth := readLe32_eq_ok.mpr ⟨a.width.toNat_lt, hwidth⟩
  have hheight := readLe32_eq_ok.mpr ⟨a.height.toNat_lt, hheight⟩
  have hkbFd := readLe32_eq_ok.mpr ⟨a.kbFd.toNat_lt, hkbFd⟩
  have hfilenameLen := readLe32_eq_ok.mpr ⟨a.length_filename, hfilenameLen⟩
  have hfilename := (readBytes_eq_ok (by omega)).mpr ⟨rfl, hfilename⟩
  rw [collectRound, htype, ok_bind, if_pos rfl, hpid, ok_bind, hwidth, ok_bind, hheight, ok_bind,
    hkbFd, ok_bind, hfilenameLen, ok_bind, hfilename, ok_bind, dif_pos a.length_filename,
    a.length_bytes, Nat.add_assoc]
  simp only [UInt32.ofNat_toNat]
  rfl

theorem eq_of_collectRound {j : ℕ} {new : List WindowCreationAns}
    (h : collectRound p i = .ok (j, new)) : (new = [] ∧ j = i) ∨
      ∃ a : WindowCreationAns, new = [a] ∧ a.bytes <+: p.drop i ∧
        j = (i + a.bytes.length) % 2 ^ 32 := by
  obtain ⟨answerType, htype, h⟩ := bind_eq_ok.mp h
  split_ifs at h with hcreation
  · right
    obtain ⟨pid, hpid, h⟩ := bind_eq_ok.mp h
    obtain ⟨width, hwidth, h⟩ := bind_eq_ok.mp h
    obtain ⟨height, hheight, h⟩ := bind_eq_ok.mp h
    obtain ⟨kbFd, hkbFd, h⟩ := bind_eq_ok.mp h
    obtain ⟨filenameLen, hfilenameLen, h⟩ := bind_eq_ok.mp h
    obtain ⟨filename, hfilename, h⟩ := bind_eq_ok.mp h
    rw [readLe32_eq_ok] at htype hpid hwidth hheight hkbFd hfilenameLen
    have hlen := hfilenameLen.2.length_le
    rw [length_le32, List.length_drop] at hlen
    obtain ⟨rfl, hname⟩ := (readBytes_eq_ok (by omega)).mp hfilename
    rw [dif_pos hfilenameLen.1] at h
    cases h
    refine ⟨_, rfl, ?_, ?_⟩
    · simp only [WindowCreationAns.bytes, WindowCreationAns.header, append_isPrefix_iff,
        List.drop_drop, List.length_append, length_le32, Nat.add_assoc, Nat.reduceAdd,
        UInt32.toNat_ofNat_of_lt' hpid.1, UInt32.toNat_ofNat_of_lt' hwidth.1,
        UInt32.toNat_ofNat_of_lt' hheight.1, UInt32.toNat_ofNat_of_lt' hkbFd.1]
      rw [hcreation] at htype
      exact ⟨⟨htype.2, hpid.2, hwidth.2, hheight.2, hkbFd.2, hfilenameLen.2⟩, hname⟩
    · rw [WindowCreationAns.length_bytes, Nat.add_assoc]
  · cases h
    exact .inl ⟨rfl, rfl⟩

theorem drop_eq_append (h : a.bytes <+: p.drop i) :
    p.drop i = a.bytes ++ p.drop (i + a.bytes.length) := by
  obtain ⟨rest, hrest⟩ := h
  rw [← List.drop_drop, ← hrest, List.drop_left]

/-- A loop that comes to an end has appended the answers that were left. -/
theorem drop_eq_of_collectLoop (hp : p.length < 2 ^ 32) {fuel : ℕ}
    {wmAnswers result : List WindowCreationAns} (hi : i ≤ p.length)
    (h : collectLoop p fuel i wmAnswers = some (.ok result)) :
    ∃ new, result = wmAnswers ++ new ∧ p.drop i = new.flatMap WindowCreationAns.bytes := by
  induction fuel generalizing i wmAnswers with
  | zero => cases h
  | succ fuel ih =>
    rw [collectLoop] at h
    split_ifs at h with hlt
    · cases hround : collectRound p i with
      | error e =>
        rw [hround] at h
        cases h
      | ok r =>
        rw [hround] at h
        dsimp only at h
        obtain ⟨hnone, hsame⟩ | ⟨a, hone, hpre, hnext⟩ := eq_of_collectRound hround
        · rw [hnone, hsame, List.append_nil] at h
          exact ih hi h
        · have hlen := hpre.length_le
          rw [List.length_drop] at hlen
          rw [Nat.mod_eq_of_lt (by omega)] at hnext
          rw [hone, hnext] at h
          obtain ⟨new, rfl, hdrop⟩ := ih (by omega) h
          refine ⟨a :: new, by simp, ?_⟩
          rw [drop_eq_append hpre, hdrop, List.flatMap_cons]
    · cases h
      exact ⟨[], by simp, by rw [List.drop_eq_nil_of_le (by omega)]; rfl⟩

theorem collectLoop_of_drop_eq (hp : p.length < 2 ^ 32) (new : List WindowCreationAns) {fuel : ℕ}
    {wmAnswers : List WindowCreationAns} (h : p.drop i = new.flatMap WindowCreationAns.bytes)
    (hfuel : new.length < fuel) :
    collectLoop p fuel i wmAnswers = some (.ok (wmAnswers ++ new)) := by
  induction new generalizing i fuel wmAnswers with
  | nil =>
    cases fuel with
    | zero => cases hfuel
    | succ fuel =>
      rw [collectLoop, if_neg (Nat.not_lt.mpr (List.drop_eq_nil_iff.mp h)), List.append_nil]
  | cons a new ih =>
    cases fuel with
    | zero => cases hfuel
    | succ fuel =>
      rw [List.flatMap_cons] at h
      have hpre : a.bytes <+: p.drop i := ⟨_, h.symm⟩
      have hlen := hpre.length_le
      rw [List.length_drop, a.length_bytes] at hlen
      have hdrop : p.drop (i + a.bytes.length) = new.flatMap WindowCreationAns.bytes := by
        rw [← List.drop_drop, h, List.drop_left]
      rw [collectLoop, if_pos (by omega), collectRound_of_isPrefix hpre,
        Nat.mod_eq_of_lt (by rw [a.length_bytes]; omega)]
      dsimp only
      rw [ih hdrop (Nat.lt_of_succ_lt_succ hfuel), List.append_assoc]
      rfl

theorem length_le_of_eq {new : List WindowCreationAns}
    (h : p = new.flatMap WindowCreationAns.bytes) : new.length ≤ p.length := by
  subst h
  induction new with
  | nil => exact Nat.zero_le _
  | cons a new ih =>
    rw [List.flatMap_cons, List.length_append, List.length_cons, a.length_bytes]
    omega

theorem devWmCollectPipe_of_eq (hp : p.length ≤ 4096) {new : List WindowCreationAns}
    (h : p = new.flatMap WindowCreationAns.bytes) (wmAnswers : List WindowCreationAns) :
    devWmCollectPipe 4097 p wmAnswers = some (.ok (wmAnswers ++ new)) := by
  have hlen := length_le_of_eq h
  rw [devWmCollectPipe]
  split_ifs with hempty
  · rw [hempty, List.length_nil, Nat.le_zero, List.length_eq_zero_iff] at hlen
    rw [hlen, List.append_nil]
  · exact collectLoop_of_drop_eq (by omega) new h (by omega)

theorem parsedWhole_iff (hp : p.length ≤ 4096) : ParsedWhole p ↔ WholeAnswers p := by
  constructor
  · intro h
    obtain ⟨fuel, new, rest, hloop, -⟩ := h []
    rw [devWmCollectPipe] at hloop
    split_ifs at hloop with hempty
    · exact ⟨[], hempty⟩
    · obtain ⟨new, -, hdrop⟩ := drop_eq_of_collectLoop (by omega) (Nat.zero_le _) hloop
      exact ⟨new, hdrop⟩
  · rintro ⟨new, hnew⟩ wmAnswers
    refine ⟨4097, new, [], devWmCollectPipe_of_eq hp hnew wmAnswers, by simpa using hnew, ?_⟩
    intro a ha
    have hlen := ha.length_le
    rw [a.length_bytes, List.length_nil] at hlen
    omega

/-- No answer is the beginning of another, so that a stream is read in one way only. -/
theorem flatMap_bytes_inj {as bs : List WindowCreationAns}
    (h : as.flatMap WindowCreationAns.bytes = bs.flatMap WindowCreationAns.bytes) : as = bs := by
  induction as generalizing bs with
  | nil =>
    have hlen := length_le_of_eq h
    exact (List.length_eq_zero_iff.mp (Nat.le_zero.mp hlen)).symm
  | cons a as ih =>
    cases bs with
    | nil => exact absurd (length_le_of_eq h.symm) (Nat.not_succ_le_zero _)
    | cons b bs =>
      rw [List.flatMap_cons, List.flatMap_cons] at h
      have ha := collectRound_of_isPrefix (i := 0) (List.prefix_append a.bytes
        (as.flatMap WindowCreationAns.bytes))
      have hb := collectRound_of_isPrefix (i := 0) (List.prefix_append b.bytes
        (bs.flatMap WindowCreationAns.bytes))
      rw [h, hb] at ha
      obtain rfl : b = a := by simpa using congrArg Prod.snd (Except.ok.inj ha)
      rw [ih (List.append_cancel_left h)]

end Parsing

namespace WmDevice

/-- A process receives the first answer that waits for it. -/
theorem handOut_self (d : WmDevice) (pid : UInt32) :
    (d.handOut pid).receivedBy pid = d.receivedBy pid ++ (d.waitingFor pid).head?.toList ∧
      (d.handOut pid).waitingFor pid = (d.waitingFor pid).tail := by
  have hhead : (d.waitingFor pid).head? = d.wmAnswers.find? (·.pid == pid) := List.head?_filter
  unfold handOut
  rw [hhead]
  split
  case _ hfind =>
    rw [hfind, List.head?_eq_none_iff] at hhead
    rw [hhead, hfind]
    exact ⟨(List.append_nil _).symm, rfl⟩
  case _ a hfind =>
    rw [hfind]
    refine ⟨by simp [receivedBy], ?_⟩
    rw [waitingFor, waitingFor]
    induction d.wmAnswers with
    | nil => rfl
    | cons b bs ih =>
      by_cases hb : b.pid = pid
      · simp [hb]
      · simp [hb, ih]

theorem handOut_of_ne (d : WmDevice) {caller pid : UInt32} (hne : caller ≠ pid) :
    (d.handOut caller).receivedBy pid = d.receivedBy pid ∧
      (d.handOut caller).waitingFor pid = d.waitingFor pid := by
  unfold handOut
  split
  · exact ⟨rfl, rfl⟩
  case _ a hfind =>
    refine ⟨by simp [receivedBy, hne], ?_⟩
    rw [waitingFor, waitingFor]
    induction d.wmAnswers with
    | nil => rfl
    | cons b bs ih =>
      by_cases hb : b.pid = caller
      · simp [hb, hne]
      · simp [hb, ih, List.filter_cons]

theorem handOut_append (d : WmDevice) (caller pid : UInt32) :
    (d.handOut caller).receivedBy pid ++ (d.handOut caller).waitingFor pid =
      d.receivedBy pid ++ d.waitingFor pid := by
  by_cases hpid : caller = pid
  · subst hpid
    obtain ⟨hreceived, hwaiting⟩ := d.handOut_self caller
    rw [hreceived, hwaiting, List.append_assoc]
    cases d.waitingFor caller <;> rfl
  · obtain ⟨hreceived, hwaiting⟩ := d.handOut_of_ne hpid
    rw [hreceived, hwaiting]

theorem ioctl_of_eq {p : List UInt8} (hp : p.length ≤ 4096) {new : List WindowCreationAns}
    (h : p = new.flatMap WindowCreationAns.bytes) (d : WmDevice) (caller : UInt32) :
    ioctl 4097 d (caller, p) =
      some (handOut { d with wmAnswers := d.wmAnswers ++ new } caller) := by
  rw [ioctl, devWmCollectPipe_of_eq hp h]

/-- Along calls whose reads return whole answers, each answer for a process has been received or
waits, in the order of the stream. -/
theorem exists_run_calls (calls : List (UInt32 × List UInt8))
    (hlen : ∀ c ∈ calls, c.2.length ≤ 4096) (hwhole : ∀ c ∈ calls, WholeAnswers c.2)
    (d : WmDevice) : ∃ d', ∃ answers : List WindowCreationAns, run (ioctl 4097) d calls = some d' ∧
      (calls.map Prod.snd).flatten = answers.flatMap WindowCreationAns.bytes ∧
      ∀ pid, d'.receivedBy pid ++ d'.waitingFor pid =
        d.receivedBy pid ++ d.waitingFor pid ++ answers.filter (·.pid == pid) := by
  induction calls generalizing d with
  | nil => exact ⟨d, [], rfl, rfl, fun pid => by simp⟩
  | cons c calls ih =>
    rw [List.forall_mem_cons] at hlen hwhole
    obtain ⟨new, hnew⟩ := hwhole.1
    obtain ⟨d', answers, hrun, hstream, hd'⟩ := ih hlen.2 hwhole.2
      (handOut { d with wmAnswers := d.wmAnswers ++ new } c.1)
    refine ⟨d', new ++ answers, ?_, ?_, ?_⟩
    · rw [run_cons, ioctl_of_eq hlen.1 hnew]
      exact hrun
    · rw [List.map_cons, List.flatten_cons, hstream, hnew, List.flatMap_append]
    · intro pid
      rw [hd' pid, handOut_append]
      simp [receivedBy, waitingFor, List.filter_append]

/-- A process that asks as often as answers wait for it leaves none. -/
theorem exists_run_asking (pid : UInt32) (n : ℕ) (d : WmDevice)
    (hn : (d.waitingFor pid).length ≤ n) :
    ∃ d', run (ioctl 4097) d (List.replicate n (pid, [])) = some d' ∧
      d'.receivedBy pid = d.receivedBy pid ++ d.waitingFor pid := by
  induction n generalizing d with
  | zero =>
    refine ⟨d, rfl, ?_⟩
    rw [List.length_eq_zero_iff.mp (Nat.le_zero.mp hn), List.append_nil]
  | succ n ih =>
    have hless : ((d.handOut pid).waitingFor pid).length ≤ n := by
      rw [(d.handOut_self pid).2, List.length_tail]
      omega
    obtain ⟨d', hrun, hd'⟩ := ih (d.handOut pid) hless
    refine ⟨d', ?_, hd'.trans (d.handOut_append pid pid)⟩
    exact hrun

end WmDevice

theorem handedOut_of_wholeAnswers {calls : List (UInt32 × List UInt8)}
    (hlen : ∀ c ∈ calls, c.2.length ≤ 4096) (hwhole : ∀ c ∈ calls, WholeAnswers c.2) :
    HandedOut calls := by
  intro answers hstream pid
  obtain ⟨d, parsed, hrun, hparsed, hd⟩ := WmDevice.exists_run_calls calls hlen hwhole .init
  obtain rfl : parsed = answers := flatMap_bytes_inj (hparsed.symm.trans hstream)
  have hall := hd pid
  have hinit : WmDevice.init.receivedBy pid ++ WmDevice.init.waitingFor pid = [] := rfl
  rw [hinit, List.nil_append] at hall
  have hfew : (d.waitingFor pid).length ≤ parsed.length := by
    have hle := congrArg List.length hall
    have hfilter := List.length_filter_le (·.pid == pid) parsed
    rw [List.length_append] at hle
    omega
  obtain ⟨d', hrun', hd'⟩ := WmDevice.exists_run_asking pid parsed.length d hfew
  refine ⟨4097, d', ?_, hd'.trans hall⟩
  rw [run_append, hrun]
  exact hrun'

theorem windowAnswers_iff (calls : List (UInt32 × List UInt8))
    (hlen : ∀ c ∈ calls, c.2.length ≤ 4096) :
    ((∀ c ∈ calls, ParsedWhole c.2) ∧ HandedOut calls) ↔ ∀ c ∈ calls, WholeAnswers c.2 := by
  constructor
  · rintro ⟨hparsed, -⟩ c hc
    exact (parsedWhole_iff (hlen c hc)).mp (hparsed c hc)
  · intro hwhole
    exact ⟨fun c hc => (parsedWhole_iff (hlen c hc)).mpr (hwhole c hc),
      handedOut_of_wholeAnswers hlen hwhole⟩

def sampleAnswer : WindowCreationAns where
  pid := 5
  width := 100
  height := 50
  kbFd := 7
  filename := [119, 105, 110, 46, 116, 109, 112, 0]
  length_filename := by decide

theorem windowAnswers_two :
    (∀ c ∈ [((5 : UInt32), sampleAnswer.bytes), (6, []), (5, sampleAnswer.bytes)],
      ParsedWhole c.2) ∧
      HandedOut [(5, sampleAnswer.bytes), (6, []), (5, sampleAnswer.bytes)] := by
  refine (windowAnswers_iff _ (by decide)).mpr ?_
  intro c hc
  simp only [List.mem_cons, List.not_mem_nil, or_false] at hc
  rcases hc with rfl | rfl | rfl
  · exact ⟨[sampleAnswer], by simp⟩
  · exact ⟨[], rfl⟩
  · exact ⟨[sampleAnswer], by simp⟩

/-- A read between the two writes of the window manager finds an answer without its name. -/
theorem not_windowAnswers_cut :
    sampleAnswer.header ++ sampleAnswer.filename = [sampleAnswer].flatMap (·.bytes) ∧
      ¬ ((∀ c ∈ [((5 : UInt32), sampleAnswer.header), (5, sampleAnswer.filename)],
          ParsedWhole c.2) ∧
        HandedOut [(5, sampleAnswer.header), (5, sampleAnswer.filename)]) := by
  refine ⟨by simp [WindowCreationAns.bytes], ?_⟩
  rintro ⟨hparsed, -⟩
  obtain ⟨answers, h⟩ := (parsedWhole_iff (by decide)).mp (hparsed _ List.mem_cons_self)
  cases answers with
  | nil => cases h
  | cons a answers =>
    have hround : collectRound sampleAnswer.header 0 = .error (.outOfBounds 31) := rfl
    have hpre : a.bytes <+: sampleAnswer.header.drop 0 := ⟨_, h.symm⟩
    rw [collectRound_of_isPrefix hpre] at hround
    cases hround

end BrickOS.Userland
