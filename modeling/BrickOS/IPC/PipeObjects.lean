import BrickOS.IPC.Pipes
import Mathlib.Data.List.AList

/-! Pipe objects, the handles that refer to them, and when they are freed. -/
namespace BrickOS.IPC
open BrickOS.Lib

/-- The pipe objects by address, `pipe_vec`, the open handles with the object each one refers to,
and the inodes of pipes that there are. -/
structure PipeTable where
  pipes : ℕ → Option Pipe
  pipeVec : List ℕ
  handles : AList fun _ : ℕ => ℕ
  inodes : ℕ → Bool

namespace PipeTable

def start (inodes : ℕ → Bool) : PipeTable := ⟨fun _ => none, [], ∅, inodes⟩

def setPipe (s : PipeTable) (a : ℕ) (pipe : Pipe) : PipeTable :=
  { s with pipes := Function.update s.pipes a (some pipe) }

def addHandle (s : PipeTable) (h a : ℕ) : PipeTable := { s with handles := s.handles.insert h a }

def removeHandle (s : PipeTable) (h : ℕ) : PipeTable := { s with handles := s.handles.erase h }

def addPipe (s : PipeTable) (a id : ℕ) (memory : ℕ → UInt8) : PipeTable :=
  { s.setPipe a (createPipe id memory) with pipeVec := s.pipeVec ++ [a] }

def freePipe (s : PipeTable) (a : ℕ) : PipeTable :=
  { s with pipes := Function.update s.pipes a none, pipeVec := s.pipeVec.erase a }

def findPipeByInode (s : PipeTable) (id : ℕ) : Option ℕ :=
  s.pipeVec.find? fun a => (s.pipes a).any fun pipe => pipe.inodeId == id

def openAt (s : PipeTable) (a h flags pid : ℕ) : Option PipeTable :=
  (s.pipes a).map fun pipe =>
    let r := IPC.openPipe pipe flags pid
    let s := s.setPipe a r.1
    if r.2 then s.addHandle h a else s

def openPipe (s : PipeTable) (a h id flags pid : ℕ) (memory : ℕ → UInt8) : Option PipeTable :=
  match s.findPipeByInode id with
  | none => (s.addPipe a id memory).openAt a h flags pid
  | some b => s.openAt b h flags pid

/-- `pipe_close`, and the handle is freed. `deleted` is the answer of `delete_file_by_inode`. -/
def pipeClose (s : PipeTable) (h : ℕ) (deleted : Bool) : Option PipeTable :=
  (s.handles.lookup h).bind fun a => (s.pipes a).map fun pipe =>
    if pipe.closed then
      { (s.freePipe a).removeHandle h with
        inodes := if deleted then Function.update s.inodes pipe.inodeId false else s.inodes }
    else (s.setPipe a { pipe with closed := true }).removeHandle h

/-- A use of the object that a handle refers to; `none` where that has been freed. -/
def withPipe (s : PipeTable) (h : ℕ) (f : Pipe → Option Pipe) : Option PipeTable :=
  (s.handles.lookup h).bind fun a => (s.pipes a).bind fun pipe => (f pipe).map (s.setPipe a)

end PipeTable

inductive PipeCall where
  | openPipe (a h id flags pid : ℕ) (memory : ℕ → UInt8)
  | pipeRead (h pid size : ℕ)
  | pipeWrite (h pid : ℕ) (data : List UInt8)
  | pipeClose (h : ℕ) (deleted : Bool)
  | mknod (id : ℕ)
  | rmfile (id : ℕ)

/-- Memory in use is not allocated again, inodes that are opened are there, and calls are made on
open handles. -/
def Callable (s : PipeTable) : PipeCall → Prop
  | .openPipe a h id _ _ _ => s.pipes a = none ∧ s.handles.lookup h = none ∧ s.inodes id = true
  | .pipeRead h _ _ | .pipeWrite h _ _ | .pipeClose h _ => s.handles.lookup h ≠ none
  | .mknod id => s.inodes id = false
  | .rmfile id => s.inodes id = true

instance (s : PipeTable) : (c : PipeCall) → Decidable (Callable s c)
  | .openPipe a h id _ _ _ => decidable_of_iff
      ((s.pipes a).isNone = true ∧ s.handles.lookup h = none ∧ s.inodes id = true)
      (and_congr_left' Option.isNone_iff_eq_none)
  | .pipeRead _ _ _ | .pipeWrite _ _ _ | .pipeClose _ _ => inferInstanceAs (Decidable (_ ≠ _))
  | .mknod _ | .rmfile _ => inferInstanceAs (Decidable (_ = _))

def PipeTable.perform (s : PipeTable) : PipeCall → Option PipeTable
  | .openPipe a h id flags pid memory => s.openPipe a h id flags pid memory
  | .pipeRead h pid size => s.withPipe h fun pipe => (pipeRead pipe pid size).map Prod.fst
  | .pipeWrite h pid data => s.withPipe h fun pipe => (pipeWrite pipe pid data).map Prod.fst
  | .pipeClose h deleted => s.pipeClose h deleted
  | .mknod id => some { s with inodes := Function.update s.inodes id true }
  | .rmfile id => some { s with inodes := Function.update s.inodes id false }

def pipeStep (s : PipeTable) (c : PipeCall) : Option PipeTable :=
  if Callable s c then s.perform c else none

namespace PipeTable

def Referred (s : PipeTable) (a : ℕ) : Prop := ∃ h, s.handles.lookup h = some a

def Tracked (s : PipeTable) : Prop := ∀ a, (s.pipes a).isSome ↔ s.Referred a

/-- A handle to an inode whose pipe no handle refers to gets a new pipe. -/
def OpensFresh (s : PipeTable) : Prop :=
  ∀ a h id flags pid memory s', pipeStep s (.openPipe a h id flags pid memory) = some s' →
    (∀ b pipe, s.Referred b → s.pipes b = some pipe → pipe.inodeId ≠ id) →
    ∀ b, s'.handles.lookup h = some b →
      ∃ pipe, s'.pipes b = some pipe ∧ pipe.inodeId = id ∧ pipe.unread = [] ∧ pipe.closed = false

/-- A new pipe is not opened for both reading and writing, and the handle that closes it for the
second time, and no other, is the last one. -/
def PipesKept (s : PipeTable) : PipeCall → Prop
  | .openPipe _ _ id flags _ _ => s.findPipeByInode id = none →
    ¬ (flags &&& fileFlagRead ≠ 0 ∧ flags &&& fileFlagWrite ≠ 0)
  | .pipeClose h _ => ∀ a ∈ s.handles.lookup h, ∀ pipe ∈ s.pipes a,
    (pipe.closed = true ↔ ∀ g, s.handles.lookup g = some a → g = h)
  | _ => True

theorem forall_handle_iff (s : PipeTable) (a h : ℕ) :
    (∀ g, s.handles.lookup g = some a → g = h) ↔ ∀ e ∈ s.handles.entries, e.2 = a → e.1 = h := by
  constructor
  · rintro hall ⟨g, b⟩ hmem rfl
    exact hall g (AList.mem_lookup_iff.mpr hmem)
  · intro hall g hg
    exact hall ⟨g, a⟩ (AList.mem_lookup_iff.mp hg) rfl

instance (s : PipeTable) (a h : ℕ) : Decidable (∀ g, s.handles.lookup g = some a → g = h) :=
  decidable_of_iff' _ (s.forall_handle_iff a h)

instance (s : PipeTable) : (c : PipeCall) → Decidable (s.PipesKept c)
  | .openPipe _ _ _ _ _ _ => inferInstanceAs (Decidable (_ = none → ¬ (_ ∧ _)))
  | .pipeClose h _ => inferInstanceAs (Decidable (∀ a ∈ s.handles.lookup h, ∀ pipe ∈ s.pipes a,
      (pipe.closed = true ↔ ∀ g, s.handles.lookup g = some a → g = h)))
  | .pipeRead _ _ _ | .pipeWrite _ _ _ | .mknod _ | .rmfile _ => inferInstanceAs (Decidable True)

structure Sound (s : PipeTable) : Prop where
  nodup : s.pipeVec.Nodup
  vector : ∀ a, a ∈ s.pipeVec ↔ (s.pipes a).isSome
  inodes : ∀ a b p q, s.pipes a = some p → s.pipes b = some q → p.inodeId = q.inodeId → a = b

end PipeTable

theorem exists_pipeWriteLoop (data : List UInt8) (fuel : ℕ) (p : Pipe) (k : ℕ)
    (hfuel : data.length - k < fuel) :
    ∃ r, pipeWriteLoop data fuel p k = some r ∧ r.1.inodeId = p.inodeId ∧
      r.1.closed = p.closed := by
  induction fuel generalizing p k with
  | zero => omega
  | succ fuel ih =>
    rw [pipeWriteLoop]
    by_cases hmore : k < data.length
    · rw [if_pos hmore]
      by_cases hfull : (p.writeHead + 1) % p.bufferSize = p.readTail
      · rw [if_pos hfull]
        exact ⟨_, rfl, rfl, rfl⟩
      · have hh := p.head_lt
        have ht := p.tail_lt
        have hroom : p.writeHead < p.readTail → p.writeHead + 1 < p.readTail := by
          intro hlt
          rw [Nat.mod_eq_of_lt (by omega)] at hfull
          omega
        rw [if_neg hfull]
        refine ih (p.put _) _ ?_
        -- at least one byte is copied
        split_ifs <;> omega
    · rw [if_neg hmore]
      exact ⟨_, rfl, rfl, rfl⟩

theorem exists_pipeReadLoop (size fuel : ℕ) (p : Pipe) (out : List UInt8)
    (hfuel : size - out.length < fuel) :
    ∃ r, pipeReadLoop size fuel p out = some r ∧ r.1.inodeId = p.inodeId ∧
      r.1.closed = p.closed := by
  induction fuel generalizing p out with
  | zero => omega
  | succ fuel ih =>
    rw [pipeReadLoop]
    by_cases hmore : out.length < size
    · rw [if_pos hmore]
      by_cases hempty : p.readTail = p.writeHead
      · rw [if_pos hempty]
        exact ⟨_, rfl, rfl, rfl⟩
      · have hh := p.head_lt
        have ht := p.tail_lt
        rw [if_neg hempty]
        refine ih (p.advance _) _ ?_
        rw [List.length_append, length_slice]
        split_ifs <;> omega
    · rw [if_neg hmore]
      exact ⟨_, rfl, rfl, rfl⟩

theorem exists_pipeWrite (p : Pipe) (pid : ℕ) (data : List UInt8) :
    ∃ r, pipeWrite p pid data = some r ∧ r.1.inodeId = p.inodeId ∧ r.1.closed = p.closed := by
  unfold pipeWrite
  split_ifs
  · exact ⟨_, rfl, rfl, rfl⟩
  · exact ⟨_, rfl, rfl, rfl⟩
  · obtain ⟨r, hr, hid, hclosed⟩ := exists_pipeWriteLoop data (data.length + 1) p 0 (by omega)
    exact ⟨_, Option.map_eq_some_iff.mpr ⟨r, hr, rfl⟩, hid, hclosed⟩

theorem exists_pipeRead (p : Pipe) (pid size : ℕ) :
    ∃ r, pipeRead p pid size = some r ∧ r.1.inodeId = p.inodeId ∧ r.1.closed = p.closed := by
  unfold pipeRead
  split_ifs
  · exact ⟨_, rfl, rfl, rfl⟩
  · exact ⟨_, rfl, rfl, rfl⟩
  · obtain ⟨r, hr, hid, hclosed⟩ := exists_pipeReadLoop size (size + 1) p [] (by simp)
    exact ⟨_, Option.map_eq_some_iff.mpr ⟨r, hr, rfl⟩, hid, hclosed⟩

theorem openPipe_keeps (p : Pipe) (flags pid : ℕ) :
    (openPipe p flags pid).1.inodeId = p.inodeId ∧ (openPipe p flags pid).1.closed = p.closed := by
  unfold openPipe
  split_ifs <;> exact ⟨rfl, rfl⟩

namespace PipeTable

section

variable {s : PipeTable} {a b h id : ℕ} {pipe pipe' : Pipe}

theorem pipes_setPipe (s : PipeTable) (a : ℕ) (pipe : Pipe) (b : ℕ) :
    (s.setPipe a pipe).pipes b = if b = a then some pipe else s.pipes b :=
  Function.update_apply _ _ _ _

theorem isSome_setPipe (ha : s.pipes a = some pipe) (pipe' : Pipe) (b : ℕ) :
    ((s.setPipe a pipe').pipes b).isSome = (s.pipes b).isSome := by
  rw [pipes_setPipe]
  split_ifs with hb
  · rw [hb, ha]
    rfl
  · rfl

theorem Sound.setPipe (hs : s.Sound) (ha : s.pipes a = some pipe)
    (hid : pipe'.inodeId = pipe.inodeId) : (s.setPipe a pipe').Sound where
  nodup := hs.nodup
  vector := by
    intro b
    rw [isSome_setPipe ha]
    exact hs.vector b
  inodes := by
    -- the ids are those of before
    have hbefore : ∀ b p, (s.setPipe a pipe').pipes b = some p →
        ∃ q, s.pipes b = some q ∧ q.inodeId = p.inodeId := by
      intro b p hb
      rw [pipes_setPipe] at hb
      split_ifs at hb with heq
      · obtain rfl := Option.some.inj hb
        exact ⟨pipe, heq ▸ ha, hid.symm⟩
      · exact ⟨p, hb, rfl⟩
    intro b c p q hb hc heq
    obtain ⟨p', hb', hp⟩ := hbefore b p hb
    obtain ⟨q', hc', hq⟩ := hbefore c q hc
    exact hs.inodes b c p' q' hb' hc' (hp.trans (heq.trans hq.symm))

theorem Sound.findPipeByInode_eq_none (hs : s.Sound) :
    s.findPipeByInode id = none ↔ ∀ a pipe, s.pipes a = some pipe → pipe.inodeId ≠ id := by
  rw [findPipeByInode, List.find?_eq_none]
  constructor
  · intro hnone a pipe ha heq
    have hmem : a ∈ s.pipeVec := (hs.vector a).mpr (by rw [ha]; rfl)
    apply hnone a hmem
    rw [ha]
    exact beq_iff_eq.mpr heq
  · intro hall a hmem hany
    obtain ⟨pipe, ha⟩ := Option.isSome_iff_exists.mp ((hs.vector a).mp hmem)
    rw [ha] at hany
    exact hall a pipe ha (beq_iff_eq.mp hany)

theorem Sound.findPipeByInode_eq_some (hs : s.Sound) (hfind : s.findPipeByInode id = some a) :
    ∃ pipe, s.pipes a = some pipe ∧ pipe.inodeId = id := by
  have hmem := List.mem_of_find?_eq_some hfind
  have hany := List.find?_some hfind
  obtain ⟨pipe, ha⟩ := Option.isSome_iff_exists.mp ((hs.vector a).mp hmem)
  rw [ha] at hany
  exact ⟨pipe, ha, beq_iff_eq.mp hany⟩

theorem Sound.addPipe (hs : s.Sound) (ha : s.pipes a = none)
    (hfind : s.findPipeByInode id = none) (memory : ℕ → UInt8) : (s.addPipe a id memory).Sound := by
  have hnone := hs.findPipeByInode_eq_none.mp hfind
  have hpipes : ∀ b, (s.addPipe a id memory).pipes b =
      if b = a then some (createPipe id memory) else s.pipes b := pipes_setPipe s a _
  have hmem : a ∉ s.pipeVec := by
    rw [hs.vector, ha]
    simp
  constructor
  · exact List.nodup_append'.mpr ⟨hs.nodup, List.nodup_singleton a,
      List.disjoint_singleton.mpr hmem⟩
  · intro b
    rw [hpipes]
    change b ∈ s.pipeVec ++ [a] ↔ _
    rw [List.mem_append, List.mem_singleton, hs.vector]
    split_ifs with hb
    · simp [hb]
    · simp [hb]
  · intro b c p q hb hc heq
    rw [hpipes] at hb hc
    split_ifs at hb hc with h₁ h₂ h₂
    · exact h₁.trans h₂.symm
    · obtain rfl := Option.some.inj hb
      exact absurd heq.symm (hnone c q hc)
    · obtain rfl := Option.some.inj hc
      exact absurd heq (hnone b p hb)
    · exact hs.inodes b c p q hb hc heq

theorem Sound.freePipe (hs : s.Sound) (a : ℕ) : (s.freePipe a).Sound := by
  have hbefore : ∀ b p, (s.freePipe a).pipes b = some p → s.pipes b = some p := by
    intro b p hb
    change Function.update s.pipes a none b = some p at hb
    rw [Function.update_apply] at hb
    split_ifs at hb
    exact hb
  constructor
  · exact hs.nodup.erase a
  · intro b
    change b ∈ s.pipeVec.erase a ↔ (Function.update s.pipes a none b).isSome = true
    rw [hs.nodup.mem_erase_iff, hs.vector, Function.update_apply]
    split_ifs with hb
    · simp [hb]
    · simp [hb]
  · intro b c p q hb hc heq
    exact hs.inodes b c p q (hbefore b p hb) (hbefore c q hc) heq

theorem Sound.congr {s' : PipeTable} (hs : s.Sound) (hpipes : s'.pipes = s.pipes)
    (hvec : s'.pipeVec = s.pipeVec) : s'.Sound := by
  constructor
  · rw [hvec]
    exact hs.nodup
  · rw [hvec, hpipes]
    exact hs.vector
  · rw [hpipes]
    exact hs.inodes

theorem referred_addHandle (hh : s.handles.lookup h = none) (a b : ℕ) :
    (s.addHandle h a).Referred b ↔ s.Referred b ∨ b = a := by
  constructor
  · rintro ⟨g, hg⟩
    change (s.handles.insert h a).lookup g = some b at hg
    by_cases hgh : g = h
    · rw [hgh, AList.lookup_insert] at hg
      exact .inr (Option.some.inj hg).symm
    · rw [AList.lookup_insert_ne hgh] at hg
      exact .inl ⟨g, hg⟩
  · rintro (⟨g, hg⟩ | rfl)
    · refine ⟨g, (AList.lookup_insert_ne ?_).trans hg⟩
      rintro rfl
      rw [hh] at hg
      cases hg
    · exact ⟨h, AList.lookup_insert _⟩

theorem referred_removeHandle (s : PipeTable) (h b : ℕ) :
    (s.removeHandle h).Referred b ↔ ∃ g, g ≠ h ∧ s.handles.lookup g = some b := by
  constructor
  · rintro ⟨g, hg⟩
    change (s.handles.erase h).lookup g = some b at hg
    have hgh : g ≠ h := by
      rintro rfl
      rw [AList.lookup_erase] at hg
      cases hg
    rw [AList.lookup_erase_ne hgh] at hg
    exact ⟨g, hgh, hg⟩
  · rintro ⟨g, hgh, hg⟩
    exact ⟨g, (AList.lookup_erase_ne hgh).trans hg⟩

theorem referred_removeHandle_of_ne (hh : s.handles.lookup h = some a) (hb : b ≠ a) :
    (s.removeHandle h).Referred b ↔ s.Referred b := by
  rw [referred_removeHandle]
  constructor
  · rintro ⟨g, -, hg⟩
    exact ⟨g, hg⟩
  · rintro ⟨g, hg⟩
    refine ⟨g, ?_, hg⟩
    rintro rfl
    rw [hh] at hg
    exact hb (Option.some.inj hg).symm

theorem referred_removeHandle_self (s : PipeTable) (h a : ℕ) :
    (s.removeHandle h).Referred a ↔ ¬ ∀ g, s.handles.lookup g = some a → g = h := by
  rw [referred_removeHandle]
  push Not
  exact exists_congr fun g => and_comm

theorem Tracked.exists_pipe (ht : s.Tracked) (hh : s.handles.lookup h = some a) :
    ∃ pipe, s.pipes a = some pipe :=
  Option.isSome_iff_exists.mp ((ht a).mpr ⟨h, hh⟩)

theorem unread_createPipe (id : ℕ) (memory : ℕ → UInt8) : (createPipe id memory).unread = [] := by
  simp [createPipe, Pipe.unread, Pipe.unreadCount, ringSlice]

theorem openPipe_createPipe (id : ℕ) (memory : ℕ → UInt8) (flags pid : ℕ) :
    (IPC.openPipe (createPipe id memory) flags pid).2 =
      !decide (flags &&& fileFlagRead ≠ 0 ∧ flags &&& fileFlagWrite ≠ 0) := by
  have hread : ¬ (createPipe id memory).readId ≠ pipeDefaultAccessId := not_not.mpr rfl
  have hwrite : ¬ (createPipe id memory).writeId ≠ pipeDefaultAccessId := not_not.mpr rfl
  unfold IPC.openPipe
  rw [if_neg hread, if_neg hwrite]
  split_ifs with hboth
  · rw [decide_eq_true hboth]
    rfl
  all_goals
    rw [decide_eq_false hboth]
    rfl

theorem Sound.exists_withPipe (hs : s.Sound) (ht : s.Tracked) (hh : s.handles.lookup h ≠ none)
    {f : Pipe → Option Pipe}
    (hf : ∀ pipe, ∃ pipe', f pipe = some pipe' ∧ pipe'.inodeId = pipe.inodeId) :
    ∃ s', s.withPipe h f = some s' ∧ s'.Sound ∧ s'.Tracked := by
  obtain ⟨a, ha⟩ := Option.ne_none_iff_exists'.mp hh
  obtain ⟨pipe, hpipe⟩ := ht.exists_pipe ha
  obtain ⟨pipe', hpipe', hid⟩ := hf pipe
  refine ⟨s.setPipe a pipe', ?_, hs.setPipe hpipe hid, fun b => ?_⟩
  · rw [withPipe, ha, Option.bind_some, hpipe, Option.bind_some, hpipe']
    rfl
  · rw [isSome_setPipe hpipe]
    exact ht b

theorem Tracked.close_iff {s' : PipeTable} (ht : s.Tracked) (ha : s.handles.lookup h = some a)
    (hpipes : ∀ b, b ≠ a → s'.pipes b = s.pipes b)
    (hhandles : s'.handles = (s.removeHandle h).handles) :
    s'.Tracked ↔ ((s'.pipes a).isSome ↔ ¬ ∀ g, s.handles.lookup g = some a → g = h) := by
  have hreferred : ∀ b, s'.Referred b ↔ (s.removeHandle h).Referred b := by
    intro b
    rw [Referred, Referred, hhandles]
  constructor
  · intro ht'
    rw [ht' a, hreferred, referred_removeHandle_self]
  · intro hself b
    rw [hreferred]
    by_cases hb : b = a
    · rw [hb, hself, referred_removeHandle_self]
    · rw [hpipes b hb, referred_removeHandle_of_ne ha hb]
      exact ht b

theorem Sound.exists_pipeClose (hs : s.Sound) (ht : s.Tracked) (hh : s.handles.lookup h ≠ none)
    (deleted : Bool) : ∃ s', s.pipeClose h deleted = some s' ∧ s'.Sound ∧
      (s'.Tracked ↔ s.PipesKept (.pipeClose h deleted)) := by
  obtain ⟨a, ha⟩ := Option.ne_none_iff_exists'.mp hh
  obtain ⟨pipe, hpipe⟩ := ht.exists_pipe ha
  have hkept : s.PipesKept (.pipeClose h deleted) ↔
      (pipe.closed = true ↔ ∀ g, s.handles.lookup g = some a → g = h) := by
    simp [PipesKept, ha, hpipe]
  rw [pipeClose, ha, Option.bind_some, hpipe, Option.map_some, hkept]
  refine ⟨_, rfl, ?_⟩
  by_cases hclosed : pipe.closed = true
  · rw [if_pos hclosed, iff_true_left hclosed]
    refine ⟨(hs.freePipe a).congr rfl rfl, ?_⟩
    have hfreed : (s.freePipe a).pipes a = none := Function.update_self _ _ _
    rw [ht.close_iff ha]
    · change (((s.freePipe a).pipes a).isSome = true ↔ _) ↔ _
      rw [hfreed, Option.isSome_none, iff_false_left Bool.false_ne_true, not_not]
    · intro b hb
      exact Function.update_of_ne hb _ _
    · rfl
  · have hsound : (s.setPipe a { pipe with closed := true }).Sound := hs.setPipe hpipe rfl
    rw [if_neg hclosed, iff_false_left hclosed]
    refine ⟨hsound.congr rfl rfl, ?_⟩
    have hkeeps : (s.setPipe a { pipe with closed := true }).pipes a =
        some { pipe with closed := true } := Function.update_self _ _ _
    rw [ht.close_iff ha]
    · change (((s.setPipe a { pipe with closed := true }).pipes a).isSome = true ↔ _) ↔ _
      rw [hkeeps, Option.isSome_some, iff_true_left rfl]
    · intro b hb
      exact Function.update_of_ne hb _ _
    · rfl

theorem Sound.exists_openAt (hs : s.Sound) (ht : s.Tracked) (hpipe : s.pipes a = some pipe)
    (hh : s.handles.lookup h = none) (flags pid : ℕ) :
    ∃ s', s.openAt a h flags pid = some s' ∧ s'.Sound ∧ s'.Tracked := by
  have hsound := hs.setPipe hpipe (openPipe_keeps pipe flags pid).1
  rw [openAt, hpipe, Option.map_some]
  refine ⟨_, rfl, ?_⟩
  dsimp only
  split_ifs
  · refine ⟨hsound.congr rfl rfl, fun b => ?_⟩
    refine (Bool.eq_iff_iff.mp (isSome_setPipe hpipe _ b)).trans ((ht b).trans ?_)
    refine Iff.trans ?_ (referred_addHandle (s := s.setPipe a _) hh a b).symm
    exact (or_iff_left_of_imp fun hb => (ht b).mp (by rw [hb, hpipe]; rfl)).symm
  · refine ⟨hsound, fun b => ?_⟩
    rw [isSome_setPipe hpipe]
    exact ht b

/-- `open_pipe` of a pipe that there is not, for both reading and writing or not. -/
theorem Sound.openAt_addPipe (hs : s.Sound) (ht : s.Tracked) (ha : s.pipes a = none)
    (hh : s.handles.lookup h = none) (hfind : s.findPipeByInode id = none) (flags pid : ℕ)
    (memory : ℕ → UInt8) : ∃ s', (s.addPipe a id memory).openAt a h flags pid = some s' ∧
      s'.Sound ∧ s'.pipes a = some (IPC.openPipe (createPipe id memory) flags pid).1 ∧
      if flags &&& fileFlagRead ≠ 0 ∧ flags &&& fileFlagWrite ≠ 0 then
        s'.handles = s.handles ∧ ¬ s'.Tracked
      else s'.handles = s.handles.insert h a ∧ s'.Tracked := by
  have hpipe : (s.addPipe a id memory).pipes a = some (createPipe id memory) :=
    Function.update_self _ _ _
  have hsound := (hs.addPipe ha hfind memory).setPipe hpipe
    (openPipe_keeps (createPipe id memory) flags pid).1
  have hunreferred : ¬ s.Referred a := by
    rw [← ht a, ha]
    simp
  have hothers : ∀ b, b ≠ a → ((s.addPipe a id memory).pipes b).isSome = (s.pipes b).isSome :=
    fun b hb => congrArg Option.isSome (Function.update_of_ne hb _ _)
  rw [openAt, hpipe, Option.map_some]
  refine ⟨_, rfl, ?_⟩
  dsimp only
  rw [openPipe_createPipe]
  split_ifs with hopened hboth hboth
  · simp [hboth] at hopened
  · refine ⟨hsound.congr rfl rfl, Function.update_self _ _ _, rfl, fun b => ?_⟩
    refine (Bool.eq_iff_iff.mp (isSome_setPipe hpipe _ b)).trans ?_
    refine Iff.trans ?_ (referred_addHandle (s := (s.addPipe a id memory).setPipe a _) hh a b).symm
    by_cases hb : b = a
    · rw [hb, hpipe]
      exact ⟨fun _ => .inr rfl, fun _ => rfl⟩
    · rw [hothers b hb, or_iff_left hb]
      exact ht b
  · refine ⟨hsound, Function.update_self _ _ _, rfl, fun ht' => hunreferred ?_⟩
    refine (ht' a).mp ?_
    rw [isSome_setPipe hpipe, hpipe]
    rfl
  · simp [hboth] at hopened

theorem Sound.exists_step (hs : s.Sound) (ht : s.Tracked) {c : PipeCall} (hc : Callable s c) :
    ∃ s', pipeStep s c = some s' ∧ s'.Sound ∧ (s'.Tracked ↔ s.PipesKept c) := by
  rw [pipeStep, if_pos hc]
  cases c with
  | openPipe a h id flags pid memory =>
    obtain ⟨ha, hh, -⟩ := hc
    simp only [perform, PipeTable.openPipe]
    cases hfind : s.findPipeByInode id with
    | none =>
      obtain ⟨s', hs', hsound, -, htracked⟩ := hs.openAt_addPipe ht ha hh hfind flags pid memory
      refine ⟨s', hs', hsound, ?_⟩
      have hkept : s.PipesKept (.openPipe a h id flags pid memory) ↔
          ¬ (flags &&& fileFlagRead ≠ 0 ∧ flags &&& fileFlagWrite ≠ 0) :=
        imp_iff_right hfind
      rw [hkept]
      split_ifs at htracked with hboth
      · exact iff_of_false htracked.2 (not_not.mpr hboth)
      · exact iff_of_true htracked.2 hboth
    | some b =>
      obtain ⟨pipe, hpipe, -⟩ := hs.findPipeByInode_eq_some hfind
      obtain ⟨s', hs', hsound, htracked⟩ := hs.exists_openAt ht hpipe hh flags pid
      refine ⟨s', hs', hsound, iff_of_true htracked fun hnone => ?_⟩
      rw [hfind] at hnone
      cases hnone
  | pipeRead h pid size =>
    obtain ⟨s', hs', hsound, htracked⟩ := hs.exists_withPipe ht hc
      (f := fun pipe => (pipeRead pipe pid size).map Prod.fst) fun pipe => by
        obtain ⟨r, hr, hid, -⟩ := exists_pipeRead pipe pid size
        exact ⟨r.1, Option.map_eq_some_iff.mpr ⟨r, hr, rfl⟩, hid⟩
    exact ⟨s', hs', hsound, iff_of_true htracked trivial⟩
  | pipeWrite h pid data =>
    obtain ⟨s', hs', hsound, htracked⟩ := hs.exists_withPipe ht hc
      (f := fun pipe => (pipeWrite pipe pid data).map Prod.fst) fun pipe => by
        obtain ⟨r, hr, hid, -⟩ := exists_pipeWrite pipe pid data
        exact ⟨r.1, Option.map_eq_some_iff.mpr ⟨r, hr, rfl⟩, hid⟩
    exact ⟨s', hs', hsound, iff_of_true htracked trivial⟩
  | pipeClose h deleted => exact hs.exists_pipeClose ht hc deleted
  | mknod id => exact ⟨_, rfl, hs.congr rfl rfl, iff_of_true ht trivial⟩
  | rmfile id => exact ⟨_, rfl, hs.congr rfl rfl, iff_of_true ht trivial⟩

theorem Sound.opensFresh (hs : s.Sound) (ht : s.Tracked) : s.OpensFresh := by
  intro a h id flags pid memory s' hstep hunreferred b hb
  by_cases hc : Callable s (.openPipe a h id flags pid memory)
  swap
  · rw [pipeStep, if_neg hc] at hstep
    cases hstep
  have hfind : s.findPipeByInode id = none := by
    rw [hs.findPipeByInode_eq_none]
    intro b pipe hpipe
    refine hunreferred b pipe ((ht b).mp ?_) hpipe
    rw [hpipe]
    rfl
  obtain ⟨t, ht', -, hpipe, hhandles⟩ := hs.openAt_addPipe ht hc.1 hc.2.1 hfind flags pid memory
  obtain rfl : s' = t := by
    rw [pipeStep, if_pos hc] at hstep
    simp only [perform, PipeTable.openPipe, hfind] at hstep
    exact Option.some.inj (hstep.symm.trans ht')
  split_ifs at hhandles
  · rw [hhandles.1, hc.2.1] at hb
    cases hb
  · rw [hhandles.1, AList.lookup_insert] at hb
    obtain rfl := Option.some.inj hb
    obtain ⟨hid, hclosed⟩ := openPipe_keeps (createPipe id memory) flags pid
    refine ⟨_, hpipe, hid, ?_, hclosed⟩
    rw [(openPipe_unread _ _ _).1, unread_createPipe]

end

end PipeTable

open PipeTable

theorem sound_start (inodes : ℕ → Bool) : (start inodes).Sound := by
  constructor
  · exact List.nodup_nil
  · intro a
    exact iff_of_false (by rintro ⟨⟩) Bool.false_ne_true
  · intro a b p q hp
    cases hp

theorem tracked_start (inodes : ℕ → Bool) : (start inodes).Tracked := by
  intro a
  refine iff_of_false Bool.false_ne_true ?_
  rintro ⟨h, hh⟩
  cases hh

/-- In every run in which the condition is met, an object is there as long as a handle refers to it,
and an inode without one gets a new pipe; a call after it keeps this only under the condition. -/
theorem pipes_tracked (inodes : ℕ → Bool) (cs : List PipeCall) (s : PipeTable)
    (hkept : Along pipeStep PipesKept (start inodes) cs)
    (hrun : run pipeStep (start inodes) cs = some s) :
    s.Tracked ∧ s.OpensFresh ∧ ∀ c, Callable s c →
      ∃ s', pipeStep s c = some s' ∧ (s'.Tracked ↔ s.PipesKept c) := by
  have hkeep : ∀ s c s', s.PipesKept c → pipeStep s c = some s' → s.Sound ∧ s.Tracked →
      s'.Sound ∧ s'.Tracked := by
    intro s c s' hc hs' ⟨hs, ht⟩
    by_cases hcall : Callable s c
    · obtain ⟨t, hstep, hsound, htracked⟩ := hs.exists_step ht hcall
      obtain rfl : t = s' := Option.some.inj (hstep.symm.trans hs')
      exact ⟨hsound, htracked.mpr hc⟩
    · rw [pipeStep, if_neg hcall] at hs'
      cases hs'
  obtain ⟨hs, ht⟩ := run_invariant hkeep hkept hrun ⟨sound_start inodes, tracked_start inodes⟩
  refine ⟨ht, hs.opensFresh ht, fun c hc => ?_⟩
  obtain ⟨s', hstep, -, htracked⟩ := hs.exists_step ht hc
  exact ⟨s', hstep, htracked⟩

/-- A writer and a reader that both close the pipe. -/
theorem pipes_tracked_two_ends :
    ∃ s, run pipeStep (start fun _ => true) [.openPipe 10 20 7 fileFlagWrite 1 fun _ => 0,
      .openPipe 11 21 7 fileFlagRead 2 fun _ => 0, .pipeWrite 20 1 [65], .pipeRead 21 2 1,
      .pipeClose 20 true, .pipeClose 21 true] = some s ∧ (s.pipes 10).isSome = false ∧
        s.Tracked := by
  obtain ⟨s, hrun, hfreed⟩ := Option.map_eq_some_iff.mp
    (by decide +kernel : (run pipeStep (start fun _ => true)
      [.openPipe 10 20 7 fileFlagWrite 1 fun _ => 0, .openPipe 11 21 7 fileFlagRead 2 fun _ => 0,
        .pipeWrite 20 1 [65], .pipeRead 21 2 1, .pipeClose 20 true, .pipeClose 21 true]).map
          (fun s => (s.pipes 10).isSome) = some false)
  exact ⟨s, hrun, hfreed, (pipes_tracked (fun _ => true) _ s (by decide +kernel) hrun).1⟩

/-- A pipe with a third handle is freed when the second one is closed. A pipe that is closed once
and has no other handle stays, and is closed when it is opened again. -/
theorem pipes_untracked :
    (∃ s, run pipeStep (start fun _ => true) [.openPipe 10 20 7 fileFlagWrite 1 fun _ => 0,
      .openPipe 11 21 7 fileFlagRead 2 fun _ => 0, .openPipe 11 22 7 0 3 fun _ => 0,
      .pipeClose 20 true, .pipeClose 21 true] = some s ∧ s.handles.lookup 22 = some 10 ∧
        (s.pipes 10).isSome = false) ∧
    ∃ s, run pipeStep (start fun _ => true) [.openPipe 10 20 7 fileFlagWrite 1 fun _ => 0,
      .pipeClose 20 true, .openPipe 11 21 7 fileFlagRead 2 fun _ => 0] = some s ∧
        s.handles.lookup 21 = some 10 ∧ (s.pipes 10).map Pipe.closed = some true := by
  constructor
  · obtain ⟨s, hrun, hs⟩ := Option.map_eq_some_iff.mp
      (by decide +kernel : (run pipeStep (start fun _ => true)
        [.openPipe 10 20 7 fileFlagWrite 1 fun _ => 0, .openPipe 11 21 7 fileFlagRead 2 fun _ => 0,
          .openPipe 11 22 7 0 3 fun _ => 0, .pipeClose 20 true, .pipeClose 21 true]).map
            (fun s => (s.handles.lookup 22, (s.pipes 10).isSome)) = some (some 10, false))
    exact ⟨s, hrun, Prod.mk.inj hs⟩
  · obtain ⟨s, hrun, hs⟩ := Option.map_eq_some_iff.mp
      (by decide +kernel : (run pipeStep (start fun _ => true)
        [.openPipe 10 20 7 fileFlagWrite 1 fun _ => 0, .pipeClose 20 true,
          .openPipe 11 21 7 fileFlagRead 2 fun _ => 0]).map
            (fun s => (s.handles.lookup 21, (s.pipes 10).map Pipe.closed)) =
              some (some 10, some true))
    exact ⟨s, hrun, Prod.mk.inj hs⟩

end BrickOS.IPC
