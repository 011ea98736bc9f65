import Mathlib.Algebra.Order.Ring.Nat
import Mathlib.Data.List.TakeWhile

/-! The shell takes a line apart into a command and its arguments. A pointer into the line is the list
of the bytes from it on, up to the terminator; a read behind that has no result, and neither has a write
behind a block from `malloc`. -/
namespace BrickOS.Userland

def space : UInt8 := 32

def newline : UInt8 := 10

def isSpace (c : UInt8) : Bool := c == space

def notSpace (c : UInt8) : Bool := c != space

/-- `malloc` of a number of bytes that is computed in 64 bits: its argument has 32. -/
def mallocBytes (size : ℕ) : ℕ := size % 2 ^ 32

def skipLeading : List UInt8 → ℕ → Option (List UInt8 × ℕ)
  | [], _ => none
  | c :: rest, i => if c = space then skipLeading rest (i + 1) else some (c :: rest, i)

def skipWhile (p : UInt8 → Bool) (lineLength : ℕ) : List UInt8 → ℕ → Option (List UInt8 × ℕ)
  | [], i => if i < lineLength then none else some ([], i)
  | c :: rest, i =>
    if i < lineLength ∧ p c then skipWhile p lineLength rest (i + 1) else some (c :: rest, i)

def wordLoop (lineLength buffer : ℕ) : List UInt8 → ℕ → ℕ → Option (List UInt8)
  | [], i, _ => if i < lineLength then none else some []
  | c :: rest, i, k =>
    if i < lineLength ∧ c ≠ space ∧ c ≠ 0 ∧ c ≠ newline then
      if k < buffer then (wordLoop lineLength buffer rest (i + 1) (k + 1)).map (c :: ·) else none
    else some []

def parseWord (lineLength : ℕ) (rest : List UInt8) (startIdx : ℕ) : Option (List UInt8) := do
  let word ← wordLoop lineLength (mallocBytes (lineLength + 1)) rest startIdx 0
  -- The word and its terminator go to a block of their own.
  if word.length < mallocBytes (word.length + 1) then return word else none

/-- The first pass, which counts the arguments. Each turn of the outer loop moves on, so that `fuel`
turns are enough for as many characters. -/
def countArgs (lineLength : ℕ) : ℕ → List UInt8 → ℕ → Option ℕ
  | 0, _, _ => none
  | fuel + 1, rest, i =>
    if i < lineLength then do
      let (rest, i) ← skipWhile isSpace lineLength rest i
      if i < lineLength then do
        let (rest, i) ← skipWhile notSpace lineLength rest i
        return (← countArgs lineLength fuel rest i) + 1
      else countArgs lineLength fuel rest i
    else some 0

def parseArgs (lineLength nArgs room : ℕ) : ℕ → List UInt8 → ℕ → ℕ → Option (List (List UInt8))
  | 0, _, _, _ => none
  | fuel + 1, rest, j, argIdx =>
    if j < lineLength then do
      let (rest, j) ← skipWhile isSpace lineLength rest j
      if j ≥ lineLength then return []
      else if argIdx ≥ nArgs then return []
      else do
        let word ← parseWord lineLength rest j
        if argIdx < room then
          return word :: (← parseArgs lineLength nArgs room fuel (rest.drop word.length)
            (j + word.length) (argIdx + 1))
        else none
    else some []

structure Command where
  command : List UInt8
  nArgs : ℕ
  args : List (List UInt8)

/-- `parse_line` on a line with its terminator behind it; `sizeof(string_t)` is 16. -/
def parseLine (line : List UInt8) : Option Command := do
  let lineLength := line.length
  let (rest, commandStart) ← skipLeading (line ++ [0]) 0
  let command ← parseWord lineLength rest commandStart
  let rest := rest.drop command.length
  let start := commandStart + command.length
  let nArgs ← countArgs lineLength (lineLength + 1) rest start
  let args ← parseArgs lineLength nArgs (mallocBytes (16 * nArgs) / 16) (lineLength + 1) rest start 0
  return ⟨command, nArgs, args⟩

def words (line : List UInt8) : List (List UInt8) := (line.splitOn space).filter (· ≠ [])

def SplitsLine (line : List UInt8) : Prop :=
  ∃ comd, parseLine line = some comd ∧ comd.command = (words line).headD [] ∧
    comd.args = (words line).tail ∧ comd.nArgs = (words line).tail.length

section Words

variable {l w : List UInt8}

theorem words_nil : words [] = [] := rfl

theorem words_space (l : List UInt8) : words (space :: l) = words l := by
  rw [words, List.splitOn_cons_eq_if_modifyHead, if_pos (beq_self_eq_true space)]
  rfl

theorem words_append_space (hw : space ∉ w) (hne : w ≠ []) (l : List UInt8) :
    words (w ++ space :: l) = w :: words (space :: l) := by
  rw [words_space, words, List.splitOn_append_cons_self_of_not_mem hw,
    List.filter_cons_of_pos (by simpa using hne)]
  rfl

theorem words_of_notMem (hw : space ∉ w) (hne : w ≠ []) : words w = [w] := by
  rw [words, List.splitOn_eq_singleton hw, List.filter_cons_of_pos (by simpa using hne)]
  rfl

theorem words_dropWhile (l : List UInt8) : words (l.dropWhile isSpace) = words l := by
  induction l with
  | nil => rfl
  | cons c l ih =>
    rw [List.dropWhile_cons]
    split
    · next h => rw [ih, beq_iff_eq.mp h, words_space]
    · rfl

/-- A line that does not start with a space starts with a word. -/
theorem words_eq_cons {c : UInt8} (hc : c ≠ space) (l : List UInt8) :
    words (c :: l) = (c :: l).takeWhile notSpace :: words ((c :: l).dropWhile notSpace) := by
  have hne : (c :: l).takeWhile notSpace ≠ [] := by
    rw [List.takeWhile_cons_of_pos (by simpa [notSpace] using hc)]
    exact List.cons_ne_nil _ _
  have hmem : space ∉ (c :: l).takeWhile notSpace := by
    intro h
    have hp := List.mem_takeWhile_imp h
    simp [notSpace] at hp
  have happend := List.takeWhile_append_dropWhile (p := notSpace) (l := c :: l)
  cases hdrop : (c :: l).dropWhile notSpace with
  | nil =>
    rw [hdrop, List.append_nil] at happend
    rw [words_nil, ← words_of_notMem hmem hne, happend]
  | cons d rest =>
    have hhead := List.head?_dropWhile_not notSpace (c :: l)
    rw [hdrop] at hhead
    obtain rfl : d = space := by simpa [notSpace] using hhead
    rw [← words_append_space hmem hne, ← hdrop, happend]

/-- Behind leading spaces there is nothing, or a word and the rest. -/
theorem words_cases (r : List UInt8) :
    r.dropWhile isSpace = [] ∧ words r = [] ∨
      ∃ c l, r.dropWhile isSpace = c :: l ∧ c ≠ space ∧
        words r = (c :: l).takeWhile notSpace :: words ((c :: l).dropWhile notSpace) := by
  have hwords := words_dropWhile r
  cases hdrop : r.dropWhile isSpace with
  | nil =>
    rw [hdrop] at hwords
    exact .inl ⟨rfl, hwords.symm⟩
  | cons c l =>
    have hhead := List.head?_dropWhile_not isSpace r
    rw [hdrop] at hhead hwords
    have hc : c ≠ space := by simpa [isSpace] using hhead
    exact .inr ⟨c, l, rfl, hc, by rw [← hwords, words_eq_cons hc]⟩

end Words

section Loops

variable {n i k : ℕ} {r : List UInt8}

theorem skipLeading_eq (r : List UInt8) (i : ℕ) :
    skipLeading (r ++ [0]) i =
      some (r.dropWhile isSpace ++ [0], i + (r.takeWhile isSpace).length) := by
  induction r generalizing i with
  | nil => rfl
  | cons c r ih =>
    by_cases hc : c = space
    · have hp : isSpace c = true := beq_iff_eq.mpr hc
      rw [List.cons_append, skipLeading, if_pos hc, ih, List.dropWhile_cons_of_pos hp,
        List.takeWhile_cons_of_pos hp, List.length_cons, Nat.add_right_comm, Nat.add_assoc]
    · have hp : ¬ isSpace c = true := mt beq_iff_eq.mp hc
      rw [List.cons_append, skipLeading, if_neg hc, List.dropWhile_cons_of_neg hp,
        List.takeWhile_cons_of_neg hp]
      rfl

theorem skipWhile_eq (p : UInt8 → Bool) (h : i + r.length = n) :
    skipWhile p n (r ++ [0]) i = some (r.dropWhile p ++ [0], i + (r.takeWhile p).length) := by
  induction r generalizing i with
  | nil =>
    have hn : ¬ i < n := by simpa using h.ge
    exact if_neg fun hall => hn hall.1
  | cons c r ih =>
    rw [List.length_cons] at h
    by_cases hc : p c = true
    · rw [List.cons_append, skipWhile, if_pos ⟨by omega, hc⟩, ih (by omega),
        List.dropWhile_cons_of_pos hc, List.takeWhile_cons_of_pos hc, List.length_cons,
        Nat.add_right_comm, Nat.add_assoc]
    · rw [List.cons_append, skipWhile, if_neg fun hall => hc hall.2, List.dropWhile_cons_of_neg hc,
        List.takeWhile_cons_of_neg hc]
      rfl

def Plain (r : List UInt8) : Prop := ∀ c ∈ r, c ≠ 0 ∧ c ≠ newline

instance (r : List UInt8) : Decidable (Plain r) := List.decidableBAll _ r

theorem Plain.dropWhile {p : UInt8 → Bool} {l : List UInt8} (h : Plain r) (hl : r.dropWhile p = l) :
    Plain l := by
  intro c hc
  rw [← hl] at hc
  exact h c ((List.dropWhile_suffix p).subset hc)

theorem wordLoop_eq {buffer : ℕ} (hplain : Plain r) (h : i + r.length = n)
    (hroom : k + (r.takeWhile notSpace).length ≤ buffer) :
    wordLoop n buffer (r ++ [0]) i k = some (r.takeWhile notSpace) := by
  induction r generalizing i k with
  | nil =>
    have hn : ¬ i < n := by simpa using h.ge
    exact if_neg fun hall => hn hall.1
  | cons c r ih =>
    obtain ⟨hc, hr⟩ := List.forall_mem_cons.mp hplain
    rw [List.length_cons] at h
    by_cases hspace : c = space
    · have hp : ¬ notSpace c = true := by simpa [notSpace] using hspace
      rw [List.cons_append, wordLoop, if_neg (fun hall => hall.2.1 hspace),
        List.takeWhile_cons_of_neg hp]
    · have hp : notSpace c = true := by simpa [notSpace] using hspace
      rw [List.takeWhile_cons_of_pos hp, List.length_cons] at hroom
      rw [List.cons_append, wordLoop, if_pos ⟨by omega, hspace, hc⟩, if_pos (by omega),
        ih hr (by omega) (by omega), List.takeWhile_cons_of_pos hp]
      rfl

theorem parseWord_eq (hplain : Plain r) (h : i + r.length = n) (hn : n + 1 < 2 ^ 32) :
    parseWord n (r ++ [0]) i = some (r.takeWhile notSpace) := by
  have hle : (r.takeWhile notSpace).length ≤ r.length := (List.takeWhile_prefix _).length_le
  have hbuffer : mallocBytes (n + 1) = n + 1 := Nat.mod_eq_of_lt hn
  have hword : mallocBytes ((r.takeWhile notSpace).length + 1) =
      (r.takeWhile notSpace).length + 1 := Nat.mod_eq_of_lt (by omega)
  rw [parseWord, wordLoop_eq hplain h (by omega)]
  simp [hword]

/-- Without a byte in the buffer no word is parsed. -/
theorem parseWord_of_full {c : UInt8} (hplain : Plain (c :: r)) (hc : c ≠ space)
    (h : i + (c :: r).length = n) (hn : n + 1 = 2 ^ 32) : parseWord n (c :: r ++ [0]) i = none := by
  have hbuffer : mallocBytes (n + 1) = 0 := by rw [hn]; rfl
  rw [List.length_cons] at h
  rw [parseWord, hbuffer, List.cons_append, wordLoop, if_pos ⟨by omega, hc, hplain c List.mem_cons_self⟩]
  rfl

theorem length_takeWhile_add_dropWhile (p : UInt8 → Bool) (r : List UInt8) :
    (r.takeWhile p).length + (r.dropWhile p).length = r.length := by
  rw [← List.length_append, List.takeWhile_append_dropWhile]

theorem drop_takeWhile (p : UInt8 → Bool) (r t : List UInt8) :
    (r ++ t).drop (r.takeWhile p).length = r.dropWhile p ++ t := by
  calc (r ++ t).drop (r.takeWhile p).length
      = (r.takeWhile p ++ (r.dropWhile p ++ t)).drop (r.takeWhile p).length := by
        rw [← List.append_assoc, List.takeWhile_append_dropWhile]
    _ = r.dropWhile p ++ t := List.drop_left

theorem length_takeWhile_pos {c : UInt8} (hc : c ≠ space) (l : List UInt8) :
    0 < ((c :: l).takeWhile notSpace).length := by
  rw [List.takeWhile_cons_of_pos (by simpa [notSpace] using hc)]
  exact Nat.succ_pos _

theorem countArgs_eq {fuel : ℕ} (h : i + r.length = n) (hfuel : r.length < fuel) :
    countArgs n fuel (r ++ [0]) i = some (words r).length := by
  induction fuel generalizing r i with
  | zero => omega
  | succ fuel ih =>
    by_cases hi : i < n
    · have hlen := length_takeWhile_add_dropWhile isSpace r
      rw [countArgs, if_pos hi, skipWhile_eq isSpace h]
      simp only [Option.bind_eq_bind, Option.bind_some]
      rcases words_cases r with ⟨hdrop, hwords⟩ | ⟨c, l, hdrop, hc, hwords⟩
      · rw [hdrop, List.length_nil] at hlen
        rw [if_neg (by omega), hdrop, hwords, ih (r := []) (by rw [List.length_nil]; omega)
          (by rw [List.length_nil]; omega), words_nil]
      · rw [hdrop] at hlen
        have hpos := length_takeWhile_pos hc l
        have hlen' := length_takeWhile_add_dropWhile notSpace (c :: l)
        rw [if_pos (by omega), hdrop, skipWhile_eq notSpace (by omega)]
        simp only [Option.bind_some]
        rw [ih (by omega) (by omega), hwords, List.length_cons]
        rfl
    · obtain rfl : r = [] := List.length_eq_zero_iff.mp (by omega)
      rw [countArgs, if_neg hi]
      rfl

theorem parseArgs_eq {fuel nArgs room argIdx : ℕ} (hplain : Plain r) (hn : n + 1 < 2 ^ 32)
    (h : i + r.length = n) (hfuel : r.length < fuel)
    (hargs : argIdx + (words r).length ≤ nArgs) (hroom : argIdx ≤ room) :
    parseArgs n nArgs room fuel (r ++ [0]) i argIdx =
      if argIdx + (words r).length ≤ room then some (words r) else none := by
  induction fuel generalizing r i argIdx with
  | zero => omega
  | succ fuel ih =>
    by_cases hi : i < n
    · have hlen := length_takeWhile_add_dropWhile isSpace r
      rw [parseArgs, if_pos hi, skipWhile_eq isSpace h]
      simp only [Option.bind_eq_bind, Option.bind_some]
      rcases words_cases r with ⟨hdrop, hwords⟩ | ⟨c, l, hdrop, hc, hwords⟩
      · rw [hdrop, List.length_nil] at hlen
        rw [if_pos (by omega), hwords, List.length_nil, Nat.add_zero, if_pos hroom]
        rfl
      · rw [hdrop] at hlen
        rw [hwords, List.length_cons] at hargs
        have hpos := length_takeWhile_pos hc l
        have hlen' := length_takeWhile_add_dropWhile notSpace (c :: l)
        have hplain' : Plain (c :: l) := hplain.dropWhile hdrop
        rw [if_neg (by omega), if_neg (by omega), hdrop, parseWord_eq hplain' (by omega) hn]
        simp only [Option.bind_some]
        rw [drop_takeWhile, hwords, List.length_cons]
        by_cases hfits : argIdx < room
        · rw [if_pos hfits, ih (hplain'.dropWhile rfl) (by omega) (by omega) (by omega)
            (show argIdx + 1 ≤ room from hfits), Nat.add_right_comm, Nat.add_assoc]
          split <;> rfl
        · rw [if_neg hfits, if_neg (by omega)]
    · obtain rfl : r = [] := List.length_eq_zero_iff.mp (by omega)
      rw [parseArgs, if_neg hi, words_nil, List.length_nil, Nat.add_zero, if_pos hroom]

end Loops

section Lines

variable {line : List UInt8}

/-- A line of spaces is an empty command. -/
theorem parseLine_of_blank (hdrop : line.dropWhile isSpace = []) :
    parseLine line = some ⟨[], 0, []⟩ := by
  have hlen := length_takeWhile_add_dropWhile isSpace line
  rw [hdrop, List.length_nil, Nat.add_zero] at hlen
  have hword : parseWord line.length [0] line.length = some [] := by
    simp [parseWord, wordLoop, mallocBytes]
  simp only [parseLine, skipLeading_eq, hdrop, hlen, Nat.zero_add, List.nil_append,
    Option.bind_eq_bind, Option.bind_some, hword]
  simp [countArgs, parseArgs]

theorem le_mallocBytes_iff (k : ℕ) : k ≤ mallocBytes (16 * k) / 16 ↔ k < 2 ^ 28 := by
  unfold mallocBytes
  omega

theorem parseLine_of_word {c : UInt8} {l : List UInt8} (hplain : Plain line)
    (hdrop : line.dropWhile isSpace = c :: l) (hn : line.length + 1 < 2 ^ 32) :
    parseLine line =
      let args := words ((c :: l).dropWhile notSpace)
      if args.length < 2 ^ 28 then some ⟨(c :: l).takeWhile notSpace, args.length, args⟩ else none := by
  have hlen := length_takeWhile_add_dropWhile isSpace line
  have hlen' := length_takeWhile_add_dropWhile notSpace (c :: l)
  rw [hdrop] at hlen
  have hplain' : Plain (c :: l) := hplain.dropWhile hdrop
  have hplain'' : Plain ((c :: l).dropWhile notSpace) := hplain'.dropWhile rfl
  simp only [parseLine, skipLeading_eq, hdrop, Option.bind_eq_bind, Option.bind_some, Nat.zero_add]
  rw [parseWord_eq hplain' (by omega) hn]
  simp only [Option.bind_some]
  rw [drop_takeWhile, countArgs_eq (by omega) (by omega)]
  simp only [Option.bind_some]
  rw [parseArgs_eq hplain'' hn (by omega) (by omega) (by omega) (Nat.zero_le _), Nat.zero_add]
  simp only [le_mallocBytes_iff]
  split <;> rfl

theorem parseLine_of_long {c : UInt8} {l : List UInt8} (hplain : Plain line)
    (hdrop : line.dropWhile isSpace = c :: l) (hc : c ≠ space) (hn : line.length + 1 = 2 ^ 32) :
    parseLine line = none := by
  have hlen := length_takeWhile_add_dropWhile isSpace line
  rw [hdrop] at hlen
  have hplain' : Plain (c :: l) := hplain.dropWhile hdrop
  simp only [parseLine, skipLeading_eq, hdrop, Option.bind_eq_bind, Option.bind_some, Nat.zero_add]
  rw [parseWord_of_full hplain' hc (by omega) hn]
  rfl

end Lines

end BrickOS.Userland
