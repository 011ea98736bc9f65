import BrickOS.Filesystem.Handles
import Mathlib.Data.List.TakeWhile

/-! Paths. A path is followed component by component through the table of names, in which the
root directory is listed as its own child `root`. -/
namespace BrickOS.Filesystem
open BrickOS.Lib

def pathComponents (path : List UInt8) : List (List UInt8) :=
  let names := path.splitOn 47
  if names.getLast? = some [] then names.dropLast else names

def pathUpTo (path : List UInt8) (k : ℕ) : List UInt8 :=
  ((pathComponents path).take k).flatMap fun name => name ++ [47]

def dotDot : List UInt8 := [46, 46]

def rootName : List UInt8 := [114, 111, 111, 116]

def rootPair : InodeNamePair := ⟨fsRootDirId, fsRootDirId, rootName⟩

/-- The inodes and the table of names belong together: every inode has one entry, which lies in a
directory. The root's own entry is the first. -/
structure Fs.NameTable (fs : Fs) : Prop where
  rootFirst : fs.inodeNamePairs.head? = some rootPair
  nodup : (fs.inodeNamePairs.map InodeNamePair.id).Nodup
  live : ∀ p ∈ fs.inodeNamePairs, ∃ n, fs.getInodeById p.id = some n
  named : ∀ n ∈ fs.inodes, n.id ∈ fs.inodeNamePairs.map InodeNamePair.id
  parent : ∀ p ∈ fs.inodeNamePairs, ∃ d, fs.getInodeById p.parentId = some d ∧
    Kernel.isDirectory d = true
  bytes : ∀ p ∈ fs.inodeNamePairs, 0 ∉ p.name

/-- The table of names describes a tree of directories: apart from the root's own entry no two
entries of a directory have the same name. -/
structure Fs.Tree (fs : Fs) : Prop extends fs.NameTable where
  distinct : ∀ p ∈ fs.inodeNamePairs, ∀ q ∈ fs.inodeNamePairs, p ≠ rootPair → q ≠ rootPair →
    p.parentId = q.parentId → p.name = q.name → p = q

def Fs.entryNamed (fs : Fs) (dirId : ℕ) (name : List UInt8) : Option InodeNamePair :=
  fs.inodeNamePairs.find? fun p =>
    decide (p ≠ rootPair) && decide (p.parentId = dirId) && decide (p.name = name)

def Fs.parentOf (fs : Fs) (n : Inode) : Option Inode :=
  (Keyed.lookup InodeNamePair.id fs.inodeNamePairs n.id).bind fun p => fs.getInodeById p.parentId

/-- Where a component leads from an inode: to the parent, to the entry of that name, or from the
root by its own name to itself. -/
def Fs.follow (fs : Fs) (n : Inode) (name : List UInt8) : Option Inode :=
  if name = dotDot then fs.parentOf n
  else if Kernel.isDirectory n = false then none
  else match fs.entryNamed n.id name with
    | some p => fs.getInodeById p.id
    | none => if n.id = fsRootDirId ∧ name = rootName then some n else none

def Fs.resolve (fs : Fs) : Inode → List (List UInt8) → Option Inode
  | n, [] => some n
  | n, name :: names => (fs.follow n name).bind fun m => fs.resolve m names

def Fs.Shadowed (fs : Fs) (n : Inode) (name : List UInt8) : Prop :=
  n.id = fsRootDirId ∧ name = rootName ∧ (fs.entryNamed fsRootDirId rootName).isSome = true

/-- No component on the way is too long for `name_buffer`, and none is shadowed. -/
def Fs.Followed (fs : Fs) : Inode → List (List UInt8) → Prop
  | _, [] => True
  | n, name :: names => name.length ≤ 256 ∧ ¬ fs.Shadowed n name ∧
      ∀ m, fs.follow n name = some m → fs.Followed m names

/-! The components of a path. -/

theorem pathComponents_nil : pathComponents [] = [] := rfl

theorem pathComponents_append_cons (xs ys : List UInt8) :
    pathComponents (xs ++ 47 :: ys) = xs.splitOn 47 ++ pathComponents ys := by
  have hsplit : (xs ++ 47 :: ys).splitOn 47 = xs.splitOn 47 ++ ys.splitOn 47 :=
    List.splitOnP_append_cons xs ys rfl
  have hne : ys.splitOn 47 ≠ [] := List.splitOnP_ne_nil _ _
  unfold pathComponents
  dsimp only
  rw [hsplit, List.getLast?_append_of_ne_nil _ hne, List.dropLast_append_of_ne_nil hne]
  split_ifs <;> rfl

theorem splitOn_of_not_mem {name : List UInt8} (h : 47 ∉ name) : name.splitOn 47 = [name] := by
  apply List.splitOnP_eq_singleton
  intro x hx
  have hne : x ≠ 47 := fun heq => h (heq ▸ hx)
  simpa using hne

theorem pathComponents_name_cons {name : List UInt8} (h : 47 ∉ name) (rest : List UInt8) :
    pathComponents (name ++ 47 :: rest) = name :: pathComponents rest := by
  rw [pathComponents_append_cons, splitOn_of_not_mem h]
  rfl

theorem pathComponents_name {name : List UInt8} (h : 47 ∉ name) (hne : name ≠ []) :
    pathComponents name = [name] := by
  unfold pathComponents
  rw [splitOn_of_not_mem h]
  simp [hne]

/-- A path starts with its first component, which ends at a separator or at the end. -/
theorem path_cases (path : List UInt8) :
    47 ∉ path.takeWhile (· != 47) ∧
    ((path = path.takeWhile (· != 47) ∧ path.drop ((path.takeWhile (· != 47)).length + 1) = []) ∨
      path = path.takeWhile (· != 47) ++ 47 ::
        path.drop ((path.takeWhile (· != 47)).length + 1)) := by
  have hnot : 47 ∉ path.takeWhile (· != 47) := fun hmem => by
    simpa using List.mem_takeWhile_imp hmem
  refine ⟨hnot, ?_⟩
  have hsplit := List.takeWhile_append_dropWhile (p := (· != 47)) (l := path)
  generalize hname : path.takeWhile (· != 47) = name at hsplit hnot ⊢
  cases hd : path.dropWhile (· != 47) with
  | nil =>
    rw [hd, List.append_nil] at hsplit
    refine Or.inl ⟨hsplit.symm, ?_⟩
    rw [hsplit]
    exact List.drop_eq_nil_of_le (Nat.le_succ _)
  | cons b rest =>
    have hb : b = 47 := by
      have hhead := List.head?_dropWhile_not (· != 47) path
      rw [hd] at hhead
      simpa using hhead
    subst hb
    rw [hd] at hsplit
    refine Or.inr ?_
    rw [← hsplit, List.drop_append]
    simp

def walkNames (fs : Fs) : Inode → List (List UInt8) → Option (Option Inode)
  | n, [] => some (some n)
  | n, name :: names =>
    if 256 < name.length then none
    else match walkStep fs n name with
      | none => some none
      | some m => walkNames fs m names
where
  /-- One turn of the loop. -/
  walkStep (fs : Fs) (n : Inode) (name : List UInt8) : Option Inode :=
    if name = dotDot then fs.parentOf n
    else (getInodeIdByName fs n.id name).bind fs.getInodeById

section walk
variable {fs : Fs} {n m : Inode} {name : List UInt8} {names : List (List UInt8)}

theorem Fs.mem_of_getInodeById {id : ℕ} (h : fs.getInodeById id = some n) : n ∈ fs.inodes :=
  Keyed.mem_of_lookup h

theorem Fs.NameTable.exists_parent (ht : fs.NameTable) (hn : n ∈ fs.inodes) :
    ∃ d, fs.parentOf n = some d ∧ getParentInode fs n = some (some d) := by
  obtain ⟨p, hp, hid⟩ := List.mem_map.mp (ht.named n hn)
  have hlookup : Keyed.lookup InodeNamePair.id fs.inodeNamePairs n.id = some p :=
    hid ▸ Keyed.lookup_of_mem ht.nodup hp
  obtain ⟨d, hd, -⟩ := ht.parent p hp
  refine ⟨d, ?_, ?_⟩
  · rw [Fs.parentOf, hlookup]
    exact hd
  · rw [getParentInode, hlookup, ← hd]
    rfl

theorem walkStep_mem (h : walkNames.walkStep fs n name = some m) : m ∈ fs.inodes := by
  unfold walkNames.walkStep at h
  split_ifs at h
  · obtain ⟨p, -, hm⟩ := Option.bind_eq_some_iff.mp h
    exact Fs.mem_of_getInodeById hm
  · obtain ⟨id, -, hm⟩ := Option.bind_eq_some_iff.mp h
    exact Fs.mem_of_getInodeById hm

theorem walkPath_cons (ht : fs.NameTable) (hn : n ∈ fs.inodes) {path : List UInt8} (hne : path ≠ [])
    (k : ℕ) : walkPath fs (k + 1) path (some n) =
      if 256 < (path.takeWhile (· != 47)).length then none
      else match walkNames.walkStep fs n (path.takeWhile (· != 47)) with
        | none => some none
        | some m => walkPath fs k (path.drop ((path.takeWhile (· != 47)).length + 1)) (some m) := by
  have hempty : path.isEmpty = false := by simpa using hne
  obtain ⟨d, hparent, hget⟩ := ht.exists_parent hn
  rw [walkPath]
  dsimp only
  rw [hempty, if_neg Bool.false_ne_true, Option.bind_some]
  unfold walkNames.walkStep dotDot
  split_ifs
  · rfl
  · rw [hget, hparent]
    rfl
  · rfl

theorem walkPath_eq (ht : fs.NameTable) (hn : n ∈ fs.inodes) (k : ℕ) (path : List UInt8)
    (hk : path.length ≤ k) :
    walkPath fs k path (some n) = walkNames fs n (pathComponents path) := by
  induction k generalizing path n with
  | zero =>
    obtain rfl := List.eq_nil_of_length_eq_zero (Nat.le_zero.mp hk)
    rfl
  | succ k ih =>
    by_cases hne : path = []
    · subst hne
      rfl
    obtain ⟨hnot, hpath⟩ := path_cases path
    rw [walkPath_cons ht hn hne]
    have hrest : pathComponents path = path.takeWhile (· != 47) ::
        pathComponents (path.drop ((path.takeWhile (· != 47)).length + 1)) := by
      rcases hpath with ⟨heq, hnil⟩ | heq
      · rw [hnil, pathComponents_nil, ← heq, pathComponents_name (heq ▸ hnot) hne]
      · exact (congrArg pathComponents heq).trans (pathComponents_name_cons hnot _)
    rw [hrest, walkNames]
    have hshort : (path.drop ((path.takeWhile (· != 47)).length + 1)).length ≤ k := by
      rw [List.length_drop]
      omega
    split_ifs
    · rfl
    · cases hstep : walkNames.walkStep fs n (path.takeWhile (· != 47)) with
      | none => rfl
      | some m => exact ih (walkStep_mem hstep) _ hshort

theorem getInodeByFilePath_eq (ht : fs.NameTable) {id : ℕ} (hn : fs.getInodeById id = some n)
    (path : List UInt8) :
    getInodeByFilePath fs path id = walkNames fs n (pathComponents path) := by
  rw [getInodeByFilePath, hn]
  exact walkPath_eq ht (Fs.mem_of_getInodeById hn) _ path le_rfl

/-! The loop against the components' meaning. -/

theorem cString_of_not_mem {l : List UInt8} (h : 0 ∉ l) : cString l = l := by
  refine List.takeWhile_eq_self_iff.mpr fun x hx => ?_
  have hne : x ≠ 0 := fun heq => h (heq ▸ hx)
  simpa using hne

theorem strneq_iff {a b : List UInt8} (ha : 0 ∉ a) (hb : 0 ∉ b) :
    strneq a b b.length a.length = true ↔ a = b := by
  unfold strneq
  rw [cString_of_not_mem ha, cString_of_not_mem hb, List.take_of_length_le (le_max_right _ _),
    List.take_of_length_le (le_max_left _ _)]
  exact beq_iff_eq

def Fs.firstNamed (fs : Fs) (dirId : ℕ) (name : List UInt8) : Option InodeNamePair :=
  fs.inodeNamePairs.find? fun p => decide (p.parentId = dirId) && decide (p.name = name)

theorem Fs.NameTable.getInodeIdByName_eq (ht : fs.NameTable) (hname : 0 ∉ name) (dirId : ℕ) :
    getInodeIdByName fs dirId name = (fs.firstNamed dirId name).map InodeNamePair.id := by
  rw [getInodeIdByName, Fs.firstNamed, ← List.head?_filter, ← List.head?_filter]
  congr 2
  refine List.filter_congr fun p hp => ?_
  rw [Bool.eq_iff_iff]
  simp [strneq_iff (ht.bytes p hp) hname]

theorem Fs.NameTable.firstNamed_eq (ht : fs.NameTable) (dirId : ℕ) (name : List UInt8) :
    fs.firstNamed dirId name =
      if dirId = fsRootDirId ∧ name = rootName then some rootPair
      else fs.entryNamed dirId name := by
  obtain ⟨pairs, hpairs⟩ : ∃ pairs, fs.inodeNamePairs = rootPair :: pairs := by
    have hfirst := ht.rootFirst
    cases hl : fs.inodeNamePairs with
    | nil =>
      rw [hl] at hfirst
      cases hfirst
    | cons p pairs =>
      rw [hl] at hfirst
      exact ⟨pairs, by rw [Option.some.inj hfirst]⟩
  have hnodup := ht.nodup
  rw [hpairs, List.map_cons, List.nodup_cons] at hnodup
  rw [Fs.firstNamed, Fs.entryNamed, hpairs, List.find?_cons, List.find?_cons]
  by_cases hown : dirId = fsRootDirId ∧ name = rootName
  · obtain ⟨rfl, rfl⟩ := hown
    rfl
  have hno : (decide (rootPair.parentId = dirId) && decide (rootPair.name = name)) = false := by
    rw [Bool.and_eq_false_iff, decide_eq_false_iff_not, decide_eq_false_iff_not,
      ← not_and_or]
    exact fun h => hown ⟨h.1.symm, h.2.symm⟩
  rw [if_neg hown, hno, ← List.head?_filter]
  -- no other entry is the root's, so both searches go through the rest in the same way
  have hrest : (pairs.filter fun p => decide (p.parentId = dirId) && decide (p.name = name)) =
      pairs.filter fun p =>
        decide (p ≠ rootPair) && decide (p.parentId = dirId) && decide (p.name = name) := by
    refine List.filter_congr fun p hp => ?_
    have hne : p ≠ rootPair := by
      rintro rfl
      exact hnodup.1 (List.mem_map_of_mem hp)
    simp [hne]
  rw [hrest, List.head?_filter]
  simp

theorem Fs.NameTable.entryNamed_file (ht : fs.NameTable) (hn : fs.getInodeById n.id = some n)
    (hfile : Kernel.isDirectory n = false) : fs.entryNamed n.id name = none := by
  refine List.find?_eq_none.mpr fun p hp hmatch => ?_
  obtain ⟨d, hd, hdir⟩ := ht.parent p hp
  have hid : p.parentId = n.id := by
    simp only [Bool.and_eq_true, decide_eq_true_eq] at hmatch
    exact hmatch.1.2
  rw [hid, hn] at hd
  obtain rfl := Option.some.inj hd
  rw [hfile] at hdir
  cases hdir

theorem Fs.NameTable.root_directory (ht : fs.NameTable) :
    ∃ r, fs.getInodeById fsRootDirId = some r ∧ Kernel.isDirectory r = true :=
  ht.parent rootPair (List.mem_of_head? ht.rootFirst)

theorem Fs.NameTable.walkStep_iff (ht : fs.NameTable) (hn : fs.getInodeById n.id = some n)
    (hname : 0 ∉ name) : walkNames.walkStep fs n name = fs.follow n name ↔ ¬ fs.Shadowed n name := by
  unfold walkNames.walkStep Fs.follow Fs.Shadowed
  by_cases hdots : name = dotDot
  · subst hdots
    simp only [if_true, true_iff]
    exact fun h => absurd h.2.1 (by decide)
  rw [if_neg hdots, if_neg hdots, ht.getInodeIdByName_eq hname, ht.firstNamed_eq]
  by_cases hown : n.id = fsRootDirId ∧ name = rootName
  · obtain ⟨hid, rfl⟩ := hown
    obtain ⟨r, hr, hdir⟩ := ht.root_directory
    obtain rfl : r = n := Option.some.inj (hr.symm.trans (hid ▸ hn))
    have hget : fs.getInodeById rootPair.id = some r := hr
    rw [if_pos ⟨hid, rfl⟩, if_neg (by simp [hdir]), hid, Option.map_some, Option.bind_some, hget]
    cases hentry : fs.entryNamed fsRootDirId rootName with
    | none => simp
    | some p =>
      have hp := List.find?_some hentry
      have hmem := List.mem_of_find?_eq_some hentry
      simp only [Bool.and_eq_true, decide_eq_true_eq] at hp
      simp only [Option.isSome_some, and_self, not_true_eq_false, iff_false]
      intro heq
      have hpid : r.id = p.id := Fs.id_of_getInodeById heq.symm
      have hroot := List.mem_of_head? ht.rootFirst
      exact hp.1.1 (List.inj_on_of_nodup_map ht.nodup hmem hroot (hpid.symm.trans hid))
  · rw [if_neg hown]
    refine iff_of_true ?_ fun h => hown ⟨h.1, h.2.1⟩
    by_cases hfile : Kernel.isDirectory n = false
    · rw [if_pos hfile, ht.entryNamed_file hn hfile]
      rfl
    · rw [if_neg hfile]
      cases fs.entryNamed n.id name with
      | none => exact (if_neg hown).symm
      | some p => rfl

theorem Fs.follow_live (hn : fs.getInodeById n.id = some n) (h : fs.follow n name = some m) :
    fs.getInodeById m.id = some m := by
  have hlive : ∀ id, fs.getInodeById id = some m → fs.getInodeById m.id = some m :=
    fun id hid => (Fs.id_of_getInodeById hid).symm ▸ hid
  unfold Fs.follow at h
  by_cases hdots : name = dotDot
  · rw [if_pos hdots] at h
    obtain ⟨p, -, hm⟩ := Option.bind_eq_some_iff.mp h
    exact hlive _ hm
  rw [if_neg hdots] at h
  by_cases hfile : Kernel.isDirectory n = false
  · rw [if_pos hfile] at h
    cases h
  rw [if_neg hfile] at h
  cases hentry : fs.entryNamed n.id name with
  | none =>
    simp only [hentry] at h
    split_ifs at h
    obtain rfl := Option.some.inj h
    exact hn
  | some p =>
    simp only [hentry] at h
    exact hlive _ h

theorem Fs.resolve_cons : fs.resolve n (name :: names) =
    (fs.follow n name).bind fun m => fs.resolve m names := rfl

theorem Fs.Followed.of_length_le (hroot : fs.entryNamed fsRootDirId rootName = none)
    (hlen : ∀ name ∈ names, name.length ≤ 256) : fs.Followed n names := by
  induction names generalizing n with
  | nil => trivial
  | cons name names ih =>
    refine ⟨hlen name List.mem_cons_self, fun h => ?_, fun m _ =>
      ih fun c hc => hlen c (List.mem_cons_of_mem _ hc)⟩
    have hsome := h.2.2
    rw [hroot] at hsome
    cases hsome

theorem Fs.NameTable.walkNames_iff (ht : fs.NameTable) (hn : fs.getInodeById n.id = some n)
    (hbytes : ∀ name ∈ names, 0 ∉ name) :
    (∀ k, walkNames fs n (names.take k) = some (fs.resolve n (names.take k))) ↔
      fs.Followed n names := by
  induction names generalizing n with
  | nil =>
    simp only [List.take_nil, Fs.Followed, iff_true]
    exact fun _ => rfl
  | cons name names ih =>
    have hstep := ht.walkStep_iff hn (hbytes name List.mem_cons_self)
    have hrest : ∀ c ∈ names, 0 ∉ c := fun c hc => hbytes c (List.mem_cons_of_mem _ hc)
    constructor
    · intro h
      have hone := h 1
      rw [List.take_succ_cons, List.take_zero, walkNames, Fs.resolve_cons] at hone
      have hlen : name.length ≤ 256 := by
        by_contra hlong
        rw [if_pos (by omega)] at hone
        cases hone
      rw [if_neg (by omega)] at hone
      have hfollow : walkNames.walkStep fs n name = fs.follow n name := by
        cases hw : walkNames.walkStep fs n name <;> cases hf : fs.follow n name <;>
          simp_all [walkNames, Fs.resolve]
      refine ⟨hlen, hstep.mp hfollow, fun m hm => (ih (Fs.follow_live hn hm) hrest).mp fun k => ?_⟩
      have hk := h (k + 1)
      rw [List.take_succ_cons, walkNames, if_neg (by omega), Fs.resolve_cons, hfollow, hm] at hk
      exact hk
    · rintro ⟨hlen, hshadow, hnext⟩ k
      cases k with
      | zero => rfl
      | succ k =>
        rw [List.take_succ_cons, walkNames, if_neg (by omega), Fs.resolve_cons,
          hstep.mpr hshadow]
        cases hm : fs.follow n name with
        | none => rfl
        | some m => exact (ih (Fs.follow_live hn hm) hrest).mpr (hnext m hm) k

theorem pathComponents_flatMap (hnot : ∀ name ∈ names, 47 ∉ name) :
    pathComponents (names.flatMap fun name => name ++ [47]) = names := by
  induction names with
  | nil => rfl
  | cons name names ih =>
    rw [List.flatMap_cons, List.append_assoc, List.singleton_append,
      pathComponents_name_cons (hnot name List.mem_cons_self),
      ih fun c hc => hnot c (List.mem_cons_of_mem _ hc)]

theorem mem_pathComponents {path : List UInt8} (h : name ∈ pathComponents path) :
    47 ∉ name ∧ ∀ b ∈ name, b ∈ path := by
  generalize hk : path.length = k
  induction k using Nat.strong_induction_on generalizing path with
  | _ k ih =>
    by_cases hne : path = []
    · subst hne
      cases h
    obtain ⟨hnot, hpath⟩ := path_cases path
    generalize path.takeWhile (· != 47) = first at hnot hpath
    rcases hpath with ⟨rfl, -⟩ | hpath
    · rw [pathComponents_name hnot hne, List.mem_singleton] at h
      subst h
      exact ⟨hnot, fun b hb => hb⟩
    · generalize path.drop (first.length + 1) = rest at hpath
      subst hpath
      rw [pathComponents_name_cons hnot, List.mem_cons] at h
      rcases h with rfl | h
      · exact ⟨hnot, fun b hb => List.mem_append_left _ hb⟩
      · have hlen : rest.length < k := by
          rw [List.length_append, List.length_cons] at hk
          omega
        obtain ⟨h₁, h₂⟩ := ih _ hlen h rfl
        exact ⟨h₁, fun b hb => List.mem_append_right _ (List.mem_cons_of_mem _ (h₂ b hb))⟩

theorem pathComponents_pathUpTo (path : List UInt8) (k : ℕ) :
    pathComponents (pathUpTo path k) = (pathComponents path).take k :=
  pathComponents_flatMap fun _ hname => (mem_pathComponents (List.mem_of_mem_take hname)).1

end walk

theorem oneFileFs_tree : oneFileFs.Tree where
  rootFirst := rfl
  nodup := by decide
  live p hp := by
    have hsome : ∀ p ∈ oneFileFs.inodeNamePairs, (oneFileFs.getInodeById p.id).isSome = true := by
      decide
    exact Option.isSome_iff_exists.mp (hsome p hp)
  named n hn := by
    have hids : ∀ id ∈ oneFileFs.inodes.map Inode.id,
        id ∈ oneFileFs.inodeNamePairs.map InodeNamePair.id := by decide
    exact hids n.id (List.mem_map_of_mem hn)
  parent p hp := by
    have hdirs : ∀ p ∈ oneFileFs.inodeNamePairs,
        (oneFileFs.getInodeById p.parentId).any Kernel.isDirectory = true := by decide
    have hp := hdirs p hp
    cases hd : oneFileFs.getInodeById p.parentId with
    | none =>
      rw [hd] at hp
      cases hp
    | some d =>
      rw [hd] at hp
      exact ⟨d, rfl, hp⟩
  bytes := by decide
  distinct := by decide

end BrickOS.Filesystem
