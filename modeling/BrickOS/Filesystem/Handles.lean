import BrickOS.Filesystem.Operations
import BrickOS.Lib.Run

/-! Processes with open files and threads with a current directory, over one filesystem. -/
namespace BrickOS.Filesystem
open BrickOS.Lib

def fsTypeFile : ℕ := 1

def privStd : ℕ := 2

def maxFds : ℕ := 512

structure InodeRef where
  id : ℕ
  serial : ℕ
deriving DecidableEq, Repr

/-- `generic_file_t`: a regular file, with a note of the inode it was opened on that the code does
not keep, or a device, a pipe or a virtual file. -/
inductive GenericFile where
  | regular (file : OpenFile) (opened : InodeRef)
  | other
deriving DecidableEq, Repr

structure Process where
  privLvl : ℕ
  fdTable : ℕ → Option GenericFile

structure Thread where
  ownerProc : ℕ
  activeDir : InodeRef

structure Kernel where
  fs : Fs
  /-- `entry_names` of the virtual directories, by their ids. -/
  virtEntryNames : ℕ → Option (List (List UInt8))
  processes : ℕ → Option Process
  threads : ℕ → Option Thread
  /-- How many inodes have been created with an id; tells them apart. -/
  serial : ℕ → ℕ

/-- `get_inode_id_by_name`, `none` for -1. -/
def getInodeIdByName (fs : Fs) (parentId : ℕ) (name : List UInt8) : Option ℕ :=
  (fs.inodeNamePairs.find? fun p =>
    p.parentId == parentId && strneq p.name name name.length p.name.length).map InodeNamePair.id

/-- `get_parent_inode`; the outer `none` for an inode without a name. -/
def getParentInode (fs : Fs) (child : Inode) : Option (Option Inode) :=
  (Keyed.lookup InodeNamePair.id fs.inodeNamePairs child.id).map fun p => fs.getInodeById p.parentId

/-- The loop of `get_inode_by_file_path`, for at most `k` names; the outer `none` where it uses a
null pointer or a name leaves `name_buffer`. -/
def walkPath (fs : Fs) : ℕ → List UInt8 → Option Inode → Option (Option Inode)
  | 0, _, inode => some inode
  | k + 1, path, inode =>
    if path.isEmpty then some inode
    else
      let name := path.takeWhile (· != 47)
      let rest := path.drop (name.length + 1)
      if name.length > 256 then none
      else inode.bind fun n =>
        if name = [46, 46] then (getParentInode fs n).bind (walkPath fs k rest)
        else match (getInodeIdByName fs n.id name).bind fs.getInodeById with
          | none => some none
          | some m => walkPath fs k rest (some m)

def getInodeByFilePath (fs : Fs) (path : List UInt8) (inodeId : ℕ) : Option (Option Inode) :=
  walkPath fs path.length path (fs.getInodeById inodeId)

namespace Kernel

def namesIn (k : Kernel) (dir : Inode) : Option (Storage × List (List UInt8)) :=
  if dir.type = fsTypeVirtDir then (k.virtEntryNames dir.id).map fun names => (k.fs.storage, names)
  else getAllNamesInDir k.fs dir

def withStorage (k : Kernel) (s : Storage) : Kernel := { k with fs := { k.fs with storage := s } }

end Kernel

/-- What a system call returns: failure, a number, the bytes read, one of the file errors, or what
a device, pipe or virtual file answers. -/
inductive Reply where
  | fail
  | special
  | value (n : ℕ)
  | data (bytes : List UInt8)
  | error (e : FileError)
deriving DecidableEq, Repr

namespace Kernel

def fileOf (k : Kernel) (tid fd : ℕ) : Option (ℕ × GenericFile) := do
  let t ← k.threads tid
  let p ← k.processes t.ownerProc
  if fd ≥ maxFds then none else (p.fdTable fd).map fun file => (t.ownerProc, file)

def isDirectory (inode : Inode) : Bool :=
  inode.type == fsTypeDir || inode.type == fsTypeVirtDir

end Kernel

end BrickOS.Filesystem
