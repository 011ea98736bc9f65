import BrickOS.Filesystem.Paths

/-! The full path of the current directory, and what it resolves to from there. -/
namespace BrickOS.Filesystem
open BrickOS.Lib

def rootOnlyFs : Fs where
  storage := ⟨oneSectorHeader, ⟨fun _ => Block.zero, Block.zero, 0⟩⟩
  inodes := [⟨fsRootDirId, 0, fsTypeDir, 0, privStd, 0, 0, fun _ => 0⟩]
  inodeNamePairs := [rootPair]
  virtDirNames := fun _ => []

def kernelInOne (fs : Fs) : Kernel where
  fs := fs
  virtEntryNames := fun _ => none
  processes := fun _ => some ⟨privStd, fun _ => none⟩
  threads := fun _ => some ⟨0, ⟨1, 0⟩⟩
  serial := fun _ => 0

def createIn (fs : Fs) (dirId : ℕ) (name : List UInt8) (type : ℕ) : Option Fs :=
  (fs.getInodeById dirId).bind fun dir =>
    (createFile fs dir name type 0 privStd).map Prod.fst

end BrickOS.Filesystem
