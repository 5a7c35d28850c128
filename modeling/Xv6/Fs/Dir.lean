import Xv6.Fs.Files

/-!
# Fs — directories and paths

The directory layer of `fs.c`: `dirlookup`, `dirlink` and `namex`, on the entries of a directory's
bytes (`entry`).  A name in an entry ends at its first NUL (`cstr`).  Paths are C strings, as the
bytes in front of the NUL.
-/

namespace Xv6.Fs
open Lib Lib.Prog

/-- `DIRSIZ`. -/
def dirsiz : Nat := 14

/-- `sizeof(struct dirent)`. -/
def direntSize : Nat := 16

/-- `ROOTINO`. -/
def rootino : Nat := 1

/-- `"."`. -/
def dot : List UInt8 := [46]

/-- `".."`. -/
def dotdot : List UInt8 := [46, 46]

/-- The C string at the start of these bytes. -/
def cstr (bs : List UInt8) : List UInt8 := bs.takeWhile (· ≠ 0)

@[ext]
structure Dirent where
  inum : Nat
  name : List UInt8
  deriving DecidableEq, Repr

/-- The entry in these 16 bytes. -/
def Dirent.ofBytes (bs : List UInt8) : Dirent := ⟨field bs 0 2, cstr ((bs.drop 2).take dirsiz)⟩

/-- The 16 bytes of an entry, with the name as `strncpy` pads it. -/
def Dirent.bytes (de : Dirent) : List UInt8 :=
  bytesLE 2 de.inum ++ (de.name.take dirsiz ++ List.replicate (dirsiz - de.name.length) 0)

/-- `readi` of the entry at `off`. -/
def readDirent (dp : Slot) (off : Nat) (why : Stop) : FsM Dirent := do
  let r ← readi dp off direntSize
  match r with
  | none => stop why
  | some bs => if bs.length = direntSize then pure (.ofBytes bs) else stop why

/-- `dirlookup`'s loop, for `n` more entries: the inode number and the offset of the entry. -/
def lookupLoop (dp : Slot) (name : List UInt8) : (n off : Nat) → FsM (Option (Nat × Nat))
  | 0, _ => pure none
  | n + 1, off => do
      let de ← readDirent dp off .dirlinkRead
      if de.inum ≠ 0 ∧ name = de.name then pure (some (de.inum, off))
      else lookupLoop dp name n (off + direntSize)

/-- How many rounds `for(off = first; off < size; off += sizeof(de))` makes. -/
def rounds (first size : Nat) : Nat := (size - first + direntSize - 1) / direntSize

/-- The inode of an entry, and the offset of the entry. -/
def dirlookup (dp : Slot) (name : List UInt8) : FsM (Option (Slot × Nat)) := do
  let i ← inode dp
  if i.copy.type ≠ tDir then stop .notDir
  else do
    let r ← lookupLoop dp name (rounds 0 i.copy.size.toNat) 0
    match r with
    | none => pure none
    | some (inum, off) => do
        let ip ← iget inum
        pure (some (ip, off))

/-- `dirlink`'s loop, for `n` more entries: the offset of the first empty one, or the end. -/
def emptyLoop (dp : Slot) : (n off : Nat) → FsM Nat
  | 0, off => pure off
  | n + 1, off => do
      let de ← readDirent dp off .dirlinkRead
      if de.inum = 0 then pure off else emptyLoop dp n (off + direntSize)

/-- `dirlink`: whether it wrote the entry. -/
def dirlink (dp : Slot) (name : List UInt8) (inum : Nat) : FsM Bool := do
  let r ← dirlookup dp name
  match r with
  | some (ip, _) => do
      iput ip
      pure false
  | none => do
      let i ← inode dp
      let off ← emptyLoop dp (rounds 0 i.copy.size.toNat) 0
      let r ← writei dp off (Dirent.bytes ⟨inum, name⟩)
      if r = some direntSize then pure true else stop .dirlink

/-- `skipelem`: the next path element and the path after it. -/
def skipelem (path : List UInt8) : Option (List UInt8 × List UInt8) :=
  match path.dropWhile (· = 47) with
  | [] => none
  | path => some ((path.takeWhile (· ≠ 47)).take dirsiz,
      (path.dropWhile (· ≠ 47)).dropWhile (· = 47))

theorem skipelem_lt {path name rest : List UInt8} (h : skipelem path = some (name, rest)) :
    rest.length < path.length := by
  unfold skipelem at h
  have hdrop := (List.dropWhile_suffix (l := path) (· = 47)).length_le
  split at h
  · cases h
  · rename_i p hne
    cases h
    cases hp : path.dropWhile (· = 47) with
    | nil => exact absurd hp hne
    | cons c p' =>
        have hc : c ≠ 47 := by
          have := List.head?_dropWhile_not (· = (47 : UInt8)) path
          rw [hp] at this
          simpa using this
        have h1 := (List.dropWhile_suffix (l := (c :: p').dropWhile (· ≠ 47)) (· = 47)).length_le
        have h2 : ((c :: p').dropWhile (· ≠ 47)).length ≤ p'.length := by
          rw [List.dropWhile_cons_of_pos (by simpa using hc)]
          exact (List.dropWhile_suffix _).length_le
        rw [hp] at hdrop
        simp only [List.length_cons] at hdrop
        omega

/-- `namex`'s loop: `ip` and the path from there.  With `parent` set it stops one element early, and
gives that element. -/
def namexLoop (parent : Bool) (ip : Slot) (path : List UInt8) :
    FsM (Option (Slot × List UInt8)) :=
  match _h : skipelem path with
  | none =>
      if parent then do
        iput ip
        pure none
      else pure (some (ip, []))
  | some (name, rest) => do
      ilock ip
      let i ← inode ip
      if i.copy.type ≠ tDir then do
        iunlockput ip
        pure none
      else if parent ∧ rest = [] then do
        iunlock ip
        pure (some (ip, name))
      else do
        let r ← dirlookup ip name
        match r with
        | none => do
            iunlockput ip
            pure none
        | some (next, _) => do
            iunlockput ip
            namexLoop parent next rest
  termination_by path.length
  decreasing_by exact skipelem_lt ‹_›

/-- `namex`, from the root or from `cwd`. -/
def namex (cwd : Slot) (parent : Bool) (path : List UInt8) : FsM (Option (Slot × List UInt8)) := do
  let ip ← if path.head? = some 47 then iget rootino else idup cwd
  namexLoop parent ip path

def namei (cwd : Slot) (path : List UInt8) : FsM (Option Slot) := do
  let r ← namex cwd false path
  pure (r.map Prod.fst)

/-- The directory of the last element, and that element. -/
def nameiparent (cwd : Slot) (path : List UInt8) : FsM (Option (Slot × List UInt8)) :=
  namex cwd true path

/-- `isdirempty`'s loop. -/
def isdiremptyLoop (dp : Slot) : (n off : Nat) → FsM Bool
  | 0, _ => pure true
  | n + 1, off => do
      let de ← readDirent dp off .isdirempty
      if de.inum ≠ 0 then pure false else isdiremptyLoop dp n (off + direntSize)

/-- Is the directory empty except for `.` and `..`? -/
def isdirempty (dp : Slot) : FsM Bool := do
  let i ← inode dp
  isdiremptyLoop dp (rounds (2 * direntSize) i.copy.size.toNat) (2 * direntSize)

end Xv6.Fs
