import Xv6.Fs.Alloc

/-!
# Fs — inodes

The inode cache, and the contents of inodes, of `fs.c`: from `ialloc` to `writei`.

Offsets and counts are `uint`s, as numbers below `2 ^ 32`; sums that may wrap are taken `u32`.
`readi` gives the bytes it moves to `dst`, and `none` for `-1`; `writei` gives how many it took
from `src`.
-/

namespace Xv6.Fs
open Lib Lib.Prog

def u32 (x : Nat) : Nat := x % 2 ^ 32

/-! ### The inode cache -/

def inode (ip : Slot) : FsM Inode := gets fun s => s.icache ip

def setInode (ip : Slot) (f : Inode → Inode) : FsM Unit :=
  modify fun s => { s with icache := Function.update s.icache ip (f (s.icache ip)) }

def setCopy (ip : Slot) (f : Dinode → Dinode) : FsM Unit :=
  setInode ip fun i => { i with copy := f i.copy }

/-- Copy a modified in-memory inode to disk. -/
def iupdate (ip : Slot) : FsM Unit := do
  let i ← inode ip
  let sb ← gets State.sb
  let bp ← bread (sb.iblock i.inum)
  logWrite (sb.iblock i.inum) (i.copy.toBlock bp (i.inum % ipb))

/-- Other values for fields of an inode, in memory and on the disk. -/
def storeFields (ip : Slot) (f : Dinode → Dinode) : FsM Unit := do
  setCopy ip f
  iupdate ip

/-- The entry that has the inode cached. -/
def cachedAt (icache : Slot → Inode) (inum : Nat) : Option Slot :=
  (List.finRange ninode).find? fun ip => decide (0 < (icache ip).ref ∧ (icache ip).inum = inum)

/-- The first empty entry. -/
def emptyAt (icache : Slot → Inode) : Option Slot :=
  (List.finRange ninode).find? fun ip => decide ((icache ip).ref = 0)

def iget (inum : Nat) : FsM Slot := do
  let icache ← gets State.icache
  match cachedAt icache inum with
  | some ip => do
      setInode ip fun i => { i with ref := i.ref + 1 }
      pure ip
  | none =>
      match emptyAt icache with
      | none => stop .iget
      | some ip => do
          setInode ip fun i => { i with inum := inum, ref := 1, busy := false, valid := false }
          pure ip

def idup (ip : Slot) : FsM Slot := do
  setInode ip fun i => { i with ref := i.ref + 1 }
  pure ip

/-- The inode of a new file: nothing but its type. -/
def Dinode.new (type : UInt16) : Dinode := ⟨type, 0, 0, 0, 0, fun _ => 0⟩

/-- The first free inode, from `inum` on. -/
def freeInode (sb : Superblock) (d : Disk) : Nat → Nat → Option Nat
  | 0, _ => none
  | rounds + 1, inum =>
      if inum < sb.ninodes then
        if (dinodeAt sb d inum).type = 0 then some inum else freeInode sb d rounds (inum + 1)
      else none

/-- Allocate a new inode with the given type. -/
def ialloc (type : UInt16) : FsM Slot := do
  let sb ← gets State.sb
  let disk ← gets State.disk
  match freeInode sb disk sb.ninodes 1 with
  | none => stop .ialloc
  | some inum => do
      let bp ← bread (sb.iblock inum)
      logWrite (sb.iblock inum) ((Dinode.new type).toBlock bp (inum % ipb))
      iget inum

def ilock (ip : Slot) : FsM Unit := do
  let i ← inode ip
  if i.ref < 1 then stop .ilock
  else if i.busy then stop .sleeps
  else
    setInode ip fun i => { i with busy := true }
    if i.valid then pure ()
    else
      let sb ← gets State.sb
      let bp ← bread (sb.iblock i.inum)
      let dip := Dinode.ofBlock bp (i.inum % ipb)
      setInode ip fun i => { i with copy := dip, valid := true }
      if dip.type = 0 then stop .noType else pure ()

def iunlock (ip : Slot) : FsM Unit := do
  let i ← inode ip
  if !i.busy || decide (i.ref < 1) then stop .iunlock
  else setInode ip fun i => { i with busy := false }

/-! ### Inode content -/

/-- `if((addr = ip->addrs[k]) == 0) ip->addrs[k] = addr = balloc(ip->dev)`. -/
def addrOf (ip : Slot) (k : Nat) : FsM Nat := do
  let i ← inode ip
  if i.copy.addr k = 0 then
    let b ← balloc
    setCopy ip fun c => c.setAddr k b
    pure b
  else pure (i.copy.addr k)

/-- The same for entry `j` of the indirect block, at `addr`. -/
def entryOf (addr j : Nat) : FsM Nat := do
  let a ← bread addr
  if a.read (4 * j) 4 = 0 then
    let b ← balloc
    -- the same buffer again, which is locked during `balloc`
    let a ← bread addr
    logWrite addr (a.write (4 * j) 4 b)
    pure b
  else pure (a.read (4 * j) 4)

/-- The disk block of block `bn` of the inode, allocated if there is none. -/
def bmap (ip : Slot) (bn : Nat) : FsM Nat :=
  if bn < ndirect then addrOf ip bn
  else if bn - ndirect < nindirect then do
    let addr ← addrOf ip ndirect
    entryOf addr (bn - ndirect)
  else stop .bmapRange

/-- `itrunc`'s loop over the direct blocks. -/
def itruncDirect (ip : Slot) : FsM Unit :=
  forEach (List.range ndirect) fun k => do
    let i ← inode ip
    if i.copy.addr k = 0 then pure ()
    else
      bfree (i.copy.addr k)
      setCopy ip fun c => c.setAddr k 0

/-- `itrunc`'s loop over the entries of the indirect block at `addr`. -/
def itruncEntries (addr : Nat) : FsM Unit :=
  forEach (List.range nindirect) fun j => do
    let a ← bread addr
    if a.read (4 * j) 4 = 0 then pure () else bfree (a.read (4 * j) 4)

def itruncIndirect (ip : Slot) : FsM Unit := do
  let i ← inode ip
  if i.copy.addr ndirect = 0 then pure ()
  else
    itruncEntries (i.copy.addr ndirect)
    bfree (i.copy.addr ndirect)
    setCopy ip fun c => c.setAddr ndirect 0

/-- Truncate inode (discard contents). -/
def itrunc (ip : Slot) : FsM Unit := do
  itruncDirect ip
  itruncIndirect ip
  setCopy ip fun c => { c with size := 0 }
  iupdate ip

/-- Drop a reference to an in-memory inode. -/
def iput (ip : Slot) : FsM Unit := do
  let i ← inode ip
  if i.ref = 1 ∧ i.valid ∧ i.copy.nlink = 0 then
    if i.busy then stop .iputBusy
    else
      setInode ip fun i => { i with busy := true }
      itrunc ip
      setCopy ip fun c => { c with type := 0 }
      iupdate ip
      setInode ip fun i => { i with busy := false, valid := false, ref := i.ref - 1 }
  else setInode ip fun i => { i with ref := i.ref - 1 }

def iunlockput (ip : Slot) : FsM Unit := do
  iunlock ip
  iput ip

/-! ### The console, the only device -/

/-- `consoleread`'s loop, for `n` more characters; `first` until it has one.  `^D` is the end of the
input, and is left there for the next call unless it comes first. -/
def consoleLoop : Nat → Bool → List UInt8 → Except Stop (List UInt8 × List UInt8)
  | 0, _, input => .ok ([], input)
  | _ + 1, _, [] => .error .sleeps
  | n + 1, first, c :: input =>
      if c = 4 then .ok ([], if first then input else c :: input)
      else if c = 10 then .ok ([c], input)
      else
        match consoleLoop n false input with
        | .ok (bytes, input) => .ok (c :: bytes, input)
        | .error e => .error e

/-- `consoleread`; a count that is negative as an `int` reads nothing. -/
def consoleread (ip : Slot) (n : Nat) : FsM (List UInt8) := do
  iunlock ip
  let input ← gets State.input
  match consoleLoop (if n < 2 ^ 31 then n else 0) true input with
  | .error e => stop e
  | .ok (bytes, input) => do
      modify fun s => { s with input := input }
      ilock ip
      pure bytes

def consolewrite (ip : Slot) : FsM Unit := do
  iunlock ip
  ilock ip

/-- `CONSOLE`, the major number of the one device in `devsw`. -/
def console : UInt16 := 1

/-! ### Reading and writing -/

/-- `m`: how many of `n` bytes from `off` on are in the first block. -/
def roundLen (off n : Nat) : Nat := min n (bsize - off % bsize)

theorem roundLen_pos (off : Nat) {n : Nat} (hn : n ≠ 0) : 0 < roundLen off n := by
  have : off % bsize < bsize := Nat.mod_lt _ (by decide)
  exact lt_min (Nat.pos_of_ne_zero hn) (by omega)

/-- `readi`'s loop: `n` more bytes, from `off`. -/
def readLoop (ip : Slot) (off n : Nat) : FsM (List UInt8) :=
  if n = 0 then pure []
  else do
    let b ← bmap ip (off / bsize)
    let bp ← bread b
    let rest ← readLoop ip (off + roundLen off n) (n - roundLen off n)
    pure (bp.slice (off % bsize) (roundLen off n) ++ rest)
  termination_by n
  decreasing_by
    rename_i hn
    have := roundLen_pos off hn
    omega

def readi (ip : Slot) (off n : Nat) : FsM (Option (List UInt8)) := do
  let i ← inode ip
  if i.copy.type = tDev then
    if i.copy.major = console then do
      let bytes ← consoleread ip n
      pure (some bytes)
    else pure none
  else
    let size := i.copy.size.toNat
    if off > size ∨ u32 (off + n) < off then pure none
    else do
      let bytes ← readLoop ip off (if u32 (off + n) > size then size - off else n)
      pure (some bytes)

/-- `writei`'s loop: the bytes `src` to `off`.  It gives the offset it ends at. -/
def writeLoop (ip : Slot) (off : Nat) (src : List UInt8) : FsM Nat :=
  if src.length = 0 then pure off
  else do
    let b ← bmap ip (off / bsize)
    let bp ← bread b
    logWrite b (bp.splice (off % bsize) (src.take (roundLen off src.length)))
    writeLoop ip (off + roundLen off src.length) (src.drop (roundLen off src.length))
  termination_by src.length
  decreasing_by
    rename_i hn
    have := roundLen_pos off hn
    rw [List.length_drop]
    omega

def writei (ip : Slot) (off : Nat) (src : List UInt8) : FsM (Option Nat) := do
  let i ← inode ip
  if i.copy.type = tDev then
    if i.copy.major = console then do
      consolewrite ip
      pure (some src.length)
    else pure none
  else if off > i.copy.size.toNat ∨ u32 (off + src.length) < off then pure none
  else if u32 (off + src.length) > maxfile * bsize then pure none
  else do
    let off ← writeLoop ip off src
    let i ← inode ip
    if 0 < src.length ∧ off > i.copy.size.toNat then
      setCopy ip fun c => { c with size := UInt32.ofNat off }
      iupdate ip
      pure (some src.length)
    else pure (some src.length)

end Xv6.Fs
