import Xv6.Fs.Dir

/-!
# Mkfs — the program that makes an image

`mkfs.c`, as programs on its variables and the image file.  The machine it runs on stores integers as
`xshort` and `xint` do.  The files it is to copy are those of the host; the image file can always be
written.

`mkfs` has its own `ialloc` and `iappend`, and no free map: blocks are handed out in order, from
`freeblock`, and the map is written at the end.
-/

namespace Xv6.Mkfs
open Lib Lib.Prog Fs

/-! ### Disk layout -/

/-- `FSSIZE`. -/
def fssize : Nat := 1000

/-- `NINODES`. -/
def ninodes : Nat := 200

def nbitmap : Nat := fssize / (bsize * 8) + 1

def ninodeblocks : Nat := ninodes / ipb + 1

/-- `LOGSIZE`. -/
def nlog : Nat := 30

/-- Number of meta blocks (boot, sb, nlog, inode, bitmap). -/
def nmeta : Nat := 2 + nlog + ninodeblocks + nbitmap

/-- Number of data blocks. -/
def nblocks : Nat := fssize - nmeta

def sb : Superblock where
  size := fssize
  nblocks := nblocks
  ninodes := ninodes
  nlog := nlog
  logstart := 2
  inodestart := 2 + nlog
  bmapstart := 2 + nlog + ninodeblocks

/-- `memmove(buf, &sb, sizeof(sb))`. -/
def sbBlock : Block :=
  zeroBlock.splice 0 ([sb.size, sb.nblocks, sb.ninodes, sb.nlog, sb.logstart, sb.inodestart,
    sb.bmapstart].flatMap (bytesLE 4))

/-! ### The image file -/

structure Vars where
  img : Disk
  /-- how many sectors the image file has -/
  len : Nat
  freeinode : Nat
  freeblock : Nat

/-- Where `mkfs` stops without an image. -/
inductive Exit where
  /-- `assert(rootino == ROOTINO)` -/
  | rootino
  /-- `assert(index(argv[i], '/') == 0)` -/
  | slash
  /-- `perror(argv[i])` -/
  | open
  /-- `perror("read")` -/
  | read
  /-- `assert(fbn < MAXFILE)` -/
  | maxfile
  /-- `assert(used < BSIZE*8)` -/
  | used
  deriving DecidableEq, Repr

abbrev MkM := Prog Vars Exit

/-- The sector at `lseek(fsfd, sec * BSIZE, 0)`, where the product is a `uint`. -/
def sector (sec : Nat) : Nat := u32 (sec * bsize) / bsize

def wsect (sec : Nat) (buf : Block) : MkM Unit :=
  modify fun m => { m with
    img := Function.update m.img (sector sec) buf, len := max m.len (sector sec + 1) }

/-- `rsect`; there is nothing to read behind the end of the file. -/
def rsect (sec : Nat) : MkM Block := do
  let m ← gets id
  if sector sec < m.len then pure (m.img (sector sec)) else stop .read

/-! ### Inodes -/

def winode (inum : Nat) (ip : Dinode) : MkM Unit := do
  let buf ← rsect (sb.iblock inum)
  wsect (sb.iblock inum) (ip.toBlock buf (inum % ipb))

def rinode (inum : Nat) : MkM Dinode := do
  let buf ← rsect (sb.iblock inum)
  pure (Dinode.ofBlock buf (inum % ipb))

def ialloc (type : UInt16) : MkM Nat := do
  let inum ← gets Vars.freeinode
  modify fun m => { m with freeinode := m.freeinode + 1 }
  winode inum ⟨type, 0, 0, 1, 0, fun _ => 0⟩
  pure inum

/-- `balloc`'s loop: the bits of the first `used` blocks. -/
def bitmap (used : Nat) : Block := (List.range used).foldl Bytes.setBit zeroBlock

def balloc (used : Nat) : MkM Unit :=
  if used < bsize * 8 then wsect sb.bmapstart (bitmap used) else stop .used

/-! ### `iappend` -/

/-- `freeblock++`. -/
def newBlock : MkM Nat := do
  let b ← gets Vars.freeblock
  modify fun m => { m with freeblock := m.freeblock + 1 }
  pure b

/-- `if(xint(din.addrs[k]) == 0) din.addrs[k] = xint(freeblock++)`. -/
def addrFor (din : Dinode) (k : Nat) : MkM Dinode :=
  if din.addr k = 0 then do
    let b ← newBlock
    pure (din.setAddr k b)
  else pure din

/-- The same for entry `j` of the indirect block, at `addr`; it gives the entry. -/
def entryFor (addr j : Nat) : MkM Nat := do
  let indirect ← rsect addr
  if indirect.read (4 * j) 4 = 0 then do
    let b ← newBlock
    wsect addr (indirect.write (4 * j) 4 b)
    pure ((indirect.write (4 * j) 4 b).read (4 * j) 4)
  else pure (indirect.read (4 * j) 4)

/-- The block for block `fbn` of the inode, `x` in the source. -/
def blockFor (din : Dinode) (fbn : Nat) : MkM (Dinode × Nat) :=
  if fbn < ndirect then do
    let din ← addrFor din fbn
    pure (din, din.addr fbn)
  else do
    let din ← addrFor din ndirect
    let x ← entryFor (din.addr ndirect) (fbn - ndirect)
    pure (din, x)

/-- `n1`: how many of `n` bytes go to the block of `off`. -/
def appendLen (off n : Nat) : Nat := min n ((off / bsize + 1) * bsize - off)

theorem appendLen_eq (off n : Nat) : appendLen off n = roundLen off n := by
  have := Nat.div_add_mod off bsize
  rw [appendLen, roundLen, Nat.add_mul, Nat.mul_comm (off / bsize)]
  congr 1
  omega

/-- `iappend`'s loop: the bytes `p` to `off`.  It gives the inode and the offset it ends at. -/
def appendLoop (din : Dinode) (off : Nat) (p : List UInt8) : MkM (Dinode × Nat) :=
  if p.length = 0 then pure (din, off)
  else if off / bsize < maxfile then do
    let (din, x) ← blockFor din (off / bsize)
    let buf ← rsect x
    wsect x (buf.splice (off - off / bsize * bsize) (p.take (appendLen off p.length)))
    appendLoop din (off + appendLen off p.length) (p.drop (appendLen off p.length))
  else stop .maxfile
  termination_by p.length
  decreasing_by
    rename_i hn _
    have := roundLen_pos off hn
    rw [List.length_drop, appendLen_eq]
    omega

def iappend (inum : Nat) (xp : List UInt8) : MkM Unit := do
  let din ← rinode inum
  let (din, off) ← appendLoop din din.size.toNat xp
  winode inum { din with size := UInt32.ofNat off }

/-! ### `main` -/

/-- `main`'s loop over the bytes of a file, `sizeof(buf)` at a time. -/
def copyFile (inum : Nat) (data : List UInt8) : MkM Unit :=
  if data.length = 0 then pure ()
  else do
    iappend inum (data.take bsize)
    copyFile inum (data.drop bsize)
  termination_by data.length
  decreasing_by
    rename_i hn
    rw [List.length_drop]
    simp only [bsize]
    omega

/-- Skip leading _ in name when writing to file system. -/
def skipUnderscore (name : List UInt8) : List UInt8 :=
  if name.head? = some 95 then name.tail else name

/-- A round of `main`'s loop over the files, given what the host has for a name. -/
def addFile (host : List UInt8 → Option (List UInt8)) (root : Nat) (name : List UInt8) : MkM Unit :=
  if (47 : UInt8) ∈ name then stop .slash
  else
    match host name with
    | none => stop .open
    | some data => do
        let inum ← ialloc tFile
        iappend root (Dirent.bytes ⟨inum, skipUnderscore name⟩)
        copyFile inum data

/-- Fix size of root inode dir. -/
def fixRoot (root : Nat) : MkM Unit := do
  let din ← rinode root
  winode root { din with size := UInt32.ofNat ((din.size.toNat / bsize + 1) * bsize) }

/-- `mkfs fs.img argv...`. -/
def mkfs (host : List UInt8 → Option (List UInt8)) (argv : List (List UInt8)) : MkM Unit := do
  forEach (List.range fssize) fun i => wsect i zeroBlock
  wsect 1 sbBlock
  let root ← ialloc tDir
  if root ≠ rootino then stop .rootino
  else do
    iappend root (Dirent.bytes ⟨root, dot⟩)
    iappend root (Dirent.bytes ⟨root, dotdot⟩)
    forEach argv (addFile host root)
    fixRoot root
    let used ← gets Vars.freeblock
    balloc used

/-- The variables as the program starts, with the image file empty. -/
def start : Vars := ⟨fun _ => zeroBlock, 0, 1, nmeta⟩

end Xv6.Mkfs
