import Xv6.Fs.Format
import Xv6.Lib.Prog

/-!
# Fs — the state of the file system, and the block allocator

The functions of `fs.c` as programs on its state.  Calls come one after the other: no other process
is inside the file system, so that a lock that is taken stays taken (`Stop.sleeps`).

The disk is what the buffer cache shows of it.  Each function here that changes a buffer hands it to
`log_write` before it lets go of it, so that a change and its `log_write` are one step
(`logWrite`), which also notes the block for the transaction.  There is one device.
-/

namespace Xv6.Fs
open Lib Lib.Prog

/-- `NINODE`. -/
def ninode : Nat := 50

/-- A pointer to an entry of the inode cache. -/
abbrev Slot := Fin ninode

/-- `struct inode`; `busy` and `valid` are the flags, `copy` the copy of the disk inode. -/
structure Inode where
  inum : Nat
  ref : Int
  busy : Bool
  valid : Bool
  copy : Dinode

structure State where
  sb : Superblock
  disk : Disk
  icache : Slot → Inode
  /-- the characters typed at the console and not read yet -/
  input : List UInt8
  /-- the blocks passed to `log_write` since the last `begin_op`, the last first -/
  logged : List Nat
  /-- the blocks of each transaction that ended, the last first -/
  ended : List (List Nat)

/-- The state with another disk, after these `log_write`s. -/
def State.withDisk (s : State) (d : Disk) (l : List Nat) : State := { s with disk := d, logged := l }

/-- Where a call does not return. -/
inductive Stop where
  /-- it waits for something that does not come -/
  | sleeps
  /-- `"balloc: out of blocks"` -/
  | outOfBlocks
  /-- `"freeing free block"` -/
  | freeingFree
  /-- `"ialloc: no inodes"` -/
  | ialloc
  /-- `"iget: no inodes"` -/
  | iget
  | ilock
  /-- `"ilock: no type"` -/
  | noType
  | iunlock
  /-- `"iput busy"` -/
  | iputBusy
  /-- `"bmap: out of range"` -/
  | bmapRange
  /-- `"dirlookup not DIR"` -/
  | notDir
  /-- `"dirlink read"` -/
  | dirlinkRead
  | dirlink
  /-- `"isdirempty: readi"` -/
  | isdirempty
  /-- `"unlink: nlink < 1"` -/
  | unlinkNlink
  /-- `"unlink: writei"` -/
  | unlinkWritei
  /-- `"create dots"` -/
  | createDots
  /-- `"create: dirlink"` -/
  | createDirlink
  | fileread
  | filewrite
  /-- `"short filewrite"` -/
  | shortFilewrite
  | filedup
  | fileclose
  /-- `"loaduvm: addr must be page aligned"` -/
  | loaduvmAddr
  /-- `"loaduvm: address should exist"` -/
  | loaduvmExist
  deriving DecidableEq, Repr

abbrev FsM := Prog State Stop

/-! ### Buffers and the log -/

def bread (b : Nat) : FsM Block := gets fun s => s.disk b

/-- `log_write` of the buffer of block `b`, with its new data. -/
def logWrite (b : Nat) (data : Block) : FsM Unit :=
  modify fun s => { s with disk := Function.update s.disk b data, logged := b :: s.logged }

def beginOp : FsM Unit := modify fun s => { s with logged := [] }

def endOp : FsM Unit := modify fun s => { s with ended := s.logged :: s.ended, logged := [] }

def readsb : FsM Unit := modify fun s => { s with sb := Superblock.ofBlock (s.disk 1) }

/-! ### Blocks -/

def zeroBlock : Block := fun _ => 0

def bzero (bno : Nat) : FsM Unit := logWrite bno zeroBlock

/-- The inner loop of `balloc`, from `bi` on: the first free block among those with a bit in this
block of the free map, whose first bit is for block `b`. -/
def freeBit (bp : Block) (b size : Nat) : Nat → Nat → Option Nat
  | 0, _ => none
  | rounds + 1, bi =>
      if b + bi < size then
        if bp.testBit bi then freeBit bp b size rounds (bi + 1) else some bi
      else none

/-- The outer loop of `balloc`, from `b` on. -/
def ballocFrom : Nat → Nat → FsM Nat
  | 0, _ => stop .outOfBlocks
  | rounds + 1, b => do
      let sb ← gets State.sb
      if b < sb.size then
        let bp ← bread (sb.bblock b)
        match freeBit bp b sb.size bpb 0 with
        | some bi => do
            logWrite (sb.bblock b) (bp.setBit bi)
            bzero (b + bi)
            pure (b + bi)
        | none => ballocFrom rounds (b + bpb)
      else stop .outOfBlocks

def balloc : FsM Nat := do
  let sb ← gets State.sb
  ballocFrom (sb.size / bpb + 1) 0

def bfree (b : Nat) : FsM Unit := do
  readsb
  let sb ← gets State.sb
  let bp ← bread (sb.bblock b)
  if bp.testBit (b % bpb) then logWrite (sb.bblock b) (bp.clearBit (b % bpb))
  else stop .freeingFree

/-! ### What the allocator does -/

/-- The disk after `balloc` found block `b`. -/
def allocDisk (L : Layout) (d : Disk) (b : Nat) : Disk :=
  Function.update (Function.update d (L.bblock b) ((d (L.bblock b)).setBit (b % bpb))) b zeroBlock

/-- The disk after `bfree` of block `b`. -/
def freeDisk (L : Layout) (d : Disk) (b : Nat) : Disk :=
  Function.update d (L.bblock b) ((d (L.bblock b)).clearBit (b % bpb))

theorem freeBit_some {bp : Block} {b size rounds bi₀ bi : Nat}
    (h : freeBit bp b size rounds bi₀ = some bi) :
    bi < bi₀ + rounds ∧ b + bi < size ∧ bp.testBit bi = false := by
  induction rounds generalizing bi₀ with
  | zero => cases h
  | succ rounds ih =>
      rw [freeBit] at h
      split at h
      · rename_i hsize
        split at h
        · obtain ⟨hlt, hrest⟩ := ih h
          exact ⟨by omega, hrest⟩
        · rename_i hfree
          cases h
          exact ⟨by omega, hsize, Bool.eq_false_of_not_eq_true hfree⟩
      · cases h

theorem ballocFrom_wp {L : Layout} {s : State} (hsb : s.sb = L.toSuperblock) (rounds j : Nat) :
    Wp (ballocFrom rounds (j * bpb)) s (· = .outOfBlocks) fun b s' =>
      b < L.size ∧ bitAt L.toSuperblock s.disk b = false ∧
        s' = s.withDisk (allocDisk L s.disk b) (b :: L.bblock b :: s.logged) := by
  induction rounds generalizing j with
  | zero => exact wp_stop.mpr rfl
  | succ rounds ih =>
      simp only [ballocFrom, wp_bind, wp_gets]
      rw [hsb]
      split
      · simp only [bread, wp_bind, wp_gets]
        split
        · rename_i bi hbi
          obtain ⟨hlt, hsize, hfree⟩ := freeBit_some hbi
          rw [Nat.zero_add] at hlt
          have hblock : L.bblock (j * bpb) = L.bblock (j * bpb + bi) := by
            simp only [Superblock.bblock, bpb, bsize] at *
            omega
          have hmod : (j * bpb + bi) % bpb = bi := by
            rw [Nat.mul_add_mod_self_right, Nat.mod_eq_of_lt hlt]
          simp only [logWrite, bzero, wp_bind, wp_modify, wp_pure]
          refine ⟨hsize, ?_, ?_⟩
          · rw [bitAt, ← hblock, hmod]
            exact hfree
          · rw [allocDisk, ← hblock, hmod]
            rfl
        · have hnext := ih (j + 1)
          rwa [Nat.succ_mul] at hnext
      · exact wp_stop.mpr rfl

/-- **`balloc` finds a block the free map has as free**, marks it and clears it. -/
theorem balloc_wp {L : Layout} {s : State} (hsb : s.sb = L.toSuperblock) :
    Wp balloc s (· = .outOfBlocks) fun b s' =>
      b < L.size ∧ bitAt L.toSuperblock s.disk b = false ∧
        s' = s.withDisk (allocDisk L s.disk b) (b :: L.bblock b :: s.logged) := by
  have h := ballocFrom_wp hsb (s.sb.size / bpb + 1) 0
  rw [Nat.zero_mul] at h
  simpa only [balloc, wp_bind, wp_gets] using h

/-- `bfree` of a block in use does not panic. -/
theorem bfree_wp {L : Layout} {s : State} {b : Nat} {E : Stop → Prop} (hsb : s.sb = L.toSuperblock)
    (hsuper : Superblock.ofBlock (s.disk 1) = L.toSuperblock)
    (hbit : bitAt L.toSuperblock s.disk b = true) :
    Wp (bfree b) s E fun _ s' =>
      s' = s.withDisk (freeDisk L s.disk b) (L.bblock b :: s.logged) := by
  rw [bitAt] at hbit
  simp only [bfree, readsb, bread, logWrite, wp_bind, wp_modify, wp_gets, hsuper, hbit, if_true]
  rw [State.withDisk, hsb]
  rfl

section Disks
variable (L : Layout) {d : Disk} {b b' i x : Nat}

/-- After `balloc` of a data block, the free map has that block too. -/
theorem bitAt_allocDisk (hb : L.nmeta ≤ b) (hb' : b' < L.size) :
    bitAt L.toSuperblock (allocDisk L d b) b' =
      (decide (b' = b) || bitAt L.toSuperblock d b') := by
  rw [allocDisk, bitAt_update L (.inr hb) hb', bitAt_setBit]

theorem dinodeAt_allocDisk (hb : L.nmeta ≤ b) (hi : i < L.ninodes) :
    dinodeAt L.toSuperblock (allocDisk L d b) i = dinodeAt L.toSuperblock d i := by
  rw [allocDisk, dinodeAt_update L (L.bmapstart_lt.le.trans hb) hi,
    dinodeAt_update L (L.bblock_ge b) hi]

theorem allocDisk_self : allocDisk L d b b = zeroBlock := Function.update_self ..

theorem allocDisk_of_ne (hx : x < L.bmapstart ∨ L.nmeta ≤ x) (hb : b < L.size) (hne : x ≠ b) :
    allocDisk L d b x = d x := by
  have hmap : x ≠ L.bblock b := by
    have := L.bblock_ge b
    have := L.bblock_lt hb
    omega
  rw [allocDisk, Function.update_of_ne hne, Function.update_of_ne hmap]

theorem bitAt_freeDisk :
    bitAt L.toSuperblock (freeDisk L d b) b' = (!decide (b' = b) && bitAt L.toSuperblock d b') :=
  bitAt_clearBit L b b'

theorem freeDisk_of_ne (hx : x < L.bmapstart ∨ L.nmeta ≤ x) (hb : b < L.size) :
    freeDisk L d b x = d x := by
  have hmap : x ≠ L.bblock b := by
    have := L.bblock_ge b
    have := L.bblock_lt hb
    omega
  exact Function.update_of_ne hmap _ _

end Disks

end Xv6.Fs
