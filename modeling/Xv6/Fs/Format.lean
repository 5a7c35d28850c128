import Xv6.Fs.Block

/-!
# Fs — the on-disk format

The superblock, inodes and free map of `fs.h`, as bytes of blocks, and what a store to one block
does to them: an inode block holds `IPB` inodes (`dinodeAt_iupdate`), a block of the free map a bit
for each of `BPB` blocks (`bitAt_setBit`, `bitAt_clearBit`).

`Layout` is a superblock whose areas lie as the comment on the disk layout says.
-/

namespace Xv6.Fs
open Lib

/-- `NDIRECT`. -/
def ndirect : Nat := 12

/-- `NINDIRECT`. -/
def nindirect : Nat := 128

/-- `MAXFILE`. -/
def maxfile : Nat := ndirect + nindirect

/-- `IPB`: inodes of 64 bytes in a block. -/
def ipb : Nat := 8

/-- `BPB`: bits in a block. -/
def bpb : Nat := bsize * 8

structure Superblock where
  size : Nat
  nblocks : Nat
  ninodes : Nat
  nlog : Nat
  logstart : Nat
  inodestart : Nat
  bmapstart : Nat
  deriving DecidableEq, Repr

def Superblock.ofBlock (b : Block) : Superblock :=
  ⟨b.read 0 4, b.read 4 4, b.read 8 4, b.read 12 4, b.read 16 4, b.read 20 4, b.read 24 4⟩

/-- `IBLOCK`. -/
def Superblock.iblock (sb : Superblock) (i : Nat) : Nat := i / ipb + sb.inodestart

/-- `BBLOCK`. -/
def Superblock.bblock (sb : Superblock) (b : Nat) : Nat := b / bpb + sb.bmapstart

/-! ### Inodes -/

def tDir : UInt16 := 1

def tFile : UInt16 := 2

def tDev : UInt16 := 3

structure Dinode where
  type : UInt16
  major : UInt16
  minor : UInt16
  nlink : UInt16
  size : UInt32
  addrs : Fin (12 + 1) → UInt32
  deriving DecidableEq

namespace Dinode

/-- Inode `k` of a block. -/
def ofBlock (b : Block) (k : Nat) : Dinode where
  type := UInt16.ofNat (b.read (64 * k) 2)
  major := UInt16.ofNat (b.read (64 * k + 2) 2)
  minor := UInt16.ofNat (b.read (64 * k + 4) 2)
  nlink := UInt16.ofNat (b.read (64 * k + 6) 2)
  size := UInt32.ofNat (b.read (64 * k + 8) 4)
  addrs j := UInt32.ofNat (b.read (64 * k + 12 + 4 * j) 4)

/-- The 64 bytes of an inode. -/
def bytes (c : Dinode) : List UInt8 :=
  bytesLE 2 c.type.toNat ++ (bytesLE 2 c.major.toNat ++ (bytesLE 2 c.minor.toNat ++
    (bytesLE 2 c.nlink.toNat ++ (bytesLE 4 c.size.toNat ++
      (List.ofFn fun j => (c.addrs j).toNat).flatMap (bytesLE 4)))))

/-- Inode `k` of a block becomes `c`. -/
def toBlock (c : Dinode) (b : Block) (k : Nat) : Block := b.splice (64 * k) c.bytes

/-- `addrs[k]`. -/
def addr (c : Dinode) (k : Nat) : Nat := if h : k < 12 + 1 then (c.addrs ⟨k, h⟩).toNat else 0

/-- `addrs[k] = b`. -/
def setAddr (c : Dinode) (k b : Nat) : Dinode :=
  { c with addrs := fun j => if j.val = k then UInt32.ofNat b else c.addrs j }

theorem length_bytes (c : Dinode) : c.bytes.length = 64 := by
  simp [bytes]

/-- The fields, read back from the bytes of the inode. -/
theorem field_bytes (c : Dinode) :
    field c.bytes 0 2 = c.type.toNat ∧ field c.bytes 2 2 = c.major.toNat ∧
      field c.bytes 4 2 = c.minor.toNat ∧ field c.bytes 6 2 = c.nlink.toNat ∧
      field c.bytes 8 4 = c.size.toNat ∧
      ∀ j : Fin 13, field c.bytes (12 + 4 * j) 4 = (c.addrs j).toNat := by
  have head : ∀ w v ys, v < 256 ^ w → field (bytesLE w v ++ ys) 0 w = v := by
    intro w v ys hv
    rw [field_append_left (by simp), field_bytesLE, Nat.mod_eq_of_lt hv]
  have tail : ∀ {w v ys} o w', field (bytesLE w v ++ ys) (w + o) w' = field ys o w' := by
    intro w v ys o w'
    rw [field_append_right (by simp), length_bytesLE, Nat.add_sub_cancel_left]
  refine ⟨head 2 _ _ c.type.toNat_lt, ?_, ?_, ?_, ?_, fun j => ?_⟩
  · exact (tail 0 2).trans (head 2 _ _ c.major.toNat_lt)
  · exact (tail 2 2).trans ((tail 0 2).trans (head 2 _ _ c.minor.toNat_lt))
  · exact (tail 4 2).trans ((tail 2 2).trans ((tail 0 2).trans (head 2 _ _ c.nlink.toNat_lt)))
  · exact (tail 6 4).trans ((tail 4 4).trans ((tail 2 4).trans ((tail 0 4).trans
      (head 4 _ _ c.size.toNat_lt))))
  · have hlen : j.val < (List.ofFn fun j => (c.addrs j).toNat).length := by
      rw [List.length_ofFn]
      exact j.isLt
    have hoff : 12 + 4 * j.val = 2 + (2 + (2 + (2 + (4 + 4 * j.val)))) := by omega
    rw [hoff, bytes, tail, tail, tail, tail, tail, field_flatMap hlen, List.getElem_ofFn]
    exact Nat.mod_eq_of_lt (c.addrs j).toNat_lt

theorem ofBlock_toBlock_self (c : Dinode) (b : Block) {k : Nat} (hk : k < ipb) :
    ofBlock (c.toBlock b k) k = c := by
  have hfit : 64 * k + c.bytes.length ≤ bsize := by
    rw [length_bytes]
    simp only [ipb, bsize] at *
    omega
  have hread : ∀ o w, o + w ≤ 64 → (c.toBlock b k).read (64 * k + o) w = field c.bytes o w := by
    intro o w how
    rw [toBlock, Bytes.read_splice_sub (by omega) (by rw [length_bytes]; omega) hfit,
      Nat.add_sub_cancel_left]
  obtain ⟨htype, hmajor, hminor, hnlink, hsize, haddrs⟩ := c.field_bytes
  have h0 := hread 0 2 (by omega)
  rw [Nat.add_zero] at h0
  have haddr : ∀ j : Fin (12 + 1),
      UInt32.ofNat ((c.toBlock b k).read (64 * k + 12 + 4 * j) 4) = c.addrs j := by
    intro j
    rw [Nat.add_assoc, hread _ _ (by omega), haddrs, UInt32.ofNat_toNat]
  rw [ofBlock, h0, hread 2 2 (by omega), hread 4 2 (by omega), hread 6 2 (by omega),
    hread 8 4 (by omega), htype, hmajor, hminor, hnlink, hsize]
  simp only [haddr, UInt16.ofNat_toNat, UInt32.ofNat_toNat]

theorem ofBlock_toBlock_of_ne (c : Dinode) (b : Block) {k k' : Nat} (h : k' ≠ k) :
    ofBlock (c.toBlock b k) k' = ofBlock b k' := by
  have hread : ∀ o w, o + w ≤ 64 →
      (c.toBlock b k).read (64 * k' + o) w = b.read (64 * k' + o) w := by
    intro o w how
    refine Bytes.read_splice_of_disjoint ?_
    rw [length_bytes]
    omega
  have h0 := hread 0 2 (by omega)
  rw [Nat.add_zero] at h0
  have haddr : ∀ j : Fin (12 + 1), (c.toBlock b k).read (64 * k' + 12 + 4 * j) 4 =
      b.read (64 * k' + 12 + 4 * j) 4 := by
    intro j
    rw [Nat.add_assoc, hread _ _ (by omega)]
  rw [ofBlock, ofBlock, h0, hread 2 2 (by omega), hread 4 2 (by omega), hread 6 2 (by omega),
    hread 8 4 (by omega)]
  simp only [haddr]

theorem addr_setAddr_self (c : Dinode) {k b : Nat} (hk : k ≤ ndirect) (hb : b < 2 ^ 32) :
    (c.setAddr k b).addr k = b := by
  rw [addr, dif_pos (show k < 12 + 1 from Nat.lt_succ_of_le hk), setAddr]
  simp only [if_true, UInt32.toNat_ofNat']
  exact Nat.mod_eq_of_lt hb

theorem addr_setAddr_of_ne (c : Dinode) {k k' : Nat} (b : Nat) (h : k' ≠ k) :
    (c.setAddr k b).addr k' = c.addr k' := by
  unfold addr setAddr
  by_cases hk : k' < 12 + 1
  · rw [dif_pos hk, dif_pos hk]
    simp only [h, if_false]
  · rw [dif_neg hk, dif_neg hk]

theorem setAddr_of_addr_eq_zero {c : Dinode} {k : Nat} (h : c.addr k = 0) : c.setAddr k 0 = c := by
  have haddrs : (fun j : Fin (12 + 1) => if j.val = k then UInt32.ofNat 0 else c.addrs j) =
      c.addrs := by
    funext j
    by_cases hj : j.val = k
    · subst hj
      rw [addr, dif_pos j.isLt] at h
      rw [if_pos rfl]
      exact (UInt32.toNat_inj.mp h).symm
    · rw [if_neg hj]
  rw [setAddr, haddrs]

theorem addr_of_gt (c : Dinode) {k : Nat} (h : ndirect < k) : c.addr k = 0 :=
  dif_neg (not_lt.mpr h)

end Dinode

/-! ### Areas of the disk -/

/-- A superblock whose areas lie one after the other: inode blocks, free map, data blocks. -/
structure Layout extends Superblock where
  inode_low : 1 < inodestart
  inode_high : inodestart + ninodes / ipb < bmapstart
  meta_le : bmapstart + size / bpb + 1 ≤ size
  size_lt : size < 2 ^ 31

namespace Layout

/-- The first data block. -/
def nmeta (L : Layout) : Nat := L.bmapstart + L.size / bpb + 1

variable (L : Layout)

theorem iblock_gt (i : Nat) : 1 < L.iblock i :=
  L.inode_low.trans_le (Nat.le_add_left _ _)

theorem iblock_lt {i : Nat} (h : i < L.ninodes) : L.iblock i < L.bmapstart := by
  have hdiv : i / ipb ≤ L.ninodes / ipb := Nat.div_le_div_right h.le
  have := L.inode_high
  simp only [Superblock.iblock]
  omega

theorem bblock_ge (b : Nat) : L.bmapstart ≤ L.bblock b := Nat.le_add_left _ _

theorem bblock_lt {b : Nat} (h : b < L.size) : L.bblock b < L.nmeta := by
  have hdiv : b / bpb ≤ L.size / bpb := Nat.div_le_div_right h.le
  simp only [Superblock.bblock, nmeta]
  omega

theorem one_lt_bmapstart : 1 < L.bmapstart :=
  L.inode_low.trans ((Nat.le_add_right _ _).trans_lt L.inode_high)

theorem bmapstart_lt : L.bmapstart < L.nmeta := Nat.lt_succ_of_le (Nat.le_add_right _ _)

end Layout

/-- Inode `i` on the disk. -/
def dinodeAt (sb : Superblock) (d : Disk) (i : Nat) : Dinode :=
  Dinode.ofBlock (d (sb.iblock i)) (i % ipb)

/-- The bit of block `b` in the free map. -/
def bitAt (sb : Superblock) (d : Disk) (b : Nat) : Bool := (d (sb.bblock b)).testBit (b % bpb)

section Updates
variable (L : Layout) {d : Disk} {x b i : Nat} {blk : Block}

theorem dinodeAt_congr {d' : Disk} (h : d' (L.iblock i) = d (L.iblock i)) :
    dinodeAt L.toSuperblock d' i = dinodeAt L.toSuperblock d i := by
  rw [dinodeAt, h, dinodeAt]

theorem dinodeAt_update (hx : L.bmapstart ≤ x) (hi : i < L.ninodes) :
    dinodeAt L.toSuperblock (Function.update d x blk) i = dinodeAt L.toSuperblock d i :=
  dinodeAt_congr L (Function.update_of_ne (((L.iblock_lt hi).trans_le hx).ne) _ _)

theorem bitAt_update (hx : x < L.bmapstart ∨ L.nmeta ≤ x) (hb : b < L.size) :
    bitAt L.toSuperblock (Function.update d x blk) b = bitAt L.toSuperblock d b := by
  have hne : L.bblock b ≠ x := by
    have := L.bblock_ge b
    have := L.bblock_lt hb
    omega
  rw [bitAt, Function.update_of_ne hne, bitAt]

/-- The inodes after one of them is stored. -/
theorem dinodeAt_iupdate (c : Dinode) (i j : Nat) :
    dinodeAt L.toSuperblock (Function.update d (L.iblock i)
      (c.toBlock (d (L.iblock i)) (i % ipb))) j =
      if j = i then c else dinodeAt L.toSuperblock d j := by
  have hmod : i % ipb < ipb := Nat.mod_lt _ (by decide)
  by_cases hji : j = i
  · subst hji
    rw [if_pos rfl, dinodeAt, Function.update_self]
    exact Dinode.ofBlock_toBlock_self c _ hmod
  · rw [if_neg hji, dinodeAt, dinodeAt]
    by_cases hblk : L.iblock j = L.iblock i
    · -- another inode of the same block
      have hne : j % ipb ≠ i % ipb := by
        intro heq
        simp only [Superblock.iblock, ipb] at *
        omega
      rw [hblk, Function.update_self]
      exact Dinode.ofBlock_toBlock_of_ne c _ hne
    · rw [Function.update_of_ne hblk]

theorem bitAt_setBit (b b' : Nat) :
    bitAt L.toSuperblock (Function.update d (L.bblock b) ((d (L.bblock b)).setBit (b % bpb))) b' =
      (decide (b' = b) || bitAt L.toSuperblock d b') := by
  have hmod : b % bpb < 8 * bsize := Nat.mod_lt _ (by decide)
  rw [bitAt, bitAt]
  by_cases hblk : L.bblock b' = L.bblock b
  · have hiff : b' % bpb = b % bpb ↔ b' = b := by
      simp only [Superblock.bblock, bpb, bsize] at *
      omega
    rw [hblk, Function.update_self, Bytes.testBit_setBit hmod]
    simp only [hiff]
  · have hne : b' ≠ b := fun h => hblk (by rw [h])
    rw [Function.update_of_ne hblk, decide_eq_false hne, Bool.false_or]

theorem bitAt_clearBit (b b' : Nat) :
    bitAt L.toSuperblock (Function.update d (L.bblock b) ((d (L.bblock b)).clearBit (b % bpb))) b' =
      (!decide (b' = b) && bitAt L.toSuperblock d b') := by
  have hmod : b % bpb < 8 * bsize := Nat.mod_lt _ (by decide)
  rw [bitAt, bitAt]
  by_cases hblk : L.bblock b' = L.bblock b
  · have hiff : b' % bpb = b % bpb ↔ b' = b := by
      simp only [Superblock.bblock, bpb, bsize] at *
      omega
    rw [hblk, Function.update_self, Bytes.testBit_clearBit hmod]
    simp only [hiff]
  · have hne : b' ≠ b := fun h => hblk (by rw [h])
    rw [Function.update_of_ne hblk, decide_eq_false hne, Bool.not_false, Bool.true_and]

end Updates

end Xv6.Fs
