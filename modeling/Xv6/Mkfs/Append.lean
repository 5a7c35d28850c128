import Xv6.Mkfs.Build

/-!
# Mkfs — `iappend`

What `iappend` does to an image.  The free map is written at the end, but the image can be looked at
with the map it would have now (`Vars.disk`).  On that disk `freeblock++` is the allocation of a block,
since the blocks from `freeblock` on are zero (`Ready`), and `iappend` is a write to the end of a file.

The blocks a file has are those its size asks for, and no others (`Exact`), so that the blocks a call
takes can be counted (`fileBlocks`).
-/

namespace Xv6.Mkfs
open Lib Lib.Prog Fs

/-- The layout `main` computes. -/
def layout : Layout where
  toSuperblock := sb
  inode_low := by decide
  inode_high := by decide
  meta_le := by decide
  size_lt := by decide

/-- The image, with the free map it would have now. -/
def Vars.disk (m : Vars) : Disk := Function.update m.img sb.bmapstart (bitmap m.freeblock)

/-- Blocks are handed out in order, and those to come are zero. -/
structure Ready (m : Vars) : Prop where
  len : m.len = fssize
  low : nmeta ≤ m.freeblock
  high : m.freeblock ≤ fssize
  zero : ∀ b, m.freeblock ≤ b → m.img b = zeroBlock

section Disk
variable {m : Vars} {sec x b used : Nat} {blk : Block}

theorem sector_eq (h : sec ≤ fssize) : sector sec = sec := by
  simp only [sector, u32, fssize, bsize] at *
  omega

theorem wp_rsect {E : Exit → Prop} {Q : Block → Vars → Prop} (hlen : m.len = fssize)
    (h : sec ≤ fssize) :
    Wp (rsect sec) m E Q ↔ if sec < fssize then Q (m.img sec) m else E .read := by
  simp only [rsect, wp_bind, wp_gets, id, sector_eq h, hlen]
  split
  · rw [wp_pure]
  · rw [wp_stop]

theorem wp_wsect {E : Exit → Prop} {Q : Unit → Vars → Prop} (hlen : m.len = fssize)
    (h : sec < fssize) :
    Wp (wsect sec blk) m E Q ↔ Q () { m with img := Function.update m.img sec blk } := by
  have hmax : max m.len (sec + 1) = m.len := by
    rw [hlen]
    exact max_eq_left h
  rw [wsect, wp_modify, sector_eq h.le, hmax]

theorem bitmap_succ (used : Nat) : bitmap (used + 1) = (bitmap used).setBit used := by
  rw [bitmap, List.range_succ, List.foldl_append]
  rfl

theorem testBit_bitmap (h : used ≤ 8 * bsize) (b : Nat) :
    (bitmap used).testBit b = decide (b < used) := by
  induction used with
  | zero =>
      have hget : (zeroBlock.get (b / 8)).toNat = 0 := by simp [Bytes.get, zeroBlock]
      rw [show bitmap 0 = zeroBlock from rfl, Bytes.testBit_eq, hget, Nat.zero_testBit]
      simp
  | succ used ih =>
      rw [bitmap_succ, Bytes.testBit_setBit (by omega), ih (by omega), ← Bool.decide_or]
      exact decide_eq_decide.mpr (by omega)

theorem Vars.disk_of_ne (h : x ≠ sb.bmapstart) : m.disk x = m.img x := Function.update_of_ne h _ _

/-- The free map has the blocks in front of `freeblock`. -/
theorem bitAt_disk (h : Ready m) (hb : b < fssize) :
    bitAt sb m.disk b = decide (b < m.freeblock) := by
  have hblock : sb.bblock b = sb.bmapstart := by
    simp only [Superblock.bblock, bpb, bsize, fssize] at *
    omega
  have hmod : b % bpb = b := Nat.mod_eq_of_lt (hb.trans (by decide))
  have hhigh : m.freeblock ≤ 8 * bsize := h.high.trans (by decide)
  rw [bitAt, hblock, Vars.disk, Function.update_self, hmod, testBit_bitmap hhigh]

theorem ne_bmapstart (h : nmeta ≤ x) : x ≠ sb.bmapstart := by
  have : sb.bmapstart < nmeta := by decide
  omega

/-- A store to another block than the free map. -/
theorem disk_update (h : x ≠ sb.bmapstart) :
    Vars.disk { m with img := Function.update m.img x blk } = Function.update m.disk x blk :=
  Function.update_comm h _ _ _

theorem Ready.update (h : Ready m) (hx : x < m.freeblock) :
    Ready { m with img := Function.update m.img x blk } where
  len := h.len
  low := h.low
  high := h.high
  zero b hb := (Function.update_of_ne (hx.trans_le hb).ne' _ _).trans (h.zero b hb)

theorem Ready.succ (h : Ready m) (hlt : m.freeblock < fssize) :
    Ready { m with freeblock := m.freeblock + 1 } :=
  ⟨h.len, h.low.trans (Nat.le_succ _), hlt, fun b hb => h.zero b (Nat.le_of_succ_le hb)⟩

/-- **`freeblock++` takes a free block**: the disk is the one `balloc` of the kernel would leave. -/
theorem Ready.allocDisk (h : Ready m) (hlt : m.freeblock < fssize) :
    allocDisk layout m.disk m.freeblock = Vars.disk { m with freeblock := m.freeblock + 1 } := by
  have hblock : layout.bblock m.freeblock = sb.bmapstart := by
    simp only [Superblock.bblock, layout, bpb, bsize, fssize] at *
    omega
  have hmod : m.freeblock % bpb = m.freeblock := Nat.mod_eq_of_lt (hlt.trans (by decide))
  have hne := ne_bmapstart h.low
  rw [Fs.allocDisk, hblock, hmod, Vars.disk, Function.update_self, Function.update_idem,
    ← bitmap_succ, ← h.zero m.freeblock le_rfl, Function.update_comm hne.symm,
    Function.update_eq_self]
  rfl

end Disk

/-! ### Blocks for a file -/

/-- How many blocks are taken for block `bn` of the file. -/
def need (d : Disk) (c : Dinode) (bn : Nat) : Nat :=
  if view d c bn = none then if ndirect ≤ bn ∧ c.addr ndirect = 0 then 2 else 1 else 0

theorem need_of_place {d : Disk} {c : Dinode} {bn : Nat} (h : place d c (placeOf bn) ≠ 0) :
    need d c bn = 0 := by
  rw [need, if_neg]
  rw [view, if_neg h]
  rintro ⟨⟩

theorem need_of_none {d : Disk} {c : Dinode} {bn : Nat} (h : place d c (placeOf bn) = 0) :
    need d c bn = if ndirect ≤ bn ∧ c.addr ndirect = 0 then 2 else 1 := if_pos (if_pos h)

/-- Block `bn` of inode `i` is at `x`. -/
structure Found (ino : Nat → Dinode) (i bn : Nat) (m : Vars) (x : Nat) (m' : Vars) (c' : Dinode) :
    Prop where
  ready : Ready m'
  inum : m'.freeinode = m.freeinode
  mapped : ∀ l, ∃ l', Mapped layout ino i bn m.disk l x m'.disk l' c'
  indirect : c'.addr ndirect ≠ 0 ↔ (ino i).addr ndirect ≠ 0 ∨ ndirect ≤ bn
  blocks : m'.freeblock = m.freeblock + need m.disk (ino i) bn

section Blocks
variable {m : Vars} {ino : Nat → Dinode} {i k j x bn : Nat} {E : Exit → Prop}

theorem Ready.bit_freeblock (h : Ready m) (hlt : m.freeblock < fssize) :
    bitAt layout.toSuperblock m.disk m.freeblock = false := by
  rw [show layout.toSuperblock = sb from rfl, bitAt_disk h hlt]
  exact decide_eq_false (lt_irrefl _)

/-- The blocks of files are data blocks in front of `freeblock`. -/
theorem Ready.own (h : Ready m) (hok : ImageOk layout m.disk ino) {p : Nat × Nat}
    (hx : own layout m.disk ino p = some x) : nmeta ≤ x ∧ x < m.freeblock ∧ x < fssize := by
  have hrange := hok.range hx
  have hbit := hok.bit hx
  rw [show layout.toSuperblock = sb from rfl, bitAt_disk h hrange.2, decide_eq_true_eq] at hbit
  exact ⟨hrange.1, hbit, hrange.2⟩

section Give
variable (h : Ready m) (hok : ImageOk layout m.disk ino) (hi : i < ninodes) (ht : (ino i).type ≠ 0)
include h hok hi ht

/-- The next block becomes an address. -/
theorem giveAddr (hlt : m.freeblock < fssize) (hk : k ≤ ndirect) (h0 : (ino i).addr k = 0) :
    Given layout m.disk ino i k m.freeblock (Vars.disk { m with freeblock := m.freeblock + 1 })
      ((ino i).setAddr k m.freeblock) := by
  rw [← h.allocDisk hlt]
  exact hok.giveAddr hi ht hlt (h.bit_freeblock hlt) hk h0

/-- An entry of the indirect block is there, or the next block becomes it. -/
theorem entryFor_wp (hx : (ino i).addr ndirect ≠ 0) (hj : j < nindirect) :
    Wp (entryFor ((ino i).addr ndirect) j) m E fun b m' =>
      (b = entry m.disk (ino i) j ∧ b ≠ 0 ∧ m' = m) ∨
      (entry m.disk (ino i) j = 0 ∧ b = m.freeblock ∧ m'.len = fssize ∧ (m.freeblock < fssize →
        Ready m' ∧ m'.freeinode = m.freeinode ∧ m'.freeblock = m.freeblock + 1 ∧
          Given layout m.disk ino i (ndirect + 1 + j) b m'.disk (ino i))) := by
  obtain ⟨hlow, hfree, hsize⟩ := h.own hok (ImageOk.own_indirect hi ht hx)
  have hne := ne_bmapstart hlow
  have hentry : entry m.disk (ino i) j = (m.img ((ino i).addr ndirect)).read (4 * j) 4 := by
    rw [entry, if_neg hx, Vars.disk_of_ne hne]
  have hfit : 4 * j + 4 ≤ bsize := by
    simp only [nindirect, bsize] at *
    omega
  have hb32 : m.freeblock < 256 ^ 4 := h.high.trans_lt (by decide)
  rw [entryFor, wp_bind, wp_rsect h.len hsize.le, if_pos hsize]
  split
  · rename_i h0
    simp only [newBlock, wp_bind, wp_gets, wp_modify, wp_pure]
    rw [wp_wsect (m := { m with freeblock := m.freeblock + 1 }) h.len hsize]
    refine .inr ⟨hentry.trans h0, Bytes.read_write_self hfit hb32, h.len, fun hlt =>
      ⟨(h.succ hlt).update (hfree.trans (Nat.lt_succ_self _)), rfl, rfl, ?_⟩⟩
    have hg := hok.giveEntry hi ht hlt (h.bit_freeblock hlt) hj hx (hentry.trans h0)
    rw [h.allocDisk hlt, Vars.disk_of_ne hne, ← disk_update hne] at hg
    rw [Bytes.read_write_self hfit hb32]
    exact hg
  · rename_i h0
    exact wp_pure.mpr (.inl ⟨hentry.symm, h0, rfl⟩)

/-- **Block `fbn` of the file**, found or made; if there is no block left for it, `x` is behind the end
of the image. -/
theorem blockFor_wp (hbn : bn < maxfile) :
    Wp (blockFor (ino i) bn) m (fun e => e = .read ∧ fssize < m.freeblock + need m.disk (ino i) bn)
      fun r m' => m'.len = fssize ∧
        (r.2 = fssize ∧ fssize < m.freeblock + need m.disk (ino i) bn ∨
          r.2 < fssize ∧ Found ino i bn m r.2 m' r.1) := by
  have hb32 : m.freeblock < 2 ^ 32 := h.high.trans_lt (by decide)
  rw [blockFor]
  by_cases hlt : bn < ndirect
  · have hplace : place m.disk (ino i) (placeOf bn) = (ino i).addr bn := by
      rw [placeOf_of_lt hlt, place_of_le hlt.le]
    have hge : ¬ ndirect ≤ bn := not_le.mpr hlt
    rw [if_pos hlt, addrFor]
    split
    · rename_i h0
      have hneed : need m.disk (ino i) bn = 1 := by
        rw [need_of_none (hplace.trans h0), if_neg (fun hand => hge hand.1)]
      simp only [newBlock, wp_bind, wp_gets, wp_modify, wp_pure,
        Dinode.addr_setAddr_self _ hlt.le hb32, hneed]
      refine ⟨h.len, ?_⟩
      obtain heq | hfree := h.high.eq_or_lt
      · exact .inl ⟨heq, by omega⟩
      · have hg := giveAddr h hok hi ht hfree hlt.le h0
        refine .inr ⟨hfree, h.succ hfree, rfl, fun _ => ⟨_, .of_addr hg hlt h0⟩, ?_, by rw [hneed]⟩
        rw [Dinode.addr_setAddr_of_ne _ _ hlt.ne']
        simp only [hge, or_false]
    · rename_i h0
      have hneed : need m.disk (ino i) bn = 0 := need_of_place (by rwa [hplace])
      have hown := h.own hok (own_place hi ht (k := bn) (by rwa [place_of_le hlt.le]))
      rw [place_of_le hlt.le] at hown
      refine wp_pure.mpr ⟨h.len, .inr ⟨hown.2.2, h, rfl, fun _ => ⟨_, .refl hok hplace h0⟩, ?_,
        by rw [hneed]; rfl⟩⟩
      simp only [hge, or_false]
  · have hge : ndirect ≤ bn := not_lt.mp hlt
    have hj : bn - ndirect < nindirect := by
      simp only [maxfile] at hbn
      omega
    have hplace : place m.disk (ino i) (placeOf bn) = entry m.disk (ino i) (bn - ndirect) := by
      rw [placeOf_of_ge hge, place_entry]
    rw [if_neg hlt, addrFor]
    split
    · -- the indirect block is new as well
      rename_i h0
      have hneed : need m.disk (ino i) bn = 2 := by
        rw [need_of_none (hplace.trans (if_pos h0)), if_pos ⟨hge, h0⟩]
      have haddr : ((ino i).setAddr ndirect m.freeblock).addr ndirect = m.freeblock :=
        Dinode.addr_setAddr_self _ le_rfl hb32
      simp only [newBlock, wp_bind, wp_gets, wp_modify, wp_pure, hneed]
      obtain heq | hfree := h.high.eq_or_lt
      · rw [haddr, entryFor, wp_bind, wp_rsect (m := { m with freeblock := m.freeblock + 1 }) h.len
          heq.le, if_neg heq.not_lt]
        exact ⟨rfl, by omega⟩
      · have hg := giveAddr h hok hi ht hfree le_rfl h0
        have hstep := entryFor_wp (E := fun e => e = .read ∧ fssize < m.freeblock + 2) (j := bn - ndirect)
          (h.succ hfree) hg.ok hi (by rw [Function.update_self]; exact ht)
          (by rw [Function.update_self, haddr]; exact hg.ne) hj
        simp only [Function.update_self] at hstep
        refine hstep.post ?_
        rintro b m' (⟨hb, hb0, -⟩ | ⟨-, rfl, hlen, hgive⟩)
        · exact absurd (hb.trans (hg.entry_eq_zero h0 _)) hb0
        · refine ⟨hlen, ?_⟩
          obtain hend | hroom := (show m.freeblock + 1 ≤ fssize from hfree).eq_or_lt
          · exact .inl ⟨hend, by omega⟩
          · obtain ⟨hready, hinum, hblocks, hg'⟩ := hgive hroom
            refine .inr ⟨hroom, hready, hinum, fun _ => ⟨_, .of_both hg h0 hge rfl hg'⟩, ?_, ?_⟩
            · rw [haddr]
              exact ⟨fun _ => .inr hge, fun _ => hg.ne⟩
            · rw [hblocks, hneed]
    · rename_i h0
      rw [wp_bind, wp_pure]
      simp only [wp_bind, wp_pure]
      refine (entryFor_wp h hok hi ht h0 hj).post ?_
      have hiff : (ino i).addr ndirect ≠ 0 ↔ (ino i).addr ndirect ≠ 0 ∨ ndirect ≤ bn :=
        ⟨.inl, fun _ => h0⟩
      rintro b m' (⟨hb, hb0, rfl⟩ | ⟨hzero, rfl, hlen, hgive⟩)
      · have hneed : need m'.disk (ino i) bn = 0 := need_of_place (by rwa [hplace, ← hb])
        have hown := h.own hok (own_place hi ht (k := placeOf bn) (by rwa [hplace, ← hb]))
        rw [hplace, ← hb] at hown
        exact ⟨h.len, .inr ⟨hown.2.2, h, rfl, fun _ => ⟨_, .refl hok (hplace.trans hb.symm) hb0⟩,
          hiff, by rw [hneed]; rfl⟩⟩
      · have hneed : need m.disk (ino i) bn = 1 := by
          rw [need_of_none (hplace.trans hzero), if_neg (fun hand => h0 hand.2)]
        refine ⟨hlen, ?_⟩
        rw [hneed]
        obtain heq | hfree := h.high.eq_or_lt
        · exact .inl ⟨heq, by omega⟩
        · obtain ⟨hready, hinum, hblocks, hg⟩ := hgive hfree
          exact .inr ⟨hfree, hready, hinum, fun _ => ⟨_, .of_entry hg hge h0 hzero⟩, hiff,
            by rw [hblocks, hneed]⟩

end Give

end Blocks

/-! ### Appending -/

/-- The file has the blocks for its first `size` bytes, and no others. -/
structure Exact (d : Disk) (c : Dinode) (size : Nat) : Prop where
  mapped : ∀ bn, view d c bn ≠ none ↔ bn * bsize < size
  indirect : c.addr ndirect ≠ 0 ↔ ndirect * bsize < size

/-- How many blocks a file of `size` bytes has, with the indirect block. -/
def fileBlocks (size : Nat) : Nat :=
  (size + bsize - 1) / bsize + if ndirect * bsize < size then 1 else 0

section Append
variable {m : Vars} {ino : Nat → Dinode} {i off n size : Nat} {d d' : Disk} {c c' : Dinode}
  {p : List UInt8}

theorem fileBlocks_mono (h : off ≤ size) : fileBlocks off ≤ fileBlocks size := by
  refine Nat.add_le_add (Nat.div_le_div_right (by omega)) ?_
  split
  · rw [if_pos (by omega)]
  · exact Nat.zero_le _

/-- Only a round that begins a block makes a difference. -/
theorem fileBlocks_add (hn : 0 < n) (hfit : off % bsize + n ≤ bsize) :
    fileBlocks (off + n) = fileBlocks off + if off % bsize = 0 then
      if off = ndirect * bsize then 2 else 1 else 0 := by
  have hdata : (off + n + bsize - 1) / bsize = (off + bsize - 1) / bsize +
      if off % bsize = 0 then 1 else 0 := by
    by_cases h0 : off % bsize = 0
    · rw [if_pos h0]
      simp only [bsize] at *
      omega
    · rw [if_neg h0]
      simp only [bsize] at *
      omega
  have hindirect : (if ndirect * bsize < off + n then 1 else 0) =
      (if ndirect * bsize < off then 1 else 0) + if off = ndirect * bsize then 1 else 0 := by
    by_cases h12 : off = ndirect * bsize
    · rw [if_pos h12, if_pos (by omega), if_neg (by omega)]
    · have hiff : ndirect * bsize < off + n ↔ ndirect * bsize < off := by
        simp only [ndirect, bsize] at *
        omega
      rw [if_neg h12, Nat.add_zero, if_congr hiff rfl rfl]
  rw [fileBlocks, fileBlocks, hdata, hindirect]
  by_cases h12 : off = ndirect * bsize
  · have h0 : off % bsize = 0 := by
      rw [h12, Nat.mul_mod_left]
    simp only [if_pos h12, if_pos h0]
    omega
  · simp only [if_neg h12]
    omega

/-- A round takes the blocks that make the difference. -/
theorem Exact.fileBlocks_round (h : Exact d c off) (hn : 0 < n) :
    fileBlocks (off + roundLen off n) = fileBlocks off + need d c (off / bsize) := by
  have hmapped := h.mapped (off / bsize)
  have hindirect := h.indirect
  rw [fileBlocks_add (roundLen_pos off hn.ne') (roundLen_fit off n), need]
  congr 1
  by_cases h0 : off % bsize = 0
  · have hnone : view d c (off / bsize) = none := by
      by_contra hne
      have := hmapped.mp hne
      simp only [bsize] at *
      omega
    rw [if_pos hnone, if_pos h0]
    by_cases h12 : off = ndirect * bsize
    · have hz : c.addr ndirect = 0 := by
        by_contra hne
        have := hindirect.mp hne
        omega
      rw [if_pos h12, if_pos ⟨by rw [h12]; decide, hz⟩]
    · rw [if_neg h12, if_neg]
      rintro ⟨hge, hz⟩
      refine hindirect.mpr ?_ hz
      simp only [ndirect, bsize] at *
      omega
  · have hsome : view d c (off / bsize) ≠ none := by
      refine hmapped.mpr ?_
      simp only [bsize] at *
      omega
    rw [if_neg hsome, if_neg h0]

theorem Exact.round {b : Nat} {ino : Nat → Dinode} {l l' : List Nat} (h : Exact d (ino i) off)
    (hn : 0 < n) (hm : Mapped layout ino i (off / bsize) d l b d' l' c')
    (hind : c'.addr ndirect ≠ 0 ↔ (ino i).addr ndirect ≠ 0 ∨ ndirect ≤ off / bsize) :
    Exact d' c' (off + roundLen off n) where
  mapped bn := by
    have hpos : 0 < roundLen off n := roundLen_pos off hn.ne'
    have hfit := roundLen_fit off n
    rw [hm.view_eq]
    by_cases hbn : bn = off / bsize
    · subst hbn
      rw [Function.update_self]
      simp only [bsize] at *
      simp
      omega
    · rw [Function.update_of_ne hbn, h.mapped]
      simp only [bsize] at *
      omega
  indirect := by
    have hpos : 0 < roundLen off n := roundLen_pos off hn.ne'
    have hfit := roundLen_fit off n
    rw [hind, h.indirect]
    simp only [ndirect, bsize] at *
    omega

/-- A block that is there is written. -/
theorem Exact.wrote {bn : Nat} {blk : Block} (h : Exact d c size) (hbn : view d c bn ≠ none)
    (hv : view d' c = Function.update (view d c) bn (some blk)) : Exact d' c size where
  mapped bn' := by
    rw [← h.mapped, hv]
    by_cases hbn' : bn' = bn
    · subst hbn'
      rw [Function.update_self]
      exact ⟨fun _ => hbn, fun _ => nofun⟩
    · rw [Function.update_of_ne hbn']
  indirect := h.indirect

/-- `iappend`'s loop. -/
theorem appendLoop_wp (h : Ready m) (hok : ImageOk layout m.disk ino) (hi : i < ninodes)
    (ht : (ino i).type ≠ 0) (hex : Exact m.disk (ino i) off) (hoff : off ≤ maxfile * bsize)
    (l : List Nat) :
    Wp (appendLoop (ino i) off p) m
      (fun _ => fssize + fileBlocks off < m.freeblock + fileBlocks (off + p.length) ∨
        maxfile * bsize < off + p.length)
      fun r m' => r.2 = off + p.length ∧ off + p.length ≤ maxfile * bsize ∧ Ready m' ∧
        m'.freeinode = m.freeinode ∧
        m'.freeblock + fileBlocks off = m.freeblock + fileBlocks (off + p.length) ∧
        Exact m'.disk r.1 (off + p.length) ∧
        ∃ l', Stored layout ino i off p m.disk l m'.disk l' r.1 := by
  induction hn : p.length using Nat.strong_induction_on generalizing off p m ino l with
  | h n ih =>
      subst hn
      rw [appendLoop]
      split
      · rename_i h0
        obtain rfl := List.eq_nil_of_length_eq_zero h0
        exact wp_pure.mpr ⟨rfl, hoff, h, rfl, rfl, hex, _, .refl hok⟩
      · rename_i h0
        have hpos : 0 < p.length := Nat.pos_of_ne_zero h0
        have hround := roundLen_pos off h0
        have hle : roundLen off p.length ≤ p.length := roundLen_le
        have hblocks := hex.fileBlocks_round hpos
        have hmono : fileBlocks (off + roundLen off p.length) ≤ fileBlocks (off + p.length) :=
          fileBlocks_mono (by omega)
        split
        · rename_i hbn
          refine (blockFor_wp h hok hi ht hbn).seq (fun e he => .inl (by omega)) ?_
          rintro ⟨c₁, x⟩ m₁ ⟨hlen, hx | ⟨hx, hfound⟩⟩
          · dsimp only at hx ⊢
            rw [wp_bind, wp_rsect hlen hx.1.le, if_neg hx.1.not_lt]
            exact .inl (by omega)
          · dsimp only at hx hfound ⊢
            obtain ⟨l₁, hm⟩ := hfound.mapped l
            have ht₁ : (Function.update ino i c₁ i).type ≠ 0 := by
              rw [Function.update_self, hm.fields]
              exact ht
            have hown := hfound.ready.own hm.ok (own_place hi ht₁ (k := placeOf (off / bsize))
              (by rw [Function.update_self, hm.place_eq]; exact hm.ne))
            rw [Function.update_self, hm.place_eq] at hown
            have hne := ne_bmapstart hown.1
            have hcopy : off - off / bsize * bsize = off % bsize := by
              have := Nat.div_add_mod' off bsize
              omega
            rw [wp_bind, wp_rsect hlen hx.le, if_pos hx, wp_bind, wp_wsect hlen hx, hcopy,
              appendLen_eq, ← Vars.disk_of_ne hne]
            have hw : Wrote layout m₁.disk _ i (off / bsize) ((m₁.disk x).splice (off % bsize)
                (p.take (roundLen off p.length))) _ :=
              hm.ok.writeData hi ht₁ (by rw [Function.update_self]; exact hm.place_eq) hm.ne
            rw [← disk_update hne] at hw
            have hex₁ : Exact m₁.disk c₁ (off + roundLen off p.length) :=
              hex.round hpos hm hfound.indirect
            have hsome : view m₁.disk c₁ (off / bsize) ≠ none := by
              rw [hm.view_eq, Function.update_self]
              exact nofun
            have hview := hw.view
            rw [Function.update_self] at hview
            have hend : off + roundLen off p.length ≤ maxfile * bsize := by
              have := roundLen_fit off p.length
              simp only [maxfile, ndirect, nindirect, bsize] at *
              omega
            have hdrop : off + roundLen off p.length + (p.drop (roundLen off p.length)).length =
                off + p.length := by
              rw [List.length_drop]
              omega
            have hrest := ih (p.drop (roundLen off p.length)).length
              (by rw [List.length_drop]; omega) (hfound.ready.update hown.2.1) hw.ok ht₁
              (by rw [Function.update_self]; exact hex₁.wrote hsome hview) hend (x :: l₁) rfl
            have hfree := hfound.blocks
            simp only [Function.update_self, hdrop] at hrest
            refine hrest.mono (fun e he => ?_) ?_
            · exact he.imp (fun he => by omega) fun he => he
            · rintro ⟨c', off'⟩ m' ⟨hoff', hmax, hready, hinum, hblocks', hex', l', hstored⟩
              exact ⟨hoff', hmax, hready, hinum.trans hfound.inum, by omega, hex', l',
                .round h0 hi ht hm hw hstored⟩
        · rename_i hbn
          refine wp_stop.mpr (.inr ?_)
          have : maxfile * bsize ≤ off :=
            (Nat.mul_le_mul_right _ (not_lt.mp hbn)).trans (Nat.div_mul_le_self off bsize)
          omega

end Append

end Xv6.Mkfs
