import Xv6.Fs.Alloc
import Xv6.Lib.Ledger

/-!
# Fs — what is on the disk

The blocks of an inode are at its places: the direct ones, the indirect block, and the entries of
the indirect block (`place`).  An image is a disk together with the inodes as the kernel has them
(`ino`): an inode in memory may be ahead of its copy on the disk.  The image is right when the free
map and the places make a ledger (`ImageOk`): the blocks in use are the metadata blocks and the
blocks at the places of the inodes in use, and no block is at two places.

Of a file, `view` shows its blocks and nothing of where they are.  The theorems say what the steps
of the file system do to an image and to the views of all inodes: a block given to a place
(`ImageOk.giveAddr`, `ImageOk.giveEntry`), a block of a file written (`ImageOk.writeData`), an inode
stored (`ImageOk.iupdate`) or changed (`ImageOk.setIno`), a file truncated (`ImageOk.trunc`).
-/

namespace Xv6.Fs
open Lib

/-! ### Places -/

/-- Entry `j` of the indirect block. -/
def entry (d : Disk) (c : Dinode) (j : Nat) : Nat :=
  if c.addr ndirect = 0 then 0 else (d (c.addr ndirect)).read (4 * j) 4

/-- The block at place `k` of an inode, `0` for none: the addresses of the inode, and after them
the entries of the indirect block. -/
def place (d : Disk) (c : Dinode) (k : Nat) : Nat :=
  if k ≤ ndirect then c.addr k else entry d c (k - (ndirect + 1))

/-- The place of block `bn` of the file. -/
def placeOf (bn : Nat) : Nat := if bn < ndirect then bn else bn + 1

/-- Block `bn` of the file. -/
def view (d : Disk) (c : Dinode) (bn : Nat) : Option Block :=
  if place d c (placeOf bn) = 0 then none else some (d (place d c (placeOf bn)))

section Places
variable {d d' : Disk} {c c' : Dinode} {k j bn x b : Nat}

theorem place_of_le (h : k ≤ ndirect) : place d c k = c.addr k := if_pos h

theorem place_entry (j : Nat) : place d c (ndirect + 1 + j) = entry d c j := by
  rw [place, if_neg (by omega), Nat.add_sub_cancel_left]

/-- The indirect block has no more than `NINDIRECT` entries. -/
theorem entry_of_ge (h : nindirect ≤ j) : entry d c j = 0 := by
  unfold entry
  split
  · rfl
  · refine Bytes.read_of_le ?_
    simp only [nindirect, bsize] at *
    omega

theorem placeOf_ne (bn : Nat) : placeOf bn ≠ ndirect := by
  unfold placeOf
  split <;> omega

theorem placeOf_inj {bn bn' : Nat} (h : placeOf bn = placeOf bn') : bn = bn' := by
  unfold placeOf at h
  split at h <;> split at h <;> omega

theorem place_congr (h : c.addr ndirect ≠ 0 → d' (c.addr ndirect) = d (c.addr ndirect)) (k : Nat) :
    place d' c k = place d c k := by
  unfold place entry
  by_cases h0 : c.addr ndirect = 0
  · simp only [h0, if_true]
  · rw [h h0]

/-- The view of a file none of whose blocks change. -/
theorem view_congr (h : ∀ k, place d c k ≠ 0 → d' (place d c k) = d (place d c k)) :
    view d' c = view d c := by
  have hplace : ∀ k, place d' c k = place d c k := by
    have h12 := h ndirect
    rw [place_of_le le_rfl] at h12
    exact place_congr h12
  funext bn
  simp only [view, hplace]
  split
  · rfl
  · rename_i hne
    rw [h _ hne]

end Places

/-! ### Images -/

/-- The block at a place of an inode in use. -/
def own (L : Layout) (d : Disk) (ino : Nat → Dinode) (p : Nat × Nat) : Option Nat :=
  if p.1 < L.ninodes ∧ (ino p.1).type ≠ 0 ∧ place d (ino p.1) p.2 ≠ 0 then
    some (place d (ino p.1) p.2)
  else none

/-- The blocks the free map has in use. -/
def usedBlocks (L : Layout) (d : Disk) : Set Nat :=
  {b | b < L.size ∧ bitAt L.toSuperblock d b = true}

structure ImageOk (L : Layout) (d : Disk) (ino : Nat → Dinode) : Prop where
  super : Superblock.ofBlock (d 1) = L.toSuperblock
  ledger : Ledger {b | b < L.nmeta} (own L d ino) (usedBlocks L d)

section Own
variable {L : Layout} {d d' : Disk} {ino ino' : Nat → Dinode} {p : Nat × Nat} {i k b x bn : Nat}

theorem own_eq_some : own L d ino p = some b ↔
    p.1 < L.ninodes ∧ (ino p.1).type ≠ 0 ∧ place d (ino p.1) p.2 = b ∧ b ≠ 0 := by
  unfold own
  constructor
  · intro h
    split at h
    · rename_i hp
      cases h
      exact ⟨hp.1, hp.2.1, rfl, hp.2.2⟩
    · cases h
  · rintro ⟨hi, ht, rfl, h0⟩
    exact if_pos ⟨hi, ht, h0⟩

theorem own_place (hi : i < L.ninodes) (ht : (ino i).type ≠ 0) (h : place d (ino i) k ≠ 0) :
    own L d ino (i, k) = some (place d (ino i) k) :=
  own_eq_some.mpr ⟨hi, ht, rfl, h⟩

/-- What place `k` of an inode owns is the same, if the inode is in use before as after. -/
theorem own_congr (ht : (ino' i).type = 0 ↔ (ino i).type = 0)
    (hp : i < L.ninodes → (ino i).type ≠ 0 → place d' (ino' i) k = place d (ino i) k) :
    own L d' ino' (i, k) = own L d ino (i, k) := by
  unfold own
  by_cases hi : i < L.ninodes
  · by_cases h0 : (ino i).type = 0
    · rw [if_neg (fun h => h.2.1 (ht.mpr h0)), if_neg (fun h => h.2.1 h0)]
    · simp only [hp hi h0, ne_eq, ht]
  · rw [if_neg (fun h => hi h.1), if_neg (fun h => hi h.1)]

namespace ImageOk

theorem range (h : ImageOk L d ino) (hp : own L d ino p = some b) : L.nmeta ≤ b ∧ b < L.size :=
  ⟨not_lt.mp (h.ledger.notReserved hp), (h.ledger.mem_used hp).1⟩

theorem bit (h : ImageOk L d ino) (hp : own L d ino p = some b) :
    bitAt L.toSuperblock d b = true := (h.ledger.mem_used hp).2

theorem notMem_used (hfree : bitAt L.toSuperblock d b = false) : b ∉ usedBlocks L d := by
  rintro ⟨-, hbit⟩
  rw [hfree] at hbit
  cases hbit

/-- A block that is free in the map is a data block. -/
theorem nmeta_le (h : ImageOk L d ino) (hfree : bitAt L.toSuperblock d b = false) : L.nmeta ≤ b :=
  not_lt.mp (h.ledger.notReserved_of_free (notMem_used hfree))

theorem own_indirect (hi : i < L.ninodes) (ht : (ino i).type ≠ 0)
    (h : (ino i).addr ndirect ≠ 0) : own L d ino (i, ndirect) = some ((ino i).addr ndirect) := by
  have hplace : place d (ino i) ndirect = (ino i).addr ndirect := place_of_le le_rfl
  rw [← hplace] at h ⊢
  exact own_place hi ht h

/-- What another inode owns is the same when its indirect block does not change. -/
theorem own_other (hino : ino' i = ino i) (hd : ∀ k x, own L d ino (i, k) = some x → d' x = d x)
    (k : Nat) : own L d' ino' (i, k) = own L d ino (i, k) := by
  refine own_congr (by rw [hino]) fun hi ht => ?_
  rw [hino]
  exact place_congr (fun h0 => hd _ _ (own_indirect hi ht h0)) k

/-- The view of an inode none of whose blocks change. -/
theorem view_other (hi : i < L.ninodes) (ht : (ino i).type ≠ 0)
    (hd : ∀ k x, own L d ino (i, k) = some x → d' x = d x) : view d' (ino i) = view d (ino i) :=
  view_congr fun _ h0 => hd _ _ (own_place hi ht h0)

end ImageOk

end Own

/-- What a step on inode `i` leaves alone: the files of the other inodes, and these inodes. -/
structure Apart (L : Layout) (ino : Nat → Dinode) (i : Nat) (d d' : Disk) : Prop where
  view : ∀ i' ≠ i, i' < L.ninodes → (ino i').type ≠ 0 → view d' (ino i') = view d (ino i')
  dinode : ∀ i' ≠ i, i' < L.ninodes →
    dinodeAt L.toSuperblock d' i' = dinodeAt L.toSuperblock d i'

namespace Apart
variable {L : Layout} {ino : Nat → Dinode} {i : Nat} {d d' d'' : Disk} {c : Dinode}

theorem refl : Apart L ino i d d := ⟨fun _ _ _ _ => rfl, fun _ _ _ => rfl⟩

theorem trans (h : Apart L ino i d d') (h' : Apart L ino i d' d'') : Apart L ino i d d'' :=
  ⟨fun i' hne hi ht => (h'.view i' hne hi ht).trans (h.view i' hne hi ht),
    fun i' hne hi => (h'.dinode i' hne hi).trans (h.dinode i' hne hi)⟩

/-- It does not matter what inode `i` itself is. -/
theorem update_iff : Apart L (Function.update ino i c) i d d' ↔ Apart L ino i d d' := by
  constructor
  · rintro ⟨hv, hd⟩
    refine ⟨fun i' hne hi ht => ?_, hd⟩
    have := hv i' hne hi
    rw [Function.update_of_ne hne] at this
    exact this ht
  · rintro ⟨hv, hd⟩
    refine ⟨fun i' hne hi ht => ?_, hd⟩
    rw [Function.update_of_ne hne] at ht ⊢
    exact hv i' hne hi ht

end Apart

/-! ### A block is given to a place -/

theorem read_zeroBlock (o w : Nat) : zeroBlock.read o w = 0 := by
  refine Bytes.read_eq_zero fun i _ _ => ?_
  simp [Bytes.get, zeroBlock]

theorem usedBlocks_allocDisk {L : Layout} {d : Disk} {b : Nat} (hb : b < L.size)
    (hmeta : L.nmeta ≤ b) : usedBlocks L (allocDisk L d b) = insert b (usedBlocks L d) := by
  ext b'
  by_cases hb' : b' < L.size
  · simp only [usedBlocks, Set.mem_ofPred_eq, Set.mem_insert_iff, bitAt_allocDisk L hmeta hb', hb',
      Bool.or_eq_true, decide_eq_true_eq, true_and]
  · have hne : b' ≠ b := fun h => hb' (h ▸ hb)
    simp [usedBlocks, hb', hne]

theorem usedBlocks_update {L : Layout} {d : Disk} {x : Nat} {blk : Block}
    (hx : x < L.bmapstart ∨ L.nmeta ≤ x) :
    usedBlocks L (Function.update d x blk) = usedBlocks L d := by
  ext b
  refine and_congr_right fun hb => ?_
  rw [bitAt_update L hx hb]

section Give
variable {L : Layout} {d d' : Disk} {ino : Nat → Dinode} {i k b bn : Nat} {c' : Dinode}

/-- Block `b`, new and zero, comes to place `k` of inode `i`. -/
structure Given (L : Layout) (d : Disk) (ino : Nat → Dinode) (i k b : Nat) (d' : Disk)
    (c' : Dinode) : Prop where
  ok : ImageOk L d' (Function.update ino i c')
  apart : Apart L ino i d d'
  dinode : ∀ i < L.ninodes, dinodeAt L.toSuperblock d' i = dinodeAt L.toSuperblock d i
  view : ∀ bn, view d' c' bn = if placeOf bn = k then some zeroBlock else view d (ino i) bn
  place : ∀ k' ≠ k, place d' c' k' = place d (ino i) k'
  self : Fs.place d' c' k = b
  ne : b ≠ 0

/-- All a giving has to do, apart from the metadata: nothing but the place of the block and the
indirect block of the inode changes. -/
theorem ImageOk.give (h : ImageOk L d ino) (hi : i < L.ninodes) (ht : (ino i).type ≠ 0)
    (hnone : place d (ino i) k = 0) (hfree : bitAt L.toSuperblock d b = false)
    (hsuper : d' 1 = d 1) (hused : usedBlocks L d' = insert b (usedBlocks L d))
    (hdinode : ∀ i < L.ninodes, dinodeAt L.toSuperblock d' i = dinodeAt L.toSuperblock d i)
    (htype : c'.type = (ino i).type) (hself : place d' c' k = b) (hzero : d' b = zeroBlock)
    (hrest : ∀ k' ≠ k, place d' c' k' = place d (ino i) k')
    (hkeep : ∀ p x, p ≠ (i, ndirect) → own L d ino p = some x → d' x = d x) :
    Given L d ino i k b d' c' := by
  have hb0 : b ≠ 0 := by
    have := h.nmeta_le hfree
    have := L.bmapstart_lt
    omega
  have hothers : ∀ i' ≠ i, ∀ k' x, own L d ino (i', k') = some x → d' x = d x :=
    fun i' hne k' x hx => hkeep _ x (fun heq => hne (congrArg Prod.fst heq)) hx
  have hown : own L d' (Function.update ino i c') =
      Function.update (own L d ino) (i, k) (some b) := by
    funext ⟨i', k'⟩
    by_cases hii : i' = i
    · subst hii
      by_cases hkk : k' = k
      · subst hkk
        rw [Function.update_self, own_eq_some]
        simp only [Function.update_self, htype]
        exact ⟨hi, ht, hself, hb0⟩
      · have hne : (i', k') ≠ (i', k) := fun heq => hkk (congrArg Prod.snd heq)
        rw [Function.update_of_ne hne]
        refine own_congr (by rw [Function.update_self, htype]) fun _ _ => ?_
        rw [Function.update_self]
        exact hrest k' hkk
    · have hne : (i', k') ≠ (i, k) := fun heq => hii (congrArg Prod.fst heq)
      rw [Function.update_of_ne hne]
      exact own_other (Function.update_of_ne hii _ _) (hothers i' hii) k'
  have hplace : own L d ino (i, k) = none := by
    rw [own, if_neg]
    exact fun hp => hp.2.2 hnone
  refine ⟨⟨by rw [hsuper]; exact h.super, ?_⟩, ⟨fun i' hne hi' ht' => ?_, fun i' _ => hdinode i'⟩,
    hdinode, fun bn => ?_, hrest, hself, hb0⟩
  · rw [hown, hused]
    exact h.ledger.give hplace (notMem_used hfree)
  · exact view_other hi' ht' (hothers i' hne)
  · rw [Fs.view]
    by_cases hbn : placeOf bn = k
    · rw [if_pos hbn, hbn, hself, if_neg hb0, hzero]
    · rw [if_neg hbn, hrest _ hbn, Fs.view]
      split
      · rfl
      · rename_i hne
        have hp : (i, placeOf bn) ≠ (i, ndirect) :=
          fun heq => placeOf_ne bn (congrArg Prod.snd heq)
        rw [hkeep _ _ hp (own_place hi ht hne)]

variable (h : ImageOk L d ino) (hi : i < L.ninodes) (ht : (ino i).type ≠ 0) (hb : b < L.size)
  (hfree : bitAt L.toSuperblock d b = false)
include h hfree hb

/-- The blocks at places stay as they are when `balloc` takes a free one. -/
theorem ImageOk.allocDisk_own {p : Nat × Nat} {x : Nat} (hp : own L d ino p = some x) :
    allocDisk L d b x = d x := by
  refine allocDisk_of_ne L (.inr (h.range hp).1) hb ?_
  rintro rfl
  exact h.ledger.ne_of_free (notMem_used hfree) p hp

theorem ImageOk.allocDisk_one : allocDisk L d b 1 = d 1 := by
  have hmeta := h.nmeta_le hfree
  have hlow := L.one_lt_bmapstart
  have hhigh := L.bmapstart_lt
  exact allocDisk_of_ne L (.inl hlow) hb (by omega)

include hi ht

/-- **A new block becomes an address of the inode.** -/
theorem ImageOk.giveAddr (hk : k ≤ ndirect) (h0 : (ino i).addr k = 0) :
    Given L d ino i k b (allocDisk L d b) ((ino i).setAddr k b) := by
  have hmeta := h.nmeta_le hfree
  have hb32 : b < 2 ^ 32 := by
    have := L.size_lt
    omega
  have hb0 : b ≠ 0 := by
    have := L.bmapstart_lt
    omega
  refine h.give hi ht (by rw [place_of_le hk, h0]) hfree (h.allocDisk_one hb hfree)
    (usedBlocks_allocDisk hb hmeta) (fun i' hi' => dinodeAt_allocDisk L hmeta hi') rfl
    (by rw [place_of_le hk, Dinode.addr_setAddr_self _ hk hb32]) (allocDisk_self L)
    (fun k' hk' => ?_) (fun p x _ hp => h.allocDisk_own hb hfree hp)
  by_cases hle : k' ≤ ndirect
  · rw [place_of_le hle, place_of_le hle, Dinode.addr_setAddr_of_ne _ _ hk']
  · rw [place, place, if_neg hle, if_neg hle, entry, entry]
    by_cases hind : k = ndirect
    · -- the new indirect block is zero
      subst hind
      rw [Dinode.addr_setAddr_self _ hk hb32, if_neg hb0, allocDisk_self, read_zeroBlock, if_pos h0]
    · rw [Dinode.addr_setAddr_of_ne _ _ (Ne.symm hind)]
      split
      · rfl
      · rename_i hne
        rw [h.allocDisk_own hb hfree (own_indirect hi ht hne)]

/-- **A new block becomes an entry of the indirect block.** -/
theorem ImageOk.giveEntry {j : Nat} (hj : j < nindirect) (hx : (ino i).addr ndirect ≠ 0)
    (h0 : entry d (ino i) j = 0) :
    Given L d ino i (ndirect + 1 + j) b
      (Function.update (allocDisk L d b) ((ino i).addr ndirect)
        ((allocDisk L d b ((ino i).addr ndirect)).write (4 * j) 4 b)) (ino i) := by
  have hmeta := h.nmeta_le hfree
  have hxown : own L d ino (i, ndirect) = some ((ino i).addr ndirect) := own_indirect hi ht hx
  have hxrange := h.range hxown
  have hbx : b ≠ (ino i).addr ndirect := by
    rintro rfl
    exact h.ledger.ne_of_free (notMem_used hfree) _ hxown
  have hfit : 4 * j + 4 ≤ bsize := by
    simp only [nindirect, bsize] at *
    omega
  have hb32 : b < 256 ^ 4 := by
    have := L.size_lt
    omega
  have hone : 1 ≠ (ino i).addr ndirect := by
    have := L.one_lt_bmapstart
    have := L.bmapstart_lt
    omega
  have hentry : ∀ j', entry (Function.update (allocDisk L d b) ((ino i).addr ndirect)
      ((allocDisk L d b ((ino i).addr ndirect)).write (4 * j) 4 b)) (ino i) j' =
      ((d ((ino i).addr ndirect)).write (4 * j) 4 b).read (4 * j') 4 := by
    intro j'
    rw [entry, if_neg hx, Function.update_self, h.allocDisk_own hb hfree hxown]
  refine h.give hi ht (by rw [place_entry, h0]) hfree ?_ ?_ ?_ rfl ?_ ?_ ?_ ?_
  · rw [Function.update_of_ne hone, h.allocDisk_one hb hfree]
  · rw [usedBlocks_update (.inr hxrange.1), usedBlocks_allocDisk hb hmeta]
  · intro i' hi'
    rw [dinodeAt_update L (L.bmapstart_lt.le.trans hxrange.1) hi', dinodeAt_allocDisk L hmeta hi']
  · rw [place_entry, hentry, Bytes.read_write_self hfit hb32]
  · rw [Function.update_of_ne hbx, allocDisk_self]
  · intro k' hk'
    by_cases hle : k' ≤ ndirect
    · rw [place_of_le hle, place_of_le hle]
    · obtain ⟨j', rfl⟩ := Nat.exists_eq_add_of_le (Nat.succ_le_of_lt (not_le.mp hle))
      rw [place_entry, place_entry, hentry, entry, if_neg hx, Bytes.read_write_of_disjoint (by omega)]
  · intro p y hp hy
    have hyx : y ≠ (ino i).addr ndirect := by
      rintro rfl
      exact hp (h.ledger.inj hy hxown)
    rw [Function.update_of_ne hyx, h.allocDisk_own hb hfree hy]

end Give

/-! ### A block of a file is written -/

section Write
variable {L : Layout} {d d' : Disk} {ino : Nat → Dinode} {i bn x : Nat} {blk : Block} {c' : Dinode}

/-- Block `bn` of the file of inode `i` becomes `blk`, where it is. -/
structure Wrote (L : Layout) (d : Disk) (ino : Nat → Dinode) (i bn : Nat) (blk : Block)
    (d' : Disk) : Prop where
  ok : ImageOk L d' ino
  apart : Apart L ino i d d'
  dinode : ∀ i < L.ninodes, dinodeAt L.toSuperblock d' i = dinodeAt L.toSuperblock d i
  view : view d' (ino i) = Function.update (view d (ino i)) bn (some blk)
  place : ∀ k, place d' (ino i) k = place d (ino i) k

/-- The image after a change that leaves the indirect blocks and the metadata alone. -/
theorem ImageOk.of_keep (h : ImageOk L d ino) (hsuper : d' 1 = d 1)
    (hused : usedBlocks L d' = usedBlocks L d)
    (hkeep : ∀ i x, own L d ino (i, ndirect) = some x → d' x = d x) : ImageOk L d' ino := by
  have hown : own L d' ino = own L d ino := by
    funext ⟨i', k'⟩
    refine own_congr Iff.rfl fun hi' ht' => ?_
    exact place_congr (fun h0 => hkeep i' _ (own_indirect hi' ht' h0)) k'
  refine ⟨by rw [hsuper]; exact h.super, ?_⟩
  rw [hown, hused]
  exact h.ledger

/-- **A block of a file is written**: of all views only that block of that file changes. -/
theorem ImageOk.writeData (h : ImageOk L d ino) (hi : i < L.ninodes) (ht : (ino i).type ≠ 0)
    (hx : place d (ino i) (placeOf bn) = x) (hx0 : x ≠ 0) :
    Wrote L d ino i bn blk (Function.update d x blk) := by
  subst hx
  have hxown := own_place hi ht hx0
  have hrange := h.range hxown
  have hone : 1 ≠ place d (ino i) (placeOf bn) := by
    have := L.one_lt_bmapstart
    have := L.bmapstart_lt
    omega
  have hkeep : ∀ p y, p ≠ (i, placeOf bn) → own L d ino p = some y →
      Function.update d (place d (ino i) (placeOf bn)) blk y = d y := by
    intro p y hp hy
    refine Function.update_of_ne ?_ _ _
    rintro rfl
    exact hp (h.ledger.inj hy hxown)
  have hind : ∀ i' y, own L d ino (i', ndirect) = some y →
      Function.update d (place d (ino i) (placeOf bn)) blk y = d y :=
    fun i' y => hkeep _ y fun heq => placeOf_ne bn (congrArg Prod.snd heq).symm
  have hdinode : ∀ i' < L.ninodes, dinodeAt L.toSuperblock
      (Function.update d (place d (ino i) (placeOf bn)) blk) i' = dinodeAt L.toSuperblock d i' :=
    fun i' hi' => dinodeAt_update L (L.bmapstart_lt.le.trans hrange.1) hi'
  have hplace : ∀ k, place (Function.update d (place d (ino i) (placeOf bn)) blk) (ino i) k =
      place d (ino i) k :=
    place_congr fun h0 => hind i _ (own_indirect hi ht h0)
  refine ⟨h.of_keep (Function.update_of_ne hone _ _) (usedBlocks_update (.inr hrange.1)) hind,
    ⟨fun i' hne hi' ht' => ?_, fun i' _ => hdinode i'⟩, hdinode, ?_, hplace⟩
  · refine view_other hi' ht' fun k y hy => hkeep _ y ?_ hy
    exact fun heq => hne (congrArg Prod.fst heq)
  · funext bn'
    rw [Fs.view, hplace]
    by_cases hbn : bn' = bn
    · subst hbn
      rw [if_neg hx0, Function.update_self, Function.update_self]
    · rw [Function.update_of_ne hbn, Fs.view]
      split
      · rfl
      · rename_i hne
        have hp : (i, placeOf bn') ≠ (i, placeOf bn) :=
          fun heq => hbn (placeOf_inj (congrArg Prod.snd heq))
        rw [hkeep _ _ hp (own_place hi ht hne)]

/-! ### Inodes are stored, changed and truncated -/

/-- A store to a block of inodes changes no file. -/
theorem ImageOk.inodeBlock (h : ImageOk L d ino) (blk : Block) (hlow : 1 < x) (hhigh : x < L.bmapstart) :
    ImageOk L (Function.update d x blk) ino ∧ ∀ i < L.ninodes, (ino i).type ≠ 0 →
      view (Function.update d x blk) (ino i) = view d (ino i) := by
  have hkeep : ∀ p y, own L d ino p = some y → Function.update d x blk y = d y := by
    intro p y hy
    have := h.range hy
    have := L.bmapstart_lt
    exact Function.update_of_ne (by omega) _ _
  refine ⟨h.of_keep (Function.update_of_ne hlow.ne _ _) (usedBlocks_update (.inl hhigh))
    fun i' y => hkeep _ y, fun i' hi' ht' => ?_⟩
  exact view_other hi' ht' fun k y => hkeep _ y

/-- An inode is changed in memory, but not what it owns. -/
theorem ImageOk.setIno (h : ImageOk L d ino)
    (hown : ∀ k, own L d (Function.update ino i c') (i, k) = own L d ino (i, k)) :
    ImageOk L d (Function.update ino i c') := by
  have hall : own L d (Function.update ino i c') = own L d ino := by
    funext ⟨i', k'⟩
    by_cases hii : i' = i
    · rw [hii, hown]
    · exact own_other (Function.update_of_ne hii _ _) (fun _ _ _ => rfl) k'
  refine ⟨h.super, ?_⟩
  rw [hall]
  exact h.ledger

/-- **A file is truncated**: its blocks are free, and its inode has no addresses. -/
theorem ImageOk.trunc (h : ImageOk L d ino) (hsuper : d' 1 = d 1)
    (hused : usedBlocks L d' = usedBlocks L d \ {b | ∃ k, own L d ino (i, k) = some b})
    (hkeep : ∀ x, L.nmeta ≤ x → d' x = d x) (hc : ∀ k, c'.addr k = 0) :
    ImageOk L d' (Function.update ino i c') := by
  classical
  have hplace : ∀ k, place d' c' k = 0 := by
    intro k
    rw [place, entry, hc, hc]
    split <;> rfl
  have hown : own L d' (Function.update ino i c') =
      fun p => if p ∈ {p : Nat × Nat | p.1 = i} then none else own L d ino p := by
    funext ⟨i', k'⟩
    by_cases hii : i' = i
    · subst hii
      have hmem : (i', k') ∈ {p : Nat × Nat | p.1 = i'} := rfl
      rw [if_pos hmem, own, if_neg]
      rintro ⟨-, -, hne⟩
      rw [Function.update_self] at hne
      exact hne (hplace k')
    · have hmem : (i', k') ∉ {p : Nat × Nat | p.1 = i} := hii
      rw [if_neg hmem]
      exact own_other (Function.update_of_ne hii _ _) (fun k x hx => hkeep x (h.range hx).1) k'
  have hset : {b | ∃ k, own L d ino (i, k) = some b} =
      {b | ∃ p ∈ {p : Nat × Nat | p.1 = i}, own L d ino p = some b} := by
    ext b
    constructor
    · rintro ⟨k, hk⟩
      exact ⟨(i, k), rfl, hk⟩
    · rintro ⟨⟨i', k⟩, rfl, hk⟩
      exact ⟨k, hk⟩
  refine ⟨by rw [hsuper]; exact h.super, ?_⟩
  rw [hown, hused, hset]
  exact h.ledger.clear _

end Write

end Xv6.Fs
