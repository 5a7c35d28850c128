import Xv6.Fs.Image
import Xv6.Fs.Inode

/-!
# Fs — the blocks of a file

What `bmap` and `itrunc` do to an image.  `Holds` says that an entry of the inode cache has inode
`i` of the image; the entry may be ahead of the inode on the disk.
-/

namespace Xv6.Fs
open Lib Lib.Prog

/-- The state with another disk, after these `log_write`s, and another copy of an inode. -/
def State.put (s : State) (ip : Slot) (d : Disk) (l : List Nat) (c : Dinode) : State :=
  { s with
    disk := d, logged := l
    icache := Function.update s.icache ip { s.icache ip with copy := c } }

section Put
variable (s : State) (ip : Slot) (d d' : Disk) (l l' : List Nat) (c c' : Dinode)

@[simp] theorem State.put_disk : (s.put ip d l c).disk = d := rfl

@[simp] theorem State.put_logged : (s.put ip d l c).logged = l := rfl

@[simp] theorem State.put_inum (ip' : Slot) :
    ((s.put ip d l c).icache ip').inum = (s.icache ip').inum := by
  by_cases h : ip' = ip
  · simp [State.put, h]
  · simp [State.put, h]

@[simp] theorem State.put_copy : ((s.put ip d l c).icache ip).copy = c := by
  simp [State.put]

@[simp] theorem State.put_put : (s.put ip d l c).put ip d' l' c' = s.put ip d' l' c' := by
  simp [State.put]

theorem State.put_self : s.put ip s.disk s.logged (s.icache ip).copy = s := by
  simp [State.put]

theorem State.put_withDisk : (s.put ip d l c).withDisk d' l' = s.put ip d' l' c := rfl

theorem wp_setCopy {f : Dinode → Dinode} {E : Stop → Prop} {Q : Unit → State → Prop} :
    Wp (setCopy ip f) s E Q ↔ Q () (s.put ip s.disk s.logged (f (s.icache ip).copy)) := by
  simp only [setCopy, setInode, wp_modify]
  rfl

end Put

/-- The entry `ip` of the inode cache has inode `i` of the image. -/
structure Holds (L : Layout) (s : State) (ino : Nat → Dinode) (ip : Slot) (i : Nat) : Prop where
  sb : s.sb = L.toSuperblock
  image : ImageOk L s.disk ino
  lt : i < L.ninodes
  copy : (s.icache ip).copy = ino i
  type : (ino i).type ≠ 0

theorem Holds.put {L : Layout} {s : State} {ino : Nat → Dinode} {ip : Slot} {i : Nat} {d : Disk}
    {l : List Nat} {c : Dinode} (h : Holds L s ino ip i)
    (hok : ImageOk L d (Function.update ino i c)) (ht : c.type = (ino i).type) :
    Holds L (s.put ip d l c) (Function.update ino i c) ip i := by
  refine ⟨h.sb, hok, h.lt, ?_, ?_⟩
  · rw [State.put_copy, Function.update_self]
  · rw [Function.update_self, ht]
    exact h.type

/-! ### `bmap` -/

section Bmap
variable {L : Layout} {s : State} {ino : Nat → Dinode} {ip : Slot} {i k bn : Nat}

/-- An address of the inode is there, or `balloc` finds a block for it. -/
theorem addrOf_wp (h : Holds L s ino ip i) (hk : k ≤ ndirect) :
    Wp (addrOf ip k) s (· = .outOfBlocks) fun b s' =>
      (b = (ino i).addr k ∧ b ≠ 0 ∧ s' = s) ∨
      ((ino i).addr k = 0 ∧ ∃ d', Given L s.disk ino i k b d' ((ino i).setAddr k b) ∧ b < L.size ∧
        s' = s.put ip d' (b :: L.bblock b :: s.logged) ((ino i).setAddr k b)) := by
  simp only [addrOf, inode, wp_bind, wp_gets]
  rw [h.copy]
  split
  · rename_i h0
    refine (balloc_wp h.sb).bind ?_
    rintro b s' ⟨hb, hfree, rfl⟩
    simp only [setCopy, setInode, wp_bind, wp_modify, wp_pure]
    refine .inr ⟨h0, _, h.image.giveAddr h.lt h.type hb hfree hk h0, hb, ?_⟩
    simp only [State.withDisk, State.put, ← h.copy]
  · rename_i h0
    exact wp_pure.mpr (.inl ⟨rfl, h0, rfl⟩)

/-- An entry of the indirect block is there, or `balloc` finds a block for it. -/
theorem entryOf_wp {j : Nat} (h : Holds L s ino ip i) (hx : (ino i).addr ndirect ≠ 0)
    (hj : j < nindirect) :
    Wp (entryOf ((ino i).addr ndirect) j) s (· = .outOfBlocks) fun b s' =>
      (b = entry s.disk (ino i) j ∧ b ≠ 0 ∧ s' = s) ∨
      (entry s.disk (ino i) j = 0 ∧
        ∃ d', Given L s.disk ino i (ndirect + 1 + j) b d' (ino i) ∧ b < L.size ∧
          s' = s.put ip d' ((ino i).addr ndirect :: b :: L.bblock b :: s.logged) (ino i)) := by
  have hentry : entry s.disk (ino i) j = (s.disk ((ino i).addr ndirect)).read (4 * j) 4 :=
    if_neg hx
  simp only [entryOf, bread, wp_bind, wp_gets]
  rw [← hentry]
  split
  · rename_i h0
    refine (balloc_wp h.sb).bind ?_
    rintro b s' ⟨hb, hfree, rfl⟩
    simp only [logWrite, wp_bind, wp_gets, wp_modify, wp_pure]
    refine .inr ⟨h0, _, h.image.giveEntry h.lt h.type hb hfree hj hx h0, hb, ?_⟩
    rw [State.put, ← h.copy, Function.update_eq_self]
    rfl
  · rename_i h0
    exact wp_pure.mpr (.inl ⟨rfl, h0, rfl⟩)

/-- What `bmap` does for block `bn` of inode `i`: it is at `b` in the end, and if it was there before
nothing has changed.  `logs` are the blocks it passes to `log_write`. -/
structure Mapped (L : Layout) (ino : Nat → Dinode) (i bn : Nat) (d : Disk) (l : List Nat) (b : Nat)
    (d' : Disk) (l' : List Nat) (c' : Dinode) : Prop where
  ok : ImageOk L d' (Function.update ino i c')
  apart : Apart L ino i d d'
  dinode : ∀ i < L.ninodes, dinodeAt L.toSuperblock d' i = dinodeAt L.toSuperblock d i
  view_eq : view d' c' =
    Function.update (view d (ino i)) bn (some ((view d (ino i) bn).getD zeroBlock))
  place_eq : place d' c' (placeOf bn) = b
  ne : b ≠ 0
  keep : ∀ k, place d (ino i) k ≠ 0 → place d' c' k = place d (ino i) k
  fields : c' = { ino i with addrs := c'.addrs }
  same : view d (ino i) bn ≠ none → d' = d ∧ l' = l ∧ c' = ino i
  logs : ∀ x, x ∈ l' ↔ x ∈ l ∨ view d (ino i) bn = none ∧
    (x = b ∨ x = L.bblock b ∨ ndirect ≤ bn ∧
      (x = c'.addr ndirect ∨ (ino i).addr ndirect = 0 ∧ x = L.bblock (c'.addr ndirect)))

theorem placeOf_of_ge (h : ndirect ≤ bn) : placeOf bn = ndirect + 1 + (bn - ndirect) := by
  rw [placeOf, if_neg (not_lt.mpr h)]
  omega

theorem placeOf_of_lt (h : bn < ndirect) : placeOf bn = bn := if_pos h

section Mapped
variable {d d₁ d' : Disk} {l l' : List Nat} {c₁ c' : Dinode} {b x : Nat}

/-- The block is there. -/
theorem Mapped.refl (h : ImageOk L d ino) (hb : place d (ino i) (placeOf bn) = b) (hne : b ≠ 0) :
    Mapped L ino i bn d l b d l (ino i) := by
  have hview : view d (ino i) bn = some (d b) := by
    rw [view, hb, if_neg hne]
  refine ⟨by rwa [Function.update_eq_self], .refl, fun _ _ => rfl, ?_, hb, hne, fun _ _ => rfl, rfl,
    fun _ => ⟨rfl, rfl, rfl⟩, fun x => ?_⟩
  · rw [hview, Option.getD_some, ← hview, Function.update_eq_self]
  · simp [hview]

/-- A block is found for it, at an address or an entry there is. -/
theorem Mapped.of_given (h : Given L d ino i k b d' c') (hk : placeOf bn = k)
    (h0 : place d (ino i) (placeOf bn) = 0) (hfields : c' = { ino i with addrs := c'.addrs })
    (hlogs : ∀ x, x ∈ l' ↔ x ∈ l ∨ x = b ∨ x = L.bblock b ∨ ndirect ≤ bn ∧
      (x = c'.addr ndirect ∨ (ino i).addr ndirect = 0 ∧ x = L.bblock (c'.addr ndirect))) :
    Mapped L ino i bn d l b d' l' c' := by
  subst hk
  have hview : view d (ino i) bn = none := if_pos h0
  have hkeep : ∀ k, place d (ino i) k ≠ 0 → place d' c' k = place d (ino i) k :=
    fun k hk => h.place k fun heq => hk (heq ▸ h0)
  refine ⟨h.ok, h.apart, h.dinode, ?_, h.self, h.ne, hkeep, hfields, fun hne => absurd hview hne,
    fun x => ?_⟩
  · funext bn'
    rw [h.view, hview, Option.getD_none]
    by_cases hbn : bn' = bn
    · rw [hbn, if_pos rfl, Function.update_self]
    · rw [if_neg (fun heq => hbn (placeOf_inj heq)), Function.update_of_ne hbn]
  · simp only [hlogs, hview, true_and]

/-- An indirect block is found first. -/
theorem Mapped.after_given (h : Given L d ino i ndirect x d₁ c₁) (h0 : (ino i).addr ndirect = 0)
    (hbn : ndirect ≤ bn) (hfields : c₁ = { ino i with addrs := c₁.addrs })
    (hm : Mapped L (Function.update ino i c₁) i bn d₁ (x :: L.bblock x :: l) b d' l' c')
    (hc : c' = c₁) : Mapped L ino i bn d l b d' l' c' := by
  subst hc
  have hx : c'.addr ndirect = x := (place_of_le le_rfl).symm.trans h.self
  subst hx
  have hview₁ : view d₁ c' = view d (ino i) := by
    funext bn'
    rw [h.view, if_neg (placeOf_ne bn')]
  have hnone : view d (ino i) bn = none := by
    refine if_pos ?_
    rw [placeOf_of_ge hbn, place_entry, entry, if_pos h0]
  have hkeep₁ : ∀ k, place d (ino i) k ≠ 0 → place d₁ c' k = place d (ino i) k := by
    intro k hk
    refine h.place k ?_
    rintro rfl
    exact hk ((place_of_le le_rfl).trans h0)
  obtain ⟨hok, hapart, hdinode, hview, hplace, hne, hkeep, -, -, hlogs⟩ := hm
  rw [Function.update_self, hview₁] at hview
  rw [Function.update_idem] at hok
  refine ⟨hok, h.apart.trans (Apart.update_iff.mp hapart),
    fun i hi => (hdinode i hi).trans (h.dinode i hi), hview, hplace, hne, fun k hk => ?_, hfields,
    fun hsome => absurd hnone hsome, fun y => ?_⟩
  · rw [Function.update_self] at hkeep
    exact (hkeep k (by rwa [hkeep₁ k hk])).trans (hkeep₁ k hk)
  · rw [hlogs, Function.update_self, hview₁]
    simp only [hnone, h0, hbn, List.mem_cons, true_and]
    constructor
    · rintro ((hy | hy | hy) | hy | hy | hy | ⟨-, hy⟩) <;> simp [hy]
    · rintro (hy | hy | hy | hy | hy) <;> simp [hy]

/-- A block is found for an address. -/
theorem Mapped.of_addr (h : Given L d ino i bn b d' ((ino i).setAddr bn b)) (hlt : bn < ndirect)
    (h0 : (ino i).addr bn = 0) :
    Mapped L ino i bn d l b d' (b :: L.bblock b :: l) ((ino i).setAddr bn b) := by
  refine .of_given h (placeOf_of_lt hlt) ?_ rfl fun x => ?_
  · rw [placeOf_of_lt hlt, place_of_le hlt.le, h0]
  · simp only [List.mem_cons, hlt.not_ge, false_and, or_false]
    tauto

/-- A block is found for an entry of the indirect block. -/
theorem Mapped.of_entry (h : Given L d ino i (ndirect + 1 + (bn - ndirect)) b d' (ino i))
    (hge : ndirect ≤ bn) (hx : (ino i).addr ndirect ≠ 0) (h0 : entry d (ino i) (bn - ndirect) = 0) :
    Mapped L ino i bn d l b d' ((ino i).addr ndirect :: b :: L.bblock b :: l) (ino i) := by
  refine .of_given h (placeOf_of_ge hge) ?_ rfl fun x => ?_
  · rw [placeOf_of_ge hge, place_entry, h0]
  · simp only [List.mem_cons, hge, hx, true_and, false_and, or_false]
    tauto

/-- The entries of a new indirect block are zero. -/
theorem Given.entry_eq_zero (h : Given L d ino i ndirect x d₁ c₁) (h0 : (ino i).addr ndirect = 0)
    (j : Nat) : entry d₁ c₁ j = 0 := by
  have := h.place (ndirect + 1 + j) (by omega)
  rw [place_entry, place_entry] at this
  rw [this, entry, if_pos h0]

/-- Blocks are found for the indirect block and for an entry of it. -/
theorem Mapped.of_both (h₁ : Given L d ino i ndirect x d₁ c₁) (h0 : (ino i).addr ndirect = 0)
    (hge : ndirect ≤ bn) (hfields : c₁ = { ino i with addrs := c₁.addrs })
    (h : Given L d₁ (Function.update ino i c₁) i (ndirect + 1 + (bn - ndirect)) b d' c₁) :
    Mapped L ino i bn d l b d' (x :: b :: L.bblock b :: x :: L.bblock x :: l) c₁ := by
  have hx : c₁.addr ndirect = x := (place_of_le le_rfl).symm.trans h₁.self
  have hentry : Mapped L (Function.update ino i c₁) i bn d₁ (x :: L.bblock x :: l) b d'
      (x :: b :: L.bblock b :: x :: L.bblock x :: l) c₁ := by
    have := Mapped.of_entry (l := x :: L.bblock x :: l)
      (show Given L d₁ (Function.update ino i c₁) i (ndirect + 1 + (bn - ndirect)) b d'
        (Function.update ino i c₁ i) by rwa [Function.update_self]) hge
      (by rw [Function.update_self, hx]; exact h₁.ne)
      (by rw [Function.update_self]; exact h₁.entry_eq_zero h0 _)
    rwa [Function.update_self, hx] at this
  exact .after_given h₁ h0 hge hfields hentry rfl

/-- The blocks `bmap` passes to `log_write`, when the free map is one block. -/
theorem Mapped.logs_one (hm : Mapped L ino i bn d l b d' l' c') (hi : i < L.ninodes)
    (ht : (ino i).type ≠ 0) (hone : L.size ≤ bpb) (x : Nat) :
    x ∈ l' ↔ x ∈ l ∨ view d (ino i) bn = none ∧
      (x = b ∨ x = L.bmapstart ∨ ndirect ≤ bn ∧ x = c'.addr ndirect) := by
  have htype : (Function.update ino i c' i).type ≠ 0 := by
    rw [Function.update_self, hm.fields]
    exact ht
  have hblock : ∀ {k a}, place d' c' k = a → a ≠ 0 → L.bblock a = L.bmapstart := by
    rintro k a rfl ha
    have hown : own L d' (Function.update ino i c') (i, k) = some (place d' c' k) := by
      rw [own_eq_some]
      simp only [Function.update_self] at htype ⊢
      exact ⟨hi, htype, trivial, ha⟩
    have hlt := (hm.ok.range hown).2
    rw [Superblock.bblock, Nat.div_eq_of_lt (hlt.trans_le hone), Nat.zero_add]
  rw [hm.logs, hblock hm.place_eq hm.ne]
  refine or_congr_right (and_congr_right fun _ => or_congr_right ?_)
  by_cases hbn : ndirect ≤ bn
  · have hx0 : c'.addr ndirect ≠ 0 := by
      intro h0
      have := hm.place_eq
      rw [placeOf_of_ge hbn, place_entry, entry, if_pos h0] at this
      exact hm.ne this.symm
    rw [hblock (place_of_le le_rfl) hx0]
    simp only [hbn, true_and]
    constructor
    · rintro (h | h | ⟨-, h⟩) <;> simp [h]
    · rintro (h | h) <;> simp [h]
  · simp [hbn]

end Mapped

/-- `bmap` of a block that is there. -/
theorem bmap_of_mapped {E : Stop → Prop} (h : Holds L s ino ip i)
    (hview : view s.disk (ino i) bn ≠ none) (hbn : bn < maxfile) :
    Wp (bmap ip bn) s E fun b s' => s' = s ∧ view s.disk (ino i) bn = some (s.disk b) := by
  have h0 : place s.disk (ino i) (placeOf bn) ≠ 0 := fun h0 => hview (if_pos h0)
  have hsome : view s.disk (ino i) bn = some (s.disk (place s.disk (ino i) (placeOf bn))) :=
    if_neg h0
  unfold bmap
  by_cases hlt : bn < ndirect
  · rw [placeOf_of_lt hlt, place_of_le hlt.le] at h0 hsome
    rw [if_pos hlt]
    simp only [addrOf, inode, wp_bind, wp_gets, h.copy]
    rw [if_neg h0]
    exact wp_pure.mpr ⟨rfl, hsome⟩
  · rw [placeOf_of_ge (not_lt.mp hlt), place_entry] at h0 hsome
    have hx : (ino i).addr ndirect ≠ 0 := fun hx => h0 (if_pos hx)
    rw [entry, if_neg hx] at h0 hsome
    have hj : bn - ndirect < nindirect := by
      simp only [maxfile] at hbn
      omega
    rw [if_neg hlt, if_pos hj]
    simp only [addrOf, entryOf, inode, bread, wp_bind, wp_gets, h.copy]
    rw [if_neg hx]
    simp only [wp_pure]
    rw [if_neg h0]
    exact wp_pure.mpr ⟨rfl, hsome⟩

/-- **`bmap` finds block `bn` of the file, or makes it.**  It does not panic on a block number below
`MAXFILE`. -/
theorem bmap_wp (h : Holds L s ino ip i) (hbn : bn < maxfile) :
    Wp (bmap ip bn) s (· = .outOfBlocks) fun b s' =>
      ∃ d' l' c', Mapped L ino i bn s.disk s.logged b d' l' c' ∧ s' = s.put ip d' l' c' := by
  have hself : s = s.put ip s.disk s.logged (ino i) := by
    rw [← h.copy, State.put_self]
  unfold bmap
  by_cases hlt : bn < ndirect
  · rw [if_pos hlt]
    have hplace : place s.disk (ino i) (placeOf bn) = (ino i).addr bn := by
      rw [placeOf_of_lt hlt, place_of_le hlt.le]
    refine (addrOf_wp h hlt.le).post ?_
    rintro b s' (⟨rfl, hne, rfl⟩ | ⟨h0, d', hg, -, rfl⟩)
    · exact ⟨_, _, _, .refl h.image hplace hne, hself⟩
    · exact ⟨d', _, _, .of_addr hg hlt h0, rfl⟩
  · have hge : ndirect ≤ bn := not_lt.mp hlt
    have hj : bn - ndirect < nindirect := by
      simp only [maxfile] at hbn
      omega
    rw [if_neg hlt, if_pos hj]
    refine (addrOf_wp h le_rfl).bind ?_
    rintro addr s₁ (⟨rfl, hne, rfl⟩ | ⟨h0, d₁, hg₁, -, rfl⟩)
    · refine (entryOf_wp h hne hj).post ?_
      rintro b s' (⟨hb, hb0, rfl⟩ | ⟨hb0, d', hg, -, rfl⟩)
      · refine ⟨_, _, _, .refl h.image ?_ hb0, hself⟩
        rw [placeOf_of_ge hge, place_entry, hb]
      · exact ⟨d', _, _, .of_entry hg hge hne hb0, rfl⟩
    · -- the indirect block is new, so that its entries are zero
      have h₁ : Holds L (s.put ip d₁ (addr :: L.bblock addr :: s.logged)
          ((ino i).setAddr ndirect addr)) _ ip i := h.put hg₁.ok rfl
      have haddr : ((ino i).setAddr ndirect addr).addr ndirect = addr :=
        (place_of_le le_rfl).symm.trans hg₁.self
      have hstep := entryOf_wp h₁ (by rw [Function.update_self, haddr]; exact hg₁.ne) hj
      simp only [Function.update_self, haddr] at hstep
      refine hstep.post ?_
      rintro b s' (⟨hb, hb0, -⟩ | ⟨-, d', hg, -, rfl⟩)
      · exact absurd (hb.trans (hg₁.entry_eq_zero h0 _)) hb0
      · exact ⟨d', _, _, .of_both hg₁ h0 hge rfl hg, State.put_put ..⟩

end Bmap

/-! ### `itrunc` -/

/-- The inode of an empty file. -/
def Dinode.trunc (c : Dinode) : Dinode := { c with size := 0, addrs := fun _ => 0 }

theorem Dinode.addrs_eq_zero {c : Dinode} (h : ∀ k, c.addr k = 0) : c.addrs = fun _ => 0 := by
  funext j
  have hj := h j.val
  rw [Dinode.addr, dif_pos j.isLt] at hj
  exact UInt32.toNat_inj.mp hj

theorem Dinode.addr_trunc (c : Dinode) (k : Nat) : c.trunc.addr k = 0 := by
  unfold Dinode.addr Dinode.trunc
  split <;> rfl

/-- The blocks at the places `ks` of inode `i`. -/
def ownedBy (L : Layout) (d : Disk) (ino : Nat → Dinode) (i : Nat) (ks : Set Nat) : Set Nat :=
  {x | ∃ k ∈ ks, own L d ino (i, k) = some x}

/-- The blocks in `S` are freed: nothing but the free map changes. -/
structure Freed (L : Layout) (d : Disk) (S : Set Nat) (d' : Disk) : Prop where
  bit : ∀ b, bitAt L.toSuperblock d' b = true ↔ bitAt L.toSuperblock d b = true ∧ b ∉ S
  keep : ∀ x, x < L.bmapstart ∨ L.nmeta ≤ x → d' x = d x

section Trunc
variable {L : Layout} {s : State} {ino : Nat → Dinode} {ip : Slot} {i k a : Nat} {ks : Set Nat}
  {d d' : Disk} {E : Stop → Prop}

theorem Freed.refl : Freed L d (ownedBy L d ino i ∅) d := by
  refine ⟨fun b => ?_, fun _ _ => rfl⟩
  have hnot : b ∉ ownedBy L d ino i ∅ := by
    rintro ⟨k, hk, -⟩
    exact hk
  exact ⟨fun h => ⟨h, hnot⟩, fun h => h.1⟩

/-- A place that owns nothing has nothing to free. -/
theorem Freed.skip (h : Freed L d (ownedBy L d ino i ks) d') (hk : own L d ino (i, k) = none) :
    Freed L d (ownedBy L d ino i (insert k ks)) d' := by
  have heq : ownedBy L d ino i (insert k ks) = ownedBy L d ino i ks := by
    ext x
    constructor
    · rintro ⟨k', rfl | hk', hx⟩
      · rw [hk] at hx
        cases hx
      · exact ⟨k', hk', hx⟩
    · rintro ⟨k', hk', hx⟩
      exact ⟨k', .inr hk', hx⟩
  rwa [heq]

/-- The next place is freed.  Its block is still in use, since no other place has it. -/
theorem Freed.step (h : Freed L d (ownedBy L d ino i ks) d') (hok : ImageOk L d ino) (hk : k ∉ ks)
    (ha : own L d ino (i, k) = some a) :
    bitAt L.toSuperblock d' a = true ∧
      Freed L d (ownedBy L d ino i (insert k ks)) (freeDisk L d' a) := by
  have hnot : a ∉ ownedBy L d ino i ks := by
    rintro ⟨k', hk', ha'⟩
    have heq := congrArg Prod.snd (hok.ledger.inj ha ha')
    exact hk ((show k = k' from heq) ▸ hk')
  refine ⟨(h.bit a).mpr ⟨hok.bit ha, hnot⟩, fun b => ?_, fun x hx => ?_⟩
  · rw [bitAt_freeDisk, Bool.and_eq_true, Bool.not_eq_true', decide_eq_false_iff_not, h.bit]
    constructor
    · rintro ⟨hne, hb, hb'⟩
      refine ⟨hb, ?_⟩
      rintro ⟨k', rfl | hk', hx⟩
      · rw [ha] at hx
        exact hne (Option.some.inj hx).symm
      · exact hb' ⟨k', hk', hx⟩
    · rintro ⟨hb, hb'⟩
      refine ⟨?_, hb, ?_⟩
      · rintro rfl
        exact hb' ⟨k, .inl rfl, ha⟩
      · rintro ⟨k', hk', hx⟩
        exact hb' ⟨k', .inr hk', hx⟩
  · rw [freeDisk_of_ne L hx (hok.range ha).2, h.keep x hx]

/-- The loop over the direct blocks. -/
theorem itruncDirect_wp (h : Holds L s ino ip i) :
    Wp (itruncDirect ip) s E fun _ s' =>
      ∃ d' l' as, s' = s.put ip d' l' { ino i with addrs := as } ∧
        Freed L s.disk (ownedBy L s.disk ino i {k | k ∈ List.range ndirect}) d' ∧
        ∀ k, Dinode.addr { ino i with addrs := as } k =
          if k ∈ List.range ndirect then 0 else (ino i).addr k := by
  refine wp_forEach (I := fun done s' => ∃ d' l' as, s' = s.put ip d' l' { ino i with addrs := as } ∧
    Freed L s.disk (ownedBy L s.disk ino i {k | k ∈ done}) d' ∧
    ∀ k, Dinode.addr { ino i with addrs := as } k = if k ∈ done then 0 else (ino i).addr k) ?_ ?_
  · rintro done k rest s' hrange ⟨d', l', as, rfl, hfreed, haddr⟩
    have hkdone : k ∉ done := by
      have hnodup : (done ++ k :: rest).Nodup := hrange ▸ List.nodup_range
      intro hk
      exact (List.nodup_append.mp hnodup).2.2 k hk k List.mem_cons_self rfl
    have hkle : k ≤ ndirect := by
      have : k ∈ List.range ndirect := by rw [hrange]; simp
      exact (List.mem_range.mp this).le
    have hset : {k' | k' ∈ done ++ [k]} = insert k {k' | k' ∈ done} := by
      ext k'
      simp [or_comm]
    have hck : Dinode.addr { ino i with addrs := as } k = (ino i).addr k := by
      rw [haddr, if_neg hkdone]
    have hplace : place s.disk (ino i) k = (ino i).addr k := place_of_le hkle
    simp only [inode, wp_bind, wp_gets, State.put_copy, hck, hset]
    split
    · rename_i h0
      have hown : own L s.disk ino (i, k) = none := by
        rw [own, if_neg]
        exact fun hp => hp.2.2 (hplace.trans h0)
      refine wp_pure.mpr ⟨d', l', as, rfl, hfreed.skip hown, fun k' => ?_⟩
      rw [haddr]
      by_cases hkk : k' = k
      · simp [hkk, hkdone, h0]
      · simp [hkk]
    · rename_i h0
      have hown : own L s.disk ino (i, k) = some ((ino i).addr k) := by
        rw [← hplace] at h0 ⊢
        exact own_place h.lt h.type h0
      obtain ⟨hbit, hfreed'⟩ := hfreed.step h.image hkdone hown
      have hsuper : Superblock.ofBlock (d' 1) = L.toSuperblock := by
        rw [hfreed.keep 1 (.inl L.one_lt_bmapstart)]
        exact h.image.super
      refine (bfree_wp (s := s.put ip d' l' _) h.sb hsuper hbit).bind ?_
      rintro - s₁ rfl
      simp only [State.put_withDisk, wp_setCopy, State.put_disk, State.put_logged, State.put_copy,
        State.put_put]
      refine ⟨_, _, _, rfl, hfreed', fun k' => ?_⟩
      by_cases hkk : k' = k
      · subst hkk
        rw [if_pos (by simp)]
        exact Dinode.addr_setAddr_self _ hkle (by decide)
      · have hmem : k' ∈ done ++ [k] ↔ k' ∈ done := by simp [hkk]
        simp only [hmem, ← haddr k']
        exact Dinode.addr_setAddr_of_ne { ino i with addrs := as } 0 hkk
  · refine ⟨s.disk, s.logged, (ino i).addrs, ?_, ?_, fun k => ?_⟩
    · rw [← h.copy, State.put_self]
    · simpa using Freed.refl
    · simp

/-- The loop over the entries of the indirect block. -/
theorem itruncEntries_wp {l : List Nat} {c : Dinode} (h : Holds L s ino ip i)
    (hx : (ino i).addr ndirect ≠ 0)
    (hfreed : Freed L s.disk (ownedBy L s.disk ino i {k | k < ndirect}) d) :
    Wp (itruncEntries ((ino i).addr ndirect)) (s.put ip d l c) E fun _ s' =>
      ∃ d' l', s' = s.put ip d' l' c ∧ Freed L s.disk (ownedBy L s.disk ino i
        {k | k < ndirect ∨ ∃ j ∈ List.range nindirect, k = ndirect + 1 + j}) d' := by
  refine wp_forEach (I := fun done s' => ∃ d' l', s' = s.put ip d' l' c ∧
    Freed L s.disk (ownedBy L s.disk ino i
      {k | k < ndirect ∨ ∃ j ∈ done, k = ndirect + 1 + j}) d') ?_ ?_
  · rintro done j rest s' hrange ⟨d', l', rfl, hfreed⟩
    have hjdone : j ∉ done := by
      have hnodup : (done ++ j :: rest).Nodup := hrange ▸ List.nodup_range
      intro hj
      exact (List.nodup_append.mp hnodup).2.2 j hj j List.mem_cons_self rfl
    have hnew : ndirect + 1 + j ∉ {k | k < ndirect ∨ ∃ j ∈ done, k = ndirect + 1 + j} := by
      rintro (hlt | ⟨j', hj', heq⟩)
      · omega
      · exact hjdone ((show j = j' by omega) ▸ hj')
    have hset : {k | k < ndirect ∨ ∃ j' ∈ done ++ [j], k = ndirect + 1 + j'} =
        insert (ndirect + 1 + j) {k | k < ndirect ∨ ∃ j ∈ done, k = ndirect + 1 + j} := by
      ext k
      simp only [Set.mem_ofPred_eq, Set.mem_insert_iff, List.mem_append, List.mem_singleton]
      constructor
      · rintro (hk | ⟨j', hj' | rfl, rfl⟩)
        · exact .inr (.inl hk)
        · exact .inr (.inr ⟨j', hj', rfl⟩)
        · exact .inl rfl
      · rintro (rfl | hk | ⟨j', hj', rfl⟩)
        · exact .inr ⟨j, .inr rfl, rfl⟩
        · exact .inl hk
        · exact .inr ⟨j', .inl hj', rfl⟩
    have hindirect := (h.image.range (ImageOk.own_indirect h.lt h.type hx)).1
    have hplace : place s.disk (ino i) (ndirect + 1 + j) =
        (s.disk ((ino i).addr ndirect)).read (4 * j) 4 := by
      rw [place_entry, entry, if_neg hx]
    simp only [bread, wp_bind, wp_gets, State.put_disk, hset, hfreed.keep _ (.inr hindirect)]
    rw [← hplace]
    split
    · rename_i h0
      have hown : own L s.disk ino (i, ndirect + 1 + j) = none := by
        rw [own, if_neg]
        exact fun hp => hp.2.2 h0
      exact wp_pure.mpr ⟨d', l', rfl, hfreed.skip hown⟩
    · rename_i h0
      have hown := own_place h.lt h.type h0
      obtain ⟨hbit, hfreed'⟩ := hfreed.step h.image hnew hown
      have hsuper : Superblock.ofBlock (d' 1) = L.toSuperblock := by
        rw [hfreed.keep 1 (.inl L.one_lt_bmapstart)]
        exact h.image.super
      refine (bfree_wp (s := s.put ip d' l' _) h.sb hsuper hbit).post ?_
      rintro - s₁ rfl
      exact ⟨_, _, rfl, hfreed'⟩
  · exact ⟨d, l, rfl, by simpa using hfreed⟩

theorem wp_iupdate (hsb : s.sb = L.toSuperblock) {Q : Unit → State → Prop} :
    Wp (iupdate ip) s E Q ↔ Q () (s.withDisk (Function.update s.disk (L.iblock (s.icache ip).inum)
      ((s.icache ip).copy.toBlock (s.disk (L.iblock (s.icache ip).inum))
        ((s.icache ip).inum % ipb))) (L.iblock (s.icache ip).inum :: s.logged)) := by
  simp only [iupdate, inode, bread, logWrite, wp_bind, wp_gets, wp_modify, State.withDisk, hsb]

/-- In the end every block of the file is freed. -/
theorem itruncIndirect_wp {l : List Nat} {c : Dinode} (h : Holds L s ino ip i)
    (hfreed : Freed L s.disk (ownedBy L s.disk ino i {k | k < ndirect}) d)
    (hc : c.addr ndirect = (ino i).addr ndirect) :
    Wp (itruncIndirect ip) (s.put ip d l c) E fun _ s' =>
      ∃ d' l', s' = s.put ip d' l' (c.setAddr ndirect 0) ∧
        Freed L s.disk {x | ∃ k, own L s.disk ino (i, k) = some x} d' := by
  have hall : ∀ K : Set Nat, (∀ k ∉ K, place s.disk (ino i) k = 0) →
      ownedBy L s.disk ino i K = {x | ∃ k, own L s.disk ino (i, k) = some x} := by
    intro K hK
    ext x
    refine ⟨fun ⟨k, _, hx⟩ => ⟨k, hx⟩, fun ⟨k, hx⟩ => ⟨k, ?_, hx⟩⟩
    by_contra hk
    exact (own_eq_some.mp hx).2.2.2 ((own_eq_some.mp hx).2.2.1.symm.trans (hK k hk))
  simp only [itruncIndirect, inode, wp_bind, wp_gets, State.put_copy, hc]
  split
  · rename_i h0
    rw [Dinode.setAddr_of_addr_eq_zero (hc.trans h0)]
    refine wp_pure.mpr ⟨d, l, rfl, ?_⟩
    rwa [hall] at hfreed
    intro k hk
    have hge : ndirect ≤ k := not_lt.mp hk
    rcases hge.eq_or_lt with rfl | hlt
    · rw [place_of_le le_rfl, h0]
    · rw [place, if_neg (not_le.mpr hlt), entry, if_pos h0]
  · rename_i hx
    refine (itruncEntries_wp h hx hfreed).bind ?_
    rintro - s₁ ⟨d₁, l₁, rfl, hfreed₁⟩
    have hnew : ndirect ∉ {k | k < ndirect ∨ ∃ j ∈ List.range nindirect, k = ndirect + 1 + j} := by
      rintro (hlt | ⟨j, -, heq⟩) <;> omega
    obtain ⟨hbit, hfreed₂⟩ := hfreed₁.step h.image hnew (ImageOk.own_indirect h.lt h.type hx)
    have hsuper : Superblock.ofBlock (d₁ 1) = L.toSuperblock := by
      rw [hfreed₁.keep 1 (.inl L.one_lt_bmapstart)]
      exact h.image.super
    refine (bfree_wp (s := s.put ip d₁ l₁ c) h.sb hsuper hbit).bind ?_
    rintro - s₂ rfl
    simp only [State.put_withDisk, wp_setCopy, State.put_disk, State.put_logged, State.put_copy,
      State.put_put]
    refine ⟨_, _, rfl, ?_⟩
    rwa [hall] at hfreed₂
    intro k hk
    have hge : ndirect + 1 + nindirect ≤ k := by
      by_contra hlt
      apply hk
      rcases Nat.lt_trichotomy k ndirect with hk | hk | hk
      · exact .inr (.inl hk)
      · exact .inl hk
      · exact .inr (.inr ⟨k - (ndirect + 1), List.mem_range.mpr (by omega), by omega⟩)
    rw [place, if_neg (by omega), entry_of_ge (by omega)]

/-- **`itrunc` frees the blocks of the file and stores an empty inode.** -/
theorem itrunc_wp (h : Holds L s ino ip i) (hi : (s.icache ip).inum = i) :
    Wp (itrunc ip) s E fun _ s' => ∃ d' l', s' = s.put ip d' l' (ino i).trunc ∧
      ImageOk L d' (Function.update ino i (ino i).trunc) ∧ Apart L ino i s.disk d' ∧
      dinodeAt L.toSuperblock d' i = (ino i).trunc := by
  unfold itrunc
  refine (itruncDirect_wp h).bind ?_
  rintro - s₁ ⟨d₁, l₁, as, rfl, hfreed₁, haddr⟩
  have hset : {k | k ∈ List.range ndirect} = {k | k < ndirect} := by
    ext k
    exact List.mem_range
  rw [hset] at hfreed₁
  have hindirect : Dinode.addr { ino i with addrs := as } ndirect = (ino i).addr ndirect := by
    rw [haddr, if_neg (by simp)]
  refine (itruncIndirect_wp h hfreed₁ hindirect).bind ?_
  rintro - s₂ ⟨d₂, l₂, rfl, hfreed₂⟩
  have hzero : ∀ k, (Dinode.setAddr { ino i with addrs := as } ndirect 0).addr k = 0 := by
    intro k
    rcases Nat.lt_trichotomy k ndirect with hk | rfl | hk
    · rw [Dinode.addr_setAddr_of_ne _ _ hk.ne, haddr, if_pos (List.mem_range.mpr hk)]
    · exact Dinode.addr_setAddr_self _ le_rfl (by decide)
    · exact Dinode.addr_of_gt _ hk
  have htrunc : { Dinode.setAddr { ino i with addrs := as } ndirect 0 with size := 0 } =
      (ino i).trunc := by
    simp only [Dinode.addrs_eq_zero hzero]
    rfl
  have hsb : (s.put ip d₂ l₂ (ino i).trunc).sb = L.toSuperblock := h.sb
  simp only [wp_bind, wp_setCopy, State.put_disk, State.put_logged, State.put_copy, State.put_put,
    htrunc, wp_iupdate hsb, State.put_withDisk, State.put_inum, hi]
  have hkeep : ∀ x, L.nmeta ≤ x → d₂ x = s.disk x := fun x hx => hfreed₂.keep x (.inr hx)
  have hused : usedBlocks L d₂ =
      usedBlocks L s.disk \ {b | ∃ k, own L s.disk ino (i, k) = some b} := by
    ext b
    simp only [usedBlocks, Set.mem_sdiff, Set.mem_ofPred_eq, hfreed₂.bit, and_assoc]
  have hok := h.image.trunc (hfreed₂.keep 1 (.inl L.one_lt_bmapstart)) hused hkeep
    (Dinode.addr_trunc (ino i))
  obtain ⟨hok', hview⟩ := hok.inodeBlock ((ino i).trunc.toBlock (d₂ (L.iblock i)) (i % ipb))
    (L.iblock_gt i) (L.iblock_lt h.lt)
  refine ⟨_, _, rfl, hok', ⟨fun i' hne hi' ht' => ?_, fun i' hne hi' => ?_⟩, ?_⟩
  · have hself := hview i' hi'
    rw [Function.update_of_ne hne] at hself
    rw [hself ht']
    exact ImageOk.view_other hi' ht' fun k x hx => hkeep x (h.image.range hx).1
  · rw [dinodeAt_iupdate, if_neg hne]
    exact dinodeAt_congr L (hfreed₂.keep _ (.inl (L.iblock_lt hi')))
  · rw [dinodeAt_iupdate, if_pos rfl]

end Trunc

end Xv6.Fs
