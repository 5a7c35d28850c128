import Xv6.Fs.Content

/-!
# Fs — the inode cache between calls

`Good` is what holds of the file system when no call is half done: the image on the disk is right,
the files are whole, and the entries of the inode cache that are in use agree with the disk.  An
inode is in one entry at most.

The theorems are the specifications of `iget`, `ilock`, `iunlock`, `idup` and `iput` between two such
states.
-/

namespace Xv6.Fs
open Lib Lib.Prog

/-- The inodes on the disk. -/
abbrev State.ino (L : Layout) (s : State) : Nat → Dinode := dinodeAt L.toSuperblock s.disk

/-- The state with another entry of the inode cache. -/
def State.setSlot (s : State) (ip : Slot) (e : Inode) : State :=
  { s with icache := Function.update s.icache ip e }

structure Good (L : Layout) (s : State) : Prop where
  sb : s.sb = L.toSuperblock
  image : ImageOk L s.disk (s.ino L)
  whole : ∀ i < L.ninodes, (s.ino L i).type ≠ 0 → Whole s.disk (s.ino L i)
  uniq : ∀ ip jp, 0 < (s.icache ip).ref → 0 < (s.icache jp).ref →
    (s.icache ip).inum = (s.icache jp).inum → ip = jp
  range : ∀ ip, 0 < (s.icache ip).ref → 0 < (s.icache ip).inum ∧ (s.icache ip).inum < L.ninodes
  copy : ∀ ip, 0 < (s.icache ip).ref → (s.icache ip).valid = true →
    (s.icache ip).copy = s.ino L (s.icache ip).inum ∧ (s.ino L (s.icache ip).inum).type ≠ 0

section Slots
variable {s : State} {ip jp : Slot} {e e' : Inode}

@[simp] theorem State.setSlot_disk : (s.setSlot ip e).disk = s.disk := rfl

@[simp] theorem State.setSlot_sb : (s.setSlot ip e).sb = s.sb := rfl

@[simp] theorem State.setSlot_self : (s.setSlot ip e).icache ip = e := Function.update_self ..

@[simp] theorem State.withDisk_icache {d : Disk} {l : List Nat} :
    (s.withDisk d l).icache = s.icache := rfl

theorem State.setSlot_of_ne (h : jp ≠ ip) : (s.setSlot ip e).icache jp = s.icache jp :=
  Function.update_of_ne h _ _

@[simp] theorem State.setSlot_setSlot : (s.setSlot ip e).setSlot ip e' = s.setSlot ip e' := by
  simp [State.setSlot]

theorem State.setSlot_withDisk {d : Disk} {l : List Nat} :
    (s.setSlot ip e).withDisk d l = (s.withDisk d l).setSlot ip e := rfl

theorem wp_setInode {f : Inode → Inode} {E : Stop → Prop} {Q : Unit → State → Prop} :
    Wp (setInode ip f) s E Q ↔ Q () (s.setSlot ip (f (s.icache ip))) := by
  simp only [setInode, wp_modify]
  rfl

end Slots

/-- The image does not depend on inodes beyond the last. -/
theorem ImageOk.congr_ino {L : Layout} {d : Disk} {ino ino' : Nat → Dinode} (h : ImageOk L d ino)
    (heq : ∀ i < L.ninodes, ino' i = ino i) : ImageOk L d ino' := by
  have hown : own L d ino' = own L d ino := by
    funext ⟨i, k⟩
    by_cases hi : i < L.ninodes
    · exact ImageOk.own_other (heq i hi) (fun _ _ _ => rfl) k
    · simp only [own, hi, false_and, if_false]
  refine ⟨h.super, ?_⟩
  rw [hown]
  exact h.ledger

namespace Good
variable {L : Layout} {s : State} {ip jp : Slot} {e : Inode} {d' : Disk} {l' : List Nat} {c' : Dinode}

theorem holds (h : Good L s) (hr : 0 < (s.icache ip).ref) (hv : (s.icache ip).valid = true) :
    Holds L s (s.ino L) ip (s.icache ip).inum :=
  ⟨h.sb, h.image, (h.range ip hr).2, (h.copy ip hr hv).1, (h.copy ip hr hv).2⟩

/-- An entry changes, and nothing on the disk. -/
theorem setSlot (h : Good L s) (hrange : 0 < e.ref → 0 < e.inum ∧ e.inum < L.ninodes)
    (huniq : 0 < e.ref → ∀ jp ≠ ip, 0 < (s.icache jp).ref → (s.icache jp).inum ≠ e.inum)
    (hcopy : 0 < e.ref → e.valid = true →
      e.copy = s.ino L e.inum ∧ (s.ino L e.inum).type ≠ 0) : Good L (s.setSlot ip e) := by
  refine ⟨h.sb, h.image, h.whole, fun jp kp hj hk heq => ?_, fun jp hj => ?_, fun jp hj hv => ?_⟩
  · by_cases hjp : jp = ip
    · by_cases hkp : kp = ip
      · rw [hjp, hkp]
      · subst hjp
        rw [State.setSlot_self] at hj heq
        rw [State.setSlot_of_ne hkp] at hk heq
        exact absurd heq.symm (huniq hj kp hkp hk)
    · rw [State.setSlot_of_ne hjp] at hj heq
      by_cases hkp : kp = ip
      · subst hkp
        rw [State.setSlot_self] at hk heq
        exact absurd heq (huniq hk jp hjp hj)
      · rw [State.setSlot_of_ne hkp] at hk heq
        exact h.uniq jp kp hj hk heq
  · by_cases hjp : jp = ip
    · subst hjp
      rw [State.setSlot_self] at hj ⊢
      exact hrange hj
    · rw [State.setSlot_of_ne hjp] at hj ⊢
      exact h.range jp hj
  · by_cases hjp : jp = ip
    · subst hjp
      rw [State.setSlot_self] at hj hv ⊢
      exact hcopy hj hv
    · rw [State.setSlot_of_ne hjp] at hj hv ⊢
      exact h.copy jp hj hv

/-- Inode `i` becomes `c'` on the disk, while no entry has a copy of it. -/
theorem withDisk {i : Nat} (h : Good L s)
    (hnone : ∀ jp, 0 < (s.icache jp).ref → (s.icache jp).inum = i → (s.icache jp).valid = false)
    (hok : ImageOk L d' (Function.update (s.ino L) i c')) (hapart : Apart L (s.ino L) i s.disk d')
    (hd : dinodeAt L.toSuperblock d' i = c') (hw : c'.type ≠ 0 → Whole d' c') :
    Good L (s.withDisk d' l') := by
  have hino : ∀ i' < L.ninodes, dinodeAt L.toSuperblock d' i' =
      Function.update (s.ino L) i c' i' := by
    intro i' hi'
    by_cases hii : i' = i
    · rw [hii, Function.update_self, hd]
    · rw [Function.update_of_ne hii]
      exact hapart.dinode i' hii hi'
  refine ⟨h.sb, hok.congr_ino hino, fun i' hi' ht => ?_, h.uniq, h.range, fun jp hj hv => ?_⟩
  · have ht' : (dinodeAt L.toSuperblock d' i').type ≠ 0 := ht
    show Whole d' (dinodeAt L.toSuperblock d' i')
    rw [hino i' hi'] at ht' ⊢
    by_cases hii : i' = i
    · rw [hii, Function.update_self] at ht' ⊢
      exact hw ht'
    · rw [Function.update_of_ne hii] at ht' ⊢
      have hview := hapart.view i' hii hi' ht'
      have hwhole := h.whole i' hi' ht'
      exact ⟨hwhole.size, fun bn hbn => by rw [hview]; exact hwhole.mapped bn hbn⟩
  · have hne : (s.icache jp).inum ≠ i := by
      intro heq
      have hf := hnone jp hj heq
      rw [show (s.icache jp).valid = true from hv] at hf
      cases hf
    show (s.icache jp).copy = dinodeAt L.toSuperblock d' (s.icache jp).inum ∧
      (dinodeAt L.toSuperblock d' (s.icache jp).inum).type ≠ 0
    rw [hapart.dinode _ hne (h.range jp hj).2]
    exact h.copy jp hj hv

/-- The inode of an entry becomes `c'`, on the disk and in the entry. -/
theorem setDisk (h : Good L s) (hr : 0 < (s.icache ip).ref)
    (hok : ImageOk L d' (Function.update (s.ino L) (s.icache ip).inum c'))
    (hapart : Apart L (s.ino L) (s.icache ip).inum s.disk d')
    (hd : dinodeAt L.toSuperblock d' (s.icache ip).inum = c') (hw : c'.type ≠ 0 → Whole d' c')
    (hinum : e.inum = (s.icache ip).inum)
    (hcopy : 0 < e.ref → e.valid = true → e.copy = c' ∧ c'.type ≠ 0) :
    Good L ((s.withDisk d' l').setSlot ip e) := by
  have hrange := h.range ip hr
  have huniq : ∀ jp ≠ ip, 0 < (s.icache jp).ref → (s.icache jp).inum ≠ (s.icache ip).inum :=
    fun jp hne hj heq => hne (h.uniq jp ip hj hr heq)
  -- first the entry forgets the inode, then the disk changes, then the entry has it again
  have h₁ : Good L (s.setSlot ip { s.icache ip with valid := false }) :=
    h.setSlot (fun _ => hrange) (fun _ => huniq) nofun
  have h₂ : Good L ((s.setSlot ip { s.icache ip with valid := false }).withDisk d' l') := by
    refine h₁.withDisk (fun jp hj heq => ?_) hok hapart hd hw
    by_cases hjp : jp = ip
    · rw [hjp, State.setSlot_self]
    · rw [State.setSlot_of_ne hjp] at hj heq
      exact absurd heq (huniq jp hjp hj)
  have h₃ : Good L (((s.setSlot ip { s.icache ip with valid := false }).withDisk d' l').setSlot ip e) := by
    refine h₂.setSlot (fun _ => hinum ▸ hrange) (fun _ jp hjp hj => ?_) fun he hv => ?_
    · rw [State.withDisk_icache, State.setSlot_of_ne hjp] at hj ⊢
      rw [hinum]
      exact huniq jp hjp hj
    · show e.copy = dinodeAt L.toSuperblock d' e.inum ∧ (dinodeAt L.toSuperblock d' e.inum).type ≠ 0
      rw [hinum, hd]
      exact hcopy he hv
  rwa [State.setSlot_withDisk, State.setSlot_setSlot] at h₃

/-- The same, for a call that leaves the entry in use. -/
theorem put (h : Good L s) (hr : 0 < (s.icache ip).ref)
    (hok : ImageOk L d' (Function.update (s.ino L) (s.icache ip).inum c'))
    (hapart : Apart L (s.ino L) (s.icache ip).inum s.disk d')
    (hd : dinodeAt L.toSuperblock d' (s.icache ip).inum = c') (hw : Whole d' c') (ht : c'.type ≠ 0) :
    Good L (s.put ip d' l' c') :=
  h.setDisk hr hok hapart hd (fun _ => hw) rfl fun _ _ => ⟨rfl, ht⟩

end Good

/-! ### The functions of the cache -/

section Cache
variable {L : Layout} {s : State} {ip : Slot} {inum : Nat} {E : Stop → Prop}

/-- What `iget` returns: the entry of the inode, or a free one that it takes for it. -/
def Got (s : State) (inum : Nat) (ip : Slot) (e : Inode) : Prop :=
  (0 < (s.icache ip).ref ∧ (s.icache ip).inum = inum ∧
    e = { s.icache ip with ref := (s.icache ip).ref + 1 }) ∨
  ((s.icache ip).ref = 0 ∧ (∀ jp, 0 < (s.icache jp).ref → (s.icache jp).inum ≠ inum) ∧
    e = { s.icache ip with inum := inum, ref := 1, busy := false, valid := false })

theorem Got.inum_eq {e : Inode} (h : Got s inum ip e) : e.inum = inum := by
  obtain ⟨-, hi, rfl⟩ | ⟨-, -, rfl⟩ := h
  · exact hi
  · rfl

theorem Got.ref_pos {e : Inode} (h : Got s inum ip e) : 0 < e.ref := by
  obtain ⟨hr, -, rfl⟩ | ⟨-, -, rfl⟩ := h
  · exact Int.lt_add_one_of_le hr.le
  · exact Int.one_pos

theorem iget_wp (h : Good L s) (hlow : 0 < inum) (hhigh : inum < L.ninodes) :
    Wp (iget inum) s (· = .iget) fun ip s' => ∃ e, Got s inum ip e ∧ s' = s.setSlot ip e ∧
      Good L s' := by
  simp only [iget, wp_bind, wp_gets]
  split
  · rename_i ip hfind
    have hip : 0 < (s.icache ip).ref ∧ (s.icache ip).inum = inum := by
      simpa using List.find?_some hfind
    simp only [wp_bind, wp_setInode, wp_pure]
    refine ⟨_, .inl ⟨hip.1, hip.2, rfl⟩, rfl, h.setSlot (fun _ => h.range ip hip.1) ?_ ?_⟩
    · exact fun _ jp hne hj heq => hne (h.uniq jp ip hj hip.1 heq)
    · exact fun _ hv => h.copy ip hip.1 hv
  · rename_i hfind
    have hnone : ∀ jp, 0 < (s.icache jp).ref → (s.icache jp).inum ≠ inum := by
      intro jp hj heq
      exact List.find?_eq_none.mp hfind jp (List.mem_finRange jp) (by simpa using ⟨hj, heq⟩)
    split
    · exact wp_stop.mpr rfl
    · rename_i ip hempty
      have hip : (s.icache ip).ref = 0 := by simpa using List.find?_some hempty
      simp only [wp_bind, wp_setInode, wp_pure]
      refine ⟨_, .inr ⟨hip, hnone, rfl⟩, rfl, h.setSlot (fun _ => ⟨hlow, hhigh⟩) ?_ (by rintro _ ⟨⟩)⟩
      exact fun _ jp _ hj => hnone jp hj

theorem idup_wp (h : Good L s) (hr : 0 < (s.icache ip).ref) :
    Wp (idup ip) s E fun ip' s' => ip' = ip ∧
      s' = s.setSlot ip { s.icache ip with ref := (s.icache ip).ref + 1 } ∧ Good L s' := by
  simp only [idup, wp_bind, wp_setInode, wp_pure]
  refine ⟨trivial, trivial, h.setSlot (fun _ => h.range ip hr) ?_ fun _ hv => h.copy ip hr hv⟩
  exact fun _ jp hne hj heq => hne (h.uniq jp ip hj hr heq)

/-- `ilock` loads the inode, which must be in use. -/
theorem ilock_cases (h : Good L s) (hr : 0 < (s.icache ip).ref) :
    Wp (ilock ip) s (fun e => e = .sleeps ∧ (s.icache ip).busy = true ∨
        e = .noType ∧ (s.ino L (s.icache ip).inum).type = 0)
      fun _ s' => (s.icache ip).busy = false ∧ (s.ino L (s.icache ip).inum).type ≠ 0 ∧
        s' = s.setSlot ip { s.icache ip with
          busy := true, valid := true, copy := s.ino L (s.icache ip).inum } ∧ Good L s' := by
  have hgood : (s.ino L (s.icache ip).inum).type ≠ 0 → Good L (s.setSlot ip { s.icache ip with
      busy := true, valid := true, copy := s.ino L (s.icache ip).inum }) := by
    intro ht
    refine h.setSlot (fun _ => h.range ip hr) ?_ fun _ _ => ⟨rfl, ht⟩
    exact fun _ jp hne hj heq => hne (h.uniq jp ip hj hr heq)
  simp only [ilock, inode, wp_bind, wp_gets]
  rw [if_neg (by omega)]
  split
  · rename_i hbusy
    exact wp_stop.mpr (.inl ⟨rfl, hbusy⟩)
  · rename_i hbusy
    simp only [wp_bind, wp_setInode]
    split
    · rename_i hv
      obtain ⟨hc, ht⟩ := h.copy ip hr hv
      have heq : s.setSlot ip { s.icache ip with busy := true } = s.setSlot ip { s.icache ip with
          busy := true, valid := true, copy := s.ino L (s.icache ip).inum } := by
        rw [← hc, ← hv]
      exact wp_pure.mpr ⟨by simpa using hbusy, ht, heq, heq ▸ hgood ht⟩
    · simp only [wp_bind, wp_gets, bread, wp_setInode, State.setSlot_sb, State.setSlot_disk,
        State.setSlot_self, State.setSlot_setSlot, h.sb]
      split
      · rename_i ht
        exact wp_stop.mpr (.inr ⟨rfl, ht⟩)
      · rename_i ht
        exact wp_pure.mpr ⟨by simpa using hbusy, ht, rfl, hgood ht⟩

theorem ilock_wp (h : Good L s) (hr : 0 < (s.icache ip).ref) :
    Wp (ilock ip) s (fun e => e = .sleeps ∨ e = .noType ∧ (s.ino L (s.icache ip).inum).type = 0)
      fun _ s' => (s.icache ip).busy = false ∧ (s.ino L (s.icache ip).inum).type ≠ 0 ∧
        s' = s.setSlot ip { s.icache ip with
          busy := true, valid := true, copy := s.ino L (s.icache ip).inum } ∧ Good L s' := by
  refine (ilock_cases h hr).mono (fun e he => ?_) fun _ _ h => h
  exact he.imp_left And.left

/-- `ilock` of an inode that is not locked. -/
theorem ilock_free (h : Good L s) (hr : 0 < (s.icache ip).ref) (hbusy : (s.icache ip).busy = false)
    (ht : (s.ino L (s.icache ip).inum).type ≠ 0) :
    Wp (ilock ip) s E fun _ s' => s' = s.setSlot ip { s.icache ip with
      busy := true, valid := true, copy := s.ino L (s.icache ip).inum } := by
  refine (ilock_cases h hr).mono (fun e he => ?_) fun _ _ h => h.2.2.1
  obtain ⟨-, hlocked⟩ | ⟨-, hfree⟩ := he
  · rw [hbusy] at hlocked
    cases hlocked
  · exact absurd hfree ht

theorem iunlock_wp (h : Good L s) (hr : 0 < (s.icache ip).ref) (hbusy : (s.icache ip).busy = true) :
    Wp (iunlock ip) s E fun _ s' => s' = s.setSlot ip { s.icache ip with busy := false } ∧
      Good L s' := by
  simp only [iunlock, inode, wp_bind, wp_gets, hbusy]
  rw [if_neg (by simp; omega)]
  simp only [wp_setInode]
  refine ⟨trivial, h.setSlot (fun _ => h.range ip hr) ?_ fun _ hv => h.copy ip hr hv⟩
  exact fun _ jp hne hj heq => hne (h.uniq jp ip hj hr heq)

/-- An inode is stored with other fields, and has the same blocks. -/
theorem ImageOk.storeIno {d : Disk} {ino : Nat → Dinode} {i : Nat} (c : Dinode)
    (h : ImageOk L d ino) (hi : i < L.ninodes)
    (hown : ∀ k, own L d (Function.update ino i c) (i, k) = own L d ino (i, k)) :
    ImageOk L (Function.update d (L.iblock i) (c.toBlock (d (L.iblock i)) (i % ipb)))
        (Function.update ino i c) ∧
      Apart L ino i d (Function.update d (L.iblock i) (c.toBlock (d (L.iblock i)) (i % ipb))) ∧
      (c.type ≠ 0 →
        view (Function.update d (L.iblock i) (c.toBlock (d (L.iblock i)) (i % ipb))) c = view d c) := by
  obtain ⟨hok, hview⟩ := (h.setIno hown).inodeBlock (c.toBlock (d (L.iblock i)) (i % ipb))
    (L.iblock_gt i) (L.iblock_lt hi)
  refine ⟨hok, ⟨fun i' hne hi' ht' => ?_, fun i' hne _ => ?_⟩, fun ht => ?_⟩
  · have := hview i' hi'
    rw [Function.update_of_ne hne] at this
    exact this ht'
  · rw [dinodeAt_iupdate, if_neg hne]
  · have := hview i hi
    rw [Function.update_self] at this
    exact this ht

/-- A truncated inode is given back: its type becomes 0, in memory and on the disk. -/
theorem ImageOk.freeIno {d : Disk} {ino : Nat → Dinode} {i : Nat} {c : Dinode} (c₀ : Dinode)
    (h : ImageOk L d (Function.update ino i c)) (hi : i < L.ninodes) (hc : ∀ k, c.addr k = 0)
    (ht : c₀.type = 0) :
    ImageOk L (Function.update d (L.iblock i) (c₀.toBlock (d (L.iblock i)) (i % ipb)))
        (Function.update ino i c₀) ∧
      Apart L ino i d (Function.update d (L.iblock i) (c₀.toBlock (d (L.iblock i)) (i % ipb))) := by
  have hplace : ∀ k, place d c k = 0 := by
    intro k
    rw [place, entry, hc, hc]
    split <;> rfl
  obtain ⟨hok, hapart, -⟩ := h.storeIno c₀ hi fun k => by
    rw [own, own, if_neg, if_neg]
    · simp [hplace]
    · simp [ht]
  rw [Function.update_idem] at hok
  exact ⟨hok, Apart.update_iff.mp hapart⟩

theorem State.setSlot_put {d : Disk} {l : List Nat} {e : Inode} {c : Dinode} :
    (s.setSlot ip e).put ip d l c = (s.withDisk d l).setSlot ip { e with copy := c } := by
  simp [State.put, State.setSlot, State.withDisk]

/-- **`iput`** drops a reference; the last one to an inode without links frees it and its blocks. -/
theorem iput_wp (h : Good L s) (hr : 0 < (s.icache ip).ref) :
    Wp (iput ip) s (· = .iputBusy) fun _ s' => Good L s' ∧
      ((¬ ((s.icache ip).ref = 1 ∧ (s.icache ip).valid = true ∧ (s.icache ip).copy.nlink = 0) ∧
          s' = s.setSlot ip { s.icache ip with ref := (s.icache ip).ref - 1 }) ∨
        ((s.icache ip).ref = 1 ∧ (s.icache ip).valid = true ∧ (s.icache ip).copy.nlink = 0 ∧
          ∃ d' l' e, s' = (s.withDisk d' l').setSlot ip e ∧ e.ref = 0 ∧
            Apart L (s.ino L) (s.icache ip).inum s.disk d' ∧
            (dinodeAt L.toSuperblock d' (s.icache ip).inum).type = 0)) := by
  have huniq : ∀ jp ≠ ip, 0 < (s.icache jp).ref → (s.icache jp).inum ≠ (s.icache ip).inum :=
    fun jp hne hj heq => hne (h.uniq jp ip hj hr heq)
  simp only [iput, inode, wp_bind, wp_gets]
  split
  · rename_i hfree
    split
    · exact wp_stop.mpr rfl
    · have hgood : Good L (s.setSlot ip { s.icache ip with busy := true }) :=
        h.setSlot (fun _ => h.range ip hr) (fun _ => huniq) fun _ hv => h.copy ip hr hv
      have hlt := (h.range ip hr).2
      have hvalid : ((s.setSlot ip { s.icache ip with busy := true }).icache ip).valid = true := by
        rw [State.setSlot_self]
        exact hfree.2.1
      have hholds := hgood.holds (by rw [State.setSlot_self]; exact hr) hvalid
      simp only [wp_bind, wp_setInode]
      refine (itrunc_wp hholds rfl).post ?_
      rintro - s' ⟨d₁, l₁, rfl, hok₁, hapart₁, hd₁⟩
      rw [State.setSlot_self] at hok₁ hapart₁ hd₁
      have hsb : ∀ c, (((s.setSlot ip { s.icache ip with busy := true }).put ip d₁ l₁ c)).sb =
        L.toSuperblock := fun _ => h.sb
      simp only [wp_setCopy, State.put_disk, State.put_logged, State.put_copy, State.put_put,
        wp_iupdate (hsb _), State.put_withDisk, State.put_inum, State.setSlot_self]
      rw [State.setSlot_put, State.setSlot_self, State.setSlot_setSlot]
      generalize hc : ({ (State.ino L (s.setSlot ip { s.icache ip with busy := true })
          (s.icache ip).inum).trunc with type := 0 } : Dinode) = c₀
      obtain ⟨hok₂, hapart₂⟩ := hok₁.freeIno c₀ hlt (Dinode.addr_trunc _) (by rw [← hc])
      have hd₂ : dinodeAt L.toSuperblock (Function.update d₁ (L.iblock (s.icache ip).inum)
          (c₀.toBlock (d₁ (L.iblock (s.icache ip).inum)) ((s.icache ip).inum % ipb)))
          (s.icache ip).inum = c₀ := by
        rw [dinodeAt_iupdate, if_pos rfl]
      have ht : c₀.type = 0 := by rw [← hc]
      refine ⟨h.setDisk hr hok₂ (hapart₁.trans hapart₂) hd₂ (fun hne => absurd ht hne) rfl ?_, ?_⟩
      · intro hpos
        have : 0 < (s.icache ip).ref - 1 := hpos
        omega
      · refine .inr ⟨hfree.1, hfree.2.1, hfree.2.2, _, _, _, rfl, ?_, hapart₁.trans hapart₂, ?_⟩
        · show (s.icache ip).ref - 1 = 0
          omega
        · rw [hd₂, ht]
  · rename_i hkeep
    rw [wp_setInode]
    refine ⟨?_, .inl ⟨hkeep, rfl⟩⟩
    exact h.setSlot (fun _ => h.range ip hr) (fun _ => huniq) fun _ hv => h.copy ip hr hv

end Cache

end Xv6.Fs
