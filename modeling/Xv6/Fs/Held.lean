import Xv6.Fs.Dirs

/-!
# Fs — nodes and references

What the callers of the inode layer see: of each inode in use its type, link count and bytes
(`node`), and of the cache how many references there are to each entry.  `Sound D H s` is a
well-formed state in which `H` counts the references and the directories are as `D` says; a function that returns a reference adds one to
`H`, and `iput` takes one away.

Whoever holds a reference is sure of the entry it points to, whatever is called meanwhile (`Keep`).
There is one specification for each function, of what it does to the nodes, to `H` and to the entries
others hold.
-/

namespace Xv6.Fs
open Lib Lib.Prog

def node (L : Layout) (s : State) (i : Nat) : Option Node :=
  if i < L.ninodes ∧ (s.ino L i).type ≠ 0 then
    some ⟨(s.ino L i).type, (s.ino L i).nlink, contents s.disk (s.ino L i)⟩
  else none

structure Sound {L : Layout} (D : Dirs L) (H : Slot → Int) (s : State) : Prop where
  good : Good L s
  refs : ∀ ip, (s.icache ip).ref = H ip
  nonneg : ∀ ip, 0 ≤ H ip
  root : rootino < L.ninodes
  dirs : ∀ i nd, node L s i = some nd → D.Ok i nd

/-- What stays of the entries that `H` has references to. -/
structure Keep (L : Layout) (H : Slot → Int) (s s' : State) : Prop where
  inum : ∀ ip, 0 < H ip → (s'.icache ip).inum = (s.icache ip).inum
  valid : ∀ ip, 0 < H ip → (s.icache ip).valid = true → (s'.icache ip).valid = true
  type : ∀ ip, 0 < H ip → (s.icache ip).valid = true →
    (s'.ino L (s.icache ip).inum).type = (s.ino L (s.icache ip).inum).type

/-- One reference more to `ip`. -/
abbrev plus (H : Slot → Int) (ip : Slot) : Slot → Int := Function.update H ip (H ip + 1)

section Basic
variable {L : Layout} {D : Dirs L} {H H' : Slot → Int} {s s' s'' : State} {ip jp : Slot} {i : Nat} {nd : Node}
  {d' : Disk} {l' : List Nat} {c' : Dinode} {e : Inode}

theorem plus_of_ne (h : jp ≠ ip) : plus H ip jp = H jp := Function.update_of_ne h _ _

theorem plus_self : plus H ip ip = H ip + 1 := Function.update_self ..

theorem plus_pos (h0 : 0 ≤ H ip) : 0 < plus H ip ip := by
  rw [plus_self]
  omega

theorem plus_comm : plus (plus H ip) jp = plus (plus H jp) ip := by
  by_cases h : ip = jp
  · rw [h]
  · funext x
    simp only [plus, Function.update_apply]
    split_ifs <;> simp_all

theorem le_plus (ip jp : Slot) : H jp ≤ plus H ip jp := by
  by_cases h : jp = ip
  · rw [h, plus_self]
    omega
  · rw [plus_of_ne h]

namespace Keep

theorem refl : Keep L H s s := ⟨fun _ _ => rfl, fun _ _ h => h, fun _ _ _ => rfl⟩

theorem trans (h : Keep L H s s') (h' : Keep L H s' s'') : Keep L H s s'' where
  inum ip hip := (h'.inum ip hip).trans (h.inum ip hip)
  valid ip hip hv := h'.valid ip hip (h.valid ip hip hv)
  type ip hip hv := by
    have h2 := h'.type ip hip (h.valid ip hip hv)
    rw [h.inum ip hip] at h2
    exact h2.trans (h.type ip hip hv)

theorem mono (h : Keep L H' s s') (hle : ∀ ip, H ip ≤ H' ip) : Keep L H s s' where
  inum ip hip := h.inum ip (hip.trans_le (hle ip))
  valid ip hip := h.valid ip (hip.trans_le (hle ip))
  type ip hip := h.type ip (hip.trans_le (hle ip))

theorem of_plus (h : Keep L (plus H ip) s s') : Keep L H s s' := h.mono (le_plus ip)

/-- Only the entry `ip` changes. -/
theorem slot (hinum : 0 < H ip → e.inum = (s.icache ip).inum)
    (hvalid : 0 < H ip → (s.icache ip).valid = true → e.valid = true) :
    Keep L H s (s.setSlot ip e) where
  inum jp hjp := by
    by_cases h : jp = ip
    · subst h
      rw [State.setSlot_self]
      exact hinum hjp
    · rw [State.setSlot_of_ne h]
  valid jp hjp hv := by
    by_cases h : jp = ip
    · subst h
      rw [State.setSlot_self]
      exact hvalid hjp hv
    · rw [State.setSlot_of_ne h]
      exact hv
  type _ _ _ := rfl

end Keep

theorem node_congr (h : s'.disk = s.disk) : node L s' = node L s := by
  funext i
  simp only [node, State.ino, h]

theorem node_eq_some : node L s i = some nd ↔ i < L.ninodes ∧ (s.ino L i).type ≠ 0 ∧
    nd = ⟨(s.ino L i).type, (s.ino L i).nlink, contents s.disk (s.ino L i)⟩ := by
  unfold node
  constructor
  · intro h
    split at h
    · rename_i hi
      cases h
      exact ⟨hi.1, hi.2, rfl⟩
    · cases h
  · rintro ⟨hi, ht, rfl⟩
    exact if_pos ⟨hi, ht⟩

theorem node_eq_none (hi : i < L.ninodes) : node L s i = none ↔ (s.ino L i).type = 0 := by
  simp [node, hi]

/-- The nodes after inode `i` changes on the disk. -/
theorem node_update (hi : i < L.ninodes) (hapart : Apart L (s.ino L) i s.disk d')
    (hd : dinodeAt L.toSuperblock d' i = c') (hdisk : s'.disk = d') :
    node L s' = Function.update (node L s) i
      (if c'.type ≠ 0 then some ⟨c'.type, c'.nlink, contents d' c'⟩ else none) := by
  subst hdisk
  funext j
  by_cases hji : j = i
  · subst hji
    have hino : s'.ino L j = c' := hd
    rw [Function.update_self, node, hino]
    simp [hi]
  · rw [Function.update_of_ne hji]
    by_cases hj : j < L.ninodes
    · have hsame : s'.ino L j = s.ino L j := hapart.dinode j hji hj
      by_cases ht : (s.ino L j).type = 0
      · simp [node, hsame, ht]
      · rw [node, node, hsame, if_pos ⟨hj, ht⟩, if_pos ⟨hj, ht⟩, contents, contents,
          hapart.view j hji hj ht]
    · simp [node, hj]

/-! ### Entries in memory -/

/-- Entry `ip` has inode `i`, read, which is `nd`. -/
structure At (L : Layout) (s : State) (ip : Slot) (i : Nat) (nd : Node) : Prop where
  inum : (s.icache ip).inum = i
  valid : (s.icache ip).valid = true
  node : node L s i = some nd
  copy : (s.icache ip).copy = s.ino L i

theorem At.type (h : At L s ip i nd) : (s.icache ip).copy.type = nd.type := by
  rw [h.copy, (node_eq_some.mp h.node).2.2]

theorem At.nlink (h : At L s ip i nd) : (s.icache ip).copy.nlink = nd.nlink := by
  rw [h.copy, (node_eq_some.mp h.node).2.2]

theorem At.size (h : At L s ip i nd) : (s.icache ip).copy.size.toNat = nd.data.length := by
  rw [h.copy, (node_eq_some.mp h.node).2.2, length_contents]

theorem At.data (h : At L s ip i nd) : nd.data = contents s.disk (s.ino L i) := by
  rw [(node_eq_some.mp h.node).2.2]

/-- Inode `i` is about to be made. -/
theorem Sound.except (h : Sound D H s) (i : Nat) : Sound (D.except i) H s :=
  ⟨h.good, h.refs, h.nonneg, h.root, fun j nd hj => (h.dirs j nd hj).except i⟩

/-- Inode `i` was made. -/
theorem Sound.of_except (h : Sound (D.except i) H s) (hi : node L s i = some nd) (hok : D.Ok i nd) :
    Sound D H s := by
  refine ⟨h.good, h.refs, h.nonneg, h.root, fun j nd' hj => ?_⟩
  by_cases hji : j = i
  · subst hji
    cases hi.symm.trans hj
    exact hok
  · exact (Dirs.except_of_ne hji).mp (h.dirs j nd' hj)

theorem Sound.ref_pos (h : Sound D H s) (hip : 0 < H ip) : 0 < (s.icache ip).ref := by
  rw [h.refs ip]
  exact hip

/-- A held entry that was read. -/
theorem Sound.entry (h : Sound D H s) (hip : 0 < H ip) (hv : (s.icache ip).valid = true) :
    ∃ nd, At L s ip (s.icache ip).inum nd := by
  obtain ⟨hcopy, ht⟩ := h.good.copy ip (h.ref_pos hip) hv
  have hi := (h.good.range ip (h.ref_pos hip)).2
  exact ⟨_, rfl, hv, node_eq_some.mpr ⟨hi, ht, rfl⟩, hcopy⟩

/-- What is known of a held entry after other calls. -/
theorem At.keep (h : At L s ip i nd) (hk : Keep L H s s') (hip : 0 < H ip) (hs' : Sound D H' s')
    (hip' : 0 < H' ip) : ∃ nd', At L s' ip i nd' ∧ nd'.type = nd.type := by
  obtain ⟨nd', hat⟩ := hs'.entry hip' (hk.valid ip hip h.valid)
  rw [hk.inum ip hip, h.inum] at hat
  refine ⟨nd', hat, ?_⟩
  have ht := hk.type ip hip h.valid
  rw [h.inum] at ht
  rw [← hat.type, ← h.type, hat.copy, h.copy, ht]

theorem At.keep_node (h : At L s ip i nd) (hk : Keep L H s s') (hip : 0 < H ip) (hs' : Sound D H' s')
    (hip' : 0 < H' ip) {nd' : Node} (hnd : Fs.node L s' i = some nd') : At L s' ip i nd' := by
  obtain ⟨nd'', hat, -⟩ := h.keep hk hip hs' hip'
  cases hat.node.symm.trans hnd
  exact hat

/-- Only an entry changes. -/
theorem Sound.slot (h : Sound D H s) (hgood : Good L (s.setSlot ip e))
    (hH : ∀ jp ≠ ip, H' jp = H jp) (he : e.ref = H' ip) (h0 : 0 ≤ H' ip) :
    Sound D H' (s.setSlot ip e) where
  good := hgood
  refs jp := by
    by_cases hjp : jp = ip
    · subst hjp
      rw [State.setSlot_self, he]
    · rw [State.setSlot_of_ne hjp, hH jp hjp, h.refs]
  nonneg jp := by
    by_cases hjp : jp = ip
    · subst hjp
      exact h0
    · rw [hH jp hjp]
      exact h.nonneg jp
  root := h.root
  dirs j nd := by
    rw [node_congr State.setSlot_disk]
    exact h.dirs j nd

/-- One node changes. -/
theorem Sound.of_node (h : Sound D H s) (hgood : Good L s') (hrefs : ∀ jp, (s'.icache jp).ref = H' jp)
    (h0 : ∀ jp, 0 ≤ H' jp) {r : Option Node} (hn : node L s' = Function.update (node L s) i r)
    (hr : ∀ nd, r = some nd → D.Ok i nd) : Sound D H' s' where
  good := hgood
  refs := hrefs
  nonneg := h0
  root := h.root
  dirs j nd hj := by
    rw [hn] at hj
    by_cases hji : j = i
    · subst hji
      rw [Function.update_self] at hj
      exact hr nd hj
    · rw [Function.update_of_ne hji] at hj
      exact h.dirs j nd hj

end Basic

/-! ### The functions of the cache -/

section Cache
variable {L : Layout} {D : Dirs L} {H : Slot → Int} {s : State} {ip : Slot} {i inum : Nat} {nd : Node}

theorem iget_sound (h : Sound D H s) (hlow : 0 < inum) (hhigh : inum < L.ninodes) :
    Wp (iget inum) s (· = .iget) fun ip s' => Sound D (plus H ip) s' ∧ Keep L H s s' ∧
      node L s' = node L s ∧ (s'.icache ip).inum = inum := by
  refine (iget_wp h.good hlow hhigh).post ?_
  rintro ip s' ⟨e, hgot, rfl, hgood⟩
  have hpos := hgot.ref_pos
  have href : e.ref = H ip + 1 := by
    obtain ⟨-, -, rfl⟩ | ⟨h0, -, rfl⟩ := hgot
    · rw [h.refs]
    · rw [← h.refs ip, h0]
      rfl
  refine ⟨h.slot hgood (fun jp hne => plus_of_ne hne) (by rw [plus_self, href]) ?_, ?_,
    node_congr State.setSlot_disk, by rw [State.setSlot_self, hgot.inum_eq]⟩
  · rw [plus_self]
    have := h.nonneg ip
    omega
  · -- an entry with a reference is not taken for another inode
    obtain ⟨-, -, rfl⟩ | ⟨h0, -, -⟩ := hgot
    · exact .slot (fun _ => rfl) fun _ hv => hv
    · rw [h.refs ip] at h0
      exact .slot (fun hip => absurd h0 hip.ne') fun hip => absurd h0 hip.ne'

theorem idup_sound {E : Stop → Prop} (h : Sound D H s) (hip : 0 < H ip) :
    Wp (idup ip) s E fun r s' => r = ip ∧ Sound D (plus H ip) s' ∧ Keep L H s s' ∧
      node L s' = node L s ∧ (s'.icache ip).inum = (s.icache ip).inum := by
  refine (idup_wp h.good (h.ref_pos hip)).post ?_
  rintro r s' ⟨rfl, rfl, hgood⟩
  refine ⟨rfl, h.slot hgood (fun jp hne => plus_of_ne hne) ?_ ?_,
    .slot (fun _ => rfl) fun _ hv => hv, node_congr State.setSlot_disk, by rw [State.setSlot_self]⟩
  · rw [plus_self, h.refs]
  · rw [plus_self]
    omega

theorem ilock_sound (h : Sound D H s) (hip : 0 < H ip) :
    Wp (ilock ip) s (fun e => e = .sleeps ∨ e = .noType ∧ node L s (s.icache ip).inum = none)
      fun _ s' => Sound D H s' ∧ Keep L H s s' ∧ node L s' = node L s ∧
        ∃ nd, At L s' ip (s.icache ip).inum nd := by
  have hr := h.ref_pos hip
  have hi := (h.good.range ip hr).2
  refine (ilock_wp h.good hr).mono (fun e he => ?_) ?_
  · obtain rfl | ⟨rfl, ht⟩ := he
    · exact .inl rfl
    · exact .inr ⟨rfl, (node_eq_none hi).mpr ht⟩
  · rintro - s' ⟨-, ht, rfl, hgood⟩
    have hsound : Sound D H _ := h.slot hgood (fun _ _ => rfl) (h.refs ip) (h.nonneg ip)
    obtain ⟨nd, hat⟩ := hsound.entry hip (by rw [State.setSlot_self])
    rw [State.setSlot_self] at hat
    exact ⟨hsound, .slot (fun _ => rfl) fun _ _ => rfl, node_congr State.setSlot_disk, nd, hat⟩

theorem iunlock_sound (h : Sound D H s) (hip : 0 < H ip) :
    Wp (iunlock ip) s (· = .iunlock) fun _ s' => Sound D H s' ∧ Keep L H s s' ∧
      node L s' = node L s := by
  cases hbusy : (s.icache ip).busy with
  | false =>
      simp only [iunlock, inode, wp_bind, wp_gets, hbusy]
      exact wp_stop.mpr rfl
  | true =>
      refine (iunlock_wp h.good (h.ref_pos hip) hbusy).post ?_
      rintro - s' ⟨rfl, hgood⟩
      exact ⟨h.slot hgood (fun _ _ => rfl) (h.refs ip) (h.nonneg ip),
        .slot (fun _ => rfl) fun _ hv => hv, node_congr State.setSlot_disk⟩

/-- What `iput` does to the nodes, when the references are `H` after it: nothing, or the inode is
freed that had its last reference and no link. -/
def PutNodes (L : Layout) (H : Slot → Int) (s : State) (ip : Slot) (s' : State) : Prop :=
  (node L s' = node L s ∧
    ¬ (H ip = 0 ∧ ∃ nd, At L s ip (s.icache ip).inum nd ∧ nd.nlink = 0)) ∨
  (H ip = 0 ∧ (∃ nd, At L s ip (s.icache ip).inum nd ∧ nd.nlink = 0) ∧
    node L s' = Function.update (node L s) (s.icache ip).inum none)

theorem iput_sound (h : Sound D (plus H ip) s) (h0 : 0 ≤ H ip) :
    Wp (iput ip) s (· = .iputBusy) fun _ s' => Sound D H s' ∧ Keep L H s s' ∧
      PutNodes L H s ip s' := by
  have href : (s.icache ip).ref = H ip + 1 := by rw [h.refs ip, plus_self]
  have hr : 0 < (s.icache ip).ref := by omega
  have hnonneg : ∀ jp, 0 ≤ H jp := by
    intro jp
    by_cases hjp : jp = ip
    · rw [hjp]
      exact h0
    · have := h.nonneg jp
      rwa [plus_of_ne hjp] at this
  refine (iput_wp h.good hr).post ?_
  rintro - s' ⟨hgood, ⟨hkeep, rfl⟩ | ⟨hone, hvalid, hnlink, d', l', e, rfl, he, hapart, ht⟩⟩
  · refine ⟨h.slot hgood (fun jp hne => (plus_of_ne hne).symm)
        (show (s.icache ip).ref - 1 = H ip by omega) h0,
      .slot (fun _ => rfl) fun _ hv => hv, .inl ⟨node_congr State.setSlot_disk, ?_⟩⟩
    rintro ⟨hH, nd, hat, hnd⟩
    exact hkeep ⟨by omega, hat.valid, by rw [hat.nlink, hnd]⟩
  · have hH : H ip = 0 := by omega
    have hi := (h.good.range ip hr).2
    obtain ⟨nd, hat⟩ := h.entry (by rw [plus_self]; omega) hvalid
    have hn : node L ((s.withDisk d' l').setSlot ip e) =
        Function.update (node L s) (s.icache ip).inum none := by
      rw [node_update hi hapart rfl State.setSlot_disk, if_neg (not_not.mpr ht)]
    refine ⟨h.of_node hgood (fun jp => ?_) hnonneg hn nofun, ?_,
      .inr ⟨hH, ⟨nd, hat, by rw [← hat.nlink, hnlink]⟩, hn⟩⟩
    · by_cases hjp : jp = ip
      · subst hjp
        rw [State.setSlot_self, he, hH]
      · rw [State.setSlot_of_ne hjp, State.withDisk_icache, h.refs jp, plus_of_ne hjp]
    · -- another entry does not have the inode that is freed
      have hother : ∀ jp, 0 < H jp → jp ≠ ip ∧ (s.icache jp).inum ≠ (s.icache ip).inum := by
        intro jp hjp
        have hne : jp ≠ ip := by
          rintro rfl
          omega
        refine ⟨hne, fun heq => hne (h.good.uniq jp ip ?_ hr heq)⟩
        rw [h.refs jp, plus_of_ne hne]
        exact hjp
      refine ⟨fun jp hjp => ?_, fun jp hjp hv => ?_, fun jp hjp hv => ?_⟩
      · rw [State.setSlot_of_ne (hother jp hjp).1, State.withDisk_icache]
      · rw [State.setSlot_of_ne (hother jp hjp).1, State.withDisk_icache]
        exact hv
      · have hrange := h.good.range jp (by
          rw [h.refs jp, plus_of_ne (hother jp hjp).1]
          exact hjp)
        exact congrArg Dinode.type (hapart.dinode _ (hother jp hjp).2 hrange.2)

theorem iunlockput_sound (h : Sound D (plus H ip) s) (h0 : 0 ≤ H ip) (hat : At L s ip i nd) :
    Wp (iunlockput ip) s (fun e => e = .iunlock ∨ e = .iputBusy) fun _ s' => Sound D H s' ∧
      Keep L H s s' ∧ node L s' =
        if H ip = 0 ∧ nd.nlink = 0 then Function.update (node L s) i none else node L s := by
  have hip := plus_pos h0
  refine (iunlock_sound h hip).seq (fun _ he => .inl he) ?_
  rintro - s₁ ⟨hs₁, hk₁, hn₁⟩
  have hat₁ := hat.keep_node hk₁ hip hs₁ hip (by rw [hn₁]; exact hat.node)
  refine (iput_sound hs₁ h0).mono (fun _ he => .inr he) ?_
  rintro - s₂ ⟨hs₂, hk₂, hput⟩
  refine ⟨hs₂, hk₁.of_plus.trans hk₂, ?_⟩
  rw [PutNodes, hat₁.inum, hn₁] at hput
  obtain ⟨hn, hnot⟩ | ⟨hH, ⟨nd', hat', hnd'⟩, hn⟩ := hput
  · rw [hn, if_neg]
    rintro ⟨hH, hnd⟩
    exact hnot ⟨hH, nd, hat₁, hnd⟩
  · cases hat'.node.symm.trans hat₁.node
    rw [hn, if_pos ⟨hH, hnd'⟩]

/-! ### Contents -/

theorem consoleLoop_error {n : Nat} {first : Bool} {input : List UInt8} {e : Stop}
    (h : consoleLoop n first input = .error e) : e = .sleeps := by
  fun_induction consoleLoop n first input with
  | case1 => cases h
  | case2 =>
      cases h
      rfl
  | case3 => cases h
  | case4 => cases h
  | case5 _ _ _ _ _ _ _ _ heq ih => cases h
  | case6 _ _ _ _ _ _ _ heq ih =>
      cases h
      exact ih heq

/-- `readi` of a directory or a file. -/
theorem readi_at {E : Stop → Prop} {off n : Nat} (h : Sound D H s) (hip : 0 < H ip)
    (hat : At L s ip i nd) (ht : nd.type ≠ tDev) (hoff : off < 2 ^ 32) (hn : n < 2 ^ 32) :
    Wp (readi ip off n) s E fun r s' => s' = s ∧
      r = if off > nd.data.length ∨ 2 ^ 32 ≤ off + n then none
        else some ((nd.data.drop off).take n) := by
  have hh := h.good.holds (h.ref_pos hip) hat.valid
  rw [hat.inum] at hh
  have htype : (s.ino L i).type ≠ tDev := by
    rw [← hat.copy, hat.type]
    exact ht
  refine (readi_wp hh (h.good.whole _ hh.lt hh.type) htype hoff hn).post ?_
  rintro r s' ⟨rfl, rfl⟩
  refine ⟨rfl, ?_⟩
  rw [hat.data, length_contents]

/-- The references are the same when only the copy of an inode changes. -/
theorem put_refs (h : Sound D H s) {d : Disk} {l : List Nat} {c : Dinode} (jp : Slot) :
    ((s.put ip d l c).icache jp).ref = H jp := by
  rw [← h.refs jp]
  by_cases hjp : jp = ip
  · subst hjp
    simp [State.put]
  · simp [State.put, hjp]

/-- Inode `i` is stored anew, with the type it has. -/
theorem Sound.put (l' : List Nat) (h : Sound D H s) (hip : 0 < H ip) (hat : At L s ip i nd)
    {d' : Disk} {c' : Dinode} (hok : ImageOk L d' (Function.update (s.ino L) i c'))
    (hapart : Apart L (s.ino L) i s.disk d') (hd : dinodeAt L.toSuperblock d' i = c')
    (hw : Whole d' c') (ht : c'.type = nd.type)
    (hdir : D.Ok i ⟨nd.type, c'.nlink, contents d' c'⟩) :
    Sound D H (s.put ip d' l' c') ∧ Keep L H s (s.put ip d' l' c') ∧
      node L (s.put ip d' l' c') =
        Function.update (node L s) i (some ⟨nd.type, c'.nlink, contents d' c'⟩) := by
  have hr := h.ref_pos hip
  have hi : i < L.ninodes := (node_eq_some.mp hat.node).1
  have hne : c'.type ≠ 0 := by
    rw [ht, ← hat.type, hat.copy]
    exact (node_eq_some.mp hat.node).2.1
  have hn : node L (s.put ip d' l' c') =
      Function.update (node L s) i (some ⟨nd.type, c'.nlink, contents d' c'⟩) := by
    rw [node_update hi hapart hd (State.put_disk ..), if_pos hne, ht]
  have hgood : Good L (s.put ip d' l' c') := by
    refine h.good.put hr ?_ ?_ ?_ hw hne <;> rw [hat.inum]
    · exact hok
    · exact hapart
    · exact hd
  have hvalid : ∀ jp, ((s.put ip d' l' c').icache jp).valid = (s.icache jp).valid := by
    intro jp
    by_cases hjp : jp = ip
    · subst hjp
      simp [State.put]
    · simp [State.put, hjp]
  refine ⟨h.of_node hgood (put_refs h) h.nonneg hn ?_,
    ⟨fun jp _ => State.put_inum .., fun jp _ hv => (hvalid jp).trans hv, fun jp hjp hv => ?_⟩, hn⟩
  · rintro nd' ⟨⟩
    exact hdir
  · by_cases hji : (s.icache jp).inum = i
    · rw [hji, State.ino, State.put_disk, hd, ht, ← hat.type, hat.copy]
    · exact congrArg Dinode.type (hapart.dinode _ hji (h.good.range jp (h.ref_pos hjp)).2)

/-- `writei` to a directory or a file. -/
theorem writei_sound {off : Nat} {src : List UInt8} (h : Sound D H s) (hip : 0 < H ip)
    (hat : At L s ip i nd) (ht : nd.type ≠ tDev) (hoff : off < 2 ^ 32) (hsrc : src.length < 2 ^ 32)
    (hdir : D.Ok i { nd with data := overwrite nd.data off src }) :
    Wp (writei ip off src) s (· = .outOfBlocks) fun r s' => Sound D H s' ∧ Keep L H s s' ∧
      ((r = none ∧ s' = s) ∨ (r = some src.length ∧ off ≤ nd.data.length ∧
        node L s' = Function.update (node L s) i
          (some { nd with data := overwrite nd.data off src }))) := by
  have hh := h.good.holds (h.ref_pos hip) hat.valid
  rw [hat.inum] at hh
  have htype : (s.ino L i).type = nd.type := by rw [← hat.copy, hat.type]
  refine (writei_wp hh hat.inum rfl (h.good.whole _ hh.lt hh.type) (by rw [htype]; exact ht) hoff
    hsrc).mono (fun _ he => he.1) fun r s' hr => ?_
  split at hr
  · obtain ⟨rfl, rfl⟩ := hr
    exact ⟨h, .refl, .inl ⟨rfl, rfl⟩⟩
  · rename_i hfit
    obtain ⟨rfl, d', l', c', rfl, hw⟩ := hr
    have hnd : (⟨nd.type, c'.nlink, contents d' c'⟩ : Node) =
        { nd with data := overwrite nd.data off src } := by
      rw [hw.contents, hat.data, hw.fields, ← hat.nlink, hat.copy]
    obtain ⟨hs', hk, hn⟩ := h.put l' hip hat hw.ok hw.apart hw.dinode hw.whole
      (by rw [hw.fields, htype]) (by rw [hnd]; exact hdir)
    rw [hnd] at hn
    refine ⟨hs', hk, .inr ⟨rfl, ?_, hn⟩⟩
    rw [hat.data, length_contents]
    omega

/-- `writei` to what is not a directory: the bytes change, at the most. -/
theorem writei_file {off : Nat} {src : List UInt8} (h : Sound D H s) (hip : 0 < H ip)
    (hat : At L s ip i nd) (ht : nd.type ≠ tDir) (hoff : off < 2 ^ 32) (hsrc : src.length < 2 ^ 32) :
    Wp (writei ip off src) s (fun e => e ≠ .freeingFree ∧ e ≠ .noType) fun _ s' => Sound D H s' ∧
      Keep L H s s' ∧ ∃ data, node L s' =
        Function.update (node L s) i (some { nd with data := data }) := by
  have hsame : node L s = Function.update (node L s) i (some { nd with data := nd.data }) := by
    rw [← hat.node, Function.update_eq_self]
  by_cases hdev : nd.type = tDev
  · simp only [writei, inode, wp_bind, wp_gets, hat.type, if_pos hdev]
    split
    · -- the console lets go of the inode and locks it again
      simp only [consolewrite, wp_bind, wp_pure]
      refine (iunlock_sound h hip).mono (fun e he => by rw [he]; decide) ?_
      rintro - s₁ ⟨hs₁, hk₁, hn₁⟩
      refine (ilock_sound hs₁ hip).mono (fun e he => ?_) ?_
      · obtain rfl | ⟨rfl, hnone⟩ := he
        · decide
        · rw [hk₁.inum ip hip, hat.inum, hn₁, hat.node] at hnone
          cases hnone
      · rintro - s₂ ⟨hs₂, hk₂, hn₂, -⟩
        exact ⟨hs₂, hk₁.trans hk₂, nd.data, by rw [hn₂, hn₁]; exact hsame⟩
    · exact wp_pure.mpr ⟨h, .refl, nd.data, hsame⟩
  · refine (writei_sound h hip hat hdev hoff hsrc (D.file ht)).mono
      (fun e he => by rw [he]; decide) ?_
    rintro r s' ⟨hs', hk, ⟨-, rfl⟩ | ⟨-, -, hn⟩⟩
    · exact ⟨hs', hk, nd.data, hsame⟩
    · exact ⟨hs', hk, _, hn⟩

/-- An operation of the log begins or ends. -/
theorem Sound.log {l : List Nat} {ls : List (List Nat)} (h : Sound D H s) :
    Sound D H { s with logged := l, ended := ls } :=
  ⟨⟨h.good.sb, h.good.image, h.good.whole, h.good.uniq, h.good.range, h.good.copy⟩, h.refs, h.nonneg,
    h.root, h.dirs⟩

theorem Keep.log {l : List Nat} {ls : List (List Nat)} :
    Keep L H s { s with logged := l, ended := ls } := ⟨fun _ _ => rfl, fun _ _ h => h, fun _ _ _ => rfl⟩

/-- Characters are typed or read. -/
theorem Sound.typed (h : Sound D H s) (input : List UInt8) : Sound D H { s with input := input } :=
  ⟨⟨h.good.sb, h.good.image, h.good.whole, h.good.uniq, h.good.range, h.good.copy⟩, h.refs,
    h.nonneg, h.root, h.dirs⟩

/-- `readi` of anything. -/
theorem readi_sound {off n : Nat} (h : Sound D H s) (hip : 0 < H ip) (hat : At L s ip i nd)
    (hoff : off < 2 ^ 32) (hn : n < 2 ^ 32) :
    Wp (readi ip off n) s (fun e => e ≠ .freeingFree ∧ e ≠ .noType) fun _ s' => Sound D H s' ∧
      Keep L H s s' ∧ node L s' = node L s := by
  by_cases hdev : nd.type = tDev
  · simp only [readi, inode, wp_bind, wp_gets, hat.type, if_pos hdev]
    split
    · simp only [consoleread, wp_bind, wp_gets]
      refine (iunlock_sound h hip).mono (fun e he => by rw [he]; decide) ?_
      rintro - s₁ ⟨hs₁, hk₁, hn₁⟩
      split
      · rename_i e he
        rw [wp_stop, consoleLoop_error he]
        decide
      · rename_i bytes input he
        simp only [wp_bind, wp_modify, wp_pure]
        have hk₁' : Keep L H s { s₁ with input := input } := ⟨hk₁.inum, hk₁.valid, hk₁.type⟩
        have hn₁' : node L { s₁ with input := input } = node L s := hn₁
        refine (ilock_sound (hs₁.typed input) hip).mono (fun e he => ?_) ?_
        · obtain rfl | ⟨rfl, hnone⟩ := he
          · decide
          · rw [hk₁'.inum ip hip, hat.inum, hn₁', hat.node] at hnone
            cases hnone
        · rintro - s₂ ⟨hs₂, hk₂, hn₂, -⟩
          exact ⟨hs₂, hk₁'.trans hk₂, hn₂.trans hn₁'⟩
    · exact wp_pure.mpr ⟨h, .refl, rfl⟩
  · refine (readi_at h hip hat hdev hoff hn).post ?_
    rintro r s' ⟨rfl, -⟩
    exact ⟨h, .refl, rfl⟩

/-- Fields other than the type, the size and the addresses are stored. -/
theorem storeFields_sound {E : Stop → Prop} {f : Dinode → Dinode} (h : Sound D H s) (hip : 0 < H ip)
    (hat : At L s ip i nd)
    (hf : ∀ c, (f c).type = c.type ∧ (f c).size = c.size ∧ (f c).addrs = c.addrs) :
    Wp (storeFields ip f) s E fun _ s' => Sound D H s' ∧ Keep L H s s' ∧
      node L s' = Function.update (node L s) i
        (some { nd with nlink := (f (s.icache ip).copy).nlink }) := by
  have hh := h.good.holds (h.ref_pos hip) hat.valid
  rw [hat.inum] at hh
  obtain ⟨ht, hsize, haddrs⟩ := hf (s.ino L i)
  have haddr : (f (s.ino L i)).addr = (s.ino L i).addr := by
    funext k
    simp only [Dinode.addr, haddrs]
  have hplace : ∀ d k, place d (f (s.ino L i)) k = place d (s.ino L i) k := by
    intro d k
    simp only [place, entry, haddr]
  obtain ⟨hok, hapart, hview⟩ := h.good.image.storeIno (f (s.ino L i)) hh.lt fun k => by
    simp only [own, Function.update_self, hplace, ht]
  have hsb : ∀ d l c, (s.put ip d l c).sb = L.toSuperblock := fun _ _ _ => h.good.sb
  have hd := dinodeAt_iupdate (L := L) (d := s.disk) (f (s.ino L i)) i i
  simp only [storeFields, wp_bind, wp_setCopy, wp_iupdate (hsb _ _ _), State.put_disk,
    State.put_logged, State.put_copy, State.put_withDisk, State.put_inum, hat.inum, hat.copy]
  generalize Function.update s.disk (L.iblock i)
    ((f (s.ino L i)).toBlock (s.disk (L.iblock i)) (i % ipb)) = d' at *
  replace hview : view d' (f (s.ino L i)) = view s.disk (s.ino L i) := by
    rw [hview (by rw [ht]; exact hh.type)]
    funext bn
    simp only [view, hplace]
  have hcontents : contents d' (f (s.ino L i)) = nd.data := by
    rw [contents, hview, hsize, hat.data, contents]
  have hwhole : Whole d' (f (s.ino L i)) := by
    obtain ⟨hmax, hmapped⟩ := h.good.whole i hh.lt hh.type
    exact ⟨by rwa [hsize], by rwa [hsize, hview]⟩
  obtain ⟨hs', hk, hn⟩ := h.put (L.iblock i :: s.logged) hip hat hok hapart
    (by rw [hd, if_pos rfl]) hwhole (by rw [ht, ← hat.copy, hat.type])
    (by rw [hcontents]; exact D.nlink _ (h.dirs i nd hat.node))
  rw [hcontents] at hn
  exact ⟨hs', hk, hn⟩

theorem freeInode_eq_some {sb : Superblock} {d : Disk} {n k : Nat}
    (h : freeInode sb d n k = some i) : k ≤ i ∧ i < sb.ninodes ∧ (dinodeAt sb d i).type = 0 := by
  induction n generalizing k with
  | zero => cases h
  | succ n ih =>
      rw [freeInode] at h
      split at h
      · rename_i hk
        split at h
        · rename_i ht
          cases h
          exact ⟨le_rfl, hk, ht⟩
        · obtain ⟨hle, hrest⟩ := ih h
          exact ⟨by omega, hrest⟩
      · cases h

theorem ialloc_sound {type : UInt16} (h : Sound D H s) (ht : type ≠ 0) :
    Wp (ialloc type) s (fun e => e = .ialloc ∨ e = .iget) fun ip s' => ∃ i, 0 < i ∧ i < L.ninodes ∧
      node L s i = none ∧ Sound (D.except i) (plus H ip) s' ∧ Keep L H s s' ∧
      node L s' = Function.update (node L s) i (some ⟨type, 0, []⟩) ∧
      (s'.icache ip).inum = i := by
  simp only [ialloc, wp_bind, wp_gets, h.good.sb]
  split
  · exact wp_stop.mpr (.inl rfl)
  · rename_i i hfree
    obtain ⟨hlow, hi, h0⟩ := freeInode_eq_some hfree
    have h0 : (s.ino L i).type = 0 := h0
    have hplace : ∀ d k, place d (Dinode.new type) k = 0 := by
      intro d k
      simp [place, entry, Dinode.addr, Dinode.new]
    obtain ⟨hok, hapart, -⟩ := h.good.image.storeIno (Dinode.new type) hi fun k => by
      simp [own, hplace, h0]
    have hd := dinodeAt_iupdate (d := s.disk) (L := L) (Dinode.new type) i i
    rw [if_pos rfl] at hd
    have hvalid : ∀ jp, 0 < H jp → (s.icache jp).valid = true → (s.icache jp).inum ≠ i := by
      rintro jp hjp hv rfl
      exact (h.good.copy jp (h.ref_pos hjp) hv).2 h0
    simp only [bread, logWrite, wp_bind, wp_gets, wp_modify]
    generalize Function.update s.disk (L.iblock i)
      ((Dinode.new type).toBlock (s.disk (L.iblock i)) (i % ipb)) = d' at *
    have hgood : Good L (s.withDisk d' (L.iblock i :: s.logged)) :=
      h.good.withDisk (fun jp hjp heq => by
        rw [h.refs jp] at hjp
        by_contra hv
        exact hvalid jp hjp (by simpa using hv) heq) hok hapart hd
        fun _ => ⟨Nat.zero_le _, fun bn hbn => absurd hbn (Nat.not_lt_zero _)⟩
    have hn : node L (s.withDisk d' (L.iblock i :: s.logged)) =
        Function.update (node L s) i (some ⟨type, 0, []⟩) := by
      rw [node_update hi hapart hd rfl]
      exact congrArg (Function.update _ i) (if_pos ht)
    have hs₁ : Sound (D.except i) H (s.withDisk d' (L.iblock i :: s.logged)) := by
      refine (h.except i).of_node hgood h.refs h.nonneg hn ?_
      rintro nd ⟨⟩
      refine Dirs.except_self.mpr fun _ de hde => ?_
      simp [entries] at hde
    refine (iget_sound hs₁ hlow hi).mono (fun _ he => .inr he) ?_
    rintro ip s' ⟨hs', hk, hn', hinum⟩
    refine ⟨i, hlow, hi, (node_eq_none hi).mpr h0, hs', ⟨?_, ?_, ?_⟩, hn'.trans hn, hinum⟩
    · exact hk.inum
    · exact hk.valid
    · intro jp hjp hv
      refine (hk.type jp hjp hv).trans ?_
      exact congrArg Dinode.type (hapart.dinode _ (hvalid jp hjp hv)
        (h.good.range jp (h.ref_pos hjp)).2)

end Cache

/-! ### The small image -/

/-- The root directory of the small image. -/
def rootNode : Node := ⟨rootInode.type, rootInode.nlink, contents smallDisk rootInode⟩

theorem entries_root : entries (contents smallDisk rootInode) = [⟨1, dot⟩, ⟨1, dotdot⟩] := by
  decide

theorem node_small {i : Nat} {nd : Node} (h : node smallLayout smallState i = some nd) :
    i = rootino ∧ nd = rootNode := by
  obtain ⟨hlt, ht, rfl⟩ := node_eq_some.mp h
  obtain ⟨rfl, hroot⟩ | ⟨-, h0⟩ := small_ino hlt
  · exact ⟨rfl, by rw [hroot]; rfl⟩
  · exact absurd h0 ht

/-- With one reference to the root directory. -/
theorem small_sound {D : Dirs smallLayout} (hroot : D.Ok rootino rootNode) :
    Sound D (fun ip => if ip = rootSlot then 1 else 0) smallState where
  good := small_good
  refs ip := by
    simp only [smallState]
    split <;> rfl
  nonneg ip := by
    split <;> decide
  root := by decide
  dirs i nd hi := by
    obtain ⟨rfl, rfl⟩ := node_small hi
    exact hroot

theorem inRange_rootNode : InRange smallLayout rootNode := by
  intro _ de hde
  rw [rootNode, entries_root] at hde
  simp only [List.mem_cons, List.not_mem_nil, or_false] at hde
  obtain rfl | rfl := hde <;> decide

end Xv6.Fs
