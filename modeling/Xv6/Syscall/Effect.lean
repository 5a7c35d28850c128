import Xv6.Fs.Lookup
import Xv6.Syscall.Calls

/-!
# Syscall — what the calls do to the nodes

`link`, `unlink` and `create`, from any well-formed state: the references they leave, and, when the
nodes are tidy (`Tidy`), the nodes.  A call that fails leaves the nodes as they were; one that succeeds
changes two, a directory and the inode its entry is for.
-/

namespace Xv6.Syscall
open Lib Lib.Prog Fs

/-- Inode numbers fit in an entry, and link counts are not negative. -/
structure Room (L : Layout) (s : State) : Prop where
  inum : L.ninodes ≤ 2 ^ 16
  nlink : ∀ i nd, node L s i = some nd → nd.nlink.toNat < 2 ^ 15

/-- The link count of a directory out of which an entry for a node of this type is taken. -/
def parentNlink (n : UInt16) (type : UInt16) : UInt16 := if type = tDir then n + -1 else n

/-- Firm nodes, with room, in which a directory is not a name in itself and has a link for each of its
subdirectories and one more. -/
structure Tidy (L : Layout) (H : Slot → Int) (s : State) : Prop extends Firm L H s where
  room : Room L s
  above : ∀ d dnd, node L s d = some dnd → dnd.type = tDir → ∀ de ∈ entries dnd.data, de.inum ≠ 0 →
    de.name ≠ dot → de.name ≠ dotdot → de.inum ≠ d ∧
      ∀ nd, node L s de.inum = some nd → parentNlink dnd.nlink nd.type ≠ 0

/-- The entry `de` is added to a directory that has none of its name. -/
structure AddedTo (data : List UInt8) (de : Dirent) (data' : List UInt8) : Prop where
  absent : Absent data de.name
  size : data'.length % direntSize = 0
  entries : ∃ k, k ≤ (entries data).length ∧ (∀ e, (entries data)[k]? = some e → e.inum = 0) ∧
    Fs.entries data' = putEntry (Fs.entries data) k de

section Basic
variable {F : Prop} {L : Layout} {D : Dirs L} {H : Slot → Int} {s s' : State} {ip dp : Slot} {i d k : Nat}
  {nd dnd : Node} {name data : List UInt8} {e : Stop}

theorem addNlink_sound {E : Stop → Prop} (n : UInt16) (h : Sound D H s) (hip : 0 < H ip)
    (hat : At L s ip i nd) :
    Wp (addNlink ip n) s E fun _ s' => Sound D H s' ∧ Keep L H s s' ∧
      node L s' = Function.update (node L s) i (some { nd with nlink := nd.nlink + n }) := by
  have hstore : Wp (storeFields ip fun c => { c with nlink := c.nlink + n }) s E _ :=
    storeFields_sound h hip hat fun c => ⟨rfl, rfl, rfl⟩
  refine hstore.post ?_
  rintro - s' ⟨hs', hk, hn⟩
  refine ⟨hs', hk, ?_⟩
  rw [hn, hat.nlink]

theorem Room.add_one (h : Room L s) (hi : node L s i = some nd) : nd.nlink + 1 ≠ 0 := by
  have hlt := h.nlink i nd hi
  intro h0
  have := congrArg UInt16.toNat h0
  rw [UInt16.toNat_add] at this
  simp at this
  omega

theorem Room.dirent (h : Room L s) (hi : i < L.ninodes) (hname : Named name) :
    Dirent.ofBytes (Dirent.bytes ⟨i, name⟩) = ⟨i, name⟩ := by
  refine ofBytes_bytes hname ?_
  exact hi.trans_le h.inum

theorem fine_of_iunlock (h : e = .iunlock) : Fine F e := by
  rw [h]
  exact .of_ne (by decide) (by decide)

/-- What `dirlink` wrote. -/
theorem AddedTo.of_dirlink (hde : Dirent.ofBytes (Dirent.bytes ⟨i, name⟩) = ⟨i, name⟩)
    (habsent : Absent data name) (hfits : Fits data k)
    (hempty : ∀ de, (Fs.entries data)[k]? = some de → de.inum = 0) :
    AddedTo data ⟨i, name⟩ (overwrite data (k * direntSize) (Dirent.bytes ⟨i, name⟩)) where
  absent := habsent
  size := by
    rw [length_overwrite_entry hfits length_dirent_bytes]
    have := habsent.size
    split
    · exact this
    · rw [Nat.add_mod_right]
      exact this
  entries := by
    refine ⟨k, hfits.le_length, hempty, ?_⟩
    rw [entries_overwrite hfits length_dirent_bytes, hde]

end Basic

/-! ### `link` -/

section Link
variable {F : Prop} {L : Layout} {D : Dirs L} {H : Slot → Int} {s s' : State} {ip dp cwd : Slot} {i d k : Nat}
  {nd dnd : Node} {name old new : List UInt8}

/-- One link more to inode `i`, by an entry in directory `d`. -/
def Linked (L : Layout) (s s' : State) : Prop :=
  ∃ i nd d dnd name data, node L s i = some nd ∧ nd.type ≠ tDir ∧ 0 < i ∧
    node L s d = some dnd ∧ dnd.type = tDir ∧ Named name ∧ AddedTo dnd.data ⟨i, name⟩ data ∧
    node L s' = Function.update (Function.update (node L s) i
      (some { nd with nlink := nd.nlink + 1 })) d (some { dnd with data := data })

/-- The count goes back, and with it the nodes. -/
theorem linkBad_sound (h : Sound D (plus H ip) s) (h0 : 0 ≤ H ip) (hi : (s.icache ip).inum = i)
    (hnode : F → node L s i = some { nd with nlink := nd.nlink + 1 })
    (hheld : F → nd.nlink = 0 → Held H s i) :
    Wp (linkBad ip) s (Fine F) fun _ s' => Sound D H s' ∧ Keep L H s s' ∧
      (F → node L s' = Function.update (node L s) i (some nd)) := by
  have hpos := plus_pos h0
  refine (ilock_sound h hpos).seq (fun _ => fine_of_ilock fun f => ?_) ?_
  · rw [hi, hnode f]
    exact Option.some_ne_none _
  rintro - s₁ ⟨hs₁, hk₁, hn₁, nd₁, hat₁⟩
  rw [hi] at hat₁
  have hnd₁ : F → nd₁.nlink + -1 = nd.nlink ∧ ({ nd₁ with nlink := nd₁.nlink + -1 } : Node) = nd := by
    intro f
    have heq := hat₁.node.symm.trans (congrFun hn₁ i)
    rw [hnode f] at heq
    cases heq
    have : nd.nlink + 1 + -1 = nd.nlink := by
      rw [UInt16.add_assoc]
      exact UInt16.add_zero _
    simp only [this, and_self]
  refine (addNlink_sound (-1) hs₁ hpos hat₁).bind ?_
  rintro - s₂ ⟨hs₂, hk₂, hn₂⟩
  have hat₂ := hat₁.keep_node hk₂ hpos hs₂ hpos (by rw [hn₂, Function.update_self])
  refine (iunlockput_sound hs₂ h0 hat₂).seq (fun _ => fine_of_iunlockput) ?_
  rintro - s₃ ⟨hs₃, hk₃, hn₃⟩
  have hk₁₂ := (hk₁.trans hk₂).of_plus
  refine wp_pure.mpr ⟨hs₃, hk₁₂.trans hk₃, fun f => ?_⟩
  obtain ⟨hnl, hnd⟩ := hnd₁ f
  rw [hn₃, if_neg, hn₂, hn₁, hnd]
  rintro ⟨hH, hz⟩
  rw [hnl] at hz
  exact ((hheld f hz).keep hk₁₂).ref_ne_zero hs₂ hat₂.inum h0 hH

/-- `ip` has the link more already. -/
theorem linkNew_sound (h : Sound D (plus H ip) s) (h0 : ∀ jp, 0 ≤ H jp) (hcwd : 0 < H cwd)
    (hnew : (0 : UInt8) ∉ new) (hat : At L s ip i { nd with nlink := nd.nlink + 1 })
    (hnd : nd.type ≠ tDir) (hF : F → Firm L (plus H ip) s) (hheld : F → nd.nlink = 0 → Held H s i)
    (hne : F → nd.nlink + 1 ≠ 0) (hroom : F → L.ninodes ≤ 2 ^ 16) :
    Wp (linkNew cwd ip new) s (Fine F) fun r s' => Sound D H s' ∧ Keep L H s s' ∧
      (F → node L s' = Function.update (node L s) i (some nd) ∨
        r = 0 ∧ ∃ d dnd name data, node L s d = some dnd ∧ dnd.type = tDir ∧ Named name ∧
          AddedTo dnd.data ⟨i, name⟩ data ∧
          node L s' = Function.update (node L s) d (some { dnd with data := data })) := by
  have hpos := plus_pos (h0 ip)
  have hi := (h.good.range ip (h.ref_pos hpos)).2
  rw [hat.inum] at hi
  -- whichever way it fails, the count goes back
  have hbad : ∀ s', Sound D (plus H ip) s' → Quiet F L (plus H ip) s s' →
      Wp (linkBad ip) s' (Fine F) fun _ s'' => Sound D H s'' ∧ Keep L H s s'' ∧
        (F → node L s'' = Function.update (node L s) i (some nd)) := by
    intro s' hs' hq
    refine (linkBad_sound hs' (h0 ip) ((hq.keep.inum ip hpos).trans hat.inum)
      (fun f => by rw [hq.nodes f]; exact hat.node)
      fun f hz => (hheld f hz).keep hq.of_plus.keep).post ?_
    rintro - s'' ⟨hs'', hk, hn⟩
    exact ⟨hs'', hq.of_plus.keep.trans hk, fun f => by rw [hn f, hq.nodes f]⟩
  refine (namex_sound h (hcwd.trans_le (le_plus ip cwd)) hF hnew).bind fun r s₁ hr => ?_
  cases r with
  | none =>
      refine (hbad s₁ hr.1 hr.2.1).post ?_
      rintro - s' ⟨hs', hk, hn⟩
      exact ⟨hs', hk, fun f => .inl (hn f)⟩
  | some r =>
      obtain ⟨dp, name⟩ := r
      obtain ⟨hs₁, hq₁, hdp₁, hname, -⟩ := hr
      have h0' : 0 ≤ plus H ip dp := (h0 dp).trans (le_plus ip dp)
      have hdp := plus_pos h0'
      refine (ilock_sound hs₁ hdp).seq (fun _ => fine_of_ilock hdp₁) ?_
      rintro - s₂ ⟨hs₂, hk₂, hn₂, dnd, hatd⟩
      generalize (s₁.icache dp).inum = d at hatd
      have hq₂ : Quiet F L (plus H ip) s s₂ := hq₁.trans (.of_eq hk₂.of_plus hn₂)
      simp only [inode, wp_bind, wp_gets, hq₂.keep.inum ip hpos, hat.inum]
      have hF₂ : F → Firm L (plus (plus H ip) dp) s₂ := fun f =>
        (hq₂.firm hF f).plus (by rw [hatd.inum, hatd.node]; exact Option.some_ne_none _)
      refine (dirlink_sound hs₂ hdp hatd hi hname hF₂).mono (fun _ => .of_true) ?_
      rintro linked s₃ ⟨ht, hs₃, hr⟩
      cases linked with
      | false =>
          obtain ⟨dnd₃, hatd₃, -⟩ := hatd.keep hr.keep hdp hs₃ hdp
          have hq₃ := hq₂.trans hr.of_plus
          rw [if_pos rfl]
          refine (iunlockput_quiet hs₃ h0' hatd₃ (hq₃.firm hF)).bind ?_
          rintro - s₄ ⟨hs₄, hq₄⟩
          refine (hbad s₄ hs₄ (hq₃.trans hq₄)).post ?_
          rintro - s' ⟨hs', hk, hn⟩
          exact ⟨hs', hk, fun f => .inl (hn f)⟩
      | true =>
          obtain ⟨hk₃, habsent, k, hfits, hempty, hn₃⟩ := hr
          rw [if_neg (by decide)]
          have hatd₃ := hatd.keep_node hk₃ hdp hs₃ hdp (by rw [hn₃, Function.update_self])
          refine (iunlockput_sound hs₃ h0' hatd₃).seq (fun _ => fine_of_iunlockput) ?_
          rintro - s₄ ⟨hs₄, hk₄, hn₄⟩
          have hk₂₃ := hk₃.of_plus
          have hk := (hq₂.keep.trans hk₂₃).trans hk₄
          refine (iput_sound hs₄ (h0 ip)).seq (fun _ => fine_of_iput) ?_
          rintro - s₅ ⟨hs₅, hk₅, hput⟩
          refine wp_pure.mpr ⟨hs₅, hk.of_plus.trans hk₅, fun f => .inr ?_⟩
          have hd : node L s d = some dnd := by
            rw [← hq₂.nodes f]
            exact hatd.node
          have hid : i ≠ d := by
            rintro rfl
            cases hat.node.symm.trans hd
            exact hnd ht
          have hn₄' : node L s₄ = Function.update (node L s) d (some { dnd with
              data := overwrite dnd.data (k * direntSize) (Dirent.bytes ⟨i, name⟩) }) := by
            rw [hn₄, if_neg, hn₃, hq₂.nodes f]
            rintro ⟨hH, hz⟩
            exact (((hq₂.firm hF f).dead d dnd hatd.node hz).keep hk₂₃).ref_ne_zero hs₃ hatd₃.inum
              h0' hH
          refine ⟨rfl, d, dnd, name, _, hd, ht, hname, .of_dirlink (ofBytes_bytes hname
            (hi.trans_le (hroom f))) habsent hfits hempty, ?_⟩
          obtain ⟨hn₅, -⟩ | ⟨-, ⟨nd₄, hat₄, hz⟩, -⟩ := hput
          · rw [hn₅, hn₄']
          · -- the count of `ip` is not zero, so it is not freed
            have hnode := hat₄.node
            rw [hk.inum ip hpos, hat.inum, hn₄', Function.update_of_ne hid, hat.node] at hnode
            cases hnode
            exact absurd hz (hne f)

theorem Linked.refs (h : Linked L s s') (hF : Tidy L H s) (hk : Keep L H s s') : Refs L H s' := by
  obtain ⟨i, nd, d, dnd, name, data, hi, -, -, hd, -, -, -, hn⟩ := h
  exact hF.toRefs.of_updates hk hn (.of_ne_zero (hF.room.add_one hi)) (.of_nlink hd id)

theorem link_sound (h : Sound D H s) (hcwd : 0 < H cwd) (hold : (0 : UInt8) ∉ old)
    (hnew : (0 : UInt8) ∉ new) (hT : F → Tidy L H s) :
    Wp (link cwd old new) s (Fine F) fun r s' => Sound D H s' ∧ Keep L H s s' ∧
      (F → Refs L H s' ∧ (node L s' = node L s ∨ r = 0 ∧ Linked L s s')) := by
  have hF : F → Firm L H s := fun f => (hT f).toFirm
  have hroom : F → Room L s := fun f => (hT f).room
  have hsame : ∀ {s'} {P : Prop}, Quiet F L H s s' → F → Refs L H s' ∧ (node L s' = node L s ∨ P) :=
    fun hq f => ⟨(hq.firm hF f).toRefs, .inl (hq.nodes f)⟩
  refine (namei_sound h hcwd hF hold).bind fun r s₁ hr => ?_
  cases r with
  | none => exact wp_pure.mpr ⟨hr.1, hr.2.keep, hsame hr.2⟩
  | some ip =>
      obtain ⟨hs₁, hq₁, hip₁⟩ := hr
      have h0 := h.nonneg ip
      have hpos := plus_pos h0
      refine (ilock_sound hs₁ hpos).seq (fun _ => fine_of_ilock hip₁) ?_
      rintro - s₂ ⟨hs₂, hk₂, hn₂, nd, hat₂⟩
      generalize (s₁.icache ip).inum = i at hat₂
      have hq₂ : Quiet F L H s s₂ := hq₁.trans (.of_eq hk₂.of_plus hn₂)
      simp only [inode, wp_bind, wp_gets, hat₂.type]
      split
      · refine (iunlockput_quiet hs₂ h0 hat₂ (hq₂.firm hF)).bind ?_
        rintro - s₃ ⟨hs₃, hq₃⟩
        exact wp_pure.mpr ⟨hs₃, (hq₂.trans hq₃).keep, hsame (hq₂.trans hq₃)⟩
      · rename_i hnd
        refine (addNlink_sound 1 hs₂ hpos hat₂).bind ?_
        rintro - s₃ ⟨hs₃, hk₃, hn₃⟩
        have hF₃ : F → Firm L (plus H ip) s₃ := fun f =>
          ((hq₂.firm hF f).plus (by rw [hat₂.inum, hat₂.node]; exact Option.some_ne_none _)).setNlink
            hk₃ hat₂.node ⟨ip, hpos, hat₂.inum, hat₂.valid⟩ hn₃
        refine (iunlock_sound hs₃ hpos).seq (fun _ => fine_of_iunlock) ?_
        rintro - s₄ ⟨hs₄, hk₄, hn₄⟩
        have hq₄ : Quiet F L (plus H ip) s₃ s₄ := .of_eq hk₄ hn₄
        have hk := hk₃.trans hk₄
        have hat₄ : At L s₄ ip i { nd with nlink := nd.nlink + 1 } :=
          hat₂.keep_node hk hpos hs₄ hpos (by rw [hn₄, hn₃, Function.update_self])
        refine (linkNew_sound hs₄ h.nonneg hcwd hnew hat₄ hnd (hq₄.firm hF₃)
          (fun f hz => ((hq₂.firm hF f).dead i nd hat₂.node hz).keep hk.of_plus)
          (fun f => (hroom f).add_one (by rw [← hq₂.nodes f]; exact hat₂.node))
          fun f => (hroom f).inum).post ?_
        rintro r s' ⟨hs', hk', hn'⟩
        have hk' := hq₂.keep.trans (hk.of_plus.trans hk')
        refine ⟨hs', hk', fun f => ?_⟩
        have hi : node L s i = some nd := by
          rw [← hq₂.nodes f]
          exact hat₂.node
        rw [hn₄, hn₃, hq₂.nodes f] at hn'
        obtain hn' | ⟨hr, d, dnd, name, data, hd, ht, hname, hadd, hn'⟩ := hn' f
        · rw [Function.update_idem, ← hi, Function.update_eq_self] at hn'
          exact ⟨((hF f).keep hk' hn').toRefs, .inl hn'⟩
        · have hdi : d ≠ i := by
            rintro rfl
            rw [Function.update_self] at hd
            cases hd
            exact hnd ht
          rw [Function.update_of_ne hdi] at hd
          have hlow := (hs₂.good.range ip (hs₂.ref_pos hpos)).1
          rw [hat₂.inum] at hlow
          have hl : Linked L s s' := ⟨i, nd, d, dnd, name, data, hi, hnd, hlow, hd, ht, hname, hadd, hn'⟩
          exact ⟨hl.refs (hT f) hk', .inr ⟨hr, hl⟩⟩

end Link

/-! ### `unlink` -/

/-- What `iput` leaves of inode `i`: the node, if it has links or somebody refers to it; else
nothing. -/
inductive Dropped (H : Slot → Int) (s : State) (i : Nat) (nd : Node) : Option Node → Prop
  | kept (h : nd.nlink = 0 → Held H s i) : Dropped H s i nd (some nd)
  | freed (h : nd.nlink = 0) (h' : ∀ jp, 0 < H jp → (s.icache jp).inum ≠ i) : Dropped H s i nd none

/-- The entry `de` is taken out of directory `d`, and its inode goes if nothing is left that refers to
it. -/
def Unlinked (L : Layout) (s s' : State) : Prop :=
  ∃ i nd d dnd name k de r, node L s i = some nd ∧ (nd.type = tDir → ∀ j e, 2 ≤ j →
      (entries nd.data)[j]? = some e → e.inum = 0) ∧ nd.nlink.toBitVec.toInt ≥ 1 ∧
    node L s d = some dnd ∧ dnd.type = tDir ∧ name ≠ dot ∧ name ≠ dotdot ∧
    FoundAt dnd.data name k de ∧ de.inum = i ∧ i ≠ d ∧ parentNlink dnd.nlink nd.type ≠ 0 ∧
    (r = some { nd with nlink := nd.nlink + -1 } ∨ r = none ∧ nd.nlink + -1 = 0) ∧
    node L s' = Function.update (Function.update (node L s) d (some { dnd with
      nlink := parentNlink dnd.nlink nd.type
      data := overwrite dnd.data (k * direntSize) (List.replicate direntSize 0) })) i r

section Unlink
variable {F : Prop} {L : Layout} {D : Dirs L} {H : Slot → Int} {s s' : State} {ip dp cwd : Slot}
  {i d k : Nat} {nd dnd : Node} {name path : List UInt8} {de : Dirent}

/-- `iunlockput` of the last lock a call has. -/
theorem iunlockput_dropped (h : Sound D (plus H ip) s) (h0 : 0 ≤ H ip) (hat : At L s ip i nd) :
    Wp (iunlockput ip) s (Fine F) fun _ s' => Sound D H s' ∧ Keep L H s s' ∧
      ∃ r, Dropped H s' i nd r ∧ node L s' = Function.update (node L s) i r := by
  refine (iunlockput_sound h h0 hat).mono (fun _ => fine_of_iunlockput) ?_
  rintro - s' ⟨hs', hk, hn⟩
  refine ⟨hs', hk, ?_⟩
  split at hn
  · rename_i hfree
    refine ⟨none, .freed hfree.2 fun jp hjp heq => ?_, hn⟩
    rw [hk.inum jp hjp] at heq
    have hjp' : jp = ip := h.good.uniq jp ip (h.ref_pos (hjp.trans_le (le_plus ip jp)))
      (h.ref_pos (plus_pos h0)) (heq.trans hat.inum.symm)
    rw [hjp', hfree.1] at hjp
    exact lt_irrefl _ hjp
  · rename_i hkeep
    refine ⟨some nd, .kept fun hz => ?_, ?_⟩
    · have hip : 0 < H ip := lt_of_le_of_ne h0 fun heq => hkeep ⟨heq.symm, hz⟩
      exact ⟨ip, hip, (hk.inum ip hip).trans hat.inum, hk.valid ip hip hat.valid⟩
    · rw [hn, ← hat.node, Function.update_eq_self]

theorem Dropped.kept_update {f : Nat → Option Node} {r : Option Node} (h : Dropped H s i nd r)
    (hi : f i = some nd) : Kept f (Function.update f i r) := by
  refine .update fun nd' hr => ?_
  cases h with
  | kept =>
      cases hr
      exact ⟨nd, hi, rfl, rfl⟩
  | freed => cases hr

/-- The directory has a subdirectory less, if the entry was one's. -/
theorem unlinkParent_sound {E : Stop → Prop} {type : UInt16} (h : Sound D H s) (hdp : 0 < H dp)
    (hat : At L s dp d dnd) :
    Wp (unlinkParent dp type) s E fun _ s' => Sound D H s' ∧ Keep L H s s' ∧
      node L s' = Function.update (node L s) d
        (some { dnd with nlink := parentNlink dnd.nlink type }) := by
  unfold parentNlink unlinkParent
  split
  · exact addNlink_sound (-1) h hdp hat
  · refine wp_pure.mpr ⟨h, .refl, ?_⟩
    rw [← hat.node, Function.update_eq_self]

theorem unlinkEntry_sound (h : Sound D (plus (plus H dp) ip) s) (h0 : ∀ jp, 0 ≤ H jp)
    (hatd : At L s dp d dnd) (hati : At L s ip i nd) (ht : dnd.type = tDir)
    (hfound : FoundAt dnd.data name k de) (hdot : name ≠ dot) (hdotdot : name ≠ dotdot) :
    Wp (unlinkEntry dp ip (k * direntSize)) s (Fine F) fun r s' => r = 0 ∧ Sound D H s' ∧
      Keep L H s s' ∧
      Kept (Function.update (node L s) d (some { dnd with data := cleared dnd.data k }))
        (node L s') ∧
      (i ≠ d → parentNlink dnd.nlink nd.type ≠ 0 → ∃ r,
        Dropped H s' i { nd with nlink := nd.nlink + -1 } r ∧
        node L s' = Function.update (Function.update (node L s) d (some { dnd with
          nlink := parentNlink dnd.nlink nd.type
          data := overwrite dnd.data (k * direntSize) (List.replicate direntSize 0) })) i r) := by
  have hip : 0 < plus (plus H dp) ip ip := plus_pos ((h0 ip).trans (le_plus dp ip))
  have hdp : 0 < plus (plus H dp) ip dp := (plus_pos (h0 dp)).trans_le (le_plus ip dp)
  have hip' : 0 < plus H ip ip := plus_pos (h0 ip)
  refine (writeEntry_sound h hdp hatd ht hfound.fits List.length_replicate
    (D.clear (h.dirs d dnd hatd.node) hfound hdot hdotdot)).seq
    (fun e he => .of_ne (by rw [he]; decide) (by rw [he]; decide)) ?_
  rintro r s₁ ⟨hs₁, hk₁, rfl | ⟨rfl, hn₁⟩⟩
  · rw [if_pos nofun]
    exact wp_stop.mpr (.of_ne (by decide) (by decide))
  rw [if_neg (not_not.mpr rfl)]
  have hatd₁ := hatd.keep_node hk₁ hdp hs₁ hdp (by rw [hn₁, Function.update_self])
  obtain ⟨nd₁, hati₁, htype⟩ := hati.keep hk₁ hip hs₁ hip
  simp only [inode, wp_bind, wp_gets, hati₁.type, htype]
  refine (unlinkParent_sound hs₁ hdp hatd₁).post ?_
  rintro - s₂ ⟨hs₂, hk₂, hn₂⟩
  have hatd₂ := hatd₁.keep_node hk₂ hdp hs₂ hdp (by rw [hn₂, Function.update_self])
  obtain ⟨nd₂, hati₂, -⟩ := hati₁.keep hk₂ hip hs₂ hip
  have hs₂' : Sound D (plus (plus H ip) dp) s₂ := by
    rw [plus_comm]
    exact hs₂
  refine (iunlockput_sound hs₂' ((h0 dp).trans (le_plus ip dp)) hatd₂).mono
    (fun _ => fine_of_iunlockput) ?_
  rintro - s₃ ⟨hs₃, hk₃, hn₃⟩
  obtain ⟨nd₃, hati₃, -⟩ := hati₂.keep hk₃ hip' hs₃ hip'
  refine (addNlink_sound (-1) hs₃ hip' hati₃).post ?_
  rintro - s₄ ⟨hs₄, hk₄, hn₄⟩
  have hati₄ := hati₃.keep_node hk₄ hip' hs₄ hip' (by rw [hn₄, Function.update_self])
  refine (iunlockput_dropped hs₄ (h0 ip) hati₄).post ?_
  rintro - s₅ ⟨hs₅, hk₅, r, hr, hn₅⟩
  have hk₁₂ : Keep L (plus H ip) s s₂ := by
    have := hk₁.trans hk₂
    rw [plus_comm] at this
    exact this.of_plus
  have hkept : Kept (Function.update (node L s) d (some { dnd with data := cleared dnd.data k }))
      (node L s₅) := by
    have h₁₂ : Kept (node L s₁) (node L s₂) := by
      rw [hn₂]
      exact .setNlink _ hatd₁.node
    have h₃₄ : Kept (node L s₃) (node L s₄) := by
      rw [hn₄]
      exact .setNlink _ hati₃.node
    have h₄₅ : Kept (node L s₄) (node L s₅) := by
      rw [hn₅]
      exact hr.kept_update hati₄.node
    rw [hn₁] at h₁₂
    exact ((h₁₂.trans (kept_of_ite hn₃)).trans h₃₄).trans h₄₅
  refine wp_pure.mpr ⟨rfl, hs₅, ((hk₁₂.trans hk₃).trans hk₄).of_plus.trans hk₅, hkept,
    fun hid hnz => ?_⟩
  rw [if_neg fun hz => hnz hz.2, hn₂, hn₁, Function.update_idem] at hn₃
  -- the other node is the same all along
  have hnd₃ : nd₃ = nd := by
    have := hati₃.node
    rw [hn₃, Function.update_of_ne hid, hati.node] at this
    cases this
    rfl
  subst hnd₃
  refine ⟨r, hr, ?_⟩
  rw [hn₅, hn₄, Function.update_idem, hn₃]

/-- After an entry is taken out. -/
theorem Dropped.refs {r : Option Node} {ddata : List UInt8} {n : UInt16}
    (h : Dropped H s' i { nd with nlink := nd.nlink + -1 } r) (hF : Firm L H s) (hk : Keep L H s s')
    (hn : n ≠ 0) (hnode : node L s' = Function.update (Function.update (node L s) d
      (some { dnd with nlink := n, data := ddata })) i r) : Refs L H s' := by
  refine hF.toRefs.of_updates hk hnode (.of_ne_zero hn) ?_
  cases h with
  | kept hheld =>
      refine ⟨fun nd' hr hz => ?_, nofun⟩
      cases hr
      exact .inl (hheld hz)
  | freed _ hnot => exact ⟨nofun, fun _ => .inr hnot⟩

/-- Only an entry for an inode that is no directory, or an empty one, goes from a directory. -/
def Unlinks (f f' : Nat → Option Node) : Prop :=
  ∀ d dnd', f' d = some dnd' → ∃ dnd, f d = some dnd ∧ dnd'.type = dnd.type ∧
    ∀ (k : Nat) (de : Dirent), (entries dnd.data)[k]? = some de →
      (entries dnd'.data)[k]? = some de ∨
      de.name ≠ dot ∧ de.name ≠ dotdot ∧ ∃ nd, f de.inum = some nd ∧
        (nd.type = tDir → ∀ j e, 2 ≤ j → (entries nd.data)[j]? = some e → e.inum = 0)

theorem unlinks_of_kept {f f' : Nat → Option Node} (h : Kept f f') : Unlinks f f' := by
  intro d dnd' hd'
  obtain ⟨dnd, hd, ht, hdata⟩ := h d dnd' hd'
  refine ⟨dnd, hd, ht, fun k de hde => .inl ?_⟩
  rw [hdata]
  exact hde

theorem unlinks_of_cleared {f f₁ f' : Nat → Option Node} (h : Kept f f₁) (hd : f₁ d = some dnd)
    (hi : f₁ de.inum = some nd) (hfound : FoundAt dnd.data name k de) (hdot : name ≠ dot)
    (hdotdot : name ≠ dotdot)
    (hempty : nd.type = tDir → ∀ j e, 2 ≤ j → (entries nd.data)[j]? = some e → e.inum = 0)
    (h' : Kept (Function.update f₁ d (some { dnd with data := cleared dnd.data k })) f') :
    Unlinks f f' := by
  intro d' dnd' hd'
  obtain ⟨dnd₁, hd₁, ht₁, hdata₁⟩ := h' d' dnd' hd'
  by_cases hdd : d' = d
  · subst hdd
    rw [Function.update_self] at hd₁
    cases hd₁
    obtain ⟨dnd₀, hd₀, ht₀, hdata₀⟩ := h d' dnd hd
    obtain ⟨nd₀, hi₀, hti₀, hdatai₀⟩ := h de.inum nd hi
    refine ⟨dnd₀, hd₀, ht₁.trans ht₀, fun j e hj => ?_⟩
    rw [← hdata₀] at hj
    by_cases hjk : j = k
    · subst hjk
      cases hj.symm.trans hfound.get
      rw [hfound.name]
      refine .inr ⟨hdot, hdotdot, nd₀, hi₀, fun ht => ?_⟩
      rw [← hdatai₀]
      exact hempty (hti₀.trans ht)
    · refine .inl ?_
      rw [hdata₁, entries_cleared hfound.fits, getElem?_putEntry hfound.fits.le_length, if_neg hjk]
      exact hj
  · rw [Function.update_of_ne hdd] at hd₁
    obtain ⟨dnd₀, hd₀, ht₀, hdata₀⟩ := h d' dnd₁ hd₁
    refine ⟨dnd₀, hd₀, ht₁.trans ht₀, fun j e hj => .inl ?_⟩
    rw [hdata₁, hdata₀]
    exact hj

theorem unlink_sound (h : Sound D H s) (hcwd : 0 < H cwd) (hpath : (0 : UInt8) ∉ path)
    (hT : F → Tidy L H s) :
    Wp (unlink cwd path) s (Fine F) fun r s' => Sound D H s' ∧ Keep L H s s' ∧
      Unlinks (node L s) (node L s') ∧
      (F → Refs L H s' ∧ (node L s' = node L s ∨ r = 0 ∧ Unlinked L s s')) := by
  have hF : F → Firm L H s := fun f => (hT f).toFirm
  have hsame : ∀ {s'} {P : Prop}, Quiet F L H s s' → F → Refs L H s' ∧ (node L s' = node L s ∨ P) :=
    fun hq f => ⟨(hq.firm hF f).toRefs, .inl (hq.nodes f)⟩
  refine (namex_sound h hcwd hF hpath).bind fun r s₁ hr => ?_
  cases r with
  | none => exact wp_pure.mpr ⟨hr.1, hr.2.1.keep, unlinks_of_kept hr.2.1.kept, hsame hr.2.1⟩
  | some r =>
      obtain ⟨dp, name⟩ := r
      obtain ⟨hs₁, hq₁, hdp₁, -⟩ := hr
      have h0 := h.nonneg dp
      have hdp := plus_pos h0
      refine (ilock_sound hs₁ hdp).seq (fun _ => fine_of_ilock hdp₁) ?_
      rintro - s₂ ⟨hs₂, hk₂, hn₂, dnd, hatd⟩
      generalize (s₁.icache dp).inum = d at hatd
      have hq₂ : Quiet F L H s s₂ := hq₁.trans (.of_eq hk₂.of_plus hn₂)
      -- two of the ways it fails are the same
      have hfail : ∀ s', Sound D (plus H dp) s' → (∃ nd', At L s' dp d nd') → Quiet F L H s s' →
          Wp (do iunlockput dp; pure (-1 : Int)) s' (Fine F) fun r s'' => Sound D H s'' ∧
            Keep L H s s'' ∧ Unlinks (node L s) (node L s'') ∧
              (F → Refs L H s'' ∧ (node L s'' = node L s ∨ r = 0 ∧ Unlinked L s s'')) := by
        rintro s' hs' ⟨nd', hat'⟩ hq
        refine (iunlockput_quiet hs' h0 hat' (hq.firm hF)).bind ?_
        rintro - s'' ⟨hs'', hq'⟩
        have hq'' := hq.trans hq'
        exact wp_pure.mpr ⟨hs'', hq''.keep, unlinks_of_kept hq''.kept, hsame hq''⟩
      split
      · exact hfail s₂ hs₂ ⟨dnd, hatd⟩ hq₂
      · rename_i hname
        refine (dirlookup_sound hs₂ hdp hatd).seq (fun _ => fine_of_dirlookup) ?_
        rintro r s₃ ⟨ht, hr⟩
        cases r with
        | none =>
            obtain ⟨rfl, -⟩ := hr
            exact hfail s₃ hs₂ ⟨dnd, hatd⟩ hq₂
        | some r =>
            obtain ⟨ip, off⟩ := r
            obtain ⟨k, de, hfound, rfl, hs₃, hk₃, hn₃, hinum, -⟩ := hr
            have hq₃ : Quiet F L H s s₃ := hq₂.trans (.of_eq hk₃.of_plus hn₃)
            have hip : 0 < plus (plus H dp) ip ip := plus_pos ((h.nonneg ip).trans (le_plus dp ip))
            have hdp' : 0 < plus (plus H dp) ip dp := hdp.trans_le (le_plus ip dp)
            have hip₃ : F → node L s₃ (s₃.icache ip).inum ≠ none := by
              intro f
              rw [hinum]
              exact (hq₃.firm hF f).closed d dnd (by rw [hn₃]; exact hatd.node) ht de
                (List.mem_of_getElem? hfound.get) hfound.inum
            refine (ilock_sound hs₃ hip).seq (fun _ => fine_of_ilock hip₃) ?_
            rintro - s₄ ⟨hs₄, hk₄, hn₄, nd, hati⟩
            rw [hinum] at hati
            have hq₄ : Quiet F L H s s₄ := hq₃.trans (.of_eq hk₄.of_plus.of_plus hn₄)
            have hatd₄ : At L s₄ dp d dnd := by
              have hatd₃ := hatd.keep_node hk₃ hdp hs₃ hdp' (by rw [hn₃]; exact hatd.node)
              exact hatd₃.keep_node hk₄ hdp' hs₄ hdp' (by rw [hn₄]; exact hatd₃.node)
            simp only [inode, wp_bind, wp_gets, hati.type, hati.nlink]
            split
            · exact wp_stop.mpr (.of_ne (by decide) (by decide))
            · rename_i hnl
              have hempty : Wp (unlinkEmpty ip nd.type) s₄ (Fine F) fun b s' => s' = s₄ ∧ (b = true →
                  nd.type = tDir → ∀ j e, 2 ≤ j → (entries nd.data)[j]? = some e → e.inum = 0) := by
                unfold unlinkEmpty
                split
                · rename_i hdir
                  refine (isdirempty_wp hs₄ hip hati hdir).mono
                    (fun e he => .of_ne (by rw [he.1]; decide) (by rw [he.1]; decide)) ?_
                  exact fun b s' hb => ⟨hb.1, fun htrue _ => hb.2.mp htrue⟩
                · rename_i hdir
                  exact wp_pure.mpr ⟨rfl, fun _ h => absurd h hdir⟩
              rw [wp_bind]
              refine hempty.post ?_
              rintro empty s' ⟨rfl, hempty⟩
              cases empty with
              | false =>
                  rw [if_pos rfl]
                  refine (iunlockput_quiet hs₄ ((h.nonneg ip).trans (le_plus dp ip)) hati
                    fun f => (hq₄.firm hF f).plus ?_).bind ?_
                  · rw [hatd₄.inum, hatd₄.node]
                    exact Option.some_ne_none _
                  rintro - s₅ ⟨hs₅, hq₅⟩
                  obtain ⟨nd', hat', -⟩ := hatd₄.keep hq₅.keep hdp hs₅ hdp
                  exact hfail s₅ hs₅ ⟨nd', hat'⟩ (hq₄.trans hq₅.of_plus)
              | true =>
                  rw [if_neg (by decide)]
                  obtain ⟨hdot, hdotdot⟩ := not_or.mp hname
                  refine (unlinkEntry_sound hs₄ h.nonneg hatd₄ hati ht hfound hdot hdotdot).post ?_
                  rintro r s' ⟨rfl, hs', hk', hkept, hn'⟩
                  have hk' := hq₄.keep.trans hk'
                  refine ⟨hs', hk', unlinks_of_cleared hq₄.kept hatd₄.node hati.node hfound hdot
                    hdotdot (hempty rfl) hkept, fun f => ?_⟩
                  have hn := hq₄.nodes f
                  have hd : node L s d = some dnd := by
                    rw [← hn]
                    exact hatd₄.node
                  have hi : node L s de.inum = some nd := by
                    rw [← hn]
                    exact hati.node
                  have hnames : de.name ≠ dot ∧ de.name ≠ dotdot := by
                    rw [hfound.name]
                    exact ⟨hdot, hdotdot⟩
                  obtain ⟨hid, hparent⟩ := (hT f).above d dnd hd ht de
                    (List.mem_of_getElem? hfound.get) hfound.inum hnames.1 hnames.2
                  obtain ⟨r, hr, hn'⟩ := hn' hid (hparent nd hi)
                  rw [hn] at hn'
                  refine ⟨hr.refs (hT f).toFirm hk' (hparent nd hi) hn',
                    .inr ⟨rfl, de.inum, nd, d, dnd, de.name, k, de, r, hi, hempty rfl, not_lt.mp hnl, hd, ht,
                    hnames.1, hnames.2, ⟨hfound.get, hfound.inum, rfl⟩, rfl, hid, hparent nd hi, ?_,
                    hn'⟩⟩
                  cases hr with
                  | kept => exact .inl rfl
                  | freed hz => exact .inr ⟨rfl, hz⟩

end Unlink

/-! ### `create` -/

/-- The bytes of a new inode: none, or `.` and `..`. -/
def Dots (i d : Nat) (type : UInt16) (data : List UInt8) : Prop :=
  if type = tDir then entries data = [⟨i, dot⟩, ⟨d, dotdot⟩] ∧ data.length % direntSize = 0
  else data = []

/-- The link count of a directory that gets an entry for a new node of this type. -/
def createNlink (n : UInt16) (type : UInt16) : UInt16 := if type = tDir then n + 1 else n

/-- A new inode, and an entry for it in directory `d`. -/
def Created (L : Layout) (type : UInt16) (s s' : State) : Prop :=
  ∃ i data d dnd name ddata, node L s i = none ∧ 0 < i ∧ i < L.ninodes ∧ Dots i d type data ∧
    node L s d = some dnd ∧ dnd.type = tDir ∧ Named name ∧ AddedTo dnd.data ⟨i, name⟩ ddata ∧
    node L s' = Function.update (Function.update (node L s) i (some ⟨type, 1, data⟩)) d
      (some { dnd with nlink := createNlink dnd.nlink type, data := ddata })

section Create
variable {F : Prop} {L : Layout} {D : Dirs L} {H : Slot → Int} {s s' : State} {ip dp cwd : Slot} {i d k : Nat}
  {nd dnd : Node} {name path data data' : List UInt8} {type major minor : UInt16}

theorem named_dot : Named dot := ⟨by decide, by decide⟩

theorem named_dotdot : Named dotdot := ⟨by decide, by decide⟩

theorem entries_of_dots (hi : i ≠ 0) (h : AddedTo [] ⟨i, dot⟩ data)
    (h' : AddedTo data ⟨d, dotdot⟩ data') : entries data' = [⟨i, dot⟩, ⟨d, dotdot⟩] := by
  obtain ⟨k, hk, -, he⟩ := h.entries
  obtain rfl : k = 0 := Nat.le_zero.mp hk
  obtain ⟨k', hk', hempty, he'⟩ := h'.entries
  have he : entries data = [⟨i, dot⟩] := he
  rw [he] at hk' hempty he'
  obtain rfl : k' = 1 := by
    refine le_antisymm hk' (Nat.one_le_iff_ne_zero.mpr ?_)
    rintro rfl
    exact hi (hempty _ rfl)
  exact he'

theorem createDots_sound (h : Sound (D.except i) H s) (hip : 0 < H ip) (hdp : 0 < H dp)
    (hati : At L s ip i ⟨type, 1, []⟩) (hatd : At L s dp d dnd) (hid : i ≠ d) :
    Wp (createDots dp ip type) s (Fine F) fun _ s' => Sound D H s' ∧ Keep L H s s' ∧
      ∃ data, (L.ninodes ≤ 2 ^ 16 → Dots i d type data) ∧
        node L s' = Function.update (Function.update (node L s) d
          (some { dnd with nlink := createNlink dnd.nlink type })) i (some ⟨type, 1, data⟩) := by
  have hrange : ∀ {jp}, 0 < H jp → (s.icache jp).inum ≠ 0 ∧ (s.icache jp).inum < L.ninodes :=
    fun hjp => (h.good.range _ (h.ref_pos hjp)).imp_left Nat.pos_iff_ne_zero.mp
  have hri := hrange hip
  have hrd := hrange hdp
  rw [hati.inum] at hri
  rw [hatd.inum] at hrd
  unfold createDots Dots createNlink
  by_cases ht : type = tDir
  · simp only [if_pos ht, inode, wp_bind, wp_gets]
    refine (addNlink_sound 1 h hdp hatd).post ?_
    rintro - s₁ ⟨hs₁, hk₁, hn₁⟩
    have hati₁ := hati.keep_node hk₁ hip hs₁ hip
      (by rw [hn₁, Function.update_of_ne hid]; exact hati.node)
    rw [hati₁.inum]
    refine (dirlink_sound hs₁ hip hati₁ hri.2 named_dot False.elim).mono (fun _ => .of_true) ?_
    rintro ok s₂ ⟨-, hs₂, hr⟩
    cases ok with
    | false =>
        rw [if_pos rfl]
        exact wp_stop.mpr (.of_ne (by decide) (by decide))
    | true =>
        obtain ⟨hk₂, habsent, k, hfits, hempty, hn₂⟩ := hr
        have hati₂ := hati₁.keep_node hk₂ hip hs₂ hip (by rw [hn₂, Function.update_self])
        rw [if_neg (by decide)]
        simp only [wp_bind, wp_gets, (hk₁.trans hk₂).inum dp hdp, hatd.inum]
        refine (dirlink_sound hs₂ hip hati₂ hrd.2 named_dotdot False.elim).mono (fun _ => .of_true) ?_
        rintro ok s₃ ⟨-, hs₃, hr⟩
        cases ok with
        | false =>
            rw [if_pos rfl]
            exact wp_stop.mpr (.of_ne (by decide) (by decide))
        | true =>
            obtain ⟨hk₃, habsent₃, k₃, hfits₃, hempty₃, hn₃⟩ := hr
            rw [if_neg (by decide)]
            have hok : D.Ok i ⟨type, 1, overwrite (overwrite [] (k * direntSize)
                (Dirent.bytes ⟨i, dot⟩)) (k₃ * direntSize) (Dirent.bytes ⟨d, dotdot⟩)⟩ := by
              rw [ht]
              exact D.dots (Nat.pos_of_ne_zero hri.1) hri.2 (Nat.pos_of_ne_zero hrd.1) hrd.2
                ⟨named_dot, habsent, k, hfits, hempty, rfl⟩
                ⟨named_dotdot, habsent₃, k₃, hfits₃, hempty₃, rfl⟩
            refine wp_pure.mpr ⟨hs₃.of_except (by rw [hn₃, Function.update_self]) hok,
              (hk₁.trans hk₂).trans hk₃, overwrite (overwrite []
              (k * direntSize) (Dirent.bytes ⟨i, dot⟩)) (k₃ * direntSize)
              (Dirent.bytes ⟨d, dotdot⟩), fun hlim => ?_, ?_⟩
            · have hadd := AddedTo.of_dirlink (ofBytes_bytes named_dot
                (hri.2.trans_le hlim)) habsent hfits hempty
              have hadd₃ := AddedTo.of_dirlink (ofBytes_bytes named_dotdot
                (hrd.2.trans_le hlim)) habsent₃ hfits₃ hempty₃
              exact ⟨entries_of_dots hri.1 hadd hadd₃, hadd₃.size⟩
            · rw [hn₃, hn₂, hn₁, Function.update_idem]
  · rw [if_neg ht]
    refine wp_pure.mpr ⟨h.of_except hati.node (D.file ht), .refl, [],
      fun _ => by rw [if_neg ht], ?_⟩
    rw [if_neg ht, ← hatd.node, Function.update_eq_self, ← hati.node, Function.update_eq_self]

theorem createNew_sound (h : Sound D (plus H dp) s) (h0 : ∀ jp, 0 ≤ H jp) (hatd : At L s dp d dnd)
    (ht : type ≠ 0) (hname : Named name) (hF : F → Firm L H s) (hroom : F → Room L s) :
    Wp (createNew dp name type major minor) s (Fine F) fun ip s' => Sound D (plus H ip) s' ∧
      Keep L H s s' ∧ (∃ i data, At L s' ip i ⟨type, 1, data⟩) ∧ (F → Created L type s s') := by
  have hdp : 0 < plus H dp dp := plus_pos (h0 dp)
  refine (ialloc_sound h ht).seq ?_ ?_
  · rintro e (rfl | rfl) <;> exact .of_ne (by decide) (by decide)
  rintro ip s₁ ⟨i, hlow, hi, hnone, hs₁, hk₁, hn₁, hinum⟩
  have hid : i ≠ d := by
    rintro rfl
    rw [hatd.node] at hnone
    cases hnone
  have hip : 0 < plus (plus H dp) ip ip := plus_pos ((h0 ip).trans (le_plus dp ip))
  have hdp' : 0 < plus (plus H dp) ip dp := hdp.trans_le (le_plus ip dp)
  have hatd₁ := hatd.keep_node hk₁ hdp hs₁ hdp'
    (by rw [hn₁, Function.update_of_ne hid.symm]; exact hatd.node)
  refine (ilock_sound hs₁ hip).seq (fun _ => fine_of_ilock fun _ => ?_) ?_
  · rw [hinum, hn₁, Function.update_self]
    exact Option.some_ne_none _
  rintro - s₂ ⟨hs₂, hk₂, hn₂, nd₂, hati₂⟩
  rw [hinum] at hati₂
  have hnd₂ : nd₂ = ⟨type, 0, []⟩ := by
    have := hati₂.node
    rw [hn₂, hn₁, Function.update_self] at this
    cases this
    rfl
  have hstore : Wp (storeFields ip fun c => { c with major := major, minor := minor, nlink := 1 }) s₂
    (Fine F) _ := storeFields_sound hs₂ hip hati₂ fun c => ⟨rfl, rfl, rfl⟩
  refine hstore.bind ?_
  rintro - s₃ ⟨hs₃, hk₃, hn₃⟩
  rw [hnd₂, hn₂, hn₁, Function.update_idem] at hn₃
  have hati₃ := hati₂.keep_node hk₃ hip hs₃ hip (by rw [hn₃, Function.update_self])
  have hatd₃ := hatd₁.keep_node (hk₂.trans hk₃) hdp' hs₃ hdp'
    (by rw [hn₃, Function.update_of_ne hid.symm]; exact hatd.node)
  refine (createDots_sound hs₃ hip hdp' hati₃ hatd₃ hid).bind ?_
  rintro - s₄ ⟨hs₄, hk₄, data, hdata, hn₄⟩
  have hatd₄ := hatd₃.keep_node hk₄ hdp' hs₄ hdp'
    (by rw [hn₄, Function.update_of_ne hid.symm, Function.update_self])
  have hati₄ := hati₃.keep_node hk₄ hip hs₄ hip (by rw [hn₄, Function.update_self])
  simp only [inode, wp_bind, wp_gets, hati₄.inum]
  refine (dirlink_sound hs₄ hdp' hatd₄ hi hname False.elim).mono (fun _ => .of_true) ?_
  rintro ok s₅ ⟨htd, hs₅, hr⟩
  cases ok with
  | false =>
      rw [if_pos rfl]
      exact wp_stop.mpr (.of_ne (by decide) (by decide))
  | true =>
      obtain ⟨hk₅, habsent, k, hfits, hempty, hn₅⟩ := hr
      have hatd₅ := hatd₄.keep_node hk₅ hdp' hs₅ hdp' (by rw [hn₅, Function.update_self])
      have hati₅ := hati₄.keep_node hk₅ hip hs₅ hip
        (by rw [hn₅, Function.update_of_ne hid]; exact hati₄.node)
      rw [if_neg (by decide)]
      have hs₅' : Sound D (plus (plus H ip) dp) s₅ := by
        rw [plus_comm]
        exact hs₅
      refine (iunlockput_sound hs₅' ((h0 dp).trans (le_plus ip dp)) hatd₅).seq
        (fun _ => fine_of_iunlockput) ?_
      rintro - s₆ ⟨hs₆, hk₆, hn₆⟩
      have hip' : 0 < plus H ip ip := plus_pos (h0 ip)
      have hk₅' : Keep L H s s₅ :=
        hk₁.of_plus.trans (((hk₂.trans hk₃).trans (hk₄.trans hk₅)).of_plus.of_plus)
      refine wp_pure.mpr ⟨hs₆, hk₅'.trans hk₆.of_plus, ⟨i, data, ?_⟩, fun f => ?_⟩
      · refine hati₅.keep_node hk₆ hip' hs₆ hip' ?_
        rw [hn₆]
        split
        · rw [Function.update_of_ne hid]
          exact hati₅.node
        · exact hati₅.node
      · have hd : node L s d = some dnd := hatd.node
        -- the directory has a link, or somebody refers to it
        have hkept : ¬ (plus H ip dp = 0 ∧ createNlink dnd.nlink type = 0) := by
          rintro ⟨hH, hz⟩
          unfold createNlink at hz
          split at hz
          · exact (hroom f).add_one hd hz
          · exact ((((hF f).dead d dnd hd hz).keep hk₅').mono (le_plus ip)).ref_ne_zero hs₅'
              hatd₅.inum ((h0 dp).trans (le_plus ip dp)) hH
        refine ⟨i, data, d, dnd, name, _, hnone, hlow, hi, hdata (hroom f).inum, hd, htd, hname,
          .of_dirlink ((hroom f).dirent hi hname) habsent hfits hempty, ?_⟩
        rw [hn₆, if_neg hkept, hn₅, hn₄, hn₃]
        funext j
        by_cases hjd : j = d
        · rw [hjd, Function.update_self, Function.update_self]
        · rw [Function.update_of_ne hjd, Function.update_of_ne hjd]
          by_cases hji : j = i
          · rw [hji, Function.update_self, Function.update_self]
          · simp only [Function.update_of_ne hji, Function.update_of_ne hjd]

/-- The new inode was none before. -/
theorem Created.node_ne (h : Created L type s s') : node L s' ≠ node L s := by
  obtain ⟨i, data, d, dnd, name, ddata, hnone, -, -, -, hd, -, -, -, hn⟩ := h
  have hid : i ≠ d := by
    rintro rfl
    rw [hd] at hnone
    cases hnone
  intro heq
  have := congrFun heq i
  rw [hn, Function.update_of_ne hid, Function.update_self, hnone] at this
  cases this

theorem Created.refs (h : Created L type s s') (hF : Tidy L H s) (hk : Keep L H s s') :
    Refs L H s' := by
  obtain ⟨i, data, d, dnd, name, ddata, -, -, -, -, hd, -, -, -, hn⟩ := h
  refine hF.toRefs.of_updates hk hn (.of_ne_zero (show (1 : UInt16) ≠ 0 by decide))
    (.of_nlink hd fun hz => ?_)
  simp only [createNlink] at hz
  split at hz
  · exact absurd hz (hF.room.add_one hd)
  · exact hz

/-- The path is one of a name that is not there, in a directory that is. -/
def NewName (f : Nat → Option Node) (i : Nat) (path : List UInt8) : Prop :=
  ∃ d name dnd, walk f true i path = some (d, name) ∧ f d = some dnd ∧ lookup dnd.data name = none

theorem not_newName {f : Nat → Option Node} (h : walk f true i path = some (d, name))
    (hd : f d = some dnd) (hde : lookup dnd.data name ≠ none) : ¬ NewName f i path := by
  rintro ⟨d', name', dnd', hw, hd', hnone⟩
  cases h.symm.trans hw
  cases hd.symm.trans hd'
  exact hde hnone

theorem create_sound (h : Sound D H s) (hcwd : 0 < H cwd) (hpath : (0 : UInt8) ∉ path)
    (ht : type ≠ 0) (hT : F → Tidy L H s) :
    Wp (create cwd path type major minor) s (Fine F) fun r s' => Keep L H s s' ∧ match r with
      | none => Sound D H s' ∧ (F → Refs L H s' ∧ node L s' = node L s ∧
          ¬ NewName (node L s) (start (s.icache cwd).inum path) path)
      | some ip => Sound D (plus H ip) s' ∧ (∃ i nd, At L s' ip i nd ∧ nd.type = type) ∧
          (F → Refs L H s' ∧ (node L s' = node L s ∧
              ¬ NewName (node L s) (start (s.icache cwd).inum path) path ∨
            Created L type s s' ∧
              NewName (node L s) (start (s.icache cwd).inum path) path)) := by
  have hF : F → Firm L H s := fun f => (hT f).toFirm
  have hroom : F → Room L s := fun f => (hT f).room
  refine (namex_sound h hcwd hF hpath).bind fun r s₁ hr => ?_
  cases r with
  | none =>
      obtain ⟨hs₁, hq₁, hw⟩ := hr
      refine wp_pure.mpr ⟨hq₁.keep, hs₁, fun f => ⟨(hq₁.firm hF f).toRefs, hq₁.nodes f, ?_⟩⟩
      rintro ⟨d, name, dnd, hd, -⟩
      cases (hw f).symm.trans hd
  | some r =>
      obtain ⟨dp, name⟩ := r
      obtain ⟨hs₁, hq₁, hdp₁, hname, hw⟩ := hr
      have h0 := h.nonneg dp
      have hdp := plus_pos h0
      refine (ilock_sound hs₁ hdp).seq (fun _ => fine_of_ilock hdp₁) ?_
      rintro - s₂ ⟨hs₂, hk₂, hn₂, dnd, hatd⟩
      generalize (s₁.icache dp).inum = d at hatd hw
      have hq₂ : Quiet F L H s s₂ := hq₁.trans (.of_eq hk₂.of_plus hn₂)
      have hd : F → node L s d = some dnd := by
        intro f
        rw [← hq₂.nodes f]
        exact hatd.node
      refine (dirlookup_sound hs₂ hdp hatd).seq (fun _ => fine_of_dirlookup) ?_
      rintro r s₃ ⟨htd, hr⟩
      cases r with
      | none =>
          obtain ⟨rfl, habsent⟩ := hr
          have hroom₂ : F → Room L s₃ := fun f => ⟨(hroom f).inum, by
            rw [hq₂.nodes f]
            exact (hroom f).nlink⟩
          refine (createNew_sound hs₂ h.nonneg hatd ht hname (hq₂.firm hF) hroom₂).bind ?_
          rintro ip s' ⟨hs', hk, ⟨i, data, hat⟩, hnew⟩
          have hk' := hq₂.keep.trans hk
          refine wp_pure.mpr ⟨hk', hs', ⟨i, _, hat, rfl⟩, fun f => ?_⟩
          have hc : Created L type s s' := by
            have := hnew f
            unfold Created at this ⊢
            rwa [hq₂.nodes f] at this
          exact ⟨hc.refs (hT f) hk', .inr ⟨hc, d, name, dnd, hw f, hd f, habsent.lookup⟩⟩
      | some r =>
          obtain ⟨ip, off⟩ := r
          obtain ⟨k, de, hfound, -, hs₃, hk₃, hn₃, hinum, hlook⟩ := hr
          have hthere : F → ¬ NewName (node L s) (start (s.icache cwd).inum path) path :=
            fun f => not_newName (hw f) (hd f) (by rw [hlook]; exact Option.some_ne_none _)
          have hq₃ : Quiet F L H s s₃ := hq₂.trans (.of_eq hk₃.of_plus hn₃)
          have hatd₃ := hatd.keep_node hk₃ hdp hs₃ (hdp.trans_le (le_plus ip dp))
            (by rw [hn₃]; exact hatd.node)
          have hip₃ : F → node L s₃ (s₃.icache ip).inum ≠ none := by
            intro f
            rw [hinum]
            exact (hq₃.firm hF f).closed d dnd hatd₃.node htd de (List.mem_of_getElem? hfound.get)
              hfound.inum
          rw [plus_comm] at hs₃
          refine (iunlockput_quiet hs₃ (h0.trans (le_plus ip dp)) hatd₃
            fun f => (hq₃.firm hF f).plus (hip₃ f)).bind ?_
          rintro - s₄ ⟨hs₄, hq₄⟩
          have hip := plus_pos (h.nonneg ip)
          refine (ilock_sound hs₄ hip).seq (fun _ => fine_of_ilock fun f => ?_) ?_
          · rw [hq₄.keep.inum ip hip, hq₄.nodes f]
            exact hip₃ f
          rintro - s₅ ⟨hs₅, hk₅, hn₅, nd, hat⟩
          have hq₅ : Quiet F L H s s₅ := (hq₃.trans hq₄.of_plus).trans (.of_eq hk₅.of_plus hn₅)
          simp only [inode, wp_bind, wp_gets, hat.type]
          split
          · rename_i hfile
            exact wp_pure.mpr ⟨hq₅.keep, hs₅, ⟨_, nd, hat, hfile.2.trans hfile.1.symm⟩,
              fun f => ⟨(hq₅.firm hF f).toRefs, .inl ⟨hq₅.nodes f, hthere f⟩⟩⟩
          · refine (iunlockput_quiet hs₅ (h.nonneg ip) hat (hq₅.firm hF)).bind ?_
            rintro - s₆ ⟨hs₆, hq₆⟩
            have hq := hq₅.trans hq₆
            exact wp_pure.mpr ⟨hq.keep, hs₆,
              fun f => ⟨(hq.firm hF f).toRefs, hq.nodes f, hthere f⟩⟩

end Create

/-! ### References that go -/

/-- Nodes without links go. -/
def Drops (f f' : Nat → Option Node) : Prop :=
  ∀ j, f' j = f j ∨ f' j = none ∧ ∃ nd, f j = some nd ∧ nd.nlink = 0

section Drop
variable {F : Prop} {L : Layout} {D : Dirs L} {H : Slot → Int} {s : State} {ip : Slot}

theorem Drops.refl (f : Nat → Option Node) : Drops f f := fun _ => .inl rfl

theorem Drops.trans {f f' f'' : Nat → Option Node} (h : Drops f f') (h' : Drops f' f'') :
    Drops f f'' := by
  intro j
  obtain h' | ⟨hnone, nd, hnd, hz⟩ := h' j
  · rw [h']
    exact h j
  · obtain h | ⟨h, -⟩ := h j
    · exact .inr ⟨hnone, nd, by rw [← h]; exact hnd, hz⟩
    · rw [h] at hnd
      cases hnd

/-- `iput` of a reference that others may not have. -/
theorem iput_refs (h : Sound D (plus H ip) s) (h0 : 0 ≤ H ip) (hR : F → Refs L (plus H ip) s) :
    Wp (iput ip) s (Fine F) fun _ s' => Sound D H s' ∧ Keep L H s s' ∧
      (F → Refs L H s' ∧ Drops (node L s) (node L s')) := by
  refine (iput_sound h h0).mono (fun _ => fine_of_iput) ?_
  rintro - s' ⟨hs', hk, hput⟩
  refine ⟨hs', hk, fun f => ?_⟩
  obtain ⟨hn, hnot⟩ | ⟨hH, ⟨nd, hat, hz⟩, hn⟩ := hput
  · refine ⟨⟨fun i nd hi hz => ?_, fun jp hjp => ?_⟩, ?_⟩
    · rw [hn] at hi
      obtain ⟨jp, hjp, hinum, hv⟩ := (hR f).dead i nd hi hz
      -- the entry is another one, or `H` refers to it as well
      have hjp' : 0 < H jp := by
        by_cases heq : jp = ip
        · subst heq
          refine lt_of_le_of_ne h0 fun h0' => hnot ⟨h0'.symm, ?_⟩
          obtain ⟨nd', hat⟩ := h.entry hjp hv
          have hnode := hat.node
          rw [hinum, hi] at hnode
          cases hnode
          exact ⟨nd, hat, hz⟩
        · rwa [plus_of_ne heq] at hjp
      exact ⟨jp, hjp', (hk.inum jp hjp').trans hinum, hk.valid jp hjp' hv⟩
    · rw [hn, hk.inum jp hjp]
      exact (hR f).held jp (hjp.trans_le (le_plus ip jp))
    · rw [hn]
      exact .refl _
  · have hother : ∀ jp, 0 < H jp → (s.icache jp).inum ≠ (s.icache ip).inum := by
      intro jp hjp heq
      have : jp = ip := h.good.uniq jp ip (h.ref_pos (hjp.trans_le (le_plus ip jp)))
        (h.ref_pos (plus_pos h0)) heq
      rw [this, hH] at hjp
      exact lt_irrefl _ hjp
    refine ⟨⟨fun i nd' hi hz' => ?_, fun jp hjp => ?_⟩, fun j => ?_⟩
    · rw [hn] at hi
      by_cases hii : i = (s.icache ip).inum
      · rw [hii, Function.update_self] at hi
        cases hi
      · rw [Function.update_of_ne hii] at hi
        obtain ⟨jp, hjp, hinum, hv⟩ := (hR f).dead i nd' hi hz'
        have hne : jp ≠ ip := by
          rintro rfl
          exact hii hinum.symm
        rw [plus_of_ne hne] at hjp
        exact ⟨jp, hjp, (hk.inum jp hjp).trans hinum, hk.valid jp hjp hv⟩
    · rw [hn, hk.inum jp hjp, Function.update_of_ne (hother jp hjp)]
      exact (hR f).held jp (hjp.trans_le (le_plus ip jp))
    · rw [hn]
      by_cases hj : j = (s.icache ip).inum
      · rw [hj, Function.update_self]
        exact .inr ⟨rfl, nd, hat.node, hz⟩
      · rw [Function.update_of_ne hj]
        exact .inl rfl

/-- `iunlockput` of a reference to a node that has links, or that others refer to. -/
theorem iunlockput_refs {i : Nat} {nd : Node} (h : Sound D (plus H ip) s) (h0 : 0 ≤ H ip)
    (hat : At L s ip i nd) (hR : F → Refs L H s) :
    Wp (iunlockput ip) s (Fine F) fun _ s' => Sound D H s' ∧ Keep L H s s' ∧
      (F → Refs L H s' ∧ node L s' = node L s) := by
  refine (iunlockput_sound h h0 hat).mono (fun _ => fine_of_iunlockput) ?_
  rintro - s' ⟨hs', hk, hn⟩
  refine ⟨hs', hk, fun f => ?_⟩
  rw [if_neg] at hn
  · exact ⟨(hR f).keep hk hn, hn⟩
  · rintro ⟨hH, hz⟩
    exact ((hR f).dead i nd hat.node hz).ref_ne_zero h hat.inum h0 hH

end Drop

/-! ### All calls -/

/-- Bytes of nodes that are not directories change. -/
def Written (f f' : Nat → Option Node) : Prop :=
  ∀ j, f' j = f j ∨ ∃ nd data, f j = some nd ∧ nd.type ≠ tDir ∧ f' j = some { nd with data := data }

theorem Written.trans {f f' f'' : Nat → Option Node} (h : Written f f') (h' : Written f' f'') :
    Written f f'' := by
  intro j
  obtain h' | ⟨nd', data', hnd', ht', hj'⟩ := h' j
  · rw [h']
    exact h j
  · obtain h | ⟨nd, data, hnd, ht, hj⟩ := h j
    · exact .inr ⟨nd', data', by rw [← h]; exact hnd', ht', hj'⟩
    · rw [hj] at hnd'
      cases hnd'
      exact .inr ⟨nd, data', hnd, ht, hj'⟩

theorem Written.refs {L : Layout} {H : Slot → Int} {s s' : State}
    (h : Written (node L s) (node L s')) (hR : Refs L H s) (hk : Keep L H s s') : Refs L H s' := by
  refine hR.of_nodes hk fun j => ?_
  obtain h | ⟨nd, data, hnd, -, hj⟩ := h j
  · exact .of_eq h
  · rw [hj]
    exact .of_nlink hnd id

/-- What a call does to the nodes. -/
inductive Effect (L : Layout) (s s' : State) : Prop
  | dropped (h : Drops (node L s) (node L s'))
  | written (h : Written (node L s) (node L s'))
  | linked (h : Linked L s s')
  | unlinked (h : Unlinked L s s')
  | created (type : UInt16) (h : Created L type s s')

theorem Effect.of_eq {L : Layout} {s s' : State} (h : node L s' = node L s) : Effect L s s' :=
  .dropped fun j => .inl (by rw [h])

end Xv6.Syscall
