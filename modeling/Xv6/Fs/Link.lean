import Xv6.Fs.Room

/-!
# Fs — `dirlink` inserts one entry

`dirlink` of a name that a directory has no entry for writes one, at the first place that is free or at the end
(`Place`); every other name is found where it was.  A name that has an entry is refused, and nothing changes.
It panics when the directory is full and as large as a file can be, and when the disk has no room for another
block.  The number of an inode is cut to the 16 bits of an entry.
-/

namespace Xv6.Fs
open Lib Lib.Prog

/-- The first entry in use for the name is entry `k`, for this inode. -/
def Locates (data name : List UInt8) (k inum : Nat) : Prop :=
  ∃ de, FoundAt data name k de ∧ de.inum = inum ∧
    ∀ j < k, ∀ e, (entries data)[j]? = some e → e.inum ≠ 0 → e.name ≠ name

/-- The place of a new entry: the first that is free, or the end. -/
structure Place (data : List UInt8) (k : Nat) : Prop where
  fits : Fits data k
  free : ∀ de, (entries data)[k]? = some de → de.inum = 0
  first : ∀ j < k, ∃ de, (entries data)[j]? = some de ∧ de.inum ≠ 0

/-- There is one such place. -/
theorem Place.eq {data : List UInt8} {j k : Nat} (hj : Place data j) (hk : Place data k) : j = k := by
  rcases lt_trichotomy j k with hlt | heq | hlt
  · obtain ⟨de, hde, hlive⟩ := hk.first j hlt
    exact absurd (hj.free de hde) hlive
  · exact heq
  · obtain ⟨de, hde, hlive⟩ := hj.first k hlt
    exact absurd (hk.free de hde) hlive

/-- No entry of the inode cache is for this inode, and none is free. -/
def CacheFull (s : State) (inum : Nat) : Prop :=
  cachedAt s.icache inum = none ∧ emptyAt s.icache = none

theorem not_cacheFull {s : State} {inum : Nat} (h : ∃ ip, (s.icache ip).ref = 0) : ¬ CacheFull s inum := by
  rintro ⟨-, hempty⟩
  obtain ⟨ip, hip⟩ := h
  have hnone := List.find?_eq_none.mp hempty ip (List.mem_finRange ip)
  rw [decide_eq_true_eq] at hnone
  exact hnone hip

section Loops
variable {L : Layout} {D : Dirs L} {H : Slot → Int} {s : State} {dp ip : Slot} {d k n inum : Nat} {nd : Node}
  {name : List UInt8}

/-- The loops of `dirlookup` and `dirlink` read whole entries. -/
theorem lookupLoop_reads (h : Sound D H s) (hdp : 0 < H dp) (hat : At L s dp d nd) (ht : nd.type = tDir)
    (hn : k + n ≤ nd.data.length / direntSize) :
    Wp (lookupLoop dp name n (k * direntSize)) s (fun _ => False) fun _ _ => True := by
  have hle := h.length_le hat
  have hdiv := Nat.div_le_self nd.data.length direntSize
  induction n generalizing k with
  | zero => exact wp_pure.mpr trivial
  | succ n ih =>
      refine (readDirent_wp h hdp hat ht (by omega)).seq (fun _ he => ?_) ?_
      · have := he.2
        omega
      · rintro de s' ⟨rfl, -⟩
        split
        · exact wp_pure.mpr trivial
        · rw [← Nat.succ_mul]
          exact ih (by omega)

/-- Where `dirlink`'s loop ends, all entries in front are in use. -/
theorem emptyLoop_first (h : Sound D H s) (hdp : 0 < H dp) (hat : At L s dp d nd) (ht : nd.type = tDir)
    (hn : k + n ≤ nd.data.length / direntSize) :
    Wp (emptyLoop dp n (k * direntSize)) s (fun _ => False) fun off _ =>
      ∀ j, k ≤ j → j * direntSize < off → ∃ de, (entries nd.data)[j]? = some de ∧ de.inum ≠ 0 := by
  have hle := h.length_le hat
  have hdiv := Nat.div_le_self nd.data.length direntSize
  have hpos : 0 < direntSize := by decide
  induction n generalizing k with
  | zero =>
      refine wp_pure.mpr fun j hj hlt => ?_
      have := Nat.lt_of_mul_lt_mul_right hlt
      omega
  | succ n ih =>
      refine (readDirent_wp h hdp hat ht (by omega)).seq (fun _ he => ?_) ?_
      · have := he.2
        omega
      · rintro de s' ⟨rfl, hde⟩
        split
        · refine wp_pure.mpr fun j hj hlt => ?_
          have := Nat.lt_of_mul_lt_mul_right hlt
          omega
        · rename_i hlive
          rw [← Nat.succ_mul]
          refine (ih (by omega)).post fun off s₁ hoff j hj hlt => ?_
          obtain rfl | hne := eq_or_ne j k
          · exact ⟨de, hde, hlive⟩
          · exact hoff j (by omega) hlt

theorem iget_stops : Wp (iget inum) s (fun e => e = .iget ∧ CacheFull s inum) fun _ _ => True := by
  simp only [iget, wp_bind, wp_gets]
  split
  · simp only [setInode, wp_bind, wp_modify, wp_pure]
  · rename_i hnone
    split
    · rename_i hempty
      exact wp_stop.mpr ⟨rfl, hnone, hempty⟩
    · simp only [setInode, wp_bind, wp_modify, wp_pure]

/-- `iput` of an inode that `iget` has just found, or put into the cache: it is not the last reference to one that
is valid. -/
theorem iput_got {e : Inode} {E : Stop → Prop} (hgot : Got s inum ip e) :
    Wp (iput ip) (s.setSlot ip e) E fun _ s' => s'.disk = s.disk := by
  have hnot : ¬ (e.ref = 1 ∧ e.valid = true ∧ e.copy.nlink = 0) := by
    rintro ⟨hr, hv, -⟩
    obtain ⟨hpos, -, rfl⟩ | ⟨-, -, rfl⟩ := hgot
    · simp only at hr
      omega
    · cases hv
  simp only [iput, inode, wp_bind, wp_gets, State.setSlot_self]
  rw [if_neg hnot]
  simp only [wp_setInode, State.setSlot_disk]

/-- **`dirlookup`** yields the first entry in use for the name, and panics only for want of a cache entry. -/
theorem dirlookup_locates (h : Sound D H s) (hdp : 0 < H dp) (hat : At L s dp d nd) (ht : nd.type = tDir)
    (hwhole : nd.data.length % direntSize = 0) :
    Wp (dirlookup dp name) s (fun e => e = .iget ∧ ∃ k inum, Locates nd.data name k inum ∧ CacheFull s inum)
      fun r s' => match r with
      | none => s' = s ∧ Absent nd.data name
      | some (ip, off) => ∃ k inum e, Locates nd.data name k inum ∧ off = k * direntSize ∧ Got s inum ip e ∧
          s' = s.setSlot ip e := by
  have hrounds := rounds_of_size hwhole
  simp only [dirlookup, inode, wp_bind, wp_gets, hat.type, hat.size]
  rw [if_neg (by rw [ht]; decide), wp_bind]
  have hle : 0 + rounds 0 nd.data.length ≤ maxfile * bsize := by
    rw [Nat.zero_add]
    exact rounds_le h hat
  have hloop : Wp (lookupLoop dp name _ (0 * direntSize)) s _ _ :=
    (lookupLoop_wp h hdp hat ht hle).and (lookupLoop_reads h hdp hat ht (by omega))
  rw [Nat.zero_mul] at hloop
  refine hloop.mono (fun _ he => absurd he.2 id) ?_
  rintro r s' ⟨⟨rfl, hr⟩, -⟩
  cases r with
  | none =>
      refine wp_pure.mpr ⟨rfl, hwhole, fun de hde => ?_⟩
      obtain ⟨j, hj⟩ := List.getElem?_of_mem hde
      have hlt := (List.getElem?_eq_some_iff.mp hj).1
      rw [length_entries, ← hrounds] at hlt
      obtain ⟨de', hde', hname⟩ := hr j (Nat.zero_le j) (by omega)
      cases hj.symm.trans hde'
      exact hname
  | some r =>
      obtain ⟨inum, off⟩ := r
      obtain ⟨k, de, hfound, rfl, rfl, hfirst⟩ := hr
      have hloc : Locates nd.data name k de.inum :=
        ⟨de, hfound, rfl, fun j hj e => hfirst j e (Nat.zero_le j) hj⟩
      have hlt := D.range (h.dirs d nd hat.node) ht de (List.mem_of_getElem? hfound.get)
      refine ((iget_wp h.good (Nat.pos_of_ne_zero hfound.inum) hlt).and iget_stops).seq
        (fun _ he => ⟨he.1, k, de.inum, hloc, he.2.2⟩) ?_
      rintro ip s' ⟨⟨e, hgot, rfl, -⟩, -⟩
      exact wp_pure.mpr ⟨k, de.inum, e, hloc, rfl, hgot, rfl⟩

theorem Absent.not_locates {data : List UInt8} (h : Absent data name) : ¬ Locates data name k inum := by
  rintro ⟨de, hfound, -⟩
  exact h.name de (List.mem_of_getElem? hfound.get) hfound.inum hfound.name

/-- **`dirlink`**, when there is room for the block that a new entry may need. -/
theorem dirlink_wp (h : Sound D H s) (hdp : 0 < H dp) (hat : At L s dp d nd) (ht : nd.type = tDir)
    (hwhole : nd.data.length % direntSize = 0) (hname : Named name) (hinum : inum < L.ninodes)
    (hroom : nd.data.length % bsize = 0 → Place nd.data (nd.data.length / direntSize) →
      nd.data.length < maxfile * bsize → Room L s.disk (s.ino L d) (nd.data.length / bsize)) :
    Wp (dirlink dp name inum) s
      (fun e => (e = .iget ∧ ∃ k i, Locates nd.data name k i ∧ CacheFull s i) ∨
        (e = .dirlink ∧ Absent nd.data name ∧ Place nd.data (nd.data.length / direntSize) ∧
          nd.data.length = maxfile * bsize))
      fun r s' => match r with
      | false => ¬ Absent nd.data name ∧ s'.disk = s.disk
      | true => Absent nd.data name ∧ Sound D H s' ∧ Keep L H s s' ∧ ∃ k, Place nd.data k ∧
          node L s' = Function.update (node L s) d (some { nd with
            data := overwrite nd.data (k * direntSize) (Dirent.bytes ⟨inum, name⟩) }) := by
  have hle := h.length_le hat
  rw [dirlink]
  refine (dirlookup_locates h hdp hat ht hwhole).seq (fun _ he => .inl he) ?_
  intro r s₁ hr
  cases r with
  | some r =>
      obtain ⟨ip, off⟩ := r
      obtain ⟨k, i, e, hloc, -, hgot, rfl⟩ := hr
      refine (iput_got hgot).bind fun _ s' hs' => ?_
      exact wp_pure.mpr ⟨fun habsent => habsent.not_locates hloc, hs'⟩
  | none =>
      obtain ⟨rfl, habsent⟩ := hr
      simp only [inode, wp_bind, wp_gets, hat.size, rounds_of_size hwhole]
      have hloop : Wp (emptyLoop dp _ (0 * direntSize)) s₁ _ _ :=
        (emptyLoop_wp h hdp hat ht hwhole (Nat.zero_add _)).and
          (emptyLoop_first h hdp hat ht (Nat.zero_add _).le)
      rw [Nat.zero_mul] at hloop
      refine hloop.mono (fun _ he => absurd he.2 id) ?_
      rintro off s' ⟨⟨rfl, k, rfl, hfits, hempty⟩, hfirst⟩
      have hplace : Place nd.data k := by
        refine ⟨hfits, hempty, fun j hj => hfirst j (Nat.zero_le j) ?_⟩
        exact Nat.mul_lt_mul_of_pos_right hj (by decide)
      have hdir : D.Ok d { nd with
          data := overwrite nd.data (k * direntSize) (Dirent.bytes ⟨inum, name⟩) } :=
        D.enter (h.dirs d nd hat.node) (show (⟨inum, name⟩ : Dirent).inum < L.ninodes from hinum)
          ⟨hname, habsent, k, hfits, hempty, rfl⟩
      have hfle := hfits.le
      have hh := h.good.holds (h.ref_pos hdp) hat.valid
      rw [hat.inum] at hh
      have hsize : (s'.ino L d).size.toNat = nd.data.length := by rw [← hat.copy, hat.size]
      have htype : (s'.ino L d).type ≠ tDev := by
        rw [← hat.copy, hat.type, ht]
        decide
      have hmapped := (h.good.whole d hh.lt hh.type).mapped
      rw [hsize] at hmapped
      have hoff : k * direntSize < 2 ^ 32 := by
        simp only [maxfile, nindirect, ndirect, bsize] at hle
        omega
      -- the block is there, unless the entry is the first of a new one
      have hblock : k * direntSize + direntSize ≤ maxfile * bsize →
          view s'.disk (s'.ino L d) (k * direntSize / bsize) = none →
          Room L s'.disk (s'.ino L d) (k * direntSize / bsize) := by
        intro hmax hnone
        have hnew : nd.data.length ≤ k * direntSize / bsize * bsize := by
          by_contra hlt
          exact hmapped _ (not_le.mp hlt) hnone
        have hdiv := Nat.div_mul_le_self (k * direntSize) bsize
        have hend : k * direntSize = nd.data.length := by omega
        have hk : k = nd.data.length / direntSize := by
          rw [← hend, Nat.mul_div_cancel _ (by decide)]
        have hmod : nd.data.length % bsize = 0 := by
          rw [hend] at hnew
          have := Nat.div_add_mod nd.data.length bsize
          rw [Nat.mul_comm] at this
          omega
        rw [hend]
        refine hroom hmod (hk ▸ hplace) ?_
        rw [hend] at hmax
        have : 0 < direntSize := by decide
        omega
      have hbytes : (Dirent.bytes ⟨inum, name⟩).length = direntSize := length_dirent_bytes
      have hshort : (Dirent.bytes ⟨inum, name⟩).length < 2 ^ 32 := by
        rw [hbytes]
        decide
      have hwrite := ((writei_sound h hdp hat (by rw [ht]; decide) hoff hshort hdir).and
        (writei_entry_stops hh hbytes (Nat.mul_mod_left _ _) htype hblock)).and
          (writei_wp hh hat.inum rfl (h.good.whole d hh.lt hh.type) htype hoff hshort)
      refine hwrite.mono (fun _ he => absurd he.1.2 id) ?_
      rintro r s₂ ⟨⟨⟨hs₂, hk, hr⟩, -⟩, hfail⟩
      rw [length_dirent_bytes, hsize] at hfail
      rcases hr with ⟨rfl, -⟩ | ⟨rfl, -, hn⟩
      · -- there is no entry behind the largest directory
        split at hfail
        · rename_i hcase
          rw [if_neg (by decide)]
          have hend : k * direntSize = nd.data.length ∧ nd.data.length = maxfile * bsize := by
            rcases hfits with hlt | hend
            · rw [Nat.lt_div_iff_mul_lt (by decide)] at hlt
              simp only [maxfile, nindirect, ndirect, bsize, direntSize] at *
              omega
            · simp only [maxfile, nindirect, ndirect, bsize, direntSize] at *
              omega
          have hkeq : k = nd.data.length / direntSize := by
            rw [← hend.1, Nat.mul_div_cancel _ (by decide)]
          exact wp_stop.mpr (.inr ⟨rfl, habsent, hkeq ▸ hplace, hend.2⟩)
        · exact absurd hfail.1 (by rintro ⟨⟩)
      · rw [if_pos (by rw [length_dirent_bytes])]
        exact wp_pure.mpr ⟨habsent, hs₂, hk, k, hplace, hn⟩

/-- After the entry is written its name is found there, and every other name where it was. -/
theorem locates_overwrite (habsent : Absent nd.data name) (hplace : Place nd.data k) (hname : Named name)
    (h0 : inum ≠ 0) (hinum : inum < 2 ^ 16) :
    Locates (overwrite nd.data (k * direntSize) (Dirent.bytes ⟨inum, name⟩)) name k inum ∧
      ∀ name' ≠ name, ∀ j i, Locates (overwrite nd.data (k * direntSize) (Dirent.bytes ⟨inum, name⟩)) name' j i ↔
        Locates nd.data name' j i := by
  have hget : ∀ j, (entries (overwrite nd.data (k * direntSize) (Dirent.bytes ⟨inum, name⟩)))[j]? =
      if j = k then some ⟨inum, name⟩ else (entries nd.data)[j]? := by
    intro j
    have hnamed : Named (⟨inum, name⟩ : Dirent).name := hname
    rw [entries_overwrite hplace.fits length_dirent_bytes, ofBytes_bytes hnamed hinum,
      getElem?_putEntry hplace.fits.le_length]
  refine ⟨⟨⟨inum, name⟩, ⟨by rw [hget, if_pos rfl], h0, rfl⟩, rfl, fun j hj e he hlive => ?_⟩, ?_⟩
  · rw [hget, if_neg (by omega)] at he
    exact habsent.name e (List.mem_of_getElem? he) hlive
  · intro name' hne j i
    constructor
    · rintro ⟨de, ⟨hde, hlive, hnm⟩, hi, hfirst⟩
      have hjk : j ≠ k := by
        rintro rfl
        rw [hget, if_pos rfl] at hde
        cases hde
        exact hne hnm.symm
      rw [hget, if_neg hjk] at hde
      refine ⟨de, ⟨hde, hlive, hnm⟩, hi, fun x hx e he hl => hfirst x hx e ?_ hl⟩
      rw [hget, if_neg]
      · exact he
      · rintro rfl
        exact hl (hplace.free e he)
    · rintro ⟨de, ⟨hde, hlive, hnm⟩, hi, hfirst⟩
      have hjk : j ≠ k := by
        rintro rfl
        exact hlive (hplace.free de hde)
      refine ⟨de, ⟨by rw [hget, if_neg hjk]; exact hde, hlive, hnm⟩, hi, fun x hx e he hl => ?_⟩
      rw [hget] at he
      split at he
      · cases he
        exact hne.symm
      · exact hfirst x hx e he hl

theorem node_of_disk {s' : State} (h : s'.disk = s.disk) : node L s' = node L s := by
  funext i
  simp only [node, State.ino, h]

theorem Named.take {name : List UInt8} (h : (0 : UInt8) ∉ name) : Named (name.take dirsiz) :=
  ⟨by rw [List.length_take]; exact min_le_left _ _, fun hmem => h (List.mem_of_mem_take hmem)⟩

/-- `dirlookup` finds in the directory what is there: it panics only for want of a cache entry. -/
def Answers (dp : Slot) (data : List UInt8) (s : State) : Prop :=
  ∀ q, Wp (dirlookup dp q) s (· = .iget) fun r s' => match r with
    | none => ∀ k inum, ¬ Locates data q k inum
    | some (ip, off) => ∃ k, off = k * direntSize ∧ Locates data q k (s'.icache ip).inum

theorem answers (h : Sound D H s) (hdp : 0 < H dp) (hat : At L s dp d nd) (ht : nd.type = tDir)
    (hwhole : nd.data.length % direntSize = 0) : Answers dp nd.data s := by
  intro q
  refine (dirlookup_locates h hdp hat ht hwhole).mono (fun _ he => he.1) fun r s' hr => ?_
  cases r with
  | none => exact fun k inum => hr.2.not_locates
  | some p =>
      obtain ⟨k, inum, e, hloc, hoff, hgot, rfl⟩ := hr
      refine ⟨k, hoff, ?_⟩
      rw [State.setSlot_self, hgot.inum_eq]
      exact hloc

/-- A directory that is full and as large as a file can be takes no entry: `dirlink` panics. -/
theorem dirlink_full (h : Sound D H s) (hdp : 0 < H dp) (hat : At L s dp d nd) (ht : nd.type = tDir)
    (hname : Named name) (hinum : inum < L.ninodes) (hmax : nd.data.length = maxfile * bsize)
    (hfull : Place nd.data (nd.data.length / direntSize)) (habsent : Absent nd.data name) :
    dirlink dp name inum s = .error .dirlink := by
  have hwhole : nd.data.length % direntSize = 0 := by rw [hmax]; decide
  have hwp := dirlink_wp h hdp hat ht hwhole hname hinum fun _ _ hlt => absurd hmax hlt.ne
  cases hrun : dirlink dp name inum s with
  | error e =>
      obtain ⟨-, k, i, hloc, -⟩ | ⟨rfl, -⟩ := hwp.of_eq_error hrun
      · exact absurd hloc habsent.not_locates
      · rfl
  | ok r =>
      obtain ⟨r, s'⟩ := r
      have hr := hwp.of_eq_ok hrun
      cases r with
      | false => exact absurd habsent hr.1
      | true =>
          obtain ⟨-, hs', hk, k, hplace, hn⟩ := hr
          -- the only place is the end, and the file would be too large
          have hat' := hat.keep_node hk hdp hs' hdp (by rw [hn, Function.update_self])
          have hbytes : (Dirent.bytes ⟨inum, name⟩).length = direntSize := length_dirent_bytes
          have hlong := hs'.length_le hat'
          rw [length_overwrite_entry hplace.fits hbytes, hplace.eq hfull, if_neg (lt_irrefl _)] at hlong
          simp only [hmax, direntSize] at hlong
          omega

end Loops

theorem at_root : At smallLayout smallState rootSlot rootino rootNode := by
  have hroot := ((small_ino (i := rootino) (by decide)).resolve_right fun h => h.1 rfl).2
  refine ⟨by decide, by decide, node_eq_some.mpr ⟨by decide, ?_, ?_⟩, hroot.symm⟩
  · rw [hroot]
    decide
  · rw [hroot]
    rfl

theorem absent_root : Absent rootNode.data [97] := by
  refine ⟨by decide, fun de hde => ?_⟩
  rw [rootNode, entries_root] at hde
  simp only [List.mem_cons, List.not_mem_nil, or_false] at hde
  obtain rfl | rfl := hde <;> decide

/-- Whether the name is not found after the link. -/
def linkLost (dp : Slot) (name : List UInt8) (inum : Nat) (s : State) : Bool :=
  match dirlink dp name inum s with
  | .ok (true, s') =>
      match dirlookup dp name s' with
      | .ok (none, _) => true
      | _ => false
  | _ => false

theorem linkLost_eq_true {dp : Slot} {name : List UInt8} {inum : Nat} {s : State}
    (h : linkLost dp name inum s = true) :
    ∃ s' s₂, dirlink dp name inum s = .ok (true, s') ∧ dirlookup dp name s' = .ok (none, s₂) := by
  unfold linkLost at h
  split at h
  · rename_i s' hlink
    split at h
    · rename_i s₂ hlook
      exact ⟨s', s₂, hlink, hlook⟩
    · cases h
  · cases h

end Xv6.Fs
