import Xv6.Mkfs.Image

/-!
# Mkfs — the kernel on the image

The kernel finds what `mkfs` wrote: `namei` of a name leads to the inode of the file, and `readi` gives
its bytes.  The root directory may end with a block that it does not have, so that its entries are read
from the blocks up to the one looked for, and not as the contents of a whole file.
-/

namespace Xv6.Mkfs
open Lib Lib.Prog Fs

/-- The name of a file in the image. -/
def stored (name : List UInt8) : List UInt8 := (skipUnderscore name).take dirsiz

/-- Names as C strings that can be told apart in the image. -/
structure Names (argv : List (List UInt8)) : Prop where
  nul : ∀ name ∈ argv, (0 : UInt8) ∉ name
  ne_nil : ∀ name ∈ argv, stored name ≠ []
  dots : ∀ name ∈ argv, stored name ≠ dot ∧ stored name ≠ dotdot
  nodup : (argv.map stored).Nodup

/-- The kernel has started from the disk, and no inode is in use. -/
structure Started (d : Disk) (s : State) : Prop where
  disk : s.disk = d
  sb : s.sb = Superblock.ofBlock (d 1)
  empty : ∀ ip, (s.icache ip).ref = 0

/-! ### The entries of the root directory -/

section Entries
variable {data : List UInt8} {de : Dirent} {argv : List (List UInt8)} {name : List UInt8} {k : Nat}

theorem entries_concat (h : data.length % direntSize = 0) :
    entries (data ++ de.bytes) = entries data ++ [.ofBytes de.bytes] := by
  have hk : data.length / direntSize * direntSize = data.length :=
    Nat.div_mul_cancel (Nat.dvd_of_mod_eq_zero h)
  have hde : de.bytes.length = direntSize := length_dirent_bytes
  have := entries_overwrite (.inr hk) hde
  rw [hk, overwrite_length] at this
  rw [this, putEntry, List.take_of_length_le (by rw [length_entries]),
    List.drop_eq_nil_of_le (by rw [length_entries]; exact Nat.le_succ _)]

/-- `strncpy` takes no more than `DIRSIZ` bytes. -/
theorem bytes_take (inum : Nat) (name : List UInt8) :
    Dirent.bytes ⟨inum, name⟩ = Dirent.bytes ⟨inum, name.take dirsiz⟩ := by
  simp only [Dirent.bytes, List.take_take, min_self, List.length_take]
  congr 3
  omega

theorem named_stored (h : (0 : UInt8) ∉ name) : Named (stored name) where
  length := List.length_take_le _ _
  nul hmem := by
    have hskip := List.mem_of_mem_take hmem
    rw [skipUnderscore] at hskip
    split at hskip
    · exact h (List.mem_of_mem_tail hskip)
    · exact h hskip

/-- **The entries of the root directory**: the two of a directory, and one for each file. -/
theorem entries_rootBytes (hnul : ∀ name ∈ argv, (0 : UInt8) ∉ name) (hn : argv.length + 2 ≤ ninodes) :
    entries (rootBytes argv) = ⟨rootino, dot⟩ :: ⟨rootino, dotdot⟩ ::
      argv.mapIdx fun k name => ⟨k + 2, stored name⟩ := by
  induction argv using List.reverseRecOn with
  | nil => decide
  | append_singleton argv name ih =>
      rw [List.length_append, List.length_singleton] at hn
      have hold := ih (fun nm hnm => hnul nm (List.mem_append_left _ hnm)) (by omega)
      have hmod : (rootBytes argv).length % direntSize = 0 := by
        rw [length_rootBytes, Nat.mul_mod_right]
      have hinum : argv.length + 2 < 2 ^ 16 := by
        simp only [ninodes] at hn
        omega
      have hde : Dirent.ofBytes (Dirent.bytes ⟨argv.length + 2, stored name⟩) =
          ⟨argv.length + 2, stored name⟩ :=
        ofBytes_bytes (named_stored (hnul name (by simp))) hinum
      rw [rootBytes_concat, bytes_take, entries_concat hmod, hold, List.mapIdx_concat]
      exact congrArg (_ :: _ :: _ ++ [·]) hde

/-- The entry of file `k` is the first for its name. -/
theorem getElem?_rootBytes (hnames : Names argv) (hn : argv.length + 2 ≤ ninodes)
    (hk : argv[k]? = some name) :
    (entries (rootBytes argv))[k + 2]? = some ⟨k + 2, stored name⟩ ∧
      ∀ j de, j < k + 2 → (entries (rootBytes argv))[j]? = some de → de.name ≠ stored name := by
  have hmem : name ∈ argv := List.mem_of_getElem? hk
  rw [entries_rootBytes hnames.nul hn]
  refine ⟨by simp [hk], fun j de hj hde => ?_⟩
  match j with
  | 0 =>
      cases hde
      exact (hnames.dots name hmem).1.symm
  | 1 =>
      cases hde
      exact (hnames.dots name hmem).2.symm
  | j + 2 =>
      have hlt : j < k := by omega
      simp only [List.getElem?_cons_succ, List.getElem?_mapIdx] at hde
      obtain ⟨nm, hnm, rfl⟩ := Option.map_eq_some_iff.mp hde
      intro heq
      -- two files of one name
      have hkl : k < (argv.map stored).length := by
        rw [List.length_map]
        exact (List.getElem?_eq_some_iff.mp hk).1
      refine List.nodup_iff_getElem?_ne_getElem?.mp hnames.nodup j k hlt hkl ?_
      rw [List.getElem?_map, List.getElem?_map, hnm, hk]
      exact congrArg some heq

end Entries

/-! ### Inodes of a kernel that has just started -/

section Kernel
variable {s : State} {ip : Slot} {inum : Nat} {E : Stop → Prop}

/-- `iget` of an inode that is not in the cache, when there is an empty entry. -/
theorem iget_new (hnone : ∀ jp, 0 < (s.icache jp).ref → (s.icache jp).inum ≠ inum)
    (hfree : (s.icache ip).ref = 0) :
    Wp (iget inum) s E fun jp s' => (s.icache jp).ref = 0 ∧ s' = s.setSlot jp
      { s.icache jp with inum := inum, ref := 1, busy := false, valid := false } := by
  simp only [iget, wp_bind, wp_gets]
  split
  · rename_i jp hfind
    have hjp : 0 < (s.icache jp).ref ∧ (s.icache jp).inum = inum := by
      simpa using List.find?_some hfind
    exact absurd hjp.2 (hnone jp hjp.1)
  · split
    · rename_i hfind
      have := List.find?_eq_none.mp hfind ip (List.mem_finRange ip)
      simp only [decide_eq_true_eq] at this
      exact absurd hfree this
    · rename_i jp hfind
      have hjp : (s.icache jp).ref = 0 := by simpa using List.find?_some hfind
      simp only [wp_bind, wp_setInode, wp_pure]
      exact ⟨hjp, trivial⟩

/-- `ilock` of an inode just taken. -/
theorem ilock_new (href : (s.icache ip).ref = 1) (hbusy : (s.icache ip).busy = false)
    (hvalid : (s.icache ip).valid = false) (hinum : (s.icache ip).inum = inum)
    (ht : (dinodeAt s.sb s.disk inum).type ≠ 0) :
    Wp (ilock ip) s E fun _ s' => s' = s.setSlot ip { s.icache ip with
      busy := true, valid := true, copy := dinodeAt s.sb s.disk inum } := by
  subst hinum
  simp only [ilock, inode, wp_bind, wp_gets]
  rw [if_neg (by rw [href]; decide), if_neg (by rw [hbusy]; decide)]
  simp only [wp_bind, wp_setInode]
  rw [if_neg (by rw [hvalid]; decide)]
  simp only [wp_bind, wp_gets, bread, wp_setInode]
  split
  · rename_i h0
    exact absurd h0 ht
  · rw [wp_pure, State.setSlot_self, State.setSlot_setSlot]
    rfl

/-- `iunlockput` of the only reference to an inode with links. -/
theorem iunlockput_linked (href : (s.icache ip).ref = 1) (hbusy : (s.icache ip).busy = true)
    (hnlink : (s.icache ip).copy.nlink ≠ 0) :
    Wp (iunlockput ip) s E fun _ s' => s' = s.setSlot ip { s.icache ip with
      busy := false, ref := 0 } := by
  simp only [iunlockput, iunlock, inode, wp_bind, wp_gets, hbusy, href]
  rw [if_neg (by decide)]
  simp only [wp_setInode, iput, inode, wp_bind, wp_gets, State.setSlot_self]
  rw [if_neg (fun h => hnlink h.2.2), wp_setInode, State.setSlot_self, State.setSlot_setSlot]
  simp only [href]
  rfl

end Kernel

/-! ### Lookups in a directory that begins with some bytes -/

/-- The file begins with these bytes, in blocks that are there. -/
structure Begins (d : Disk) (c : Dinode) (data : List UInt8) : Prop where
  size : data.length ≤ c.size.toNat
  max : data.length ≤ maxfile * bsize
  mapped : ∀ bn, bn * bsize < data.length → view d c bn ≠ none
  bytes : ∀ x < data.length, data[x]? = some (byteAt (view d c) x)

section Lookup
variable {s : State} {ino : Nat → Dinode} {ip : Slot} {i j k n inum : Nat} {data name : List UInt8}
  {de : Dirent} {E : Stop → Prop}

theorem readDirent_begins {why : Stop} (h : Holds layout s ino ip i) (ht : (ino i).type = tDir)
    (hb : Begins s.disk (ino i) data) (hj : j < data.length / direntSize) :
    Wp (readDirent ip (j * direntSize) why) s E fun de s' => s' = s ∧
      (entries data)[j]? = some de := by
  have hend : j * direntSize + direntSize ≤ data.length := by
    rw [← Nat.succ_mul]
    exact (Nat.le_div_iff_mul_le (by decide)).mp hj
  have hlen := length_entryBytes.mpr hj
  have hsize := hb.size
  have hmax := hb.max
  have hsum : u32 (j * direntSize + direntSize) = j * direntSize + direntSize := by
    refine Nat.mod_eq_of_lt ?_
    have : maxfile * bsize < 2 ^ 32 := by decide
    omega
  simp only [readDirent, readi, inode, wp_bind, wp_gets, h.copy]
  rw [if_neg (by rw [ht]; decide), hsum, if_neg (by omega), if_neg (by omega)]
  refine (readLoop_wp h (fun bn hbn => ?_) (by omega)).bind ?_
  · obtain ⟨x, -, hx, rfl⟩ := hbn
    refine hb.mapped _ ?_
    have := Nat.div_mul_le_self x bsize
    omega
  · rintro bs s' ⟨rfl, rfl⟩
    have hbytes : (List.range direntSize).map (fun x => byteAt (view s'.disk (ino i)) (j * direntSize + x)) =
        entryBytes data j := by
      refine List.ext_getElem? fun x => ?_
      rw [List.getElem?_map, entryBytes]
      by_cases hx : x < direntSize
      · rw [List.getElem?_range hx, List.getElem?_take_of_lt hx, List.getElem?_drop,
          hb.bytes _ (by omega)]
        rfl
      · rw [List.getElem?_eq_none (by rw [List.length_range]; omega),
          List.getElem?_eq_none (by rw [← entryBytes, hlen]; omega)]
        rfl
    rw [wp_pure, hbytes]
    simp only [if_pos hlen]
    exact wp_pure.mpr ⟨rfl, getElem?_entries hj⟩

/-- The loop finds the first entry of the name. -/
theorem lookupLoop_begins (h : Holds layout s ino ip i) (ht : (ino i).type = tDir)
    (hb : Begins s.disk (ino i) data) (hde : FoundAt data name k de)
    (hfirst : ∀ j e, j < k → (entries data)[j]? = some e → e.name ≠ name) (hj : j ≤ k)
    (hn : k < j + n) :
    Wp (lookupLoop ip name n (j * direntSize)) s E fun r s' => s' = s ∧
      r = some (de.inum, k * direntSize) := by
  have hk : k < data.length / direntSize := by
    have := (List.getElem?_eq_some_iff.mp hde.get).1
    rwa [length_entries] at this
  induction n generalizing j with
  | zero => omega
  | succ n ih =>
      refine (readDirent_begins h ht hb (hj.trans_lt hk)).bind ?_
      rintro e s' ⟨rfl, he⟩
      obtain rfl | hlt := hj.eq_or_lt
      · cases hde.get.symm.trans he
        rw [if_pos ⟨hde.inum, hde.name.symm⟩]
        exact wp_pure.mpr ⟨rfl, rfl⟩
      · rw [if_neg (fun hfound => hfirst j e hlt he hfound.2.symm), ← Nat.succ_mul]
        exact ih hlt (by omega)

end Lookup

/-! ### The files -/

section Files
variable {host : List UInt8 → Option (List UInt8)} {argv : List (List UInt8)} {m m' : Vars} {s : State}
  {cwd : Slot} {k : Nat} {name nm : List UInt8} {E : Stop → Prop}

theorem Finished.begins (hm : Copied host argv m) (hf : Finished m m') (hn : argv.length + 2 ≤ ninodes) :
    Begins m'.img (dinodeAt sb m'.img rootino) (rootBytes argv) := by
  have hview : Fs.view m'.img (dinodeAt sb m'.img rootino) = Fs.view m.disk (m.ino rootino) := by
    rw [hf.root, ← hf.view]
    rfl
  have hsize := hm.size_root
  have hlen := length_rootBytes argv
  have hroot : rootBytes argv = contents m.disk (m.ino rootino) :=
    congrArg Node.data (nodes_eq_some.mp hm.root).2.2
  refine ⟨?_, ?_, fun bn hbn => ?_, fun x hx => ?_⟩
  · have hnew : (dinodeAt sb m'.img rootino).size.toNat =
        (direntSize * (argv.length + 2) / bsize + 1) * bsize := hf.size_root hm hn
    rw [hnew, hlen]
    have := Nat.lt_div_mul_add (a := direntSize * (argv.length + 2)) (show 0 < bsize by decide)
    rw [Nat.add_mul]
    omega
  · rw [hlen]
    simp only [direntSize, ninodes, maxfile, ndirect, nindirect, bsize] at *
    omega
  · rw [hview]
    exact ((hm.built.exact _ _ hm.root).mapped bn).mpr hbn
  · rw [hview, hroot, contents, List.getElem?_map, List.getElem?_range]
    · rfl
    · rwa [hsize, ← hlen]

theorem skipelem_slash (hne : nm ≠ []) (hnm : (47 : UInt8) ∉ nm) :
    skipelem (47 :: nm) = some (nm.take dirsiz, []) := by
  have hall : ∀ b ∈ nm, decide (b ≠ 47) = true := by
    intro b hb
    rw [decide_eq_true_eq]
    rintro rfl
    exact hnm hb
  have hdrop : (47 :: nm).dropWhile (· = 47) = nm := by
    cases nm with
    | nil => exact absurd rfl hne
    | cons b nm =>
        have hb : b ≠ 47 := fun h => hnm (h ▸ List.mem_cons_self)
        simp [hb]
  rw [skipelem, hdrop]
  cases nm with
  | nil => exact absurd rfl hne
  | cons b nm =>
      dsimp only
      rw [List.takeWhile_eq_self_iff.mpr hall, List.dropWhile_eq_nil_iff.mpr hall]
      rfl

/-- The root directory is locked, and nothing else is in use. -/
structure AtRoot (d : Disk) (ip : Slot) (s : State) : Prop where
  disk : s.disk = d
  sb : s.sb = Mkfs.sb
  root : s.icache ip = ⟨rootino, 1, true, true, dinodeAt Mkfs.sb d rootino⟩
  empty : ∀ jp ≠ ip, (s.icache jp).ref = 0

/-- `iget` has just given the entry for inode `i`. -/
structure Reached (d : Disk) (i : Nat) (ip : Slot) (s : State) : Prop where
  disk : s.disk = d
  sb : s.sb = Mkfs.sb
  inum : (s.icache ip).inum = i
  ref : (s.icache ip).ref = 1
  busy : (s.icache ip).busy = false
  valid : (s.icache ip).valid = false

theorem exists_ne (ip : Slot) : ∃ jp : Slot, jp ≠ ip := by
  by_cases h0 : ip = ⟨0, by decide⟩
  · exact ⟨⟨1, by decide⟩, by rw [h0]; decide⟩
  · exact ⟨⟨0, by decide⟩, Ne.symm h0⟩

/-- The rest of the path: the entry of the file is found, and the directory let go. -/
theorem lookup_file {ip : Slot} (hm : Copied host argv m) (hf : Finished m m') (hnames : Names argv)
    (hn : argv.length + 2 ≤ ninodes) (hs : AtRoot m'.img ip s) (hk : argv[k]? = some name)
    (hnlink : (dinodeAt sb m'.img rootino).nlink = 1)
    (htype : (dinodeAt sb m'.img rootino).type = tDir) :
    Wp (do let r ← dirlookup ip (stored name)
           match r with
           | none => do
               iunlockput ip
               pure none
           | some (next, _) => do
               iunlockput ip
               namexLoop false next [] : FsM (Option (Slot × List UInt8))) s E
      fun r s' => ∃ next, r = some (next, []) ∧ Reached m'.img (k + 2) next s' := by
  have hholds : Holds layout s (dinodeAt sb m'.img) ip rootino :=
    ⟨hs.sb, by rw [hs.disk]; exact hf.image, by decide, by rw [hs.root], by rw [htype]; decide⟩
  have hbegins := hf.begins hm hn
  obtain ⟨hget, hfirst⟩ := getElem?_rootBytes hnames hn hk
  have hfound : FoundAt (rootBytes argv) (stored name) (k + 2) ⟨k + 2, stored name⟩ :=
    ⟨hget, Nat.succ_ne_zero _, rfl⟩
  have hrounds : k + 2 < rounds 0 (dinodeAt sb m'.img rootino).size.toNat := by
    have hlt := (List.getElem?_eq_some_iff.mp hget).1
    have hle := hbegins.size
    rw [length_entries] at hlt
    simp only [rounds, direntSize] at *
    omega
  simp only [dirlookup, inode, wp_bind, wp_gets, hs.root]
  rw [if_neg (not_not.mpr htype), wp_bind]
  have hloop := lookupLoop_begins (E := E) (j := 0) hholds htype (by rw [hs.disk]; exact hbegins)
    hfound hfirst (Nat.zero_le _) (by rw [Nat.zero_add]; exact hrounds)
  rw [Nat.zero_mul] at hloop
  refine hloop.post ?_
  rintro r s' ⟨rfl, rfl⟩
  obtain ⟨jp, hjp⟩ := exists_ne ip
  have hnone : ∀ jp, 0 < (s'.icache jp).ref → (s'.icache jp).inum ≠ k + 2 := by
    intro jp hpos
    by_cases heq : jp = ip
    · rw [heq, hs.root]
      simp only [rootino]
      omega
    · rw [hs.empty jp heq] at hpos
      exact absurd hpos (lt_irrefl _)
  refine (iget_new hnone (hs.empty jp hjp)).bind ?_
  rintro next s₁ ⟨hfree, rfl⟩
  have hne : ip ≠ next := by
    rintro rfl
    rw [hs.root] at hfree
    cases hfree
  rw [wp_pure]
  have hslot : (s'.setSlot next { s'.icache next with
      inum := k + 2, ref := 1, busy := false, valid := false }).icache ip = s'.icache ip :=
    State.setSlot_of_ne hne
  refine (iunlockput_linked (by rw [hslot, hs.root]) (by rw [hslot, hs.root])
    (by rw [hslot, hs.root, hnlink]; decide)).bind ?_
  rintro - s₂ rfl
  rw [namexLoop]
  split
  · rw [if_neg (by decide)]
    refine wp_pure.mpr ⟨next, rfl, hs.disk, hs.sb, ?_, ?_, ?_, ?_⟩ <;>
      rw [State.setSlot_of_ne hne.symm, State.setSlot_self]
  · rename_i hskip
    cases hskip

/-- **`namei` finds the file.** -/
theorem namei_file (hm : Copied host argv m) (hf : Finished m m') (hnames : Names argv)
    (hn : argv.length + 2 ≤ ninodes) (hs : Started m'.img s) (hk : argv[k]? = some name)
    (hnm : (47 : UInt8) ∉ nm) (htake : nm.take dirsiz = stored name) :
    Wp (namei cwd (47 :: nm)) s E fun r s' => ∃ ip, r = some ip ∧ Reached m'.img (k + 2) ip s' := by
  have hsb : s.sb = sb := hs.sb.trans hf.image.super
  have hne : nm ≠ [] := by
    rintro rfl
    exact hnames.ne_nil name (List.mem_of_getElem? hk) htake.symm
  have hroot := hf.root
  have htype : (dinodeAt sb m'.img rootino).type = tDir := by
    rw [hroot]
    exact (congrArg Node.type (nodes_eq_some.mp hm.root).2.2).symm
  have hnlink : (dinodeAt sb m'.img rootino).nlink = 1 := by
    rw [hroot]
    exact (congrArg Node.nlink (nodes_eq_some.mp hm.root).2.2).symm
  have hnone : ∀ jp, 0 < (s.icache jp).ref → (s.icache jp).inum ≠ rootino := by
    intro jp hpos
    rw [hs.empty jp] at hpos
    exact absurd hpos (lt_irrefl _)
  rw [namei]
  refine Wp.bind
    (Q := fun r s' => ∃ next, r = some (next, []) ∧ Reached m'.img (k + 2) next s') ?_ ?_
  · unfold namex
    rw [if_pos (show (47 :: nm).head? = some 47 from rfl)]
    refine (iget_new hnone (hs.empty cwd)).bind ?_
    rintro ip s₁ ⟨-, rfl⟩
    have helem := skipelem_slash hne hnm
    generalize 47 :: nm = path at helem ⊢
    dsimp only
    rw [namexLoop]
    split
    · rename_i hskip
      cases helem.symm.trans hskip
    · rename_i name' rest hskip
      cases helem.symm.trans hskip
      have hdino : dinodeAt s.sb s.disk rootino = dinodeAt sb m'.img rootino := by
        rw [hsb, hs.disk]
      refine (ilock_new (by rw [State.setSlot_self]) (by rw [State.setSlot_self])
        (by rw [State.setSlot_self])
        (show ((s.setSlot ip _).icache ip).inum = rootino by rw [State.setSlot_self])
        (by rw [State.setSlot_sb, State.setSlot_disk, hdino, htype]; decide)).bind ?_
      rintro - s₂ rfl
      rw [State.setSlot_setSlot, State.setSlot_self, State.setSlot_sb, State.setSlot_disk, hdino]
      have hat : AtRoot m'.img ip (s.setSlot ip ⟨rootino, 1, true, true, dinodeAt sb m'.img rootino⟩) :=
        ⟨hs.disk, hsb, State.setSlot_self, fun jp hjp => by
          rw [State.setSlot_of_ne hjp]
          exact hs.empty jp⟩
      simp only [inode, wp_bind, wp_gets, State.setSlot_self]
      rw [if_neg (not_not.mpr htype), if_neg (by simp), htake]
      exact lookup_file hm hf hnames hn hat hk hnlink htype
  · rintro r s' ⟨next, rfl, hreached⟩
    exact wp_pure.mpr ⟨next, rfl, hreached⟩

/-- The inode of the file, and its contents, as the image has them. -/
theorem Finished.file {data : List UInt8} (hf : Finished m m')
    (hnd : m.nodes (k + 2) = some ⟨tFile, 1, data⟩) (hbuilt : Built m) :
    k + 2 < ninodes ∧ (dinodeAt sb m'.img (k + 2)).type = tFile ∧
      Whole m'.img (dinodeAt sb m'.img (k + 2)) ∧
      contents m'.img (dinodeAt sb m'.img (k + 2)) = data := by
  obtain ⟨hi, ht, hnode⟩ := nodes_eq_some.mp hnd
  have hne : k + 2 ≠ rootino := by
    simp only [rootino]
    omega
  have hino : dinodeAt sb m'.img (k + 2) = m.ino (k + 2) := hf.apart.dinode _ hne hi
  have hview := hf.apart.view _ hne hi ht
  have hwhole : Whole m.disk (m.ino (k + 2)) := hbuilt.good.whole _ hi ht
  rw [Node.mk.injEq] at hnode
  obtain ⟨htype, -, hdata⟩ := hnode
  rw [hino]
  refine ⟨hi, htype.symm, ⟨hwhole.size, by rw [hview]; exact hwhole.mapped⟩, ?_⟩
  rw [contents, hview, hdata, contents]

/-- **The kernel reads back what `mkfs` wrote.**  Files that fit are made into an image; and on an image
that `mkfs` made, the path of a file leads to an inode from which its bytes are read, wherever the
reading begins and ends. -/
theorem files_read_back (hn : argv.length + 2 ≤ ninodes) (hnames : Names argv) :
    (Fits host argv → ∃ m', mkfs host argv start = .ok ((), m')) ∧
    ∀ m', mkfs host argv start = .ok ((), m') → ∀ s cwd, Started m'.img s →
      ∀ name ∈ argv, ∀ nm, (47 : UInt8) ∉ nm → nm.take dirsiz = stored name →
        ∃ data ip s₁ s₂, host name = some data ∧ namei cwd (47 :: nm) s = .ok (some ip, s₁) ∧
          ilock ip s₁ = .ok ((), s₂) ∧ (s₂.icache ip).copy.type = tFile ∧
          (s₂.icache ip).copy.size.toNat = data.length ∧
          ∀ off n, off < 2 ^ 32 → n < 2 ^ 32 → readi ip off n s₂ =
            .ok (if off > data.length ∨ 2 ^ 32 ≤ off + n then none
              else some ((data.drop off).take n), s₂) := by
  constructor
  · intro hfits
    obtain ⟨⟨⟩, m', hrun, -⟩ := (mkfs_wp hn).exists_ok fun _ he => he hfits
    exact ⟨m', hrun⟩
  · intro m' hrun s cwd hs name hname nm hnm htake
    obtain ⟨m, hm, hf⟩ := (mkfs_wp hn).of_eq_ok hrun
    obtain ⟨k, hk⟩ := List.getElem?_of_mem hname
    obtain ⟨-, data, hdata, hnd⟩ := hm.file k name hk
    obtain ⟨hi, htype, hwhole, hcontents⟩ := hf.file hnd hm.built
    have hsize : (dinodeAt sb m'.img (k + 2)).size.toNat = data.length := by
      rw [← length_contents m'.img, hcontents]
    have hnamei : Wp (namei cwd (47 :: nm)) s (fun _ => False) _ :=
      namei_file hm hf hnames hn hs hk hnm htake
    obtain ⟨r, s₁, hnamei, ip, rfl, hreached⟩ := hnamei.exists_ok fun _ he => he
    have hdisk := hreached.disk
    have hsb := hreached.sb
    have hdino : dinodeAt s₁.sb s₁.disk (k + 2) = dinodeAt sb m'.img (k + 2) := by rw [hsb, hdisk]
    have hlock := ilock_new (E := fun _ => False) hreached.ref hreached.busy hreached.valid
      hreached.inum (by rw [hdino, htype]; decide)
    obtain ⟨⟨⟩, s₂, hlock, rfl⟩ := hlock.exists_ok fun _ he => he
    rw [hdino] at hlock
    refine ⟨data, ip, s₁, _, hdata, hnamei, hlock, ?_, ?_, fun off n hoff hlen => ?_⟩
    · rw [State.setSlot_self]
      exact htype
    · rw [State.setSlot_self]
      exact hsize
    · have hholds : Holds layout (s₁.setSlot ip { s₁.icache ip with
          busy := true, valid := true, copy := dinodeAt sb m'.img (k + 2) }) (dinodeAt sb m'.img) ip
          (k + 2) :=
        ⟨hsb, by rw [State.setSlot_disk, hdisk]; exact hf.image, hi, by rw [State.setSlot_self],
          by rw [htype]; decide⟩
      have hread := readi_wp (E := fun _ => False) hholds
        (by rw [State.setSlot_disk, hdisk]; exact hwhole) (by rw [htype]; decide) hoff hlen
      obtain ⟨r, s₃, hread, rfl, rfl⟩ := hread.exists_ok fun _ he => he
      rw [hread, State.setSlot_disk, hdisk, hcontents, hsize]

/-- A file whose name has an underscore that `mkfs` drops, and two bytes. -/
def oneFile : List (List UInt8) := [[95, 104, 105]]

theorem oneFile_names : Names oneFile := ⟨by decide, by decide, by decide, by decide⟩

/-- It is read back as `/hi`. -/
theorem oneFile_read_back : ∃ m', mkfs (fun _ => some [1, 2]) oneFile start = .ok ((), m') ∧
    ∃ ip s₁ s₂, namei rootSlot [47, 104, 105] (boot m'.img) = .ok (some ip, s₁) ∧
      ilock ip s₁ = .ok ((), s₂) ∧ readi ip 0 2 s₂ = .ok (some [1, 2], s₂) := by
  have hfits : Fits (fun _ => some [1, 2]) oneFile :=
    ⟨by decide, fun _ _ => ⟨[1, 2], rfl, by decide⟩, by decide⟩
  obtain ⟨hmake, hread⟩ := files_read_back (by decide) oneFile_names
  obtain ⟨m', hrun⟩ := hmake hfits
  obtain ⟨m, hm, hf⟩ := (mkfs_wp (by decide)).of_eq_ok hrun
  have hboot : Started m'.img (boot m'.img) := ⟨rfl, hf.image.super.symm, fun _ => rfl⟩
  obtain ⟨data, ip, s₁, s₂, hdata, hnamei, hlock, -, -, hall⟩ :=
    hread m' hrun _ rootSlot hboot [95, 104, 105] (by decide) [104, 105] (by decide) (by decide)
  cases hdata
  have htwo := hall 0 2 (by decide) (by decide)
  rw [if_neg (by decide)] at htwo
  exact ⟨m', hrun, ip, s₁, s₂, hnamei, hlock, htwo⟩

end Files

end Xv6.Mkfs
