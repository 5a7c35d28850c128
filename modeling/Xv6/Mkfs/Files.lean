import Xv6.Fs.Held
import Xv6.Mkfs.Append

/-!
# Mkfs — the files

The image as a kernel would see it that starts from it now (`boot`): `ialloc` adds a node, `iappend`
adds bytes to one, and a round of `main`'s loop adds an entry to the root directory and a file.  Between
the calls the image is right, and every file has the blocks of its size (`Built`).
-/

namespace Xv6.Mkfs
open Lib Lib.Prog Fs

/-- The file system of a kernel that starts from the disk: no inode is in use. -/
def boot (d : Disk) : State where
  sb := sb
  disk := d
  icache _ := ⟨0, 0, false, false, Dinode.new 0⟩
  input := []
  logged := []
  ended := []

/-- The inodes in use. -/
abbrev Vars.nodes (m : Vars) : Nat → Option Node := node layout (boot m.disk)

/-- The inodes, as the image has them. -/
abbrev Vars.ino (m : Vars) : Nat → Dinode := dinodeAt layout.toSuperblock m.disk

structure Built (m : Vars) : Prop where
  ready : Ready m
  good : Good layout (boot m.disk)
  exact : ∀ i nd, m.nodes i = some nd → Exact m.disk (m.ino i) nd.data.length
  used : ∀ i < ninodes, m.nodes i = none ↔ i = 0 ∨ m.freeinode ≤ i

section Step
variable {m m' : Vars} {i : Nat} {c : Dinode} {nd : Node}

theorem Built.image (h : Built m) : ImageOk layout m.disk m.ino := h.good.image

theorem nodes_eq_some : m.nodes i = some nd ↔ i < ninodes ∧ (m.ino i).type ≠ 0 ∧
    nd = ⟨(m.ino i).type, (m.ino i).nlink, contents m.disk (m.ino i)⟩ := node_eq_some

theorem nodes_eq_none (hi : i < ninodes) : m.nodes i = none ↔ (m.ino i).type = 0 := node_eq_none hi

theorem Built.length_le (h : Built m) (hnd : m.nodes i = some nd) :
    nd.data.length ≤ maxfile * bsize := by
  obtain ⟨hi, ht, rfl⟩ := nodes_eq_some.mp hnd
  rw [length_contents]
  exact (h.good.whole i hi ht).size

/-- Inode `i` becomes `c`. -/
theorem Built.set (h : Built m) (hr : Ready m') (hi : i < ninodes)
    (hok : ImageOk layout m'.disk (Function.update m.ino i c))
    (hapart : Apart layout m.ino i m.disk m'.disk) (hd : m'.ino i = c) (ht : c.type ≠ 0)
    (hmax : c.size.toNat ≤ maxfile * bsize) (hex : Exact m'.disk c c.size.toNat)
    (hused : ∀ j < ninodes, (j = 0 ∨ m'.freeinode ≤ j) ↔ j ≠ i ∧ (j = 0 ∨ m.freeinode ≤ j)) :
    Built m' ∧ m'.nodes = Function.update m.nodes i (some ⟨c.type, c.nlink, contents m'.disk c⟩) := by
  have hwhole : Whole m'.disk c := ⟨hmax, fun bn hbn => (hex.mapped bn).mpr hbn⟩
  have hgood : Good layout ((boot m.disk).withDisk m'.disk []) :=
    h.good.withDisk (fun jp hjp => absurd hjp (lt_irrefl _)) hok hapart hd fun _ => hwhole
  have hn : m'.nodes = Function.update m.nodes i (some ⟨c.type, c.nlink, contents m'.disk c⟩) := by
    have := node_update (s := boot m.disk) hi hapart hd (show (boot m'.disk).disk = m'.disk from rfl)
    rwa [if_pos ht] at this
  refine ⟨⟨hr, hgood, fun j nd hj => ?_, fun j hj => ?_⟩, hn⟩
  · rw [hn] at hj
    by_cases hji : j = i
    · subst hji
      rw [Function.update_self] at hj
      cases hj
      rw [hd, length_contents]
      exact hex
    · rw [Function.update_of_ne hji] at hj
      obtain ⟨hlt, htype, -⟩ := node_eq_some.mp hj
      have hold := h.exact j nd hj
      rw [show m'.ino j = m.ino j from hapart.dinode j hji hlt]
      exact ⟨fun bn => by rw [hapart.view j hji hlt htype]; exact hold.mapped bn, hold.indirect⟩
  · rw [hn, hused j hj]
    by_cases hji : j = i
    · subst hji
      simp
    · rw [Function.update_of_ne hji, h.used j hj]
      exact ⟨fun hold => ⟨hji, hold⟩, And.right⟩

theorem iblock_lt (hi : i < ninodes) : sb.iblock i < nmeta :=
  (layout.iblock_lt hi).trans layout.bmapstart_lt

theorem iblock_ne (hi : i < ninodes) : sb.iblock i ≠ sb.bmapstart := (layout.iblock_lt hi).ne

theorem wp_rinode {E : Exit → Prop} {Q : Dinode → Vars → Prop} (h : Ready m) (hi : i < ninodes) :
    Wp (rinode i) m E Q ↔ Q (m.ino i) m := by
  have hlt : sb.iblock i < fssize := (iblock_lt hi).trans (by decide)
  rw [rinode, wp_bind, wp_rsect h.len hlt.le, if_pos hlt, wp_pure, ← Vars.disk_of_ne (iblock_ne hi)]
  rfl

/-- The variables after `winode`. -/
def Vars.store (m : Vars) (i : Nat) (c : Dinode) : Vars :=
  { m with img := Function.update m.img (sb.iblock i) (c.toBlock (m.img (sb.iblock i)) (i % ipb)) }

theorem wp_winode {E : Exit → Prop} {Q : Unit → Vars → Prop} (h : Ready m) (hi : i < ninodes) :
    Wp (winode i c) m E Q ↔ Q () (m.store i c) := by
  have hlt : sb.iblock i < fssize := (iblock_lt hi).trans (by decide)
  rw [winode, wp_bind, wp_rsect h.len hlt.le, if_pos hlt, wp_wsect h.len hlt]
  rfl

theorem Ready.store (h : Ready m) (hi : i < ninodes) : Ready (m.store i c) :=
  h.update ((iblock_lt hi).trans_le h.low)

theorem disk_store (hi : i < ninodes) : (m.store i c).disk =
    Function.update m.disk (layout.iblock i) (c.toBlock (m.disk (layout.iblock i)) (i % ipb)) := by
  rw [Vars.store, disk_update (iblock_ne hi), ← Vars.disk_of_ne (iblock_ne hi)]
  rfl

theorem ino_store (hi : i < ninodes) : (m.store i c).ino i = c := by
  rw [Vars.ino, disk_store hi, dinodeAt_iupdate, if_pos rfl]

end Step

/-! ### `ialloc` and `iappend` -/

section Calls
variable {m m' : Vars} {i : Nat} {c : Dinode} {nd : Node} {type : UInt16} {p : List UInt8}
  {E : Exit → Prop}

theorem ialloc_wp (h : Built m) (hi : m.freeinode < ninodes) (h0 : 0 < m.freeinode) (ht : type ≠ 0) :
    Wp (ialloc type) m E fun r m' => r = m.freeinode ∧ Built m' ∧
      m'.freeinode = m.freeinode + 1 ∧ m'.freeblock = m.freeblock ∧
      m'.nodes = Function.update m.nodes m.freeinode (some ⟨type, 1, []⟩) := by
  have hready : Ready { m with freeinode := m.freeinode + 1 } := ⟨h.ready.len, h.ready.low,
    h.ready.high, h.ready.zero⟩
  have hzero : (m.ino m.freeinode).type = 0 :=
    (nodes_eq_none hi).mp ((h.used _ hi).mpr (.inr le_rfl))
  generalize hc : (⟨type, 0, 0, 1, 0, fun _ => 0⟩ : Dinode) = c
  have haddr : ∀ k, c.addr k = 0 := by
    intro k
    rw [← hc]
    simp [Dinode.addr]
  have hplace : ∀ d k, place d c k = 0 := by
    intro d k
    simp [place, entry, haddr]
  obtain ⟨hok, hapart, -⟩ := h.image.storeIno c hi fun k => by
    rw [own, own, if_neg (by simp [hplace]), if_neg]
    exact fun hp => hp.2.1 hzero
  simp only [ialloc, wp_bind, wp_gets, wp_modify, wp_pure]
  rw [hc, wp_winode hready hi]
  have hdisk := disk_store (m := { m with freeinode := m.freeinode + 1 }) (c := c) hi
  have hex : ∀ d, Exact d c 0 := by
    intro d
    refine ⟨fun bn => ?_, ?_⟩
    · rw [view, if_pos (hplace d _)]
      simp
    · rw [haddr]
      simp
  have hsize : c.size.toNat = 0 := by
    rw [← hc]
    rfl
  have hready' : Ready (Vars.store { m with freeinode := m.freeinode + 1 } m.freeinode c) :=
    hready.store hi
  obtain ⟨hbuilt, hn⟩ := h.set hready' hi (by rw [hdisk]; exact hok) (by rw [hdisk]; exact hapart)
    (ino_store hi)
    (by rw [← hc]; exact ht) (by rw [hsize]; exact Nat.zero_le _) (by rw [hsize]; exact hex _)
    (fun j hj => by
      show (j = 0 ∨ m.freeinode + 1 ≤ j) ↔ _
      omega)
  refine ⟨trivial, hbuilt, rfl, rfl, ?_⟩
  rw [hn, contents, hsize, ← hc]
  rfl

theorem overwrite_length (xs ys : List UInt8) : overwrite xs xs.length ys = xs ++ ys := by
  rw [overwrite, List.take_length, List.drop_eq_nil_of_le (Nat.le_add_right _ _), List.append_nil]

/-- **`iappend` adds the bytes to the end of the file**, or there is no room for them. -/
theorem iappend_wp (h : Built m) (hnd : m.nodes i = some nd) (hp : 0 < p.length) :
    Wp (iappend i p) m
      (fun _ => fssize + fileBlocks nd.data.length < m.freeblock + fileBlocks (nd.data.length + p.length) ∨
        maxfile * bsize < nd.data.length + p.length)
      fun _ m' => Built m' ∧ m'.freeinode = m.freeinode ∧
        m'.freeblock + fileBlocks nd.data.length =
          m.freeblock + fileBlocks (nd.data.length + p.length) ∧
        m'.nodes = Function.update m.nodes i (some { nd with data := nd.data ++ p }) := by
  obtain ⟨hi, ht, hnode⟩ := nodes_eq_some.mp hnd
  have hlen : nd.data.length = (m.ino i).size.toNat := by
    rw [hnode]
    exact length_contents _ _
  have hwhole : Whole m.disk (m.ino i) := h.good.whole i hi ht
  have hex := h.exact i nd hnd
  have hmax := h.length_le hnd
  rw [iappend, wp_bind, wp_rinode h.ready hi, ← hlen]
  refine (appendLoop_wp h.ready h.image hi ht hex hmax []).bind ?_
  rintro ⟨c', off⟩ m₁ ⟨hoff, hend, hready, hinum, hblocks, hex₁, l₁, hstored⟩
  dsimp only at hoff hex₁ hstored ⊢
  rw [wp_winode hready hi, hoff]
  have hgrow : 0 < p.length ∧ nd.data.length + p.length > (m.ino i).size.toNat := ⟨hp, by omega⟩
  have hwritten := hstored.iupdate hwhole hi ht hlen.le hend hgrow
  rw [← disk_store (m := m₁) hi] at hwritten
  generalize hc : ({ c' with size := UInt32.ofNat (nd.data.length + p.length) } : Dinode) = c at *
  have hsize : c.size.toNat = nd.data.length + p.length := by
    rw [hwritten.size]
    omega
  have hctype : c.type = (m.ino i).type := by rw [hwritten.fields]
  have hcnlink : c.nlink = (m.ino i).nlink := by rw [hwritten.fields]
  -- the store of the inode leaves the blocks of the file
  have hview : view (m₁.store i c).disk c = view m₁.disk c' := by
    have hc' : c'.type ≠ 0 := by
      rw [hstored.fields]
      exact ht
    have := (hstored.ok.inodeBlock (c.toBlock (m₁.disk (layout.iblock i)) (i % ipb))
      (layout.iblock_gt i) (layout.iblock_lt hi)).2 i hi
    rw [Function.update_self] at this
    rw [disk_store hi, ← this hc', ← hc]
    rfl
  have hex₂ : Exact (m₁.store i c).disk c c.size.toNat := by
    rw [hsize]
    refine ⟨by rw [hview]; exact hex₁.mapped, ?_⟩
    rw [← hc]
    exact hex₁.indirect
  obtain ⟨hbuilt, hn⟩ := h.set (hready.store hi) hi hwritten.ok hwritten.apart (ino_store hi)
    (by rw [hctype]; exact ht) (by rw [hsize]; exact hend) hex₂ fun j _ => by
      show (j = 0 ∨ m₁.freeinode ≤ j) ↔ _
      rw [hinum]
      refine ⟨fun hj => ⟨?_, hj⟩, And.right⟩
      rintro rfl
      rw [(h.used j hi).mpr hj] at hnd
      cases hnd
  refine ⟨hbuilt, hinum, hblocks, ?_⟩
  have hdata : contents m.disk (m.ino i) = nd.data := by
    rw [hnode]
  rw [hn, hctype, hcnlink, hwritten.contents, hdata, overwrite_length, hnode]

theorem copyFile_wp {data : List UInt8} (h : Built m) (hnd : m.nodes i = some nd) :
    Wp (copyFile i data) m
      (fun _ => fssize + fileBlocks nd.data.length <
          m.freeblock + fileBlocks (nd.data.length + data.length) ∨
        maxfile * bsize < nd.data.length + data.length)
      fun _ m' => Built m' ∧ m'.freeinode = m.freeinode ∧
        m'.freeblock + fileBlocks nd.data.length =
          m.freeblock + fileBlocks (nd.data.length + data.length) ∧
        m'.nodes = Function.update m.nodes i (some { nd with data := nd.data ++ data }) := by
  induction hn : data.length using Nat.strong_induction_on generalizing data m nd with
  | h n ih =>
      subst hn
      rw [copyFile]
      split
      · rename_i h0
        obtain rfl := List.eq_nil_of_length_eq_zero h0
        refine wp_pure.mpr ⟨h, rfl, rfl, ?_⟩
        rw [List.append_nil, ← hnd, Function.update_eq_self]
      · rename_i h0
        have htake : 0 < (data.take bsize).length := by
          rw [List.length_take]
          exact lt_min (by decide) (Nat.pos_of_ne_zero h0)
        have hsum : (data.take bsize).length + (data.drop bsize).length = data.length := by
          rw [← List.length_append, List.take_append_drop]
        have hmono : fileBlocks (nd.data.length + (data.take bsize).length) ≤
            fileBlocks (nd.data.length + data.length) := fileBlocks_mono (by omega)
        refine (iappend_wp h hnd htake).seq (fun _ he => ?_) ?_
        · exact he.imp (fun he => by omega) fun he => by omega
        · rintro - m₁ ⟨hbuilt, hinum, hblocks, hnodes⟩
          have hnd₁ : m₁.nodes i = some { nd with data := nd.data ++ data.take bsize } := by
            rw [hnodes, Function.update_self]
          have hlen : (nd.data ++ data.take bsize).length + (data.drop bsize).length =
              nd.data.length + data.length := by
            rw [List.length_append]
            omega
          have hrest := ih (data.drop bsize).length (by omega) hbuilt hnd₁ rfl
          simp only [hlen] at hrest
          rw [List.length_append] at hrest
          refine hrest.mono (fun _ he => ?_) ?_
          · exact he.imp (fun he => by omega) fun he => he
          · rintro - m' ⟨hbuilt', hinum', hblocks', hnodes'⟩
            refine ⟨hbuilt', hinum'.trans hinum, by omega, ?_⟩
            rw [hnodes', hnodes, Function.update_idem, List.append_assoc, List.take_append_drop]

end Calls

/-! ### The loop over the files -/

/-- The bytes of the root directory, with these files in it. -/
def rootBytes (argv : List (List UInt8)) : List UInt8 :=
  Dirent.bytes ⟨rootino, dot⟩ ++ Dirent.bytes ⟨rootino, dotdot⟩ ++
    (argv.mapIdx fun k name => Dirent.bytes ⟨k + 2, skipUnderscore name⟩).flatten

/-- How many blocks the contents of the files have. -/
def dataBlocks (host : List UInt8 → Option (List UInt8)) (argv : List (List UInt8)) : Nat :=
  (argv.map fun name => fileBlocks ((host name).getD []).length).sum

/-- The image has these files. -/
structure Copied (host : List UInt8 → Option (List UInt8)) (argv : List (List UInt8)) (m : Vars) :
    Prop where
  built : Built m
  inum : m.freeinode = argv.length + 2
  root : m.nodes rootino = some ⟨tDir, 1, rootBytes argv⟩
  file : ∀ k name, argv[k]? = some name → (47 : UInt8) ∉ name ∧
    ∃ data, host name = some data ∧ m.nodes (k + 2) = some ⟨tFile, 1, data⟩
  blocks : m.freeblock = nmeta + fileBlocks (direntSize * (argv.length + 2)) + dataBlocks host argv

/-- The files can be read, and there is room for them. -/
structure Fits (host : List UInt8 → Option (List UInt8)) (argv : List (List UInt8)) : Prop where
  slash : ∀ name ∈ argv, (47 : UInt8) ∉ name
  file : ∀ name ∈ argv, ∃ data, host name = some data ∧ data.length ≤ maxfile * bsize
  blocks : fileBlocks (direntSize * (argv.length + 2)) + dataBlocks host argv ≤ nblocks

section Loop
variable {host : List UInt8 → Option (List UInt8)} {done rest argv : List (List UInt8)}
  {name : List UInt8} {m : Vars}

theorem length_rootBytes (argv : List (List UInt8)) :
    (rootBytes argv).length = direntSize * (argv.length + 2) := by
  have hflat : ((argv.mapIdx fun k name => Dirent.bytes ⟨k + 2, skipUnderscore name⟩).flatten).length =
      argv.length * direntSize := by
    induction argv using List.reverseRecOn with
    | nil => rfl
    | append_singleton argv name ih =>
        rw [List.mapIdx_concat, List.flatten_concat, List.length_append, ih, length_dirent_bytes,
          List.length_append, List.length_singleton, Nat.succ_mul]
  rw [rootBytes, List.length_append, List.length_append, hflat, length_dirent_bytes,
    length_dirent_bytes]
  ring

theorem rootBytes_concat : rootBytes (done ++ [name]) =
    rootBytes done ++ Dirent.bytes ⟨done.length + 2, skipUnderscore name⟩ := by
  rw [rootBytes, rootBytes, List.mapIdx_concat, List.flatten_concat, List.append_assoc _ _ (Dirent.bytes _)]

theorem dataBlocks_append : dataBlocks host (done ++ rest) =
    dataBlocks host done + dataBlocks host rest := by
  rw [dataBlocks, List.map_append, List.sum_append]
  rfl

/-- **A round of the loop** adds a file, unless there is none or no room for it. -/
theorem addFile_wp (h : Copied host done m) (hn : done.length + 2 < ninodes) :
    Wp (addFile host rootino name) m
      (fun _ => (47 : UInt8) ∈ name ∨ host name = none ∨ ∃ data, host name = some data ∧
        (maxfile * bsize < data.length ∨ nblocks < fileBlocks (direntSize * (done.length + 3)) +
          dataBlocks host done + fileBlocks data.length))
      fun _ m' => Copied host (done ++ [name]) m' := by
  have hmeta : nmeta + nblocks = fssize := by decide
  have hroot : (rootBytes done).length = direntSize * (done.length + 2) := length_rootBytes done
  have hentry : direntSize * (done.length + 2) +
      (Dirent.bytes ⟨done.length + 2, skipUnderscore name⟩).length =
        direntSize * (done.length + 3) := by
    rw [length_dirent_bytes]
    ring
  have hblocks := h.blocks
  rw [addFile]
  split
  · rename_i hslash
    exact wp_stop.mpr (.inl hslash)
  · rename_i hslash
    split
    · rename_i hopen
      exact wp_stop.mpr (.inr (.inl hopen))
    · rename_i data hopen
      refine (ialloc_wp h.built (by rw [h.inum]; exact hn) (by rw [h.inum]; omega) (by decide)).bind ?_
      rintro inum m₁ ⟨rfl, hbuilt₁, hinum₁, hfree₁, hnodes₁⟩
      rw [h.inum] at hinum₁ hnodes₁ ⊢
      have hroot₁ : m₁.nodes rootino = some ⟨tDir, 1, rootBytes done⟩ := by
        rw [hnodes₁, Function.update_of_ne (by simp only [rootino]; omega), h.root]
      have hstep := iappend_wp hbuilt₁ hroot₁
        (show 0 < (Dirent.bytes ⟨done.length + 2, skipUnderscore name⟩).length by
          rw [length_dirent_bytes]; decide)
      simp only [hroot, hentry] at hstep
      refine hstep.seq (fun _ he => .inr (.inr ⟨data, hopen, .inr ?_⟩)) ?_
      · obtain he | he := he
        · omega
        · simp only [direntSize, ninodes, maxfile, ndirect, nindirect, bsize] at *
          omega
      rintro - m₂ ⟨hbuilt₂, hinum₂, hfree₂, hnodes₂⟩
      have hnew : m₂.nodes (done.length + 2) = some ⟨tFile, 1, []⟩ := by
        rw [hnodes₂, Function.update_of_ne (by simp only [rootino]; omega), hnodes₁,
          Function.update_self]
      have hcopy : Wp (copyFile (done.length + 2) data) m₂ _ _ := copyFile_wp hbuilt₂ hnew
      simp only [List.length_nil, Nat.zero_add, List.nil_append] at hcopy
      have h0 : fileBlocks 0 = 0 := by decide
      refine hcopy.mono (fun _ he => .inr (.inr ⟨data, hopen, ?_⟩)) ?_
      · obtain he | he := he
        · exact .inr (by omega)
        · exact .inl he
      · rintro - m' ⟨hbuilt', hinum', hfree', hnodes'⟩
        refine ⟨hbuilt', ?_, ?_, fun k nm hk => ?_, ?_⟩
        · rw [hinum', hinum₂, hinum₁, List.length_append]
          rfl
        · rw [hnodes', Function.update_of_ne (by simp only [rootino]; omega), hnodes₂,
            Function.update_self, rootBytes_concat]
        · by_cases hkn : k = done.length
          · subst hkn
            rw [List.getElem?_concat_length] at hk
            cases hk
            exact ⟨hslash, data, hopen, by rw [hnodes', Function.update_self]⟩
          · have hlt : k < done.length := by
              have := (List.getElem?_eq_some_iff.mp hk).1
              rw [List.length_append, List.length_singleton] at this
              omega
            rw [List.getElem?_append_left hlt] at hk
            obtain ⟨hs, data', hd, hf⟩ := h.file k nm hk
            refine ⟨hs, data', hd, ?_⟩
            rw [hnodes', Function.update_of_ne (by omega), hnodes₂,
              Function.update_of_ne (by simp only [rootino]; omega), hnodes₁,
              Function.update_of_ne (by omega), hf]
        · have hlast : dataBlocks host [name] = fileBlocks data.length := by
            simp [dataBlocks, hopen]
          rw [dataBlocks_append, hlast, List.length_append, List.length_singleton,
            show done.length + 1 + 2 = done.length + 3 from rfl]
          omega

/-- **The loop over the files.** -/
theorem addFiles_wp (h : Copied host [] m) (hn : argv.length + 2 ≤ ninodes) :
    Wp (forEach argv (addFile host rootino)) m (fun _ => ¬ Fits host argv)
      fun _ m' => Copied host argv m' := by
  refine wp_forEach (I := Copied host) ?_ h
  intro done name rest m hargv hdone
  have hlen : argv.length = done.length + (rest.length + 1) := by
    rw [hargv, List.length_append, List.length_cons]
  have hmem : name ∈ argv := by
    rw [hargv]
    simp
  refine (addFile_wp hdone (by omega)).mono (fun _ he hfits => ?_) fun _ _ h => h
  obtain ⟨data, hdata, hsize⟩ := hfits.file name hmem
  obtain hslash | hopen | ⟨data', hdata', hbig | hfull⟩ := he
  · exact hfits.slash name hmem hslash
  · rw [hopen] at hdata
    cases hdata
  · cases hdata.symm.trans hdata'
    exact absurd hsize (not_le.mpr hbig)
  · cases hdata.symm.trans hdata'
    have hblocks := hfits.blocks
    have hlast : dataBlocks host [name] = fileBlocks data.length := by
      simp [dataBlocks, hdata]
    have hsplit : dataBlocks host argv =
        dataBlocks host done + fileBlocks data.length + dataBlocks host rest := by
      rw [hargv, List.append_cons, dataBlocks_append, dataBlocks_append, hlast]
    have hmono : fileBlocks (direntSize * (done.length + 3)) ≤
        fileBlocks (direntSize * (argv.length + 2)) :=
      fileBlocks_mono (Nat.mul_le_mul_left _ (by omega))
    omega

end Loop

end Xv6.Mkfs
