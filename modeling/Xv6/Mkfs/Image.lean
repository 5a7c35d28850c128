import Xv6.Mkfs.Files

/-!
# Mkfs — the image

What `mkfs` writes, whenever it does not stop.  It is well formed (`WellFormed`) but in two cases.
Inode numbers are not checked against `sb.ninodes`, so that more than 198 files get numbers there are
no inodes for.  And the size of the root directory is rounded up to the next block even when it is
full: with 30 files, or 62, or any number that fills the last block, the directory ends with a block
it does not have.
-/

namespace Xv6.Mkfs
open Lib Lib.Prog Fs

/-! ### The empty image -/

/-- The variables before the first inode. -/
def blank : Vars := ⟨Function.update (fun _ => zeroBlock) 1 sbBlock, fssize, 1, nmeta⟩

theorem blank_ready : Ready blank where
  len := rfl
  low := le_rfl
  high := by decide
  zero b hb := by
    have hne : b ≠ 1 := by
      rintro rfl
      exact absurd hb (by decide)
    show (Function.update (fun _ => zeroBlock) 1 sbBlock : Disk) b = zeroBlock
    exact Function.update_of_ne hne _ _

theorem blank_type {i : Nat} (hi : i < ninodes) : (blank.ino i).type = 0 := by
  have hblk : blank.disk (sb.iblock i) = zeroBlock := by
    rw [Vars.disk_of_ne (iblock_ne hi)]
    show (Function.update (fun _ => zeroBlock) 1 sbBlock : Disk) (sb.iblock i) = zeroBlock
    exact Function.update_of_ne (layout.iblock_gt i).ne' _ _
  show (Dinode.ofBlock (blank.disk (sb.iblock i)) (i % ipb)).type = 0
  rw [hblk]
  simp only [Dinode.ofBlock, read_zeroBlock]
  rfl

theorem blank_built : Built blank where
  ready := blank_ready
  good := by
    have hown : ∀ p, own layout blank.disk blank.ino p = none := by
      intro p
      refine if_neg ?_
      rintro ⟨hi, ht, -⟩
      exact ht (blank_type hi)
    have hused : ∀ b, b ∈ usedBlocks layout blank.disk ↔ b < nmeta := by
      intro b
      constructor
      · rintro ⟨hb, hbit⟩
        rw [show layout.toSuperblock = sb from rfl, bitAt_disk blank_ready hb] at hbit
        exact of_decide_eq_true hbit
      · intro hb
        have hsize : b < fssize := hb.trans (by decide)
        refine ⟨hsize, ?_⟩
        rw [show layout.toSuperblock = sb from rfl, bitAt_disk blank_ready hsize]
        exact decide_eq_true hb
    refine ⟨rfl, ⟨by decide, ?_⟩, ?_, ?_, ?_, ?_⟩
    · refine ⟨fun {p q b} hp => ?_, fun {p b} hp => ?_, fun b => ?_⟩
      · cases (hown p).symm.trans hp
      · cases (hown p).symm.trans hp
      · refine (hused b).trans ⟨.inl, ?_⟩
        rintro (hb | ⟨p, hp⟩)
        · exact hb
        · cases (hown p).symm.trans hp
    · exact fun i hi ht => absurd (blank_type hi) ht
    · exact fun ip jp hi => absurd hi (lt_irrefl _)
    · exact fun ip hi => absurd hi (lt_irrefl _)
    · exact fun ip hi => absurd hi (lt_irrefl _)
  exact i nd hi := by
    obtain ⟨hlt, ht, -⟩ := nodes_eq_some.mp hi
    exact absurd (blank_type hlt) ht
  used i hi := by
    refine ⟨fun _ => ?_, fun _ => (nodes_eq_none hi).mpr (blank_type hi)⟩
    show i = 0 ∨ 1 ≤ i
    omega

/-- The loop that makes the file. -/
theorem zero_wp {E : Exit → Prop} : Wp (forEach (List.range fssize) fun i => wsect i zeroBlock) start E
    fun _ m => m = ⟨fun _ => zeroBlock, fssize, 1, nmeta⟩ := by
  have hloop : Wp (forEach (List.range fssize) fun i => wsect i zeroBlock) start E
      fun _ m => m = ⟨fun _ => zeroBlock, (List.range fssize).length, 1, nmeta⟩ := by
    refine wp_forEach (I := fun done (m : Vars) => m = ⟨fun _ => zeroBlock, done.length, 1, nmeta⟩) ?_ rfl
    rintro done i rest m hrange rfl
    have hget : (List.range fssize)[done.length]? = some i := by
      rw [hrange, List.getElem?_append_right le_rfl, Nat.sub_self]
      rfl
    obtain ⟨hlt, hi⟩ := List.getElem?_eq_some_iff.mp hget
    rw [List.getElem_range] at hi
    rw [List.length_range] at hlt
    subst hi
    rw [wsect, wp_modify, sector_eq hlt.le, List.length_append, List.length_singleton]
    simp only [Function.update_eq_self_iff, Vars.mk.injEq, and_true, true_and]
    exact max_eq_right (Nat.le_succ _)
  rwa [List.length_range] at hloop

/-! ### The end of `main` -/

/-- The image is written, after the size of the root directory is fixed. -/
structure Finished (m m' : Vars) : Prop where
  inum : m'.freeinode = m.freeinode
  image : ImageOk layout m'.img (dinodeAt sb m'.img)
  apart : Apart layout m.ino rootino m.disk m'.img
  root : dinodeAt sb m'.img rootino = { m.ino rootino with
    size := UInt32.ofNat (((m.ino rootino).size.toNat / bsize + 1) * bsize) }
  view : view m'.img (m.ino rootino) = view m.disk (m.ino rootino)

theorem finish_wp {E : Exit → Prop} {m : Vars} {nd : Node} (h : Built m)
    (hnd : m.nodes rootino = some nd) :
    Wp (do fixRoot rootino
           let used ← gets Vars.freeblock
           balloc used : MkM Unit) m E fun _ m' => Finished m m' := by
  obtain ⟨hi, ht, -⟩ := nodes_eq_some.mp hnd
  generalize hc : ({ m.ino rootino with
    size := UInt32.ofNat (((m.ino rootino).size.toNat / bsize + 1) * bsize) } : Dinode) = c
  have hctype : c.type = (m.ino rootino).type := by rw [← hc]
  have hplace : ∀ d k, place d c k = place d (m.ino rootino) k := by
    intro d k
    rw [← hc]
    rfl
  have hview : ∀ d, Fs.view d c = Fs.view d (m.ino rootino) := by
    intro d
    rw [← hc]
    rfl
  obtain ⟨hok, hapart, hsame⟩ := h.image.storeIno c hi fun k => by
    refine own_congr ?_ fun _ _ => ?_
    · rw [Function.update_self, hctype]
    · rw [Function.update_self, hplace]
  rw [← disk_store hi] at hok hapart hsame
  have hready := h.ready.store (c := c) hi
  have hused : (m.store rootino c).freeblock < bsize * 8 := hready.high.trans_lt (by decide)
  simp only [fixRoot, wp_bind, wp_rinode h.ready hi, hc, wp_winode h.ready hi, wp_gets]
  rw [balloc, if_pos hused, wp_wsect hready.len (by decide)]
  have hroot : dinodeAt sb (m.store rootino c).disk rootino = c := ino_store hi
  refine ⟨rfl, hok.congr_ino fun i hi' => ?_, hapart, hroot.trans hc.symm, ?_⟩
  · by_cases hir : i = rootino
    · rw [hir, Function.update_self]
      exact hroot
    · rw [Function.update_of_ne hir]
      exact hapart.dinode i hir hi'
  · have := hsame (by rw [hctype]; exact ht)
    rw [hview, hview] at this
    exact this

/-- **`mkfs`**, for as many files as there are inodes: it copies them and writes the image, or there is
no room. -/
theorem mkfs_wp {host : List UInt8 → Option (List UInt8)} {argv : List (List UInt8)}
    (hn : argv.length + 2 ≤ ninodes) :
    Wp (mkfs host argv) start (fun _ => ¬ Fits host argv)
      fun _ m' => ∃ m, Copied host argv m ∧ Finished m m' := by
  rw [mkfs]
  refine Wp.bind zero_wp ?_
  rintro - m rfl
  rw [wp_bind, wp_wsect rfl (by decide)]
  refine (ialloc_wp blank_built (by decide) (by decide) (by decide)).bind ?_
  rintro root m₁ ⟨hroot, hbuilt₁, hinum₁, hfree₁, hnodes₁⟩
  obtain rfl : root = rootino := hroot
  have hroot₁ : m₁.nodes rootino = some ⟨tDir, 1, []⟩ := by
    rw [hnodes₁]
    exact Function.update_self ..
  rw [if_neg (not_not.mpr rfl)]
  have hfree : blank.freeblock = nmeta := rfl
  have hone : fileBlocks 0 = 0 ∧ fileBlocks 16 = 1 ∧ fileBlocks (16 + 16) = 1 ∧ nmeta + 2 < fssize ∧
    16 + 16 < maxfile * bsize := by decide
  have hsize : ∀ de : Dirent, de.bytes.length = 16 := fun _ => length_dirent_bytes
  have hdot := iappend_wp (p := Dirent.bytes ⟨rootino, dot⟩) hbuilt₁ hroot₁ (by rw [hsize]; decide)
  simp only [hsize, List.length_nil, Nat.zero_add, List.nil_append] at hdot
  refine hdot.seq (fun _ he => absurd he (by omega)) ?_
  rintro - m₂ ⟨hbuilt₂, hinum₂, hfree₂, hnodes₂⟩
  have hroot₂ : m₂.nodes rootino = some ⟨tDir, 1, Dirent.bytes ⟨rootino, dot⟩⟩ := by
    rw [hnodes₂, Function.update_self]
  have hdotdot := iappend_wp (p := Dirent.bytes ⟨rootino, dotdot⟩) hbuilt₂ hroot₂
    (by rw [hsize]; decide)
  simp only [hsize] at hdotdot
  refine hdotdot.seq (fun _ he => absurd he (by omega)) ?_
  rintro - m₃ ⟨hbuilt₃, hinum₃, hfree₃, hnodes₃⟩
  have hcopied : Copied host [] m₃ := by
    refine ⟨hbuilt₃, ?_, ?_, nofun, ?_⟩
    · rw [hinum₃, hinum₂, hinum₁]
      rfl
    · rw [hnodes₃, Function.update_self]
      rfl
    · show m₃.freeblock = nmeta + fileBlocks (16 + 16) + 0
      omega
  refine (addFiles_wp hcopied hn).bind ?_
  intro _ m hm
  refine (finish_wp hm.built hm.root).post ?_
  intro _ m' hfin
  exact ⟨m, hm, hfin⟩

/-! ### Inode numbers -/

section Numbers
variable {α β : Type} {host : List UInt8 → Option (List UInt8)} {argv : List (List UInt8)}

/-- The program hands out `n` inode numbers, whatever the image is like. -/
def Numbers (n : Nat) (p : MkM α) : Prop :=
  ∀ m, Wp p m (fun _ => True) fun _ m' => m'.freeinode = m.freeinode + n

theorem Numbers.pure (a : α) : Numbers 0 (pure a) := fun _ => wp_pure.mpr rfl

theorem Numbers.stop {n : Nat} (e : Exit) : Numbers n (stop e : MkM α) := fun _ => wp_stop.mpr trivial

theorem Numbers.bind {x : MkM α} {f : α → MkM β} {n k : Nat} (hx : Numbers n x)
    (hf : ∀ a, Numbers k (f a)) : Numbers (n + k) (x >>= f) := by
  intro m
  refine (hx m).bind fun a m₁ h₁ => (hf a m₁).post fun _ m₂ h₂ => ?_
  rw [h₂, h₁, Nat.add_assoc]

/-- The next one hands out none. -/
theorem Numbers.then {x : MkM α} {f : α → MkM β} {n : Nat} (hx : Numbers n x)
    (hf : ∀ a, Numbers 0 (f a)) : Numbers n (x >>= f) := hx.bind hf

/-- The one before hands out none. -/
theorem Numbers.after {x : MkM α} {f : α → MkM β} {n : Nat} (hx : Numbers 0 x)
    (hf : ∀ a, Numbers n (f a)) : Numbers n (x >>= f) := by
  have := hx.bind hf
  rwa [Nat.zero_add] at this

theorem numbers_wsect {sec : Nat} {buf : Block} : Numbers 0 (wsect sec buf) :=
  fun _ => wp_modify.mpr rfl

theorem numbers_rsect {sec : Nat} : Numbers 0 (rsect sec) := by
  intro m
  simp only [rsect, wp_bind, wp_gets]
  split
  · exact wp_pure.mpr rfl
  · exact wp_stop.mpr trivial

theorem numbers_winode {inum : Nat} {c : Dinode} : Numbers 0 (winode inum c) :=
  numbers_rsect.then fun _ => numbers_wsect

theorem numbers_rinode {inum : Nat} : Numbers 0 (rinode inum) :=
  numbers_rsect.then fun _ => .pure _

theorem numbers_newBlock : Numbers 0 newBlock := by
  intro m
  simp only [newBlock, wp_bind, wp_gets, wp_modify, wp_pure]
  rfl

theorem numbers_addrFor {din : Dinode} {k : Nat} : Numbers 0 (addrFor din k) := by
  rw [addrFor]
  split
  · exact numbers_newBlock.then fun _ => .pure _
  · exact .pure _

theorem numbers_entryFor {addr j : Nat} : Numbers 0 (entryFor addr j) := by
  refine numbers_rsect.then fun _ => ?_
  split
  · exact numbers_newBlock.then fun _ => numbers_wsect.then fun _ => .pure _
  · exact .pure _

theorem numbers_blockFor {din : Dinode} {fbn : Nat} : Numbers 0 (blockFor din fbn) := by
  rw [blockFor]
  split
  · exact numbers_addrFor.then fun _ => .pure _
  · exact numbers_addrFor.then fun _ => numbers_entryFor.then fun _ => .pure _

theorem numbers_appendLoop {din : Dinode} {off : Nat} {p : List UInt8} :
    Numbers 0 (appendLoop din off p) := by
  fun_induction appendLoop din off p with
  | case1 => exact .pure _
  | case2 din off p h0 hbn ih =>
      exact numbers_blockFor.then fun r => numbers_rsect.then fun _ =>
        numbers_wsect.then fun _ => ih r.1
  | case3 => exact .stop _

theorem numbers_iappend {inum : Nat} {xp : List UInt8} : Numbers 0 (iappend inum xp) :=
  numbers_rinode.then fun _ => numbers_appendLoop.then fun _ => numbers_winode

theorem numbers_copyFile {inum : Nat} {data : List UInt8} : Numbers 0 (copyFile inum data) := by
  fun_induction copyFile inum data with
  | case1 => exact .pure _
  | case2 data h0 ih => exact numbers_iappend.then fun _ => ih

theorem numbers_ialloc {type : UInt16} : Numbers 1 (ialloc type) := by
  intro m
  simp only [ialloc, wp_bind, wp_gets, wp_modify]
  exact (numbers_winode _).post fun _ m' hm' => wp_pure.mpr hm'

theorem numbers_addFile {root : Nat} {name : List UInt8} : Numbers 1 (addFile host root name) := by
  rw [addFile]
  split
  · exact .stop _
  · split
    · exact .stop _
    · exact numbers_ialloc.then fun _ => numbers_iappend.then fun _ => numbers_copyFile

theorem numbers_addFiles {root : Nat} :
    Numbers argv.length (forEach argv (addFile host root)) := by
  induction argv with
  | nil => exact .pure _
  | cons name argv ih =>
      rw [List.length_cons, Nat.add_comm]
      exact numbers_addFile.bind fun _ => ih

theorem numbers_fixRoot {root : Nat} : Numbers 0 (fixRoot root) :=
  numbers_rinode.then fun _ => numbers_winode

theorem numbers_balloc {used : Nat} : Numbers 0 (balloc used) := by
  rw [balloc]
  split
  · exact numbers_wsect
  · exact .stop _

/-- **Each file gets the next number.** -/
theorem mkfs_inum : Wp (mkfs host argv) start (fun _ => True)
    fun _ m => m.freeinode = argv.length + 2 := by
  rw [mkfs]
  refine Wp.bind zero_wp ?_
  rintro - m rfl
  refine Wp.mono (numbers_wsect.after (fun _ => numbers_ialloc.bind (k := argv.length) ?_) _)
    (fun _ _ => trivial) fun _ m' hm' => ?_
  · intro root
    split
    · exact .stop _
    · exact numbers_iappend.after fun _ => numbers_iappend.after fun _ => numbers_addFiles.then fun _ =>
        numbers_fixRoot.then fun _ => Numbers.then (fun _ => wp_gets.mpr rfl) fun _ => numbers_balloc
  · rw [hm']
    show 1 + (1 + argv.length) = argv.length + 2
    omega

end Numbers

/-! ### Well-formed images -/

/-- What an image should be: the inode numbers handed out are there, the blocks at the places of the
inodes are data blocks, each at one place, the free map has the blocks in use and no others, and every
file has the blocks below its size. -/
structure WellFormed (m : Vars) : Prop where
  inums : ∀ i, 0 < i → i < m.freeinode → i < sb.ninodes
  range : ∀ p b, own layout m.img (dinodeAt sb m.img) p = some b → nmeta ≤ b ∧ b < fssize
  disjoint : ∀ p q b, own layout m.img (dinodeAt sb m.img) p = some b →
    own layout m.img (dinodeAt sb m.img) q = some b → p = q
  bitmap : ∀ b < fssize, bitAt sb m.img b = true ↔
    b < nmeta ∨ ∃ p, own layout m.img (dinodeAt sb m.img) p = some b
  mapped : ∀ i < sb.ninodes, (dinodeAt sb m.img i).type ≠ 0 →
    ∀ bn, bn * bsize < (dinodeAt sb m.img i).size.toNat →
      place m.img (dinodeAt sb m.img i) (placeOf bn) ≠ 0

section Iff
variable {host : List UInt8 → Option (List UInt8)} {argv : List (List UInt8)} {m m' : Vars}

theorem view_ne_none {d : Disk} {c : Dinode} {bn : Nat} :
    view d c bn ≠ none ↔ place d c (placeOf bn) ≠ 0 := by
  rw [view]
  split
  · rename_i h0
    simp [h0]
  · rename_i h0
    simp [h0]

theorem Copied.size_root (h : Copied host argv m) :
    (m.ino rootino).size.toNat = direntSize * (argv.length + 2) := by
  obtain ⟨-, -, hnode⟩ := nodes_eq_some.mp h.root
  have := congrArg (fun nd : Node => nd.data.length) hnode
  rw [length_contents] at this
  rw [← this]
  exact length_rootBytes argv

theorem Finished.size_root (hf : Finished m m') (hm : Copied host argv m)
    (hn : argv.length + 2 ≤ ninodes) : (dinodeAt sb m'.img rootino).size.toNat =
      (direntSize * (argv.length + 2) / bsize + 1) * bsize := by
  rw [hf.root, hm.size_root]
  refine UInt32.toNat_ofNat_of_lt' ?_
  simp only [direntSize, ninodes, bsize, UInt32.size] at *
  omega

/-- The blocks of the files are there; those of the root directory are if its last one is not full. -/
theorem mapped_iff (hm : Copied host argv m) (hf : Finished m m') (hn : argv.length + 2 ≤ ninodes) :
    (∀ i < sb.ninodes, (dinodeAt sb m'.img i).type ≠ 0 →
      ∀ bn, bn * bsize < (dinodeAt sb m'.img i).size.toNat →
        place m'.img (dinodeAt sb m'.img i) (placeOf bn) ≠ 0) ↔ (argv.length + 2) % 32 ≠ 0 := by
  have hroot := hf.size_root hm hn
  have hblock : ∀ bn, place m'.img (dinodeAt sb m'.img rootino) (placeOf bn) ≠ 0 ↔
      bn * bsize < direntSize * (argv.length + 2) := by
    intro bn
    have hexact := (hm.built.exact _ _ hm.root).mapped bn
    rw [length_rootBytes] at hexact
    rw [hf.root, ← hexact, ← hf.view]
    exact view_ne_none.symm
  constructor
  · intro hall hfull
    have htype : (dinodeAt sb m'.img rootino).type ≠ 0 := by
      rw [hf.root]
      exact (nodes_eq_some.mp hm.root).2.1
    have hlast := hall rootino (by decide) htype (direntSize * (argv.length + 2) / bsize)
      (by rw [hroot]; exact Nat.mul_lt_mul_of_pos_right (Nat.lt_succ_self _) (by decide))
    rw [hblock] at hlast
    simp only [direntSize, bsize] at *
    omega
  · intro hrest i hi ht bn hbn
    by_cases hir : i = rootino
    · subst hir
      rw [hroot] at hbn
      rw [hblock]
      simp only [direntSize, bsize] at *
      omega
    · have hino : dinodeAt sb m'.img i = m.ino i := hf.apart.dinode i hir hi
      rw [hino] at ht hbn ⊢
      have hnd : m.nodes i = some ⟨(m.ino i).type, (m.ino i).nlink, contents m.disk (m.ino i)⟩ :=
        nodes_eq_some.mpr ⟨hi, ht, rfl⟩
      have hexact := (hm.built.exact _ _ hnd).mapped bn
      rw [length_contents, ← hf.apart.view i hir hi ht] at hexact
      exact view_ne_none.mp (hexact.mpr hbn)

theorem wellFormed_iff_of_le (hm : Copied host argv m) (hf : Finished m m')
    (hn : argv.length + 2 ≤ ninodes) : WellFormed m' ↔ (argv.length + 2) % 32 ≠ 0 := by
  have hledger := hf.image.ledger
  refine ⟨fun h => (mapped_iff hm hf hn).mp h.mapped, fun hrest => ?_⟩
  refine ⟨fun i _ hi => ?_, fun _ _ hp => hf.image.range hp, fun _ _ _ => hledger.inj, fun b hb => ?_,
    (mapped_iff hm hf hn).mpr hrest⟩
  · rw [hf.inum, hm.inum] at hi
    exact hi.trans_le hn
  · have := hledger.used_iff b
    exact ⟨fun hbit => this.mp ⟨hb, hbit⟩, fun hown => (this.mpr hown).2⟩

/-- **The images `mkfs` makes.**  Whatever the files are, an image it writes is well formed unless there
are more files than inodes or the entries of the root directory fill its blocks. -/
theorem image_wellFormed_iff (hrun : mkfs host argv start = .ok ((), m)) :
    WellFormed m ↔ argv.length + 2 ≤ ninodes ∧ (argv.length + 2) % 32 ≠ 0 := by
  by_cases hn : argv.length + 2 ≤ ninodes
  · obtain ⟨m₀, hm, hf⟩ := (mkfs_wp hn).of_eq_ok hrun
    rw [wellFormed_iff_of_le hm hf hn]
    exact ⟨fun hrest => ⟨hn, hrest⟩, And.right⟩
  · refine ⟨fun h => ?_, fun h => absurd h.1 hn⟩
    have hinum := mkfs_inum.of_eq_ok hrun
    have := h.inums (argv.length + 1) (Nat.succ_pos _) (by rw [hinum]; exact Nat.lt_succ_self _)
    exact absurd (show argv.length + 2 ≤ ninodes from this) hn

/-- The image without files is well formed. -/
theorem noFiles_wellFormed : ∃ m, mkfs (fun _ => none) [] start = .ok ((), m) ∧ WellFormed m := by
  have hfits : Fits (fun _ => none) [] := ⟨nofun, nofun, by decide⟩
  obtain ⟨⟨⟩, m, hrun, -⟩ := (mkfs_wp (by decide)).exists_ok fun _ he => he hfits
  exact ⟨m, hrun, (image_wellFormed_iff hrun).mpr (by decide)⟩

/-- Thirty files with one letter as their name. -/
def thirtyFiles : List (List UInt8) := (List.range 30).map fun k => [UInt8.ofNat (65 + k)]

/-- With thirty empty files the root directory ends in a block it does not have. -/
theorem thirtyFiles_illFormed :
    ∃ m, mkfs (fun _ => some []) thirtyFiles start = .ok ((), m) ∧ ¬ WellFormed m := by
  have hfits : Fits (fun _ => some []) thirtyFiles :=
    ⟨by decide, fun _ _ => ⟨[], rfl, Nat.zero_le _⟩, by decide⟩
  have hn : thirtyFiles.length + 2 ≤ ninodes := by decide
  obtain ⟨⟨⟩, m, hrun, m₀, hm, hf⟩ := (mkfs_wp hn).exists_ok fun _ he => he hfits
  exact ⟨m, hrun, fun h => (wellFormed_iff_of_le hm hf hn).mp h (by decide)⟩

end Iff

end Xv6.Mkfs
