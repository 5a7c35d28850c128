import Xv6.Fs.Cache
import Xv6.Lib.Runs

/-!
# Fs — files are byte arrays

To its callers the file system is a map from inode numbers to byte arrays (`files`), and `readi`,
`writei` and `itrunc` are operations on these (`FlatOp.run`).  `exec_refines` says so of one call on
an inode in the cache, and `files_refine` of every call after any sequence of calls.  Inodes come
into the cache and leave it meanwhile (`FileOp.load`, `FileOp.drop`).

`readi` does not read from every offset: beyond the end of the file, and when `off + n` wraps, it
returns `-1` (`readFlat`).  `readi_wraps` has a file with bytes that a `readi` of too many does not
return.
-/

namespace Xv6.Fs
open Lib Lib.Prog

/-! ### Byte arrays -/

/-- The file of each inode in use. -/
def files (L : Layout) (s : State) (i : Nat) : Option (List UInt8) :=
  if i < L.ninodes ∧ (s.ino L i).type ≠ 0 then some (contents s.disk (s.ino L i)) else none

/-- What a call returns. -/
inductive Res where
  | bytes (r : Option (List UInt8))
  | count (r : Option Nat)
  | unit
  deriving DecidableEq, Repr

/-- `readi` of an array. -/
def readFlat (xs : List UInt8) (off n : Nat) : Option (List UInt8) :=
  if off > xs.length ∨ 2 ^ 32 ≤ off + n then none else some ((xs.drop off).take n)

/-- `writei` fails beyond the end, when `off + n` wraps, and when the file would be too large. -/
def WriteFails (xs : List UInt8) (off n : Nat) : Prop :=
  off > xs.length ∨ 2 ^ 32 ≤ off + n ∨ off + n > maxfile * bsize

instance (xs : List UInt8) (off n : Nat) : Decidable (WriteFails xs off n) :=
  inferInstanceAs (Decidable (_ ∨ _))

/-- The operations on byte arrays, of inode `i`. -/
inductive FlatOp where
  | read (i off n : Nat)
  | write (i off : Nat) (src : List UInt8)
  | trunc (i : Nat)
  /-- the inode is freed -/
  | free (i : Nat)
  | skip

/-- What an operation leaves and returns. -/
def FlatOp.run (F : Nat → Option (List UInt8)) : FlatOp → (Nat → Option (List UInt8)) × Res
  | .read i off n => (F, .bytes (readFlat ((F i).getD []) off n))
  | .write i off src =>
      if WriteFails ((F i).getD []) off src.length then (F, .count none)
      else (Function.update F i (some (overwrite ((F i).getD []) off src)), .count (some src.length))
  | .trunc i => (Function.update F i (some []), .unit)
  | .free i => (Function.update F i none, .unit)
  | .skip => (F, .unit)

/-! ### The calls -/

inductive FileOp where
  | readi (ip : Slot) (off n : UInt32)
  | writei (ip : Slot) (off : UInt32) (src : List UInt8)
  | itrunc (ip : Slot)
  /-- `iget`, `ilock` and `iunlock` -/
  | load (inum : Nat)
  /-- `iput` -/
  | drop (ip : Slot)

def exec : FileOp → FsM Res
  | .readi ip off n => do
      let r ← Fs.readi ip off.toNat n.toNat
      pure (.bytes r)
  | .writei ip off src => do
      let r ← Fs.writei ip off.toNat src
      pure (.count r)
  | .itrunc ip => do
      Fs.itrunc ip
      pure .unit
  | .load inum => do
      let ip ← iget inum
      ilock ip
      iunlock ip
      pure .unit
  | .drop ip => do
      iput ip
      pure .unit

/-- The entry has a regular file or a directory. -/
def HasFile (s : State) (ip : Slot) : Prop :=
  0 < (s.icache ip).ref ∧ (s.icache ip).valid = true ∧
    ((s.icache ip).copy.type = tFile ∨ (s.icache ip).copy.type = tDir)

/-- When the call may be made. -/
def Legal (L : Layout) (s : State) : FileOp → Prop
  | .readi ip _ _ => HasFile s ip
  | .writei ip _ src => HasFile s ip ∧ src.length < 2 ^ 32
  | .itrunc ip => HasFile s ip
  | .load inum => 0 < inum ∧ inum < L.ninodes ∧ (s.ino L inum).type ≠ 0
  | .drop ip => 0 < (s.icache ip).ref

/-- The operation on arrays a call is. -/
def flatOp (s : State) : FileOp → FlatOp
  | .readi ip off n => .read (s.icache ip).inum off.toNat n.toNat
  | .writei ip off src => .write (s.icache ip).inum off.toNat src
  | .itrunc ip => .trunc (s.icache ip).inum
  | .load _ => .skip
  | .drop ip =>
      if (s.icache ip).ref = 1 ∧ (s.icache ip).valid ∧ (s.icache ip).copy.nlink = 0 then
        .free (s.icache ip).inum
      else .skip

/-- Where a call may not return: `writei` out of blocks, where it does not fail, and `load` and `drop`
where the cache is full or the inode is locked. -/
def MayStop (L : Layout) (s : State) : FileOp → Stop → Prop
  | .readi _ _ _, _ => False
  | .writei ip off src, e => e = .outOfBlocks ∧
      ¬ WriteFails ((files L s (s.icache ip).inum).getD []) off.toNat src.length
  | .itrunc _, _ => False
  | .load _, e => e = .iget ∨ e = .sleeps
  | .drop _, e => e = .iputBusy

/-- **A call refines its operation on byte arrays.** -/
def Refines (L : Layout) (s : State) (op : FileOp) : Prop :=
  Wp (exec op) s (MayStop L s op) fun r s' =>
    Good L s' ∧ (files L s', r) = (flatOp s op).run (files L s)

section Refine
variable {L : Layout} {s : State} {ip : Slot} {d' : Disk} {l' : List Nat} {c' : Dinode}

theorem files_of_lt {i : Nat} (hi : i < L.ninodes) (ht : (s.ino L i).type ≠ 0) :
    files L s i = some (contents s.disk (s.ino L i)) := if_pos ⟨hi, ht⟩

/-- Files are read off the disk alone. -/
theorem files_congr {s' : State} (h : s'.disk = s.disk) : files L s' = files L s := by
  funext i
  simp only [files, State.ino, h]

/-- The files after a call on inode `i`. -/
theorem files_update {s' : State} {i : Nat} (hi : i < L.ninodes)
    (hapart : Apart L (s.ino L) i s.disk d') (hd : dinodeAt L.toSuperblock d' i = c')
    (hdisk : s'.disk = d') :
    files L s' = Function.update (files L s) i
      (if c'.type ≠ 0 then some (contents d' c') else none) := by
  subst hdisk
  funext j
  by_cases hji : j = i
  · subst hji
    have hino : s'.ino L j = c' := hd
    rw [Function.update_self, files, hino]
    simp [hi]
  · rw [Function.update_of_ne hji]
    by_cases hj : j < L.ninodes
    · have hsame : s'.ino L j = s.ino L j := hapart.dinode j hji hj
      by_cases ht : (s.ino L j).type = 0
      · simp [files, hsame, ht]
      · rw [files_of_lt hj (by rw [hsame]; exact ht), files_of_lt hj ht, hsame, contents, contents,
          hapart.view j hji hj ht]
    · simp [files, hj]

theorem HasFile.holds (h : Good L s) (hf : HasFile s ip) :
    Holds L s (s.ino L) ip (s.icache ip).inum := h.holds hf.1 hf.2.1

theorem HasFile.ne_dev (h : Good L s) (hf : HasFile s ip) :
    (s.ino L (s.icache ip).inum).type ≠ tDev := by
  rw [← (h.copy ip hf.1 hf.2.1).1]
  obtain ht | ht := hf.2.2
  · rw [ht]
    decide
  · rw [ht]
    decide

theorem HasFile.files (h : Good L s) (hf : HasFile s ip) :
    files L s (s.icache ip).inum = some (contents s.disk (s.ino L (s.icache ip).inum)) :=
  files_of_lt (h.range ip hf.1).2 (h.copy ip hf.1 hf.2.1).2

theorem refines_readi (h : Good L s) (hf : HasFile s ip) (off n : UInt32) :
    Refines L s (.readi ip off n) := by
  have hh := hf.holds h
  refine (readi_wp hh (h.whole _ hh.lt hh.type) (hf.ne_dev h) off.toNat_lt n.toNat_lt).bind ?_
  rintro r s' ⟨rfl, rfl⟩
  refine wp_pure.mpr ⟨h, ?_⟩
  simp only [flatOp, FlatOp.run, hf.files h, Option.getD_some, readFlat, length_contents]

/-- A `readi` whose `off + n` wraps, wherever the file ends. -/
theorem readi_of_wrap (h : Good L s) (hf : HasFile s ip) {off n : UInt32}
    (hwrap : 2 ^ 32 ≤ off.toNat + n.toNat) :
    Wp (exec (.readi ip off n)) s (fun _ => False) fun r _ => r = .bytes none := by
  refine (refines_readi h hf off n).mono (fun _ he => he) fun r s' hr => ?_
  rw [flatOp, FlatOp.run, readFlat, if_pos (.inr hwrap)] at hr
  exact (Prod.ext_iff.mp hr.2).2

theorem refines_writei (h : Good L s) (hf : HasFile s ip) (off : UInt32) {src : List UInt8}
    (hsrc : src.length < 2 ^ 32) : Refines L s (.writei ip off src) := by
  have hh := hf.holds h
  have hfails : WriteFails ((files L s (s.icache ip).inum).getD []) off.toNat src.length ↔
      off.toNat > (s.ino L (s.icache ip).inum).size.toNat ∨ 2 ^ 32 ≤ off.toNat + src.length ∨
        off.toNat + src.length > maxfile * bsize := by
    simp only [hf.files h, Option.getD_some, WriteFails, length_contents]
  have hwrite := writei_wp hh rfl rfl (h.whole _ hh.lt hh.type) (hf.ne_dev h) off.toNat_lt hsrc
  refine hwrite.seq (fun e he => ⟨he.1, fun hc => he.2 (hfails.mp hc)⟩) fun r s' hr => ?_
  rw [flatOp, FlatOp.run]
  split at hr
  · rename_i hcase
    obtain ⟨rfl, rfl⟩ := hr
    rw [if_pos (hfails.mpr hcase)]
    exact wp_pure.mpr ⟨h, rfl⟩
  · rename_i hcase
    obtain ⟨rfl, d', l', c', rfl, hw⟩ := hr
    have ht : c'.type ≠ 0 := by
      rw [hw.fields]
      exact hh.type
    rw [if_neg fun hc => hcase (hfails.mp hc)]
    refine wp_pure.mpr ⟨h.put hf.1 hw.ok hw.apart hw.dinode hw.whole ht, ?_⟩
    rw [files_update hh.lt hw.apart hw.dinode (State.put_disk ..), if_pos ht, hw.contents, hf.files h,
      Option.getD_some]

theorem refines_itrunc (h : Good L s) (hf : HasFile s ip) : Refines L s (.itrunc ip) := by
  have hh := hf.holds h
  refine (itrunc_wp hh rfl).bind ?_
  rintro - s' ⟨d', l', rfl, hok, hapart, hd⟩
  have hwhole : Whole d' (s.ino L (s.icache ip).inum).trunc :=
    ⟨Nat.zero_le _, fun bn hbn => absurd hbn (Nat.not_lt_zero _)⟩
  refine wp_pure.mpr ⟨h.put hf.1 hok hapart hd hwhole hh.type, ?_⟩
  have ht : (s.ino L (s.icache ip).inum).trunc.type ≠ 0 := hh.type
  rw [files_update hh.lt hapart hd (State.put_disk ..), if_pos ht]
  rfl

theorem refines_load (h : Good L s) {inum : Nat} (hlow : 0 < inum) (hhigh : inum < L.ninodes)
    (ht : (s.ino L inum).type ≠ 0) : Refines L s (.load inum) := by
  refine (iget_wp h hlow hhigh).seq (fun _ he => .inl he) ?_
  rintro ip s₁ ⟨e, hgot, rfl, hgood₁⟩
  have hr₁ : 0 < ((s.setSlot ip e).icache ip).ref := by
    rw [State.setSlot_self]
    exact hgot.ref_pos
  have hstops : ∀ x, x = Stop.sleeps ∨ x = .noType ∧
      ((s.setSlot ip e).ino L ((s.setSlot ip e).icache ip).inum).type = 0 →
      MayStop L s (.load inum) x := by
    rintro x (rfl | ⟨-, htype⟩)
    · exact .inr rfl
    · rw [State.setSlot_self, hgot.inum_eq] at htype
      exact absurd htype ht
  refine (ilock_wp hgood₁ hr₁).seq hstops ?_
  rintro - s₂ ⟨-, -, rfl, hgood₂⟩
  refine (iunlock_wp hgood₂ (by rw [State.setSlot_self]; exact hr₁)
    (by rw [State.setSlot_self])).bind ?_
  rintro - s₃ ⟨rfl, hgood₃⟩
  exact wp_pure.mpr ⟨hgood₃, rfl⟩

theorem refines_drop (h : Good L s) (hr : 0 < (s.icache ip).ref) : Refines L s (.drop ip) := by
  refine (iput_wp h hr).bind ?_
  rintro - s' ⟨hgood, ⟨hkeep, rfl⟩ | ⟨href, hvalid, hnlink, d', l', e, rfl, -, hapart, ht⟩⟩
  · refine wp_pure.mpr ⟨hgood, ?_⟩
    rw [flatOp, if_neg hkeep, files_congr (State.setSlot_disk)]
    rfl
  · refine wp_pure.mpr ⟨hgood, ?_⟩
    rw [flatOp, if_pos ⟨href, hvalid, hnlink⟩,
      files_update (h.range ip hr).2 hapart rfl State.setSlot_disk, if_neg (not_not.mpr ht)]
    rfl

theorem exec_refines (h : Good L s) (op : FileOp) (hlegal : Legal L s op) : Refines L s op := by
  cases op with
  | readi ip off n => exact refines_readi h hlegal off n
  | writei ip off src => exact refines_writei h hlegal.1 off hlegal.2
  | itrunc ip => exact refines_itrunc h hlegal
  | load inum => exact refines_load h hlegal.1 hlegal.2.1 hlegal.2.2
  | drop ip => exact refines_drop h hlegal

/-! ### Sequences of calls -/

def fileStep (s : State) (op : FileOp) : Option State :=
  match exec op s with
  | .ok (_, s') => some s'
  | .error _ => none

theorem Good.fileStep {s' : State} {op : FileOp} (h : Good L s) (hlegal : Legal L s op)
    (hs : fileStep s op = some s') : Good L s' := by
  simp only [Fs.fileStep] at hs
  split at hs
  · rename_i r s₁ hexec
    cases hs
    exact ((exec_refines h op hlegal).of_eq_ok hexec).1
  · cases hs

/-- **Files refine byte arrays.**  After any calls, from any well-formed state, the next call does to
the arrays what its operation does, and returns what that returns. -/
theorem files_refine {s₀ : State} {ops : List FileOp} (h₀ : Good L s₀)
    (hlegal : Meets fileStep (Legal L) s₀ ops) (h : runs fileStep s₀ ops = some s) {op : FileOp}
    (hop : Legal L s op) : Refines L s op :=
  exec_refines (runs_inv_meets (fun _ _ _ hg hl hs => hg.fileStep hl hs) h₀ hlegal h) op hop

end Refine

/-! ### A small image

Seven metadata blocks; the root directory is inode 1 and has block 7, with the entries `.` and `..`.
-/

def smallLayout : Layout where
  size := 16
  nblocks := 9
  ninodes := 8
  nlog := 1
  logstart := 2
  inodestart := 3
  bmapstart := 6
  inode_low := by decide
  inode_high := by decide
  meta_le := by decide
  size_lt := by decide

def rootInode : Dinode := ⟨tDir, 0, 0, 1, 32, fun j => if j = 0 then 7 else 0⟩

/-- The disk before the root directory is stored. -/
def emptyDisk : Disk
  | 1 => zeroBlock.splice 0 [16, 0, 0, 0, 9, 0, 0, 0, 8, 0, 0, 0, 1, 0, 0, 0, 2, 0, 0, 0, 3, 0, 0, 0,
      6, 0, 0, 0]
  | 6 => zeroBlock.splice 0 [255]
  | 7 => (zeroBlock.splice 0 [1, 0, 46]).splice 16 [1, 0, 46, 46]
  | _ => zeroBlock

def smallDisk : Disk :=
  Function.update emptyDisk (smallLayout.iblock 1) (rootInode.toBlock zeroBlock 1)

def rootSlot : Slot := ⟨0, by decide⟩

/-- The root directory is in the cache. -/
def smallState : State where
  sb := smallLayout.toSuperblock
  disk := smallDisk
  icache ip := if ip = rootSlot then ⟨1, 1, false, true, rootInode⟩ else ⟨0, 0, false, false, rootInode⟩
  input := []
  logged := []
  ended := []

theorem small_ino {i : Nat} (hi : i < smallLayout.ninodes) :
    (i = 1 ∧ smallState.ino smallLayout i = rootInode) ∨
      (i ≠ 1 ∧ (smallState.ino smallLayout i).type = 0) := by
  have hall : smallState.ino smallLayout i =
      if i = 1 then rootInode else dinodeAt smallLayout.toSuperblock emptyDisk i :=
    dinodeAt_iupdate (d := emptyDisk) smallLayout rootInode 1 i
  rw [hall]
  by_cases h1 : i = 1
  · exact .inl ⟨h1, if_pos h1⟩
  · refine .inr ⟨h1, ?_⟩
    rw [if_neg h1]
    have : i < 8 := hi
    interval_cases i <;> decide

theorem place_rootInode (d : Disk) (k : Nat) : place d rootInode k = if k = 0 then 7 else 0 := by
  by_cases hk : k ≤ ndirect
  · rw [place_of_le hk]
    simp only [ndirect] at hk
    interval_cases k <;> rfl
  · have h12 : rootInode.addr ndirect = 0 := rfl
    rw [place, if_neg hk, entry, if_pos h12, if_neg (by omega)]

theorem small_own {p : Nat × Nat} {b : Nat} :
    own smallLayout smallDisk (smallState.ino smallLayout) p = some b ↔ p = (1, 0) ∧ b = 7 := by
  rw [own_eq_some]
  constructor
  · rintro ⟨hi, ht, hp, h0⟩
    obtain ⟨h1, hroot⟩ | ⟨-, h⟩ := small_ino hi
    · rw [hroot, place_rootInode] at hp
      split at hp
      · exact ⟨Prod.ext h1 ‹_›, hp.symm⟩
      · exact absurd hp.symm h0
    · exact absurd h ht
  · rintro ⟨rfl, rfl⟩
    obtain ⟨-, hroot⟩ | ⟨h, -⟩ := small_ino (show 1 < smallLayout.ninodes by decide)
    · rw [hroot, place_rootInode]
      exact ⟨by decide, by decide, rfl, by decide⟩
    · exact absurd rfl h

theorem small_used {b : Nat} : b ∈ usedBlocks smallLayout smallDisk ↔ b < 8 := by
  constructor
  · rintro ⟨hb, hbit⟩
    have : b < 16 := hb
    by_contra hge
    interval_cases b <;> first | omega | exact absurd hbit (by decide)
  · intro hb
    refine ⟨lt_trans hb (by decide), ?_⟩
    interval_cases b <;> decide

theorem small_good : Good smallLayout smallState where
  sb := rfl
  image :=
    { super := by
        have hsuper : Superblock.ofBlock (emptyDisk 1) = smallLayout.toSuperblock := by decide
        exact hsuper
      ledger :=
        { inj := by
            intro p q b hp hq
            rw [(small_own.mp hp).1, (small_own.mp hq).1]
          notReserved := by
            intro p b hp
            rw [(small_own.mp hp).2]
            exact lt_irrefl 7
          used_iff := by
            intro b
            have hmeta : b ∈ {b | b < smallLayout.nmeta} ↔ b < 7 := Iff.rfl
            rw [show b ∈ usedBlocks smallLayout smallState.disk ↔ _ from small_used, hmeta]
            constructor
            · intro hb
              by_cases h7 : b = 7
              · exact .inr ⟨(1, 0), small_own.mpr ⟨rfl, h7⟩⟩
              · exact .inl (by omega)
            · rintro (hb | ⟨p, hp⟩)
              · omega
              · rw [(small_own.mp hp).2]
                omega } }
  whole := by
    intro i hi ht
    obtain ⟨-, hroot⟩ | ⟨-, h⟩ := small_ino hi
    · rw [hroot]
      refine ⟨by decide, fun bn hbn => ?_⟩
      have h32 : rootInode.size.toNat = 32 := rfl
      have h0 : bn = 0 := by
        simp only [h32, bsize] at hbn
        omega
      subst h0
      rw [view, place_rootInode]
      rintro ⟨⟩
    · exact absurd h ht
  uniq := by
    intro ip jp hi hj _
    simp only [smallState] at hi hj
    split at hi <;> split at hj <;> simp_all
  range := by
    intro ip hi
    simp only [smallState] at hi ⊢
    split
    · decide
    · rename_i hne
      rw [if_neg hne] at hi
      exact absurd hi (lt_irrefl _)
  copy := by
    intro ip hi _
    have hip : smallState.icache ip = ⟨1, 1, false, true, rootInode⟩ := by
      simp only [smallState] at hi ⊢
      split
      · rfl
      · rename_i hne
        rw [if_neg hne] at hi
        exact absurd hi (lt_irrefl _)
    obtain ⟨-, hroot⟩ | ⟨h, -⟩ := small_ino (show 1 < smallLayout.ninodes by decide)
    · rw [hip, hroot]
      exact ⟨rfl, by decide⟩
    · exact absurd rfl h

theorem small_hasFile : HasFile smallState rootSlot := ⟨by decide, rfl, .inr rfl⟩

/-- The first three bytes of the root directory. -/
theorem root_refines : Good smallLayout smallState ∧ HasFile smallState rootSlot ∧
    Refines smallLayout smallState (.readi rootSlot 0 3) :=
  ⟨small_good, small_hasFile, files_refine small_good meets_nil (runs_nil _) small_hasFile⟩

/-- A `readi` from offset 1 of as many bytes as there are returns none of the 31 bytes there. -/
theorem readi_wraps : Good smallLayout smallState ∧ HasFile smallState rootSlot ∧
    (files smallLayout smallState (smallState.icache rootSlot).inum).map List.length = some 32 ∧
    Wp (exec (.readi rootSlot 1 0xFFFFFFFF)) smallState (fun _ => False)
      fun r _ => r = .bytes none := by
  have hfiles := small_hasFile.files small_good
  refine ⟨small_good, small_hasFile, ?_, ?_⟩
  · rw [hfiles, Option.map_some, length_contents, ← (small_good.copy _ small_hasFile.1 rfl).1]
    rfl
  · exact readi_of_wrap small_good small_hasFile (by decide)

end Xv6.Fs
