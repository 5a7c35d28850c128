import Xv6.Lib.Count
import Xv6.Syscall.Effect

/-!
# Syscall — references and blocks

The references to the inode cache between two calls are those of the open files and of the current
directories, counted exactly (`SysOk`).  Every call keeps this, and with it the image: a block in use
is of the file system itself or at one place of one inode, and `bfree` never finds a block free
(`blocks_owned`).
-/

namespace Xv6.Syscall
open Lib Lib.Prog Fs

/-- The file refers to this entry. -/
def File.Refers (ip : Slot) (file : File) : Prop := file.type = .inode ∧ file.ip = ip

instance (ip : Slot) : DecidablePred (File.Refers ip) := fun _ => inferInstanceAs (Decidable (_ ∧ _))

/-- The process is in this directory. -/
def Proc.In (ip : Slot) (proc : Proc) : Prop := proc.cwd = some ip

instance (ip : Slot) : DecidablePred (Proc.In ip) := fun _ => inferInstanceAs (Decidable (_ = _))

/-- How many references to each entry there are. -/
def refsOf (t : Sys) (ip : Slot) : Int := count (File.Refers ip) t.ftable + count (Proc.In ip) t.procs

/-- What the descriptors of the processes stand for. -/
def descriptors (t : Sys) (x : Fin nproc × Fin nofile) : Option FileNo := (t.procs x.1).ofile x.2

/-- The entry has an inode that is not a directory. -/
structure NotDir (L : Layout) (s : State) (ip : Slot) : Prop where
  valid : (s.icache ip).valid = true
  type : (s.ino L (s.icache ip).inum).type ≠ tDir

/-- Between two calls. -/
structure SysOk {L : Layout} (D : Dirs L) (t : Sys) : Prop where
  sound : Sound D (refsOf t) t.fs
  refs : ∀ f, (t.ftable f).ref = count (· = some f) (descriptors t)
  free : ∀ f, (t.ftable f).ref = 0 → (t.ftable f).type = .none
  files : ∀ f, (t.ftable f).type = .inode → (t.ftable f).writable = true →
    NotDir L t.fs (t.ftable f).ip

section Basic
variable {L : Layout} {D : Dirs L} {H : Slot → Int} {s s' : State} {t t' : Sys} {ip : Slot} {f : FileNo}
  {p : Fin nproc} {fd : Fin nofile} {file : File} {proc : Proc}

theorem NotDir.keep (h : NotDir L s ip) (hk : Keep L H s s') (hip : 0 < H ip) : NotDir L s' ip where
  valid := hk.valid ip hip h.valid
  type := by
    rw [hk.inum ip hip, hk.type ip hip h.valid]
    exact h.type

theorem refsOf_nonneg (t : Sys) (ip : Slot) : 0 ≤ refsOf t ip := add_nonneg count_nonneg count_nonneg

theorem refsOf_pos_of_file (h : (t.ftable f).type = .inode) : 0 < refsOf t (t.ftable f).ip := by
  have hpos : 0 < count (File.Refers (t.ftable f).ip) t.ftable := count_pos (a := f) ⟨h, rfl⟩
  exact Int.add_pos_of_pos_of_nonneg hpos count_nonneg

theorem refsOf_pos_of_cwd (h : (t.procs p).cwd = some ip) : 0 < refsOf t ip := by
  have hpos : 0 < count (Proc.In ip) t.procs := count_pos (a := p) h
  exact Int.add_pos_of_nonneg_of_pos count_nonneg hpos

theorem refsOf_setFile (f : FileNo) (file : File) (ip : Slot) :
    refsOf { t with ftable := Function.update t.ftable f file } ip +
        (if (t.ftable f).Refers ip then 1 else 0) =
      refsOf t ip + if file.Refers ip then 1 else 0 := by
  have := count_update (P := File.Refers ip) (g := t.ftable) f file
  simp only [refsOf]
  omega

theorem refsOf_setProc (p : Fin nproc) (proc : Proc) (ip : Slot) :
    refsOf { t with procs := Function.update t.procs p proc } ip +
        (if (t.procs p).In ip then 1 else 0) =
      refsOf t ip + if proc.In ip then 1 else 0 := by
  have := count_update (P := Proc.In ip) (g := t.procs) p proc
  simp only [refsOf]
  omega

/-- The file refers to what it did. -/
theorem refsOf_setFile_same (h : ∀ ip, file.Refers ip ↔ (t.ftable f).Refers ip) :
    refsOf { t with ftable := Function.update t.ftable f file } = refsOf t := by
  funext ip
  have hsum := refsOf_setFile (t := t) f file ip
  by_cases hr : (t.ftable f).Refers ip
  · rw [if_pos hr, if_pos ((h ip).mpr hr)] at hsum
    exact add_right_cancel hsum
  · rw [if_neg hr, if_neg fun hf => hr ((h ip).mp hf)] at hsum
    exact add_right_cancel hsum

theorem refsOf_setProc_same (h : proc.cwd = (t.procs p).cwd) :
    refsOf { t with procs := Function.update t.procs p proc } = refsOf t := by
  funext ip
  have hsum := refsOf_setProc (t := t) p proc ip
  simp only [Proc.In, h] at hsum
  exact add_right_cancel hsum

theorem plus_apply (H : Slot → Int) (ip jp : Slot) :
    plus H ip jp = H jp + if jp = ip then 1 else 0 := by
  by_cases h : jp = ip
  · rw [h, plus_self, if_pos rfl]
  · rw [plus_of_ne h, if_neg h, add_zero]

/-- The file refers to `ip`, and did not refer to anything. -/
theorem refsOf_setFile_plus (h : (t.ftable f).type = .none) (h' : file.Refers ip) :
    refsOf { t with ftable := Function.update t.ftable f file } = plus (refsOf t) ip := by
  funext jp
  have hsum := refsOf_setFile (t := t) f file jp
  simp only [File.Refers, h, h'.1, h'.2, reduceCtorEq, false_and, true_and, if_false] at hsum
  rw [plus_apply, if_congr eq_comm rfl rfl, ← hsum, add_zero]

/-- The file referred to `ip`, and does not refer to anything. -/
theorem plus_refsOf_setFile (h : (t.ftable f).Refers ip) (h' : file.type = .none) :
    plus (refsOf { t with ftable := Function.update t.ftable f file }) ip = refsOf t := by
  funext jp
  have hsum := refsOf_setFile (t := t) f file jp
  simp only [File.Refers, h.1, h.2, h', reduceCtorEq, false_and, true_and, if_false] at hsum
  rw [plus_apply, if_congr eq_comm rfl rfl, hsum, add_zero]

/-- The process leaves `ip`. -/
theorem plus_refsOf_leave (h : (t.procs p).cwd = some ip) (h' : proc.cwd = none) :
    plus (refsOf { t with procs := Function.update t.procs p proc }) ip = refsOf t := by
  funext jp
  have hsum := refsOf_setProc (t := t) p proc jp
  simp only [Proc.In, h, h', Option.some.injEq, reduceCtorEq, if_false] at hsum
  rw [plus_apply, if_congr eq_comm rfl rfl, hsum, add_zero]

/-- The process goes from `ip` to `jp`. -/
theorem plus_refsOf_move {jp : Slot} (h : (t.procs p).cwd = some ip) (h' : proc.cwd = some jp) :
    plus (refsOf { t with procs := Function.update t.procs p proc }) ip = plus (refsOf t) jp := by
  funext kp
  have hsum := refsOf_setProc (t := t) p proc kp
  simp only [Proc.In, h, h', Option.some.injEq] at hsum
  rw [plus_apply, plus_apply, if_congr eq_comm rfl rfl, hsum, if_congr eq_comm rfl rfl]

theorem descriptors_setFd (v : Option FileNo) :
    descriptors { t with
        procs := Function.update t.procs p
          { t.procs p with ofile := Function.update (t.procs p).ofile fd v } } =
      Function.update (descriptors t) (p, fd) v := by
  funext x
  obtain ⟨q, fd'⟩ := x
  simp only [descriptors]
  by_cases hq : q = p
  · subst hq
    by_cases hfd : fd' = fd
    · subst hfd
      simp only [Function.update_self]
    · have hne : (q, fd') ≠ (q, fd) := by simp [hfd]
      simp only [Function.update_self, Function.update_of_ne hfd, Function.update_of_ne hne]
      rfl
  · rw [Function.update_of_ne hq, Function.update_of_ne (by simp [hq])]
    rfl

/-- Only the file system changes. -/
theorem SysOk.of_fs (h : SysOk D t) (hs : Sound D (refsOf t) s) (hk : Keep L (refsOf t) t.fs s) :
    SysOk D { t with fs := s } where
  sound := hs
  refs := h.refs
  free := h.free
  files f hf hw := (h.files f hf hw).keep hk (refsOf_pos_of_file hf)

end Basic

/-! ### Files -/

section Files
variable {F : Prop} {E : Stop → Prop} {L : Layout} {D : Dirs L} {H : Slot → Int} {s : State} {t t' : Sys}
  {ip : Slot} {f : FileNo} {p : Fin nproc} {fd : Fin nofile}

theorem Refs.log {l : List Nat} {ls : List (List Nat)} (h : Refs L H s) :
    Refs L H { s with logged := l, ended := ls } := ⟨h.dead, h.held⟩

/-- A file with a descriptor less. -/
def File.closed (file : File) : File :=
  if file.ref - 1 > 0 then { file with ref := file.ref - 1 } else { file with ref := 0, type := .none }

theorem File.closed_ref {file : File} (h : 1 ≤ file.ref) : file.closed.ref = file.ref - 1 := by
  unfold File.closed
  split
  · rfl
  · simp only
    omega

theorem File.closed_type {file : File} (h : file.closed.ref = 0) : file.closed.type = .none := by
  unfold File.closed at h ⊢
  split
  · rename_i hmore
    rw [if_pos hmore] at h
    simp only at h
    omega
  · rfl

theorem File.closed_of_inode {file : File} (h : file.closed.type = .inode) :
    file.closed = { file with ref := file.ref - 1 } := by
  unfold File.closed at h ⊢
  split
  · rfl
  · rename_i hlast
    rw [if_neg hlast] at h
    cases h

theorem filealloc_wp : Wp filealloc t E fun r t' => match r with
    | none => t' = t
    | some f => (t.ftable f).ref = 0 ∧
        t' = { t with ftable := Function.update t.ftable f { t.ftable f with ref := 1 } } := by
  simp only [filealloc, wp_bind, wp_gets]
  split
  · exact wp_pure.mpr rfl
  · rename_i f hf
    simp only [setFile, wp_bind, wp_modify, wp_pure]
    exact ⟨by simpa using List.find?_some hf, trivial⟩

theorem fdalloc_wp : Wp (fdalloc p f) t E fun r t' => match r with
    | none => t' = t
    | some fd => (t.procs p).ofile fd = none ∧ t' = { t with
        procs := Function.update t.procs p
          { t.procs p with ofile := Function.update (t.procs p).ofile fd (some f) } } := by
  simp only [fdalloc, wp_bind, wp_gets]
  split
  · exact wp_pure.mpr rfl
  · rename_i fd hfd
    simp only [setProc, wp_bind, wp_modify, wp_pure]
    exact ⟨by simpa using List.find?_some hfd, trivial⟩

theorem fileclose_sound (h : Sound D (refsOf t) t.fs) (hR : F → Refs L (refsOf t) t.fs) :
    Wp (fileclose f) t (Fine F) fun _ t' => 1 ≤ (t.ftable f).ref ∧
      (∃ s, t' = ⟨s, Function.update t.ftable f (t.ftable f).closed, t.procs⟩) ∧
      Sound D (refsOf t') t'.fs ∧ Keep L (refsOf t') t.fs t'.fs ∧
      (F → Refs L (refsOf t') t'.fs ∧ Drops (node L t.fs) (node L t'.fs)) := by
  simp only [fileclose, wp_bind, wp_gets]
  split
  · exact wp_stop.mpr (.of_ne (by decide) (by decide))
  rename_i href
  have href : 1 ≤ (t.ftable f).ref := by omega
  -- while the file refers to what it did
  have hsame : (∀ ip, (t.ftable f).closed.Refers ip ↔ (t.ftable f).Refers ip) →
      1 ≤ (t.ftable f).ref ∧
      (∃ s, ({ t with ftable := Function.update t.ftable f (t.ftable f).closed } : Sys) =
        ⟨s, Function.update t.ftable f (t.ftable f).closed, t.procs⟩) ∧
      Sound D (refsOf { t with ftable := Function.update t.ftable f (t.ftable f).closed }) t.fs ∧
      Keep L (refsOf { t with ftable := Function.update t.ftable f (t.ftable f).closed }) t.fs t.fs ∧
      (F → Refs L (refsOf { t with ftable := Function.update t.ftable f (t.ftable f).closed }) t.fs ∧
        Drops (node L t.fs) (node L t.fs)) := by
    intro hiff
    rw [refsOf_setFile_same hiff]
    exact ⟨href, ⟨t.fs, rfl⟩, h, .refl, fun f => ⟨hR f, .refl _⟩⟩
  split
  · rename_i hmore
    have hclosed : (t.ftable f).closed = { t.ftable f with ref := (t.ftable f).ref - 1 } :=
      if_pos hmore
    simp only [setFile, wp_modify, ← hclosed]
    exact hsame fun ip => by rw [hclosed]; rfl
  · rename_i hlast
    have hclosed : (t.ftable f).closed = { t.ftable f with ref := 0, type := .none } := if_neg hlast
    simp only [setFile, wp_bind, wp_modify, ← hclosed]
    split
    · rename_i htype
      refine wp_pure.mpr (hsame fun ip => ?_)
      simp [hclosed, File.Refers, htype]
    · rename_i htype
      simp only [wp_bind, fs, wp_zoom, beginOp, endOp, wp_modify]
      have hfree : (t.ftable f).closed.type = .none := by rw [hclosed]
      have hplus := plus_refsOf_setFile (t := t) (f := f) ⟨htype, rfl⟩ hfree
      rw [← hplus] at h hR
      refine (iput_refs (Sound.log h) (refsOf_nonneg _ _) fun f => Refs.log (hR f)).post ?_
      rintro - s ⟨hs, hk, hn⟩
      exact ⟨href, ⟨_, rfl⟩, Sound.log hs, (Keep.log.trans hk).trans Keep.log,
        fun f => ⟨Refs.log (hn f).1, (hn f).2⟩⟩

/-- A descriptor is given up, and what it stands for closed. -/
theorem SysOk.of_close (h : SysOk D t) (hfd : (t.procs p).ofile fd = some f)
    (href : 1 ≤ (t.ftable f).ref)
    (ht : t' = ⟨s, Function.update t.ftable f (t.ftable f).closed, Function.update t.procs p
      { t.procs p with ofile := Function.update (t.procs p).ofile fd none }⟩)
    (hs : Sound D (refsOf t') t'.fs) (hk : Keep L (refsOf t') t.fs t'.fs) : SysOk D t' := by
  subst ht
  refine ⟨hs, fun g => ?_, fun g hg => ?_, fun g hg hw => ?_⟩
  · have hcount := count_update (P := (· = some g)) (g := descriptors t) (p, fd) none
    have hold : descriptors t (p, fd) = some f := hfd
    have hnew : descriptors ⟨s, Function.update t.ftable f (t.ftable f).closed,
        Function.update t.procs p
          { t.procs p with ofile := Function.update (t.procs p).ofile fd none }⟩ =
        Function.update (descriptors t) (p, fd) none := descriptors_setFd none
    rw [hold, if_neg (by simp : ¬ none = some g)] at hcount
    rw [hnew]
    have hrefs := h.refs g
    by_cases hgf : g = f
    · subst hgf
      rw [if_pos rfl] at hcount
      simp only [Function.update_self, File.closed_ref href]
      omega
    · rw [if_neg (by simpa using Ne.symm hgf)] at hcount
      simp only [Function.update_of_ne hgf]
      omega
  · by_cases hgf : g = f
    · subst hgf
      simp only [Function.update_self] at hg ⊢
      exact File.closed_type hg
    · simp only [Function.update_of_ne hgf] at hg ⊢
      exact h.free g hg
  · have hpos := refsOf_pos_of_file hg
    refine NotDir.keep ?_ hk hpos
    by_cases hgf : g = f
    · subst hgf
      simp only [Function.update_self] at hg hw ⊢
      have hc := File.closed_of_inode hg
      rw [hc] at hg hw ⊢
      exact h.files g hg hw
    · simp only [Function.update_of_ne hgf] at hg hw ⊢
      exact h.files g hg hw

end Files

/-! ### The calls -/

/-- What a call leaves: the counts are exact, and from tidy nodes it does one of the things a call
does. -/
structure Leaves (F : Prop) {L : Layout} (D : Dirs L) (t t' : Sys) : Prop where
  ok : SysOk D t'
  nodes : F → Refs L (refsOf t') t'.fs ∧ Effect L t.fs t'.fs

/-- What a call that returns `-1` leaves: the processes are as they were, and so are the nodes, unless
something was left behind. -/
structure Failed (L : Layout) (t t' : Sys) (left : Prop) : Prop where
  procs : t'.procs = t.procs
  nodes : node L t'.fs = node L t.fs ↔ ¬ left

/-- `open` makes the file. -/
def Makes (f : Nat → Option Node) (cwd : Nat) (path : List UInt8) (omode : UInt32) : Prop :=
  omode &&& oCreate ≠ 0 ∧ NewName f (start cwd path) path

section Calls
variable {F : Prop} {L : Layout} {D : Dirs L} {H : Slot → Int} {s : State} {t t' : Sys} {ip cwd : Slot}
  {f : FileNo} {p : Fin nproc} {fd : Fin nofile} {path old new : List UInt8} {type : UInt16}

theorem Tidy.log {l : List Nat} {ls : List (List Nat)} (h : Tidy L H s) :
    Tidy L H { s with logged := l, ended := ls } :=
  ⟨⟨⟨h.dead, h.held⟩, h.closed, h.root⟩, ⟨h.room.inum, h.room.nlink⟩, h.above⟩

theorem nul_notMem_cstr (path : List UInt8) : (0 : UInt8) ∉ cstr path := by
  intro h
  simpa using List.mem_takeWhile_imp h

/-- Nothing but the file system changes, and it by an operation. -/
theorem Leaves.of_fs (h : SysOk D t) (hs : Sound D (refsOf t) s)
    (hk : Keep L (refsOf t) { t.fs with logged := [] } s)
    (hn : F → Refs L (refsOf t) s ∧ Effect L t.fs s) :
    Leaves F D t { t with fs := { s with ended := s.logged :: s.ended, logged := [] } } where
  ok := h.of_fs (Sound.log hs) ((Keep.log.trans hk).trans Keep.log)
  nodes f := ⟨Refs.log (hn f).1, by
    obtain h | h | h | h | ⟨type, h⟩ := (hn f).2
    · exact .dropped h
    · exact .written h
    · exact .linked h
    · exact .unlinked h
    · exact .created type h⟩

theorem Failed.of_eq (hp : t'.procs = t.procs) (hn : node L t'.fs = node L t.fs) :
    Failed L t t' False := ⟨hp, fun _ => not_false, fun _ => hn⟩

theorem sys_link_sound (h : SysOk D t) (hcwd : (t.procs p).cwd = some cwd)
    (hold : (0 : UInt8) ∉ old) (hnew : (0 : UInt8) ∉ new) (hT : F → Tidy L (refsOf t) t.fs) :
    Wp (sys_link cwd old new) t (Fine F) fun r t' => Leaves F D t t' ∧
      (F → r = -1 → Failed L t t' False) := by
  simp only [sys_link, wp_bind, fs, wp_zoom, beginOp, endOp, wp_modify, wp_pure]
  refine (link_sound (Sound.log h.sound) (refsOf_pos_of_cwd hcwd) hold hnew
    fun f => Tidy.log (hT f)).post ?_
  rintro r s ⟨hs, hk, hn⟩
  refine ⟨.of_fs h hs hk fun f => ⟨(hn f).1, ?_⟩, fun f hr => ?_⟩
  · obtain hn | ⟨-, hn⟩ := (hn f).2
    · exact .of_eq hn
    · exact .linked hn
  · obtain hn | ⟨h0, -⟩ := (hn f).2
    · exact .of_eq rfl hn
    · rw [hr] at h0
      cases h0

theorem sys_unlink_sound (h : SysOk D t) (hcwd : (t.procs p).cwd = some cwd)
    (hpath : (0 : UInt8) ∉ path) (hT : F → Tidy L (refsOf t) t.fs) :
    Wp (sys_unlink cwd path) t (Fine F) fun r t' => Leaves F D t t' ∧
      Unlinks (node L t.fs) (node L t'.fs) ∧ (F → r = -1 → Failed L t t' False) := by
  simp only [sys_unlink, wp_bind, fs, wp_zoom, beginOp, endOp, wp_modify, wp_pure]
  refine (unlink_sound (Sound.log h.sound) (refsOf_pos_of_cwd hcwd) hpath
    fun f => Tidy.log (hT f)).post ?_
  rintro r s ⟨hs, hk, hunlinks, hn⟩
  refine ⟨.of_fs h hs hk fun f => ⟨(hn f).1, ?_⟩, hunlinks, fun f hr => ?_⟩
  · obtain hn | ⟨-, hn⟩ := (hn f).2
    · exact .of_eq hn
    · exact .unlinked hn
  · obtain hn | ⟨h0, -⟩ := (hn f).2
    · exact .of_eq rfl hn
    · rw [hr] at h0
      cases h0

/-- `mkdir` and `mknod`. -/
theorem sys_create_sound {major minor : UInt16} (h : SysOk D t) (hcwd : (t.procs p).cwd = some cwd)
    (hpath : (0 : UInt8) ∉ path) (ht : type ≠ 0) (hT : F → Tidy L (refsOf t) t.fs) :
    Wp (do
      fs beginOp
      let r ← fs (create cwd path type major minor)
      match r with
      | none => do
          fs endOp
          pure (-1)
      | some ip => do
          fs (iunlockput ip)
          fs endOp
          pure (0 : Int)) t (Fine F) fun r t' => Leaves F D t t' ∧
      (F → r = -1 → Failed L t t' False) := by
  simp only [wp_bind, fs, wp_zoom, beginOp, wp_modify]
  refine (create_sound (Sound.log h.sound) (refsOf_pos_of_cwd hcwd) hpath ht
    fun f => Tidy.log (hT f)).post ?_
  rintro r s ⟨hk, hr⟩
  cases r with
  | none =>
      simp only [wp_bind, wp_zoom, endOp, wp_modify, wp_pure]
      exact ⟨.of_fs h hr.1 hk fun f => ⟨(hr.2 f).1, .of_eq (hr.2 f).2.1⟩,
        fun f _ => .of_eq rfl (hr.2 f).2.1⟩
  | some ip =>
      obtain ⟨hs, ⟨i, nd, hat, -⟩, hn⟩ := hr
      simp only [wp_bind, wp_zoom, endOp, wp_modify, wp_pure]
      refine (iunlockput_refs hs (refsOf_nonneg t ip) hat fun f => (hn f).1).post ?_
      rintro - s' ⟨hs', hk', hn'⟩
      refine ⟨.of_fs h hs' (hk.trans hk') fun f => ⟨(hn' f).1, ?_⟩, fun _ h0 => by cases h0⟩
      obtain ⟨hn, -⟩ | ⟨hn, -⟩ := (hn f).2
      · exact .of_eq ((hn' f).2.trans hn)
      · refine .created type ?_
        unfold Created at hn ⊢
        rw [(hn' f).2]
        exact hn

/-! ### `open` -/

theorem openInode_sound {omode : UInt32} (h : Sound D H s) (hcwd : 0 < H cwd)
    (hpath : (0 : UInt8) ∉ path) (hT : F → Tidy L H s) :
    Wp (openInode cwd path omode) s (Fine F) fun r s' => Keep L H s s' ∧ match r with
      | none => Sound D H s' ∧ (F → Refs L H s' ∧ node L s' = node L s ∧
          ¬ Makes (node L s) (s.icache cwd).inum path omode)
      | some ip => Sound D (plus H ip) s' ∧
          (∃ i nd, At L s' ip i nd ∧ (nd.type = tDir → omode = 0)) ∧
          (F → Refs L H s' ∧
            (node L s' = node L s ∧ ¬ Makes (node L s) (s.icache cwd).inum path omode ∨
              Created L tFile s s' ∧ Makes (node L s) (s.icache cwd).inum path omode)) := by
  unfold openInode
  split
  · rename_i hcreate
    refine (create_sound h hcwd hpath (by decide) hT).post ?_
    rintro r s' ⟨hk, hr⟩
    cases r with
    | none =>
        exact ⟨hk, hr.1, fun f => ⟨(hr.2 f).1, (hr.2 f).2.1, fun hm => (hr.2 f).2.2 hm.2⟩⟩
    | some ip =>
        obtain ⟨hs', ⟨i, nd, hat, ht⟩, hn⟩ := hr
        refine ⟨hk, hs', ⟨i, nd, hat, fun hd => ?_⟩, fun f => ⟨(hn f).1, ?_⟩⟩
        · rw [ht] at hd
          exact absurd hd (by decide)
        · exact (hn f).2.imp (fun h => ⟨h.1, fun hm => h.2 hm.2⟩) fun h => ⟨h.1, hcreate, h.2⟩
  · rename_i hcreate
    have hplain : ¬ Makes (node L s) (s.icache cwd).inum path omode := fun hm => hcreate hm.1
    have hF : F → Firm L H s := fun f => (hT f).toFirm
    refine (namei_sound h hcwd hF hpath).bind fun r s₁ hr => ?_
    cases r with
    | none =>
        exact wp_pure.mpr ⟨hr.2.keep, hr.1,
          fun f => ⟨(hr.2.firm hF f).toRefs, hr.2.nodes f, hplain⟩⟩
    | some ip =>
        obtain ⟨hs₁, hq₁, hip⟩ := hr
        refine (ilock_sound hs₁ (plus_pos (h.nonneg ip))).seq (fun _ => fine_of_ilock hip) ?_
        rintro - s₂ ⟨hs₂, hk₂, hn₂, nd, hat⟩
        have hq₂ : Quiet F L H s s₂ := hq₁.trans (.of_eq hk₂.of_plus hn₂)
        simp only [inode, wp_bind, wp_gets, hat.type]
        split
        · refine (iunlockput_quiet hs₂ (h.nonneg ip) hat (hq₂.firm hF)).bind ?_
          rintro - s₃ ⟨hs₃, hq₃⟩
          have hq := hq₂.trans hq₃
          exact wp_pure.mpr ⟨hq.keep, hs₃, fun f => ⟨(hq.firm hF f).toRefs, hq.nodes f, hplain⟩⟩
        · rename_i hdir
          refine wp_pure.mpr ⟨hq₂.keep, hs₂, ⟨_, nd, hat, fun hd => ?_⟩,
            fun f => ⟨(hq₂.firm hF f).toRefs, .inl ⟨hq₂.nodes f, hplain⟩⟩⟩
          by_contra hne
          exact hdir ⟨hd, hne⟩

/-- A descriptor for a file that refers to `ip`. -/
theorem SysOk.of_open (file : File) (h : SysOk D t) (href : (t.ftable f).ref = 0)
    (hfd : (t.procs p).ofile fd = none) (hfile : file.ref = 1 ∧ file.Refers ip)
    (hs : Sound D (plus (refsOf t) ip) s) (hk : Keep L (refsOf t) t.fs s)
    (hdir : file.writable = true → NotDir L s ip)
    (ht : t' = ⟨s, Function.update t.ftable f file, Function.update t.procs p
      { t.procs p with ofile := Function.update (t.procs p).ofile fd (some f) }⟩) :
    SysOk D t' ∧ refsOf t' = plus (refsOf t) ip := by
  subst ht
  have hnone := h.free f href
  have hplus : refsOf ⟨s, Function.update t.ftable f file, Function.update t.procs p
      { t.procs p with ofile := Function.update (t.procs p).ofile fd (some f) }⟩ =
      plus (refsOf t) ip := by
    rw [← refsOf_setFile_plus hnone hfile.2]
    exact refsOf_setProc_same (t := { t with ftable := Function.update t.ftable f file }) rfl
  refine ⟨⟨by rw [hplus]; exact hs, fun g => ?_, fun g hg => ?_, fun g hg hw => ?_⟩, hplus⟩
  · have hcount := count_update (P := (· = some g)) (g := descriptors t) (p, fd) (some f)
    have hold : descriptors t (p, fd) = none := hfd
    have hnew : descriptors ⟨s, Function.update t.ftable f file, Function.update t.procs p
        { t.procs p with ofile := Function.update (t.procs p).ofile fd (some f) }⟩ =
        Function.update (descriptors t) (p, fd) (some f) := descriptors_setFd (some f)
    rw [hold, if_neg (by simp : ¬ none = some g)] at hcount
    rw [hnew]
    have hrefs := h.refs g
    by_cases hgf : g = f
    · subst hgf
      rw [if_pos rfl] at hcount
      simp only [Function.update_self, hfile.1]
      omega
    · rw [if_neg (by simpa using Ne.symm hgf)] at hcount
      simp only [Function.update_of_ne hgf]
      omega
  · by_cases hgf : g = f
    · subst hgf
      simp only [Function.update_self, hfile.1] at hg
      exact absurd hg one_ne_zero
    · simp only [Function.update_of_ne hgf] at hg ⊢
      exact h.free g hg
  · by_cases hgf : g = f
    · subst hgf
      simp only [Function.update_self] at hw ⊢
      rw [hfile.2.2]
      exact hdir hw
    · simp only [Function.update_of_ne hgf] at hg hw ⊢
      exact (h.files g hg hw).keep hk (refsOf_pos_of_file hg)

theorem sys_open_sound {omode : UInt32} (h : SysOk D t) (hcwd : (t.procs p).cwd = some cwd)
    (hpath : (0 : UInt8) ∉ path) (hT : F → Tidy L (refsOf t) t.fs) :
    Wp (sys_open p cwd path omode) t (Fine F) fun r t' => Leaves F D t t' ∧ (F → r = -1 →
      Failed L t t' (Makes (node L t.fs) (t.fs.icache cwd).inum path omode)) := by
  simp only [sys_open, wp_bind, fs, wp_zoom, beginOp, wp_modify]
  refine (openInode_sound (Sound.log h.sound) (refsOf_pos_of_cwd hcwd) hpath
    fun f => Tidy.log (hT f)).post ?_
  rintro r s ⟨hk, hr⟩
  cases r with
  | none =>
      simp only [wp_bind, wp_zoom, endOp, wp_modify, wp_pure]
      exact ⟨.of_fs h hr.1 hk fun f => ⟨(hr.2 f).1, .of_eq (hr.2 f).2.1⟩,
        fun f _ => ⟨rfl, fun _ => (hr.2 f).2.2, fun _ => (hr.2 f).2.1⟩⟩
  | some ip =>
      obtain ⟨hs, ⟨i, nd, hat, hdir⟩, hn⟩ := hr
      have heffect : ∀ {s'}, node L s' = node L s → F → Effect L t.fs s' := by
        intro s' hn' f
        obtain ⟨hn, -⟩ | ⟨hn, -⟩ := (hn f).2
        · exact .of_eq (hn'.trans hn)
        · refine .created tFile ?_
          unfold Created at hn ⊢
          rw [hn']
          exact hn
      -- without a file or a descriptor the inode is let go, and stays if it is new
      have hfail : Wp (do fs (iunlockput ip); fs endOp; pure (-1 : Int)) { t with fs := s } (Fine F)
          fun r t' => Leaves F D t t' ∧ (F → r = -1 →
            Failed L t t' (Makes (node L t.fs) (t.fs.icache cwd).inum path omode)) := by
        simp only [wp_bind, fs, wp_zoom, endOp, wp_modify, wp_pure]
        refine (iunlockput_refs hs (refsOf_nonneg t ip) hat fun f => (hn f).1).post ?_
        rintro - s' ⟨hs', hk', hn'⟩
        refine ⟨.of_fs h hs' (hk.trans hk') fun f => ⟨(hn' f).1, heffect (hn' f).2 f⟩,
          fun f _ => ⟨rfl, ?_⟩⟩
        show node L s' = node L t.fs ↔ _
        rw [(hn' f).2]
        obtain ⟨hn, hmakes⟩ | ⟨hn, hmakes⟩ := (hn f).2
        · exact ⟨fun _ => hmakes, fun _ => hn⟩
        · exact ⟨fun heq => absurd heq hn.node_ne, fun hnot => absurd hmakes hnot⟩
      simp only [wp_bind]
      refine filealloc_wp.post fun r t₁ hr => ?_
      cases r with
      | none =>
          rw [hr]
          exact hfail
      | some f =>
          obtain ⟨href, rfl⟩ := hr
          simp only [wp_bind]
          refine fdalloc_wp.post fun r t₂ hr => ?_
          cases r with
          | none =>
              -- the file is closed again
              have hnone := h.free f href
              have hclose : Wp (fileclose f) ⟨s, Function.update t.ftable f { t.ftable f with ref := 1 },
                  t.procs⟩ (Fine F) fun _ t' => t' = { t with fs := s } := by
                simp only [fileclose, setFile, wp_bind, wp_gets, Function.update_self, hnone]
                rw [if_neg (by decide), if_neg (by decide)]
                simp only [wp_bind, wp_modify, Function.update_self, wp_pure, Function.update_idem]
                rw [← hnone, ← href, Function.update_eq_self]
              rw [hr]
              refine hclose.bind ?_
              rintro - t' rfl
              exact hfail
          | some fd =>
              obtain ⟨hfd, rfl⟩ := hr
              simp only [wp_bind, wp_zoom, endOp, setFile, wp_modify, wp_pure, Function.update_self,
                Function.update_idem]
              have hip := plus_pos (refsOf_nonneg t ip)
              refine (iunlock_sound hs hip).mono (fun _ => fine_of_iunlock) ?_
              rintro - s' ⟨hs', hk', hn'⟩
              have hat' := hat.keep_node hk' hip hs' hip (by rw [hn']; exact hat.node)
              have hnd : decide (omode &&& oWronly ≠ 0) || decide (omode &&& oRdwr ≠ 0) →
                  NotDir L s' ip := by
                intro hw
                refine ⟨hat'.valid, fun hd => ?_⟩
                rw [hat'.inum, ← hat'.copy, hat'.type] at hd
                rw [hdir hd] at hw
                simp at hw
              have hlog : Sound D (plus (refsOf t) ip) { s' with
                  ended := s'.logged :: s'.ended, logged := [] } := Sound.log hs'
              obtain ⟨hok, hplus⟩ := SysOk.of_open ⟨.inode, 1, decide (omode &&& oWronly = 0),
                decide (omode &&& oWronly ≠ 0) || decide (omode &&& oRdwr ≠ 0), ip, 0⟩ h href hfd
                ⟨rfl, rfl, rfl⟩ hlog ((Keep.log.trans (hk.trans hk'.of_plus)).trans Keep.log)
                (fun hw => ⟨(hnd hw).valid, (hnd hw).type⟩) rfl
              refine ⟨⟨hok, fun f => ⟨?_, heffect hn' f⟩⟩, fun _ h0 => by omega⟩
              rw [hplus]
              refine Refs.log (((hn f).1.keep hk'.of_plus hn').plus ?_)
              rw [hat'.inum, hat'.node]
              exact Option.some_ne_none _

/-! ### `chdir`, `close` and `exit` -/

/-- The process is somewhere else. -/
theorem SysOk.of_cwd {cwd' : Option Slot} (h : SysOk D t)
    (ht : t' = ⟨s, t.ftable, Function.update t.procs p { t.procs p with cwd := cwd' }⟩)
    (hs : Sound D (refsOf t') t'.fs)
    (hfiles : ∀ jp, 0 < refsOf t jp → 0 < refsOf t' jp → NotDir L t.fs jp → NotDir L t'.fs jp) :
    SysOk D t' := by
  subst ht
  refine ⟨hs, fun f => ?_, h.free, fun f hf hw => ?_⟩
  · rw [h.refs f]
    congr 1
    funext x
    simp only [descriptors]
    by_cases hx : x.1 = p
    · rw [hx, Function.update_self]
    · rw [Function.update_of_ne hx]
  · exact hfiles _ (refsOf_pos_of_file (t := t) hf) (refsOf_pos_of_file hf) (h.files f hf hw)

theorem sys_chdir_sound (h : SysOk D t) (hcwd : (t.procs p).cwd = some cwd)
    (hpath : (0 : UInt8) ∉ path) (hT : F → Tidy L (refsOf t) t.fs) :
    Wp (sys_chdir p cwd path) t (Fine F) fun r t' => Leaves F D t t' ∧
      (F → r = -1 → Failed L t t' False) := by
  simp only [sys_chdir, wp_bind, fs, wp_zoom, beginOp, wp_modify]
  have hT' : F → Tidy L (refsOf t) { t.fs with logged := [] } := fun f => Tidy.log (hT f)
  refine (namei_sound (Sound.log h.sound) (refsOf_pos_of_cwd hcwd) (fun f => (hT' f).toFirm)
    hpath).post fun r s₁ hr => ?_
  cases r with
  | none =>
      simp only [wp_bind, wp_zoom, endOp, wp_modify, wp_pure]
      exact ⟨.of_fs h hr.1 hr.2.keep fun f =>
        ⟨(hr.2.firm (fun f => (hT' f).toFirm) f).toRefs, .of_eq (hr.2.nodes f)⟩,
        fun f _ => .of_eq rfl (hr.2.nodes f)⟩
  | some ip =>
      obtain ⟨hs₁, hq₁, hip⟩ := hr
      have h0 := refsOf_nonneg t ip
      simp only [wp_bind, wp_zoom]
      refine (ilock_sound hs₁ (plus_pos h0)).mono (fun _ => fine_of_ilock hip) ?_
      rintro - s₂ ⟨hs₂, hk₂, hn₂, nd, hat⟩
      have hq₂ : Quiet F L (refsOf t) { t.fs with logged := [] } s₂ :=
        hq₁.trans (.of_eq hk₂.of_plus hn₂)
      have hR₂ : F → Refs L (refsOf t) s₂ := fun f => (hq₂.firm (fun f => (hT' f).toFirm) f).toRefs
      simp only [inode, wp_gets, hat.type]
      split
      · simp only [wp_bind, wp_zoom, endOp, wp_modify, wp_pure]
        refine (iunlockput_refs hs₂ h0 hat hR₂).post ?_
        rintro - s₃ ⟨hs₃, hk₃, hn₃⟩
        exact ⟨.of_fs h hs₃ (hq₂.keep.trans hk₃) fun f =>
          ⟨(hn₃ f).1, .of_eq ((hn₃ f).2.trans (hq₂.nodes f))⟩,
          fun f _ => .of_eq rfl ((hn₃ f).2.trans (hq₂.nodes f))⟩
      · simp only [wp_bind, wp_zoom, endOp, setProc, wp_modify, wp_pure]
        refine (iunlock_sound hs₂ (plus_pos h0)).mono (fun _ => fine_of_iunlock) ?_
        rintro - s₃ ⟨hs₃, hk₃, hn₃⟩
        have hR₃ : F → Refs L (plus (refsOf t) ip) s₃ := fun f =>
          ((hR₂ f).plus (by rw [hat.inum, hat.node]; exact Option.some_ne_none _)).keep hk₃ hn₃
        -- the reference to `cwd` goes, the one to `ip` stays
        have hmove : plus (refsOf ⟨t.fs, t.ftable, Function.update t.procs p
            { t.procs p with cwd := some ip }⟩) cwd = plus (refsOf t) ip :=
          plus_refsOf_move hcwd rfl
        rw [← hmove] at hs₃ hR₃
        refine (iput_refs hs₃ (refsOf_nonneg _ _) hR₃).post ?_
        rintro - s₄ ⟨hs₄, hk₄, hn₄⟩
        have hlog : Sound D (refsOf ⟨t.fs, t.ftable, Function.update t.procs p
            { t.procs p with cwd := some ip }⟩) { s₄ with
              ended := s₄.logged :: s₄.ended, logged := [] } := Sound.log hs₄
        refine ⟨⟨h.of_cwd rfl hlog fun jp hjp hjp' hnd => ?_,
          fun f => ⟨Refs.log (hn₄ f).1, .dropped ?_⟩⟩, fun _ h0 => by cases h0⟩
        · have h₂ := hnd.keep (Keep.log.trans hq₂.keep) hjp
          have h₄ := (h₂.keep hk₃ (hjp.trans_le (le_plus ip jp))).keep hk₄ hjp'
          exact ⟨h₄.valid, h₄.type⟩
        · have := (hn₄ f).2
          rw [hn₃, hq₂.nodes f] at this
          exact this

theorem sys_close_sound (h : SysOk D t) (hT : F → Tidy L (refsOf t) t.fs) :
    Wp (sys_close p fd) t (Fine F) fun _ t' => Leaves F D t t' := by
  simp only [sys_close, wp_bind, wp_gets]
  split
  · exact wp_pure.mpr ⟨h, fun f => ⟨(hT f).toRefs, .of_eq rfl⟩⟩
  · rename_i f hfd
    simp only [setProc, wp_bind, wp_modify]
    have hrefs : refsOf ⟨t.fs, t.ftable, Function.update t.procs p
        { t.procs p with ofile := Function.update (t.procs p).ofile fd none }⟩ = refsOf t :=
      refsOf_setProc_same rfl
    have hs := h.sound
    have hR : F → Refs L (refsOf t) t.fs := fun f => (hT f).toRefs
    rw [← hrefs] at hs hR
    refine (fileclose_sound hs hR).post ?_
    rintro - t' ⟨href, ⟨s, ht'⟩, hs', hk', hn'⟩
    exact wp_pure.mpr ⟨h.of_close hfd href ht' hs' hk', fun f => ⟨(hn' f).1, .dropped (hn' f).2⟩⟩

/-- One round of `exit`'s loop. -/
theorem exitClose_sound (h : SysOk D t) (hR : F → Refs L (refsOf t) t.fs) :
    Wp (exitClose p fd) t (Fine F) fun _ t' => SysOk D t' ∧ (t'.procs p).cwd = (t.procs p).cwd ∧
      (F → Refs L (refsOf t') t'.fs ∧ Drops (node L t.fs) (node L t'.fs)) := by
  simp only [exitClose, wp_bind, wp_gets]
  split
  · exact wp_pure.mpr ⟨h, rfl, fun f => ⟨hR f, .refl _⟩⟩
  · rename_i f hfd
    rw [wp_bind]
    refine (fileclose_sound h.sound hR).post ?_
    rintro - t' ⟨href, ⟨s, rfl⟩, hs', hk', hn'⟩
    simp only [setProc, wp_modify]
    have hrefs : refsOf ⟨s, Function.update t.ftable f (t.ftable f).closed, Function.update t.procs p
        { t.procs p with ofile := Function.update (t.procs p).ofile fd none }⟩ =
        refsOf ⟨s, Function.update t.ftable f (t.ftable f).closed, t.procs⟩ :=
      refsOf_setProc_same (t := ⟨s, _, t.procs⟩) rfl
    refine ⟨h.of_close hfd href rfl (by rw [hrefs]; exact hs') (by rw [hrefs]; exact hk'),
      by rw [Function.update_self], fun f => ?_⟩
    rw [hrefs]
    exact hn' f

theorem exit_sound (h : SysOk D t) (hcwd : (t.procs p).cwd = some cwd)
    (hT : F → Tidy L (refsOf t) t.fs) :
    Wp (exit p cwd) t (Fine F) fun _ t' => Leaves F D t t' := by
  have hloop : Wp (forEach (List.finRange nofile) (exitClose p)) t (Fine F) fun _ t' => SysOk D t' ∧
      (t'.procs p).cwd = some cwd ∧
      (F → Refs L (refsOf t') t'.fs ∧ Drops (node L t.fs) (node L t'.fs)) := by
    refine wp_forEach (I := fun _ t' => SysOk D t' ∧ (t'.procs p).cwd = some cwd ∧
      (F → Refs L (refsOf t') t'.fs ∧ Drops (node L t.fs) (node L t'.fs))) ?_
      ⟨h, hcwd, fun f => ⟨(hT f).toRefs, .refl _⟩⟩
    rintro - fd - t₁ - ⟨hok, hcwd₁, hn⟩
    refine (exitClose_sound hok fun f => (hn f).1).post ?_
    rintro - t₂ ⟨hok₂, hcwd₂, hn₂⟩
    exact ⟨hok₂, hcwd₂.trans hcwd₁, fun f => ⟨(hn₂ f).1, (hn f).2.trans (hn₂ f).2⟩⟩
  refine hloop.bind ?_
  rintro - t₁ ⟨hok, hcwd₁, hn⟩
  simp only [wp_bind, fs, wp_zoom, beginOp, endOp, setProc, wp_modify, wp_pure]
  have hleave : plus (refsOf ⟨t₁.fs, t₁.ftable, Function.update t₁.procs p
      { t₁.procs p with cwd := none }⟩) cwd = refsOf t₁ := plus_refsOf_leave hcwd₁ rfl
  have hs := hok.sound
  have hR : F → Refs L (refsOf t₁) t₁.fs := fun f => (hn f).1
  rw [← hleave] at hs hR
  refine (iput_refs (Sound.log hs) (refsOf_nonneg _ _) fun f => Refs.log (hR f)).post ?_
  rintro - s ⟨hs', hk', hn'⟩
  have hlog : Sound D (refsOf ⟨t₁.fs, t₁.ftable, Function.update t₁.procs p
      { t₁.procs p with cwd := none }⟩) { s with
        ended := s.logged :: s.ended, logged := [] } := Sound.log hs'
  refine ⟨hok.of_cwd rfl hlog fun jp _ hjp hnd => ?_,
    fun f => ⟨Refs.log (hn' f).1, .dropped ((hn f).2.trans (hn' f).2)⟩⟩
  have hnd' := hnd.keep (Keep.log.trans hk') hjp
  exact ⟨hnd'.valid, hnd'.type⟩

/-! ### `write` -/

/-- A file has another offset. -/
theorem SysOk.of_off (f : FileNo) (n : UInt32) (h : SysOk D t) (hs : Sound D (refsOf t) s)
    (hk : Keep L (refsOf t) t.fs s)
    (ht : t' = ⟨s, Function.update t.ftable f { t.ftable f with off := n }, t.procs⟩) :
    SysOk D t' ∧ refsOf t' = refsOf t := by
  subst ht
  have hrefs : refsOf ⟨s, Function.update t.ftable f { t.ftable f with off := n }, t.procs⟩ =
      refsOf t := refsOf_setFile_same fun ip => Iff.rfl
  have hfile : ∀ g, (Function.update t.ftable f { t.ftable f with off := n } g).ref =
      (t.ftable g).ref ∧ (Function.update t.ftable f { t.ftable f with off := n } g).type =
      (t.ftable g).type ∧ (Function.update t.ftable f { t.ftable f with off := n } g).writable =
      (t.ftable g).writable ∧ (Function.update t.ftable f { t.ftable f with off := n } g).ip =
      (t.ftable g).ip := by
    intro g
    by_cases hgf : g = f
    · subst hgf
      simp
    · simp [hgf]
  refine ⟨⟨by rw [hrefs]; exact hs, fun g => ?_, fun g hg => ?_, fun g hg hw => ?_⟩, hrefs⟩
  · rw [(hfile g).1]
    exact h.refs g
  · rw [(hfile g).2.1]
    rw [(hfile g).1] at hg
    exact h.free g hg
  · obtain ⟨-, htype, hwritable, hip⟩ := hfile g
    rw [htype] at hg
    rw [hwritable] at hw
    rw [hip]
    exact (h.files g hg hw).keep hk (refsOf_pos_of_file hg)

theorem writeChunks_sound {src : List UInt8} (h : SysOk D t) (hf : (t.ftable f).type = .inode)
    (hw : (t.ftable f).writable = true) (hR : F → Refs L (refsOf t) t.fs) :
    Wp (writeChunks f src) t (Fine F) fun _ t' => SysOk D t' ∧
      Written (node L t.fs) (node L t'.fs) ∧ (F → Refs L (refsOf t') t'.fs) := by
  induction hlen : src.length using Nat.strong_induction_on generalizing t src with
  | _ n ih =>
      subst hlen
      rw [writeChunks]
      split
      · exact wp_pure.mpr ⟨h, fun _ => .inl rfl, hR⟩
      · rename_i hne
        simp only [wp_bind, fs, wp_zoom, beginOp, wp_modify, wp_gets]
        have hip := refsOf_pos_of_file hf
        obtain ⟨hvalid, hdir⟩ := h.files f hf hw
        obtain ⟨nd₀, hat₀⟩ := h.sound.entry hip hvalid
        have hnode : node L { t.fs with logged := [] } (t.fs.icache (t.ftable f).ip).inum ≠ none := by
          have := hat₀.node
          intro hnone
          rw [show node L { t.fs with logged := [] } = node L t.fs from rfl, this] at hnone
          cases hnone
        refine (ilock_sound (Sound.log h.sound) hip).mono (fun _ => fine_of_ilock fun _ => hnode) ?_
        rintro - s₁ ⟨hs₁, hk₁, hn₁, nd, hat⟩
        have hnd : nd = nd₀ := by
          have := hat.node
          rw [hn₁] at this
          exact Option.some.inj (this.symm.trans hat₀.node)
        have ht : nd.type ≠ tDir := by
          rw [hnd, ← hat₀.type, hat₀.copy]
          exact hdir
        have hlt : (src.take maxWrite).length < 2 ^ 32 :=
          (List.length_take_le ..).trans_lt (by decide)
        refine (writei_file hs₁ hip hat ht (UInt32.toNat_lt _) hlt).mono
          (fun e he => .of_ne he.1 he.2) ?_
        rintro r s₂ ⟨hs₂, hk₂, data, hn₂⟩
        simp only [setFile, wp_modify]
        refine (iunlock_sound hs₂ hip).mono (fun _ => fine_of_iunlock) ?_
        rintro - s₃ ⟨hs₃, hk₃, hn₃⟩
        simp only [endOp, wp_modify]
        have hk : Keep L (refsOf t) t.fs { s₃ with ended := s₃.logged :: s₃.ended, logged := [] } :=
          (Keep.log.trans ((hk₁.trans hk₂).trans hk₃)).trans Keep.log
        have hlog : Sound D (refsOf t) { s₃ with ended := s₃.logged :: s₃.ended, logged := [] } :=
          Sound.log hs₃
        obtain ⟨hok, hrefs⟩ := h.of_off f ((t.ftable f).off + .ofNat (r.getD 0)) hlog hk rfl
        have hwritten : Written (node L t.fs) (node L s₃) := by
          intro j
          rw [hn₃, hn₂, hn₁]
          by_cases hj : j = (t.fs.icache (t.ftable f).ip).inum
          · refine .inr ⟨nd, data, ?_, ht, by rw [hj]; exact Function.update_self ..⟩
            rw [hj, hnd]
            exact hat₀.node
          · rw [Function.update_of_ne hj]
            exact .inl rfl
        have hR' : F → Refs L (refsOf t) { s₃ with ended := s₃.logged :: s₃.ended, logged := [] } :=
          fun f => Written.refs hwritten (hR f) hk
        rw [← hrefs] at hR'
        split
        · exact wp_pure.mpr ⟨hok, hwritten, hR'⟩
        · split
          · exact wp_stop.mpr (.of_ne (by decide) (by decide))
          · have hdrop : (src.drop maxWrite).length < src.length := by
              rw [List.length_drop]
              have : 0 < maxWrite := by decide
              omega
            refine (ih _ hdrop hok (by simp [hf]) (by simp [hw]) hR' rfl).post ?_
            rintro - t'' ⟨hok'', hn'', hR''⟩
            exact ⟨hok'', hwritten.trans hn'', hR''⟩

theorem sys_write_sound {src : List UInt8} (h : SysOk D t) (hT : F → Tidy L (refsOf t) t.fs) :
    Wp (sys_write p fd src) t (Fine F) fun _ t' => Leaves F D t t' ∧
      Written (node L t.fs) (node L t'.fs) := by
  have hsame : Leaves F D t t ∧ Written (node L t.fs) (node L t.fs) :=
    ⟨⟨h, fun f => ⟨(hT f).toRefs, .of_eq rfl⟩⟩, fun _ => .inl rfl⟩
  simp only [sys_write, wp_bind, wp_gets]
  split
  · exact wp_pure.mpr hsame
  · rename_i f hfd
    simp only [filewrite, wp_bind, wp_gets]
    split
    · exact wp_pure.mpr (wp_pure.mpr hsame)
    · rename_i hw
      split
      · exact wp_stop.mpr (.of_ne (by decide) (by decide))
      · rename_i hf
        refine (writeChunks_sound h hf (by simpa using hw) fun f => (hT f).toRefs).post ?_
        rintro ok t' ⟨hok, hn, hR⟩
        exact wp_pure.mpr ⟨⟨hok, fun f => ⟨hR f, .written hn⟩⟩, hn⟩

/-! ### Runs -/

/-- What some calls do whatever the nodes are like. -/
def Call.Does (f f' : Nat → Option Node) : Call → Prop
  | .unlink _ => Unlinks f f'
  | .write _ _ => Written f f'
  | _ => True

/-- The calls on paths. -/
def Call.OnPath : Call → Prop
  | .write _ _ => False
  | .close _ => False
  | .exit => False
  | _ => True

/-- What a call that fails leaves behind. -/
def Call.Left (f : Nat → Option Node) (cwd : Nat) : Call → Prop
  | .open path omode => Makes f cwd (cstr path) omode
  | _ => False

/-- **Every call** keeps the references and the image, and from tidy nodes does one of the things a
call does. -/
theorem run_sound (call : Call) (h : SysOk D t) (hcwd : (t.procs p).cwd = some cwd)
    (hT : F → Tidy L (refsOf t) t.fs) :
    Wp (call.run p cwd) t (Fine F) fun r t' => Leaves F D t t' ∧
      call.Does (node L t.fs) (node L t'.fs) ∧ (F → call.OnPath → r = -1 →
        Failed L t t' (call.Left (node L t.fs) (t.fs.icache cwd).inum)) := by
  have hnul := nul_notMem_cstr
  cases call with
  | «open» path omode =>
      exact (sys_open_sound h hcwd (hnul path) hT).post fun _ _ h => ⟨h.1, trivial, fun f _ => h.2 f⟩
  | mkdir path =>
      exact (sys_create_sound h hcwd (hnul path) (by decide) hT).post
        fun _ _ h => ⟨h.1, trivial, fun f _ => h.2 f⟩
  | mknod path major minor =>
      exact (sys_create_sound h hcwd (hnul path) (by decide) hT).post
        fun _ _ h => ⟨h.1, trivial, fun f _ => h.2 f⟩
  | link old new =>
      exact (sys_link_sound h hcwd (hnul old) (hnul new) hT).post
        fun _ _ h => ⟨h.1, trivial, fun f _ => h.2 f⟩
  | unlink path =>
      exact (sys_unlink_sound h hcwd (hnul path) hT).post
        fun _ _ h => ⟨h.1, h.2.1, fun f _ => h.2.2 f⟩
  | chdir path =>
      exact (sys_chdir_sound h hcwd (hnul path) hT).post
        fun _ _ h => ⟨h.1, trivial, fun f _ => h.2 f⟩
  | write fd src => exact (sys_write_sound h hT).post fun _ _ h => ⟨h.1, h.2, fun _ => False.elim⟩
  | close fd => exact (sys_close_sound h hT).post fun _ _ h => ⟨h, trivial, fun _ => False.elim⟩
  | exit => exact (exit_sound h hcwd hT).post fun _ _ h => ⟨h, trivial, fun _ => False.elim⟩

theorem step_leaves {e : Fin nproc × Call} (h : SysOk D t) (hT : F → Tidy L (refsOf t) t.fs)
    (hstep : step t e = some t') : Leaves F D t t' ∧ e.2.Does (node L t.fs) (node L t'.fs) := by
  unfold step at hstep
  split at hstep
  · cases hstep
  · rename_i cwd hcwd
    split at hstep
    · rename_i r t'' hrun
      cases hstep
      have := (run_sound e.2 h hcwd hT).of_eq_ok hrun
      exact ⟨this.1, this.2.1⟩
    · cases hstep

theorem SysOk.run {es : List (Fin nproc × Call)} (h : SysOk D t) (hrun : runs step t es = some t') :
    SysOk D t' :=
  runs_inv_all (fun _ _ _ h hstep => (step_leaves (F := False) h False.elim hstep).1.ok) h hrun

/-- **The blocks.**  After any calls, the blocks in use are those of the file system itself and those
at the places of the inodes, each at one place; and no call finds a block free that it frees. -/
theorem blocks_owned {es : List (Fin nproc × Call)} (h : SysOk (inRange L) t)
    (hrun : runs step t es = some t') :
    (∀ b < L.size, bitAt L.toSuperblock t'.fs.disk b = true ↔
      b < L.nmeta ∨ ∃ x, own L t'.fs.disk (t'.fs.ino L) x = some b) ∧
    (∀ x y b, own L t'.fs.disk (t'.fs.ino L) x = some b →
      own L t'.fs.disk (t'.fs.ino L) y = some b → x = y) ∧
    (∀ x b, own L t'.fs.disk (t'.fs.ino L) x = some b → L.nmeta ≤ b ∧ b < L.size) ∧
    ∀ p cwd call, (t'.procs p).cwd = some cwd → Call.run p cwd call t' ≠ .error .freeingFree := by
  have hok := h.run hrun
  have hledger := hok.sound.good.image.ledger
  refine ⟨fun b hb => ?_, fun _ _ _ => hledger.inj, fun x b hx => ⟨?_, ?_⟩, fun p cwd call hcwd herr => ?_⟩
  · have := hledger.used_iff b
    exact ⟨fun hbit => this.mp ⟨hb, hbit⟩, fun hown => (this.mpr hown).2⟩
  · exact not_lt.mp (hledger.notReserved hx)
  · exact ((hledger.used_iff b).mpr (.inr ⟨x, hx⟩)).1
  · exact ((run_sound (F := False) call hok hcwd False.elim).of_eq_error herr).1 rfl

end Calls

/-! ### A system with one process -/

/-- The small image, with one process in the root directory. -/
def oneProcess : Sys where
  fs := smallState
  ftable _ := ⟨.none, 0, false, false, rootSlot, 0⟩
  procs := Function.update (fun _ => ⟨fun _ => none, none⟩) ⟨0, nproc_pos⟩
    ⟨fun _ => none, some rootSlot⟩

theorem refsOf_oneProcess (ip : Slot) : refsOf oneProcess ip = if ip = rootSlot then 1 else 0 := by
  have hfiles : count (File.Refers ip) oneProcess.ftable = 0 := count_eq_zero fun _ h => by cases h.1
  rw [refsOf, hfiles, zero_add, oneProcess, count_update_const (by exact nofun)]
  simp only [Proc.In, Option.some.injEq, eq_comm]

theorem SysOk.oneProcess {D : Dirs smallLayout} (hroot : D.Ok rootino rootNode) :
    SysOk D Syscall.oneProcess where
  sound := by
    have : refsOf Syscall.oneProcess = fun ip => if ip = rootSlot then 1 else 0 :=
      funext refsOf_oneProcess
    rw [this]
    exact small_sound hroot
  refs f := by
    refine (count_eq_zero fun x => ?_).symm
    have hnone : descriptors Syscall.oneProcess x = none := by
      simp only [descriptors, Syscall.oneProcess, Function.update_apply]
      split <;> rfl
    rw [hnone]
    exact nofun
  free _ _ := rfl
  files _ h := by cases h

/-- The process makes a directory and removes it. -/
theorem mkdirUnlink_runs :
    (runs step oneProcess [(⟨0, by decide⟩, .mkdir [97]), (⟨0, by decide⟩, .unlink [97])]).isSome = true := by
  decide +kernel

/-- The process makes a directory. -/
theorem mkdir_owned : ∃ t', runs step oneProcess [(⟨0, by decide⟩, .mkdir [97])] = some t' ∧
    (∀ x y b, own smallLayout t'.fs.disk (t'.fs.ino smallLayout) x = some b →
      own smallLayout t'.fs.disk (t'.fs.ino smallLayout) y = some b → x = y) := by
  obtain ⟨t₂, hboth⟩ := Option.isSome_iff_exists.mp mkdirUnlink_runs
  obtain ⟨t', hmkdir, -⟩ := runs_cons.mp hboth
  have hrun : runs step oneProcess [(⟨0, by decide⟩, .mkdir [97])] = some t' := runs_cons.mpr ⟨t', hmkdir, rfl⟩
  exact ⟨t', hrun, (blocks_owned (.oneProcess inRange_rootNode) hrun).2.1⟩

example : bitAt smallLayout.toSuperblock oneProcess.fs.disk 7 = true := by decide +kernel

end Xv6.Syscall
