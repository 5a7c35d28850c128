import Xv6.Fs.Locks
import Xv6.Syscall.Owned
import Xv6.Vm.Exec

/-!
# Syscall — references and locks between calls

The calls of `Xv6.Syscall.Calls` together with `dup`, `fork` and `exec`, as far as they take and drop
references to open files and inodes.  What `exec` does with memory is no part of this state: what it
finds there is given to it (`Memory`).

Between two calls an entry of the inode cache has as many references as there are open files and
current directories that are it, no two entries in use have the same inode, and no entry is locked
(`icache_refs_exact`).
-/

namespace Xv6.Syscall
open Lib Lib.Prog Fs

/-! ### `dup` and `fork` -/

def filedup (f : FileNo) : SysM Unit := do
  let file ← gets fun t => t.ftable f
  if file.ref < 1 then stop .filedup else setFile f fun file => { file with ref := file.ref + 1 }

def sys_dup (p : Fin nproc) (fd : Fin nofile) : SysM Int := do
  let proc ← gets fun t => t.procs p
  match proc.ofile fd with
  | none => pure (-1)
  | some f => do
      let r ← fdalloc p f
      match r with
      | none => pure (-1)
      | some fd => do
          filedup f
          pure fd.val

/-- One round of `fork`'s loop over the open files. -/
def forkDup (p q : Fin nproc) (fd : Fin nofile) : SysM Unit := do
  let proc ← gets fun t => t.procs p
  match proc.ofile fd with
  | none => pure ()
  | some f => do
      filedup f
      setProc q fun proc => { proc with ofile := Function.update proc.ofile fd (some f) }

/-- There is no process in this slot of the process table. -/
def Proc.Unused (proc : Proc) : Prop := proc.cwd = none ∧ ∀ fd, proc.ofile fd = none

instance (proc : Proc) : Decidable proc.Unused := inferInstanceAs (Decidable (_ ∧ _))

/-- `fork`, where `allocproc` finds slot `q`; it fails if there is no free one, or no memory. -/
def fork (p : Fin nproc) (cwd : Slot) (q : Fin nproc) : SysM Int := do
  let child ← gets fun t => t.procs q
  if child.Unused then do
    forEach (List.finRange nofile) (forkDup p q)
    let ip ← fs (idup cwd)
    setProc q fun proc => { proc with cwd := some ip }
    pure 1
  else pure (-1)

/-! ### `exec` -/

/-- What `exec` finds in memory. -/
structure Memory where
  /-- the bytes on the stack where it reads the ELF header to -/
  stack : List UInt8
  /-- `setupkvm` succeeds -/
  setupkvm : Bool
  /-- `allocuvm` succeeds, with so many program headers to come -/
  allocuvm : Nat → Bool
  /-- `walkpgdir` finds a page at this address -/
  mapped : Nat → Bool
  /-- the stack of the new image can be made -/
  stacked : Bool

/-- `loaduvm`'s loop, for `n` more pages, from `i` on. -/
def loadLoop (mem : Memory) (ip : Slot) (addr off sz : Nat) : (n i : Nat) → FsM Bool
  | 0, _ => pure true
  | n + 1, i =>
      if mem.mapped (u32 (addr + i)) = false then stop .loaduvmExist
      else do
        let r ← readi ip (u32 (off + i)) (min (sz - i) Vm.pgsize)
        if r.map List.length = some (min (sz - i) Vm.pgsize) then
          loadLoop mem ip addr off sz n (i + Vm.pgsize)
        else pure false

def loaduvm (mem : Memory) (ip : Slot) (addr off sz : Nat) : FsM Bool :=
  if addr % Vm.pgsize ≠ 0 then stop .loaduvmAddr
  else loadLoop mem ip addr off sz ((sz + Vm.pgsize - 1) / Vm.pgsize) 0

/-- `exec`'s loop over the program headers, `n` of them to come, the next at `off`. -/
def loadSegs (mem : Memory) (ip : Slot) : (n off : Nat) → FsM Bool
  | 0, _ => pure true
  | n + 1, off => do
      let r ← readi ip off Vm.Proghdr.sizeof
      match r with
      | none => pure false
      | some bs => do
          let ph := Vm.Proghdr.ofBytes bs
          if bs.length ≠ Vm.Proghdr.sizeof then pure false
          else if ph.type ≠ Vm.elfProgLoad then loadSegs mem ip n (u32 (off + Vm.Proghdr.sizeof))
          else if ph.memsz < ph.filesz then pure false
          else if mem.allocuvm n = false then pure false
          else do
            let ok ← loaduvm mem ip ph.vaddr ph.off ph.filesz
            if ok then loadSegs mem ip n (u32 (off + Vm.Proghdr.sizeof)) else pure false

/-- `exec` from the ELF header to the end of the loop; whether it got there. -/
def execLoad (mem : Memory) (ip : Slot) : FsM Bool := do
  let r ← readi ip 0 Vm.Elfhdr.sizeof
  -- `-1` is not below `sizeof(elf)`, which is unsigned
  let bs := r.getD mem.stack
  let elf := Vm.Elfhdr.ofBytes bs
  if r.any (·.length < Vm.Elfhdr.sizeof) then pure false
  else if elf.magic ≠ Vm.elfMagic then pure false
  else if mem.setupkvm = false then pure false
  else loadSegs mem ip elf.phnum elf.phoff

def exec (cwd : Slot) (path : List UInt8) (mem : Memory) : FsM Int := do
  beginOp
  let r ← namei cwd path
  match r with
  | none => do
      endOp
      pure (-1)
  | some ip => do
      ilock ip
      let ok ← execLoad mem ip
      iunlockput ip
      endOp
      pure (if ok ∧ mem.stacked then 0 else -1)

/-- A call, of all those that take or drop references. -/
inductive Act where
  | call (c : Call)
  | dup (fd : Fin nofile)
  | fork (child : Fin nproc)
  | exec (path : List UInt8) (mem : Memory)

def Act.run (p : Fin nproc) (cwd : Slot) : Act → SysM Int
  | .call c => c.run p cwd
  | .dup fd => sys_dup p fd
  | .fork child => Syscall.fork p cwd child
  | .exec path mem => fs (Syscall.exec cwd (cstr path) mem)

/-- A process makes a call that returns. -/
def act (t : Sys) (e : Fin nproc × Act) : Option Sys :=
  match (t.procs e.1).cwd with
  | none => none
  | some cwd =>
      match e.2.run e.1 cwd t with
      | .ok (_, t) => some t
      | .error _ => none

/-! ### The references -/

section Sound
variable {L : Layout} {D : Dirs L} {H : Slot → Int} {s : State} {t t' : Sys} {ip cwd : Slot}
  {f : FileNo} {p q : Fin nproc} {fd : Fin nofile} {path : List UInt8} {mem : Memory} {i : Nat}
  {nd : Node}

/-- One more descriptor for a file that has one. -/
theorem SysOk.of_dup (h : SysOk D t) (href : 1 ≤ (t.ftable f).ref)
    (hfree : (t.procs q).ofile fd = none)
    (ht : t' = ⟨t.fs, Function.update t.ftable f { t.ftable f with ref := (t.ftable f).ref + 1 },
      Function.update t.procs q
        { t.procs q with ofile := Function.update (t.procs q).ofile fd (some f) }⟩) :
    SysOk D t' := by
  subst ht
  have hrefs : refsOf ⟨t.fs, Function.update t.ftable f { t.ftable f with
      ref := (t.ftable f).ref + 1 }, Function.update t.procs q
        { t.procs q with ofile := Function.update (t.procs q).ofile fd (some f) }⟩ = refsOf t := by
    rw [← refsOf_setFile_same (t := t) (f := f)
      (show ∀ ip, File.Refers ip { t.ftable f with ref := (t.ftable f).ref + 1 } ↔ _ from
        fun ip => Iff.rfl)]
    exact refsOf_setProc_same (t := { t with ftable := Function.update t.ftable f { t.ftable f with
      ref := (t.ftable f).ref + 1 } }) rfl
  refine ⟨by rw [hrefs]; exact h.sound, fun g => ?_, fun g hg => ?_, fun g hg hw => ?_⟩
  · have hcount := count_update (P := (· = some g)) (g := descriptors t) (q, fd) (some f)
    have hold : descriptors t (q, fd) = none := hfree
    have hnew : descriptors ⟨t.fs, Function.update t.ftable f { t.ftable f with
        ref := (t.ftable f).ref + 1 }, Function.update t.procs q
          { t.procs q with ofile := Function.update (t.procs q).ofile fd (some f) }⟩ =
        Function.update (descriptors t) (q, fd) (some f) := descriptors_setFd (some f)
    rw [hold, if_neg (by simp : ¬ none = some g)] at hcount
    rw [hnew]
    have := h.refs g
    by_cases hgf : g = f
    · subst hgf
      rw [if_pos rfl] at hcount
      simp only [Function.update_self]
      omega
    · rw [if_neg (by simpa using Ne.symm hgf)] at hcount
      simp only [Function.update_of_ne hgf]
      omega
  · by_cases hgf : g = f
    · subst hgf
      simp only [Function.update_self] at hg
      omega
    · simp only [Function.update_of_ne hgf] at hg ⊢
      exact h.free g hg
  · by_cases hgf : g = f
    · subst hgf
      simp only [Function.update_self] at hg hw ⊢
      exact h.files g hg hw
    · simp only [Function.update_of_ne hgf] at hg hw ⊢
      exact h.files g hg hw

theorem sys_dup_sound (h : SysOk D t) :
    Wp (sys_dup p fd) t (fun _ => True) fun _ t' => SysOk D t' := by
  simp only [sys_dup, wp_bind, wp_gets]
  split
  · exact wp_pure.mpr h
  · rename_i f hfd
    rw [wp_bind]
    refine fdalloc_wp.post fun r t₁ hr => ?_
    cases r with
    | none =>
        rw [hr]
        exact wp_pure.mpr h
    | some fd' =>
        obtain ⟨hfree, rfl⟩ := hr
        simp only [filedup, wp_bind, wp_gets]
        split
        · exact wp_stop.mpr trivial
        · rename_i href
          simp only [setFile, wp_modify, wp_pure]
          exact h.of_dup (by omega) hfree rfl

/-- One round of `fork`: the rest of the child's descriptors stay as they are. -/
theorem forkDup_sound (h : SysOk D t) (hq : (t.procs q).ofile fd = none) :
    Wp (forkDup p q fd) t (fun _ => True) fun _ t' => SysOk D t' ∧ t'.fs = t.fs ∧
      (∀ p', (t'.procs p').cwd = (t.procs p').cwd) ∧
      ∀ fd' ≠ fd, (t'.procs q).ofile fd' = (t.procs q).ofile fd' := by
  simp only [forkDup, wp_bind, wp_gets]
  split
  · exact wp_pure.mpr ⟨h, rfl, fun _ => rfl, fun _ _ => rfl⟩
  · rename_i f hfd
    simp only [filedup, wp_bind, wp_gets]
    split
    · exact wp_stop.mpr trivial
    · rename_i href
      simp only [setFile, setProc, wp_modify]
      refine ⟨h.of_dup (by omega) hq rfl, trivial, fun p' => ?_, fun fd' hne => ?_⟩
      · by_cases hp : p' = q
        · rw [hp, Function.update_self]
        · rw [Function.update_of_ne hp]
      · simp only [Function.update_self, Function.update_of_ne hne]

/-- The child is where the parent is. -/
theorem refsOf_enter {proc : Proc} (h : (t.procs p).cwd = none) (h' : proc.cwd = some ip) :
    refsOf { t with procs := Function.update t.procs p proc } = plus (refsOf t) ip := by
  funext jp
  have hsum := refsOf_setProc (t := t) p proc jp
  simp only [Proc.In, h, h', reduceCtorEq, if_false, Option.some.injEq] at hsum
  rw [plus_apply, if_congr eq_comm rfl rfl, ← hsum, add_zero]

theorem fork_sound (h : SysOk D t) (hcwd : (t.procs p).cwd = some cwd) :
    Wp (fork p cwd q) t (fun _ => True) fun _ t' => SysOk D t' := by
  simp only [fork, wp_bind, wp_gets]
  split
  · rename_i hunused
    have hloop : Wp (forEach (List.finRange nofile) (forkDup p q)) t (fun _ => True) fun _ t' =>
        SysOk D t' ∧ (∀ p', (t'.procs p').cwd = (t.procs p').cwd) ∧
          ∀ fd ∉ List.finRange nofile, (t'.procs q).ofile fd = none := by
      refine wp_forEach (I := fun done t' => SysOk D t' ∧ (∀ p', (t'.procs p').cwd =
        (t.procs p').cwd) ∧ ∀ fd ∉ done, (t'.procs q).ofile fd = none) ?_
        ⟨h, fun _ => rfl, fun fd _ => hunused.2 fd⟩
      rintro done fd rest t₁ hlist ⟨hok, hcwds, hnone⟩
      have hfd : fd ∉ done := by
        have hnodup := List.nodup_finRange nofile
        rw [hlist, List.nodup_append] at hnodup
        exact fun hmem => hnodup.2.2 fd hmem fd (List.mem_cons_self ..) rfl
      refine (forkDup_sound hok (hnone fd hfd)).post ?_
      rintro - t₂ ⟨hok₂, -, hcwds₂, hrest⟩
      refine ⟨hok₂, fun p' => (hcwds₂ p').trans (hcwds p'), fun fd' hfd' => ?_⟩
      rw [List.mem_append, List.mem_singleton, not_or] at hfd'
      rw [hrest fd' hfd'.2]
      exact hnone fd' hfd'.1
    rw [wp_bind]
    refine hloop.post ?_
    rintro - t₁ ⟨hok, hcwds, -⟩
    simp only [wp_bind, fs, wp_zoom, setProc, wp_modify, wp_pure]
    have hpos : 0 < refsOf t₁ cwd := refsOf_pos_of_cwd (p := p) ((hcwds p).trans hcwd)
    refine (idup_sound hok.sound hpos).post ?_
    rintro r s ⟨rfl, hs, hk, -, -⟩
    have hplus : refsOf ⟨t₁.fs, t₁.ftable, Function.update t₁.procs q
        { t₁.procs q with cwd := some r }⟩ = plus (refsOf t₁) r :=
      refsOf_enter ((hcwds q).trans hunused.1) rfl
    refine hok.of_cwd rfl ?_ fun jp hjp _ hnd => hnd.keep hk hjp
    show Sound D (refsOf ⟨t₁.fs, t₁.ftable, Function.update t₁.procs q
        { t₁.procs q with cwd := some r }⟩) s
    rw [hplus]
    exact hs
  · exact wp_pure.mpr h

/-! ### `exec` -/

theorem loadLoop_sound {addr off sz n k : Nat} (h : Sound D H s) (hip : 0 < H ip)
    (hat : At L s ip i nd) :
    Wp (loadLoop mem ip addr off sz n k) s (fun _ => True) fun _ s' => Sound D H s' ∧
      Keep L H s s' ∧ At L s' ip i nd := by
  induction n generalizing k s with
  | zero => exact wp_pure.mpr ⟨h, .refl, hat⟩
  | succ n ih =>
      rw [loadLoop]
      split
      · exact wp_stop.mpr trivial
      · have hlen : min (sz - k) Vm.pgsize < 2 ^ 32 := (min_le_right _ _).trans_lt (by decide)
        refine (readi_sound h hip hat (Nat.mod_lt _ (by decide)) hlen).seq (fun _ _ => trivial) ?_
        rintro r s₁ ⟨hs₁, hk₁, hn₁⟩
        have hat₁ := hat.keep_node hk₁ hip hs₁ hip (by rw [hn₁]; exact hat.node)
        split
        · refine (ih hs₁ hat₁).post ?_
          rintro ok s₂ ⟨hs₂, hk₂, hat₂⟩
          exact ⟨hs₂, hk₁.trans hk₂, hat₂⟩
        · exact wp_pure.mpr ⟨hs₁, hk₁, hat₁⟩

theorem loadSegs_sound {n off : Nat} (hoff : off < 2 ^ 32) (h : Sound D H s) (hip : 0 < H ip)
    (hat : At L s ip i nd) :
    Wp (loadSegs mem ip n off) s (fun _ => True) fun _ s' => Sound D H s' ∧ Keep L H s s' ∧
      At L s' ip i nd := by
  induction n generalizing off s with
  | zero => exact wp_pure.mpr ⟨h, .refl, hat⟩
  | succ n ih =>
      refine (readi_sound h hip hat hoff (by decide)).seq (fun _ _ => trivial) ?_
      rintro r s₁ ⟨hs₁, hk₁, hn₁⟩
      have hat₁ := hat.keep_node hk₁ hip hs₁ hip (by rw [hn₁]; exact hat.node)
      have hnext : ∀ s₂, Sound D H s₂ → Keep L H s s₂ → At L s₂ ip i nd →
          Wp (loadSegs mem ip n (u32 (off + Vm.Proghdr.sizeof))) s₂ (fun _ => True)
            fun _ s' => Sound D H s' ∧ Keep L H s s' ∧ At L s' ip i nd := by
        intro s₂ hs₂ hk₂ hat₂
        refine (ih (Nat.mod_lt _ (by decide)) hs₂ hat₂).post ?_
        rintro ok s₃ ⟨hs₃, hk₃, hat₃⟩
        exact ⟨hs₃, hk₂.trans hk₃, hat₃⟩
      cases r with
      | none => exact wp_pure.mpr ⟨hs₁, hk₁, hat₁⟩
      | some bs =>
          dsimp only
          split
          · exact wp_pure.mpr ⟨hs₁, hk₁, hat₁⟩
          split
          · exact hnext s₁ hs₁ hk₁ hat₁
          split
          · exact wp_pure.mpr ⟨hs₁, hk₁, hat₁⟩
          split
          · exact wp_pure.mpr ⟨hs₁, hk₁, hat₁⟩
          unfold loaduvm
          split
          · exact wp_bind.mpr (wp_stop.mpr trivial)
          · refine (loadLoop_sound hs₁ hip hat₁).bind ?_
            rintro ok s₂ ⟨hs₂, hk₂, hat₂⟩
            split
            · exact hnext s₂ hs₂ (hk₁.trans hk₂) hat₂
            · exact wp_pure.mpr ⟨hs₂, hk₁.trans hk₂, hat₂⟩

theorem execLoad_sound (h : Sound D H s) (hip : 0 < H ip) (hat : At L s ip i nd) :
    Wp (execLoad mem ip) s (fun _ => True) fun _ s' => Sound D H s' ∧ Keep L H s s' ∧
      At L s' ip i nd := by
  refine (readi_sound h hip hat (by decide) (by decide)).seq (fun _ _ => trivial) ?_
  rintro r s₁ ⟨hs₁, hk₁, hn₁⟩
  have hat₁ := hat.keep_node hk₁ hip hs₁ hip (by rw [hn₁]; exact hat.node)
  dsimp only
  split
  · exact wp_pure.mpr ⟨hs₁, hk₁, hat₁⟩
  split
  · exact wp_pure.mpr ⟨hs₁, hk₁, hat₁⟩
  split
  · exact wp_pure.mpr ⟨hs₁, hk₁, hat₁⟩
  · refine (loadSegs_sound (field_lt _ _ _) hs₁ hip hat₁).post ?_
    rintro ok s₂ ⟨hs₂, hk₂, hat₂⟩
    exact ⟨hs₂, hk₁.trans hk₂, hat₂⟩

theorem exec_sound (h : Sound D H s) (hcwd : 0 < H cwd) (hpath : (0 : UInt8) ∉ path) :
    Wp (exec cwd path mem) s (fun _ => True) fun _ s' => Sound D H s' ∧ Keep L H s s' := by
  simp only [exec, wp_bind, beginOp, wp_modify]
  refine (namei_sound (F := False) (Sound.log h) hcwd False.elim hpath).mono (fun _ _ => trivial)
    fun r s₁ hr => ?_
  cases r with
  | none =>
      simp only [wp_bind, endOp, wp_modify, wp_pure]
      exact ⟨Sound.log hr.1, (Keep.log.trans hr.2.keep).trans Keep.log⟩
  | some ip =>
      obtain ⟨hs₁, hq₁, -⟩ := hr
      have hip := plus_pos (h.nonneg ip)
      simp only [wp_bind]
      refine (ilock_sound hs₁ hip).mono (fun _ _ => trivial) ?_
      rintro - s₂ ⟨hs₂, hk₂, -, nd, hat⟩
      refine (execLoad_sound hs₂ hip hat).post ?_
      rintro ok s₃ ⟨hs₃, hk₃, hat₃⟩
      refine (iunlockput_sound hs₃ (h.nonneg ip) hat₃).mono (fun _ _ => trivial) ?_
      rintro - s₄ ⟨hs₄, hk₄, -⟩
      simp only [endOp, wp_modify, wp_pure]
      exact ⟨Sound.log hs₄, (((Keep.log.trans hq₁.keep).trans (hk₂.trans hk₃).of_plus).trans
        hk₄).trans Keep.log⟩

theorem Act.run_sound (a : Act) (h : SysOk D t) (hcwd : (t.procs p).cwd = some cwd) :
    Wp (a.run p cwd) t (fun _ => True) fun _ t' => SysOk D t' := by
  cases a with
  | call c =>
      exact (Syscall.run_sound (F := False) c h hcwd False.elim).mono (fun _ _ => trivial)
        fun _ _ h => h.1.ok
  | dup fd => exact sys_dup_sound h
  | fork child => exact fork_sound h hcwd
  | exec path mem =>
      simp only [Act.run, fs, wp_zoom]
      refine (exec_sound h.sound (refsOf_pos_of_cwd hcwd) (nul_notMem_cstr path)).post ?_
      rintro - s ⟨hs, hk⟩
      exact h.of_fs hs hk

end Sound

/-! ### The locks -/

section Turns
variable {K : Set Slot} {ip dp cwd : Slot} {name path old new : List UInt8}
  {type major minor : UInt16} {mem : Memory}

/-- The inode is locked, and let go of. -/
theorem unlockput_turns : Turns (insert ip K) (iunlockput ip) fun _ => K :=
  iunlockput_turns.mono fun _ => insert_diff_subset

theorem linkBad_turns : Steady K (linkBad ip) :=
  ilock_turns.bind fun _ => storeFields_turns.bind fun _ => unlockput_turns.bind fun _ =>
    .pure subset_rfl

theorem link_turns : Steady K (link cwd old new) := by
  have hnew : ∀ ip, Steady K (linkNew cwd ip new) := by
    intro ip
    refine namex_turns.bind fun r => ?_
    split
    · exact linkBad_turns
    · refine ilock_turns.bind fun _ => inode_turns.bind fun i =>
        (dirlink_turns (.inl rfl)).bind fun linked => .ite ?_ ?_
      · exact unlockput_turns.bind fun _ => linkBad_turns
      · exact unlockput_turns.bind fun _ => iput_turns.bind fun _ => .pure subset_rfl
  refine namei_turns.bind fun r => ?_
  split
  · exact .pure subset_rfl
  · refine ilock_turns.bind fun _ => inode_turns.bind fun i => .ite ?_ ?_
    · exact unlockput_turns.bind fun _ => .pure subset_rfl
    · refine storeFields_turns.bind fun _ => Turns.bind ?_ fun _ => hnew _
      exact iunlock_turns.mono fun _ => insert_diff_subset

theorem unlink_turns : Steady K (unlink cwd path) := by
  refine namex_turns.bind fun r => ?_
  split
  · exact .pure subset_rfl
  · rename_i dp name
    refine ilock_turns.bind fun _ => .ite (unlockput_turns.bind fun _ => .pure subset_rfl) ?_
    refine (dirlookup_turns (.inl rfl)).bind fun r => ?_
    split
    · exact unlockput_turns.bind fun _ => .pure subset_rfl
    · rename_i ip off
      have hdp : dp ∈ insert ip (insert dp K) := .inr (.inl rfl)
      have hput : Turns (insert ip (insert dp K)) (iunlockput dp) fun _ => insert ip K := by
        refine iunlockput_turns.mono fun _ jp hjp => ?_
        obtain ⟨rfl | rfl | hK, hne⟩ := hjp
        · exact .inl rfl
        · exact absurd rfl hne
        · exact .inr hK
      have hempty : ∀ type, Steady (insert ip (insert dp K)) (unlinkEmpty ip type) := fun type =>
        .ite (isdirempty_turns (.inl rfl)) (.pure subset_rfl)
      have hparent : ∀ type, Steady (insert ip (insert dp K)) (unlinkParent dp type) := fun type =>
        .ite storeFields_turns (.pure subset_rfl)
      refine ilock_turns.bind fun _ => inode_turns.bind fun i => .ite .stop ?_
      refine (hempty _).bind fun empty => .ite ?_ ?_
      · exact unlockput_turns.bind fun _ => unlockput_turns.bind fun _ => .pure subset_rfl
      · refine (writei_turns hdp).bind fun r => .ite .stop ?_
        refine inode_turns.bind fun i => (hparent _).bind fun _ => hput.bind fun _ => ?_
        exact storeFields_turns.bind fun _ => unlockput_turns.bind fun _ => .pure subset_rfl

/-- The locks with the inode a function gives. -/
def locked (K : Set Slot) : Option Slot → Set Slot
  | none => K
  | some ip => insert ip K

theorem create_turns : Turns K (create cwd path type major minor) (locked K) := by
  refine namex_turns.bind fun r => ?_
  split
  · exact .pure subset_rfl
  · rename_i dp name
    refine ilock_turns.bind fun _ => (dirlookup_turns (.inl rfl)).bind fun r => ?_
    split
    · refine unlockput_turns.bind fun _ => ilock_turns.bind fun _ => inode_turns.bind fun i => ?_
      exact .ite (.pure subset_rfl) (unlockput_turns.bind fun _ => .pure subset_rfl)
    · have hnew : Turns (insert dp K) (createNew dp name type major minor) fun ip => insert ip K := by
        refine ialloc_turns.bind fun ip => ilock_turns.bind fun _ => storeFields_turns.bind fun _ => ?_
        have hdots : Steady (insert ip (insert dp K)) (createDots dp ip type) := by
          refine .ite (storeFields_turns.bind fun _ => inode_turns.bind fun _ => ?_) (.pure subset_rfl)
          refine (dirlink_turns (.inl rfl)).bind fun ok => .ite .stop ?_
          refine inode_turns.bind fun _ => (dirlink_turns (.inl rfl)).bind fun ok => ?_
          exact .ite .stop (.pure subset_rfl)
        refine hdots.bind fun _ => inode_turns.bind fun i =>
          (dirlink_turns (.inr (.inl rfl))).bind fun ok => .ite .stop ?_
        refine iunlockput_turns.bind fun _ => .pure fun jp hjp => ?_
        obtain ⟨rfl | rfl | hK, hne⟩ := hjp
        · exact .inl rfl
        · exact absurd rfl hne
        · exact .inr hK
      exact hnew.bind fun ip => .pure subset_rfl

theorem openInode_turns {omode : UInt32} : Turns K (openInode cwd path omode) (locked K) := by
  refine .ite create_turns (namei_turns.bind fun r => ?_)
  split
  · exact .pure subset_rfl
  · refine ilock_turns.bind fun _ => inode_turns.bind fun i => ?_
    exact .ite (unlockput_turns.bind fun _ => .pure subset_rfl) (.pure subset_rfl)

theorem execLoad_turns (h : ip ∈ K) : Steady K (execLoad mem ip) := by
  have hloop : ∀ addr off sz n i, Steady K (loadLoop mem ip addr off sz n i) := by
    intro addr off sz n
    induction n with
    | zero => exact fun _ => .pure subset_rfl
    | succ n ih => exact fun i => .ite .stop ((readi_turns h).bind fun _ =>
        .ite (ih _) (.pure subset_rfl))
  have hsegs : ∀ n off, Steady K (loadSegs mem ip n off) := by
    intro n
    induction n with
    | zero => exact fun _ => .pure subset_rfl
    | succ n ih =>
        refine fun off => (readi_turns h).bind fun r => ?_
        split
        · exact .pure subset_rfl
        · refine .ite (.pure subset_rfl) (.ite (ih _) (.ite (.pure subset_rfl)
            (.ite (.pure subset_rfl) ?_)))
          have hload : ∀ addr off sz, Steady K (loaduvm mem ip addr off sz) := fun addr off sz =>
            .ite .stop (hloop addr off sz _ _)
          exact (hload _ _ _).bind fun ok => .ite (ih _) (.pure subset_rfl)
  refine (readi_turns h).bind fun r => .ite (.pure subset_rfl) (.ite (.pure subset_rfl)
    (.ite (.pure subset_rfl) (hsegs _ _)))

theorem beginOp_turns : Steady K beginOp := .modify fun _ => rfl

theorem endOp_turns : Steady K endOp := .modify fun _ => rfl

theorem exec_turns : Steady K (exec cwd path mem) := by
  refine beginOp_turns.bind fun _ => namei_turns.bind fun r => ?_
  split
  · exact endOp_turns.bind fun _ => .pure subset_rfl
  · exact ilock_turns.bind fun _ => (execLoad_turns (.inl rfl)).bind fun ok =>
      unlockput_turns.bind fun _ => endOp_turns.bind fun _ => .pure subset_rfl

end Turns

/-- The same for programs on the whole state. -/
def SysTurns {α : Type} (K : Set Slot) (m : SysM α) (K' : α → Set Slot) : Prop :=
  ∀ t : Sys, Locks K t.fs → Wp m t (fun _ => True) fun a t' => Locks (K' a) t'.fs

namespace SysTurns
variable {α β : Type} {K : Set Slot} {m m' : SysM α} {f : α → SysM β} {K' : α → Set Slot}
  {J : β → Set Slot}

theorem fs {m : FsM α} (h : Turns K m K') : SysTurns K (Syscall.fs m) K' :=
  fun t ht => wp_zoom.mpr (h t.fs ht)

theorem pure {a : α} (h : K ⊆ K' a) : SysTurns K (Pure.pure a) K' :=
  fun _ ht => wp_pure.mpr fun ip hip => h (ht ip hip)

theorem stop {e : Stop} : SysTurns K (Prog.stop e : SysM α) K' := fun _ _ => wp_stop.mpr trivial

theorem gets {g : Sys → α} : SysTurns K (Prog.gets g) fun _ => K := fun _ ht => wp_gets.mpr ht

theorem setFile {f : FileNo} {g : File → File} : SysTurns K (Syscall.setFile f g) fun _ => K :=
  fun _ ht => wp_modify.mpr ht

theorem setProc {p : Fin nproc} {g : Proc → Proc} : SysTurns K (Syscall.setProc p g) fun _ => K :=
  fun _ ht => wp_modify.mpr ht

theorem bind (h : SysTurns K m K') (hf : ∀ a, SysTurns (K' a) (f a) J) : SysTurns K (m >>= f) J :=
  fun t ht => (h t ht).bind fun a t' ht' => hf a t' ht'

theorem ite {c : Prop} [Decidable c] (h : SysTurns K m K') (h' : SysTurns K m' K') :
    SysTurns K (if c then m else m') K' := by
  split
  · exact h
  · exact h'

theorem forEach {body : β → SysM Unit} (as : List β) (h : ∀ a, SysTurns K (body a) fun _ => K) :
    SysTurns K (Prog.forEach as body) fun _ => K := by
  induction as with
  | nil => exact pure subset_rfl
  | cons a as ih => exact (h a).bind fun _ => ih

end SysTurns

section Calls
variable {K : Set Slot} {cwd : Slot} {path : List UInt8} {type major minor : UInt16} {f : FileNo}
  {p q : Fin nproc} {fd : Fin nofile}

theorem fileclose_turns : SysTurns K (fileclose f) fun _ => K := by
  refine SysTurns.gets.bind fun file => .ite .stop (.ite .setFile (SysTurns.setFile.bind fun _ => ?_))
  split
  · exact .pure subset_rfl
  · exact (SysTurns.fs beginOp_turns).bind fun _ => (SysTurns.fs iput_turns).bind fun _ =>
      .fs endOp_turns

theorem filealloc_turns : SysTurns K filealloc fun _ => K := by
  refine SysTurns.gets.bind fun ftable => ?_
  split
  · exact .pure subset_rfl
  · exact SysTurns.setFile.bind fun _ => .pure subset_rfl

theorem fdalloc_turns : SysTurns K (fdalloc p f) fun _ => K := by
  refine SysTurns.gets.bind fun proc => ?_
  split
  · exact .pure subset_rfl
  · exact SysTurns.setProc.bind fun _ => .pure subset_rfl

theorem filedup_turns : SysTurns K (filedup f) fun _ => K :=
  SysTurns.gets.bind fun _ => .ite .stop .setFile

/-- The end of an operation that locked an inode. -/
theorem putEnd_turns {α : Type} {ip : Slot} {r : α} : SysTurns (insert ip K) (do
    fs (iunlockput ip)
    fs endOp
    pure r) fun _ => K :=
  (SysTurns.fs unlockput_turns).bind fun _ => (SysTurns.fs endOp_turns).bind fun _ =>
    .pure subset_rfl

theorem sys_open_turns {omode : UInt32} : SysTurns K (sys_open p cwd path omode) fun _ => K := by
  refine (SysTurns.fs beginOp_turns).bind fun _ => (SysTurns.fs openInode_turns).bind fun r => ?_
  split
  · exact (SysTurns.fs endOp_turns).bind fun _ => .pure subset_rfl
  · rename_i ip
    refine filealloc_turns.bind fun r => ?_
    split
    · exact putEnd_turns
    · refine fdalloc_turns.bind fun r => ?_
      split
      · exact fileclose_turns.bind fun _ => putEnd_turns
      · have hunlock : Turns (insert ip K) (iunlock ip) fun _ => K :=
          iunlock_turns.mono fun _ => insert_diff_subset
        exact (SysTurns.fs hunlock).bind fun _ => (SysTurns.fs endOp_turns).bind fun _ =>
          SysTurns.setFile.bind fun _ => .pure subset_rfl

/-- `mkdir` and `mknod`. -/
theorem sys_create_turns : SysTurns K (do
    fs beginOp
    let r ← fs (create cwd path type major minor)
    match r with
    | none => do
        fs endOp
        pure (-1)
    | some ip => do
        fs (iunlockput ip)
        fs endOp
        pure (0 : Int)) fun _ => K := by
  refine (SysTurns.fs beginOp_turns).bind fun _ => (SysTurns.fs create_turns).bind fun r => ?_
  split
  · exact (SysTurns.fs endOp_turns).bind fun _ => .pure subset_rfl
  · exact putEnd_turns

theorem sys_chdir_turns : SysTurns K (sys_chdir p cwd path) fun _ => K := by
  refine (SysTurns.fs beginOp_turns).bind fun _ => (SysTurns.fs namei_turns).bind fun r => ?_
  split
  · exact (SysTurns.fs endOp_turns).bind fun _ => .pure subset_rfl
  · rename_i ip
    refine (SysTurns.fs ilock_turns).bind fun _ => (SysTurns.fs inode_turns).bind fun i =>
      .ite putEnd_turns ?_
    have hunlock : Turns (insert ip K) (iunlock ip) fun _ => K :=
      iunlock_turns.mono fun _ => insert_diff_subset
    exact (SysTurns.fs hunlock).bind fun _ => (SysTurns.fs iput_turns).bind fun _ =>
      (SysTurns.fs endOp_turns).bind fun _ => SysTurns.setProc.bind fun _ => .pure subset_rfl

theorem writeChunks_turns {src : List UInt8} : SysTurns K (writeChunks f src) fun _ => K := by
  induction hlen : src.length using Nat.strong_induction_on generalizing src with
  | _ n ih =>
      subst hlen
      rw [writeChunks]
      split
      · exact .pure subset_rfl
      · rename_i hne
        refine (SysTurns.fs beginOp_turns).bind fun _ => SysTurns.gets.bind fun file => ?_
        have hunlock : Turns (insert file.ip K) (iunlock file.ip) fun _ => K :=
          iunlock_turns.mono fun _ => insert_diff_subset
        refine (SysTurns.fs ilock_turns).bind fun _ => (SysTurns.fs (writei_turns (.inl rfl))).bind
          fun r => SysTurns.setFile.bind fun _ => (SysTurns.fs hunlock).bind fun _ =>
          (SysTurns.fs endOp_turns).bind fun _ => ?_
        split
        · exact .pure subset_rfl
        · refine .ite .stop (ih _ ?_ rfl)
          rw [List.length_drop]
          have : 0 < maxWrite := by decide
          omega

theorem sys_write_turns {src : List UInt8} : SysTurns K (sys_write p fd src) fun _ => K := by
  refine SysTurns.gets.bind fun proc => ?_
  split
  · exact .pure subset_rfl
  · refine SysTurns.bind ?_ fun _ => .pure subset_rfl
    refine SysTurns.gets.bind fun file => .ite (.pure subset_rfl) ?_
    split
    · exact .stop
    · exact writeChunks_turns

theorem sys_close_turns : SysTurns K (sys_close p fd) fun _ => K := by
  refine SysTurns.gets.bind fun proc => ?_
  split
  · exact .pure subset_rfl
  · exact SysTurns.setProc.bind fun _ => fileclose_turns.bind fun _ => .pure subset_rfl

theorem exit_turns : SysTurns K (exit p cwd) fun _ => K := by
  have hclose : ∀ fd, SysTurns K (exitClose p fd) fun _ => K := by
    intro fd
    refine SysTurns.gets.bind fun proc => ?_
    split
    · exact .pure subset_rfl
    · exact fileclose_turns.bind fun _ => .setProc
  exact (SysTurns.forEach _ hclose).bind fun _ => (SysTurns.fs beginOp_turns).bind fun _ =>
    (SysTurns.fs iput_turns).bind fun _ => (SysTurns.fs endOp_turns).bind fun _ =>
    SysTurns.setProc.bind fun _ => .pure subset_rfl

theorem sys_dup_turns : SysTurns K (sys_dup p fd) fun _ => K := by
  refine SysTurns.gets.bind fun proc => ?_
  split
  · exact .pure subset_rfl
  · refine fdalloc_turns.bind fun r => ?_
    split
    · exact .pure subset_rfl
    · exact filedup_turns.bind fun _ => .pure subset_rfl

theorem fork_turns : SysTurns K (fork p cwd q) fun _ => K := by
  have hdup : ∀ fd, SysTurns K (forkDup p q fd) fun _ => K := by
    intro fd
    refine SysTurns.gets.bind fun proc => ?_
    split
    · exact .pure subset_rfl
    · exact filedup_turns.bind fun _ => .setProc
  refine SysTurns.gets.bind fun child => .ite ?_ (.pure subset_rfl)
  exact (SysTurns.forEach _ hdup).bind fun _ => (SysTurns.fs idup_turns).bind fun _ =>
    SysTurns.setProc.bind fun _ => .pure subset_rfl

/-- Every call lets go of the inodes it locks. -/
theorem Act.run_turns (a : Act) : SysTurns K (a.run p cwd) fun _ => K := by
  cases a with
  | call c =>
      cases c with
      | «open» path omode => exact sys_open_turns
      | mkdir path => exact sys_create_turns
      | mknod path major minor => exact sys_create_turns
      | link old new =>
          exact (SysTurns.fs beginOp_turns).bind fun _ => (SysTurns.fs link_turns).bind fun _ =>
            (SysTurns.fs endOp_turns).bind fun _ => .pure subset_rfl
      | unlink path =>
          exact (SysTurns.fs beginOp_turns).bind fun _ => (SysTurns.fs unlink_turns).bind fun _ =>
            (SysTurns.fs endOp_turns).bind fun _ => .pure subset_rfl
      | chdir path => exact sys_chdir_turns
      | write fd src => exact sys_write_turns
      | close fd => exact sys_close_turns
      | exit => exact exit_turns
  | dup fd => exact sys_dup_turns
  | fork child => exact fork_turns
  | exec path mem => exact .fs exec_turns

end Calls

/-! ### Runs -/

section Runs
variable {L : Layout} {t t' : Sys}

/-- The counts are exact, and nothing is locked. -/
structure Settled (L : Layout) (t : Sys) : Prop where
  ok : SysOk (inRange L) t
  locks : Locks ∅ t.fs

theorem Settled.act {e : Fin nproc × Act} (h : Settled L t) (hstep : act t e = some t') :
    Settled L t' := by
  unfold Syscall.act at hstep
  split at hstep
  · cases hstep
  · rename_i cwd hcwd
    split at hstep
    · rename_i r t'' hrun
      cases hstep
      exact ⟨(e.2.run_sound h.ok hcwd).of_eq_ok hrun, (e.2.run_turns t h.locks).of_eq_ok hrun⟩
    · cases hstep

/-- **References to the inode cache.**  After any calls, two entries in use have different inodes; an
entry has as many references as there are open files and current directories that are it; and none is
locked. -/
theorem icache_refs_exact {es : List (Fin nproc × Act)} (h : Settled L t)
    (hrun : runs act t es = some t') :
    (∀ ip jp, 0 < (t'.fs.icache ip).ref → 0 < (t'.fs.icache jp).ref →
      (t'.fs.icache ip).inum = (t'.fs.icache jp).inum → ip = jp) ∧
    (∀ ip, (t'.fs.icache ip).ref = (Finset.univ.filter fun f =>
        (t'.ftable f).type = .inode ∧ (t'.ftable f).ip = ip).card +
      (Finset.univ.filter fun p => (t'.procs p).cwd = some ip).card) ∧
    ∀ ip, (t'.fs.icache ip).busy = false := by
  have hok : Settled L t' := runs_inv_all (fun _ _ _ h hstep => h.act hstep) h hrun
  refine ⟨hok.ok.sound.good.uniq, fun ip => ?_, fun ip => ?_⟩
  · rw [hok.ok.sound.refs ip, refsOf, count, count, Finset.sum_boole, Finset.sum_boole]
    rfl
  · by_contra hbusy
    exact hok.locks ip (by simpa using hbusy)

end Runs

theorem settled_oneProcess : Settled smallLayout oneProcess where
  ok := .oneProcess inRange_rootNode
  locks ip hip := by
    simp only [oneProcess, smallState] at hip
    split at hip <;> cases hip

/-- The process makes a directory, forks, and its child goes there. -/
theorem forkChdir_refs : ∃ t', runs act oneProcess [(⟨0, by decide⟩, .call (.mkdir [97])),
      (⟨0, by decide⟩, .fork ⟨1, by decide⟩), (⟨1, by decide⟩, .call (.chdir [97]))] = some t' ∧
    ∀ ip, (t'.fs.icache ip).busy = false := by
  have hsome : (runs act oneProcess [(⟨0, by decide⟩, .call (.mkdir [97])),
      (⟨0, by decide⟩, .fork ⟨1, by decide⟩), (⟨1, by decide⟩, .call (.chdir [97]))]).isSome = true := by
    decide +kernel
  obtain ⟨t', hrun⟩ := Option.isSome_iff_exists.mp hsome
  exact ⟨t', hrun, (icache_refs_exact settled_oneProcess hrun).2.2⟩

end Xv6.Syscall
