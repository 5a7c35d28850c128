import Xv6.Lib.Count
import Xv6.Sched.Table
import Xv6.Syscall.File

/-!
# Syscall — the file table and the descriptors

`open`, `pipe`, `dup`, `close`, `fork`, `exit` and `wait`, as far as they concern the file table, the
descriptors of the processes and the pipes.  A call is a step.  What the file system answers `open`
(the inode, or nothing) and whether `kalloc` and `copyuvm` find memory are arguments of the call; the
inodes are an arbitrary type.  A call whose arguments cannot be fetched returns before it does
anything.

Pipes are numbered as they are allocated, and `Pipe.freed` counts how often the page of the pipe was
given to `kfree`.
-/

namespace Xv6.Table
open Lib Lib.Prog
open Sched (Slot ProcState nproc)
open Syscall (nfile nofile FileNo)

/-! ### The tables -/

inductive FileType where
  /-- `FD_NONE` -/
  | none
  /-- `FD_PIPE` -/
  | pipe
  /-- `FD_INODE` -/
  | inode
  deriving DecidableEq, Repr

structure File (ι : Type) where
  type : FileType
  ref : Int
  readable : Bool
  writable : Bool
  pipe : Nat
  ip : Option ι
  off : UInt32

structure Pipe where
  readopen : Bool
  writeopen : Bool
  freed : Nat
  deriving DecidableEq, Repr

structure Proc where
  state : ProcState
  parent : Option Slot
  ofile : Fin nofile → Option FileNo

structure Sys (ι : Type) where
  ftable : FileNo → File ι
  proc : Slot → Proc
  pipe : Nat → Pipe
  npipe : Nat
  initproc : Slot

inductive Stop where
  | filedup
  | fileclose
  | initExiting
  deriving DecidableEq, Repr

abbrev M (ι : Type) := Prog (Sys ι) Stop

variable {ι : Type}

namespace Sys

def setFile (s : Sys ι) (f : FileNo) (x : File ι) : Sys ι :=
  { s with ftable := Function.update s.ftable f x }

def setProc (s : Sys ι) (p : Slot) (x : Proc) : Sys ι :=
  { s with proc := Function.update s.proc p x }

/-- `ofile[fd] = v` in the process `p`. -/
def setFd (s : Sys ι) (p : Slot) (fd : Fin nofile) (v : Option FileNo) : Sys ι :=
  s.setProc p { s.proc p with ofile := Function.update (s.proc p).ofile fd v }

def setPipe (s : Sys ι) (n : Nat) (x : Pipe) : Sys ι := { s with pipe := Function.update s.pipe n x }

end Sys

/-- The state after boot: the first process, which has nothing open. -/
def boot (ι : Type) : Sys ι where
  ftable _ := ⟨.none, 0, false, false, 0, none, 0⟩
  proc p := ⟨if p = 0 then .runnable else .unused, none, fun _ => none⟩
  pipe _ := ⟨false, false, 0⟩
  npipe := 0
  initproc := 0

/-! ### The functions -/

/-- Allocate a file structure. -/
def filealloc : M ι (Option FileNo) := do
  let ftable ← gets Sys.ftable
  match (List.finRange nfile).find? fun f => decide ((ftable f).ref = 0) with
  | none => pure none
  | some f => do
      modify fun s => s.setFile f { s.ftable f with ref := 1 }
      pure (some f)

def filedup (f : FileNo) : M ι Unit := do
  let file ← gets fun s => s.ftable f
  if file.ref < 1 then stop .filedup
  else modify fun s => s.setFile f { s.ftable f with ref := (s.ftable f).ref + 1 }

/-- The end of the pipe that is `writable` is closed, or the other. -/
def Pipe.closed (x : Pipe) (writable : Bool) : Pipe :=
  if writable then { x with writeopen := false } else { x with readopen := false }

def pipeclose (n : Nat) (writable : Bool) : M ι Unit := do
  modify fun s => s.setPipe n ((s.pipe n).closed writable)
  let x ← gets fun s => s.pipe n
  if x.readopen = false ∧ x.writeopen = false then
    modify fun s => s.setPipe n { s.pipe n with freed := (s.pipe n).freed + 1 }
  else pure ()

def fileclose (f : FileNo) : M ι Unit := do
  let ff ← gets fun s => s.ftable f
  if ff.ref < 1 then stop .fileclose
  else if ff.ref - 1 > 0 then modify fun s => s.setFile f { s.ftable f with ref := ff.ref - 1 }
  else do
    modify fun s => s.setFile f { s.ftable f with ref := 0, type := .none }
    match ff.type with
    | .pipe => pipeclose ff.pipe ff.writable
    -- `iput`
    | .inode => pure ()
    | .none => pure ()

/-- `pipealloc`; `page` says whether `kalloc` finds a page. -/
def pipealloc (page : Bool) : M ι (Option (FileNo × FileNo)) := do
  let f0 ← filealloc
  match f0 with
  | none => pure none
  | some f0 => do
      let f1 ← filealloc
      match f1 with
      | none => do
          fileclose f0
          pure none
      | some f1 =>
          if page then do
            modify fun s => { s.setPipe s.npipe ⟨true, true, 0⟩ with npipe := s.npipe + 1 }
            modify fun s => s.setFile f0 { s.ftable f0 with
              type := .pipe, readable := true, writable := false, pipe := s.npipe - 1 }
            modify fun s => s.setFile f1 { s.ftable f1 with
              type := .pipe, readable := false, writable := true, pipe := s.npipe - 1 }
            pure (some (f0, f1))
          else do
            fileclose f0
            fileclose f1
            pure none

/-- Allocate a file descriptor. -/
def fdalloc (p : Slot) (f : FileNo) : M ι (Option (Fin nofile)) := do
  let proc ← gets fun s => s.proc p
  match (List.finRange nofile).find? fun fd => decide (proc.ofile fd = none) with
  | none => pure none
  | some fd => do
      modify fun s => s.setFd p fd (some f)
      pure (some fd)

/-- `argfd`: the descriptor and its file. -/
def argfd (x : Proc) (fd : Int) : Option (Fin nofile × FileNo) :=
  if h : 0 ≤ fd ∧ fd < nofile then
    (x.ofile ⟨fd.toNat, by omega⟩).map fun f => (⟨fd.toNat, by omega⟩, f)
  else none

def sys_dup (p : Slot) (fd : Int) : M ι Int := do
  let x ← gets fun s => s.proc p
  match argfd x fd with
  | none => pure (-1)
  | some (_, f) => do
      let r ← fdalloc p f
      match r with
      | none => pure (-1)
      | some fd => do
          filedup f
          pure fd

def sys_close (p : Slot) (fd : Int) : M ι Int := do
  let x ← gets fun s => s.proc p
  match argfd x fd with
  | none => pure (-1)
  | some (fd, f) => do
      modify fun s => s.setFd p fd none
      fileclose f
      pure 0

/-- `sys_open`; `found` is the locked inode that `create` or `namei` gives, if the file system
allows the mode. -/
def sys_open (p : Slot) (found : Option ι) (omode : UInt32) : M ι Int :=
  match found with
  | none => pure (-1)
  | some ip => do
      let f ← filealloc
      match f with
      | none => pure (-1)
      | some f => do
          let fd ← fdalloc p f
          match fd with
          | none => do
              fileclose f
              pure (-1)
          | some fd => do
              modify fun s => s.setFile f { s.ftable f with
                type := .inode
                ip := some ip
                off := 0
                readable := omode &&& 1 = 0
                writable := omode &&& 1 ≠ 0 ∨ omode &&& 2 ≠ 0 }
              pure fd

def sys_pipe (p : Slot) (page : Bool) : M ι Int := do
  let r ← pipealloc page
  match r with
  | none => pure (-1)
  | some (rf, wf) => do
      let fd0 ← fdalloc p rf
      match fd0 with
      | none => do
          fileclose rf
          fileclose wf
          pure (-1)
      | some fd0 => do
          let fd1 ← fdalloc p wf
          match fd1 with
          | none => do
              modify fun s => s.setFd p fd0 none
              fileclose rf
              fileclose wf
              pure (-1)
          | some _ => pure 0

/-- A round of `fork`'s loop over the open files. -/
def copyFd (p np : Slot) (i : Fin nofile) : M ι Unit := do
  let x ← gets fun s => s.proc p
  match x.ofile i with
  | none => pure ()
  | some f => do
      filedup f
      modify fun s => s.setFd np i (some f)

/-- `fork`; `kstack` and `pgdir` say whether there is memory for the stack and the page table. -/
def fork (p : Slot) (kstack pgdir : Bool) : M ι Int := do
  let proc ← gets Sys.proc
  match (List.finRange nproc).find? fun q => decide ((proc q).state = .unused) with
  | none => pure (-1)
  | some np => do
      modify fun s => s.setProc np { s.proc np with state := .embryo }
      if kstack ∧ pgdir then do
        modify fun s => s.setProc np { s.proc np with parent := some p }
        forEach (List.finRange nofile) (copyFd p np)
        modify fun s => s.setProc np { s.proc np with state := .runnable }
        pure 0
      else do
        modify fun s => s.setProc np { s.proc np with state := .unused }
        pure (-1)

/-- A round of `exit`'s loop over the open files. -/
def exitClose (p : Slot) (fd : Fin nofile) : M ι Unit := do
  let x ← gets fun s => s.proc p
  match x.ofile fd with
  | none => pure ()
  | some f => do
      fileclose f
      modify fun s => s.setFd p fd none

def exit (p : Slot) : M ι Int := do
  let initproc ← gets Sys.initproc
  if p = initproc then stop .initExiting
  else do
    forEach (List.finRange nofile) (exitClose p)
    modify fun s => { s with proc := fun q => { s.proc q with
      parent := if (s.proc q).parent = some p then some s.initproc else (s.proc q).parent } }
    modify fun s => s.setProc p { s.proc p with state := .zombie }
    pure 0

def wait (p : Slot) : M ι Int := do
  let proc ← gets Sys.proc
  match (List.finRange nproc).find? fun q =>
      decide ((proc q).parent = some p) && decide ((proc q).state = .zombie) with
  | none => pure (-1)
  | some z => do
      modify fun s => s.setProc z { s.proc z with state := .unused, parent := none }
      pure 0

/-- A call. -/
inductive Call (ι : Type) where
  | open (found : Option ι) (omode : UInt32)
  | pipe (page : Bool)
  | dup (fd : Int)
  | close (fd : Int)
  | fork (kstack pgdir : Bool)
  | exit
  | wait

def Call.run (p : Slot) : Call ι → M ι Int
  | .open found omode => sys_open p found omode
  | .pipe page => sys_pipe p page
  | .dup fd => sys_dup p fd
  | .close fd => sys_close p fd
  | .fork kstack pgdir => Table.fork p kstack pgdir
  | .exit => Table.exit p
  | .wait => Table.wait p

/-- The slot has a process that can make calls. -/
def Proc.alive (x : Proc) : Bool :=
  match x.state with
  | .running | .runnable | .sleeping => true
  | .unused | .embryo | .zombie => false

/-- A process makes a call that returns. -/
def step (s : Sys ι) (e : Slot × Call ι) : Option (Sys ι) :=
  if (s.proc e.1).alive then
    match e.2.run e.1 s with
    | .ok (_, s) => some s
    | .error _ => none
  else none

/-! ### The invariant -/

/-- The open file is the end of pipe `n` that is `writable`, or the other. -/
def File.End (x : File ι) (n : Nat) (writable : Bool) : Prop :=
  0 < x.ref ∧ x.type = .pipe ∧ x.pipe = n ∧ x.writable = writable

/-- `writeopen` or `readopen`. -/
def Pipe.isOpen (x : Pipe) (writable : Bool) : Bool := if writable then x.writeopen else x.readopen

def Proc.Empty (x : Proc) : Prop := ∀ fd, x.ofile fd = none

/-- The slot has no process, or one that has exited. -/
def Proc.Gone (x : Proc) : Prop := x.state = .unused ∨ x.state = .zombie

/-- The entries of all descriptor tables. -/
def Sys.descriptors (s : Sys ι) (x : Slot × Fin nofile) : Option FileNo := (s.proc x.1).ofile x.2

/-- How many descriptors stand for the file. -/
def Sys.refs (s : Sys ι) (f : FileNo) : Int := count (· = some f) s.descriptors

/-- **The counts are exact**, when the call in progress has `X f` references to the file `f` in
hand. -/
structure Ok (X : FileNo → Int) (s : Sys ι) : Prop where
  ref : ∀ f, (s.ftable f).ref = s.refs f + X f
  free : ∀ f, (s.ftable f).ref = 0 → (s.ftable f).type = .none
  gone : ∀ p, (s.proc p).Gone → (s.proc p).Empty
  known : ∀ f n w, (s.ftable f).End n w → n < s.npipe
  ends : ∀ n w, n < s.npipe → ((s.pipe n).isOpen w = true ↔ ∃ f, (s.ftable f).End n w)
  once : ∀ f g n w, (s.ftable f).End n w → (s.ftable g).End n w → f = g
  freed : ∀ n, n < s.npipe → (s.pipe n).freed =
    if (s.pipe n).readopen = false ∧ (s.pipe n).writeopen = false then 1 else 0

section Ok
variable {s : Sys ι} {X X' : FileNo → Int} {p : Slot} {f g : FileNo} {fd : Fin nofile}

theorem refs_nonneg : 0 ≤ s.refs f := count_nonneg

theorem refs_pos (h : (s.proc p).ofile fd = some f) : 0 < s.refs f :=
  count_pos (g := s.descriptors) (a := (p, fd)) h

theorem descriptors_setFd (v : Option FileNo) :
    (s.setFd p fd v).descriptors = Function.update s.descriptors (p, fd) v := by
  funext ⟨q, k⟩
  by_cases hq : q = p
  · subst hq
    by_cases hk : k = fd
    · subst hk
      simp [Sys.descriptors, Sys.setFd, Sys.setProc]
    · simp [Sys.descriptors, Sys.setFd, Sys.setProc, hk]
  · simp [Sys.descriptors, Sys.setFd, Sys.setProc, hq]

/-- What an entry of a descriptor table counts for. -/
def unit (v : Option FileNo) (g : FileNo) : Int := if v = some g then 1 else 0

theorem refs_setFd (v : Option FileNo) :
    (s.setFd p fd v).refs g = s.refs g - unit ((s.proc p).ofile fd) g + unit v g := by
  have hcount := count_update (P := (· = some g)) (g := s.descriptors) (p, fd) v
  rw [← descriptors_setFd] at hcount
  rw [Sys.refs, Sys.refs, unit, unit]
  have hold : s.descriptors (p, fd) = (s.proc p).ofile fd := rfl
  rw [hold] at hcount
  omega

/-- **A descriptor is set.** -/
theorem Ok.setFd (h : Ok X s) (hp : ¬ (s.proc p).Gone) {v : Option FileNo}
    (hX : ∀ g, X' g = X g + unit ((s.proc p).ofile fd) g - unit v g) : Ok X' (s.setFd p fd v) := by
  refine ⟨fun g => ?_, h.free, fun q hq => ?_, h.known, h.ends, h.once, h.freed⟩
  · have := h.ref g
    rw [refs_setFd, hX]
    simp only [Sys.setFd, Sys.setProc] at this ⊢
    omega
  · by_cases hqp : q = p
    · subst hqp
      simp only [Sys.setFd, Sys.setProc, Function.update_self] at hq
      exact absurd hq hp
    · simp only [Sys.setFd, Sys.setProc, Function.update_of_ne hqp] at hq ⊢
      exact h.gone q hq

/-- **A file changes**, and is the end of the same pipe. -/
theorem Ok.setFile (h : Ok X s) {x : File ι} (hend : ∀ n w, x.End n w ↔ (s.ftable f).End n w)
    (hfree : x.ref = 0 → x.type = .none)
    (hX : ∀ g, X' g = X g + if g = f then x.ref - (s.ftable f).ref else 0) :
    Ok X' (s.setFile f x) := by
  have hends : ∀ g n w, ((s.setFile f x).ftable g).End n w ↔ (s.ftable g).End n w := by
    intro g n w
    by_cases hg : g = f
    · subst hg
      simp [Sys.setFile, hend]
    · simp [Sys.setFile, hg]
  refine ⟨fun g => ?_, fun g hg => ?_, h.gone, fun g n w hg => h.known g n w ((hends g n w).mp hg),
    fun n w hn => (h.ends n w hn).trans (exists_congr fun g => (hends g n w).symm),
    fun g g' n w hg hg' => h.once g g' n w ((hends g n w).mp hg) ((hends g' n w).mp hg'), h.freed⟩
  · have := h.ref g
    rw [hX, show (s.setFile f x).refs g = s.refs g from rfl]
    by_cases hg : g = f
    · subst hg
      simp only [Sys.setFile, Function.update_self, if_pos]
      omega
    · simp only [Sys.setFile, Function.update_of_ne hg, if_neg hg]
      omega
  · by_cases hgf : g = f
    · subst hgf
      simp only [Sys.setFile, Function.update_self] at hg ⊢
      exact hfree hg
    · simp only [Sys.setFile, Function.update_of_ne hgf] at hg ⊢
      exact h.free g hg

/-- A process changes, not its descriptors. -/
theorem Ok.setProc (h : Ok X s) {x : Proc} (hx : x.ofile = (s.proc p).ofile)
    (hgone : x.Gone → x.Empty) : Ok X (s.setProc p x) := by
  have hdesc : (s.setProc p x).descriptors = s.descriptors := by
    funext ⟨q, k⟩
    by_cases hq : q = p
    · subst hq
      simp [Sys.descriptors, Sys.setProc, hx]
    · simp [Sys.descriptors, Sys.setProc, hq]
  refine ⟨fun g => ?_, h.free, fun q hq => ?_, h.known, h.ends, h.once, h.freed⟩
  · rw [Sys.refs, hdesc]
    exact h.ref g
  · by_cases hqp : q = p
    · subst hqp
      simp only [Sys.setProc, Function.update_self] at hq ⊢
      exact hgone hq
    · simp only [Sys.setProc, Function.update_of_ne hqp] at hq ⊢
      exact h.gone q hq

theorem Pipe.isOpen_closed (x : Pipe) (w v : Bool) :
    (x.closed w).isOpen v = if v = w then false else x.isOpen v := by
  cases w <;> cases v <;> rfl

theorem Pipe.freed_closed (x : Pipe) (w : Bool) : (x.closed w).freed = x.freed := by
  cases w <;> rfl

theorem Pipe.all_closed (x : Pipe) :
    (x.readopen = false ∧ x.writeopen = false) ↔ ∀ w, x.isOpen w = false := by
  simp [Pipe.isOpen]

/-- The pipe after `pipeclose`. -/
def Pipe.shut (x : Pipe) (w : Bool) : Pipe :=
  if (x.closed w).readopen = false ∧ (x.closed w).writeopen = false then
    { x.closed w with freed := (x.closed w).freed + 1 }
  else x.closed w

theorem Pipe.isOpen_shut (x : Pipe) (w v : Bool) :
    (x.shut w).isOpen v = if v = w then false else x.isOpen v := by
  rw [← Pipe.isOpen_closed, Pipe.shut]
  split
  · cases v <;> rfl
  · rfl

/-- **An end of a pipe is closed.**  The other end may still be open; the page is freed when it is
not. -/
theorem Ok.closeEnd (h : Ok X s) {n : Nat} {w : Bool} (hend : (s.ftable f).End n w) {x : File ι}
    (href : x.ref = 0) (htype : x.type = .none)
    (hX : ∀ g, X' g = X g + if g = f then -(s.ftable f).ref else 0) :
    Ok X' ((s.setFile f x).setPipe n ((s.pipe n).shut w)) := by
  have hn := h.known f n w hend
  have hno : ∀ m v, ¬ x.End m v := fun m v hx => by
    have := hx.1
    omega
  have hends : ∀ g m v, (((s.setFile f x).setPipe n ((s.pipe n).shut w)).ftable g).End m v ↔
      (s.ftable g).End m v ∧ ¬ (m = n ∧ v = w) := by
    intro g m v
    by_cases hg : g = f
    · subst hg
      simp only [Sys.setPipe, Sys.setFile, Function.update_self, hno, false_iff]
      rintro ⟨hg, hne⟩
      exact hne ⟨hg.2.2.1.symm.trans hend.2.2.1, hg.2.2.2.symm.trans hend.2.2.2⟩
    · simp only [Sys.setPipe, Sys.setFile, Function.update_of_ne hg]
      refine ⟨fun hg' => ⟨hg', ?_⟩, fun hg' => hg'.1⟩
      rintro ⟨rfl, rfl⟩
      exact hg (h.once g f m v hg' hend)
  refine ⟨fun g => ?_, fun g hg => ?_, h.gone,
    fun g m v hg => h.known g m v ((hends g m v).mp hg).1, fun m v hm => ?_,
    fun g g' m v hg hg' => h.once g g' m v ((hends g m v).mp hg).1 ((hends g' m v).mp hg').1,
    fun m hm => ?_⟩
  · have := h.ref g
    rw [hX, show ((s.setFile f x).setPipe n ((s.pipe n).shut w)).refs g = s.refs g from rfl]
    by_cases hg : g = f
    · subst hg
      simp only [Sys.setPipe, Sys.setFile, Function.update_self, if_pos]
      omega
    · simp only [Sys.setPipe, Sys.setFile, Function.update_of_ne hg, if_neg hg]
      omega
  · by_cases hgf : g = f
    · subst hgf
      simpa [Sys.setPipe, Sys.setFile] using htype
    · simp only [Sys.setPipe, Sys.setFile, Function.update_of_ne hgf] at hg ⊢
      exact h.free g hg
  · by_cases hmn : m = n
    · subst hmn
      simp only [hends, true_and]
      simp only [Sys.setPipe, Function.update_self, Pipe.isOpen_shut]
      by_cases hvw : v = w
      · simp [hvw]
      · simp only [hvw, if_false, not_false_eq_true, and_true]
        exact h.ends m v hm
    · simp only [hends, hmn, false_and, not_false_eq_true, and_true]
      simp only [Sys.setPipe, Function.update_of_ne hmn]
      exact h.ends m v hm
  · by_cases hmn : m = n
    · subst hmn
      simp only [Sys.setPipe, Function.update_self, Pipe.all_closed, Pipe.isOpen_shut]
      have hopen : (s.pipe m).isOpen w = true := (h.ends m w hm).mpr ⟨f, hend⟩
      have hzero : (s.pipe m).freed = 0 := by
        rw [h.freed m hm, if_neg]
        rw [Pipe.all_closed]
        intro hall
        rw [hall w] at hopen
        cases hopen
      simp only [← Pipe.isOpen_closed, ← Pipe.all_closed]
      unfold Pipe.shut
      split
      · simp [Pipe.freed_closed, hzero]
      · simp [Pipe.freed_closed, hzero]
    · simp only [Sys.setPipe, Function.update_of_ne hmn]
      exact h.freed m hm

/-- **A pipe is made**, with two files that are not open yet as its ends. -/
theorem Ok.newPipe (h : Ok X s) (hfg : f ≠ g) (hf : (s.ftable f).type = .none)
    (hg : (s.ftable g).type = .none) (hfr : 0 < (s.ftable f).ref) (hgr : 0 < (s.ftable g).ref)
    {x y : File ι} (hx : x.ref = (s.ftable f).ref ∧ x.type = .pipe ∧ x.pipe = s.npipe ∧
      x.writable = false)
    (hy : y.ref = (s.ftable g).ref ∧ y.type = .pipe ∧ y.pipe = s.npipe ∧ y.writable = true) :
    Ok X (({ s.setPipe s.npipe ⟨true, true, 0⟩ with npipe := s.npipe + 1 }.setFile f x).setFile g y) := by
  set t := ({ s.setPipe s.npipe ⟨true, true, 0⟩ with npipe := s.npipe + 1 }.setFile f x).setFile g y
    with ht
  have hold : ∀ k, k ≠ f → k ≠ g → t.ftable k = s.ftable k := by
    intro k hkf hkg
    simp [ht, Sys.setFile, Sys.setPipe, hkf, hkg]
  have htf : t.ftable f = x := by simp [ht, Sys.setFile, hfg]
  have htg : t.ftable g = y := by simp [ht, Sys.setFile]
  -- the ends are those there were, and the two new ones
  have hends : ∀ k m w, (t.ftable k).End m w ↔ (s.ftable k).End m w ∨
      m = s.npipe ∧ (k = f ∧ w = false ∨ k = g ∧ w = true) := by
    intro k m w
    by_cases hkf : k = f
    · subst hkf
      rw [htf]
      simp only [File.End, hx, hf, hfr, true_and, hfg, false_and, or_false, reduceCtorEq, false_or,
        and_false, eq_comm]
    · by_cases hkg : k = g
      · subst hkg
        rw [htg]
        simp only [File.End, hy, hg, hgr, true_and, hkf, false_and, false_or, reduceCtorEq,
          and_false, eq_comm]
      · rw [hold k hkf hkg]
        simp [hkf, hkg]
  have hnew : ∀ k w, ¬ (s.ftable k).End s.npipe w := fun k w hk =>
    lt_irrefl _ (h.known k s.npipe w hk)
  have href : ∀ k, (t.ftable k).ref = (s.ftable k).ref := by
    intro k
    by_cases hkf : k = f
    · rw [hkf, htf, hx.1]
    · by_cases hkg : k = g
      · rw [hkg, htg, hy.1]
      · rw [hold k hkf hkg]
  refine ⟨fun k => ?_, fun k hk => ?_, h.gone, fun k m w hk => ?_, fun m w hm => ?_,
    fun k k' m w hk hk' => ?_, fun m hm => ?_⟩
  · rw [href, h.ref k]
    rfl
  · rw [href] at hk
    have hkf : k ≠ f := by
      rintro rfl
      omega
    have hkg : k ≠ g := by
      rintro rfl
      omega
    rw [hold k hkf hkg]
    exact h.free k hk
  · have hm : m < s.npipe ∨ m = s.npipe := by
      rcases (hends k m w).mp hk with hk | hk
      · exact .inl (h.known k m w hk)
      · exact .inr hk.1
    exact Nat.lt_succ_iff_lt_or_eq.mpr hm
  · rw [exists_congr fun k => hends k m w]
    rcases Nat.lt_succ_iff_lt_or_eq.mp hm with hm | rfl
    · have hne : m ≠ s.npipe := by omega
      simp only [hne, false_and, or_false]
      rw [← h.ends m w hm]
      simp [ht, Sys.setFile, Sys.setPipe, hne]
    · have hopen : (t.pipe s.npipe).isOpen w = true := by
        cases w <;> simp [ht, Sys.setFile, Sys.setPipe, Pipe.isOpen]
      simp only [hopen, true_iff]
      cases w
      · exact ⟨f, .inr ⟨trivial, .inl ⟨rfl, rfl⟩⟩⟩
      · exact ⟨g, .inr ⟨trivial, .inr ⟨rfl, rfl⟩⟩⟩
  · rw [hends] at hk hk'
    rcases hk with hk | ⟨hm, hk⟩
    · rcases hk' with hk' | ⟨hm, -⟩
      · exact h.once k k' m w hk hk'
      · exact absurd (hm ▸ hk) (hnew k w)
    · rcases hk' with hk' | ⟨-, hk'⟩
      · exact absurd (hm ▸ hk') (hnew k' w)
      · rcases hk with ⟨hk, hw⟩ | ⟨hk, hw⟩
        · rcases hk' with ⟨hk', -⟩ | ⟨-, hw'⟩
          · rw [hk, hk']
          · exact absurd (hw.symm.trans hw') (by decide)
        · rcases hk' with ⟨-, hw'⟩ | ⟨hk', -⟩
          · exact absurd (hw.symm.trans hw') (by decide)
          · rw [hk, hk']
  · rcases Nat.lt_succ_iff_lt_or_eq.mp hm with hm | rfl
    · have hne : m ≠ s.npipe := by omega
      have := h.freed m hm
      simpa [ht, Sys.setFile, Sys.setPipe, hne] using this
    · simp [ht, Sys.setFile, Sys.setPipe]

end Ok

/-! ### The functions keep the counts -/

section Functions
variable {s : Sys ι} {X : FileNo → Int} {E : Stop → Prop} {p np : Slot} {f : FileNo}

/-- `X` with `d` more references to `f`. -/
def more (X : FileNo → Int) (f : FileNo) (d : Int) (g : FileNo) : Int :=
  X g + if g = f then d else 0

theorem more_self (X : FileNo → Int) (f : FileNo) (d : Int) : more X f d f = X f + d := by
  simp [more]

theorem more_of_ne {g : FileNo} (h : g ≠ f) (X : FileNo → Int) (d : Int) : more X f d g = X g := by
  simp [more, h]

theorem unit_some (f g : FileNo) : unit (some f) g = if g = f then 1 else 0 := by
  simp [unit, eq_comm]

theorem unit_none (g : FileNo) : unit none g = 0 := rfl

theorem filealloc_wp (h : Ok X s) : Wp filealloc s E fun r s' => match r with
    | none => s' = s
    | some f => Ok (more X f 1) s' ∧ (s.ftable f).ref = 0 ∧ s'.proc = s.proc ∧
        (s'.ftable f).ref = 1 ∧ (s'.ftable f).type = .none ∧
        ∀ g ≠ f, s'.ftable g = s.ftable g := by
  simp only [filealloc, wp_bind, wp_gets]
  split
  · exact wp_pure.mpr rfl
  · rename_i f hf
    have href : (s.ftable f).ref = 0 := by simpa using List.find?_some hf
    have htype := h.free f href
    simp only [wp_bind, wp_modify, wp_pure]
    refine ⟨h.setFile (fun n w => ?_) (by simp) (fun g => ?_), href, rfl, by simp [Sys.setFile],
      by simpa [Sys.setFile] using htype, fun g hg => by simp [Sys.setFile, hg]⟩
    · simp [File.End, htype]
    · rw [more, href]
      rfl

theorem filedup_wp (h : Ok X s) (href : 1 ≤ (s.ftable f).ref) :
    Wp (filedup f) s E fun _ s' => Ok (more X f 1) s' ∧ s'.proc = s.proc := by
  simp only [filedup, wp_bind, wp_gets]
  rw [if_neg (by omega)]
  refine wp_modify.mpr ⟨h.setFile (fun n w => ?_) (fun h0 => ?_) (fun g => ?_), rfl⟩
  · simp only [File.End]
    have : (0 < (s.ftable f).ref + 1 ↔ 0 < (s.ftable f).ref) := by omega
    rw [this]
  · simp only at h0
    omega
  · rw [more]
    dsimp only
    split <;> omega

theorem pipeclose_eq (n : Nat) (w : Bool) : Wp (pipeclose n w) s E fun _ s' =>
    s' = s.setPipe n ((s.pipe n).shut w) := by
  simp only [pipeclose, wp_bind, wp_modify, wp_gets]
  split
  · rename_i hclosed
    refine wp_modify.mpr ?_
    simp only [Sys.setPipe, Function.update_self, Function.update_idem] at hclosed ⊢
    rw [Pipe.shut, if_pos hclosed]
  · rename_i hopen
    refine wp_pure.mpr ?_
    simp only [Sys.setPipe, Function.update_self] at hopen ⊢
    rw [Pipe.shut, if_neg hopen]

/-- **`fileclose`** gives one reference up. -/
theorem fileclose_wp (h : Ok X s) (href : 1 ≤ (s.ftable f).ref) :
    Wp (fileclose f) s E fun _ s' => Ok (more X f (-1)) s' ∧ s'.proc = s.proc := by
  simp only [fileclose, wp_bind, wp_gets]
  rw [if_neg (by omega)]
  split
  · rename_i hmore
    refine wp_modify.mpr ⟨h.setFile (fun n w => ?_) (fun h0 => ?_) (fun g => ?_), rfl⟩
    · simp only [File.End]
      have : (0 < (s.ftable f).ref - 1 ↔ 0 < (s.ftable f).ref) := by omega
      rw [this]
    · simp only at h0
      omega
    · rw [more]
      dsimp only
      split <;> omega
  · rename_i hlast
    have hone : (s.ftable f).ref = 1 := by omega
    simp only [wp_bind, wp_modify]
    -- a file that is not a pipe's is the end of none
    have hplain : (s.ftable f).type ≠ .pipe →
        Ok (more X f (-1)) (s.setFile f { s.ftable f with ref := 0, type := .none }) := by
      intro htype
      refine h.setFile (fun n w => ?_) (fun _ => rfl) (fun g => ?_)
      · simp [File.End, htype]
      · rw [more, hone]
        rfl
    split
    · rename_i htype
      refine (pipeclose_eq _ _).post ?_
      rintro - s' rfl
      refine ⟨h.closeEnd ⟨by omega, htype, rfl, rfl⟩ rfl rfl (fun g => ?_), rfl⟩
      rw [more, hone]
    · rename_i htype
      exact wp_pure.mpr ⟨hplain (by rw [htype]; decide), rfl⟩
    · rename_i htype
      exact wp_pure.mpr ⟨hplain (by rw [htype]; decide), rfl⟩

theorem fdalloc_wp (h : Ok X s) (hp : ¬ (s.proc p).Gone) :
    Wp (fdalloc p f) s E fun r s' => match r with
      | none => s' = s
      | some fd => Ok (more X f (-1)) s' ∧ (s.proc p).ofile fd = none ∧
          s' = s.setFd p fd (some f) := by
  simp only [fdalloc, wp_bind, wp_gets]
  split
  · exact wp_pure.mpr rfl
  · rename_i fd hfd
    have hnone : (s.proc p).ofile fd = none := by simpa using List.find?_some hfd
    simp only [wp_bind, wp_modify, wp_pure]
    refine ⟨h.setFd hp fun g => ?_, hnone, trivial⟩
    rw [hnone, unit_none, unit_some, more]
    split <;> omega

/-- The counts depend on what is in hand only. -/
theorem Ok.congr {X' : FileNo → Int} (h : Ok X s) (hX : ∀ g, X' g = X g) : Ok X' s := by
  rwa [show X' = X from funext hX]

theorem Ok.ref_pos (h : Ok X s) (hX : 0 < X f) : 1 ≤ (s.ftable f).ref := by
  have := h.ref f
  have := refs_nonneg (s := s) (f := f)
  omega

theorem Ok.ref_pos_of_ofile (h : Ok X s) (hX : 0 ≤ X f) {fd : Fin nofile}
    (hfd : (s.proc p).ofile fd = some f) : 1 ≤ (s.ftable f).ref := by
  have := h.ref f
  have := refs_pos hfd
  omega

theorem more_neg (X : FileNo → Int) (f : FileNo) : more (more X f 1) f (-1) = X := by
  funext g
  simp only [more]
  split <;> omega

/-- **`pipealloc`.** -/
theorem pipealloc_wp (h : Ok X s) (hX : ∀ g, 0 ≤ X g) (page : Bool) :
    Wp (pipealloc page) s E fun r s' => s'.proc = s.proc ∧ match r with
      | none => Ok X s'
      | some (rf, wf) => Ok (more (more X rf 1) wf 1) s' ∧ rf ≠ wf := by
  rw [pipealloc]
  refine (filealloc_wp h).bind ?_
  rintro (_ | f0) s₁
  · rintro rfl
    exact wp_pure.mpr ⟨rfl, h⟩
  rintro ⟨h₁, href₀, hproc₁, href₁, htype₁, hrest₁⟩
  refine (filealloc_wp h₁).bind ?_
  rintro (_ | f1) s₂
  · rintro rfl
    refine (fileclose_wp h₁ (by omega)).bind ?_
    rintro - s₃ ⟨h₃, hproc₃⟩
    rw [more_neg] at h₃
    exact wp_pure.mpr ⟨hproc₃.trans hproc₁, h₃⟩
  rintro ⟨h₂, href₂, hproc₂, href₃, htype₃, hrest₂⟩
  have hne : f0 ≠ f1 := by
    rintro rfl
    omega
  have hf0 := hrest₂ f0 hne
  dsimp only
  split
  · simp only [wp_bind, wp_modify, wp_pure]
    refine ⟨hproc₂.trans hproc₁, ?_, hne⟩
    refine h₂.newPipe hne (by rw [hf0]; exact htype₁) htype₃ (by rw [hf0]; omega) (by omega)
      ⟨rfl, rfl, rfl, rfl⟩ ⟨?_, rfl, rfl, rfl⟩
    simp [Sys.setFile, Sys.setPipe, hne.symm]
  · refine (fileclose_wp h₂ (by rw [hf0]; omega)).bind ?_
    rintro - s₃ ⟨h₃, hproc₃⟩
    refine (fileclose_wp h₃ (h₃.ref_pos ?_)).bind ?_
    · rw [more_of_ne hne.symm, more_self, more_of_ne hne.symm]
      have := hX f1
      omega
    · rintro - s₄ ⟨h₄, hproc₄⟩
      refine wp_pure.mpr ⟨hproc₄.trans (hproc₃.trans (hproc₂.trans hproc₁)), h₄.congr fun g => ?_⟩
      simp only [more]
      split <;> split <;> omega

/-- Nothing in hand. -/
def nothing (_ : FileNo) : Int := 0

theorem argfd_eq_some {x : Proc} {k : Int} {fd : Fin nofile} (h : argfd x k = some (fd, f)) :
    x.ofile fd = some f := by
  unfold argfd at h
  split at h
  · obtain ⟨g, hg, heq⟩ := Option.map_eq_some_iff.mp h
    cases heq
    exact hg
  · cases h

theorem sys_dup_wp (h : Ok nothing s) (hp : ¬ (s.proc p).Gone) (fd : Int) :
    Wp (sys_dup p fd) s E fun _ s' => Ok nothing s' := by
  simp only [sys_dup, wp_bind, wp_gets]
  split
  · exact wp_pure.mpr h
  · rename_i fd f hfd
    have hof := argfd_eq_some hfd
    have href := h.ref_pos_of_ofile le_rfl hof
    refine (fdalloc_wp h hp).bind ?_
    rintro (_ | k) s₁
    · rintro rfl
      exact wp_pure.mpr h
    · rintro ⟨h₁, -, rfl⟩
      refine (filedup_wp h₁ href).bind ?_
      rintro - s₂ ⟨h₂, -⟩
      refine wp_pure.mpr (h₂.congr fun g => ?_)
      simp only [more, nothing]
      split <;> omega

theorem sys_close_wp (h : Ok nothing s) (hp : ¬ (s.proc p).Gone) (fd : Int) :
    Wp (sys_close p fd) s E fun _ s' => Ok nothing s' := by
  simp only [sys_close, wp_bind, wp_gets]
  split
  · exact wp_pure.mpr h
  · rename_i fd f hfd
    have hof := argfd_eq_some hfd
    have href := h.ref_pos_of_ofile le_rfl hof
    simp only [wp_bind, wp_modify]
    have h₁ : Ok (more nothing f 1) (s.setFd p fd none) := by
      refine h.setFd hp fun g => ?_
      rw [hof, unit_none, unit_some, more, Int.sub_zero]
    refine (fileclose_wp h₁ href).post ?_
    rintro - s₂ ⟨h₂, -⟩
    rw [more_neg] at h₂
    exact wp_pure.mpr h₂

theorem sys_open_wp (h : Ok nothing s) (hp : ¬ (s.proc p).Gone) (found : Option ι) (omode : UInt32) :
    Wp (sys_open p found omode) s E fun _ s' => Ok nothing s' := by
  cases found with
  | none => exact wp_pure.mpr h
  | some ip =>
    rw [sys_open]
    refine (filealloc_wp h).bind ?_
    rintro (_ | f) s₁
    · rintro rfl
      exact wp_pure.mpr h
    rintro ⟨h₁, -, hproc₁, href₁, htype₁, -⟩
    refine (fdalloc_wp h₁ (by rw [hproc₁]; exact hp)).bind ?_
    rintro (_ | fd) s₂
    · rintro rfl
      refine (fileclose_wp h₁ (by omega)).bind ?_
      rintro - s₃ ⟨h₃, -⟩
      rw [more_neg] at h₃
      exact wp_pure.mpr h₃
    · rintro ⟨h₂, -, rfl⟩
      rw [more_neg] at h₂
      simp only [wp_bind, wp_modify, wp_pure]
      have htype : ((s₁.setFd p fd (some f)).ftable f).type = .none := htype₁
      have href : ((s₁.setFd p fd (some f)).ftable f).ref = 1 := href₁
      refine h₂.setFile (fun n w => ?_) (fun h0 => ?_) (fun g => ?_)
      · simp [File.End, htype]
      · dsimp only at h0
        omega
      · simp

theorem sys_pipe_wp (h : Ok nothing s) (hp : ¬ (s.proc p).Gone) (page : Bool) :
    Wp (sys_pipe p page) s E fun _ s' => Ok nothing s' := by
  rw [sys_pipe]
  refine (pipealloc_wp h (fun _ => le_rfl) page).bind ?_
  rintro (_ | ⟨rf, wf⟩) s₁ ⟨hproc₁, h₁⟩
  · exact wp_pure.mpr h₁
  obtain ⟨h₁, hne⟩ := h₁
  have hp₁ : ¬ (s₁.proc p).Gone := by
    rw [hproc₁]
    exact hp
  -- both ends are closed when there is no room for the descriptors
  have hclose : ∀ s₂ : Sys ι, Ok (more (more nothing rf 1) wf 1) s₂ →
      Wp (do fileclose rf; fileclose wf; pure (-1) : M ι Int) s₂ E fun _ s' => Ok nothing s' := by
    intro s₂ h₂
    refine (fileclose_wp h₂ (h₂.ref_pos ?_)).bind ?_
    · rw [more_of_ne hne, more_self]
      simp [nothing]
    rintro - s₃ ⟨h₃, -⟩
    refine (fileclose_wp h₃ (h₃.ref_pos ?_)).bind ?_
    · rw [more_of_ne hne.symm, more_self, more_of_ne hne.symm]
      simp [nothing]
    rintro - s₄ ⟨h₄, -⟩
    refine wp_pure.mpr (h₄.congr fun g => ?_)
    simp only [more, nothing]
    split <;> split <;> omega
  refine (fdalloc_wp h₁ hp₁).bind ?_
  rintro (_ | fd0) s₂
  · rintro rfl
    exact hclose s₂ h₁
  rintro ⟨h₂, hnone, rfl⟩
  have hp₂ : ¬ ((s₁.setFd p fd0 (some rf)).proc p).Gone := by
    simpa [Sys.setFd, Sys.setProc, Proc.Gone] using hp₁
  refine (fdalloc_wp h₂ hp₂).bind ?_
  rintro (_ | fd1) s₃
  · rintro rfl
    refine (wp_modify.mpr ?_ : Wp _ _ _ fun _ s' => Ok (more (more nothing rf 1) wf 1) s').bind
      fun _ s' h' => hclose s' h'
    refine h₂.setFd hp₂ fun g => ?_
    have hfd : ((s₁.setFd p fd0 (some rf)).proc p).ofile fd0 = some rf := by
      simp [Sys.setFd, Sys.setProc]
    rw [hfd, unit_none, unit_some]
    simp only [more, nothing]
    split <;> split <;> omega
  · rintro ⟨h₃, -, rfl⟩
    refine wp_pure.mpr (h₃.congr fun g => ?_)
    simp only [more, nothing]
    split <;> split <;> omega

/-- **`fork`'s loop**: the child has nothing open yet in the descriptors still to come. -/
theorem copyFds_wp (h : Ok nothing s) (hnp : (s.proc np).state = .embryo)
    (hempty : (s.proc np).Empty) :
    Wp (forEach (List.finRange nofile) (copyFd p np)) s E fun _ s' =>
      Ok nothing s' ∧ (s'.proc np).state = .embryo := by
  refine (wp_forEach (I := fun done s' => Ok nothing s' ∧ (s'.proc np).state = .embryo ∧
    ∀ i ∉ done, (s'.proc np).ofile i = none) ?_ ⟨h, hnp, fun i _ => hempty i⟩).post ?_
  · rintro done i rest s₁ hlist ⟨h₁, hst, hnone⟩
    have hi : i ∉ done := by
      have hnodup : (done ++ i :: rest).Nodup := hlist ▸ List.nodup_finRange nofile
      intro hmem
      exact (List.nodup_append.mp hnodup).2.2 i hmem i (by simp) rfl
    simp only [copyFd, wp_bind, wp_gets]
    split
    · exact wp_pure.mpr ⟨h₁, hst, fun k hk => hnone k fun hk' => hk (by simp [hk'])⟩
    · rename_i f hf
      refine (filedup_wp h₁ (h₁.ref_pos_of_ofile le_rfl hf)).bind ?_
      rintro - s₂ ⟨h₂, hproc⟩
      refine wp_modify.mpr ⟨h₂.setFd ?_ fun g => ?_, ?_, fun k hk => ?_⟩
      · simp [Proc.Gone, hproc, hst]
      · rw [hproc, hnone i hi, unit_none, unit_some]
        simp only [more, nothing]
        split <;> omega
      · simpa [Sys.setFd, Sys.setProc, hproc] using hst
      · have hki : k ≠ i := by
          rintro rfl
          exact hk (by simp)
        simp only [Sys.setFd, Sys.setProc, Function.update_self, Function.update_of_ne hki, hproc]
        exact hnone k fun hk' => hk (by simp [hk'])
  · rintro - s' ⟨h', hst, -⟩
    exact ⟨h', hst⟩

theorem fork_wp (h : Ok nothing s) (kstack pgdir : Bool) :
    Wp (fork p kstack pgdir) s E fun _ s' => Ok nothing s' := by
  simp only [fork, wp_bind, wp_gets]
  split
  · exact wp_pure.mpr h
  · rename_i np hnp
    have hun : (s.proc np).state = .unused := by simpa using List.find?_some hnp
    have hempty : (s.proc np).Empty := h.gone np (.inl hun)
    simp only [wp_bind, wp_modify]
    have h₁ : Ok nothing (s.setProc np { s.proc np with state := .embryo }) :=
      h.setProc rfl fun _ => hempty
    split
    · simp only [wp_bind, wp_modify]
      have h₂ := h₁.setProc (p := np) (x := { (s.setProc np { s.proc np with state := .embryo }).proc np
        with parent := some p }) rfl (fun _ fd => by simpa [Sys.setProc] using hempty fd)
      refine (copyFds_wp h₂ (by simp [Sys.setProc])
        (fun fd => by simpa [Sys.setProc] using hempty fd)).post ?_
      rintro - s' ⟨h', hst⟩
      refine wp_pure.mpr (h'.setProc rfl fun hg => ?_)
      simp [Proc.Gone] at hg
    · simp only [wp_bind, wp_modify, wp_pure]
      exact h₁.setProc rfl fun _ fd => by simpa [Sys.setProc] using hempty fd

/-- **`exit`'s loop** closes every descriptor. -/
theorem exitCloses_wp (h : Ok nothing s) (hp : ¬ (s.proc p).Gone) :
    Wp (forEach (List.finRange nofile) (exitClose p)) s E fun _ s' =>
      Ok nothing s' ∧ (s'.proc p).Empty := by
  refine (wp_forEach (I := fun done s' => Ok nothing s' ∧ ¬ (s'.proc p).Gone ∧
    ∀ i ∈ done, (s'.proc p).ofile i = none) ?_ ⟨h, hp, nofun⟩).post ?_
  · rintro done i rest s₁ - ⟨h₁, hp₁, hnone⟩
    simp only [exitClose, wp_bind, wp_gets]
    split
    · rename_i hi
      refine wp_pure.mpr ⟨h₁, hp₁, fun k hk => ?_⟩
      rcases List.mem_append.mp hk with hk | hk
      · exact hnone k hk
      · rw [List.mem_singleton.mp hk]
        exact hi
    · rename_i f hf
      refine (fileclose_wp h₁ (h₁.ref_pos_of_ofile le_rfl hf)).bind ?_
      rintro - s₂ ⟨h₂, hproc⟩
      refine wp_modify.mpr ⟨h₂.setFd (by rw [hproc]; exact hp₁) fun g => ?_, ?_, fun k hk => ?_⟩
      · rw [hproc, hf, unit_none, unit_some]
        simp only [more, nothing]
        split <;> omega
      · simpa [Sys.setFd, Sys.setProc, Proc.Gone, hproc] using hp₁
      · simp only [Sys.setFd, Sys.setProc, Function.update_self, hproc]
        by_cases hki : k = i
        · rw [hki, Function.update_self]
        · rw [Function.update_of_ne hki]
          exact hnone k ((List.mem_append.mp hk).resolve_right (by simpa using hki))
  · rintro - s' ⟨h', -, hnone⟩
    exact ⟨h', fun i => hnone i (List.mem_finRange i)⟩

/-- Parents change. -/
theorem Ok.reparent (h : Ok X s) {par : Slot → Option Slot} :
    Ok X { s with proc := fun q => { s.proc q with parent := par q } } :=
  ⟨h.ref, h.free, h.gone, h.known, h.ends, h.once, h.freed⟩

theorem exit_wp (h : Ok nothing s) (hp : ¬ (s.proc p).Gone) :
    Wp (exit p) s (· = .initExiting) fun _ s' => Ok nothing s' := by
  simp only [exit, wp_bind, wp_gets]
  split
  · exact wp_stop.mpr rfl
  · simp only [wp_bind, wp_modify, wp_pure]
    refine (exitCloses_wp h hp).post ?_
    rintro - s₁ ⟨h₁, hempty⟩
    exact h₁.reparent.setProc rfl fun _ => hempty

theorem wait_wp (h : Ok nothing s) : Wp (wait p) s E fun _ s' => Ok nothing s' := by
  simp only [wait, wp_bind, wp_gets]
  split
  · exact wp_pure.mpr h
  · rename_i z hz
    have hzombie : (s.proc z).state = .zombie := by
      have := List.find?_some hz
      simp only [Bool.and_eq_true, decide_eq_true_eq] at this
      exact this.2
    simp only [wp_bind, wp_modify, wp_pure]
    exact h.setProc rfl fun _ => h.gone z (.inr hzombie)

/-- **A call keeps the counts exact** and stops in no way but that `init` exits. -/
theorem run_wp (h : Ok nothing s) (hp : ¬ (s.proc p).Gone) (call : Call ι) :
    Wp (call.run p) s (· = .initExiting) fun _ s' => Ok nothing s' := by
  cases call with
  | «open» found omode => exact sys_open_wp h hp found omode
  | pipe page => exact sys_pipe_wp h hp page
  | dup fd => exact sys_dup_wp h hp fd
  | close fd => exact sys_close_wp h hp fd
  | fork kstack pgdir => exact fork_wp h kstack pgdir
  | exit => exact exit_wp h hp
  | wait => exact wait_wp h

end Functions

/-! ### Every sequence of calls -/

section Main
variable {s s' : Sys ι} {es : List (Slot × Call ι)}

theorem Proc.not_gone {x : Proc} (h : x.alive = true) : ¬ x.Gone := by
  rintro (hx | hx) <;> simp [Proc.alive, hx] at h

theorem Ok.step (h : Ok nothing s) {e : Slot × Call ι} (hs : step s e = some s') :
    Ok nothing s' := by
  unfold Table.step at hs
  split at hs
  · rename_i halive
    split at hs
    · rename_i r s₁ hrun
      cases hs
      exact (run_wp h (Proc.not_gone halive) e.2).of_eq_ok hrun
    · cases hs
  · cases hs

theorem ok_boot : Ok nothing (boot ι) := by
  refine ⟨fun f => ?_, fun _ _ => rfl, fun _ _ _ => rfl, fun f n w hf => ?_, fun n w hn => ?_,
    fun f g n w hf => ?_, fun n hn => ?_⟩
  · rw [nothing, Sys.refs, count, Finset.sum_eq_zero fun x _ => if_neg (by simp [Sys.descriptors, boot])]
    rfl
  · exact absurd hf.1 (lt_irrefl 0)
  · exact absurd hn (Nat.not_lt_zero n)
  · exact absurd hf.1 (lt_irrefl 0)
  · exact absurd hn (Nat.not_lt_zero n)

/-- **Open-file references are exact.**  After every sequence of calls the count of a file is the
number of descriptors that stand for it, a file without references is `FD_NONE`, a slot without a
process or with a zombie has nothing open, an end of a pipe is open exactly while a file is that end,
the page of a pipe has been freed once if both ends are closed and not otherwise, and the next call
does not panic in `filedup` or `fileclose`. -/
theorem file_refs_exact (h : runs step (boot ι) es = some s) :
    (∀ f, (s.ftable f).ref = s.refs f ∧ ((s.ftable f).ref = 0 → (s.ftable f).type = .none)) ∧
    (∀ p, (s.proc p).state = .unused ∨ (s.proc p).state = .zombie →
      ∀ fd, (s.proc p).ofile fd = none) ∧
    (∀ n < s.npipe, ((s.pipe n).readopen = true ↔ ∃ f, (s.ftable f).End n false) ∧
      ((s.pipe n).writeopen = true ↔ ∃ f, (s.ftable f).End n true) ∧
      (s.pipe n).freed =
        if (s.pipe n).readopen = false ∧ (s.pipe n).writeopen = false then 1 else 0) ∧
    ∀ (p : Slot) (call : Call ι), (s.proc p).alive = true →
      call.run p s ≠ .error .filedup ∧ call.run p s ≠ .error .fileclose := by
  have hok : Ok nothing s := runs_inv_all (fun _ _ _ h hs => h.step hs) ok_boot h
  refine ⟨fun f => ⟨?_, hok.free f⟩, hok.gone,
    fun n hn => ⟨hok.ends n false hn, hok.ends n true hn, hok.freed n hn⟩, fun p call hp => ?_⟩
  · rw [hok.ref f]
    exact Int.add_zero _
  · have hrun := run_wp hok (Proc.not_gone hp) call
    refine ⟨fun he => ?_, fun he => ?_⟩
    · cases hrun.of_eq_error he
    · cases hrun.of_eq_error he

end Main

/-- The first process makes a pipe, forks, and closes the read end; the child exits and is waited
for. -/
def pipeAndFork : List (Slot × Call Unit) :=
  [(0, .pipe true), (0, .fork true true), (0, .close 0), (1, .exit), (0, .wait)]

theorem runs_pipeAndFork : (runs step (boot Unit) pipeAndFork).map
    (fun s => ((s.ftable ⟨1, by decide⟩).ref, s.npipe, s.pipe 0)) = some (1, 1, ⟨false, true, 0⟩) := by
  decide

/-- After `pipeAndFork` the parent's descriptor alone stands for the write end, which is open. -/
theorem pipeAndFork_refs : ∃ s, runs step (boot Unit) pipeAndFork = some s ∧ s.refs ⟨1, by decide⟩ = 1 ∧
    ∃ f, (s.ftable f).End 0 true := by
  obtain ⟨s, hs, heq⟩ := Option.map_eq_some_iff.mp runs_pipeAndFork
  simp only [Prod.mk.injEq] at heq
  obtain ⟨href, hn, hpipe⟩ := heq
  obtain ⟨hrefs, -, hpipes, -⟩ := file_refs_exact hs
  refine ⟨s, hs, (hrefs _).1.symm.trans href, ?_⟩
  exact (hpipes 0 (by omega)).2.1.mp (by rw [hpipe])

end Xv6.Table
