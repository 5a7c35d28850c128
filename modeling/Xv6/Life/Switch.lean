import Xv6.Life.Machine

/-!
# Life — switching between processes and schedulers

`scheduler()` and `sched()` on any number of CPUs, one step at a time.  A CPU executes either its
scheduler or a process, on that process's kernel stack (`Sys.on`); `proc`, its current process, is a
variable of its own (`Sys.cur`).  `swtch` is a step: between the step that changes a state and the
`swtch` that follows it, and between the `swtch` and the `release` in the thread it resumes, the CPU
keeps `ptable.lock`, which one thread acquires and another releases.

Where a thread stands is its `Pc` (a process) or its `SchedPc` (a scheduler).  A process that is not
executing stands where its saved context says, at the return of `swtch` in `sched` (`Pc.resume`), or
at `forkret` if it has not run yet.  What is written under the lock is in the steps of its holder;
`allocproc` and `fork` also write to the slot of the child without it.

The counters `ncli` and `intena` and the locks other than `ptable.lock` are left out: `sched`'s
checks of them are not among those modelled.
-/

namespace Xv6.Switch
open Lib
open Sched (Slot Table Proc ProcState Chan firstUnused nproc scan)
open Life (wakeup1 killSlot killTable exitTable zombieChild havekids)

/-! ### Threads -/

/-- Where a process stands while it has not got `ptable.lock`. -/
inductive Pos where
  | code
  /-- in `allocproc`, before `kalloc` -/
  | alloc (np : Slot)
  /-- in `fork`, with the slot `allocproc` returned -/
  | fork (np : Slot)
  /-- in `fork`, after `np->parent = proc` -/
  | forked (np : Slot)
  deriving DecidableEq, Repr

/-- Where `swtch` returns to in a process. -/
inductive Ret where
  | yield (k : Pos)
  | sleep
  /-- the `sleep` of `wait`, which keeps `ptable.lock` -/
  | wait
  | exit
  | forkret
  deriving DecidableEq, Repr

/-- Where a process stands. -/
inductive Pc where
  | free (k : Pos)
  /-- `yield`, `sleep`, `exit`, `wakeup`, `kill`: after `acquire(&ptable.lock)` -/
  | yield (k : Pos)
  | sleep (chan : Chan)
  | exit
  | wakeup (chan : Chan) (k : Pos)
  | kill (pid : Int32)
  /-- the head of `wait`'s loop -/
  | wait
  /-- `allocproc`, at its loop -/
  | alloc
  /-- `fork`, before `np->state = RUNNABLE` -/
  | ready (np : Slot)
  /-- at `sched()`, with the state changed -/
  | sched (r : Ret)
  /-- at the return of `swtch` -/
  | resume (r : Ret)
  /-- before `release(&ptable.lock)` -/
  | release (k : Pos)
  deriving DecidableEq, Repr

/-- Where `scheduler()`, or an interrupt handler on its stack, stands. -/
inductive SchedPc where
  | free
  /-- after `acquire(&ptable.lock)`, with the ticket drawn -/
  | scan (winning : Int32)
  /-- after `proc = p` -/
  | picked (p : Slot)
  /-- after `p->state = RUNNING` -/
  | swtch (p : Slot)
  /-- at the return of `swtch` -/
  | back
  | wakeup (chan : Chan)
  | release
  deriving DecidableEq, Repr

inductive Panic where
  | initExiting
  | schedLock
  | schedRunning
  | zombieExit
  deriving DecidableEq, Repr

/-! ### The system -/

structure Sys (C : Type) where
  proc : Table
  nextpid : Int32
  initproc : Slot
  /-- the CPU that has `ptable.lock` -/
  lock : Option C
  pc : Slot → Pc
  /-- whether the slot has a kernel stack -/
  kstack : Slot → Bool
  sched : C → SchedPc
  cur : C → Option Slot
  on : C → Option Slot
  panic : Option Panic

/-- The state `userinit` leaves, with the CPUs in `scheduler()`. -/
def boot (C : Type) : Sys C where
  proc x := if x = 0 then (Proc.zero.alloc 1).ready else .zero
  nextpid := 2
  initproc := 0
  lock := none
  pc _ := .resume .forkret
  kstack x := x = 0
  sched _ := .free
  cur _ := none
  on _ := none
  panic := none

inductive Event (C : Type) where
  /-- `scheduler()` has drawn `winning` and acquires `ptable.lock` -/
  | scan (c : C) (winning : Int32)
  /-- the process on `c` acquires `ptable.lock` in one of these functions -/
  | yield (c : C)
  | sleep (c : C) (chan : Chan)
  | exit (c : C)
  | wait (c : C)
  | kill (c : C) (pid : Int32)
  | alloc (c : C)
  | ready (c : C)
  /-- a process, or an interrupt handler on any stack, calls `wakeup` -/
  | wakeup (c : C) (chan : Chan)
  /-- `allocproc` asks for a kernel stack -/
  | kalloc (c : C) (ok : Bool)
  /-- `fork` copies the page table -/
  | copyuvm (c : C) (ok : Bool)
  /-- the thread on `c`, which has `ptable.lock`, takes its next step -/
  | go (c : C)
  deriving Repr

variable {C : Type}

section Model
variable [DecidableEq C]

namespace Sys

def setProc (s : Sys C) (p : Slot) (f : Proc → Proc) : Sys C :=
  { s with proc := Function.update s.proc p (f (s.proc p)) }

def setPc (s : Sys C) (p : Slot) (pc : Pc) : Sys C := { s with pc := Function.update s.pc p pc }

def setSched (s : Sys C) (c : C) (pc : SchedPc) : Sys C :=
  { s with sched := Function.update s.sched c pc }

def setCur (s : Sys C) (c : C) (p : Option Slot) : Sys C :=
  { s with cur := Function.update s.cur c p }

/-- `swtch` on `c`, to the stack of a process or of the scheduler. -/
def swtch (s : Sys C) (c : C) (p : Option Slot) : Sys C := { s with on := Function.update s.on c p }

/-- `p->kstack`, `0` or a page. -/
def setStack (s : Sys C) (p : Slot) (b : Bool) : Sys C :=
  { s with kstack := Function.update s.kstack p b }

/-- The process on `c` acquires `ptable.lock` and moves from `k` to `f k`, if it does. -/
def acquire (s : Sys C) (c : C) (f : Pos → Option Pc) : Option (Sys C) :=
  match s.on c with
  | some p =>
      match s.pc p with
      | .free k =>
          if s.lock = none then (f k).map fun pc => { s with lock := some c }.setPc p pc else none
      | _ => none
  | none => none

/-- The scheduler of `c` acquires `ptable.lock`. -/
def acquireSched (s : Sys C) (c : C) (pc : SchedPc) : Option (Sys C) :=
  if s.on c = none ∧ s.sched c = .free ∧ s.lock = none then
    some ({ s with lock := some c }.setSched c pc)
  else none

/-- A round of `wait`'s loop. -/
def waitRound (s : Sys C) (p : Slot) : Sys C :=
  match zombieChild s.proc p with
  | some z => ((s.setStack z false).setProc z (·.reap)).setPc p (.release .code)
  | none =>
      if !havekids s.proc p || (s.proc p).killed then s.setPc p (.release .code)
      else (s.setProc p (·.sleep (.proc p))).setPc p (.sched .wait)

/-- `allocproc`'s loop. -/
def allocproc (s : Sys C) (p : Slot) : Sys C :=
  match firstUnused s.proc with
  | some np =>
      { s.setProc np (·.alloc s.nextpid) with nextpid := s.nextpid + 1 }.setPc p
        (.release (.alloc np))
  | none => s.setPc p (.release .code)

/-- What follows the return of `swtch` in a process. -/
def resume (s : Sys C) (p : Slot) : Ret → Sys C
  | .yield k => s.setPc p (.release k)
  | .sleep => (s.setProc p ({ · with chan := .null })).setPc p (.release .code)
  | .wait => (s.setProc p ({ · with chan := .null })).setPc p .wait
  | .exit => { s with panic := some .zombieExit }
  | .forkret => s.setPc p (.release .code)

/-- `sched()` of `p` on `c`. -/
def enter (s : Sys C) (c : C) (p : Slot) (r : Ret) : Sys C :=
  if s.lock ≠ some c then { s with panic := some .schedLock }
  else if (s.proc p).state = .running then { s with panic := some .schedRunning }
  else (s.setPc p (.resume r)).swtch c none

/-- The next step of the process `p` on `c`. -/
def goProc (s : Sys C) (c : C) (p : Slot) : Pc → Option (Sys C)
  | .free _ => none
  | .yield k => some ((s.setProc p (·.yield)).setPc p (.sched (.yield k)))
  | .sleep chan => some ((s.setProc p (·.sleep chan)).setPc p (.sched .sleep))
  | .exit => some ({ s with proc := exitTable s.initproc p s.proc }.setPc p (.sched .exit))
  | .wakeup chan k => some ({ s with proc := wakeup1 s.proc chan }.setPc p (.release k))
  | .kill pid => some ({ s with proc := killTable s.proc pid }.setPc p (.release .code))
  | .wait => some (s.waitRound p)
  | .alloc => some (s.allocproc p)
  | .ready np => some ((s.setProc np (·.ready)).setPc p (.release .code))
  | .sched r => some (s.enter c p r)
  | .resume r => some (s.resume p r)
  | .release k => some ({ s with lock := none }.setPc p (.free k))

/-- The next step of the scheduler of `c`. -/
def goSched (s : Sys C) (c : C) : SchedPc → Option (Sys C)
  | .free => none
  | .scan winning =>
      match scan s.proc winning with
      | some p => some ((s.setCur c (some p)).setSched c (.picked p))
      | none => some (s.setSched c .release)
  | .picked p => some ((s.setProc p (·.chosen)).setSched c (.swtch p))
  | .swtch p => some ((s.swtch c (some p)).setSched c .back)
  | .back => some ((s.setCur c none).setSched c .release)
  | .wakeup chan => some ({ s with proc := wakeup1 s.proc chan }.setSched c .release)
  | .release => some ({ s with lock := none }.setSched c .free)

/-- The process on `c`, in the position `f` accepts. -/
def outside (s : Sys C) (c : C) (f : Slot → Pos → Option (Sys C)) : Option (Sys C) :=
  match s.on c with
  | some p =>
      match s.pc p with
      | .free k => f p k
      | _ => none
  | none => none

end Sys

/-- What an event does, if it can happen; a panic stops the machine. -/
def next (s : Sys C) : Event C → Option (Sys C)
  | .scan c winning => s.acquireSched c (.scan winning)
  | .yield c => s.acquire c fun k => some (.yield k)
  | .sleep c chan => s.acquire c fun k => if k = .code then some (.sleep chan) else none
  | .exit c =>
      if s.on c = some s.initproc then
        if s.pc s.initproc = .free .code then some { s with panic := some .initExiting } else none
      else s.acquire c fun k => if k = .code then some .exit else none
  | .wait c => s.acquire c fun k => if k = .code then some .wait else none
  | .kill c pid => s.acquire c fun k => if k = .code then some (.kill pid) else none
  | .alloc c => s.acquire c fun k => if k = .code then some .alloc else none
  | .ready c => s.acquire c fun
      | .forked np => some (.ready np)
      | _ => none
  | .wakeup c chan =>
      if s.on c = none then s.acquireSched c (.wakeup chan)
      else s.acquire c fun k => some (.wakeup chan k)
  | .kalloc c ok => s.outside c fun p k =>
      match k, ok with
      | .alloc np, true =>
          some (((s.setStack np true).setPc np (.resume .forkret)).setPc p (.free (.fork np)))
      | .alloc np, false =>
          some (((s.setStack np false).setProc np (·.unalloc)).setPc p (.free .code))
      | _, _ => none
  | .copyuvm c ok => s.outside c fun p k =>
      match k, ok with
      | .fork np, true =>
          some ((s.setProc np ({ · with parent := some p })).setPc p (.free (.forked np)))
      | .fork np, false =>
          some (((s.setStack np false).setProc np (·.unalloc)).setPc p (.free .code))
      | _, _ => none
  | .go c =>
      match s.on c with
      | some p => s.goProc c p (s.pc p)
      | none => s.goSched c (s.sched c)

def step (s : Sys C) (e : Event C) : Option (Sys C) := if s.panic = none then next s e else none

end Model

end Xv6.Switch
