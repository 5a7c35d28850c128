import Mathlib

/-!
# Sched — the process table

`proc.h`'s `struct proc` and the changes `proc.c` and `sysproc.c` make to one slot of the table,
each as a function of the slot.  Kept are the fields the scheduler and the process life cycle
read: `state`, `pid`, `parent`, `chan`, `killed` and `tickets`.  The memory image, the trap frame
and the open files of a process belong to other modules.

`int` is `Int32`: `tickets` and every sum of it wrap as the compiled code's do.
-/

namespace Xv6.Sched

/-- `NPROC`. -/
def nproc : Nat := 64

instance : NeZero nproc := ⟨by decide⟩

/-- A `struct proc *` into `ptable.proc`. -/
abbrev Slot := Fin nproc

/-- `enum procstate`. -/
inductive ProcState where
  | unused | embryo | sleeping | runnable | running | zombie
  deriving DecidableEq, Repr

/-- A `void *` passed to `sleep` and `wakeup`: nothing, the address of a slot (`wait` sleeps on
its own), or the address of another kernel object. -/
inductive Chan where
  | null
  | proc (p : Slot)
  | addr (a : Nat)
  deriving DecidableEq, Repr

/-- `struct proc`. -/
structure Proc where
  state : ProcState
  pid : Int32
  parent : Option Slot
  chan : Chan
  killed : Bool
  tickets : Int32
  deriving DecidableEq, Repr

/-- A slot of the zeroed table. -/
def Proc.zero : Proc := ⟨.unused, 0, none, .null, false, 0⟩

/-- The slots, indexed as `ptable.proc` is. -/
abbrev Table := Slot → Proc

/-- The tickets `allocproc` gives a process, and `sys_settickets` when its argument cannot be
fetched. -/
def defaultTickets : Int32 := 20

namespace Proc

/-- `allocproc`, at the slot it finds. -/
def alloc (p : Proc) (pid : Int32) : Proc :=
  { p with state := .embryo, pid := pid, tickets := defaultTickets }

/-- `allocproc` without a kernel stack, and `fork` without a page table, give the slot back. -/
def unalloc (p : Proc) : Proc := { p with state := .unused }

/-- `fork` fills in the slot and makes it runnable. -/
def forked (p : Proc) (parent : Slot) : Proc := { p with parent := some parent, state := .runnable }

/-- `userinit` makes its slot runnable. -/
def ready (p : Proc) : Proc := { p with state := .runnable }

/-- `scheduler` switches to the slot. -/
def chosen (p : Proc) : Proc := { p with state := .running }

/-- `yield`. -/
def yield (p : Proc) : Proc := { p with state := .runnable }

/-- `sleep`, before it enters the scheduler. -/
def sleep (p : Proc) (chan : Chan) : Proc := { p with chan := chan, state := .sleeping }

/-- The body of `wakeup1`'s loop. -/
def wake (p : Proc) (chan : Chan) : Proc :=
  if p.state = .sleeping ∧ p.chan = chan then { p with state := .runnable } else p

/-- `kill`, at the slot whose `pid` matches. -/
def kill (p : Proc) : Proc :=
  { p with killed := true, state := if p.state = .sleeping then .runnable else p.state }

/-- `exit`, at the slot of the process that exits, before it enters the scheduler. -/
def exit (p : Proc) : Proc := { p with state := .zombie }

/-- The body of the loop with which the exit of `dead` passes its children to `init`; the
`wakeup1` calls around it are events of their own. -/
def reparent (p : Proc) (dead : Slot) (init : Option Slot) : Proc :=
  if p.parent = some dead then { p with parent := init } else p

/-- `wait` frees the slot of a zombie child. -/
def reap (p : Proc) : Proc :=
  { p with state := .unused, pid := 0, parent := none, killed := false }

/-- `sys_settickets`; `none` is a failed `argint`. -/
def settickets (p : Proc) : Option Int32 → Proc
  | none => { p with tickets := defaultTickets }
  | some n => { p with tickets := n }

end Proc

end Xv6.Sched
