import Xv6.Lib.Runs

/-!
# Log — operations and group commit, on any number of processes

`begin_op`, `log_write`, `end_op` and `commit` of `log.c` as a state machine of the log's in-memory
state and of the processes that use it.

What a function does under `log.lock` is one step.  What it does without the lock is a step of its
own: the capacity test of `log_write` comes before its `acquire` (`Event.test`, then
`Event.append`), and `commit` runs with no lock held, one block at a time (`Event.commit`).

A process that `sleep`s in `begin_op` goes round its loop again once `wakeup(&log)` (or a `kill`)
has made it runnable.

`lh.block` has `LOGSIZE` entries.  An append to the entry after the last one is outside the array;
the machine stops there (`Stop.overrun`), as it does at a `panic`.
-/

namespace Xv6.Log
open Lib

/-- `MAXOPBLOCKS`: "max # of blocks any FS op writes". -/
def maxOpBlocks : Nat := 10

/-- `LOGSIZE`: "max data blocks in on-disk log". -/
def logSize : Nat := maxOpBlocks * 3

abbrev BlockNo := UInt32

/-- `struct log`, less the lock and the device.  `lh` lists `lh.block[0]` up to
`lh.block[lh.n - 1]`. -/
structure State where
  size : Nat
  outstanding : Nat
  committing : Bool
  lh : List BlockNo
  deriving DecidableEq, Repr

/-- Where a process stands in `commit()` and the end of `end_op()`. -/
inductive Phase where
  /-- at the test `log.lh.n > 0` -/
  | enter
  /-- in `write_log`'s loop -/
  | writeLog (tail : Nat)
  /-- at the first `write_head` -/
  | writeHead
  /-- in `install_trans`'s loop -/
  | install (tail : Nat)
  /-- at `log.lh.n = 0` -/
  | zero
  /-- at the second `write_head` -/
  | eraseHead
  /-- back in `end_op`, at the second `acquire` -/
  | finish
  deriving DecidableEq, Repr

/-- Where a process stands. -/
inductive Pc where
  /-- in no operation -/
  | idle
  /-- asleep on `&log` in `begin_op` -/
  | asleep
  /-- woken, about to go round the loop of `begin_op` again -/
  | woken
  /-- between `begin_op` and `end_op` -/
  | inOp
  /-- in `log_write(b)`, past its tests and before its `acquire` -/
  | tested (b : BlockNo)
  | commit (ph : Phase)
  deriving DecidableEq, Repr

/-- What stops the machine. -/
inductive Stop where
  /-- `panic("too big a transaction")` -/
  | tooBig
  /-- `panic("log_write outside of trans")` -/
  | outsideTrans
  /-- `panic("log.committing")` -/
  | logCommitting
  /-- a store to `lh.block[LOGSIZE]` -/
  | overrun
  deriving DecidableEq, Repr

structure Sys (P : Type) where
  log : State
  pc : P → Pc
  stop : Option Stop

inductive Event (P : Type) where
  /-- `begin_op`'s loop, once -/
  | beginOp (p : P)
  /-- a sleeper is made runnable by something else than `wakeup(&log)` -/
  | wake (p : P)
  /-- `log_write(b)` up to its `acquire` -/
  | test (p : P) (b : BlockNo)
  /-- `log_write(b)` from its `acquire` on -/
  | append (p : P) (b : BlockNo)
  /-- `end_op` up to its first `release` -/
  | endOp (p : P)
  /-- the step of `commit()`, or of the rest of `end_op`, at `ph` -/
  | commit (p : P) (ph : Phase)
  deriving DecidableEq, Repr

/-- The process an event is of. -/
def Event.proc {P : Type} : Event P → P
  | .beginOp p | .wake p | .test p _ | .append p _ | .endOp p | .commit p _ => p

/-- The log as `initlog` leaves it, with `log.size = size`. -/
def State.init (size : Nat) : State := ⟨size, 0, false, []⟩

def Sys.init (P : Type) (size : Nat) : Sys P := ⟨.init size, fun _ => .idle, none⟩

namespace Sys

variable {P : Type}

/-- `wakeup(&log)`. -/
def wakeup (s : Sys P) : Sys P :=
  { s with pc := fun p => if s.pc p = .asleep then .woken else s.pc p }

def halt (s : Sys P) (why : Stop) : Sys P := { s with stop := some why }

section Fields

variable {s : Sys P} {why : Stop}

@[simp] theorem wakeup_log : s.wakeup.log = s.log := rfl

@[simp] theorem wakeup_stop : s.wakeup.stop = s.stop := rfl

@[simp] theorem halt_stop : (s.halt why).stop = some why := rfl

end Fields

variable [DecidableEq P]

def setPc (s : Sys P) (p : P) (pc : Pc) : Sys P := { s with pc := Function.update s.pc p pc }

section Fields

variable {s : Sys P} {p q : P} {pc : Pc}

@[simp] theorem setPc_log : (s.setPc p pc).log = s.log := rfl

@[simp] theorem setPc_stop : (s.setPc p pc).stop = s.stop := rfl

@[simp] theorem setPc_pc_self : (s.setPc p pc).pc p = pc := by
  simp [setPc]

theorem setPc_pc_of_ne (h : q ≠ p) : (s.setPc p pc).pc q = s.pc q := by
  simp [setPc, h]

end Fields

def beginOp (s : Sys P) (p : P) : Sys P :=
  if s.log.committing then s.setPc p .asleep
  else if s.log.lh.length + (s.log.outstanding + 1) * maxOpBlocks > logSize then s.setPc p .asleep
  else { s with log.outstanding := s.log.outstanding + 1 }.setPc p .inOp

def logWriteTest (s : Sys P) (p : P) (b : BlockNo) : Sys P :=
  if s.log.lh.length ≥ logSize ∨ s.log.lh.length ≥ s.log.size - 1 then s.halt .tooBig
  else if s.log.outstanding < 1 then s.halt .outsideTrans
  else s.setPc p (.tested b)

def logWriteAppend (s : Sys P) (p : P) (b : BlockNo) : Sys P :=
  if b ∈ s.log.lh then s.setPc p .inOp
  else if s.log.lh.length < logSize then
    { s with log.lh := s.log.lh ++ [b] }.setPc p .inOp
  else s.halt .overrun

def endOp (s : Sys P) (p : P) : Sys P :=
  let s₁ := { s with log.outstanding := s.log.outstanding - 1 }
  if s₁.log.committing then s₁.halt .logCommitting
  else if s₁.log.outstanding = 0 then { s₁ with log.committing := true }.setPc p (.commit .enter)
  else s₁.wakeup.setPc p .idle

/-- The loops of `write_log` and `install_trans` look at `lh.n` again on each round. -/
def commitStep (s : Sys P) (p : P) : Phase → Sys P
  | .enter =>
      if 0 < s.log.lh.length then s.setPc p (.commit (.writeLog 0)) else s.setPc p (.commit .finish)
  | .writeLog tail =>
      if tail < s.log.lh.length then s.setPc p (.commit (.writeLog (tail + 1)))
      else s.setPc p (.commit .writeHead)
  | .writeHead => s.setPc p (.commit (.install 0))
  | .install tail =>
      if tail < s.log.lh.length then s.setPc p (.commit (.install (tail + 1)))
      else s.setPc p (.commit .zero)
  | .zero => { s with log.lh := [] }.setPc p (.commit .eraseHead)
  | .eraseHead => s.setPc p (.commit .finish)
  | .finish => ({ s with log.committing := false }.wakeup).setPc p .idle

end Sys

variable {P : Type} [DecidableEq P]

/-- One event; a stopped machine has none. -/
def step (s : Sys P) (e : Event P) : Option (Sys P) :=
  if s.stop.isSome then none
  else
    match e with
    | .beginOp p => if s.pc p = .idle ∨ s.pc p = .woken then some (s.beginOp p) else none
    | .wake p => if s.pc p = .asleep then some (s.setPc p .woken) else none
    | .test p b => if s.pc p = .inOp then some (s.logWriteTest p b) else none
    | .append p b => if s.pc p = .tested b then some (s.logWriteAppend p b) else none
    | .endOp p => if s.pc p = .inOp then some (s.endOp p) else none
    | .commit p ph => if s.pc p = .commit ph then some (s.commitStep p ph) else none

/-! ### What a step can do -/

/-- The rounds of `commit()` that leave `struct log` alone, when `lh.n` is `n`. -/
inductive Phase.Next (n : Nat) : Phase → Phase → Prop where
  | begin (h : 0 < n) : Next n .enter (.writeLog 0)
  | nothing (h : n = 0) : Next n .enter .finish
  | logged {tail : Nat} (h : tail < n) : Next n (.writeLog tail) (.writeLog (tail + 1))
  | loggedAll {tail : Nat} (h : n ≤ tail) : Next n (.writeLog tail) .writeHead
  | head : Next n .writeHead (.install 0)
  | installed {tail : Nat} (h : tail < n) : Next n (.install tail) (.install (tail + 1))
  | installedAll {tail : Nat} (h : n ≤ tail) : Next n (.install tail) .zero
  | erased : Next n .eraseHead .finish

/-- The steps, with their guards. -/
inductive Trans (s : Sys P) : Event P → Sys P → Prop where
  | sleep {p : P} (hp : s.pc p = .idle ∨ s.pc p = .woken) :
      Trans s (.beginOp p) (s.setPc p .asleep)
  | admitted {p : P} (hp : s.pc p = .idle ∨ s.pc p = .woken) (hc : s.log.committing = false)
      (hroom : s.log.lh.length + (s.log.outstanding + 1) * maxOpBlocks ≤ logSize) :
      Trans s (.beginOp p) ({ s with log.outstanding := s.log.outstanding + 1 }.setPc p .inOp)
  | wake {p : P} (hp : s.pc p = .asleep) : Trans s (.wake p) (s.setPc p .woken)
  | pass {p : P} {b : BlockNo} (hp : s.pc p = .inOp) (hn : s.log.lh.length < logSize)
      (hsize : s.log.lh.length < s.log.size - 1) : Trans s (.test p b) (s.setPc p (.tested b))
  | tooBig {p : P} {b : BlockNo} (hp : s.pc p = .inOp)
      (h : logSize ≤ s.log.lh.length ∨ s.log.size - 1 ≤ s.log.lh.length) :
      Trans s (.test p b) (s.halt .tooBig)
  | outsideTrans {p : P} {b : BlockNo} (hp : s.pc p = .inOp) (ho : s.log.outstanding = 0) :
      Trans s (.test p b) (s.halt .outsideTrans)
  | absorb {p : P} {b : BlockNo} (hp : s.pc p = .tested b) (hb : b ∈ s.log.lh) :
      Trans s (.append p b) (s.setPc p .inOp)
  | append {p : P} {b : BlockNo} (hp : s.pc p = .tested b) (hb : b ∉ s.log.lh)
      (hn : s.log.lh.length < logSize) :
      Trans s (.append p b) ({ s with log.lh := s.log.lh ++ [b] }.setPc p .inOp)
  | overrun {p : P} {b : BlockNo} (hp : s.pc p = .tested b) (hb : b ∉ s.log.lh)
      (hn : logSize ≤ s.log.lh.length) : Trans s (.append p b) (s.halt .overrun)
  | logCommitting {p : P} (hp : s.pc p = .inOp) (hc : s.log.committing = true) :
      Trans s (.endOp p)
        ({ s with log.outstanding := s.log.outstanding - 1 }.halt .logCommitting)
  | last {p : P} (hp : s.pc p = .inOp) (hc : s.log.committing = false)
      (ho : s.log.outstanding - 1 = 0) :
      Trans s (.endOp p) ({ s with
        log.outstanding := s.log.outstanding - 1
        log.committing := true }.setPc p (.commit .enter))
  | leave {p : P} (hp : s.pc p = .inOp) (hc : s.log.committing = false)
      (ho : s.log.outstanding - 1 ≠ 0) :
      Trans s (.endOp p)
        ({ s with log.outstanding := s.log.outstanding - 1 }.wakeup.setPc p .idle)
  | next {p : P} {ph ph' : Phase} (hp : s.pc p = .commit ph) (hn : ph.Next s.log.lh.length ph') :
      Trans s (.commit p ph) (s.setPc p (.commit ph'))
  | zero {p : P} (hp : s.pc p = .commit .zero) :
      Trans s (.commit p .zero) ({ s with log.lh := [] }.setPc p (.commit .eraseHead))
  | finish {p : P} (hp : s.pc p = .commit .finish) :
      Trans s (.commit p .finish) ({ s with log.committing := false }.wakeup.setPc p .idle)

variable {s s' : Sys P} {e : Event P}

theorem trans_commit {p : P} {ph : Phase} (hp : s.pc p = .commit ph) :
    Trans s (.commit p ph) (s.commitStep p ph) := by
  cases ph with
  | enter =>
      simp only [Sys.commitStep]
      split
      · exact .next hp (.begin ‹_›)
      · exact .next hp (.nothing (Nat.eq_zero_of_not_pos ‹_›))
  | writeLog tail =>
      simp only [Sys.commitStep]
      split
      · exact .next hp (.logged ‹_›)
      · exact .next hp (.loggedAll (not_lt.mp ‹_›))
  | writeHead => exact .next hp .head
  | install tail =>
      simp only [Sys.commitStep]
      split
      · exact .next hp (.installed ‹_›)
      · exact .next hp (.installedAll (not_lt.mp ‹_›))
  | zero => exact .zero hp
  | eraseHead => exact .next hp .erased
  | finish => exact .finish hp

/-- **What a step can do.** -/
theorem step_trans (h : step s e = some s') : s.stop = none ∧ Trans s e s' := by
  unfold step at h
  split at h
  · cases h
  rename_i hstop
  refine ⟨Option.not_isSome_iff_eq_none.mp hstop, ?_⟩
  cases e with
  | beginOp p =>
      obtain ⟨hp, h⟩ := Option.ite_none_right_eq_some.mp h
      cases h
      unfold Sys.beginOp
      split
      · exact .sleep hp
      · split
        · exact .sleep hp
        · exact .admitted hp (Bool.eq_false_of_not_eq_true ‹_›) (not_lt.mp ‹_›)
  | wake p =>
      obtain ⟨hp, h⟩ := Option.ite_none_right_eq_some.mp h
      cases h
      exact .wake hp
  | test p b =>
      obtain ⟨hp, h⟩ := Option.ite_none_right_eq_some.mp h
      cases h
      unfold Sys.logWriteTest
      split
      · exact .tooBig hp ‹_›
      · rename_i hroom
        push Not at hroom
        split
        · exact .outsideTrans hp (Nat.lt_one_iff.mp ‹_›)
        · exact .pass hp hroom.1 hroom.2
  | append p b =>
      obtain ⟨hp, h⟩ := Option.ite_none_right_eq_some.mp h
      cases h
      unfold Sys.logWriteAppend
      split
      · exact .absorb hp ‹_›
      · split
        · exact .append hp ‹_› ‹_›
        · exact .overrun hp ‹_› (not_lt.mp ‹_›)
  | endOp p =>
      obtain ⟨hp, h⟩ := Option.ite_none_right_eq_some.mp h
      cases h
      simp only [Sys.endOp]
      split
      · exact .logCommitting hp ‹_›
      · split
        · exact .last hp (Bool.eq_false_of_not_eq_true ‹_›) ‹_›
        · exact .leave hp (Bool.eq_false_of_not_eq_true ‹_›) ‹_›
  | commit p ph =>
      obtain ⟨hp, h⟩ := Option.ite_none_right_eq_some.mp h
      cases h
      exact trans_commit hp

end Xv6.Log
