import Xv6.Lib.Ring
import Xv6.Lib.Runs

/-!
# Pipe — readers and writers of one pipe

`pipe.c`'s `pipewrite`, `piperead` and `pipeclose`, with the `sleep` and `wakeup` of `proc.c`, as
steps of any number of processes.  A step does what the code does between two moments at which
another process may matter: the test at the head of a loop with what follows from it, one byte
moved, one `wakeup`.  `p->lock` and `ptable.lock` are part of the state.  `sleep` takes two steps,
since it gives `p->lock` back when it has `ptable.lock` and is `SLEEPING` only after that; `wakeup`
and `kill` need `ptable.lock` and are one step each, and `kill` may come at any moment.

`proc.c` has no more than this to say of a process here: where it stands (`Pc`), which tells whether
it is `SLEEPING` and on what, and whether it is `killed`.  A process that is not `SLEEPING` may take
its step at any time.

A call ends at its `release`.  The lists `stored` and `reads` record what the calls did: the bytes
`pipewrite` put into the pipe, and what each `piperead` returned.
-/

namespace Xv6.Pipe
open Lib

/-- `PIPESIZE`. -/
def pipesize : Nat := 512

instance : NeZero pipesize := ⟨by decide⟩

/-- The addresses the calls sleep on. -/
inductive Chan where
  | nread
  | nwrite
  deriving DecidableEq, Repr

/-- The calls and their arguments.  `pipewrite` has the bytes `addr[0..n)`, none for `n ≤ 0`, and
has put the first `i` of them into the pipe. -/
inductive Call where
  | write (src : List UInt8) (i : Nat)
  | read (n : Int32)
  | close (writable : Bool)
  deriving DecidableEq, Repr

/-- What the call sleeps on, if it sleeps. -/
def Call.chan : Call → Option Chan
  | .write _ _ => some .nwrite
  | .read _ => some .nread
  | .close _ => none

/-- The value a call returns: for `piperead(p, addr, n)` the bytes that are at `addr`. -/
inductive Ret where
  | wrote (n : Int)
  | read (n : Int32) (got : List UInt8)
  /-- `piperead` of a killed process returns `-1` -/
  | killed
  | closed
  deriving DecidableEq, Repr

/-- Where a process stands. -/
inductive Pc where
  /-- in none of the calls -/
  | user
  /-- at `acquire(&p->lock)`, in front or at the end of `sleep` -/
  | acquire (c : Call)
  /-- at the head of `pipewrite`'s or `piperead`'s loop, or in `pipeclose` -/
  | body (c : Call)
  /-- in the second loop of `piperead` -/
  | copy (n : Int32) (got : List UInt8)
  /-- `pipewrite`, at the `wakeup` in front of `sleep` -/
  | wakeFull (src : List UInt8) (i : Nat)
  /-- at the last `wakeup` of a call -/
  | wakeEnd (chan : Chan) (ret : Ret)
  /-- at the head of `sleep` -/
  | sleep (c : Call)
  /-- in `sleep`, with `ptable.lock` and without `p->lock` -/
  | sleeping (c : Call)
  /-- `SLEEPING` -/
  | asleep (c : Call)
  /-- at `release(&p->lock)` -/
  | release (ret : Ret)
  deriving DecidableEq, Repr

/-- `struct pipe` and the processes. -/
structure Sys (P : Type) where
  /-- `data`, `nread` and `nwrite` -/
  ring : Ring UInt8 32 pipesize
  readopen : Bool
  writeopen : Bool
  lock : Option P
  /-- `ptable.lock` -/
  ptable : Option P
  pc : P → Pc
  killed : P → Bool
  /-- `pipeclose` has given the page of the pipe back -/
  freed : Bool
  stored : List UInt8
  reads : List (List UInt8)

inductive Event (P : Type) where
  /-- the process calls one of the functions -/
  | call (p : P) (c : Call)
  | kill (p : P)
  | step (p : P)
  deriving Repr

/-- The loop of `wakeup1`, at one process. -/
def Pc.wake (chan : Chan) : Pc → Pc
  | .asleep c => if c.chan = some chan then .acquire c else .asleep c
  | pc => pc

/-- `kill`, at the process. -/
def Pc.kill : Pc → Pc
  | .asleep c => .acquire c
  | pc => pc

variable {P : Type} [DecidableEq P]

namespace Sys

def setPc (s : Sys P) (p : P) (pc : Pc) : Sys P := { s with pc := Function.update s.pc p pc }

/-- `wakeup(chan)`, after which the process stands at `next`. -/
def wakeup (s : Sys P) (p : P) (chan : Chan) (next : Pc) : Option (Sys P) :=
  if s.ptable = none then some (setPc { s with pc := fun q => (s.pc q).wake chan } p next)
  else none

/-- A round of `pipewrite`'s loop. -/
def writeRound (s : Sys P) (p : P) (src : List UInt8) (i : Nat) : Sys P :=
  match src[i]? with
  | none => s.setPc p (.wakeEnd .nread (.wrote src.length))
  | some b =>
      if s.ring.nwrite = s.ring.nread + 512 then
        if s.readopen = false ∨ s.killed p then s.setPc p (.release (.wrote (-1)))
        else s.setPc p (.wakeFull src i)
      else
        setPc { s with
          ring := s.ring.push b
          stored := s.stored ++ [b] } p (.body (.write src (i + 1)))

/-- The test of `piperead`'s first loop. -/
def readTest (s : Sys P) (p : P) (n : Int32) : Sys P :=
  if s.ring.nread = s.ring.nwrite ∧ s.writeopen then
    if s.killed p then s.setPc p (.release .killed) else s.setPc p (.sleep (.read n))
  else s.setPc p (.copy n [])

/-- A round of `piperead`'s second loop. -/
def readRound (s : Sys P) (p : P) (n : Int32) (got : List UInt8) : Sys P :=
  if (got.length : Int) < n.toInt ∧ s.ring.nread ≠ s.ring.nwrite then
    setPc { s with ring := s.ring.pop } p
      (.copy n (got ++ [s.ring.front]))
  else s.setPc p (.wakeEnd .nwrite (.read n got))

/-- `pipeclose`, up to its `wakeup`. -/
def closeEnd (s : Sys P) (p : P) (writable : Bool) : Sys P :=
  if writable then
    setPc { s with writeopen := false } p (.wakeEnd .nread .closed)
  else setPc { s with readopen := false } p (.wakeEnd .nwrite .closed)

/-- The end of a call; `pipeclose` frees a pipe with no open end. -/
def ret (s : Sys P) (p : P) : Ret → Sys P
  | .read _ got => setPc { s with lock := none, reads := s.reads ++ [got] } p .user
  | .closed => setPc { s with
      lock := none
      freed := !s.readopen && !s.writeopen } p .user
  | _ => setPc { s with lock := none } p .user

/-- The step of a process. -/
def move (s : Sys P) (p : P) : Option (Sys P) :=
  match s.pc p with
  | .user => none
  | .acquire c => if s.lock = none then some (setPc { s with lock := some p } p (.body c)) else none
  | .body (.write src i) => some (s.writeRound p src i)
  | .body (.read n) => some (s.readTest p n)
  | .body (.close writable) => some (s.closeEnd p writable)
  | .copy n got => some (s.readRound p n got)
  | .wakeFull src i => s.wakeup p .nread (.sleep (.write src i))
  | .wakeEnd chan ret => s.wakeup p chan (.release ret)
  | .sleep c =>
      if s.ptable = none then
        some (setPc { s with ptable := some p, lock := none } p (.sleeping c))
      else none
  | .sleeping c => some (setPc { s with ptable := none } p (.asleep c))
  | .asleep _ => none
  | .release r => some (s.ret p r)

end Sys

/-- A call begins: `pipewrite` with nothing written yet. -/
def Call.begins : Call → Bool
  | .write _ i => i = 0
  | _ => true

/-- What an event does, if it can happen.  Nothing touches a pipe that is freed. -/
def step (s : Sys P) : Event P → Option (Sys P)
  | .call p c =>
      if s.pc p = .user ∧ c.begins ∧ s.freed = false then some (s.setPc p (.acquire c)) else none
  | .kill p =>
      if s.ptable = none then
        some { s with
          killed := Function.update s.killed p true
          pc := Function.update s.pc p (s.pc p).kill }
      else none
  | .step p => if s.freed then none else s.move p

/-- The pipe `pipealloc` makes, in a page with `junk` in it, and processes that may already be
killed. -/
def init (junk : Fin pipesize → UInt8) (killed : P → Bool) : Sys P where
  ring := ⟨junk, 0, 0⟩
  readopen := true
  writeopen := true
  lock := none
  ptable := none
  pc _ := .user
  killed := killed
  freed := false
  stored := []
  reads := []

/-! ### What a step does -/

/-- The steps of process `p`, one constructor for each way through the code. -/
inductive Move (s : Sys P) (p : P) : Sys P → Prop
  | acquire {c : Call} (hpc : s.pc p = .acquire c) (hlock : s.lock = none) :
      Move s p (Sys.setPc { s with lock := some p } p (.body c))
  | writeEnd {src : List UInt8} {i : Nat} (hpc : s.pc p = .body (.write src i)) :
      Move s p (s.setPc p (.wakeEnd .nread (.wrote src.length)))
  | writeFail {src : List UInt8} {i : Nat} (hpc : s.pc p = .body (.write src i))
      (hi : i < src.length) (hfull : s.ring.nwrite = s.ring.nread + 512)
      (hstop : s.readopen = false ∨ s.killed p = true) :
      Move s p (s.setPc p (.release (.wrote (-1))))
  | writeFull {src : List UInt8} {i : Nat} (hpc : s.pc p = .body (.write src i))
      (hfull : s.ring.nwrite = s.ring.nread + 512) (hopen : s.readopen = true) :
      Move s p (s.setPc p (.wakeFull src i))
  | store {src : List UInt8} {i : Nat} {b : UInt8} (hpc : s.pc p = .body (.write src i))
      (hroom : s.ring.nwrite ≠ s.ring.nread + 512) :
      Move s p (Sys.setPc { s with ring := s.ring.push b, stored := s.stored ++ [b] } p
        (.body (.write src (i + 1))))
  | readKilled {n : Int32} (hpc : s.pc p = .body (.read n)) :
      Move s p (s.setPc p (.release .killed))
  | readSleep {n : Int32} (hpc : s.pc p = .body (.read n)) (hempty : s.ring.nread = s.ring.nwrite)
      (hopen : s.writeopen = true) : Move s p (s.setPc p (.sleep (.read n)))
  | readStart {n : Int32} (hpc : s.pc p = .body (.read n))
      (hgo : ¬ (s.ring.nread = s.ring.nwrite ∧ s.writeopen = true)) :
      Move s p (s.setPc p (.copy n []))
  | take {n : Int32} {got : List UInt8} (hpc : s.pc p = .copy n got)
      (hdata : s.ring.nread ≠ s.ring.nwrite) :
      Move s p (Sys.setPc { s with ring := s.ring.pop } p (.copy n (got ++ [s.ring.front])))
  | readEnd {n : Int32} {got : List UInt8} (hpc : s.pc p = .copy n got)
      (hend : ¬ ((got.length : Int) < n.toInt ∧ s.ring.nread ≠ s.ring.nwrite)) :
      Move s p (s.setPc p (.wakeEnd .nwrite (.read n got)))
  | closeWrite (hpc : s.pc p = .body (.close true)) :
      Move s p (Sys.setPc { s with writeopen := false } p (.wakeEnd .nread .closed))
  | closeRead (hpc : s.pc p = .body (.close false)) :
      Move s p (Sys.setPc { s with readopen := false } p (.wakeEnd .nwrite .closed))
  | wakeFull {src : List UInt8} {i : Nat} (hpc : s.pc p = .wakeFull src i) (hpt : s.ptable = none) :
      Move s p (Sys.setPc { s with pc := fun q => (s.pc q).wake .nread } p (.sleep (.write src i)))
  | wakeEnd {chan : Chan} {r : Ret} (hpc : s.pc p = .wakeEnd chan r) (hpt : s.ptable = none) :
      Move s p (Sys.setPc { s with pc := fun q => (s.pc q).wake chan } p (.release r))
  | sleep {c : Call} (hpc : s.pc p = .sleep c) (hpt : s.ptable = none) :
      Move s p (Sys.setPc { s with ptable := some p, lock := none } p (.sleeping c))
  | asleep {c : Call} (hpc : s.pc p = .sleeping c) :
      Move s p (Sys.setPc { s with ptable := none } p (.asleep c))
  | release {r : Ret} (hpc : s.pc p = .release r) : Move s p (s.ret p r)

theorem move_cases {s s' : Sys P} {p : P} (h : s.move p = some s') : Move s p s' := by
  unfold Sys.move at h
  split at h
  · cases h
  · rename_i c hpc
    split at h
    · rename_i hlock
      cases h
      exact .acquire hpc hlock
    · cases h
  · rename_i src i hpc
    cases h
    unfold Sys.writeRound
    split
    · exact .writeEnd hpc
    · rename_i b hb
      have hi : i < src.length := (List.getElem?_eq_some_iff.mp hb).1
      split
      · rename_i hfull
        split
        · rename_i hstop
          exact .writeFail hpc hi hfull (by simpa using hstop)
        · rename_i hstop
          exact .writeFull hpc hfull (by simpa using fun h => hstop (.inl h))
      · rename_i hroom
        exact .store hpc hroom
  · rename_i n hpc
    cases h
    unfold Sys.readTest
    split
    · rename_i hempty
      split
      · exact .readKilled hpc
      · exact .readSleep hpc hempty.1 hempty.2
    · rename_i hgo
      exact .readStart hpc hgo
  · rename_i writable hpc
    cases h
    cases writable with
    | false => exact .closeRead hpc
    | true => exact .closeWrite hpc
  · rename_i n got hpc
    cases h
    unfold Sys.readRound
    split
    · rename_i hmore
      exact .take hpc hmore.2
    · rename_i hend
      exact .readEnd hpc hend
  · rename_i src i hpc
    unfold Sys.wakeup at h
    split at h
    · rename_i hpt
      cases h
      exact .wakeFull hpc hpt
    · cases h
  · rename_i chan r hpc
    unfold Sys.wakeup at h
    split at h
    · rename_i hpt
      cases h
      exact .wakeEnd hpc hpt
    · cases h
  · rename_i c hpc
    split at h
    · rename_i hpt
      cases h
      exact .sleep hpc hpt
    · cases h
  · rename_i c hpc
    cases h
    exact .asleep hpc
  · cases h
  · rename_i r hpc
    cases h
    exact .release hpc

/-- An event is a call, a `kill` or a step of a process. -/
theorem step_cases {s s' : Sys P} {e : Event P} (h : step s e = some s') :
    (∃ p c, e = .call p c ∧ s.pc p = .user ∧ s' = s.setPc p (.acquire c)) ∨
    (∃ p, e = .kill p ∧ s' = { s with
      killed := Function.update s.killed p true
      pc := Function.update s.pc p (s.pc p).kill }) ∨
    ∃ p, e = .step p ∧ Move s p s' := by
  cases e with
  | call p c =>
      simp only [step] at h
      split at h
      · rename_i hok
        cases h
        exact .inl ⟨p, c, rfl, hok.1, rfl⟩
      · cases h
  | kill p =>
      simp only [step] at h
      split at h
      · cases h
        exact .inr (.inl ⟨p, rfl, rfl⟩)
      · cases h
  | step p =>
      simp only [step] at h
      split at h
      · cases h
      · exact .inr (.inr ⟨p, rfl, move_cases h⟩)

/-! ### The locks -/

/-- The process has `p->lock`. -/
def Pc.holds : Pc → Bool
  | .body _ | .copy _ _ | .wakeFull _ _ | .wakeEnd _ _ | .sleep _ | .release _ => true
  | _ => false

/-- The process has `ptable.lock`. -/
def Pc.enters : Pc → Bool
  | .sleeping _ => true
  | _ => false

@[simp] theorem Pc.holds_wake (chan : Chan) (pc : Pc) : (pc.wake chan).holds = pc.holds := by
  cases pc with
  | asleep c =>
      simp only [Pc.wake]
      split <;> rfl
  | _ => rfl

@[simp] theorem Pc.enters_wake (chan : Chan) (pc : Pc) : (pc.wake chan).enters = pc.enters := by
  cases pc with
  | asleep c =>
      simp only [Pc.wake]
      split <;> rfl
  | _ => rfl

@[simp] theorem Pc.holds_kill (pc : Pc) : pc.kill.holds = pc.holds := by
  cases pc <;> rfl

@[simp] theorem Pc.enters_kill (pc : Pc) : pc.kill.enters = pc.enters := by
  cases pc <;> rfl

/-- Each lock has the holder that the processes' places say it has. -/
structure Locks (s : Sys P) : Prop where
  lock : ∀ p, (s.pc p).holds = true ↔ s.lock = some p
  ptable : ∀ p, (s.pc p).enters = true ↔ s.ptable = some p

/-- What a process can do to a lock: nothing, take it when it is free, or give it back. -/
def LockMove (l l' : Option P) (p : P) (b b' : Bool) : Prop :=
  (l' = l ∧ b' = b) ∨ (l = none ∧ l' = some p ∧ b' = true) ∨ (b = true ∧ l' = none ∧ b' = false)

omit [DecidableEq P] in
theorem LockMove.holder {l l' : Option P} {p : P} {b b' : P → Bool}
    (hm : LockMove l l' p (b p) (b' p)) (hother : ∀ q ≠ p, b' q = b q)
    (h : ∀ q, b q = true ↔ l = some q) (q : P) : b' q = true ↔ l' = some q := by
  have hp := h p
  have hq := h q
  by_cases hqp : q = p
  · subst hqp
    obtain ⟨rfl, hb⟩ | ⟨-, rfl, hb⟩ | ⟨-, rfl, hb⟩ := hm
    · rw [hb, hq]
    · simp [hb]
    · simp [hb]
  · rw [hother q hqp, hq]
    obtain ⟨rfl, -⟩ | ⟨rfl, rfl, -⟩ | ⟨hb, rfl, -⟩ := hm
    · rfl
    · simp [Ne.symm hqp]
    · simp [hp.mp hb, Ne.symm hqp]

omit [DecidableEq P] in
/-- A step of `p` keeps the locks right, if it treats each as a lock may be treated. -/
theorem Locks.of_move {s s' : Sys P} (hs : Locks s) (p : P)
    (hlock : LockMove s.lock s'.lock p (s.pc p).holds (s'.pc p).holds)
    (hpt : LockMove s.ptable s'.ptable p (s.pc p).enters (s'.pc p).enters)
    (hother : ∀ q ≠ p, (s'.pc q).holds = (s.pc q).holds ∧ (s'.pc q).enters = (s.pc q).enters) :
    Locks s' :=
  ⟨hlock.holder (fun q hq => (hother q hq).1) hs.lock,
    hpt.holder (fun q hq => (hother q hq).2) hs.ptable⟩

omit [DecidableEq P] in
theorem Locks.eq_of_holds {s : Sys P} (h : Locks s) {p q : P} (hp : (s.pc p).holds = true)
    (hq : (s.pc q).holds = true) : p = q :=
  Option.some.inj (((h.lock p).mp hp).symm.trans ((h.lock q).mp hq))

omit [DecidableEq P] in
theorem locks_init (junk : Fin pipesize → UInt8) (killed : P → Bool) : Locks (init junk killed) :=
  ⟨fun _ => by simp [init, Pc.holds], fun _ => by simp [init, Pc.enters]⟩

/-- Everything but `wakeup` leaves the other processes where they are. -/
theorem Sys.setPc_pc_of_ne {s : Sys P} {p q : P} {pc : Pc} (h : q ≠ p) :
    (s.setPc p pc).pc q = s.pc q := Function.update_of_ne h _ _

@[simp] theorem Sys.setPc_pc_self {s : Sys P} {p : P} {pc : Pc} : (s.setPc p pc).pc p = pc :=
  Function.update_self ..

@[simp] theorem Sys.ret_pc (s : Sys P) (p : P) (r : Ret) :
    (s.ret p r).pc = Function.update s.pc p .user := by
  cases r <;> rfl

@[simp] theorem Sys.ret_lock (s : Sys P) (p : P) (r : Ret) : (s.ret p r).lock = none := by
  cases r <;> rfl

@[simp] theorem Sys.ret_ptable (s : Sys P) (p : P) (r : Ret) : (s.ret p r).ptable = s.ptable := by
  cases r <;> rfl

/-- `kill` moves no process that has the lock. -/
theorem kill_pc_of_holds {s : Sys P} {p q : P} (h : (s.pc q).holds = true) :
    Function.update s.pc p (s.pc p).kill q = s.pc q := by
  by_cases hq : q = p
  · subst hq
    rw [Function.update_self]
    revert h
    cases s.pc q <;> simp [Pc.holds, Pc.kill]
  · exact Function.update_of_ne hq _ _

theorem Locks.move {s s' : Sys P} {p : P} (hs : Locks s) (hm : Move s p s') : Locks s' := by
  cases hm with
  | acquire hpc hlock =>
      refine hs.of_move p ?_ ?_ fun q hq => by simp only [Sys.setPc_pc_of_ne hq, and_self]
      · exact .inr (.inl ⟨hlock, rfl, by rw [Sys.setPc_pc_self]; rfl⟩)
      · exact .inl ⟨rfl, by rw [Sys.setPc_pc_self, hpc]; rfl⟩
  | sleep hpc hpt =>
      refine hs.of_move p ?_ ?_ fun q hq => by simp only [Sys.setPc_pc_of_ne hq, and_self]
      · exact .inr (.inr ⟨by rw [hpc]; rfl, rfl, by rw [Sys.setPc_pc_self]; rfl⟩)
      · exact .inr (.inl ⟨hpt, rfl, by rw [Sys.setPc_pc_self]; rfl⟩)
  | asleep hpc =>
      refine hs.of_move p ?_ ?_ fun q hq => by simp only [Sys.setPc_pc_of_ne hq, and_self]
      · exact .inl ⟨rfl, by rw [Sys.setPc_pc_self, hpc]; rfl⟩
      · exact .inr (.inr ⟨by rw [hpc]; rfl, rfl, by rw [Sys.setPc_pc_self]; rfl⟩)
  | release hpc =>
      refine hs.of_move p ?_ ?_ fun q hq => by simp only [Sys.ret_pc, Function.update_of_ne hq, and_self]
      · exact .inr (.inr ⟨by rw [hpc]; rfl, Sys.ret_lock .., by simp [Pc.holds]⟩)
      · exact .inl ⟨Sys.ret_ptable .., by rw [Sys.ret_pc, Function.update_self, hpc]; rfl⟩
  | wakeFull hpc _ =>
      refine hs.of_move p ?_ ?_ fun q hq => by simp [Sys.setPc_pc_of_ne hq]
      · exact .inl ⟨rfl, by rw [Sys.setPc_pc_self, hpc]; rfl⟩
      · exact .inl ⟨rfl, by rw [Sys.setPc_pc_self, hpc]; rfl⟩
  | wakeEnd hpc _ =>
      refine hs.of_move p ?_ ?_ fun q hq => by simp [Sys.setPc_pc_of_ne hq]
      · exact .inl ⟨rfl, by rw [Sys.setPc_pc_self, hpc]; rfl⟩
      · exact .inl ⟨rfl, by rw [Sys.setPc_pc_self, hpc]; rfl⟩
  | _ hpc =>
      -- the steps between, which hold `p->lock` throughout
      refine hs.of_move p ?_ ?_ fun q hq => by simp only [Sys.setPc_pc_of_ne hq, and_self]
      · exact .inl ⟨rfl, by rw [Sys.setPc_pc_self, hpc]; rfl⟩
      · exact .inl ⟨rfl, by rw [Sys.setPc_pc_self, hpc]; rfl⟩

theorem Locks.step {s s' : Sys P} {e : Event P} (hs : Locks s) (h : step s e = some s') :
    Locks s' := by
  obtain ⟨p, c, rfl, hpc, rfl⟩ | ⟨p, rfl, rfl⟩ | ⟨p, rfl, hm⟩ := step_cases h
  · refine hs.of_move p ?_ ?_ fun q hq => by simp only [Sys.setPc_pc_of_ne hq, and_self]
    · exact .inl ⟨rfl, by rw [Sys.setPc_pc_self, hpc]; rfl⟩
    · exact .inl ⟨rfl, by rw [Sys.setPc_pc_self, hpc]; rfl⟩
  · refine hs.of_move p ?_ ?_ fun q hq => by simp [hq]
    · exact .inl ⟨rfl, by simp⟩
    · exact .inl ⟨rfl, by simp⟩
  · exact hs.move hm

end Xv6.Pipe
