import Xv6.Lib.Runs

/-!
# Life — interrupts and kernel threads

`pushcli` and `popcli`, `acquire` and `release` of `spinlock.c`, and the switches of `sched` and
`scheduler` of `proc.c` between the kernel threads of the processes and the one of each CPU's
scheduler.  A call is a step, but for `acquire`, which spins until the lock is free (`Event.take`).

The threads keep to this: they release what they hold, do not acquire a lock twice, and hold only
`ptable.lock` when they switch.  Outside `pushcli` and `popcli` a thread may turn interrupts on and off,
by `sti`, by a trap and by its return (`Event.flag`).  `ncli` is taken not to overflow.

`cpu->intena` is the flag of the thread that runs, from before its outermost `pushcli`.  `sched` keeps
that of the process over the switch; the scheduler does not keep its own, and gets the flag of the
process that switched back to it (`Thread.handed`).
-/

namespace Xv6.Cli
open Lib

/-- What a kernel thread has outstanding. -/
structure Thread (κ : Type) where
  /-- `pushcli`s of its own -/
  raw : Nat
  locks : List κ
  /-- the lock it spins for -/
  spin : Option κ
  /-- the interrupt flag before its outermost `pushcli` -/
  before : Bool
  /-- of a scheduler: the flag of the process that switched back to it since then -/
  handed : Option Bool
  deriving DecidableEq

structure Cpu (τ κ : Type) where
  ncli : Int
  intena : Bool
  /-- `FL_IF` -/
  flag : Bool
  proc : Option τ
  /-- the thread that runs -/
  self : Thread κ
  /-- `cpu->scheduler`, while a process runs -/
  scheduler : Thread κ
  /-- the `pushcli`s and `popcli`s made on this CPU -/
  pushed : Nat
  popped : Nat

inductive Panic where
  | popcliInterruptible
  | popcli
  | acquire
  | release
  | schedPtable
  | schedLocks
  | schedInterruptible
  deriving DecidableEq

/-- The CPUs, the locks with the CPU that has each, the processes in `sched` with their `intena`, and
those that have started. -/
structure Sys (γ τ κ : Type) where
  cpu : γ → Cpu τ κ
  lock : κ → Option γ
  context : τ → Option (Thread κ × Bool)
  started : τ → Bool
  panic : Option Panic

inductive Event (γ τ κ : Type) where
  | flag (c : γ) (on : Bool)
  | pushcli (c : γ)
  | popcli (c : γ)
  | acquire (c : γ) (k : κ)
  | take (c : γ)
  | release (c : γ) (k : κ)
  | sched (c : γ)
  | dispatch (c : γ) (t : τ)
  | start (c : γ) (t : τ)
  | reap (t : τ)

variable {γ τ κ : Type}

namespace Thread

def depth (x : Thread κ) : Nat := x.raw + x.locks.length + if x.spin.isSome then 1 else 0

/-- What the outermost `popcli` makes of the flag. -/
def restores (x : Thread κ) : Bool := x.handed.getD x.before

/-- The thread holds only this lock. -/
def Only (k : κ) (x : Thread κ) : Prop := x.raw = 0 ∧ x.locks = [k] ∧ x.spin = none

instance [DecidableEq κ] (k : κ) (x : Thread κ) : Decidable (x.Only k) :=
  inferInstanceAs (Decidable (_ ∧ _))

end Thread

namespace Cpu

def pushcli (x : Cpu τ κ) : Cpu τ κ :=
  { x with
    flag := false
    ncli := x.ncli + 1
    intena := if x.ncli = 0 then x.flag else x.intena
    self := if x.self.depth = 0 then { x.self with before := x.flag, handed := none } else x.self
    pushed := x.pushed + 1 }

def popcli (x : Cpu τ κ) : Except Panic (Cpu τ κ) :=
  if x.flag then .error .popcliInterruptible
  else if x.ncli - 1 < 0 then .error .popcli
  else .ok { x with
    ncli := x.ncli - 1
    flag := if x.ncli - 1 = 0 ∧ x.intena then true else x.flag
    popped := x.popped + 1 }

end Cpu

section Code
variable [DecidableEq γ] [DecidableEq τ] [DecidableEq κ]

namespace Sys

def setCpu (s : Sys γ τ κ) (c : γ) (x : Cpu τ κ) : Sys γ τ κ := { s with cpu := Function.update s.cpu c x }

def setLock (s : Sys γ τ κ) (k : κ) (o : Option γ) : Sys γ τ κ := { s with lock := Function.update s.lock k o }

def setContext (s : Sys γ τ κ) (t : τ) (o : Option (Thread κ × Bool)) : Sys γ τ κ :=
  { s with context := Function.update s.context t o }

/-- `popcli`, after which the thread has `self` outstanding. -/
def popcli (s : Sys γ τ κ) (c : γ) (self : Thread κ) : Sys γ τ κ :=
  match (s.cpu c).popcli with
  | .error e => { s with panic := some e }
  | .ok x => s.setCpu c { x with self := self }

def acquire (s : Sys γ τ κ) (c : γ) (k : κ) : Sys γ τ κ :=
  if s.lock k = some c then { s with panic := some .acquire }
  else
    let x := (s.cpu c).pushcli
    s.setCpu c { x with self := { x.self with spin := some k } }

def release (s : Sys γ τ κ) (c : γ) (k : κ) : Sys γ τ κ :=
  if s.lock k ≠ some c then { s with panic := some .release }
  else (s.setLock k none).popcli c { (s.cpu c).self with locks := (s.cpu c).self.locks.erase k }

/-- `sched` up to its switch, on the thread of process `t`. -/
def sched (s : Sys γ τ κ) (ptable : κ) (c : γ) (t : τ) : Sys γ τ κ :=
  let x := s.cpu c
  if s.lock ptable ≠ some c then { s with panic := some .schedPtable }
  else if x.ncli ≠ 1 then { s with panic := some .schedLocks }
  else if x.flag then { s with panic := some .schedInterruptible }
  else (s.setContext t (some (x.self, x.intena))).setCpu c
    { x with proc := none, self := { x.scheduler with handed := some x.self.restores } }

/-- The switch of `scheduler` to a process, with what `sched` does after it. -/
def dispatch (s : Sys γ τ κ) (c : γ) (t : τ) (self : Thread κ) (intena : Bool) : Sys γ τ κ :=
  (s.setContext t none).setCpu c
    { s.cpu c with proc := some t, scheduler := (s.cpu c).self, self := self, intena := intena }

/-- The switch of `scheduler` to a process that has not run yet, to `forkret`, which releases the lock
the scheduler acquired. -/
def start (s : Sys γ τ κ) (c : γ) (t : τ) : Sys γ τ κ :=
  { s.setCpu c { s.cpu c with
      proc := some t
      scheduler := (s.cpu c).self
      self := { (s.cpu c).self with before := (s.cpu c).self.restores, handed := none } } with
    started := Function.update s.started t true }

end Sys

def step (ptable : κ) (s : Sys γ τ κ) (e : Event γ τ κ) : Option (Sys γ τ κ) :=
  if s.panic ≠ none then none
  else
    match e with
    | .flag c on =>
        if (s.cpu c).self.depth = 0 then some (s.setCpu c { s.cpu c with flag := on }) else none
    | .pushcli c =>
        if (s.cpu c).self.spin = none then
          let x := (s.cpu c).pushcli
          some (s.setCpu c { x with self := { x.self with raw := x.self.raw + 1 } })
        else none
    | .popcli c =>
        if (s.cpu c).self.spin = none ∧ 0 < (s.cpu c).self.raw then
          some (s.popcli c { (s.cpu c).self with raw := (s.cpu c).self.raw - 1 })
        else none
    | .acquire c k =>
        if (s.cpu c).self.spin = none ∧ k ∉ (s.cpu c).self.locks then some (s.acquire c k) else none
    | .take c =>
        match (s.cpu c).self.spin with
        | none => none
        | some k =>
            if s.lock k = none then
              some ((s.setLock k (some c)).setCpu c { s.cpu c with
                self := { (s.cpu c).self with spin := none, locks := k :: (s.cpu c).self.locks } })
            else none
    | .release c k =>
        if (s.cpu c).self.spin = none ∧ k ∈ (s.cpu c).self.locks then some (s.release c k) else none
    | .sched c =>
        match (s.cpu c).proc with
        | none => none
        | some t => if (s.cpu c).self.Only ptable then some (s.sched ptable c t) else none
    | .dispatch c t =>
        match s.context t with
        | none => none
        | some (self, intena) =>
            if (s.cpu c).proc = none ∧ (s.cpu c).self.Only ptable then some (s.dispatch c t self intena)
            else none
    | .start c t =>
        if (s.cpu c).proc = none ∧ (s.cpu c).self.Only ptable ∧ s.started t = false then
          some (s.start c t)
        else none
    | .reap t =>
        if s.context t = none then none
        else some { s.setContext t none with started := Function.update s.started t false }

end Code

/-- A thread with nothing outstanding. -/
def Thread.none : Thread κ := ⟨0, [], Option.none, false, Option.none⟩

/-- Every CPU is about to call `scheduler`. -/
def init (flag : γ → Bool) : Sys γ τ κ where
  cpu c := ⟨0, false, flag c, none, .none, .none, 0, 0⟩
  lock _ := none
  context _ := none
  started _ := false
  panic := none

structure CpuInv (ptable : κ) (lock : κ → Option γ) (c : γ) (x : Cpu τ κ) : Prop where
  ncli : x.ncli = x.self.depth
  pushed : (x.pushed : Int) = x.ncli + x.popped
  off : 0 < x.self.depth → x.flag = false ∧ x.intena = x.self.restores
  locks : ∀ k, lock k = some c ↔ k ∈ x.self.locks
  nodup : x.self.locks.Nodup
  spin : ∀ k, x.self.spin = some k → k ∉ x.self.locks
  proc : x.proc ≠ none → x.self.handed = none ∧ x.scheduler.Only ptable

structure Inv (ptable : κ) (s : Sys γ τ κ) : Prop where
  panic : s.panic = none
  cpu : ∀ c, CpuInv ptable s.lock c (s.cpu c)
  context : ∀ t self intena, s.context t = some (self, intena) →
    self.Only ptable ∧ self.handed = none ∧ intena = self.before

section Parts
variable {ptable : κ} {s s' : Sys γ τ κ} {c : γ} {x : Cpu τ κ} {lock : κ → Option γ}

theorem Thread.Only.depth {y : Thread κ} (h : y.Only ptable) : y.depth = 1 := by
  obtain ⟨hr, hl, hs⟩ := h
  simp [Thread.depth, hr, hl, hs]

/-- A step on one CPU. -/
theorem Inv.setCpu [DecidableEq γ] (h : Inv ptable s) (hpanic : s'.panic = none)
    (hcpu : s'.cpu = Function.update s.cpu c x) (hx : CpuInv ptable s'.lock c x)
    (hlock : ∀ c' k, c' ≠ c → (s'.lock k = some c' ↔ s.lock k = some c'))
    (hcontext : ∀ t self intena, s'.context t = some (self, intena) →
      s.context t = some (self, intena) ∨ self.Only ptable ∧ self.handed = none ∧ intena = self.before) :
    Inv ptable s' := by
  refine ⟨hpanic, fun c' => ?_, fun t self intena ht => ?_⟩
  · rw [hcpu]
    by_cases hc : c' = c
    · subst hc
      rwa [Function.update_self]
    · rw [Function.update_of_ne hc]
      have hc' := h.cpu c'
      exact ⟨hc'.ncli, hc'.pushed, hc'.off, fun k => (hlock c' k hc).trans (hc'.locks k), hc'.nodup,
        hc'.spin, hc'.proc⟩
  · exact (hcontext t self intena ht).elim (h.context t self intena) id

/-- What `pushcli` leaves, for a thread that then has `y` outstanding, one more than before. -/
theorem CpuInv.pushcli {y : Thread κ} (h : CpuInv ptable lock c x) (hy : y.depth = x.self.depth + 1)
    (hlocks : y.locks = x.self.locks) (hspin : ∀ k, y.spin = some k → k ∉ x.self.locks)
    (hbefore : y.before = x.pushcli.self.before) (hhanded : y.handed = x.pushcli.self.handed) :
    CpuInv ptable lock c { x.pushcli with self := y } := by
  refine ⟨?_, ?_, fun _ => ⟨rfl, ?_⟩, ?_, ?_, ?_, fun hp => ⟨?_, (h.proc hp).2⟩⟩
  · show x.ncli + 1 = y.depth
    rw [hy, h.ncli]
    rfl
  · show ((x.pushed + 1 : Nat) : Int) = x.ncli + 1 + x.popped
    have := h.pushed
    omega
  · show (if x.ncli = 0 then x.flag else x.intena) = y.restores
    have hncli := h.ncli
    simp only [Thread.restores, hbefore, hhanded, Cpu.pushcli]
    by_cases hd : x.self.depth = 0
    · rw [if_pos hd, if_pos (by omega)]
      rfl
    · rw [if_neg hd, if_neg (by omega)]
      exact (h.off (Nat.pos_of_ne_zero hd)).2
  · exact fun k => hlocks ▸ h.locks k
  · exact hlocks ▸ h.nodup
  · exact fun k hk => hlocks ▸ hspin k hk
  · show y.handed = none
    rw [hhanded]
    simp only [Cpu.pushcli]
    split_ifs
    · rfl
    · exact (h.proc hp).1

/-- `popcli` by a thread that has something outstanding does not panic, and the outermost one gives the
flag back. -/
theorem CpuInv.popcli (h : CpuInv ptable lock c x) (hd : 0 < x.self.depth) :
    x.popcli = .ok { x with
      ncli := x.ncli - 1
      flag := if x.self.depth = 1 then x.self.restores else false
      popped := x.popped + 1 } := by
  obtain ⟨hflag, hintena⟩ := h.off hd
  have hncli := h.ncli
  have hpos : ¬ x.ncli - 1 < 0 := by omega
  have hone : x.ncli - 1 = 0 ↔ x.self.depth = 1 := by omega
  simp only [Cpu.popcli, hflag, hintena, hpos, hone]
  by_cases hd1 : x.self.depth = 1
  · cases x.self.restores <;> simp [hd1]
  · simp [hd1]

theorem CpuInv.popped {y : Thread κ} {lock' : κ → Option γ} (h : CpuInv ptable lock c x)
    (hy : y.depth + 1 = x.self.depth) (hlocks : ∀ k, lock' k = some c ↔ k ∈ y.locks)
    (hnodup : y.locks.Nodup) (hspin : y.spin = none) (hbefore : y.before = x.self.before)
    (hhanded : y.handed = x.self.handed) :
    CpuInv ptable lock' c { x with
      ncli := x.ncli - 1
      flag := if x.self.depth = 1 then x.self.restores else false
      popped := x.popped + 1
      self := y } := by
  have hncli := h.ncli
  have hpushed := h.pushed
  refine ⟨?_, ?_, fun hpos => ⟨?_, ?_⟩, hlocks, hnodup, fun k hk => ?_, fun hp => ⟨?_, (h.proc hp).2⟩⟩
  · show x.ncli - 1 = y.depth
    omega
  · show (x.pushed : Int) = x.ncli - 1 + (x.popped + 1 : Nat)
    omega
  · exact if_neg (by
      have : 0 < y.depth := hpos
      omega)
  · show x.intena = y.restores
    rw [(h.off (by omega)).2, Thread.restores, Thread.restores, hbefore, hhanded]
  · cases hspin.symm.trans hk
  · exact hhanded.trans (h.proc hp).1

/-- A switch between two threads that hold only `ptable.lock`. -/
theorem CpuInv.switch {y z : Thread κ} {proc : Option τ} {intena : Bool} (h : CpuInv ptable lock c x)
    (hx : x.self.Only ptable) (hy : y.Only ptable) (hintena : intena = y.restores)
    (hproc : proc ≠ none → y.handed = none ∧ z.Only ptable) :
    CpuInv ptable lock c { x with proc := proc, self := y, scheduler := z, intena := intena } where
  ncli := by
    have hncli := h.ncli
    rw [hx.depth] at hncli
    exact hncli.trans (congrArg _ hy.depth.symm)
  pushed := h.pushed
  off _ := ⟨(h.off (by rw [hx.depth]; exact Nat.one_pos)).1, hintena⟩
  locks k := by
    rw [h.locks, hx.2.1, hy.2.1]
  nodup := by
    rw [hy.2.1]
    exact List.nodup_singleton ptable
  spin k hk := by
    cases hy.2.2.symm.trans hk
  proc := hproc

theorem Inv.setContext_none [DecidableEq τ] {t t' : τ} {self : Thread κ} {intena : Bool}
    (ht : (s.setContext t none).context t' = some (self, intena)) : s.context t' = some (self, intena) := by
  by_cases htt : t' = t
  · subst htt
    simp [Sys.setContext] at ht
  · exact (Function.update_of_ne htt _ _).symm.trans ht

variable [DecidableEq γ]

theorem Inv.flag (h : Inv ptable s) (hd : (s.cpu c).self.depth = 0) (on : Bool) :
    Inv ptable (s.setCpu c { s.cpu c with flag := on }) := by
  have hc := h.cpu c
  refine h.setCpu h.panic rfl ⟨hc.ncli, hc.pushed, fun hpos => ?_, hc.locks, hc.nodup, hc.spin, hc.proc⟩
    (fun _ _ _ => Iff.rfl) fun _ _ _ => .inl
  exact absurd hd (Nat.ne_of_gt hpos)

theorem Inv.pushcli (h : Inv ptable s) (hspin : (s.cpu c).self.spin = none) :
    Inv ptable (s.setCpu c { (s.cpu c).pushcli with
      self := { (s.cpu c).pushcli.self with raw := (s.cpu c).pushcli.self.raw + 1 } }) := by
  have hself : (s.cpu c).pushcli.self.raw = (s.cpu c).self.raw ∧
      (s.cpu c).pushcli.self.locks = (s.cpu c).self.locks ∧ (s.cpu c).pushcli.self.spin = none := by
    simp only [Cpu.pushcli]
    split_ifs <;> exact ⟨rfl, rfl, hspin⟩
  refine h.setCpu h.panic rfl ((h.cpu c).pushcli ?_ hself.2.1 (fun k hk => ?_) rfl rfl)
    (fun _ _ _ => Iff.rfl) fun _ _ _ => .inl
  · simp only [Thread.depth, hself, hspin]
    omega
  · cases hself.2.2.symm.trans hk

theorem Inv.acquire {k : κ} (h : Inv ptable s) (hspin : (s.cpu c).self.spin = none)
    (hk : k ∉ (s.cpu c).self.locks) : Inv ptable (s.acquire c k) := by
  have hself : (s.cpu c).pushcli.self.raw = (s.cpu c).self.raw ∧
      (s.cpu c).pushcli.self.locks = (s.cpu c).self.locks := by
    simp only [Cpu.pushcli]
    split_ifs <;> exact ⟨rfl, rfl⟩
  unfold Sys.acquire
  rw [if_neg fun hl => hk (((h.cpu c).locks k).mp hl)]
  refine h.setCpu h.panic rfl ((h.cpu c).pushcli ?_ hself.2 (fun k' hk' => ?_) rfl rfl)
    (fun _ _ _ => Iff.rfl) fun _ _ _ => .inl
  · simp [Thread.depth, hself, hspin]
  · cases hk'
    exact hk

/-- What a `popcli` leaves on its CPU. -/
theorem Inv.popcli {y : Thread κ} (h : Inv ptable s) (lock : κ → Option γ)
    (hy : y.depth + 1 = (s.cpu c).self.depth) (hlocks : ∀ k, lock k = some c ↔ k ∈ y.locks)
    (hother : ∀ c' k, c' ≠ c → (lock k = some c' ↔ s.lock k = some c')) (hnodup : y.locks.Nodup)
    (hspin : y.spin = none) (hbefore : y.before = (s.cpu c).self.before)
    (hhanded : y.handed = (s.cpu c).self.handed) :
    Inv ptable (Sys.popcli { s with lock := lock } c y) ∧
    ((Sys.popcli { s with lock := lock } c y).cpu c).flag =
      if (s.cpu c).self.depth = 1 then (s.cpu c).self.restores else false := by
  have hpop := (h.cpu c).popcli (by omega)
  unfold Sys.popcli
  simp only [hpop]
  refine ⟨h.setCpu h.panic rfl ((h.cpu c).popped hy hlocks hnodup hspin hbefore hhanded) hother
    fun _ _ _ => .inl, ?_⟩
  simp [Sys.setCpu]

theorem Inv.popcli_raw (h : Inv ptable s) (hspin : (s.cpu c).self.spin = none)
    (hraw : 0 < (s.cpu c).self.raw) :
    let s' := s.popcli c { (s.cpu c).self with raw := (s.cpu c).self.raw - 1 }
    Inv ptable s' ∧ (s'.cpu c).flag =
      if (s.cpu c).self.depth = 1 then (s.cpu c).self.restores else false := by
  refine h.popcli s.lock ?_ (h.cpu c).locks (fun _ _ _ => Iff.rfl) (h.cpu c).nodup hspin rfl rfl
  simp only [Thread.depth, hspin]
  omega

section Switches
variable [DecidableEq τ]

theorem Inv.sched {t : τ} (h : Inv ptable s) (hproc : (s.cpu c).proc = some t)
    (honly : (s.cpu c).self.Only ptable) : Inv ptable (s.sched ptable c t) := by
  have hc := h.cpu c
  have hncli : (s.cpu c).ncli = 1 := by
    rw [hc.ncli, honly.depth]
    rfl
  obtain ⟨hflag, hintena⟩ := hc.off (by rw [honly.depth]; exact Nat.one_pos)
  obtain ⟨hhanded, hsched⟩ := hc.proc (by simp [hproc])
  have hlock : s.lock ptable = some c := (hc.locks ptable).mpr (by simp [honly.2.1])
  unfold Sys.sched
  rw [if_neg (not_not.mpr hlock), if_neg (not_not.mpr hncli), if_neg (by simp [hflag])]
  refine h.setCpu h.panic rfl (hc.switch honly (y := { (s.cpu c).scheduler with
      handed := some (s.cpu c).self.restores }) hsched hintena fun hne => absurd rfl hne)
    (fun _ _ _ => Iff.rfl) fun t' self intena ht => ?_
  by_cases htt : t' = t
  · subst htt
    cases (Function.update_self t' _ s.context).symm.trans ht
    refine .inr ⟨honly, hhanded, hintena.trans ?_⟩
    rw [Thread.restores, hhanded]
    rfl
  · exact .inl ((Function.update_of_ne htt _ _).symm.trans ht)

theorem Inv.dispatch {t : τ} {self : Thread κ} {intena : Bool} (h : Inv ptable s)
    (ht : s.context t = some (self, intena)) (honly : (s.cpu c).self.Only ptable) :
    Inv ptable (s.dispatch c t self intena) := by
  obtain ⟨hself, hhanded, hintena⟩ := h.context t self intena ht
  refine h.setCpu h.panic rfl ((h.cpu c).switch honly hself ?_ fun _ => ⟨hhanded, honly⟩)
    (fun _ _ _ => Iff.rfl) fun t' self' intena' ht' => .inl (Inv.setContext_none ht')
  rw [hintena, Thread.restores, hhanded]
  rfl

theorem Inv.start {t : τ} (h : Inv ptable s) (honly : (s.cpu c).self.Only ptable) :
    Inv ptable (s.start c t) :=
  h.setCpu h.panic rfl ((h.cpu c).switch honly honly
    ((h.cpu c).off (by rw [honly.depth]; exact Nat.one_pos)).2 fun _ => ⟨rfl, honly⟩)
    (fun _ _ _ => Iff.rfl) fun _ _ _ => .inl

end Switches

variable [DecidableEq κ]

theorem Inv.take {k : κ} (h : Inv ptable s) (hspin : (s.cpu c).self.spin = some k)
    (hfree : s.lock k = none) : Inv ptable ((s.setLock k (some c)).setCpu c { s.cpu c with
      self := { (s.cpu c).self with spin := none, locks := k :: (s.cpu c).self.locks } }) := by
  have hc := h.cpu c
  have hdepth : Thread.depth { (s.cpu c).self with spin := none, locks := k :: (s.cpu c).self.locks } =
      (s.cpu c).self.depth := by
    simp [Thread.depth, hspin]
    omega
  refine h.setCpu h.panic rfl ⟨?_, hc.pushed, fun hpos => hc.off (hdepth ▸ hpos), fun k' => ?_, ?_,
    (fun _ hk => nomatch hk), hc.proc⟩ (fun c' k' hne => ?_) fun _ _ _ => .inl
  · exact hc.ncli.trans (congrArg _ hdepth.symm)
  · show Function.update s.lock k (some c) k' = some c ↔ k' ∈ k :: (s.cpu c).self.locks
    rw [List.mem_cons]
    by_cases hk : k' = k
    · simp [hk]
    · rw [Function.update_of_ne hk, hc.locks k']
      simp [hk]
  · exact List.nodup_cons.mpr ⟨hc.spin k hspin, hc.nodup⟩
  · show Function.update s.lock k (some c) k' = some c' ↔ _
    by_cases hk : k' = k
    · subst hk
      rw [Function.update_self, hfree]
      simpa using Ne.symm hne
    · rw [Function.update_of_ne hk]

theorem Inv.release {k : κ} (h : Inv ptable s) (hspin : (s.cpu c).self.spin = none)
    (hk : k ∈ (s.cpu c).self.locks) :
    Inv ptable (s.release c k) ∧ ((s.release c k).cpu c).flag =
      if (s.cpu c).self.depth = 1 then (s.cpu c).self.restores else false := by
  have hc := h.cpu c
  unfold Sys.release
  rw [if_neg (not_not.mpr ((hc.locks k).mpr hk))]
  refine h.popcli _ ?_ (fun k' => ?_) (fun c' k' hne => ?_) (hc.nodup.erase k) hspin rfl rfl
  · simp only [Thread.depth, hspin, List.length_erase_of_mem hk]
    have := List.length_pos_of_mem hk
    omega
  · rw [hc.nodup.mem_erase_iff]
    by_cases hkk : k' = k
    · simp [hkk]
    · rw [Function.update_of_ne hkk, hc.locks k']
      simp [hkk]
  · by_cases hkk : k' = k
    · rw [hkk, Function.update_self, (hc.locks k).mpr hk]
      simpa using Ne.symm hne
    · rw [Function.update_of_ne hkk]

variable [DecidableEq τ]

/-- What one step preserves. -/
theorem Inv.step {e : Event γ τ κ} (h : Inv ptable s) (hs : step ptable s e = some s') :
    Inv ptable s' := by
  unfold Cli.step at hs
  rw [if_neg (not_not.mpr h.panic)] at hs
  cases e with
  | flag c on =>
    simp only at hs
    split_ifs at hs with hd
    cases hs
    exact h.flag hd on
  | pushcli c =>
    simp only at hs
    split_ifs at hs with hspin
    cases hs
    exact h.pushcli hspin
  | popcli c =>
    simp only at hs
    split_ifs at hs with hc
    cases hs
    exact (h.popcli_raw hc.1 hc.2).1
  | acquire c k =>
    simp only at hs
    split_ifs at hs with hc
    cases hs
    exact h.acquire hc.1 hc.2
  | take c =>
    simp only at hs
    split at hs
    · cases hs
    · rename_i k hspin
      split_ifs at hs with hfree
      cases hs
      exact h.take hspin hfree
  | release c k =>
    simp only at hs
    split_ifs at hs with hc
    cases hs
    exact (h.release hc.1 hc.2).1
  | sched c =>
    simp only at hs
    split at hs
    · cases hs
    · rename_i t hproc
      split_ifs at hs with honly
      cases hs
      exact h.sched hproc honly
  | dispatch c t =>
    simp only at hs
    split at hs
    · cases hs
    · rename_i self intena ht
      split_ifs at hs with hc
      cases hs
      exact h.dispatch ht hc.2
  | start c t =>
    simp only at hs
    split_ifs at hs with hc
    cases hs
    exact h.start hc.2.1
  | reap t =>
    simp only at hs
    split_ifs at hs
    cases hs
    exact ⟨h.panic, h.cpu, fun t' self intena ht => h.context t' self intena (Inv.setContext_none ht)⟩

end Parts

theorem inv_init (ptable : κ) (flag : γ → Bool) : Inv ptable (init flag : Sys γ τ κ) where
  panic := rfl
  cpu _ := ⟨rfl, rfl, fun h => absurd h (Nat.lt_irrefl 0), fun _ => ⟨nofun, nofun⟩, List.nodup_nil, nofun,
    fun h => absurd rfl h⟩
  context _ _ _ h := nomatch h

/-- The event is a `popcli` on the CPU, by itself or in `release`. -/
def Event.Pops (c : γ) (e : Event γ τ κ) : Prop := e = .popcli c ∨ ∃ k, e = .release c k

/-- Nothing panics; `ncli` is what was pushed and not popped on the CPU and what the thread on it has
outstanding, and interrupts are off while it is positive; and the outermost `popcli` of a thread gives it
the flag it had before its outermost `pushcli`, except that a scheduler which has run a process since gets
the flag of that process. -/
theorem cli_restored [DecidableEq γ] [DecidableEq τ] [DecidableEq κ] (ptable : κ) (flag : γ → Bool)
    (es : List (Event γ τ κ)) {s : Sys γ τ κ} (hrun : runs (step ptable) (init flag) es = some s) :
    s.panic = none ∧
    (∀ c, ((s.cpu c).pushed : Int) = (s.cpu c).ncli + (s.cpu c).popped ∧
      (s.cpu c).ncli = (s.cpu c).self.depth ∧ (0 < (s.cpu c).ncli → (s.cpu c).flag = false)) ∧
    ∀ c e s', e.Pops c → step ptable s e = some s' → s'.panic = none ∧
      ((s.cpu c).self.depth = 1 → (s.cpu c).proc ≠ none ∨ (s.cpu c).self.handed = none →
        (s'.cpu c).flag = (s.cpu c).self.before) ∧
      ((s.cpu c).self.depth = 1 → (s.cpu c).proc = none → ∀ on ∈ (s.cpu c).self.handed,
        (s'.cpu c).flag = on) := by
  have h : Inv ptable s := runs_inv_all (fun _ _ _ h hs => h.step hs) (inv_init ptable flag) hrun
  refine ⟨h.panic, fun c => ?_, fun c e s' he hs => ?_⟩
  · have hc := h.cpu c
    refine ⟨hc.pushed, hc.ncli, fun hpos => (hc.off ?_).1⟩
    have := hc.ncli
    omega
  · have hflag : (s.cpu c).self.depth = 1 → (s'.cpu c).flag = (s.cpu c).self.restores := by
      intro hd
      unfold step at hs
      rw [if_neg (not_not.mpr h.panic)] at hs
      rcases he with rfl | ⟨k, rfl⟩
      · simp only at hs
        split_ifs at hs with hc
        cases hs
        exact (h.popcli_raw hc.1 hc.2).2.trans (if_pos hd)
      · simp only at hs
        split_ifs at hs with hc
        cases hs
        exact (h.release hc.1 hc.2).2.trans (if_pos hd)
    refine ⟨(h.step hs).panic, fun hd hp => ?_, fun hd _ on hon => ?_⟩
    · have hhanded : (s.cpu c).self.handed = none := hp.elim (fun hp => ((h.cpu c).proc hp).1) id
      rw [hflag hd, Thread.restores, hhanded]
      rfl
    · rw [hflag hd, Thread.restores, Option.mem_def.mp hon]
      rfl

/-- The scheduler of the one CPU, with interrupts on, starts the one process. -/
def firstRun : List (Event Unit Unit Unit) := [.acquire () (), .take (), .start () ()]

theorem firstRun_runs : (runs (step ()) (init fun _ => true) firstRun).isSome = true := by
  decide

theorem firstRun_release_runs : (step () ((runs (step ()) (init fun _ => true) firstRun).get firstRun_runs)
    (.release () ())).isSome = true := by
  decide

/-- `forkret`'s release is the outermost of the process and turns interrupts on. -/
theorem firstRun_restored : ∃ (es : List (Event Unit Unit Unit)) (s s' : Sys Unit Unit Unit),
    runs (step ()) (init fun _ => true) es = some s ∧ step () s (.release () ()) = some s' ∧
      (s'.cpu ()).flag = true := by
  have hs := (Option.some_get firstRun_release_runs).symm
  refine ⟨firstRun, _, _, (Option.some_get firstRun_runs).symm, hs, ?_⟩
  obtain ⟨-, -, hpops⟩ := cli_restored () (fun _ => true) firstRun (Option.some_get firstRun_runs).symm
  exact (hpops () _ _ (.inr ⟨(), rfl⟩) hs).2.1 (by decide) (.inl (by decide))

/-- After it the process is interrupted by the timer and yields. -/
def preempted : List (Event Unit Unit Unit) :=
  firstRun ++ [.release () (), .flag () false, .acquire () (), .take (), .sched ()]

theorem preempted_runs : (runs (step ()) (init fun _ => true) preempted).isSome = true := by
  decide

theorem preempted_release_runs : (step () ((runs (step ()) (init fun _ => true) preempted).get
    preempted_runs) (.release () ())).isSome = true := by
  decide

/-- The scheduler had interrupts on before it acquired `ptable.lock`, and has them off after it has
released it. -/
theorem scheduler_not_restored : ∃ (es : List (Event Unit Unit Unit)) (s s' : Sys Unit Unit Unit),
    runs (step ()) (init fun _ => true) es = some s ∧ (s.cpu ()).proc = none ∧
    (s.cpu ()).self.depth = 1 ∧ (s.cpu ()).self.before = true ∧
    step () s (.release () ()) = some s' ∧ (s'.cpu ()).flag = false :=
  ⟨preempted, _, _, (Option.some_get preempted_runs).symm, by decide, by decide,
    by decide, (Option.some_get preempted_release_runs).symm, by decide⟩

end Xv6.Cli
