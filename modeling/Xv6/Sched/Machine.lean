import Xv6.Lib.Runs
import Xv6.Rand.Generator
import Xv6.Sched.Table

/-!
# Sched — the lottery scheduler, on several CPUs

`scheduler()` as a state machine of one CPU, against a table that the other CPUs change.

The ticket tally reads the slots one at a time and without `ptable.lock`, so each of its reads is
a step of its own: the test of a slot's state (`Event.tally`) and the reading of its tickets
(`Event.add`).  The draw (`Event.draw`) carries the values `genrand` returns to it.  The scan runs
under `ptable.lock` and is one step (`Event.scan`): what other CPUs do without the lock,
`settickets` of a running process and giving back an embryo, concerns no runnable slot.

The remaining events are what processes and interrupt handlers do to the table.  `wakeup1` and
`kill` are taken a slot at a time, since a tally on another CPU can run between two iterations of
their loops.
-/

namespace Xv6.Sched
open Lib Xv6.Rand

/-! ### The tally and the scan -/

/-- The scan's loop, from the slots still ahead and the count so far. -/
def scanFrom (t : Table) (winning : Int32) : List Slot → Int32 → Option Slot
  | [], _ => none
  | p :: ps, count =>
      if (t p).state ≠ .runnable then scanFrom t winning ps count
      else
        let count := count + (t p).tickets
        if count < winning then scanFrom t winning ps count else some p

/-- The loop over the process table under `ptable.lock`: the slot picked, if any. -/
def scan (t : Table) (winning : Int32) : Option Slot := scanFrom t winning (List.finRange nproc) 0

/-- The tally's loop, when nothing changes the table meanwhile. -/
def totalTickets (t : Table) : Int32 :=
  (List.finRange nproc).foldl
    (fun total p => if (t p).state = .runnable then total + (t p).tickets else total) 0

/-! ### The system -/

/-- Where `scheduler()` stands on a CPU. -/
inductive Pc where
  /-- the head of the loop, with `foundproc` as the last scan left it -/
  | top (foundproc : Bool)
  /-- the tally is about to test slot `i` -/
  | tally (i : Nat) (total : Int32)
  /-- the tally found slot `p` runnable and is about to add its tickets -/
  | add (p : Slot) (total : Int32)
  /-- about to call `random_at_most(total)` -/
  | draw (total : Int32)
  /-- about to acquire `ptable.lock` and scan for `winning` -/
  | lock (total winning : Int32)
  /-- switched to the process in slot `p`, which is `proc` on this CPU -/
  | running (p : Slot)
  deriving DecidableEq, Repr

/-- The table, `nextpid`, `initproc` and the CPUs. -/
@[ext] structure Sys (C : Type) where
  proc : Table
  nextpid : Int32
  initproc : Option Slot
  cpu : C → Pc

/-- The state in which the CPUs enter `scheduler()`; a CPU may do so before the boot CPU has run
`userinit`. -/
def Sys.boot (C : Type) : Sys C := ⟨fun _ => .zero, 1, none, fun _ => .top true⟩

/-- What happens next, and on which CPU. -/
inductive Event (C : Type) where
  | userinit
  /-- the head of the loop; `hlt` is executed when `foundproc` is `0` -/
  | enter (c : C)
  | tally (c : C)
  | add (c : C)
  | draw (c : C) (raws : List UInt32)
  | scan (c : C)
  | yield (c : C)
  | sleep (c : C) (chan : Chan)
  | exit (c : C)
  | settickets (c : C) (arg : Option Int32)
  /-- `allocproc` finds a slot -/
  | alloc (c : C)
  /-- `allocproc` or `fork` gives the embryo `q` back -/
  | unalloc (c : C) (q : Slot)
  /-- `fork` makes the embryo `q` runnable -/
  | fork (c : C) (q : Slot)
  /-- `wait` frees the zombie child `q` -/
  | reap (c : C) (q : Slot)
  /-- `wakeup1(chan)`, by a process or an interrupt handler, at slot `q` -/
  | wake (chan : Chan) (q : Slot)
  /-- `kill`, at slot `q` -/
  | kill (c : C) (q : Slot)
  deriving Repr

/-- The slot `allocproc` finds. -/
def firstUnused (t : Table) : Option Slot :=
  (List.finRange nproc).find? fun p => decide ((t p).state = .unused)

variable {C : Type}

/-- Slot `p` becomes `f` of itself. -/
def Sys.setProc (s : Sys C) (p : Slot) (f : Proc → Proc) : Sys C :=
  { s with proc := Function.update s.proc p (f (s.proc p)) }

/-- `allocproc` under `ptable.lock`: the slot and the system after. -/
def Sys.allocproc (s : Sys C) : Option (Slot × Sys C) :=
  (firstUnused s.proc).map fun p =>
    (p, { s.setProc p (·.alloc s.nextpid) with nextpid := s.nextpid + 1 })

/-- The process `p` running on `c` does `f p` to slot `q`, when `ok p` holds of it. -/
def Sys.act (s : Sys C) (c : C) (q : Slot) (ok : Slot → Proc → Bool) (f : Slot → Proc → Proc) :
    Option (Sys C) :=
  match s.cpu c with
  | .running p => if ok p (s.proc q) then some (s.setProc q (f p)) else none
  | _ => none

namespace Sys

variable {s s' : Sys C} {c : C} {p q : Slot} {f : Proc → Proc}

@[simp] theorem setProc_cpu : (s.setProc p f).cpu = s.cpu := rfl

@[simp] theorem setProc_proc_self : (s.setProc p f).proc p = f (s.proc p) := by
  simp [setProc]

theorem setProc_proc_of_ne (h : q ≠ p) : (s.setProc p f).proc q = s.proc q := by
  simp [setProc, h]

theorem act_eq_some {ok : Slot → Proc → Bool} {g : Slot → Proc → Proc} :
    s.act c q ok g = some s' ↔
      ∃ p, s.cpu c = .running p ∧ ok p (s.proc q) = true ∧ s' = s.setProc q (g p) := by
  unfold act
  cases s.cpu c with
  | running p =>
      simp only [Option.ite_none_right_eq_some, Option.some.injEq, Pc.running.injEq]
      exact ⟨fun ⟨h, e⟩ => ⟨p, rfl, h, e.symm⟩, fun ⟨_, hp, h, e⟩ => by subst hp; exact ⟨h, e.symm⟩⟩
  | _ => simp

theorem allocproc_eq_some :
    s.allocproc = some (p, s') ↔
      firstUnused s.proc = some p ∧
        s' = { s.setProc p (·.alloc s.nextpid) with nextpid := s.nextpid + 1 } := by
  unfold allocproc
  cases firstUnused s.proc with
  | none => simp
  | some q =>
      simp only [Option.map_some, Option.some.injEq, Prod.mk.injEq]
      exact ⟨fun ⟨h₁, h₂⟩ => by subst h₁; exact ⟨rfl, h₂.symm⟩,
        fun ⟨h₁, h₂⟩ => by subst h₁; exact ⟨rfl, h₂.symm⟩⟩

end Sys

/-- A slot whose tickets `f` keeps, has them after `f` was done to any slot. -/
theorem setProc_tickets {s : Sys C} {q : Slot} {f : Proc → Proc}
    (hf : ∀ x : Proc, (f x).tickets = x.tickets) (p : Slot) :
    ((s.setProc q f).proc p).tickets = (s.proc p).tickets := by
  by_cases hp : p = q
  · subst hp
    rw [Sys.setProc_proc_self, hf]
  · rw [Sys.setProc_proc_of_ne hp]

theorem allocproc_tickets {s s' : Sys C} {q : Slot} (h : s.allocproc = some (q, s')) (p : Slot) :
    (s'.proc p).tickets = (s.proc p).tickets ∨ (s'.proc p).tickets = defaultTickets := by
  obtain ⟨-, rfl⟩ := Sys.allocproc_eq_some.mp h
  by_cases hp : p = q
  · subst hp
    exact Or.inr (by rw [Sys.setProc_proc_self]; rfl)
  · exact Or.inl (by rw [Sys.setProc_proc_of_ne hp])

variable [DecidableEq C]

/-- CPU `c` moves to `pc`. -/
def Sys.setCpu (s : Sys C) (c : C) (pc : Pc) : Sys C :=
  { s with cpu := Function.update s.cpu c pc }

/-- The process running on `c` does `f` to its own slot and enters the scheduler, which comes back
to the head of its loop with `foundproc = 1`. -/
def Sys.leave (s : Sys C) (c : C) (f : Proc → Proc) : Option (Sys C) :=
  match s.cpu c with
  | .running p => some ((s.setProc p f).setCpu c (.top true))
  | _ => none

/-- One event. -/
def step (s : Sys C) : Event C → Option (Sys C)
  | .userinit =>
      if s.initproc = none then
        s.allocproc.map fun (p, s') => { s'.setProc p Proc.ready with initproc := some p }
      else none
  | .enter c =>
      match s.cpu c with
      | .top _ => some (s.setCpu c (.tally 0 0))
      | _ => none
  | .tally c =>
      match s.cpu c with
      | .tally i total =>
          if h : i < nproc then
            if (s.proc ⟨i, h⟩).state = .runnable then some (s.setCpu c (.add ⟨i, h⟩ total))
            else some (s.setCpu c (.tally (i + 1) total))
          else some (s.setCpu c (.draw total))
      | _ => none
  | .add c =>
      match s.cpu c with
      | .add p total => some (s.setCpu c (.tally (p + 1) (total + (s.proc p).tickets)))
      | _ => none
  | .draw c raws =>
      match s.cpu c with
      | .draw total =>
          if ∀ x ∈ raws, x ≤ randMax then
            match randomAtMost total raws with
            | .value w => some (s.setCpu c (.lock total w))
            | _ => none
          else none
      | _ => none
  | .scan c =>
      match s.cpu c with
      | .lock _ winning =>
          match scan s.proc winning with
          | none => some (s.setCpu c (.top false))
          | some p => some ((s.setProc p Proc.chosen).setCpu c (.running p))
      | _ => none
  | .yield c => s.leave c Proc.yield
  | .sleep c chan => s.leave c (·.sleep chan)
  | .exit c =>
      match s.cpu c with
      | .running p =>
          let s' := { s with proc := fun q => (s.proc q).reparent p s.initproc }
          s'.leave c Proc.exit
      | _ => none
  | .settickets c arg =>
      match s.cpu c with
      | .running p => some (s.setProc p (·.settickets arg))
      | _ => none
  | .alloc c =>
      match s.cpu c with
      | .running _ => s.allocproc.map Prod.snd
      | _ => none
  | .unalloc c q => s.act c q (fun _ e => e.state = .embryo) fun _ => Proc.unalloc
  | .fork c q => s.act c q (fun _ e => e.state = .embryo) fun p e => e.forked p
  | .reap c q => s.act c q (fun p z => z.parent = some p ∧ z.state = .zombie) fun _ => Proc.reap
  | .wake chan q => some (s.setProc q (·.wake chan))
  | .kill c q => s.act c q (fun _ _ => true) fun _ => Proc.kill

/-! ### What a step can do -/

namespace Sys

variable {s s' : Sys C} {c d : C} {f : Proc → Proc} {pc : Pc}

@[simp] theorem setCpu_proc : (s.setCpu c pc).proc = s.proc := rfl

@[simp] theorem setCpu_cpu_self : (s.setCpu c pc).cpu c = pc := by
  simp [setCpu]

theorem setCpu_cpu_of_ne (h : d ≠ c) : (s.setCpu c pc).cpu d = s.cpu d := by
  simp [setCpu, h]

theorem leave_eq_some :
    s.leave c f = some s' ↔
      ∃ p, s.cpu c = .running p ∧ s' = (s.setProc p f).setCpu c (.top true) := by
  unfold leave
  cases s.cpu c <;> simp [eq_comm]

end Sys

/-- The moves of `scheduler()` on CPU `d` and the events that make them, in the table of `s`. -/
inductive Moves (s : Sys C) (d : C) : Event C → Pc → Pc → Prop where
  | enter (fp : Bool) : Moves s d (.enter d) (.top fp) (.tally 0 0)
  | found {i : Nat} {total : Int32} (h : i < nproc) (hr : (s.proc ⟨i, h⟩).state = .runnable) :
      Moves s d (.tally d) (.tally i total) (.add ⟨i, h⟩ total)
  | skip {i : Nat} {total : Int32} (h : i < nproc) :
      Moves s d (.tally d) (.tally i total) (.tally (i + 1) total)
  | tallied {i : Nat} {total : Int32} (h : ¬ i < nproc) :
      Moves s d (.tally d) (.tally i total) (.draw total)
  | added (p : Slot) (total : Int32) :
      Moves s d (.add d) (.add p total) (.tally (p + 1) (total + (s.proc p).tickets))
  | drawn {total w : Int32} {raws : List UInt32} (h : CanDraw total w) :
      Moves s d (.draw d raws) (.draw total) (.lock total w)
  | idle {total w : Int32} (h : scan s.proc w = none) :
      Moves s d (.scan d) (.lock total w) (.top false)
  | picked {total w : Int32} {p : Slot} (h : scan s.proc w = some p) :
      Moves s d (.scan d) (.lock total w) (.running p)
  | left {e : Event C} (p : Slot) : Moves s d e (.running p) (.top true)

theorem cpu_setCpu {s s₁ : Sys C} {c : C} {e : Event C} {pc : Pc} (hcpu : s₁.cpu = s.cpu)
    (hm : Moves s c e (s.cpu c) pc) (d : C) :
    (s₁.setCpu c pc).cpu d = s.cpu d ∨ Moves s d e (s.cpu d) ((s₁.setCpu c pc).cpu d) := by
  by_cases hd : d = c
  · subst hd
    rw [Sys.setCpu_cpu_self]
    exact Or.inr hm
  · rw [Sys.setCpu_cpu_of_ne hd, hcpu]
    exact Or.inl rfl

/-- **What a step does to a CPU**: nothing, or one of its scheduler's moves. -/
theorem step_cpu {s s' : Sys C} {e : Event C} (h : step s e = some s') (d : C) :
    s'.cpu d = s.cpu d ∨ Moves s d e (s.cpu d) (s'.cpu d) := by
  cases e with
  | userinit =>
      simp only [step] at h
      split at h
      · obtain ⟨⟨p, s₁⟩, h₁, rfl⟩ := Option.map_eq_some_iff.mp h
        obtain ⟨-, rfl⟩ := Sys.allocproc_eq_some.mp h₁
        exact Or.inl rfl
      · cases h
  | enter c =>
      simp only [step] at h
      split at h
      · rename_i fp hc
        cases h
        exact cpu_setCpu (s := s) rfl (by rw [hc]; exact .enter fp) d
      · cases h
  | tally c =>
      simp only [step] at h
      split at h
      · rename_i i total hc
        split at h
        · rename_i hi
          split at h
          · rename_i hr
            cases h
            exact cpu_setCpu (s := s) rfl (by rw [hc]; exact .found hi hr) d
          · cases h
            exact cpu_setCpu (s := s) rfl (by rw [hc]; exact .skip hi) d
        · rename_i hi
          cases h
          exact cpu_setCpu (s := s) rfl (by rw [hc]; exact .tallied hi) d
      · cases h
  | add c =>
      simp only [step] at h
      split at h
      · rename_i p total hc
        cases h
        exact cpu_setCpu (s := s) rfl (by rw [hc]; exact .added p total) d
      · cases h
  | draw c raws =>
      simp only [step] at h
      split at h
      · rename_i total hc
        split at h
        · rename_i hraws
          split at h
          · rename_i w hw
            cases h
            exact cpu_setCpu (s := s) rfl (by rw [hc]; exact .drawn ⟨raws, hraws, hw⟩) d
          · cases h
        · cases h
      · cases h
  | scan c =>
      simp only [step] at h
      split at h
      · rename_i total w hc
        split at h
        · rename_i hs
          cases h
          exact cpu_setCpu (s := s) rfl (by rw [hc]; exact .idle hs) d
        · rename_i p hs
          cases h
          exact cpu_setCpu (s := s) rfl (by rw [hc]; exact .picked hs) d
      · cases h
  | yield c =>
      simp only [step] at h
      obtain ⟨p, hc, rfl⟩ := Sys.leave_eq_some.mp h
      exact cpu_setCpu (s := s) rfl (by rw [hc]; exact .left p) d
  | sleep c chan =>
      simp only [step] at h
      obtain ⟨p, hc, rfl⟩ := Sys.leave_eq_some.mp h
      exact cpu_setCpu (s := s) rfl (by rw [hc]; exact .left p) d
  | exit c =>
      simp only [step] at h
      split at h
      · rename_i p hc
        obtain ⟨q, hq, rfl⟩ := Sys.leave_eq_some.mp h
        exact cpu_setCpu (s := s) rfl (by rw [hc]; exact .left p) d
      · cases h
  | settickets c arg =>
      simp only [step] at h
      split at h
      · cases h; exact Or.inl rfl
      · cases h
  | alloc c =>
      simp only [step] at h
      split at h
      · obtain ⟨⟨p, s₁⟩, h₁, rfl⟩ := Option.map_eq_some_iff.mp h
        obtain ⟨-, rfl⟩ := Sys.allocproc_eq_some.mp h₁
        exact Or.inl rfl
      · cases h
  | unalloc c q | fork c q | reap c q | kill c q =>
      simp only [step] at h
      obtain ⟨p, -, -, rfl⟩ := Sys.act_eq_some.mp h
      exact Or.inl rfl
  | wake chan q =>
      cases h
      exact Or.inl rfl

/-- **What a step does to a slot's tickets**: nothing, or it sets the default, or it is a
`settickets` and sets its argument. -/
theorem step_tickets {s s' : Sys C} {e : Event C} (h : step s e = some s') (p : Slot) :
    (s'.proc p).tickets = (s.proc p).tickets ∨ (s'.proc p).tickets = defaultTickets ∨
      ∃ c n, e = .settickets c (some n) ∧ (s'.proc p).tickets = n := by
  cases e with
  | userinit =>
      simp only [step] at h
      split at h
      · obtain ⟨⟨q, s₁⟩, h₁, rfl⟩ := Option.map_eq_some_iff.mp h
        have hset := setProc_tickets (s := s₁) (q := q) (f := Proc.ready) (fun _ => rfl) p
        rcases allocproc_tickets h₁ p with h₂ | h₂
        · exact Or.inl (hset.trans h₂)
        · exact Or.inr (Or.inl (hset.trans h₂))
      · cases h
  | enter c =>
      simp only [step] at h
      split at h
      · cases h; exact Or.inl rfl
      · cases h
  | tally c =>
      simp only [step] at h
      split at h
      · split at h
        · split at h <;> cases h <;> exact Or.inl rfl
        · cases h; exact Or.inl rfl
      · cases h
  | add c =>
      simp only [step] at h
      split at h
      · cases h; exact Or.inl rfl
      · cases h
  | draw c raws =>
      simp only [step] at h
      split at h
      · split at h
        · split at h
          · cases h; exact Or.inl rfl
          · cases h
        · cases h
      · cases h
  | scan c =>
      simp only [step] at h
      split at h
      · split at h
        · cases h; exact Or.inl rfl
        · cases h
          refine Or.inl (setProc_tickets ?_ p)
          exact fun _ => rfl
      · cases h
  | yield c =>
      simp only [step] at h
      obtain ⟨q, -, rfl⟩ := Sys.leave_eq_some.mp h
      refine Or.inl (setProc_tickets ?_ p)
      exact fun _ => rfl
  | sleep c chan =>
      simp only [step] at h
      obtain ⟨q, -, rfl⟩ := Sys.leave_eq_some.mp h
      exact Or.inl (setProc_tickets (f := (·.sleep chan)) (fun _ => rfl) p)
  | exit c =>
      simp only [step] at h
      split at h
      · obtain ⟨q, -, rfl⟩ := Sys.leave_eq_some.mp h
        refine Or.inl ((setProc_tickets (f := Proc.exit) (fun _ => rfl) p).trans ?_)
        simp only [Proc.reparent]
        split <;> rfl
      · cases h
  | settickets c arg =>
      simp only [step] at h
      split at h
      · rename_i q hc
        cases h
        by_cases hp : p = q
        · subst hp
          cases arg with
          | none => exact Or.inr (Or.inl (by rw [Sys.setProc_proc_self]; rfl))
          | some n => exact Or.inr (Or.inr ⟨c, n, rfl, by rw [Sys.setProc_proc_self]; rfl⟩)
        · exact Or.inl (by rw [Sys.setProc_proc_of_ne hp])
      · cases h
  | alloc c =>
      simp only [step] at h
      split at h
      · obtain ⟨⟨q, s₁⟩, h₁, rfl⟩ := Option.map_eq_some_iff.mp h
        rcases allocproc_tickets h₁ p with h₂ | h₂
        · exact Or.inl h₂
        · exact Or.inr (Or.inl h₂)
      · cases h
  | unalloc c q | fork c q | reap c q | kill c q =>
      simp only [step] at h
      obtain ⟨r, -, -, rfl⟩ := Sys.act_eq_some.mp h
      refine Or.inl (setProc_tickets ?_ p)
      exact fun _ => rfl
  | wake chan q =>
      cases h
      refine Or.inl (setProc_tickets (fun x => ?_) p)
      simp only [Proc.wake]
      split <;> rfl

end Xv6.Sched
