import Xv6.Sched.Machine

/-!
# Life — the life of processes

`fork`, `exit`, `wait`, `sleep`, `wakeup` and `kill` of `proc.c`, as steps of the processes of the
table.  What the code does while it has `ptable.lock` is one step.  `fork` also writes to the slot of
the child without the lock, and each such write is a step: `allocproc` or `fork` gives the slot back
when memory runs out (`Event.fail`), and `fork` sets the parent (`Event.adopt`).  Where a process
stands in these functions is its `Pc`; which CPU runs it does not matter.

Some fields record what happened.  `id` numbers the processes: `allocproc` gives the next number to
its slot.  `called` says whether `kill` has been called with the pid of the process in the slot since
`allocproc` assigned it.  `waits` lists the processes `wait` has returned, with their callers.
-/

namespace Xv6.Life
open Lib
open Sched (Slot Table Proc ProcState Chan firstUnused nproc)

/-! ### Loops over the table -/

def wakeup1 (t : Table) (chan : Chan) : Table := fun x => (t x).wake chan

/-- `kill`'s loop: the slot it stops at. -/
def killSlot (t : Table) (pid : Int32) : Option Slot :=
  (List.finRange nproc).find? fun x => decide ((t x).pid = pid)

/-- What `kill` returns. -/
def killRet (t : Table) (pid : Int32) : Int32 :=
  match killSlot t pid with
  | some _ => 0
  | none => -1

/-- The table `kill` leaves. -/
def killTable (t : Table) (pid : Int32) : Table :=
  match killSlot t pid with
  | some x => Function.update t x (t x).kill
  | none => t

/-- The address of a slot as a channel; `wakeup1(proc->parent)` of a process without a parent is
`wakeup1(0)`. -/
def chanOf : Option Slot → Chan
  | some p => .proc p
  | none => .null

/-- A round of `exit`'s loop, which passes the children of `p` to `initproc`. -/
def passChild (initproc p : Slot) (t : Table) (x : Slot) : Table :=
  if (t x).parent = some p then
    if (t x).state = .zombie then
      wakeup1 (Function.update t x { t x with parent := some initproc }) (.proc initproc)
    else Function.update t x { t x with parent := some initproc }
  else t

/-- `exit`, from `acquire(&ptable.lock)` to `sched()`. -/
def exitTable (initproc p : Slot) (t : Table) : Table :=
  let t := wakeup1 t (chanOf (t p).parent)
  let t := (List.finRange nproc).foldl (passChild initproc p) t
  Function.update t p (t p).exit

/-- `wait`'s loop: the zombie child it finds. -/
def zombieChild (t : Table) (p : Slot) : Option Slot :=
  (List.finRange nproc).find? fun x =>
    decide ((t x).parent = some p) && decide ((t x).state = .zombie)

/-- `havekids`, when no zombie child is found. -/
def havekids (t : Table) (p : Slot) : Bool :=
  (List.finRange nproc).any fun x => decide ((t x).parent = some p)

/-! ### The system -/

/-- Where a process stands. -/
inductive Pc where
  | user
  /-- in `fork`, with the slot `allocproc` found -/
  | fork (np : Slot)
  /-- in `fork`, after `np->parent = proc` -/
  | forked (np : Slot)
  /-- in `wait`, at its `sleep` -/
  | wait
  deriving DecidableEq, Repr

structure Sys where
  proc : Table
  nextpid : Int32
  initproc : Slot
  pc : Slot → Pc
  id : Slot → Nat
  born : Nat
  called : Slot → Bool
  waits : List (Slot × Nat)

inductive Event where
  /-- the process calls `fork`, which calls `allocproc` -/
  | alloc (p : Slot)
  /-- there is no memory for the kernel stack or the page table of the child -/
  | fail (p : Slot)
  | adopt (p : Slot)
  /-- `fork` makes the child `RUNNABLE` and returns its pid -/
  | ready (p : Slot)
  | exit (p : Slot)
  /-- a round of `wait`'s loop, at its beginning or after its `sleep` -/
  | wait (p : Slot)
  /-- `sleep` on the address of a kernel object -/
  | sleep (p : Slot) (a : Nat)
  | wakeup (chan : Chan)
  | kill (pid : Int32)
  /-- `trap` kills the process it interrupted -/
  | fault (p : Slot)
  | yield (p : Slot)
  /-- `scheduler` switches to the process, which then sets `proc->chan = 0` if it was in `sleep` -/
  | run (p : Slot)
  deriving Repr

namespace Sys

def setProc (s : Sys) (p : Slot) (f : Proc → Proc) : Sys :=
  { s with proc := Function.update s.proc p (f (s.proc p)) }

def setPc (s : Sys) (p : Slot) (pc : Pc) : Sys := { s with pc := Function.update s.pc p pc }

/-- `allocproc` under `ptable.lock`, at the slot it finds. -/
def allocproc (s : Sys) (np : Slot) : Sys :=
  { s.setProc np (·.alloc s.nextpid) with
    nextpid := s.nextpid + 1
    id := Function.update s.id np s.born
    born := s.born + 1
    called := Function.update s.called np false }

/-- The child `z` is freed and returned. -/
def reap (s : Sys) (p z : Slot) : Sys :=
  { s.setProc z (·.reap) with
    pc := Function.update s.pc p .user
    waits := s.waits ++ [(p, s.id z)] }

/-- A round of `wait`'s loop. -/
def waitRound (s : Sys) (p : Slot) : Sys :=
  match zombieChild s.proc p with
  | some z => s.reap p z
  | none =>
      if !havekids s.proc p || (s.proc p).killed then s.setPc p .user
      else (s.setProc p (·.sleep (.proc p))).setPc p .wait

end Sys

/-- What an event does, if it can happen. -/
def step (s : Sys) : Event → Option Sys
  | .alloc p =>
      if (s.proc p).state = .running ∧ s.pc p = .user then
        match firstUnused s.proc with
        | some np => some ((s.allocproc np).setPc p (.fork np))
        | none => some s
      else none
  | .fail p =>
      match s.pc p with
      | .fork np => if (s.proc p).state = .running then some ((s.setProc np (·.unalloc)).setPc p .user)
          else none
      | _ => none
  | .adopt p =>
      match s.pc p with
      | .fork np =>
          if (s.proc p).state = .running then
            some ((s.setProc np ({ · with parent := some p })).setPc p (.forked np))
          else none
      | _ => none
  | .ready p =>
      match s.pc p with
      | .forked np =>
          if (s.proc p).state = .running then
            some (((s.setProc np (·.ready)).setPc np .user).setPc p .user)
          else none
      | _ => none
  | .exit p =>
      if (s.proc p).state = .running ∧ s.pc p = .user ∧ p ≠ s.initproc then
        some { s with proc := exitTable s.initproc p s.proc }
      else none
  | .wait p =>
      if (s.proc p).state = .running ∧ (s.pc p = .user ∨ s.pc p = .wait) then some (s.waitRound p)
      else none
  | .sleep p a =>
      if (s.proc p).state = .running ∧ s.pc p = .user then some (s.setProc p (·.sleep (.addr a)))
      else none
  | .wakeup chan => some { s with proc := wakeup1 s.proc chan }
  | .kill pid => some { s with
      proc := killTable s.proc pid
      called := fun x => s.called x || decide ((s.proc x).pid = pid) }
  | .fault p =>
      if (s.proc p).state = .running then some (s.setProc p ({ · with killed := true })) else none
  | .yield p => if (s.proc p).state = .running then some (s.setProc p (·.yield)) else none
  | .run p =>
      if (s.proc p).state = .runnable then
        some (s.setProc p fun x => { x.chosen with chan := .null })
      else none

/-- The state `userinit` leaves: `initproc` is the first slot, with pid 1. -/
def boot : Sys where
  proc x := if x = 0 then (Proc.zero.alloc 1).ready else .zero
  nextpid := 2
  initproc := 0
  pc _ := .user
  id _ := 0
  born := 1
  called _ := false
  waits := []

/-! ### What the loops do -/

section Loops
variable {t : Table} {p q x initproc : Slot} {pid : Int32} {chan : Chan}

theorem killSlot_eq_some (h : killSlot t pid = some x) : (t x).pid = pid := by
  simpa using List.find?_some h

theorem killSlot_eq_none : killSlot t pid = none ↔ ∀ x, (t x).pid ≠ pid := by
  simp [killSlot]

theorem zombieChild_eq_some (h : zombieChild t p = some x) :
    (t x).parent = some p ∧ (t x).state = .zombie := by
  simpa using List.find?_some h

theorem zombieChild_eq_none (h : zombieChild t p = none) (x : Slot)
    (hx : (t x).parent = some p) : (t x).state ≠ .zombie := by
  simpa [hx] using List.find?_eq_none.mp h x (List.mem_finRange x)

theorem firstUnused_eq_some (h : firstUnused t = some x) : (t x).state = .unused := by
  simpa using List.find?_some h

/-- `wakeup1` changes nothing but states, and these only from `SLEEPING` to `RUNNABLE`. -/
@[simp] theorem wake_parent (x : Proc) (chan : Chan) : (x.wake chan).parent = x.parent := by
  unfold Proc.wake
  split <;> rfl

@[simp] theorem wake_chan (x : Proc) (chan : Chan) : (x.wake chan).chan = x.chan := by
  unfold Proc.wake
  split <;> rfl

@[simp] theorem wake_killed (x : Proc) (chan : Chan) : (x.wake chan).killed = x.killed := by
  unfold Proc.wake
  split <;> rfl

@[simp] theorem wake_pid (x : Proc) (chan : Chan) : (x.wake chan).pid = x.pid := by
  unfold Proc.wake
  split <;> rfl

theorem wake_state (x : Proc) (chan : Chan) : (x.wake chan).state = x.state ∨
    x.state = .sleeping ∧ (x.wake chan).state = .runnable := by
  unfold Proc.wake
  split
  · rename_i h
    exact .inr ⟨h.1, rfl⟩
  · exact .inl rfl

/-- Nobody sleeps on a channel that is woken. -/
theorem not_sleeping_wake (y : Proc) : ¬ ((y.wake chan).state = .sleeping ∧ y.chan = chan) := by
  rintro ⟨hs, hc⟩
  unfold Proc.wake at hs
  split at hs
  · cases hs
  · rename_i h
    exact h ⟨hs, hc⟩

/-- What a loop of `exit` does to the slot `y`, given the parent it leaves. -/
structure Passed (y y' : Proc) (parent : Option Slot) : Prop where
  parent : y'.parent = parent
  pid : y'.pid = y.pid
  killed : y'.killed = y.killed
  chan : y'.chan = y.chan
  state : y'.state = y.state ∨ y.state = .sleeping ∧ y'.state = .runnable

theorem Passed.sleeping {y y' : Proc} {parent : Option Slot} (h : Passed y y' parent)
    (hs : y'.state = .sleeping) : y.state = .sleeping := by
  obtain he | ⟨-, he⟩ := h.state
  · rwa [he] at hs
  · rw [hs] at he
    cases he

theorem Passed.state_iff {y y' : Proc} {parent : Option Slot} (h : Passed y y' parent)
    {st : ProcState} (h₁ : st ≠ .sleeping) (h₂ : st ≠ .runnable) : y'.state = st ↔ y.state = st := by
  obtain he | ⟨he, he'⟩ := h.state
  · rw [he]
  · rw [he, he']
    exact ⟨fun h => absurd h.symm h₂, fun h => absurd h.symm h₁⟩

theorem passed_wake (y : Proc) (chan : Chan) : Passed y (y.wake chan) y.parent :=
  ⟨wake_parent y chan, wake_pid y chan, wake_killed y chan, wake_chan y chan, wake_state y chan⟩

theorem Passed.trans {y y' y'' : Proc} {par par' : Option Slot} (h : Passed y y' par)
    (h' : Passed y' y'' par') : Passed y y'' par' := by
  refine ⟨h'.parent, h'.pid.trans h.pid, h'.killed.trans h.killed, h'.chan.trans h.chan, ?_⟩
  obtain he | ⟨he, he'⟩ := h'.state
  · rw [he]
    exact h.state
  · exact .inr ⟨h.sleeping he, he'⟩

/-- The parent a child of `p` has after `exit`'s loop over `xs`. -/
def passedParent (initproc p : Slot) (xs : List Slot) (y : Slot) (parent : Option Slot) :
    Option Slot := if y ∈ xs ∧ parent = some p then some initproc else parent

theorem passed_update {parent : Option Slot} (y : Slot) :
    Passed (t y) (Function.update t x { t x with parent := parent } y)
      (if y = x then parent else (t y).parent) := by
  by_cases hyx : y = x
  · subst hyx
    rw [Function.update_self, if_pos rfl]
    exact ⟨rfl, rfl, rfl, rfl, .inl rfl⟩
  · rw [Function.update_of_ne hyx, if_neg hyx]
    exact ⟨rfl, rfl, rfl, rfl, .inl rfl⟩

/-- A round: a child is passed on, and a zombie child wakes `initproc`. -/
theorem passChild_passed (initproc p : Slot) (t : Table) (x : Slot) :
    (∀ y, Passed (t y) (passChild initproc p t x y) (passedParent initproc p [x] y (t y).parent)) ∧
    ((t x).parent = some p → (t x).state = .zombie →
      ∀ y, (passChild initproc p t x y).state = .sleeping → (t y).chan ≠ .proc initproc) := by
  have hpar : ∀ y, (t x).parent = some p → passedParent initproc p [x] y (t y).parent =
      if y = x then some initproc else (t y).parent := by
    intro y hx
    by_cases hyx : y = x
    · simp [passedParent, hyx, hx]
    · simp [passedParent, hyx]
  rw [passChild]
  split
  · rename_i hx
    split
    · refine ⟨fun y => ?_, fun _ _ y hy hc => ?_⟩
      · rw [hpar y hx]
        exact (passed_update y).trans ((passed_update y).parent ▸ passed_wake _ _)
      · refine not_sleeping_wake _ ⟨hy, ?_⟩
        rw [(passed_update y).chan]
        exact hc
    · rename_i hst
      refine ⟨fun y => ?_, fun _ hst' => absurd hst' hst⟩
      rw [hpar y hx]
      exact passed_update y
  · rename_i hx
    refine ⟨fun y => ⟨?_, rfl, rfl, rfl, .inl rfl⟩, fun hx' => absurd hx' hx⟩
    rw [passedParent, if_neg]
    rintro ⟨hy, hp⟩
    rw [List.mem_singleton.mp hy] at hp
    exact hx hp

/-- **`exit`'s loop**: the children in the list are passed on, and if one of them is a zombie nobody
sleeps on `initproc` any more. -/
theorem passChildren_passed (xs : List Slot) (t : Table) :
    (∀ y, Passed (t y) (xs.foldl (passChild initproc p) t y)
      (passedParent initproc p xs y (t y).parent)) ∧
    ((∃ x ∈ xs, (t x).parent = some p ∧ (t x).state = .zombie) →
      ∀ y, (xs.foldl (passChild initproc p) t y).state = .sleeping → (t y).chan ≠ .proc initproc) := by
  induction xs generalizing t with
  | nil =>
      refine ⟨fun y => ⟨?_, rfl, rfl, rfl, .inl rfl⟩, fun ⟨x, hx, _⟩ => by cases hx⟩
      simp [passedParent]
  | cons x xs ih =>
      rw [List.foldl_cons]
      obtain ⟨hround, hwake⟩ := passChild_passed initproc p t x
      obtain ⟨ih₁, ih₂⟩ := ih (passChild initproc p t x)
      refine ⟨fun y => ?_, ?_⟩
      · have hpar : passedParent initproc p (x :: xs) y (t y).parent =
            passedParent initproc p xs y (passChild initproc p t x y).parent := by
          rw [(hround y).parent]
          by_cases hp : (t y).parent = some p
          · by_cases hyx : y = x
            · subst hyx
              simp [passedParent, hp]
            · simp [passedParent, hp, hyx]
          · simp [passedParent, hp]
        rw [hpar]
        exact (hround y).trans (ih₁ y)
      · rintro ⟨z, hz, hpar, hst⟩ y hy
        by_cases hzx : z = x
        · subst hzx
          exact hwake hpar hst y ((ih₁ y).sleeping hy)
        · rw [← (hround y).chan]
          refine ih₂ ⟨z, (List.mem_cons.mp hz).resolve_left hzx, ?_, ?_⟩ y hy
          · simp [(hround z).parent, passedParent, hzx, hpar]
          · exact ((hround z).state_iff (by decide) (by decide)).mpr hst

/-- **`exit`.**  The children of `p` have `initproc` as their parent and all other slots keep theirs;
`p` is a zombie; nobody sleeps on the parent of `p`, nor on `initproc` if it got a zombie. -/
structure Exited (initproc p : Slot) (t t' : Table) : Prop where
  other : ∀ y ≠ p, Passed (t y) (t' y)
    (if (t y).parent = some p then some initproc else (t y).parent)
  self : Passed (t p) { t' p with state := (t p).state }
    (if (t p).parent = some p then some initproc else (t p).parent)
  zombie : (t' p).state = .zombie
  parent : ∀ y q, (t p).parent = some q → (t' y).state = .sleeping → (t y).chan ≠ .proc q
  init : ∀ x, (t x).parent = some p → (t x).state = .zombie →
    ∀ y, (t' y).state = .sleeping → (t y).chan ≠ .proc initproc

theorem exitTable_exited (t : Table) :
    Exited initproc p t (exitTable initproc p t) := by
  have hwake : ∀ y, Passed (t y) (wakeup1 t (chanOf (t p).parent) y) (t y).parent :=
    fun y => passed_wake _ _
  obtain ⟨hpass, hinit⟩ := passChildren_passed (List.finRange nproc)
    (wakeup1 t (chanOf (t p).parent))
  generalize ht₂ : (List.finRange nproc).foldl (passChild initproc p)
    (wakeup1 t (chanOf (t p).parent)) = t₂ at hpass hinit
  have hall : ∀ y, Passed (t y) (t₂ y)
      (if (t y).parent = some p then some initproc else (t y).parent) := by
    intro y
    have := (hwake y).trans (hpass y)
    simpa only [passedParent, (hwake y).parent, List.mem_finRange, true_and] using this
  have hexit : exitTable initproc p t = Function.update t₂ p (t₂ p).exit := by
    rw [← ht₂]
    rfl
  have hsleep : ∀ y, (exitTable initproc p t y).state = .sleeping → (t₂ y).state = .sleeping := by
    intro y hy
    rw [hexit] at hy
    by_cases hyp : y = p
    · subst hyp
      rw [Function.update_self] at hy
      cases hy
    · rwa [Function.update_of_ne hyp] at hy
  refine ⟨fun y hy => ?_, ?_, ?_, fun y q hq hy => ?_, fun x hx hz y hy => ?_⟩
  · rw [hexit, Function.update_of_ne hy]
    exact hall y
  · rw [hexit, Function.update_self]
    exact ⟨(hall p).parent, (hall p).pid, (hall p).killed, (hall p).chan, .inl rfl⟩
  · rw [hexit, Function.update_self]
    rfl
  · intro hc
    refine not_sleeping_wake (t y) ⟨(hpass y).sleeping (hsleep y hy), ?_⟩
    rw [hc, hq]
    rfl
  · rw [← (hwake y).chan]
    refine hinit ⟨x, List.mem_finRange x, ?_, ?_⟩ y (hsleep y hy)
    · rw [(hwake x).parent, hx]
    · exact ((hwake x).state_iff (by decide) (by decide)).mpr hz

end Loops

/-! ### What a step does -/

/-- The steps, one constructor for each way through the code. -/
inductive Step (s : Sys) : Event → Sys → Prop
  | full {p : Slot} (hrun : (s.proc p).state = .running) : Step s (.alloc p) s
  | alloc {p np : Slot} (hrun : (s.proc p).state = .running) (hpc : s.pc p = .user)
      (hnp : (s.proc np).state = .unused) :
      Step s (.alloc p) ((s.allocproc np).setPc p (.fork np))
  | fail {p np : Slot} (hpc : s.pc p = .fork np) :
      Step s (.fail p) ((s.setProc np (·.unalloc)).setPc p .user)
  | adopt {p np : Slot} (hpc : s.pc p = .fork np) :
      Step s (.adopt p) ((s.setProc np ({ · with parent := some p })).setPc p (.forked np))
  | ready {p np : Slot} (hpc : s.pc p = .forked np) :
      Step s (.ready p) (((s.setProc np (·.ready)).setPc np .user).setPc p .user)
  | exit {p : Slot} {t : Table} (hrun : (s.proc p).state = .running) (hpc : s.pc p = .user)
      (hne : p ≠ s.initproc) (ht : Exited s.initproc p s.proc t) :
      Step s (.exit p) { s with proc := t }
  | reap {p z : Slot} (hrun : (s.proc p).state = .running) (hpc : s.pc p = .user ∨ s.pc p = .wait)
      (hpar : (s.proc z).parent = some p) (hz : (s.proc z).state = .zombie) :
      Step s (.wait p) (s.reap p z)
  | noKids {p : Slot} (hpc : s.pc p = .user ∨ s.pc p = .wait) : Step s (.wait p) (s.setPc p .user)
  | waits {p : Slot} (hrun : (s.proc p).state = .running) (hpc : s.pc p = .user ∨ s.pc p = .wait)
      (hz : ∀ x, (s.proc x).parent = some p → (s.proc x).state ≠ .zombie) :
      Step s (.wait p) ((s.setProc p (·.sleep (.proc p))).setPc p .wait)
  | sleep {p : Slot} {a : Nat} (hrun : (s.proc p).state = .running) :
      Step s (.sleep p a) (s.setProc p (·.sleep (.addr a)))
  | wakeup {chan : Chan} : Step s (.wakeup chan) { s with proc := wakeup1 s.proc chan }
  | kill {pid : Int32} : Step s (.kill pid) { s with
      proc := killTable s.proc pid
      called := fun x => s.called x || decide ((s.proc x).pid = pid) }
  | fault {p : Slot} (hrun : (s.proc p).state = .running) :
      Step s (.fault p) (s.setProc p ({ · with killed := true }))
  | yield {p : Slot} (hrun : (s.proc p).state = .running) : Step s (.yield p) (s.setProc p (·.yield))
  | run {p : Slot} (hrun : (s.proc p).state = .runnable) :
      Step s (.run p) (s.setProc p fun x => { x.chosen with chan := .null })

theorem step_cases {s s' : Sys} {e : Event} (h : step s e = some s') : Step s e s' := by
  cases e with
  | alloc p =>
      simp only [step] at h
      split at h
      · rename_i hok
        split at h
        · rename_i np hnp
          cases h
          exact .alloc hok.1 hok.2 (firstUnused_eq_some hnp)
        · cases h
          exact .full hok.1
      · cases h
  | fail p =>
      simp only [step] at h
      split at h
      · rename_i np hpc
        split at h
        · cases h
          exact .fail hpc
        · cases h
      · cases h
  | adopt p =>
      simp only [step] at h
      split at h
      · rename_i np hpc
        split at h
        · cases h
          exact .adopt hpc
        · cases h
      · cases h
  | ready p =>
      simp only [step] at h
      split at h
      · rename_i np hpc
        split at h
        · cases h
          exact .ready hpc
        · cases h
      · cases h
  | exit p =>
      simp only [step] at h
      split at h
      · rename_i hok
        cases h
        exact .exit hok.1 hok.2.1 hok.2.2 (exitTable_exited s.proc)
      · cases h
  | wait p =>
      simp only [step] at h
      split at h
      · rename_i hok
        cases h
        unfold Sys.waitRound
        split
        · rename_i z hz
          obtain ⟨hpar, hst⟩ := zombieChild_eq_some hz
          exact .reap hok.1 hok.2 hpar hst
        · rename_i hz
          split
          · exact .noKids hok.2
          · exact .waits hok.1 hok.2 (zombieChild_eq_none hz)
      · cases h
  | sleep p a =>
      simp only [step] at h
      split at h
      · rename_i hok
        cases h
        exact .sleep hok.1
      · cases h
  | wakeup chan =>
      cases h
      exact .wakeup
  | kill pid =>
      cases h
      exact .kill
  | fault p =>
      simp only [step] at h
      split at h
      · rename_i hok
        cases h
        exact .fault hok
      · cases h
  | yield p =>
      simp only [step] at h
      split at h
      · rename_i hok
        cases h
        exact .yield hok
      · cases h
  | run p =>
      simp only [step] at h
      split at h
      · rename_i hok
        cases h
        exact .run hok
      · cases h

end Xv6.Life
