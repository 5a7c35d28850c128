import Xv6.Life.Family
import Xv6.Life.Switch
import Xv6.Sched.Race

/-!
# Life — one CPU for each running process

The invariant of the machine of `Xv6.Life.Switch`: which CPU has `ptable.lock`, told by where the
threads stand, and what the state of a slot says about the CPU that executes it.  Each kind of step
has one lemma (`Inv.move`, `Inv.slot`, `Inv.leave`, `Inv.moveSched`, `Inv.choose`, `Inv.dispatch`,
`Inv.relocate`); `Inv.step` puts them together.
-/

namespace Xv6.Switch
open Lib
open Sched (Slot Table Proc ProcState Chan firstUnused nproc scan)
open Life (wakeup1 killSlot killTable exitTable zombieChild havekids)

variable {C : Type}

/-! ### The invariant -/

/-- The slot of the child a process in `fork` is making. -/
def Pos.child : Pos → Option Slot
  | .code => none
  | .alloc np | .fork np | .forked np => some np

/-- The child has its kernel stack. -/
def Pos.built : Pos → Bool
  | .fork _ | .forked _ => true
  | .code | .alloc _ => false

/-- Where the process will stand when it next has not got `ptable.lock`, as far as `fork` is
concerned. -/
def Pc.pos : Pc → Pos
  | .free k | .yield k | .wakeup _ k | .release k => k
  | .sched (.yield k) | .resume (.yield k) => k
  | .ready np => .forked np
  | _ => .code

def Pc.inside : Pc → Bool
  | .free _ => false
  | _ => true

def SchedPc.inside : SchedPc → Bool
  | .free => false
  | _ => true

/-- The state a process has when it calls `sched()`. -/
def Ret.state : Ret → ProcState
  | .yield _ | .forkret => .runnable
  | .sleep | .wait => .sleeping
  | .exit => .zombie

/-- The state of a process that executes there. -/
def Pc.state : Pc → ProcState
  | .sched r => r.state
  | _ => .running

/-- The process has a context to be resumed. -/
def Live (st : ProcState) : Prop := st = .running ∨ st = .runnable ∨ st = .sleeping

/-- What `wakeup1` and `kill` can do to the state of a slot. -/
def Nudged (st st' : ProcState) : Prop := st' = st ∨ st = .sleeping ∧ st' = .runnable

/-- The thread on `c` has `ptable.lock`, by where it stands. -/
def Sys.inside (s : Sys C) (c : C) : Bool :=
  match s.on c with
  | some p => (s.pc p).inside
  | none => (s.sched c).inside

def Sys.Off (s : Sys C) (p : Slot) : Prop := ∀ c, s.on c ≠ some p

/-- `proc` on a CPU that executes its scheduler, and the state of the slot being switched to. -/
def Sys.SchedOk (s : Sys C) (c : C) : SchedPc → Prop
  | .picked p => s.cur c = some p ∧ (s.proc p).state = .runnable
  | .swtch p => s.cur c = some p ∧ (s.proc p).state = .running ∧ s.Off p
  | .back => True
  | _ => s.cur c = none

/-- **The invariant.**  The lock is with the CPU whose thread is inside; a CPU on the stack of a
process has it as its `proc`, in the state its place in the code gives; a live process that no CPU
executes has a saved context, and if it is `RUNNING` a scheduler is about to switch to it; the
child of a `fork` is an `EMBRYO` nobody else is making. -/
structure Inv (s : Sys C) : Prop where
  lock : ∀ c, s.inside c = true ↔ s.lock = some c
  on : ∀ c p, s.on c = some p → s.cur c = some p ∧ s.sched c = .back ∧ s.kstack p = true ∧
    (s.proc p).state = (s.pc p).state ∧ s.pc p ≠ .resume .exit
  once : ∀ c c' p, s.on c = some p → s.on c' = some p → c = c'
  saved : ∀ p, s.Off p → Live (s.proc p).state →
    s.kstack p = true ∧ ∃ r, r ≠ .exit ∧ s.pc p = .resume r
  running : ∀ p, s.Off p → (s.proc p).state = .running → ∃ c, s.on c = none ∧ s.sched c = .swtch p
  sched : ∀ c, s.on c = none → s.SchedOk c (s.sched c)
  child : ∀ p np, (s.pc p).pos.child = some np → (s.proc np).state = .embryo ∧
    ((s.pc p).pos.built = true → s.kstack np = true ∧ s.pc np = .resume .forkret)
  childOnce : ∀ p q np, (s.pc p).pos.child = some np → (s.pc q).pos.child = some np → p = q
  panic : s.panic ≠ some .schedRunning ∧ s.panic ≠ some .zombieExit

section Small
variable {st st' : ProcState} {pc : Pc} {r : Ret}

theorem Nudged.live (h : Nudged st st') : Live st' → Live st := by
  rcases h with rfl | ⟨rfl, rfl⟩
  · exact id
  · exact fun _ => .inr (.inr rfl)

/-- A state that is not `SLEEPING` is not changed. -/
theorem Nudged.eq (h : Nudged st st') (hst : st ≠ .sleeping) : st' = st := by
  rcases h with rfl | ⟨hs, -⟩
  · rfl
  · exact absurd hs hst

theorem Nudged.running (h : Nudged st st') (hst : st' = .running) : st = .running := by
  rcases h with rfl | ⟨-, rfl⟩
  · exact hst
  · cases hst

theorem Nudged.refl : Nudged st st := .inl rfl

theorem SchedPc.inside_eq_false {sp : SchedPc} : sp.inside = false ↔ sp = .free := by
  cases sp <;> simp [SchedPc.inside]

theorem Ret.state_ne_running (r : Ret) : r.state ≠ .running := by
  cases r <;> simp [Ret.state]

/-- A process that executes has a slot in use. -/
theorem Pc.state_used (pc : Pc) : pc.state ≠ .embryo ∧ pc.state ≠ .unused := by
  cases pc with
  | sched r => cases r <;> simp [Pc.state, Ret.state]
  | _ => simp [Pc.state]

/-- A process whose state is not `RUNNING` executes only between that change and its `swtch`. -/
theorem Pc.inside_of_state (h : pc.state ≠ .running) : pc.inside = true := by
  cases pc with
  | free k => exact absurd rfl h
  | _ => rfl

end Small

namespace Inv

variable {s : Sys C} {c d : C} {p q z : Slot} {t : Table} {pc : Pc} {l : Option C}

/-- A CPU without the lock is not inside. -/
theorem outside (h : Inv s) (hlock : s.lock = none ∨ s.lock = some c) (hd : d ≠ c) :
    s.inside d = false := by
  rw [Bool.eq_false_iff]
  intro hin
  have hl := (h.lock d).mp hin
  rcases hlock with hn | hc
  · rw [hn] at hl
    cases hl
  · rw [hc] at hl
    exact hd (Option.some.inj hl).symm

/-- The other CPUs execute processes that are `RUNNING`, or wait in their schedulers. -/
theorem rest (h : Inv s) (hlock : s.lock = none ∨ s.lock = some c) (hd : d ≠ c) :
    (∀ q, s.on d = some q → (s.pc q).inside = false ∧ (s.proc q).state = .running) ∧
    (s.on d = none → s.sched d = .free) := by
  have hin := h.outside hlock hd
  refine ⟨fun q hq => ?_, fun hn => ?_⟩
  · simp only [Sys.inside, hq] at hin
    refine ⟨hin, ?_⟩
    rw [(h.on d q hq).2.2.2.1]
    by_contra hne
    rw [Pc.inside_of_state hne] at hin
    cases hin
  · exact SchedPc.inside_eq_false.mp (by simpa only [Sys.inside, hn] using hin)

theorem off_of_unused (h : Inv s) (hz : (s.proc z).state = .unused) : s.Off z := by
  intro c hc
  exact (Pc.state_used _).2 ((h.on c z hc).2.2.2.1.symm.trans hz)

theorem off_of_embryo (h : Inv s) (hz : (s.proc z).state = .embryo) : s.Off z := by
  intro c hc
  exact (Pc.state_used _).1 ((h.on c z hc).2.2.2.1.symm.trans hz)

/-- **A zombie is not executing** when another thread has the lock. -/
theorem off_of_zombie (h : Inv s) (hlock : s.lock = some c) (hc : s.on c ≠ some z)
    (hz : (s.proc z).state = .zombie) : s.Off z := by
  intro d hd
  by_cases hdc : d = c
  · subst hdc
    exact hc hd
  · have hrun := ((h.rest (.inr hlock) hdc).1 z hd).2
    rw [hz] at hrun
    cases hrun

theorem ne_child (h : Inv s) (hon : s.on c = some p) (hz : (s.proc z).state = .embryo) : z ≠ p := by
  rintro rfl
  exact h.off_of_embryo hz c hon

/-- A process that moves shares its child with no other. -/
theorem childOnce_update (h : Inv s)
    (hchild : ∀ np q, pc.pos.child = some np → (s.pc q).pos.child = some np → q = p) {q q' np : Slot}
    (hq : (Function.update s.pc p pc q).pos.child = some np)
    (hq' : (Function.update s.pc p pc q').pos.child = some np) : q = q' := by
  by_cases hqp : q = p <;> by_cases hqp' : q' = p
  · exact hqp.trans hqp'.symm
  · rw [hqp, Function.update_self] at hq
    rw [Function.update_of_ne hqp'] at hq'
    exact hqp.trans (hchild np q' hq hq').symm
  · rw [Function.update_of_ne hqp] at hq
    rw [hqp', Function.update_self] at hq'
    exact (hchild np q hq' hq).trans hqp'.symm
  · rw [Function.update_of_ne hqp] at hq
    rw [Function.update_of_ne hqp'] at hq'
    exact h.childOnce q q' np hq hq'

variable [DecidableEq C]

/-- **A step of a process** on its CPU: it moves, it changes its state as its place in the code
says, and of the other slots it only wakes some. -/
theorem move (h : Inv s) (hon : s.on c = some p) (hlock : s.lock = none ∨ s.lock = some c)
    (hl : l = if pc.inside then some c else none)
    (hother : ∀ x ≠ p, Nudged (s.proc x).state (t x).state) (hself : (t p).state = pc.state)
    (hret : pc ≠ .resume .exit)
    (hchild : ∀ np, pc.pos.child = some np → (s.proc np).state = .embryo ∧
      (pc.pos.built = true → s.kstack np = true ∧ s.pc np = .resume .forkret) ∧
      ∀ q, (s.pc q).pos.child = some np → q = p) :
    Inv { s with proc := t, lock := l, pc := Function.update s.pc p pc } := by
  have hne : ∀ d q, d ≠ c → s.on d = some q → q ≠ p := by
    rintro d q hd hq rfl
    exact hd (h.once d c q hq hon)
  refine ⟨fun d => ?_, fun d q hq => ?_, h.once, fun q hq hlive => ?_, fun q hq hrun => ?_,
    fun d hd => ?_, fun q np hq => ?_, fun q q' np hq hq' => ?_, h.panic⟩
  · by_cases hd : d = c
    · subst hd
      simp [Sys.inside, hon, hl]
    · have hin := h.outside hlock hd
      have hl' : l ≠ some d := by
        rw [hl]
        split
        · exact fun e => hd (Option.some.inj e).symm
        · exact nofun
      simp only [hl', iff_false, Bool.not_eq_true]
      cases hq : s.on d with
      | none => simpa [Sys.inside, hq] using hin
      | some q => simpa [Sys.inside, hq, Function.update_of_ne (hne d q hd hq)] using hin
  · obtain ⟨hcur, hsched, hk, -, -⟩ := h.on d q hq
    refine ⟨hcur, hsched, hk, ?_⟩
    by_cases hd : d = c
    · subst hd
      obtain rfl : q = p := Option.some.inj (hq.symm.trans hon)
      exact ⟨by simpa using hself, by simpa using hret⟩
    · have hqp := hne d q hd hq
      obtain ⟨-, -, -, hst, hre⟩ := h.on d q hq
      simp only [Function.update_of_ne hqp]
      refine ⟨?_, hre⟩
      have hrun := ((h.rest hlock hd).1 q hq).2
      rw [(hother q hqp).eq (by rw [hrun]; decide), hst]
  · have hqp : q ≠ p := fun e => hq c (e ▸ hon)
    simp only [Function.update_of_ne hqp]
    exact h.saved q hq ((hother q hqp).live hlive)
  · have hqp : q ≠ p := fun e => hq c (e ▸ hon)
    exact h.running q hq ((hother q hqp).running hrun)
  · have hdc : d ≠ c := by
      rintro rfl
      rw [hon] at hd
      cases hd
    have hfree := (h.rest hlock hdc).2 hd
    have hcur := h.sched d hd
    simp only [hfree] at hcur ⊢
    exact hcur
  · by_cases hqp : q = p
    · subst hqp
      simp only [Function.update_self] at hq ⊢
      obtain ⟨hemb, hbuilt, -⟩ := hchild np hq
      have hnp := h.ne_child hon hemb
      rw [Function.update_of_ne hnp, (hother np hnp).eq (by rw [hemb]; decide)]
      exact ⟨hemb, hbuilt⟩
    · simp only [Function.update_of_ne hqp] at hq ⊢
      obtain ⟨hemb, hbuilt⟩ := h.child q np hq
      have hnp := h.ne_child hon hemb
      rw [Function.update_of_ne hnp, (hother np hnp).eq (by rw [hemb]; decide)]
      exact ⟨hemb, hbuilt⟩
  · exact h.childOnce_update (fun np q hx => (hchild np hx).2.2 q) hq hq'

omit [DecidableEq C] in
/-- **A change to a slot without a running context**, which no CPU executes. -/
theorem slot (h : Inv s) (hdead : ¬ Live (s.proc z).state) (hoff : s.Off z) {y : Proc} {b : Bool}
    {pcz : Pc} (hpcz : pcz = s.pc z ∨ pcz = .resume .forkret) (hrun : y.state ≠ .running)
    (hlive : Live y.state → b = true ∧ pcz = .resume .forkret)
    (hchild : ∀ p, (s.pc p).pos.child = some z → y.state = .embryo ∧
      ((s.pc p).pos.built = true → b = true ∧ pcz = .resume .forkret)) :
    Inv { s with
      proc := Function.update s.proc z y
      kstack := Function.update s.kstack z b
      pc := Function.update s.pc z pcz } := by
  have hne : ∀ d q, s.on d = some q → q ≠ z := by
    rintro d q hq rfl
    exact hoff d hq
  have hpos : ∀ q np, (Function.update s.pc z pcz q).pos.child = some np →
      (s.pc q).pos.child = some np ∧ Function.update s.pc z pcz q = s.pc q := by
    intro q np hq
    by_cases hqz : q = z
    · subst hqz
      rw [Function.update_self] at hq ⊢
      rcases hpcz with rfl | rfl
      · exact ⟨hq, rfl⟩
      · cases hq
    · rw [Function.update_of_ne hqz] at hq ⊢
      exact ⟨hq, rfl⟩
  refine ⟨fun d => ?_, fun d q hq => ?_, h.once, fun q hq hl => ?_, fun q hq hr => ?_,
    fun d hd => ?_, fun q np hq => ?_, fun q q' np hq hq' => ?_, h.panic⟩
  · rw [← h.lock d]
    cases hq : s.on d with
    | none => simp [Sys.inside, hq]
    | some q => simp [Sys.inside, hq, Function.update_of_ne (hne d q hq)]
  · simp only [Function.update_of_ne (hne d q hq)]
    exact h.on d q hq
  · by_cases hqz : q = z
    · subst hqz
      simp only [Function.update_self] at hl ⊢
      exact ⟨(hlive hl).1, .forkret, nofun, (hlive hl).2⟩
    · simp only [Function.update_of_ne hqz] at hl ⊢
      exact h.saved q hq hl
  · by_cases hqz : q = z
    · subst hqz
      simp only [Function.update_self] at hr
      exact absurd hr hrun
    · simp only [Function.update_of_ne hqz] at hr
      exact h.running q hq hr
  · have hok := h.sched d hd
    generalize s.sched d = sp at hok
    have hlz : ∀ q, Live (s.proc q).state → q ≠ z := by
      rintro q hq rfl
      exact hdead hq
    cases sp with
    | picked q =>
        refine ⟨hok.1, ?_⟩
        simp only [Function.update_of_ne (hlz q (.inr (.inl hok.2)))]
        exact hok.2
    | swtch q =>
        refine ⟨hok.1, ?_, hok.2.2⟩
        simp only [Function.update_of_ne (hlz q (.inl hok.2.1))]
        exact hok.2.1
    | back => trivial
    | free | scan | wakeup | release => exact hok
  · obtain ⟨hq', heq⟩ := hpos q np hq
    simp only [heq]
    by_cases hnp : np = z
    · subst hnp
      simp only [Function.update_self]
      exact hchild q hq'
    · simp only [Function.update_of_ne hnp]
      exact h.child q np hq'
  · exact h.childOnce q q' np (hpos q np hq).1 (hpos q' np hq').1

/-- **`swtch` in `sched()`.** -/
theorem leave (h : Inv s) (hon : s.on c = some p) (hlock : s.lock = some c) {r : Ret}
    (hpc : s.pc p = .sched r) : Inv ((s.setPc p (.resume r)).swtch c none) := by
  obtain ⟨hcur, hsched, hk, hst, -⟩ := h.on c p hon
  have hstate : (s.proc p).state = r.state := by
    rw [hst, hpc]
    rfl
  have hne : ∀ d q, Function.update s.on c none d = some q → d ≠ c ∧ s.on d = some q ∧ q ≠ p := by
    intro d q hq
    have hd : d ≠ c := by
      rintro rfl
      rw [Function.update_self] at hq
      cases hq
    rw [Function.update_of_ne hd] at hq
    refine ⟨hd, hq, ?_⟩
    rintro rfl
    exact hd (h.once d c q hq hon)
  have hpos : ∀ q, (Function.update s.pc p (Pc.resume r) q).pos = (s.pc q).pos := by
    intro q
    by_cases hqp : q = p
    · subst hqp
      rw [Function.update_self, hpc]
      cases r <;> rfl
    · rw [Function.update_of_ne hqp]
  have hoff : ∀ q, q ≠ p → (∀ d, Function.update s.on c none d ≠ some q) → s.Off q := by
    intro q hqp hq d hd
    by_cases hdc : d = c
    · subst hdc
      exact hqp (Option.some.inj (hd.symm.trans hon))
    · exact hq d (by rw [Function.update_of_ne hdc]; exact hd)
  refine ⟨fun d => ?_, fun d q hq => ?_, fun d d' q hq hq' => ?_, fun q hq hlive => ?_,
    fun q hq hrun => ?_, fun d hd => ?_, fun q np hq => ?_, fun q q' np hq hq' => ?_, h.panic⟩
  · by_cases hd : d = c
    · subst hd
      simp [Sys.inside, SchedPc.inside, Sys.swtch, Sys.setPc, hsched, hlock]
    · rw [show ((s.setPc p (.resume r)).swtch c none).lock = s.lock from rfl, ← h.lock d]
      cases hq : s.on d with
      | none => simp [Sys.inside, Sys.swtch, Sys.setPc, hd, hq]
      | some q =>
          have hqp := (hne d q (by rw [Function.update_of_ne hd]; exact hq)).2.2
          simp [Sys.inside, Sys.swtch, Sys.setPc, hd, hq, hqp]
  · obtain ⟨-, hq, hqp⟩ := hne d q hq
    simp only [Sys.swtch, Sys.setPc, Function.update_of_ne hqp]
    exact h.on d q hq
  · exact h.once d d' q (hne d q hq).2.1 (hne d' q hq').2.1
  · by_cases hqp : q = p
    · subst hqp
      refine ⟨hk, r, ?_, by simp [Sys.swtch, Sys.setPc]⟩
      rintro rfl
      rcases hlive with hl | hl | hl <;> simp [Sys.swtch, Sys.setPc, hstate, Ret.state] at hl
    · simp only [Sys.swtch, Sys.setPc, Function.update_of_ne hqp]
      exact h.saved q (hoff q hqp hq) hlive
  · by_cases hqp : q = p
    · subst hqp
      exact absurd (hstate.symm.trans hrun) r.state_ne_running
    · obtain ⟨d, hd, hs⟩ := h.running q (hoff q hqp hq) hrun
      refine ⟨d, ?_, hs⟩
      by_cases hdc : d = c
      · simp [Sys.swtch, hdc]
      · simpa [Sys.swtch, Sys.setPc, hdc] using hd
  · by_cases hdc : d = c
    · subst hdc
      simp only [Sys.swtch, Sys.setPc, hsched]
      trivial
    · simp only [Sys.swtch, Function.update_of_ne hdc] at hd
      have hfree := (h.rest (.inr hlock) hdc).2 hd
      have hcur := h.sched d hd
      simp only [Sys.swtch, Sys.setPc, hfree] at hcur ⊢
      exact hcur
  · simp only [Sys.swtch, Sys.setPc, hpos] at hq ⊢
    obtain ⟨hemb, hbuilt⟩ := h.child q np hq
    rw [Function.update_of_ne (h.ne_child hon hemb)]
    exact ⟨hemb, hbuilt⟩
  · simp only [Sys.swtch, Sys.setPc, hpos] at hq hq'
    exact h.childOnce q q' np hq hq'

/-- **A step of a scheduler** that does not switch: it moves, sets its `proc`, and wakes some
slots. -/
theorem moveSched (h : Inv s) (hon : s.on c = none) (hlock : s.lock = none ∨ s.lock = some c)
    (hnot : ∀ p, s.sched c ≠ .swtch p) {a : SchedPc} {u : Option Slot}
    (hl : l = if a.inside then some c else none)
    (ht : ∀ x, Nudged (s.proc x).state (t x).state)
    (hok : { s with proc := t, cur := Function.update s.cur c u }.SchedOk c a) :
    Inv { s with
      proc := t
      lock := l
      cur := Function.update s.cur c u
      sched := Function.update s.sched c a } := by
  have hne : ∀ d q, s.on d = some q → d ≠ c := by
    rintro d q hq rfl
    rw [hon] at hq
    cases hq
  refine ⟨fun d => ?_, fun d q hq => ?_, h.once, fun q hq hlive => ?_, fun q hq hrun => ?_,
    fun d hd => ?_, fun q np hq => ?_, h.childOnce, h.panic⟩
  · by_cases hd : d = c
    · subst hd
      simp [Sys.inside, hon, hl]
    · have hin := h.outside hlock hd
      have hl' : l ≠ some d := by
        rw [hl]
        split
        · exact fun e => hd (Option.some.inj e).symm
        · exact nofun
      simp only [hl', iff_false, Bool.not_eq_true]
      simpa [Sys.inside, Function.update_of_ne hd] using hin
  · have hd := hne d q hq
    obtain ⟨hcur, hsched, hk, hst, hre⟩ := h.on d q hq
    have hrun := ((h.rest hlock hd).1 q hq).2
    simp only [Function.update_of_ne hd]
    refine ⟨hcur, hsched, hk, ?_, hre⟩
    rw [(ht q).eq (by rw [hrun]; decide), hst]
  · exact h.saved q hq ((ht q).live hlive)
  · obtain ⟨d, hd, hs⟩ := h.running q hq ((ht q).running hrun)
    by_cases hdc : d = c
    · subst hdc
      exact absurd hs (hnot q)
    · rw [(h.rest hlock hdc).2 hd] at hs
      cases hs
  · by_cases hdc : d = c
    · subst hdc
      simp only [Function.update_self]
      exact hok
    · have hfree := (h.rest hlock hdc).2 hd
      have hcur := h.sched d hd
      rw [hfree] at hcur
      simp only [Function.update_of_ne hdc, hfree, Sys.SchedOk] at hcur ⊢
      exact hcur
  · obtain ⟨hemb, hbuilt⟩ := h.child q np hq
    refine ⟨?_, hbuilt⟩
    rw [(ht np).eq (by rw [hemb]; decide), hemb]

/-- **`p->state = RUNNING`.** -/
theorem choose (h : Inv s) (hon : s.on c = none) (hlock : s.lock = some c)
    (hpc : s.sched c = .picked p) :
    Inv ((s.setProc p (·.chosen)).setSched c (.swtch p)) := by
  have hp := h.sched c hon
  rw [hpc] at hp
  obtain ⟨hcur, hrdy⟩ := hp
  have hoff : s.Off p := by
    intro d hd
    by_cases hdc : d = c
    · subst hdc
      rw [hon] at hd
      cases hd
    · have := ((h.rest (.inr hlock) hdc).1 p hd).2
      rw [hrdy] at this
      cases this
  obtain ⟨hk, r, hr, hres⟩ := h.saved p hoff (.inr (.inl hrdy))
  have hne : ∀ d q, s.on d = some q → q ≠ p ∧ d ≠ c := by
    refine fun d q hq => ⟨?_, ?_⟩
    · rintro rfl
      exact hoff d hq
    · rintro rfl
      rw [hon] at hq
      cases hq
  refine ⟨fun d => ?_, fun d q hq => ?_, h.once, fun q hq hlive => ?_, fun q hq hrun => ?_,
    fun d hd => ?_, fun q np hq => ?_, h.childOnce, h.panic⟩
  · rw [show ((s.setProc p (·.chosen)).setSched c (.swtch p)).lock = s.lock from rfl, ← h.lock d]
    by_cases hd : d = c
    · subst hd
      simp [Sys.inside, SchedPc.inside, Sys.setSched, Sys.setProc, hon, hpc]
    · simp [Sys.inside, Sys.setSched, Sys.setProc, hd]
  · obtain ⟨hqp, hd⟩ := hne d q hq
    simp only [Sys.setSched, Sys.setProc, Function.update_of_ne hqp, Function.update_of_ne hd]
    exact h.on d q hq
  · by_cases hqp : q = p
    · subst hqp
      exact ⟨hk, r, hr, hres⟩
    · simp only [Sys.setSched, Sys.setProc, Function.update_of_ne hqp] at hlive
      exact h.saved q hq hlive
  · by_cases hqp : q = p
    · subst hqp
      exact ⟨c, hon, by simp [Sys.setSched]⟩
    · simp only [Sys.setSched, Sys.setProc, Function.update_of_ne hqp] at hrun
      obtain ⟨d, hd, hs⟩ := h.running q hq hrun
      refine ⟨d, hd, ?_⟩
      have hdc : d ≠ c := by
        rintro rfl
        rw [hpc] at hs
        cases hs
      simpa [Sys.setSched, Sys.setProc, hdc] using hs
  · by_cases hdc : d = c
    · subst hdc
      simp only [Sys.setSched, Function.update_self]
      exact ⟨hcur, by simp [Sys.setProc, Proc.chosen], hoff⟩
    · have hfree := (h.rest (.inr hlock) hdc).2 hd
      have hcur := h.sched d hd
      simp only [Sys.setSched, Sys.setProc, Function.update_of_ne hdc, hfree] at hcur ⊢
      exact hcur
  · obtain ⟨hemb, hbuilt⟩ := h.child q np hq
    have hnp : np ≠ p := by
      rintro rfl
      rw [hrdy] at hemb
      cases hemb
    simp only [Sys.setSched, Sys.setProc, Function.update_of_ne hnp]
    exact ⟨hemb, hbuilt⟩

/-- **`swtch` in `scheduler()`.** -/
theorem dispatch (h : Inv s) (hon : s.on c = none) (hlock : s.lock = some c)
    (hpc : s.sched c = .swtch p) : Inv ((s.swtch c (some p)).setSched c .back) := by
  have hp := h.sched c hon
  rw [hpc] at hp
  obtain ⟨hcur, hrun, hoff⟩ := hp
  obtain ⟨hk, r, hr, hres⟩ := h.saved p hoff (.inl hrun)
  have hon' : ∀ d q, Function.update s.on c (some p) d = some q →
      (d = c ∧ q = p) ∨ (d ≠ c ∧ s.on d = some q ∧ q ≠ p) := by
    intro d q hq
    by_cases hd : d = c
    · subst hd
      rw [Function.update_self] at hq
      exact .inl ⟨rfl, (Option.some.inj hq).symm⟩
    · rw [Function.update_of_ne hd] at hq
      refine .inr ⟨hd, hq, ?_⟩
      rintro rfl
      exact hoff d hq
  have hoff' : ∀ q, (∀ d, Function.update s.on c (some p) d ≠ some q) → s.Off q ∧ q ≠ p := by
    intro q hq
    refine ⟨fun d hd => ?_, ?_⟩
    · by_cases hdc : d = c
      · subst hdc
        rw [hon] at hd
        cases hd
      · exact hq d (by rw [Function.update_of_ne hdc]; exact hd)
    · rintro rfl
      exact hq c (by rw [Function.update_self])
  refine ⟨fun d => ?_, fun d q hq => ?_, fun d d' q hq hq' => ?_, fun q hq hlive => ?_,
    fun q hq hr => ?_, fun d hd => ?_, h.child, h.childOnce, h.panic⟩
  · by_cases hd : d = c
    · subst hd
      simp [Sys.inside, Sys.swtch, Sys.setSched, hres, Pc.inside, hlock]
    · rw [show ((s.swtch c (some p)).setSched c .back).lock = s.lock from rfl, ← h.lock d]
      simp [Sys.inside, Sys.swtch, Sys.setSched, hd]
  · rcases hon' d q hq with ⟨rfl, rfl⟩ | ⟨hd, hq, -⟩
    · refine ⟨hcur, by simp [Sys.setSched], hk, ?_, ?_⟩
      · simp only [Sys.setSched, Sys.swtch, hrun, hres]
        rfl
      · simp only [Sys.setSched, Sys.swtch, hres, ne_eq, Pc.resume.injEq]
        exact hr
    · simp only [Sys.setSched, Sys.swtch, Function.update_of_ne hd]
      exact h.on d q hq
  · rcases hon' d q hq with ⟨rfl, rfl⟩ | ⟨-, hq, hqp⟩
    · rcases hon' d' q hq' with ⟨rfl, -⟩ | ⟨-, -, hqp⟩
      · rfl
      · exact absurd rfl hqp
    · rcases hon' d' q hq' with ⟨-, rfl⟩ | ⟨-, hq', -⟩
      · exact absurd rfl hqp
      · exact h.once d d' q hq hq'
  · exact h.saved q (hoff' q hq).1 hlive
  · obtain ⟨hq, hqp⟩ := hoff' q hq
    obtain ⟨d, hd, hs⟩ := h.running q hq hr
    by_cases hdc : d = c
    · subst hdc
      rw [hpc] at hs
      exact absurd (SchedPc.swtch.inj hs).symm hqp
    · rw [(h.rest (.inr hlock) hdc).2 hd] at hs
      cases hs
  · have hdc : d ≠ c := by
      rintro rfl
      simp [Sys.swtch, Sys.setSched] at hd
    simp only [Sys.setSched, Sys.swtch, Function.update_of_ne hdc] at hd
    have hfree := (h.rest (.inr hlock) hdc).2 hd
    have hcur := h.sched d hd
    simp only [Sys.setSched, Sys.swtch, Function.update_of_ne hdc, hfree] at hcur ⊢
    exact hcur

omit [DecidableEq C] in
/-- A change to such a slot that leaves its context alone. -/
theorem slot_proc (h : Inv s) (hdead : ¬ Live (s.proc z).state) (hoff : s.Off z) {f : Proc → Proc}
    {b : Bool} (hf : ¬ Live (f (s.proc z)).state)
    (hchild : ∀ p, (s.pc p).pos.child = some z → (f (s.proc z)).state = .embryo ∧
      ((s.pc p).pos.built = true → b = s.kstack z)) :
    Inv ((s.setStack z b).setProc z f) := by
  have := h.slot hdead hoff (y := f (s.proc z)) (b := b) (.inl rfl) (fun hr => hf (.inl hr))
    (fun hl => absurd hl hf) fun p hp => ⟨(hchild p hp).1, fun hb => by
      obtain ⟨hk, hres⟩ := (h.child p z hp).2 hb
      exact ⟨((hchild p hp).2 hb).trans hk, hres⟩⟩
  rwa [Function.update_eq_self] at this

omit [DecidableEq C] in
theorem setStack_self (s : Sys C) (z : Slot) : s.setStack z (s.kstack z) = s := by
  rw [Sys.setStack, Function.update_eq_self]

omit [DecidableEq C] in
/-- **A step of a process without the lock.** -/
theorem relocate (h : Inv s) (hon : s.on c = some p) {k k' : Pos} (hpc : s.pc p = .free k)
    (hchild : ∀ np, k'.child = some np → (s.proc np).state = .embryo ∧
      (k'.built = true → s.kstack np = true ∧ s.pc np = .resume .forkret) ∧
      ∀ q, (s.pc q).pos.child = some np → q = p) : Inv (s.setPc p (.free k')) := by
  have hinside : ∀ q, (Function.update s.pc p (Pc.free k') q).inside = (s.pc q).inside ∧
      (Function.update s.pc p (Pc.free k') q).state = (s.pc q).state := by
    intro q
    by_cases hqp : q = p
    · subst hqp
      rw [Function.update_self, hpc]
      exact ⟨rfl, rfl⟩
    · rw [Function.update_of_ne hqp]
      exact ⟨rfl, rfl⟩
  have hres : ∀ q r, Function.update s.pc p (Pc.free k') q = .resume r ↔ s.pc q = .resume r := by
    intro q r
    by_cases hqp : q = p
    · subst hqp
      simp [hpc]
    · rw [Function.update_of_ne hqp]
  refine ⟨fun d => ?_, fun d q hq => ?_, h.once, fun q hq hl => ?_, h.running, h.sched,
    fun q np hq => ?_, fun q q' np hq hq' => ?_, h.panic⟩
  · rw [show (s.setPc p (.free k')).lock = s.lock from rfl, ← h.lock d]
    cases hq : s.on d with
    | none => simp only [Sys.inside, Sys.setPc, hq]
    | some q => simp only [Sys.inside, Sys.setPc, hq, (hinside q).1]
  · simp only [Sys.setPc, (hinside q).2, ne_eq, hres]
    exact h.on d q hq
  · simp only [Sys.setPc, hres]
    exact h.saved q hq hl
  · simp only [Sys.setPc, hres] at hq ⊢
    by_cases hqp : q = p
    · subst hqp
      simp only [Function.update_self] at hq ⊢
      exact ⟨(hchild np hq).1, (hchild np hq).2.1⟩
    · simp only [Function.update_of_ne hqp] at hq ⊢
      exact h.child q np hq
  · refine h.childOnce_update ?_ hq hq'
    exact fun np q hx => (hchild np hx).2.2 q

omit [DecidableEq C] in
/-- A panic that is not one of the two. -/
theorem stop (h : Inv s) {e : Panic} (he : e ≠ .schedRunning ∧ e ≠ .zombieExit) :
    Inv { s with panic := some e } :=
  ⟨h.lock, h.on, h.once, h.saved, h.running, h.sched, h.child, h.childOnce,
    ⟨fun hp => he.1 (Option.some.inj hp), fun hp => he.2 (Option.some.inj hp)⟩⟩

omit [DecidableEq C] in
/-- `nextpid` is not in the invariant. -/
theorem setNextpid (h : Inv s) (n : Int32) : Inv { s with nextpid := n } :=
  ⟨h.lock, h.on, h.once, h.saved, h.running, h.sched, h.child, h.childOnce, h.panic⟩

end Inv

/-! ### The steps -/

section Steps
variable {s s' : Sys C} {c : C} {p np : Slot} {e : Event C}

theorem nudged_wakeup1 (t : Table) (chan : Chan) (x : Slot) :
    Nudged (t x).state (wakeup1 t chan x).state := Life.wake_state _ _

theorem nudged_killTable (t : Table) (pid : Int32) (x : Slot) :
    Nudged (t x).state (killTable t pid x).state := Life.killTable_state t pid x

theorem nudged_exitTable (t : Table) (q : Slot) {x : Slot} (hx : x ≠ p) :
    Nudged (t x).state (exitTable q p t x).state :=
  ((Life.exitTable_exited t).other x hx).state

theorem nudged_update (t : Table) (y : Proc) {x : Slot} (hx : x ≠ p) :
    Nudged (t x).state (Function.update t p y x).state := by
  rw [Function.update_of_ne hx]
  exact .refl

/-- The children of the process are as they were when its position in `fork` is. -/
theorem Inv.keepChild (h : Inv s) {pc : Pc} (hpos : pc.pos = (s.pc p).pos ∨ pc.pos = .code) (np : Slot)
    (hnp : pc.pos.child = some np) : (s.proc np).state = .embryo ∧
      (pc.pos.built = true → s.kstack np = true ∧ s.pc np = .resume .forkret) ∧
      ∀ q, (s.pc q).pos.child = some np → q = p := by
  rcases hpos with hpos | hpos
  · rw [hpos] at hnp ⊢
    obtain ⟨hemb, hbuilt⟩ := h.child p np hnp
    exact ⟨hemb, hbuilt, fun q hq => h.childOnce q p np hq hnp⟩
  · rw [hpos] at hnp
    cases hnp

/-- The child that the process on `c` is making. -/
theorem Inv.making (h : Inv s) {k : Pos} (hpc : s.pc p = .free k) (hk : k.child = some np) :
    (s.proc np).state = .embryo ∧ (∀ q, (s.pc q).pos.child = some np → q = p) := by
  have hp : (s.pc p).pos.child = some np := by
    rw [hpc]
    exact hk
  exact ⟨(h.child p np hp).1, fun q hq => h.childOnce q p np hq hp⟩

variable [DecidableEq C]

/-- **Acquiring the lock** in a process. -/
theorem Inv.acquire (h : Inv s) {f : Pos → Option Pc} (hs : s.acquire c f = some s')
    (hf : ∀ k pc, f k = some pc →
      pc.inside = true ∧ pc.state = .running ∧ pc ≠ .resume .exit ∧ pc.pos = k) : Inv s' := by
  unfold Sys.acquire at hs
  split at hs
  · rename_i p hon
    split at hs
    · rename_i k hpc
      split at hs
      · rename_i hlock
        obtain ⟨pc, hk, rfl⟩ := Option.map_eq_some_iff.mp hs
        obtain ⟨hin, hst, hre, hpos⟩ := hf k pc hk
        have hrun := (h.on c p hon).2.2.2.1
        refine h.move (t := s.proc) (l := some c) hon (.inl hlock) (by rw [if_pos hin])
          (fun _ _ => .refl) ?_ hre (h.keepChild (.inl ?_))
        · rw [hrun, hpc, hst]
          rfl
        · rw [hpos, hpc]
          rfl
      · cases hs
    · cases hs
  · cases hs

/-- **Acquiring the lock** in a scheduler. -/
theorem Inv.acquireSched (h : Inv s) {sp : SchedPc} (hs : s.acquireSched c sp = some s')
    (hsp : sp.inside = true) (hok : ∀ t : Sys C, t.SchedOk c sp = (t.cur c = none)) : Inv s' := by
  unfold Sys.acquireSched at hs
  split at hs
  · rename_i hfree
    obtain ⟨hon, hpc, hlock⟩ := hfree
    cases hs
    have hcur := h.sched c hon
    rw [hpc] at hcur
    have := h.moveSched (t := s.proc) (l := some c) hon (.inl hlock) (by simp [hpc])
      (a := sp) (u := s.cur c) (by rw [if_pos hsp]) (fun _ => .refl)
      (by rw [hok]; exact (Function.update_self ..).trans hcur)
    rwa [Function.update_eq_self] at this
  · cases hs

omit [DecidableEq C] in
/-- The child is given back. -/
theorem Inv.giveBack (h : Inv s) (hon : s.on c = some p) {k : Pos} (hpc : s.pc p = .free k)
    (hk : k.child = some np) :
    Inv (((s.setStack np false).setProc np (·.unalloc)).setPc p (.free .code)) := by
  obtain ⟨hemb, honly⟩ := h.making hpc hk
  have h₁ : Inv (s.setPc p (.free .code)) := h.relocate hon hpc nofun
  refine h₁.slot_proc (z := np) (f := (·.unalloc)) (b := false) ?_ (h₁.off_of_embryo hemb) ?_ ?_
  · simp [Sys.setPc, hemb, Live]
  · simp [Sys.setPc, Proc.unalloc, Live]
  · intro q hq
    by_cases hqp : q = p
    · subst hqp
      simp [Sys.setPc, Pc.pos, Pos.child] at hq
    · simp only [Sys.setPc, Function.update_of_ne hqp] at hq
      exact absurd (honly q hq) hqp

omit [DecidableEq C] in
/-- The child gets its kernel stack, with a context that starts at `forkret`. -/
theorem Inv.build (h : Inv s) (hon : s.on c = some p) (hpc : s.pc p = .free (.alloc np)) :
    Inv (((s.setStack np true).setPc np (.resume .forkret)).setPc p (.free (.fork np))) := by
  obtain ⟨hemb, honly⟩ := h.making hpc rfl
  have hnp := h.ne_child hon hemb
  have h₁ := h.slot (z := np) (y := s.proc np) (b := true) (by simp [hemb, Live])
    (h.off_of_embryo hemb) (.inr rfl) (by simp [hemb]) (fun _ => ⟨rfl, rfl⟩)
    fun _ _ => ⟨hemb, fun _ => ⟨rfl, rfl⟩⟩
  rw [Function.update_eq_self] at h₁
  refine h₁.relocate hon (k := .alloc np) ?_ ?_
  · simp only [Function.update_of_ne hnp.symm, hpc]
  · intro x hx
    obtain rfl : np = x := Option.some.inj hx
    refine ⟨hemb, fun _ => by simp, fun q hq => honly q ?_⟩
    by_cases hqn : q = np
    · subst hqn
      simp [Pc.pos, Pos.child] at hq
    · simpa [Function.update_of_ne hqn] using hq

omit [DecidableEq C] in
/-- `fork` sets the parent of the child. -/
theorem Inv.adopt (h : Inv s) (hon : s.on c = some p) (hpc : s.pc p = .free (.fork np)) :
    Inv ((s.setProc np ({ · with parent := some p })).setPc p (.free (.forked np))) := by
  obtain ⟨hemb, honly⟩ := h.making hpc rfl
  have hbuilt := (h.child p np (by rw [hpc]; rfl)).2 (by rw [hpc]; rfl)
  have h₁ := h.slot_proc (z := np) (f := ({ · with parent := some p })) (b := s.kstack np)
    (by simp [hemb, Live]) (h.off_of_embryo hemb) (by simp [hemb, Live])
    fun _ _ => ⟨hemb, fun _ => rfl⟩
  rw [Inv.setStack_self] at h₁
  refine h₁.relocate hon (k := .fork np) hpc ?_
  intro x hx
  obtain rfl : np = x := Option.some.inj hx
  exact ⟨by simp [Sys.setProc, hemb], fun _ => hbuilt, honly⟩

/-- **A round of `wait`'s loop.**  The zombie whose stack is freed is not executing. -/
theorem Inv.waitRound (h : Inv s) (hon : s.on c = some p) (hlock : s.lock = some c)
    (hpc : s.pc p = .wait) : Inv (s.waitRound p) := by
  have hrun : (s.proc p).state = .running := by
    rw [(h.on c p hon).2.2.2.1, hpc]
    rfl
  unfold Sys.waitRound
  split
  · rename_i z hz
    have hzomb := (Life.zombieChild_eq_some hz).2
    have hzp : z ≠ p := by
      rintro rfl
      rw [hrun] at hzomb
      cases hzomb
    have hoff : s.Off z := h.off_of_zombie hlock (by rw [hon]; simpa using hzp.symm) hzomb
    have h₁ : Inv ((s.setStack z false).setProc z (·.reap)) := by
      refine h.slot_proc (by simp [hzomb, Live]) hoff (by simp [Proc.reap, Live]) fun q hq => ?_
      have hemb := (h.child q z hq).1
      rw [hzomb] at hemb
      cases hemb
    refine h₁.move (t := ((s.setStack z false).setProc z (·.reap)).proc) (l := s.lock) hon
      (.inr hlock) (by rw [hlock]; rfl) (fun _ _ => .refl) ?_ (by rintro ⟨⟩) (by rintro _ ⟨⟩)
    simp [Sys.setProc, Sys.setStack, Function.update_of_ne hzp.symm, hrun, Pc.state]
  · split
    · exact h.move (t := s.proc) (l := s.lock) hon (.inr hlock) (by rw [hlock]; rfl)
        (fun _ _ => .refl) hrun (by rintro ⟨⟩) (by rintro _ ⟨⟩)
    · exact h.move (l := s.lock) hon (.inr hlock) (by rw [hlock]; rfl)
        (fun x hx => nudged_update s.proc _ hx) (by simp [Sys.setProc]; rfl) (by rintro ⟨⟩) (by rintro _ ⟨⟩)

/-- **`allocproc`'s loop.** -/
theorem Inv.allocproc (h : Inv s) (hon : s.on c = some p) (hlock : s.lock = some c)
    (hpc : s.pc p = .alloc) : Inv (s.allocproc p) := by
  have hrun : (s.proc p).state = .running := by
    rw [(h.on c p hon).2.2.2.1, hpc]
    rfl
  unfold Sys.allocproc
  split
  · rename_i np hnp
    have hun := Life.firstUnused_eq_some hnp
    have hne : np ≠ p := by
      rintro rfl
      rw [hrun] at hun
      cases hun
    have hnone : ∀ q, (s.pc q).pos.child ≠ some np := by
      intro q hq
      have := (h.child q np hq).1
      rw [hun] at this
      cases this
    have h₁ := h.slot_proc (z := np) (f := (·.alloc s.nextpid)) (b := s.kstack np)
      (by simp [hun, Live]) (h.off_of_unused hun) (by simp [Proc.alloc, Live])
      fun q hq => absurd hq (hnone q)
    rw [Inv.setStack_self] at h₁
    refine (h₁.setNextpid (s.nextpid + 1)).move (t := (s.setProc np (·.alloc s.nextpid)).proc)
      (l := s.lock) hon (.inr hlock) (by rw [hlock]; rfl) (fun _ _ => .refl) ?_ (by rintro ⟨⟩) ?_
    · simp [Sys.setProc, Function.update_of_ne hne.symm, hrun, Pc.state]
    · intro x hx
      obtain rfl : np = x := Option.some.inj hx
      exact ⟨by simp [Sys.setProc, Proc.alloc], (by rintro ⟨⟩), fun q hq => absurd hq (hnone q)⟩
  · exact h.move (t := s.proc) (l := s.lock) hon (.inr hlock) (by rw [hlock]; rfl)
      (fun _ _ => .refl) hrun (by rintro ⟨⟩) (by rintro _ ⟨⟩)

/-- **`np->state = RUNNABLE`.** -/
theorem Inv.ready (h : Inv s) (hon : s.on c = some p) (hlock : s.lock = some c)
    (hpc : s.pc p = .ready np) : Inv ((s.setProc np (·.ready)).setPc p (.release .code)) := by
  have hrun : (s.proc p).state = .running := by
    rw [(h.on c p hon).2.2.2.1, hpc]
    rfl
  have hp : (s.pc p).pos.child = some np := by
    rw [hpc]
    rfl
  obtain ⟨hemb, hbuilt⟩ := h.child p np hp
  obtain ⟨hk, hres⟩ := hbuilt (by rw [hpc]; rfl)
  have hnp := h.ne_child hon hemb
  have h₁ : Inv (s.setPc p (.release .code)) :=
    h.move (t := s.proc) (l := s.lock) hon (.inr hlock) (by rw [hlock]; rfl)
      (fun _ _ => .refl) hrun nofun nofun
  have hpcnp : (s.setPc p (.release .code)).pc np = .resume .forkret := by
    simp [Sys.setPc, Function.update_of_ne hnp, hres]
  have h₂ := h₁.slot (z := np) (y := (s.proc np).ready) (b := s.kstack np) (by simp [Sys.setPc, hemb, Live])
    (h₁.off_of_embryo hemb) (.inl rfl) nofun (fun _ => ⟨hk, hpcnp⟩) ?_
  · rwa [Function.update_eq_self, show (s.setPc p (.release .code)).kstack = s.kstack from rfl,
      Function.update_eq_self] at h₂
  · intro q hq
    by_cases hqp : q = p
    · subst hqp
      simp [Sys.setPc, Pc.pos, Pos.child] at hq
    · simp only [Sys.setPc, Function.update_of_ne hqp] at hq
      exact absurd (h.childOnce q p np hq hp) hqp

/-- **A step of a process that has the lock.** -/
theorem Inv.goProc (h : Inv s) (hon : s.on c = some p) (hs : s.goProc c p (s.pc p) = some s') :
    Inv s' := by
  have hst := (h.on c p hon).2.2.2.1
  have hin : (s.pc p).inside = true → s.lock = some c := fun hin =>
    (h.lock c).mp (by simpa only [Sys.inside, hon] using hin)
  cases hpc : s.pc p with
  | free k =>
      rw [hpc] at hs
      cases hs
  | yield k =>
      rw [hpc] at hs hst hin
      have hlock := hin rfl
      cases hs
      exact h.move (l := s.lock) hon (.inr hlock) (by rw [hlock]; rfl)
        (fun x hx => nudged_update s.proc _ hx) (by simp [Sys.setProc]; rfl) nofun
        (h.keepChild (.inl (by rw [hpc]; rfl)))
  | sleep chan =>
      rw [hpc] at hs hst hin
      have hlock := hin rfl
      cases hs
      exact h.move (l := s.lock) hon (.inr hlock) (by rw [hlock]; rfl)
        (fun x hx => nudged_update s.proc _ hx) (by simp [Sys.setProc]; rfl) nofun nofun
  | exit =>
      rw [hpc] at hs hst hin
      have hlock := hin rfl
      cases hs
      exact h.move (l := s.lock) hon (.inr hlock) (by rw [hlock]; rfl)
        (fun x hx => nudged_exitTable s.proc _ hx) (Life.exitTable_exited s.proc).zombie nofun nofun
  | wakeup chan k =>
      rw [hpc] at hs hst hin
      have hlock := hin rfl
      cases hs
      refine h.move (l := s.lock) hon (.inr hlock) (by rw [hlock]; rfl)
        (fun x _ => nudged_wakeup1 s.proc chan x) ?_ nofun (h.keepChild (.inl (by rw [hpc]; rfl)))
      rw [(nudged_wakeup1 s.proc chan p).eq (by rw [hst]; nofun), hst]
      rfl
  | kill pid =>
      rw [hpc] at hs hst hin
      have hlock := hin rfl
      cases hs
      refine h.move (l := s.lock) hon (.inr hlock) (by rw [hlock]; rfl)
        (fun x _ => nudged_killTable s.proc pid x) ?_ nofun nofun
      rw [(nudged_killTable s.proc pid p).eq (by rw [hst]; nofun), hst]
      rfl
  | wait =>
      rw [hpc] at hs hin
      cases hs
      exact h.waitRound hon (hin rfl) hpc
  | alloc =>
      rw [hpc] at hs hin
      cases hs
      exact h.allocproc hon (hin rfl) hpc
  | ready np =>
      rw [hpc] at hs hin
      cases hs
      exact h.ready hon (hin rfl) hpc
  | sched r =>
      rw [hpc] at hs hst hin
      cases hs
      -- the state was changed before `sched()`, so its check of it cannot fail
      rw [Sys.enter, if_neg (not_not.mpr (hin rfl)), if_neg (by rw [hst]; exact r.state_ne_running)]
      exact h.leave hon (hin rfl) hpc
  | resume r =>
      rw [hpc] at hs hst hin
      have hlock := hin rfl
      cases hs
      cases r with
      | yield k =>
          exact h.move (t := s.proc) (l := s.lock) hon (.inr hlock) (by rw [hlock]; rfl)
            (fun _ _ => .refl) hst nofun (h.keepChild (.inl (by rw [hpc]; rfl)))
      | sleep =>
          exact h.move (l := s.lock) hon (.inr hlock) (by rw [hlock]; rfl)
            (fun x hx => nudged_update s.proc _ hx) ((congrArg _ (Function.update_self ..)).trans hst) nofun nofun
      | wait =>
          exact h.move (l := s.lock) hon (.inr hlock) (by rw [hlock]; rfl)
            (fun x hx => nudged_update s.proc _ hx) ((congrArg _ (Function.update_self ..)).trans hst) nofun nofun
      | exit => exact absurd hpc (h.on c p hon).2.2.2.2
      | forkret =>
          exact h.move (t := s.proc) (l := s.lock) hon (.inr hlock) (by rw [hlock]; rfl)
            (fun _ _ => .refl) hst nofun nofun
  | release k =>
      rw [hpc] at hs hst hin
      have hlock := hin rfl
      cases hs
      exact h.move (t := s.proc) (l := none) hon (.inr hlock) rfl (fun _ _ => .refl) hst nofun
        (h.keepChild (.inl (by rw [hpc]; rfl)))

/-- **A step of a scheduler that has the lock.** -/
theorem Inv.goSched (h : Inv s) (hon : s.on c = none) (hs : s.goSched c (s.sched c) = some s') :
    Inv s' := by
  have hok := h.sched c hon
  have hin : (s.sched c).inside = true → s.lock = some c := fun hin =>
    (h.lock c).mp (by simpa only [Sys.inside, hon] using hin)
  cases hpc : s.sched c with
  | free =>
      rw [hpc] at hs
      cases hs
  | scan winning =>
      rw [hpc] at hs hok hin
      have hlock := hin rfl
      simp only [Sys.goSched] at hs
      split at hs
      · rename_i p hp
        cases hs
        refine h.moveSched (t := s.proc) (l := s.lock) hon (.inr hlock) (by simp [hpc])
          (by rw [hlock]; rfl) (fun _ => .refl) ⟨by simp, Sched.scan_runnable hp⟩
      · cases hs
        have := h.moveSched (t := s.proc) (l := s.lock) hon (.inr hlock) (by simp [hpc])
          (a := .release) (u := s.cur c) (by rw [hlock]; rfl) (fun _ => .refl)
          ((Function.update_self ..).trans hok)
        rwa [Function.update_eq_self] at this
  | picked p =>
      rw [hpc] at hs hin
      cases hs
      exact h.choose hon (hin rfl) hpc
  | swtch p =>
      rw [hpc] at hs hin
      cases hs
      exact h.dispatch hon (hin rfl) hpc
  | back =>
      rw [hpc] at hs hin
      have hlock := hin rfl
      cases hs
      exact h.moveSched (t := s.proc) (l := s.lock) hon (.inr hlock) (by simp [hpc])
        (by rw [hlock]; rfl) (fun _ => .refl) (Function.update_self ..)
  | wakeup chan =>
      rw [hpc] at hs hok hin
      have hlock := hin rfl
      cases hs
      have := h.moveSched (t := wakeup1 s.proc chan) (l := s.lock) hon (.inr hlock) (by simp [hpc])
        (a := .release) (u := s.cur c) (by rw [hlock]; rfl) (nudged_wakeup1 s.proc chan)
        ((Function.update_self ..).trans hok)
      rwa [Function.update_eq_self] at this
  | release =>
      rw [hpc] at hs hok hin
      have hlock := hin rfl
      cases hs
      have := h.moveSched (t := s.proc) (l := none) hon (.inr hlock) (by simp [hpc])
        (a := .free) (u := s.cur c) rfl (fun _ => .refl) ((Function.update_self ..).trans hok)
      rwa [Function.update_eq_self] at this

/-- **Every step keeps the invariant.** -/
theorem Inv.step (h : Inv s) (hs : step s e = some s') : Inv s' := by
  unfold Switch.step at hs
  split at hs
  swap
  · cases hs
  cases e with
  | scan c winning => exact h.acquireSched hs rfl fun _ => rfl
  | yield c =>
      refine h.acquire hs fun k pc hk => ?_
      cases hk
      exact ⟨rfl, rfl, nofun, rfl⟩
  | sleep c chan =>
      refine h.acquire hs fun k pc hk => ?_
      obtain ⟨rfl, hk⟩ := Option.ite_none_right_eq_some.mp hk
      cases hk
      exact ⟨rfl, rfl, nofun, rfl⟩
  | exit c =>
      simp only [next] at hs
      split at hs
      · split at hs
        · cases hs
          exact h.stop (by decide)
        · cases hs
      · refine h.acquire hs fun k pc hk => ?_
        obtain ⟨rfl, hk⟩ := Option.ite_none_right_eq_some.mp hk
        cases hk
        exact ⟨rfl, rfl, nofun, rfl⟩
  | wait c =>
      refine h.acquire hs fun k pc hk => ?_
      obtain ⟨rfl, hk⟩ := Option.ite_none_right_eq_some.mp hk
      cases hk
      exact ⟨rfl, rfl, nofun, rfl⟩
  | kill c pid =>
      refine h.acquire hs fun k pc hk => ?_
      obtain ⟨rfl, hk⟩ := Option.ite_none_right_eq_some.mp hk
      cases hk
      exact ⟨rfl, rfl, nofun, rfl⟩
  | alloc c =>
      refine h.acquire hs fun k pc hk => ?_
      obtain ⟨rfl, hk⟩ := Option.ite_none_right_eq_some.mp hk
      cases hk
      exact ⟨rfl, rfl, nofun, rfl⟩
  | ready c =>
      refine h.acquire hs fun k pc hk => ?_
      cases k with
      | forked np =>
          cases hk
          exact ⟨rfl, rfl, nofun, rfl⟩
      | code | alloc | fork => cases hk
  | wakeup c chan =>
      simp only [next] at hs
      split at hs
      · exact h.acquireSched hs rfl fun _ => rfl
      · refine h.acquire hs fun k pc hk => ?_
        cases hk
        exact ⟨rfl, rfl, nofun, rfl⟩
  | kalloc c ok =>
      simp only [next, Sys.outside] at hs
      split at hs <;> try cases hs
      rename_i p hon
      split at hs <;> try cases hs
      rename_i k hpc
      split at hs <;> cases hs
      · exact h.build hon hpc
      · exact h.giveBack hon hpc rfl
  | copyuvm c ok =>
      simp only [next, Sys.outside] at hs
      split at hs <;> try cases hs
      rename_i p hon
      split at hs <;> try cases hs
      rename_i k hpc
      split at hs <;> cases hs
      · exact h.adopt hon hpc
      · exact h.giveBack hon hpc rfl
  | go c =>
      simp only [next] at hs
      split at hs
      · rename_i p hon
        exact h.goProc hon hs
      · rename_i hon
        exact h.goSched hon hs

omit [DecidableEq C] in
theorem inv_boot : Inv (boot C) := by
  refine ⟨fun c => by simp [Sys.inside, boot, SchedPc.inside], fun c p hp => (by cases hp),
    fun c c' p hp => (by cases hp), fun p _ hl => ?_, fun p _ hr => ?_, fun c _ => rfl,
    fun p np hp => (by cases hp), fun p q np hp => (by cases hp), by simp [boot]⟩
  · refine ⟨?_, .forkret, nofun, rfl⟩
    by_contra hp
    have hp : p ≠ 0 := by simpa [boot] using hp
    simp [boot, hp, Proc.zero, Live] at hl
  · by_cases hp : p = 0
    · simp [boot, hp, Proc.ready] at hr
    · simp [boot, hp, Proc.zero] at hr

/-- `swtch` and the freeing of stacks are never one step. -/
theorem step_on_or_kstack (hs : step s e = some s') : s'.on = s.on ∨ s'.kstack = s.kstack := by
  have hacq : ∀ {c f}, s.acquire c f = some s' → s'.on = s.on := by
    intro c f h
    unfold Sys.acquire at h
    split at h <;> try cases h
    split at h <;> try cases h
    split at h <;> try cases h
    obtain ⟨pc, -, rfl⟩ := Option.map_eq_some_iff.mp h
    rfl
  have hacqS : ∀ {c sp}, s.acquireSched c sp = some s' → s'.on = s.on := by
    intro c sp h
    unfold Sys.acquireSched at h
    split at h <;> cases h
    rfl
  unfold Switch.step at hs
  split at hs
  swap
  · cases hs
  cases e with
  | scan c winning => exact .inl (hacqS hs)
  | yield c | sleep c chan | wait c | kill c pid | alloc c | ready c => exact .inl (hacq hs)
  | exit c =>
      simp only [next] at hs
      split at hs
      · split at hs <;> cases hs
        exact .inl rfl
      · exact .inl (hacq hs)
  | wakeup c chan =>
      simp only [next] at hs
      split at hs
      · exact .inl (hacqS hs)
      · exact .inl (hacq hs)
  | kalloc c ok | copyuvm c ok =>
      simp only [next, Sys.outside] at hs
      split at hs <;> try cases hs
      split at hs <;> try cases hs
      split at hs <;> cases hs <;> exact .inl rfl
  | go c =>
      simp only [next] at hs
      split at hs
      · rename_i p hon
        cases hpc : s.pc p with
        | free k =>
            rw [hpc] at hs
            cases hs
        | sched r =>
            rw [hpc] at hs
            cases hs
            right
            unfold Sys.enter
            split
            · rfl
            · split <;> rfl
        | wait =>
            rw [hpc] at hs
            cases hs
            left
            unfold Sys.waitRound
            split
            · rfl
            · split <;> rfl
        | alloc =>
            rw [hpc] at hs
            cases hs
            left
            unfold Sys.allocproc
            split <;> rfl
        | resume r =>
            rw [hpc] at hs
            cases hs
            left
            cases r <;> rfl
        | _ =>
            rw [hpc] at hs
            cases hs
            exact .inl rfl
      · right
        cases hpc : s.sched c with
        | free =>
            rw [hpc] at hs
            cases hs
        | scan winning =>
            rw [hpc] at hs
            simp only [Sys.goSched] at hs
            split at hs <;> cases hs <;> rfl
        | _ =>
            rw [hpc] at hs
            cases hs
            rfl

end Steps

/-! ### One CPU for each running process -/

section Main
variable [DecidableEq C] {s : Sys C} {es : List (Event C)}

theorem inv_run (h : runs step (boot C) es = some s) : Inv s :=
  runs_inv_all (fun _ _ _ hi hs => hi.step hs) inv_boot h

omit [DecidableEq C] in
/-- While the lock is free, `proc` on a CPU is the process whose stack it is on. -/
theorem Inv.on_of_cur (h : Inv s) (hlock : s.lock = none) {c : C} {p : Slot}
    (hcur : s.cur c = some p) : s.on c = some p ∧ (s.proc p).state = .running := by
  have hin : s.inside c = false := by
    rw [Bool.eq_false_iff, ne_eq, h.lock c, hlock]
    nofun
  cases hon : s.on c with
  | none =>
      have hok := h.sched c hon
      simp only [Sys.inside, hon] at hin
      rw [SchedPc.inside_eq_false.mp hin] at hok
      have hnone : s.cur c = none := hok
      rw [hcur] at hnone
      cases hnone
  | some q =>
      obtain ⟨hcq, -, -, hst, -⟩ := h.on c q hon
      obtain rfl : p = q := Option.some.inj (hcur.symm.trans hcq)
      simp only [Sys.inside, hon] at hin
      refine ⟨rfl, ?_⟩
      rw [hst]
      by_contra hne
      rw [Pc.inside_of_state hne] at hin
      cases hin

omit [DecidableEq C] in
theorem Inv.unique_cpu (h : Inv s) (hlock : s.lock = none) {p : Slot}
    (hp : (s.proc p).state = .running) : ∃! c, s.cur c = some p := by
  have hon : ∃ c, s.on c = some p := by
    by_contra hoff
    obtain ⟨c, hc, hsw⟩ := h.running p (fun c hc => hoff ⟨c, hc⟩) hp
    have hl := (h.lock c).mp (by simp only [Sys.inside, hc, hsw]; rfl)
    rw [hlock] at hl
    cases hl
  obtain ⟨c, hc⟩ := hon
  exact ⟨c, (h.on c p hc).1, fun d hd => h.once d c p (h.on_of_cur hlock hd).1 hc⟩

/-- **One CPU for each running process.**  In every reachable state in which `ptable.lock` is free,
a `RUNNING` slot is `proc` on exactly one CPU and `proc` of a CPU is `RUNNING`; a CPU never executes
on a stack that was freed, and no stack is freed under a CPU; and `sched`'s check of the state and
the end of `exit` never panic. -/
theorem one_cpu_per_running (h : runs step (boot C) es = some s) :
    (s.lock = none → (∀ p, (s.proc p).state = .running → ∃! c, s.cur c = some p) ∧
      ∀ c p, s.cur c = some p → (s.proc p).state = .running) ∧
    (∀ c p, s.on c = some p → s.kstack p = true) ∧
    (∀ e s', step s e = some s' → ∀ p, s.kstack p = true → s'.kstack p = false →
      ∀ c, s.on c ≠ some p) ∧
    s.panic ≠ some .schedRunning ∧ s.panic ≠ some .zombieExit := by
  have hi := inv_run h
  refine ⟨fun hlock => ⟨fun p hp => hi.unique_cpu hlock hp,
    fun c p hc => (hi.on_of_cur hlock hc).2⟩, fun c p hc => (hi.on c p hc).2.2.1, ?_, hi.panic⟩
  intro e s' hs p hk hk' c hc
  rcases step_on_or_kstack hs with hon | hst
  · have := ((hi.step hs).on c p (by rw [hon]; exact hc)).2.2.1
    rw [hk'] at this
    cases this
  · rw [hst, hk] at hk'
    cases hk'

end Main

/-- For the numbers of two CPUs. -/
local instance neZero_two : NeZero 2 := ⟨by decide⟩

/-- CPU 0 picks the first process, which returns from `forkret`. -/
def firstSwitch : List (Event (Fin 2)) := [.scan 0 0, .go 0, .go 0, .go 0, .go 0, .go 0]

theorem runs_firstSwitch : (runs step (boot (Fin 2)) firstSwitch).map
    (fun s => (s.lock, (s.proc 0).state)) = some (none, .running) := by decide

/-- After `firstSwitch` the first slot is current on exactly one of the two CPUs. -/
theorem firstSwitch_one_cpu : ∃ s, runs step (boot (Fin 2)) firstSwitch = some s ∧
    s.lock = none ∧ ∃! c, s.cur c = some 0 := by
  obtain ⟨s, hs, heq⟩ := Option.map_eq_some_iff.mp runs_firstSwitch
  have hlock : s.lock = none := congrArg Prod.fst heq
  exact ⟨s, hs, hlock, ((one_cpu_per_running hs).1 hlock).1 0 (congrArg Prod.snd heq)⟩

end Xv6.Switch
