import Xv6.Life.Machine

/-!
# Life — the process family

`Family` says that the parent links of the processes form a tree with `initproc` at its root, whose
inner nodes are alive, and what holds of the slots a `fork` is filling in.  It is kept by every step
(`Family.step`), and with it:

* `family_run`: in every state of every run from boot the links form that tree, and no process is
  returned by two calls of `wait`;
* `no_wait_for_zombie`: no process sleeps in `wait` that has a zombie child.
-/

namespace Xv6.Life
open Lib
open Sched (Slot Table Proc ProcState Chan firstUnused nproc)

/-! ### The tree -/

/-- `SLEEPING`, `RUNNABLE` or `RUNNING`. -/
def Live (st : ProcState) : Prop := st = .sleeping ∨ st = .runnable ∨ st = .running

/-- The links from the slot lead to `initproc`. -/
inductive Reaches (t : Table) (initproc : Slot) : Slot → Prop
  | refl : Reaches t initproc initproc
  | parent {x q : Slot} (hpar : (t x).parent = some q) (hq : Reaches t initproc q) :
      Reaches t initproc x

/-- The slot `fork` is filling in. -/
def Pc.child : Pc → Option Slot
  | .fork np | .forked np => some np
  | _ => none

/-- The parent the slot has meanwhile. -/
def Pc.childParent (p : Slot) : Pc → Option Slot
  | .forked _ => some p
  | _ => none

structure Family (s : Sys) : Prop where
  unused : ∀ x, (s.proc x).state = .unused → (s.proc x).parent = none
  parent : ∀ x q, (s.proc x).parent = some q → Live (s.proc q).state
  init : Live (s.proc s.initproc).state
  kin : ∀ x, Live (s.proc x).state ∨ (s.proc x).state = .zombie → x ≠ s.initproc →
    (s.proc x).parent ≠ none
  reach : ∀ x, Live (s.proc x).state ∨ (s.proc x).state = .zombie → Reaches s.proc s.initproc x
  child : ∀ p np, (s.pc p).child = some np → Live (s.proc p).state ∧ (s.proc np).state = .embryo ∧
    (s.proc np).parent = (s.pc p).childParent p
  one : ∀ p q np, (s.pc p).child = some np → (s.pc q).child = some np → p = q

section Parts
variable {s s' : Sys} {t t' : Table} {x y p q initproc : Slot}

theorem Live.ne_unused {st : ProcState} (h : Live st) : st ≠ .unused := by
  rintro rfl
  simp [Live] at h

theorem Live.ne_zombie {st : ProcState} (h : Live st) : st ≠ .zombie := by
  rintro rfl
  simp [Live] at h

theorem Live.ne_embryo {st : ProcState} (h : Live st) : st ≠ .embryo := by
  rintro rfl
  simp [Live] at h

theorem live_running : Live .running := .inr (.inr rfl)

theorem live_runnable : Live .runnable := .inr (.inl rfl)

theorem live_sleeping : Live .sleeping := .inl rfl

theorem live_of_wake {st st' : ProcState} (h : st = .sleeping ∧ st' = .runnable) :
    Live st ∧ Live st' := by
  rw [h.1, h.2]
  exact ⟨live_sleeping, live_runnable⟩

theorem Reaches.mono (h : Reaches t initproc x)
    (hpar : ∀ x q, (t x).parent = some q → (t' x).parent = some q) : Reaches t' initproc x := by
  induction h with
  | refl => exact .refl
  | parent hx _ ih => exact .parent (hpar _ _ hx) ih

/-- Only `initproc` could be its own parent. -/
theorem Reaches.eq_init_of_self (h : Reaches t initproc x) (hx : (t x).parent = some x) :
    x = initproc := by
  induction h with
  | refl => rfl
  | parent hpar _ ih =>
      rw [hx] at hpar
      cases hpar
      exact ih hx

/-- A step that changes no parent, and no state except between the live ones, and does not touch the
`fork`s. -/
theorem Family.of_live (h : Family s) (hinit : s'.initproc = s.initproc)
    (hpar : ∀ y, (s'.proc y).parent = (s.proc y).parent)
    (hst : ∀ y, (s'.proc y).state = (s.proc y).state ∨
      Live (s.proc y).state ∧ Live (s'.proc y).state)
    (hpc : ∀ y, (s'.pc y).child = (s.pc y).child ∧
      (s'.pc y).childParent y = (s.pc y).childParent y) : Family s' := by
  have hlive : ∀ y, Live (s.proc y).state → Live (s'.proc y).state := by
    intro y hy
    obtain he | he := hst y
    · rwa [he]
    · exact he.2
  have hback : ∀ y, Live (s'.proc y).state ∨ (s'.proc y).state = .zombie →
      Live (s.proc y).state ∨ (s.proc y).state = .zombie := by
    intro y hy
    obtain he | he := hst y
    · rwa [he] at hy
    · exact .inl he.1
  refine ⟨fun x hx => ?_, fun x q hx => ?_, ?_, fun x hx hne => ?_, fun x hx => ?_, fun p np hc => ?_,
    fun p q np hp hq => ?_⟩
  · obtain he | he := hst x
    · rw [hpar]
      exact h.unused x (he ▸ hx)
    · exact absurd hx he.2.ne_unused
  · exact hlive q (h.parent x q (hpar x ▸ hx))
  · rw [hinit]
    exact hlive _ h.init
  · rw [hpar]
    exact h.kin x (hback x hx) (hinit ▸ hne)
  · rw [hinit]
    exact (h.reach x (hback x hx)).mono fun x q hx => (hpar x).trans hx
  · rw [(hpc p).1] at hc
    obtain ⟨hl, he, hp⟩ := h.child p np hc
    refine ⟨hlive p hl, ?_, by rw [hpar, hp, (hpc p).2]⟩
    obtain hs | hs := hst np
    · rw [hs, he]
    · exact absurd he hs.1.ne_embryo
  · rw [(hpc p).1] at hp
    rw [(hpc q).1] at hq
    exact h.one p q np hp hq

theorem Sys.setProc_proc (s : Sys) (p y : Slot) (f : Proc → Proc) :
    (s.setProc p f).proc y = if y = p then f (s.proc p) else s.proc y := Function.update_apply ..

/-- One live process changes, to a live one. -/
theorem Family.setProc {f : Proc → Proc} (h : Family s) (hlive : Live (s.proc p).state)
    (hpar : (f (s.proc p)).parent = (s.proc p).parent) (hst : Live (f (s.proc p)).state) :
    Family (s.setProc p f) := by
  refine h.of_live rfl (fun y => ?_) (fun y => ?_) fun y => ⟨rfl, rfl⟩
  · rw [Sys.setProc_proc]
    split
    · rename_i hy
      rw [hy, hpar]
    · rfl
  · rw [Sys.setProc_proc]
    split
    · rename_i hy
      rw [hy]
      exact .inr ⟨hlive, hst⟩
    · exact .inl rfl

/-- A process that is not in `fork` goes on. -/
theorem Family.setPc {pc : Pc} (h : Family s) (hold : (s.pc p).child = none) (hnew : pc.child = none) :
    Family (s.setPc p pc) := by
  have hnone : ∀ (pc : Pc), pc.child = none → pc.childParent p = none := by
    intro pc hpc
    cases pc <;> first | rfl | cases hpc
  refine h.of_live rfl (fun _ => rfl) (fun _ => .inl rfl) fun y => ?_
  by_cases hy : y = p
  · subst hy
    simp only [Sys.setPc, Function.update_self]
    exact ⟨hnew.trans hold.symm, (hnone pc hnew).trans (hnone _ hold).symm⟩
  · simp only [Sys.setPc, Function.update_of_ne hy, and_self]

theorem killTable_apply (t : Table) (pid : Int32) (y : Slot) :
    killTable t pid y = if killSlot t pid = some y then (t y).kill else t y := by
  unfold killTable
  cases hx : killSlot t pid with
  | none => simp
  | some x =>
      by_cases hy : y = x
      · subst hy
        simp
      · simp [hy, Ne.symm hy]

@[simp] theorem killTable_parent (t : Table) (pid : Int32) (y : Slot) :
    (killTable t pid y).parent = (t y).parent := by
  rw [killTable_apply]
  split <;> rfl

@[simp] theorem killTable_chan (t : Table) (pid : Int32) (y : Slot) :
    (killTable t pid y).chan = (t y).chan := by
  rw [killTable_apply]
  split <;> rfl

theorem killTable_state (t : Table) (pid : Int32) (y : Slot) :
    (killTable t pid y).state = (t y).state ∨
      (t y).state = .sleeping ∧ (killTable t pid y).state = .runnable := by
  rw [killTable_apply]
  split
  · by_cases hs : (t y).state = .sleeping
    · exact .inr ⟨hs, if_pos hs⟩
    · exact .inl (if_neg hs)
  · exact .inl rfl

/-- The links of the other slots stay when a slot that is nobody's parent changes. -/
theorem Reaches.of_ne {z : Slot} (h : Reaches t initproc x)
    (hz : ∀ x, (t x).parent ≠ some z) (hother : ∀ y ≠ z, t' y = t y) (hx : x ≠ z) :
    Reaches t' initproc x := by
  induction h with
  | refl => exact .refl
  | parent hpar _ ih =>
      refine .parent (by rw [hother _ hx]; exact hpar) (ih ?_)
      rintro rfl
      exact hz _ hpar

/-- A slot that is not alive becomes `w`. -/
theorem Family.of_slot {z : Slot} {w : Proc} (h : Family s) (hz : ¬ Live (s.proc z).state)
    (hinit : s'.initproc = s.initproc) (hself : s'.proc z = w) (hother : ∀ y ≠ z, s'.proc y = s.proc y)
    (hunused : w.state = .unused → w.parent = none)
    (hparent : ∀ q, w.parent = some q → Live (s.proc q).state)
    (hkin : Live w.state ∨ w.state = .zombie → w.parent ≠ none)
    (hchild : ∀ p np, (s'.pc p).child = some np → Live (s.proc p).state ∧
      (s'.proc np).state = .embryo ∧ (s'.proc np).parent = (s'.pc p).childParent p)
    (hone : ∀ p q np, (s'.pc p).child = some np → (s'.pc q).child = some np → p = q) :
    Family s' := by
  have hlive : ∀ q, Live (s.proc q).state → q ≠ z ∧ Live (s'.proc q).state := by
    intro q hq
    have hne : q ≠ z := by
      rintro rfl
      exact hz hq
    exact ⟨hne, by rwa [hother q hne]⟩
  have hnobody : ∀ x, (s.proc x).parent ≠ some z := fun x hx => hz (h.parent x z hx)
  refine ⟨fun x hx => ?_, fun x q hx => ?_, ?_, fun x hx hne => ?_, fun x hx => ?_,
    fun p np hc => ?_, hone⟩
  · by_cases hxz : x = z
    · subst hxz
      rw [hself] at hx ⊢
      exact hunused hx
    · rw [hother x hxz] at hx ⊢
      exact h.unused x hx
  · refine (hlive q ?_).2
    by_cases hxz : x = z
    · subst hxz
      rw [hself] at hx
      exact hparent q hx
    · rw [hother x hxz] at hx
      exact h.parent x q hx
  · rw [hinit]
    exact (hlive _ h.init).2
  · by_cases hxz : x = z
    · subst hxz
      rw [hself] at hx ⊢
      exact hkin hx
    · rw [hother x hxz] at hx ⊢
      exact h.kin x hx (hinit ▸ hne)
  · rw [hinit]
    by_cases hxz : x = z
    · subst hxz
      rw [hself] at hx
      obtain ⟨q, hq⟩ := Option.ne_none_iff_exists'.mp (hkin hx)
      have hql := hparent q hq
      refine .parent (by rw [hself]; exact hq) ?_
      exact (h.reach q (.inl hql)).of_ne hnobody hother (hlive q hql).1
    · rw [hother x hxz] at hx
      exact (h.reach x hx).of_ne hnobody hother hxz
  · obtain ⟨hl, hrest⟩ := hchild p np hc
    exact ⟨(hlive p hl).2, hrest⟩

end Parts

section Steps
variable {s s' : Sys} {p np z : Slot}

theorem Family.alloc (h : Family s) (hrun : (s.proc p).state = .running)
    (hnp : (s.proc np).state = .unused) : Family ((s.allocproc np).setPc p (.fork np)) := by
  -- the slot of no other `fork` is unused
  have hfresh : ∀ p', (s.pc p').child ≠ some np := by
    intro p' hc
    have := (h.child p' np hc).2.1
    rw [hnp] at this
    cases this
  have hpar := h.unused np hnp
  have hpc : ∀ q, ((s.allocproc np).setPc p (.fork np)).pc q = if q = p then .fork np else s.pc q :=
    fun q => Function.update_apply ..
  refine h.of_slot (z := np) (w := (s.proc np).alloc s.nextpid) (fun hl => hl.ne_unused hnp) rfl
    (Function.update_self ..) (fun y hy => Function.update_of_ne hy _ _) nofun ?_ ?_ ?_ ?_
  · intro q hq
    rw [show ((s.proc np).alloc s.nextpid).parent = none from hpar] at hq
    cases hq
  · rintro (hl | hl)
    · exact absurd rfl hl.ne_embryo
    · cases hl
  · intro p' np' hc
    rw [hpc] at hc ⊢
    split at hc
    · rename_i hp
      cases hc
      rw [if_pos hp, hp, hrun]
      exact ⟨live_running, by simp [Sys.setPc, Sys.allocproc, Sys.setProc, Proc.alloc],
        by simpa [Sys.setPc, Sys.allocproc, Sys.setProc, Proc.alloc, Pc.childParent] using hpar⟩
    · rename_i hp
      have hne : np' ≠ np := by
        rintro rfl
        exact hfresh p' hc
      rw [if_neg hp]
      simpa [Sys.setPc, Sys.allocproc, Sys.setProc, hne] using h.child p' np' hc
  · intro p' q' np' hp' hq'
    rw [hpc] at hp' hq'
    split at hp' <;> split at hq'
    · rename_i h1 h2
      exact h1.trans h2.symm
    · cases hp'
      exact absurd hq' (hfresh q')
    · cases hq'
      exact absurd hp' (hfresh p')
    · exact h.one p' q' np' hp' hq'

/-- The end of a `fork`, which leaves its slot as `w`. -/
theorem Family.end_fork {w : Proc} (h : Family s) (hc : (s.pc p).child = some np)
    (hinit : s'.initproc = s.initproc) (hself : s'.proc np = w)
    (hother : ∀ y ≠ np, s'.proc y = s.proc y)
    (hpc : ∀ q, q ≠ p → (s.pc q).child ≠ none → s'.pc q = s.pc q)
    (hnone : ∀ q, (s.pc q).child = none → (s'.pc q).child = none) (hend : (s'.pc p).child = none)
    (hunused : w.state = .unused → w.parent = none)
    (hparent : ∀ q, w.parent = some q → Live (s.proc q).state)
    (hkin : Live w.state ∨ w.state = .zombie → w.parent ≠ none) : Family s' := by
  obtain ⟨hl, he, -⟩ := h.child p np hc
  have hback : ∀ q n, (s'.pc q).child = some n → q ≠ p ∧ s'.pc q = s.pc q := by
    intro q n hq
    have hqp : q ≠ p := by
      rintro rfl
      rw [hend] at hq
      cases hq
    refine ⟨hqp, hpc q hqp fun hn => ?_⟩
    rw [hnone q hn] at hq
    cases hq
  refine h.of_slot (fun hl => hl.ne_embryo he) hinit hself hother hunused hparent hkin ?_ ?_
  · intro q n hq
    obtain ⟨hqp, hsame⟩ := hback q n hq
    rw [hsame] at hq ⊢
    have hne : n ≠ np := by
      rintro rfl
      exact hqp (h.one q p n hq hc)
    rw [hother n hne]
    exact h.child q n hq
  · intro q q' n hq hq'
    rw [(hback q n hq).2] at hq
    rw [(hback q' n hq').2] at hq'
    exact h.one q q' n hq hq'

theorem Family.fail (h : Family s) (hpc : s.pc p = .fork np) :
    Family ((s.setProc np (·.unalloc)).setPc p .user) := by
  have hc : (s.pc p).child = some np := by rw [hpc]; rfl
  obtain ⟨-, -, hpar⟩ := h.child p np hc
  rw [hpc] at hpar
  refine h.end_fork hc rfl (Function.update_self ..) (fun y hy => Function.update_of_ne hy _ _)
    (fun q hq _ => Function.update_of_ne hq _ _) (fun q hq => ?_) ?_ (fun _ => hpar) ?_ nofun
  · by_cases hqp : q = p
    · simp [Sys.setPc, hqp, Pc.child]
    · simpa [Sys.setPc, hqp, Sys.setProc] using hq
  · simp [Sys.setPc, Pc.child]
  · intro q hq
    rw [show ((s.proc np).unalloc).parent = none from hpar] at hq
    cases hq

theorem Family.ready (h : Family s) (hpc : s.pc p = .forked np) :
    Family (((s.setProc np (·.ready)).setPc np .user).setPc p .user) := by
  have hc : (s.pc p).child = some np := by rw [hpc]; rfl
  obtain ⟨hl, he, hpar⟩ := h.child p np hc
  rw [hpc] at hpar
  -- the child itself is in no `fork`
  have hnp : (s.pc np).child = none := by
    by_contra hne
    obtain ⟨n, hn⟩ := Option.ne_none_iff_exists'.mp hne
    exact (h.child np n hn).1.ne_embryo he
  refine h.end_fork hc rfl (Function.update_self ..) (fun y hy => Function.update_of_ne hy _ _)
    (fun q hq hcq => ?_) (fun q hq => ?_) ?_ nofun ?_ ?_
  · have hqnp : q ≠ np := by
      rintro rfl
      exact hcq hnp
    simp [Sys.setPc, hq, hqnp, Sys.setProc]
  · by_cases hqp : q = p
    · simp [Sys.setPc, hqp, Pc.child]
    · by_cases hqn : q = np
      · subst hqn
        simp [Sys.setPc, hqp, Pc.child]
      · simpa [Sys.setPc, hqp, hqn, Sys.setProc] using hq
  · simp [Sys.setPc, Pc.child]
  · intro q hq
    rw [show ((s.proc np).ready).parent = some p from hpar] at hq
    cases hq
    exact hl
  · intro _ hn
    rw [show ((s.proc np).ready).parent = some p from hpar] at hn
    cases hn

theorem Family.adopt (h : Family s) (hpc : s.pc p = .fork np) :
    Family ((s.setProc np ({ · with parent := some p })).setPc p (.forked np)) := by
  have hc : (s.pc p).child = some np := by rw [hpc]; rfl
  obtain ⟨hl, he, hpar⟩ := h.child p np hc
  have hpc' : ∀ q, ((s.setProc np ({ · with parent := some p })).setPc p (.forked np)).pc q =
      if q = p then .forked np else s.pc q := fun q => Function.update_apply ..
  have hchild : ∀ q, (((s.setProc np ({ · with parent := some p })).setPc p (.forked np)).pc q).child =
      (s.pc q).child := by
    intro q
    rw [hpc']
    split
    · rename_i hq
      rw [hq, hc]
      rfl
    · rfl
  refine h.of_slot (z := np) (w := { s.proc np with parent := some p }) (fun hl => hl.ne_embryo he) rfl
    (Function.update_self ..) (fun y hy => Function.update_of_ne hy _ _) ?_ ?_ nofun ?_ ?_
  · intro hu
    rw [show ({ s.proc np with parent := some p } : Proc).state = .embryo from he] at hu
    cases hu
  · rintro q hq
    cases hq
    exact hl
  · intro q n hq
    have hq' := hq
    rw [hchild] at hq
    rw [hpc']
    by_cases hn : n = np
    · subst hn
      obtain rfl := h.one q p n hq hc
      rw [if_pos rfl]
      exact ⟨hl, by simpa [Sys.setPc, Sys.setProc] using he,
        by simp [Sys.setPc, Sys.setProc, Pc.childParent]⟩
    · have hqp : q ≠ p := by
        rintro rfl
        rw [hc] at hq
        exact hn (Option.some.inj hq).symm
      rw [if_neg hqp]
      simpa [Sys.setPc, Sys.setProc, hn] using h.child q n hq
  · intro q q' n hq hq'
    rw [hchild] at hq hq'
    exact h.one q q' n hq hq'

theorem Family.reap (h : Family s) (hc : (s.pc p).child = none)
    (hz : (s.proc z).state = .zombie) : Family (s.reap p z) := by
  have hpc : ∀ q, ((s.reap p z).pc q).child = (s.pc q).child ∧
      ((s.reap p z).pc q).childParent q = (s.pc q).childParent q := by
    intro q
    by_cases hq : q = p
    · subst hq
      simp only [Sys.reap, Function.update_self]
      refine ⟨hc.symm, ?_⟩
      cases hpq : s.pc q <;> rw [hpq] at hc <;> first | rfl | cases hc
    · simp only [Sys.reap, Function.update_of_ne hq, and_self]
  refine h.of_slot (z := z) (w := (s.proc z).reap) (fun hl => hl.ne_zombie hz) rfl
    (Function.update_self ..) (fun y hy => Function.update_of_ne hy _ _) (fun _ => rfl) nofun ?_ ?_ ?_
  · rintro (hl | hl)
    · exact absurd rfl hl.ne_unused
    · cases hl
  · intro q n hq
    rw [(hpc q).1] at hq
    obtain ⟨hl, he, hpar⟩ := h.child q n hq
    have hne : n ≠ z := by
      rintro rfl
      rw [hz] at he
      cases he
    rw [(hpc q).2]
    simpa [Sys.reap, Sys.setProc, hne] using ⟨hl, he, hpar⟩
  · intro q q' n hq hq'
    rw [(hpc q).1] at hq
    rw [(hpc q').1] at hq'
    exact h.one q q' n hq hq'

/-- After `exit` the links of the others still lead to `initproc`. -/
theorem Reaches.exit {t t' : Table} {initproc x : Slot} (h : Reaches t initproc x)
    (hpar : ∀ y, (t' y).parent = if (t y).parent = some p then some initproc else (t y).parent) :
    Reaches t' initproc x := by
  induction h with
  | refl => exact .refl
  | @parent x q hx _ ih =>
      by_cases hp : (t x).parent = some p
      · exact .parent (by rw [hpar, if_pos hp]) .refl
      · exact .parent (by rw [hpar, if_neg hp, hx]) ih

theorem Exited.parent_eq {t t' : Table} {initproc : Slot} (h : Exited initproc p t t') (y : Slot) :
    (t' y).parent = if (t y).parent = some p then some initproc else (t y).parent := by
  by_cases hy : y = p
  · subst hy
    exact h.self.parent
  · exact (h.other y hy).parent

theorem Family.exit {t : Table} (h : Family s) (hrun : (s.proc p).state = .running)
    (hpc : s.pc p = .user) (hne : p ≠ s.initproc) (ht : Exited s.initproc p s.proc t) :
    Family { s with proc := t } := by
  have hlive : ∀ y ≠ p, Live (s.proc y).state → Live (t y).state := by
    intro y hy hl
    obtain he | ⟨-, he⟩ := (ht.other y hy).state
    · rwa [he]
    · rw [he]
      exact live_runnable
  have hback : ∀ y, Live (t y).state ∨ (t y).state = .zombie →
      Live (s.proc y).state ∨ (s.proc y).state = .zombie := by
    intro y hy
    by_cases hyp : y = p
    · rw [hyp, hrun]
      exact .inl live_running
    · obtain he | ⟨he, -⟩ := (ht.other y hyp).state
      · rwa [he] at hy
      · rw [he]
        exact .inl live_sleeping
  refine ⟨fun x hx => ?_, fun x q hx => ?_, hlive _ (Ne.symm hne) h.init, fun x hx hxi => ?_,
    fun x hx => (h.reach x (hback x hx)).exit ht.parent_eq, fun q n hq => ?_, h.one⟩
  · have hxp : x ≠ p := by
      rintro rfl
      rw [ht.zombie] at hx
      cases hx
    rw [ht.parent_eq, h.unused x (((ht.other x hxp).state_iff (by decide) (by decide)).mp hx)]
    rfl
  · rw [ht.parent_eq] at hx
    split at hx
    · cases hx
      exact hlive _ (Ne.symm hne) h.init
    · rename_i hxp
      refine hlive q ?_ (h.parent x q hx)
      rintro rfl
      exact hxp hx
  · rw [ht.parent_eq]
    split
    · exact nofun
    · exact h.kin x (hback x hx) hxi
  · obtain ⟨hl, he, hpar⟩ := h.child q n hq
    have hqp : q ≠ p := by
      rintro rfl
      rw [hpc] at hq
      cases hq
    have hnp : n ≠ p := by
      rintro rfl
      rw [hrun] at he
      cases he
    refine ⟨hlive q hqp hl, ((ht.other n hnp).state_iff (by decide) (by decide)).mpr he, ?_⟩
    rw [ht.parent_eq, hpar, if_neg]
    cases hq' : s.pc q <;> simp [Pc.childParent, hqp]

theorem Family.step {e : Event} (h : Family s) (hs : Step s e s') : Family s' := by
  have hnone : ∀ {p}, s.pc p = .user ∨ s.pc p = .wait → (s.pc p).child = none := by
    rintro p (hp | hp) <;> rw [hp] <;> rfl
  cases hs with
  | full _ => exact h
  | alloc hrun _ hnp => exact h.alloc hrun hnp
  | fail hpc => exact h.fail hpc
  | adopt hpc => exact h.adopt hpc
  | ready hpc => exact h.ready hpc
  | exit hrun hpc hne ht => exact h.exit hrun hpc hne ht
  | reap _ hpc _ hz => exact h.reap (hnone hpc) hz
  | noKids hpc => exact h.setPc (hnone hpc) rfl
  | waits hrun hpc _ =>
      exact (h.setProc (by rw [hrun]; exact live_running) rfl live_sleeping).setPc (hnone hpc) rfl
  | sleep hrun => exact h.setProc (by rw [hrun]; exact live_running) rfl live_sleeping
  | wakeup =>
      refine h.of_live rfl (fun y => wake_parent _ _) (fun y => ?_) fun y => ⟨rfl, rfl⟩
      exact (wake_state (s.proc y) _).imp_right fun he => live_of_wake he
  | @kill pid =>
      refine h.of_live rfl (fun y => killTable_parent ..) (fun y => ?_) fun y => ⟨rfl, rfl⟩
      exact (killTable_state s.proc pid y).imp_right fun he => live_of_wake he
  | fault hrun =>
      exact h.setProc (by rw [hrun]; exact live_running) rfl (by rw [hrun]; exact live_running)
  | yield hrun => exact h.setProc (by rw [hrun]; exact live_running) rfl live_runnable
  | run hrun => exact h.setProc (by rw [hrun]; exact live_runnable) rfl live_running

theorem family_boot : Family boot := by
  have hz : ∀ x, x ≠ 0 → boot.proc x = .zero := fun x hx => if_neg hx
  have h0 : (boot.proc 0).state = .runnable := rfl
  refine ⟨fun x _ => ?_, fun x q hq => ?_, ?_, fun x hx hne => ?_, fun x hx => ?_, nofun, nofun⟩
  · by_cases hx : x = 0
    · subst hx
      rfl
    · rw [hz x hx]
      rfl
  · by_cases hx : x = 0
    · subst hx
      cases hq
    · rw [hz x hx] at hq
      cases hq
  · exact live_runnable
  · rw [hz x hne] at hx
    rcases hx with hx | hx
    · exact absurd rfl hx.ne_unused
    · cases hx
  · by_cases hx0 : x = 0
    · subst hx0
      exact .refl
    · rw [hz x hx0] at hx
      rcases hx with hx | hx
      · exact absurd rfl hx.ne_unused
      · cases hx

end Steps

/-! ### `wait` and zombies -/

/-- No process sleeps in `wait` with a zombie child. -/
def Collected (t : Table) : Prop :=
  ∀ p z, (t p).state = .sleeping → (t p).chan = .proc p → (t z).parent = some p →
    (t z).state ≠ .zombie

section Collected
variable {s s' : Sys} {t t' : Table} {p : Slot} {w : Proc}

theorem Collected.mono (h : Collected t)
    (hsleep : ∀ p, (t' p).state = .sleeping → (t' p).chan = .proc p →
      (t p).state = .sleeping ∧ (t p).chan = .proc p)
    (hzombie : ∀ z, (t' z).state = .zombie →
      (t z).state = .zombie ∧ (t' z).parent = (t z).parent) : Collected t' := by
  intro p z hs hc hpar hz
  obtain ⟨hs', hc'⟩ := hsleep p hs hc
  obtain ⟨hz', hpar'⟩ := hzombie z hz
  exact h p z hs' hc' (hpar' ▸ hpar) hz'

/-- A slot that comes to be neither in `wait` nor a zombie. -/
theorem Collected.update (h : Collected t) (hsleep : w.state = .sleeping → w.chan ≠ .proc p)
    (hzombie : w.state ≠ .zombie) : Collected (Function.update t p w) := by
  refine h.mono (fun y hs hc => ?_) fun z hz => ?_
  · by_cases hy : y = p
    · subst hy
      rw [Function.update_self] at hs hc
      exact absurd hc (hsleep hs)
    · rw [Function.update_of_ne hy] at hs hc
      exact ⟨hs, hc⟩
  · by_cases hz' : z = p
    · subst hz'
      rw [Function.update_self] at hz
      exact absurd hz hzombie
    · rw [Function.update_of_ne hz'] at hz ⊢
      exact ⟨hz, rfl⟩

/-- `exit`: the new zombie and those it leaves behind have parents that are awake. -/
theorem Collected.exit (h : Collected s.proc) (hf : Family s) (hrun : (s.proc p).state = .running)
    (hne : p ≠ s.initproc) (ht : Exited s.initproc p s.proc t) : Collected t := by
  have hself : (s.proc p).parent ≠ some p := fun hp =>
    hne ((hf.reach p (.inl (by rw [hrun]; exact live_running))).eq_init_of_self hp)
  intro q z hs hc hpar hz
  have hqp : q ≠ p := by
    rintro rfl
    rw [ht.zombie] at hs
    cases hs
  have hq := ht.other q hqp
  rw [hq.chan] at hc
  rw [ht.parent_eq] at hpar
  by_cases hzp : z = p
  · subst hzp
    rw [if_neg hself] at hpar
    exact ht.parent q q hpar hs hc
  · have hz' := ((ht.other z hzp).state_iff (by decide) (by decide)).mp hz
    split at hpar
    · rename_i hzp
      cases hpar
      exact ht.init z hzp hz' _ hs hc
    · exact h q z (hq.sleeping hs) hc hpar hz'

theorem Collected.step {e : Event} (h : Collected s.proc) (hf : Family s) (hs : Step s e s') :
    Collected s'.proc := by
  have hwake : ∀ t' : Table, (∀ y, (t' y).parent = (s.proc y).parent ∧ (t' y).chan = (s.proc y).chan) →
      (∀ y, (t' y).state = (s.proc y).state ∨
        (s.proc y).state = .sleeping ∧ (t' y).state = .runnable) → Collected t' := by
    intro t' hsame hst
    refine h.mono (fun y hs hc => ?_) fun z hz => ⟨?_, (hsame z).1⟩
    · obtain he | ⟨-, he⟩ := hst y
      · exact ⟨he ▸ hs, (hsame y).2 ▸ hc⟩
      · rw [hs] at he
        cases he
    · obtain he | ⟨-, he⟩ := hst z
      · exact he ▸ hz
      · rw [hz] at he
        cases he
  cases hs with
  | full _ => exact h
  | alloc _ _ _ => exact h.update nofun nofun
  | fail _ => exact h.update nofun nofun
  | @adopt p np hpc =>
      have he : (s.proc np).state = .embryo := (hf.child p np (by rw [hpc]; rfl)).2.1
      exact h.update (fun hs => by rw [show _ = ProcState.embryo from he] at hs; cases hs)
        (fun hz => by rw [show _ = ProcState.embryo from he] at hz; cases hz)
  | ready _ => exact h.update nofun nofun
  | exit hrun _ hne ht => exact h.exit hf hrun hne ht
  | reap _ _ _ _ => exact h.update nofun nofun
  | noKids _ => exact h
  | @waits p hrun _ hz =>
      intro q z hs hc hpar
      by_cases hzp : z = p
      · subst hzp
        simp [Sys.setPc, Sys.setProc, Proc.sleep]
      · simp only [Sys.setPc, Sys.setProc, Function.update_of_ne hzp] at hpar ⊢
        by_cases hqp : q = p
        · exact hz z (hqp ▸ hpar)
        · simp only [Sys.setPc, Sys.setProc, Function.update_of_ne hqp] at hs hc
          exact h q z hs hc hpar
  | sleep _ => exact h.update nofun nofun
  | wakeup => exact hwake _ (fun y => ⟨wake_parent _ _, wake_chan _ _⟩) fun y => wake_state _ _
  | kill =>
      exact hwake _ (fun y => ⟨killTable_parent .., killTable_chan ..⟩) fun y => killTable_state ..
  | fault hrun =>
      exact h.update (fun hs => by rw [show _ = ProcState.running from hrun] at hs; cases hs)
        (fun hz => by rw [show _ = ProcState.running from hrun] at hz; cases hz)
  | yield _ => exact h.update nofun nofun
  | run _ => exact h.update nofun nofun

end Collected

/-- **No process waits for a child that is already dead**, in any state of any run from boot. -/
theorem no_wait_for_zombie (es : List Event) (s : Sys) (h : runs step boot es = some s) (p z : Slot)
    (hsleep : (s.proc p).state = .sleeping) (hchan : (s.proc p).chan = .proc p)
    (hpar : (s.proc z).parent = some p) : (s.proc z).state ≠ .zombie := by
  have hboot : Collected boot.proc := by
    intro p z hs
    by_cases hp : p = 0
    · subst hp
      cases hs
    · rw [show boot.proc p = .zero from if_neg hp] at hs
      cases hs
  have hall : Family s ∧ Collected s.proc := by
    refine runs_inv_all (I := fun s => Family s ∧ Collected s.proc) ?_ ⟨family_boot, hboot⟩ h
    rintro s e s' ⟨hf, hc⟩ hstep
    exact ⟨hf.step (step_cases hstep), hc.step hf (step_cases hstep)⟩
  exact hall.2 p z hsleep hchan hpar

/-- `initproc` forks and waits for its child. -/
def forkAndWait : List Event := [.run 0, .alloc 0, .adopt 0, .ready 0, .wait 0]

theorem forkAndWait_sleeps : ∃ s, runs step boot forkAndWait = some s ∧
    (s.proc 0).state = .sleeping ∧ (s.proc 1).parent = some 0 ∧ (s.proc 1).state ≠ .zombie :=
  ⟨_, rfl, rfl, rfl, no_wait_for_zombie forkAndWait _ rfl 0 1 rfl rfl rfl⟩

/-! ### What `wait` returns -/

/-- The numbers of the processes: each slot in use has its own, and none that `wait` returned. -/
structure Numbered (s : Sys) : Prop where
  lt : ∀ x, (s.proc x).state ≠ .unused → s.id x < s.born
  inj : ∀ x y, (s.proc x).state ≠ .unused → (s.proc y).state ≠ .unused → s.id x = s.id y → x = y
  past : ∀ w ∈ s.waits, w.2 < s.born ∧ ∀ x, (s.proc x).state ≠ .unused → s.id x ≠ w.2
  nodup : (s.waits.map Prod.snd).Nodup

section Numbered
variable {s s' : Sys} {p z : Slot}

/-- A step after which the slots in use are among those before. -/
theorem Numbered.mono (h : Numbered s) (hid : s'.id = s.id) (hborn : s'.born = s.born)
    (hwaits : s'.waits = s.waits)
    (hst : ∀ x, (s'.proc x).state ≠ .unused → (s.proc x).state ≠ .unused) : Numbered s' := by
  refine ⟨fun x hx => ?_, fun x y hx hy => ?_, fun w hw => ?_, by rw [hwaits]; exact h.nodup⟩
  · rw [hid, hborn]
    exact h.lt x (hst x hx)
  · rw [hid]
    exact h.inj x y (hst x hx) (hst y hy)
  · rw [hwaits] at hw
    rw [hid, hborn]
    exact ⟨(h.past w hw).1, fun x hx => (h.past w hw).2 x (hst x hx)⟩

/-- A slot in use changes. -/
theorem Numbered.update (h : Numbered s) {w : Proc} (hid : s'.id = s.id) (hborn : s'.born = s.born)
    (hwaits : s'.waits = s.waits) (hproc : s'.proc = Function.update s.proc p w)
    (hp : (s.proc p).state ≠ .unused) : Numbered s' := by
  refine h.mono hid hborn hwaits fun x hx => ?_
  by_cases hxp : x = p
  · rwa [hxp]
  · rwa [hproc, Function.update_of_ne hxp] at hx

theorem Numbered.alloc (h : Numbered s) (z : Slot) : Numbered (s.allocproc z) := by
  have hproc : ∀ x, x ≠ z → (s.allocproc z).proc x = s.proc x := fun x hx => Function.update_of_ne hx _ _
  have hid : ∀ x, x ≠ z → (s.allocproc z).id x = s.id x := fun x hx => Function.update_of_ne hx _ _
  have hself : (s.allocproc z).id z = s.born := Function.update_self ..
  refine ⟨fun x hx => ?_, fun x y hx hy hxy => ?_, fun w hw => ⟨?_, fun x hx => ?_⟩, h.nodup⟩
  · by_cases hxz : x = z
    · rw [hxz, hself]
      exact Nat.lt_succ_self _
    · rw [hid x hxz]
      rw [hproc x hxz] at hx
      exact (h.lt x hx).trans (Nat.lt_succ_self _)
  · by_cases hxz : x = z
    · by_cases hyz : y = z
      · rw [hxz, hyz]
      · rw [hproc y hyz] at hy
        rw [hxz, hself, hid y hyz] at hxy
        exact absurd (h.lt y hy) (by omega)
    · rw [hproc x hxz] at hx
      by_cases hyz : y = z
      · rw [hyz, hself, hid x hxz] at hxy
        exact absurd (h.lt x hx) (by omega)
      · rw [hproc y hyz] at hy
        rw [hid x hxz, hid y hyz] at hxy
        exact h.inj x y hx hy hxy
  · exact (h.past w hw).1.trans (Nat.lt_succ_self _)
  · by_cases hxz : x = z
    · rw [hxz, hself]
      exact (h.past w hw).1.ne'
    · rw [hid x hxz]
      rw [hproc x hxz] at hx
      exact (h.past w hw).2 x hx

theorem Numbered.reap (h : Numbered s) (hz : (s.proc z).state = .zombie) :
    Numbered (s.reap p z) := by
  have hused : (s.proc z).state ≠ .unused := by
    rw [hz]
    exact nofun
  have hst : ∀ x, ((s.reap p z).proc x).state ≠ .unused → x ≠ z ∧ (s.proc x).state ≠ .unused := by
    intro x hx
    by_cases hxz : x = z
    · subst hxz
      simp [Sys.reap, Sys.setProc, Proc.reap] at hx
    · exact ⟨hxz, by simpa [Sys.reap, Sys.setProc, hxz] using hx⟩
  refine ⟨fun x hx => h.lt x (hst x hx).2, fun x y hx hy => h.inj x y (hst x hx).2 (hst y hy).2,
    fun w hw => ?_, ?_⟩
  · rcases List.mem_append.mp hw with hw | hw
    · exact ⟨(h.past w hw).1, fun x hx => (h.past w hw).2 x (hst x hx).2⟩
    · obtain rfl := List.mem_singleton.mp hw
      refine ⟨h.lt z hused, fun x hx heq => (hst x hx).1 ?_⟩
      exact h.inj x z (hst x hx).2 hused heq
  · show ((s.waits ++ [(p, s.id z)]).map Prod.snd).Nodup
    rw [List.map_append, List.nodup_append]
    refine ⟨h.nodup, List.nodup_singleton _, ?_⟩
    rintro n hn m hm rfl
    obtain ⟨w, hw, rfl⟩ := List.mem_map.mp hn
    exact (h.past w hw).2 z hused (List.mem_singleton.mp hm).symm

theorem used_of_wake {st st' : ProcState} (h : st' = st ∨ st = .sleeping ∧ st' = .runnable) (hne : st' ≠ .unused) :
    st ≠ .unused := by
  rcases h with rfl | ⟨rfl, -⟩
  · exact hne
  · exact nofun

theorem Family.child_used (hf : Family s) {np : Slot} (hc : (s.pc p).child = some np) :
    (s.proc np).state ≠ .unused := by
  rw [(hf.child p np hc).2.1]
  exact nofun

theorem Numbered.step {e : Event} (h : Numbered s) (hf : Family s) (hs : Step s e s') :
    Numbered s' := by
  cases hs with
  | full _ => exact h
  | @alloc _ np _ _ _ => exact (h.alloc np).mono rfl rfl rfl fun _ hx => hx
  | fail hpc => exact h.update rfl rfl rfl rfl (hf.child_used (by rw [hpc]; rfl))
  | adopt hpc => exact h.update rfl rfl rfl rfl (hf.child_used (by rw [hpc]; rfl))
  | ready hpc => exact h.update rfl rfl rfl rfl (hf.child_used (by rw [hpc]; rfl))
  | @exit p t hrun _ _ ht =>
      refine h.mono rfl rfl rfl fun x hx => ?_
      by_cases hxp : x = p
      · rw [hxp, hrun]
        exact nofun
      · exact used_of_wake (ht.other x hxp).state hx
  | reap _ _ _ hz => exact h.reap hz
  | noKids _ => exact h.mono rfl rfl rfl fun _ hx => hx
  | waits hrun _ _ => exact h.update rfl rfl rfl rfl (by rw [hrun]; exact nofun)
  | sleep hrun => exact h.update rfl rfl rfl rfl (by rw [hrun]; exact nofun)
  | wakeup => exact h.mono rfl rfl rfl fun x => used_of_wake (wake_state _ _)
  | kill => exact h.mono rfl rfl rfl fun x => used_of_wake (killTable_state ..)
  | fault hrun => exact h.update rfl rfl rfl rfl (by rw [hrun]; exact nofun)
  | yield hrun => exact h.update rfl rfl rfl rfl (by rw [hrun]; exact nofun)
  | run hrun => exact h.update rfl rfl rfl rfl (by rw [hrun]; exact nofun)

theorem numbered_boot : Numbered boot := by
  have h0 : ∀ x, (boot.proc x).state ≠ .unused → x = 0 := by
    intro x hx
    by_contra hne
    exact hx (by rw [show boot.proc x = .zero from if_neg hne]; rfl)
  refine ⟨fun _ _ => Nat.one_pos, fun x y hx hy _ => (h0 x hx).trans (h0 y hy).symm, nofun,
    List.nodup_nil⟩

end Numbered

/-- What `wait` returns is a zombie child of its caller. -/
theorem waits_step {s s' : Sys} {e : Event} (h : step s e = some s') :
    s'.waits = s.waits ∨ ∃ p z, e = .wait p ∧ (s.proc z).parent = some p ∧
      (s.proc z).state = .zombie ∧ s'.waits = s.waits ++ [(p, s.id z)] := by
  cases step_cases h with
  | reap _ _ hpar hz => exact .inr ⟨_, _, rfl, hpar, hz, rfl⟩
  | _ => exact .inl rfl

/-- **The process family is a tree, and every exit is collected once**, in every state of every run
from boot. -/
theorem family_run (es : List Event) (s : Sys) (h : runs step boot es = some s) :
    (∀ x, Live (s.proc x).state ∨ (s.proc x).state = .zombie → x ≠ s.initproc →
      ∃ q, (s.proc x).parent = some q ∧ (s.proc q).state ≠ .unused ∧ (s.proc q).state ≠ .zombie) ∧
    (∀ x, Live (s.proc x).state ∨ (s.proc x).state = .zombie → Reaches s.proc s.initproc x) ∧
    (∀ x, (s.proc x).state = .unused → (s.proc x).parent = none) ∧
    (s.waits.map Prod.snd).Nodup ∧
    ∀ e s', step s e = some s' → s'.waits = s.waits ∨ ∃ p z, e = .wait p ∧
      (s.proc z).parent = some p ∧ (s.proc z).state = .zombie ∧ s'.waits = s.waits ++ [(p, s.id z)] := by
  have hall : Family s ∧ Numbered s := by
    refine runs_inv_all (I := fun s => Family s ∧ Numbered s) ?_ ⟨family_boot, numbered_boot⟩ h
    rintro s e s' ⟨hf, hn⟩ hstep
    exact ⟨hf.step (step_cases hstep), hn.step hf (step_cases hstep)⟩
  obtain ⟨hf, hn⟩ := hall
  refine ⟨fun x hx hne => ?_, hf.reach, hf.unused, hn.nodup, fun e s' hs => waits_step hs⟩
  obtain ⟨q, hq⟩ := Option.ne_none_iff_exists'.mp (hf.kin x hx hne)
  exact ⟨q, hq, (hf.parent x q hq).ne_unused, (hf.parent x q hq).ne_zombie⟩

theorem forkAndWait_family : ∃ s, runs step boot forkAndWait = some s ∧
    (s.proc 1).state = .runnable ∧ Reaches s.proc s.initproc 1 :=
  ⟨_, rfl, rfl, (family_run forkAndWait _ rfl).2.1 1 (.inl live_runnable)⟩

end Xv6.Life
