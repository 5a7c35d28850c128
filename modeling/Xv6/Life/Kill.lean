import Xv6.Life.Family

/-!
# Life — `kill`

`kill` looks for its pid in every slot, also in those that are `UNUSED`: they have pid 0, or the pid
of a process that `allocproc` or `fork` could not make.  It then sets `killed` in a slot without a
process, and since nothing but `wait` clears `killed`, the next process in that slot is born killed
(`kill_zero`).  The same happens when an embryo is killed and its `fork` fails.  `kill_exact_iff` says
when a call hits what it should, and `kill_exact` that in runs without those two cases no process is
born killed that was not killed by its own pid.
-/

namespace Xv6.Life
open Lib
open Sched (Slot Table Proc ProcState Chan firstUnused nproc)

/-- `kill(pid)` returns 0 if and only if a slot in use has the pid, and what it changes is such a
slot. -/
structure KillExact (t : Table) (pid : Int32) : Prop where
  ret : killRet t pid = 0 ↔ ∃ x, (t x).state ≠ .unused ∧ (t x).pid = pid
  slot : ∀ x, killSlot t pid = some x → (t x).state ≠ .unused ∧ (t x).pid = pid
  table : killTable t pid = t ∨
    ∃ x, killSlot t pid = some x ∧ killTable t pid = Function.update t x (t x).kill

/-- The step does not kill a slot without a process, nor give back a killed one. -/
def KillsProcesses (s : Sys) : Event → Prop
  | .kill pid => ∀ x, killSlot s.proc pid = some x → (s.proc x).state ≠ .unused
  | .fail p => ∀ np, s.pc p = .fork np → (s.proc np).killed = false
  | _ => True

/-- A free slot is not killed, and an embryo only by its own pid. -/
structure Unhurt (s : Sys) : Prop where
  unused : ∀ x, (s.proc x).state = .unused → (s.proc x).killed = false
  embryo : ∀ x, (s.proc x).state = .embryo → (s.proc x).killed = true → s.called x = true

section Parts
variable {s s' : Sys} {t : Table} {pid : Int32} {p : Slot}

theorem killExact_iff : KillExact t pid ↔ ∀ x, killSlot t pid = some x → (t x).state ≠ .unused := by
  refine ⟨fun h x hx => (h.slot x hx).1, fun h => ⟨?_, fun x hx => ⟨h x hx, killSlot_eq_some hx⟩, ?_⟩⟩
  · unfold killRet
    cases hx : killSlot t pid with
    | none =>
        refine ⟨fun h0 => absurd h0 (by decide), ?_⟩
        rintro ⟨x, -, hpid⟩
        exact absurd hpid (killSlot_eq_none.mp hx x)
    | some x => exact ⟨fun _ => ⟨x, h x hx, killSlot_eq_some hx⟩, fun _ => rfl⟩
  · unfold killTable
    cases hx : killSlot t pid with
    | none => exact .inl rfl
    | some x => exact .inr ⟨x, rfl, rfl⟩

/-- One slot changes, and `called` as it may. -/
theorem Unhurt.update {w : Proc} (h : Unhurt s) (hproc : s'.proc = Function.update s.proc p w)
    (hcalled : ∀ x ≠ p, s'.called x = s.called x)
    (hunused : w.state = .unused → w.killed = false)
    (hembryo : w.state = .embryo → w.killed = true → s'.called p = true) : Unhurt s' := by
  refine ⟨fun x hx => ?_, fun x hx hk => ?_⟩
  · by_cases hxp : x = p
    · subst hxp
      rw [hproc, Function.update_self] at hx ⊢
      exact hunused hx
    · rw [hproc, Function.update_of_ne hxp] at hx ⊢
      exact h.unused x hx
  · by_cases hxp : x = p
    · subst hxp
      rw [hproc, Function.update_self] at hx hk
      exact hembryo hx hk
    · rw [hproc, Function.update_of_ne hxp] at hx hk
      rw [hcalled x hxp]
      exact h.embryo x hx hk

/-- No slot changes that is free or an embryo, except by being killed. -/
theorem Unhurt.mono (h : Unhurt s) (hcalled : s'.called = s.called)
    (hst : ∀ x st, st = .unused ∨ st = .embryo → (s'.proc x).state = st →
      (s.proc x).state = st ∧ (s'.proc x).killed = (s.proc x).killed) : Unhurt s' := by
  refine ⟨fun x hx => ?_, fun x hx hk => ?_⟩
  · obtain ⟨hx', hk⟩ := hst x _ (.inl rfl) hx
    rw [hk]
    exact h.unused x hx'
  · obtain ⟨hx', hk'⟩ := hst x _ (.inr rfl) hx
    rw [hcalled]
    exact h.embryo x hx' (hk' ▸ hk)

theorem Unhurt.kill (h : Unhurt s)
    (hok : ∀ x, killSlot s.proc pid = some x → (s.proc x).state ≠ .unused) :
    Unhurt { s with
      proc := killTable s.proc pid
      called := fun x => s.called x || decide ((s.proc x).pid = pid) } := by
  have hst : ∀ x st, st = .unused ∨ st = .embryo → (killTable s.proc pid x).state = st →
      (s.proc x).state = st := by
    intro x st hst hx
    obtain he | ⟨-, he⟩ := killTable_state s.proc pid x
    · rw [← he, hx]
    · rw [hx] at he
      subst he
      simp at hst
  refine ⟨fun x hx => ?_, fun x hx hk => ?_⟩
  · have hx' := hst x _ (.inl rfl) hx
    show (killTable s.proc pid x).killed = false
    rw [killTable_apply, if_neg fun hs => hok x hs hx']
    exact h.unused x hx'
  · have hx' := hst x _ (.inr rfl) hx
    show (s.called x || decide ((s.proc x).pid = pid)) = true
    by_cases hs : killSlot s.proc pid = some x
    · simp [killSlot_eq_some hs]
    · have hk' : (killTable s.proc pid x).killed = true := hk
      rw [killTable_apply, if_neg hs] at hk'
      simp [h.embryo x hx' hk']

theorem Unhurt.step {e : Event} (h : Unhurt s) (hf : Family s) (hok : KillsProcesses s e)
    (hs : Step s e s') : Unhurt s' := by
  have hlive : ∀ {st : ProcState}, Live st → st = .unused ∨ st = .embryo → False := by
    rintro st hl (rfl | rfl)
    · exact hl.ne_unused rfl
    · exact hl.ne_embryo rfl
  cases hs with
  | full _ => exact h
  | @alloc p np _ _ hnp =>
      have hk := h.unused np hnp
      refine h.update rfl (fun x hx => Function.update_of_ne hx _ _) nofun fun _ hk' => ?_
      rw [show ((s.proc np).alloc s.nextpid).killed = false from hk] at hk'
      cases hk'
  | fail hpc => exact h.update rfl (fun _ _ => rfl) (fun _ => hok _ hpc) nofun
  | @adopt p np hpc =>
      have he := (hf.child p np (by rw [hpc]; rfl)).2.1
      refine h.update rfl (fun _ _ => rfl) (fun hu => ?_) fun _ hk => h.embryo np he hk
      rw [show _ = ProcState.embryo from he] at hu
      cases hu
  | ready _ => exact h.update rfl (fun _ _ => rfl) nofun nofun
  | @exit p t hrun _ _ ht =>
      refine h.mono rfl fun x st hst hx => ?_
      by_cases hxp : x = p
      · subst hxp
        rw [show (t x).state = .zombie from ht.zombie] at hx
        subst hx
        simp at hst
      · have hpass := ht.other x hxp
        refine ⟨(hpass.state_iff ?_ ?_).mp hx, hpass.killed⟩
        · rintro rfl
          simp at hst
        · rintro rfl
          simp at hst
  | reap _ _ _ _ => exact h.update rfl (fun _ _ => rfl) (fun _ => rfl) nofun
  | noKids _ => exact h.mono rfl fun _ _ _ hx => ⟨hx, rfl⟩
  | waits _ _ _ => exact h.update rfl (fun _ _ => rfl) nofun nofun
  | sleep _ => exact h.update rfl (fun _ _ => rfl) nofun nofun
  | @wakeup chan =>
      refine h.mono rfl fun x st hst hx => ⟨?_, wake_killed _ _⟩
      refine ((passed_wake (s.proc x) chan).state_iff ?_ ?_).mp hx
      · rintro rfl
        simp at hst
      · rintro rfl
        simp at hst
  | kill => exact h.kill hok
  | fault hrun =>
      refine h.update rfl (fun _ _ => rfl) (fun hu => ?_) fun he => ?_
      · rw [show _ = ProcState.running from hrun] at hu
        cases hu
      · rw [show _ = ProcState.running from hrun] at he
        cases he
  | yield _ => exact h.update rfl (fun _ _ => rfl) nofun nofun
  | run _ => exact h.update rfl (fun _ _ => rfl) nofun nofun

theorem unhurt_boot : Unhurt boot := by
  have hk : ∀ x, (boot.proc x).killed = false := by
    intro x
    by_cases hx : x = 0
    · subst hx
      rfl
    · rw [show boot.proc x = .zero from if_neg hx]
      rfl
  refine ⟨fun x _ => hk x, fun x _ hx => ?_⟩
  rw [hk] at hx
  cases hx

end Parts

/-- **When `kill` hits exactly its target**: a call does, if and only if the first slot with the pid is
in use; and in a run whose steps kill no slot without a process and give none back that was killed, a
child that `fork` is about to make `RUNNABLE` is killed only if `kill` was called with its pid. -/
theorem kill_exact (t : Table) (pid : Int32) (es : List Event) (s : Sys) :
    (KillExact t pid ↔ ∀ x, killSlot t pid = some x → (t x).state ≠ .unused) ∧
    (runs step boot es = some s → Meets step KillsProcesses boot es →
      ∀ p np, s.pc p = .forked np → (s.proc np).killed = true → s.called np = true) := by
  refine ⟨killExact_iff, fun h hok p np hpc hk => ?_⟩
  have hall : Family s ∧ Unhurt s := by
    refine runs_inv_meets (I := fun s => Family s ∧ Unhurt s) ?_ ⟨family_boot, unhurt_boot⟩ hok h
    rintro s e s' ⟨hf, hu⟩ he hstep
    exact ⟨hf.step (step_cases hstep), hu.step hf he (step_cases hstep)⟩
  exact hall.2.embryo np (hall.1.child p np (by rw [hpc]; rfl)).2.1 hk

/-- A child is killed by its own pid before it is `RUNNABLE`. -/
def killEmbryo : List Event := [.run 0, .alloc 0, .adopt 0, .kill 2]

theorem killed_by_own_pid : ∃ s, runs step boot killEmbryo = some s ∧ s.pc 0 = .forked 1 ∧
    (s.proc 1).killed = true ∧ s.called 1 = true := by
  refine ⟨_, rfl, rfl, rfl, (kill_exact boot.proc 2 killEmbryo _).2 rfl ?_ 0 1 rfl rfl⟩
  refine meets_cons.mpr ⟨trivial, ?_⟩
  rintro _ ⟨⟩
  refine meets_cons.mpr ⟨trivial, ?_⟩
  rintro _ ⟨⟩
  refine meets_cons.mpr ⟨trivial, ?_⟩
  rintro _ ⟨⟩
  refine meets_cons.mpr ⟨fun x hx => ?_, fun _ _ => meets_nil⟩
  obtain rfl : x = 1 := Option.some.inj (hx.symm.trans rfl)
  exact nofun

/-- `kill(0)` returns 0 though no process has pid 0; the next process is born killed. -/
theorem kill_zero :
    killRet boot.proc 0 = 0 ∧ (∀ x, (boot.proc x).state ≠ .unused → (boot.proc x).pid ≠ 0) ∧
    ∃ s, runs step boot [.kill 0, .run 0, .alloc 0, .adopt 0] = some s ∧
      s.pc 0 = .forked 1 ∧ (s.proc 1).killed = true ∧ s.called 1 = false := by
  refine ⟨rfl, fun x hx => ?_, _, rfl, rfl, rfl, rfl⟩
  by_cases h0 : x = 0
  · subst h0
    decide
  · exact absurd (by rw [show boot.proc x = .zero from if_neg h0]; rfl) hx

end Xv6.Life
