import Xv6.Life.Family

/-!
# Life — process ids

`allocproc` takes pids from the counter `nextpid` and does not look for them in the table.  So a pid is
the number of its process, counted from 1, as an `int` (`Counted`).  Up to `2^31 - 1` processes the
pids are positive and their own (`pids_identify`).  The counter goes on to negative pids, and then to
those that old processes still have: `initproc` has pid 1 all along, and the process after the
`2^32 - 1` that follow it gets pid 1 again (`pid_again`).
-/

namespace Xv6.Life
open Lib
open Sched (Slot Table Proc ProcState Chan firstUnused nproc)

/-- What `fork` returns to the parent, once the child has its parent. -/
def forkRet (s : Sys) (p : Slot) : Option Int32 :=
  match s.pc p with
  | .forked np => some (s.proc np).pid
  | _ => none

/-- The pid of a process is its number, and the next pid the number of the next process. -/
structure Counted (s : Sys) : Prop where
  next : s.nextpid = Int32.ofNat (s.born + 1)
  pid : ∀ x, (s.proc x).state ≠ .unused → (s.proc x).pid = Int32.ofNat (s.id x + 1)

section Counted
variable {s s' : Sys} {p : Slot}

/-- A step after which the slots in use are among those before, with their pids. -/
theorem Counted.mono (h : Counted s) (hnext : s'.nextpid = s.nextpid) (hid : s'.id = s.id)
    (hborn : s'.born = s.born) (hst : ∀ x, (s'.proc x).state ≠ .unused →
      (s.proc x).state ≠ .unused ∧ (s'.proc x).pid = (s.proc x).pid) : Counted s' := by
  refine ⟨by rw [hnext, hborn]; exact h.next, fun x hx => ?_⟩
  obtain ⟨hx, hpid⟩ := hst x hx
  rw [hpid, hid]
  exact h.pid x hx

/-- A slot in use changes and keeps its pid, or is freed. -/
theorem Counted.update (h : Counted s) {w : Proc} (hnext : s'.nextpid = s.nextpid)
    (hid : s'.id = s.id) (hborn : s'.born = s.born) (hproc : s'.proc = Function.update s.proc p w)
    (hp : (s.proc p).state ≠ .unused) (hw : w.state ≠ .unused → w.pid = (s.proc p).pid) :
    Counted s' := by
  refine h.mono hnext hid hborn fun x hx => ?_
  rw [hproc] at hx ⊢
  by_cases hxp : x = p
  · subst hxp
    rw [Function.update_self] at hx ⊢
    exact ⟨hp, hw hx⟩
  · rw [Function.update_of_ne hxp] at hx ⊢
    exact ⟨hx, rfl⟩

theorem Counted.alloc (h : Counted s) (z : Slot) : Counted (s.allocproc z) := by
  refine ⟨?_, fun x hx => ?_⟩
  · show s.nextpid + 1 = _
    rw [h.next]
    exact (Int32.ofNat_add _ 1).symm
  · by_cases hxz : x = z
    · subst hxz
      have hpid : ((s.allocproc x).proc x).pid = s.nextpid := by
        simp [Sys.allocproc, Sys.setProc, Proc.alloc]
      have hid : (s.allocproc x).id x = s.born := Function.update_self ..
      rw [hpid, hid]
      exact h.next
    · have hproc : (s.allocproc z).proc x = s.proc x := Function.update_of_ne hxz _ _
      have hid : (s.allocproc z).id x = s.id x := Function.update_of_ne hxz _ _
      rw [hproc] at hx
      rw [hproc, hid]
      exact h.pid x hx

theorem Counted.step {e : Event} (h : Counted s) (hf : Family s) (hs : Step s e s') : Counted s' := by
  cases hs with
  | full _ => exact h
  | @alloc _ np _ _ _ => exact (h.alloc np).mono rfl rfl rfl fun _ hx => ⟨hx, rfl⟩
  | fail hpc => exact h.update rfl rfl rfl rfl (hf.child_used (by rw [hpc]; rfl)) fun _ => rfl
  | adopt hpc => exact h.update rfl rfl rfl rfl (hf.child_used (by rw [hpc]; rfl)) fun _ => rfl
  | ready hpc => exact h.update rfl rfl rfl rfl (hf.child_used (by rw [hpc]; rfl)) fun _ => rfl
  | @exit p t hrun _ _ ht =>
      refine h.mono rfl rfl rfl fun x hx => ?_
      by_cases hxp : x = p
      · subst hxp
        exact ⟨by rw [hrun]; exact nofun, ht.self.pid⟩
      · exact ⟨used_of_wake (ht.other x hxp).state hx, (ht.other x hxp).pid⟩
  | reap _ _ _ hz => exact h.update rfl rfl rfl rfl (by rw [hz]; exact nofun) fun hw => absurd rfl hw
  | noKids _ => exact h.mono rfl rfl rfl fun _ hx => ⟨hx, rfl⟩
  | waits hrun _ _ => exact h.update rfl rfl rfl rfl (by rw [hrun]; exact nofun) fun _ => rfl
  | sleep hrun => exact h.update rfl rfl rfl rfl (by rw [hrun]; exact nofun) fun _ => rfl
  | @wakeup chan =>
      exact h.mono rfl rfl rfl fun x hx => ⟨used_of_wake (wake_state _ _) hx, (passed_wake _ chan).pid⟩
  | @kill pid =>
      refine h.mono rfl rfl rfl fun x hx => ⟨used_of_wake (killTable_state ..) hx, ?_⟩
      show (killTable s.proc pid x).pid = _
      rw [killTable_apply]
      split <;> rfl
  | fault hrun => exact h.update rfl rfl rfl rfl (by rw [hrun]; exact nofun) fun _ => rfl
  | yield hrun => exact h.update rfl rfl rfl rfl (by rw [hrun]; exact nofun) fun _ => rfl
  | run hrun => exact h.update rfl rfl rfl rfl (by rw [hrun]; exact nofun) fun _ => rfl

theorem counted_boot : Counted boot := by
  refine ⟨rfl, fun x hx => ?_⟩
  by_cases h0 : x = 0
  · subst h0
    rfl
  · exact absurd (by rw [show boot.proc x = .zero from if_neg h0]; rfl) hx

/-- Numbers that are pids of their own. -/
theorem ofNat_lt_inj {m n : Nat} (hm : m < 2 ^ 31) (hn : n < 2 ^ 31)
    (h : Int32.ofNat m = Int32.ofNat n) : m = n := by
  have := congrArg Int32.toInt h
  rw [Int32.toInt_ofNat_of_lt hm, Int32.toInt_ofNat_of_lt hn] at this
  exact_mod_cast this

end Counted

/-- **Process ids.**  As long as no more than `2^31 - 1` processes were allocated since boot, no two
slots in use have the same pid, and what a `fork` returns to the parent is positive and not the pid of
any slot in use but the child's. -/
theorem pids_identify (es : List Event) (s : Sys) (h : runs step boot es = some s)
    (hfew : s.born < 2 ^ 31) :
    (∀ x y, (s.proc x).state ≠ .unused → (s.proc y).state ≠ .unused →
      (s.proc x).pid = (s.proc y).pid → x = y) ∧
    ∀ p pid, forkRet s p = some pid → 0 < pid ∧
      ∀ x, (s.proc x).state ≠ .unused → s.pc p ≠ .forked x → (s.proc x).pid ≠ pid := by
  have hall : Family s ∧ Numbered s ∧ Counted s := by
    refine runs_inv_all (I := fun s => Family s ∧ Numbered s ∧ Counted s) ?_
      ⟨family_boot, numbered_boot, counted_boot⟩ h
    rintro s e s' ⟨hf, hn, hc⟩ hstep
    exact ⟨hf.step (step_cases hstep), hn.step hf (step_cases hstep), hc.step hf (step_cases hstep)⟩
  obtain ⟨hf, hn, hc⟩ := hall
  have hlt : ∀ x, (s.proc x).state ≠ .unused → s.id x + 1 < 2 ^ 31 := fun x hx =>
    (Nat.succ_le_of_lt (hn.lt x hx)).trans_lt hfew
  have hinj : ∀ x y, (s.proc x).state ≠ .unused → (s.proc y).state ≠ .unused →
      (s.proc x).pid = (s.proc y).pid → x = y := by
    intro x y hx hy hpid
    rw [hc.pid x hx, hc.pid y hy] at hpid
    exact hn.inj x y hx hy (Nat.succ.inj (ofNat_lt_inj (hlt x hx) (hlt y hy) hpid))
  refine ⟨hinj, fun p pid hret => ?_⟩
  unfold forkRet at hret
  split at hret
  · rename_i np hpc
    cases hret
    have hnp : (s.proc np).state ≠ .unused := by
      rw [(hf.child p np (by rw [hpc]; rfl)).2.1]
      exact nofun
    refine ⟨?_, fun x hx hne hpid => hne ?_⟩
    · rw [hc.pid np hnp, Int32.lt_iff_toInt_lt, Int32.toInt_ofNat_of_lt (hlt np hnp)]
      exact Int.natCast_pos.mpr (Nat.succ_pos _)
    · rw [hinj x np hx hnp hpid]
      exact hpc
  · cases hret

/-- `initproc` makes a child; its pid is 2. -/
theorem forked_pid : ∃ s, runs step boot [.run 0, .alloc 0, .adopt 0] = some s ∧
    forkRet s 0 = some 2 ∧ (0 : Int32) < 2 :=
  ⟨_, rfl, rfl, ((pids_identify [.run 0, .alloc 0, .adopt 0] _ rfl (by decide)).2 0 2 rfl).1⟩

/-! ### The counter wraps -/

/-- `n` calls of `fork` by `initproc` that find no memory. -/
def failedForks : Nat → List Event
  | 0 => []
  | n + 1 => .alloc 0 :: .fail 0 :: failedForks n

section Wrap
variable {s : Sys}

/-- `initproc` calls `fork`, which finds the second slot. -/
theorem step_alloc (hrun : (s.proc 0).state = .running) (hpc : s.pc 0 = .user)
    (hfirst : firstUnused s.proc = some 1) : ∃ s', step s (.alloc 0) = some s' ∧
      s'.proc = Function.update s.proc 1 ((s.proc 1).alloc s.nextpid) ∧ s'.pc 0 = .fork 1 ∧
      s'.nextpid = s.nextpid + 1 := by
  refine ⟨(s.allocproc 1).setPc 0 (.fork 1), ?_, rfl, ?_, rfl⟩
  · simp [step, hrun, hpc, hfirst]
  · simp [Sys.setPc]

/-- They cost `n` pids and nothing else. -/
theorem runs_failedForks (n : Nat) (hrun : (s.proc 0).state = .running)
    (hpc : s.pc 0 = .user) (hfirst : firstUnused s.proc = some 1) :
    ∃ s', runs step s (failedForks n) = some s' ∧ s'.proc 0 = s.proc 0 ∧ s'.pc 0 = .user ∧
      firstUnused s'.proc = some 1 ∧ s'.nextpid = s.nextpid + Int32.ofNat n := by
  induction n generalizing s with
  | zero => exact ⟨s, rfl, rfl, hpc, hfirst, by simp⟩
  | succ n ih =>
      obtain ⟨s₁, h₁, hproc₁, hpc₁, hnext₁⟩ := step_alloc hrun hpc hfirst
      have h0 : s₁.proc 0 = s.proc 0 := by
        rw [hproc₁]
        exact Function.update_of_ne (by decide : (0 : Slot) ≠ 1) _ _
      have h₂ : step s₁ (.fail 0) = some ((s₁.setProc 1 (·.unalloc)).setPc 0 .user) := by
        simp [step, hpc₁, h0, hrun]
      have hslot : (s₁.setProc 1 (·.unalloc)).proc 0 = s.proc 0 := by
        have h01 : (0 : Slot) ≠ 1 := by decide
        simp [Sys.setProc, h01, h0]
      -- the slot is free again
      have hstate : ∀ x, ((s₁.setProc 1 (·.unalloc)).proc x).state = (s.proc x).state := by
        intro x
        by_cases hx : x = 1
        · subst hx
          rw [firstUnused_eq_some hfirst]
          simp [Sys.setProc, Proc.unalloc]
        · simp [Sys.setProc, hproc₁, hx]
      have hfirst' : firstUnused (s₁.setProc 1 (·.unalloc)).proc = some 1 := by
        rw [← hfirst, firstUnused, firstUnused]
        congr 1
        funext x
        rw [hstate]
      obtain ⟨s', hs', hproc, hpc', hfirst'', hnext⟩ :=
        ih (s := (s₁.setProc 1 (·.unalloc)).setPc 0 .user)
          (hslot ▸ hrun) (by simp [Sys.setPc]) hfirst'
      refine ⟨s', runs_cons.mpr ⟨_, h₁, runs_cons.mpr ⟨_, h₂, hs'⟩⟩, hproc.trans hslot, hpc', hfirst'',
        hnext.trans ?_⟩
      show s₁.nextpid + Int32.ofNat n = _
      rw [hnext₁, Int32.add_assoc, Nat.add_comm n 1, Int32.ofNat_add]
      rfl

end Wrap

/-- After `2^32 - 1` forks that fail, the next one returns the pid of `initproc`. -/
theorem pid_again : ∃ es s, runs step boot es = some s ∧ forkRet s 0 = some 1 ∧
    (s.proc 0).state ≠ .unused ∧ (s.proc 1).state ≠ .unused ∧ (s.proc 0).pid = 1 ∧
    (s.proc 1).pid = 1 := by
  have hstart : ∃ s, runs step boot [.run 0] = some s ∧ (s.proc 0).state = .running ∧
      (s.proc 0).pid = 1 ∧ s.pc 0 = .user ∧ firstUnused s.proc = some 1 ∧ s.nextpid = 2 :=
    ⟨_, rfl, rfl, rfl, rfl, rfl, rfl⟩
  obtain ⟨s₁, h₁, hrun, hpid, hpc, hfirst, hnext⟩ := hstart
  obtain ⟨s₂, h₂, hproc₂, hpc₂, hfirst₂, hnext₂⟩ := runs_failedForks (2 ^ 32 - 1) hrun hpc hfirst
  have hone : s₂.nextpid = 1 := by
    rw [hnext₂, hnext]
    rfl
  obtain ⟨s₃, h₃, hproc₃, hpc₃, -⟩ := step_alloc (by rw [hproc₂, hrun]) hpc₂ hfirst₂
  have h0 : s₃.proc 0 = s₁.proc 0 := by
    rw [hproc₃, ← hproc₂]
    exact Function.update_of_ne (by decide : (0 : Slot) ≠ 1) _ _
  have h₄ : step s₃ (.adopt 0) =
      some ((s₃.setProc 1 ({ · with parent := some 0 })).setPc 0 (.forked 1)) := by
    simp [step, hpc₃, h0, hrun]
  refine ⟨[.run 0] ++ (failedForks (2 ^ 32 - 1) ++ [.alloc 0, .adopt 0]), _, runs_append.mpr
    ⟨s₁, h₁, runs_append.mpr ⟨s₂, h₂, runs_cons.mpr ⟨_, h₃, runs_cons.mpr ⟨_, h₄, rfl⟩⟩⟩⟩, ?_⟩
  have h01 : (0 : Slot) ≠ 1 := by decide
  simp [forkRet, Sys.setPc, Sys.setProc, Proc.alloc, hproc₃, h01, hone, hproc₂, hrun, hpid]

end Xv6.Life
