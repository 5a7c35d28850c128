import Xv6.Pipe.Machine

/-!
# Pipe — wakeups

A process sleeps on `&p->nread` while the pipe is empty and its write end open, and on `&p->nwrite`
while it is full and its read end open (`Calm`).  Whoever ends that state has the lock and owes a
`wakeup` before giving it back (`Pc.owes`).  There is one exit that does not pay: `pipewrite`, after
storing bytes, finds the pipe full and returns `-1` because its process is killed or the read end
is closed.  If a reader sleeps then, it is not woken (`killed_writer_forgets_reader`).  In all runs
without that exit at such a moment no wakeup is lost (`no_lost_wakeup`).
-/

namespace Xv6.Pipe
open Lib

variable {P : Type} [DecidableEq P]

/-- `SLEEPING` on the channel, or on the way there with `ptable.lock`. -/
def Pc.waits (chan : Chan) : Pc → Prop
  | .sleeping c | .asleep c => c.chan = some chan
  | _ => False

/-- The state in which processes sleep on the channel. -/
def Sys.Calm (s : Sys P) : Chan → Prop
  | .nread => s.ring.nread = s.ring.nwrite ∧ s.writeopen = true
  | .nwrite => s.ring.nwrite = s.ring.nread + 512 ∧ s.readopen = true

/-- The process will call `wakeup` on the channel before it releases the lock. -/
def Pc.owes (chan : Chan) : Pc → Prop
  | .body (.write _ _) | .wakeFull _ _ => chan = .nread
  | .copy _ _ => chan = .nwrite
  | .wakeEnd chan' _ => chan = chan'
  | _ => False

/-- What the process has seen since it has the lock. -/
def Sys.Seen (s : Sys P) : Pc → Prop
  | .wakeFull _ _ => s.Calm .nwrite
  | .sleep c => ∀ chan, c.chan = some chan → s.Calm chan
  | _ => True

structure Heard (s : Sys P) : Prop where
  wake : ∀ chan q, (s.pc q).waits chan → s.Calm chan ∨ ∃ h, s.lock = some h ∧ (s.pc h).owes chan
  seen : ∀ p, s.Seen (s.pc p)

/-- The step is not the early return of a `pipewrite` while a reader sleeps. -/
def NoEarlyReturn (s : Sys P) : Event P → Prop
  | .step p => ∀ src i, s.pc p = .body (.write src i) → i < src.length →
      s.ring.nwrite = s.ring.nread + 512 → (s.readopen = false ∨ s.killed p = true) →
      ∀ q, ¬ (s.pc q).waits .nread
  | _ => True

section Parts
variable {s s' : Sys P} {p : P} {chan : Chan}

omit [DecidableEq P] in
theorem Sys.seen_of_not_holds {pc : Pc} (h : pc.holds ≠ true) : s.Seen pc := by
  cases pc <;> trivial

omit [DecidableEq P] in
/-- Of the process with the lock: what it does not owe is calm. -/
theorem Heard.calm (h : Heard s) (hlock : s.lock = some p) (howes : ¬ (s.pc p).owes chan) {q : P}
    (hq : (s.pc q).waits chan) : s.Calm chan := by
  obtain hcalm | ⟨p', hp', howes'⟩ := h.wake chan q hq
  · exact hcalm
  · rw [hlock] at hp'
    cases hp'
    exact absurd howes' howes

omit [DecidableEq P] in
theorem Pc.waits_of_wake {pc : Pc} {chan' : Chan} (h : (pc.wake chan').waits chan) :
    pc.waits chan := by
  cases pc with
  | asleep c =>
      simp only [Pc.wake] at h
      split at h
      · cases h
      · exact h
  | _ => exact h

omit [DecidableEq P] in
/-- After a `wakeup` with `ptable.lock` nobody waits. -/
theorem Pc.not_waits_wake {pc : Pc} (hpt : pc.enters ≠ true) : ¬ (pc.wake chan).waits chan := by
  intro h
  cases pc with
  | asleep c =>
      simp only [Pc.wake] at h
      split at h
      · exact h
      · rename_i hne
        exact hne h
  | sleeping c => exact hpt rfl
  | _ => exact h

omit [DecidableEq P] in
/-- A step of the process with the lock that leaves the others where they are. -/
theorem Heard.of_held (hl : Locks s') (hlock : s'.lock = some p)
    (hwake : ∀ chan, ∀ q ≠ p, (s'.pc q).waits chan → s'.Calm chan ∨ (s'.pc p).owes chan)
    (hseen : s'.Seen (s'.pc p)) : Heard s' := by
  have hp := (hl.lock p).mpr hlock
  refine ⟨fun chan q hq => ?_, fun q => ?_⟩
  · have hne : q ≠ p := by
      rintro rfl
      revert hp hq
      cases s'.pc q <;> simp [Pc.holds, Pc.waits]
    exact (hwake chan q hne hq).imp_right fun howes => ⟨p, hlock, howes⟩
  · by_cases hq : (s'.pc q).holds = true
    · rw [hl.eq_of_holds hq hp]
      exact hseen
    · exact Sys.seen_of_not_holds hq

omit [DecidableEq P] in
theorem Heard.of_free (hl : Locks s') (hlock : s'.lock = none)
    (hwake : ∀ chan q, (s'.pc q).waits chan → s'.Calm chan) : Heard s' := by
  refine ⟨fun chan q hq => .inl (hwake chan q hq), fun q => Sys.seen_of_not_holds fun hq => ?_⟩
  rw [(hl.lock q).mp hq] at hlock
  cases hlock

omit [DecidableEq P] in
/-- What a process without the lock does, if it does not begin to wait. -/
theorem Heard.of_same (hl : Locks s) (h : Heard s) (hlock : s'.lock = s.lock)
    (hcalm : ∀ chan, s'.Calm chan ↔ s.Calm chan) (hl' : Locks s')
    (hpc : ∀ q, (s.pc q).holds = true → s'.pc q = s.pc q)
    (hwaits : ∀ chan q, (s'.pc q).waits chan → (s.pc q).waits chan) : Heard s' := by
  refine ⟨fun chan q hq => ?_, fun q => ?_⟩
  · obtain hc | ⟨p, hp, howes⟩ := h.wake chan q (hwaits chan q hq)
    · exact .inl ((hcalm chan).mpr hc)
    · exact .inr ⟨p, hlock.trans hp, by rwa [hpc p ((hl.lock p).mpr hp)]⟩
  · by_cases hq : (s'.pc q).holds = true
    · have hs : (s.pc q).holds = true := (hl.lock q).mpr (hlock ▸ (hl'.lock q).mp hq)
      have hseen := h.seen q
      rw [hpc q hs]
      revert hseen
      cases s.pc q <;> simp [Sys.Seen, hcalm]
    · exact Sys.seen_of_not_holds hq

theorem Sys.calm_setPc {pc : Pc} : (s.setPc p pc).Calm chan ↔ s.Calm chan := by
  cases chan <;> rfl

/-- The process with the lock goes on to `pc`, which owes what was owed and is waited for. -/
theorem Heard.advance {pc : Pc} (h : Heard s) (hlock : s.lock = some p)
    (hl' : Locks (s.setPc p pc))
    (howes : ∀ chan q, (s.pc p).owes chan → (s.pc q).waits chan → pc.owes chan)
    (hseen : s.Seen pc) : Heard (s.setPc p pc) := by
  refine .of_held hl' hlock (fun chan q hq hw => ?_) ?_
  · rw [Sys.setPc_pc_of_ne hq] at hw
    rw [Sys.setPc_pc_self, Sys.calm_setPc]
    by_cases ho : (s.pc p).owes chan
    · exact .inr (howes chan q ho hw)
    · exact .inl (h.calm hlock ho hw)
  · rw [Sys.setPc_pc_self]
    revert hseen
    cases pc <;> simp [Sys.Seen, Sys.calm_setPc]

/-- The process with the lock changes the pipe and goes on to `pc`. -/
theorem Heard.change {pc : Pc} (h : Heard s) (hlock : s.lock = some p) (hlock' : s'.lock = some p)
    (hpc : s'.pc = s.pc) (hl' : Locks (s'.setPc p pc))
    (hcalm : ∀ chan, (¬ (s.pc p).owes chan → s.Calm chan) → s'.Calm chan ∨ pc.owes chan)
    (hseen : (s'.setPc p pc).Seen pc) : Heard (s'.setPc p pc) := by
  refine .of_held hl' hlock' (fun chan q hq hw => ?_) (by rw [Sys.setPc_pc_self]; exact hseen)
  rw [Sys.setPc_pc_of_ne hq, hpc] at hw
  rw [Sys.setPc_pc_self, Sys.calm_setPc]
  exact hcalm chan fun howes => h.calm hlock howes hw

/-- The process with the lock pays what it owes. -/
theorem Heard.pay {pc : Pc} (hl : Locks s) (h : Heard s) (hlock : s.lock = some p)
    (hpt : s.ptable = none) (hl' : Locks (Sys.setPc { s with pc := fun q => (s.pc q).wake chan } p pc))
    (howes : ∀ chan', (s.pc p).owes chan' → chan' = chan) (hseen : s.Seen pc) :
    Heard (Sys.setPc { s with pc := fun q => (s.pc q).wake chan } p pc) := by
  refine .of_held hl' hlock (fun chan' q hq hw => .inl ?_) ?_
  · rw [Sys.setPc_pc_of_ne hq] at hw
    rw [Sys.calm_setPc]
    by_cases hc : chan' = chan
    · subst hc
      refine absurd hw (Pc.not_waits_wake fun he => ?_)
      rw [(hl.ptable q).mp he] at hpt
      cases hpt
    · have := h.calm hlock (fun ho => hc (howes chan' ho)) (Pc.waits_of_wake hw)
      cases chan' <;> exact this
  · rw [Sys.setPc_pc_self]
    revert hseen
    cases pc <;> simp only [Sys.Seen, Sys.calm_setPc] <;> exact id

end Parts

theorem Heard.move {s s' : Sys P} {p : P} (hl : Locks s) (h : Heard s)
    (hok : NoEarlyReturn s (.step p)) (hm : Move s p s') : Heard s' := by
  have hl' := hl.move hm
  have hlock : (s.pc p).holds = true → s.lock = some p := (hl.lock p).mp
  have hseen := h.seen p
  cases hm with
  | @acquire c hpc hfree =>
      refine .of_held hl' rfl (fun chan q hq hw => .inl ?_) (by rw [Sys.setPc_pc_self]; trivial)
      rw [Sys.setPc_pc_of_ne hq] at hw
      obtain hcalm | ⟨p', hp', -⟩ := h.wake chan q hw
      · cases chan <;> exact hcalm
      · rw [hfree] at hp'
        cases hp'
  | writeEnd hpc =>
      refine h.advance (hlock (by rw [hpc]; rfl)) hl' (fun chan q ho _ => ?_) trivial
      rw [hpc] at ho
      exact ho
  | writeFail hpc hi hfull hstop =>
      refine h.advance (hlock (by rw [hpc]; rfl)) hl' (fun chan q ho hw => ?_) trivial
      rw [hpc] at ho
      cases ho
      exact absurd hw (hok _ _ hpc hi hfull hstop q)
  | writeFull hpc hfull hopen =>
      refine h.advance (hlock (by rw [hpc]; rfl)) hl' (fun chan q ho _ => ?_) ⟨hfull, hopen⟩
      rw [hpc] at ho
      exact ho
  | store hpc hroom =>
      have hp := hlock (by rw [hpc]; rfl)
      refine h.change hp hp rfl hl' (fun chan hcalm => ?_) trivial
      cases chan with
      | nread => exact .inr rfl
      | nwrite => exact absurd (hcalm (by rw [hpc]; exact nofun)).1 hroom
  | readKilled hpc =>
      refine h.advance (hlock (by rw [hpc]; rfl)) hl' (fun chan q ho _ => ?_) trivial
      rw [hpc] at ho
      cases ho
  | readSleep hpc hempty hopen =>
      refine h.advance (hlock (by rw [hpc]; rfl)) hl' (fun chan q ho _ => ?_) fun chan hc => ?_
      · rw [hpc] at ho
        cases ho
      · cases hc
        exact ⟨hempty, hopen⟩
  | readStart hpc _ =>
      refine h.advance (hlock (by rw [hpc]; rfl)) hl' (fun chan q ho _ => ?_) trivial
      rw [hpc] at ho
      cases ho
  | take hpc hdata =>
      have hp := hlock (by rw [hpc]; rfl)
      refine h.change hp hp rfl hl' (fun chan hcalm => ?_) trivial
      cases chan with
      | nread => exact absurd (hcalm (by rw [hpc]; exact nofun)).1 hdata
      | nwrite => exact .inr rfl
  | readEnd hpc _ =>
      refine h.advance (hlock (by rw [hpc]; rfl)) hl' (fun chan q ho _ => ?_) trivial
      rw [hpc] at ho
      exact ho
  | closeWrite hpc =>
      have hp := hlock (by rw [hpc]; rfl)
      refine h.change hp hp rfl hl' (fun chan hcalm => ?_) trivial
      cases chan with
      | nread => exact .inr rfl
      | nwrite => exact .inl (hcalm (by rw [hpc]; exact nofun))
  | closeRead hpc =>
      have hp := hlock (by rw [hpc]; rfl)
      refine h.change hp hp rfl hl' (fun chan hcalm => ?_) trivial
      cases chan with
      | nread => exact .inl (hcalm (by rw [hpc]; exact nofun))
      | nwrite => exact .inr rfl
  | wakeFull hpc hpt =>
      rw [hpc] at hseen
      refine h.pay hl (hlock (by rw [hpc]; rfl)) hpt hl' (fun chan ho => ?_) fun chan hc => ?_
      · rw [hpc] at ho
        exact ho
      · cases hc
        exact hseen
  | wakeEnd hpc hpt =>
      refine h.pay hl (hlock (by rw [hpc]; rfl)) hpt hl' (fun chan ho => ?_) trivial
      rw [hpc] at ho
      exact ho
  | sleep hpc _ =>
      have hp := hlock (by rw [hpc]; rfl)
      rw [hpc] at hseen
      refine .of_free hl' rfl fun chan q hw => ?_
      have hcalm : s.Calm chan := by
        by_cases hq : q = p
        · subst hq
          rw [Sys.setPc_pc_self] at hw
          exact hseen chan hw
        · rw [Sys.setPc_pc_of_ne hq] at hw
          exact h.calm hp (by rw [hpc]; exact id) hw
      cases chan <;> exact hcalm
  | asleep hpc =>
      refine .of_same hl h rfl (fun chan => by cases chan <;> rfl) hl' (fun q hq => ?_)
        fun chan q hw => ?_
      · refine Sys.setPc_pc_of_ne ?_
        rintro rfl
        rw [hpc] at hq
        cases hq
      · by_cases hq : q = p
        · subst hq
          rw [Sys.setPc_pc_self] at hw
          rw [hpc]
          exact hw
        · rwa [Sys.setPc_pc_of_ne hq] at hw
  | @release r hpc =>
      refine .of_free hl' (Sys.ret_lock ..) fun chan q hw => ?_
      have hq : q ≠ p := by
        rintro rfl
        rw [Sys.ret_pc, Function.update_self] at hw
        exact hw
      rw [Sys.ret_pc, Function.update_of_ne hq] at hw
      have := h.calm (hlock (by rw [hpc]; rfl)) (by rw [hpc]; exact id) hw
      cases r <;> cases chan <;> exact this

theorem Heard.step {s s' : Sys P} {e : Event P} (hl : Locks s) (h : Heard s)
    (hok : NoEarlyReturn s e) (hstep : step s e = some s') : Heard s' := by
  have hl' := hl.step hstep
  obtain ⟨p, c, rfl, hpc, rfl⟩ | ⟨p, rfl, rfl⟩ | ⟨p, rfl, hm⟩ := step_cases hstep
  · refine .of_same hl h rfl (fun chan => Sys.calm_setPc) hl' (fun q hq => ?_) fun chan q hw => ?_
    · refine Sys.setPc_pc_of_ne ?_
      rintro rfl
      rw [hpc] at hq
      cases hq
    · by_cases hq : q = p
      · subst hq
        rw [Sys.setPc_pc_self] at hw
        cases hw
      · rwa [Sys.setPc_pc_of_ne hq] at hw
  · refine .of_same hl h rfl (fun chan => by cases chan <;> rfl) hl' (fun q hq => ?_)
      fun chan q hw => ?_
    · exact kill_pc_of_holds hq
    · revert hw
      show (Function.update s.pc p (s.pc p).kill q).waits chan → _
      by_cases hq : q = p
      · subst hq
        rw [Function.update_self]
        cases s.pc q with
        | asleep c => exact nofun
        | _ => exact id
      · rw [Function.update_of_ne hq]
        exact id
  · exact h.move hl hok hm

omit [DecidableEq P] in
theorem heard_init (junk : Fin pipesize → UInt8) (killed : P → Bool) : Heard (init junk killed) :=
  .of_free (locks_init junk killed) rfl fun _ _ hw => hw.elim

/-- Nobody sleeps who should not, when both locks are free. -/
def NoLostWakeup (s : Sys P) : Prop :=
  s.lock = none → s.ptable = none →
    (∀ q n, s.pc q = .asleep (.read n) → s.ring.nread = s.ring.nwrite ∧ s.writeopen = true) ∧
    ∀ q src i, s.pc q = .asleep (.write src i) →
      s.ring.nwrite = s.ring.nread + 512 ∧ s.readopen = true

/-- **No wakeup is lost** in a run without the early return of a `pipewrite` while a reader sleeps. -/
theorem no_lost_wakeup (junk : Fin pipesize → UInt8) (killed : P → Bool) (es : List (Event P))
    (s : Sys P) (h : runs step (init junk killed) es = some s)
    (hok : Meets step NoEarlyReturn (init junk killed) es) : NoLostWakeup s := by
  have hall : Locks s ∧ Heard s := by
    refine runs_inv_meets (I := fun s => Locks s ∧ Heard s) ?_
      ⟨locks_init junk killed, heard_init junk killed⟩ hok h
    rintro s e s' ⟨hl, hs⟩ he hstep
    exact ⟨hl.step hstep, hs.step hl he hstep⟩
  obtain ⟨-, hs⟩ := hall
  intro hlock _
  have hcalm : ∀ chan q, (s.pc q).waits chan → s.Calm chan := by
    intro chan q hw
    obtain hcalm | ⟨p, hp, -⟩ := hs.wake chan q hw
    · exact hcalm
    · rw [hlock] at hp
      cases hp
  refine ⟨fun q n hq => hcalm .nread q ?_, fun q src i hq => hcalm .nwrite q ?_⟩
  · rw [hq]
    rfl
  · rw [hq]
    rfl

/-- A reader goes to sleep in an empty pipe. -/
def loneReader : List (Event Unit) :=
  [.call () (.read 1), .step (), .step (), .step (), .step ()]

theorem loneReader_sleeps : ∃ s, runs step (init (fun _ => 0) fun _ => false) loneReader = some s ∧
    s.pc () = .asleep (.read 1) ∧ NoLostWakeup s := by
  refine ⟨_, rfl, rfl, no_lost_wakeup (fun _ => 0) (fun _ => false) loneReader _ rfl ?_⟩
  refine meets_cons.mpr ⟨trivial, ?_⟩
  rintro _ ⟨⟩
  refine meets_cons.mpr ⟨fun _ _ hpc => (nomatch hpc), ?_⟩
  rintro _ ⟨⟩
  refine meets_cons.mpr ⟨fun _ _ hpc => (nomatch hpc), ?_⟩
  rintro _ ⟨⟩
  refine meets_cons.mpr ⟨fun _ _ hpc => (nomatch hpc), ?_⟩
  rintro _ ⟨⟩
  exact meets_cons.mpr ⟨fun _ _ hpc => (nomatch hpc), fun _ _ => meets_nil⟩

/-! ### The reader that is not woken -/

/-- `k` rounds of `pipewrite` while there is room. -/
theorem runs_fill {p : P} {src : List UInt8} (k : Nat) :
    ∀ {s : Sys P} {i : Nat}, s.freed = false → s.pc p = .body (.write src i) → i + k ≤ src.length →
      s.ring.count + k ≤ pipesize → ∃ s', runs step s (List.replicate k (.step p)) = some s' ∧
        s'.pc = Function.update s.pc p (.body (.write src (i + k))) ∧
        s'.ring.count = s.ring.count + k ∧ s'.ptable = s.ptable ∧ s'.freed = false := by
  induction k with
  | zero =>
      intro s i hfreed hpc _ _
      refine ⟨s, rfl, ?_, rfl, rfl, hfreed⟩
      rw [Nat.add_zero, ← hpc, Function.update_eq_self]
  | succ k ih =>
      intro s i hfreed hpc hlen hroom
      have hget : src[i]? = some (src.get ⟨i, by omega⟩) := by simp
      have hsize : pipesize = 512 := rfl
      have hne : s.ring.nwrite ≠ s.ring.nread + 512 := by
        intro hfull
        have : s.ring.count = 512 := (Ring.count_eq_iff (by decide)).mpr hfull
        omega
      have hstep : ∃ s₁, step s (.step p) = some s₁ ∧ s₁.freed = false ∧
          s₁.pc = Function.update s.pc p (.body (.write src (i + 1))) ∧
          s₁.ring.count = s.ring.count + 1 ∧ s₁.ptable = s.ptable := by
        refine ⟨Sys.setPc { s with
            ring := s.ring.push (src.get ⟨i, by omega⟩)
            stored := s.stored ++ [src.get ⟨i, by omega⟩] } p (.body (.write src (i + 1))),
          ?_, hfreed, rfl, Ring.count_push (by omega), rfl⟩
        simp only [step, hfreed, Sys.move, hpc, Sys.writeRound, hget, if_neg hne]
        rfl
      obtain ⟨s₁, h₁, hf₁, hpc₁, hc₁, hpt₁⟩ := hstep
      obtain ⟨s', hr, hpc', hc', hpt', hf'⟩ := ih hf₁ (by rw [hpc₁, Function.update_self])
        (by omega) (by omega)
      refine ⟨s', ?_, ?_, by omega, hpt'.trans hpt₁, hf'⟩
      · rw [List.replicate_succ, runs_cons]
        exact ⟨s₁, h₁, hr⟩
      · rw [hpc', hpc₁, Function.update_idem, Nat.add_right_comm, Nat.add_assoc]

/-- A `pipewrite` that is killed in front of a full pipe. -/
theorem runs_fail {s : Sys P} {p : P} {src : List UInt8} {i : Nat} (hfreed : s.freed = false)
    (hpt : s.ptable = none) (hpc : s.pc p = .body (.write src i)) (hi : i < src.length)
    (hfull : s.ring.nwrite = s.ring.nread + 512) :
    ∃ s', runs step s [.kill p, .step p, .step p] = some s' ∧
      s'.pc = Function.update s.pc p .user ∧ s'.ring = s.ring ∧ s'.lock = none ∧ s'.ptable = none := by
  have hget : src[i]? = some (src.get ⟨i, hi⟩) := by simp
  have hkill : step s (.kill p) = some { s with
      killed := Function.update s.killed p true
      pc := Function.update s.pc p (.body (.write src i)) } := by
    simp only [step, hpt, if_true, hpc]
    rfl
  have hback : ∀ s₁ : Sys P, s₁.freed = false → s₁.pc p = .body (.write src i) →
      s₁.killed p = true → s₁.ring.nwrite = s₁.ring.nread + 512 →
      step s₁ (.step p) = some (s₁.setPc p (.release (.wrote (-1)))) := by
    intro s₁ hf hp hk hr
    simp [step, hf, Sys.move, hp, Sys.writeRound, hget, hr, hk]
  have hrelease : ∀ s₁ : Sys P, s₁.freed = false → s₁.pc p = .release (.wrote (-1)) →
      step s₁ (.step p) = some (s₁.ret p (.wrote (-1))) := by
    intro s₁ hf hp
    simp [step, hf, Sys.move, hp]
  refine ⟨_, runs_cons.mpr ⟨_, hkill, runs_cons.mpr ⟨_, hback _ hfreed ?_ ?_ hfull,
    runs_cons.mpr ⟨_, hrelease _ hfreed ?_, rfl⟩⟩⟩, ?_, rfl, rfl, hpt⟩
  · exact Function.update_self ..
  · exact Function.update_self ..
  · exact Sys.setPc_pc_self
  · simp [Sys.setPc, Sys.ret_pc]

/-- The reader goes to sleep in the empty pipe, the writer fills it, and is killed. -/
def forgetRun : List (Event Bool) :=
  [.call false (.read 1), .step false, .step false, .step false, .step false,
    .call true (.write (List.replicate 513 0) 0), .step true] ++
  List.replicate 512 (.step true) ++ [.kill true, .step true, .step true]

/-- The reader sleeps on with 512 bytes in the pipe, and both locks are free. -/
theorem killed_writer_forgets_reader :
    ∃ s, runs step (init (fun _ => 0) fun _ => false) forgetRun = some s ∧
      s.pc false = .asleep (.read 1) ∧ s.ring.nread ≠ s.ring.nwrite ∧ s.lock = none ∧
      s.ptable = none ∧ ¬ NoLostWakeup s := by
  have hstart : ∃ s, runs step (init (P := Bool) (fun _ => 0) fun _ => false)
      [.call false (.read 1), .step false, .step false, .step false, .step false,
        .call true (.write (List.replicate 513 0) 0), .step true] = some s ∧
      s.freed = false ∧ s.pc false = .asleep (.read 1) ∧
      s.pc true = .body (.write (List.replicate 513 0) 0) ∧ s.ring.count = 0 ∧ s.ptable = none :=
    ⟨_, rfl, rfl, rfl, rfl, rfl, rfl⟩
  obtain ⟨s₁, h₁, hf₁, hr₁, hw₁, hc₁, hpt₁⟩ := hstart
  obtain ⟨s₂, h₂, hpc₂, hc₂, hpt₂, hf₂⟩ := runs_fill 512 hf₁ hw₁
    (by rw [List.length_replicate]; decide) (by rw [hc₁]; decide)
  have hfull : s₂.ring.nwrite = s₂.ring.nread + 512 :=
    (Ring.count_eq_iff (by decide)).mp (by rw [hc₂, hc₁])
  have hne : s₂.ring.nread ≠ s₂.ring.nwrite := by
    rw [hfull]
    intro h
    have := Ring.count_eq_zero.mpr (h.trans hfull.symm)
    omega
  have hend : ∃ s₃, runs step s₂ [.kill true, .step true, .step true] = some s₃ ∧
      s₃.pc false = .asleep (.read 1) ∧ s₃.ring = s₂.ring ∧ s₃.lock = none ∧ s₃.ptable = none := by
    obtain ⟨s₃, h₃, hpc₃, hrest⟩ := runs_fail (s := s₂) (p := true) hf₂ (hpt₂.trans hpt₁)
      (by rw [hpc₂, Function.update_self]) (by rw [List.length_replicate]; decide) hfull
    exact ⟨s₃, h₃, by rw [hpc₃, hpc₂]; exact hr₁, hrest⟩
  obtain ⟨s₃, h₃, hr₃, hring₃, hl₃, hpt₃⟩ := hend
  refine ⟨s₃, ?_, hr₃, by rwa [hring₃], hl₃, hpt₃, fun hno => ?_⟩
  · rw [forgetRun, runs_append]
    exact ⟨s₂, runs_append.mpr ⟨s₁, h₁, h₂⟩, h₃⟩
  · exact hne (hring₃ ▸ ((hno hl₃ hpt₃).1 false 1 hr₃).1)

end Xv6.Pipe
