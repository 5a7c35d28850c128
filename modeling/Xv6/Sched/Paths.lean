import Xv6.Sched.Lottery

/-!
# Sched — runs made to order

Existence of runs.  `Reaches S s s'` says that some events lead from `s` to `s'`, every
`settickets` among them with an argument in `S`.

A pass on a table nobody changes gets to its scan with any draw (`reaches_lock`).  On one CPU,
any number of processes up to `NPROC` can be made runnable with `n` tickets each
(`exists_allReady`): the first process sets its tickets to `n`, forks and sleeps; its child does
the same; and so on; then all of them are woken.
-/

namespace Xv6.Sched
open Lib Xv6.Rand

/-- An argument of `settickets`, if the event is one, is in the set `S`. -/
def ArgIn {C : Type} (S : Set Int32) : Event C → Prop
  | .settickets _ (some n) => n ∈ S
  | _ => True

variable {C : Type} [DecidableEq C] {S : Set Int32} {s s₁ s₂ : Sys C} {c : C} {n : Int32}

/-- A run from `s` to `s'` with arguments in `S`. -/
def Reaches (S : Set Int32) (s s' : Sys C) : Prop :=
  ∃ es, (∀ e ∈ es, ArgIn S e) ∧ runs step s es = some s'

theorem Reaches.refl : Reaches S s s := ⟨[], by simp, rfl⟩

theorem Reaches.trans (h₁ : Reaches S s s₁) (h₂ : Reaches S s₁ s₂) : Reaches S s s₂ := by
  obtain ⟨es₁, he₁, hr₁⟩ := h₁
  obtain ⟨es₂, he₂, hr₂⟩ := h₂
  refine ⟨es₁ ++ es₂, fun e he => ?_, runs_append.mpr ⟨s₁, hr₁, hr₂⟩⟩
  rcases List.mem_append.mp he with he | he
  · exact he₁ e he
  · exact he₂ e he

theorem Reaches.one {e : Event C} (he : ArgIn S e) (h : step s e = some s₁) : Reaches S s s₁ :=
  ⟨[e], by simpa using he, runs_cons.mpr ⟨s₁, h, rfl⟩⟩

theorem setCpu_setCpu {a b : Pc} : (s.setCpu c a).setCpu c b = s.setCpu c b := by
  simp [Sys.setCpu]

/-- The tally after `i` slots of a table nobody changes. -/
def tallyUpTo (t : Table) (i : Nat) : Int32 :=
  ((List.finRange nproc).take i).foldl
    (fun total p => if (t p).state = .runnable then total + (t p).tickets else total) 0

@[simp] theorem tallyUpTo_zero (t : Table) : tallyUpTo t 0 = 0 := rfl

theorem tallyUpTo_succ (t : Table) {i : Nat} (h : i < nproc) :
    tallyUpTo t (i + 1) =
      if (t ⟨i, h⟩).state = .runnable then tallyUpTo t i + (t ⟨i, h⟩).tickets
      else tallyUpTo t i := by
  have hlen : i < (List.finRange nproc).length := by simpa using h
  rw [tallyUpTo, List.take_succ_eq_append_getElem hlen, List.foldl_append]
  simp only [List.getElem_finRange, Fin.cast_mk, List.foldl_cons, List.foldl_nil]
  rfl

theorem tallyUpTo_nproc (t : Table) : tallyUpTo t nproc = totalTickets t := by
  rw [tallyUpTo, totalTickets, List.take_of_length_le (by simp)]

/-- The tally of an unchanging table gets to slot `i`. -/
theorem reaches_tally {i : Nat} (hi : i ≤ nproc) :
    Reaches S (s.setCpu c (.tally 0 0)) (s.setCpu c (.tally i (tallyUpTo s.proc i))) := by
  induction i with
  | zero => exact .refl
  | succ i ih =>
      have hi' : i < nproc := hi
      refine (ih hi'.le).trans ?_
      rw [tallyUpTo_succ s.proc hi']
      split
      · rename_i hr
        have hfound : Reaches S (s.setCpu c (.tally i (tallyUpTo s.proc i)))
            (s.setCpu c (.add ⟨i, hi'⟩ (tallyUpTo s.proc i))) :=
          .one (e := .tally c) trivial (by simp [step, hi', hr, setCpu_setCpu])
        exact hfound.trans (.one (e := .add c) trivial (by simp [step, setCpu_setCpu]))
      · rename_i hr
        refine Reaches.one (e := .tally c) trivial ?_
        simp [step, hi', hr, setCpu_setCpu]

/-- A pass on an unchanging table, up to the draw. -/
theorem reaches_draw {fp : Bool} (hc : s.cpu c = .top fp) :
    Reaches S s (s.setCpu c (.draw (totalTickets s.proc))) := by
  have henter : Reaches S s (s.setCpu c (.tally 0 0)) :=
    .one (e := .enter c) trivial (by simp [step, hc])
  have htallied : Reaches S (s.setCpu c (.tally nproc (tallyUpTo s.proc nproc)))
      (s.setCpu c (.draw (totalTickets s.proc))) :=
    .one (e := .tally c) trivial (by simp [step, setCpu_setCpu, tallyUpTo_nproc])
  exact henter.trans ((reaches_tally le_rfl).trans htallied)

/-- A pass on an unchanging table, up to the scan, with any draw. -/
theorem reaches_lock {fp : Bool} {w : Int32} (hc : s.cpu c = .top fp)
    (hw : CanDraw (totalTickets s.proc) w) :
    Reaches S s (s.setCpu c (.lock (totalTickets s.proc) w)) := by
  obtain ⟨raws, hraws, hd⟩ := hw
  refine (reaches_draw hc).trans (.one (e := .draw c raws) trivial ?_)
  simp only [step, Sys.setCpu_cpu_self, if_pos hraws, hd, setCpu_setCpu]

/-- A pass on an unchanging table, up to the switch to the process its scan picks. -/
theorem reaches_picked {fp : Bool} {w : Int32} {p : Slot} (hc : s.cpu c = .top fp)
    (hw : CanDraw (totalTickets s.proc) w) (hp : scan s.proc w = some p) :
    Reaches S s ((s.setProc p Proc.chosen).setCpu c (.running p)) := by
  refine (reaches_lock hc hw).trans (.one (e := .scan c) trivial ?_)
  simp only [step, Sys.setCpu_cpu_self, Sys.setCpu_proc, hp]
  simp [Sys.setCpu, Sys.setProc]

/-! #### One process after another -/

/-- Slots below `j` sleep, each with `n` tickets; slot `j` was just forked; the others are
free. -/
structure Stage (c : C) (n : Int32) (j : Nat) (s : Sys C) : Prop where
  asleep : ∀ p : Slot, p < j →
    (s.proc p).state = .sleeping ∧ (s.proc p).chan = .null ∧ (s.proc p).tickets = n
  fresh : ∀ p : Slot, p = j → (s.proc p).state = .runnable ∧ (s.proc p).tickets = defaultTickets
  free : ∀ p : Slot, j < p → (s.proc p).state = .unused
  cpu : ∃ fp, s.cpu c = .top fp
  idle : ∀ d, d ≠ c → s.cpu d = .top true

theorem list_eq_singleton {α : Type*} {l : List α} {a : α} (hnd : l.Nodup)
    (h : ∀ x, x ∈ l ↔ x = a) : l = [a] :=
  List.perm_singleton.mp ((List.perm_ext_iff_of_nodup hnd (List.nodup_singleton a)).mpr
    fun x => by simp [h])

/-- When one slot alone is runnable, a pass can pick it. -/
theorem reaches_running {j : Slot} (hr : ∀ p, (s.proc p).state = .runnable ↔ p = j)
    (ht : (s.proc j).tickets = defaultTickets) (hc : ∃ fp, s.cpu c = .top fp) :
    Reaches S s ((s.setProc j Proc.chosen).setCpu c (.running j)) := by
  obtain ⟨fp, hc⟩ := hc
  have hrs : runnables s.proc = [j] :=
    list_eq_singleton (nodup_runnables _) fun p => mem_runnables.trans (hr p)
  have htj : tickets s.proc j = 20 := by unfold tickets; rw [ht]; rfl
  have hnn : NonnegTickets s.proc := by
    intro p hp
    rw [(hr p).mp hp, htj]
    decide
  have hsum : ticketSum s.proc = 20 := by rw [ticketSum, hrs]; simp [htj]
  have htot := toInt_totalTickets hnn (by rw [hsum]; decide)
  have hscan : scan s.proc 0 = some j := by
    rw [scan_eq_pickAt hnn (by rw [hsum]; decide), hrs]
    exact pickAt_head (hnn j ((hr j).mpr rfl)) le_rfl
  have hdraw : CanDraw (totalTickets s.proc) 0 :=
    (canDraw_iff (by rw [htot, hsum]; decide) 0).mpr (by rw [htot, hsum]; decide)
  exact reaches_picked hc hdraw hscan

theorem firstUnused_eq {t : Table} {q : Slot} (hq : (t q).state = .unused)
    (hlt : ∀ p : Slot, p < q → (t p).state ≠ .unused) : firstUnused t = some q := by
  rw [firstUnused, List.find?_eq_some_iff_getElem]
  refine ⟨by simpa using hq, q, by simp, by simp, fun i hi => ?_⟩
  simpa using hlt ⟨i, hi.trans q.isLt⟩ hi

omit [DecidableEq C] in
theorem Stage.runnable_iff {j : Slot} (h : Stage c n j s) (p : Slot) :
    (s.proc p).state = .runnable ↔ p = j := by
  constructor
  · intro hp
    rcases lt_trichotomy p j with hlt | heq | hgt
    · rw [(h.asleep p hlt).1] at hp
      cases hp
    · exact heq
    · rw [h.free p hgt] at hp
      cases hp
  · rintro rfl
    exact (h.fresh p rfl).1

/-- The system once the process of slot `j`, running on `c`, set its tickets to `n`, forked into
slot `q` and slept. -/
def spawned (s : Sys C) (c : C) (j q : Slot) (n : Int32) : Sys C where
  proc := Function.update (Function.update s.proc q (((s.proc q).alloc s.nextpid).forked j)) j
    (((s.proc j).settickets (some n)).sleep .null)
  nextpid := s.nextpid + 1
  initproc := s.initproc
  cpu := Function.update s.cpu c (.top true)

theorem reaches_spawned {j q : Slot} (hn : n ∈ S) (hc : s.cpu c = .running j) (hjq : j ≠ q)
    (hfirst : firstUnused (s.setProc j (·.settickets (some n))).proc = some q) :
    Reaches S s (spawned s c j q n) := by
  have hset : Reaches S s (s.setProc j (·.settickets (some n))) :=
    .one (e := .settickets c (some n)) hn (by simp only [step, hc])
  obtain ⟨s₃, h₃, hs₃⟩ : ∃ s₃, step (s.setProc j (·.settickets (some n))) (.alloc c) = some s₃ ∧
      s₃ = { (s.setProc j (·.settickets (some n))).setProc q (·.alloc s.nextpid) with
        nextpid := s.nextpid + 1 } := by
    refine ⟨_, ?_, rfl⟩
    simp only [step, Sys.setProc_cpu, hc, Sys.allocproc_eq_some.mpr ⟨hfirst, rfl⟩]
    rfl
  have hc₃ : s₃.cpu c = .running j := by rw [hs₃]; exact hc
  have hq₃ : (s₃.proc q).state = .embryo := by
    rw [hs₃]
    simp [Sys.setProc, Proc.alloc]
  have hfork : step s₃ (.fork c q) = some (s₃.setProc q (·.forked j)) := by
    simp only [step]
    exact Sys.act_eq_some.mpr ⟨j, hc₃, by simpa using hq₃, rfl⟩
  have hsleep : step (s₃.setProc q (·.forked j)) (.sleep c .null) = some (spawned s c j q n) := by
    simp only [step]
    refine Sys.leave_eq_some.mpr ⟨j, hc₃, ?_⟩
    subst hs₃
    ext1
    · funext p
      simp only [spawned, Sys.setProc, Sys.setCpu, Function.update_apply]
      split
      · rename_i hp
        subst hp
        simp
      · split
        · simp_all
        · simp_all
    · rfl
    · rfl
    · rfl
  exact hset.trans ((Reaches.one (e := .alloc c) trivial h₃).trans
    ((Reaches.one (e := .fork c q) trivial hfork).trans
      (Reaches.one (e := .sleep c .null) trivial hsleep)))

/-- The process of slot `j` sets its tickets, forks into the next slot and sleeps. -/
theorem Stage.next {j q : Slot} (hq : (q : Nat) = j + 1) (hn : n ∈ S) (h : Stage c n j s) :
    ∃ s', Reaches S s s' ∧ Stage c n (j + 1) s' := by
  have hjq : j ≠ q := by rintro rfl; omega
  have hrun := reaches_running (S := S) h.runnable_iff (h.fresh j rfl).2 h.cpu
  have hlow : ∀ p : Slot, p ≠ j → p < q → p < j := fun p hpj hpq => by
    have h₁ : (p : Nat) < q := hpq
    have h₂ : (p : Nat) ≠ j := fun e => hpj (Fin.ext e)
    show (p : Nat) < j
    omega
  have hfirst : firstUnused (((s.setProc j Proc.chosen).setCpu c (.running j)).setProc j
      (·.settickets (some n))).proc = some q := by
    refine firstUnused_eq ?_ fun p hp => ?_
    · rw [Sys.setProc_proc_of_ne hjq.symm, Sys.setCpu_proc, Sys.setProc_proc_of_ne hjq.symm]
      exact h.free q (by show (j : Nat) < q; omega)
    · by_cases hpj : p = j
      · subst hpj
        rw [Sys.setProc_proc_self, Sys.setCpu_proc, Sys.setProc_proc_self]
        simp [Proc.settickets, Proc.chosen]
      · rw [Sys.setProc_proc_of_ne hpj, Sys.setCpu_proc, Sys.setProc_proc_of_ne hpj,
          (h.asleep p (hlow p hpj hp)).1]
        decide
  refine ⟨_, hrun.trans (reaches_spawned hn Sys.setCpu_cpu_self hjq hfirst), ?_⟩
  have hproc : ∀ p, p ≠ j → p ≠ q →
      (spawned ((s.setProc j Proc.chosen).setCpu c (.running j)) c j q n).proc p = s.proc p :=
    fun p hpj hpq => by simp [spawned, hpj, hpq, Sys.setProc]
  refine ⟨fun p hp => ?_, fun p hp => ?_, fun p hp => ?_, ⟨true, by simp [spawned]⟩,
    fun d hd => by simp [spawned, hd, Sys.setCpu, h.idle d hd]⟩
  · by_cases hpj : p = j
    · subst hpj
      simp [spawned, Proc.sleep, Proc.settickets]
    · have hpq : p ≠ q := by rintro rfl; omega
      rw [hproc p hpj hpq]
      exact h.asleep p (by have : (p : Nat) ≠ j := fun e => hpj (Fin.ext e); omega)
  · obtain rfl : p = q := Fin.ext (by omega)
    simp [spawned, hjq.symm, Proc.forked, Proc.alloc]
  · have hpj : p ≠ j := by rintro rfl; omega
    have hpq : p ≠ q := by rintro rfl; omega
    rw [hproc p hpj hpq]
    exact h.free p (by omega)

theorem Stage.boot (S : Set Int32) (c : C) (n : Int32) :
    ∃ s', Reaches S (Sys.boot C) s' ∧ Stage c n 0 s' := by
  have hfirst : firstUnused (Sys.boot C).proc = some 0 :=
    firstUnused_eq rfl fun p hp => absurd hp (by simp)
  refine ⟨_, .one (e := .userinit) trivial (by
    simp only [step, Sys.allocproc_eq_some.mpr ⟨hfirst, rfl⟩]; rfl),
    fun p hp => absurd hp (Nat.not_lt_zero _), fun p hp => ?_, fun p hp => ?_, ⟨true, rfl⟩,
    fun _ _ => rfl⟩
  · obtain rfl : p = 0 := Fin.ext hp
    simp [Sys.setProc, Proc.ready, Proc.alloc]
  · have hp0 : p ≠ 0 := by rintro rfl; exact absurd hp (lt_irrefl _)
    simp [Sys.setProc, hp0, Sys.boot, Proc.zero]

/-- As many processes as there are slots can be made. -/
theorem exists_stage (c : C) (hn : n ∈ S) (j : Slot) :
    ∃ s', Reaches S (Sys.boot C) s' ∧ Stage c n j s' := by
  obtain ⟨j, hj⟩ := j
  induction j with
  | zero => exact Stage.boot S c n
  | succ j ih =>
      obtain ⟨s₁, hr₁, hs₁⟩ := ih (Nat.lt_of_succ_lt hj)
      obtain ⟨s₂, hr₂, hs₂⟩ :=
        Stage.next (j := ⟨j, Nat.lt_of_succ_lt hj⟩) (q := ⟨j + 1, hj⟩) rfl hn hs₁
      exact ⟨s₂, hr₁.trans hr₂, hs₂⟩

/-- Interrupt handlers wake the sleepers of a list of slots. -/
theorem reaches_wake (ps : List Slot) :
    Reaches S s { s with proc := fun p => if p ∈ ps then (s.proc p).wake .null else s.proc p } := by
  induction ps with
  | nil => simpa using Reaches.refl
  | cons q qs ih =>
      refine ih.trans (.one (e := .wake .null q) trivial ?_)
      simp only [step, Option.some.injEq]
      ext1
      · funext p
        simp only [Sys.setProc, Function.update_apply, List.mem_cons]
        by_cases hpq : p = q
        · subst hpq
          by_cases hqs : p ∈ qs
          · simp only [hqs, if_true, or_true]
            simp only [Proc.wake]
            split <;> simp_all
          · simp [hqs]
        · simp [hpq]
      · rfl
      · rfl
      · rfl

/-- All processes so far are runnable with `n` tickets each. -/
structure AllReady (c : C) (n : Int32) (j : Nat) (s : Sys C) : Prop where
  ready : ∀ p : Slot, p ≤ j → (s.proc p).state = .runnable ∧ (s.proc p).tickets = n
  others : ∀ p : Slot, j < p → (s.proc p).state ≠ .runnable
  cpu : ∃ fp, s.cpu c = .top fp
  idle : ∀ d, d ≠ c → s.cpu d = .top true

theorem Stage.allReady {j : Slot} (hn : n ∈ S) (h : Stage c n j s) :
    ∃ s', Reaches S s s' ∧ AllReady c n j s' := by
  have hrun := reaches_running (S := S) h.runnable_iff (h.fresh j rfl).2 h.cpu
  have hset : Reaches S ((s.setProc j Proc.chosen).setCpu c (.running j))
      (((s.setProc j Proc.chosen).setCpu c (.running j)).setProc j (·.settickets (some n))) :=
    .one (e := .settickets c (some n)) hn (by simp only [step, Sys.setCpu_cpu_self])
  refine ⟨_, hrun.trans (hset.trans ((reaches_wake (List.finRange nproc)).trans
    (.one (e := .yield c) trivial (by
      simp only [step]
      exact Sys.leave_eq_some.mpr ⟨j, Sys.setCpu_cpu_self, rfl⟩)))), fun p hp => ?_,
    fun p hp => ?_, ⟨true, Sys.setCpu_cpu_self⟩,
    fun d hd => by simp [hd, Sys.setCpu, h.idle d hd]⟩
  · by_cases hpj : p = j
    · subst hpj
      simp [Sys.setProc, Sys.setCpu, Proc.settickets, Proc.wake, Proc.chosen, Proc.yield]
    · obtain ⟨h₁, h₂, h₃⟩ := h.asleep p (by
        have : (p : Nat) ≠ j := fun e => hpj (Fin.ext e)
        omega)
      simp [Sys.setProc, Sys.setCpu, Proc.wake, hpj, h₁, h₂, h₃]
  · have hpj : p ≠ j := by rintro rfl; omega
    have h₁ := h.free p hp
    simp [Sys.setProc, Sys.setCpu, Proc.wake, hpj, h₁]

omit [DecidableEq C] in
/-- The tally of processes with `n` tickets each. -/
theorem AllReady.toInt_tallyUpTo {j : Slot} (h : AllReady c n j s) {i : Nat} (hi : i ≤ j)
    (hlow : ∀ k : Nat, k ≤ j → 0 ≤ k * n.toInt ∧ k * n.toInt < 2 ^ 31) :
    (tallyUpTo s.proc i).toInt = i * n.toInt := by
  induction i with
  | zero => simp [tallyUpTo]
  | succ i ih =>
      have hij : i < nproc := (Nat.lt_of_succ_le hi).trans j.isLt
      obtain ⟨h₁, h₂⟩ := h.ready ⟨i, hij⟩ (Nat.le_of_succ_le hi)
      obtain ⟨hl₀, hl₁⟩ := hlow (i + 1) hi
      have hih := ih (Nat.le_of_succ_le hi)
      have hsucc : (i : ℤ) * n.toInt + n.toInt = ((i + 1 : ℕ) : ℤ) * n.toInt := by
        push_cast; ring
      rw [tallyUpTo_succ _ hij, if_pos h₁, h₂, toInt_add_of_lt (by rw [hih, hsucc]; omega)
        (by rw [hih, hsucc]; exact hl₁), hih, hsucc]

omit [DecidableEq C] in
/-- Past the runnable slots the tally adds nothing. -/
theorem AllReady.tallyUpTo_eq {j : Slot} (h : AllReady c n j s) {i : Nat} (hi : i ≤ nproc)
    (hj : j < i) : tallyUpTo s.proc i = tallyUpTo s.proc j + n := by
  induction i with
  | zero => exact absurd hj (Nat.not_lt_zero _)
  | succ i ih =>
      rw [tallyUpTo_succ _ hi]
      rcases Nat.lt_succ_iff_lt_or_eq.mp hj with hlt | heq
      · rw [if_neg (h.others ⟨i, hi⟩ hlt)]
        exact ih (Nat.le_of_succ_le hi) hlt
      · subst heq
        obtain ⟨h₁, h₂⟩ := h.ready j le_rfl
        rw [if_pos h₁, h₂]

omit [DecidableEq C] in
theorem AllReady.totalTickets_eq {j : Slot} (h : AllReady c n j s) :
    totalTickets s.proc = tallyUpTo s.proc j + n := by
  rw [← tallyUpTo_nproc]
  exact h.tallyUpTo_eq le_rfl j.isLt

/-- `j + 1` processes, with `n` tickets each. -/
theorem exists_allReady (c : C) (hn : n ∈ S) (j : Slot) :
    ∃ s', Reaches S (Sys.boot C) s' ∧ AllReady c n j s' := by
  obtain ⟨s₁, hr₁, hs₁⟩ := exists_stage c hn j
  obtain ⟨s₂, hr₂, hs₂⟩ := hs₁.allReady hn
  exact ⟨s₂, hr₁.trans hr₂, hs₂⟩

end Xv6.Sched
