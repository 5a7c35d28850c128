import Xv6.Sched.Paths

/-!
# Sched — the tally against the table of the scan

`scheduler()` tallies the tickets without `ptable.lock` and scans under it, so the total and the
scan may belong to different tables.  The scan's count after slot `p` is the running tally
`tallyUpTo t (p + 1)`; it picks the first runnable slot at which the count reaches the draw
(`scan_eq_none_iff`).  Since the largest draw is the total itself, a scan finds a runnable process
on every draw exactly when some runnable slot brings the count to the total (`Covers`).

* `scan_finds_iff`: this, at every scan of every run, and what it says about `hlt`.
* `covers_iff_le_ticketSum`: the condition in tickets that are still held.
-/

namespace Xv6.Sched
open Lib Xv6.Rand

/-! ### The scan as a search in the running tally -/

theorem drop_finRange {i : Nat} (h : i < nproc) :
    (List.finRange nproc).drop i = ⟨i, h⟩ :: (List.finRange nproc).drop (i + 1) := by
  rw [List.drop_eq_getElem_cons (by simpa using h), List.getElem_finRange]
  rfl

theorem tallyUpTo_slot (t : Table) (p : Slot) :
    tallyUpTo t (p + 1) =
      if (t p).state = .runnable then tallyUpTo t p + (t p).tickets else tallyUpTo t p :=
  tallyUpTo_succ t p.isLt

/-- The scan from slot `i` on, with the count it has there. -/
theorem scanFrom_drop_eq_none_iff (t : Table) (w : Int32) {i : Nat} (hi : i ≤ nproc) :
    scanFrom t w ((List.finRange nproc).drop i) (tallyUpTo t i) = none ↔
      ∀ p : Slot, i ≤ p → (t p).state = .runnable → tallyUpTo t (p + 1) < w := by
  -- downwards from the end of the table
  induction hi using Nat.decreasingInduction with
  | self =>
      rw [List.drop_of_length_le (by simp)]
      exact ⟨fun _ p hp => absurd p.isLt (by omega), fun _ => rfl⟩
  | of_succ i hi ih =>
      have hsplit : ∀ P : Slot → Prop, (∀ p : Slot, i ≤ p → P p) ↔
          P ⟨i, hi⟩ ∧ ∀ p : Slot, i + 1 ≤ p → P p := fun P => by
        refine ⟨fun h => ⟨h _ le_rfl, fun p hp => h p (Nat.le_of_succ_le hp)⟩, fun h p hp => ?_⟩
        rcases Nat.eq_or_lt_of_le hp with heq | hlt
        · obtain rfl : (⟨i, hi⟩ : Slot) = p := Fin.ext heq
          exact h.1
        · exact h.2 p hlt
      rw [hsplit, drop_finRange hi, scanFrom]
      have htally := tallyUpTo_succ t hi
      by_cases hr : (t ⟨i, hi⟩).state = .runnable
      · rw [if_pos hr] at htally
        rw [if_neg (not_not.mpr hr), ← htally]
        by_cases hw : tallyUpTo t (i + 1) < w
        · rw [if_pos hw, ih]
          exact ⟨fun h => ⟨fun _ => hw, h⟩, fun h => h.2⟩
        · simp [hw, hr]
      · rw [if_neg hr] at htally
        rw [if_pos hr, ← htally, ih]
        simp [hr]

/-- The scan finds nothing exactly when the count stays below the draw at every runnable slot. -/
theorem scan_eq_none_iff {t : Table} {w : Int32} :
    scan t w = none ↔ ∀ p : Slot, (t p).state = .runnable → tallyUpTo t (p + 1) < w := by
  have h := scanFrom_drop_eq_none_iff t w (Nat.zero_le nproc)
  simp only [List.drop_zero, Nat.zero_le, true_implies] at h
  exact h

theorem scanFrom_runnable {t : Table} {w : Int32} {ps : List Slot} {count : Int32} {p : Slot}
    (h : scanFrom t w ps count = some p) : (t p).state = .runnable := by
  induction ps generalizing count with
  | nil => cases h
  | cons q qs ih =>
      simp only [scanFrom] at h
      split at h
      · exact ih h
      · rename_i hq
        split at h
        · exact ih h
        · cases h
          exact not_not.mp hq

/-- Only a runnable process is picked. -/
theorem scan_runnable {t : Table} {w : Int32} {p : Slot} (h : scan t w = some p) :
    (t p).state = .runnable :=
  scanFrom_runnable h

/-- Slot 0 wins every draw up to its tickets. -/
theorem scan_eq_zero {t : Table} {w : Int32} (hr : (t 0).state = .runnable)
    (hw : ¬ 0 + (t 0).tickets < w) : scan t w = some 0 := by
  have hlist := drop_finRange (i := 0) (by decide)
  rw [List.drop_zero] at hlist
  rw [scan, hlist, scanFrom]
  exact (if_neg (not_not.mpr hr)).trans (if_neg hw)

/-! ### When every draw finds a process -/

/-- On every draw for `total` the scan of `t` picks a runnable process, if there is one. -/
def Finds (t : Table) (total : Int32) : Prop :=
  ∀ w, CanDraw total w → (∃ p, (t p).state = .runnable) →
    ∃ p, scan t w = some p ∧ (t p).state = .runnable

/-- If there is a runnable process, one of them brings the count to `total`. -/
def Covers (t : Table) (total : Int32) : Prop :=
  (∃ p, (t p).state = .runnable) →
    ∃ p : Slot, (t p).state = .runnable ∧ total ≤ tallyUpTo t (p + 1)

theorem nonneg_of_canDraw {total w : Int32} (h : CanDraw total w) : 0 ≤ total.toInt := by
  by_contra hneg
  exact not_canDraw_of_neg (not_le.mp hneg) w h

theorem covers_iff_scan {t : Table} {total : Int32} :
    Covers t total ↔ ((∃ p, (t p).state = .runnable) → scan t total ≠ none) := by
  refine imp_congr_right fun _ => ?_
  rw [Ne, scan_eq_none_iff]
  push Not
  exact exists_congr fun p => and_congr_right fun _ => Int32.not_lt.symm

theorem finds_iff_covers {t : Table} {total : Int32} (h0 : 0 ≤ total.toInt) :
    Finds t total ↔ Covers t total := by
  rw [covers_iff_scan]
  constructor
  · intro h hr
    -- the draw that needs the most is the total itself
    obtain ⟨p, hp, -⟩ := h total ((canDraw_iff h0 total).mpr ⟨h0, le_rfl⟩) hr
    rw [hp]
    exact Option.some_ne_none p
  · intro h w hw hr
    cases hs : scan t w with
    | none =>
        refine absurd (scan_eq_none_iff.mpr fun p hp => ?_) (h hr)
        have h₁ := scan_eq_none_iff.mp hs p hp
        have h₂ := ((canDraw_iff h0 w).mp hw).2
        rw [Int32.lt_iff_toInt_lt] at h₁ ⊢
        omega
    | some q => exact ⟨q, rfl, scan_runnable hs⟩

/-- With non-negative tickets that do not overflow, the table covers the total as long as its
runnable processes hold that many tickets. -/
theorem covers_iff_le_ticketSum {t : Table} {total : Int32} (hnn : NonnegTickets t)
    (hlt : ticketSum t < 2 ^ 31) (h0 : 0 ≤ total.toInt) :
    Covers t total ↔ ((∃ p, (t p).state = .runnable) → total.toInt ≤ ticketSum t) := by
  rw [covers_iff_scan, scan_eq_pickAt hnn hlt]
  refine imp_congr_right fun ⟨p, hp⟩ => ?_
  rw [Option.ne_none_iff_isSome]
  rcases h0.eq_or_lt with h0 | h0
  · -- nothing is to be reached: the first runnable slot does
    have hsum : 0 ≤ ticketSum t := sum_tickets_nonneg hnn _
    obtain ⟨q, qs, hrs⟩ := List.exists_cons_of_ne_nil (List.ne_nil_of_mem (mem_runnables.mpr hp))
    have hq := hnn q (mem_runnables.mp (hrs ▸ List.mem_cons_self))
    rw [hrs, pickAt_head hq h0.ge]
    simpa [← h0] using hsum
  · rw [pickAt_isSome_iff (fun q hq => hnn q (mem_runnables.mp hq)) h0, zero_add]
    rfl

theorem testTable_covers : Covers testTable 100 :=
  (covers_iff_le_ticketSum testTable_nonneg (by rw [testTable_sum]; decide) (by decide)).mpr
    fun _ => testTable_sum.ge

/-! ### The scans of a run -/

variable {C : Type} [DecidableEq C] {s : Sys C} {c : C}

/-- Before a scan, the draw is one for the total. -/
theorem canDraw_of_lock {es : List (Event C)} (h : runs step (Sys.boot C) es = some s) (c : C)
    {total w : Int32} (hc : s.cpu c = .lock total w) : CanDraw total w := by
  refine runs_inv_all (I := fun s => ∀ total w, s.cpu c = .lock total w → CanDraw total w)
    ?_ ?_ h total w hc
  · intro s e s' hs he total w hc
    rcases step_cpu he c with h₁ | h₁
    · exact hs total w (h₁ ▸ hc)
    · rw [hc] at h₁
      generalize s.cpu c = pc at h₁
      cases h₁ with
      | drawn hd => exact hd
  · intro total w hc
    cases hc

/-- A CPU about to halt scanned before, and found nothing. -/
theorem exists_scan_of_top_false {es : List (Event C)} (h : runs step (Sys.boot C) es = some s)
    (hc : s.cpu c = .top false) :
    ∃ es₁ es₂ s₁ total w, es = es₁ ++ .scan c :: es₂ ∧ (∀ e ∈ es₂, e ≠ .scan c) ∧
      runs step (Sys.boot C) es₁ = some s₁ ∧ s₁.cpu c = .lock total w ∧ scan s₁.proc w = none := by
  induction es using List.reverseRecOn generalizing s with
  | nil =>
      cases h
      cases hc
  | append_singleton es e ih =>
      obtain ⟨s₀, h₀, he⟩ := runs_snoc.mp h
      rcases step_cpu he c with h₁ | h₁
      · -- the CPU stood there before: its last scan is an earlier one
        have hne : e ≠ .scan c := by
          rintro rfl
          rw [hc] at h₁
          simp [step, ← h₁] at he
        obtain ⟨es₁, es₂, s₁, total, w, rfl, hes₂, hrest⟩ := ih h₀ (h₁ ▸ hc)
        refine ⟨es₁, es₂ ++ [e], s₁, total, w, by simp, fun e' he' => ?_, hrest⟩
        rcases List.mem_append.mp he' with he' | he'
        · exact hes₂ e' he'
        · rw [List.mem_singleton.mp he']
          exact hne
      · rw [hc] at h₁
        obtain ⟨total, w, rfl, hpc, hs⟩ : ∃ total w, e = .scan c ∧ s₀.cpu c = .lock total w ∧
            scan s₀.proc w = none := by
          generalize s₀.cpu c = pc at h₁
          cases h₁ with
          | idle hs => exact ⟨_, _, rfl, rfl, hs⟩
        exact ⟨es, [], s₀, total, w, rfl, by simp, h₀, hpc, hs⟩

/-- **The race of the tally and the scan.**  Before every scan of every run, the scan finds a
runnable process on every draw, if there is one, exactly when the table it runs on covers the
total that was tallied.  A CPU that halts after such a scan saw no runnable process. -/
theorem scan_finds_iff {es : List (Event C)} (h : runs step (Sys.boot C) es = some s) (c : C) :
    (∀ total w, s.cpu c = .lock total w → (Finds s.proc total ↔ Covers s.proc total)) ∧
      (s.cpu c = .top false →
        ∃ es₁ es₂ s₁ total w, es = es₁ ++ .scan c :: es₂ ∧ (∀ e ∈ es₂, e ≠ .scan c) ∧
          runs step (Sys.boot C) es₁ = some s₁ ∧ s₁.cpu c = .lock total w ∧
          (Covers s₁.proc total → ∀ p, (s₁.proc p).state ≠ .runnable)) := by
  refine ⟨fun total w hc => ?_, fun hc => ?_⟩
  · exact finds_iff_covers (nonneg_of_canDraw (canDraw_of_lock h c hc))
  · obtain ⟨es₁, es₂, s₁, total, w, hes, hes₂, hr, hc₁, hs⟩ := exists_scan_of_top_false h hc
    refine ⟨es₁, es₂, s₁, total, w, hes, hes₂, hr, hc₁, fun hcov p hp => ?_⟩
    have hdraw := canDraw_of_lock hr c hc₁
    obtain ⟨q, hq, -⟩ := (finds_iff_covers (nonneg_of_canDraw hdraw)).mpr hcov w hdraw ⟨p, hp⟩
    rw [hs] at hq
    cases hq

/-- One process alone: its 20 tickets cover the total of 20, so every draw finds it. -/
theorem solo_scan_finds :
    ∃ (es : List (Event Unit)) (s : Sys Unit), runs step (Sys.boot Unit) es = some s ∧
      s.cpu () = .lock 20 20 ∧ Finds s.proc 20 := by
  obtain ⟨s, hr, hs⟩ := exists_allReady () (Set.mem_singleton defaultTickets) 0
  obtain ⟨fp, hc⟩ := hs.cpu
  have htot : totalTickets s.proc = 20 := by
    rw [hs.totalTickets_eq, Fin.val_zero, tallyUpTo_zero]
    decide
  have hdraw : CanDraw (totalTickets s.proc) 20 := by
    rw [htot]
    exact (canDraw_iff (by decide) 20).mpr (by decide)
  obtain ⟨es, -, hes⟩ := hr.trans (reaches_lock hc hdraw)
  rw [htot] at hes
  refine ⟨es, _, hes, Sys.setCpu_cpu_self, ?_⟩
  refine ((scan_finds_iff hes ()).1 20 20 Sys.setCpu_cpu_self).mpr fun _ => ⟨0, ?_, ?_⟩
  · exact (hs.ready 0 le_rfl).1
  · have h₁ := hs.tallyUpTo_eq (i := 1) (by decide) Nat.zero_lt_one
    rw [Sys.setCpu_proc, Fin.val_zero, h₁, Fin.val_zero, tallyUpTo_zero]
    decide

/-- Two processes of 20 tickets each.  CPU `false` tallies 40 and draws 40; before it scans, CPU
`true` picks slot 0.  The scan then counts to 20 at the runnable slot 1, finds nothing, and CPU
`false` goes on to `hlt`. -/
theorem hlt_with_runnable :
    ∃ (es : List (Event Bool)) (s₁ s : Sys Bool), (∀ e ∈ es, ArgIn {20} e) ∧
      runs step (Sys.boot Bool) es = some s₁ ∧ s₁.cpu false = .lock 40 40 ∧
      (s₁.proc 1).state = .runnable ∧ step s₁ (.scan false) = some s ∧
      s.cpu false = .top false := by
  obtain ⟨s, hr, hs⟩ := exists_allReady (S := {20}) false (Set.mem_singleton defaultTickets) 1
  obtain ⟨fp, hc⟩ := hs.cpu
  have hr₀ := hs.ready 0 (Nat.zero_le _)
  have hr₁ := hs.ready 1 le_rfl
  have hone : ((1 : Slot) : Nat) = 1 := rfl
  have htot : totalTickets s.proc = 40 := by
    have h := tallyUpTo_slot s.proc 0
    rw [if_pos hr₀.1, hr₀.2, Fin.val_zero, tallyUpTo_zero] at h
    rw [hs.totalTickets_eq, hone, h]
    decide
  have hdraw : ∀ w : Int32, 0 ≤ w.toInt ∧ w.toInt ≤ 40 → CanDraw 40 w :=
    fun w hw => (canDraw_iff (by decide) w).mpr hw
  -- CPU `false` gets to its scan, and CPU `true` picks slot 0
  have hlock := reaches_lock (S := {20}) hc (htot ▸ hdraw 40 (by decide))
  have hpick := reaches_picked (S := {20}) (c := true) (p := 0) (w := 0)
    (s := s.setCpu false (.lock 40 40)) (by
      rw [Sys.setCpu_cpu_of_ne (by decide)]
      exact hs.idle true (by decide))
    (by rw [Sys.setCpu_proc, htot]; exact hdraw 0 (by decide))
    (scan_eq_zero hr₀.1 (by rw [Sys.setCpu_proc, hr₀.2]; decide))
  rw [htot] at hlock
  obtain ⟨es, he, hes⟩ := hr.trans (hlock.trans hpick)
  obtain ⟨s₁, hs₁⟩ : ∃ s₁, s₁ =
      ((s.setCpu false (.lock 40 40)).setProc 0 Proc.chosen).setCpu true (.running 0) := ⟨_, rfl⟩
  have hp₀ : (s₁.proc 0).state ≠ .runnable := by simp [hs₁, Proc.chosen]
  have hp₁ : ∀ p, p ≠ 0 → s₁.proc p = s.proc p := fun p hp => by
    rw [hs₁, Sys.setCpu_proc, Sys.setProc_proc_of_ne hp, Sys.setCpu_proc]
  have hc₁ : s₁.cpu false = .lock 40 40 := by simp [hs₁, Sys.setCpu]
  have hr₁' : (s₁.proc 1).state = .runnable := by rw [hp₁ 1 (by decide)]; exact hr₁.1
  -- what CPU `false` counts at slot 1, the only runnable one
  have hcount : tallyUpTo s₁.proc ((1 : Slot) + 1) = 20 := by
    have h := tallyUpTo_slot s₁.proc 0
    rw [if_neg hp₀, Fin.val_zero, tallyUpTo_zero] at h
    rw [tallyUpTo_slot, if_pos hr₁', hp₁ 1 (by decide), hr₁.2, hone, h]
    decide
  have hnone : scan s₁.proc 40 = none := by
    refine scan_eq_none_iff.mpr fun p hp => ?_
    obtain rfl : p = 1 := by
      by_contra hne
      have h0 : p ≠ 0 := by rintro rfl; exact hp₀ hp
      have h0' : (p : Nat) ≠ 0 := fun h => h0 (Fin.ext h)
      have hne' : (p : Nat) ≠ 1 := fun h => hne (Fin.ext h)
      exact hs.others p (by rw [hone]; omega) (hp₁ p h0 ▸ hp)
    rw [hcount]
    decide
  refine ⟨es, s₁, s₁.setCpu false (.top false), he, hs₁ ▸ hes, hc₁, hr₁', ?_,
    Sys.setCpu_cpu_self⟩
  simp only [step, hc₁, hnone]

end Xv6.Sched
