import Xv6.Sched.Paths

/-!
# Sched — how many tickets a process may ask for

`sys_settickets` stores any `int`; `random_at_most` assumes `0 <= max <= RAND_MAX`.  The total
passed to it is an `int` sum over up to `NPROC` slots, read without a lock.

`PassSafe` is what a pass of `scheduler()` needs: no addition of the tally overflows or goes
negative, and the total it ends with meets the assumption, so that `random_at_most` has a bin, a
positive bin size and a value it accepts.  It holds in every state of every run whose `settickets`
arguments lie in `[0, RAND_MAX / NPROC]` (`ticketsOk_run`), and that range is exact: whatever set
of arguments is allowed, all runs are safe precisely when it lies in the range (`passSafe_iff`).
-/

namespace Xv6.Sched
open Lib Xv6.Rand

/-- `RAND_MAX / NPROC`. -/
def ticketCap : ℤ := randMax.toNat / nproc

theorem ticketCap_eq : ticketCap = 33554431 := by decide

/-- What the tally and the draw of a CPU need of their current operands. -/
def PcSafe (t : Table) : Pc → Prop
  | .add p total => 0 ≤ total.toInt + tickets t p ∧ total.toInt + tickets t p < 2 ^ 31
  | .draw total =>
      0 ≤ total.toInt ∧ total.toInt ≤ randMax.toNat ∧ numBins total ≠ 0 ∧ binSize total ≠ 0 ∧
        ∃ x ≤ randMax, accepts total x = true
  | _ => True

/-- Every pass of `scheduler()` in progress is safe. -/
def PassSafe {C : Type} (s : Sys C) : Prop := ∀ c, PcSafe s.proc (s.cpu c)

/-! ### Arguments in range keep every pass safe -/

/-- The partial total of a CPU is within what the slots behind it can hold. -/
def PcOk : Pc → Prop
  | .tally i total => i ≤ nproc ∧ 0 ≤ total.toInt ∧ total.toInt ≤ i * ticketCap
  | .add p total => 0 ≤ total.toInt ∧ total.toInt ≤ p * ticketCap
  | .draw total => 0 ≤ total.toInt
  | _ => True

/-- Every slot holds at most `RAND_MAX / NPROC` tickets, and every tally agrees with that. -/
structure TicketsOk {C : Type} (s : Sys C) : Prop where
  slots : ∀ p, 0 ≤ tickets s.proc p ∧ tickets s.proc p ≤ ticketCap
  cpus : ∀ c, PcOk (s.cpu c)

/-- The arguments in `[0, RAND_MAX / NPROC]`. -/
def capped : Set Int32 := {n | 0 ≤ n.toInt ∧ n.toInt ≤ ticketCap}

theorem TicketsOk.boot (C : Type) : TicketsOk (Sys.boot C) where
  slots _ := by
    rw [ticketCap_eq]
    show (0 : ℤ) ≤ (0 : Int32).toInt ∧ (0 : Int32).toInt ≤ 33554431
    decide
  cpus _ := trivial

/-- A move of `scheduler()` keeps its partial total within bounds. -/
theorem Moves.pcOk {C : Type} {s : Sys C} {c : C} {e : Event C} {a b : Pc} (hm : Moves s c e a b)
    (hs : TicketsOk s) (ha : PcOk a) : PcOk b := by
  simp only [PcOk, ticketCap_eq] at *
  cases hm with
  | enter fp => exact ⟨Nat.zero_le _, by decide, by decide⟩
  | found h hr => exact ha.2
  | skip h =>
      obtain ⟨-, h₀, h₁⟩ := ha
      exact ⟨h, h₀, by push_cast; omega⟩
  | tallied h => exact ha.2.1
  | added p total =>
      obtain ⟨h₀, h₁⟩ := ha
      obtain ⟨hp₀, hp₁⟩ := hs.slots p
      rw [ticketCap_eq] at hp₁
      have hp : (p : Nat) < 64 := p.isLt
      have hadd : (total + (s.proc p).tickets).toInt = total.toInt + tickets s.proc p :=
        toInt_add_of_lt (by unfold tickets at *; omega) (by unfold tickets at *; omega)
      exact ⟨p.isLt, by omega, by push_cast; omega⟩
  | drawn h => trivial
  | idle h => trivial
  | picked h => trivial
  | left p => trivial

theorem TicketsOk.step {C : Type} [DecidableEq C] {s s' : Sys C} {e : Event C}
    (hs : TicketsOk s) (he : ArgIn capped e) (h : step s e = some s') : TicketsOk s' where
  slots p := by
    rcases step_tickets h p with h₁ | h₁ | ⟨c, n, rfl, h₁⟩
    · have := hs.slots p
      unfold tickets at *
      rwa [h₁]
    · unfold tickets
      rw [h₁, ticketCap_eq]
      exact ⟨by decide, by decide⟩
    · unfold tickets
      rw [h₁]
      exact he
  cpus c := by
    rcases step_cpu h c with h₁ | h₁
    · rw [h₁]; exact hs.cpus c
    · exact h₁.pcOk hs (hs.cpus c)

theorem TicketsOk.passSafe {C : Type} {s : Sys C} (hs : TicketsOk s) : PassSafe s := by
  intro c
  have hc := hs.cpus c
  cases hpc : s.cpu c with
  | add p total =>
      rw [hpc] at hc
      obtain ⟨h₀, h₁⟩ := hc
      obtain ⟨hp₀, hp₁⟩ := hs.slots p
      have hp : (p : Nat) < 64 := p.isLt
      rw [ticketCap_eq] at h₁ hp₁
      exact ⟨by omega, by omega⟩
  | draw total =>
      rw [hpc] at hc
      have hlt := total.toInt_lt
      refine ⟨hc, ?_, numBins_ne_zero hc, binSize_ne_zero hc, 0, ?_, accepts_zero hc⟩
      · show total.toInt ≤ 2147483647
        omega
      · rw [UInt32.le_iff_toNat_le]
        exact Nat.zero_le _
  | top fp => trivial
  | tally i total => trivial
  | lock total w => trivial
  | running p => trivial

/-- **Every run with arguments in range is safe in every state it reaches.** -/
theorem ticketsOk_run {C : Type} [DecidableEq C] {es : List (Event C)} {s : Sys C}
    (he : ∀ e ∈ es, ArgIn capped e) (h : runs step (Sys.boot C) es = some s) : PassSafe s :=
  (runs_inv (fun _ _ _ hs he h => hs.step he h) (TicketsOk.boot C) he h).passSafe

/-! ### Runs to an unsafe pass -/

/-- **The pass fails at slot `j`**, whose tickets make the total leave the range of `int`. -/
theorem exists_unsafe {C : Type} [DecidableEq C] {S : Set Int32} {n : Int32} (c : C) (hn : n ∈ S) (j : Slot)
    (hlow : ∀ k : Nat, k ≤ j → 0 ≤ k * n.toInt ∧ k * n.toInt < 2 ^ 31)
    (hhigh : ((j : ℕ) + 1) * n.toInt < 0 ∨ 2 ^ 31 ≤ ((j : ℕ) + 1) * n.toInt) :
    ∃ s', Reaches S (Sys.boot C) s' ∧ ¬ PassSafe s' := by
  obtain ⟨s, hr, hs⟩ := exists_allReady c hn j
  obtain ⟨fp, hc⟩ := hs.cpu
  have hrun := (hs.ready j le_rfl).1
  have henter : Reaches S s (s.setCpu c (.tally 0 0)) :=
    .one (e := .enter c) trivial (by simp only [step, hc])
  have hfound : Reaches S (s.setCpu c (.tally j (tallyUpTo s.proc j)))
      (s.setCpu c (.add j (tallyUpTo s.proc j))) :=
    .one (e := .tally c) trivial (by simp [step, hrun, setCpu_setCpu])
  refine ⟨_, hr.trans (henter.trans ((reaches_tally j.isLt.le).trans hfound)), ?_⟩
  intro hsafe
  have h := hsafe c
  rw [Sys.setCpu_cpu_self, Sys.setCpu_proc] at h
  obtain ⟨h₀, h₁⟩ := h
  rw [hs.toInt_tallyUpTo le_rfl hlow, tickets, (hs.ready j le_rfl).2] at h₀ h₁
  rw [add_mul, one_mul] at hhigh
  omega

/-- **Exactly the arguments in `[0, RAND_MAX / NPROC]` are safe.**  Whatever set `S` of arguments
`settickets` is called with, every state of every run has only safe passes precisely when `S`
lies in that range. -/
theorem passSafe_iff {C : Type} [DecidableEq C] (c : C) (S : Set Int32) :
    (∀ (es : List (Event C)) (s : Sys C), (∀ e ∈ es, ArgIn S e) →
      runs step (Sys.boot C) es = some s → PassSafe s) ↔
    ∀ n ∈ S, 0 ≤ n.toInt ∧ n.toInt ≤ randMax.toNat / nproc := by
  constructor
  · intro hall n hn
    by_contra hbad
    have hcap : (randMax.toNat : ℤ) / nproc = 33554431 := ticketCap_eq
    rw [hcap] at hbad
    suffices h : ∃ s', Reaches S (Sys.boot C) s' ∧ ¬ PassSafe s' by
      obtain ⟨s', ⟨es, he, hr⟩, hs'⟩ := h
      exact hs' (hall es s' he hr)
    have hn₁ := n.toInt_lt
    by_cases hneg : n.toInt < 0
    · refine exists_unsafe c hn 0 (fun k hk => ?_) (Or.inl (by simpa using hneg))
      obtain rfl : k = 0 := Nat.le_zero.mp hk
      simp
    · -- `j` processes fit and `j + 1` do not
      obtain ⟨m, hm⟩ := Int.eq_ofNat_of_zero_le (not_lt.mp hneg)
      have hj : 2147483647 / m < nproc := by
        rw [Nat.div_lt_iff_lt_mul (by omega)]
        unfold nproc
        omega
      refine exists_unsafe c hn ⟨_, hj⟩ (fun k hk => ?_) (Or.inr ?_)
      · have : k * m ≤ 2147483647 :=
          (Nat.mul_le_mul_right _ hk).trans (Nat.div_mul_le_self 2147483647 m)
        rw [hm]
        exact ⟨by positivity, by exact_mod_cast Nat.lt_succ_of_le this⟩
      · have := @Nat.lt_div_mul_add 2147483647 m (by omega)
        rw [hm, add_mul, one_mul]
        exact_mod_cast Nat.succ_le_of_lt this
  · intro hS es s he hr
    refine ticketsOk_run (fun e h => ?_) hr
    have := he e h
    cases e with
    | settickets c arg =>
        cases arg with
        | none => trivial
        | some n => exact hS n this
    | _ => trivial

/-- After `settickets(-1)` by the only process, the total is `-1`; `random_at_most` computes a
number of bins of `0` and divides by it. -/
theorem settickets_minus_one :
    ∃ (es : List (Event Unit)) (s : Sys Unit), (∀ e ∈ es, ArgIn {-1} e) ∧
      runs step (Sys.boot Unit) es = some s ∧ s.cpu () = .draw (-1) ∧ ¬ PassSafe s ∧
      ∀ raws, randomAtMost (-1) raws = .divideError := by
  obtain ⟨s₁, hr₁, hs₁⟩ := exists_allReady () (Set.mem_singleton (-1 : Int32)) 0
  obtain ⟨fp, hc⟩ := hs₁.cpu
  have htot : totalTickets s₁.proc = -1 := by
    rw [hs₁.totalTickets_eq, Fin.val_zero, tallyUpTo_zero]
    decide
  obtain ⟨es, he, hr⟩ := hr₁.trans (reaches_draw hc)
  rw [htot] at hr
  have hbins : numBins (-1) = 0 := by decide
  refine ⟨es, _, he, hr, Sys.setCpu_cpu_self, fun hsafe => ?_, fun raws => by
    simp [randomAtMost, hbins]⟩
  have h := hsafe ()
  rw [Sys.setCpu_cpu_self] at h
  exact absurd h.1 (by decide)

end Xv6.Sched
