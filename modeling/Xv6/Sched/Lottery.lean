import Xv6.Lib.Lottery
import Xv6.Sched.Machine

/-!
# Sched — who wins the lottery

The draw, the tally and the scan on one table, with no CPU changing it in between.  While the
tickets of the runnable slots are non-negative and their sum is below `2 ^ 31`, the tally is that
sum (`toInt_totalTickets`), and the scan is a draw by running sums over the runnable slots in
table order (`scan_eq_pickAt`).

`random_at_most(T)` returns one of the `T + 1` integers of `[0, T]`, and the scan gives the draws
`0` and `1, …, t` to the first runnable slot: one more than its `t` tickets.  Every other slot
gets as many draws as it has tickets (`ncard_picks`).  So shares are `(t + 1) / (T + 1)` for the
first runnable slot and `t / (T + 1)` for the others, and they are the lottery's `t / T` only when
the first runnable slot holds every ticket (`fair_iff`).
-/

namespace Xv6.Sched
open Lib Xv6.Rand

/-- The runnable slots, in table order. -/
def runnables (t : Table) : List Slot :=
  (List.finRange nproc).filter fun p => decide ((t p).state = .runnable)

/-- The tickets of a slot, as an integer. -/
def tickets (t : Table) (p : Slot) : ℤ := (t p).tickets.toInt

/-- The exact sum of the runnable slots' tickets. -/
def ticketSum (t : Table) : ℤ := ((runnables t).map (tickets t)).sum

/-- No runnable slot holds a negative number of tickets. -/
def NonnegTickets (t : Table) : Prop := ∀ p, (t p).state = .runnable → 0 ≤ tickets t p

theorem mem_runnables {t : Table} {p : Slot} : p ∈ runnables t ↔ (t p).state = .runnable := by
  simp [runnables]

theorem nodup_runnables (t : Table) : (runnables t).Nodup := (List.nodup_finRange _).filter _

/-! ### The tally and the scan, over the integers -/

theorem toInt_add_of_lt {a b : Int32} (h₁ : -2 ^ 31 ≤ a.toInt + b.toInt)
    (h₂ : a.toInt + b.toInt < 2 ^ 31) : (a + b).toInt = a.toInt + b.toInt := by
  rw [Int32.toInt_add]
  exact Int.bmod_eq_of_le (by omega) (by omega)

section Slots

variable {t : Table} (hnn : NonnegTickets t)

include hnn

theorem sum_tickets_nonneg (ps : List Slot) :
    0 ≤ ((ps.filter fun p => decide ((t p).state = .runnable)).map (tickets t)).sum := by
  refine List.sum_nonneg fun x hx => ?_
  obtain ⟨p, hp, rfl⟩ := List.mem_map.mp hx
  exact hnn p (by simpa using (List.mem_filter.mp hp).2)

/-- The scan's wrapping count is the integer sum while that stays below `2 ^ 31`. -/
theorem scanFrom_eq_pickAt (w : Int32) (ps : List Slot) (count : Int32) (h0 : 0 ≤ count.toInt)
    (hlt : count.toInt +
      ((ps.filter fun p => decide ((t p).state = .runnable)).map (tickets t)).sum < 2 ^ 31) :
    scanFrom t w ps count =
      pickAt (tickets t) (ps.filter fun p => decide ((t p).state = .runnable)) count.toInt
        w.toInt := by
  induction ps generalizing count with
  | nil => rfl
  | cons p ps ih =>
      by_cases hp : (t p).state = .runnable
      · have hp0 := hnn p hp
        have hs := sum_tickets_nonneg hnn ps
        simp only [List.filter_cons, hp, decide_true, if_true, List.map_cons, List.sum_cons] at hlt ⊢
        have hadd : (count + (t p).tickets).toInt = count.toInt + tickets t p :=
          toInt_add_of_lt (by unfold tickets at hp0; omega) (by unfold tickets at *; omega)
        simp only [scanFrom, pickAt, hp, ne_eq, not_true_eq_false, if_false,
          Int32.lt_iff_toInt_lt, hadd]
        rw [ih (count + (t p).tickets) (by omega) (by omega), hadd]
      · simp only [List.filter_cons, hp, decide_false, Bool.false_eq_true, if_false] at hlt ⊢
        simp only [scanFrom, hp, ne_eq, not_false_eq_true, if_true]
        exact ih count h0 hlt

theorem scan_eq_pickAt (hlt : ticketSum t < 2 ^ 31) (w : Int32) :
    scan t w = pickAt (tickets t) (runnables t) 0 w.toInt :=
  scanFrom_eq_pickAt hnn w (List.finRange nproc) 0 (by simp)
    (by simpa [ticketSum, runnables] using hlt)

/-- The tally's loop adds the exact sum of the slots ahead. -/
theorem toInt_foldl_tally (ps : List Slot) (total : Int32) (h0 : 0 ≤ total.toInt)
    (hlt : total.toInt +
      ((ps.filter fun p => decide ((t p).state = .runnable)).map (tickets t)).sum < 2 ^ 31) :
    (ps.foldl (fun total p => if (t p).state = .runnable then total + (t p).tickets else total)
      total).toInt =
      total.toInt + ((ps.filter fun p => decide ((t p).state = .runnable)).map (tickets t)).sum := by
  induction ps generalizing total with
  | nil => simp
  | cons p ps ih =>
      by_cases hp : (t p).state = .runnable
      · have hp0 := hnn p hp
        have hs := sum_tickets_nonneg hnn ps
        simp only [List.filter_cons, hp, decide_true, if_true, List.map_cons, List.sum_cons,
          List.foldl_cons] at hlt ⊢
        have hadd : (total + (t p).tickets).toInt = total.toInt + tickets t p :=
          toInt_add_of_lt (by unfold tickets at hp0; omega) (by unfold tickets at *; omega)
        rw [ih _ (by omega) (by omega), hadd, add_assoc]
      · simp only [List.filter_cons, hp, decide_false, Bool.false_eq_true, if_false,
          List.foldl_cons] at hlt ⊢
        exact ih total h0 hlt

/-- The tally is the exact sum while that stays below `2 ^ 31`. -/
theorem toInt_totalTickets (hlt : ticketSum t < 2 ^ 31) :
    (totalTickets t).toInt = ticketSum t := by
  have h := toInt_foldl_tally hnn (List.finRange nproc) 0 (by simp)
    (by simpa [ticketSum, runnables] using hlt)
  rw [totalTickets, h, ticketSum, runnables]
  simp

end Slots

/-! ### Counting draws -/

/-- The draws of `random_at_most(total)`. -/
def draws (total : Int32) : Set Int32 := {w | CanDraw total w}

/-- The draws on which the scan of `t` picks `p`. -/
def picks (t : Table) (p : Slot) : Set Int32 := {w ∈ draws (totalTickets t) | scan t w = some p}

/-- A set of draws described by an integer property has as many members as `[0, total]` has
integers with it. -/
theorem ncard_draws {total : Int32} (h0 : 0 ≤ total.toInt) (Q : ℤ → Prop) [DecidablePred Q] :
    {w ∈ draws total | Q w.toInt}.ncard = ((Finset.Icc 0 total.toInt).filter Q).card := by
  have himg : Int32.toInt '' {w ∈ draws total | Q w.toInt} =
      ((Finset.Icc 0 total.toInt).filter Q : Finset ℤ) := by
    ext z
    simp only [Set.mem_image, Set.mem_ofPred_eq, draws, canDraw_iff h0, Finset.coe_filter,
      Finset.mem_Icc]
    constructor
    · rintro ⟨w, ⟨hw, hQ⟩, rfl⟩
      exact ⟨hw, hQ⟩
    · rintro ⟨hz, hQ⟩
      have hlt := total.toInt_lt
      have hw : (Int32.ofInt z).toInt = z := Int32.toInt_ofInt_of_le (by omega) (by omega)
      exact ⟨Int32.ofInt z, by rw [hw]; exact ⟨hz, hQ⟩, hw⟩
  rw [← Set.ncard_image_of_injective _ (fun _ _ => Int32.toInt.inj), himg, Set.ncard_coe_finset]

section Counts

variable {t : Table} (hnn : NonnegTickets t) (hlt : ticketSum t < 2 ^ 31)

include hnn hlt

/-- There is one more draw than there are tickets. -/
theorem ncard_draws_total : ((draws (totalTickets t)).ncard : ℤ) = ticketSum t + 1 := by
  have h0 : 0 ≤ ticketSum t := sum_tickets_nonneg hnn _
  have h := @ncard_draws (totalTickets t) (by rw [toInt_totalTickets hnn hlt]; exact h0)
    (fun _ => True) _
  simp only [and_true, Set.ofPred_mem_eq, Finset.filter_true, Int.card_Icc,
    toInt_totalTickets hnn hlt] at h
  rw [h]
  omega

/-- **The draws that pick a slot.**  As many as its tickets, and one more for the first runnable
slot. -/
theorem ncard_picks {p : Slot} (hp : (t p).state = .runnable) :
    ((picks t p).ncard : ℤ) = tickets t p + if (runnables t).head? = some p then 1 else 0 := by
  have h0 : 0 ≤ ticketSum t := sum_tickets_nonneg hnn _
  have hT := toInt_totalTickets hnn hlt
  have hpicks : picks t p = {w ∈ draws (totalTickets t) |
      pickAt (tickets t) (runnables t) 0 w.toInt = some p} := by
    ext w
    simp only [picks, Set.mem_ofPred_eq, scan_eq_pickAt hnn hlt]
  rw [hpicks, ncard_draws (by rw [hT]; exact h0)
    (fun z => pickAt (tickets t) (runnables t) 0 z = some p), hT]
  -- the draw `0` is the one draw outside `(0, T]`
  rw [← Finset.Ioc_insert_left h0, Finset.filter_insert]
  have hcard := card_pickAt 0 (fun q hq => hnn q (mem_runnables.mp hq)) (nodup_runnables t)
    (mem_runnables.mpr hp)
  rw [zero_add] at hcard
  have hzero : pickAt (tickets t) (runnables t) 0 0 = (runnables t).head? := by
    cases hr : runnables t with
    | nil => rfl
    | cons a as =>
        have ha : (t a).state = .runnable := mem_runnables.mp (by rw [hr]; exact List.mem_cons_self)
        exact pickAt_head (hnn a ha) le_rfl
  rw [hzero]
  split
  · rw [Finset.card_insert_of_notMem (by simp)]
    push_cast
    rw [← hcard]
    rfl
  · rw [add_zero, ← hcard]
    rfl

end Counts

/-! ### Proportional shares -/

/-- The lottery is fair on `t`: over all draws, each runnable slot wins in proportion to its
tickets; and a runnable slot without tickets never wins while another has some. -/
def Fair (t : Table) : Prop :=
  (∀ p, (t p).state = .runnable →
    ((picks t p).ncard : ℚ) / (draws (totalTickets t)).ncard = tickets t p / ticketSum t) ∧
  ∀ p q, (t p).state = .runnable → tickets t p = 0 → (t q).state = .runnable → 0 < tickets t q →
    ∀ w ∈ draws (totalTickets t), scan t w ≠ some p

/-- A slot other than the first holds nothing when the first holds everything. -/
theorem tickets_eq_zero_of_head {t : Table} (hnn : NonnegTickets t) {a p : Slot}
    (ha : (runnables t).head? = some a) (hall : tickets t a = ticketSum t)
    (hp : (t p).state = .runnable) (hne : p ≠ a) : tickets t p = 0 := by
  cases hr : runnables t with
  | nil => rw [hr] at ha; cases ha
  | cons b bs =>
      rw [hr, List.head?_cons] at ha
      obtain rfl := Option.some.inj ha
      have hpb : p ∈ bs := by
        have := mem_runnables.mpr hp
        rw [hr] at this
        exact (List.mem_cons.mp this).resolve_left hne
      have hle : tickets t p ≤ (bs.map (tickets t)).sum :=
        List.single_le_sum (fun x hx => by
          obtain ⟨q, hq, rfl⟩ := List.mem_map.mp hx
          exact hnn q (mem_runnables.mp (by rw [hr]; exact List.mem_cons_of_mem _ hq))) _
          (List.mem_map_of_mem hpb)
      have h0 := hnn p hp
      rw [ticketSum, hr, List.map_cons, List.sum_cons] at hall
      omega

/-- A slot that wins no draw is never picked. -/
theorem scan_ne_of_ncard_picks {t : Table} (h0 : 0 ≤ (totalTickets t).toInt) {p : Slot}
    (h : (picks t p).ncard = 0) {w : Int32} (hw : w ∈ draws (totalTickets t)) :
    scan t w ≠ some p := by
  intro hs
  have hfin : (draws (totalTickets t)).Finite := by
    refine Set.Finite.of_finite_image (f := Int32.toInt)
      ((Set.finite_Icc 0 (totalTickets t).toInt).subset ?_) (fun _ _ _ _ => Int32.toInt.inj)
    rintro z ⟨w, hw, rfl⟩
    exact (canDraw_iff h0 w).mp hw
  have hempty := (Set.ncard_eq_zero (hfin.subset (Set.sep_subset _ _))).mp h
  exact Set.notMem_empty w (hempty ▸ ⟨hw, hs⟩)

/-- **When the lottery is fair.**  On a table whose runnable slots hold non-negative tickets with
sum `T`, `0 < T < 2 ^ 31 - 1`, the shares of the draws are those of the tickets exactly when the
first runnable slot holds all `T` of them. -/
theorem fair_iff {t : Table} (hnn : NonnegTickets t) (hpos : 0 < ticketSum t)
    (hlt : ticketSum t < 2 ^ 31 - 1) :
    Fair t ↔ ∀ a, (runnables t).head? = some a → tickets t a = ticketSum t := by
  have hlt' : ticketSum t < 2 ^ 31 := by omega
  have hT := toInt_totalTickets hnn hlt'
  have hD : ((draws (totalTickets t)).ncard : ℚ) = ticketSum t + 1 := by
    exact_mod_cast ncard_draws_total hnn hlt'
  have hTQ : (0 : ℚ) < ticketSum t := by exact_mod_cast hpos
  constructor
  · rintro ⟨hshare, -⟩ a ha
    have har : (t a).state = .runnable := mem_runnables.mp (List.mem_of_mem_head? ha)
    have hcount : ((picks t a).ncard : ℚ) = tickets t a + 1 := by
      have := ncard_picks hnn hlt' har
      rw [if_pos ha] at this
      exact_mod_cast this
    have h := hshare a har
    rw [hcount, hD, div_eq_div_iff (by positivity) (by positivity)] at h
    have : (tickets t a : ℚ) = ticketSum t := by linarith
    exact_mod_cast this
  · intro hall
    have hshare : ∀ p, (t p).state = .runnable →
        ((picks t p).ncard : ℚ) / (draws (totalTickets t)).ncard =
          tickets t p / ticketSum t := by
      intro p hp
      have hcount := ncard_picks hnn hlt' hp
      by_cases hph : (runnables t).head? = some p
      · rw [if_pos hph, hall p hph] at hcount
        have hcountQ : ((picks t p).ncard : ℚ) = ticketSum t + 1 := by exact_mod_cast hcount
        rw [hcountQ, hD, hall p hph, div_self (by positivity), div_self (by positivity)]
      · obtain ⟨a, ha⟩ : ∃ a, (runnables t).head? = some a := by
          cases hr : runnables t with
          | nil => exact absurd (mem_runnables.mpr hp) (by rw [hr]; exact List.not_mem_nil)
          | cons a as => exact ⟨a, rfl⟩
        have hz := tickets_eq_zero_of_head hnn ha (hall a ha) hp (fun e => hph (e ▸ ha))
        rw [if_neg hph, hz] at hcount
        have hcountQ : ((picks t p).ncard : ℚ) = 0 := by exact_mod_cast hcount
        rw [hcountQ, hz]
        simp
    refine ⟨hshare, fun p q hp hp0 _ _ w hw => ?_⟩
    refine scan_ne_of_ncard_picks (by omega) ?_ hw
    have h := hshare p hp
    rw [hp0, hD, Int.cast_zero, zero_div, div_eq_zero_iff] at h
    rcases h with h | h
    · exact_mod_cast h
    · exact absurd h (by positivity)

/-! ### Two processes with the tickets of the source's own test -/

/-- `lotterytest.c`'s processes, with 80 and 20 tickets, and a third without tickets ahead of
them. -/
def testTable : Table := fun p =>
  if p = 0 then { Proc.zero with state := .runnable, tickets := 0 }
  else if p = 1 then { Proc.zero with state := .runnable, tickets := 80 }
  else if p = 2 then { Proc.zero with state := .runnable, tickets := 20 }
  else .zero

theorem testTable_nonneg : NonnegTickets testTable := by
  unfold NonnegTickets; decide

theorem testTable_sum : ticketSum testTable = 100 := by decide

/-- The slot without tickets wins one draw of the `101`. -/
theorem testTable_not_fair :
    NonnegTickets testTable ∧ ticketSum testTable = 100 ∧ ¬ Fair testTable := by
  refine ⟨testTable_nonneg, testTable_sum, fun h => ?_⟩
  have h0 : (totalTickets testTable).toInt = 100 :=
    (toInt_totalTickets testTable_nonneg (by rw [testTable_sum]; decide)).trans testTable_sum
  refine h.2 0 1 (by decide) (by decide) (by decide) (by decide) 0 ?_ (by decide)
  exact (canDraw_iff (by omega) 0).mpr (by rw [h0]; decide)

/-- A table with one runnable process. -/
def soloTable : Table := fun p =>
  if p = 5 then { Proc.zero with state := .runnable, tickets := 20 } else .zero

theorem soloTable_fair : NonnegTickets soloTable ∧ 0 < ticketSum soloTable ∧ Fair soloTable := by
  have hnn : NonnegTickets soloTable := by unfold NonnegTickets; decide
  have hsum : ticketSum soloTable = 20 := by decide
  refine ⟨hnn, by rw [hsum]; decide, ?_⟩
  refine (fair_iff hnn (by rw [hsum]; decide) (by rw [hsum]; decide)).mpr fun a ha => ?_
  have : (runnables soloTable).head? = some 5 := by decide
  rw [this] at ha
  cases ha
  rw [hsum]
  decide

end Xv6.Sched
