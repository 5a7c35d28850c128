import Mathlib

/-!
# Lib — Drawing by running sums

A list of holders with integer weights is scanned with a running sum; a draw `w` picks the
first holder at which the sum is no longer below `w` (`pickAt`).

Over the draws in `(acc, acc + Σ]`, where `acc` is the sum before the list, each holder is
picked exactly as often as its weight (`card_pickAt`).  The draw `acc` itself picks the head of
the list (`pickAt_head`), and every draw up to the total picks someone (`pickAt_isSome_iff`).
-/

namespace Xv6.Lib

variable {α : Type*}

/-- The first holder at which the running sum, starting from `acc`, is at least `w`. -/
def pickAt (wt : α → ℤ) : List α → ℤ → ℤ → Option α
  | [], _, _ => none
  | a :: as, acc, w => if acc + wt a < w then pickAt wt as (acc + wt a) w else some a

variable {wt : α → ℤ}

theorem pickAt_mem {as : List α} {acc w : ℤ} {a : α} (h : pickAt wt as acc w = some a) :
    a ∈ as := by
  induction as generalizing acc with
  | nil => simp [pickAt] at h
  | cons b as ih =>
      simp only [pickAt] at h
      split at h
      · exact List.mem_cons_of_mem _ (ih h)
      · cases h; exact List.mem_cons_self

/-- A draw no greater than the sum before the list picks the head. -/
theorem pickAt_head {a : α} {as : List α} {acc w : ℤ} (ha : 0 ≤ wt a) (hw : w ≤ acc) :
    pickAt wt (a :: as) acc w = some a := by
  simp only [pickAt]
  rw [if_neg (by omega)]

/-- With non-negative weights, a draw above the sum before the list picks someone exactly when
it is at most the total. -/
theorem pickAt_isSome_iff {as : List α} {acc w : ℤ} (hnn : ∀ a ∈ as, 0 ≤ wt a) (hw : acc < w) :
    (pickAt wt as acc w).isSome ↔ w ≤ acc + (as.map wt).sum := by
  induction as generalizing acc with
  | nil => simp [pickAt]; omega
  | cons b as ih =>
      have hs : 0 ≤ (as.map wt).sum := List.sum_nonneg (by
        intro x hx
        obtain ⟨a, ha, rfl⟩ := List.mem_map.mp hx
        exact hnn a (List.mem_cons_of_mem _ ha))
      simp only [pickAt, List.map_cons, List.sum_cons]
      split
      · rename_i hlt
        rw [ih (fun a ha => hnn a (List.mem_cons_of_mem _ ha)) hlt, add_assoc]
      · simp; omega

/-- **Each holder is picked as often as its weight**, over the draws above the sum before the
list and up to the total. -/
theorem card_pickAt [DecidableEq α] {as : List α} (acc : ℤ) (hnn : ∀ a ∈ as, 0 ≤ wt a)
    (hnd : as.Nodup) {a : α} (ha : a ∈ as) :
    (((Finset.Ioc acc (acc + (as.map wt).sum)).filter
      fun w => pickAt wt as acc w = some a).card : ℤ) = wt a := by
  induction as generalizing acc with
  | nil => simp at ha
  | cons b as ih =>
      have hnn' : ∀ x ∈ as, 0 ≤ wt x := fun x hx => hnn x (List.mem_cons_of_mem _ hx)
      have hb : 0 ≤ wt b := hnn b List.mem_cons_self
      have hs : 0 ≤ (as.map wt).sum := List.sum_nonneg (by
        intro x hx
        obtain ⟨y, hy, rfl⟩ := List.mem_map.mp hx
        exact hnn' y hy)
      obtain ⟨hbas, hnd'⟩ := List.nodup_cons.mp hnd
      -- the draws split at the sum after the head
      have hsplit : Finset.Ioc acc (acc + ((b :: as).map wt).sum) =
          Finset.Ioc acc (acc + wt b) ∪
            Finset.Ioc (acc + wt b) (acc + wt b + (as.map wt).sum) := by
        rw [Finset.Ioc_union_Ioc_eq_Ioc (by omega) (by omega), List.map_cons, List.sum_cons,
          add_assoc]
      have hlow : ∀ w ∈ Finset.Ioc acc (acc + wt b), pickAt wt (b :: as) acc w = some b := by
        intro w hw
        rw [Finset.mem_Ioc] at hw
        simp only [pickAt]
        rw [if_neg (by omega)]
      have hhigh : ∀ w ∈ Finset.Ioc (acc + wt b) (acc + wt b + (as.map wt).sum),
          pickAt wt (b :: as) acc w = pickAt wt as (acc + wt b) w := by
        intro w hw
        rw [Finset.mem_Ioc] at hw
        simp only [pickAt]
        rw [if_pos hw.1]
      have hdisj : Disjoint (Finset.Ioc acc (acc + wt b))
          (Finset.Ioc (acc + wt b) (acc + wt b + (as.map wt).sum)) := by
        rw [Finset.disjoint_left]
        intro w h₁ h₂
        rw [Finset.mem_Ioc] at h₁ h₂
        omega
      rw [hsplit, Finset.filter_union, Finset.card_union_of_disjoint
        (Finset.disjoint_filter_filter hdisj), Finset.filter_congr (fun w hw => by rw [hlow w hw]),
        Finset.filter_congr (s := Finset.Ioc (acc + wt b) _) (fun w hw => by rw [hhigh w hw])]
      rcases List.mem_cons.mp ha with rfl | ha'
      · -- the head: every low draw, and no high one, since it does not occur again
        rw [Finset.filter_true_of_mem (fun _ _ => rfl), Finset.filter_false_of_mem (fun w _ h =>
          hbas (pickAt_mem h))]
        simp [hb]
      · have hne : ¬ (some b = some a) := fun h => hbas (Option.some.inj h ▸ ha')
        rw [Finset.filter_false_of_mem (fun _ _ => hne), Finset.card_empty, Nat.zero_add]
        exact ih (acc + wt b) hnn' hnd' ha'

end Xv6.Lib
