import Mathlib

/-!
# Lib — Counting the values of a table

How many entries of a finite table have a property (`count`), and how the number changes when one
entry does.
-/

namespace Xv6.Lib

variable {α β : Type} [Fintype α]

/-- How many values of `g` have the property. -/
def count (P : β → Prop) [DecidablePred P] (g : α → β) : Int := ∑ a, if P (g a) then 1 else 0

section Count
variable {P : β → Prop} [DecidablePred P] {g : α → β}

theorem count_nonneg : 0 ≤ count P g :=
  Finset.sum_nonneg fun a _ => by split <;> decide

theorem count_pos {a : α} (h : P (g a)) : 0 < count P g := by
  have hle : (if P (g a) then 1 else 0 : Int) ≤ count P g :=
    Finset.single_le_sum (f := fun a => if P (g a) then (1 : Int) else 0)
      (fun a _ => by split <;> decide) (Finset.mem_univ a)
  rw [if_pos h] at hle
  omega

theorem count_update [DecidableEq α] (a : α) (v : β) :
    count P (Function.update g a v) + (if P (g a) then 1 else 0) =
      count P g + if P v then 1 else 0 := by
  have hrest : ∑ x ∈ Finset.univ.erase a, (if P (Function.update g a v x) then (1 : Int) else 0) =
      ∑ x ∈ Finset.univ.erase a, if P (g x) then (1 : Int) else 0 := by
    refine Finset.sum_congr rfl fun x hx => ?_
    rw [Function.update_of_ne (Finset.ne_of_mem_erase hx)]
  rw [count, count, ← Finset.add_sum_erase _ _ (Finset.mem_univ a),
    ← Finset.add_sum_erase _ (fun x => if P (g x) then (1 : Int) else 0) (Finset.mem_univ a), hrest,
    Function.update_self]
  ring

theorem count_eq_zero (h : ∀ a, ¬ P (g a)) : count P g = 0 :=
  Finset.sum_eq_zero fun a _ => if_neg (h a)

/-- A table of the same value everywhere, which does not have the property, but in one place. -/
theorem count_update_const [DecidableEq α] {w : β} (h : ¬ P w) (a : α) (v : β) :
    count P (Function.update (fun _ => w) a v) = if P v then 1 else 0 := by
  have hsum := count_update (P := P) (g := fun _ : α => w) a v
  rwa [if_neg h, count_eq_zero fun _ => h, add_zero, zero_add] at hsum

end Count

end Xv6.Lib
