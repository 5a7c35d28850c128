import Mathlib

/-!
# Lib — Writes to a store

A store is a function from addresses to values.  `applyWrites` does a list of writes in order.
When no address is written twice, an address holds what was written to it (`applyWrites_of_mem`)
and any other keeps its value (`applyWrites_of_notMem`); what the written addresses held before
does not matter (`applyWrites_congr`), so that writes may be done again after some of them were
done.
-/

namespace Xv6.Lib

variable {A V : Type*} [DecidableEq A]

/-- The writes `ws`, done in order. -/
def applyWrites (d : A → V) (ws : List (A × V)) : A → V :=
  ws.foldl (fun d w => Function.update d w.1 w.2) d

@[simp] theorem applyWrites_nil (d : A → V) : applyWrites d [] = d := rfl

@[simp] theorem applyWrites_cons (d : A → V) (w : A × V) (ws : List (A × V)) :
    applyWrites d (w :: ws) = applyWrites (Function.update d w.1 w.2) ws := rfl

theorem applyWrites_of_notMem {d : A → V} {ws : List (A × V)} {a : A}
    (h : a ∉ ws.map Prod.fst) : applyWrites d ws a = d a := by
  induction ws generalizing d with
  | nil => rfl
  | cons w ws ih =>
      rw [List.map_cons, List.mem_cons, not_or] at h
      rw [applyWrites_cons, ih h.2, Function.update_of_ne h.1]

theorem applyWrites_of_mem {d : A → V} {ws : List (A × V)} {a : A} {v : V}
    (hnd : (ws.map Prod.fst).Nodup) (h : (a, v) ∈ ws) : applyWrites d ws a = v := by
  induction ws generalizing d with
  | nil => cases h
  | cons w ws ih =>
      rw [List.map_cons, List.nodup_cons] at hnd
      rcases List.mem_cons.mp h with rfl | h
      · rw [applyWrites_cons, applyWrites_of_notMem hnd.1, Function.update_self]
      · exact ih hnd.2 h

theorem applyWrites_congr {d d' : A → V} {ws : List (A × V)} {a : A}
    (h : a ∉ ws.map Prod.fst → d a = d' a) : applyWrites d ws a = applyWrites d' ws a := by
  induction ws generalizing d d' with
  | nil => exact h (by simp)
  | cons w ws ih =>
      rw [applyWrites_cons, applyWrites_cons]
      refine ih fun hws => ?_
      by_cases ha : a = w.1
      · subst ha
        simp
      · rw [Function.update_of_ne ha, Function.update_of_ne ha]
        exact h (by simp [ha, hws])

theorem lookup_of_mem {ws : List (A × V)} {a : A} {v : V} (hnd : (ws.map Prod.fst).Nodup)
    (h : (a, v) ∈ ws) : ws.lookup a = some v := by
  induction ws with
  | nil => cases h
  | cons w ws ih =>
      rw [List.map_cons, List.nodup_cons] at hnd
      rcases List.mem_cons.mp h with rfl | h
      · exact List.lookup_cons_self
      · have hne : (a == w.1) = false := by
          rw [beq_eq_false_iff_ne]
          rintro rfl
          exact hnd.1 (List.mem_map.mpr ⟨_, h, rfl⟩)
        rw [List.lookup_cons, hne]
        exact ih hnd.2 h

end Xv6.Lib
