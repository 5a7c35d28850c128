import Xv6.Lib.Cycle

/-!
# Lib — doubly linked rings

Nodes linked by two fields in a circle through the node `c`: `RingOf next prev c l` says that following `next` from `c` visits
`l` and comes back, each node once, and following `prev` does so in the reverse order.  A ring read backward is a ring
(`RingOf.symm`), so what is said of one field holds of the other.

A node is put behind `c` by four writes (`RingOf.pushFront`) and taken out, wherever it is, by two (`RingOf.remove`).  A loop
around the ring that stops at `c` finds the first node of the list that passes its test (`RingOf.find`).
-/

namespace Xv6.Lib

variable {α : Type*} {next prev : α → α} {c x : α} {l r : List α}

structure RingOf (next prev : α → α) (c : α) (l : List α) : Prop where
  nodup : (c :: l).Nodup
  forward : Path next (next c) l c
  backward : Path prev (prev c) l.reverse c

namespace RingOf

theorem symm (h : RingOf next prev c l) : RingOf prev next c l.reverse where
  nodup := by
    have := h.nodup
    rw [List.nodup_cons] at this ⊢
    exact ⟨fun hc => this.1 (List.mem_reverse.mp hc), List.nodup_reverse.mpr this.2⟩
  forward := h.backward
  backward := by
    rw [List.reverse_reverse]
    exact h.forward

theorem notMem (h : RingOf next prev c l) : c ∉ l := (List.nodup_cons.mp h.nodup).1

theorem nodup_list (h : RingOf next prev c l) : l.Nodup := (List.nodup_cons.mp h.nodup).2

/-- The ring of `c` alone. -/
theorem nil (hnext : next c = c) (hprev : prev c = c) : RingOf next prev c [] :=
  ⟨List.nodup_singleton c, hnext, hprev⟩

variable [DecidableEq α]

/-- `x` put between `c` and the node after it. -/
theorem pushFront (h : RingOf next prev c l) (hx : x ∉ c :: l) :
    RingOf (Function.update (Function.update next x (next c)) c x)
      (Function.update (Function.update prev x c) (next c) x) c (x :: l) := by
  obtain ⟨hxc, hxl⟩ := not_or.mp (mt List.mem_cons.mpr hx)
  refine ⟨?_, ?_, ?_⟩
  · rw [List.nodup_cons, List.mem_cons, not_or]
    exact ⟨⟨Ne.symm hxc, h.notMem⟩, List.nodup_cons.mpr ⟨hxl, h.nodup_list⟩⟩
  · rw [Function.update_self]
    refine ⟨rfl, ?_⟩
    rw [Function.update_of_ne hxc, Function.update_self]
    exact (h.forward.update hxl _).update h.notMem _
  · -- the node after `c` is the one that has `x` before it now, be it `c` itself or not
    rw [List.reverse_cons]
    cases l with
    | nil =>
        rw [show next c = c from h.forward, Function.update_self]
        refine ⟨rfl, ?_⟩
        rw [Function.update_of_ne hxc, Function.update_self]
        rfl
    | cons y l =>
        have hy : next c = y := h.forward.1
        have hyc : c ≠ y := fun heq => h.notMem (heq ▸ List.mem_cons_self)
        have hyl : y ∉ l := (List.nodup_cons.mp h.nodup_list).1
        have hxy : x ≠ y := fun heq => hxl (heq ▸ List.mem_cons_self)
        have hback := h.backward
        rw [List.reverse_cons] at hback ⊢
        obtain ⟨hrest, -⟩ := Path.append_cons.mp hback
        rw [List.append_assoc, hy, Function.update_of_ne hyc, Function.update_of_ne (Ne.symm hxc)]
        refine Path.append_cons.mpr ⟨?_, ?_⟩
        · have hxl' : x ∉ l.reverse := fun hm => hxl (List.mem_cons_of_mem y (List.mem_reverse.mp hm))
          exact (hrest.update hxl' _).update (fun hm => hyl (List.mem_reverse.mp hm)) _
        · rw [Function.update_self]
          refine ⟨rfl, ?_⟩
          rw [Function.update_of_ne hxy, Function.update_self]
          rfl

/-- The node before `x` linked to the one after it. -/
theorem remove_forward (h : RingOf next prev c (l ++ x :: r)) :
    Path (Function.update next (prev x) (next x)) (Function.update next (prev x) (next x) c) (l ++ r) c := by
  obtain ⟨hl, hr⟩ := Path.append_cons.mp h.forward
  have hback := h.backward
  rw [List.reverse_append, List.reverse_cons, List.append_assoc] at hback
  have hprev := (Path.append_cons.mp hback).2
  rcases List.eq_nil_or_concat l with rfl | ⟨l, y, rfl⟩
  · rw [show prev x = c from hprev, Function.update_self]
    refine hr.update (fun hm => h.notMem ?_) _
    exact List.mem_cons_of_mem x hm
  · rw [List.concat_eq_append] at *
    rw [List.reverse_append] at hprev
    obtain ⟨hy, -⟩ := hprev
    have hyc : c ≠ y := fun heq => h.notMem (by simp [heq])
    have hnodup := h.nodup_list
    rw [List.append_assoc, List.singleton_append, List.nodup_append] at hnodup
    have hyl : y ∉ l := fun hm => hnodup.2.2 y hm y List.mem_cons_self rfl
    have hyr : y ∉ r := fun hm => (List.nodup_cons.mp hnodup.2.1).1 (List.mem_cons_of_mem x hm)
    rw [hy, Function.update_of_ne hyc, List.append_assoc]
    refine Path.append_cons.mpr ⟨(Path.append_cons.mp hl).1.update hyl _, ?_⟩
    rw [Function.update_self]
    exact hr.update hyr _

/-- `x` taken out of the ring. -/
theorem remove (h : RingOf next prev c (l ++ x :: r)) :
    RingOf (Function.update next (prev x) (next x)) (Function.update prev (next x) (prev x)) c (l ++ r) := by
  refine ⟨?_, h.remove_forward, ?_⟩
  · refine h.nodup.sublist (List.Sublist.cons_cons c ?_)
    exact (List.Sublist.refl l).append (List.sublist_cons_self x r)
  · have hsymm := h.symm
    rw [List.reverse_append, List.reverse_cons, List.append_assoc, List.singleton_append] at hsymm
    rw [List.reverse_append]
    exact hsymm.remove_forward

/-- `for(a = c->next; a != c; a = a->next)`, with a test that ends it. -/
theorem find {P : α → Prop} [DecidablePred P] {fuel : Nat} (h : RingOf next prev c l) (hfuel : l.length < fuel) :
    Lib.find next (fun a => a = c ∨ P a) fuel (next c) = some ((l.find? P).getD c) := by
  have hc := h.notMem
  have hpath := h.forward
  generalize next c = a at hpath
  clear h
  induction l generalizing a fuel with
  | nil =>
      obtain ⟨fuel, rfl⟩ := Nat.exists_eq_succ_of_ne_zero (Nat.ne_of_gt hfuel)
      rw [Lib.find, if_pos (.inl hpath), show a = c from hpath]
      rfl
  | cons x l ih =>
      obtain ⟨fuel, rfl⟩ := Nat.exists_eq_succ_of_ne_zero (Nat.ne_of_gt (Nat.zero_lt_of_lt hfuel))
      obtain ⟨rfl, hpath⟩ := hpath
      obtain ⟨hac, hcl⟩ := not_or.mp (mt List.mem_cons.mpr hc)
      rw [Lib.find, List.find?_cons]
      by_cases ha : P a
      · rw [if_pos (.inr ha), decide_eq_true ha]
        rfl
      · rw [if_neg (not_or.mpr ⟨Ne.symm hac, ha⟩), decide_eq_false ha]
        exact ih (Nat.lt_of_succ_lt_succ hfuel) hcl _ hpath

end RingOf

end Xv6.Lib
