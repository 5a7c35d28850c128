import Mathlib

/-!
# Lib — circular lists

Nodes that a field links: `Path next a l b` says that following `next` from `a` visits `l` and then comes to
`b`.  A circular list is a path that comes back to where it starts, and it does so from every node of it
(`Path.rotate`).  A loop that walks around the circle until a test holds ends (`Path.find`).

Changing the field of nodes that a path does not visit keeps it (`Path.congr`), so an insertion or a removal is
a matter of taking the circle apart at the node that changes and putting it together again.
-/

namespace Xv6.Lib

variable {α : Type*} {next next' : α → α} {a b x y : α} {l r : List α}

/-- `l` is what `next` visits from `a` on, before it comes to `b`. -/
def Path (next : α → α) : α → List α → α → Prop
  | a, [], b => a = b
  | a, x :: l, b => a = x ∧ Path next (next x) l b

namespace Path

theorem append : Path next a (l ++ r) b ↔ ∃ c, Path next a l c ∧ Path next c r b := by
  induction l generalizing a with
  | nil => exact ⟨fun h => ⟨a, rfl, h⟩, fun ⟨c, hc, h⟩ => by rw [show a = c from hc]; exact h⟩
  | cons x l ih =>
      constructor
      · rintro ⟨hx, h⟩
        obtain ⟨c, hl, hr⟩ := ih.mp h
        exact ⟨c, ⟨hx, hl⟩, hr⟩
      · rintro ⟨c, ⟨hx, hl⟩, hr⟩
        exact ⟨hx, ih.mpr ⟨c, hl, hr⟩⟩

/-- A path taken apart at a node. -/
theorem append_cons : Path next a (l ++ x :: r) b ↔ Path next a l x ∧ Path next (next x) r b := by
  rw [append]
  constructor
  · rintro ⟨c, hl, rfl, hr⟩
    exact ⟨hl, hr⟩
  · rintro ⟨hl, hr⟩
    exact ⟨x, hl, rfl, hr⟩

theorem congr (h : Path next a l b) (hl : ∀ x ∈ l, next' x = next x) : Path next' a l b := by
  induction l generalizing a with
  | nil => exact h
  | cons x l ih =>
      obtain ⟨hx, h⟩ := h
      refine ⟨hx, ?_⟩
      rw [hl x List.mem_cons_self]
      exact ih h fun y hy => hl y (List.mem_cons_of_mem x hy)

theorem update [DecidableEq α] (h : Path next a l b) (hx : x ∉ l) (v : α) :
    Path (Function.update next x v) a l b :=
  h.congr fun y hy => Function.update_of_ne (fun he : y = x => hx (he ▸ hy)) v next

/-- A circle from another of its nodes. -/
theorem rotate (h : Path next a (l ++ x :: r) a) : Path next x (x :: (r ++ l)) x := by
  obtain ⟨hl, hr⟩ := append_cons.mp h
  exact ⟨rfl, append.mpr ⟨a, hr, hl⟩⟩

/-- The node before `x`. -/
theorem split_of_next (h : Path next a l b) (hy : y ∈ l) (hxy : next y = x) (hx : x ≠ b) :
    ∃ l₁ l₂, l = l₁ ++ y :: x :: l₂ := by
  obtain ⟨l₁, l₂, rfl⟩ := List.mem_iff_append.mp hy
  have hrest := (append_cons.mp h).2
  rw [hxy] at hrest
  cases l₂ with
  | nil => exact absurd hrest hx
  | cons z l₂ => exact ⟨l₁, l₂, by rw [hrest.1]⟩

/-- Where a path starts. -/
theorem start (h : Path next a l b) : a = b ∨ a ∈ l := by
  cases l with
  | nil => exact .inl h
  | cons x l => exact .inr (by rw [h.1]; exact List.mem_cons_self)

/-- In a path in increasing order a node links to a greater one, or to the end. -/
theorem lt_next [Preorder α] (h : Path next a l b) (hl : l.Pairwise (· < ·)) (hx : x ∈ l) :
    next x = b ∨ next x ∈ l ∧ x < next x := by
  induction l generalizing a with
  | nil => cases hx
  | cons z l ih =>
      obtain ⟨-, h⟩ := h
      obtain ⟨hz, hl⟩ := List.pairwise_cons.mp hl
      rcases List.mem_cons.mp hx with rfl | hx
      · cases l with
        | nil => exact .inl h
        | cons y l =>
            rw [h.1]
            exact .inr ⟨by simp, hz y List.mem_cons_self⟩
      · obtain hb | ⟨hmem, hlt⟩ := ih h hl hx
        · exact .inl hb
        · exact .inr ⟨List.mem_cons_of_mem z hmem, hlt⟩

end Path

/-- `for(p = a; !P(p); p = p->next)`, for at most `fuel` rounds. -/
def find (next : α → α) (P : α → Prop) [DecidablePred P] : Nat → α → Option α
  | 0, _ => none
  | fuel + 1, a => if P a then some a else find next P fuel (next a)

/-- A walk along a path on which the test holds somewhere. -/
theorem Path.find {P : α → Prop} [DecidablePred P] {fuel : Nat} (h : Path next a l b)
    (hP : ∃ x ∈ l, P x) (hfuel : l.length ≤ fuel) : ∃ x ∈ l, P x ∧ Lib.find next P fuel a = some x := by
  induction l generalizing a fuel with
  | nil =>
      obtain ⟨x, hx, -⟩ := hP
      cases hx
  | cons z l ih =>
      obtain ⟨rfl, h⟩ := h
      obtain ⟨fuel, rfl⟩ := Nat.exists_eq_add_of_le' hfuel
      by_cases ha : P a
      · exact ⟨a, List.mem_cons_self, ha, if_pos ha⟩
      · have hP' : ∃ x ∈ l, P x := by
          obtain ⟨x, hx, hPx⟩ := hP
          rcases List.mem_cons.mp hx with rfl | hx
          · exact absurd hPx ha
          · exact ⟨x, hx, hPx⟩
        obtain ⟨x, hx, hPx, hfind⟩ := ih h hP' (Nat.le_add_left l.length fuel)
        exact ⟨x, List.mem_cons_of_mem a hx, hPx, (if_neg ha).trans hfind⟩

end Xv6.Lib
