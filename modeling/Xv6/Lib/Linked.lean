import Mathlib

/-!
# Lib — intrusive queues

A queue that is a chain of pointers through its elements: `head` points to the first one and `next` is
a field of each.  `push` is the append of C that walks a pointer to a pointer, `for(pp = &head; *pp;
pp = &(*pp)->next)`, down to the null pointer; nothing but the shape of the chain makes that loop end.

`Holds q l` says that the chain is the list `l`, without repetition: `push` appends to the list
(`Holds.push`), and moving the head on drops its first element (`Holds.tail`).
-/

namespace Xv6.Lib

variable {β : Type*} [DecidableEq β]

/-- The pointers of a queue and of everything that can be in it. -/
structure Queue (β : Type*) where
  head : Option β
  next : β → Option β

/-- Where a pointer is stored. -/
inductive Loc (β : Type*) where
  | head
  | next (b : β)

namespace Queue

def load (q : Queue β) : Loc β → Option β
  | .head => q.head
  | .next b => q.next b

def store (q : Queue β) (v : Option β) : Loc β → Queue β
  | .head => { q with head := v }
  | .next b => { q with next := Function.update q.next b v }

/-- The place of the null pointer behind `pp`, for at most `fuel` rounds. -/
def last (q : Queue β) : Nat → Loc β → Option (Loc β)
  | 0, _ => none
  | fuel + 1, pp =>
      match q.load pp with
      | none => some pp
      | some b => q.last fuel (.next b)

def push (q : Queue β) (fuel : Nat) (b : β) : Option (Queue β) :=
  let q := q.store none (.next b)
  (q.last fuel .head).map (q.store (some b))

/-- The chain from a pointer on is the list. -/
def Chain (next : β → Option β) : Option β → List β → Prop
  | o, [] => o = none
  | o, a :: l => o = some a ∧ Chain next (next a) l

structure Holds (q : Queue β) (l : List β) : Prop where
  chain : Chain q.next q.head l
  nodup : l.Nodup

theorem Chain.update {next : β → Option β} {o : Option β} {l : List β} {b : β} (v : Option β)
    (h : Chain next o l) (hb : b ∉ l) : Chain (Function.update next b v) o l := by
  induction l generalizing o with
  | nil => exact h
  | cons a l ih =>
      obtain ⟨ha, hl⟩ := h
      rw [List.mem_cons, not_or] at hb
      refine ⟨ha, ?_⟩
      rw [Function.update_of_ne (Ne.symm hb.1)]
      exact ih hl hb.2

/-- The place of the null pointer of a chain from `pp` on. -/
def endOf (pp : Loc β) : List β → Loc β
  | [] => pp
  | a :: l => endOf (.next a) l

omit [DecidableEq β] in
theorem endOf_next (a : β) (l : List β) : ∃ x ∈ a :: l, endOf (.next a) l = .next x := by
  induction l generalizing a with
  | nil => exact ⟨a, List.mem_singleton_self a, rfl⟩
  | cons b l ih =>
      obtain ⟨x, hx, he⟩ := ih b
      exact ⟨x, List.mem_cons_of_mem _ hx, he⟩

omit [DecidableEq β] in
/-- The walk ends. -/
theorem Chain.last {q : Queue β} {pp : Loc β} {l : List β} {fuel : Nat}
    (h : Chain q.next (q.load pp) l) (hfuel : l.length < fuel) : q.last fuel pp = some (endOf pp l) := by
  induction l generalizing fuel pp with
  | nil =>
      obtain ⟨fuel, rfl⟩ := Nat.exists_eq_succ_of_ne_zero (Nat.ne_of_gt hfuel)
      have hload : q.load pp = none := h
      rw [Queue.last, hload]
      rfl
  | cons a l ih =>
      obtain ⟨fuel, rfl⟩ := Nat.exists_eq_succ_of_ne_zero (Nat.ne_of_gt (Nat.zero_lt_of_lt hfuel))
      rw [Queue.last, h.1]
      have hnext : Chain q.next (q.load (.next a)) l := h.2
      exact ih hnext (by simpa using hfuel)

/-- What is stored behind an element that the chain has as its last goes behind the chain. -/
theorem Chain.snoc {q : Queue β} {a b : β} {l : List β} (h : Chain q.next (q.next a) l)
    (hnodup : (a :: l).Nodup) (hb : b ∉ a :: l) (hnone : q.next b = none) :
    Chain (q.store (some b) (endOf (.next a) l)).next
      ((q.store (some b) (endOf (.next a) l)).next a) (l ++ [b]) := by
  induction l generalizing a with
  | nil =>
      have hne : b ≠ a := fun he => hb (by simp [he])
      exact ⟨Function.update_self .., (Function.update_of_ne hne _ _).trans hnone⟩
  | cons x l ih =>
      obtain ⟨ha, hl⟩ := h
      have hx := ih hl hnodup.of_cons (fun hm => hb (List.mem_cons_of_mem _ hm))
      refine ⟨?_, hx⟩
      -- the store is at an element of `x :: l`, which is not `a`
      obtain ⟨y, hy, hend⟩ := endOf_next x l
      have hay : a ≠ y := fun he => (List.nodup_cons.mp hnodup).1 (he ▸ hy)
      show (q.store (some b) (endOf (.next x) l)).next a = some x
      rw [hend, ← ha]
      exact Function.update_of_ne hay _ _

theorem Holds.push {q : Queue β} {l : List β} {b : β} {fuel : Nat} (h : q.Holds l) (hb : b ∉ l)
    (hfuel : l.length < fuel) : ∃ q', q.push fuel b = some q' ∧ q'.Holds (l ++ [b]) := by
  have hchain : Chain (q.store none (.next b)).next ((q.store none (.next b)).load .head) l :=
    h.chain.update none hb
  have hnone : (q.store none (.next b)).next b = none := Function.update_self ..
  refine ⟨_, by simp only [Queue.push, hchain.last hfuel]; rfl, ?_,
    List.nodup_append.mpr ⟨h.nodup, List.nodup_singleton b,
      fun x hx y hy hxy => hb (List.mem_singleton.mp hy ▸ hxy ▸ hx)⟩⟩
  cases l with
  | nil => exact ⟨rfl, hnone⟩
  | cons a l =>
      refine ⟨?_, hchain.2.snoc h.nodup hb hnone⟩
      obtain ⟨y, -, hend⟩ := endOf_next a l
      rw [endOf, hend]
      exact h.chain.1

omit [DecidableEq β] in
theorem Holds.tail {q : Queue β} {a : β} {l : List β} (h : q.Holds (a :: l)) :
    Holds { q with head := q.next a } l :=
  ⟨h.chain.2, h.nodup.of_cons⟩

omit [DecidableEq β] in
theorem Holds.head {q : Queue β} {l : List β} (h : q.Holds l) : q.head = l.head? := by
  cases l with
  | nil => exact h.chain
  | cons a l => exact h.chain.1

end Queue

end Xv6.Lib
