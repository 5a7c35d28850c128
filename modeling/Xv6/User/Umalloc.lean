import Xv6.Lib.Cycle
import Xv6.Lib.Runs

/-!
# User — `malloc` and `free`

The allocator of `umalloc.c`.  Memory is the `ptr` and `size` fields of the `Header` at each address; a
`Header` takes 8 bytes, and addresses and sizes are 32 bits wide.  `sbrk` gives the memory behind the break or
fails, at any call.

The memory from `sbrk` is a row of blocks from `start` to the break (`Block`, `after`), free or allocated.  The
free ones are linked in the order of their addresses into a circle through `base`, no two of them are
neighbours, and the header of every block has its size (`Reps`).
-/

namespace Xv6.User.Umalloc

open Lib

/-- The address of `base`, the first break, and which calls of `sbrk` succeed. -/
structure Env where
  base : Nat
  start : Nat
  ok : Nat → Bool
  base_pos : 0 < base
  base_lt : base + 8 ≤ start
  start_lt : start < 2 ^ 32

structure St where
  ptr : Nat → Nat
  size : Nat → Nat
  freep : Nat
  brk : Nat
  /-- How often `sbrk` was called. -/
  calls : Nat

def St.setPtr (s : St) (p v : Nat) : St := { s with ptr := Function.update s.ptr p v }

def St.setSize (s : St) (p v : Nat) : St := { s with size := Function.update s.size p v }

/-- `p + n`, for a `Header *p`. -/
def plus (p n : Nat) : Nat := (p + 8 * n) % 2 ^ 32

/-- Where the loop of `free` ends: between `p` and `p->s.ptr`, or at one of the ends. -/
def Stop (s : St) (bp p : Nat) : Prop :=
  (p < bp ∧ bp < s.ptr p) ∨ (s.ptr p ≤ p ∧ (p < bp ∨ bp < s.ptr p))

instance (s : St) (bp : Nat) : DecidablePred (Stop s bp) := fun p => by
  unfold Stop
  infer_instance

/-- Join to the upper neighbour. -/
def joinUp (s : St) (bp p : Nat) : St :=
  if plus bp (s.size bp) = s.ptr p then
    let s := s.setSize bp ((s.size bp + s.size (s.ptr p)) % 2 ^ 32)
    s.setPtr bp (s.ptr (s.ptr p))
  else s.setPtr bp (s.ptr p)

/-- Join to the lower neighbour. -/
def joinDown (s : St) (bp p : Nat) : St :=
  if plus p (s.size p) = bp then
    let s := s.setSize p ((s.size p + s.size bp) % 2 ^ 32)
    s.setPtr p (s.ptr bp)
  else s.setPtr p bp

def free (s : St) (ap : Nat) : Option St := do
  let bp := ap - 8
  let p ← find s.ptr (Stop s bp) s.brk s.freep
  return { joinDown (joinUp s bp p) bp p with freep := p }

def sbrk (E : Env) (s : St) (n : Nat) : Option Nat × St :=
  if E.ok s.calls = true ∧ s.brk + n < 2 ^ 32 then
    (some s.brk, { s with brk := s.brk + n, calls := s.calls + 1 })
  else (none, { s with calls := s.calls + 1 })

def morecore (E : Env) (s : St) (nu : Nat) : Option (Nat × St) :=
  let nu := if nu < 4096 then 4096 else nu
  match sbrk E s (nu * 8) with
  | (none, s) => some (0, s)
  | (some p, s) => do
      let s ← free (s.setSize p nu) (p + 8)
      return (s.freep, s)

def nunits (nbytes : UInt32) : Nat := ((nbytes + 8 - 1) / 8 + 1).toNat

/-- The block `p` is large enough: all of it or its tail. -/
def take (s : St) (nu prevp p : Nat) : Nat × St :=
  if s.size p = nu then (plus p 1, { s.setPtr prevp (s.ptr p) with freep := prevp })
  else
    let s := s.setSize p (s.size p - nu)
    let q := plus p (s.size p)
    (plus q 1, { s.setSize q nu with freep := prevp })

/-- The loop of `malloc`, for at most `fuel` rounds. -/
def mallocLoop (E : Env) (nu : Nat) : Nat → St → Nat → Nat → Option (Nat × St)
  | 0, _, _, _ => none
  | fuel + 1, s, prevp, p =>
      if nu ≤ s.size p then some (take s nu prevp p)
      else if p = s.freep then
        match morecore E s nu with
        | none => none
        | some (0, s) => some (0, s)
        | some (p, s) => mallocLoop E nu fuel s p (s.ptr p)
      else mallocLoop E nu fuel s p (s.ptr p)

/-- The first call makes the empty list. -/
def initBase (E : Env) (s : St) : St :=
  if s.freep = 0 then { (s.setPtr E.base E.base).setSize E.base 0 with freep := E.base } else s

def malloc (E : Env) (s : St) (nbytes : UInt32) : Option (Nat × St) :=
  let s := initBase E s
  let fuel := 2 * s.brk + 8 * nunits nbytes + 8 * 4096
  mallocLoop E (nunits nbytes) fuel s s.freep (s.ptr s.freep)

/-! ### Rows of blocks -/

structure Block where
  size : Nat
  free : Bool
  pos : 0 < size

/-- The address behind the blocks, the first of which is at `a`. -/
def after (a : Nat) : List Block → Nat
  | [] => a
  | b :: bs => after (a + 8 * b.size) bs

/-- The addresses of the free blocks. -/
def frees (a : Nat) : List Block → List Nat
  | [] => []
  | b :: bs => if b.free = true then a :: frees (a + 8 * b.size) bs else frees (a + 8 * b.size) bs

/-- The addresses and sizes of the allocated blocks. -/
def allocs (a : Nat) : List Block → List (Nat × Nat)
  | [] => []
  | b :: bs =>
      if b.free = true then allocs (a + 8 * b.size) bs else (a, b.size) :: allocs (a + 8 * b.size) bs

/-- Each block has its size in its header. -/
def Sized (size : Nat → Nat) (a : Nat) : List Block → Prop
  | [] => True
  | b :: bs => size a = b.size ∧ Sized size (a + 8 * b.size) bs

/-- No two neighbours are free. -/
def Apart (bs : List Block) : Prop := bs.IsChain fun b c => ¬ (b.free = true ∧ c.free = true)

section Layout
variable {a x z : Nat} {b : Block} {bs l r : List Block} {size size' : Nat → Nat}

theorem after_append : after a (l ++ r) = after (after a l) r := by
  induction l generalizing a with
  | nil => rfl
  | cons b l ih => exact ih

theorem after_split : after a (l ++ b :: r) = after (after a l + 8 * b.size) r := after_append

theorem frees_append : frees a (l ++ r) = frees a l ++ frees (after a l) r := by
  induction l generalizing a with
  | nil => rfl
  | cons b l ih =>
      simp only [List.cons_append, frees, after, ih]
      split_ifs <;> rfl

theorem allocs_append : allocs a (l ++ r) = allocs a l ++ allocs (after a l) r := by
  induction l generalizing a with
  | nil => rfl
  | cons b l ih =>
      simp only [List.cons_append, allocs, after, ih]
      split_ifs <;> rfl

theorem sized_append : Sized size a (l ++ r) ↔ Sized size a l ∧ Sized size (after a l) r := by
  induction l generalizing a with
  | nil => exact ⟨fun h => ⟨trivial, h⟩, fun h => h.2⟩
  | cons b l ih => simp only [List.cons_append, Sized, after, ih, and_assoc]

theorem le_after (a : Nat) (bs : List Block) : a ≤ after a bs := by
  induction bs generalizing a with
  | nil => exact Nat.le_refl a
  | cons b bs ih => exact (Nat.le_add_right a _).trans (ih _)

theorem add_le_after_cons (a : Nat) (b : Block) (bs : List Block) : a + 8 ≤ after a (b :: bs) := by
  have hpos := b.pos
  have hle := le_after (a + 8 * b.size) bs
  rw [after]
  omega

theorem mem_frees (h : x ∈ frees a bs) :
    ∃ l b r, bs = l ++ b :: r ∧ b.free = true ∧ x = after a l := by
  induction bs generalizing a with
  | nil => cases h
  | cons c bs ih =>
      have hrest : x ∈ frees (a + 8 * c.size) bs →
          ∃ l b r, c :: bs = l ++ b :: r ∧ b.free = true ∧ x = after a l := by
        intro hx
        obtain ⟨l, b, r, rfl, hb, rfl⟩ := ih hx
        exact ⟨c :: l, b, r, rfl, hb, rfl⟩
      rw [frees] at h
      split_ifs at h with hc
      · rcases List.mem_cons.mp h with rfl | hx
        · exact ⟨[], c, bs, rfl, hc, rfl⟩
        · exact hrest hx
      · exact hrest h

theorem mem_allocs (h : (x, z) ∈ allocs a bs) :
    ∃ l b r, bs = l ++ b :: r ∧ b.free = false ∧ x = after a l ∧ z = b.size := by
  induction bs generalizing a with
  | nil => cases h
  | cons c bs ih =>
      have hrest : (x, z) ∈ allocs (a + 8 * c.size) bs →
          ∃ l b r, c :: bs = l ++ b :: r ∧ b.free = false ∧ x = after a l ∧ z = b.size := by
        intro hx
        obtain ⟨l, b, r, rfl, hb, rfl, rfl⟩ := ih hx
        exact ⟨c :: l, b, r, rfl, hb, rfl, rfl⟩
      rw [allocs] at h
      split_ifs at h with hc
      · exact hrest h
      · rcases List.mem_cons.mp h with hx | hx
        · cases hx
          exact ⟨[], c, bs, rfl, by simpa using hc, rfl, rfl⟩
        · exact hrest hx

/-- A block is between the ends of the row. -/
theorem bounds_of_split (a : Nat) (l : List Block) (b : Block) (r : List Block) :
    a ≤ after a l ∧ after a l + 8 ≤ after a (l ++ b :: r) := by
  refine ⟨le_after a l, ?_⟩
  rw [after_append]
  exact add_le_after_cons _ b r

theorem bounds_of_mem_frees (h : x ∈ frees a bs) : a ≤ x ∧ x + 8 ≤ after a bs := by
  obtain ⟨l, b, r, rfl, -, rfl⟩ := mem_frees h
  exact bounds_of_split a l b r

theorem bounds_of_mem_allocs (h : (x, z) ∈ allocs a bs) : a ≤ x ∧ x + 8 ≤ after a bs := by
  obtain ⟨l, b, r, rfl, -, rfl, -⟩ := mem_allocs h
  exact bounds_of_split a l b r

theorem frees_pairwise (a : Nat) (bs : List Block) : (frees a bs).Pairwise (· < ·) := by
  induction bs generalizing a with
  | nil => exact .nil
  | cons b bs ih =>
      rw [frees]
      split_ifs
      · refine .cons (fun x hx => ?_) (ih _)
        have hpos := b.pos
        have hx := (bounds_of_mem_frees hx).1
        omega
      · exact ih _

theorem length_frees_le (a : Nat) (bs : List Block) : a + 8 * (frees a bs).length ≤ after a bs := by
  induction bs generalizing a with
  | nil => exact Nat.le_refl a
  | cons b bs ih =>
      have hpos := b.pos
      have hrest := ih (a + 8 * b.size)
      rw [frees, after]
      split_ifs
      · rw [List.length_cons]
        omega
      · omega

/-- Only the headers of the row matter. -/
theorem Sized.congr (h : Sized size a bs) (hsize : ∀ x, a ≤ x → x < after a bs → size' x = size x) :
    Sized size' a bs := by
  induction bs generalizing a with
  | nil => trivial
  | cons b bs ih =>
      have hpos := b.pos
      have hle := le_after (a + 8 * b.size) bs
      rw [after] at hsize
      refine ⟨?_, ih h.2 fun x hx hx' => hsize x (by omega) hx'⟩
      rw [hsize a (Nat.le_refl a) (by omega)]
      exact h.1

theorem Sized.update {v : Nat} (h : Sized size a bs) (hx : x < a ∨ after a bs ≤ x) :
    Sized (Function.update size x v) a bs := by
  refine h.congr fun y hy hy' => Function.update_of_ne ?_ v size
  omega

end Layout

/-- The blocks that the memory is made of. -/
structure Reps (E : Env) (s : St) (bs : List Block) : Prop where
  brk : s.brk = after E.start bs
  brk_lt : s.brk < 2 ^ 32
  sized : Sized s.size E.start bs
  base_size : s.size E.base = 0
  path : Path s.ptr E.base (E.base :: frees E.start bs) E.base
  freep : s.freep ∈ E.base :: frees E.start bs
  apart : Apart bs

/-- The block `b` behind `l` is not in the list.  `p` is the last node before it, and `y` the next one. -/
structure Loose (E : Env) (s : St) (l : List Block) (b : Block) (r : List Block) (ns : List Nat)
    (p y : Nat) : Prop where
  brk : s.brk = after E.start (l ++ b :: r)
  brk_lt : s.brk < 2 ^ 32
  sized : Sized s.size E.start (l ++ b :: r)
  base_size : s.size E.base = 0
  nodes : E.base :: frees E.start l = ns ++ [p]
  below : Path s.ptr E.base ns p
  above : Path s.ptr y (frees (after E.start l + 8 * b.size) r) E.base
  apart_left : Apart l
  apart_right : Apart r

theorem plus_eq {x n : Nat} (h : x + 8 * n < 2 ^ 32) : plus x n = x + 8 * n := Nat.mod_eq_of_lt h

theorem apart_append_cons {l r : List Block} {b : Block} :
    Apart (l ++ b :: r) ↔ Apart l ∧ Apart r ∧ (∀ c ∈ l.getLast?, ¬ (c.free = true ∧ b.free = true)) ∧
      ∀ c ∈ r.head?, ¬ (b.free = true ∧ c.free = true) := by
  unfold Apart
  rw [List.isChain_append, List.isChain_cons]
  simp only [List.head?_cons, Option.mem_some_iff, forall_eq']
  tauto

section Circle
variable {E : Env} {bs l r : List Block} {x a : Nat}

theorem base_lt_of_mem_frees (ha : E.start ≤ a) (h : x ∈ frees a bs) : E.base < x := by
  have hx := (bounds_of_mem_frees h).1
  have hbase := E.base_lt
  omega

/-- The circle is in increasing order. -/
theorem circle_pairwise (E : Env) (bs : List Block) : (E.base :: frees E.start bs).Pairwise (· < ·) :=
  .cons (fun _ hx => base_lt_of_mem_frees (Nat.le_refl _) hx) (frees_pairwise _ _)

/-- A node of the circle before a place. -/
theorem node_lt (h : x ∈ E.base :: frees E.start l) : x + 8 ≤ after E.start l := by
  rcases List.mem_cons.mp h with rfl | h
  · exact E.base_lt.trans (le_after _ _)
  · exact (bounds_of_mem_frees h).2

/-- The last node is there once. -/
theorem last_not_mem {ns : List Nat} {p : Nat} (h : E.base :: frees E.start l = ns ++ [p]) : p ∉ ns := by
  have hsorted := circle_pairwise E l
  rw [h] at hsorted
  intro hp
  exact Nat.lt_irrefl p ((List.pairwise_append.mp hsorted).2.2 p hp p (List.mem_singleton_self p))

theorem last_mem {ns : List Nat} {p : Nat} (h : E.base :: frees E.start l = ns ++ [p]) :
    p ∈ E.base :: frees E.start l := by
  rw [h]
  exact List.mem_append_right ns (List.mem_singleton_self p)

/-- The block of a node ends in front of the place. -/
theorem node_end_le {size : Nat → Nat} (hs : Sized size E.start l) (hbase : size E.base = 0)
    (h : x ∈ E.base :: frees E.start l) : x + 8 * size x ≤ after E.start l := by
  rcases List.mem_cons.mp h with rfl | h
  · have hle := le_after E.start l
    have hlt := E.base_lt
    rw [hbase]
    omega
  · obtain ⟨l₁, b, l₂, rfl, -, rfl⟩ := mem_frees h
    rw [(sized_append.mp hs).2.1, after_split]
    exact le_after _ l₂

end Circle

section Join
variable {E : Env} {s : St} {l r bs : List Block} {b : Block} {ns : List Nat} {p y : Nat}

theorem Loose.lt_of_mem (h : Loose E s l b r ns p y) {x : Nat} (hx : x ∈ ns ++ [p]) :
    x + 8 ≤ after E.start l := by
  rw [← h.nodes] at hx
  exact node_lt hx

theorem Loose.end_le (h : Loose E s l b r ns p y) : after E.start l + 8 * b.size ≤ s.brk := by
  rw [h.brk, after_append]
  exact le_after _ r

theorem Loose.size_eq (h : Loose E s l b r ns p y) : s.size (after E.start l) = b.size :=
  (sized_append.mp h.sized).2.1

/-- A node above is not in a part of the row below it. -/
theorem not_mem_frees_of_lt {x a : Nat} (h : x < a) : x ∉ frees a bs := fun hx =>
  absurd (bounds_of_mem_frees hx).1 (Nat.not_le.mpr h)

/-- The upper neighbour is free just when the next node is there. -/
theorem Loose.next_eq_iff (h : Loose E s l b r ns p y) :
    after E.start l + 8 * b.size = y ↔ ∃ d r', r = d :: r' ∧ d.free = true := by
  have hstart := le_after E.start l
  have hbase := E.base_lt
  have habove := h.above
  cases r with
  | nil =>
      constructor
      · intro hy
        have hy' : y = E.base := habove
        omega
      · rintro ⟨d, r', hr, -⟩
        cases hr
  | cons d r' =>
      rw [frees] at habove
      split_ifs at habove with hd
      · exact ⟨fun _ => ⟨d, r', rfl, hd⟩, fun _ => habove.1.symm⟩
      · constructor
        · intro hy
          have hpos := d.pos
          rcases habove.start with hy' | hy'
          · omega
          · have hle := (bounds_of_mem_frees hy').1
            omega
        · rintro ⟨d', r'', hr, hd'⟩
          cases hr
          exact absurd hd' hd

theorem Loose.not_mem (h : Loose E s l b r ns p y) : after E.start l ∉ ns := fun hmem => by
  have hlt := h.lt_of_mem (List.mem_append_left [p] hmem)
  omega

theorem base_ne_after (E : Env) (l : List Block) : E.base ≠ after E.start l := by
  have hbase := E.base_lt
  have hle := le_after E.start l
  omega

/-- The upper neighbour is free: the block takes it in. -/
theorem joinUp_merge {d : Block} (h : Loose E s l b (d :: r) ns p (s.ptr p)) (hd : d.free = true) :
    Loose E (joinUp s (after E.start l) p) l ⟨b.size + d.size, true, Nat.add_pos_left b.pos _⟩ r ns p
      ((joinUp s (after E.start l) p).ptr (after E.start l)) := by
  have hup := h.next_eq_iff.mpr ⟨d, r, rfl, hd⟩
  have hlt := h.brk_lt
  have hpos := b.pos
  obtain ⟨hsl, hsb, hsd, hsr⟩ := sized_append.mp h.sized
  have hsum : after E.start l + 8 * b.size + 8 * d.size = after E.start l + 8 * (b.size + d.size) := by omega
  have hafter : s.brk = after (after E.start l + 8 * (b.size + d.size)) r := by
    rw [h.brk, after_split, after, hsum]
  have hend := le_after (after E.start l + 8 * (b.size + d.size)) r
  rw [← hafter] at hend
  obtain ⟨-, habove⟩ : s.ptr p = after E.start l + 8 * b.size ∧ Path s.ptr (s.ptr (after E.start l + 8 * b.size))
      (frees (after E.start l + 8 * (b.size + d.size)) r) E.base := by
    have habove := h.above
    rwa [frees, if_pos hd, hsum] at habove
  have hjoin : joinUp s (after E.start l) p =
      (s.setSize (after E.start l) (b.size + d.size)).setPtr (after E.start l)
        (s.ptr (after E.start l + 8 * b.size)) := by
    rw [joinUp, h.size_eq, plus_eq (by omega), if_pos hup]
    change (s.setSize _ ((b.size + s.size (s.ptr p)) % 2 ^ 32)).setPtr _ (s.ptr (s.ptr p)) = _
    rw [← hup, hsd, Nat.mod_eq_of_lt (by omega)]
  rw [hjoin]
  constructor
  · rw [after_split]
    exact hafter
  · exact hlt
  · refine sized_append.mpr ⟨hsl.update (.inr (Nat.le_refl _)), Function.update_self .., ?_⟩
    rw [hsum] at hsr
    exact hsr.update (.inl (by omega))
  · exact (Function.update_of_ne (base_ne_after E l) ..).trans h.base_size
  · exact h.nodes
  · exact h.below.update h.not_mem _
  · have hpath := habove.update (not_mem_frees_of_lt (x := after E.start l) (by omega))
      (s.ptr (after E.start l + 8 * b.size))
    simpa [St.setPtr, St.setSize] using hpath
  · exact h.apart_left
  · exact (List.isChain_cons.mp h.apart_right).2

/-- It is not: the block links to the next node. -/
theorem joinUp_link (h : Loose E s l b r ns p (s.ptr p)) (hup : after E.start l + 8 * b.size ≠ s.ptr p) :
    Loose E (joinUp s (after E.start l) p) l ⟨b.size, true, b.pos⟩ r ns p
      ((joinUp s (after E.start l) p).ptr (after E.start l)) := by
  have hend := h.end_le
  have hlt := h.brk_lt
  have hpos := b.pos
  obtain ⟨hsl, hsb, hsr⟩ := sized_append.mp h.sized
  have hjoin : joinUp s (after E.start l) p = s.setPtr (after E.start l) (s.ptr p) := by
    rw [joinUp, h.size_eq, plus_eq (by omega), if_neg hup]
  rw [hjoin]
  constructor
  · rw [after_split]
    exact h.brk.trans after_split
  · exact hlt
  · exact sized_append.mpr ⟨hsl, hsb, hsr⟩
  · exact h.base_size
  · exact h.nodes
  · exact h.below.update h.not_mem _
  · have hpath := h.above.update (not_mem_frees_of_lt (x := after E.start l) (by omega)) (s.ptr p)
    simpa [St.setPtr] using hpath
  · exact h.apart_left
  · exact h.apart_right

theorem joinUp_spec (h : Loose E s l b r ns p (s.ptr p)) :
    ∃ c r', c.free = true ∧ b.size ≤ c.size ∧ (∀ d ∈ r'.head?, ¬ d.free = true) ∧
      allocs (after E.start l + 8 * c.size) r' = allocs (after E.start l + 8 * b.size) r ∧
      Loose E (joinUp s (after E.start l) p) l c r' ns p
        ((joinUp s (after E.start l) p).ptr (after E.start l)) := by
  by_cases hup : after E.start l + 8 * b.size = s.ptr p
  · obtain ⟨d, r', rfl, hd⟩ := h.next_eq_iff.mp hup
    refine ⟨_, r', rfl, Nat.le_add_right _ _, fun e he hfree => ?_, ?_, joinUp_merge h hd⟩
    · exact (List.isChain_cons.mp h.apart_right).1 e he ⟨hd, hfree⟩
    · rw [allocs, if_pos hd, Nat.mul_add, Nat.add_assoc]
  · refine ⟨⟨b.size, true, b.pos⟩, r, rfl, Nat.le_refl _, fun d hd hfree => ?_, rfl, joinUp_link h hup⟩
    obtain ⟨r', rfl⟩ := List.head?_eq_some_iff.mp hd
    exact hup (h.next_eq_iff.mpr ⟨d, r', rfl, hfree⟩)

/-- A free lower neighbour is the node before. -/
theorem Loose.nodes_of_free {l' : List Block} {d : Block} (h : Loose E s (l' ++ [d]) b r ns p y)
    (hd : d.free = true) : ns = E.base :: frees E.start l' ∧ p = after E.start l' := by
  have hnodes : (E.base :: frees E.start l') ++ [after E.start l'] = ns ++ [p] := by
    rw [← h.nodes, frees_append, frees, if_pos hd]
    rfl
  obtain ⟨hns, hp⟩ := List.append_inj' hnodes rfl
  exact ⟨hns.symm, (List.cons.inj hp).1.symm⟩

/-- The lower neighbour is free just when the node before ends there. -/
theorem Loose.prev_eq_iff (h : Loose E s l b r ns p y) :
    p + 8 * s.size p = after E.start l ↔ ∃ l' d, l = l' ++ [d] ∧ d.free = true := by
  obtain ⟨hsl, -⟩ := sized_append.mp h.sized
  rcases List.eq_nil_or_concat' l with rfl | ⟨l', d, rfl⟩
  · have hp : p = E.base := List.mem_singleton.mp (last_mem h.nodes)
    have hbase := E.base_lt
    rw [hp, h.base_size]
    constructor
    · intro he
      exact absurd he (by rw [after]; omega)
    · rintro ⟨l', d, hl, -⟩
      simp at hl
  · obtain ⟨hsl', hsd, -⟩ := sized_append.mp hsl
    by_cases hd : d.free = true
    · refine ⟨fun _ => ⟨l', d, rfl, hd⟩, fun _ => ?_⟩
      rw [(h.nodes_of_free hd).2, hsd, after_split]
      rfl
    · have hp := (last_mem h.nodes)
      rw [frees_append, frees, if_neg hd, frees, List.append_nil] at hp
      have hle := node_end_le hsl' h.base_size hp
      have hpos := d.pos
      rw [after_split, after]
      constructor
      · intro he
        omega
      · rintro ⟨l'', d', hl, hd'⟩
        obtain ⟨-, hdd⟩ := List.append_inj' hl rfl
        rw [(List.cons.inj hdd).1] at hd
        exact absurd hd' hd

/-- The lower neighbour is free: it takes the block in. -/
theorem joinDown_merge {d : Block} (h : Loose E s (l ++ [d]) b r ns p (s.ptr (after E.start (l ++ [d]))))
    (hd : d.free = true) (hr : ∀ c ∈ r.head?, ¬ c.free = true) :
    Reps E { joinDown s (after E.start (l ++ [d])) p with freep := p }
      (l ++ ⟨d.size + b.size, true, Nat.add_pos_left d.pos _⟩ :: r) := by
  have hdown := h.prev_eq_iff.mpr ⟨l, d, rfl, hd⟩
  obtain ⟨rfl, hp⟩ := h.nodes_of_free hd
  have hend := h.end_le
  have hlt := h.brk_lt
  have hpos := d.pos
  obtain ⟨hsld, hsb, hsr⟩ := sized_append.mp h.sized
  obtain ⟨hsl, hsd, -⟩ := sized_append.mp hsld
  rw [← hp] at hsd
  have hl : after E.start (l ++ [d]) = p + 8 * d.size := by rw [hp, after_split, after]
  have hsum : p + 8 * d.size + 8 * b.size = p + 8 * (d.size + b.size) := by omega
  have habove := h.above
  rw [hl, hsum] at hsr habove
  have hjoin : joinDown s (after E.start (l ++ [d])) p =
      (s.setSize p (d.size + b.size)).setPtr p (s.ptr (p + 8 * d.size)) := by
    rw [joinDown, plus_eq (by omega), if_pos hdown, hsd, h.size_eq, Nat.mod_eq_of_lt (by omega), hl]
    rfl
  have hcircle : E.base :: frees E.start (l ++ ⟨d.size + b.size, true, Nat.add_pos_left d.pos _⟩ :: r) =
      (E.base :: frees E.start l) ++ p :: frees (p + 8 * (d.size + b.size)) r := by
    rw [frees_append, frees, if_pos rfl, ← hp]
    rfl
  rw [hjoin]
  constructor
  · refine h.brk.trans ?_
    rw [after_split, hl, hsum, after_split, ← hp]
  · exact hlt
  · refine sized_append.mpr ⟨hsl.update (.inr hp.ge), ?_, ?_⟩
    · rw [← hp]
      exact Function.update_self ..
    · rw [← hp]
      exact hsr.update (.inl (by omega))
  · have hne : E.base ≠ p := hp ▸ base_ne_after E l
    exact (Function.update_of_ne hne ..).trans h.base_size
  · rw [hcircle, Path.append_cons]
    refine ⟨h.below.update (last_not_mem h.nodes) _, ?_⟩
    have hpath := habove.update (not_mem_frees_of_lt (x := p) (by omega)) (s.ptr (p + 8 * d.size))
    simpa [St.setPtr, St.setSize] using hpath
  · rw [hcircle]
    simp
  · obtain ⟨hal, -, hlast, -⟩ := apart_append_cons.mp h.apart_left
    exact apart_append_cons.mpr ⟨hal, h.apart_right, fun c hc hboth => hlast c hc ⟨hboth.1, hd⟩,
      fun c hc hboth => hr c hc hboth.2⟩

/-- It is not: the node before links to the block. -/
theorem joinDown_link (h : Loose E s l b r ns p (s.ptr (after E.start l))) (hb : b.free = true)
    (hdown : p + 8 * s.size p ≠ after E.start l) (hr : ∀ c ∈ r.head?, ¬ c.free = true) :
    Reps E { joinDown s (after E.start l) p with freep := p } (l ++ b :: r) := by
  have hend := h.end_le
  have hlt := h.brk_lt
  have hp := node_lt (last_mem h.nodes)
  have hp_end := node_end_le (sized_append.mp h.sized).1 h.base_size (last_mem h.nodes)
  have hjoin : joinDown s (after E.start l) p = s.setPtr p (after E.start l) := by
    rw [joinDown, plus_eq (by omega), if_neg hdown]
  have hcircle : E.base :: frees E.start (l ++ b :: r) =
      ns ++ p :: after E.start l :: frees (after E.start l + 8 * b.size) r := by
    rw [frees_append, frees, if_pos hb, ← List.cons_append, h.nodes, List.append_assoc]
    rfl
  rw [hjoin]
  constructor
  · exact h.brk
  · exact hlt
  · exact h.sized
  · exact h.base_size
  · rw [hcircle, Path.append_cons]
    refine ⟨h.below.update (last_not_mem h.nodes) _, Function.update_self .., ?_⟩
    have hne : after E.start l ≠ p := by omega
    have hpath := h.above.update (not_mem_frees_of_lt (x := p) (by omega)) (after E.start l)
    rw [← Function.update_of_ne hne (after E.start l) s.ptr] at hpath
    exact hpath
  · rw [hcircle]
    simp
  · refine apart_append_cons.mpr ⟨h.apart_left, h.apart_right, fun d hd hboth => ?_,
      fun c hc hboth => hr c hc hboth.2⟩
    obtain ⟨l', rfl⟩ := List.getLast?_eq_some_iff.mp hd
    exact hdown (h.prev_eq_iff.mpr ⟨l', d, rfl, hboth.1⟩)

theorem joinDown_spec (h : Loose E s l b r ns p (s.ptr (after E.start l))) (hb : b.free = true)
    (hr : ∀ c ∈ r.head?, ¬ c.free = true) :
    ∃ bs, Reps E { joinDown s (after E.start l) p with freep := p } bs ∧
      allocs E.start bs = allocs E.start l ++ allocs (after E.start l + 8 * b.size) r ∧
      ∃ d ∈ bs, d.free = true ∧ b.size ≤ d.size := by
  by_cases hdown : p + 8 * s.size p = after E.start l
  · obtain ⟨l', d, rfl, hd⟩ := h.prev_eq_iff.mp hdown
    refine ⟨_, joinDown_merge h hd hr, ?_, _, List.mem_append_right l' List.mem_cons_self, rfl,
      Nat.le_add_left _ _⟩
    rw [allocs_append, allocs, if_pos rfl, allocs_append, allocs, if_pos hd, allocs, List.append_nil,
      after_split, after, Nat.mul_add, Nat.add_assoc]
  · refine ⟨_, joinDown_link h hb hdown hr, ?_, b, List.mem_append_right l List.mem_cons_self, hb, Nat.le_refl _⟩
    rw [allocs_append, allocs, if_pos hb]

/-- The loop of `free` ends at the node before the block, and nowhere else. -/
theorem stop_iff (h : Loose E s l b r ns p (s.ptr p)) {x : Nat}
    (hx : x ∈ ns ++ p :: frees (after E.start l + 8 * b.size) r) : Stop s (after E.start l) x ↔ x = p := by
  have hpos := b.pos
  have hp := node_lt (last_mem h.nodes)
  have hstart := le_after E.start l
  have hbase := E.base_lt
  have hsorted := circle_pairwise E l
  rw [h.nodes] at hsorted
  obtain ⟨hns, -, hlt⟩ := List.pairwise_append.mp hsorted
  rcases List.mem_append.mp hx with hx | hx
  · -- a node below `p` links to one that is not above it
    have hxp := hlt x hx p (List.mem_singleton_self p)
    have hnext : x < s.ptr x ∧ s.ptr x ≤ p := by
      obtain he | ⟨hmem, hxn⟩ := h.below.lt_next hns hx
      · omega
      · exact ⟨hxn, (hlt _ hmem p (List.mem_singleton_self p)).le⟩
    unfold Stop
    omega
  · rcases List.mem_cons.mp hx with rfl | hx
    · refine ⟨fun _ => rfl, fun _ => ?_⟩
      unfold Stop
      rcases h.above.start with he | hmem
      · have hbp : E.base ≤ x := by
          rcases List.mem_cons.mp (last_mem h.nodes) with rfl | hmem
          · exact Nat.le_refl _
          · exact (base_lt_of_mem_frees (Nat.le_refl _) hmem).le
        omega
      · have hle := (bounds_of_mem_frees hmem).1
        omega
    · -- a node above the block links to a greater one or to `base`
      have hle := (bounds_of_mem_frees hx).1
      have hnext : x < s.ptr x ∨ s.ptr x = E.base := by
        obtain he | ⟨-, hxn⟩ := h.above.lt_next (frees_pairwise _ _) hx
        · exact .inr he
        · exact .inl hxn
      unfold Stop
      omega

theorem Reps.length_circle_le (h : Reps E s bs) : (E.base :: frees E.start bs).length ≤ s.brk := by
  have hlen := length_frees_le E.start bs
  have hbase := E.base_lt
  rw [h.brk, List.length_cons]
  omega

/-- The circle from `freep` on. -/
theorem Reps.rotate (h : Reps E s bs) : ∃ ns, Path s.ptr s.freep (s.freep :: ns) s.freep ∧
    (s.freep :: ns).Perm (E.base :: frees E.start bs) := by
  obtain ⟨l₁, l₂, hl⟩ := List.mem_iff_append.mp h.freep
  have hpath := h.path
  rw [hl] at hpath
  refine ⟨l₂ ++ l₁, hpath.rotate, ?_⟩
  rw [hl]
  have hcomm : ((s.freep :: l₂) ++ l₁).Perm (l₁ ++ s.freep :: l₂) := List.perm_append_comm
  exact hcomm

theorem Reps.loose (h : Reps E s (l ++ b :: r)) (hb : b.free = false) :
    ∃ ns p, Loose E s l b r ns p (s.ptr p) := by
  obtain ⟨ns, p, hnodes⟩ : ∃ ns p, E.base :: frees E.start l = ns ++ [p] := by
    rcases List.eq_nil_or_concat' (E.base :: frees E.start l) with hnil | ⟨ns, p, hns⟩
    · cases hnil
    · exact ⟨ns, p, hns⟩
  have hpath := h.path
  rw [frees_append, frees, hb, if_neg Bool.false_ne_true, ← List.cons_append, hnodes, List.append_assoc] at hpath
  obtain ⟨hbelow, habove⟩ := Path.append_cons.mp hpath
  obtain ⟨hal, har, -⟩ := apart_append_cons.mp h.apart
  exact ⟨ns, p, h.brk, h.brk_lt, h.sized, h.base_size, hnodes, hbelow, habove, hal, har⟩

theorem free_spec (h : Reps E s (l ++ b :: r)) (hb : b.free = false) :
    ∃ s' bs, free s (after E.start l + 8) = some s' ∧ Reps E s' bs ∧ s'.brk = s.brk ∧
      allocs E.start bs = allocs E.start l ++ allocs (after E.start l + 8 * b.size) r ∧
      ∃ d ∈ bs, d.free = true ∧ b.size ≤ d.size := by
  obtain ⟨ns, p, hloose⟩ := h.loose hb
  obtain ⟨ms, hcircle, hperm⟩ := h.rotate
  have hnodes : E.base :: frees E.start (l ++ b :: r) =
      ns ++ p :: frees (after E.start l + 8 * b.size) r := by
    rw [frees_append, frees, hb, if_neg Bool.false_ne_true, ← List.cons_append, hloose.nodes, List.append_assoc]
    rfl
  rw [hnodes] at hperm
  have hfuel : (s.freep :: ms).length ≤ s.brk := by
    rw [hperm.length_eq, ← hnodes]
    exact h.length_circle_le
  have hp : p ∈ s.freep :: ms := hperm.mem_iff.mpr (by simp)
  obtain ⟨x, hx, hstop, hfind⟩ := hcircle.find ⟨p, hp, (stop_iff hloose (by simp)).mpr rfl⟩ hfuel
  obtain rfl := (stop_iff hloose (hperm.mem_iff.mp hx)).mp hstop
  obtain ⟨c, r', hc, hsize, hr', hallocs, hup⟩ := joinUp_spec hloose
  obtain ⟨bs, hreps, hallocs', d, hd, hfree, hsize'⟩ := joinDown_spec hup hc hr'
  refine ⟨_, bs, ?_, hreps, ?_, hallocs'.trans (by rw [hallocs]), d, hd, hfree, hsize.trans hsize'⟩
  · rw [free]
    simp only [Nat.add_sub_cancel, hfind]
    rfl
  · simp only [joinDown, joinUp]
    split_ifs <;> rfl

end Join

end Xv6.User.Umalloc
