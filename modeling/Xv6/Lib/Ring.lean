import Mathlib

/-!
# Lib — Ring buffers with free-running counters

`N` cells and two counters of `w` bits that only ever count up: one of the values taken out, one of
the values put in.  A counter is reduced modulo `N` when it indexes a cell and wraps modulo `2 ^ w`
by itself; when `N` divides `2 ^ w` the two reductions agree, and the buffer is a queue
(`toList_push`, `toList_eq_cons`) for as long as it runs.  What was put in last can be taken back
(`toList_unpush`).
-/

namespace Xv6.Lib

structure Ring (α : Type*) (w N : Nat) where
  data : Fin N → α
  nread : BitVec w
  nwrite : BitVec w

namespace Ring
variable {α : Type*} {w N : Nat} {r : Ring α w N} {a : α}

/-- How many values are in the buffer. -/
def count (r : Ring α w N) : Nat := (r.nwrite - r.nread).toNat

theorem count_eq_zero : r.count = 0 ↔ r.nread = r.nwrite := by
  constructor
  · intro h
    have h0 : r.nwrite - r.nread = 0 := BitVec.eq_of_toNat_eq (by simpa [count] using h)
    exact (BitVec.eq_sub_iff_add_eq.mp h0.symm).symm ▸ by simp
  · intro h
    simp [count, h]

theorem count_lt (r : Ring α w N) : r.count < 2 ^ w := (r.nwrite - r.nread).isLt

/-- `nwrite` is `count` ahead of `nread`. -/
theorem nwrite_eq (r : Ring α w N) : r.nwrite = r.nread + BitVec.ofNat w r.count := by
  rw [count, BitVec.ofNat_toNat, BitVec.setWidth_eq, BitVec.add_comm, BitVec.sub_add_cancel]

/-- The counters are `k` apart just when there are `k` values. -/
theorem count_eq_iff {k : Nat} (hk : k < 2 ^ w) :
    r.count = k ↔ r.nwrite = r.nread + BitVec.ofNat w k := by
  constructor
  · rintro rfl
    exact r.nwrite_eq
  · intro h
    rw [count, h, BitVec.add_comm, BitVec.add_sub_cancel, BitVec.toNat_ofNat, Nat.mod_eq_of_lt hk]

def pop (r : Ring α w N) : Ring α w N := { r with nread := r.nread + 1 }

theorem count_pop (h : r.count ≠ 0) : r.pop.count = r.count - 1 := by
  have hlt := r.count_lt
  rw [count_eq_iff (by omega)]
  show r.nwrite = r.nread + 1 + BitVec.ofNat w (r.count - 1)
  rw [BitVec.add_assoc, r.nwrite_eq]
  congr 1
  have : r.count = 1 + (r.count - 1) := by omega
  conv_lhs => rw [this, BitVec.ofNat_add]
  rfl

variable [NeZero N]

/-- The cell a counter stands for. -/
def index (c : BitVec w) : Fin N := Fin.ofNat N c.toNat

def push (r : Ring α w N) (a : α) : Ring α w N :=
  { r with data := Function.update r.data (index r.nwrite) a, nwrite := r.nwrite + 1 }

/-- The value `pop` takes. -/
def front (r : Ring α w N) : α := r.data (index r.nread)

/-- The values in the buffer, the oldest first. -/
def toList (r : Ring α w N) : List α :=
  (List.range r.count).map fun k => r.data (index (r.nread + BitVec.ofNat w k))

theorem count_push (h : r.count + 1 < 2 ^ w) : (r.push a).count = r.count + 1 := by
  rw [count_eq_iff h]
  show r.nwrite + 1 = r.nread + BitVec.ofNat w (r.count + 1)
  rw [r.nwrite_eq, BitVec.ofNat_add, BitVec.add_assoc]
  rfl

/-- Cells of counters fewer than `N` apart are different. -/
theorem index_inj (hN : N ∣ 2 ^ w) (c : BitVec w) {j k : Nat} (hj : j < N) (hk : k < N)
    (h : (index (c + BitVec.ofNat w j) : Fin N) = index (c + BitVec.ofNat w k)) : j = k := by
  have hmod : ∀ j, (c + BitVec.ofNat w j).toNat % N = (c.toNat + j) % N := by
    intro j
    rw [BitVec.toNat_add, BitVec.toNat_ofNat, Nat.mod_mod_of_dvd _ hN, Nat.add_mod,
      Nat.mod_mod_of_dvd _ hN, ← Nat.add_mod]
  have heq : (c.toNat + j) % N = (c.toNat + k) % N := by
    rw [← hmod, ← hmod]
    exact congrArg Fin.val h
  have hcancel : j % N = k % N := Nat.ModEq.add_left_cancel' c.toNat heq
  rwa [Nat.mod_eq_of_lt hj, Nat.mod_eq_of_lt hk] at hcancel

/-- **A value put in is the last one.** -/
theorem toList_push (hN : N ∣ 2 ^ w) (h : r.count < N) (h' : r.count + 1 < 2 ^ w) :
    (r.push a).toList = r.toList ++ [a] := by
  rw [toList, count_push h', List.range_succ, List.map_append, toList]
  congr 1
  · refine List.map_congr_left fun k hk => ?_
    have hk' := List.mem_range.mp hk
    refine Function.update_of_ne (fun heq => ?_) _ _
    rw [r.nwrite_eq] at heq
    exact absurd (index_inj hN r.nread (by omega) h heq) (by omega)
  · rw [List.map_singleton]
    refine congrArg (fun x => [x]) ?_
    show Function.update r.data (index r.nwrite) a (index (r.nread + BitVec.ofNat w r.count)) = a
    rw [← r.nwrite_eq, Function.update_self]

/-- **The value taken out is the first one.** -/
theorem toList_eq_cons (h : r.count ≠ 0) : r.toList = r.front :: r.pop.toList := by
  rw [toList, toList, count_pop h]
  obtain ⟨k, hk⟩ := Nat.exists_eq_succ_of_ne_zero h
  rw [hk, List.range_succ_eq_map, List.map_cons, List.map_map]
  congr 1
  · simp [front]
  · refine List.map_congr_left fun j _ => ?_
    show r.data (index (r.nread + BitVec.ofNat w (j + 1))) =
      r.data (index (r.nread + 1 + BitVec.ofNat w j))
    rw [BitVec.add_assoc, Nat.add_comm, BitVec.ofNat_add]
    rfl

/-- Takes the value put in last back. -/
def unpush (r : Ring α w N) : Ring α w N := { r with nwrite := r.nwrite - 1 }

/-- The value put in last. -/
def back (r : Ring α w N) : α := r.data (index (r.nwrite - 1))

theorem unpush_push (r : Ring α w N) : r.unpush.push r.back = r := by
  cases r
  simp [unpush, push, back]

omit [NeZero N] in
theorem count_unpush (h : r.count ≠ 0) : r.unpush.count = r.count - 1 := by
  have hlt := r.count_lt
  rw [count_eq_iff (by omega)]
  show r.nwrite - 1 = r.nread + BitVec.ofNat w (r.count - 1)
  obtain ⟨k, hk⟩ := Nat.exists_eq_succ_of_ne_zero h
  rw [r.nwrite_eq, hk, Nat.succ_eq_add_one, Nat.add_sub_cancel, BitVec.ofNat_add, ← BitVec.add_assoc]
  exact BitVec.add_sub_cancel _ 1

/-- **The value taken back is the last one.** -/
theorem toList_unpush (hN : N ∣ 2 ^ w) (h : r.count ≠ 0) (hle : r.count ≤ N) :
    r.toList = r.unpush.toList ++ [r.back] := by
  have hlt := r.count_lt
  conv_lhs => rw [← r.unpush_push]
  exact toList_push hN (by rw [count_unpush h]; omega) (by rw [count_unpush h]; omega)

theorem length_toList (r : Ring α w N) : r.toList.length = r.count := by
  rw [toList, List.length_map, List.length_range]

end Ring

end Xv6.Lib
