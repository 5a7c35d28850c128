import Mathlib

/-!
# Str — `memmove`

The `memmove` of `string.c`, which the kernel uses, and that of `ulib.c`.  A pointer is 32 bits wide and memory is a
byte for each.

The kernel's copies downward, from the end, when the destination begins inside the source, and so it always moves the
bytes (`memmove_moves`).  The one of the library only copies upward.  When the destination begins `k` bytes into the
source it repeats the first `k` bytes instead (`copyUp_overlap`), so it moves them only if the source repeats itself
(`ulib_moves_iff`).
-/

namespace Xv6.Str

abbrev Addr := BitVec 32

abbrev Mem := Addr → UInt8

/-- `while(n-- > 0) *d++ = *s++;` -/
def copyUp (m : Mem) (d s : Addr) : Nat → Mem
  | 0 => m
  | n + 1 => copyUp (Function.update m d (m s)) (d + 1) (s + 1) n

/-- `while(n-- > 0) *--d = *--s;` -/
def copyDown (m : Mem) (d s : Addr) : Nat → Mem
  | 0 => m
  | n + 1 => copyDown (Function.update m (d - 1) (m (s - 1))) (d - 1) (s - 1) n

/-- `memmove` of `string.c`: memory after it. -/
def memmove (m : Mem) (dst src : Addr) (n : BitVec 32) : Mem :=
  if src < dst ∧ src + n > dst then copyDown m (dst + n) (src + n) n.toNat
  else copyUp m dst src n.toNat

namespace Ulib

/-- `memmove` of `ulib.c`: memory after it. -/
def memmove (m : Mem) (vdst vsrc : Addr) (n : Int32) : Mem := copyUp m vdst vsrc n.toInt.toNat

end Ulib

/-- Byte `i` from `a` on. -/
def off (a : Addr) (i : Nat) : Addr := a + BitVec.ofNat 32 i

/-- The `n` bytes at `dst` are those that were at `src`, and all others are as they were. -/
structure Moved (m m' : Mem) (dst src : Addr) (n : Nat) : Prop where
  copied : ∀ i < n, m' (off dst i) = m (off src i)
  frame : ∀ a, (∀ i < n, a ≠ off dst i) → m' a = m a

section Copy
variable {m m' m'' : Mem} {d s a : Addr} {n i j : Nat}

theorem off_zero (a : Addr) : off a 0 = a := BitVec.add_zero a

theorem off_succ (a : Addr) (i : Nat) : off (a + 1) i = off a (i + 1) := by
  rw [off, off, BitVec.ofNat_add, BitVec.add_assoc, BitVec.add_comm 1]
  rfl

/-- The addresses of a range that does not wrap around are different. -/
theorem off_inj (h : a.toNat + n ≤ 2 ^ 32) (hi : i < n) (hj : j < n) (heq : off a i = off a j) : i = j := by
  have hval := congrArg BitVec.toNat heq
  simp only [off, BitVec.toNat_add, BitVec.toNat_ofNat] at hval
  omega

theorem toNat_off (h : a.toNat + i < 2 ^ 32) : (off a i).toNat = a.toNat + i := by
  simp only [off, BitVec.toNat_add, BitVec.toNat_ofNat]
  omega

/-- What has been moved is determined. -/
theorem Moved.unique (h : Moved m m' d s n) (h' : Moved m m'' d s n) : m' = m'' := by
  funext a
  by_cases ha : ∀ i < n, a ≠ off d i
  · rw [h.frame a ha, h'.frame a ha]
  · push Not at ha
    obtain ⟨i, hi, rfl⟩ := ha
    rw [h.copied i hi, h'.copied i hi]

/-! ### Upward -/

/-- The last round of the loop. -/
theorem copyUp_succ : copyUp m d s (n + 1) =
    Function.update (copyUp m d s n) (off d n) (copyUp m d s n (off s n)) := by
  induction n generalizing m d s with
  | zero => rw [copyUp, copyUp, copyUp, off_zero, off_zero]
  | succ n ih => rw [copyUp, ih, ← off_succ, ← off_succ, copyUp]

theorem copyUp_frame (ha : ∀ i < n, a ≠ off d i) : copyUp m d s n a = m a := by
  induction n with
  | zero => rfl
  | succ n ih =>
      rw [copyUp_succ, Function.update_of_ne (ha n (Nat.lt_succ_self n))]
      exact ih fun i hi => ha i (Nat.lt_succ_of_lt hi)

/-- A copy upward whose destination does not begin inside the source. -/
theorem copyUp_moves (hd : d.toNat + n ≤ 2 ^ 32) (hs : s.toNat + n ≤ 2 ^ 32)
    (hapart : d.toNat ≤ s.toNat ∨ s.toNat + n ≤ d.toNat) : Moved m (copyUp m d s n) d s n := by
  refine ⟨fun i hi => ?_, fun a ha => copyUp_frame ha⟩
  induction n with
  | zero => omega
  | succ n ih =>
      rw [copyUp_succ]
      by_cases hin : i = n
      · subst hin
        -- the byte is read before its place is written to
        rw [Function.update_self]
        refine copyUp_frame fun j hj heq => ?_
        have hval := congrArg BitVec.toNat heq
        rw [toNat_off (by omega), toNat_off (by omega)] at hval
        omega
      · rw [Function.update_of_ne fun heq => hin (off_inj hd hi (Nat.lt_succ_self n) heq)]
        exact ih (by omega) (by omega) (by omega) (by omega)

/-- A copy upward whose destination begins `k` bytes into the source. -/
theorem copyUp_overlap {k : Nat} (hk : 0 < k) (hd : d.toNat + n ≤ 2 ^ 32) (hds : d.toNat = s.toNat + k) (hi : i < n) :
    copyUp m d s n (off d i) = m (off s (i % k)) := by
  induction n generalizing i with
  | zero => omega
  | succ n ih =>
      rw [copyUp_succ]
      by_cases hin : i = n
      · subst hin
        rw [Function.update_self]
        by_cases hik : i < k
        · -- the first `k` bytes are still as they were
          rw [Nat.mod_eq_of_lt hik]
          refine copyUp_frame fun j hj heq => ?_
          have hval := congrArg BitVec.toNat heq
          rw [toNat_off (by omega), toNat_off (by omega)] at hval
          omega
        · have hback : off s i = off d (i - k) := by
            apply BitVec.eq_of_toNat_eq
            rw [toNat_off (by omega), toNat_off (by omega)]
            omega
          rw [hback, ih (by omega) (by omega), ← Nat.mod_eq_sub_mod (not_lt.mp hik)]
      · rw [Function.update_of_ne fun heq => hin (off_inj hd hi (Nat.lt_succ_self n) heq)]
        exact ih (by omega) (by omega)

/-! ### Downward -/

theorem off_succ_sub (a : Addr) (n : Nat) : off a (n + 1) - 1 = off a n := by
  rw [off, off, BitVec.ofNat_add, ← BitVec.add_assoc]
  exact BitVec.add_sub_cancel _ _

/-- A copy downward whose source does not begin inside the destination. -/
theorem copyDown_moves (hd : d.toNat + n ≤ 2 ^ 32) (hs : s.toNat + n ≤ 2 ^ 32)
    (hapart : s.toNat ≤ d.toNat ∨ d.toNat + n ≤ s.toNat) :
    Moved m (copyDown m (off d n) (off s n) n) d s n := by
  induction n generalizing m with
  | zero => exact ⟨fun i hi => absurd hi (Nat.not_lt_zero i), fun _ _ => rfl⟩
  | succ n ih =>
      rw [copyDown, off_succ_sub, off_succ_sub]
      have hrest := ih (m := Function.update m (off d n) (m (off s n))) (by omega) (by omega) (by omega)
      refine ⟨fun i hi => ?_, fun a ha => ?_⟩
      · by_cases hin : i = n
        · subst hin
          rw [hrest.frame _ fun j hj heq => (Nat.ne_of_gt hj) (off_inj hd hi (by omega) heq), Function.update_self]
        · rw [hrest.copied i (by omega)]
          refine Function.update_of_ne (fun heq => ?_) _ _
          have hval := congrArg BitVec.toNat heq
          rw [toNat_off (by omega), toNat_off (by omega)] at hval
          omega
      · rw [hrest.frame a fun i hi => ha i (by omega)]
        exact Function.update_of_ne (ha n (Nat.lt_succ_self n)) _ _

end Copy

/-! ### The two functions -/

section Move
variable {m : Mem} {dst src : Addr}

/-- **The kernel's `memmove`** moves the bytes, whatever the overlap. -/
theorem memmove_moves {n : BitVec 32} (hd : dst.toNat + n.toNat ≤ 2 ^ 32) (hs : src.toNat + n.toNat ≤ 2 ^ 32) :
    Moved m (memmove m dst src n) dst src n.toNat := by
  rw [memmove]
  split
  · rename_i hover
    have hlt : src.toNat < dst.toNat := BitVec.lt_def.mp hover.1
    have hdown := copyDown_moves (m := m) hd hs (.inl hlt.le)
    rw [off, off, BitVec.ofNat_toNat, BitVec.setWidth_eq] at hdown
    exact hdown
  · rename_i hapart
    refine copyUp_moves hd hs ?_
    by_contra hin
    push Not at hin
    -- `src + n` does not wrap around, since the destination ends behind it
    refine hapart ⟨BitVec.lt_def.mpr hin.1, BitVec.lt_def.mpr ?_⟩
    rw [BitVec.toNat_add, Nat.mod_eq_of_lt (by omega)]
    exact hin.2

/-- The source repeats its first bytes, up to where the destination begins inside it. -/
def Repeats (m : Mem) (dst src : Addr) (n : Nat) : Prop :=
  src.toNat < dst.toNat → dst.toNat < src.toNat + n →
    ∀ i < n, m (off src (i % (dst.toNat - src.toNat))) = m (off src i)

theorem ulib_moves_iff {n : Int32} (hd : dst.toNat + n.toInt.toNat ≤ 2 ^ 32)
    (hs : src.toNat + n.toInt.toNat ≤ 2 ^ 32) :
    Moved m (Ulib.memmove m dst src n) dst src n.toInt.toNat ↔ Repeats m dst src n.toInt.toNat := by
  rw [Ulib.memmove]
  constructor
  · intro hmoved hlt _ i hi
    rw [← hmoved.copied i hi]
    exact (copyUp_overlap (by omega) hd (by omega) hi).symm
  · intro hrepeat
    by_cases hin : src.toNat < dst.toNat ∧ dst.toNat < src.toNat + n.toInt.toNat
    · refine ⟨fun i hi => ?_, fun a ha => copyUp_frame ha⟩
      rw [copyUp_overlap (by omega : 0 < dst.toNat - src.toNat) hd (by omega) hi]
      exact hrepeat hin.1 hin.2 i hi
    · exact copyUp_moves hd hs (by omega)

theorem toNat_toBitVec {n : Int32} (hn : 0 ≤ n.toInt) : n.toBitVec.toNat = n.toInt.toNat := by
  have hlt := n.toBitVec.isLt
  have hval := BitVec.toInt_eq_toNat_cond n.toBitVec
  rw [show n.toBitVec.toInt = n.toInt from rfl] at hval
  split at hval
  · rw [hval, Int.toNat_natCast]
  · omega

/-- **The two functions**: the kernel's moves the bytes whatever the overlap; the library's does, and so agrees with it,
when the destination does not begin inside the source, or the source repeats its first bytes, and only then. -/
theorem memmoves_agree {n : Int32} (hn : 0 ≤ n.toInt) (hd : dst.toNat + n.toInt.toNat ≤ 2 ^ 32)
    (hs : src.toNat + n.toInt.toNat ≤ 2 ^ 32) :
    (∀ k : BitVec 32, dst.toNat + k.toNat ≤ 2 ^ 32 → src.toNat + k.toNat ≤ 2 ^ 32 →
        Moved m (memmove m dst src k) dst src k.toNat) ∧
      (Moved m (Ulib.memmove m dst src n) dst src n.toInt.toNat ↔ Repeats m dst src n.toInt.toNat) ∧
      (Ulib.memmove m dst src n = memmove m dst src n.toBitVec ↔ Repeats m dst src n.toInt.toNat) := by
  have hbits := toNat_toBitVec hn
  have hkernel : Moved m (memmove m dst src n.toBitVec) dst src n.toInt.toNat := by
    rw [← hbits]
    exact memmove_moves (by rw [hbits]; exact hd) (by rw [hbits]; exact hs)
  have hulib := ulib_moves_iff (m := m) hd hs
  refine ⟨fun k => memmove_moves, hulib, ?_⟩
  rw [← hulib]
  constructor
  · intro heq
    rw [heq]
    exact hkernel
  · intro hmoved
    exact hmoved.unique hkernel

end Move

/-- Every byte is the low byte of its address. -/
def steps : Mem := fun a => UInt8.ofNat a.toNat

/-- Two bytes, to one place down. -/
theorem memmoves_agree_down : Ulib.memmove steps 0 1 2 = memmove steps 0 1 2 := by
  have hn : 0 ≤ (2 : Int32).toInt := by decide
  exact (memmoves_agree (m := steps) hn (by decide) (by decide)).2.2.mpr fun hlt => absurd hlt (by decide)

/-- Two bytes, to one place up. -/
theorem ulib_memmove_repeats : ¬ Moved steps (Ulib.memmove steps 1 0 2) 1 0 2 := by
  intro h
  exact absurd (h.copied 1 (by decide)) (by decide)

end Xv6.Str
