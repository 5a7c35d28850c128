import Xv6.Lib.Bytes

/-!
# Syscall — the arguments of a system call

The functions of `syscall.c` that fetch the arguments off the user stack, with the process's memory
as the kernel sees it.  Of a process below `KERNBASE`, what they accept is in the process: a word
(`fetchint_inside`), a string with its NUL (`fetchstr_inside`), and for a size that is not negative
the block that `argptr` gives (`argptr_inside`).  A negative size is not refused.
-/

namespace Xv6.Syscall
open Lib

/-- `KERNBASE`. -/
def kernbase : Nat := 2 ^ 31

/-- The memory of the process, and its registers as far as the calls look at them. -/
structure User where
  sz : UInt32
  esp : UInt32
  mem : UInt32 → UInt8

/-- The value of a word as an `int`. -/
def sint (x : UInt32) : Int := x.toBitVec.toInt

theorem sint_eq (x : UInt32) : sint x = if x.toNat < 2 ^ 31 then (x.toNat : Int)
    else x.toNat - 2 ^ 32 := by
  rw [sint, BitVec.toInt_eq_toNat_cond]
  have hx : x.toBitVec.toNat = x.toNat := rfl
  rw [hx]
  split <;> split <;> omega

theorem toNat_sint (x : UInt32) : (sint x).toNat = if x.toNat < 2 ^ 31 then x.toNat else 0 := by
  have := x.toNat_lt
  rw [sint_eq]
  split <;> omega

section Fetch
variable (u : User)

def fetchint (addr : UInt32) : Option UInt32 :=
  if addr ≥ u.sz ∨ addr + 4 > u.sz then none
  else some (.ofNat (leNat [u.mem addr, u.mem (addr + 1), u.mem (addr + 2), u.mem (addr + 3)]))

/-- `fetchstr`'s loop from `s`, with `left` bytes in front of `ep`: where the NUL is. -/
def findNul : (left : Nat) → (s : UInt32) → Option UInt32
  | 0, _ => none
  | left + 1, s => if u.mem s = 0 then some s else findNul left (s + 1)

/-- The string at `addr` and its length. -/
def fetchstr (addr : UInt32) : Option (UInt32 × UInt32) :=
  if addr ≥ u.sz then none
  else (findNul u (u.sz.toNat - addr.toNat) addr).map fun s => (addr, s - addr)

def argint (n : Nat) : Option UInt32 := fetchint u (u.esp + 4 + 4 * .ofNat n)

def argptr (n : Nat) (size : UInt32) : Option UInt32 :=
  match argint u n with
  | none => none
  | some i => if i ≥ u.sz ∨ i + size > u.sz then none else some i

def argstr (n : Nat) : Option (UInt32 × UInt32) :=
  match argint u n with
  | none => none
  | some addr => fetchstr u addr

end Fetch

/-! ### What is accepted is in the process -/

/-- The `n` bytes from `p` on. -/
def User.Inside (u : User) (p : UInt32) (n : Nat) : Prop := p.toNat + n ≤ u.sz.toNat

section Inside
variable {u : User}

theorem fetchint_inside (hsz : u.sz.toNat < kernbase) {addr v : UInt32}
    (h : fetchint u addr = some v) : u.Inside addr 4 := by
  unfold fetchint at h
  split at h
  · cases h
  · rename_i hok
    simp only [ge_iff_le, gt_iff_lt, UInt32.le_iff_toNat_le, UInt32.lt_iff_toNat_lt,
      UInt32.toNat_add, kernbase] at hok hsz
    have h4 : (4 : UInt32).toNat = 4 := rfl
    rw [User.Inside]
    omega

/-- The NUL that is found is before `ep`, and it is the first one. -/
theorem findNul_inside {left : Nat} {s e : UInt32} (hleft : s.toNat + left < 2 ^ 32)
    (h : findNul u left s = some e) : s.toNat ≤ e.toNat ∧ e.toNat < s.toNat + left ∧ u.mem e = 0 ∧
      ∀ a : UInt32, s.toNat ≤ a.toNat → a.toNat < e.toNat → u.mem a ≠ 0 := by
  induction left generalizing s with
  | zero => cases h
  | succ left ih =>
      rw [findNul] at h
      split at h
      · rename_i h0
        cases h
        exact ⟨le_rfl, by omega, h0, fun a ha ha' => absurd ha (by omega)⟩
      · rename_i h0
        have hs : (s + 1).toNat = s.toNat + 1 := by
          rw [UInt32.toNat_add]
          exact Nat.mod_eq_of_lt (by have : (1 : UInt32).toNat = 1 := rfl; omega)
        obtain ⟨hlow, hhigh, hnul, hfirst⟩ := ih (by omega) h
        refine ⟨by omega, by omega, hnul, fun a ha ha' => ?_⟩
        by_cases heq : a.toNat = s.toNat
        · rw [UInt32.toNat_inj.mp heq]
          exact h0
        · exact hfirst a (by omega) ha'

theorem fetchstr_inside {addr p len : UInt32} (h : fetchstr u addr = some (p, len)) :
    p = addr ∧ u.Inside p (len.toNat + 1) ∧ u.mem (p + len) = 0 ∧
      ∀ k < len, u.mem (p + k) ≠ 0 := by
  unfold fetchstr at h
  split at h
  · cases h
  · rename_i hlt
    obtain ⟨e, he, heq⟩ := Option.map_eq_some_iff.mp h
    cases heq
    have hsz := u.sz.toNat_lt
    simp only [ge_iff_le, UInt32.le_iff_toNat_le, not_le] at hlt
    obtain ⟨hlow, hhigh, hnul, hfirst⟩ := findNul_inside (by omega) he
    have hlen : (e - addr).toNat = e.toNat - addr.toNat := UInt32.toNat_sub_of_le _ _ hlow
    refine ⟨rfl, ?_, ?_, fun k hk => ?_⟩
    · rw [User.Inside, hlen]
      omega
    · rw [UInt32.add_comm, UInt32.sub_add_cancel]
      exact hnul
    · have hk' : k.toNat < e.toNat - addr.toNat := hlen ▸ UInt32.lt_iff_toNat_lt.mp hk
      have hak : (addr + k).toNat = addr.toNat + k.toNat := by
        rw [UInt32.toNat_add]
        exact Nat.mod_eq_of_lt (by have := e.toNat_lt; omega)
      exact hfirst _ (by omega) (by omega)

theorem argptr_eq_some {n : Nat} {size p : UInt32} : argptr u n size = some p ↔
    argint u n = some p ∧ p < u.sz ∧ p + size ≤ u.sz := by
  unfold argptr
  cases argint u n with
  | none => simp
  | some i =>
      dsimp only
      split
      · rename_i hbad
        simp only [reduceCtorEq, Option.some.injEq, false_iff, not_and]
        rintro rfl hlt
        obtain hge | hgt := hbad
        · exact absurd hlt (UInt32.not_lt.mpr hge)
        · exact UInt32.not_le.mpr hgt
      · rename_i hok
        obtain ⟨hlt, hle⟩ := not_or.mp hok
        simp only [Option.some.injEq]
        constructor
        · rintro rfl
          exact ⟨rfl, UInt32.not_le.mp hlt, UInt32.not_lt.mp hle⟩
        · exact fun h => h.1

/-- The block `[p, p + size)`, empty for a negative size. -/
theorem argptr_inside (hsz : u.sz.toNat < kernbase) {n : Nat} {size p : UInt32}
    (h : argptr u n size = some p) : p.toNat < u.sz.toNat ∧ u.Inside p (sint size).toNat := by
  obtain ⟨-, hlt, hle⟩ := argptr_eq_some.mp h
  rw [UInt32.lt_iff_toNat_lt] at hlt
  rw [UInt32.le_iff_toNat_le, UInt32.toNat_add] at hle
  refine ⟨hlt, ?_⟩
  rw [User.Inside, toNat_sint]
  unfold kernbase at hsz
  split <;> omega

end Inside

end Xv6.Syscall
