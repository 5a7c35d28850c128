import Xv6.User.Heap
import Xv6.Vm.Grow

/-!
# User — `malloc` and the argument of `sbrk`

`malloc` for requests of every size.  `morecore` passes `nu * sizeof(Header)`, a `uint`, to `sbrk`, whose parameter is an
`int`: from `2 ^ 28` units on the kernel sees a negative number and takes memory away, and at `2 ^ 29` units the product is
0; the sum in `nunits` wraps too, for the seven largest requests.  `sbrk` returns the old break all the same, and what is
behind it goes into the list as a block of this size.

The sizes are what they should be just for requests of `2 ^ 31 - 16` bytes at most (`units_eq_iff`), and for these
`malloc` gives room for what was asked for, below the break, or returns 0 (`malloc_honours`).
-/

namespace Xv6.User.Umalloc.Signed
open Lib Vm

/-- `sys_sbrk` with `growproc`: `allocuvm` for more memory, which may fail, and `deallocuvm` for less. -/
def sbrk (E : Env) (s : St) (n : Int32) : Option Nat × St :=
  let newsz := u32addInt s.brk n
  let s' := { s with calls := s.calls + 1 }
  if 0 < n.toInt then
    if kernbase ≤ newsz then (none, s')
    else if newsz < s.brk then (some s.brk, s')
    else if E.ok s.calls then (some s.brk, { s' with brk := newsz })
    else (none, s')
  else if n.toInt < 0 then
    let sz := if s.brk ≤ newsz then s.brk else newsz
    if sz = 0 then (none, s') else (some s.brk, { s' with brk := sz })
  else (some s.brk, s')

/-- `nu * sizeof(Header)`, as `sbrk` gets it. -/
def sbrkArg (nu : Nat) : Int32 := (UInt32.ofNat (nu * 8)).toInt32

def morecore (E : Env) (s : St) (nu : Nat) : Option (Nat × St) :=
  let nu := if nu < 4096 then 4096 else nu
  match sbrk E s (sbrkArg nu) with
  | (none, s) => some (0, s)
  | (some p, s) => do
      let s ← free (s.setSize p nu) (p + 8)
      return (s.freep, s)

def malloc (E : Env) (s : St) (nbytes : UInt32) : Option (Nat × St) :=
  let s := initBase E s
  let fuel := 2 * s.brk + 8 * nunits nbytes + 8 * 4096
  mallocLoopWith (morecore E) (nunits nbytes) fuel s s.freep (s.ptr s.freep)

/-- As in `Umalloc`, but for `malloc`. -/
def call (E : Env) (s : Sys) : Event → Option Sys
  | .malloc nbytes => do
      let (r, st) ← malloc E s.st nbytes
      return ⟨st, if r = 0 then s.live else (r, nbytes) :: s.live⟩
  | e => Umalloc.call E s e

def step (E : Env) (s : Sys) (e : Event) : Option Sys := if Legal s e then call E s e else none

/-! ### The sizes -/

theorem sbrkArg_toInt (nu : Nat) :
    (sbrkArg nu).toInt = if nu * 8 % 2 ^ 32 < 2 ^ 31 then ((nu * 8 % 2 ^ 32 : Nat) : Int)
      else (nu * 8 % 2 ^ 32 : Nat) - 2 ^ 32 := by
  have hbits := BitVec.toInt_eq_toNat_cond (UInt32.ofNat (nu * 8)).toBitVec
  rw [show (UInt32.ofNat (nu * 8)).toBitVec.toInt = (sbrkArg nu).toInt from rfl,
    show (UInt32.ofNat (nu * 8)).toBitVec.toNat = nu * 8 % 2 ^ 32 from UInt32.toNat_ofNat'] at hbits
  rw [hbits]
  split_ifs <;> omega

theorem sbrkArg_eq {nu : Nat} (h : nu * 8 < 2 ^ 31) : (sbrkArg nu).toInt = nu * 8 := by
  rw [sbrkArg_toInt]
  omega

/-- **The sizes**: the units are enough for the bytes and `sbrk` is asked for the units, at least 4096, just for these
requests. -/
theorem units_eq_iff (nbytes : UInt32) :
    (nunits nbytes = (nbytes.toNat + 7) / 8 + 1 ∧ (sbrkArg (max 4096 (nunits nbytes))).toInt = max 4096 (nunits nbytes) * 8) ↔
      nbytes.toNat ≤ 2 ^ 31 - 16 := by
  constructor
  · rintro ⟨hunits, harg⟩
    rw [sbrkArg_toInt] at harg
    have hval := nunits_val nbytes
    have hlt := nbytes.toNat_lt
    by_contra hbig
    split_ifs at harg <;> omega
  · intro h
    have hunits : nunits nbytes = (nbytes.toNat + 7) / 8 + 1 := nunits_eq (by omega)
    exact ⟨hunits, by rw [sbrkArg_eq (by omega)]⟩

/-! ### Runs -/

section Calls
variable {E : Env} {s s' : Sys} {st : St} {bs : List Block} {nu : Nat} {nbytes : UInt32} {e : Event}

/-- **`morecore`** for units whose bytes are a positive `int`. -/
theorem morecore_spec (h : Reps E st bs) (hbrk : st.brk < kernbase) (hnu : nu * 8 < 2 ^ 31) :
    Extends E (· < kernbase) st bs nu (morecore E st nu) := by
  have hkern : kernbase = 2 ^ 31 := rfl
  obtain ⟨n, hn, hn', hpos, hle, hlt⟩ : ∃ n, n = (if nu < 4096 then 4096 else nu) ∧ nu ≤ n ∧ 0 < n ∧ n ≤ nu + 4096 ∧
      n * 8 < 2 ^ 31 := by
    refine ⟨_, rfl, ?_, ?_, ?_, ?_⟩ <;> split_ifs <;> omega
  have harg := sbrkArg_eq hlt
  have hnew : u32addInt st.brk (sbrkArg n) = st.brk + n * 8 := by
    rw [u32addInt, harg]
    omega
  have hfail : Extends E (· < kernbase) st bs nu (some (0, { st with calls := st.calls + 1 })) :=
    .inl ⟨_, rfl, ⟨h.brk, h.brk_lt, h.sized, h.base_size, h.path, h.freep, h.apart⟩, rfl⟩
  rw [morecore, ← hn, sbrk, hnew, if_pos (by rw [harg]; omega)]
  split_ifs with htop hless hok
  · exact hfail
  · omega
  · exact extends_of_free h hn' hle hpos (by omega) (by omega) (st.calls + 1)
  · exact hfail

/-- The heap, and that all of it is below `KERNBASE`. -/
def Inv (E : Env) (s : Sys) : Prop := Umalloc.Inv E s ∧ s.st.brk < kernbase

theorem initBase_brk : (initBase E st).brk = st.brk := by
  rw [initBase]
  split_ifs <;> rfl

/-- **`malloc`** for a request that is not too large. -/
theorem Inv.malloc (h : Inv E s) (hlegal : Legal s (.malloc nbytes)) :
    ∃ r st, Signed.malloc E s.st nbytes = some (r, st) ∧
      Inv E ⟨st, if r = 0 then s.live else (r, nbytes) :: s.live⟩ := by
  obtain ⟨bs, hreps, hlive⟩ := h.1.initBase
  have hbrk : (initBase E s.st).brk < kernbase := initBase_brk.trans_lt h.2
  have hnu := nunits_eq hlegal.1
  obtain ⟨r, st, bs', hloop, hreps', hbrk', hr⟩ :=
    mallocLoop_spec hreps (show 0 < nunits nbytes by omega) hbrk (morecore_spec hreps hbrk hlegal.2)
  exact ⟨r, st, hloop, .of_malloc hlive hreps' (by omega) hr, hbrk'⟩

theorem free_brk {ap : Nat} {st' : St} (h : free st ap = some st') : st'.brk = st.brk := by
  obtain ⟨p, -, hp⟩ := Option.bind_eq_some_iff.mp h
  cases hp
  simp only [joinDown, joinUp]
  split_ifs <;> rfl

theorem Inv.call (h : Inv E s) (hlegal : Legal s e) : ∃ s', Signed.call E s e = some s' ∧ Inv E s' := by
  cases e with
  | malloc nbytes =>
      obtain ⟨r, st, hrun, hinv⟩ := h.malloc hlegal
      refine ⟨_, ?_, hinv⟩
      rw [Signed.call, hrun]
      rfl
  | free ap =>
      obtain ⟨s', hrun, hinv⟩ := h.1.free hlegal
      obtain ⟨st, hfree, hs'⟩ := Option.bind_eq_some_iff.mp hrun
      refine ⟨s', hrun, hinv, ?_⟩
      cases hs'
      exact (free_brk hfree).trans_lt h.2
  | write x v w =>
      obtain ⟨s', hrun, hinv⟩ := h.1.write hlegal
      refine ⟨s', hrun, hinv, ?_⟩
      cases hrun
      exact h.2

theorem Inv.step (h : Inv E s) (hstep : Signed.step E s e = some s') : Inv E s' := by
  unfold Signed.step at hstep
  split_ifs at hstep with hlegal
  obtain ⟨s'', hcall, hinv⟩ := h.call hlegal
  rw [hcall] at hstep
  cases hstep
  exact hinv

end Calls

/-- **`malloc`**, after any calls with requests that are not too large, for another such: it returns 0 or a pointer to
the bytes asked for, below the break, and the heap is intact.  `sbrk` is asked for all the units. -/
theorem malloc_honours (E : Env) (hstart : E.start < kernbase) (ptr size : Nat → Nat) {es : List Event} {s : Sys}
    (h : runs (step E) (init E ptr size) es = some s) (nbytes : UInt32) (hn : nbytes.toNat ≤ 2 ^ 31 - 16) :
    ∃ r st, malloc E s.st nbytes = some (r, st) ∧
      (∃ bs, Intact E ⟨st, if r = 0 then s.live else (r, nbytes) :: s.live⟩ bs) ∧
      (r ≠ 0 → E.start ≤ r ∧ r + nbytes.toNat ≤ st.brk) ∧ st.brk < kernbase ∧
      nunits nbytes = (nbytes.toNat + 7) / 8 + 1 ∧
      (sbrkArg (max 4096 (nunits nbytes))).toInt = max 4096 (nunits nbytes) * 8 := by
  have hinv : Inv E s := runs_inv_all (fun _ _ _ hs hstep => hs.step hstep) ⟨.inl ⟨rfl, rfl, rfl⟩, hstart⟩ h
  obtain ⟨hunits, harg⟩ := (units_eq_iff nbytes).mpr hn
  have hlegal : Legal s (.malloc nbytes) := ⟨by omega, by omega⟩
  obtain ⟨r, st, hrun, hinv'⟩ := hinv.malloc hlegal
  obtain ⟨bs, hintact⟩ := hinv'.1.intact
  refine ⟨r, st, hrun, ⟨bs, hintact⟩, fun hr => ?_, hinv'.2, hunits, harg⟩
  have hlive := hintact.live
  rw [if_neg hr] at hlive
  obtain ⟨⟨x, z⟩, ha, hx, hroom⟩ := hlive.room (r, nbytes) List.mem_cons_self
  obtain ⟨l, b, r', rfl, -, rfl, rfl⟩ := mem_allocs ha
  have hlow := le_after E.start l
  have hhigh := le_after (after E.start l + 8 * b.size) r'
  have hbrk : st.brk = _ := hintact.brk
  have hpos := b.pos
  rw [after_split] at hbrk
  dsimp only at hx hroom
  omega

theorem fewCalls_runs_signed : (runs (step smallEnv) (init smallEnv blank blank) fewCalls).isSome = true := by
  decide

/-- One more request after these calls. -/
theorem malloc_honours_next :
    ∃ r st, malloc smallEnv ((runs (step smallEnv) (init smallEnv blank blank) fewCalls).get fewCalls_runs_signed).st 100 =
        some (r, st) ∧ (r ≠ 0 → smallEnv.start ≤ r ∧ r + 100 ≤ st.brk) := by
  obtain ⟨r, st, hrun, -, hr, -⟩ := malloc_honours smallEnv (by decide) blank blank
    (Option.some_get fewCalls_runs_signed).symm 100 (by decide)
  exact ⟨r, st, hrun, hr⟩

/-- The first request of a process of 4096 bytes.  For `2 ^ 32 - 16` bytes `sbrk(-8)` is called, for `2 ^ 32 - 8` bytes
`sbrk(0)`, and for `2 ^ 32 - 1` bytes there is one unit: `malloc` returns a pointer behind the process's memory, or to a
block with no room. -/
theorem malloc_large_no_room :
    ((sbrkArg (max 4096 (nunits 4294967280))).toInt = -8 ∧
      (malloc smallEnv (init smallEnv blank blank).st 4294967280).any (fun r => r.2.brk = 4088 ∧ r.1 = 4104) = true) ∧
    ((sbrkArg (max 4096 (nunits 4294967288))).toInt = 0 ∧
      (malloc smallEnv (init smallEnv blank blank).st 4294967288).any (fun r => r.2.brk = 4096 ∧ r.1 = 4104) = true) ∧
    (nunits 4294967295 = 1 ∧ (malloc smallEnv (init smallEnv blank blank).st 4294967295).any
      (fun r => r.1 ≠ 0 ∧ r.2.brk < r.1 + 4294967295 ∧ r.2.size (r.1 - 8) = 1) = true) := by
  decide

end Xv6.User.Umalloc.Signed
