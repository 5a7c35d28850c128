import Xv6.Mmu.Copy

/-!
# Mmu — the arguments of `exec`

`uva2ka` and `copyout` on the bytes of memory, and what `exec` does with them: the loop that pushes the argument
strings, and the copy of `ustack`.

A copy that begins below the stack page has the page in front of it on its way, and fails there; one that wraps
around begins above `KERNBASE` (`push_wp`).  So a push that succeeds is in the stack page, and what is there in the
end is the argument vector (`ArgVector.delivered`).  All bytes that change are in pages of the process
(`pushStack_stores`), unless a string is so long that `sp` comes to lie below the devices, where `uva2ka` finds no
page table.
-/

namespace Xv6.Mmu
open Lib Lib.Prog Vm

/-- `uva2ka`: the page, if it is present and has `PTE_U`.  Without a page table the entry is read through the null
pointer. -/
def uva2ka (m : Memory) (pgdir uva : Nat) : Option (Option Nat) :=
  (walkpgdir m pgdir uva).map fun p =>
    if present (word m p.1 p.2) = false then none
    else if user (word m p.1 p.2) = false then none
    else some (pteAddr (word m p.1 p.2))

/-- A round of `copyout`: the page of `va`, and the bytes moved to it. -/
def copyoutPage (pgdir va : Nat) (bytes : List UInt8) : VmM Bool := do
  let m ← gets Machine.mem
  match uva2ka m pgdir (va / pgsize * pgsize) with
  | none => stop .nullPte
  | some none => pure false
  | some (some pa) => do
      setPage pa ((m pa).splice (va % pgsize) bytes)
      pure true

/-- `copyout`'s loop, for `n` rounds at most. -/
def copyoutLoop (pgdir : Nat) : (n va : Nat) → (buf : List UInt8) → VmM Bool
  | 0, _, _ => pure true
  | n + 1, va, buf =>
      if buf.length = 0 then pure true
      else do
        let ok ← copyoutPage pgdir va (buf.take (pgsize - va % pgsize))
        if ok then copyoutLoop pgdir n (u32 (va / pgsize * pgsize + pgsize)) (buf.drop (pgsize - va % pgsize))
        else pure false

/-- `copyout`; `false` for `-1`.  Every round moves a byte. -/
def copyout (pgdir va : Nat) (buf : List UInt8) : VmM Bool := copyoutLoop pgdir buf.length va buf

/-- The loop over the argument strings; `ustack` has the pointers so far, from `ustack[3]` on.  `none` for
`goto bad`. -/
def pushArgs (pgdir : Nat) : (argv : List (List UInt8)) → (sp : Nat) → (ustack : List Nat) →
    VmM (Option (Nat × List Nat))
  | [], sp, ustack => pure (some (sp, ustack))
  | arg :: argv, sp, ustack =>
      if ustack.length ≥ maxarg then pure none
      else do
        let sp := u32sub sp (arg.length + 1) / 4 * 4
        let ok ← copyout pgdir sp (arg ++ [0])
        if ok then pushArgs pgdir argv sp (ustack ++ [sp]) else pure none

/-- `ustack`, when the strings are on the stack. -/
def ustackOf (sp : Nat) (ptrs : List Nat) : List Nat :=
  0xffffffff :: ptrs.length :: u32sub sp ((ptrs.length + 1) * 4) :: (ptrs ++ [0])

/-- The strings and the argument vector go on the stack below `sz`: the new `sp`. -/
def pushStack (pgdir sz : Nat) (argv : List (List UInt8)) : VmM (Option Nat) := do
  let r ← pushArgs pgdir argv sz []
  match r with
  | none => pure none
  | some (sp, ptrs) => do
      let ok ← copyout pgdir (u32sub sp ((3 + ptrs.length + 1) * 4)) ((ustackOf sp ptrs).flatMap (bytesLE 4))
      if ok then pure (some (u32sub sp ((3 + ptrs.length + 1) * 4))) else pure none

/-! ### `copyout` -/

/-- Present, with `PTE_U`. -/
def Open (w : Nat) : Prop := present w = true ∧ user w = true

/-- The pages that user code sees are not of the directory. -/
def Clean (m : Memory) (pgdir : Nat) : Prop :=
  ∀ va, Open (pte m pgdir va) → ¬ Node m pgdir (pteAddr (pte m pgdir va))

/-- The directory is as it was in `m`. -/
def Kept (m : Memory) (pgdir : Nat) (s : Machine) : Prop := ∀ f, Node m pgdir f → s.mem f = m f

/-- The bytes that change are at addresses in `[a, b)`, in pages that are present and have `PTE_U`. -/
structure Stores (m : Memory) (pgdir a b : Nat) (s s' : Machine) : Prop where
  rest : s' = { s with mem := s'.mem }
  byte : ∀ f o, (s'.mem f).get o ≠ (s.mem f).get o →
    ∃ va, a ≤ va ∧ va < b ∧ Open (pte m pgdir va) ∧ pteAddr (pte m pgdir va) = f ∧ va % pgsize = o

/-- The machine with these bytes moved to the page of `va`. -/
def poke (m : Memory) (pgdir va : Nat) (bytes : List UInt8) (s : Machine) : Machine :=
  { s with
    mem := Function.update s.mem (pteAddr (pte m pgdir va))
      ((s.mem (pteAddr (pte m pgdir va))).splice (va % pgsize) bytes) }

section Copyout
variable {m : Memory} {pgdir a b c va : Nat} {s s₁ s' : Machine} {buf : List UInt8}

theorem Stores.refl : Stores m pgdir a b s s := ⟨rfl, fun _ _ h => absurd rfl h⟩

theorem Stores.mono (h : Stores m pgdir a b s s') {a' b' : Nat} (ha : a' ≤ a) (hb : b ≤ b') :
    Stores m pgdir a' b' s s' := by
  refine ⟨h.rest, fun f o hne => ?_⟩
  obtain ⟨va, hl, hh, hva⟩ := h.byte f o hne
  exact ⟨va, ha.trans hl, hh.trans_le hb, hva⟩

theorem Stores.trans (h : Stores m pgdir a b s s₁) (h' : Stores m pgdir a b s₁ s') : Stores m pgdir a b s s' := by
  refine ⟨?_, fun f o hne => ?_⟩
  · rw [h'.rest, h.rest]
  · by_cases hmid : (s'.mem f).get o = (s₁.mem f).get o
    · exact h.byte f o (hmid ▸ hne)
    · exact h'.byte f o hmid

theorem Kept.table (h : Kept m pgdir s) (i : Nat) : table s.mem pgdir i = table m pgdir i :=
  table_congr (h pgdir node_self)

theorem Kept.pte (h : Kept m pgdir s) (va : Nat) : pte s.mem pgdir va = pte m pgdir va := pte_congr h

theorem Kept.stores (h : Kept m pgdir s) (hc : Clean m pgdir) (hs : Stores m pgdir a b s s') : Kept m pgdir s' := by
  intro f hf
  rw [← h f hf]
  funext o
  by_contra hne
  have hget : (s'.mem f).get o ≠ (s.mem f).get o := by
    rw [Bytes.get_of_lt o.isLt, Bytes.get_of_lt o.isLt]
    exact hne
  obtain ⟨va, -, -, hopen, rfl, -⟩ := hs.byte f o hget
  exact hc va hopen hf

/-- The addresses of a page have one entry. -/
theorem pte_samePage {x : Nat} (h : x / pgsize = va / pgsize) : pte m pgdir x = pte m pgdir va := by
  rw [← pte_page x, h, pte_page]

theorem pdx_page (va : Nat) : pdx (va / pgsize * pgsize) = pdx va := by
  simp only [pdx, pgsize]
  omega

theorem uva2ka_none (h : Kept m pgdir s) (ht : table m pgdir (pdx va) = none) :
    uva2ka s.mem pgdir (va / pgsize * pgsize) = none := by
  rw [uva2ka, walkpgdir_none]
  · rfl
  · rw [h.table, pdx_page, ht]

theorem uva2ka_closed (h : Kept m pgdir s) {t : Nat} (ht : table m pgdir (pdx va) = some t)
    (hno : ¬ Open (pte m pgdir va)) : uva2ka s.mem pgdir (va / pgsize * pgsize) = some none := by
  have hs : table s.mem pgdir (pdx (va / pgsize * pgsize)) = some t := by rw [h.table, pdx_page, ht]
  have hw : word s.mem t (ptx (va / pgsize * pgsize)) = pte m pgdir va := by
    rw [← pte_some hs, h.pte, pte_page]
  rw [uva2ka, walkpgdir_some hs, Option.map_some, hw]
  by_cases hp : present (pte m pgdir va) = false
  · rw [if_pos hp]
  · rw [if_neg hp, if_pos]
    rw [Bool.not_eq_false] at hp
    exact Bool.not_eq_true _ ▸ fun hu => hno ⟨hp, hu⟩

theorem uva2ka_open (h : Kept m pgdir s) (hopen : Open (pte m pgdir va)) :
    uva2ka s.mem pgdir (va / pgsize * pgsize) = some (some (pteAddr (pte m pgdir va))) := by
  obtain ⟨t, ht⟩ := table_of_present hopen.1
  have hs : table s.mem pgdir (pdx (va / pgsize * pgsize)) = some t := by rw [h.table, pdx_page, ht]
  have hw : word s.mem t (ptx (va / pgsize * pgsize)) = pte m pgdir va := by
    rw [← pte_some hs, h.pte, pte_page]
  rw [uva2ka, walkpgdir_some hs, Option.map_some, hw, if_neg (by rw [hopen.1]; decide),
    if_neg (by rw [hopen.2]; decide)]

/-- One page of `copyout`. -/
theorem stores_poke {b : List UInt8} (hopen : Open (pte m pgdir va)) (hfit : va % pgsize + b.length ≤ pgsize) :
    Stores m pgdir va (va + b.length) s (poke m pgdir va b s) := by
  refine ⟨rfl, fun f o hne => ?_⟩
  have hf : f = pteAddr (pte m pgdir va) := by
    by_contra hf
    exact hne (congrArg (Bytes.get · o) (Function.update_of_ne hf _ _))
  subst hf
  have hself : (poke m pgdir va b s).mem (pteAddr (pte m pgdir va)) =
      (s.mem (pteAddr (pte m pgdir va))).splice (va % pgsize) b := Function.update_self ..
  rw [hself] at hne
  have hin : va % pgsize ≤ o ∧ o < va % pgsize + b.length := by
    by_contra hout
    exact hne (Bytes.get_splice_of_disjoint (by omega))
  have hdm := Nat.div_add_mod va pgsize
  have hx : (va / pgsize * pgsize + o) / pgsize = va / pgsize := by
    simp only [pgsize] at hin hfit ⊢
    omega
  refine ⟨va / pgsize * pgsize + o, ?_, ?_, ?_, ?_, ?_⟩
  · rw [Nat.mul_comm]
    omega
  · rw [Nat.mul_comm]
    omega
  · rw [pte_samePage hx]
    exact hopen
  · rw [pte_samePage hx]
  · rw [Nat.mul_comm, Nat.mul_add_mod, Nat.mod_eq_of_lt (by omega)]

theorem copyoutLoop_nil {n : Nat} : copyoutLoop pgdir n va [] = pure true := by
  cases n with
  | zero => rfl
  | succ n => rw [copyoutLoop, if_pos List.length_nil]

theorem copyoutPage_wp {bytes : List UInt8} (hk : Kept m pgdir s) :
    Wp (copyoutPage pgdir va bytes) s (fun e => e = .nullPte ∧ table m pgdir (pdx va) = none) fun ok s' =>
      if ok then Open (pte m pgdir va) ∧ s' = poke m pgdir va bytes s else s' = s := by
  simp only [copyoutPage, wp_bind, wp_gets]
  cases ht : table m pgdir (pdx va) with
  | none =>
      rw [uva2ka_none hk ht]
      exact wp_stop.mpr ⟨rfl, rfl⟩
  | some t =>
      by_cases hopen : Open (pte m pgdir va)
      · rw [uva2ka_open hk hopen]
        simp only [setPage, wp_bind, wp_modify, wp_pure]
        exact ⟨hopen, rfl⟩
      · rw [uva2ka_closed hk ht hopen]
        exact wp_pure.mpr rfl

/-- A copy to a page that user code does not see. -/
theorem copyout_closed (hk : Kept m pgdir s) (hne : buf.length ≠ 0) (hno : ¬ Open (pte m pgdir va)) :
    Wp (copyout pgdir va buf) s (fun e => e = .nullPte ∧ table m pgdir (pdx va) = none) fun ok s' =>
      ok = false ∧ s' = s := by
  obtain ⟨n, hn⟩ := Nat.exists_eq_succ_of_ne_zero hne
  rw [copyout, hn, copyoutLoop, if_neg hne]
  refine (copyoutPage_wp hk).bind fun ok s' hs' => ?_
  cases ok with
  | false => exact wp_pure.mpr ⟨rfl, hs'⟩
  | true => exact absurd hs'.1 hno

/-- A copy that ends in its first page. -/
theorem copyoutLoop_page {n : Nat} (hk : Kept m pgdir s) (hne : buf.length ≠ 0)
    (hfit : va % pgsize + buf.length ≤ pgsize) :
    Wp (copyoutLoop pgdir (n + 1) va buf) s (fun e => e = .nullPte ∧ table m pgdir (pdx va) = none) fun ok s' =>
      if ok then Open (pte m pgdir va) ∧ s' = poke m pgdir va buf s else s' = s := by
  rw [copyoutLoop, if_neg hne, List.take_of_length_le (by omega), List.drop_eq_nil_of_le (by omega)]
  refine (copyoutPage_wp hk).bind fun ok s' hs' => ?_
  cases ok with
  | false => exact wp_pure.mpr hs'
  | true =>
      rw [if_pos rfl, copyoutLoop_nil]
      exact wp_pure.mpr hs'

theorem copyout_page (hk : Kept m pgdir s) (hne : buf.length ≠ 0) (hfit : va % pgsize + buf.length ≤ pgsize) :
    Wp (copyout pgdir va buf) s (fun e => e = .nullPte ∧ table m pgdir (pdx va) = none) fun ok s' =>
      if ok then Open (pte m pgdir va) ∧ s' = poke m pgdir va buf s else s' = s := by
  obtain ⟨n, hn⟩ := Nat.exists_eq_succ_of_ne_zero hne
  rw [copyout, hn]
  exact copyoutLoop_page hk hne hfit

/-- **`copyout`'s loop**: what it stores, and that it has found all the pages when it succeeds. -/
theorem copyoutLoop_wp {n : Nat} (hc : Clean m pgdir) (hk : Kept m pgdir s) (htop : va + buf.length ≤ 2 ^ 32)
    (hn : buf.length ≤ n) :
    Wp (copyoutLoop pgdir n va buf) s
      (fun e => e = .nullPte ∧ ∃ x, va ≤ x ∧ x < va + buf.length ∧ table m pgdir (pdx x) = none)
      fun ok s' => Stores m pgdir va (va + buf.length) s s' ∧
        (ok = true → ∀ x, va ≤ x → x < va + buf.length → Open (pte m pgdir x)) := by
  induction n generalizing va buf s with
  | zero =>
      refine wp_pure.mpr ⟨.refl, fun _ x hl hh => ?_⟩
      omega
  | succ n ih =>
    have hmod : va % pgsize < pgsize := Nat.mod_lt _ (by decide)
    by_cases hne : buf.length = 0
    · rw [copyoutLoop, if_pos hne]
      refine wp_pure.mpr ⟨.refl, fun _ x hl hh => ?_⟩
      omega
    by_cases hlast : va % pgsize + buf.length ≤ pgsize
    · refine (copyoutLoop_page hk hne hlast).mono ?_ ?_
      · rintro e ⟨rfl, ht⟩
        exact ⟨rfl, va, le_rfl, by omega, ht⟩
      · intro ok s' hs'
        cases ok with
        | false =>
            obtain rfl : s' = s := hs'
            exact ⟨.refl, nofun⟩
        | true =>
            obtain ⟨hopen, rfl⟩ := hs'
            refine ⟨stores_poke hopen hlast, fun _ x hl hh => ?_⟩
            have hx : x / pgsize = va / pgsize := by
              simp only [pgsize] at hlast ⊢
              omega
            rw [pte_samePage hx]
            exact hopen
    · -- the rest of this page, and the next ones
      have hlen : (buf.take (pgsize - va % pgsize)).length = pgsize - va % pgsize := by
        rw [List.length_take]
        omega
      have hnext : u32 (va / pgsize * pgsize + pgsize) = va + (pgsize - va % pgsize) := by
        rw [u32, Nat.mod_eq_of_lt]
        · simp only [pgsize]
          omega
        · simp only [pgsize] at hlast hmod ⊢
          omega
      have hdrop : (buf.drop (pgsize - va % pgsize)).length = buf.length - (pgsize - va % pgsize) :=
        List.length_drop
      have hend : va + (pgsize - va % pgsize) + (buf.length - (pgsize - va % pgsize)) = va + buf.length := by
        omega
      rw [copyoutLoop, if_neg hne, hnext]
      refine (copyoutPage_wp hk).seq (fun e he => ⟨he.1, va, le_rfl, by omega, he.2⟩) fun ok s₁ hs₁ => ?_
      cases ok with
      | false =>
          obtain rfl : s₁ = s := hs₁
          exact wp_pure.mpr ⟨.refl, nofun⟩
      | true =>
          obtain ⟨hopen, rfl⟩ := hs₁
          have hstores := stores_poke (s := s) (b := buf.take (pgsize - va % pgsize)) hopen (by omega)
          rw [hlen] at hstores
          have htop' : va + (pgsize - va % pgsize) + (buf.drop (pgsize - va % pgsize)).length ≤ 2 ^ 32 := by omega
          have hrest := ih (hk.stores hc hstores) htop' (by omega)
          rw [hdrop, hend] at hrest
          refine hrest.mono ?_ ?_
          · rintro e ⟨rfl, x, hl, hh, hx⟩
            exact ⟨rfl, x, by omega, hh, hx⟩
          · rintro ok s' ⟨hs', hall⟩
            refine ⟨(hstores.mono le_rfl (by omega)).trans (hs'.mono (by omega) le_rfl), fun hok x hl hh => ?_⟩
            by_cases hx : x < va + (pgsize - va % pgsize)
            · have hsame : x / pgsize = va / pgsize := by
                simp only [pgsize] at hx hmod ⊢
                omega
              rw [pte_samePage hsame]
              exact hopen
            · exact hall hok x (not_lt.mp hx) hh

theorem copyout_wp (hc : Clean m pgdir) (hk : Kept m pgdir s) (htop : va + buf.length ≤ 2 ^ 32) :
    Wp (copyout pgdir va buf) s
      (fun e => e = .nullPte ∧ ∃ x, va ≤ x ∧ x < va + buf.length ∧ table m pgdir (pdx x) = none)
      fun ok s' => Stores m pgdir va (va + buf.length) s s' ∧
        (ok = true → ∀ x, va ≤ x → x < va + buf.length → Open (pte m pgdir x)) :=
  copyoutLoop_wp hc hk htop le_rfl

end Copyout

/-! ### The stack page -/

/-- What the pushes find: the stack page is the last below `sz`, and user code sees neither the page in front of it
nor the kernel's. -/
structure Stack (m : Memory) (pgdir sz : Nat) : Prop where
  clean : Clean m pgdir
  low : 2 * pgsize ≤ sz
  high : sz < kernbase
  aligned : sz % pgsize = 0
  guard : ¬ Open (pte m pgdir (sz - 2 * pgsize))
  kernel : ∀ va, kernbase ≤ va → ¬ Open (pte m pgdir va)

/-- Where a push of `n` bytes begins. -/
def below (sp n : Nat) : Nat := u32sub sp n / 4 * 4

section Push
variable {m : Memory} {pgdir sz sp n : Nat} {s s' : Machine} {buf : List UInt8}

theorem below_of_le (hsp : sp < kernbase) (hn : n ≤ sp) : below sp n = (sp - n) / 4 * 4 := by
  simp only [below, u32sub, u32, kernbase] at hsp ⊢
  omega

theorem below_of_lt (hsp : sp < kernbase) (hn : sp < n) (hlt : n ≤ kernbase) :
    below sp n = (sp + 2 ^ 32 - n) / 4 * 4 := by
  simp only [below, u32sub, u32, kernbase] at hsp hlt ⊢
  omega

theorem kernbase_le_below (hsp : sp < kernbase) (hn : sp < n) (hlt : n ≤ kernbase) : kernbase ≤ below sp n := by
  rw [below_of_lt hsp hn hlt]
  simp only [kernbase] at hsp hlt ⊢
  omega

/-- Why a push panics: no page table below `sz`, or none where `sp` wraps around to. -/
def NoTable (m : Memory) (pgdir sz sp n : Nat) : Prop :=
  (∃ x < sz, table m pgdir (pdx x) = none) ∨ (sp < n ∧ table m pgdir (pdx (below sp n)) = none)

/-- **A push** succeeds in the stack page only. -/
theorem push_wp (buf : List UInt8) (h : Stack m pgdir sz) (hk : Kept m pgdir s) (hlow : sz - pgsize ≤ sp) (hhigh : sp ≤ sz)
    (hne : buf.length ≠ 0) (hlen : buf.length ≤ kernbase) :
    Wp (copyout pgdir (below sp buf.length) buf) s (fun e => e = .nullPte ∧ NoTable m pgdir sz sp buf.length)
      fun ok s' =>
        if ok then sz - pgsize ≤ below sp buf.length ∧ below sp buf.length + buf.length ≤ sp ∧
          Stores m pgdir (sz - pgsize) sz s s' ∧ s' = poke m pgdir (below sp buf.length) buf s
        else Stores m pgdir 0 sz s s' := by
  have hsz := h.high
  have hmod := h.aligned
  have hmin := h.low
  by_cases hwrap : sp < buf.length
  · -- the copy begins in the kernel's part, and ends there
    have hbig := kernbase_le_below (by omega) hwrap hlen
    refine (copyout_closed hk hne (h.kernel _ hbig)).mono ?_ ?_
    · rintro e ⟨rfl, ht⟩
      exact ⟨rfl, .inr ⟨hwrap, ht⟩⟩
    · rintro ok s' ⟨rfl, rfl⟩
      exact .refl
  · have hb := below_of_le (by omega : sp < kernbase) (not_lt.mp hwrap)
    by_cases hin : sz - pgsize ≤ below sp buf.length
    · have hfit : below sp buf.length % pgsize + buf.length ≤ pgsize := by
        simp only [pgsize] at hin hmod hmin hlow ⊢
        omega
      refine (copyout_page hk hne hfit).mono ?_ ?_
      · rintro e ⟨rfl, ht⟩
        exact ⟨rfl, .inl ⟨below sp buf.length, by omega, ht⟩⟩
      · intro ok s' hs'
        cases ok with
        | false =>
            obtain rfl : s' = s := hs'
            exact .refl
        | true =>
            obtain ⟨hopen, rfl⟩ := hs'
            exact ⟨hin, by omega, (stores_poke hopen hfit).mono hin (by omega), rfl⟩
    · refine (copyout_wp h.clean hk (by simp only [kernbase] at hsz; omega)).mono ?_ ?_
      · rintro e ⟨rfl, x, -, hx, ht⟩
        exact ⟨rfl, .inl ⟨x, by omega, ht⟩⟩
      · rintro ok s' ⟨hs', hall⟩
        cases ok with
        | false => exact hs'.mono (Nat.zero_le _) (by omega)
        | true =>
            -- the page in front of the stack is on the way
            exfalso
            by_cases hin' : sz - 2 * pgsize ≤ below sp buf.length
            · refine h.guard ?_
              have hpage : (sz - 2 * pgsize) / pgsize = below sp buf.length / pgsize := by
                simp only [pgsize] at hin hin' hmod hmin ⊢
                omega
              rw [pte_samePage hpage]
              exact hall rfl _ le_rfl (by omega)
            · refine h.guard (hall rfl _ (by omega) ?_)
              simp only [pgsize] at hin hin' hmod hmin hlow ⊢
              omega

/-- The strings as they lie below `top`, each below the one before it, with the last at `sp`; `base` is the address
of the page. -/
def Laid (page : Page) (base : Nat) : (top : Nat) → (argv : List (List UInt8)) → (ptrs : List Nat) → (sp : Nat) → Prop
  | top, [], [], sp => sp = top
  | top, arg :: argv, p :: ptrs, sp => p % 4 = 0 ∧ base ≤ p ∧ p + (arg.length + 1) ≤ top ∧
      page.slice (p - base) (arg.length + 1) = arg ++ [0] ∧ Laid page base p argv ptrs sp
  | _, _, _, _ => False

/-- The machine with this stack page. -/
def withStack (m : Memory) (pgdir sz : Nat) (page : Page) (s : Machine) : Machine :=
  { s with mem := Function.update s.mem (pteAddr (pte m pgdir (sz - pgsize))) page }

/-- The stack page. -/
def stackPage (m : Memory) (pgdir sz : Nat) (s : Machine) : Page := s.mem (pteAddr (pte m pgdir (sz - pgsize)))

/-- Why the pushes panic: no page table below `sz`, or none where `sp` wraps around to. -/
def Hole (m : Memory) (pgdir sz : Nat) (argv : List (List UInt8)) : Prop :=
  (∃ x < sz, table m pgdir (pdx x) = none) ∨ ∃ arg ∈ argv, ∃ sp, sz - pgsize ≤ sp ∧ sp < arg.length + 1 ∧
    table m pgdir (pdx (below sp (arg.length + 1))) = none

theorem poke_eq_withStack (buf : List UInt8) (h : Stack m pgdir sz) {va : Nat} (hl : sz - pgsize ≤ va) (hh : va < sz) :
    poke m pgdir va buf s = withStack m pgdir sz ((stackPage m pgdir sz s).splice (va - (sz - pgsize)) buf) s := by
  have hmod := h.aligned
  have hmin := h.low
  have hpage : va / pgsize = (sz - pgsize) / pgsize := by
    simp only [pgsize] at hl hmod hmin ⊢
    omega
  have hoff : va % pgsize = va - (sz - pgsize) := by
    simp only [pgsize] at hl hmod hmin ⊢
    omega
  rw [poke, pte_samePage hpage, hoff, withStack, stackPage]

theorem stackPage_withStack {page : Page} : stackPage m pgdir sz (withStack m pgdir sz page s) = page :=
  Function.update_self ..

theorem withStack_withStack {page page' : Page} :
    withStack m pgdir sz page' (withStack m pgdir sz page s) = withStack m pgdir sz page' s := by
  simp only [withStack, Function.update_idem]

theorem withStack_stackPage : withStack m pgdir sz (stackPage m pgdir sz s) s = s := by
  simp only [withStack, stackPage, Function.update_eq_self]

/-- What the loop over the strings does when it comes to its end. -/
structure Pushed (m : Memory) (pgdir sz top : Nat) (argv : List (List UInt8)) (s : Machine) (ptrs : List Nat)
    (sp : Nat) (s' : Machine) : Prop where
  stores : Stores m pgdir (sz - pgsize) sz s s'
  state : s' = withStack m pgdir sz (stackPage m pgdir sz s') s
  laid : Laid (stackPage m pgdir sz s') (sz - pgsize) top argv ptrs sp
  above : ∀ o, top - (sz - pgsize) ≤ o → (stackPage m pgdir sz s').get o = (stackPage m pgdir sz s).get o

/-- **The loop over the strings.** -/
theorem pushArgs_wp {argv : List (List UInt8)} {ustack : List Nat} (h : Stack m pgdir sz) (hk : Kept m pgdir s)
    (hlow : sz - pgsize ≤ sp) (hhigh : sp ≤ sz) (hargs : ∀ arg ∈ argv, arg.length < kernbase)
    (hmax : ustack.length ≤ maxarg) :
    Wp (pushArgs pgdir argv sp ustack) s (fun e => e = .nullPte ∧ Hole m pgdir sz argv) fun r s' =>
      match r with
      | none => Stores m pgdir 0 sz s s'
      | some (sp', ustack') => ustack'.length ≤ maxarg ∧ ∃ ptrs, ustack' = ustack ++ ptrs ∧
          Pushed m pgdir sz sp argv s ptrs sp' s' := by
  induction argv generalizing s sp ustack with
  | nil =>
      refine wp_pure.mpr ⟨hmax, [], (List.append_nil _).symm, .refl, withStack_stackPage.symm, rfl, fun _ _ => rfl⟩
  | cons arg argv ih =>
      rw [pushArgs]
      split
      · exact wp_pure.mpr .refl
      · rename_i hroom
        have hl : (arg ++ [0]).length = arg.length + 1 := List.length_append
        have hlt := hargs arg List.mem_cons_self
        have hpush := push_wp (arg ++ [0]) h hk hlow hhigh (by omega) (by omega)
        rw [hl] at hpush
        refine hpush.seq ?_ fun ok s₁ hs₁ => ?_
        · rintro e ⟨rfl, hnone | ⟨hwrap, hnone⟩⟩
          · exact ⟨rfl, .inl hnone⟩
          · exact ⟨rfl, .inr ⟨arg, List.mem_cons_self, sp, hlow, hwrap, hnone⟩⟩
        cases ok with
        | false => exact wp_pure.mpr hs₁
        | true =>
            obtain ⟨hin, hfit, hstores, hs₁⟩ := hs₁
            have hpoke := poke_eq_withStack (s := s) (arg ++ [0]) h hin (by omega)
            rw [hpoke] at hs₁
            have hk₁ := hk.stores h.clean hstores
            have hlen : (ustack ++ [below sp (arg.length + 1)]).length ≤ maxarg := by
              rw [List.length_append, List.length_singleton]
              omega
            refine (ih hk₁ hin (by omega) (fun a ha => hargs a (List.mem_cons_of_mem _ ha)) hlen).mono ?_ ?_
            · rintro e ⟨rfl, hnone | ⟨a, ha, hnone⟩⟩
              · exact ⟨rfl, .inl hnone⟩
              · exact ⟨rfl, .inr ⟨a, List.mem_cons_of_mem _ ha, hnone⟩⟩
            · intro r s' hr
              cases r with
              | none => exact (hstores.mono (Nat.zero_le _) le_rfl).trans hr
              | some r =>
                  obtain ⟨sp', ustack'⟩ := r
                  obtain ⟨hmax', ptrs, rfl, hp⟩ := hr
                  have hpage : stackPage m pgdir sz s₁ =
                      (stackPage m pgdir sz s).splice (below sp (arg.length + 1) - (sz - pgsize)) (arg ++ [0]) := by
                    rw [hs₁, stackPage_withStack]
                  have habove := hp.above
                  rw [hpage] at habove
                  refine ⟨hmax', below sp (arg.length + 1) :: ptrs, by rw [List.append_assoc]; rfl,
                    hstores.trans hp.stores, ?_, ⟨?_, hin, hfit, ?_, hp.laid⟩, fun o ho => ?_⟩
                  · rw [hp.state, hs₁, withStack_withStack, stackPage_withStack]
                  · exact Nat.mul_mod_left _ _
                  · -- what is pushed later lies below
                    have hself := Bytes.slice_splice_self (b := stackPage m pgdir sz s)
                      (show below sp (arg.length + 1) - (sz - pgsize) + (arg ++ [0]).length ≤ 4096 by
                        have := h.low
                        simp only [pgsize] at hin hfit hl this ⊢
                        omega)
                    rw [hl] at hself
                    exact (Bytes.slice_congr fun o ho _ => habove o ho).trans hself
                  · rw [habove o (by omega)]
                    exact Bytes.get_splice_of_disjoint (by rw [hl]; omega)

theorem Laid.le {page : Page} {base top : Nat} {argv : List (List UInt8)} {ptrs : List Nat}
    (h : Laid page base top argv ptrs sp) (hbase : base ≤ top) (hmod : top % 4 = 0) :
    ptrs.length = argv.length ∧ base ≤ sp ∧ sp ≤ top ∧ sp % 4 = 0 := by
  induction argv generalizing top ptrs with
  | nil =>
      cases ptrs with
      | nil =>
          obtain rfl : sp = top := h
          exact ⟨rfl, hbase, le_rfl, hmod⟩
      | cons p ptrs => exact absurd h id
  | cons arg argv ih =>
      cases ptrs with
      | nil => exact absurd h id
      | cons p ptrs =>
          obtain ⟨hp, hb, hfit, -, hrest⟩ := h
          obtain ⟨hlen, hlow, hhigh, hsp⟩ := ih hrest hb hp
          exact ⟨congrArg (· + 1) hlen, hlow, by omega, hsp⟩

/-- The strings stay when only what is below them changes. -/
theorem Laid.congr {page page' : Page} {base top : Nat} {argv : List (List UInt8)} {ptrs : List Nat}
    (h : Laid page base top argv ptrs sp) (hbase : base ≤ top) (hmod : top % 4 = 0)
    (hsame : ∀ o, sp - base ≤ o → page'.get o = page.get o) : Laid page' base top argv ptrs sp := by
  induction argv generalizing top ptrs with
  | nil =>
      cases ptrs with
      | nil => exact h
      | cons p ptrs => exact absurd h id
  | cons arg argv ih =>
      cases ptrs with
      | nil => exact absurd h id
      | cons p ptrs =>
          obtain ⟨hp, hb, hfit, hslice, hrest⟩ := h
          have hle := (hrest.le hb hp).2.2.1
          refine ⟨hp, hb, hfit, ?_, ih hrest hb hp⟩
          exact (Bytes.slice_congr fun o ho _ => hsame o (by omega)).trans hslice

theorem length_ustackOf {ptrs : List Nat} : (ustackOf sp ptrs).length = 3 + ptrs.length + 1 := by
  simp only [ustackOf, List.length_cons, List.length_append, List.length_nil]
  omega

theorem length_flatMap_bytesLE (l : List Nat) : (l.flatMap (bytesLE 4)).length = l.length * 4 := by
  induction l with
  | nil => rfl
  | cons v l ih =>
      rw [List.flatMap_cons, List.length_append, length_bytesLE, ih, List.length_cons]
      omega

/-- The stack as the program finds it, with `esp` at `ustack`. -/
structure ArgVector (page : Page) (base sz : Nat) (argv : List (List UInt8)) (ptrs : List Nat) (sp esp : Nat) :
    Prop where
  laid : Laid page base sz argv ptrs sp
  place : base ≤ esp ∧ esp + (3 + argv.length + 1) * 4 = sp
  words : page.slice (esp - base) ((3 + argv.length + 1) * 4) = (ustackOf sp ptrs).flatMap (bytesLE 4)

/-- **The pushes.** -/
theorem pushStack_wp {argv : List (List UInt8)} (h : Stack m pgdir sz) (hk : Kept m pgdir s)
    (hargs : ∀ arg ∈ argv, arg.length < kernbase) :
    Wp (pushStack pgdir sz argv) s (fun e => e = .nullPte ∧ Hole m pgdir sz argv) fun r s' =>
      match r with
      | none => Stores m pgdir 0 sz s s'
      | some esp => Stores m pgdir (sz - pgsize) sz s s' ∧ argv.length ≤ maxarg ∧ ∃ ptrs sp,
          ArgVector (stackPage m pgdir sz s') (sz - pgsize) sz argv ptrs sp esp := by
  have hsz := h.high
  have hmin := h.low
  have hmod : sz % 4 = 0 := by
    have := h.aligned
    simp only [pgsize] at this
    omega
  have hnil : ([] : List Nat).length ≤ maxarg := Nat.zero_le _
  rw [pushStack]
  refine (pushArgs_wp h hk (Nat.sub_le _ _) le_rfl hargs hnil).bind fun r s₁ hr => ?_
  cases r with
  | none => exact wp_pure.mpr hr
  | some r =>
      obtain ⟨sp, ptrs⟩ := r
      obtain ⟨hmax, _, rfl, hp⟩ := hr
      obtain ⟨hlen, hlow, hhigh, hsp⟩ := hp.laid.le (Nat.sub_le _ _) hmod
      have hbytes : ((ustackOf sp ptrs).flatMap (bytesLE 4)).length = (3 + ptrs.length + 1) * 4 := by
        rw [length_flatMap_bytesLE, length_ustackOf]
      have hsmall : (3 + ptrs.length + 1) * 4 ≤ 144 := by
        simp only [maxarg] at hmax
        omega
      have hbig : 4096 ≤ sp := by
        simp only [pgsize] at hmin hlow
        omega
      have hbelow := below_of_le (by omega : sp < kernbase) (by omega : (3 + ptrs.length + 1) * 4 ≤ sp)
      have hsub : u32sub sp ((3 + ptrs.length + 1) * 4) = below sp ((3 + ptrs.length + 1) * 4) := by
        rw [hbelow]
        simp only [u32sub, u32, kernbase] at hsz ⊢
        omega
      have hesp : below sp ((3 + ptrs.length + 1) * 4) + (3 + ptrs.length + 1) * 4 = sp := by
        omega
      have hpush := push_wp ((ustackOf sp ptrs).flatMap (bytesLE 4)) h (hk.stores h.clean hp.stores) hlow hhigh
        (by omega) (by simp only [kernbase]; omega)
      rw [hbytes] at hpush
      dsimp only
      rw [hsub]
      refine hpush.seq ?_ fun ok s' hs' => ?_
      · rintro e ⟨rfl, hnone | ⟨hwrap, -⟩⟩
        · exact ⟨rfl, .inl hnone⟩
        · omega
      cases ok with
      | false => exact wp_pure.mpr ((hp.stores.mono (Nat.zero_le _) le_rfl).trans hs')
      | true =>
          obtain ⟨hin, hfit, hstores, hs'⟩ := hs'
          have hpoke := poke_eq_withStack (s := s₁) ((ustackOf sp ptrs).flatMap (bytesLE 4)) h hin (by omega)
          have hpage : stackPage m pgdir sz s' = (stackPage m pgdir sz s₁).splice
              (below sp ((3 + ptrs.length + 1) * 4) - (sz - pgsize)) ((ustackOf sp ptrs).flatMap (bytesLE 4)) := by
            rw [hs', hpoke, stackPage_withStack]
          refine wp_pure.mpr ⟨hp.stores.trans hstores, by omega, ptrs, sp, ?_, ⟨hin, by omega⟩, ?_⟩
          · refine hp.laid.congr (Nat.sub_le _ _) hmod fun o ho => ?_
            rw [hpage]
            exact Bytes.get_splice_of_disjoint (by rw [hbytes]; omega)
          · have hself := Bytes.slice_splice_self (b := stackPage m pgdir sz s₁)
              (show below sp ((3 + ptrs.length + 1) * 4) - (sz - pgsize) +
                ((ustackOf sp ptrs).flatMap (bytesLE 4)).length ≤ 4096 by
                simp only [pgsize] at hin hmin hbytes ⊢
                omega)
            rw [hbytes] at hself
            rw [hpage, ← hlen]
            exact hself

end Push

/-! ### Where the pushes store -/

section Touch
variable {m : Memory} {pgdir sz va : Nat} {s : Machine} {argv : List (List UInt8)} {buf : List UInt8}

/-- A copy to where there is no page table. -/
theorem copyout_null {Q : Bool → Machine → Prop} (hnone : table s.mem pgdir (pdx va) = none) (hne : buf.length ≠ 0) :
    Wp (copyout pgdir va buf) s (· = .nullPte) Q := by
  obtain ⟨n, hn⟩ := Nat.exists_eq_succ_of_ne_zero hne
  rw [copyout, hn, copyoutLoop, if_neg hne, copyoutPage]
  simp only [wp_bind, wp_gets, uva2ka_none (fun _ _ => rfl) hnone]
  exact wp_stop.mpr rfl

end Touch

/-- The directory of a page table with these two entries, and of an empty one for the devices. -/
def stackDir : Page :=
  (List.range 8).foldl (fun page i => page.write (4 * (1016 + i)) 4 (mkPte 3 permWU)) (zeroPage.write 0 4 (mkPte 2 permWU))

/-- An image of two pages: one that user code does not see, and the stack. -/
def stackMachine : Machine where
  mem f := if f = 1 then stackDir
    else if f = 2 then (zeroPage.write 0 4 (mkPte 4 permW)).write 4 4 (mkPte 5 permWU) else zeroPage
  free := []
  deny := []
  short := 0
  kend := 1
  kdata := 300

theorem read_word {page : Page} {i j w : Nat} (hj : j < 1024) (hw : w < 2 ^ 32) :
    (page.write (4 * j) 4 w).read (4 * i) 4 = if i = j then w else page.read (4 * i) 4 := by
  split
  · subst i
    exact Bytes.read_write_self (by omega) hw
  · exact Bytes.read_write_of_disjoint (by omega)

theorem read_words {page : Page} {i k n w : Nat} (hn : k + n ≤ 1024) (hw : w < 2 ^ 32) :
    ((List.range n).foldl (fun page i => page.write (4 * (k + i)) 4 w) page).read (4 * i) 4 =
      if k ≤ i ∧ i < k + n then w else page.read (4 * i) 4 := by
  induction n with
  | zero => exact (if_neg (by omega)).symm
  | succ n ih =>
    rw [List.range_succ, List.foldl_append, List.foldl_cons, List.foldl_nil, read_word (by omega) hw, ih (by omega)]
    split_ifs <;> first | rfl | omega

theorem read_zeroPage {i j w : Nat} (hj : j < 1024) (hw : w < 2 ^ 32) :
    (zeroPage.write (4 * j) 4 w).read (4 * i) 4 = if i = j then w else 0 :=
  (read_word hj hw).trans (congrArg (ite _ _) (word_zeroPage (m := fun _ => zeroPage) (f := 0) rfl))

theorem table_stackMachine {i : Nat} : table stackMachine.mem 1 i =
    if i = 0 then some 2 else if 1016 ≤ i ∧ i < 1024 then some 3 else none := by
  have hword : word stackMachine.mem 1 i =
      if 1016 ≤ i ∧ i < 1024 then mkPte 3 permWU else if i = 0 then mkPte 2 permWU else 0 :=
    (read_words (k := 1016) (n := 8) (by decide) (by decide)).trans
      (congrArg (ite _ _) (read_zeroPage (j := 0) (by decide) (by decide)))
  rw [table, hword]
  by_cases h0 : i = 0
  · subst i
    rfl
  · rw [if_neg h0, if_neg h0]
    split <;> rfl

theorem word_stackMachine {i : Nat} : word stackMachine.mem 2 i =
    if i = 0 then mkPte 4 permW else if i = 1 then mkPte 5 permWU else 0 := by
  have hword : word stackMachine.mem 2 i = if i = 1 then mkPte 5 permWU else if i = 0 then mkPte 4 permW else 0 :=
    (read_word (j := 1) (by decide) (by decide)).trans
      (congrArg (ite _ _) (read_zeroPage (j := 0) (by decide) (by decide)))
  rw [hword]
  split_ifs <;> first | rfl | omega

theorem pte_stackMachine {va : Nat} : pte stackMachine.mem 1 va =
    if va < pgsize then mkPte 4 permW else if va < 2 * pgsize then mkPte 5 permWU else 0 := by
  have hd : pdx va = va / 2 ^ 22 := rfl
  have hx : ptx va = va / 2 ^ 12 % 2 ^ 10 := rfl
  by_cases hlow : pdx va = 0
  · rw [pte_some (table_stackMachine.trans (if_pos hlow)), word_stackMachine]
    have h0 : ptx va = 0 ↔ va < pgsize := by
      simp only [pgsize]
      omega
    have h1 : ptx va = 1 ↔ pgsize ≤ va ∧ va < 2 * pgsize := by
      simp only [pgsize]
      omega
    simp only [h0, h1]
    split
    · rfl
    · rename_i hge
      simp only [not_lt.mp hge, true_and]
  · have hbig : ¬ va < pgsize ∧ ¬ va < 2 * pgsize := by
      simp only [pgsize]
      omega
    rw [if_neg hbig.1, if_neg hbig.2]
    have ht := table_stackMachine (i := pdx va)
    rw [if_neg hlow] at ht
    split at ht
    · rw [pte_some ht]
      exact word_zeroPage rfl
    · exact pte_none ht

theorem stack_stackMachine : Stack stackMachine.mem 1 (2 * pgsize) := by
  have hopen : ∀ {va}, Open (pte stackMachine.mem 1 va) → pgsize ≤ va ∧ va < 2 * pgsize := by
    intro va hva
    rw [pte_stackMachine] at hva
    split at hva
    · exact absurd hva.2 (by decide)
    · split at hva
      · rename_i hge hlt
        exact ⟨not_lt.mp hge, hlt⟩
      · exact absurd hva.1 (by decide)
  refine ⟨fun va hva hn => ?_, le_rfl, by simp [kernbase, pgsize], by decide, fun hva => ?_, fun va hge hva => ?_⟩
  · obtain ⟨hl, hh⟩ := hopen hva
    rw [pte_stackMachine, if_neg (not_lt.mpr hl), if_pos hh, pteAddr_mkPte permWU_lt] at hn
    rcases hn with hn | ⟨i, hi⟩
    · cases hn
    · rw [table_stackMachine] at hi
      split at hi
      · cases hi
      · split at hi <;> cases hi
  · exact absurd (hopen hva).1 (by decide)
  · have := (hopen hva).2
    simp only [kernbase, pgsize] at hge this
    omega

theorem dev_stackMachine {va : Nat} (hl : devspace ≤ va) (hh : va < 2 ^ 32) :
    table stackMachine.mem 1 (pdx va) ≠ none := by
  have hi : 1016 ≤ pdx va ∧ pdx va < 1024 := by
    simp only [devspace, pdx] at *
    omega
  rw [table_stackMachine, if_neg (by omega), if_pos hi]
  rintro ⟨⟩

theorem low_stackMachine {va : Nat} (h : va < 2 * pgsize) : table stackMachine.mem 1 (pdx va) ≠ none := by
  have hi : pdx va = 0 := by
    simp only [pdx, pgsize] at *
    omega
  rw [table_stackMachine, if_pos hi]
  rintro ⟨⟩

/-- The `n` bytes at `va`, as the program sees them. -/
def peek (m : Memory) (pgdir va n : Nat) : List UInt8 :=
  (List.range n).map fun i => (m (pteAddr (pte m pgdir (va + i)))).get ((va + i) % pgsize)

/-- The word at `va`, as the program sees it. -/
def peekWord (m : Memory) (pgdir va : Nat) : Nat := leNat (peek m pgdir va 4)

/-- The argument vector at `esp`: `0xffffffff`, `argc` and `argv`, with its pointers and a null pointer.  They
point to the strings, which lie between the vector and `sz`, each below the one before it. -/
structure Delivered (m : Memory) (pgdir esp sz : Nat) (argv : List (List UInt8)) (ptrs : List Nat) : Prop where
  length : ptrs.length = argv.length
  aligned : esp % 4 = 0
  pc : peekWord m pgdir esp = 0xffffffff
  argc : peekWord m pgdir (esp + 4) = argv.length
  vec : peekWord m pgdir (esp + 8) = esp + 12
  ptr : ∀ i p : Nat, ptrs[i]? = some p → peekWord m pgdir (esp + 12 + 4 * i) = p
  null : peekWord m pgdir (esp + 12 + 4 * ptrs.length) = 0
  string : ∀ (i p : Nat) (arg : List UInt8), ptrs[i]? = some p → argv[i]? = some arg → peek m pgdir p (arg.length + 1) = arg ++ [0] ∧
    p % 4 = 0 ∧ esp + 12 + 4 * (ptrs.length + 1) ≤ p ∧ p + (arg.length + 1) ≤ sz
  apart : ∀ (i j p q : Nat) (arg : List UInt8), i < j → ptrs[i]? = some p → ptrs[j]? = some q → argv[j]? = some arg →
    q + (arg.length + 1) ≤ p

section Deliver
variable {m : Memory} {pgdir sz sp esp base top va n : Nat} {page : Page} {argv : List (List UInt8)}
  {ptrs : List Nat}

theorem Laid.string (h : Laid page base top argv ptrs sp) (hbase : base ≤ top) (hmod : top % 4 = 0) :
    ∀ {i p : Nat} {arg : List UInt8}, ptrs[i]? = some p → argv[i]? = some arg →
      page.slice (p - base) (arg.length + 1) = arg ++ [0] ∧ p % 4 = 0 ∧ base ≤ p ∧ sp ≤ p ∧
        p + (arg.length + 1) ≤ top := by
  induction argv generalizing top ptrs with
  | nil => exact nofun
  | cons a argv ih =>
      cases ptrs with
      | nil => exact nofun
      | cons q ptrs =>
          obtain ⟨hq, hb, hfit, hslice, hrest⟩ := h
          intro i p arg hp harg
          cases i with
          | zero =>
              cases hp
              cases harg
              exact ⟨hslice, hq, hb, (hrest.le hb hq).2.2.1, hfit⟩
          | succ i =>
              obtain ⟨hs, hp4, hpb, hsp, htop⟩ := ih hrest hb hq hp harg
              exact ⟨hs, hp4, hpb, hsp, by omega⟩

theorem Laid.apart (h : Laid page base top argv ptrs sp) :
    ∀ {i j p q : Nat} {arg : List UInt8}, i < j → ptrs[i]? = some p → ptrs[j]? = some q → argv[j]? = some arg →
      q + (arg.length + 1) ≤ p := by
  induction argv generalizing top ptrs with
  | nil => exact nofun
  | cons a argv ih =>
      cases ptrs with
      | nil => exact nofun
      | cons r ptrs =>
          obtain ⟨hr, hb, hfit, -, hrest⟩ := h
          intro i j p q arg hij hp hq harg
          cases j with
          | zero => omega
          | succ j =>
              cases i with
              | zero =>
                  cases hp
                  exact (hrest.string hb hr hq harg).2.2.2.2
              | succ i => exact ih hrest (by omega) hp hq harg

/-- Inside the stack page. -/
theorem peek_eq_slice (hmod : base % pgsize = 0) (hl : base ≤ va) (hh : va + n ≤ base + pgsize) :
    peek m pgdir va n = (m (pteAddr (pte m pgdir base))).slice (va - base) n := by
  refine List.map_congr_left fun i hi => ?_
  have hlt := List.mem_range.mp hi
  have hpage : (va + i) / pgsize = base / pgsize := by
    simp only [pgsize] at *
    omega
  have hoff : (va + i) % pgsize = va - base + i := by
    simp only [pgsize] at *
    omega
  rw [pte_samePage hpage, hoff]

theorem field_ustackOf {j w : Nat} (hw : (ustackOf sp ptrs)[j]? = some w) (hlt : w < 2 ^ 32) :
    field ((ustackOf sp ptrs).flatMap (bytesLE 4)) (4 * j) 4 = w := by
  obtain ⟨hj, rfl⟩ := List.getElem?_eq_some_iff.mp hw
  rw [field_flatMap hj]
  exact Nat.mod_eq_of_lt hlt

/-- The words of the vector. -/
theorem ArgVector.word (h : ArgVector page base sz argv ptrs sp esp) (hlen : ptrs.length = argv.length) {j w : Nat}
    (hw : (ustackOf sp ptrs)[j]? = some w) (hlt : w < 2 ^ 32) :
    leNat (page.slice (esp + 4 * j - base) 4) = w := by
  have hj := (List.getElem?_eq_some_iff.mp hw).1
  rw [length_ustackOf] at hj
  rw [← field_ustackOf hw hlt, field, ← h.words]
  congr 1
  refine List.ext_getElem (by simp; omega) fun i hi hi' => ?_
  have hplace := h.place.1
  simp only [Bytes.slice, List.getElem_map, List.getElem_range, List.getElem_take, List.getElem_drop]
  congr 1
  omega

theorem ArgVector.delivered (h : ArgVector (m (pteAddr (pte m pgdir (sz - pgsize)))) (sz - pgsize) sz argv ptrs sp esp)
    (hlow : 2 * pgsize ≤ sz) (hhigh : sz < kernbase) (hmod : sz % pgsize = 0) (hmax : argv.length ≤ maxarg) :
    Delivered m pgdir esp sz argv ptrs := by
  have hpg : pgsize = 4096 := rfl
  rw [hpg] at hmod
  have hmod4 : sz % 4 = 0 := by omega
  have hbase : (sz - pgsize) % pgsize = 0 := by
    rw [hpg]
    omega
  obtain ⟨hlen, hsp, hsz, hsp4⟩ := h.laid.le (Nat.sub_le _ _) hmod4
  obtain ⟨hesp, heq⟩ := h.place
  simp only [kernbase] at hhigh
  simp only [maxarg] at hmax
  have hword : ∀ {j w : Nat}, (ustackOf sp ptrs)[j]? = some w → w < 2 ^ 32 → peekWord m pgdir (esp + 4 * j) = w := by
    intro j w hw hlt
    have hj := (List.getElem?_eq_some_iff.mp hw).1
    rw [length_ustackOf] at hj
    rw [peekWord, peek_eq_slice hbase (by omega) (by omega)]
    exact h.word hlen hw hlt
  have hu : u32sub sp ((ptrs.length + 1) * 4) = esp + 12 := by
    simp only [u32sub, u32]
    omega
  have htail : ∀ {i w : Nat}, (ptrs ++ [0])[i]? = some w → (ustackOf sp ptrs)[i + 3]? = some w := fun hw => hw
  refine ⟨hlen, by omega, ?_, ?_, ?_, fun i p hp => ?_, ?_, fun i p arg hp harg => ?_,
    fun i j p q arg hij hp hq harg => h.laid.apart hij hp hq harg⟩
  · exact hword (j := 0) rfl (by norm_num)
  · rw [← hlen]
    exact hword (j := 1) rfl (by omega)
  · rw [← hu]
    exact hword (j := 2) rfl (by omega)
  · have hi := (List.getElem?_eq_some_iff.mp hp).1
    obtain ⟨arg, harg⟩ : ∃ arg, argv[i]? = some arg := ⟨_, List.getElem?_eq_getElem (show i < argv.length by omega)⟩
    obtain ⟨-, -, -, -, htop⟩ := h.laid.string (Nat.sub_le _ _) hmod4 hp harg
    have hw := hword (htail (i := i) (by rw [List.getElem?_append_left hi, hp])) (by omega)
    rw [show esp + 12 + 4 * i = esp + 4 * (i + 3) by omega]
    exact hw
  · have hw := hword (htail (i := ptrs.length) (w := 0) (by simp)) (by norm_num)
    rw [show esp + 12 + 4 * ptrs.length = esp + 4 * (ptrs.length + 3) by omega]
    exact hw
  · obtain ⟨hslice, hp4, hpb, hpsp, htop⟩ := h.laid.string (Nat.sub_le _ _) hmod4 hp harg
    refine ⟨?_, hp4, by omega, htop⟩
    rw [peek_eq_slice hbase hpb (by omega), hslice]

end Deliver

end Xv6.Mmu
