import Mathlib

/-!
# Vm — page directories

`walkpgdir`, `mappages`, `allocuvm` and `deallocuvm` of `vm.c`.

Addresses and sizes are `uint`s, as natural numbers below `2 ^ 32`; a sum that may wrap is taken
by `u32`.  `x & ~(PGSIZE-1)` is `x / PGSIZE * PGSIZE`.

`kalloc` may fail at any call, since other processes take and free pages too: its answers are a
parameter, by the number of the call.  The result of `mappages` in `allocuvm` is not looked at in
the source, so that a page whose page table could not be allocated stays unmapped (`Space.lost`).

The user pages of a directory are those below some page boundary, as long as no page is lost:
`allocLoop_below` and `deallocLoop_clears` say how the two loops move it.
-/

namespace Xv6.Vm

def u32 (x : Nat) : Nat := x % 2 ^ 32

def pgsize : Nat := 4096

/-- `KERNBASE`, the first kernel virtual address. -/
def kernbase : Nat := 0x80000000

def pgRoundUp (sz : Nat) : Nat := u32 (sz + pgsize - 1) / pgsize * pgsize

/-- `PDX`. -/
def pdx (va : Nat) : Nat := va / 2 ^ 22

/-- `PTX`. -/
def ptx (va : Nat) : Nat := va / 2 ^ 12 % 2 ^ 10

/-- A page table entry: `0`, or present with or without `PTE_U`. -/
inductive Pte where
  | absent
  | kernel (pa : Nat)
  | user (pa : Nat)
  deriving DecidableEq, Repr

abbrev PageTable := Nat → Pte

abbrev Dir := Nat → Option PageTable

/-- A page `kalloc` gives: it is after the kernel, so that its address is not 0. -/
abbrev Frame := { pa : Nat // pa ≠ 0 }

/-- What `kalloc` answers, by the number of the call. -/
abbrev Kalloc := Nat → Option Frame

/-- A page directory, how often `kalloc` was called, and how many pages `allocuvm` got and could not
map. -/
structure Space where
  dir : Dir
  calls : Nat
  lost : Nat

/-- `panic`s of the functions of `vm.c`. -/
inductive Panic where
  | remap
  | kfree
  | clearpteu
  /-- `"copyuvm: pte should exist"` -/
  | pteShouldExist
  /-- `"copyuvm: page not present"` -/
  | notPresent
  /-- `uva2ka` reads the entry where there is no page table, through a null pointer -/
  | nullPte
  /-- `"loaduvm: addr must be page aligned"` -/
  | unaligned
  /-- `"loaduvm: address should exist"` -/
  | shouldExist
  deriving DecidableEq, Repr

/-- `walkpgdir` with `alloc` clear: the entry for `va`, when there is a page table for it. -/
def walkpgdir (dir : Dir) (va : Nat) : Option Pte := (dir (pdx va)).map fun t => t (ptx va)

/-- `walkpgdir` with `alloc` set: a page table for `va` is made if there is none.  The flag says
whether there is one in the end. -/
def walkpgdirAlloc (mem : Kalloc) (v : Space) (va : Nat) : Bool × Space :=
  match v.dir (pdx va) with
  | some _ => (true, v)
  | none =>
      match mem v.calls with
      | none => (false, { v with calls := v.calls + 1 })
      | some _ =>
          (true, { v with
            dir := Function.update v.dir (pdx va) (some fun _ => .absent), calls := v.calls + 1 })

/-- The entry for `va` becomes `pte`. -/
def setPte (dir : Dir) (va : Nat) (pte : Pte) : Dir :=
  Function.update dir (pdx va) ((dir (pdx va)).map fun t => Function.update t (ptx va) pte)

/-- `mappages` for one page at the page-aligned `va`, as `allocuvm` and `copyuvm` call it: its loop
makes one round.  The flag is `false` for `-1`. -/
def mappages (mem : Kalloc) (v : Space) (va : Nat) (pte : Pte) : Except Panic (Bool × Space) :=
  match walkpgdirAlloc mem v va with
  | (false, v) => .ok (false, v)
  | (true, v) =>
      match walkpgdir v.dir va with
      | some .absent => .ok (true, { v with dir := setPte v.dir va pte })
      | _ => .error .remap

/-- `deallocuvm`'s loop, from `a` on.  Where there is no page table it goes on `NPTENTRIES` pages
further. -/
def deallocLoop (oldsz a : Nat) (dir : Dir) : Except Panic Dir :=
  if a < oldsz then
    match walkpgdir dir a with
    | none => deallocLoop oldsz (a + 1023 * pgsize + pgsize) dir
    | some .absent => deallocLoop oldsz (a + pgsize) dir
    | some (.kernel pa) | some (.user pa) =>
        if pa = 0 then .error .kfree else deallocLoop oldsz (a + pgsize) (setPte dir a .absent)
  else .ok dir
  termination_by oldsz - a
  decreasing_by
    all_goals
      simp only [pgsize]
      omega

/-- `deallocuvm`: the new size. -/
def deallocuvm (dir : Dir) (oldsz newsz : Nat) : Except Panic (Nat × Dir) :=
  if newsz ≥ oldsz then .ok (oldsz, dir)
  else
    match deallocLoop oldsz (pgRoundUp newsz) dir with
    | .error p => .error p
    | .ok dir => .ok (newsz, dir)

/-- `allocuvm`'s loop; the flag is `false` when it is out of memory.  What `mappages` returns is not
looked at. -/
def allocLoop (mem : Kalloc) (newsz a : Nat) (v : Space) : Except Panic (Bool × Space) :=
  if a < newsz then
    match mem v.calls with
    | none => .ok (false, { v with calls := v.calls + 1 })
    | some pa =>
        match mappages mem { v with calls := v.calls + 1 } a (.user pa) with
        | .error p => .error p
        | .ok (true, v) => allocLoop mem newsz (a + pgsize) v
        | .ok (false, v) => allocLoop mem newsz (a + pgsize) { v with lost := v.lost + 1 }
  else .ok (true, v)
  termination_by newsz - a
  decreasing_by
    all_goals
      simp only [pgsize]
      omega

/-- `allocuvm`: the new size, or `0` on error. -/
def allocuvm (mem : Kalloc) (v : Space) (oldsz newsz : Nat) : Except Panic (Nat × Space) :=
  if newsz ≥ kernbase then .ok (0, v)
  else if newsz < oldsz then .ok (oldsz, v)
  else
    match allocLoop mem newsz (pgRoundUp oldsz) v with
    | .error p => .error p
    | .ok (true, v) => .ok (newsz, v)
    | .ok (false, v) =>
        match deallocuvm v.dir newsz oldsz with
        | .error p => .error p
        | .ok (_, dir) => .ok (0, { v with dir := dir })

/-- The mappings of `kmap`: `KERNBASE` up to `KERNBASE + PHYSTOP` to physical memory, and
`DEVSPACE` up to the top to itself. -/
def kernelDir : Dir := fun i =>
  if 0x80000000 / 2 ^ 22 ≤ i ∧ i < 0x8E000000 / 2 ^ 22 then
    some fun j => .kernel (i * 2 ^ 22 + j * 2 ^ 12 - kernbase)
  else if 0xFE000000 / 2 ^ 22 ≤ i ∧ i < 2 ^ 32 / 2 ^ 22 then
    some fun j => .kernel (i * 2 ^ 22 + j * 2 ^ 12)
  else none

/-- `setupkvm`: a page for the directory and one for each of the 64 page tables of `kmap`. -/
def setupkvm (mem : Kalloc) : Option Space :=
  if (List.range 65).all fun k => (mem k).isSome then some ⟨kernelDir, 65, 0⟩ else none

/-! ### No page is mapped twice -/

/-- The page of a present entry is not the one at address 0. -/
def Pte.NonNull : Pte → Prop
  | .absent => True
  | .kernel pa | .user pa => pa ≠ 0

/-- Below `KERNBASE` nothing is mapped from `a` on. -/
def FreeFrom (dir : Dir) (a : Nat) : Prop :=
  ∀ va pte, a ≤ va → va < kernbase → walkpgdir dir va = some pte → pte = .absent

/-- The pages mapped below `KERNBASE` can be given to `kfree`. -/
def UserNonNull (dir : Dir) : Prop :=
  ∀ va pte, va < kernbase → walkpgdir dir va = some pte → pte.NonNull

/-- What the loading of a program keeps of its page directory and size. -/
structure SpaceOk (v : Space) (sz : Nat) : Prop where
  size : sz < kernbase
  free : FreeFrom v.dir (pgRoundUp sz)
  nonNull : UserNonNull v.dir

theorem pgRoundUp_eq {sz : Nat} (h : sz < kernbase) :
    pgRoundUp sz = (sz + pgsize - 1) / pgsize * pgsize := by
  rw [pgRoundUp, u32, Nat.mod_eq_of_lt]
  simp only [kernbase, pgsize] at *
  omega

theorem le_pgRoundUp {sz : Nat} (h : sz < kernbase) : sz ≤ pgRoundUp sz := by
  rw [pgRoundUp_eq h]
  simp only [pgsize]
  omega

theorem pgRoundUp_mod (sz : Nat) : pgRoundUp sz % pgsize = 0 := Nat.mul_mod_left _ _

theorem pgRoundUp_lt {sz : Nat} (h : sz < kernbase) : pgRoundUp sz < sz + pgsize := by
  rw [pgRoundUp_eq h]
  simp only [pgsize]
  omega

/-- The first page boundary from `sz` on. -/
theorem pgRoundUp_le {sz a : Nat} (h : sz < kernbase) (ha : a % pgsize = 0) (hle : sz ≤ a) :
    pgRoundUp sz ≤ a := by
  rw [pgRoundUp_eq h]
  simp only [pgsize] at *
  omega

theorem kernelDir_low {i : Nat} (h : i < 512) : kernelDir i = none := by
  rw [kernelDir, if_neg (by omega), if_neg (by omega)]

/-- A fresh directory has no page tables below `KERNBASE`. -/
theorem setupkvm_low {mem : Kalloc} {v : Space} (h : setupkvm mem = some v) {va : Nat}
    (hva : va < kernbase) : walkpgdir v.dir va = none := by
  rw [setupkvm, Option.ite_none_right_eq_some] at h
  obtain ⟨-, h⟩ := h
  cases h
  have : pdx va < 512 := by
    simp only [pdx, kernbase] at *
    omega
  simp only [walkpgdir, kernelDir_low this, Option.map_none]

theorem setupkvm_ok {mem : Kalloc} {v : Space} (h : setupkvm mem = some v) : SpaceOk v 0 := by
  refine ⟨by decide, fun va pte _ hva hw => ?_, fun va pte hva hw => ?_⟩
  · rw [setupkvm_low h hva] at hw
    cases hw
  · rw [setupkvm_low h hva] at hw
    cases hw

theorem setupkvm_lost {mem : Kalloc} {v : Space} (h : setupkvm mem = some v) : v.lost = 0 := by
  rw [setupkvm, Option.ite_none_right_eq_some] at h
  cases h.2
  rfl

theorem FreeFrom.mono {dir : Dir} {a b : Nat} (h : FreeFrom dir a) (hab : a ≤ b) :
    FreeFrom dir b :=
  fun va pte hva => h va pte (hab.trans hva)

/-! ### One entry -/

/-- `setPte` leaves the entries of the other pages. -/
theorem walkpgdir_setPte_other {dir : Dir} {va va' : Nat} {pte : Pte}
    (h : ¬ (pdx va' = pdx va ∧ ptx va' = ptx va)) :
    walkpgdir (setPte dir va pte) va' = walkpgdir dir va' := by
  by_cases hd : pdx va' = pdx va
  · have ht : ptx va' ≠ ptx va := fun ht => h ⟨hd, ht⟩
    simp only [walkpgdir, setPte, hd, Function.update_self, Option.map_map]
    congr 1
    funext t
    exact Function.update_of_ne ht _ _
  · simp only [walkpgdir, setPte, Function.update_of_ne hd]

/-- The entry set is read back in its own page. -/
theorem walkpgdir_setPte_self {dir : Dir} {va va' : Nat} {pte old : Pte}
    (h : walkpgdir dir va = some old) (hd : pdx va' = pdx va) (ht : ptx va' = ptx va) :
    walkpgdir (setPte dir va pte) va' = some pte := by
  obtain ⟨t, hdir, -⟩ := Option.map_eq_some_iff.mp h
  simp [walkpgdir, setPte, hd, ht, hdir]

/-- An address is in the page at `a`, or the entry of its page is another one. -/
theorem samePage_iff {a va : Nat} (ha : a % pgsize = 0) :
    (pdx va = pdx a ∧ ptx va = ptx a) ↔ a ≤ va ∧ va < a + pgsize := by
  simp only [pgsize, pdx, ptx] at *
  omega

/-- A new page table has no entries, and the others stay. -/
theorem walkpgdir_walkpgdirAlloc {mem : Kalloc} {v v' : Space} {va : Nat} {found : Bool}
    (h : walkpgdirAlloc mem v va = (found, v')) :
    ((∀ k, (mem k).isSome) → found = true) ∧
    (found = true → ∃ pte, walkpgdir v'.dir va = some pte) ∧ v'.lost = v.lost ∧
    (∀ va' pte, walkpgdir v.dir va' = some pte → walkpgdir v'.dir va' = some pte) ∧
    ∀ va' pte, walkpgdir v'.dir va' = some pte → walkpgdir v.dir va' = some pte ∨ pte = .absent := by
  unfold walkpgdirAlloc at h
  split at h
  · rename_i t ht
    cases h
    exact ⟨fun _ => rfl, fun _ => ⟨_, by rw [walkpgdir, ht]; rfl⟩, rfl, fun _ _ h => h,
      fun _ _ h => .inl h⟩
  · rename_i hdir
    split at h
    · rename_i hnone
      cases h
      refine ⟨fun hmem => ?_, nofun, rfl, fun _ _ h => h, fun _ _ h => .inl h⟩
      have := hmem v.calls
      rw [hnone] at this
      cases this
    · cases h
      refine ⟨fun _ => rfl, fun _ => ⟨.absent, ?_⟩, rfl, fun va' pte hw => ?_, fun va' pte hw => ?_⟩
      · simp only [walkpgdir, Function.update_self]
        rfl
      · have hd : pdx va' ≠ pdx va := by
          intro hd
          rw [walkpgdir, hd, hdir] at hw
          cases hw
        simpa only [walkpgdir, Function.update_of_ne hd] using hw
      · by_cases hd : pdx va' = pdx va
        · simp only [walkpgdir, hd, Function.update_self, Option.map_some, Option.some.injEq] at hw
          exact .inr hw.symm
        · exact .inl (by simpa only [walkpgdir, Function.update_of_ne hd] using hw)

/-- What `mappages` does for the page at `a`: it maps the page or, without a page table for it,
does not.  Nothing changes for the other pages. -/
structure Mapped (mem : Kalloc) (v : Space) (a : Nat) (pte : Pte) (mapped : Bool) (v' : Space) :
    Prop where
  lost : v'.lost = v.lost
  spare : (∀ k, (mem k).isSome) → mapped = true
  page : mapped = true → ∀ va, a ≤ va → va < a + pgsize → walkpgdir v'.dir va = some pte
  keep : ∀ va p, va < a → walkpgdir v.dir va = some p → walkpgdir v'.dir va = some p
  back : ∀ va p, walkpgdir v'.dir va = some p → walkpgdir v.dir va = some p ∨ p = .absent ∨
    p = pte ∧ va < a + pgsize

theorem mappages_mapped (mem : Kalloc) {v : Space} {a : Nat} (pte : Pte) (ha : a % pgsize = 0)
    (hk : a < kernbase) (h : FreeFrom v.dir a) :
    ∃ mapped v', mappages mem v a pte = .ok (mapped, v') ∧ Mapped mem v a pte mapped v' := by
  unfold mappages
  cases hwalk : walkpgdirAlloc mem v a with
  | mk found v₁ =>
      obtain ⟨hmem, hfound, hlost, hkeep, hback⟩ := walkpgdir_walkpgdirAlloc hwalk
      cases found with
      | false =>
          refine ⟨false, v₁, rfl, hlost, hmem, nofun, fun va p _ => hkeep va p, fun va p hw => ?_⟩
          exact (hback va p hw).imp_right .inl
      | true =>
          obtain ⟨old, hold⟩ := hfound rfl
          obtain rfl : old = .absent := by
            obtain hw | rfl := hback a old hold
            · exact h a old le_rfl hk hw
            · rfl
          simp only [hold]
          refine ⟨true, _, rfl, hlost, hmem, fun _ va hlow hhigh => ?_, fun va p hva hw => ?_,
            fun va p hw => ?_⟩
          · have hsame := (samePage_iff ha).mpr ⟨hlow, hhigh⟩
            exact walkpgdir_setPte_self hold hsame.1 hsame.2
          · rw [walkpgdir_setPte_other fun hsame => ?_]
            · exact hkeep va p hw
            · exact absurd ((samePage_iff ha).mp hsame).1 (not_le.mpr hva)
          · by_cases hsame : pdx va = pdx a ∧ ptx va = ptx a
            · rw [walkpgdir_setPte_self hold hsame.1 hsame.2] at hw
              cases hw
              exact .inr (.inr ⟨rfl, ((samePage_iff ha).mp hsame).2⟩)
            · rw [walkpgdir_setPte_other hsame] at hw
              exact (hback va p hw).imp_right .inl

section Mapped
variable {mem : Kalloc} {v v' : Space} {a : Nat} {pte : Pte} {mapped : Bool}

/-- Behind the page nothing is mapped. -/
theorem Mapped.free (h : Mapped mem v a pte mapped v') (hfree : FreeFrom v.dir a) :
    FreeFrom v'.dir (a + pgsize) := by
  intro va p hva hk hw
  obtain hw | rfl | ⟨-, hlt⟩ := h.back va p hw
  · exact hfree va p (by omega) hk hw
  · rfl
  · exact absurd hva (not_le.mpr hlt)

theorem Mapped.nonNull (h : Mapped mem v a pte mapped v') (hnn : UserNonNull v.dir)
    (hpte : pte.NonNull) : UserNonNull v'.dir := by
  intro va p hva hw
  obtain hw | rfl | ⟨rfl, -⟩ := h.back va p hw
  · exact hnn va p hva hw
  · trivial
  · exact hpte

end Mapped

/-! ### The loops -/

/-- What `deallocuvm`'s loop does from `a` on: it only takes entries away.  If the pages from `a` have
page tables up to `b` and nothing is mapped after that, it takes away all of them. -/
structure Cleared (oldsz a : Nat) (dir dir' : Dir) : Prop where
  keep : ∀ va p, va < a → walkpgdir dir va = some p → walkpgdir dir' va = some p
  back : ∀ va p, walkpgdir dir' va = some p → walkpgdir dir va = some p ∨ p = .absent
  clear : ∀ b, b % pgsize = 0 → b < oldsz + pgsize →
    (∀ va, a ≤ va → va < b → ∃ p, walkpgdir dir va = some p) → FreeFrom dir (max a b) →
    FreeFrom dir' a

/-- The entries when the one at `a` is taken away. -/
theorem walkpgdir_clear {dir : Dir} {a : Nat} {old : Pte} (ha : a % pgsize = 0)
    (h : walkpgdir dir a = some old) (va : Nat) : walkpgdir (setPte dir a .absent) va =
      if a ≤ va ∧ va < a + pgsize then some .absent else walkpgdir dir va := by
  split
  · rename_i hpage
    have hsame := (samePage_iff ha).mpr hpage
    exact walkpgdir_setPte_self h hsame.1 hsame.2
  · rename_i hpage
    exact walkpgdir_setPte_other fun hsame => hpage ((samePage_iff ha).mp hsame)

/-- A present entry at `a` is taken away, and the loop goes on behind it. -/
theorem deallocLoop_round {oldsz a : Nat} {dir : Dir} {old : Pte} (ha : a % pgsize = 0)
    (h : UserNonNull dir) (hpte : walkpgdir dir a = some old)
    (ih : UserNonNull (setPte dir a .absent) → ∃ dir',
      deallocLoop oldsz (a + pgsize) (setPte dir a .absent) = .ok dir' ∧
      Cleared oldsz (a + pgsize) (setPte dir a .absent) dir') :
    ∃ dir', deallocLoop oldsz (a + pgsize) (setPte dir a .absent) = .ok dir' ∧
      Cleared oldsz a dir dir' := by
  have hwalk := walkpgdir_clear ha hpte
  have hnn : UserNonNull (setPte dir a .absent) := by
    intro va p hva hw
    rw [hwalk va] at hw
    split at hw
    · cases hw
      trivial
    · exact h va p hva hw
  obtain ⟨dir', hdir', hrest⟩ := ih hnn
  refine ⟨dir', hdir', fun va p hva hw => ?_, fun va p hw => ?_, fun b hb hbo htables hfree => ?_⟩
  · refine hrest.keep va p (by omega) ?_
    rw [hwalk va, if_neg (by omega)]
    exact hw
  · obtain hw | rfl := hrest.back va p hw
    · rw [hwalk va] at hw
      split at hw
      · cases hw
        exact .inr rfl
      · exact .inl hw
    · exact .inr rfl
  · have hfree' : FreeFrom dir' (a + pgsize) := by
      refine hrest.clear b hb hbo (fun va hva hvb => ?_) fun va p hva hk hw => ?_
      · rw [hwalk va, if_neg (by omega)]
        exact htables va (by omega) hvb
      · rw [hwalk va, if_neg (by omega)] at hw
        exact hfree va p (by omega) hk hw
    intro va p hva hk hw
    by_cases hpage : va < a + pgsize
    · obtain hw | rfl := hrest.back va p hw
      · rw [hwalk va, if_pos ⟨hva, hpage⟩] at hw
        exact (Option.some.inj hw).symm
      · rfl
    · exact hfree' va p (not_lt.mp hpage) hk hw

theorem deallocLoop_cleared {oldsz a : Nat} {dir : Dir} (ha : a % pgsize = 0)
    (hold : oldsz ≤ kernbase) (h : UserNonNull dir) :
    ∃ dir', deallocLoop oldsz a dir = .ok dir' ∧ Cleared oldsz a dir dir' := by
  have hnext : (a + pgsize) % pgsize = 0 := by rw [Nat.add_mod_right, ha]
  fun_induction deallocLoop oldsz a dir with
  | case1 a dir hlt hnone ih =>
      have hskip : (a + 1023 * pgsize + pgsize) % pgsize = 0 := by
        simp only [pgsize] at *
        omega
      obtain ⟨dir', hdir', hrest⟩ := ih hskip h (by rw [Nat.add_mod_right, hskip])
      refine ⟨dir', hdir', fun va p hva => hrest.keep va p (by omega), hrest.back,
        fun b hb hbo htables hfree => ?_⟩
      -- without a page table at `a` nothing is mapped after it, so that nothing is passed over
      have hba : b ≤ a := by
        by_contra hlt
        obtain ⟨p, hp⟩ := htables a le_rfl (not_le.mp hlt)
        rw [hnone] at hp
        cases hp
      rw [max_eq_left hba] at hfree
      intro va p hva hk hw
      exact (hrest.back va p hw).elim (hfree va p hva hk) id
  | case2 a dir hlt habsent ih =>
      obtain ⟨dir', hdir', hrest⟩ := ih hnext h (by rw [Nat.add_mod_right, hnext])
      refine ⟨dir', hdir', fun va p hva => hrest.keep va p (by omega), hrest.back,
        fun b hb hbo htables hfree => ?_⟩
      have hfree' := hrest.clear b hb hbo (fun va hva => htables va (by omega))
        (hfree.mono (by omega))
      intro va p hva hk hw
      by_cases hpage : va < a + pgsize
      · obtain ⟨hd, ht⟩ := (samePage_iff ha).mpr ⟨hva, hpage⟩
        obtain hw | rfl := hrest.back va p hw
        · rw [walkpgdir, hd, ht] at hw
          rw [show walkpgdir dir a = some p from hw] at habsent
          exact Option.some.inj habsent
        · rfl
      · exact hfree' va p (not_lt.mp hpage) hk hw
  | case3 a dir hlt hpte => exact absurd rfl (h a (.kernel 0) (hlt.trans_le hold) hpte)
  | case4 a dir hlt pa hpte hpa ih =>
      exact deallocLoop_round ha h hpte fun hnn => ih hnext hnn (by rw [Nat.add_mod_right, hnext])
  | case5 a dir hlt hpte => exact absurd rfl (h a (.user 0) (hlt.trans_le hold) hpte)
  | case6 a dir hlt pa hpte hpa ih =>
      exact deallocLoop_round ha h hpte fun hnn => ih hnext hnn (by rw [Nat.add_mod_right, hnext])
  | case7 a dir hge =>
      refine ⟨dir, rfl, fun _ _ _ h => h, fun _ _ h => .inl h, fun b hb hbo _ hfree => ?_⟩
      refine hfree.mono ?_
      have : b ≤ a := by
        simp only [pgsize] at *
        omega
      omega

theorem deallocuvm_cleared {dir : Dir} {oldsz : Nat} (newsz : Nat) (hold : oldsz ≤ kernbase)
    (h : UserNonNull dir) : ∃ sz dir', deallocuvm dir oldsz newsz = .ok (sz, dir') ∧
      ((oldsz ≤ newsz ∧ sz = oldsz ∧ dir' = dir) ∨
        (newsz < oldsz ∧ sz = newsz ∧ Cleared oldsz (pgRoundUp newsz) dir dir')) := by
  unfold deallocuvm
  split
  · rename_i hge
    exact ⟨oldsz, dir, rfl, .inl ⟨hge, rfl, rfl⟩⟩
  · rename_i hlt
    obtain ⟨dir', hdir', hcleared⟩ := deallocLoop_cleared (pgRoundUp_mod newsz) hold h
    rw [hdir']
    exact ⟨newsz, dir', rfl, .inr ⟨not_le.mp hlt, rfl, hcleared⟩⟩

theorem Cleared.nonNull {oldsz a : Nat} {dir dir' : Dir} (h : Cleared oldsz a dir dir')
    (hnn : UserNonNull dir) : UserNonNull dir' := by
  intro va p hva hw
  obtain hw | rfl := h.back va p hw
  · exact hnn va p hva hw
  · trivial

/-- What `allocuvm`'s loop does from `a` on: the pages up to `b` are mapped, but for those it lost. -/
structure Grown (mem : Kalloc) (newsz a : Nat) (v : Space) (ok : Bool) (v' : Space) (b : Nat) :
    Prop where
  le : a ≤ b
  aligned : b % pgsize = 0
  lt : b < newsz + pgsize
  done : ok = true → newsz ≤ b
  free : FreeFrom v'.dir b
  nonNull : UserNonNull v'.dir
  keep : ∀ va p, va < a → walkpgdir v.dir va = some p → walkpgdir v'.dir va = some p
  lost : v.lost ≤ v'.lost
  mapped : v'.lost = v.lost → ∀ va, a ≤ va → va < b → ∃ pa, walkpgdir v'.dir va = some (.user pa)
  spare : (∀ k, (mem k).isSome) → ok = true ∧ v'.lost = v.lost

/-- One round, and the rounds after it. -/
theorem Grown.round {mem : Kalloc} {newsz a b : Nat} {v v₁ v₂ v' : Space} {pa : Nat} {mapped ok : Bool}
    (h : Grown mem newsz (a + pgsize) v₂ ok v' b)
    (hmap : Mapped mem { v with calls := v.calls + 1 } a (.user pa) mapped v₁)
    (hdir : v₂.dir = v₁.dir) (hlost₂ : v₂.lost = if mapped = true then v.lost else v.lost + 1) :
    Grown mem newsz a v ok v' b where
  le := by
    have := h.le
    omega
  aligned := h.aligned
  lt := h.lt
  done := h.done
  free := h.free
  nonNull := h.nonNull
  keep va p hva hw := h.keep va p (by omega) (by rw [hdir]; exact hmap.keep va p hva hw)
  lost := by
    have hlost := h.lost
    rw [hlost₂] at hlost
    split at hlost <;> omega
  mapped hlost va hva hvb := by
    have hle := h.lost
    rw [hlost₂] at hle
    -- a page lost in this round is never found again
    obtain rfl : mapped = true := by
      by_contra hm
      rw [if_neg hm] at hle
      omega
    by_cases hpage : va < a + pgsize
    · refine ⟨pa, h.keep va _ hpage ?_⟩
      rw [hdir]
      exact hmap.page rfl va hva hpage
    · refine h.mapped ?_ va (not_lt.mp hpage) hvb
      rw [hlost₂, if_pos rfl, hlost]
  spare hmem := by
    obtain ⟨hok, hlost⟩ := h.spare hmem
    rw [hlost, hlost₂, if_pos (hmap.spare hmem)]
    exact ⟨hok, rfl⟩

theorem allocLoop_grown (mem : Kalloc) {newsz a : Nat} {v : Space} (ha : a % pgsize = 0)
    (hnew : newsz < kernbase) (hlow : a < newsz + pgsize) (hfree : FreeFrom v.dir a)
    (h : UserNonNull v.dir) :
    ∃ ok v' b, allocLoop mem newsz a v = .ok (ok, v') ∧ Grown mem newsz a v ok v' b := by
  have hmap := fun (v : Space) (pa : Frame) (a : Nat) (ha : a % pgsize = 0) (hlt : a < newsz) =>
    mappages_mapped mem (v := { v with calls := v.calls + 1 }) (.user pa) ha (hlt.trans hnew)
  fun_induction allocLoop mem newsz a v with
  | case1 a v hlt hnone =>
      refine ⟨false, _, a, rfl, le_rfl, ha, hlow, nofun, hfree, h, fun _ _ _ h => h, le_rfl,
        fun _ va hva hvb => absurd hva (not_le.mpr hvb), fun hmem => ?_⟩
      have := hmem v.calls
      rw [hnone] at this
      cases this
  | case2 a v hlt pa hpa p herr =>
      obtain ⟨mapped, v₁, hok, -⟩ := hmap v pa a ha hlt hfree
      rw [herr] at hok
      cases hok
  | case3 a v hlt pa hpa v₁ hm ih =>
      obtain ⟨mapped, v₂, hok, hround⟩ := hmap v pa a ha hlt hfree
      cases hm.symm.trans hok
      obtain ⟨ok, v', b, hrest, hgrown⟩ := ih (by rw [Nat.add_mod_right, ha]) (by omega)
        (hround.free hfree) (hround.nonNull h pa.2)
      exact ⟨ok, v', b, hrest, hgrown.round hround rfl hround.lost⟩
  | case4 a v hlt pa hpa v₁ hm ih =>
      obtain ⟨mapped, v₂, hok, hround⟩ := hmap v pa a ha hlt hfree
      cases hm.symm.trans hok
      obtain ⟨ok, v', b, hrest, hgrown⟩ := ih (by rw [Nat.add_mod_right, ha]) (by omega)
        (hround.free hfree) (hround.nonNull h pa.2)
      exact ⟨ok, v', b, hrest, hgrown.round hround rfl (congrArg (· + 1) hround.lost)⟩
  | case5 a v hge =>
      exact ⟨true, v, a, rfl, le_rfl, ha, hlow, fun _ => not_lt.mp hge, hfree, h, fun _ _ _ h => h,
        le_rfl, fun _ va hva hvb => absurd hva (not_le.mpr hvb), fun _ => ⟨rfl, rfl⟩⟩

/-! ### `allocuvm` -/

/-- What a call of `allocuvm` that answers `sz` does.  The pages up to the new size are mapped, or
after a failure those from the old size on are not, if it lost no page. -/
structure Allocated (mem : Kalloc) (v : Space) (oldsz newsz sz : Nat) (v' : Space) : Prop where
  space : sz ≠ 0 → SpaceOk v' sz
  nonNull : UserNonNull v'.dir
  keep : ∀ va p, va < pgRoundUp oldsz → walkpgdir v.dir va = some p → walkpgdir v'.dir va = some p
  lost : v.lost ≤ v'.lost
  failed : sz = 0 → v'.lost = v.lost → FreeFrom v'.dir (pgRoundUp oldsz)
  mapped : sz ≠ 0 → v'.lost = v.lost → ∀ va, pgRoundUp oldsz ≤ va → va < pgRoundUp sz →
    ∃ pa, walkpgdir v'.dir va = some (.user pa)
  spare : (∀ k, (mem k).isSome) → newsz < kernbase → sz = max oldsz newsz ∧ v'.lost = v.lost

theorem allocuvm_allocated (mem : Kalloc) {v : Space} {oldsz : Nat} (newsz : Nat)
    (h : SpaceOk v oldsz) : ∃ sz v', allocuvm mem v oldsz newsz = .ok (sz, v') ∧
      Allocated mem v oldsz newsz sz v' := by
  unfold allocuvm
  split
  · rename_i hge
    exact ⟨0, v, rfl, fun h0 => absurd rfl h0, h.nonNull, fun _ _ _ h => h, le_rfl,
      fun _ _ => h.free, fun h0 => absurd rfl h0, fun _ hlt => absurd hlt (not_lt.mpr hge)⟩
  · rename_i hnew
    have hnew := not_le.mp hnew
    split
    · rename_i hlt
      exact ⟨oldsz, v, rfl, fun _ => h, h.nonNull, fun _ _ _ h => h, le_rfl, fun _ _ => h.free,
        fun _ _ va hva hvb => absurd hva (not_le.mpr hvb),
        fun _ _ => ⟨(max_eq_left hlt.le).symm, rfl⟩⟩
    · rename_i hge
      have hge := not_lt.mp hge
      have hround := pgRoundUp_lt h.size
      obtain ⟨ok, v₁, b, hloop, hgrown⟩ := allocLoop_grown mem (pgRoundUp_mod oldsz) hnew
        (by omega) h.free h.nonNull
      have hle := hgrown.le
      have hb : b ≤ pgRoundUp newsz := by
        have := le_pgRoundUp hnew
        have := pgRoundUp_mod newsz
        have := hgrown.aligned
        have := hgrown.lt
        simp only [pgsize] at *
        omega
      rw [hloop]
      cases ok with
      | true =>
          have hb' := pgRoundUp_le hnew hgrown.aligned (hgrown.done rfl)
          refine ⟨newsz, v₁, rfl, fun _ => ⟨hnew, hgrown.free.mono hb, hgrown.nonNull⟩,
            hgrown.nonNull, hgrown.keep, hgrown.lost, fun h0 _ => hgrown.free.mono ?_,
            fun _ hlost va hva hvb => hgrown.mapped hlost va hva (by omega),
            fun hmem _ => ⟨(max_eq_right hge).symm, (hgrown.spare hmem).2⟩⟩
          have h00 : oldsz = newsz := by omega
          rw [h00]
          exact hb
      | false =>
          have hnospare : ¬ ∀ k, (mem k).isSome := fun hmem => nomatch (hgrown.spare hmem).1
          obtain ⟨sz, dir', hdealloc, hcases⟩ := deallocuvm_cleared oldsz hnew.le hgrown.nonNull
          simp only [hdealloc]
          obtain ⟨hle', -, rfl⟩ | ⟨-, -, hcleared⟩ := hcases
          · refine ⟨0, _, rfl, fun h0 => absurd rfl h0, hgrown.nonNull, hgrown.keep, hgrown.lost,
              fun _ _ => hgrown.free.mono ?_, fun h0 => absurd rfl h0,
              fun hmem _ => absurd hmem hnospare⟩
            rw [show oldsz = newsz by omega]
            exact hb
          · refine ⟨0, _, rfl, fun h0 => absurd rfl h0, hcleared.nonNull hgrown.nonNull,
              fun va p hva hw => hcleared.keep va p hva (hgrown.keep va p hva hw), hgrown.lost,
              fun _ hlost => ?_, fun h0 => absurd rfl h0, fun hmem _ => absurd hmem hnospare⟩
            refine hcleared.clear b hgrown.aligned hgrown.lt (fun va hva hvb => ?_) ?_
            · obtain ⟨pa, hpa⟩ := hgrown.mapped hlost va hva hvb
              exact ⟨_, hpa⟩
            · rw [max_eq_right hle]
              exact hgrown.free

/-- **`allocuvm` keeps the address space in order, and never panics.** -/
theorem allocuvm_ok (mem : Kalloc) {v : Space} {oldsz : Nat} (newsz : Nat) (h : SpaceOk v oldsz) :
    ∃ sz v', allocuvm mem v oldsz newsz = .ok (sz, v') ∧ (sz ≠ 0 → SpaceOk v' sz) := by
  obtain ⟨sz, v', hok, halloc⟩ := allocuvm_allocated mem newsz h
  exact ⟨sz, v', hok, halloc.space⟩

/-- The pages below `a` are user pages. -/
def MappedBelow (dir : Dir) (a : Nat) : Prop :=
  ∀ va < a, ∃ pa, walkpgdir dir va = some (.user pa)

theorem MappedBelow.mono {dir : Dir} {a b : Nat} (h : MappedBelow dir b) (hab : a ≤ b) :
    MappedBelow dir a :=
  fun va hva => h va (hva.trans_le hab)

/-- **With memory to spare `allocuvm` maps every page of the image it answers for.** -/
theorem allocuvm_mapped {mem : Kalloc} (hmem : ∀ k, (mem k).isSome) {v : Space} {oldsz newsz : Nat}
    (h : SpaceOk v oldsz) (hv : MappedBelow v.dir (pgRoundUp oldsz)) (hnew : newsz < kernbase) :
    ∃ v', allocuvm mem v oldsz newsz = .ok (max oldsz newsz, v') ∧
      MappedBelow v'.dir (pgRoundUp (max oldsz newsz)) := by
  obtain ⟨sz, v', hok, halloc⟩ := allocuvm_allocated mem newsz h
  obtain ⟨rfl, hlost⟩ := halloc.spare hmem hnew
  refine ⟨v', hok, fun va hva => ?_⟩
  by_cases hlow : va < pgRoundUp oldsz
  · obtain ⟨pa, hpa⟩ := hv va hlow
    exact ⟨pa, halloc.keep va _ hlow hpa⟩
  · refine halloc.mapped (fun h0 => ?_) hlost va (not_lt.mp hlow) hva
    rw [h0] at hva
    exact absurd hva (Nat.not_lt_zero va)

end Xv6.Vm
