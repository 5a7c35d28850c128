import Xv6.Mmu.Unmap
import Xv6.Vm.Grow

/-!
# Mmu — growing and shrinking

`allocuvm` and `growproc`.  `allocuvm` does not look at what `mappages` returns: a page for which there
is no page table, and no page for one, is lost.  Where that does not happen, which is where `short` stays,
it maps all of its pages or none (`allocuvm_all_or_nothing`).
-/

namespace Xv6.Mmu
open Lib Lib.Prog Vm

/-- One round of `allocuvm`'s loop; `false` when it is out of memory. -/
def allocPage (pgdir a : Nat) : VmM Bool := do
  let r ← kalloc
  match r with
  | none => pure false
  | some f => do
      setPage f zeroPage
      -- what `mappages` returns is not looked at
      let _ ← mappages pgdir a pgsize f permWU
      pure true

/-- `allocuvm`'s loop, for `n` pages more. -/
def allocLoop (pgdir : Nat) : (n a : Nat) → VmM Bool
  | 0, _ => pure true
  | n + 1, a => do
      let ok ← allocPage pgdir a
      if ok then allocLoop pgdir n (a + pgsize) else pure false

/-- How many rounds `for(; a < newsz; a += PGSIZE)` makes. -/
def pages (a newsz : Nat) : Nat := (newsz - a + pgsize - 1) / pgsize

/-- `allocuvm`: the new size, or 0 on error. -/
def allocuvm (pgdir oldsz newsz : Nat) : VmM Nat :=
  if newsz ≥ kernbase then pure 0
  else if newsz < oldsz then pure oldsz
  else do
    let ok ← allocLoop pgdir (pages (pgRoundUp oldsz) newsz) (pgRoundUp oldsz)
    if ok then pure newsz
    else do
      let _ ← deallocuvm pgdir newsz oldsz
      pure 0

/-- The size and the page directory of a process. -/
structure Proc where
  sz : Nat
  pgdir : Nat

/-- `growproc`: what it returns and the process after it. -/
def growproc (p : Proc) (n : Int32) : VmM (Int × Proc) :=
  if 0 < n.toInt then do
    let sz ← allocuvm p.pgdir p.sz (u32addInt p.sz n)
    if sz = 0 then pure (-1, p) else pure (0, { p with sz := sz })
  else if n.toInt < 0 then do
    let sz ← deallocuvm p.pgdir p.sz (u32addInt p.sz n)
    if sz = 0 then pure (-1, p) else pure (0, { p with sz := sz })
  else pure (0, p)

/-! ### One page -/

section Page
variable {pgdir a f perm : Nat} {s : Machine}

theorem mappages_page (ha : a % pgsize = 0) (hlt : a + pgsize ≤ 2 ^ 32) :
    mappages pgdir a pgsize f perm = mapLoop pgdir perm 1 a f := by
  have hround : a / pgsize * pgsize = a := Nat.div_mul_cancel (Nat.dvd_of_mod_eq_zero ha)
  have hlast : u32 (a + pgsize + 2 ^ 32 - 1) / pgsize * pgsize = a := by
    have hin : u32 (a + pgsize + 2 ^ 32 - 1) = a + (pgsize - 1) := by
      have hsum : a + pgsize + 2 ^ 32 - 1 = a + (pgsize - 1) + 2 ^ 32 := by
        have : pgsize = 4096 := rfl
        omega
      rw [hsum, u32, Nat.add_mod_right, Nat.mod_eq_of_lt (by have : pgsize = 4096 := rfl; omega)]
    rw [hin]
    simp only [pgsize] at ha ⊢
    omega
  have hone : u32 (a + 2 ^ 32 - a) / pgsize + 1 = 1 := by
    rw [Nat.add_sub_cancel_left, u32, Nat.mod_self, Nat.zero_div]
  simp only [mappages, hround, hlast, hone]

/-- `mappages` of one page. -/
theorem mapPage_wp (h : Space s pgdir) (ha : a % pgsize = 0) (hlt : a + pgsize ≤ 2 ^ 32)
    (hperm : perm < 4096) (hf : f < 2 ^ 20) :
    Wp (mappages pgdir a pgsize f perm) s
      (fun e => e = .remap ∧ present (pte s.mem pgdir a) = true)
      fun r s' => Grows pgdir s s' ∧ Tabled pgdir s s' ∧
        if r then s'.short = s.short ∧ TablesFor s.mem s'.mem pgdir a 1 ∧ ∀ va, pte s'.mem pgdir va =
          if a ≤ va ∧ va < a + pgsize then mkPte f perm else pte s.mem pgdir va
        else s'.short = s.short + 1 ∧ ∀ va, pte s'.mem pgdir va = pte s.mem pgdir va := by
  rw [mappages_page ha hlt]
  refine (mapLoop_wp (n := 1) h ha (by omega) hperm (by omega)).mono ?_ ?_
  · rintro e ⟨rfl, va, hlow, hhigh, hp⟩
    refine ⟨rfl, ?_⟩
    have hva : va / pgsize * pgsize = a := by
      simp only [pgsize] at *
      omega
    rwa [← hva, pte_page]
  · rintro r s' ⟨hgrows, htabled, k, hmaps, htables, hend⟩
    refine ⟨hgrows, htabled, ?_⟩
    cases r with
    | true =>
        obtain ⟨rfl, hshort⟩ := hend
        refine ⟨hshort, htables, fun va => ?_⟩
        rw [hmaps va, Nat.one_mul]
        split
        · rename_i hva
          rw [Nat.div_eq_of_lt (by omega), Nat.add_zero]
        · rfl
    | false =>
        refine ⟨hend.2, fun va => ?_⟩
        rw [hmaps va, if_neg]
        have : k = 0 := by
          have := hend.1
          omega
        rw [this]
        omega

end Page

/-! ### The loop -/

/-- Pages of `[a, b)`, none of which was mapped, are mapped to fresh pages, with the flags `perm` and the contents
`cont`; all of them, unless a page table could not be allocated. -/
structure Filled (perm : Nat → Nat) (cont : Nat → Page) (pgdir a b : Nat) (s s' : Machine) : Prop where
  grows : Grows pgdir s s'
  other : ∀ va, va < a ∨ b ≤ va → pte s'.mem pgdir va = pte s.mem pgdir va
  fresh : ∀ va, a ≤ va → va < b → pte s'.mem pgdir va = pte s.mem pgdir va ∨
    ∃ f ∈ s.free, pte s'.mem pgdir va = mkPte f (perm va) ∧ f ∉ s'.free ∧ ¬ Node s'.mem pgdir f ∧
      s'.mem f = cont va
  inj : ∀ va va', a ≤ va → va < b → a ≤ va' → va' < b → present (pte s'.mem pgdir va) = true →
    present (pte s'.mem pgdir va') = true →
    pteAddr (pte s'.mem pgdir va) = pteAddr (pte s'.mem pgdir va') → va / pgsize = va' / pgsize
  all : s'.short = s.short → ∀ va, a ≤ va → va < b → present (pte s'.mem pgdir va) = true
  used : s'.short = s.short → ∀ f ∈ s.free, f ∈ s'.free ∨ (∃ i, table s'.mem pgdir i = some f) ∨
    ∃ va, a ≤ va ∧ va < b ∧ pte s'.mem pgdir va = mkPte f (perm va)

/-- Fresh pages as `allocuvm` maps them. -/
abbrev Zeroed : (pgdir a b : Nat) → (s s' : Machine) → Prop := Filled (fun _ => permWU) fun _ => zeroPage

/-- Nothing is mapped in `[a, b)`. -/
def Unmapped (m : Memory) (pgdir a b : Nat) : Prop :=
  ∀ va, a ≤ va → va < b → ¬ present (pte m pgdir va) = true

section Loop
variable {perm : Nat → Nat} {cont : Nat → Page} {pgdir a b c : Nat} {s s₁ s' : Machine}

theorem Filled.refl (h : Tree s.mem pgdir) (hs' : s' = { s with deny := s'.deny }) : Filled perm cont pgdir a a s s' := by
  rw [hs']
  refine ⟨⟨⟨[], rfl, fun _ _ _ => rfl, fun _ _ h => .inl h⟩, fun _ _ h => h, h, le_rfl, rfl, rfl⟩,
    fun _ _ => rfl, fun va hl hh => ?_, fun va va' hl hh => ?_, fun _ va hl hh => ?_, fun _ f hf => .inl hf⟩
  · omega
  · omega
  · omega

/-- Of the pages that were not mapped, the mapped ones are fresh. -/
theorem Filled.fresh_of_present (h : Filled perm cont pgdir a b s s') (habs : Unmapped s.mem pgdir a b) {va : Nat}
    (hl : a ≤ va) (hh : va < b) (hp : present (pte s'.mem pgdir va) = true) :
    ∃ f ∈ s.free, pte s'.mem pgdir va = mkPte f (perm va) ∧ f ∉ s'.free ∧ ¬ Node s'.mem pgdir f ∧
      s'.mem f = cont va := by
  rcases h.fresh va hl hh with hsame | hfresh
  · rw [hsame] at hp
    exact absurd hp (habs va hl hh)
  · exact hfresh

theorem Filled.trans (h : Filled perm cont pgdir a c s s₁) (h' : Filled perm cont pgdir c b s₁ s') (hperm : ∀ va, perm va < 4096) (hac : a ≤ c) (hcb : c ≤ b)
    (habs : Unmapped s.mem pgdir a b) : Filled perm cont pgdir a b s s' := by
  have hlow : ∀ va, va < c → pte s'.mem pgdir va = pte s₁.mem pgdir va := fun va hva => h'.other va (.inl hva)
  have habs₁ : Unmapped s.mem pgdir a c := fun va hl hh => habs va hl (by omega)
  have habs₂ : Unmapped s₁.mem pgdir c b := by
    intro va hl hh
    rw [h.other va (.inr hl)]
    exact habs va (by omega) hh
  -- a page of the first part is not one of those taken for the second
  have hmixed : ∀ va va', a ≤ va → va < c → c ≤ va' → va' < b → present (pte s'.mem pgdir va) = true →
      present (pte s'.mem pgdir va') = true →
      pteAddr (pte s'.mem pgdir va) ≠ pteAddr (pte s'.mem pgdir va') := by
    intro va va' hl hh hl' hh' hp hp' heq
    rw [hlow va hh] at hp heq
    obtain ⟨f, -, hf, hused, -⟩ := h.fresh_of_present habs₁ hl hh hp
    obtain ⟨g, hg, hg', -⟩ := h'.fresh_of_present habs₂ hl' hh' hp'
    rw [hf, hg', pteAddr_mkPte (hperm va), pteAddr_mkPte (hperm va')] at heq
    exact hused (heq ▸ hg)
  refine ⟨h.grows.trans h'.grows, fun va hva => ?_, fun va hl hh => ?_, fun va va' hl hh hl' hh' hp hp' heq => ?_,
    fun hshort va hl hh => ?_, fun hshort f hf => ?_⟩
  · rw [h'.other va (by omega), h.other va (by omega)]
  · by_cases hva : va < c
    · rw [hlow va hva]
      refine (h.fresh va hl hva).imp_right fun ⟨f, hf, hpte, hused, hn, hz⟩ => ⟨f, hf, hpte, ?_, ?_, ?_⟩
      · exact fun hf' => hused (h'.grows.free_subset hf')
      · exact fun hn' => (h'.grows.node hn').elim hn hused
      · rw [h'.grows.mem_eq hused hn, hz]
    · rw [← h.other va (.inr (not_lt.mp hva))]
      refine (h'.fresh va (not_lt.mp hva) hh).imp_right fun ⟨f, hf, hrest⟩ => ⟨f, h.grows.free_subset hf, hrest⟩
  · by_cases hva : va < c <;> by_cases hva' : va' < c
    · rw [hlow va hva] at hp heq
      rw [hlow va' hva'] at hp' heq
      exact h.inj va va' hl hva hl' hva' hp hp' heq
    · exact absurd heq (hmixed va va' hl hva (not_lt.mp hva') hh' hp hp')
    · exact absurd heq.symm (hmixed va' va hl' hva' (not_lt.mp hva) hh hp' hp)
    · exact h'.inj va va' (not_lt.mp hva) hh (not_lt.mp hva') hh' hp hp' heq
  · have hle := h.grows.short
    have hle' := h'.grows.short
    by_cases hva : va < c
    · rw [hlow va hva]
      exact h.all (by omega) va hl hva
    · exact h'.all (by omega) va (not_lt.mp hva) hh
  · have hle := h.grows.short
    have hle' := h'.grows.short
    rcases h.used (by omega) f hf with hf₁ | ⟨i, hi⟩ | ⟨va, hl, hh, hva⟩
    · rcases h'.used (by omega) f hf₁ with hf' | hi | ⟨va, hl, hh, hva⟩
      · exact .inl hf'
      · exact .inr (.inl hi)
      · exact .inr (.inr ⟨va, by omega, hh, hva⟩)
    · exact .inr (.inl ⟨i, h'.grows.tables i f hi⟩)
    · exact .inr (.inr ⟨va, hl, by omega, by rw [hlow va hh, hva]⟩)

/-- A page is taken off the free list and filled. -/
theorem grows_take {f : Nat} {free : List Nat} {page : Page} (h : Space s pgdir) (hfree : s.free = f :: free)
    (hs' : s' = { s with mem := Function.update s.mem f page, free := free, deny := s'.deny }) :
    Grows pgdir s s' ∧ (∀ va, pte s'.mem pgdir va = pte s.mem pgdir va) ∧ f ∉ s'.free ∧
      ¬ Node s'.mem pgdir f := by
  have hf : f ∈ s.free := by
    rw [hfree]
    exact List.mem_cons_self
  have hn := h.apart f hf
  have hkeep : ∀ g, Node s.mem pgdir g → Function.update s.mem f page g = s.mem g :=
    fun g hg => Function.update_of_ne (fun heq : g = f => hn (heq ▸ hg)) _ _
  have htable : table (Function.update s.mem f page) pgdir = table s.mem pgdir :=
    funext fun i => table_congr (hkeep _ node_self)
  have hnodup := h.nodup
  rw [hfree, List.nodup_cons] at hnodup
  rw [hs']
  refine ⟨⟨⟨[f], hfree, fun g hg _ => ?_, fun i g hi => .inl (htable ▸ hi)⟩, fun i g hi => ?_,
    h.tree.congr (hkeep _ node_self), le_rfl, rfl, rfl⟩, fun va => pte_congr hkeep, hnodup.1, ?_⟩
  · exact Function.update_of_ne (fun heq : g = f => hg (by rw [heq]; exact List.mem_singleton_self f)) _ _
  · exact (congrFun htable i).trans hi
  · rw [node_congr htable]
    exact hn

/-- One round of the loop: the page `f`, filled with the contents of `a`, is mapped there, if it can be. -/
theorem Filled.page {f : Nat} {free : List Nat} {r : Bool} (h : Space s pgdir) (hfree : s.free = f :: free)
    (hs₁ : s₁ = { s with mem := Function.update s.mem f (cont a), free := free, deny := s₁.deny })
    (ha : a % pgsize = 0) (hsame : ∀ va, a ≤ va → va < a + pgsize → perm va = perm a ∧ cont va = cont a) (hgrows : Grows pgdir s₁ s') (htabled : Tabled pgdir s₁ s')
    (hr : if r then s'.short = s₁.short ∧ TablesFor s₁.mem s'.mem pgdir a 1 ∧ ∀ va, pte s'.mem pgdir va =
        if a ≤ va ∧ va < a + pgsize then mkPte f (perm a) else pte s₁.mem pgdir va
      else s'.short = s₁.short + 1 ∧ ∀ va, pte s'.mem pgdir va = pte s₁.mem pgdir va) :
    Filled perm cont pgdir a (a + pgsize) s s' := by
  obtain ⟨htake, hpte₁, hused, hn⟩ := grows_take h hfree hs₁
  have hf : f ∈ s.free := by
    rw [hfree]
    exact List.mem_cons_self
  have hz : s₁.mem f = cont a := by
    rw [hs₁]
    exact Function.update_self ..
  have hshort₁ : s₁.short = s.short := by rw [hs₁]
  have hpage : ∀ va va', a ≤ va → va < a + pgsize → a ≤ va' → va' < a + pgsize →
      va / pgsize = va' / pgsize := by
    intro va va' hl hh hl' hh'
    simp only [pgsize] at *
    omega
  cases r with
  | true =>
      obtain ⟨hshort, -, hpte⟩ := hr
      refine ⟨htake.trans hgrows, fun va hva => ?_, fun va hl hh => .inr ⟨f, hf, ?_, ?_, ?_, ?_⟩,
        fun va va' hl hh hl' hh' _ _ _ => hpage va va' hl hh hl' hh', fun _ va hl hh => ?_, fun _ g hg => ?_⟩
      · rw [hpte va, if_neg (by omega), hpte₁ va]
      · rw [hpte va, if_pos ⟨hl, hh⟩, (hsame va hl hh).1]
      · exact fun hf' => hused (hgrows.free_subset hf')
      · exact fun hn' => (hgrows.node hn').elim hn hused
      · rw [hgrows.mem_eq hused hn, hz, (hsame va hl hh).2]
      · rw [hpte va, if_pos ⟨hl, hh⟩, present_mkPte]
      · have hg' : g = f ∨ g ∈ s₁.free := by
          rw [hfree, List.mem_cons] at hg
          rw [hs₁]
          exact hg
        rcases hg' with rfl | hg'
        · refine .inr (.inr ⟨a, le_rfl, by simp [pgsize], ?_⟩)
          rw [hpte a, if_pos ⟨le_rfl, by simp [pgsize]⟩]
        · exact (htabled g hg').imp_right .inl
  | false =>
      obtain ⟨hshort, hpte⟩ := hr
      have hmore : s'.short ≠ s.short := by omega
      refine ⟨htake.trans hgrows, fun va _ => ?_, fun va hl hh => .inl ?_,
        fun va va' hl hh hl' hh' _ _ _ => hpage va va' hl hh hl' hh', fun hc => absurd hc hmore,
        fun hc => absurd hc hmore⟩
      · rw [hpte va, hpte₁ va]
      · rw [hpte va, hpte₁ va]

theorem allocPage_wp {E : Panic → Prop} (h : Space s pgdir) (ha : a % pgsize = 0) (hlt : a + pgsize ≤ 2 ^ 32)
    (habs : ¬ present (pte s.mem pgdir a) = true) :
    Wp (allocPage pgdir a) s E fun ok s' =>
      if ok then Zeroed pgdir a (a + pgsize) s s' else Zeroed pgdir a a s s' := by
  simp only [allocPage, wp_bind]
  refine kalloc_wp.post fun r s₀ hr => ?_
  cases r with
  | none =>
      obtain rfl := hr
      exact wp_pure.mpr (Filled.refl h.tree rfl)
  | some f =>
      obtain ⟨hfree, hs₀⟩ := hr
      simp only [setPage, wp_bind, wp_modify]
      have hs₁ : ({ s₀ with mem := Function.update s₀.mem f zeroPage } : Machine) =
          { s with mem := Function.update s.mem f zeroPage, free := s₀.free, deny := s₀.deny } := by
        rw [hs₀]
      obtain ⟨htake, hpte₁, -, -⟩ := grows_take h hfree hs₁
      have hf : f ∈ s.free := by
        rw [hfree]
        exact List.mem_cons_self
      refine (mapPage_wp (htake.space h) ha hlt permWU_lt (h.lt hf)).mono ?_ ?_
      · rintro e ⟨-, hp⟩
        rw [hpte₁ a] at hp
        exact absurd hp habs
      · rintro r s' ⟨hgrows, htabled, hr⟩
        exact wp_pure.mpr (Filled.page h hfree hs₁ ha (fun _ _ _ => ⟨rfl, rfl⟩) hgrows htabled hr)

/-- **`allocuvm`'s loop.** -/
theorem allocLoop_wp {E : Panic → Prop} {n : Nat} (h : Space s pgdir) (ha : a % pgsize = 0)
    (hn : a + n * pgsize ≤ kernbase) (habs : Unmapped s.mem pgdir a (a + n * pgsize)) :
    Wp (allocLoop pgdir n a) s E fun ok s' => ∃ k ≤ n, Zeroed pgdir a (a + k * pgsize) s s' ∧
      (ok = true → k = n) ∧ (ok = false → k < n) := by
  induction n generalizing s a with
  | zero =>
      refine wp_pure.mpr ⟨0, le_rfl, ?_, fun _ => rfl, (by rintro ⟨⟩)⟩
      rw [Nat.zero_mul, Nat.add_zero]
      exact Filled.refl h.tree rfl
  | succ n ih =>
      have hpg : pgsize = 4096 := rfl
      have hkb : kernbase ≤ 2 ^ 32 := by norm_num [kernbase]
      rw [Nat.succ_mul] at hn habs
      rw [allocLoop]
      refine (allocPage_wp h ha (by omega) (habs a le_rfl (by omega))).bind fun ok s₁ hok => ?_
      cases ok with
      | false =>
          refine wp_pure.mpr ⟨0, Nat.zero_le _, ?_, (by rintro ⟨⟩), fun _ => Nat.succ_pos n⟩
          rw [Nat.zero_mul, Nat.add_zero]
          exact hok
      | true =>
          have hpage : Zeroed pgdir a (a + pgsize) s s₁ := hok
          have habs₁ : Unmapped s₁.mem pgdir (a + pgsize) (a + pgsize + n * pgsize) := by
            intro va hl hh
            rw [hpage.other va (.inr hl)]
            exact habs va (by omega) (by omega)
          refine (ih (hpage.grows.space h) (by rw [Nat.add_mod_right, ha]) (by omega) habs₁).post ?_
          rintro ok s' ⟨k, hk, hfilled, hok, hno⟩
          refine ⟨k + 1, Nat.succ_le_succ hk, ?_, fun h => by rw [hok h], fun h => Nat.succ_lt_succ (hno h)⟩
          have hmul : k * pgsize ≤ n * pgsize := Nat.mul_le_mul_right _ hk
          have hend : a + (k + 1) * pgsize = a + pgsize + k * pgsize := by
            rw [Nat.succ_mul]
            omega
          rw [hend]
          refine hpage.trans hfilled (fun _ => permWU_lt) (by omega) (by omega) fun va hl hh => habs va hl ?_
          omega

end Loop

/-! ### `allocuvm` -/

/-- The same pages are mapped, and by the same entries. -/
def SameMap (m m' : Memory) (pgdir : Nat) : Prop :=
  ∀ va, present (pte m' pgdir va) = true ∨ present (pte m pgdir va) = true → pte m' pgdir va = pte m pgdir va

/-- What was taken has been given back, but for page tables. -/
structure Restored (pgdir : Nat) (s s' : Machine) : Prop where
  map : SameMap s.mem s'.mem pgdir
  free : ∀ f ∈ s.free, f ∈ s'.free ∨ ∃ i, table s'.mem pgdir i = some f
  mem : ∀ f, f ∉ s.free → ¬ Node s.mem pgdir f → s'.mem f = s.mem f

section Alloc
variable {pgdir a b oldsz newsz : Nat} {s s₁ s' : Machine} {E : Panic → Prop}

/-- The loop ends at the page boundary behind `newsz`. -/
theorem pages_end (hle : oldsz ≤ newsz) (hnew : newsz < kernbase) :
    pgRoundUp oldsz + pages (pgRoundUp oldsz) newsz * pgsize = pgRoundUp newsz := by
  rw [pgRoundUp_eq (by omega : oldsz < kernbase), pgRoundUp_eq hnew]
  simp only [pages, pgsize]
  omega

theorem pgRoundUp_le_kernbase (hnew : newsz < kernbase) : pgRoundUp newsz ≤ kernbase :=
  pgRoundUp_le hnew (by simp [kernbase, pgsize]) (le_of_lt hnew)

/-- The last page is mapped or not as a whole. -/
theorem Unmapped.round {m : Memory} (h : Unmapped m pgdir a newsz) (ha : a % pgsize = 0)
    (hnew : newsz < kernbase) : Unmapped m pgdir a (pgRoundUp newsz) := by
  intro va hl hh
  rw [← pte_page va]
  have hlt := pgRoundUp_lt hnew
  have hmod := pgRoundUp_mod newsz
  refine h _ ?_ ?_
  · simp only [pgsize] at *
    omega
  · simp only [pgsize] at *
    omega

/-- The new pages are pages of their own. -/
theorem Filled.owns {perm : Nat → Nat} {cont : Nat → Page} (hf : Filled perm cont pgdir a b s s')
    (hperm : ∀ va, perm va < 4096) (h : Space s pgdir) {c : Nat} (hbc : b ≤ c)
    (habs : Unmapped s.mem pgdir a c) : Owns s' pgdir a c := by
  -- behind `b` nothing is mapped
  have hnew : ∀ va, a ≤ va → va < c → present (pte s'.mem pgdir va) = true → va < b := by
    intro va hl hh hp
    by_contra hge
    rw [hf.other va (.inr (not_lt.mp hge))] at hp
    exact habs va hl hh hp
  have hpage : ∀ va, a ≤ va → va < c → present (pte s'.mem pgdir va) = true →
      ∃ f ∈ s.free, pteAddr (pte s'.mem pgdir va) = f ∧ f ∉ s'.free ∧ ¬ Node s'.mem pgdir f := by
    intro va hl hh hp
    obtain ⟨f, hfree, hpte, hused, hn, -⟩ :=
      hf.fresh_of_present (fun x hx hx' => habs x hx (by omega)) hl (hnew va hl hh hp) hp
    exact ⟨f, hfree, by rw [hpte, pteAddr_mkPte (hperm va)], hused, hn⟩
  refine ⟨fun va hl hh hp => ?_, fun va hl hh hp => ?_, fun va hl hh hp => ?_,
    fun va va' hl hh hl' hh' hp hp' => hf.inj va va' hl (hnew va hl hh hp) hl' (hnew va' hl' hh' hp') hp hp'⟩
  · obtain ⟨f, hfree, heq, -⟩ := hpage va hl hh hp
    rw [heq, hf.grows.kend]
    exact h.range f hfree
  · obtain ⟨f, -, heq, hused, -⟩ := hpage va hl hh hp
    rw [heq]
    exact hused
  · obtain ⟨f, -, heq, -, hn⟩ := hpage va hl hh hp
    rw [heq]
    exact hn

/-- `deallocuvm` comes to every page that the loop has mapped: the first of them has a page table. -/
theorem Filled.undo (hf : Zeroed pgdir a b s s₁) (ha : a % pgsize = 0)
    (hnew : newsz < kernbase) (hb : b ≤ pgRoundUp newsz) (habs : Unmapped s.mem pgdir a newsz)
    (hshort : s₁.short = s.short) (hu : Unmaps pgdir (visits (table s₁.mem pgdir) newsz a) s₁ s') :
    Restored pgdir s s' := by
  have hround := habs.round ha hnew
  have hvisits : ∀ va, a ≤ va → va < b → va / pgsize * pgsize ∈ visits (table s₁.mem pgdir) newsz a := by
    intro va hl hh
    have hp := hf.all hshort va hl hh
    obtain ⟨t, ht⟩ := table_of_present (hf.all hshort a le_rfl (by omega))
    refine (mem_visits_page ha hp).mpr ⟨hl, ?_, not_skipped_of_tab (by rw [ht]; exact nofun)⟩
    have hlt := pgRoundUp_lt hnew
    have hmod := pgRoundUp_mod newsz
    simp only [pgsize] at *
    omega
  have hframe : ∀ f ∈ frames s₁.mem pgdir (visits (table s₁.mem pgdir) newsz a), f ∈ s.free := by
    intro f hmem
    obtain ⟨x, hx, hp, rfl⟩ := mem_frames.mp hmem
    obtain ⟨-, hl, hh, -⟩ := (mem_visits ha).mp hx
    have hlt : x < b := by
      by_contra hge
      rw [hf.other x (.inr (not_lt.mp hge))] at hp
      exact habs x hl hh hp
    obtain ⟨f, hfree, hpte, -⟩ := hf.fresh_of_present (fun y hy hy' => hround y hy (by omega)) hl hlt hp
    rw [hpte, pteAddr_mkPte permWU_lt]
    exact hfree
  refine ⟨fun va hva => ?_, fun f hfree => ?_, fun f hfree hn => ?_⟩
  · by_cases hin : a ≤ va ∧ va < b
    · -- mapped by the loop, cleared again, and not mapped before
      have hnot := hround va hin.1 (by omega)
      rw [hu.pte va, if_pos ⟨hf.all hshort va hin.1 hin.2, hvisits va hin.1 hin.2⟩] at hva
      rcases hva with hva | hva
      · cases hva
      · exact absurd hva hnot
    · rw [hu.pte va, hf.other va (by omega), if_neg]
      rintro ⟨hp, hmem⟩
      obtain ⟨-, hl, hh, -⟩ := (mem_visits ha).mp hmem
      rw [← pte_page va] at hp
      exact habs _ hl hh hp
  · rw [hu.free, hu.table]
    rcases hf.used hshort f hfree with hf' | hi | ⟨va, hl, hh, hpte⟩
    · exact .inl (List.mem_append_right _ hf')
    · exact .inr hi
    · refine .inl (List.mem_append_left _ (List.mem_reverse.mpr (mem_frames.mpr ⟨_, hvisits va hl hh, ?_⟩)))
      rw [pte_page, hpte, present_mkPte, pteAddr_mkPte permWU_lt]
      exact ⟨rfl, rfl⟩
  · rw [hu.mem f (fun hmem => hfree (hframe f hmem)) fun hn' => (hf.grows.node hn').elim hn hfree,
      hf.grows.mem_eq hfree hn]

theorem allocuvm_wp (h : Space s pgdir) (hle : oldsz ≤ newsz) (hnew : newsz < kernbase)
    (habs : Unmapped s.mem pgdir (pgRoundUp oldsz) newsz) :
    Wp (allocuvm pgdir oldsz newsz) s E fun r s' => Space s' pgdir ∧
      ((r = newsz ∧ Zeroed pgdir (pgRoundUp oldsz) (pgRoundUp newsz) s s') ∨
        (r = 0 ∧ newsz ≠ 0 ∧ (s'.short = s.short → Restored pgdir s s'))) := by
  have hmod := pgRoundUp_mod oldsz
  have hend := pages_end hle hnew
  have hround := habs.round hmod hnew
  rw [allocuvm, if_neg (by omega), if_neg (by omega)]
  refine (allocLoop_wp h hmod (by rw [hend]; exact pgRoundUp_le_kernbase hnew) (by rwa [hend])).bind ?_
  rintro ok s₁ ⟨k, hk, hfilled, hok, hno⟩
  have hs₁ := hfilled.grows.space h
  cases ok with
  | true =>
      obtain rfl := hok rfl
      rw [hend] at hfilled
      exact wp_pure.mpr ⟨hs₁, .inl ⟨rfl, hfilled⟩⟩
  | false =>
      have hpages : pages (pgRoundUp oldsz) newsz ≠ 0 := by
        have := hno rfl
        omega
      have hlt : oldsz < newsz := by
        by_contra hge
        have hsub : newsz - pgRoundUp oldsz = 0 := by
          have := le_pgRoundUp (by omega : oldsz < kernbase)
          omega
        rw [pages, hsub] at hpages
        exact hpages (by decide)
      have hb : pgRoundUp oldsz + k * pgsize ≤ pgRoundUp newsz := by
        rw [← hend]
        exact Nat.add_le_add_left (Nat.mul_le_mul_right _ hk) _
      have howns := hfilled.owns (fun _ => permWU_lt) h hb hround
      refine (deallocuvm_wp hs₁ (howns.mono le_rfl (le_pgRoundUp hnew)) hlt).bind ?_
      rintro r s' ⟨-, hs', hu⟩
      refine wp_pure.mpr ⟨hs', .inr ⟨rfl, by omega, fun hshort => ?_⟩⟩
      exact hfilled.undo hmod hnew hb habs (by rw [← hu.short]; exact hshort) hu

/-- Nothing is mapped in this machine, which has the pages `free`. -/
def blank (free : List Nat) : Machine where
  mem _ := zeroPage
  free := free
  deny := []
  short := 0
  kend := 1
  kdata := 300

theorem space_blank {free : List Nat} (hnodup : free.Nodup) (hfree : ∀ f ∈ free, 2 ≤ f ∧ f < phystop) :
    Space (blank free) 1 where
  tree := tree_zero
  nodup := hnodup
  range f hf := ⟨le_trans one_le_two (hfree f hf).1, (hfree f hf).2⟩
  apart f hf := by
    have hge := (hfree f hf).1
    rintro (heq | ⟨i, hi⟩)
    · omega
    · rw [blank, table_zero] at hi
      cases hi
  kend := Nat.one_pos

/-- The entry for `va` is one that `deallocuvm` clears. -/
def Cleared (m : Memory) (pgdir oldsz newsz va : Nat) : Prop :=
  present (pte m pgdir va) = true ∧ pgRoundUp newsz ≤ va ∧ va / pgsize * pgsize < oldsz ∧
    ¬ Skipped (table m pgdir) (pgRoundUp newsz) va

/-- **`deallocuvm`** clears the entries of its range and frees their pages, each of them once, but for those
it passes over; and it undoes a call of `allocuvm` that got all its page tables. -/
theorem deallocuvm_frees (h : Space s pgdir) (hlt : newsz < oldsz) (_hold : oldsz ≤ kernbase)
    (ho : Owns s pgdir (pgRoundUp newsz) oldsz) :
    ∃ s', deallocuvm pgdir oldsz newsz s = .ok (newsz, s') ∧
      (∀ va, Cleared s.mem pgdir oldsz newsz va → pte s'.mem pgdir va = 0) ∧
      (∀ va, ¬ Cleared s.mem pgdir oldsz newsz va → pte s'.mem pgdir va = pte s.mem pgdir va) ∧
      (∃ l, s'.free = l ++ s.free ∧ l.Nodup ∧ ∀ f, f ∈ l ↔
        ∃ va, va < oldsz ∧ Cleared s.mem pgdir oldsz newsz va ∧ pteAddr (pte s.mem pgdir va) = f) ∧
      (Unmapped s'.mem pgdir (pgRoundUp newsz) oldsz ↔
        ∀ va, pgRoundUp newsz ≤ va → va < oldsz → present (pte s.mem pgdir va) = true →
          ¬ Skipped (table s.mem pgdir) (pgRoundUp newsz) va) ∧
      (∀ s₀, Space s₀ pgdir → oldsz < kernbase → Unmapped s₀.mem pgdir (pgRoundUp newsz) oldsz →
        allocuvm pgdir newsz oldsz s₀ = .ok (oldsz, s) → s.short = s₀.short → Restored pgdir s₀ s') := by
  have hwp : Wp (deallocuvm pgdir oldsz newsz) s (fun _ => False) _ := deallocuvm_wp h ho hlt
  obtain ⟨r, s', hrun, rfl, hs', hu⟩ := hwp.exists_ok fun _ => id
  have hmod := pgRoundUp_mod r
  have hcond : ∀ va, Cleared s.mem pgdir oldsz r va ↔ present (pte s.mem pgdir va) = true ∧
      va / pgsize * pgsize ∈ visits (table s.mem pgdir) oldsz (pgRoundUp r) := by
    intro va
    constructor
    · rintro ⟨hp, hrest⟩
      exact ⟨hp, (mem_visits_page hmod hp).mpr hrest⟩
    · rintro ⟨hp, hmem⟩
      exact ⟨hp, (mem_visits_page hmod hp).mp hmem⟩
  have hpage : ∀ va, va / pgsize * pgsize ≤ va := fun va => Nat.div_mul_le_self va pgsize
  refine ⟨s', hrun, fun va hva => ?_, fun va hva => ?_, ⟨_, hu.free, ?_, fun f => ?_⟩, ?_, ?_⟩
  · rw [hu.pte va, if_pos ((hcond va).mp hva)]
  · rw [hu.pte va, if_neg fun hc => hva ((hcond va).mpr hc)]
  · have hnodup := hs'.nodup
    rw [hu.free, List.nodup_append] at hnodup
    exact hnodup.1
  · rw [List.mem_reverse, mem_frames]
    constructor
    · rintro ⟨x, hx, hp, rfl⟩
      obtain ⟨hxmod, -, hxlt, -⟩ := (mem_visits hmod).mp hx
      have hxpage : x / pgsize * pgsize = x := Nat.div_mul_cancel (Nat.dvd_of_mod_eq_zero hxmod)
      exact ⟨x, hxlt, (hcond x).mpr ⟨hp, by rw [hxpage]; exact hx⟩, rfl⟩
    · rintro ⟨va, -, hva, rfl⟩
      obtain ⟨hp, hmem⟩ := (hcond va).mp hva
      exact ⟨_, hmem, by rw [pte_page]; exact hp, by rw [pte_page]⟩
  · constructor
    · intro hun va hl hh hp hskip
      refine hun va hl hh ?_
      rw [hu.pte va, if_neg fun hc => ((hcond va).mpr hc).2.2.2 hskip]
      exact hp
    · intro hall va hl hh hp
      have hsame := hu.pte va
      by_cases hpres : present (pte s.mem pgdir va) = true
      · have hva := (hcond va).mp ⟨hpres, hl, lt_of_le_of_lt (hpage va) hh, hall va hl hh hpres⟩
        rw [hsame, if_pos hva] at hp
        cases hp
      · rw [hsame, if_neg fun hc => hpres hc.1] at hp
        exact hpres hp
  · intro s₀ hs₀ hlt' habs halloc hshort
    have hwp₀ : Wp (allocuvm pgdir r oldsz) s₀ (fun _ => False) _ := allocuvm_wp hs₀ (le_of_lt hlt) hlt' habs
    obtain ⟨-, ⟨-, hfilled⟩ | ⟨hzero, hpos, -⟩⟩ := hwp₀.of_eq_ok halloc
    · exact hfilled.undo hmod hlt' le_rfl habs hshort hu
    · exact absurd hzero hpos

end Alloc

theorem deallocuvm_first_page : ∃ s', deallocuvm 1 4096 0 (oneEntry 0 (mkPte 3 permWU) []) = .ok (0, s') ∧
    s'.free = [3] := by
  have hw : mkPte 3 permWU < 2 ^ 32 := mkPte_lt (by decide) permWU_lt
  have hspace : Space (oneEntry 0 (mkPte 3 permWU) []) 1 := space_oneEntry (by decide) (by decide) (by decide)
  have howns : Owns (oneEntry 0 (mkPte 3 permWU) []) 1 (pgRoundUp 0) 4096 :=
    owns_oneEntry (by decide) permWU_lt (by decide)
  obtain ⟨s', hrun, -, -, ⟨l, hl, hnodup, hmem⟩, -⟩ := deallocuvm_frees hspace (by decide) (by decide) howns
  refine ⟨s', hrun, ?_⟩
  -- of the pages below 4096 there is one, and it is page 3
  have hpte : ∀ va < 4096, pte (oneEntry 0 (mkPte 3 permWU) []).mem 1 va = mkPte 3 permWU := by
    intro va hva
    rw [pte_oneEntry (by decide) hw, if_pos]
    simp only [pdx, ptx]
    omega
  have hl3 : ∀ f, f ∈ l ↔ f ∈ [3] := by
    intro f
    rw [hmem, List.mem_singleton]
    constructor
    · rintro ⟨va, hva, -, rfl⟩
      rw [hpte va hva, pteAddr_mkPte permWU_lt]
    · rintro rfl
      refine ⟨0, by decide, ⟨?_, by decide, by decide, fun hs => ?_⟩, ?_⟩
      · rw [hpte 0 (by decide), present_mkPte]
      · exact absurd hs.1 (by decide)
      · rw [hpte 0 (by decide), pteAddr_mkPte permWU_lt]
  have hperm := (List.perm_ext_iff_of_nodup hnodup (by decide)).mpr hl3
  rw [hl, List.perm_singleton.mp hperm]
  rfl

/-- No page table for the first 4 MB, one page mapped behind them: from the second page on the loop jumps to the
second page of the second page table. -/
theorem deallocuvm_passes_over : ∃ s s', Space s 1 ∧ Owns s 1 (pgRoundUp 4096) (2 ^ 22 + 4096) ∧
    deallocuvm 1 (2 ^ 22 + 4096) 4096 s = .ok (4096, s') ∧ pgRoundUp 4096 ≤ 2 ^ 22 ∧
    present (pte s'.mem 1 (2 ^ 22)) = true := by
  have hw : mkPte 3 permWU < 2 ^ 32 := mkPte_lt (by decide) permWU_lt
  have hva : 2 ^ 22 < 2 ^ 32 := by decide
  have hround : pgRoundUp 4096 = 4096 := by decide
  have hnone : table (oneEntry (2 ^ 22) (mkPte 3 permWU) []).mem 1 (pdx 4096) = none := by
    rw [table_oneEntry hva, if_neg (by decide)]
  have hrun : deallocuvm 1 (2 ^ 22 + 4096) 4096 (oneEntry (2 ^ 22) (mkPte 3 permWU) []) =
      .ok (4096, oneEntry (2 ^ 22) (mkPte 3 permWU) []) := by
    have hwp : Wp (deallocuvm 1 (2 ^ 22 + 4096) 4096) (oneEntry (2 ^ 22) (mkPte 3 permWU) []) (fun _ => False)
        fun r s' => r = 4096 ∧ s' = oneEntry (2 ^ 22) (mkPte 3 permWU) [] := by
      rw [deallocuvm, if_neg (by decide), hround, deallocLoop, if_pos (by decide)]
      simp only [wp_bind, wp_gets, walkpgdir_none hnone]
      rw [deallocLoop, if_neg (by decide)]
      simp only [wp_pure, and_self]
    obtain ⟨r, s', hrun, rfl, rfl⟩ := hwp.exists_ok fun _ => id
    exact hrun
  refine ⟨_, _, space_oneEntry hva (by decide) (by decide), owns_oneEntry hva permWU_lt (by decide), hrun,
    by decide, ?_⟩
  rw [pte_oneEntry hva hw, if_pos ⟨rfl, rfl⟩, present_mkPte]

/-! ### `growproc` -/

/-- The pages of a process of size `sz`: all of them are mapped, and they are pages of their own. -/
structure Image (s : Machine) (pgdir sz : Nat) : Prop where
  space : Space s pgdir
  lt : sz < kernbase
  mapped : ∀ va < pgRoundUp sz, present (pte s.mem pgdir va) = true
  owns : Owns s pgdir 0 (pgRoundUp sz)

/-- The size has changed by `n`; what lies below both sizes is as it was, and the new pages are zero. -/
structure Resized (p p' : Proc) (n : Int) (s s' : Machine) : Prop where
  size : (p'.sz : Int) = p.sz + n
  pgdir : p'.pgdir = p.pgdir
  kept : ∀ va, va < p.sz → va < p'.sz → pte s'.mem p.pgdir va = pte s.mem p.pgdir va ∧
    s'.mem (pteAddr (pte s.mem p.pgdir va)) = s.mem (pteAddr (pte s.mem p.pgdir va))
  zero : ∀ va, pgRoundUp p.sz ≤ va → va < pgRoundUp p'.sz → present (pte s'.mem p.pgdir va) = true ∧
    s'.mem (pteAddr (pte s'.mem p.pgdir va)) = zeroPage

/-- The user pages and what they hold are as they were. -/
structure Untouched (pgdir : Nat) (s s' : Machine) : Prop where
  map : SameMap s.mem s'.mem pgdir
  mem : ∀ va < kernbase, present (pte s.mem pgdir va) = true →
    s'.mem (pteAddr (pte s.mem pgdir va)) = s.mem (pteAddr (pte s.mem pgdir va))

section Growproc
variable {p : Proc} {n : Int32} {s : Machine} {E : Panic → Prop}

theorem u32addInt_of_nonneg (hsz : p.sz < kernbase) (hn : 0 ≤ (p.sz : Int) + n.toInt) :
    (u32addInt p.sz n : Int) = p.sz + n.toInt := by
  have hhigh := n.toInt_lt
  simp only [u32addInt, kernbase] at *
  omega

/-- The process's pages are neither free nor of its directory. -/
theorem Image.apart (h : Image s p.pgdir p.sz) (htop : Unmapped s.mem p.pgdir (pgRoundUp p.sz) kernbase)
    {va : Nat} (hva : va < kernbase) (hp : present (pte s.mem p.pgdir va) = true) :
    pteAddr (pte s.mem p.pgdir va) ∉ s.free ∧ ¬ Node s.mem p.pgdir (pteAddr (pte s.mem p.pgdir va)) := by
  have hlt : va < pgRoundUp p.sz := by
    by_contra hge
    exact htop va (not_lt.mp hge) hva hp
  exact ⟨h.owns.used va (Nat.zero_le _) hlt hp, h.owns.node va (Nat.zero_le _) hlt hp⟩

theorem growproc_grow_wp (h : Image s p.pgdir p.sz) (htop : Unmapped s.mem p.pgdir (pgRoundUp p.sz) kernbase)
    (hn : 0 < n.toInt) :
    Wp (growproc p n) s E fun r s' => s'.short = s.short →
      (r.1 = 0 ∧ Resized p r.2 n.toInt s s') ∨ (r.1 = -1 ∧ r.2 = p ∧ Untouched p.pgdir s s') := by
  have hsz := h.lt
  have hnew := u32addInt_of_nonneg hsz (by omega : 0 ≤ (p.sz : Int) + n.toInt)
  rw [growproc, if_pos hn]
  by_cases hbig : kernbase ≤ u32addInt p.sz n
  · rw [allocuvm, if_pos hbig]
    simp only [wp_bind, wp_pure, if_true]
    exact fun _ => .inr ⟨trivial, trivial, fun _ _ => rfl, fun _ _ _ => rfl⟩
  · rw [not_le] at hbig
    have habs : Unmapped s.mem p.pgdir (pgRoundUp p.sz) (u32addInt p.sz n) :=
      fun va hl hh => htop va hl (by omega)
    refine (allocuvm_wp h.space (by omega) hbig habs).bind ?_
    rintro sz s' ⟨-, ⟨rfl, hfilled⟩ | ⟨rfl, -, hback⟩⟩
    · rw [if_neg (by omega)]
      refine wp_pure.mpr fun hshort => .inl ⟨rfl, hnew, rfl, fun va hva _ => ?_, fun va hl hh => ?_⟩
      · have hup := le_pgRoundUp hsz
        have hp := h.mapped va (by omega)
        obtain ⟨hused, hnode⟩ := h.apart htop (by omega) hp
        exact ⟨hfilled.other va (.inl (by omega)), hfilled.grows.mem_eq hused hnode⟩
      · have hp := hfilled.all hshort va hl hh
        obtain ⟨f, -, hpte, -, -, hzero⟩ :=
          hfilled.fresh_of_present (habs.round (pgRoundUp_mod _) hbig) hl hh hp
        refine ⟨hp, ?_⟩
        rw [hpte, pteAddr_mkPte permWU_lt]
        exact hzero
    · rw [if_pos rfl]
      refine wp_pure.mpr fun hshort => .inr ⟨rfl, rfl, (hback hshort).map, fun va hva hp => ?_⟩
      obtain ⟨hused, hnode⟩ := h.apart htop hva hp
      exact (hback hshort).mem _ hused hnode

theorem growproc_shrink_wp (h : Image s p.pgdir p.sz) (hn : n.toInt < 0) (hpos : 0 < (p.sz : Int) + n.toInt) :
    Wp (growproc p n) s E fun r s' => r.1 = 0 ∧ Resized p r.2 n.toInt s s' := by
  have hsz := h.lt
  have hnew := u32addInt_of_nonneg hsz (le_of_lt hpos)
  have hup := le_pgRoundUp hsz
  rw [growproc, if_neg (by omega), if_pos hn]
  refine (deallocuvm_wp h.space (h.owns.mono (Nat.zero_le _) hup) (by omega)).bind ?_
  rintro sz s' ⟨rfl, -, hu⟩
  rw [if_neg (by omega)]
  have hmod := pgRoundUp_mod (u32addInt p.sz n)
  have hup' := le_pgRoundUp (by omega : u32addInt p.sz n < kernbase)
  refine wp_pure.mpr ⟨rfl, hnew, rfl, fun va hva hva' => ?_, fun va hl hh => ?_⟩
  · -- its page lies below those that are cleared
    have hp := h.mapped va (by omega)
    have hout : ∀ x ∈ visits (table s.mem p.pgdir) p.sz (pgRoundUp (u32addInt p.sz n)),
        x / pgsize ≠ va / pgsize := by
      intro x hx
      have hge := (visits_ge hmod hx).1
      simp only [pgsize] at *
      omega
    constructor
    · rw [hu.pte va, if_neg]
      rintro ⟨-, hmem⟩
      refine hout _ hmem ?_
      rw [Nat.mul_div_cancel _ (by decide)]
    · refine hu.mem _ (fun hmem => ?_) (h.owns.node va (Nat.zero_le _) (by omega) hp)
      obtain ⟨x, hx, hpx, heq⟩ := mem_frames.mp hmem
      have hlt := ((mem_visits hmod).mp hx).2.2.1
      exact hout x hx (h.owns.inj x va (Nat.zero_le _) (by omega) (Nat.zero_le _) (by omega) hpx hp heq)
  · have hle : pgRoundUp (u32addInt p.sz n) ≤ pgRoundUp p.sz :=
      pgRoundUp_le (by omega) (pgRoundUp_mod _) (by omega)
    have : va < pgRoundUp (u32addInt p.sz n) := hh
    omega

end Growproc

/-- A process of one page. -/
theorem image_oneEntry (free : List Nat) (hnodup : free.Nodup) (hfree : ∀ f ∈ free, 4 ≤ f ∧ f < phystop) :
    Image (oneEntry 0 (mkPte 3 permWU) free) 1 4096 ∧
      Unmapped (oneEntry 0 (mkPte 3 permWU) free).mem 1 (pgRoundUp 4096) kernbase := by
  have hw : mkPte 3 permWU < 2 ^ 32 := mkPte_lt (by decide) permWU_lt
  have hround : pgRoundUp 4096 = 4096 := by decide
  rw [hround]
  refine ⟨⟨space_oneEntry (by decide) hnodup fun f hf => ⟨by have := (hfree f hf).1; omega, (hfree f hf).2⟩,
    by decide, fun va hva => ?_, owns_oneEntry (by decide) permWU_lt fun h3 => ?_⟩, fun va hl hh hp => ?_⟩
  · rw [hround] at hva
    rw [pte_oneEntry (by decide) hw, if_pos, present_mkPte]
    simp only [pdx, ptx]
    omega
  · exact absurd (hfree 3 h3).1 (by decide)
  · rw [pte_oneEntry (by decide) hw, if_neg] at hp
    · cases hp
    · simp only [pdx, ptx, kernbase] at *
      omega

end Xv6.Mmu
