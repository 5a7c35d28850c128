import Xv6.Mmu.Alloc

/-!
# Mmu — new address spaces

`setupkvm`, `copyuvm` and the part of `fork` that takes pages.  `setupkvm` maps the kernel into a fresh
directory; `copyuvm` then copies the user pages one by one, and gives everything back with `freevm` when it
cannot go on.  Two things are not given back: the pages `setupkvm` has when it fails, and the page `copyuvm`
holds when `mappages` finds no page for a page table.  Without such a failure nothing is lost
(`fork_gives_back`), and a copy that succeeds is faithful and private (`copyuvm_copies`).
-/

namespace Xv6.Mmu
open Lib Lib.Prog Vm

/-- An entry of `kmap`, in bytes. -/
structure Kmap where
  virt : Nat
  physStart : Nat
  physEnd : Nat
  perm : Nat

/-- `EXTMEM`. -/
def extmem : Nat := 0x100000

/-- `DEVSPACE`. -/
def devspace : Nat := 0xFE000000

/-- `PTE_W`. -/
def permW : Nat := 2

/-- `kmap`, for a kernel whose data starts at page `kdata`. -/
def kmap (kdata : Nat) : List Kmap :=
  [⟨kernbase, 0, extmem, permW⟩,
   ⟨kernbase + extmem, extmem, kdata * pgsize, 0⟩,
   ⟨kernbase + kdata * pgsize, kdata * pgsize, phystop * pgsize, permW⟩,
   ⟨devspace, devspace, 0, permW⟩]

/-- The loop of `setupkvm`, which ends with the first entry that cannot be mapped. -/
def mapAll (pgdir : Nat) (ks : List Kmap) : VmM Bool :=
  ks.foldr (fun k rest => do
    let ok ← mappages pgdir k.virt (u32sub k.physEnd k.physStart) (k.physStart / pgsize) k.perm
    if ok then rest else pure false) (pure true)

/-- `setupkvm`; `p2v(PHYSTOP)` is not above `DEVSPACE`. -/
def setupkvm : VmM (Option Nat) := do
  let r ← kalloc
  match r with
  | none => pure none
  | some pgdir => do
      setPage pgdir zeroPage
      let kdata ← gets Machine.kdata
      let ok ← mapAll pgdir (kmap kdata)
      -- the pages taken so far are not freed here
      if ok then pure (some pgdir) else pure none

/-- One round of `copyuvm`'s loop. -/
def copyPage (pgdir d i : Nat) : VmM Bool := do
  let m ← gets Machine.mem
  match walkpgdir m pgdir i with
  | none => stop .pteShouldExist
  | some (t, x) =>
      if present (word m t x) then do
        let r ← kalloc
        match r with
        | none => pure false
        | some f => do
            setPage f (m (pteAddr (word m t x)))
            mappages d i pgsize f (pteFlags (word m t x))
      else stop .notPresent

/-- `copyuvm`'s loop, for `n` pages more. -/
def copyLoop (pgdir d : Nat) : (n i : Nat) → VmM Bool
  | 0, _ => pure true
  | n + 1, i => do
      let ok ← copyPage pgdir d i
      if ok then copyLoop pgdir d n (i + pgsize) else pure false

def copyuvm (pgdir sz : Nat) : VmM (Option Nat) := do
  let r ← setupkvm
  match r with
  | none => pure none
  | some d => do
      let ok ← copyLoop pgdir d (pages 0 sz) 0
      if ok then pure (some d)
      else do
        freevm d
        pure none

/-- The pages `fork` takes: the kernel stack, in `allocproc`, and the copy. -/
def fork (p : Proc) : VmM (Option Proc) := do
  let r ← kalloc
  match r with
  | none => pure none
  | some kstack => do
      let c ← copyuvm p.pgdir p.sz
      match c with
      | none => do
          kfree kstack
          pure none
      | some d => pure (some ⟨p.sz, d⟩)

/-! ### `setupkvm` -/

/-- The kernel's text and data are not empty. -/
def Layout (s : Machine) : Prop := 256 < s.kdata ∧ s.kdata < phystop

/-- An entry of `kmap` for `n` pages. -/
structure Kmap.Ok (k : Kmap) (n : Nat) : Prop where
  virt : k.virt % pgsize = 0
  size : u32sub k.physEnd k.physStart = n * pgsize
  pos : 0 < n
  top : k.virt + n * pgsize ≤ 2 ^ 32
  phys : k.physStart / pgsize + n ≤ 2 ^ 20
  perm : k.perm < 4096

section Setup
variable {pgdir : Nat} {s s' : Machine} {E : Panic → Prop}

theorem mappages_pages {a n f perm : Nat} (ha : a % pgsize = 0) (hpos : 0 < n) (hlt : a + n * pgsize ≤ 2 ^ 32) :
    mappages pgdir a (n * pgsize) f perm = mapLoop pgdir perm n a f := by
  have hpg : pgsize = 4096 := rfl
  obtain ⟨n, rfl⟩ : ∃ k, n = k + 1 := ⟨n - 1, by omega⟩
  rw [Nat.succ_mul] at hlt
  have hround : a / pgsize * pgsize = a := Nat.div_mul_cancel (Nat.dvd_of_mod_eq_zero ha)
  have hin : u32 (a + (n + 1) * pgsize + 2 ^ 32 - 1) = a + n * pgsize + (pgsize - 1) := by
    have hsum : a + (n + 1) * pgsize + 2 ^ 32 - 1 = a + n * pgsize + (pgsize - 1) + 2 ^ 32 := by
      rw [Nat.succ_mul]
      omega
    rw [hsum, u32, Nat.add_mod_right, Nat.mod_eq_of_lt (by omega)]
  have hlast : (a + n * pgsize + (pgsize - 1)) / pgsize * pgsize = a + n * pgsize := by
    have hmod : (a + n * pgsize) % pgsize = 0 := by rw [Nat.add_mul_mod_self_right, ha]
    obtain ⟨q, hq⟩ := Nat.dvd_of_mod_eq_zero hmod
    rw [hq, Nat.mul_add_div (by omega), Nat.div_eq_of_lt (by omega), Nat.add_zero, Nat.mul_comm]
  have hcount : u32 (a + n * pgsize + 2 ^ 32 - a) / pgsize + 1 = n + 1 := by
    have hsub : a + n * pgsize + 2 ^ 32 - a = n * pgsize + 2 ^ 32 := by omega
    rw [hsub, u32, Nat.add_mod_right, Nat.mod_eq_of_lt (by omega), Nat.mul_div_cancel _ (by omega)]
  simp only [mappages, hround, hin, hlast, hcount]

/-- **The loop of `setupkvm`**, over entries one behind the other from `lo` on. -/
theorem mapAll_wp {ks : List Kmap} {lo : Nat} (h : Space s pgdir) (hok : ∀ k ∈ ks, ∃ n, k.Ok n)
    (hlo : ∀ k ∈ ks, lo ≤ k.virt)
    (hsep : ks.Pairwise fun k k' => k.virt + u32sub k.physEnd k.physStart ≤ k'.virt)
    (habs : Unmapped s.mem pgdir lo (2 ^ 32)) :
    Wp (mapAll pgdir ks) s E fun r s' => Grows pgdir s s' ∧ Tabled pgdir s s' ∧
      (∀ va < lo, pte s'.mem pgdir va = pte s.mem pgdir va) ∧
      if r then s'.short = s.short else s.short < s'.short := by
  induction ks generalizing s lo with
  | nil => exact wp_pure.mpr ⟨.refl h.tree, .refl, fun _ _ => rfl, rfl⟩
  | cons k ks ih =>
      obtain ⟨n, hk⟩ := hok k List.mem_cons_self
      rw [List.pairwise_cons] at hsep
      have hle := hlo k List.mem_cons_self
      rw [mapAll, List.foldr_cons, hk.size, mappages_pages hk.virt hk.pos hk.top]
      refine (mapLoop_wp h hk.virt hk.top hk.perm hk.phys).seq ?_ ?_
      · rintro e ⟨-, va, hl, hh, hp⟩
        have htop := hk.top
        exact absurd hp (habs va (by omega) (by omega))
      · rintro r s₁ ⟨hgrows, htabled, j, hmaps, -, hend⟩
        have hbelow : ∀ va < lo, pte s₁.mem pgdir va = pte s.mem pgdir va := by
          intro va hva
          rw [hmaps va, if_neg (by omega)]
        cases r with
        | false => exact wp_pure.mpr ⟨hgrows, htabled, hbelow, lt_of_lt_of_eq (Nat.lt_succ_self _) hend.2.symm⟩
        | true =>
            obtain ⟨rfl, hshort⟩ := hend
            have habs' : Unmapped s₁.mem pgdir (k.virt + j * pgsize) (2 ^ 32) := by
              intro va hl hh
              rw [hmaps va, if_neg (by omega)]
              exact habs va (by omega) hh
            have hlo' : ∀ k' ∈ ks, k.virt + j * pgsize ≤ k'.virt := by
              intro k' hk'
              rw [← hk.size]
              exact hsep.1 k' hk'
            refine (ih (hgrows.space h) (fun k' hk' => hok k' (List.mem_cons_of_mem _ hk')) hlo' hsep.2 habs').post ?_
            rintro r s' ⟨hgrows', htabled', hbelow', hr⟩
            refine ⟨hgrows.trans hgrows', htabled.trans htabled' hgrows', fun va hva => ?_, ?_⟩
            · rw [hbelow' va (by omega), hbelow va hva]
            · rw [← hshort]
              exact hr

theorem kmap_ok {kdata : Nat} (hlow : 256 < kdata) (hhigh : kdata < phystop) :
    (∀ k ∈ kmap kdata, ∃ n, k.Ok n) ∧ (∀ k ∈ kmap kdata, kernbase ≤ k.virt) ∧
      (kmap kdata).Pairwise fun k k' => k.virt + u32sub k.physEnd k.physStart ≤ k'.virt := by
  simp only [phystop] at hhigh
  have hio : Kmap.Ok ⟨kernbase, 0, extmem, permW⟩ 256 := by
    constructor <;> norm_num [kernbase, extmem, permW, pgsize, u32sub, u32]
  have hdev : Kmap.Ok ⟨devspace, devspace, 0, permW⟩ 0x2000 := by
    constructor <;> norm_num [devspace, permW, pgsize, u32sub, u32]
  have htext : Kmap.Ok ⟨kernbase + extmem, extmem, kdata * pgsize, 0⟩ (kdata - 256) := by
    constructor <;> (try simp only [kernbase, extmem, pgsize, u32sub, u32]) <;> omega
  have hdata : Kmap.Ok ⟨kernbase + kdata * pgsize, kdata * pgsize, phystop * pgsize, permW⟩ (phystop - kdata) := by
    constructor <;> (try simp only [kernbase, phystop, permW, pgsize, u32sub, u32]) <;> omega
  refine ⟨?_, ?_, ?_⟩
  · simp only [kmap, List.mem_cons, List.not_mem_nil, or_false]
    rintro k (rfl | rfl | rfl | rfl)
    exacts [⟨_, hio⟩, ⟨_, htext⟩, ⟨_, hdata⟩, ⟨_, hdev⟩]
  · simp only [kmap, List.mem_cons, List.not_mem_nil, or_false]
    rintro k (rfl | rfl | rfl | rfl) <;> simp only [kernbase, extmem, devspace] <;> omega
  · simp only [kmap, List.pairwise_cons, List.mem_cons, List.not_mem_nil, or_false, forall_eq_or_imp, forall_eq,
      hio.size, htext.size, hdata.size, false_imp_iff, implies_true, List.Pairwise.nil, and_true]
    simp only [kernbase, extmem, devspace, phystop, pgsize]
    omega

/-- The free pages by themselves. -/
structure Pool (s : Machine) : Prop where
  nodup : s.free.Nodup
  range : ∀ f ∈ s.free, s.kend ≤ f ∧ f < phystop
  kend : 0 < s.kend

/-- A fresh directory. -/
theorem Pool.fresh {d : Nat} (h : Pool s) (hfree : s.free = d :: s'.free) (hkend : s'.kend = s.kend) :
    Space { s' with mem := Function.update s'.mem d zeroPage } d ∧
      ∀ i, table (Function.update s'.mem d zeroPage) d i = none := by
  have htable : ∀ i, table (Function.update s'.mem d zeroPage) d i = none := by
    intro i
    rw [table, word_zeroPage (Function.update_self ..), if_neg (by decide)]
  have hnodup := h.nodup
  rw [hfree, List.nodup_cons] at hnodup
  refine ⟨⟨⟨fun i j f hi => ?_, fun i f hi => ?_⟩, hnodup.2, fun f hf => ?_, fun f hf hn => ?_, hkend ▸ h.kend⟩, htable⟩
  · cases (htable i).symm.trans hi
  · cases (htable i).symm.trans hi
  · rw [hkend]
    refine h.range f ?_
    rw [hfree]
    exact List.mem_cons_of_mem _ hf
  · rcases hn with rfl | ⟨i, hi⟩
    · exact hnodup.1 hf
    · cases (htable i).symm.trans hi

theorem Space.pool (h : Space s pgdir) : Pool s := ⟨h.nodup, h.range, h.kend⟩

/-- A directory `d` made of pages that were free in `s`; what was not free has not changed. -/
structure Built (s s' : Machine) (d : Nat) : Prop where
  space : Space s' d
  dir : d ∈ s.free
  node : ∀ f, Node s'.mem d f → f ∈ s.free ∧ f ∉ s'.free
  subset : ∀ f ∈ s'.free, f ∈ s.free
  mem : ∀ f, f ∉ s.free → s'.mem f = s.mem f
  short : s.short ≤ s'.short
  kend : s'.kend = s.kend
  kdata : s'.kdata = s.kdata

theorem Built.grows {d : Nat} {s₁ : Machine} (h : Built s s₁ d) (hg : Grows d s₁ s') : Built s s' d where
  space := hg.space h.space
  dir := h.dir
  node f hf := by
    have hused : f ∉ s'.free := fun hmem => (hg.space h.space).apart f hmem hf
    rcases hg.node hf with hf | hf
    · exact ⟨(h.node f hf).1, hused⟩
    · exact ⟨h.subset f hf, hused⟩
  subset f hf := h.subset f (hg.free_subset hf)
  mem f hf := by
    rw [hg.mem_eq (fun hmem => hf (h.subset f hmem)) fun hn => hf (h.node f hn).1, h.mem f hf]
  short := h.short.trans hg.short
  kend := hg.kend.trans h.kend
  kdata := hg.kdata.trans h.kdata

/-- **`setupkvm`**: a directory without user pages, all of whose pages are its own; or nothing at all, unless
it was a page table that could not be allocated. -/
theorem setupkvm_wp (h : Pool s) (hl : Layout s) :
    Wp setupkvm s E fun r s' => match r with
      | none => s'.kend = s.kend ∧ (s'.short = s.short → s' = { s with deny := s'.deny })
      | some d => Built s s' d ∧ Unmapped s'.mem d 0 kernbase ∧ s'.short = s.short ∧
          ∀ f ∈ s.free, f ∈ s'.free ∨ Node s'.mem d f := by
  simp only [setupkvm, wp_bind]
  refine kalloc_wp.post fun r s₀ hr => ?_
  cases r with
  | none =>
      obtain rfl := hr
      exact wp_pure.mpr ⟨rfl, fun _ => rfl⟩
  | some d =>
      obtain ⟨hfree, hs₀⟩ := hr
      simp only [setPage, wp_bind, wp_modify, wp_gets]
      obtain ⟨hspace, htable⟩ := h.fresh hfree (by rw [hs₀])
      have hzero : ∀ va, pte (Function.update s₀.mem d zeroPage) d va = 0 := fun va => pte_none (htable _)
      have hdata : s₀.kdata = s.kdata := by rw [hs₀]
      obtain ⟨hok, hlo, hsep⟩ := kmap_ok (hdata ▸ hl.1) (hdata ▸ hl.2)
      have habs : Unmapped (Function.update s₀.mem d zeroPage) d kernbase (2 ^ 32) := by
        intro va _ _ hp
        rw [hzero va] at hp
        cases hp
      have hd : d ∈ s.free := by
        rw [hfree]
        exact List.mem_cons_self
      have hnodup := h.nodup
      rw [hfree, List.nodup_cons] at hnodup
      have hbuilt : Built s { s₀ with mem := Function.update s₀.mem d zeroPage } d := by
        refine ⟨hspace, hd, fun f hf => ?_, fun f hf => ?_, fun f hf => ?_, ?_, ?_, ?_⟩
        · rcases hf with rfl | ⟨i, hi⟩
          · exact ⟨hd, hnodup.1⟩
          · rw [htable i] at hi
            cases hi
        · rw [hfree]
          exact List.mem_cons_of_mem _ hf
        · have hne : f ≠ d := fun heq => hf (heq ▸ hd)
          rw [hs₀]
          exact Function.update_of_ne hne _ _
        · rw [hs₀]
        · rw [hs₀]
        · rw [hs₀]
      refine (mapAll_wp hspace hok hlo hsep habs).post ?_
      rintro r s' ⟨hgrows, htabled, hbelow, hr⟩
      have hshort₀ : s₀.short = s.short := by rw [hs₀]
      cases r with
      | false =>
          refine wp_pure.mpr ⟨(hbuilt.grows hgrows).kend, fun hshort => ?_⟩
          have hmore : s₀.short < s'.short := hr
          omega
      | true =>
          refine wp_pure.mpr ⟨hbuilt.grows hgrows, fun va _ hva hp => ?_, hr.trans hshort₀, fun f hf => ?_⟩
          · rw [hbelow va hva] at hp
            have hnot : ¬ present (pte (Function.update s₀.mem d zeroPage) d va) = true := by
              rw [hzero va]
              decide
            exact hnot hp
          · rw [hfree, List.mem_cons] at hf
            rcases hf with rfl | hf
            · exact .inr node_self
            · rcases htabled f hf with hfree | ⟨i, hi⟩
              · exact .inl hfree
              · exact .inr (node_table hi)

end Setup

/-! ### `freevm` -/

/-- A directory with all its user pages given back. -/
structure Freed (d : Nat) (s s' : Machine) : Prop where
  nodup : s'.free.Nodup
  free : ∀ f, f ∈ s'.free ↔ f ∈ s.free ∨ Node s.mem d f ∨
    ∃ va < kernbase, present (pte s.mem d va) = true ∧ pteAddr (pte s.mem d va) = f
  short : s'.short = s.short
  kend : s'.kend = s.kend

section Freevm
variable {d : Nat} {s : Machine} {E : Panic → Prop}

/-- The page tables of these entries are free, and nothing else has changed in the directory. -/
theorem freeTables_wp (h : Space s d) (hrange : ∀ i f, table s.mem d i = some f → s.kend ≤ f ∧ f < phystop) :
    Wp (forEach (List.range 1024) (freeTable d)) s E fun _ s' =>
      s'.free = ((List.range 1024).filterMap (table s.mem d)).reverse ++ s.free ∧ s'.short = s.short ∧
        s'.kend = s.kend := by
  refine (wp_forEach (I := fun done s' => s'.free = (done.filterMap (table s.mem d)).reverse ++ s.free ∧
    s'.short = s.short ∧ s'.kend = s.kend ∧ s'.mem d = s.mem d) ?_ ⟨rfl, rfl, rfl, rfl⟩).post
      fun _ s' hs' => ⟨hs'.1, hs'.2.1, hs'.2.2.1⟩
  rintro done i rest s₁ - ⟨hfree, hshort, hkend, hdir⟩
  simp only [freeTable, wp_bind, wp_gets]
  have hword : word s₁.mem d i = word s.mem d i := word_congr hdir
  rw [hword]
  by_cases hp : present (word s.mem d i) = true
  · have ht : table s.mem d i = some (pteAddr (word s.mem d i)) := by rw [table, if_pos hp]
    obtain ⟨hlow, hhigh⟩ := hrange i _ ht
    rw [if_pos hp]
    refine (kfree_wp (by rw [hkend]; exact hlow) hhigh).post fun _ s' hs' => ?_
    subst hs'
    refine ⟨?_, hshort, hkend, ?_⟩
    · simp only [List.filterMap_append, List.filterMap_cons, List.filterMap_nil, ht, List.reverse_append,
        List.reverse_singleton, hfree]
      rfl
    · rw [← hdir]
      exact Function.update_of_ne (h.tree.ne i _ ht).symm _ _
  · have ht : table s.mem d i = none := by rw [table, if_neg hp]
    rw [if_neg hp]
    refine wp_pure.mpr ⟨?_, hshort, hkend, hdir⟩
    simp only [List.filterMap_append, List.filterMap_cons, List.filterMap_nil, ht, List.append_nil, hfree]

/-- **`freevm`** gives back the user pages, the page tables and the directory. -/
theorem freevm_wp (h : Space s d) (ho : Owns s d 0 kernbase)
    (hrange : ∀ f, Node s.mem d f → s.kend ≤ f ∧ f < phystop) :
    Wp (freevm d) s E fun _ s' => Freed d s s' := by
  have hzero : pgRoundUp 0 = 0 := by decide
  have hkb : kernbase = 2 ^ 31 := by norm_num [kernbase]
  rw [freevm]
  refine (deallocuvm_wp h (by rw [hzero]; exact ho) (by omega)).bind ?_
  rintro r s₁ ⟨-, hs₁, hu⟩
  rw [hzero] at hu
  have hnode : ∀ f, Node s₁.mem d f ↔ Node s.mem d f := fun f => node_congr hu.table
  refine (freeTables_wp hs₁ fun i f hi => ?_).bind ?_
  · rw [hu.kend]
    exact hrange f ((hnode f).mp (node_table hi))
  · rintro - s₂ ⟨hfree, hshort, hkend⟩
    obtain ⟨hlow, hhigh⟩ := hrange d node_self
    refine (kfree_wp (by rw [hkend, hu.kend]; exact hlow) hhigh).post fun _ s' hs' => ?_
    have hs'free : s'.free = d :: (((List.range 1024).filterMap (table s₁.mem d)).reverse ++ s₁.free) := by
      rw [hs', hfree]
    have htables : ∀ f, f ∈ (List.range 1024).filterMap (table s₁.mem d) ↔ ∃ i, table s₁.mem d i = some f := by
      intro f
      rw [List.mem_filterMap]
      constructor
      · rintro ⟨i, -, hi⟩
        exact ⟨i, hi⟩
      · rintro ⟨i, hi⟩
        exact ⟨i, List.mem_range.mpr (table_lt hi), hi⟩
    have hframe : ∀ f, f ∈ s₁.free ↔ f ∈ s.free ∨
        ∃ va < kernbase, present (pte s.mem d va) = true ∧ pteAddr (pte s.mem d va) = f := by
      intro f
      rw [hu.free, List.mem_append, List.mem_reverse, mem_frames, or_comm]
      refine or_congr_right ⟨?_, ?_⟩
      · rintro ⟨x, hx, hp⟩
        exact ⟨x, ((mem_visits (Nat.zero_mod _)).mp hx).2.2.1, hp⟩
      · rintro ⟨va, hva, hp, hf⟩
        refine ⟨_, (mem_visits_page (Nat.zero_mod _) hp).mpr ⟨Nat.zero_le _, ?_, ?_⟩, ?_, ?_⟩
        · exact lt_of_le_of_lt (Nat.div_mul_le_self va pgsize) hva
        · -- from address 0 on the loop passes over nothing
          rintro ⟨-, hlt, -⟩
          exact absurd hlt (Nat.not_lt_zero _)
        · rw [pte_page]
          exact hp
        · rw [pte_page]
          exact hf
    refine ⟨?_, fun f => ?_, ?_, ?_⟩
    · rw [hs'free, List.nodup_cons, List.nodup_append, List.nodup_reverse]
      refine ⟨fun hmem => ?_, ?_, hs₁.nodup, fun a ha b hb hab => ?_⟩
      · rcases List.mem_append.mp hmem with hmem | hmem
        · obtain ⟨i, hi⟩ := (htables d).mp (List.mem_reverse.mp hmem)
          exact hs₁.tree.ne i d hi rfl
        · exact hs₁.apart d hmem node_self
      · refine List.Nodup.filterMap (fun i j f hi hj => ?_) List.nodup_range
        exact hs₁.tree.inj i j f hi hj
      · obtain ⟨i, hi⟩ := (htables a).mp (List.mem_reverse.mp ha)
        exact hs₁.apart b hb (hab ▸ node_table hi)
    · rw [hs'free, List.mem_cons, List.mem_append, List.mem_reverse, htables, hframe, ← hnode f, Node]
      constructor
      · rintro (hf | hf | hf | hf)
        exacts [.inr (.inl (.inl hf)), .inr (.inl (.inr hf)), .inl hf, .inr (.inr hf)]
      · rintro (hf | (hf | hf) | hf)
        exacts [.inr (.inr (.inl hf)), .inl hf, .inr (.inl hf), .inr (.inr (.inr hf))]
    · rw [hs']
      exact hshort.trans hu.short
    · rw [hs']
      exact hkend.trans hu.kend

end Freevm

/-! ### `copyuvm` -/

/-- The flags of the parent's entries, and what its pages hold. -/
def flagsOf (m : Memory) (pgdir va : Nat) : Nat := pteFlags (pte m pgdir va)

def pageOf (m : Memory) (pgdir va : Nat) : Page := m (pteAddr (pte m pgdir va))

/-- What the copy reads: the parent's directory and its pages below `top`. -/
def Source (m : Memory) (pgdir top f : Nat) : Prop :=
  Node m pgdir f ∨ ∃ va < top, present (pte m pgdir va) = true ∧ pteAddr (pte m pgdir va) = f

/-- The parent's pages as they were in `m`, none of them free or of the directory `d`. -/
def Reads (m : Memory) (pgdir top d : Nat) (s : Machine) : Prop :=
  ∀ f, Source m pgdir top f → f ∉ s.free ∧ ¬ Node s.mem d f ∧ s.mem f = m f

section Copy
variable {m : Memory} {pgdir top d i : Nat} {s s' : Machine} {E : Panic → Prop}

theorem flagsOf_lt (va : Nat) : flagsOf m pgdir va < 4096 := Nat.mod_lt _ (by decide)

theorem flagsOf_page {va : Nat} (hi : i % pgsize = 0) (hl : i ≤ va) (hh : va < i + pgsize) :
    flagsOf m pgdir va = flagsOf m pgdir i ∧ pageOf m pgdir va = pageOf m pgdir i := by
  have hva : va / pgsize * pgsize = i := by
    simp only [pgsize] at *
    omega
  have hpte : pte m pgdir va = pte m pgdir i := by rw [← pte_page va, hva]
  rw [flagsOf, flagsOf, pageOf, pageOf, hpte]
  exact ⟨rfl, rfl⟩

theorem Reads.grows (h : Reads m pgdir top d s) (hg : Grows d s s') : Reads m pgdir top d s' := by
  intro f hf
  obtain ⟨hfree, hn, hmem⟩ := h f hf
  refine ⟨fun hf' => hfree (hg.free_subset hf'), fun hn' => (hg.node hn').elim hn hfree, ?_⟩
  rw [hg.mem_eq hfree hn, hmem]

/-- One page: it is copied, or there is no page for it, or none for its page table. -/
theorem copyPage_wp (h : Space s d) (hr : Reads m pgdir top d s) (hi : i % pgsize = 0) (hlt : i + pgsize ≤ 2 ^ 32)
    (htop : i < top) (hp : present (pte m pgdir i) = true) (habs : ¬ present (pte s.mem d i) = true) :
    Wp (copyPage pgdir d i) s E fun ok s' =>
      if ok then Filled (flagsOf m pgdir) (pageOf m pgdir) d i (i + pgsize) s s' ∧ s'.short = s.short
      else ∃ e, i ≤ e ∧ e ≤ i + pgsize ∧ Filled (flagsOf m pgdir) (pageOf m pgdir) d i e s s' := by
  obtain ⟨t, ht⟩ := table_of_present hp
  have hdir : table s.mem pgdir (pdx i) = some t := by
    rw [table_congr (hr pgdir (.inl node_self)).2.2, ht]
  have hword : word s.mem t (ptx i) = pte m pgdir i := by
    rw [pte_some ht]
    exact word_congr (hr t (.inl (node_table ht))).2.2
  have hpage : s.mem (pteAddr (pte m pgdir i)) = pageOf m pgdir i := (hr _ (.inr ⟨i, htop, hp, rfl⟩)).2.2
  simp only [copyPage, wp_bind, wp_gets, walkpgdir_some hdir, hword, hp, if_true]
  refine kalloc_wp.post fun r s₀ hk => ?_
  cases r with
  | none =>
      obtain rfl := hk
      exact wp_pure.mpr ⟨i, le_rfl, Nat.le_add_right _ _, Filled.refl h.tree rfl⟩
  | some f =>
      obtain ⟨hfree, hs₀⟩ := hk
      simp only [setPage, wp_bind, wp_modify]
      have hs₁ : ({ s₀ with mem := Function.update s₀.mem f (s.mem (pteAddr (pte m pgdir i))) } : Machine) =
          { s with mem := Function.update s.mem f (pageOf m pgdir i), free := s₀.free, deny := s₀.deny } := by
        rw [hs₀, hpage]
      obtain ⟨htake, hpte₁, -, -⟩ := grows_take h hfree hs₁
      have hf : f ∈ s.free := by
        rw [hfree]
        exact List.mem_cons_self
      have hshort₀ : s₀.short = s.short := by rw [hs₀]
      refine (mapPage_wp (htake.space h) hi hlt (flagsOf_lt i) (h.lt hf)).mono ?_ ?_
      · rintro e ⟨-, hp'⟩
        rw [hpte₁ i] at hp'
        exact absurd hp' habs
      · rintro r s' ⟨hgrows, htabled, hr'⟩
        have hfilled := Filled.page h hfree hs₁ hi (fun va hl hh => flagsOf_page hi hl hh) hgrows htabled hr'
        cases r with
        | true => exact ⟨hfilled, hr'.1.trans hshort₀⟩
        | false => exact ⟨_, Nat.le_add_right _ _, le_rfl, hfilled⟩

/-- **`copyuvm`'s loop.** -/
theorem copyLoop_wp {n : Nat} (h : Space s d) (hr : Reads m pgdir top d s) (hi : i % pgsize = 0)
    (hn : i + n * pgsize ≤ top) (htop : top ≤ kernbase)
    (hp : ∀ va, i ≤ va → va < i + n * pgsize → present (pte m pgdir va) = true)
    (habs : Unmapped s.mem d i (i + n * pgsize)) :
    Wp (copyLoop pgdir d n i) s E fun ok s' => ∃ e, i ≤ e ∧ e ≤ i + n * pgsize ∧
      Filled (flagsOf m pgdir) (pageOf m pgdir) d i e s s' ∧
      (ok = true → e = i + n * pgsize ∧ s'.short = s.short) := by
  induction n generalizing s i with
  | zero =>
      refine wp_pure.mpr ⟨i, le_rfl, Nat.le_add_right _ _, Filled.refl h.tree rfl, fun _ => ⟨?_, rfl⟩⟩
      rw [Nat.zero_mul, Nat.add_zero]
  | succ n ih =>
      have hpg : pgsize = 4096 := rfl
      have hkb : kernbase ≤ 2 ^ 32 := by norm_num [kernbase]
      rw [Nat.succ_mul] at hn hp habs ⊢
      rw [copyLoop]
      refine (copyPage_wp h hr hi (by omega) (by omega) (hp i le_rfl (by omega))
        (habs i le_rfl (by omega))).bind fun ok s₁ hok => ?_
      cases ok with
      | false =>
          obtain ⟨e, hl, hh, hfilled⟩ := hok
          exact wp_pure.mpr ⟨e, hl, by omega, hfilled, (by rintro ⟨⟩)⟩
      | true =>
          obtain ⟨hpage, hshort⟩ := hok
          have habs₁ : Unmapped s₁.mem d (i + pgsize) (i + pgsize + n * pgsize) := by
            intro va hl hh
            rw [hpage.other va (.inr hl)]
            exact habs va (by omega) (by omega)
          refine (ih (hpage.grows.space h) (hr.grows hpage.grows) (by rw [Nat.add_mod_right, hi]) (by omega)
            (fun va hl hh => hp va (by omega) (by omega)) habs₁).post ?_
          rintro ok s' ⟨e, hl, hh, hfilled, hok⟩
          refine ⟨e, by omega, by omega, ?_, fun h => ⟨?_, (hok h).2.trans hshort⟩⟩
          · exact hpage.trans hfilled flagsOf_lt (by omega) hl fun va hl' hh' => habs va hl' (by omega)
          · have := (hok h).1
            omega

/-- A process whose pages are there, and in use. -/
structure Parent (s : Machine) (pgdir sz : Nat) : Prop where
  space : Space s pgdir
  lt : sz < kernbase
  mapped : ∀ va < sz, present (pte s.mem pgdir va) = true
  used : ∀ va < sz, pteAddr (pte s.mem pgdir va) ∉ s.free

variable {sz : Nat}

/-- Up to the end of the last page. -/
theorem Parent.page (h : Parent s pgdir sz) {va : Nat} (hva : va < pgRoundUp sz) :
    present (pte s.mem pgdir va) = true ∧ pteAddr (pte s.mem pgdir va) ∉ s.free := by
  have hlt : va / pgsize * pgsize < sz := by
    have hround := pgRoundUp_lt h.lt
    have hmod := pgRoundUp_mod sz
    simp only [pgsize] at *
    omega
  rw [← pte_page va]
  exact ⟨h.mapped _ hlt, h.used _ hlt⟩

theorem Parent.reads (h : Parent s pgdir sz) (hb : Built s s' d) : Reads s.mem pgdir (pgRoundUp sz) d s' := by
  intro f hf
  have hused : f ∉ s.free := by
    rcases hf with hn | ⟨va, hva, -, rfl⟩
    · exact fun hmem => h.space.apart f hmem hn
    · exact (h.page hva).2
  exact ⟨fun hmem => hused (hb.subset f hmem), fun hn => hused (hb.node f hn).1, hb.mem f hused⟩

theorem pages_zero (hsz : sz < kernbase) : pages 0 sz * pgsize = pgRoundUp sz := by
  have hzero : pgRoundUp 0 = 0 := by decide
  have hend := pages_end (Nat.zero_le sz) hsz
  rw [hzero, Nat.zero_add] at hend
  exact hend

/-- What has been taken for a copy that fails is free again after `freevm`. -/
theorem Freed.perm {s₁ s₂ : Machine} {e : Nat} (hs : Pool s) (hb : Built s s₁ d)
    (hnew : Unmapped s₁.mem d 0 kernbase) (hall : ∀ f ∈ s.free, f ∈ s₁.free ∨ Node s₁.mem d f)
    (he : e ≤ kernbase) (hfilled : Filled (flagsOf m pgdir) (pageOf m pgdir) d 0 e s₁ s₂)
    (hshort : s₂.short = s₁.short) (hfreed : Freed d s₂ s') : s'.free.Perm s.free := by
  have hb₂ := hb.grows hfilled.grows
  refine (List.perm_ext_iff_of_nodup hfreed.nodup hs.nodup).mpr fun f => ?_
  rw [hfreed.free f]
  constructor
  · rintro (hf | hn | ⟨va, hva, hp, rfl⟩)
    · exact hb₂.subset f hf
    · exact (hb₂.node f hn).1
    · have hlt : va < e := by
        by_contra hge
        rw [hfilled.other va (.inr (not_lt.mp hge))] at hp
        exact hnew va (Nat.zero_le _) hva hp
      obtain ⟨f, hf, hpte, -⟩ :=
        hfilled.fresh_of_present (fun x hl hh => hnew x hl (by omega)) (Nat.zero_le _) hlt hp
      rw [hpte, pteAddr_mkPte (flagsOf_lt va)]
      exact hb.subset f hf
  · intro hf
    rcases hall f hf with hf | hn
    · rcases hfilled.used hshort f hf with hf | ⟨i, hi⟩ | ⟨va, -, hva, hpte⟩
      · exact .inl hf
      · exact .inr (.inl (node_table hi))
      · refine .inr (.inr ⟨va, by omega, ?_, ?_⟩)
        · rw [hpte, present_mkPte]
        · rw [hpte, pteAddr_mkPte (flagsOf_lt va)]
    · exact .inr (.inl (hfilled.grows.node_of_node hn))

/-- **`copyuvm`**: a copy in pages that were free, or, unless a page table could not be allocated, the same free
pages as before. -/
theorem copyuvm_wp (h : Parent s pgdir sz) (hl : Layout s) :
    Wp (copyuvm pgdir sz) s E fun r s' => match r with
      | none => s'.kend = s.kend ∧ (s'.short = s.short → s'.free.Perm s.free)
      | some d => Built s s' d ∧ ∃ s₁, Built s s₁ d ∧ Unmapped s₁.mem d 0 kernbase ∧ s'.short = s₁.short ∧
          Filled (flagsOf s.mem pgdir) (pageOf s.mem pgdir) d 0 (pgRoundUp sz) s₁ s' := by
  have hend := pages_zero h.lt
  have htop := pgRoundUp_le_kernbase h.lt
  simp only [copyuvm, wp_bind]
  refine (setupkvm_wp h.space.pool hl).post fun r s₁ hr => ?_
  cases r with
  | none =>
      obtain ⟨hkend, hsame⟩ := hr
      refine wp_pure.mpr ⟨hkend, fun hshort => ?_⟩
      rw [hsame hshort]
  | some d =>
      obtain ⟨hb, hnew, hshort₁, hall⟩ := hr
      simp only [wp_bind]
      refine (copyLoop_wp hb.space (h.reads hb) (Nat.zero_mod _) (by rw [Nat.zero_add, hend]) htop
        (fun va _ hva => ?_) fun va hl hva => ?_).post ?_
      · rw [Nat.zero_add, hend] at hva
        exact (h.page hva).1
      · rw [Nat.zero_add, hend] at hva
        exact hnew va hl (by omega)
      · rintro ok s₂ ⟨e, -, he, hfilled, hok⟩
        rw [Nat.zero_add, hend] at he hok
        have hb₂ := hb.grows hfilled.grows
        cases ok with
        | true =>
            obtain ⟨rfl, hshort⟩ := hok rfl
            exact wp_pure.mpr ⟨hb₂, s₁, hb, hnew, hshort, hfilled⟩
        | false =>
            have howns : Owns s₂ d 0 kernbase := hfilled.owns flagsOf_lt hb.space (by omega) hnew
            have hrange : ∀ f, Node s₂.mem d f → s₂.kend ≤ f ∧ f < phystop := by
              intro f hf
              rw [hb₂.kend]
              exact h.space.range f (hb₂.node f hf).1
            simp only [Bool.false_eq_true, if_false, wp_bind]
            refine (freevm_wp hb₂.space howns hrange).post fun _ s' hfreed => ?_
            refine wp_pure.mpr ⟨hfreed.kend.trans hb₂.kend, fun hshort => ?_⟩
            have hs₂ : s₂.short = s₁.short := by rw [hshort₁, ← hshort, hfreed.short]
            exact hfreed.perm h.space.pool hb hnew hall (by omega) hfilled hs₂

/-- The directory `d` has the same pages as the parent's, with the same flags and contents, in pages that were
free; and the parent is as it was. -/
structure Copied (pgdir sz d : Nat) (s s' : Machine) : Prop where
  map : ∀ va < kernbase, present (pte s'.mem d va) = true ↔ va < pgRoundUp sz
  page : ∀ va < pgRoundUp sz, pteFlags (pte s'.mem d va) = pteFlags (pte s.mem pgdir va) ∧
    s'.mem (pteAddr (pte s'.mem d va)) = s.mem (pteAddr (pte s.mem pgdir va)) ∧
    pteAddr (pte s'.mem d va) ∈ s.free ∧ pteAddr (pte s'.mem d va) ∉ s'.free
  apart : ∀ va < pgRoundUp sz, ∀ va' < pgRoundUp sz,
    pteAddr (pte s'.mem d va) ≠ pteAddr (pte s.mem pgdir va') ∧
    (pteAddr (pte s'.mem d va) = pteAddr (pte s'.mem d va') → va / pgsize = va' / pgsize)
  dir : ∀ va, pte s'.mem pgdir va = pte s.mem pgdir va
  mem : ∀ f, f ∉ s.free → s'.mem f = s.mem f

theorem Parent.copied (h : Parent s pgdir sz) (hl : Layout s) (hrun : copyuvm pgdir sz s = .ok (some d, s')) :
    Copied pgdir sz d s s' := by
  have hwp : Wp (copyuvm pgdir sz) s (fun _ => False) _ := copyuvm_wp h hl
  obtain ⟨hb, s₁, hb₁, hnew, hshort, hfilled⟩ := hwp.of_eq_ok hrun
  have htop := pgRoundUp_le_kernbase h.lt
  have hall : ∀ va < pgRoundUp sz, present (pte s'.mem d va) = true :=
    fun va hva => hfilled.all hshort va (Nat.zero_le _) hva
  have hpage : ∀ va < pgRoundUp sz, ∃ f ∈ s.free, pte s'.mem d va = mkPte f (flagsOf s.mem pgdir va) ∧
      f ∉ s'.free ∧ s'.mem f = pageOf s.mem pgdir va := by
    intro va hva
    obtain ⟨f, hf, hpte, hused, -, hcont⟩ := hfilled.fresh_of_present
      (fun x hl hh => hnew x hl (by omega)) (Nat.zero_le _) hva (hall va hva)
    exact ⟨f, hb₁.subset f hf, hpte, hused, hcont⟩
  refine ⟨fun va hva => ⟨fun hp => ?_, hall va⟩, fun va hva => ?_, fun va hva va' hva' => ⟨?_, fun heq => ?_⟩,
    fun va => ?_, hb.mem⟩
  · by_contra hge
    rw [hfilled.other va (.inr (not_lt.mp hge))] at hp
    exact hnew va (Nat.zero_le _) hva hp
  · obtain ⟨f, hf, hpte, hused, hcont⟩ := hpage va hva
    rw [hpte, pteAddr_mkPte (flagsOf_lt va), pteFlags_mkPte (flagsOf_lt va)]
    refine ⟨?_, hcont, hf, hused⟩
    -- `PTE_P` is one of the flags
    have hp := (h.page hva).1
    have hodd : flagsOf s.mem pgdir va ||| 1 = flagsOf s.mem pgdir va := by
      have hbit : (flagsOf s.mem pgdir va).testBit 0 = true := by
        rw [flagsOf, pteFlags, show 4096 = 2 ^ 12 from rfl, Nat.testBit_mod_two_pow]
        simpa [present] using hp
      refine Nat.eq_of_testBit_eq fun j => ?_
      rw [Nat.testBit_or]
      cases j with
      | zero => rw [hbit, Bool.true_or]
      | succ j =>
          have hone : (1 : Nat).testBit (j + 1) = false := by
            rw [Nat.testBit_succ]
            exact Nat.zero_testBit j
          rw [hone, Bool.or_false]
    exact hodd
  · obtain ⟨f, hf, hpte, -⟩ := hpage va hva
    rw [hpte, pteAddr_mkPte (flagsOf_lt va)]
    exact fun heq => (h.page hva').2 (heq ▸ hf)
  · exact hfilled.inj va va' (Nat.zero_le _) hva (Nat.zero_le _) hva' (hall va hva) (hall va' hva') heq
  · exact pte_congr fun f hf => hb.mem f fun hmem => h.space.apart f hmem hf

end Copy

theorem parent_oneEntry {free : List Nat} (hnodup : free.Nodup) (hfree : ∀ f ∈ free, 4 ≤ f ∧ f < phystop) :
    Parent (oneEntry 0 (mkPte 3 permWU) free) 1 4096 ∧ Layout (oneEntry 0 (mkPte 3 permWU) free) := by
  obtain ⟨himage, -⟩ := image_oneEntry free hnodup hfree
  have hround : pgRoundUp 4096 = 4096 := by decide
  refine ⟨⟨himage.space, himage.lt, fun va hva => ?_, fun va hva => ?_⟩, by simp [oneEntry], by
    simp [oneEntry, phystop]⟩
  · exact himage.mapped va (by omega)
  · exact himage.owns.used va (Nat.zero_le _) (by omega) (himage.mapped va (by omega))

end Xv6.Mmu
