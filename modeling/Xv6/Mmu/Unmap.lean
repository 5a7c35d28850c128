import Xv6.Mmu.Memory

/-!
# Mmu — unmapping

`deallocuvm` and `freevm`.  Where there is no page table the loop of `deallocuvm` goes on `NPTENTRIES`
pages further, from wherever it is: when it does not start at the first page of a page table, and there
is none, it passes over the first pages of the next table there is (`Skipped`).
-/

namespace Xv6.Mmu
open Lib Lib.Prog Vm

/-- `deallocuvm`'s loop, from `a` on. -/
def deallocLoop (pgdir oldsz a : Nat) : VmM Unit :=
  if a < oldsz then do
    let m ← gets Machine.mem
    match walkpgdir m pgdir a with
    | none => deallocLoop pgdir oldsz (a + 1023 * pgsize + pgsize)
    | some (t, i) =>
        if present (word m t i) then
          if pteAddr (word m t i) = 0 then stop .kfree
          else do
            kfree (pteAddr (word m t i))
            store t i 0
            deallocLoop pgdir oldsz (a + pgsize)
        else deallocLoop pgdir oldsz (a + pgsize)
  else pure ()
  termination_by oldsz - a
  decreasing_by
    all_goals
      simp only [pgsize]
      omega

/-- `deallocuvm`: the new size. -/
def deallocuvm (pgdir oldsz newsz : Nat) : VmM Nat :=
  if newsz ≥ oldsz then pure oldsz
  else do
    deallocLoop pgdir oldsz (pgRoundUp newsz)
    pure newsz

/-- The page table of entry `i` is freed. -/
def freeTable (pgdir i : Nat) : VmM Unit := do
  let w ← gets fun s => word s.mem pgdir i
  if present w then kfree (pteAddr w) else pure ()

def freevm (pgdir : Nat) : VmM Unit := do
  let _ ← deallocuvm pgdir kernbase 0
  forEach (List.range 1024) (freeTable pgdir)
  kfree pgdir

/-! ### Where the loop comes to -/

/-- The pages with a page table that the loop comes to from `a` on. -/
def visits (tab : Nat → Option Nat) (oldsz a : Nat) : List Nat :=
  if a < oldsz then
    if tab (pdx a) = none then visits tab oldsz (a + 1023 * pgsize + pgsize)
    else a :: visits tab oldsz (a + pgsize)
  else []
  termination_by oldsz - a
  decreasing_by
    all_goals
      simp only [pgsize]
      omega

/-- The loop from `a` on passes over page `x`: it jumps into the middle of the first page table there is. -/
def Skipped (tab : Nat → Option Nat) (a x : Nat) : Prop :=
  pdx a < pdx x ∧ ptx x < ptx a ∧ ∀ j, pdx a ≤ j → j < pdx x → tab j = none

section Visits
variable {tab : Nat → Option Nat} {oldsz a x : Nat}

theorem not_skipped_of_tab (h : tab (pdx a) ≠ none) : ¬ Skipped tab a x :=
  fun hs => h (hs.2.2 _ le_rfl hs.1)

theorem not_skipped_of_next (h : tab (pdx a) ≠ none) (ha : a % pgsize = 0) : ¬ Skipped tab (a + pgsize) x := by
  rintro ⟨hd, ht, hnone⟩
  by_cases hsame : pdx (a + pgsize) = pdx a
  · rw [hsame] at hnone hd
    exact h (hnone _ le_rfl hd)
  · simp only [pdx, ptx, pgsize] at *
    omega

theorem mem_visits (ha : a % pgsize = 0) : x ∈ visits tab oldsz a ↔
    x % pgsize = 0 ∧ a ≤ x ∧ x < oldsz ∧ tab (pdx x) ≠ none ∧ ¬ Skipped tab a x := by
  fun_induction visits tab oldsz a with
  | case1 a hlt hnone ih =>
      have hskip : (a + 1023 * pgsize + pgsize) % pgsize = 0 := by
        simp only [pgsize] at *
        omega
      have hd : pdx (a + 1023 * pgsize + pgsize) = pdx a + 1 := by
        simp only [pdx, pgsize]
        omega
      have ht : ptx (a + 1023 * pgsize + pgsize) = ptx a := by
        simp only [ptx, pgsize]
        omega
      rw [ih hskip]
      simp only [Skipped, hd, ht]
      constructor
      · rintro ⟨hx, hle, hlt', htab, hns⟩
        refine ⟨hx, by omega, hlt', htab, fun hs => hns ⟨?_, hs.2.1, fun j hj => hs.2.2 j (by omega)⟩⟩
        simp only [pdx, ptx, pgsize] at *
        omega
      · rintro ⟨hx, hle, hlt', htab, hns⟩
        -- in the region of `a` there is no page table, and in the next one the first pages are passed over
        have hge : a + 1023 * pgsize + pgsize ≤ x := by
          by_contra hfar
          by_cases hreg : pdx x = pdx a
          · rw [hreg] at htab
            exact htab hnone
          · refine hns ⟨?_, ?_, fun j hj hjx => ?_⟩
            · simp only [pdx, pgsize] at *
              omega
            · simp only [pdx, ptx, pgsize] at *
              omega
            · obtain rfl : j = pdx a := by
                simp only [pdx, pgsize] at *
                omega
              exact hnone
        refine ⟨hx, hge, hlt', htab, fun hs => hns ⟨by omega, hs.2.1, fun j hj hjx => ?_⟩⟩
        rcases Nat.eq_or_lt_of_le hj with rfl | hj
        · exact hnone
        · exact hs.2.2 j hj hjx
  | case2 a hlt hsome ih =>
      have hnext : (a + pgsize) % pgsize = 0 := by rw [Nat.add_mod_right, ha]
      rw [List.mem_cons, ih hnext]
      constructor
      · rintro (rfl | ⟨hx, hle, hlt', htab, -⟩)
        · exact ⟨ha, le_rfl, hlt, hsome, not_skipped_of_tab hsome⟩
        · exact ⟨hx, by omega, hlt', htab, not_skipped_of_tab hsome⟩
      · rintro ⟨hx, hle, hlt', htab, -⟩
        rcases Nat.eq_or_lt_of_le hle with rfl | hgt
        · exact .inl rfl
        · refine .inr ⟨hx, ?_, hlt', htab, not_skipped_of_next hsome ha⟩
          simp only [pgsize] at *
          omega
  | case3 a hge =>
      refine ⟨(by rintro ⟨⟩), fun hx => ?_⟩
      omega

end Visits

/-! ### Clearing -/

/-- The pages mapped in `[a, b)` are pages of their own: from `kalloc`, in use, not of the directory, and
mapped once. -/
structure Owns (s : Machine) (pgdir a b : Nat) : Prop where
  range : ∀ va, a ≤ va → va < b → present (pte s.mem pgdir va) = true →
    s.kend ≤ pteAddr (pte s.mem pgdir va) ∧ pteAddr (pte s.mem pgdir va) < phystop
  used : ∀ va, a ≤ va → va < b → present (pte s.mem pgdir va) = true → pteAddr (pte s.mem pgdir va) ∉ s.free
  node : ∀ va, a ≤ va → va < b → present (pte s.mem pgdir va) = true →
    ¬ Node s.mem pgdir (pteAddr (pte s.mem pgdir va))
  inj : ∀ va va', a ≤ va → va < b → a ≤ va' → va' < b → present (pte s.mem pgdir va) = true →
    present (pte s.mem pgdir va') = true →
    pteAddr (pte s.mem pgdir va) = pteAddr (pte s.mem pgdir va') → va / pgsize = va' / pgsize

/-- The pages mapped at these addresses. -/
def frames (m : Memory) (pgdir : Nat) (vs : List Nat) : List Nat :=
  vs.filterMap fun x => if present (pte m pgdir x) then some (pteAddr (pte m pgdir x)) else none

/-- The entries of the pages `vs` are cleared, and what was mapped there is free. -/
structure Unmaps (pgdir : Nat) (vs : List Nat) (s s' : Machine) : Prop where
  pte : ∀ va, pte s'.mem pgdir va =
    if present (pte s.mem pgdir va) = true ∧ va / pgsize * pgsize ∈ vs then 0 else pte s.mem pgdir va
  free : s'.free = (frames s.mem pgdir vs).reverse ++ s.free
  mem : ∀ f, f ∉ frames s.mem pgdir vs → ¬ Node s.mem pgdir f → s'.mem f = s.mem f
  table : table s'.mem pgdir = table s.mem pgdir
  short : s'.short = s.short
  kend : s'.kend = s.kend
  kdata : s'.kdata = s.kdata

section Clear
variable {pgdir a b oldsz : Nat} {s s' : Machine} {vs : List Nat}

theorem mem_frames {f : Nat} {m : Memory} : f ∈ frames m pgdir vs ↔
    ∃ x ∈ vs, present (pte m pgdir x) = true ∧ pteAddr (pte m pgdir x) = f := by
  simp only [frames, List.mem_filterMap, Option.ite_none_right_eq_some, Option.some.injEq]

theorem Owns.mono {a' b' : Nat} (h : Owns s pgdir a b) (ha : a ≤ a') (hb : b' ≤ b) : Owns s pgdir a' b' where
  range va hl hh := h.range va (by omega) (by omega)
  used va hl hh := h.used va (by omega) (by omega)
  node va hl hh := h.node va (by omega) (by omega)
  inj va va' hl hh hl' hh' := h.inj va va' (by omega) (by omega) (by omega) (by omega)

/-- The directory is another one only in its entries. -/
theorem node_congr {m m' : Memory} {f : Nat} (h : table m' pgdir = table m pgdir) :
    Node m' pgdir f ↔ Node m pgdir f := by
  simp only [Node, h]

/-- `pte` is the same for all addresses of a page. -/
theorem pte_page {m : Memory} (va : Nat) : pte m pgdir (va / pgsize * pgsize) = pte m pgdir va := by
  have hd : pdx (va / pgsize * pgsize) = pdx va := by
    simp only [pdx, pgsize]
    omega
  have ht : ptx (va / pgsize * pgsize) = ptx va := by
    simp only [ptx, pgsize]
    omega
  simp only [pte, hd, ht]

theorem kfree_wp {f : Nat} {E : Panic → Prop} (hlow : s.kend ≤ f) (hhigh : f < phystop) :
    Wp (kfree f) s E fun _ s' =>
      s' = { s with mem := Function.update s.mem f fun _ => 1, free := f :: s.free } := by
  simp only [kfree, setPage, wp_bind, wp_gets, id]
  rw [if_neg (by omega)]
  simp only [wp_bind, wp_modify]

/-- One page, and the pages of the loop behind it. -/
theorem Unmaps.cons {f t : Nat} {s₁ : Machine} (h : Space s pgdir) (ho : Owns s pgdir a oldsz) (hlt : a < oldsz)
    (ha : a % pgsize = 0) (ht : Mmu.table s.mem pgdir (pdx a) = some t)
    (hp : present (Mmu.pte s.mem pgdir a) = true) (hf : f = pteAddr (Mmu.pte s.mem pgdir a))
    (hs₁ : s₁ = { s with
      mem := setWord (Function.update s.mem f fun _ => 1) t (ptx a) 0, free := f :: s.free }) :
    Space s₁ pgdir ∧ Owns s₁ pgdir (a + pgsize) oldsz ∧ (∀ s' vs, (∀ x ∈ vs, a + pgsize ≤ x ∧ x % pgsize = 0) →
      Unmaps pgdir vs s₁ s' → Unmaps pgdir (a :: vs) s s') := by
  have hfn : ¬ Node s.mem pgdir f := hf ▸ ho.node a le_rfl hlt hp
  have hfu : f ∉ s.free := hf ▸ ho.used a le_rfl hlt hp
  have hfr : s.kend ≤ f ∧ f < phystop := hf ▸ ho.range a le_rfl hlt hp
  -- the page is not of the directory, so that only its entry changes there
  have hkeep : ∀ g, Node s.mem pgdir g → Function.update s.mem f (fun _ => 1) g = s.mem g :=
    fun g hg => Function.update_of_ne (fun heq : g = f => hfn (heq ▸ hg)) _ _
  have htree : Tree (Function.update s.mem f fun _ => 1) pgdir := h.tree.congr (hkeep _ node_self)
  have ht' : Mmu.table (Function.update s.mem f fun _ => 1) pgdir (pdx a) = some t := by
    rw [table_congr (hkeep _ node_self), ht]
  have htable : Mmu.table s₁.mem pgdir = Mmu.table s.mem pgdir := by
    rw [hs₁]
    refine (table_setWord htree ht').trans ?_
    funext i
    exact table_congr (hkeep _ node_self)
  have hpte : ∀ va, Mmu.pte s₁.mem pgdir va =
      if a ≤ va ∧ va < a + pgsize then 0 else Mmu.pte s.mem pgdir va := by
    intro va
    rw [hs₁]
    refine (pte_setWord htree ht' (by decide)).trans ?_
    simp only [samePage_iff ha, pte_congr hkeep]
  have hlater : ∀ va, a + pgsize ≤ va → Mmu.pte s₁.mem pgdir va = Mmu.pte s.mem pgdir va := by
    intro va hva
    rw [hpte va, if_neg (by omega)]
  have hfree₁ : s₁.free = f :: s.free := by rw [hs₁]
  have hkend₁ : s₁.kend = s.kend := by rw [hs₁]
  refine ⟨⟨?_, ?_, ?_, ?_, ?_⟩, ⟨?_, ?_, ?_, ?_⟩, ?_⟩
  · rw [hs₁]
    exact htree.congr (setWord_of_ne (htree.ne _ _ ht').symm)
  · rw [hfree₁]
    exact List.nodup_cons.mpr ⟨hfu, h.nodup⟩
  · rw [hfree₁, hkend₁]
    intro g hg
    rcases List.mem_cons.mp hg with rfl | hg
    · exact hfr
    · exact h.range g hg
  · rw [hfree₁]
    intro g hg
    rw [node_congr htable]
    rcases List.mem_cons.mp hg with rfl | hg
    · exact hfn
    · exact h.apart g hg
  · rw [hkend₁]
    exact h.kend
  · intro va hl hh
    rw [hlater va hl, hkend₁]
    exact ho.range va (by omega) hh
  · intro va hl hh
    rw [hlater va hl, hfree₁]
    intro hpres hmem
    rcases List.mem_cons.mp hmem with heq | hmem
    · have hpage := ho.inj va a (by omega) hh le_rfl hlt hpres hp (heq.trans hf)
      simp only [pgsize] at *
      omega
    · exact ho.used va (by omega) hh hpres hmem
  · intro va hl hh
    rw [hlater va hl, node_congr htable]
    exact ho.node va (by omega) hh
  · intro va va' hl hh hl' hh'
    rw [hlater va hl, hlater va' hl']
    exact ho.inj va va' (by omega) hh (by omega) hh'
  · intro s' vs hvs hu
    have hframes : frames s₁.mem pgdir vs = frames s.mem pgdir vs := by
      refine List.filterMap_congr fun x hx => ?_
      rw [hlater x (hvs x hx).1]
    have hcons : frames s.mem pgdir (a :: vs) = f :: frames s.mem pgdir vs := by
      rw [frames, List.filterMap_cons, if_pos hp, ← hf]
      rfl
    refine ⟨fun va => ?_, ?_, fun g hg hn => ?_, hu.table.trans htable, ?_, hu.kend.trans hkend₁, ?_⟩
    · rw [hu.pte va, hpte va]
      by_cases hpage : a ≤ va ∧ va < a + pgsize
      · have hva : va / pgsize * pgsize = a := by
          simp only [pgsize] at *
          omega
        have hsame : Mmu.pte s.mem pgdir va = Mmu.pte s.mem pgdir a := by rw [← pte_page va, hva]
        rw [if_pos hpage, hva, if_neg (by simp), hsame, if_pos ⟨hp, List.mem_cons_self⟩]
      · have hva : va / pgsize * pgsize ≠ a := by
          simp only [pgsize] at *
          omega
        rw [if_neg hpage]
        simp only [List.mem_cons, hva, false_or]
    · rw [hu.free, hframes, hfree₁, hcons, List.reverse_cons, List.append_assoc]
      rfl
    · rw [hcons, List.mem_cons, not_or] at hg
      rw [hu.mem g (by rw [hframes]; exact hg.2) (by rw [node_congr htable]; exact hn), hs₁]
      refine (setWord_of_ne fun heq : g = t => hn (heq ▸ node_table ht)).trans ?_
      exact Function.update_of_ne hg.1 _ _
    · rw [hu.short, hs₁]
    · rw [hu.kdata, hs₁]

theorem visits_ge {tab : Nat → Option Nat} {x : Nat} (ha : a % pgsize = 0) (hx : x ∈ visits tab oldsz a) :
    a ≤ x ∧ x % pgsize = 0 := by
  rw [mem_visits ha] at hx
  exact ⟨hx.2.1, hx.1⟩

/-- A page without a present entry. -/
theorem Unmaps.skip (hu : Unmaps pgdir vs s s') (hp : ¬ present (Mmu.pte s.mem pgdir a) = true) :
    Unmaps pgdir (a :: vs) s s' := by
  have hframes : frames s.mem pgdir (a :: vs) = frames s.mem pgdir vs := by
    rw [frames, List.filterMap_cons, if_neg hp]
    rfl
  refine ⟨fun va => ?_, by rw [hframes]; exact hu.free, by rw [hframes]; exact hu.mem, hu.table, hu.short,
    hu.kend, hu.kdata⟩
  rw [hu.pte va]
  by_cases hva : va / pgsize * pgsize = a
  · have hsame : Mmu.pte s.mem pgdir va = Mmu.pte s.mem pgdir a := by rw [← pte_page va, hva]
    rw [if_neg fun hc => hp (hsame ▸ hc.1), if_neg fun hc => hp (hsame ▸ hc.1)]
  · simp only [List.mem_cons, hva, false_or]

/-- **`deallocuvm`'s loop** clears the pages it comes to. -/
theorem deallocLoop_wp {E : Panic → Prop} (h : Space s pgdir) (ho : Owns s pgdir a oldsz) (ha : a % pgsize = 0) :
    Wp (deallocLoop pgdir oldsz a) s E fun _ s' => Space s' pgdir ∧
      Unmaps pgdir (visits (table s.mem pgdir) oldsz a) s s' := by
  induction hk : oldsz - a using Nat.strong_induction_on generalizing a s with
  | _ k ih =>
  subst hk
  have hpg : pgsize = 4096 := rfl
  rw [deallocLoop, visits]
  by_cases hlt : a < oldsz
  · rw [if_pos hlt, if_pos hlt]
    simp only [wp_bind, wp_gets]
    cases ht : table s.mem pgdir (pdx a) with
    | none =>
        rw [if_pos rfl]
        simp only [walkpgdir_none ht]
        exact ih _ (by omega) h (ho.mono (by omega) le_rfl) (by simp only [pgsize] at *; omega) rfl
    | some t =>
        rw [if_neg (by rintro ⟨⟩)]
        simp only [walkpgdir_some ht, ← pte_some ht]
        have hnext : (a + pgsize) % pgsize = 0 := by rw [Nat.add_mod_right, ha]
        by_cases hp : present (pte s.mem pgdir a) = true
        · obtain ⟨hlow, hhigh⟩ := ho.range a le_rfl hlt hp
          have hpos := h.kend
          rw [if_pos hp, if_neg (by omega)]
          refine (kfree_wp hlow hhigh).bind fun _ s₀ hs₀ => ?_
          subst hs₀
          simp only [store, wp_bind, wp_modify]
          obtain ⟨hspace, howns, hcons⟩ := Unmaps.cons h ho hlt ha ht hp rfl rfl
          refine (ih _ (by omega) hspace howns hnext rfl).post fun _ s' hs' => ⟨hs'.1, ?_⟩
          have htable : table (setWord (Function.update s.mem (pteAddr (pte s.mem pgdir a)) fun _ => 1) t (ptx a) 0)
              pgdir = table s.mem pgdir :=
            (hcons _ [] (by rintro _ ⟨⟩) ⟨fun va => by simp, rfl, fun _ _ _ => rfl, rfl, rfl, rfl, rfl⟩).table
          rw [← htable]
          exact hcons s' _ (fun x hx => visits_ge hnext hx) hs'.2
        · rw [if_neg hp]
          exact (ih _ (by omega) h (ho.mono (by omega) le_rfl) hnext rfl).post fun _ s' hs' =>
            ⟨hs'.1, hs'.2.skip hp⟩
  · rw [if_neg hlt, if_neg hlt]
    exact wp_pure.mpr ⟨h, fun va => by simp, rfl, fun _ _ _ => rfl, rfl, rfl, rfl, rfl⟩

theorem deallocuvm_wp {newsz : Nat} {E : Panic → Prop} (h : Space s pgdir)
    (ho : Owns s pgdir (pgRoundUp newsz) oldsz) (hlt : newsz < oldsz) :
    Wp (deallocuvm pgdir oldsz newsz) s E fun r s' => r = newsz ∧ Space s' pgdir ∧
      Unmaps pgdir (visits (table s.mem pgdir) oldsz (pgRoundUp newsz)) s s' := by
  rw [deallocuvm, if_neg (by omega)]
  refine (deallocLoop_wp h ho (pgRoundUp_mod newsz)).bind fun _ s' hs' => ?_
  exact wp_pure.mpr ⟨rfl, hs'⟩

/-- The pages with a present entry that the loop comes to, in terms of any of their addresses. -/
theorem mem_visits_page {m : Memory} {va : Nat} (ha : a % pgsize = 0) (hp : present (pte m pgdir va) = true) :
    va / pgsize * pgsize ∈ visits (table m pgdir) oldsz a ↔
      a ≤ va ∧ va / pgsize * pgsize < oldsz ∧ ¬ Skipped (table m pgdir) a va := by
  obtain ⟨t, ht⟩ := table_of_present hp
  have hd : pdx (va / pgsize * pgsize) = pdx va := by
    simp only [pdx, pgsize]
    omega
  have hx : ptx (va / pgsize * pgsize) = ptx va := by
    simp only [ptx, pgsize]
    omega
  have hle : a ≤ va / pgsize * pgsize ↔ a ≤ va := by
    simp only [pgsize] at *
    omega
  rw [mem_visits ha]
  simp only [Skipped, hd, hx, hle, ht, Nat.mul_mod_left, ne_eq, reduceCtorEq, not_false_eq_true, true_and]

end Clear

/-! ### A machine with one entry -/

/-- One page table, page 2, in the directory 1, and in it one entry, for `va`. -/
def oneEntry (va w : Nat) (free : List Nat) : Machine where
  mem := setWord (addTable (fun _ => zeroPage) 1 va 2) 2 (ptx va) w
  free := free
  deny := []
  short := 0
  kend := 1
  kdata := 300

section OneEntry
variable {va va' w i : Nat} {free : List Nat}

theorem table_zero : table (fun _ => zeroPage) 1 i = none := by
  have hword : word (fun _ => zeroPage) 1 i = 0 := word_zeroPage rfl
  rw [table, hword, if_neg (by decide)]

theorem tree_zero : Tree (fun _ => zeroPage) 1 where
  inj i j f hi _ := by
    rw [table_zero] at hi
    cases hi
  ne i f hi := by
    rw [table_zero] at hi
    cases hi

theorem not_node_zero : ¬ Node (fun _ => zeroPage) 1 2 := by
  rintro (h | ⟨i, hi⟩)
  · cases h
  · rw [table_zero] at hi
    cases hi

theorem tree_one (hva : va < 2 ^ 32) : Tree (addTable (fun _ => zeroPage) 1 va 2) 1 :=
  tree_zero.addTable (pdx_lt hva) not_node_zero (by decide)

theorem table_one (hva : va < 2 ^ 32) : table (addTable (fun _ => zeroPage) 1 va 2) 1 i =
    if i = pdx va then some 2 else none := by
  rw [table_addTable (pdx_lt hva) (by decide) (by decide), table_zero]

theorem table_oneEntry (hva : va < 2 ^ 32) :
    table (oneEntry va w free).mem 1 i = if i = pdx va then some 2 else none := by
  rw [oneEntry, table_setWord (tree_one hva) ((table_one hva).trans (if_pos rfl)), table_one hva]

theorem pte_oneEntry (hva : va < 2 ^ 32) (hw : w < 2 ^ 32) : pte (oneEntry va w free).mem 1 va' =
    if pdx va' = pdx va ∧ ptx va' = ptx va then w else 0 := by
  rw [oneEntry, pte_setWord (tree_one hva) ((table_one hva).trans (if_pos rfl)) hw,
    pte_addTable tree_zero (pdx_lt hva) table_zero not_node_zero (by decide), pte_none table_zero]

theorem node_oneEntry (hva : va < 2 ^ 32) {f : Nat} (hf : 3 ≤ f) : ¬ Node (oneEntry va w free).mem 1 f := by
  rintro (h | ⟨i, hi⟩)
  · omega
  · rw [table_oneEntry hva] at hi
    split at hi
    · cases hi
      omega
    · cases hi

theorem space_oneEntry (hva : va < 2 ^ 32) (hnodup : free.Nodup) (hfree : ∀ f ∈ free, 3 ≤ f ∧ f < phystop) :
    Space (oneEntry va w free) 1 where
  tree := by
    have hdir : (oneEntry va w free).mem 1 = addTable (fun _ => zeroPage) 1 va 2 1 := by
      simp only [oneEntry]
      rw [setWord_of_ne (by decide : (1 : Nat) ≠ 2)]
    exact (tree_one hva).congr hdir
  nodup := hnodup
  range f hf := ⟨by have := (hfree f hf).1; simp only [oneEntry]; omega, (hfree f hf).2⟩
  apart f hf := node_oneEntry hva (hfree f hf).1
  kend := Nat.one_pos

/-- The one page that is mapped, page 3, is a page of its own. -/
theorem owns_oneEntry {a b perm : Nat} (hva : va < 2 ^ 32) (hperm : perm < 4096) (h3 : 3 ∉ free) :
    Owns (oneEntry va (mkPte 3 perm) free) 1 a b := by
  have hw : mkPte 3 perm < 2 ^ 32 := mkPte_lt (by decide) hperm
  have hpte : ∀ x, present (pte (oneEntry va (mkPte 3 perm) free).mem 1 x) = true →
      (pdx x = pdx va ∧ ptx x = ptx va) ∧ pteAddr (pte (oneEntry va (mkPte 3 perm) free).mem 1 x) = 3 := by
    intro x hx
    rw [pte_oneEntry hva hw] at hx ⊢
    split at hx
    · rename_i hpage
      rw [if_pos hpage, pteAddr_mkPte hperm]
      exact ⟨hpage, rfl⟩
    · cases hx
  refine ⟨fun x _ _ hx => ?_, fun x _ _ hx => ?_, fun x _ _ hx => ?_, fun x y _ _ _ _ hx hy _ => ?_⟩
  · rw [(hpte x hx).2]
    exact ⟨by simp [oneEntry], by decide⟩
  · rw [(hpte x hx).2]
    exact h3
  · rw [(hpte x hx).2]
    exact node_oneEntry hva le_rfl
  · obtain ⟨⟨hd, ht⟩, -⟩ := hpte x hx
    obtain ⟨⟨hd', ht'⟩, -⟩ := hpte y hy
    simp only [pdx, ptx, pgsize] at *
    omega

end OneEntry

end Xv6.Mmu
