import Xv6.Mmu.Args

/-!
# Mmu — `exec`

`exec` on the bytes of memory, from `setupkvm` to the new image: the loop over the program headers with `allocuvm` and
`loaduvm`, the two pages for the stack, and the arguments.  What is left out are the checks of the ELF header, which
can only fail, and what comes after the image is complete: the name, the switch to the new directory and `freevm` of
the old one.

`Loaded` is what the loading of a program keeps: the pages of the image are neither free nor of its directory.  It is
kept as long as `loaduvm` stores below `KERNBASE`, and then `exec` delivers its arguments (`exec_delivers`).
`loaduvm` does not check that: a segment whose end wraps around can lie in the kernel's part, and store into the
directory itself.
-/

namespace Xv6.Mmu
open Lib Lib.Prog Vm

/-- A program header of type `ELF_PROG_LOAD`, with the file from its `off` on. -/
structure Segment where
  vaddr : Nat
  memsz : Nat
  filesz : Nat
  data : List UInt8

/-- A round of `loaduvm`: what `readi` has read goes to the page of `va`, whatever its entry says. -/
def loadPage (pgdir va : Nat) (bytes : List UInt8) : VmM Unit := do
  let m ← gets Machine.mem
  match walkpgdir m pgdir va with
  | none => stop .shouldExist
  | some (t, i) => setPage (pteAddr (word m t i)) ((m (pteAddr (word m t i))).splice 0 bytes)

/-- `loaduvm`'s loop, for this many pages more. -/
def loadLoop (pgdir : Nat) : (n va sz : Nat) → (data : List UInt8) → VmM Bool
  | 0, _, _, _ => pure true
  | n + 1, va, sz, data => do
      loadPage pgdir va (data.take (min sz pgsize))
      -- `readi` gives less at the end of the file
      if (data.take (min sz pgsize)).length = min sz pgsize then
        loadLoop pgdir n (u32 (va + pgsize)) (sz - pgsize) (data.drop pgsize)
      else pure false

/-- `loaduvm`; `false` for `-1`. -/
def loaduvm (pgdir addr sz : Nat) (data : List UInt8) : VmM Bool :=
  if addr % pgsize ≠ 0 then stop .unaligned else loadLoop pgdir (pages 0 sz) addr sz data

/-- A round of the loop over the program headers: the new size. -/
def loadSegment (pgdir sz : Nat) (ph : Segment) : VmM (Option Nat) :=
  if ph.memsz < ph.filesz then pure none
  else do
    let sz ← allocuvm pgdir sz (u32 (ph.vaddr + ph.memsz))
    if sz = 0 then pure none
    else do
      let ok ← loaduvm pgdir ph.vaddr ph.filesz ph.data
      if ok then pure (some sz) else pure none

/-- The loop over the program headers. -/
def loadAll (pgdir : Nat) : (sz : Nat) → List Segment → VmM (Option Nat)
  | sz, [] => pure (some sz)
  | sz, ph :: phs => do
      let r ← loadSegment pgdir sz ph
      match r with
      | none => pure none
      | some sz => loadAll pgdir sz phs

/-- `*pte &= ~PTE_U`. -/
def clearU (w : Nat) : Nat := w &&& 0xFFFFFFFB

def clearpteu (pgdir uva : Nat) : VmM Unit := do
  let m ← gets Machine.mem
  match walkpgdir m pgdir uva with
  | none => stop .clearpteu
  | some (t, i) => store t i (clearU (word m t i))

/-- The two pages for the stack, and the arguments: the new size, and `tf->esp`. -/
def execStack (pgdir sz : Nat) (argv : List (List UInt8)) : VmM (Option (Nat × Nat)) := do
  let sz ← allocuvm pgdir (pgRoundUp sz) (u32 (pgRoundUp sz + 2 * pgsize))
  if sz = 0 then pure none
  else do
    clearpteu pgdir (sz - 2 * pgsize)
    let r ← pushStack pgdir sz argv
    match r with
    | none => pure none
    | some esp => pure (some (sz, esp))

/-- `exec` with the directory that `setupkvm` has made. -/
def execImage (pgdir : Nat) (phs : List Segment) (argv : List (List UInt8)) : VmM (Option (Nat × Nat)) := do
  let r ← loadAll pgdir 0 phs
  match r with
  | none => pure none
  | some sz => execStack pgdir sz argv

/-- `exec`: the new directory, size and `tf->esp`; `none` for `-1`. -/
def exec (phs : List Segment) (argv : List (List UInt8)) : VmM (Option (Nat × Nat × Nat)) := do
  let d ← setupkvm
  match d with
  | none => pure none
  | some pgdir => do
      let r ← execImage pgdir phs argv
      match r with
      | none => do
          freevm pgdir
          pure none
      | some (sz, esp) => pure (some (pgdir, sz, esp))

/-! ### The kernel's part -/

section Kernel
variable {pgdir : Nat} {s : Machine}

/-- `setupkvm` maps nothing for user code, and nothing below `KERNBASE`. -/
theorem mapAll_closed {ks : List Kmap} (h : Space s pgdir) (hok : ∀ k ∈ ks, ∃ n, k.Ok n)
    (hlo : ∀ k ∈ ks, kernbase ≤ k.virt) (hperm : ∀ k ∈ ks, k.perm.testBit 2 = false) :
    Wp (mapAll pgdir ks) s (fun _ => True) fun _ s' =>
      (∀ va < kernbase, pte s'.mem pgdir va = pte s.mem pgdir va) ∧
        ∀ va, user (pte s'.mem pgdir va) = true → user (pte s.mem pgdir va) = true := by
  induction ks generalizing s with
  | nil => exact wp_pure.mpr ⟨fun _ _ => rfl, fun _ h => h⟩
  | cons k ks ih =>
      obtain ⟨n, hk⟩ := hok k List.mem_cons_self
      have hle := hlo k List.mem_cons_self
      have hu := hperm k List.mem_cons_self
      rw [mapAll, List.foldr_cons, hk.size, mappages_pages hk.virt hk.pos hk.top]
      refine (mapLoop_wp h hk.virt hk.top hk.perm hk.phys).seq (fun _ _ => trivial) ?_
      rintro r s₁ ⟨hgrows, -, j, hmaps, -, -⟩
      have hlow : ∀ va < kernbase, pte s₁.mem pgdir va = pte s.mem pgdir va := by
        intro va hva
        rw [hmaps va, if_neg (by omega)]
      have huser : ∀ va, user (pte s₁.mem pgdir va) = true → user (pte s.mem pgdir va) = true := by
        intro va hva
        rw [hmaps va] at hva
        split at hva
        · rw [user_mkPte, hu] at hva
          cases hva
        · exact hva
      cases r with
      | false => exact wp_pure.mpr ⟨hlow, huser⟩
      | true =>
          refine (ih (hgrows.space h) (fun k' hk' => hok k' (List.mem_cons_of_mem _ hk'))
            (fun k' hk' => hlo k' (List.mem_cons_of_mem _ hk'))
            fun k' hk' => hperm k' (List.mem_cons_of_mem _ hk')).post ?_
          rintro r s' ⟨hlow', huser'⟩
          exact ⟨fun va hva => (hlow' va hva).trans (hlow va hva), fun va hva => huser va (huser' va hva)⟩

theorem kmap_perm {kdata : Nat} : ∀ k ∈ kmap kdata, k.perm.testBit 2 = false := by
  have hnone : Nat.testBit 0 2 = false := by decide
  have hwrite : permW.testBit 2 = false := by decide
  intro k hk
  simp only [kmap, List.mem_cons, List.not_mem_nil, or_false] at hk
  rcases hk with rfl | rfl | rfl | rfl
  · exact hwrite
  · exact hnone
  · exact hwrite
  · exact hwrite

theorem setupkvm_closed (h : Pool s) (hl : Layout s) :
    Wp setupkvm s (fun _ => True) fun r s' => match r with
      | none => True
      | some d => (∀ va < kernbase, pte s'.mem d va = 0) ∧ ∀ va, user (pte s'.mem d va) = false := by
  simp only [setupkvm, wp_bind]
  refine kalloc_wp.post fun r s₀ hr => ?_
  cases r with
  | none => exact wp_pure.mpr trivial
  | some d =>
      obtain ⟨hfree, hs₀⟩ := hr
      simp only [setPage, wp_bind, wp_modify, wp_gets]
      obtain ⟨hspace, htable⟩ := h.fresh hfree (by rw [hs₀])
      have hzero : ∀ va, pte (Function.update s₀.mem d zeroPage) d va = 0 := fun va => pte_none (htable _)
      have hdata : s₀.kdata = s.kdata := by rw [hs₀]
      obtain ⟨hok, hlo, -⟩ := kmap_ok (hdata ▸ hl.1) (hdata ▸ hl.2)
      refine (mapAll_closed hspace hok hlo kmap_perm).post ?_
      rintro r s' ⟨hlow, huser⟩
      cases r with
      | false => exact wp_pure.mpr trivial
      | true =>
          refine wp_pure.mpr ⟨fun va hva => (hlow va hva).trans (hzero va), fun va => ?_⟩
          by_contra hne
          have hu := huser va (Bool.not_eq_false _ ▸ hne)
          rw [show pte _ d va = 0 from hzero va] at hu
          cases hu

end Kernel

/-! ### Loading -/

/-- What the loading of a program keeps: the pages of the image are neither free nor of the directory, and behind
them nothing is mapped.  The entries of other pages are 0. -/
structure Loaded (s : Machine) (pgdir sz : Nat) : Prop where
  space : Space s pgdir
  lt : sz < kernbase
  pages : ∀ va < kernbase, present (pte s.mem pgdir va) = true →
    pteAddr (pte s.mem pgdir va) ∉ s.free ∧ ¬ Node s.mem pgdir (pteAddr (pte s.mem pgdir va))
  absent : ∀ va < kernbase, ¬ present (pte s.mem pgdir va) = true → pteAddr (pte s.mem pgdir va) = 0
  zero : ¬ Node s.mem pgdir 0
  top : Unmapped s.mem pgdir (pgRoundUp sz) kernbase
  kernel : ∀ va, kernbase ≤ va → user (pte s.mem pgdir va) = false

section Load
variable {pgdir sz newsz va n : Nat} {s s' : Machine} {E : Panic → Prop} {data : List UInt8} {ph : Segment}
  {phs : List Segment} {argv : List (List UInt8)}

theorem Space.zero_notMem (h : Space s pgdir) : 0 ∉ s.free := by
  intro hmem
  have := (h.range 0 hmem).1
  have := h.kend
  omega

/-- A page is filled that is neither free nor of the directory. -/
theorem Loaded.store {f : Nat} {page : Page} (h : Loaded s pgdir sz) (hfree : f ∉ s.free)
    (hn : ¬ Node s.mem pgdir f) : Loaded { s with mem := Function.update s.mem f page } pgdir sz := by
  have hnode : ∀ g, Node s.mem pgdir g → Function.update s.mem f page g = s.mem g := by
    intro g hg
    refine Function.update_of_ne ?_ _ _
    rintro rfl
    exact hn hg
  have hpte : ∀ va, pte (Function.update s.mem f page) pgdir va = pte s.mem pgdir va := fun va => pte_congr hnode
  have hdir := hnode pgdir node_self
  have hback : ∀ g, Node (Function.update s.mem f page) pgdir g → Node s.mem pgdir g := by
    rintro g (rfl | ⟨i, hi⟩)
    · exact node_self
    · exact node_table (by rw [← table_congr hdir]; exact hi)
  refine ⟨⟨h.space.tree.congr hdir, h.space.nodup, h.space.range, fun g hg hng => ?_, h.space.kend⟩, h.lt,
    fun va hva hp => ?_, fun va hva hp => ?_, fun h0 => h.zero (hback 0 h0), fun va hl hh => ?_, fun va hva => ?_⟩
  · exact h.space.apart g hg (hback g hng)
  · rw [hpte va] at hp ⊢
    obtain ⟨hused, hnot⟩ := h.pages va hva hp
    exact ⟨hused, fun hng => hnot (hback _ hng)⟩
  · rw [hpte va] at hp ⊢
    exact h.absent va hva hp
  · rw [hpte va]
    exact h.top va hl hh
  · rw [hpte va]
    exact h.kernel va hva

theorem loadPage_wp {bytes : List UInt8} (h : Loaded s pgdir sz) (hva : va < kernbase) :
    Wp (loadPage pgdir va bytes) s (fun _ => True) fun _ s' => Loaded s' pgdir sz := by
  simp only [loadPage, wp_bind, wp_gets]
  cases ht : table s.mem pgdir (pdx va) with
  | none =>
      rw [walkpgdir_none ht]
      exact wp_stop.mpr trivial
  | some t =>
      rw [walkpgdir_some ht]
      have hw : word s.mem t (ptx va) = pte s.mem pgdir va := (pte_some ht).symm
      simp only [hw, setPage, wp_modify]
      by_cases hp : present (pte s.mem pgdir va) = true
      · obtain ⟨hfree, hn⟩ := h.pages va hva hp
        exact h.store hfree hn
      · rw [h.absent va hva hp]
        exact h.store h.space.zero_notMem h.zero

theorem loadLoop_wp (h : Loaded s pgdir sz) (hva : n = 0 ∨ va + (n - 1) * pgsize < kernbase) {left : Nat} :
    Wp (loadLoop pgdir n va left data) s (fun _ => True) fun _ s' => Loaded s' pgdir sz := by
  induction n generalizing s va left data with
  | zero => exact wp_pure.mpr h
  | succ n ih =>
      have hlast : va + n * pgsize < kernbase := by
        rcases hva with hva | hva
        · omega
        · exact hva
      rw [loadLoop]
      refine (loadPage_wp h (by omega)).seq (fun _ _ => trivial) fun _ s₁ hs₁ => ?_
      split
      · refine ih hs₁ ?_
        cases n with
        | zero => exact .inl rfl
        | succ n =>
            right
            rw [Nat.succ_mul] at hlast
            have hkb : kernbase = 2 ^ 31 := by norm_num [kernbase]
            have hu : u32 (va + pgsize) = va + pgsize := Nat.mod_eq_of_lt (by omega)
            rw [hu, Nat.add_sub_cancel]
            omega
      · exact wp_pure.mpr hs₁

theorem loaduvm_wp (h : Loaded s pgdir sz) {addr size : Nat} (hlow : addr + size ≤ kernbase) :
    Wp (loaduvm pgdir addr size data) s (fun _ => True) fun _ s' => Loaded s' pgdir sz := by
  rw [loaduvm]
  split
  · exact wp_stop.mpr trivial
  · refine loadLoop_wp h ?_
    simp only [Mmu.pages, pgsize]
    omega

/-- `allocuvm` has added its pages. -/
theorem Loaded.alloc (h : Loaded s pgdir sz) (hs' : Space s' pgdir) (hle : sz ≤ newsz) (hnew : newsz < kernbase)
    (hz : Zeroed pgdir (pgRoundUp sz) (pgRoundUp newsz) s s') : Loaded s' pgdir newsz := by
  have hup := pgRoundUp_le_kernbase hnew
  have hmono : pgRoundUp sz ≤ pgRoundUp newsz := by
    rw [pgRoundUp_eq h.lt, pgRoundUp_eq hnew]
    exact Nat.mul_le_mul_right _ (Nat.div_le_div_right (by omega))
  have habs : Unmapped s.mem pgdir (pgRoundUp sz) (pgRoundUp newsz) :=
    fun va hl hh => h.top va hl (by omega)
  have hold : ∀ va < kernbase, va < pgRoundUp sz ∨ pgRoundUp newsz ≤ va → pte s'.mem pgdir va = pte s.mem pgdir va :=
    fun va _ hva => hz.other va hva
  have hnode : ∀ f, f ∉ s.free → ¬ Node s.mem pgdir f → f ∉ s'.free ∧ ¬ Node s'.mem pgdir f :=
    fun f hf hn => ⟨fun hf' => hf (hz.grows.free_subset hf'), fun hn' => (hz.grows.node hn').elim hn hf⟩
  refine ⟨hs', hnew, fun va hva hp => ?_, fun va hva hp => ?_, (hnode 0 h.space.zero_notMem h.zero).2,
    fun va hl hh => ?_, fun va hva => ?_⟩
  · by_cases hin : pgRoundUp sz ≤ va ∧ va < pgRoundUp newsz
    · obtain ⟨f, -, hf, hused, hn, -⟩ := hz.fresh_of_present habs hin.1 hin.2 hp
      rw [hf, pteAddr_mkPte permWU_lt]
      exact ⟨hused, hn⟩
    · have hsame := hold va hva (by omega)
      rw [hsame] at hp ⊢
      obtain ⟨hused, hn⟩ := h.pages va hva hp
      exact hnode _ hused hn
  · by_cases hin : pgRoundUp sz ≤ va ∧ va < pgRoundUp newsz
    · rcases hz.fresh va hin.1 hin.2 with hsame | ⟨f, -, hf, -⟩
      · rw [hsame] at hp ⊢
        exact h.absent va hva hp
      · rw [hf] at hp
        exact absurd present_mkPte hp
    · have hsame := hold va hva (by omega)
      rw [hsame] at hp ⊢
      exact h.absent va hva hp
  · rw [hold va hh (.inr hl)]
    exact h.top va (by omega) hh
  · rw [hz.other va (.inr (by omega))]
    exact h.kernel va hva

theorem allocuvm_loaded (h : Loaded s pgdir sz) :
    Wp (allocuvm pgdir sz newsz) s E fun r s' => r ≠ 0 → Loaded s' pgdir r ∧ r = max sz newsz := by
  by_cases hbig : newsz ≥ kernbase
  · rw [allocuvm, if_pos hbig]
    exact wp_pure.mpr fun h0 => absurd rfl h0
  by_cases hless : newsz < sz
  · rw [allocuvm, if_neg hbig, if_pos hless]
    exact wp_pure.mpr fun _ => ⟨h, (max_eq_left hless.le).symm⟩
  have hnew := not_le.mp hbig
  have hle := not_lt.mp hless
  refine (allocuvm_wp h.space hle hnew fun va hl hh => h.top va hl (by omega)).post ?_
  rintro r s' ⟨hs', ⟨rfl, hz⟩ | ⟨rfl, -⟩⟩
  · exact fun _ => ⟨h.alloc hs' hle hnew hz, (max_eq_right hle).symm⟩
  · exact fun h0 => absurd rfl h0

theorem loadSegment_wp (h : Loaded s pgdir sz) (hlow : ph.vaddr + ph.filesz ≤ kernbase) :
    Wp (loadSegment pgdir sz ph) s (fun _ => True) fun r s' => ∀ sz', r = some sz' → Loaded s' pgdir sz' := by
  rw [loadSegment]
  split
  · exact wp_pure.mpr nofun
  · refine (allocuvm_loaded h).bind fun r s₁ hr => ?_
    split
    · exact wp_pure.mpr nofun
    · rename_i h0
      refine (loaduvm_wp (hr h0).1 hlow).bind fun ok s' hs' => ?_
      split
      · refine wp_pure.mpr fun sz' heq => ?_
        cases heq
        exact hs'
      · exact wp_pure.mpr nofun

theorem loadAll_wp (h : Loaded s pgdir sz) (hlow : ∀ ph ∈ phs, ph.vaddr + ph.filesz ≤ kernbase) :
    Wp (loadAll pgdir sz phs) s (fun _ => True) fun r s' => ∀ sz', r = some sz' → Loaded s' pgdir sz' := by
  induction phs generalizing s sz with
  | nil =>
      refine wp_pure.mpr fun sz' heq => ?_
      cases heq
      exact h
  | cons ph phs ih =>
      rw [loadAll]
      refine (loadSegment_wp h (hlow ph List.mem_cons_self)).bind fun r s₁ hr => ?_
      cases r with
      | none => exact wp_pure.mpr nofun
      | some sz₁ => exact ih (hr sz₁ rfl) fun ph' hph' => hlow ph' (List.mem_cons_of_mem _ hph')

end Load

/-! ### The stack -/

section Stack
variable {pgdir sz a t w : Nat} {s s' : Machine} {phs : List Segment} {argv : List (List UInt8)}

theorem user_clearU : user (clearU w) = false := by
  have h2 : Nat.testBit 0xFFFFFFFB 2 = false := by decide
  rw [user, clearU, Nat.testBit_and, h2, Bool.and_false]

theorem clearU_lt : clearU w < 2 ^ 32 := Nat.and_le_right.trans_lt (by norm_num)

/-- The image with its stack, when the page in front of it has been made inaccessible. -/
theorem Loaded.stack (h : Loaded s pgdir sz) (hlow : 2 * pgsize ≤ sz) (hmod : sz % pgsize = 0)
    (ht : table s.mem pgdir (pdx (sz - 2 * pgsize)) = some t) :
    Stack (setWord s.mem t (ptx (sz - 2 * pgsize)) (clearU w)) pgdir sz := by
  have hpg : pgsize = 4096 := rfl
  have hsz := h.lt
  have ha : (sz - 2 * pgsize) % pgsize = 0 := by
    rw [hpg] at hmod ⊢
    omega
  have hpte : ∀ va, pte (setWord s.mem t (ptx (sz - 2 * pgsize)) (clearU w)) pgdir va =
      if sz - 2 * pgsize ≤ va ∧ va < sz - 2 * pgsize + pgsize then clearU w else pte s.mem pgdir va := by
    intro va
    rw [pte_setWord h.space.tree ht clearU_lt]
    simp only [samePage_iff ha]
  have htable := table_setWord (w := clearU w) (i := ptx (sz - 2 * pgsize)) h.space.tree ht
  have hback : ∀ f, Node (setWord s.mem t (ptx (sz - 2 * pgsize)) (clearU w)) pgdir f → Node s.mem pgdir f := by
    rintro f (rfl | ⟨i, hi⟩)
    · exact node_self
    · exact node_table (by rw [← htable]; exact hi)
  have hopen : ∀ va, Open (pte (setWord s.mem t (ptx (sz - 2 * pgsize)) (clearU w)) pgdir va) →
      pte (setWord s.mem t (ptx (sz - 2 * pgsize)) (clearU w)) pgdir va = pte s.mem pgdir va ∧ va < kernbase := by
    intro va hva
    rw [hpte va] at hva ⊢
    split at hva
    · rw [Open, user_clearU] at hva
      exact absurd hva.2 nofun
    · rename_i hne
      refine ⟨if_neg hne, ?_⟩
      by_contra hge
      have hu := hva.2
      rw [h.kernel va (not_lt.mp hge)] at hu
      cases hu
  refine ⟨fun va hva hn => ?_, hlow, hsz, hmod, fun hva => ?_, fun va hge hva => ?_⟩
  · obtain ⟨heq, hlt⟩ := hopen va hva
    rw [heq] at hva hn
    exact (h.pages va hlt hva.1).2 (hback _ hn)
  · rw [hpte, if_pos ⟨le_rfl, by omega⟩, Open, user_clearU] at hva
    exact absurd hva.2 nofun
  · exact absurd (hopen va hva).2 (not_lt.mpr hge)

theorem pgRoundUp_self (hmod : sz % pgsize = 0) (hlt : sz < kernbase) : pgRoundUp sz = sz := by
  rw [pgRoundUp_eq hlt]
  simp only [pgsize] at hmod ⊢
  omega

theorem Loaded.round (h : Loaded s pgdir sz) (hlt : pgRoundUp sz < kernbase) : Loaded s pgdir (pgRoundUp sz) where
  space := h.space
  lt := hlt
  pages := h.pages
  absent := h.absent
  zero := h.zero
  top := by
    rw [pgRoundUp_self (pgRoundUp_mod sz) hlt]
    exact h.top
  kernel := h.kernel

theorem clearpteu_wp {Q : Unit → Machine → Prop} (hQ : ∀ t, table s.mem pgdir (pdx a) = some t →
      Q () { s with mem := setWord s.mem t (ptx a) (clearU (word s.mem t (ptx a))) }) :
    Wp (clearpteu pgdir a) s (fun _ => True) Q := by
  simp only [clearpteu, wp_bind, wp_gets]
  cases ht : table s.mem pgdir (pdx a) with
  | none =>
      rw [walkpgdir_none ht]
      exact wp_stop.mpr trivial
  | some t =>
      rw [walkpgdir_some ht]
      exact wp_modify.mpr (hQ t ht)

/-- What the pushes leave for the program. -/
theorem pushStack_delivers (h : Stack s.mem pgdir sz) (hargs : ∀ arg ∈ argv, arg.length < kernbase) :
    Wp (pushStack pgdir sz argv) s (fun _ => True) fun r s' => ∀ esp, r = some esp →
      argv.length ≤ maxarg ∧ ∃ ptrs, Delivered s'.mem pgdir esp sz argv ptrs := by
  have hkept : Kept s.mem pgdir s := fun _ _ => rfl
  refine (pushStack_wp h hkept hargs).mono (fun _ _ => trivial) ?_
  rintro r s' hr esp rfl
  obtain ⟨hstores, hmax, ptrs, sp, hvec⟩ := hr
  rw [stackPage, ← (hkept.stores h.clean hstores).pte] at hvec
  exact ⟨hmax, ptrs, hvec.delivered h.low h.high h.aligned hmax⟩

theorem u32_stack (h : sz < kernbase) : u32 (pgRoundUp sz + 2 * pgsize) = pgRoundUp sz + 2 * pgsize := by
  have hround := pgRoundUp_le_kernbase h
  simp only [kernbase] at hround
  refine Nat.mod_eq_of_lt ?_
  simp only [pgsize]
  omega

theorem execStack_wp (h : Loaded s pgdir sz) (hargs : ∀ arg ∈ argv, arg.length < kernbase) :
    Wp (execStack pgdir sz argv) s (fun _ => True) fun r s' => ∀ sz' esp, r = some (sz', esp) →
      argv.length ≤ maxarg ∧ ∃ ptrs, Delivered s'.mem pgdir esp sz' argv ptrs := by
  rw [execStack, u32_stack h.lt]
  by_cases hbig : pgRoundUp sz + 2 * pgsize ≥ kernbase
  · have hzero : allocuvm pgdir (pgRoundUp sz) (pgRoundUp sz + 2 * pgsize) = pure 0 := by
      rw [allocuvm, if_pos hbig]
    rw [hzero]
    exact wp_bind.mpr (wp_pure.mpr (wp_pure.mpr (by rintro _ _ ⟨⟩)))
  have hlt : pgRoundUp sz < kernbase := lt_of_le_of_lt (Nat.le_add_right _ _) (not_le.mp hbig)
  refine (allocuvm_loaded (h.round hlt)).bind fun r s₁ hr => ?_
  split
  · exact wp_pure.mpr (by rintro _ _ ⟨⟩)
  rename_i h0
  obtain ⟨hs₁, hsz⟩ := hr h0
  rw [max_eq_right (Nat.le_add_right _ _)] at hsz
  have hlow : 2 * pgsize ≤ r := by
    rw [hsz]
    exact Nat.le_add_left _ _
  have hmod : r % pgsize = 0 := by
    rw [hsz, Nat.add_mul_mod_self_right, pgRoundUp_mod]
  refine wp_bind.mpr (clearpteu_wp fun t ht => ?_)
  refine Wp.bind (pushStack_delivers (hs₁.stack hlow hmod ht) hargs) fun esp s' hesp => ?_
  cases esp with
  | none => exact wp_pure.mpr (by rintro _ _ ⟨⟩)
  | some esp =>
      refine wp_pure.mpr fun sz' esp' heq => ?_
      cases heq
      exact hesp esp rfl

theorem execImage_wp (h : Loaded s pgdir 0) (hlow : ∀ ph ∈ phs, ph.vaddr + ph.filesz ≤ kernbase)
    (hargs : ∀ arg ∈ argv, arg.length < kernbase) :
    Wp (execImage pgdir phs argv) s (fun _ => True) fun r s' => ∀ sz esp, r = some (sz, esp) →
      argv.length ≤ maxarg ∧ ∃ ptrs, Delivered s'.mem pgdir esp sz argv ptrs := by
  rw [execImage]
  refine (loadAll_wp h hlow).bind fun r s₁ hr => ?_
  cases r with
  | none => exact wp_pure.mpr nofun
  | some sz => exact execStack_wp (hr sz rfl) hargs

/-- The directory that `setupkvm` makes is that of an empty image. -/
theorem setupkvm_loaded (h : Pool s) (hl : Layout s) :
    Wp setupkvm s (fun _ => True) fun r s' => ∀ d, r = some d → Loaded s' d 0 := by
  cases hrun : setupkvm s with
  | error e => exact (wp_of_error hrun).mpr trivial
  | ok res =>
      obtain ⟨r, s'⟩ := res
      refine (wp_of_ok hrun).mpr ?_
      rintro d rfl
      obtain ⟨hb, hun, -, -⟩ := (setupkvm_wp (E := fun _ => True) h hl).of_eq_ok hrun
      obtain ⟨hzero, huser⟩ := (setupkvm_closed h hl).of_eq_ok hrun
      have hround : pgRoundUp 0 = 0 := by decide
      refine ⟨hb.space, by norm_num [kernbase], fun va hva hp => absurd hp (hun va (Nat.zero_le _) hva),
        fun va hva _ => by rw [hzero va hva]; rfl, fun h0 => ?_, by rw [hround]; exact hun, fun va _ => huser va⟩
      have hmem := (h.range 0 (hb.node 0 h0).1).1
      have := h.kend
      omega

end Stack

example : (match execImage 1 [⟨0, 4096, 1, [0xC3]⟩] [[97]] (blank [2, 3, 4, 5]) with
    | .ok (some r, _) => decide (r = (0x3000, 0x2FE8))
    | _ => false) = true := by decide +kernel

/-! ### A segment in the kernel's part -/

/-- A directory without user pages, in page 1, and the part of the kernel's mapping that matters here: that of pages 1
and 10.  The free pages are filled with ones. -/
def kernelMachine : Machine where
  mem f := if f = 1 then zeroPage.write (4 * 512) 4 (mkPte 20 permWU)
    else if f = 20 then (zeroPage.write (4 * 1) 4 (mkPte 1 permW)).write (4 * 10) 4 (mkPte 10 permW) else fun _ => 1
  free := [2, 3, 4, 5, 6, 7, 8, 9, 10]
  deny := []
  short := 0
  kend := 1
  kdata := 300

/-- An image of six pages; and two segments whose end wraps around, so that `allocuvm` has nothing to do for them.
They lie in the kernel's part, at the page that will be the stack, and at the directory: its first page table is to be
that page. -/
def wrapping : List Segment :=
  [⟨0, 0x6000, 0, []⟩, ⟨0x8000A000, 0x7FFF6000, 32, List.replicate 32 0⟩, ⟨0x80001000, 0x7FFFF000, 4, [0x07, 0xA0, 0, 0]⟩]

/-- The entry of the stack page is in the stack page, where this string begins. -/
def entryString : List UInt8 := [0x07, 0x11, 0x01, 0x01] ++ List.replicate 4063 97

/-- What can be said of the run by its words and bytes. -/
def misses (r : Except Panic (Option (Nat × Nat) × Machine)) : Bool :=
  match r with
  | .ok (some (sz, esp), s') => sz == 0x8000 && esp == 0x7008 && peekWord s'.mem 1 (0x7008 + 12) == 0x701C &&
      peek s'.mem 1 0x701C 1 == [1]
  | _ => false

end Xv6.Mmu
