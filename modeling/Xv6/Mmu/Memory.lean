import Xv6.Lib.Bytes
import Xv6.Lib.Prog
import Xv6.Vm.Paging

/-!
# Mmu — page tables in physical memory

`kalloc.c` and the page-table functions of `vm.c`, on the bytes of physical memory.  Memory is its
pages, by page frame number; the page directory and the page tables are pages of it like any others,
and an entry is four bytes of one.  Physical and kernel addresses of a page are the same number here.

`kalloc` fails when the free list is empty, and whenever `deny` says so, since other processes take and
free pages meanwhile: `deny` is the answers to the calls to come.  `short` counts the page tables that
could not be allocated; nothing reads it.

What a directory says of an address is its entry, 0 where there is no page table (`pte`), and where the
page tables are (`table`).  `Tree` keeps the pages of a directory apart from each other, and `Space` apart
from the free ones; `Grows` is what all the functions that take pages do to it.
-/

namespace Xv6.Mmu
open Lib Lib.Prog Vm

abbrev Page := Bytes 4096

/-- Physical memory, by page frame number. -/
abbrev Memory := Nat → Page

/-- `PHYSTOP`, as a page frame number. -/
def phystop : Nat := 0xE000000 / 4096

structure Machine where
  mem : Memory
  /-- `kmem.freelist` -/
  free : List Nat
  deny : List Bool
  short : Nat
  /-- the first page after the kernel, `end` -/
  kend : Nat
  /-- the first page of the kernel's data, `data` -/
  kdata : Nat

abbrev VmM := Prog Machine Panic

/-! ### Pages and words -/

def zeroPage : Page := fun _ => 0

/-- Word `i` of page `f`. -/
def word (m : Memory) (f i : Nat) : Nat := (m f).read (4 * i) 4

def setWord (m : Memory) (f i w : Nat) : Memory := Function.update m f ((m f).write (4 * i) 4 w)

/-- The page becomes `p`. -/
def setPage (f : Nat) (p : Page) : VmM Unit := modify fun s => { s with mem := Function.update s.mem f p }

def store (f i w : Nat) : VmM Unit := modify fun s => { s with mem := setWord s.mem f i w }

/-! ### `kalloc` and `kfree` -/

def kalloc : VmM (Option Nat) := fun s =>
  match s.free with
  | [] => .ok (none, { s with deny := s.deny.tail })
  | f :: free =>
      if s.deny.headD false then .ok (none, { s with deny := s.deny.tail })
      else .ok (some f, { s with free := free, deny := s.deny.tail })

/-- `kfree` fills the page with ones. -/
def kfree (f : Nat) : VmM Unit := do
  let s ← gets id
  if f < s.kend ∨ phystop ≤ f then stop .kfree
  else do
    setPage f fun _ => 1
    modify fun s => { s with free := f :: s.free }

/-! ### Entries -/

/-- `*pte & PTE_P`. -/
def present (w : Nat) : Bool := w.testBit 0

/-- `*pte & PTE_W`. -/
def writable (w : Nat) : Bool := w.testBit 1

/-- `*pte & PTE_U`. -/
def user (w : Nat) : Bool := w.testBit 2

/-- `PTE_ADDR`, as a page frame number. -/
def pteAddr (w : Nat) : Nat := w / 4096

/-- `PTE_FLAGS`. -/
def pteFlags (w : Nat) : Nat := w % 4096

/-- `PTE_W|PTE_U`. -/
def permWU : Nat := 6

/-- `pa | perm | PTE_P`, for the page `f`. -/
def mkPte (f perm : Nat) : Nat := f * 4096 ||| perm ||| 1

/-- `walkpgdir` with `alloc` clear: the page table and the index of the entry in it. -/
def walkpgdir (m : Memory) (pgdir va : Nat) : Option (Nat × Nat) :=
  let pde := word m pgdir (pdx va)
  if present pde then some (pteAddr pde, ptx va) else none

/-- `walkpgdir` with `alloc` set. -/
def walkpgdirAlloc (pgdir va : Nat) : VmM (Option (Nat × Nat)) := do
  let m ← gets Machine.mem
  match walkpgdir m pgdir va with
  | some p => pure (some p)
  | none => do
      let r ← kalloc
      match r with
      | none => do
          modify fun s => { s with short := s.short + 1 }
          pure none
      | some pgtab => do
          setPage pgtab zeroPage
          store pgdir (pdx va) (mkPte pgtab permWU)
          pure (some (pgtab, ptx va))

/-- `mappages`'s loop, for this many pages more; `false` for `-1`. -/
def mapLoop (pgdir perm : Nat) : (n a pf : Nat) → VmM Bool
  | 0, _, _ => pure true
  | n + 1, a, pf => do
      let r ← walkpgdirAlloc pgdir a
      match r with
      | none => pure false
      | some (t, i) => do
          let w ← gets fun s => word s.mem t i
          if present w then stop .remap
          else do
            store t i (mkPte pf perm)
            mapLoop pgdir perm n (u32 (a + pgsize)) (pf + 1)

/-- `mappages`: the loop ends at the page `last`, which it comes to after as many pages as there are from
`a` to there, modulo `2 ^ 32`. -/
def mappages (pgdir va size pf perm : Nat) : VmM Bool :=
  let a := va / pgsize * pgsize
  let last := u32 (va + size + 2 ^ 32 - 1) / pgsize * pgsize
  mapLoop pgdir perm (u32 (last + 2 ^ 32 - a) / pgsize + 1) a pf

/-! ### Words -/

section Words
variable {m : Memory} {f g i j w : Nat} {p : Page}

theorem word_setWord_self (hi : i < 1024) (hw : w < 2 ^ 32) : word (setWord m f i w) f i = w := by
  rw [word, setWord, Function.update_self]
  exact Bytes.read_write_self (by omega) hw

theorem word_setWord_of_index (h : j ≠ i) : word (setWord m f i w) f j = word m f j := by
  rw [word, setWord, Function.update_self]
  exact Bytes.read_write_of_disjoint (by omega)

theorem setWord_of_ne (h : g ≠ f) : setWord m f i w g = m g := Function.update_of_ne h _ _

theorem word_congr {m' : Memory} (h : m' f = m f) : word m' f i = word m f i := by
  rw [word, word, h]

theorem word_zeroPage (h : m f = zeroPage) : word m f i = 0 := by
  rw [word, h]
  refine Bytes.read_eq_zero fun k _ _ => ?_
  rw [Bytes.get]
  split <;> rfl

theorem word_of_le (h : 1024 ≤ i) : word m f i = 0 := Bytes.read_of_le (by omega)

end Words

section Ptes
variable {f perm w : Nat}

theorem mkPte_eq (hperm : perm < 4096) : mkPte f perm = f * 4096 + (perm ||| 1) := by
  have hlow : perm ||| 1 < 2 ^ 12 := Nat.or_lt_two_pow hperm (by decide)
  rw [mkPte, Nat.or_assoc, Nat.mul_comm]
  exact (Nat.two_pow_add_eq_or_of_lt hlow f).symm

theorem permWU_lt : permWU < 4096 := by decide

theorem mkPte_lt (hf : f < 2 ^ 20) (hperm : perm < 4096) : mkPte f perm < 2 ^ 32 := by
  have hlow : perm ||| 1 < 2 ^ 12 := Nat.or_lt_two_pow hperm (by decide)
  rw [mkPte_eq hperm]
  omega

theorem pteAddr_mkPte (hperm : perm < 4096) : pteAddr (mkPte f perm) = f := by
  have hlow : perm ||| 1 < 2 ^ 12 := Nat.or_lt_two_pow hperm (by decide)
  rw [pteAddr, mkPte_eq hperm]
  omega

theorem pteFlags_mkPte (hperm : perm < 4096) : pteFlags (mkPte f perm) = perm ||| 1 := by
  have hlow : perm ||| 1 < 2 ^ 12 := Nat.or_lt_two_pow hperm (by decide)
  rw [pteFlags, mkPte_eq hperm]
  omega

@[simp] theorem present_mkPte : present (mkPte f perm) = true := by
  simp [present, mkPte]

@[simp] theorem present_zero : present 0 = false := by decide

theorem user_mkPte : user (mkPte f perm) = perm.testBit 2 := by
  have h : (f * 4096).testBit 2 = false := by
    rw [show f * 4096 = f * 2 ^ 12 from rfl, Nat.testBit_mul_two_pow]
    simp
  have h1 : (1 : Nat).testBit 2 = false := by decide
  rw [user, mkPte, Nat.testBit_or, Nat.testBit_or, h, h1, Bool.false_or, Bool.or_false]

theorem writable_mkPte : writable (mkPte f perm) = perm.testBit 1 := by
  have h : (f * 4096).testBit 1 = false := by
    rw [show f * 4096 = f * 2 ^ 12 from rfl, Nat.testBit_mul_two_pow]
    simp
  have h1 : (1 : Nat).testBit 1 = false := by decide
  rw [writable, mkPte, Nat.testBit_or, Nat.testBit_or, h, h1, Bool.false_or, Bool.or_false]

theorem ptx_lt (va : Nat) : ptx va < 1024 := Nat.mod_lt _ (by decide)

end Ptes

/-! ### What a directory says -/

/-- The page table of entry `i`. -/
def table (m : Memory) (pgdir i : Nat) : Option Nat :=
  if present (word m pgdir i) then some (pteAddr (word m pgdir i)) else none

/-- The page table entry for `va`, 0 where there is no page table. -/
def pte (m : Memory) (pgdir va : Nat) : Nat :=
  match table m pgdir (pdx va) with
  | some t => word m t (ptx va)
  | none => 0

/-- The pages of a directory. -/
def Node (m : Memory) (pgdir f : Nat) : Prop := f = pgdir ∨ ∃ i, table m pgdir i = some f

/-- The page tables are pages of their own. -/
structure Tree (m : Memory) (pgdir : Nat) : Prop where
  inj : ∀ i j f, table m pgdir i = some f → table m pgdir j = some f → i = j
  ne : ∀ i f, table m pgdir i = some f → f ≠ pgdir

/-- The free pages are pages of their own, and not of the directory. -/
structure Space (s : Machine) (pgdir : Nat) : Prop where
  tree : Tree s.mem pgdir
  nodup : s.free.Nodup
  range : ∀ f ∈ s.free, s.kend ≤ f ∧ f < phystop
  apart : ∀ f ∈ s.free, ¬ Node s.mem pgdir f
  kend : 0 < s.kend

section Views
variable {m m' : Memory} {pgdir va va' f i j w t : Nat}

theorem walkpgdir_eq : walkpgdir m pgdir va = (table m pgdir (pdx va)).map fun t => (t, ptx va) := by
  simp only [walkpgdir, table]
  split <;> rfl

theorem walkpgdir_none (h : table m pgdir (pdx va) = none) : walkpgdir m pgdir va = none := by
  rw [walkpgdir_eq, h]
  rfl

theorem walkpgdir_some (h : table m pgdir (pdx va) = some t) :
    walkpgdir m pgdir va = some (t, ptx va) := by
  rw [walkpgdir_eq, h]
  rfl

theorem pte_none (h : table m pgdir (pdx va) = none) : pte m pgdir va = 0 := by
  rw [pte, h]

theorem pte_some (h : table m pgdir (pdx va) = some t) : pte m pgdir va = word m t (ptx va) := by
  rw [pte, h]

theorem table_of_present (h : present (pte m pgdir va) = true) : ∃ t, table m pgdir (pdx va) = some t := by
  cases ht : table m pgdir (pdx va) with
  | none =>
      rw [pte_none ht] at h
      cases h
  | some t => exact ⟨t, rfl⟩

theorem table_lt (h : table m pgdir i = some f) : i < 1024 := by
  by_contra hge
  rw [table, word_of_le (not_lt.mp hge)] at h
  cases h

theorem node_self : Node m pgdir pgdir := .inl rfl

theorem node_table (h : table m pgdir i = some f) : Node m pgdir f := .inr ⟨i, h⟩

/-- A directory is read off its pages. -/
theorem table_congr (h : m' pgdir = m pgdir) : table m' pgdir i = table m pgdir i := by
  simp only [table, word_congr h]

theorem pte_congr (h : ∀ f, Node m pgdir f → m' f = m f) : pte m' pgdir va = pte m pgdir va := by
  have hdir := h pgdir node_self
  cases ht : table m pgdir (pdx va) with
  | none => rw [pte_none ht, pte_none (by rw [table_congr hdir, ht])]
  | some t =>
      rw [pte_some ht, pte_some (by rw [table_congr hdir, ht]), word_congr (h t (node_table ht))]

theorem Tree.congr (h : Tree m pgdir) (hdir : m' pgdir = m pgdir) : Tree m' pgdir where
  inj i j f hi hj := h.inj i j f (by rw [← hi, table_congr hdir]) (by rw [← hj, table_congr hdir])
  ne i f hi := h.ne i f (by rw [← hi, table_congr hdir])

/-- One entry of a page table is written. -/
theorem pte_setWord (h : Tree m pgdir) (ht : table m pgdir (pdx va) = some t) (hw : w < 2 ^ 32) :
    pte (setWord m t (ptx va) w) pgdir va' =
      if pdx va' = pdx va ∧ ptx va' = ptx va then w else pte m pgdir va' := by
  have hdir : setWord m t (ptx va) w pgdir = m pgdir := setWord_of_ne (h.ne _ _ ht).symm
  cases ht' : table m pgdir (pdx va') with
  | none =>
      rw [pte_none (by rw [table_congr hdir, ht']), pte_none ht', if_neg]
      rintro ⟨hd, -⟩
      rw [hd, ht] at ht'
      cases ht'
  | some t' =>
      rw [pte_some (by rw [table_congr hdir, ht']), pte_some ht']
      by_cases hd : pdx va' = pdx va
      · rw [hd, ht] at ht'
        cases ht'
        by_cases hx : ptx va' = ptx va
        · rw [if_pos ⟨hd, hx⟩, hx, word_setWord_self (ptx_lt va) hw]
        · rw [if_neg fun hc => hx hc.2, word_setWord_of_index hx]
      · have hne : t' ≠ t := fun heq => hd (h.inj _ _ t (heq ▸ ht') ht)
        rw [if_neg fun hc => hd hc.1, word_congr (setWord_of_ne hne)]

theorem table_setWord (h : Tree m pgdir) (ht : table m pgdir j = some t) :
    table (setWord m t i w) pgdir = table m pgdir :=
  funext fun _ => table_congr (setWord_of_ne (h.ne _ _ ht).symm)

end Views

/-! ### A new page table -/

/-- The memory with page `f` as a new page table for `va`. -/
def addTable (m : Memory) (pgdir va f : Nat) : Memory :=
  setWord (Function.update m f zeroPage) pgdir (pdx va) (mkPte f permWU)

section NewTable
variable {m : Memory} {pgdir va va' f g i : Nat}

theorem addTable_of_ne (hg : g ≠ f) (hg' : g ≠ pgdir) : addTable m pgdir va f g = m g := by
  rw [addTable, setWord_of_ne hg', Function.update_of_ne hg]

theorem addTable_self (hf : f ≠ pgdir) : addTable m pgdir va f f = zeroPage := by
  rw [addTable, setWord_of_ne hf, Function.update_self]

theorem table_addTable (hva : pdx va < 1024) (hf : f ≠ pgdir) (hlt : f < 2 ^ 20) :
    table (addTable m pgdir va f) pgdir i = if i = pdx va then some f else table m pgdir i := by
  by_cases hi : i = pdx va
  · have hword : word (addTable m pgdir va f) pgdir i = mkPte f permWU := by
      rw [hi]
      exact word_setWord_self hva (mkPte_lt hlt permWU_lt)
    rw [if_pos hi, table, hword, present_mkPte, if_pos rfl, pteAddr_mkPte permWU_lt]
  · have hword : word (addTable m pgdir va f) pgdir i = word m pgdir i := by
      rw [addTable, word_setWord_of_index hi]
      exact word_congr (Function.update_of_ne hf.symm _ _)
    rw [if_neg hi, table, hword, table]

theorem Tree.addTable (h : Tree m pgdir) (hva : pdx va < 1024) (hf : ¬ Node m pgdir f) (hlt : f < 2 ^ 20) :
    Tree (addTable m pgdir va f) pgdir := by
  have hne : f ≠ pgdir := fun heq => hf (heq ▸ node_self)
  refine ⟨fun i j g hi hj => ?_, fun i g hi => ?_⟩
  · rw [table_addTable hva hne hlt] at hi hj
    split at hi <;> split at hj
    · rename_i hi' hj'
      rw [hi', hj']
    · cases hi
      exact absurd (node_table hj) hf
    · cases hj
      exact absurd (node_table hi) hf
    · exact h.inj i j g hi hj
  · rw [table_addTable hva hne hlt] at hi
    split at hi
    · cases hi
      exact hne
    · exact h.ne i g hi

/-- A page table without entries says nothing new. -/
theorem pte_addTable (h : Tree m pgdir) (hva : pdx va < 1024) (hnone : table m pgdir (pdx va) = none)
    (hf : ¬ Node m pgdir f) (hlt : f < 2 ^ 20) :
    pte (addTable m pgdir va f) pgdir va' = pte m pgdir va' := by
  have hne : f ≠ pgdir := fun heq => hf (heq ▸ node_self)
  have htable := table_addTable (m := m) (i := pdx va') hva hne hlt
  by_cases hd : pdx va' = pdx va
  · rw [if_pos hd] at htable
    rw [pte_some htable, word_zeroPage (addTable_self hne), pte_none (by rw [hd]; exact hnone)]
  · rw [if_neg hd] at htable
    cases ht : table m pgdir (pdx va') with
    | none => rw [pte_none ht, pte_none (htable.trans ht)]
    | some t =>
        have htf : t ≠ f := fun heq => hf (heq ▸ node_table ht)
        rw [pte_some ht, pte_some (htable.trans ht)]
        exact word_congr (addTable_of_ne htf (h.ne _ _ ht))

end NewTable

/-! ### Growing -/

/-- Pages are taken off the free list; of the others only those of the directory change, and it keeps its
page tables. -/
structure Grows (pgdir : Nat) (s s' : Machine) : Prop where
  taken : ∃ l, s.free = l ++ s'.free ∧ (∀ f, f ∉ l → ¬ Node s.mem pgdir f → s'.mem f = s.mem f) ∧
    ∀ i f, table s'.mem pgdir i = some f → table s.mem pgdir i = some f ∨ f ∈ l
  tables : ∀ i f, table s.mem pgdir i = some f → table s'.mem pgdir i = some f
  tree : Tree s'.mem pgdir
  short : s.short ≤ s'.short
  kend : s'.kend = s.kend
  kdata : s'.kdata = s.kdata

/-- All pages taken are page tables now. -/
def Tabled (pgdir : Nat) (s s' : Machine) : Prop :=
  ∀ f ∈ s.free, f ∈ s'.free ∨ ∃ i, table s'.mem pgdir i = some f

section Grows
variable {pgdir f : Nat} {s s' s'' : Machine}

theorem Grows.refl (h : Tree s.mem pgdir) : Grows pgdir s s :=
  ⟨⟨[], rfl, fun _ _ _ => rfl, fun _ _ h => .inl h⟩, fun _ _ h => h, h, le_rfl, rfl, rfl⟩

theorem Grows.free_subset (h : Grows pgdir s s') (hf : f ∈ s'.free) : f ∈ s.free := by
  obtain ⟨l, hl, -⟩ := h.taken
  rw [hl]
  exact List.mem_append_right l hf

/-- The pages of the directory are those it had, and some that were free. -/
theorem Grows.node (h : Grows pgdir s s') (hf : Node s'.mem pgdir f) :
    Node s.mem pgdir f ∨ f ∈ s.free := by
  obtain ⟨l, hl, -, hnew⟩ := h.taken
  rcases hf with rfl | ⟨i, hi⟩
  · exact .inl node_self
  · rcases hnew i f hi with hold | hmem
    · exact .inl (node_table hold)
    · rw [hl]
      exact .inr (List.mem_append_left _ hmem)

theorem Grows.node_of_node (h : Grows pgdir s s') (hf : Node s.mem pgdir f) : Node s'.mem pgdir f :=
  hf.imp_right fun ⟨i, hi⟩ => ⟨i, h.tables i f hi⟩

theorem Grows.mem_eq (h : Grows pgdir s s') (hf : f ∉ s.free) (hn : ¬ Node s.mem pgdir f) :
    s'.mem f = s.mem f := by
  obtain ⟨l, hl, hmem, -⟩ := h.taken
  refine hmem f (fun hfl => hf ?_) hn
  rw [hl]
  exact List.mem_append_left _ hfl

theorem Grows.trans (h : Grows pgdir s s') (h' : Grows pgdir s' s'') : Grows pgdir s s'' := by
  obtain ⟨l, hl, hmem, hnew⟩ := h.taken
  obtain ⟨l', hl', hmem', hnew'⟩ := h'.taken
  refine ⟨⟨l ++ l', by rw [hl, hl', List.append_assoc], fun f hf hn => ?_, fun i f hi => ?_⟩,
    fun i f hi => h'.tables i f (h.tables i f hi), h'.tree, h.short.trans h'.short,
    h'.kend.trans h.kend, h'.kdata.trans h.kdata⟩
  · rw [List.mem_append, not_or] at hf
    rw [hmem' f hf.2 ?_, hmem f hf.1 hn]
    rintro (rfl | ⟨i, hi⟩)
    · exact hn node_self
    · exact (hnew i f hi).elim (fun hold => hn (node_table hold)) hf.1
  · rw [List.mem_append]
    rcases hnew' i f hi with hi' | hf
    · exact (hnew i f hi').imp_right .inl
    · exact .inr (.inr hf)

theorem Grows.space (h : Grows pgdir s s') (hs : Space s pgdir) : Space s' pgdir := by
  obtain ⟨l, hl, -, hnew⟩ := h.taken
  have hnodup := hs.nodup
  rw [hl, List.nodup_append] at hnodup
  refine ⟨h.tree, hnodup.2.1, fun f hf => ?_, fun f hf hn => ?_, by rw [h.kend]; exact hs.kend⟩
  · rw [h.kend]
    exact hs.range f (h.free_subset hf)
  · rcases hn with rfl | ⟨i, hi⟩
    · exact hs.apart f (h.free_subset hf) node_self
    · rcases hnew i f hi with hold | hmem
      · exact hs.apart f (h.free_subset hf) (node_table hold)
      · exact hnodup.2.2 f hmem f hf rfl

theorem Tabled.trans (h : Tabled pgdir s s') (h' : Tabled pgdir s' s'')
    (hg : Grows pgdir s' s'') : Tabled pgdir s s'' := by
  intro f hf
  rcases h f hf with hf' | ⟨i, hi⟩
  · exact h' f hf'
  · exact .inr ⟨i, hg.tables i f hi⟩

theorem Tabled.refl : Tabled pgdir s s := fun _ hf => .inl hf

theorem Space.lt (h : Space s pgdir) (hf : f ∈ s.free) : f < 2 ^ 20 := by
  have hlt := (h.range f hf).2
  simp only [phystop] at hlt
  omega

end Grows

/-! ### `walkpgdir` and `mappages` -/

section Map
variable {pgdir va : Nat} {s : Machine} {E : Panic → Prop}

theorem kalloc_wp : Wp kalloc s E fun r s' => match r with
    | none => s' = { s with deny := s.deny.tail }
    | some f => s.free = f :: s'.free ∧ s' = { s with free := s'.free, deny := s.deny.tail } := by
  by_cases hnil : s.free = []
  · have hk : kalloc s = .ok (none, { s with deny := s.deny.tail }) := by simp only [kalloc, hnil]
    exact (wp_of_ok hk).mpr rfl
  · obtain ⟨f, free, hfree⟩ := List.exists_cons_of_ne_nil hnil
    by_cases hdeny : s.deny.headD false = true
    · have hk : kalloc s = .ok (none, { s with deny := s.deny.tail }) := by
        simp only [kalloc, hfree, hdeny, if_true]
      exact (wp_of_ok hk).mpr rfl
    · have hk : kalloc s = .ok (some f, { s with free := free, deny := s.deny.tail }) := by
        simp only [kalloc, hfree, hdeny]
        rfl
      exact (wp_of_ok hk).mpr ⟨hfree, rfl⟩

theorem pdx_lt (hva : va < 2 ^ 32) : pdx va < 1024 := by
  simp only [pdx]
  omega

/-- What `walkpgdir` with `alloc` set does: there is a page table for `va`, or no page for one. -/
theorem walkpgdirAlloc_wp (h : Space s pgdir) (hva : va < 2 ^ 32) :
    Wp (walkpgdirAlloc pgdir va) s E fun r s' => Grows pgdir s s' ∧ Tabled pgdir s s' ∧
      (∀ va', pte s'.mem pgdir va' = pte s.mem pgdir va') ∧ match r with
      | none => s'.short = s.short + 1 ∧ ∀ i, table s'.mem pgdir i = table s.mem pgdir i
      | some (t, x) => s'.short = s.short ∧ x = ptx va ∧ table s'.mem pgdir (pdx va) = some t ∧
          ∀ i, table s'.mem pgdir i ≠ none → table s.mem pgdir i ≠ none ∨ i = pdx va := by
  simp only [walkpgdirAlloc, wp_bind, wp_gets]
  cases ht : table s.mem pgdir (pdx va) with
  | some t =>
      simp only [walkpgdir_some ht, wp_pure]
      exact ⟨.refl h.tree, .refl, fun _ => trivial, trivial, trivial, ht, fun i hi => .inl hi⟩
  | none =>
      simp only [walkpgdir_none ht, wp_bind]
      refine kalloc_wp.post fun r s' hr => ?_
      cases r with
      | none =>
          obtain rfl := hr
          simp only [wp_bind, wp_modify, wp_pure]
          exact ⟨⟨⟨[], rfl, fun _ _ _ => rfl, fun _ _ h => .inl h⟩, fun _ _ h => h, h.tree, Nat.le_succ _, rfl, rfl⟩,
            fun _ hf => .inl hf, fun _ => trivial, trivial, fun _ => trivial⟩
      | some f =>
          obtain ⟨hfree, hs'⟩ := hr
          have hmem : f ∈ s.free := by
            rw [hfree]
            exact List.mem_cons_self
          have hnode := h.apart f hmem
          have hlt := h.lt hmem
          have hne : f ≠ pgdir := fun heq => hnode (heq ▸ node_self)
          have hd := pdx_lt hva
          simp only [setPage, store, wp_bind, wp_modify, wp_pure]
          rw [hs']
          have htable := fun i => table_addTable (m := s.mem) (i := i) hd hne hlt
          refine ⟨⟨⟨[f], hfree, fun g hg hn => ?_, fun i g hi => ?_⟩, fun i g hi => ?_,
            h.tree.addTable hd hnode hlt, le_rfl, rfl, rfl⟩, fun g hg => ?_, fun va' => ?_, rfl, trivial, ?_,
            fun i hi => ?_⟩
          · exact addTable_of_ne (fun heq => hg (heq ▸ List.mem_singleton_self f)) fun heq => hn (heq ▸ node_self)
          · have := (htable i).symm.trans hi
            split at this
            · cases this
              exact .inr (List.mem_singleton_self f)
            · exact .inl this
          · refine (htable i).trans ?_
            rw [if_neg fun heq => ?_]
            · exact hi
            · rw [heq, ht] at hi
              cases hi
          · rw [hfree] at hg
            rcases List.mem_cons.mp hg with rfl | hg
            · exact .inr ⟨pdx va, (htable _).trans (if_pos rfl)⟩
            · exact .inl hg
          · exact pte_addTable h.tree hd ht hnode hlt
          · exact (htable _).trans (if_pos rfl)
          · by_cases hi' : i = pdx va
            · exact .inr hi'
            · refine .inl fun hnone => hi ?_
              exact (htable i).trans ((if_neg hi').trans hnone)

/-- The entries of `k` pages from `a` on are for the page frames from `pf` on; the others are as before. -/
def MapsTo (m m' : Memory) (pgdir perm a k pf : Nat) : Prop :=
  ∀ va, pte m' pgdir va =
    if a ≤ va ∧ va < a + k * pgsize then mkPte (pf + (va - a) / pgsize) perm else pte m pgdir va

/-- The page tables are those there were, and some for these pages. -/
def TablesFor (m m' : Memory) (pgdir a k : Nat) : Prop :=
  ∀ i, table m' pgdir i ≠ none → table m pgdir i ≠ none ∨ ∃ x < k, i = pdx (a + x * pgsize)

/-- **`mappages`'s loop** maps the pages up to the first that finds no page table and no page for one. -/
theorem mapLoop_wp {perm n a pf : Nat} (h : Space s pgdir) (ha : a % pgsize = 0)
    (hn : a + n * pgsize ≤ 2 ^ 32) (hperm : perm < 4096) (hpf : pf + n ≤ 2 ^ 20) :
    Wp (mapLoop pgdir perm n a pf) s
      (fun e => e = .remap ∧ ∃ va, a ≤ va ∧ va < a + n * pgsize ∧ present (pte s.mem pgdir va) = true)
      fun r s' => Grows pgdir s s' ∧ Tabled pgdir s s' ∧ ∃ k, MapsTo s.mem s'.mem pgdir perm a k pf ∧
        TablesFor s.mem s'.mem pgdir a k ∧
        if r then k = n ∧ s'.short = s.short else k < n ∧ s'.short = s.short + 1 := by
  induction n generalizing s a pf with
  | zero =>
      refine wp_pure.mpr ⟨.refl h.tree, .refl, 0, fun va => ?_, fun i hi => .inl hi, rfl, rfl⟩
      rw [if_neg (by omega)]
  | succ n ih =>
      have hpg : pgsize = 4096 := rfl
      have hlt : a < 2 ^ 32 := by
        rw [Nat.succ_mul] at hn
        omega
      simp only [mapLoop, wp_bind]
      refine (walkpgdirAlloc_wp h hlt).post fun r s₁ hr => ?_
      obtain ⟨hgrows, htabled, hpte, hr⟩ := hr
      have hs₁ := hgrows.space h
      cases r with
      | none =>
          refine wp_pure.mpr ⟨hgrows, htabled, 0, fun va => ?_, fun i hi => .inl ?_, Nat.succ_pos n, hr.1⟩
          · rw [if_neg (by omega)]
            exact hpte va
          · rw [← hr.2 i]
            exact hi
      | some p =>
          obtain ⟨t, x⟩ := p
          obtain ⟨hshort, rfl, ht, hnew⟩ := hr
          simp only [wp_bind, wp_gets]
          have hword : word s₁.mem t (ptx a) = pte s.mem pgdir a := by
            rw [← hpte a, pte_some ht]
          by_cases hpres : present (pte s.mem pgdir a) = true
          · rw [hword, if_pos hpres]
            refine wp_stop.mpr ⟨rfl, a, le_rfl, ?_, hpres⟩
            rw [Nat.succ_mul]
            omega
          · rw [hword, if_neg hpres]
            simp only [store, wp_bind, wp_modify]
            -- the entry of this page, and the pages behind it
            have hw : mkPte pf perm < 2 ^ 32 := mkPte_lt (by omega) hperm
            have hpte₂ : ∀ va, pte (setWord s₁.mem t (ptx a) (mkPte pf perm)) pgdir va =
                if a ≤ va ∧ va < a + pgsize then mkPte pf perm else pte s.mem pgdir va := by
              intro va
              rw [pte_setWord hs₁.tree ht hw, hpte va]
              simp only [samePage_iff ha]
            have htable₂ := table_setWord (w := mkPte pf perm) (i := ptx a) hs₁.tree ht
            have hgrows₂ : Grows pgdir s { s₁ with mem := setWord s₁.mem t (ptx a) (mkPte pf perm) } := by
              refine hgrows.trans ⟨⟨[], rfl, fun f _ hf => ?_, fun i f hi => .inl ?_⟩, fun i f hi => ?_,
                hs₁.tree.congr (setWord_of_ne (hs₁.tree.ne _ _ ht).symm), le_rfl, rfl, rfl⟩
              · exact setWord_of_ne fun heq => hf (heq ▸ node_table ht)
              · rw [← htable₂]
                exact hi
              · exact (congrFun htable₂ i).trans hi
            have htabled₂ : Tabled pgdir s { s₁ with mem := setWord s₁.mem t (ptx a) (mkPte pf perm) } := by
              intro f hf
              refine (htabled f hf).imp_right (Exists.imp fun i hi => ?_)
              exact (congrFun htable₂ i).trans hi
            have hs₂ := hgrows₂.space h
            cases n with
            | zero =>
                refine wp_pure.mpr ⟨hgrows₂, htabled₂, 1, fun va => ?_, fun i hi => ?_, rfl, hshort⟩
                · rw [hpte₂ va, Nat.one_mul]
                  split
                  · rename_i hva
                    rw [Nat.div_eq_of_lt (by omega), Nat.add_zero]
                  · rfl
                · refine (hnew i ?_).imp_right fun hi => ⟨0, Nat.one_pos, by rw [hi, Nat.zero_mul, Nat.add_zero]⟩
                  rw [← htable₂]
                  exact hi
            | succ n =>
                rw [Nat.succ_mul, Nat.succ_mul] at hn
                have hu : u32 (a + pgsize) = a + pgsize := Nat.mod_eq_of_lt (by omega)
                rw [hu]
                have hpf' : pf + 1 + (n + 1) ≤ 2 ^ 20 := by omega
                refine (ih hs₂ (by rw [Nat.add_mod_right, ha]) (by rw [Nat.succ_mul]; omega) hpf').mono ?_ ?_
                · rintro e ⟨rfl, va, hlow, hhigh, hp⟩
                  rw [show pte _ pgdir va = _ from hpte₂ va, if_neg (by omega)] at hp
                  refine ⟨rfl, va, by omega, ?_, hp⟩
                  rw [Nat.succ_mul]
                  omega
                · rintro r s' ⟨hgrows', htabled', k, hmaps, htables, hend⟩
                  refine ⟨hgrows₂.trans hgrows', htabled₂.trans htabled' hgrows', k + 1, fun va => ?_,
                    fun i hi => ?_, ?_⟩
                  · rw [hmaps va, show pte _ pgdir va = _ from hpte₂ va, Nat.succ_mul]
                    by_cases hfirst : a ≤ va ∧ va < a + pgsize
                    · rw [if_neg (by omega), if_pos hfirst, if_pos (by omega), Nat.div_eq_of_lt (by omega),
                        Nat.add_zero]
                    · rw [if_neg hfirst]
                      by_cases hrest : a + pgsize ≤ va ∧ va < a + pgsize + k * pgsize
                      · rw [if_pos hrest, if_pos (by omega)]
                        have hsub : va - a = va - (a + pgsize) + pgsize := by omega
                        have hdiv : pf + (va - a) / pgsize = pf + 1 + (va - (a + pgsize)) / pgsize := by
                          rw [hsub, Nat.add_div_right _ (by decide)]
                          omega
                        rw [hdiv]
                      · rw [if_neg hrest, if_neg (by omega)]
                  · rcases htables i hi with hi | ⟨x, hx, hi⟩
                    · refine (hnew i ?_).imp_right fun hi => ⟨0, Nat.succ_pos k, by rw [hi, Nat.zero_mul, Nat.add_zero]⟩
                      rw [← htable₂]
                      exact hi
                    · refine .inr ⟨x + 1, Nat.succ_lt_succ hx, ?_⟩
                      rw [hi, Nat.succ_mul, Nat.add_assoc, Nat.add_comm pgsize]
                  · cases r with
                    | true => exact ⟨congrArg (· + 1) hend.1, hend.2.trans hshort⟩
                    | false => exact ⟨Nat.succ_lt_succ hend.1, hend.2.trans (congrArg (· + 1) hshort)⟩

end Map

end Xv6.Mmu
