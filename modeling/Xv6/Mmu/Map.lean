import Xv6.Mmu.Alloc

/-!
# Mmu — `mappages`

The loop of `mappages` as it stands in the source: it goes on until the address is `last`, and both the virtual and the
physical address are 32 bits wide and wrap around.  It comes to `last` after as many pages as there are up to there, and
so is the loop of `Xv6.Mmu.Memory` (`mapWhile_eq`); every range of pages that is free is mapped, up to the last page of
the address space (`mappages_exact`).
-/

namespace Xv6.Mmu
open Lib Lib.Prog Vm

/-- The loop of `mappages`, for `fuel` rounds at most: `none` if they are not enough, and `false` for `-1`. -/
def mapWhile (pgdir perm last : Nat) : (fuel a pa : Nat) → VmM (Option Bool)
  | 0, _, _ => pure none
  | fuel + 1, a, pa => do
      let r ← walkpgdirAlloc pgdir a
      match r with
      | none => pure (some false)
      | some (t, i) => do
          let w ← gets fun s => word s.mem t i
          if present w then stop .remap
          else do
            store t i (pa ||| perm ||| 1)
            if a = last then pure (some true)
            else mapWhile pgdir perm last fuel (u32 (a + pgsize)) (u32 (pa + pgsize))

/-- `mappages`, with this bound on the rounds of its loop. -/
def mappagesWhile (fuel pgdir va size pa perm : Nat) : VmM (Option Bool) :=
  mapWhile pgdir perm (u32 (va + size + 2 ^ 32 - 1) / pgsize * pgsize) fuel (va / pgsize * pgsize) pa

section Loop
variable {pgdir perm a pa pf n fuel i t w : Nat} {s : Machine} {m : Memory}

/-- A word that is stored is cut to 32 bits. -/
theorem setWord_mod : setWord m t i (w % 2 ^ 32) = setWord m t i w := by
  have hbytes : bytesLE 4 (w % 2 ^ 32) = bytesLE 4 w := by
    simp only [bytesLE, List.cons.injEq, and_true]
    refine ⟨?_, ?_, ?_, ?_⟩
    all_goals
      apply UInt8.toNat_inj.mp
      simp only [UInt8.toNat_ofNat']
      omega
  rw [setWord, setWord, Bytes.write, Bytes.write, hbytes]

/-- The entry for a page frame number that wraps around. -/
theorem mkPte_mod (hperm : perm < 4096) : mkPte pf perm % 2 ^ 32 = mkPte (pf % 2 ^ 20) perm := by
  have hlow : perm ||| 1 < 2 ^ 12 := Nat.or_lt_two_pow hperm (by decide)
  rw [mkPte_eq hperm, mkPte_eq hperm]
  omega

theorem store_mod (hperm : perm < 4096) : store t i (mkPte pf perm) = store t i (mkPte (pf % 2 ^ 20) perm) := by
  rw [store, store, ← mkPte_mod hperm]
  simp only [setWord_mod]

theorem entry_eq : u32 (pf * pgsize) ||| perm ||| 1 = mkPte (pf % 2 ^ 20) perm := by
  have hpa : u32 (pf * pgsize) = pf % 2 ^ 20 * 4096 := by
    simp only [u32, pgsize]
    omega
  rw [hpa, mkPte]

/-- **The loop** is the one that counts its rounds. -/
theorem mapWhile_eq (hperm : perm < 4096) (ha : a < 2 ^ 32) (hn : n < 2 ^ 20) (hfuel : n < fuel) :
    mapWhile pgdir perm (u32 (a + n * pgsize)) fuel a (u32 (pf * pgsize)) =
      mapLoop pgdir perm (n + 1) a pf >>= fun r => pure (some r) := by
  induction n generalizing a pf fuel with
  | zero =>
      obtain ⟨fuel, rfl⟩ := Nat.exists_eq_succ_of_ne_zero (Nat.ne_of_gt hfuel)
      have hlast : a = u32 (a + 0 * pgsize) := by
        rw [Nat.zero_mul, Nat.add_zero, u32, Nat.mod_eq_of_lt ha]
      rw [mapWhile, mapLoop, bind_bind, entry_eq, ← hlast]
      refine congrArg (walkpgdirAlloc pgdir a >>= ·) (funext fun r => ?_)
      rcases r with - | ⟨t, i⟩
      · rfl
      · simp only [bind_bind, ← store_mod hperm]
        refine congrArg (gets (fun s : Machine => word s.mem t i) >>= ·) (funext fun w => ?_)
        split
        · rfl
        · simp only [bind_bind, if_true]
          rfl
  | succ n ih =>
      obtain ⟨fuel, rfl⟩ := Nat.exists_eq_succ_of_ne_zero (Nat.ne_of_gt (Nat.zero_lt_of_lt hfuel))
      have hmore : a ≠ u32 (a + (n + 1) * pgsize) := by
        simp only [u32, pgsize]
        omega
      have hnext : u32 (a + (n + 1) * pgsize) = u32 (u32 (a + pgsize) + n * pgsize) := by
        simp only [u32, pgsize]
        omega
      have hpa : u32 (u32 (pf * pgsize) + pgsize) = u32 ((pf + 1) * pgsize) := by
        simp only [u32, pgsize]
        omega
      have hrest : mapWhile pgdir perm (u32 (u32 (a + pgsize) + n * pgsize)) fuel (u32 (a + pgsize))
          (u32 ((pf + 1) * pgsize)) = mapLoop pgdir perm (n + 1) (u32 (a + pgsize)) (pf + 1) >>= fun r => pure (some r) :=
        ih (Nat.mod_lt _ (by decide)) (by omega) (Nat.lt_of_succ_lt_succ hfuel)
      rw [mapWhile, mapLoop, bind_bind, entry_eq, hpa]
      refine congrArg (walkpgdirAlloc pgdir a >>= ·) (funext fun r => ?_)
      rcases r with - | ⟨t, i⟩
      · rfl
      · simp only [bind_bind, ← store_mod hperm]
        refine congrArg (gets (fun s : Machine => word s.mem t i) >>= ·) (funext fun w => ?_)
        split
        · rfl
        · simp only [bind_bind]
          rw [hnext, hrest]

/-- One page: its entry is there afterwards, and no other entry has changed. -/
theorem mapOne_wp (h : Space s pgdir) (ha : a % pgsize = 0) (hlt : a + pgsize ≤ 2 ^ 32) (hperm : perm < 4096)
    (habs : ¬ present (pte s.mem pgdir a) = true) :
    Wp (mapLoop pgdir perm 1 a pf) s (fun _ => False) fun r s' => Space s' pgdir ∧
      (r = true → ∀ va, pte s'.mem pgdir va =
        if a ≤ va ∧ va < a + pgsize then mkPte (pf % 2 ^ 20) perm else pte s.mem pgdir va) := by
  have hcut : mapLoop pgdir perm 1 a pf = mapLoop pgdir perm 1 a (pf % 2 ^ 20) := by
    simp only [mapLoop, ← store_mod hperm]
  have hpf : pf % 2 ^ 20 < 2 ^ 20 := Nat.mod_lt _ (by decide)
  rw [hcut, ← mappages_page ha hlt]
  refine (mapPage_wp h ha hlt hperm hpf).mono (fun e he => habs he.2) ?_
  rintro r s' ⟨hgrows, -, hr⟩
  refine ⟨hgrows.space h, fun hok => ?_⟩
  rw [if_pos hok] at hr
  exact hr.2.2

theorem mapLoop_succ : mapLoop pgdir perm (n + 1) a pf = mapLoop pgdir perm 1 a pf >>= fun r =>
    if r then mapLoop pgdir perm n (u32 (a + pgsize)) (pf + 1) else pure false := by
  rw [mapLoop, mapLoop, bind_bind]
  refine congrArg (walkpgdirAlloc pgdir a >>= ·) (funext fun r => ?_)
  rcases r with - | ⟨t, i⟩
  · rfl
  · rw [bind_bind]
    refine congrArg (gets (fun s : Machine => word s.mem t i) >>= ·) (funext fun w => ?_)
    split <;> rfl

/-- **The pages of the loop**, one after the other. -/
theorem mapLoop_maps (h : Space s pgdir) (ha : a % pgsize = 0) (hn : a + n * pgsize ≤ 2 ^ 32) (hperm : perm < 4096)
    (habs : Unmapped s.mem pgdir a (a + n * pgsize)) :
    Wp (mapLoop pgdir perm n a pf) s (fun _ => False) fun r s' => r = true → ∀ va, pte s'.mem pgdir va =
      if a ≤ va ∧ va < a + n * pgsize then mkPte ((pf + (va - a) / pgsize) % 2 ^ 20) perm
      else pte s.mem pgdir va := by
  have hpg : pgsize = 4096 := rfl
  induction n generalizing s a pf with
  | zero =>
      refine wp_pure.mpr fun _ va => ?_
      rw [if_neg (by omega)]
  | succ n ih =>
      rw [Nat.succ_mul] at hn habs
      have hpage := habs a le_rfl (by omega)
      rw [mapLoop_succ]
      refine wp_bind.mpr ((mapOne_wp h ha (by omega) hperm hpage).post ?_)
      rintro (- | -) s₁ ⟨hs₁, hfirst⟩
      · exact wp_pure.mpr nofun
      · have hfirst := hfirst rfl
        cases n with
        | zero =>
            refine wp_pure.mpr fun _ va => (hfirst va).trans ?_
            rw [Nat.zero_add, Nat.one_mul]
            split
            · rename_i hva
              rw [Nat.div_eq_of_lt (by omega), Nat.add_zero]
            · rfl
        | succ n =>
            have hnext : u32 (a + pgsize) = a + pgsize := by
              rw [u32, Nat.mod_eq_of_lt]
              rw [Nat.succ_mul] at hn
              omega
            have hrest : Unmapped s₁.mem pgdir (a + pgsize) (a + pgsize + (n + 1) * pgsize) := by
              intro va hlow hhigh
              rw [hfirst va, if_neg (by omega)]
              exact habs va (by omega) (by omega)
            rw [if_pos rfl, hnext]
            refine (ih hs₁ (by rw [Nat.add_mod_right, ha]) (by omega) hrest).post fun r s' hr hok va => ?_
            rw [hr hok va, hfirst va, Nat.succ_mul (n + 1)]
            by_cases hlow : a + pgsize ≤ va
            · have hdiv : pf + (va - a) / pgsize = pf + 1 + (va - (a + pgsize)) / pgsize := by
                rw [show va - a = va - (a + pgsize) + pgsize by omega, Nat.add_div_right _ (by decide)]
                omega
              rw [hdiv]
              split
              · rw [if_pos (by omega)]
              · rw [if_neg (by omega), if_neg (by omega)]
            · rw [if_neg (by omega)]
              split
              · rw [if_pos (by omega), Nat.div_eq_of_lt (by omega), Nat.add_zero]
              · rw [if_neg (by omega)]

/-- **`mappages`** over pages that are not mapped yet: its loop ends, whichever page is the last, and if it says so the
pages are mapped to the page frames from `pa` on and nothing else is. -/
theorem mappages_exact {va size pa : Nat} (h : Space s pgdir) (hsize : 1 ≤ size) (hend : va + size ≤ 2 ^ 32)
    (hpa : pa % pgsize = 0) (hpa' : pa < 2 ^ 32) (hperm : perm < 4096)
    (habs : Unmapped s.mem pgdir (va / pgsize * pgsize) ((va + size - 1) / pgsize * pgsize + pgsize))
    (hfuel : 2 ^ 20 ≤ fuel) :
    ∃ r s', mappagesWhile fuel pgdir va size pa perm s = .ok (some r, s') ∧
      (r = true → ∀ x, pte s'.mem pgdir x =
        if va / pgsize * pgsize ≤ x ∧ x < (va + size - 1) / pgsize * pgsize + pgsize then
          u32 (pa + (x / pgsize - va / pgsize) * pgsize) ||| perm ||| 1
        else pte s.mem pgdir x) := by
  have hpg : pgsize = 4096 := rfl
  -- the pages behind the first, and the addresses of the first and the last
  obtain ⟨n, hn⟩ := Nat.le.dest (Nat.div_le_div_right (c := pgsize) (show va ≤ va + size - 1 by omega))
  have hlast : u32 (va + size + 2 ^ 32 - 1) / pgsize * pgsize = u32 (va / pgsize * pgsize + n * pgsize) := by
    rw [← Nat.add_mul, hn]
    simp only [u32, hpg]
    omega
  have hstop : (va + size - 1) / pgsize * pgsize + pgsize = va / pgsize * pgsize + (n + 1) * pgsize := by
    rw [← hn]
    ring
  have hframes : pa = u32 (pa / pgsize * pgsize) := by
    rw [Nat.div_mul_cancel (Nat.dvd_of_mod_eq_zero hpa), u32, Nat.mod_eq_of_lt hpa']
  have hentry : ∀ k, mkPte ((pa / pgsize + k) % 2 ^ 20) perm = u32 (pa + k * pgsize) ||| perm ||| 1 := by
    intro k
    rw [← entry_eq, Nat.add_mul, Nat.div_mul_cancel (Nat.dvd_of_mod_eq_zero hpa)]
  rw [hstop] at habs ⊢
  have hrun : mappagesWhile fuel pgdir va size pa perm =
      mapLoop pgdir perm (n + 1) (va / pgsize * pgsize) (pa / pgsize) >>= fun r => pure (some r) := by
    rw [mappagesWhile, hlast]
    conv_lhs => rw [hframes]
    refine mapWhile_eq hperm ?_ ?_ ?_
    · simp only [hpg]
      omega
    · simp only [hpg] at hn
      omega
    · simp only [hpg] at hn
      omega
  have hindex : ∀ x, (x - va / pgsize * pgsize) / pgsize = x / pgsize - va / pgsize := by
    intro x
    simp only [hpg]
    omega
  have htop : va / pgsize * pgsize + (n + 1) * pgsize ≤ 2 ^ 32 := by
    simp only [hpg] at hstop ⊢
    omega
  have hwp : Wp (mapLoop pgdir perm (n + 1) (va / pgsize * pgsize) (pa / pgsize)) s (fun _ => False) _ :=
    mapLoop_maps h (Nat.mul_mod_left _ _) htop hperm habs
  obtain ⟨r, s', hok, hmaps⟩ := hwp.exists_ok fun _ => id
  refine ⟨r, s', ?_, fun hr x => ?_⟩
  · rw [hrun]
    exact bind_of_ok hok
  · rw [hmaps hr x, hentry, hindex]

/-- The two last pages of the address space, in a machine with one page for their page table. -/
theorem mappages_last_pages :
    ∃ s', mappagesWhile (2 ^ 20) 1 (2 ^ 32 - 8187) 8187 (7 * pgsize) 2 (blank [2]) = .ok (some true, s') ∧
      pte s'.mem 1 (2 ^ 32 - 1) = 8 * pgsize + 3 ∧ pte s'.mem 1 0 = 0 := by
  have habs : Unmapped (blank [2]).mem 1 ((2 ^ 32 - 8187) / pgsize * pgsize)
      ((2 ^ 32 - 8187 + 8187 - 1) / pgsize * pgsize + pgsize) := by
    intro va _ _ hp
    rw [blank, pte_none table_zero] at hp
    cases hp
  obtain ⟨r₀, s₀, hrun, hr₀⟩ := exists_of_check (m := mappagesWhile (2 ^ 20) 1 (2 ^ 32 - 8187) 8187 (7 * pgsize) 2)
    (s := blank [2]) (p := fun r _ => r = some true) (by decide)
  have hspace : Space (blank [2]) 1 := space_blank (by decide) (by decide)
  have hpa : 7 * pgsize % pgsize = 0 := by decide
  have hperm : 2 < 4096 := by decide
  obtain ⟨r, s', hok, hmaps⟩ := mappages_exact hspace (by decide) (by decide) hpa (by decide) hperm habs le_rfl
  obtain rfl : r = true := by
    rw [hok, hr₀] at hrun
    cases hrun
    rfl
  refine ⟨s', hok, ?_, ?_⟩
  · rw [hmaps rfl]
    decide
  · rw [hmaps rfl, if_neg (by decide), blank, pte_none table_zero]

end Loop

end Xv6.Mmu
