import Xv6.Vm.Exec

/-!
# Vm — the size of a process and its pages

`growproc`, `copyuvm` and the whole of `exec`, each on the size and the page directory of a process.
A process agrees when its pages are those below its size (`Agrees`); the theorems say which calls keep
that: `copyuvm` always does and does not panic (`copyuvm_agrees`); `exec` does if no page is lost
(`exec_agrees`); `growproc` does if no page is lost and the process does not give up all its pages
(`growproc_agrees`).
-/

namespace Xv6.Vm

/-- The size and the page directory of a process. -/
structure Proc where
  sz : Nat
  dir : Dir

/-- `a - b`, as `uint`s. -/
def u32sub (a b : Nat) : Nat := u32 (a + (2 ^ 32 - u32 b))

/-- `sz + n` for an `int` `n`. -/
def u32addInt (sz : Nat) (n : Int32) : Nat := ((sz + n.toInt) % 2 ^ 32).toNat

/-! ### `growproc` -/

/-- `growproc`: what it returns and the process after it. -/
def growproc (mem : Kalloc) (p : Proc) (n : Int32) : Except Panic (Int × Proc) :=
  if 0 < n.toInt then
    match allocuvm mem ⟨p.dir, 0, 0⟩ p.sz (u32addInt p.sz n) with
    | .error e => .error e
    | .ok (sz, v) => if sz = 0 then .ok (-1, { p with dir := v.dir }) else .ok (0, ⟨sz, v.dir⟩)
  else if n.toInt < 0 then
    match deallocuvm p.dir p.sz (u32addInt p.sz n) with
    | .error e => .error e
    | .ok (sz, dir) => if sz = 0 then .ok (-1, { p with dir := dir }) else .ok (0, ⟨sz, dir⟩)
  else .ok (0, p)

/-! ### `copyuvm` -/

/-- The flags of the entry, with another page. -/
def Pte.withPage (pte : Pte) (pa : Nat) : Pte :=
  match pte with
  | .absent => .absent
  | .kernel _ => .kernel pa
  | .user _ => .user pa

/-- `copyuvm`'s loop from `i` on; `none` when it is out of memory. -/
def copyLoop (mem : Kalloc) (dir : Dir) (sz i : Nat) (d : Space) : Except Panic (Option Space) :=
  if i < sz then
    match walkpgdir dir i with
    | none => .error .pteShouldExist
    | some .absent => .error .notPresent
    | some pte =>
        match mem d.calls with
        | none => .ok none
        | some pa =>
            match mappages mem { d with calls := d.calls + 1 } i (pte.withPage pa) with
            | .error e => .error e
            | .ok (false, _) => .ok none
            | .ok (true, d) => copyLoop mem dir sz (i + pgsize) d
  else .ok (some d)
  termination_by sz - i
  decreasing_by
    simp only [pgsize]
    omega

def copyuvm (mem : Kalloc) (dir : Dir) (sz : Nat) : Except Panic (Option Space) :=
  match setupkvm mem with
  | none => .ok none
  | some d => copyLoop mem dir sz 0 d

/-! ### `exec` -/

/-- `clearpteu`. -/
def clearpteu (dir : Dir) (uva : Nat) : Except Panic Dir :=
  match walkpgdir dir uva with
  | none => .error .clearpteu
  | some (.user pa) => .ok (setPte dir uva (.kernel pa))
  | some _ => .ok dir

/-- `copyout` of `len` bytes; the flag is `false` for `-1`. -/
def copyout (dir : Dir) (va len : Nat) : Except Panic Bool :=
  if len = 0 then .ok true
  else
    match walkpgdir dir (va / pgsize * pgsize) with
    | none => .error .nullPte
    | some (.user _) =>
        copyout dir (u32 (va / pgsize * pgsize + pgsize)) (len - min (pgsize - va % pgsize) len)
    | some _ => .ok false
  termination_by len
  decreasing_by
    have : va % pgsize < pgsize := Nat.mod_lt _ (by decide)
    omega

/-- `MAXARG`. -/
def maxarg : Nat := 32

/-- The argument strings, of these lengths, and the argument vector go on the stack; `false` when
`exec` gives up. -/
def pushArgs (dir : Dir) : (argc sp : Nat) → List Nat → Except Panic Bool
  | argc, sp, [] => copyout dir (u32sub sp ((3 + argc + 1) * 4)) ((3 + argc + 1) * 4)
  | argc, sp, len :: rest =>
      if argc ≥ maxarg then .ok false
      else
        let sp := u32sub sp (len + 1) / 4 * 4
        match copyout dir sp (len + 1) with
        | .error e => .error e
        | .ok false => .ok false
        | .ok true => pushArgs dir (argc + 1) sp rest

/-- The second half of `exec`, for an image of size `sz`: two pages more, of which the first is made
inaccessible, and the arguments.  `none` when it gives up. -/
def execStack (mem : Kalloc) (sz : Nat) (v : Space) (args : List Nat) :
    Except Panic (Option (Nat × Space)) :=
  match allocuvm mem v (pgRoundUp sz) (u32 (pgRoundUp sz + 2 * pgsize)) with
  | .error e => .error e
  | .ok (sz, v) =>
      if sz = 0 then .ok none
      else
        match clearpteu v.dir (sz - 2 * pgsize) with
        | .error e => .error e
        | .ok dir =>
            match pushArgs dir 0 sz args with
            | .error e => .error e
            | .ok false => .ok none
            | .ok true => .ok (some (sz, { v with dir := dir }))

/-- `exec` of a file: what it returns and the process after it.  Without success the process is as it
was.  `none` if `loaduvm` does not end. -/
def exec (mem : Kalloc) (p : Proc) (f : File) (args : List Nat) : Except Panic (Option (Int × Proc)) :=
  match (execLoad f mem).1 with
  | .panic e => .error e
  | .looping => .ok none
  | .failed => .ok (some (-1, p))
  | .loaded sz v =>
      match execStack mem sz v args with
      | .error e => .error e
      | .ok none => .ok (some (-1, p))
      | .ok (some (sz, v)) => .ok (some (0, ⟨sz, v.dir⟩))

/-! ### Agreement -/

/-- The pages below `a` are there. -/
def PresentBelow (dir : Dir) (a : Nat) : Prop :=
  ∀ va < a, ∃ pte, walkpgdir dir va = some pte ∧ pte ≠ .absent

/-- The pages of the process are those below its size. -/
structure Agrees (p : Proc) : Prop where
  size : p.sz < kernbase
  free : FreeFrom p.dir (pgRoundUp p.sz)
  nonNull : UserNonNull p.dir
  present : PresentBelow p.dir (pgRoundUp p.sz)

section Agree
variable {mem : Kalloc} {p : Proc} {v v' : Space} {sz oldsz newsz a : Nat}

theorem Agrees.space (h : Agrees p) : SpaceOk ⟨p.dir, 0, 0⟩ p.sz := ⟨h.size, h.free, h.nonNull⟩

theorem PresentBelow.mono {dir : Dir} {b : Nat} (h : PresentBelow dir b) (hab : a ≤ b) :
    PresentBelow dir a := fun va hva => h va (hva.trans_le hab)

theorem PresentBelow.keep {dir dir' : Dir} (h : PresentBelow dir a)
    (hkeep : ∀ va p, va < a → walkpgdir dir va = some p → walkpgdir dir' va = some p) :
    PresentBelow dir' a := by
  intro va hva
  obtain ⟨pte, hpte, hne⟩ := h va hva
  exact ⟨pte, hkeep va pte hva hpte, hne⟩

/-- The present pages after an `allocuvm` that loses none. -/
theorem Allocated.present (h : Allocated mem v oldsz newsz sz v') (hlost : v'.lost = v.lost)
    (hsz : sz ≠ 0) (hv : PresentBelow v.dir (pgRoundUp oldsz)) :
    PresentBelow v'.dir (pgRoundUp sz) := by
  intro va hva
  by_cases hlow : va < pgRoundUp oldsz
  · exact hv.keep h.keep va hlow
  · obtain ⟨pa, hpa⟩ := h.mapped hsz hlost va (not_lt.mp hlow) hva
    exact ⟨_, hpa, nofun⟩

theorem u32addInt_eq_zero {n : Int32} (hsz : sz < kernbase) (h : u32addInt sz n = 0) :
    n.toInt = -sz := by
  have hlow := n.le_toInt
  have hhigh := n.toInt_lt
  simp only [u32addInt, kernbase] at *
  omega

/-- **`growproc`** keeps the agreement, if it loses no page and does not come to size 0. -/
theorem growproc_agrees (h : Agrees p) (n : Int32)
    (hlost : ∀ sz v, allocuvm mem ⟨p.dir, 0, 0⟩ p.sz (u32addInt p.sz n) = .ok (sz, v) → v.lost = 0)
    (hall : 0 < p.sz → n.toInt ≠ -p.sz) :
    ∃ r p', growproc mem p n = .ok (r, p') ∧ Agrees p' := by
  unfold growproc
  split
  · obtain ⟨sz, v, halloc, hspec⟩ := allocuvm_allocated mem (u32addInt p.sz n) h.space
    have hlost := hlost sz v halloc
    simp only [halloc]
    split
    · rename_i h0
      exact ⟨-1, _, rfl, h.size, hspec.failed h0 hlost, hspec.nonNull, h.present.keep hspec.keep⟩
    · rename_i h0
      have hspace := hspec.space h0
      exact ⟨0, _, rfl, hspace.size, hspace.free, hspace.nonNull,
        hspec.present hlost h0 h.present⟩
  · split
    · obtain ⟨sz, dir', hdealloc, hcases⟩ :=
        deallocuvm_cleared (u32addInt p.sz n) h.size.le h.nonNull
      simp only [hdealloc]
      obtain ⟨hge, rfl, rfl⟩ | ⟨hlt, rfl, hcleared⟩ := hcases
      · split
        · exact ⟨-1, p, rfl, h⟩
        · exact ⟨0, p, rfl, h⟩
      · have h0 : u32addInt p.sz n ≠ 0 := fun h0 =>
          hall (by omega) (u32addInt_eq_zero h.size h0)
        rw [if_neg h0]
        have hsize := hlt.trans h.size
        have hround : pgRoundUp (u32addInt p.sz n) ≤ pgRoundUp p.sz :=
          pgRoundUp_le hsize (pgRoundUp_mod _) (hlt.le.trans (le_pgRoundUp h.size))
        refine ⟨0, _, rfl, hsize, ?_, hcleared.nonNull h.nonNull,
          (h.present.mono hround).keep hcleared.keep⟩
        refine hcleared.clear (pgRoundUp p.sz) (pgRoundUp_mod _) (pgRoundUp_lt h.size)
          (fun va _ hva => ?_) (h.free.mono (le_max_right _ _))
        obtain ⟨pte, hpte, -⟩ := h.present va hva
        exact ⟨pte, hpte⟩
    · exact ⟨0, p, rfl, h⟩

/-- One page more. -/
theorem Mapped.present {pte : Pte} (h : Mapped mem v a pte true v') (hpte : pte ≠ .absent)
    (hv : PresentBelow v.dir a) : PresentBelow v'.dir (a + pgsize) := by
  intro va hva
  by_cases hlow : va < a
  · exact hv.keep h.keep va hlow
  · exact ⟨pte, h.page rfl va (not_lt.mp hlow) hva, hpte⟩

/-- `copyuvm`'s loop: the pages below `i` are copied. -/
theorem copyLoop_agrees {d : Space} {i : Nat} (h : Agrees p) (hi : i % pgsize = 0)
    (hlow : i < p.sz + pgsize) (hfree : FreeFrom d.dir i) (hnn : UserNonNull d.dir)
    (hpresent : PresentBelow d.dir i) :
    ∃ r, copyLoop mem p.dir p.sz i d = .ok r ∧ ∀ d', r = some d' → Agrees ⟨p.sz, d'.dir⟩ := by
  have hparent : ∀ i < p.sz, ∃ pte, walkpgdir p.dir i = some pte ∧ pte ≠ .absent :=
    fun i hi => h.present i (hi.trans_le (le_pgRoundUp h.size))
  fun_induction copyLoop mem p.dir p.sz i d with
  | case1 i d hlt hnone =>
      obtain ⟨pte, hpte, -⟩ := hparent i hlt
      cases hnone.symm.trans hpte
  | case2 i d hlt habsent =>
      obtain ⟨pte, hpte, hne⟩ := hparent i hlt
      cases habsent.symm.trans hpte
      exact absurd rfl hne
  | case3 i d hlt pte hne hpte hnone => exact ⟨none, rfl, nofun⟩
  | case4 i d hlt pte hne hpte pa hpa e herr =>
      obtain ⟨mapped, d₁, hok, -⟩ := mappages_mapped mem (v := { d with calls := d.calls + 1 })
        (pte.withPage pa) hi (hlt.trans h.size) hfree
      rw [herr] at hok
      cases hok
  | case5 i d hlt pte hne hpte pa hpa d₁ hm => exact ⟨none, rfl, nofun⟩
  | case6 i d hlt pte hne hpte pa hpa d₁ hm ih =>
      obtain ⟨mapped, d₂, hok, hround⟩ := mappages_mapped mem (v := { d with calls := d.calls + 1 })
        (pte.withPage pa) hi (hlt.trans h.size) hfree
      cases hm.symm.trans hok
      have hpage : pte.withPage pa ≠ .absent ∧ (pte.withPage pa).NonNull := by
        cases pte with
        | absent => exact absurd rfl hne
        | kernel _ => exact ⟨nofun, pa.2⟩
        | user _ => exact ⟨nofun, pa.2⟩
      exact ih (by rw [Nat.add_mod_right, hi]) (by omega) (hround.free hfree)
        (hround.nonNull hnn hpage.2) (hround.present hpage.1 hpresent)
  | case7 i d hge =>
      refine ⟨some d, rfl, ?_⟩
      rintro d' ⟨⟩
      have hround : i = pgRoundUp p.sz := by
        have := pgRoundUp_le h.size hi (not_lt.mp hge)
        have := le_pgRoundUp h.size
        have := pgRoundUp_mod p.sz
        simp only [pgsize] at *
        omega
      subst hround
      exact ⟨h.size, hfree, hnn, hpresent⟩

/-- **`copyuvm` does not panic**, and its copy agrees with the size of the original. -/
theorem copyuvm_agrees (mem : Kalloc) (h : Agrees p) :
    ∃ r, copyuvm mem p.dir p.sz = .ok r ∧ ∀ d, r = some d → Agrees ⟨p.sz, d.dir⟩ := by
  unfold copyuvm
  cases hkvm : setupkvm mem with
  | none => exact ⟨none, rfl, nofun⟩
  | some d =>
      have hspace := setupkvm_ok hkvm
      exact copyLoop_agrees h rfl (by simp [pgsize]) hspace.free hspace.nonNull
        fun va hva => absurd hva (Nat.not_lt_zero va)

/-- The loop over the program headers: a loaded image that lost no page has all its pages. -/
theorem loadSegs_present {f : File} {n off : Nat} (hv : SpaceOk v sz) {sz' : Nat} {v' : Space}
    (h : (loadSegs f mem n off sz v).1 = .loaded sz' v') :
    SpaceOk v' sz' ∧ v.lost ≤ v'.lost ∧
      (v'.lost = v.lost → PresentBelow v.dir (pgRoundUp sz) →
        PresentBelow v'.dir (pgRoundUp sz')) := by
  induction n generalizing off sz v with
  | zero =>
      cases h
      exact ⟨hv, le_rfl, fun _ hpresent => hpresent⟩
  | succ n ih =>
      obtain hr | hr | ⟨ph, sz₁, v₁, -, -, -, halloc, h0, hv₁, hr⟩ := loadSegs_succ f mem n off hv
      · rw [hr] at h
        cases h
      · rw [hr] at h
        exact ih hv h
      · obtain ⟨sz₂, v₂, hok, hspec⟩ := allocuvm_allocated mem (u32 (ph.vaddr + ph.memsz)) hv
        cases halloc.symm.trans hok
        -- `exec` goes on only after a call of `loaduvm` that succeeds
        have hrest : (loadSegs f mem n (u32 (off + Proghdr.sizeof)) sz₁ v₁).1 = .loaded sz' v' := by
          rw [hr] at h
          cases hend : (loaduvm f v₁.dir ph.vaddr ph.off ph.filesz).1 <;> rw [hend] at h
          · exact h
          · cases h
          · cases h
          · cases h
        obtain ⟨hspace, hle, hpresent⟩ := ih hv₁ hrest
        have hle₁ := hspec.lost
        refine ⟨hspace, hle₁.trans hle, fun hlost hv => hpresent (by omega) ?_⟩
        exact hspec.present (by omega) h0 hv

theorem execLoad_present {f : File} (h : (execLoad f mem).1 = .loaded sz v) :
    SpaceOk v sz ∧ (v.lost = 0 → PresentBelow v.dir (pgRoundUp sz)) := by
  obtain hr | ⟨n, off, v₀, hv₀, hlost₀, hr⟩ := execLoad_cases f mem
  · rw [hr] at h
    cases h
  · rw [hr] at h
    obtain ⟨hspace, -, hpresent⟩ := loadSegs_present hv₀ h
    refine ⟨hspace, fun hlost => hpresent (by omega) fun va hva => ?_⟩
    exact absurd hva (Nat.not_lt_zero va)

/-- An address in the page whose entry is set, or another one. -/
theorem walkpgdir_setPte {dir : Dir} {uva : Nat} {old : Pte} (h : walkpgdir dir uva = some old)
    (pte : Pte) (va : Nat) :
    (walkpgdir (setPte dir uva pte) va = some pte ∧ walkpgdir dir va = some old) ∨
      walkpgdir (setPte dir uva pte) va = walkpgdir dir va := by
  by_cases hsame : pdx va = pdx uva ∧ ptx va = ptx uva
  · refine .inl ⟨walkpgdir_setPte_self h hsame.1 hsame.2, ?_⟩
    rw [walkpgdir, hsame.1, hsame.2]
    exact h
  · exact .inr (walkpgdir_setPte_other hsame)

/-- The page that is made inaccessible stays there. -/
theorem clearpteu_agrees {dir : Dir} {uva : Nat} (h : Agrees p) (hclear : clearpteu p.dir uva = .ok dir) :
    Agrees ⟨p.sz, dir⟩ := by
  unfold clearpteu at hclear
  split at hclear
  · cases hclear
  · rename_i pa hpte
    cases hclear
    have hwalk := walkpgdir_setPte hpte (.kernel pa)
    refine ⟨h.size, fun va pte hva hk hw => ?_, fun va pte hk hw => ?_, fun va hva => ?_⟩
    · obtain ⟨-, hold⟩ | heq := hwalk va
      · cases h.free va _ hva hk hold
      · exact h.free va pte hva hk (heq ▸ hw)
    · obtain ⟨hnew, hold⟩ | heq := hwalk va
      · cases hw.symm.trans hnew
        have hpa : (Pte.user pa).NonNull := h.nonNull va _ hk hold
        exact hpa
      · exact h.nonNull va pte hk (heq ▸ hw)
    · obtain ⟨hnew, -⟩ | heq := hwalk va
      · exact ⟨_, hnew, nofun⟩
      · rw [heq]
        exact h.present va hva
  · cases hclear
    exact h

theorem kernbase_le_stack (hsz : sz < kernbase) (h : kernbase ≤ pgRoundUp sz) :
    kernbase ≤ u32 (pgRoundUp sz + 2 * pgsize) := by
  have hround := pgRoundUp_lt hsz
  simp only [u32, kernbase, pgsize] at *
  omega

theorem execStack_agrees {args : List Nat} (hspace : SpaceOk v sz)
    (hpresent : PresentBelow v.dir (pgRoundUp sz))
    (hlost : ∀ sz' v', allocuvm mem v (pgRoundUp sz) (u32 (pgRoundUp sz + 2 * pgsize)) =
      .ok (sz', v') → v'.lost = v.lost) {sz' : Nat} {v' : Space}
    (h : execStack mem sz v args = .ok (some (sz', v'))) : Agrees ⟨sz', v'.dir⟩ := by
  unfold execStack at h
  by_cases hfit : pgRoundUp sz < kernbase
  · have hidem : pgRoundUp (pgRoundUp sz) = pgRoundUp sz :=
      le_antisymm (pgRoundUp_le hfit (pgRoundUp_mod sz) le_rfl) (le_pgRoundUp hfit)
    have hspace' : SpaceOk v (pgRoundUp sz) := ⟨hfit, by rw [hidem]; exact hspace.free, hspace.nonNull⟩
    obtain ⟨sz₁, v₁, halloc, hspec⟩ :=
      allocuvm_allocated mem (u32 (pgRoundUp sz + 2 * pgsize)) hspace'
    have hlost := hlost sz₁ v₁ halloc
    simp only [halloc] at h
    split at h
    · cases h
    · rename_i h0
      have hok := hspec.space h0
      have hagrees : Agrees ⟨sz₁, v₁.dir⟩ := ⟨hok.size, hok.free, hok.nonNull,
        hspec.present hlost h0 (by rw [hidem]; exact hpresent)⟩
      split at h
      · cases h
      · rename_i dir hclear
        split at h
        · cases h
        · cases h
        · cases h
          exact clearpteu_agrees hagrees hclear
  · -- an image up to `KERNBASE` leaves no room for the stack
    have hbig := kernbase_le_stack hspace.size (not_lt.mp hfit)
    have hfail : allocuvm mem v (pgRoundUp sz) (u32 (pgRoundUp sz + 2 * pgsize)) = .ok (0, v) :=
      if_pos hbig
    rw [hfail] at h
    cases h

/-- **`exec`** of an image that loses no page: the new process agrees. -/
theorem exec_agrees {f : File} {args : List Nat} (h : Agrees p)
    (hlost : ∀ sz v, (execLoad f mem).1 = .loaded sz v → v.lost = 0 ∧
      ∀ sz' v', allocuvm mem v (pgRoundUp sz) (u32 (pgRoundUp sz + 2 * pgsize)) = .ok (sz', v') →
        v'.lost = 0) {r : Int} {p' : Proc} (hexec : exec mem p f args = .ok (some (r, p'))) :
    Agrees p' := by
  unfold exec at hexec
  split at hexec
  · cases hexec
  · cases hexec
  · cases hexec
    exact h
  · rename_i sz v hload
    obtain ⟨hspace, hpresent⟩ := execLoad_present hload
    obtain ⟨hlost, hstack⟩ := hlost sz v hload
    split at hexec
    · cases hexec
    · cases hexec
      exact h
    · rename_i sz' v' hs
      cases hexec
      refine execStack_agrees hspace (hpresent hlost) (fun sz₁ v₁ halloc => ?_) hs
      rw [hstack sz₁ v₁ halloc, hlost]

end Agree

end Xv6.Vm
