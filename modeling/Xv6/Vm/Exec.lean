import Xv6.Lib.Bytes
import Xv6.Vm.Paging

/-!
# Vm — the loading phase of `exec`

`exec` from the check of the ELF header to the end of its loop over the program headers, and
`loaduvm`.  The file is its contents: `readi` here is the byte-array reading of a regular file.

The trace of a loading phase is its calls of `loaduvm`, each with the directory and size it finds
and the stores it makes.
-/

namespace Xv6.Vm
open Lib

/-! ### The file -/

/-- The contents of an inode: at most `MAXFILE * BSIZE` bytes. -/
structure File where
  contents : List UInt8
  bound : contents.length ≤ 140 * 512

/-- The size of the file. -/
def File.size (f : File) : Nat := f.contents.length

/-- `readi`: the bytes read, or `none` for `-1`. -/
def File.readi (f : File) (off n : Nat) : Option (List UInt8) :=
  if off > f.size ∨ u32 (off + n) < off then none
  else
    let n := if off + n > f.size then f.size - off else n
    some ((f.contents.drop off).take n)

/-- The fields of `struct elfhdr` that `exec` looks at while loading. -/
structure Elfhdr where
  magic : Nat
  phoff : Nat
  phnum : Nat

def Elfhdr.sizeof : Nat := 52

def Elfhdr.ofBytes (bs : List UInt8) : Elfhdr := ⟨field bs 0 4, field bs 28 4, field bs 44 2⟩

/-- The fields of `struct proghdr` that `exec` looks at. -/
structure Proghdr where
  type : Nat
  off : Nat
  vaddr : Nat
  filesz : Nat
  memsz : Nat
  deriving DecidableEq, Repr

def Proghdr.sizeof : Nat := 32

def Proghdr.ofBytes (bs : List UInt8) : Proghdr :=
  ⟨field bs 0 4, field bs 4 4, field bs 8 4, field bs 16 4, field bs 20 4⟩

def elfMagic : Nat := 0x464C457F

def elfProgLoad : Nat := 1

/-! ### `loaduvm` -/

/-- A byte stored at virtual address `va`, through the page table entry `pte`. -/
structure Store where
  va : Nat
  pte : Pte
  deriving DecidableEq, Repr

/-- How `loaduvm` ends; `looping` when its loop needs more rounds than it was given. -/
inductive LoadEnd where
  | done
  | failed
  | panic (why : Panic)
  | looping
  deriving DecidableEq, Repr

/-- `n`: the bytes of the round at `i`. -/
def roundLen (sz i : Nat) : Nat := if sz - i < pgsize then sz - i else pgsize

/-- `loaduvm`'s loop, from `i` on. -/
def loadLoop (f : File) (dir : Dir) (addr off sz : Nat) : Nat → Nat → LoadEnd × List Store
  | 0, _ => (.looping, [])
  | rounds + 1, i =>
      if i < sz then
        match walkpgdir dir (u32 (addr + i)) with
        | none => (.panic .shouldExist, [])
        | some pte =>
            match f.readi (u32 (off + i)) (roundLen sz i) with
            | none => (.failed, [])
            | some bytes =>
                let stores := (List.range bytes.length).map fun k => ⟨u32 (addr + i) + k, pte⟩
                if bytes.length ≠ roundLen sz i then (.failed, stores)
                else
                  let (r, rest) := loadLoop f dir addr off sz rounds (u32 (i + pgsize))
                  (r, stores ++ rest)
      else (.done, [])

/-- More rounds than `loaduvm` can make: it stops at the first page the file has not all of. -/
def File.rounds (f : File) : Nat := f.size / pgsize + 2

def loaduvm (f : File) (dir : Dir) (addr off sz : Nat) : LoadEnd × List Store :=
  if addr % pgsize ≠ 0 then (.panic .unaligned, []) else loadLoop f dir addr off sz f.rounds 0

/-! ### `exec` -/

/-- A call of `loaduvm`: the program header, the directory and size before it, and the stores. -/
structure Call where
  ph : Proghdr
  dir : Dir
  sz : Nat
  stores : List Store

/-- How the loading phase ends. -/
inductive Outcome where
  /-- the loop over the program headers is done -/
  | loaded (sz : Nat) (v : Space)
  /-- `exec` returns `-1` -/
  | failed
  | panic (why : Panic)
  | looping

/-- How `exec` goes on after a call of `loaduvm`, where `rest` is the loop from the next program
header on. -/
def afterLoad (c : Call) (r : LoadEnd) (rest : Outcome × List Call) : Outcome × List Call :=
  match r with
  | .done => (rest.1, c :: rest.2)
  | .failed => (.failed, [c])
  | .panic p => (.panic p, [c])
  | .looping => (.looping, [c])

/-- The loop over the program headers, `n` of them to come, the next at `off`. -/
def loadSegs (f : File) (mem : Kalloc) : Nat → Nat → Nat → Space → Outcome × List Call
  | 0, _, sz, v => (.loaded sz v, [])
  | n + 1, off, sz, v =>
      match f.readi off Proghdr.sizeof with
      | none => (.failed, [])
      | some bs =>
          let ph := Proghdr.ofBytes bs
          if bs.length ≠ Proghdr.sizeof then (.failed, [])
          else if ph.type ≠ elfProgLoad then loadSegs f mem n (u32 (off + Proghdr.sizeof)) sz v
          else if ph.memsz < ph.filesz then (.failed, [])
          else
            match allocuvm mem v sz (u32 (ph.vaddr + ph.memsz)) with
            | .error p => (.panic p, [])
            | .ok (sz, v) =>
                if sz = 0 then (.failed, [])
                else
                  let (r, stores) := loaduvm f v.dir ph.vaddr ph.off ph.filesz
                  afterLoad ⟨ph, v.dir, sz, stores⟩ r
                    (loadSegs f mem n (u32 (off + Proghdr.sizeof)) sz v)

/-- The loading phase of `exec`.  `readi` from offset `0` does not fail. -/
def execLoad (f : File) (mem : Kalloc) : Outcome × List Call :=
  let bs := (f.readi 0 Elfhdr.sizeof).getD []
  let elf := Elfhdr.ofBytes bs
  if bs.length < Elfhdr.sizeof then (.failed, [])
  else if elf.magic ≠ elfMagic then (.failed, [])
  else
    match setupkvm mem with
    | none => (.failed, [])
    | some v => loadSegs f mem elf.phnum elf.phoff 0 v

/-! ### What the loading phase is to do -/

/-- A store inside its segment and inside the image, to the user page mapped there. -/
structure StoreOk (c : Call) (st : Store) : Prop where
  low : c.ph.vaddr ≤ st.va
  high : st.va < c.ph.vaddr + c.ph.filesz
  image : st.va < c.sz
  kernel : st.va < kernbase
  mapped : ∃ pa, st.pte = .user pa ∧ walkpgdir c.dir st.va = some (.user pa)

/-- The loading phase ends, with or without success, and stores only into the new image. -/
structure Safe (r : Outcome × List Call) : Prop where
  ends : r.1 = .failed ∨ ∃ sz v, r.1 = .loaded sz v
  aligned : ∀ c ∈ r.2, c.ph.vaddr % pgsize = 0
  stores : ∀ c ∈ r.2, ∀ st ∈ c.stores, StoreOk c st

/-- How many bytes the file has for a segment. -/
def File.has (f : File) (ph : Proghdr) : Nat := min ph.filesz (f.size - ph.off)

/-- What `loaduvm` asks for: the address is page-aligned; the bytes the file has for the segment
end inside the image; and each page it comes to has a page table, with a user page mapped where
bytes are stored. -/
structure CallOk (f : File) (c : Call) : Prop where
  aligned : c.ph.vaddr % pgsize = 0
  inside : ∀ k < f.has c.ph, c.ph.vaddr + k < c.sz
  walks : ∀ j, j * pgsize < c.ph.filesz → j * pgsize ≤ f.has c.ph →
    ∃ pte, walkpgdir c.dir (u32 (c.ph.vaddr + j * pgsize)) = some pte ∧
      (j * pgsize < f.has c.ph → ∃ pa, pte = .user pa)

/-! ### One page -/

theorem u32_of_lt {x : Nat} (h : x < 2 ^ 32) : u32 x = x := Nat.mod_eq_of_lt h

theorem walkpgdir_add {dir : Dir} {a k : Nat} (ha : a % pgsize = 0) (hk : k < pgsize) :
    walkpgdir dir (a + k) = walkpgdir dir a := by
  have hd : pdx (a + k) = pdx a := by
    simp only [pdx, pgsize] at *
    omega
  have ht : ptx (a + k) = ptx a := by
    simp only [ptx, pgsize] at *
    omega
  rw [walkpgdir, walkpgdir, hd, ht]

theorem length_readi {f : File} {off n : Nat} (hoff : off ≤ f.size) (hn : off + n < 2 ^ 32) :
    ∃ bytes, f.readi off n = some bytes ∧ bytes.length = min n (f.size - off) := by
  have hcond : ¬ (off > f.size ∨ u32 (off + n) < off) := by
    rw [u32_of_lt hn]
    omega
  rw [File.readi, if_neg hcond]
  refine ⟨_, rfl, ?_⟩
  have hlen : f.contents.length = f.size := rfl
  simp only [List.length_take, List.length_drop, hlen]
  by_cases h : off + n > f.size
  · rw [if_pos h]
    omega
  · rw [if_neg h]

/-- The bytes of page `j` of a segment that the file has. -/
def pageBytes (f : File) (ph : Proghdr) (j : Nat) : Nat := min pgsize (f.has ph - j * pgsize)

/-- Page `j` of a segment is where its bytes go. -/
structure PageOk (f : File) (c : Call) (j : Nat) : Prop where
  inside : ∀ k < pageBytes f c.ph j, c.ph.vaddr + j * pgsize + k < c.sz
  walks : ∃ pte, walkpgdir c.dir (u32 (c.ph.vaddr + j * pgsize)) = some pte ∧
    (0 < pageBytes f c.ph j → ∃ pa, pte = .user pa)

/-- The stores of one page are fine exactly when it is mapped inside the image. -/
theorem stores_iff {f : File} {c : Call} {j : Nat} {pte : Pte}
    (hfilesz : c.ph.filesz < 2 ^ 32) (hal : c.ph.vaddr % pgsize = 0) (hsz : c.sz < kernbase)
    (hw : walkpgdir c.dir (u32 (c.ph.vaddr + j * pgsize)) = some pte) :
    (∀ k < pageBytes f c.ph j, StoreOk c ⟨u32 (c.ph.vaddr + j * pgsize) + k, pte⟩) ↔
      PageOk f c j := by
  have hhas : f.has c.ph ≤ c.ph.filesz := min_le_left _ _
  constructor
  · intro h
    refine ⟨fun k hk => ?_, pte, hw, fun h0 => ?_⟩
    · obtain ⟨hlow, -, himage, -, -⟩ := h k hk
      -- an address that wrapped is below the segment
      simp only [pageBytes, u32] at *
      omega
    · obtain ⟨-, -, -, -, pa, hpa, -⟩ := h 0 h0
      exact ⟨pa, hpa⟩
  · rintro ⟨hin, pte', hw', huser⟩ k hk
    obtain rfl : pte = pte' := Option.some.inj (hw.symm.trans hw')
    obtain ⟨pa, rfl⟩ := huser (Nat.zero_lt_of_lt hk)
    have hk' := hin k hk
    have hlt : c.ph.vaddr + j * pgsize < 2 ^ 32 := by
      simp only [kernbase] at hsz
      omega
    rw [u32_of_lt hlt] at hw ⊢
    have hpage : k < pgsize := hk.trans_le (min_le_left _ _)
    refine ⟨by simp only; omega, ?_, hk', hk'.trans hsz, pa, rfl, ?_⟩
    · simp only [pageBytes] at hk ⊢
      omega
    · rw [walkpgdir_add (by rw [Nat.add_mul_mod_self_right]; exact hal) hpage]
      exact hw

/-! ### The loop over the pages -/

/-- An end of `loaduvm` and stores that are fine. -/
def Fine (c : Call) (r : LoadEnd × List Store) : Prop :=
  (r.1 = .done ∨ r.1 = .failed) ∧ ∀ st ∈ r.2, StoreOk c st

/-- The pages of a segment from `j` on are where their bytes go. -/
def PagesOk (f : File) (c : Call) (j : Nat) : Prop :=
  ∀ i, j ≤ i → i * pgsize < c.ph.filesz → i * pgsize ≤ f.has c.ph → PageOk f c i

theorem pagesOk_succ {f : File} {c : Call} {j : Nat} (hlt : j * pgsize < c.ph.filesz)
    (hle : j * pgsize ≤ f.has c.ph) :
    PagesOk f c j ↔ PageOk f c j ∧ PagesOk f c (j + 1) := by
  refine ⟨fun h => ⟨h j le_rfl hlt hle, fun i hi => h i (Nat.le_of_succ_le hi)⟩, fun h i hi => ?_⟩
  rcases Nat.eq_or_lt_of_le hi with rfl | hi
  · exact fun _ _ => h.1
  · exact h.2 i hi

theorem pagesOk_of_lt {f : File} {c : Call} {j : Nat} (h : f.has c.ph < j * pgsize) :
    PagesOk f c j := by
  intro i hi _ hle
  exact absurd (h.trans_le (Nat.mul_le_mul_right pgsize hi)) (not_lt.mpr hle)

theorem readi_of_gt {f : File} {off n : Nat} (h : f.size < off) : f.readi off n = none :=
  if_pos (.inl h)

theorem roundLen_eq (sz i : Nat) : roundLen sz i = min pgsize (sz - i) := by
  unfold roundLen
  split <;> omega

/-- The reading of page `j`, when the file has all the bytes before it. -/
theorem readi_page {f : File} {ph : Proghdr} {j : Nat} (hoff : ph.off ≤ f.size)
    (hj : j * pgsize ≤ f.has ph) :
    ∃ bytes, f.readi (u32 (ph.off + j * pgsize)) (roundLen ph.filesz (j * pgsize)) = some bytes ∧
      bytes.length = pageBytes f ph j := by
  have hbound : f.size ≤ 140 * 512 := f.bound
  have hpg : pgsize = 4096 := rfl
  have hn := roundLen_eq ph.filesz (j * pgsize)
  have hsum : ph.off + j * pgsize ≤ f.size := by
    simp only [File.has] at hj
    omega
  rw [u32_of_lt (by omega)]
  obtain ⟨bytes, hb, hlen⟩ := length_readi (n := roundLen ph.filesz (j * pgsize)) hsum (by omega)
  refine ⟨bytes, hb, hlen.trans ?_⟩
  simp only [pageBytes, File.has]
  omega

theorem fine_append {c : Call} {st : List Store} {r : LoadEnd × List Store} :
    Fine c (r.1, st ++ r.2) ↔ (∀ x ∈ st, StoreOk c x) ∧ Fine c r := by
  simp only [Fine, List.mem_append, or_imp, forall_and]
  exact and_left_comm

theorem loadLoop_done {f : File} {dir : Dir} {addr off sz rounds i : Nat} (hr : rounds ≠ 0)
    (hi : ¬ i < sz) : loadLoop f dir addr off sz rounds i = (.done, []) := by
  obtain ⟨rounds, rfl⟩ := Nat.exists_eq_succ_of_ne_zero hr
  rw [loadLoop, if_neg hi]

/-- **The loop of `loaduvm`**, from page `j`, to which the file has all the bytes before. -/
theorem loadLoop_iff {f : File} {c : Call} (hoff : c.ph.off < 2 ^ 32)
    (hfilesz : c.ph.filesz < 2 ^ 32) (hal : c.ph.vaddr % pgsize = 0) (hsz : c.sz < kernbase)
    {rounds j : Nat} (hrounds : f.size / pgsize + 2 ≤ rounds + j)
    (hj : j * pgsize ≤ f.has c.ph) :
    Fine c (loadLoop f c.dir c.ph.vaddr c.ph.off c.ph.filesz rounds (j * pgsize)) ↔
      PagesOk f c j := by
  induction rounds generalizing j with
  | zero =>
      have hsize : f.has c.ph ≤ f.size := (min_le_right _ _).trans (Nat.sub_le _ _)
      have : j ≤ f.size / pgsize := (Nat.le_div_iff_mul_le (by decide)).mpr (hj.trans hsize)
      omega
  | succ rounds ih =>
      rw [loadLoop]
      by_cases hlt : j * pgsize < c.ph.filesz
      · rw [if_pos hlt, pagesOk_succ hlt hj]
        cases hw : walkpgdir c.dir (u32 (c.ph.vaddr + j * pgsize)) with
        | none =>
            refine ⟨fun h => absurd h.1 (by simp), fun h => ?_⟩
            obtain ⟨pte, hpte, -⟩ := h.1.walks
            rw [hw] at hpte
            cases hpte
        | some pte =>
            have hpage := stores_iff (f := f) hfilesz hal hsz hw
            by_cases hsize : c.ph.off ≤ f.size
            · obtain ⟨bytes, hb, hlen⟩ := readi_page hsize hj
              simp only [hb, hlen]
              have hstores : (∀ st ∈ (List.range (pageBytes f c.ph j)).map
                  fun k => (⟨u32 (c.ph.vaddr + j * pgsize) + k, pte⟩ : Store), StoreOk c st) ↔
                    PageOk f c j := by
                rw [← hpage]
                simp
              have hrounds' : rounds ≠ 0 := by
                have hsize : f.has c.ph ≤ f.size := (min_le_right _ _).trans (Nat.sub_le _ _)
                have : j ≤ f.size / pgsize :=
                  (Nat.le_div_iff_mul_le (by decide)).mpr (hj.trans hsize)
                omega
              have hn := roundLen_eq c.ph.filesz (j * pgsize)
              have hhas : f.has c.ph ≤ c.ph.filesz := min_le_left _ _
              have hcap : f.has c.ph ≤ 140 * 512 :=
                ((min_le_right _ _).trans (Nat.sub_le _ _)).trans f.bound
              have hpg : pgsize = 4096 := rfl
              have hbytes : pageBytes f c.ph j = min pgsize (f.has c.ph - j * pgsize) := rfl
              by_cases hshort : pageBytes f c.ph j ≠ roundLen c.ph.filesz (j * pgsize)
              · -- the file ends in this page
                rw [if_pos hshort, Fine, hstores]
                refine ⟨fun h => ⟨h.2, pagesOk_of_lt ?_⟩, fun h => ⟨.inr rfl, h.1⟩⟩
                rw [Nat.succ_mul]
                omega
              · have hnext : u32 (j * pgsize + pgsize) = (j + 1) * pgsize := by
                  rw [Nat.succ_mul]
                  exact u32_of_lt (by omega)
                rw [if_neg hshort, hnext]
                have hrest : Fine c (loadLoop f c.dir c.ph.vaddr c.ph.off c.ph.filesz rounds
                    ((j + 1) * pgsize)) ↔ PagesOk f c (j + 1) := by
                  by_cases hmore : (j + 1) * pgsize ≤ f.has c.ph
                  · exact ih (by omega) hmore
                  · -- that was the last page
                    have hend : ¬ (j + 1) * pgsize < c.ph.filesz := by
                      rw [Nat.succ_mul] at hmore ⊢
                      omega
                    refine ⟨fun _ => pagesOk_of_lt (not_le.mp hmore), fun _ => ?_⟩
                    rw [loadLoop_done hrounds' hend]
                    exact ⟨.inl rfl, fun st hst => by cases hst⟩
                rw [fine_append, hstores, hrest]
            · -- the segment starts after the end of the file
              have hhas : f.has c.ph = 0 := by
                simp only [File.has]
                omega
              obtain rfl : j = 0 := by
                simp only [pgsize] at hj
                omega
              have hnone : f.readi (u32 (c.ph.off + 0 * pgsize))
                  (roundLen c.ph.filesz (0 * pgsize)) = none := by
                rw [Nat.zero_mul, Nat.add_zero, u32_of_lt hoff]
                exact readi_of_gt (not_le.mp hsize)
              simp only [hnone]
              refine ⟨fun _ => ⟨?_, pagesOk_of_lt ?_⟩, fun _ => ⟨.inr rfl, fun st hst => ?_⟩⟩
              · refine hpage.mp fun k hk => ?_
                simp [pageBytes, hhas] at hk
              · rw [hhas]
                decide
              · cases hst
      · rw [if_neg hlt]
        refine ⟨fun _ i hi hi' => ?_, fun _ => ⟨.inl rfl, fun st hst => by cases hst⟩⟩
        exact absurd (hi'.trans_le (not_lt.mp hlt))
          (not_lt.mpr (Nat.mul_le_mul_right pgsize hi))

/-! ### A call of `loaduvm` -/

theorem pagesOk_zero_iff {f : File} {c : Call} (hal : c.ph.vaddr % pgsize = 0) :
    PagesOk f c 0 ↔ CallOk f c := by
  have hhas : f.has c.ph ≤ c.ph.filesz := min_le_left _ _
  have hpg : pgsize = 4096 := rfl
  constructor
  · intro h
    refine ⟨hal, fun k hk => ?_, fun j hlt hle => ?_⟩
    · have hdiv := Nat.div_add_mod k pgsize
      have hmod := Nat.mod_lt k (show 0 < pgsize by decide)
      rw [Nat.mul_comm] at hdiv
      have hpage := (h (k / pgsize) (Nat.zero_le _) (by omega) (by omega)).inside (k % pgsize)
        (by simp only [pageBytes]; omega)
      omega
    · obtain ⟨pte, hw, huser⟩ := (h j (Nat.zero_le _) hlt hle).walks
      exact ⟨pte, hw, fun hj => huser (by simp only [pageBytes]; omega)⟩
  · intro h j _ hlt hle
    refine ⟨fun k hk => ?_, ?_⟩
    · have := h.inside (j * pgsize + k) (by simp only [pageBytes] at hk; omega)
      omega
    · obtain ⟨pte, hw, huser⟩ := h.walks j hlt hle
      exact ⟨pte, hw, fun h0 => huser (by simp only [pageBytes] at h0; omega)⟩

/-- **A call of `loaduvm` is fine exactly when it gets what it asks for.** -/
theorem loaduvm_iff {f : File} {c : Call} (hoff : c.ph.off < 2 ^ 32)
    (hfilesz : c.ph.filesz < 2 ^ 32) (hsz : c.sz < kernbase) :
    c.ph.vaddr % pgsize = 0 ∧ Fine c (loaduvm f c.dir c.ph.vaddr c.ph.off c.ph.filesz) ↔
      CallOk f c := by
  by_cases hal : c.ph.vaddr % pgsize = 0
  · have hloop := loadLoop_iff (f := f) (j := 0) hoff hfilesz hal hsz (Nat.le_refl f.rounds)
      (by rw [Nat.zero_mul]; exact Nat.zero_le _)
    rw [Nat.zero_mul, pagesOk_zero_iff hal] at hloop
    rw [loaduvm, if_neg (not_not.mpr hal)]
    exact (and_iff_right hal).trans hloop
  · exact ⟨fun h => absurd h.1 hal, fun h => absurd h.aligned hal⟩

/-! ### The loading phase -/

theorem safe_nil {o : Outcome} : Safe (o, []) ↔ o = .failed ∨ ∃ sz dir, o = .loaded sz dir := by
  refine ⟨fun h => h.ends, fun h => ⟨h, ?_, ?_⟩⟩
  · intro c hc
    cases hc
  · intro c hc
    cases hc

theorem safe_cons {o : Outcome} {c : Call} {cs : List Call} :
    Safe (o, c :: cs) ↔
      (c.ph.vaddr % pgsize = 0 ∧ ∀ st ∈ c.stores, StoreOk c st) ∧ Safe (o, cs) := by
  constructor
  · rintro ⟨hends, hal, hst⟩
    exact ⟨⟨hal c List.mem_cons_self, hst c List.mem_cons_self⟩, hends,
      fun c' h => hal c' (List.mem_cons_of_mem c h), fun c' h => hst c' (List.mem_cons_of_mem c h)⟩
  · rintro ⟨⟨hal, hst⟩, hends, hal', hst'⟩
    exact ⟨hends, List.forall_mem_cons.mpr ⟨hal, hal'⟩, List.forall_mem_cons.mpr ⟨hst, hst'⟩⟩

/-- A round of the loop over the program headers: `exec` fails, or goes on with the next header,
or makes a call of `loaduvm` in the address space that `allocuvm` leaves. -/
theorem loadSegs_succ (f : File) (mem : Kalloc) (n off : Nat) {sz : Nat} {v : Space}
    (hv : SpaceOk v sz) :
    loadSegs f mem (n + 1) off sz v = (.failed, []) ∨
    loadSegs f mem (n + 1) off sz v = loadSegs f mem n (u32 (off + Proghdr.sizeof)) sz v ∨
    ∃ ph sz' v', ph.off < 2 ^ 32 ∧ ph.filesz < 2 ^ 32 ∧ ph.filesz ≤ ph.memsz ∧
      allocuvm mem v sz (u32 (ph.vaddr + ph.memsz)) = .ok (sz', v') ∧ sz' ≠ 0 ∧ SpaceOk v' sz' ∧
      loadSegs f mem (n + 1) off sz v =
        afterLoad ⟨ph, v'.dir, sz', (loaduvm f v'.dir ph.vaddr ph.off ph.filesz).2⟩
          (loaduvm f v'.dir ph.vaddr ph.off ph.filesz).1
          (loadSegs f mem n (u32 (off + Proghdr.sizeof)) sz' v') := by
  simp only [loadSegs]
  cases hread : f.readi off Proghdr.sizeof with
  | none => exact .inl rfl
  | some bs =>
      simp only
      split
      · exact .inl rfl
      · split
        · exact .inr (.inl rfl)
        · split
          · exact .inl rfl
          · rename_i hmemsz
            obtain ⟨sz', v', halloc, hok⟩ := allocuvm_ok mem
              (u32 ((Proghdr.ofBytes bs).vaddr + (Proghdr.ofBytes bs).memsz)) hv
            simp only [halloc]
            split
            · exact .inl rfl
            · rename_i hne
              exact .inr (.inr ⟨_, sz', v', field_lt bs 4 4, field_lt bs 16 4, not_lt.mp hmemsz,
                halloc, hne, hok hne, rfl⟩)

/-- The loop over the program headers. -/
theorem loadSegs_iff {f : File} {mem : Kalloc} {n off sz : Nat} {v : Space} (hv : SpaceOk v sz) :
    Safe (loadSegs f mem n off sz v) ↔ ∀ c ∈ (loadSegs f mem n off sz v).2, CallOk f c := by
  induction n generalizing off sz v with
  | zero => simp [loadSegs, safe_nil]
  | succ n ih =>
      obtain hr | hr | ⟨ph, sz', v', hoff, hfilesz, -, -, -, hv', hr⟩ :=
        loadSegs_succ f mem n off hv
      · rw [hr]
        simp [safe_nil]
      · rw [hr]
        exact ih hv
      · rw [hr]
        have hcall := loaduvm_iff (f := f)
          (c := ⟨ph, v'.dir, sz', (loaduvm f v'.dir ph.vaddr ph.off ph.filesz).2⟩)
          hoff hfilesz hv'.size
        simp only [Fine] at hcall
        cases hend : (loaduvm f v'.dir ph.vaddr ph.off ph.filesz).1 with
        | done =>
            rw [afterLoad, safe_cons, List.forall_mem_cons, ← hcall, ih hv']
            simp [hend]
        | failed => simp [afterLoad, safe_cons, safe_nil, ← hcall, hend]
        | panic p => simp [afterLoad, safe_cons, safe_nil, ← hcall, hend]
        | looping => simp [afterLoad, safe_cons, safe_nil, ← hcall, hend]

/-- The loading phase fails at once, or goes through the program headers in a directory that maps
nothing below `KERNBASE`. -/
theorem execLoad_cases (f : File) (mem : Kalloc) :
    execLoad f mem = (.failed, []) ∨
      ∃ n off v, SpaceOk v 0 ∧ v.lost = 0 ∧ execLoad f mem = loadSegs f mem n off 0 v := by
  simp only [execLoad]
  split
  · exact .inl rfl
  · split
    · exact .inl rfl
    · cases hkvm : setupkvm mem with
      | none => exact .inl rfl
      | some v => exact .inr ⟨_, _, v, setupkvm_ok hkvm, setupkvm_lost hkvm, rfl⟩

/-- **The loading phase ends and stores only into the new image exactly when each call of `loaduvm`
gets what it asks for.** -/
theorem execLoad_safe_iff (f : File) (mem : Kalloc) :
    Safe (execLoad f mem) ↔ ∀ c ∈ (execLoad f mem).2, CallOk f c := by
  obtain hr | ⟨n, off, v, hv, -, hr⟩ := execLoad_cases f mem
  · rw [hr]
    simp [safe_nil]
  · rw [hr]
    exact loadSegs_iff hv

/-! ### With memory to spare -/

section Memory
variable {f : File} {mem : Kalloc} (hmem : ∀ k, (mem k).isSome)

/-- What holds of each call of `loaduvm` when `kalloc` does not fail. -/
structure Provided (c : Call) : Prop where
  filesz : c.ph.filesz ≤ c.ph.memsz
  image : u32 (c.ph.vaddr + c.ph.memsz) ≤ c.sz
  mapped : MappedBelow c.dir c.sz

theorem provided_afterLoad {c : Call} {r : LoadEnd} {rest : Outcome × List Call} (hc : Provided c)
    (hrest : ∀ c ∈ rest.2, Provided c) : ∀ c' ∈ (afterLoad c r rest).2, Provided c' := by
  cases r with
  | done => exact List.forall_mem_cons.mpr ⟨hc, hrest⟩
  | failed => exact List.forall_mem_singleton.mpr hc
  | panic p => exact List.forall_mem_singleton.mpr hc
  | looping => exact List.forall_mem_singleton.mpr hc

include hmem

theorem loadSegs_provided {n off sz : Nat} {v : Space} (hv : SpaceOk v sz)
    (hmap : MappedBelow v.dir (pgRoundUp sz)) :
    ∀ c ∈ (loadSegs f mem n off sz v).2, Provided c := by
  induction n generalizing off sz v with
  | zero =>
      intro c hc
      cases hc
  | succ n ih =>
      obtain hr | hr | ⟨ph, sz', v', -, -, hmemsz, halloc, hne, hv', hr⟩ :=
        loadSegs_succ f mem n off hv
      · intro c hc
        rw [hr] at hc
        cases hc
      · rw [hr]
        exact ih hv hmap
      · have hnew : u32 (ph.vaddr + ph.memsz) < kernbase := by
          by_contra hge
          rw [allocuvm, if_pos (not_lt.mp hge)] at halloc
          cases halloc
          exact hne rfl
        obtain ⟨v₁, hv₁, hmap₁⟩ := allocuvm_mapped hmem hv hmap hnew
        rw [hv₁] at halloc
        cases halloc
        rw [hr]
        have hmapped := hmap₁.mono (le_pgRoundUp hv'.size)
        exact provided_afterLoad ⟨hmemsz, le_max_right _ _, hmapped⟩ (ih hv' hmap₁)

omit hmem in
theorem Provided.callOk {c : Call} (h : Provided c) (hal : c.ph.vaddr % pgsize = 0)
    (hwrap : c.ph.vaddr + c.ph.memsz < 2 ^ 32) : CallOk f c := by
  have himage := h.image
  rw [u32_of_lt hwrap] at himage
  have hhas : f.has c.ph ≤ c.ph.filesz := min_le_left _ _
  have hfilesz := h.filesz
  refine ⟨hal, fun k hk => by omega, fun j hj _ => ?_⟩
  rw [u32_of_lt (by omega)]
  obtain ⟨pa, hpa⟩ := h.mapped (c.ph.vaddr + j * pgsize) (by omega)
  exact ⟨.user pa, hpa, fun _ => ⟨pa, rfl⟩⟩

/-- With memory to spare, page-aligned segments that do not wrap are enough. -/
theorem execLoad_safe (h : ∀ c ∈ (execLoad f mem).2,
    c.ph.vaddr % pgsize = 0 ∧ c.ph.vaddr + c.ph.memsz < 2 ^ 32) : Safe (execLoad f mem) := by
  obtain hr | ⟨n, off, v, hv, -, hr⟩ := execLoad_cases f mem
  · rw [hr]
    exact safe_nil.mpr (.inl rfl)
  · rw [hr] at h ⊢
    have hmap : MappedBelow v.dir (pgRoundUp 0) := fun va hva => absurd hva (Nat.not_lt_zero va)
    refine (loadSegs_iff hv).mpr fun c hc => ?_
    exact (loadSegs_provided hmem hv hmap c hc).callOk (h c hc).1 (h c hc).2

end Memory

/-! ### Two bad executables -/

/-- The ELF header of an executable of one segment. -/
def headerBytes : List UInt8 :=
  bytesLE 4 elfMagic ++ List.replicate 24 0 ++ bytesLE 4 52 ++ List.replicate 12 0 ++
    bytesLE 2 1 ++ List.replicate 6 0

/-- The program header of a segment for the first 16 bytes of the file. -/
def segmentBytes (vaddr memsz : Nat) : List UInt8 :=
  bytesLE 4 elfProgLoad ++ bytesLE 4 0 ++ bytesLE 4 vaddr ++ bytesLE 4 vaddr ++
    bytesLE 4 16 ++ bytesLE 4 memsz ++ bytesLE 4 7 ++ bytesLE 4 pgsize

def oneSegment (vaddr memsz : Nat) : File where
  contents := headerBytes ++ segmentBytes vaddr memsz
  bound := by simp [headerBytes, segmentBytes]

/-- Memory to spare. -/
def spare : Kalloc := fun k => some ⟨(k + 1) * pgsize, by simp [pgsize]⟩

theorem setupkvm_spare : setupkvm spare = some ⟨kernelDir, 65, 0⟩ := by
  rw [setupkvm, if_pos]
  simp [spare]

/-- A page-aligned segment. -/
theorem oneSegment_safe : Safe (execLoad (oneSegment 0 16) spare) :=
  execLoad_safe (fun _ => rfl) (by decide +kernel)

theorem execLoad_oneSegment (vaddr memsz : Nat) :
    execLoad (oneSegment vaddr memsz) spare =
      loadSegs (oneSegment vaddr memsz) spare 1 52 0 ⟨kernelDir, 65, 0⟩ := by
  have hread : (oneSegment vaddr memsz).readi 0 Elfhdr.sizeof = some headerBytes := rfl
  have hlen : headerBytes.length = Elfhdr.sizeof := rfl
  have hhdr : Elfhdr.ofBytes headerBytes = ⟨elfMagic, 52, 1⟩ := by
    simp only [Elfhdr.ofBytes, Elfhdr.mk.injEq]
    decide
  simp only [execLoad, setupkvm_spare, hread, Option.getD_some, hlen, hhdr, lt_irrefl, if_false,
    ne_eq, not_true_eq_false]

/-- The segment reaches `loaduvm`, in an image that ends at its 32-bit end. -/
theorem oneSegment_call (vaddr memsz : Nat)
    (hph : Proghdr.ofBytes (segmentBytes vaddr memsz) = ⟨elfProgLoad, 0, vaddr, 16, memsz⟩)
    (hmemsz : 16 ≤ memsz) (hpos : 0 < u32 (vaddr + memsz)) (hnew : u32 (vaddr + memsz) < kernbase) :
    ∃ c ∈ (loadSegs (oneSegment vaddr memsz) spare 1 52 0 ⟨kernelDir, 65, 0⟩).2,
      c.ph = ⟨elfProgLoad, 0, vaddr, 16, memsz⟩ ∧ c.sz = u32 (vaddr + memsz) := by
  have hread : (oneSegment vaddr memsz).readi 52 Proghdr.sizeof =
      some (segmentBytes vaddr memsz) := rfl
  have hlen : (segmentBytes vaddr memsz).length = Proghdr.sizeof := rfl
  obtain ⟨v, halloc, -⟩ := allocuvm_mapped (fun k => rfl : ∀ k, (spare k).isSome)
    (setupkvm_ok setupkvm_spare) (fun va hva => absurd hva (Nat.not_lt_zero va)) hnew
  rw [Nat.zero_max] at halloc
  simp only [loadSegs, hread, hlen, hph, halloc, ne_eq, not_true_eq_false, if_false,
    not_lt.mpr hmemsz, hpos.ne']
  generalize loaduvm _ _ _ _ _ = r
  obtain ⟨e, stores⟩ := r
  refine ⟨⟨_, v.dir, _, stores⟩, ?_, rfl, rfl⟩
  cases e <;> exact List.mem_cons_self

/-- `exec` panics on a segment that is not page-aligned, and stores at `KERNBASE` for a segment
there whose end wraps to the first page. -/
theorem execLoad_unaligned_wraps :
    ¬ Safe (execLoad (oneSegment 1 16) spare) ∧
      ¬ Safe (execLoad (oneSegment kernbase (kernbase + 16)) spare) := by
  rw [execLoad_oneSegment, execLoad_oneSegment]
  constructor
  · intro hsafe
    obtain ⟨c, hc, hph, -⟩ := oneSegment_call 1 16 (by decide) (by decide)
      (by decide) (by decide)
    have hal := hsafe.aligned c hc
    rw [hph] at hal
    exact absurd hal (by decide)
  · intro hsafe
    obtain ⟨c, hc, hph, hsz⟩ := oneSegment_call kernbase (kernbase + 16)
      (by decide) (by decide) (by decide) (by decide)
    have hok := (loadSegs_iff (setupkvm_ok setupkvm_spare)).mp hsafe c hc
    have hin := hok.inside 0 (by rw [hph]; decide)
    rw [hph, hsz] at hin
    exact absurd hin (by decide)

end Xv6.Vm
