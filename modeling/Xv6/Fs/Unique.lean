import Xv6.Fs.Steps

/-!
# Fs — names in a directory

No two entries in use of a directory are for the same name, where names are compared as `namecmp`
compares them: at most `DIRSIZ` bytes, up to a NUL.  The names of `dirlookup` are cut to `DIRSIZ` by
`skipelem` and padded with NULs by `strncpy`; so `namecmp` finds a name that was entered
(`namecmp_entered`), and `dirlink` enters only names that are not found.
-/

namespace Xv6.Fs
open Lib Lib.Prog

/-- `strncmp`, on bytes that end in a NUL or are as many as are compared. -/
def strncmp : Nat → List UInt8 → List UInt8 → Int
  | 0, _, _ => 0
  | n + 1, p, q =>
      if p.headD 0 ≠ 0 ∧ p.headD 0 = q.headD 0 then strncmp n p.tail q.tail
      else (p.headD 0).toNat - (q.headD 0).toNat

def namecmp (s t : List UInt8) : Int := strncmp dirsiz s t

theorem strncmp_eq_zero {n : Nat} {p q : List UInt8} :
    strncmp n p q = 0 ↔ cstr (p.take n) = cstr (q.take n) := by
  induction n generalizing p q with
  | zero => simp [strncmp]
  | succ n ih =>
      have hzero : ∀ x y : UInt8, (x.toNat : Int) - y.toNat = 0 ↔ x = y := by
        intro x y
        rw [sub_eq_zero, Nat.cast_inj, UInt8.toNat_inj]
      rw [strncmp]
      split
      · rename_i h
        obtain ⟨h0, heq⟩ := h
        rw [ih]
        cases p with
        | nil => exact absurd rfl h0
        | cons x p =>
            cases q with
            | nil => exact absurd heq h0
            | cons y q =>
                cases show x = y from heq
                have hx : x ≠ 0 := h0
                simp [cstr, hx]
      · rename_i h
        rw [hzero]
        cases p with
        | nil =>
            cases q with
            | nil => simp
            | cons y q =>
                by_cases hy : y = 0
                · simp [cstr, hy]
                · simp [cstr, hy, Ne.symm hy]
        | cons x p =>
            by_cases hx : x = 0
            · cases q with
              | nil => simp [cstr, hx]
              | cons y q =>
                  by_cases hy : y = 0
                  · simp [cstr, hx, hy]
                  · simp [cstr, hx, hy, Ne.symm hy]
            · have hne : x ≠ q.headD 0 := fun heq => h ⟨hx, heq⟩
              cases q with
              | nil => simp [cstr, hx]
              | cons y q =>
                  have hxy : x ≠ y := hne
                  by_cases hy : y = 0
                  · simp [cstr, hx, hy]
                  · simp [cstr, hx, hy, hxy]

/-- The bytes of the name of entry `k`. -/
def nameBytes (data : List UInt8) (k : Nat) : List UInt8 := ((entryBytes data k).drop 2).take dirsiz

/-- Two entries in use have different names. -/
def Unique (data : List UInt8) : Prop :=
  ∀ (j k : Nat) (de de' : Dirent), (entries data)[j]? = some de → (entries data)[k]? = some de' →
    de.inum ≠ 0 → de'.inum ≠ 0 → de.name = de'.name → j = k

section Unique
variable {L : Layout} {k : Nat} {data data' name : List UInt8} {de : Dirent}

/-- `namecmp` compares the names of entries. -/
theorem namecmp_entries {j k : Nat} {de de' : Dirent} (hj : (entries data)[j]? = some de)
    (hk : (entries data)[k]? = some de') :
    namecmp (nameBytes data j) (nameBytes data k) = 0 ↔ de.name = de'.name := by
  have hname : ∀ {i : Nat} {de : Dirent}, (entries data)[i]? = some de →
      cstr ((nameBytes data i).take dirsiz) = de.name := by
    intro i de hi
    have hlt := (List.getElem?_eq_some_iff.mp hi).1
    rw [length_entries] at hlt
    rw [getElem?_entries hlt] at hi
    cases hi
    rw [nameBytes, List.take_take, min_self]
    rfl
  rw [namecmp, strncmp_eq_zero, hname hj, hname hk]

/-- `dirlookup`'s comparison of a name from a path with the name of an entry. -/
theorem namecmp_entered (hname : Named name) (hk : (entries data)[k]? = some de) :
    namecmp name (nameBytes data k) = 0 ↔ name = de.name := by
  have hlt := (List.getElem?_eq_some_iff.mp hk).1
  rw [length_entries] at hlt
  rw [getElem?_entries hlt] at hk
  cases hk
  have hself : cstr name = name := by
    refine List.takeWhile_eq_self_iff.mpr fun b hb => ?_
    rw [decide_eq_true_eq]
    rintro rfl
    exact hname.nul hb
  rw [namecmp, strncmp_eq_zero, List.take_of_length_le hname.length, hself, nameBytes,
    List.take_take, min_self]
  rfl

/-- One entry is written, for no inode or for a name that no other entry in use is for. -/
theorem Unique.putEntry (h : Unique data) (hk : k ≤ (entries data).length)
    (hentries : entries data' = Fs.putEntry (entries data) k de)
    (hnew : de.inum ≠ 0 → ∀ e ∈ entries data, e.inum ≠ 0 → e.name ≠ de.name) : Unique data' := by
  intro i j d₁ d₂ hi hj h₁ h₂ hname
  rw [hentries, getElem?_putEntry hk] at hi hj
  split at hi
  · rename_i hik
    cases hi
    split at hj
    · rename_i hjk
      rw [hik, hjk]
    · exact absurd hname.symm (hnew h₁ d₂ (List.mem_of_getElem? hj) h₂)
  · split at hj
    · cases hj
      exact absurd hname (hnew h₂ d₁ (List.mem_of_getElem? hi) h₁)
    · exact h i j d₁ d₂ hi hj h₁ h₂ hname

theorem Unique.enter (h : Unique data) (he : Entered data de data') : Unique data' := by
  obtain ⟨hname, habsent, k, hfits, -, rfl⟩ := he
  refine h.putEntry hfits.le_length (entries_overwrite hfits length_dirent_bytes)
    fun _ e hmem hlive => ?_
  rw [name_ofBytes_bytes hname]
  exact habsent.name e hmem hlive

theorem Unique.clear (h : Unique data) (hfits : Fits data k) : Unique (cleared data k) :=
  h.putEntry hfits.le_length (entries_cleared hfits) fun h0 => absurd rfl h0

theorem unique_nil : Unique [] := fun _ _ _ _ h => by simp [entries] at h

/-- Directories without a name twice. -/
def unique (L : Layout) : Dirs L where
  Ok _ nd := InRange L nd ∧ (nd.type = tDir → Unique nd.data)
  range h := h.1
  file ht := ⟨fun h => absurd h ht, fun h => absurd h ht⟩
  nlink _ h := h
  enter h hinum he := ⟨h.1.enter hinum he, fun ht => (h.2 ht).enter he⟩
  clear {i _ _ _ _} h hf hdot hdotdot := ⟨(inRange L).clear (i := i) h.1 hf hdot hdotdot,
    fun ht => (h.2 ht).clear hf.fits⟩
  dots {_ _ n _ _} h0 hi hd0 hd he he' :=
    ⟨(inRange L).dots (n := n) h0 hi hd0 hd he he', fun _ => (unique_nil.enter he).enter he'⟩

/-- **Names.**  From a well-formed image whose directories have no name twice, in every state that
processes get to by taking turns, no two entries in use of a directory have names that are equal for
`namecmp`. -/
theorem names_unique {c c' : Conc} {es : List (Nat × Op)} (h : Formed (unique L) c.fs)
    (hrun : runs turn c es = some c') :
    ∀ d dnd, node L c'.fs d = some dnd → dnd.type = tDir → ∀ (j k : Nat) (de de' : Dirent),
      (entries dnd.data)[j]? = some de → (entries dnd.data)[k]? = some de' → de.inum ≠ 0 →
      de'.inum ≠ 0 → namecmp (nameBytes dnd.data j) (nameBytes dnd.data k) = 0 → j = k := by
  have hD : ∀ i n, (unique L).Ok i ⟨tDir, n, []⟩ :=
    fun _ _ => ⟨fun _ de hde => by simp [entries] at hde, fun _ => unique_nil⟩
  have hformed := h.turns hD hrun
  intro d dnd hd ht j k de de' hj hk h₁ h₂ hcmp
  exact (hformed.sound.dirs d dnd hd).2 ht j k de de' hj hk h₁ h₂ ((namecmp_entries hj hk).mp hcmp)

end Unique

theorem unique_rootNode : (unique smallLayout).Ok rootino rootNode := by
  refine ⟨inRange_rootNode, fun _ j k de de' hj hk _ _ hname => ?_⟩
  rw [rootNode, entries_root] at hj hk
  have hlt := (List.getElem?_eq_some_iff.mp hj).1
  have hlt' := (List.getElem?_eq_some_iff.mp hk).1
  simp only [List.length_cons, List.length_nil] at hlt hlt'
  interval_cases j <;> interval_cases k <;> cases hj <;> cases hk <;> first | rfl | cases hname

/-- Both processes enter the same name, cut to `DIRSIZ`; the second finds it. -/
def twoLinks : List (Nat × Op) :=
  [(1, .ilock rootSlot), (1, .dirlink rootSlot (List.replicate 14 97) 2), (1, .iunlock rootSlot),
    (2, .ilock rootSlot), (2, .dirlink rootSlot (List.replicate 14 97) 3), (2, .iunlock rootSlot)]

theorem twoLinks_unique : ∃ c', runs turn ⟨smallState, fun _ => none⟩ twoLinks = some c' ∧
    ∀ d dnd, node smallLayout c'.fs d = some dnd → dnd.type = tDir → ∀ (j k : Nat) (de de' : Dirent),
      (entries dnd.data)[j]? = some de → (entries dnd.data)[k]? = some de' → de.inum ≠ 0 →
      de'.inum ≠ 0 → namecmp (nameBytes dnd.data j) (nameBytes dnd.data k) = 0 → j = k := by
  have hsome : (runs turn ⟨smallState, fun _ => none⟩ twoLinks).isSome = true := by
    decide +kernel
  obtain ⟨c', hrun⟩ := Option.isSome_iff_exists.mp hsome
  exact ⟨c', hrun, names_unique (small_sound unique_rootNode).formed hrun⟩

end Xv6.Fs
