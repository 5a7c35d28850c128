import Xv6.Fs.Held

/-!
# Fs — lookups

What the directory layer does to the nodes and the references.  A lookup takes references on its way
and drops them, and dropping one can free an inode.  It frees none when the nodes are *firm*: every
entry is for a node, so is every reference, and a node without links is one that others refer to
(`Firm`).  From firm nodes a lookup changes nothing (`Quiet`), and `ilock` finds a type.

The specifications hold of any nodes.  What they say of firm nodes is said under a proposition `F`,
which stands for "the nodes were firm when the call began".
-/

namespace Xv6.Fs
open Lib Lib.Prog

/-- Somebody has a reference to inode `i`, which was read. -/
def Held (H : Slot → Int) (s : State) (i : Nat) : Prop :=
  ∃ jp, 0 < H jp ∧ (s.icache jp).inum = i ∧ (s.icache jp).valid = true

/-- References are to nodes, and a node without links is one somebody refers to. -/
structure Refs (L : Layout) (H : Slot → Int) (s : State) : Prop where
  dead : ∀ i nd, node L s i = some nd → nd.nlink = 0 → Held H s i
  held : ∀ jp, 0 < H jp → node L s (s.icache jp).inum ≠ none

structure Firm (L : Layout) (H : Slot → Int) (s : State) : Prop extends Refs L H s where
  closed : ∀ d nd, node L s d = some nd → nd.type = tDir → ∀ de ∈ entries nd.data, de.inum ≠ 0 →
    node L s de.inum ≠ none
  root : node L s rootino ≠ none

/-- The nodes that are there were there, with these bytes. -/
def Kept (f f' : Nat → Option Node) : Prop :=
  ∀ i nd', f' i = some nd' → ∃ nd, f i = some nd ∧ nd'.type = nd.type ∧ nd'.data = nd.data

/-- The entries `H` refers to stay, and nodes go at the most; given `F`, none does. -/
structure Quiet (F : Prop) (L : Layout) (H : Slot → Int) (s s' : State) : Prop where
  keep : Keep L H s s'
  kept : Kept (node L s) (node L s')
  nodes : F → node L s' = node L s

/-- How a call may stop: not in `bfree`, and not in `ilock` for want of a type, given `F`. -/
def Fine (F : Prop) (e : Stop) : Prop := e ≠ .freeingFree ∧ (e = .noType → ¬ F)

section Quiet
variable {F : Prop} {L : Layout} {D : Dirs L} {H H' : Slot → Int} {s s' s'' : State} {ip jp : Slot} {i d : Nat}
  {nd : Node} {e : Stop}

theorem Fine.of_ne (h : e ≠ .freeingFree) (h' : e ≠ .noType) : Fine F e := ⟨h, fun he => absurd he h'⟩

theorem Fine.of_true (h : Fine True e) : Fine F e := ⟨h.1, fun he => absurd trivial (h.2 he)⟩

theorem Held.keep (h : Held H s i) (hk : Keep L H s s') : Held H s' i := by
  obtain ⟨jp, hjp, hinum, hv⟩ := h
  exact ⟨jp, hjp, (hk.inum jp hjp).trans hinum, hk.valid jp hjp hv⟩

theorem Held.mono (h : Held H s i) (hle : ∀ jp, H jp ≤ H' jp) : Held H' s i := by
  obtain ⟨jp, hjp, hinum, hv⟩ := h
  exact ⟨jp, hjp.trans_le (hle jp), hinum, hv⟩

/-- The entry that others refer to is the one the caller has. -/
theorem Held.ref_ne_zero (h : Held H s i) (hs : Sound D (plus H ip) s)
    (hi : (s.icache ip).inum = i) (h0 : 0 ≤ H ip) : H ip ≠ 0 := by
  obtain ⟨jp, hjp, hinum, -⟩ := h
  have heq : jp = ip := by
    refine hs.good.uniq jp ip (hs.ref_pos (hjp.trans_le (le_plus ip jp))) (hs.ref_pos ?_)
      (hinum.trans hi.symm)
    rw [plus_self]
    omega
  rw [heq] at hjp
  exact hjp.ne'

/-- What may become of inode `j`: it does not lose its links unnoticed, and does not go while it is
referred to. -/
structure Passes (L : Layout) (H : Slot → Int) (s s' : State) (j : Nat) (r : Option Node) : Prop where
  dead : ∀ nd', r = some nd' → nd'.nlink = 0 → Held H s' j ∨ ∃ nd, node L s j = some nd ∧ nd.nlink = 0
  gone : r = none → node L s j = none ∨ ∀ jp, 0 < H jp → (s'.icache jp).inum ≠ j

theorem Passes.of_eq {r : Option Node} (h : r = node L s i) : Passes L H s s' i r where
  dead nd' hr hz := .inr ⟨nd', h ▸ hr, hz⟩
  gone hr := .inl (h ▸ hr)

/-- A node with the links of the one it was. -/
theorem Passes.of_nlink {nd' : Node} (hi : node L s i = some nd) (h : nd'.nlink = 0 → nd.nlink = 0) :
    Passes L H s s' i (some nd') where
  dead _ hr hz := .inr ⟨nd, hi, by cases hr; exact h hz⟩
  gone hr := by cases hr

theorem Passes.of_ne_zero (h : nd.nlink ≠ 0) : Passes L H s s' i (some nd) where
  dead _ hr hz := by
    cases hr
    exact absurd hz h
  gone hr := by cases hr

theorem Refs.of_nodes (h : Refs L H s) (hk : Keep L H s s')
    (hn : ∀ j, Passes L H s s' j (node L s' j)) : Refs L H s' where
  dead j nd' hj hz := by
    obtain hheld | ⟨nd, hnd, hz'⟩ := (hn j).dead nd' hj hz
    · exact hheld
    · exact (h.dead j nd hnd hz').keep hk
  held jp hjp hj := by
    obtain hj' | hj' := (hn _).gone hj
    · rw [hk.inum jp hjp] at hj'
      exact h.held jp hjp hj'
    · exact hj' jp hjp rfl

/-- The calls change two nodes. -/
theorem Refs.of_updates {r r' : Option Node} (h : Refs L H s) (hk : Keep L H s s')
    (hn : node L s' = Function.update (Function.update (node L s) i r) d r')
    (hi : Passes L H s s' i r) (hd : Passes L H s s' d r') : Refs L H s' := by
  refine h.of_nodes hk fun j => ?_
  rw [hn]
  by_cases hjd : j = d
  · subst hjd
    rwa [Function.update_self]
  · rw [Function.update_of_ne hjd]
    by_cases hji : j = i
    · subst hji
      rwa [Function.update_self]
    · exact .of_eq (Function.update_of_ne hji _ _)

/-- A reference more, to a node. -/
theorem Refs.plus (h : Refs L H s) (hip : node L s (s.icache ip).inum ≠ none) :
    Refs L (plus H ip) s where
  dead i nd hi h0 := (h.dead i nd hi h0).mono (le_plus ip)
  held jp hjp := by
    by_cases heq : jp = ip
    · rw [heq]
      exact hip
    · rw [plus_of_ne heq] at hjp
      exact h.held jp hjp

theorem Refs.keep (h : Refs L H s) (hk : Keep L H s s') (hn : node L s' = node L s) : Refs L H s' :=
  h.of_nodes hk fun j => .of_eq (congrFun hn j)

namespace Firm

theorem keep (h : Firm L H s) (hk : Keep L H s s') (hn : node L s' = node L s) : Firm L H s' where
  closed := by
    rw [hn]
    exact h.closed
  toRefs := h.toRefs.keep hk hn
  root := by
    rw [hn]
    exact h.root

theorem plus (h : Firm L H s) (hip : node L s (s.icache ip).inum ≠ none) :
    Firm L (plus H ip) s := ⟨h.toRefs.plus hip, h.closed, h.root⟩

/-- The link count of a node somebody refers to may be any. -/
theorem setNlink (h : Firm L H s) (hk : Keep L H s s') (hi : node L s i = some nd)
    (hheld : Held H s i) {n : UInt16}
    (hn : node L s' = Function.update (node L s) i (some { nd with nlink := n })) :
    Firm L H s' := by
  have hnone : ∀ j, node L s' j = none ↔ node L s j = none := by
    intro j
    rw [hn]
    by_cases hj : j = i
    · subst hj
      simp [hi]
    · rw [Function.update_of_ne hj]
  refine ⟨⟨fun j jnd hj h0 => ?_, fun jp hjp => ?_⟩, fun d dnd hd ht de hde h0 => ?_, ?_⟩
  · rw [hn] at hj
    by_cases hji : j = i
    · rw [hji]
      exact hheld.keep hk
    · rw [Function.update_of_ne hji] at hj
      exact (h.dead j jnd hj h0).keep hk
  · rw [ne_eq, hnone, hk.inum jp hjp]
    exact h.held jp hjp
  · rw [ne_eq, hnone]
    rw [hn] at hd
    by_cases hdi : d = i
    · subst hdi
      rw [Function.update_self] at hd
      cases hd
      exact h.closed d nd hi ht de hde h0
    · rw [Function.update_of_ne hdi] at hd
      exact h.closed d dnd hd ht de hde h0
  · rw [ne_eq, hnone]
    exact h.root

end Firm

namespace Kept
variable {f f' f'' : Nat → Option Node}

theorem of_eq (h : f' = f) : Kept f f' := fun i nd' hi => ⟨nd', by rw [← h]; exact hi, rfl, rfl⟩

theorem trans (h : Kept f f') (h' : Kept f' f'') : Kept f f'' := by
  intro i nd'' hi''
  obtain ⟨nd', hi', ht', hd'⟩ := h' i nd'' hi''
  obtain ⟨nd, hi, ht, hd⟩ := h i nd' hi'
  exact ⟨nd, hi, ht'.trans ht, hd'.trans hd⟩

/-- Node `i` goes, or changes but for its bytes. -/
theorem update {r : Option Node} (hr : ∀ nd', r = some nd' → ∃ nd, f i = some nd ∧
    nd'.type = nd.type ∧ nd'.data = nd.data) : Kept f (Function.update f i r) := by
  intro j nd' hj
  by_cases hji : j = i
  · subst hji
    rw [Function.update_self] at hj
    exact hr nd' hj
  · rw [Function.update_of_ne hji] at hj
    exact ⟨nd', hj, rfl, rfl⟩

theorem setNlink (n : UInt16) (hi : f i = some nd) :
    Kept f (Function.update f i (some { nd with nlink := n })) := by
  refine update ?_
  rintro nd' ⟨⟩
  exact ⟨nd, hi, rfl, rfl⟩

end Kept

theorem kept_of_ite {f f' : Nat → Option Node} {c : Prop} [Decidable c]
    (h : f' = if c then Function.update f i none else f) : Kept f f' := by
  split at h
  · rw [h]
    exact .update nofun
  · exact .of_eq h

theorem PutNodes.kept (h : PutNodes L H s ip s') : Kept (node L s) (node L s') := by
  obtain ⟨hn, -⟩ | ⟨-, -, hn⟩ := h
  · exact .of_eq hn
  · rw [hn]
    exact .update nofun

namespace Quiet

theorem of_eq (hk : Keep L H s s') (hn : node L s' = node L s) : Quiet F L H s s' :=
  ⟨hk, .of_eq hn, fun _ => hn⟩

theorem refl : Quiet F L H s s := .of_eq .refl rfl

theorem trans (h : Quiet F L H s s') (h' : Quiet F L H s' s'') : Quiet F L H s s'' :=
  ⟨h.keep.trans h'.keep, h.kept.trans h'.kept, fun hF => (h'.nodes hF).trans (h.nodes hF)⟩

theorem of_plus (h : Quiet F L (plus H ip) s s') : Quiet F L H s s' :=
  ⟨h.keep.of_plus, h.kept, h.nodes⟩

theorem firm (h : Quiet F L H s s') (hF : F → Firm L H s) (f : F) : Firm L H s' :=
  (hF f).keep h.keep (h.nodes f)

end Quiet

theorem fine_of_iput (h : e = .iputBusy) : Fine F e := by
  rw [h]
  exact .of_ne (by decide) (by decide)

theorem iput_quiet (h : Sound D (plus H ip) s) (h0 : 0 ≤ H ip) (hF : F → Firm L H s) :
    Wp (iput ip) s (· = .iputBusy) fun _ s' => Sound D H s' ∧ Quiet F L H s s' := by
  refine (iput_sound h h0).post ?_
  rintro - s' ⟨hs', hk, hput⟩
  refine ⟨hs', hk, hput.kept, fun f => ?_⟩
  obtain ⟨hn, -⟩ | ⟨hH, ⟨nd, hat, hnd⟩, -⟩ := hput
  · exact hn
  · exact absurd hH (((hF f).dead _ nd hat.node hnd).ref_ne_zero h rfl h0)

theorem fine_of_iunlockput (h : e = .iunlock ∨ e = .iputBusy) : Fine F e := by
  obtain rfl | rfl := h <;> exact .of_ne (by decide) (by decide)

theorem iunlockput_quiet (h : Sound D (plus H ip) s) (h0 : 0 ≤ H ip) (hat : At L s ip i nd)
    (hF : F → Firm L H s) :
    Wp (iunlockput ip) s (Fine F) fun _ s' => Sound D H s' ∧ Quiet F L H s s' := by
  refine (iunlockput_sound h h0 hat).mono (fun _ => fine_of_iunlockput) ?_
  rintro - s' ⟨hs', hk, hn⟩
  refine ⟨hs', hk, kept_of_ite hn, fun f => ?_⟩
  rw [hn, if_neg]
  rintro ⟨hH, hnd⟩
  exact ((hF f).dead i nd hat.node hnd).ref_ne_zero h hat.inum h0 hH

end Quiet

/-! ### The loops over a directory -/

section Loops
variable {L : Layout} {D : Dirs L} {H : Slot → Int} {s : State} {dp ip : Slot} {d k n : Nat} {nd : Node}
  {name : List UInt8}

theorem Sound.length_le (h : Sound D H s) (hat : At L s dp d nd) :
    nd.data.length ≤ maxfile * bsize := by
  obtain ⟨hd, ht, rfl⟩ := node_eq_some.mp hat.node
  rw [length_contents]
  exact (h.good.whole d hd ht).size

theorem readDirent_wp {why : Stop} (h : Sound D H s) (hdp : 0 < H dp) (hat : At L s dp d nd)
    (ht : nd.type = tDir) (hk : k ≤ maxfile * bsize) :
    Wp (readDirent dp (k * direntSize) why) s
      (fun e => e = why ∧ nd.data.length / direntSize ≤ k) fun de s' => s' = s ∧
        (entries nd.data)[k]? = some de := by
  have hoff : k * direntSize + direntSize < 2 ^ 32 := by
    simp only [maxfile, nindirect, ndirect, bsize, direntSize] at hk ⊢
    omega
  refine (readi_at h hdp hat (by rw [ht]; decide) (by omega) (by decide)).bind ?_
  rintro r s' ⟨rfl, rfl⟩
  by_cases hlen : k < nd.data.length / direntSize
  · have hle := Fits.le (.inl hlen)
    rw [if_neg (by omega)]
    have hbytes := length_entryBytes.mpr hlen
    rw [entryBytes] at hbytes
    simp only [if_pos hbytes]
    exact wp_pure.mpr ⟨rfl, getElem?_entries hlen⟩
  · split
    · exact wp_stop.mpr ⟨rfl, not_lt.mp hlen⟩
    · rename_i bs heq
      rw [if_neg]
      · exact wp_stop.mpr ⟨rfl, not_lt.mp hlen⟩
      · split at heq
        · cases heq
        · cases heq
          exact fun hbs => hlen (length_entryBytes.mp hbs)

theorem lookupLoop_wp (h : Sound D H s) (hdp : 0 < H dp) (hat : At L s dp d nd)
    (ht : nd.type = tDir) (hn : k + n ≤ maxfile * bsize) :
    Wp (lookupLoop dp name n (k * direntSize)) s (· = .dirlinkRead) fun r s' => s' = s ∧
      match r with
      | none => ∀ j, k ≤ j → j < k + n → ∃ de, (entries nd.data)[j]? = some de ∧
          (de.inum ≠ 0 → de.name ≠ name)
      | some (inum, off) => ∃ j de, FoundAt nd.data name j de ∧ inum = de.inum ∧
          off = j * direntSize ∧ ∀ i e, k ≤ i → i < j → (entries nd.data)[i]? = some e →
            e.inum ≠ 0 → e.name ≠ name := by
  induction n generalizing k with
  | zero => exact wp_pure.mpr ⟨rfl, fun j hj hlt => absurd hlt (by omega)⟩
  | succ n ih =>
      refine (readDirent_wp h hdp hat ht (by omega)).seq (fun _ he => he.1) ?_
      rintro de s' ⟨rfl, hde⟩
      split
      · rename_i hfound
        exact wp_pure.mpr ⟨rfl, k, de, ⟨hde, hfound.1, hfound.2.symm⟩, rfl, rfl,
          fun i e hi hlt => absurd hlt (not_lt.mpr hi)⟩
      · rename_i hnot
        rw [← Nat.succ_mul]
        refine (ih (by omega)).post ?_
        rintro r s' ⟨rfl, hr⟩
        refine ⟨rfl, ?_⟩
        cases r with
        | some r =>
            obtain ⟨j, e, hfound, hinum, hoff, hfirst⟩ := hr
            refine ⟨j, e, hfound, hinum, hoff, fun i e' hi hlt he' h0 hname => ?_⟩
            obtain rfl | hne := eq_or_ne i k
            · cases hde.symm.trans he'
              exact hnot ⟨h0, hname.symm⟩
            · exact hfirst i e' (by omega) hlt he' h0 hname
        | none =>
            intro j hj hlt
            obtain rfl | hne := eq_or_ne j k
            · exact ⟨de, hde, fun h0 hname => hnot ⟨h0, hname.symm⟩⟩
            · exact hr j (by omega) (by omega)

/-- A directory whose entries were all read consists of whole entries. -/
theorem size_of_rounds (h : ∀ j < rounds 0 nd.data.length, ∃ de, (entries nd.data)[j]? = some de) :
    nd.data.length % direntSize = 0 := by
  by_contra hne
  have hdiv := Nat.div_add_mod nd.data.length direntSize
  have hmod := Nat.mod_lt nd.data.length (show 0 < direntSize by decide)
  have hround : nd.data.length / direntSize < rounds 0 nd.data.length := by
    simp only [rounds, direntSize] at *
    omega
  obtain ⟨de, hde⟩ := h _ hround
  have := (List.getElem?_eq_some_iff.mp hde).1
  rw [length_entries] at this
  exact lt_irrefl _ this

theorem rounds_of_size (h : nd.data.length % direntSize = 0) :
    rounds 0 nd.data.length = nd.data.length / direntSize := by
  simp only [rounds, direntSize] at *
  omega

theorem rounds_le (h : Sound D H s) (hat : At L s dp d nd) :
    rounds 0 nd.data.length ≤ maxfile * bsize := by
  have := h.length_le hat
  simp only [rounds, direntSize, maxfile, nindirect, ndirect, bsize] at *
  omega

theorem dirlookup_sound (h : Sound D H s) (hdp : 0 < H dp) (hat : At L s dp d nd) :
    Wp (dirlookup dp name) s (fun e => e = .notDir ∨ e = .dirlinkRead ∨ e = .iget) fun r s' =>
      nd.type = tDir ∧ match r with
      | none => s' = s ∧ Absent nd.data name
      | some (ip, off) => ∃ k de, FoundAt nd.data name k de ∧ off = k * direntSize ∧
          Sound D (plus H ip) s' ∧ Keep L H s s' ∧ node L s' = node L s ∧
          (s'.icache ip).inum = de.inum ∧ lookup nd.data name = some de := by
  simp only [dirlookup, inode, wp_bind, wp_gets, hat.type, hat.size]
  split
  · exact wp_stop.mpr (.inl rfl)
  · rename_i ht
    rw [not_not] at ht
    rw [wp_bind]
    have hle : 0 + rounds 0 nd.data.length ≤ maxfile * bsize := by
      rw [Nat.zero_add]
      exact rounds_le h hat
    have hloop : Wp (lookupLoop dp name _ (0 * direntSize)) s _ _ := lookupLoop_wp h hdp hat ht hle
    rw [Nat.zero_mul] at hloop
    refine hloop.mono (fun _ he => .inr (.inl he)) ?_
    rintro r s' ⟨rfl, hr⟩
    cases r with
    | none =>
        have hread : ∀ j < rounds 0 nd.data.length, ∃ de, (entries nd.data)[j]? = some de ∧
            (de.inum ≠ 0 → de.name ≠ name) := fun j hj => hr j (Nat.zero_le j) (by omega)
        have hsize := size_of_rounds fun j hj => (hread j hj).imp fun _ hde => hde.1
        refine wp_pure.mpr ⟨ht, rfl, hsize, fun de hde => ?_⟩
        obtain ⟨j, hj⟩ := List.getElem?_of_mem hde
        have hlt := (List.getElem?_eq_some_iff.mp hj).1
        rw [length_entries, ← rounds_of_size hsize] at hlt
        obtain ⟨de', hde', hname⟩ := hread j hlt
        cases hj.symm.trans hde'
        exact hname
    | some r =>
        obtain ⟨inum, off⟩ := r
        obtain ⟨k, de, hfound, rfl, rfl, hfirst⟩ := hr
        have hlt := D.range (h.dirs d nd hat.node) ht de (List.mem_of_getElem? hfound.get)
        refine (iget_sound h (Nat.pos_of_ne_zero hfound.inum) hlt).seq
          (fun _ he => .inr (.inr he)) ?_
        rintro ip s' ⟨hs', hk, hn, hinum⟩
        exact wp_pure.mpr ⟨ht, k, de, hfound, rfl, hs', hk, hn, hinum,
          hfound.lookup fun j e hj => hfirst j e (Nat.zero_le j) hj⟩

/-- The first empty entry, or the end of a directory of whole entries. -/
theorem emptyLoop_wp (h : Sound D H s) (hdp : 0 < H dp) (hat : At L s dp d nd)
    (ht : nd.type = tDir) (hsize : nd.data.length % direntSize = 0)
    (hn : k + n = nd.data.length / direntSize) :
    Wp (emptyLoop dp n (k * direntSize)) s (· = .dirlinkRead) fun off s' => s' = s ∧
      ∃ j, off = j * direntSize ∧ Fits nd.data j ∧
        ∀ de, (entries nd.data)[j]? = some de → de.inum = 0 := by
  have hle : k + n ≤ maxfile * bsize := by
    have := h.length_le hat
    have := Nat.div_le_self nd.data.length direntSize
    omega
  induction n generalizing k with
  | zero =>
      refine wp_pure.mpr ⟨rfl, k, rfl, .inr ?_, fun de hde => ?_⟩
      · rw [← Nat.add_zero k, hn]
        exact Nat.div_mul_cancel (Nat.dvd_of_mod_eq_zero hsize)
      · have := (List.getElem?_eq_some_iff.mp hde).1
        rw [length_entries] at this
        omega
  | succ n ih =>
      refine (readDirent_wp h hdp hat ht (by omega)).seq (fun _ he => he.1) ?_
      rintro de s' ⟨rfl, hde⟩
      split
      · rename_i h0
        refine wp_pure.mpr ⟨rfl, k, rfl, .inl (by omega), fun de' hde' => ?_⟩
        cases hde.symm.trans hde'
        exact h0
      · rw [← Nat.succ_mul]
        exact ih (by omega) (by omega)

theorem isdiremptyLoop_wp (h : Sound D H s) (hdp : 0 < H dp) (hat : At L s dp d nd)
    (ht : nd.type = tDir) (hn : k + n ≤ maxfile * bsize)
    (hsize : nd.data.length % direntSize = 0 → n ≠ 0 → k + n ≤ nd.data.length / direntSize) :
    Wp (isdiremptyLoop dp n (k * direntSize)) s
      (fun e => e = .isdirempty ∧ nd.data.length % direntSize ≠ 0) fun b s' => s' = s ∧
        (b = true ↔ ∀ j de, k ≤ j → j < k + n → (entries nd.data)[j]? = some de → de.inum = 0) := by
  induction n generalizing k with
  | zero => exact wp_pure.mpr ⟨rfl, fun _ j _ hj hlt => absurd hlt (by omega), fun _ => rfl⟩
  | succ n ih =>
      refine (readDirent_wp h hdp hat ht (by omega)).seq (fun e he => ⟨he.1, fun h0 => ?_⟩) ?_
      · have := hsize h0 (Nat.succ_ne_zero n)
        omega
      rintro de s' ⟨rfl, hde⟩
      split
      · rename_i hlive
        refine wp_pure.mpr ⟨rfl, nofun, fun hall => absurd (hall k de le_rfl (by omega) hde) hlive⟩
      · rename_i h0
        rw [← Nat.succ_mul]
        refine (ih (by omega) fun h0 _ => ?_).post ?_
        · have := hsize h0 (Nat.succ_ne_zero n)
          omega
        rintro b s' ⟨rfl, hb⟩
        refine ⟨rfl, hb.trans ⟨fun hrest j de' hj hlt hde' => ?_, fun hall j de' hj hlt hde' => ?_⟩⟩
        · obtain rfl | hne := eq_or_ne j k
          · cases hde.symm.trans hde'
            exact not_not.mp h0
          · exact hrest j de' (by omega) (by omega) hde'
        · exact hall j de' (by omega) (by omega) hde'

/-- `isdirempty` of a directory of whole entries says whether there is an entry in use behind the first
two. -/
theorem isdirempty_wp (h : Sound D H s) (hdp : 0 < H dp) (hat : At L s dp d nd)
    (ht : nd.type = tDir) :
    Wp (isdirempty dp) s (fun e => e = .isdirempty ∧ nd.data.length % direntSize ≠ 0)
      fun b s' => s' = s ∧
        (b = true ↔ ∀ j de, 2 ≤ j → (entries nd.data)[j]? = some de → de.inum = 0) := by
  simp only [isdirempty, inode, wp_bind, wp_gets, hat.size]
  have hle := h.length_le hat
  refine (isdiremptyLoop_wp h hdp hat ht ?_ fun h0 hne => ?_).post ?_
  · simp only [rounds, direntSize, maxfile, nindirect, ndirect, bsize] at *
    omega
  · simp only [rounds, direntSize] at *
    omega
  · rintro b s' ⟨rfl, hb⟩
    refine ⟨rfl, hb.trans ⟨fun hall j de hj hde => hall j de hj ?_ hde,
      fun hall j de hj _ hde => hall j de hj hde⟩⟩
    have := (List.getElem?_eq_some_iff.mp hde).1
    rw [length_entries] at this
    simp only [rounds, direntSize] at *
    omega

end Loops

/-! ### `dirlink` -/

section Link
variable {F : Prop} {L : Layout} {D : Dirs L} {H : Slot → Int} {s : State} {dp ip : Slot} {d inum : Nat}
  {nd : Node} {name path : List UInt8} {de : Dirent}

/-- One entry of a directory is written. -/
theorem writeEntry_sound {k : Nat} {src : List UInt8} (h : Sound D H s) (hdp : 0 < H dp)
    (hat : At L s dp d nd) (ht : nd.type = tDir) (hfits : Fits nd.data k)
    (hsrc : src.length = direntSize)
    (hdir : D.Ok d { nd with data := overwrite nd.data (k * direntSize) src }) :
    Wp (writei dp (k * direntSize) src) s (· = .outOfBlocks) fun r s' => Sound D H s' ∧
      Keep L H s s' ∧ (r = none ∨ r = some direntSize ∧ node L s' = Function.update (node L s) d
        (some { nd with data := overwrite nd.data (k * direntSize) src })) := by
  have hoff : k * direntSize < 2 ^ 32 := by
    have hle := h.length_le hat
    have := hfits.le
    simp only [maxfile, nindirect, ndirect, bsize] at hle
    omega
  refine (writei_sound h hdp hat (by rw [ht]; decide) hoff (by rw [hsrc]; decide) hdir).post ?_
  rintro r s' ⟨hs', hk, ⟨rfl, -⟩ | ⟨rfl, -, hn⟩⟩
  · exact ⟨hs', hk, .inl rfl⟩
  · exact ⟨hs', hk, .inr ⟨by rw [hsrc], hn⟩⟩

theorem dirlink_sound (h : Sound D H s) (hdp : 0 < H dp) (hat : At L s dp d nd)
    (hinum : inum < L.ninodes) (hname : Named name) (hF : F → Firm L H s) :
    Wp (dirlink dp name inum) s (Fine True) fun r s' => nd.type = tDir ∧ Sound D H s' ∧
      match r with
      | false => Quiet F L H s s'
      | true => Keep L H s s' ∧ Absent nd.data name ∧ ∃ k, Fits nd.data k ∧
          (∀ de, (entries nd.data)[k]? = some de → de.inum = 0) ∧
          node L s' = Function.update (node L s) d (some { nd with
            data := overwrite nd.data (k * direntSize) (Dirent.bytes ⟨inum, name⟩) }) := by
  refine (dirlookup_sound h hdp hat).seq ?_ ?_
  · rintro e (rfl | rfl | rfl) <;> exact .of_ne (by decide) (by decide)
  rintro r s₁ ⟨ht, hr⟩
  cases r with
  | some r =>
      obtain ⟨ip, off⟩ := r
      obtain ⟨k, de, hfound, rfl, hs₁, hk, hn, -⟩ := hr
      have hq : Quiet F L H s s₁ := .of_eq hk hn
      refine (iput_quiet hs₁ (h.nonneg ip) (hq.firm hF)).seq (fun _ => fine_of_iput) ?_
      rintro - s₂ ⟨hs₂, hq₂⟩
      exact wp_pure.mpr ⟨ht, hs₂, hq.trans hq₂⟩
  | none =>
      obtain ⟨rfl, habsent⟩ := hr
      simp only [inode, wp_bind, wp_gets, hat.size, rounds_of_size habsent.size]
      have hloop : Wp (emptyLoop dp _ (0 * direntSize)) s₁ _ _ :=
        emptyLoop_wp h hdp hat ht habsent.size (Nat.zero_add _)
      rw [Nat.zero_mul] at hloop
      refine hloop.mono (fun e he => .of_ne (by rw [he]; decide) (by rw [he]; decide)) ?_
      rintro off s' ⟨rfl, k, rfl, hfits, hempty⟩
      have hdir : D.Ok d { nd with
          data := overwrite nd.data (k * direntSize) (Dirent.bytes ⟨inum, name⟩) } :=
        D.enter (h.dirs d nd hat.node) (show (⟨inum, name⟩ : Dirent).inum < L.ninodes from hinum)
          ⟨hname, habsent, k, hfits, hempty, rfl⟩
      refine (writeEntry_sound h hdp hat ht hfits length_dirent_bytes hdir).mono
        (fun e he => .of_ne (by rw [he]; decide) (by rw [he]; decide)) ?_
      rintro r s₂ ⟨hs₂, hk, rfl | ⟨rfl, hn⟩⟩
      · exact wp_stop.mpr (.of_ne (by decide) (by decide))
      · rw [if_pos rfl]
        exact wp_pure.mpr ⟨ht, hs₂, hk, habsent, k, hfits, hempty, hn⟩

end Link

/-! ### Paths -/

section Path
variable {F : Prop} {L : Layout} {D : Dirs L} {H : Slot → Int} {s : State} {cwd ip : Slot}
  {path name rest : List UInt8}

theorem named_of_skipelem (hpath : (0 : UInt8) ∉ path) (h : skipelem path = some (name, rest)) :
    Named name ∧ (0 : UInt8) ∉ rest := by
  unfold skipelem at h
  split at h
  · cases h
  · cases h
    refine ⟨⟨by simp, fun h0 => hpath ?_⟩, fun h0 => hpath ?_⟩
    · exact (List.dropWhile_suffix _).mem (( List.takeWhile_prefix _).mem (List.mem_of_mem_take h0))
    · exact (List.dropWhile_suffix _).mem ((List.dropWhile_suffix _).mem
        ((List.dropWhile_suffix _).mem h0))

/-- The inode a path leads to from inode `i`; with `parent` set, the directory of its last element, and
that element. -/
def walk (f : Nat → Option Node) (parent : Bool) (i : Nat) (path : List UInt8) :
    Option (Nat × List UInt8) :=
  match _h : skipelem path with
  | none => if parent then none else some (i, [])
  | some (name, rest) =>
      match f i with
      | none => none
      | some nd =>
          if nd.type ≠ tDir then none
          else if parent ∧ rest = [] then some (i, name)
          else
            match lookup nd.data name with
            | none => none
            | some de => walk f parent de.inum rest
  termination_by path.length
  decreasing_by exact skipelem_lt ‹_›

/-- Where the path begins, for a process in directory `cwd`. -/
def start (cwd : Nat) (path : List UInt8) : Nat := if path.head? = some 47 then rootino else cwd

theorem walk_none {f : Nat → Option Node} {parent : Bool} {i : Nat} (h : skipelem path = none) :
    walk f parent i path = if parent then none else some (i, []) := by
  rw [walk]
  split
  · rfl
  · rename_i name rest h'
    rw [h] at h'
    cases h'

theorem walk_some {f : Nat → Option Node} {parent : Bool} {i : Nat} {nd : Node}
    (h : skipelem path = some (name, rest)) (hi : f i = some nd) :
    walk f parent i path =
      if nd.type ≠ tDir then none
      else if parent ∧ rest = [] then some (i, name)
      else (lookup nd.data name).bind fun de => walk f parent de.inum rest := by
  rw [walk]
  split
  · rename_i h'
    rw [h] at h'
    cases h'
  · rename_i name' rest' h'
    cases h.symm.trans h'
    rw [hi]
    dsimp only
    cases lookup nd.data name with
    | none => rfl
    | some de => rfl

/-- What a lookup gives: a reference to a node, and the name that is left of the path.  Given `F` it is
where the path leads to, which is `w`. -/
def Looked (F : Prop) {L : Layout} (D : Dirs L) (H : Slot → Int) (s : State)
    (w : Option (Nat × List UInt8)) : Option (Slot × List UInt8) → State → Prop
  | none, s' => Sound D H s' ∧ Quiet F L H s s' ∧ (F → w = none)
  | some (ip, name), s' => Sound D (plus H ip) s' ∧ Quiet F L H s s' ∧
      (F → node L s' (s'.icache ip).inum ≠ none) ∧ Named name ∧
      (F → w = some ((s'.icache ip).inum, name))

theorem fine_of_ilock {e : Stop} (hip : F → node L s (s.icache ip).inum ≠ none)
    (h : e = .sleeps ∨ e = .noType ∧ node L s (s.icache ip).inum = none) : Fine F e := by
  obtain rfl | ⟨rfl, hnone⟩ := h
  · exact .of_ne (by decide) (by decide)
  · exact ⟨by decide, fun _ f => hip f hnone⟩

theorem fine_of_dirlookup {e : Stop} (h : e = .notDir ∨ e = .dirlinkRead ∨ e = .iget) : Fine F e := by
  obtain rfl | rfl | rfl := h <;> exact .of_ne (by decide) (by decide)

theorem Looked.trans {s' s'' : State} {r : Option (Slot × List UInt8)}
    {w w' : Option (Nat × List UInt8)} (hq : Quiet F L H s s') (hw : F → w = w')
    (h : Looked F D H s' w' r s'') : Looked F D H s w r s'' := by
  cases r with
  | none => exact ⟨h.1, hq.trans h.2.1, fun f => (hw f).trans (h.2.2 f)⟩
  | some r =>
      obtain ⟨hs, hq', hnode, hname, hw'⟩ := h
      exact ⟨hs, hq.trans hq', hnode, hname, fun f => (hw f).trans (hw' f)⟩

theorem namexLoop_sound {parent : Bool} (h : Sound D (plus H ip) s) (h0 : ∀ jp, 0 ≤ H jp)
    (hF : F → Firm L H s) (hip : F → node L s (s.icache ip).inum ≠ none)
    (hpath : (0 : UInt8) ∉ path) :
    Wp (namexLoop parent ip path) s (Fine F)
      (Looked F D H s (walk (node L s) parent (s.icache ip).inum path)) := by
  induction hlen : path.length using Nat.strong_induction_on generalizing ip s path with
  | _ n ih =>
      subst hlen
      have hpos := plus_pos (h0 ip)
      rw [namexLoop]
      split
      · rename_i hskip
        rw [walk_none hskip]
        split
        · refine (iput_quiet h (h0 ip) hF).seq (fun _ => fine_of_iput) ?_
          rintro - s' ⟨hs', hq⟩
          exact wp_pure.mpr ⟨hs', hq, fun _ => rfl⟩
        · exact wp_pure.mpr ⟨h, .refl, hip, ⟨by decide, by decide⟩, fun _ => rfl⟩
      · rename_i name rest hskip
        obtain ⟨hname, hrest⟩ := named_of_skipelem hpath hskip
        refine (ilock_sound h hpos).seq (fun _ => fine_of_ilock hip) ?_
        rintro - s₁ ⟨hs₁, hk₁, hn₁, nd, hat⟩
        have hq₁ : Quiet F L H s s₁ := .of_eq hk₁.of_plus hn₁
        have hi : node L s (s.icache ip).inum = some nd := by
          rw [← hn₁]
          exact hat.node
        rw [walk_some hskip hi]
        simp only [inode, wp_bind, wp_gets, hat.type]
        split
        · refine (iunlockput_quiet hs₁ (h0 ip) hat (hq₁.firm hF)).bind ?_
          rintro - s₂ ⟨hs₂, hq₂⟩
          exact wp_pure.mpr ⟨hs₂, hq₁.trans hq₂, fun _ => rfl⟩
        · rename_i ht
          split
          · refine (iunlock_sound hs₁ hpos).seq
              (fun e he => .of_ne (by rw [he]; decide) (by rw [he]; decide)) ?_
            rintro - s₂ ⟨hs₂, hk₂, hn₂⟩
            refine wp_pure.mpr ⟨hs₂, hq₁.trans (.of_eq hk₂.of_plus hn₂), fun _ => ?_, hname,
              fun _ => by rw [hk₂.inum ip hpos, hat.inum]⟩
            rw [hk₂.inum ip hpos, hat.inum, hn₂, hat.node]
            exact Option.some_ne_none _
          · refine (dirlookup_sound hs₁ hpos hat).seq (fun _ => fine_of_dirlookup) ?_
            rintro r s₂ ⟨-, hr⟩
            cases r with
            | none =>
                obtain ⟨rfl, habsent⟩ := hr
                refine (iunlockput_quiet hs₁ (h0 ip) hat (hq₁.firm hF)).bind ?_
                rintro - s₃ ⟨hs₃, hq₃⟩
                refine wp_pure.mpr ⟨hs₃, hq₁.trans hq₃, fun _ => ?_⟩
                rw [habsent.lookup]
                rfl
            | some r =>
                obtain ⟨next, off⟩ := r
                obtain ⟨k, de, hfound, -, hs₂, hk₂, hn₂, hinum, hlook⟩ := hr
                have hq₂ : Quiet F L H s s₂ := hq₁.trans (.of_eq hk₂.of_plus hn₂)
                -- the entry is for a node
                have hnext : F → node L s₂ (s₂.icache next).inum ≠ none := by
                  intro f
                  rw [hinum]
                  refine (hq₂.firm hF f).closed _ nd (by rw [hn₂]; exact hat.node)
                    (not_not.mp ht) de (List.mem_of_getElem? hfound.get) hfound.inum
                have hat₂ := hat.keep_node hk₂ hpos hs₂ (hpos.trans_le (le_plus next ip))
                  (by rw [hn₂]; exact hat.node)
                rw [plus_comm] at hs₂
                refine (iunlockput_quiet hs₂ ((h0 ip).trans (le_plus next ip)) hat₂
                  fun f => (hq₂.firm hF f).plus (hnext f)).bind ?_
                rintro - s₃ ⟨hs₃, hq₃⟩
                have hq := hq₂.trans hq₃.of_plus
                have hpos' := plus_pos (h0 next)
                refine (ih rest.length (skipelem_lt hskip) hs₃ (hq.firm hF) (fun f => ?_) hrest
                  rfl).post fun _ _ hr => hr.trans hq fun f => ?_
                · rw [hq₃.keep.inum next hpos', hq₃.nodes f]
                  exact hnext f
                · rw [hlook, hq.nodes f, hq₃.keep.inum next hpos', hinum]
                  rfl

theorem namex_sound {parent : Bool} (h : Sound D H s) (hcwd : 0 < H cwd) (hF : F → Firm L H s)
    (hpath : (0 : UInt8) ∉ path) :
    Wp (namex cwd parent path) s (Fine F)
      (Looked F D H s (walk (node L s) parent (start (s.icache cwd).inum path) path)) := by
  unfold namex start
  by_cases hroot : path.head? = some 47
  · rw [if_pos hroot, if_pos hroot]
    refine (iget_sound h (by decide) h.root).seq
      (fun e he => .of_ne (by rw [he]; decide) (by rw [he]; decide)) ?_
    rintro ip s' ⟨hs', hk, hn, hinum⟩
    have hq : Quiet F L H s s' := .of_eq hk hn
    refine (namexLoop_sound hs' h.nonneg (hq.firm hF) (fun f => ?_) hpath).post
      fun _ _ hr => hr.trans hq fun f => by rw [hinum, hn]
    rw [hinum]
    exact (hq.firm hF f).root
  · rw [if_neg hroot, if_neg hroot]
    refine (idup_sound h hcwd).bind ?_
    rintro ip s' ⟨rfl, hs', hk, hn, hinum⟩
    have hq : Quiet F L H s s' := .of_eq hk hn
    refine (namexLoop_sound hs' h.nonneg (hq.firm hF) (fun f => ?_) hpath).post
      fun _ _ hr => hr.trans hq fun f => by rw [hinum, hn]
    exact (hq.firm hF f).held ip hcwd

theorem namei_sound (h : Sound D H s) (hcwd : 0 < H cwd) (hF : F → Firm L H s)
    (hpath : (0 : UInt8) ∉ path) :
    Wp (namei cwd path) s (Fine F) fun r s' => match r with
      | none => Sound D H s' ∧ Quiet F L H s s'
      | some ip => Sound D (plus H ip) s' ∧ Quiet F L H s s' ∧
          (F → node L s' (s'.icache ip).inum ≠ none) := by
  refine (namex_sound h hcwd hF hpath).bind fun r s' hr => wp_pure.mpr ?_
  cases r with
  | none => exact ⟨hr.1, hr.2.1⟩
  | some r => exact ⟨hr.1, hr.2.1, hr.2.2.1⟩

end Path

end Xv6.Fs
