import Xv6.Fs.Bmap

/-!
# Fs — reading and writing a file

`readi` and `writei` as operations on the bytes of a file.  `byteAt` reads the bytes off the view of
its blocks; `contents` lists them.
-/

namespace Xv6.Fs
open Lib Lib.Prog

/-! ### Bytes of a file -/

/-- Byte `x` of a file with these blocks. -/
def byteAt (v : Nat → Option Block) (x : Nat) : UInt8 :=
  ((v (x / bsize)).getD zeroBlock).get (x % bsize)

/-- Block `bn` has one of the `n` bytes from `off` on. -/
def Over (off n bn : Nat) : Prop := ∃ x, off ≤ x ∧ x < off + n ∧ x / bsize = bn

section Bytes
variable {off n bn x : Nat} {v : Nat → Option Block} {blk : Block} {xs : List UInt8}

theorem roundLen_le : roundLen off n ≤ n := min_le_left _ _

theorem roundLen_fit (off n : Nat) : off % bsize + roundLen off n ≤ bsize := by
  have : off % bsize < bsize := Nat.mod_lt _ (by decide)
  have : roundLen off n ≤ bsize - off % bsize := min_le_right _ _
  omega

/-- The bytes of the first round are in one block, those of the others after it. -/
theorem div_of_lt_roundLen (off n : Nat) (hlow : off ≤ x) (hx : x < off + roundLen off n) :
    x / bsize = off / bsize := by
  have := roundLen_fit off n
  simp only [bsize] at *
  omega

theorem mod_of_lt_roundLen (off n : Nat) (hlow : off ≤ x) (hx : x < off + roundLen off n) :
    x % bsize = off % bsize + (x - off) := by
  have := roundLen_fit off n
  simp only [bsize] at *
  omega

theorem over_first (off : Nat) (hn : 0 < n) : Over off n (off / bsize) := ⟨off, le_rfl, by omega, rfl⟩

theorem over_succ (off bn : Nat) (hn : 0 < n) :
    Over off n bn ↔ bn = off / bsize ∨ Over (off + roundLen off n) (n - roundLen off n) bn := by
  have hle : roundLen off n ≤ n := roundLen_le
  constructor
  · rintro ⟨x, hlow, hhigh, rfl⟩
    by_cases hx : x < off + roundLen off n
    · exact .inl (div_of_lt_roundLen off n hlow hx)
    · exact .inr ⟨x, not_lt.mp hx, by omega, rfl⟩
  · rintro (rfl | ⟨x, hlow, hhigh, rfl⟩)
    · exact over_first off hn
    · exact ⟨x, by omega, by omega, rfl⟩

/-- Bytes after a move into one block. -/
theorem byteAt_update_splice (hlen : xs.length = roundLen off n) (x : Nat) :
    byteAt (Function.update v (off / bsize)
      (some (((v (off / bsize)).getD zeroBlock).splice (off % bsize) xs))) x =
      if off ≤ x ∧ x < off + xs.length then xs.getD (x - off) 0 else byteAt v x := by
  have hfit := roundLen_fit off n
  unfold byteAt
  by_cases hx : off ≤ x ∧ x < off + xs.length
  · have hxr : x < off + roundLen off n := hlen ▸ hx.2
    have hmod := mod_of_lt_roundLen off n hx.1 hxr
    rw [if_pos hx, div_of_lt_roundLen off n hx.1 hxr, Function.update_self, Option.getD_some,
      Bytes.get_splice_of_mem (by omega) (by omega) (by omega)]
    have hidx : x % bsize - off % bsize = x - off := by omega
    simp only [hidx]
    exact (List.getD_eq_getElem xs 0 (show x - off < xs.length by omega)).symm
  · rw [if_neg hx]
    by_cases hbn : x / bsize = off / bsize
    · rw [hbn, Function.update_self, Option.getD_some, Bytes.get_splice_of_disjoint]
      simp only [bsize] at *
      omega
    · rw [Function.update_of_ne hbn]

end Bytes

/-! ### Reading -/

section Rw
variable {L : Layout} {s : State} {ino : Nat → Dinode} {ip : Slot} {i off n : Nat}

theorem over_lt (h : Over off n bn) (hmax : off + n ≤ maxfile * bsize) : bn < maxfile := by
  obtain ⟨x, -, hx, rfl⟩ := h
  exact Nat.div_lt_of_lt_mul (by rw [Nat.mul_comm]; omega)

/-- The loop of `readi` over blocks that are there. -/
theorem readLoop_wp {E : Stop → Prop} (h : Holds L s ino ip i)
    (hmap : ∀ bn, Over off n bn → view s.disk (ino i) bn ≠ none)
    (hmax : off + n ≤ maxfile * bsize) :
    Wp (readLoop ip off n) s E fun bytes s' =>
      s' = s ∧ bytes = (List.range n).map fun j => byteAt (view s.disk (ino i)) (off + j) := by
  induction n using Nat.strong_induction_on generalizing off with
  | h n ih =>
      rw [readLoop]
      split
      · rename_i h0
        subst h0
        exact wp_pure.mpr ⟨rfl, rfl⟩
      · rename_i h0
        have hpos := roundLen_pos off h0
        have hle : roundLen off n ≤ n := roundLen_le
        have hfirst := over_first off (Nat.pos_of_ne_zero h0)
        refine (bmap_of_mapped h (hmap _ hfirst) (over_lt hfirst hmax)).bind ?_
        rintro b s' ⟨rfl, hb⟩
        simp only [bread, wp_bind, wp_gets]
        refine (ih (n - roundLen off n) (by omega) (fun bn hbn => ?_) (by omega)).post ?_
        · exact hmap bn ((over_succ off bn (Nat.pos_of_ne_zero h0)).mpr (.inr hbn))
        · rintro bytes s' ⟨rfl, rfl⟩
          refine wp_pure.mpr ⟨rfl, ?_⟩
          have hn : n = roundLen off n + (n - roundLen off n) := by omega
          conv_rhs => rw [hn, List.range_add, List.map_append]
          congr 1
          · refine List.map_congr_left fun j hj => ?_
            have hj := List.mem_range.mp hj
            have hdiv := div_of_lt_roundLen off n (x := off + j) (by omega) (by omega)
            have hmod := mod_of_lt_roundLen off n (x := off + j) (by omega) (by omega)
            rw [byteAt, hdiv, hb, Option.getD_some, hmod, Nat.add_sub_cancel_left]
          · rw [List.map_map]
            refine List.map_congr_left fun j _ => ?_
            rw [Function.comp_apply, Nat.add_assoc]

/-! ### Writing -/

/-- What the loop of `writei` does for the bytes `src` at `off` of inode `i`.  The size is not its
business.  `logs` are the blocks it passes to `log_write`. -/
structure Stored (L : Layout) (ino : Nat → Dinode) (i off : Nat) (src : List UInt8) (d : Disk)
    (l : List Nat) (d' : Disk) (l' : List Nat) (c' : Dinode) : Prop where
  ok : ImageOk L d' (Function.update ino i c')
  apart : Apart L ino i d d'
  dinode : ∀ i < L.ninodes, dinodeAt L.toSuperblock d' i = dinodeAt L.toSuperblock d i
  bytes : ∀ x, byteAt (view d' c') x =
    if off ≤ x ∧ x < off + src.length then src.getD (x - off) 0 else byteAt (view d (ino i)) x
  mapped : ∀ bn, view d' c' bn ≠ none ↔ view d (ino i) bn ≠ none ∨ Over off src.length bn
  keep : ∀ k, place d (ino i) k ≠ 0 → place d' c' k = place d (ino i) k
  fields : c' = { ino i with addrs := c'.addrs }
  same : (∀ bn, Over off src.length bn → view d (ino i) bn ≠ none) → c' = ino i
  logs : L.size ≤ bpb → ∀ x, x ∈ l' ↔ x ∈ l ∨ ∃ bn, Over off src.length bn ∧
    (x = place d' c' (placeOf bn) ∨ view d (ino i) bn = none ∧
      (x = L.bmapstart ∨ ndirect ≤ bn ∧ x = c'.addr ndirect))

section Stored
variable {d d₁ d₂ d' : Disk} {l l₁ l' : List Nat} {c₁ c' : Dinode} {src : List UInt8} {b : Nat}

theorem not_over_zero {bn : Nat} : ¬ Over off 0 bn := by
  rintro ⟨x, hlow, hhigh, -⟩
  exact absurd hhigh (not_lt.mpr hlow)

theorem Stored.refl (h : ImageOk L d ino) : Stored L ino i off [] d l d l (ino i) := by
  refine ⟨by rwa [Function.update_eq_self], .refl, fun _ _ => rfl, fun x => ?_, fun bn => ?_,
    fun _ _ => rfl, rfl, fun _ => rfl, fun _ x => ?_⟩
  · rw [if_neg]
    rintro ⟨hlow, hhigh⟩
    exact absurd hhigh (not_lt.mpr hlow)
  · exact (or_iff_left not_over_zero).symm
  · simp [not_over_zero]

/-- The rounds after the first one are in other blocks. -/
theorem ne_of_over_rest {bn : Nat} (h : Over (off + roundLen off n) (n - roundLen off n) bn) :
    bn ≠ off / bsize := by
  obtain ⟨x, hlow, hhigh, rfl⟩ := h
  have hlen : roundLen off n = bsize - off % bsize := by
    have : roundLen off n = min n (bsize - off % bsize) := rfl
    omega
  simp only [bsize] at *
  omega

/-- **A round of the loop**, and the rest of it. -/
theorem Stored.round (hsrc : src.length ≠ 0) (hi : i < L.ninodes) (ht : (ino i).type ≠ 0)
    (hm : Mapped L ino i (off / bsize) d l b d₁ l₁ c₁)
    (hw : Wrote L d₁ (Function.update ino i c₁) i (off / bsize)
      ((d₁ b).splice (off % bsize) (src.take (roundLen off src.length))) d₂)
    (hrest : Stored L (Function.update ino i c₁) i (off + roundLen off src.length)
      (src.drop (roundLen off src.length)) d₂ (b :: l₁) d' l' c') :
    Stored L ino i off src d l d' l' c' := by
  have hle : roundLen off src.length ≤ src.length := roundLen_le
  obtain ⟨hok, hapart, hdinode, hbytes, hmapped, hkeep, hfields, hsame, hlogs⟩ := hrest
  have hview₁ := hw.view
  have hplace₁ := hw.place
  simp only [Function.update_self] at hview₁ hplace₁ hbytes hmapped hkeep hfields hsame hlogs
  rw [List.length_drop] at hbytes hmapped hsame hlogs
  -- the block as it was before the round
  have hblk : d₁ b = (view d (ino i) (off / bsize)).getD zeroBlock := by
    have hb := congrFun hm.view_eq (off / bsize)
    rw [view, hm.place_eq, if_neg hm.ne, Function.update_self] at hb
    exact Option.some.inj hb
  have hview₂ : view d₂ c₁ = Function.update (view d (ino i)) (off / bsize)
      (some (((view d (ino i) (off / bsize)).getD zeroBlock).splice (off % bsize)
        (src.take (roundLen off src.length)))) := by
    rw [hview₁, hm.view_eq, Function.update_idem, hblk]
  have hview_of_ne : ∀ {bn}, bn ≠ off / bsize → view d₂ c₁ bn = view d (ino i) bn := by
    intro bn hbn
    rw [hview₂, Function.update_of_ne hbn]
  have hover := fun bn => over_succ off bn (Nat.pos_of_ne_zero hsrc)
  rw [Function.update_idem] at hok
  refine ⟨hok, hm.apart.trans ((Apart.update_iff.mp hw.apart).trans (Apart.update_iff.mp hapart)),
    fun i hi => (hdinode i hi).trans ((hw.dinode i hi).trans (hm.dinode i hi)), fun x => ?_,
    fun bn => ?_, fun k hk => ?_, hfields.trans (by rw [hm.fields]), fun hall => ?_,
    fun hone x => ?_⟩
  · have htake : (src.take (roundLen off src.length)).length = roundLen off src.length := by
      rw [List.length_take, min_eq_left hle]
    rw [hbytes, hview₂, byteAt_update_splice htake, htake]
    by_cases hrest : off + roundLen off src.length ≤ x ∧
        x < off + roundLen off src.length + (src.length - roundLen off src.length)
    · rw [if_pos hrest, if_pos (by omega), List.getD_eq_getElem?_getD, List.getElem?_drop,
        List.getD_eq_getElem?_getD]
      congr 3
      omega
    · rw [if_neg hrest]
      by_cases hfirst : off ≤ x ∧ x < off + roundLen off src.length
      · rw [if_pos hfirst, if_pos (by omega), List.getD_eq_getElem?_getD,
          List.getElem?_take_of_lt (by omega), List.getD_eq_getElem?_getD]
      · rw [if_neg hfirst, if_neg (by omega)]
  · rw [hmapped, hover]
    by_cases hbn : bn = off / bsize
    · subst hbn
      simp [hview₂]
    · simp [hview_of_ne hbn, hbn]
  · have hk₁ := hm.keep k hk
    have hk₂ := (hplace₁ k).trans hk₁
    exact (hkeep k (by rwa [hk₂])).trans hk₂
  · obtain ⟨-, -, hc₁⟩ := hm.same (hall _ (over_first off (Nat.pos_of_ne_zero hsrc)))
    refine (hsame fun bn hbn => ?_).trans hc₁
    rw [hview_of_ne (ne_of_over_rest hbn)]
    exact hall bn ((hover bn).mpr (.inr hbn))
  · have hb : place d' c' (placeOf (off / bsize)) = b := by
      have := (hplace₁ (placeOf (off / bsize))).trans hm.place_eq
      exact (hkeep _ (by rw [this]; exact hm.ne)).trans this
    have hx : ndirect ≤ off / bsize → c'.addr ndirect = c₁.addr ndirect := by
      intro hbn
      have hx0 : c₁.addr ndirect ≠ 0 := by
        intro h0
        have := hm.place_eq
        rw [placeOf_of_ge hbn, place_entry, entry, if_pos h0] at this
        exact hm.ne this.symm
      have := hkeep ndirect
      rw [place_of_le le_rfl, place_of_le le_rfl] at this
      exact this hx0
    rw [hlogs hone, List.mem_cons, hm.logs_one hi ht hone]
    constructor
    · rintro ((rfl | hl | ⟨hnone, rfl | rfl | ⟨hbn, rfl⟩⟩) | ⟨bn, hbn, hlog⟩)
      · exact .inr ⟨_, (hover _).mpr (.inl rfl), .inl hb.symm⟩
      · exact .inl hl
      · exact .inr ⟨_, (hover _).mpr (.inl rfl), .inl hb.symm⟩
      · exact .inr ⟨_, (hover _).mpr (.inl rfl), .inr ⟨hnone, .inl rfl⟩⟩
      · exact .inr ⟨_, (hover _).mpr (.inl rfl), .inr ⟨hnone, .inr ⟨hbn, (hx hbn).symm⟩⟩⟩
      · rw [hview_of_ne (ne_of_over_rest hbn)] at hlog
        exact .inr ⟨bn, (hover bn).mpr (.inr hbn), hlog⟩
    · rintro (hl | ⟨bn, hbn, hlog⟩)
      · exact .inl (.inr (.inl hl))
      · rcases (hover bn).mp hbn with rfl | hbn
        · rcases hlog with hlog | ⟨hnone, hlog | ⟨hge, hlog⟩⟩
          · exact .inl (.inl (hlog.trans hb))
          · exact .inl (.inr (.inr ⟨hnone, .inr (.inl hlog)⟩))
          · exact .inl (.inr (.inr ⟨hnone, .inr (.inr ⟨hge, hlog.trans (hx hge)⟩)⟩))
        · rw [← hview_of_ne (ne_of_over_rest hbn)] at hlog
          exact .inr ⟨bn, hbn, hlog⟩

end Stored

/-- The loop of `writei`. -/
theorem writeLoop_wp {src : List UInt8} (h : Holds L s ino ip i)
    (hmax : off + src.length ≤ maxfile * bsize) :
    Wp (writeLoop ip off src) s (· = .outOfBlocks) fun off' s' => off' = off + src.length ∧
      ∃ d' l' c', Stored L ino i off src s.disk s.logged d' l' c' ∧ s' = s.put ip d' l' c' := by
  induction hn : src.length using Nat.strong_induction_on generalizing off src s ino with
  | h n ih =>
      subst hn
      rw [writeLoop]
      split
      · rename_i h0
        obtain rfl := List.eq_nil_of_length_eq_zero h0
        refine wp_pure.mpr ⟨rfl, _, _, _, .refl h.image, ?_⟩
        rw [← h.copy, State.put_self]
      · rename_i h0
        have hpos := roundLen_pos off h0
        have hle : roundLen off src.length ≤ src.length := roundLen_le
        have hfirst := over_first off (Nat.pos_of_ne_zero h0)
        refine (bmap_wp h (over_lt hfirst hmax)).bind ?_
        rintro b s₁ ⟨d₁, l₁, c₁, hm, rfl⟩
        have htype : c₁.type = (ino i).type := by rw [hm.fields]
        have h₁ := h.put (l := l₁) hm.ok htype
        have hw : Wrote L d₁ _ i (off / bsize) ((d₁ b).splice (off % bsize)
            (src.take (roundLen off src.length))) _ :=
          hm.ok.writeData h.lt h₁.type (by rw [Function.update_self]; exact hm.place_eq) hm.ne
        have h₂ := h₁.put (l := b :: l₁) (d := Function.update d₁ b ((d₁ b).splice (off % bsize)
          (src.take (roundLen off src.length)))) (c := c₁) (by rw [Function.update_idem]; exact hw.ok)
          (by rw [Function.update_self])
        rw [State.put_put, Function.update_idem] at h₂
        simp only [bread, logWrite, wp_bind, wp_gets, wp_modify]
        refine (ih _ ?_ h₂ ?_ rfl).post ?_
        · rw [List.length_drop]
          omega
        · rw [List.length_drop]
          omega
        · rintro off' s' ⟨rfl, d', l', c', hrest, rfl⟩
          refine ⟨?_, d', l', c', .round h0 h.lt h.type hm hw hrest, State.put_put ..⟩
          rw [List.length_drop]
          omega

end Rw

/-! ### Contents -/

/-- The bytes of a file. -/
def contents (d : Disk) (c : Dinode) : List UInt8 :=
  (List.range c.size.toNat).map (byteAt (view d c))

/-- `xs` with `ys` at `off`, as far as it goes and beyond. -/
def overwrite (xs : List UInt8) (off : Nat) (ys : List UInt8) : List UInt8 :=
  xs.take off ++ ys ++ xs.drop (off + ys.length)

/-- The blocks of a file below its size are there. -/
structure Whole (d : Disk) (c : Dinode) : Prop where
  size : c.size.toNat ≤ maxfile * bsize
  mapped : ∀ bn, bn * bsize < c.size.toNat → view d c bn ≠ none

section Contents
variable {L : Layout} {s : State} {ino : Nat → Dinode} {ip : Slot} {i off n : Nat}
  {src : List UInt8}

theorem length_contents (d : Disk) (c : Dinode) : (contents d c).length = c.size.toNat := by
  simp [contents]

theorem Whole.over {d : Disk} {c : Dinode} (h : Whole d c) (hoff : off + n ≤ c.size.toNat) {bn : Nat}
    (hbn : Over off n bn) : view d c bn ≠ none := by
  obtain ⟨x, -, hx, rfl⟩ := hbn
  refine h.mapped _ ?_
  have := Nat.div_mul_le_self x bsize
  omega

theorem overwrite_map (f : Nat → UInt8) {size : Nat} (hoff : off ≤ size) :
    overwrite ((List.range size).map f) off src = (List.range (max size (off + src.length))).map
      fun x => if off ≤ x ∧ x < off + src.length then src.getD (x - off) 0 else f x := by
  refine List.ext_getElem ?_ fun x hx hx' => ?_
  · simp only [overwrite, List.length_append, List.length_take, List.length_drop, List.length_map,
      List.length_range]
    omega
  · simp only [List.length_map, List.length_range] at hx'
    simp only [overwrite, List.getElem_append, List.getElem_map, List.getElem_range,
      List.length_append, List.length_take, List.length_map, List.length_range,
      List.getElem_take, List.getElem_drop]
    split
    · split
      · rw [if_neg (by omega)]
      · rw [if_pos (by omega), List.getD_eq_getElem _ _ (by omega)]
        congr 1
        omega
    · rw [if_neg (by omega)]
      congr 1
      omega

/-- **`readi` reads the bytes of the file.** -/
theorem readi_wp {E : Stop → Prop} (h : Holds L s ino ip i) (hwhole : Whole s.disk (ino i))
    (htype : (ino i).type ≠ tDev) (hoff : off < 2 ^ 32) (hn : n < 2 ^ 32) :
    Wp (readi ip off n) s E fun r s' => s' = s ∧
      r = if off > (ino i).size.toNat ∨ 2 ^ 32 ≤ off + n then none
        else some (((contents s.disk (ino i)).drop off).take n) := by
  have hwrap : u32 (off + n) < off ↔ 2 ^ 32 ≤ off + n := by
    simp only [u32]
    omega
  simp only [readi, inode, wp_bind, wp_gets, h.copy]
  rw [if_neg htype]
  simp only [hwrap]
  split
  · exact wp_pure.mpr ⟨rfl, rfl⟩
  · rename_i hcond
    have hsum : u32 (off + n) = off + n := Nat.mod_eq_of_lt (by omega)
    have hlen : (if u32 (off + n) > (ino i).size.toNat then (ino i).size.toNat - off else n) =
        min n ((ino i).size.toNat - off) := by
      rw [hsum]
      split <;> omega
    have hend : off + min n ((ino i).size.toNat - off) ≤ (ino i).size.toNat := by omega
    simp only [hlen]
    refine (readLoop_wp h (fun bn hbn => hwhole.over hend hbn) (hend.trans hwhole.size)).bind ?_
    rintro bytes s' ⟨rfl, rfl⟩
    refine wp_pure.mpr ⟨rfl, congrArg some ?_⟩
    refine List.ext_getElem ?_ fun j hj hj' => ?_
    · simp [contents]
    · simp [contents]

/-- The blocks a write of `n` bytes at `off` of inode `i` passes to `log_write`. -/
def WriteLogs (L : Layout) (ino : Nat → Dinode) (i off n : Nat) (d d' : Disk) (c' : Dinode)
    (x : Nat) : Prop :=
  (∃ bn, Over off n bn ∧ (x = place d' c' (placeOf bn) ∨ view d (ino i) bn = none ∧
    (x = L.bmapstart ∨ ndirect ≤ bn ∧ x = c'.addr ndirect))) ∨
  0 < n ∧ (ino i).size.toNat < off + n ∧ x = L.iblock i

/-- What `writei` of `src` at `off` of inode `i` does when it does not fail. -/
structure Written (L : Layout) (ino : Nat → Dinode) (i off : Nat) (src : List UInt8) (d : Disk)
    (l : List Nat) (d' : Disk) (l' : List Nat) (c' : Dinode) : Prop where
  ok : ImageOk L d' (Function.update ino i c')
  apart : Apart L ino i d d'
  dinode : dinodeAt L.toSuperblock d' i = c'
  fields : c' = { ino i with size := c'.size, addrs := c'.addrs }
  size : c'.size.toNat = max (ino i).size.toNat (off + src.length)
  whole : Whole d' c'
  contents : contents d' c' = overwrite (contents d (ino i)) off src
  logs : L.size ≤ bpb → ∀ x, x ∈ l' ↔ x ∈ l ∨ WriteLogs L ino i off src.length d d' c' x

section Written
variable {d d' : Disk} {l l' : List Nat} {c' : Dinode}

/-- Every byte below the new end is in a block. -/
theorem Stored.view_ne_none (h : Stored L ino i off src d l d' l' c') (hwhole : Whole d (ino i))
    (hoff : off ≤ (ino i).size.toNat) {bn : Nat}
    (hbn : bn * bsize < max (ino i).size.toNat (off + src.length)) : view d' c' bn ≠ none := by
  refine (h.mapped bn).mpr ?_
  by_cases hold : bn * bsize < (ino i).size.toNat
  · exact .inl (hwhole.mapped bn hold)
  · refine .inr ⟨bn * bsize, by omega, by omega, ?_⟩
    exact Nat.mul_div_cancel _ (by decide)

/-- Nothing is left to do when the file has not grown. -/
theorem Stored.written (h : Stored L ino i off src d l d' l' c') (hwhole : Whole d (ino i))
    (hi : i < L.ninodes) (hsync : dinodeAt L.toSuperblock d i = ino i)
    (hoff : off ≤ (ino i).size.toNat)
    (hsize : ¬ (0 < src.length ∧ off + src.length > (ino i).size.toNat)) :
    Written L ino i off src d l d' l' c' := by
  have hend : off + src.length ≤ (ino i).size.toNat := by omega
  have hmax : max (ino i).size.toNat (off + src.length) = (ino i).size.toNat := by omega
  obtain rfl : c' = ino i := h.same fun bn hbn => hwhole.over hend hbn
  refine ⟨h.ok, h.apart, (h.dinode i hi).trans hsync, rfl, hmax.symm,
    ⟨hwhole.size, fun bn hbn => h.view_ne_none hwhole hoff (hmax.symm ▸ hbn)⟩, ?_, fun hL x => ?_⟩
  · rw [Fs.contents, Fs.contents, overwrite_map _ hoff, hmax]
    exact List.map_congr_left fun x _ => h.bytes x
  · rw [h.logs hL, WriteLogs]
    refine or_congr_right (or_iff_left ?_).symm
    rintro ⟨h0, hgrow, -⟩
    exact hsize ⟨h0, hgrow⟩

/-- `iupdate` when it has. -/
theorem Stored.iupdate (h : Stored L ino i off src d l d' l' c') (hwhole : Whole d (ino i))
    (hi : i < L.ninodes) (ht : (ino i).type ≠ 0) (hoff : off ≤ (ino i).size.toNat)
    (hend : off + src.length ≤ maxfile * bsize)
    (hsize : 0 < src.length ∧ off + src.length > (ino i).size.toNat) :
    Written L ino i off src d l
      (Function.update d' (L.iblock i) (({ c' with size := UInt32.ofNat (off + src.length) } :
        Dinode).toBlock (d' (L.iblock i)) (i % ipb))) (L.iblock i :: l')
      { c' with size := UInt32.ofNat (off + src.length) } := by
  have htype : c'.type = (ino i).type := by rw [h.fields]
  have hmax : max (ino i).size.toNat (off + src.length) = off + src.length := by omega
  have htoNat : (UInt32.ofNat (off + src.length)).toNat = off + src.length := by
    refine UInt32.toNat_ofNat_of_lt' ?_
    have : maxfile * bsize < UInt32.size := by decide
    omega
  generalize hc : ({ c' with size := UInt32.ofNat (off + src.length) } : Dinode) = c
  have hview : ∀ d, view d c = view d c' := by
    intro d
    subst hc
    rfl
  have hplace : ∀ d k, place d c k = place d c' k := by
    intro d k
    subst hc
    rfl
  have hcsize : c.size.toNat = off + src.length := by rw [← hc, htoNat]
  have hctype : c.type = c'.type := by rw [← hc]
  have hok : ImageOk L d' (Function.update ino i c) := by
    have hset : ImageOk L d' (Function.update (Function.update ino i c') i c) := by
      refine h.ok.setIno fun k => own_congr ?_ fun _ _ => ?_
      · rw [Function.update_self, Function.update_self, hctype]
      · rw [Function.update_self, Function.update_self, hplace]
    rwa [Function.update_idem] at hset
  obtain ⟨hok', hkeep⟩ := hok.inodeBlock (c.toBlock (d' (L.iblock i)) (i % ipb)) (L.iblock_gt i)
    (L.iblock_lt hi)
  generalize hd : Function.update d' (L.iblock i) (c.toBlock (d' (L.iblock i)) (i % ipb)) = d₂
    at hok' hkeep
  have hself : view d₂ c = view d' c' := by
    have := hkeep i hi
    rw [Function.update_self] at this
    rw [this (by rw [hctype, htype]; exact ht), hview]
  have hplace₂ : ∀ k, place d₂ c k = place d' c' k := by
    intro k
    rw [← hplace d']
    refine place_congr (fun h0 => ?_) k
    have hown : own L d' (Function.update ino i c) (i, ndirect) =
        some ((Function.update ino i c i).addr ndirect) :=
      ImageOk.own_indirect hi (by rw [Function.update_self, hctype, htype]; exact ht)
        (by rwa [Function.update_self])
    rw [Function.update_self] at hown
    have := hok.range hown
    have := L.iblock_lt hi
    have := L.bmapstart_lt
    rw [← hd, Function.update_of_ne (by omega)]
  have hcaddr : c.addr ndirect = c'.addr ndirect := by
    rw [← hc]
    rfl
  refine ⟨hok', h.apart.trans ⟨fun i' hne hi' ht' => ?_, fun i' hne _ => ?_⟩, ?_, ?_,
    by rw [hcsize, hmax], ⟨by rw [hcsize]; exact hend, fun bn hbn => ?_⟩, ?_, fun hL x => ?_⟩
  · have := hkeep i' hi'
    rw [Function.update_of_ne hne] at this
    exact this ht'
  · rw [← hd, dinodeAt_iupdate, if_neg hne]
  · rw [← hd, dinodeAt_iupdate, if_pos rfl]
  · rw [← hc, h.fields]
  · rw [hself]
    refine h.view_ne_none hwhole hoff ?_
    rw [hmax, ← hcsize]
    exact hbn
  · rw [Fs.contents, Fs.contents, overwrite_map _ hoff, hcsize, hmax, hself]
    exact List.map_congr_left fun x _ => h.bytes x
  · rw [List.mem_cons, h.logs hL, WriteLogs]
    simp only [hplace₂, hcaddr, hsize.1, hsize.2, true_and]
    rw [or_comm, or_assoc]

end Written

/-- **`writei` overwrites and extends the bytes of the file**, or does nothing. -/
theorem writei_wp (h : Holds L s ino ip i) (hi : (s.icache ip).inum = i)
    (hsync : dinodeAt L.toSuperblock s.disk i = ino i) (hwhole : Whole s.disk (ino i))
    (htype : (ino i).type ≠ tDev) (hoff : off < 2 ^ 32) (hn : src.length < 2 ^ 32) :
    Wp (writei ip off src) s (fun e => e = .outOfBlocks ∧ ¬ (off > (ino i).size.toNat ∨
        2 ^ 32 ≤ off + src.length ∨ off + src.length > maxfile * bsize)) fun r s' =>
      if off > (ino i).size.toNat ∨ 2 ^ 32 ≤ off + src.length ∨ off + src.length > maxfile * bsize
      then r = none ∧ s' = s
      else r = some src.length ∧ ∃ d' l' c', s' = s.put ip d' l' c' ∧
        Written L ino i off src s.disk s.logged d' l' c' := by
  have hwrap : u32 (off + src.length) < off ↔ 2 ^ 32 ≤ off + src.length := by
    simp only [u32]
    omega
  simp only [writei, inode, wp_bind, wp_gets, h.copy]
  rw [if_neg htype]
  simp only [hwrap]
  split
  · rename_i hcond
    rw [wp_pure, if_pos (by tauto)]
    exact ⟨rfl, rfl⟩
  · rename_i hcond
    have hsum : u32 (off + src.length) = off + src.length := Nat.mod_eq_of_lt (by omega)
    rw [hsum]
    split
    · rename_i hbig
      rw [wp_pure, if_pos (.inr (.inr hbig))]
      exact ⟨rfl, rfl⟩
    · rename_i hfit
      have hok : ¬ (off > (ino i).size.toNat ∨ 2 ^ 32 ≤ off + src.length ∨
        off + src.length > maxfile * bsize) := by omega
      simp only [if_neg hok]
      refine (writeLoop_wp h (not_lt.mp hfit)).seq (fun _ he => ⟨he, hok⟩) ?_
      rintro off' s' ⟨rfl, d', l', c', hstored, rfl⟩
      have hsize : c'.size = (ino i).size := by rw [hstored.fields]
      simp only [wp_bind, wp_gets, State.put_copy, hsize]
      split
      · rename_i hgrow
        have hsb : ∀ c, (s.put ip d' l' c).sb = L.toSuperblock := fun _ => h.sb
        simp only [wp_bind, wp_setCopy, State.put_disk, State.put_logged, State.put_copy,
          State.put_put, wp_iupdate (hsb _), State.put_withDisk, State.put_inum, hi, wp_pure]
        exact ⟨trivial, _, _, _, rfl,
          hstored.iupdate hwhole h.lt h.type (by omega) (not_lt.mp hfit) hgrow⟩
      · rename_i hgrow
        exact wp_pure.mpr
          ⟨rfl, d', l', c', rfl, hstored.written hwhole h.lt hsync (by omega) hgrow⟩

end Contents

end Xv6.Fs
