import Xv6.Fs.Lookup

/-!
# Fs — room on the disk

When `balloc` panics, no block is free.  So `bmap`, and a `writei` of one directory entry, go through when the
block is there, or when there is room for it: one free block, and two where the indirect block is missing as
well.
-/

namespace Xv6.Fs
open Lib Lib.Prog

/-- No block is free. -/
def Full (L : Layout) (d : Disk) : Prop := ∀ b < L.size, bitAt L.toSuperblock d b = true

/-- There are blocks for block `bn` of the inode: two where its indirect block is missing as well. -/
def Room (L : Layout) (d : Disk) (c : Dinode) (bn : Nat) : Prop :=
  ∃ b < L.size, bitAt L.toSuperblock d b = false ∧
    (ndirect ≤ bn → c.addr ndirect = 0 → ∃ b' < L.size, b' ≠ b ∧ bitAt L.toSuperblock d b' = false)

section Balloc
variable {L : Layout} {s : State}

theorem freeBit_none {bp : Block} {b size rounds bi₀ bi : Nat} (h : freeBit bp b size rounds bi₀ = none)
    (hlow : bi₀ ≤ bi) (hhigh : bi < bi₀ + rounds) (hsize : b + bi < size) : bp.testBit bi = true := by
  induction rounds generalizing bi₀ with
  | zero => omega
  | succ rounds ih =>
      rw [freeBit, if_pos (by omega)] at h
      split at h
      · rename_i hset
        obtain rfl | hne := eq_or_ne bi bi₀
        · exact hset
        · exact ih h (by omega) (by omega)
      · cases h

theorem ballocFrom_stops (hsb : s.sb = L.toSuperblock) (rounds j : Nat) :
    Wp (ballocFrom rounds (j * bpb)) s (fun _ => ∀ b, j * bpb ≤ b → b < (j + rounds) * bpb → b < L.size →
      bitAt L.toSuperblock s.disk b = true) fun _ _ => True := by
  induction rounds generalizing j with
  | zero =>
      refine wp_stop.mpr fun b hl hh => ?_
      rw [Nat.add_zero] at hh
      omega
  | succ rounds ih =>
      simp only [ballocFrom, wp_bind, wp_gets]
      rw [hsb]
      split
      · simp only [bread, wp_bind, wp_gets]
        split
        · simp only [logWrite, bzero, wp_bind, wp_modify, wp_pure]
        · rename_i hnone
          have hnext := ih (j + 1)
          rw [Nat.succ_mul] at hnext
          refine hnext.mono (fun _ hfull b hl hh hsize => ?_) fun _ _ _ => trivial
          by_cases hb : b < j * bpb + bpb
          · -- a bit of this block of the free map
            have hset := freeBit_none hnone (Nat.zero_le (b - j * bpb)) (by omega)
              (by show j * bpb + (b - j * bpb) < L.size; omega)
            have hblock : L.bblock b = L.bblock (j * bpb) := by
              simp only [Superblock.bblock, bpb, bsize] at *
              omega
            have hmod : b % bpb = b - j * bpb := by
              simp only [bpb, bsize] at *
              omega
            rw [bitAt, hblock, hmod]
            exact hset
          · refine hfull b (by omega) ?_ hsize
            rw [show j + 1 + rounds = j + (rounds + 1) from by omega]
            exact hh
      · rename_i hge
        exact wp_stop.mpr fun b hl _ hsize => absurd (lt_of_le_of_lt hl hsize) hge

/-- `balloc` panics only when no block is free. -/
theorem balloc_stops (hsb : s.sb = L.toSuperblock) : Wp balloc s (fun _ => Full L s.disk) fun _ _ => True := by
  have h := ballocFrom_stops hsb (s.sb.size / bpb + 1) 0
  rw [Nat.zero_mul] at h
  have hall : ∀ b < L.size, b < (0 + (s.sb.size / bpb + 1)) * bpb := by
    intro b hb
    rw [hsb]
    have hdiv := Nat.div_add_mod L.size bpb
    have hmod := Nat.mod_lt L.size (show 0 < bpb by decide)
    rw [Nat.zero_add, Nat.succ_mul, Nat.mul_comm]
    omega
  simp only [balloc, wp_bind, wp_gets]
  exact h.mono (fun _ hfull b hb => hfull b (Nat.zero_le _) (hall b hb) hb) fun _ _ _ => trivial

end Balloc

section Bmap
variable {L : Layout} {s : State} {ino : Nat → Dinode} {ip : Slot} {i k bn : Nat}

theorem addrOf_stops (h : Holds L s ino ip i) :
    Wp (addrOf ip k) s (fun _ => (ino i).addr k = 0 ∧ Full L s.disk) fun _ _ => True := by
  simp only [addrOf, inode, wp_bind, wp_gets]
  rw [h.copy]
  split
  · rename_i h0
    refine (balloc_stops h.sb).seq (fun _ hfull => ⟨h0, hfull⟩) fun _ _ _ => ?_
    simp only [setCopy, setInode, wp_bind, wp_modify, wp_pure]
  · exact wp_pure.mpr trivial

theorem entryOf_stops {addr j : Nat} (hsb : s.sb = L.toSuperblock) :
    Wp (entryOf addr j) s (fun _ => (s.disk addr).read (4 * j) 4 = 0 ∧ Full L s.disk) fun _ _ => True := by
  simp only [entryOf, bread, wp_bind, wp_gets]
  split
  · rename_i h0
    refine (balloc_stops hsb).seq (fun _ hfull => ⟨h0, hfull⟩) fun _ _ _ => ?_
    simp only [logWrite, wp_bind, wp_gets, wp_modify, wp_pure]
  · exact wp_pure.mpr trivial

/-- The free map after `balloc`, as far as another free block goes. -/
theorem addrOf_leaves {b' : Nat} (h : Holds L s ino ip i) (h0 : (ino i).addr k = 0) (hb' : b' < L.size) :
    Wp (addrOf ip k) s (fun _ => True) fun b s' => s'.sb = L.toSuperblock ∧
      (b' ≠ b → bitAt L.toSuperblock s'.disk b' = bitAt L.toSuperblock s.disk b') := by
  simp only [addrOf, inode, wp_bind, wp_gets]
  rw [h.copy, if_pos h0, wp_bind]
  refine (balloc_wp h.sb).mono (fun _ _ => trivial) ?_
  rintro b s' ⟨hb, hfree, rfl⟩
  simp only [setCopy, setInode, wp_bind, wp_modify, wp_pure]
  refine ⟨h.sb, fun hne => ?_⟩
  refine (bitAt_allocDisk L (h.image.nmeta_le hfree) hb').trans ?_
  rw [decide_eq_false hne, Bool.false_or]

/-- **`bmap`** goes through when the block is there or there is room. -/
theorem bmap_stops (h : Holds L s ino ip i) (hbn : bn < maxfile)
    (hroom : view s.disk (ino i) bn = none → Room L s.disk (ino i) bn) :
    Wp (bmap ip bn) s (fun _ => False) fun _ _ => True := by
  have hplace : view s.disk (ino i) bn = none ↔ place s.disk (ino i) (placeOf bn) = 0 := by
    rw [view]
    split <;> simp_all
  unfold bmap
  by_cases hlt : bn < ndirect
  · rw [if_pos hlt]
    refine (addrOf_stops h).mono ?_ fun _ _ _ => trivial
    rintro - ⟨h0, hfull⟩
    rw [placeOf_of_lt hlt, place_of_le hlt.le] at hplace
    obtain ⟨b, hb, hfree, -⟩ := hroom (hplace.mpr h0)
    rw [hfull b hb] at hfree
    cases hfree
  · have hge : ndirect ≤ bn := not_lt.mp hlt
    have hj : bn - ndirect < nindirect := by
      simp only [maxfile] at hbn
      omega
    rw [placeOf_of_ge hge, place_entry] at hplace
    rw [if_neg hlt, if_pos hj]
    by_cases h0 : (ino i).addr ndirect = 0
    · -- two blocks: after the first is taken the other one is still free
      have hentry : entry s.disk (ino i) (bn - ndirect) = 0 := if_pos h0
      obtain ⟨b, hb, hfree, htwo⟩ := hroom (hplace.mpr hentry)
      obtain ⟨b', hb', hne, hfree'⟩ := htwo hge h0
      have hfirst := (((addrOf_stops h).and (addrOf_leaves h h0 hb)).and (addrOf_leaves h h0 hb'))
      refine hfirst.seq ?_ ?_
      · rintro - ⟨⟨⟨-, hfull⟩, -⟩, -⟩
        rw [hfull b hb] at hfree
        cases hfree
      · rintro addr s₁ ⟨⟨-, hsb, hleft⟩, -, hleft'⟩
        refine (entryOf_stops hsb).mono ?_ fun _ _ _ => trivial
        rintro - ⟨-, hfull⟩
        by_cases heq : b = addr
        · have := hleft' (heq ▸ hne)
          rw [hfull b' hb', hfree'] at this
          cases this
        · have := hleft heq
          rw [hfull b hb, hfree] at this
          cases this
    · have hentry : entry s.disk (ino i) (bn - ndirect) =
          (s.disk ((ino i).addr ndirect)).read (4 * (bn - ndirect)) 4 := if_neg h0
      refine ((addrOf_stops h).and (addrOf_wp h le_rfl)).seq (fun _ he => h0 he.1.1) ?_
      rintro addr s₁ ⟨-, ⟨rfl, -, rfl⟩ | ⟨hc, -⟩⟩
      · refine (entryOf_stops h.sb).mono ?_ fun _ _ _ => trivial
        rintro - ⟨hz, hfull⟩
        obtain ⟨b, hb, hfree, -⟩ := hroom (hplace.mpr (hentry.trans hz))
        rw [hfull b hb] at hfree
        cases hfree
      · exact absurd hc h0

/-- A directory entry lies in one block. -/
theorem writeLoop_stops {off : Nat} {src : List UInt8} (h : Holds L s ino ip i) (hsrc : src.length = direntSize)
    (hoff : off % direntSize = 0) (hmax : off + direntSize ≤ maxfile * bsize)
    (hroom : view s.disk (ino i) (off / bsize) = none → Room L s.disk (ino i) (off / bsize)) :
    Wp (writeLoop ip off src) s (fun _ => False) fun _ _ => True := by
  have hround : roundLen off src.length = src.length := by
    rw [roundLen, hsrc]
    simp only [direntSize, bsize] at *
    omega
  have hbn : off / bsize < maxfile := by
    simp only [direntSize, bsize] at *
    omega
  rw [writeLoop, if_neg (by rw [hsrc]; decide)]
  refine (bmap_stops h hbn hroom).bind fun b s₁ _ => ?_
  simp only [bread, logWrite, wp_bind, wp_gets, wp_modify, hround, List.drop_length]
  rw [writeLoop, if_pos List.length_nil]
  exact wp_pure.mpr trivial

/-- **A `writei` of one entry** goes through when its block is there or there is room for it. -/
theorem writei_entry_stops {off : Nat} {src : List UInt8} (h : Holds L s ino ip i) (hsrc : src.length = direntSize)
    (hoff : off % direntSize = 0) (htype : (ino i).type ≠ tDev)
    (hroom : off + direntSize ≤ maxfile * bsize → view s.disk (ino i) (off / bsize) = none →
      Room L s.disk (ino i) (off / bsize)) :
    Wp (writei ip off src) s (fun _ => False) fun _ _ => True := by
  simp only [writei, inode, wp_bind, wp_gets, h.copy]
  rw [if_neg htype]
  split
  · exact wp_pure.mpr trivial
  · split
    · exact wp_pure.mpr trivial
    · rename_i hwrap hfit
      have hmax : off + direntSize ≤ maxfile * bsize := by
        rw [hsrc] at hwrap hfit
        simp only [u32, maxfile, nindirect, ndirect, bsize, direntSize] at *
        omega
      rw [wp_bind]
      refine (writeLoop_stops h hsrc hoff hmax (hroom hmax)).post fun _ s₁ _ => ?_
      simp only [wp_bind, wp_gets]
      split
      · simp only [setCopy, setInode, iupdate, inode, bread, logWrite, wp_bind, wp_gets, wp_modify, wp_pure]
      · exact wp_pure.mpr trivial

end Bmap

end Xv6.Fs
