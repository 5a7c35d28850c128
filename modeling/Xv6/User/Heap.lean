import Xv6.User.Umalloc

/-!
# User — the heap over all calls

What `malloc` does to the row of blocks, and what holds after any calls of `malloc` and `free` while the
program writes to its blocks.  A call is legal if its size is one that `malloc` can compute with, and if the
pointer is one that `malloc` gave and that was not freed.
-/

namespace Xv6.User.Umalloc

open Lib

section Take
variable {E : Env} {s : St} {bs : List Block} {nu prev x : Nat}

theorem Reps.node_end (h : Reps E s bs) (hx : x ∈ E.base :: frees E.start bs) :
    x + 8 ≤ s.brk ∧ x + 8 * s.size x ≤ s.brk := by
  rw [h.brk]
  exact ⟨node_lt hx, node_end_le h.sized h.base_size hx⟩

/-- The block at a node that has a size, with the nodes before and behind it. -/
theorem Reps.split (h : Reps E s bs) (hprev : prev ∈ E.base :: frees E.start bs) (hnext : s.ptr prev = x)
    (hx : x ∈ E.base :: frees E.start bs) (hsize : 0 < s.size x) :
    ∃ l b r ns, bs = l ++ b :: r ∧ b.free = true ∧ x = after E.start l ∧
      E.base :: frees E.start l = ns ++ [prev] := by
  have hbase : x ≠ E.base := by
    rintro rfl
    rw [h.base_size] at hsize
    omega
  have hmem : x ∈ frees E.start bs := (List.mem_cons.mp hx).resolve_left hbase
  obtain ⟨l, b, r, rfl, hb, hxl⟩ := mem_frees hmem
  obtain ⟨l₁, l₂, hsplit⟩ := h.path.split_of_next hprev hnext hbase
  refine ⟨l, b, r, l₁, rfl, hb, hxl, ?_⟩
  have hcircle : (E.base :: frees E.start l) ++ x :: frees (x + 8 * b.size) r = (l₁ ++ [prev]) ++ x :: l₂ := by
    rw [List.append_assoc, List.singleton_append, ← hsplit, frees_append, frees, if_pos hb, hxl]
    rfl
  have hnodup : ((E.base :: frees E.start l) ++ x :: frees (x + 8 * b.size) r).Nodup := by
    rw [hcircle, List.append_assoc, List.singleton_append, ← hsplit]
    exact (circle_pairwise E _).imp fun hlt => Nat.ne_of_lt hlt
  obtain ⟨-, hright, hdisj⟩ := List.nodup_append.mp hnodup
  have hleft : x ∉ E.base :: frees E.start l := fun hmem => hdisj x hmem x List.mem_cons_self rfl
  exact ((List.append_cons_inj_of_notMem hleft (List.nodup_cons.mp hright).1).mp hcircle).1

/-- A block is taken from the list, all of it. -/
theorem take_whole {l r : List Block} {b : Block} {ns : List Nat} (h : Reps E s (l ++ b :: r))
    (hb : b.free = true) (hx : x = after E.start l) (hns : E.base :: frees E.start l = ns ++ [prev]) :
    Reps E { s.setPtr prev (s.ptr x) with freep := prev } (l ++ ⟨b.size, false, b.pos⟩ :: r) := by
  have hpos := b.pos
  have hlt := node_lt (last_mem hns)
  have hnotr : prev ∉ frees (x + 8 * b.size) r := not_mem_frees_of_lt (by omega)
  have hcircle : E.base :: frees E.start (l ++ ⟨b.size, false, b.pos⟩ :: r) =
      ns ++ prev :: frees (x + 8 * b.size) r := by
    rw [frees_append, frees, if_neg Bool.false_ne_true, ← List.cons_append, hns, List.append_assoc, hx]
    rfl
  have hpath := h.path
  rw [frees_append, frees, if_pos hb, ← List.cons_append, hns, List.append_assoc, ← hx] at hpath
  obtain ⟨hbelow, -, habove⟩ := Path.append_cons.mp hpath
  obtain ⟨hal, har, -⟩ := apart_append_cons.mp h.apart
  constructor
  · rw [after_split]
    exact h.brk.trans after_split
  · exact h.brk_lt
  · obtain ⟨hsl, hsb, hsr⟩ := sized_append.mp h.sized
    exact sized_append.mpr ⟨hsl, hsb, hsr⟩
  · exact h.base_size
  · rw [hcircle, Path.append_cons]
    refine ⟨hbelow.update (last_not_mem hns) _, ?_⟩
    have hpath' := habove.update hnotr (s.ptr x)
    simpa [St.setPtr] using hpath'
  · rw [hcircle]
    simp
  · exact apart_append_cons.mpr ⟨hal, har, by simp, by simp⟩

/-- Its tail is taken, and it stays in the list. -/
theorem take_tail {l r : List Block} {b : Block} (h : Reps E s (l ++ b :: r)) (hb : b.free = true)
    (hx : x = after E.start l) (hprev : prev ∈ E.base :: frees E.start (l ++ b :: r)) (hnu : 0 < nu)
    (hsize : nu < b.size) :
    Reps E { (s.setSize x (b.size - nu)).setSize (x + 8 * (b.size - nu)) nu with freep := prev }
      (l ++ ⟨b.size - nu, true, Nat.sub_pos_of_lt hsize⟩ :: ⟨nu, false, hnu⟩ :: r) := by
  have hend : x + 8 * (b.size - nu) + 8 * nu = x + 8 * b.size := by omega
  have hcircle : frees E.start (l ++ ⟨b.size - nu, true, Nat.sub_pos_of_lt hsize⟩ :: ⟨nu, false, hnu⟩ :: r) =
      frees E.start (l ++ b :: r) := by
    rw [frees_append, frees_append, frees, frees, frees, if_pos rfl, if_neg Bool.false_ne_true, if_pos hb, ← hx,
      hend]
  obtain ⟨hsl, hsb, hsr⟩ := sized_append.mp h.sized
  obtain ⟨hal, har, hlast, -⟩ := apart_append_cons.mp h.apart
  constructor
  · refine h.brk.trans ?_
    rw [after_split, after_split, after, ← hx, hend]
  · exact h.brk_lt
  · refine sized_append.mpr ⟨?_, ?_, ?_, ?_⟩
    · exact (hsl.update (.inr hx.ge)).update (.inr (by omega))
    · rw [← hx]
      refine (Function.update_of_ne (by omega) ..).trans (Function.update_self ..)
    · rw [← hx]
      exact Function.update_self ..
    · rw [← hx, hend]
      rw [← hx] at hsr
      exact (hsr.update (.inl (by omega))).update (.inl (by omega))
  · have hlt := E.base_lt
    have hle := le_after E.start l
    refine (Function.update_of_ne (by omega) ..).trans ((Function.update_of_ne (by omega) ..).trans h.base_size)
  · rw [hcircle]
    exact h.path
  · rw [hcircle]
    exact hprev
  · refine apart_append_cons.mpr ⟨hal, ?_, fun c hc hboth => hlast c hc ⟨hboth.1, hb⟩, by simp⟩
    exact List.isChain_cons.mpr ⟨fun _ _ hboth => Bool.false_ne_true hboth.1, har⟩

theorem take_spec (h : Reps E s bs) (hprev : prev ∈ E.base :: frees E.start bs) (hnext : s.ptr prev = x)
    (hx : x ∈ E.base :: frees E.start bs) (hnu : 0 < nu) (hsize : nu ≤ s.size x) :
    ∃ bs' y, Reps E (take s nu prev x).2 bs' ∧ (take s nu prev x).1 = y + 8 ∧
      ∃ l₁ l₂, allocs E.start bs = l₁ ++ l₂ ∧ allocs E.start bs' = l₁ ++ (y, nu) :: l₂ := by
  obtain ⟨hlt, hend⟩ := h.node_end hx
  have hbrk := h.brk_lt
  obtain ⟨l, b, r, ns, rfl, hb, hxl, hns⟩ := h.split hprev hnext hx (hnu.trans_le hsize)
  have hbs : s.size x = b.size := by
    rw [hxl]
    exact (sized_append.mp h.sized).2.1
  have hallocs : allocs E.start (l ++ b :: r) = allocs E.start l ++ allocs (x + 8 * b.size) r := by
    rw [allocs_append, allocs, if_pos hb, hxl]
  rw [hbs] at hsize hend
  by_cases heq : b.size = nu
  · subst heq
    have htake : take s b.size prev x = (x + 8, { s.setPtr prev (s.ptr x) with freep := prev }) := by
      rw [take, if_pos hbs, plus_eq (by omega)]
    rw [htake]
    refine ⟨_, x, take_whole h hb hxl hns, rfl, _, _, hallocs, ?_⟩
    rw [allocs_append, allocs, if_neg Bool.false_ne_true, hxl]
  · have hltb : nu < b.size := by omega
    have htake : take s nu prev x = (x + 8 * (b.size - nu) + 8,
        { (s.setSize x (b.size - nu)).setSize (x + 8 * (b.size - nu)) nu with freep := prev }) := by
      rw [take, hbs, if_neg heq]
      have hq : plus x (b.size - nu) = x + 8 * (b.size - nu) := plus_eq (by omega)
      simp only [St.setSize, Function.update_self]
      rw [hq, plus_eq (by omega)]
    rw [htake]
    refine ⟨_, x + 8 * (b.size - nu), take_tail h hb hxl hprev hnu hltb, rfl, _, _, hallocs, ?_⟩
    rw [allocs_append, allocs, if_pos rfl, allocs, if_neg Bool.false_ne_true, ← hxl]
    rw [show x + 8 * (b.size - nu) + 8 * nu = x + 8 * b.size by omega]

end Take

/-- The loop of `malloc`, over any way to get more memory. -/
def mallocLoopWith (more : St → Nat → Option (Nat × St)) (nu : Nat) : Nat → St → Nat → Nat → Option (Nat × St)
  | 0, _, _, _ => none
  | fuel + 1, s, prevp, p =>
      if nu ≤ s.size p then some (take s nu prevp p)
      else if p = s.freep then
        match more s nu with
        | none => none
        | some (0, s) => some (0, s)
        | some (p, s) => mallocLoopWith more nu fuel s p (s.ptr p)
      else mallocLoopWith more nu fuel s p (s.ptr p)

/-- What a way to get more memory may do: nothing, or add a free block of this size; the break is then in `B`. -/
def Extends (E : Env) (B : Nat → Prop) (s : St) (bs : List Block) (nu : Nat) (r : Option (Nat × St)) : Prop :=
  (∃ s', r = some (0, s') ∧ Reps E s' bs ∧ s'.brk = s.brk) ∨
  ∃ s' bs', r = some (s'.freep, s') ∧ Reps E s' bs' ∧ s'.brk ≤ s.brk + 8 * nu + 8 * 4096 ∧ B s'.brk ∧
    allocs E.start bs' = allocs E.start bs ∧ ∃ d ∈ bs', d.free = true ∧ nu ≤ d.size

section Malloc
variable {E : Env} {s : St} {bs : List Block} {nu prev p fuel : Nat} {ns : List Nat} {B : Nat → Prop}
  {more : St → Nat → Option (Nat × St)}

theorem mallocLoop_eq : mallocLoop E nu fuel s prev p = mallocLoopWith (morecore E) nu fuel s prev p := by
  induction fuel generalizing s prev p with
  | zero => rfl
  | succ fuel ih =>
      rw [mallocLoop, mallocLoopWith]
      refine ite_congr rfl (fun _ => rfl) fun _ => ite_congr rfl (fun _ => ?_) fun _ => ih
      rcases morecore E s nu with - | ⟨- | r, s⟩
      · rfl
      · rfl
      · exact ih

/-- The memory that `sbrk` gave, as an allocated block. -/
theorem Reps.grow (h : Reps E s bs) (hnu : 0 < nu) (hbrk : s.brk + nu * 8 < 2 ^ 32) (calls : Nat) :
    Reps E (St.setSize { s with brk := s.brk + nu * 8, calls } s.brk nu) (bs ++ [⟨nu, false, hnu⟩]) := by
  have hbase := E.base_lt
  have hle := le_after E.start bs
  have hb := h.brk
  have hcircle : frees E.start (bs ++ [⟨nu, false, hnu⟩]) = frees E.start bs := by
    rw [frees_append, frees, if_neg Bool.false_ne_true, frees, List.append_nil]
  constructor
  · rw [after_split, after, ← h.brk, Nat.mul_comm 8 nu]
    rfl
  · exact hbrk
  · refine sized_append.mpr ⟨h.sized.update (.inr hb.ge), ?_, trivial⟩
    rw [← hb]
    exact Function.update_self ..
  · exact (Function.update_of_ne (by omega) ..).trans h.base_size
  · rw [hcircle]
    exact h.path
  · rw [hcircle]
    exact h.freep
  · exact apart_append_cons.mpr ⟨h.apart, .nil, by simp, by simp⟩

theorem Reps.freep_pos (h : Reps E s bs) : s.freep ≠ 0 := by
  have hbase := E.base_pos
  rcases List.mem_cons.mp h.freep with hf | hf
  · omega
  · have hlt := base_lt_of_mem_frees (Nat.le_refl _) hf
    omega

/-- The memory that `sbrk` gave is freed. -/
theorem extends_of_free (h : Reps E s bs) {n : Nat} (hn : nu ≤ n) (hle : n ≤ nu + 4096) (hpos : 0 < n)
    (hbrk : s.brk + n * 8 < 2 ^ 32) (hB : B (s.brk + n * 8)) (calls : Nat) :
    Extends E B s bs nu (do
      let s ← free (St.setSize { s with brk := s.brk + n * 8, calls } s.brk n) (s.brk + 8)
      return (s.freep, s)) := by
  obtain ⟨s', bs', hfree, hreps, hbrk', hallocs, d, hd, hdf, hsize⟩ := free_spec (h.grow hpos hbrk calls) rfl
  rw [← h.brk] at hfree
  rw [hfree]
  have hsame : s'.brk = s.brk + n * 8 := hbrk'
  refine .inr ⟨s', bs', rfl, hreps, by omega, hsame ▸ hB, ?_, d, hd, hdf, hn.trans hsize⟩
  rw [hallocs, allocs, List.append_nil]

theorem morecore_spec (h : Reps E s bs) (nu : Nat) : Extends E (fun _ => True) s bs nu (morecore E s nu) := by
  obtain ⟨n, hn, hn', hpos, hle⟩ : ∃ n, n = (if nu < 4096 then 4096 else nu) ∧ nu ≤ n ∧ 0 < n ∧ n ≤ nu + 4096 := by
    refine ⟨_, rfl, ?_, ?_, ?_⟩ <;> split_ifs <;> omega
  rw [morecore, ← hn, sbrk]
  split_ifs with hok
  · exact extends_of_free h hn' hle hpos hok.2 trivial (s.calls + 1)
  · exact .inl ⟨_, rfl, ⟨h.brk, h.brk_lt, h.sized, h.base_size, h.path, h.freep, h.apart⟩, rfl⟩

/-- A round that finds a block, on the way from `p` to `freep`. -/
theorem mallocLoop_found (hpath : Path s.ptr p ns s.freep) (hns : s.freep ∉ ns) (hnext : s.ptr prev = p)
    (hbig : ∃ x ∈ ns ++ [s.freep], nu ≤ s.size x) (hfuel : ns.length < fuel) :
    ∃ prev' ∈ prev :: ns, ∃ x ∈ ns ++ [s.freep], s.ptr prev' = x ∧ nu ≤ s.size x ∧
      mallocLoopWith more nu fuel s prev p = some (take s nu prev' x) := by
  induction ns generalizing prev p fuel with
  | nil =>
      obtain ⟨fuel, rfl⟩ := Nat.exists_eq_add_of_le' hfuel
      obtain ⟨x, hx, hsize⟩ := hbig
      obtain rfl := List.mem_singleton.mp hx
      obtain rfl : p = s.freep := hpath
      exact ⟨prev, List.mem_cons_self, s.freep, hx, hnext, hsize, if_pos hsize⟩
  | cons z ns ih =>
      obtain ⟨fuel, rfl⟩ := Nat.exists_eq_add_of_le' hfuel
      obtain ⟨rfl, hpath⟩ := hpath
      rw [List.mem_cons, not_or] at hns
      by_cases hp : nu ≤ s.size p
      · exact ⟨prev, List.mem_cons_self, p, List.mem_cons_self, hnext, hp, if_pos hp⟩
      · have hbig' : ∃ x ∈ ns ++ [s.freep], nu ≤ s.size x := by
          obtain ⟨x, hx, hsize⟩ := hbig
          rcases List.mem_cons.mp hx with rfl | hx
          · exact absurd hsize hp
          · exact ⟨x, hx, hsize⟩
        have hfuel' : ns.length < fuel + ns.length + 1 := by omega
        obtain ⟨prev', hprev', x, hx, hnext', hsize, hloop⟩ := ih hpath hns.2 rfl hbig' hfuel'
        refine ⟨prev', List.mem_cons_of_mem _ hprev', x, List.mem_cons_of_mem _ hx, hnext', hsize, ?_⟩
        exact (if_neg hp).trans ((if_neg (Ne.symm hns.1)).trans hloop)

/-- The rounds that come to `freep` without finding one. -/
theorem mallocLoop_none (hpath : Path s.ptr p ns s.freep) (hns : s.freep ∉ ns)
    (hsmall : ∀ x ∈ ns ++ [s.freep], ¬ nu ≤ s.size x) :
    mallocLoopWith more nu (fuel + (ns.length + 1)) s prev p =
      match more s nu with
      | none => none
      | some (0, s) => some (0, s)
      | some (p, s) => mallocLoopWith more nu fuel s p (s.ptr p) := by
  induction ns generalizing prev p with
  | nil =>
      obtain rfl : p = s.freep := hpath
      exact (if_neg (hsmall _ (List.mem_singleton_self _))).trans (if_pos rfl)
  | cons z ns ih =>
      obtain ⟨rfl, hpath⟩ := hpath
      rw [List.mem_cons, not_or] at hns
      refine (if_neg (hsmall p List.mem_cons_self)).trans ((if_neg (Ne.symm hns.1)).trans ?_)
      exact ih hpath hns.2 fun x hx => hsmall x (List.mem_cons_of_mem _ hx)

/-- The way around the circle that `malloc` goes. -/
theorem Reps.turn (h : Reps E s bs) : ∃ ns, Path s.ptr (s.ptr s.freep) ns s.freep ∧ s.freep ∉ ns ∧
    ns.length < s.brk ∧ ∀ x, x ∈ ns ++ [s.freep] ↔ x ∈ E.base :: frees E.start bs := by
  obtain ⟨ns, ⟨-, hpath⟩, hperm⟩ := h.rotate
  have hnodup : (s.freep :: ns).Nodup :=
    hperm.nodup_iff.mpr ((circle_pairwise E bs).imp fun hlt => Nat.ne_of_lt hlt)
  refine ⟨ns, hpath, (List.nodup_cons.mp hnodup).1, ?_, fun x => ?_⟩
  · have hlen := h.length_circle_le
    rwa [← hperm.length_eq] at hlen
  · rw [← hperm.mem_iff]
    simp [or_comm]

theorem take_brk : (take s nu prev p).2.brk = s.brk := by
  rw [take]
  split_ifs <;> rfl

/-- A block that is large enough is found. -/
theorem mallocLoop_take (h : Reps E s bs) (hnu : 0 < nu)
    (hbig : ∃ x ∈ E.base :: frees E.start bs, nu ≤ s.size x) (hfuel : s.brk ≤ fuel) :
    ∃ s' bs' y, mallocLoopWith more nu fuel s s.freep (s.ptr s.freep) = some (y + 8, s') ∧ Reps E s' bs' ∧
      s'.brk = s.brk ∧ ∃ l₁ l₂, allocs E.start bs = l₁ ++ l₂ ∧ allocs E.start bs' = l₁ ++ (y, nu) :: l₂ := by
  obtain ⟨ns, hpath, hns, hlen, hmem⟩ := h.turn
  obtain ⟨x₀, hx₀, hsize₀⟩ := hbig
  obtain ⟨prev, hprev, x, hx, hnext, hsize, hloop⟩ := mallocLoop_found hpath hns rfl
    ⟨x₀, (hmem x₀).mpr hx₀, hsize₀⟩ (hlen.trans_le hfuel)
  have hprev' : prev ∈ E.base :: frees E.start bs := by
    rw [← hmem prev]
    rcases List.mem_cons.mp hprev with rfl | hprev
    · exact List.mem_append_right ns (List.mem_singleton_self _)
    · exact List.mem_append_left _ hprev
  obtain ⟨bs', y, hreps, hy, hallocs⟩ := take_spec h hprev' hnext ((hmem x).mp hx) hnu hsize
  refine ⟨(take s nu prev x).2, bs', y, ?_, hreps, take_brk, hallocs⟩
  rw [hloop, ← hy]

/-- `malloc` returns 0 and leaves the blocks, or gives one more. -/
theorem mallocLoop_spec (h : Reps E s bs) (hnu : 0 < nu) (hB : B s.brk) (hmore : Extends E B s bs nu (more s nu)) :
    ∃ r s' bs', mallocLoopWith more nu (2 * s.brk + 8 * nu + 8 * 4096) s s.freep (s.ptr s.freep) = some (r, s') ∧
      Reps E s' bs' ∧ B s'.brk ∧
      (r = 0 ∧ allocs E.start bs' = allocs E.start bs ∨
        ∃ y l₁ l₂, r = y + 8 ∧ allocs E.start bs = l₁ ++ l₂ ∧
          allocs E.start bs' = l₁ ++ (y, nu) :: l₂) := by
  by_cases hbig : ∃ x ∈ E.base :: frees E.start bs, nu ≤ s.size x
  · have hfuel : s.brk ≤ 2 * s.brk + 8 * nu + 8 * 4096 := by omega
    obtain ⟨s', bs', y, hloop, hreps, hbrk, l₁, l₂, h₁, h₂⟩ := mallocLoop_take h hnu hbig hfuel
    exact ⟨_, s', bs', hloop, hreps, hbrk ▸ hB, .inr ⟨y, l₁, l₂, rfl, h₁, h₂⟩⟩
  · obtain ⟨ns, hpath, hns, hlen, hmem⟩ := h.turn
    have hsmall : ∀ x ∈ ns ++ [s.freep], ¬ nu ≤ s.size x :=
      fun x hx hsize => hbig ⟨x, (hmem x).mp hx, hsize⟩
    obtain ⟨fuel, hfuel⟩ : ∃ fuel, 2 * s.brk + 8 * nu + 8 * 4096 = fuel + (ns.length + 1) :=
      ⟨2 * s.brk + 8 * nu + 8 * 4096 - (ns.length + 1), by omega⟩
    rw [hfuel, mallocLoop_none hpath hns hsmall]
    rcases hmore with ⟨s', hmore, hreps, hbrk⟩ | ⟨s', bs', hmore, hreps, hbrk, hB', hsame, d, hd, hdf, hsize⟩
    · rw [hmore]
      exact ⟨0, s', bs, rfl, hreps, hbrk ▸ hB, .inl ⟨rfl, rfl⟩⟩
    · rw [hmore]
      obtain ⟨f, hf⟩ := Nat.exists_eq_succ_of_ne_zero hreps.freep_pos
      have hbig' : ∃ x ∈ E.base :: frees E.start bs', nu ≤ s'.size x := by
        obtain ⟨l, r, rfl⟩ := List.mem_iff_append.mp hd
        refine ⟨after E.start l, ?_, ?_⟩
        · rw [frees_append, frees, if_pos hdf]
          simp
        · rw [(sized_append.mp hreps.sized).2.1]
          exact hsize
      have hfuel' : s'.brk ≤ fuel := by omega
      obtain ⟨s'', bs'', y, hloop, hreps', hbrk', l₁, l₂, h₁, h₂⟩ := mallocLoop_take hreps hnu hbig' hfuel'
      refine ⟨y + 8, s'', bs'', ?_, hreps', hbrk' ▸ hB', .inr ⟨y, l₁, l₂, rfl, hsame ▸ h₁, h₂⟩⟩
      rw [hf] at hloop ⊢
      exact hloop

end Malloc

/-! ### Runs -/

/-- The memory, and the pointers that `malloc` gave and that were not freed, with their sizes. -/
structure Sys where
  st : St
  live : List (Nat × UInt32)

inductive Event where
  | malloc (nbytes : UInt32)
  | free (ap : Nat)
  /-- The program writes to 8 bytes of a block. -/
  | write (x ptr size : Nat)

/-- The sum and the argument of `sbrk` are not too large; the pointer is in use; the bytes are the program's. -/
def Legal (s : Sys) : Event → Prop
  | .malloc nbytes => nbytes.toNat + 7 < 2 ^ 32 ∧ nunits nbytes * 8 < 2 ^ 31
  | .free ap => ∃ m ∈ s.live, m.1 = ap
  | .write x _ _ => ∃ m ∈ s.live, m.1 ≤ x ∧ x < m.1 + m.2.toNat ∧ (x - m.1) % 8 = 0

instance (s : Sys) : DecidablePred (Legal s) := fun e => by
  cases e <;> unfold Legal <;> infer_instance

def call (E : Env) (s : Sys) : Event → Option Sys
  | .malloc nbytes => do
      let (r, st) ← malloc E s.st nbytes
      return ⟨st, if r = 0 then s.live else (r, nbytes) :: s.live⟩
  | .free ap => do
      let st ← free s.st ap
      return ⟨st, s.live.filter (·.1 ≠ ap)⟩
  | .write x ptr size => some { s with st := (s.st.setPtr x ptr).setSize x size }

def step (E : Env) (s : Sys) (e : Event) : Option Sys := if Legal s e then call E s e else none

def init (E : Env) (ptr size : Nat → Nat) : Sys := ⟨⟨ptr, size, 0, E.start, 0⟩, []⟩

/-- The pointers in use are those of the allocated blocks, which have room for what was asked for. -/
structure Live (live : List (Nat × UInt32)) (as : List (Nat × Nat)) : Prop where
  room : ∀ m ∈ live, ∃ a ∈ as, m.1 = a.1 + 8 ∧ m.2.toNat ≤ 8 * (a.2 - 1)
  known : ∀ a ∈ as, ∃ m ∈ live, m.1 = a.1 + 8

/-- Before the first call, and after it. -/
def Inv (E : Env) (s : Sys) : Prop :=
  (s.st.freep = 0 ∧ s.st.brk = E.start ∧ s.live = []) ∨
    ∃ bs, Reps E s.st bs ∧ Live s.live (allocs E.start bs)

section Calls
variable {E : Env} {s : Sys}

theorem nunits_val (nbytes : UInt32) : nunits nbytes = (nbytes.toNat + 7) % 2 ^ 32 / 8 + 1 := by
  have hsum : (nbytes + 8 - 1).toNat = (nbytes.toNat + 7) % 2 ^ 32 := by
    rw [UInt32.toNat_sub, UInt32.toNat_add]
    change (2 ^ 32 - 1 + (nbytes.toNat + 8) % 2 ^ 32) % 2 ^ 32 = _
    omega
  rw [nunits, UInt32.toNat_add, UInt32.toNat_div, hsum]
  change ((nbytes.toNat + 7) % 2 ^ 32 / 8 + 1) % 2 ^ 32 = _
  omega

theorem nunits_eq {nbytes : UInt32} (h : nbytes.toNat + 7 < 2 ^ 32) :
    nunits nbytes = (nbytes.toNat + 7) / 8 + 1 := by
  rw [nunits_val, Nat.mod_eq_of_lt h]

/-- The list is made by the first call. -/
theorem Inv.initBase (h : Inv E s) :
    ∃ bs, Reps E (initBase E s.st) bs ∧ Live s.live (allocs E.start bs) := by
  rcases h with ⟨hfreep, hbrk, hlive⟩ | ⟨bs, hreps, hlive⟩
  · refine ⟨[], ?_, by rw [hlive]; exact ⟨nofun, nofun⟩⟩
    rw [Umalloc.initBase, if_pos hfreep]
    constructor
    · exact hbrk
    · exact hbrk.trans_lt E.start_lt
    · trivial
    · exact Function.update_self ..
    · exact ⟨rfl, Function.update_self ..⟩
    · exact List.mem_singleton_self E.base
    · exact .nil
  · refine ⟨bs, ?_, hlive⟩
    rw [Umalloc.initBase, if_neg hreps.freep_pos]
    exact hreps

theorem Live.malloc {live : List (Nat × UInt32)} {l₁ l₂ : List (Nat × Nat)} (h : Live live (l₁ ++ l₂))
    {nbytes : UInt32} {y nu : Nat} (hroom : nbytes.toNat ≤ 8 * (nu - 1)) :
    Live ((y + 8, nbytes) :: live) (l₁ ++ (y, nu) :: l₂) := by
  constructor
  · intro m hm
    rcases List.mem_cons.mp hm with rfl | hm
    · exact ⟨(y, nu), by simp, rfl, hroom⟩
    · obtain ⟨a, ha, hma⟩ := h.room m hm
      refine ⟨a, ?_, hma⟩
      rcases List.mem_append.mp ha with ha | ha <;> simp [ha]
  · intro a ha
    rcases List.mem_append.mp ha with ha | ha
    · obtain ⟨m, hm, hma⟩ := h.known a (List.mem_append_left _ ha)
      exact ⟨m, List.mem_cons_of_mem _ hm, hma⟩
    · rcases List.mem_cons.mp ha with rfl | ha
      · exact ⟨(y + 8, nbytes), List.mem_cons_self, rfl⟩
      · obtain ⟨m, hm, hma⟩ := h.known a (List.mem_append_right _ ha)
        exact ⟨m, List.mem_cons_of_mem _ hm, hma⟩

/-- The pointers in use after `malloc` has returned `r`. -/
theorem Inv.of_malloc {st : St} {bs bs' : List Block} {nbytes : UInt32} {r nu : Nat}
    (hlive : Live s.live (allocs E.start bs)) (hreps' : Reps E st bs') (hroom : nbytes.toNat ≤ 8 * (nu - 1))
    (hr : r = 0 ∧ allocs E.start bs' = allocs E.start bs ∨
      ∃ y l₁ l₂, r = y + 8 ∧ allocs E.start bs = l₁ ++ l₂ ∧ allocs E.start bs' = l₁ ++ (y, nu) :: l₂) :
    Inv E ⟨st, if r = 0 then s.live else (r, nbytes) :: s.live⟩ := by
  refine .inr ⟨bs', hreps', ?_⟩
  rcases hr with ⟨rfl, hsame⟩ | ⟨y, l₁, l₂, rfl, h₁, h₂⟩
  · rw [if_pos rfl, hsame]
    exact hlive
  · rw [if_neg (by omega), h₂]
    rw [h₁] at hlive
    exact hlive.malloc hroom

theorem Inv.malloc (h : Inv E s) {nbytes : UInt32} (hlegal : nbytes.toNat + 7 < 2 ^ 32) :
    ∃ s', call E s (.malloc nbytes) = some s' ∧ Inv E s' := by
  obtain ⟨bs, hreps, hlive⟩ := h.initBase
  have hnu := nunits_eq hlegal
  obtain ⟨r, st, bs', hloop, hreps', -, hr⟩ :=
    mallocLoop_spec hreps (show 0 < nunits nbytes by omega) trivial (morecore_spec hreps _)
  have hcall : call E s (.malloc nbytes) = some ⟨st, if r = 0 then s.live else (r, nbytes) :: s.live⟩ := by
    rw [call, Umalloc.malloc, mallocLoop_eq, hloop]
    rfl
  exact ⟨_, hcall, .of_malloc hlive hreps' (by omega) hr⟩

theorem Live.free {live : List (Nat × UInt32)} {l₁ l₂ : List (Nat × Nat)} {x z : Nat}
    (h : Live live (l₁ ++ (x, z) :: l₂)) (hx : ∀ a ∈ l₁ ++ l₂, a.1 ≠ x) :
    Live (live.filter (·.1 ≠ x + 8)) (l₁ ++ l₂) := by
  constructor
  · intro m hm
    obtain ⟨hm, hne⟩ := List.mem_filter.mp hm
    obtain ⟨a, ha, hma, hroom⟩ := h.room m hm
    refine ⟨a, ?_, hma, hroom⟩
    have hax : a ≠ (x, z) := by
      rintro rfl
      simp [hma] at hne
    simpa [hax] using ha
  · intro a ha
    obtain ⟨m, hm, hma⟩ := h.known a (by
      rcases List.mem_append.mp ha with ha | ha <;> simp [ha])
    refine ⟨m, List.mem_filter.mpr ⟨hm, ?_⟩, hma⟩
    have hne := hx a ha
    simpa [hma] using hne

theorem Inv.free (h : Inv E s) {ap : Nat} (hlegal : ∃ m ∈ s.live, m.1 = ap) :
    ∃ s', call E s (.free ap) = some s' ∧ Inv E s' := by
  obtain ⟨m, hm, rfl⟩ := hlegal
  rcases h with ⟨-, -, hnil⟩ | ⟨bs, hreps, hlive⟩
  · rw [hnil] at hm
    cases hm
  · obtain ⟨⟨x, z⟩, ha, hma, -⟩ := hlive.room m hm
    obtain ⟨l, b, r, rfl, hb, rfl, rfl⟩ := mem_allocs ha
    obtain ⟨st, bs', hfree, hreps', -, hallocs, -⟩ := free_spec hreps hb
    have hsplit : allocs E.start (l ++ b :: r) =
        allocs E.start l ++ (after E.start l, b.size) :: allocs (after E.start l + 8 * b.size) r := by
      rw [allocs_append, allocs, hb, if_neg Bool.false_ne_true]
    refine ⟨⟨st, s.live.filter (·.1 ≠ m.1)⟩, ?_, .inr ⟨bs', hreps', ?_⟩⟩
    · rw [call, hma, hfree]
      rfl
    · rw [hsplit] at hlive
      rw [hallocs, hma]
      refine hlive.free fun a ha' => ?_
      have hpos := b.pos
      rcases List.mem_append.mp ha' with ha' | ha'
      · have hle := (bounds_of_mem_allocs ha').2
        omega
      · have hle := (bounds_of_mem_allocs ha').1
        omega

/-- Nothing in the list or in a header is inside of an allocated block. -/
theorem Reps.write {st : St} {l r : List Block} {b : Block} {x : Nat} (h : Reps E st (l ++ b :: r))
    (hb : b.free = false) (hx : after E.start l < x) (hx' : x < after E.start l + 8 * b.size) (v w : Nat) :
    Reps E ((st.setPtr x v).setSize x w) (l ++ b :: r) := by
  have hbase := E.base_lt
  have hle := le_after E.start l
  obtain ⟨hsl, hsb, hsr⟩ := sized_append.mp h.sized
  constructor
  · exact h.brk
  · exact h.brk_lt
  · refine sized_append.mpr ⟨hsl.update (.inr hx.le), ?_, hsr.update (.inl hx')⟩
    exact (Function.update_of_ne (Nat.ne_of_lt hx) ..).trans hsb
  · exact (Function.update_of_ne (by omega) ..).trans h.base_size
  · refine h.path.update ?_ v
    rw [List.mem_cons, not_or, frees_append, frees, hb, if_neg Bool.false_ne_true, List.mem_append, not_or]
    refine ⟨by omega, fun hmem => ?_, not_mem_frees_of_lt hx'⟩
    have hend := (bounds_of_mem_frees hmem).2
    omega
  · exact h.freep
  · exact h.apart

theorem Inv.write (h : Inv E s) {x v w : Nat}
    (hlegal : ∃ m ∈ s.live, m.1 ≤ x ∧ x < m.1 + m.2.toNat ∧ (x - m.1) % 8 = 0) :
    ∃ s', call E s (.write x v w) = some s' ∧ Inv E s' := by
  obtain ⟨m, hm, hle, hlt, -⟩ := hlegal
  rcases h with ⟨-, -, hnil⟩ | ⟨bs, hreps, hlive⟩
  · rw [hnil] at hm
    cases hm
  · obtain ⟨⟨y, z⟩, ha, hma, hroom⟩ := hlive.room m hm
    obtain ⟨l, b, r, rfl, hb, rfl, rfl⟩ := mem_allocs ha
    dsimp only at hma hroom
    exact ⟨_, rfl, .inr ⟨_, hreps.write hb (by omega) (by omega) v w, hlive⟩⟩

theorem Inv.call (h : Inv E s) {e : Event} (hlegal : Legal s e) : ∃ s', call E s e = some s' ∧ Inv E s' := by
  cases e with
  | malloc nbytes => exact h.malloc hlegal.1
  | free ap => exact h.free hlegal
  | write x v w => exact h.write hlegal

theorem Inv.step {s' : Sys} {e : Event} (h : Inv E s) (hstep : step E s e = some s') : Inv E s' := by
  unfold Umalloc.step at hstep
  split_ifs at hstep with hlegal
  obtain ⟨s'', hcall, hinv⟩ := h.call hlegal
  rw [hcall] at hstep
  cases hstep
  exact hinv

end Calls

/-- The blocks from `start` to the break, and the circle of the free ones. -/
structure Intact (E : Env) (s : Sys) (bs : List Block) : Prop where
  brk : s.st.brk = after E.start bs
  sized : Sized s.st.size E.start bs
  apart : Apart bs
  live : Live s.live (allocs E.start bs)
  circle : s.st.freep = 0 ∧ bs = [] ∨
    Path s.st.ptr E.base (E.base :: frees E.start bs) E.base ∧
      (E.base :: frees E.start bs).Pairwise (· < ·) ∧ s.st.freep ∈ E.base :: frees E.start bs

theorem Inv.intact {E : Env} {s : Sys} (h : Inv E s) : ∃ bs, Intact E s bs := by
  rcases h with ⟨hfreep, hbrk, hlive⟩ | ⟨bs, hreps, hlive⟩
  · exact ⟨[], hbrk, trivial, .nil, by rw [hlive]; exact ⟨nofun, nofun⟩, .inl ⟨hfreep, rfl⟩⟩
  · exact ⟨bs, hreps.brk, hreps.sized, hreps.apart, hlive,
      .inr ⟨hreps.path, circle_pairwise E bs, hreps.freep⟩⟩

/-- After any calls, with `sbrk` failing at any of its calls, the heap is intact, and the next call returns. -/
theorem heap_intact (E : Env) (ptr size : Nat → Nat) {es : List Event} {s : Sys}
    (h : runs (step E) (init E ptr size) es = some s) :
    (∃ bs, Intact E s bs) ∧ ∀ e, Legal s e → (step E s e).isSome = true := by
  have hinv : Inv E s := runs_inv_all (fun _ _ _ hs hstep => hs.step hstep) (.inl ⟨rfl, rfl, rfl⟩) h
  refine ⟨hinv.intact, fun e hlegal => ?_⟩
  obtain ⟨s', hcall, -⟩ := hinv.call hlegal
  rw [step, if_pos hlegal, hcall]
  rfl

/-- `base` below a heap that can grow twice. -/
def smallEnv : Env := ⟨64, 4096, (· < 2), by decide, by decide, by decide⟩

def blank : Nat → Nat := fun _ => 0

/-- Two blocks, of which the upper one is freed and the other written to; then one that needs more memory. -/
def fewCalls : List Event :=
  [.malloc 10, .malloc 20, .free 36848, .write 36816 7 7, .malloc 40000, .free 36816]

theorem fewCalls_runs : (runs (step smallEnv) (init smallEnv blank blank) fewCalls).isSome = true := by
  decide

theorem fewCalls_intact :
    (∃ bs, Intact smallEnv ((runs (step smallEnv) (init smallEnv blank blank) fewCalls).get fewCalls_runs) bs) ∧
      ∀ e, Legal ((runs (step smallEnv) (init smallEnv blank blank) fewCalls).get fewCalls_runs) e →
        (step smallEnv ((runs (step smallEnv) (init smallEnv blank blank) fewCalls).get fewCalls_runs) e).isSome =
          true :=
  heap_intact smallEnv blank blank (Option.some_get fewCalls_runs).symm

/-- The sum in `nunits` wraps: the largest request gets a pointer to no bytes at all. -/
theorem malloc_max_no_room : nunits 4294967295 * 8 < 2 ^ 31 ∧
    (malloc smallEnv (init smallEnv blank blank).st 4294967295).any
      (fun r => r.1 ≠ 0 ∧ r.2.size (r.1 - 8) = 1) = true := by
  decide

end Xv6.User.Umalloc
