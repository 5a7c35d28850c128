import Xv6.Syscall.Dots
import Xv6.Syscall.Fail

/-!
# Syscall — names and link counts

A name is an entry of a directory in use.  In `Exact` nodes every name is one of an inode that is there,
`.` names the directory itself and `..` the one directory with a name for it, and the link count of an
inode is the number of names of it, `.` apart.

The calls keep this as long as no directory is in use that has been removed: such a directory still has
`..`, whose inode may go, and it still takes new names.  A link count has 16 bits and is taken not to
overflow.
-/

namespace Xv6.Syscall
open Lib Lib.Prog Fs

/-- The entries of a node, if it is a directory. -/
def dirEntries : Option Node → List Dirent
  | some nd => if nd.type = tDir then entries nd.data else []
  | none => []

/-- How many entries of all directories the test holds for. -/
def total (N : Nat) (p : Dirent → Bool) (f : Nat → Option Node) : Nat :=
  ∑ d ∈ Finset.range N, (dirEntries (f d)).countP p

/-- A name for inode `i` other than `.` and `..`. -/
def realTo (i : Nat) (e : Dirent) : Bool := decide (e.inum = i ∧ e.name ≠ dot ∧ e.name ≠ dotdot)

def upTo (i : Nat) (e : Dirent) : Bool := decide (e.inum = i ∧ e.name = dotdot)

structure Exact (N : Nat) (f : Nat → Option Node) : Prop where
  zero : f 0 = none
  range : ∀ i, f i ≠ none → i < N
  root : ∃ nd, f rootino = some nd ∧ nd.type = tDir
  rootUp : ∀ e ∈ dirEntries (f rootino), e.inum ≠ 0 → e.name = dotdot → e.inum = rootino
  here : ∀ d, ∀ e ∈ dirEntries (f d), e.inum ≠ 0 → e.name = dot → e.inum = d
  up : ∀ d, ∀ e ∈ dirEntries (f d), e.inum ≠ 0 → e.name = dotdot →
    ∃ nd, f e.inum = some nd ∧ nd.type = tDir
  real : ∀ d, ∀ e ∈ dirEntries (f d), e.inum ≠ 0 → e.name ≠ dot → e.name ≠ dotdot →
    e.inum ≠ d ∧ e.inum ≠ rootino ∧ f e.inum ≠ none ∧
      ∀ e' ∈ dirEntries (f e.inum), e'.inum ≠ 0 → e'.name = dotdot → e'.inum = d
  count : ∀ i nd, f i = some nd → nd.nlink.toNat = total N (realTo i) f + total N (upTo i) f
  one : ∀ i nd, f i = some nd → nd.type = tDir → i ≠ rootino → total N (realTo i) f = 1

/-! ### Counting -/

section Count
variable {N d i k : Nat} {p : Dirent → Bool} {f : Nat → Option Node} {o : Option Node} {es : List Dirent}
  {e de : Dirent}

theorem dirEntries_some {nd : Node} (h : nd.type = tDir) : dirEntries (some nd) = entries nd.data := if_pos h

theorem dirEntries_file {nd : Node} (h : nd.type ≠ tDir) : dirEntries (some nd) = [] := if_neg h

theorem isDir_of_mem (h : e ∈ dirEntries o) : ∃ nd, o = some nd ∧ nd.type = tDir := by
  cases o with
  | none => cases h
  | some nd =>
      by_cases ht : nd.type = tDir
      · exact ⟨nd, rfl, ht⟩
      · rw [dirEntries_file ht] at h
        cases h

theorem total_update (hd : d < N) : total N p (Function.update f d o) + (dirEntries (f d)).countP p =
    total N p f + (dirEntries o).countP p := by
  unfold total
  have hmem : d ∈ Finset.range N := Finset.mem_range.mpr hd
  rw [← Finset.add_sum_erase _ _ hmem, ← Finset.add_sum_erase _ (fun x => (dirEntries (f x)).countP p) hmem,
    Function.update_self]
  have hrest : ∑ x ∈ (Finset.range N).erase d, (dirEntries (Function.update f d o x)).countP p =
      ∑ x ∈ (Finset.range N).erase d, (dirEntries (f x)).countP p :=
    Finset.sum_congr rfl fun x hx => by rw [Function.update_of_ne (Finset.ne_of_mem_erase hx)]
  rw [hrest]
  omega

theorem total_congr {f' : Nat → Option Node} (h : ∀ j, dirEntries (f' j) = dirEntries (f j)) :
    total N p f' = total N p f :=
  Finset.sum_congr rfl fun j _ => by rw [h j]

theorem total_pos (hd : d < N) (he : e ∈ dirEntries (f d)) (hp : p e = true) : 0 < total N p f := by
  have hle := Finset.single_le_sum (f := fun d => (dirEntries (f d)).countP p) (fun _ _ => Nat.zero_le _)
    (Finset.mem_range.mpr hd)
  exact (List.countP_pos_iff.mpr ⟨e, he, hp⟩).trans_le hle

theorem exists_of_total_pos (h : 0 < total N p f) : ∃ d < N, ∃ e ∈ dirEntries (f d), p e = true := by
  obtain ⟨d, hd, hne⟩ := Finset.exists_ne_zero_of_sum_ne_zero (Nat.ne_of_gt h)
  obtain ⟨e, he, hp⟩ := List.countP_pos_iff.mp (Nat.pos_of_ne_zero hne)
  exact ⟨d, Finset.mem_range.mp hd, e, he, hp⟩

/-- Two directories with such an entry. -/
theorem two_le_total {d' : Nat} {e' : Dirent} (hd : d < N) (hd' : d' < N) (hne : d ≠ d')
    (he : e ∈ dirEntries (f d)) (he' : e' ∈ dirEntries (f d')) (hp : p e = true) (hp' : p e' = true) :
    2 ≤ total N p f := by
  unfold total
  have hmem : d ∈ Finset.range N := Finset.mem_range.mpr hd
  have hmem' : d' ∈ (Finset.range N).erase d := Finset.mem_erase.mpr ⟨hne.symm, Finset.mem_range.mpr hd'⟩
  rw [← Finset.add_sum_erase _ _ hmem, ← Finset.add_sum_erase _ _ hmem']
  have h1 := List.countP_pos_iff.mpr ⟨e, he, hp⟩
  have h2 := List.countP_pos_iff.mpr ⟨e', he', hp'⟩
  omega

theorem countP_putEntry (hk : k ≤ es.length) (hold : ∀ e, es[k]? = some e → p e = false) :
    (putEntry es k de).countP p = es.countP p + if p de = true then 1 else 0 := by
  have hsplit : es.countP p = (es.take k).countP p + (es.drop (k + 1)).countP p := by
    conv_lhs => rw [← List.take_append_drop k es, List.countP_append]
    congr 1
    by_cases hlt : k < es.length
    · rw [List.drop_eq_getElem_cons hlt, List.countP_cons_of_neg]
      rw [hold es[k] (List.getElem?_eq_getElem hlt)]
      exact Bool.false_ne_true
    · rw [List.drop_eq_nil_of_le (by omega), List.drop_eq_nil_of_le (by omega)]
  rw [putEntry, List.countP_append, List.countP_cons, hsplit]
  omega

theorem countP_putEntry_clear (he : es[k]? = some e) (hp : p de = false) :
    (putEntry es k de).countP p + (if p e = true then 1 else 0) = es.countP p := by
  obtain ⟨hlt, rfl⟩ := List.getElem?_eq_some_iff.mp he
  have hsplit : es.countP p = (es.take k).countP p + (es.drop k).countP p := by
    conv_lhs => rw [← List.take_append_drop k es, List.countP_append]
  rw [List.drop_eq_getElem_cons hlt, List.countP_cons] at hsplit
  rw [putEntry, List.countP_append, List.countP_cons, hp, hsplit]
  simp only [Bool.false_eq_true, if_false]
  omega

theorem realTo_iff : realTo i e = true ↔ e.inum = i ∧ e.name ≠ dot ∧ e.name ≠ dotdot := by
  simp [realTo]

theorem upTo_iff : upTo i e = true ↔ e.inum = i ∧ e.name = dotdot := by
  simp [upTo]

theorem dotdot_ne_dot : dotdot ≠ dot := by decide

end Count

section Exact
variable {N i d : Nat} {f f' : Nat → Option Node} {nd dnd nd' dnd' : Node} {dots : List Dirent}

theorem Exact.real_zero (h : Exact N f) (hi : f i = none) (h0 : i ≠ 0) : total N (realTo i) f = 0 := by
  by_contra hne
  obtain ⟨d, hd, e, he, hp⟩ := exists_of_total_pos (Nat.pos_of_ne_zero hne)
  obtain ⟨rfl, hdot, hdotdot⟩ := realTo_iff.mp hp
  exact (h.real d e he h0 hdot hdotdot).2.2.1 hi

theorem Exact.up_zero (h : Exact N f) (hi : ∀ nd, f i = some nd → nd.type ≠ tDir) (h0 : i ≠ 0) :
    total N (upTo i) f = 0 := by
  by_contra hne
  obtain ⟨d, hd, e, he, hp⟩ := exists_of_total_pos (Nat.pos_of_ne_zero hne)
  obtain ⟨rfl, hdotdot⟩ := upTo_iff.mp hp
  obtain ⟨nd, hnd, ht⟩ := h.up d e he h0 hdotdot
  exact hi nd hnd ht

theorem Exact.ne_zero (h : Exact N f) (hi : f i = some nd) : i ≠ 0 := by
  rintro rfl
  rw [h.zero] at hi
  cases hi

theorem Exact.lt (h : Exact N f) (hi : f i = some nd) : i < N := h.range i (by rw [hi]; exact nofun)

theorem Exact.range_update {a b : Option Node} (h : Exact N f) (hi : i < N) (hd : d < N) (j : Nat)
    (hj : Function.update (Function.update f i a) d b j ≠ none) : j < N := by
  by_cases hjd : j = d
  · rw [hjd]
    exact hd
  · rw [Function.update_of_ne hjd] at hj
    by_cases hji : j = i
    · rw [hji]
      exact hi
    · rw [Function.update_of_ne hji] at hj
      exact h.range j hj

/-- An inode with a name has a link. -/
theorem Exact.nlink_pos {e : Dirent} (h : Exact N f) (he : e ∈ dirEntries (f d)) (hdot : e.name ≠ dot)
    (hdd : e.name ≠ dotdot) (hi : f e.inum = some nd) : 0 < nd.nlink.toNat := by
  obtain ⟨dnd, hdnd, -⟩ := isDir_of_mem he
  have hpos := total_pos (p := realTo e.inum) (h.lt hdnd) he (realTo_iff.mpr ⟨rfl, hdot, hdd⟩)
  rw [h.count _ nd hi]
  omega

/-- Directories stay as they are, and what goes has no links. -/
theorem Exact.quiet (h : Exact N f) (hdirs : ∀ j, dirEntries (f' j) = dirEntries (f j))
    (hsome : ∀ j nd', f' j = some nd' → ∃ nd, f j = some nd ∧ nd'.type = nd.type ∧ nd'.nlink = nd.nlink)
    (hnone : ∀ j nd, f j = some nd → nd.type = tDir ∨ nd.nlink ≠ 0 →
      ∃ nd', f' j = some nd' ∧ nd'.type = nd.type) :
    Exact N f' := by
  have htotal : ∀ p, total N p f' = total N p f := fun p => total_congr hdirs
  constructor
  · cases hz : f' 0 with
    | none => rfl
    | some nd' =>
        obtain ⟨nd, hnd, -⟩ := hsome 0 nd' hz
        rw [h.zero] at hnd
        cases hnd
  · intro i hi
    obtain ⟨nd', hnd'⟩ := Option.ne_none_iff_exists'.mp hi
    obtain ⟨nd, hnd, -⟩ := hsome i nd' hnd'
    exact h.lt hnd
  · obtain ⟨nd, hnd, ht⟩ := h.root
    obtain ⟨nd', hnd', ht'⟩ := hnone _ nd hnd (.inl ht)
    exact ⟨nd', hnd', ht'.trans ht⟩
  · rw [hdirs]
    exact h.rootUp
  · intro d
    rw [hdirs]
    exact h.here d
  · intro d e he h0 hdd
    rw [hdirs] at he
    obtain ⟨nd, hnd, ht⟩ := h.up d e he h0 hdd
    obtain ⟨nd', hnd', ht'⟩ := hnone _ nd hnd (.inl ht)
    exact ⟨nd', hnd', ht'.trans ht⟩
  · intro d e he h0 hdot hdd
    rw [hdirs] at he
    obtain ⟨hed, her, hex, hups⟩ := h.real d e he h0 hdot hdd
    refine ⟨hed, her, ?_, by rw [hdirs]; exact hups⟩
    obtain ⟨nd, hnd⟩ := Option.ne_none_iff_exists'.mp hex
    have hpos := h.nlink_pos he hdot hdd hnd
    obtain ⟨nd', hnd', -⟩ := hnone _ nd hnd (.inr fun hz => by rw [hz] at hpos; exact absurd hpos (by decide))
    rw [hnd']
    exact nofun
  · intro i nd' hnd'
    obtain ⟨nd, hnd, -, hn⟩ := hsome i nd' hnd'
    rw [htotal, htotal, hn]
    exact h.count i nd hnd
  · intro i nd' hnd' ht hr
    obtain ⟨nd, hnd, ht', -⟩ := hsome i nd' hnd'
    rw [htotal]
    exact h.one i nd hnd (ht'.symm.trans ht) hr

/-- A name for `i`, which is not a directory or not there yet, in directory `d`; a new directory has its two
entries. -/
structure Enters (N : Nat) (f : Nat → Option Node) (i d : Nat) (nd' dnd dnd' : Node) (dots : List Dirent) :
    Prop where
  file : f i = none ∨ ∃ nd, f i = some nd ∧ nd.type ≠ tDir
  pos : i ≠ 0
  lt : i < N
  parent : f d = some dnd
  type : dnd.type = tDir
  type' : dnd'.type = tDir
  added : ∃ k name, k ≤ (entries dnd.data).length ∧ (∀ e, (entries dnd.data)[k]? = some e → e.inum = 0) ∧
    name ≠ dot ∧ name ≠ dotdot ∧ entries dnd'.data = putEntry (entries dnd.data) k ⟨i, name⟩
  own : dots = [] ∨ f i = none ∧ dots = [⟨i, dot⟩, ⟨d, dotdot⟩]
  new : dirEntries (some nd') = dots
  fresh : nd'.type = tDir → f i = none
  nlink : nd'.nlink.toNat = total N (realTo i) f + 1
  nlink' : dnd'.nlink.toNat = dnd.nlink.toNat + dots.countP (upTo d)

theorem Enters.ne (h : Enters N f i d nd' dnd dnd' dots) : i ≠ d := by
  rintro rfl
  rcases h.file with hi | ⟨nd, hi, ht⟩
  · rw [h.parent] at hi
    cases hi
  · rw [h.parent] at hi
    cases hi
    exact ht h.type

theorem Enters.entries_old (h : Enters N f i d nd' dnd dnd' dots) : dirEntries (f i) = [] := by
  rcases h.file with hi | ⟨nd, hi, ht⟩
  · rw [hi]
    rfl
  · rw [hi, dirEntries_file ht]

/-- What the directories have more of. -/
theorem Enters.mem (h : Enters N f i d nd' dnd dnd' dots) {j : Nat} {e : Dirent}
    (he : e ∈ dirEntries (Function.update (Function.update f i (some nd')) d (some dnd') j)) :
    e ∈ dirEntries (f j) ∨ (j = d ∧ e.inum = i ∧ e.name ≠ dot ∧ e.name ≠ dotdot) ∨ (j = i ∧ e ∈ dots) := by
  by_cases hjd : j = d
  · subst hjd
    obtain ⟨k, name, -, -, hdot, hdd, hE⟩ := h.added
    rw [Function.update_self, dirEntries_some h.type', hE] at he
    rcases mem_putEntry he with rfl | he
    · exact .inr (.inl ⟨rfl, rfl, hdot, hdd⟩)
    · rw [h.parent, dirEntries_some h.type]
      exact .inl he
  · rw [Function.update_of_ne hjd] at he
    by_cases hji : j = i
    · subst hji
      rw [Function.update_self, h.new] at he
      exact .inr (.inr ⟨rfl, he⟩)
    · rw [Function.update_of_ne hji] at he
      exact .inl he

/-- A node that is there stays, and so does a directory. -/
theorem Enters.stays (h : Enters N f i d nd' dnd dnd' dots) {j : Nat} {nd : Node} (hj : f j = some nd) :
    ∃ nd₁, Function.update (Function.update f i (some nd')) d (some dnd') j = some nd₁ ∧
      (nd.type = tDir → nd₁.type = tDir) := by
  by_cases hjd : j = d
  · rw [hjd, Function.update_self]
    exact ⟨dnd', rfl, fun _ => h.type'⟩
  · rw [Function.update_of_ne hjd]
    by_cases hji : j = i
    · rw [hji, Function.update_self]
      refine ⟨nd', rfl, fun ht => ?_⟩
      rw [hji] at hj
      rcases h.file with hi | ⟨nd₀, hi, ht₀⟩
      · rw [hj] at hi
        cases hi
      · cases hj.symm.trans hi
        exact absurd ht ht₀
    · rw [Function.update_of_ne hji]
      exact ⟨nd, hj, id⟩

theorem Enters.total_eq (h : Enters N f i d nd' dnd dnd' dots) (hN : d < N) (p : Dirent → Bool)
    (hfree : ∀ e : Dirent, e.inum = 0 → p e = false) (q : Bool)
    (hq : ∀ name, name ≠ dot → name ≠ dotdot → p ⟨i, name⟩ = q) :
    total N p (Function.update (Function.update f i (some nd')) d (some dnd')) =
      total N p f + (if q = true then 1 else 0) + dots.countP p := by
  obtain ⟨k, name, hk, hold, hdot, hdd, hE⟩ := h.added
  have h1 := total_update (p := p) (f := f) (o := some nd') h.lt
  have h2 := total_update (p := p) (f := Function.update f i (some nd')) (o := some dnd') hN
  rw [Function.update_of_ne h.ne.symm, h.parent, dirEntries_some h.type, dirEntries_some h.type', hE,
    countP_putEntry hk fun e he => hfree e (hold e he), hq name hdot hdd] at h2
  rw [h.entries_old, h.new] at h1
  simp only [List.countP_nil] at h1
  omega

theorem Enters.not_dir (h : Enters N f i d nd' dnd dnd' dots) (hi : f i = some nd) : nd.type ≠ tDir := by
  rcases h.file with hnone | ⟨nd₀, hnd₀, ht₀⟩
  · rw [hi] at hnone
    cases hnone
  · cases hi.symm.trans hnd₀
    exact ht₀

theorem Enters.ne_root (h : Exact N f) (he : Enters N f i d nd' dnd dnd' dots) : i ≠ rootino := by
  rintro rfl
  obtain ⟨nd, hnd, ht⟩ := h.root
  exact he.not_dir hnd ht

theorem Enters.mem_dots (h : Enters N f i d nd' dnd dnd' dots) {e : Dirent} (he : e ∈ dots) :
    (e = ⟨i, dot⟩ ∨ e = ⟨d, dotdot⟩) ∧ f i = none := by
  rcases h.own with rfl | ⟨hi, rfl⟩
  · cases he
  · exact ⟨by simpa using he, hi⟩

theorem Enters.real_total (he : Enters N f i d nd' dnd dnd' dots) (hd : d < N) {x : Nat} (hx : x ≠ 0) :
    total N (realTo x) (Function.update (Function.update f i (some nd')) d (some dnd')) =
      total N (realTo x) f + if x = i then 1 else 0 := by
  have hdots : dots.countP (realTo x) = 0 := by
    rcases he.own with rfl | ⟨-, rfl⟩
    · rfl
    · simp [realTo]
  rw [he.total_eq hd (realTo x) (fun e h0 => by simp [realTo, h0, hx.symm]) (decide (x = i))
    (fun name hdot hdd => by simp [realTo, hdot, hdd, eq_comm]), hdots]
  simp

theorem Enters.up_total (he : Enters N f i d nd' dnd dnd' dots) (hd : d < N) {x : Nat} (hx : x ≠ 0) :
    total N (upTo x) (Function.update (Function.update f i (some nd')) d (some dnd')) =
      total N (upTo x) f + dots.countP (upTo x) := by
  rw [he.total_eq hd (upTo x) (fun e h0 => by simp [upTo, h0, hx.symm]) false
    (fun name hdot hdd => by simp [upTo, hdd])]
  simp

theorem Enters.countP_up (he : Enters N f i d nd' dnd dnd' dots) {x : Nat} (hx : x ≠ d) :
    dots.countP (upTo x) = 0 := by
  rcases he.own with rfl | ⟨-, rfl⟩
  · rfl
  · simp [upTo, hx.symm, dotdot_ne_dot.symm]

theorem Enters.count (h : Exact N f) (he : Enters N f i d nd' dnd dnd' dots) {x : Nat} {ndx : Node}
    (hx : Function.update (Function.update f i (some nd')) d (some dnd') x = some ndx) :
    ndx.nlink.toNat =
      total N (realTo x) (Function.update (Function.update f i (some nd')) d (some dnd')) +
        total N (upTo x) (Function.update (Function.update f i (some nd')) d (some dnd')) := by
  have hd0 : d ≠ 0 := h.ne_zero he.parent
  have hdN : d < N := h.lt he.parent
  by_cases hxd : x = d
  · subst hxd
    rw [Function.update_self] at hx
    cases hx
    rw [he.real_total hdN hd0, he.up_total hdN hd0, if_neg he.ne.symm, he.nlink', h.count x dnd he.parent]
    omega
  · rw [Function.update_of_ne hxd] at hx
    by_cases hxi : x = i
    · subst hxi
      rw [Function.update_self] at hx
      cases hx
      have hzero : total N (upTo x) f = 0 := h.up_zero (fun nd hnd => he.not_dir hnd) he.pos
      rw [he.real_total hdN he.pos, he.up_total hdN he.pos, if_pos rfl, he.countP_up he.ne, hzero, he.nlink]
    · rw [Function.update_of_ne hxi] at hx
      have hx0 := h.ne_zero hx
      rw [he.real_total hdN hx0, he.up_total hdN hx0, if_neg hxi, he.countP_up hxd, h.count x ndx hx]
      omega

/-- A new directory has the one name. -/
theorem Enters.one (h : Exact N f) (he : Enters N f i d nd' dnd dnd' dots) {x : Nat} {ndx : Node}
    (hx : Function.update (Function.update f i (some nd')) d (some dnd') x = some ndx)
    (ht : ndx.type = tDir) (hxr : x ≠ rootino) :
    total N (realTo x) (Function.update (Function.update f i (some nd')) d (some dnd')) = 1 := by
  have hdN : d < N := h.lt he.parent
  by_cases hxd : x = d
  · subst hxd
    rw [he.real_total hdN (h.ne_zero he.parent), if_neg he.ne.symm]
    exact h.one x dnd he.parent he.type hxr
  · rw [Function.update_of_ne hxd] at hx
    by_cases hxi : x = i
    · subst hxi
      rw [Function.update_self] at hx
      cases hx
      rw [he.real_total hdN he.pos, if_pos rfl, h.real_zero (he.fresh ht) he.pos]
    · rw [Function.update_of_ne hxi] at hx
      rw [he.real_total hdN (h.ne_zero hx), if_neg hxi]
      exact h.one x ndx hx ht hxr

theorem Exact.enter (h : Exact N f) (he : Enters N f i d nd' dnd dnd' dots) :
    Exact N (Function.update (Function.update f i (some nd')) d (some dnd')) := by
  constructor
  · rw [Function.update_of_ne (h.ne_zero he.parent).symm, Function.update_of_ne he.pos.symm]
    exact h.zero
  · exact h.range_update he.lt (h.lt he.parent)
  · obtain ⟨nd, hnd, ht⟩ := h.root
    obtain ⟨nd₁, hnd₁, ht₁⟩ := he.stays hnd
    exact ⟨nd₁, hnd₁, ht₁ ht⟩
  · intro e hmem h0 hdd
    rcases he.mem hmem with hold | ⟨-, -, -, hne⟩ | ⟨hi, -⟩
    · exact h.rootUp e hold h0 hdd
    · exact absurd hdd hne
    · exact absurd hi.symm (he.ne_root h)
  · intro j e hmem h0 hdot
    rcases he.mem hmem with hold | ⟨-, -, hne, -⟩ | ⟨rfl, hin⟩
    · exact h.here j e hold h0 hdot
    · exact absurd hdot hne
    · rcases (he.mem_dots hin).1 with rfl | rfl
      · rfl
      · exact absurd hdot dotdot_ne_dot
  · intro j e hmem h0 hdd
    rcases he.mem hmem with hold | ⟨-, -, -, hne⟩ | ⟨rfl, hin⟩
    · obtain ⟨nd, hnd, ht⟩ := h.up j e hold h0 hdd
      obtain ⟨nd₁, hnd₁, ht₁⟩ := he.stays hnd
      exact ⟨nd₁, hnd₁, ht₁ ht⟩
    · exact absurd hdd hne
    · rcases (he.mem_dots hin).1 with rfl | rfl
      · exact absurd hdd dotdot_ne_dot.symm
      · exact ⟨dnd', Function.update_self .., he.type'⟩
  · intro j e hmem h0 hdot hdd
    rcases he.mem hmem with hold | ⟨rfl, hei, -, -⟩ | ⟨rfl, hin⟩
    · obtain ⟨hej, her, hex, hups⟩ := h.real j e hold h0 hdot hdd
      obtain ⟨nd, hnd⟩ := Option.ne_none_iff_exists'.mp hex
      refine ⟨hej, her, ?_, fun e' hmem' h0' hdd' => ?_⟩
      · obtain ⟨nd₁, hnd₁, -⟩ := he.stays hnd
        rw [hnd₁]
        exact nofun
      · rcases he.mem hmem' with hold' | ⟨-, -, -, hne⟩ | ⟨hei, hin⟩
        · exact hups e' hold' h0' hdd'
        · exact absurd hdd' hne
        · rw [hei, (he.mem_dots hin).2] at hnd
          cases hnd
    · rw [hei]
      refine ⟨he.ne, he.ne_root h, ?_, fun e' hmem' h0' hdd' => ?_⟩
      · rw [Function.update_of_ne he.ne, Function.update_self]
        exact nofun
      · rw [Function.update_of_ne he.ne, Function.update_self, he.new] at hmem'
        rcases (he.mem_dots hmem').1 with rfl | rfl
        · exact absurd hdd' dotdot_ne_dot.symm
        · rfl
    · rcases (he.mem_dots hin).1 with rfl | rfl
      · exact absurd rfl hdot
      · exact absurd rfl hdd
  · exact fun x ndx hx => he.count h hx
  · exact fun x ndx hx ht hxr => he.one h hx ht hxr

/-- The name `de` of `i` goes from directory `d`, and with it a link.  If `i` is a directory it is empty, and
it does not stay without links. -/
structure Removes (f : Nat → Option Node) (i d : Nat) (nd dnd dnd' : Node) (r : Option Node) (de : Dirent) :
    Prop where
  node : f i = some nd
  parent : f d = some dnd
  type : dnd.type = tDir
  type' : dnd'.type = tDir
  ne : i ≠ d
  inum : de.inum = i
  dot : de.name ≠ dot
  dotdot : de.name ≠ dotdot
  cleared : ∃ k, (entries dnd.data)[k]? = some de ∧ entries dnd'.data = putEntry (entries dnd.data) k ⟨0, []⟩
  empty : nd.type = tDir → ∃ p rest, entries nd.data = ⟨i, Fs.dot⟩ :: ⟨p, Fs.dotdot⟩ :: rest ∧ p ≠ 0 ∧
    ∀ e ∈ rest, e.inum = 0
  nlink' : dnd'.nlink.toNat + (if nd.type = tDir then 1 else 0) = dnd.nlink.toNat
  left : (∃ nd', r = some nd' ∧ nd'.type = nd.type ∧ nd'.nlink.toNat + 1 = nd.nlink.toNat) ∨
    r = none ∧ nd.nlink.toNat = 1
  alive : ∀ nd', r = some nd' → nd'.type = tDir → nd'.nlink.toNat ≠ 0

variable {r : Option Node} {de : Dirent}

theorem Removes.de_mem (hr : Removes f i d nd dnd dnd' r de) : de ∈ dirEntries (f d) := by
  obtain ⟨k, hk, -⟩ := hr.cleared
  rw [hr.parent, dirEntries_some hr.type]
  exact List.mem_of_getElem? hk

/-- A directory that is removed is nobody's parent, and goes. -/
theorem Removes.gone (h : Exact N f) (hr : Removes f i d nd dnd dnd' r de) (ht : nd.type = tDir) :
    r = none ∧ total N (upTo i) f = 0 ∧ total N (realTo i) f = 1 := by
  have hi0 := h.ne_zero hr.node
  obtain ⟨-, hroot, -, -⟩ := h.real d de hr.de_mem (by rw [hr.inum]; exact hi0) hr.dot hr.dotdot
  rw [hr.inum] at hroot
  have hone := h.one i nd hr.node ht hroot
  have hup : total N (upTo i) f = 0 := by
    by_contra hne
    obtain ⟨j, hj, e, he, hp⟩ := exists_of_total_pos (Nat.pos_of_ne_zero hne)
    obtain ⟨hei, hdd⟩ := upTo_iff.mp hp
    have he0 : e.inum ≠ 0 := by rw [hei]; exact hi0
    have hjr : j ≠ rootino := by
      rintro rfl
      exact hroot (hei.symm.trans (h.rootUp e he he0 hdd))
    obtain ⟨jnd, hjnd, hjt⟩ := isDir_of_mem he
    -- the child has a name, which is in `i`
    obtain ⟨d', -, e', he', hp'⟩ := exists_of_total_pos (by rw [h.one j jnd hjnd hjt hjr]; exact Nat.one_pos)
    obtain ⟨hej, hdot', hdd'⟩ := realTo_iff.mp hp'
    have he'0 : e'.inum ≠ 0 := by rw [hej]; exact h.ne_zero hjnd
    have hd' : i = d' := by
      have := (h.real d' e' he' he'0 hdot' hdd').2.2.2 e (by rw [hej]; exact he) he0 hdd
      rw [← this, hei]
    subst hd'
    obtain ⟨p, rest, hentries, -, hrest⟩ := hr.empty ht
    rw [hr.node, dirEntries_some ht, hentries] at he'
    rcases List.mem_cons.mp he' with rfl | he'
    · exact hdot' rfl
    · rcases List.mem_cons.mp he' with rfl | he'
      · exact hdd' rfl
      · exact he'0 (hrest e' he')
  refine ⟨?_, hup, hone⟩
  have hcount := h.count i nd hr.node
  rcases hr.left with ⟨nd', hr', ht', hn'⟩ | ⟨hr', -⟩
  · exact absurd (by omega) (hr.alive nd' hr' (ht'.trans ht))
  · exact hr'

theorem Removes.entries_new (h : Exact N f) (hr : Removes f i d nd dnd dnd' r de) : dirEntries r = [] := by
  by_cases ht : nd.type = tDir
  · rw [(hr.gone h ht).1]
    rfl
  · rcases hr.left with ⟨nd', hr', ht', -⟩ | ⟨hr', -⟩
    · rw [hr', dirEntries_file (by rw [ht']; exact ht)]
    · rw [hr']
      rfl

theorem Removes.mem (h : Exact N f) (hr : Removes f i d nd dnd dnd' r de) {j : Nat} {e : Dirent}
    (he : e ∈ dirEntries (Function.update (Function.update f d (some dnd')) i r j)) (h0 : e.inum ≠ 0) :
    e ∈ dirEntries (f j) ∧ j ≠ i := by
  by_cases hji : j = i
  · rw [hji, Function.update_self, hr.entries_new h] at he
    cases he
  · rw [Function.update_of_ne hji] at he
    refine ⟨?_, hji⟩
    by_cases hjd : j = d
    · subst hjd
      obtain ⟨k, -, hE⟩ := hr.cleared
      rw [Function.update_self, dirEntries_some hr.type', hE] at he
      rw [hr.parent, dirEntries_some hr.type]
      rcases mem_putEntry he with rfl | he
      · exact absurd rfl h0
      · exact he
    · rwa [Function.update_of_ne hjd] at he

theorem Removes.total_eq (h : Exact N f) (hr : Removes f i d nd dnd dnd' r de) (p : Dirent → Bool)
    (hfree : p ⟨0, []⟩ = false) :
    total N p (Function.update (Function.update f d (some dnd')) i r) + (dirEntries (f i)).countP p +
      (if p de = true then 1 else 0) = total N p f := by
  obtain ⟨k, hk, hE⟩ := hr.cleared
  have hd := h.lt hr.parent
  have hi := h.lt hr.node
  have h1 := total_update (p := p) (f := f) (o := some dnd') hd
  have h2 := total_update (p := p) (f := Function.update f d (some dnd')) (o := r) hi
  have h3 := countP_putEntry_clear hk hfree
  rw [hr.parent, dirEntries_some hr.type, dirEntries_some hr.type', hE] at h1
  rw [Function.update_of_ne hr.ne, hr.entries_new h] at h2
  simp only [List.countP_nil] at h2
  omega

/-- The entries of the inode that is removed. -/
theorem Removes.countP (h : Exact N f) (hr : Removes f i d nd dnd dnd' r de) {x : Nat} (hx : x ≠ 0) :
    (dirEntries (f i)).countP (realTo x) = 0 ∧
      (dirEntries (f i)).countP (upTo x) = if nd.type = tDir ∧ x = d then 1 else 0 := by
  by_cases ht : nd.type = tDir
  · obtain ⟨p, rest, hentries, hp, hrest⟩ := hr.empty ht
    have hi0 := h.ne_zero hr.node
    have hpd : p = d := by
      have hups := (h.real d de hr.de_mem (by rw [hr.inum]; exact hi0) hr.dot hr.dotdot).2.2.2
      rw [hr.inum, hr.node, dirEntries_some ht, hentries] at hups
      exact hups ⟨p, Fs.dotdot⟩ (by simp) hp rfl
    subst hpd
    have hnone : ∀ q : Dirent → Bool, (∀ e : Dirent, e.inum = 0 → q e = false) → rest.countP q = 0 :=
      fun q hq => List.countP_eq_zero.mpr fun e he => by simp [hq e (hrest e he)]
    rw [hr.node, dirEntries_some ht, hentries]
    constructor
    · simp only [List.countP_cons, hnone (realTo x) fun e he => by simp [realTo, he, hx.symm]]
      simp [realTo]
    · simp only [List.countP_cons, hnone (upTo x) fun e he => by simp [upTo, he, hx.symm]]
      simp [upTo, dotdot_ne_dot.symm, ht, eq_comm]
  · rw [hr.node, dirEntries_file ht]
    simp [ht]

/-- The names that are left. -/
theorem Removes.totals (h : Exact N f) (hr : Removes f i d nd dnd dnd' r de) {x : Nat} (hx : x ≠ 0) :
    total N (realTo x) (Function.update (Function.update f d (some dnd')) i r) + (if x = i then 1 else 0) =
        total N (realTo x) f ∧
      total N (upTo x) (Function.update (Function.update f d (some dnd')) i r) +
        (if nd.type = tDir ∧ x = d then 1 else 0) = total N (upTo x) f := by
  obtain ⟨hreal, hup⟩ := hr.countP h hx
  have h1 := hr.total_eq h (realTo x) (by simp [realTo, hx.symm])
  have h2 := hr.total_eq h (upTo x) (by simp [upTo, hx.symm])
  have hde : (realTo x de = true) = (x = i) := by
    rw [realTo_iff]
    exact propext ⟨fun he => he.1.symm.trans hr.inum, fun he => ⟨hr.inum.trans he.symm, hr.dot, hr.dotdot⟩⟩
  have hde' : upTo x de = false := by simp [upTo, hr.dotdot]
  simp only [hreal, hup, hde, hde'] at h1 h2
  exact ⟨h1, by simpa using h2⟩

/-- A node that has a name left stays. -/
theorem Removes.stays (hr : Removes f i d nd dnd dnd' r de) {j : Nat} {jnd : Node}
    (hj : f j = some jnd) (hne : j = i → r ≠ none) :
    ∃ nd₁, Function.update (Function.update f d (some dnd')) i r j = some nd₁ ∧
      (jnd.type = tDir → nd₁.type = tDir) := by
  by_cases hji : j = i
  · subst hji
    rw [Function.update_self]
    cases hj.symm.trans hr.node
    rcases hr.left with ⟨nd', hr', ht', -⟩ | ⟨hr', -⟩
    · exact ⟨nd', hr', fun ht => ht'.trans ht⟩
    · exact absurd hr' (hne rfl)
  · rw [Function.update_of_ne hji]
    by_cases hjd : j = d
    · rw [hjd, Function.update_self]
      exact ⟨dnd', rfl, fun _ => hr.type'⟩
    · rw [Function.update_of_ne hjd]
      exact ⟨jnd, hj, id⟩

theorem Removes.ne_root (h : Exact N f) (hr : Removes f i d nd dnd dnd' r de) : i ≠ rootino := by
  have hroot := (h.real d de hr.de_mem (by rw [hr.inum]; exact h.ne_zero hr.node) hr.dot hr.dotdot).2.1
  rwa [hr.inum] at hroot

/-- The inode of a name that is left stays: it had two links. -/
theorem Removes.named_stays (h : Exact N f) (hr : Removes f i d nd dnd dnd' r de) {j : Nat} {e : Dirent}
    (he : e ∈ dirEntries (Function.update (Function.update f d (some dnd')) i r j)) (hei : e.inum = i)
    (hdot : e.name ≠ Fs.dot) (hdd : e.name ≠ Fs.dotdot) : r ≠ none := by
  intro hnone
  obtain ⟨jnd, hjnd, -⟩ := isDir_of_mem he
  have hjN : j < N := h.range_update (h.lt hr.parent) (h.lt hr.node) j (by rw [hjnd]; exact nofun)
  have hpos := total_pos (p := realTo i) hjN he (realTo_iff.mpr ⟨hei, hdot, hdd⟩)
  have htot := (hr.totals h (h.ne_zero hr.node)).1
  rw [if_pos rfl] at htot
  have hcount := h.count i nd hr.node
  rcases hr.left with ⟨nd', hr', -⟩ | ⟨-, hn⟩
  · rw [hr'] at hnone
    cases hnone
  · omega

theorem Removes.count (h : Exact N f) (hr : Removes f i d nd dnd dnd' r de) {x : Nat} {ndx : Node}
    (hx : Function.update (Function.update f d (some dnd')) i r x = some ndx) :
    ndx.nlink.toNat = total N (realTo x) (Function.update (Function.update f d (some dnd')) i r) +
      total N (upTo x) (Function.update (Function.update f d (some dnd')) i r) := by
  by_cases hxi : x = i
  · subst hxi
    rw [Function.update_self] at hx
    obtain ⟨h1, h2⟩ := hr.totals h (h.ne_zero hr.node)
    have hcount := h.count x nd hr.node
    rw [if_pos rfl] at h1
    rw [if_neg fun hc => hr.ne hc.2] at h2
    rcases hr.left with ⟨nd', hr', -, hn'⟩ | ⟨hr', -⟩
    · cases hr'.symm.trans hx
      omega
    · rw [hr'] at hx
      cases hx
  · rw [Function.update_of_ne hxi] at hx
    by_cases hxd : x = d
    · subst hxd
      rw [Function.update_self] at hx
      cases hx
      obtain ⟨h1, h2⟩ := hr.totals h (h.ne_zero hr.parent)
      have hcount := h.count x dnd hr.parent
      have hn' := hr.nlink'
      rw [if_neg hxi] at h1
      simp only [and_true] at h2
      omega
    · rw [Function.update_of_ne hxd] at hx
      obtain ⟨h1, h2⟩ := hr.totals h (h.ne_zero hx)
      rw [if_neg hxi] at h1
      rw [if_neg fun hc => hxd hc.2] at h2
      have hcount := h.count x ndx hx
      omega

/-- A directory that is left keeps its one name. -/
theorem Removes.one (h : Exact N f) (hr : Removes f i d nd dnd dnd' r de) {x : Nat} {ndx : Node}
    (hx : Function.update (Function.update f d (some dnd')) i r x = some ndx) (ht : ndx.type = tDir)
    (hxr : x ≠ rootino) :
    total N (realTo x) (Function.update (Function.update f d (some dnd')) i r) = 1 := by
  by_cases hxi : x = i
  · subst hxi
    rw [Function.update_self] at hx
    rcases hr.left with ⟨nd', hr', ht', -⟩ | ⟨hr', -⟩
    · cases hr'.symm.trans hx
      rw [(hr.gone h (ht'.symm.trans ht)).1] at hx
      cases hx
    · rw [hr'] at hx
      cases hx
  · rw [Function.update_of_ne hxi] at hx
    obtain ⟨nd₀, hnd₀, ht₀⟩ : ∃ nd₀, f x = some nd₀ ∧ nd₀.type = tDir := by
      by_cases hxd : x = d
      · rw [hxd, hr.parent]
        exact ⟨dnd, rfl, hr.type⟩
      · rw [Function.update_of_ne hxd] at hx
        exact ⟨ndx, hx, ht⟩
    have h1 := (hr.totals h (h.ne_zero hnd₀)).1
    rw [if_neg hxi] at h1
    rw [← h.one x nd₀ hnd₀ ht₀ hxr]
    exact h1

theorem Exact.remove (h : Exact N f) (hr : Removes f i d nd dnd dnd' r de) :
    Exact N (Function.update (Function.update f d (some dnd')) i r) := by
  constructor
  · rw [Function.update_of_ne (h.ne_zero hr.node).symm, Function.update_of_ne (h.ne_zero hr.parent).symm]
    exact h.zero
  · exact h.range_update (h.lt hr.parent) (h.lt hr.node)
  · obtain ⟨rnd, hrnd, ht⟩ := h.root
    obtain ⟨nd₁, hnd₁, ht₁⟩ := hr.stays hrnd fun he => absurd he.symm (hr.ne_root h)
    exact ⟨nd₁, hnd₁, ht₁ ht⟩
  · intro e he h0 hdd
    exact h.rootUp e (hr.mem h he h0).1 h0 hdd
  · intro j e he h0 hdot
    exact h.here j e (hr.mem h he h0).1 h0 hdot
  · intro j e he h0 hdd
    have hold := (hr.mem h he h0).1
    obtain ⟨pnd, hpnd, ht⟩ := h.up j e hold h0 hdd
    obtain ⟨nd₁, hnd₁, ht₁⟩ := hr.stays hpnd fun hei => by
      -- the inode that is removed is nobody's parent
      rw [hei] at hpnd
      cases hpnd.symm.trans hr.node
      obtain ⟨jnd, hjnd, -⟩ := isDir_of_mem hold
      have hpos := total_pos (p := upTo i) (h.lt hjnd) hold (upTo_iff.mpr ⟨hei, hdd⟩)
      rw [(hr.gone h ht).2.1] at hpos
      exact absurd hpos (Nat.lt_irrefl 0)
    exact ⟨nd₁, hnd₁, ht₁ ht⟩
  · intro j e he h0 hdot hdd
    obtain ⟨hold, -⟩ := hr.mem h he h0
    obtain ⟨hej, her, hex, hups⟩ := h.real j e hold h0 hdot hdd
    refine ⟨hej, her, ?_, fun e' he' h0' hdd' => hups e' (hr.mem h he' h0').1 h0' hdd'⟩
    obtain ⟨end₀, hend⟩ := Option.ne_none_iff_exists'.mp hex
    obtain ⟨nd₁, hnd₁, -⟩ := hr.stays hend fun hei => hr.named_stays h he hei hdot hdd
    rw [hnd₁]
    exact nofun
  · exact fun x ndx hx => hr.count h hx
  · exact fun x ndx hx ht hxr => hr.one h hx ht hxr

/-- The directories have links. -/
def Alive (f : Nat → Option Node) : Prop := ∀ d nd, f d = some nd → nd.type = tDir → nd.nlink ≠ 0

/-- A directory with a subdirectory has two links. -/
theorem Exact.two_le (h : Exact N f) (hdots : ∀ j nd, f j = some nd → nd.type = tDir → Dotted j nd.data)
    {e : Dirent} (hd : f d = some dnd) (ht : dnd.type = tDir) (he : e ∈ entries dnd.data) (h0 : e.inum ≠ 0)
    (hdot : e.name ≠ dot) (hdd : e.name ≠ dotdot) (hi : f e.inum = some nd) (hti : nd.type = tDir) :
    2 ≤ dnd.nlink.toNat := by
  have hmem : e ∈ dirEntries (f d) := by
    rw [hd, dirEntries_some ht]
    exact he
  obtain ⟨hed, her, -, hups⟩ := h.real d e hmem h0 hdot hdd
  have hup : ∀ j jnd, f j = some jnd → jnd.type = tDir → ∃ p, p ≠ 0 ∧ ⟨p, dotdot⟩ ∈ dirEntries (f j) := by
    intro j jnd hj hjt
    obtain ⟨p, hp, hget⟩ := (hdots j jnd hj hjt).dotdot
    refine ⟨p, hp.ne', ?_⟩
    rw [hj, dirEntries_some hjt]
    exact List.mem_of_getElem? hget
  obtain ⟨p, hp, hpm⟩ := hup _ nd hi hti
  obtain rfl : p = d := hups _ hpm hp rfl
  have hiN := h.lt hi
  have hcount := h.count p dnd hd
  by_cases hroot : p = rootino
  · subst hroot
    obtain ⟨q, hq, hqm⟩ := hup _ dnd hd ht
    obtain rfl : q = rootino := h.rootUp _ hqm hq rfl
    have htwo := two_le_total (p := upTo rootino) (h.lt hd) hiN hed.symm hqm hpm
      (upTo_iff.mpr ⟨rfl, rfl⟩) (upTo_iff.mpr ⟨rfl, rfl⟩)
    omega
  · have hone := h.one p dnd hd ht hroot
    have hpos := total_pos (p := upTo p) hiN hpm (upTo_iff.mpr ⟨rfl, rfl⟩)
    omega

end Exact

/-! ### What the calls do -/

section Effect
variable {L : Layout} {H : Slot → Int} {s s' : State}

/-- Every directory has its two entries. -/
def AllDotted (f : Nat → Option Node) : Prop := ∀ d nd, f d = some nd → nd.type = tDir → Dotted d nd.data

theorem Exact.tidy (h : Exact L.ninodes (node L s)) (hR : Refs L H s) (hroom : Room L s)
    (halive : Alive (node L s)) (hdots : AllDotted (node L s)) : Tidy L H s := by
  obtain ⟨rnd, hroot, hrt⟩ := h.root
  have hmem : ∀ {d : Nat} {nd : Node}, node L s d = some nd → nd.type = tDir → ∀ e ∈ entries nd.data,
      e ∈ dirEntries (node L s d) := fun hd ht e he => by rwa [hd, dirEntries_some ht]
  refine ⟨⟨hR, fun d nd hd ht e he h0 => ?_, by rw [hroot]; exact nofun⟩, hroom,
    fun d dnd hd ht e he h0 hdot hdd => ?_⟩
  · by_cases hdot : e.name = dot
    · rw [h.here d e (hmem hd ht e he) h0 hdot, hd]
      exact nofun
    by_cases hdd : e.name = dotdot
    · obtain ⟨pnd, hp, -⟩ := h.up d e (hmem hd ht e he) h0 hdd
      rw [hp]
      exact nofun
    · exact (h.real d e (hmem hd ht e he) h0 hdot hdd).2.2.1
  · refine ⟨(h.real d e (hmem hd ht e he) h0 hdot hdd).1, fun nd hi hz => ?_⟩
    unfold parentNlink at hz
    split_ifs at hz with hti
    · have htwo := h.two_le hdots hd ht he h0 hdot hdd hi hti
      have hnat := congrArg UInt16.toNat hz
      rw [UInt16.toNat_add] at hnat
      change (dnd.nlink.toNat + 65535) % 65536 = 0 at hnat
      have hlt := dnd.nlink.toNat_lt
      omega
    · exact halive d dnd hd ht hz

theorem not_dots_of_absent {data : List UInt8} {name : List UInt8} {d : Nat} (h : Dotted d data)
    (ha : Absent data name) : name ≠ dot ∧ name ≠ dotdot := by
  obtain ⟨p, hp, hget⟩ := h.dotdot
  exact ⟨(ha.name _ (List.mem_of_getElem? h.dot) h.pos.ne').symm,
    (ha.name _ (List.mem_of_getElem? hget) hp.ne').symm⟩

theorem Exact.dropped {N : Nat} {f f' : Nat → Option Node} (h : Exact N f) (halive : Alive f)
    (hd : Drops f f') : Exact N f' := by
  refine h.quiet (fun j => ?_) (fun j nd' hj => ?_) fun j nd hj hor => ?_
  · obtain heq | ⟨hnone, nd, hnd, hz⟩ := hd j
    · rw [heq]
    · rw [hnone, hnd, dirEntries_file fun ht => halive j nd hnd ht hz]
      rfl
  · obtain heq | ⟨hnone, -⟩ := hd j
    · exact ⟨nd', heq ▸ hj, rfl, rfl⟩
    · rw [hnone] at hj
      cases hj
  · obtain heq | ⟨hnone, nd₀, hnd, hz⟩ := hd j
    · exact ⟨nd, heq.trans hj, rfl⟩
    · cases hj.symm.trans hnd
      rcases hor with ht | hne
      · exact absurd hz (halive j nd hj ht)
      · exact absurd hz hne

theorem Exact.written {N : Nat} {f f' : Nat → Option Node} (h : Exact N f) (hw : Written f f') :
    Exact N f' := by
  refine h.quiet (fun j => ?_) (fun j nd' hj => ?_) fun j nd hj _ => ?_
  · obtain heq | ⟨nd, data, hnd, ht, hj⟩ := hw j
    · rw [heq]
    · rw [hj, hnd, dirEntries_file ht, dirEntries_file]
      exact ht
  · obtain heq | ⟨nd, data, hnd, -, hj'⟩ := hw j
    · exact ⟨nd', heq ▸ hj, rfl, rfl⟩
    · cases hj'.symm.trans hj
      exact ⟨nd, hnd, rfl, rfl⟩
  · obtain heq | ⟨nd₀, data, hnd, -, hj'⟩ := hw j
    · exact ⟨nd, heq.trans hj, rfl⟩
    · cases hj.symm.trans hnd
      exact ⟨_, hj', rfl⟩

theorem toNat_add_one {n : UInt16} (h : n.toNat < 2 ^ 15) : (n + 1).toNat = n.toNat + 1 := by
  rw [UInt16.toNat_add]
  change (n.toNat + 1) % 65536 = _
  omega

theorem toNat_sub_one {n : UInt16} (h : n.toNat ≠ 0) : (n + -1).toNat + 1 = n.toNat := by
  have hlt := n.toNat_lt
  rw [UInt16.toNat_add]
  change (n.toNat + 65535) % 65536 + 1 = _
  omega

theorem Exact.linked (h : Exact L.ninodes (node L s)) (hroom : Room L s) (hdots : AllDotted (node L s))
    (hl : Linked L s s') : Exact L.ninodes (node L s') := by
  obtain ⟨i, nd, d, dnd, name, data, hi, hti, hi0, hd, htd, -, hadd, hn⟩ := hl
  obtain ⟨k, hk, hold, hE⟩ := hadd.entries
  obtain ⟨hdot, hdd⟩ := not_dots_of_absent (hdots d dnd hd htd) hadd.absent
  rw [hn]
  refine h.enter ⟨.inr ⟨nd, hi, hti⟩, hi0.ne', h.lt hi, hd, htd, htd,
    ⟨k, name, hk, hold, hdot, hdd, hE⟩, .inl rfl, dirEntries_file hti, fun ht => absurd ht hti, ?_, rfl⟩
  have hzero := h.up_zero (fun nd' hnd' => by cases hi.symm.trans hnd'; exact hti) hi0.ne'
  have hcount := h.count i nd hi
  rw [toNat_add_one (hroom.nlink i nd hi)]
  omega

theorem Exact.created {type : UInt16} (h : Exact L.ninodes (node L s)) (hroom : Room L s)
    (hdots : AllDotted (node L s)) (hc : Created L type s s') : Exact L.ninodes (node L s') := by
  obtain ⟨i, data, d, dnd, name, ddata, hi, hi0, hiN, hown, hd, htd, -, hadd, hn⟩ := hc
  obtain ⟨k, hk, hold, hE⟩ := hadd.entries
  obtain ⟨hdot, hdd⟩ := not_dots_of_absent (hdots d dnd hd htd) hadd.absent
  have hzero := h.real_zero hi hi0.ne'
  rw [hn]
  unfold Dots at hown
  split_ifs at hown with ht
  · refine h.enter ⟨.inl hi, hi0.ne', hiN, hd, htd, htd, ⟨k, name, hk, hold, hdot, hdd, hE⟩,
      .inr ⟨hi, hown.1⟩, dirEntries_some ht, fun _ => hi, ?_, ?_⟩
    · rw [hzero]
      rfl
    · simp only [createNlink, if_pos ht, toNat_add_one (hroom.nlink d dnd hd), hown.1]
      simp [upTo, dotdot_ne_dot.symm]
  · refine h.enter ⟨.inl hi, hi0.ne', hiN, hd, htd, htd, ⟨k, name, hk, hold, hdot, hdd, hE⟩,
      .inl rfl, dirEntries_file ht, fun _ => hi, ?_, ?_⟩
    · rw [hzero]
      rfl
    · simp only [createNlink, if_neg ht]
      rfl

/-- An empty directory. -/
theorem entries_of_empty {i : Nat} {data : List UInt8} (h : Dotted i data)
    (he : ∀ j e, 2 ≤ j → (entries data)[j]? = some e → e.inum = 0) :
    ∃ p rest, entries data = ⟨i, dot⟩ :: ⟨p, dotdot⟩ :: rest ∧ p ≠ 0 ∧ ∀ e ∈ rest, e.inum = 0 := by
  obtain ⟨p, hp, hget⟩ := h.dotdot
  have hdot := h.dot
  match hE : entries data with
  | [] => rw [hE] at hdot; cases hdot
  | [a] => rw [hE] at hget; cases hget
  | a :: b :: rest =>
      rw [hE] at hdot hget he
      cases hdot
      cases hget
      refine ⟨p, rest, rfl, hp.ne', fun e hmem => ?_⟩
      obtain ⟨j, hj⟩ := List.mem_iff_getElem?.mp hmem
      exact he (j + 2) e (by omega) hj

theorem Exact.unlinked (h : Exact L.ninodes (node L s)) (hdots : AllDotted (node L s))
    (hu : Unlinked L s s') (halive : Alive (node L s')) : Exact L.ninodes (node L s') := by
  obtain ⟨i, nd, d, dnd, name, k, de, r, hi, hempty, hge, hd, htd, hdot, hdd, hfound, hinum, hne, -, hr,
    hn⟩ := hu
  have hnz : nd.nlink.toNat ≠ 0 := by
    intro h0
    rw [show nd.nlink = 0 from UInt16.toNat_inj.mp h0] at hge
    exact absurd hge (by decide)
  have hleft := toNat_sub_one hnz
  have hcleared := entries_cleared hfound.fits
  rw [hn] at halive ⊢
  refine h.remove ⟨hi, hd, htd, htd, hne, hinum, by rw [hfound.name]; exact hdot,
    by rw [hfound.name]; exact hdd, ⟨k, hfound.get, hcleared⟩,
    fun ht => entries_of_empty (hdots i nd hi ht) (hempty ht), ?_, ?_, fun nd' hnd' ht' hz => ?_⟩
  · simp only [parentNlink]
    by_cases ht : nd.type = tDir
    · rw [if_pos ht, if_pos ht]
      refine toNat_sub_one fun h0 => ?_
      -- the directory would have no link
      have hpos := h.two_le hdots hd htd (List.mem_of_getElem? hfound.get) hfound.inum
        (by rw [hfound.name]; exact hdot) (by rw [hfound.name]; exact hdd) (by rw [hinum]; exact hi) ht
      omega
    · rw [if_neg ht, if_neg ht]
      rfl
  · rcases hr with rfl | ⟨rfl, hz⟩
    · exact .inl ⟨_, rfl, rfl, hleft⟩
    · refine .inr ⟨rfl, ?_⟩
      rw [hz] at hleft
      exact hleft.symm
  · refine halive i nd' (by rw [Function.update_self]; exact hnd') ht' (UInt16.toNat_inj.mp hz)

theorem Exact.effect (h : Exact L.ninodes (node L s)) (hroom : Room L s) (halive : Alive (node L s))
    (hdots : AllDotted (node L s)) (he : Effect L s s') (halive' : Alive (node L s')) :
    Exact L.ninodes (node L s') := by
  cases he with
  | dropped hd => exact h.dropped halive hd
  | written hw => exact h.written hw
  | linked hl => exact h.linked hroom hdots hl
  | unlinked hu => exact h.unlinked hdots hu halive'
  | created type hc => exact h.created hroom hdots hc

end Effect

/-! ### Runs -/

/-- Between two calls, in a system in which no directory is without links. -/
structure LinksOk {L : Layout} (hL : L.ninodes ≤ 2 ^ 16) (t : Sys) : Prop where
  ok : SysOk (dotted hL) t
  refs : Refs L (refsOf t) t.fs
  exact : Exact L.ninodes (node L t.fs)
  alive : Alive (node L t.fs)
  room : Room L t.fs

/-- After the call no directory is in use that has been removed, and no link count is too large. -/
def Sane (L : Layout) (t : Sys) (e : Fin nproc × Call) : Prop :=
  ∀ t', step t e = some t' → Alive (node L t'.fs) ∧ Room L t'.fs

/-- How many names inode `i` has, other than `.`, in the directories that have links. -/
def links (N : Nat) (f : Nat → Option Node) (i : Nat) : Nat :=
  ∑ d ∈ Finset.range N, match f d with
    | some nd =>
        if nd.type = tDir ∧ nd.nlink ≠ 0 then
          (entries nd.data).countP fun e => decide (e.inum = i ∧ e.name ≠ dot)
        else 0
    | none => 0

section Runs
variable {L : Layout} {hL : L.ninodes ≤ 2 ^ 16} {t t' : Sys} {e : Fin nproc × Call}

theorem LinksOk.dotted (h : LinksOk hL t) : AllDotted (node L t.fs) :=
  fun d nd hd ht => (h.ok.sound.dirs d nd hd).2 ht

theorem LinksOk.tidy (h : LinksOk hL t) : Tidy L (refsOf t) t.fs :=
  h.exact.tidy h.refs h.room h.alive h.dotted

/-- What one call preserves. -/
theorem LinksOk.step (h : LinksOk hL t) (hsane : Sane L t e) (hstep : step t e = some t') : LinksOk hL t' := by
  obtain ⟨halive, hroom⟩ := hsane t' hstep
  obtain ⟨hleaves, -⟩ := step_leaves (F := True) h.ok (fun _ => h.tidy) hstep
  obtain ⟨hrefs, heffect⟩ := hleaves.nodes trivial
  exact ⟨hleaves.ok, hrefs, h.exact.effect h.room h.alive h.dotted heffect halive, halive, hroom⟩

theorem LinksOk.run {es : List (Fin nproc × Call)} (h : LinksOk hL t) (hsane : Meets Syscall.step (Sane L) t es)
    (hrun : runs Syscall.step t es = some t') : LinksOk hL t' :=
  runs_inv_meets (fun _ _ _ h hs hstep => h.step hs hstep) h hsane hrun

theorem links_eq_total {N i : Nat} {f : Nat → Option Node} (halive : Alive f) :
    links N f i = total N (realTo i) f + total N (upTo i) f := by
  unfold links total
  rw [← Finset.sum_add_distrib]
  refine Finset.sum_congr rfl fun d _ => ?_
  cases hd : f d with
  | none => rfl
  | some nd =>
      by_cases ht : nd.type = tDir
      · simp only [dirEntries_some ht, ht, halive d nd hd ht, ne_eq, not_false_eq_true, and_self, if_true]
        induction entries nd.data with
        | nil => rfl
        | cons e es ih =>
            simp only [List.countP_cons, ih, realTo, upTo]
            by_cases hi : e.inum = i <;> by_cases hdot : e.name = dot <;> by_cases hdd : e.name = dotdot <;>
              simp [hi, hdot, hdd, dotdot_ne_dot, dotdot_ne_dot.symm] <;> omega
      · simp [ht, dirEntries_file ht]

/-- **Names.**  As long as no directory is in use that has been removed, every name in a directory is one of an
inode that is there, and no call finds an inode without a type. -/
theorem names_not_dangling {es : List (Fin nproc × Call)} (h : LinksOk hL t)
    (hsane : Meets Syscall.step (Sane L) t es) (hrun : runs Syscall.step t es = some t') :
    (∀ d dnd, node L t'.fs d = some dnd → dnd.type = tDir → ∀ de ∈ entries dnd.data, de.inum ≠ 0 →
      node L t'.fs de.inum ≠ none) ∧
    ∀ p cwd call, (t'.procs p).cwd = some cwd → Call.run p cwd call t' ≠ .error .noType := by
  have hok := h.run hsane hrun
  refine ⟨hok.tidy.closed, fun p cwd call hcwd herr => ?_⟩
  have hfine := (run_sound (F := True) call hok.ok hcwd fun _ => hok.tidy).of_eq_error herr
  exact hfine.2 rfl trivial

/-- **Link counts.**  As long as no directory is in use that has been removed, and no link count overflows, the
link count of every inode is the number of its names; one that has none is one that somebody refers to; and
the blocks in use are those of inodes with a name or a reference. -/
theorem nlink_eq_links {es : List (Fin nproc × Call)} (h : LinksOk hL t)
    (hsane : Meets Syscall.step (Sane L) t es) (hrun : runs Syscall.step t es = some t') :
    (∀ i nd, node L t'.fs i = some nd → nd.nlink.toNat = links L.ninodes (node L t'.fs) i) ∧
    (∀ i, links L.ninodes (node L t'.fs) i = 0 → ¬ Held (refsOf t') t'.fs i → node L t'.fs i = none) ∧
    ∀ b, L.nmeta ≤ b → b < L.size → bitAt L.toSuperblock t'.fs.disk b = true →
      ∃ x, own L t'.fs.disk (t'.fs.ino L) x = some b ∧
        (links L.ninodes (node L t'.fs) x.1 = 0 → Held (refsOf t') t'.fs x.1) := by
  have hok := h.run hsane hrun
  have hcount : ∀ i nd, node L t'.fs i = some nd → nd.nlink.toNat = links L.ninodes (node L t'.fs) i := by
    intro i nd hi
    rw [links_eq_total hok.alive]
    exact hok.exact.count i nd hi
  have hheld : ∀ i nd, node L t'.fs i = some nd → links L.ninodes (node L t'.fs) i = 0 →
      Held (refsOf t') t'.fs i := fun i nd hi hz =>
    hok.refs.dead i nd hi (UInt16.toNat_inj.mp ((hcount i nd hi).trans hz))
  refine ⟨hcount, fun i hz hfree => ?_, fun b hb hsize hbit => ?_⟩
  · by_contra hne
    obtain ⟨nd, hnd⟩ := Option.ne_none_iff_exists'.mp hne
    exact hfree (hheld i nd hnd hz)
  · have hledger := hok.ok.sound.good.image.ledger
    rcases (hledger.used_iff b).mp ⟨hsize, hbit⟩ with hmeta | ⟨x, hx⟩
    · exact absurd hmeta (not_lt.mpr hb)
    · refine ⟨x, hx, hheld x.1 _ (node_eq_some.mpr ⟨?_, ?_, rfl⟩)⟩
      · exact (own_eq_some.mp hx).1
      · exact (own_eq_some.mp hx).2.1

end Runs

/-! ### The small image -/

theorem exact_small : Exact smallLayout.ninodes (node smallLayout smallState) := by
  have hroot : node smallLayout smallState rootino = some rootNode := by
    obtain ⟨nd, hnd⟩ := Option.ne_none_iff_exists'.mp
      (show node smallLayout smallState rootino ≠ none by decide)
    rw [hnd, (node_small hnd).2]
  have hmem : ∀ {d : Nat} {e : Dirent}, e ∈ dirEntries (node smallLayout smallState d) →
      d = rootino ∧ (e = ⟨1, dot⟩ ∨ e = ⟨1, dotdot⟩) := by
    intro d e he
    obtain ⟨nd, hnd, ht⟩ := isDir_of_mem he
    obtain ⟨rfl, rfl⟩ := node_small hnd
    rw [hnd, dirEntries_some ht, rootNode, entries_root] at he
    exact ⟨rfl, by simpa using he⟩
  constructor
  · decide
  · intro i hi
    obtain ⟨nd, hnd⟩ := Option.ne_none_iff_exists'.mp hi
    exact (node_eq_some.mp hnd).1
  · exact ⟨rootNode, hroot, by decide⟩
  · intro e he _ hdd
    rcases (hmem he).2 with rfl | rfl
    · exact absurd hdd dotdot_ne_dot.symm
    · rfl
  · intro d e he _ hdot
    obtain ⟨rfl, rfl | rfl⟩ := hmem he
    · rfl
    · exact absurd hdot dotdot_ne_dot
  · intro d e he _ hdd
    obtain ⟨rfl, rfl | rfl⟩ := hmem he
    · exact absurd hdd dotdot_ne_dot.symm
    · exact ⟨rootNode, hroot, by decide⟩
  · intro d e he _ hdot hdd
    obtain ⟨rfl, rfl | rfl⟩ := hmem he
    · exact absurd rfl hdot
    · exact absurd rfl hdd
  · intro i nd hi
    obtain ⟨rfl, rfl⟩ := node_small hi
    decide
  · intro i nd hi _ hne
    exact absurd (node_small hi).1 hne

theorem linksOk_oneProcess : LinksOk (L := smallLayout) (by decide) oneProcess where
  ok := .oneProcess dotted_rootNode
  refs := tidy_oneProcess.toRefs
  exact := exact_small
  alive d nd hd _ := by
    obtain ⟨rfl, rfl⟩ := node_small hd
    decide
  room := tidy_oneProcess.room

/-- The links of the nodes, checked one by one. -/
def checkLinks (s : State) : Bool :=
  (List.range smallLayout.ninodes).all fun i => (node smallLayout s i).all fun nd =>
    decide ((nd.type = tDir → nd.nlink ≠ 0) ∧ nd.nlink.toNat < 2 ^ 15)

theorem sane_of_check {s : State} (h : checkLinks s = true) :
    Alive (node smallLayout s) ∧ Room smallLayout s := by
  have hall : ∀ i nd, node smallLayout s i = some nd →
      (nd.type = tDir → nd.nlink ≠ 0) ∧ nd.nlink.toNat < 2 ^ 15 := by
    intro i nd hi
    have hcheck := List.all_eq_true.mp h i (List.mem_range.mpr (node_eq_some.mp hi).1)
    rw [hi] at hcheck
    exact of_decide_eq_true hcheck
  exact ⟨fun d nd hd ht => (hall d nd hd).1 ht, by decide, fun i nd hi => (hall i nd hi).2⟩

theorem meets_of_check {e : Fin nproc × Call} {t' : Sys} (hstep : step oneProcess e = some t')
    (h : checkLinks t'.fs = true) : Meets step (Sane smallLayout) oneProcess [e] := by
  refine meets_cons.mpr ⟨fun t₁ h₁ => ?_, fun _ _ => meets_nil⟩
  cases hstep.symm.trans h₁
  exact sane_of_check h

theorem exists_of_check (es : List (Fin nproc × Call)) (p : Sys → Bool)
    (h : (runs step oneProcess es).any p = true) : ∃ t', runs step oneProcess es = some t' ∧ p t' = true :=
  (Option.any_eq_true _ _).mp h

def process0 : Fin nproc := ⟨0, nproc_pos⟩

/-- One call, after which the links pass the check. -/
theorem called (c : Call) (hc : c ∈ [.mkdir [97], .open [102] oCreate]) :
    ∃ t', runs step oneProcess [(process0, c)] = some t' ∧
      Meets step (Sane smallLayout) oneProcess [(process0, c)] := by
  have hall : ∀ c ∈ [.mkdir [97], .open [102] oCreate],
      (runs step oneProcess [(process0, c)]).any (fun t => checkLinks t.fs) = true := by decide +kernel
  obtain ⟨t', hrun, hcheck⟩ := exists_of_check _ _ (hall c hc)
  obtain ⟨t₁, hstep, hend⟩ := runs_cons.mp hrun
  cases hend
  exact ⟨t', hrun, meets_of_check hstep hcheck⟩

/-- The process makes a directory. -/
theorem mkdir_not_dangling : ∃ t', runs step oneProcess [(process0, .mkdir [97])] = some t' ∧
    ∀ d dnd, node smallLayout t'.fs d = some dnd → dnd.type = tDir → ∀ de ∈ entries dnd.data, de.inum ≠ 0 →
      node smallLayout t'.fs de.inum ≠ none := by
  obtain ⟨t', hrun, hsane⟩ := called (.mkdir [97]) (by simp)
  exact ⟨t', hrun, (names_not_dangling linksOk_oneProcess hsane hrun).1⟩

/-- The process makes a file. -/
theorem open_nlink : ∃ t', runs step oneProcess [(process0, .open [102] oCreate)] = some t' ∧
    ∀ i nd, node smallLayout t'.fs i = some nd →
      nd.nlink.toNat = links smallLayout.ninodes (node smallLayout t'.fs) i := by
  obtain ⟨t', hrun, hsane⟩ := called (.open [102] oCreate) (by simp)
  exact ⟨t', hrun, (nlink_eq_links linksOk_oneProcess hsane hrun).1⟩

/-- It makes a file in its directory, which it has removed. -/
def orphanCalls : List (Fin nproc × Call) :=
  [(process0, .mkdir [97]), (process0, .chdir [97]), (process0, .unlink [47, 97]),
    (process0, .open [102] oCreate)]

/-- The file has a link, and no name in a directory that has one. -/
theorem orphan_has_link : LinksOk (L := smallLayout) (by decide) oneProcess ∧
    ∃ es t', runs step oneProcess es = some t' ∧ ∃ i nd, node smallLayout t'.fs i = some nd ∧
      nd.nlink = 1 ∧ links smallLayout.ninodes (node smallLayout t'.fs) i = 0 := by
  obtain ⟨t', hrun, hp⟩ := exists_of_check orphanCalls (fun t =>
    decide (links smallLayout.ninodes (node smallLayout t.fs) 3 = 0) &&
      (node smallLayout t.fs 3).any fun nd : Node => decide (nd.nlink = 1)) (by decide +kernel)
  obtain ⟨hlinks, hany⟩ := Bool.and_eq_true_iff.mp hp
  obtain ⟨nd, hnd, hn⟩ := (Option.any_eq_true _ _).mp hany
  exact ⟨linksOk_oneProcess, orphanCalls, t', hrun, 3, nd, hnd, of_decide_eq_true hn, of_decide_eq_true hlinks⟩

/-- It opens a directory `b` in a directory `a`, and removes both. -/
def danglingCalls : List (Fin nproc × Call) :=
  [(process0, .mkdir [97]), (process0, .chdir [97]), (process0, .mkdir [98]), (process0, .open [98] 0),
    (process0, .unlink [98]), (process0, .chdir [46, 46]), (process0, .unlink [97])]

/-- The inode of `a` is free, and `..` of `b`, which is still open, names it. -/
theorem dotdot_dangling : LinksOk (L := smallLayout) (by decide) oneProcess ∧
    ∃ es t', runs step oneProcess es = some t' ∧ ∃ d dnd de, node smallLayout t'.fs d = some dnd ∧
      dnd.type = tDir ∧ de ∈ entries dnd.data ∧ de.inum ≠ 0 ∧ node smallLayout t'.fs de.inum = none := by
  obtain ⟨t', hrun, hp⟩ := exists_of_check danglingCalls (fun t =>
    decide (node smallLayout t.fs 2 = none) && (node smallLayout t.fs 3).any fun nd =>
      decide (nd.type = tDir ∧ ⟨2, dotdot⟩ ∈ entries nd.data)) (by decide +kernel)
  obtain ⟨hnone, hany⟩ := Bool.and_eq_true_iff.mp hp
  obtain ⟨nd, hnd, hdec⟩ := (Option.any_eq_true _ _).mp hany
  obtain ⟨ht, hmem⟩ := of_decide_eq_true hdec
  exact ⟨linksOk_oneProcess, danglingCalls, t', hrun, 3, nd, ⟨2, dotdot⟩, hnd, ht, hmem, by decide,
    of_decide_eq_true hnone⟩

example : links smallLayout.ninodes (node smallLayout oneProcess.fs) rootino = 1 := by decide +kernel

end Xv6.Syscall
