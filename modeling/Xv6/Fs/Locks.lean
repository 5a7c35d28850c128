import Xv6.Fs.Dir

/-!
# Fs — inode locks

Which entries of the inode cache are locked, before and after each function.  `Turns K m K'` says that
`m`, run when at most the entries `K` are locked, ends with at most `K' a` locked, where `a` is its
value.  A function that panics or waits for ever leaves no such state.
-/

namespace Xv6.Fs
open Lib Lib.Prog

/-- No entry but these is locked. -/
def Locks (K : Set Slot) (s : State) : Prop := ∀ ip, (s.icache ip).busy = true → ip ∈ K

def Turns {α : Type} (K : Set Slot) (m : FsM α) (K' : α → Set Slot) : Prop :=
  ∀ s, Locks K s → Wp m s (fun _ => True) fun a s' => Locks (K' a) s'

/-- The locks are the same after `m`. -/
abbrev Steady {α : Type} (K : Set Slot) (m : FsM α) : Prop := Turns K m fun _ => K

namespace Turns
variable {α β : Type} {K : Set Slot} {m m' : FsM α} {f : α → FsM β} {K' K'' : α → Set Slot}
  {J : β → Set Slot}

theorem pure {a : α} (h : K ⊆ K' a) : Turns K (Pure.pure a) K' :=
  fun _ hs => wp_pure.mpr fun ip hip => h (hs ip hip)

theorem stop {e : Stop} : Turns K (Prog.stop e : FsM α) K' := fun _ _ => wp_stop.mpr trivial

theorem gets {g : State → α} : Steady K (Prog.gets g) := fun _ hs => wp_gets.mpr hs

theorem modify {g : State → State} (h : ∀ s, (g s).icache = s.icache) : Steady K (Prog.modify g) := by
  intro s hs
  refine wp_modify.mpr fun ip hip => hs ip ?_
  rw [← h s]
  exact hip

theorem bind (h : Turns K m K') (hf : ∀ a, Turns (K' a) (f a) J) : Turns K (m >>= f) J :=
  fun s hs => (h s hs).bind fun a s' hs' => hf a s' hs'

theorem mono (h : Turns K m K') (hle : ∀ a, K' a ⊆ K'' a) : Turns K m K'' :=
  fun s hs => (h s hs).post fun a _ hs' ip hip => hle a (hs' ip hip)

theorem ite {c : Prop} [Decidable c] (h : Turns K m K') (h' : Turns K m' K') :
    Turns K (if c then m else m') K' := by
  split
  · exact h
  · exact h'

theorem forEach {body : β → FsM Unit} (as : List β) (h : ∀ a, Steady K (body a)) :
    Steady K (Prog.forEach as body) := by
  induction as with
  | nil => exact pure subset_rfl
  | cons a as ih => exact (h a).bind fun _ => ih

end Turns

section Locks
variable {K : Set Slot} {ip dp cwd : Slot} {name path : List UInt8} {type : UInt16}

/-! ### Entries -/

theorem inode_turns : Steady K (inode ip) := .gets

/-- The entry is changed, and not locked by that. -/
theorem setInode_turns {f : Inode → Inode} (h : ∀ i, (f i).busy = true → i.busy = true) :
    Steady K (setInode ip f) := by
  intro s hs
  refine wp_modify.mpr fun jp hjp => hs jp ?_
  by_cases hj : jp = ip
  · subst hj
    simp only [Function.update_self] at hjp
    exact h _ hjp
  · simpa only [Function.update_of_ne hj] using hjp

theorem setCopy_turns {f : Dinode → Dinode} : Steady K (setCopy ip f) := setInode_turns fun _ h => h

theorem lock_turns : Turns K (setInode ip fun i => { i with busy := true }) fun _ => insert ip K := by
  intro s hs
  refine wp_modify.mpr fun jp hjp => ?_
  by_cases hj : jp = ip
  · exact .inl hj
  · simp only [Function.update_of_ne hj] at hjp
    exact .inr (hs jp hjp)

theorem unlock_turns {f : Inode → Inode} (h : ∀ i, (f i).busy = false) :
    Turns K (setInode ip f) fun _ => K \ {ip} := by
  intro s hs
  refine wp_modify.mpr fun jp hjp => ?_
  by_cases hj : jp = ip
  · subst hj
    simp only [Function.update_self, h] at hjp
    cases hjp
  · simp only [Function.update_of_ne hj] at hjp
    exact ⟨hs jp hjp, hj⟩

theorem bread_turns {b : Nat} : Steady K (bread b) := .gets

theorem logWrite_turns {b : Nat} {data : Block} : Steady K (logWrite b data) := .modify fun _ => rfl

theorem iupdate_turns : Steady K (iupdate ip) :=
  inode_turns.bind fun _ => Turns.gets.bind fun _ => bread_turns.bind fun _ => logWrite_turns

theorem storeFields_turns {f : Dinode → Dinode} : Steady K (storeFields ip f) :=
  setCopy_turns.bind fun _ => iupdate_turns

theorem iget_turns {inum : Nat} : Steady K (iget inum) := by
  refine Turns.gets.bind fun icache => ?_
  split
  · refine Turns.bind (setInode_turns ?_) fun _ => .pure subset_rfl
    exact fun _ h => h
  · split
    · exact .stop
    · refine Turns.bind (setInode_turns ?_) fun _ => .pure subset_rfl
      exact fun _ h => nomatch h

theorem idup_turns : Steady K (idup ip) := by
  refine Turns.bind (setInode_turns ?_) fun _ => .pure subset_rfl
  exact fun _ h => h

theorem ialloc_turns : Steady K (ialloc type) := by
  refine Turns.gets.bind fun sb => Turns.gets.bind fun disk => ?_
  split
  · exact .stop
  · exact bread_turns.bind fun _ => logWrite_turns.bind fun _ => iget_turns

theorem ilock_turns : Turns K (ilock ip) fun _ => insert ip K := by
  refine inode_turns.bind fun i => .ite .stop (.ite .stop (lock_turns.bind fun _ => ?_))
  refine .ite (.pure subset_rfl) (Turns.gets.bind fun sb => bread_turns.bind fun bp => ?_)
  refine Turns.bind (setInode_turns ?_) fun _ => .ite .stop (.pure subset_rfl)
  exact fun _ h => h

theorem iunlock_turns : Turns K (iunlock ip) fun _ => K \ {ip} :=
  inode_turns.bind fun _ => .ite .stop (unlock_turns fun _ => rfl)

/-! ### Blocks -/

theorem ballocFrom_turns {rounds b : Nat} : Steady K (ballocFrom rounds b) := by
  induction rounds generalizing b with
  | zero => exact .stop
  | succ rounds ih =>
      refine Turns.gets.bind fun sb => .ite (bread_turns.bind fun bp => ?_) .stop
      split
      · exact logWrite_turns.bind fun _ => logWrite_turns.bind fun _ => .pure subset_rfl
      · exact ih

theorem balloc_turns : Steady K balloc := Turns.gets.bind fun _ => ballocFrom_turns

theorem bfree_turns {b : Nat} : Steady K (bfree b) := by
  have hsb : Steady K readsb := .modify fun _ => rfl
  refine hsb.bind fun _ => Turns.gets.bind fun sb => bread_turns.bind fun bp => ?_
  exact .ite logWrite_turns .stop

theorem addrOf_turns {k : Nat} : Steady K (addrOf ip k) := by
  refine inode_turns.bind fun i => .ite ?_ (.pure subset_rfl)
  exact balloc_turns.bind fun _ => setCopy_turns.bind fun _ => .pure subset_rfl

theorem entryOf_turns {addr j : Nat} : Steady K (entryOf addr j) := by
  refine bread_turns.bind fun a => .ite ?_ (.pure subset_rfl)
  exact balloc_turns.bind fun _ => bread_turns.bind fun _ => logWrite_turns.bind fun _ =>
    .pure subset_rfl

theorem bmap_turns {bn : Nat} : Steady K (bmap ip bn) :=
  .ite addrOf_turns (.ite (addrOf_turns.bind fun _ => entryOf_turns) .stop)

theorem itrunc_turns : Steady K (itrunc ip) := by
  have hdirect : Steady K (itruncDirect ip) := .forEach _ fun k => inode_turns.bind fun i =>
    .ite (.pure subset_rfl) (bfree_turns.bind fun _ => setCopy_turns)
  have hentries : ∀ addr, Steady K (itruncEntries addr) := fun addr => .forEach _ fun j =>
    bread_turns.bind fun a => .ite (.pure subset_rfl) bfree_turns
  have hindirect : Steady K (itruncIndirect ip) := inode_turns.bind fun i =>
    .ite (.pure subset_rfl) ((hentries _).bind fun _ => bfree_turns.bind fun _ => setCopy_turns)
  exact hdirect.bind fun _ => hindirect.bind fun _ => setCopy_turns.bind fun _ => iupdate_turns

/-- The entry whose inode is freed is locked meanwhile. -/
theorem iput_turns : Steady K (iput ip) := by
  refine inode_turns.bind fun i => .ite (.ite .stop ?_) (setInode_turns fun _ h => h)
  refine lock_turns.bind fun _ => itrunc_turns.bind fun _ => setCopy_turns.bind fun _ =>
    iupdate_turns.bind fun _ => (unlock_turns fun _ => rfl).mono fun _ jp hjp => ?_
  exact hjp.1.resolve_left hjp.2

theorem iunlockput_turns : Turns K (iunlockput ip) fun _ => K \ {ip} :=
  iunlock_turns.bind fun _ => iput_turns

/-! ### Contents -/

theorem insert_diff_subset : insert ip K \ {ip} ⊆ K := fun _ h => h.1.resolve_left h.2

theorem insert_diff_eq (h : ip ∈ K) : insert ip (K \ {ip}) = K := by
  rw [Set.insert_sdiff_singleton, Set.insert_eq_of_mem h]

theorem readLoop_turns {off n : Nat} : Steady K (readLoop ip off n) := by
  induction n using Nat.strong_induction_on generalizing off with
  | _ n ih =>
      rw [readLoop]
      split
      · exact .pure subset_rfl
      · rename_i hn
        have hlt : n - roundLen off n < n := by
          have := roundLen_pos off hn
          omega
        exact bmap_turns.bind fun _ => bread_turns.bind fun _ => (ih _ hlt).bind fun _ =>
          .pure subset_rfl

/-- The console lets go of the inode and locks it again. -/
theorem readi_turns {off n : Nat} (h : ip ∈ K) : Steady K (readi ip off n) := by
  have hconsole : ∀ n, Steady K (consoleread ip n) := by
    intro n
    refine iunlock_turns.bind fun _ => Turns.gets.bind fun input => ?_
    split
    · exact .stop
    · refine Turns.bind (.modify ?_) fun _ => ilock_turns.bind fun _ => .pure ?_
      · exact fun _ => rfl
      · rw [insert_diff_eq h]
  refine inode_turns.bind fun i => .ite (.ite ((hconsole n).bind fun _ => .pure subset_rfl)
    (.pure subset_rfl)) ?_
  exact .ite (.pure subset_rfl) (readLoop_turns.bind fun _ => .pure subset_rfl)

theorem writeLoop_turns {off : Nat} {src : List UInt8} : Steady K (writeLoop ip off src) := by
  induction hlen : src.length using Nat.strong_induction_on generalizing off src with
  | _ n ih =>
      subst hlen
      rw [writeLoop]
      split
      · exact .pure subset_rfl
      · rename_i hn
        have hlt : (src.drop (roundLen off src.length)).length < src.length := by
          have := roundLen_pos off hn
          rw [List.length_drop]
          omega
        exact bmap_turns.bind fun _ => bread_turns.bind fun _ => logWrite_turns.bind fun _ =>
          ih _ hlt rfl

theorem writei_turns {off : Nat} {src : List UInt8} (h : ip ∈ K) : Steady K (writei ip off src) := by
  have hconsole : Steady K (consolewrite ip) :=
    iunlock_turns.bind fun _ => ilock_turns.mono fun _ => (insert_diff_eq h).subset
  refine inode_turns.bind fun i => .ite (.ite (hconsole.bind fun _ => .pure subset_rfl)
    (.pure subset_rfl)) (.ite (.pure subset_rfl) (.ite (.pure subset_rfl) ?_))
  refine writeLoop_turns.bind fun off => inode_turns.bind fun i => .ite ?_ (.pure subset_rfl)
  exact setCopy_turns.bind fun _ => iupdate_turns.bind fun _ => .pure subset_rfl

/-! ### Directories -/

theorem readDirent_turns {off : Nat} {why : Stop} (h : dp ∈ K) : Steady K (readDirent dp off why) := by
  refine (readi_turns h).bind fun r => ?_
  split
  · exact .stop
  · exact .ite (.pure subset_rfl) .stop

theorem lookupLoop_turns {n off : Nat} (h : dp ∈ K) : Steady K (lookupLoop dp name n off) := by
  induction n generalizing off with
  | zero => exact .pure subset_rfl
  | succ n ih => exact (readDirent_turns h).bind fun _ => .ite (.pure subset_rfl) ih

theorem dirlookup_turns (h : dp ∈ K) : Steady K (dirlookup dp name) := by
  refine inode_turns.bind fun i => .ite .stop ((lookupLoop_turns h).bind fun r => ?_)
  split
  · exact .pure subset_rfl
  · exact iget_turns.bind fun _ => .pure subset_rfl

theorem emptyLoop_turns {n off : Nat} (h : dp ∈ K) : Steady K (emptyLoop dp n off) := by
  induction n generalizing off with
  | zero => exact .pure subset_rfl
  | succ n ih => exact (readDirent_turns h).bind fun _ => .ite (.pure subset_rfl) ih

theorem dirlink_turns {inum : Nat} (h : dp ∈ K) : Steady K (dirlink dp name inum) := by
  refine (dirlookup_turns h).bind fun r => ?_
  split
  · exact iput_turns.bind fun _ => .pure subset_rfl
  · refine inode_turns.bind fun i => (emptyLoop_turns h).bind fun off => ?_
    exact (writei_turns h).bind fun r => .ite (.pure subset_rfl) .stop

theorem isdirempty_turns (h : dp ∈ K) : Steady K (isdirempty dp) := by
  have hloop : ∀ n off, Steady K (isdiremptyLoop dp n off) := by
    intro n
    induction n with
    | zero => exact fun _ => .pure subset_rfl
    | succ n ih => exact fun off => (readDirent_turns h).bind fun _ => .ite (.pure subset_rfl) (ih _)
  exact inode_turns.bind fun _ => hloop _ _

theorem namexLoop_turns {parent : Bool} : Steady K (namexLoop parent ip path) := by
  induction hlen : path.length using Nat.strong_induction_on generalizing ip path with
  | _ n ih =>
      subst hlen
      rw [namexLoop]
      split
      · exact .ite (iput_turns.bind fun _ => .pure subset_rfl) (.pure subset_rfl)
      · rename_i name rest hskip
        -- in each case the directory is locked, and let go of in the end
        have hput : Turns (insert ip K) (iunlockput ip) fun _ => K :=
          iunlockput_turns.mono fun _ => insert_diff_subset
        refine ilock_turns.bind fun _ => inode_turns.bind fun i =>
          .ite (hput.bind fun _ => .pure subset_rfl) (.ite ?_ ?_)
        · exact iunlock_turns.bind fun _ => .pure insert_diff_subset
        · refine (dirlookup_turns (.inl rfl)).bind fun r => ?_
          split
          · exact hput.bind fun _ => .pure subset_rfl
          · exact hput.bind fun _ => ih _ (skipelem_lt hskip) rfl

theorem namex_turns {parent : Bool} : Steady K (namex cwd parent path) := by
  unfold namex
  split
  · exact iget_turns.bind fun _ => namexLoop_turns
  · exact idup_turns.bind fun _ => namexLoop_turns

theorem namei_turns : Steady K (namei cwd path) := namex_turns.bind fun _ => .pure subset_rfl

end Locks

end Xv6.Fs
