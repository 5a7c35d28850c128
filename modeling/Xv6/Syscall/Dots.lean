import Xv6.Syscall.Owned

/-!
# Syscall — `.` and `..`

Every directory has `.`, for itself, as its first entry and `..` as its second (`Dotted`).  It is a
property of directories that the ways to write one keep: `dirlink` writes over empty entries only,
`sys_unlink` refuses the two names, `create` writes them first, and files that are open for writing are
not directories.  So `isdirempty`, which looks behind the first two entries, is right, and `sys_unlink`
takes out entries for empty directories only (`dots_kept`).
-/

namespace Xv6.Syscall
open Lib Lib.Prog Fs

/-- Directory `i` has its two entries, and whole entries after them. -/
structure Dotted (i : Nat) (data : List UInt8) : Prop where
  pos : 0 < i
  size : data.length % direntSize = 0
  dot : (entries data)[0]? = some ⟨i, dot⟩
  dotdot : ∃ p, 0 < p ∧ (entries data)[1]? = some ⟨p, dotdot⟩

section Dotted
variable {L : Layout} {i k : Nat} {data data' src name : List UInt8} {de : Dirent}

/-- Another entry than the two is written. -/
theorem Dotted.overwrite (h : Dotted i data) (hfits : Fits data k) (hsrc : src.length = direntSize)
    (h0 : k ≠ 0) (h1 : k ≠ 1) : Dotted i (Fs.overwrite data (k * direntSize) src) := by
  refine ⟨h.pos, ?_, ?_, ?_⟩
  · rw [length_overwrite_entry hfits hsrc]
    have := h.size
    split
    · exact this
    · rw [Nat.add_mod_right]
      exact this
  · rw [entries_overwrite hfits hsrc, getElem?_putEntry hfits.le_length, if_neg h0.symm]
    exact h.dot
  · rw [entries_overwrite hfits hsrc, getElem?_putEntry hfits.le_length, if_neg h1.symm]
    exact h.dotdot

/-- The two entries are in use, so `dirlink` writes elsewhere. -/
theorem Dotted.enter (h : Dotted i data) (he : Entered data de data') : Dotted i data' := by
  obtain ⟨-, -, k, hfits, hempty, rfl⟩ := he
  refine h.overwrite hfits length_dirent_bytes ?_ ?_
  · rintro rfl
    exact h.pos.ne' (hempty _ h.dot)
  · rintro rfl
    obtain ⟨p, hp, hget⟩ := h.dotdot
    exact hp.ne' (hempty _ hget)

/-- The two names are not those `sys_unlink` takes out. -/
theorem Dotted.clear (h : Dotted i data) (hf : FoundAt data name k de) (hdot : name ≠ Fs.dot)
    (hdotdot : name ≠ Fs.dotdot) : Dotted i (cleared data k) := by
  refine h.overwrite hf.fits (by simp) ?_ ?_
  · rintro rfl
    have := hf.name
    cases h.dot.symm.trans hf.get
    exact hdot this.symm
  · rintro rfl
    obtain ⟨p, -, hget⟩ := h.dotdot
    have := hf.name
    cases hget.symm.trans hf.get
    exact hdotdot this.symm

/-- Inode numbers fit in an entry. -/
theorem addedTo_of_entered (h : Entered data de data') (hinum : de.inum < 2 ^ 16) :
    AddedTo data de data' := by
  obtain ⟨hname, habsent, k, hfits, hempty, rfl⟩ := h
  exact .of_dirlink (ofBytes_bytes hname hinum) habsent hfits hempty

/-- Directories with their two entries. -/
def dotted (hL : L.ninodes ≤ 2 ^ 16) : Dirs L where
  Ok i nd := InRange L nd ∧ (nd.type = tDir → Dotted i nd.data)
  range h := h.1
  file ht := ⟨fun h => absurd h ht, fun h => absurd h ht⟩
  nlink _ h := h
  enter h hinum he := ⟨h.1.enter hinum he, fun ht => (h.2 ht).enter he⟩
  clear {i _ _ _ _} h hf hdot hdotdot := ⟨(inRange L).clear (i := i) h.1 hf hdot hdotdot,
    fun ht => (h.2 ht).clear hf hdot hdotdot⟩
  dots {i d n data data'} h0 hi hd0 hd he he' := by
    refine ⟨(inRange L).dots (n := n) h0 hi hd0 hd he he', fun _ => ?_⟩
    have hadd := addedTo_of_entered he (hi.trans_le hL)
    have hadd' := addedTo_of_entered he' (hd.trans_le hL)
    have hentries := entries_of_dots h0.ne' hadd hadd'
    exact ⟨h0, hadd'.size, by rw [hentries]; rfl, d, hd0, by rw [hentries]; rfl⟩

end Dotted

section Runs
variable {L : Layout} {H : Slot → Int} {s : State} {t t' : Sys} {ip : Slot} {i : Nat} {nd : Node}

/-- `isdirempty` says whether there is another entry. -/
theorem isdirempty_eq (hL : L.ninodes ≤ 2 ^ 16) (h : Sound (dotted hL) H s) (hip : 0 < H ip)
    (hat : At L s ip i nd) (ht : nd.type = tDir) :
    ∃ b, isdirempty ip s = .ok (b, s) ∧
      (b = true ↔ ∀ j de, 2 ≤ j → (entries nd.data)[j]? = some de → de.inum = 0) := by
  have hsize := ((h.dirs i nd hat.node).2 ht).size
  have hwp := isdirempty_wp h hip hat ht
  cases hrun : isdirempty ip s with
  | error e => exact absurd hsize (hwp.of_eq_error hrun).2
  | ok r =>
      obtain ⟨b, s'⟩ := r
      obtain ⟨rfl, hb⟩ := hwp.of_eq_ok hrun
      exact ⟨b, rfl, hb⟩

/-- **`.` and `..`.**  After any calls every directory has `.`, for itself, and `..` as its first two
entries; a write leaves the directories as they are; `isdirempty` says whether there is an entry in use
behind the two; and an unlink takes no entry out of a directory but one for an inode that is no
directory, or is one without another entry. -/
theorem dots_kept {es : List (Fin nproc × Call)} (hL : L.ninodes ≤ 2 ^ 16)
    (h : SysOk (dotted hL) t) (hrun : runs step t es = some t') :
    (∀ d dnd, node L t'.fs d = some dnd → dnd.type = tDir →
      (entries dnd.data)[0]? = some ⟨d, dot⟩ ∧
      ∃ p, 0 < p ∧ (entries dnd.data)[1]? = some ⟨p, dotdot⟩) ∧
    (∀ p fd src t'', step t' (p, .write fd src) = some t'' → ∀ d dnd, dnd.type = tDir →
      (node L t''.fs d = some dnd ↔ node L t'.fs d = some dnd)) ∧
    (∀ H s ip d dnd, Sound (dotted hL) H s → 0 < H ip → At L s ip d dnd → dnd.type = tDir →
      ∃ b, isdirempty ip s = .ok (b, s) ∧
        (b = true ↔ ∀ j de, 2 ≤ j → (entries dnd.data)[j]? = some de → de.inum = 0)) ∧
    ∀ p path t'', step t' (p, .unlink path) = some t'' →
      Unlinks (node L t'.fs) (node L t''.fs) := by
  have hok := h.run hrun
  refine ⟨fun d dnd hd ht => ?_, fun p fd src t'' hstep d dnd ht => ?_,
    fun H s ip d dnd hs hip hat ht => isdirempty_eq hL hs hip hat ht, fun p path t'' hstep => ?_⟩
  · have hdots := (hok.sound.dirs d dnd hd).2 ht
    exact ⟨hdots.dot, hdots.dotdot⟩
  · have hwritten : Written (node L t'.fs) (node L t''.fs) :=
      (step_leaves (F := False) hok False.elim hstep).2
    obtain hsame | ⟨nd, data, hnd, hne, hnew⟩ := hwritten d
    · rw [hsame]
    · rw [hnd, hnew]
      constructor
      · rintro ⟨⟩
        exact absurd ht hne
      · rintro ⟨⟩
        exact absurd ht hne
  · exact (step_leaves (F := False) hok False.elim hstep).2

end Runs

theorem dotted_rootNode : (dotted (L := smallLayout) (by decide)).Ok rootino rootNode := by
  refine ⟨inRange_rootNode, fun _ => ⟨by decide, by decide, ?_, rootino, by decide, ?_⟩⟩
  all_goals
    rw [rootNode, entries_root]
    rfl

/-- The process makes a directory and removes it. -/
theorem mkdirUnlink_dots : ∃ t', runs step oneProcess
      [(⟨0, by decide⟩, .mkdir [97]), (⟨0, by decide⟩, .unlink [97])] = some t' ∧
    ∀ d dnd, node smallLayout t'.fs d = some dnd → dnd.type = tDir →
      (entries dnd.data)[0]? = some ⟨d, dot⟩ := by
  obtain ⟨t', hrun⟩ := Option.isSome_iff_exists.mp mkdirUnlink_runs
  have hdots := (dots_kept _ (.oneProcess dotted_rootNode) hrun).1
  exact ⟨t', hrun, fun d dnd hd ht => (hdots d dnd hd ht).1⟩

end Xv6.Syscall
