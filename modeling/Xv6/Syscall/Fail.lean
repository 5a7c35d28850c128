import Xv6.Syscall.Owned

/-!
# Syscall — calls that fail

A call on a path that returns `-1` should leave the nodes and the process as they were.  All do but
one: `open` makes the file before it looks for a file structure and a descriptor, and when there is
none it lets the inode go without taking the name back.
-/

namespace Xv6.Syscall
open Lib Lib.Prog Fs

variable {L : Layout} {t t' : Sys} {p : Fin nproc} {cwd : Slot} {call : Call}

/-- **Failure.**  From any tidy state, a call that returns `-1` leaves every node, and the directory
and the descriptors of its process, unless it is an `open` that has made the file. -/
theorem failed_unchanged (h : SysOk (inRange L) t) (hT : Tidy L (refsOf t) t.fs)
    (hcwd : (t.procs p).cwd = some cwd) (hpath : call.OnPath)
    (hrun : call.run p cwd t = .ok (-1, t')) :
    (node L t'.fs = node L t.fs ∧ (t'.procs p).cwd = (t.procs p).cwd ∧
        (t'.procs p).ofile = (t.procs p).ofile) ↔
      ¬ call.Left (node L t.fs) (t.fs.icache cwd).inum := by
  have hfailed := ((run_sound (F := True) call h hcwd fun _ => hT).of_eq_ok hrun).2.2 trivial hpath rfl
  rw [hfailed.nodes, hfailed.procs]
  exact ⟨And.left, fun hleft => ⟨hleft, rfl, rfl⟩⟩

/-! ### No descriptor -/

/-- The nodes of the small image, with references to the root directory only. -/
theorem tidy_small {H : Slot → Int} {s : State} {n : Int}
    (hn : node smallLayout s = node smallLayout smallState)
    (hH : ∀ jp, H jp = if jp = rootSlot then n else 0) (hslot : (s.icache rootSlot).inum = rootino) :
    Tidy smallLayout H s := by
  have hroot : node smallLayout smallState rootino ≠ none := by decide
  refine ⟨⟨⟨?_, ?_⟩, ?_, ?_⟩, ⟨by decide, ?_⟩, ?_⟩ <;> rw [hn]
  · intro i nd hi h0
    obtain ⟨rfl, rfl⟩ := node_small hi
    cases h0
  · intro jp hjp
    rw [hH] at hjp
    split at hjp
    · rename_i heq
      rw [heq, hslot]
      exact hroot
    · exact absurd hjp (lt_irrefl _)
  · intro d nd hd _ de hde _
    obtain ⟨rfl, rfl⟩ := node_small hd
    have hmem : de ∈ [⟨1, dot⟩, ⟨1, dotdot⟩] := entries_root ▸ hde
    rw [show de.inum = rootino by simp at hmem; obtain rfl | rfl := hmem <;> rfl]
    exact hroot
  · exact hroot
  · intro i nd hi
    obtain ⟨rfl, rfl⟩ := node_small hi
    decide
  · intro d nd hd _ de hde _ hdot hdotdot
    obtain ⟨rfl, rfl⟩ := node_small hd
    have hmem : de ∈ [⟨1, dot⟩, ⟨1, dotdot⟩] := entries_root ▸ hde
    simp only [List.mem_cons, List.not_mem_nil, or_false] at hmem
    obtain rfl | rfl := hmem
    · exact absurd rfl hdot
    · exact absurd rfl hdotdot

theorem tidy_oneProcess : Tidy smallLayout (refsOf oneProcess) oneProcess.fs :=
  tidy_small rfl refsOf_oneProcess rfl

/-- Process 0 with the root directory open on all its descriptors. -/
def fullProcess : Sys where
  fs := { smallState with
    icache := Function.update smallState.icache rootSlot ⟨1, 2, false, true, rootInode⟩ }
  ftable := Function.update (fun _ => ⟨.none, 0, false, false, rootSlot, 0⟩) ⟨0, nfile_pos⟩
    ⟨.inode, 16, true, false, rootSlot, 0⟩
  procs := Function.update (fun _ => ⟨fun _ => none, none⟩) ⟨0, nproc_pos⟩
    ⟨fun _ => some ⟨0, nfile_pos⟩, some rootSlot⟩

theorem refsOf_fullProcess (ip : Slot) : refsOf fullProcess ip = if ip = rootSlot then 2 else 0 := by
  rw [refsOf, fullProcess, count_update_const (fun h => by cases h.1), count_update_const (by rintro ⟨⟩)]
  simp only [File.Refers, Proc.In, true_and, Option.some.injEq, eq_comm (a := rootSlot)]
  split <;> rfl

theorem sysOk_fullProcess : SysOk (inRange smallLayout) fullProcess where
  sound := by
    have hsmall : Sound (inRange smallLayout) _ smallState := small_sound inRange_rootNode
    have hdup := (idup_sound (E := fun _ => False) hsmall
      (show 0 < if rootSlot = rootSlot then (1 : Int) else 0 by decide)).of_eq_ok
        (show idup rootSlot smallState = .ok (rootSlot, fullProcess.fs) from rfl)
    have hrefs : refsOf fullProcess = plus (fun ip => if ip = rootSlot then 1 else 0) rootSlot := by
      funext ip
      rw [refsOf_fullProcess]
      by_cases hip : ip = rootSlot
      · subst hip
        rw [plus_self]
        rfl
      · rw [plus_of_ne hip, if_neg hip, if_neg hip]
    rw [hrefs]
    exact hdup.2.1
  refs f := by
    by_cases hf : f = ⟨0, by decide⟩
    · subst hf
      decide +kernel
    · have hfree : (fullProcess.ftable f).ref = 0 := by
        simp only [fullProcess, Function.update_of_ne hf]
      rw [hfree]
      refine (count_eq_zero fun x => ?_).symm
      simp only [descriptors, fullProcess, Function.update_apply]
      split
      · exact fun h => hf (Option.some.inj h).symm
      · rintro ⟨⟩
  free f h0 := by
    by_cases hf : f = ⟨0, by decide⟩
    · subst hf
      cases h0
    · simp only [fullProcess, Function.update_of_ne hf]
  files f hinode hw := by
    by_cases hf : f = ⟨0, by decide⟩
    · subst hf
      cases hw
    · simp only [fullProcess, Function.update_of_ne hf, reduceCtorEq] at hinode

theorem tidy_fullProcess : Tidy smallLayout (refsOf fullProcess) fullProcess.fs :=
  tidy_small rfl refsOf_fullProcess rfl

/-- `open("f", O_CREATE)` with no descriptor left: it returns `-1`, and the file is there. -/
theorem open_leaves_file : SysOk (inRange smallLayout) fullProcess ∧
    Tidy smallLayout (refsOf fullProcess) fullProcess.fs ∧
    ∃ t', (Call.open [102] oCreate).run ⟨0, by decide⟩ rootSlot fullProcess = .ok (-1, t') ∧
      node smallLayout fullProcess.fs 2 = none ∧ node smallLayout t'.fs 2 = some ⟨tFile, 1, []⟩ := by
  obtain ⟨-, t', hok, rfl, hnode⟩ := exists_of_check (m := (Call.open [102] oCreate).run ⟨0, by decide⟩ rootSlot)
    (s := fullProcess) (p := fun r t' => r = -1 ∧ node smallLayout t'.fs 2 = some ⟨tFile, 1, []⟩) (by decide +kernel)
  exact ⟨sysOk_fullProcess, tidy_fullProcess, t', hok, by decide, hnode⟩

/-- `open("f", 0)` fails too, and leaves nothing. -/
theorem openMissing_unchanged :
    ∃ t', (Call.open [102] 0).run ⟨0, by decide⟩ rootSlot oneProcess = .ok (-1, t') ∧
      node smallLayout t'.fs = node smallLayout oneProcess.fs := by
  obtain ⟨-, t', hok, rfl⟩ := exists_of_check (m := (Call.open [102] 0).run ⟨0, by decide⟩ rootSlot) (s := oneProcess)
    (p := fun r _ => r = -1) (by decide +kernel)
  have hkept := failed_unchanged (.oneProcess inRange_rootNode) tidy_oneProcess rfl
    (show (Call.open [102] 0).OnPath from trivial) hok
  exact ⟨t', hok, (hkept.mpr fun hleft => hleft.1 rfl).1⟩

example : node smallLayout oneProcess.fs 2 = none := by decide +kernel

end Xv6.Syscall
