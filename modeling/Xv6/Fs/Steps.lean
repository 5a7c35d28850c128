import Xv6.Fs.Lookup

/-!
# Fs — processes that take turns

Any number of processes inside the file system at once.  What one of them does between two points at
which others may run is a function of the inode or directory layer (`Op`): it has the lock of the inode
the function works on, so that the functions of others meanwhile are on other inodes and other blocks,
and it runs as one step.  `owner` is who has locked an entry.  A process makes any call it can make:
the calls of `sysfile.c` are such steps in some order, and here they come in every order the locks
allow.

Each step keeps a state well-formed (`Sound.step`), whatever the property of directories.  So the copies
of inodes in memory agree with the disk in every state that is reached (`cached_agree`).
-/

namespace Xv6.Fs
open Lib Lib.Prog

instance (name : List UInt8) : Decidable (Named name) :=
  decidable_of_iff (name.length ≤ dirsiz ∧ (0 : UInt8) ∉ name) ⟨fun h => ⟨h.1, h.2⟩, fun h => ⟨h.1, h.2⟩⟩

/-- What a process does in one step. -/
inductive Op where
  | beginOp
  | endOp
  /-- characters are typed at the console, or read from it -/
  | console (input : List UInt8)
  /-- `iget` of the root or of the inode of an entry -/
  | iget (inum : Nat)
  | idup (ip : Slot)
  | ilock (ip : Slot)
  | iunlock (ip : Slot)
  | iput (ip : Slot)
  | ialloc (type : UInt16)
  /-- these fields are set, and `iupdate` -/
  | iupdate (ip : Slot) (major minor nlink : UInt16)
  | readi (ip : Slot) (off n : Nat)
  | writei (ip : Slot) (off : Nat) (src : List UInt8)
  | dirlookup (dp : Slot) (name : List UInt8)
  | dirlink (dp : Slot) (name : List UInt8) (inum : Nat)
  | isdirempty (dp : Slot)
  /-- `sys_unlink`'s `writei` over entry `k` -/
  | clear (dp : Slot) (k : Nat)

structure Conc where
  fs : State
  owner : Slot → Option Nat

/-- Process `p` has the inode, and has locked and read it. -/
def Conc.Has (s : Conc) (p : Nat) (ip : Slot) : Prop :=
  s.owner ip = some p ∧ 0 < (s.fs.icache ip).ref ∧ (s.fs.icache ip).valid = true

instance (s : Conc) (p : Nat) (ip : Slot) : Decidable (s.Has p ip) :=
  inferInstanceAs (Decidable (_ ∧ _))

/-- The entry is in use, for another name than `.` and `..`. -/
def Dirent.Clears (de : Dirent) : Prop := de.inum ≠ 0 ∧ de.name ≠ dot ∧ de.name ≠ dotdot

instance : DecidablePred Dirent.Clears := fun _ => inferInstanceAs (Decidable (_ ∧ _))

/-- What process `p` sees to before it calls the function. -/
def Op.Allowed (p : Nat) (s : Conc) : Op → Prop
  | .beginOp => True
  | .endOp => True
  | .console _ => True
  | .iget inum => 0 < inum ∧ inum < s.fs.sb.ninodes
  | .idup ip => 0 < (s.fs.icache ip).ref
  | .ilock ip => 0 < (s.fs.icache ip).ref
  | .iunlock ip => s.owner ip = some p ∧ 0 < (s.fs.icache ip).ref
  | .iput ip => 0 < (s.fs.icache ip).ref
  | .ialloc type => type ≠ 0
  | .iupdate ip _ _ _ => s.Has p ip
  | .readi ip off n => s.Has p ip ∧ off < 2 ^ 32 ∧ n < 2 ^ 32
  -- only files that are no directories are opened for writing
  | .writei ip off src => s.Has p ip ∧ (s.fs.icache ip).copy.type ≠ tDir ∧ off < 2 ^ 32 ∧
      src.length < 2 ^ 32
  | .dirlookup dp _ => s.Has p dp
  -- the name comes from a path, the number from an inode in hand
  | .dirlink dp name inum => s.Has p dp ∧ Named name ∧ inum < s.fs.sb.ninodes
  | .isdirempty dp => s.Has p dp ∧ (s.fs.icache dp).copy.type = tDir
  -- the entry was found by `dirlookup`, which checks the type, under the same lock
  | .clear dp k => s.Has p dp ∧ (s.fs.icache dp).copy.type = tDir ∧
      ∃ de ∈ (entries (contents s.fs.disk (s.fs.icache dp).copy))[k]?, de.Clears

instance (p : Nat) (s : Conc) (op : Op) : Decidable (op.Allowed p s) := by
  cases op <;> unfold Op.Allowed <;> infer_instance

/-- The function. -/
def Op.run : Op → FsM Unit
  | .beginOp => Fs.beginOp
  | .endOp => Fs.endOp
  | .console input => modify fun s => { s with input := input }
  | .iget inum => do let _ ← Fs.iget inum
  | .idup ip => do let _ ← Fs.idup ip
  | .ilock ip => Fs.ilock ip
  | .iunlock ip => Fs.iunlock ip
  | .iput ip => Fs.iput ip
  | .ialloc type => do let _ ← Fs.ialloc type
  | .iupdate ip major minor nlink =>
      storeFields ip fun c => { c with major := major, minor := minor, nlink := nlink }
  | .readi ip off n => do let _ ← Fs.readi ip off n
  | .writei ip off src => do let _ ← Fs.writei ip off src
  | .dirlookup dp name => do let _ ← Fs.dirlookup dp name
  | .dirlink dp name inum => do let _ ← Fs.dirlink dp name inum
  | .isdirempty dp => do let _ ← Fs.isdirempty dp
  | .clear dp k => do let _ ← Fs.writei dp (k * direntSize) (List.replicate direntSize 0)

/-- Who has locked the entries, after the function. -/
def Op.owner (p : Nat) (owner : Slot → Option Nat) : Op → Slot → Option Nat
  | .ilock ip => Function.update owner ip (some p)
  | .iunlock ip => Function.update owner ip none
  | _ => owner

/-- Process `p` takes a step; one that has to wait, or panics, takes none. -/
def turn (s : Conc) (e : Nat × Op) : Option Conc :=
  if e.2.Allowed e.1 s then
    match e.2.run s.fs with
    | .ok (_, fs) => some ⟨fs, e.2.owner e.1 s.owner⟩
    | .error _ => none
  else none

section Steps
variable {L : Layout} {D : Dirs L} {H : Slot → Int} {s s' : State} {ip dp : Slot} {p : Nat}

/-- The references there are. -/
def refsIn (s : State) (ip : Slot) : Int := (s.icache ip).ref

/-- Well-formed, whoever has the references. -/
structure Formed (D : Dirs L) (s : State) : Prop where
  sound : Sound D (refsIn s) s

theorem Sound.formed (h : Sound D H s) : Formed D s := by
  have : refsIn s = H := funext h.refs
  exact ⟨by rw [this]; exact h⟩

theorem Formed.entry (h : Formed D s) (hip : 0 < (s.icache ip).ref) (hv : (s.icache ip).valid = true) :
    ∃ nd, At L s ip (s.icache ip).inum nd := h.sound.entry hip hv

/-- One step.  A new directory is empty at first. -/
theorem Formed.run (hD : ∀ i n, D.Ok i ⟨tDir, n, []⟩) {c : Conc} {op : Op} (h : Formed D c.fs)
    (hop : op.Allowed p c) : Wp op.run c.fs (fun _ => True) fun _ s' => Formed D s' := by
  have hs := h.sound
  -- a function that does not look at its argument's value
  have hvoid : ∀ {α : Type} {m : FsM α} {E : Stop → Prop} {Q : α → State → Prop},
      Wp m c.fs E Q → (∀ a s', Q a s' → Formed D s') →
        Wp (do let _ ← m) c.fs (fun _ => True) fun _ s' => Formed D s' :=
    fun hm hQ => hm.seq (fun _ _ => trivial) fun a s' ha => wp_pure.mpr (hQ a s' ha)
  cases op with
  | beginOp => exact wp_modify.mpr ⟨hs.log⟩
  | endOp => exact wp_modify.mpr ⟨hs.log⟩
  | console input => exact wp_modify.mpr ⟨hs.typed input⟩
  | iget inum =>
      obtain ⟨hlow, hhigh⟩ := hop
      rw [hs.good.sb] at hhigh
      exact hvoid (iget_sound hs hlow hhigh) fun _ _ h => h.1.formed
  | idup ip => exact hvoid (idup_sound (E := fun _ => True) hs hop) fun _ _ h => h.2.1.formed
  | ilock ip => exact (ilock_sound hs hop).mono (fun _ _ => trivial) fun _ _ h => h.1.formed
  | iunlock ip => exact (iunlock_sound hs hop.2).mono (fun _ _ => trivial) fun _ _ h => h.1.formed
  | iput ip =>
      -- the references without the one that is dropped
      have hpos : 0 < refsIn c.fs ip := hop
      have hplus : plus (Function.update (refsIn c.fs) ip (refsIn c.fs ip - 1)) ip =
          refsIn c.fs := by
        rw [plus, Function.update_idem, Function.update_self, sub_add_cancel,
          Function.update_eq_self]
      rw [← hplus] at hs
      refine (iput_sound hs ?_).mono (fun _ _ => trivial) fun _ _ h => h.1.formed
      rw [Function.update_self]
      omega
  | ialloc type =>
      refine hvoid (ialloc_sound hs hop) ?_
      rintro ip s' ⟨i, -, -, -, hs', -, hn, -⟩
      refine (hs'.of_except (by rw [hn, Function.update_self]) ?_).formed
      by_cases ht : type = tDir
      · rw [ht]
        exact hD i 0
      · exact D.file ht
  | iupdate ip major minor nlink =>
      obtain ⟨-, href, hv⟩ := hop
      obtain ⟨nd, hat⟩ := h.entry href hv
      refine (storeFields_sound hs href hat fun c => ?_).post fun _ _ h => h.1.formed
      exact ⟨rfl, rfl, rfl⟩
  | readi ip off n =>
      obtain ⟨⟨-, href, hv⟩, hoff, hn⟩ := hop
      obtain ⟨nd, hat⟩ := h.entry href hv
      exact hvoid (readi_sound hs href hat hoff hn) fun _ _ h => h.1.formed
  | writei ip off src =>
      obtain ⟨⟨-, href, hv⟩, ht, hoff, hsrc⟩ := hop
      obtain ⟨nd, hat⟩ := h.entry href hv
      rw [hat.type] at ht
      exact hvoid (writei_file hs href hat ht hoff hsrc) fun _ _ h => h.1.formed
  | dirlookup dp name =>
      obtain ⟨-, href, hv⟩ := hop
      obtain ⟨nd, hat⟩ := h.entry href hv
      refine hvoid (dirlookup_sound hs href hat) fun r s' hr => ?_
      cases r with
      | none => exact hr.2.1 ▸ h
      | some r =>
          obtain ⟨-, k, de, -, -, hs', -⟩ := hr
          exact hs'.formed
  | dirlink dp name inum =>
      obtain ⟨⟨-, href, hv⟩, hname, hinum⟩ := hop
      obtain ⟨nd, hat⟩ := h.entry href hv
      rw [hs.good.sb] at hinum
      exact hvoid (dirlink_sound (F := False) hs href hat hinum hname False.elim)
        fun _ _ h => h.2.1.formed
  | isdirempty dp =>
      obtain ⟨⟨-, href, hv⟩, ht⟩ := hop
      obtain ⟨nd, hat⟩ := h.entry href hv
      rw [hat.type] at ht
      exact hvoid (isdirempty_wp hs href hat ht) fun _ _ hb => hb.1 ▸ h
  | clear dp k =>
      obtain ⟨⟨-, href, hv⟩, ht, de, hde, hlive, hdot, hdotdot⟩ := hop
      obtain ⟨nd, hat⟩ := h.entry href hv
      rw [hat.type] at ht
      rw [hat.copy, ← hat.data] at hde
      have hfound : FoundAt _ _ _ _ := ⟨hde, hlive, rfl⟩
      exact hvoid (writeEntry_sound hs href hat ht hfound.fits List.length_replicate
        (D.clear (hs.dirs _ _ hat.node) hfound hdot hdotdot)) fun _ _ h => h.1.formed

theorem Formed.turn (hD : ∀ i n, D.Ok i ⟨tDir, n, []⟩) {c c' : Conc} {e : Nat × Op}
    (h : Formed D c.fs) (hstep : turn c e = some c') : Formed D c'.fs := by
  unfold Fs.turn at hstep
  split at hstep
  · rename_i hop
    split at hstep
    · rename_i r fs hrun
      cases hstep
      exact (h.run hD hop).of_eq_ok hrun
    · cases hstep
  · cases hstep

/-- What holds in every well-formed state holds in every state that processes get to. -/
theorem Formed.turns (hD : ∀ i n, D.Ok i ⟨tDir, n, []⟩) {c c' : Conc} {es : List (Nat × Op)}
    (h : Formed D c.fs) (hrun : runs Fs.turn c es = some c') : Formed D c'.fs :=
  runs_inv_all (I := fun c : Conc => Formed D c.fs) (fun _ _ _ h hstep => h.turn hD hstep) h hrun

/-- **Cached inodes.**  From a well-formed state, in every state that processes get to by taking turns,
the copy of an inode in an entry with a reference, that was read and is not locked, is the inode on the
disk. -/
theorem cached_agree {c c' : Conc} {es : List (Nat × Op)} (h : Formed (inRange L) c.fs)
    (hrun : runs turn c es = some c') : ∀ ip, 0 < (c'.fs.icache ip).ref →
      (c'.fs.icache ip).valid = true → (c'.fs.icache ip).busy = false →
      (c'.fs.icache ip).copy = dinodeAt c'.fs.sb c'.fs.disk (c'.fs.icache ip).inum := by
  have hD : ∀ i n, (inRange L).Ok i ⟨tDir, n, []⟩ := fun _ _ _ de hde => by simp [entries] at hde
  intro ip hip hv _
  have hformed := h.turns hD hrun
  rw [hformed.sound.good.sb]
  exact (hformed.sound.good.copy ip hip hv).1

end Steps

/-- Process 1 makes an entry in the root directory for a file that process 2 makes meanwhile. -/
def twoProcesses : List (Nat × Op) :=
  [(1, .ilock rootSlot), (2, .ialloc tFile), (1, .dirlink rootSlot [97] 2),
    (2, .ilock ⟨1, by decide⟩), (1, .iunlock rootSlot), (2, .iupdate ⟨1, by decide⟩ 0 0 1),
    (2, .iunlock ⟨1, by decide⟩)]

theorem twoProcesses_agree : ∃ c', runs turn ⟨smallState, fun _ => none⟩ twoProcesses = some c' ∧
    ∀ ip, 0 < (c'.fs.icache ip).ref → (c'.fs.icache ip).valid = true →
      (c'.fs.icache ip).busy = false →
      (c'.fs.icache ip).copy = dinodeAt c'.fs.sb c'.fs.disk (c'.fs.icache ip).inum := by
  have hsome : (runs turn ⟨smallState, fun _ => none⟩ twoProcesses).isSome = true := by
    decide +kernel
  obtain ⟨c', hrun⟩ := Option.isSome_iff_exists.mp hsome
  have hformed : Formed (inRange smallLayout) smallState :=
    (small_sound (D := inRange smallLayout) inRange_rootNode).formed
  exact ⟨c', hrun, cached_agree hformed hrun⟩

end Xv6.Fs
