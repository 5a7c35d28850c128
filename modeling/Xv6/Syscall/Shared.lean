import Xv6.Syscall.Owned

/-!
# Syscall — a file structure that processes share

Any number of processes call `filewrite` and `fileread` on one `struct file` of an inode of type
`T_FILE`.  A read, and each round of `filewrite`'s loop, is one step: that is what is done while the
inode is locked.  Between the rounds the other processes go on.

`log` records the transfers that succeeded, each with the offset it was made at.  They follow one
another in the file without a gap (`Consecutive`), so no byte that one of them moved is touched by a
later one.
-/

namespace Xv6.Syscall
open Lib Lib.Prog Fs

/-- The body of `filewrite`'s loop. -/
def writeChunk (f : FileNo) (bytes : List UInt8) : SysM (Option Nat) := do
  fs beginOp
  let file ← gets fun t => t.ftable f
  fs (ilock file.ip)
  let r ← fs (writei file.ip file.off.toNat bytes)
  setFile f fun file => { file with off := file.off + .ofNat (r.getD 0) }
  fs (iunlock file.ip)
  fs endOp
  pure r

/-- `filewrite`'s loop. -/
theorem writeChunks_eq (f : FileNo) (src : List UInt8) : writeChunks f src =
    if src.length = 0 then pure true
    else writeChunk f (src.take maxWrite) >>= fun r =>
      match r with
      | none => pure false
      | some k =>
          if k ≠ (src.take maxWrite).length then stop .shortFilewrite
          else writeChunks f (src.drop maxWrite) := by
  rw [writeChunks]
  split
  · rfl
  · simp only [writeChunk, bind_bind]
    rfl

namespace Shared

/-- A call of `filewrite`: its bytes, how many are written, and its result once it has returned. -/
structure Call where
  src : List UInt8
  i : Nat
  le : i ≤ src.length
  result : Option Bool
  full : result = some true → i = src.length

/-- A transfer. -/
structure Entry (π : Type) where
  proc : π
  write : Bool
  off : Nat
  bytes : List UInt8

structure State (π : Type) where
  sys : Sys
  calls : π → List Call
  log : List (Entry π)

inductive Event (π : Type) where
  | write (p : π) (src : List UInt8)
  | round (p : π)
  | read (p : π) (n : UInt32)

variable {π : Type} [DecidableEq π]

/-- The process is not in `filewrite`. -/
def State.idle (s : State π) (p : π) : Bool := ((s.calls p).getLast?.all fun c => c.result.isSome)

def State.setCall (s : State π) (p : π) (c : Call) : State π :=
  { s with calls := Function.update s.calls p ((s.calls p).dropLast ++ [c]) }

/-- One round of `filewrite`'s loop for the call `c` of process `p`, or its return. -/
def round (f : FileNo) (s : State π) (p : π) (c : Call) : Option (State π) :=
  if h : c.i = c.src.length then some (s.setCall p { c with result := some true, full := fun _ => h })
  else
    let chunk := (c.src.drop c.i).take maxWrite
    match writeChunk f chunk s.sys with
    | .error _ => none
    | .ok (none, t) => some ({ s with sys := t }.setCall p { c with result := some false, full := nofun })
    | .ok (some r, t) =>
        if r = chunk.length then
          some { { s with sys := t }.setCall p
              { src := c.src, i := c.i + chunk.length, result := none, full := nofun
                le := by
                  have := c.le
                  simp only [chunk, List.length_take, List.length_drop]
                  omega } with
            log := s.log ++ [⟨p, true, (s.sys.ftable f).off.toNat, chunk⟩] }
        else none

def step (f : FileNo) (s : State π) : Event π → Option (State π)
  | .write p src =>
      if s.idle p then
        if (s.sys.ftable f).writable = false then some s
        else some { s with
          calls := Function.update s.calls p (s.calls p ++ [⟨src, 0, Nat.zero_le _, none, nofun⟩]) }
      else none
  | .round p =>
      match (s.calls p).getLast? with
      | none => none
      | some c => if c.result = none then round f s p c else none
  | .read p n =>
      if s.idle p then
        match fileread f n s.sys with
        | .error _ => none
        | .ok (none, t) => some { s with sys := t }
        | .ok (some bytes, t) => some { s with
            sys := t
            log := s.log ++ [⟨p, false, (s.sys.ftable f).off.toNat, bytes⟩] }
      else none

def start (t : Sys) : State π := ⟨t, fun _ => [], []⟩

/-- The transfers follow one another from the offset on. -/
def Consecutive : Nat → List (Entry π) → Prop
  | _, [] => True
  | off, e :: log => e.off = off ∧ Consecutive (off + e.bytes.length) log

/-- The bytes moved. -/
def total (log : List (Entry π)) : Nat := (log.map fun e => e.bytes.length).sum

/-- What a process has written, in the order in which it is in the log. -/
def written (log : List (Entry π)) (p : π) : List UInt8 :=
  log.flatMap fun e => if e.write = true ∧ e.proc = p then e.bytes else []

section Log
variable {log : List (Entry π)} {e : Entry π} {off : Nat} {p : π}

omit [DecidableEq π] in
theorem total_append : total (log ++ [e]) = total log + e.bytes.length := by
  simp [total]

omit [DecidableEq π] in
theorem Consecutive.append (h : Consecutive off log) (he : e.off = off + total log) :
    Consecutive off (log ++ [e]) := by
  induction log generalizing off with
  | nil => exact ⟨he, trivial⟩
  | cons a log ih =>
      refine ⟨h.1, ih h.2 (he.trans ?_)⟩
      simp [total]
      omega

omit [DecidableEq π] in
/-- A transfer ends where the last one does, at the latest. -/
theorem Consecutive.le (h : Consecutive off log) (he : e ∈ log) :
    off ≤ e.off ∧ e.off + e.bytes.length ≤ off + total log := by
  induction log generalizing off with
  | nil => cases he
  | cons a log ih =>
      simp only [total, List.map_cons, List.sum_cons]
      rcases List.mem_cons.mp he with rfl | he
      · rw [h.1]
        omega
      · have := ih h.2 he
        simp only [total] at this
        omega

omit [DecidableEq π] in
/-- The ranges are disjoint, and in the order of the log. -/
theorem Consecutive.pairwise (h : Consecutive off log) :
    log.Pairwise fun a b => a.off + a.bytes.length ≤ b.off := by
  induction log generalizing off with
  | nil => exact .nil
  | cons a log ih =>
      refine .cons (fun b hb => ?_) (ih h.2)
      rw [h.1]
      exact (h.2.le hb).1

theorem written_append : written (log ++ [e]) p =
    written log p ++ if e.write = true ∧ e.proc = p then e.bytes else [] := by
  simp [written]

end Log

section Bytes
variable {data ys : List UInt8} {off a n : Nat}

theorem length_overwrite (hoff : off ≤ data.length) :
    (overwrite data off ys).length = max data.length (off + ys.length) := by
  simp only [overwrite, List.length_append, List.length_take, List.length_drop]
  omega

theorem take_drop_overwrite_self (hoff : off ≤ data.length) :
    ((overwrite data off ys).drop off).take ys.length = ys := by
  have hlen : (data.take off).length = off := by
    rw [List.length_take, min_eq_left hoff]
  rw [overwrite, List.append_assoc, List.drop_append_of_le_length hlen.ge, List.drop_eq_nil_of_le hlen.le,
    List.nil_append, List.take_left]

/-- What is in front of the place stays. -/
theorem take_drop_overwrite_of_le (hoff : off ≤ data.length) (hle : a + n ≤ off) :
    ((overwrite data off ys).drop a).take n = (data.drop a).take n := by
  have hlen : (data.take off).length = off := by
    rw [List.length_take, min_eq_left hoff]
  rw [overwrite, List.append_assoc, List.drop_append_of_le_length (by omega),
    List.take_append_of_le_length (by rw [List.length_drop]; omega), List.drop_take, List.take_take,
    min_eq_left (by omega)]

end Bytes

section Spec
variable {L : Layout} {D : Dirs L} {t : Sys} {f : FileNo} {nd : Node} {bytes : List UInt8}

/-- The inode of the file. -/
def inumOf (t : Sys) (f : FileNo) : Nat := (t.fs.icache (t.ftable f).ip).inum

/-- The file has moved on by `k`, and its inode has these bytes. -/
structure Moved (D : Dirs L) (f : FileNo) (nd : Node) (k : Nat) (data : List UInt8) (t t' : Sys) : Prop where
  ok : SysOk D t'
  file : t'.ftable f = { t.ftable f with off := (t.ftable f).off + .ofNat k }
  inum : inumOf t' f = inumOf t f
  node : node L t'.fs (inumOf t f) = some { nd with data := data }

theorem writeChunk_moved (h : SysOk D t) (hf : (t.ftable f).type = .inode)
    (hnode : node L t.fs (inumOf t f) = some nd) (ht : nd.type = tFile) (hlen : bytes.length < 2 ^ 32) :
    Wp (writeChunk f bytes) t (fun _ => True) fun r t' =>
      (r = none ∧ Moved D f nd 0 nd.data t t') ∨
      (r = some bytes.length ∧ (t.ftable f).off.toNat ≤ nd.data.length ∧
        Moved D f nd bytes.length (overwrite nd.data (t.ftable f).off.toNat bytes) t t') := by
  simp only [writeChunk, wp_bind, fs, wp_zoom, beginOp, wp_modify, wp_gets]
  have hip := refsOf_pos_of_file hf
  refine (ilock_sound (Sound.log h.sound) hip).mono (fun _ _ => trivial) ?_
  rintro - s₁ ⟨hs₁, hk₁, hn₁, nd', hat⟩
  have hnd : nd' = nd := by
    have := hat.node
    rw [hn₁] at this
    exact Option.some.inj (this.symm.trans hnode)
  subst hnd
  have hdev : nd'.type ≠ tDev := by
    rw [ht]
    decide
  have hdir : nd'.type ≠ tDir := by
    rw [ht]
    decide
  refine (writei_sound hs₁ hip hat hdev (UInt32.toNat_lt _) hlen (D.file hdir)).mono
    (fun _ _ => trivial) ?_
  rintro r s₂ ⟨hs₂, hk₂, hr⟩
  simp only [setFile, wp_modify]
  refine (iunlock_sound hs₂ hip).mono (fun _ _ => trivial) ?_
  rintro - s₃ ⟨hs₃, hk₃, hn₃⟩
  simp only [endOp, wp_modify, wp_pure]
  have hk : Keep L (refsOf t) t.fs { s₃ with ended := s₃.logged :: s₃.ended, logged := [] } :=
    (Keep.log.trans ((hk₁.trans hk₂).trans hk₃)).trans Keep.log
  have hlog : Sound D (refsOf t) { s₃ with ended := s₃.logged :: s₃.ended, logged := [] } :=
    Sound.log hs₃
  have hmoved : ∀ k data, r.getD 0 = k → node L s₂ (inumOf t f) = some { nd' with data := data } →
      Moved D f nd' k data t ⟨{ s₃ with ended := s₃.logged :: s₃.ended, logged := [] },
        Function.update t.ftable f { t.ftable f with off := (t.ftable f).off + .ofNat (r.getD 0) },
        t.procs⟩ := by
    rintro k data rfl hdata
    refine ⟨(h.of_off f _ hlog hk rfl).1, Function.update_self .., ?_, ?_⟩
    · simp only [inumOf, Function.update_self]
      exact hk.inum _ hip
    · exact (congrFun hn₃ _).trans hdata
  obtain ⟨rfl, rfl⟩ | ⟨rfl, hoff, hn₂⟩ := hr
  · exact .inl ⟨rfl, hmoved 0 nd'.data rfl ((congrFun hn₁ _).trans hnode)⟩
  · refine .inr ⟨rfl, hoff, hmoved _ _ rfl ?_⟩
    rw [hn₂]
    exact Function.update_self ..

theorem moved_zero (h : SysOk D t) (hnode : node L t.fs (inumOf t f) = some nd) :
    Moved D f nd 0 nd.data t t :=
  ⟨h, by simp, rfl, hnode⟩

theorem fileread_moved {n : UInt32} (h : SysOk D t) (hf : (t.ftable f).type = .inode)
    (hnode : node L t.fs (inumOf t f) = some nd) (ht : nd.type = tFile) :
    Wp (fileread f n) t (fun _ => True) fun r t' => Moved D f nd (r.getD []).length nd.data t t' ∧
      ∀ bytes, r = some bytes → (t.ftable f).off.toNat ≤ nd.data.length ∧
        bytes = (nd.data.drop (t.ftable f).off.toNat).take n.toNat := by
  simp only [fileread, wp_bind, wp_gets]
  split
  · exact wp_pure.mpr ⟨moved_zero h hnode, (by rintro _ ⟨⟩)⟩
  · simp only [hf, wp_bind, fs, wp_zoom]
    have hip := refsOf_pos_of_file hf
    refine (ilock_sound h.sound hip).mono (fun _ _ => trivial) ?_
    rintro - s₁ ⟨hs₁, hk₁, hn₁, nd', hat⟩
    have hnd : nd' = nd := by
      have := hat.node
      rw [hn₁] at this
      exact Option.some.inj (this.symm.trans hnode)
    subst hnd
    have hdev : nd'.type ≠ tDev := by
      rw [ht]
      decide
    refine (readi_at hs₁ hip hat hdev (UInt32.toNat_lt _) (UInt32.toNat_lt _)).post ?_
    rintro r s₂ ⟨rfl, hr⟩
    simp only [setFile, wp_modify]
    refine (iunlock_sound hs₁ hip).mono (fun _ _ => trivial) ?_
    rintro - s₃ ⟨hs₃, hk₃, hn₃⟩
    refine wp_pure.mpr ⟨⟨(h.of_off f _ hs₃ (hk₁.trans hk₃) rfl).1, Function.update_self .., ?_, ?_⟩, ?_⟩
    · simp only [inumOf, Function.update_self]
      exact (hk₁.trans hk₃).inum _ hip
    · exact (congrFun (hn₃.trans hn₁) _).trans hnode
    · rintro bytes rfl
      split_ifs at hr with hoff
      rw [not_or, not_lt] at hoff
      exact ⟨hoff.1, Option.some.inj hr⟩

end Spec

/-- What holds of the file and the log in every state. -/
structure Inv {L : Layout} (D : Dirs L) (f : FileNo) (off₀ i : Nat) (s : State π) : Prop where
  ok : SysOk D s.sys
  type : (s.sys.ftable f).type = .inode
  inum : inumOf s.sys f = i
  off : (s.sys.ftable f).off.toNat = off₀ + total s.log
  consecutive : Consecutive off₀ s.log
  node : ∃ nd, node L s.sys.fs i = some nd ∧ nd.type = tFile ∧ ∀ e ∈ s.log,
    e.off + e.bytes.length ≤ nd.data.length ∧ (nd.data.drop e.off).take e.bytes.length = e.bytes
  written : ∀ p, written s.log p = (s.calls p).flatMap fun c => c.src.take c.i

section Steps
variable {L : Layout} {D : Dirs L} {f : FileNo} {off₀ i : Nat} {s s' : State π} {nd : Node} {t : Sys}
  {p : π}

/-- A step that transfers nothing. -/
theorem Inv.still (h : Inv D f off₀ i s) (hnode : Fs.node L s.sys.fs i = some nd)
    (hm : Moved D f nd 0 nd.data s.sys s'.sys) (hlog : s'.log = s.log)
    (hwritten : ∀ p, Shared.written s'.log p = (s'.calls p).flatMap fun c => c.src.take c.i) :
    Inv D f off₀ i s' := by
  refine ⟨hm.ok, ?_, hm.inum.trans h.inum, ?_, hlog ▸ h.consecutive, ?_, hwritten⟩
  · rw [hm.file]
    exact h.type
  · rw [hm.file, hlog, ← h.off]
    simp
  · obtain ⟨nd', hnode', ht, hlog'⟩ := h.node
    cases hnode.symm.trans hnode'
    exact ⟨nd, h.inum ▸ hm.node, ht, hlog ▸ hlog'⟩

/-- A step that transfers bytes at the offset and leaves what is in front of it. -/
theorem Inv.transfer {bytes data : List UInt8} {write : Bool} (h : Inv D f off₀ i s)
    (hnode : Fs.node L s.sys.fs i = some nd) (hm : Moved D f nd bytes.length data s.sys s'.sys)
    (hlog : s'.log = s.log ++ [⟨p, write, (s.sys.ftable f).off.toNat, bytes⟩])
    (hdata : (s.sys.ftable f).off.toNat + bytes.length ≤ data.length ∧
      (data.drop (s.sys.ftable f).off.toNat).take bytes.length = bytes)
    (hkeep : nd.data.length ≤ data.length ∧ ∀ a n, a + n ≤ (s.sys.ftable f).off.toNat →
      (data.drop a).take n = (nd.data.drop a).take n)
    (hwritten : ∀ p, Shared.written s'.log p = (s'.calls p).flatMap fun c => c.src.take c.i) :
    Inv D f off₀ i s' := by
  have hnode' : Fs.node L s'.sys.fs i = some { nd with data := data } := h.inum ▸ hm.node
  have hsize : data.length < 2 ^ 32 := by
    have hd := congrArg Node.data (node_eq_some.mp hnode').2.2
    have hd' : data = contents s'.sys.fs.disk (s'.sys.fs.ino L i) := hd
    rw [hd', length_contents]
    exact UInt32.toNat_lt _
  refine ⟨hm.ok, ?_, hm.inum.trans h.inum, ?_, ?_, ?_, hwritten⟩
  · rw [hm.file]
    exact h.type
  · rw [hm.file, hlog, total_append, ← Nat.add_assoc, ← h.off, UInt32.toNat_add, UInt32.toNat_ofNat']
    dsimp only
    omega
  · rw [hlog]
    exact h.consecutive.append h.off
  · obtain ⟨nd', hnd', ht, hold⟩ := h.node
    cases hnode.symm.trans hnd'
    refine ⟨_, hnode', ht, fun e he => ?_⟩
    rw [hlog] at he
    rcases List.mem_append.mp he with he | he
    · have hle := (h.consecutive.le he).2
      rw [← h.off] at hle
      refine ⟨(hold e he).1.trans hkeep.1, ?_⟩
      rw [hkeep.2 _ _ hle]
      exact (hold e he).2
    · rw [List.mem_singleton.mp he]
      exact hdata

/-- The call that a process is in goes on by `x`. -/
theorem flatMap_setCall {c c' : Call} {x : List UInt8} (hc : (s.calls p).getLast? = some c)
    (hc' : c'.src.take c'.i = c.src.take c.i ++ x) (q : π) :
    ((s.setCall p c').calls q).flatMap (fun c => c.src.take c.i) =
      (s.calls q).flatMap (fun c => c.src.take c.i) ++ if q = p then x else [] := by
  unfold State.setCall
  by_cases hq : q = p
  · subst hq
    obtain ⟨cs, hcs⟩ := List.getLast?_eq_some_iff.mp hc
    simp [hcs, hc']
  · simp [hq]

/-- A call that returns has written what it had. -/
theorem written_setCall {c c' : Call}
    (h : ∀ q, written s.log q = (s.calls q).flatMap fun c => c.src.take c.i)
    (hc : (s.calls p).getLast? = some c) (hsrc : c'.src = c.src) (hi : c'.i = c.i) (q : π) :
    written s.log q = ((s.setCall p c').calls q).flatMap fun c => c.src.take c.i := by
  rw [flatMap_setCall (x := []) hc (by rw [hsrc, hi, List.append_nil]), h q]
  simp

/-- One round of `filewrite`. -/
theorem Inv.round {c : Call} (h : Inv D f off₀ i s) (hc : (s.calls p).getLast? = some c)
    (hs : round f s p c = some s') : Inv D f off₀ i s' := by
  obtain ⟨nd, hnode, ht, -⟩ := h.node
  have hnode' : Fs.node L s.sys.fs (inumOf s.sys f) = some nd := h.inum.symm ▸ hnode
  unfold Shared.round at hs
  split_ifs at hs with hlen
  · cases hs
    exact h.still hnode (moved_zero h.ok hnode') rfl (written_setCall h.written hc rfl rfl)
  · have hchunk : ((c.src.drop c.i).take maxWrite).length < 2 ^ 32 :=
      (List.length_take_le ..).trans_lt (by decide)
    have hwp := writeChunk_moved h.ok h.type hnode' ht hchunk
    dsimp only at hs
    split at hs
    · cases hs
    · rename_i t hrun
      cases hs
      obtain ⟨-, hm⟩ | ⟨hr, -⟩ := hwp.of_eq_ok hrun
      · exact h.still hnode hm rfl (written_setCall (s := { s with sys := t }) h.written hc rfl rfl)
      · cases hr
    · rename_i r t hrun
      split_ifs at hs with hr
      cases hs
      obtain ⟨hr', -⟩ | ⟨-, hoff, hm⟩ := hwp.of_eq_ok hrun
      · cases hr'
      · refine h.transfer hnode hm rfl ⟨?_, take_drop_overwrite_self hoff⟩
          ⟨?_, fun a n hle => take_drop_overwrite_of_le hoff hle⟩ fun q => ?_
        · rw [length_overwrite hoff]
          exact Nat.le_max_right ..
        · rw [length_overwrite hoff]
          exact Nat.le_max_left ..
        · have hnext : c.src.take (c.i + ((c.src.drop c.i).take maxWrite).length) =
              c.src.take c.i ++ (c.src.drop c.i).take maxWrite := by
            rw [List.take_add, List.length_take, ← List.take_eq_take_min]
          refine (written_append.trans ?_).trans (flatMap_setCall (s := { s with sys := t }) hc hnext q).symm
          rw [h.written q]
          simp [eq_comm]

/-- What one step preserves. -/
theorem Inv.step {e : Event π} (h : Inv D f off₀ i s) (hs : step f s e = some s') :
    Inv D f off₀ i s' := by
  obtain ⟨nd, hnode, ht, -⟩ := h.node
  have hnode' : Fs.node L s.sys.fs (inumOf s.sys f) = some nd := h.inum.symm ▸ hnode
  cases e with
  | write p src =>
    simp only [Shared.step] at hs
    split_ifs at hs
    · cases hs
      exact h
    · cases hs
      refine h.still hnode (moved_zero h.ok hnode') rfl fun q => (h.written q).trans ?_
      by_cases hq : q = p
      · simp [hq]
      · simp [hq]
  | round p =>
    simp only [Shared.step] at hs
    split at hs
    · cases hs
    · rename_i c hc
      split_ifs at hs
      exact h.round hc hs
  | read p n =>
    simp only [Shared.step] at hs
    split_ifs at hs
    have hwp := fileread_moved (n := n) h.ok h.type hnode' ht
    split at hs
    · cases hs
    · rename_i t hrun
      cases hs
      exact h.still hnode (hwp.of_eq_ok hrun).1 rfl h.written
    · rename_i bytes t hrun
      cases hs
      have hm : Moved D f nd bytes.length nd.data s.sys t := (hwp.of_eq_ok hrun).1
      obtain ⟨hoff, hb⟩ := (hwp.of_eq_ok hrun).2 bytes rfl
      have hlen : bytes.length ≤ nd.data.length - (s.sys.ftable f).off.toNat := by
        rw [hb, List.length_take, List.length_drop]
        exact Nat.min_le_right ..
      refine h.transfer hnode hm rfl ⟨by omega, ?_⟩ ⟨Nat.le_refl _, fun _ _ _ => rfl⟩ fun q => ?_
      · rw [hb, List.length_take, ← List.take_eq_take_min]
      · rw [written_append]
        simp [h.written q]

end Steps

/-- **Shared offsets lose no update.**  Whatever processes share the file of a `T_FILE` inode, and however
their reads and the rounds of their writes come, in every state: the ranges of the transfers follow one
another from the initial offset and are disjoint; the offset is the initial one and all that was
transferred; the bytes of every transfer are still in the file where it was made; and the transfers of a
process have, in their order, the bytes of its `filewrite` calls, each as far as it got, and to the end if
it succeeded. -/
theorem offsets_shared {L : Layout} {D : Dirs L} {f : FileNo} {t₀ : Sys} {nd₀ : Node} (h : SysOk D t₀)
    (htype : (t₀.ftable f).type = .inode) (hnode : node L t₀.fs (inumOf t₀ f) = some nd₀)
    (hfile : nd₀.type = tFile) {es : List (Event π)} {s : State π}
    (hrun : runs (step f) (start t₀) es = some s) :
    Consecutive (t₀.ftable f).off.toNat s.log ∧
    (s.log.Pairwise fun a b => a.off + a.bytes.length ≤ b.off) ∧
    (s.sys.ftable f).off.toNat = (t₀.ftable f).off.toNat + total s.log ∧
    (∃ nd, node L s.sys.fs (inumOf t₀ f) = some nd ∧ nd.type = tFile ∧
      ∀ e ∈ s.log, (nd.data.drop e.off).take e.bytes.length = e.bytes) ∧
    ∀ p, written s.log p = ((s.calls p).flatMap fun c => c.src.take c.i) ∧
      ∀ c ∈ s.calls p, c.result = some true → c.src.take c.i = c.src := by
  have h₀ : Inv D f (t₀.ftable f).off.toNat (inumOf t₀ f) (start t₀ : State π) :=
    ⟨h, htype, rfl, rfl, trivial, ⟨nd₀, hnode, hfile, nofun⟩, fun _ => rfl⟩
  have hs := runs_inv_all (fun _ _ _ h hs => h.step hs) h₀ hrun
  obtain ⟨nd, hnd, ht, hlog⟩ := hs.node
  refine ⟨hs.consecutive, hs.consecutive.pairwise, hs.off, ⟨nd, hnd, ht, fun e he => (hlog e he).2⟩,
    fun p => ⟨hs.written p, fun c _ hc => ?_⟩⟩
  rw [c.full hc, List.take_length]

/-- Process 0 has opened a new file for reading and writing. -/
def opened : Option Sys := runs Syscall.step oneProcess [(⟨0, nproc_pos⟩, .open [102] 0x202)]

theorem opened_isSome : opened.isSome = true := by
  decide +kernel

theorem sysOk_opened : SysOk (inRange smallLayout) (opened.get opened_isSome) :=
  (SysOk.oneProcess inRange_rootNode).run (Option.some_get opened_isSome).symm

def file0 : FileNo := ⟨0, nfile_pos⟩

/-- Two processes write through the file, in turn. -/
def twoWriters : List (Event Bool) :=
  [.write true [1, 2], .write false [3], .round true, .round false, .round true, .round false]

theorem twoWriters_runs :
    (runs (step file0) (start (opened.get opened_isSome)) twoWriters).isSome = true := by
  decide +kernel

theorem twoWriters_shared :
    let s := (runs (step file0) (start (opened.get opened_isSome)) twoWriters).get twoWriters_runs
    total s.log = 3 ∧ (s.sys.ftable file0).off.toNat =
      ((opened.get opened_isSome).ftable file0).off.toNat + total s.log := by
  have hnode : node smallLayout (opened.get opened_isSome).fs (inumOf (opened.get opened_isSome) file0) =
      some ⟨tFile, 1, []⟩ := by
    decide +kernel
  exact ⟨by decide +kernel, (offsets_shared sysOk_opened (by decide +kernel) hnode rfl
    (Option.some_get twoWriters_runs).symm).2.2.1⟩

example : ((opened.get opened_isSome).ftable file0).off = 0 := by decide +kernel

end Shared

end Xv6.Syscall
