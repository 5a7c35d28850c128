import Xv6.Lib.Ring
import Xv6.Lib.Runs

/-!
# Console — input

`consoleintr` and `consoleread` of `console.c`: a ring of bytes with the indices `r`, `w` and `e`, which
run free and wrap at `2 ^ 32`.  A key, and a round of a reader's loop, is a step; `cons.lock` allows only
some of the orders in which the steps may come here.  A process that finds nothing to read waits until
there is or it is killed.

The console is a line editor (`Editor`): a queue of committed bytes, from `r` to `w`, and the line that is
being typed, from `w` to `e`.
-/

namespace Xv6.Console
open Lib

/-- `INPUT_BUF`. -/
def inputBuf : Nat := 128

instance : NeZero inputBuf := ⟨by decide⟩

def ctrlD : UInt8 := 4
def ctrlH : UInt8 := 8
def newline : UInt8 := 10
def carriageReturn : UInt8 := 13
def ctrlP : UInt8 := 16
def ctrlU : UInt8 := 21
def delete : UInt8 := 127

/-- `input` -/
structure Input where
  buf : Fin inputBuf → UInt8
  r : BitVec 32
  w : BitVec 32
  e : BitVec 32

namespace Input

def store (s : Input) (c : UInt8) : Input :=
  { s with buf := Function.update s.buf (Ring.index s.e) c, e := s.e + 1 }

/-- The loop of `^U`, for at most `fuel` rounds. -/
def killLine : Nat → Input → Input
  | 0, s => s
  | fuel + 1, s =>
      if s.e ≠ s.w ∧ s.buf (Ring.index (s.e - 1)) ≠ newline then killLine fuel { s with e := s.e - 1 }
      else s

/-- One round of the loop of `consoleintr`; `^P` only lists the processes. -/
def key (s : Input) (k : UInt8) : Input :=
  if k = ctrlP then s
  else if k = ctrlU then s.killLine (s.e - s.w).toNat
  else if k = ctrlH ∨ k = delete then if s.e ≠ s.w then { s with e := s.e - 1 } else s
  else if k ≠ 0 ∧ s.e - s.r < BitVec.ofNat 32 inputBuf then
    let c := if k = carriageReturn then newline else k
    let s := s.store c
    if c = newline ∨ c = ctrlD ∨ s.e = s.r + BitVec.ofNat 32 inputBuf then { s with w := s.e } else s
  else s

end Input

/-- A call of `consoleread`: the bytes asked for, and those still to come. -/
structure Reader where
  target : Nat
  n : Nat
  le : n ≤ target

/-- The input, the calls of `consoleread` that have not returned, the processes that have been killed, the
bytes that were stored for readers and the values that were returned to them. -/
structure Sys (π ι : Type) where
  input : ι
  reader : π → Option Reader
  killed : π → Bool
  delivered : List (π × UInt8)
  returned : List (π × Int)

inductive Event (π : Type) where
  | key (k : UInt8)
  | read (p : π) (n : Int)
  | next (p : π)
  | kill (p : π)

variable {π ι : Type} [DecidableEq π]

namespace Sys

def setReader (s : Sys π ι) (p : π) (o : Option Reader) : Sys π ι :=
  { s with reader := Function.update s.reader p o }

def ret (s : Sys π ι) (p : π) (v : Int) : Sys π ι :=
  { s.setReader p none with returned := s.returned ++ [(p, v)] }

/-- `*dst++ = c; --n; if(c == '\n') break;` -/
def deliver (s : Sys π ι) (p : π) (x : Reader) (c : UInt8) : Sys π ι :=
  let s := { s.setReader p (some ⟨x.target, x.n - 1, (Nat.sub_le _ _).trans x.le⟩) with delivered := s.delivered ++ [(p, c)] }
  if c = newline then s.ret p (x.target - (x.n - 1 : Nat)) else s

/-- One round of the loop of `consoleread`. -/
def consoleread (s : Sys π Input) (p : π) (x : Reader) : Option (Sys π Input) :=
  if x.n = 0 then some (s.ret p (x.target - x.n))
  else if s.input.r = s.input.w then if s.killed p then some (s.ret p (-1)) else none
  else
    let c := s.input.buf (Ring.index s.input.r)
    let s := { s with input := { s.input with r := s.input.r + 1 } }
    if c = ctrlD then
      let s := if x.n < x.target then { s with input := { s.input with r := s.input.r - 1 } } else s
      some (s.ret p (x.target - x.n))
    else some (s.deliver p x c)

end Sys

def step (s : Sys π Input) : Event π → Option (Sys π Input)
  | .key k => some { s with input := s.input.key k }
  | .read p n =>
      match s.reader p with
      | none => some (s.setReader p (some ⟨n.toNat, n.toNat, Nat.le_refl _⟩))
      | some _ => none
  | .next p => (s.reader p).bind (s.consoleread p)
  | .kill p => some { s with killed := Function.update s.killed p true }

def start (i : ι) : Sys π ι := ⟨i, fun _ => none, fun _ => false, [], []⟩

def Input.boot : Input := ⟨fun _ => 0, 0, 0, 0⟩

/-! ### The line editor -/

structure Editor where
  committed : List UInt8
  pending : List UInt8

namespace Editor

/-- A key, for an editor that does nothing on the keys `ignored`. -/
def key (ignored : UInt8 → Bool) (a : Editor) (k : UInt8) : Editor :=
  if ignored k then a
  else if k = ctrlU then { a with pending := [] }
  else if k = ctrlH ∨ k = delete then { a with pending := a.pending.dropLast }
  else if k ≠ 0 ∧ a.committed.length + a.pending.length < inputBuf then
    let c := if k = carriageReturn then newline else k
    let line := a.pending ++ [c]
    if c = newline ∨ c = ctrlD ∨ a.committed.length + line.length = inputBuf then
      ⟨a.committed ++ line, []⟩
    else { a with pending := line }
  else a

/-- A reader takes a byte; it stops after a newline, when it has all it asked for, and at a `^D`, which
stays if it came after other bytes.  Killed, it stops with -1 where it would wait. -/
def read (s : Sys π Editor) (p : π) (x : Reader) : Option (Sys π Editor) :=
  if x.n = 0 then some (s.ret p x.target)
  else
    match s.input.committed with
    | [] => if s.killed p then some (s.ret p (-1)) else none
    | c :: rest =>
        if c = ctrlD then
          if x.n < x.target then some (s.ret p (x.target - x.n))
          else some ({ s with input := { s.input with committed := rest } }.ret p 0)
        else some ({ s with input := { s.input with committed := rest } }.deliver p x c)

def step (ignored : UInt8 → Bool) (s : Sys π Editor) : Event π → Option (Sys π Editor)
  | .key k => some { s with input := s.input.key ignored k }
  | .read p n =>
      match s.reader p with
      | none => some (s.setReader p (some ⟨n.toNat, n.toNat, Nat.le_refl _⟩))
      | some _ => none
  | .next p => (s.reader p).bind (read s p)
  | .kill p => some { s with killed := Function.update s.killed p true }

end Editor

/-! ### The ring as an editor -/

namespace Input

/-- All that was typed and not read. -/
def ring (s : Input) : Ring UInt8 32 inputBuf := ⟨s.buf, s.r, s.e⟩

/-- What is committed, in the same cells. -/
def ready (s : Input) : Ring UInt8 32 inputBuf := ⟨s.buf, s.r, s.w⟩

def editor (s : Input) : Editor := ⟨s.ring.toList.take s.ready.count, s.ring.toList.drop s.ready.count⟩

structure Ok (s : Input) : Prop where
  ready_le : s.ready.count ≤ s.ring.count
  count_le : s.ring.count ≤ inputBuf
  line : ∀ b ∈ s.editor.pending, b ≠ newline

variable {s : Input} {k : UInt8}

theorem dvd : inputBuf ∣ 2 ^ 32 := ⟨2 ^ 25, by decide⟩

theorem length_committed (h : s.Ok) : s.editor.committed.length = s.ready.count := by
  rw [editor, List.length_take, Ring.length_toList]
  exact Nat.min_eq_left h.ready_le

theorem length_editor (s : Input) :
    s.editor.committed.length + s.editor.pending.length = s.ring.count := by
  rw [editor, ← List.length_append, List.take_append_drop, Ring.length_toList]

/-- `e == w` -/
theorem pending_eq_nil (h : s.Ok) : s.editor.pending = [] ↔ s.e = s.w := by
  rw [editor, List.drop_eq_nil_iff, Ring.length_toList]
  constructor
  · intro hle
    have heq : s.ring.count = s.ready.count := Nat.le_antisymm hle h.ready_le
    exact s.ring.nwrite_eq.trans (heq ▸ s.ready.nwrite_eq.symm)
  · intro he
    rw [ring, he]
    exact Nat.le_refl _

/-- Dropping the last byte of the line. -/
theorem editor_unstore (h : s.Ok) (he : s.e ≠ s.w) :
    ({ s with e := s.e - 1 } : Input).editor = { s.editor with pending := s.editor.pending.dropLast } ∧
      ({ s with e := s.e - 1 } : Input).Ok ∧ s.editor.pending.getLast? = some s.ring.back := by
  have hpos : s.ready.count < s.ring.count := by
    refine Nat.lt_of_le_of_ne h.ready_le fun heq => he ?_
    exact s.ring.nwrite_eq.trans (heq ▸ s.ready.nwrite_eq.symm)
  have hne : s.ring.count ≠ 0 := Nat.ne_of_gt (Nat.zero_lt_of_lt hpos)
  have hlist := Ring.toList_unpush dvd hne h.count_le
  have hcount := Ring.count_unpush hne
  have hlen : s.ready.count ≤ s.ring.unpush.toList.length := by
    rw [Ring.length_toList, hcount]
    omega
  have hdrop : s.editor.pending = s.ring.unpush.toList.drop s.ready.count ++ [s.ring.back] := by
    rw [editor, hlist, List.drop_append_of_le_length hlen]
  have heditor : ({ s with e := s.e - 1 } : Input).editor =
      { s.editor with pending := s.editor.pending.dropLast } := by
    rw [hdrop, List.dropLast_concat]
    unfold editor
    rw [hlist, List.take_append_of_le_length hlen]
    rfl
  refine ⟨heditor, ⟨?_, ?_, fun b hb => ?_⟩, by rw [hdrop, List.getLast?_concat]⟩
  · show s.ready.count ≤ s.ring.unpush.count
    omega
  · show s.ring.unpush.count ≤ inputBuf
    have := h.count_le
    omega
  · rw [heditor] at hb
    exact h.line b (List.mem_of_mem_dropLast hb)

theorem editor_killLine {fuel : Nat} (h : s.Ok) (hfuel : s.editor.pending.length ≤ fuel) :
    (s.killLine fuel).editor = { s.editor with pending := [] } ∧ (s.killLine fuel).Ok := by
  induction fuel generalizing s with
  | zero =>
      have hnil : s.editor.pending = [] := List.eq_nil_of_length_eq_zero (Nat.le_zero.mp hfuel)
      refine ⟨?_, h⟩
      rw [killLine, ← hnil]
  | succ fuel ih =>
      by_cases he : s.e = s.w
      · have hnil := (pending_eq_nil h).mpr he
        rw [killLine, if_neg fun hc => hc.1 he, ← hnil]
        exact ⟨rfl, h⟩
      · obtain ⟨heq, hok, hlast⟩ := editor_unstore h he
        -- the line has no newline, so the loop goes on
        have hback : s.buf (Ring.index (s.e - 1)) ≠ newline := h.line _ (List.mem_of_getLast? hlast)
        rw [killLine, if_pos ⟨he, hback⟩]
        have hlen : ({ s with e := s.e - 1 } : Input).editor.pending.length ≤ fuel := by
          rw [heq, List.length_dropLast]
          omega
        obtain ⟨heq', hok'⟩ := ih hok hlen
        exact ⟨by rw [heq', heq], hok'⟩

/-- The loop of `^U` has enough rounds. -/
theorem length_pending (h : s.Ok) : s.editor.pending.length = (s.e - s.w).toNat := by
  have hlen := s.length_editor
  rw [length_committed h] at hlen
  have hsub : s.e - s.w = (s.e - s.r) - (s.w - s.r) := (sub_sub_sub_cancel_right ..).symm
  have hle : (s.w - s.r).toNat ≤ (s.e - s.r).toNat := h.ready_le
  rw [hsub, BitVec.toNat_sub_of_le hle]
  have : s.ring.count = (s.e - s.r).toNat := rfl
  have : s.ready.count = (s.w - s.r).toNat := rfl
  omega

/-- Appending a byte to the line. -/
theorem editor_store (h : s.Ok) {c : UInt8} (hlt : s.ring.count < inputBuf) :
    (s.store c).editor = { s.editor with pending := s.editor.pending ++ [c] } ∧
      (s.store c).ring.count = s.ring.count + 1 := by
  have hle : s.ready.count ≤ s.ring.toList.length := by
    rw [Ring.length_toList]
    exact h.ready_le
  have hpow : s.ring.count + 1 < 2 ^ 32 := (Nat.succ_lt_succ hlt).trans (by decide)
  have hring : (s.store c).ring = s.ring.push c := rfl
  have hlist : (s.store c).ring.toList = s.ring.toList ++ [c] := by
    rw [hring, Ring.toList_push dvd hlt hpow]
  refine ⟨?_, by rw [hring, Ring.count_push hpow]⟩
  unfold editor
  rw [hlist]
  show Editor.mk (List.take s.ready.count (s.ring.toList ++ [c]))
    (List.drop s.ready.count (s.ring.toList ++ [c])) = _
  rw [List.take_append_of_le_length hle, List.drop_append_of_le_length hle]

/-- `input.w = input.e` -/
theorem editor_commit (s : Input) :
    ({ s with w := s.e } : Input).editor = ⟨s.editor.committed ++ s.editor.pending, []⟩ := by
  have hready : ({ s with w := s.e } : Input).ready.count = s.ring.toList.length := by
    rw [Ring.length_toList]
    rfl
  unfold editor
  rw [hready, List.take_append_drop]
  show Editor.mk (List.take s.ring.toList.length s.ring.toList)
    (List.drop s.ring.toList.length s.ring.toList) = _
  rw [List.take_length, List.drop_length]

/-- The tests of the last case are those of the editor. -/
theorem sub_lt_iff (s : Input) : s.e - s.r < BitVec.ofNat 32 inputBuf ↔
    s.editor.committed.length + s.editor.pending.length < inputBuf := by
  rw [length_editor]
  exact Iff.rfl

theorem eq_add_iff (s : Input) : s.e = s.r + BitVec.ofNat 32 inputBuf ↔
    s.editor.committed.length + s.editor.pending.length = inputBuf := by
  rw [length_editor, Ring.count_eq_iff (by decide)]
  exact Iff.rfl

/-- A byte that is not an editing key. -/
theorem editor_append (h : s.Ok) (c : UInt8) (hlt : s.ring.count < inputBuf) :
    let line := s.editor.pending ++ [c]
    let s' := if c = newline ∨ c = ctrlD ∨ (s.store c).e = (s.store c).r + BitVec.ofNat 32 inputBuf then
      { s.store c with w := (s.store c).e } else s.store c
    s'.editor = (if c = newline ∨ c = ctrlD ∨ s.editor.committed.length + line.length = inputBuf then
      ⟨s.editor.committed ++ line, []⟩ else { s.editor with pending := line }) ∧ s'.Ok := by
  obtain ⟨hstore, hcount⟩ := editor_store h (c := c) hlt
  have hfull := (s.store c).eq_add_iff
  rw [hstore] at hfull
  simp only [hfull]
  split_ifs with hc
  · have hcommit := (s.store c).editor_commit
    refine ⟨by rw [hcommit, hstore], ⟨Nat.le_refl _, ?_, fun b hb => ?_⟩⟩
    · exact hcount.trans_le hlt
    · rw [hcommit] at hb
      cases hb
  · refine ⟨hstore, ⟨?_, hcount.trans_le hlt, fun b hb => ?_⟩⟩
    · exact (Nat.le_succ_of_le h.ready_le).trans_eq hcount.symm
    · rw [hstore] at hb
      rcases List.mem_append.mp hb with hb | hb
      · exact h.line b hb
      · rw [List.mem_singleton.mp hb]
        exact fun he => hc (.inl he)

/-- What a key does to the line and the queue. -/
theorem key_editor (h : s.Ok) :
    (s.key k).editor = s.editor.key (· == ctrlP) k ∧ (s.key k).Ok := by
  unfold key Editor.key
  simp only [beq_iff_eq]
  by_cases hP : k = ctrlP
  · simp only [if_pos hP]
    exact ⟨trivial, h⟩
  by_cases hU : k = ctrlU
  · simp only [if_neg hP, if_pos hU]
    exact editor_killLine h (length_pending h).le
  by_cases hH : k = ctrlH ∨ k = delete
  · simp only [if_neg hP, if_neg hU, if_pos hH]
    by_cases he : s.e = s.w
    · have hnil := (pending_eq_nil h).mpr he
      rw [if_neg (not_not.mpr he), hnil, List.dropLast_nil, ← hnil]
      exact ⟨rfl, h⟩
    · rw [if_pos he]
      exact ⟨(editor_unstore h he).1, (editor_unstore h he).2.1⟩
  simp only [if_neg hP, if_neg hU, if_neg hH, ← s.sub_lt_iff]
  by_cases hc : k ≠ 0 ∧ s.e - s.r < BitVec.ofNat 32 inputBuf
  · simp only [if_pos hc]
    have hlt := s.sub_lt_iff.mp hc.2
    rw [length_editor] at hlt
    exact editor_append h _ hlt
  · simp only [if_neg hc]
    exact ⟨trivial, h⟩

/-- `input.r++` -/
theorem editor_take (h : s.Ok) (hne : s.r ≠ s.w) :
    s.editor.committed = s.buf (Ring.index s.r) :: ({ s with r := s.r + 1 } : Input).editor.committed ∧
      ({ s with r := s.r + 1 } : Input).editor.pending = s.editor.pending ∧
      ({ s with r := s.r + 1 } : Input).Ok := by
  have hready : s.ready.count ≠ 0 := fun h0 => hne (Ring.count_eq_zero.mp h0)
  have hle := h.ready_le
  have hring : s.ring.count ≠ 0 := by omega
  have hpop : ({ s with r := s.r + 1 } : Input).ring = s.ring.pop := rfl
  have hpop' : ({ s with r := s.r + 1 } : Input).ready = s.ready.pop := rfl
  have hcount : s.ready.count = s.ready.pop.count + 1 := by
    rw [Ring.count_pop hready]
    omega
  have hlist := Ring.toList_eq_cons hring
  have hpending : ({ s with r := s.r + 1 } : Input).editor.pending = s.editor.pending := by
    unfold editor
    rw [hpop, hpop', hcount, hlist, List.drop_succ_cons]
  refine ⟨?_, hpending, ⟨?_, ?_, ?_⟩⟩
  · unfold editor
    rw [hpop, hpop', hcount, hlist, List.take_succ_cons]
    rfl
  · rw [hpop, hpop', Ring.count_pop hready, Ring.count_pop hring]
    omega
  · rw [hpop, Ring.count_pop hring]
    exact (Nat.sub_le _ _).trans h.count_le
  · rw [hpending]
    exact h.line

theorem committed_eq_nil (h : s.Ok) : s.editor.committed = [] ↔ s.r = s.w := by
  rw [← List.length_eq_zero_iff, length_committed h]
  exact Ring.count_eq_zero

theorem editor_boot : boot.editor = ⟨[], []⟩ := by
  simp [editor, Ring.toList, Ring.count, ring, boot]

theorem ok_boot : boot.Ok where
  ready_le := Nat.le_refl _
  count_le := Nat.zero_le _
  line _ h := by
    rw [editor_boot] at h
    cases h

end Input

/-- The console as the editor, with the same readers. -/
def Sys.editor (s : Sys π Input) : Sys π Editor :=
  ⟨s.input.editor, s.reader, s.killed, s.delivered, s.returned⟩

section Steps
variable {s s' : Sys π Input} {e : Event π}

theorem Sys.deliver_input (s : Sys π ι) (p : π) (x : Reader) (c : UInt8) :
    (s.deliver p x c).input = s.input := by
  unfold Sys.deliver
  dsimp only
  split_ifs <;> rfl

theorem Sys.deliver_editor (s : Sys π Input) (p : π) (x : Reader) (c : UInt8) :
    (s.deliver p x c).editor = s.editor.deliver p x c := by
  unfold Sys.deliver
  dsimp only
  split_ifs <;> rfl

/-- A round of `consoleread` is a round of the editor's reader. -/
theorem Sys.consoleread_editor (h : s.input.Ok) (p : π) (x : Reader) :
    (s.consoleread p x).map Sys.editor = Editor.read s.editor p x ∧
      ∀ s', s.consoleread p x = some s' → s'.input.Ok := by
  unfold Sys.consoleread Editor.read
  by_cases hn : x.n = 0
  · rw [if_pos hn, if_pos hn, hn]
    refine ⟨?_, fun s' hs' => ?_⟩
    · simp [Sys.editor, Sys.ret, Sys.setReader]
    · cases hs'
      exact h
  rw [if_neg hn, if_neg hn]
  by_cases hrw : s.input.r = s.input.w
  · have hnil : s.editor.input.committed = [] := (Input.committed_eq_nil h).mpr hrw
    have hk : s.editor.killed p = s.killed p := rfl
    rw [if_pos hrw]
    simp only [hnil, hk]
    split_ifs
    · refine ⟨rfl, fun s' hs' => ?_⟩
      cases hs'
      exact h
    · exact ⟨rfl, nofun⟩
  obtain ⟨hcons, hpending, hok⟩ := Input.editor_take h hrw
  have hcons' : s.editor.input.committed = _ := hcons
  -- what is left after the byte has been taken
  have hrest : ({ s with input := { s.input with r := s.input.r + 1 } } : Sys π Input).editor =
      { s.editor with input := { s.editor.input with
        committed := ({ s.input with r := s.input.r + 1 } : Input).editor.committed } } := by
    have heta : ({ s.input with r := s.input.r + 1 } : Input).editor =
        ⟨({ s.input with r := s.input.r + 1 } : Input).editor.committed, s.input.editor.pending⟩ := by
      rw [← hpending]
    exact congrArg (fun a => (⟨a, s.reader, s.killed, s.delivered, s.returned⟩ : Sys π Editor)) heta
  rw [if_neg hrw]
  simp only [hcons']
  by_cases hD : s.input.buf (Ring.index s.input.r) = ctrlD
  · simp only [if_pos hD]
    by_cases hlt : x.n < x.target
    · have hback : ({ s.input with r := s.input.r + 1 - 1 } : Input) = s.input := by
        rw [BitVec.add_sub_cancel]
      simp only [if_pos hlt, hback]
      refine ⟨rfl, fun s' hs' => ?_⟩
      cases hs'
      exact h
    · have hzero : (x.target : Int) - x.n = 0 := by
        have := x.le
        omega
      simp only [if_neg hlt, hzero]
      refine ⟨?_, fun s' hs' => ?_⟩
      · rw [← hrest]
        rfl
      · cases hs'
        exact hok
  · simp only [if_neg hD]
    refine ⟨?_, fun s' hs' => ?_⟩
    · rw [Option.map_some, Sys.deliver_editor, hrest]
    · cases hs'
      rw [Sys.deliver_input]
      exact hok

/-- A step of the console is a step of the editor. -/
theorem step_editor (h : s.input.Ok) (e : Event π) :
    (step s e).map Sys.editor = Editor.step (· == ctrlP) s.editor e ∧
      ∀ s', step s e = some s' → s'.input.Ok := by
  cases e with
  | key k =>
    obtain ⟨hkey, hok⟩ := Input.key_editor h (k := k)
    refine ⟨?_, fun s' hs' => ?_⟩
    · simp only [step, Editor.step, Option.map_some, Sys.editor, hkey]
    · cases hs'
      exact hok
  | read p n =>
    have hreader : s.editor.reader p = s.reader p := rfl
    simp only [step, Editor.step, hreader]
    cases s.reader p with
    | none =>
      refine ⟨rfl, fun s' hs' => ?_⟩
      cases hs'
      exact h
    | some x => exact ⟨rfl, nofun⟩
  | next p =>
    have hreader : s.editor.reader p = s.reader p := rfl
    simp only [step, Editor.step, hreader]
    cases s.reader p with
    | none => exact ⟨rfl, nofun⟩
    | some x => exact Sys.consoleread_editor h p x
  | kill p =>
    refine ⟨rfl, fun s' hs' => ?_⟩
    cases hs'
    exact h

end Steps

/-- Console input refines a line editor: whatever keys, reads and kills come in whatever order, `w - r`
is at most `e - r` and that at most `INPUT_BUF`, and the bytes delivered and the values returned are those
of the editor that does nothing on `^P`. -/
theorem console_refines (es : List (Event π)) :
    (runs step (start Input.boot) es).map Sys.editor = runs (Editor.step (· == ctrlP)) (start ⟨[], []⟩) es ∧
    ∀ s ∈ runs step (start Input.boot : Sys π Input) es,
      s.input.w - s.input.r ≤ s.input.e - s.input.r ∧
      s.input.e - s.input.r ≤ BitVec.ofNat 32 inputBuf := by
  have hok : (start Input.boot : Sys π Input).input.Ok := Input.ok_boot
  have hstart : (start Input.boot : Sys π Input).editor = start ⟨[], []⟩ := by
    simp only [Sys.editor, start, Input.editor_boot]
  refine ⟨?_, fun s hs => ?_⟩
  · rw [← hstart]
    exact runs_map (fun s e s' h hs => (step_editor h e).2 s' hs) (fun s e h => (step_editor h e).1) hok es
  have h := runs_inv_all (I := fun s : Sys π Input => s.input.Ok)
    (fun s e s' h hs => (step_editor h e).2 s' hs) hok hs
  exact ⟨h.ready_le, h.count_le⟩

/-- `ab`, a backspace and a newline, read with a count of 10. -/
def typed : List (Event Unit) :=
  [.key 97, .key 98, .key delete, .key carriageReturn, .read () 10, .next (), .next ()]

theorem typed_runs : (runs step (start Input.boot) typed).isSome = true := by
  decide

theorem typed_refines :
    let s := (runs step (start Input.boot) typed).get typed_runs
    s.delivered = [((), 97), ((), newline)] ∧ s.returned = [((), 2)] ∧
      s.input.w - s.input.r ≤ s.input.e - s.input.r :=
  ⟨by decide, by decide,
    ((console_refines typed).2 _ (Option.some_get typed_runs).symm).1⟩

/-- `^P` and a newline, read with a count of 1. -/
def listed : List (Event Unit) := [.key ctrlP, .key newline, .read () 1, .next ()]

theorem listed_runs : (runs step (start Input.boot) listed).isSome = true := by
  decide

theorem listed_appending_runs :
    (runs (Editor.step fun _ => false) (start ⟨[], []⟩) listed).isSome = true := by
  decide

/-- An editor that appends every key that is not an editing key would deliver the `^P`. -/
theorem ctrlP_not_appended : ∃ (es : List (Event Unit)) (s : Sys Unit Input) (a : Sys Unit Editor),
    runs step (start Input.boot) es = some s ∧
    runs (Editor.step fun _ => false) (start ⟨[], []⟩) es = some a ∧
    s.delivered = [((), newline)] ∧ a.delivered = [((), ctrlP)] :=
  ⟨listed, _, _, (Option.some_get listed_runs).symm, (Option.some_get listed_appending_runs).symm,
    by decide, by decide⟩

end Xv6.Console
