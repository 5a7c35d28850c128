import Xv6.Pipe.Machine

/-!
# Pipe — a pipe is a queue

`nread` and `nwrite` run free and wrap at `2 ^ 32`; the bytes between them are in the buffer.  In
every state of every run the bytes stored are those returned, in order, then those a reader has
already copied out, then those in the buffer (`fifo_run`), and a `piperead` of a positive count that
has nothing to return has found the pipe empty and its write end closed.
-/

namespace Xv6.Pipe
open Lib

variable {P : Type} [DecidableEq P]

/-- The bytes `piperead` has copied out and not returned yet. -/
def Pc.got : Pc → List UInt8
  | .copy _ got | .wakeEnd _ (.read _ got) | .release (.read _ got) => got
  | _ => []

/-- The same, of the process that has `p->lock`. -/
def Sys.inFlight (s : Sys P) : List UInt8 :=
  match s.lock with
  | some p => (s.pc p).got
  | none => []

/-- A `piperead` that stands here with nothing for a positive count has found the pipe empty and its
write end closed; in front of its loop, it has something to take or the end is closed. -/
def Pc.NilOk (ring : Ring UInt8 32 pipesize) (writeopen : Bool) : Pc → Prop
  | .copy _ got => got = [] → ring.nread ≠ ring.nwrite ∨ writeopen = false
  | .wakeEnd _ (.read n got) | .release (.read n got) =>
      0 < n → got = [] → ring.nread = ring.nwrite ∧ writeopen = false
  | _ => True

/-- **A pipe is a lossless queue.** -/
structure Lossless (s : Sys P) : Prop where
  count : s.ring.count ≤ pipesize
  fifo : s.stored = s.reads.flatten ++ s.inFlight ++ s.ring.toList
  nil : ∀ p, (s.pc p).NilOk s.ring s.writeopen

section Parts
variable {s s' : Sys P} {p : P}

theorem Pc.nilOk_of_not_holds {ring : Ring UInt8 32 pipesize} {writeopen : Bool} {pc : Pc}
    (h : pc.holds ≠ true) : pc.NilOk ring writeopen := by
  cases pc <;> trivial

omit [DecidableEq P] in
/-- While a process has the lock, only its own place says anything. -/
theorem Lossless.of_held (hl : Locks s) (hlock : s.lock = some p) (hcount : s.ring.count ≤ pipesize)
    (hfifo : s.stored = s.reads.flatten ++ (s.pc p).got ++ s.ring.toList)
    (hnil : (s.pc p).NilOk s.ring s.writeopen) : Lossless s := by
  refine ⟨hcount, ?_, fun q => ?_⟩
  · rw [Sys.inFlight, hlock]
    exact hfifo
  · by_cases hq : (s.pc q).holds = true
    · obtain rfl : q = p := Option.some.inj (((hl.lock q).mp hq).symm.trans hlock)
      exact hnil
    · exact Pc.nilOk_of_not_holds hq

omit [DecidableEq P] in
theorem Lossless.of_free (hl : Locks s) (hlock : s.lock = none) (hcount : s.ring.count ≤ pipesize)
    (hfifo : s.stored = s.reads.flatten ++ s.ring.toList) : Lossless s := by
  refine ⟨hcount, ?_, fun q => Pc.nilOk_of_not_holds fun hq => ?_⟩
  · rw [Sys.inFlight, hlock, List.append_nil]
    exact hfifo
  · rw [(hl.lock q).mp hq] at hlock
    cases hlock

omit [DecidableEq P] in
/-- What a process without the lock does is not seen. -/
theorem Lossless.of_same (hl : Locks s) (h : Lossless s) (hlock : s'.lock = s.lock)
    (hring : s'.ring = s.ring) (hopen : s'.writeopen = s.writeopen) (hstored : s'.stored = s.stored)
    (hreads : s'.reads = s.reads) (hl' : Locks s')
    (hpc : ∀ q, (s.pc q).holds = true → s'.pc q = s.pc q) : Lossless s' := by
  have hfifo := h.fifo
  rw [Sys.inFlight] at hfifo
  cases hs : s.lock with
  | none =>
      rw [hs, List.append_nil] at hfifo
      exact .of_free hl' (hlock.trans hs) (hring ▸ h.count) (by rw [hstored, hreads, hring, hfifo])
  | some p =>
      rw [hs] at hfifo
      have hp := hpc p ((hl.lock p).mpr hs)
      refine .of_held hl' (hlock.trans hs) (hring ▸ h.count) ?_ ?_
      · rw [hstored, hreads, hring, hp, hfifo]
      · rw [hp, hring, hopen]
        exact h.nil p

omit [DecidableEq P] in
theorem Lossless.fifo_of_lock (h : Lossless s) (hlock : s.lock = some p) :
    s.stored = s.reads.flatten ++ (s.pc p).got ++ s.ring.toList := by
  have := h.fifo
  rwa [Sys.inFlight, hlock] at this

omit [DecidableEq P] in
/-- The full test of `pipewrite` is right about the number of bytes. -/
theorem count_eq_pipesize : s.ring.count = pipesize ↔ s.ring.nwrite = s.ring.nread + 512 :=
  Ring.count_eq_iff (by decide)

end Parts

theorem Lossless.move {s s' : Sys P} {p : P} (hl : Locks s) (h : Lossless s) (hm : Move s p s') :
    Lossless s' := by
  have hl' := hl.move hm
  have hlock : (s.pc p).holds = true → s.lock = some p := (hl.lock p).mp
  cases hm with
  | acquire hpc hfree =>
      refine .of_held hl' rfl h.count ?_ ?_
      · have := h.fifo
        rw [Sys.inFlight, hfree] at this
        rw [Sys.setPc_pc_self]
        exact this
      · rw [Sys.setPc_pc_self]
        trivial
  | store hpc hroom =>
      have hp := hlock (by rw [hpc]; rfl)
      have hfifo := h.fifo_of_lock hp
      rw [hpc] at hfifo
      have hcount : s.ring.count < pipesize := lt_of_le_of_ne h.count (mt count_eq_pipesize.mp hroom)
      have hwide : s.ring.count + 1 < 2 ^ 32 := by
        have : pipesize = 512 := rfl
        omega
      refine .of_held hl' hp ?_ ?_ (by rw [Sys.setPc_pc_self]; trivial)
      · show (s.ring.push _).count ≤ pipesize
        rw [Ring.count_push hwide]
        exact hcount
      · rw [Sys.setPc_pc_self]
        show s.stored ++ [_] = s.reads.flatten ++ [] ++ (s.ring.push _).toList
        rw [Ring.toList_push (by decide) hcount hwide, hfifo]
        simp [Pc.got]
  | take hpc hdata =>
      have hp := hlock (by rw [hpc]; rfl)
      have hfifo := h.fifo_of_lock hp
      rw [hpc] at hfifo
      have hcount : s.ring.count ≠ 0 := mt Ring.count_eq_zero.mp hdata
      refine .of_held hl' hp ?_ ?_ ?_
      · show s.ring.pop.count ≤ pipesize
        rw [Ring.count_pop hcount]
        have := h.count
        omega
      · rw [Sys.setPc_pc_self]
        show s.stored = s.reads.flatten ++ (_ ++ [s.ring.front]) ++ s.ring.pop.toList
        rw [hfifo, Ring.toList_eq_cons hcount]
        simp [Pc.got]
      · rw [Sys.setPc_pc_self]
        intro hnil
        simp at hnil
  | readStart hpc hgo =>
      have hp := hlock (by rw [hpc]; rfl)
      have hfifo := h.fifo_of_lock hp
      rw [hpc] at hfifo
      refine .of_held hl' hp h.count ?_ ?_
      · rw [Sys.setPc_pc_self]
        exact hfifo
      · rw [Sys.setPc_pc_self]
        intro _
        show s.ring.nread ≠ s.ring.nwrite ∨ s.writeopen = false
        by_cases hempty : s.ring.nread = s.ring.nwrite
        · exact .inr (by simpa [hempty] using hgo)
        · exact .inl hempty
  | @readEnd n got hpc hend =>
      have hp := hlock (by rw [hpc]; rfl)
      have hfifo := h.fifo_of_lock hp
      have hnil := h.nil p
      rw [hpc] at hfifo hnil
      refine .of_held hl' hp h.count ?_ ?_
      · rw [Sys.setPc_pc_self]
        exact hfifo
      · rw [Sys.setPc_pc_self]
        intro hn hgot
        have hpos : 0 < n.toInt := Int32.lt_iff_toInt_lt.mp hn
        have hempty : s.ring.nread = s.ring.nwrite := by
          by_contra hne
          exact hend ⟨by simpa [hgot] using hpos, hne⟩
        exact ⟨hempty, (hnil hgot).resolve_left (not_not.mpr hempty)⟩
  | closeWrite hpc =>
      have hp := hlock (by rw [hpc]; rfl)
      have hfifo := h.fifo_of_lock hp
      rw [hpc] at hfifo
      refine .of_held hl' hp h.count ?_ (by rw [Sys.setPc_pc_self]; trivial)
      rw [Sys.setPc_pc_self]
      exact hfifo
  | @wakeEnd chan r hpc _ =>
      have hp := hlock (by rw [hpc]; rfl)
      have hfifo := h.fifo_of_lock hp
      have hnil := h.nil p
      rw [hpc] at hfifo hnil
      refine .of_held hl' hp h.count ?_ ?_
      · rw [Sys.setPc_pc_self]
        cases r <;> exact hfifo
      · rw [Sys.setPc_pc_self]
        cases r <;> trivial
  | sleep hpc _ =>
      have hfifo := h.fifo_of_lock (hlock (by rw [hpc]; rfl))
      rw [hpc] at hfifo
      exact .of_free hl' rfl h.count (by simpa [Pc.got, Sys.setPc] using hfifo)
  | @release r hpc =>
      have hfifo := h.fifo_of_lock (hlock (by rw [hpc]; rfl))
      rw [hpc] at hfifo
      have hring : (s.ret p r).ring = s.ring := by cases r <;> rfl
      refine .of_free hl' (Sys.ret_lock ..) (by rw [hring]; exact h.count) ?_
      cases r <;> simpa [Sys.ret, Sys.setPc, Pc.got] using hfifo
  | asleep hpc =>
      refine .of_same hl h rfl rfl rfl rfl rfl hl' fun q hq => Sys.setPc_pc_of_ne ?_
      rintro rfl
      rw [hpc] at hq
      cases hq
  | _ hpc =>
      -- the steps that only decide where to go on
      have hp := hlock (by rw [hpc]; rfl)
      have hfifo := h.fifo_of_lock hp
      rw [hpc] at hfifo
      refine .of_held hl' hp h.count ?_ (by rw [Sys.setPc_pc_self]; trivial)
      rw [Sys.setPc_pc_self]
      exact hfifo

theorem Lossless.step {s s' : Sys P} {e : Event P} (hl : Locks s) (h : Lossless s)
    (hstep : step s e = some s') : Lossless s' := by
  have hl' := hl.step hstep
  obtain ⟨p, c, rfl, hpc, rfl⟩ | ⟨p, rfl, rfl⟩ | ⟨p, rfl, hm⟩ := step_cases hstep
  · refine .of_same hl h rfl rfl rfl rfl rfl hl' fun q hq => Sys.setPc_pc_of_ne ?_
    rintro rfl
    rw [hpc] at hq
    cases hq
  · exact .of_same hl h rfl rfl rfl rfl rfl hl' fun q hq => kill_pc_of_holds hq
  · exact h.move hl hm

omit [DecidableEq P] in
theorem lossless_init (junk : Fin pipesize → UInt8) (killed : P → Bool) :
    Lossless (init junk killed) :=
  .of_free (locks_init junk killed) rfl (by simp [init, Ring.count])
    (by simp [init, Ring.toList, Ring.count])

/-- **A pipe is a lossless queue in every state of every run**: the buffer never overflows, what has
been stored is what has been returned and then what is in flight and in the buffer, and a `piperead`
of a positive count is about to return `0` only from an empty pipe without a writer. -/
theorem fifo_run (junk : Fin pipesize → UInt8) (killed : P → Bool) (es : List (Event P)) (s : Sys P)
    (h : runs step (init junk killed) es = some s) :
    (s.ring.nwrite - s.ring.nread).toNat ≤ pipesize ∧
    s.stored = s.reads.flatten ++ s.inFlight ++ s.ring.toList ∧
    (s.lock = none → s.inFlight = []) ∧
    ∀ p n, 0 < n → s.pc p = .release (.read n []) →
      s.ring.nread = s.ring.nwrite ∧ s.writeopen = false := by
  have hall : Locks s ∧ Lossless s := by
    refine runs_inv_all (I := fun s => Locks s ∧ Lossless s) ?_
      ⟨locks_init junk killed, lossless_init junk killed⟩ h
    rintro s e s' ⟨hl, hs⟩ hstep
    exact ⟨hl.step hstep, hs.step hl hstep⟩
  obtain ⟨-, hs⟩ := hall
  refine ⟨hs.count, hs.fifo, fun hlock => ?_, fun p n hn hpc => ?_⟩
  · rw [Sys.inFlight, hlock]
  · have hnil := hs.nil p
    rw [hpc] at hnil
    exact hnil hn rfl

/-- One process writes the byte 7 and reads it back. -/
def oneByte : List (Event Unit) :=
  [.call () (.write [7] 0), .step (), .step (), .step (), .step (), .step (),
    .call () (.read 1), .step (), .step (), .step (), .step (), .step (), .step ()]

theorem oneByte_fifo : ∃ s, runs step (init (fun _ => 0) fun _ => false) oneByte = some s ∧
    s.stored = [7] ∧ s.reads = [[7]] ∧ s.stored = s.reads.flatten ++ s.inFlight ++ s.ring.toList :=
  ⟨_, rfl, rfl, rfl, (fifo_run (fun _ => 0) (fun _ => false) oneByte _ rfl).2.1⟩

end Xv6.Pipe
