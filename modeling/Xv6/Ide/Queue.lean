import Xv6.Lib.Linked
import Xv6.Lib.Runs

/-!
# Ide — the queue of disk requests

`iderw`, `idestart` and `ideintr` of `ide.c`, called by any number of processes on buffers they hold and
by the interrupts of the disk.  What is done under `idelock` is one step; `iderw` gives the lock up only
in its `sleep`, so a call is the step that appends and, after each wakeup, a step that tests the flags
again.  A sleeper may also be made runnable by `kill` (`Event.kick`).

The disk takes one command at a time and interrupts once when it has carried it out.  A process that
holds a buffer and is not in `iderw` does with it what it likes (`Event.edit`).  A step that panics is
`none`.

`appended`, `started` and `completed` record the requests, each with the buffer as it was at the call.
-/

namespace Xv6.Ide
open Lib

/-- `FSSIZE`. -/
def fssize : Nat := 1000

/-- `struct buf`; that it is `B_BUSY` is in `Sys.owner`. -/
structure Buf (δ : Type) where
  valid : Bool
  dirty : Bool
  dev : Nat
  blockno : Nat
  data : δ

/-- A disk and a sector. -/
abbrev Addr := Nat × Nat

inductive Cmd (δ : Type) where
  | read (a : Addr)
  | write (a : Addr) (d : δ)

variable {δ : Type}

namespace Buf

/-- A block is one sector, and below `FSSIZE` its number fits the four registers. -/
def addr (x : Buf δ) : Addr := (x.dev % 2, x.blockno)

/-- `(flags & (B_VALID|B_DIRTY)) != B_VALID` -/
def todo (x : Buf δ) : Bool := !x.valid || x.dirty

def cmd (x : Buf δ) : Cmd δ := if x.dirty then .write x.addr x.data else .read x.addr

/-- The buffer after its request, for the contents of the disk then. -/
def synced (x : Buf δ) (disk : Addr → δ) : Buf δ :=
  { x with valid := true, dirty := false, data := disk x.addr }

end Buf

namespace Cmd

/-- What the command makes of the disk. -/
def perform (disk : Addr → δ) : Cmd δ → Addr → δ
  | .read _ => disk
  | .write a d => Function.update disk a d

/-- What `insl` gets after the command. -/
def port (disk : Addr → δ) : Cmd δ → δ
  | .read a => disk a
  | .write _ d => d

end Cmd

/-- Where a process stands; `i` is the number of its request. -/
inductive Pc (β : Type) where
  | idle
  | asleep (b : β) (i : Nat)
  | awake (b : β) (i : Nat)
  deriving DecidableEq

structure Sys (π β δ : Type) where
  /-- who has made the buffer `B_BUSY` -/
  owner : β → Option π
  buf : β → Buf δ
  /-- `idequeue`, with `qnext` of every buffer -/
  queue : Queue β
  /-- the command in progress -/
  cmd : Option (Cmd δ)
  disk : Addr → δ
  pc : π → Pc β
  appended : List (β × Buf δ)
  started : List (β × Buf δ)
  completed : List (β × Buf δ)

inductive Event (π β δ : Type) where
  | get (p : π) (b : β)
  | put (p : π) (b : β)
  | edit (p : π) (b : β) (x : Buf δ)
  | iderw (p : π) (b : β)
  | kick (p : π)
  | resume (p : π)
  | intr

variable {π β : Type}

def Pc.wake [DecidableEq β] (b : β) : Pc β → Pc β
  | .asleep b' i => if b' = b then .awake b' i else .asleep b' i
  | pc => pc

def Sys.request (s : Sys π β δ) (b : β) : β × Buf δ := (b, s.buf b)

section Code
variable [DecidableEq π] [DecidableEq β]

namespace Sys

def setPc (s : Sys π β δ) (p : π) (pc : Pc β) : Sys π β δ := { s with pc := Function.update s.pc p pc }

def idestart (s : Sys π β δ) (b : β) : Option (Sys π β δ) :=
  if fssize ≤ (s.buf b).blockno then none
  else some { s with cmd := some (s.buf b).cmd, started := s.started ++ [s.request b] }

/-- The test of the `while` of `iderw`, and its `sleep` or its return. -/
def wait (s : Sys π β δ) (p : π) (b : β) (i : Nat) : Sys π β δ :=
  s.setPc p (if (s.buf b).todo then .asleep b i else .idle)

/-- `iderw` up to its first `sleep`.  The queue cannot be longer than there are buffers. -/
def iderw [Fintype β] (havedisk1 : Bool) (s : Sys π β δ) (p : π) (b : β) : Option (Sys π β δ) :=
  if (s.buf b).todo = false ∨ (s.buf b).dev ≠ 0 ∧ havedisk1 = false then none
  else do
    let queue ← s.queue.push (Fintype.card β + 1) b
    let s' := { s with queue := queue, appended := s.appended ++ [s.request b] }
    let s'' ← if queue.head = some b then s'.idestart b else some s'
    return s''.wait p b s.appended.length

/-- The head of the queue is done. -/
def complete (s : Sys π β δ) (c : Cmd δ) (b : β) : Sys π β δ :=
  { s with
    queue := { s.queue with head := s.queue.next b }
    buf := Function.update s.buf b { s.buf b with
      valid := true
      dirty := false
      data := if (s.buf b).dirty then (s.buf b).data else c.port s.disk }
    pc := fun p => (s.pc p).wake b
    completed := s.completed ++ [s.request b] }

/-- The interrupt that the command `c` is done. -/
def ideintr (s : Sys π β δ) (c : Cmd δ) : Option (Sys π β δ) :=
  let s := { s with cmd := none, disk := c.perform s.disk }
  match s.queue.head with
  | none => some s
  | some b =>
      let s := s.complete c b
      match s.queue.head with
      | none => some s
      | some b' => s.idestart b'

end Sys

def step [Fintype β] (havedisk1 : Bool) (s : Sys π β δ) : Event π β δ → Option (Sys π β δ)
  | .get p b => if s.owner b = none then some { s with owner := Function.update s.owner b (some p) } else none
  | .put p b =>
      if s.owner b = some p ∧ s.pc p = .idle then some { s with owner := Function.update s.owner b none }
      else none
  | .edit p b x =>
      if s.owner b = some p ∧ s.pc p = .idle then some { s with buf := Function.update s.buf b x } else none
  | .iderw p b => if s.owner b = some p ∧ s.pc p = .idle then s.iderw havedisk1 p b else none
  | .kick p =>
      match s.pc p with
      | .asleep b i => some (s.setPc p (.awake b i))
      | _ => none
  | .resume p =>
      match s.pc p with
      | .awake b i => some (s.wait p b i)
      | _ => none
  | .intr => s.cmd.bind s.ideintr

end Code

def init (buf : β → Buf δ) (disk : Addr → δ) : Sys π β δ :=
  ⟨fun _ => none, buf, ⟨none, fun _ => none⟩, none, disk, fun _ => .idle, [], [], []⟩

/-- The contents of the disk after requests. -/
def contents (disk₀ : Addr → δ) (rs : List (β × Buf δ)) : Addr → δ :=
  rs.foldl (fun disk r => r.2.cmd.perform disk) disk₀

def Pc.waits (b : β) (i : Nat) (pc : Pc β) : Prop := pc = .asleep b i ∨ pc = .awake b i

theorem contents_append (disk₀ : Addr → δ) (rs rs' : List (β × Buf δ)) :
    contents disk₀ (rs ++ rs') = contents (contents disk₀ rs) rs' :=
  List.foldl_append

theorem Pc.wake_waits [DecidableEq β] {a b : β} {i : Nat} {pc : Pc β} :
    (pc.wake b).waits a i ↔ pc.waits a i := by
  cases pc with
  | idle => exact Iff.rfl
  | asleep b' j =>
      simp only [Pc.wake]
      split_ifs
      · simp [Pc.waits]
      · exact Iff.rfl
  | awake b' j => exact Iff.rfl

theorem Pc.wake_eq_asleep [DecidableEq β] {a b : β} {i : Nat} {pc : Pc β} :
    pc.wake b = .asleep a i ↔ pc = .asleep a i ∧ a ≠ b := by
  cases pc with
  | idle => simp [Pc.wake]
  | asleep b' j =>
      simp only [Pc.wake]
      split_ifs with hb
      · constructor
        · rintro ⟨⟩
        · rintro ⟨h, ha⟩
          cases h
          exact absurd hb ha
      · refine ⟨fun h => ⟨h, ?_⟩, And.left⟩
        cases h
        exact hb
  | awake b' j => simp [Pc.wake]

/-- `q` is the list in `idequeue`. -/
structure Inv (disk₀ : Addr → δ) (q : List β) (s : Sys π β δ) : Prop where
  holds : s.queue.Holds q
  cmd : s.cmd = q.head?.map fun b => (s.buf b).cmd
  started : s.started = s.completed ++ (q.take 1).map s.request
  appended : s.appended = s.completed ++ q.map s.request
  disk : s.disk = contents disk₀ s.completed
  todo : ∀ b ∈ q, (s.buf b).todo = true
  queued : ∀ b ∈ q, ∃ p i, (s.pc p).waits b i
  owner : ∀ p b i, (s.pc p).waits b i → s.owner b = some p
  asleep : ∀ p b i, s.pc p = .asleep b i → s.completed.length ≤ i
  inside : ∀ p b i, (s.pc p).waits b i → ∃ x, s.appended[i]? = some (b, x) ∧
    (i < s.completed.length → s.buf b = x.synced (contents disk₀ (s.completed.take (i + 1))))

section Parts
variable {disk₀ : Addr → δ} {q : List β} {s s' : Sys π β δ} {p : π} {b : β}

/-- A buffer that is held outside `iderw` is not in the queue, and nobody waits for it. -/
theorem Inv.not_mem (h : Inv disk₀ q s) (ho : s.owner b = some p) (hp : s.pc p = .idle) :
    (∀ p' i, ¬ (s.pc p').waits b i) ∧ b ∉ q := by
  have hno : ∀ p' i, ¬ (s.pc p').waits b i := by
    intro p' i hw
    obtain rfl : p' = p := Option.some.inj ((h.owner p' b i hw).symm.trans ho)
    rw [hp] at hw
    rcases hw with hw | hw <;> cases hw
  refine ⟨hno, fun hb => ?_⟩
  obtain ⟨p', i, hw⟩ := h.queued b hb
  exact hno p' i hw

/-- A process whose request is not done has its buffer in the queue. -/
theorem Inv.mem_of_pending (h : Inv disk₀ q s) {i : Nat} (hw : (s.pc p).waits b i)
    (hi : s.completed.length ≤ i) : b ∈ q := by
  obtain ⟨x, hx, -⟩ := h.inside p b i hw
  rw [h.appended, List.getElem?_append_right hi, List.getElem?_map, Option.map_eq_some_iff] at hx
  obtain ⟨b', hb', he⟩ := hx
  obtain rfl : b' = b := congrArg Prod.fst he
  exact List.mem_of_getElem? hb'

/-- A process whose request is done finds its buffer so. -/
theorem Inv.todo_iff (h : Inv disk₀ q s) {i : Nat} (hw : (s.pc p).waits b i) :
    (s.buf b).todo = true ↔ s.completed.length ≤ i := by
  refine ⟨fun ht => ?_, fun hi => h.todo b (h.mem_of_pending hw hi)⟩
  by_contra hi
  obtain ⟨x, -, hx⟩ := h.inside p b i hw
  rw [hx (Nat.lt_of_not_le hi)] at ht
  cases ht

theorem map_request_congr {l : List β} (h : ∀ b ∈ l, s'.buf b = s.buf b) :
    l.map s'.request = l.map s.request :=
  List.map_congr_left fun b hb => congrArg (Prod.mk b) (h b hb)

/-- A step that changes neither the queue nor a buffer in it nor what was done. -/
theorem Inv.frame (h : Inv disk₀ q s) (hqueue : s'.queue = s.queue) (hcmd : s'.cmd = s.cmd)
    (hdisk : s'.disk = s.disk) (happ : s'.appended = s.appended) (hst : s'.started = s.started)
    (hcomp : s'.completed = s.completed) (hbuf : ∀ b p i, (s.pc p).waits b i → s'.buf b = s.buf b)
    (hwaits : ∀ p b i, (s'.pc p).waits b i → (s.pc p).waits b i ∧ s'.owner b = some p)
    (hasleep : ∀ p b i, s'.pc p = .asleep b i → s.completed.length ≤ i)
    (hqueued : ∀ b ∈ q, ∃ p i, (s'.pc p).waits b i) : Inv disk₀ q s' := by
  have hq : ∀ b ∈ q, s'.buf b = s.buf b := by
    intro b hb
    obtain ⟨p, i, hw⟩ := h.queued b hb
    exact hbuf b p i hw
  refine ⟨hqueue ▸ h.holds, ?_, ?_, ?_, ?_, fun b hb => ?_, hqueued, fun p b i hw => (hwaits p b i hw).2,
    ?_, fun p b i hw => ?_⟩
  · rw [hcmd, h.cmd]
    cases q with
    | nil => rfl
    | cons a q => exact congrArg (fun x : Buf δ => some x.cmd) (hq a List.mem_cons_self).symm
  · rw [hst, hcomp, h.started, map_request_congr fun b hb => hq b (List.mem_of_mem_take hb)]
  · rw [happ, hcomp, h.appended, map_request_congr hq]
  · rw [hdisk, hcomp, h.disk]
  · rw [hq b hb]
    exact h.todo b hb
  · rw [hcomp]
    exact hasleep
  · have hw' := (hwaits p b i hw).1
    obtain ⟨x, hx, hdone⟩ := h.inside p b i hw'
    rw [happ, hcomp, hbuf b p i hw']
    exact ⟨x, hx, hdone⟩

/-- A request goes to the end of the queue. -/
theorem Inv.append [DecidableEq π] (h : Inv disk₀ q s) (ho : s.owner b = some p) (hp : s.pc p = .idle)
    (ht : (s.buf b).todo = true) (hholds : s'.queue.Holds (q ++ [b])) (hbuf : s'.buf = s.buf)
    (hcmd : s'.cmd = (q ++ [b]).head?.map fun b => (s.buf b).cmd)
    (hst : s'.started = s.completed ++ ((q ++ [b]).take 1).map s.request)
    (happ : s'.appended = s.appended ++ [s.request b]) (hcomp : s'.completed = s.completed)
    (hdisk : s'.disk = s.disk) (howner : s'.owner = s.owner)
    (hpc : s'.pc = Function.update s.pc p (.asleep b s.appended.length)) : Inv disk₀ (q ++ [b]) s' := by
  have hreq : s'.request = s.request := by
    unfold Sys.request
    rw [hbuf]
  have hlen : s.completed.length ≤ s.appended.length := by
    rw [h.appended, List.length_append]
    exact Nat.le_add_right _ _
  have hwaits : ∀ p' a i, (s'.pc p').waits a i →
      p' = p ∧ a = b ∧ i = s.appended.length ∨ (s.pc p').waits a i := by
    intro p' a i hw
    rw [hpc] at hw
    by_cases hpp : p' = p
    · rw [hpp, Function.update_self] at hw
      rcases hw with hw | hw <;> cases hw
      exact .inl ⟨hpp, rfl, rfl⟩
    · rw [Function.update_of_ne hpp] at hw
      exact .inr hw
  refine ⟨hholds, by rw [hbuf]; exact hcmd, by rw [hcomp, hreq]; exact hst, ?_, by rw [hdisk, hcomp, h.disk],
    fun a ha => ?_, fun a ha => ?_, fun p' a i hw => ?_, fun p' a i hw => ?_, fun p' a i hw => ?_⟩
  · rw [happ, hcomp, hreq, h.appended, List.map_append, List.append_assoc]
    rfl
  · rw [hbuf]
    rcases List.mem_append.mp ha with ha | ha
    · exact h.todo a ha
    · rwa [List.mem_singleton.mp ha]
  · rw [hpc]
    rcases List.mem_append.mp ha with ha | ha
    · obtain ⟨p', i, hw⟩ := h.queued a ha
      refine ⟨p', i, ?_⟩
      rwa [Function.update_of_ne]
      rintro rfl
      rw [hp] at hw
      rcases hw with hw | hw <;> cases hw
    · rw [List.mem_singleton.mp ha]
      exact ⟨p, _, .inl (Function.update_self ..)⟩
  · rw [howner]
    rcases hwaits p' a i hw with ⟨rfl, rfl, -⟩ | hw
    · exact ho
    · exact h.owner p' a i hw
  · rw [hcomp]
    rcases hwaits p' a i (.inl hw) with ⟨-, -, rfl⟩ | hw'
    · exact hlen
    · refine h.asleep p' a i (hw'.resolve_right fun hw' => ?_)
      rw [hpc] at hw
      by_cases hpp : p' = p
      · rw [hpp, hp] at hw'
        cases hw'
      · rw [Function.update_of_ne hpp, hw'] at hw
        cases hw
  · rw [happ, hcomp, hbuf]
    rcases hwaits p' a i hw with ⟨-, rfl, rfl⟩ | hw'
    · exact ⟨s.buf a, List.getElem?_concat_length, fun hi => absurd hi (Nat.not_lt_of_le hlen)⟩
    · obtain ⟨x, hx, hdone⟩ := h.inside p' a i hw'
      refine ⟨x, ?_, hdone⟩
      rw [List.getElem?_append_left (List.getElem?_eq_some_iff.mp hx).1]
      exact hx

variable [DecidableEq β]

/-- The head of the queue is done and the next request, if there is one, is started. -/
theorem Inv.advance {l : List β} (h : Inv disk₀ (b :: l) s)
    (hqueue : s'.queue = { s.queue with head := s.queue.next b })
    (hcomp : s'.completed = s.completed ++ [s.request b])
    (hdisk : s'.disk = contents disk₀ s'.completed)
    (hbuf : s'.buf = Function.update s.buf b ((s.buf b).synced s'.disk))
    (hcmd : s'.cmd = l.head?.map fun b => (s.buf b).cmd)
    (hst : s'.started = s.started ++ (l.take 1).map s.request) (happ : s'.appended = s.appended)
    (hpc : s'.pc = fun p => (s.pc p).wake b) (howner : s'.owner = s.owner) : Inv disk₀ l s' := by
  have hnodup := List.nodup_cons.mp h.holds.nodup
  have hne : ∀ a, a ≠ b → s'.buf a = s.buf a := fun a ha => by rw [hbuf, Function.update_of_ne ha]
  have hl : ∀ a ∈ l, s'.buf a = s.buf a := fun a ha => hne a fun he => hnodup.1 (he ▸ ha)
  have hwaits : ∀ p a i, (s'.pc p).waits a i ↔ (s.pc p).waits a i := by
    intro p a i
    rw [hpc]
    exact Pc.wake_waits
  -- the request of the head is number `completed.length`
  have hnum : ∀ a x, s.appended[s.completed.length]? = some (a, x) → a = b ∧ x = s.buf b := by
    intro a x ha
    rw [h.appended, List.getElem?_append_right (Nat.le_refl _), Nat.sub_self] at ha
    cases ha
    exact ⟨rfl, rfl⟩
  refine ⟨hqueue ▸ h.holds.tail, ?_, ?_, ?_, hdisk, fun a ha => ?_, fun a ha => ?_, fun p a i hw => ?_,
    fun p a i hp => ?_, fun p a i hw => ?_⟩
  · rw [hcmd]
    cases l with
    | nil => rfl
    | cons a l => exact congrArg (fun x : Buf δ => some x.cmd) (hl a List.mem_cons_self).symm
  · rw [hst, hcomp, h.started, map_request_congr fun a ha => hl a (List.mem_of_mem_take ha)]
    rfl
  · rw [happ, hcomp, h.appended, map_request_congr hl, List.map_cons, List.append_assoc]
    rfl
  · rw [hl a ha]
    exact h.todo a (List.mem_cons_of_mem _ ha)
  · obtain ⟨p, i, hw⟩ := h.queued a (List.mem_cons_of_mem _ ha)
    exact ⟨p, i, (hwaits p a i).mpr hw⟩
  · rw [howner]
    exact h.owner p a i ((hwaits p a i).mp hw)
  · -- who still sleeps after the wakeup waits for another buffer
    rw [hpc] at hp
    obtain ⟨hp, hab⟩ := Pc.wake_eq_asleep.mp hp
    have hi := h.asleep p a i hp
    rw [hcomp, List.length_append, List.length_singleton]
    refine Nat.lt_of_le_of_ne hi fun he => hab ?_
    obtain ⟨x, hx, -⟩ := h.inside p a i (.inl hp)
    exact (hnum a x (he ▸ hx)).1
  · have hw' := (hwaits p a i).mp hw
    obtain ⟨x, hx, hdone⟩ := h.inside p a i hw'
    refine ⟨x, by rw [happ, hx], fun hi => ?_⟩
    rw [hcomp, List.length_append, List.length_singleton] at hi
    rcases Nat.lt_succ_iff_lt_or_eq.mp hi with hi | hi
    · have hab : a ≠ b := by
        rintro rfl
        exact absurd ((h.todo_iff hw').mp (h.todo a List.mem_cons_self)) (Nat.not_le_of_lt hi)
      rw [hne a hab, hdone hi, hcomp, List.take_append_of_le_length hi]
    · subst hi
      obtain ⟨rfl, rfl⟩ := hnum a x hx
      rw [hbuf, Function.update_self, hdisk, hcomp, List.take_of_length_le (by simp)]

theorem Inv.ideintr {c : Cmd δ} (h : Inv disk₀ q s) (hc : s.cmd = some c)
    (hs : s.ideintr c = some s') : ∃ b l, q = b :: l ∧ Inv disk₀ l s' ∧
      s'.completed = s.completed ++ [s.request b] := by
  cases q with
  | nil =>
    rw [h.cmd] at hc
    cases hc
  | cons b l =>
    obtain rfl : c = (s.buf b).cmd := by
      rw [h.cmd] at hc
      exact (Option.some.inj hc).symm
    have hdisk : (s.buf b).cmd.perform s.disk = contents disk₀ (s.completed ++ [s.request b]) := by
      rw [contents_append, ← h.disk]
      rfl
    have hsync : ({ s.buf b with
        valid := true
        dirty := false
        data := if (s.buf b).dirty then (s.buf b).data
          else (s.buf b).cmd.port ((s.buf b).cmd.perform s.disk) } : Buf δ) =
        (s.buf b).synced ((s.buf b).cmd.perform s.disk) := by
      unfold Buf.synced Buf.cmd
      cases (s.buf b).dirty <;> simp [Cmd.perform, Cmd.port]
    have hhead : s.queue.head = some b := h.holds.head
    have hnext : s.queue.next b = l.head? := h.holds.tail.head
    refine ⟨b, l, rfl, ?_⟩
    simp only [Sys.ideintr, hhead, Sys.complete, hnext, hsync] at hs
    cases l with
    | nil =>
      simp only [List.head?_nil, Option.some.injEq] at hs
      subst hs
      exact ⟨h.advance (by rw [hnext]; rfl) rfl hdisk rfl rfl (by simp) rfl rfl rfl, rfl⟩
    | cons a l =>
      have hab : a ≠ b := fun he => (List.nodup_cons.mp h.holds.nodup).1 (by simp [he])
      simp only [List.head?_cons, Sys.idestart, Function.update_of_ne hab] at hs
      split_ifs at hs
      cases hs
      refine ⟨h.advance (by rw [hnext]; rfl) rfl hdisk rfl ?_ ?_ rfl rfl rfl, rfl⟩
      · rfl
      · simp [Sys.request, Function.update_of_ne hab]

variable [DecidableEq π] [Fintype β] {havedisk1 : Bool}

/-- What `iderw` does up to its `sleep`, if it does not panic. -/
theorem Inv.iderw_eq (havedisk1 : Bool) (h : Inv disk₀ q s) (ho : s.owner b = some p) (hp : s.pc p = .idle)
    (ht : (s.buf b).todo = true) (hdev : (s.buf b).dev ≠ 0 → havedisk1 = true) :
    ∃ queue, queue.Holds (q ++ [b]) ∧ s.iderw havedisk1 p b =
      if q = [] ∧ fssize ≤ (s.buf b).blockno then none
      else some { s with
        queue := queue
        cmd := (q ++ [b]).head?.map fun b => (s.buf b).cmd
        started := s.completed ++ ((q ++ [b]).take 1).map s.request
        appended := s.appended ++ [s.request b]
        pc := Function.update s.pc p (.asleep b s.appended.length) } := by
  have hb := (h.not_mem ho hp).2
  have hfuel : q.length < Fintype.card β + 1 :=
    Nat.lt_succ_of_le (List.Nodup.length_le_card h.holds.nodup)
  obtain ⟨queue, hpush, hholds⟩ := h.holds.push hb hfuel
  refine ⟨queue, hholds, ?_⟩
  have hpanic : ¬ ((s.buf b).todo = false ∨ (s.buf b).dev ≠ 0 ∧ havedisk1 = false) := by
    rintro (h | ⟨h₁, h₂⟩)
    · rw [ht] at h
      cases h
    · rw [hdev h₁] at h₂
      cases h₂
  have hhead := hholds.head
  rw [Sys.iderw, if_neg hpanic]
  cases q with
  | nil =>
    rw [List.nil_append, List.head?_cons] at hhead
    by_cases hfs : fssize ≤ (s.buf b).blockno
    · simp [hpush, hhead, Sys.idestart, hfs]
    · simp [hpush, hhead, Sys.idestart, hfs, Sys.wait, Sys.setPc, ht, h.started, Sys.request]
  | cons a l =>
    have hab : a ≠ b := fun he => hb (by simp [he])
    rw [List.cons_append, List.head?_cons] at hhead
    simp [hpush, hhead, hab, Sys.wait, Sys.setPc, ht, h.cmd, h.started]

omit [DecidableEq β] [Fintype β] in
theorem Sys.setPc_self (s : Sys π β δ) (p : π) (pc : Pc β) : (s.setPc p pc).pc p = pc :=
  Function.update_self ..

omit [DecidableEq β] [Fintype β] in
theorem Sys.setPc_of_ne {p' : π} (hne : p' ≠ p) (pc : Pc β) : (s.setPc p pc).pc p' = s.pc p' :=
  Function.update_of_ne hne _ _

omit [DecidableEq β] [Fintype β] in
/-- A waiting process is woken, sleeps again, or returns if its request is done. -/
theorem Inv.setPc {i : Nat} {pc : Pc β} (h : Inv disk₀ q s) (hw : (s.pc p).waits b i)
    (hpc : pc.waits b i ∨ pc = .idle ∧ b ∉ q) (hasleep : pc = .asleep b i → s.completed.length ≤ i) :
    Inv disk₀ q (s.setPc p pc) := by
  have hwaits : ∀ b' i', pc.waits b' i' → b' = b ∧ i' = i := by
    intro b' i' hw'
    rcases hpc with (rfl | rfl) | ⟨rfl, -⟩ <;> rcases hw' with hw' | hw' <;> cases hw' <;> exact ⟨rfl, rfl⟩
  refine h.frame rfl rfl rfl rfl rfl rfl (fun _ _ _ _ => rfl) (fun p' b' i' hw' => ?_)
    (fun p' b' i' hp' => ?_) fun b' hb' => ?_
  · have hold : (s.pc p').waits b' i' := by
      by_cases hpp : p' = p
      · subst hpp
        rw [Sys.setPc_self] at hw'
        obtain ⟨rfl, rfl⟩ := hwaits b' i' hw'
        exact hw
      · rwa [Sys.setPc_of_ne hpp] at hw'
    exact ⟨hold, h.owner p' b' i' hold⟩
  · by_cases hpp : p' = p
    · subst hpp
      rw [Sys.setPc_self] at hp'
      obtain ⟨rfl, rfl⟩ := hwaits b' i' (.inl hp')
      exact hasleep hp'
    · rw [Sys.setPc_of_ne hpp] at hp'
      exact h.asleep p' b' i' hp'
  · obtain ⟨p', i', hw'⟩ := h.queued b' hb'
    refine ⟨p', i', ?_⟩
    by_cases hpp : p' = p
    · subst hpp
      obtain rfl : b' = b := by rcases hw with hw | hw <;> rcases hw' with hw' | hw' <;> simp_all
      obtain rfl : i' = i := by rcases hw with hw | hw <;> rcases hw' with hw' | hw' <;> simp_all
      rw [Sys.setPc_self]
      exact hpc.resolve_right fun hq => hq.2 hb'
    · rwa [Sys.setPc_of_ne hpp]

omit [DecidableEq β] [Fintype β] in
/-- The test of the loop sends a process back to sleep exactly while its request is not done. -/
theorem Inv.wait {i : Nat} (h : Inv disk₀ q s) (hw : (s.pc p).waits b i) :
    Inv disk₀ q (s.wait p b i) := by
  unfold Sys.wait
  split_ifs with ht
  · exact h.setPc hw (.inl (.inl rfl)) fun _ => (h.todo_iff hw).mp ht
  · exact h.setPc hw (.inr ⟨rfl, fun hb => ht (h.todo b hb)⟩) (by simp)

/-- What one step preserves. -/
theorem Inv.step {e : Event π β δ} (h : Inv disk₀ q s) (hs : step havedisk1 s e = some s') :
    ∃ q', Inv disk₀ q' s' := by
  cases e with
  | get p b =>
    simp only [Ide.step] at hs
    split_ifs at hs with hc
    cases hs
    refine ⟨q, h.frame rfl rfl rfl rfl rfl rfl (fun _ _ _ _ => rfl) (fun p' b' i hw => ⟨hw, ?_⟩) h.asleep
      h.queued⟩
    have ho := h.owner p' b' i hw
    refine (Function.update_of_ne ?_ _ _).trans ho
    rintro rfl
    cases hc.symm.trans ho
  | put p b =>
    simp only [Ide.step] at hs
    split_ifs at hs with hc
    cases hs
    refine ⟨q, h.frame rfl rfl rfl rfl rfl rfl (fun _ _ _ _ => rfl) (fun p' b' i hw => ⟨hw, ?_⟩) h.asleep
      h.queued⟩
    refine (Function.update_of_ne ?_ _ _).trans (h.owner p' b' i hw)
    rintro rfl
    exact (h.not_mem hc.1 hc.2).1 p' i hw
  | edit p b x =>
    simp only [Ide.step] at hs
    split_ifs at hs with hc
    cases hs
    refine ⟨q, h.frame rfl rfl rfl rfl rfl rfl (fun b' p' i hw => ?_)
      (fun p' b' i hw => ⟨hw, h.owner p' b' i hw⟩) h.asleep h.queued⟩
    refine Function.update_of_ne ?_ _ _
    rintro rfl
    exact (h.not_mem hc.1 hc.2).1 p' i hw
  | iderw p b =>
    simp only [Ide.step] at hs
    split_ifs at hs with hc
    by_cases hpanic : (s.buf b).todo = false ∨ (s.buf b).dev ≠ 0 ∧ havedisk1 = false
    · rw [Sys.iderw, if_pos hpanic] at hs
      cases hs
    · have ht : (s.buf b).todo = true := by simpa using fun h => hpanic (.inl h)
      obtain ⟨queue, hholds, heq⟩ := h.iderw_eq havedisk1 hc.1 hc.2 ht fun hdev => by
        simpa using fun h => hpanic (.inr ⟨hdev, h⟩)
      rw [heq] at hs
      split_ifs at hs
      cases hs
      exact ⟨_, h.append hc.1 hc.2 ht hholds rfl rfl rfl rfl rfl rfl rfl rfl⟩
  | kick p =>
    simp only [Ide.step] at hs
    split at hs
    · rename_i b i hp
      cases hs
      exact ⟨q, h.setPc (.inl hp) (.inl (.inr rfl)) (by simp)⟩
    · cases hs
  | resume p =>
    simp only [Ide.step] at hs
    split at hs
    · rename_i b i hp
      cases hs
      exact ⟨q, h.wait (.inr hp)⟩
    · cases hs
  | intr =>
    obtain ⟨c, hc, hs⟩ := Option.bind_eq_some_iff.mp hs
    obtain ⟨b, l, -, hl, -⟩ := h.ideintr hc hs
    exact ⟨l, hl⟩

end Parts

theorem inv_init (buf : β → Buf δ) (disk₀ : Addr → δ) : Inv disk₀ [] (init buf disk₀ : Sys π β δ) where
  holds := ⟨rfl, List.nodup_nil⟩
  cmd := rfl
  started := rfl
  appended := rfl
  disk := rfl
  todo _ h := nomatch h
  queued _ h := nomatch h
  owner _ _ _ h := by rcases h with h | h <;> cases h
  asleep _ _ _ h := nomatch h
  inside _ _ _ h := by rcases h with h | h <;> cases h

/-- What the driver does for its callers. -/
structure Served [DecidableEq π] [DecidableEq β] [Fintype β] (havedisk1 : Bool) (disk₀ : Addr → δ)
    (s : Sys π β δ) : Prop where
  /-- `idequeue` is a list without repetition, with a command in progress exactly for its head; what was
  appended is what is done and then what is queued, and what was started is what is done and the head. -/
  queue : ∃ q, s.queue.Holds q ∧ (s.cmd = q.head?.map fun b => (s.buf b).cmd) ∧
    s.appended = s.completed ++ q.map s.request ∧ s.started = s.completed ++ (q.take 1).map s.request
  /-- The disk is what the requests that are done, in that order, make of it. -/
  disk : s.disk = contents disk₀ s.completed
  /-- A call of `iderw` for a held buffer with something to do, on a disk there is, appends its request
  and sleeps, unless its block is not on the disk. -/
  call : ∀ p b, s.owner b = some p → s.pc p = .idle → (s.buf b).todo = true →
    ((s.buf b).dev ≠ 0 → havedisk1 = true) → (s.buf b).blockno < fssize →
    ∃ s', step havedisk1 s (.iderw p b) = some s' ∧ s'.pc p = .asleep b s.appended.length ∧
      s'.appended = s.appended ++ [s.request b]
  /-- The interrupt completes the head of the queue, unless the next block is not on the disk. -/
  intr : ∀ b, s.queue.head = some b → (∀ b' ∈ s.queue.next b, (s.buf b').blockno < fssize) →
    ∃ s', step havedisk1 s .intr = some s' ∧ s'.completed = s.completed ++ [s.request b]
  /-- A process sleeps only while its request is appended and not done. -/
  asleep : ∀ p b i, s.pc p = .asleep b i → s.completed.length ≤ i ∧ i < s.appended.length
  /-- A woken process returns exactly if its request is done; its buffer is then as the disk was after
  the request, and has the data it had if the request was a write. -/
  back : ∀ p b i s', s.pc p = .awake b i → step havedisk1 s (.resume p) = some s' →
    (s'.pc p = .idle ↔ i < s.completed.length) ∧
    (s'.pc p = .idle → ∃ x, s.completed[i]? = some (b, x) ∧
      s'.buf b = x.synced (contents disk₀ (s.completed.take (i + 1))) ∧
      (x.dirty = true → (s'.buf b).data = x.data))

section Served
variable [DecidableEq π] [DecidableEq β] [Fintype β] {havedisk1 : Bool} {disk₀ : Addr → δ} {q : List β}
  {s : Sys π β δ}

omit [DecidableEq π] [Fintype β] in
/-- The interrupt for the head does not panic if the next block is on the disk. -/
theorem Inv.ideintr_isSome {b : β} {l : List β} (h : Inv disk₀ (b :: l) s)
    (hl : ∀ b' ∈ l.head?, (s.buf b').blockno < fssize) (c : Cmd δ) : ∃ s', s.ideintr c = some s' := by
  have hhead : s.queue.head = some b := h.holds.head
  have hnext : s.queue.next b = l.head? := h.holds.tail.head
  simp only [Sys.ideintr, hhead, Sys.complete, hnext]
  cases l with
  | nil => exact ⟨_, rfl⟩
  | cons a l =>
    have hab : a ≠ b := fun he => (List.nodup_cons.mp h.holds.nodup).1 (by simp [he])
    have ha := hl a rfl
    simp only [List.head?_cons, Sys.idestart, Function.update_of_ne hab, if_neg (Nat.not_le_of_lt ha)]
    exact ⟨_, rfl⟩

omit [DecidableEq β] [Fintype β] in
/-- What a woken process finds. -/
theorem Inv.back {p : π} {b : β} {i : Nat} (h : Inv disk₀ q s) (hw : (s.pc p).waits b i) :
    ((s.wait p b i).pc p = .idle ↔ i < s.completed.length) ∧
    ((s.wait p b i).pc p = .idle → ∃ x, s.completed[i]? = some (b, x) ∧
      s.buf b = x.synced (contents disk₀ (s.completed.take (i + 1))) ∧
      (x.dirty = true → (s.buf b).data = x.data)) := by
  have hiff : (s.wait p b i).pc p = .idle ↔ i < s.completed.length := by
    rw [Sys.wait, Sys.setPc_self, ← Nat.not_le, ← h.todo_iff hw]
    split_ifs with ht
    · simp [ht]
    · simp [ht]
  refine ⟨hiff, fun hidle => ?_⟩
  have hi := hiff.mp hidle
  obtain ⟨x, hx, hdone⟩ := h.inside p b i hw
  rw [h.appended, List.getElem?_append_left hi] at hx
  refine ⟨x, hx, hdone hi, fun hdirty => ?_⟩
  -- the request is the last of the first `i + 1`, so the disk has the data it wrote
  rw [hdone hi, List.take_add_one, hx, contents_append]
  simp [Buf.synced, contents, Buf.cmd, hdirty, Cmd.perform]

theorem Inv.served (h : Inv disk₀ q s) : Served havedisk1 disk₀ s where
  queue := ⟨q, h.holds, h.cmd, h.appended, h.started⟩
  disk := h.disk
  call p b ho hp ht hdev hfs := by
    obtain ⟨queue, -, heq⟩ := h.iderw_eq havedisk1 ho hp ht hdev
    rw [if_neg fun hc => absurd hc.2 (Nat.not_le_of_lt hfs)] at heq
    have hstep : Ide.step havedisk1 s (.iderw p b) = s.iderw havedisk1 p b := if_pos ⟨ho, hp⟩
    exact ⟨_, hstep.trans heq, Function.update_self .., rfl⟩
  intr b hb hnext := by
    rw [h.holds.head] at hb
    obtain ⟨l, rfl⟩ := List.head?_eq_some_iff.mp hb
    obtain ⟨s', hs'⟩ := h.ideintr_isSome (h.holds.tail.head ▸ hnext) (s.buf b).cmd
    have hcmd : s.cmd = some (s.buf b).cmd := h.cmd
    have hstep : Ide.step havedisk1 s .intr = some s' := by
      simp only [Ide.step, hcmd]
      exact hs'
    obtain ⟨b', l', hq, -, hcomp⟩ := h.ideintr hcmd hs'
    cases hq
    exact ⟨s', hstep, hcomp⟩
  asleep p b i hp := by
    obtain ⟨x, hx, -⟩ := h.inside p b i (.inl hp)
    exact ⟨h.asleep p b i hp, (List.getElem?_eq_some_iff.mp hx).1⟩
  back p b i s' hp hs := by
    simp only [Ide.step, hp, Option.some.injEq] at hs
    subst hs
    exact h.back (.inr hp)

end Served

/-- Disk requests are served once and in order, whatever processes, calls and interrupts came before. -/
theorem requests_served [DecidableEq π] [DecidableEq β] [Fintype β] (havedisk1 : Bool) (buf : β → Buf δ)
    (disk₀ : Addr → δ) (es : List (Event π β δ)) {s : Sys π β δ}
    (hrun : runs (step havedisk1) (init buf disk₀) es = some s) : Served havedisk1 disk₀ s := by
  obtain ⟨q, h⟩ := runs_inv_all (I := fun s => ∃ q, Inv disk₀ q s) (fun _ _ _ ⟨q, h⟩ hs => h.step hs)
    ⟨[], inv_init buf disk₀⟩ hrun
  exact h.served

/-- For the numbers of two processes and of two buffers. -/
local instance neZero_two : NeZero 2 := ⟨by decide⟩

/-- Process 0 reads block 7 into buffer 0 while process 1 writes block 8 from buffer 1; both interrupts
come, and both processes are back. -/
def readAndWrite : List (Event (Fin 2) (Fin 2) Nat) :=
  [.get 0 0, .get 1 1, .edit 0 0 ⟨false, false, 0, 7, 0⟩, .edit 1 1 ⟨true, true, 0, 8, 5⟩, .iderw 0 0,
    .iderw 1 1, .intr, .resume 0, .intr, .resume 1]

theorem readAndWrite_runs : (runs (step false)
    (init (fun _ => ⟨false, false, 0, 0, 0⟩) fun a => a.2) readAndWrite).isSome = true := by
  decide

theorem readAndWrite_served : Served false (fun a => a.2) ((runs (step false)
    (init (fun _ => ⟨false, false, 0, 0, 0⟩) fun a => a.2) readAndWrite).get readAndWrite_runs) :=
  requests_served false (fun _ => ⟨false, false, 0, 0, 0⟩) (fun a => a.2) readAndWrite
    (Option.some_get readAndWrite_runs).symm

end Xv6.Ide
