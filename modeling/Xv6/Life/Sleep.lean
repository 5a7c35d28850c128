import Xv6.Lib.Runs
import Xv6.Sched.Table

/-!
# Life — sleep and wakeup

Consumers and producers of a counter behind a lock `lk`, as in `sleep1.p`, with the steps of `sleep`,
`wakeup` and `wakeup1` of `proc.c` between them: every `acquire`, `release`, test, and store to
`proc->chan` and `proc->state`, and every round of `wakeup1`'s loop, is a step.  `lk` may be
`ptable.lock` itself.  A producer calls `wakeup` before or after (`late`) it releases `lk`.

A consumer that found the counter 0 has `lk` until it has `ptable.lock`, and `ptable.lock` until it is
`SLEEPING`.  So if the counter is not 0 any more, whoever incremented it still has to go through the
table, and will find the consumer there (`Inv.owed`).
-/

namespace Xv6.Sleep
open Lib
open Sched (ProcState)

inductive Lock where
  | other
  | ptable
  deriving DecidableEq, Repr

/-- Where a process stands. -/
inductive Pc (n : Nat) where
  | idle
  /-- a consumer with `lk`: before its test, before it decrements, before it releases `lk` -/
  | test
  | dec
  | leave
  /-- `sleep`: before `acquire(&ptable.lock)` and before `release(lk)` -/
  | handOver
  | giveLk
  /-- before `proc->chan = chan`, before `proc->state = SLEEPING`, and before `sched()`, in which
  another context releases `ptable.lock` -/
  | setChan
  | setState
  | sched
  | asleep
  /-- before `proc->chan = 0`, before `release(&ptable.lock)` and before `acquire(lk)` -/
  | tidy
  | givePtable
  | reacquire
  /-- a producer with `lk`, before it increments -/
  | inc (late : Bool)
  /-- before the `release(lk)` in front of `wakeup` -/
  | giveFirst
  /-- `wakeup`: before `acquire(&ptable.lock)`, in the loop, and before `release(&ptable.lock)` -/
  | wake (late : Bool)
  | loop (late : Bool) (rest : List (Fin n))
  | wakeEnd (late : Bool)
  /-- before the `release(lk)` after `wakeup` -/
  | done
  deriving DecidableEq, Repr

structure Sys (n : Nat) where
  value : Nat
  held : Lock → Option (Fin n)
  state : Fin n → ProcState
  /-- `proc->chan` is `chan` -/
  chan : Fin n → Bool
  pc : Fin n → Pc n

inductive Event (n : Nat) where
  | consume (p : Fin n)
  | produce (p : Fin n) (late : Bool)
  | next (p : Fin n)

variable {n : Nat}

namespace Sys

def setPc (s : Sys n) (p : Fin n) (pc : Pc n) : Sys n := { s with pc := Function.update s.pc p pc }

def acquire (s : Sys n) (k : Lock) (p : Fin n) : Sys n :=
  { s with held := Function.update s.held k (some p) }

def release (s : Sys n) (k : Lock) : Sys n := { s with held := Function.update s.held k none }

/-- One round of `wakeup1`'s loop. -/
def wakeSlot (s : Sys n) (x : Fin n) : Sys n :=
  if s.state x = .sleeping ∧ s.chan x = true then
    { s with state := Function.update s.state x .runnable }
  else s

/-- The next step of a process; `l` is the lock `lk`. -/
def next (l : Lock) (s : Sys n) (p : Fin n) : Option (Sys n) :=
  match s.pc p with
  | .idle => none
  | .test =>
      some (s.setPc p (if s.value = 0 then if l = .ptable then .setChan else .handOver else .dec))
  | .dec => some { s.setPc p .leave with value := s.value - 1 }
  | .leave => some ((s.release l).setPc p .idle)
  | .handOver =>
      if s.held .ptable = none then some ((s.acquire .ptable p).setPc p .giveLk) else none
  | .giveLk => some ((s.release l).setPc p .setChan)
  | .setChan => some { s.setPc p .setState with chan := Function.update s.chan p true }
  | .setState => some { s.setPc p .sched with state := Function.update s.state p .sleeping }
  | .sched => some ((s.release .ptable).setPc p .asleep)
  | .asleep =>
      if s.state p = .runnable ∧ s.held .ptable = none then
        some { (s.acquire .ptable p).setPc p .tidy with state := Function.update s.state p .running }
      else none
  | .tidy => some { s.setPc p (if l = .ptable then .test else .givePtable) with
      chan := Function.update s.chan p false }
  | .givePtable => some ((s.release .ptable).setPc p .reacquire)
  | .reacquire => if s.held l = none then some ((s.acquire l p).setPc p .test) else none
  | .inc late => some { s.setPc p (if late then .giveFirst
        else if l = .ptable then .loop false (List.finRange n) else .wake false) with
      value := s.value + 1 }
  | .giveFirst => some ((s.release l).setPc p (.wake true))
  | .wake late =>
      if s.held .ptable = none then
        some ((s.acquire .ptable p).setPc p (.loop late (List.finRange n)))
      else none
  | .loop late [] => some (s.setPc p (if late = false ∧ l = .ptable then .done else .wakeEnd late))
  | .loop late (x :: rest) => some ((s.wakeSlot x).setPc p (.loop late rest))
  | .wakeEnd late => some ((s.release .ptable).setPc p (if late then .idle else .done))
  | .done => some ((s.release l).setPc p .idle)

end Sys

def step (l : Lock) (s : Sys n) : Event n → Option (Sys n)
  | .consume p =>
      if s.pc p = .idle ∧ s.held l = none then some ((s.acquire l p).setPc p .test) else none
  | .produce p late =>
      if s.pc p = .idle ∧ s.held l = none then some ((s.acquire l p).setPc p (.inc late)) else none
  | .next p => s.next l p

def init (n value : Nat) : Sys n := ⟨value, fun _ => none, fun _ => .running, fun _ => false, fun _ => .idle⟩

namespace Pc

/-- The process has the lock. -/
def holds (l k : Lock) : Pc n → Prop
  | .test | .dec | .leave | .handOver | .inc _ | .giveFirst | .done => k = l
  | .giveLk => k = l ∨ k = .ptable
  | .setChan | .setState | .sched | .tidy | .givePtable => k = .ptable
  | .wake late => late = false ∧ k = l
  | .loop late _ | .wakeEnd late => k = .ptable ∨ late = false ∧ k = l
  | _ => False

/-- Where a process gets only if `lk` is not `ptable.lock`. -/
def apart : Pc n → Prop
  | .handOver | .giveLk | .givePtable | .reacquire | .wake false | .wakeEnd false => True
  | _ => False

/-- A consumer that has `lk` since it found the counter 0. -/
def sure (l : Lock) : Pc n → Prop
  | .handOver | .giveLk => True
  | .setChan | .setState => l = .ptable
  | _ => False

/-- The process has incremented the counter, and its `wakeup` will get to slot `q`. -/
def owes (q : Fin n) : Pc n → Prop
  | .giveFirst | .wake _ => True
  | .loop _ rest => q ∈ rest
  | _ => False

/-- Between the increment and the end of the loop of the `wakeup` after it. -/
def waking : Pc n → Prop
  | .giveFirst | .wake _ | .loop _ _ => True
  | _ => False

instance (pc : Pc n) : Decidable pc.waking := by
  cases pc <;> unfold waking <;> infer_instance

end Pc

/-- `SLEEPING`, or on the way there without `lk`. -/
def Sys.Bound (s : Sys n) (q : Fin n) : Prop :=
  s.pc q = .setChan ∨ s.pc q = .setState ∨ s.state q = .sleeping

structure Inv (l : Lock) (s : Sys n) : Prop where
  locks : ∀ p k, (s.pc p).holds l k → s.held k = some p
  apart : ∀ p, (s.pc p).apart → l ≠ .ptable
  dec : ∀ p, s.pc p = .dec → 0 < s.value
  sure : ∀ p, (s.pc p).sure l → s.value = 0
  sleeping : ∀ p, s.state p = .sleeping → (s.pc p = .sched ∨ s.pc p = .asleep) ∧ s.chan p = true
  chan : ∀ p, s.pc p = .setState → s.chan p = true
  owed : ∀ q, s.Bound q → 0 < s.value → ∃ r, (s.pc r).owes q

section Parts
variable {l : Lock} {s s' : Sys n} {p q : Fin n} {pc : Pc n}

theorem Inv.only (h : Inv l s) {k : Lock} (hp : (s.pc p).holds l k) (hq : (s.pc q).holds l k) : q = p :=
  Option.some.inj ((h.locks q k hq).symm.trans (h.locks p k hp))

theorem Pc.sure_holds (h : pc.sure l) : pc.holds l l := by
  cases pc <;> first | exact absurd h id | skip
  · rfl
  · exact .inl rfl
  · exact h
  · exact h

/-- A step that changes the counter only while the process has `lk`. -/
theorem Inv.move (h : Inv l s) (hpc : s'.pc = Function.update s.pc p pc)
    (hself : ∀ k, pc.holds l k → s'.held k = some p)
    (hother : ∀ q k, q ≠ p → (s.pc q).holds l k → s'.held k = s.held k)
    (hvalue : s'.value = s.value ∨ (s.pc p).holds l l) (hapart : pc.apart → l ≠ .ptable)
    (hdec : pc = .dec → 0 < s'.value) (hsure : pc.sure l → s'.value = 0)
    (hsleeping : ∀ q, s'.state q = .sleeping →
      (s'.pc q = .sched ∨ s'.pc q = .asleep) ∧ s'.chan q = true)
    (hchan : ∀ q, s'.pc q = .setState → s'.chan q = true)
    (howed : ∀ q, s'.Bound q → 0 < s'.value → ∃ r, (s'.pc r).owes q) : Inv l s' := by
  have hp : s'.pc p = pc := by rw [hpc, Function.update_self]
  have hq : ∀ q, q ≠ p → s'.pc q = s.pc q := fun q hne => by rw [hpc, Function.update_of_ne hne]
  -- the counter does not change under a process that has `lk`
  have hval : ∀ q, q ≠ p → (s.pc q).holds l l → s'.value = s.value := fun q hne hl =>
    hvalue.resolve_right fun hpl => hne (h.only hpl hl)
  refine ⟨fun q k hk => ?_, fun q hk => ?_, fun q hk => ?_, fun q hk => ?_, hsleeping, hchan, howed⟩
  all_goals by_cases hne : q = p
  · subst hne
    rw [hp] at hk
    exact hself k hk
  · rw [hq q hne] at hk
    rw [hother q k hne hk]
    exact h.locks q k hk
  · subst hne
    rw [hp] at hk
    exact hapart hk
  · rw [hq q hne] at hk
    exact h.apart q hk
  · subst hne
    rw [hp] at hk
    exact hdec hk
  · rw [hq q hne] at hk
    rw [hval q hne (by rw [hk]; rfl)]
    exact h.dec q hk
  · subst hne
    rw [hp] at hk
    exact hsure hk
  · rw [hq q hne] at hk
    rw [hval q hne (Pc.sure_holds hk)]
    exact h.sure q hk

/-- What another process owes, and what this one owes still. -/
theorem Inv.owed_of (h : Inv l s) (hpc : s'.pc = Function.update s.pc p pc) (hq : s.Bound q)
    (hv : 0 < s.value) (howes : (s.pc p).owes q → pc.owes q) : ∃ r, (s'.pc r).owes q := by
  obtain ⟨r, hr⟩ := h.owed q hq hv
  refine ⟨r, ?_⟩
  rw [hpc]
  by_cases hrp : r = p
  · subst hrp
    rw [Function.update_self]
    exact howes hr
  · rwa [Function.update_of_ne hrp]

/-- Who is on the way to sleep after a step was so before it. -/
theorem Sys.Bound.of_pc (hq : s'.Bound q) (hpc : s'.pc = Function.update s.pc p pc)
    (hself : pc = .setChan ∨ pc = .setState → s.Bound p)
    (hstate : s'.state q = .sleeping → s.state q = .sleeping) : s.Bound q := by
  unfold Sys.Bound at hq
  rw [hpc] at hq
  by_cases hne : q = p
  · subst hne
    rw [Function.update_self, ← or_assoc] at hq
    exact hq.elim hself fun hs => .inr (.inr (hstate hs))
  · rw [Function.update_of_ne hne] at hq
    exact hq.imp_right (Or.imp_right hstate)

/-- A step that changes nothing but locks. -/
theorem Inv.quiet (h : Inv l s) (hpc : s'.pc = Function.update s.pc p pc)
    (hself : ∀ k, pc.holds l k → s'.held k = some p)
    (hother : ∀ q k, q ≠ p → (s.pc q).holds l k → s'.held k = s.held k)
    (hvalue : s'.value = s.value) (hstate : s'.state = s.state) (hchan : s'.chan = s.chan)
    (hapart : pc.apart → l ≠ .ptable) (hdec : pc = .dec → 0 < s.value) (hsure : pc.sure l → s.value = 0)
    (hsleep : s.pc p = .sched ∨ s.pc p = .asleep → pc = .asleep) (hset : pc ≠ .setState)
    (hbound : pc = .setChan → s.value = 0) (howes : ∀ q, (s.pc p).owes q → pc.owes q) : Inv l s' := by
  have hp : s'.pc p = pc := by rw [hpc, Function.update_self]
  have hq : ∀ q, q ≠ p → s'.pc q = s.pc q := fun q hne => by rw [hpc, Function.update_of_ne hne]
  refine h.move hpc hself hother (.inl hvalue) hapart (by rw [hvalue]; exact hdec)
    (by rw [hvalue]; exact hsure) (fun q hs => ?_) (fun q hs => ?_) fun q hs hv => ?_
  · rw [hstate] at hs
    obtain ⟨hpcq, hc⟩ := h.sleeping q hs
    rw [hchan]
    refine ⟨?_, hc⟩
    by_cases hne : q = p
    · subst hne
      rw [hp]
      exact .inr (hsleep hpcq)
    · rwa [hq q hne]
  · by_cases hne : q = p
    · subst hne
      exact absurd (hp.symm.trans hs) hset
    · rw [hq q hne] at hs
      rw [hchan]
      exact h.chan q hs
  · rw [hvalue] at hv
    refine h.owed_of hpc (hs.of_pc hpc (fun he => ?_) fun hs => hstate ▸ hs) hv (howes q)
    exact absurd (hbound (he.resolve_right hset)) hv.ne'

theorem Inv.acquire (h : Inv l s) {k : Lock} (hfree : s.held k = none)
    (hself : ∀ k', pc.holds l k' → k' = k ∨ (s.pc p).holds l k') (hapart : pc.apart → l ≠ .ptable)
    (hdec : pc ≠ .dec) (hsure : pc.sure l → s.value = 0)
    (hsleep : s.pc p ≠ .sched ∧ s.pc p ≠ .asleep) (hset : pc ≠ .setState ∧ pc ≠ .setChan)
    (howes : ∀ q, (s.pc p).owes q → pc.owes q) : Inv l ((s.acquire k p).setPc p pc) := by
  refine h.quiet rfl (fun k' hk' => ?_) (fun q k' _ hk' => ?_) rfl rfl rfl hapart
    (fun he => absurd he hdec) hsure (fun he => absurd he (by tauto)) hset.1
    (fun he => absurd he hset.2) howes
  · show Function.update s.held k (some p) k' = _
    by_cases hkk : k' = k
    · rw [hkk, Function.update_self]
    · rw [Function.update_of_ne hkk]
      exact h.locks p k' ((hself k' hk').resolve_left hkk)
  · show Function.update s.held k (some p) k' = _
    refine Function.update_of_ne ?_ _ _
    rintro rfl
    rw [h.locks q k' hk'] at hfree
    cases hfree

theorem Inv.release (h : Inv l s) {k : Lock} (hk : (s.pc p).holds l k)
    (hself : ∀ k', pc.holds l k' → k' ≠ k ∧ (s.pc p).holds l k') (hapart : pc.apart → l ≠ .ptable)
    (hdec : pc ≠ .dec) (hsure : pc.sure l → s.value = 0)
    (hsleep : s.pc p = .sched ∨ s.pc p = .asleep → pc = .asleep) (hset : pc ≠ .setState)
    (hbound : pc = .setChan → s.value = 0) (howes : ∀ q, (s.pc p).owes q → pc.owes q) :
    Inv l ((s.release k).setPc p pc) := by
  refine h.quiet rfl (fun k' hk' => ?_) (fun q k' hne hk' => ?_) rfl rfl rfl hapart
    (fun he => absurd he hdec) hsure hsleep hset hbound howes
  · obtain ⟨hkk, hold⟩ := hself k' hk'
    exact (Function.update_of_ne hkk _ _).trans (h.locks p k' hold)
  · refine Function.update_of_ne ?_ _ _
    rintro rfl
    exact hne (h.only hk hk')

/-- The end of a call. -/
theorem Inv.release_idle (h : Inv l s) {k : Lock} (hk : (s.pc p).holds l k)
    (hsleep : s.pc p ≠ .sched ∧ s.pc p ≠ .asleep) (howes : ∀ q, ¬ (s.pc p).owes q) :
    Inv l ((s.release k).setPc p .idle) :=
  h.release hk (fun _ hk' => hk'.elim) (fun ha => ha.elim) nofun (fun hs => hs.elim)
    (fun he => absurd he (by tauto)) nofun nofun fun q hq => absurd hq (howes q)

/-- A process that is not asleep is not `SLEEPING`. -/
theorem Inv.ne_of_sleeping (h : Inv l s) (hq : s.state q = .sleeping) (h1 : s.pc p ≠ .sched)
    (h2 : s.pc p ≠ .asleep) : q ≠ p := by
  rintro rfl
  exact (h.sleeping q hq).1.elim h1 h2

/-- A step after which the process is neither asleep nor on the way there leaves the sleepers as they
were. -/
theorem Inv.sleeping_of (h : Inv l s) (hpc : s'.pc = Function.update s.pc p pc)
    (hstate : ∀ q, s'.state q = .sleeping → s.state q = .sleeping ∧ q ≠ p)
    (hchan : ∀ q, q ≠ p → s'.chan q = s.chan q) (q : Fin n) (hq : s'.state q = .sleeping) :
    (s'.pc q = .sched ∨ s'.pc q = .asleep) ∧ s'.chan q = true := by
  obtain ⟨hs, hne⟩ := hstate q hq
  rw [hpc, Function.update_of_ne hne, hchan q hne]
  exact h.sleeping q hs

theorem Inv.chan_of (h : Inv l s) (hpc : s'.pc = Function.update s.pc p pc) (hset : pc ≠ .setState)
    (hchan : ∀ q, q ≠ p → s'.chan q = s.chan q) (q : Fin n) (hq : s'.pc q = .setState) :
    s'.chan q = true := by
  rw [hpc] at hq
  by_cases hne : q = p
  · subst hne
    rw [Function.update_self] at hq
    exact absurd hq hset
  · rw [Function.update_of_ne hne] at hq
    rw [hchan q hne]
    exact h.chan q hq

theorem Inv.next_test (h : Inv l s) (hpc : s.pc p = .test) : Inv l (s.setPc p
    (if s.value = 0 then if l = .ptable then .setChan else .handOver else .dec)) := by
  have hl := h.locks p l (by rw [hpc]; rfl)
  split_ifs with hv hp
  · refine h.quiet rfl (fun k hk => ?_) (fun _ _ _ _ => rfl) rfl rfl rfl (by simp [Pc.apart])
      (by simp) (fun _ => hv) (by simp [hpc]) (by simp) (fun _ => hv) (by simp [hpc, Pc.owes])
    rw [show k = l from hk.trans hp.symm]
    exact hl
  · refine h.quiet rfl (fun k hk => ?_) (fun _ _ _ _ => rfl) rfl rfl rfl (fun _ => hp)
      (by simp) (fun _ => hv) (by simp [hpc]) (by simp) (fun _ => hv) (by simp [hpc, Pc.owes])
    rw [show k = l from hk]
    exact hl
  · refine h.quiet rfl (fun k hk => ?_) (fun _ _ _ _ => rfl) rfl rfl rfl (by simp [Pc.apart])
      (fun _ => Nat.pos_of_ne_zero hv) (by simp [Pc.sure]) (by simp [hpc]) (by simp) (by simp)
      (by simp [hpc, Pc.owes])
    rw [show k = l from hk]
    exact hl

theorem Inv.next_dec (h : Inv l s) (hpc : s.pc p = .dec) :
    Inv l { s.setPc p .leave with value := s.value - 1 } := by
  have hl : (s.pc p).holds l l := by rw [hpc]; rfl
  refine h.move rfl (fun k hk => ?_) (fun _ _ _ _ => rfl) (.inr hl) (by simp [Pc.apart]) (by simp)
    (by simp [Pc.sure]) (h.sleeping_of rfl (fun q hq => ⟨hq, ?_⟩) fun _ _ => rfl)
    (h.chan_of rfl (by simp) fun _ _ => rfl) fun q hq hv => ?_
  · rw [show k = l from hk]
    exact h.locks p l hl
  · exact h.ne_of_sleeping hq (by simp [hpc]) (by simp [hpc])
  · exact h.owed_of rfl (hq.of_pc rfl (by simp) id) (hv.trans_le (Nat.sub_le _ _))
      (by simp [hpc, Pc.owes])

theorem Inv.next_inc (h : Inv l s) {late : Bool} (hpc : s.pc p = .inc late)
    (hself : ∀ k, pc.holds l k → k = l) (hapart : pc.apart → l ≠ .ptable) (hdec : pc ≠ .dec)
    (hsure : ¬ pc.sure l) (hset : pc ≠ .setState) (howes : ∀ q, pc.owes q) :
    Inv l { s.setPc p pc with value := s.value + 1 } := by
  have hl : (s.pc p).holds l l := by rw [hpc]; rfl
  refine h.move rfl (fun k hk => ?_) (fun _ _ _ _ => rfl) (.inr hl) hapart
    (fun he => absurd he hdec) (fun he => absurd he hsure)
    (h.sleeping_of rfl (fun q hq => ⟨hq, ?_⟩) fun _ _ => rfl)
    (h.chan_of rfl hset fun _ _ => rfl) fun q _ _ => ⟨p, ?_⟩
  · rw [hself k hk]
    exact h.locks p l hl
  · exact h.ne_of_sleeping hq (by simp [hpc]) (by simp [hpc])
  · show (Function.update s.pc p pc p).owes q
    rw [Function.update_self]
    exact howes q

theorem Inv.next_setChan (h : Inv l s) (hpc : s.pc p = .setChan) :
    Inv l { s.setPc p .setState with chan := Function.update s.chan p true } := by
  have hlock := h.locks p .ptable (by rw [hpc]; rfl)
  refine h.move rfl (fun k hk => ?_) (fun _ _ _ _ => rfl) (.inl rfl) (by simp [Pc.apart]) (by simp)
    (fun hl => h.sure p (by rw [hpc]; exact hl))
    (h.sleeping_of rfl (fun q hq => ⟨hq, ?_⟩) fun q hne => Function.update_of_ne hne _ _)
    (fun q hq => ?_) fun q hq hv =>
      h.owed_of rfl (hq.of_pc rfl (fun _ => .inl hpc) id) hv (by simp [hpc, Pc.owes])
  · rw [show k = .ptable from hk]
    exact hlock
  · exact h.ne_of_sleeping hq (by simp [hpc]) (by simp [hpc])
  · show Function.update s.chan p true q = true
    by_cases hne : q = p
    · rw [hne, Function.update_self]
    · rw [Function.update_of_ne hne]
      exact h.chan q ((Function.update_of_ne hne _ _).symm.trans hq)

theorem Inv.next_setState (h : Inv l s) (hpc : s.pc p = .setState) :
    Inv l { s.setPc p .sched with state := Function.update s.state p .sleeping } := by
  have hlock := h.locks p .ptable (by rw [hpc]; rfl)
  refine h.move rfl (fun k hk => ?_) (fun _ _ _ _ => rfl) (.inl rfl) (by simp [Pc.apart]) (by simp)
    (by simp [Pc.sure]) (fun q hq => ?_) (h.chan_of rfl (by simp) fun _ _ => rfl)
    fun q hq hv => h.owed_of rfl ?_ hv (by simp [hpc, Pc.owes])
  · rw [show k = .ptable from hk]
    exact hlock
  · by_cases hne : q = p
    · subst hne
      exact ⟨.inl (Function.update_self ..), h.chan q hpc⟩
    · have hs : s.state q = .sleeping := (Function.update_of_ne hne _ _).symm.trans hq
      show (Function.update s.pc p .sched q = _ ∨ Function.update s.pc p .sched q = _) ∧ _
      rw [Function.update_of_ne hne]
      exact h.sleeping q hs
  · by_cases hne : q = p
    · exact .inr (.inl (hne ▸ hpc))
    · exact hq.of_pc rfl (by simp) fun hs => (Function.update_of_ne hne _ _).symm.trans hs

theorem Inv.next_asleep (h : Inv l s) (hpc : s.pc p = .asleep) (hfree : s.held .ptable = none) :
    Inv l { (s.acquire .ptable p).setPc p .tidy with
      state := Function.update s.state p .running } := by
  have hstate : ∀ q, Function.update s.state p .running q = .sleeping →
      s.state q = .sleeping ∧ q ≠ p := by
    intro q hq
    by_cases hne : q = p
    · rw [hne, Function.update_self] at hq
      cases hq
    · exact ⟨(Function.update_of_ne hne _ _).symm.trans hq, hne⟩
  refine h.move rfl (fun k hk => ?_) (fun q k _ hk => Function.update_of_ne ?_ _ _) (.inl rfl)
    (by simp [Pc.apart]) (by simp) (by simp [Pc.sure]) (h.sleeping_of rfl hstate fun _ _ => rfl)
    (h.chan_of rfl (by simp) fun _ _ => rfl)
    fun q hq hv => h.owed_of rfl (hq.of_pc rfl (by simp) fun hs => (hstate q hs).1) hv
      (by simp [hpc, Pc.owes])
  · rw [show k = .ptable from hk]
    exact Function.update_self Lock.ptable (some p) s.held
  · rintro rfl
    rw [h.locks q _ hk] at hfree
    cases hfree

theorem Inv.next_tidy (h : Inv l s) (hpc : s.pc p = .tidy) :
    Inv l { s.setPc p (if l = .ptable then .test else .givePtable) with
      chan := Function.update s.chan p false } := by
  have hlock := h.locks p .ptable (by rw [hpc]; rfl)
  refine h.move rfl (fun k hk => ?_) (fun _ _ _ _ => rfl) (.inl rfl) ?_ (by split_ifs <;> simp)
    (by split_ifs <;> simp [Pc.sure])
    (h.sleeping_of rfl (fun q hq => ⟨hq, ?_⟩) fun q hne => Function.update_of_ne hne _ _)
    (h.chan_of rfl (by split_ifs <;> simp) fun q hne => Function.update_of_ne hne _ _)
    fun q hq hv => h.owed_of rfl (hq.of_pc rfl (by split_ifs <;> simp) id) hv (by simp [hpc, Pc.owes])
  · split_ifs at hk with hl
    · rw [show k = .ptable from hk.trans hl]
      exact hlock
    · rw [show k = .ptable from hk]
      exact hlock
  · split_ifs with hl
    · exact False.elim
    · exact fun _ => hl
  · exact h.ne_of_sleeping hq (by simp [hpc]) (by simp [hpc])

/-- After its round the slot is not `SLEEPING` on `chan`. -/
theorem Inv.wakeSlot_sleeping (h : Inv l s) {x : Fin n} (hq : (s.wakeSlot x).state q = .sleeping) :
    s.state q = .sleeping ∧ q ≠ x := by
  unfold Sys.wakeSlot at hq
  split_ifs at hq with hx
  · by_cases hne : q = x
    · rw [hne] at hq
      cases (Function.update_self (f := s.state) x ProcState.runnable).symm.trans hq
    · exact ⟨(Function.update_of_ne hne _ _).symm.trans hq, hne⟩
  · refine ⟨hq, ?_⟩
    rintro rfl
    exact hx ⟨hq, (h.sleeping q hq).2⟩

/-- While a process has `ptable.lock`, only those that sleep are on the way. -/
theorem Inv.sleeping_of_bound (h : Inv l s) (hpt : (s.pc p).holds l .ptable)
    (hne : s.pc p ≠ .setChan ∧ s.pc p ≠ .setState) (hpc : s'.pc = s.pc) (hq : s'.Bound q) :
    s'.state q = .sleeping := by
  unfold Sys.Bound at hq
  rw [hpc] at hq
  rcases hq with hq | hq | hq
  · have hqp : q = p := h.only hpt (by rw [hq]; rfl)
    exact absurd (hqp ▸ hq) hne.1
  · have hqp : q = p := h.only hpt (by rw [hq]; rfl)
    exact absurd (hqp ▸ hq) hne.2
  · exact hq

theorem Inv.next_loop (h : Inv l s) {late : Bool} {x : Fin n} {rest : List (Fin n)}
    (hpc : s.pc p = .loop late (x :: rest)) :
    Inv l ((s.wakeSlot x).setPc p (.loop late rest)) := by
  have hw : (s.wakeSlot x).pc = s.pc ∧ (s.wakeSlot x).held = s.held ∧
      (s.wakeSlot x).value = s.value ∧ (s.wakeSlot x).chan = s.chan := by
    unfold Sys.wakeSlot
    split_ifs <;> exact ⟨rfl, rfl, rfl, rfl⟩
  have hupd : ((s.wakeSlot x).setPc p (.loop late rest)).pc =
      Function.update s.pc p (.loop late rest) := congrArg (Function.update · p _) hw.1
  have hself : ∀ k, (Pc.loop late rest : Pc n).holds l k → (s.pc p).holds l k := by
    intro k hk
    rw [hpc]
    exact hk
  refine h.move hupd (fun k hk => ?_) (fun _ k _ _ => congrFun hw.2.1 k) (.inl hw.2.2.1)
    (by simp [Pc.apart]) (by simp) (by simp [Pc.sure])
    (h.sleeping_of hupd (fun q hq => ?_) fun q _ => congrFun hw.2.2.2 q)
    (h.chan_of hupd (by simp) fun q _ => congrFun hw.2.2.2 q) fun q hq hv => ?_
  · exact (congrFun hw.2.1 k).trans (h.locks p k (hself k hk))
  · have hs := (h.wakeSlot_sleeping hq).1
    exact ⟨hs, h.ne_of_sleeping hs (by simp [hpc]) (by simp [hpc])⟩
  · have hb : s.Bound q := hq.of_pc hupd (by simp) fun hs => (h.wakeSlot_sleeping hs).1
    refine h.owed_of hupd hb (hw.2.2.1 ▸ hv) fun ho => ?_
    -- a process on its way to sleep would have `ptable.lock`, which the loop has
    have hpt : (s.pc p).holds l .ptable := by
      rw [hpc]
      exact .inl rfl
    have hslot : (s.wakeSlot x).Bound q := hq.of_pc rfl (by simp) id
    have hqx := (h.wakeSlot_sleeping (h.sleeping_of_bound hpt (by simp [hpc]) hw.1 hslot)).2
    rw [hpc] at ho
    exact (List.mem_cons.mp ho).resolve_left hqx

/-- What one step of a process preserves. -/
theorem Inv.next (h : Inv l s) (hs : s.next l p = some s') : Inv l s' := by
  unfold Sys.next at hs
  cases hpc : s.pc p with
  | idle =>
    simp only [hpc] at hs
    cases hs
  | test =>
    simp only [hpc] at hs
    cases hs
    exact h.next_test hpc
  | dec =>
    simp only [hpc] at hs
    cases hs
    exact h.next_dec hpc
  | leave =>
    simp only [hpc] at hs
    cases hs
    exact h.release_idle (by rw [hpc]; rfl) (by simp [hpc]) (by simp [hpc, Pc.owes])
  | handOver =>
    simp only [hpc] at hs
    split_ifs at hs with hfree
    cases hs
    exact h.acquire hfree (by simp [hpc, Pc.holds, or_comm])
      (fun _ => h.apart p (by rw [hpc]; trivial)) (by simp)
      (fun _ => h.sure p (by rw [hpc]; trivial)) (by simp [hpc]) (by simp) (by simp [hpc, Pc.owes])
  | giveLk =>
    simp only [hpc] at hs
    cases hs
    have hl : l ≠ .ptable := h.apart p (by rw [hpc]; trivial)
    have hv : s.value = 0 := h.sure p (by rw [hpc]; trivial)
    exact h.release (by rw [hpc]; exact .inl rfl) (by simp [hpc, Pc.holds, hl.symm])
      (by simp [Pc.apart]) (by simp) (fun _ => hv) (by simp [hpc]) (by simp) (fun _ => hv)
      (by simp [hpc, Pc.owes])
  | setChan =>
    simp only [hpc] at hs
    cases hs
    exact h.next_setChan hpc
  | setState =>
    simp only [hpc] at hs
    cases hs
    exact h.next_setState hpc
  | sched =>
    simp only [hpc] at hs
    cases hs
    exact h.release (by rw [hpc]; rfl) (by simp [Pc.holds]) (by simp [Pc.apart]) (by simp)
      (by simp [Pc.sure]) (fun _ => rfl) (by simp) (by simp) (by simp [hpc, Pc.owes])
  | asleep =>
    simp only [hpc] at hs
    split_ifs at hs with hfree
    cases hs
    exact h.next_asleep hpc hfree.2
  | tidy =>
    simp only [hpc] at hs
    cases hs
    exact h.next_tidy hpc
  | givePtable =>
    simp only [hpc] at hs
    cases hs
    exact h.release (by rw [hpc]; rfl) (by simp [Pc.holds])
      (fun _ => h.apart p (by rw [hpc]; trivial)) (by simp) (by simp [Pc.sure]) (by simp [hpc])
      (by simp) (by simp) (by simp [hpc, Pc.owes])
  | reacquire =>
    simp only [hpc] at hs
    split_ifs at hs with hfree
    cases hs
    exact h.acquire hfree (fun _ hk => .inl hk) (by simp [Pc.apart]) (by simp) (by simp [Pc.sure])
      (by simp [hpc]) (by simp) (by simp [hpc, Pc.owes])
  | inc late =>
    simp only [hpc] at hs
    cases hs
    split_ifs with hlate hl
    · exact h.next_inc hpc (fun _ hk => hk) (by simp [Pc.apart]) (by simp) (by simp [Pc.sure])
        (by simp) fun _ => trivial
    · exact h.next_inc hpc (by simp [Pc.holds, hl]) (by simp [Pc.apart]) (by simp) (by simp [Pc.sure])
        (by simp) fun _ => List.mem_finRange _
    · exact h.next_inc hpc (fun _ hk => hk.2) (fun _ => hl) (by simp) (by simp [Pc.sure])
        (by simp) fun _ => trivial
  | giveFirst =>
    simp only [hpc] at hs
    cases hs
    exact h.release (by rw [hpc]; rfl) (by simp [Pc.holds]) (by simp [Pc.apart]) (by simp)
      (by simp [Pc.sure]) (by simp [hpc]) (by simp) (by simp) fun _ _ => trivial
  | wake late =>
    simp only [hpc] at hs
    split_ifs at hs with hfree
    cases hs
    exact h.acquire hfree (by simp [hpc, Pc.holds]) (by simp [Pc.apart]) (by simp)
      (by simp [Pc.sure]) (by simp [hpc]) (by simp) fun _ _ => List.mem_finRange _
  | loop late todo =>
    cases todo with
    | nil =>
      simp only [hpc] at hs
      cases hs
      split_ifs with hc
      · refine h.quiet rfl (fun k hk => h.locks p k ?_) (fun _ _ _ _ => rfl) rfl rfl rfl
          (by simp [Pc.apart]) (by simp) (by simp [Pc.sure]) (by simp [hpc]) (by simp) (by simp)
          (by simp [hpc, Pc.owes])
        rw [hpc]
        exact .inr ⟨hc.1, hk⟩
      · refine h.quiet rfl (fun k hk => h.locks p k (hpc ▸ hk)) (fun _ _ _ _ => rfl) rfl rfl rfl ?_
          (by simp) (by simp [Pc.sure]) (by simp [hpc]) (by simp) (by simp) (by simp [hpc, Pc.owes])
        cases late
        · exact fun _ hl => hc ⟨rfl, hl⟩
        · exact False.elim
    | cons x rest =>
      simp only [hpc] at hs
      cases hs
      exact h.next_loop hpc
  | wakeEnd late =>
    simp only [hpc] at hs
    cases hs
    have hpt : (s.pc p).holds l .ptable := by
      rw [hpc]
      exact .inl rfl
    cases late
    · have hl : l ≠ .ptable := h.apart p (by rw [hpc]; trivial)
      exact h.release hpt (by simp [hpc, Pc.holds, hl]) (by simp [Pc.apart]) (by simp)
        (by simp [Pc.sure]) (by simp [hpc]) (by simp) (by simp) (by simp [hpc, Pc.owes])
    · exact h.release_idle hpt (by simp [hpc]) (by simp [hpc, Pc.owes])
  | done =>
    simp only [hpc] at hs
    cases hs
    exact h.release_idle (by rw [hpc]; rfl) (by simp [hpc]) (by simp [hpc, Pc.owes])

/-- What one event preserves. -/
theorem Inv.step {e : Event n} (h : Inv l s) (hs : step l s e = some s') : Inv l s' := by
  cases e with
  | consume p =>
    simp only [Sleep.step] at hs
    split_ifs at hs with hc
    cases hs
    exact h.acquire hc.2 (fun _ hk => .inl hk) (by simp [Pc.apart]) (by simp) (by simp [Pc.sure])
      (by simp [hc.1]) (by simp) (by simp [hc.1, Pc.owes])
  | produce p late =>
    simp only [Sleep.step] at hs
    split_ifs at hs with hc
    cases hs
    exact h.acquire hc.2 (fun _ hk => .inl hk) (by simp [Pc.apart]) (by simp) (by simp [Pc.sure])
      (by simp [hc.1]) (by simp) (by simp [hc.1, Pc.owes])
  | next p => exact h.next hs

end Parts

theorem inv_init (l : Lock) (n value : Nat) : Inv l (init n value) where
  locks _ _ h := h.elim
  apart _ h := h.elim
  dec _ h := nomatch h
  sure _ h := h.elim
  sleeping _ h := nomatch h
  chan _ h := nomatch h
  owed _ h := by rcases h with h | h | h <;> cases h

/-- No wakeup is lost: whatever the lock, the number of processes and the order in which they ran, if
the counter is positive and no producer is between its increment and the end of the `wakeup` after it,
then no consumer is asleep on the channel. -/
theorem no_sleeper_left (l : Lock) (n value : Nat) (es : List (Event n)) {s : Sys n}
    (hrun : runs (step l) (init n value) es = some s) (hv : 0 < s.value)
    (hquiet : ∀ r, ¬ (s.pc r).waking) (q : Fin n) : ¬ (s.state q = .sleeping ∧ s.chan q = true) := by
  rintro ⟨hs, -⟩
  have h : Inv l s := runs_inv_all (fun _ _ _ h hs => h.step hs) (inv_init l n value) hrun
  obtain ⟨r, hr⟩ := h.owed q (.inr (.inr hs)) hv
  refine hquiet r ?_
  cases hpc : s.pc r <;> rw [hpc] at hr <;> trivial

/-- For the numbers of two processes. -/
local instance neZero_two : NeZero 2 := ⟨by decide⟩

/-- Consumer 1 finds 0 and sleeps; producer 0 increments and wakes it. -/
def woken : List (Event 2) :=
  .consume 1 :: List.replicate 6 (.next 1) ++ .produce 0 false :: List.replicate 6 (.next 0)

theorem woken_runs : (runs (step .other) (init 2 0) woken).isSome = true := by
  decide

theorem woken_not_sleeping : ¬ (((runs (step .other) (init 2 0) woken).get woken_runs).state 1 =
    .sleeping ∧ ((runs (step .other) (init 2 0) woken).get woken_runs).chan 1 = true) :=
  no_sleeper_left .other 2 0 woken (Option.some_get woken_runs).symm (by decide)
    (by decide) 1

end Xv6.Sleep
