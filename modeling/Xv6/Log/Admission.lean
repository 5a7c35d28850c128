import Xv6.Log.Group

/-!
# Log — admission by reservation

`begin_op` reserves `MAXOPBLOCKS` blocks for an operation out of `LOGSIZE`; `mkfs` makes a log of
`LOGSIZE` blocks, and the first of them is the header, so that `log_write` panics at
`LOGSIZE - 1` logged blocks.

Three operations that log `MAXOPBLOCKS` blocks each are admitted together, and the last block
panics (`fullRun_tooBig`).  Operations that log at most `MAXOPBLOCKS - 1` distinct blocks never
do, whatever their number and interleaving, and no larger bound will do (`safe_iff`).  What carries
this is that the blocks logged and the blocks still to come from open operations, of which there are at
most three, stay below `LOGSIZE - 1` (`Reserved`).
-/

namespace Xv6.Log
open Lib

variable {P : Type} {s s' : Sys P} {e : Event P} {p q : P}

section Ops

variable [DecidableEq P]

/-- The blocks the latest operation of `p` has logged, after one more event. -/
def trackOp (p : P) (bs : Finset BlockNo) : Event P → Finset BlockNo
  | .beginOp q => if q = p then ∅ else bs
  | .append q b => if q = p then insert b bs else bs
  | _ => bs

/-- The distinct blocks the latest operation of `p` has logged, in the run `es`. -/
def opBlocks (es : List (Event P)) (p : P) : Finset BlockNo := es.foldl (trackOp p) ∅

/-- No operation logs more than `k` distinct blocks. -/
def OpBound (k : Nat) (es : List (Event P)) : Prop :=
  ∀ es₁, es₁ <+: es → ∀ p, (opBlocks es₁ p).card ≤ k

theorem OpBound.mono {k l : Nat} {es : List (Event P)} (h : OpBound k es) (hkl : k ≤ l) :
    OpBound l es :=
  fun es₁ h₁ p => (h es₁ h₁ p).trans hkl

theorem OpBound.of_prefix {k : Nat} {es es' : List (Event P)} (h : OpBound k es')
    (hp : es <+: es') : OpBound k es :=
  fun es₁ h₁ => h es₁ (h₁.trans hp)

theorem opBlocks_snoc (es : List (Event P)) :
    opBlocks (es ++ [e]) p = trackOp p (opBlocks es p) e := by
  simp [opBlocks]

theorem opBlocks_snoc_of_ne (es : List (Event P)) (h : q ≠ e.proc) :
    opBlocks (es ++ [e]) q = opBlocks es q := by
  rw [opBlocks_snoc]
  cases e with
  | beginOp p => exact if_neg (Ne.symm h)
  | append p b => exact if_neg (Ne.symm h)
  | _ => rfl

/-- A step moves its own process, and may wake others. -/
theorem Trans.active_of_ne (ht : Trans s e s') (h : q ≠ e.proc) :
    (s'.pc q).active = (s.pc q).active := by
  cases ht with
  | tooBig hp hn | outsideTrans hp ho | overrun hp hb hn | logCommitting hp hc => rfl
  | leave hp hc ho | finish hp =>
      exact (congrArg Pc.active (Sys.setPc_pc_of_ne h)).trans wakeup_active
  | _ => exact congrArg Pc.active (Sys.setPc_pc_of_ne h)

theorem Trans.size (ht : Trans s e s') : s'.log.size = s.log.size := by
  cases ht <;> rfl

end Ops

/-- No `panic("too big a transaction")`; at most `log.size - 1` blocks in the log; and `write_log`
stays inside the log area. -/
structure Safe (s : Sys P) : Prop where
  no_panic : s.stop ≠ some .tooBig
  bound : s.log.lh.length ≤ s.log.size - 1
  inside : ∀ p tail, s.pc p = .commit (.writeLog tail) → tail < s.log.lh.length →
    tail + 1 < s.log.size

variable [Fintype P] [DecidableEq P]

/-- How many blocks an open operation may still log. -/
def remaining (es : List (Event P)) (s : Sys P) (p : P) : Nat :=
  if (s.pc p).active then maxOpBlocks - 1 - (opBlocks es p).card else 0

/-- What operations of at most `MAXOPBLOCKS - 1` blocks keep. -/
structure Reserved (es : List (Event P)) (s : Sys P) : Prop where
  size : s.log.size = logSize
  logged : ∀ p, (s.pc p).active = true → ∀ b ∈ opBlocks es p, b ∈ s.log.lh
  room : s.log.lh.length + ∑ p, remaining es s p < logSize - 1

theorem Reserved.init : Reserved [] (Sys.init P logSize) where
  size := rfl
  logged p h := by cases h
  room := by simp [Sys.init, State.init, remaining, Pc.active, logSize, maxOpBlocks]

namespace Reserved

variable {es : List (Event P)}

omit [Fintype P] in
theorem remaining_of_ne (ht : Trans s e s') (h : q ≠ e.proc) :
    remaining (es ++ [e]) s' q = remaining es s q := by
  rw [remaining, remaining, ht.active_of_ne h, opBlocks_snoc_of_ne es h]

/-- The log keeps its blocks, and the process of the step has no more to come than before. -/
theorem keep (h : Reserved es s) (ht : Trans s e s') (hlh : s'.log.lh = s.log.lh)
    (hp : (s'.pc e.proc).active = true → (s.pc e.proc).active = true ∧
      opBlocks es e.proc ⊆ opBlocks (es ++ [e]) e.proc ∧
      ∀ b ∈ opBlocks (es ++ [e]) e.proc, b ∈ s.log.lh) : Reserved (es ++ [e]) s' := by
  refine ⟨ht.size.trans h.size, fun q hq b hb => ?_, ?_⟩
  · rw [hlh]
    by_cases hqp : q = e.proc
    · subst hqp
      exact (hp hq).2.2 b hb
    · rw [ht.active_of_ne hqp] at hq
      rw [opBlocks_snoc_of_ne es hqp] at hb
      exact h.logged q hq b hb
  · rw [hlh]
    refine lt_of_le_of_lt (Nat.add_le_add_left (Finset.sum_le_sum fun q _ => ?_) _) h.room
    by_cases hqp : q = e.proc
    · subst hqp
      by_cases hact : (s'.pc e.proc).active = true
      · obtain ⟨hact', hsub, -⟩ := hp hact
        rw [remaining, remaining, if_pos hact, if_pos hact']
        exact Nat.sub_le_sub_left (Finset.card_le_card hsub) _
      · rw [remaining, if_neg hact]
        exact Nat.zero_le _
    · exact (remaining_of_ne ht hqp).le

/-- The sum of what is to come, with the process of the step taken out. -/
theorem sum_remaining (es : List (Event P)) (ht : Trans s e s') :
    ∑ q, remaining (es ++ [e]) s' q + remaining es s e.proc =
      ∑ q, remaining es s q + remaining (es ++ [e]) s' e.proc :=
  sum_add_of_ne e.proc fun _ hq => remaining_of_ne ht hq

/-- Each open operation has at most `MAXOPBLOCKS - 1` blocks to come. -/
theorem sum_remaining_le (es : List (Event P)) (hs : Inv s) :
    ∑ q, remaining es s q ≤ (maxOpBlocks - 1) * s.log.outstanding := by
  rw [hs.count, activeCount, Finset.mul_sum]
  refine Finset.sum_le_sum fun q _ => ?_
  rw [remaining]
  split
  · rename_i hq
    rw [hq, Bool.toNat_true, mul_one]
    exact Nat.sub_le _ _
  · exact Nat.zero_le _

theorem length_lt (h : Reserved es s) : s.log.lh.length < logSize - 1 :=
  lt_of_le_of_lt (Nat.le_add_right _ _) h.room

/-- An operation that is admitted reserves its blocks. -/
theorem admitted (h : Reserved es s) (hs : Inv s) (hp : (s.pc p).active = false)
    (hc : s.log.committing = false)
    (hroom : s.log.lh.length + (s.log.outstanding + 1) * maxOpBlocks ≤ logSize)
    (ht : Trans s (.beginOp p)
      ({ s with log.outstanding := s.log.outstanding + 1 }.setPc p .inOp)) :
    Reserved (es ++ [.beginOp p])
      ({ s with log.outstanding := s.log.outstanding + 1 }.setPc p .inOp) := by
  have hop : opBlocks (es ++ [.beginOp p]) p = ∅ := by rw [opBlocks_snoc, trackOp, if_pos rfl]
  refine ⟨h.size, fun q hq b hb => ?_, ?_⟩
  · by_cases hqp : q = p
    · subst hqp
      rw [hop] at hb
      cases hb
    · rw [ht.active_of_ne hqp] at hq
      rw [opBlocks_snoc_of_ne es hqp] at hb
      exact h.logged q hq b hb
  · have hsum := sum_remaining es ht
    have hle := sum_remaining_le es hs
    have hrem : remaining es s p = 0 := by simp [remaining, hp]
    have hrem' : remaining (es ++ [.beginOp p])
        ({ s with log.outstanding := s.log.outstanding + 1 }.setPc p .inOp) p = maxOpBlocks - 1 := by
      simp [remaining, hop, Pc.active]
    simp only [Event.proc, hrem, hrem'] at hsum
    simp only [Sys.setPc_log]
    rw [logSize, maxOpBlocks] at *
    rcases Nat.eq_zero_or_pos s.log.outstanding with ho | ho
    · -- the log is empty when the first operation of a group is admitted
      have hlh : s.log.lh.length = 0 := by rw [hs.empty ho hc]; rfl
      rw [ho] at hle
      omega
    · omega

/-- A block that is new to the log is new to its operation. -/
theorem append {b : BlockNo} (h : Reserved es s) (hp : s.pc p = .tested b) (hb : b ∉ s.log.lh)
    (hbound : (opBlocks (es ++ [.append p b]) p).card ≤ maxOpBlocks - 1)
    (ht : Trans s (.append p b) ({ s with log.lh := s.log.lh ++ [b] }.setPc p .inOp)) :
    Reserved (es ++ [.append p b]) ({ s with log.lh := s.log.lh ++ [b] }.setPc p .inOp) := by
  have hact : (s.pc p).active = true := by rw [hp]; rfl
  have hop : opBlocks (es ++ [.append p b]) p = insert b (opBlocks es p) := by
    rw [opBlocks_snoc, trackOp, if_pos rfl]
  refine ⟨h.size, fun q hq b' hb' => ?_, ?_⟩
  · refine List.mem_append.mpr ?_
    by_cases hqp : q = p
    · subst hqp
      rw [hop] at hb'
      rcases Finset.mem_insert.mp hb' with rfl | hb'
      · exact .inr (List.mem_singleton_self b')
      · exact .inl (h.logged q hact b' hb')
    · rw [ht.active_of_ne hqp] at hq
      rw [opBlocks_snoc_of_ne es hqp] at hb'
      exact .inl (h.logged q hq b' hb')
  · have hcard : (insert b (opBlocks es p)).card = (opBlocks es p).card + 1 :=
      Finset.card_insert_of_notMem fun hmem => hb (h.logged p hact b hmem)
    rw [hop, hcard] at hbound
    have hsum := sum_remaining es ht
    have hrem : remaining es s p = maxOpBlocks - 1 - (opBlocks es p).card := if_pos hact
    have hrem' : remaining (es ++ [.append p b])
        ({ s with log.lh := s.log.lh ++ [b] }.setPc p .inOp) p =
          maxOpBlocks - 1 - ((opBlocks es p).card + 1) := by
      rw [remaining, Sys.setPc_pc_self, hop, hcard]
      exact if_pos rfl
    simp only [Event.proc, hrem, hrem'] at hsum
    have hroom := h.room
    simp only [Sys.setPc_log, List.length_append, List.length_singleton]
    omega

/-- **Operations of at most `MAXOPBLOCKS - 1` blocks keep their reservation.** -/
theorem trans (h : Reserved es s) (hs : Inv s) (ht : Trans s e s')
    (hbound : OpBound (maxOpBlocks - 1) (es ++ [e])) : Reserved (es ++ [e]) s' := by
  have ht' := ht
  cases ht with
  | sleep hp | wake hp | next hp hn | finish hp | last hp hc ho | leave hp hc ho =>
      exact h.keep ht' rfl fun hact => by simp [Event.proc, Pc.active] at hact
  | admitted hp hc hroom =>
      exact h.admitted hs (by rcases hp with hp | hp <;> rw [hp] <;> rfl) hc hroom ht'
  | @pass p b hp hn hsize =>
      have hact : (s.pc p).active = true := by rw [hp]; rfl
      have hop : opBlocks (es ++ [.test p b]) p = opBlocks es p := opBlocks_snoc es
      refine h.keep ht' rfl fun _ => ?_
      simp only [Event.proc, hop]
      exact ⟨hact, subset_rfl, h.logged p hact⟩
  | tooBig hp hn =>
      have hlen := h.length_lt
      rw [h.size] at hn
      omega
  | @outsideTrans p b hp ho =>
      have hact : (s.pc p).active = true := by rw [hp]; rfl
      exact absurd ho (hs.outstanding_pos hact).ne'
  | @absorb p b hp hb =>
      have hact : (s.pc p).active = true := by rw [hp]; rfl
      have hop : opBlocks (es ++ [.append p b]) p = insert b (opBlocks es p) := by
        rw [opBlocks_snoc, trackOp, if_pos rfl]
      refine h.keep ht' rfl fun _ => ?_
      simp only [Event.proc, hop]
      refine ⟨hact, Finset.subset_insert _ _, fun b' hb' => ?_⟩
      rcases Finset.mem_insert.mp hb' with rfl | hb'
      · exact hb
      · exact h.logged p hact b' hb'
  | @append p b hp hb hn => exact h.append hp hb (hbound _ List.prefix_rfl p) ht'
  | overrun hp hb hn =>
      have hlen := h.length_lt
      omega
  | @logCommitting p hp hc =>
      have hact : (s.pc p).active = true := by rw [hp]; rfl
      rw [hs.not_committing hact] at hc
      cases hc
  | @zero p hp =>
      -- nobody is inside an operation
      have hnone : ∀ q, (({ s with log.lh := [] }.setPc p (.commit .eraseHead)).pc q).active =
          false := by
        intro q
        by_cases hqp : q = p
        · subst hqp
          rw [Sys.setPc_pc_self]
          rfl
        · rw [ht'.active_of_ne hqp]
          exact hs.inactive (hs.committing hp) q
      refine ⟨h.size, fun q hq => absurd hq (by rw [hnone]; simp), ?_⟩
      simp [remaining, hnone, logSize, maxOpBlocks]

end Reserved

/-- The reservations, over whole runs. -/
theorem reserved_run {es : List (Event P)} (h : runs step (Sys.init P logSize) es = some s)
    (hbound : OpBound (maxOpBlocks - 1) es) : Reserved es s := by
  refine runs_inv_trace (I := fun es s => OpBound (maxOpBlocks - 1) es → Reserved es s)
    (fun _ => .init) (fun es s e s' hr ih hstep hb => ?_) h hbound
  exact (ih (hb.of_prefix (List.prefix_append es [e]))).trans (inv_run hr) (step_trans hstep).2 hb

theorem safe_run {es : List (Event P)} (h : runs step (Sys.init P logSize) es = some s)
    (hbound : OpBound (maxOpBlocks - 1) es) : Safe s := by
  have hs := reserved_run h hbound
  have hlen := hs.length_lt
  refine ⟨?_, by rw [hs.size]; exact hlen.le, fun p tail _ htail => by rw [hs.size]; omega⟩
  cases es using List.reverseRecOn with
  | nil => cases h; simp [Sys.init]
  | append_singleton es e =>
      obtain ⟨s₁, h₁, h₂⟩ := runs_snoc.mp h
      have hs₁ := reserved_run h₁ (hbound.of_prefix (List.prefix_append es [e]))
      have hlen₁ := hs₁.length_lt
      obtain ⟨hstop, ht⟩ := step_trans h₂
      cases ht with
      | tooBig hp hn =>
          rw [hs₁.size] at hn
          omega
      | _ => simp [hstop]

/-! ### Three operations of `MAXOPBLOCKS` blocks -/

/-- For the numbers of three processes. -/
local instance neZero_three : NeZero 3 := ⟨by decide⟩

/-- Three operations log 10, 10 and 9 blocks; the third goes on to its tenth. -/
def fullRun : List (Event (Fin 3)) :=
  [.beginOp 0, .beginOp 1, .beginOp 2] ++ (writes 0 (blocks 0 10) ++ (writes 1 (blocks 10 10) ++
    (writes 2 (blocks 20 9) ++ [.test 2 29])))

omit [Fintype P] in
/-- An operation logs no more than its process does in the whole run. -/
theorem opBlocks_subset (es : List (Event P)) (p : P) :
    ∀ b ∈ opBlocks es p, .append p b ∈ es := by
  induction es using List.reverseRecOn with
  | nil => simp [opBlocks]
  | append_singleton es e ih =>
      intro b hb
      rw [opBlocks_snoc] at hb
      rw [List.mem_append, List.mem_singleton]
      cases e with
      | beginOp q =>
          simp only [trackOp] at hb
          split at hb
          · cases hb
          · exact .inl (ih b hb)
      | append q b' =>
          simp only [trackOp] at hb
          split at hb
          · rename_i hq
            subst hq
            rcases Finset.mem_insert.mp hb with rfl | hb
            · exact .inr rfl
            · exact .inl (ih b hb)
          · exact .inl (ih b hb)
      | _ => exact .inl (ih b hb)

omit [Fintype P] [DecidableEq P] in
theorem append_mem_writes {bs : List BlockNo} {b : BlockNo} :
    .append q b ∈ writes p bs ↔ q = p ∧ b ∈ bs := by
  simp [writes, eq_comm, and_comm]

theorem fullRun_opBound : OpBound maxOpBlocks fullRun := by
  intro es₁ hpre p
  have hsub : opBlocks es₁ p ⊆ (blocks (10 * p) 10).toFinset := by
    intro b hb
    have hmem := hpre.subset (opBlocks_subset es₁ p b hb)
    simp only [fullRun, List.mem_append, append_mem_writes, List.mem_cons, List.not_mem_nil,
      reduceCtorEq, or_false, false_or] at hmem
    rw [List.mem_toFinset]
    rcases hmem with ⟨rfl, h⟩ | ⟨rfl, h⟩ | ⟨rfl, h⟩
    · exact h
    · exact h
    · exact (mem_blocks (by decide)).mpr (((mem_blocks (by decide)).mp h).imp_right (by omega))
  exact (Finset.card_le_card hsub).trans (List.toFinset_card_le _)

theorem runs_fullRun :
    ∃ s, runs step (Sys.init (Fin 3) logSize) fullRun = some s ∧ s.stop = some .tooBig := by
  have h₁ := runs_writes_threeOps 0 (n := 0) (k := 10) (by decide)
  have h₂ := runs_writes_threeOps 1 (n := 10) (k := 10) (by decide)
  have h₃ := runs_writes_threeOps 2 (n := 20) (k := 9) (by decide)
  have h₄ : ∃ s, runs step (threeOps 29) [.test 2 29] = some s ∧ s.stop = some .tooBig :=
    ⟨_, rfl, rfl⟩
  obtain ⟨s, h₄, hstop⟩ := h₄
  exact ⟨s, runs_append.mpr ⟨_, runs_threeOps, runs_append.mpr ⟨_, h₁, runs_append.mpr ⟨_, h₂,
    runs_append.mpr ⟨_, h₃, h₄⟩⟩⟩⟩, hstop⟩

/-- Each operation stays within `MAXOPBLOCKS`, and the last one panics. -/
theorem fullRun_tooBig :
    OpBound maxOpBlocks fullRun ∧
      ∃ s, runs step (Sys.init (Fin 3) logSize) fullRun = some s ∧ s.stop = some .tooBig ∧
        ¬ Safe s := by
  obtain ⟨s, h, hstop⟩ := runs_fullRun
  exact ⟨fullRun_opBound, s, h, hstop, fun hsafe => hsafe.no_panic hstop⟩

/-- **The bound that makes admission sound.**  A log made by `mkfs` never panics in `log_write`,
never holds more than `log.size - 1` blocks and is never written past its end, for any number of
processes and any interleaving, exactly when operations log fewer than `MAXOPBLOCKS` distinct
blocks. -/
theorem safe_iff (k : Nat) :
    (∀ (m : Nat) (es : List (Event (Fin m))) (s : Sys (Fin m)),
      runs step (Sys.init (Fin m) logSize) es = some s → OpBound k es → Safe s) ↔
    k < maxOpBlocks := by
  constructor
  · intro hall
    by_contra hk
    obtain ⟨s, h, hstop⟩ := runs_fullRun
    exact (hall 3 fullRun s h (fullRun_opBound.mono (not_lt.mp hk))).no_panic hstop
  · intro hk m es s h hbound
    exact safe_run h (hbound.mono (Nat.le_pred_of_lt hk))

end Xv6.Log
