import Xv6.Log.Ops

/-!
# Log — group commit keeps operations whole

The invariant of `log.c`'s counters (`Inv`): `outstanding` counts the processes inside an
operation; `committing` is set while exactly one process is in `commit()`, and then nobody is
inside an operation; outside of both, the log is empty.  It holds in every state of every run.
-/

namespace Xv6.Log
open Lib

/-- Between `begin_op` and `end_op`. -/
def Pc.active : Pc → Bool
  | .inOp | .tested _ => true
  | _ => false

section Sums

variable {P : Type} [Fintype P] [DecidableEq P]

/-- Two sums that differ in one term. -/
theorem sum_add_of_ne {f g : P → Nat} (p : P) (h : ∀ q, q ≠ p → g q = f q) :
    ∑ q, g q + f p = ∑ q, f q + g p := by
  have hrest : ∑ q ∈ Finset.univ.erase p, g q = ∑ q ∈ Finset.univ.erase p, f q :=
    Finset.sum_congr rfl fun q hq => h q (Finset.ne_of_mem_erase hq)
  rw [← Finset.add_sum_erase _ g (Finset.mem_univ p), ← Finset.add_sum_erase _ f (Finset.mem_univ p),
    hrest]
  ring

/-- How many processes are inside an operation. -/
def activeCount (pc : P → Pc) : Nat := ∑ p, (pc p).active.toNat

theorem activeCount_update (pc : P → Pc) (p : P) (x : Pc) :
    activeCount (Function.update pc p x) + (pc p).active.toNat =
      activeCount pc + x.active.toNat := by
  have h := sum_add_of_ne (f := fun q => (pc q).active.toNat)
    (g := fun q => (Function.update pc p x q).active.toNat) p fun q hq => by simp [hq]
  simpa [activeCount] using h

omit [DecidableEq P] in
theorem activeCount_eq_zero {pc : P → Pc} : activeCount pc = 0 ↔ ∀ p, (pc p).active = false := by
  simp [activeCount, Finset.sum_eq_zero_iff]

end Sums

variable {P : Type} {s s' : Sys P} {e : Event P} {p q : P}

theorem wakeup_active : (s.wakeup.pc p).active = (s.pc p).active := by
  simp only [Sys.wakeup]
  split
  · rename_i h
    rw [h]
    rfl
  · rfl

theorem wakeup_eq_commit {ph : Phase} : s.wakeup.pc p = .commit ph ↔ s.pc p = .commit ph := by
  simp only [Sys.wakeup]
  split
  · rename_i h
    simp [h]
  · rfl

theorem setPc_eq_commit [DecidableEq P] {x : Pc} {ph : Phase} (hx : x ≠ .commit ph)
    (hq : (s.setPc p x).pc q = .commit ph) : q ≠ p ∧ s.pc q = .commit ph := by
  by_cases hqp : q = p
  · subst hqp
    rw [Sys.setPc_pc_self] at hq
    exact absurd hq hx
  · rw [Sys.setPc_pc_of_ne hqp] at hq
    exact ⟨hqp, hq⟩

/-! ### The counters -/

/-- What the counters say about the processes. -/
structure Inv [Fintype P] (s : Sys P) : Prop where
  count : s.log.outstanding = activeCount s.pc
  free : s.log.committing = false → ∀ p ph, s.pc p ≠ .commit ph
  alone : ∀ p q ph ph', s.pc p = .commit ph → s.pc q = .commit ph' → p = q
  busy : s.log.committing = true → s.log.outstanding = 0 ∧ ∃ p ph, s.pc p = .commit ph
  empty : s.log.outstanding = 0 → s.log.committing = false → s.log.lh = []
  erased : ∀ p, s.pc p = .commit .eraseHead ∨ s.pc p = .commit .finish → s.log.lh = []

theorem Inv.init [Fintype P] (size : Nat) : Inv (Sys.init P size) where
  count := by simp [Sys.init, State.init, activeCount, Pc.active]
  free _ p ph h := by cases h
  alone p q ph ph' h := by cases h
  busy h := by cases h
  empty _ _ := rfl
  erased _ _ := rfl

namespace Inv

variable [Fintype P]

theorem committing (h : Inv s) {ph : Phase} (hp : s.pc p = .commit ph) :
    s.log.committing = true := by
  by_contra hc
  exact h.free (Bool.eq_false_of_not_eq_true hc) p ph hp

/-- While a process is in `commit()`, nobody is inside an operation. -/
theorem inactive (h : Inv s) (hc : s.log.committing = true) (q : P) : (s.pc q).active = false :=
  activeCount_eq_zero.mp (h.count ▸ (h.busy hc).1) q

theorem outstanding_pos (h : Inv s) (hp : (s.pc p).active = true) : 0 < s.log.outstanding := by
  rw [h.count, Nat.pos_iff_ne_zero]
  intro h₀
  rw [activeCount_eq_zero.mp h₀ p] at hp
  cases hp

theorem not_committing (h : Inv s) (hp : (s.pc p).active = true) : s.log.committing = false := by
  by_contra hc
  rw [h.inactive (Bool.eq_true_of_not_eq_false hc) p] at hp
  cases hp

theorem halt (h : Inv s) (why : Stop) : Inv (s.halt why) :=
  ⟨h.count, h.free, h.alone, h.busy, h.empty, h.erased⟩

variable [DecidableEq P]

/-- A process moves within its operation, or outside any, and stays clear of `commit()`. -/
theorem setPc {x : Pc} (h : Inv s) (hx : x.active = (s.pc p).active)
    (hp : ∀ ph, s.pc p ≠ .commit ph) (hxc : ∀ ph, x ≠ .commit ph) : Inv (s.setPc p x) := by
  have hold : ∀ {q ph}, (s.setPc p x).pc q = .commit ph → s.pc q = .commit ph :=
    fun hq => (setPc_eq_commit (hxc _) hq).2
  refine ⟨?_, fun hc q ph hq => h.free hc q ph (hold hq), fun q r ph ph' hq hr =>
    h.alone q r ph ph' (hold hq) (hold hr), fun hc => ?_, h.empty, fun q hq => h.erased q ?_⟩
  · have hsum := activeCount_update s.pc p x
    rw [hx] at hsum
    exact h.count.trans (Nat.add_right_cancel hsum).symm
  · obtain ⟨ho, q, ph, hq⟩ := h.busy hc
    refine ⟨ho, q, ph, ?_⟩
    have hqp : q ≠ p := by
      rintro rfl
      exact hp ph hq
    rwa [Sys.setPc_pc_of_ne hqp]
  · exact hq.imp hold hold

/-- The committer moves on. -/
theorem setPhase {ph ph' : Phase} (h : Inv s) (hp : s.pc p = .commit ph)
    (he : ph' = .eraseHead ∨ ph' = .finish → s.log.lh = []) : Inv (s.setPc p (.commit ph')) := by
  have hc := h.committing hp
  have hold : ∀ {q ph₁}, (s.setPc p (.commit ph')).pc q = .commit ph₁ → q = p := by
    intro q ph₁ hq
    by_contra hqp
    rw [Sys.setPc_pc_of_ne hqp] at hq
    exact hqp (h.alone q p ph₁ ph hq hp)
  refine ⟨?_, fun hc' => ?_, fun q r _ _ hq hr => (hold hq).trans (hold hr).symm, fun _ => ?_,
    h.empty, fun q hq => ?_⟩
  · have hsum := activeCount_update s.pc p (.commit ph')
    rw [hp] at hsum
    exact h.count.trans (Nat.add_right_cancel hsum).symm
  · rw [Sys.setPc_log, hc] at hc'
    cases hc'
  · exact ⟨(h.busy hc).1, p, ph', Sys.setPc_pc_self⟩
  · obtain rfl : q = p := hq.elim hold hold
    rw [Sys.setPc_pc_self] at hq
    exact he (hq.imp (fun hq => by injection hq) (fun hq => by injection hq))

end Inv

variable [Fintype P]

theorem activeCount_wakeup : activeCount s.wakeup.pc = activeCount s.pc :=
  Finset.sum_congr rfl fun _ _ => by rw [wakeup_active]

/-- `lh` may change as long as somebody is inside an operation. -/
theorem Inv.setLh (h : Inv s) (hp : (s.pc p).active = true) (lh : List BlockNo) :
    Inv { s with log.lh := lh } where
  count := h.count
  free := h.free
  alone := h.alone
  busy := h.busy
  empty ho := absurd ho (h.outstanding_pos hp).ne'
  erased q hq := by
    have hc : s.log.committing = true := hq.elim h.committing h.committing
    rw [h.inactive hc p] at hp
    cases hp

theorem Inv.clearLh (h : Inv s) : Inv { s with log.lh := [] } :=
  ⟨h.count, h.free, h.alone, h.busy, fun _ _ => rfl, fun _ _ => rfl⟩

variable [DecidableEq P]

/-- An operation is admitted. -/
theorem Inv.admitted (h : Inv s) (hp : (s.pc p).active = false) (hc : s.log.committing = false) :
    Inv ({ s with log.outstanding := s.log.outstanding + 1 }.setPc p .inOp) := by
  have hold : ∀ q ph, ({ s with log.outstanding := s.log.outstanding + 1 }.setPc p .inOp).pc q ≠
      .commit ph := fun q ph hq => h.free hc q ph (setPc_eq_commit (by simp) hq).2
  refine ⟨?_, fun _ => hold, fun q _ ph _ hq => absurd hq (hold q ph), fun hc' => ?_,
    fun ho => absurd ho (Nat.succ_ne_zero _), fun q hq => ?_⟩
  · have hsum := activeCount_update s.pc p .inOp
    rw [hp] at hsum
    show s.log.outstanding + 1 = activeCount (Function.update s.pc p .inOp)
    rw [h.count]
    exact hsum.symm
  · exact absurd (hc.symm.trans hc') (by simp)
  · exact absurd hq (not_or.mpr ⟨hold q _, hold q _⟩)

/-- The last operation ends; its process goes on to `commit()`. -/
theorem Inv.last (h : Inv s) (hp : s.pc p = .inOp) (hc : s.log.committing = false)
    (ho : s.log.outstanding - 1 = 0) :
    Inv ({ s with
      log.outstanding := s.log.outstanding - 1
      log.committing := true }.setPc p (.commit .enter)) := by
  have hold : ∀ q ph, ({ s with
      log.outstanding := s.log.outstanding - 1
      log.committing := true }.setPc p (.commit .enter)).pc q = .commit ph → q = p := by
    intro q ph hq
    by_contra hqp
    rw [Sys.setPc_pc_of_ne hqp] at hq
    exact h.free hc q ph hq
  refine ⟨?_, fun hc' => absurd hc' (by simp), fun q r _ _ hq hr => (hold q _ hq).trans (hold r _ hr).symm,
    fun _ => ⟨ho, p, .enter, Sys.setPc_pc_self⟩, fun _ hc' => absurd hc' (by simp), fun q hq => ?_⟩
  · have hsum := activeCount_update s.pc p (.commit .enter)
    rw [hp, ← h.count] at hsum
    show s.log.outstanding - 1 = activeCount (Function.update s.pc p (.commit .enter))
    simp only [Pc.active, Bool.toNat_true, Bool.toNat_false] at hsum
    omega
  · obtain rfl : q = p := hq.elim (hold q _) (hold q _)
    rw [Sys.setPc_pc_self] at hq
    rcases hq with hq | hq <;> cases hq

/-- An operation ends, and it was not the last. -/
theorem Inv.leave (h : Inv s) (hp : s.pc p = .inOp) (hc : s.log.committing = false)
    (ho : s.log.outstanding - 1 ≠ 0) :
    Inv ({ s with log.outstanding := s.log.outstanding - 1 }.wakeup.setPc p .idle) := by
  have hold : ∀ q ph, ({ s with log.outstanding := s.log.outstanding - 1 }.wakeup.setPc p .idle).pc
      q ≠ .commit ph :=
    fun q ph hq => h.free hc q ph (wakeup_eq_commit.mp (setPc_eq_commit (by simp) hq).2)
  refine ⟨?_, fun _ => hold, fun q _ ph _ hq => absurd hq (hold q ph), fun hc' => ?_,
    fun ho' => absurd ho' ho, fun q hq => ?_⟩
  · have hsum := activeCount_update s.wakeup.pc p .idle
    rw [wakeup_active, hp, activeCount_wakeup, ← h.count] at hsum
    show s.log.outstanding - 1 = activeCount (Function.update s.wakeup.pc p .idle)
    simp only [Pc.active, Bool.toNat_true, Bool.toNat_false] at hsum
    omega
  · exact absurd (hc.symm.trans hc') (by simp)
  · exact absurd hq (not_or.mpr ⟨hold q _, hold q _⟩)

/-- `end_op` after `commit()`. -/
theorem Inv.finish (h : Inv s) (hp : s.pc p = .commit .finish) :
    Inv ({ s with log.committing := false }.wakeup.setPc p .idle) := by
  have hlh := h.erased p (.inr hp)
  have hold : ∀ q ph, ({ s with log.committing := false }.wakeup.setPc p .idle).pc q ≠
      .commit ph := by
    intro q ph hq
    obtain ⟨hqp, hq⟩ := setPc_eq_commit (by simp) hq
    exact hqp (h.alone q p ph .finish (wakeup_eq_commit.mp hq) hp)
  refine ⟨?_, fun _ => hold, fun q _ ph _ hq => absurd hq (hold q ph), fun hc' => absurd hc' (by simp),
    fun _ _ => hlh, fun _ _ => hlh⟩
  have hsum := activeCount_update s.wakeup.pc p .idle
  rw [wakeup_active, hp, activeCount_wakeup, ← h.count] at hsum
  exact (Nat.add_right_cancel hsum).symm

theorem Inv.trans (h : Inv s) (ht : Trans s e s') : Inv s' := by
  cases ht with
  | sleep hp =>
      refine h.setPc ?_ ?_ (by simp)
      · rcases hp with hp | hp <;> rw [hp] <;> rfl
      · rcases hp with hp | hp <;> simp [hp]
  | admitted hp hc hroom => exact h.admitted (by rcases hp with hp | hp <;> rw [hp] <;> rfl) hc
  | wake hp => exact h.setPc (by rw [hp]; rfl) (by simp [hp]) (by simp)
  | pass hp hn hsize => exact h.setPc (by rw [hp]; rfl) (by simp [hp]) (by simp)
  | tooBig hp hn => exact h.halt _
  | outsideTrans hp ho => exact h.halt _
  | absorb hp hb => exact h.setPc (by rw [hp]; rfl) (by simp [hp]) (by simp)
  | @append p b hp hb hn =>
      have hact : (s.pc p).active = true := by rw [hp]; rfl
      exact (h.setLh hact (s.log.lh ++ [b])).setPc hact.symm (by simp [hp]) (by simp)
  | overrun hp hb hn => exact h.halt _
  | @logCommitting p hp hc =>
      have hact : (s.pc p).active = true := by rw [hp]; rfl
      rw [h.not_committing hact] at hc
      cases hc
  | last hp hc ho => exact h.last hp hc ho
  | leave hp hc ho => exact h.leave hp hc ho
  | @next p ph ph' hp hn =>
      refine h.setPhase hp fun he => ?_
      cases hn with
      | nothing hn => exact List.length_eq_zero_iff.mp hn
      | erased => exact h.erased p (.inl hp)
      | _ => rcases he with he | he <;> cases he
  | zero hp => exact h.clearLh.setPhase hp fun _ => rfl
  | finish hp => exact h.finish hp

/-- **The counters' invariant, over whole runs.** -/
theorem inv_run {size : Nat} {es : List (Event P)} (h : runs step (Sys.init P size) es = some s) :
    Inv s :=
  runs_inv_all (fun _ _ _ hs hstep => hs.trans (step_trans hstep).2) (.init size) h

/-! ### The blocks logged since the last commit -/

/-- The set of blocks logged since `lh` was last emptied, after one more event. -/
def track (bs : Finset BlockNo) : Event P → Finset BlockNo
  | .append _ b => insert b bs
  | .commit _ .zero => ∅
  | _ => bs

/-- The blocks logged since the last commit, in the run `es`. -/
def loggedSince (es : List (Event P)) : Finset BlockNo := es.foldl track ∅

omit [Fintype P] [DecidableEq P] in
theorem track_next {bs : Finset BlockNo} {n : Nat} {ph ph' : Phase} (h : ph.Next n ph') :
    track bs (.commit p ph) = bs := by
  cases h <;> rfl

omit [Fintype P] in
/-- `lh` lists the blocks logged since the last commit, each once, unless the array was
overrun. -/
theorem lh_run {size : Nat} {es : List (Event P)} (h : runs step (Sys.init P size) es = some s) :
    s.stop ≠ some .overrun → s.log.lh.Nodup ∧ ∀ b, b ∈ s.log.lh ↔ b ∈ loggedSince es := by
  refine runs_inv_trace (I := fun es s => s.stop ≠ some .overrun →
    s.log.lh.Nodup ∧ ∀ b, b ∈ s.log.lh ↔ b ∈ loggedSince es) ?_ ?_ h
  · intro _
    exact ⟨List.nodup_nil, fun b => by simp [Sys.init, State.init, loggedSince]⟩
  · intro es s e s' _ ih hstep hs'
    obtain ⟨hstop, ht⟩ := step_trans hstep
    obtain ⟨hnd, hlist⟩ := ih (by rw [hstop]; simp)
    rw [loggedSince, List.foldl_append]
    cases ht with
    | @absorb p b hp hb =>
        refine ⟨hnd, fun b' => (hlist b').trans ?_⟩
        simp only [List.foldl_cons, List.foldl_nil, track, Finset.mem_insert]
        refine ⟨.inr, fun hb' => hb'.elim (fun hb' => ?_) id⟩
        subst hb'
        exact (hlist b').mp hb
    | @append p b hp hb hn =>
        refine ⟨?_, fun b' => ?_⟩
        · refine List.nodup_append.mpr ⟨hnd, List.nodup_singleton b, fun a ha b' hb' => ?_⟩
          rw [List.mem_singleton.mp hb']
          exact fun heq => hb (heq ▸ ha)
        · simp only [Sys.setPc_log, List.mem_append, List.mem_singleton, List.foldl_cons,
            List.foldl_nil, track, Finset.mem_insert]
          rw [hlist b', or_comm]
          rfl
    | overrun hp hb hn => exact absurd rfl hs'
    | next hp hn =>
        refine ⟨hnd, fun b' => (hlist b').trans ?_⟩
        simp only [List.foldl_cons, List.foldl_nil, track_next hn]
        rfl
    | zero hp => exact ⟨List.nodup_nil, fun b' => by simp [track]⟩
    | _ => exact ⟨hnd, hlist⟩

omit [Fintype P] [DecidableEq P] in
/-- A block logged stays logged until the next commit. -/
theorem mem_foldl_track {bs : Finset BlockNo} {b : BlockNo} (hb : b ∈ bs) {es : List (Event P)}
    (hes : ∀ q, .commit q .zero ∉ es) : b ∈ es.foldl track bs := by
  induction es generalizing bs with
  | nil => exact hb
  | cons e es ih =>
      refine ih ?_ fun q hq => hes q (List.mem_cons_of_mem e hq)
      cases e with
      | append p b' => exact Finset.mem_insert_of_mem hb
      | commit q ph =>
          cases ph with
          | zero => exact absurd List.mem_cons_self (hes q)
          | _ => exact hb
      | _ => exact hb

/-! ### Operations are whole -/

omit [Fintype P] in
theorem active_setPc {x : Pc} (hx : p = q → x.active = true) (hp : (s.pc p).active = true) :
    ((s.setPc q x).pc p).active = true := by
  by_cases hpq : p = q
  · subst hpq
    rw [Sys.setPc_pc_self]
    exact hx rfl
  · rwa [Sys.setPc_pc_of_ne hpq]

omit [Fintype P] in
/-- A process is inside its operation until its `end_op`. -/
theorem Trans.active (ht : Trans s e s') (he : e ≠ .endOp p) (hp : (s.pc p).active = true) :
    (s'.pc p).active = true := by
  cases ht with
  | sleep hq | admitted hq hc hroom =>
      refine active_setPc ?_ hp
      rintro rfl
      rcases hq with hq | hq <;> rw [hq] at hp <;> cases hp
  | wake hq | next hq hn | zero hq =>
      refine active_setPc ?_ hp
      rintro rfl
      rw [hq] at hp
      cases hp
  | pass hq hn hsize | absorb hq hb | append hq hb hn => exact active_setPc (fun _ => rfl) hp
  | tooBig hq hn | outsideTrans hq ho | overrun hq hb hn | logCommitting hq hc => exact hp
  | last hq hc ho =>
      refine active_setPc ?_ hp
      rintro rfl
      exact absurd rfl he
  | leave hq hc ho =>
      refine active_setPc ?_ (by rw [wakeup_active]; exact hp)
      rintro rfl
      exact absurd rfl he
  | finish hq =>
      refine active_setPc ?_ (by rw [wakeup_active]; exact hp)
      rintro rfl
      rw [hq] at hp
      cases hp

/-- In `begin_op`, after it went to sleep. -/
def Pc.Waits (pc : Pc) : Prop := pc = .asleep ∨ pc = .woken

omit [Fintype P] in
theorem waits_setPc {x : Pc} (hx : p = q → x.Waits) (hp : (s.pc p).Waits) :
    ((s.setPc q x).pc p).Waits := by
  by_cases hpq : p = q
  · subst hpq
    rw [Sys.setPc_pc_self]
    exact hx rfl
  · rwa [Sys.setPc_pc_of_ne hpq]

omit [Fintype P] [DecidableEq P] in
theorem waits_wakeup (hp : (s.pc p).Waits) : (s.wakeup.pc p).Waits := by
  simp only [Sys.wakeup]
  split
  · exact .inr rfl
  · exact hp

omit [Fintype P] in
/-- A process that went to sleep in `begin_op` does nothing before it goes round its loop. -/
theorem Trans.waits (ht : Trans s e s') (he : e ≠ .beginOp p) (hp : (s.pc p).Waits) :
    (s'.pc p).Waits := by
  cases ht with
  | sleep hq | admitted hq hc hroom =>
      refine waits_setPc ?_ hp
      rintro rfl
      exact absurd rfl he
  | wake hq => exact waits_setPc (fun _ => .inr rfl) hp
  | pass hq hn hsize | absorb hq hb | append hq hb hn | next hq hn | zero hq | last hq hc ho =>
      refine waits_setPc ?_ hp
      rintro rfl
      rw [hq] at hp
      rcases hp with hp | hp <;> cases hp
  | tooBig hq hn | outsideTrans hq ho | overrun hq hb hn | logCommitting hq hc => exact hp
  | leave hq hc ho | finish hq =>
      refine waits_setPc ?_ (waits_wakeup hp)
      rintro rfl
      rw [hq] at hp
      rcases hp with hp | hp <;> cases hp

/-- No commit empties the log while an operation is open. -/
theorem no_zero_of_active {es : List (Event P)} (hs : Inv s) (hp : (s.pc p).active = true)
    (hes : .endOp p ∉ es) (h : runs step s es = some s') (q : P) : .commit q .zero ∉ es := by
  induction es generalizing s with
  | nil => simp
  | cons e es ih =>
      obtain ⟨s₁, h₁, h₂⟩ := runs_cons.mp h
      obtain ⟨-, ht⟩ := step_trans h₁
      rw [List.mem_cons, not_or] at hes ⊢
      refine ⟨?_, ih (hs.trans ht) (ht.active (Ne.symm hes.1) hp) hes.2 h₂⟩
      rintro rfl
      have hq : s.pc q = .commit .zero := by
        cases ht with
        | next hq hn => exact hq
        | zero hq => exact hq
      rw [hs.inactive (hs.committing hq) p] at hp
      cases hp

omit [Fintype P] in
theorem no_append_of_waits {es : List (Event P)} (hp : (s.pc p).Waits) (hes : .beginOp p ∉ es)
    (h : runs step s es = some s') (b : BlockNo) : .append p b ∉ es := by
  induction es generalizing s with
  | nil => simp
  | cons e es ih =>
      obtain ⟨s₁, h₁, h₂⟩ := runs_cons.mp h
      obtain ⟨-, ht⟩ := step_trans h₁
      rw [List.mem_cons, not_or] at hes ⊢
      refine ⟨?_, ih (ht.waits (Ne.symm hes.1) hp) hes.2 h₂⟩
      rintro rfl
      have hq : s.pc p = .tested b := by
        cases ht with
        | absorb hq hb => exact hq
        | append hq hb hn => exact hq
        | overrun hq hb hn => exact hq
      rw [hq] at hp
      rcases hp with hp | hp <;> cases hp

/-- `es` has an operation of `p`, with `b` between its `begin_op` and its `end_op`, and `c`
after it. -/
def IsOp (es : List (Event P)) (p : P) (b c : List (Event P)) : Prop :=
  (∃ a, es = a ++ .beginOp p :: b ++ .endOp p :: c) ∧ .beginOp p ∉ b ∧ .endOp p ∉ b

/-- No commit empties the log between an operation's `begin_op` and its `end_op`, if it logs
anything. -/
theorem no_zero_of_isOp {size : Nat} {es b c : List (Event P)}
    (h : runs step (Sys.init P size) es = some s) (hop : IsOp es p b c) {x : BlockNo}
    (hx : .append p x ∈ b) (q : P) : .commit q .zero ∉ b := by
  obtain ⟨⟨a, rfl⟩, hb₁, hb₂⟩ := hop
  obtain ⟨s₃, h₃, -⟩ := runs_append.mp h
  obtain ⟨s₀, h₀, h₁⟩ := runs_append.mp h₃
  obtain ⟨s₁, h₁, h₂⟩ := runs_cons.mp h₁
  have hs₀ := inv_run h₀
  obtain ⟨-, ht⟩ := step_trans h₁
  have hs₁ := hs₀.trans ht
  cases ht with
  | sleep hp => exact absurd hx (no_append_of_waits (by simp [Pc.Waits]) hb₁ h₂ x)
  | admitted hp hc hroom => exact no_zero_of_active hs₁ (by rw [Sys.setPc_pc_self]; rfl) hb₂ h₂ q

/-! ### Group commit -/

/-- What group commit promises of a state `s` and the events `es` that led to it. -/
structure GroupCommit (es : List (Event P)) (s : Sys P) : Prop where
  /-- `commit()` runs only while nothing is outstanding -/
  quiet : ∀ p ph, s.pc p = .commit ph → s.log.outstanding = 0
  /-- while `committing` is set, `begin_op` admits nobody and there is no `log_write` -/
  shut : s.log.committing = true → ∀ p,
    (∀ s', step s (.beginOp p) = some s' → (s'.pc p).active = false) ∧
      ∀ b, step s (.test p b) = none ∧ step s (.append p b) = none
  no_panic : s.stop ≠ some .logCommitting
  nodup : s.log.lh.Nodup
  lists : ∀ b, b ∈ s.log.lh ↔ b ∈ loggedSince es
  /-- a commit with one write of an operation has them all -/
  whole : ∀ q, s.pc q = .commit .writeHead → ∀ p b c, IsOp es p b c →
    (∃ b₁ x b₂, b = b₁ ++ .append p x :: b₂ ∧ ∀ r, .commit r .zero ∉ b₂ ++ c) →
    ∀ y, .append p y ∈ b → y ∈ s.log.lh

/-- The append does not go past the end of `lh.block`. -/
def Fits (s : Sys P) : Event P → Prop
  | .append _ b => b ∈ s.log.lh ∨ s.log.lh.length < logSize
  | _ => True

theorem stop_ne_run {size : Nat} {es : List (Event P)}
    (h : runs step (Sys.init P size) es = some s) : s.stop ≠ some .logCommitting := by
  cases es using List.reverseRecOn with
  | nil => cases h; simp [Sys.init]
  | append_singleton es e =>
      obtain ⟨s₁, h₁, h₂⟩ := runs_snoc.mp h
      have hs₁ := inv_run h₁
      obtain ⟨hstop, ht⟩ := step_trans h₂
      cases ht with
      | @logCommitting p hp hc =>
          have hact : (s₁.pc p).active = true := by rw [hp]; rfl
          rw [hs₁.not_committing hact] at hc
          cases hc
      | _ => simp [hstop]

omit [Fintype P] in
theorem not_overrun_run {size : Nat} {es : List (Event P)}
    (h : runs step (Sys.init P size) es = some s)
    (hfit : Meets step Fits (Sys.init P size) es) : s.stop ≠ some .overrun := by
  cases es using List.reverseRecOn with
  | nil => cases h; simp [Sys.init]
  | append_singleton es e =>
      obtain ⟨s₁, h₁, h₂⟩ := runs_snoc.mp h
      obtain ⟨hstop, ht⟩ := step_trans h₂
      have hlast := hfit.last h₁
      cases ht with
      | overrun hp hb hn => exact absurd hlast (not_or.mpr ⟨hb, not_lt.mpr hn⟩)
      | _ => simp [hstop]

/-- Group commit, in the last state of a run whose appends all fit. -/
theorem groupCommit_of_meets {size : Nat} {es : List (Event P)}
    (h : runs step (Sys.init P size) es = some s)
    (hfit : Meets step Fits (Sys.init P size) es) : GroupCommit es s := by
  have hs := inv_run h
  obtain ⟨hnd, hlist⟩ := lh_run h (not_overrun_run h hfit)
  refine ⟨fun p ph hp => (hs.busy (hs.committing hp)).1, fun hc p => ⟨fun s' h' => ?_, fun b => ?_⟩,
    stop_ne_run h, hnd, hlist, ?_⟩
  · obtain ⟨-, ht⟩ := step_trans h'
    cases ht with
    | sleep hp => rw [Sys.setPc_pc_self]; rfl
    | admitted hp hc' hroom =>
        rw [hc'] at hc
        cases hc
  · have hp := hs.inactive hc p
    refine ⟨?_, ?_⟩
    · by_contra h'
      obtain ⟨s', h'⟩ := Option.ne_none_iff_exists'.mp h'
      have hq : s.pc p = .inOp := by cases (step_trans h').2 <;> assumption
      rw [hq] at hp
      cases hp
    · by_contra h'
      obtain ⟨s', h'⟩ := Option.ne_none_iff_exists'.mp h'
      have hq : s.pc p = .tested b := by cases (step_trans h').2 <;> assumption
      rw [hq] at hp
      cases hp
  · rintro q - p b c hop ⟨b₁, x, b₂, rfl, hzero⟩ y hy
    have hnone := no_zero_of_isOp h hop (x := x) (by simp)
    obtain ⟨⟨a, rfl⟩, -, -⟩ := hop
    obtain ⟨u, v, huv⟩ := List.append_of_mem hy
    rw [hlist, huv, loggedSince]
    simp only [List.foldl_append, List.foldl_cons]
    refine mem_foldl_track ?_ fun r hr => hzero r (List.mem_append_right b₂ hr)
    refine mem_foldl_track (Finset.mem_insert_self y _) fun r hr => hnone r ?_
    rw [huv]
    exact List.mem_append_right u (List.mem_cons_of_mem _ hr)

omit [Fintype P] in
/-- An append that does not fit is not listed. -/
theorem fits_of_groupCommit {es : List (Event P)} (h : step s e = some s')
    (hg : GroupCommit (es ++ [e]) s') : Fits s e := by
  obtain ⟨-, ht⟩ := step_trans h
  cases ht with
  | absorb hp hb => exact .inl hb
  | append hp hb hn => exact .inr hn
  | @overrun p b hp hb hn =>
      refine .inl ((hg.lists b).mpr ?_)
      rw [loggedSince, List.foldl_append]
      exact Finset.mem_insert_self b _
  | _ => trivial

/-- **Group commit keeps operations whole**, in every state of a run, exactly when none of its
appends goes past the end of `lh.block`. -/
theorem groupCommit_iff {size : Nat} {es : List (Event P)}
    (h : runs step (Sys.init P size) es = some s) :
    (∀ es₁ es₂ s₁, es = es₁ ++ es₂ → runs step (Sys.init P size) es₁ = some s₁ →
      GroupCommit es₁ s₁) ↔ Meets step Fits (Sys.init P size) es := by
  constructor
  · rintro hall es₁ e es₂ s₁ rfl h₁
    obtain ⟨s₁', h₁', h₂⟩ := runs_append.mp h
    obtain rfl : s₁' = s₁ := Option.some.inj (h₁'.symm.trans h₁)
    obtain ⟨s₂, hstep, -⟩ := runs_cons.mp h₂
    exact fits_of_groupCommit hstep
      (hall (es₁ ++ [e]) es₂ s₂ (by simp) (runs_snoc.mpr ⟨_, h₁, hstep⟩))
  · rintro hfit es₁ es₂ s₁ rfl h₁
    refine groupCommit_of_meets h₁ ?_
    rintro es₃ e es₄ s₃ rfl h₃
    exact hfit es₃ e (es₄ ++ es₂) s₃ (by simp) h₃

/-! ### Runs -/

/-- A process logs the blocks `bs`, nobody else moving. -/
def writes (p : P) (bs : List BlockNo) : List (Event P) :=
  bs.flatMap fun b => [.test p b, .append p b]

omit [Fintype P] in
theorem runs_writes (bs : List BlockNo) (hstop : s.stop = none) (hp : s.pc p = .inOp)
    (ho : 1 ≤ s.log.outstanding) (hnd : (s.log.lh ++ bs).Nodup)
    (hn : s.log.lh.length + bs.length ≤ logSize)
    (hsize : s.log.lh.length + bs.length ≤ s.log.size - 1) :
    runs step s (writes p bs) = some { s with log.lh := s.log.lh ++ bs } := by
  induction bs generalizing s with
  | nil => simp [writes]
  | cons b bs ih =>
      rw [List.length_cons] at hn hsize
      have hb : b ∉ s.log.lh := fun hb => (List.nodup_append.mp hnd).2.2 b hb b (by simp) rfl
      have htest : step s (.test p b) = some (s.setPc p (.tested b)) := by
        simp only [step, hstop, hp, Sys.logWriteTest]
        rw [if_neg (by simp), if_pos trivial, if_neg (by omega), if_neg (by omega)]
      have happend : step (s.setPc p (.tested b)) (.append p b) =
          some { s with log.lh := s.log.lh ++ [b] } := by
        have hset : Function.update (s.pc) p .inOp = s.pc := by rw [← hp, Function.update_eq_self]
        simp only [step, Sys.setPc_stop, hstop, Sys.setPc_pc_self, Sys.logWriteAppend,
          Sys.setPc_log]
        rw [if_neg (by simp), if_pos trivial, if_neg hb, if_pos (by omega)]
        simp [Sys.setPc, hset]
      refine runs_cons.mpr ⟨_, htest, runs_cons.mpr ⟨_, happend, ?_⟩⟩
      have h := ih (s := { s with log.lh := s.log.lh ++ [b] }) hstop hp ho (by simpa using hnd)
        (by simp; omega) (by simp; omega)
      simp only [List.append_assoc, List.singleton_append] at h
      exact h

/-- One operation that logs a block, up to its `end_op`. -/
def oneOp : List (Event (Fin 1)) := [.beginOp 0, .test 0 7, .append 0 7, .endOp 0]

theorem oneOp_groupCommit :
    ∃ s, runs step (Sys.init (Fin 1) logSize) oneOp = some s ∧
      ∀ es₁ es₂ s₁, oneOp = es₁ ++ es₂ → runs step (Sys.init (Fin 1) logSize) es₁ = some s₁ →
        GroupCommit es₁ s₁ := by
  have h : ∃ s, runs step (Sys.init (Fin 1) logSize) oneOp = some s := ⟨_, rfl⟩
  obtain ⟨s, h⟩ := h
  refine ⟨s, h, (groupCommit_iff h).mpr ?_⟩
  refine meets_cons.mpr ⟨trivial, fun s₁ h₁ => ?_⟩
  cases h₁
  refine meets_cons.mpr ⟨trivial, fun s₂ h₂ => ?_⟩
  cases h₂
  refine meets_cons.mpr ⟨.inr (by decide), fun s₃ h₃ => ?_⟩
  cases h₃
  exact meets_cons.mpr ⟨trivial, fun _ _ => meets_nil⟩

/-- The `k` blocks from block `n` on. -/
def blocks (n k : Nat) : List BlockNo := (List.range' n k).map UInt32.ofNat

theorem blocks_append (n k l : Nat) : blocks n k ++ blocks (n + k) l = blocks n (k + l) := by
  rw [blocks, blocks, blocks, ← List.map_append, List.range'_append_1]

theorem mem_blocks {n k : Nat} {b : BlockNo} (h : n + k ≤ 2 ^ 32) :
    b ∈ blocks n k ↔ n ≤ b.toNat ∧ b.toNat < n + k := by
  simp only [blocks, List.mem_map, List.mem_range'_1]
  constructor
  · rintro ⟨i, hi, rfl⟩
    rwa [UInt32.toNat_ofNat_of_lt' (by simp only [UInt32.size]; omega)]
  · intro hb
    exact ⟨b.toNat, hb, UInt32.ofNat_toNat⟩

theorem nodup_blocks {n k : Nat} (h : n + k ≤ 2 ^ 32) : (blocks n k).Nodup := by
  refine List.Nodup.map_on (fun i hi j hj hij => ?_) List.nodup_range'
  have hi := (List.mem_range'_1.mp hi).2
  have hj := (List.mem_range'_1.mp hj).2
  have := congrArg UInt32.toNat hij
  rwa [UInt32.toNat_ofNat_of_lt' (by simp only [UInt32.size]; omega),
    UInt32.toNat_ofNat_of_lt' (by simp only [UInt32.size]; omega)] at this

/-- Three operations are open, and the first `n` blocks are logged. -/
def threeOps (n : Nat) : Sys (Fin 3) :=
  ⟨⟨logSize, 3, false, blocks 0 n⟩, fun _ => .inOp, none⟩

theorem runs_threeOps :
    runs step (Sys.init (Fin 3) logSize) [.beginOp 0, .beginOp 1, .beginOp 2] =
      some (threeOps 0) := by
  have h : ∃ pc, runs step (Sys.init (Fin 3) logSize) [.beginOp 0, .beginOp 1, .beginOp 2] =
      some ⟨⟨logSize, 3, false, []⟩, pc, none⟩ ∧ ∀ p, pc p = .inOp := ⟨_, rfl, by decide⟩
  obtain ⟨pc, h, hpc⟩ := h
  rw [h, threeOps, funext hpc]
  rfl

/-- One of them logs the next `k` blocks. -/
theorem runs_writes_threeOps (p : Fin 3) {n k : Nat} (h : n + k ≤ logSize - 1) :
    runs step (threeOps n) (writes p (blocks n k)) = some (threeOps (n + k)) := by
  have hlen : (blocks 0 n).length + (blocks n k).length = n + k := by simp [blocks]
  have happ : blocks 0 n ++ blocks n k = blocks 0 (n + k) := by
    have := blocks_append 0 n k
    rwa [Nat.zero_add] at this
  have hsmall : logSize - 1 ≤ 2 ^ 32 := by decide
  have hrun := runs_writes (s := threeOps n) (p := p) (blocks n k) rfl rfl (by simp [threeOps])
    (by simp only [threeOps, happ]; exact nodup_blocks (by omega))
    (by simp only [threeOps, hlen]; omega) (by simp only [threeOps, hlen]; exact h)
  rw [hrun]
  simp only [threeOps, happ]

/-- Three operations race at the end of the log. -/
def overrunRun : List (Event (Fin 3)) :=
  [.beginOp 0, .beginOp 1, .beginOp 2] ++ (writes 0 (blocks 0 14) ++ (writes 1 (blocks 14 14) ++
    [.test 0 28, .test 1 29, .test 2 30, .append 0 28, .append 1 29, .append 2 30]))

/-- Two operations log 14 blocks each.  Then all three pass the test of `log_write`, at
`lh.n = 28`, before any of them appends: the third append goes to `lh.block[30]`, and block 30 is
logged and not listed. -/
theorem overrunRun_not_groupCommit :
    ∃ s, runs step (Sys.init (Fin 3) logSize) overrunRun = some s ∧ s.stop = some .overrun ∧
      30 ∈ loggedSince overrunRun ∧ 30 ∉ s.log.lh ∧ ¬ GroupCommit overrunRun s := by
  have h₁ := runs_writes_threeOps 0 (n := 0) (k := 14) (by decide)
  have h₂ := runs_writes_threeOps 1 (n := 14) (k := 14) (by decide)
  have h₃ : ∃ s, runs step (threeOps 28)
      [.test 0 28, .test 1 29, .test 2 30, .append 0 28, .append 1 29, .append 2 30] = some s ∧
      s.stop = some .overrun ∧ s.log.lh = blocks 0 30 := ⟨_, rfl, rfl, by decide⟩
  obtain ⟨s, h₃, hstop, hlh⟩ := h₃
  have hrun : runs step (Sys.init (Fin 3) logSize) overrunRun = some s :=
    runs_append.mpr ⟨_, runs_threeOps, runs_append.mpr ⟨_, h₁, runs_append.mpr ⟨_, h₂, h₃⟩⟩⟩
  have hlogged : 30 ∈ loggedSince overrunRun := by
    rw [loggedSince, overrunRun]
    simp only [List.foldl_append, List.foldl_cons, List.foldl_nil]
    exact Finset.mem_insert_self _ _
  have hlisted : 30 ∉ s.log.lh := by
    rw [hlh, mem_blocks (by decide)]
    decide
  exact ⟨s, hrun, hstop, hlogged, hlisted, fun hg => hlisted ((hg.lists 30).mpr hlogged)⟩

end Xv6.Log
