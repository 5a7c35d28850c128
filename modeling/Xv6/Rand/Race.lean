import Xv6.Lib.Runs
import Xv6.Rand.Generator

/-!
# Rand — the generator on several CPUs

`scheduler` draws its ticket before it takes `ptable.lock`, so the CPUs call `genrand` on the same `mt`
and `mti` without a lock.  A call is cut into the steps at which it reads or writes them: the test of
`mti`, the refill, `mti = 0`, and the two halves of `mt[mti++]`.  Run on its own a call is `genrand`
(`runs_call`), and as long as calls do not overlap no index is outside `mt` and the generator is seeded
once (`serial_safe`).  Two CPUs that both pass the test at the last word read behind the vector, and
leave `mti` at the mark for a generator that has no seed (`two_cpus_reseed`).
-/

namespace Xv6.Rand
open Lib

/-- Where a CPU stands in `genrand`. -/
inductive Pc where
  | out
  /-- `mti >= N` -/
  | refill
  /-- before `mti = 0` -/
  | reset
  /-- before `mt[mti]` -/
  | fetch
  /-- with the word at `i`, before `mti` is stored -/
  | store (i : Nat) (y : UInt32)
  deriving DecidableEq, Repr

/-- The generator and the CPUs; `reads` are the indices at which `mt` was read for a draw, `drawn` what
the calls returned, and `reseeds` counts the default seeds. -/
structure Sys (C : Type) where
  gen : Gen
  pc : C → Pc
  reads : List Nat
  drawn : List (C × UInt32)
  reseeds : Nat

variable {C : Type} [DecidableEq C]

def Sys.setPc (s : Sys C) (c : C) (pc : Pc) : Sys C := { s with pc := Function.update s.pc c pc }

/-- The next step of a CPU in `genrand`; it may always call it again. -/
def step (s : Sys C) (c : C) : Option (Sys C) :=
  match s.pc c with
  | .out => some (s.setPc c (if N ≤ s.gen.mti then .refill else .fetch))
  | .refill =>
      let g := if s.gen.mti = N + 1 then sgenrand s.gen 4357 else s.gen
      some { s.setPc c .reset with
        gen := { g with mt := refill g.mt }
        reseeds := if s.gen.mti = N + 1 then s.reseeds + 1 else s.reseeds }
  | .reset => some { s.setPc c .fetch with gen := { s.gen with mti := 0 } }
  | .fetch => some { s.setPc c (.store s.gen.mti (s.gen.mt s.gen.mti)) with
      reads := s.reads ++ [s.gen.mti] }
  | .store i y => some { s.setPc c .out with
      gen := { s.gen with mti := i + 1 }
      drawn := s.drawn ++ [(c, temper y &&& randMax)] }

/-- `pinit` has seeded the generator. -/
def boot (C : Type) (seed : UInt32) : Sys C := ⟨sgenrand .init seed, fun _ => .out, [], [], 0⟩

/-- What the generator promises of a state. -/
structure Safe (s : Sys C) : Prop where
  reads : ∀ i ∈ s.reads, i < N
  mti : s.gen.mti ≠ N + 1
  reseeds : s.reseeds = 0

/-- A CPU calls `genrand` only while no CPU is in it. -/
def Alone (s : Sys C) (c : C) : Prop := s.pc c = .out → ∀ d, s.pc d = .out

/-- One CPU at the most is in `genrand`, and it uses an index of the vector. -/
structure Serial (s : Sys C) : Prop extends Safe s where
  one : ∀ c d, s.pc c ≠ .out → s.pc d ≠ .out → c = d
  le : s.gen.mti ≤ N
  fetch : ∀ c, s.pc c = .fetch → s.gen.mti < N
  store : ∀ c i y, s.pc c = .store i y → i < N

section Serial
variable {s s' : Sys C} {c : C}

omit [DecidableEq C] in
theorem Serial.alone (h : Serial s) (hc : s.pc c ≠ .out) {d : C} (hd : d ≠ c) : s.pc d = .out := by
  by_contra hne
  exact hd (h.one d c hne hc)

/-- The CPU in `genrand` goes on. -/
theorem Serial.go {pc : Pc} (hout : ∀ d ≠ c, s.pc d = .out)
    (hpc : s'.pc = Function.update s.pc c pc) (hreads : ∀ i ∈ s'.reads, i < N)
    (hreseeds : s'.reseeds = 0) (hle : s'.gen.mti ≤ N) (hfetch : pc = .fetch → s'.gen.mti < N)
    (hstore : ∀ i y, pc = .store i y → i < N) : Serial s' := by
  have hother : ∀ d, s'.pc d ≠ .out → d = c := by
    intro d hd
    by_contra hne
    rw [hpc, Function.update_of_ne hne] at hd
    exact hd (hout d hne)
  have hself : s'.pc c = pc := by rw [hpc, Function.update_self]
  refine ⟨⟨hreads, by omega, hreseeds⟩, ?_, hle, ?_, ?_⟩
  · intro d e hd he
    rw [hother d hd, hother e he]
  · intro d hd
    obtain rfl := hother d (by rw [hd]; exact nofun)
    exact hfetch (hself.symm.trans hd)
  · intro d i y hd
    obtain rfl := hother d (by rw [hd]; exact nofun)
    exact hstore i y (hself.symm.trans hd)

theorem Serial.step (h : Serial s) (halone : Alone s c) (hs : step s c = some s') : Serial s' := by
  unfold Rand.step at hs
  have hsafe := h.toSafe
  split at hs
  · rename_i hpc
    cases hs
    refine .go (fun d _ => halone hpc d) rfl hsafe.reads hsafe.reseeds h.le ?_ ?_
    · intro hf
      split at hf
      · cases hf
      · rename_i hlt
        exact not_le.mp hlt
    · intro i y hf
      split at hf <;> cases hf
  · rename_i hpc
    cases hs
    have hout : ∀ d ≠ c, s.pc d = .out := fun d hd => h.alone (by rw [hpc]; exact nofun) hd
    rw [if_neg hsafe.mti, if_neg hsafe.mti]
    exact .go hout rfl hsafe.reads hsafe.reseeds h.le nofun nofun
  · rename_i hpc
    cases hs
    have hout : ∀ d ≠ c, s.pc d = .out := fun d hd => h.alone (by rw [hpc]; exact nofun) hd
    exact .go hout rfl hsafe.reads hsafe.reseeds (Nat.zero_le _)
      (fun _ => show 0 < N by decide) nofun
  · rename_i hpc
    cases hs
    have hout : ∀ d ≠ c, s.pc d = .out := fun d hd => h.alone (by rw [hpc]; exact nofun) hd
    have hlt := h.fetch c hpc
    refine .go hout rfl ?_ hsafe.reseeds h.le nofun ?_
    · intro i hi
      rcases List.mem_append.mp hi with hi | hi
      · exact hsafe.reads i hi
      · rw [List.mem_singleton.mp hi]
        exact hlt
    · rintro i y ⟨⟩
      exact hlt
  · rename_i i y hpc
    cases hs
    have hout : ∀ d ≠ c, s.pc d = .out := fun d hd => h.alone (by rw [hpc]; exact nofun) hd
    exact .go hout rfl hsafe.reads hsafe.reseeds (h.store c i y hpc) nofun nofun

omit [DecidableEq C] in
theorem serial_boot (seed : UInt32) : Serial (boot C seed) where
  reads := nofun
  mti := by simp [boot, sgenrand]
  reseeds := rfl
  one _ _ h := absurd rfl h
  le := le_refl N
  fetch _ h := by cases h
  store _ _ _ h := by cases h

end Serial

/-- **Calls that do not overlap.**  On any number of CPUs, while every call of `genrand` begins after the
last one has ended, every index at which `mt` is read is one of the vector, `mti` is never `N + 1`, and
the generator is not seeded again. -/
theorem serial_safe (seed : UInt32) (es : List C) (s : Sys C)
    (hrun : runs step (boot C seed) es = some s) (halone : Meets step Alone (boot C seed) es) :
    Safe s := by
  have h : Serial s := runs_inv_meets (I := Serial)
    (fun _ _ _ h halone hs => h.step halone hs) (serial_boot seed) halone hrun
  exact h.toSafe

/-- One CPU makes a call. -/
theorem unit_safe : ∃ s, runs step (boot Unit 1) [(), (), (), (), ()] = some s ∧ s.gen.mti = 1 ∧
    Safe s := by
  refine ⟨_, rfl, rfl, serial_safe 1 [(), (), (), (), ()] _ rfl ?_⟩
  intro _ c _ s _ _ hc d
  exact hc

/-! ### Calls -/

section Calls
variable {s : Sys C} {c : C}

/-- A call that is not interrupted is `genrand`. -/
theorem runs_call (hc : s.pc c = .out) : ∃ n s', runs step s (List.replicate n c) = some s' ∧
    s'.gen = (genrand s.gen).2 ∧ s'.drawn = s.drawn ++ [(c, (genrand s.gen).1)] ∧ s'.pc = s.pc := by
  have hself : Function.update s.pc c .out = s.pc := by rw [← hc, Function.update_eq_self]
  by_cases hfull : N ≤ s.gen.mti
  · refine ⟨5, ?_⟩
    simp [runs, step, Sys.setPc, List.replicate, genrand, hc, hfull, hself]
  · refine ⟨3, ?_⟩
    simp [runs, step, Sys.setPc, List.replicate, genrand, hc, hfull, hself]

/-- Calls while there are words left. -/
theorem runs_calls (n : Nat) (hc : s.pc c = .out) (hn : s.gen.mti + n ≤ N) :
    ∃ es s', runs step s es = some s' ∧ s'.gen.mti = s.gen.mti + n ∧ s'.pc = s.pc := by
  induction n generalizing s with
  | zero => exact ⟨[], s, rfl, rfl, rfl⟩
  | succ n ih =>
      obtain ⟨m, s₁, h₁, hgen, -, hpc⟩ := runs_call hc
      have hmti : s₁.gen.mti = s.gen.mti + 1 := by
        rw [hgen, genrand, if_neg (by omega)]
      obtain ⟨es, s₂, h₂, hmti₂, hpc₂⟩ := ih (s := s₁) (by rw [hpc, hc]) (by omega)
      exact ⟨_, s₂, runs_append.mpr ⟨s₁, h₁, h₂⟩, by omega, hpc₂.trans hpc⟩

end Calls

/-- Two CPUs test `mti` at the last word of the vector; the second reads behind the vector, `mti`
becomes `N + 1`, and the next call takes the default seed. -/
theorem two_cpus_reseed : ∃ es s, runs step (boot Bool 1) es = some s ∧
    N ∈ s.reads ∧ s.gen.mti = N + 1 ∧
    ∃ s', runs step s [true, true] = some s' ∧ s'.reseeds = s.reseeds + 1 := by
  obtain ⟨n, s₁, h₁, hgen, -, hpc₁⟩ := runs_call (s := boot Bool 1) (c := false) rfl
  have hmti₁ : s₁.gen.mti = 1 := by
    rw [hgen]
    rfl
  obtain ⟨es, s₂, h₂, hmti₂, hpc₂⟩ := runs_calls (s := s₁) (c := false) 622 (by rw [hpc₁]; rfl)
    (by rw [hmti₁]; decide)
  have hpc : ∀ c, s₂.pc c = .out := fun c => by rw [hpc₂, hpc₁]; rfl
  have hmti : s₂.gen.mti = 623 := by omega
  have hlast : ∃ s, runs step s₂ [false, true, false, false, true, true] = some s ∧ N ∈ s.reads ∧
      s.gen.mti = N + 1 ∧ s.pc true = .out := by
    simp [runs, step, Sys.setPc, hpc, hmti, N]
  obtain ⟨s, hs, hreads, hmark, hout⟩ := hlast
  refine ⟨_, s, runs_append.mpr ⟨s₁, h₁, runs_append.mpr ⟨s₂, h₂, hs⟩⟩, hreads, hmark, ?_⟩
  simp [runs, step, Sys.setPc, hout, hmark]

end Xv6.Rand
