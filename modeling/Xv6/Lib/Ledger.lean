import Mathlib

/-!
# Lib — Who owns what

`own p` is the unit that place `p` owns, if it owns one.  A ledger is right when no unit has two
owners, and the units in use are the reserved ones and the owned ones, with none of them both
(`Ledger`).  It stays right when a unit not in use is given to a place that owns none
(`Ledger.give`), and when a set of places gives up what it owns (`Ledger.clear`).
-/

namespace Xv6.Lib

variable {ι β : Type*} {reserved used : Set β} {own : ι → Option β} {p q : ι} {b : β}

/-- No unit has two owners, and the units in use are the reserved and the owned ones. -/
structure Ledger (reserved : Set β) (own : ι → Option β) (used : Set β) : Prop where
  inj : ∀ {p q b}, own p = some b → own q = some b → p = q
  notReserved : ∀ {p b}, own p = some b → b ∉ reserved
  used_iff : ∀ b, b ∈ used ↔ b ∈ reserved ∨ ∃ p, own p = some b

namespace Ledger

theorem mem_used (h : Ledger reserved own used) (hp : own p = some b) : b ∈ used :=
  (h.used_iff b).mpr (.inr ⟨p, hp⟩)

theorem ne_of_free (h : Ledger reserved own used) (hb : b ∉ used) (p : ι) : own p ≠ some b :=
  fun hp => hb (h.mem_used hp)

theorem notReserved_of_free (h : Ledger reserved own used) (hb : b ∉ used) : b ∉ reserved :=
  fun hr => hb ((h.used_iff b).mpr (.inl hr))

variable [DecidableEq ι]

/-- A unit not in use, given to a place that owns none. -/
theorem give (h : Ledger reserved own used) (hp : own p = none) (hb : b ∉ used) :
    Ledger reserved (Function.update own p (some b)) (insert b used) := by
  have hother : ∀ {q c}, Function.update own p (some b) q = some c →
      q = p ∧ c = b ∨ q ≠ p ∧ own q = some c := by
    intro q c hq
    by_cases hqp : q = p
    · subst hqp
      rw [Function.update_self] at hq
      exact .inl ⟨rfl, (Option.some.inj hq).symm⟩
    · rw [Function.update_of_ne hqp] at hq
      exact .inr ⟨hqp, hq⟩
  constructor
  · intro q q' c hq hq'
    rcases hother hq with ⟨rfl, rfl⟩ | ⟨-, hown⟩
    · rcases hother hq' with ⟨rfl, -⟩ | ⟨-, hown'⟩
      · rfl
      · exact absurd hown' (h.ne_of_free hb q')
    · rcases hother hq' with ⟨rfl, rfl⟩ | ⟨-, hown'⟩
      · exact absurd hown (h.ne_of_free hb q)
      · exact h.inj hown hown'
  · intro q c hq
    rcases hother hq with ⟨-, rfl⟩ | ⟨-, hown⟩
    · exact h.notReserved_of_free hb
    · exact h.notReserved hown
  · intro c
    constructor
    · rintro (rfl | hc)
      · exact .inr ⟨p, Function.update_self ..⟩
      · rcases (h.used_iff c).mp hc with hr | ⟨q, hq⟩
        · exact .inl hr
        · have hqp : q ≠ p := by
            rintro rfl
            rw [hp] at hq
            cases hq
          exact .inr ⟨q, by rw [Function.update_of_ne hqp, hq]⟩
    · rintro (hr | ⟨q, hq⟩)
      · exact .inr ((h.used_iff c).mpr (.inl hr))
      · rcases hother hq with ⟨-, rfl⟩ | ⟨-, hown⟩
        · exact .inl rfl
        · exact .inr (h.mem_used hown)

omit [DecidableEq ι] in
/-- The places in `S` give up what they own. -/
theorem clear (h : Ledger reserved own used) (S : Set ι) [DecidablePred (· ∈ S)] :
    Ledger reserved (fun p => if p ∈ S then none else own p)
      (used \ {b | ∃ p ∈ S, own p = some b}) := by
  have hout : ∀ {p b}, (if p ∈ S then none else own p) = some b → p ∉ S ∧ own p = some b := by
    intro p b hp
    by_cases hS : p ∈ S
    · rw [if_pos hS] at hp
      cases hp
    · exact ⟨hS, by rwa [if_neg hS] at hp⟩
  constructor
  · intro p q b hp hq
    exact h.inj (hout hp).2 (hout hq).2
  · intro p b hp
    exact h.notReserved (hout hp).2
  · intro b
    constructor
    · rintro ⟨hb, hS⟩
      rcases (h.used_iff b).mp hb with hr | ⟨p, hp⟩
      · exact .inl hr
      · have hpS : p ∉ S := fun hpS => hS ⟨p, hpS, hp⟩
        exact .inr ⟨p, by rw [if_neg hpS, hp]⟩
    · rintro (hr | ⟨p, hp⟩)
      · refine ⟨(h.used_iff b).mpr (.inl hr), ?_⟩
        rintro ⟨p, -, hp⟩
        exact h.notReserved hp hr
      · obtain ⟨hpS, hp⟩ := hout hp
        refine ⟨h.mem_used hp, ?_⟩
        rintro ⟨q, hqS, hq⟩
        exact hpS (h.inj hp hq ▸ hqS)

end Ledger

end Xv6.Lib
