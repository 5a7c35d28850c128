import Xv6.User.Grep

/-!
# User — the language of a pattern

What the matcher of `grep.c` is for.  A pattern is read from left to right (`Pattern.read`): a `^` at its front, then items
— a character and a star, or a single character, with `.` for any —, and a `$` at its end.  Its items have languages and
the pattern their concatenation; a text matches if one of its substrings is in it, one at the front of the text if the
pattern has the `^` and one at its end if the pattern has the `$` (`Pattern.Matches`).

`match`, which tries every position and at a star every number of characters, one after the other, answers just this
(`matchRe_iff`).
-/

namespace Xv6.User

inductive Item where
  | star (c : UInt8)
  | one (c : UInt8)
  deriving DecidableEq, Repr

structure Pattern where
  front : Bool
  items : List Item
  atEnd : Bool
  deriving DecidableEq, Repr

/-- The items of a pattern behind its `^`, and whether a `$` ends it. -/
def readItems : List UInt8 → List Item × Bool
  | [] => ([], false)
  | [c] => if c = 36 then ([], true) else ([.one c], false)
  | c :: d :: re =>
      if d = 42 then (.star c :: (readItems re).1, (readItems re).2)
      else (.one c :: (readItems (d :: re)).1, (readItems (d :: re)).2)

def Pattern.read (re : List UInt8) : Pattern :=
  let front := re.head? = some 94
  let r := readItems (if front then re.tail else re)
  ⟨front, r.1, r.2⟩

/-- The one character that `c` stands for, or any if it is `.`. -/
def charLang (c : UInt8) : Language UInt8 := {w | ∃ t, w = [t] ∧ (c = 46 ∨ c = t)}

open Computability in
def Item.lang : Item → Language UInt8
  | .star c => (charLang c)∗
  | .one c => charLang c

def itemsLang (items : List Item) : Language UInt8 := (items.map Item.lang).prod

/-- A substring of the text is in the language, at the front or at the end if the pattern says so. -/
def Pattern.Matches (p : Pattern) (text : List UInt8) : Prop :=
  ∃ before w after, text = before ++ w ++ after ∧ w ∈ itemsLang p.items ∧
    (p.front = true → before = []) ∧ (p.atEnd = true → after = [])

/-! ### The languages -/

section Lang
variable {c t : UInt8} {w text : List UInt8} {i : Item} {items : List Item}

theorem mem_charLang : [t] ∈ charLang c ↔ c = 46 ∨ c = t := by
  constructor
  · rintro ⟨u, heq, hc⟩
    obtain rfl : t = u := by simpa using heq
    exact hc
  · exact fun hc => ⟨t, rfl, hc⟩

open Computability in
/-- The words of a star are those of characters it stands for. -/
theorem mem_kstar_charLang : w ∈ (charLang c)∗ ↔ ∀ t ∈ w, c = 46 ∨ c = t := by
  rw [Language.mem_kstar]
  constructor
  · rintro ⟨L, rfl, hL⟩ t ht
    obtain ⟨u, hu, htu⟩ := List.mem_flatten.mp ht
    obtain ⟨t', rfl, hc⟩ := hL u hu
    rwa [List.mem_singleton.mp htu]
  · intro h
    refine ⟨w.map fun t => [t], ?_, fun y hy => ?_⟩
    · rw [← List.flatMap_def, List.flatMap_singleton']
    · obtain ⟨t, ht, rfl⟩ := List.mem_map.mp hy
      exact mem_charLang.mpr (h t ht)

theorem mem_itemsLang_nil : w ∈ itemsLang [] ↔ w = [] := by
  rw [itemsLang, List.map_nil, List.prod_nil, Language.mem_one]

theorem mem_itemsLang_cons : w ∈ itemsLang (i :: items) ↔ ∃ u v, w = u ++ v ∧ u ∈ i.lang ∧ v ∈ itemsLang items := by
  rw [itemsLang, List.map_cons, List.prod_cons, Language.mem_mul]
  constructor
  · rintro ⟨u, hu, v, hv, rfl⟩
    exact ⟨u, v, rfl, hu, hv⟩
  · rintro ⟨u, v, rfl, hu, hv⟩
    exact ⟨u, hu, v, hv, rfl⟩

end Lang

/-! ### The matcher -/

section Match
variable {c : UInt8} {re text : List UInt8} {here : List UInt8 → Bool}

/-- A beginning of the text is in the language, all of it if the pattern ends with `$`. -/
def Begins (r : List Item × Bool) (text : List UInt8) : Prop :=
  ∃ w after, text = w ++ after ∧ w ∈ itemsLang r.1 ∧ (r.2 = true → after = [])

/-- **`matchstar`** tries every number of characters that the star stands for. -/
theorem starLoop_iff : starLoop here c text = true ↔
    ∃ w after, text = w ++ after ∧ w ∈ (Item.star c).lang ∧ here after = true := by
  simp only [Item.lang, mem_kstar_charLang]
  induction text with
  | nil =>
      rw [starLoop]
      constructor
      · exact fun h => ⟨[], [], rfl, nofun, h⟩
      · rintro ⟨w, after, heq, -, h⟩
        obtain ⟨-, rfl⟩ := List.append_eq_nil_iff.mp heq.symm
        exact h
  | cons t text ih =>
      rw [starLoop, Bool.or_eq_true, Bool.and_eq_true, ih, Bool.or_eq_true, beq_iff_eq, beq_iff_eq]
      constructor
      · rintro (h | ⟨hc, w, after, rfl, hw, h⟩)
        · exact ⟨[], t :: text, rfl, nofun, h⟩
        · refine ⟨t :: w, after, rfl, fun u hu => ?_, h⟩
          rcases List.mem_cons.mp hu with rfl | hu
          · exact hc.symm.imp_right Eq.symm
          · exact hw u hu
      · rintro ⟨w, after, heq, hw, h⟩
        cases w with
        | nil =>
            left
            rw [heq]
            exact h
        | cons u w =>
            obtain ⟨rfl, rfl⟩ := List.cons_eq_cons.mp heq
            refine .inr ⟨?_, w, after, rfl, fun v hv => hw v (List.mem_cons_of_mem _ hv), h⟩
            exact (hw t List.mem_cons_self).symm.imp_left Eq.symm

theorem begins_cons {i : Item} {r : List Item × Bool} : Begins (i :: r.1, r.2) text ↔
    ∃ w rest, text = w ++ rest ∧ w ∈ i.lang ∧ Begins r rest := by
  constructor
  · rintro ⟨w, after, rfl, hw, hend⟩
    obtain ⟨u, v, rfl, hu, hv⟩ := mem_itemsLang_cons.mp hw
    exact ⟨u, v ++ after, List.append_assoc u v after, hu, v, after, rfl, hv, hend⟩
  · rintro ⟨u, rest, rfl, hu, v, after, rfl, hv, hend⟩
    exact ⟨u ++ v, after, (List.append_assoc u v after).symm, mem_itemsLang_cons.mpr ⟨u, v, rfl, hu, hv⟩, hend⟩

theorem begins_one {t : UInt8} {r : List Item × Bool} :
    Begins (.one c :: r.1, r.2) (t :: text) ↔ (c = 46 ∨ c = t) ∧ Begins r text := by
  rw [begins_cons]
  constructor
  · rintro ⟨w, rest, heq, ⟨u, rfl, hc⟩, hr⟩
    obtain ⟨rfl, rfl⟩ := List.cons_eq_cons.mp heq
    exact ⟨hc, hr⟩
  · rintro ⟨hc, hr⟩
    exact ⟨[t], text, rfl, mem_charLang.mpr hc, hr⟩

theorem not_begins_one {r : List Item × Bool} : ¬ Begins (.one c :: r.1, r.2) [] := by
  rw [begins_cons]
  rintro ⟨w, rest, heq, ⟨u, rfl, -⟩, -⟩
  cases heq

theorem begins_nil : Begins ([], false) text :=
  ⟨[], text, rfl, mem_itemsLang_nil.mpr rfl, nofun⟩

theorem begins_end : Begins ([], true) text ↔ text = [] := by
  constructor
  · rintro ⟨w, after, rfl, hw, hend⟩
    rw [mem_itemsLang_nil.mp hw, hend rfl, List.append_nil]
  · rintro rfl
    exact ⟨[], [], rfl, mem_itemsLang_nil.mpr rfl, fun _ => rfl⟩

/-- **`matchhere`** looks at the beginning of the text. -/
theorem matchhere_iff : matchhere re text = true ↔ Begins (readItems re) text := by
  induction re using readItems.induct generalizing text with
  | case1 => exact iff_of_true rfl begins_nil
  | case2 =>
      rw [readItems, if_pos rfl, begins_end]
      cases text with
      | nil => exact iff_of_true rfl rfl
      | cons t text => exact iff_of_false Bool.false_ne_true (List.cons_ne_nil t text)
  | case3 c hc =>
      rw [readItems, if_neg hc]
      cases text with
      | nil =>
          rw [matchhere, if_neg hc]
          exact iff_of_false Bool.false_ne_true (not_begins_one (r := ([], false)))
      | cons t text =>
          rw [matchhere, if_neg hc, begins_one (r := ([], false)), Bool.and_eq_true, Bool.or_eq_true, beq_iff_eq,
            beq_iff_eq]
          exact and_congr_right fun _ => iff_of_true rfl begins_nil
  | case4 c re ih =>
      rw [matchhere_star, matchstar, readItems, if_pos rfl, starLoop_iff, begins_cons]
      simp only [ih]
  | case5 c d re hd ih =>
      rw [readItems, if_neg hd]
      cases text with
      | nil =>
          rw [matchhere, if_neg hd]
          exact iff_of_false Bool.false_ne_true not_begins_one
      | cons t text =>
          rw [matchhere, if_neg hd, begins_one, Bool.and_eq_true, Bool.or_eq_true, beq_iff_eq, beq_iff_eq, ih]

/-- **`match`'s loop** tries every position. -/
theorem matchLoop_iff : matchLoop re text = true ↔ ∃ before rest, text = before ++ rest ∧ matchhere re rest = true := by
  induction text with
  | nil =>
      rw [matchLoop]
      constructor
      · exact fun h => ⟨[], [], rfl, h⟩
      · rintro ⟨before, rest, heq, h⟩
        obtain ⟨-, rfl⟩ := List.append_eq_nil_iff.mp heq.symm
        exact h
  | cons t text ih =>
      rw [matchLoop, Bool.or_eq_true, ih]
      constructor
      · rintro (h | ⟨before, rest, rfl, h⟩)
        · exact ⟨[], t :: text, rfl, h⟩
        · exact ⟨t :: before, rest, rfl, h⟩
      · rintro ⟨before, rest, heq, h⟩
        cases before with
        | nil =>
            left
            rw [heq]
            exact h
        | cons u before =>
            obtain ⟨rfl, rfl⟩ := List.cons_eq_cons.mp heq
            exact .inr ⟨before, rest, rfl, h⟩

/-- **`match`** answers 1 just if the text matches the pattern. -/
theorem matchRe_iff (re text : List UInt8) : matchRe re text = true ↔ (Pattern.read re).Matches text := by
  rw [matchRe, Pattern.Matches, Pattern.read]
  by_cases hfront : re.head? = some 94
  · simp only [if_pos hfront, decide_eq_true hfront, matchhere_iff]
    constructor
    · rintro ⟨w, after, rfl, hw, hend⟩
      exact ⟨[], w, after, rfl, hw, fun _ => rfl, hend⟩
    · rintro ⟨before, w, after, rfl, hw, hbefore, hend⟩
      rw [hbefore trivial]
      exact ⟨w, after, rfl, hw, hend⟩
  · simp only [if_neg hfront, decide_eq_false hfront, matchLoop_iff, matchhere_iff]
    constructor
    · rintro ⟨before, rest, rfl, w, after, rfl, hw, hend⟩
      exact ⟨before, w, after, (List.append_assoc _ _ _).symm, hw, (by rintro ⟨⟩), hend⟩
    · rintro ⟨before, w, after, rfl, hw, -, hend⟩
      exact ⟨before, w ++ after, List.append_assoc _ _ _, w, after, rfl, hw, hend⟩

end Match

end Xv6.User
