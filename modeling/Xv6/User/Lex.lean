import Mathlib

/-!
# User — the shell's tokens

`gettoken` and `peek` of `sh.c`.  The cursor `*ps` is what is left of the string up to `es`, which is its
NUL: no character before it is.  A token that is a word is its text, from `q` to `eq`.

`tokens` is what `gettoken` gives one after the other.  These are the tokens the string is made of, with
words as long as can be (`lexes_iff`), and a `peek` looks at the first of them (`peek_eq`).
-/

namespace Xv6.User.Sh

/-- `" \t\r\n\v"` -/
def whitespace : List UInt8 := [32, 9, 13, 10, 11]

/-- `"<|>&;()"` -/
def symbols : List UInt8 := [60, 124, 62, 38, 59, 40, 41]

inductive Tok where
  | eof
  /-- `<`, `>` and `>>` -/
  | lt
  | gt
  | gtgt
  /-- `|`, `&`, `;`, `(` and `)` -/
  | bar
  | amp
  | semi
  | lpar
  | rpar
  | word (w : List UInt8)
  deriving DecidableEq

def skip (s : List UInt8) : List UInt8 := s.dropWhile (whitespace.contains ·)

/-- A character of a word. -/
def inWord (c : UInt8) : Bool := !whitespace.contains c && !symbols.contains c

/-- The token and what is left after it, from its first character on. -/
def scan : List UInt8 → Tok × List UInt8
  | [] => (.eof, [])
  | c :: s =>
      if c = 124 then (.bar, s)
      else if c = 40 then (.lpar, s)
      else if c = 41 then (.rpar, s)
      else if c = 59 then (.semi, s)
      else if c = 38 then (.amp, s)
      else if c = 60 then (.lt, s)
      else if c = 62 then if s.head? = some 62 then (.gtgt, s.tail) else (.gt, s)
      else (.word ((c :: s).takeWhile inWord), (c :: s).dropWhile inWord)

def gettoken (s : List UInt8) : Tok × List UInt8 := ((scan (skip s)).1, skip (scan (skip s)).2)

/-- Whether the next character is one of `toks`, and the cursor. -/
def peek (toks : List UInt8) (s : List UInt8) : Bool × List UInt8 :=
  ((skip s).head?.any (toks.contains ·), skip s)

/-! ### Tokens -/

theorem length_dropWhile_le {α : Type} (p : α → Bool) (l : List α) : (l.dropWhile p).length ≤ l.length :=
  List.Sublist.length_le (List.dropWhile_sublist p)

theorem length_skip_le (s : List UInt8) : (skip s).length ≤ s.length := length_dropWhile_le _ s

theorem skip_skip (s : List UInt8) : skip (skip s) = skip s := List.dropWhile_idempotent _ s

theorem not_whitespace_of_skip {s t : List UInt8} {c : UInt8} (h : skip s = c :: t) :
    whitespace.contains c = false := by
  have hhead := List.head?_dropWhile_not (whitespace.contains ·) s
  have hs : s.dropWhile (whitespace.contains ·) = c :: t := h
  rw [hs] at hhead
  exact hhead

/-- A token takes at least a character. -/
theorem length_scan_lt {s t : List UInt8} {c : UInt8} (h : skip s = c :: t) :
    (scan (c :: t)).1 ≠ .eof ∧ (scan (c :: t)).2.length ≤ t.length := by
  have hws := not_whitespace_of_skip h
  simp only [scan]
  split_ifs with h1 h2 h3 h4 h5 h6 h7 h8
  all_goals try exact ⟨nofun, Nat.le_refl _⟩
  · exact ⟨nofun, by simp⟩
  · have hword : inWord c = true := by
      simp only [inWord, hws, symbols]
      simp [h1, h2, h3, h4, h5, h6, h7]
    refine ⟨nofun, ?_⟩
    rw [List.dropWhile_cons_of_pos hword]
    exact length_dropWhile_le _ t

theorem gettoken_skip (s : List UInt8) : gettoken (skip s) = gettoken s := by
  rw [gettoken, skip_skip, gettoken]

theorem length_gettoken_lt {s : List UInt8} (h : skip s ≠ []) : (gettoken s).2.length < s.length := by
  obtain ⟨c, t, hct⟩ := List.exists_cons_of_ne_nil h
  have hlen : t.length + 1 ≤ s.length := by
    have := length_skip_le s
    rwa [hct] at this
  have hscan := (length_scan_lt hct).2
  have hskip := length_skip_le (scan (skip s)).2
  rw [gettoken, hct] at *
  exact (hskip.trans hscan).trans_lt hlen

/-- The tokens of a string. -/
def tokens (s : List UInt8) : List Tok :=
  if _h : skip s = [] then [] else (gettoken s).1 :: tokens (gettoken s).2
  termination_by s.length
  decreasing_by exact length_gettoken_lt _h

theorem tokens_of_nil {s : List UInt8} (h : skip s = []) : tokens s = [] := by
  rw [tokens, dif_pos h]

theorem tokens_of_ne {s : List UInt8} (h : skip s ≠ []) :
    tokens s = (gettoken s).1 :: tokens (gettoken s).2 := by
  rw [tokens, dif_neg h]

theorem tokens_skip (s : List UInt8) : tokens (skip s) = tokens s := by
  by_cases h : skip s = []
  · rw [tokens_of_nil h, tokens_of_nil (by rw [skip_skip, h])]
  · rw [tokens_of_ne h, tokens_of_ne (by rw [skip_skip]; exact h), gettoken_skip]

theorem tokens_eq_nil {s : List UInt8} : tokens s = [] ↔ skip s = [] := by
  refine ⟨fun h => ?_, tokens_of_nil⟩
  by_contra hne
  rw [tokens_of_ne hne] at h
  cases h

/-- `gettoken` takes the first token. -/
theorem gettoken_of_cons {s : List UInt8} {t : Tok} {ts : List Tok} (h : tokens s = t :: ts) :
    (gettoken s).1 = t ∧ tokens (gettoken s).2 = ts := by
  have hne : skip s ≠ [] := fun hnil => by
    rw [tokens_of_nil hnil] at h
    cases h
  rw [tokens_of_ne hne] at h
  exact ⟨(List.cons.inj h).1, (List.cons.inj h).2⟩

theorem gettoken_of_nil {s : List UInt8} (h : tokens s = []) :
    (gettoken s).1 = .eof ∧ tokens (gettoken s).2 = [] := by
  rw [tokens_eq_nil] at h
  rw [gettoken, h]
  exact ⟨rfl, tokens_of_nil rfl⟩

theorem length_tokens_le (s : List UInt8) : (tokens s).length ≤ s.length := by
  induction hn : s.length using Nat.strong_induction_on generalizing s with
  | _ n ih =>
      subst hn
      by_cases h : skip s = []
      · rw [tokens_of_nil h]
        exact Nat.zero_le _
      · have hlt := length_gettoken_lt h
        rw [tokens_of_ne h, List.length_cons]
        exact Nat.succ_le_of_lt ((ih _ hlt _ rfl).trans_lt hlt)

theorem ne_eof_of_mem {s : List UInt8} {ts : List Tok} {t : Tok} (h : tokens s = t :: ts) : t ≠ .eof := by
  have hne : skip s ≠ [] := fun hnil => by
    rw [tokens_of_nil hnil] at h
    cases h
  rw [tokens_of_ne hne] at h
  obtain ⟨c, l, hcl⟩ := List.exists_cons_of_ne_nil hne
  rw [← (List.cons.inj h).1, gettoken, hcl]
  exact (length_scan_lt hcl).1

/-- A token that `gettoken` gives and that is not the end is the first one. -/
theorem tokens_of_gettoken {s s' : List UInt8} {t : Tok} (h : gettoken s = (t, s')) (ht : t ≠ .eof) :
    tokens s = t :: tokens s' := by
  cases hs : tokens s with
  | nil =>
      have heof := (gettoken_of_nil hs).1
      rw [h] at heof
      exact absurd heof ht
  | cons t' ts =>
      obtain ⟨ht', hts⟩ := gettoken_of_cons hs
      rw [h] at ht' hts
      rw [← hts, ← ht']

theorem tokens_of_gettoken_eof {s s' : List UInt8} (h : gettoken s = (.eof, s')) :
    tokens s = [] ∧ tokens s' = [] := by
  cases hs : tokens s with
  | nil =>
      have hrest := (gettoken_of_nil hs).2
      rw [h] at hrest
      exact ⟨rfl, hrest⟩
  | cons t ts =>
      have ht := (gettoken_of_cons hs).1
      rw [h] at ht
      exact absurd ht.symm (ne_eof_of_mem hs)

/-- The first character of a token that is not a word. -/
def Tok.char? : Tok → Option UInt8
  | .lt => some 60
  | .gt | .gtgt => some 62
  | .bar => some 124
  | .amp => some 38
  | .semi => some 59
  | .lpar => some 40
  | .rpar => some 41
  | .eof | .word _ => none

/-- The token begins with one of these symbols. -/
def Tok.isIn (toks : List UInt8) (t : Tok) : Bool := t.char?.any (toks.contains ·)

/-- The character of a token that is the only one to begin with it. -/
def Tok.sole? : Tok → Option UInt8
  | .gt | .gtgt => none
  | t => t.char?

theorem Tok.sole_mem {t : Tok} {c : UInt8} (h : t.sole? = some c) : c ∈ symbols := by
  cases t <;> simp [Tok.sole?, Tok.char?, symbols] at h ⊢ <;> simp [← h]

theorem Tok.eq_of_isIn {t t₀ : Tok} {c : UInt8} (hc : t₀.sole? = some c) (h : t.isIn [c] = true) :
    t = t₀ := by
  cases t₀ <;> simp [Tok.sole?, Tok.char?] at hc <;> subst hc <;>
    cases t <;> simp [Tok.isIn, Tok.char?] at h ⊢

theorem scan_char {c : UInt8} {s toks : List UInt8} (h : ∀ x ∈ toks, x ∈ symbols) :
    toks.contains c = (scan (c :: s)).1.isIn toks := by
  simp only [scan]
  split_ifs with h1 h2 h3 h4 h5 h6 h7 h8
  all_goals try simp [Tok.isIn, Tok.char?, *]
  intro hc
  have := h c hc
  simp [symbols, h1, h2, h3, h4, h5, h6, h7] at this

/-- `peek` looks at the first token. -/
theorem peek_eq {toks s : List UInt8} (h : ∀ x ∈ toks, x ∈ symbols) :
    peek toks s = ((tokens s).head?.any (·.isIn toks), skip s) := by
  unfold peek
  congr 1
  cases hs : skip s with
  | nil =>
      rw [tokens_of_nil hs]
      rfl
  | cons c t =>
      rw [tokens_of_ne (by rw [hs]; exact nofun), gettoken, hs]
      exact scan_char h

/-! ### The words of a string -/

/-- The characters of a token that is not a word. -/
def Tok.text? : Tok → Option (List UInt8)
  | .gtgt => some [62, 62]
  | t => t.char?.map ([·])

/-- The tokens that a string is made of, with white space between them. -/
inductive Lexes : List UInt8 → List Tok → Prop where
  | nil : Lexes [] []
  | white {c : UInt8} {s : List UInt8} {ts : List Tok} (hc : c ∈ whitespace) (h : Lexes s ts) :
      Lexes (c :: s) ts
  /-- `>>` is not `>` twice. -/
  | symbol {cs s : List UInt8} {t : Tok} {ts : List Tok} (ht : t.text? = some cs)
      (hgt : t = .gt → s.head? ≠ some 62) (h : Lexes s ts) : Lexes (cs ++ s) (t :: ts)
  /-- A word is as long as can be. -/
  | word {w s : List UInt8} {ts : List Tok} (hw : w ≠ []) (hin : ∀ c ∈ w, inWord c = true)
      (hmax : ∀ c, s.head? = some c → inWord c = false) (h : Lexes s ts) :
      Lexes (w ++ s) (.word w :: ts)

section Lexes
variable {s : List UInt8} {ts : List Tok}

theorem skip_cons_of_mem {c : UInt8} (hc : c ∈ whitespace) : skip (c :: s) = skip s :=
  List.dropWhile_cons_of_pos (by simpa using hc)

theorem skip_cons_of_not_mem {c : UInt8} (hc : c ∉ whitespace) : skip (c :: s) = c :: s :=
  List.dropWhile_cons_of_neg (by simpa using hc)

theorem tokens_of_scan {c : UInt8} {t : Tok} {s' : List UInt8} (hc : c ∉ whitespace)
    (h : scan (c :: s) = (t, s')) : tokens (c :: s) = t :: tokens s' := by
  have hskip : skip (c :: s) = c :: s := skip_cons_of_not_mem hc
  rw [tokens_of_ne (by rw [hskip]; exact nofun), gettoken, hskip, h, tokens_skip]

theorem tokens_symbol {cs : List UInt8} {t : Tok} (ht : t.text? = some cs)
    (hgt : t = .gt → s.head? ≠ some 62) : tokens (cs ++ s) = t :: tokens s := by
  cases t with
  | eof => cases ht
  | word w => cases ht
  | gt =>
      cases ht
      exact tokens_of_scan (by simp [whitespace]) (by simp [scan, hgt rfl])
  | _ =>
      cases ht
      exact tokens_of_scan (by simp [whitespace]) (by simp [scan])

theorem scan_word {c : UInt8} (hc : inWord c = true) :
    scan (c :: s) = (.word ((c :: s).takeWhile inWord), (c :: s).dropWhile inWord) := by
  simp only [inWord, symbols, Bool.and_eq_true, Bool.not_eq_true', List.contains_eq_mem,
    decide_eq_false_iff_not, List.mem_cons, not_or] at hc
  obtain ⟨-, h60, h124, h62, h38, h59, h40, h41, -⟩ := hc
  simp only [scan, h60, h124, h62, h38, h59, h40, h41, if_false]

theorem not_mem_whitespace_of_inWord {c : UInt8} (hc : inWord c = true) : c ∉ whitespace := by
  simp only [inWord, Bool.and_eq_true, Bool.not_eq_true', List.contains_eq_mem,
    decide_eq_false_iff_not] at hc
  exact hc.1

theorem dropWhile_eq_self_of_head {p : UInt8 → Bool} (h : ∀ c, s.head? = some c → p c = false) :
    s.dropWhile p = s := by
  cases s with
  | nil => rfl
  | cons c s => exact List.dropWhile_cons_of_neg (by simp [h c rfl])

theorem takeWhile_eq_nil_of_head {p : UInt8 → Bool} (h : ∀ c, s.head? = some c → p c = false) :
    s.takeWhile p = [] := by
  cases s with
  | nil => rfl
  | cons c s => exact List.takeWhile_cons_of_neg (by simp [h c rfl])

theorem tokens_word {w : List UInt8} (hw : w ≠ []) (hin : ∀ c ∈ w, inWord c = true)
    (hmax : ∀ c, s.head? = some c → inWord c = false) : tokens (w ++ s) = .word w :: tokens s := by
  obtain ⟨c, w', rfl⟩ := List.exists_cons_of_ne_nil hw
  have hc := hin c List.mem_cons_self
  refine tokens_of_scan (not_mem_whitespace_of_inWord hc) ?_
  change scan (c :: (w' ++ s)) = _
  rw [scan_word hc, ← List.cons_append,
    List.takeWhile_append_of_pos hin, List.dropWhile_append_of_pos hin,
    takeWhile_eq_nil_of_head hmax, dropWhile_eq_self_of_head hmax, List.append_nil]

theorem Lexes.tokens_eq (h : Lexes s ts) : tokens s = ts := by
  induction h with
  | nil => exact tokens_of_nil rfl
  | white hc h ih => rw [← tokens_skip, skip_cons_of_mem hc, tokens_skip, ih]
  | symbol ht hgt h ih => rw [tokens_symbol ht hgt, ih]
  | word hw hin hmax h ih => rw [tokens_word hw hin hmax, ih]

theorem text_of_symbol {c : UInt8} (hc : c ∈ symbols) (hgt : c ≠ 62) :
    ∃ t : Tok, t.text? = some [c] ∧ t ≠ .gt := by
  simp only [symbols, List.mem_cons, List.not_mem_nil, or_false] at hc
  rcases hc with rfl | rfl | rfl | rfl | rfl | rfl | rfl
  · exact ⟨.lt, rfl, nofun⟩
  · exact ⟨.bar, rfl, nofun⟩
  · exact absurd rfl hgt
  · exact ⟨.amp, rfl, nofun⟩
  · exact ⟨.semi, rfl, nofun⟩
  · exact ⟨.lpar, rfl, nofun⟩
  · exact ⟨.rpar, rfl, nofun⟩

theorem lexes_word {c : UInt8} (hc : inWord c = true) (h : Lexes ((c :: s).dropWhile inWord) ts) :
    Lexes (c :: s) (.word ((c :: s).takeWhile inWord) :: ts) := by
  have hw : (c :: s).takeWhile inWord ≠ [] := by
    rw [List.takeWhile_cons_of_pos hc]
    exact nofun
  have hmax : ∀ x, ((c :: s).dropWhile inWord).head? = some x → inWord x = false := by
    intro x hx
    have hhead := List.head?_dropWhile_not inWord (c :: s)
    rw [hx] at hhead
    exact hhead
  have hlex := Lexes.word hw (fun x hx => List.mem_takeWhile_imp hx) hmax h
  rwa [List.takeWhile_append_dropWhile] at hlex

theorem exists_lexes (s : List UInt8) : ∃ ts, Lexes s ts := by
  induction hn : s.length using Nat.strong_induction_on generalizing s with
  | _ n ih =>
      subst hn
      cases s with
      | nil => exact ⟨[], .nil⟩
      | cons c s =>
          obtain ⟨ts, hts⟩ := ih s.length (Nat.lt_succ_self _) s rfl
          by_cases hws : c ∈ whitespace
          · exact ⟨ts, .white hws hts⟩
          by_cases hin : inWord c = true
          · have hlen : ((c :: s).dropWhile inWord).length < (c :: s).length := by
              rw [List.dropWhile_cons_of_pos hin]
              exact Nat.lt_succ_of_le (length_dropWhile_le _ s)
            obtain ⟨ts', hts'⟩ := ih _ hlen _ rfl
            exact ⟨_, lexes_word hin hts'⟩
          have hsym : c ∈ symbols := by
            simp only [inWord, Bool.and_eq_true, Bool.not_eq_true', List.contains_eq_mem,
              decide_eq_false_iff_not, not_and, not_not] at hin
            exact hin hws
          by_cases hgt : c = 62
          · subst hgt
            by_cases hhead : s.head? = some 62
            · obtain ⟨s', rfl⟩ := List.head?_eq_some_iff.mp hhead
              obtain ⟨ts', hts'⟩ := ih s'.length (by simp only [List.length_cons]; omega) s' rfl
              exact ⟨.gtgt :: ts', .symbol (t := .gtgt) rfl nofun hts'⟩
            · exact ⟨.gt :: ts, .symbol (t := .gt) rfl (fun _ => hhead) hts⟩
          · obtain ⟨t, ht, hne⟩ := text_of_symbol hsym hgt
            exact ⟨t :: ts, .symbol ht (fun h => absurd h hne) hts⟩

theorem lexes_iff : Lexes s ts ↔ tokens s = ts := by
  refine ⟨Lexes.tokens_eq, fun h => ?_⟩
  obtain ⟨ts', hts'⟩ := exists_lexes s
  rw [← h, hts'.tokens_eq]
  exact hts'

end Lexes

end Xv6.User.Sh
