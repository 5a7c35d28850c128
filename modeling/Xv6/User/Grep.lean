import Mathlib

/-!
# User — `grep`

`grep.c`: the matcher, and the loop that reads into a buffer, writes the lines that match, and moves
what is left of the last line to the front of the buffer.  What the calls of `read` return is given as
a list of byte strings; the one after the last is the end of the input.

When a read leaves the buffer without a newline, `p == buf` and the loop sets `m` to 0: the beginning
of a line that is not complete yet is thrown away.  So the output is that of the lines that match
(`matching`), for every pattern, exactly if each read but those after the last newline brings a
newline (`grep_eq_matching_iff`).
-/

namespace Xv6.User

/-! ### The matcher

The bytes of a pattern and of a text, without the NUL at their end. -/

def newline : UInt8 := 10

/-- `matchstar`'s loop, with `matchhere(re, ·)` for the pattern after the star. -/
def starLoop (here : List UInt8 → Bool) (c : UInt8) : List UInt8 → Bool
  | [] => here []
  | t :: text => here (t :: text) || ((t == c || c == 46) && starLoop here c text)

def matchhere : List UInt8 → List UInt8 → Bool
  | [], _ => true
  | [c], text =>
      if c = 36 then text.isEmpty
      else
        match text with
        | [] => false
        | t :: text => (c == 46 || c == t) && matchhere [] text
  | c :: d :: re, text =>
      if d = 42 then starLoop (matchhere re) c text
      else
        match text with
        | [] => false
        | t :: text => (c == 46 || c == t) && matchhere (d :: re) text

def matchstar (c : UInt8) (re text : List UInt8) : Bool := starLoop (matchhere re) c text

/-- `match`'s loop. -/
def matchLoop (re : List UInt8) : List UInt8 → Bool
  | [] => matchhere re []
  | t :: text => matchhere re (t :: text) || matchLoop re text

/-- `match`. -/
def matchRe (re text : List UInt8) : Bool :=
  if re.head? = some 94 then matchhere re.tail text else matchLoop re text

theorem matchhere_star (c : UInt8) (re text : List UInt8) :
    matchhere (c :: 42 :: re) text = matchstar c re text := by
  simp [matchhere, matchstar]

theorem matchRe_nil (text : List UInt8) : matchRe [] text = true := by
  cases text with
  | nil => rfl
  | cons t text => simp [matchRe, matchLoop, matchhere]

/-! ### The loop -/

/-- `strchr(p, '\n')`, as the offset from `p`: the search ends at a NUL. -/
def strchrNewline : List UInt8 → Option Nat
  | [] => none
  | c :: p => if c = newline then some 0 else if c = 0 then none else (strchrNewline p).map (· + 1)

/-- The inner loop from `p`, for at most `n` rounds: what it writes, and `p` after it. -/
def lineLoop (pattern : List UInt8) : (n : Nat) → (p : List UInt8) → List UInt8 × List UInt8
  | 0, p => ([], p)
  | n + 1, p =>
      match strchrNewline p with
      | none => ([], p)
      | some k =>
          let r := lineLoop pattern n (p.drop (k + 1))
          ((if matchRe pattern (p.take k) then p.take (k + 1) else []) ++ r.1, r.2)

/-- The outer loop, with the `m` bytes that are in the buffer; a round of the inner loop takes a byte
at least. -/
def grepLoop (pattern : List UInt8) : (buf : List UInt8) → (reads : List (List UInt8)) → List UInt8
  | _, [] => []
  | buf, r :: reads =>
      let text := buf ++ r
      let (out, p) := lineLoop pattern text.length text
      -- `p == buf`: no newline was found
      let buf := if p.length = text.length then [] else p
      out ++ grepLoop pattern buf reads

def grep (pattern : List UInt8) (reads : List (List UInt8)) : List UInt8 := grepLoop pattern [] reads

/-! ### The lines of a stream -/

/-- The lines that end in a newline, after the bytes of the first one in `line`. -/
def linesFrom : (line stream : List UInt8) → List (List UInt8)
  | _, [] => []
  | line, c :: stream =>
      if c = newline then line :: linesFrom [] stream else linesFrom (line ++ [c]) stream

/-- The lines of the stream that match, each with its newline. -/
def matching (pattern stream : List UInt8) : List UInt8 :=
  ((linesFrom [] stream).filter (matchRe pattern)).flatMap (· ++ [newline])

section Lines
variable {pattern line p q text : List UInt8}

theorem linesFrom_append (h : newline ∉ p) : linesFrom line (p ++ q) = linesFrom (line ++ p) q := by
  induction p generalizing line with
  | nil => simp
  | cons c p ih =>
      have hc : c ≠ newline := fun hc => h (hc ▸ List.mem_cons_self)
      rw [List.cons_append, linesFrom, if_neg hc, ih fun hp => h (List.mem_cons_of_mem c hp),
        List.append_assoc, List.singleton_append]

theorem linesFrom_eq_nil (h : newline ∉ p) : linesFrom line p = [] := by
  have happend : linesFrom line (p ++ []) = linesFrom (line ++ p) [] := linesFrom_append h
  rwa [List.append_nil] at happend

theorem matching_eq_nil (h : newline ∉ p) : matching pattern p = [] := by
  rw [matching, linesFrom_eq_nil h]
  rfl

/-- A whole line at the front. -/
theorem matching_cons (h : newline ∉ p) : matching pattern (p ++ newline :: q) =
    (if matchRe pattern p then p ++ [newline] else []) ++ matching pattern q := by
  rw [matching, linesFrom_append h, List.nil_append, linesFrom, if_pos rfl, List.filter_cons]
  split
  · rw [List.flatMap_cons]
    rfl
  · rfl

theorem strchrNewline_eq_none (h : (0 : UInt8) ∉ p) : strchrNewline p = none ↔ newline ∉ p := by
  induction p with
  | nil => simp [strchrNewline]
  | cons c p ih =>
      rw [strchrNewline]
      by_cases hc : c = newline
      · simp [hc]
      · have h0 : c ≠ 0 := fun h0 => h (h0 ▸ List.mem_cons_self)
        rw [if_neg hc, if_neg h0, Option.map_eq_none_iff, ih fun hp => h (List.mem_cons_of_mem c hp),
          List.mem_cons, not_or, and_iff_right (Ne.symm hc)]

theorem strchrNewline_eq_some {k : Nat} (h : strchrNewline p = some k) :
    ∃ a b, p = a ++ newline :: b ∧ a.length = k ∧ newline ∉ a := by
  induction p generalizing k with
  | nil => cases h
  | cons c p ih =>
      rw [strchrNewline] at h
      split at h
      · rename_i hc
        cases h
        exact ⟨[], p, by rw [hc]; rfl, rfl, List.not_mem_nil⟩
      · rename_i hc
        split at h
        · cases h
        · obtain ⟨j, hj, rfl⟩ := Option.map_eq_some_iff.mp h
          obtain ⟨a, b, rfl, rfl, ha⟩ := ih hj
          refine ⟨c :: a, b, rfl, rfl, ?_⟩
          rw [List.mem_cons, not_or]
          exact ⟨Ne.symm hc, ha⟩

/-- The inner loop writes the lines of the buffer that match, and leaves what is after the last
newline. -/
theorem lineLoop_eq (pattern : List UInt8) {n : Nat} (hn : text.length ≤ n) (h : (0 : UInt8) ∉ text) :
    ∃ a p, text = a ++ p ∧ newline ∉ p ∧ lineLoop pattern n text = (matching pattern text, p) ∧
      (p.length = text.length ↔ newline ∉ text) ∧
      ∀ q, matching pattern (text ++ q) = matching pattern text ++ matching pattern (p ++ q) := by
  induction n generalizing text with
  | zero =>
      obtain rfl := List.length_eq_zero_iff.mp (Nat.le_zero.mp hn)
      exact ⟨[], [], rfl, List.not_mem_nil, rfl, by simp, fun _ => rfl⟩
  | succ n ih =>
      rw [lineLoop]
      cases hk : strchrNewline text with
      | none =>
          have hno := (strchrNewline_eq_none h).mp hk
          refine ⟨[], text, rfl, hno, ?_, by simp [hno], fun q => ?_⟩
          · rw [matching_eq_nil hno]
          · rw [matching_eq_nil hno]
            rfl
      | some k =>
          obtain ⟨a, b, rfl, rfl, ha⟩ := strchrNewline_eq_some hk
          have hdrop : (a ++ newline :: b).drop (a.length + 1) = b := by
            rw [← List.drop_drop, List.drop_left]
            rfl
          have htake : (a ++ newline :: b).take (a.length + 1) = a ++ [newline] := by
            rw [List.take_append, List.take_of_length_le (Nat.le_succ _), Nat.add_sub_cancel_left]
            rfl
          have hb : (0 : UInt8) ∉ b := fun hb => h (List.mem_append_right _ (List.mem_cons_of_mem _ hb))
          have hlen : b.length ≤ n := by
            simp at hn
            omega
          obtain ⟨a', p, hp, hno, hloop, -, happ⟩ := ih hlen hb
          refine ⟨a ++ newline :: a', p, ?_, hno, ?_, ?_, fun q => ?_⟩
          · rw [hp]
            simp
          · dsimp only
            rw [hdrop, htake, List.take_left, hloop, matching_cons ha]
          · have hlen := congrArg List.length hp
            simp at hlen ⊢
            omega
          · rw [List.append_assoc, List.cons_append, matching_cons ha, matching_cons ha, happ,
              List.append_assoc]

end Lines

/-! ### How the input is read -/

/-- Each read brings a newline, until there is none left to come. -/
def Whole : List (List UInt8) → Prop
  | [] => True
  | r :: reads => (newline ∈ r ∨ newline ∉ reads.flatten) ∧ Whole reads

section Reads
variable {pattern buf : List UInt8} {reads : List (List UInt8)}

/-- One round of the outer loop, when the buffer has no newline at its beginning. -/
theorem grepLoop_cons (pattern : List UInt8) (reads : List (List UInt8)) {r : List UInt8}
    (h : (0 : UInt8) ∉ buf ++ r) (hbuf : newline ∉ buf) :
    ∃ p, newline ∉ p ∧ (0 : UInt8) ∉ p ∧
      grepLoop pattern buf (r :: reads) = matching pattern (buf ++ r) ++
        grepLoop pattern (if newline ∈ r then p else []) reads ∧
      ∀ q, matching pattern (buf ++ r ++ q) =
        matching pattern (buf ++ r) ++ matching pattern (p ++ q) := by
  obtain ⟨a, p, hp, hno, hloop, hlen, happ⟩ := lineLoop_eq pattern le_rfl h
  refine ⟨p, hno, fun h0 => h (by rw [hp]; exact List.mem_append_right a h0), ?_, happ⟩
  have hr : p.length = (buf ++ r).length ↔ newline ∉ r := by
    rw [hlen, List.mem_append, not_or, and_iff_right hbuf]
  rw [grepLoop, hloop]
  dsimp only
  by_cases hmem : newline ∈ r
  · rw [if_neg fun he => hr.mp he hmem, if_pos hmem]
  · rw [if_pos (hr.mpr hmem), if_neg hmem]

theorem grepLoop_eq (h : (0 : UInt8) ∉ buf ++ reads.flatten) (hbuf : newline ∉ buf)
    (hw : Whole reads) : grepLoop pattern buf reads = matching pattern (buf ++ reads.flatten) := by
  induction reads generalizing buf with
  | nil =>
      rw [List.flatten_nil, List.append_nil, matching_eq_nil hbuf]
      rfl
  | cons r reads ih =>
      rw [List.flatten_cons, ← List.append_assoc] at h ⊢
      have hr : (0 : UInt8) ∉ buf ++ r := fun h0 => h (List.mem_append_left _ h0)
      have hrest : (0 : UInt8) ∉ reads.flatten := fun h0 => h (List.mem_append_right _ h0)
      obtain ⟨p, hno, h0, hloop, happ⟩ := grepLoop_cons pattern reads hr hbuf
      rw [hloop, happ]
      congr 1
      split
      · exact ih (fun hmem => (List.mem_append.mp hmem).elim h0 hrest) hno hw.2
      · -- nothing more is written
        rename_i hmem
        have hlast := hw.1.resolve_left hmem
        rw [ih (by simpa using hrest) List.not_mem_nil hw.2, List.nil_append, matching_eq_nil hlast,
          matching_eq_nil]
        rw [List.mem_append, not_or]
        exact ⟨hno, hlast⟩

/-- Every line matches the empty pattern. -/
theorem matching_nil_append {p q : List UInt8} (hp : newline ∉ p) (hq : newline ∈ q) :
    matching [] (p ++ q) = p ++ matching [] q := by
  obtain ⟨a, b, rfl, ha⟩ := List.eq_append_cons_of_mem hq
  have hpa : newline ∉ p ++ a := by
    rw [List.mem_append, not_or]
    exact ⟨hp, ha⟩
  rw [← List.append_assoc, matching_cons hpa, matching_cons ha, matchRe_nil, matchRe_nil, if_pos rfl,
    if_pos rfl, List.append_assoc, List.append_assoc, List.append_assoc]

/-- A line of which the beginning was thrown away is shorter. -/
theorem length_grepLoop (hne : ∀ r ∈ reads, r ≠ []) (h : (0 : UInt8) ∉ buf ++ reads.flatten)
    (hbuf : newline ∉ buf) :
    (grepLoop [] buf reads).length ≤ (matching [] (buf ++ reads.flatten)).length ∧
      (¬ Whole reads →
        (grepLoop [] buf reads).length < (matching [] (buf ++ reads.flatten)).length) := by
  induction reads generalizing buf with
  | nil => exact ⟨Nat.zero_le _, fun hw => absurd trivial hw⟩
  | cons r reads ih =>
      rw [List.flatten_cons, ← List.append_assoc] at h ⊢
      have hr : (0 : UInt8) ∉ buf ++ r := fun h0 => h (List.mem_append_left _ h0)
      have hrest : (0 : UInt8) ∉ reads.flatten := fun h0 => h (List.mem_append_right _ h0)
      obtain ⟨p, hno, h0, hloop, happ⟩ := grepLoop_cons [] reads hr hbuf
      have hne' : ∀ r ∈ reads, r ≠ [] := fun r' hr' => hne r' (List.mem_cons_of_mem r hr')
      have hpos : 0 < r.length := List.length_pos_of_ne_nil (hne r List.mem_cons_self)
      rw [hloop]
      by_cases hmem : newline ∈ r
      · obtain ⟨hle, hlt⟩ := ih hne' (fun hm => (List.mem_append.mp hm).elim h0 hrest) hno
        rw [if_pos hmem, happ, List.length_append, List.length_append]
        refine ⟨by omega, fun hw => ?_⟩
        have := hlt fun hw' => hw ⟨.inl hmem, hw'⟩
        omega
      · have hbr : newline ∉ buf ++ r := by
          rw [List.mem_append, not_or]
          exact ⟨hbuf, hmem⟩
        obtain ⟨hle, hlt⟩ := ih hne' (by simpa using hrest) List.not_mem_nil
        rw [List.nil_append] at hle hlt
        rw [if_neg hmem, matching_eq_nil hbr, List.nil_append]
        by_cases hlast : newline ∈ reads.flatten
        · rw [matching_nil_append hbr hlast, List.length_append, List.length_append]
          exact ⟨by omega, fun _ => by omega⟩
        · rw [matching_eq_nil hlast] at hle hlt
          refine ⟨hle.trans (Nat.zero_le _), fun hw => ?_⟩
          exact absurd (hlt fun hw' => hw ⟨.inr hlast, hw'⟩) (Nat.not_lt_zero _)

end Reads

/-- **How `grep` reads.**  For a stream without a NUL, in whatever pieces it is read: `grep` writes the
lines that match, for every pattern, if and only if each read brings a newline until there is none left
to come.  So on two ways to read the stream of which this is true it writes the same. -/
theorem grep_eq_matching_iff (stream : List UInt8) (reads : List (List UInt8))
    (hnul : (0 : UInt8) ∉ stream) (hne : ∀ r ∈ reads, r ≠ []) (hreads : reads.flatten = stream) :
    (∀ pattern, grep pattern reads = matching pattern stream) ↔ Whole reads := by
  subst hreads
  constructor
  · intro h
    by_contra hw
    have hnul' : (0 : UInt8) ∉ [] ++ reads.flatten := hnul
    have hlt := (length_grepLoop hne hnul' List.not_mem_nil).2 hw
    have heq : grepLoop [] [] reads = matching [] reads.flatten := h []
    rw [heq, List.nil_append] at hlt
    exact lt_irrefl _ hlt
  · intro hw pattern
    have hnul' : (0 : UInt8) ∉ [] ++ reads.flatten := hnul
    exact grepLoop_eq hnul' List.not_mem_nil hw

/-- `grep a` on the two lines `ab` and `b`, a line at a time. -/
theorem grep_two_lines : grep [97] [[97, 98, 10], [98, 10]] = [97, 98, 10] := by
  have hwhole : Whole [[97, 98, 10], [98, 10]] := ⟨.inl (by decide), .inl (by decide), trivial⟩
  rw [(grep_eq_matching_iff [97, 98, 10, 98, 10] _ (by decide) (by decide) rfl).mpr hwhole]
  decide

/-- `grep a` on the line `ab`, read at once and read in two pieces. -/
theorem grep_split_line : grep [97] [[97, 98, 10]] = [97, 98, 10] ∧
    grep [97] [[97], [98, 10]] = [] ∧ matching [97] [97, 98, 10] = [97, 98, 10] := by
  decide

end Xv6.User
