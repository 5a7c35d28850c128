import Xv6.User.Lex

/-!
# User — the shell's parser

The parsing functions of `sh.c`.  A `panic` is an error, and `malloc` is taken not to fail.  The functions
call one another without a bound, so they have fuel, and `parsecmd` gives them enough for its string
(`parsecmd_ne_fuel`).  A word is its text here; `Xv6.User.Nulterminate` has the pointers into the buffer.

`Derives` is the grammar over the tokens.  A parsing function takes tokens that derive from its nonterminal
(`parse_sound`), and all of those that do when what comes after them can follow it (`parse_complete`).
-/

namespace Xv6.User.Sh

/-- `MAXARGS`. -/
def maxargs : Nat := 10

/-- `struct redircmd` without its command. -/
structure Redir where
  file : List UInt8
  mode : Nat
  fd : Nat
  deriving DecidableEq

inductive Cmd where
  | exec (argv : List (List UInt8))
  | redir (cmd : Cmd) (r : Redir)
  | pipe (left right : Cmd)
  | list (left right : Cmd)
  | back (cmd : Cmd)
  deriving DecidableEq

inductive Err where
  | leftovers
  | missingFile
  | parseblock
  | missingRpar
  | syntaxError
  | tooManyArgs
  | fuel
  deriving DecidableEq

/-- `redircmd` with the mode and descriptor for the token: `O_RDONLY`, or `O_WRONLY|O_CREATE`. -/
def redirOf (tok : Tok) (file : List UInt8) : Redir :=
  match tok with
  | .lt => ⟨file, 0, 0⟩
  | _ => ⟨file, 0x201, 1⟩

/-- `cmd` with the redirections around it, the first innermost. -/
def wrap (cmd : Cmd) (rs : List Redir) : Cmd := rs.foldl .redir cmd

/-- The redirections that `parseredirs` wraps its command in. -/
def parseredirs : Nat → List UInt8 → Except Err (List Redir × List UInt8)
  | 0, _ => .error .fuel
  | n + 1, s =>
      match peek [60, 62] s with
      | (false, s) => .ok ([], s)
      | (true, s) =>
          match gettoken (gettoken s).2 with
          | (.word w, s') => do
              let (rs, s'') ← parseredirs n s'
              return (redirOf (gettoken s).1 w :: rs, s'')
          | _ => .error .missingFile

/-- The loop of `parseexec`: the words it stores to `argv` and the redirections between them. -/
def argLoop : Nat → Nat → List UInt8 → Except Err (List (List UInt8) × List Redir × List UInt8)
  | 0, _, _ => .error .fuel
  | n + 1, argc, s =>
      match peek [124, 41, 38, 59] s with
      | (true, s) => .ok ([], [], s)
      | (false, s) =>
          match gettoken s with
          | (.eof, s) => .ok ([], [], s)
          | (.word w, s) =>
              if maxargs ≤ argc + 1 then .error .tooManyArgs
              else do
                let (rs, s) ← parseredirs n s
                let (ws, rs', s) ← argLoop n (argc + 1) s
                return (w :: ws, rs ++ rs', s)
          | _ => .error .syntaxError

/-- The loop of `parseline` over `&`. -/
def backLoop : Nat → Cmd → List UInt8 → Except Err (Cmd × List UInt8)
  | 0, _, _ => .error .fuel
  | n + 1, cmd, s =>
      match peek [38] s with
      | (false, s) => .ok (cmd, s)
      | (true, s) => backLoop n (.back cmd) (gettoken s).2

mutual

def parseline : Nat → List UInt8 → Except Err (Cmd × List UInt8)
  | 0, _ => .error .fuel
  | n + 1, s => do
      let (cmd, s) ← parsepipe n s
      let (cmd, s) ← backLoop n cmd s
      match peek [59] s with
      | (false, s) => return (cmd, s)
      | (true, s) => do
          let (right, s) ← parseline n (gettoken s).2
          return (.list cmd right, s)

def parsepipe : Nat → List UInt8 → Except Err (Cmd × List UInt8)
  | 0, _ => .error .fuel
  | n + 1, s => do
      let (cmd, s) ← parseexec n s
      match peek [124] s with
      | (false, s) => return (cmd, s)
      | (true, s) => do
          let (right, s) ← parsepipe n (gettoken s).2
          return (.pipe cmd right, s)

def parseexec : Nat → List UInt8 → Except Err (Cmd × List UInt8)
  | 0, _ => .error .fuel
  | n + 1, s =>
      match peek [40] s with
      | (true, s) => parseblock n s
      | (false, s) => do
          let (rs, s) ← parseredirs n s
          let (ws, rs', s) ← argLoop n 0 s
          return (wrap (.exec ws) (rs ++ rs'), s)

def parseblock : Nat → List UInt8 → Except Err (Cmd × List UInt8)
  | 0, _ => .error .fuel
  | n + 1, s =>
      match peek [40] s with
      | (false, _) => .error .parseblock
      | (true, s) => do
          let (cmd, s) ← parseline n (gettoken s).2
          match peek [41] s with
          | (false, _) => .error .missingRpar
          | (true, s) => do
              let (rs, s) ← parseredirs n (gettoken s).2
              return (wrap cmd rs, s)

end

def parsecmd (s : List UInt8) : Except Err Cmd := do
  let (cmd, s) ← parseline (5 * s.length + 5) s
  if (peek [] s).2 = [] then return cmd else .error .leftovers

/-! ### The grammar -/

/-- `redir ::= ('<' | '>' | '>>') word` -/
def Tok.isRedir (t : Tok) : Prop := t = .lt ∨ t = .gt ∨ t = .gtgt

/-- `redir*` -/
inductive Redirs : List Tok → List Redir → Prop where
  | nil : Redirs [] []
  | cons {t : Tok} {w : List UInt8} {ts : List Tok} {rs : List Redir} (ht : t.isRedir)
      (h : Redirs ts rs) : Redirs (t :: .word w :: ts) (redirOf t w :: rs)

/-- `(word redir*)*` -/
inductive Args : List Tok → List (List UInt8) → List Redir → Prop where
  | nil : Args [] [] []
  | cons {w : List UInt8} {ts ts' : List Tok} {rs rs' : List Redir} {ws : List (List UInt8)}
      (h : Redirs ts rs) (h' : Args ts' ws rs') : Args (.word w :: (ts ++ ts')) (w :: ws) (rs ++ rs')

inductive Kind where
  | line
  | pipe
  | exec

/-- `&` after `cmd`, `n` times. -/
def backs (cmd : Cmd) : Nat → Cmd
  | 0 => cmd
  | n + 1 => backs (.back cmd) n

/-- The tokens derive from the nonterminal, and the tree is the one for the derivation. -/
inductive Derives : Kind → List Tok → Cmd → Prop where
  /-- `exec ::= '(' line ')' redir*` -/
  | block {ts ts' : List Tok} {cmd : Cmd} {rs : List Redir} (h : Derives .line ts cmd)
      (hr : Redirs ts' rs) : Derives .exec (.lpar :: (ts ++ .rpar :: ts')) (wrap cmd rs)
  /-- `exec ::= redir* (word redir*)*` -/
  | words {ts ts' : List Tok} {ws : List (List UInt8)} {rs rs' : List Redir} (hr : Redirs ts rs)
      (ha : Args ts' ws rs') (hmax : ws.length ≤ maxargs - 1) :
      Derives .exec (ts ++ ts') (wrap (.exec ws) (rs ++ rs'))
  /-- `pipe ::= exec` -/
  | one {ts : List Tok} {cmd : Cmd} (h : Derives .exec ts cmd) : Derives .pipe ts cmd
  /-- `pipe ::= exec '|' pipe` -/
  | more {ts ts' : List Tok} {cmd cmd' : Cmd} (h : Derives .exec ts cmd) (h' : Derives .pipe ts' cmd') :
      Derives .pipe (ts ++ .bar :: ts') (.pipe cmd cmd')
  /-- `line ::= pipe '&'*` -/
  | last {ts : List Tok} {cmd : Cmd} (n : Nat) (h : Derives .pipe ts cmd) :
      Derives .line (ts ++ List.replicate n .amp) (backs cmd n)
  /-- `line ::= pipe '&'* ';' line` -/
  | next {ts ts' : List Tok} {cmd cmd' : Cmd} (n : Nat) (h : Derives .pipe ts cmd)
      (h' : Derives .line ts' cmd') :
      Derives .line (ts ++ List.replicate n .amp ++ .semi :: ts') (.list (backs cmd n) cmd')

/-! ### What is taken derives -/

section Sound
variable {n argc : Nat} {s s' : List UInt8} {rs : List Redir} {ws : List (List UInt8)} {cmd cmd' : Cmd}

/-- A `peek` for one of these symbols that is true. -/
theorem peek_true {toks : List UInt8} (h : ∀ x ∈ toks, x ∈ symbols) (hp : peek toks s = (true, s')) :
    tokens s' = tokens s ∧ ∃ t ts, tokens s = t :: ts ∧ t.isIn toks = true := by
  rw [peek_eq h] at hp
  obtain ⟨hany, rfl⟩ := Prod.mk.inj hp
  refine ⟨tokens_skip s, ?_⟩
  cases hs : tokens s with
  | nil =>
      rw [hs] at hany
      cases hany
  | cons t ts =>
      rw [hs] at hany
      exact ⟨t, ts, rfl, hany⟩

theorem peek_false {toks : List UInt8} (h : ∀ x ∈ toks, x ∈ symbols) (hp : peek toks s = (false, s')) :
    tokens s' = tokens s ∧ ∀ t ts, tokens s = t :: ts → t.isIn toks = false := by
  rw [peek_eq h] at hp
  obtain ⟨hany, rfl⟩ := Prod.mk.inj hp
  refine ⟨tokens_skip s, fun t ts hs => ?_⟩
  rw [hs] at hany
  exact hany

/-- A symbol that a `peek` for its character has found. -/
theorem tokens_of_peek {c : UInt8} (t₀ : Tok) (hc : t₀.sole? = some c) (hp : peek [c] s = (true, s')) :
    tokens s = t₀ :: tokens (gettoken s').2 := by
  obtain ⟨hs', t, ts, hs, ht⟩ := peek_true (by simpa using Tok.sole_mem hc) hp
  obtain rfl := Tok.eq_of_isIn hc ht
  rw [hs, (gettoken_of_cons (hs'.trans hs)).2]

theorem isRedir_of_isIn {t : Tok} (h : t.isIn [60, 62] = true) : t.isRedir := by
  cases t <;> simp [Tok.isIn, Tok.char?, Tok.isRedir] at h ⊢

theorem redir_symbols : ∀ x ∈ ([60, 62] : List UInt8), x ∈ symbols := by
  simp [symbols]

theorem stop_symbols : ∀ x ∈ ([124, 41, 38, 59] : List UInt8), x ∈ symbols := by
  simp [symbols]

/-- `x >>= f` that is not an error. -/
theorem bind_eq_ok {ε α β : Type} {x : Except ε α} {f : α → Except ε β} {b : β}
    (h : x >>= f = .ok b) : ∃ a, x = .ok a ∧ f a = .ok b := by
  cases x with
  | error e => cases h
  | ok a => exact ⟨a, rfl, h⟩

theorem parseredirs_sound (h : parseredirs n s = .ok (rs, s')) :
    ∃ ts, tokens s = ts ++ tokens s' ∧ Redirs ts rs := by
  induction n generalizing s rs with
  | zero => cases h
  | succ n ih =>
      rw [parseredirs] at h
      split at h
      · rename_i s₁ hp
        cases h
        exact ⟨[], (peek_false redir_symbols hp).1.symm, .nil⟩
      · rename_i s₁ hp
        obtain ⟨hs₁, t, ts, hs, ht⟩ := peek_true redir_symbols hp
        obtain ⟨htok, hrest⟩ := gettoken_of_cons (hs₁.trans hs)
        split at h
        · rename_i w s₂ hw
          obtain ⟨⟨rs', s₃⟩, hrec, hret⟩ := bind_eq_ok h
          cases hret
          obtain ⟨ts', hts', hrs'⟩ := ih hrec
          have hword := tokens_of_gettoken hw nofun
          rw [htok]
          refine ⟨t :: .word w :: ts', ?_, .cons (isRedir_of_isIn ht) hrs'⟩
          rw [hs, ← hrest, hword, hts']
          rfl
        · cases h

theorem argLoop_sound (h : argLoop n argc s = .ok (ws, rs, s')) (hargc : argc < maxargs) :
    ∃ ts, tokens s = ts ++ tokens s' ∧ Args ts ws rs ∧ argc + ws.length < maxargs := by
  induction n generalizing s ws rs argc with
  | zero => cases h
  | succ n ih =>
      rw [argLoop] at h
      split at h
      · rename_i s₁ hp
        cases h
        exact ⟨[], (peek_true stop_symbols hp).1.symm, .nil, hargc⟩
      · rename_i s₁ hp
        have hs₁ := (peek_false stop_symbols hp).1
        split at h
        · rename_i s₂ htok
          cases h
          obtain ⟨hnil, hnil'⟩ := tokens_of_gettoken_eof htok
          exact ⟨[], by rw [← hs₁, hnil, hnil']; rfl, .nil, hargc⟩
        · rename_i w s₂ htok
          split_ifs at h with hmax
          obtain ⟨⟨rs₁, s₃⟩, hredirs, h⟩ := bind_eq_ok h
          obtain ⟨⟨ws₂, rs₂, s₄⟩, hrec, hret⟩ := bind_eq_ok h
          cases hret
          obtain ⟨ts₁, hts₁, hr₁⟩ := parseredirs_sound hredirs
          obtain ⟨ts₂, hts₂, ha₂, hlen⟩ := ih hrec (Nat.lt_of_not_le hmax)
          refine ⟨.word w :: (ts₁ ++ ts₂), ?_, .cons hr₁ ha₂, ?_⟩
          · rw [← hs₁, tokens_of_gettoken htok nofun, hts₁, hts₂, List.cons_append, List.append_assoc]
          · rw [List.length_cons]
            omega
        · cases h

theorem backLoop_sound (h : backLoop n cmd s = .ok (cmd', s')) :
    ∃ k, tokens s = List.replicate k .amp ++ tokens s' ∧ cmd' = backs cmd k := by
  induction n generalizing s cmd with
  | zero => cases h
  | succ n ih =>
      rw [backLoop] at h
      split at h
      · rename_i s₁ hp
        cases h
        exact ⟨0, (peek_false (by simp [symbols]) hp).1.symm, rfl⟩
      · rename_i s₁ hp
        obtain ⟨k, hk, hcmd⟩ := ih h
        refine ⟨k + 1, ?_, hcmd⟩
        rw [tokens_of_peek .amp rfl hp, hk]
        rfl

/-- What a function takes derives from the nonterminal. -/
def Sound (k : Kind) (f : List UInt8 → Except Err (Cmd × List UInt8)) : Prop :=
  ∀ s cmd s', f s = .ok (cmd, s') → ∃ ts, tokens s = ts ++ tokens s' ∧ Derives k ts cmd

theorem parseline_sound (hline : Sound .line (parseline n)) (hpipe : Sound .pipe (parsepipe n)) :
    Sound .line (parseline (n + 1)) := by
  intro s cmd s' h
  rw [parseline] at h
  obtain ⟨⟨cmd₁, s₁⟩, h₁, h⟩ := bind_eq_ok h
  obtain ⟨⟨cmd₂, s₂⟩, h₂, h⟩ := bind_eq_ok h
  obtain ⟨ts₁, hts₁, hd₁⟩ := hpipe _ _ _ h₁
  obtain ⟨k, hk, rfl⟩ := backLoop_sound h₂
  dsimp only at h
  split at h
  · rename_i s₃ hp
    cases h
    refine ⟨ts₁ ++ List.replicate k .amp, ?_, .last k hd₁⟩
    rw [hts₁, hk, (peek_false (by simp [symbols]) hp).1, List.append_assoc]
  · rename_i s₃ hp
    obtain ⟨⟨cmd₃, s₄⟩, h₃, hret⟩ := bind_eq_ok h
    cases hret
    obtain ⟨ts₃, hts₃, hd₃⟩ := hline _ _ _ h₃
    refine ⟨ts₁ ++ List.replicate k .amp ++ .semi :: ts₃, ?_, .next k hd₁ hd₃⟩
    rw [hts₁, hk, tokens_of_peek .semi rfl hp, hts₃]
    simp

theorem parsepipe_sound (hpipe : Sound .pipe (parsepipe n)) (hexec : Sound .exec (parseexec n)) :
    Sound .pipe (parsepipe (n + 1)) := by
  intro s cmd s' h
  rw [parsepipe] at h
  obtain ⟨⟨cmd₁, s₁⟩, h₁, h⟩ := bind_eq_ok h
  obtain ⟨ts₁, hts₁, hd₁⟩ := hexec _ _ _ h₁
  dsimp only at h
  split at h
  · rename_i s₃ hp
    cases h
    exact ⟨ts₁, by rw [hts₁, (peek_false (by simp [symbols]) hp).1], .one hd₁⟩
  · rename_i s₃ hp
    obtain ⟨⟨cmd₃, s₄⟩, h₃, hret⟩ := bind_eq_ok h
    cases hret
    obtain ⟨ts₃, hts₃, hd₃⟩ := hpipe _ _ _ h₃
    refine ⟨ts₁ ++ .bar :: ts₃, ?_, .more hd₁ hd₃⟩
    rw [hts₁, tokens_of_peek .bar rfl hp, hts₃]
    simp

theorem parseexec_sound (hblock : Sound .exec (parseblock n)) : Sound .exec (parseexec (n + 1)) := by
  intro s cmd s' h
  rw [parseexec] at h
  split at h
  · rename_i s₁ hp
    obtain ⟨ts, hts, hd⟩ := hblock _ _ _ h
    exact ⟨ts, by rw [← hts, (peek_true (by simp [symbols]) hp).1], hd⟩
  · rename_i s₁ hp
    obtain ⟨⟨rs₁, s₂⟩, h₁, h⟩ := bind_eq_ok h
    obtain ⟨⟨ws, rs₂, s₃⟩, h₂, hret⟩ := bind_eq_ok h
    cases hret
    obtain ⟨ts₁, hts₁, hr⟩ := parseredirs_sound h₁
    obtain ⟨ts₂, hts₂, ha, hlen⟩ := argLoop_sound h₂ (by decide)
    refine ⟨ts₁ ++ ts₂, ?_, .words hr ha (by omega)⟩
    rw [← (peek_false (by simp [symbols]) hp).1, hts₁, hts₂, List.append_assoc]

theorem parseblock_sound (hline : Sound .line (parseline n)) : Sound .exec (parseblock (n + 1)) := by
  intro s cmd s' h
  rw [parseblock] at h
  split at h
  · cases h
  · rename_i s₁ hp
    obtain ⟨⟨cmd₁, s₂⟩, h₁, h⟩ := bind_eq_ok h
    obtain ⟨ts₁, hts₁, hd₁⟩ := hline _ _ _ h₁
    dsimp only at h
    split at h
    · cases h
    · rename_i s₃ hp'
      obtain ⟨⟨rs, s₄⟩, h₂, hret⟩ := bind_eq_ok h
      cases hret
      obtain ⟨ts₂, hts₂, hr⟩ := parseredirs_sound h₂
      refine ⟨.lpar :: (ts₁ ++ .rpar :: ts₂), ?_, .block hd₁ hr⟩
      rw [tokens_of_peek .lpar rfl hp, hts₁, tokens_of_peek .rpar rfl hp', hts₂]
      simp

theorem parse_sound (n : Nat) : Sound .line (parseline n) ∧ Sound .pipe (parsepipe n) ∧
    Sound .exec (parseexec n) ∧ Sound .exec (parseblock n) := by
  induction n with
  | zero => exact ⟨nofun, nofun, nofun, nofun⟩
  | succ n ih =>
      obtain ⟨hline, hpipe, hexec, hblock⟩ := ih
      exact ⟨parseline_sound hline hpipe, parsepipe_sound hpipe hexec, parseexec_sound hblock,
        parseblock_sound hline⟩

end Sound

/-! ### The parser ends -/

section Ends
variable {n argc : Nat} {s s' : List UInt8} {cmd : Cmd}

theorem bind_ne_fuel {α β : Type} {x : Except Err α} {f : α → Except Err β} (hx : x ≠ .error .fuel)
    (hf : ∀ a, x = .ok a → f a ≠ .error .fuel) : x >>= f ≠ .error .fuel := by
  cases x with
  | error e => exact fun h => hx (congrArg Except.error (Except.error.inj h))
  | ok a => exact hf a rfl

theorem parseredirs_ends (hn : (tokens s).length < n) : parseredirs n s ≠ .error .fuel := by
  induction n generalizing s with
  | zero => exact absurd hn (Nat.not_lt_zero _)
  | succ n ih =>
      rw [parseredirs]
      split
      · exact nofun
      · rename_i s₁ hp
        obtain ⟨hs₁, t, ts, hs, -⟩ := peek_true redir_symbols hp
        obtain ⟨-, hrest⟩ := gettoken_of_cons (hs₁.trans hs)
        split
        · rename_i w s₂ hw
          have hlen : (tokens s₂).length < n := by
            rw [hs, ← hrest, tokens_of_gettoken hw nofun] at hn
            simp only [List.length_cons] at hn
            omega
          exact bind_ne_fuel (ih hlen) fun _ _ => nofun
        · exact nofun

theorem argLoop_ends (hn : (tokens s).length < n) : argLoop n argc s ≠ .error .fuel := by
  induction n generalizing s argc with
  | zero => exact absurd hn (Nat.not_lt_zero _)
  | succ n ih =>
      rw [argLoop]
      split
      · exact nofun
      · rename_i s₁ hp
        have hs₁ := (peek_false stop_symbols hp).1
        split
        · exact nofun
        · rename_i w s₂ hw
          split_ifs
          · exact nofun
          · have hlen : (tokens s₂).length < n := by
              rw [← hs₁, tokens_of_gettoken hw nofun, List.length_cons] at hn
              omega
            refine bind_ne_fuel (parseredirs_ends hlen) fun ⟨rs, s₃⟩ h₁ => ?_
            obtain ⟨ts, hts, -⟩ := parseredirs_sound h₁
            rw [hts, List.length_append] at hlen
            exact bind_ne_fuel (ih (by omega)) fun _ _ => nofun
        · exact nofun

theorem backLoop_ends (hn : (tokens s).length < n) : backLoop n cmd s ≠ .error .fuel := by
  induction n generalizing s cmd with
  | zero => exact absurd hn (Nat.not_lt_zero _)
  | succ n ih =>
      rw [backLoop]
      split
      · exact nofun
      · rename_i s₁ hp
        rw [tokens_of_peek .amp rfl hp, List.length_cons] at hn
        exact ih (by omega)

/-- A function does not run out of fuel with `n`, which is `k` more than four times the tokens. -/
def Ends (k n : Nat) (f : List UInt8 → Except Err (Cmd × List UInt8)) : Prop :=
  ∀ s, 4 * (tokens s).length + k ≤ n → f s ≠ .error .fuel

theorem parseline_ends (hline : Ends 4 n (parseline n)) (hpipe : Ends 3 n (parsepipe n)) :
    Ends 4 (n + 1) (parseline (n + 1)) := by
  intro s hn
  rw [parseline]
  refine bind_ne_fuel (hpipe s (by omega)) fun ⟨cmd₁, s₁⟩ h₁ => ?_
  obtain ⟨ts₁, hts₁, -⟩ := (parse_sound n).2.1 _ _ _ h₁
  rw [hts₁, List.length_append] at hn
  refine bind_ne_fuel (backLoop_ends (by omega)) fun ⟨cmd₂, s₂⟩ h₂ => ?_
  obtain ⟨k, hk, -⟩ := backLoop_sound h₂
  rw [hk, List.length_append] at hn
  dsimp only
  split
  · exact nofun
  · rename_i s₃ hp
    rw [tokens_of_peek .semi rfl hp, List.length_cons] at hn
    exact bind_ne_fuel (hline _ (by omega)) fun _ _ => nofun

theorem parsepipe_ends (hpipe : Ends 3 n (parsepipe n)) (hexec : Ends 2 n (parseexec n)) :
    Ends 3 (n + 1) (parsepipe (n + 1)) := by
  intro s hn
  rw [parsepipe]
  refine bind_ne_fuel (hexec s (by omega)) fun ⟨cmd₁, s₁⟩ h₁ => ?_
  obtain ⟨ts₁, hts₁, -⟩ := (parse_sound n).2.2.1 _ _ _ h₁
  rw [hts₁, List.length_append] at hn
  dsimp only
  split
  · exact nofun
  · rename_i s₃ hp
    rw [tokens_of_peek .bar rfl hp, List.length_cons] at hn
    exact bind_ne_fuel (hpipe _ (by omega)) fun _ _ => nofun

theorem parseexec_ends (hblock : Ends 1 n (parseblock n)) : Ends 2 (n + 1) (parseexec (n + 1)) := by
  intro s hn
  rw [parseexec]
  split
  · rename_i s₁ hp
    rw [← (peek_true (by simp [symbols]) hp).1] at hn
    exact hblock s₁ (by omega)
  · rename_i s₁ hp
    rw [← (peek_false (by simp [symbols]) hp).1] at hn
    refine bind_ne_fuel (parseredirs_ends (by omega)) fun r h₁ => ?_
    obtain ⟨rs, s₂⟩ := r
    obtain ⟨ts₁, hts₁, -⟩ := parseredirs_sound h₁
    rw [hts₁, List.length_append] at hn
    exact bind_ne_fuel (argLoop_ends (by omega)) fun _ _ => (by rintro ⟨⟩)

/-- The `(` pays for the four calls until `parseblock` comes again. -/
theorem parseblock_ends (hline : Ends 4 n (parseline n)) : Ends 1 (n + 1) (parseblock (n + 1)) := by
  intro s hn
  rw [parseblock]
  split
  · exact nofun
  · rename_i s₁ hp
    rw [tokens_of_peek .lpar rfl hp, List.length_cons] at hn
    refine bind_ne_fuel (hline _ (by omega)) fun ⟨cmd₁, s₂⟩ h₁ => ?_
    obtain ⟨ts₁, hts₁, -⟩ := (parse_sound n).1 _ _ _ h₁
    rw [hts₁, List.length_append] at hn
    dsimp only
    split
    · exact nofun
    · rename_i s₃ hp'
      rw [tokens_of_peek .rpar rfl hp', List.length_cons] at hn
      exact bind_ne_fuel (parseredirs_ends (by omega)) fun _ _ => nofun

theorem parse_ends (n : Nat) : Ends 4 n (parseline n) ∧ Ends 3 n (parsepipe n) ∧
    Ends 2 n (parseexec n) ∧ Ends 1 n (parseblock n) := by
  induction n with
  | zero =>
      refine ⟨fun s hn => ?_, fun s hn => ?_, fun s hn => ?_, fun s hn => ?_⟩ <;> omega
  | succ n ih =>
      obtain ⟨hline, hpipe, hexec, hblock⟩ := ih
      exact ⟨parseline_ends hline hpipe, parsepipe_ends hpipe hexec, parseexec_ends hblock,
        parseblock_ends hline⟩

end Ends

/-! ### What derives is taken -/

section Complete
variable {n argc : Nat} {s : List UInt8} {ts rest : List Tok} {rs : List Redir} {ws : List (List UInt8)}
  {cmd : Cmd} {toks : List UInt8}

theorem peek_of_cons {t : Tok} (h : ∀ x ∈ toks, x ∈ symbols) (hs : tokens s = t :: ts)
    (ht : t.isIn toks = true) : peek toks s = (true, skip s) := by
  rw [peek_eq h, hs]
  exact congrArg (·, skip s) ht

/-- The first of the tokens does not begin with one of these symbols. -/
def Misses (toks : List UInt8) (ts : List Tok) : Prop := ∀ t, ts.head? = some t → t.isIn toks = false

theorem peek_of_misses (h : ∀ x ∈ toks, x ∈ symbols) (hs : Misses toks (tokens s)) :
    peek toks s = (false, skip s) := by
  rw [peek_eq h]
  cases hts : tokens s with
  | nil => rfl
  | cons t ts => exact congrArg (·, skip s) (hs t (by rw [hts]; rfl))

theorem ok_bind {ε α β : Type} (a : α) (f : α → Except ε β) : Except.ok a >>= f = f a := rfl

theorem Tok.isRedir.isIn {t : Tok} (h : t.isRedir) : t.isIn [60, 62] = true := by
  rcases h with rfl | rfl | rfl <;> rfl

theorem parseredirs_complete (h : Redirs ts rs) (hs : tokens s = ts ++ rest)
    (hrest : Misses [60, 62] rest) (hn : (tokens s).length < n) :
    ∃ s', parseredirs n s = .ok (rs, s') ∧ tokens s' = rest := by
  induction h generalizing s n with
  | nil =>
      obtain ⟨m, rfl⟩ := Nat.exists_eq_succ_of_ne_zero (Nat.ne_zero_of_lt hn)
      rw [parseredirs, peek_of_misses redir_symbols (by rw [hs]; exact hrest)]
      exact ⟨skip s, rfl, by rw [tokens_skip, hs, List.nil_append]⟩
  | cons ht hr ih =>
      rename_i t w ts rs
      obtain ⟨m, rfl⟩ := Nat.exists_eq_succ_of_ne_zero (Nat.ne_zero_of_lt hn)
      obtain ⟨htok, htoks⟩ := gettoken_of_cons (s := skip s) (by rw [tokens_skip]; exact hs)
      obtain ⟨hword, hts⟩ := gettoken_of_cons htoks
      change _ = ts ++ rest at hts
      have hlen : (tokens (gettoken (gettoken (skip s)).2).2).length < m := by
        rw [hs, List.cons_append, List.cons_append, List.length_cons, List.length_cons] at hn
        rw [hts]
        omega
      obtain ⟨s', hs', hrest'⟩ := ih hts hlen
      refine ⟨s', ?_, hrest'⟩
      rw [parseredirs, peek_of_cons redir_symbols hs ht.isIn]
      dsimp only
      rw [show gettoken (gettoken (skip s)).2 = (.word w, (gettoken (gettoken (skip s)).2).2) from
        Prod.ext hword rfl]
      dsimp only
      rw [hs', htok, ok_bind]
      rfl

/-- A symbol that ends the words of a command, or the end. -/
def Stops (toks : List UInt8) (ts : List Tok) : Prop := ∀ t, ts.head? = some t → t.isIn toks = true

theorem Stops.misses {toks' : List UInt8} (h : Stops toks ts) (hd : ∀ x ∈ toks, x ∉ toks') :
    Misses toks' ts := by
  intro t ht
  have hin := h t ht
  unfold Tok.isIn at hin ⊢
  cases hc : t.char? with
  | none => rfl
  | some c =>
      rw [hc] at hin
      simpa using hd c (by simpa using hin)

theorem Stops.mono {toks' : List UInt8} (h : Stops toks ts) (hsub : ∀ x ∈ toks, x ∈ toks') :
    Stops toks' ts := by
  intro t ht
  have hin := h t ht
  unfold Tok.isIn at hin ⊢
  cases hc : t.char? with
  | none =>
      rw [hc] at hin
      cases hin
  | some c =>
      rw [hc] at hin
      simpa using hsub c (by simpa using hin)

theorem Stops.cons {t : Tok} (ht : t.isIn toks = true) : Stops toks (t :: ts) := by
  rintro t' ht'
  rwa [← Option.some.inj ht']

theorem Args.misses (h : Args ts ws rs) (hrest : Misses toks rest) : Misses toks (ts ++ rest) := by
  cases h with
  | nil => exact hrest
  | cons hr ha =>
      intro t ht
      rw [← Option.some.inj ht]
      rfl

theorem argLoop_complete (h : Args ts ws rs) (hs : tokens s = ts ++ rest)
    (hrest : Stops [124, 41, 38, 59] rest) (hargc : argc + ws.length < maxargs)
    (hn : (tokens s).length < n) :
    ∃ s', argLoop n argc s = .ok (ws, rs, s') ∧ tokens s' = rest := by
  induction h generalizing s n argc with
  | nil =>
      obtain ⟨m, rfl⟩ := Nat.exists_eq_succ_of_ne_zero (Nat.ne_zero_of_lt hn)
      cases rest with
      | nil =>
          obtain ⟨htok, hnil⟩ := gettoken_of_nil (s := skip s) (by rw [tokens_skip]; exact hs)
          rw [argLoop, peek_of_misses stop_symbols (by rw [hs]; exact nofun)]
          dsimp only
          rw [show gettoken (skip s) = (.eof, (gettoken (skip s)).2) from Prod.ext htok rfl]
          exact ⟨_, rfl, hnil⟩
      | cons t rest =>
          rw [argLoop, peek_of_cons stop_symbols hs (hrest t rfl)]
          exact ⟨skip s, rfl, by rw [tokens_skip, hs, List.nil_append]⟩
  | cons hr ha ih =>
      rename_i w ts₁ ts₂ rs₁ rs₂ ws₂
      obtain ⟨m, rfl⟩ := Nat.exists_eq_succ_of_ne_zero (Nat.ne_zero_of_lt hn)
      rw [List.cons_append, List.append_assoc] at hs
      obtain ⟨htok, htoks⟩ := gettoken_of_cons (s := skip s) (by rw [tokens_skip]; exact hs)
      rw [hs, List.length_cons] at hn
      rw [List.length_cons] at hargc
      obtain ⟨s₁, hs₁, hrest₁⟩ := parseredirs_complete (n := m) hr htoks
        (ha.misses (hrest.misses (by simp))) (by rw [htoks]; omega)
      have hargc' : argc + 1 + ws₂.length < maxargs := by omega
      have hlen : (tokens s₁).length < m := by
        rw [hrest₁]
        rw [List.length_append] at hn
        omega
      obtain ⟨s₂, hs₂, hrest₂⟩ := ih hrest₁ hargc' hlen
      refine ⟨s₂, ?_, hrest₂⟩
      rw [argLoop, peek_of_misses stop_symbols (by rw [hs]; rintro t ⟨⟩; rfl)]
      dsimp only
      rw [show gettoken (skip s) = (.word w, (gettoken (skip s)).2) from Prod.ext htok rfl]
      dsimp only
      rw [if_neg (by omega), hs₁, ok_bind]
      dsimp only
      rw [hs₂, ok_bind]
      rfl

theorem backLoop_complete {k : Nat} (cmd : Cmd) (hs : tokens s = List.replicate k .amp ++ rest)
    (hrest : Misses [38] rest) (hn : (tokens s).length < n) :
    ∃ s', backLoop n cmd s = .ok (backs cmd k, s') ∧ tokens s' = rest := by
  induction k generalizing s n cmd with
  | zero =>
      obtain ⟨m, rfl⟩ := Nat.exists_eq_succ_of_ne_zero (Nat.ne_zero_of_lt hn)
      rw [backLoop, peek_of_misses (by simp [symbols]) (by rw [hs]; exact hrest)]
      exact ⟨skip s, rfl, by rw [tokens_skip, hs]; rfl⟩
  | succ k ih =>
      obtain ⟨m, rfl⟩ := Nat.exists_eq_succ_of_ne_zero (Nat.ne_zero_of_lt hn)
      rw [List.replicate_succ, List.cons_append] at hs
      obtain ⟨-, htoks⟩ := gettoken_of_cons (s := skip s) (by rw [tokens_skip]; exact hs)
      rw [hs, List.length_cons] at hn
      rw [backLoop, peek_of_cons (by simp [symbols]) hs rfl]
      exact ih _ htoks (by rw [htoks]; omega)

/-- The function for a nonterminal. -/
def Kind.parse : Kind → Nat → List UInt8 → Except Err (Cmd × List UInt8)
  | .line => parseline
  | .pipe => parsepipe
  | .exec => parseexec

/-- The symbols that can follow it. -/
def Kind.follow : Kind → List UInt8
  | .line => [41]
  | .pipe => [41, 38, 59]
  | .exec => [124, 41, 38, 59]

def Kind.fuel : Kind → Nat
  | .line => 4
  | .pipe => 3
  | .exec => 2

theorem Redirs.misses_lpar (h : Redirs ts rs) (hrest : Misses [40] rest) : Misses [40] (ts ++ rest) := by
  cases h with
  | nil => exact hrest
  | cons ht hr =>
      intro t ht'
      rw [← Option.some.inj ht']
      rcases ht with rfl | rfl | rfl <;> rfl

theorem stops_amps {k : Nat} (h : Stops [41, 38, 59] rest) :
    Stops [41, 38, 59] (List.replicate k .amp ++ rest) := by
  cases k with
  | zero => exact h
  | succ k => exact .cons rfl

/-! What each function does with the tokens it sees. -/

section Steps
variable {s₁ s₂ s₃ : List UInt8} {cmd' : Cmd} {rs' : List Redir} {ts' : List Tok}

theorem parseexec_block (hs : tokens s = .lpar :: ts)
    (h₁ : parseline n (gettoken (skip s)).2 = .ok (cmd, s₁)) (hs₁ : tokens s₁ = .rpar :: ts')
    (h₂ : parseredirs n (gettoken (skip s₁)).2 = .ok (rs, s₂)) :
    parseexec (n + 2) s = .ok (wrap cmd rs, s₂) := by
  have hs₀ : tokens (skip s) = .lpar :: ts := (tokens_skip s).trans hs
  rw [parseexec, peek_of_cons (by simp [symbols]) hs rfl]
  dsimp only
  rw [parseblock, peek_of_cons (by simp [symbols]) hs₀ rfl]
  dsimp only
  rw [skip_skip, h₁, ok_bind]
  dsimp only
  rw [peek_of_cons (by simp [symbols]) hs₁ rfl]
  dsimp only
  rw [h₂]
  rfl

theorem parseexec_words (hs : Misses [40] (tokens s)) (h₁ : parseredirs n (skip s) = .ok (rs, s₁))
    (h₂ : argLoop n 0 s₁ = .ok (ws, rs', s₂)) :
    parseexec (n + 1) s = .ok (wrap (.exec ws) (rs ++ rs'), s₂) := by
  rw [parseexec, peek_of_misses (by simp [symbols]) hs]
  dsimp only
  rw [h₁, ok_bind]
  dsimp only
  rw [h₂]
  rfl

theorem parsepipe_one (h₁ : parseexec n s = .ok (cmd, s₁)) (hs₁ : Misses [124] (tokens s₁)) :
    parsepipe (n + 1) s = .ok (cmd, skip s₁) := by
  rw [parsepipe, h₁, ok_bind]
  dsimp only
  rw [peek_of_misses (by simp [symbols]) hs₁]
  rfl

theorem parsepipe_more (h₁ : parseexec n s = .ok (cmd, s₁)) (hs₁ : tokens s₁ = .bar :: ts)
    (h₂ : parsepipe n (gettoken (skip s₁)).2 = .ok (cmd', s₂)) :
    parsepipe (n + 1) s = .ok (.pipe cmd cmd', s₂) := by
  rw [parsepipe, h₁, ok_bind]
  dsimp only
  rw [peek_of_cons (by simp [symbols]) hs₁ rfl]
  dsimp only
  rw [h₂]
  rfl

theorem parseline_last (h₁ : parsepipe n s = .ok (cmd, s₁)) (h₂ : backLoop n cmd s₁ = .ok (cmd', s₂))
    (hs₂ : Misses [59] (tokens s₂)) : parseline (n + 1) s = .ok (cmd', skip s₂) := by
  rw [parseline, h₁, ok_bind]
  dsimp only
  rw [h₂, ok_bind]
  dsimp only
  rw [peek_of_misses (by simp [symbols]) hs₂]
  rfl

theorem parseline_next {right : Cmd} (h₁ : parsepipe n s = .ok (cmd, s₁))
    (h₂ : backLoop n cmd s₁ = .ok (cmd', s₂)) (hs₂ : tokens s₂ = .semi :: ts)
    (h₃ : parseline n (gettoken (skip s₂)).2 = .ok (right, s₃)) :
    parseline (n + 1) s = .ok (.list cmd' right, s₃) := by
  rw [parseline, h₁, ok_bind]
  dsimp only
  rw [h₂, ok_bind]
  dsimp only
  rw [peek_of_cons (by simp [symbols]) hs₂ rfl]
  dsimp only
  rw [h₃]
  rfl

end Steps

/-- A command that derives is taken whole when what comes after it can follow it. -/
theorem parse_complete {k : Kind} (h : Derives k ts cmd) (hs : tokens s = ts ++ rest)
    (hrest : Stops k.follow rest) (hn : 4 * (tokens s).length + k.fuel ≤ n) :
    ∃ s', k.parse n s = .ok (cmd, s') ∧ tokens s' = rest := by
  -- each case takes the tokens of its parts one after the other; the rest of one part is the next
  induction h generalizing s rest n with
  | block h hr ih =>
      obtain ⟨n, rfl⟩ := Nat.exists_eq_add_of_le' (m := 2) (Nat.le_of_add_left_le hn)
      rw [List.cons_append, List.append_assoc, List.cons_append] at hs
      obtain ⟨-, htoks⟩ := gettoken_of_cons ((tokens_skip s).trans hs)
      simp only [hs, Kind.fuel, List.length_cons, List.length_append] at hn
      obtain ⟨s₁, h₁, hs₁⟩ := ih (n := n) htoks (.cons rfl) (by
        simp only [htoks, Kind.fuel, List.length_cons, List.length_append]
        omega)
      obtain ⟨-, htoks₁⟩ := gettoken_of_cons ((tokens_skip s₁).trans hs₁)
      obtain ⟨s₂, h₂, hs₂⟩ := parseredirs_complete (n := n) hr htoks₁
        (hrest.misses (by simp [Kind.follow])) (by rw [htoks₁, List.length_append]; omega)
      exact ⟨s₂, parseexec_block hs h₁ hs₁ h₂, hs₂⟩
  | words hr ha hmax =>
      obtain ⟨n, rfl⟩ := Nat.exists_eq_add_of_le' (m := 1) (Nat.le_of_lt (Nat.le_of_add_left_le hn))
      rw [List.append_assoc] at hs
      have hs₀ := (tokens_skip s).trans hs
      simp only [hs, Kind.fuel, List.length_append] at hn
      obtain ⟨s₁, h₁, hs₁⟩ := parseredirs_complete (n := n) hr hs₀
        (ha.misses (hrest.misses (by simp [Kind.follow]))) (by simp only [hs₀, List.length_append]; omega)
      obtain ⟨s₂, h₂, hs₂⟩ := argLoop_complete (n := n) ha hs₁ hrest
        ((Nat.zero_add _).trans_lt (Nat.lt_of_le_of_lt hmax (by decide)))
        (by simp only [hs₁, List.length_append]; omega)
      have hmiss : Misses [40] (tokens s) := by
        rw [hs]
        exact hr.misses_lpar (ha.misses (hrest.misses (by simp [Kind.follow])))
      exact ⟨s₂, parseexec_words hmiss h₁ h₂, hs₂⟩
  | one h ih =>
      obtain ⟨n, rfl⟩ := Nat.exists_eq_add_of_le' (m := 1) (Nat.le_of_lt (Nat.le_of_add_left_le hn))
      obtain ⟨s₁, h₁, hs₁⟩ := ih (n := n) hs (hrest.mono (by simp [Kind.follow])) (by
        simp only [Kind.fuel] at hn ⊢
        omega)
      have hmiss : Misses [124] (tokens s₁) := by
        rw [hs₁]
        exact hrest.misses (by simp [Kind.follow])
      exact ⟨skip s₁, parsepipe_one h₁ hmiss, (tokens_skip s₁).trans hs₁⟩
  | more h h' ih ih' =>
      obtain ⟨n, rfl⟩ := Nat.exists_eq_add_of_le' (m := 1) (Nat.le_of_lt (Nat.le_of_add_left_le hn))
      rw [List.append_assoc, List.cons_append] at hs
      obtain ⟨s₁, h₁, hs₁⟩ := ih (n := n) hs (.cons rfl) (by
        simp only [Kind.fuel] at hn ⊢
        omega)
      obtain ⟨-, htoks⟩ := gettoken_of_cons ((tokens_skip s₁).trans hs₁)
      simp only [hs, Kind.fuel, List.length_cons, List.length_append] at hn
      obtain ⟨s₂, h₂, hs₂⟩ := ih' (n := n) htoks hrest (by
        simp only [htoks, Kind.fuel, List.length_append]
        omega)
      exact ⟨s₂, parsepipe_more h₁ hs₁ h₂, hs₂⟩
  | last k h ih =>
      rename_i cmd
      obtain ⟨n, rfl⟩ := Nat.exists_eq_add_of_le' (m := 1) (Nat.le_of_lt (Nat.le_of_add_left_le hn))
      rw [List.append_assoc] at hs
      obtain ⟨s₁, h₁, hs₁⟩ := ih (n := n) hs (stops_amps (hrest.mono (by simp [Kind.follow]))) (by
        simp only [Kind.fuel] at hn ⊢
        omega)
      simp only [hs, Kind.fuel, List.length_append] at hn
      obtain ⟨s₂, h₂, hs₂⟩ := backLoop_complete (n := n) cmd hs₁ (hrest.misses (by simp [Kind.follow]))
        (by simp only [hs₁, List.length_append]; omega)
      have hmiss : Misses [59] (tokens s₂) := by
        rw [hs₂]
        exact hrest.misses (by simp [Kind.follow])
      exact ⟨skip s₂, parseline_last h₁ h₂ hmiss, (tokens_skip s₂).trans hs₂⟩
  | next k h h' ih ih' =>
      rename_i ts ts' cmd cmd'
      obtain ⟨n, rfl⟩ := Nat.exists_eq_add_of_le' (m := 1) (Nat.le_of_lt (Nat.le_of_add_left_le hn))
      rw [List.append_assoc, List.append_assoc, List.cons_append] at hs
      have hsemi : Stops [59] (.semi :: (ts' ++ rest)) := .cons rfl
      obtain ⟨s₁, h₁, hs₁⟩ := ih (n := n) hs (stops_amps (hsemi.mono (by simp))) (by
        simp only [Kind.fuel] at hn ⊢
        omega)
      simp only [hs, Kind.fuel, List.length_cons, List.length_append] at hn
      obtain ⟨s₂, h₂, hs₂⟩ := backLoop_complete (n := n) cmd hs₁ (hsemi.misses (by simp))
        (by simp only [hs₁, List.length_cons, List.length_append]; omega)
      obtain ⟨-, htoks⟩ := gettoken_of_cons ((tokens_skip s₂).trans hs₂)
      obtain ⟨s₃, h₃, hs₃⟩ := ih' (n := n) htoks hrest (by
        simp only [htoks, Kind.fuel, List.length_append]
        omega)
      exact ⟨s₃, parseline_next h₁ h₂ hs₂ h₃, hs₃⟩

end Complete

/-! ### `parsecmd` -/

theorem parsecmd_ne_fuel (s : List UInt8) : parsecmd s ≠ .error .fuel := by
  have hlen := length_tokens_le s
  refine bind_ne_fuel ((parse_ends _).1 s (by omega)) fun ⟨cmd, s'⟩ _ => ?_
  dsimp only
  split_ifs <;> exact nofun

theorem parsecmd_eq_ok {s : List UInt8} {cmd : Cmd} :
    parsecmd s = .ok cmd ↔ Derives .line (tokens s) cmd := by
  constructor
  · intro h
    obtain ⟨⟨cmd', s'⟩, hline, h⟩ := bind_eq_ok h
    dsimp only at h
    split_ifs at h with hnil
    cases h
    obtain ⟨ts, hts, hd⟩ := (parse_sound _).1 _ _ _ hline
    have hend : tokens s' = [] := tokens_of_nil hnil
    rw [hts, hend, List.append_nil]
    exact hd
  · intro h
    have hlen := length_tokens_le s
    have hstops : Stops [41] [] := nofun
    obtain ⟨s', hline, hend⟩ := parse_complete h (List.append_nil _).symm hstops
      (show 4 * (tokens s).length + 4 ≤ 5 * s.length + 5 by omega)
    have hnil : (peek [] s').2 = [] := tokens_eq_nil.mp hend
    change parseline _ _ = _ at hline
    rw [parsecmd, hline, ok_bind]
    dsimp only
    rw [if_pos hnil]
    rfl

/-- `parsecmd` accepts the strings whose tokens derive from `line`, with the tree of the derivation.  All
others end in one of its errors. -/
theorem parsecmd_grammar (s : List UInt8) :
    (∀ cmd, parsecmd s = .ok cmd ↔ ∃ ts, Lexes s ts ∧ Derives .line ts cmd) ∧
      parsecmd s ≠ .error .fuel := by
  refine ⟨fun cmd => ?_, parsecmd_ne_fuel s⟩
  rw [parsecmd_eq_ok]
  constructor
  · exact fun h => ⟨_, lexes_iff.mpr rfl, h⟩
  · rintro ⟨ts, hlex, h⟩
    rwa [← lexes_iff.mp hlex] at h

end Xv6.User.Sh
