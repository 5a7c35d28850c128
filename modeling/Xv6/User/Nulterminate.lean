import Xv6.User.Parse

/-!
# User — the shell's buffer

The parsing functions of `sh.c` with the pointers they store.  All nodes point into the one buffer that holds
the command: a word is delimited by `q` and `eq`, and `nulterminate` writes a NUL at each `eq`, over the
character that ended the word, when the whole command is parsed.

A character that ends a word is none of a word, and the characters of words are those that are read back.  So
no write is inside a word, each word ends at one (`cstrAt_nulterminate`), and the tree read back from the
buffer is the tree of `Xv6.User.Parse`, with the texts of its tokens (`parsecmd_reads`).

The cursor is what is left of the string up to `es`, as in `Xv6.User.Lex`; a pointer is where it begins.
-/

namespace Xv6.User.Sh.Buffer

/-- A word in the buffer, from `q` up to `eq`. -/
structure Span where
  q : Nat
  eq : Nat
  deriving DecidableEq

/-- `struct redircmd` without its command. -/
structure Redir where
  file : Span
  mode : Nat
  fd : Nat
  deriving DecidableEq

/-- The nodes.  `argv` and `eargv` are one list, up to the null pointer at its end. -/
inductive Cmd where
  | exec (argv : List Span)
  | redir (cmd : Cmd) (r : Redir)
  | pipe (left right : Cmd)
  | list (left right : Cmd)
  | back (cmd : Cmd)
  deriving DecidableEq

/-- The pointer for a cursor. -/
def ptr (es : Nat) (s : List UInt8) : Nat := es - s.length

/-- `gettoken` with `q` and `eq`: they are set between the whitespace that it skips. -/
def gettoken (es : Nat) (s : List UInt8) : Tok × Span × List UInt8 :=
  ((Sh.gettoken s).1, ⟨ptr es (skip s), ptr es (scan (skip s)).2⟩, (Sh.gettoken s).2)

def redirOf (tok : Tok) (file : Span) : Redir :=
  match tok with
  | .lt => ⟨file, 0, 0⟩
  | _ => ⟨file, 0x201, 1⟩

def wrap (cmd : Cmd) (rs : List Redir) : Cmd := rs.foldl .redir cmd

/-- The redirections that `parseredirs` wraps its command in. -/
def parseredirs (es : Nat) : Nat → List UInt8 → Except Err (List Redir × List UInt8)
  | 0, _ => .error .fuel
  | n + 1, s =>
      match peek [60, 62] s with
      | (false, s) => .ok ([], s)
      | (true, s) =>
          match gettoken es (Sh.gettoken s).2 with
          | (.word _, file, s') => do
              let (rs, s'') ← parseredirs es n s'
              return (redirOf (Sh.gettoken s).1 file :: rs, s'')
          | _ => .error .missingFile

/-- The loop of `parseexec`. -/
def argLoop (es : Nat) : Nat → Nat → List UInt8 → Except Err (List Span × List Redir × List UInt8)
  | 0, _, _ => .error .fuel
  | n + 1, argc, s =>
      match peek [124, 41, 38, 59] s with
      | (true, s) => .ok ([], [], s)
      | (false, s) =>
          match gettoken es s with
          | (.eof, _, s) => .ok ([], [], s)
          | (.word _, arg, s) =>
              if maxargs ≤ argc + 1 then .error .tooManyArgs
              else do
                let (rs, s) ← parseredirs es n s
                let (ws, rs', s) ← argLoop es n (argc + 1) s
                return (arg :: ws, rs ++ rs', s)
          | _ => .error .syntaxError

/-- The loop of `parseline` over `&`. -/
def backLoop : Nat → Cmd → List UInt8 → Except Err (Cmd × List UInt8)
  | 0, _, _ => .error .fuel
  | n + 1, cmd, s =>
      match peek [38] s with
      | (false, s) => .ok (cmd, s)
      | (true, s) => backLoop n (.back cmd) (Sh.gettoken s).2

mutual

def parseline (es : Nat) : Nat → List UInt8 → Except Err (Cmd × List UInt8)
  | 0, _ => .error .fuel
  | n + 1, s => do
      let (cmd, s) ← parsepipe es n s
      let (cmd, s) ← backLoop n cmd s
      match peek [59] s with
      | (false, s) => return (cmd, s)
      | (true, s) => do
          let (right, s) ← parseline es n (Sh.gettoken s).2
          return (.list cmd right, s)

def parsepipe (es : Nat) : Nat → List UInt8 → Except Err (Cmd × List UInt8)
  | 0, _ => .error .fuel
  | n + 1, s => do
      let (cmd, s) ← parseexec es n s
      match peek [124] s with
      | (false, s) => return (cmd, s)
      | (true, s) => do
          let (right, s) ← parsepipe es n (Sh.gettoken s).2
          return (.pipe cmd right, s)

def parseexec (es : Nat) : Nat → List UInt8 → Except Err (Cmd × List UInt8)
  | 0, _ => .error .fuel
  | n + 1, s =>
      match peek [40] s with
      | (true, s) => parseblock es n s
      | (false, s) => do
          let (rs, s) ← parseredirs es n s
          let (ws, rs', s) ← argLoop es n 0 s
          return (wrap (.exec ws) (rs ++ rs'), s)

def parseblock (es : Nat) : Nat → List UInt8 → Except Err (Cmd × List UInt8)
  | 0, _ => .error .fuel
  | n + 1, s =>
      match peek [40] s with
      | (false, _) => .error .parseblock
      | (true, s) => do
          let (cmd, s) ← parseline es n (Sh.gettoken s).2
          match peek [41] s with
          | (false, _) => .error .missingRpar
          | (true, s) => do
              let (rs, s) ← parseredirs es n (Sh.gettoken s).2
              return (wrap cmd rs, s)

end

/-- Each `*eargv[i] = 0` and `*efile = 0`. -/
def nulterminate : Cmd → List UInt8 → List UInt8
  | .exec argv, buf => argv.foldl (fun buf arg => buf.set arg.eq 0) buf
  | .redir cmd r, buf => (nulterminate cmd buf).set r.file.eq 0
  | .pipe left right, buf => nulterminate right (nulterminate left buf)
  | .list left right, buf => nulterminate right (nulterminate left buf)
  | .back cmd, buf => nulterminate cmd buf

/-- The command and the buffer, which held the string and its NUL. -/
def parsecmd (str : List UInt8) : Except Err (Cmd × List UInt8) := do
  let (cmd, s) ← parseline str.length (5 * str.length + 5) str
  if (peek [] s).2 = [] then return (cmd, nulterminate cmd (str ++ [0])) else .error .leftovers

/-! ### Reading -/

/-- The C string at `p`. -/
def cstrAt (buf : List UInt8) (p : Nat) : List UInt8 := (buf.drop p).takeWhile (· ≠ 0)

/-- The text that `gettoken` has delimited. -/
def Span.text (str : List UInt8) (sp : Span) : List UInt8 := (str.drop sp.q).take (sp.eq - sp.q)

/-- The words the nodes point to. -/
def Cmd.spans : Cmd → List Span
  | .exec argv => argv
  | .redir cmd r => cmd.spans ++ [r.file]
  | .pipe left right => left.spans ++ right.spans
  | .list left right => left.spans ++ right.spans
  | .back cmd => cmd.spans

def Redir.read (word : Span → List UInt8) (r : Redir) : Sh.Redir := ⟨word r.file, r.mode, r.fd⟩

/-- The tree with what is read for each word. -/
def Cmd.read (word : Span → List UInt8) : Cmd → Sh.Cmd
  | .exec argv => .exec (argv.map word)
  | .redir cmd r => .redir (cmd.read word) (r.read word)
  | .pipe left right => .pipe (left.read word) (right.read word)
  | .list left right => .list (left.read word) (right.read word)
  | .back cmd => .back (cmd.read word)

/-! ### Cursors -/

section Cursor
variable {str s : List UInt8} {w : List UInt8}

theorem skip_suffix (s : List UInt8) : skip s <:+ s := List.dropWhile_suffix _

theorem scan_suffix (s : List UInt8) : (scan s).2 <:+ s := by
  cases s with
  | nil => exact List.suffix_rfl
  | cons c s =>
      simp only [scan]
      split_ifs
      all_goals try exact List.suffix_cons c s
      · exact (List.tail_suffix s).trans (List.suffix_cons c s)
      · exact List.dropWhile_suffix _

theorem gettoken_suffix (hs : s <:+ str) : (Sh.gettoken s).2 <:+ str :=
  ((skip_suffix _).trans (scan_suffix _)).trans ((skip_suffix s).trans hs)

theorem peek_suffix {toks s' : List UInt8} {b : Bool} (hs : s <:+ str) (hp : peek toks s = (b, s')) :
    s' <:+ str := by
  obtain ⟨-, rfl⟩ := Prod.mk.inj hp
  exact (skip_suffix s).trans hs

/-- A word is as long as can be. -/
theorem scan_word (h : (scan s).1 = .word w) : w = s.takeWhile inWord ∧ (scan s).2 = s.dropWhile inWord := by
  cases s with
  | nil => cases h
  | cons c s =>
      simp only [scan] at h ⊢
      split_ifs at h ⊢
      cases h
      exact ⟨rfl, rfl⟩

/-- The span is of a word of the string: all of its characters are, and the one behind it is not. -/
def Delimits (str : List UInt8) (sp : Span) : Prop :=
  ∃ pre w post, str = pre ++ (w ++ post) ∧ sp = ⟨pre.length, pre.length + w.length⟩ ∧
    (∀ c ∈ w, inWord c = true) ∧ ∀ c, post.head? = some c → inWord c = false

theorem Span.text_eq {pre w post : List UInt8} :
    Span.text (pre ++ (w ++ post)) ⟨pre.length, pre.length + w.length⟩ = w := by
  rw [Span.text, List.drop_left, Nat.add_sub_cancel_left, List.take_left]

/-- What `gettoken` delimits. -/
theorem delimits_gettoken (hs : s <:+ str) (h : (Sh.gettoken s).1 = .word w) :
    Delimits str (gettoken str.length s).2.1 ∧ (gettoken str.length s).2.1.text str = w := by
  obtain ⟨hw, hrest⟩ := scan_word h
  obtain ⟨pre, hpre⟩ := (skip_suffix s).trans hs
  have hsplit : skip s = w ++ (skip s).dropWhile inWord := by rw [hw, List.takeWhile_append_dropWhile]
  have hlen := congrArg List.length hpre
  have hlen' := congrArg List.length hsplit
  rw [List.length_append] at hlen hlen'
  have hspan : (gettoken str.length s).2.1 = ⟨pre.length, pre.length + w.length⟩ := by
    simp only [gettoken, ptr, hrest, Span.mk.injEq]
    omega
  rw [hsplit] at hpre
  rw [hspan]
  refine ⟨⟨pre, w, _, hpre.symm, rfl, fun c hc => ?_, fun c hc => ?_⟩, ?_⟩
  · rw [hw] at hc
    exact List.mem_takeWhile_imp hc
  · have := List.head?_dropWhile_not inWord (skip s)
    rw [hc] at this
    exact this
  · rw [← hpre, Span.text_eq]

/-- The two `gettoken`s, one of them with a span. -/
theorem gettoken_eq (hs : s <:+ str) :
    ∃ tok sp s', Sh.gettoken s = (tok, s') ∧ gettoken str.length s = (tok, sp, s') ∧ s' <:+ str ∧
      ∀ w, tok = .word w → Delimits str sp ∧ sp.text str = w :=
  ⟨_, _, _, rfl, rfl, gettoken_suffix hs, fun _ hw => delimits_gettoken hs hw⟩

end Cursor

/-! ### The two parsers -/

section Agree
variable {α β α' β' : Type} {R : α → β → Prop} {R' : α' → β' → Prop} {x : Except Err α} {y : Except Err β}
  {f : α → Except Err α'} {g : β → Except Err β'}

/-- Both give related results, or the same error. -/
def Agree (R : α → β → Prop) : Except Err α → Except Err β → Prop
  | .ok a, .ok b => R a b
  | .error e, .error e' => e = e'
  | _, _ => False

theorem Agree.bind (h : Agree R x y) (hf : ∀ a b, R a b → Agree R' (f a) (g b)) :
    Agree R' (x >>= f) (y >>= g) := by
  cases x with
  | error e =>
      cases y with
      | error e' => exact h
      | ok b => exact h.elim
  | ok a =>
      cases y with
      | error e' => exact h.elim
      | ok b => exact hf a b h

theorem Agree.of_ok {a : α} (h : Agree R x y) (hx : x = .ok a) : ∃ b, y = .ok b ∧ R a b := by
  subst hx
  cases y with
  | error e => exact h.elim
  | ok b => exact ⟨b, rfl, h⟩

theorem Agree.map_eq {r : α → β} (h : Agree R x y) (hr : ∀ a b, R a b → r a = b) : x.map r = y := by
  cases x with
  | error e =>
      cases y with
      | error e' => exact congrArg Except.error h
      | ok b => exact h.elim
  | ok a =>
      cases y with
      | error e' => exact h.elim
      | ok b => exact congrArg Except.ok (hr a b h)

end Agree

section Parse
variable {str s : List UInt8} {n argc : Nat} {c : Cmd} {d : Sh.Cmd} {rs : List Redir}
  {word : Span → List UInt8}

theorem spans_wrap : (wrap c rs).spans = c.spans ++ rs.map Redir.file := by
  induction rs generalizing c with
  | nil => rw [List.map_nil, List.append_nil, wrap, List.foldl_nil]
  | cons r rs ih =>
      have hwrap : wrap c (r :: rs) = wrap (.redir c r) rs := rfl
      rw [hwrap, ih, Cmd.spans, List.append_assoc]
      rfl

theorem read_wrap : (wrap c rs).read word = Sh.wrap (c.read word) (rs.map (Redir.read word)) := by
  induction rs generalizing c with
  | nil => rfl
  | cons r rs ih => exact ih

theorem read_redirOf {tok : Tok} {sp : Span} :
    (redirOf tok sp).read word = Sh.redirOf tok (word sp) := by
  cases tok <;> rfl

theorem file_redirOf {tok : Tok} {sp : Span} : (redirOf tok sp).file = sp := by
  cases tok <;> rfl

/-- Redirections, and the cursor behind them. -/
def ReadsRedirs (str : List UInt8) (r : List Redir × List UInt8) (r' : List Sh.Redir × List UInt8) : Prop :=
  r.2 = r'.2 ∧ r.2 <:+ str ∧ (∀ x ∈ r.1, Delimits str x.file) ∧ r.1.map (Redir.read (Span.text str)) = r'.1

/-- Arguments and redirections, and the cursor. -/
def ReadsArgs (str : List UInt8) (r : List Span × List Redir × List UInt8)
    (r' : List (List UInt8) × List Sh.Redir × List UInt8) : Prop :=
  (∀ sp ∈ r.1, Delimits str sp) ∧ r.1.map (Span.text str) = r'.1 ∧ ReadsRedirs str r.2 r'.2

/-- A command, and the cursor behind it. -/
def Reads (str : List UInt8) (r : Cmd × List UInt8) (r' : Sh.Cmd × List UInt8) : Prop :=
  r.2 = r'.2 ∧ r.2 <:+ str ∧ (∀ sp ∈ r.1.spans, Delimits str sp) ∧ r.1.read (Span.text str) = r'.1

theorem ReadsRedirs.nil (hs : s <:+ str) : ReadsRedirs str ([], s) ([], s) :=
  ⟨rfl, hs, fun _ h => absurd h List.not_mem_nil, rfl⟩

theorem parseredirs_agree (hs : s <:+ str) :
    Agree (ReadsRedirs str) (parseredirs str.length n s) (Sh.parseredirs n s) := by
  induction n generalizing s with
  | zero => exact rfl
  | succ n ih =>
      rw [parseredirs, Sh.parseredirs]
      rcases hp : peek [60, 62] s with ⟨b, s₁⟩
      have hs₁ := peek_suffix hs hp
      cases b with
      | false => exact .nil hs₁
      | true =>
          obtain ⟨tok, sp, s₂, hg, hg', hs₂, hword⟩ := gettoken_eq (gettoken_suffix hs₁)
          simp only [hg, hg']
          cases tok
          case word w =>
            obtain ⟨hdel, htext⟩ := hword w rfl
            refine (ih hs₂).bind ?_
            rintro ⟨rs, s₃⟩ ⟨rs', s₃'⟩ ⟨rfl, hs₃, hrs, hread⟩
            refine ⟨rfl, hs₃, ?_, ?_⟩
            · rintro x (- | ⟨-, hx⟩)
              · rw [file_redirOf]
                exact hdel
              · exact hrs x hx
            · exact congrArg₂ List.cons (read_redirOf.trans (congrArg _ htext)) hread
          all_goals exact rfl

theorem ReadsRedirs.append {rs₁ rs₂ : List Redir} {rs₁' rs₂' : List Sh.Redir} {s₁ s₂ : List UInt8}
    (h₁ : ReadsRedirs str (rs₁, s₁) (rs₁', s₁)) (h₂ : ReadsRedirs str (rs₂, s₂) (rs₂', s₂)) :
    ReadsRedirs str (rs₁ ++ rs₂, s₂) (rs₁' ++ rs₂', s₂) := by
  obtain ⟨-, -, hdel₁, hread₁⟩ := h₁
  obtain ⟨-, hs, hdel₂, hread₂⟩ := h₂
  refine ⟨rfl, hs, fun x hx => ?_, ?_⟩
  · obtain hx | hx := List.mem_append.mp hx
    · exact hdel₁ x hx
    · exact hdel₂ x hx
  · rw [List.map_append, hread₁, hread₂]

theorem argLoop_agree (hs : s <:+ str) :
    Agree (ReadsArgs str) (argLoop str.length n argc s) (Sh.argLoop n argc s) := by
  induction n generalizing s argc with
  | zero => exact rfl
  | succ n ih =>
      rw [argLoop, Sh.argLoop]
      rcases hp : peek [124, 41, 38, 59] s with ⟨b, s₁⟩
      have hs₁ := peek_suffix hs hp
      cases b with
      | true => exact ⟨fun _ h => absurd h List.not_mem_nil, rfl, .nil hs₁⟩
      | false =>
          obtain ⟨tok, sp, s₂, hg, hg', hs₂, hword⟩ := gettoken_eq hs₁
          simp only [hg, hg']
          cases tok
          case eof => exact ⟨fun _ h => absurd h List.not_mem_nil, rfl, .nil hs₂⟩
          case word w =>
            obtain ⟨hdel, htext⟩ := hword w rfl
            dsimp only
            split
            · exact rfl
            · refine (parseredirs_agree hs₂).bind ?_
              rintro ⟨rs, s₃⟩ ⟨rs', s₃'⟩ hr
              obtain rfl : s₃ = s₃' := hr.1
              refine (ih hr.2.1).bind ?_
              rintro ⟨ws, rs₂, s₄⟩ ⟨ws', rs₂', s₄'⟩ ⟨hws, hread, hr₂⟩
              obtain rfl : s₄ = s₄' := hr₂.1
              refine ⟨?_, ?_, hr.append hr₂⟩
              · rintro x (- | ⟨-, hx⟩)
                · exact hdel
                · exact hws x hx
              · exact congrArg₂ List.cons htext hread
          all_goals exact rfl

theorem backLoop_agree (hs : s <:+ str) (h : Reads str (c, s) (d, s)) :
    Agree (Reads str) (backLoop n c s) (Sh.backLoop n d s) := by
  induction n generalizing s c d with
  | zero => exact rfl
  | succ n ih =>
      rw [backLoop, Sh.backLoop]
      rcases hp : peek [38] s with ⟨b, s₁⟩
      have hs₁ := peek_suffix hs hp
      obtain ⟨-, -, hdel, hread⟩ := h
      cases b with
      | false => exact ⟨rfl, hs₁, hdel, hread⟩
      | true =>
          have hs₂ := gettoken_suffix hs₁
          exact ih hs₂ ⟨rfl, hs₂, hdel, congrArg Sh.Cmd.back hread⟩

/-- The function with spans does what the one with texts does. -/
def Agrees (str : List UInt8) (f : List UInt8 → Except Err (Cmd × List UInt8))
    (g : List UInt8 → Except Err (Sh.Cmd × List UInt8)) : Prop :=
  ∀ s, s <:+ str → Agree (Reads str) (f s) (g s)

/-- Two commands under a node. -/
theorem Reads.pair {c₁ c₂ : Cmd} {d₁ d₂ : Sh.Cmd} {s₁ s₂ : List UInt8} (mk : Cmd → Cmd → Cmd)
    (mk' : Sh.Cmd → Sh.Cmd → Sh.Cmd) (hspans : (mk c₁ c₂).spans = c₁.spans ++ c₂.spans)
    (hmk : (mk c₁ c₂).read (Span.text str) = mk' (c₁.read (Span.text str)) (c₂.read (Span.text str)))
    (h₁ : Reads str (c₁, s₁) (d₁, s₁)) (h₂ : Reads str (c₂, s₂) (d₂, s₂)) :
    Reads str (mk c₁ c₂, s₂) (mk' d₁ d₂, s₂) := by
  obtain ⟨-, -, hdel₁, hread₁⟩ := h₁
  obtain ⟨-, hs, hdel₂, hread₂⟩ := h₂
  refine ⟨rfl, hs, fun sp hsp => ?_, hmk.trans (congrArg₂ mk' hread₁ hread₂)⟩
  obtain hsp | hsp := List.mem_append.mp (hspans ▸ hsp)
  · exact hdel₁ sp hsp
  · exact hdel₂ sp hsp

theorem Reads.wrap {rs' : List Sh.Redir} {s₁ s₂ : List UInt8} (h : Reads str (c, s₁) (d, s₁))
    (hr : ReadsRedirs str (rs, s₂) (rs', s₂)) : Reads str (Buffer.wrap c rs, s₂) (Sh.wrap d rs', s₂) := by
  obtain ⟨-, -, hdel, hread⟩ := h
  obtain ⟨-, hs, hfile, hrs⟩ := hr
  refine ⟨rfl, hs, fun sp hsp => ?_, ?_⟩
  · obtain hsp | hsp := List.mem_append.mp (spans_wrap ▸ hsp)
    · exact hdel sp hsp
    · obtain ⟨r, hr, rfl⟩ := List.mem_map.mp hsp
      exact hfile r hr
  · exact read_wrap.trans (congrArg₂ Sh.wrap hread hrs)

theorem parseline_agrees (hline : Agrees str (parseline str.length n) (Sh.parseline n))
    (hpipe : Agrees str (parsepipe str.length n) (Sh.parsepipe n)) :
    Agrees str (parseline str.length (n + 1)) (Sh.parseline (n + 1)) := by
  intro s hs
  rw [parseline, Sh.parseline]
  refine (hpipe s hs).bind ?_
  rintro ⟨c₁, s₁⟩ ⟨d₁, s₁'⟩ h₁
  obtain rfl : s₁ = s₁' := h₁.1
  refine (backLoop_agree h₁.2.1 h₁).bind ?_
  rintro ⟨c₂, s₂⟩ ⟨d₂, s₂'⟩ h₂
  obtain rfl : s₂ = s₂' := h₂.1
  dsimp only
  rcases hp : peek [59] s₂ with ⟨b, s₃⟩
  have hs₃ := peek_suffix h₂.2.1 hp
  cases b with
  | false => exact ⟨rfl, hs₃, h₂.2.2⟩
  | true =>
      refine (hline _ (gettoken_suffix hs₃)).bind ?_
      rintro ⟨c₄, s₄⟩ ⟨d₄, s₄'⟩ h₄
      obtain rfl : s₄ = s₄' := h₄.1
      exact .pair .list .list rfl rfl h₂ h₄

theorem parsepipe_agrees (hpipe : Agrees str (parsepipe str.length n) (Sh.parsepipe n))
    (hexec : Agrees str (parseexec str.length n) (Sh.parseexec n)) :
    Agrees str (parsepipe str.length (n + 1)) (Sh.parsepipe (n + 1)) := by
  intro s hs
  rw [parsepipe, Sh.parsepipe]
  refine (hexec s hs).bind ?_
  rintro ⟨c₁, s₁⟩ ⟨d₁, s₁'⟩ h₁
  obtain rfl : s₁ = s₁' := h₁.1
  dsimp only
  rcases hp : peek [124] s₁ with ⟨b, s₂⟩
  have hs₂ := peek_suffix h₁.2.1 hp
  cases b with
  | false => exact ⟨rfl, hs₂, h₁.2.2⟩
  | true =>
      refine (hpipe _ (gettoken_suffix hs₂)).bind ?_
      rintro ⟨c₃, s₃⟩ ⟨d₃, s₃'⟩ h₃
      obtain rfl : s₃ = s₃' := h₃.1
      exact .pair .pipe .pipe rfl rfl h₁ h₃

theorem parseexec_agrees (hblock : Agrees str (parseblock str.length n) (Sh.parseblock n)) :
    Agrees str (parseexec str.length (n + 1)) (Sh.parseexec (n + 1)) := by
  intro s hs
  rw [parseexec, Sh.parseexec]
  rcases hp : peek [40] s with ⟨b, s₁⟩
  have hs₁ := peek_suffix hs hp
  cases b with
  | true => exact hblock s₁ hs₁
  | false =>
      refine (parseredirs_agree hs₁).bind ?_
      rintro ⟨rs, s₂⟩ ⟨rs', s₂'⟩ hr
      obtain rfl : s₂ = s₂' := hr.1
      refine (argLoop_agree hr.2.1).bind ?_
      rintro ⟨ws, rs₂, s₃⟩ ⟨ws', rs₂', s₃'⟩ ⟨hws, hread, hr₂⟩
      obtain rfl : s₃ = s₃' := hr₂.1
      have hexec : Reads str (.exec ws, s₃) (.exec ws', s₃) := ⟨rfl, hr₂.2.1, hws, congrArg _ hread⟩
      exact hexec.wrap (hr.append hr₂)

theorem parseblock_agrees (hline : Agrees str (parseline str.length n) (Sh.parseline n)) :
    Agrees str (parseblock str.length (n + 1)) (Sh.parseblock (n + 1)) := by
  intro s hs
  rw [parseblock, Sh.parseblock]
  rcases hp : peek [40] s with ⟨b, s₁⟩
  have hs₁ := peek_suffix hs hp
  cases b with
  | false => exact rfl
  | true =>
      refine (hline _ (gettoken_suffix hs₁)).bind ?_
      rintro ⟨c₂, s₂⟩ ⟨d₂, s₂'⟩ h₂
      obtain rfl : s₂ = s₂' := h₂.1
      dsimp only
      rcases hp' : peek [41] s₂ with ⟨b, s₃⟩
      have hs₃ := peek_suffix h₂.2.1 hp'
      cases b with
      | false => exact rfl
      | true =>
          refine (parseredirs_agree (gettoken_suffix hs₃)).bind ?_
          rintro ⟨rs, s₄⟩ ⟨rs', s₄'⟩ hr
          obtain rfl : s₄ = s₄' := hr.1
          exact h₂.wrap hr

/-- The functions call one another with less fuel. -/
theorem parse_agrees (str : List UInt8) (n : Nat) :
    Agrees str (parseline str.length n) (Sh.parseline n) ∧
    Agrees str (parsepipe str.length n) (Sh.parsepipe n) ∧
    Agrees str (parseexec str.length n) (Sh.parseexec n) ∧
    Agrees str (parseblock str.length n) (Sh.parseblock n) := by
  induction n with
  | zero =>
      refine ⟨fun s _ => ?_, fun s _ => ?_, fun s _ => ?_, fun s _ => ?_⟩
      · rw [parseline, Sh.parseline]
        exact rfl
      · rw [parsepipe, Sh.parsepipe]
        exact rfl
      · rw [parseexec, Sh.parseexec]
        exact rfl
      · rw [parseblock, Sh.parseblock]
        exact rfl
  | succ n ih =>
      obtain ⟨hline, hpipe, hexec, hblock⟩ := ih
      exact ⟨parseline_agrees hline hpipe, parsepipe_agrees hpipe hexec, parseexec_agrees hblock,
        parseblock_agrees hline⟩

end Parse

/-! ### What is written -/

section Write
variable {str buf : List UInt8} {c : Cmd} {sp : Span} {sps : List Span} {i p : Nat}

/-- A NUL at the end of each word. -/
def terminate (sps : List Span) (buf : List UInt8) : List UInt8 :=
  sps.foldl (fun buf sp => buf.set sp.eq 0) buf

theorem terminate_cons : terminate (sp :: sps) buf = terminate sps (buf.set sp.eq 0) := rfl

theorem terminate_append {sps' : List Span} :
    terminate (sps ++ sps') buf = terminate sps' (terminate sps buf) := List.foldl_append

theorem nulterminate_eq : nulterminate c buf = terminate c.spans buf := by
  induction c generalizing buf with
  | exec argv => rfl
  | redir c r ih =>
      rw [nulterminate, ih, Cmd.spans, terminate_append]
      rfl
  | pipe left right ihl ihr => rw [nulterminate, ihl, ihr, Cmd.spans, terminate_append]
  | list left right ihl ihr => rw [nulterminate, ihl, ihr, Cmd.spans, terminate_append]
  | back c ih => exact ih

theorem getElem?_terminate_of_ne (h : ∀ sp ∈ sps, sp.eq ≠ i) : (terminate sps buf)[i]? = buf[i]? := by
  induction sps generalizing buf with
  | nil => rfl
  | cons sp sps ih =>
      have hne : sp.eq ≠ i := h sp List.mem_cons_self
      calc (terminate sps (buf.set sp.eq 0))[i]? = (buf.set sp.eq 0)[i]? :=
            ih fun sp' hsp => h sp' (List.mem_cons_of_mem _ hsp)
        _ = buf[i]? := List.getElem?_set_ne hne

/-- A NUL stays. -/
theorem getElem?_terminate_of_nul (h : buf[i]? = some 0) : (terminate sps buf)[i]? = some 0 := by
  induction sps generalizing buf with
  | nil => exact h
  | cons sp sps ih =>
      have hset : (buf.set sp.eq 0)[i]? = some 0 := by
        by_cases heq : sp.eq = i
        · rw [heq, List.getElem?_set_self (List.getElem?_eq_some_iff.mp h).1]
        · rw [List.getElem?_set_ne heq, h]
      exact ih hset

theorem getElem?_terminate_of_mem (h : sp ∈ sps) (hlt : sp.eq < buf.length) :
    (terminate sps buf)[sp.eq]? = some 0 := by
  induction sps generalizing buf with
  | nil => cases h
  | cons sp' sps ih =>
      obtain rfl | hmem := List.mem_cons.mp h
      · have hset : (buf.set sp.eq 0)[sp.eq]? = some 0 := List.getElem?_set_self hlt
        rw [terminate_cons]
        exact getElem?_terminate_of_nul hset
      · have hlen : sp.eq < (buf.set sp'.eq 0).length := by rwa [List.length_set]
        exact ih hmem hlen

theorem getElem?_length_add {pre l : List UInt8} : (pre ++ l)[pre.length + i]? = l[i]? := by
  rw [List.getElem?_append_right (Nat.le_add_right _ _), Nat.add_sub_cancel_left]

/-- No word ends at a character of a word. -/
theorem Delimits.eq_ne {ch : UInt8} (h : Delimits str sp) (hi : str[i]? = some ch)
    (hch : inWord ch = true) : sp.eq ≠ i := by
  obtain ⟨pre, w, post, rfl, rfl, -, hpost⟩ := h
  rintro rfl
  rw [getElem?_length_add, List.getElem?_append_right le_rfl, Nat.sub_self, ← List.head?_eq_getElem?] at hi
  rw [hpost ch hi] at hch
  cases hch

/-- A C string is what comes before the NUL. -/
theorem takeWhile_eq_of_getElem? {w l : List UInt8} (hw : (0 : UInt8) ∉ w)
    (h : ∀ j < w.length, l[j]? = w[j]?) (hend : l[w.length]? = some 0) : l.takeWhile (· ≠ 0) = w := by
  induction w generalizing l with
  | nil =>
      cases l with
      | nil => rfl
      | cons x l =>
          obtain rfl : x = 0 := Option.some.inj hend
          exact List.takeWhile_cons_of_neg (by decide)
  | cons ch w ih =>
      have hhead : l[0]? = some ch := h 0 (Nat.succ_pos _)
      cases l with
      | nil => cases hhead
      | cons x l =>
          obtain rfl : x = ch := Option.some.inj hhead
          have hne : x ≠ 0 := fun hx => hw (hx ▸ List.mem_cons_self)
          rw [List.takeWhile_cons_of_pos (by simpa using hne)]
          refine congrArg (x :: ·) (ih (fun h0 => hw (List.mem_cons_of_mem _ h0)) (fun j hj => ?_) hend)
          exact h (j + 1) (Nat.succ_lt_succ hj)

/-- No write is inside a word, and there is one behind it. -/
theorem cstrAt_nulterminate (hnul : (0 : UInt8) ∉ str) (hdel : ∀ sp ∈ c.spans, Delimits str sp)
    (hsp : sp ∈ c.spans) : cstrAt (nulterminate c (str ++ [0])) sp.q = sp.text str := by
  obtain ⟨pre, w, post, hstr, rfl, hw, -⟩ := hdel sp hsp
  have hget : ∀ j < w.length, str[pre.length + j]? = w[j]? := by
    intro j hj
    rw [hstr, getElem?_length_add, List.getElem?_append_left hj]
  have hlen : pre.length + w.length ≤ str.length := by
    rw [hstr, List.length_append, List.length_append]
    omega
  rw [nulterminate_eq, cstrAt]
  conv_rhs => rw [hstr, Span.text_eq]
  refine takeWhile_eq_of_getElem? (fun h0 => hnul ?_) (fun j hj => ?_) ?_
  · rw [hstr]
    exact List.mem_append_right _ (List.mem_append_left _ h0)
  · have hch : str[pre.length + j]? = some w[j] := (hget j hj).trans (List.getElem?_eq_getElem hj)
    rw [List.getElem?_drop, getElem?_terminate_of_ne fun sp' hsp' =>
      (hdel sp' hsp').eq_ne hch (hw _ (List.getElem_mem hj)), List.getElem?_append_left (by omega), hget j hj]
  · rw [List.getElem?_drop]
    refine getElem?_terminate_of_mem hsp ?_
    rw [List.length_append, List.length_singleton]
    exact Nat.lt_succ_of_le hlen

end Write

/-! ### The command -/

section Command
variable {str : List UInt8} {c : Cmd} {word word' : Span → List UInt8}

theorem read_congr (h : ∀ sp ∈ c.spans, word sp = word' sp) : c.read word = c.read word' := by
  induction c with
  | exec argv => exact congrArg Sh.Cmd.exec (List.map_congr_left h)
  | redir c r ih =>
      have hr : r.read word = r.read word' := by
        rw [Redir.read, Redir.read, h r.file (List.mem_append_right _ List.mem_cons_self)]
      rw [Cmd.read, Cmd.read, ih fun sp hsp => h sp (List.mem_append_left _ hsp), hr]
  | pipe left right ihl ihr =>
      rw [Cmd.read, Cmd.read, ihl fun sp hsp => h sp (List.mem_append_left _ hsp),
        ihr fun sp hsp => h sp (List.mem_append_right _ hsp)]
  | list left right ihl ihr =>
      rw [Cmd.read, Cmd.read, ihl fun sp hsp => h sp (List.mem_append_left _ hsp),
        ihr fun sp hsp => h sp (List.mem_append_right _ hsp)]
  | back c ih => exact congrArg Sh.Cmd.back (ih h)

/-- A command that is parsed: its words are delimited, and the buffer has been written. -/
def Parsed (str : List UInt8) (r : Cmd × List UInt8) (d : Sh.Cmd) : Prop :=
  (∀ sp ∈ r.1.spans, Delimits str sp) ∧ r.1.read (Span.text str) = d ∧ r.2 = nulterminate r.1 (str ++ [0])

theorem parsecmd_agree (str : List UInt8) : Agree (Parsed str) (parsecmd str) (Sh.parsecmd str) := by
  refine ((parse_agrees str _).1 str List.suffix_rfl).bind ?_
  rintro ⟨c, s⟩ ⟨d, s'⟩ ⟨hs, -, hdel, hread⟩
  obtain rfl : s = s' := hs
  dsimp only
  split
  · exact ⟨hdel, hread, rfl⟩
  · exact rfl

theorem Parsed.cstrAt {r : Cmd × List UInt8} {d : Sh.Cmd} (hnul : (0 : UInt8) ∉ str) (h : Parsed str r d) :
    ∀ sp ∈ r.1.spans, Buffer.cstrAt r.2 sp.q = sp.text str := by
  intro sp hsp
  rw [h.2.2]
  exact cstrAt_nulterminate hnul h.1 hsp

/-- **`nulterminate`.**  Each word of each node, read as a C string from the buffer that all of them have been
terminated in, is the text that `gettoken` has delimited; and the tree read back is the one with these texts. -/
theorem parsecmd_reads (hnul : (0 : UInt8) ∉ str) :
    (∀ c buf, parsecmd str = .ok (c, buf) → ∀ sp ∈ c.spans,
      Delimits str sp ∧ cstrAt buf sp.q = sp.text str) ∧
    (parsecmd str).map (fun r => r.1.read fun sp => cstrAt r.2 sp.q) = Sh.parsecmd str := by
  constructor
  · intro c buf h sp hsp
    obtain ⟨d, -, hparsed⟩ := (parsecmd_agree str).of_ok h
    exact ⟨hparsed.1 sp hsp, hparsed.cstrAt hnul sp hsp⟩
  · refine (parsecmd_agree str).map_eq fun r d hparsed => ?_
    exact (read_congr (hparsed.cstrAt hnul)).trans hparsed.2.1

/-- `a>b|c`: the NULs are written over the symbols. -/
theorem redirPipe_reads :
    parsecmd [97, 62, 98, 124, 99] =
      .ok (.pipe (.redir (.exec [⟨0, 1⟩]) ⟨⟨2, 3⟩, 0x201, 1⟩) (.exec [⟨4, 5⟩]), [97, 0, 98, 0, 99, 0]) ∧
    cstrAt [97, 0, 98, 0, 99, 0] 2 = [98] := by
  have hrun : parsecmd [97, 62, 98, 124, 99] =
      .ok (.pipe (.redir (.exec [⟨0, 1⟩]) ⟨⟨2, 3⟩, 0x201, 1⟩) (.exec [⟨4, 5⟩]), [97, 0, 98, 0, 99, 0]) := by
    decide
  exact ⟨hrun, ((parsecmd_reads (by decide)).1 _ _ hrun ⟨2, 3⟩ (by decide)).2⟩

end Command

end Xv6.User.Sh.Buffer
