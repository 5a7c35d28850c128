import Xv6.Lib.Runs

/-!
# Bio — the buffer cache

`bread`, `bwrite` and `brelse` of `bio.c` with `log_write`'s pinning, used by any number of
processes.  What is done under `bcache.lock` is one step, `bget` going once over the list; a process
that finds its block in a busy buffer sleeps and goes over the list again.  `iderw` is two steps, the
request and its completion by the disk (`Event.done`), between which the other processes go on.

`order` is the list of the buffers from `head.next` on, the most recently used first.  A process that
has a buffer may change its data (`Event.modify`); a buffer whose data have changed since is not
released before they are passed to `bwrite` or `log_write` (`touched`).  `latest` records what was
last passed to them for each block.  What `log_write` does to the log is in `Xv6.Log`.
-/

namespace Xv6.Bio
open Lib

/-- `NBUF`. -/
def nbuf : Nat := 30

instance : NeZero nbuf := ⟨by decide⟩

abbrev BufNo := Fin nbuf

/-- A device and a block number. -/
abbrev Key := UInt32 × UInt32

/-- `struct buf`, with its flags. -/
structure Buf (δ : Type) where
  busy : Bool
  valid : Bool
  dirty : Bool
  key : Key
  data : δ

/-- The device of a buffer that has never been used, `-1`. -/
def noDev : UInt32 := 0xFFFFFFFF

/-- Where a process stands. -/
inductive Pc where
  | idle
  /-- at `bget`'s loop -/
  | bget (k : Key)
  /-- asleep on `b` in `bget` -/
  | asleep (b : BufNo) (k : Key)
  /-- in the `iderw` of `bread` -/
  | read (b : BufNo) (k : Key)
  /-- in the `iderw` of `bwrite` -/
  | write (b : BufNo)
  /-- `bread` returns `b` -/
  | ret (b : BufNo) (k : Key)
  deriving DecidableEq, Repr

inductive Panic where
  | noBuffers
  | bwrite
  | brelse
  | notBusy
  | nothingToDo
  deriving DecidableEq, Repr

structure Sys (P δ : Type) where
  buf : BufNo → Buf δ
  order : List BufNo
  disk : Key → δ
  pc : P → Pc
  /-- the buffers `bread` has given the process -/
  held : P → BufNo → Bool
  panic : Option Panic
  latest : Key → δ
  touched : BufNo → Bool

inductive Event (P δ : Type) where
  | bread (p : P) (k : Key)
  | bget (p : P)
  /-- the process is woken by `brelse` or the disk, or killed -/
  | wake (p : P)
  | done (p : P)
  /-- `bread` has returned -/
  | take (p : P)
  | modify (p : P) (b : BufNo) (x : δ)
  | bwrite (p : P) (b : BufNo)
  | logWrite (p : P) (b : BufNo)
  | brelse (p : P) (b : BufNo)

variable {P δ : Type}

/-- The state `binit` leaves. -/
def boot (P : Type) (disk : Key → δ) (x : δ) : Sys P δ where
  buf _ := ⟨false, false, false, (noDev, 0), x⟩
  order := (List.finRange nbuf).reverse
  disk := disk
  pc _ := .idle
  held _ _ := false
  panic := none
  latest := disk
  touched _ := false

namespace Sys

def setBuf (s : Sys P δ) (b : BufNo) (x : Buf δ) : Sys P δ :=
  { s with buf := Function.update s.buf b x }

/-- The buffer that has the block. -/
def cached (s : Sys P δ) (k : Key) : Option BufNo := s.order.find? fun b => decide ((s.buf b).key = k)

/-- The buffer to recycle. -/
def victim (s : Sys P δ) : Option BufNo :=
  s.order.reverse.find? fun b => !(s.buf b).busy && !(s.buf b).dirty

/-- What the disk does with a request. -/
def transfer (s : Sys P δ) (b : BufNo) : Sys P δ :=
  let x := s.buf b
  if x.dirty then
    { s.setBuf b { x with dirty := false, valid := true } with disk := Function.update s.disk x.key x.data }
  else s.setBuf b { x with data := s.disk x.key, valid := true }

variable [DecidableEq P]

def setPc (s : Sys P δ) (p : P) (pc : Pc) : Sys P δ := { s with pc := Function.update s.pc p pc }

/-- `iderw`, until the process sleeps. -/
def iderw (s : Sys P δ) (p : P) (b : BufNo) (pc : Pc) : Sys P δ :=
  if (s.buf b).busy = false then { s with panic := some .notBusy }
  else if (s.buf b).valid = true ∧ (s.buf b).dirty = false then
    { s with panic := some .nothingToDo }
  else s.setPc p pc

/-- `bread`, after `bget`. -/
def afterBget (s : Sys P δ) (p : P) (b : BufNo) (k : Key) : Sys P δ :=
  if (s.buf b).valid then s.setPc p (.ret b k) else s.iderw p b (.read b k)

/-- `bget`, once over the list. -/
def bget (s : Sys P δ) (p : P) (k : Key) : Sys P δ :=
  match s.cached k with
  | some b =>
      if (s.buf b).busy then s.setPc p (.asleep b k)
      else (s.setBuf b { s.buf b with busy := true }).afterBget p b k
  | none =>
      match s.victim with
      | some b => (s.setBuf b ⟨true, false, false, k, (s.buf b).data⟩).afterBget p b k
      | none => { s with panic := some .noBuffers }

/-- The data of `b` are passed to `bwrite` or `log_write`, which set `B_DIRTY`. -/
def pass (s : Sys P δ) (b : BufNo) : Sys P δ :=
  { s.setBuf b { s.buf b with dirty := true } with
    latest := Function.update s.latest (s.buf b).key (s.buf b).data
    touched := Function.update s.touched b false }

def setHeld (s : Sys P δ) (p : P) (b : BufNo) (v : Bool) : Sys P δ :=
  { s with held := Function.update s.held p (Function.update (s.held p) b v) }

end Sys

variable [DecidableEq P]

/-- What an event does, if it can happen. -/
def next (s : Sys P δ) : Event P δ → Option (Sys P δ)
  | .bread p k => if s.pc p = .idle then some (s.setPc p (.bget k)) else none
  | .bget p =>
      match s.pc p with
      | .bget k => some (s.bget p k)
      | _ => none
  | .wake p =>
      match s.pc p with
      | .asleep _ k => some (s.setPc p (.bget k))
      | _ => none
  | .done p =>
      match s.pc p with
      | .read b k => some ((s.transfer b).setPc p (.ret b k))
      | .write b => some ((s.transfer b).setPc p .idle)
      | _ => none
  | .take p =>
      match s.pc p with
      | .ret b _ => some ((s.setHeld p b true).setPc p .idle)
      | _ => none
  | .modify p b x =>
      if s.pc p = .idle ∧ s.held p b = true then
        some { s.setBuf b { s.buf b with data := x } with touched := Function.update s.touched b true }
      else none
  | .bwrite p b =>
      if s.pc p = .idle ∧ s.held p b = true then
        if (s.buf b).busy = false then some { s with panic := some .bwrite }
        else some ((s.pass b).iderw p b (.write b))
      else none
  | .logWrite p b =>
      if s.pc p = .idle ∧ s.held p b = true then some (s.pass b) else none
  | .brelse p b =>
      if s.pc p = .idle ∧ s.held p b = true ∧ s.touched b = false then
        if (s.buf b).busy = false then some { s with panic := some .brelse }
        else some { (s.setBuf b { s.buf b with busy := false }).setHeld p b false with
          order := b :: s.order.erase b }
      else none

def step (s : Sys P δ) (e : Event P δ) : Option (Sys P δ) :=
  if s.panic = none then next s e else none

/-! ### The invariant -/

/-- The buffer `bget` has given to the `bread` in progress. -/
def Pc.got : Pc → Option BufNo
  | .read b _ | .ret b _ => some b
  | _ => none

/-- The process has the buffer. -/
def Sys.Holds (s : Sys P δ) (p : P) (b : BufNo) : Prop := s.held p b = true ∨ (s.pc p).got = some b

/-- **The invariant.** -/
structure Inv (s : Sys P δ) : Prop where
  all : ∀ b, b ∈ s.order
  uniq : ∀ b b', (s.buf b).key.1 ≠ noDev → (s.buf b).key = (s.buf b').key → b = b'
  busy : ∀ p b, s.Holds p b → (s.buf b).busy = true
  once : ∀ p q b, s.Holds p b → s.Holds q b → p = q
  reading : ∀ p b k, s.pc p = .read b k →
    (s.buf b).key = k ∧ (s.buf b).valid = false ∧ (s.buf b).dirty = false ∧ s.touched b = false
  returned : ∀ p b k, s.pc p = .ret b k →
    (s.buf b).key = k ∧ (s.buf b).valid = true ∧ s.touched b = false
  writing : ∀ p b, s.pc p = .write b → s.held p b = true ∧ (s.buf b).dirty = true ∧ s.touched b = false
  held : ∀ p b, s.held p b = true → (s.buf b).valid = true
  dirty : ∀ b, (s.buf b).dirty = true → (s.buf b).valid = true
  touched : ∀ b, s.touched b = true → ∃ p, s.held p b = true
  fresh : ∀ b, (s.buf b).key.1 ≠ noDev → (s.buf b).valid = true → s.touched b = false →
    (s.buf b).data = s.latest (s.buf b).key
  disk : ∀ k : Key, k.1 ≠ noDev → s.disk k ≠ s.latest k →
    ∃ b, (s.buf b).key = k ∧ (s.buf b).dirty = true

/-- The change of one buffer, by a process that alone may have it: the buffer is `x` after, changed
since it was passed on if `t`, in the hands of the process if `v`, and the process at `a`. -/
structure Change (s s' : Sys P δ) (p : P) (b : BufNo) (x : Buf δ) (t v : Bool) (a : Pc) : Prop where
  order : s'.order = s.order
  buf : s'.buf = Function.update s.buf b x
  touched : s'.touched = Function.update s.touched b t
  held : s'.held = Function.update s.held p (Function.update (s.held p) b v)
  pc : s'.pc = Function.update s.pc p a

section Steps
variable {s s' : Sys P δ} {p : P} {b : BufNo} {k : Key} {x : Buf δ} {t v : Bool} {a pc : Pc}

/-- A process that moves with nothing in its hands but what it has. -/
theorem Inv.setPc (h : Inv s) (hpc : pc.got = none) (hw : ∀ b, pc ≠ .write b) :
    Inv (s.setPc p pc) := by
  have hself : (s.setPc p pc).pc p = pc := by simp [Sys.setPc]
  have hne : ∀ q, q ≠ p → (s.setPc p pc).pc q = s.pc q := fun q hq => by simp [Sys.setPc, hq]
  have hholds : ∀ q b, (s.setPc p pc).Holds q b → s.Holds q b := by
    intro q b hq
    by_cases hqp : q = p
    · subst hqp
      refine .inl (hq.resolve_right ?_)
      simp [hself, hpc]
    · rwa [Sys.Holds, hne q hqp] at hq
  refine ⟨h.all, h.uniq, fun q b hq => h.busy q b (hholds q b hq),
    fun q q' b hq hq' => h.once q q' b (hholds q b hq) (hholds q' b hq'), fun q b k hq => ?_,
    fun q b k hq => ?_, fun q b hq => ?_, h.held, h.dirty, h.touched, h.fresh, h.disk⟩
  · by_cases hqp : q = p
    · subst hqp
      rw [hself] at hq
      simp [hq, Pc.got] at hpc
    · exact h.reading q b k (by rwa [hne q hqp] at hq)
  · by_cases hqp : q = p
    · subst hqp
      rw [hself] at hq
      simp [hq, Pc.got] at hpc
    · exact h.returned q b k (by rwa [hne q hqp] at hq)
  · by_cases hqp : q = p
    · subst hqp
      rw [hself] at hq
      exact absurd hq (hw b)
    · exact h.writing q b (by rwa [hne q hqp] at hq)

omit [DecidableEq P] in
theorem Inv.stop (h : Inv s) (e : Panic) : Inv { s with panic := some e } :=
  ⟨h.all, h.uniq, h.busy, h.once, h.reading, h.returned, h.writing, h.held, h.dirty, h.touched,
    h.fresh, h.disk⟩

/-- **The change of one buffer.**  What the other buffers and the other processes are is as it was;
what is asked of the buffer and the process themselves is told of `x`, `t`, `v` and `a`. -/
theorem Inv.change (h : Inv s) (hc : Change s s' p b x t v a) (hown : ∀ q, s.Holds q b → q = p)
    (hgot : a.got = none ∨ a.got = some b)
    (hkey : x.key = (s.buf b).key ∨ ∀ c, (s.buf c).key ≠ x.key)
    (hbusy : v = true ∨ a.got = some b → x.busy = true)
    (hread : ∀ c k, a = .read c k → x.key = k ∧ x.valid = false ∧ x.dirty = false ∧ t = false)
    (hret : ∀ c k, a = .ret c k → x.key = k ∧ x.valid = true ∧ t = false)
    (hwrite : ∀ c, a = .write c → c = b ∧ v = true ∧ x.dirty = true ∧ t = false)
    (hheld : v = true → x.valid = true) (hdirty : x.dirty = true → x.valid = true)
    (htouch : t = true → v = true)
    (hfresh : x.key.1 ≠ noDev → x.valid = true → t = false → x.data = s'.latest x.key)
    (hother : ∀ c, c ≠ b → (s.buf c).key.1 ≠ noDev → s'.latest (s.buf c).key = s.latest (s.buf c).key)
    (hdisk : ∀ k : Key, k.1 ≠ noDev → s'.disk k ≠ s'.latest k →
      k = x.key ∧ x.dirty = true ∨ ∃ c, c ≠ b ∧ (s.buf c).key = k ∧ (s.buf c).dirty = true) :
    Inv s' := by
  obtain ⟨horder, hbuf, htouched, hheld', hpc⟩ := hc
  have hself : s'.buf b = x := by rw [hbuf, Function.update_self]
  have hne : ∀ c, c ≠ b → s'.buf c = s.buf c := fun c hc => by rw [hbuf, Function.update_of_ne hc]
  have hpself : s'.pc p = a := by rw [hpc, Function.update_self]
  have hpne : ∀ q, q ≠ p → s'.pc q = s.pc q := fun q hq => by rw [hpc, Function.update_of_ne hq]
  have hhself : s'.held p b = v := by rw [hheld', Function.update_self, Function.update_self]
  have hhne : ∀ q c, q ≠ p ∨ c ≠ b → s'.held q c = s.held q c := by
    intro q c hqc
    rw [hheld']
    by_cases hq : q = p
    · subst hq
      rw [Function.update_self, Function.update_of_ne (hqc.resolve_left (fun h => h rfl))]
    · rw [Function.update_of_ne hq]
  have htself : s'.touched b = t := by rw [htouched, Function.update_self]
  have htne : ∀ c, c ≠ b → s'.touched c = s.touched c := fun c hc => by
    rw [htouched, Function.update_of_ne hc]
  -- another process has what it had, and not `b`
  have hholds : ∀ q c, s'.Holds q c → (q = p ∧ c = b) ∨ (c ≠ b ∧ s.Holds q c) := by
    intro q c hq
    by_cases hqp : q = p
    · subst hqp
      by_cases hcb : c = b
      · exact .inl ⟨rfl, hcb⟩
      · refine .inr ⟨hcb, ?_⟩
        rcases hq with hq | hq
        · exact .inl (by rwa [hhne q c (.inr hcb)] at hq)
        · rw [hpself] at hq
          rcases hgot with hg | hg
          · rw [hg] at hq
            cases hq
          · rw [hg] at hq
            exact absurd (Option.some.inj hq).symm hcb
    · rw [Sys.Holds, hhne q c (.inl hqp), hpne q hqp] at hq
      refine .inr ⟨?_, hq⟩
      rintro rfl
      exact hqp (hown q hq)
  have hoth : ∀ q c, q ≠ p → s.Holds q c → c ≠ b := by
    rintro q c hq hh rfl
    exact hq (hown q hh)
  refine ⟨fun c => by rw [horder]; exact h.all c, fun c c' hdev hkk => ?_, fun q c hq => ?_,
    fun q q' c hq hq' => ?_, fun q c k hq => ?_, fun q c k hq => ?_, fun q c hq => ?_,
    fun q c hq => ?_, fun c hc => ?_, fun c hc => ?_, fun c hdev hv hc => ?_, fun k hdev hk => ?_⟩
  · by_cases hcb : c = b
    · by_cases hcb' : c' = b
      · rw [hcb, hcb']
      · rw [hcb, hself] at hkk hdev
        rw [hne c' hcb'] at hkk
        rcases hkey with hkey | hkey
        · rw [hcb]
          exact h.uniq b c' (hkey ▸ hdev) (hkey ▸ hkk)
        · exact absurd hkk.symm (hkey c')
    · by_cases hcb' : c' = b
      · rw [hcb', hself, hne c hcb] at hkk
        rw [hne c hcb] at hdev
        rcases hkey with hkey | hkey
        · rw [hcb']
          exact h.uniq c b hdev (hkk.trans hkey)
        · exact absurd hkk (hkey c)
      · rw [hne c hcb, hne c' hcb'] at hkk
        rw [hne c hcb] at hdev
        exact h.uniq c c' hdev hkk
  · rcases hholds q c hq with ⟨rfl, rfl⟩ | ⟨hcb, hh⟩
    · rw [hself]
      refine hbusy ?_
      rwa [Sys.Holds, hhself, hpself] at hq
    · rw [hne c hcb]
      exact h.busy q c hh
  · rcases hholds q c hq with ⟨rfl, rfl⟩ | ⟨hcb, hh⟩
    · rcases hholds q' c hq' with ⟨rfl, -⟩ | ⟨hcb, -⟩
      · rfl
      · exact absurd rfl hcb
    · rcases hholds q' c hq' with ⟨-, rfl⟩ | ⟨-, hh'⟩
      · exact absurd rfl hcb
      · exact h.once q q' c hh hh'
  · by_cases hqp : q = p
    · subst hqp
      rw [hpself] at hq
      have hcb : c = b := by
        rw [hq] at hgot
        exact Option.some.inj (hgot.resolve_left nofun)
      rw [hcb, hself, htself]
      exact hread c k hq
    · rw [hpne q hqp] at hq
      have hcb := hoth q c hqp (.inr (by rw [hq]; rfl))
      rw [hne c hcb, htne c hcb]
      exact h.reading q c k hq
  · by_cases hqp : q = p
    · subst hqp
      rw [hpself] at hq
      have hcb : c = b := by
        rw [hq] at hgot
        exact Option.some.inj (hgot.resolve_left nofun)
      rw [hcb, hself, htself]
      exact hret c k hq
    · rw [hpne q hqp] at hq
      have hcb := hoth q c hqp (.inr (by rw [hq]; rfl))
      rw [hne c hcb, htne c hcb]
      exact h.returned q c k hq
  · by_cases hqp : q = p
    · subst hqp
      rw [hpself] at hq
      obtain ⟨rfl, hw⟩ := hwrite c hq
      rw [hhself, hself, htself]
      exact hw
    · rw [hpne q hqp] at hq
      obtain ⟨hh, hw⟩ := h.writing q c hq
      have hcb := hoth q c hqp (.inl hh)
      rw [hhne q c (.inl hqp), hne c hcb, htne c hcb]
      exact ⟨hh, hw⟩
  · rcases hholds q c (.inl hq) with ⟨rfl, rfl⟩ | ⟨hcb, -⟩
    · rw [hself]
      exact hheld (hhself ▸ hq)
    · rw [hne c hcb]
      exact h.held q c (by rwa [hhne q c (.inr hcb)] at hq)
  · by_cases hcb : c = b
    · rw [hcb, hself] at hc ⊢
      exact hdirty hc
    · rw [hne c hcb] at hc ⊢
      exact h.dirty c hc
  · by_cases hcb : c = b
    · rw [hcb, htself] at hc
      exact ⟨p, by rw [hcb, hhself, htouch hc]⟩
    · rw [htne c hcb] at hc
      obtain ⟨q, hq⟩ := h.touched c hc
      exact ⟨q, by rw [hhne q c (.inr hcb), hq]⟩
  · by_cases hcb : c = b
    · rw [hcb, hself] at hdev hv ⊢
      exact hfresh hdev hv (by rwa [hcb, htself] at hc)
    · rw [hne c hcb] at hdev hv ⊢
      rw [hother c hcb hdev]
      exact h.fresh c hdev hv (by rwa [htne c hcb] at hc)
  · rcases hdisk k hdev hk with ⟨rfl, hd⟩ | ⟨c, hcb, hck, hd⟩
    · exact ⟨b, by rw [hself], by rw [hself, hd]⟩
    · exact ⟨c, by rw [hne c hcb, hck], by rw [hne c hcb, hd]⟩

omit [DecidableEq P] in
theorem Inv.setOrder (h : Inv s) {l : List BufNo} (hl : ∀ b, b ∈ l) : Inv { s with order := l } :=
  ⟨hl, h.uniq, h.busy, h.once, h.reading, h.returned, h.writing, h.held, h.dirty, h.touched,
    h.fresh, h.disk⟩

omit [DecidableEq P] in
theorem Inv.own (h : Inv s) (hp : s.Holds p b) (q : P) (hq : s.Holds q b) : q = p :=
  h.once q p b hq hp

omit [DecidableEq P] in
/-- A block whose buffer is not dirty is on the disk as it was last passed on. -/
theorem Inv.disk_eq (h : Inv s) (hdev : (s.buf b).key.1 ≠ noDev) (hd : (s.buf b).dirty = false) :
    s.disk (s.buf b).key = s.latest (s.buf b).key := by
  by_contra hne
  obtain ⟨c, hck, hcd⟩ := h.disk _ hdev hne
  rw [← h.uniq b c hdev hck.symm, hd] at hcd
  cases hcd

omit [DecidableEq P] in
/-- The dirty buffer of a block that differs on the disk, when it may be `b`. -/
theorem Inv.disk_cases (h : Inv s) {k' : Key} (hdev : k'.1 ≠ noDev) (hk : s.disk k' ≠ s.latest k') :
    k' = (s.buf b).key ∧ (s.buf b).dirty = true ∨
      ∃ c, c ≠ b ∧ (s.buf c).key = k' ∧ (s.buf c).dirty = true := by
  obtain ⟨c, hck, hcd⟩ := h.disk k' hdev hk
  by_cases hcb : c = b
  · subst hcb
    exact .inl ⟨hck.symm, hcd⟩
  · exact .inr ⟨c, hcb, hck, hcd⟩

theorem afterBget_eq (hx : x.busy = true) : (s.setBuf b x).afterBget p b k =
    (s.setBuf b x).setPc p (if x.valid then .ret b k else .read b k) := by
  have hb : (s.setBuf b x).buf b = x := by simp [Sys.setBuf]
  rw [Sys.afterBget, hb]
  split
  · rfl
  · rename_i hv
    rw [Sys.iderw, hb, if_neg (by simp [hx]), if_neg (by simp [hv])]

/-- **`bget` finds a buffer**: the one that has the block, or one that is neither busy nor dirty, when
no buffer has it. -/
theorem Inv.getBuf (h : Inv s) (hfree : (s.buf b).busy = false) (hx : x.busy = true) (hk : x.key = k)
    (hcase : x = { s.buf b with busy := true } ∨ (∀ c, (s.buf c).key ≠ k) ∧
      (s.buf b).dirty = false ∧ x.valid = false ∧ x.dirty = false) :
    Inv ((s.setBuf b x).afterBget p b k) := by
  have hnobody : ∀ q, ¬ s.Holds q b := fun q hq => by
    have := h.busy q b hq
    rw [hfree] at this
    cases this
  have hold : s.held p b = false := Bool.eq_false_iff.mpr fun hh => hnobody p (.inl hh)
  have htouched : s.touched b = false := Bool.eq_false_iff.mpr fun ht => by
    obtain ⟨q, hq⟩ := h.touched b ht
    exact hnobody q (.inl hq)
  rw [afterBget_eq hx]
  refine h.change (p := p) (b := b) (x := x) (t := false) (v := false)
    (a := if x.valid then .ret b k else .read b k) ⟨rfl, rfl, ?_, ?_, rfl⟩
    (fun q hq => absurd hq (hnobody q)) ?_ ?_ (fun _ => hx) ?_ ?_ ?_ nofun ?_ nofun ?_
    (fun _ _ _ => rfl) ?_
  · rw [← htouched, Function.update_eq_self]
    rfl
  · rw [← hold, Function.update_eq_self, Function.update_eq_self]
    rfl
  · right
    split <;> rfl
  · rcases hcase with rfl | ⟨hnone, -⟩
    · exact .inl rfl
    · exact .inr fun c => by rw [hk]; exact hnone c
  · intro c k' hpc
    split at hpc
    · cases hpc
    · rename_i hv
      cases hpc
      refine ⟨hk, by simpa using hv, ?_, rfl⟩
      rcases hcase with rfl | ⟨-, -, -, hd⟩
      · refine Bool.eq_false_iff.mpr fun hd => hv (h.dirty b hd)
      · exact hd
  · intro c k' hpc
    split at hpc
    · rename_i hv
      cases hpc
      exact ⟨hk, hv, rfl⟩
    · cases hpc
  · intro c hpc
    split at hpc <;> cases hpc
  · rcases hcase with rfl | ⟨-, -, -, hd⟩
    · exact h.dirty b
    · intro hd'
      rw [hd] at hd'
      cases hd'
  · intro hdev hv _
    rcases hcase with rfl | ⟨-, -, hnv, -⟩
    · exact h.fresh b hdev hv htouched
    · rw [hnv] at hv
      cases hv
  · intro k' hdev hne
    rcases hcase with rfl | ⟨-, hnd, -⟩
    · exact h.disk_cases hdev hne
    · refine .inr ((h.disk_cases (b := b) hdev hne).resolve_left ?_)
      rw [hnd]
      nofun

theorem Inv.bget (h : Inv s) : Inv (s.bget p k) := by
  unfold Sys.bget
  split
  · rename_i b hb
    have hkey : (s.buf b).key = k := by simpa using List.find?_some hb
    split
    · exact h.setPc rfl nofun
    · rename_i hbusy
      exact h.getBuf (by simpa using hbusy) rfl hkey (.inl rfl)
  · rename_i hnone
    have hno : ∀ c, (s.buf c).key ≠ k := by
      intro c
      simpa using List.find?_eq_none.mp hnone c (h.all c)
    split
    · rename_i b hb
      have hfree := List.find?_some hb
      simp only [Bool.and_eq_true, Bool.not_eq_true'] at hfree
      exact h.getBuf hfree.1 rfl rfl (.inr ⟨hno, hfree.2, rfl, rfl⟩)
    · exact h.stop _

/-- **A read is completed.** -/
theorem Inv.doneRead (h : Inv s) (hp : s.pc p = .read b k) :
    Inv ((s.transfer b).setPc p (.ret b k)) := by
  obtain ⟨hkey, hv, hd, ht⟩ := h.reading p b k hp
  have hholds : s.Holds p b := .inr (by rw [hp]; rfl)
  rw [Sys.transfer, if_neg (by simp [hd])]
  refine h.change (p := p) (b := b) (x := { s.buf b with data := s.disk (s.buf b).key, valid := true })
    (t := s.touched b) (v := s.held p b) (a := .ret b k) ⟨rfl, rfl, ?_, ?_, rfl⟩ (h.own hholds)
    (.inr rfl) (.inl rfl) (fun _ => h.busy p b hholds) nofun ?_ nofun (fun _ => rfl) (fun _ => rfl)
    ?_ ?_ (fun _ _ _ => rfl) ?_
  · rw [Function.update_eq_self]
    rfl
  · rw [Function.update_eq_self, Function.update_eq_self]
    rfl
  · intro c k' hpc
    cases hpc
    exact ⟨hkey, rfl, ht⟩
  · intro ht'
    rw [ht] at ht'
    cases ht'
  · intro hdev _ _
    exact h.disk_eq hdev hd
  · intro k' hdev hne
    exact h.disk_cases hdev hne

/-- **A write is completed**: what was passed to `bwrite` is on the disk. -/
theorem Inv.doneWrite (h : Inv s) (hp : s.pc p = .write b) :
    Inv ((s.transfer b).setPc p .idle) := by
  obtain ⟨hh, hd, ht⟩ := h.writing p b hp
  rw [Sys.transfer, if_pos hd]
  refine h.change (p := p) (b := b) (x := { s.buf b with dirty := false, valid := true })
    (t := s.touched b) (v := s.held p b) (a := .idle) ⟨rfl, rfl, ?_, ?_, rfl⟩ (h.own (.inl hh))
    (.inl rfl) (.inl rfl) (fun _ => h.busy p b (.inl hh)) nofun nofun nofun (fun _ => rfl)
    (fun _ => rfl) (fun _ => hh) ?_ (fun _ _ _ => rfl) ?_
  · rw [Function.update_eq_self]
    rfl
  · rw [Function.update_eq_self, Function.update_eq_self]
    rfl
  · intro hdev _ _
    exact h.fresh b hdev (h.held p b hh) ht
  · intro k' hdev hne
    have hk' : k' ≠ (s.buf b).key := by
      rintro rfl
      refine hne ?_
      simp only [Sys.setPc, Function.update_self]
      exact h.fresh b hdev (h.held p b hh) ht
    simp only [Sys.setPc, Function.update_of_ne hk'] at hne
    exact .inr ((h.disk_cases (b := b) hdev hne).resolve_left fun hk => hk' hk.1)

theorem Inv.take (h : Inv s) (hp : s.pc p = .ret b k) :
    Inv ((s.setHeld p b true).setPc p .idle) := by
  obtain ⟨hkey, hv, ht⟩ := h.returned p b k hp
  have hholds : s.Holds p b := .inr (by rw [hp]; rfl)
  refine h.change (p := p) (b := b) (x := s.buf b) (t := s.touched b) (v := true) (a := .idle)
    ⟨rfl, ?_, ?_, rfl, rfl⟩ (h.own hholds) (.inl rfl) (.inl rfl) (fun _ => h.busy p b hholds) nofun
    nofun nofun (fun _ => hv) (h.dirty b) (fun _ => rfl) (fun hdev hv ht => h.fresh b hdev hv ht)
    (fun _ _ _ => rfl) (fun k' hdev hne => h.disk_cases hdev hne)
  · rw [Function.update_eq_self]
    rfl
  · rw [Function.update_eq_self]
    rfl

theorem Inv.modify (h : Inv s) (hp : s.pc p = .idle) (hh : s.held p b = true) (d : δ) :
    Inv { s.setBuf b { s.buf b with data := d } with
      touched := Function.update s.touched b true } := by
  refine h.change (p := p) (b := b) (x := { s.buf b with data := d }) (t := true) (v := true)
    (a := .idle) ⟨rfl, rfl, rfl, ?_, ?_⟩ (h.own (.inl hh)) (.inl rfl) (.inl rfl)
    (fun _ => h.busy p b (.inl hh)) nofun nofun nofun (fun _ => h.held p b hh) (h.dirty b)
    (fun _ => rfl) nofun (fun _ _ _ => rfl) (fun k' hdev hne => h.disk_cases hdev hne)
  · rw [← hh, Function.update_eq_self, Function.update_eq_self]
    rfl
  · rw [← hp, Function.update_eq_self]
    rfl

/-- **The data are passed to `bwrite` or `log_write`.** -/
theorem Inv.pass (h : Inv s) (hh : s.held p b = true) (hpc : pc = .idle ∨ pc = .write b) :
    Inv ((s.pass b).setPc p pc) := by
  have hv := h.held p b hh
  have hgot : pc.got = none := by rcases hpc with rfl | rfl <;> rfl
  refine h.change (p := p) (b := b) (x := { s.buf b with dirty := true }) (t := false) (v := true)
    (a := pc) ⟨rfl, rfl, rfl, ?_, rfl⟩ (h.own (.inl hh)) (.inl hgot) (.inl rfl)
    (fun _ => h.busy p b (.inl hh)) ?_ ?_ ?_ (fun _ => hv) (fun _ => hv) nofun ?_ ?_ ?_
  · rw [← hh, Function.update_eq_self, Function.update_eq_self]
    rfl
  · rintro c k' rfl
    cases hgot
  · rintro c k' rfl
    cases hgot
  · rintro c rfl
    cases hpc.resolve_left nofun
    exact ⟨rfl, rfl, rfl, rfl⟩
  · intro _ _ _
    simp [Sys.setPc, Sys.pass]
  · intro c hcb hdev
    have hck : (s.buf c).key ≠ (s.buf b).key := fun he => hcb (h.uniq c b hdev he)
    simp [Sys.setPc, Sys.pass, Function.update_of_ne hck]
  · intro k' hdev hne
    by_cases hk' : k' = (s.buf b).key
    · exact .inl ⟨hk', rfl⟩
    · simp only [Sys.setPc, Sys.pass, Function.update_of_ne hk'] at hne
      exact .inr ((h.disk_cases (b := b) hdev hne).resolve_left fun hk => hk' hk.1)

theorem Inv.brelse (h : Inv s) (hp : s.pc p = .idle) (hh : s.held p b = true)
    (ht : s.touched b = false) :
    Inv { (s.setBuf b { s.buf b with busy := false }).setHeld p b false with
      order := b :: s.order.erase b } := by
  have h₁ : Inv ((s.setBuf b { s.buf b with busy := false }).setHeld p b false) := by
    refine h.change (p := p) (b := b) (x := { s.buf b with busy := false }) (t := false)
      (v := false) (a := .idle) ⟨rfl, rfl, ?_, rfl, ?_⟩ (h.own (.inl hh)) (.inl rfl) (.inl rfl)
      nofun nofun nofun nofun nofun (h.dirty b) nofun (fun hdev hv _ => h.fresh b hdev hv ht)
      (fun _ _ _ => rfl) (fun k' hdev hne => h.disk_cases hdev hne)
    · rw [← ht, Function.update_eq_self]
      rfl
    · rw [← hp, Function.update_eq_self]
      rfl
  refine h₁.setOrder fun c => ?_
  by_cases hcb : c = b
  · simp [hcb]
  · exact List.mem_cons_of_mem _ ((List.mem_erase_of_ne hcb).mpr (h.all c))

theorem iderw_pass (hb : (s.buf b).busy = true) (pc : Pc) :
    (s.pass b).iderw p b pc = (s.pass b).setPc p pc := by
  rw [Sys.iderw, if_neg, if_neg]
  · simp [Sys.pass, Sys.setBuf]
  · simpa [Sys.pass, Sys.setBuf] using hb

/-- **Every step keeps the invariant.** -/
theorem Inv.step {e : Event P δ} (h : Inv s) (hs : step s e = some s') : Inv s' := by
  unfold Bio.step at hs
  split at hs
  swap
  · cases hs
  cases e with
  | bread p k =>
      obtain ⟨-, hs⟩ := Option.ite_none_right_eq_some.mp hs
      cases hs
      exact h.setPc rfl nofun
  | bget p =>
      simp only [next] at hs
      split at hs <;> cases hs
      exact h.bget
  | wake p =>
      simp only [next] at hs
      split at hs <;> cases hs
      exact h.setPc rfl nofun
  | done p =>
      simp only [next] at hs
      split at hs <;> cases hs
      · exact h.doneRead ‹_›
      · exact h.doneWrite ‹_›
  | take p =>
      simp only [next] at hs
      split at hs <;> cases hs
      exact h.take ‹_›
  | modify p b d =>
      obtain ⟨⟨hp, hh⟩, hs⟩ := Option.ite_none_right_eq_some.mp hs
      cases hs
      exact h.modify hp hh d
  | bwrite p b =>
      obtain ⟨⟨-, hh⟩, hs⟩ := Option.ite_none_right_eq_some.mp hs
      rw [if_neg (by rw [h.busy p b (.inl hh)]; nofun), iderw_pass (h.busy p b (.inl hh))] at hs
      cases hs
      exact h.pass hh (.inr rfl)
  | logWrite p b =>
      obtain ⟨⟨hp, hh⟩, hs⟩ := Option.ite_none_right_eq_some.mp hs
      cases hs
      have := h.pass hh (.inl rfl)
      rwa [Sys.setPc, show (s.pass b).pc = s.pc from rfl, ← hp, Function.update_eq_self] at this
  | brelse p b =>
      obtain ⟨⟨hp, hh, ht⟩, hs⟩ := Option.ite_none_right_eq_some.mp hs
      rw [if_neg (by rw [h.busy p b (.inl hh)]; nofun)] at hs
      cases hs
      exact h.brelse hp hh ht

omit [DecidableEq P] in
theorem inv_boot (disk : Key → δ) (d : δ) : Inv (boot P disk d) := by
  refine ⟨fun b => by simp [boot], fun b b' hdev => absurd rfl hdev, ?_, ?_, nofun, nofun, nofun,
    nofun, nofun, nofun, fun b hdev => absurd rfl hdev, fun k _ hne => absurd rfl hne⟩
  · rintro p b (hh | hh) <;> cases hh
  · rintro p q b (hh | hh) <;> cases hh

omit [DecidableEq P] in
/-- What a step does to a buffer that is not the one it is about. -/
theorem Sys.setBuf_keeps {c : BufNo} (hx : c = b → x.key = (s.buf b).key ∧
      ((s.buf b).dirty = true → x.dirty = true)) (hc : (s.buf c).dirty = true) :
    ((s.setBuf b x).buf c).key = (s.buf c).key ∧ ((s.setBuf b x).buf c).dirty = true := by
  by_cases hcb : c = b
  · subst hcb
    simp only [Sys.setBuf, Function.update_self]
    exact ⟨(hx rfl).1, (hx rfl).2 hc⟩
  · simp only [Sys.setBuf, Function.update_of_ne hcb]
    exact ⟨trivial, hc⟩

/-- **A dirty buffer is not recycled**, and is clean only when its data are on the disk. -/
theorem Inv.stepDirty {e : Event P δ} (h : Inv s) (hs : Bio.step s e = some s') {c : BufNo}
    (hc : (s.buf c).dirty = true) : (s'.buf c).key = (s.buf c).key ∧
      ((s'.buf c).dirty = true ∨ s'.disk (s.buf c).key = (s.buf c).data) := by
  -- most steps leave it dirty
  have hkeep : ((s'.buf c).key = (s.buf c).key ∧ (s'.buf c).dirty = true) →
      (s'.buf c).key = (s.buf c).key ∧
        ((s'.buf c).dirty = true ∨ s'.disk (s.buf c).key = (s.buf c).data) := fun hk =>
    ⟨hk.1, .inl hk.2⟩
  unfold Bio.step at hs
  split at hs
  swap
  · cases hs
  cases e with
  | bread p k =>
      obtain ⟨-, hs⟩ := Option.ite_none_right_eq_some.mp hs
      cases hs
      exact ⟨rfl, .inl hc⟩
  | bget p =>
      simp only [next] at hs
      split at hs <;> cases hs
      rename_i k hp
      refine hkeep ?_
      unfold Sys.bget
      split
      · rename_i b hb
        split
        · exact ⟨rfl, hc⟩
        · rw [afterBget_eq rfl]
          exact Sys.setBuf_keeps (x := { s.buf b with busy := true }) (fun _ => ⟨rfl, id⟩) hc
      · split
        · rename_i b hb
          rw [afterBget_eq rfl]
          refine Sys.setBuf_keeps (fun hcb => ?_) hc
          have hfree := List.find?_some hb
          simp [← hcb, hc] at hfree
        · exact ⟨rfl, hc⟩
  | wake p =>
      simp only [next] at hs
      split at hs <;> cases hs
      exact ⟨rfl, .inl hc⟩
  | done p =>
      simp only [next] at hs
      split at hs <;> cases hs
      · rename_i b k hp
        have hd := (h.reading p b k hp).2.2.1
        refine hkeep ?_
        rw [Sys.transfer, if_neg (by simp [hd])]
        exact Sys.setBuf_keeps (x := { s.buf b with data := s.disk (s.buf b).key, valid := true })
          (fun _ => ⟨rfl, id⟩) hc
      · rename_i b hp
        rw [Sys.transfer, if_pos (h.writing p b hp).2.1]
        by_cases hcb : c = b
        · subst hcb
          simp [Sys.setPc, Sys.setBuf]
        · simp [Sys.setPc, Sys.setBuf, hcb, hc]
  | take p =>
      simp only [next] at hs
      split at hs <;> cases hs
      exact ⟨rfl, .inl hc⟩
  | modify p b d =>
      obtain ⟨-, hs⟩ := Option.ite_none_right_eq_some.mp hs
      cases hs
      exact hkeep (Sys.setBuf_keeps (x := { s.buf b with data := d }) (fun _ => ⟨rfl, id⟩) hc)
  | bwrite p b =>
      obtain ⟨⟨-, hh⟩, hs⟩ := Option.ite_none_right_eq_some.mp hs
      rw [if_neg (by rw [h.busy p b (.inl hh)]; nofun), iderw_pass (h.busy p b (.inl hh))] at hs
      cases hs
      exact hkeep (Sys.setBuf_keeps (x := { s.buf b with dirty := true }) (fun _ => ⟨rfl, fun _ => rfl⟩) hc)
  | logWrite p b =>
      obtain ⟨-, hs⟩ := Option.ite_none_right_eq_some.mp hs
      cases hs
      exact hkeep (Sys.setBuf_keeps (x := { s.buf b with dirty := true }) (fun _ => ⟨rfl, fun _ => rfl⟩) hc)
  | brelse p b =>
      obtain ⟨⟨-, hh, -⟩, hs⟩ := Option.ite_none_right_eq_some.mp hs
      rw [if_neg (by rw [h.busy p b (.inl hh)]; nofun)] at hs
      cases hs
      exact hkeep (Sys.setBuf_keeps (x := { s.buf b with busy := false }) (fun _ => ⟨rfl, id⟩) hc)

end Steps

/-! ### Coherence -/

/-- **The buffer cache is coherent.**  In every reachable state a block is in at most one buffer and
a buffer with at most one process; a step never recycles a dirty buffer, which stays dirty until its
data are on the disk; and `bread` of a block returns a buffer of it with the data last passed to
`bwrite` or `log_write` for it, or the data the disk had to begin with. -/
theorem cache_coherent {disk : Key → δ} {d : δ} {es : List (Event P δ)} {s : Sys P δ}
    (h : runs step (boot P disk d) es = some s) :
    (∀ b b', (s.buf b).key.1 ≠ noDev → (s.buf b).key = (s.buf b').key → b = b') ∧
    (∀ p q b, s.Holds p b → s.Holds q b → p = q) ∧
    (∀ e s', step s e = some s' → ∀ b, (s.buf b).dirty = true → (s'.buf b).key = (s.buf b).key ∧
      ((s'.buf b).dirty = true ∨ s'.disk (s.buf b).key = (s.buf b).data)) ∧
    ∀ p b k, s.pc p = .ret b k → k.1 ≠ noDev →
      (s.buf b).key = k ∧ (s.buf b).data = s.latest k := by
  have hi : Inv s := runs_inv_all (fun _ _ _ hi hs => hi.step hs) (inv_boot disk d) h
  refine ⟨hi.uniq, hi.once, fun e s' hs b hb => hi.stepDirty hs hb, fun p b k hp hdev => ?_⟩
  obtain ⟨rfl, hv, ht⟩ := hi.returned p b k hp
  exact ⟨rfl, hi.fresh b hdev hv ht⟩

/-- A process changes a block and pins it; another reads it. -/
def writeThenRead : List (Event (Fin 2) Nat) :=
  [.bread 0 (1, 5), .bget 0, .done 0, .take 0, .modify 0 0 7, .logWrite 0 0, .brelse 0 0,
    .bread 1 (1, 5), .bget 1]

theorem runs_writeThenRead : (runs step (boot (Fin 2) (fun _ => 0) 0) writeThenRead).map
    (fun s => (s.pc 1, s.latest (1, 5))) = some (.ret 0 (1, 5), 7) := by decide

/-- The second process is given the data the first one passed to `log_write`. -/
theorem writeThenRead_coherent : ∃ s : Sys (Fin 2) Nat,
    runs step (boot (Fin 2) (fun _ => 0) 0) writeThenRead = some s ∧ (s.buf 0).data = 7 := by
  obtain ⟨s, hs, heq⟩ := Option.map_eq_some_iff.mp runs_writeThenRead
  simp only [Prod.mk.injEq] at heq
  refine ⟨s, hs, ?_⟩
  rw [((cache_coherent hs).2.2.2 1 0 (1, 5) heq.1 (by decide)).2, heq.2]

end Xv6.Bio
