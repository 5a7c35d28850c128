import Xv6.Bio.Cache
import Xv6.Lib.Doubly

/-!
# Bio — the list of the buffers

The `next` and `prev` fields that `Xv6.Bio.Cache` has as a list, with the writes `binit` and `brelse` make and the two
loops `bget` walks.  A call is one step, as it is made under `bcache.lock`; a `bget` that sleeps is another call when it
wakes.  Between them the processes may change the buffers in any way, but for the two fields (`Event.change`).

After any calls the fields are a ring through `bcache.head` of all buffers, ordered by when they were last released
(`Links.Ordered`, `ordered_of_runs`), and so `bget` walks over the list of `Xv6.Bio.Cache` (`bget_eq`).
-/

namespace Xv6.Bio
open Lib

/-- `&bcache.buf[b]`, or `&bcache.head`. -/
abbrev Node := Option BufNo

abbrev head : Node := none

structure Links (δ : Type) where
  next : Node → Node
  prev : Node → Node
  buf : BufNo → Buf δ

inductive Got where
  | got (b : BufNo)
  | asleep (b : BufNo)
  | noBuffers
  deriving DecidableEq, Repr

namespace Links
variable {δ : Type}

def setNext (r : Links δ) (a v : Node) : Links δ := { r with next := Function.update r.next a v }

def setPrev (r : Links δ) (a v : Node) : Links δ := { r with prev := Function.update r.prev a v }

def setBuf (r : Links δ) (b : BufNo) (x : Buf δ) : Links δ := { r with buf := Function.update r.buf b x }

/-- The four writes of `binit` and `brelse` that put `b` behind `bcache.head`. -/
def pushFront (r : Links δ) (b : BufNo) : Links δ :=
  let r := r.setNext b (r.next head)
  let r := r.setPrev b head
  let r := r.setPrev (r.next head) b
  r.setNext head b

/-- The two writes of `brelse` that take `b` out. -/
def unlink (r : Links δ) (b : BufNo) : Links δ :=
  let r := r.setPrev (r.next b) (r.prev b)
  r.setNext (r.prev b) (r.next b)

/-- A round of `binit`'s loop. -/
def binitRound (r : Links δ) (b : BufNo) : Links δ :=
  (r.pushFront b).setBuf b { r.buf b with key := (noDev, (r.buf b).key.2) }

def binit (r : Links δ) : Links δ :=
  let r := r.setPrev head head
  let r := r.setNext head head
  (List.finRange nbuf).foldl binitRound r

/-- The test of `bget`'s first loop. -/
def Has (r : Links δ) (k : Key) : Node → Prop
  | none => False
  | some b => (r.buf b).key = k

/-- The test of `bget`'s second loop. -/
def Free (r : Links δ) : Node → Prop
  | none => False
  | some b => (r.buf b).busy = false ∧ (r.buf b).dirty = false

instance (r : Links δ) (k : Key) : DecidablePred (r.Has k)
  | none => inferInstanceAs (Decidable False)
  | some b => inferInstanceAs (Decidable ((r.buf b).key = k))

instance (r : Links δ) : DecidablePred r.Free
  | none => inferInstanceAs (Decidable False)
  | some b => inferInstanceAs (Decidable ((r.buf b).busy = false ∧ (r.buf b).dirty = false))

/-- `bget`, until it returns or sleeps, with a bound on the rounds of each loop: `none` if it is not enough. -/
def bget (fuel : Nat) (r : Links δ) (k : Key) : Option (Links δ × Got) :=
  match find r.next (fun a => a = head ∨ r.Has k a) fuel (r.next head) with
  | none => none
  | some (some b) =>
      if (r.buf b).busy then some (r, .asleep b)
      else some (r.setBuf b { r.buf b with busy := true }, .got b)
  | some none =>
      match find r.prev (fun a => a = head ∨ r.Free a) fuel (r.prev head) with
      | none => none
      | some (some b) => some (r.setBuf b ⟨true, false, false, k, (r.buf b).data⟩, .got b)
      | some none => some (r, .noBuffers)

/-- `brelse`: `none` if it panics. -/
def brelse (r : Links δ) (b : BufNo) : Option (Links δ) :=
  if (r.buf b).busy = false then none
  else some (((r.unlink b).pushFront b).setBuf b { r.buf b with busy := false })

end Links

/-! ### The calls -/

namespace Links

inductive Event (δ : Type) where
  | bget (k : Key)
  | brelse (b : BufNo)
  /-- what the disk, the log and the processes do with the buffers -/
  | change (buf : BufNo → Buf δ)

variable {δ : Type}

/-- A call, if it returns or sleeps. -/
def step (r : Links δ) : Event δ → Option (Links δ)
  | .bget k =>
      match r.bget (nbuf + 1) k with
      | some (_, .noBuffers) | none => none
      | some (r, _) => some r
  | .brelse b => r.brelse b
  | .change buf => some { r with buf := buf }

/-- The buffers released, in order. -/
def released (es : List (Event δ)) : List BufNo :=
  es.filterMap fun
    | .brelse b => some b
    | _ => none

/-- The buffers by when they were last released, the last first; before that they are as `binit` has put them. -/
def recent (bs : List BufNo) : List BufNo := (List.finRange nbuf ++ bs).dedup.reverse

/-- The fields are a ring of the buffers in this order. -/
structure Ordered (r : Links δ) (l : List BufNo) : Prop where
  ring : RingOf r.next r.prev head (l.map some)
  all : ∀ b, b ∈ l

section Ring
variable {r r' s : Links δ} {l : List BufNo} {b : BufNo} {k : Key} {fuel : Nat} {e : Event δ} {es : List (Event δ)}

theorem recent_nil : recent [] = (List.finRange nbuf).reverse := by
  rw [recent, List.append_nil, (List.nodup_finRange nbuf).dedup]

/-- `dedup` keeps the last of equal members. -/
theorem dedup_concat (L : List BufNo) : (L ++ [b]).dedup = L.dedup.erase b ++ [b] := by
  induction L with
  | nil => rfl
  | cons x L ih =>
      rw [List.cons_append]
      by_cases hx : x ∈ L
      · rw [List.dedup_cons_of_mem hx, List.dedup_cons_of_mem (List.mem_append_left [b] hx), ih]
      · rw [List.dedup_cons_of_notMem hx]
        by_cases hxb : x = b
        · subst hxb
          have hmem : x ∈ L ++ [x] := List.mem_append_right L (List.mem_singleton_self x)
          rw [List.dedup_cons_of_mem hmem, ih, List.erase_cons_head,
            List.erase_of_not_mem (fun hm => hx (List.mem_dedup.mp hm))]
        · have hnot : x ∉ L ++ [b] := by
            rw [List.mem_append, List.mem_singleton]
            exact not_or.mpr ⟨hx, hxb⟩
          rw [List.dedup_cons_of_notMem hnot, ih, List.erase_cons_tail (by simpa using hxb), List.cons_append]

theorem recent_concat (bs : List BufNo) : recent (bs ++ [b]) = b :: (recent bs).erase b := by
  have hnodup := List.nodup_dedup (List.finRange nbuf ++ bs)
  rw [recent, ← List.append_assoc, dedup_concat, List.reverse_append, List.reverse_singleton, List.singleton_append,
    recent, (List.nodup_reverse.mpr hnodup).erase_eq_filter, hnodup.erase_eq_filter, List.filter_reverse]

theorem pushFront_next :
    (r.pushFront b).next = Function.update (Function.update r.next b (r.next head)) head (some b) := rfl

theorem pushFront_prev :
    (r.pushFront b).prev = Function.update (Function.update r.prev b head) (r.next head) (some b) := by
  have hnext : Function.update r.next b (r.next head) head = r.next head :=
    Function.update_of_ne (Option.some_ne_none b).symm _ _
  simp only [pushFront, setNext, setPrev, hnext]

theorem unlink_prev : (r.unlink b).prev = Function.update r.prev (r.next b) (r.prev b) := rfl

theorem unlink_next : (r.unlink b).next = Function.update r.next (r.prev b) (r.next b) := by
  have hprev : Function.update r.prev (r.next b) (r.prev b) b = r.prev b := by
    by_cases heq : some b = r.next b
    · rw [← heq, Function.update_self]
    · exact Function.update_of_ne heq _ _
  simp only [unlink, setNext, setPrev, hprev]

theorem pushFront_ring (h : RingOf r.next r.prev head (l.map some)) (hb : b ∉ l) :
    RingOf (r.pushFront b).next (r.pushFront b).prev head ((b :: l).map some) := by
  have hx : some b ∉ head :: l.map some := by simpa using hb
  rw [pushFront_next, pushFront_prev]
  exact h.pushFront hx

theorem unlink_ring (h : RingOf r.next r.prev head (l.map some)) (hb : b ∈ l) :
    RingOf (r.unlink b).next (r.unlink b).prev head ((l.erase b).map some) := by
  obtain ⟨l₁, l₂, rfl⟩ := List.mem_iff_append.mp hb
  have hnodup : (l₁ ++ b :: l₂).Nodup := List.Nodup.of_map some h.nodup_list
  have hnot : b ∉ l₁ := by
    intro hm
    exact (List.nodup_append.mp hnodup).2.2 b hm b List.mem_cons_self rfl
  rw [List.map_append, List.map_cons] at h
  rw [List.erase_append_right _ hnot, List.erase_cons_head, List.map_append, unlink_next, unlink_prev]
  exact h.remove

/-- `binit`'s loop puts the buffers in front, one after the other. -/
theorem foldl_binitRound {bs : List BufNo} (h : RingOf r.next r.prev head (l.map some)) (hbs : (bs.reverse ++ l).Nodup) :
    RingOf (bs.foldl binitRound r).next (bs.foldl binitRound r).prev head ((bs.reverse ++ l).map some) := by
  induction bs generalizing r l with
  | nil => exact h
  | cons b bs ih =>
      rw [List.reverse_cons, List.append_assoc, List.singleton_append] at hbs ⊢
      have hb : b ∉ l := (List.nodup_cons.mp (List.nodup_append.mp hbs).2.1).1
      exact ih (pushFront_ring h hb) hbs

/-- `binit` makes a ring of the buffers, the last of the array first. -/
theorem binit_ordered (r : Links δ) : Ordered r.binit (recent []) := by
  rw [recent_nil]
  refine ⟨?_, fun b => List.mem_reverse.mpr (List.mem_finRange b)⟩
  have hempty : RingOf ((r.setPrev head head).setNext head head).next ((r.setPrev head head).setNext head head).prev
      head ([].map some) := .nil (by simp [setNext, setPrev]) (by simp [setNext, setPrev])
  have hnodup : ((List.finRange nbuf).reverse ++ []).Nodup := by
    rw [List.append_nil]
    exact List.nodup_reverse.mpr (List.nodup_finRange nbuf)
  have hring := foldl_binitRound hempty hnodup
  rwa [List.append_nil] at hring

/-- **`brelse`** puts the buffer first. -/
theorem Ordered.brelse (h : Ordered r l) (hr : r.brelse b = some r') : Ordered r' (b :: l.erase b) := by
  have hnodup : l.Nodup := List.Nodup.of_map some h.ring.nodup_list
  rw [Links.brelse] at hr
  split at hr
  · cases hr
  · cases hr
    refine ⟨pushFront_ring (unlink_ring h.ring (h.all b)) hnodup.not_mem_erase, fun c => ?_⟩
    by_cases hc : c = b
    · exact List.mem_cons.mpr (.inl hc)
    · exact List.mem_cons_of_mem b ((List.mem_erase_of_ne hc).mpr (h.all c))

theorem Ordered.length (h : Ordered r l) : l.length = nbuf := by
  have hnodup : l.Nodup := List.Nodup.of_map some h.ring.nodup_list
  have hcard := List.toFinset_card_of_nodup hnodup
  rw [← hcard, Finset.eq_univ_of_forall (fun b => List.mem_toFinset.mpr (h.all b)), Finset.card_univ, Fintype.card_fin]

theorem find_map_some {P : Node → Prop} [DecidablePred P] (l : List BufNo) :
    ((l.map some).find? P).getD head = l.find? fun b => P (some b) := by
  rw [List.find?_map]
  change (Option.map some (l.find? fun b => P (some b))).getD head = _
  cases l.find? fun b => P (some b) with
  | none => rfl
  | some b => rfl

/-- **`bget`'s loops** go over the list, forward for the block and backward for a buffer to recycle. -/
theorem bget_eq (h : Ordered r l) (hfuel : nbuf < fuel) : r.bget fuel k = some
    (match l.find? fun b => (r.buf b).key = k with
    | some b => if (r.buf b).busy then (r, .asleep b) else (r.setBuf b { r.buf b with busy := true }, .got b)
    | none =>
        match l.reverse.find? fun b => (r.buf b).busy = false ∧ (r.buf b).dirty = false with
        | some b => (r.setBuf b ⟨true, false, false, k, (r.buf b).data⟩, .got b)
        | none => (r, .noBuffers)) := by
  have hlength : (l.map some).length < fuel := by
    rw [List.length_map, h.length]
    exact hfuel
  have hfirst : find r.next (fun a => a = head ∨ r.Has k a) fuel (r.next head) =
      some (l.find? fun b => (r.buf b).key = k) := by
    rw [h.ring.find hlength, find_map_some]
    rfl
  have hsecond : find r.prev (fun a => a = head ∨ r.Free a) fuel (r.prev head) =
      some (l.reverse.find? fun b => (r.buf b).busy = false ∧ (r.buf b).dirty = false) := by
    rw [h.ring.symm.find (by rwa [List.length_reverse]), ← List.map_reverse, find_map_some]
    rfl
  rw [bget, hfirst, hsecond]
  cases l.find? fun b => (r.buf b).key = k with
  | some b => exact (apply_ite some _ _ _).symm
  | none =>
      cases l.reverse.find? fun b => (r.buf b).busy = false ∧ (r.buf b).dirty = false with
      | some b => rfl
      | none => rfl

/-- A block that a buffer has is found. -/
theorem bget_finds (h : Ordered r l) (hfuel : nbuf < fuel) : ∃ r' out, r.bget fuel k = some (r', out) ∧
    ∀ b, (r.buf b).key = k → ∃ c, (r.buf c).key = k ∧ out = if (r.buf c).busy then .asleep c else .got c := by
  rw [bget_eq h hfuel]
  refine ⟨_, _, rfl, fun b hb => ?_⟩
  have hfound : (l.find? fun b => (r.buf b).key = k).isSome = true :=
    List.find?_isSome.mpr ⟨b, h.all b, decide_eq_true hb⟩
  obtain ⟨c, hc⟩ := Option.isSome_iff_exists.mp hfound
  have hkey : (r.buf c).key = k := by simpa using List.find?_some hc
  refine ⟨c, hkey, ?_⟩
  simp only [hc]
  split <;> rfl

/-- `bget` writes neither field. -/
theorem bget_links {out : Got} (hr : r.bget fuel k = some (r', out)) : r'.next = r.next ∧ r'.prev = r.prev := by
  rw [bget] at hr
  split at hr
  · cases hr
  · split at hr <;> cases hr <;> exact ⟨rfl, rfl⟩
  · split at hr
    · cases hr
    · cases hr
      exact ⟨rfl, rfl⟩
    · cases hr
      exact ⟨rfl, rfl⟩

theorem step_ordered {bs : List BufNo} (h : Ordered r (recent bs)) (hs : r.step e = some s) :
    Ordered s (recent (bs ++ released [e])) := by
  cases e with
  | bget k =>
      have hlinks : s.next = r.next ∧ s.prev = r.prev := by
        rw [step] at hs
        split at hs
        · cases hs
        · cases hs
        · rename_i hr
          cases hs
          exact bget_links hr
      refine ⟨?_, fun b => ?_⟩
      · rw [hlinks.1, hlinks.2]
        exact (List.append_nil bs).symm ▸ h.ring
      · exact (List.append_nil bs).symm ▸ h.all b
  | brelse b =>
      have hnext := h.brelse hs
      rwa [← recent_concat] at hnext
  | change buf =>
      cases hs
      exact (List.append_nil bs).symm ▸ ⟨h.ring, h.all⟩

/-- **After any calls** the buffers are in the order of their last release. -/
theorem ordered_of_runs (h : runs step r.binit es = some s) : Ordered s (recent (released es)) := by
  induction es using List.reverseRecOn generalizing s with
  | nil =>
      cases h
      exact binit_ordered r
  | append_singleton es e ih =>
      obtain ⟨s₁, h₁, h₂⟩ := runs_snoc.mp h
      rw [released, List.filterMap_append]
      exact step_ordered (ih h₁) h₂

/-- **The ring**: from `binit`, after any calls, `next` goes through all buffers, each once and the most recently released
first, and back to `bcache.head`, and `prev` the other way round; `bget` comes to an end, and if a buffer has the block
that is what it finds. -/
theorem ring_after_calls (h : runs step r.binit es = some s) :
    ∃ l, l = recent (released es) ∧ l.Nodup ∧ (∀ b, b ∈ l) ∧ Path s.next (s.next head) (l.map some) head ∧
      Path s.prev (s.prev head) (l.reverse.map some) head ∧
      ∀ k fuel, nbuf < fuel → ∃ s' out, s.bget fuel k = some (s', out) ∧ ∀ b, (s.buf b).key = k →
        ∃ c, (s.buf c).key = k ∧ out = if (s.buf c).busy then .asleep c else .got c := by
  obtain ⟨l, hl⟩ : ∃ l, l = recent (released es) := ⟨_, rfl⟩
  have hordered := ordered_of_runs h
  rw [← hl] at hordered
  refine ⟨l, hl, List.Nodup.of_map some hordered.ring.nodup_list, hordered.all, hordered.ring.forward, ?_,
    fun k fuel hfuel => bget_finds hordered hfuel⟩
  rw [List.map_reverse]
  exact hordered.ring.backward

end Ring

/-- A machine before `binit`. -/
def raw : Links Unit := ⟨fun _ => head, fun _ => head, fun _ => ⟨false, false, false, (0, 0), ()⟩⟩

/-- A block is read into the last buffer, which is the first after its release. -/
theorem ring_after_release : ∃ s, runs step raw.binit [.bget (1, 7), .brelse 0] = some s ∧ s.next head = some 0 ∧
    ∃ s', s.bget 31 (1, 7) = some (s', .got 0) := by
  have hrun : (match runs step raw.binit [.bget (1, 7), .brelse 0] with
      | some s => decide (s.next head = some 0 ∧ (s.buf 0).key = (1, 7) ∧ (s.buf 0).busy = false ∧
          ∀ c, (s.buf c).key = (1, 7) → c = 0)
      | none => false) = true := by decide +kernel
  split at hrun
  · rename_i s hs
    obtain ⟨hfirst, hkey, hbusy, huniq⟩ := of_decide_eq_true hrun
    obtain ⟨-, -, -, -, -, -, hbget⟩ := ring_after_calls hs
    obtain ⟨s', out, hs', hfound⟩ := hbget (1, 7) 31 (by decide)
    obtain ⟨c, hc, hout⟩ := hfound 0 hkey
    rw [huniq c hc, hbusy] at hout
    exact ⟨s, hs, hfirst, s', by rw [hs', hout]; rfl⟩
  · cases hrun

/-! ### The list of the cache -/

section Refines
variable {P : Type} {r : Links δ} {s s' : Sys P δ} {p : P} {b : BufNo} {k : Key} {fuel : Nat}

/-- The fields are those of the cache's list. -/
structure Refines (r : Links δ) (s : Sys P δ) : Prop where
  ordered : Ordered r s.order
  buf : r.buf = s.buf

theorem Refines.setBuf (h : Refines r s) (x : Buf δ) : Refines (r.setBuf b x) (s.setBuf b x) := by
  refine ⟨⟨h.ordered.ring, h.ordered.all⟩, ?_⟩
  rw [Links.setBuf, Sys.setBuf, h.buf]

variable [DecidableEq P]

theorem Refines.afterBget (h : Refines r s) : Refines r (s.afterBget p b k) := by
  have hsame : (s.afterBget p b k).order = s.order ∧ (s.afterBget p b k).buf = s.buf := by
    rw [Sys.afterBget, Sys.iderw]
    repeat' split
    all_goals exact ⟨rfl, rfl⟩
  refine ⟨?_, ?_⟩
  · rw [hsame.1]
    exact h.ordered
  · rw [hsame.2, h.buf]

/-- **`bget`** over the fields is `bget` over the list. -/
theorem Refines.bget (h : Refines r s) (hfuel : nbuf < fuel) :
    ∃ r' out, r.bget fuel k = some (r', out) ∧ Refines r' (s.bget p k) := by
  have hcached : (s.order.find? fun b => (r.buf b).key = k) = s.cached k := by rw [h.buf, Sys.cached]
  have hvictim : (s.order.reverse.find? fun b => (r.buf b).busy = false ∧ (r.buf b).dirty = false) = s.victim := by
    rw [h.buf, Sys.victim]
    refine congrArg (fun t => s.order.reverse.find? t) (funext fun b => ?_)
    cases (s.buf b).busy <;> cases (s.buf b).dirty <;> rfl
  refine ⟨_, _, bget_eq h.ordered hfuel, ?_⟩
  rw [hcached, hvictim, Sys.bget]
  cases s.cached k with
  | some b =>
      rw [h.buf]
      by_cases hbusy : (s.buf b).busy = true
      · simp only [hbusy, if_true]
        exact ⟨h.ordered, h.buf⟩
      · simp only [hbusy]
        exact (h.setBuf _).afterBget
  | none =>
      cases s.victim with
      | some b =>
          rw [h.buf]
          exact (h.setBuf _).afterBget
      | none => exact ⟨h.ordered, h.buf⟩

/-- **`brelse`** over the fields is `brelse` over the list. -/
theorem Refines.brelse (h : Refines r s) (hs : Bio.next s (.brelse p b) = some s') (hok : (s.buf b).busy = true) :
    ∃ r', r.brelse b = some r' ∧ Refines r' s' := by
  have hbusy : ¬ (r.buf b).busy = false := by
    rw [h.buf, hok]
    decide
  have hr : r.brelse b = some (((r.unlink b).pushFront b).setBuf b { r.buf b with busy := false }) := if_neg hbusy
  rw [Bio.next] at hs
  split at hs
  · rw [if_neg (by rw [hok]; decide)] at hs
    cases hs
    refine ⟨_, hr, ?_, ?_⟩
    · exact h.ordered.brelse hr
    · change Function.update r.buf b _ = Function.update s.buf b _
      rw [h.buf]
  · cases hs

end Refines

end Links

end Xv6.Bio
