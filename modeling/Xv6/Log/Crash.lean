import Xv6.Fs.Block
import Xv6.Lib.Redo
import Xv6.Log.Ops

/-!
# Log — crash atomicity

`commit()` and `recover_from_log()` as a machine that writes one block at a time, with a crash
possible between any two writes.  A crash loses the in-memory log header and the buffer cache; the
disk keeps what was written.

What a disk stands for is what recovery would make of it: its home blocks, with the writes its log
header lists done to them (`recovered`).  Each write of `commit()` and of recovery keeps that, but
for the first `write_head` of a commit, which does the whole transaction to it.
-/

namespace Xv6.Log
open Lib Fs

/-! ### The header block -/

/-- `hb->block[i] = log.lh.block[i]`, from `i` on. -/
def putBlocks (hb : Block) : Nat → List Nat → Block
  | _, [] => hb
  | i, b :: bs => putBlocks (hb.write (4 + 4 * i) 4 b) (i + 1) bs

/-- `write_head`'s header block for `lh`, made from the one on disk. -/
def headerOf (hb : Block) (lh : List Nat) : Block := putBlocks (hb.write 0 4 lh.length) 0 lh

/-- `read_head`: `n` is an `int`, and the loop does nothing when it is negative. -/
def readHead (hb : Block) : List Nat :=
  let n := hb.read 0 4
  (List.range (if n < 2 ^ 31 then n else 0)).map fun i => hb.read (4 + 4 * i) 4

theorem read_putBlocks_of_le {hb : Block} {i o : Nat} (bs : List Nat) (h : o + 4 ≤ 4 + 4 * i) :
    (putBlocks hb i bs).read o 4 = hb.read o 4 := by
  induction bs generalizing hb i with
  | nil => rfl
  | cons b bs ih =>
      rw [putBlocks, ih (by omega), Bytes.read_write_of_disjoint (by omega)]

theorem read_putBlocks (hb : Block) (i : Nat) (bs : List Nat) (hlt : ∀ b ∈ bs, b < 2 ^ 32)
    (hlen : 4 + 4 * (i + bs.length) ≤ bsize) {j : Nat} (hj : j < bs.length) :
    (putBlocks hb i bs).read (4 + 4 * (i + j)) 4 = bs[j] := by
  induction bs generalizing hb i j with
  | nil => cases hj
  | cons b bs ih =>
      rw [List.length_cons] at hlen hj
      cases j with
      | zero =>
          rw [putBlocks, read_putBlocks_of_le bs (by omega)]
          exact Bytes.read_write_self (by omega) (hlt b (by simp))
      | succ j =>
          have h := ih (hb.write (4 + 4 * i) 4 b) (i + 1)
            (fun x hx => hlt x (List.mem_cons_of_mem b hx)) (by omega) (j := j) (by omega)
          rw [putBlocks, show i + (j + 1) = i + 1 + j by omega, h]
          rfl

/-- What `write_head` wrote, `read_head` reads. -/
theorem readHead_headerOf {hb : Block} {lh : List Nat} (hlen : lh.length ≤ logSize)
    (hlt : ∀ b ∈ lh, b < 2 ^ 32) : readHead (headerOf hb lh) = lh := by
  have hsize : lh.length ≤ 30 := hlen
  have hn : (headerOf hb lh).read 0 4 = lh.length := by
    rw [headerOf, read_putBlocks_of_le lh (by omega)]
    exact Bytes.read_write_self (by simp [bsize]) (by omega)
  simp only [readHead, hn]
  rw [if_pos (by omega)]
  refine List.ext_getElem (by simp) fun j hj hj' => ?_
  have h := read_putBlocks (hb.write 0 4 lh.length) 0 lh hlt
    (by simp only [bsize]; omega) hj'
  rw [Nat.zero_add] at h
  simpa [headerOf] using h

/-! ### The machine -/

/-- The log area: the header block at `start` and `size - 1` blocks after it. -/
structure Area where
  start : Nat
  size : Nat
  size_pos : 0 < size

/-- A block outside the log area. -/
def Area.Home (A : Area) (b : Nat) : Prop := b < A.start ∨ A.start + A.size ≤ b

/-- What `commit()` is called with: the blocks that `lh` lists, with their contents in the buffer
cache.  `log_write` lets `lh` grow to `log.size - 1` blocks and to the `LOGSIZE` of `lh.block`, and
lists none twice. -/
structure Tx (A : Area) where
  writes : List (Nat × Block)
  nodup : (writes.map Prod.fst).Nodup
  home : ∀ b ∈ writes.map Prod.fst, A.Home b
  addr : ∀ b ∈ writes.map Prod.fst, b < 2 ^ 32
  fits : writes.length ≤ A.size - 1
  cap : writes.length ≤ logSize

/-- Where the machine stands. -/
inductive CrashPc where
  /-- between two commits -/
  | idle
  /-- in `commit()`: `write_log`'s loop, `write_head`, `install_trans`'s loop, `write_head` -/
  | writeLog (tail : Nat)
  | writeHead
  | install (tail : Nat)
  | erase
  /-- crashed -/
  | down
  /-- in `recover_from_log()`: `install_trans`'s loop, `write_head` -/
  | recInstall (tail : Nat)
  | recErase
  /-- `recover_from_log()` has returned -/
  | recovered
  deriving DecidableEq, Repr

/-- The disk, the in-memory header, the dirty blocks of the buffer cache, and how many commits have
returned. -/
structure Mach where
  disk : Disk
  lh : List Nat
  dirty : List (Nat × Block)
  pc : CrashPc
  pos : Nat

inductive CrashEvent where
  /-- the machine goes on: at most one block is written -/
  | next
  | crash
  | reboot
  deriving DecidableEq, Repr

/-- `bread`: a dirty block is in the cache. -/
def Mach.bread (s : Mach) (b : Nat) : Block := (s.dirty.lookup b).getD (s.disk b)

def Mach.bwrite (s : Mach) (b : Nat) (data : Block) : Mach :=
  { s with disk := Function.update s.disk b data }

/-- One round of `install_trans`. -/
def Mach.installOne (s : Mach) (A : Area) (tail : Nat) : Mach :=
  s.bwrite (s.lh.getD tail 0) (s.disk (A.start + tail + 1))

/-- The next write. -/
def Mach.next (A : Area) (txs : List (Tx A)) (s : Mach) : Option Mach :=
  match s.pc with
  | .idle =>
      txs[s.pos]?.map fun tx =>
        if 0 < tx.writes.length then
          { s with lh := tx.writes.map Prod.fst, dirty := tx.writes, pc := .writeLog 0 }
        else { s with pos := s.pos + 1 }
  | .writeLog tail =>
      if tail < s.lh.length then
        some { s.bwrite (A.start + tail + 1) (s.bread (s.lh.getD tail 0)) with
          pc := .writeLog (tail + 1) }
      else some { s with pc := .writeHead }
  | .writeHead =>
      some { s.bwrite A.start (headerOf (s.disk A.start) s.lh) with pc := .install 0 }
  | .install tail =>
      if tail < s.lh.length then some { s.installOne A tail with pc := .install (tail + 1) }
      else some { s with lh := [], pc := .erase }
  | .erase =>
      some { s.bwrite A.start (headerOf (s.disk A.start) s.lh) with
        dirty := [], pc := .idle, pos := s.pos + 1 }
  | .recInstall tail =>
      if tail < s.lh.length then some { s.installOne A tail with pc := .recInstall (tail + 1) }
      else some { s with lh := [], pc := .recErase }
  | .recErase =>
      some { s.bwrite A.start (headerOf (s.disk A.start) s.lh) with pc := .recovered }
  | .down | .recovered => none

/-- One event.  A crash loses what is in memory; a reboot reads the header. -/
def crashStep (A : Area) (txs : List (Tx A)) (s : Mach) : CrashEvent → Option Mach
  | .next => s.next A txs
  | .crash => some { s with lh := [], dirty := [], pc := .down }
  | .reboot =>
      if s.pc = .down then some { s with lh := readHead (s.disk A.start), pc := .recInstall 0 }
      else none

/-- The machine on disk `d`, before the first commit. -/
def Mach.boot (d : Disk) : Mach := ⟨d, [], [], .idle, 0⟩

/-! ### What a disk stands for -/

variable {A : Area}

/-- The writes the log on disk holds. -/
def pending (A : Area) (d : Disk) : List (Nat × Block) :=
  (readHead (d A.start)).mapIdx fun i b => (b, d (A.start + i + 1))

/-- The home blocks as recovery would leave them. -/
def recovered (A : Area) (d : Disk) : Disk := applyWrites d (pending A d)

/-- What `lh` can list. -/
structure HeadOk (A : Area) (lh : List Nat) : Prop where
  nodup : lh.Nodup
  home : ∀ b ∈ lh, A.Home b
  addr : ∀ b ∈ lh, b < 2 ^ 32
  fits : lh.length ≤ A.size - 1
  cap : lh.length ≤ logSize

/-- The disk after the first `k` transactions. -/
def stateAfter (d : Disk) (txs : List (Tx A)) (k : Nat) : Disk :=
  (txs.take k).foldl (fun d tx => applyWrites d tx.writes) d

theorem map_fst_pending (d : Disk) : (pending A d).map Prod.fst = readHead (d A.start) := by
  refine List.ext_getElem (by simp [pending]) fun i hi hi' => ?_
  simp [pending]

theorem recovered_of_notMem {d : Disk} {b : Nat} (h : b ∉ readHead (d A.start)) :
    recovered A d b = d b :=
  applyWrites_of_notMem (by rwa [map_fst_pending])

theorem recovered_of_getElem {d : Disk} {i : Nat} (hok : HeadOk A (readHead (d A.start)))
    (hi : i < (readHead (d A.start)).length) :
    recovered A d (readHead (d A.start))[i] = d (A.start + i + 1) := by
  refine applyWrites_of_mem (by rw [map_fst_pending]; exact hok.nodup) ?_
  exact List.mem_iff_getElem.mpr ⟨i, by simpa [pending] using hi, by simp [pending]⟩

theorem recovered_of_nil {d : Disk} (h : readHead (d A.start) = []) : recovered A d = d := by
  funext b
  exact recovered_of_notMem (by rw [h]; simp)

theorem Tx.headOk (tx : Tx A) : HeadOk A (tx.writes.map Prod.fst) :=
  ⟨tx.nodup, tx.home, tx.addr, by simpa using tx.fits, by simpa using tx.cap⟩

theorem HeadOk.nil : HeadOk A [] :=
  ⟨List.nodup_nil, by simp, by simp, Nat.zero_le _, Nat.zero_le _⟩

theorem Area.Home.ne_start {b : Nat} (h : A.Home b) : b ≠ A.start := by
  have := A.size_pos
  rcases h with h | h <;> omega

theorem Area.Home.ne_log {b i : Nat} (h : A.Home b) (hi : i < A.size - 1) :
    b ≠ A.start + i + 1 := by
  rcases h with h | h <;> omega

theorem stateAfter_succ {d : Disk} {txs : List (Tx A)} {k : Nat} {tx : Tx A}
    (h : txs[k]? = some tx) :
    stateAfter d txs (k + 1) = applyWrites (stateAfter d txs k) tx.writes := by
  rw [stateAfter, List.take_add_one, h, List.foldl_append]
  rfl

/-! ### What the writes do to it -/

/-- The first `tail` blocks the header lists hold what the log holds. -/
def Installed (A : Area) (d : Disk) (tail : Nat) : Prop :=
  ∀ i b, i < tail → (readHead (d A.start))[i]? = some b → d b = d (A.start + i + 1)

/-- The first `tail` blocks of the log hold the contents of `tx`. -/
def Logged (A : Area) (d : Disk) (tx : Tx A) (tail : Nat) : Prop :=
  ∀ i w, i < tail → tx.writes[i]? = some w → d (A.start + i + 1) = w.2

theorem readHead_update {d : Disk} {b : Nat} {v : Block} (h : b ≠ A.start) :
    readHead (Function.update d b v A.start) = readHead (d A.start) := by
  rw [Function.update_of_ne h.symm]

/-- A round of `install_trans` keeps what the disk stands for. -/
theorem recovered_install {d : Disk} {i b : Nat} (hok : HeadOk A (readHead (d A.start)))
    (hi : (readHead (d A.start))[i]? = some b) (c : Nat) :
    recovered A (Function.update d b (d (A.start + i + 1))) c = recovered A d c := by
  have hb : A.Home b := hok.home b (List.mem_of_getElem? hi)
  have hhead := readHead_update (d := d) (v := d (A.start + i + 1)) hb.ne_start
  by_cases hc : c ∈ readHead (d A.start)
  · obtain ⟨j, hj, rfl⟩ := List.mem_iff_getElem.mp hc
    have h := recovered_of_getElem (A := A) (d := Function.update d b (d (A.start + i + 1)))
      (i := j) (by rw [hhead]; exact hok) (by rw [hhead]; exact hj)
    simp only [hhead] at h
    rw [h, recovered_of_getElem hok hj]
    have hfits := hok.fits
    exact Function.update_of_ne (hb.ne_log (by omega)).symm _ _
  · rw [recovered_of_notMem hc, recovered_of_notMem (by rwa [hhead]),
      Function.update_of_ne (by rintro rfl; exact hc (List.mem_of_getElem? hi))]

theorem Installed.install {d : Disk} {i b : Nat} (hok : HeadOk A (readHead (d A.start)))
    (hi : (readHead (d A.start))[i]? = some b) (h : Installed A d i) :
    Installed A (Function.update d b (d (A.start + i + 1))) (i + 1) := by
  have hb : A.Home b := hok.home b (List.mem_of_getElem? hi)
  intro j c hj hc
  rw [readHead_update hb.ne_start] at hc
  have hfits := hok.fits
  obtain ⟨hlt, -⟩ := List.getElem?_eq_some_iff.mp hc
  rw [Function.update_of_ne (hb.ne_log (i := j) (by omega)).symm]
  rcases Nat.lt_succ_iff_lt_or_eq.mp hj with hj | rfl
  · have hne : c ≠ b := by
      rintro rfl
      have := (List.getElem?_inj hlt hok.nodup).mp (hc.trans hi.symm)
      omega
    rw [Function.update_of_ne hne]
    exact h j c hj hc
  · obtain rfl : c = b := Option.some.inj (hc.symm.trans hi)
    rw [Function.update_self]

/-- When all is installed, the home blocks are what the disk stands for. -/
theorem recovered_of_installed {d : Disk} (hok : HeadOk A (readHead (d A.start)))
    (h : Installed A d (readHead (d A.start)).length) (b : Nat) : recovered A d b = d b := by
  by_cases hb : b ∈ readHead (d A.start)
  · obtain ⟨i, hi, rfl⟩ := List.mem_iff_getElem.mp hb
    rw [recovered_of_getElem hok hi]
    exact (h i _ hi (List.getElem?_eq_getElem hi)).symm
  · exact recovered_of_notMem hb

/-- The last `write_head` of a commit or a recovery. -/
theorem recovered_erase {d : Disk} (hok : HeadOk A (readHead (d A.start)))
    (h : Installed A d (readHead (d A.start)).length) {b : Nat} (hb : A.Home b) :
    recovered A (Function.update d A.start (headerOf (d A.start) [])) b = recovered A d b := by
  have hhead : readHead (Function.update d A.start (headerOf (d A.start) []) A.start) = [] := by
    rw [Function.update_self]
    exact readHead_headerOf (Nat.zero_le _) (by simp)
  rw [recovered_of_nil hhead, recovered_of_installed hok h, Function.update_of_ne hb.ne_start]

/-- **The commit point.**  The first `write_head` does the whole transaction to what the disk
stands for. -/
theorem recovered_commit {d : Disk} {tx : Tx A} (hhead : readHead (d A.start) = [])
    (hlog : Logged A d tx tx.writes.length) {b : Nat} (hb : A.Home b) :
    recovered A (Function.update d A.start (headerOf (d A.start) (tx.writes.map Prod.fst))) b =
      applyWrites (recovered A d) tx.writes b := by
  have hok := tx.headOk
  obtain ⟨d', hd'⟩ : ∃ d', d' = Function.update d A.start
    (headerOf (d A.start) (tx.writes.map Prod.fst)) := ⟨_, rfl⟩
  have hhead' : readHead (d' A.start) = tx.writes.map Prod.fst := by
    rw [hd', Function.update_self]
    exact readHead_headerOf hok.cap hok.addr
  rw [← hd', recovered_of_nil hhead]
  by_cases hmem : b ∈ tx.writes.map Prod.fst
  · obtain ⟨i, hi, rfl⟩ := List.mem_iff_getElem.mp hmem
    have hi' : i < tx.writes.length := by simpa using hi
    have h := recovered_of_getElem (A := A) (d := d') (i := i) (by rw [hhead']; exact hok)
      (by rw [hhead']; exact hi)
    simp only [hhead'] at h
    have hne : A.start + i + 1 ≠ A.start := by omega
    rw [h, hd', Function.update_of_ne hne, hlog i _ hi' (List.getElem?_eq_getElem hi')]
    refine (applyWrites_of_mem tx.nodup ?_).symm
    rw [List.getElem_map]
    exact List.getElem_mem hi'
  · rw [recovered_of_notMem (by rwa [hhead']), applyWrites_of_notMem hmem, hd',
      Function.update_of_ne hb.ne_start]

/-! ### The invariant -/

/-- What holds where the machine stands, when its disk stands for `k` transactions. -/
def AtPc (A : Area) (txs : List (Tx A)) (s : Mach) (k : Nat) : Prop :=
  match s.pc with
  | .idle => readHead (s.disk A.start) = [] ∧ k = s.pos
  | .writeLog tail =>
      readHead (s.disk A.start) = [] ∧ k = s.pos ∧ ∃ tx, txs[s.pos]? = some tx ∧
        s.lh = tx.writes.map Prod.fst ∧ s.dirty = tx.writes ∧ Logged A s.disk tx tail
  | .writeHead =>
      readHead (s.disk A.start) = [] ∧ k = s.pos ∧ ∃ tx, txs[s.pos]? = some tx ∧
        s.lh = tx.writes.map Prod.fst ∧ Logged A s.disk tx tx.writes.length
  | .install tail => readHead (s.disk A.start) = s.lh ∧ k = s.pos + 1 ∧ Installed A s.disk tail
  | .erase =>
      s.lh = [] ∧ k = s.pos + 1 ∧ Installed A s.disk (readHead (s.disk A.start)).length
  | .down => True
  | .recInstall tail => readHead (s.disk A.start) = s.lh ∧ Installed A s.disk tail
  | .recErase => s.lh = [] ∧ Installed A s.disk (readHead (s.disk A.start)).length
  | .recovered => readHead (s.disk A.start) = []

/-- The disk stands for the first `k` transactions. -/
structure StandsFor (A : Area) (d₀ : Disk) (txs : List (Tx A)) (s : Mach) (k : Nat) : Prop where
  head : HeadOk A (readHead (s.disk A.start))
  low : s.pos ≤ k
  high : k ≤ txs.length
  home : ∀ b, A.Home b → recovered A s.disk b = stateAfter d₀ txs k b
  pc : AtPc A txs s k

variable {d₀ : Disk} {txs : List (Tx A)} {s s' : Mach} {k : Nat}

theorem StandsFor.boot (h : readHead (d₀ A.start) = []) : StandsFor A d₀ txs (.boot d₀) 0 where
  head := by
    rw [show (Mach.boot d₀).disk = d₀ from rfl, h]
    exact .nil
  low := le_rfl
  high := Nat.zero_le _
  home b _ := by
    rw [show (Mach.boot d₀).disk = d₀ from rfl, recovered_of_nil h]
    rfl
  pc := ⟨h, rfl⟩

/-- Between a crash and the next commit. -/
def Recovering (s : Mach) : Prop := s.pc matches .down | .recInstall _ | .recErase | .recovered

namespace StandsFor

/-- `write_log` writes one block. -/
theorem writeLog {tail : Nat} (h : StandsFor A d₀ txs s k) (hpc : s.pc = .writeLog tail)
    (ht : tail < s.lh.length) :
    StandsFor A d₀ txs { s.bwrite (A.start + tail + 1) (s.bread (s.lh.getD tail 0)) with
      pc := .writeLog (tail + 1) } k := by
  have hat := h.pc
  simp only [AtPc, hpc] at hat
  obtain ⟨hhead, hk, tx, htx, hlh, hdirty, hlog⟩ := hat
  have hne : A.start + tail + 1 ≠ A.start := by omega
  have ht' : tail < tx.writes.length := by simpa [hlh] using ht
  have hhead' : readHead (Function.update s.disk (A.start + tail + 1)
      (s.bread (s.lh.getD tail 0)) A.start) = [] := by rw [readHead_update hne, hhead]
  have hbread : s.bread (s.lh.getD tail 0) = tx.writes[tail].2 := by
    have hget : s.lh.getD tail 0 = tx.writes[tail].1 := by
      rw [List.getD_eq_getElem s.lh 0 ht]
      simp [hlh]
    have hmem : (tx.writes[tail].1, tx.writes[tail].2) ∈ tx.writes := List.getElem_mem ht'
    rw [Mach.bread, hdirty, hget, lookup_of_mem tx.nodup hmem]
    rfl
  refine ⟨?_, h.low, h.high, fun b hb => ?_, hhead', hk, tx, htx, hlh, hdirty, ?_⟩
  · rw [Mach.bwrite, hhead']
    exact .nil
  · have hfits := tx.fits
    rw [← h.home b hb, recovered_of_nil hhead]
    show recovered A (Function.update _ _ _) b = _
    rw [recovered_of_nil hhead', Function.update_of_ne (hb.ne_log (by omega))]
  · intro i w hi hw
    show Function.update _ _ _ _ = _
    rcases Nat.lt_succ_iff_lt_or_eq.mp hi with hi | rfl
    · rw [Function.update_of_ne (by omega)]
      exact hlog i w hi hw
    · rw [Function.update_self, hbread]
      exact congrArg Prod.snd (Option.some.inj ((List.getElem?_eq_getElem ht').symm.trans hw))

/-- The first `write_head`: one more transaction. -/
theorem writeHead (h : StandsFor A d₀ txs s k) (hpc : s.pc = .writeHead) :
    StandsFor A d₀ txs { s.bwrite A.start (headerOf (s.disk A.start) s.lh) with
      pc := .install 0 } (k + 1) := by
  have hat := h.pc
  simp only [AtPc, hpc] at hat
  obtain ⟨hhead, hk, tx, htx, hlh, hlog⟩ := hat
  have hhead' : readHead (Function.update s.disk A.start (headerOf (s.disk A.start) s.lh) A.start) =
      s.lh := by
    rw [Function.update_self, hlh]
    exact readHead_headerOf tx.headOk.cap tx.headOk.addr
  refine ⟨?_, h.low.trans (Nat.le_succ k), ?_, fun b hb => ?_, hhead', by rw [hk]; rfl, ?_⟩
  · rw [Mach.bwrite, hhead', hlh]
    exact tx.headOk
  · rw [hk]
    exact (List.getElem?_eq_some_iff.mp htx).1
  · show recovered A (Function.update _ _ _) b = _
    rw [hlh, recovered_commit hhead hlog hb, stateAfter_succ (by rw [hk]; exact htx)]
    exact applyWrites_congr fun _ => h.home b hb
  · intro i b hi
    exact absurd hi (Nat.not_lt_zero i)

/-- A round of `install_trans`, in a commit or a recovery. -/
theorem installOne {tail : Nat} {pc : CrashPc} (h : StandsFor A d₀ txs s k)
    (hhead : readHead (s.disk A.start) = s.lh) (hinst : Installed A s.disk tail)
    (ht : tail < s.lh.length)
    (hpc : readHead ((s.installOne A tail).disk A.start) = s.lh →
      Installed A (s.installOne A tail).disk (tail + 1) →
      AtPc A txs { s.installOne A tail with pc := pc } k) :
    StandsFor A d₀ txs { s.installOne A tail with pc := pc } k := by
  have hget : (readHead (s.disk A.start))[tail]? = some (s.lh.getD tail 0) := by
    rw [hhead, List.getElem?_eq_getElem ht, List.getD_eq_getElem s.lh 0 ht]
  have hhome : A.Home (s.lh.getD tail 0) := h.head.home _ (List.mem_of_getElem? hget)
  have hkeep : readHead ((s.installOne A tail).disk A.start) = readHead (s.disk A.start) :=
    readHead_update hhome.ne_start
  refine ⟨?_, h.low, h.high, fun b hb => ?_, hpc (hkeep.trans hhead) (hinst.install h.head hget)⟩
  · rw [hkeep]
    exact h.head
  · exact (recovered_install h.head hget b).trans (h.home b hb)

/-- The last `write_head` of a commit or a recovery. -/
theorem erase {s₁ : Mach} (h : StandsFor A d₀ txs s k)
    (hinst : Installed A s.disk (readHead (s.disk A.start)).length)
    (hdisk : s₁.disk = Function.update s.disk A.start (headerOf (s.disk A.start) []))
    (hpos : s₁.pos ≤ k) (hpc : readHead (s₁.disk A.start) = [] → AtPc A txs s₁ k) :
    StandsFor A d₀ txs s₁ k := by
  have hhead : readHead (s₁.disk A.start) = [] := by
    rw [hdisk, Function.update_self]
    exact readHead_headerOf (Nat.zero_le _) (by simp)
  refine ⟨by rw [hhead]; exact .nil, hpos, h.high, fun b hb => ?_, hpc hhead⟩
  rw [hdisk, recovered_erase h.head hinst hb]
  exact h.home b hb

/-- No event of a recovery changes `k`, not even a crash. -/
theorem recovering {e : CrashEvent} (h : StandsFor A d₀ txs s k) (hr : Recovering s)
    (hs : crashStep A txs s e = some s') : StandsFor A d₀ txs s' k ∧ Recovering s' := by
  have hat := h.pc
  cases e with
  | next =>
      cases hpc : s.pc with
      | recInstall tail =>
          simp only [AtPc, hpc] at hat
          obtain ⟨hhead, hinst⟩ := hat
          simp only [crashStep, Mach.next, hpc] at hs
          split at hs
          · rename_i ht
            cases hs
            exact ⟨h.installOne hhead hinst ht fun hhead' hinst' => ⟨hhead', hinst'⟩, rfl⟩
          · rename_i ht
            cases hs
            rw [← hhead] at ht
            exact ⟨⟨h.head, h.low, h.high, h.home, rfl,
              fun i b hi => hinst i b (hi.trans_le (not_lt.mp ht))⟩, rfl⟩
      | recErase =>
          simp only [AtPc, hpc] at hat
          obtain ⟨hlh, hinst⟩ := hat
          simp only [crashStep, Mach.next, hpc] at hs
          cases hs
          exact ⟨h.erase hinst (by simp [Mach.bwrite, hlh]) h.low fun hhead => hhead, rfl⟩
      | _ => simp [Recovering, crashStep, Mach.next, hpc] at hr hs
  | crash =>
      cases hs
      exact ⟨⟨h.head, h.low, h.high, h.home, trivial⟩, rfl⟩
  | reboot =>
      rw [crashStep] at hs
      split at hs <;> cases hs
      exact ⟨⟨h.head, h.low, h.high, h.home, rfl, fun i _ hi => absurd hi (Nat.not_lt_zero i)⟩, rfl⟩

/-- The machine goes on. -/
theorem next (h : StandsFor A d₀ txs s k) (hs : s.next A txs = some s') :
    ∃ k', StandsFor A d₀ txs s' k' := by
  have hat := h.pc
  cases hpc : s.pc with
  | idle =>
      simp only [AtPc, hpc] at hat
      obtain ⟨hhead, hk⟩ := hat
      simp only [Mach.next, hpc, Option.map_eq_some_iff] at hs
      obtain ⟨tx, htx, rfl⟩ := hs
      have hlen : s.pos < txs.length := (List.getElem?_eq_some_iff.mp htx).1
      split
      · exact ⟨k, h.head, h.low, h.high, h.home, hhead, hk, tx, htx, rfl, rfl,
          fun i w hi => absurd hi (Nat.not_lt_zero i)⟩
      · rename_i hempty
        have hnil : tx.writes = [] := List.length_eq_zero_iff.mp (Nat.eq_zero_of_not_pos hempty)
        refine ⟨k + 1, h.head, Nat.succ_le_succ h.low, by rw [hk]; exact hlen, fun b hb => ?_, hhead,
          by rw [hk]⟩
        rw [stateAfter_succ (by rw [hk]; exact htx), hnil, applyWrites_nil]
        exact h.home b hb
  | writeLog tail =>
      simp only [Mach.next, hpc] at hs
      split at hs
      · rename_i ht
        cases hs
        exact ⟨k, h.writeLog hpc ht⟩
      · rename_i ht
        cases hs
        simp only [AtPc, hpc] at hat
        obtain ⟨hhead, hk, tx, htx, hlh, -, hlog⟩ := hat
        refine ⟨k, h.head, h.low, h.high, h.home, hhead, hk, tx, htx, hlh, fun i w hi => ?_⟩
        have hlen : s.lh.length = tx.writes.length := by simp [hlh]
        exact hlog i w (by omega)
  | writeHead =>
      simp only [Mach.next, hpc] at hs
      cases hs
      exact ⟨k + 1, h.writeHead hpc⟩
  | install tail =>
      simp only [AtPc, hpc] at hat
      obtain ⟨hhead, hk, hinst⟩ := hat
      simp only [Mach.next, hpc] at hs
      split at hs
      · rename_i ht
        cases hs
        exact ⟨k, h.installOne hhead hinst ht fun hhead' hinst' => ⟨hhead', hk, hinst'⟩⟩
      · rename_i ht
        cases hs
        rw [← hhead] at ht
        exact ⟨k, h.head, h.low, h.high, h.home, rfl, hk,
          fun i b hi => hinst i b (hi.trans_le (not_lt.mp ht))⟩
  | erase =>
      simp only [AtPc, hpc] at hat
      obtain ⟨hlh, hk, hinst⟩ := hat
      simp only [Mach.next, hpc] at hs
      cases hs
      exact ⟨k, h.erase hinst (by simp [Mach.bwrite, hlh]) hk.ge fun hhead => ⟨hhead, hk⟩⟩
  | down => simp [Mach.next, hpc] at hs
  | recInstall | recErase =>
      exact ⟨k, (h.recovering (e := .next) (by simp [Recovering, hpc]) hs).1⟩
  | recovered => simp [Mach.next, hpc] at hs

end StandsFor

/-- **What the disk stands for, over whole runs.**  Whatever crashes there were, the disk stands
for a prefix of the transactions with every one in it whose commit has returned. -/
theorem standsFor_run {es : List CrashEvent} (hclean : readHead (d₀ A.start) = [])
    (h : runs (crashStep A txs) (.boot d₀) es = some s) : ∃ k, StandsFor A d₀ txs s k := by
  refine runs_inv_all (I := fun s => ∃ k, StandsFor A d₀ txs s k) ?_ ⟨0, .boot hclean⟩ h
  rintro s e s' ⟨k, hk⟩ hstep
  cases e with
  | next => exact hk.next hstep
  | crash =>
      cases hstep
      exact ⟨k, hk.head, hk.low, hk.high, hk.home, trivial⟩
  | reboot =>
      simp only [crashStep] at hstep
      split at hstep
      · cases hstep
        exact ⟨k, hk.head, hk.low, hk.high, hk.home, rfl, fun i b hi => absurd hi (Nat.not_lt_zero i)⟩
      · cases hstep

/-! ### Recovery -/

theorem runs_recInstall (txs : List (Tx A)) {m tail : Nat} (hpc : s.pc = .recInstall tail)
    (hlen : s.lh.length = tail + m) :
    ∃ s', runs (crashStep A txs) s (List.replicate (m + 2) .next) = some s' ∧
      s'.pc = .recovered := by
  induction m generalizing s tail with
  | zero =>
      have h₁ : crashStep A txs s .next = some { s with lh := [], pc := .recErase } := by
        simp [crashStep, Mach.next, hpc, hlen]
      exact ⟨_, runs_cons.mpr ⟨_, h₁, rfl⟩, rfl⟩
  | succ m ih =>
      have h₁ : crashStep A txs s .next =
          some { s.installOne A tail with pc := .recInstall (tail + 1) } := by
        simp [crashStep, Mach.next, hpc, hlen]
      obtain ⟨s', hs', hrec⟩ := ih (s := { s.installOne A tail with pc := .recInstall (tail + 1) })
        rfl (by simp only [Mach.installOne, Mach.bwrite, hlen]; omega)
      exact ⟨s', runs_cons.mpr ⟨_, h₁, hs'⟩, hrec⟩

/-- A recovery that is not interrupted completes. -/
theorem recovery_completes (txs : List (Tx A)) (hpc : s.pc = .down) :
    ∃ m s', runs (crashStep A txs) s (.reboot :: List.replicate m .next) = some s' ∧
      s'.pc = .recovered := by
  have h₁ : crashStep A txs s .reboot =
      some { s with lh := readHead (s.disk A.start), pc := .recInstall 0 } := by
    simp [crashStep, hpc]
  obtain ⟨s', hs', hrec⟩ := runs_recInstall txs
    (s := { s with lh := readHead (s.disk A.start), pc := .recInstall 0 }) rfl (Nat.zero_add _).symm
  exact ⟨_, s', runs_cons.mpr ⟨_, h₁, hs'⟩, hrec⟩

/-- **Crash atomicity.**  After a completed recovery, whatever the crashes before it, the home
blocks are those after a whole prefix of the transactions, which contains every transaction whose
`commit()` had returned; and the log is empty again. -/
theorem crash_atomic {es : List CrashEvent} (hclean : readHead (d₀ A.start) = [])
    (h : runs (crashStep A txs) (.boot d₀) es = some s) (hrec : s.pc = .recovered) :
    readHead (s.disk A.start) = [] ∧ ∃ k, s.pos ≤ k ∧ k ≤ txs.length ∧
      ∀ b, A.Home b → s.disk b = stateAfter d₀ txs k b := by
  obtain ⟨k, hk⟩ := standsFor_run hclean h
  have hhead := hk.pc
  simp only [AtPc, hrec] at hhead
  refine ⟨hhead, k, hk.low, hk.high, fun b hb => ?_⟩
  rw [← hk.home b hb, recovered_of_nil hhead]

/-- The log area that `mkfs` lays out. -/
def mkfsArea : Area := ⟨2, logSize, by decide⟩

/-- A transaction of one block. -/
def oneBlock : Tx mkfsArea where
  writes := [(59, fun _ => 7)]
  nodup := by simp
  home b hb := by
    obtain rfl : b = 59 := by simpa using hb
    exact Or.inr (by decide)
  addr b hb := by
    obtain rfl : b = 59 := by simpa using hb
    decide
  fits := by decide
  cap := by decide

/-- A crash right after the commit point, and a recovery. -/
theorem oneBlock_crash_atomic :
    ∃ (es : List CrashEvent) (s : Mach),
      runs (crashStep mkfsArea [oneBlock]) (.boot fun _ _ => 0) es = some s ∧ .crash ∈ es ∧
      s.pc = .recovered ∧ readHead (s.disk 2) = [] ∧ ∃ k, s.pos ≤ k ∧ k ≤ 1 ∧
        ∀ b, mkfsArea.Home b → s.disk b = stateAfter (fun _ _ => 0) [oneBlock] k b := by
  have h₁ : ∃ s₁, runs (crashStep mkfsArea [oneBlock]) (.boot fun _ _ => 0)
      [.next, .next, .next, .next, .crash] = some s₁ ∧ s₁.pc = .down := ⟨_, rfl, rfl⟩
  obtain ⟨s₁, h₁, hdown⟩ := h₁
  obtain ⟨m, s, h₂, hrec⟩ := recovery_completes [oneBlock] hdown
  have h := runs_append.mpr ⟨s₁, h₁, h₂⟩
  obtain ⟨hnil, hprefix⟩ := crash_atomic (by decide) h hrec
  exact ⟨_, s, h, by simp, hrec, hnil, hprefix⟩

end Xv6.Log
