import Xv6.Syscall.File

/-!
# Syscall — where `read` stores

`sys_read` checks its buffer with `argptr` for an `int` size, and `readi` takes the same size as a
`uint`.  The bytes that a `read` stores are those `readi` stores (`readiStores`), from the address of
the buffer on (`readStores`).  `args_inside`: the arguments that are accepted are in the process, and
the stores of a `read` are in its buffer but for a negative size on a file with bytes left
(`Overruns`).
-/

namespace Xv6.Syscall
open Lib Lib.Prog Fs

theorem sint_lt_nofile {fd : UInt32} (h : 0 ≤ sint fd ∧ sint fd < nofile) : (sint fd).toNat < nofile := by omega

/-- `argfd`. -/
def argfd (p : Proc) (u : User) (n : Nat) : Option FileNo :=
  match argint u n with
  | none => none
  | some fd =>
      if h : 0 ≤ sint fd ∧ sint fd < nofile then p.ofile ⟨(sint fd).toNat, sint_lt_nofile h⟩ else none

/-- The arguments of `read(fd, dst, n)`. -/
def readArgs (p : Proc) (u : User) : Option (FileNo × UInt32 × UInt32) :=
  match argfd p u 0 with
  | none => none
  | some f =>
      match argint u 2 with
      | none => none
      | some n => (argptr u 1 n).map fun dst => (f, dst, n)

/-- `sys_read`: the address of the buffer and the bytes it stores there. -/
def sys_read (p : Fin nproc) (u : User) : SysM (Option (UInt32 × List UInt8)) := do
  let proc ← gets fun t => t.procs p
  match readArgs proc u with
  | none => pure none
  | some (f, dst, n) => do
      let r ← fileread f n
      pure (r.map fun bytes => (dst, bytes))

/-! ### The stores of a call -/

/-- The characters `consoleread` stores, of those typed by the time it returns or sleeps. -/
def consoleStores : Nat → List UInt8 → List UInt8
  | 0, _ => []
  | _ + 1, [] => []
  | n + 1, c :: input =>
      if c = 4 then [] else if c = 10 then [c] else c :: consoleStores n input

/-- The bytes `readi` stores. -/
def readiStores (s : State) (ip : Slot) (off n : UInt32) : List UInt8 :=
  if (s.icache ip).copy.type = tDev then
    if (s.icache ip).copy.major = console then
      consoleStores (if n.toNat < 2 ^ 31 then n.toNat else 0) s.input
    else []
  else
    match readi ip off.toNat n.toNat s with
    | .ok (some bytes, _) => bytes
    | _ => []

/-- The addresses `fileread` stores to. -/
def readStores (t : Sys) (f : FileNo) (dst n : UInt32) : List UInt32 :=
  if (t.ftable f).readable = true ∧ (t.ftable f).type = .inode then
    match ilock (t.ftable f).ip t.fs with
    | .ok (_, s) =>
        (List.range (readiStores s (t.ftable f).ip (t.ftable f).off n).length).map fun k =>
          dst + .ofNat k
    | .error _ => []
  else []

/-- The address is in the buffer and in the process. -/
def InBuffer (u : User) (dst n a : UInt32) : Prop :=
  dst.toNat ≤ a.toNat ∧ a.toNat < dst.toNat + (sint n).toNat ∧ a.toNat < u.sz.toNat

/-- A negative size, on a file other than a device that has bytes left, and `off + n` does not wrap. -/
def Overruns (L : Layout) (t : Sys) (f : FileNo) (n : UInt32) : Prop :=
  ((t.ftable f).readable = true ∧ (t.ftable f).type = .inode) ∧
  (∃ s, ilock (t.ftable f).ip t.fs = .ok ((), s)) ∧
  (t.fs.ino L (t.fs.icache (t.ftable f).ip).inum).type ≠ tDev ∧ sint n < 0 ∧
  (t.ftable f).off.toNat < (t.fs.ino L (t.fs.icache (t.ftable f).ip).inum).size.toNat ∧
  (t.ftable f).off.toNat + n.toNat < 2 ^ 32

section Stores
variable {L : Layout} {t : Sys} {s : State} {ip : Slot} {f : FileNo} {u : User} {off n dst : UInt32}

theorem consoleStores_of_ok {m : Nat} {first : Bool} {input bytes rest : List UInt8}
    (h : consoleLoop m first input = .ok (bytes, rest)) : consoleStores m input = bytes := by
  induction m generalizing first input bytes rest with
  | zero =>
      cases h
      rfl
  | succ m ih =>
      cases input with
      | nil => cases h
      | cons c input =>
          rw [consoleLoop] at h
          rw [consoleStores]
          split at h
          · rename_i hc
            cases h
            rw [if_pos hc]
          · rename_i hc
            rw [if_neg hc]
            split at h
            · rename_i hc'
              cases h
              rw [if_pos hc']
            · rename_i hc'
              rw [if_neg hc']
              split at h
              · rename_i bytes' rest' hloop
                cases h
                rw [ih hloop]
              · cases h

theorem iunlock_input {E : Stop → Prop} (hE : E .iunlock) :
    Wp (iunlock ip) s E fun _ s' => s'.input = s.input := by
  simp only [iunlock, inode, wp_bind, wp_gets]
  split
  · exact wp_stop.mpr hE
  · exact wp_setInode.mpr rfl

theorem consoleread_stores {m : Nat} : Wp (consoleread ip m) s (fun _ => True)
    fun bytes _ => bytes = consoleStores (if m < 2 ^ 31 then m else 0) s.input := by
  refine (iunlock_input trivial).bind fun _ s₁ hinput => ?_
  simp only [wp_bind, wp_gets, hinput]
  split
  · exact wp_stop.mpr trivial
  · rename_i bytes rest hloop
    simp only [wp_bind, wp_modify]
    exact wp_trivial.post fun _ _ _ => wp_pure.mpr (consoleStores_of_ok hloop).symm

/-- What a `readi` that returns has stored is what it gives. -/
theorem readiStores_of_ok {bytes : List UInt8} {s' : State}
    (h : readi ip off.toNat n.toNat s = .ok (some bytes, s')) : readiStores s ip off n = bytes := by
  unfold readiStores
  split
  · rename_i htype
    have hread : Wp (readi ip off.toNat n.toNat) s (fun _ => True) fun r _ => r = none ∨
        (s.icache ip).copy.major = console ∧
          r = some (consoleStores (if n.toNat < 2 ^ 31 then n.toNat else 0) s.input) := by
      simp only [readi, inode, wp_bind, wp_gets, htype, if_true]
      split
      · rename_i hmajor
        refine consoleread_stores.bind fun bytes _ hbytes => wp_pure.mpr (.inr ⟨hmajor, ?_⟩)
        rw [hbytes]
      · exact wp_pure.mpr (.inl rfl)
    obtain hnone | ⟨hmajor, hsome⟩ := hread.of_eq_ok h
    · cases hnone
    · rw [if_pos hmajor]
      exact (Option.some.inj hsome).symm
  · rw [h]

theorem length_consoleStores (m : Nat) (input : List UInt8) :
    (consoleStores m input).length ≤ m := by
  induction m generalizing input with
  | zero => exact le_rfl
  | succ m ih =>
      cases input with
      | nil => exact Nat.zero_le _
      | cons c input =>
          rw [consoleStores]
          split
          · exact Nat.zero_le _
          · split
            · exact Nat.succ_le_succ (Nat.zero_le _)
            · exact Nat.succ_le_succ (ih input)

/-- A file other than a device: as many bytes as there are, up to `n` as a `uint`. -/
theorem length_readiStores (h : Good L s) (hr : 0 < (s.icache ip).ref)
    (hv : (s.icache ip).valid = true) (ht : (s.ino L (s.icache ip).inum).type ≠ tDev) :
    (readiStores s ip off n).length =
      if off.toNat > (s.ino L (s.icache ip).inum).size.toNat ∨ 2 ^ 32 ≤ off.toNat + n.toNat then 0
      else min n.toNat ((s.ino L (s.icache ip).inum).size.toNat - off.toNat) := by
  have hh := h.holds hr hv
  have hread := readi_wp (E := fun _ => False) hh (h.whole _ hh.lt hh.type) ht off.toNat_lt n.toNat_lt
  rw [readiStores, if_neg (by rw [hh.copy]; exact ht)]
  split
  · rename_i bytes s' hok
    have hbytes := (hread.of_eq_ok hok).2
    split at hbytes
    · cases hbytes
    · rename_i hfit
      cases hbytes
      rw [if_neg hfit, List.length_take, List.length_drop, length_contents]
  · rename_i hno
    split
    · rfl
    · rename_i hfit
      cases hm : readi ip off.toNat n.toNat s with
      | error e => exact (hread.of_eq_error hm).elim
      | ok r =>
          have hr := (hread.of_eq_ok hm).2
          rw [if_neg hfit] at hr
          exact absurd (hm.trans (by rw [← hr])) (hno _ r.2)

/-- What a `fileread` that returns has stored is what it gives. -/
theorem readStores_of_ok {bytes : List UInt8} {t' : Sys} (h : fileread f n t = .ok (some bytes, t')) :
    readStores t f dst n = (List.range bytes.length).map fun k => dst + .ofNat k := by
  have hread : Wp (fileread f n) t (fun _ => True) fun r _ => ∀ bytes, r = some bytes →
      readStores t f dst n = (List.range bytes.length).map fun k => dst + .ofNat k := by
    simp only [fileread, wp_bind, wp_gets]
    split
    · exact wp_pure.mpr (by rintro _ ⟨⟩)
    · rename_i hreadable
      split
      · exact wp_stop.mpr trivial
      · rename_i htype
        simp only [wp_bind, fs, wp_zoom, readStores]
        rw [if_pos ⟨by simpa using hreadable, htype⟩]
        cases hlock : ilock (t.ftable f).ip t.fs with
        | error e => exact (wp_of_error hlock).mpr trivial
        | ok r =>
            rw [wp_of_ok hlock]
            cases hreadi : readi (t.ftable f).ip (t.ftable f).off.toNat n.toNat r.2 with
            | error e => exact (wp_of_error hreadi).mpr trivial
            | ok r' =>
                rw [wp_of_ok hreadi]
                simp only [setFile, wp_modify]
                refine wp_trivial.post fun _ _ _ => wp_pure.mpr ?_
                intro bytes hbytes
                rw [readiStores_of_ok (hreadi.trans (by rw [← hbytes]))]
  exact hread.of_eq_ok h bytes rfl

/-- An address in the buffer does not wrap. -/
theorem toNat_add_ofNat (hsz : u.sz.toNat < kernbase) {m k : Nat} (hin : u.Inside dst m)
    (hk : k ≤ m) : (dst + .ofNat k).toNat = dst.toNat + k := by
  unfold User.Inside kernbase at *
  have hk32 : (UInt32.ofNat k).toNat = k := UInt32.toNat_ofNat_of_lt' (by change k < 2 ^ 32; omega)
  rw [UInt32.toNat_add, hk32]
  exact Nat.mod_eq_of_lt (by omega)

/-- All stores are in the buffer, if and only if there are no more than its size. -/
theorem stores_inBuffer_iff (hsz : u.sz.toNat < kernbase) (hin : u.Inside dst (sint n).toNat)
    {m : Nat} :
    (∀ a ∈ (List.range m).map fun k => dst + .ofNat k, InBuffer u dst n a) ↔
      m ≤ (sint n).toNat := by
  constructor
  · intro h
    by_contra hlt
    -- the first address after the buffer
    have hk := h (dst + .ofNat (sint n).toNat) (List.mem_map.mpr ⟨_, List.mem_range.mpr (by omega), rfl⟩)
    rw [InBuffer, toNat_add_ofNat hsz hin le_rfl] at hk
    omega
  · intro hle a ha
    obtain ⟨k, hk, rfl⟩ := List.mem_map.mp ha
    have hk := (List.mem_range.mp hk).trans_le hle
    unfold User.Inside at hin
    rw [InBuffer, toNat_add_ofNat hsz hin hk.le]
    omega

theorem ref_pos_of_ilock {r : Unit × State} (h : ilock ip s = .ok r) : 0 < (s.icache ip).ref := by
  have hlock : Wp (ilock ip) s (fun _ => True) fun _ _ => 0 < (s.icache ip).ref := by
    simp only [ilock, inode, wp_bind, wp_gets]
    split
    · exact wp_stop.mpr trivial
    · rename_i hr
      exact wp_trivial.post fun _ _ _ => by omega
  exact hlock.of_eq_ok h

theorem read_inside_iff (h : Good L t.fs) (hsz : u.sz.toNat < kernbase)
    (hin : u.Inside dst (sint n).toNat) :
    (∀ a ∈ readStores t f dst n, InBuffer u dst n a) ↔ ¬ Overruns L t f n := by
  unfold readStores
  split
  · rename_i hopen
    split
    · rename_i s hlock
      have hr := ref_pos_of_ilock hlock
      obtain ⟨-, -, hs, hgood⟩ := (ilock_wp h hr).of_eq_ok hlock
      rw [stores_inBuffer_iff hsz hin]
      have hslot : s.icache (t.ftable f).ip = { t.fs.icache (t.ftable f).ip with
          busy := true, valid := true, copy := t.fs.ino L (t.fs.icache (t.ftable f).ip).inum } := by
        rw [hs, State.setSlot_self]
      have hino : s.ino L (s.icache (t.ftable f).ip).inum =
          t.fs.ino L (t.fs.icache (t.ftable f).ip).inum := by
        rw [hslot, hs]
        rfl
      rw [toNat_sint]
      by_cases hdev : (t.fs.ino L (t.fs.icache (t.ftable f).ip).inum).type = tDev
      · refine iff_of_true ?_ fun hover => hover.2.2.1 hdev
        rw [readiStores, if_pos (by rw [hslot]; exact hdev)]
        split
        · exact length_consoleStores _ _
        · exact Nat.zero_le _
      · rw [length_readiStores hgood (by rw [hslot]; exact hr) (by rw [hslot])
          (by rw [hino]; exact hdev), hino, Overruns, sint_eq]
        simp only [hopen, true_and, and_true, ne_eq, hdev, not_false_eq_true,
          show ∃ s, ilock (t.ftable f).ip t.fs = .ok ((), s) from ⟨s, hlock⟩]
        have := n.toNat_lt
        split <;> split <;> omega
    · rename_i e hlock
      refine iff_of_true (by simp) ?_
      rintro ⟨-, ⟨s, hs⟩, -⟩
      rw [hs] at hlock
      cases hlock
  · rename_i hopen
    exact iff_of_true (by simp) fun hover => hopen hover.1

end Stores

/-- **Arguments stay in the process.**  What is accepted is in the process; and the stores of a `read`
of an inode are in its buffer, if and only if it does not overrun. -/
theorem args_inside {L : Layout} {t : Sys} {u : User} (h : Good L t.fs)
    (hsz : u.sz.toNat < kernbase) :
    (∀ addr v, fetchint u addr = some v → u.Inside addr 4) ∧
    (∀ addr p len, fetchstr u addr = some (p, len) →
      p = addr ∧ u.Inside p (len.toNat + 1) ∧ u.mem (p + len) = 0 ∧ ∀ k < len, u.mem (p + k) ≠ 0) ∧
    (∀ n size p, argptr u n size = some p → p.toNat < u.sz.toNat ∧ u.Inside p (sint size).toNat) ∧
    (∀ proc f dst n, readArgs proc u = some (f, dst, n) →
      ((∀ a ∈ readStores t f dst n, InBuffer u dst n a) ↔ ¬ Overruns L t f n)) := by
  refine ⟨fun _ _ => fetchint_inside hsz, fun _ _ _ => fetchstr_inside, fun _ _ _ => argptr_inside hsz,
    fun proc f dst n hargs => read_inside_iff h hsz ?_⟩
  obtain ⟨n', hptr⟩ : ∃ k, argptr u k n = some dst := by
    unfold readArgs at hargs
    split at hargs
    · cases hargs
    · split at hargs
      · cases hargs
      · obtain ⟨dst', hptr, heq⟩ := Option.map_eq_some_iff.mp hargs
        cases heq
        exact ⟨1, hptr⟩
  exact (argptr_inside hsz hptr).2

/-- One page of memory, and `read(0, 4095, n)` on its stack. -/
def readUser (n : UInt32) : User where
  sz := 4096
  esp := 1024
  mem a :=
    match a.toNat with
    | 1032 => 255
    | 1033 => 15
    | 1036 => n.toUInt8
    | 1037 => (n >>> 8).toUInt8
    | 1038 => (n >>> 16).toUInt8
    | 1039 => (n >>> 24).toUInt8
    | _ => 0

/-- A process that has the root directory open, at its start. -/
def readSys : Sys where
  fs := smallState
  ftable _ := ⟨.inode, 1, true, false, rootSlot, 0⟩
  procs _ := ⟨fun _ => some ⟨0, nfile_pos⟩, some rootSlot⟩

theorem readArgs_readUser : readArgs (readSys.procs ⟨0, by decide⟩) (readUser 1) =
    some (⟨0, by decide⟩, 4095, 1) ∧ readArgs (readSys.procs ⟨0, by decide⟩) (readUser (-1)) =
      some (⟨0, by decide⟩, 4095, -1) := by
  decide

theorem read_one_inside : Good smallLayout readSys.fs ∧
    ((∀ a ∈ readStores readSys ⟨0, by decide⟩ 4095 1, InBuffer (readUser 1) 4095 1 a) ↔
      ¬ Overruns smallLayout readSys ⟨0, by decide⟩ 1) :=
  ⟨small_good, (args_inside small_good (by decide)).2.2.2 _ _ _ _ readArgs_readUser.1⟩

/-- **`read(0, 4095, -1)`** passes the checks and stores 32 bytes, of which one is in the process. -/
theorem read_negative_overruns : Good smallLayout readSys.fs ∧
    (readUser (-1)).sz.toNat < kernbase ∧
    readArgs (readSys.procs ⟨0, by decide⟩) (readUser (-1)) = some (⟨0, by decide⟩, 4095, -1) ∧
    sint (-1) < 0 ∧ (4096 : UInt32) ∈ readStores readSys ⟨0, by decide⟩ 4095 (-1) ∧
    ¬ InBuffer (readUser (-1)) 4095 (-1) 4096 := by
  refine ⟨small_good, by decide, readArgs_readUser.2, by decide, ?_, fun h => ?_⟩
  · decide +kernel
  · exact absurd h.2.2 (lt_irrefl 4096)

end Xv6.Syscall
