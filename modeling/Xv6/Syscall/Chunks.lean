import Xv6.Syscall.Shared

/-!
# Syscall — a write in chunks

`filewrite` writes at most `maxWrite` bytes at a time, each chunk with a `writei` of its own.  Nobody else
uses the inode meanwhile (`Ready`).  The chunks make up the one write of all the bytes when that is within
the bounds of a file.  When it is not, the chunks that are have been written before `filewrite` returns -1
(`reach`).
-/

namespace Xv6.Syscall
open Lib Lib.Prog Fs

/-- The file is a writable one of an inode of type `T_FILE`, which is not locked. -/
structure Ready (L : Layout) (f : FileNo) (t : Sys) : Prop where
  good : Good L t.fs
  type : (t.ftable f).type = .inode
  writable : (t.ftable f).writable = true
  ref : 0 < (t.fs.icache (t.ftable f).ip).ref
  busy : (t.fs.icache (t.ftable f).ip).busy = false
  file : (t.fs.ino L (Shared.inumOf t f)).type = tFile

/-- What the file holds. -/
def fileData (L : Layout) (f : FileNo) (t : Sys) : List UInt8 :=
  contents t.fs.disk (t.fs.ino L (Shared.inumOf t f))

/-- How many of `n` bytes `filewrite` writes at `off` to a file of `size` bytes. -/
def reach (size off n : Nat) : Nat :=
  if off > size then 0
  else if off + n ≤ maxfile * bsize then n
  else (maxfile * bsize - off) / maxWrite * maxWrite

/-- What a write has done: `k` of the bytes are in the file, and its offset is behind them. -/
structure Wrote (L : Layout) (f : FileNo) (src : List UInt8) (k : Nat) (t t' : Sys) : Prop where
  ready : Ready L f t'
  inum : Shared.inumOf t' f = Shared.inumOf t f
  data : fileData L f t' = overwrite (fileData L f t) (t.ftable f).off.toNat (src.take k)
  off : (t'.ftable f).off.toNat = (t.ftable f).off.toNat + k

section Overwrite
variable {xs ys zs : List UInt8} {off : Nat}

theorem overwrite_nil : overwrite xs off [] = xs := by
  rw [overwrite, List.append_nil, List.length_nil, Nat.add_zero, List.take_append_drop]

/-- One write behind the other. -/
theorem overwrite_overwrite (hoff : off ≤ xs.length) :
    overwrite (overwrite xs off ys) (off + ys.length) zs = overwrite xs off (ys ++ zs) := by
  have hlen : (xs.take off ++ ys).length = off + ys.length := by
    rw [List.length_append, List.length_take, min_eq_left hoff]
  rw [overwrite, overwrite, overwrite, List.take_append_of_le_length hlen.ge,
    List.take_of_length_le hlen.le, List.append_assoc (xs.take off) ys zs]
  congr 1
  rw [List.drop_append, hlen, List.drop_eq_nil_of_le (by omega), List.nil_append, List.drop_drop,
    List.length_append]
  congr 1
  omega

end Overwrite

section Chunk
variable {L : Layout} {s : State} {ip : Slot} {f : FileNo} {t : Sys} {bytes src : List UInt8}
  {E : Stop → Prop}

theorem Ready.type_ne (h : Ready L f t) : (t.fs.ino L (Shared.inumOf t f)).type ≠ 0 := by
  rw [h.file]
  decide

theorem Good.log {l : List Nat} {ls : List (List Nat)} (h : Good L s) :
    Good L { s with logged := l, ended := ls } :=
  ⟨h.sb, h.image, h.whole, h.uniq, h.range, h.copy⟩

/-- `writei` to an inode that is locked: all of the bytes, or nothing. -/
theorem writei_exact {off : UInt32} (h : Good L s) (hf : HasFile s ip) (hlen : bytes.length < 2 ^ 32) :
    Wp (writei ip off.toNat bytes) s (· = .outOfBlocks) fun r s' =>
      if WriteFails (contents s.disk (s.ino L (s.icache ip).inum)) off.toNat bytes.length then r = none ∧ s' = s
      else r = some bytes.length ∧ Good L s' ∧ (∃ c, s'.icache ip = { s.icache ip with copy := c }) ∧
        (s'.ino L (s.icache ip).inum).type = (s.ino L (s.icache ip).inum).type ∧
        contents s'.disk (s'.ino L (s.icache ip).inum) =
          overwrite (contents s.disk (s.ino L (s.icache ip).inum)) off.toNat bytes := by
  have hh := hf.holds h
  refine (writei_wp hh rfl rfl (h.whole _ hh.lt hh.type) (hf.ne_dev h) off.toNat_lt hlen).mono
    (fun e he => he.1) fun r s' hr => ?_
  simp only [WriteFails, length_contents]
  split at hr
  · rename_i hfail
    rw [if_pos hfail]
    exact hr
  · rename_i hfail
    rw [if_neg hfail]
    obtain ⟨rfl, d', l', c', rfl, hw⟩ := hr
    have ht : c'.type ≠ 0 := by
      rw [hw.fields]
      exact hh.type
    have hino : (s.put ip d' l' c').ino L (s.icache ip).inum = c' := hw.dinode
    refine ⟨rfl, h.put hf.1 hw.ok hw.apart hw.dinode hw.whole ht, ⟨c', Function.update_self ..⟩, ?_, ?_⟩
    · rw [hino, hw.fields]
    · rw [hino]
      exact hw.contents

/-- One round of the loop. -/
theorem writeChunk_exact (h : Ready L f t) (hlen : bytes.length < 2 ^ 32) :
    Wp (writeChunk f bytes) t (· = .outOfBlocks) fun r t' =>
      if WriteFails (fileData L f t) (t.ftable f).off.toNat bytes.length
      then r = none ∧ Wrote L f bytes 0 t t'
      else r = some bytes.length ∧ Wrote L f bytes bytes.length t t' := by
  have hne : (t.fs.ino L (t.fs.icache (t.ftable f).ip).inum).type ≠ 0 := h.type_ne
  simp only [writeChunk, wp_bind, fs, wp_zoom, beginOp, wp_modify, wp_gets]
  have hgood₀ : Good L { t.fs with logged := [] } := Good.log h.good
  refine (ilock_free hgood₀ h.ref h.busy hne).post fun _ s₁ hs₁ => ?_
  have hgood₁ : Good L s₁ := by
    rw [hs₁]
    refine hgood₀.setSlot (fun _ => hgood₀.range _ h.ref) ?_ fun _ _ => ⟨rfl, hne⟩
    exact fun _ jp hjp hj heq => hjp (hgood₀.uniq jp _ hj h.ref heq)
  have hslot : s₁.icache (t.ftable f).ip = { t.fs.icache (t.ftable f).ip with
      busy := true, valid := true, copy := t.fs.ino L (Shared.inumOf t f) } := by
    rw [hs₁, State.setSlot_self]
    rfl
  have hinum : (s₁.icache (t.ftable f).ip).inum = Shared.inumOf t f := by rw [hslot, Shared.inumOf]
  have hdisk : s₁.disk = t.fs.disk := by rw [hs₁, State.setSlot_disk]
  have hino : s₁.ino L (Shared.inumOf t f) = t.fs.ino L (Shared.inumOf t f) := by
    rw [State.ino, State.ino, hdisk]
  have hfile : HasFile s₁ (t.ftable f).ip := by
    refine ⟨?_, ?_, .inl ?_⟩
    · rw [hslot]
      exact h.ref
    · rw [hslot]
    · rw [hslot]
      exact h.file
  refine (writei_exact hgood₁ hfile hlen).post fun r s₂ hr => ?_
  rw [hinum, hino, hdisk] at hr
  simp only [setFile, wp_modify]
  -- what holds of the file system after `writei` holds when the inode is unlocked again
  have hend : ∀ k data, r.getD 0 = k → (t.ftable f).off.toNat + k < 2 ^ 32 → Good L s₂ →
      (∃ c, s₂.icache (t.ftable f).ip = { s₁.icache (t.ftable f).ip with copy := c }) →
      (s₂.ino L (Shared.inumOf t f)).type = tFile →
      contents s₂.disk (s₂.ino L (Shared.inumOf t f)) = data →
      Wp (iunlock (t.ftable f).ip) s₂ (· = .outOfBlocks) fun _ s₃ =>
        let t' : Sys := ⟨{ s₃ with ended := s₃.logged :: s₃.ended, logged := [] },
          Function.update t.ftable f { t.ftable f with off := (t.ftable f).off + .ofNat (r.getD 0) }, t.procs⟩
        Ready L f t' ∧ Shared.inumOf t' f = Shared.inumOf t f ∧ fileData L f t' = data ∧
          (t'.ftable f).off.toNat = (t.ftable f).off.toNat + k := by
    rintro k data rfl hk hgood₂ ⟨c, hc⟩ htype hdata
    have href : 0 < (s₂.icache (t.ftable f).ip).ref := by
      rw [hc, hslot]
      exact h.ref
    refine (iunlock_wp hgood₂ href (by rw [hc, hslot])).post ?_
    rintro - s₃ ⟨hs₃, hgood₃⟩
    have hslot₃ : s₃.icache (t.ftable f).ip = { s₂.icache (t.ftable f).ip with busy := false } := by
      rw [hs₃, State.setSlot_self]
    have hinum₃ : (s₃.icache (t.ftable f).ip).inum = Shared.inumOf t f := by
      rw [hslot₃, hc]
      exact hinum
    have hdisk₃ : s₃.disk = s₂.disk := by rw [hs₃, State.setSlot_disk]
    have hino₃ : s₃.ino L (Shared.inumOf t f) = s₂.ino L (Shared.inumOf t f) := by
      rw [State.ino, State.ino, hdisk₃]
    refine ⟨⟨Good.log hgood₃, ?_, ?_, ?_, ?_, ?_⟩, ?_, ?_, ?_⟩
    · simp only [Function.update_self]
      exact h.type
    · simp only [Function.update_self]
      exact h.writable
    · simp only [Function.update_self, hslot₃]
      exact href
    · simp only [Function.update_self, hslot₃]
    · simp only [Shared.inumOf, Function.update_self, hinum₃]
      exact (congrArg Dinode.type hino₃).trans htype
    · simp only [Shared.inumOf, Function.update_self]
      exact hinum₃
    · simp only [fileData, Shared.inumOf, Function.update_self, hinum₃]
      refine Eq.trans ?_ hdata
      rw [← hdisk₃, ← hino₃]
      rfl
    · simp only [Function.update_self, UInt32.toNat_add, UInt32.toNat_ofNat']
      rw [Nat.add_mod_mod, Nat.mod_eq_of_lt hk]
  have hfileData : fileData L f t = contents t.fs.disk (t.fs.ino L (Shared.inumOf t f)) := rfl
  have hoff := (t.ftable f).off.toNat_lt
  rw [← hfileData] at hr
  split at hr
  · rename_i hfail
    obtain ⟨rfl, rfl⟩ := hr
    refine (hend 0 (fileData L f t) rfl hoff hgood₁ ⟨_, rfl⟩ (by rw [hino]; exact h.file)
      (by rw [hdisk, hino, hfileData])).post fun _ s₃ hs₃ => ?_
    simp only [endOp, wp_modify, wp_pure]
    rw [if_pos hfail]
    refine ⟨trivial, hs₃.1, hs₃.2.1, ?_, hs₃.2.2.2⟩
    rw [List.take_zero, overwrite_nil]
    exact hs₃.2.2.1
  · rename_i hfit
    obtain ⟨rfl, hgood₂, hc, htype, hdata⟩ := hr
    have hbound : (t.ftable f).off.toNat + bytes.length < 2 ^ 32 := by
      simp only [WriteFails, not_or, not_le] at hfit
      exact hfit.2.1
    refine (hend bytes.length _ rfl hbound hgood₂ hc (htype.trans h.file) hdata).post fun _ s₃ hs₃ => ?_
    simp only [endOp, wp_modify, wp_pure]
    rw [if_neg hfit]
    refine ⟨trivial, hs₃.1, hs₃.2.1, ?_, hs₃.2.2.2⟩
    rw [List.take_length]
    exact hs₃.2.2.1

theorem maxWrite_eq : maxWrite = 6656 := by decide

theorem maxfile_bsize_eq : maxfile * bsize = 71680 := by decide

/-- A chunk that does not fit is the first that is not written. -/
theorem reach_of_fails {size off n : Nat} (hpos : 0 < n) (hfail : off > size ∨ 2 ^ 32 ≤ off + min n maxWrite ∨
    off + min n maxWrite > maxfile * bsize) : reach size off n = 0 := by
  rw [reach]
  rw [maxWrite_eq, maxfile_bsize_eq] at *
  split
  · rfl
  · split
    · omega
    · omega

/-- After a chunk that fits, as many of the others as before. -/
theorem reach_of_fits {size off n : Nat} (hfit : ¬ (off > size ∨ 2 ^ 32 ≤ off + min n maxWrite ∨
    off + min n maxWrite > maxfile * bsize)) :
    reach size off n = min n maxWrite + reach (max size (off + min n maxWrite)) (off + min n maxWrite)
      (n - min n maxWrite) := by
  have hfirst : reach size off n = if off + n ≤ maxfile * bsize then n
      else (maxfile * bsize - off) / maxWrite * maxWrite := if_neg (by omega)
  have hrest : reach (max size (off + min n maxWrite)) (off + min n maxWrite) (n - min n maxWrite) =
      if off + min n maxWrite + (n - min n maxWrite) ≤ maxfile * bsize then n - min n maxWrite
      else (maxfile * bsize - (off + min n maxWrite)) / maxWrite * maxWrite :=
    if_neg (not_lt.mpr (le_max_right _ _))
  rw [hfirst, hrest]
  rw [maxWrite_eq, maxfile_bsize_eq] at *
  by_cases hall : off + n ≤ 71680
  · rw [if_pos hall, if_pos (by omega)]
    omega
  · rw [if_neg hall, if_neg (by omega)]
    omega

theorem reach_zero {size off : Nat} (h : size ≤ maxfile * bsize) : reach size off 0 = 0 := by
  rw [reach]
  split
  · rfl
  · rw [if_pos (by omega)]

/-- Two writes, the second where the first has ended. -/
theorem Wrote.trans {t₁ t' : Sys} {c k : Nat} (h : Wrote L f (src.take c) (src.take c).length t t₁)
    (h' : Wrote L f (src.drop c) k t₁ t') (hc : c ≤ src.length)
    (hoff : (t.ftable f).off.toNat ≤ (fileData L f t).length) : Wrote L f src (c + k) t t' := by
  have hlen : (src.take c).length = c := by rw [List.length_take, min_eq_left hc]
  refine ⟨h'.ready, h'.inum.trans h.inum, ?_, ?_⟩
  · have hsplit : src.take (c + k) = src.take c ++ (src.drop c).take k := List.take_add
    rw [h'.data, h.data, h.off, List.take_length, overwrite_overwrite hoff, hsplit]
  · rw [h'.off, h.off, hlen, Nat.add_assoc]

/-- **`filewrite`'s loop** writes the chunks up to the first that does not fit. -/
theorem writeChunks_wp (h : Ready L f t) (hn : src.length < 2 ^ 31) :
    Wp (writeChunks f src) t (· = .outOfBlocks) fun ok t' =>
      Wrote L f src (reach (fileData L f t).length (t.ftable f).off.toNat src.length) t t' ∧
      (ok = true ↔ reach (fileData L f t).length (t.ftable f).off.toNat src.length = src.length) := by
  induction hk : src.length using Nat.strong_induction_on generalizing src t with
  | _ k ih =>
  subst hk
  have hmax : (fileData L f t).length ≤ maxfile * bsize := by
    rw [fileData, length_contents]
    exact (h.good.whole _ (h.good.range _ h.ref).2 h.type_ne).size
  rw [writeChunks_eq]
  by_cases hnil : src.length = 0
  · rw [if_pos hnil, hnil, reach_zero hmax]
    refine wp_pure.mpr ⟨⟨h, rfl, ?_, rfl⟩, iff_of_true rfl rfl⟩
    rw [List.take_zero, overwrite_nil]
  · have hpos : 0 < src.length := Nat.pos_of_ne_zero hnil
    have hchunk : (src.take maxWrite).length = min src.length maxWrite := by
      rw [List.length_take, Nat.min_comm]
    have hmw := maxWrite_eq
    rw [if_neg hnil]
    refine (writeChunk_exact h (by rw [hchunk]; omega)).bind fun r t₁ hr => ?_
    rw [hchunk] at hr
    split at hr
    · rename_i hfail
      obtain ⟨rfl, hwrote⟩ := hr
      rw [reach_of_fails hpos hfail]
      refine wp_pure.mpr ⟨⟨hwrote.ready, hwrote.inum, ?_, hwrote.off⟩, iff_of_false nofun (by omega)⟩
      rw [hwrote.data, List.take_zero, List.take_zero]
    · rename_i hfit
      obtain ⟨rfl, hwrote⟩ := hr
      rw [hchunk]
      simp only [ne_eq, not_true_eq_false, if_false]
      -- the chunk in terms of its own length, which is shorter than `maxWrite` for the last one
      have htake : src.take maxWrite = src.take (min src.length maxWrite) := by
        rw [List.take_eq_take_iff]
        omega
      have hdrop : src.drop maxWrite = src.drop (min src.length maxWrite) := by
        by_cases hle : src.length ≤ maxWrite
        · rw [List.drop_eq_nil_of_le hle, List.drop_eq_nil_of_le (by omega)]
        · rw [min_eq_right (by omega)]
      have hlen : (src.drop maxWrite).length = src.length - min src.length maxWrite := by
        rw [hdrop, List.length_drop]
      have hoff : (t.ftable f).off.toNat ≤ (fileData L f t).length := by
        simp only [WriteFails, not_or, not_lt] at hfit
        exact hfit.1
      have hdata : (fileData L f t₁).length =
          max (fileData L f t).length ((t.ftable f).off.toNat + min src.length maxWrite) := by
        rw [hwrote.data, Shared.length_overwrite hoff, List.length_take, hchunk, min_self]
      have hoff₁ : (t₁.ftable f).off.toNat = (t.ftable f).off.toNat + min src.length maxWrite := hwrote.off
      refine (ih _ (by rw [hlen]; omega) hwrote.ready (by rw [hlen]; omega) rfl).post ?_
      rintro ok t' ⟨hwrote', hok⟩
      rw [hlen, hdata, hoff₁] at hwrote' hok
      rw [reach_of_fits hfit]
      refine ⟨?_, ?_⟩
      · rw [htake] at hwrote
        rw [hdrop] at hwrote'
        refine Wrote.trans (c := min src.length maxWrite) ?_ hwrote' (min_le_left _ _) hoff
        rw [List.length_take, min_eq_left (min_le_left _ _)]
        exact hwrote
      · rw [hok]
        omega

theorem Ready.wp_filewrite {E : Stop → Prop} {Q : Bool → Sys → Prop} (h : Ready L f t) :
    Wp (filewrite f src) t E Q ↔ Wp (writeChunks f src) t E Q := by
  simp only [filewrite, wp_bind, wp_gets]
  rw [if_neg (by rw [h.writable]; decide)]
  simp only [h.type]

theorem Ready.filewrite_nil (h : Ready L f t) : filewrite f [] t = .ok (true, t) := by
  have hwp : Wp (filewrite f []) t (fun _ => False) fun r t' => r = true ∧ t' = t := by
    rw [h.wp_filewrite, writeChunks_eq, if_pos List.length_nil]
    exact wp_pure.mpr ⟨rfl, rfl⟩
  obtain ⟨r, t', hrun, rfl, rfl⟩ := hwp.exists_ok fun _ => id
  exact hrun

/-- **A write in chunks** is the one write of all its bytes when that is within bounds.  When it is not, `filewrite`
returns -1, unless there is nothing to write, and the chunks that are within bounds have been written; there are
none if the offset is behind the end of the file or less than a chunk from the largest one. -/
theorem filewrite_in_chunks (h : Ready L f t) (hn : src.length < 2 ^ 31) :
    Wp (filewrite f src) t (· = .outOfBlocks) fun ok t' =>
      (¬ WriteFails (fileData L f t) (t.ftable f).off.toNat src.length → ok = true ∧
        fileData L f t' = overwrite (fileData L f t) (t.ftable f).off.toNat src ∧
        (t'.ftable f).off.toNat = (t.ftable f).off.toNat + src.length) ∧
      (WriteFails (fileData L f t) (t.ftable f).off.toNat src.length → (ok = true ↔ src.length = 0) ∧
        Wrote L f src (reach (fileData L f t).length (t.ftable f).off.toNat src.length) t t' ∧
        ((t.ftable f).off.toNat > (fileData L f t).length ∨
            maxfile * bsize < (t.ftable f).off.toNat + maxWrite →
          fileData L f t' = fileData L f t ∧ (t'.ftable f).off = (t.ftable f).off)) := by
  refine h.wp_filewrite.mpr ((writeChunks_wp h hn).post fun ok t' hr => ?_)
  obtain ⟨hwrote, hok⟩ := hr
  refine ⟨fun hfit => ?_, fun hfail => ⟨?_, hwrote, fun hnone => ?_⟩⟩
  · have hall : reach (fileData L f t).length (t.ftable f).off.toNat src.length = src.length := by
      simp only [WriteFails, not_or, not_lt, not_le] at hfit
      rw [reach, if_neg (by omega), if_pos (by omega)]
    rw [hall] at hwrote
    refine ⟨hok.mpr hall, ?_, hwrote.off⟩
    rw [hwrote.data, List.take_length]
  · rw [hok]
    have hmax := maxfile_bsize_eq
    have hle := Nat.div_mul_le_self (maxfile * bsize - (t.ftable f).off.toNat) maxWrite
    simp only [WriteFails] at hfail
    rw [reach]
    split_ifs <;> omega
  · have hzero : reach (fileData L f t).length (t.ftable f).off.toNat src.length = 0 := by
      simp only [WriteFails] at hfail
      have hmax := maxfile_bsize_eq
      have hmw := maxWrite_eq
      rw [reach]
      split_ifs with hoff hle
      · rfl
      · omega
      · rw [Nat.div_eq_of_lt (by omega), Nat.zero_mul]
    rw [hzero] at hwrote
    refine ⟨?_, UInt32.toNat_inj.mp hwrote.off⟩
    rw [hwrote.data, List.take_zero, overwrite_nil]

end Chunk

/-- The file with another offset. -/
def seek (f : FileNo) (off : UInt32) (t : Sys) : Sys :=
  { t with ftable := Function.update t.ftable f { t.ftable f with off := off } }

theorem Ready.seek {L : Layout} {f : FileNo} {t : Sys} (h : Ready L f t) (off : UInt32) : Ready L f (seek f off t) := by
  have hfile : (Syscall.seek f off t).ftable f = { t.ftable f with off := off } := by
    simp only [Syscall.seek, Function.update_self]
  have hinum : Shared.inumOf (Syscall.seek f off t) f = Shared.inumOf t f := by
    simp only [Shared.inumOf, hfile]
    rfl
  refine ⟨h.good, ?_, ?_, ?_, ?_, ?_⟩
  · rw [hfile]
    exact h.type
  · rw [hfile]
    exact h.writable
  · rw [hfile]
    exact h.ref
  · rw [hfile]
    exact h.busy
  · rw [hinum]
    exact h.file

namespace Shared

theorem ready_opened : Ready smallLayout file0 (opened.get opened_isSome) :=
  ⟨sysOk_opened.sound.good, by decide +kernel, by decide +kernel, by decide +kernel, by decide +kernel,
    by decide +kernel⟩

/-- The file is empty, and takes two bytes at its start. -/
theorem writeChunk_opened : fileData smallLayout file0 (opened.get opened_isSome) = [] ∧
    (writeChunk file0 [1, 2] (seek file0 0 (opened.get opened_isSome))).toOption.map Prod.fst = some (some 2) := by
  decide +kernel

/-- Two bytes at the start of the empty file. -/
theorem filewrite_two_bytes : ∃ t', filewrite file0 [1, 2] (seek file0 0 (opened.get opened_isSome)) = .ok (true, t') ∧
    fileData smallLayout file0 t' = [1, 2] := by
  have hempty : fileData smallLayout file0 (seek file0 0 (opened.get opened_isSome)) = [] := writeChunk_opened.1
  have hoff : ((seek file0 0 (opened.get opened_isSome)).ftable file0).off.toNat = 0 := by decide
  have hready := ready_opened.seek 0
  -- the blocks there are will do
  have hruns : Wp (filewrite file0 [1, 2]) (seek file0 0 (opened.get opened_isSome)) (fun _ => False)
      fun _ _ => True := by
    rw [hready.wp_filewrite, writeChunks_eq, if_neg (by decide)]
    have hchunk := writeChunk_opened.2
    cases hrun : writeChunk file0 [1, 2] (seek file0 0 (opened.get opened_isSome)) with
    | error e =>
        rw [hrun] at hchunk
        cases hchunk
    | ok res =>
        obtain ⟨r, t₁⟩ := res
        rw [hrun] at hchunk
        obtain rfl : r = some 2 := Option.some.inj hchunk
        refine wp_bind.mpr ((wp_of_ok hrun).mpr ?_)
        have hlen : (([1, 2] : List UInt8).take maxWrite).length = 2 := by decide
        have hnil : ([1, 2] : List UInt8).drop maxWrite = [] := by decide
        simp only [hlen, hnil, ne_eq, not_true_eq_false, if_false]
        rw [writeChunks_eq, if_pos List.length_nil]
        exact wp_pure.mpr trivial
  obtain ⟨ok, t', hrun, -⟩ := hruns.exists_ok fun _ => id
  have hr := (filewrite_in_chunks hready (by decide)).of_eq_ok hrun
  rw [hempty, hoff] at hr
  obtain ⟨rfl, hdata, -⟩ := hr.1 (by decide)
  exact ⟨t', hrun, hdata⟩

/-- No bytes behind the end of the file: `writei` would return -1, `filewrite` does not call it. -/
theorem filewrite_nothing_behind_end : ∃ t, Ready smallLayout file0 t ∧
    WriteFails (fileData smallLayout file0 t) (t.ftable file0).off.toNat 0 ∧
    filewrite file0 [] t = .ok (true, t) := by
  have hempty : fileData smallLayout file0 (seek file0 1 (opened.get opened_isSome)) = [] := writeChunk_opened.1
  have hoff : ((seek file0 1 (opened.get opened_isSome)).ftable file0).off.toNat = 1 := by decide
  have hready := ready_opened.seek 1
  refine ⟨_, hready, ?_, hready.filewrite_nil⟩
  rw [hempty, hoff]
  decide

example : inumOf (opened.get opened_isSome) file0 = 2 := by decide +kernel

end Shared

end Xv6.Syscall
