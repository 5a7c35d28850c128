import Xv6.Fs.Dir

/-!
# Fs — the entries of a directory

The bytes of a directory as a list of entries, and what writing one does to them.  Directories are
written in three ways: `dirlink` writes an entry for a name that has none, `sys_unlink` clears one that
is not `.` or `..`, and a new directory gets these two.  A property of directories that all three keep
(`Dirs`) is one that every call keeps, whatever it is.
-/

namespace Xv6.Fs
open Lib Lib.Prog

/-- An inode in use. -/
structure Node where
  type : UInt16
  nlink : UInt16
  data : List UInt8
  deriving DecidableEq

/-- The entries of a directory. -/
def entries (data : List UInt8) : List Dirent :=
  (List.range (data.length / direntSize)).map fun k =>
    .ofBytes ((data.drop (k * direntSize)).take direntSize)

/-- The entries of a directory are for inodes there are. -/
def InRange (L : Layout) (nd : Node) : Prop :=
  nd.type = tDir → ∀ de ∈ entries nd.data, de.inum < L.ninodes

/-! ### Entries -/

section Entries
variable {k : Nat} {data src : List UInt8} {de : Dirent}

/-- The entries with another one at place `k`. -/
def putEntry (es : List Dirent) (k : Nat) (de : Dirent) : List Dirent :=
  es.take k ++ de :: es.drop (k + 1)

theorem mem_putEntry {es : List Dirent} {x : Dirent} (h : x ∈ putEntry es k de) :
    x = de ∨ x ∈ es := by
  rw [putEntry, List.mem_append, List.mem_cons] at h
  obtain h | rfl | h := h
  · exact .inr (List.mem_of_mem_take h)
  · exact .inl rfl
  · exact .inr (List.mem_of_mem_drop h)

theorem getElem?_putEntry {es : List Dirent} (hk : k ≤ es.length) (j : Nat) :
    (putEntry es k de)[j]? = if j = k then some de else es[j]? := by
  rw [putEntry]
  obtain hjk | rfl | hjk := Nat.lt_trichotomy j k
  · rw [List.getElem?_append_left (by simp; omega), List.getElem?_take_of_lt hjk, if_neg hjk.ne]
  · rw [List.getElem?_append_right (by simp), if_pos rfl]
    simp [hk]
  · rw [List.getElem?_append_right (by simp; omega), if_neg hjk.ne', List.length_take,
      min_eq_left hk, List.getElem?_cons, if_neg (by omega), List.getElem?_drop]
    congr 1
    omega

/-- The bytes of entry `k`. -/
def entryBytes (data : List UInt8) (k : Nat) : List UInt8 :=
  (data.drop (k * direntSize)).take direntSize

@[simp] theorem length_entries : (entries data).length = data.length / direntSize := by
  simp [entries]

theorem getElem?_entries (hk : k < data.length / direntSize) :
    (entries data)[k]? = some (.ofBytes (entryBytes data k)) := by
  simp [entries, entryBytes, hk]

theorem length_entryBytes : (entryBytes data k).length = direntSize ↔
    k < data.length / direntSize := by
  rw [entryBytes, List.length_take, List.length_drop, Nat.lt_div_iff_mul_lt (by decide)]
  simp only [direntSize]
  omega

/-- An entry is overwritten, or added at the end. -/
def Fits (data : List UInt8) (k : Nat) : Prop :=
  k < data.length / direntSize ∨ k * direntSize = data.length

theorem Fits.le (h : Fits data k) : k * direntSize ≤ data.length := by
  obtain h | h := h
  · rw [Nat.lt_div_iff_mul_lt (by decide)] at h
    simp only [direntSize] at h ⊢
    omega
  · exact h.le

theorem Fits.le_length (h : Fits data k) : k ≤ (entries data).length := by
  rw [length_entries, Nat.le_div_iff_mul_le (by decide)]
  exact h.le

theorem entryBytes_overwrite (h : Fits data k) (hsrc : src.length = direntSize) (j : Nat) :
    entryBytes (overwrite data (k * direntSize) src) j = if j = k then src else entryBytes data j := by
  have hlen : (data.take (k * direntSize)).length = k * direntSize := by
    rw [List.length_take, min_eq_left h.le]
  rw [entryBytes, overwrite, List.append_assoc]
  obtain hjk | rfl | hjk := Nat.lt_trichotomy j k
  · -- in front of the place
    have hle : j * direntSize + direntSize ≤ k * direntSize := by
      rw [← Nat.succ_mul]
      exact Nat.mul_le_mul_right _ hjk
    rw [if_neg hjk.ne, List.drop_append_of_le_length (by omega), List.take_append_of_le_length
      (by rw [List.length_drop]; omega), List.drop_take, List.take_take, entryBytes,
      min_eq_left (by omega)]
  · rw [if_pos rfl, List.drop_append_of_le_length hlen.ge, List.drop_eq_nil_of_le hlen.le,
      List.nil_append, ← hsrc, List.take_left]
  · -- behind it
    have hle : k * direntSize + direntSize ≤ j * direntSize := by
      rw [← Nat.succ_mul]
      exact Nat.mul_le_mul_right _ hjk
    have hlen' : (data.take (k * direntSize) ++ src).length = k * direntSize + direntSize := by
      rw [List.length_append, hlen, hsrc]
    rw [if_neg hjk.ne', ← List.append_assoc, List.drop_append, List.drop_eq_nil_of_le (by omega),
      List.nil_append, List.drop_drop, hsrc, hlen', entryBytes]
    congr 2
    omega

theorem length_overwrite_entry (h : Fits data k) (hsrc : src.length = direntSize) :
    (overwrite data (k * direntSize) src).length =
      if k < data.length / direntSize then data.length else data.length + direntSize := by
  have hle := h.le
  simp only [overwrite, List.length_append, List.length_take, List.length_drop, hsrc]
  split
  · rename_i hk
    rw [Nat.lt_div_iff_mul_lt (by decide)] at hk
    simp only [direntSize] at hk hle ⊢
    omega
  · rename_i hk
    have := h.resolve_left hk
    omega

theorem entries_overwrite (h : Fits data k) (hsrc : src.length = direntSize) :
    entries (overwrite data (k * direntSize) src) = putEntry (entries data) k (.ofBytes src) := by
  refine List.ext_getElem? fun j => ?_
  rw [getElem?_putEntry h.le_length]
  by_cases hj : j < (overwrite data (k * direntSize) src).length / direntSize
  · rw [getElem?_entries hj, entryBytes_overwrite h hsrc]
    split
    · rfl
    · rw [getElem?_entries]
      rw [length_overwrite_entry h hsrc] at hj
      split at hj
      · exact hj
      · rename_i hjk hnot
        have := h.resolve_left hnot
        simp only [direntSize] at this hj ⊢
        omega
  · have hnone := hj
    rw [length_overwrite_entry h hsrc] at hj
    rw [List.getElem?_eq_none (by rw [length_entries]; omega), if_neg, List.getElem?_eq_none]
    · rw [length_entries]
      split at hj
      · omega
      · simp only [direntSize] at hj ⊢
        omega
    · rintro rfl
      split at hj
      · omega
      · rename_i hnot
        have := h.resolve_left hnot
        simp only [direntSize] at this hj
        omega

end Entries

/-- Entry `k` is in use, for this name. -/
structure FoundAt (data : List UInt8) (name : List UInt8) (k : Nat) (de : Dirent) : Prop where
  get : (entries data)[k]? = some de
  inum : de.inum ≠ 0
  name : de.name = name

/-- No entry in use is for this name. -/
structure Absent (data : List UInt8) (name : List UInt8) : Prop where
  size : data.length % direntSize = 0
  name : ∀ de ∈ entries data, de.inum ≠ 0 → de.name ≠ name

/-- The entry in use for a name, the first there is. -/
def lookup (data : List UInt8) (name : List UInt8) : Option Dirent :=
  (entries data).find? fun de => decide (de.inum ≠ 0 ∧ de.name = name)

theorem Absent.lookup {data name : List UInt8} (h : Absent data name) :
    Fs.lookup data name = none := by
  refine List.find?_eq_none.mpr fun de hde => ?_
  rw [decide_eq_true_eq]
  exact fun hfound => h.name de hde hfound.1 hfound.2

theorem FoundAt.lookup {data name : List UInt8} {k : Nat} {de : Dirent} (h : FoundAt data name k de)
    (hfirst : ∀ j e, j < k → (entries data)[j]? = some e → e.inum ≠ 0 → e.name ≠ name) :
    Fs.lookup data name = some de := by
  obtain ⟨hk, hget⟩ := List.getElem?_eq_some_iff.mp h.get
  refine List.find?_eq_some_iff_getElem.mpr ⟨?_, k, hk, hget, fun j hj => ?_⟩
  · rw [decide_eq_true_eq]
    exact ⟨h.inum, h.name⟩
  · have := hfirst j _ hj (List.getElem?_eq_getElem (hj.trans hk))
    simpa [Decidable.imp_iff_not_or] using this

section Names
variable {L : Layout} {nd : Node} {name : List UInt8} {de : Dirent}

theorem length_dirent_bytes : de.bytes.length = direntSize := by
  simp only [Dirent.bytes, List.length_append, length_bytesLE, List.length_take,
    List.length_replicate, dirsiz, direntSize]
  omega

/-- A name as there is one in a path. -/
structure Named (name : List UInt8) : Prop where
  length : name.length ≤ dirsiz
  nul : (0 : UInt8) ∉ name

/-- The number of an entry is cut to 16 bits. -/
theorem inum_ofBytes_bytes : (Dirent.ofBytes de.bytes).inum = de.inum % 2 ^ 16 := by
  rw [Dirent.ofBytes, Dirent.bytes, field_append_left (by simp), field_bytesLE]
  norm_num

theorem name_ofBytes_bytes (hname : Named de.name) : (Dirent.ofBytes de.bytes).name = de.name := by
  have hdrop : (de.bytes.drop 2).take dirsiz =
      de.name ++ List.replicate (dirsiz - de.name.length) 0 := by
    rw [Dirent.bytes, List.drop_left' (by simp), List.take_of_length_le hname.length,
      List.take_of_length_le]
    rw [List.length_append, List.length_replicate]
    have := hname.length
    omega
  have hall : ∀ b ∈ de.name, decide (b ≠ 0) = true := by
    intro b hb
    rw [decide_eq_true_eq]
    rintro rfl
    exact hname.nul hb
  rw [Dirent.ofBytes, hdrop, cstr, List.takeWhile_append_of_pos hall, List.takeWhile_replicate]
  simp

theorem ofBytes_bytes (hname : Named de.name) (hinum : de.inum < 2 ^ 16) :
    Dirent.ofBytes de.bytes = de :=
  Dirent.ext (by rw [inum_ofBytes_bytes, Nat.mod_eq_of_lt hinum]) (name_ofBytes_bytes hname)

/-- A directory keeps to inodes there are when an entry for one is written. -/
theorem InRange.overwrite {src : List UInt8} {k : Nat} (h : InRange L nd)
    (hfits : Fits nd.data k) (hsrc : src.length = direntSize)
    (hinum : (Dirent.ofBytes src).inum < L.ninodes) :
    InRange L { nd with data := overwrite nd.data (k * direntSize) src } := by
  intro ht de hde
  rw [entries_overwrite hfits hsrc] at hde
  obtain rfl | hde := mem_putEntry hde
  · exact hinum
  · exact h ht de hde

end Names

/-! ### Properties of directories -/

/-- What `dirlink` writes: an entry for a name that has none, at an empty place or at the end. -/
structure Entered (data : List UInt8) (de : Dirent) (data' : List UInt8) : Prop where
  named : Named de.name
  absent : Absent data de.name
  place : ∃ k, Fits data k ∧ (∀ e, (entries data)[k]? = some e → e.inum = 0) ∧
    data' = overwrite data (k * direntSize) de.bytes

/-- What `sys_unlink` writes over an entry. -/
def cleared (data : List UInt8) (k : Nat) : List UInt8 :=
  overwrite data (k * direntSize) (List.replicate direntSize 0)

/-- A property of directories that the ways to write one keep, and that the two entries of a new one
give it. -/
structure Dirs (L : Layout) where
  Ok : Nat → Node → Prop
  range : ∀ {i nd}, Ok i nd → InRange L nd
  file : ∀ {i nd}, nd.type ≠ tDir → Ok i nd
  nlink : ∀ {i nd} n, Ok i nd → Ok i { nd with nlink := n }
  enter : ∀ {i nd de data}, Ok i nd → de.inum < L.ninodes → Entered nd.data de data →
    Ok i { nd with data := data }
  clear : ∀ {i nd name k de}, Ok i nd → FoundAt nd.data name k de → name ≠ dot → name ≠ dotdot →
    Ok i { nd with data := cleared nd.data k }
  dots : ∀ {i d n data data'}, 0 < i → i < L.ninodes → 0 < d → d < L.ninodes →
    Entered [] ⟨i, dot⟩ data → Entered data ⟨d, dotdot⟩ data' → Ok i ⟨tDir, n, data'⟩

section Dirs
variable {L : Layout} {D : Dirs L} {i k : Nat} {nd : Node} {name data data' : List UInt8}
  {de : Dirent}

theorem FoundAt.fits (h : FoundAt data name k de) : Fits data k := by
  have := (List.getElem?_eq_some_iff.mp h.get).1
  rw [length_entries] at this
  exact .inl this

theorem entries_cleared (h : Fits data k) :
    entries (cleared data k) = putEntry (entries data) k ⟨0, []⟩ := by
  rw [cleared, entries_overwrite h (by simp)]
  exact congrArg _ (by decide)

/-- An entry for an inode there is. -/
theorem InRange.enter (h : InRange L nd) (hinum : de.inum < L.ninodes) (he : Entered nd.data de data) :
    InRange L { nd with data := data } := by
  obtain ⟨-, -, k, hfits, -, rfl⟩ := he
  refine h.overwrite hfits length_dirent_bytes ?_
  rw [inum_ofBytes_bytes]
  exact (Nat.mod_le _ _).trans_lt hinum

/-- The entries are for inodes there are. -/
def inRange (L : Layout) : Dirs L where
  Ok _ nd := InRange L nd
  range h := h
  file ht := fun h => absurd h ht
  nlink _ h := h
  enter h hinum he := h.enter hinum he
  clear h hf _ _ := by
    intro ht de hde
    rw [entries_cleared hf.fits] at hde
    obtain rfl | hde := mem_putEntry hde
    · exact Nat.zero_lt_of_lt (h ht _ (List.mem_of_getElem? hf.get))
    · exact h ht de hde
  dots _ hi _ hd he he' := by
    have h : InRange L ⟨tDir, 0, []⟩ := fun _ de hde => by simp [entries] at hde
    exact (h.enter hi he).enter hd he'

/-- The property, but of inode `i`: it may be a directory that is being made. -/
def Dirs.except (D : Dirs L) (i : Nat) : Dirs L where
  Ok j nd := if j = i then InRange L nd else D.Ok j nd
  range {j nd} h := by
    split at h
    · exact h
    · exact D.range h
  file {j nd} ht := by
    split
    · exact (inRange L).file (i := j) ht
    · exact D.file ht
  nlink {j nd} n h := by
    split at h
    · rename_i hj
      rw [if_pos hj]
      exact h
    · rename_i hj
      rw [if_neg hj]
      exact D.nlink n h
  enter {j nd de data} h hinum he := by
    split at h
    · rename_i hj
      rw [if_pos hj]
      exact h.enter hinum he
    · rename_i hj
      rw [if_neg hj]
      exact D.enter h hinum he
  clear {j nd name k de} h hf hdot hdotdot := by
    split at h
    · rename_i hj
      rw [if_pos hj]
      exact (inRange L).clear (i := j) h hf hdot hdotdot
    · rename_i hj
      rw [if_neg hj]
      exact D.clear h hf hdot hdotdot
  dots {j d n data data'} h0 hj hd0 hd he he' := by
    split
    · exact (inRange L).dots (n := n) h0 hj hd0 hd he he'
    · exact D.dots h0 hj hd0 hd he he'

theorem Dirs.Ok.except (h : D.Ok i nd) (j : Nat) : (D.except j).Ok i nd := by
  show if i = j then InRange L nd else D.Ok i nd
  split
  · exact D.range h
  · exact h

theorem Dirs.except_self : (D.except i).Ok i nd ↔ InRange L nd := by
  show (if i = i then InRange L nd else D.Ok i nd) ↔ _
  rw [if_pos rfl]

theorem Dirs.except_of_ne {j : Nat} (h : j ≠ i) : (D.except i).Ok j nd ↔ D.Ok j nd := by
  show (if j = i then InRange L nd else D.Ok j nd) ↔ _
  rw [if_neg h]

end Dirs

end Xv6.Fs
