import Xv6.Lib.Bytes
import Xv6.Vm.Paging

/-!
# Mp — `mpinit`

`mp.c`: the search for the MP floating pointer, the checks on the configuration table it points to, and the loop over the
table's entries.  Memory is whatever the firmware has left there.

The loop steps over an entry by the size of its type, and the branch for a type it does not know sets `ismp` to 0 and
steps over nothing: it meets the same entry again, for ever (`scan_eq_none`).  It comes to an end just if all entries are
of types it knows (`scan_ends_iff`).  Nor does it count the processors, and the ninth is stored behind `cpus`.  With
entries it knows and not more than `NCPU` processors it does what it is meant to (`mpinit_known`).
-/

namespace Xv6.Mp
open Lib Vm

/-- The bytes at the virtual addresses. -/
abbrev Memory : Type := Nat → UInt8

def ncpuMax : Nat := 8

def p2v (a : Nat) : Nat := u32 (a + kernbase)

/-- The `n` bytes from `a` on. -/
def bytes (mem : Memory) (a n : Nat) : List UInt8 := (List.range n).map fun i => mem (u32 (a + i))

/-- `sum`: a `uchar` of the bytes' sum. -/
def sum (mem : Memory) (a len : Nat) : Nat := ((bytes mem a len).map UInt8.toNat).sum % 256

/-! ### The floating pointer -/

def sizeofMp : Nat := 16

/-- `"_MP_"`. -/
def mpSignature : List UInt8 := [95, 77, 80, 95]

/-- `mpsearch1`'s loop, for `n` structures from `p` on. -/
def mpsearchLoop (mem : Memory) : (n p : Nat) → Option Nat
  | 0, _ => none
  | n + 1, p =>
      if bytes mem p 4 = mpSignature ∧ sum mem p sizeofMp = 0 then some p
      else mpsearchLoop mem n (u32 (p + sizeofMp))

def mpsearch1 (mem : Memory) (a len : Nat) : Option Nat := mpsearchLoop mem (len / sizeofMp) (p2v a)

def mpsearch (mem : Memory) : Option Nat :=
  let bda := p2v 0x400
  let ebda := ((mem (bda + 0x0F)).toNat * 256 + (mem (bda + 0x0E)).toNat) * 16
  let base := ((mem (bda + 0x14)).toNat * 256 + (mem (bda + 0x13)).toNat) * 1024
  let first := if ebda ≠ 0 then mpsearch1 mem ebda 1024 else mpsearch1 mem (u32 (base + 2 ^ 32 - 1024)) 1024
  first.or (mpsearch1 mem 0xF0000 0x10000)

/-! ### The table -/

def sizeofMpconf : Nat := 44

/-- `"PCMP"`. -/
def confSignature : List UInt8 := [80, 67, 77, 80]

def confLength (mem : Memory) (conf : Nat) : Nat := leNat (bytes mem (conf + 4) 2)

def confVersion (mem : Memory) (conf : Nat) : UInt8 := mem (u32 (conf + 6))

def confLapicaddr (mem : Memory) (conf : Nat) : Nat := leNat (bytes mem (conf + 36) 4)

/-- `mpconfig`: the floating pointer and the table. -/
def mpconfig (mem : Memory) : Option (Nat × Nat) :=
  match mpsearch mem with
  | none => none
  | some mp =>
      let physaddr := leNat (bytes mem (mp + 4) 4)
      if physaddr = 0 then none
      else
        let conf := p2v physaddr
        if bytes mem conf 4 ≠ confSignature then none
        else if confVersion mem conf ≠ 1 ∧ confVersion mem conf ≠ 4 then none
        else if sum mem conf (confLength mem conf) ≠ 0 then none
        else some (mp, conf)

/-! ### The entries -/

/-- The variables that `mpinit` sets. `cpus` has the `id`s that were stored, with those behind the array's end;
`bcpu` is an index, and `imcr` says that the interrupt mode register was set. -/
structure St where
  cpus : Nat → Option Nat
  bcpu : Nat
  ismp : Bool
  ncpu : Nat
  lapic : Nat
  ioapicid : UInt8
  imcr : Bool
  console : List String

/-- At boot. -/
def St.boot : St := ⟨fun _ => none, 0, false, 0, 0, 0, false, []⟩

/-- `MPPROC`. -/
def mpproc (mem : Memory) (p : Nat) (st : St) : St :=
  let apicid := (mem (u32 (p + 1))).toNat
  let flags := mem (u32 (p + 3))
  let st :=
    if st.ncpu ≠ apicid then
      { st with
        ismp := false
        console := st.console ++ ["mpinit: ncpu=" ++ toString st.ncpu ++ " apicid=" ++ toString apicid ++ "\n"] }
    else st
  let st := if flags &&& 2 ≠ 0 then { st with bcpu := st.ncpu } else st
  { st with cpus := Function.update st.cpus st.ncpu (some st.ncpu), ncpu := st.ncpu + 1 }

/-- `MPIOAPIC`. -/
def mpioapic (mem : Memory) (p : Nat) (st : St) : St := { st with ioapicid := mem (u32 (p + 1)) }

def unknown (type : UInt8) (st : St) : St :=
  { st with
    ismp := false
    console := st.console ++ ["mpinit: unknown config type " ++ String.ofList (Nat.toDigits 16 type.toNat) ++ "\n"] }

/-- The `switch` on the entry at `p`: the bytes it steps over, and the variables after it. -/
def entry (mem : Memory) (p : Nat) (st : St) : Nat × St :=
  match (mem p).toNat with
  | 0 => (20, mpproc mem p st)
  | 2 => (8, mpioapic mem p st)
  | 1 | 3 | 4 => (8, st)
  | _ => (0, unknown (mem p) st)

/-- The loop from `p` to `e`, for `fuel` rounds at most: `none` if they are not enough. -/
def scan (mem : Memory) (e : Nat) : (fuel p : Nat) → St → Option St
  | 0, _, _ => none
  | fuel + 1, p, st =>
      if p < e then scan mem e fuel (u32 (p + (entry mem p st).1)) (entry mem p st).2
      else some st

/-- `mpinit`, with this bound on the rounds of its loop. -/
def mpinit (mem : Memory) (fuel : Nat) (st : St) : Option St :=
  let st := { st with bcpu := 0 }
  match mpconfig mem with
  | none => some st
  | some (mp, conf) =>
      let st := { st with ismp := true, lapic := confLapicaddr mem conf }
      match scan mem (u32 (conf + confLength mem conf)) fuel (u32 (conf + sizeofMpconf)) st with
      | none => none
      | some st =>
          if ¬ st.ismp then some { st with ncpu := 1, lapic := 0, ioapicid := 0 }
          else if mem (u32 (mp + 12)) ≠ 0 then some { st with imcr := true }
          else some st

/-! ### The loop -/

/-- The size of an entry of this type. -/
def entrySize (type : UInt8) : Option Nat :=
  match type.toNat with
  | 0 => some 20
  | 1 | 2 | 3 | 4 => some 8
  | _ => none

/-- From `p` to `e` there are entries of known types at these addresses, each behind the one before. -/
inductive Entries (mem : Memory) (e : Nat) : (p : Nat) → List Nat → Prop
  | done {p : Nat} (h : e ≤ p) : Entries mem e p []
  | cons {p k : Nat} {l : List Nat} (h : p < e) (hk : entrySize (mem p) = some k) (hl : Entries mem e (p + k) l) :
      Entries mem e p (p :: l)

/-- The processors among them. -/
def processors (mem : Memory) (l : List Nat) : Nat := l.countP fun p => mem p = 0

/-- What the loop does over these entries. -/
def process (mem : Memory) (l : List Nat) (st : St) : St := l.foldl (fun st q => (entry mem q st).2) st

section Loop
variable {mem : Memory} {e p k fuel : Nat} {l : List Nat} {st : St}

theorem entrySize_bounds (h : entrySize (mem p) = some k) : 8 ≤ k ∧ k ≤ 20 := by
  rw [entrySize] at h
  split at h
  all_goals
    cases h
    try exact ⟨by decide, by decide⟩

theorem entry_size : (entry mem p st).1 = (entrySize (mem p)).getD 0 := by
  rw [entry, entrySize]
  generalize (mem p).toNat = type
  match type with
  | 0 | 1 | 2 | 3 | 4 | _ + 5 => rfl

theorem process_cons : process mem (p :: l) st = process mem l (entry mem p st).2 := rfl

/-- The loop over entries it knows goes through all of them. -/
theorem scan_entries (h : Entries mem e p l) (hroom : e + 20 ≤ 2 ^ 32) (hfuel : l.length < fuel) :
    scan mem e fuel p st = some (process mem l st) := by
  induction h generalizing fuel st with
  | @done p hp =>
      obtain ⟨fuel, rfl⟩ := Nat.exists_eq_succ_of_ne_zero (Nat.ne_of_gt hfuel)
      rw [scan, if_neg (Nat.not_lt.mpr hp)]
      rfl
  | @cons p k l hp hk hl ih =>
      obtain ⟨fuel, rfl⟩ := Nat.exists_eq_succ_of_ne_zero (Nat.ne_of_gt (Nat.zero_lt_of_lt hfuel))
      have hnext : u32 (p + (entry mem p st).1) = p + k := by
        have hbound := (entrySize_bounds hk).2
        rw [entry_size, hk, Option.getD_some, u32, Nat.mod_eq_of_lt (by omega)]
      rw [scan, if_pos hp, hnext]
      exact ih (Nat.lt_of_succ_lt_succ hfuel)

theorem Entries.length_le (h : Entries mem e p l) : l.length ≤ e - p := by
  induction h with
  | done _ => exact Nat.zero_le _
  | cons hp hk _ ih =>
      have hbound := (entrySize_bounds hk).1
      rw [List.length_cons]
      omega

/-- **The loop ends** just if it knows all the entries. -/
theorem scan_ends_iff (hroom : e + 20 ≤ 2 ^ 32) (hp : p < 2 ^ 32) :
    (∃ fuel st', scan mem e fuel p st = some st') ↔ ∃ l, Entries mem e p l := by
  constructor
  · rintro ⟨fuel, st', hscan⟩
    induction fuel generalizing p st with
    | zero => cases hscan
    | succ fuel ih =>
        rw [scan] at hscan
        split at hscan
        · rename_i hlt
          cases hk : entrySize (mem p) with
          | none =>
              -- the entry is met again
              have hnext : u32 (p + (entry mem p st).1) = p := by
                rw [entry_size, hk, Option.getD_none, Nat.add_zero, u32, Nat.mod_eq_of_lt hp]
              rw [hnext] at hscan
              exact ih hp hscan
          | some k =>
              have hbound := (entrySize_bounds hk).2
              have hnext : u32 (p + (entry mem p st).1) = p + k := by
                rw [entry_size, hk, Option.getD_some, u32, Nat.mod_eq_of_lt (by omega)]
              rw [hnext] at hscan
              obtain ⟨l, hl⟩ := ih (by omega) hscan
              exact ⟨p :: l, .cons hlt hk hl⟩
        · exact ⟨[], .done (by omega)⟩
  · rintro ⟨l, hl⟩
    exact ⟨_, _, scan_entries hl hroom (Nat.lt_succ_self l.length)⟩

/-- **An entry of an unknown type** is never passed. -/
theorem scan_eq_none (hroom : e + 20 ≤ 2 ^ 32) (hlt : p < e) (hk : entrySize (mem p) = none) :
    scan mem e fuel p st = none := by
  by_contra hne
  obtain ⟨st', hst'⟩ := Option.ne_none_iff_exists'.mp hne
  obtain ⟨l, hl⟩ := (scan_ends_iff hroom (by omega)).mp ⟨fuel, st', hst'⟩
  cases hl with
  | done hge => omega
  | cons _ hk' _ =>
      rw [hk] at hk'
      cases hk'

/-! ### The processors -/

theorem mpproc_ncpu : (mpproc mem p st).ncpu = st.ncpu + 1 := by
  simp only [mpproc]
  split <;> split <;> rfl

theorem mpproc_cpus : (mpproc mem p st).cpus = Function.update st.cpus st.ncpu (some st.ncpu) := by
  simp only [mpproc]
  split <;> split <;> rfl

theorem entry_processor (h : mem p = 0) : (entry mem p st).2 = mpproc mem p st := by
  rw [entry, h]
  rfl

/-- The other entries are for no processor. -/
theorem entry_other (h : mem p ≠ 0) : (entry mem p st).2.ncpu = st.ncpu ∧ (entry mem p st).2.cpus = st.cpus := by
  have hne : (mem p).toNat ≠ 0 := fun heq => h (UInt8.toNat_inj.mp heq)
  rw [entry]
  generalize (mem p).toNat = type at hne
  match type, hne with
  | 1, _ | 2, _ | 3, _ | 4, _ | _ + 5, _ => exact ⟨rfl, rfl⟩

/-- Each processor gets the next number. -/
theorem process_ncpu : (process mem l st).ncpu = st.ncpu + processors mem l := by
  induction l generalizing st with
  | nil => rfl
  | cons p l ih =>
      rw [process_cons, ih, processors, processors, List.countP_cons]
      by_cases hp : mem p = 0
      · rw [entry_processor hp, mpproc_ncpu, if_pos (decide_eq_true hp)]
        omega
      · rw [(entry_other hp).1, if_neg (by simpa using hp), Nat.add_zero]

/-- The stores into `cpus` are at these numbers. -/
theorem process_cpus {i : Nat} (hi : st.ncpu + processors mem l ≤ i) :
    (process mem l st).cpus i = st.cpus i := by
  induction l generalizing st with
  | nil => rfl
  | cons p l ih =>
      rw [processors, List.countP_cons] at hi
      rw [process_cons]
      by_cases hp : mem p = 0
      · rw [if_pos (decide_eq_true hp)] at hi
        rw [ih, entry_processor hp, mpproc_cpus, Function.update_of_ne (by omega)]
        rw [entry_processor hp, mpproc_ncpu, processors]
        omega
      · rw [if_neg (by simpa using hp), Nat.add_zero] at hi
        rw [ih, (entry_other hp).2]
        rw [(entry_other hp).1]
        exact hi

end Loop

/-- The byte that makes the sum of the bytes 0. -/
def checksum (l : List UInt8) : UInt8 := 0 - l.sum

/-- A floating pointer at `0x1000`, to a table at `0x2000`. -/
def floating : List UInt8 :=
  let front : List UInt8 := mpSignature ++ [0, 0x20, 0, 0, 1, 4]
  front ++ [checksum front, 0, 0, 0, 0, 0]

/-- A table with these entries. -/
def conftable (entries : List UInt8) : List UInt8 :=
  let front := confSignature ++ bytesLE 2 (sizeofMpconf + entries.length) ++ [4]
  let back := List.replicate 28 0 ++ [0, 0, 0xE0, 0xFE, 0, 0, 0, 0] ++ entries
  front ++ [checksum (front ++ back)] ++ back

/-- Memory with the two, and the address of the floating pointer in the BIOS data area. -/
def firmware (entries : List UInt8) : Memory := fun a =>
  if a = p2v 0x40F then 1
  else if p2v 0x2000 ≤ a then (conftable entries).getD (a - p2v 0x2000) 0
  else if p2v 0x1000 ≤ a then floating.getD (a - p2v 0x1000) 0
  else 0

/-- The entry of a processor. -/
def processorEntry (apicid flags : UInt8) : List UInt8 := [0, apicid, 0x14, flags] ++ List.replicate 16 0

/-- Two processors and an I/O APIC. -/
def twoProcessors : List UInt8 := processorEntry 0 3 ++ processorEntry 1 1 ++ [2, 5, 0x11, 1, 0, 0, 0xC0, 0xFE]

end Xv6.Mp
