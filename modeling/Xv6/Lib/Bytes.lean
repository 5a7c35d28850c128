import Mathlib

/-!
# Lib — Buffers of bytes

A buffer of `n` bytes, the moves in and out of it (`splice`, `slice`), little-endian numbers in it
(`read`, `write`) and its bits (`testBit`, `setBit`, `clearBit`).  What a move in puts there is what
a move out gets (`slice_splice_self`), and it leaves the rest alone (`slice_splice_of_disjoint`); the
same for numbers and bits.
-/

namespace Xv6.Lib

/-! ### Little-endian numbers -/

/-- The number little-endian bytes stand for. -/
def leNat : List UInt8 → Nat
  | [] => 0
  | b :: bs => b.toNat + 256 * leNat bs

/-- The `w` low bytes of a number. -/
def bytesLE : Nat → Nat → List UInt8
  | 0, _ => []
  | w + 1, v => UInt8.ofNat v :: bytesLE w (v / 256)

@[simp] theorem length_bytesLE (w v : Nat) : (bytesLE w v).length = w := by
  induction w generalizing v with
  | zero => rfl
  | succ w ih => simp [bytesLE, ih]

theorem leNat_bytesLE (w v : Nat) : leNat (bytesLE w v) = v % 256 ^ w := by
  induction w generalizing v with
  | zero => simp [bytesLE, leNat, Nat.mod_one]
  | succ w ih =>
      have h : v % (256 * 256 ^ w) = v % 256 + 256 * (v / 256 % 256 ^ w) := Nat.mod_mul
      rw [bytesLE, leNat, ih, UInt8.toNat_ofNat', pow_succ' 256 w, h]

theorem leNat_lt (bs : List UInt8) : leNat bs < 256 ^ bs.length := by
  induction bs with
  | nil => simp [leNat]
  | cons b bs ih =>
      have hb : b.toNat < 256 := b.toNat_lt
      rw [leNat, List.length_cons, pow_succ']
      omega

/-! ### Fields of a record -/

/-- The little-endian number of `w` bytes at offset `o` of a record. -/
def field (bs : List UInt8) (o w : Nat) : Nat := leNat ((bs.drop o).take w)

theorem field_lt (bs : List UInt8) (o w : Nat) : field bs o w < 256 ^ w :=
  (leNat_lt _).trans_le (Nat.pow_le_pow_right (by decide) (List.length_take_le _ _))

theorem field_append_left {xs ys : List UInt8} {o w : Nat} (h : o + w ≤ xs.length) :
    field (xs ++ ys) o w = field xs o w := by
  rw [field, field, List.drop_append_of_le_length (by omega), List.take_append_of_le_length]
  rw [List.length_drop]
  omega

theorem field_append_right {xs ys : List UInt8} {o w : Nat} (h : xs.length ≤ o) :
    field (xs ++ ys) o w = field ys (o - xs.length) w := by
  rw [field, field, List.drop_append, List.drop_eq_nil_of_le h, List.nil_append]

theorem field_bytesLE (w v : Nat) : field (bytesLE w v) 0 w = v % 256 ^ w := by
  have htake : (bytesLE w v).take w = bytesLE w v := List.take_of_length_le (by simp)
  rw [field, List.drop_zero, htake, leNat_bytesLE]

/-- A field of an array of numbers of one width. -/
theorem field_flatMap {l : List Nat} {w j : Nat} (hj : j < l.length) :
    field (l.flatMap (bytesLE w)) (w * j) w = l[j] % 256 ^ w := by
  induction l generalizing j with
  | nil => simp at hj
  | cons v l ih =>
      rw [List.flatMap_cons]
      cases j with
      | zero =>
          rw [Nat.mul_zero, field_append_left (by simp), field_bytesLE]
          rfl
      | succ j =>
          have hle : (bytesLE w v).length ≤ w * (j + 1) := by
            rw [length_bytesLE]
            exact Nat.le_mul_of_pos_right w (Nat.succ_pos j)
          have hsub : w * (j + 1) - w = w * j := by
            rw [Nat.mul_succ, Nat.add_sub_cancel]
          rw [field_append_right hle, length_bytesLE, hsub, ih (by simpa using hj)]
          rfl

/-! ### Buffers -/

/-- A buffer of `n` bytes. -/
abbrev Bytes (n : Nat) := Fin n → UInt8

namespace Bytes

variable {n : Nat} {b : Bytes n} {bs : List UInt8} {o o' i k w v : Nat}

/-- The byte at `i`. -/
def get (b : Bytes n) (i : Nat) : UInt8 := if h : i < n then b ⟨i, h⟩ else 0

/-- The `k` bytes from `o` on. -/
def slice (b : Bytes n) (o k : Nat) : List UInt8 := (List.range k).map fun i => b.get (o + i)

/-- The bytes `bs`, moved in at `o`. -/
def splice (b : Bytes n) (o : Nat) (bs : List UInt8) : Bytes n :=
  fun i => if o ≤ i then bs.getD (i - o) (b i) else b i

/-- The little-endian number of `w` bytes at `o`. -/
def read (b : Bytes n) (o w : Nat) : Nat := leNat (b.slice o w)

/-- The low `w` bytes of `v`, little-endian, stored at `o`. -/
def write (b : Bytes n) (o w v : Nat) : Bytes n := b.splice o (bytesLE w v)

@[simp] theorem length_slice : (b.slice o k).length = k := by
  simp [slice]

theorem get_of_lt (h : i < n) : b.get i = b ⟨i, h⟩ := dif_pos h

theorem get_splice_of_mem (hn : i < n) (ho : o ≤ i) (hi : i < o + bs.length) :
    (b.splice o bs).get i = bs[i - o] := by
  rw [get_of_lt hn, splice, if_pos ho]
  exact List.getD_eq_getElem bs _ (show i - o < bs.length by omega)

theorem get_splice_of_disjoint (h : i < o ∨ o + bs.length ≤ i) :
    (b.splice o bs).get i = b.get i := by
  by_cases hn : i < n
  · rw [get_of_lt hn, get_of_lt hn, splice]
    by_cases ho : o ≤ i
    · rw [if_pos ho]
      exact List.getD_eq_default bs _ (show bs.length ≤ i - o by omega)
    · rw [if_neg ho]
  · rw [get, get, dif_neg hn, dif_neg hn]

theorem slice_congr {c : Bytes n} (h : ∀ i, o ≤ i → i < o + k → b.get i = c.get i) :
    b.slice o k = c.slice o k :=
  List.map_congr_left fun i hi => h (o + i) (Nat.le_add_right o i)
    (Nat.add_lt_add_left (List.mem_range.mp hi) o)

theorem slice_splice_of_disjoint (h : o' + k ≤ o ∨ o + bs.length ≤ o') :
    (b.splice o bs).slice o' k = b.slice o' k :=
  slice_congr fun i hi hk => get_splice_of_disjoint (by omega)

theorem slice_splice_self (h : o + bs.length ≤ n) : (b.splice o bs).slice o bs.length = bs := by
  refine List.ext_getElem length_slice fun i hi hi' => ?_
  simp only [slice, List.getElem_map, List.getElem_range]
  rw [get_splice_of_mem (by omega) (by omega) (by omega)]
  simp

/-- What is moved out of the middle of what was moved in. -/
theorem read_splice_sub (ho : o ≤ o') (hw : o' + w ≤ o + bs.length) (hn : o + bs.length ≤ n) :
    (b.splice o bs).read o' w = field bs (o' - o) w := by
  rw [read, field]
  congr 1
  refine List.ext_getElem (by simp; omega) fun i hi hi' => ?_
  simp only [length_slice] at hi
  simp only [slice, List.getElem_map, List.getElem_range, List.getElem_take, List.getElem_drop]
  rw [get_splice_of_mem (by omega) (by omega) (by omega)]
  congr 1
  omega

theorem read_eq_zero (h : ∀ i, o ≤ i → i < o + w → b.get i = 0) : b.read o w = 0 := by
  have hzero : ∀ k, leNat (List.replicate k 0) = 0 := by
    intro k
    induction k with
    | zero => rfl
    | succ k ih => simp [List.replicate_succ, leNat, ih]
  have hslice : b.slice o w = List.replicate w 0 := by
    refine List.ext_getElem (by simp) fun i hi _ => ?_
    rw [length_slice] at hi
    simp only [slice, List.getElem_map, List.getElem_range, List.getElem_replicate]
    exact h (o + i) (Nat.le_add_right o i) (by omega)
  rw [read, hslice, hzero]

/-- There is nothing after the end of the buffer. -/
theorem read_of_le (h : n ≤ o) : b.read o w = 0 :=
  read_eq_zero fun _ hi _ => dif_neg (not_lt.mpr (h.trans hi))

theorem read_write_self (h : o + w ≤ n) (hv : v < 256 ^ w) : (b.write o w v).read o w = v := by
  have hs : (b.splice o (bytesLE w v)).slice o (bytesLE w v).length = bytesLE w v :=
    slice_splice_self (by simpa using h)
  rw [length_bytesLE] at hs
  rw [read, write, hs, leNat_bytesLE, Nat.mod_eq_of_lt hv]

theorem read_splice_of_disjoint (h : o' + w ≤ o ∨ o + bs.length ≤ o') :
    (b.splice o bs).read o' w = b.read o' w := by
  rw [read, slice_splice_of_disjoint h, read]

theorem read_write_of_disjoint {w' : Nat} (h : o' + w' ≤ o ∨ o + w ≤ o') :
    (b.write o w v).read o' w' = b.read o' w' :=
  read_splice_of_disjoint (by simpa using h)

/-! ### Bits -/

/-- Bit `i`, counted from the low bit of the first byte. -/
def testBit (b : Bytes n) (i : Nat) : Bool := (b.get (i / 8)).toNat &&& 1 <<< (i % 8) != 0

def setBit (b : Bytes n) (i : Nat) : Bytes n :=
  b.splice (i / 8) [UInt8.ofNat ((b.get (i / 8)).toNat ||| 1 <<< (i % 8))]

def clearBit (b : Bytes n) (i : Nat) : Bytes n :=
  b.splice (i / 8) [UInt8.ofNat ((b.get (i / 8)).toNat &&& (255 ^^^ 1 <<< (i % 8)))]

theorem testBit_eq : b.testBit i = (b.get (i / 8)).toNat.testBit (i % 8) := by
  rw [testBit, Nat.one_shiftLeft, Nat.and_two_pow]
  cases (b.get (i / 8)).toNat.testBit (i % 8) with
  | false => simp
  | true => simp

/-- Bits after a byte is stored: of that byte, or of another. -/
theorem testBit_splice {x : Nat} (hx : x < 256) (hi : i < 8 * n) (j : Nat) :
    (b.splice (i / 8) [UInt8.ofNat x]).testBit j =
      if j / 8 = i / 8 then x.testBit (j % 8) else b.testBit j := by
  rw [testBit_eq]
  by_cases hj : j / 8 = i / 8
  · rw [if_pos hj, get_splice_of_mem (by omega) (by omega) (by simp; omega)]
    simp only [hj, Nat.sub_self, List.getElem_cons_zero, UInt8.toNat_ofNat']
    rw [Nat.mod_eq_of_lt hx]
  · rw [if_neg hj, get_splice_of_disjoint (by simp only [List.length_singleton]; omega), testBit_eq]

theorem testBit_setBit (hi : i < 8 * n) (j : Nat) :
    (b.setBit i).testBit j = (decide (j = i) || b.testBit j) := by
  have hb : (b.get (i / 8)).toNat < 2 ^ 8 := (b.get (i / 8)).toNat_lt
  have hm : 1 <<< (i % 8) < 2 ^ 8 := by
    rw [Nat.one_shiftLeft]
    exact Nat.pow_lt_pow_right (by decide) (Nat.mod_lt _ (by decide))
  rw [setBit, testBit_splice (Nat.or_lt_two_pow hb hm) hi, testBit_eq]
  by_cases hj : j / 8 = i / 8
  · have hji : (i % 8 = j % 8) ↔ j = i := by omega
    rw [if_pos hj, hj, Nat.testBit_or, Nat.one_shiftLeft, Nat.testBit_two_pow, Bool.or_comm]
    simp only [hji]
  · have hji : j ≠ i := fun h => hj (by rw [h])
    rw [if_neg hj, decide_eq_false hji, Bool.false_or]

theorem testBit_clearBit (hi : i < 8 * n) (j : Nat) :
    (b.clearBit i).testBit j = (!decide (j = i) && b.testBit j) := by
  have hx : (b.get (i / 8)).toNat &&& (255 ^^^ 1 <<< (i % 8)) < 256 :=
    Nat.and_le_left.trans_lt (b.get (i / 8)).toNat_lt
  rw [clearBit, testBit_splice hx hi, testBit_eq]
  by_cases hj : j / 8 = i / 8
  · have hji : (i % 8 = j % 8) ↔ j = i := by omega
    have hlow : Nat.testBit 255 (j % 8) = true := by
      rw [show 255 = 2 ^ 8 - 1 from rfl, Nat.testBit_two_pow_sub_one]
      exact decide_eq_true (Nat.mod_lt _ (by decide))
    rw [if_pos hj, hj, Nat.testBit_and, Nat.testBit_xor, hlow, Nat.one_shiftLeft,
      Nat.testBit_two_pow, Bool.and_comm]
    simp only [hji, Bool.true_xor]
  · have hji : j ≠ i := fun h => hj (by rw [h])
    rw [if_neg hj, decide_eq_false hji, Bool.not_false, Bool.true_and]

end Bytes

end Xv6.Lib
