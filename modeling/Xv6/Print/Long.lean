import Mathlib

/-!
# Print — `%l`

`printint` and `printlong` of `printf.c` and `console.c`, which differ in their digits and in where the characters go.
What they emit is a list of characters.

`printlong` prints the upper half of its number, unless it is 0, and then the lower half, each without leading zeros.
So the digits read back as the number only if the upper half is 0 or the lower half has all its eight digits
(`printlong_reads_back`).
-/

namespace Xv6.Print

/-- `digits` of `printf.c`. -/
def upperDigits : List Char := "0123456789ABCDEF".toList

/-- `digits` of `console.c`. -/
def lowerDigits : List Char := "0123456789abcdef".toList

/-- The loop of `printint`, for `fuel` rounds at most: the digits of `x`, the last one first. -/
def digitLoop (digits : List Char) (base : Nat) : (fuel x : Nat) → List Char
  | 0, _ => []
  | fuel + 1, x =>
      digits.getD (x % base) '0' :: if x / base ≠ 0 then digitLoop digits base fuel (x / base) else []

/-- `printint`; 32 rounds are enough for every base from 2 on. -/
def printint (digits : List Char) (xx : Int32) (base : Nat) (sgn : Bool) : List Char :=
  if sgn ∧ xx < 0 then '-' :: (digitLoop digits base 32 (-xx).toUInt32.toNat).reverse
  else (digitLoop digits base 32 xx.toUInt32.toNat).reverse

/-- `printlong`; what it gets for `base` and `sgn` is not looked at. -/
def printlong (digits : List Char) (xx : UInt64) (_base : Nat) (_sgn : Bool) : List Char :=
  let upper := (xx >>> 32).toUInt32
  let lower := (xx &&& 0xffffffff).toUInt32
  (if upper ≠ 0 then printint digits upper.toInt32 16 false else []) ++ printint digits lower.toInt32 16 false

namespace Printf

/-- `printint` of `printf.c`. -/
def printint : Int32 → Nat → Bool → List Char := Print.printint upperDigits

/-- `printlong` of `printf.c`. -/
def printlong : UInt64 → Nat → Bool → List Char := Print.printlong upperDigits

end Printf

namespace Console

/-- `printint` of `console.c`. -/
def printint : Int32 → Nat → Bool → List Char := Print.printint lowerDigits

/-- `printlong` of `console.c`. -/
def printlong : UInt64 → Nat → Bool → List Char := Print.printlong lowerDigits

end Console

/-- What a hexadecimal digit stands for. -/
def hexValue (c : Char) : Nat :=
  if c.isDigit then c.toNat - '0'.toNat
  else if c.isLower then c.toNat - 'a'.toNat + 10
  else c.toNat - 'A'.toNat + 10

/-- The number that hexadecimal digits stand for. -/
def readHex (cs : List Char) : Nat := cs.foldl (fun n c => 16 * n + hexValue c) 0

/-- `digits` has the hexadecimal digits. -/
def Hex (digits : List Char) : Prop := ∀ d < 16, hexValue (digits.getD d '0') = d

theorem hex_upperDigits : Hex upperDigits := by
  unfold Hex
  decide

theorem hex_lowerDigits : Hex lowerDigits := by
  unfold Hex
  decide

section Read
variable {digits : List Char} {fuel x : Nat}

/-- The value of digits with the last one first. -/
def value : List Char → Nat
  | [] => 0
  | c :: cs => hexValue c + 16 * value cs

theorem readHex_append (cs ds : List Char) : readHex (cs ++ ds) = 16 ^ ds.length * readHex cs + readHex ds := by
  induction ds using List.reverseRecOn with
  | nil => simp [readHex]
  | append_singleton ds c ih =>
      have hsnoc : ∀ es : List Char, readHex (es ++ [c]) = 16 * readHex es + hexValue c := by
        intro es
        rw [readHex, List.foldl_append]
        rfl
      rw [← List.append_assoc, hsnoc, hsnoc, ih, List.length_append, List.length_singleton, pow_succ]
      ring

theorem readHex_reverse (cs : List Char) : readHex cs.reverse = value cs := by
  induction cs with
  | nil => rfl
  | cons c cs ih =>
      have hone : readHex [c] = hexValue c := by simp [readHex]
      rw [List.reverse_cons, readHex_append, ih, value, List.length_singleton, pow_one, hone, Nat.add_comm]

/-- The digits of the loop stand for the number, when there are enough rounds. -/
theorem value_digitLoop (h : Hex digits) (hfuel : x < 16 ^ (fuel + 1)) :
    value (digitLoop digits 16 (fuel + 1) x) = x := by
  induction fuel generalizing x with
  | zero =>
      have hx : x / 16 = 0 := Nat.div_eq_of_lt (by simpa using hfuel)
      rw [digitLoop, if_neg (by rw [hx]; exact fun h => h rfl), value, value, h _ (Nat.mod_lt _ (by decide))]
      omega
  | succ fuel ih =>
      rw [digitLoop, value, h _ (Nat.mod_lt _ (by decide))]
      split
      · rw [ih (by rw [pow_succ] at hfuel; omega)]
        omega
      · rename_i hx
        rw [not_not] at hx
        rw [value]
        omega

/-- How many digits there are. -/
theorem length_digitLoop (hfuel : x < 16 ^ (fuel + 1)) (k : Nat) :
    (digitLoop digits 16 (fuel + 1) x).length ≤ k + 1 ↔ x < 16 ^ (k + 1) := by
  induction fuel generalizing x k with
  | zero =>
      have hx : x / 16 = 0 := Nat.div_eq_of_lt (by simpa using hfuel)
      have hle : 16 ^ (0 + 1) ≤ 16 ^ (k + 1) := Nat.pow_le_pow_right (by decide) (by omega)
      rw [digitLoop, if_neg (by rw [hx]; exact fun h => h rfl)]
      exact iff_of_true (Nat.le_add_left 1 k) (hfuel.trans_le hle)
  | succ fuel ih =>
      rw [digitLoop, List.length_cons]
      split
      · rename_i hx
        have hdiv : x / 16 < 16 ^ (fuel + 1) := by
          rw [pow_succ] at hfuel
          omega
        cases k with
        | zero =>
            have hpos : 0 < (digitLoop digits 16 (fuel + 1) (x / 16)).length := Nat.succ_pos _
            refine iff_of_false (by omega) ?_
            rw [zero_add, pow_one]
            omega
        | succ k =>
            rw [Nat.add_le_add_iff_right, ih hdiv k, pow_succ 16 (k + 1)]
            omega
      · rename_i hx
        rw [not_not] at hx
        have hsmall : x < 16 := by omega
        have hle : 16 ^ 1 ≤ 16 ^ (k + 1) := Nat.pow_le_pow_right (by decide) (by omega)
        exact iff_of_true (Nat.le_add_left 1 k) (by omega)

end Read

section Long
variable {digits : List Char}

/-- `printint` as `printlong` calls it: the `int` is the `uint` again. -/
theorem printint_hex (x : UInt32) : printint digits x.toInt32 16 false = (digitLoop digits 16 32 x.toNat).reverse := by
  rw [printint, if_neg (by simp)]
  rfl

theorem readHex_printint (h : Hex digits) (x : UInt32) : readHex (printint digits x.toInt32 16 false) = x.toNat := by
  have hx := x.toNat_lt
  rw [printint_hex, readHex_reverse, value_digitLoop h (hx.trans (by norm_num))]

/-- A number has eight digits from `16 ^ 7` on. -/
theorem length_printint (digits : List Char) (x : UInt32) : (printint digits x.toInt32 16 false).length ≤ 8 ∧
    ((printint digits x.toInt32 16 false).length ≤ 7 ↔ x.toNat < 16 ^ 7) := by
  have hx := x.toNat_lt
  have hbig : x.toNat < 16 ^ (31 + 1) := hx.trans (by norm_num)
  rw [printint_hex, List.length_reverse]
  exact ⟨(length_digitLoop hbig 7).mpr hx, length_digitLoop hbig 6⟩

theorem toNat_lower (v : UInt64) : (v &&& 0xffffffff).toUInt32.toNat = v.toNat % 2 ^ 32 := by
  have hmask : (0xffffffff : UInt64).toNat = 2 ^ 32 - 1 := by decide
  rw [UInt64.toNat_toUInt32, UInt64.toNat_and, hmask, Nat.and_two_pow_sub_one_eq_mod, Nat.mod_mod]

theorem toNat_upper (v : UInt64) : (v >>> 32).toUInt32.toNat = v.toNat / 2 ^ 32 := by
  have hv := v.toNat_lt
  have hshift : (32 : UInt64).toNat % 64 = 32 := by decide
  rw [UInt64.toNat_toUInt32, UInt64.toNat_shiftRight, hshift, Nat.shiftRight_eq_div_pow]
  omega

/-- What the digits of `printlong` read back as. -/
theorem readHex_printlong (h : Hex digits) (v : UInt64) (base : Nat) (sgn : Bool) :
    readHex (printlong digits v base sgn) =
      16 ^ (printint digits (v &&& 0xffffffff).toUInt32.toInt32 16 false).length * (v.toNat / 2 ^ 32) +
        v.toNat % 2 ^ 32 := by
  rw [printlong, readHex_append, readHex_printint h, toNat_lower]
  split
  · rw [readHex_printint h, toNat_upper]
  · rename_i hzero
    rw [not_not] at hzero
    have h0 : v.toNat / 2 ^ 32 = 0 := by rw [← toNat_upper, hzero]; rfl
    rw [h0]
    rfl

theorem printlong_reads_back (h : Hex digits) (v : UInt64) (base : Nat) (sgn : Bool) :
    readHex (printlong digits v base sgn) = v.toNat ↔ v.toNat < 2 ^ 32 ∨ 2 ^ 28 ≤ v.toNat % 2 ^ 32 := by
  obtain ⟨hle, hshort⟩ := length_printint digits (v &&& 0xffffffff).toUInt32
  rw [toNat_lower] at hshort
  rw [readHex_printlong h]
  generalize hlen : (printint digits (v &&& 0xffffffff).toUInt32.toInt32 16 false).length = len at hle hshort ⊢
  have hsplit : v.toNat = 16 ^ 8 * (v.toNat / 2 ^ 32) + v.toNat % 2 ^ 32 := (Nat.div_add_mod v.toNat (2 ^ 32)).symm
  constructor
  · intro hread
    by_cases hupper : v.toNat / 2 ^ 32 = 0
    · left
      omega
    · right
      -- the lower half was printed with eight digits
      have hpow : 16 ^ len = 16 ^ 8 := by
        refine Nat.eq_of_mul_eq_mul_right (Nat.pos_of_ne_zero hupper) ?_
        omega
      have height : len = 8 := Nat.pow_right_injective (by decide : 2 ≤ 16) hpow
      omega
  · rintro (hsmall | height)
    · have hupper : v.toNat / 2 ^ 32 = 0 := Nat.div_eq_of_lt hsmall
      rw [hupper, Nat.mul_zero, Nat.zero_add, Nat.mod_eq_of_lt hsmall]
    · have hlen8 : len = 8 := by omega
      rw [hlen8]
      exact hsplit.symm

end Long

/-- **`%l`**, for the program and for the kernel: the digits read back as the number if and only if its upper half is 0,
or its lower half has eight digits. -/
theorem long_reads_back (v : UInt64) (base : Nat) (sgn : Bool) :
    (readHex (Printf.printlong v base sgn) = v.toNat ↔ v.toNat < 2 ^ 32 ∨ 2 ^ 28 ≤ v.toNat % 2 ^ 32) ∧
      (readHex (Console.printlong v base sgn) = v.toNat ↔ v.toNat < 2 ^ 32 ∨ 2 ^ 28 ≤ v.toNat % 2 ^ 32) :=
  ⟨printlong_reads_back hex_upperDigits v base sgn, printlong_reads_back hex_lowerDigits v base sgn⟩

/-- `2 ^ 32` is printed as `16` is. -/
theorem long_loses_zeros : Printf.printlong 0x100000000 10 false = Printf.printlong 0x10 10 false ∧
    Console.printlong 0x100000000 10 false = Console.printlong 0x10 10 false := by
  decide

end Xv6.Print
