import Mathlib

/-!
# Rand — the generator and the bounded draw

`rand.c`: the MT19937 generator (`sgenrand`, `genrand`) and `random_at_most`, on the 32-bit
`long` and `unsigned long` of the i386 build.

`randomAtMost max raws` runs the draw on the values `raws` that successive calls of `genrand`
return.  It ends in a value, in a divide error, or, when every value given is rejected, still in
its loop.  `CanDraw max w` says that some values of the generator make it return `w`.

For `0 ≤ max` the draws are exactly the integers of `[0, max]` (`canDraw_iff`), each for the same
number of values of the generator (`draw_unbiased`).  The source's comment calls this interval
half-open; it is closed.
-/

namespace Xv6.Rand

/-! ### The generator -/

/-- `N`, the number of words of the state vector. -/
def N : Nat := 624

/-- `M`, the offset of the recurrence. -/
def M : Nat := 397

def matrixA : UInt32 := 0x9908b0df
def upperMask : UInt32 := 0x80000000
def lowerMask : UInt32 := 0x7fffffff
def temperingMaskB : UInt32 := 0x9d2c5680
def temperingMaskC : UInt32 := 0xefc60000

/-- `RAND_MAX`. -/
def randMax : UInt32 := 0x7fffffff

/-- The static variables `mt` and `mti`; the cells of `mt` are those below `N`. -/
structure Gen where
  mt : Nat → UInt32
  mti : Nat

/-- The variables before `sgenrand` is called. -/
def Gen.init : Gen := ⟨fun _ => 0, N + 1⟩

def sgenrand (g : Gen) (seed : UInt32) : Gen where
  mt := (List.range' 1 (N - 1)).foldl
    (fun mt i => Function.update mt i (69069 * mt (i - 1) &&& 0xffffffff))
    (Function.update g.mt 0 (seed &&& 0xffffffff))
  mti := N

def mag01 (y : UInt32) : UInt32 := if y &&& 1 = 0 then 0 else matrixA

/-- One assignment to `mt[kk]`, from the words at `next` and `other`. -/
def twist (mt : Nat → UInt32) (kk next other : Nat) : Nat → UInt32 :=
  let y := (mt kk &&& upperMask) ||| (mt next &&& lowerMask)
  Function.update mt kk (mt other ^^^ (y >>> 1) ^^^ mag01 y)

/-- The two loops and the last word of `genrand`'s refill. -/
def refill (mt : Nat → UInt32) : Nat → UInt32 :=
  let mt := (List.range (N - M)).foldl (fun mt kk => twist mt kk (kk + 1) (kk + M)) mt
  let mt := (List.range' (N - M) (M - 1)).foldl
    (fun mt kk => twist mt kk (kk + 1) (kk - (N - M))) mt
  twist mt (N - 1) 0 (M - 1)

def temper (y : UInt32) : UInt32 :=
  let y := y ^^^ (y >>> 11)
  let y := y ^^^ ((y <<< 7) &&& temperingMaskB)
  let y := y ^^^ ((y <<< 15) &&& temperingMaskC)
  y ^^^ (y >>> 18)

def genrand (g : Gen) : UInt32 × Gen :=
  let g :=
    if N ≤ g.mti then
      let g := if g.mti = N + 1 then sgenrand g 4357 else g
      { mt := refill g.mt, mti := 0 }
    else g
  (temper (g.mt g.mti) &&& randMax, { g with mti := g.mti + 1 })

/-! ### The draw -/

/-- `num_bins = (unsigned long) max + 1`. -/
def numBins (max : Int32) : UInt32 := max.toUInt32 + 1

/-- `num_rand = (unsigned long) RAND_MAX + 1`. -/
def numRand : UInt32 := randMax + 1

/-- `bin_size = num_rand / num_bins`. -/
def binSize (max : Int32) : UInt32 := numRand / numBins max

/-- `defect = num_rand % num_bins`. -/
def defect (max : Int32) : UInt32 := numRand % numBins max

/-- The loop is left at `x`: its condition `num_rand - defect <= (unsigned long) x` fails. -/
def accepts (max : Int32) (x : UInt32) : Bool := !(numRand - defect max ≤ x)

/-- How a call of `random_at_most` ends on given values of the generator. -/
inductive Draw where
  | value (w : Int32)
  /-- a division by zero traps -/
  | divideError
  /-- every value given was rejected -/
  | looping
  deriving DecidableEq, Repr

def randomAtMost (max : Int32) (raws : List UInt32) : Draw :=
  if numBins max = 0 then .divideError
  else
    match raws.find? (accepts max) with
    | none => .looping
    | some x => if binSize max = 0 then .divideError else .value (x / binSize max).toInt32

/-- Some values of the generator make `random_at_most(max)` return `w`. -/
def CanDraw (max w : Int32) : Prop :=
  ∃ raws : List UInt32, (∀ x ∈ raws, x ≤ randMax) ∧ randomAtMost max raws = .value w

@[simp] theorem toNat_numRand : numRand.toNat = 2 ^ 31 := rfl

theorem toNat_toUInt32_of_nonneg {x : Int32} (h : 0 ≤ x.toInt) :
    x.toUInt32.toNat = x.toInt.toNat :=
  Int32.toNat_toUInt32_of_le (Int32.le_iff_toInt_le.mpr h)

section Nonneg

variable {max : Int32} (h : 0 ≤ max.toInt)

include h

/-- `max + 1` does not wrap. -/
theorem toNat_numBins : (numBins max).toNat = max.toInt.toNat + 1 := by
  have := max.toInt_lt
  rw [numBins, UInt32.toNat_add, toNat_toUInt32_of_nonneg h, UInt32.toNat_one]
  omega

theorem numBins_ne_zero : numBins max ≠ 0 := by
  intro h0
  have := toNat_numBins h
  rw [h0, UInt32.toNat_zero] at this
  omega

theorem toNat_binSize : (binSize max).toNat = 2 ^ 31 / (max.toInt.toNat + 1) := by
  rw [binSize, UInt32.toNat_div, toNat_numBins h, toNat_numRand]

theorem toNat_binSize_pos : 0 < (binSize max).toNat := by
  have := max.toInt_lt
  rw [toNat_binSize h]
  exact Nat.div_pos (by omega) (by omega)

theorem binSize_ne_zero : binSize max ≠ 0 := by
  intro h0
  have := toNat_binSize_pos h
  rw [h0, UInt32.toNat_zero] at this
  omega

/-- The rejection test leaves exactly the first `num_bins * bin_size` values. -/
theorem accepts_iff (x : UInt32) :
    accepts max x = true ↔ x.toNat < (max.toInt.toNat + 1) * (binSize max).toNat := by
  have hd : (defect max).toNat = 2 ^ 31 % (max.toInt.toNat + 1) := by
    rw [defect, UInt32.toNat_mod, toNat_numBins h, toNat_numRand]
  have hdm := Nat.div_add_mod (2 ^ 31) (max.toInt.toNat + 1)
  have hsub : (numRand - defect max).toNat = 2 ^ 31 - (defect max).toNat := by
    rw [UInt32.toNat_sub, toNat_numRand]
    have := Nat.mod_le (2 ^ 31) (max.toInt.toNat + 1)
    omega
  simp only [accepts, Bool.not_eq_true', decide_eq_false_iff_not]
  rw [UInt32.le_iff_toNat_le, hsub, hd, toNat_binSize h]
  omega

theorem accepts_zero : accepts max 0 = true := by
  rw [accepts_iff h, UInt32.toNat_zero]
  exact Nat.mul_pos (by omega) (toNat_binSize_pos h)

/-- An accepted value of the generator falls in one of the `max + 1` bins. -/
theorem toNat_div_binSize_le {x : UInt32} (hx : accepts max x = true) :
    (x / binSize max).toNat ≤ max.toInt.toNat := by
  rw [accepts_iff h, mul_comm] at hx
  rw [UInt32.toNat_div]
  exact Nat.lt_succ_iff.mp (Nat.div_lt_of_lt_mul hx)

/-- The value whose quotient is `w`, the first of bin `w`. -/
theorem exists_raw {w : Nat} (hw : w ≤ max.toInt.toNat) :
    ∃ x : UInt32, x ≤ randMax ∧ accepts max x = true ∧ (x / binSize max).toNat = w := by
  have hpos := toNat_binSize_pos h
  have hlt : w * (binSize max).toNat < (max.toInt.toNat + 1) * (binSize max).toNat :=
    Nat.mul_lt_mul_of_pos_right (by omega) hpos
  have hle : (max.toInt.toNat + 1) * (binSize max).toNat ≤ 2 ^ 31 := by
    rw [toNat_binSize h]
    exact Nat.mul_div_le _ _
  have hx : (UInt32.ofNat (w * (binSize max).toNat)).toNat = w * (binSize max).toNat :=
    UInt32.toNat_ofNat_of_lt (by simp only [UInt32.size]; omega)
  refine ⟨UInt32.ofNat (w * (binSize max).toNat), ?_, ?_, ?_⟩
  · rw [UInt32.le_iff_toNat_le, hx]
    show _ ≤ 2147483647
    omega
  · rw [accepts_iff h, hx]
    exact hlt
  · rw [UInt32.toNat_div, hx]
    exact Nat.mul_div_cancel _ hpos

end Nonneg

/-- A quotient below `2 ^ 31` is itself as a `long`. -/
theorem toInt_toInt32_of_lt {x : UInt32} (hx : x.toNat < 2 ^ 31) :
    x.toInt32.toInt = (x.toNat : ℤ) :=
  BitVec.toInt_eq_toNat_of_lt (show 2 * x.toNat < 2 ^ 32 by omega)

/-- **The draws of `random_at_most(max)` are the integers of `[0, max]`.** -/
theorem canDraw_iff {max : Int32} (h : 0 ≤ max.toInt) (w : Int32) :
    CanDraw max w ↔ 0 ≤ w.toInt ∧ w.toInt ≤ max.toInt := by
  have hmax := max.toInt_lt
  constructor
  · rintro ⟨raws, -, hr⟩
    rw [randomAtMost, if_neg (numBins_ne_zero h)] at hr
    cases hf : raws.find? (accepts max) with
    | none => rw [hf] at hr; cases hr
    | some x =>
        simp only [hf, if_neg (binSize_ne_zero h), Draw.value.injEq] at hr
        have hle := toNat_div_binSize_le h (List.find?_some hf)
        rw [← hr, toInt_toInt32_of_lt (by omega)]
        omega
  · rintro ⟨h0, hw⟩
    obtain ⟨x, hx, hacc, hq⟩ := exists_raw h (w := w.toInt.toNat) (by omega)
    refine ⟨[x], by simpa using hx, ?_⟩
    rw [randomAtMost, if_neg (numBins_ne_zero h)]
    simp only [List.find?_cons_of_pos hacc, if_neg (binSize_ne_zero h), Draw.value.injEq]
    rw [← Int32.toInt_inj, toInt_toInt32_of_lt (by omega), hq]
    omega

/-- A negative `long` cast to `unsigned long`. -/
theorem toNat_toUInt32_of_neg {x : Int32} (h : x.toInt < 0) :
    (x.toUInt32.toNat : ℤ) = 2 ^ 32 + x.toInt := by
  have hi : x.toInt = x.toBitVec.toInt := rfl
  have hn : x.toUInt32.toNat = x.toBitVec.toNat := rfl
  have hlt := x.toBitVec.isLt
  have hc := BitVec.toInt_eq_toNat_cond x.toBitVec
  split at hc <;> omega

/-- A negative `max` returns no draw: at `-1` the number of bins wraps to `0` and the division
traps; below, there are more bins than values, so every value is rejected. -/
theorem not_canDraw_of_neg {max : Int32} (h : max.toInt < 0) (w : Int32) : ¬ CanDraw max w := by
  rintro ⟨raws, hraws, hr⟩
  by_cases h0 : numBins max = 0
  · rw [randomAtMost, if_pos h0] at hr
    cases hr
  · have hc := toNat_toUInt32_of_neg h
    have hle := max.le_toInt
    have hbins : 2 ^ 31 < (numBins max).toNat := by
      have hne : (numBins max).toNat ≠ 0 := fun h' => h0 (UInt32.toNat_inj.mp h')
      rw [numBins, UInt32.toNat_add, UInt32.toNat_one] at hne ⊢
      omega
    have hdef : (defect max).toNat = 2 ^ 31 := by
      rw [defect, UInt32.toNat_mod, toNat_numRand, Nat.mod_eq_of_lt hbins]
    have hrej : ∀ x ∈ raws, ¬ accepts max x = true := by
      intro x _
      simp only [accepts, Bool.not_eq_true', decide_eq_false_iff_not, not_not]
      rw [UInt32.le_iff_toNat_le, UInt32.toNat_sub, hdef, toNat_numRand]
      omega
    rw [randomAtMost, if_neg h0, List.find?_eq_none.mpr hrej] at hr
    cases hr

/-! ### The bins -/

/-- The words of an interval. -/
theorem ncard_words {a b : Nat} (hb : b ≤ 2 ^ 32) :
    {x : UInt32 | a ≤ x.toNat ∧ x.toNat < b}.ncard = b - a := by
  have himage : UInt32.toNat '' {x : UInt32 | a ≤ x.toNat ∧ x.toNat < b} = Set.Ico a b := by
    ext n
    constructor
    · rintro ⟨x, hx, rfl⟩
      exact hx
    · intro hn
      have hlt : n < UInt32.size := hn.2.trans_le hb
      have hword : (UInt32.ofNat n).toNat = n := UInt32.toNat_ofNat_of_lt hlt
      refine ⟨UInt32.ofNat n, ?_, hword⟩
      rw [Set.mem_ofPred_eq, hword]
      exact hn
  have hinj : Function.Injective UInt32.toNat := fun x y h => UInt32.toNat_inj.mp h
  rw [← Set.ncard_image_of_injective _ hinj, himage, ← Finset.coe_Ico, Set.ncard_coe_finset, Nat.card_Ico]

section Bins
variable {max : Int32} (h : 0 ≤ max.toInt)

include h

theorem bins_le : (max.toInt.toNat + 1) * (binSize max).toNat ≤ 2 ^ 31 := by
  rw [toNat_binSize h]
  exact Nat.mul_div_le _ _

/-- Less than a bin is rejected for each bin, so less than half of the values. -/
theorem lt_two_mul_bins : 2 ^ 31 < 2 * ((max.toInt.toNat + 1) * (binSize max).toNat) := by
  have hdiv := Nat.div_add_mod (2 ^ 31) (max.toInt.toNat + 1)
  have hmod := Nat.mod_lt (2 ^ 31) (Nat.add_one_pos max.toInt.toNat)
  have hbin : max.toInt.toNat + 1 ≤ (max.toInt.toNat + 1) * (binSize max).toNat :=
    Nat.le_mul_of_pos_right _ (toNat_binSize_pos h)
  rw [toNat_binSize h] at hbin ⊢
  omega

theorem le_randMax_of_accepts {x : UInt32} (hx : accepts max x = true) : x ≤ randMax := by
  have hle := bins_le h
  rw [accepts_iff h] at hx
  rw [UInt32.le_iff_toNat_le]
  change x.toNat ≤ 2147483647
  omega

theorem toInt_div_binSize {x : UInt32} (hx : accepts max x = true) :
    (x / binSize max).toInt32.toInt = ((x.toNat / (binSize max).toNat : Nat) : ℤ) := by
  have hle := toNat_div_binSize_le h hx
  have hmax := max.toInt_lt
  rw [toInt_toInt32_of_lt (by omega), UInt32.toNat_div]

/-- The values of bin `r`. -/
theorem bin_eq {r : Int32} (h0 : 0 ≤ r.toInt) (hr : r.toInt ≤ max.toInt) :
    {x : UInt32 | x ≤ randMax ∧ accepts max x = true ∧ (x / binSize max).toInt32 = r} =
      {x : UInt32 | r.toInt.toNat * (binSize max).toNat ≤ x.toNat ∧
        x.toNat < (r.toInt.toNat + 1) * (binSize max).toNat} := by
  have hpos := toNat_binSize_pos h
  have hbins : (r.toInt.toNat + 1) * (binSize max).toNat ≤ (max.toInt.toNat + 1) * (binSize max).toNat :=
    Nat.mul_le_mul_right _ (by omega)
  ext x
  rw [Set.mem_ofPred_eq, Set.mem_ofPred_eq]
  have hquot : x.toNat / (binSize max).toNat = r.toInt.toNat ↔
      r.toInt.toNat * (binSize max).toNat ≤ x.toNat ∧
        x.toNat < (r.toInt.toNat + 1) * (binSize max).toNat := by
    rw [Nat.div_eq_iff hpos, Nat.succ_mul]
    omega
  constructor
  · rintro ⟨-, hx, rfl⟩
    rw [← hquot, toInt_div_binSize h hx, Int.toNat_natCast]
  · intro hx
    have haccepts : accepts max x = true := by
      rw [accepts_iff h]
      omega
    refine ⟨le_randMax_of_accepts h haccepts, haccepts, ?_⟩
    rw [← Int32.toInt_inj, toInt_div_binSize h haccepts, hquot.mpr hx]
    omega

end Bins

/-- **The draw is unbiased.**  The values accepted are the first `num_bins * bin_size`, more than half of
all; each gives a value of `[0, max]`, and each value is that of `bin_size` of them. -/
theorem draw_unbiased {max : Int32} (h : 0 ≤ max.toInt) :
    (∀ x ≤ randMax, accepts max x = true ↔ x.toNat < (numBins max).toNat * (binSize max).toNat) ∧
    randMax.toNat + 1 ≤ 2 * {x : UInt32 | x ≤ randMax ∧ accepts max x = true}.ncard ∧
    (∀ x raws, accepts max x = true → ∃ r, randomAtMost max (x :: raws) = .value r ∧
      r.toInt = ((x.toNat / (binSize max).toNat : Nat) : ℤ) ∧ 0 ≤ r.toInt ∧ r.toInt ≤ max.toInt) ∧
    ∀ r : Int32, 0 ≤ r.toInt → r.toInt ≤ max.toInt →
      {x : UInt32 | x ≤ randMax ∧ accepts max x = true ∧ randomAtMost max [x] = .value r}.ncard =
        (binSize max).toNat := by
  have hle := bins_le h
  have hvalue : ∀ x raws, accepts max x = true →
      randomAtMost max (x :: raws) = .value (x / binSize max).toInt32 := by
    intro x raws hx
    rw [randomAtMost, if_neg (numBins_ne_zero h)]
    simp only [List.find?_cons_of_pos hx, if_neg (binSize_ne_zero h)]
  refine ⟨fun x _ => ?_, ?_, fun x raws hx => ?_, fun r h0 hr => ?_⟩
  · rw [accepts_iff h, toNat_numBins h]
  · have hset : {x : UInt32 | x ≤ randMax ∧ accepts max x = true} =
        {x : UInt32 | 0 ≤ x.toNat ∧ x.toNat < (max.toInt.toNat + 1) * (binSize max).toNat} := by
      ext x
      rw [Set.mem_ofPred_eq, Set.mem_ofPred_eq, ← accepts_iff h]
      exact ⟨fun hx => ⟨Nat.zero_le _, hx.2⟩, fun hx => ⟨le_randMax_of_accepts h hx.2, hx.2⟩⟩
    have hhalf := lt_two_mul_bins h
    have hrand : randMax.toNat + 1 = 2 ^ 31 := rfl
    rw [hset, ncard_words (by omega), Nat.sub_zero, hrand]
    exact hhalf.le
  · have hquot := toNat_div_binSize_le h hx
    rw [UInt32.toNat_div] at hquot
    refine ⟨_, hvalue x raws hx, toInt_div_binSize h hx, ?_, ?_⟩
    · rw [toInt_div_binSize h hx]
      exact Int.natCast_nonneg _
    · rw [toInt_div_binSize h hx]
      omega
  · have hset : {x : UInt32 | x ≤ randMax ∧ accepts max x = true ∧ randomAtMost max [x] = .value r} =
        {x : UInt32 | x ≤ randMax ∧ accepts max x = true ∧ (x / binSize max).toInt32 = r} := by
      ext x
      refine and_congr_right fun _ => and_congr_right fun hx => ?_
      rw [hvalue x [] hx, Draw.value.injEq]
    have hbins : (r.toInt.toNat + 1) * (binSize max).toNat ≤ (max.toInt.toNat + 1) * (binSize max).toNat :=
      Nat.mul_le_mul_right _ (by omega)
    rw [hset, bin_eq h h0 hr, ncard_words (by omega), Nat.succ_mul]
    omega

/-- A die: of the 2147483648 values, 2147483646 are accepted, 357913941 for each face. -/
theorem draw_five_unbiased : (0 : ℤ) ≤ (5 : Int32).toInt ∧
    {x : UInt32 | x ≤ randMax ∧ accepts 5 x = true ∧ randomAtMost 5 [x] = .value 3}.ncard = 357913941 :=
  ⟨by decide, (@draw_unbiased 5 (by decide)).2.2.2 3 (by decide) (by decide)⟩

end Xv6.Rand
