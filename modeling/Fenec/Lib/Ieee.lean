/-
# IEEE 754 binary interchange formats, by their bits

A number is its sign-and-magnitude word; nothing here evaluates a machine float.  Two facts
make the format workable without any real analysis:

1. **comparison is on the word.**  With the sign folded in, the magnitude word orders the
   numbers (`ord`), both zeros landing on `0`; only NaN has to be taken out first.
2. **every finite number is a whole count of the least subnormal** (`scaled`), so sums,
   products, quotients and conversions are exact arithmetic on naturals followed by one
   rounding, `roundMag`.

`roundMag` is the only rounding in the file, to nearest with ties to even.  What is used of it is
that it gives back a number that is already in the format (`roundMag_scaledMag`).
-/
import Mathlib.Data.Nat.Log
import Mathlib.Tactic.Ring
import Mathlib.Tactic.Linarith
import Mathlib.Tactic.NormNum

namespace Fenec.Lib

/-! ## 1. The word -/

/-- A binary interchange number with `e` exponent bits and `m` fraction bits. -/
structure Ieee (e m : Nat) where
  bits : BitVec (1 + e + m)
deriving DecidableEq

namespace Ieee

variable {e m : Nat}

/-- The number whose word is `n`, taken modulo the format's width. -/
def ofWord (n : Nat) : Ieee e m := ⟨BitVec.ofNat _ n⟩

/-- The word without its sign bit. -/
def mag (x : Ieee e m) : Nat := x.bits.toNat % 2 ^ (e + m)

/-- Whether the sign bit is set. -/
def neg (x : Ieee e m) : Bool := decide (2 ^ (e + m) ≤ x.bits.toNat)

/-- The magnitude of infinity: an exponent of ones over an empty fraction. -/
def infMag (e m : Nat) : Nat := (2 ^ e - 1) * 2 ^ m

/-- Not a number: a magnitude past infinity's. -/
def isNaN (x : Ieee e m) : Bool := decide (infMag e m < x.mag)

/-- Neither infinite nor NaN. -/
def isFinite (x : Ieee e m) : Bool := decide (x.mag < infMag e m)

/-- **The key numbers compare by.**  Both zeros have key `0`. -/
def ord (x : Ieee e m) : Int := if x.neg then -(x.mag : Int) else x.mag

/-- The three-way comparison; no answer where either side is NaN. -/
def partialCmp (x y : Ieee e m) : Option Ordering :=
  if x.isNaN || y.isNaN then none else some (compare x.ord y.ord)

/-- `x == y` as the format compares: zeros alike, NaN unlike everything. -/
def beq (x y : Ieee e m) : Bool := x.partialCmp y == some .eq

/-- `x < y`, false on NaN. -/
def lt (x y : Ieee e m) : Bool := x.partialCmp y == some .lt

/-- `x <= y`, false on NaN. -/
def le (x y : Ieee e m) : Bool :=
  x.partialCmp y == some .lt || x.partialCmp y == some .eq

/-- The number of a sign and a magnitude. -/
def ofMag (sign : Bool) (k : Nat) : Ieee e m :=
  ofWord ((if sign then 2 ^ (e + m) else 0) + k)

/-- The quiet NaN an invalid operation answers. -/
def qnan : Ieee e m := ofMag false (infMag e m + 2 ^ (m - 1))

/-- The same number with its sign flipped. -/
def negate (x : Ieee e m) : Ieee e m := ofMag (!x.neg) x.mag

/-- The number without its sign. -/
def abs (x : Ieee e m) : Ieee e m := ofMag false x.mag

/-! ## 2. Magnitudes as counts of the least subnormal -/

/-- The exponent of the least subnormal, negated: a finite number is
`scaled / 2 ^ unit`. -/
def unit (e m : Nat) : Nat := 2 ^ (e - 1) - 2 + m

/-- A finite magnitude as a count of least subnormals. -/
def scaledMag (m k : Nat) : Nat :=
  if k / 2 ^ m = 0 then k else (2 ^ m + k % 2 ^ m) * 2 ^ (k / 2 ^ m - 1)

/-- The count of least subnormals in `|x|`, for finite `x`. -/
def scaled (x : Ieee e m) : Nat := scaledMag m x.mag

/-- The signed count of least subnormals. -/
def signedScaled (x : Ieee e m) : Int := if x.neg then -(x.scaled : Int) else x.scaled

/-- `n / d` to the nearest whole number, ties to the even one. -/
def rne (n d : Nat) : Nat :=
  if d < 2 * (n % d) ∨ (d = 2 * (n % d) ∧ n / d % 2 = 1) then n / d + 1 else n / d

/-- **The rounding.**  The magnitude nearest to `n / d` least subnormals; past the largest
finite number it is infinity's. -/
def roundMag (e m n d : Nat) : Nat :=
  let sh := Nat.log2 (n / d) - m
  min (infMag e m) (sh * 2 ^ m + rne n (d * 2 ^ sh))

/-- The number nearest to a signed count `n / d`. -/
def ofScaled (sign : Bool) (n d : Nat) : Ieee e m := ofMag sign (roundMag e m n d)

/-! ## 3. Conversions -/

/-- `i as f64`. -/
def ofInt (i : Int) : Ieee e m := ofScaled (decide (i < 0)) (i.natAbs * 2 ^ unit e m) 1

/-- The whole number a finite number is, when its fractional part is zero. -/
def isWhole (x : Ieee e m) : Bool := x.isFinite && x.scaled % 2 ^ unit e m == 0

/-- The number cut towards zero. -/
def trunc (x : Ieee e m) : Int :=
  if x.neg then -((x.scaled / 2 ^ unit e m : Nat) : Int) else (x.scaled / 2 ^ unit e m : Nat)

/-- `f as i64`: cut towards zero, held to the type's ends, NaN to `0`. -/
def toInt64 (x : Ieee e m) : Int64 :=
  if x.isNaN then 0
  else if x.isFinite then Int64.ofInt (max (-(2 ^ 63)) (min (2 ^ 63 - 1) x.trunc))
  else if x.neg then Int64.minValue else Int64.maxValue

/-- `f as u8`: cut towards zero, held to the type's ends, NaN to `0`. -/
def toUInt8 (x : Ieee e m) : UInt8 :=
  if x.isNaN then 0
  else if x.isFinite then UInt8.ofNat (max 0 (min 255 x.trunc)).toNat
  else if x.neg then 0 else 255

/-- The value in another format, rounded there; a NaN keeps what of its payload fits. -/
def convert {e' m' : Nat} (x : Ieee e m) : Ieee e' m' :=
  if x.isNaN then
    ofMag x.neg (infMag e' m' + max (2 ^ (m' - 1)) ((x.mag - infMag e m) * 2 ^ m' / 2 ^ m))
  else if x.isFinite then ofScaled x.neg (x.scaled * 2 ^ unit e' m') (2 ^ unit e m)
  else ofMag x.neg (infMag e' m')

/-! ## 4. Arithmetic

A NaN operand is the answer, the first one where both are. -/

/-- `x + y`. -/
def add (x y : Ieee e m) : Ieee e m :=
  if x.isNaN then x
  else if y.isNaN then y
  else if !x.isFinite then
    if !y.isFinite && x.neg != y.neg then qnan else x
  else if !y.isFinite then y
  else
    let s := x.signedScaled + y.signedScaled
    -- an exact zero is `-0` only as the sum of two of them
    let sign := if s = 0 then x.neg && y.neg else decide (s < 0)
    ofScaled sign s.natAbs 1

/-- `x - y`. -/
def sub (x y : Ieee e m) : Ieee e m :=
  if x.isNaN then x else if y.isNaN then y else x.add y.negate

/-- `x * y`. -/
def mul (x y : Ieee e m) : Ieee e m :=
  let sign := x.neg != y.neg
  if x.isNaN then x
  else if y.isNaN then y
  else if !x.isFinite || !y.isFinite then
    if x.mag = 0 ∨ y.mag = 0 then qnan else ofMag sign (infMag e m)
  else ofScaled sign (x.scaled * y.scaled) (2 ^ unit e m)

/-- `x / y`. -/
def div (x y : Ieee e m) : Ieee e m :=
  let sign := x.neg != y.neg
  if x.isNaN then x
  else if y.isNaN then y
  else if !x.isFinite then if !y.isFinite then qnan else ofMag sign (infMag e m)
  else if !y.isFinite then ofMag sign 0
  else if y.mag = 0 then if x.mag = 0 then qnan else ofMag sign (infMag e m)
  else ofScaled sign (x.scaled * 2 ^ unit e m) y.scaled

/-! ## 5. Words, signs and magnitudes -/

theorem mag_lt (x : Ieee e m) : x.mag < 2 ^ (e + m) := Nat.mod_lt _ (Nat.two_pow_pos _)

theorem infMag_lt : infMag e m < 2 ^ (e + m) := by
  have he : 0 < 2 ^ e := Nat.two_pow_pos e
  have hm : 0 < 2 ^ m := Nat.two_pow_pos m
  calc infMag e m < 2 ^ e * 2 ^ m := Nat.mul_lt_mul_of_pos_right (by omega) hm
    _ = 2 ^ (e + m) := (Nat.pow_add 2 e m).symm

/-- The word is its sign's weight over its magnitude. -/
theorem toNat_bits (x : Ieee e m) :
    x.bits.toNat = (if x.neg then 2 ^ (e + m) else 0) + x.mag := by
  have hlt : x.bits.toNat < 2 ^ (e + m) * 2 := by
    calc x.bits.toNat < 2 ^ (1 + e + m) := x.bits.isLt
      _ = 2 ^ (e + m) * 2 := by rw [Nat.add_assoc, Nat.add_comm 1, Nat.pow_succ]
  unfold neg mag
  by_cases h : 2 ^ (e + m) ≤ x.bits.toNat
  · have hmod : x.bits.toNat % 2 ^ (e + m) = x.bits.toNat - 2 ^ (e + m) := by
      rw [Nat.mod_eq_sub_mod h, Nat.mod_eq_of_lt (by omega)]
    simp only [h, decide_true, if_true, hmod]
    omega
  · simp only [h, decide_false, Bool.false_eq_true, if_false, Nat.zero_add]
    exact (Nat.mod_eq_of_lt (by omega)).symm

theorem toNat_ofMag {s : Bool} {k : Nat} (hk : k < 2 ^ (e + m)) :
    (ofMag s k : Ieee e m).bits.toNat = (if s then 2 ^ (e + m) else 0) + k := by
  have hw : 2 ^ (1 + e + m) = 2 ^ (e + m) * 2 := by
    rw [Nat.add_assoc, Nat.add_comm 1, Nat.pow_succ]
  simp only [ofMag, ofWord, BitVec.toNat_ofNat, hw]
  apply Nat.mod_eq_of_lt
  split <;> omega

@[simp] theorem neg_ofMag {s : Bool} {k : Nat} (hk : k < 2 ^ (e + m)) :
    (ofMag s k : Ieee e m).neg = s := by
  unfold neg
  rw [toNat_ofMag hk]
  cases s <;> simp [hk]

@[simp] theorem mag_ofMag {s : Bool} {k : Nat} (hk : k < 2 ^ (e + m)) :
    (ofMag s k : Ieee e m).mag = k := by
  unfold mag
  rw [toNat_ofMag hk]
  cases s <;> simp [Nat.mod_eq_of_lt hk]

/-- A number is its sign and its magnitude. -/
theorem ext_neg_mag {x y : Ieee e m} (hn : x.neg = y.neg) (hm : x.mag = y.mag) : x = y := by
  have h : x.bits = y.bits := by
    apply BitVec.eq_of_toNat_eq
    rw [toNat_bits x, toNat_bits y, hn, hm]
  cases x; cases y; cases h; rfl

@[simp] theorem ofMag_neg_mag (x : Ieee e m) : ofMag x.neg x.mag = x :=
  ext_neg_mag (neg_ofMag x.mag_lt) (mag_ofMag x.mag_lt)

/-- What is below some number is below infinity. -/
theorem lt_inf {x y : Ieee e m} (h : x.lt y = true) : x.lt (ofMag false (infMag e m)) = true := by
  unfold lt partialCmp at *
  have hnan : (ofMag false (infMag e m) : Ieee e m).isNaN = false := by
    simp [isNaN, mag_ofMag infMag_lt]
  have hord : (ofMag false (infMag e m) : Ieee e m).ord = infMag e m := by
    simp [ord, mag_ofMag infMag_lt, neg_ofMag infMag_lt]
  split at h
  · cases h
  · next hn =>
    rw [Bool.or_eq_true, not_or, Bool.not_eq_true, Bool.not_eq_true] at hn
    rw [hn.1, hnan, if_neg (by simp), hord]
    have hlt : x.ord < y.ord := by simpa [compare_lt_iff_lt] using h
    have hle : y.ord ≤ infMag e m := by
      have hy : y.mag ≤ infMag e m := by simpa [isNaN] using hn.2
      unfold ord
      split <;> omega
    simpa [compare_lt_iff_lt] using lt_of_lt_of_le hlt hle

theorem ord_eq_zero {x : Ieee e m} : x.ord = 0 ↔ x.mag = 0 := by
  unfold ord
  split <;> omega

theorem lt_iff {x y : Ieee e m} :
    x.lt y = true ↔ x.isNaN = false ∧ y.isNaN = false ∧ x.ord < y.ord := by
  unfold lt partialCmp
  cases x.isNaN <;> cases y.isNaN <;> simp [compare_lt_iff_lt]

theorem le_iff {x y : Ieee e m} :
    x.le y = true ↔ x.isNaN = false ∧ y.isNaN = false ∧ x.ord ≤ y.ord := by
  unfold le partialCmp
  cases x.isNaN <;> cases y.isNaN <;>
    simp [compare_lt_iff_lt, le_iff_lt_or_eq]

/-! ## 6. The rounding is exact on the format -/

theorem scaledMag_of_lt {k : Nat} (h : k < 2 ^ m) : scaledMag m k = k := by
  simp [scaledMag, Nat.div_eq_of_lt h]

theorem scaledMag_of_le {k : Nat} (h : 2 ^ m ≤ k) :
    scaledMag m k = (2 ^ m + k % 2 ^ m) * 2 ^ (k / 2 ^ m - 1) := by
  have hpos : 0 < k / 2 ^ m := Nat.div_pos h (Nat.two_pow_pos m)
  simp [scaledMag, Nat.pos_iff_ne_zero.mp hpos]

theorem rne_mul_right {q d : Nat} (hd : 0 < d) : rne (q * d) d = q := by
  unfold rne
  rw [Nat.mul_mod_left, Nat.mul_div_cancel _ hd]
  rw [if_neg (by omega)]

/-- **A magnitude already in the format is rounded to itself.** -/
theorem roundMag_scaledMag {k : Nat} (hk : k ≤ infMag e m) :
    roundMag e m (scaledMag m k) 1 = k := by
  unfold roundMag
  by_cases hsmall : k < 2 ^ m
  · -- subnormal: the count is the magnitude, and nothing is shifted out
    have hlog : Nat.log2 k - m = 0 := by
      by_cases h0 : k = 0
      · simp [h0]
      · have := (Nat.log2_lt h0).mpr hsmall
        omega
    have hr : rne k 1 = k := by simpa using rne_mul_right (q := k) (d := 1) Nat.one_pos
    simp only [scaledMag_of_lt hsmall, Nat.div_one, hlog, Nat.pow_zero, Nat.zero_mul,
      Nat.mul_one, hr, Nat.zero_add]
    exact Nat.min_eq_right hk
  · -- normal: the leading bit of the count is its exponent's, so the shift drops zeros only
    have hle : 2 ^ m ≤ k := Nat.not_lt.mp hsmall
    have hE : 1 ≤ k / 2 ^ m := Nat.div_pos hle (Nat.two_pow_pos m)
    have hF : k % 2 ^ m < 2 ^ m := Nat.mod_lt _ (Nat.two_pow_pos m)
    generalize hEd : k / 2 ^ m = E at *
    generalize hFd : k % 2 ^ m = F at *
    have hs : scaledMag m k = (2 ^ m + F) * 2 ^ (E - 1) := by
      rw [scaledMag_of_le hle, hEd, hFd]
    have hlog : Nat.log2 ((2 ^ m + F) * 2 ^ (E - 1)) = m + (E - 1) := by
      have hne : (2 ^ m + F) * 2 ^ (E - 1) ≠ 0 := by positivity
      rw [Nat.log2_eq_iff hne]
      constructor
      · rw [Nat.pow_add]
        exact Nat.mul_le_mul_right _ (Nat.le_add_right _ _)
      · rw [show m + (E - 1) + 1 = (m + 1) + (E - 1) by omega, Nat.pow_add, Nat.pow_succ]
        exact Nat.mul_lt_mul_of_pos_right (by omega) (Nat.two_pow_pos _)
    have hk' : k = E * 2 ^ m + F := by rw [← hEd, ← hFd, Nat.div_add_mod']
    have hsum : (E - 1) * 2 ^ m + (2 ^ m + F) = k := by
      obtain ⟨E', rfl⟩ : ∃ E', E = E' + 1 := ⟨E - 1, by omega⟩
      rw [hk', Nat.add_sub_cancel]; ring
    simp only [hs, Nat.div_one, hlog, Nat.add_sub_cancel_left, Nat.one_mul,
      rne_mul_right (Nat.two_pow_pos (E - 1)), hsum]
    exact Nat.min_eq_right hk

theorem scaledMag_eq_zero {k : Nat} : scaledMag m k = 0 ↔ k = 0 := by
  by_cases h : k < 2 ^ m
  · rw [scaledMag_of_lt h]
  · have hpos : 0 < 2 ^ m := Nat.two_pow_pos m
    rw [scaledMag_of_le (Nat.not_lt.mp h)]
    constructor
    · intro h0
      have : 0 < (2 ^ m + k % 2 ^ m) * 2 ^ (k / 2 ^ m - 1) := by positivity
      omega
    · omega

/-- A larger magnitude is a larger count. -/
theorem scaledMag_mono (m : Nat) : Monotone (scaledMag m) := by
  refine monotone_nat_of_le_succ fun k => ?_
  by_cases hlt : k + 1 < 2 ^ m
  · rw [scaledMag_of_lt hlt, scaledMag_of_lt (by omega)]
    exact Nat.le_succ k
  · have hpos : 0 < 2 ^ m := Nat.two_pow_pos m
    rw [scaledMag_of_le (Nat.not_lt.mp hlt)]
    by_cases hk : k < 2 ^ m
    · -- from the last subnormal to the first normal number
      have hk1 : k + 1 = 2 ^ m := by omega
      rw [scaledMag_of_lt hk, hk1, Nat.mod_self, Nat.div_self hpos]
      omega
    · rw [scaledMag_of_le (Nat.not_lt.mp hk)]
      have hE : 1 ≤ k / 2 ^ m := Nat.div_pos (Nat.not_lt.mp hk) hpos
      have hF : k % 2 ^ m < 2 ^ m := Nat.mod_lt _ hpos
      by_cases hcarry : k % 2 ^ m + 1 = 2 ^ m
      · -- the fraction runs over into the exponent
        have hdvd : k + 1 = (k / 2 ^ m + 1) * 2 ^ m := by
          have := Nat.div_add_mod k (2 ^ m)
          rw [Nat.add_mul, Nat.mul_comm (k / 2 ^ m)]
          omega
        rw [hdvd, Nat.mul_mod_left, Nat.mul_div_cancel _ hpos, Nat.add_zero,
          Nat.add_sub_cancel]
        obtain ⟨E, hE'⟩ : ∃ E, k / 2 ^ m = E + 1 := ⟨k / 2 ^ m - 1, by omega⟩
        rw [hE', Nat.add_sub_cancel, Nat.pow_succ]
        calc (2 ^ m + k % 2 ^ m) * 2 ^ E ≤ (2 ^ m * 2) * 2 ^ E :=
              Nat.mul_le_mul_right _ (by omega)
          _ = 2 ^ m * (2 ^ E * 2) := by ring
      · have hmod : (k + 1) % 2 ^ m = k % 2 ^ m + 1 := by
          rw [← Nat.mod_add_mod, Nat.mod_eq_of_lt (by omega)]
        have hdiv : (k + 1) / 2 ^ m = k / 2 ^ m := by
          have h1 := Nat.div_add_mod k (2 ^ m)
          have h2 := Nat.div_add_mod (k + 1) (2 ^ m)
          rw [hmod] at h2
          exact Nat.eq_of_mul_eq_mul_left hpos (by omega)
        rw [hmod, hdiv]
        exact Nat.mul_le_mul_right _ (by omega)

/-- The number of a finite number's own count is that number. -/
theorem ofScaled_scaled {x : Ieee e m} (hx : x.isFinite = true) :
    ofScaled x.neg x.scaled 1 = x := by
  have hlt : x.mag < infMag e m := by simpa [isFinite] using hx
  simp [ofScaled, scaled, roundMag_scaledMag (Nat.le_of_lt hlt)]

theorem ofScaled_zero {s : Bool} : (ofScaled s 0 1 : Ieee e m) = ofMag s 0 := by
  have h := roundMag_scaledMag (e := e) (m := m) (Nat.zero_le (infMag e m))
  rw [scaledMag_eq_zero.mpr rfl] at h
  rw [ofScaled, h]

/-! ## 7. Adding zero, and whole numbers -/

/-- The positive zero. -/
def posZero : Ieee e m := ofMag false 0

theorem mag_posZero : (posZero : Ieee e m).mag = 0 := mag_ofMag (Nat.two_pow_pos _)

theorem neg_posZero : (posZero : Ieee e m).neg = false := neg_ofMag (Nat.two_pow_pos _)

/-- **`x + 0.0` is `x`, a negative zero apart.** -/
theorem add_posZero (he : 1 ≤ e) (x : Ieee e m) :
    x.add posZero = if x.mag = 0 then posZero else x := by
  have hinf : 0 < infMag e m := by
    have h2 : 2 ≤ 2 ^ e := by
      calc 2 = 2 ^ 1 := rfl
        _ ≤ 2 ^ e := Nat.pow_le_pow_right (by omega) he
    exact Nat.mul_pos (by omega) (Nat.two_pow_pos m)
  have hz : (posZero : Ieee e m).isNaN = false := by simp [isNaN, mag_posZero]
  have hzf : (posZero : Ieee e m).isFinite = true := by simp [isFinite, mag_posZero, hinf]
  unfold add
  cases hn : x.isNaN with
  | true =>
    have hne : x.mag ≠ 0 := by
      have : infMag e m < x.mag := by simpa [isNaN] using hn
      omega
    simp [hne]
  | false =>
    cases hf : x.isFinite with
    | false =>
      have hne : x.mag ≠ 0 := by
        have : ¬ x.mag < infMag e m := by simpa [isFinite] using hf
        omega
      simp [hz, hzf, hne]
    | true =>
      have hzs : (posZero : Ieee e m).signedScaled = 0 := by
        simp [signedScaled, neg_posZero, scaled, mag_posZero, scaledMag_eq_zero]
      simp only [hz, hzf, hzs, Bool.false_eq_true, if_false, Bool.not_true, Int.add_zero,
        neg_posZero, Bool.and_false]
      by_cases h0 : x.mag = 0
      · have hs : x.scaled = 0 := scaledMag_eq_zero.mpr h0
        simp [h0, signedScaled, hs, ofScaled_zero, posZero]
      · have hs : x.scaled ≠ 0 := fun h => h0 (scaledMag_eq_zero.mp h)
        have hne : x.signedScaled ≠ 0 := by
          unfold signedScaled
          split <;> omega
        have hsign : decide (x.signedScaled < 0) = x.neg := by
          unfold signedScaled
          cases x.neg
          · simp
          · simp only [if_true, decide_eq_true_eq]
            omega
        have habs : x.signedScaled.natAbs = x.scaled := by
          unfold signedScaled
          split <;> simp
        rw [if_neg hne, hsign, habs, ofScaled_scaled hf, if_neg h0]

theorem ord_add_posZero (he : 1 ≤ e) (x : Ieee e m) : (x.add posZero).ord = x.ord := by
  rw [add_posZero he]
  split
  · next h => rw [ord_eq_zero.mpr h, ord_eq_zero.mpr mag_posZero]
  · rfl

theorem isNaN_add_posZero (he : 1 ≤ e) (x : Ieee e m) :
    (x.add posZero).isNaN = x.isNaN := by
  rw [add_posZero he]
  split
  · next h => simp [isNaN, h, mag_posZero]
  · rfl

/-- **A whole number is the conversion of the integer it is**, a negative zero apart. -/
theorem ofInt_trunc (he : 1 ≤ e) {x : Ieee e m} (hx : x.isWhole = true) :
    ofInt x.trunc = x.add posZero := by
  obtain ⟨hf, hmod⟩ : x.isFinite = true ∧ x.scaled % 2 ^ unit e m = 0 := by
    simpa [isWhole] using hx
  have hback : x.scaled / 2 ^ unit e m * 2 ^ unit e m = x.scaled :=
    Nat.div_mul_cancel (Nat.dvd_of_mod_eq_zero hmod)
  have habs : x.trunc.natAbs = x.scaled / 2 ^ unit e m := by
    unfold trunc
    generalize x.scaled / 2 ^ unit e m = t
    split <;> simp
  rw [add_posZero he]
  unfold ofInt
  rw [habs, hback]
  by_cases h0 : x.mag = 0
  · have hs : x.scaled = 0 := scaledMag_eq_zero.mpr h0
    have ht : x.trunc = 0 := by simp [trunc, hs]
    simp [h0, hs, ht, ofScaled_zero, posZero]
  · have hs : x.scaled ≠ 0 := fun h => h0 (scaledMag_eq_zero.mp h)
    have hq : x.scaled / 2 ^ unit e m ≠ 0 := by
      intro h
      rw [h, Nat.zero_mul] at hback
      exact hs hback.symm
    have hsign : decide (x.trunc < 0) = x.neg := by
      unfold trunc
      generalize x.scaled / 2 ^ unit e m = t at hq
      cases x.neg
      · simp
      · simp only [if_true, decide_eq_true_eq]
        omega
    rw [hsign, ofScaled_scaled hf, if_neg h0]

/-- The integer a whole number up to another's size is, is up to the other's. -/
theorem natAbs_trunc_le {x y : Ieee e m} (h : x.mag ≤ y.mag) :
    x.trunc.natAbs ≤ y.scaled / 2 ^ unit e m := by
  have habs : x.trunc.natAbs = x.scaled / 2 ^ unit e m := by
    unfold trunc
    generalize x.scaled / 2 ^ unit e m = t
    split <;> simp
  rw [habs]
  exact Nat.div_le_div_right (scaledMag_mono m h)

/-- `f as i64` cuts off nothing of a number within the type. -/
theorem toInt_toInt64 {x : Ieee e m} (hf : x.isFinite = true) (h : x.trunc.natAbs < 2 ^ 63) :
    x.toInt64.toInt = x.trunc := by
  have hnan : x.isNaN = false := by
    simp only [isFinite, isNaN, decide_eq_true_eq, decide_eq_false_iff_not] at hf ⊢
    omega
  rw [toInt64, hnan, if_neg Bool.false_ne_true, if_pos hf, Int64.toInt_ofInt_of_le] <;> omega

end Ieee

/-- Rust's `f64`. -/
abbrev F64 := Ieee 11 52

/-- Rust's `f32`. -/
abbrev F32 := Ieee 8 23

end Fenec.Lib
