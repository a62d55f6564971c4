/-
# Arithmetic that keeps order

Adding a number, multiplying or dividing by a positive one and taking the floor each round a
quotient that grows with the operand, and the rounding keeps order: so each keeps order, and a
chain of them does (`add_mono`, `mul_mono`, `div_mono`, `floor_mono`).  The infinities are the ends
of the order and stay where they are, which leaves the finite numbers (`mono_of_finite`).
-/
import Fenec.Lib.Rounding

namespace Fenec.Lib

namespace Ieee

variable {e m : Nat}

/-! ## 1. More operations -/

/-- `f64::floor`: the largest whole number that is not above. -/
def floor (x : Ieee e m) : Ieee e m :=
  if x.isFinite then ofScaled x.neg (x.signedScaled / 2 ^ unit e m * 2 ^ unit e m).natAbs 1 else x

/-- `f64::min`: the lesser, or the one that is a number. -/
def minNum (x y : Ieee e m) : Ieee e m :=
  if x.isNaN then y else if y.isNaN then x else if y.lt x then y else x

/-- `f64::max`: the greater, or the one that is a number. -/
def maxNum (x y : Ieee e m) : Ieee e m :=
  if x.isNaN then y else if y.isNaN then x else if x.lt y then y else x

/-- The key `f64::total_cmp` compares by: `-0` below `+0`, and the NaNs past the infinities. -/
def totalKey (x : Ieee e m) : Int := if x.neg then -1 - (x.mag : Int) else x.mag

/-! ## 2. The order of rounded quotients -/

variable {x y c : Ieee e m} {n d : Nat} {s t : Bool} {a b : Int}

theorem roundMag_zero (d : Nat) : roundMag e m 0 d = 0 := by
  simp [roundMag, rne]

theorem roundMag_lt_pow (n d : Nat) : roundMag e m n d < 2 ^ (e + m) :=
  Nat.lt_of_le_of_lt (roundMag_le n d) infMag_lt

theorem isNaN_ofScaled : (ofScaled s n d : Ieee e m).isNaN = false := by
  unfold isNaN ofScaled
  rw [mag_ofMag (roundMag_lt_pow n d)]
  exact decide_eq_false (Nat.not_lt.mpr (roundMag_le n d))

theorem ord_ofScaled : (ofScaled s n d : Ieee e m).ord =
    if s then -(roundMag e m n d : Int) else roundMag e m n d := by
  unfold ord ofScaled
  rw [mag_ofMag (roundMag_lt_pow n d), neg_ofMag (roundMag_lt_pow n d)]

/-- A sign that a count may be given: its own, or either for zero. -/
def Signs (s : Bool) (a : Int) : Prop := (a < 0 → s = true) ∧ (0 < a → s = false)

/-- **Larger counts are rounded to no smaller numbers**, whatever the sign of a zero. -/
theorem ofScaled_mono (hd : 0 < d) (hs : Signs s a) (ht : Signs t b) (h : a ≤ b) :
    (ofScaled s a.natAbs d : Ieee e m).ord ≤ (ofScaled t b.natAbs d : Ieee e m).ord := by
  have hmono : ∀ {n n' : Nat}, n ≤ n' → (roundMag e m n d : Int) ≤ roundMag e m n' d :=
    fun h => Int.ofNat_le.mpr (roundMag_mono hd h)
  have hzero : roundMag e m 0 d = 0 := roundMag_zero d
  rw [ord_ofScaled, ord_ofScaled]
  rcases Int.lt_trichotomy a 0 with ha | rfl | ha
  · rw [hs.1 ha, if_pos rfl]
    rcases Int.lt_trichotomy b 0 with hb | rfl | hb
    · rw [ht.1 hb, if_pos rfl]
      exact Int.neg_le_neg (hmono (by omega))
    · rw [Int.natAbs_zero, hzero]
      split <;> omega
    · rw [ht.2 hb, if_neg (by decide)]
      omega
  · rw [Int.natAbs_zero, hzero]
    rcases Int.lt_or_eq_of_le h with hb | rfl
    · rw [ht.2 hb]
      cases s <;> simp
    · rw [Int.natAbs_zero, hzero]
      split <;> split <;> omega
  · have hb : 0 < b := Int.lt_of_lt_of_le ha h
    rw [hs.2 ha, ht.2 hb, if_neg (by decide), if_neg (by decide)]
    exact hmono (by omega)

/-! ## 3. Finite numbers are what matters -/

theorem mag_le_of_number (h : x.isNaN = false) : x.mag ≤ infMag e m := by
  simpa [isNaN] using h

theorem mag_of_infinite (h : x.isNaN = false) (hx : x.isFinite = false) : x.mag = infMag e m := by
  have hle := mag_le_of_number h
  have hge : infMag e m ≤ x.mag := by simpa [isFinite] using hx
  exact Nat.le_antisymm hle hge

theorem number_of_finite (h : x.isFinite = true) : x.isNaN = false := by
  have hlt : x.mag < infMag e m := by simpa [isFinite] using h
  exact decide_eq_false (Nat.not_lt.mpr (Nat.le_of_lt hlt))

theorem ord_le_inf (h : x.isNaN = false) : -(infMag e m : Int) ≤ x.ord ∧ x.ord ≤ infMag e m := by
  have hle := mag_le_of_number h
  unfold ord
  split <;> omega

/-- **A function keeps order** that leaves the infinities where they are and keeps the order of
finite numbers. -/
theorem mono_of_finite {f : Ieee e m → Ieee e m}
    (hinf : ∀ x, x.isNaN = false → x.isFinite = false → f x = x)
    (hnum : ∀ x, x.isFinite = true → (f x).isNaN = false)
    (hfin : ∀ x y, x.isFinite = true → y.isFinite = true → x.ord ≤ y.ord → (f x).ord ≤ (f y).ord)
    (h : x.le y = true) : (f x).le (f y) = true := by
  obtain ⟨hx, hy, hord⟩ := le_iff.mp h
  have hnum : ∀ x : Ieee e m, x.isNaN = false → (f x).isNaN = false := by
    intro x hx
    cases hfx : x.isFinite with
    | true => exact hnum x hfx
    | false => rw [hinf x hx hfx]; exact hx
  refine le_iff.mpr ⟨hnum x hx, hnum y hy, ?_⟩
  have hxends := ord_le_inf (hnum x hx)
  have hyends := ord_le_inf (hnum y hy)
  cases hfx : x.isFinite with
  | false =>
    have hmag := mag_of_infinite hx hfx
    rw [hinf x hx hfx]
    cases hneg : x.neg with
    | true =>
      -- the least of all
      have hleast : x.ord = -(infMag e m : Int) := by rw [ord, hneg, if_pos rfl, hmag]
      omega
    | false =>
      have hmost : x.ord = infMag e m := by rw [ord, hneg, if_neg (by decide), hmag]
      cases hfy : y.isFinite with
      | false => rw [hinf y hy hfy]; exact hord
      | true =>
        have hlt : y.mag < infMag e m := by simpa [isFinite] using hfy
        have hbelow : y.ord < infMag e m := by
          unfold ord
          split <;> omega
        omega
  | true =>
    cases hfy : y.isFinite with
    | true => exact hfin x y hfx hfy hord
    | false =>
      have hmag := mag_of_infinite hy hfy
      rw [hinf y hy hfy]
      cases hneg : y.neg with
      | false =>
        have hmost : y.ord = infMag e m := by rw [ord, hneg, if_neg (by decide), hmag]
        omega
      | true =>
        have hleast : y.ord = -(infMag e m : Int) := by rw [ord, hneg, if_pos rfl, hmag]
        have hlt : x.mag < infMag e m := by simpa [isFinite] using hfx
        have habove : -(infMag e m : Int) < x.ord := by
          unfold ord
          split <;> omega
        omega

theorem signedScaled_mono (h : x.ord ≤ y.ord) : x.signedScaled ≤ y.signedScaled := by
  have hmono : ∀ {k k' : Nat}, k ≤ k' → (scaledMag m k : Int) ≤ scaledMag m k' :=
    fun h => Int.ofNat_le.mpr (scaledMag_mono m h)
  unfold ord at h
  unfold signedScaled scaled
  cases hx : x.neg <;> cases hy : y.neg <;>
    simp only [hx, hy, if_true, if_false, Bool.false_eq_true] at h ⊢
  · exact hmono (by omega)
  · have h0 : x.mag = 0 ∧ y.mag = 0 := by omega
    rw [h0.1, h0.2, scaledMag_eq_zero.mpr rfl]
    exact Int.le_refl _
  · omega
  · exact Int.neg_le_neg (hmono (by omega))

theorem signs_scaled (x : Ieee e m) : Signs x.neg x.signedScaled := by
  unfold Signs signedScaled
  cases x.neg with
  | true => exact ⟨fun _ => rfl, fun h => absurd h (by rw [if_pos rfl]; omega)⟩
  | false => exact ⟨fun h => absurd h (by rw [if_neg (by decide)]; omega), fun _ => rfl⟩

theorem natAbs_signedScaled (x : Ieee e m) : x.signedScaled.natAbs = x.scaled := by
  unfold signedScaled
  split
  · rw [Int.natAbs_neg, Int.natAbs_natCast]
  · exact Int.natAbs_natCast _

/-! ## 4. The operations -/

/-- A positive finite number. -/
structure Positive (c : Ieee e m) : Prop where
  finite : c.isFinite = true
  sign : c.neg = false
  mag : c.mag ≠ 0

theorem Positive.scaled_pos (h : Positive c) : 0 < c.scaled :=
  Nat.pos_of_ne_zero fun h0 => h.mag (scaledMag_eq_zero.mp h0)

/-- A multiple has the sign of what it is a multiple of. -/
theorem Signs.mul (h : Signs s a) (n : Nat) : Signs s (a * n) := by
  constructor
  · intro hneg
    refine h.1 ?_
    by_contra hnot
    exact absurd hneg (Int.not_lt.mpr (Int.mul_nonneg (Int.not_lt.mp hnot) (Int.natCast_nonneg n)))
  · intro hpos
    refine h.2 ?_
    by_contra hnot
    exact absurd hpos (Int.not_lt.mpr
      (Int.mul_nonpos_of_nonpos_of_nonneg (Int.not_lt.mp hnot) (Int.natCast_nonneg n)))

/-- An infinity is its sign over the largest magnitude. -/
theorem eq_of_infinite (h : x.isNaN = false) (hx : x.isFinite = false) :
    ofMag x.neg (infMag e m) = x := by
  rw [← mag_of_infinite h hx, ofMag_neg_mag]

theorem infinite_mag_ne (hc : c.isFinite = true) (h : x.isNaN = false) (hx : x.isFinite = false) :
    x.mag ≠ 0 := by
  have hlt : c.mag < infMag e m := by simpa [isFinite] using hc
  rw [mag_of_infinite h hx]
  omega

/-- **Multiplying by a positive number keeps order.** -/
theorem mul_mono (hc : Positive c) (h : x.le y = true) : (x.mul c).le (y.mul c) = true := by
  have hfinite : ∀ x : Ieee e m, x.isFinite = true →
      x.mul c = ofScaled x.neg (x.signedScaled * c.scaled).natAbs (2 ^ unit e m) := by
    intro x hx
    unfold mul
    rw [number_of_finite hx, number_of_finite hc.finite, hx, hc.finite, hc.sign, Int.natAbs_mul,
      natAbs_signedScaled, Int.natAbs_natCast]
    cases x.neg <;> rfl
  refine mono_of_finite (f := fun x => x.mul c) (fun x hnum hx => ?_) (fun x hx => ?_)
    (fun x y hx hy hord => ?_) h
  · have hmag := infinite_mag_ne hc.finite hnum hx
    unfold mul
    rw [hnum, number_of_finite hc.finite, hx, hc.sign]
    simp only [Bool.false_eq_true, if_false, Bool.not_false, Bool.true_or, if_true, hmag, hc.mag,
      or_self, Bool.bne_false]
    exact eq_of_infinite hnum hx
  · rw [hfinite x hx]
    exact isNaN_ofScaled
  · rw [hfinite x hx, hfinite y hy]
    exact ofScaled_mono (Nat.two_pow_pos _) ((signs_scaled x).mul _) ((signs_scaled y).mul _)
      (Int.mul_le_mul_of_nonneg_right (signedScaled_mono hord) (Int.natCast_nonneg _))

/-- **Dividing by a positive number keeps order.** -/
theorem div_mono (hc : Positive c) (h : x.le y = true) : (x.div c).le (y.div c) = true := by
  have hfinite : ∀ x : Ieee e m, x.isFinite = true →
      x.div c = ofScaled x.neg (x.signedScaled * (2 ^ unit e m : Nat)).natAbs c.scaled := by
    intro x hx
    unfold div
    rw [number_of_finite hx, number_of_finite hc.finite, hx, hc.finite, hc.sign, Int.natAbs_mul,
      natAbs_signedScaled, Int.natAbs_natCast]
    simp only [Bool.false_eq_true, if_false, Bool.not_true, hc.mag, Bool.bne_false]
  refine mono_of_finite (f := fun x => x.div c) (fun x hnum hx => ?_) (fun x hx => ?_)
    (fun x y hx hy hord => ?_) h
  · unfold div
    rw [hnum, number_of_finite hc.finite, hx, hc.finite, hc.sign]
    simp only [Bool.false_eq_true, if_false, Bool.not_false, Bool.not_true, if_true, Bool.bne_false]
    exact eq_of_infinite hnum hx
  · rw [hfinite x hx]
    exact isNaN_ofScaled
  · rw [hfinite x hx, hfinite y hy]
    exact ofScaled_mono hc.scaled_pos ((signs_scaled x).mul _) ((signs_scaled y).mul _)
      (Int.mul_le_mul_of_nonneg_right (signedScaled_mono hord) (Int.natCast_nonneg _))

/-- **Adding a number keeps order.** -/
theorem add_mono (hc : c.isFinite = true) (h : x.le y = true) : (x.add c).le (y.add c) = true := by
  refine mono_of_finite (f := fun x => x.add c) (fun x hnum hx => ?_) (fun x hx => ?_)
    (fun x y hx hy hord => ?_) h
  · unfold add
    rw [hnum, number_of_finite hc, hx, hc]
    simp
  · unfold add
    dsimp only
    rw [number_of_finite hx, number_of_finite hc, hx, hc]
    exact isNaN_ofScaled
  · unfold add
    dsimp only
    rw [number_of_finite hx, number_of_finite hy, number_of_finite hc, hx, hy, hc]
    have hsigns : ∀ x : Ieee e m, Signs
        (if x.signedScaled + c.signedScaled = 0 then x.neg && c.neg
          else decide (x.signedScaled + c.signedScaled < 0)) (x.signedScaled + c.signedScaled) := by
      intro x
      constructor
      · intro hneg
        rw [if_neg (by omega), decide_eq_true hneg]
      · intro hpos
        rw [if_neg (by omega), decide_eq_false (by omega)]
    exact ofScaled_mono Nat.one_pos (hsigns x) (hsigns y)
      (Int.add_le_add_right (signedScaled_mono hord) _)

theorem isFinite_negate (hc : c.isFinite = true) : c.negate.isFinite = true := by
  unfold isFinite negate
  rw [mag_ofMag (mag_lt c)]
  exact hc

theorem sub_mono (hc : c.isFinite = true) (h : x.le y = true) : (x.sub c).le (y.sub c) = true := by
  obtain ⟨hx, hy, -⟩ := le_iff.mp h
  unfold sub
  rw [hx, hy, number_of_finite hc]
  exact add_mono (isFinite_negate hc) h

/-- **The floor keeps order.** -/
theorem floor_mono (h : x.le y = true) : x.floor.le y.floor = true := by
  have hpow : (0 : Int) < 2 ^ unit e m := by positivity
  have hsigns : ∀ x : Ieee e m, Signs x.neg (x.signedScaled / 2 ^ unit e m * 2 ^ unit e m) := by
    intro x
    have hsigned := signs_scaled x
    constructor
    · -- a floor below zero is that of a number below zero
      intro hneg
      refine hsigned.1 ?_
      by_contra hnot
      have hfloor : 0 ≤ x.signedScaled / 2 ^ unit e m :=
        Int.ediv_nonneg (Int.not_lt.mp hnot) (Int.le_of_lt hpow)
      exact absurd hneg (Int.not_lt.mpr (Int.mul_nonneg hfloor (Int.le_of_lt hpow)))
    · intro hpos
      refine hsigned.2 ?_
      have hfloor : 0 < x.signedScaled / 2 ^ unit e m := by
        by_contra hnot
        exact absurd hpos (Int.not_lt.mpr
          (Int.mul_nonpos_of_nonpos_of_nonneg (Int.not_lt.mp hnot) (Int.le_of_lt hpow)))
      by_contra hnot
      exact absurd hfloor (Int.not_lt.mpr
        (Int.ediv_nonpos_of_nonpos_of_neg (Int.not_lt.mp hnot) hpow))
  refine mono_of_finite (f := floor) (fun x hnum hx => ?_) (fun x hx => ?_)
    (fun x y hx hy hord => ?_) h
  · unfold floor
    rw [hx]
    rfl
  · unfold floor
    rw [if_pos hx]
    exact isNaN_ofScaled
  · unfold floor
    rw [if_pos hx, if_pos hy]
    exact ofScaled_mono Nat.one_pos (hsigns x) (hsigns y)
      (Int.mul_le_mul_of_nonneg_right
        (Int.ediv_le_ediv hpow (signedScaled_mono hord)) (Int.le_of_lt hpow))

/-! ## 5. Order -/

theorem le_trans {z : Ieee e m} (h : x.le y = true) (h' : y.le z = true) : x.le z = true := by
  obtain ⟨hx, -, hxy⟩ := le_iff.mp h
  obtain ⟨-, hz, hyz⟩ := le_iff.mp h'
  exact le_iff.mpr ⟨hx, hz, Int.le_trans hxy hyz⟩

theorem lt_of_lt_of_le {z : Ieee e m} (h : x.lt y = true) (h' : y.le z = true) :
    x.lt z = true := by
  obtain ⟨hx, -, hxy⟩ := lt_iff.mp h
  obtain ⟨-, hz, hyz⟩ := le_iff.mp h'
  exact lt_iff.mpr ⟨hx, hz, Int.lt_of_lt_of_le hxy hyz⟩

theorem ord_of_neg (h : x.neg = true) : x.ord = -(x.mag : Int) := by rw [ord, h, if_pos rfl]

theorem ord_of_pos (h : x.neg = false) : x.ord = x.mag := by rw [ord, h, if_neg (by decide)]

/-- **The total order refines the numbers' order** below a number whose sign is clear. -/
theorem totalKey_le (h : x.le y = true) (hy : y.neg = false) : x.totalKey ≤ y.totalKey := by
  obtain ⟨-, -, hord⟩ := le_iff.mp h
  rw [ord_of_pos hy] at hord
  unfold totalKey
  cases hx : x.neg <;> simp only [hy, if_true, if_false, Bool.false_eq_true]
  · rwa [ord_of_pos hx] at hord
  · omega

theorem ord_le_of_totalKey (h : x.totalKey ≤ y.totalKey) : x.ord ≤ y.ord := by
  unfold totalKey at h
  cases hx : x.neg <;> cases hy : y.neg <;>
    simp only [hx, hy, if_true, if_false, Bool.false_eq_true] at h
  · rwa [ord_of_pos hx, ord_of_pos hy]
  · omega
  · rw [ord_of_neg hx, ord_of_pos hy]
    omega
  · rw [ord_of_neg hx, ord_of_neg hy]
    omega

/-! ## 6. Words -/

/-- A finite number cut towards zero, and held to 32 bits: `x as u32`. -/
def toUInt32 (x : Ieee e m) : UInt32 :=
  if x.isNaN then 0
  else if x.isFinite then UInt32.ofNat (max 0 (min (2 ^ 32 - 1) x.trunc)).toNat
  else if x.neg then 0 else UInt32.ofNat (2 ^ 32 - 1)

/-- **Cutting keeps the order of finite numbers that are not below zero.** -/
theorem toUInt32_mono (hx : x.isFinite = true) (hy : y.isFinite = true) (hxn : x.neg = false)
    (hyn : y.neg = false) (h : x.ord ≤ y.ord) : x.toUInt32.toNat ≤ y.toUInt32.toNat := by
  have hscaled : x.scaled ≤ y.scaled := by
    have hsigned := signedScaled_mono h
    unfold signedScaled at hsigned
    rw [hxn, hyn, if_neg (by decide), if_neg (by decide)] at hsigned
    exact Int.ofNat_le.mp hsigned
  have htrunc : ∀ x : Ieee e m, x.neg = false →
      x.trunc = ((x.scaled / 2 ^ unit e m : Nat) : Int) := by
    intro x hx
    rw [trunc, hx, if_neg (by decide)]
  have hdiv : x.scaled / 2 ^ unit e m ≤ y.scaled / 2 ^ unit e m := Nat.div_le_div_right hscaled
  unfold toUInt32
  rw [number_of_finite hx, number_of_finite hy, hx, hy, htrunc x hxn, htrunc y hyn]
  simp only [Bool.false_eq_true, if_false, if_true]
  generalize x.scaled / 2 ^ unit e m = a, y.scaled / 2 ^ unit e m = b at hdiv
  have hfits : ∀ n : Nat, (max 0 (min (2 ^ 32 - 1) (n : Int))).toNat % 2 ^ 32 =
      min (2 ^ 32 - 1) n := by
    intro n
    omega
  rw [UInt32.toNat_ofNat', UInt32.toNat_ofNat', hfits, hfits]
  omega

end Ieee

end Fenec.Lib
