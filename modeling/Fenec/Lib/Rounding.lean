/-
# Integers as floating-point numbers

`ofInt` rounds to the nearest number of the format, ties to the even one.  The rounding keeps
order (`roundMag_mono`), because it does among counts of one exponent and because the counts of a
larger exponent all round past those of a smaller, and it leaves alone what the format holds.
Every integer up to `2 ^ (m + 1)` is held (`exists_scaledMag`), so up to there the conversion
keeps integers apart (`intMag_lt`), and past it an integer still lands past `2 ^ (m + 1)` once
it is two more (`intMag_past`).  What is left is `2 ^ (m + 1) + 1`, halfway between two numbers.
-/
import Fenec.Lib.Ieee

namespace Fenec.Lib

namespace Ieee

variable {e m : Nat}

/-! ## 1. The rounding keeps order -/

theorem rne_mono {n n' d : Nat} (h : n ≤ n') : rne n d ≤ rne n' d := by
  have hdiv : n / d ≤ n' / d := Nat.div_le_div_right h
  rcases Nat.lt_or_eq_of_le hdiv with hlt | heq
  · unfold rne
    split <;> split <;> omega
  · -- between the same two whole numbers, the larger is nearer to the upper one
    have hmod : n % d ≤ n' % d := by
      have h1 := Nat.div_add_mod n d
      have h2 := Nat.div_add_mod n' d
      rw [heq] at h1
      omega
    unfold rne
    rw [heq]
    split <;> split <;> omega

theorem rne_le {n d k : Nat} (hd : 0 < d) (h : n < k * d) : rne n d ≤ k := by
  have hq : n / d < k := (Nat.div_lt_iff_lt_mul hd).mpr h
  unfold rne
  split <;> omega

theorem le_rne {n d k : Nat} (hd : 0 < d) (h : k * d ≤ n) : k ≤ rne n d := by
  have hq : k ≤ n / d := (Nat.le_div_iff_mul_le hd).mpr h
  unfold rne
  split <;> omega

/-- How far a count is shifted to be rounded. -/
def shift (m n : Nat) : Nat := Nat.log2 n - m

theorem shift_mono {n n' : Nat} (h : n ≤ n') : shift m n ≤ shift m n' := by
  have hlog : Nat.log2 n ≤ Nat.log2 n' := by
    by_cases h0 : n = 0
    · simp [h0]
    · rw [Nat.le_log2 (by omega)]
      exact Nat.le_trans (Nat.log2_self_le h0) h
  unfold shift
  omega

section Quotient

variable {n n' d : Nat} (hd : 0 < d)

include hd

/-- A quotient is rounded to no more than the first of the next exponent. -/
theorem rne_shift_le : rne n (d * 2 ^ shift m (n / d)) ≤ 2 ^ (m + 1) := by
  refine rne_le (Nat.mul_pos hd (Nat.two_pow_pos _)) ?_
  have hlt : n / d < 2 ^ (Nat.log2 (n / d) + 1) := Nat.lt_log2_self
  have hpow : 2 ^ (Nat.log2 (n / d) + 1) ≤ 2 ^ (m + 1) * 2 ^ shift m (n / d) := by
    rw [← Nat.pow_add]
    refine Nat.pow_le_pow_right (by omega) ?_
    unfold shift
    omega
  have hn := (Nat.div_lt_iff_lt_mul hd).mp (Nat.lt_of_lt_of_le hlt hpow)
  rwa [Nat.mul_assoc, Nat.mul_comm _ d] at hn

/-- A quotient that is shifted is rounded to no less than the first of its exponent. -/
theorem le_rne_shift (h : 0 < shift m (n / d)) : 2 ^ m ≤ rne n (d * 2 ^ shift m (n / d)) := by
  refine le_rne (Nat.mul_pos hd (Nat.two_pow_pos _)) ?_
  have hn : n / d ≠ 0 := by
    intro h0
    rw [h0] at h
    simp [shift] at h
  have hlog : m + shift m (n / d) = Nat.log2 (n / d) := by
    unfold shift at h ⊢
    omega
  have hpow : 2 ^ m * 2 ^ shift m (n / d) ≤ n / d := by
    rw [← Nat.pow_add, hlog]
    exact Nat.log2_self_le hn
  have hmul := (Nat.le_div_iff_mul_le hd).mp hpow
  rwa [Nat.mul_assoc, Nat.mul_comm _ d] at hmul

/-- **A larger quotient is rounded to no smaller a number.** -/
theorem roundMag_mono (h : n ≤ n') : roundMag e m n d ≤ roundMag e m n' d := by
  have hdiv : n / d ≤ n' / d := Nat.div_le_div_right h
  have hraw : shift m (n / d) * 2 ^ m + rne n (d * 2 ^ shift m (n / d)) ≤
      shift m (n' / d) * 2 ^ m + rne n' (d * 2 ^ shift m (n' / d)) := by
    rcases Nat.lt_or_eq_of_le (shift_mono (m := m) hdiv) with hlt | heq
    · have hle := rne_shift_le (m := m) (n := n) hd
      have hge := le_rne_shift (m := m) (n := n') hd (by omega)
      have hstep : (shift m (n / d) + 1) * 2 ^ m ≤ shift m (n' / d) * 2 ^ m :=
        Nat.mul_le_mul_right _ hlt
      rw [Nat.pow_succ] at hle
      rw [Nat.add_mul] at hstep
      omega
    · rw [heq]
      exact Nat.add_le_add_left (rne_mono h) _
  unfold roundMag
  exact min_le_min_left _ hraw

end Quotient

theorem roundMag_le (n d : Nat) : roundMag e m n d ≤ infMag e m := Nat.min_le_left _ _

/-! ## 2. The integers a format holds -/

theorem scaledMag_normal (E : Nat) {F : Nat} (hF : F < 2 ^ m) :
    scaledMag m ((E + 1) * 2 ^ m + F) = (2 ^ m + F) * 2 ^ E := by
  have hpos : 0 < 2 ^ m := Nat.two_pow_pos m
  have hdiv : ((E + 1) * 2 ^ m + F) / 2 ^ m = E + 1 := by
    rw [Nat.mul_comm, Nat.mul_add_div hpos, Nat.div_eq_of_lt hF, Nat.add_zero]
  have hmod : ((E + 1) * 2 ^ m + F) % 2 ^ m = F := by
    rw [Nat.mul_comm, Nat.mul_add_mod, Nat.mod_eq_of_lt hF]
  rw [scaledMag_of_le (by rw [Nat.add_mul]; omega), hdiv, hmod, Nat.add_sub_cancel]

/-- **Every integer up to `2 ^ (m + 1)` is held**, and every even one up to twice as far. -/
theorem exists_scaledMag (hu : m + 1 ≤ unit e m) {n : Nat} (hn : n ≤ 2 ^ (m + 1) + 2) (hm : 1 ≤ m)
    (heven : 2 ^ (m + 1) < n → n % 2 = 0) (hbig : unit e m + 3 ≤ 2 ^ e - 1) :
    ∃ k ≤ infMag e m, scaledMag m k = n * 2 ^ unit e m := by
  by_cases h0 : n = 0
  · exact ⟨0, Nat.zero_le _, by rw [h0, Nat.zero_mul]; exact scaledMag_eq_zero.mpr rfl⟩
  have hfit : ∀ E F, E + 2 ≤ unit e m + 3 → F < 2 ^ m → (E + 1) * 2 ^ m + F ≤ infMag e m := by
    intro E F hE hF
    unfold infMag
    calc (E + 1) * 2 ^ m + F ≤ (E + 1) * 2 ^ m + 2 ^ m := by omega
      _ = (E + 2) * 2 ^ m := by ring
      _ ≤ (2 ^ e - 1) * 2 ^ m := Nat.mul_le_mul_right _ (by omega)
  have hpow : 2 ^ (m + 1) = 2 * 2 ^ m := by rw [Nat.pow_succ]; omega
  have htwo : 2 ≤ 2 ^ m := by
    calc 2 = 2 ^ 1 := rfl
      _ ≤ 2 ^ m := Nat.pow_le_pow_right (by omega) hm
  by_cases hsmall : n < 2 ^ (m + 1)
  · -- shifted up to its leading bit's place, it is a fraction of the format
    have hlog : Nat.log2 n ≤ m := by
      have := (Nat.log2_lt h0).mpr hsmall
      omega
    have hlo : 2 ^ m ≤ n * 2 ^ (m - Nat.log2 n) := by
      calc 2 ^ m = 2 ^ Nat.log2 n * 2 ^ (m - Nat.log2 n) := by rw [← Nat.pow_add]; congr 1; omega
        _ ≤ n * 2 ^ (m - Nat.log2 n) := Nat.mul_le_mul_right _ (Nat.log2_self_le h0)
    have hhi : n * 2 ^ (m - Nat.log2 n) < 2 * 2 ^ m := by
      calc n * 2 ^ (m - Nat.log2 n) < 2 ^ (Nat.log2 n + 1) * 2 ^ (m - Nat.log2 n) :=
            Nat.mul_lt_mul_of_pos_right Nat.lt_log2_self (Nat.two_pow_pos _)
        _ = 2 * 2 ^ m := by rw [← Nat.pow_add, ← hpow]; congr 1; omega
    refine ⟨(unit e m - (m - Nat.log2 n) + 1) * 2 ^ m + (n * 2 ^ (m - Nat.log2 n) - 2 ^ m),
      hfit _ _ (by omega) (by omega), ?_⟩
    rw [scaledMag_normal _ (by omega), Nat.add_sub_cancel' hlo, Nat.mul_assoc, ← Nat.pow_add]
    congr 2
    omega
  · -- the next two held are `2 ^ (m + 1)` and two more
    have hhalf : n % 2 = 0 := by
      rcases Nat.lt_or_eq_of_le (Nat.not_lt.mp hsmall) with hlt | heq
      · exact heven hlt
      · rw [← heq, hpow]
        omega
    have hn2 : n = 2 * (n / 2) := by omega
    refine ⟨(unit e m + 1 + 1) * 2 ^ m + (n / 2 - 2 ^ m), hfit _ _ (by omega) (by omega), ?_⟩
    rw [scaledMag_normal _ (by omega), Nat.add_sub_cancel' (by omega), Nat.pow_succ]
    conv_rhs => rw [hn2]
    ring

/-! ## 3. Integers rounded -/

/-- The magnitude an integer of absolute value `n` is rounded to. -/
def intMag (e m n : Nat) : Nat := roundMag e m (n * 2 ^ unit e m) 1

theorem intMag_mono {n n' : Nat} (h : n ≤ n') : intMag e m n ≤ intMag e m n' :=
  roundMag_mono Nat.one_pos (Nat.mul_le_mul_right _ h)

section Held

variable (hu : m + 1 ≤ unit e m) (hm : 1 ≤ m) (hbig : unit e m + 3 ≤ 2 ^ e - 1)

include hu hm hbig

/-- Two held integers are rounded apart. -/
theorem intMag_lt_of_held {n n' : Nat} (h : n < n') (hn' : n' ≤ 2 ^ (m + 1) + 2)
    (hn : 2 ^ (m + 1) < n → n % 2 = 0) (heven : 2 ^ (m + 1) < n' → n' % 2 = 0) :
    intMag e m n < intMag e m n' := by
  obtain ⟨k, hk, hs⟩ := exists_scaledMag hu (by omega : n ≤ 2 ^ (m + 1) + 2) hm hn hbig
  obtain ⟨k', hk', hs'⟩ := exists_scaledMag hu hn' hm heven hbig
  rw [intMag, intMag, ← hs, ← hs', roundMag_scaledMag hk, roundMag_scaledMag hk']
  by_contra hge
  have hle := scaledMag_mono m (Nat.not_lt.mp hge)
  rw [hs, hs'] at hle
  exact absurd (Nat.le_of_mul_le_mul_right hle (Nat.two_pow_pos _)) (by omega)

/-- **Up to `2 ^ (m + 1)` integers are kept apart.** -/
theorem intMag_lt {n n' : Nat} (h : n < n') (hn' : n' ≤ 2 ^ (m + 1)) :
    intMag e m n < intMag e m n' :=
  intMag_lt_of_held hu hm hbig h (by omega) (by omega) (by omega)

/-- **From two past `2 ^ (m + 1)` on, an integer is rounded past every one up to it.** -/
theorem intMag_past {n n' : Nat} (hn : n ≤ 2 ^ (m + 1)) (hn' : 2 ^ (m + 1) + 2 ≤ n') :
    intMag e m n < intMag e m n' := by
  have hpow : 2 ^ (m + 1) = 2 * 2 ^ m := by rw [Nat.pow_succ]; omega
  have hstep : intMag e m n < intMag e m (2 ^ (m + 1) + 2) :=
    intMag_lt_of_held hu hm hbig (by omega) (Nat.le_refl _) (by omega) (by omega)
  exact Nat.lt_of_lt_of_le hstep (intMag_mono hn')

end Held

theorem log2_between {n k : Nat} (h : 2 ^ k ≤ n) (h' : n < 2 ^ (k + 1)) : Nat.log2 n = k := by
  have h0 : n ≠ 0 := by
    have := Nat.two_pow_pos k
    omega
  exact (Nat.log2_eq_iff h0).mpr ⟨h, h'⟩

/-- **One past `2 ^ (m + 1)` is halfway to the next number, and rounded back to the even one.** -/
theorem intMag_tie (hm : 1 ≤ m) {k : Nat} (hk : k = 2 ^ (m + 1)) :
    intMag e m (k + 1) = intMag e m k := by
  have hround : ∀ r, r < 2 → roundMag e m ((2 ^ (m + 1) + r) * 2 ^ unit e m) 1 =
      min (infMag e m) ((unit e m + 1) * 2 ^ m + 2 ^ m) := by
    intro r hr
    generalize unit e m = u
    have hpos : 0 < 2 ^ u := Nat.two_pow_pos u
    have hmpos : 0 < 2 ^ m := Nat.two_pow_pos m
    have hsplit : (2 ^ (m + 1) + r) * 2 ^ u = 2 ^ m * 2 ^ (u + 1) + r * 2 ^ u := by ring
    have hrest : r * 2 ^ u ≤ 2 ^ u := by
      calc r * 2 ^ u ≤ 1 * 2 ^ u := Nat.mul_le_mul_right _ (by omega)
        _ = 2 ^ u := Nat.one_mul _
    have hdouble : 2 ^ (u + 1) = 2 * 2 ^ u := by ring
    have hlog : Nat.log2 ((2 ^ (m + 1) + r) * 2 ^ u) = m + (u + 1) := by
      refine log2_between ?_ ?_
      · rw [hsplit, Nat.pow_add]
        omega
      · have hmul : 1 * 2 ^ (u + 1) ≤ 2 ^ m * 2 ^ (u + 1) := Nat.mul_le_mul_right _ hmpos
        have hnext : 2 ^ (m + (u + 1) + 1) = 2 ^ m * 2 ^ (u + 1) + 2 ^ m * 2 ^ (u + 1) := by ring
        rw [hsplit, hnext]
        omega
    have hdiv : (2 ^ m * 2 ^ (u + 1) + r * 2 ^ u) / 2 ^ (u + 1) = 2 ^ m := by
      rw [Nat.mul_comm, Nat.mul_add_div (Nat.two_pow_pos _), Nat.div_eq_of_lt (by omega),
        Nat.add_zero]
    have hmod : (2 ^ m * 2 ^ (u + 1) + r * 2 ^ u) % 2 ^ (u + 1) = r * 2 ^ u := by
      rw [Nat.mul_comm, Nat.mul_add_mod, Nat.mod_eq_of_lt (by omega)]
    have heven : 2 ^ m % 2 = 0 := by
      obtain ⟨k, rfl⟩ : ∃ k, m = k + 1 := ⟨m - 1, by omega⟩
      rw [Nat.pow_succ, Nat.mul_mod_left]
    unfold roundMag
    simp only [Nat.div_one, hlog, Nat.add_sub_cancel_left, Nat.one_mul]
    rw [hsplit, rne, hdiv, hmod, if_neg]
    rintro (hlt | ⟨_, hodd⟩)
    · omega
    · omega
  have h0 := hround 0 (by omega)
  rw [Nat.add_zero] at h0
  rw [hk, intMag, intMag, hround 1 (by omega), h0]

theorem intMag_lt_two_pow (n : Nat) : intMag e m n < 2 ^ (e + m) :=
  Nat.lt_of_le_of_lt (roundMag_le _ _) infMag_lt

theorem ord_ofInt (i : Int) :
    (ofInt i : Ieee e m).ord = if i < 0 then -(intMag e m i.natAbs : Int) else intMag e m i.natAbs := by
  have hlt := intMag_lt_two_pow (e := e) (m := m) i.natAbs
  unfold ord ofInt ofScaled
  rw [show roundMag e m (i.natAbs * 2 ^ unit e m) 1 = intMag e m i.natAbs from rfl,
    mag_ofMag hlt, neg_ofMag hlt]
  by_cases hi : i < 0 <;> simp [hi]

theorem isNaN_ofInt (i : Int) : (ofInt i : Ieee e m).isNaN = false := by
  have hlt := intMag_lt_two_pow (e := e) (m := m) i.natAbs
  unfold isNaN ofInt ofScaled
  rw [show roundMag e m (i.natAbs * 2 ^ unit e m) 1 = intMag e m i.natAbs from rfl, mag_ofMag hlt]
  exact decide_eq_false (Nat.not_lt.mpr (roundMag_le _ _))

/-! ## 4. Products of integers that are held -/

theorem rne_mul_mul {n d k : Nat} (hk : 0 < k) : rne (n * k) (d * k) = rne n d := by
  have hdiv : n * k / (d * k) = n / d := Nat.mul_div_mul_right n d hk
  have hmod : n * k % (d * k) = n % d * k := Nat.mul_mod_mul_right k n d
  have hlt : d * k < 2 * (n % d * k) ↔ d < 2 * (n % d) := by
    rw [← Nat.mul_assoc]
    exact Nat.mul_lt_mul_right hk
  have heq : d * k = 2 * (n % d * k) ↔ d = 2 * (n % d) := by
    rw [← Nat.mul_assoc]
    exact Nat.mul_left_inj (by omega)
  unfold rne
  rw [hdiv, hmod]
  simp only [hlt, heq]

/-- A quotient that is whole is rounded as the whole number it is. -/
theorem roundMag_mul_right {n d : Nat} (hd : 0 < d) :
    roundMag e m (n * d) d = roundMag e m n 1 := by
  have hscale : ∀ sh, rne (n * d) (d * 2 ^ sh) = rne n (1 * 2 ^ sh) := fun sh => by
    rw [Nat.one_mul, Nat.mul_comm d, rne_mul_mul hd]
  unfold roundMag
  simp only [Nat.mul_div_cancel _ hd, Nat.div_one, hscale]

theorem mag_ofInt (i : Int) : (ofInt i : Ieee e m).mag = intMag e m i.natAbs :=
  mag_ofMag (intMag_lt_two_pow i.natAbs)

theorem neg_ofInt (i : Int) : (ofInt i : Ieee e m).neg = decide (i < 0) :=
  neg_ofMag (intMag_lt_two_pow i.natAbs)

theorem ofInt_zero : (ofInt 0 : Ieee e m) = ofMag false 0 := by
  unfold ofInt
  rw [Int.natAbs_zero, Nat.zero_mul, decide_eq_false (Int.lt_irrefl 0)]
  exact ofScaled_zero

/-- The number of an integer's negative is the integer's, its sign flipped, zero apart. -/
theorem negate_ofInt {n : Nat} (hn : 0 < n) : (ofInt n : Ieee e m).negate = ofInt (-n : Int) := by
  have hpos : ¬ (n : Int) < 0 := by omega
  have hneg : -(n : Int) < 0 := by omega
  refine ext_neg_mag ?_ ?_
  · rw [negate, neg_ofMag (mag_lt _), neg_ofInt, neg_ofInt, decide_eq_false hpos,
      decide_eq_true hneg]
    rfl
  · rw [negate, mag_ofMag (mag_lt _), mag_ofInt, mag_ofInt, Int.natAbs_neg]

section Held

variable (hu : m + 1 ≤ unit e m) (hm : 1 ≤ m) (hbig : unit e m + 3 ≤ 2 ^ e - 1)

include hu hm hbig

/-- **A held integer is what it is rounded to.** -/
theorem scaledMag_intMag {n : Nat} (hn : n ≤ 2 ^ (m + 1)) :
    scaledMag m (intMag e m n) = n * 2 ^ unit e m := by
  obtain ⟨k, hk, hs⟩ := exists_scaledMag hu (by omega : n ≤ 2 ^ (m + 1) + 2) hm (by omega) hbig
  rw [intMag, ← hs, roundMag_scaledMag hk]

theorem isFinite_ofInt {n : Nat} (hn : n ≤ 2 ^ (m + 1)) :
    (ofInt n : Ieee e m).isFinite = true := by
  have hlt : intMag e m n < infMag e m :=
    Nat.lt_of_lt_of_le (intMag_past hu hm hbig hn (Nat.le_refl _)) (roundMag_le _ _)
  unfold isFinite
  rw [mag_ofInt]
  exact decide_eq_true hlt

/-- **The product of two held integers is their product rounded.** -/
theorem mul_ofInt {a b : Nat} (ha : a ≤ 2 ^ (m + 1)) (hb : b ≤ 2 ^ (m + 1)) :
    (mul (ofInt a) (ofInt b) : Ieee e m) = ofInt (a * b : Nat) := by
  have hpos : ∀ n : Nat, ¬ (n : Int) < 0 := fun n => by omega
  have hscaled : ∀ {n : Nat}, n ≤ 2 ^ (m + 1) →
      (ofInt n : Ieee e m).scaled = n * 2 ^ unit e m := fun {n} hn => by
    rw [scaled, mag_ofInt]
    exact scaledMag_intMag hu hm hbig hn
  have hprod : a * 2 ^ unit e m * (b * 2 ^ unit e m) = a * b * 2 ^ unit e m * 2 ^ unit e m := by
    ring
  unfold mul
  simp only [isNaN_ofInt, isFinite_ofInt hu hm hbig ha, isFinite_ofInt hu hm hbig hb, neg_ofInt,
    hscaled ha, hscaled hb, hpos, decide_false, bne_self_eq_false, Bool.false_eq_true, if_false,
    Bool.not_true, Bool.or_self, hprod]
  unfold ofScaled
  rw [roundMag_mul_right (Nat.two_pow_pos _)]
  unfold ofInt ofScaled
  rw [decide_eq_false (hpos _), Int.natAbs_natCast]

/-- **A held integer is rounded once**: made a number of another format by way of this one, it is
what it is made there at once. -/
theorem convert_ofInt {e' m' : Nat} {i : Int} (hi : i.natAbs ≤ 2 ^ (m + 1)) :
    (convert (ofInt i : Ieee e m) : Ieee e' m') = ofInt i := by
  have hfinite : (ofInt i : Ieee e m).isFinite = true := by
    unfold isFinite
    rw [mag_ofInt]
    exact decide_eq_true (Nat.lt_of_lt_of_le
      (intMag_past hu hm hbig hi (Nat.le_refl _)) (roundMag_le _ _))
  have hscaled : (ofInt i : Ieee e m).scaled = i.natAbs * 2 ^ unit e m := by
    rw [scaled, mag_ofInt]
    exact scaledMag_intMag hu hm hbig hi
  have hprod : i.natAbs * 2 ^ unit e m * 2 ^ unit e' m' =
      i.natAbs * 2 ^ unit e' m' * 2 ^ unit e m := Nat.mul_right_comm _ _ _
  unfold convert
  rw [isNaN_ofInt, if_neg Bool.false_ne_true, hfinite, if_pos rfl, neg_ofInt, hscaled, hprod]
  unfold ofScaled
  rw [roundMag_mul_right (Nat.two_pow_pos _)]
  rfl

end Held

end Ieee

end Fenec.Lib
