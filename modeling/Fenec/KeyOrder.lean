/-
# Words that order as numbers do

An ordered index and a composite one file an integer under `intKey` and a float under `floatKey`,
words that compare as the numbers do.  `cmpValue` compares two integers, and two timestamps,
exactly, but an integer with a timestamp or a float as two floats.  Where one of the two is no
further from zero than `2 ^ 53` the floats compare as the integers do, with one exception: the
integer one past `2 ^ 53` is rounded to it and compares equal to it (`Collides`), though no
integer between them was ever lost from the words.
-/
import Fenec.Index
import Fenec.Lib.Rounding

namespace Fenec

open Lib

/-! ## 1. Words -/

theorem compare_int64 (a b : Int64) : compare a b = compare a.toInt b.toInt := by
  have hlt : a < b ↔ a.toInt < b.toInt := Int64.lt_iff_toInt_lt
  have heq : a = b ↔ a.toInt = b.toInt := Int64.toInt_inj.symm
  show (if a < b then Ordering.lt else if a = b then .eq else .gt) =
    if a.toInt < b.toInt then .lt else if a.toInt = b.toInt then .eq else .gt
  simp only [hlt, heq]

/-- The order of two naturals is that of the integers they are. -/
theorem compare_natCast (a b : Nat) : compare (a : Int) (b : Int) = compare a b := by
  rcases Nat.lt_trichotomy a b with h | h | h
  · rw [Nat.compare_eq_lt.mpr h, compare_lt_iff_lt]
    omega
  · rw [h, Std.compare_self, Std.compare_self]
  · rw [Nat.compare_eq_gt.mpr h, compare_gt_iff_gt]
    omega

/-- A map that keeps `<` keeps the comparison. -/
theorem compare_of_strictMono {f : Int → Int} (hf : ∀ a b, a < b → f a < f b) (a b : Int) :
    compare (f a) (f b) = compare a b := by
  rcases lt_trichotomy a b with h | h | h
  · rw [compare_lt_iff_lt.mpr h, compare_lt_iff_lt.mpr (hf a b h)]
  · rw [h, Std.compare_self, Std.compare_self]
  · rw [compare_gt_iff_gt.mpr h, compare_gt_iff_gt.mpr (hf b a h)]

theorem intKey_cast (i : Int64) : (intKey i : Int) = i.toInt + 2 ^ 63 := by
  have := i.le_toInt
  unfold intKey
  omega

theorem intKey_lt (i : Int64) : intKey i < 2 ^ 64 := by
  have := i.toInt_lt
  have := intKey_cast i
  omega

/-- **Integers' words compare as the integers do.** -/
theorem compare_intKey (a b : Int64) : compare (intKey a) (intKey b) = compare a b := by
  rw [← compare_natCast, intKey_cast, intKey_cast, compare_int64]
  exact compare_of_strictMono (f := (· + 2 ^ 63)) (fun _ _ h => Int.add_lt_add_right h _) _ _

/-- A float's word, from the key floats compare by. -/
theorem floatKey_cast (f : F64) :
    (floatKey f : Int) = if f.ord < 0 then f.ord + (2 ^ 63 - 1) else f.ord + 2 ^ 63 := by
  have hmag : f.mag < 2 ^ 63 := f.mag_lt
  have hbits := f.toNat_bits
  unfold floatKey
  by_cases h0 : f.mag = 0
  · have hord : f.ord = 0 := Ieee.ord_eq_zero.mpr h0
    rw [if_pos h0, hord]
    rfl
  · rw [if_neg h0]
    cases hneg : f.neg with
    | true =>
      have hord : f.ord = -(f.mag : Int) := by rw [Ieee.ord, hneg]; rfl
      rw [hneg, if_pos rfl] at hbits
      have hlt : -(f.mag : Int) < 0 := by omega
      dsimp only
      rw [hord, hneg, if_pos rfl, if_pos hlt]
      omega
    | false =>
      have hord : f.ord = f.mag := by rw [Ieee.ord, hneg]; rfl
      rw [hneg, if_neg Bool.false_ne_true] at hbits
      have hnot : ¬ (f.mag : Int) < 0 := by omega
      dsimp only
      rw [hord, hneg, if_neg Bool.false_ne_true, if_neg hnot]
      omega

theorem floatKey_lt (f : F64) : floatKey f < 2 ^ 64 := by
  have hmag : f.mag < 2 ^ 63 := f.mag_lt
  have hcast := floatKey_cast f
  have hle : f.ord ≤ f.mag := by
    unfold Ieee.ord
    split <;> omega
  split at hcast <;> omega

/-- **Floats' words compare as the floats do**, NaN apart. -/
theorem compare_floatKey {f g : F64} (hf : f.isNaN = false) (hg : g.isNaN = false) :
    compare (floatKey f) (floatKey g) = Value.cmpFloat f g := by
  rw [← compare_natCast, floatKey_cast, floatKey_cast, Value.cmpFloat, Ieee.partialCmp, hf, hg,
    Bool.or_false, if_neg Bool.false_ne_true, Option.getD_some]
  refine compare_of_strictMono
    (f := fun o => if o < 0 then o + (2 ^ 63 - 1) else o + 2 ^ 63) (fun a b h => ?_) _ _
  split <;> split <;> omega

/-! ## 2. Integers met as floats -/

/-- **Two integers a float does not tell apart**: the second is `2 ^ 53` or its opposite, the
first the integer one further from zero. -/
def Collides (a b : Int) : Prop :=
  b.natAbs = 2 ^ 53 ∧ a.natAbs = 2 ^ 53 + 1 ∧ (a < 0 ↔ b < 0)

instance (a b : Int) : Decidable (Collides a b) := by
  unfold Collides
  infer_instance

theorem intMag_apart {n n' : Nat} (hn : n ≤ 2 ^ 53) (h : n < n')
    (hne : ¬(n = 2 ^ 53 ∧ n' = 2 ^ 53 + 1)) : Ieee.intMag 11 52 n < Ieee.intMag 11 52 n' := by
  have hu : 52 + 1 ≤ Ieee.unit 11 52 := by decide
  have hbig : Ieee.unit 11 52 + 3 ≤ 2 ^ 11 - 1 := by decide
  rcases Nat.lt_or_ge (2 ^ 53 + 1) n' with hpast | hle
  · exact Ieee.intMag_past hu (by decide) hbig hn (by omega)
  · by_cases hn' : n' ≤ 2 ^ 53
    · exact Ieee.intMag_lt hu (by decide) hbig h hn'
    · -- one past `2 ^ 53`, and then the other is below it
      have hlast : n < 2 ^ 53 := by omega
      exact Nat.lt_of_lt_of_le (Ieee.intMag_lt hu (by decide) hbig hlast (Nat.le_refl _))
        (Ieee.intMag_mono (by omega))

theorem intMag_collides : Ieee.intMag 11 52 (2 ^ 53 + 1) = Ieee.intMag 11 52 (2 ^ 53) :=
  Ieee.intMag_tie (by decide) (by norm_num)

theorem cmpFloat_ofInt (a b : Int) :
    Value.cmpFloat (Ieee.ofInt a : F64) (Ieee.ofInt b) =
      compare (Ieee.ofInt a : F64).ord (Ieee.ofInt b : F64).ord := by
  rw [Value.cmpFloat, Ieee.partialCmp, Ieee.isNaN_ofInt, Ieee.isNaN_ofInt, Bool.or_false,
    if_neg Bool.false_ne_true, Option.getD_some]

theorem ord_lt_of_lt {a b : Int} (hsmall : a.natAbs ≤ 2 ^ 53 ∨ b.natAbs ≤ 2 ^ 53) (h : a < b)
    (hab : ¬ Collides a b) (hba : ¬ Collides b a) :
    (Ieee.ofInt a : F64).ord < (Ieee.ofInt b : F64).ord := by
  rw [Ieee.ord_ofInt, Ieee.ord_ofInt]
  -- the one nearer to zero is the small one
  have happart : ∀ x y : Int, x.natAbs < y.natAbs → (y.natAbs ≤ 2 ^ 53 ∨ x.natAbs ≤ 2 ^ 53) →
      ¬ Collides y x → (x < 0 ↔ y < 0) →
      Ieee.intMag 11 52 x.natAbs < Ieee.intMag 11 52 y.natAbs := by
    intro x y hxy hs hc hsign
    refine intMag_apart (by omega) hxy fun hbad => hc ⟨hbad.1, hbad.2, hsign.symm⟩
  have hpos : ∀ x : Int, x ≠ 0 → 0 < Ieee.intMag 11 52 x.natAbs := by
    intro x hx
    have hlt : 0 < x.natAbs := by omega
    have := intMag_apart (Nat.zero_le _) hlt (by omega)
    omega
  by_cases ha : a < 0
  · by_cases hb : b < 0
    · have := happart b a (by omega) (by omega) hab (by omega)
      rw [if_pos ha, if_pos hb]
      omega
    · have := hpos a (by omega)
      rw [if_pos ha, if_neg hb]
      omega
  · have := happart a b (by omega) (by omega) hba (by omega)
    rw [if_neg ha, if_neg (by omega)]
    omega

/-- Integers that collide are one float. -/
theorem ord_of_collides {a b : Int} (h : Collides a b) :
    (Ieee.ofInt a : F64).ord = (Ieee.ofInt b : F64).ord := by
  obtain ⟨hb, ha, hsign⟩ := h
  rw [Ieee.ord_ofInt, Ieee.ord_ofInt, ha, hb, intMag_collides]
  simp only [hsign]

/-- **Where one of two integers is up to `2 ^ 53`, they compare as floats as they do, except where
they collide.** -/
theorem cmpFloat_ofInt_iff {a b : Int} (hb : b.natAbs ≤ 2 ^ 53) :
    Value.cmpFloat (Ieee.ofInt a : F64) (Ieee.ofInt b) = compare a b ↔ ¬ Collides a b := by
  rw [cmpFloat_ofInt]
  constructor
  · intro h hcollides
    rw [ord_of_collides hcollides, Std.compare_self] at h
    have hab : a = b := Std.compare_eq_iff_eq.mp h.symm
    obtain ⟨hb', ha', -⟩ := hcollides
    omega
  · intro hab
    have hba : ¬ Collides b a := by
      rintro ⟨_, hb', _⟩
      omega
    rcases lt_trichotomy a b with h | h | h
    · rw [compare_lt_iff_lt.mpr h, compare_lt_iff_lt.mpr (ord_lt_of_lt (.inr hb) h hab hba)]
    · rw [h, Std.compare_self, Std.compare_self]
    · rw [compare_gt_iff_gt.mpr h, compare_gt_iff_gt.mpr (ord_lt_of_lt (.inl hb) h hba hab)]

theorem not_collides {a b : Int} (ha : a.natAbs ≤ 2 ^ 53) : ¬ Collides a b := by
  rintro ⟨_, h, _⟩
  omega

/-- Integers up to `2 ^ 53` are told apart. -/
theorem cmpFloat_ofInt_exact {a b : Int64} (ha : exactAsFloat a = true)
    (hb : exactAsFloat b = true) :
    Value.cmpFloat (Ieee.ofInt a.toInt : F64) (Ieee.ofInt b.toInt) = compare a b := by
  have ha' : a.toInt.natAbs ≤ 2 ^ 53 := of_decide_eq_true ha
  have hb' : b.toInt.natAbs ≤ 2 ^ 53 := of_decide_eq_true hb
  rw [(cmpFloat_ofInt_iff hb').mpr (not_collides ha'), compare_int64]

end Fenec
