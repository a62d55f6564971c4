/-
# The calendar in 64-bit arithmetic

`civil_from_days` and `days_from_civil` count eras of 400 years in an `i64`.  As long as the sum
with the days before 1970 does not run out of it nothing else does, and the two are the calendar's
own (`civilFromDays_exact`, `daysFromCivil_exact`): the date of a day is one there is, it has that
number of days, and dates come in the order of their days.
-/
import Fenec.Time
import Fenec.Lib.Gregorian

namespace Fenec

open Lib Gregorian

namespace Time

/-! ## 1. Arithmetic that stays within 64 bits -/

section Exact

variable {a b : Int64}

theorem add_exact (h : -2 ^ 63 ≤ a.toInt + b.toInt) (h' : a.toInt + b.toInt < 2 ^ 63) :
    (a + b).toInt = a.toInt + b.toInt := by
  rw [Int64.toInt_add, Int.bmod_eq_of_le (by omega) (by omega)]

theorem sub_exact (h : -2 ^ 63 ≤ a.toInt - b.toInt) (h' : a.toInt - b.toInt < 2 ^ 63) :
    (a - b).toInt = a.toInt - b.toInt := by
  rw [Int64.toInt_sub, Int.bmod_eq_of_le (by omega) (by omega)]

theorem mul_exact (h : -2 ^ 63 ≤ a.toInt * b.toInt) (h' : a.toInt * b.toInt < 2 ^ 63) :
    (a * b).toInt = a.toInt * b.toInt := by
  rw [Int64.toInt_mul, Int.bmod_eq_of_le (by omega) (by omega)]

/-- A quotient of what is not negative rounds down. -/
theorem div_exact (ha : 0 ≤ a.toInt) (hb : 0 < b.toInt) : (a / b).toInt = a.toInt / b.toInt := by
  have hne : b ≠ -1 := by
    rintro rfl
    exact absurd hb (by decide)
  rw [Int64.toInt_div_of_ne_right _ _ hne, Int.tdiv_eq_ediv_of_nonneg ha]

/-- A quotient of a negative, the divisor less one taken off first, rounds down too. -/
theorem era_exact {n : Int64} {k : Int} (hk : n.toInt = k) (hk0 : 0 < k) (hm : b.toInt = k - 1)
    (hlow : -2 ^ 63 + (k - 1) ≤ a.toInt) :
    ((if a ≥ 0 then a else a - b) / n).toInt = a.toInt / k := by
  by_cases ha : a ≥ 0
  · have ha' : 0 ≤ a.toInt := Int64.le_iff_toInt_le.mp ha
    rw [if_pos ha, div_exact ha' (by omega), hk]
  · have ha' : ¬ 0 ≤ a.toInt := fun h => ha (Int64.le_iff_toInt_le.mpr h)
    have hlt := a.toInt_lt
    have hsub : (a - b).toInt = a.toInt - (k - 1) := by rw [sub_exact] <;> omega
    have hne : n ≠ -1 := by
      rintro rfl
      rw [show ((-1 : Int64)).toInt = -1 from rfl] at hk
      omega
    rw [if_neg ha, Int64.toInt_div_of_ne_right _ _ hne, hsub, hk, Int.tdiv_eq_ediv]
    obtain ⟨q, r, hq, hr0, hr1⟩ : ∃ q r, a.toInt = k * q + r ∧ 0 ≤ r ∧ r < k :=
      ⟨a.toInt / k, a.toInt % k, (Int.mul_ediv_add_emod _ _).symm, Int.emod_nonneg _ (by omega),
        Int.emod_lt_of_pos _ hk0⟩
    have hfloor : a.toInt / k = q := by
      rw [hq, Int.mul_add_ediv_left _ _ (by omega), Int.ediv_eq_zero_of_lt hr0 hr1, Int.add_zero]
    rw [hfloor, Int.sign_eq_one_of_pos hk0]
    by_cases hr : r = k - 1
    · -- the number taken off makes a multiple of it
      have heq : a.toInt - (k - 1) = k * q := by omega
      rw [heq, if_pos (.inr (Dvd.intro _ rfl)), Int.mul_ediv_cancel_left _ (by omega), Int.add_zero]
    · have heq : a.toInt - (k - 1) = k * (q - 1) + (r + 1) := by
        rw [Int.mul_sub, Int.mul_one]
        omega
      have hfl : (k * (q - 1) + (r + 1)) / k = q - 1 := by
        rw [Int.mul_add_ediv_left _ _ (by omega), Int.ediv_eq_zero_of_lt (by omega) (by omega),
          Int.add_zero]
      have hndvd : ¬ k ∣ k * (q - 1) + (r + 1) := by
        intro hd
        have hdr : k ∣ r + 1 := (Int.dvd_add_right (Dvd.intro _ rfl)).mp hd
        exact absurd (Int.le_of_dvd (by omega) hdr) (by omega)
      have hcase : ¬ (0 ≤ k * (q - 1) + (r + 1) ∨ k ∣ k * (q - 1) + (r + 1)) :=
        not_or.mpr ⟨by omega, hndvd⟩
      rw [heq, hfl, if_neg hcase]
      omega

end Exact

theorem asU32_exact {n : Int64} (h0 : 0 ≤ n.toInt) (h : n.toInt < 2 ^ 32) :
    (asU32 n : Int) = n.toInt := by
  unfold asU32
  omega

/-! ## 2. Days and dates -/

/-- The year of the era a day of it lies in. -/
theorem yearOf_exact {doe : Int64} {n : Nat} (hn : doe.toInt = n) (h : n < 146097) :
    ((doe - doe / 1460 + doe / 36524 - doe / 146096) / 365).toInt = yearOf n := by
  have h1 : (doe / 1460).toInt = n / 1460 := hn ▸ div_exact (by omega) (by decide)
  have h2 : (doe / 36524).toInt = n / 36524 := hn ▸ div_exact (by omega) (by decide)
  have h3 : (doe / 146096).toInt = n / 146096 := hn ▸ div_exact (by omega) (by decide)
  have h4 : (doe - doe / 1460).toInt = n - n / 1460 := by
    rw [sub_exact] <;> omega
  have h5 : (doe - doe / 1460 + doe / 36524).toInt = n - n / 1460 + n / 36524 := by
    rw [add_exact] <;> omega
  have h6 : (doe - doe / 1460 + doe / 36524 - doe / 146096).toInt =
      (n - n / 1460 + n / 36524 - n / 146096 : Nat) := by
    rw [sub_exact] <;> omega
  rw [div_exact (by omega) (by decide), h6, yearOf]
  rfl

/-- The days of an era before one of its years. -/
theorem yearStart_exact {yoe : Int64} {y : Nat} (hy : yoe.toInt = y) (h : y < 400) :
    (365 * yoe + yoe / 4 - yoe / 100).toInt = yearStart y := by
  have h1 : (365 * yoe).toInt = 365 * y := by
    have hlit : (365 : Int64).toInt = 365 := rfl
    rw [mul_exact, hlit, hy] <;> rw [hlit] <;> omega
  have h2 : (yoe / 4).toInt = y / 4 := hy ▸ div_exact (by omega) (by decide)
  have h3 : (yoe / 100).toInt = y / 100 := hy ▸ div_exact (by omega) (by decide)
  have h4 : (365 * yoe + yoe / 4).toInt = 365 * y + y / 4 := by
    rw [add_exact] <;> omega
  unfold yearStart
  rw [sub_exact] <;> omega

/-- The days of a year before one of its months. -/
theorem monthStart_exact {mp : Int64} {p : Int} (hp : mp.toInt = p) (h0 : 0 ≤ p) (h : p ≤ 11) :
    ((153 * mp + 2) / 5).toInt = monthStart p := by
  have hlit : (153 : Int64).toInt = 153 := rfl
  have hlit' : (2 : Int64).toInt = 2 := rfl
  have h1 : (153 * mp).toInt = 153 * p := by
    rw [mul_exact, hlit, hp] <;> rw [hlit] <;> omega
  have h2 : (153 * mp + 2).toInt = 153 * p + 2 := by
    rw [add_exact] <;> omega
  rw [div_exact (by omega) (by decide), h2]
  rfl

/-- The month a day of a year lies in. -/
theorem monthOf_exact {doy : Int64} (h0 : 0 ≤ doy.toInt) (h : doy.toInt ≤ 365) :
    ((5 * doy + 2) / 153).toInt = monthOf doy.toInt := by
  have hlit : (5 : Int64).toInt = 5 := rfl
  have hlit' : (2 : Int64).toInt = 2 := rfl
  have h1 : (5 * doy).toInt = 5 * doy.toInt := by
    rw [mul_exact, hlit] <;> rw [hlit] <;> omega
  have h2 : (5 * doy + 2).toInt = 5 * doy.toInt + 2 := by
    rw [add_exact] <;> omega
  rw [div_exact (by omega) (by decide), h2]
  rfl

/-- **`civil_from_days` is the calendar's date of a day.** -/
theorem civilFromDays_exact {z : Int64} (h : z.toInt < 2 ^ 63 - 719468) :
    ((civilFromDays z).1.toInt, ((civilFromDays z).2.1 : Int), ((civilFromDays z).2.2 : Int)) =
      civil (z.toInt + 719468) := by
  have hlow := z.le_toInt
  have hlit : (719468 : Int64).toInt = 719468 := rfl
  have hz : (z + 719468).toInt = z.toInt + 719468 := by
    rw [add_exact, hlit] <;> rw [hlit] <;> omega
  rw [← hz]
  simp only [civilFromDays, civil]
  generalize z + 719468 = w at hz ⊢
  have hwlt := w.toInt_lt
  have hera : ((if w ≥ 0 then w else w - 146096) / 146097).toInt = w.toInt / 146097 :=
    era_exact rfl (by decide) rfl (by omega)
  generalize (if w ≥ 0 then w else w - 146096) / 146097 = era at hera ⊢
  have hdoe : (w - era * 146097).toInt = w.toInt % 146097 := by
    have hlit : (146097 : Int64).toInt = 146097 := rfl
    have hmul : (era * 146097).toInt = era.toInt * 146097 := by
      rw [mul_exact, hlit] <;> rw [hlit] <;> omega
    rw [sub_exact] <;> omega
  rw [← hdoe]
  generalize w - era * 146097 = doe at hdoe ⊢
  obtain ⟨n, hn⟩ : ∃ n : Nat, doe.toInt = n := ⟨doe.toInt.toNat, by omega⟩
  rw [hn, Int.toNat_natCast]
  obtain ⟨hy, hstart, hend⟩ := yearOf_bounds n (by omega)
  have hyoe := yearOf_exact hn (by omega)
  generalize (doe - doe / 1460 + doe / 36524 - doe / 146096) / 365 = yoe at hyoe ⊢
  have hfirst := eraStart_eq (yearOf n)
  have hlast := eraStart_eq (yearOf n + 1)
  have hlen := yearStart_succ_le (yearOf n)
  push_cast at hlast
  generalize yearOf n = y at hy hstart hend hyoe hfirst hlast hlen ⊢
  have hyear : (yoe + era * 400).toInt = y + w.toInt / 146097 * 400 := by
    have hlit : (400 : Int64).toInt = 400 := rfl
    have hmul : (era * 400).toInt = era.toInt * 400 := by
      rw [mul_exact, hlit] <;> rw [hlit] <;> omega
    rw [add_exact] <;> omega
  -- the day of the year, its month and the day of that
  have hdoy : (doe - (365 * yoe + yoe / 4 - yoe / 100)).toInt = n - yearStart y := by
    have hsub := yearStart_exact hyoe hy
    rw [sub_exact] <;> omega
  generalize doe - (365 * yoe + yoe / 4 - yoe / 100) = doy at hdoy ⊢
  rw [← hdoy]
  have hd0 : 0 ≤ doy.toInt := by omega
  have hd1 : doy.toInt ≤ 365 := by omega
  obtain ⟨hm0, hm11, hmlow, hmhigh⟩ := monthOf_bounds _ hd0 hd1
  have hmp := monthOf_exact hd0 hd1
  generalize (5 * doy + 2) / 153 = mp at hmp ⊢
  generalize monthOf doy.toInt = p at hm0 hm11 hmlow hmhigh hmp ⊢
  have hday : (asU32 (doy - (153 * mp + 2) / 5 + 1) : Int) = doy.toInt - monthStart p + 1 := by
    have hms := monthStart_exact hmp hm0 hm11
    have hbound : monthStart (p + 1) ≤ monthStart p + 31 := by
      unfold monthStart
      omega
    have hsub : (doy - (153 * mp + 2) / 5).toInt = doy.toInt - monthStart p := by
      rw [sub_exact] <;> omega
    have hlit : (1 : Int64).toInt = 1 := rfl
    have hadd : (doy - (153 * mp + 2) / 5 + 1).toInt = doy.toInt - monthStart p + 1 := by
      rw [add_exact] <;> omega
    rw [asU32_exact, hadd] <;> omega
  have hmonth : (asU32 (if mp < 10 then mp + 3 else mp - 9) : Int) =
      if p < 10 then p + 3 else p - 9 := by
    have hlt : mp < 10 ↔ p < 10 := by
      rw [Int64.lt_iff_toInt_lt, hmp]
      rfl
    by_cases h10 : p < 10
    · have hlit : (3 : Int64).toInt = 3 := rfl
      have hadd : (mp + 3).toInt = p + 3 := by
        rw [add_exact] <;> omega
      rw [if_pos (hlt.mpr h10), if_pos h10, asU32_exact, hadd] <;> omega
    · have hlit : (9 : Int64).toInt = 9 := rfl
      have hsub : (mp - 9).toInt = p - 9 := by
        rw [sub_exact] <;> omega
      rw [if_neg (mt hlt.mp h10), if_neg h10, asU32_exact, hsub] <;> omega
  generalize asU32 (if mp < 10 then mp + 3 else mp - 9) = mo at hmonth ⊢
  rw [← hmonth, hday]
  by_cases h2 : mo ≤ 2
  · have hlit : (1 : Int64).toInt = 1 := rfl
    have hnext : (yoe + era * 400 + 1).toInt = y + w.toInt / 146097 * 400 + 1 := by
      rw [add_exact] <;> omega
    rw [if_pos h2, if_pos (by omega), hnext]
  · rw [if_neg h2, if_neg (by omega), hyear]

/-- The days of whole eras and of one that has begun, from 1970. -/
theorem eraDays_exact {era doe : Int64} {e n : Int} (he : era.toInt = e) (hn : doe.toInt = n)
    (h0 : 0 ≤ n) (hle : n ≤ 719468) (hlow : -2 ^ 63 ≤ e * 146097 + n - 719468)
    (hhigh : e * 146097 + n < 2 ^ 63) :
    (era * 146097 + doe - 719468).toInt = e * 146097 + n - 719468 := by
  have hmul : (era * 146097).toInt = e * 146097 := by
    have hlit : (146097 : Int64).toInt = 146097 := rfl
    rw [mul_exact, hlit, he] <;> rw [hlit, he] <;> omega
  have hsum : (era * 146097 + doe).toInt = e * 146097 + n := by
    rw [add_exact, hmul, hn] <;> rw [hmul, hn] <;> omega
  have hlit : (719468 : Int64).toInt = 719468 := rfl
  rw [sub_exact, hsum, hlit] <;> rw [hsum, hlit] <;> omega

/-- **`days_from_civil` counts the days of a date**, where they can be counted. -/
theorem daysFromCivil_exact {y : Int64} {mo d : Nat} (h1 : 1 ≤ mo) (h12 : mo ≤ 12) (hd : 1 ≤ d)
    (h31 : d ≤ 31) (hlow : -2 ^ 63 ≤ days y.toInt mo d - 719468)
    (hhigh : days y.toInt mo d < 2 ^ 63) :
    (daysFromCivil y mo d).toInt = days y.toInt mo d - 719468 := by
  have hylow := y.le_toInt
  have hyhigh := y.toInt_lt
  unfold days at hlow hhigh ⊢
  obtain ⟨hm0, hm11⟩ := marchMonth_bounds (m := mo) (by omega) (by omega)
  have hmlow : 0 ≤ monthStart (marchMonth mo) := by
    unfold monthStart
    omega
  have hmhigh : monthStart (marchMonth mo) ≤ 337 := by
    unfold monthStart
    omega
  simp only [daysFromCivil]
  -- the year and the month from March
  have hyear : (if mo ≤ 2 then y - 1 else y).toInt = marchYear y.toInt mo := by
    have hlit : (1 : Int64).toInt = 1 := rfl
    unfold marchYear at hlow ⊢
    unfold yearStart at hlow
    by_cases h2 : mo ≤ 2
    · rw [if_pos (by omega)] at hlow
      rw [if_pos h2, if_pos (by omega), sub_exact, hlit] <;> rw [hlit] <;> omega
    · rw [if_neg h2, if_neg (by omega)]
  generalize marchYear y.toInt mo = y' at hyear hlow hhigh ⊢
  generalize (if mo ≤ 2 then y - 1 else y) = w at hyear ⊢
  have hmp : (Int64.ofNat (if mo > 2 then mo - 3 else mo + 9)).toInt = marchMonth mo := by
    unfold marchMonth
    by_cases h2 : mo ≤ 2
    · rw [if_neg (by omega), if_pos (by omega), Int64.toInt_ofNat_of_lt (by omega)]
      omega
    · rw [if_pos (by omega), if_neg (by omega), Int64.toInt_ofNat_of_lt (by omega)]
      omega
  generalize Int64.ofNat (if mo > 2 then mo - 3 else mo + 9) = mp at hmp ⊢
  generalize marchMonth mo = p at hm0 hm11 hmlow hmhigh hlow hhigh hmp ⊢
  have hyears : -2 ^ 63 + 399 ≤ y' ∧ y' < 2 ^ 60 := by
    unfold yearStart at hlow hhigh
    omega
  have hera : ((if w ≥ 0 then w else w - 399) / 400).toInt = y' / 400 := by
    rw [era_exact (k := 400) rfl (by decide) rfl (by omega), hyear]
  generalize (if w ≥ 0 then w else w - 399) / 400 = era at hera ⊢
  obtain ⟨k, hk⟩ : ∃ k : Nat, y' % 400 = k := ⟨(y' % 400).toNat, by omega⟩
  have hyoe : (w - era * 400).toInt = k := by
    have hlit : (400 : Int64).toInt = 400 := rfl
    have hmul : (era * 400).toInt = era.toInt * 400 := by
      rw [mul_exact, hlit] <;> rw [hlit] <;> omega
    rw [sub_exact] <;> omega
  generalize w - era * 400 = yoe at hyoe ⊢
  have hstart := yearStart_exact hyoe (by omega)
  have hyearStart : yearStart y' = y' / 400 * 146097 + yearStart k := by
    rw [← yearStart_era, ← hk]
    congr 1
    omega
  have hk0 : 0 ≤ yearStart k ∧ yearStart k ≤ 145731 := by
    unfold yearStart
    omega
  have hdoy : ((153 * mp + 2) / 5 + Int64.ofNat d - 1).toInt = monthStart p + d - 1 := by
    have hms := monthStart_exact hmp hm0 hm11
    have hlit : (1 : Int64).toInt = 1 := rfl
    have hofd : (Int64.ofNat d).toInt = d := Int64.toInt_ofNat_of_lt (by omega)
    have hadd : ((153 * mp + 2) / 5 + Int64.ofNat d).toInt = monthStart p + d := by
      rw [add_exact] <;> omega
    rw [sub_exact] <;> omega
  have hdoe : (yoe * 365 + yoe / 4 - yoe / 100 + ((153 * mp + 2) / 5 + Int64.ofNat d - 1)).toInt =
      yearStart k + (monthStart p + d - 1) := by
    rw [Int64.mul_comm yoe 365, add_exact, hstart, hdoy] <;> rw [hstart, hdoy] <;>
      clear hlow hhigh <;> omega
  rw [eraDays_exact hera hdoe, hyearStart] <;> omega

/-! ## 3. A day and its date -/

section Dates

variable {z z' : Int64}

/-- The date of a day, its numbers unbounded. -/
def dateOf (z : Int64) : Int × Int × Int :=
  ((civilFromDays z).1.toInt, (civilFromDays z).2.1, (civilFromDays z).2.2)

theorem dateOf_eq (h : z.toInt < 2 ^ 63 - 719468) : dateOf z = civil (z.toInt + 719468) :=
  civilFromDays_exact h

/-- **The date of a day is one there is.** -/
theorem dateOf_valid (h : z.toInt < 2 ^ 63 - 719468) :
    Valid (dateOf z).1 (dateOf z).2.1 (dateOf z).2.2 := by
  rw [dateOf_eq h]
  exact civil_valid _

/-- **A day is the number of days of its date.** -/
theorem daysFromCivil_civilFromDays (h : z.toInt < 2 ^ 63 - 719468) :
    daysFromCivil (civilFromDays z).1 (civilFromDays z).2.1 (civilFromDays z).2.2 = z := by
  have hlow := z.le_toInt
  obtain ⟨h1, h12, hd, hlen⟩ := dateOf_valid h
  have h31 := monthLength_le (dateOf z).1 (dateOf z).2.1
  have hdays : days (civilFromDays z).1.toInt (civilFromDays z).2.1 (civilFromDays z).2.2 =
      z.toInt + 719468 := by
    have hback := days_civil (z.toInt + 719468)
    rw [← dateOf_eq h, dateOf] at hback
    exact hback
  have hmo : 1 ≤ (civilFromDays z).2.1 := Int.ofNat_le.mp h1
  have hmo' : (civilFromDays z).2.1 ≤ 12 := Int.ofNat_le.mp h12
  have hday : 1 ≤ (civilFromDays z).2.2 := Int.ofNat_le.mp hd
  have hday' : (civilFromDays z).2.2 ≤ 31 := Int.ofNat_le.mp (hlen.trans h31)
  apply Int64.toInt_inj.mp
  rw [daysFromCivil_exact hmo hmo' hday hday' (by omega) (by omega), hdays]
  omega

/-- Later days have later dates. -/
theorem dateOf_before (h' : z'.toInt < 2 ^ 63 - 719468) (hlt : z.toInt < z'.toInt) :
    Before (dateOf z) (dateOf z') := by
  rw [dateOf_eq (hlt.trans h'), dateOf_eq h']
  exact civil_before (by omega)

end Dates

end Time

end Fenec
