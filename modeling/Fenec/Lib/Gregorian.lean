/-
# The days of the Gregorian calendar, counted

Every fourth year has a leap day but the centuries, of which every fourth has.  A year taken to
begin in March has its leap day last, so that the days before a year (`yearStart`) and the days
before a month of it (`monthStart`) are each one formula with no case for the leap day, and a date
is their sum (`days`).

The other way round a day is divided into an era of 400 years, a year of the era and a month of
the year (`civil`).  The year comes from a quotient that takes the leap days off first; it is
never less than the year of a later day, so its 400 values at the first and the last day of each
year decide it (`yearOf_bounds`).

What holds of the two is that `civil` is a date with that number of days (`days_civil`,
`civil_valid`), and that dates stand in the order of their days (`days_lt`, `civil_before`).
-/
import Mathlib.Tactic.IntervalCases
import Mathlib.Tactic.Ring

namespace Fenec.Lib.Gregorian

/-! ## 1. Dates -/

/-- A year with a leap day. -/
def leap (y : Int) : Prop := y % 4 = 0 ∧ (y % 100 ≠ 0 ∨ y % 400 = 0)

instance (y : Int) : Decidable (leap y) := inferInstanceAs (Decidable (_ ∧ _))

/-- The days of a month. -/
def monthLength (y m : Int) : Int :=
  if m = 2 then if leap y then 29 else 28
  else if m = 4 ∨ m = 6 ∨ m = 9 ∨ m = 11 then 30
  else 31

/-- A date there is. -/
structure Valid (y m d : Int) : Prop where
  month_pos : 1 ≤ m
  month_le : m ≤ 12
  day_pos : 1 ≤ d
  day_le : d ≤ monthLength y m

/-- One date is before another. -/
def Before (a b : Int × Int × Int) : Prop :=
  a.1 < b.1 ∨ a.1 = b.1 ∧ (a.2.1 < b.2.1 ∨ a.2.1 = b.2.1 ∧ a.2.2 < b.2.2)

/-! ## 2. The days before a year and before a month of it

Years begin in March here and months count from it. -/

/-- The days before a year, from the first of year 0. -/
def yearStart (y : Int) : Int := 365 * y + y / 4 - y / 100 + y / 400

/-- The days before a month of its year. -/
def monthStart (m : Int) : Int := (153 * m + 2) / 5

theorem monthLength_le (y m : Int) : monthLength y m ≤ 31 := by
  unfold monthLength
  split
  · split <;> omega
  · split <;> omega

theorem monthLength_feb (y : Int) : monthLength y 2 = if leap y then 29 else 28 := if_pos rfl

/-- A year's last month is the February of the next. -/
theorem yearStart_succ (y : Int) :
    yearStart (y + 1) = yearStart y + monthStart 11 + monthLength (y + 1) 2 := by
  rw [monthLength_feb]
  unfold yearStart monthStart
  by_cases h : leap (y + 1)
  · rw [if_pos h]
    unfold leap at h
    omega
  · rw [if_neg h]
    unfold leap at h
    omega

theorem yearStart_succ_le (y : Int) : yearStart (y + 1) ≤ yearStart y + 366 := by
  unfold yearStart
  omega

theorem yearStart_lt {y y' : Int} (h : y < y') : yearStart (y + 1) ≤ yearStart y' := by
  unfold yearStart
  omega

/-- The years of one era are those of any other. -/
theorem yearStart_era (era yoe : Int) :
    yearStart (yoe + era * 400) = era * 146097 + yearStart yoe := by
  unfold yearStart
  omega

/-- **The days of a month are those up to the next**, counted from March. -/
theorem monthStart_succ {y m : Int} (h0 : 0 ≤ m) (h11 : m < 10) :
    monthStart (m + 1) = monthStart m + monthLength y (m + 3) := by
  unfold monthStart monthLength
  interval_cases m <;> simp

theorem monthStart_jan (y : Int) : monthStart 11 = monthStart 10 + monthLength y 1 := by
  simp [monthStart, monthLength]

theorem monthStart_lt {m m' : Int} (h : m < m') : monthStart (m + 1) ≤ monthStart m' := by
  unfold monthStart
  omega

/-! ## 3. The days of a date -/

/-- The year a date is in, from March. -/
def marchYear (y m : Int) : Int := if m ≤ 2 then y - 1 else y

/-- The month of a date, from March. -/
def marchMonth (m : Int) : Int := if m ≤ 2 then m + 9 else m - 3

/-- **The number of a day**, from the first of March of year 0. -/
def days (y m d : Int) : Int := yearStart (marchYear y m) + monthStart (marchMonth m) + (d - 1)

theorem marchMonth_bounds {m : Int} (h1 : 1 ≤ m) (h12 : m ≤ 12) :
    0 ≤ marchMonth m ∧ marchMonth m ≤ 11 := by
  unfold marchMonth
  split <;> omega

/-- A month ends where the next one of its year begins, or the next year. -/
theorem month_end {y m : Int} (h1 : 1 ≤ m) (h12 : m ≤ 12) :
    (marchMonth m < 11 → monthStart (marchMonth m) + monthLength y m =
      monthStart (marchMonth m + 1)) ∧
    (marchMonth m = 11 → yearStart (marchYear y m) + monthStart (marchMonth m) + monthLength y m =
      yearStart (marchYear y m + 1)) := by
  rcases Int.lt_or_le 2 m with h2 | h2
  · have hm : marchMonth m = m - 3 := if_neg (by omega)
    rw [hm]
    refine ⟨fun _ => ?_, fun h => by omega⟩
    have hnext := monthStart_succ (y := y) (m := m - 3) (by omega) (by omega)
    rw [Int.sub_add_cancel] at hnext
    exact hnext.symm
  · rcases (by omega : m = 1 ∨ m = 2) with rfl | rfl
    · exact ⟨fun _ => (monthStart_jan y).symm, fun h => by simp [marchMonth] at h⟩
    · refine ⟨fun h => by simp [marchMonth] at h, fun _ => ?_⟩
      have hnext := yearStart_succ (y - 1)
      rw [Int.sub_add_cancel] at hnext
      have hy : marchYear y 2 = y - 1 := rfl
      have hm : marchMonth 2 = 11 := rfl
      rw [hy, hm, Int.sub_add_cancel, hnext]

/-- **Dates stand in the order of their days.** -/
theorem days_lt {y m d y' m' d' : Int} (h : Valid y m d) (h' : Valid y' m' d')
    (hlt : Before (y, m, d) (y', m', d')) : days y m d < days y' m' d' := by
  obtain ⟨h1, h12, hd, hlen⟩ := h
  obtain ⟨h1', h12', hd', -⟩ := h'
  obtain ⟨hnext, hlast⟩ := month_end (y := y) h1 h12
  have hb := marchMonth_bounds h1 h12
  have hb' := marchMonth_bounds h1' h12'
  -- the later date has a later year from March, or a later month of it, or a later day
  have hcase : marchYear y m < marchYear y' m' ∨ marchYear y m = marchYear y' m' ∧
      (marchMonth m < marchMonth m' ∨ marchMonth m = marchMonth m' ∧ d < d') := by
    unfold Before at hlt
    unfold marchYear marchMonth
    dsimp only at hlt
    split <;> split <;> omega
  have hzero : ∀ n : Int, 0 ≤ n → 0 ≤ monthStart n := fun n hn => by unfold monthStart; omega
  have hfit : yearStart (marchYear y m) + monthStart (marchMonth m) + monthLength y m ≤
      yearStart (marchYear y m + 1) := by
    rcases Int.lt_or_le (marchMonth m) 11 with h11 | h11
    · have hle : monthStart (marchMonth m + 1) ≤ monthStart 11 := by
        unfold monthStart
        omega
      have hs := yearStart_succ (marchYear y m)
      have hpos : 0 ≤ monthLength (marchYear y m + 1) 2 := by
        rw [monthLength_feb]
        split <;> omega
      have := hnext h11
      omega
    · exact le_of_eq (hlast (by omega))
  unfold days
  rcases hcase with hy | ⟨hy, hm | ⟨hm, hday⟩⟩
  · have hle := yearStart_lt hy
    have := hzero _ hb'.1
    omega
  · have hle := monthStart_lt hm
    have := hnext (by omega)
    rw [hy]
    omega
  · rw [hy, hm]
    omega

/-! ## 4. The year of a day

A day of an era, its leap days taken off, divided by 365. -/

/-- The year of an era that its day `doe` is in. -/
def yearOf (doe : Nat) : Nat := (doe - doe / 1460 + doe / 36524 - doe / 146096) / 365

theorem yearOf_mono {a b : Nat} (h : a ≤ b) : yearOf a ≤ yearOf b := by
  unfold yearOf
  refine Nat.div_le_div_right ?_
  omega

/-- The days of an era before its year `y`. -/
def eraStart (y : Nat) : Nat := 365 * y + y / 4 - y / 100 + y / 400

theorem eraStart_eq (y : Nat) : (eraStart y : Int) = yearStart y := by
  unfold eraStart yearStart
  omega

/-- The first and the last day of each year. -/
theorem yearOf_ends : ∀ y < 400, yearOf (eraStart y) = y ∧ yearOf (eraStart (y + 1) - 1) = y := by
  decide +kernel

/-- **A day lies in the year the quotient gives.** -/
theorem yearOf_bounds (doe : Nat) (h : doe < 146097) :
    yearOf doe < 400 ∧ eraStart (yearOf doe) ≤ doe ∧ doe < eraStart (yearOf doe + 1) := by
  -- the last year that begins at or before the day
  have hfind : ∀ n, doe < eraStart n → ∃ y < n, eraStart y ≤ doe ∧ doe < eraStart (y + 1) := by
    intro n
    induction n with
    | zero => exact fun hlt => absurd hlt (Nat.not_lt_zero _)
    | succ n ih =>
      intro hlt
      rcases Nat.lt_or_ge doe (eraStart n) with hn | hn
      · obtain ⟨y, hy, hin⟩ := ih hn
        exact ⟨y, Nat.lt_succ_of_lt hy, hin⟩
      · exact ⟨n, Nat.lt_succ_self n, hn, hlt⟩
  obtain ⟨y, hy, hlow, hhigh⟩ := hfind 400 h
  obtain ⟨hfirst, hlast⟩ := yearOf_ends y hy
  have hge := yearOf_mono hlow
  have hle := yearOf_mono (Nat.le_sub_one_of_lt hhigh)
  have heq : yearOf doe = y := by omega
  rw [heq]
  exact ⟨hy, hlow, hhigh⟩

/-! ## 5. The date of a day -/

/-- The month from March and the day of it, of a day of a year from March. -/
def monthOf (doy : Int) : Int := (5 * doy + 2) / 153

/-- **The date of a day**, counted from the first of March of year 0. -/
def civil (z : Int) : Int × Int × Int :=
  let era := z / 146097
  let doe := z % 146097
  let yoe : Int := yearOf doe.toNat
  let doy := doe - yearStart yoe
  let mp := monthOf doy
  let m := if mp < 10 then mp + 3 else mp - 9
  let y := yoe + era * 400
  (if m ≤ 2 then y + 1 else y, m, doy - monthStart mp + 1)

theorem monthOf_bounds (doy : Int) (h0 : 0 ≤ doy) (h1 : doy ≤ 365) :
    0 ≤ monthOf doy ∧ monthOf doy ≤ 11 ∧ monthStart (monthOf doy) ≤ doy ∧
      doy < monthStart (monthOf doy + 1) := by
  unfold monthOf monthStart
  omega

/-- The month and the year from January give back those from March. -/
theorem march_back {y m mp : Int} (h0 : 0 ≤ mp) (h11 : mp ≤ 11)
    (hm : m = if mp < 10 then mp + 3 else mp - 9) :
    1 ≤ m ∧ m ≤ 12 ∧ marchMonth m = mp ∧ marchYear (if m ≤ 2 then y + 1 else y) m = y := by
  rcases Int.lt_or_le mp 10 with h10 | h10
  · rw [if_pos h10] at hm
    have hm2 : ¬ m ≤ 2 := by omega
    refine ⟨by omega, by omega, ?_, ?_⟩
    · rw [marchMonth, if_neg hm2]
      omega
    · rw [marchYear, if_neg hm2, if_neg hm2]
  · rw [if_neg (by omega)] at hm
    have hm2 : m ≤ 2 := by omega
    refine ⟨by omega, by omega, ?_, ?_⟩
    · rw [marchMonth, if_pos hm2]
      omega
    · rw [marchYear, if_pos hm2, if_pos hm2]
      omega

/-- **The date of a day is one there is, and its days are those counted.** -/
theorem civil_spec (z : Int) :
    Valid (civil z).1 (civil z).2.1 (civil z).2.2 ∧
      days (civil z).1 (civil z).2.1 (civil z).2.2 = z := by
  have hdoe0 : 0 ≤ z % 146097 := Int.emod_nonneg _ (by decide)
  have hdoe1 : z % 146097 < 146097 := Int.emod_lt_of_pos _ (by decide)
  obtain ⟨hy, hlow, hhigh⟩ := yearOf_bounds (z % 146097).toNat (by omega)
  simp only [civil]
  generalize hyoe : yearOf (z % 146097).toNat = yoe at hy hlow hhigh ⊢
  have hlow' : yearStart yoe ≤ z % 146097 := by rw [← eraStart_eq]; omega
  have hhigh' : z % 146097 < yearStart (yoe + 1) := by
    have := eraStart_eq (yoe + 1)
    push_cast at this
    omega
  have hyearEnd := yearStart_succ_le (yoe + z / 146097 * 400)
  have hera := yearStart_era (z / 146097) yoe
  have hera' := yearStart_era (z / 146097) (yoe + 1)
  rw [show (yoe : Int) + 1 + z / 146097 * 400 = yoe + z / 146097 * 400 + 1 by ring] at hera'
  generalize hdoy : z % 146097 - yearStart yoe = doy
  obtain ⟨hm0, hm11, hmlow, hmhigh⟩ := monthOf_bounds doy (by omega) (by omega)
  generalize monthOf doy = mp at hm0 hm11 hmlow hmhigh ⊢
  generalize hyear : (yoe : Int) + z / 146097 * 400 = y at hyearEnd hera hera' ⊢
  obtain ⟨h1, h12, hmarch, hmarchY⟩ := march_back (y := y) hm0 hm11 rfl
  generalize (if mp < 10 then mp + 3 else mp - 9) = m at h1 h12 hmarch hmarchY ⊢
  generalize (if m ≤ 2 then y + 1 else y) = y' at hmarchY ⊢
  obtain ⟨hnext, hlast⟩ := month_end (y := y') h1 h12
  rw [hmarch] at hnext hlast
  rw [hmarchY] at hlast
  refine ⟨⟨h1, h12, by omega, ?_⟩, ?_⟩
  · rcases Int.lt_or_le mp 11 with h11 | h11
    · have := hnext h11
      omega
    · obtain rfl : mp = 11 := by omega
      have := hlast rfl
      omega
  · unfold days
    rw [hmarch, hmarchY]
    omega

theorem civil_valid (z : Int) : Valid (civil z).1 (civil z).2.1 (civil z).2.2 := (civil_spec z).1

theorem days_civil (z : Int) : days (civil z).1 (civil z).2.1 (civil z).2.2 = z := (civil_spec z).2

/-- A later day has a later date. -/
theorem civil_before {z z' : Int} (h : z < z') : Before (civil z) (civil z') := by
  by_contra hnot
  have hcase : civil z = civil z' ∨ Before (civil z') (civil z) := by
    unfold Before at hnot ⊢
    rw [Prod.ext_iff, Prod.ext_iff]
    omega
  rcases hcase with heq | hlt
  · have := days_civil z
    rw [heq, days_civil] at this
    omega
  · have := days_lt (civil_valid z') (civil_valid z) hlt
    rw [days_civil, days_civil] at this
    omega

end Fenec.Lib.Gregorian
