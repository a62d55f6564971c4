/-
# The instants a text is accepted as

A timestamp's text is divided at its marks into numbers and, past the point of the seconds and
the sign of the zone, into digits.  `written` is what stands there, numbers of any size; `Real`
says that it is an instant: a date of the calendar, a time of the day, a fraction in digits and a
zone in one of its three forms.

`time::parse` reads the numbers as an `i64` each, narrows the month and the day to 32 bits, and
bounds the hour, the minute and the second from above only.  What it accepts is an instant, and
its answer that instant's milliseconds, exactly where none of this loses anything and the sums
stay in 64 bits (`parse_real_iff`).
-/
import Fenec.Stamps
import Fenec.Document

namespace Fenec

open Lib Gregorian

namespace Time

/-! ## 1. What a text has written -/

/-- The number digits are. -/
def digitsOf (s : List Char) : Option Nat :=
  if s.isEmpty || !s.all isDigit then none else some (value s)

/-- A number as it is written, of any size. -/
def whole : List Char → Option Int
  | '-' :: ds => (digitsOf ds).map fun n : Nat => -(n : Int)
  | '+' :: ds => (digitsOf ds).map fun n : Nat => (n : Int)
  | ds => (digitsOf ds).map fun n : Nat => (n : Int)

/-- What stands in a timestamp's text, its fraction and its zone in characters. -/
structure Written where
  year : Int
  month : Int
  day : Int
  hour : Int
  minute : Int
  second : Int
  fraction : List Char
  zone : List Char

/-- The text before a zone and the zone, none after a `Z`. -/
def zoneOf (t : List Char) : List Char × List Char :=
  match t.getLast? with
  | some 'Z' => (t.dropLast, [])
  | some 'z' => (t.dropLast, [])
  | _ => match (t.drop 10).findIdx? isSign with
    | none => (t, [])
    | some i => (t.take (10 + i), t.drop (10 + i))

/-- The second and its fraction. -/
def secondOf (v : List Char) : Option (Int × List Char) :=
  match splitOnce (· == '.') v with
  | some (sec, frac) => (whole sec).map (·, frac)
  | none => (whole v).map (·, [])

/-- The hour, the minute, the second and its fraction. -/
def clockOf (time : List Char) : Option (Int × Int × Int × List Char) :=
  if time.isEmpty then some (0, 0, 0, [])
  else do
    let parts := split ':' time
    let h ← whole (parts.headD [])
    let mi ← match parts[1]? with
      | some v => whole v
      | none => pure 0
    let (s, frac) ← match parts[2]? with
      | some v => secondOf v
      | none => pure (0, [])
    pure (h, mi, s, frac)

/-- The date and the time of the text before a zone. -/
def dateTime (body : List Char) : List Char × List Char :=
  match splitOnce (fun c => c == 'T' || c == 't' || c == ' ') body with
  | some (d, t) => (d, trim t)
  | none => (body, [])

/-- What stands in a text. -/
def written (text : String) : Option Written := do
  let (body, zone) := zoneOf (trim text.toList)
  let (date, time) := dateTime (trim body)
  let (y, m, d) ← match split '-' date with
    | [y, m, d] => do pure ((← whole y), (← whole m), (← whole d))
    | _ => none
  let (h, mi, s, frac) ← clockOf time
  pure ⟨y, m, d, h, mi, s, frac, zone⟩

/-! ## 2. Instants -/

/-- The milliseconds of a fraction's first three digits. -/
def thousandths (frac : List Char) : Int :=
  value (frac.take 3) * 10 ^ (3 - (frac.take 3).length)

/-- A zone's minutes by its digits: hours, or hours and minutes. -/
def zoneMinutes : List Char → Int
  | [] => 0
  | sign :: rest =>
    let digits := rest.filter isDigit
    let mins : Int := if digits.length = 2 then value digits * 60
      else value (digits.take 2) * 60 + value (digits.drop 2)
    if sign = '-' then -mins else mins

/-- A zone in one of its forms: none, `+hh`, `+hhmm` or `+hh:mm`. -/
def zoneForm : List Char → Bool
  | [] => true
  | [_, a, b] => isDigit a && isDigit b
  | [_, a, b, c, d] => isDigit a && isDigit b && isDigit c && isDigit d
  | [_, a, b, e, c, d] => isDigit a && isDigit b && e == ':' && isDigit c && isDigit d
  | _ => false

namespace Written

variable (w : Written)

/-- **What is written is an instant.** -/
structure Real : Prop where
  date : Valid w.year w.month w.day
  hour : 0 ≤ w.hour ∧ w.hour ≤ 23
  minute : 0 ≤ w.minute ∧ w.minute ≤ 59
  second : 0 ≤ w.second ∧ w.second ≤ 60
  fraction : w.fraction.all isDigit = true
  zone : zoneForm w.zone = true

/-- The milliseconds of the date. -/
def dateMs : Int := (days w.year w.month w.day - 719468) * 86400000

/-- **The milliseconds of what is written.** -/
def millis : Int :=
  w.dateMs + w.hour * 3600000 + w.minute * 60000 + w.second * 1000 + thousandths w.fraction -
    zoneMinutes w.zone * 60000

/-- A number of 64 bits. -/
def Wide (n : Int) : Prop := -2 ^ 63 ≤ n ∧ n < 2 ^ 63

/-- Each sum of the milliseconds has 64 bits. -/
structure Fits : Prop where
  date : Wide w.dateMs
  hours : Wide (w.dateMs + w.hour * 3600000)
  minutes : Wide (w.dateMs + w.hour * 3600000 + w.minute * 60000)
  seconds : Wide (w.dateMs + w.hour * 3600000 + w.minute * 60000 + w.second * 1000)
  fraction : Wide (w.dateMs + w.hour * 3600000 + w.minute * 60000 + w.second * 1000 +
    thousandths w.fraction)
  all : Wide w.millis

/-- Nothing is lost of what is written: the month and the day have 32 bits, the time's numbers
are not negative, and the fraction and the zone are digits. -/
structure Plain : Prop where
  month : w.month < 2 ^ 32
  day : w.day < 2 ^ 32
  hour : 0 ≤ w.hour
  minute : 0 ≤ w.minute
  second : 0 ≤ w.second
  fraction : w.fraction.all isDigit = true
  zone : zoneForm w.zone = true

end Written

/-! ## 3. Numbers read -/

section Numbers

variable {s : List Char} {n : Int64}

theorem digitsOf_eq {s : List Char} (h : Digits s) : digitsOf s = some (value s) := by
  cases s with
  | nil => exact absurd rfl h.ne_nil
  | cons c s => rw [digitsOf, List.all_eq_true.mpr h.all]; rfl

/-- **A number is read as what is written.** -/
theorem whole_of_num (h : num s = .ok n) : whole s = some n.toInt := by
  have hparse : parseI64 s = some n := by
    unfold num at h
    cases hp : parseI64 s with
    | none => rw [hp] at h; cases h
    | some k => rw [hp] at h; exact congrArg some (Except.ok.inj h)
  -- the digits after the sign, and whether it is a minus
  have hread : ∀ (neg : Bool) (ds : List Char),
      (if ds.isEmpty || !ds.all isDigit then none
        else if neg then if value ds ≤ 2 ^ 63 then some (Int64.ofInt (-(value ds : Int))) else none
        else if value ds < 2 ^ 63 then some (Int64.ofNat (value ds)) else none) = some n →
      ((digitsOf ds).map fun k : Nat => if neg then -(k : Int) else k) = some n.toInt := by
    intro neg ds hds
    unfold digitsOf
    split at hds
    · cases hds
    · next hdigits =>
      rw [if_neg hdigits]
      cases neg with
      | true =>
        simp only [if_true] at hds ⊢
        split at hds
        · next hle =>
          cases hds
          rw [Option.map_some, Int64.toInt_ofInt_of_le (by omega) (by omega)]
        · cases hds
      | false =>
        simp only [Bool.false_eq_true, if_false] at hds ⊢
        split at hds
        · next hlt =>
          cases hds
          rw [Option.map_some, Int64.toInt_ofNat_of_lt hlt]
        · cases hds
  unfold parseI64 at hparse
  split at hparse
  next neg ds hcase =>
    rw [foldl_value] at hparse
    split at hcase
    · cases hcase
      exact hread true _ hparse
    · cases hcase
      exact hread false _ hparse
    · next hminus hplus =>
      cases hcase
      unfold whole
      split
      · next r => exact absurd rfl (hminus r)
      · next r => exact absurd rfl (hplus r)
      · exact hread false _ hparse

theorem digits_of_num (h : num s = .ok n) (hall : s.all isDigit = true) :
    Digits s ∧ n.toInt = value s := by
  have hne : s ≠ [] := by
    rintro rfl
    cases h
  have hd : Digits s := ⟨hne, List.all_eq_true.mp hall⟩
  refine ⟨hd, ?_⟩
  have hw := whole_of_num h
  have hplain : whole s = some (value s : Int) := by
    unfold whole
    split
    · next r => exact absurd (List.mem_cons_self ..) (hd.not_mem (c := '-') (by decide))
    · next r => exact absurd (List.mem_cons_self ..) (hd.not_mem (c := '+') (by decide))
    · rw [digitsOf_eq hd]
      rfl
  exact (Option.some.inj (hplain.symm.trans hw)).symm

/-- What has no minus is not negative. -/
theorem whole_nonneg {k : Int} (h : whole s = some k) (hs : '-' ∉ s) : 0 ≤ k := by
  unfold whole at h
  split at h
  · exact absurd List.mem_cons_self hs
  · obtain ⟨m, -, rfl⟩ := Option.map_eq_some_iff.mp h
    omega
  · obtain ⟨m, -, rfl⟩ := Option.map_eq_some_iff.mp h
    omega

theorem not_mem_split {sep : Char} : ∀ {s p : List Char}, p ∈ split sep s → sep ∉ p := by
  intro s
  induction s with
  | nil =>
    intro p hp
    rw [List.mem_singleton.mp hp]
    simp
  | cons c s ih =>
    intro p hp
    rw [split] at hp
    split at hp
    · rcases List.mem_cons.mp hp with rfl | hp
      · simp
      · exact ih hp
    · next hc =>
      split at hp
      · rw [List.mem_singleton.mp hp]
        simpa using Ne.symm hc
      · next q qs hq =>
        rcases List.mem_cons.mp hp with rfl | hp
        · have hq' := ih (hq ▸ List.mem_cons_self)
          simp [Ne.symm hc, hq']
        · exact ih (hq ▸ List.mem_cons_of_mem _ hp)

theorem value_lt {s : List Char} (h : ∀ c ∈ s, isDigit c = true) : value s < 10 ^ s.length := by
  have hfrom : ∀ (s : List Char) (n : Nat), (∀ c ∈ s, isDigit c = true) →
      Nat.ofDigitChars 10 s n < 10 ^ s.length * (n + 1) := by
    intro s
    induction s with
    | nil => intro n _; simp
    | cons c s ih =>
      intro n hs
      have hc : c.toNat - '0'.toNat ≤ 9 := by
        have hd := hs c List.mem_cons_self
        simp only [isDigit, Bool.and_eq_true, decide_eq_true_eq] at hd
        have h9 : c.toNat ≤ 57 := hd.2
        have h0 : '0'.toNat = 48 := rfl
        omega
      rw [Nat.ofDigitChars_cons]
      refine Nat.lt_of_lt_of_le (ih _ fun x hx => hs x (List.mem_cons_of_mem _ hx)) ?_
      rw [List.length_cons, Nat.pow_succ, Nat.mul_assoc]
      exact Nat.mul_le_mul_left _ (by omega)
  have hlt := hfrom s 0 h
  rwa [Nat.mul_one] at hlt

end Numbers

/-! ## 4. The parts of a text read -/

section Parts

variable {bad : Error}

/-- The minutes of two digits, or of two and two. -/
theorem minutes_read {α : Type} {digits : List Char} {next : Int64 → Result α} {r : α}
    (hall : ∀ c ∈ digits, isDigit c = true)
    (h : (do
      let mins ← match digits.length with
        | 2 => do pure ((← num digits) * 60)
        | 4 => do pure ((← num (digits.take 2)) * 60 + (← num (digits.drop 2)))
        | _ => .error bad
      next mins) = .ok r) :
    ∃ mins, next mins = .ok r ∧ mins.toInt = (if digits.length = 2 then (value digits * 60 : Int)
      else value (digits.take 2) * 60 + value (digits.drop 2)) ∧
      0 ≤ mins.toInt ∧ mins.toInt ≤ 6039 := by
  have hlit : (60 : Int64).toInt = 60 := rfl
  have hread : ∀ {s : List Char} {n : Int64}, num s = .ok n → (∀ c ∈ s, isDigit c = true) →
      s.length = 2 → n.toInt = value s ∧ value s < 100 := by
    intro s n hn hs hlen
    have hlt := value_lt hs
    rw [hlen] at hlt
    exact ⟨(digits_of_num hn (List.all_eq_true.mpr hs)).2, hlt⟩
  split at h
  · next hlen =>
    obtain ⟨n, hn, hnext⟩ := bind_ok h
    obtain ⟨hval, hlt⟩ := hread hn hall hlen
    refine ⟨_, hnext, ?_⟩
    have hmul : (n * 60).toInt = n.toInt * 60 := by
      rw [mul_exact, hlit] <;> rw [hlit] <;> omega
    rw [if_pos hlen, hmul, hval]
    omega
  · next hlen =>
    obtain ⟨n, hn, h⟩ := bind_ok h
    obtain ⟨k, hk, hnext⟩ := bind_ok h
    obtain ⟨hval, hlt⟩ := hread hn (fun c hc => hall c (List.mem_of_mem_take hc))
      (by rw [List.length_take]; omega)
    obtain ⟨hval', hlt'⟩ := hread hk (fun c hc => hall c (List.mem_of_mem_drop hc))
      (by rw [List.length_drop]; omega)
    refine ⟨_, hnext, ?_⟩
    have hmul : (n * 60).toInt = n.toInt * 60 := by
      rw [mul_exact, hlit] <;> rw [hlit] <;> omega
    have hadd : (n * 60 + k).toInt = n.toInt * 60 + k.toInt := by
      rw [add_exact, hmul] <;> rw [hmul] <;> omega
    rw [if_neg (by omega), hadd, hval, hval']
    omega
  · cases h

/-- **A zone is read as its minutes.** -/
theorem zone_read {t b : List Char} {off : Int64} (h : zone t bad = .ok (b, off)) :
    b = (zoneOf t).1 ∧ off.toInt = zoneMinutes (zoneOf t).2 ∧
      -6039 ≤ off.toInt ∧ off.toInt ≤ 6039 := by
  unfold zone at h
  split at h
  · next hl =>
    rw [zoneOf, hl]
    cases h
    exact ⟨rfl, rfl, by decide, by decide⟩
  · next hl =>
    rw [zoneOf, hl]
    cases h
    exact ⟨rfl, rfl, by decide, by decide⟩
  · next hZ hz =>
    unfold zoneOf
    split
    · next hl => exact absurd hl hZ
    · next hl => exact absurd hl hz
    · change (match (t.drop 10).findIdx? isSign with | none => _ | some i => _) = _ at h
      cases hfind : (t.drop 10).findIdx? isSign with
      | none =>
        rw [hfind] at h
        cases h
        exact ⟨rfl, rfl, by decide, by decide⟩
      | some i =>
        rw [hfind] at h
        dsimp only at h ⊢
        obtain ⟨mins, hnext, hval, h0, hle⟩ :=
          minutes_read (fun c hc => (List.mem_filter.mp hc).2) h
        cases hnext
        refine ⟨rfl, ?_⟩
        -- a sign was found, so there is a zone
        have hlt : i < (t.drop 10).length := (List.findIdx?_eq_some_iff_getElem.mp hfind).1
        cases hoff : t.drop (10 + i) with
        | nil =>
          have hlen := congrArg List.length hoff
          rw [List.length_drop, List.length_nil] at hlen
          rw [List.length_drop] at hlt
          omega
        | cons sign rest =>
          rw [hoff, List.drop_one, List.tail_cons] at hval
          rw [List.head?_cons, zoneMinutes, ← hval]
          by_cases hs : sign = '-'
          · have hneg : (-1 * mins).toInt = -mins.toInt := by
              have hlit : (-1 : Int64).toInt = -1 := rfl
              rw [mul_exact] <;> rw [hlit] <;> omega
            rw [if_pos hs, if_pos (by rw [hs]; rfl), hneg]
            omega
          · rw [if_neg hs, if_neg (by simpa using hs)]
            omega

theorem thousandths_bounds {frac : List Char} (h : frac.all isDigit = true) :
    0 ≤ thousandths frac ∧ thousandths frac < 1000 := by
  have hall : ∀ c ∈ frac.take 3, isDigit c = true := fun c hc =>
    List.all_eq_true.mp h c (List.mem_of_mem_take hc)
  have hlt := value_lt hall
  have hlen : (frac.take 3).length ≤ 3 := by
    rw [List.length_take]
    omega
  unfold thousandths
  generalize (frac.take 3).length = k at hlt hlen
  generalize value (frac.take 3) = n at hlt
  interval_cases k <;> omega

/-- **The seconds are read with their first three digits.** -/
theorem seconds_read {v : List Char} {s milli : Int64} (h : seconds v = .ok (s, milli)) :
    ∃ frac, secondOf v = some (s.toInt, frac) ∧
      (frac.all isDigit = true → milli.toInt = thousandths frac) := by
  unfold seconds at h
  unfold secondOf
  cases hcut : splitOnce (· == '.') v with
  | none =>
    rw [hcut] at h
    obtain ⟨n, hn, hs⟩ := bind_ok h
    cases hs
    exact ⟨[], by rw [whole_of_num hn]; rfl, fun _ => rfl⟩
  | some cut =>
    obtain ⟨sec, frac⟩ := cut
    rw [hcut] at h
    obtain ⟨n, hn, h⟩ := bind_ok h
    obtain ⟨m, hm, hs⟩ := bind_ok h
    cases hs
    refine ⟨frac, by dsimp only; rw [whole_of_num hn]; rfl, fun hall => ?_⟩
    have htake : (frac.take 3).all isDigit = true := List.all_eq_true.mpr fun c hc =>
      List.all_eq_true.mp hall c (List.mem_of_mem_take hc)
    obtain ⟨hd, hval⟩ := digits_of_num hm htake
    obtain ⟨h0, h1000⟩ := thousandths_bounds hall
    have hscale : (Int64.ofNat (10 ^ (3 - (frac.take 3).length))).toInt =
        10 ^ (3 - (frac.take 3).length) := by
      have hle : 10 ^ (3 - (frac.take 3).length) ≤ 10 ^ 3 := Nat.pow_le_pow_right (by decide) (by omega)
      rw [Int64.toInt_ofNat_of_lt (by omega)]
      push_cast
      rfl
    unfold thousandths at h0 h1000 ⊢
    rw [mul_exact, hval, hscale] <;> rw [hval, hscale] <;> omega

/-- A number of the time, zero where it is not given. -/
theorem part_read {α : Type} {part : Option (List Char)} {next : Int64 → Result α} {r : α} :
    (match part with
      | some v => do let n ← num v; next n
      | none => do let n ← pure 0; next n) = .ok r →
    ∃ n, next n = .ok r ∧ ∀ {β : Type} (next' : Int → Option β), (match part with
      | some v => do let n ← whole v; next' n
      | none => do let n ← pure 0; next' n) = next' n.toInt := by
  intro h
  cases part with
  | none => exact ⟨0, h, fun _ => rfl⟩
  | some v =>
    obtain ⟨n, hn, hnext⟩ := bind_ok h
    exact ⟨n, hnext, fun _ => by dsimp only; rw [whole_of_num hn]; rfl⟩

theorem second_read {α : Type} {part : Option (List Char)} {next : Int64 × Int64 → Result α}
    {r : α} : (match part with
      | some v => do let x ← seconds v; next x
      | none => do let x ← pure (0, 0); next x) = .ok r →
    ∃ s milli frac, next (s, milli) = .ok r ∧
      (∀ {β : Type} (next' : Int × List Char → Option β), (match part with
        | some v => do let x ← secondOf v; next' x
        | none => do let x ← pure (0, []); next' x) = next' (s.toInt, frac)) ∧
      (frac.all isDigit = true → milli.toInt = thousandths frac) := by
  intro h
  cases part with
  | none => exact ⟨0, 0, [], h, fun _ => rfl, fun _ => rfl⟩
  | some v =>
    obtain ⟨x, hx, hnext⟩ := bind_ok h
    obtain ⟨s, milli⟩ := x
    obtain ⟨frac, hfrac, hmilli⟩ := seconds_read hx
    exact ⟨s, milli, frac, hnext, fun _ => by dsimp only; rw [hfrac]; rfl, hmilli⟩

/-- **The time is read as it is written**, its numbers bounded from above. -/
theorem clock_read {time : List Char} {h mi s milli : Int64}
    (hc : clock time bad = .ok (h, mi, s, milli)) :
    ∃ frac, clockOf time = some (h.toInt, mi.toInt, s.toInt, frac) ∧
      h.toInt ≤ 23 ∧ mi.toInt ≤ 59 ∧ s.toInt ≤ 60 ∧
      (frac.all isDigit = true → milli.toInt = thousandths frac) := by
  unfold clock at hc
  unfold clockOf
  by_cases hempty : time.isEmpty = true
  · rw [if_pos hempty] at hc ⊢
    cases hc
    exact ⟨[], rfl, by decide, by decide, by decide, fun _ => rfl⟩
  · rw [if_neg hempty] at hc ⊢
    obtain ⟨h', hh, hc⟩ := bind_ok hc
    obtain ⟨mi', hc, hmi⟩ := part_read hc
    obtain ⟨s', milli', frac, hc, hs, hmilli⟩ := second_read hc
    dsimp only at hc
    split at hc
    · cases hc
    · next hbounds =>
      cases hc
      simp only [Bool.or_eq_true, decide_eq_true_eq, not_or, Int64.not_lt] at hbounds
      obtain ⟨⟨⟨-, hh23⟩, hm59⟩, hs60⟩ := hbounds
      refine ⟨frac, ?_, Int64.le_iff_toInt_le.mp hh23, Int64.le_iff_toInt_le.mp hm59,
        Int64.le_iff_toInt_le.mp hs60, hmilli⟩
      dsimp only
      rw [whole_of_num hh]
      exact (hmi _).trans (hs _)

end Parts

/-! ## 5. A text accepted -/

section Accepted

variable {text : String} {r : Int64}

/-- What an answer of `parse` is made of, beside what the text has written. -/
structure Answer (w : Written) (r : Int64) (y m d h mi s milli off : Int64) : Prop where
  year : w.year = y.toInt
  month : w.month = m.toInt ∧ 0 ≤ m.toInt
  day : w.day = d.toInt ∧ 0 ≤ d.toInt
  monthsOf : 1 ≤ asU32 m ∧ asU32 m ≤ 12
  daysOf : 1 ≤ asU32 d ∧ asU32 d ≤ 31
  hour : w.hour = h.toInt ∧ h.toInt ≤ 23
  minute : w.minute = mi.toInt ∧ mi.toInt ≤ 59
  second : w.second = s.toInt ∧ s.toInt ≤ 60
  fraction : w.fraction.all isDigit = true → milli.toInt = thousandths w.fraction
  zone : off.toInt = zoneMinutes w.zone ∧ -6039 ≤ off.toInt ∧ off.toInt ≤ 6039
  civil : civilFromDays (daysFromCivil y (asU32 m) (asU32 d)) = (y, asU32 m, asU32 d)
  result : r = daysFromCivil y (asU32 m) (asU32 d) * 86400000 + h * 3600000 + mi * 60000 +
    s * 1000 + milli - off * 60000

/-- **What is accepted is read off what is written.** -/
theorem parse_read (h : parse text = .ok r) : ∃ w, written text = some w ∧
    ∃ y m d h mi s milli off, Answer w r y m d h mi s milli off := by
  unfold parse at h
  obtain ⟨⟨body, off⟩, hzone, h⟩ := bind_ok h
  obtain ⟨hbody, hoff⟩ := zone_read hzone
  unfold written
  dsimp only at h ⊢
  rw [← hbody]
  generalize trim body = b at h ⊢
  split at h
  · next yt mt dt hsplit =>
    change split '-' (dateTime b).1 = [yt, mt, dt] at hsplit
    obtain ⟨y, hy, h⟩ := bind_ok h
    obtain ⟨m, hm, h⟩ := bind_ok h
    obtain ⟨d, hd, h⟩ := bind_ok h
    change (if _ then _ else _) = _ at h
    split at h
    · cases h
    · next hbounds =>
      obtain ⟨⟨hr, mi, s, milli⟩, hclock, h⟩ := bind_ok h
      obtain ⟨frac, hfrac, hh23, hm59, hs60, hmilli⟩ := clock_read hclock
      change clockOf (dateTime b).2 = _ at hfrac
      dsimp only at h
      split at h
      · cases h
      · next hcivil =>
        cases h
        simp only [Bool.or_eq_true, decide_eq_true_eq, not_or, Nat.not_lt] at hbounds
        obtain ⟨⟨⟨hm1, hm12⟩, hd1⟩, hd31⟩ := hbounds
        have hpart : ∀ p ∈ [yt, mt, dt], '-' ∉ p := fun p hp => not_mem_split (hsplit ▸ hp)
        have hmt := whole_nonneg (whole_of_num hm) (hpart mt (by simp))
        have hdt := whole_nonneg (whole_of_num hd) (hpart dt (by simp))
        refine ⟨⟨y.toInt, m.toInt, d.toInt, hr.toInt, mi.toInt, s.toInt, frac,
          (zoneOf (trim text.toList)).2⟩, ?_, y, m, d, hr, mi, s, milli, off, ?_⟩
        · rw [hsplit]
          dsimp only
          rw [whole_of_num hy, whole_of_num hm, whole_of_num hd, hfrac]
          rfl
        · exact ⟨rfl, ⟨rfl, hmt⟩, ⟨rfl, hdt⟩, ⟨hm1, hm12⟩, ⟨hd1, hd31⟩, ⟨rfl, hh23⟩, ⟨rfl, hm59⟩,
            ⟨rfl, hs60⟩, hmilli, hoff, not_not.mp hcivil, rfl⟩
  · cases h

/-- **Sums that stay in 64 bits are exact.** -/
theorem sums_exact {day h mi s milli off : Int64} {D H N S F Z : Int} (hD : day.toInt = D)
    (hH : h.toInt = H) (hN : mi.toInt = N) (hS : s.toInt = S) (hF : milli.toInt = F)
    (hZ : off.toInt = Z) (h0 : 0 ≤ H) (h23 : H ≤ 23) (n0 : 0 ≤ N) (n59 : N ≤ 59) (s0 : 0 ≤ S)
    (s60 : S ≤ 60) (z0 : -6039 ≤ Z) (z1 : Z ≤ 6039) (w0 : Written.Wide (D * 86400000))
    (w1 : Written.Wide (D * 86400000 + H * 3600000))
    (w2 : Written.Wide (D * 86400000 + H * 3600000 + N * 60000))
    (w3 : Written.Wide (D * 86400000 + H * 3600000 + N * 60000 + S * 1000))
    (w4 : Written.Wide (D * 86400000 + H * 3600000 + N * 60000 + S * 1000 + F))
    (w5 : Written.Wide (D * 86400000 + H * 3600000 + N * 60000 + S * 1000 + F - Z * 60000)) :
    (day * 86400000 + h * 3600000 + mi * 60000 + s * 1000 + milli - off * 60000).toInt =
      D * 86400000 + H * 3600000 + N * 60000 + S * 1000 + F - Z * 60000 := by
  have hday : (day * 86400000).toInt = D * 86400000 := by
    have hlit : (86400000 : Int64).toInt = 86400000 := rfl
    rw [mul_exact, hlit, hD] <;> rw [hlit, hD]
    · exact w0.1
    · exact w0.2
  have hhour : (h * 3600000).toInt = H * 3600000 := by
    have hlit : (3600000 : Int64).toInt = 3600000 := rfl
    rw [mul_exact, hlit, hH] <;> rw [hlit, hH] <;> omega
  have hmin : (mi * 60000).toInt = N * 60000 := by
    have hlit : (60000 : Int64).toInt = 60000 := rfl
    rw [mul_exact, hlit, hN] <;> rw [hlit, hN] <;> omega
  have hsec : (s * 1000).toInt = S * 1000 := by
    have hlit : (1000 : Int64).toInt = 1000 := rfl
    rw [mul_exact, hlit, hS] <;> rw [hlit, hS] <;> omega
  have hoff : (off * 60000).toInt = Z * 60000 := by
    have hlit : (60000 : Int64).toInt = 60000 := rfl
    rw [mul_exact, hlit, hZ] <;> rw [hlit, hZ] <;> omega
  have h1 : (day * 86400000 + h * 3600000).toInt = D * 86400000 + H * 3600000 := by
    rw [add_exact, hday, hhour] <;> rw [hday, hhour]
    · exact w1.1
    · exact w1.2
  have h2 : (day * 86400000 + h * 3600000 + mi * 60000).toInt =
      D * 86400000 + H * 3600000 + N * 60000 := by
    rw [add_exact, h1, hmin] <;> rw [h1, hmin]
    · exact w2.1
    · exact w2.2
  have h3 : (day * 86400000 + h * 3600000 + mi * 60000 + s * 1000).toInt =
      D * 86400000 + H * 3600000 + N * 60000 + S * 1000 := by
    rw [add_exact, h2, hsec] <;> rw [h2, hsec]
    · exact w3.1
    · exact w3.2
  have h4 : (day * 86400000 + h * 3600000 + mi * 60000 + s * 1000 + milli).toInt =
      D * 86400000 + H * 3600000 + N * 60000 + S * 1000 + F := by
    rw [add_exact, h3, hF] <;> rw [h3, hF]
    · exact w4.1
    · exact w4.2
  rw [sub_exact, h4, hoff] <;> rw [h4, hoff]
  · exact w5.1
  · exact w5.2

/-- What an instant has lost nothing of. -/
theorem Written.Real.plain {w : Written} (h : w.Real) : w.Plain := by
  have h31 := h.date.day_le.trans (monthLength_le _ _)
  have h12 := h.date.month_le
  exact ⟨by omega, by omega, h.hour.1, h.minute.1, h.second.1, h.fraction, h.zone⟩

/-- **Where nothing is lost, the answer is the milliseconds of an instant.** -/
theorem Answer.real {w : Written} {y m d h mi s milli off : Int64}
    (ha : Answer w r y m d h mi s milli off) (hp : w.Plain) (hf : w.Fits) :
    w.Real ∧ r.toInt = w.millis := by
  have hmo : (asU32 m : Int) = w.month := by
    rw [ha.month.1]
    exact asU32_exact ha.month.2 (ha.month.1 ▸ hp.month)
  have hd : (asU32 d : Int) = w.day := by
    rw [ha.day.1]
    exact asU32_exact ha.day.2 (ha.day.1 ▸ hp.day)
  have hdays : days y.toInt (asU32 m) (asU32 d) = days w.year w.month w.day := by
    rw [hmo, hd, ha.year]
  have hdate := hf.date
  unfold Written.Wide Written.dateMs at hdate
  rw [← hdays] at hdate
  have hday := daysFromCivil_exact (y := y) ha.monthsOf.1 ha.monthsOf.2 ha.daysOf.1 ha.daysOf.2 (by omega) (by omega)
  have hvalid := dateOf_valid (z := daysFromCivil y (asU32 m) (asU32 d)) (by omega)
  have hdateOf : dateOf (daysFromCivil y (asU32 m) (asU32 d)) = (w.year, w.month, w.day) := by
    rw [dateOf, ha.civil, ← hmo, ← hd, ← ha.year]
  rw [hdateOf] at hvalid
  have hreal : w.Real := ⟨hvalid, ⟨hp.hour, ha.hour.1 ▸ ha.hour.2⟩,
    ⟨hp.minute, ha.minute.1 ▸ ha.minute.2⟩, ⟨hp.second, ha.second.1 ▸ ha.second.2⟩, hp.fraction,
    hp.zone⟩
  refine ⟨hreal, ?_⟩
  rw [hdays] at hday
  rw [ha.result]
  exact sums_exact hday ha.hour.1.symm ha.minute.1.symm ha.second.1.symm (ha.fraction hp.fraction)
    ha.zone.1 hreal.hour.1 hreal.hour.2 hreal.minute.1 hreal.minute.2 hreal.second.1
    hreal.second.2 (ha.zone.1 ▸ ha.zone.2.1) (ha.zone.1 ▸ ha.zone.2.2) hf.date hf.hours hf.minutes
    hf.seconds hf.fraction hf.all

end Accepted

/-! ## 6. Accepted as an instant -/

/-- **What `parse` accepts is an instant, and its answer that instant's milliseconds with no sum
past 64 bits, exactly where nothing written is lost and no sum is past 64 bits**: the month and
the day fit 32 bits, the hour, the minute and the second are not negative, and the fraction and
the zone are nothing but digits. -/
theorem parse_real_iff {text : String} {r : Int64} (h : parse text = .ok r) :
    ∃ w, written text = some w ∧
      ((w.Real ∧ w.Fits ∧ r.toInt = w.millis) ↔ (w.Plain ∧ w.Fits)) := by
  obtain ⟨w, hw, y, m, d, hr, mi, s, milli, off, ha⟩ := parse_read h
  refine ⟨w, hw, fun ⟨hreal, hfits, _⟩ => ⟨hreal.plain, hfits⟩, fun ⟨hplain, hfits⟩ => ?_⟩
  obtain ⟨hreal, hmillis⟩ := ha.real hplain hfits
  exact ⟨hreal, hfits, hmillis⟩

/-- A text of an instant. -/
theorem parse_launch : parse "1969-07-20T20:17:40.5+02:00" = .ok (-14190139500) := by
  decide +kernel

theorem parse_real_launch : ∃ w, written "1969-07-20T20:17:40.5+02:00" = some w ∧
    ((w.Real ∧ w.Fits ∧ (-14190139500 : Int64).toInt = w.millis) ↔ (w.Plain ∧ w.Fits)) :=
  parse_real_iff parse_launch

/-- A text whose hour is less than none. -/
theorem parse_negative_hour : parse "2026-09-19T-5:00:00Z" = .ok 1789758000000 ∧
    (written "2026-09-19T-5:00:00Z").map (·.hour) = some (-5) := by
  decide +kernel

theorem unreal_accepted : ¬ ∀ (text : String) (r : Int64), parse text = .ok r →
    ∃ w, written text = some w ∧ w.Real ∧ w.Fits ∧ r.toInt = w.millis := by
  intro h
  obtain ⟨w, hw, hreal, -, -⟩ := h _ _ parse_negative_hour.1
  have hhour := parse_negative_hour.2
  rw [hw] at hhour
  have hneg : w.hour = -5 := Option.some.inj hhour
  have hpos := hreal.hour.1
  omega

end Time

end Fenec
