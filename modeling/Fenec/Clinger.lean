/-
# The one-pass number reader

`clinger` reads a number in the pass that finds its end.  What it has read is a `Numeral`, digits
with a point and an exponent or without (`onePass_numeral`), and a numeral's text is what the
general scan takes and what the general readers take apart again (`Numeral.scan`,
`Numeral.parseF64`, `Numeral.parseI64`).  So the two agree where they make the same of the digits.

The mantissa of the pass wraps, but not while no more than nineteen digits are significant, and as
long as they are that few it counts them as `convert` does (`Alike`).  From there on both do the
same multiplication or division; only an integer, which the general path reads as an `i64`, is
multiplied by one here and not there.
-/
import Fenec.Numbers
import Fenec.Lib.Rounding

namespace Fenec.Num

open Lib

/-! ## 1. Digits -/

/-- The number that digits make after others. -/
def valueFrom (ds : List UInt8) (n : Nat) : Nat := ds.foldl (fun n d => n * 10 + digit d) n

/-- All of the bytes are digits. -/
def Digits (ds : List UInt8) : Prop := ∀ d ∈ ds, isDigit d = true

section Digits

variable {ds rest : List UInt8} {d : UInt8} {n : Nat} {frac : Bool} {a : Count}

theorem digit_le (h : isDigit d = true) : digit d ≤ 9 := by
  unfold isDigit at h
  rw [Bool.and_eq_true, decide_eq_true_eq, decide_eq_true_eq, UInt8.le_iff_toNat_le,
    UInt8.le_iff_toNat_le] at h
  unfold digit
  rw [UInt8.toNat_sub_of_le _ _ (UInt8.le_iff_toNat_le.mpr h.1)]
  have h57 : (57 : UInt8).toNat = 57 := rfl
  have h48 : (48 : UInt8).toNat = 48 := rfl
  omega

theorem digit_eq_zero (h : isDigit d = true) : digit d = 0 ↔ d = 48 := by
  unfold isDigit at h
  rw [Bool.and_eq_true, decide_eq_true_eq, decide_eq_true_eq] at h
  unfold digit
  rw [UInt8.toNat_sub_of_le _ _ h.1]
  have h1 := UInt8.le_iff_toNat_le.mp h.1
  rw [← UInt8.toNat_inj]
  omega

theorem le_valueFrom : n ≤ valueFrom ds n := by
  induction ds generalizing n with
  | nil => exact Nat.le_refl n
  | cons d ds ih =>
    have h := ih (n := n * 10 + digit d)
    unfold valueFrom at h ⊢
    rw [List.foldl_cons]
    omega

/-- A run of items, when something that is none follows them. -/
theorem span_append {α : Type} {p : α → Bool} {l r : List α} (h : ∀ x ∈ l, p x = true)
    (hr : r.head?.any p = false) : (l ++ r).takeWhile p = l ∧ (l ++ r).dropWhile p = r := by
  have htake : r.takeWhile p = [] := by
    cases r with
    | nil => rfl
    | cons x r =>
      rw [List.head?_cons, Option.any_some] at hr
      rw [List.takeWhile_cons, hr]
      rfl
  have hdrop : r.dropWhile p = r := by
    cases r with
    | nil => rfl
    | cons x r =>
      rw [List.head?_cons, Option.any_some] at hr
      rw [List.dropWhile_cons, hr]
      rfl
  rw [List.takeWhile_append_of_pos h, List.dropWhile_append_of_pos h, htake, hdrop, List.append_nil]
  exact ⟨rfl, rfl⟩

/-- The digits in front, when something that is none follows them. -/
theorem takeWhile_digits (h : Digits ds) (hrest : rest.head?.any isDigit = false) :
    (ds ++ rest).takeWhile isDigit = ds ∧ (ds ++ rest).dropWhile isDigit = rest :=
  span_append h hrest

/-- A list is its digits in front and what follows them. -/
theorem split_digits (s : List UInt8) : ∃ ds rest, s = ds ++ rest ∧ Digits ds ∧
    rest.head?.any isDigit = false ∧ s.takeWhile isDigit = ds ∧ s.dropWhile isDigit = rest := by
  refine ⟨s.takeWhile isDigit, s.dropWhile isDigit, List.takeWhile_append_dropWhile.symm,
    fun d hd => List.mem_takeWhile_imp hd, ?_, rfl, rfl⟩
  have h := List.head?_dropWhile_not isDigit s
  cases hhead : (s.dropWhile isDigit).head? with
  | none => rfl
  | some c =>
    rw [hhead] at h
    simpa using h

theorem countDigits_append (h : Digits ds) (hrest : rest.head?.any isDigit = false) :
    countDigits frac (ds ++ rest) a = (ds.foldl (Count.digit frac) a, rest) := by
  induction ds generalizing a with
  | nil =>
    cases rest with
    | nil => rfl
    | cons c rest =>
      rw [List.head?_cons, Option.any_some] at hrest
      rw [List.nil_append, countDigits, hrest]
      rfl
  | cons d ds ih =>
    rw [List.cons_append, countDigits, if_pos (h d List.mem_cons_self)]
    exact ih fun x hx => h x (List.mem_cons_of_mem _ hx)

end Digits

/-! ## 2. Numerals -/

/-- An exponent as `clinger` reads one: three digits at most. -/
structure Exponent where
  letter : UInt8
  sign : List UInt8
  ds : List UInt8
  letter_eq : letter = 101 ∨ letter = 69
  sign_eq : sign = [] ∨ sign = [45] ∨ sign = [43]
  digits : Digits ds
  ds_some : ds ≠ []
  few : ds.length ≤ 3

/-- The bytes of an exponent. -/
def Exponent.text (e : Exponent) : List UInt8 := e.letter :: (e.sign ++ e.ds)

/-- What an exponent comes to. -/
def Exponent.value (e : Exponent) : Int :=
  if e.sign = [45] then -(valueFrom e.ds 0 : Int) else valueFrom e.ds 0

/-- **A number as `clinger` reads one.** -/
structure Numeral where
  neg : Bool
  int : List UInt8
  frac : Option (List UInt8)
  exp : Option Exponent
  int_digits : Digits int
  int_some : int ≠ []
  frac_digits : ∀ f, frac = some f → Digits f ∧ f ≠ []

namespace Numeral

/-- The bytes of a minus sign. -/
def signText (n : Numeral) : List UInt8 := if n.neg then [45] else []

/-- The bytes of a point and what follows it. -/
def fracText (n : Numeral) : List UInt8 := n.frac.elim [] (46 :: ·)

/-- The bytes of the exponent. -/
def expText (n : Numeral) : List UInt8 := n.exp.elim [] Exponent.text

/-- The bytes of a numeral. -/
def text (n : Numeral) : List UInt8 := n.signText ++ (n.int ++ (n.fracText ++ n.expText))

/-- The digits after the point. -/
def fraction (n : Numeral) : List UInt8 := n.frac.getD []

/-- The power of ten a numeral ends in. -/
def power (n : Numeral) : Int := n.exp.elim 0 Exponent.value

/-- Whether a numeral has a point or an exponent. -/
def isFloat (n : Numeral) : Bool := n.frac.isSome || n.exp.isSome

/-- What the pass counts. -/
def count (n : Numeral) : Count :=
  let a := n.fraction.foldl (Count.digit true) (n.int.foldl (Count.digit false) ⟨0, 0, 0⟩)
  { a with e10 := a.e10 + n.power }

end Numeral

/-! ## 3. What the pass has read -/

section Pass

variable {s after : List UInt8} {x : F64}

theorem threeDigits_spec {e k e' k' : Nat} (h : threeDigits s e k = some (e', k', after)) :
    ∃ ds, s = ds ++ after ∧ Digits ds ∧ e' = valueFrom ds e ∧ k' = k + ds.length ∧
      (k ≤ 3 → k' ≤ 3) := by
  induction s generalizing e k with
  | nil =>
    obtain ⟨rfl, rfl, rfl⟩ : e = e' ∧ k = k' ∧ [] = after := by simpa [threeDigits] using h
    exact ⟨[], rfl, fun d hd => (by cases hd), rfl, rfl, id⟩
  | cons d rest ih =>
    rw [threeDigits] at h
    by_cases hd : isDigit d = true
    · rw [if_pos hd] at h
      by_cases hk : 3 < k + 1
      · rw [if_pos hk] at h
        cases h
      · rw [if_neg hk] at h
        obtain ⟨ds, rfl, hds, he, hk', hle⟩ := ih h
        refine ⟨d :: ds, rfl, List.forall_mem_cons.mpr ⟨hd, hds⟩, he, ?_, fun _ => hle (by omega)⟩
        rw [List.length_cons]
        omega
    · rw [if_neg hd] at h
      obtain ⟨rfl, rfl, rfl⟩ : e = e' ∧ k = k' ∧ d :: rest = after := by simpa using h
      exact ⟨[], rfl, fun d hd => (by cases hd), rfl, rfl, id⟩

/-- An exponent's sign, and its digits. -/
theorem signed_split (rest : List UInt8) : ∃ sgn,
    rest = sgn ++ (if rest.head? = some 45 ∨ rest.head? = some 43 then rest.tail else rest) ∧
      (sgn = [] ∨ sgn = [45] ∨ sgn = [43]) ∧ (rest.head? = some 45 ↔ sgn = [45]) := by
  cases rest with
  | nil => exact ⟨[], rfl, .inl rfl, by simp⟩
  | cons c rest =>
    simp only [List.head?_cons, Option.some.injEq, List.tail_cons]
    by_cases h45 : c = 45
    · subst h45
      exact ⟨[45], rfl, .inr (.inl rfl), by simp⟩
    · by_cases h43 : c = 43
      · subst h43
        exact ⟨[43], rfl, .inr (.inr rfl), by simp⟩
      · refine ⟨[], ?_, .inl rfl, by simp [h45]⟩
        rw [if_neg (by simp [h45, h43]), List.nil_append]

theorem exponentPass_spec {e : Int} {exp : Bool} (h : exponentPass s = some (e, exp, after)) :
    ∃ x : Option Exponent, s = x.elim [] Exponent.text ++ after ∧ e = x.elim 0 Exponent.value ∧
      exp = x.isSome := by
  cases s with
  | nil =>
    obtain ⟨rfl, rfl, rfl⟩ : 0 = e ∧ false = exp ∧ [] = after := by simpa [exponentPass] using h
    exact ⟨none, rfl, rfl, rfl⟩
  | cons c rest =>
    unfold exponentPass at h
    dsimp only at h
    by_cases hc : c = 101 ∨ c = 69
    · rw [if_pos hc] at h
      obtain ⟨sgn, hsplit, hsgn, hneg⟩ := signed_split rest
      generalize (if rest.head? = some 45 ∨ rest.head? = some 43 then rest.tail else rest) = r
        at h hsplit
      cases hthree : threeDigits r 0 0 with
      | none =>
        rw [hthree] at h
        cases h
      | some t =>
        obtain ⟨v, k, after'⟩ := t
        rw [hthree] at h
        dsimp only at h
        obtain ⟨ds, rfl, hds, rfl, rfl, hle⟩ := threeDigits_spec hthree
        by_cases hk : 0 + ds.length = 0
        · rw [if_pos hk] at h
          cases h
        · rw [if_neg hk] at h
          obtain ⟨rfl, rfl, rfl⟩ := by simpa only [Option.some.injEq, Prod.mk.injEq] using h
          have hsome : ds ≠ [] := by
            rintro rfl
            exact hk rfl
          have hfew := hle (by omega)
          refine ⟨some ⟨c, sgn, ds, hc, hsgn, hds, hsome, by omega⟩, ?_, ?_, rfl⟩
          · rw [hsplit]
            simp [Exponent.text]
          · simp only [Option.elim_some, Exponent.value, hneg]
    · rw [if_neg hc] at h
      obtain ⟨rfl, rfl, rfl⟩ : 0 = e ∧ false = exp ∧ c :: rest = after := by simpa using h
      exact ⟨none, rfl, rfl, rfl⟩

theorem fractionPass_spec {a a' : Count} {point : Bool}
    (h : fractionPass s a = some (a', point, after)) :
    ∃ f : Option (List UInt8), s = f.elim [] (46 :: ·) ++ after ∧
      (∀ ds, f = some ds → Digits ds ∧ ds ≠ []) ∧
      a' = (f.getD []).foldl (Count.digit true) a ∧ point = f.isSome := by
  cases s with
  | nil =>
    obtain ⟨rfl, rfl, rfl⟩ : a = a' ∧ false = point ∧ [] = after := by
      simpa [fractionPass] using h
    exact ⟨none, rfl, fun ds hds => (by cases hds), rfl, rfl⟩
  | cons c rest =>
    unfold fractionPass at h
    dsimp only at h
    by_cases hc : c = 46
    · subst hc
      obtain ⟨f, r, rfl, hf, hr, -, -⟩ := split_digits rest
      rw [if_pos rfl, countDigits_append hf hr] at h
      dsimp only at h
      by_cases hlen : r.length = (f ++ r).length
      · rw [if_pos hlen] at h
        cases h
      · rw [if_neg hlen] at h
        obtain ⟨rfl, rfl, rfl⟩ := by simpa only [Option.some.injEq, Prod.mk.injEq] using h
        refine ⟨some f, rfl, fun ds hds => ?_, rfl, rfl⟩
        obtain rfl := Option.some.inj hds
        refine ⟨hf, ?_⟩
        rintro rfl
        exact hlen rfl
    · rw [if_neg hc] at h
      obtain ⟨rfl, rfl, rfl⟩ : a = a' ∧ false = point ∧ c :: rest = after := by simpa using h
      exact ⟨none, rfl, fun ds hds => (by cases hds), rfl, rfl⟩

/-- **What the pass has read is a numeral**, and what follows it no scan goes on into. -/
theorem onePass_numeral (h : onePass s = some (x, after)) :
    ∃ n : Numeral, s = n.text ++ after ∧ after.head?.any isNumber = false ∧ n.count.sig ≤ 19 ∧
      ∃ v, n.count.value = some v ∧
        x = if n.neg = true ∧ (n.isFloat = true ∨ n.count.m ≠ 0) then v.negate else v := by
  -- the sign
  obtain ⟨neg, s', hs, hneg, htail⟩ : ∃ neg s', s = (if neg = true then [45] else []) ++ s' ∧
      (s.head? = some 45 ↔ neg = true) ∧ (if s.head? = some 45 then s.tail else s) = s' := by
    cases s with
    | nil => exact ⟨false, [], rfl, by simp, rfl⟩
    | cons c rest =>
      by_cases hc : c = 45
      · exact ⟨true, rest, by rw [hc]; rfl, by simp [hc], by simp [hc]⟩
      · exact ⟨false, c :: rest, rfl, by simp [hc], by simp [hc]⟩
  obtain ⟨int, rest, rfl, hint, hrest, -, -⟩ := split_digits s'
  unfold onePass at h
  dsimp only at h
  rw [htail, countDigits_append hint hrest] at h
  dsimp only at h
  split at h
  · cases h
  · next hlen =>
    have hsome : int ≠ [] := by
      rintro rfl
      exact hlen rfl
    obtain ⟨⟨a, point, r⟩, hfrac, h⟩ := Option.bind_eq_some_iff.mp h
    obtain ⟨⟨e, exp, r'⟩, hexp, h⟩ := Option.bind_eq_some_iff.mp h
    dsimp only at h hexp
    split at h
    · cases h
    · next hgood =>
      obtain ⟨v, hv, h⟩ := Option.bind_eq_some_iff.mp h
      obtain ⟨rfl, rfl⟩ := by simpa only [Option.some.injEq, Prod.mk.injEq] using h
      rw [Bool.or_eq_true, not_or, decide_eq_true_eq, Nat.not_lt, Bool.not_eq_true] at hgood
      obtain ⟨f, rfl, hf, rfl, rfl⟩ := fractionPass_spec hfrac
      obtain ⟨w, rfl, rfl, rfl⟩ := exponentPass_spec hexp
      refine ⟨⟨neg, int, f, w, hint, hsome, hf⟩, ?_, hgood.2, hgood.1, v, hv, ?_⟩
      · rw [hs]
        simp [Numeral.text, Numeral.signText, Numeral.fracText, Numeral.expText]
      · simp only [hneg, Numeral.isFloat, Bool.or_eq_true, or_assoc]
        rfl

end Pass

/-! ## 4. The text of a numeral, read the general way -/

section Text

variable {ds rest : List UInt8} {d : UInt8} {n k : Nat}

theorem isNumber_of_digit (h : isDigit d = true) : isNumber d = true := by
  unfold isNumber
  rw [h]
  rfl

theorem digit_ne {c : UInt8} (h : isDigit d = true) (hc : isDigit c = false) : d ≠ c := by
  rintro rfl
  rw [h] at hc
  cases hc

/-- A sign in front of digits. -/
theorem signed_digits {sgn : List UInt8} (hsgn : sgn = [] ∨ sgn = [45] ∨ sgn = [43])
    (h : Digits ds) (hsome : ds ≠ []) :
    signed (sgn ++ (ds ++ rest)) = (decide (sgn = [45]), ds ++ rest) := by
  rcases hsgn with rfl | rfl | rfl
  · cases ds with
    | nil => exact absurd rfl hsome
    | cons d ds =>
      have hd := h d List.mem_cons_self
      rw [List.nil_append, List.cons_append, signed, if_neg (digit_ne hd (by decide)),
        if_neg (digit_ne hd (by decide))]
      rfl
  · rfl
  · rfl

theorem valueFrom_lt (h : Digits ds) : valueFrom ds n < (n + 1) * 10 ^ ds.length := by
  induction ds generalizing n with
  | nil =>
    rw [List.length_nil, Nat.pow_zero, Nat.mul_one]
    exact Nat.lt_succ_self n
  | cons d ds ih =>
    have hd := digit_le (h d List.mem_cons_self)
    have hrest := ih (n := n * 10 + digit d) fun x hx => h x (List.mem_cons_of_mem _ hx)
    calc valueFrom (d :: ds) n = valueFrom ds (n * 10 + digit d) := rfl
      _ < (n * 10 + digit d + 1) * 10 ^ ds.length := hrest
      _ ≤ (n + 1) * 10 * 10 ^ ds.length := Nat.mul_le_mul_right _ (by omega)
      _ = (n + 1) * 10 ^ (d :: ds).length := by
        rw [List.length_cons, Nat.pow_succ, Nat.mul_assoc, Nat.mul_comm 10]

theorem expDigits_eq (h : valueFrom ds n ≤ 100000) : expDigits ds n = valueFrom ds n := by
  induction ds generalizing n with
  | nil => rfl
  | cons d ds ih =>
    have hle : n * 10 + digit d ≤ valueFrom ds (n * 10 + digit d) := le_valueFrom
    have h' : valueFrom ds (n * 10 + digit d) ≤ 100000 := h
    rw [expDigits, if_neg (by omega), ih h']
    rfl

theorem magnitude_eq (hds : Digits ds) (h : valueFrom ds n ≤ 2 ^ 53) :
    magnitude ds n = some (valueFrom ds n) := by
  induction ds generalizing n with
  | nil => rfl
  | cons d ds ih =>
    have hd := hds d List.mem_cons_self
    have hle : n * 10 + digit d ≤ valueFrom ds (n * 10 + digit d) := le_valueFrom
    have h' : valueFrom ds (n * 10 + digit d) ≤ 2 ^ 53 := h
    have hdigit : ¬ 9 < d - 48 := by
      rw [UInt8.lt_iff_toNat_lt]
      have h9 : (9 : UInt8).toNat = 9 := rfl
      have hle9 := digit_le hd
      unfold digit at hle9
      omega
    rw [magnitude, if_neg (by rw [not_or]; exact ⟨hdigit, by omega⟩),
      ih (fun x hx => hds x (List.mem_cons_of_mem _ hx)) h']
    rfl

end Text

theorem Exponent.letter_or (e : Exponent) : e.letter ||| 0x20 = 101 := by
  rcases e.letter_eq with h | h
  · rw [h]
    rfl
  · rw [h]
    rfl

theorem exponent_text (e : Exponent) : exponent e.text = some e.value := by
  have hsigned : signed (e.sign ++ (e.ds ++ [])) = (decide (e.sign = [45]), e.ds ++ []) :=
    signed_digits e.sign_eq e.digits e.ds_some
  rw [List.append_nil] at hsigned
  obtain ⟨htake, hdrop⟩ : (e.ds ++ []).takeWhile isDigit = e.ds ∧
    (e.ds ++ []).dropWhile isDigit = [] := takeWhile_digits e.digits rfl
  rw [List.append_nil] at htake hdrop
  have hlt := valueFrom_lt (n := 0) e.digits
  have hpow : 10 ^ e.ds.length ≤ 10 ^ 3 := Nat.pow_le_pow_right (by decide) e.few
  have hne : e.ds.isEmpty = false := by
    rw [List.isEmpty_eq_false_iff]
    exact e.ds_some
  unfold Exponent.text
  rw [exponent, if_pos e.letter_or, hsigned]
  dsimp only
  rw [htake, hdrop, hne, expDigits_eq (by omega)]
  unfold Exponent.value
  simp

namespace Numeral

variable (n : Numeral)

theorem expText_head : n.expText.head?.any isDigit = false := by
  unfold expText
  cases n.exp with
  | none => rfl
  | some e =>
    rw [Option.elim_some, Exponent.text, List.head?_cons, Option.any_some]
    rcases e.letter_eq with h | h
    · rw [h]
      rfl
    · rw [h]
      rfl

theorem fracText_head : (n.fracText ++ n.expText).head?.any isDigit = false := by
  unfold fracText
  cases n.frac with
  | none => exact n.expText_head
  | some f => rfl

theorem signed_text : signed n.text = (n.neg, n.int ++ (n.fracText ++ n.expText)) := by
  unfold text signText
  cases n.neg with
  | false => exact signed_digits (.inl rfl) n.int_digits n.int_some
  | true => exact signed_digits (.inr (.inl rfl)) n.int_digits n.int_some

theorem fraction_text : Num.fraction (n.fracText ++ n.expText) = (n.fraction, n.expText) := by
  unfold fracText fraction
  cases hf : n.frac with
  | none =>
    rw [Option.elim_none, List.nil_append, Option.getD_none]
    unfold expText
    cases n.exp with
    | none => rfl
    | some e =>
      have hletter : e.letter ≠ 46 := by
        rcases e.letter_eq with h | h
        · rw [h]
          decide
        · rw [h]
          decide
      rw [Option.elim_some, Exponent.text, Num.fraction, if_neg hletter]
  | some f =>
    obtain ⟨htake, hdrop⟩ := takeWhile_digits (n.frac_digits f hf).1 n.expText_head
    rw [Option.elim_some, Option.getD_some, List.cons_append, Num.fraction, if_pos rfl, htake, hdrop]

theorem exponent_expText : exponent n.expText = some n.power := by
  unfold expText power
  cases n.exp with
  | none => rfl
  | some e => exact exponent_text e

/-- **A numeral read as a float** is what its digits and its power are converted to. -/
theorem parseF64_text : parseF64 n.text = some (convert n.neg n.int n.fraction n.power) := by
  obtain ⟨htake, hdrop⟩ := takeWhile_digits n.int_digits n.fracText_head
  have hne : n.int.isEmpty = false := by
    rw [List.isEmpty_eq_false_iff]
    exact n.int_some
  unfold parseF64
  rw [n.signed_text]
  dsimp only
  rw [htake, hdrop, n.fraction_text]
  dsimp only
  rw [hne, n.exponent_expText]
  rfl

/-- **A numeral with no point or exponent read as an integer**, where it is no larger than an
exact float. -/
theorem parseI64_text (hf : n.isFloat = false) (hle : valueFrom n.int 0 ≤ 2 ^ 53) :
    parseI64 n.text = some (if n.neg = true then -(Int64.ofNat (valueFrom n.int 0))
      else Int64.ofNat (valueFrom n.int 0)) := by
  unfold isFloat at hf
  rw [Bool.or_eq_false_iff, Option.isSome_eq_false_iff, Option.isNone_iff_eq_none,
    Option.isSome_eq_false_iff, Option.isNone_iff_eq_none] at hf
  have hend : n.fracText ++ n.expText = [] := by
    unfold fracText expText
    rw [hf.1, hf.2]
    rfl
  have hne : n.int.isEmpty = false := by
    rw [List.isEmpty_eq_false_iff]
    exact n.int_some
  unfold parseI64
  rw [n.signed_text, hend, List.append_nil]
  dsimp only
  rw [hne, magnitude_eq n.int_digits hle]
  dsimp only
  rw [if_neg (by decide)]
  cases n.neg with
  | true =>
    have hfit : valueFrom n.int 0 ≤ 2 ^ 63 := by omega
    simp only [if_true, if_pos hfit]
  | false =>
    have hfit : valueFrom n.int 0 < 2 ^ 63 := by omega
    simp only [Bool.false_eq_true, if_false, if_pos hfit]

/-- A byte that only a number that is no integer has. -/
def isMark (c : UInt8) : Bool := c == 46 || c == 101 || c == 69

theorem digits_scan {ds : List UInt8} (h : Digits ds) :
    ds.all isNumber = true ∧ ds.any isMark = false := by
  rw [List.all_eq_true, List.any_eq_false]
  refine ⟨fun d hd => isNumber_of_digit (h d hd), fun d hd => ?_⟩
  have hd' := h d hd
  unfold isMark
  rw [Bool.not_eq_true, Bool.or_eq_false_iff, Bool.or_eq_false_iff, beq_eq_false_iff_ne,
    beq_eq_false_iff_ne, beq_eq_false_iff_ne]
  exact ⟨⟨digit_ne hd' (by decide), digit_ne hd' (by decide)⟩, digit_ne hd' (by decide)⟩

theorem exponent_scan (e : Exponent) :
    e.text.all isNumber = true ∧ e.text.any isMark = true := by
  have hletter : isNumber e.letter = true ∧ isMark e.letter = true := by
    rcases e.letter_eq with h | h
    · rw [h]
      decide
    · rw [h]
      decide
  have hsign : e.sign.all isNumber = true := by
    rcases e.sign_eq with h | h | h
    · rw [h]
      rfl
    · rw [h]
      rfl
    · rw [h]
      rfl
  unfold Exponent.text
  rw [List.all_cons, List.all_append, List.any_cons, hletter.1, hletter.2, hsign,
    (digits_scan e.digits).1]
  exact ⟨rfl, rfl⟩

/-- **The bytes of a numeral are a number's**, and a mark is among them where it is no integer. -/
theorem text_scan : n.text.all isNumber = true ∧ n.text.any isMark = n.isFloat := by
  have hsign : n.signText.all isNumber = true ∧ n.signText.any isMark = false := by
    unfold signText
    cases n.neg with
    | false => exact ⟨rfl, rfl⟩
    | true => exact ⟨rfl, rfl⟩
  have hfrac : n.fracText.all isNumber = true ∧ n.fracText.any isMark = n.frac.isSome := by
    unfold fracText
    cases hf : n.frac with
    | none => exact ⟨rfl, rfl⟩
    | some f =>
      rw [Option.elim_some, List.all_cons, List.any_cons, (digits_scan (n.frac_digits f hf).1).1]
      exact ⟨rfl, rfl⟩
  have hexp : n.expText.all isNumber = true ∧ n.expText.any isMark = n.exp.isSome := by
    unfold expText
    cases n.exp with
    | none => exact ⟨rfl, rfl⟩
    | some e => exact exponent_scan e
  unfold text isFloat
  rw [List.all_append, List.all_append, List.all_append, List.any_append, List.any_append,
    List.any_append, hsign.1, hsign.2, hfrac.1, hfrac.2, hexp.1, hexp.2,
    (digits_scan n.int_digits).1, (digits_scan n.int_digits).2, Bool.false_or, Bool.false_or]
  exact ⟨rfl, rfl⟩

/-- **The general scan takes the whole text of a numeral**, and sees what it is. -/
theorem scan {after : List UInt8} {b : List UInt8} {j : Nat} (hb : b.drop j = n.text ++ after)
    (hafter : after.head?.any isNumber = false) : numberAt b j = (n.text, n.isFloat) := by
  obtain ⟨hall, hany⟩ := n.text_scan
  have htake : (b.drop j).takeWhile isNumber = n.text := by
    rw [hb, List.takeWhile_append_of_pos (List.all_eq_true.mp hall)]
    cases after with
    | nil => exact List.append_nil _
    | cons c after =>
      rw [List.head?_cons, Option.any_some] at hafter
      rw [List.takeWhile_cons, hafter]
      exact List.append_nil _
  unfold numberAt
  rw [htake]
  exact Prod.ext rfl hany

end Numeral

/-! ## 5. Digits counted twice -/

/-- **What the pass has counted is what `convert` has**, as long as no more than nineteen digits
are significant. -/
structure Alike (exp : Int) (c : Count) (a : Mantissa) : Prop where
  digits : a.digits = c.sig
  mant : a.mant = c.m.toNat
  truncated : a.truncated = false
  e10 : a.e10 = exp + c.e10
  lt : c.m.toNat < 10 ^ c.sig
  zero : c.m = 0 → c.sig = 0

section Alike

variable {exp : Int} {c : Count} {a : Mantissa} {d : UInt8} {ds : List UInt8} {frac : Bool}

theorem sig_le_digit : c.sig ≤ (c.digit frac d).sig := Nat.le_add_right _ _

theorem sig_le_fold : c.sig ≤ (ds.foldl (Count.digit frac) c).sig := by
  induction ds generalizing c with
  | nil => exact Nat.le_refl _
  | cons d ds ih => exact sig_le_digit.trans ih

/-- A significant digit more does not wrap the mantissa. -/
theorem Alike.digit (frac : Bool) (h : Alike exp c a) (hd : isDigit d = true) (hsig : c.m ≠ 0 ∨ d ≠ 48)
    (hfew : c.sig + 1 ≤ 19) :
    (c.digit frac d).m.toNat = c.m.toNat * 10 + Num.digit d ∧
      (c.digit frac d).sig = c.sig + 1 ∧ (c.digit frac d).m ≠ 0 ∧
      (c.digit frac d).m.toNat < 10 ^ (c.sig + 1) := by
  have hle := digit_le hd
  have hlt := h.lt
  have hpow : 10 ^ (c.sig + 1) ≤ 10 ^ 19 := Nat.pow_le_pow_right (by decide) hfew
  have hstep : 10 ^ (c.sig + 1) = 10 ^ c.sig * 10 := Nat.pow_succ 10 c.sig
  have hval : (c.digit frac d).m.toNat = c.m.toNat * 10 + Num.digit d := by
    show (c.m * 10 + (d - 48).toUInt64).toNat = _
    rw [UInt64.toNat_add, UInt64.toNat_mul, UInt8.toNat_toUInt64]
    have h10 : (10 : UInt64).toNat = 10 := rfl
    unfold Num.digit at hle ⊢
    rw [h10]
    omega
  refine ⟨hval, ?_, ?_, by omega⟩
  · show c.sig + (if c.m ≠ 0 ∨ d ≠ 48 then 1 else 0) = c.sig + 1
    rw [if_pos hsig]
  · intro hzero
    rw [hzero] at hval
    have h0 : (0 : UInt64).toNat = 0 := rfl
    rcases hsig with hm | hd48
    · have hm' : c.m.toNat ≠ 0 := fun h0 => hm (UInt64.toNat_inj.mp h0)
      omega
    · have hd' : Num.digit d ≠ 0 := fun h0 => hd48 ((digit_eq_zero hd).mp h0)
      omega

/-- One more digit before the point, after one that is no zero. -/
theorem Alike.before (h : Alike exp c a) (hd : isDigit d = true) (hsig : c.m ≠ 0 ∨ d ≠ 48)
    (hfew : (c.digit false d).sig ≤ 19) :
    Alike exp (c.digit false d) (a.int d) ∧ (c.digit false d).m ≠ 0 := by
  have he : (c.digit false d).e10 = c.e10 := Int.sub_zero c.e10
  have hfew' : c.sig + 1 ≤ 19 := by
    have hs : (c.digit false d).sig = c.sig + (if c.m ≠ 0 ∨ d ≠ 48 then 1 else 0) := rfl
    rw [if_pos hsig] at hs
    omega
  obtain ⟨hval, hs, hne, hlt⟩ := h.digit false hd hsig hfew'
  have ha : a.int d = { a with mant := a.mant * 10 + Num.digit d, digits := a.digits + 1 } := by
    unfold Mantissa.int
    rw [if_pos (by rw [h.digits]; omega)]
  refine ⟨⟨?_, ?_, ?_, ?_, ?_, fun h0 => absurd h0 hne⟩, hne⟩
  · rw [ha, hs, ← h.digits]
  · rw [ha, hval, ← h.mant]
  · rw [ha]
    exact h.truncated
  · rw [ha, he]
    exact h.e10
  · rw [hs]
    exact hlt

/-- One more digit after the point. -/
theorem Alike.after (h : Alike exp c a) (hd : isDigit d = true)
    (hfew : (c.digit true d).sig ≤ 19) : Alike exp (c.digit true d) (a.frac d) := by
  have he : (c.digit true d).e10 = c.e10 - 1 := rfl
  have hmant : a.mant = 0 ↔ c.m = 0 := by
    rw [h.mant]
    exact ⟨fun h0 => UInt64.toNat_inj.mp h0, fun h0 => by rw [h0]; rfl⟩
  by_cases hsig : c.m ≠ 0 ∨ d ≠ 48
  · have hfew' : c.sig + 1 ≤ 19 := by
      have hs : (c.digit true d).sig = c.sig + (if c.m ≠ 0 ∨ d ≠ 48 then 1 else 0) := rfl
      rw [if_pos hsig] at hs
      omega
    obtain ⟨hval, hs, hne, hlt⟩ := h.digit true hd hsig hfew'
    have hnot : ¬ (a.mant = 0 ∧ d = 48) := by
      rintro ⟨h0, h48⟩
      rcases hsig with hm | hd48
      · exact hm (hmant.mp h0)
      · exact hd48 h48
    have ha : a.frac d = { a with
        mant := a.mant * 10 + Num.digit d, digits := a.digits + 1, e10 := a.e10 - 1 } := by
      unfold Mantissa.frac
      rw [if_pos (by rw [h.digits]; omega), if_neg hnot]
    refine ⟨?_, ?_, ?_, ?_, ?_, fun h0 => absurd h0 hne⟩
    · rw [ha, hs, ← h.digits]
    · rw [ha, hval, ← h.mant]
    · rw [ha]
      exact h.truncated
    · rw [ha, he, h.e10]
      exact Int.add_sub_assoc _ _ _
    · rw [hs]
      exact hlt
  · -- a zero before the first digit that is none
    obtain ⟨hm, hd48⟩ : c.m = 0 ∧ d = 48 := by
      rw [not_or, not_not, not_not] at hsig
      exact hsig
    have hs0 := h.zero hm
    have hcount : c.digit true d = { c with e10 := c.e10 - 1 } := by
      unfold Count.digit
      rw [hm, hd48]
      rfl
    have ha : a.frac d = { a with e10 := a.e10 - 1 } := by
      unfold Mantissa.frac
      rw [if_pos (by rw [h.digits]; omega), if_pos ⟨hmant.mpr hm, hd48⟩]
    rw [hcount, ha]
    exact ⟨h.digits, h.mant, h.truncated, by rw [h.e10]; exact Int.add_sub_assoc _ _ _, h.lt, h.zero⟩

theorem Alike.ints (h : Alike exp c a) (hm : c.m ≠ 0) (hds : Digits ds)
    (hfew : (ds.foldl (Count.digit false) c).sig ≤ 19) :
    Alike exp (ds.foldl (Count.digit false) c) (ds.foldl Mantissa.int a) := by
  induction ds generalizing c a with
  | nil => exact h
  | cons d ds ih =>
    obtain ⟨h', hm'⟩ := h.before (hds d List.mem_cons_self) (.inl hm) (sig_le_fold.trans hfew)
    exact ih h' hm' (fun x hx => hds x (List.mem_cons_of_mem _ hx)) hfew

theorem Alike.fracs (h : Alike exp c a) (hds : Digits ds)
    (hfew : (ds.foldl (Count.digit true) c).sig ≤ 19) :
    Alike exp (ds.foldl (Count.digit true) c) (ds.foldl Mantissa.frac a) := by
  induction ds generalizing c a with
  | nil => exact h
  | cons d ds ih =>
    exact ih (h.after (hds d List.mem_cons_self) (sig_le_fold.trans hfew))
      (fun x hx => hds x (List.mem_cons_of_mem _ hx)) hfew

/-- Zeros in front add nothing. -/
theorem count_zeros : (ds.dropWhile (· == 48)).foldl (Count.digit false) ⟨0, 0, 0⟩ =
    ds.foldl (Count.digit false) ⟨0, 0, 0⟩ := by
  induction ds with
  | nil => rfl
  | cons d ds ih =>
    by_cases hd : d = 48
    · subst hd
      exact ih
    · rw [List.dropWhile_cons_of_neg (by simpa using hd)]

theorem Alike.stripped (hds : Digits ds)
    (hfew : (ds.foldl (Count.digit false) ⟨0, 0, 0⟩).sig ≤ 19) :
    Alike exp (ds.foldl (Count.digit false) ⟨0, 0, 0⟩)
      ((ds.dropWhile (· == 48)).foldl Mantissa.int ⟨0, 0, false, exp⟩) := by
  have hstart : Alike exp ⟨0, 0, 0⟩ ⟨0, 0, false, exp⟩ :=
    ⟨rfl, rfl, rfl, (Int.add_zero exp).symm, by decide, fun _ => rfl⟩
  rw [← count_zeros] at hfew ⊢
  have hds' : Digits (ds.dropWhile (· == 48)) := fun d hd =>
    hds d ((List.dropWhile_suffix _).mem hd)
  have hhead := List.head?_dropWhile_not (· == 48) ds
  cases hstrip : ds.dropWhile (· == 48) with
  | nil => exact hstart
  | cons d rest =>
    rw [hstrip] at hfew hds' hhead
    have hd : d ≠ 48 := by simpa using hhead
    obtain ⟨h', hm'⟩ := hstart.before (hds' d List.mem_cons_self) (.inr hd) (sig_le_fold.trans hfew)
    exact h'.ints hm' (fun x hx => hds' x (List.mem_cons_of_mem _ hx)) hfew

theorem truncated_int (h : a.truncated = true) : (ds.foldl Mantissa.int a).truncated = true := by
  induction ds generalizing a with
  | nil => exact h
  | cons d ds ih =>
    refine ih ?_
    unfold Mantissa.int
    split
    · exact h
    · rfl

/-- A mantissa that was not cut is the number its digits make. -/
theorem mant_int (h : (ds.foldl Mantissa.int a).truncated = false) :
    (ds.foldl Mantissa.int a).mant = valueFrom ds a.mant := by
  induction ds generalizing a with
  | nil => rfl
  | cons d ds ih =>
    rw [List.foldl_cons] at h ⊢
    by_cases hroom : a.digits < 19
    · have hmant : (a.int d).mant = a.mant * 10 + Num.digit d := by
        unfold Mantissa.int
        rw [if_pos hroom]
      rw [ih h, hmant]
      rfl
    · have hcut : (a.int d).truncated = true := by
        unfold Mantissa.int
        rw [if_neg hroom]
      rw [truncated_int hcut] at h
      cases h

theorem valueFrom_zeros : valueFrom (ds.dropWhile (· == 48)) 0 = valueFrom ds 0 := by
  induction ds with
  | nil => rfl
  | cons d ds ih =>
    by_cases hd : d = 48
    · subst hd
      exact ih
    · rw [List.dropWhile_cons_of_neg (by simpa using hd)]

/-- The point's place is moved by no digit before it. -/
theorem e10_int : (ds.foldl (Count.digit false) c).e10 = c.e10 := by
  induction ds generalizing c with
  | nil => rfl
  | cons d ds ih => exact ih.trans (Int.sub_zero c.e10)

end Alike

/-! ## 6. The two paths agree -/

/-- What the general path reads a text as. -/
def general (text : List UInt8) (isFloat : Bool) : Option F64 :=
  if isFloat then parseF64 text else (parseI64 text).map fun i => Ieee.ofInt i.toInt

namespace Numeral

variable {n : Numeral} {v : F64}

/-- The digits as `convert` has them. -/
theorem alike (hfew : n.count.sig ≤ 19) : ∃ c, n.count = { c with e10 := c.e10 + n.power } ∧
    Alike n.power c (n.fraction.foldl Mantissa.frac
      ((n.int.dropWhile (· == 48)).foldl Mantissa.int ⟨0, 0, false, n.power⟩)) := by
  have hdigits : Digits n.fraction := by
    unfold fraction
    cases hf : n.frac with
    | none => exact fun d hd => (by cases hd)
    | some f => exact (n.frac_digits f hf).1
  exact ⟨_, rfl, (Alike.stripped n.int_digits (sig_le_fold.trans hfew)).fracs hdigits hfew⟩

/-- **Read as a float**, a numeral is what the pass makes of its digits. -/
theorem convert_of_value (hfew : n.count.sig ≤ 19) (hv : n.count.value = some v) :
    convert n.neg n.int n.fraction n.power = sign n.neg v := by
  obtain ⟨c, hc, h⟩ := alike hfew
  rw [hc] at hv
  unfold convert
  dsimp only
  generalize n.fraction.foldl Mantissa.frac
    ((n.int.dropWhile (· == 48)).foldl Mantissa.int ⟨0, 0, false, n.power⟩) = a at h ⊢
  unfold Count.value at hv
  dsimp only at hv
  rw [h.mant]
  by_cases hm : c.m = 0
  · rw [if_pos hm] at hv
    obtain rfl := Option.some.inj hv
    rw [hm, if_pos (by rfl : UInt64.toNat 0 = 0)]
    cases n.neg with
    | false => rfl
    | true => exact (by decide : Ieee.ofMag true 0 = (Ieee.ofMag false 0 : F64).negate)
  · have hm' : ¬ c.m.toNat = 0 := fun h0 => hm (UInt64.toNat_inj.mp h0)
    rw [if_neg hm] at hv
    rw [if_neg hm']
    split at hv
    · cases hv
    · next hle =>
      have hexact : a.exact = some v := by
        unfold Mantissa.exact
        rw [h.truncated, h.mant, h.e10, Int.add_comm, if_pos (by simpa using hle)]
        split at hv
        · next he =>
          rw [if_pos he]
          exact hv
        · next he =>
          rw [if_neg he]
          split at hv
          · next he' =>
            rw [if_pos he']
            exact hv
          · cases hv
      rw [hexact]

/-- The count of an integer is the number its digits make. -/
theorem count_int (hf : n.isFloat = false) (hfew : n.count.sig ≤ 19) :
    n.count.m.toNat = valueFrom n.int 0 ∧ n.count.e10 = 0 := by
  obtain ⟨c, hc, h⟩ := alike hfew
  unfold isFloat at hf
  rw [Bool.or_eq_false_iff, Option.isSome_eq_false_iff, Option.isNone_iff_eq_none,
    Option.isSome_eq_false_iff, Option.isNone_iff_eq_none] at hf
  have hfrac : n.fraction = [] := by
    unfold fraction
    rw [hf.1]
    rfl
  have hpower : n.power = 0 := by
    unfold power
    rw [hf.2]
    rfl
  rw [hfrac, List.foldl_nil] at h
  refine ⟨?_, ?_⟩
  · rw [hc, ← h.mant, mant_int h.truncated, valueFrom_zeros]
  · unfold count
    dsimp only
    rw [hfrac, hpower, List.foldl_nil, e10_int]
    rfl

/-- An integer that the pass reads is held. -/
theorem int_le (hf : n.isFloat = false) (hfew : n.count.sig ≤ 19) (hv : n.count.value = some v) :
    valueFrom n.int 0 ≤ 2 ^ 53 := by
  rw [← (count_int hf hfew).1]
  unfold Count.value at hv
  split at hv
  · next hzero =>
    rw [hzero]
    decide
  · split at hv
    · cases hv
    · next hle => exact Nat.not_lt.mp hle

/-- **Read as an integer**, it is too, and has no negative zero. -/
theorem general_of_value (hf : n.isFloat = false) (hfew : n.count.sig ≤ 19)
    (hv : n.count.value = some v) : general n.text false =
      some (if n.neg = true ∧ n.count.m ≠ 0 then v.negate else v) := by
  obtain ⟨hmant, he⟩ := count_int hf hfew
  unfold Count.value at hv
  rw [he] at hv
  unfold general
  rw [if_neg (by decide)]
  by_cases hzero : n.count.m = 0
  · rw [if_pos hzero] at hv
    obtain rfl := Option.some.inj hv
    have h0 : valueFrom n.int 0 = 0 := by
      rw [← hmant, hzero]
      rfl
    have hint : (if n.neg = true then -(Int64.ofNat 0) else Int64.ofNat 0).toInt = 0 := by
      cases n.neg with
      | false => rfl
      | true => rfl
    have hnot : ¬ (n.neg = true ∧ n.count.m ≠ 0) := fun h => h.2 hzero
    rw [n.parseI64_text hf (by omega), h0, if_neg hnot, Option.map_some, hint, Ieee.ofInt_zero]
  · rw [if_neg hzero] at hv
    split at hv
    · cases hv
    · next hle =>
      rw [if_pos (by omega), hmant] at hv
      rw [hmant] at hle
      have hle' : valueFrom n.int 0 ≤ 2 ^ (52 + 1) := Nat.not_lt.mp hle
      have hpos : 0 < valueFrom n.int 0 := by
        rw [← hmant]
        exact Nat.pos_of_ne_zero fun h0 => hzero (UInt64.toNat_inj.mp h0)
      have hmul := Ieee.mul_ofInt (e := 11) (m := 52) (by decide) (by decide) (by decide) hle'
        (b := 1) (by decide)
      rw [Nat.mul_one] at hmul
      have hv' : v = Ieee.ofInt (valueFrom n.int 0 : Nat) := by
        rw [← Option.some.inj hv]
        exact hmul
      have hint : (Int64.ofNat (valueFrom n.int 0)).toInt = (valueFrom n.int 0 : Nat) :=
        Int64.toInt_ofNat_of_lt (by omega)
      rw [n.parseI64_text hf (by omega), Option.map_some, hv']
      cases n.neg with
      | false =>
        have hnot : ¬ (false = true ∧ n.count.m ≠ 0) := fun h => (by cases h.1)
        rw [if_neg (by decide), if_neg hnot, hint]
      | true =>
        have hneg : (-(Int64.ofNat (valueFrom n.int 0))).toInt =
            -((valueFrom n.int 0 : Nat) : Int) := by
          rw [Int64.toInt_neg, hint]
          exact Int.bmod_eq_of_le (by omega) (by omega)
        rw [if_pos rfl, if_pos ⟨rfl, hzero⟩, Ieee.negate_ofInt hpos, hneg]

end Numeral

end Fenec.Num
