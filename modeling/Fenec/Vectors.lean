/-
# A vector read at once

`tokenize_vectors` reads a list of numbers alone between brackets into one token.  This module
proves that it is `tokenize` otherwise, and that such a list is one the tokens spell
(`vectors_are_spelled`): the two accept the same texts, refuse the others with the same error, and
where they accept one the tokens differ only in that some lists stand folded into a vector.

The fast reader has two ways to a number.  `clinger`'s is brought to the general one first: what it
has read is a numeral, whose characters the general scan takes apart into the same digits
(`numberRun_numeral`), and an integer it accepts is held by a float, so that going through one
rounds no second time (`onePass_rounded`).  The general way is then the tokens' own, but for a `_`
among the digits, which it stops at and the list with it (`oneNumber_token`).
-/
import Fenec.Unclosed

namespace Fenec.Ql

open Lib Case
open Time (isDigit isWhitespace)

/-! ## 1. Lists that are spelled -/

/-- A number token's value, rounded once. -/
def rounded : Tok → Option F32
  | .int i => some (Ieee.ofInt i.toInt)
  | .float f => some (Ieee.convert f)
  | _ => none

/-- **Numbers alone up to a `]`**: number tokens separated by single commas, and what each of them
is rounded to. -/
inductive Spelled : List Token → List F32 → Prop where
  | last {t : Token} {p : Nat} {x : F32} (h : rounded t.tok = some x) :
      Spelled [t, ⟨.rBracket, p⟩] [x]
  | more {t : Token} {p : Nat} {x : F32} {ts : List Token} {v : List F32}
      (h : rounded t.tok = some x) (hrest : Spelled ts v) :
      Spelled (t :: ⟨.comma, p⟩ :: ts) (x :: v)

/-- **Tokens with some lists folded**: the second are the first but for lists of numbers, each a
vector where it stands.  What comes before a token and how many braces are open around it say
where a list may be folded. -/
inductive Folded : Option Tok → Nat → List Token → List Token → Prop where
  | nil {last : Option Tok} {braces : Nat} : Folded last braces [] []
  | same {last : Option Tok} {braces : Nat} {t : Token} {ts vs : List Token}
      (h : Folded (some t.tok) (nest t.tok braces) ts vs) :
      Folded last braces (t :: ts) (t :: vs)
  | list {last : Option Tok} {braces p : Nat} {items ts vs : List Token} {v : List F32}
      (hlast : afterIn last = false) (hbraces : braces < 2) (hitems : Spelled items v)
      (h : Folded (some .rBracket) braces ts vs) :
      Folded last braces (⟨.lBracket, p⟩ :: (items ++ ts)) (⟨.vector v, p⟩ :: vs)

/-! ## 2. Numerals as characters -/

/-- The characters of bytes that are ASCII. -/
def chars (bs : List UInt8) : List Char := bs.map fun b => Char.ofNat b.toNat

section Chars

variable {bs ds : List UInt8} {cs after : List Char} {c : Char} {b : UInt8}

theorem utf8EncodeChar_ofNat (h : b < 0x80) :
    String.utf8EncodeChar (Char.ofNat b.toNat) = [b] := by
  have hall : ∀ n : Fin 128, String.utf8EncodeChar (Char.ofNat n.val) = [UInt8.ofNat n.val] := by
    decide
  have hb := hall ⟨b.toNat, UInt8.lt_iff_toNat_lt.mp h⟩
  rw [UInt8.ofNat_toNat] at hb
  exact hb

theorem isDigit_ofNat (h : b < 0x80) : isDigit (Char.ofNat b.toNat) = Num.isDigit b := by
  have hall : ∀ n : Fin 128, isDigit (Char.ofNat n.val) = Num.isDigit (UInt8.ofNat n.val) := by
    decide
  have hb := hall ⟨b.toNat, UInt8.lt_iff_toNat_lt.mp h⟩
  rw [UInt8.ofNat_toNat] at hb
  exact hb

/-- Bytes that are ASCII in front of a text are characters in front of it. -/
theorem split_ascii {r : List UInt8} (h : ∀ b ∈ bs, b < 0x80) (hcs : utf8 cs = bs ++ r) :
    cs = chars bs ++ cs.drop bs.length ∧ utf8 (cs.drop bs.length) = r := by
  induction bs generalizing cs with
  | nil => exact ⟨rfl, hcs⟩
  | cons b bs ih =>
    cases cs with
    | nil => cases hcs
    | cons c cs =>
      have hb := h b List.mem_cons_self
      obtain ⟨first, rest, henc⟩ := Like.encoded c
      rw [utf8_cons, henc.bytes, List.cons_append, List.cons_append] at hcs
      obtain ⟨rfl, htail⟩ := List.cons.inj hcs
      have hc : c = Char.ofNat first.toNat := henc.ascii hb
      have hrest : rest = [] := by
        have hbytes := henc.bytes
        rw [hc, utf8EncodeChar_ofNat hb] at hbytes
        exact (List.cons.inj hbytes).2.symm
      rw [hrest, List.nil_append] at htail
      obtain ⟨heq, hdrop⟩ := ih (fun x hx => h x (List.mem_cons_of_mem _ hx)) htail
      refine ⟨?_, hdrop⟩
      rw [List.length_cons, List.drop_succ_cons, hc]
      exact congrArg _ heq

theorem utf8_chars (h : ∀ b ∈ bs, b < 0x80) : utf8 (chars bs) = bs := by
  induction bs with
  | nil => rfl
  | cons b bs ih =>
    have hcons : chars (b :: bs) = Char.ofNat b.toNat :: chars bs := rfl
    rw [hcons, utf8_cons, utf8EncodeChar_ofNat (h b List.mem_cons_self),
      ih fun x hx => h x (List.mem_cons_of_mem _ hx)]
    rfl

theorem digit_ascii (h : Num.isDigit b = true) : b < 0x80 := by
  unfold Num.isDigit at h
  have hle : b ≤ 57 := of_decide_eq_true (Bool.and_eq_true _ _ ▸ h).2
  exact UInt8.lt_of_le_of_lt hle (by decide)

/-- Digits are digits as characters. -/
theorem isDigit_chars (h : Num.Digits ds) : ∀ c ∈ chars ds, isDigit c = true := by
  intro c hc
  obtain ⟨b, hb, rfl⟩ := List.mem_map.mp hc
  rw [isDigit_ofNat (digit_ascii (h b hb))]
  exact h b hb

/-- A character that no number goes on with. -/
def Stops (c : Char) : Prop :=
  isDigit c = false ∧ c ≠ '.' ∧ c ≠ 'e' ∧ c ≠ 'E' ∧ c ≠ '+' ∧ c ≠ '-'

/-- A text that no number goes on into. -/
def StopsAt (cs : List Char) : Prop := ∀ c, cs.head? = some c → Stops c

/-- No number goes on where no byte of one follows. -/
theorem StopsAt.of_bytes (h : (utf8 cs).head?.any Num.isNumber = false) : StopsAt cs := by
  intro c hc
  cases cs with
  | nil => cases hc
  | cons k cs =>
    obtain rfl : k = c := Option.some.inj hc
    obtain ⟨first, rest, henc⟩ := Like.encoded k
    rw [utf8_cons, henc.bytes, List.cons_append, List.head?_cons, Option.any_some] at h
    have hne : ∀ n < 128, Num.isNumber (UInt8.ofNat n) = true → k ≠ Char.ofNat n := by
      rintro n hn hnum rfl
      have hval : (UInt8.ofNat n).toNat = n := Like.toNat_ofNat_lt (by omega)
      have hlt : UInt8.ofNat n < 0x80 := by
        rw [UInt8.lt_iff_toNat_lt, hval]
        exact hn
      have hbytes := henc.bytes
      have hsingle := utf8EncodeChar_ofNat hlt
      rw [hval] at hsingle
      rw [hsingle] at hbytes
      rw [← (List.cons.inj hbytes).1, hnum] at h
      cases h
    refine ⟨?_, hne 46 (by decide) (by decide), hne 101 (by decide) (by decide),
      hne 69 (by decide) (by decide), hne 43 (by decide) (by decide),
      hne 45 (by decide) (by decide)⟩
    rw [Bool.eq_false_iff]
    intro hdigit
    have hascii : k.toNat < 128 := by
      unfold isDigit at hdigit
      have hle : k ≤ '9' := of_decide_eq_true (Bool.and_eq_true _ _ ▸ hdigit).2
      have hle' : k.toNat ≤ '9'.toNat := hle
      have h9 : '9'.toNat = 57 := rfl
      omega
    have hof : Char.ofNat k.toNat = k := Char.ofNat_toNat k
    have hval : (UInt8.ofNat k.toNat).toNat = k.toNat := Like.toNat_ofNat_lt (by omega)
    have hlt : UInt8.ofNat k.toNat < 0x80 := by
      rw [UInt8.lt_iff_toNat_lt, hval]
      exact hascii
    refine hne k.toNat hascii (Num.isNumber_of_digit ?_) hof.symm
    have heq := isDigit_ofNat hlt
    rw [hval, hof, hdigit] at heq
    exact heq.symm

/-- Characters that are ASCII, before a stop, and what a run takes of them. -/
theorem digits_before (h : Num.Digits ds) (hstop : after.head?.any isDigit = false) :
    (chars ds ++ after).takeWhile isDigit = chars ds ∧
      (chars ds ++ after).dropWhile isDigit = after :=
  Num.span_append (isDigit_chars h) hstop

theorem StopsAt.not_digit (h : StopsAt cs) : cs.head?.any isDigit = false := by
  cases cs with
  | nil => rfl
  | cons c cs => exact (h c rfl).1

end Chars

namespace Numeral

/-- How a numeral is spelled. -/
def spelling (n : Num.Numeral) : Spelling :=
  ⟨chars n.signText, chars n.int, chars n.fracText, chars n.expText⟩

end Numeral

section Numeral

variable {n : Num.Numeral} {after cs : List Char}

theorem text_spelling (n : Num.Numeral) : (Numeral.spelling n).text = chars n.text := by
  unfold Numeral.spelling Spelling.text Num.Numeral.text chars
  simp only [List.map_append]

theorem isFloat_spelling (n : Num.Numeral) : (Numeral.spelling n).isFloat = n.isFloat := by
  unfold Numeral.spelling Spelling.isFloat Num.Numeral.isFloat Num.Numeral.fracText
    Num.Numeral.expText
  cases n.frac with
  | none =>
    cases n.exp with
    | none => rfl
    | some e => rfl
  | some f => rfl

theorem digitNext_numeral (n : Num.Numeral) : digitNext (chars n.int ++ after) = true := by
  cases hint : n.int with
  | nil => exact absurd hint n.int_some
  | cons d ds =>
    refine isDigit_chars n.int_digits _ ?_
    rw [hint]
    exact List.mem_cons_self

theorem minusRun_numeral (h : digitNext after = true) :
    minusRun (chars n.signText ++ after) = (chars n.signText, after) := by
  unfold Num.Numeral.signText
  cases n.neg with
  | true => rfl
  | false =>
    cases after with
    | nil => cases h
    | cons c cs =>
      have hne : c ≠ '-' := by
        rintro rfl
        cases h
      have hnil : chars (if false = true then [45] else []) = [] := rfl
      rw [hnil, List.nil_append, minusRun, if_neg hne]

theorem fractionRun_numeral (h : after.head?.any isDigit = false)
    (hpoint : after.head? ≠ some '.') :
    fractionRun (chars n.fracText ++ after) = (chars n.fracText, after) := by
  unfold Num.Numeral.fracText
  cases hfrac : n.frac with
  | none =>
    cases after with
    | nil => rfl
    | cons c cs =>
      have hne : c ≠ '.' := fun hc => hpoint (by rw [hc]; rfl)
      have hnil : chars ((none : Option (List UInt8)).elim [] (46 :: ·)) = [] := rfl
      rw [hnil, List.nil_append, fractionRun, if_neg fun hc => hne hc.1]
  | some ds =>
    obtain ⟨hds, hne⟩ := n.frac_digits ds hfrac
    obtain ⟨htake, hdrop⟩ := digits_before hds h
    have hcons : chars ((some ds).elim [] (46 :: ·)) = '.' :: chars ds := rfl
    have hnext : digitNext (chars ds ++ after) = true := by
      cases ds with
      | nil => exact absurd rfl hne
      | cons d ds => exact isDigit_chars hds _ List.mem_cons_self
    rw [hcons, List.cons_append, fractionRun, if_pos ⟨rfl, hnext⟩, htake, hdrop]

theorem exponentRun_numeral (hstop : StopsAt after) :
    exponentRun (chars n.expText ++ after) = (chars n.expText, after) := by
  unfold Num.Numeral.expText
  cases n.exp with
  | none =>
    cases after with
    | nil => rfl
    | cons c cs =>
      obtain ⟨-, -, he, hE, -⟩ := hstop c rfl
      have hnil : chars ((none : Option Num.Exponent).elim [] Num.Exponent.text) = [] := rfl
      rw [hnil, List.nil_append, exponentRun, if_neg (not_or.mpr ⟨he, hE⟩)]
  | some e =>
    obtain ⟨htake, hdrop⟩ := digits_before e.digits hstop.not_digit
    have hcons : chars ((some e).elim [] Num.Exponent.text) =
        Char.ofNat e.letter.toNat :: (chars e.sign ++ chars e.ds) := by
      rw [Option.elim_some, Num.Exponent.text]
      unfold chars
      rw [List.map_cons, List.map_append]
    have hletter : Char.ofNat e.letter.toNat = 'e' ∨ Char.ofNat e.letter.toNat = 'E' := by
      rcases e.letter_eq with h | h
      · rw [h]
        exact .inl rfl
      · rw [h]
        exact .inr rfl
    have hsign : signRun (chars e.sign ++ (chars e.ds ++ after)) =
        (chars e.sign, chars e.ds ++ after) := by
      rcases e.sign_eq with h | h | h
      · rw [h]
        cases hds : e.ds with
        | nil => exact absurd hds e.ds_some
        | cons d ds =>
          have hd := isDigit_chars e.digits (Char.ofNat d.toNat) (by
            rw [hds]
            exact List.mem_cons_self)
          have hne : ¬ (Char.ofNat d.toNat = '+' ∨ Char.ofNat d.toNat = '-') := by
            rintro (heq | heq)
            · rw [heq] at hd
              cases hd
            · rw [heq] at hd
              cases hd
          have hcs : chars [] ++ (chars (d :: ds) ++ after) =
            Char.ofNat d.toNat :: (chars ds ++ after) := rfl
          rw [hcs, signRun, if_neg hne]
          rfl
      · rw [h]
        rfl
      · rw [h]
        rfl
    rw [hcons, List.cons_append, List.append_assoc, exponentRun, if_pos hletter, hsign]
    dsimp only
    rw [htake, hdrop]

/-- **The general scan takes a numeral apart** into what it is made of. -/
theorem numberRun_numeral (n : Num.Numeral) (hstop : StopsAt after) :
    numberRun isDigit (chars n.text ++ after) = (Numeral.spelling n, after) := by
  have htext : chars n.text ++ after =
      chars n.signText ++ (chars n.int ++ (chars n.fracText ++ (chars n.expText ++ after))) := by
    unfold Num.Numeral.text chars
    simp only [List.map_append, List.append_assoc]
  -- what follows the digits before the point, and what follows the fraction
  have hexp : (chars n.expText ++ after).head?.any isDigit = false ∧
      (chars n.expText ++ after).head? ≠ some '.' := by
    unfold Num.Numeral.expText
    cases n.exp with
    | none => exact ⟨hstop.not_digit, fun h => (hstop '.' h).2.1 rfl⟩
    | some e =>
      have hhead : (chars ((some e).elim [] Num.Exponent.text) ++ after).head? =
          some (Char.ofNat e.letter.toNat) := rfl
      rw [hhead]
      rcases e.letter_eq with h | h
      · rw [h]
        exact ⟨rfl, by decide⟩
      · rw [h]
        exact ⟨rfl, by decide⟩
  have hfrac : (chars n.fracText ++ (chars n.expText ++ after)).head?.any isDigit = false := by
    unfold Num.Numeral.fracText
    cases n.frac with
    | none => exact hexp.1
    | some f => rfl
  obtain ⟨htake, hdrop⟩ := digits_before n.int_digits hfrac
  have hdigit : digitNext
      (chars n.int ++ (chars n.fracText ++ (chars n.expText ++ after))) = true :=
    digitNext_numeral n
  unfold numberRun
  rw [htext, minusRun_numeral hdigit]
  dsimp only
  rw [htake, hdrop, fractionRun_numeral hexp.1 hexp.2]
  dsimp only
  rw [exponentRun_numeral hstop]
  rfl

/-- The bytes of a numeral are ASCII. -/
theorem numeral_ascii (n : Num.Numeral) : ∀ b ∈ n.text, b < 0x80 := by
  intro b hb
  have h := List.all_eq_true.mp n.text_scan.1 b hb
  unfold Num.isNumber at h
  simp only [Bool.or_eq_true, beq_iff_eq] at h
  rcases h with (((((h | rfl) | rfl) | rfl) | rfl) | rfl)
  · exact digit_ascii h
  · decide
  · decide
  · decide
  · decide
  · decide

/-- **What `clinger` reads, the general way reads**: an integer it takes is held by a float, so that
it is rounded once. -/
theorem onePass_rounded {s : List UInt8} {x : F64} {r : List UInt8}
    (h : Num.onePass s = some (x, r)) : ∃ n : Num.Numeral, s = n.text ++ r ∧
      r.head?.any Num.isNumber = false ∧
      (if n.isFloat then (Num.parseF64 n.text).map (Ieee.convert : F64 → F32)
        else (Num.parseI64 n.text).map fun i => Ieee.ofInt i.toInt) = some (Ieee.convert x) := by
  obtain ⟨n, hs, hr, hfew, v, hv, hx⟩ := Num.onePass_numeral h
  refine ⟨n, hs, hr, ?_⟩
  cases hf : n.isFloat with
  | true =>
    have hsign : x = Num.sign n.neg v := by
      rw [hx, hf]
      unfold Num.sign
      cases n.neg with
      | false => rfl
      | true => rfl
    rw [if_pos rfl, n.parseF64_text, Num.Numeral.convert_of_value hfew hv, hsign]
    rfl
  | false =>
    have hle := Num.Numeral.int_le hf hfew hv
    have hgeneral := Num.Numeral.general_of_value hf hfew hv
    have hparse := n.parseI64_text hf hle
    have hx' : x = if n.neg = true ∧ n.count.m ≠ 0 then v.negate else v := by
      rw [hx, hf]
      simp
    have hbound : (if n.neg = true then -(Int64.ofNat (Num.valueFrom n.int 0)) else
        Int64.ofNat (Num.valueFrom n.int 0)).toInt.natAbs ≤ 2 ^ (52 + 1) := by
      have hval : (Int64.ofNat (Num.valueFrom n.int 0)).toInt = (Num.valueFrom n.int 0 : Nat) :=
        Int64.toInt_ofNat_of_lt (by omega)
      split
      · rw [Int64.toInt_neg, hval, Int.bmod_eq_of_le (by omega) (by omega)]
        omega
      · rw [hval]
        omega
    unfold Num.general at hgeneral
    rw [if_neg Bool.false_ne_true, hparse, Option.map_some] at hgeneral
    rw [if_neg Bool.false_ne_true, hparse, Option.map_some, hx', ← Option.some.inj hgeneral]
    exact congrArg some (Ieee.convert_ofInt (by decide) (by decide) (by decide) hbound).symm

end Numeral

/-! ## 3. One number -/

section Number

variable {L : Letters} {last : Option Tok} {braces start : Nat} {c : Char}
  {cs rest after : List Char} {x : F32}

/-- **A number, whichever way it is read**, is the general scan's. -/
theorem oneNumber_general (h : oneNumber cs = some (x, after)) :
    digitNext (minusRun cs).2 = true ∧ (numberRun isDigit cs).2 = after ∧
      roundedOnce (numberRun isDigit cs).1 = some x := by
  unfold oneNumber Num.clinger at h
  rw [List.drop_zero] at h
  cases hpass : Num.onePass (utf8 cs) with
  | some r =>
    obtain ⟨y, r⟩ := r
    rw [hpass] at h
    dsimp only at h
    obtain ⟨n, hcs, hr, hround⟩ := onePass_rounded hpass
    obtain ⟨hsplit, hrest⟩ := split_ascii (numeral_ascii n) hcs
    have hk : (utf8 cs).length - r.length = n.text.length := by
      rw [hcs, List.length_append]
      omega
    rw [hk] at h
    obtain ⟨rfl, rfl⟩ := Prod.mk.inj (Option.some.inj h)
    generalize cs.drop n.text.length = after at hsplit hrest ⊢
    rw [← hrest] at hr
    have hrun := numberRun_numeral n (StopsAt.of_bytes hr)
    have htext : chars n.text ++ after = chars n.signText ++
        (chars n.int ++ (chars n.fracText ++ (chars n.expText ++ after))) := by
      unfold Num.Numeral.text chars
      simp only [List.map_append, List.append_assoc]
    refine ⟨?_, by rw [hsplit, hrun], ?_⟩
    · rw [hsplit, htext, minusRun_numeral (digitNext_numeral n)]
      exact digitNext_numeral n
    · rw [hsplit, hrun]
      unfold roundedOnce
      rw [isFloat_spelling, text_spelling, utf8_chars (numeral_ascii n)]
      exact hround
  | none =>
    rw [hpass] at h
    dsimp only at h
    split at h
    · next hdigit =>
      obtain ⟨y, hy, h⟩ := Option.map_eq_some_iff.mp h
      obtain ⟨rfl, rfl⟩ := Prod.mk.inj h
      exact ⟨hdigit, rfl, hy⟩
    · cases h

/-- The lexer's run is the list's where no `_` follows the digits. -/
theorem numberRun_or (h : (numberRun isDigit cs).2.head? ≠ some '_') :
    numberRun isDigitOr cs = numberRun isDigit cs := by
  have hsplit : (minusRun cs).2 = (minusRun cs).2.takeWhile isDigit ++
      (minusRun cs).2.dropWhile isDigit := List.takeWhile_append_dropWhile.symm
  have hdigits : ∀ k ∈ (minusRun cs).2.takeWhile isDigit, isDigitOr k = true := fun k hk => by
    rw [isDigitOr, List.mem_takeWhile_imp hk]
    rfl
  have hstop : ((minusRun cs).2.dropWhile isDigit).head?.any isDigitOr = false := by
    have hnot := List.head?_dropWhile_not isDigit (minusRun cs).2
    unfold numberRun at h
    dsimp only at h
    cases hrest : (minusRun cs).2.dropWhile isDigit with
    | nil => rfl
    | cons k rest =>
      rw [hrest] at h hnot
      have hd : isDigit k = false := by simpa using hnot
      have hk : k ≠ '_' := by
        rintro rfl
        exact h rfl
      rw [List.head?_cons, Option.any_some, isDigitOr, hd, beq_eq_false_iff_ne.mpr hk]
      rfl
  obtain ⟨htake, hdrop⟩ := Num.span_append hdigits hstop
  rw [← hsplit] at htake hdrop
  unfold numberRun
  dsimp only
  rw [htake, hdrop]

/-- No `_` is in a text of the list's scan. -/
theorem text_plain (cs : List Char) :
    (numberRun isDigit cs).1.text.filter (· != '_') = (numberRun isDigit cs).1.text := by
  have hdigit : ∀ {k : Char}, isDigit k = true → k ≠ '_' := by
    rintro k hk rfl
    cases hk
  have hminus : ∀ k ∈ (minusRun cs).1, k ≠ '_' := by
    cases cs with
    | nil => exact fun k hk => (by cases hk)
    | cons c cs =>
      rw [minusRun]
      split
      · intro k hk
        rw [List.mem_singleton.mp hk]
        decide
      · exact fun k hk => (by cases hk)
  have hfrac : ∀ l : List Char, ∀ k ∈ (fractionRun l).1, k ≠ '_' := by
    intro l
    cases l with
    | nil => exact fun k hk => (by cases hk)
    | cons c l =>
      rw [fractionRun]
      split
      · next hc =>
        refine List.forall_mem_cons.mpr ⟨?_, fun k hk => hdigit (List.mem_takeWhile_imp hk)⟩
        rw [hc.1]
        decide
      · exact fun k hk => (by cases hk)
  have hexp : ∀ l : List Char, ∀ k ∈ (exponentRun l).1, k ≠ '_' := by
    intro l
    obtain hnil | ⟨e, sign, ds, heq, he, hsign, hds⟩ := exponentRun_cases l
    · rw [hnil]
      exact fun k hk => (by cases hk)
    · rw [heq]
      refine List.forall_mem_cons.mpr ⟨?_, List.forall_mem_append.mpr
        ⟨?_, fun k hk => hdigit (hds k hk)⟩⟩
      · rcases he with rfl | rfl
        · decide
        · decide
      · rcases hsign with rfl | rfl | rfl
        · exact fun k hk => (by cases hk)
        · exact List.forall_mem_singleton.mpr (by decide)
        · exact List.forall_mem_singleton.mpr (by decide)
  refine List.filter_eq_self.mpr fun k hk => bne_iff_ne.mpr ?_
  unfold numberRun Spelling.text at hk
  dsimp only at hk
  rw [List.mem_append, List.mem_append, List.mem_append] at hk
  rcases hk with hk | hk | hk | hk
  · exact hminus k hk
  · exact hdigit (List.mem_takeWhile_imp hk)
  · exact hfrac _ k hk
  · exact hexp _ k hk

theorem ne_of_number (hc : isDigit c = true ∨ c = '-' ∧ digitNext rest = true) {k : Char}
    (hk : isDigit k = false) (hminus : k ≠ '-') : c ≠ k := by
  rintro rfl
  rcases hc with h | ⟨h, -⟩
  · rw [hk] at h
    cases h
  · exact hminus h

/-- A digit, or a `-` before one that does not subtract, starts a number. -/
theorem token_number (hc : isDigit c = true ∨ c = '-' ∧ digitNext rest = true)
    (hlast : subtracts last = false) (vectors : Bool) :
    token L vectors last braces start c rest = number start (c :: rest) := by
  have hp : punctuation c = none := by
    refine List.lookup_eq_none_iff.mpr fun p hp => ?_
    have hall : ∀ p ∈ punctuations, isDigit p.1 = false ∧ p.1 ≠ '-' := by
      unfold punctuations
      simp only [List.forall_mem_cons]
      decide
    obtain ⟨hd, hm⟩ := hall p hp
    exact bne_iff_ne.mpr (ne_of_number hc hd hm)
  have hne : ∀ k, isDigit k = false → k ≠ '-' → c ≠ k := fun k => ne_of_number hc
  have hminus : ¬ (c = '-' ∧ (digitNext rest = false ∨ subtracts last = true)) := by
    rintro ⟨rfl, hno | hno⟩
    · rcases hc with h | ⟨-, h⟩
      · cases h
      · rw [hno] at h
        cases h
    · rw [hlast] at hno
      cases hno
  unfold token
  rw [hp]
  dsimp only
  rw [if_neg (hne '[' rfl (by decide)), if_neg fun h => hne '|' rfl (by decide) h.1, if_neg hminus,
    if_neg (hne '=' rfl (by decide)), if_neg (hne '!' rfl (by decide)),
    if_neg (hne '<' rfl (by decide)), if_neg (hne '>' rfl (by decide)),
    if_neg (hne '$' rfl (by decide)),
    if_neg (not_or.mpr ⟨hne '"' rfl (by decide), hne '\'' rfl (by decide)⟩), if_pos hc]

/-- **A number of the list is a token.** -/
theorem oneNumber_token (h : oneNumber cs = some (x, after)) (hafter : after.head? ≠ some '_') :
    ∃ c rest t, cs = c :: rest ∧ isWhitespace c = false ∧
      ¬ (c = '#' ∨ c = '-' ∧ nextIs rest '-' = true) ∧ rounded t = some x ∧
      ∀ L last braces start, subtracts last = false →
        token L false last braces start c rest = .ok (t, after) := by
  obtain ⟨hdigit, hrun, hround⟩ := oneNumber_general h
  rw [← hrun] at hafter
  have hor := numberRun_or hafter
  obtain ⟨c, rest, rfl, hc⟩ : ∃ c rest, cs = c :: rest ∧
      (isDigit c = true ∨ c = '-' ∧ digitNext rest = true) := by
    cases cs with
    | nil => cases hdigit
    | cons c rest =>
      refine ⟨c, rest, rfl, ?_⟩
      rw [minusRun] at hdigit
      split at hdigit
      · next hminus => exact .inr ⟨hminus, hdigit⟩
      · exact .inl hdigit
  obtain ⟨t, ht, hnumber⟩ : ∃ t, rounded t = some x ∧ ∀ start,
      number start (c :: rest) = .ok (t, after) := by
    unfold roundedOnce at hround
    unfold number
    rw [hor]
    dsimp only
    rw [text_plain, hrun]
    split at hround
    · next hfloat =>
      obtain ⟨f, hf, rfl⟩ := Option.map_eq_some_iff.mp hround
      refine ⟨.float f, rfl, fun start => ?_⟩
      rw [if_pos hfloat, hf]
    · next hfloat =>
      obtain ⟨i, hi, rfl⟩ := Option.map_eq_some_iff.mp hround
      refine ⟨.int i, rfl, fun start => ?_⟩
      rw [if_neg hfloat, hi]
  have hspace : isWhitespace c = false := by
    rcases hc with hd | ⟨rfl, -⟩
    · exact Time.isWhitespace_digit hd
    · rfl
  have hcomment : ¬ (c = '#' ∨ c = '-' ∧ nextIs rest '-' = true) := by
    rintro (rfl | ⟨rfl, hnext⟩)
    · rcases hc with hd | ⟨hd, -⟩
      · cases hd
      · cases hd
    · rcases hc with hd | ⟨-, hd⟩
      · cases hd
      · rw [cons_of_nextIs hnext] at hd
        cases hd
  refine ⟨c, rest, t, rfl, hspace, hcomment, ht, fun L last braces start hlast => ?_⟩
  rw [token_number hc hlast]
  exact hnumber start

end Number

/-! ## 4. The whole text -/

section Run

variable {L : Letters} {last last' : Option Tok} {braces start pos : Nat} {c : Char}
  {cs rest after : List Char} {v : List F32}

theorem lexFrom_spaces (hsub : ∀ k ∈ cs, isSpace k = true) :
    lexFrom L false last braces pos (cs ++ rest) =
      lexFrom L false last braces (pos + cs.length) rest := by
  induction cs generalizing pos with
  | nil => rfl
  | cons k cs ih =>
    have hk : isWhitespace k = true := by
      have h := hsub k List.mem_cons_self
      unfold isSpace at h
      simp only [Bool.or_eq_true, beq_iff_eq] at h
      rcases h with ((rfl | rfl) | rfl) | rfl
      · rfl
      · rfl
      · rfl
      · rfl
    rw [List.cons_append, lexFrom, if_pos hk, ih fun x hx => hsub x (List.mem_cons_of_mem _ hx),
      List.length_cons]
    congr 1
    omega

/-- The lexer past the spaces that the list's reader skips. -/
theorem lexFrom_skip (cs : List Char) : lexFrom L false last braces pos cs =
    lexFrom L false last braces (pos + (cs.length - (cs.dropWhile isSpace).length))
      (cs.dropWhile isSpace) := by
  have hsplit : cs.takeWhile isSpace ++ cs.dropWhile isSpace = cs :=
    List.takeWhile_append_dropWhile
  have hlen := congrArg List.length hsplit
  rw [List.length_append] at hlen
  conv_lhs => rw [← hsplit]
  rw [lexFrom_spaces fun k hk => List.mem_takeWhile_imp hk]
  congr 1
  omega

/-- A punctuation character, which is no space and begins no comment. -/
theorem lexFrom_punctuation {t : Tok} (h : punctuation c = some t) :
    lexFrom L false last braces pos (c :: rest) =
      (lexFrom L false (some t) (nest t braces) (pos + 1) rest).map (⟨t, pos⟩ :: ·) := by
  have hall : ∀ p ∈ punctuations, isWhitespace p.1 = false ∧ p.1 ≠ '#' ∧ p.1 ≠ '-' := by
    unfold punctuations
    simp only [List.forall_mem_cons]
    decide
  obtain ⟨front, back, htable, -⟩ := List.lookup_eq_some_iff.mp h
  obtain ⟨hspace, hhash, hminus⟩ := hall (c, t) (by
    rw [htable]
    exact List.mem_append_right _ List.mem_cons_self)
  have htoken : token L false last braces pos c rest = .ok (t, rest) := by
    unfold token
    rw [h]
  rw [lexFrom_token (by rw [hspace]; exact Bool.false_ne_true)
    (not_or.mpr ⟨hhash, fun hm => hminus hm.1⟩) htoken, Nat.sub_self, Nat.add_zero]

theorem map_map {α β γ : Type} (f : α → β) (g : β → γ) (r : Result α) :
    (r.map f).map g = r.map fun a => g (f a) := by
  cases r with
  | error e => rfl
  | ok a => rfl

/-- A number is no brace. -/
theorem nest_rounded {t : Tok} {x : F32} (h : rounded t = some x) : nest t braces = braces := by
  unfold rounded at h
  split at h
  · rfl
  · rfl
  · cases h

/-- **The tokens of a list of numbers.** -/
theorem numbersAt_tokens (h : numbersAt cs = some (v, after)) (hlast : subtracts last = false) :
    ∃ items, Spelled items v ∧ lexFrom L false last braces pos cs =
      (lexFrom L false (some .rBracket) braces (pos + (cs.length - after.length)) after).map
        (items ++ ·) := by
  induction v generalizing cs last pos with
  | nil =>
    obtain ⟨x, r, -, ⟨-, hv⟩ | ⟨rest, w, -, -, hv⟩⟩ := numbersAt_cases h
    · cases hv
    · cases hv
  | cons y v ih =>
    obtain ⟨x, r, hone, hr⟩ := numbersAt_cases h
    have hcs : (cs.dropWhile isSpace).length ≤ cs.length := (List.dropWhile_sublist _).length_le
    have hskip : (r.dropWhile isSpace).length ≤ r.length := (List.dropWhile_sublist _).length_le
    -- what follows the number is a space or one of the two: no `_`
    have hnext : r.head? ≠ some '_' := by
      cases r with
      | nil => exact fun h => (by cases h)
      | cons k r =>
        intro hk
        obtain rfl := Option.some.inj hk
        have hdrop : ('_' :: r).dropWhile isSpace = '_' :: r := rfl
        rw [hdrop] at hr
        rcases hr with ⟨hr, -⟩ | ⟨rest, w, hr, -, -⟩
        · cases (List.cons.inj hr).1
        · cases (List.cons.inj hr).1
    obtain ⟨c, rest, t, heq, hspace, hcomment, ht, htoken⟩ := oneNumber_token hone hnext
    rw [lexFrom_skip cs, heq, lexFrom_token (by rw [hspace]; exact Bool.false_ne_true) hcomment
      (htoken L last braces _ hlast), lexFrom_skip r]
    have hle := length_token_le (htoken L last braces 0 hlast)
    rw [heq, List.length_cons] at hcs
    rw [nest_rounded ht]
    rcases hr with ⟨hr, hv⟩ | ⟨rest', w, hr, hw, hv⟩
    · rw [hr, List.length_cons] at hskip
      obtain ⟨rfl, rfl⟩ := List.cons.inj hv
      rw [hr, lexFrom_punctuation rfl, map_map]
      simp only [List.length_cons]
      have hpos : pos + (cs.length - (rest.length + 1)) + 1 + (rest.length - r.length) +
          (r.length - (after.length + 1)) + 1 = pos + (cs.length - after.length) := by
        omega
      rw [hpos]
      exact ⟨_, .last ht, rfl⟩
    · rw [hr, List.length_cons] at hskip
      obtain ⟨rfl, rfl⟩ := List.cons.inj hv
      have hrest := length_numbersAt_le hw
      rw [hr, lexFrom_punctuation rfl]
      simp only [List.length_cons]
      have hcomma : nest .comma braces = braces := rfl
      obtain ⟨items, hitems, htokens⟩ := ih hw (rfl : subtracts (some .comma) = false)
      rw [hcomma, htokens, map_map, map_map]
      have hpos : pos + (cs.length - (rest.length + 1)) + 1 + (rest.length - r.length) +
          (r.length - (rest'.length + 1)) + 1 + (rest'.length - after.length) =
            pos + (cs.length - after.length) := by
        omega
      rw [hpos]
      exact ⟨_, .more ht hitems, rfl⟩

/-- The flag decides nothing but a `[`. -/
theorem token_flag (hc : c ≠ '[') (hsub : subtracts last = subtracts last') :
    token L true last braces pos c rest = token L false last' braces pos c rest := by
  unfold token
  rw [if_neg hc, if_neg hc, hsub]

/-- A `[` is a token or, where a list may be folded, a vector. -/
theorem bracket_cases {t : Tok} (h : bracket true last braces rest = (t, after)) :
    (t = .lBracket ∧ after = rest) ∨
      braces < 2 ∧ afterIn last = false ∧
        ∃ v, t = .vector v ∧ numbersAt rest = some (v, after) := by
  unfold bracket at h
  split at h
  · next hfold =>
    simp only [Bool.true_and, Bool.and_eq_true, decide_eq_true_eq, Bool.not_eq_true'] at hfold
    split at h
    · next v after' hv =>
      obtain ⟨rfl, rfl⟩ := Prod.mk.inj h
      exact .inr ⟨hfold.1, hfold.2, v, rfl, hv⟩
    · obtain ⟨rfl, rfl⟩ := Prod.mk.inj h
      exact .inl ⟨rfl, rfl⟩
  · obtain ⟨rfl, rfl⟩ := Prod.mk.inj h
    exact .inl ⟨rfl, rfl⟩

/-- What is the same of the rest is the same with a token more. -/
theorem folded_cons {t : Tok} {r r' : Result (List Token)}
    (h : (∃ e, r = .error e ∧ r' = .error e) ∨
      ∃ vs ts, r = .ok vs ∧ r' = .ok ts ∧ Folded (some t) (nest t braces) ts vs) :
    (∃ e, r.map (⟨t, pos⟩ :: ·) = .error e ∧ r'.map (⟨t, pos⟩ :: ·) = .error e) ∨
      ∃ vs ts, r.map (⟨t, pos⟩ :: ·) = .ok vs ∧ r'.map (⟨t, pos⟩ :: ·) = .ok ts ∧
        Folded last braces ts vs := by
  rcases h with ⟨e, rfl, rfl⟩ | ⟨vs, ts, rfl, rfl, h⟩
  · exact .inl ⟨e, rfl, rfl⟩
  · exact .inr ⟨_, _, rfl, rfl, .same h⟩

/-- The lexer with the fast reader and without, from a place on. -/
theorem lexFrom_folded (L : Letters) (last : Option Tok) (braces pos : Nat) (cs : List Char)
    (hafter : afterIn last = afterIn last') (hsub : subtracts last = subtracts last') :
    (∃ e, lexFrom L true last braces pos cs = .error e ∧
      lexFrom L false last' braces pos cs = .error e) ∨
    ∃ vs ts, lexFrom L true last braces pos cs = .ok vs ∧
      lexFrom L false last' braces pos cs = .ok ts ∧ Folded last' braces ts vs := by
  induction last, braces, pos, cs using lexFrom.induct L true generalizing last' with
  | case1 last braces pos =>
    rw [lexFrom, lexFrom]
    exact .inr ⟨_, _, rfl, rfl, .same .nil⟩
  | case2 last braces pos c rest hc ih =>
    rw [lexFrom, if_pos hc, lexFrom, if_pos hc]
    exact ih hafter hsub
  | case3 last braces pos c rest hc hcomment ih =>
    rw [lexFrom, if_neg hc, if_pos hcomment, lexFrom, if_neg hc, if_pos hcomment]
    exact ih hafter hsub
  | case4 last braces pos c rest hc hcomment e htoken =>
    have hbracket : c ≠ '[' := by
      rintro rfl
      cases htoken
    rw [lexFrom_error hc hcomment htoken,
      lexFrom_error hc hcomment (token_flag hbracket hsub ▸ htoken)]
    exact .inl ⟨e, rfl, rfl⟩
  | case5 last braces pos c rest hc hcomment t after htoken ih =>
    by_cases hbracket : c = '['
    · subst hbracket
      obtain ⟨rfl, rfl⟩ | ⟨hbraces, hnot, v, rfl, hv⟩ :=
        bracket_cases (Except.ok.inj htoken : bracket true last braces rest = (t, after))
      · rw [lexFrom_token hc hcomment htoken,
          lexFrom_token hc hcomment (rfl : token L false last' braces pos '[' after = _)]
        exact folded_cons (ih rfl rfl)
      · -- a list folded: the tokens spell it, and go on where it ends
        obtain ⟨items, hitems, htokens⟩ : ∃ items, Spelled items v ∧
            lexFrom L false (some .lBracket) braces (pos + 1) rest =
              (lexFrom L false (some .rBracket) braces (pos + 1 + (rest.length - after.length))
                after).map (items ++ ·) := numbersAt_tokens hv rfl
        have hplain : lexFrom L false last' braces pos ('[' :: rest) =
            (lexFrom L false (some .lBracket) braces (pos + 1) rest).map
              (⟨.lBracket, pos⟩ :: ·) := by
          rw [lexFrom_token hc hcomment (rfl : token L false last' braces pos '[' rest = _),
            Nat.sub_self]
          rfl
        rw [lexFrom_token hc hcomment htoken, hplain, htokens, map_map]
        have hrest := @ih (some .rBracket) rfl rfl
        rcases hrest with ⟨e, htrue, hfalse⟩ | ⟨vs, ts, htrue, hfalse, hfolded⟩
        · rw [htrue]
          refine .inl ⟨e, rfl, ?_⟩
          have hfalse' : lexFrom L false (some .rBracket) braces
              (pos + 1 + (rest.length - after.length)) after = .error e := hfalse
          rw [hfalse']
          rfl
        · rw [htrue]
          have hfalse' : lexFrom L false (some .rBracket) braces
              (pos + 1 + (rest.length - after.length)) after = .ok ts := hfalse
          rw [hfalse']
          exact .inr ⟨_, _, rfl, rfl, .list (hafter ▸ hnot) hbraces hitems hfolded⟩
    · rw [lexFrom_token hc hcomment htoken,
        lexFrom_token hc hcomment (token_flag hbracket hsub ▸ htoken)]
      exact folded_cons (ih rfl rfl)

end Run

end Fenec.Ql
