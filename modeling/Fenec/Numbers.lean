/-
# Reading numbers

`parse_i64`, `parse_f64` and `clinger`, over the bytes of their text.  `parse_f64` takes a text
apart and hands its digits to `convert`, which has three ways: one multiply or divide of exact
operands, a long division, and a decimal of eight hundred digits that is shifted into place.
`clinger` reads in one pass what the first of these ways answers, and leaves the rest alone.

Machine words are taken as such where they can wrap: the mantissa of `clinger` and the long
division.  The counters of digits and the decimal exponents are unbounded: it would take a number
of two thousand million digits to leave their 32 bits.
-/
import Fenec.Lib.Ieee
import Mathlib.Data.List.DropRight

namespace Fenec.Num

open Lib

/-! ## 1. Integers -/

/-- `u8::is_ascii_digit`. -/
def isDigit (b : UInt8) : Bool := 48 ≤ b && b ≤ 57

/-- The value of a digit. -/
def digit (b : UInt8) : Nat := (b - 48).toNat

/-- A sign, and what follows it. -/
def signed : List UInt8 → Bool × List UInt8
  | [] => (false, [])
  | b :: rest => if b = 45 then (true, rest) else if b = 43 then (false, rest) else (false, b :: rest)

/-- The loop of `parse_i64`: past a tenth of `2^63` another digit takes any number out of the
type. -/
def magnitude : List UInt8 → Nat → Option Nat
  | [], n => some n
  | c :: rest, n =>
    if 9 < c - 48 ∨ 2 ^ 63 / 10 < n then none else magnitude rest (n * 10 + digit c)

/-- `parse_i64`. -/
def parseI64 (s : List UInt8) : Option Int64 :=
  let (neg, digits) := signed s
  if digits.isEmpty then none
  else match magnitude digits 0 with
    | none => none
    | some n =>
      if neg then if n ≤ 2 ^ 63 then some (-(Int64.ofNat n)) else none
      else if n < 2 ^ 63 then some (Int64.ofNat n) else none

/-! ## 2. A decimal that is shifted -/

/-- `MAX_DIGITS`. -/
def maxDigits : Nat := 800

/-- `Decimal`: `0.d[0]d[1]... * 10^dp`. -/
structure Decimal where
  d : List Nat
  dp : Int
  truncated : Bool
deriving Repr

namespace Decimal

/-- `Decimal::push`. -/
def push (x : Decimal) (digit : Nat) : Decimal :=
  if x.d.length < maxDigits then { x with d := x.d ++ [digit] }
  else { x with truncated := x.truncated || digit != 0 }

/-- `Decimal::trim`: no zero in front, none at the end. -/
def trim (x : Decimal) : Decimal :=
  let k := (x.d.takeWhile (· == 0)).length
  let d := (x.d.drop k).rdropWhile (· == 0)
  { x with d := d, dp := if d.isEmpty then 0 else x.dp - k }

/-- `Decimal::new`. -/
def new (int frac : List UInt8) (exp : Int) : Decimal :=
  let x := int.foldl (fun (x : Decimal) c => x.push (digit c)) ⟨[], 0, false⟩
  let x := { x with dp := int.length }
  let x := frac.foldl (fun (x : Decimal) c =>
    if x.d.isEmpty && c == 48 then { x with dp := x.dp - 1 } else x.push (digit c)) x
  trim { x with dp := x.dp + exp }

/-- The lowest digits of a carry, in front. -/
def lead : Nat → Nat → List Nat
  | 0, _ => []
  | n + 1, carry => lead n (carry / 10) ++ [carry % 10]

/-- `Decimal::shl`: times `2^k`. -/
def shl (x : Decimal) (k : Nat) : Decimal :=
  let extra := k * 302 / 1000 + 1
  let x := if maxDigits < x.d.length + extra then
      let keep := maxDigits - extra
      { x with d := x.d.take keep, truncated := x.truncated || (x.d.drop keep).any (· != 0) }
    else x
  let (out, carry) := x.d.foldr (fun d (out, carry) =>
    ((d * 2 ^ k + carry) % 10 :: out, (d * 2 ^ k + carry) / 10)) ([], 0)
  trim { x with d := lead extra carry ++ out, dp := x.dp + extra }

/-- The digits that are read until there is one to write: what they come to, how many they were
and the digits that are left. -/
def shrRead (k : Nat) : List Nat → Nat → Nat → Nat × Nat × List Nat
  | ds, n, r =>
    if n / 2 ^ k = 0 then
      match ds with
      | [] => (n, r, [])
      | d :: ds => shrRead k ds (n * 10 + d) (r + 1)
    else (n, r, ds)
termination_by ds => ds.length

/-- The zeros after the last digit that are read too. -/
def shrZeros (k : Nat) : Nat → Nat → Nat → Nat × Nat
  | 0, n, r => (n, r)
  | fuel + 1, n, r => if n / 2 ^ k = 0 then shrZeros k fuel (n * 10) (r + 1) else (n, r)

/-- What is left after the last digit, written out. -/
def shrRest (k : Nat) : Nat → Nat → Decimal → Decimal
  | 0, _, x => x
  | fuel + 1, n, x => if n = 0 then x else shrRest k fuel (n % 2 ^ k * 10) (x.push (n / 2 ^ k))

/-- `Decimal::shr`: over `2^k`. -/
def shr (x : Decimal) (k : Nat) : Decimal :=
  let (n, r, ds) := shrRead k x.d 0 0
  if n = 0 then { x with d := [], dp := 0 }
  else
    let (n, r) := shrZeros k 64 n r
    let (out, n) := ds.foldl (fun (out, n) c => (out ++ [n / 2 ^ k], n % 2 ^ k * 10 + c)) ([], n)
    trim (shrRest k 64 n { x with d := out, dp := x.dp - (r - 1) })

/-- `POWTAB`. -/
def powtab : List Nat := [1, 3, 6, 9, 13, 16, 19, 23, 26]

/-- `Decimal::step`. -/
def step (places : Int) : Nat := powtab.getD places.natAbs 27

/-- `Decimal::round_up`. -/
def roundUp (x : Decimal) : Bool :=
  if x.dp < 0 ∨ x.d.length ≤ x.dp.toNat then false
  else
    let i := x.dp.toNat
    if x.d.getD i 0 = 5 ∧ i + 1 = x.d.length then
      x.truncated || (decide (0 < i) && x.d.getD (i - 1) 0 % 2 != 0)
    else 5 ≤ x.d.getD i 0

/-- `Decimal::rounded_integer`. -/
def roundedInteger (x : Decimal) : Nat :=
  let n := (List.range x.dp.toNat).foldl (fun n i => n * 10 + x.d.getD i 0) 0
  if x.roundUp then n + 1 else n

/-- The number is shifted down until it is below one. -/
def lower : Nat → Decimal → Int → Decimal × Int
  | 0, x, e => (x, e)
  | fuel + 1, x, e =>
    if 0 < x.dp then lower fuel (x.shr (step x.dp)) (e + step x.dp) else (x, e)

/-- It is shifted up until it is a half or more. -/
def raise : Nat → Decimal → Int → Decimal × Int
  | 0, x, e => (x, e)
  | fuel + 1, x, e =>
    if x.dp < 0 ∨ x.dp = 0 ∧ x.d.headD 0 < 5 then
      raise fuel (x.shl (step x.dp)) (e - step x.dp)
    else (x, e)

end Decimal

/-- `assemble`: the float `mant * 2^e2`. -/
def assemble (mant : Nat) (e2 : Int) : F64 :=
  if mant = 0 then Ieee.ofMag false 0
  else
    let (mant, e2) := if 2 ^ 53 ≤ mant then (mant / 2, e2 + 1) else (mant, e2)
    if 2 ^ 52 ≤ mant then
      let field := e2 + 52 + 1023
      if 0x7ff ≤ field then Ieee.ofMag false (Ieee.infMag 11 52)
      else Ieee.ofWord (field.toNat * 2 ^ 52 + mant % 2 ^ 52)
    else Ieee.ofWord mant

/-- `Decimal::into_f64`.  A step down or up takes at least one bit and a bit is at least a third
of a place, so the fuel of the loops is not used up. -/
def Decimal.intoF64 (x : Decimal) : F64 :=
  if x.d.isEmpty then Ieee.ofMag false 0
  else if 400 < x.dp then Ieee.ofMag false (Ieee.infMag 11 52)
  else if x.dp < -400 then Ieee.ofMag false 0
  else
    let (x, e) := Decimal.lower 2000 x 0
    let (x, e) := Decimal.raise 2000 x e
    if x.d.isEmpty then Ieee.ofMag false 0
    else
      let nbits : Int := if e < -1021 then e + 1074 else 53
      if nbits < 0 then Ieee.ofMag false 0
      else assemble (x.shl nbits.toNat).roundedInteger (e - nbits)

/-! ## 3. A long division -/

/-- `leading_zeros`. -/
def leadingZeros (x : UInt64) : UInt64 := if x = 0 then 64 else 63 - UInt64.ofNat (Nat.log2 x.toNat)

/-- The bits a number has. -/
def bits (x : Nat) : Nat := if x = 0 then 0 else Nat.log2 x + 1

/-- How a digit of the quotient is put right: the first guess is at most two too large. -/
def correct (d1 d0 next : UInt64) : Nat → UInt64 → UInt64 → UInt64
  | 0, q, _ => q
  | fuel + 1, q, rem =>
    if 2 ^ 32 ≤ q ∨ (rem <<< 32 ||| next) < q * d0 then
      if 2 ^ 32 ≤ rem + d1 then q - 1 else correct d1 d0 next fuel (q - 1) (rem + d1)
    else q

/-- A digit of 32 bits of the quotient. -/
def quotientDigit (d1 d0 top next : UInt64) : UInt64 :=
  correct d1 d0 next 3 (top / d1) (top % d1)

/-- `div128`: `hi * 2^64 + lo` over `d`. -/
def div128 (hi lo d : UInt64) : UInt64 × UInt64 :=
  let k := leadingZeros d
  let d := d <<< k
  let d1 := d >>> 32
  let d0 := d &&& 0xFFFFFFFF
  let top := if k = 0 then hi else hi <<< k ||| lo >>> (64 - k)
  let lo := lo <<< k
  let q1 := quotientDigit d1 d0 top (lo >>> 32)
  let mid := (top <<< 32 ||| lo >>> 32) - q1 * d
  let q0 := quotientDigit d1 d0 mid (lo &&& 0xFFFFFFFF)
  let rem := (mid <<< 32 ||| lo &&& 0xFFFFFFFF) - q0 * d
  (q1 <<< 32 ||| q0, rem >>> k)

/-- `divided`: `w / 10^n`. -/
def divided (w n : Nat) : F64 :=
  let d := 5 ^ n
  let s := 55 + bits d - bits w
  let num := w * 2 ^ s
  let (q, r) := div128 (UInt64.ofNat (num / 2 ^ 64)) (UInt64.ofNat num) (UInt64.ofNat d)
  let cut := bits q.toNat - 53
  let mant := q.toNat / 2 ^ cut
  let half := 2 ^ (cut - 1)
  let rest := q.toNat % 2 ^ cut
  let up := decide (half < rest) || (rest == half && (r != 0 || mant % 2 == 1))
  assemble (mant + up.toNat) (cut - s - n)

/-! ## 4. Floats -/

/-- The digits of a number as `convert` counts them. -/
structure Mantissa where
  mant : Nat
  digits : Nat
  truncated : Bool
  e10 : Int

/-- A digit before the point: the twentieth and later ones only count. -/
def Mantissa.int (a : Mantissa) (d : UInt8) : Mantissa :=
  if a.digits < 19 then { a with mant := a.mant * 10 + digit d, digits := a.digits + 1 }
  else { a with truncated := true, e10 := a.e10 + 1 }

/-- A digit after the point: zeros before the first that is none are no digits of the mantissa. -/
def Mantissa.frac (a : Mantissa) (d : UInt8) : Mantissa :=
  if a.digits < 19 then
    if a.mant = 0 ∧ d = 48 then { a with e10 := a.e10 - 1 }
    else { a with mant := a.mant * 10 + digit d, digits := a.digits + 1, e10 := a.e10 - 1 }
  else { a with truncated := true }

/-- `POW10`. -/
def pow10 (k : Nat) : F64 := Ieee.ofInt (10 ^ k : Nat)

/-- Clinger's way: exact operands, one rounding. -/
def Mantissa.exact (a : Mantissa) : Option F64 :=
  if !a.truncated && decide (a.mant ≤ 2 ^ 53) then
    if 0 ≤ a.e10 ∧ a.e10 ≤ 22 then some (Ieee.mul (Ieee.ofInt a.mant) (pow10 a.e10.toNat))
    else if -22 ≤ a.e10 ∧ a.e10 < 0 then
      some (Ieee.div (Ieee.ofInt a.mant) (pow10 (-a.e10).toNat))
    else if 23 ≤ a.e10 ∧ a.e10 ≤ 37 then
      let scaled := a.mant * 10 ^ (a.e10 - 22).toNat
      if scaled < 2 ^ 64 ∧ scaled ≤ 2 ^ 53 then some (Ieee.mul (Ieee.ofInt scaled) (pow10 22))
      else none
    else none
  else none

/-- `sign`. -/
def sign (neg : Bool) (v : F64) : F64 := if neg then v.negate else v

/-- `convert`. -/
def convert (neg : Bool) (int frac : List UInt8) (exp : Int) : F64 :=
  let int := int.dropWhile (· == 48)
  let a := frac.foldl Mantissa.frac (int.foldl Mantissa.int ⟨0, 0, false, exp⟩)
  if a.mant = 0 then Ieee.ofMag neg 0
  else match a.exact with
    | some x => sign neg x
    | none =>
      if !a.truncated && decide (1 ≤ -a.e10 ∧ -a.e10 < 26) then
        sign neg (divided a.mant (-a.e10).toNat)
      else sign neg (Decimal.new int frac exp).intoF64

/-- An exponent's digits: past a hundred thousand the rest are not read. -/
def expDigits : List UInt8 → Nat → Nat
  | [], e => e
  | d :: rest, e =>
    if 100000 < e * 10 + digit d then e * 10 + digit d else expDigits rest (e * 10 + digit d)

/-- The exponent a number ends in; nothing where it is malformed or something follows it. -/
def exponent : List UInt8 → Option Int
  | [] => some 0
  | c :: rest =>
    if c ||| 0x20 = 101 then
      let (neg, rest) := signed rest
      let ds := rest.takeWhile isDigit
      if ds.isEmpty || !(rest.dropWhile isDigit).isEmpty then none
      else some (if neg then -(expDigits ds 0 : Int) else expDigits ds 0)
    else none

/-- The digits after a point. -/
def fraction : List UInt8 → List UInt8 × List UInt8
  | [] => ([], [])
  | c :: rest =>
    if c = 46 then (rest.takeWhile isDigit, rest.dropWhile isDigit) else ([], c :: rest)

/-- `parse_f64`. -/
def parseF64 (s : List UInt8) : Option F64 :=
  let (neg, s) := signed s
  let int := s.takeWhile isDigit
  let (frac, s) := fraction (s.dropWhile isDigit)
  if int.isEmpty && frac.isEmpty then none
  else (exponent s).map (convert neg int frac)

/-! ## 5. The general scan, and the one pass -/

/-- A byte of the run that the general scan takes for a number. -/
def isNumber (b : UInt8) : Bool :=
  isDigit b || b == 43 || b == 45 || b == 46 || b == 101 || b == 69

/-- `number_at`: the run from a place on, and whether it holds a point or an exponent. -/
def numberAt (b : List UInt8) (j : Nat) : List UInt8 × Bool :=
  let text := (b.drop j).takeWhile isNumber
  (text, text.any fun c => c == 46 || c == 101 || c == 69)

/-- What the digits of `clinger` have come to. -/
structure Count where
  m : UInt64
  sig : Nat
  e10 : Int

/-- A digit more.  Leading zeros are not significant, and add nothing. -/
def Count.digit (frac : Bool) (a : Count) (d : UInt8) : Count :=
  { m := a.m * 10 + (d - 48).toUInt64
    sig := a.sig + if a.m ≠ 0 ∨ d ≠ 48 then 1 else 0
    e10 := a.e10 - if frac then 1 else 0 }

/-- The loop over digits: what they come to, and what follows them. -/
def countDigits (frac : Bool) : List UInt8 → Count → Count × List UInt8
  | [], a => (a, [])
  | d :: rest, a =>
    if isDigit d then countDigits frac rest (a.digit frac d) else (a, d :: rest)

/-- The loop over an exponent's digits: more than three are left to the general path. -/
def threeDigits : List UInt8 → Nat → Nat → Option (Nat × Nat × List UInt8)
  | [], e, n => some (e, n, [])
  | d :: rest, e, n =>
    if isDigit d then
      if 3 < n + 1 then none else threeDigits rest (e * 10 + Num.digit d) (n + 1)
    else some (e, n, d :: rest)

/-- The exponent of `clinger`, and whether there is one. -/
def exponentPass (s : List UInt8) : Option (Int × Bool × List UInt8) :=
  match s with
  | [] => some (0, false, [])
  | c :: rest =>
    if c = 101 ∨ c = 69 then
      let eneg := rest.head? = some 45
      let rest := if rest.head? = some 45 ∨ rest.head? = some 43 then rest.tail else rest
      match threeDigits rest 0 0 with
      | none => none
      | some (e, n, rest) =>
        if n = 0 then none else some (if eneg then -(e : Int) else e, true, rest)
    else some (0, false, c :: rest)

/-- The point of `clinger`, and whether there is one. -/
def fractionPass (s : List UInt8) (a : Count) : Option (Count × Bool × List UInt8) :=
  match s with
  | [] => some (a, false, [])
  | c :: rest =>
    if c = 46 then
      let (a, after) := countDigits true rest a
      if after.length = rest.length then none else some (a, true, after)
    else some (a, false, c :: rest)

/-- The number that the digits and the exponent make, where one rounding makes it. -/
def Count.value (a : Count) : Option F64 :=
  if a.m = 0 then some (Ieee.ofMag false 0)
  else if 2 ^ 53 < a.m.toNat then none
  else if 0 ≤ a.e10 ∧ a.e10 ≤ 22 then
    some (Ieee.mul (Ieee.ofInt a.m.toNat) (pow10 a.e10.toNat))
  else if -22 ≤ a.e10 ∧ a.e10 < 0 then
    some (Ieee.div (Ieee.ofInt a.m.toNat) (pow10 (-a.e10).toNat))
  else none

/-- The pass over the bytes from a place on: the number, and what follows it. -/
def onePass (s : List UInt8) : Option (F64 × List UInt8) := do
  let neg := s.head? = some 45
  let s := if neg then s.tail else s
  let (a, after) := countDigits false s ⟨0, 0, 0⟩
  if after.length = s.length then none
  else
    let (a, point, after) ← fractionPass after a
    let (e, exp, after) ← exponentPass after
    let a : Count := { a with e10 := a.e10 + e }
    if 19 < a.sig || after.head?.any isNumber then none
    else
      let x ← a.value
      -- an integer has no `-0.0`
      some (if neg ∧ (point ∨ exp ∨ a.m ≠ 0) then x.negate else x, after)

/-- **`clinger`**: the number at `j` where the one pass reads it, and where `j` is then. -/
def clinger (b : List UInt8) (j : Nat) : Option F64 × Nat :=
  match onePass (b.drop j) with
  | some (x, after) => (some x, b.length - after.length)
  | none => (none, j)

end Fenec.Num
