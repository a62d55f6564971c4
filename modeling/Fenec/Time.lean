/-
# Timestamps as text

A timestamp is milliseconds since the epoch, an `i64`.  A text compared with one is read by
`parse`, and a timestamp put in a text field is written by `formatIso`; both are the source's,
in 64-bit arithmetic that wraps, so that a year past the calendar's reach is refused exactly
where the source refuses it.

The date arithmetic is Hinnant's: days are counted from the first of March of year 0 in eras of
400 years.
-/
import Fenec.Value

namespace Fenec

namespace Time

/-! ## 1. Pieces of a text -/

/-- Unicode's `White_Space`, which `str::trim` takes off. -/
def isWhitespace (c : Char) : Bool :=
  let n := c.toNat
  (9 ≤ n && n ≤ 13) || n == 0x20 || n == 0x85 || n == 0xA0 || n == 0x1680
    || (0x2000 ≤ n && n ≤ 0x200A) || n == 0x2028 || n == 0x2029 || n == 0x202F
    || n == 0x205F || n == 0x3000

/-- `str::trim`. -/
def trim (s : List Char) : List Char :=
  ((s.dropWhile isWhitespace).reverse.dropWhile isWhitespace).reverse

/-- `str::split` on one character: always at least one piece. -/
def split (sep : Char) : List Char → List (List Char)
  | [] => [[]]
  | c :: cs =>
    if c = sep then [] :: split sep cs
    else match split sep cs with
      | [] => [[c]]
      | p :: ps => (c :: p) :: ps

/-- `str::split_once` on the first character that `p` holds of. -/
def splitOnce (p : Char → Bool) : List Char → Option (List Char × List Char)
  | [] => none
  | c :: cs => if p c then some ([], cs) else (splitOnce p cs).map fun (a, b) => (c :: a, b)

/-- An ASCII digit. -/
def isDigit (c : Char) : Bool := '0' ≤ c && c ≤ '9'

/-- A digit is no white space. -/
theorem isWhitespace_digit {c : Char} (h : isDigit c = true) : isWhitespace c = false := by
  have hc : 48 ≤ c.toNat ∧ c.toNat ≤ 57 := by
    simp only [isDigit, Bool.and_eq_true, decide_eq_true_eq] at h
    exact ⟨h.1, h.2⟩
  simp [isWhitespace]
  omega

/-- `num::parse_i64`: a sign, then digits alone, the whole held to an `i64`. -/
def parseI64 (s : List Char) : Option Int64 :=
  let (neg, digits) := match s with
    | '-' :: rest => (true, rest)
    | '+' :: rest => (false, rest)
    | all => (false, all)
  if digits.isEmpty || !digits.all isDigit then none
  else
    let n := digits.foldl (fun n c => n * 10 + (c.toNat - '0'.toNat)) 0
    if neg then if n ≤ 2 ^ 63 then some (Int64.ofInt (-(n : Int))) else none
    else if n < 2 ^ 63 then some (Int64.ofNat n) else none

/-- A number of the date, or the error that names it. -/
def num (s : List Char) : Result Int64 :=
  match parseI64 s with
  | some n => .ok n
  | none => .error (.type ("expected a number in the date: `" ++ String.ofList s ++ "`"))

/-- `n as u32`. -/
def asU32 (n : Int64) : Nat := (n.toInt % 2 ^ 32).toNat

/-! ## 2. Days and dates -/

/-- The year, month and day of a day counted from the epoch. -/
def civilFromDays (z : Int64) : Int64 × Nat × Nat :=
  let z := z + 719468
  let era := (if z ≥ 0 then z else z - 146096) / 146097
  let doe := z - era * 146097
  let yoe := (doe - doe / 1460 + doe / 36524 - doe / 146096) / 365
  let y := yoe + era * 400
  let doy := doe - (365 * yoe + yoe / 4 - yoe / 100)
  let mp := (5 * doy + 2) / 153
  let d := asU32 (doy - (153 * mp + 2) / 5 + 1)
  let mo := asU32 (if mp < 10 then mp + 3 else mp - 9)
  (if mo ≤ 2 then y + 1 else y, mo, d)

/-- The day a date is, counted from the epoch; the month and day are `u32`s. -/
def daysFromCivil (y : Int64) (mo d : Nat) : Int64 :=
  let y := if mo ≤ 2 then y - 1 else y
  let era := (if y ≥ 0 then y else y - 399) / 400
  let yoe := y - era * 400
  let mp := Int64.ofNat (if mo > 2 then mo - 3 else mo + 9)
  let doy := (153 * mp + 2) / 5 + Int64.ofNat d - 1
  let doe := yoe * 365 + yoe / 4 - yoe / 100 + doy
  era * 146097 + doe - 719468

/-! ## 3. Writing -/

/-- A number written in at least `w` places, zeros after the sign. -/
def padded (w : Nat) (n : Int) : String :=
  let digits := toString n.natAbs
  let sign := if n < 0 then "-" else ""
  let zeros := String.ofList (List.replicate (w - (digits.length + sign.length)) '0')
  sign ++ zeros ++ digits

/-- `2026-09-19T08:05:03Z`, with milliseconds when there are any. -/
def formatIso (ms : Int64) : String :=
  let day := ms.toInt / 86400000
  let rem := ms.toInt % 86400000
  let (y, mo, d) := civilFromDays (Int64.ofInt day)
  let head := padded 4 y.toInt ++ "-" ++ padded 2 mo ++ "-" ++ padded 2 d ++ "T"
    ++ padded 2 (rem / 3600000) ++ ":" ++ padded 2 (rem / 60000 % 60) ++ ":"
    ++ padded 2 (rem / 1000 % 60)
  if rem % 1000 = 0 then head ++ "Z" else head ++ "." ++ padded 3 (rem % 1000) ++ "Z"

/-- `2026-09-19 08:05:03+00`, the wire's form of the same. -/
def formatPg (ms : Int64) : String :=
  let day := ms.toInt / 86400000
  let rem := ms.toInt % 86400000
  let (y, mo, d) := civilFromDays (Int64.ofInt day)
  let head := padded 4 y.toInt ++ "-" ++ padded 2 mo ++ "-" ++ padded 2 d ++ " "
    ++ padded 2 (rem / 3600000) ++ ":" ++ padded 2 (rem / 60000 % 60) ++ ":"
    ++ padded 2 (rem / 1000 % 60)
  if rem % 1000 = 0 then head ++ "+00" else head ++ "." ++ padded 3 (rem % 1000) ++ "+00"

/-! ## 4. Reading -/

/-- The text before a zone and the zone's minutes: `Z`, `+hh`, `+hhmm` or `+hh:mm`, none where
no sign follows the date. -/
def zone (t : List Char) (bad : Error) : Result (List Char × Int64) :=
  match t.getLast? with
  | some 'Z' => .ok (t.dropLast, 0)
  | some 'z' => .ok (t.dropLast, 0)
  | _ =>
    let sign := fun c => c == '+' || c == '-'
    match (t.drop 10).findIdx? sign with
    | none => .ok (t, 0)
    | some i => do
      let off := t.drop (10 + i)
      let digits := (off.drop 1).filter isDigit
      let mins ← match digits.length with
        | 2 => do pure ((← num digits) * 60)
        | 4 => do pure ((← num (digits.take 2)) * 60 + (← num (digits.drop 2)))
        | _ => .error bad
      pure (t.take (10 + i), if off.head? == some '-' then -1 * mins else mins)

/-- The seconds and milliseconds a field of the clock reads as. -/
def seconds (v : List Char) : Result (Int64 × Int64) :=
  match splitOnce (· == '.') v with
  | some (sec, frac) => do
    let s ← num sec
    let f := frac.take 3
    -- the source's `f.len()` counts bytes; past ASCII `num` has refused it
    let milli ← num f
    pure (s, milli * Int64.ofNat (10 ^ (3 - f.length)))
  | none => do pure ((← num v), 0)

/-- The hour, minute, second and millisecond of a clock, each zero when it is not given. -/
def clock (time : List Char) (bad : Error) : Result (Int64 × Int64 × Int64 × Int64) :=
  if time.isEmpty then .ok (0, 0, 0, 0)
  else do
    let parts := split ':' time
    let h ← num (parts.headD [])
    let mi ← match parts[1]? with
      | some v => num v
      | none => pure 0
    let (s, milli) ← match parts[2]? with
      | some v => seconds v
      | none => pure (0, 0)
    if parts.length > 3 || h > 23 || mi > 59 || s > 60 then .error bad
    else pure (h, mi, s, milli)

/-- `time::parse`. -/
def parse (text : String) : Result Int64 := do
  let bad := Error.type ("invalid timestamp: `" ++ text ++ "`")
  let (body, offsetMin) ← zone (trim text.toList) bad
  let body := trim body
  let (date, time) := match splitOnce (fun c => c == 'T' || c == 't' || c == ' ') body with
    | some (d, t) => (d, trim t)
    | none => (body, [])
  let (y, mo, d) ← match split '-' date with
    | [y, m, d] => do pure ((← num y), asU32 (← num m), asU32 (← num d))
    | _ => .error bad
  if mo < 1 || mo > 12 || d < 1 || d > 31 then .error bad
  else do
    let (h, mi, s, milli) ← clock time bad
    let day := daysFromCivil y mo d
    if civilFromDays day ≠ (y, mo, d) then .error bad
    else
      pure (day * 86400000 + h * 3600000 + mi * 60000 + s * 1000 + milli - offsetMin * 60000)

end Time

end Fenec
