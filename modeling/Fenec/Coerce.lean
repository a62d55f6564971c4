/-
# Comparing values, and making a value a field's

`cmpValue` is the order a row-by-row comparison follows.  It is not an order in the
mathematical sense: numbers of different kinds meet as `f64`s and a NaN compares equal to
every number, so neither transitivity nor antisymmetry is to be had of it in general.  What
holds is said where it is used; here only that a null alone compares equal to a null
(`cmpValue_null_eq`).

`coerce` makes a given value one of a field's type.  A stored field holds a fixed point of it
(`Typed`), which is all a reader may assume of a row.
-/
import Fenec.Geo
import Fenec.Lib.Utf8
import Fenec.Time

namespace Fenec

open Lib

/-! ## 1. Comparing -/

/-- `str::cmp`: by code points, which is the order of the UTF-8 bytes. -/
def cmpStr (a b : String) : Ordering := compare a.toList b.toList

theorem cmpStr_eq_iff {a b : String} : cmpStr a b = .eq ↔ a = b := by
  unfold cmpStr
  rw [Std.compare_eq_iff_eq]
  exact String.toList_inj

namespace Value

/-- Where a kind stands among the others. -/
def typeRank : Value → Nat
  | null => 0
  | bool _ => 1
  | int _ | float _ | timestamp _ => 2
  | text _ | bytes _ => 3
  | vector _ => 4
  | list _ => 5
  | sparse _ _ => 6
  | object _ => 7

/-- A float comparison that holds a NaN equal to everything. -/
def cmpFloat {e m : Nat} (a b : Ieee e m) : Ordering := (a.partialCmp b).getD .eq

mutual

/-- **The order of values**, `Value::cmp_value`. -/
def cmpValue : Value → Value → Ordering
  | null, null => .eq
  | null, _ => .lt
  | _, null => .gt
  | bool a, bool b => compare a b
  | int a, int b => compare a b
  | text a, text b => cmpStr a b
  | bytes a, bytes b => compare a b
  | timestamp a, timestamp b => compare a b
  -- a text that is no date is past every timestamp
  | timestamp a, text b => match Time.parse b with
    | .ok ms => compare a ms
    | .error _ => .lt
  | text a, timestamp b => match Time.parse a with
    | .ok ms => compare ms b
    | .error _ => .gt
  | text a, bytes b => compare (utf8 a.toList) b
  | bytes a, text b => compare a (utf8 b.toList)
  | list a, list b => cmpList a b
  | sparse da a, sparse db b =>
    (List.compareLex (fun x y => (compare x.1 y.1).then (cmpFloat x.2 y.2)) a b).then
      (compare da db)
  | object a, object b => cmpMembers a b
  | vector a, vector b => List.compareLex cmpFloat a b
  | a, b => match a.asF64, b.asF64 with
    | some x, some y => cmpFloat x y
    | _, _ => compare a.typeRank b.typeRank
termination_by structural v => v

/-- `cmpValue` item by item, then by length. -/
def cmpList : List Value → List Value → Ordering
  | [], [] => .eq
  | [], _ :: _ => .lt
  | _ :: _, [] => .gt
  | x :: xs, y :: ys => (cmpValue x y).then (cmpList xs ys)
termination_by structural l => l

/-- Member by member, the key before the value, then by length. -/
def cmpMembers : List (String × Value) → List (String × Value) → Ordering
  | [], [] => .eq
  | [], _ :: _ => .lt
  | _ :: _, [] => .gt
  | (k, x) :: xs, (k', y) :: ys =>
    ((cmpStr k k').then (cmpValue x y)).then (cmpMembers xs ys)
termination_by structural l => l

end

theorem cmpValue_null_eq {v : Value} : cmpValue v null = .eq ↔ v = null := by
  cases v <;> simp [cmpValue]

/-! ## 2. Paths into a json value -/

/-- The value at a list of keys, null where a step of it is missing. -/
def atKeys : Value → List String → Value
  | v, [] => v
  | v, k :: ks => match v.member k with
    | some x => atKeys x ks
    | none => null

/-- The keys a path spells, between its dots. -/
def pathKeys (keys : String) : List String :=
  (Time.split '.' keys.toList).map String.ofList

/-- `Value::at_path`. -/
def atPath (v : Value) (keys : String) : Value := atKeys v (pathKeys keys)

/-! ## 3. Truth -/

/-- Whether a value answers a condition. -/
def truthy : Value → Bool
  | bool b => b
  | null => false
  | int i => i != 0
  | timestamp ms => ms != 0
  | float f => f.mag != 0
  | text s => s != ""
  | bytes b => !b.isEmpty
  | list l => !l.isEmpty
  | vector v => !v.isEmpty
  | sparse _ e => !e.isEmpty
  | object m => !m.isEmpty

@[simp] theorem truthy_bool (b : Bool) : (bool b).truthy = b := rfl

end Value

/-! ## 4. Sparse vectors -/

namespace Sparse

/-- The largest dimension. -/
def maxDim : Nat := 1000000000

/-- Whether each index is past the one before. -/
def ascending : List (UInt32 × F32) → Bool
  | a :: b :: rest => decide (a.1 < b.1) && ascending (b :: rest)
  | _ => true

/-- `sparse::normalise`: by index, each once and inside the dimension, the zeros left out. -/
def normalise (dim : UInt32) (entries : List (UInt32 × F32)) :
    Except String (UInt32 × List (UInt32 × F32)) :=
  let sorted := if ascending entries then entries
    else entries.mergeSort fun a b => a.1 ≤ b.1
  if !ascending sorted then .error "an index is given twice"
  else if sorted.getLast?.any fun x => dim ≤ x.1 then
    .error "an index is outside the dimension"
  else if sorted.any fun x => !x.2.isFinite then .error "a value is not finite"
  else .ok (dim, sorted.filter fun x => x.2.mag != 0)

/-- The number a run of digits is, at most 19 of them. -/
def uint (s : List Char) : Option Nat :=
  if s.isEmpty || s.length > 19 || !s.all Time.isDigit then none
  else some (s.foldl (fun n c => n * 10 + (c.toNat - '0'.toNat)) 0)

/-- The digits a text starts with, and the rest. -/
def digits (s : List Char) : List Char × List Char := (s.takeWhile Time.isDigit,
  s.dropWhile Time.isDigit)

/-- The sign a text starts with, and the rest. -/
def signed : List Char → Bool × List Char
  | '-' :: rest => (true, rest)
  | '+' :: rest => (false, rest)
  | s => (false, s)

/-- The exponent a number ends in, held to a hundred thousand; `none` where it is malformed or
something follows it. -/
def exponent : List Char → Option Int
  | [] => some 0
  | c :: rest =>
    if c ≠ 'e' ∧ c ≠ 'E' then none
    else
      let (neg, rest) := signed rest
      let (ds, rest) := digits rest
      if ds.isEmpty || !rest.isEmpty then none
      else
        let n : Nat := ds.foldl (fun n c => n * 10 + (c.toNat - '0'.toNat)) 0
        some (if neg then -(min n 100001 : Nat) else (min n 100001 : Nat))

/-- `num::parse_f64`: the decimal number, rounded once. -/
def parseF64 (s : List Char) : Option F64 :=
  let (neg, s) := signed s
  let (int, s) := digits s
  let (frac, s) := match s with
    | '.' :: rest => digits rest
    | s => ([], s)
  if int.isEmpty && frac.isEmpty then none
  else (exponent s).map fun (exp : Int) =>
    let mant := (int ++ frac).foldl (fun n c => n * 10 + (c.toNat - '0'.toNat)) 0
    let e10 : Int := exp - frac.length
    if mant = 0 then Ieee.ofMag neg 0
    else Ieee.ofScaled neg (mant * 10 ^ e10.toNat * 2 ^ Ieee.unit 11 52) (10 ^ (-e10).toNat)

/-- ASCII's white space, as `is_ascii_whitespace` has it. -/
def space (c : Char) : Bool :=
  c == ' ' || c == '\t' || c == '\n' || c == '\x0c' || c == '\r'

/-- A number's characters from the front, with the space around them taken off. -/
def token (num : Bool) (s : List Char) : List Char × List Char :=
  let p := fun c => Time.isDigit c ||
    (num && (c == '.' || c == '-' || c == '+' || c == 'e' || c == 'E'))
  let s := s.dropWhile space
  (s.takeWhile p, (s.dropWhile p).dropWhile space)

/-- The entries between the braces, and what follows the closing one. -/
def entries : Nat → List Char → Option (List (UInt32 × F32) × List Char)
  | 0, _ => none
  | fuel + 1, s =>
    match token false s with
    | (i, ':' :: rest) =>
      match uint i, token true rest with
      | some i, (v, next) =>
        match parseF64 v with
        | some v =>
          if i < 1 || i > 2 ^ 32 - 1 then none
          else
            let entry := (UInt32.ofNat (i - 1), (Ieee.convert v : F32))
            match next with
            | ',' :: rest => (entries fuel rest).map fun (es, s) => (entry :: es, s)
            | '\x7d' :: rest => some ([entry], rest)
            | _ => none
        | none => none
      | none, _ => none
    | _ => none

/-- `sparse::parse`: entries from index 1 in braces, a slash, the dimension. -/
def parse (text : String) : Result (UInt32 × List (UInt32 × F32)) :=
  let bad := fun (why : String) =>
    Error.type ("sparse vector `" ++ text ++ "`: " ++ why)
  let body := match text.toList.dropWhile space with
    | '\x7b' :: rest =>
      match rest.dropWhile space with
      | '\x7d' :: rest => some ([], rest)
      | s => entries (s.length + 1) s
    | _ => none
  let parts := body.bind fun (es, s) => match s.dropWhile space with
    | '/' :: rest => match token false rest with
      | (d, []) => (uint d).map fun d => (es, d)
      | _ => none
    | _ => none
  match parts with
  | some (es, d) =>
    if d < 1 then .error (bad "expected \x7bindex:value,...\x7d/dimension, indices from 1")
    else if d > maxDim then .error (bad "the dimension is past 1000000000")
    else match normalise (UInt32.ofNat d) es with
      | .ok out => .ok out
      | .error why => .error (bad why)
  | none => .error (bad "expected \x7bindex:value,...\x7d/dimension, indices from 1")

end Sparse

/-! ## 5. Coercing -/

/-- How deep a json value nests. -/
def maxJsonDepth : Nat := 64

/-- The first of two neighbouring members that have one key. -/
def twice : List (String × Value) → Option String
  | a :: b :: rest => if a.1 = b.1 then some a.1 else twice (b :: rest)
  | _ => none

/-- `Value::object`: the members by their keys, each key once. -/
def Value.objectOf (members : List (String × Value)) : Result Value :=
  let sorted := members.mergeSort fun a b => cmpStr a.1 b.1 != .gt
  match twice sorted with
  | some k => .error (.type ("key `" ++ k ++ "` was given twice"))
  | none => .ok (.object sorted)

mutual

/-- `json_value`: what a json field keeps of a value, `depth` levels down. -/
def jsonValue : Value → Nat → Result Value
  | .float f, _ =>
    if f.isFinite then .ok (.float f) else .error (.type "a json number is finite")
  | .timestamp ms, _ => .ok (.text (Time.formatIso ms))
  | .vector _, _ => .error (.type
      ("a json field keeps numbers as they were written, and a vector holds the f32s a list of " ++
      "them was read into: give the list as text, or as JSON"))
  | .list items, depth =>
    if depth ≥ maxJsonDepth then .error deeper
    else (jsonList items (depth + 1)).map .list
  | .object members, depth =>
    if depth ≥ maxJsonDepth then .error deeper
    else jsonMembers members (depth + 1) >>= Value.objectOf
  | .bytes b, _ => .error (unheld (.bytes b))
  | .sparse d e, _ => .error (unheld (.sparse d e))
  | v, _ => .ok v
termination_by structural v => v

/-- `jsonValue` over a list. -/
def jsonList : List Value → Nat → Result (List Value)
  | [], _ => .ok []
  | v :: vs, depth => do pure ((← jsonValue v depth) :: (← jsonList vs depth))
termination_by structural l => l

/-- `jsonValue` over an object's members. -/
def jsonMembers : List (String × Value) → Nat → Result (List (String × Value))
  | [], _ => .ok []
  | (k, v) :: ms, depth => do pure ((k, (← jsonValue v depth)) :: (← jsonMembers ms depth))
termination_by structural l => l

/-- The error a value nested too deep is refused with. -/
def deeper : Error :=
  .type ("a json value nests at most " ++ toString maxJsonDepth ++ " levels deep")

/-- The error a kind json has no place for is refused with. -/
def unheld (v : Value) : Error :=
  .type ("json holds no " ++ v.typeName
    ++ ": objects, lists, numbers, text, booleans and null")

end

/-- The bytes a list of numbers from 0 to 255 is. -/
def bytesOfList : List Value → Option (List UInt8)
  | [] => some []
  | .int n :: rest =>
    if 0 ≤ n.toInt ∧ n.toInt ≤ 255 then
      (bytesOfList rest).map (UInt8.ofNat n.toInt.toNat :: ·)
    else none
  | _ :: _ => none

/-- The bytes a vector of whole numbers from 0 to 255 is. -/
def bytesOfVector : List F32 → Option (List UInt8)
  | [] => some []
  | f :: rest =>
    if (Ieee.ofInt 0 : F32).le f && f.le (Ieee.ofInt 255) && f.isWhole then
      (bytesOfVector rest).map (f.toUInt8 :: ·)
    else none

/-- `Value::floats`: the list's numbers as `f32`s, or the first item that is none. -/
def floats : List Value → Except Value (List F32)
  | [] => .ok []
  | v :: vs => match v.asF64 with
    | some f => (floats vs).map (Ieee.convert f :: ·)
    | none => .error v

/-- `check_dim`. -/
def checkDim (v : List F32) (dim : Nat) : Result Value :=
  if v.length ≠ dim then
    .error (.type ("vector dimension must be " ++ toString dim ++ ", got "
      ++ toString v.length))
  else .ok (.vector v)

/-- `check_sparse_dim`. -/
def checkSparseDim (d : UInt32) (e : List (UInt32 × F32)) (dim : Nat) : Result Value :=
  if d.toNat ≠ dim then
    .error (.type ("sparse vector dimension must be " ++ toString dim ++ ", got "
      ++ toString d.toNat))
  else .ok (.sparse d e)

/-- `not_bytes`. -/
def notBytes : Error := .type "bytes are numbers from 0 to 255"

/-- **`Value::coerce`**: the value as one of the type, or the error it is refused with. -/
def coerce : DataType → Value → Result Value
  | _, .null => .ok .null
  | .bool, .bool b => .ok (.bool b)
  | .int, .int i => .ok (.int i)
  | .int, .float f =>
    if f.isWhole then .ok (.int f.toInt64) else .error (.type "expected int, found float")
  | .float, .float f => .ok (.float f)
  | .float, .int i => .ok (.float (Ieee.ofInt i.toInt))
  | .text, .text s => .ok (.text s)
  | .bytes, .bytes b => .ok (.bytes b)
  | .bytes, .text s => .ok (.bytes (utf8 s.toList))
  | .bytes, .list items => match bytesOfList items with
    | some b => .ok (.bytes b)
    | none => .error notBytes
  | .bytes, .vector v => match bytesOfVector v with
    | some b => .ok (.bytes b)
    | none => .error notBytes
  | .timestamp, .timestamp ms => .ok (.timestamp ms)
  | .timestamp, .int ms => .ok (.timestamp ms)
  | .timestamp, .text s => (Time.parse s).map .timestamp
  | .int, .timestamp ms => .ok (.int ms)
  | .text, .timestamp ms => .ok (.text (Time.formatIso ms))
  | .vector dim _, .vector v => checkDim v dim
  | .sparse dim, .sparse d e => match Sparse.normalise d e with
    | .ok (d, e) => checkSparseDim d e dim
    | .error why => .error (.type why)
  | .sparse dim, .text s => do
    let (d, e) ← Sparse.parse s
    checkSparseDim d e dim
  | .vector dim _, .list items => match floats items with
    | .ok v => checkDim v dim
    | .error it => .error (.type ("vector element must be numeric, found " ++ it.typeName))
  | .list inner, .vector v => (v.mapM fun f => coerce inner (.float (Ieee.convert f))).map .list
  | .list inner, .list items => (items.mapM fun it => coerce inner it).map .list
  | .json, v => jsonValue v 0
  | .geo, v => do
    match (← Geo.pointOf v) with
    | some p => pure (Geo.geoValue p)
    | none => pure .null
  | t, v => .error (.type ("expected " ++ t.name ++ ", found " ++ v.typeName))

/-! ## 6. What a stored field holds -/

/-- **A value is one of the type**: coercing it again changes nothing. -/
def Typed (ty : DataType) (v : Value) : Prop := coerce ty v = .ok v

instance (ty : DataType) (v : Value) : Decidable (Typed ty v) :=
  inferInstanceAs (Decidable (_ = _))

theorem typed_null (ty : DataType) : Typed ty .null := by
  unfold Typed
  cases ty <;> rfl

theorem typed_text {v : Value} (h : Typed .text v) : v = .null ∨ ∃ s, v = .text s := by
  cases v with
  | null => exact .inl rfl
  | text s => exact .inr ⟨s, rfl⟩
  | _ => cases h

theorem typed_int {v : Value} (h : Typed .int v) : v = .null ∨ ∃ i, v = .int i := by
  cases v with
  | null => exact .inl rfl
  | int i => exact .inr ⟨i, rfl⟩
  | float f =>
    have hwhole : (if f.isWhole then .ok (.int f.toInt64)
      else .error (Error.type "expected int, found float")) = Except.ok (Value.float f) := h
    split at hwhole <;> cases hwhole
  | _ => cases h

theorem typed_bool {v : Value} (h : Typed .bool v) : v = .null ∨ ∃ b, v = .bool b := by
  cases v with
  | null => exact .inl rfl
  | bool b => exact .inr ⟨b, rfl⟩
  | _ => cases h

theorem typed_timestamp {v : Value} (h : Typed .timestamp v) :
    v = .null ∨ ∃ ms, v = .timestamp ms := by
  cases v with
  | null => exact .inl rfl
  | timestamp ms => exact .inr ⟨ms, rfl⟩
  | text s =>
    have hparse : (Time.parse s).map .timestamp = Except.ok (Value.text s) := h
    cases hp : Time.parse s <;> simp [hp, Except.map] at hparse
  | _ => cases h

/-- **What a field of type `geo` is given is a point of the earth, or nothing.** -/
theorem coerce_geo {v w : Value} (h : coerce .geo v = .ok w) :
    w = .null ∨ ∃ p, w = Geo.geoValue p ∧ Geo.pointOf v = .ok (some p) := by
  by_cases hv : v = .null
  · subst hv
    cases h
    exact .inl rfl
  · have hc : coerce .geo v = (do
        match (← Geo.pointOf v) with
        | some p => pure (Geo.geoValue p)
        | none => pure .null) := by
      cases v <;> rfl
    rw [hc] at h
    cases hp : Geo.pointOf v with
    | error e =>
      rw [hp] at h
      cases h
    | ok o =>
      rw [hp] at h
      cases o with
      | none =>
        cases h
        exact .inl rfl
      | some p =>
        cases h
        exact .inr ⟨p, rfl, rfl⟩

/-- A `geo` field holds nothing or a point of the earth, and reading it back as a point is
reading the point it holds. -/
theorem typed_geo {v : Value} (h : Typed .geo v) :
    v = .null ∨ ∃ p, v = Geo.geoValue p ∧ Geo.pointOf v = .ok (some p) ∧
      Geo.valid p.1 p.2 = true := by
  rcases coerce_geo h with hnull | ⟨p, hp, hpoint⟩
  · exact .inl hnull
  · exact .inr ⟨p, hp, hpoint, Geo.valid_of_pointOf hpoint⟩

end Fenec
