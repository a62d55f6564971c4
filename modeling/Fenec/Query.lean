/-
# Expressions and their evaluator

`eval` is the row-by-row meaning of a filter, and the yardstick every faster way of answering
one is held to.  It reads a row through `Row`, so that a stored row, a document in hand and no
row at all are evaluated by one function.

`and` and `or` stop at the side that decides them, `in` at the first item that is equal and
`case` at the first condition that holds, so a side that would fail is only reached where the
source reaches it.
-/
import Fenec.Collate

namespace Fenec

open Lib Case

/-! ## 1. Expressions -/

/-- A comparison. -/
inductive CmpOp where
  | eq
  | ne
  | lt
  | le
  | gt
  | ge
deriving DecidableEq

/-- An arithmetic operator. -/
inductive ArithOp where
  | add
  | sub
  | mul
  | div
deriving DecidableEq

/-- The operator as an error spells it. -/
def ArithOp.symbol : ArithOp → String
  | .add => "+"
  | .sub => "-"
  | .mul => "*"
  | .div => "/"

/-- An expression.  `inSelect` stands for `in (get ...)`, which a query answers before any row
is evaluated; its inner query is read by nothing here. -/
inductive Expr where
  | field (name : String)
  | lit (v : Value)
  | param (i : Nat)
  | and (a b : Expr)
  | or (a b : Expr)
  | not (a : Expr)
  | cmp (op : CmpOp) (a b : Expr)
  | like (a b : Expr)
  | has (a b : Expr)
  | inList (a : Expr) (items : List Expr)
  | inSelect (a : Expr)
  | isNull (a : Expr)
  | call (name : String) (args : List Expr)
  | arith (op : ArithOp) (a b : Expr)

/-- A row as an expression reads it. -/
structure Row where
  id : DocId
  field : String → Result Value
  textOrder : String → TextOrder

/-! ## 2. Functions -/

/-- `eq_ignore_ascii_case` over texts. -/
def sameName (a b : String) : Bool := a.toList.map asciiLower == b.toList.map asciiLower

/-- A registered function: its name, lowered, its body and how many arguments it takes. -/
structure Entry where
  name : String
  call : List Value → Result Value
  lo : Nat
  hi : Option Nat

/-- The tables and functions a build of the engine carries. -/
structure Build where
  cases : CaseTables
  collation : CollationData
  geo : Geo.GeoMath

/-- The case tables, their laws aside. -/
abbrev Build.chars (B : Build) : CharCase := B.cases.toCharCase

/-- The entry of `distance`. -/
def distanceEntry (B : Build) : Entry := ⟨"distance", Geo.distanceFn B.geo, 2, some 2⟩

/-- The entry of `within`. -/
def withinEntry : Entry := ⟨"within", Geo.withinFn, 2, some 2⟩

/-- **The functions a call finds.**  The two geo functions are always the engine's own. -/
structure Registry (B : Build) where
  functions : List Entry
  distance_entry : functions.find? (fun x => sameName x.name "distance") = some (distanceEntry B)
  within_entry : functions.find? (fun x => sameName x.name "within") = some withinEntry

namespace Registry

variable {B : Build}

/-- The entry a name finds. -/
def entry (r : Registry B) (name : String) : Option Entry :=
  r.functions.find? fun x => sameName x.name name

/-- What an unknown function's error adds. -/
def hint (name : String) : String :=
  if ["contains", "starts_with", "ends_with", "strpos", "instr", "position"].contains name then
    ": text is matched by `like '%a%'`, `'a%'` or `'%a'`"
  else if ["json_extract", "json_value", "jsonb_extract_path_text",
      "json_extract_path_text"].contains name then
    ": a json field's member is read by a path, `meta.source`"
  else ""

/-- `Registry::call`. -/
def call (r : Registry B) (name : String) (args : List Value) : Result Value :=
  match r.entry name with
  | none =>
    if sameName name "expired" then
      .error (.query ("`expired()` reads the rows past their `@ttl`, and this collection has no " ++
        "`@ttl`"))
    else .error (.query ("unknown function `" ++ name ++ "`" ++ hint name))
  | some f =>
    if args.length < f.lo ∨ f.hi.any (args.length > ·) then
      .error (.query ("function `" ++ name ++ "` expects " ++ toString f.lo ++
        (match f.hi with | some h => "-" ++ toString h | none => "+") ++
        " argument(s), got " ++ toString args.length))
    else f.call args

theorem sameName_trans {a b c : String} (h : sameName a b = true) :
    sameName c a = sameName c b := by
  simp only [sameName, beq_iff_eq] at h
  simp only [sameName, h]

theorem entry_distance (r : Registry B) {name : String} (h : sameName name "distance" = true) :
    r.entry name = some (distanceEntry B) := by
  rw [← r.distance_entry, entry]
  congr 1
  funext x
  exact sameName_trans h

theorem entry_within (r : Registry B) {name : String} (h : sameName name "within" = true) :
    r.entry name = some withinEntry := by
  rw [← r.within_entry, entry]
  congr 1
  funext x
  exact sameName_trans h

/-- A call of `distance` with two arguments is the engine's haversine. -/
theorem call_distance (r : Registry B) {name : String} (h : sameName name "distance" = true)
    (a b : Value) : r.call name [a, b] = Geo.distanceFn B.geo [a, b] := by
  simp [call, r.entry_distance h, distanceEntry]

/-- A call of `within` with two arguments is the engine's box test. -/
theorem call_within (r : Registry B) {name : String} (h : sameName name "within" = true)
    (a b : Value) : r.call name [a, b] = Geo.withinFn [a, b] := by
  simp [call, r.entry_within h, withinEntry]

end Registry

/-- What an evaluation reads besides its row. -/
structure EvalCtx (B : Build) where
  params : List Value
  registry : Registry B
  clock : Option Int64

/-! ## 3. Arithmetic -/

/-- A whole result held to an `i64`. -/
def checked (n : Int) : Result Int64 :=
  if -(2 ^ 63) ≤ n ∧ n < 2 ^ 63 then .ok (Int64.ofInt n)
  else .error (.query "the int overflows 64 bits")

/-- The operator over two integers. -/
def arithWhole (op : ArithOp) (a b : Int64) : Result Int64 :=
  match op with
  | .add => checked (a.toInt + b.toInt)
  | .sub => checked (a.toInt - b.toInt)
  | .mul => checked (a.toInt * b.toInt)
  | .div =>
    if b = 0 then .error (.query "division by zero") else checked (a.toInt.tdiv b.toInt)

/-- The operator over two floats. -/
def arithFloat (op : ArithOp) (a b : F64) : Result Value := do
  let x ← match op with
    | .add => pure (a.add b)
    | .sub => pure (a.sub b)
    | .mul => pure (a.mul b)
    | .div => if b.mag = 0 then .error (.query "division by zero") else pure (a.div b)
  if x.isFinite then pure (.float x) else .error (.query "the float overflows")

/-- `arith`: a null on either side is the answer. -/
def arith (op : ArithOp) (l r : Value) : Result Value :=
  let refused := Error.type ("`" ++ op.symbol ++ "` takes numbers, a timestamp and " ++
    "milliseconds, or (`+`) two texts; found " ++ l.typeName ++ " and " ++ r.typeName)
  match l, r with
  | .null, _ => .ok .null
  | _, .null => .ok .null
  | .int a, .int b => (arithWhole op a b).map .int
  | .timestamp t, .int d =>
    if op = .add ∨ op = .sub then (arithWhole op t d).map .timestamp else .error refused
  | .int d, .timestamp t =>
    if op = .add then (arithWhole op d t).map .timestamp else .error refused
  | .text a, .text b => if op = .add then .ok (.text (a ++ b)) else .error refused
  | .timestamp a, .timestamp b =>
    if op = .sub then (arithWhole op a b).map .int else .error refused
  | .int a, .float b => arithFloat op (Ieee.ofInt a.toInt) b
  | .float a, .int b => arithFloat op a (Ieee.ofInt b.toInt)
  | .float a, .float b => arithFloat op a b
  | _, _ => .error refused

/-! ## 4. `like` patterns -/

/-- The bytes of the character a byte starts. -/
def charLen (b : UInt8) : Nat :=
  1 + (if b ≥ 0xC0 then 1 else 0) + (if b ≥ 0xE0 then 1 else 0) + (if b ≥ 0xF0 then 1 else 0)

/-- Whether an escape starts here. -/
def escapes (e p : List UInt8) : Bool := !e.isEmpty && e.isPrefixOf p

/-- Whether the pattern ends in an escape with nothing after it. -/
def dangling (e : List UInt8) : Nat → List UInt8 → Bool
  | 0, _ => false
  | _, [] => false
  | fuel + 1, p =>
    if escapes e p then
      match p.drop e.length with
      | [] => true
      | _ :: rest => dangling e fuel rest
    else dangling e fuel (p.drop 1)

/-- The matching loop: `i` into the text, `j` into the pattern, `back` the place after the last
`%` and where in the text it is tried from.  Each round moves one of the three on, so the fuel
of `likePattern` is never used up. -/
def likeLoop (h p e : List UInt8) : Nat → Nat → Nat → Option (Nat × Nat) → Bool
  | 0, _, _, _ => false
  | fuel + 1, i, j, back =>
    let retry := fun (_ : Unit) => match back with
      | some (bj, bi) =>
        if bi < h.length then
          let i := bi + charLen (h.getD bi 0)
          let lit := escapes e (p.drop bj)
          let c := p.getD (bj + if lit then e.length else 0) 0
          if lit || (c != 37 && c != 95) then
            -- a `%` before a character resumes at that character's next place
            match (h.drop i).findIdx? (· == c) with
            | some k => likeLoop h p e fuel (i + k) bj (some (bj, i + k))
            | none => false
          else likeLoop h p e fuel i bj (some (bj, i))
        else false
      | none => false
    match p[j]? with
    | some c =>
      let lit := escapes e (p.drop j)
      let here := j + if lit then e.length else 0
      if !lit && c == 37 then
        if j + 1 = p.length then true else likeLoop h p e fuel i (j + 1) (some (j + 1, i))
      else match h[i]? with
        | some b =>
          if !lit && c == 95 then likeLoop h p e fuel (i + charLen b) (j + 1) back
          else
            let n := charLen (p.getD here 0)
            if ((p.drop here).take n).isPrefixOf (h.drop i) then
              likeLoop h p e fuel (i + n) (here + n) back
            else retry ()
        | none => retry ()
    | none => if i = h.length then true else retry ()

/-- **`like_pattern`**: `%` any run, `_` any character, the escape before either takes it as
written; `none` where the pattern ends in its escape. -/
def likePattern (h p e : List UInt8) : Option Bool :=
  if dangling e (p.length + 1) p then none
  else some (likeLoop h p e ((p.length + 2) * (h.length + 2) * (p.length + 2)) 0 0 none)

/-- Whether a pattern is malformed does not depend on the text. -/
theorem likePattern_eq_none {h p e : List UInt8} :
    likePattern h p e = none ↔ dangling e (p.length + 1) p = true := by
  unfold likePattern
  split <;> simp_all

/-! ## 5. Comparing -/

/-- What an ordering answers a comparison with. -/
def CmpOp.holds : CmpOp → Ordering → Bool
  | .eq, o => o == .eq
  | .ne, o => o != .eq
  | .lt, o => o == .lt
  | .le, o => o != .gt
  | .gt, o => o == .gt
  | .ge, o => o != .lt

/-- A comparison with a null: equal only to a null, and ordered with nothing. -/
def CmpOp.holdsNull : CmpOp → Bool → Bool → Bool
  | .eq, l, r => l && r
  | .ne, l, r => l != r
  | _, _, _ => false

/-- How two values are ordered for a comparison: texts by `order` where they are being ordered
rather than found equal. -/
def ordUnder (B : Build) (op : CmpOp) (l r : Value) (order : TextOrder) : Ordering :=
  match op, l, r with
  | .eq, l, r => l.cmpValue r
  | .ne, l, r => l.cmpValue r
  | _, .text x, .text y =>
    if order.isBytes then cmpStr x y else order.compare B.chars B.collation x y
  | _, l, r => l.cmpValue r

/-- `compare`: the comparison of two values. -/
def compareValues (B : Build) (op : CmpOp) (l r : Value) (order : TextOrder) : Bool :=
  if l.isNull || r.isNull then op.holdsNull l.isNull r.isNull
  else op.holds (ordUnder B op l r order)

/-! ## 6. The evaluator -/

/-- The fold a text of this expression is compared under. -/
def foldedAs (row : Row) : Expr → Option CaseFold
  | .field name => (row.textOrder name).fold
  | _ => none

/-- The order a text of this expression is compared in. -/
def orderedAs (row : Row) : Expr → TextOrder
  | .field name => row.textOrder name
  | _ => .bytes

/-- A text under a fold, or as it is. -/
def fit (T : CharCase) (fold : Option CaseFold) (s : String) : String :=
  match fold with
  | some f => Case.fold T f s
  | none => s

/-- The body of `sql_like` once its arguments are values. -/
def sqlLike (B : Build) (fold : Option CaseFold) (h p e : Value) : Result Value :=
  match h, p, e with
  | .text h, .text p, .text e =>
    if 1 < e.length || fit B.chars fold e != e then
      .error (.query "`escape` takes one character, with no case where case is ignored")
    else
      match likePattern (utf8 (fit B.chars fold h).toList) (utf8 (fit B.chars fold p).toList)
          (utf8 e.toList) with
      | some m => .ok (.bool m)
      | none => .error (.query "a `like` pattern ends in its escape")
  | h, p, e =>
    if h.isNull || p.isNull || e.isNull then .ok .null
    else .error (.type ("`like` takes text, not " ++ h.typeName ++ " and " ++ p.typeName))

/-- The comparison of two values under a field's order: texts that a fold makes one are
equal. -/
def cmpUnder (B : Build) (op : CmpOp) (l r : Value) (order : TextOrder) : Bool :=
  match op, l, r, order.fold with
  | .eq, .text x, .text y, some f => eqFolded B.chars f x y
  | .ne, .text x, .text y, some f => !eqFolded B.chars f x y
  | _, _, _, _ => compareValues B op l r order

/-- The comparison of two evaluated sides; the first that is a field gives the order. -/
def cmpSides (B : Build) (row : Row) (op : CmpOp) (a b : Expr) (l r : Value) : Bool :=
  cmpUnder B op l r (if (orderedAs row a).isBytes then orderedAs row b else orderedAs row a)

/-- Whether an item of an `in` is the value, a text under the field's fold. -/
def inSame (B : Build) (fold : Option CaseFold) (v l : Value) : Bool :=
  match fold, v, l with
  | some f, .text x, .text y => eqFolded B.chars f x y
  | _, _, _ => v.cmpValue l == .eq

/-- The error a parameter nobody gave is refused with. -/
def unbound (i : Nat) : Error := .query ("parameter $" ++ toString (i + 1) ++ " is not bound")

section Eval

variable {B : Build} (ctx : EvalCtx B) (row : Row)

mutual

/-- **`eval`**: an expression's value on a row. -/
def eval : Expr → Result Value
  | .lit v => .ok v
  | .param i => match ctx.params[i]? with
    | some v => .ok v
    | none => .error (unbound i)
  | .field name =>
    if name = "id" then .ok (.int (Int64.ofNat row.id)) else row.field name
  | .not a => do pure (.bool !(← eval a).truthy)
  | .and a b => do
    if (← eval a).truthy then pure (.bool (← eval b).truthy) else pure (.bool false)
  | .or a b => do
    if (← eval a).truthy then pure (.bool true) else pure (.bool (← eval b).truthy)
  | .isNull a => do pure (.bool (← eval a).isNull)
  | .cmp op a b => do
    let l ← eval a
    let r ← eval b
    pure (.bool (cmpSides B row op a b l r))
  | .like a b => do
    let l ← eval a
    let r ← eval b
    match l, r with
    | .text hay, .text needle =>
      pure (.bool (likeMatch B.chars (fit B.chars (foldedAs row a) hay)
        (fit B.chars (foldedAs row a) needle)))
    | _, _ => pure (.bool false)
  | .has a b => do
    let l ← eval a
    let r ← eval b
    match l with
    | .list items => pure (.bool (items.any fun i => i.cmpValue r == .eq))
    | _ => pure (.bool false)
  | .inList a items => do
    let l ← eval a
    pure (.bool (← evalIn (foldedAs row a) l items))
  | .inSelect _ => .error
      (.query "`in (get ...)` is answered before a query runs, and cannot be here")
  | .call name args =>
    match ctx.clock, args.isEmpty && sameName name "now" with
    | some t, true => .ok (.timestamp t)
    | _, _ =>
      if name = "case" then evalCase args
      else match args with
        | x :: p :: e =>
          if name = "like" ∨ name = "ilike" then do
            let fold := (foldedAs row x).or (if name = "ilike" then some .unicode else none)
            let h ← eval x
            let p ← eval p
            let e ← evalEscape e
            sqlLike B fold h p e
          else do ctx.registry.call name (← evalArgs (x :: p :: e))
        | args => do ctx.registry.call name (← evalArgs args)
  | .arith op a b => do
    let l ← eval a
    let r ← eval b
    arith op l r
termination_by structural e => e

/-- The items of an `in`, up to the first that is the value. -/
def evalIn (fold : Option CaseFold) (l : Value) : List Expr → Result Bool
  | [] => .ok false
  | it :: rest => do
    if inSame B fold (← eval it) l then pure true else evalIn fold l rest
termination_by structural items => items

/-- The conditions and values of a `case` in turn, the last one alone its `else`. -/
def evalCase : List Expr → Result Value
  | c :: v :: rest => do if (← eval c).truthy then eval v else evalCase rest
  | [e] => eval e
  | [] => .ok .null
termination_by structural args => args

/-- A `like`'s escape, none when it is not given. -/
def evalEscape : List Expr → Result Value
  | [] => .ok (.text "")
  | [e] => eval e
  | _ => .error (.query "`like` takes a text, a pattern and an escape")
termination_by structural e => e

/-- A call's arguments in turn. -/
def evalArgs : List Expr → Result (List Value)
  | [] => .ok []
  | a :: rest => do pure ((← eval a) :: (← evalArgs rest))
termination_by structural args => args

end

end Eval

/-! ## 7. A build to run examples on -/

/-- What holds of the small letters holds of every lowered capital. -/
theorem asciiLower_upper {p : Char → Prop} (hp : ∀ n < 26, p (Char.ofNat (n + 97))) {c : Char}
    (h : isAsciiUpper c = true) : p (Char.ofNat (c.toNat + 32)) := by
  simp only [isAsciiUpper, Bool.and_eq_true, decide_eq_true_eq] at h
  have h1 : 65 ≤ c.toNat := h.1
  have h2 : c.toNat ≤ 90 := h.2
  have := hp (c.toNat - 65) (by omega)
  rwa [show c.toNat - 65 + 97 = c.toNat + 32 by omega] at this

theorem isAsciiUpper_asciiLower (c : Char) : isAsciiUpper (asciiLower c) = false := by
  unfold asciiLower
  split
  · next h => exact asciiLower_upper (p := fun x => isAsciiUpper x = false) (by decide) h
  · next h => simpa using h

theorem asciiLower_ne_sigma {c : Char} (hc : c ≠ 'Σ') : asciiLower c ≠ 'Σ' := by
  unfold asciiLower
  split
  · next h => exact asciiLower_upper (p := fun x => x ≠ 'Σ') (by decide) h
  · exact hc

/-- The case tables of a build that knows no letters past ASCII but the sigmas. -/
def CharCase.ascii : CharCase where
  toLowercase c := [if c = 'Σ' then 'σ' else asciiLower c]
  toUppercase c := [c]
  isLowercase c := 'a' ≤ c && c ≤ 'z'
  isUppercase c := isAsciiUpper c
  caseIgnorable _ := false

theorem cherokee_eq (c : Char) : cherokee c = c ∨ 0x13A0 ≤ (cherokee c).toNat := by
  unfold cherokee
  dsimp only
  split
  · next h =>
    have hall : ∀ n < 80, 0x13A0 ≤ (Char.ofNat (n + 0x13A0)).toNat := by decide
    exact .inr (hall (c.toNat - 0xAB70) (by omega))
  · split
    · next h =>
      have hall : ∀ n < 6, 0x13A0 ≤ (Char.ofNat (n + 0x13F0)).toNat := by decide
      have := hall (c.toNat - 0x13F8) (by omega)
      rw [show c.toNat - 0x13F8 + 0x13F0 = c.toNat - 8 by omega] at this
      exact .inr this
    · exact .inl rfl

theorem isAsciiUpper_of_le {c : Char} (h : 0x13A0 ≤ c.toNat) : isAsciiUpper c = false := by
  cases hu : isAsciiUpper c with
  | false => rfl
  | true =>
    simp only [isAsciiUpper, Bool.and_eq_true, decide_eq_true_eq] at hu
    have h2 : c.toNat ≤ 90 := hu.2
    omega

/-- What its folds are made of. -/
theorem mem_foldChar_ascii {f : CaseFold} {c x : Char} (h : x ∈ foldChar CharCase.ascii f c) :
    isAsciiUpper x = false ∧ x ≠ 'Σ' := by
  have hlower : ∀ d : Char, ∀ y ∈ CharCase.ascii.toLowercase d,
      isAsciiUpper y = false ∧ y ≠ 'Σ' := by
    intro d y hy
    simp only [CharCase.ascii, List.mem_singleton] at hy
    subst hy
    split
    · decide
    · next hd => exact ⟨isAsciiUpper_asciiLower d, asciiLower_ne_sigma hd⟩
  unfold foldChar at h
  split at h
  · next hascii =>
    split at h
    · rw [List.mem_singleton.mp h]
      decide
    · rw [List.mem_singleton.mp h]
      refine ⟨isAsciiUpper_asciiLower c, asciiLower_ne_sigma ?_⟩
      rintro rfl
      exact absurd hascii (by decide)
  · split at h
    · rw [List.mem_singleton.mp h]
      decide
    · split at h
      · rw [List.mem_singleton.mp h]
        decide
      · split at h
        · obtain ⟨u, -, hu⟩ := List.mem_flatMap.mp (List.mem_of_mem_take h)
          obtain ⟨y, hy, rfl⟩ := List.mem_map.mp hu
          rcases cherokee_eq y with heq | hle
          · rw [heq]
            exact hlower u y hy
          · refine ⟨isAsciiUpper_of_le hle, fun heq => ?_⟩
            rw [heq] at hle
            exact absurd hle (by decide)
        · exact hlower c x (List.mem_of_mem_take h)

theorem lowerOne_ascii {x : Char} (h : isAsciiUpper x = false) (hx : x ≠ 'Σ') :
    lowerOne CharCase.ascii x = x := by
  have hlow : asciiLower x = x := by simp [asciiLower, h]
  unfold lowerOne
  split
  · exact hlow
  · simp [CharCase.ascii, hx, hlow]

/-- **A build that knows no letters past ASCII**, orders texts by their bytes and has every two
points infinitely apart: what the examples of this development run on. -/
def Build.ascii : Build where
  cases := { CharCase.ascii with
    fold_not_upper := fun f c x hx => (mem_foldChar_ascii hx).1
    fold_not_sigma := fun f c x hx => (mem_foldChar_ascii hx).2
    fold_lower_one := fun f c x hx hascii => by
      obtain ⟨hu, hs⟩ := mem_foldChar_ascii hx
      show CharCase.ascii.toLowercase x = [lowerOne CharCase.ascii x]
      rw [lowerOne_ascii hu hs]
      simp [CharCase.ascii, hs, asciiLower, hu]
    fold_lower_inj := fun f c d x hx y hy heq => by
      obtain ⟨hux, hsx⟩ := mem_foldChar_ascii hx
      obtain ⟨huy, hsy⟩ := mem_foldChar_ascii hy
      have h : lowerOne CharCase.ascii x = lowerOne CharCase.ascii y := heq
      rwa [lowerOne_ascii hux hsx, lowerOne_ascii huy hsy] at h }
  collation := ⟨fun _ => false, fun _ _ _ => []⟩
  geo := {
    distance := fun _ _ => Ieee.ofMag false (Ieee.infMag 11 52)
    past_lt := fun a b r x _ _ h => by
      have hlt := Ieee.lt_inf (Geo.past_eq_some h)
      exact ⟨hlt, hlt⟩ }

/-- The functions the engine brings itself. -/
def Registry.builtin (B : Build) : Registry B where
  functions := [distanceEntry B, withinEntry]
  distance_entry := by
    rw [List.find?_cons_of_pos]
    show sameName "distance" "distance" = true
    decide
  within_entry := by
    rw [List.find?_cons_of_neg, List.find?_cons_of_pos]
    · show sameName "within" "within" = true
      decide
    · show ¬ sameName "distance" "within" = true
      decide

end Fenec
