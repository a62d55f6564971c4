/-
# A claim held to its kind

A rule's filter may compare a field with a claim of the token in order, and a filter orders two
values of other kinds by kind: every bool below every number, every number below every text.  So
`bind`, which puts the claims' values into the filter, holds each such comparison to the claim's
kind by comparing the other side with the edges of the kind as well (`kindHeld`): under an even
number of `not`s `cmp and held`, under an odd one `cmp or not held`, a null apart.

`written` is what the filter says: on a row, an ordered comparison with a claim is the plain one
where the other side is null or of the claim's kind, and nobody's otherwise.  What `bind` makes
answers as it does (`bind_answers`), inner `get`s and all, for the kinds that the edges part
(`ofKind`): a text's are the texts, the bytes that do not start with `0xFF`, and, where it reads as
a time, the times from the first day of year 0 on, or every time where the lower edge is not asked.
Of a time before that day a bound from above says nothing (`time_before_year_zero`).
-/
import Fenec.Document
import Fenec.ValueOrder

namespace Fenec.Access

open Lib Case

/-! ## 1. Expressions of a rule -/

/-- A row of an inner `get`'s collection, and what the `get` makes of those its filter keeps: the
values of its column, after its order, offset and limit. -/
structure Get where
  collection : String
  finish : List Row → Result (List Value)

/-- `Expr`, as a rule holds it: with its inner `get`s, and claims for parameters. -/
inductive RuleExpr where
  | field (name : String)
  | lit (v : Value)
  | param (k : Nat)
  | and (a b : RuleExpr)
  | or (a b : RuleExpr)
  | not (a : RuleExpr)
  | cmp (op : CmpOp) (a b : RuleExpr)
  | like (a b : RuleExpr)
  | has (a b : RuleExpr)
  | inList (a : RuleExpr) (items : List RuleExpr)
  | inSelect (a : RuleExpr) (get : Get) (filter : Option RuleExpr)
  | isNull (a : RuleExpr)
  | call (name : String) (args : List RuleExpr)
  | arith (op : ArithOp) (a b : RuleExpr)

/-- The claim an expression is, if it is one. -/
def asParam : RuleExpr → Option Nat
  | .param k => some k
  | _ => none

/-- Whether a comparison orders. -/
def ordered : CmpOp → Bool
  | .eq | .ne => false
  | .lt | .le | .gt | .ge => true

/-! ## 2. What is accepted -/

mutual

/-- `max_param`: one past the last parameter read. -/
def maxParam : RuleExpr → Nat
  | .param k => k + 1
  | .field _ | .lit _ => 0
  | .and a b | .or a b | .cmp _ a b | .like a b | .has a b | .arith _ a b =>
    max (maxParam a) (maxParam b)
  | .not a | .isNull a => maxParam a
  | .inList a items => max (maxParam a) (maxParams items)
  | .inSelect a _ filter => max (maxParam a) (maxParamIn filter)
  | .call _ args => maxParams args
termination_by structural e => e

/-- `max_param` of several. -/
def maxParams : List RuleExpr → Nat
  | [] => 0
  | e :: es => max (maxParam e) (maxParams es)
termination_by structural es => es

/-- `max_param` of an inner `get`'s filter. -/
def maxParamIn : Option RuleExpr → Nat
  | none => 0
  | some f => maxParam f
termination_by structural f => f

end

section Held

variable (claims : List String)

/-- The claim a refusal names. -/
def named (e : RuleExpr) : String := claims.getD (maxParam e - 1) "<claim>"

/-- The refusal of an ordered comparison used as a value. -/
def insideValue (e : RuleExpr) : String :=
  "`$jwt." ++ named claims e ++ "` is compared in order inside a value: an ordered comparison " ++
    "with a claim is held to the claim's kind as a condition -- standing under `and`, `or` and " ++
    "`not` -- not as a value another expression reads"

/-- The refusal of a claim in a call. -/
def insideCall (e : RuleExpr) (name : String) : String :=
  "`$jwt." ++ named claims e ++ "` inside `" ++ name ++ "(...)`: a claim is compared as the " ++
    "token holds it, and a call over it could hand the rule a value of any kind -- mint the " ++
    "claim as the rule compares it"

/-- The refusal of a claim in a sum. -/
def insideSum (e : RuleExpr) : String :=
  "`$jwt." ++ named claims e ++ "` in arithmetic: a claim is compared as the token holds it, " ++
    "and a sum over it could hand the rule a value of any kind -- mint the claim as the rule " ++
    "compares it"

mutual

/-- **`claims_held`**: whether every claim stands where it can be held to its kind. -/
def claimsHeld : RuleExpr → Bool → Except String Unit
  | .param _, _ | .field _, _ | .lit _, _ => .ok ()
  | .and a b, cond | .or a b, cond => do
    claimsHeld a cond
    claimsHeld b cond
  | .not a, cond => claimsHeld a cond
  | .cmp op a b, cond =>
    if ordered op && ((asParam a).isSome || (asParam b).isSome) && !cond then
      .error (insideValue claims (.cmp op a b))
    else do
      claimsHeld a false
      claimsHeld b false
  | .call name args, _ =>
    match args with
    | [] => .ok ()
    | first :: rest =>
      if (name = "like" ∨ name = "ilike") ∧ rest ≠ [] ∧ maxParam first = 0 then do
        claimsHeld first false
        claimsHeldAll rest
      else
        match (first :: rest).find? fun a => decide (0 < maxParam a) with
        | some a => .error (insideCall claims a name)
        | none => do
          claimsHeld first false
          claimsHeldAll rest
  | .arith _ a b, _ =>
    if 0 < max (maxParam a) (maxParam b) then
      .error (insideSum claims (if 0 < maxParam a then a else b))
    else do
      claimsHeld a false
      claimsHeld b false
  | .like a b, _ | .has a b, _ => do
    claimsHeld a false
    claimsHeld b false
  | .isNull a, _ => claimsHeld a false
  | .inList a items, _ => do
    claimsHeld a false
    claimsHeldAll items
  | .inSelect a _ filter, _ => do
    claimsHeld a false
    claimsHeldIn filter
termination_by structural e => e

/-- `claims_held` of several operands. -/
def claimsHeldAll : List RuleExpr → Except String Unit
  | [] => .ok ()
  | e :: es => do
    claimsHeld e false
    claimsHeldAll es
termination_by structural es => es

/-- `claims_held` of an inner `get`'s filter. -/
def claimsHeldIn : Option RuleExpr → Except String Unit
  | none => .ok ()
  | some f => claimsHeld f true
termination_by structural f => f

end

end Held

mutual

/-- `read_alone`: whether a claim is read as one value somewhere. -/
def readAlone (k : Nat) : RuleExpr → Bool
  | .param j => j == k
  | .field _ | .lit _ => false
  | .and a b | .or a b | .cmp _ a b | .like a b | .arith _ a b => readAlone k a || readAlone k b
  | .not a | .isNull a => readAlone k a
  | .inList a items => readAlone k a || readAloneItems k items
  | .has a b => ((asParam a).isNone && readAlone k a) || readAlone k b
  | .inSelect a _ filter => readAlone k a || readAloneIn k filter
  | .call _ args => readAloneArgs k args
termination_by structural e => e

/-- `read_alone` of the items of an `in`, the claims among them apart. -/
def readAloneItems (k : Nat) : List RuleExpr → Bool
  | [] => false
  | e :: es => ((asParam e).isNone && readAlone k e) || readAloneItems k es
termination_by structural es => es

/-- `read_alone` of a call's arguments. -/
def readAloneArgs (k : Nat) : List RuleExpr → Bool
  | [] => false
  | e :: es => readAlone k e || readAloneArgs k es
termination_by structural es => es

/-- `read_alone` of an inner `get`'s filter. -/
def readAloneIn (k : Nat) : Option RuleExpr → Bool
  | none => false
  | some f => readAlone k f
termination_by structural f => f

end

mutual

/-- **`usable`**: whether a claim's value is one a rule can be held to. -/
def usable : Value → Bool → Bool
  | .text t, _ => !t.isEmpty
  | .int _, _ | .bool _, _ => true
  | .float f, _ => f.isFinite
  | .list items, list => list && usableAll items
  | _, _ => false
termination_by structural v => v

/-- `usable` of every item of a list claim. -/
def usableAll : List Value → Bool
  | [] => true
  | v :: vs => usable v false && usableAll vs
termination_by structural vs => vs

end

/-! ## 3. Claims put in -/

/-- `EARLIEST`: the first day of year 0. -/
def earliest : String := "0000-01-01"

/-- Whether a text reads as a time. -/
def readsAsTime (t : String) : Bool := (Time.parse t).isOk

/-- The edges of a claim's kind: what every value of the kind compares with as told. -/
def edges : Value → Option ((CmpOp × Value) × (CmpOp × Value))
  | .int _ | .float _ => some ((.gt, .bool true), (.lt, .text ""))
  | .text _ => some ((.ge, .text ""), (.lt, .bytes [0xFF]))
  | .bool _ => some ((.ge, .bool false), (.le, .bool true))
  | _ => none

/-- The claim's side of an ordered comparison: the claim, and whether the other side is asked to
be below it. -/
def claimSide (op : CmpOp) (x y : RuleExpr) : Option (Nat × Bool × Bool) :=
  if !ordered op then none
  else
    match asParam y, asParam x with
    -- `other op claim`
    | some k, _ => some (k, op == .lt || op == .le, false)
    -- `claim op other`, turned around
    | none, some k => some (k, op == .gt || op == .ge, true)
    | none, none => none

/-- The lower edge: for a text that reads as a time, a time's as well. -/
def lowEdge (claim : Value) (lo : CmpOp × Value) (bound : RuleExpr) : RuleExpr :=
  let first := RuleExpr.cmp lo.1 bound (.lit lo.2)
  match claim with
  | .text t =>
    if readsAsTime t then .or first (.cmp .ge bound (.lit (.text earliest))) else first
  | _ => first

/-- **`kind_held`**: what holds the other side, bound, to the kind of the claim on one side. -/
def kindHeld (claim : Value) (below : Bool) (bound : RuleExpr) (held : Bool) : Option RuleExpr :=
  match edges claim with
  | none => none
  | some (lo, hi) =>
    let low := lowEdge claim lo bound
    let high := RuleExpr.cmp hi.1 bound (.lit hi.2)
    match held, below, claim with
    | false, _, _ => some (.and (.not (.and low high)) (.not (.isNull bound)))
    -- nothing ranks below a bool but `null`, which orders against nothing
    | true, true, .bool _ => none
    | true, true, _ => some low
    | true, false, _ => some high

section Bind

variable (values : List Value)

/-- The value a claim stands for. -/
def claimValue (k : Nat) : Value := values.getD k .null

mutual

/-- **`bind_held`**: a filter standing under an even number of `not`s (`pass`) or an odd one, with
each claim's value in its place and each ordered comparison with one held to its kind. -/
def bindHeld : RuleExpr → Bool → RuleExpr
  | .param k, _ => .lit (claimValue values k)
  | .field name, _ => .field name
  | .lit v, _ => .lit v
  | .and x y, pass => .and (bindHeld x pass) (bindHeld y pass)
  | .or x y, pass => .or (bindHeld x pass) (bindHeld y pass)
  | .not x, pass => .not (bindHeld x (!pass))
  | .isNull x, pass => .isNull (bindHeld x pass)
  | .cmp op x y, pass =>
    let cmp := RuleExpr.cmp op (bindHeld x pass) (bindHeld y pass)
    match claimSide op x y with
    | none => cmp
    | some (k, below, turned) =>
      let bound := if turned then bindHeld y true else bindHeld x true
      match kindHeld (claimValue values k) below bound pass with
      | some held => if pass then .and cmp held else .or cmp held
      | none => cmp
  | .like x y, pass => .like (bindHeld x pass) (bindHeld y pass)
  | .has x y, pass => .has (bindHeld x pass) (bindHeld y pass)
  | .arith op x y, pass => .arith op (bindHeld x pass) (bindHeld y pass)
  | .inList x items, pass => .inList (bindHeld x pass) (bindItems items pass)
  | .inSelect x get filter, pass => .inSelect (bindHeld x pass) get (bindIn filter pass)
  | .call name args, pass => .call name (bindArgs args pass)
termination_by structural e => e

/-- The items of an `in`, a list claim among them its values. -/
def bindItems : List RuleExpr → Bool → List RuleExpr
  | [], _ => []
  | e :: es, pass =>
    match asParam e with
    | some k =>
      match claimValue values k with
      | .list l => l.map .lit ++ bindItems es pass
      | v => .lit v :: bindItems es pass
    | none => bindHeld e pass :: bindItems es pass
termination_by structural es => es

/-- A call's arguments. -/
def bindArgs : List RuleExpr → Bool → List RuleExpr
  | [], _ => []
  | e :: es, pass => bindHeld e pass :: bindArgs es pass
termination_by structural es => es

/-- An inner `get`'s filter, standing where its `in` does. -/
def bindIn : Option RuleExpr → Bool → Option RuleExpr
  | none, _ => none
  | some f, pass => some (bindHeld f pass)
termination_by structural f => f

end

/-- **`bind`**: the filter with each claim's value in its place. -/
def bind (e : RuleExpr) : RuleExpr := bindHeld values e true

end Bind

/-! ## 4. What a filter says -/

/-- The first day of year 0, in milliseconds. -/
def earliestMs : Int64 := -62167219200000

/-- **Whether a value is of a claim's kind**, as the edges part the kinds; `above` where the lower
edge is not asked. -/
def ofKind (claim : Value) (above : Bool) (v : Value) : Bool :=
  match claim, v with
  | .int _, .int _ | .int _, .float _ | .int _, .timestamp _ => true
  | .float _, .int _ | .float _, .float _ | .float _, .timestamp _ => true
  | .text _, .text _ => true
  | .text _, .bytes b => b.head? != some 0xFF
  | .text t, .timestamp ms => readsAsTime t && (above || decide (earliestMs ≤ ms))
  | .bool _, .bool _ => true
  | _, _ => false

/-- The rows a test keeps. -/
def keepRows (test : Row → Result Bool) : List Row → Result (List Row)
  | [] => .ok []
  | r :: rs => do
    if ← test r then pure (r :: (← keepRows test rs)) else keepRows test rs

section Meaning

variable {B : Build} (ctx : EvalCtx B) (rowsOf : String → List Row)

mutual

/-- An expression with its inner `get`s answered, each by the list of its column's values. -/
def answered : RuleExpr → Result Expr
  | .field name => .ok (.field name)
  | .lit v => .ok (.lit v)
  | .param k => .ok (.param k)
  | .and a b => do pure (.and (← answered a) (← answered b))
  | .or a b => do pure (.or (← answered a) (← answered b))
  | .not a => do pure (.not (← answered a))
  | .cmp op a b => do pure (.cmp op (← answered a) (← answered b))
  | .like a b => do pure (.like (← answered a) (← answered b))
  | .has a b => do pure (.has (← answered a) (← answered b))
  | .inList a items => do pure (.inList (← answered a) (← answeredAll items))
  | .inSelect a get filter => do
    let x ← answered a
    let values ← get.finish (← kept filter (rowsOf get.collection))
    pure (.inList x (values.map .lit))
  | .isNull a => do pure (.isNull (← answered a))
  | .call name args => do pure (.call name (← answeredAll args))
  | .arith op a b => do pure (.arith op (← answered a) (← answered b))
termination_by structural e => e

/-- Several expressions with their inner `get`s answered. -/
def answeredAll : List RuleExpr → Result (List Expr)
  | [] => .ok []
  | e :: es => do pure ((← answered e) :: (← answeredAll es))
termination_by structural es => es

/-- The rows an inner `get`'s filter keeps. -/
def kept : Option RuleExpr → List Row → Result (List Row)
  | none, rows => .ok rows
  | some f, rows => do
    let e ← answered f
    keepRows (fun r => do pure (← eval ctx r e).truthy) rows
termination_by structural f => f

end

section Written

variable (kind : Value → Bool → Value → Bool) (values : List Value)

mutual

/-- **What a filter says on a row**: each claim its value, a list claim in an `in` its values, and
an ordered comparison with a claim the plain one where the other side is null or of the claim's
kind; nobody's otherwise, false where it is to hold (`pass`) and true under an odd number of
`not`s. -/
def written (row : Row) : RuleExpr → Bool → Result Expr
  | .param k, _ => .ok (.lit (claimValue values k))
  | .field name, _ => .ok (.field name)
  | .lit v, _ => .ok (.lit v)
  | .and a b, pass => do pure (.and (← written row a pass) (← written row b pass))
  | .or a b, pass => do pure (.or (← written row a pass) (← written row b pass))
  | .not a, pass => do pure (.not (← written row a (!pass)))
  | .cmp op a b, pass => do
    let x ← written row a pass
    let y ← written row b pass
    match claimSide op a b with
    | none => pure (.cmp op x y)
    | some (k, below, turned) =>
      match eval ctx row (if turned then y else x) with
      | .ok v =>
        if v.isNull || kind (claimValue values k) (pass && !below) v then pure (.cmp op x y)
        else pure (.lit (.bool (!pass)))
      -- where the other side fails, so does the comparison
      | .error _ => pure (.cmp op x y)
  | .like a b, pass => do pure (.like (← written row a pass) (← written row b pass))
  | .has a b, pass => do pure (.has (← written row a pass) (← written row b pass))
  | .inList a items, pass => do
    pure (.inList (← written row a pass) (← writtenItems row items pass))
  | .inSelect a get filter, pass => do
    let x ← written row a pass
    let values ← get.finish (← writtenKept filter pass (rowsOf get.collection))
    pure (.inList x (values.map .lit))
  | .isNull a, pass => do pure (.isNull (← written row a pass))
  | .call name args, pass => do pure (.call name (← writtenArgs row args pass))
  | .arith op a b, pass => do pure (.arith op (← written row a pass) (← written row b pass))
termination_by structural e => e

/-- The items of an `in`, a list claim among them its values. -/
def writtenItems (row : Row) : List RuleExpr → Bool → Result (List Expr)
  | [], _ => .ok []
  | e :: es, pass =>
    match asParam e with
    | some k => do
      let rest ← writtenItems row es pass
      match claimValue values k with
      | .list l => pure (l.map .lit ++ rest)
      | v => pure (.lit v :: rest)
    | none => do pure ((← written row e pass) :: (← writtenItems row es pass))
termination_by structural es => es

/-- A call's arguments. -/
def writtenArgs (row : Row) : List RuleExpr → Bool → Result (List Expr)
  | [], _ => .ok []
  | e :: es, pass => do pure ((← written row e pass) :: (← writtenArgs row es pass))
termination_by structural es => es

/-- The rows an inner `get`'s filter keeps, standing where its `in` does. -/
def writtenKept : Option RuleExpr → Bool → List Row → Result (List Row)
  | none, _, rows => .ok rows
  | some f, pass, rows =>
    keepRows (fun r => do pure (← eval ctx r (← written r f pass)).truthy) rows
termination_by structural f => f

end

end Written

end Meaning

/-! ## 5. The edges part the kinds -/

section Edges

variable {B : Build} {order : TextOrder} {v : Value}

/-- The weights of no characters are none. -/
def NoWeights (D : CollationData) : Prop := ∀ c level, D.weights c level [] = []

theorem compare_nil_ne {α : Type} [Ord α] (l : List α) : compare l [] ≠ .lt := by
  cases l <;> exact nofun

theorem levels_nil_ne {D : CollationData} (hD : NoWeights D) (c : Collation) (a : List Char) :
    Collation.levels D c a [] ≠ .lt := by
  have hthen : ∀ {x y : Ordering}, x ≠ .lt → y ≠ .lt → x.then y ≠ .lt := by
    intro x y hx hy
    cases x with
    | lt => exact absurd rfl hx
    | eq => exact hy
    | gt => exact nofun
  unfold Collation.levels
  rw [hD c 0, hD c 1, hD c 2]
  exact hthen (hthen (hthen (compare_nil_ne _) (compare_nil_ne _)) (compare_nil_ne _))
    (compare_nil_ne _)

theorem collation_empty_ne {D : CollationData} (hD : NoWeights D) (c : Collation) (s : String) :
    c.compare D s "" ≠ .lt := by
  have hcommon : Collation.common [] s.toList "".toList = ([], s.toList, []) := by
    cases s.toList <;> rfl
  unfold Collation.compare
  rw [hcommon]
  dsimp only
  split
  · exact nofun
  · exact levels_nil_ne hD c _

/-- **No text is below the empty one**, in any order. -/
theorem empty_least (hD : NoWeights B.collation) (order : TextOrder) (s : String) :
    order.compare B.chars B.collation s "" ≠ .lt := by
  unfold TextOrder.compare
  split
  · exact compare_nil_ne _
  · exact collation_empty_ne hD _ s
  · next f _ _ =>
    have hfold : Case.cmpFolded B.chars f s.toList "".toList =
        compare (Case.folds B.chars f s.toList) [] := by
      cases s.toList <;> rfl
    rw [hfold]
    exact compare_nil_ne _
  · exact collation_empty_ne hD _ _

/-- A byte `0xFF` starts no text. -/
theorem utf8_head_ne (cs : List Char) : (utf8 cs).head? ≠ some 0xFF := by
  cases cs with
  | nil => exact nofun
  | cons c cs =>
    rw [utf8_cons]
    unfold String.utf8EncodeChar
    dsimp only
    have hne : ∀ {n : Nat}, n < 0xFF → UInt8.ofNat n ≠ 0xFF := by
      intro n hn heq
      have hnat := congrArg UInt8.toNat heq
      rw [UInt8.toNat_ofNat', Nat.mod_eq_of_lt (by omega)] at hnat
      have hff : (0xFF : UInt8).toNat = 0xFF := rfl
      omega
    split
    · exact fun h => hne (by omega) (Option.some.inj h)
    · split
      · exact fun h => hne (by omega) (Option.some.inj h)
      · split
        · exact fun h => hne (by omega) (Option.some.inj h)
        · exact fun h => hne (by omega) (Option.some.inj h)

/-- Bytes are below the byte `0xFF` unless they start with it. -/
theorem compare_ff (b : List UInt8) : compare b [0xFF] = .lt ↔ b.head? ≠ some 0xFF := by
  cases b with
  | nil => exact iff_of_true rfl nofun
  | cons x xs =>
    have hcons : compare (x :: xs) [0xFF] = (compare x 0xFF).then (compare xs []) :=
      List.compareLex_cons_cons
    have hcmp : compare x 0xFF = if x < 0xFF then .lt else if x = 0xFF then .eq else .gt := rfl
    rw [hcons, hcmp, List.head?_cons, ne_eq, Option.some.injEq]
    by_cases hx : x = 0xFF
    · subst hx
      refine iff_of_false ?_ (fun h => h rfl)
      rw [if_neg (by decide), if_pos rfl]
      exact compare_nil_ne xs
    · have hlt : x < 0xFF := UInt8.lt_of_le_of_ne (UInt8.le_iff_toNat_le.mpr
        (Nat.le_of_lt_succ x.toNat_lt)) hx
      rw [if_pos hlt]
      exact iff_of_true rfl hx

/-- A comparison of what is no null, in order. -/
theorem compareValues_some {op : CmpOp} {x y : Value} (hx : x.isNull = false)
    (hy : y.isNull = false) :
    compareValues B op x y order = op.holds (ordUnder B op x y order) := by
  unfold compareValues
  rw [hx, hy]
  rfl

/-- The lower edge of a claim's kind asked of a value. -/
def lowHolds (B : Build) (order : TextOrder) (claim v : Value) : Bool :=
  match edges claim, claim with
  | some (lo, _), .text t =>
    compareValues B lo.1 v lo.2 order ||
      (readsAsTime t && compareValues B .ge v (.text earliest) order)
  | some (lo, _), _ => compareValues B lo.1 v lo.2 order
  | none, _ => false

/-- The upper edge of a claim's kind asked of a value. -/
def highHolds (B : Build) (order : TextOrder) (claim v : Value) : Bool :=
  match edges claim with
  | some (_, hi) => compareValues B hi.1 v hi.2 order
  | none => false

/-- **Two values of other kinds are ordered by kind**, a time and a text apart. -/
theorem cmpValue_rank {v w : Value} (hne : v.typeRank ≠ w.typeRank)
    (htime : ∀ ms t, v = .timestamp ms → w ≠ .text t)
    (htext : ∀ ms t, v = .text t → w ≠ .timestamp ms) :
    v.cmpValue w = compare v.typeRank w.typeRank := by
  cases v with
  | timestamp ms =>
    cases w with
    | text t => exact absurd rfl (htime ms t rfl)
    | _ => first | exact absurd rfl hne | rfl
  | text t =>
    cases w with
    | timestamp ms => exact absurd rfl (htext ms t rfl)
    | _ => first | exact absurd rfl hne | rfl
  | _ =>
    cases w with
    | _ => first | exact absurd rfl hne | rfl

/-- Every time is below a text that reads as none. -/
theorem timestamp_lt {t : String} (ht : readsAsTime t = false) (ms : Int64) :
    (Value.timestamp ms).cmpValue (.text t) = .lt := by
  simp only [Value.cmpValue]
  cases hp : Time.parse t with
  | ok _ => rw [readsAsTime, hp] at ht; cases ht
  | error _ => rfl

/-- The empty text is no time. -/
theorem readsAsTime_empty : readsAsTime "" = false := by decide +kernel

/-- The first day of year 0 is a time. -/
theorem parse_earliest : Time.parse earliest = .ok earliestMs := by decide +kernel

/-- **Below the empty text** are the kinds below the texts. -/
theorem lt_empty (hD : NoWeights B.collation) (hv : v.isNull = false) :
    compareValues B .lt v (.text "") order = decide (v.typeRank < 3) := by
  rw [compareValues_some hv rfl]
  cases v with
  | null => cases hv
  | text s =>
    have hle : (if order.isBytes = true then cmpStr s ""
        else order.compare B.chars B.collation s "") ≠ .lt := by
      split
      · exact compare_nil_ne _
      · exact empty_least hD order s
    exact beq_false_of_ne hle
  | bytes b => exact beq_false_of_ne (compare_nil_ne b)
  | timestamp ms => exact beq_iff_eq.mpr (timestamp_lt readsAsTime_empty ms)
  | _ => rfl

/-- At or above is not below. -/
theorem ge_eq_not_lt {x y : Value} (hx : x.isNull = false) (hy : y.isNull = false) :
    compareValues B .ge x y order = !compareValues B .lt x y order := by
  have hord : ordUnder B .ge x y order = ordUnder B .lt x y order := by
    by_cases h : (∃ s, x = .text s) ∧ ∃ t, y = .text t
    · obtain ⟨⟨s, rfl⟩, t, rfl⟩ := h
      rfl
    · rw [ordUnder_plain h, ordUnder_plain h]
  rw [compareValues_some hx hy, compareValues_some hx hy, hord]
  rfl

/-- **Above `true`** are the kinds above the bools. -/
theorem gt_true (hv : v.isNull = false) :
    compareValues B .gt v (.bool true) order = decide (1 < v.typeRank) := by
  rw [compareValues_some hv rfl]
  cases v with
  | null => cases hv
  | bool b => cases b <;> rfl
  | _ => rfl

/-- Nothing that is no null is below `false`. -/
theorem ge_false (hv : v.isNull = false) :
    compareValues B .ge v (.bool false) order = true := by
  rw [compareValues_some hv rfl]
  cases v with
  | null => cases hv
  | bool b => cases b <;> rfl
  | _ => rfl

/-- **Up to `true`** are the bools. -/
theorem le_true (hv : v.isNull = false) :
    compareValues B .le v (.bool true) order = decide (v.typeRank ≤ 1) := by
  rw [compareValues_some hv rfl]
  cases v with
  | null => cases hv
  | bool b => cases b <;> rfl
  | _ => rfl

/-- Whether a value is bytes that start with `0xFF`. -/
def startsFF : Value → Bool
  | .bytes b => b.head? == some 0xFF
  | _ => false

/-- **Below the byte `0xFF`** are the texts, the bytes that do not start with it and the kinds
below. -/
theorem lt_ff (hv : v.isNull = false) :
    compareValues B .lt v (.bytes [0xFF]) order = (decide (v.typeRank ≤ 3) && !startsFF v) := by
  rw [compareValues_some hv rfl]
  cases v with
  | null => cases hv
  | text s => exact beq_iff_eq.mpr ((compare_ff _).mpr (utf8_head_ne _))
  | bytes b =>
    have hff : ordUnder B .lt (.bytes b) (.bytes [0xFF]) order = compare b [0xFF] := rfl
    rw [hff, Bool.eq_iff_iff]
    simpa [CmpOp.holds, startsFF, Value.typeRank] using compare_ff b
  | _ => rfl

/-- From the first day of year 0 on, of a time. -/
theorem ge_earliest (ms : Int64) :
    compareValues B .ge (.timestamp ms) (.text earliest) order = decide (earliestMs ≤ ms) := by
  rw [compareValues_some rfl rfl]
  have hcmp : (Value.timestamp ms).cmpValue (.text earliest) = compare ms earliestMs := by
    simp only [Value.cmpValue, parse_earliest]
  have hord : ordUnder B .ge (.timestamp ms) (.text earliest) order = compare ms earliestMs := hcmp
  have hlt : compare ms earliestMs = .lt ↔ ms < earliestMs := by
    have hif : compare ms earliestMs =
      if ms < earliestMs then .lt else if ms = earliestMs then .eq else .gt := rfl
    rw [hif]
    split
    · next h => exact iff_of_true rfl h
    · next h => split <;> exact iff_of_false nofun h
  rw [hord, Bool.eq_iff_iff, decide_eq_true_eq]
  simp only [CmpOp.holds, bne_iff_ne, ne_eq, hlt]
  exact Int64.not_lt

/-- What is neither a text nor a time, and below the texts, is below every text. -/
theorem cmpValue_text_lt {t : String} (hr : v.typeRank < 3) (htime : ∀ ms, v ≠ .timestamp ms) :
    v.cmpValue (.text t) = .lt := by
  have hne : v.typeRank ≠ (Value.text t).typeRank := by
    have hrank : (Value.text t).typeRank = 3 := rfl
    omega
  rw [cmpValue_rank hne (fun ms _ h => absurd h (htime ms)) (fun _ _ _ => nofun)]
  exact compare_lt_iff_lt.mpr hr

/-! ## 6. The kinds the edges part -/

variable (order) in
/-- **A number's kind**: above the bools and below the texts. -/
theorem edges_number (hD : NoWeights B.collation) {claim : Value}
    (hc : usable claim false = true) (hn : claim.typeRank = 2) (hv : v.isNull = false) :
    lowHolds B order claim v = decide (1 < v.typeRank) ∧
      highHolds B order claim v = decide (v.typeRank < 3) ∧
      ∀ above, ofKind claim above v = decide (v.typeRank = 2) := by
  have hkind : ∀ c : Value, c.typeRank = 2 → usable c false = true →
      ∀ above, ofKind c above v = decide (v.typeRank = 2) := by
    intro c hn hc above
    cases c with
    | int _ => cases v <;> rfl
    | float _ => cases v <;> rfl
    | timestamp _ => cases hc
    | _ => cases hn
  refine ⟨?_, ?_, hkind claim hn hc⟩
  · have hgt : compareValues B .gt v (.bool true) order = decide (1 < v.typeRank) := gt_true hv
    rw [← hgt]
    cases claim with
    | int _ => rfl
    | float _ => rfl
    | timestamp _ => cases hc
    | _ => cases hn
  · have hlt : compareValues B .lt v (.text "") order = decide (v.typeRank < 3) := lt_empty hD hv
    rw [← hlt]
    cases claim with
    | int _ => rfl
    | float _ => rfl
    | timestamp _ => cases hc
    | _ => cases hn

variable (order) in
/-- **A bool's kind**: above every null and below the numbers. -/
theorem edges_bool (c : Bool) (hv : v.isNull = false) :
    lowHolds B order (.bool c) v = true ∧
      highHolds B order (.bool c) v = decide (v.typeRank ≤ 1) ∧
      ∀ above, ofKind (.bool c) above v = decide (v.typeRank = 1) := by
  refine ⟨ge_false hv, le_true hv, fun above => ?_⟩
  cases v <;> rfl

/-- The lower edge of a text's kind: a text, bytes or a kind above, or a time it reads as. -/
theorem lowHolds_text (hD : NoWeights B.collation) (t : String) (hv : v.isNull = false) :
    lowHolds B order (.text t) v = (decide (3 ≤ v.typeRank) || ofKind (.text t) false v) := by
  have hge : compareValues B .ge v (.text "") order = !decide (v.typeRank < 3) := by
    rw [ge_eq_not_lt hv rfl, lt_empty hD hv]
  have hlow : lowHolds B order (.text t) v = (compareValues B .ge v (.text "") order ||
      (readsAsTime t && compareValues B .ge v (.text earliest) order)) := rfl
  -- what is no time is below the first day of year 0 with the texts
  have hbelow : v.typeRank < 3 → (∀ ms, v ≠ .timestamp ms) →
      compareValues B .ge v (.text earliest) order = false := by
    intro hr htime
    have hplain : ¬ ((∃ x, v = .text x) ∧ ∃ y, Value.text earliest = .text y) := by
      rintro ⟨⟨x, rfl⟩, -⟩
      exact Nat.lt_irrefl 3 hr
    rw [compareValues_some hv rfl, ordUnder_plain hplain, cmpValue_text_lt hr htime]
    rfl
  rw [hlow, hge]
  cases v with
  | null => cases hv
  | timestamp ms =>
    rw [ge_earliest]
    rfl
  | bool b =>
    rw [hbelow (Nat.one_lt_succ_succ 1) nofun, Bool.and_false]
    rfl
  | int i =>
    rw [hbelow (Nat.lt_succ_self 2) nofun, Bool.and_false]
    rfl
  | float f =>
    rw [hbelow (Nat.lt_succ_self 2) nofun, Bool.and_false]
    rfl
  | _ => rfl

/-- The upper edge of a text's kind. -/
theorem highHolds_text (t : String) (hv : v.isNull = false) :
    highHolds B order (.text t) v = (decide (v.typeRank ≤ 3) && !startsFF v) := lt_ff hv

variable (order) in
/-- **Both edges** hold of the values of a claim's kind. -/
theorem low_and_high (hD : NoWeights B.collation) {claim : Value}
    (hc : usable claim false = true) (hv : v.isNull = false) :
    (lowHolds B order claim v && highHolds B order claim v) = ofKind claim false v := by
  have hnumber : claim.typeRank = 2 →
      (lowHolds B order claim v && highHolds B order claim v) = ofKind claim false v := by
    intro hn
    obtain ⟨hlow, hhigh, hkind⟩ := edges_number order hD hc hn hv
    rw [hlow, hhigh, hkind, Bool.eq_iff_iff]
    simp only [Bool.and_eq_true, decide_eq_true_eq]
    omega
  cases claim with
  | int c => exact hnumber rfl
  | float c => exact hnumber rfl
  | bool c =>
    obtain ⟨hlow, hhigh, hkind⟩ := edges_bool (B := B) order c hv
    have hpos : 0 < v.typeRank := by
      cases v with
      | null => cases hv
      | _ => exact Nat.succ_pos _
    rw [hlow, hhigh, hkind, Bool.true_and, Bool.eq_iff_iff]
    simp only [decide_eq_true_eq]
    omega
  | text t =>
    rw [lowHolds_text hD t hv, highHolds_text t hv]
    cases v with
    | bytes b => exact Bool.true_and _
    | timestamp ms => exact Bool.and_true _
    | _ => rfl
  | _ => cases hc

/-- Of a usable claim's kind or another, a value of another rank is ordered by it, a time and a text
apart. -/
theorem cmpValue_claim {claim : Value} (hc : usable claim false = true)
    (hne : v.typeRank ≠ claim.typeRank)
    (htime : claim.typeRank = 3 → v.typeRank ≠ 2) :
    v.cmpValue claim = compare v.typeRank claim.typeRank := by
  refine cmpValue_rank hne ?_ ?_
  · rintro ms t rfl rfl
    exact htime rfl rfl
  · rintro ms t rfl rfl
    cases hc

/-- Bytes that start with `0xFF` are above every text. -/
theorem bytes_past {b : List UInt8} (hb : b.head? = some 0xFF) (t : String) :
    (Value.bytes b).cmpValue (.text t) = .gt := by
  have hcmp : (Value.bytes b).cmpValue (.text t) = compare b (utf8 t.toList) := rfl
  rw [hcmp]
  cases b with
  | nil => cases hb
  | cons x xs =>
    rw [List.head?_cons, Option.some.injEq] at hb
    subst hb
    have hhead := utf8_head_ne t.toList
    cases hu : utf8 t.toList with
    | nil => rfl
    | cons y ys =>
      rw [hu, List.head?_cons, ne_eq, Option.some.injEq] at hhead
      have hcons : compare (0xFF :: xs) (y :: ys) = (compare 0xFF y).then (compare xs ys) :=
        List.compareLex_cons_cons
      have hone : compare (0xFF : UInt8) y =
        if 0xFF < y then .lt else if 0xFF = y then .eq else .gt := rfl
      have hle : ¬ (0xFF : UInt8) < y := UInt8.not_lt.mpr (UInt8.le_iff_toNat_le.mpr
        (Nat.le_of_lt_succ y.toNat_lt))
      rw [hcons, hone, if_neg hle, if_neg fun h => hhead h.symm]
      rfl

/-- **What the lower edge alone admits** is of the claim's kind or above the claim. -/
theorem low_past (hD : NoWeights B.collation) {claim : Value} (hc : usable claim false = true)
    (hv : v.isNull = false) (hlow : lowHolds B order claim v = true)
    (hkind : ofKind claim false v = false) : v.cmpValue claim = .gt := by
  have hrank : claim.typeRank < v.typeRank → v.cmpValue claim = .gt := by
    intro h
    have hclaim : claim.typeRank = 3 → v.typeRank ≠ 2 := by omega
    rw [cmpValue_claim hc (Nat.ne_of_gt h) hclaim]
    exact compare_gt_iff_gt.mpr h
  have hnumber : claim.typeRank = 2 → v.cmpValue claim = .gt := by
    intro hn
    obtain ⟨hlow', -, hkind'⟩ := edges_number order hD hc hn hv
    rw [hlow', decide_eq_true_eq] at hlow
    rw [hkind', decide_eq_false_iff_not] at hkind
    exact hrank (by omega)
  cases claim with
  | int c => exact hnumber rfl
  | float c => exact hnumber rfl
  | bool c =>
    cases v with
    | null => cases hv
    | bool b => cases hkind
    | _ => rfl
  | text t =>
    rw [lowHolds_text hD t hv, hkind, Bool.or_false, decide_eq_true_eq] at hlow
    cases v with
    | text s => cases hkind
    | bytes b => exact bytes_past (by simpa [ofKind] using hkind) t
    | vector _ => rfl
    | list _ => rfl
    | sparse _ _ => rfl
    | object _ => rfl
    | _ => simp [Value.typeRank] at hlow
  | _ => cases hc

/-- **What the upper edge alone admits** is of the claim's kind or below the claim. -/
theorem high_past (hD : NoWeights B.collation) {claim : Value} (hc : usable claim false = true)
    (hv : v.isNull = false) (hhigh : highHolds B order claim v = true)
    (hkind : ofKind claim true v = false) : v.cmpValue claim = .lt := by
  have hnumber : claim.typeRank = 2 → v.cmpValue claim = .lt := by
    intro hn
    obtain ⟨-, hhigh', hkind'⟩ := edges_number order hD hc hn hv
    rw [hhigh', decide_eq_true_eq] at hhigh
    rw [hkind', decide_eq_false_iff_not] at hkind
    have hlt : v.typeRank < claim.typeRank := by omega
    rw [cmpValue_claim hc (Nat.ne_of_lt hlt) (by omega)]
    exact compare_lt_iff_lt.mpr hlt
  cases claim with
  | int c => exact hnumber rfl
  | float c => exact hnumber rfl
  | bool c =>
    obtain ⟨-, hhigh', -⟩ := edges_bool (B := B) order c hv
    rw [hhigh', decide_eq_true_eq] at hhigh
    cases v with
    | null => cases hv
    | bool b => cases hkind
    | _ => simp [Value.typeRank] at hhigh
  | text t =>
    rw [highHolds_text t hv, Bool.and_eq_true, decide_eq_true_eq] at hhigh
    cases v with
    | text s => cases hkind
    | bytes b =>
      have hff : b.head? = some 0xFF := by simpa [ofKind] using hkind
      have hff' := hhigh.2
      simp [startsFF, hff] at hff'
    | timestamp ms =>
      exact timestamp_lt (by simpa [ofKind] using hkind) ms
    | null => cases hv
    | bool _ => rfl
    | int _ => rfl
    | float _ => rfl
    | _ => simp [Value.typeRank] at hhigh
  | _ => cases hc

/-- What is of a claim's kind is below its upper edge. -/
theorem high_of_kind (hD : NoWeights B.collation) {claim : Value}
    (hc : usable claim false = true) (hv : v.isNull = false)
    (hkind : ofKind claim true v = true) : highHolds B order claim v = true := by
  have hnumber : claim.typeRank = 2 → highHolds B order claim v = true := by
    intro hn
    obtain ⟨-, hhigh, hkind'⟩ := edges_number order hD hc hn hv
    rw [hkind', decide_eq_true_eq] at hkind
    rw [hhigh, decide_eq_true_eq]
    omega
  cases claim with
  | int c => exact hnumber rfl
  | float c => exact hnumber rfl
  | bool c =>
    obtain ⟨-, hhigh, hkind'⟩ := edges_bool (B := B) order c hv
    rw [hkind', decide_eq_true_eq] at hkind
    rw [hhigh, decide_eq_true_eq]
    omega
  | text t =>
    rw [highHolds_text t hv]
    cases v with
    | text s => rfl
    | bytes b => exact hkind
    | timestamp ms => rfl
    | _ => cases hkind
  | _ => cases hc

end Edges

/-! ## 7. A comparison held -/

section HeldEval

variable {B : Build} {ctx : EvalCtx B} {rowsOf : String → List Row} {row : Row}

theorem truthy_bool (b : Bool) : (Value.bool b).truthy = b := by cases b <;> rfl

theorem eval_and {x y : Expr} {a b : Bool} (hx : eval ctx row x = .ok (.bool a))
    (hy : eval ctx row y = .ok (.bool b)) : eval ctx row (.and x y) = .ok (.bool (a && b)) := by
  have heval : eval ctx row (.and x y) =
      (do
        if (← eval ctx row x).truthy then pure (.bool (← eval ctx row y).truthy)
        else pure (.bool false)) := rfl
  rw [heval, hx, hy]
  cases a with
  | false => rfl
  | true => exact congrArg (Except.ok ∘ Value.bool) (truthy_bool b)

theorem eval_or {x y : Expr} {a b : Bool} (hx : eval ctx row x = .ok (.bool a))
    (hy : eval ctx row y = .ok (.bool b)) : eval ctx row (.or x y) = .ok (.bool (a || b)) := by
  have heval : eval ctx row (.or x y) =
      (do
        if (← eval ctx row x).truthy then pure (.bool true)
        else pure (.bool (← eval ctx row y).truthy)) := rfl
  rw [heval, hx, hy]
  cases a with
  | true => rfl
  | false => exact congrArg (Except.ok ∘ Value.bool) (truthy_bool b)

theorem eval_not {x : Expr} {a : Bool} (hx : eval ctx row x = .ok (.bool a)) :
    eval ctx row (.not x) = .ok (.bool !a) := by
  have heval : eval ctx row (.not x) = (do pure (.bool !(← eval ctx row x).truthy)) := rfl
  rw [heval, hx]
  exact congrArg (Except.ok ∘ Value.bool) (congrArg not (truthy_bool a))

theorem eval_isNull {x : Expr} {v : Value} (hx : eval ctx row x = .ok v) :
    eval ctx row (.isNull x) = .ok (.bool v.isNull) := by
  have heval : eval ctx row (.isNull x) = (do pure (.bool (← eval ctx row x).isNull)) := rfl
  rw [heval, hx]
  rfl

/-- The order an edge is compared in. -/
def edgeOrder (row : Row) (x : Expr) : TextOrder :=
  if (orderedAs row x).isBytes then .bytes else orderedAs row x

/-- An ordered comparison with a literal. -/
theorem eval_cmp_lit {op : CmpOp} (hop : ordered op = true) {x : Expr} {v w : Value}
    (hx : eval ctx row x = .ok v) :
    eval ctx row (.cmp op x (.lit w)) =
      .ok (.bool (compareValues B op v w (edgeOrder row x))) := by
  have hcmp : ∀ order, cmpUnder B op v w order = compareValues B op v w order := by
    intro order
    cases op with
    | eq => cases hop
    | ne => cases hop
    | _ => rfl
  have heval : eval ctx row (.cmp op x (.lit w)) =
      (do
        let l ← eval ctx row x
        pure (.bool (cmpSides B row op x (.lit w) l w))) := rfl
  rw [heval, hx]
  exact congrArg (Except.ok ∘ Value.bool) (hcmp _)

variable {claim v : Value} {lo hi : CmpOp × Value} {bound : RuleExpr} {x : Expr}

/-- The edges' operators order. -/
theorem edges_ordered (he : edges claim = some (lo, hi)) :
    ordered lo.1 = true ∧ ordered hi.1 = true := by
  cases claim with
  | int _ => cases he; exact ⟨rfl, rfl⟩
  | float _ => cases he; exact ⟨rfl, rfl⟩
  | text _ => cases he; exact ⟨rfl, rfl⟩
  | bool _ => cases he; exact ⟨rfl, rfl⟩
  | _ => cases he

/-- **The upper edge asked of a row.** -/
theorem eval_highEdge (he : edges claim = some (lo, hi))
    (hanswer : answered ctx rowsOf bound = .ok x) (hx : eval ctx row x = .ok v) :
    ∃ e, answered ctx rowsOf (.cmp hi.1 bound (.lit hi.2)) = .ok e ∧
      eval ctx row e = .ok (.bool (highHolds B (edgeOrder row x) claim v)) := by
  refine ⟨.cmp hi.1 x (.lit hi.2), ?_, ?_⟩
  · rw [answered, hanswer]
    rfl
  · rw [eval_cmp_lit (edges_ordered he).2 hx, highHolds, he]

/-- **The lower edge asked of a row.** -/
theorem eval_lowEdge (he : edges claim = some (lo, hi))
    (hanswer : answered ctx rowsOf bound = .ok x) (hx : eval ctx row x = .ok v) :
    ∃ e, answered ctx rowsOf (lowEdge claim lo bound) = .ok e ∧
      eval ctx row e = .ok (.bool (lowHolds B (edgeOrder row x) claim v)) := by
  have hfirst : answered ctx rowsOf (.cmp lo.1 bound (.lit lo.2)) =
      .ok (.cmp lo.1 x (.lit lo.2)) := by
    rw [answered, hanswer]
    rfl
  have heval := eval_cmp_lit (w := lo.2) (edges_ordered he).1 hx
  cases claim with
  | int _ => cases he; exact ⟨_, hfirst, heval⟩
  | float _ => cases he; exact ⟨_, hfirst, heval⟩
  | bool _ => cases he; exact ⟨_, hfirst, heval⟩
  | text t =>
    cases he
    have hlow : lowEdge (.text t) (.ge, .text "") bound =
      if readsAsTime t then .or (.cmp .ge bound (.lit (.text "")))
        (.cmp .ge bound (.lit (.text earliest))) else .cmp .ge bound (.lit (.text "")) := rfl
    have hholds : lowHolds B (edgeOrder row x) (.text t) v =
      (compareValues B .ge v (.text "") (edgeOrder row x) ||
        (readsAsTime t && compareValues B .ge v (.text earliest) (edgeOrder row x))) := rfl
    rw [hlow, hholds]
    cases readsAsTime t with
    | false =>
      refine ⟨_, hfirst, ?_⟩
      rw [heval, Bool.false_and, Bool.or_false]
    | true =>
      have htime : answered ctx rowsOf (.cmp .ge bound (.lit (.text earliest))) =
          .ok (.cmp .ge x (.lit (.text earliest))) := by
        rw [answered, hanswer]
        rfl
      refine ⟨.or (.cmp .ge x (.lit (.text ""))) (.cmp .ge x (.lit (.text earliest))), ?_, ?_⟩
      · rw [if_pos rfl, answered, hfirst, htime]
        rfl
      · exact eval_or heval (eval_cmp_lit rfl hx)
  | _ => cases he

/-- A usable claim has edges. -/
theorem edges_usable (hc : usable claim false = true) : ∃ lo hi, edges claim = some (lo, hi) := by
  cases claim with
  | int _ => exact ⟨_, _, rfl⟩
  | float _ => exact ⟨_, _, rfl⟩
  | bool _ => exact ⟨_, _, rfl⟩
  | text _ => exact ⟨_, _, rfl⟩
  | _ => cases hc

/-- **Under an odd number of `not`s** a comparison held is true of what is not of the claim's
kind, and what it was of a null and of the claim's kind. -/
theorem held_odd (hD : NoWeights B.collation) (hc : usable claim false = true) (below : Bool)
    (hanswer : answered ctx rowsOf bound = .ok x) (hx : eval ctx row x = .ok v) {m : Expr}
    {b : Bool} (hm : eval ctx row m = .ok (.bool b)) :
    ∃ held h, kindHeld claim below bound false = some held ∧ answered ctx rowsOf held = .ok h ∧
      eval ctx row (.or m h) =
        .ok (.bool (if v.isNull || ofKind claim false v then b else true)) := by
  obtain ⟨lo, hi, he⟩ := edges_usable hc
  obtain ⟨low, hlow, hlowEval⟩ := eval_lowEdge he hanswer hx
  obtain ⟨high, hhigh, hhighEval⟩ := eval_highEdge he hanswer hx
  refine ⟨.and (.not (.and (lowEdge claim lo bound) (.cmp hi.1 bound (.lit hi.2))))
    (.not (.isNull bound)), .and (.not (.and low high)) (.not (.isNull x)), ?_, ?_, ?_⟩
  · rw [kindHeld, he]
  · simp only [answered] at hhigh ⊢
    rw [hlow, hhigh, hanswer]
    rfl
  · have hboth := eval_not (eval_and hlowEval hhighEval)
    rw [eval_or hm (eval_and hboth (eval_not (eval_isNull hx)))]
    cases hv : v.isNull with
    | true => rw [Bool.not_true, Bool.and_false, Bool.or_false, Bool.true_or, if_pos rfl]
    | false =>
      rw [low_and_high (edgeOrder row x) hD hc hv, Bool.false_or, Bool.not_false, Bool.and_true]
      cases ofKind claim false v with
      | true => rw [Bool.not_true, Bool.or_false, if_pos rfl]
      | false => rw [Bool.not_false, Bool.or_true, if_neg Bool.false_ne_true]

/-- An ordered comparison with a claim is as the plain order has it, of what is of another kind. -/
theorem cmpUnder_other {op : CmpOp} {order : TextOrder} {above : Bool} (hop : ordered op = true)
    (hc : usable claim false = true) (hv : v.isNull = false)
    (hkind : ofKind claim above v = false) :
    cmpUnder B op v claim order = op.holds (v.cmpValue claim) := by
  have hplain : ¬ ((∃ s, v = .text s) ∧ ∃ t, claim = .text t) := by
    rintro ⟨⟨s, rfl⟩, t, rfl⟩
    cases hkind
  have hsome : claim.isNull = false := by
    cases claim with
    | null => cases hc
    | _ => rfl
  have hunder : cmpUnder B op v claim order = compareValues B op v claim order := by
    cases op with
    | eq => cases hop
    | ne => cases hop
    | _ => rfl
  rw [hunder, compareValues_some hv hsome, ordUnder_plain hplain]

/-- A null orders against nothing. -/
theorem cmpUnder_null {op : CmpOp} {order : TextOrder} (hop : ordered op = true) :
    cmpUnder B op .null claim order = false := by
  cases op with
  | eq => cases hop
  | ne => cases hop
  | _ => rfl

/-- Whether an operator asks the other side below a claim, or above it. -/
def Asks (op : CmpOp) (below : Bool) : Prop :=
  if below then op = .lt ∨ op = .le else op = .gt ∨ op = .ge

theorem Asks.ordered {op : CmpOp} {below : Bool} (h : Asks op below) : ordered op = true := by
  cases below with
  | true => rcases h with rfl | rfl <;> rfl
  | false => rcases h with rfl | rfl <;> rfl

/-- A comparison guarded by an edge that holds of the kind, and of what the comparison does not. -/
theorem guarded {cmp edge kind null : Bool} (hnull : null = true → cmp = false)
    (hkind : null = false → kind = true → edge = true)
    (hpast : null = false → kind = false → edge = true → cmp = false) :
    (cmp && edge) = if null || kind then cmp else false := by
  cases null with
  | true => rw [hnull rfl, Bool.false_and, ite_self]
  | false =>
    rw [Bool.false_or]
    cases kind with
    | true => rw [hkind rfl rfl, Bool.and_true, if_pos rfl]
    | false =>
      cases edge with
      | true => rw [hpast rfl rfl rfl, Bool.false_and, ite_self]
      | false => rw [Bool.and_false, if_neg Bool.false_ne_true]

/-- **Under an even number of `not`s** a comparison held is false of what is not of the claim's
kind: the edge on the side it leaves open is enough. -/
theorem held_even (hD : NoWeights B.collation) (hc : usable claim false = true) {op : CmpOp}
    {below : Bool} (hop : Asks op below) {order : TextOrder}
    (hanswer : answered ctx rowsOf bound = .ok x) (hx : eval ctx row x = .ok v) {m : Expr}
    (hm : eval ctx row m = .ok (.bool (cmpUnder B op v claim order))) :
    (kindHeld claim below bound true = none ∧ eval ctx row m =
      .ok (.bool (if v.isNull || ofKind claim (!below) v then cmpUnder B op v claim order
        else false))) ∨
    ∃ held h, kindHeld claim below bound true = some held ∧ answered ctx rowsOf held = .ok h ∧
      eval ctx row (.and m h) =
        .ok (.bool (if v.isNull || ofKind claim (!below) v then cmpUnder B op v claim order
          else false)) := by
  obtain ⟨lo, hi, he⟩ := edges_usable hc
  obtain ⟨low, hlow, hlowEval⟩ := eval_lowEdge he hanswer hx
  obtain ⟨high, hhigh, hhighEval⟩ := eval_highEdge he hanswer hx
  have hnull : v.isNull = true → cmpUnder B op v claim order = false := by
    intro hv
    rw [Value.isNull_iff.mp hv]
    exact cmpUnder_null hop.ordered
  cases below with
  | true =>
    have hval : (cmpUnder B op v claim order && lowHolds B (edgeOrder row x) claim v) =
        if v.isNull || ofKind claim false v then cmpUnder B op v claim order else false :=
      guarded hnull (fun hv hkind => by
        have hboth := low_and_high (edgeOrder row x) hD hc hv
        rw [hkind, Bool.and_eq_true] at hboth
        exact hboth.1)
      (fun hv hkind hholds => by
        rw [cmpUnder_other hop.ordered hc hv hkind, low_past hD hc hv hholds hkind]
        rcases hop with rfl | rfl <;> rfl)
    have hheld := eval_and hm hlowEval
    rw [hval] at hheld
    cases claim with
    | bool c =>
      -- a bool's lower edge holds of whatever is no null
      refine Or.inl ⟨rfl, ?_⟩
      rw [Bool.not_true, ← hval, hm]
      cases hv : v.isNull with
      | true => rw [hnull hv, Bool.false_and]
      | false => rw [(edges_bool (edgeOrder row x) c hv).1, Bool.and_true]
    | int c => exact Or.inr ⟨_, low, by rw [kindHeld, he], hlow, hheld⟩
    | float c => exact Or.inr ⟨_, low, by rw [kindHeld, he], hlow, hheld⟩
    | text c => exact Or.inr ⟨_, low, by rw [kindHeld, he], hlow, hheld⟩
    | _ => cases hc
  | false =>
    refine Or.inr ⟨_, high, by rw [kindHeld, he], hhigh, ?_⟩
    rw [eval_and hm hhighEval]
    refine congrArg (Except.ok ∘ Value.bool) (guarded hnull (fun hv => high_of_kind hD hc hv) ?_)
    intro hv hkind hholds
    rw [cmpUnder_other hop.ordered hc hv hkind, high_past hD hc hv hholds hkind]
    rcases hop with rfl | rfl <;> rfl

end HeldEval

/-! ## 8. Expressions with no claim -/

section Closed

variable {values : List Value}

theorem max_eq_zero {a b : Nat} (h : max a b = 0) : a = 0 ∧ b = 0 := by omega

theorem asParam_none {e : RuleExpr} (h : maxParam e = 0) : asParam e = none := by
  cases e with
  | param k => exact absurd h (Nat.succ_ne_zero k)
  | _ => rfl

theorem claimSide_none {op : CmpOp} {x y : RuleExpr} (hx : asParam x = none)
    (hy : asParam y = none) : claimSide op x y = none := by
  unfold claimSide
  rw [hx, hy]
  split <;> rfl

mutual

/-- **An expression with no claim is bound as it is.** -/
theorem bindHeld_closed : ∀ (e : RuleExpr) (pass : Bool), maxParam e = 0 →
    bindHeld values e pass = e
  | .param k, _, h => absurd h (Nat.succ_ne_zero k)
  | .field _, _, _ => rfl
  | .lit _, _, _ => rfl
  | .and a b, pass, h => by
    obtain ⟨ha, hb⟩ := max_eq_zero h
    rw [bindHeld, bindHeld_closed a pass ha, bindHeld_closed b pass hb]
  | .or a b, pass, h => by
    obtain ⟨ha, hb⟩ := max_eq_zero h
    rw [bindHeld, bindHeld_closed a pass ha, bindHeld_closed b pass hb]
  | .not a, pass, h => by rw [bindHeld, bindHeld_closed a (!pass) h]
  | .isNull a, pass, h => by rw [bindHeld, bindHeld_closed a pass h]
  | .cmp op a b, pass, h => by
    obtain ⟨ha, hb⟩ := max_eq_zero h
    rw [bindHeld, claimSide_none (asParam_none ha) (asParam_none hb), bindHeld_closed a pass ha,
      bindHeld_closed b pass hb]
  | .like a b, pass, h => by
    obtain ⟨ha, hb⟩ := max_eq_zero h
    rw [bindHeld, bindHeld_closed a pass ha, bindHeld_closed b pass hb]
  | .has a b, pass, h => by
    obtain ⟨ha, hb⟩ := max_eq_zero h
    rw [bindHeld, bindHeld_closed a pass ha, bindHeld_closed b pass hb]
  | .arith op a b, pass, h => by
    obtain ⟨ha, hb⟩ := max_eq_zero h
    rw [bindHeld, bindHeld_closed a pass ha, bindHeld_closed b pass hb]
  | .inList a items, pass, h => by
    obtain ⟨ha, hb⟩ := max_eq_zero h
    rw [bindHeld, bindHeld_closed a pass ha, bindItems_closed items pass hb]
  | .inSelect a get filter, pass, h => by
    obtain ⟨ha, hb⟩ := max_eq_zero h
    rw [bindHeld, bindHeld_closed a pass ha, bindIn_closed filter pass hb]
  | .call name args, pass, h => by rw [bindHeld, bindArgs_closed args pass h]
termination_by structural e => e

theorem bindItems_closed : ∀ (es : List RuleExpr) (pass : Bool), maxParams es = 0 →
    bindItems values es pass = es
  | [], _, _ => rfl
  | e :: es, pass, h => by
    obtain ⟨he, hes⟩ := max_eq_zero h
    rw [bindItems, asParam_none he]
    dsimp only
    rw [bindHeld_closed e pass he, bindItems_closed es pass hes]
termination_by structural es => es

theorem bindArgs_closed : ∀ (es : List RuleExpr) (pass : Bool), maxParams es = 0 →
    bindArgs values es pass = es
  | [], _, _ => rfl
  | e :: es, pass, h => by
    obtain ⟨he, hes⟩ := max_eq_zero h
    rw [bindArgs, bindHeld_closed e pass he, bindArgs_closed es pass hes]
termination_by structural es => es

theorem bindIn_closed : ∀ (f : Option RuleExpr) (pass : Bool), maxParamIn f = 0 →
    bindIn values f pass = f
  | none, _, _ => rfl
  | some f, pass, h => by rw [bindIn, bindHeld_closed f pass h]
termination_by structural f => f

end

mutual

/-- A claim read alone is one of the expression's. -/
theorem lt_maxParam (k : Nat) : ∀ e : RuleExpr, readAlone k e = true → k < maxParam e
  | .param j, h => by
    rw [beq_iff_eq.mp h]
    exact Nat.lt_succ_self k
  | .and a b, h => lt_max_iff.mpr
    (((Bool.or_eq_true _ _).mp h).imp (lt_maxParam k a) (lt_maxParam k b))
  | .or a b, h => lt_max_iff.mpr
    (((Bool.or_eq_true _ _).mp h).imp (lt_maxParam k a) (lt_maxParam k b))
  | .cmp _ a b, h => lt_max_iff.mpr
    (((Bool.or_eq_true _ _).mp h).imp (lt_maxParam k a) (lt_maxParam k b))
  | .like a b, h => lt_max_iff.mpr
    (((Bool.or_eq_true _ _).mp h).imp (lt_maxParam k a) (lt_maxParam k b))
  | .arith _ a b, h => lt_max_iff.mpr
    (((Bool.or_eq_true _ _).mp h).imp (lt_maxParam k a) (lt_maxParam k b))
  | .not a, h => lt_maxParam k a h
  | .isNull a, h => lt_maxParam k a h
  | .has a b, h => lt_max_iff.mpr (((Bool.or_eq_true _ _).mp h).imp
    (fun h => lt_maxParam k a ((Bool.and_eq_true _ _).mp h).2) (lt_maxParam k b))
  | .inList a items, h => lt_max_iff.mpr
    (((Bool.or_eq_true _ _).mp h).imp (lt_maxParam k a) (lt_maxParams_items k items))
  | .inSelect a _ filter, h => lt_max_iff.mpr
    (((Bool.or_eq_true _ _).mp h).imp (lt_maxParam k a) (lt_maxParam_in k filter))
  | .call _ args, h => lt_maxParams_args k args h
termination_by structural e => e

theorem lt_maxParams_items (k : Nat) :
    ∀ es : List RuleExpr, readAloneItems k es = true → k < maxParams es
  | e :: es, h => lt_max_iff.mpr (((Bool.or_eq_true _ _).mp h).imp
    (fun h => lt_maxParam k e ((Bool.and_eq_true _ _).mp h).2) (lt_maxParams_items k es))
termination_by structural es => es

theorem lt_maxParams_args (k : Nat) :
    ∀ es : List RuleExpr, readAloneArgs k es = true → k < maxParams es
  | e :: es, h => lt_max_iff.mpr
    (((Bool.or_eq_true _ _).mp h).imp (lt_maxParam k e) (lt_maxParams_args k es))
termination_by structural es => es

theorem lt_maxParam_in (k : Nat) :
    ∀ f : Option RuleExpr, readAloneIn k f = true → k < maxParamIn f
  | some f, h => lt_maxParam k f h
termination_by structural f => f

end

end Closed

/-! ## 9. An operand under either number of `not`s -/

section Operands

variable {B : Build} {ctx : EvalCtx B} {rowsOf : String → List Row} {row : Row}
  {claims : List String} {values : List Value}

/-- One value, or two bools. -/
def Alike (v w : Value) : Prop := v = w ∨ (∃ a, v = .bool a) ∧ ∃ b, w = .bool b

/-- Whether an expression is a test, true or false of a row. -/
def isTest : RuleExpr → Bool
  | .and _ _ | .or _ _ | .not _ | .cmp _ _ _ | .like _ _ | .has _ _ | .inList _ _
  | .inSelect _ _ _ | .isNull _ => true
  | .field _ | .lit _ | .param _ | .call _ _ | .arith _ _ _ => false

/-- A test is bound as a test. -/
theorem isTest_bindHeld {e : RuleExpr} (h : isTest e = true) (pass : Bool) :
    isTest (bindHeld values e pass) = true := by
  cases e with
  | cmp op x y =>
    rw [bindHeld]
    dsimp only
    split
    · rfl
    · split
      · split <;> rfl
      · rfl
  | field _ => cases h
  | lit _ => cases h
  | param _ => cases h
  | call _ _ => cases h
  | arith _ _ _ => cases h
  | _ => rfl

/-- **A test's value is a bool.** -/
theorem eval_isTest {e : RuleExpr} (h : isTest e = true) {x : Expr} {v : Value}
    (hanswer : answered ctx rowsOf e = .ok x) (heval : eval ctx row x = .ok v) :
    ∃ b, v = .bool b := by
  cases e with
  | and a b =>
    obtain ⟨_, -, hanswer⟩ := bind_ok hanswer
    obtain ⟨_, -, hanswer⟩ := bind_ok hanswer
    cases hanswer
    obtain ⟨l, -, heval⟩ := bind_ok heval
    cases hl : l.truthy with
    | false => rw [hl] at heval; cases heval; exact ⟨_, rfl⟩
    | true =>
      rw [hl] at heval
      obtain ⟨_, -, heval⟩ := bind_ok heval
      cases heval
      exact ⟨_, rfl⟩
  | or a b =>
    obtain ⟨_, -, hanswer⟩ := bind_ok hanswer
    obtain ⟨_, -, hanswer⟩ := bind_ok hanswer
    cases hanswer
    obtain ⟨l, -, heval⟩ := bind_ok heval
    cases hl : l.truthy with
    | true => rw [hl] at heval; cases heval; exact ⟨_, rfl⟩
    | false =>
      rw [hl] at heval
      obtain ⟨_, -, heval⟩ := bind_ok heval
      cases heval
      exact ⟨_, rfl⟩
  | not a =>
    obtain ⟨_, -, hanswer⟩ := bind_ok hanswer
    cases hanswer
    obtain ⟨_, -, heval⟩ := bind_ok heval
    cases heval
    exact ⟨_, rfl⟩
  | cmp op a b =>
    obtain ⟨_, -, hanswer⟩ := bind_ok hanswer
    obtain ⟨_, -, hanswer⟩ := bind_ok hanswer
    cases hanswer
    obtain ⟨_, -, heval⟩ := bind_ok heval
    obtain ⟨_, -, heval⟩ := bind_ok heval
    cases heval
    exact ⟨_, rfl⟩
  | like a b =>
    obtain ⟨_, -, hanswer⟩ := bind_ok hanswer
    obtain ⟨_, -, hanswer⟩ := bind_ok hanswer
    cases hanswer
    obtain ⟨_, -, heval⟩ := bind_ok heval
    obtain ⟨_, -, heval⟩ := bind_ok heval
    split at heval
    · cases heval
      exact ⟨_, rfl⟩
    · cases heval
      exact ⟨_, rfl⟩
  | has a b =>
    obtain ⟨_, -, hanswer⟩ := bind_ok hanswer
    obtain ⟨_, -, hanswer⟩ := bind_ok hanswer
    cases hanswer
    obtain ⟨_, -, heval⟩ := bind_ok heval
    obtain ⟨_, -, heval⟩ := bind_ok heval
    split at heval
    · cases heval
      exact ⟨_, rfl⟩
    · cases heval
      exact ⟨_, rfl⟩
  | inList a items =>
    obtain ⟨_, -, hanswer⟩ := bind_ok hanswer
    obtain ⟨_, -, hanswer⟩ := bind_ok hanswer
    cases hanswer
    obtain ⟨_, -, heval⟩ := bind_ok heval
    obtain ⟨_, -, heval⟩ := bind_ok heval
    cases heval
    exact ⟨_, rfl⟩
  | inSelect a get filter =>
    obtain ⟨_, -, hanswer⟩ := bind_ok hanswer
    obtain ⟨_, -, hanswer⟩ := bind_ok hanswer
    obtain ⟨_, -, hanswer⟩ := bind_ok hanswer
    cases hanswer
    obtain ⟨_, -, heval⟩ := bind_ok heval
    obtain ⟨_, -, heval⟩ := bind_ok heval
    cases heval
    exact ⟨_, rfl⟩
  | isNull a =>
    obtain ⟨_, -, hanswer⟩ := bind_ok hanswer
    cases hanswer
    obtain ⟨_, -, heval⟩ := bind_ok heval
    cases heval
    exact ⟨_, rfl⟩
  | _ => cases h

/-- Alike values are null alike, and alike of a claim's kind. -/
theorem Alike.isNull_eq {v w : Value} (h : Alike v w) : v.isNull = w.isNull := by
  rcases h with rfl | ⟨⟨a, rfl⟩, b, rfl⟩
  · rfl
  · rfl

theorem Alike.ofKind_eq {v w : Value} (h : Alike v w) (claim : Value) (above : Bool) :
    ofKind claim above v = ofKind claim above w := by
  rcases h with rfl | ⟨⟨a, rfl⟩, b, rfl⟩
  · rfl
  · cases claim <;> rfl

/-- A `like` whose pattern or escape is a bool is refused, or null. -/
theorem sqlLike_alike {fold : Option CaseFold} {h p p' e e' v w : Value} (hp : Alike p p')
    (he : Alike e e') (hv : sqlLike B fold h p e = .ok v) (hw : sqlLike B fold h p' e' = .ok w) :
    v = w := by
  have hbool : ∀ {p e v : Value}, ((∃ a, p = .bool a) ∨ ∃ a, e = .bool a) →
      sqlLike B fold h p e = .ok v → v = .null := by
    intro p e v hb hv
    unfold sqlLike at hv
    split at hv
    · rcases hb with ⟨_, hb⟩ | ⟨_, hb⟩ <;> cases hb
    · split at hv
      · cases hv
        rfl
      · cases hv
  rcases hp with rfl | ⟨hp, hp'⟩
  · rcases he with rfl | ⟨he, he'⟩
    · rw [hv] at hw
      cases hw
      rfl
    · rw [hbool (Or.inr he) hv, hbool (Or.inr he') hw]
  · rw [hbool (Or.inl hp) hv, hbool (Or.inl hp') hw]

/-- What of an expression is alike wherever it stands. -/
def Agrees (claims : List String) (values : List Value) (ctx : EvalCtx B)
    (rowsOf : String → List Row) (row : Row) (e : RuleExpr) : Prop :=
  claimsHeld claims e false = .ok () → ∀ (p q : Bool) (x y : Expr) (v w : Value),
    answered ctx rowsOf (bindHeld values e p) = .ok x →
    answered ctx rowsOf (bindHeld values e q) = .ok y →
    eval ctx row x = .ok v → eval ctx row y = .ok w → Alike v w

theorem Agrees.of_eq {e : RuleExpr} (h : ∀ p q, bindHeld values e p = bindHeld values e q) :
    Agrees claims values ctx rowsOf row e := by
  intro _ p q x y v w hx hy hv hw
  rw [h p q, hy] at hx
  cases hx
  rw [hw] at hv
  cases hv
  exact Or.inl rfl

theorem Agrees.of_isTest {e : RuleExpr} (h : isTest e = true) :
    Agrees claims values ctx rowsOf row e := by
  intro _ p q x y v w hx hy hv hw
  exact Or.inr ⟨eval_isTest (isTest_bindHeld h p) hx hv, eval_isTest (isTest_bindHeld h q) hy hw⟩

/-- A call of `like`, its arguments evaluated. -/
theorem eval_like {name : String} (hname : name = "like" ∨ name = "ilike") {x p : Expr}
    {es : List Expr} {v : Value} (h : eval ctx row (.call name (x :: p :: es)) = .ok v) :
    ∃ hay pattern escape, eval ctx row x = .ok hay ∧ eval ctx row p = .ok pattern ∧
      evalEscape ctx row es = .ok escape ∧
      sqlLike B ((foldedAs row x).or (if name = "ilike" then some .unicode else none)) hay pattern
        escape = .ok v := by
  have hcase : name ≠ "case" := by
    rcases hname with rfl | rfl <;> decide
  have hcall : eval ctx row (.call name (x :: p :: es)) = (do
      let h ← eval ctx row x
      let p ← eval ctx row p
      let e ← evalEscape ctx row es
      sqlLike B ((foldedAs row x).or (if name = "ilike" then some .unicode else none)) h p e) := by
    rw [eval]
    simp only [List.isEmpty_cons, Bool.false_and, if_neg hcase, if_pos hname]
    cases ctx.clock <;> rfl
  rw [hcall] at h
  obtain ⟨hay, hx, h⟩ := bind_ok h
  obtain ⟨pattern, hp, h⟩ := bind_ok h
  obtain ⟨escape, hes, h⟩ := bind_ok h
  exact ⟨hay, pattern, escape, hx, hp, hes, h⟩

theorem bind_okE {α β : Type} {x : Except String α} {f : α → Except String β} {b : β}
    (h : x >>= f = .ok b) : ∃ a, x = .ok a ∧ f a = .ok b := by
  cases x with
  | error e => cases h
  | ok a => exact ⟨a, rfl, h⟩

/-- What is accepted of a call: a `like` with no claim in its text, or a call with no claim. -/
theorem claimsHeld_call {name : String} {args : List RuleExpr} {cond : Bool}
    (h : claimsHeld claims (.call name args) cond = .ok ()) :
    (∃ first rest, args = first :: rest ∧ (name = "like" ∨ name = "ilike") ∧ rest ≠ [] ∧
      maxParam first = 0 ∧ claimsHeldAll claims rest = .ok ()) ∨ maxParams args = 0 := by
  have hnone : ∀ l : List RuleExpr, (∀ a ∈ l, ¬ decide (0 < maxParam a) = true) →
      maxParams l = 0 := by
    intro l
    induction l with
    | nil => exact fun _ => rfl
    | cons a l ih =>
      intro hall
      have ha : maxParam a = 0 := by simpa using hall a List.mem_cons_self
      rw [maxParams, ha, ih fun b hb => hall b (List.mem_cons_of_mem _ hb)]
      rfl
  cases args with
  | nil => exact Or.inr rfl
  | cons first rest =>
    rw [claimsHeld] at h
    split at h
    · next hlike =>
      obtain ⟨_, -, hall⟩ := bind_okE h
      exact Or.inl ⟨first, rest, rfl, hlike.1, hlike.2.1, hlike.2.2, hall⟩
    · split at h
      · cases h
      · next hfind => exact Or.inr (hnone _ (List.find?_eq_none.mp hfind))

theorem answeredAll_cons {e : RuleExpr} {es : List RuleExpr} {xs : List Expr}
    (h : answeredAll ctx rowsOf (e :: es) = .ok xs) :
    ∃ x rest, answered ctx rowsOf e = .ok x ∧ answeredAll ctx rowsOf es = .ok rest ∧
      xs = x :: rest := by
  obtain ⟨x, hx, h⟩ := bind_ok h
  obtain ⟨rest, hrest, h⟩ := bind_ok h
  cases h
  exact ⟨x, rest, hx, hrest, rfl⟩

/-- What is accepted of several operands is so of each. -/
theorem claimsHeldAll_mem : ∀ {es : List RuleExpr}, claimsHeldAll claims es = .ok () →
    ∀ e ∈ es, claimsHeld claims e false = .ok ()
  | [], _, _, h => absurd h List.not_mem_nil
  | e :: es, hall, _, h => by
    obtain ⟨_, he, hes⟩ := bind_okE hall
    rcases List.mem_cons.mp h with rfl | h
    · exact he
    · exact claimsHeldAll_mem hes _ h

/-- The escapes of two `like`s that stand otherwise. -/
theorem evalEscape_alike {es : List RuleExpr} {p q : Bool} {xs ys : List Expr} {v w : Value}
    (hall : ∀ e ∈ es, Agrees claims values ctx rowsOf row e)
    (hheld : claimsHeldAll claims es = .ok ())
    (hx : answeredAll ctx rowsOf (bindArgs values es p) = .ok xs)
    (hy : answeredAll ctx rowsOf (bindArgs values es q) = .ok ys)
    (hv : evalEscape ctx row xs = .ok v) (hw : evalEscape ctx row ys = .ok w) : Alike v w := by
  cases es with
  | nil =>
    cases hx
    cases hy
    cases hv
    cases hw
    exact Or.inl rfl
  | cons e es =>
    obtain ⟨x, xs, hone, hxs, rfl⟩ := answeredAll_cons hx
    obtain ⟨y, ys, hone', hys, rfl⟩ := answeredAll_cons hy
    cases es with
    | nil =>
      cases hxs
      cases hys
      have hmem := List.mem_cons_self (a := e) (l := [])
      exact hall e hmem (claimsHeldAll_mem hheld e hmem) p q x y v w hone hone' hv hw
    | cons e' es =>
      obtain ⟨x', xs, -, -, rfl⟩ := answeredAll_cons hxs
      cases hv

/-- What is accepted of a sum has no claim. -/
theorem claimsHeld_arith {op : ArithOp} {a b : RuleExpr} {cond : Bool}
    (h : claimsHeld claims (.arith op a b) cond = .ok ()) : maxParam (.arith op a b) = 0 := by
  rw [claimsHeld] at h
  split at h
  · cases h
  · next hno => exact Nat.eq_zero_of_not_pos hno

mutual

/-- **An operand is alike wherever it stands**: bound under an even number of `not`s and an odd
one. -/
theorem agrees : ∀ e : RuleExpr, Agrees claims values ctx rowsOf row e
  | .field _ => Agrees.of_eq fun _ _ => rfl
  | .lit _ => Agrees.of_eq fun _ _ => rfl
  | .param _ => Agrees.of_eq fun _ _ => rfl
  | .and _ _ => Agrees.of_isTest rfl
  | .or _ _ => Agrees.of_isTest rfl
  | .not _ => Agrees.of_isTest rfl
  | .cmp _ _ _ => Agrees.of_isTest rfl
  | .like _ _ => Agrees.of_isTest rfl
  | .has _ _ => Agrees.of_isTest rfl
  | .inList _ _ => Agrees.of_isTest rfl
  | .inSelect _ _ _ => Agrees.of_isTest rfl
  | .isNull _ => Agrees.of_isTest rfl
  | .arith op a b => fun hheld => Agrees.of_eq (fun p q => by
      have hclosed := claimsHeld_arith hheld
      rw [bindHeld_closed _ p hclosed, bindHeld_closed _ q hclosed]) hheld
  | .call name args => by
    intro hheld p q x y v w hx hy hv hw
    have hagree := agreesAll args
    rcases claimsHeld_call hheld with ⟨first, rest, hargs, hname, hrest, hfirst, hall⟩ | hclosed
    · subst hargs
      cases rest with
      | nil => exact absurd rfl hrest
      | cons second more =>
        obtain ⟨xs, hxs, hx⟩ := bind_ok hx
        obtain ⟨ys, hys, hy⟩ := bind_ok hy
        cases hx
        cases hy
        obtain ⟨x, xs₁, hfirstX, hxs₁, rfl⟩ := answeredAll_cons hxs
        obtain ⟨y, ys₁, hfirstY, hys₁, rfl⟩ := answeredAll_cons hys
        obtain ⟨x', xs₂, hx', hxs₂, rfl⟩ := answeredAll_cons hxs₁
        obtain ⟨y', ys₂, hy', hys₂, rfl⟩ := answeredAll_cons hys₁
        rw [bindHeld_closed first p hfirst] at hfirstX
        rw [bindHeld_closed first q hfirst, hfirstX] at hfirstY
        cases hfirstY
        obtain ⟨hay, pattern, escape, hhay, hpattern, hescape, hv⟩ := eval_like hname hv
        obtain ⟨hay', pattern', escape', hhay', hpattern', hescape', hw⟩ := eval_like hname hw
        rw [hhay] at hhay'
        cases hhay'
        have hsecond : second ∈ first :: second :: more :=
          List.mem_cons_of_mem _ List.mem_cons_self
        have hlike := hagree second hsecond (claimsHeldAll_mem hall second List.mem_cons_self) p q
          x' y' pattern pattern' hx' hy' hpattern hpattern'
        obtain ⟨_, -, hmore⟩ := bind_okE hall
        have hesc := evalEscape_alike
          (fun e he => hagree e (List.mem_cons_of_mem _ (List.mem_cons_of_mem _ he))) hmore hxs₂ hys₂
          hescape hescape'
        exact Or.inl (sqlLike_alike hlike hesc hv hw)
    · rw [bindHeld_closed (.call name args) p hclosed] at hx
      rw [bindHeld_closed (.call name args) q hclosed, hx] at hy
      cases hy
      rw [hv] at hw
      cases hw
      exact Or.inl rfl
termination_by structural e => e

theorem agreesAll : ∀ es : List RuleExpr, ∀ e ∈ es, Agrees claims values ctx rowsOf row e
  | [], _, h => absurd h List.not_mem_nil
  | e :: es, e', h => by
    rcases List.mem_cons.mp h with heq | h
    · rw [heq]
      exact agrees e
    · exact agreesAll es e' h
termination_by structural es => es

end

end Operands

/-! ## 10. What is bound answers as it is written -/

section Follows

variable {B : Build} {ctx : EvalCtx B} {rowsOf : String → List Row} {claims : List String}
  {values : List Value}

theorem eq_of_asParam {e : RuleExpr} {k : Nat} (h : asParam e = some k) : e = .param k := by
  cases e with
  | param j => cases h; rfl
  | _ => cases h

/-- The sides of an ordered comparison with a claim. -/
theorem claimSide_some {op : CmpOp} {a b : RuleExpr} {k : Nat} {below turned : Bool}
    (h : claimSide op a b = some (k, below, turned)) :
    Asks (if turned then op.flip else op) below ∧
      (if turned then a else b) = .param k ∧ readAlone k (.cmp op a b) = true := by
  have hown : readAlone k (.param k) = true := beq_iff_eq.mpr rfl
  have hasks : ∀ op : CmpOp, ordered op = true →
      Asks op (op == .lt || op == .le) ∧ Asks op.flip (op == .gt || op == .ge) := by
    intro op hop
    cases op with
    | eq => cases hop
    | ne => cases hop
    | lt => exact ⟨Or.inl rfl, Or.inl rfl⟩
    | le => exact ⟨Or.inr rfl, Or.inr rfl⟩
    | gt => exact ⟨Or.inl rfl, Or.inl rfl⟩
    | ge => exact ⟨Or.inr rfl, Or.inr rfl⟩
  unfold claimSide at h
  split at h
  · cases h
  · next hop =>
    have hop : ordered op = true := by simpa using hop
    split at h
    · next k' hb =>
      cases h
      rw [eq_of_asParam hb]
      exact ⟨(hasks op hop).1, rfl, Bool.or_eq_true_iff.mpr (Or.inr hown)⟩
    · next k' ha =>
      cases h
      rw [eq_of_asParam ha]
      exact ⟨(hasks op hop).2, rfl, Bool.or_eq_true_iff.mpr (Or.inl hown)⟩
    · cases h

/-- An ordered comparison with a claim, seen from the other side. -/
theorem eval_claimCmp {row : Row} (op : CmpOp) {turned : Bool} {x y : Expr} {claim v : Value}
    (hclaim : (if turned then x else y) = .lit claim)
    (hother : eval ctx row (if turned then y else x) = .ok v) :
    ∃ order, eval ctx row (.cmp op x y) =
      .ok (.bool (cmpUnder B (if turned then op.flip else op) v claim order)) := by
  have hcmp : eval ctx row (.cmp op x y) = (do
      let l ← eval ctx row x
      let r ← eval ctx row y
      pure (.bool (cmpSides B row op x y l r))) := rfl
  cases turned with
  | false =>
    have hy : y = .lit claim := hclaim
    have hx : eval ctx row x = .ok v := hother
    rw [hcmp, hx, hy]
    exact ⟨_, rfl⟩
  | true =>
    have hx : x = .lit claim := hclaim
    have hy : eval ctx row y = .ok v := hother
    have hflip : ∀ order, cmpUnder B op claim v order = cmpUnder B op.flip v claim order :=
      fun order => (cmpUnder_flip B op claim v order).symm
    rw [hcmp, hy, hx]
    exact ⟨_, congrArg (Except.ok ∘ Value.bool) (hflip _)⟩

/-- A comparison whose other side fails fails. -/
theorem eval_claimCmp_error {row : Row} {op : CmpOp} {turned : Bool} {x y : Expr} {claim w : Value}
    {err : Error} (hclaim : (if turned then x else y) = .lit claim)
    (hother : eval ctx row (if turned then y else x) = .error err) :
    eval ctx row (.cmp op x y) ≠ .ok w := by
  intro h
  obtain ⟨l, hx, h⟩ := bind_ok h
  obtain ⟨r, hy, -⟩ := bind_ok h
  cases turned with
  | false =>
    have hx' : eval ctx row x = .error err := hother
    rw [hx] at hx'
    cases hx'
  | true =>
    have hy' : eval ctx row y = .error err := hother
    rw [hy] at hy'
    cases hy'

/-- The lower edge reads the other side. -/
theorem reads_of_lowEdge {row : Row} {claim w : Value} {lo : CmpOp × Value} {bound : RuleExpr}
    {x l : Expr} (hx : answered ctx rowsOf bound = .ok x)
    (hl : answered ctx rowsOf (lowEdge claim lo bound) = .ok l) (hw : eval ctx row l = .ok w) :
    ∃ v, eval ctx row x = .ok v := by
  have hfirst : ∀ {l : Expr} {w : Value},
      answered ctx rowsOf (.cmp lo.1 bound (.lit lo.2)) = .ok l → eval ctx row l = .ok w →
      ∃ v, eval ctx row x = .ok v := by
    intro l w hl hw
    rw [answered, hx] at hl
    cases hl
    obtain ⟨v, hv, -⟩ := bind_ok hw
    exact ⟨v, hv⟩
  have heq : lowEdge claim lo bound = .cmp lo.1 bound (.lit lo.2) ∨
      lowEdge claim lo bound = .or (.cmp lo.1 bound (.lit lo.2))
        (.cmp .ge bound (.lit (.text earliest))) := by
    unfold lowEdge
    split
    · split
      · exact Or.inr rfl
      · exact Or.inl rfl
    · exact Or.inl rfl
  rcases heq with heq | heq
  · rw [heq] at hl
    exact hfirst hl hw
  · rw [heq] at hl
    obtain ⟨a, ha, hl⟩ := bind_ok hl
    obtain ⟨b, -, hl⟩ := bind_ok hl
    cases hl
    obtain ⟨v, hv, -⟩ := bind_ok hw
    exact hfirst ha hv

/-- What is held under an odd number of `not`s reads the other side. -/
theorem reads_of_held {row : Row} {claim w : Value} {below : Bool} {bound held : RuleExpr}
    {h : Expr} (hheld : kindHeld claim below bound false = some held)
    (hanswer : answered ctx rowsOf held = .ok h) :
    ∃ x, answered ctx rowsOf bound = .ok x ∧
      (eval ctx row h = .ok w → ∃ v, eval ctx row x = .ok v) := by
  unfold kindHeld at hheld
  split at hheld
  · cases hheld
  · next lo hi he =>
    cases hheld
    obtain ⟨outside, houtside, hanswer⟩ := bind_ok hanswer
    obtain ⟨present, hpresent, hanswer⟩ := bind_ok hanswer
    cases hanswer
    obtain ⟨null, hnull, -⟩ := bind_ok hpresent
    obtain ⟨x, hx, -⟩ := bind_ok hnull
    refine ⟨x, hx, fun hw => ?_⟩
    obtain ⟨both, hboth, houtside⟩ := bind_ok houtside
    obtain ⟨l, hl, hboth⟩ := bind_ok hboth
    obtain ⟨u, -, hboth⟩ := bind_ok hboth
    cases hboth
    cases houtside
    obtain ⟨_, hw, -⟩ := bind_ok hw
    obtain ⟨_, hw, -⟩ := bind_ok hw
    obtain ⟨_, hw, -⟩ := bind_ok hw
    exact reads_of_lowEdge hx hl hw

section Comparison

variable {row : Row} {op : CmpOp} {a b : RuleExpr} {pass : Bool} {x y z : Expr} {k : Nat}
  {below turned : Bool}

/-- What is written of an ordered comparison with a claim. -/
theorem written_claimCmp {kind : Value → Bool → Value → Bool} {v : Value}
    (ha : written ctx rowsOf kind values row a pass = .ok x)
    (hb : written ctx rowsOf kind values row b pass = .ok y)
    (hside : claimSide op a b = some (k, below, turned))
    (hv : eval ctx row (if turned then y else x) = .ok v) :
    written ctx rowsOf kind values row (.cmp op a b) pass =
      .ok (if v.isNull || kind (claimValue values k) (pass && !below) v then .cmp op x y
        else .lit (.bool (!pass))) := by
  rw [written, ha, hb]
  simp only [Result.ok_bind, hside, hv]
  split <;> rfl

/-- And where the other side fails. -/
theorem written_claimCmp_error {kind : Value → Bool → Value → Bool} {err : Error}
    (ha : written ctx rowsOf kind values row a pass = .ok x)
    (hb : written ctx rowsOf kind values row b pass = .ok y)
    (hside : claimSide op a b = some (k, below, turned))
    (hv : eval ctx row (if turned then y else x) = .error err) :
    written ctx rowsOf kind values row (.cmp op a b) pass = .ok (.cmp op x y) := by
  rw [written, ha, hb]
  simp only [Result.ok_bind, hside, hv]
  rfl

/-- A comparison with what holds it. -/
def heldAs (pass : Bool) (cmp : RuleExpr) : Option RuleExpr → RuleExpr
  | some held => if pass then .and cmp held else .or cmp held
  | none => cmp

/-- An ordered comparison with a claim, bound. -/
theorem bindHeld_claimCmp (hside : claimSide op a b = some (k, below, turned)) :
    bindHeld values (.cmp op a b) pass =
      heldAs pass (.cmp op (bindHeld values a pass) (bindHeld values b pass))
        (kindHeld (claimValue values k) below (bindHeld values (if turned then b else a) true)
          pass) := by
  rw [bindHeld]
  simp only [hside]
  cases turned <;> rfl

/-- What is held answers the inner `get`s of the comparison. -/
theorem heldAs_cmp {cmp : RuleExpr} {held : Option RuleExpr}
    (hz : answered ctx rowsOf (heldAs pass cmp held) = .ok z) :
    ∃ m, answered ctx rowsOf cmp = .ok m := by
  cases held with
  | none => exact ⟨z, hz⟩
  | some held =>
    cases pass with
    | true =>
      obtain ⟨m, hm, -⟩ := bind_ok hz
      exact ⟨m, hm⟩
    | false =>
      obtain ⟨m, hm, -⟩ := bind_ok hz
      exact ⟨m, hm⟩

/-- What is held fails where the comparison does. -/
theorem heldAs_reads {claim w : Value} {err : Error} {cmp : RuleExpr} {held : Option RuleExpr}
    (hclaim : (if turned then x else y) = .lit claim)
    (hother : eval ctx row (if turned then y else x) = .error err)
    (hcmp : answered ctx rowsOf cmp = .ok (.cmp op x y))
    (hz : answered ctx rowsOf (heldAs pass cmp held) = .ok z) : eval ctx row z ≠ .ok w := by
  have hfails : ∀ w, eval ctx row (.cmp op x y) ≠ .ok w :=
    fun w => eval_claimCmp_error hclaim hother
  intro hw
  cases held with
  | none =>
    rw [heldAs, hcmp] at hz
    cases hz
    exact hfails w hw
  | some held =>
    -- the comparison is the first side of either
    cases pass with
    | true =>
      rw [heldAs, if_pos rfl] at hz
      obtain ⟨m, hm, hz⟩ := bind_ok hz
      obtain ⟨h, -, hz⟩ := bind_ok hz
      rw [hcmp] at hm
      cases hm
      cases hz
      obtain ⟨u, hu, -⟩ := bind_ok hw
      exact hfails u hu
    | false =>
      rw [heldAs, if_neg Bool.false_ne_true] at hz
      obtain ⟨m, hm, hz⟩ := bind_ok hz
      obtain ⟨h, -, hz⟩ := bind_ok hz
      rw [hcmp] at hm
      cases hm
      cases hz
      obtain ⟨u, hu, -⟩ := bind_ok hw
      exact hfails u hu

variable (hD : NoWeights B.collation)
include hD

/-- **Under an even number of `not`s** an ordered comparison with a claim is held as it is
written. -/
theorem heldAs_even {claim v : Value} {bound cmp : RuleExpr} (hc : usable claim false = true)
    (hasks : Asks (if turned then op.flip else op) below)
    (hclaim : (if turned then x else y) = .lit claim)
    (hother : eval ctx row (if turned then y else x) = .ok v)
    (hbound : answered ctx rowsOf bound = .ok (if turned then y else x))
    (hcmp : answered ctx rowsOf cmp = .ok (.cmp op x y))
    (hz : answered ctx rowsOf (heldAs true cmp (kindHeld claim below bound true)) = .ok z) :
    eval ctx row z = eval ctx row
      (if v.isNull || ofKind claim (!below) v then .cmp op x y else .lit (.bool false)) := by
  obtain ⟨order, hm⟩ := eval_claimCmp op hclaim hother
  have hvalue : eval ctx row
      (if v.isNull || ofKind claim (!below) v then .cmp op x y else .lit (.bool false)) =
      .ok (.bool (if v.isNull || ofKind claim (!below) v then
        cmpUnder B (if turned then op.flip else op) v claim order else false)) := by
    split
    · exact hm
    · rfl
  rw [hvalue]
  rcases held_even hD hc hasks hbound hother hm with ⟨hnone, heval⟩ | ⟨held, h, hsome, hh, heval⟩
  · rw [hnone, heldAs, hcmp] at hz
    cases hz
    exact heval
  · rw [hsome, heldAs, if_pos rfl, answered, hcmp, hh] at hz
    cases hz
    exact heval

/-- **Under an odd number** it is held as it is written, the other side alike. -/
theorem heldAs_odd {claim v w : Value} {bound cmp : RuleExpr} (hc : usable claim false = true)
    (hclaim : (if turned then x else y) = .lit claim)
    (hother : eval ctx row (if turned then y else x) = .ok v)
    (hbound : ∀ u u', answered ctx rowsOf bound = .ok u → eval ctx row u = .ok u' → Alike v u')
    (hcmp : answered ctx rowsOf cmp = .ok (.cmp op x y))
    (hz : answered ctx rowsOf (heldAs false cmp (kindHeld claim below bound false)) = .ok z)
    (hw : eval ctx row z = .ok w) :
    eval ctx row
      (if v.isNull || ofKind claim false v then .cmp op x y else .lit (.bool true)) = .ok w := by
  obtain ⟨order, hm⟩ := eval_claimCmp op hclaim hother
  have hvalue : eval ctx row
      (if v.isNull || ofKind claim false v then .cmp op x y else .lit (.bool true)) =
      .ok (.bool (if v.isNull || ofKind claim false v then
        cmpUnder B (if turned then op.flip else op) v claim order else true)) := by
    split
    · exact hm
    · rfl
  rw [hvalue]
  obtain ⟨lo, hi, he⟩ := edges_usable hc
  have hsome : ∃ held, kindHeld claim below bound false = some held := by
    unfold kindHeld
    rw [he]
    exact ⟨_, rfl⟩
  obtain ⟨held, hsome⟩ := hsome
  rw [hsome, heldAs, if_neg Bool.false_ne_true] at hz
  obtain ⟨m, hm', hz⟩ := bind_ok hz
  obtain ⟨h, hh, hz⟩ := bind_ok hz
  rw [hcmp] at hm'
  cases hm'
  cases hz
  cases htrue : cmpUnder B (if turned then op.flip else op) v claim order with
  | true =>
    -- what holds it is not read
    rw [htrue] at hm
    have heval : eval ctx row (.or (.cmp op x y) h) = .ok (.bool true) := by
      rw [eval, hm]
      rfl
    rw [heval] at hw
    rw [ite_self]
    exact hw
  | false =>
    rw [htrue] at hm
    have hread : ∃ w, eval ctx row h = .ok w := by
      obtain ⟨u', hu', hrest⟩ := bind_ok hw
      rw [hm] at hu'
      cases hu'
      obtain ⟨u, hu, -⟩ := bind_ok hrest
      exact ⟨u, hu⟩
    obtain ⟨u, hu⟩ := hread
    obtain ⟨x', hx', hreads⟩ := reads_of_held (w := u) hsome hh
    obtain ⟨u', hu'⟩ := hreads hu
    obtain ⟨held', h', hsome', hh', heval⟩ := held_odd hD hc below hx' hu' hm
    rw [hsome] at hsome'
    cases hsome'
    rw [hh] at hh'
    cases hh'
    have halike := hbound x' u' hx' hu'
    rw [heval, ← halike.isNull_eq, ← halike.ofKind_eq] at hw
    exact hw

end Comparison

end Follows

/-! ## 11. The whole filter -/

section Whole

variable {B : Build} (ctx : EvalCtx B) (rowsOf : String → List Row) (claims : List String)
  (values : List Value)

/-- What is bound of an expression evaluates as what is written of it, where it does. -/
def Answers (e : RuleExpr) : Prop :=
  claimsHeld claims e true = .ok () → ∀ (row : Row) (pass : Bool) (x : Expr),
    answered ctx rowsOf (bindHeld values e pass) = .ok x →
    ∃ y, written ctx rowsOf ofKind values row e pass = .ok y ∧
      ∀ v, eval ctx row x = .ok v → eval ctx row y = .ok v

/-- What is bound of an operand is what is written of it. -/
def SameOperand (e : RuleExpr) : Prop :=
  claimsHeld claims e false = .ok () → ∀ (row : Row) (pass : Bool) (x : Expr),
    answered ctx rowsOf (bindHeld values e pass) = .ok x →
    written ctx rowsOf ofKind values row e pass = .ok x

/-- Both. -/
def Follows (e : RuleExpr) : Prop :=
  (∀ k, readAlone k e = true → usable (claimValue values k) false = true) →
    SameOperand ctx rowsOf claims values e ∧ Answers ctx rowsOf claims values e

variable {ctx rowsOf claims values}

/-- What is no condition of its own is one as an operand. -/
theorem SameOperand.follows {e : RuleExpr}
    (hheld : claimsHeld claims e true = claimsHeld claims e false)
    (h : SameOperand ctx rowsOf claims values e) :
    SameOperand ctx rowsOf claims values e ∧ Answers ctx rowsOf claims values e :=
  ⟨h, fun hok row pass x hx =>
    ⟨x, h (hheld ▸ hok) row pass x hx, fun _ hv => hv⟩⟩

/-- The sides of an operand of two. -/
theorem SameOperand.two {a b e : RuleExpr} {f : RuleExpr → RuleExpr → RuleExpr}
    {g : Expr → Expr → Expr}
    (ha : SameOperand ctx rowsOf claims values a) (hb : SameOperand ctx rowsOf claims values b)
    (hheld : claimsHeld claims e false = .ok () →
      claimsHeld claims a false = .ok () ∧ claimsHeld claims b false = .ok ())
    (hbind : ∀ pass, bindHeld values e pass = f (bindHeld values a pass) (bindHeld values b pass))
    (hanswer : ∀ a b, answered ctx rowsOf (f a b) =
      (do pure (g (← answered ctx rowsOf a) (← answered ctx rowsOf b))))
    (hwritten : ∀ row pass, written ctx rowsOf ofKind values row e pass =
      (do
        pure (g (← written ctx rowsOf ofKind values row a pass)
          (← written ctx rowsOf ofKind values row b pass)))) :
    SameOperand ctx rowsOf claims values e := by
  intro hok row pass x hx
  obtain ⟨hoka, hokb⟩ := hheld hok
  rw [hbind, hanswer] at hx
  obtain ⟨y, hy, hx⟩ := bind_ok hx
  obtain ⟨z, hz, hx⟩ := bind_ok hx
  cases hx
  rw [hwritten, ha hoka row pass y hy, hb hokb row pass z hz]
  rfl

/-- The side of an operand of one. -/
theorem SameOperand.one {a e : RuleExpr} {f : RuleExpr → RuleExpr} {g : Expr → Expr}
    (ha : SameOperand ctx rowsOf claims values a)
    (hheld : claimsHeld claims e false = .ok () → claimsHeld claims a false = .ok ())
    (turn : Bool → Bool) (hbind : ∀ pass, bindHeld values e pass = f (bindHeld values a (turn pass)))
    (hanswer : ∀ a, answered ctx rowsOf (f a) = (do pure (g (← answered ctx rowsOf a))))
    (hwritten : ∀ row pass, written ctx rowsOf ofKind values row e pass =
      (do pure (g (← written ctx rowsOf ofKind values row a (turn pass))))) :
    SameOperand ctx rowsOf claims values e := by
  intro hok row pass x hx
  rw [hbind, hanswer] at hx
  obtain ⟨y, hy, hx⟩ := bind_ok hx
  cases hx
  rw [hwritten, ha (hheld hok) row (turn pass) y hy]
  rfl

theorem two_ok {a b : RuleExpr} {cond : Bool}
    (h : (do claimsHeld claims a cond; claimsHeld claims b cond) = .ok ()) :
    claimsHeld claims a cond = .ok () ∧ claimsHeld claims b cond = .ok () := by
  obtain ⟨_, ha, hb⟩ := bind_okE h
  exact ⟨ha, hb⟩

/-- `and` of what evaluates as two others. -/
theorem eval_and_of {row : Row} {x x' y y' : Expr} {v : Value}
    (hx : ∀ v, eval ctx row x = .ok v → eval ctx row x' = .ok v)
    (hy : ∀ v, eval ctx row y = .ok v → eval ctx row y' = .ok v)
    (h : eval ctx row (.and x y) = .ok v) : eval ctx row (.and x' y') = .ok v := by
  obtain ⟨l, hl, h⟩ := bind_ok h
  rw [eval, hx l hl]
  cases ht : l.truthy with
  | false => rw [ht] at h; simpa [ht] using h
  | true =>
    rw [ht] at h
    obtain ⟨r, hr, h⟩ := bind_ok h
    simpa [ht, hy r hr] using h

theorem eval_or_of {row : Row} {x x' y y' : Expr} {v : Value}
    (hx : ∀ v, eval ctx row x = .ok v → eval ctx row x' = .ok v)
    (hy : ∀ v, eval ctx row y = .ok v → eval ctx row y' = .ok v)
    (h : eval ctx row (.or x y) = .ok v) : eval ctx row (.or x' y') = .ok v := by
  obtain ⟨l, hl, h⟩ := bind_ok h
  rw [eval, hx l hl]
  cases ht : l.truthy with
  | true => rw [ht] at h; simpa [ht] using h
  | false =>
    rw [ht] at h
    obtain ⟨r, hr, h⟩ := bind_ok h
    simpa [ht, hy r hr] using h

theorem eval_not_of {row : Row} {x x' : Expr} {v : Value}
    (hx : ∀ v, eval ctx row x = .ok v → eval ctx row x' = .ok v)
    (h : eval ctx row (.not x) = .ok v) : eval ctx row (.not x') = .ok v := by
  obtain ⟨l, hl, h⟩ := bind_ok h
  rw [eval, hx l hl]
  exact h

/-- A claim alone is no condition. -/
theorem claimSide_value {op : CmpOp} {a b : RuleExpr}
    (h : claimsHeld claims (.cmp op a b) false = .ok ()) : claimSide op a b = none := by
  rw [claimsHeld] at h
  split at h
  · cases h
  · next hno =>
    unfold claimSide
    split
    · rfl
    · next hop =>
      have hop : ordered op = true := by simpa using hop
      split
      · next k hb => rw [hop, hb] at hno; simp at hno
      · next k hb ha => rw [hop, ha] at hno; simp at hno
      · rfl

theorem claimsHeld_cmp {op : CmpOp} {a b : RuleExpr} {cond : Bool}
    (h : claimsHeld claims (.cmp op a b) cond = .ok ()) :
    claimsHeld claims a false = .ok () ∧ claimsHeld claims b false = .ok () := by
  rw [claimsHeld] at h
  split at h
  · cases h
  · exact two_ok h

/-- The rows a test keeps, another keeps that tells what it does. -/
theorem keepRows_of {test test' : Row → Result Bool}
    (h : ∀ r b, test r = .ok b → test' r = .ok b) :
    ∀ {rows kept : List Row}, keepRows test rows = .ok kept → keepRows test' rows = .ok kept
  | [], _, hk => hk
  | r :: rs, kept, hk => by
    obtain ⟨b, hb, hk⟩ := bind_ok hk
    rw [keepRows, h r b hb]
    cases b with
    | false => exact keepRows_of h hk
    | true =>
      obtain ⟨rest, hrest, hk⟩ := bind_ok hk
      cases hk
      simp [keepRows_of h hrest]

theorem answeredAll_append {es fs : List RuleExpr} {xs : List Expr}
    (h : answeredAll ctx rowsOf (es ++ fs) = .ok xs) :
    ∃ ys zs, answeredAll ctx rowsOf es = .ok ys ∧ answeredAll ctx rowsOf fs = .ok zs ∧
      xs = ys ++ zs := by
  induction es generalizing xs with
  | nil => exact ⟨[], xs, rfl, h, rfl⟩
  | cons e es ih =>
    obtain ⟨x, rest, hx, hrest, rfl⟩ := answeredAll_cons h
    obtain ⟨ys, zs, hys, hzs, rfl⟩ := ih hrest
    refine ⟨x :: ys, zs, ?_, hzs, rfl⟩
    rw [answeredAll, hx, hys]
    rfl

theorem answeredAll_lits (l : List Value) :
    answeredAll ctx rowsOf (l.map .lit) = .ok (l.map .lit) := by
  induction l with
  | nil => rfl
  | cons v l ih =>
    rw [List.map_cons, answeredAll, ih]
    rfl

/-- What is accepted of a sum is so of its sides. -/
theorem claimsHeld_sides {op : ArithOp} {a b : RuleExpr} {cond : Bool}
    (h : claimsHeld claims (.arith op a b) cond = .ok ()) :
    claimsHeld claims a false = .ok () ∧ claimsHeld claims b false = .ok () := by
  rw [claimsHeld] at h
  split at h
  · cases h
  · exact two_ok h

/-- What is accepted of a call is so of its arguments. -/
theorem claimsHeld_args {name : String} {args : List RuleExpr} {cond : Bool}
    (h : claimsHeld claims (.call name args) cond = .ok ()) :
    claimsHeldAll claims args = .ok () := by
  cases args with
  | nil => rfl
  | cons first rest =>
    rw [claimsHeld] at h
    split at h
    · exact h
    · split at h
      · cases h
      · exact h

/-- **A comparison.** -/
theorem follows_cmp (hD : NoWeights B.collation) {op : CmpOp} {a b : RuleExpr}
    (hc : ∀ k, readAlone k (.cmp op a b) = true → usable (claimValue values k) false = true)
    (ha : SameOperand ctx rowsOf claims values a) (hb : SameOperand ctx rowsOf claims values b) :
    SameOperand ctx rowsOf claims values (.cmp op a b) ∧
      Answers ctx rowsOf claims values (.cmp op a b) := by
  have hplain : claimSide op a b = none → ∀ pass,
      bindHeld values (.cmp op a b) pass =
        .cmp op (bindHeld values a pass) (bindHeld values b pass) := by
    intro hside pass
    rw [bindHeld]
    simp only [hside]
  have hnone : claimSide op a b = none → ∀ cond, claimsHeld claims (.cmp op a b) cond = .ok () →
      ∀ row pass x, answered ctx rowsOf (bindHeld values (.cmp op a b) pass) = .ok x →
        written ctx rowsOf ofKind values row (.cmp op a b) pass = .ok x := by
    intro hside cond hok row pass x hx
    obtain ⟨hoka, hokb⟩ := claimsHeld_cmp hok
    rw [hplain hside] at hx
    obtain ⟨y, hy, hx⟩ := bind_ok hx
    obtain ⟨z, hz, hx⟩ := bind_ok hx
    cases hx
    rw [written, ha hoka row pass y hy, hb hokb row pass z hz]
    simp only [Result.ok_bind, hside]
    rfl
  refine ⟨fun hok => hnone (claimSide_value hok) false hok, fun hok row pass z hz => ?_⟩
  cases hside : claimSide op a b with
  | none => exact ⟨z, hnone hside true hok row pass z hz, fun _ hv => hv⟩
  | some side =>
    obtain ⟨k, below, turned⟩ := side
    obtain ⟨hoka, hokb⟩ := claimsHeld_cmp hok
    obtain ⟨hasks, hparam, hread⟩ := claimSide_some hside
    rw [bindHeld_claimCmp hside] at hz
    have hcmp : ∃ x y, answered ctx rowsOf (bindHeld values a pass) = .ok x ∧
        answered ctx rowsOf (bindHeld values b pass) = .ok y := by
      obtain ⟨m, hm⟩ := heldAs_cmp hz
      obtain ⟨x, hx, hm⟩ := bind_ok hm
      obtain ⟨y, hy, -⟩ := bind_ok hm
      exact ⟨x, y, hx, hy⟩
    obtain ⟨x, y, hx, hy⟩ := hcmp
    have hcmp : answered ctx rowsOf
        (.cmp op (bindHeld values a pass) (bindHeld values b pass)) = .ok (.cmp op x y) := by
      rw [answered, hx, hy]
      rfl
    have hwx := ha hoka row pass x hx
    have hwy := hb hokb row pass y hy
    have hclaim : (if turned then x else y) = .lit (claimValue values k) := by
      cases turned with
      | false =>
        have hparam : b = .param k := hparam
        rw [hparam] at hy
        cases hy
        rfl
      | true =>
        have hparam : a = .param k := hparam
        rw [hparam] at hx
        cases hx
        rfl
    cases hother : eval ctx row (if turned then y else x) with
    | error err =>
      exact ⟨_, written_claimCmp_error hwx hwy hside hother,
        fun w hw => absurd hw (heldAs_reads hclaim hother hcmp hz)⟩
    | ok v =>
      refine ⟨_, written_claimCmp hwx hwy hside hother, fun w hw => ?_⟩
      cases pass with
      | true =>
        have hbound : answered ctx rowsOf (bindHeld values (if turned then b else a) true) =
            .ok (if turned then y else x) := by
          cases turned with
          | false => exact hx
          | true => exact hy
        rw [heldAs_even hD (hc k hread) hasks hclaim hother hbound hcmp hz] at hw
        exact hw
      | false =>
        -- the other side is held as it stands under an even number
        have hbound : ∀ u u',
            answered ctx rowsOf (bindHeld values (if turned then b else a) true) = .ok u →
            eval ctx row u = .ok u' → Alike v u' := by
          intro u u' hu hu'
          cases turned with
          | false => exact agrees a hoka false true x u v u' hx hu hother hu'
          | true => exact agrees b hokb false true y u v u' hy hu hother hu'
        exact heldAs_odd hD (hc k hread) hclaim hother hbound hcmp hz hw

mutual

/-- **What is bound follows hD what is written**, inner `get`s and all. -/
theorem follows (hD : NoWeights B.collation) : ∀ e : RuleExpr, Follows ctx rowsOf claims values e
  | .param _ => fun _ => SameOperand.follows rfl fun _ _ _ _ hx => by cases hx; rfl
  | .field _ => fun _ => SameOperand.follows rfl fun _ _ _ _ hx => by cases hx; rfl
  | .lit _ => fun _ => SameOperand.follows rfl fun _ _ _ _ hx => by cases hx; rfl
  | .and a b => fun hc => by
    obtain ⟨hsa, haa⟩ := follows hD a fun k hk => hc k (Bool.or_eq_true_iff.mpr (Or.inl hk))
    obtain ⟨hsb, hab⟩ := follows hD b fun k hk => hc k (Bool.or_eq_true_iff.mpr (Or.inr hk))
    refine ⟨SameOperand.two hsa hsb two_ok (fun _ => rfl) (fun _ _ => rfl) (fun _ _ => rfl),
      fun hok row pass x hx => ?_⟩
    obtain ⟨hoka, hokb⟩ := two_ok hok
    obtain ⟨y, hy, hx⟩ := bind_ok hx
    obtain ⟨z, hz, hx⟩ := bind_ok hx
    cases hx
    obtain ⟨y', hy', heval⟩ := haa hoka row pass y hy
    obtain ⟨z', hz', heval'⟩ := hab hokb row pass z hz
    refine ⟨.and y' z', ?_, fun v hv => eval_and_of heval heval' hv⟩
    rw [written, hy', hz']
    rfl
  | .or a b => fun hc => by
    obtain ⟨hsa, haa⟩ := follows hD a fun k hk => hc k (Bool.or_eq_true_iff.mpr (Or.inl hk))
    obtain ⟨hsb, hab⟩ := follows hD b fun k hk => hc k (Bool.or_eq_true_iff.mpr (Or.inr hk))
    refine ⟨SameOperand.two hsa hsb two_ok (fun _ => rfl) (fun _ _ => rfl) (fun _ _ => rfl),
      fun hok row pass x hx => ?_⟩
    obtain ⟨hoka, hokb⟩ := two_ok hok
    obtain ⟨y, hy, hx⟩ := bind_ok hx
    obtain ⟨z, hz, hx⟩ := bind_ok hx
    cases hx
    obtain ⟨y', hy', heval⟩ := haa hoka row pass y hy
    obtain ⟨z', hz', heval'⟩ := hab hokb row pass z hz
    refine ⟨.or y' z', ?_, fun v hv => eval_or_of heval heval' hv⟩
    rw [written, hy', hz']
    rfl
  | .not a => fun hc => by
    obtain ⟨hsa, haa⟩ := follows hD a hc
    refine ⟨SameOperand.one hsa id (!·) (fun _ => rfl) (fun _ => rfl) (fun _ _ => rfl),
      fun hok row pass x hx => ?_⟩
    obtain ⟨y, hy, hx⟩ := bind_ok hx
    cases hx
    obtain ⟨y', hy', heval⟩ := haa hok row (!pass) y hy
    refine ⟨.not y', ?_, fun v hv => eval_not_of heval hv⟩
    rw [written, hy']
    rfl
  | .cmp op a b => fun hc => follows_cmp hD hc
      (follows hD a fun k hk => hc k (Bool.or_eq_true_iff.mpr (Or.inl hk))).1
      (follows hD b fun k hk => hc k (Bool.or_eq_true_iff.mpr (Or.inr hk))).1
  | .like a b => fun hc => SameOperand.follows rfl (SameOperand.two
      (follows hD a fun k hk => hc k (Bool.or_eq_true_iff.mpr (Or.inl hk))).1
      (follows hD b fun k hk => hc k (Bool.or_eq_true_iff.mpr (Or.inr hk))).1
      two_ok (fun _ => rfl) (fun _ _ => rfl) (fun _ _ => rfl))
  | .has a b => fun hc => by
    have ha : SameOperand ctx rowsOf claims values a := by
      cases hparam : asParam a with
      | some j =>
        rw [eq_of_asParam hparam]
        exact fun _ _ _ _ hx => by cases hx; rfl
      | none =>
        exact (follows hD a fun k hk => hc k (Bool.or_eq_true_iff.mpr (Or.inl
          (Bool.and_eq_true_iff.mpr ⟨by rw [hparam]; rfl, hk⟩)))).1
    exact SameOperand.follows rfl (SameOperand.two ha
      (follows hD b fun k hk => hc k (Bool.or_eq_true_iff.mpr (Or.inr hk))).1
      two_ok (fun _ => rfl) (fun _ _ => rfl) (fun _ _ => rfl))
  | .isNull a => fun hc => SameOperand.follows rfl (SameOperand.one (follows hD a hc).1 id
      id (fun _ => rfl) (fun _ => rfl) (fun _ _ => rfl))
  | .arith op a b => fun hc => SameOperand.follows rfl (SameOperand.two
      (follows hD a fun k hk => hc k (Bool.or_eq_true_iff.mpr (Or.inl hk))).1
      (follows hD b fun k hk => hc k (Bool.or_eq_true_iff.mpr (Or.inr hk))).1
      claimsHeld_sides (fun _ => rfl) (fun _ _ => rfl) (fun _ _ => rfl))
  | .inList a items => fun hc => SameOperand.follows rfl fun hok row pass x hx => by
    obtain ⟨_, hoka, hoki⟩ := bind_okE hok
    obtain ⟨y, hy, hx⟩ := bind_ok hx
    obtain ⟨zs, hzs, hx⟩ := bind_ok hx
    cases hx
    have ha := (follows hD a fun k hk => hc k (Bool.or_eq_true_iff.mpr (Or.inl hk))).1
    have hitems := followsItems hD items (fun k hk => hc k (Bool.or_eq_true_iff.mpr (Or.inr hk)))
      hoki row pass zs hzs
    rw [written, ha hoka row pass y hy, hitems]
    rfl
  | .inSelect a get filter => fun hc => SameOperand.follows rfl fun hok row pass x hx => by
    obtain ⟨_, hoka, hokf⟩ := bind_okE hok
    obtain ⟨y, hy, hx⟩ := bind_ok hx
    obtain ⟨rs, hrs, hx⟩ := bind_ok hx
    obtain ⟨vs, hvs, hx⟩ := bind_ok hx
    cases hx
    have ha := (follows hD a fun k hk => hc k (Bool.or_eq_true_iff.mpr (Or.inl hk))).1
    have hkept := followsIn hD filter (fun k hk => hc k (Bool.or_eq_true_iff.mpr (Or.inr hk)))
      hokf pass hrs
    rw [written, ha hoka row pass y hy, hkept]
    simp only [Result.ok_bind, hvs]
    rfl
  | .call name args => fun hc => SameOperand.follows (by cases args <;> rfl) fun hok row pass x hx => by
    obtain ⟨xs, hxs, hx⟩ := bind_ok hx
    cases hx
    rw [written, followsArgs hD args hc (claimsHeld_args hok) row pass xs hxs]
    rfl
termination_by structural e => e

theorem followsItems (hD : NoWeights B.collation) : ∀ es : List RuleExpr,
    (∀ k, readAloneItems k es = true → usable (claimValue values k) false = true) →
    claimsHeldAll claims es = .ok () → ∀ (row : Row) (pass : Bool) (xs : List Expr),
    answeredAll ctx rowsOf (bindItems values es pass) = .ok xs →
    writtenItems ctx rowsOf ofKind values row es pass = .ok xs
  | [], _, _, _, _, _, hx => by cases hx; rfl
  | e :: es, hc, hok, row, pass, xs, hx => by
    obtain ⟨_, hoke, hoks⟩ := bind_okE hok
    have hrest := followsItems hD es (fun k hk => hc k (Bool.or_eq_true_iff.mpr (Or.inr hk))) hoks
      row pass
    cases hparam : asParam e with
    | some k =>
      rw [bindItems, hparam] at hx
      rw [writtenItems, hparam]
      dsimp only at hx ⊢
      split at hx
      · obtain ⟨ys, rest, hys, hrests, rfl⟩ := answeredAll_append hx
        rw [answeredAll_lits] at hys
        cases hys
        rw [hrest rest hrests]
        rfl
      · obtain ⟨y, rest, hy, hrests, rfl⟩ := answeredAll_cons hx
        cases hy
        rw [hrest rest hrests]
        rfl
    | none =>
      rw [bindItems, hparam] at hx
      obtain ⟨y, rest, hy, hys, rfl⟩ := answeredAll_cons hx
      have he := (follows hD e fun k hk => hc k (Bool.or_eq_true_iff.mpr (Or.inl
        (Bool.and_eq_true_iff.mpr ⟨by rw [hparam]; rfl, hk⟩)))).1
      rw [writtenItems, hparam]
      dsimp only
      rw [he hoke row pass y hy, hrest rest hys]
      rfl
termination_by structural es => es

theorem followsArgs (hD : NoWeights B.collation) : ∀ es : List RuleExpr,
    (∀ k, readAloneArgs k es = true → usable (claimValue values k) false = true) →
    claimsHeldAll claims es = .ok () → ∀ (row : Row) (pass : Bool) (xs : List Expr),
    answeredAll ctx rowsOf (bindArgs values es pass) = .ok xs →
    writtenArgs ctx rowsOf ofKind values row es pass = .ok xs
  | [], _, _, _, _, _, hx => by cases hx; rfl
  | e :: es, hc, hok, row, pass, xs, hx => by
    obtain ⟨_, hoke, hoks⟩ := bind_okE hok
    obtain ⟨y, rest, hy, hys, rfl⟩ := answeredAll_cons hx
    have he := (follows hD e fun k hk => hc k (Bool.or_eq_true_iff.mpr (Or.inl hk))).1
    rw [writtenArgs, he hoke row pass y hy,
      followsArgs hD es (fun k hk => hc k (Bool.or_eq_true_iff.mpr (Or.inr hk))) hoks row pass rest
        hys]
    rfl
termination_by structural es => es

theorem followsIn (hD : NoWeights B.collation) : ∀ f : Option RuleExpr,
    (∀ k, readAloneIn k f = true → usable (claimValue values k) false = true) →
    claimsHeldIn claims f = .ok () → ∀ (pass : Bool) {rows rs : List Row},
    kept ctx rowsOf (bindIn values f pass) rows = .ok rs →
    writtenKept ctx rowsOf ofKind values f pass rows = .ok rs
  | none, _, _, _, _, _, h => h
  | some f, hc, hok, pass, rows, rs, h => by
    obtain ⟨x, hx, h⟩ := bind_ok h
    refine keepRows_of (fun r b hb => ?_) h
    obtain ⟨v, hv, hb⟩ := bind_ok hb
    obtain ⟨y, hy, heval⟩ := (follows hD f hc).2 hok r pass x hx
    rw [hy, Result.ok_bind, heval v hv]
    exact hb
termination_by structural f => f

end

end Whole

/-- **A rule's filter answers as it is written**, each ordered comparison with a claim held to the
kind its edges part: of a row on which what is bound evaluates, to the value of what is written. -/
theorem bind_answers {B : Build} (ctx : EvalCtx B) (rowsOf : String → List Row)
    (hD : NoWeights B.collation) (claims : List String) (values : List Value) (e : RuleExpr)
    (haccepted : claimsHeld claims e true = .ok ())
    (husable : ∀ k < maxParam e, ∃ v, values[k]? = some v ∧ usable v (!readAlone k e) = true)
    (row : Row) (x : Expr) (hx : answered ctx rowsOf (bind values e) = .ok x) (v : Value)
    (hv : eval ctx row x = .ok v) :
    ∃ y, written ctx rowsOf ofKind values row e true = .ok y ∧ eval ctx row y = .ok v := by
  have hclaims : ∀ k, readAlone k e = true → usable (claimValue values k) false = true := by
    intro k hk
    obtain ⟨w, hw, hok⟩ := husable k (lt_maxParam k e hk)
    have hvalue : claimValue values k = w := by
      rw [claimValue, List.getD_eq_getElem?_getD, hw]
      rfl
    rw [hvalue]
    rwa [hk] at hok
  obtain ⟨y, hy, heval⟩ := (follows hD e hclaims).2 haccepted row true x hx
  exact ⟨y, hy, heval v hv⟩

/-- The rule `at <= $jwt.until`. -/
def untilRule : RuleExpr := .cmp .le (.field "at") (.param 0)

/-- A row with a time. -/
def timeRow (ms : Int64) : Row := ⟨1, fun _ => .ok (.timestamp ms), fun _ => .bytes⟩

/-- A context of no functions but the engine's own. -/
def untilCtx : EvalCtx Build.ascii := ⟨[], .builtin Build.ascii, none⟩

/-- What `untilRule` is bound to. -/
def untilBound (t : String) : Expr :=
  .and (.cmp .le (.field "at") (.lit (.text t)))
    (.or (.cmp .ge (.field "at") (.lit (.text "")))
      (.cmp .ge (.field "at") (.lit (.text earliest))))

theorem answered_until {t : String} (ht : readsAsTime t = true) :
    answered untilCtx (fun _ => []) (bind [.text t] untilRule) = .ok (untilBound t) := by
  have hbind : bind [.text t] untilRule = .and (.cmp .le (.field "at") (.lit (.text t)))
      (lowEdge (.text t) (.ge, .text "") (.field "at")) := rfl
  rw [hbind, lowEdge, ht]
  rfl

/-- What is bound says on a row: the comparison and one of the lower edges. -/
theorem eval_until (t : String) (ms : Int64) :
    eval untilCtx (timeRow ms) (untilBound t) = .ok (.bool
      (compareValues Build.ascii .le (.timestamp ms) (.text t) .bytes &&
        (compareValues Build.ascii .ge (.timestamp ms) (.text "") .bytes ||
          compareValues Build.ascii .ge (.timestamp ms) (.text earliest) .bytes))) := by
  have hat : eval untilCtx (timeRow ms) (.field "at") = .ok (.timestamp ms) := rfl
  exact eval_and (eval_cmp_lit rfl hat) (eval_or (eval_cmp_lit rfl hat) (eval_cmp_lit rfl hat))

theorem bind_answers_until : ∃ y,
    written untilCtx (fun _ => []) ofKind [.text "2026-01-01"] (timeRow 0) untilRule true = .ok y ∧
      eval untilCtx (timeRow 0) y = .ok (.bool true) := by
  have hvalue : (compareValues Build.ascii .le (.timestamp 0) (.text "2026-01-01") .bytes &&
      (compareValues Build.ascii .ge (.timestamp 0) (.text "") .bytes ||
        compareValues Build.ascii .ge (.timestamp 0) (.text earliest) .bytes)) = true := by
    decide +kernel
  refine bind_answers untilCtx (fun _ => []) (fun _ _ => rfl) ["until"] [.text "2026-01-01"]
    untilRule rfl (fun k hk => ?_) (timeRow 0) (untilBound "2026-01-01")
    (answered_until (by decide +kernel)) (.bool true) ?_
  · obtain rfl : k = 0 := Nat.lt_one_iff.mp hk
    exact ⟨_, rfl, rfl⟩
  · rw [eval_until, hvalue]

/-- **The kinds as a rule is read**: numbers with numbers and times, texts with texts, bools with
bools, and a time with a text that reads as one. -/
def ofKindRead (claim : Value) (_above : Bool) (v : Value) : Bool :=
  match claim, v with
  | .int _, .int _ | .int _, .float _ | .int _, .timestamp _ => true
  | .float _, .int _ | .float _, .float _ | .float _, .timestamp _ => true
  | .text _, .text _ => true
  | .text t, .timestamp _ => readsAsTime t
  | .bool _, .bool _ => true
  | _, _ => false

/-- **A time before year 0** is below every day a text reads as, and `at <= $jwt.until` is false of
it: the lower edge of the claim's kind is the first day of year 0. -/
theorem time_before_year_zero :
    claimsHeld ["until"] untilRule true = .ok () ∧ usable (.text "2026-01-01") false = true ∧
      answered untilCtx (fun _ => []) (bind [.text "2026-01-01"] untilRule) =
        .ok (untilBound "2026-01-01") ∧
      eval untilCtx (timeRow (-62167219200001)) (untilBound "2026-01-01") = .ok (.bool false) ∧
      ∃ y, written untilCtx (fun _ => []) ofKindRead [.text "2026-01-01"]
          (timeRow (-62167219200001)) untilRule true = .ok y ∧
        eval untilCtx (timeRow (-62167219200001)) y = .ok (.bool true) := by
  have hbound : (compareValues Build.ascii .le (.timestamp (-62167219200001)) (.text "2026-01-01")
        .bytes &&
      (compareValues Build.ascii .ge (.timestamp (-62167219200001)) (.text "") .bytes ||
        compareValues Build.ascii .ge (.timestamp (-62167219200001)) (.text earliest) .bytes)) =
      false := by
    decide +kernel
  have hplain : compareValues Build.ascii .le (.timestamp (-62167219200001)) (.text "2026-01-01")
      .bytes = true := by
    decide +kernel
  have hreads : readsAsTime "2026-01-01" = true := by decide +kernel
  have hat : eval untilCtx (timeRow (-62167219200001)) (.field "at") =
    .ok (.timestamp (-62167219200001)) := rfl
  refine ⟨rfl, by decide, answered_until hreads, ?_,
    .cmp .le (.field "at") (.lit (.text "2026-01-01")), ?_, ?_⟩
  · rw [eval_until, hbound]
  · have hwritten : ∀ t ms, readsAsTime t = true →
        written untilCtx (fun _ => []) ofKindRead [.text t] (timeRow ms) untilRule true =
          .ok (.cmp .le (.field "at") (.lit (.text t))) := by
      intro t ms ht
      have hside : claimSide .le (.field "at") (.param 0) = some (0, true, false) := rfl
      have hof : ((Value.timestamp ms).isNull ||
          ofKindRead (claimValue [.text t] 0) (true && !true) (.timestamp ms)) = true := ht
      have hfield : written untilCtx (fun _ => []) ofKindRead [.text t] (timeRow ms) (.field "at")
        true = .ok (.field "at") := rfl
      have hclaim : written untilCtx (fun _ => []) ofKindRead [.text t] (timeRow ms) (.param 0)
        true = .ok (.lit (.text t)) := rfl
      have hcmp := written_claimCmp hfield hclaim hside rfl
      rw [hof, if_pos rfl] at hcmp
      exact hcmp
    exact hwritten _ _ hreads
  · rw [eval_cmp_lit rfl hat]
    exact congrArg (Except.ok ∘ Value.bool) hplain

end Fenec.Access
