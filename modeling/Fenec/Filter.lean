/-
# Filters bound to a collection

A scan does not evaluate its filter's expression on each row.  It binds the expression once
(`Filter.new`): field names become slots of a short vector of values read from the row, literals
and parameters become values, texts a `nocase` field is compared with are folded, a long `in`
becomes a set of keys, a `like` pattern is checked and folded, and a distance against a
constant point is first tried by latitudes alone.  What has no faster shape stays an expression
and is evaluated as it is.

The binding threads which fields and paths are read (`Reads`), and every slot is a place in
what the *whole* filter reads.  This file is the binding and the test, as the source has them;
that the two together are the evaluator is the next one's.
-/
import Fenec.Codec
import Fenec.Schema

namespace Fenec

open Lib Case Codec

/-! ## 1. Slots and tests -/

/-- Where a test's value is read from. -/
inductive Slot where
  | id
  | at (p : Nat)
  | path (n : Nat)
deriving DecidableEq

/-- A test of a `nocase` field's text, its literals folded. -/
inductive Folded where
  | cmp (op : CmpOp) (value : Value) (first : Bool) (coll : Option Collation)
  | inList (values : List Value)
  | inSet (values : List Value)
  | like (needle : String)

/-- A bound filter. -/
inductive Test where
  | and (a b : Test)
  | or (a b : Test)
  | not (a : Test)
  | isNull (slot : Slot)
  | cmp (op : CmpOp) (slot : Slot) (value : Value) (first : Bool) (coll : Option Collation)
  | inList (slot : Slot) (values : List Value)
  | inSet (slot : Slot) (values : List Value)
  | like (slot : Slot) (v : Value)
  | has (slot : Slot) (v : Value)
  | distance (slot : Slot) (centre : Geo.Point) (fieldFirst : Bool) (op : CmpOp) (value : Value)
      (callFirst : Bool)
  | within (slot : Slot) (box : Geo.GeoBox)
  | folded (slot : Slot) (f : CaseFold) (t : Folded)
  | pattern (slot : Slot) (pat esc : String) (fold : Option CaseFold)
  | eval (e : Expr)

/-- The fields a filter reads, ascending, and the paths, in the order they were met. -/
structure Reads where
  positions : List Nat
  paths : List (Nat × String)

namespace Filter

/-- How many values an `in` has before it is looked up as a set. -/
def inSetAt : Nat := 8

/-- A position put among the others. -/
def insertPos (p : Nat) : List Nat → List Nat
  | [] => [p]
  | q :: qs => if q ≥ p then if q = p then q :: qs else p :: q :: qs else q :: insertPos p qs

/-- The slot of an expression, when it is a field: the position or path it reads joins the
reads. -/
def slotOf (S : Schema) (e : Expr) (st : Reads) : Option Slot × Reads :=
  match e with
  | .field name =>
    if name = "id" then (some .id, st)
    else if '.' ∈ name.toList then
      match S.pathOf name with
      | .ok (some p) => match st.paths.idxOf? p with
        | some n => (some (.path n), st)
        | none => (some (.path st.paths.length), { st with paths := st.paths ++ [p] })
      | _ => (none, st)
    else match S.fieldPos name with
      | some p => (some (.at p), { st with positions := insertPos p st.positions })
      | none => (none, st)
  | _ => (none, st)

/-- The value of a literal, or of a parameter that was given. -/
def valueOf (params : List Value) : Expr → Option Value
  | .lit v => some v
  | .param i => params[i]?
  | _ => none

/-- The field a slot reads, when it is one. -/
def slotField (S : Schema) : Slot → Option Field
  | .at p => S.fields[p]?
  | _ => none

/-- The collation of a slot's texts. -/
def slotColl (S : Schema) (s : Slot) : Option Collation := (slotField S s).bind (·.collate)

/-- The fold of a slot's texts. -/
def slotFold (S : Schema) (s : Slot) : Option CaseFold := (slotField S s).bind Field.caseFold

/-- A literal under a fold: a text is folded, anything else is itself. -/
def foldValue (T : CharCase) (f : CaseFold) : Value → Value
  | .text t => .text (Case.fold T f t)
  | v => v

/-! ## 2. Binding -/

section Bind

variable {B : Build} (S : Schema) (ctx : EvalCtx B)

/-- Whether an expression names a `geo` field. -/
def isPoint : Expr → Bool
  | .field name => (S.field name).any (·.ty == .geo)
  | _ => false

/-- A call of `distance` between a field and a constant point: the field, the point, and whether
the field is named first. -/
def distanceOf : Expr → Option (Expr × Geo.Point × Bool)
  | .call name [a, b] =>
    if sameName name "distance" then
      let sides := match isPoint S a, isPoint S b with
        | true, _ => some (a, b, true)
        | false, true => some (b, a, false)
        | _, _ => none
      sides.bind fun (field, other, first) =>
        (valueOf ctx.params other).bind fun v => match Geo.pointOf v with
          | .ok (some p) => some (field, p, first)
          | _ => none
    else none
  | _ => none

/-- `bind_geo`, up to the slot: the field a geo test reads, and the test. -/
def bindGeo : Expr → Option (Expr × (Slot → Test))
  | .cmp op a b =>
    let call := match distanceOf S ctx a with
      | some d => some (d, b, true)
      | none => (distanceOf S ctx b).map fun d => (d, a, false)
    call.bind fun ((field, centre, first), other, callFirst) =>
      (valueOf ctx.params other).map fun v =>
        (field, fun s => Test.distance s centre first op v callFirst)
  | .call name [f, b] =>
    if sameName name "within" then
      (valueOf ctx.params b).bind fun v => match Geo.boxOf v with
        | .ok (some bx) => if isPoint S f then some (f, fun s => Test.within s bx) else none
        | _ => none
    else none
  | _ => none

/-- A comparison with the slot and the literal found. -/
def bindCmp (op : CmpOp) (s : Slot) (v : Value) (first : Bool) : Test :=
  match slotFold S s, v with
  | some f, .text t =>
    .folded s f (.cmp op (foldValue B.chars f (.text t)) first (slotColl S s))
  | _, v => .cmp op s v first (slotColl S s)

/-- An `in` with the slot and the literals found. -/
def bindIn (s : Slot) (values : List Value) : Test :=
  match slotFold S s with
  | some f =>
    let values := values.map (foldValue B.chars f)
    .folded s f (if values.length ≥ inSetAt then .inSet values else .inList values)
  | none => if values.length ≥ inSetAt then .inSet s values else .inList s values

/-- A `like` with the slot and the literal found. -/
def bindLike (s : Slot) (v : Value) : Test :=
  match slotFold S s, v with
  | some f, .text t => .folded s f (.like (Case.fold B.chars f t))
  | _, v => .like s v

/-- The escape a bound pattern has: none given, or a literal text. -/
def escapeOf : List Expr → Option String
  | [] => some ""
  | [e] => match valueOf ctx.params e with
    | some (.text t) => some t
    | _ => none
  | _ => none

/-- `bind_pattern`, the slot found: only a text field's, and only a pattern that can be no
error. -/
def bindPattern (ci : Bool) (s : Slot) (p : Expr) (e : List Expr) : Option Test :=
  match slotField S s with
  | some field =>
    if field.ty ≠ .text then none
    else
      let fold := field.caseFold.or (if ci then some .unicode else none)
      (escapeOf ctx e).bind fun esc => match valueOf ctx.params p with
        | some (.text pat) =>
          let pat := fit B.chars fold pat
          if 1 < esc.length || fit B.chars fold esc != esc then none
          else match likePattern [] (utf8 pat.toList) (utf8 esc.toList) with
            | some _ => some (.pattern s pat esc fold)
            | none => none
        | _ => none
  | none => none

/-- The values of an `in`'s items, when each is a literal or a parameter given. -/
def valuesOf : List Expr → Option (List Value)
  | [] => some []
  | it :: rest => (valueOf ctx.params it).bind fun v => (valuesOf rest).map (v :: ·)

/-- `bind_geo`: a geo test and its slot. -/
def bindGeoSlot (e : Expr) (st : Reads) : Option (Test × Reads) :=
  (bindGeo S ctx e).bind fun (field, mk) => match slotOf S field st with
    | (some s, st') => some (mk s, st')
    | (none, _) => none

/-- The binding of an expression that joins no others, geo tests apart: a shape the test knows,
or the expression itself. -/
def bindLeaf (e : Expr) (st : Reads) : Test × Reads :=
  match e with
  | .isNull a => match slotOf S a st with
    | (some s, st) => (.isNull s, st)
    | (none, st) => (.eval e, st)
  | .cmp op a b =>
    match slotOf S a st with
    | (sa, st) => match slotOf S b st with
      | (sb, st) => match sa, valueOf ctx.params b, valueOf ctx.params a, sb with
        | some s, some v, _, _ => (bindCmp (B := B) S op s v true, st)
        | _, _, some v, some s => (bindCmp (B := B) S op s v false, st)
        | _, _, _, _ => (.eval e, st)
  | .inList a items => match slotOf S a st, valuesOf ctx items with
    | (some s, st), some values => (bindIn (B := B) S s values, st)
    | (_, st), _ => (.eval e, st)
  | .like a b => match slotOf S a st, valueOf ctx.params b with
    | (some s, st), some v => (bindLike (B := B) S s v, st)
    | (_, st), _ => (.eval e, st)
  | .has a b => match slotOf S a st, valueOf ctx.params b with
    | (some s, st), some v => (.has s v, st)
    | (_, st), _ => (.eval e, st)
  | .call name (x :: p :: rest) =>
    if name = "like" ∨ name = "ilike" then
      match slotOf S x st with
      | (some s, st) => ((bindPattern S ctx (name == "ilike") s p rest).getD (.eval e), st)
      | (none, st) => (.eval e, st)
    else (.eval e, st)
  | e => (.eval e, st)

/-- **`Filter::bind`**.  No geo test is an `and`, an `or` or a `not`, so those are taken
first. -/
def bind : Expr → Reads → Test × Reads
  | .and a b, st =>
    let (x, st) := bind a st
    let (y, st) := bind b st
    (.and x y, st)
  | .or a b, st =>
    let (x, st) := bind a st
    let (y, st) := bind b st
    (.or x y, st)
  | .not a, st =>
    let (x, st) := bind a st
    (.not x, st)
  | e, st => (bindGeoSlot S ctx e st).getD (bindLeaf S ctx e st)
termination_by structural e => e

end Bind

/-! ## 3. Testing -/

section Test

variable {B : Build} (R : Rows) (ctx : EvalCtx B) (id : DocId) (F : Reads)

/-- What the filter reads of a row: its fields, then its paths, all null where there is no
row. -/
def vals : List Value :=
  F.positions.map (fun p => (R.readField id p).getD .null) ++
    F.paths.map fun q => (R.readPath id q.1 q.2).getD .null

/-- The value at a slot. -/
def get : Slot → Value
  | .id => .int (Int64.ofNat id)
  | .at p => (vals R id F).getD (F.positions.idxOf p) .null
  | .path n => (vals R id F).getD (F.positions.length + n) .null

/-- The type of what a slot reads, when it has one. -/
def slotType (S : Schema) : Slot → Option DataType
  | .id => some .int
  | .at p => (S.fields[p]?).map (·.ty)
  | .path _ => none

/-- Whether a literal is of a kind whose bytes name it as its comparison does. -/
def sameKind : DataType → Value → Bool
  | .int, .int _ => true
  | .text, .text _ => true
  | .timestamp, .timestamp _ => true
  | .bool, .bool _ => true
  | _, _ => false

/-- `in_set`: the keys of an `in`'s values, when every one is of the slot's own type. -/
def inSet (S : Schema) (slot : Slot) (values : List Value) : Option (List (List UInt8)) :=
  (slotType S slot).bind fun ty =>
    if values.all (sameKind ty) then some (values.map encodeValue) else none

/-- A row's text folded whole. -/
def whole (T : CharCase) (f : CaseFold) (x : String) : String :=
  String.ofList (foldInto T f x.toList)

/-- `Filter::folded`: a test of a `nocase` field's value. -/
def foldedTest (B : Build) (S : Schema) (slot : Slot) (v : Value) (f : CaseFold) :
    Folded → Bool
  | .cmp op value first coll => match v with
    | .text x =>
      let y := value.asText.getD ""
      let o := match op, coll with
        | .eq, _ => cmpToFolded B.chars f x.toList y.toList
        | .ne, _ => cmpToFolded B.chars f x.toList y.toList
        | _, none => cmpToFolded B.chars f x.toList y.toList
        | _, some c => c.compare B.collation (whole B.chars f x) y
      op.holds (if first then o else o.swap)
    | v =>
      if first then compareValues B op v value .bytes else compareValues B op value v .bytes
  | .inList values => foldedIn v values
  | .inSet values => match v, inSet S slot values with
    | .text x, some set => set.contains (encodeValue (.text (whole B.chars f x)))
    | v, _ => foldedIn v values
  | .like needle => match v with
    | .text x => contains (whole B.chars f x) needle
    | _ => false
where
  /-- Value by value, a text against a fold. -/
  foldedIn (v : Value) (values : List Value) : Bool := values.any fun w => match v, w with
    | .text x, .text y => cmpToFolded B.chars f x.toList y.toList == .eq
    | v, w => w.cmpValue v == .eq

/-- The distance of a geo test: the latitudes' bound where it already answers. -/
def distanceTo (B : Build) (v : Value) (centre : Geo.Point) (fieldFirst : Bool)
    (value : Value) : Value :=
  match Geo.pointIn v with
  | some p => .float (match value.asF64.bind (Geo.past p centre) with
    | some floor => floor
    | none => if fieldFirst then B.geo.distance p centre else B.geo.distance centre p)
  | none => .null

/-- **`Filter::test`**. -/
def test : Test → Result Bool
  | .and a b => do if ← test a then test b else pure false
  | .or a b => do if ← test a then pure true else test b
  | .not a => do pure !(← test a)
  | .isNull s => .ok (get R id F s).isNull
  | .cmp op s value first coll =>
    let f := get R id F s
    .ok (if first then compareValues B op f value ⟨coll, none⟩
      else compareValues B op value f ⟨coll, none⟩)
  | .inList s values => .ok (values.any fun v => v.cmpValue (get R id F s) == .eq)
  | .inSet s values =>
    let f := get R id F s
    .ok (match inSet R.schema s values with
      | some set => !f.isNull && set.contains (encodeValue f)
      | none => values.any fun v => v.cmpValue f == .eq)
  | .like s v => .ok (match get R id F s, v with
    | .text hay, .text needle => likeMatch B.chars hay needle
    | _, _ => false)
  | .has s v => .ok (match get R id F s with
    | .list items => items.any fun i => i.cmpValue v == .eq
    | _ => false)
  | .distance s centre fieldFirst op value callFirst =>
    let d := distanceTo B (get R id F s) centre fieldFirst value
    .ok (if callFirst then compareValues B op d value .bytes
      else compareValues B op value d .bytes)
  | .within s box => .ok ((Geo.pointIn (get R id F s)).any box.holds)
  | .folded s f t => .ok (foldedTest B R.schema s (get R id F s) f t)
  | .pattern s pat esc fold => .ok (match get R id F s with
    | .text h =>
      likePattern (utf8 (fit B.chars fold h).toList) (utf8 pat.toList) (utf8 esc.toList)
        == some true
    | _ => false)
  | .eval e => (eval ctx (R.row id) e).map Value.truthy

end Test

end Filter

/-- A filter bound to a collection's rows. -/
structure Filter (R : Rows) where
  root : Test
  reads : Reads

/-- `Filter::new`. -/
def Filter.new {B : Build} (R : Rows) (f : Expr) (ctx : EvalCtx B) : Filter R :=
  let (root, reads) := Filter.bind R.schema ctx f ⟨[], []⟩
  ⟨root, reads⟩

/-- **`Filter::matches`**: the bound filter's answer on a row. -/
def Filter.matches {B : Build} {R : Rows} (F : Filter R) (id : DocId) (ctx : EvalCtx B) :
    Result Bool :=
  Filter.test R ctx id F.reads F.root

end Fenec
