/-
# Aggregating lists

A list of columns with aggregates in it answers a row a group.  The rows are folded one by one: a
row's keys, written one after another, name its group, and each of the list's aggregates folds a
value of the row into what its group's has come to (`Folding.fold`).  A group's row is then worked
out of its keys and its aggregates, which stand in the columns' expressions as parameters
(`Folding.rows`).

A `Reader` is what a row is read by: the values of the expressions that are bound to the
collection, worked out of the row once.  The values that `count(distinct ...)` has counted are in
one set, each under the number of its aggregate and the number of its group, both written as 32-bit
words (`placed`).

* §1 is how a field's texts order values, §2 the folds, §3 the keys and the aggregates a list calls,
  §4 a list bound to a collection, §5 the groups, §6 their rows.

The sketches are an extra of some builds; this one is made without them, and refuses a list that
asks for one.
-/
import Fenec.Index

namespace Fenec

open Lib Case

/-! ## 1. Values in a field's order -/

section Orders

variable (B : Build) (o : TextOrder)

mutual

/-- `TextOrder::compare_values`. -/
def TextOrder.compareValues : Value → Value → Ordering
  | .text x, .text y => o.compare B.chars B.collation x y
  | .list xs, .list ys =>
    if o.isBytes then (Value.list xs).cmpValue (.list ys) else compareItems xs ys
  | a, b => a.cmpValue b
termination_by structural a => a

/-- `compareValues` item by item, then by length. -/
def TextOrder.compareItems : List Value → List Value → Ordering
  | [], [] => .eq
  | [], _ :: _ => .lt
  | _ :: _, [] => .gt
  | x :: xs, y :: ys => (compareValues x y).then (compareItems xs ys)
termination_by structural a => a

end

end Orders

namespace Aggregate

/-! ## 2. Folds -/

/-- `Fold`: an aggregate's running value over a group's rows. -/
inductive Fold where
  | count (n : Nat)
  | sumInt (sum : Int64) (n : Nat)
  | sumFloat (sum : F64) (n : Nat)
  | avg (sum : F64) (n : Nat)
  | extreme (best : Option Value) (max : Bool) (text : TextOrder)
  | distinct (n : Nat) (fold : Option CaseFold)
  | pick (best : Option (Value × DocId × Value)) (later : Bool) (text : TextOrder)

/-- `AGGREGATES`. -/
def aggregates : List String :=
  ["count", "sum", "avg", "min", "max", "first", "last", "approx_count_distinct",
    "hll_accumulate", "hll_combine"]

/-- `SKETCHES`. -/
def sketches : List String := ["approx_count_distinct", "hll_accumulate", "hll_combine"]

/-- `MAX_DISTINCT_VALUES`. -/
def maxDistinctValues : Nat := 1000000

/-- Whether a type's values have an order `min` and `max` go by. -/
def ordered : DataType → Bool
  | .int => true
  | .float => true
  | .timestamp => true
  | .text => true
  | .bool => true
  | _ => false

namespace Fold

/-- `Fold::new`: the fold a call starts at; the field it reads as it is refuses what its type
cannot be folded by. -/
def new (name : String) (distinct : Bool) (field : Option Field) : Result Fold :=
  let t := (field.map (·.ty)).filter (· != .json)
  let refuse := fun what : String =>
    let f := (field.map (·.name)).getD ""
    Error.type ("`" ++ name ++ "(" ++ f ++ ")` needs " ++ what ++ "; `" ++ f ++ "` is " ++
      (t.map DataType.name).getD "")
  if sketches.contains name then
    .error (.query ("`" ++ name ++
      "` needs the `analytics` feature, which this build was made without"))
  else if name = "count" then
    if distinct then .ok (.distinct 0 (field.bind Field.caseFold)) else .ok (.count 0)
  else if name = "sum" ∧ t = some .float then .ok (.sumFloat Ieee.posZero 0)
  else if name = "sum" ∨ name = "avg" then
    if t = none ∨ t = some .int ∨ t = some .float then
      if name = "sum" then .ok (.sumInt 0 0) else .ok (.avg Ieee.posZero 0)
    else .error (refuse "an int or float field")
  else if name = "first" ∨ name = "last" then .ok (.pick none (name = "last") .bytes)
  else if t.all ordered then
    .ok (.extreme none (name = "max") ((field.map Field.textOrder).getD .bytes))
  else .error (refuse "a field with an order")

/-- What a fold says of a value it cannot fold. -/
def refused (what : String) (v : Value) : Error :=
  let takes := if what = "min" ∨ what = "max" then "values with an order" else "numbers"
  .type ("`" ++ what ++ "` takes " ++ takes ++ "; found " ++ v.typeName)

/-- A number as a float adds it. -/
def num : Value → Option F64
  | .int i => some (Ieee.ofInt i.toInt)
  | .float f => some f
  | _ => none

variable (B : Build)

/-- Whether a value comes before the one held, or after it. -/
def better (text : TextOrder) (after : Bool) (v b : Value) : Bool :=
  (if text.isBytes then v.cmpValue b else text.compareValues B v b) == if after then .gt else .lt

/-- `Fold::add`: a value folded in; false for the folds that need the row as well. -/
def add (f : Fold) (v : Value) : Result (Fold × Bool) :=
  if v.isNull then .ok (f, true)
  else match f with
    | .count n => .ok (.count (n + 1), true)
    | .sumInt sum n => match v with
      | .int i =>
        if -(2 ^ 63) ≤ sum.toInt + i.toInt ∧ sum.toInt + i.toInt < 2 ^ 63 then
          .ok (.sumInt (sum + i) (n + 1), true)
        else .error (.query "the sum does not fit a 64-bit int")
      | .float x => .ok (.sumFloat ((Ieee.ofInt sum.toInt : F64).add x) (n + 1), true)
      | v => .error (refused "sum" v)
    | .sumFloat sum n => match num v with
      | some x => .ok (.sumFloat (sum.add x) (n + 1), true)
      | none => .error (refused "sum" v)
    | .avg sum n => match num v with
      | some x => .ok (.avg (sum.add x) (n + 1), true)
      | none => .error (refused "avg" v)
    | .extreme best max text =>
      .ok (.extreme (if best.all (better B text max v) then some v else best) max text, true)
    | .distinct n fold => .ok (.distinct n fold, false)
    | .pick best later text => .ok (.pick best later text, false)

/-- A value's encoding as a group or a distinct value is told apart by, `encode_folded`: a text's as
its fold's, and a zero's without its sign. -/
def encode (v : Value) (fold : Option CaseFold) : Key :=
  match v, fold with
  | .text t, some f => encodeFolded B f t
  | .float x, _ => Codec.encodeValue (.float (x.add Ieee.posZero))
  | v, _ => Codec.encodeValue v

/-- A value under the numbers of its aggregate and of its group. -/
def placed (place : Nat × Nat) (key : Key) : Key :=
  Codec.leBytes 4 place.1 ++ Codec.leBytes 4 place.2 ++ key

/-- Whether a row of this order and id comes before the one held, or after it. -/
def earlier (text : TextOrder) (later : Bool) (key : Value) (id : DocId)
    (b : Value × DocId × Value) : Bool :=
  ((if text.isBytes then key.cmpValue b.1 else text.compareValues B key b.1).then
    (compare id b.2.1)) == if later then .gt else .lt

/-- `Fold::row_held`: what `count(distinct ...)`, `first` and `last` make of a row. -/
def rowHeld (f : Fold) (v : Value) (order : Option Value) (id : DocId) (place : Nat × Nat)
    (seen : List Key) : Result (Fold × List Key) :=
  if v.isNull then .ok (f, seen)
  else match f with
    | .distinct n fold =>
      let key := placed place (encode B v fold)
      if seen.contains key then .ok (.distinct n fold, seen)
      else if maxDistinctValues ≤ seen.length then
        .error (.query ("`count(distinct ...)` holds more than " ++ toString maxDistinctValues ++
          " values: a count is not cut short, so narrow the filter"))
      else .ok (.distinct (n + 1) fold, seen ++ [key])
    | .pick best later text =>
      let key := order.getD (.int (Int64.ofNat id))
      if key.isNull then .ok (.pick best later text, seen)
      else .ok (.pick (if best.all (earlier B text later key id) then some (key, id, v) else best)
        later text, seen)
    | f => .ok (f, seen)

/-- `Fold::value`. -/
def value : Fold → Value
  | .count n => .int (Int64.ofNat n)
  | .distinct n _ => .int (Int64.ofNat n)
  | .sumInt sum n => if n = 0 then .null else .int sum
  | .sumFloat sum n => if n = 0 then .null else .float sum
  | .avg sum n => if n = 0 then .null else .float (sum.div (Ieee.ofInt n))
  | .extreme best _ _ => best.getD .null
  | .pick best _ _ => (best.map (·.2.2)).getD .null

end Fold

/-! ## 3. Keys and aggregates of a list -/

/-- A column of a select list. -/
structure Column where
  name : String
  expr : Expr

/-- A group's key: an expression, or a column of the list by its place. -/
structure GroupKey where
  column : Option Nat
  expr : Expr

/-- `group_keys`: a name the list gives a column stands for the column. -/
def groupKeys (list : List Column) (group : List Expr) : List GroupKey :=
  group.map fun g => match g with
    | .field n => match list.findIdx? (·.name == n) with
      | some i => ⟨some i, (list[i]?.map (·.expr)).getD g⟩
      | none => ⟨none, g⟩
    | g => ⟨none, g⟩

/-- Whether two expressions are one field. -/
def sameField : Expr → Expr → Bool
  | .field a, .field b => a == b
  | _, _ => false

/-- The key an expression is (`is_key`), inside a column or as a column's whole: the field a key is,
or the column itself. -/
def keyOf (keys : List GroupKey) (column : Option Nat) (e : Expr) : Option Nat :=
  keys.findIdx? fun k => (column.isSome && k.column == column) || sameField k.expr e

/-- `Expr::aggregate_name`, whether there is one. -/
def isAggregate : Expr → Bool
  | .call name _ => aggregates.contains name
  | _ => false

mutual

/-- `collect`, inside a column: the aggregates an expression calls, left to right.  What is a key
inside an expression is a field, and calls none. -/
def collect : Expr → List Expr
  | .call name args =>
    if aggregates.contains name then [.call name args] else collectAll args
  | .field _ => []
  | .lit _ => []
  | .param _ => []
  | .and a b => collect a ++ collect b
  | .or a b => collect a ++ collect b
  | .cmp _ a b => collect a ++ collect b
  | .like a b => collect a ++ collect b
  | .has a b => collect a ++ collect b
  | .arith _ a b => collect a ++ collect b
  | .not a => collect a
  | .isNull a => collect a
  | .inSelect a => collect a
  | .inList a items => collect a ++ collectAll items
termination_by structural e => e

/-- `collect` over several expressions. -/
def collectAll : List Expr → List Expr
  | [] => []
  | e :: es => collect e ++ collectAll es
termination_by structural es => es

end

/-- `collect` of a column. -/
def collectColumn (keys : List GroupKey) (at_ : Nat) (e : Expr) : List Expr :=
  if (keyOf keys (some at_) e).isSome then [] else collect e

/-- The aggregates a list calls, column by column. -/
def collectList (keys : List GroupKey) (list : List Column) : List Expr :=
  list.zipIdx.flatMap fun c => collectColumn keys c.2 c.1.expr

/-! ## 4. A list bound to its collection -/

/-- `Reader`, as a list is folded by it: the field an expression reads as it is, and the values of
the expressions bound on a row, where there is such a row. -/
structure Reader where
  typed : Expr → Option Field
  read : DocId → Result (Option (Expr → Value))

/-- `Item`: an aggregate of the list. -/
structure Item where
  start : Fold
  arg : Option Expr
  order : Option Expr

/-- What a column answers. -/
inductive Out where
  | key (j : Nat)
  | fold (i : Nat)
  | expr (e : Expr)

/-- An aggregate's argument, and whether it is asked of the distinct ones. -/
def argOf : List Expr → Option Expr × Bool
  | .call name xs :: _ =>
    if name = "distinct" then (xs.head?, true) else (some (.call name xs), false)
  | args => (args.head?, false)

/-- The item of an aggregate's call. -/
def itemOf (rd : Reader) : Expr → Result Item
  | .call name args => do
    let (arg, distinct) := argOf args
    let order := args[1]?
    let start ← Fold.new name distinct (arg.bind rd.typed)
    -- `first(e by k)` orders by `k` as its field compares
    let start := match start, order with
      | .pick best later _, some k =>
        .pick best later (((rd.typed k).map Field.textOrder).getD .bytes)
      | f, _ => f
    pure ⟨start, arg, order⟩
  | _ => .error (.query "an aggregate is a call")

/-- What an expression over keys and aggregates is made over: the keys, how many aggregates and
parameters there are, and the columns that are known by name. -/
structure Slots where
  keys : List GroupKey
  items : Nat
  given : Nat
  columns : List String

/-- A field in an expression over the groups: a key's parameter, or a named column's. -/
def Slots.field (s : Slots) (n : String) : Expr :=
  match keyOf s.keys none (.field n) with
  | some j => .param j
  | none => match s.columns.findIdx? (· == n) with
    | some i => .param (s.keys.length + s.items + s.given + i)
    | none => .field n

/-- Two rewritten parts put together, the second after the first's turns. -/
def both {α β γ : Type} (f : α → β → γ) (a : Nat → Result (α × Nat)) (b : Nat → Result (β × Nat))
    (turn : Nat) : Result (γ × Nat) := do
  let (x, turn) ← a turn
  let (y, turn) ← b turn
  pure (f x y, turn)

/-- A part rewritten. -/
def one {α γ : Type} (f : α → γ) (a : Nat → Result (α × Nat)) (turn : Nat) :
    Result (γ × Nat) := do
  let (x, turn) ← a turn
  pure (f x, turn)

section Rewriting

variable (s : Slots)

mutual

/-- `Expr::rewrite` over the groups: each key, aggregate and parameter made the parameter its slot
is, the aggregates in turn. -/
def rewrite : Expr → Nat → Result (Expr × Nat)
  | .call name args =>
    if aggregates.contains name then fun turn => .ok (.param (s.keys.length + turn), turn + 1)
    else one (.call name) (rewriteAll args)
  | .field n => fun turn => .ok (s.field n, turn)
  | .param i => fun turn =>
    if s.given ≤ i then .error (unbound i)
    else .ok (.param (s.keys.length + s.items + i), turn)
  | .lit v => fun turn => .ok (.lit v, turn)
  | .and a b => both .and (rewrite a) (rewrite b)
  | .or a b => both .or (rewrite a) (rewrite b)
  | .cmp op a b => both (.cmp op) (rewrite a) (rewrite b)
  | .like a b => both .like (rewrite a) (rewrite b)
  | .has a b => both .has (rewrite a) (rewrite b)
  | .arith op a b => both (.arith op) (rewrite a) (rewrite b)
  | .not a => one .not (rewrite a)
  | .isNull a => one .isNull (rewrite a)
  | .inSelect a => one .inSelect (rewrite a)
  | .inList a items => both .inList (rewrite a) (rewriteAll items)
termination_by structural e => e

/-- `rewrite` over several expressions. -/
def rewriteAll : List Expr → Nat → Result (List Expr × Nat)
  | [] => fun turn => .ok ([], turn)
  | e :: es => both .cons (rewrite e) (rewriteAll es)
termination_by structural es => es

end

/-- A column's answer. -/
def outOf (at_ : Nat) (e : Expr) (turn : Nat) : Result (Out × Nat) :=
  match keyOf s.keys (some at_) e with
  | some j => .ok (.key j, turn)
  | none => if isAggregate e then .ok (.fold turn, turn + 1) else one .expr (rewrite s e) turn

/-- The columns' answers. -/
def outsOf : Nat → List Column → Nat → Result (List Out × Nat)
  | _, [] => fun turn => .ok ([], turn)
  | at_, c :: list => both .cons (outOf s at_ c.expr) (outsOf (at_ + 1) list)

end Rewriting

/-- `Folding`: a list bound to its collection. -/
structure Folding where
  rd : Reader
  keys : List GroupKey
  items : List Item
  outs : List Out
  having : Option Expr

/-- A group's key's fold: that of the field it reads as it is. -/
def Folding.keyFold (f : Folding) (k : GroupKey) : Option CaseFold :=
  (f.rd.typed k.expr).bind Field.caseFold

/-- The filter of the groups, made over their keys, aggregates and columns. -/
def havingOf (s : Slots) : Option Expr → Nat → Result (Option Expr)
  | none, _ => .ok none
  | some h, turn => (rewrite s h turn).map fun x => some x.1

/-- `Folding::new`. -/
def Folding.new (rd : Reader) (list : List Column) (group : List Expr) (having : Option Expr)
    (given : Nat) : Result Folding := do
  let keys := groupKeys list group
  let calls := collectList keys list ++ (having.map collect).getD []
  let items ← calls.mapM (itemOf rd)
  let (outs, turn) ← outsOf ⟨keys, items.length, given, []⟩ 0 list 0
  let having ← havingOf ⟨keys, items.length, given, list.map (·.name)⟩ having turn
  pure ⟨rd, keys, items, outs, having⟩

/-! ## 5. Groups -/

/-- `Groups`: the groups rows were folded into, a group's number under its keys' encoding. -/
structure Groups where
  index : List (Key × Nat)
  seen : List Key
  keyValues : List (List Value)
  folds : List (List Fold)
  n : Nat
  lastKey : Key
  last : Option Nat
  streak : Bool

/-- The value an item folds of a row: `count(*)` folds one that is no null. -/
def Item.value (it : Item) (env : Expr → Value) : Value := (it.arg.map env).getD (.bool true)

namespace Folding

variable (B : Build) (f : Folding)

/-- `Folding::start`: no groups, or ungrouped the one. -/
def start (lastKey : Key) : Groups :=
  let ungrouped := f.keys.isEmpty
  { index := [], seen := [], lastKey := lastKey, last := none, streak := false
    keyValues := if ungrouped then [[]] else []
    folds := if ungrouped then [f.items.map (·.start)] else []
    n := if ungrouped then 1 else 0 }

/-- A row's keys' encoding. -/
def key (env : Expr → Value) : Key :=
  f.keys.flatMap fun k => Fold.encode B (env k.expr) (f.keyFold k)

/-- A group more, of a row's keys. -/
def open_ (g : Groups) (key : Key) (env : Expr → Value) : Groups :=
  { g with
    index := (key, g.n) :: g.index
    keyValues := g.keyValues ++ [f.keys.map fun k => env k.expr]
    folds := g.folds ++ [f.items.map (·.start)]
    n := g.n + 1 }

/-- The group of a row: the one the row before went to is asked first where that was the one
before's too. -/
def turn (g : Groups) (env : Expr → Value) : Groups × Nat :=
  if f.keys.isEmpty then (g, 0)
  else
    let key := f.key B env
    match g.last, g.streak && key == g.lastKey with
    | some n, true => (g, n)
    | _, _ =>
      let (g, n) := match g.index.lookup key with
        | some n => (g, n)
        | none => (f.open_ g key env, g.n)
      ({ g with lastKey := key, streak := g.last == some n, last := some n }, n)

/-- A row folded into one of its group's aggregates. -/
def addItem (id : DocId) (env : Expr → Value) (place : Nat × Nat) (it : Item) (fold : Fold)
    (seen : List Key) : Result (Fold × List Key) := do
  let (fold, done) ← fold.add B (it.value env)
  if done then pure (fold, seen)
  else fold.rowHeld B (it.value env) (it.order.map env) id place seen

/-- A row folded into its group's aggregates, the first of them numbered `i`. -/
def addItems (id : DocId) (env : Expr → Value) (at_ : Nat) :
    Nat → List Item → List Fold → List Key → Result (List Fold × List Key)
  | i, it :: items, fold :: folds, seen => do
    let (fold, seen) ← addItem B id env (i, at_) it fold seen
    let (folds, seen) ← addItems id env at_ (i + 1) items folds seen
    pure (fold :: folds, seen)
  | _, _, folds, seen => .ok (folds, seen)

/-- A row that was read, folded in. -/
def foldRow (g : Groups) (id : DocId) (env : Expr → Value) : Result Groups := do
  let (g, at_) := f.turn B g env
  let (folds, seen) ← addItems B id env at_ 0 f.items (g.folds.getD at_ []) g.seen
  pure { g with folds := g.folds.set at_ folds, seen := seen }

/-- `Folding::fold`. -/
def fold : Groups → List DocId → Result Groups
  | g, [] => .ok g
  | g, id :: ids => do
    match (← f.rd.read id) with
    | none => fold g ids
    | some env => do fold (← foldRow B f g id env) ids

/-! ## 6. The groups' rows -/

/-- `IdRow`: a row with an id and no fields. -/
def idRow (id : DocId) : Row where
  id := id
  field n := .error (.query ("`" ++ n ++ "` is not read here"))
  textOrder _ := .bytes

variable {B}

/-- What a column answers of a group. -/
def outValue (ctx : EvalCtx B) (env : List Value) : Out → Result Value
  | .key j => .ok (env.getD j .null)
  | .fold i => .ok (env.getD (f.keys.length + i) .null)
  | .expr e => eval { ctx with params := env } (idRow 0) e

/-- Whether a group's row is answered: `having` holds of it, and `keep` keeps it. -/
def passes (ctx : EvalCtx B) (keep : List Value → Result Bool) (env row : List Value) :
    Result Bool := do
  let holds ← match f.having with
    | none => pure true
    | some h => do pure (← eval { ctx with params := env ++ row } (idRow 0) h).truthy
  if holds then keep row else pure false

/-- A group's row, with the values of its keys, where it is answered. -/
def groupRow (ctx : EvalCtx B) (keep : List Value → Result Bool)
    (group : List Value × List Fold) : Result (Option (List Value × List Value)) := do
  let env := group.1 ++ group.2.map Fold.value ++ ctx.params
  let row ← f.outs.mapM (f.outValue ctx env)
  pure (if (← f.passes ctx keep env row) then some (row, group.1) else none)

/-- `Folding::rows`: the groups answered, each a row of the list's columns with its keys' values. -/
def rows (ctx : EvalCtx B) (keep : List Value → Result Bool) (g : Groups) :
    Result (List (List Value × List Value)) := do
  let rows ← (g.keyValues.zip g.folds).mapM (f.groupRow ctx keep)
  pure (rows.filterMap id)

end Folding

end Aggregate

end Fenec
