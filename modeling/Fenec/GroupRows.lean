/-
# The rows groups answer

A column over the groups is an expression whose keys, aggregates and parameters have been made
parameters, the aggregates in the order they are called in.  It comes to what the column comes to
with each key and each aggregate replaced by its value (`rewrites`, `outsOf_answer`), and so does the
filter of the groups (`passes_eq`): a group's row is what its keys and its aggregates' values answer
(`groupRow_eq`).

* §1 is the replaced expressions, §2 the rewritten ones, §3 a list's columns, §4 a group's row, §5 a
  list bound to its collection.
-/
import Fenec.Conjuncts
import Fenec.Document
import Fenec.Groups

namespace Fenec.Aggregate

open Lib Case Classes Expr

/-! ## 1. Aggregates replaced by their values -/

section Replaced

variable (keys : List GroupKey) (kv : List Value) (agg : Expr → Value)
  (col : String → Option Value)

/-- A field replaced by the key it is, or by the column it names. -/
def replacedField (n : String) : Expr :=
  match keyOf keys none (.field n) with
  | some j => .lit (kv.getD j .null)
  | none => ((col n).map Expr.lit).getD (.field n)

mutual

/-- **An expression with each key, and each aggregate, replaced by its value.** -/
def replaced : Expr → Expr
  | .call name args =>
    if aggregates.contains name then .lit (agg (.call name args)) else .call name (replacedAll args)
  | .field n => replacedField keys kv col n
  | .param i => .param i
  | .lit v => .lit v
  | .and a b => .and (replaced a) (replaced b)
  | .or a b => .or (replaced a) (replaced b)
  | .cmp op a b => .cmp op (replaced a) (replaced b)
  | .like a b => .like (replaced a) (replaced b)
  | .has a b => .has (replaced a) (replaced b)
  | .arith op a b => .arith op (replaced a) (replaced b)
  | .not a => .not (replaced a)
  | .isNull a => .isNull (replaced a)
  | .inSelect a => .inSelect (replaced a)
  | .inList a items => .inList (replaced a) (replacedAll items)
termination_by structural e => e

/-- `replaced` over several expressions. -/
def replacedAll : List Expr → List Expr
  | [] => []
  | e :: es => replaced e :: replacedAll es
termination_by structural es => es

end

end Replaced

/-! ## 2. Aggregates made parameters -/

section Rewritten

variable {B : Build} {ctx : EvalCtx B} {s : Slots} {env kv : List Value} {calls : List Expr}
  {agg : Expr → Value} {col : String → Option Value} {row : Row}

/-- **What stands in the slots**: the keys, the aggregates in the order they are called, the query's
parameters and the columns known by name. -/
structure Slotted (s : Slots) (params env kv : List Value) (calls : List Expr) (agg : Expr → Value)
    (col : String → Option Value) : Prop where
  key : ∀ j < s.keys.length, env[j]? = some (kv.getD j .null)
  call : ∀ i e, calls[i]? = some e → env[s.keys.length + i]? = some (agg e)
  given : s.given = params.length
  param : ∀ i < s.given, env[s.keys.length + s.items + i]? = params[i]?
  column : ∀ n i, s.columns.findIdx? (· == n) = some i →
    env[s.keys.length + s.items + s.given + i]? = col n ∧ (col n).isSome
  other : ∀ n, s.columns.findIdx? (· == n) = none → col n = none

theorem both_ok {α β γ : Type} {f : α → β → γ} {a : Nat → Result (α × Nat)}
    {b : Nat → Result (β × Nat)} {turn t : Nat} {z : γ} (h : both f a b turn = .ok (z, t)) :
    ∃ x u y, a turn = .ok (x, u) ∧ b u = .ok (y, t) ∧ z = f x y := by
  obtain ⟨⟨x, u⟩, ha, h⟩ := bind_ok h
  obtain ⟨⟨y, v⟩, hb, h⟩ := bind_ok h
  obtain ⟨rfl, rfl⟩ := Prod.mk.inj (Except.ok.inj h)
  exact ⟨x, u, y, ha, hb, rfl⟩

theorem one_ok {α γ : Type} {f : α → γ} {a : Nat → Result (α × Nat)} {turn t : Nat} {z : γ}
    (h : one f a turn = .ok (z, t)) : ∃ x, a turn = .ok (x, t) ∧ z = f x := by
  obtain ⟨⟨x, u⟩, ha, h⟩ := bind_ok h
  obtain ⟨rfl, rfl⟩ := Prod.mk.inj (Except.ok.inj h)
  exact ⟨x, ha, rfl⟩

/-- The aggregates of two parts, the second's after the first's. -/
theorem prefix_both {as bs cs : List Expr} {turn : Nat} (h : as ++ bs <+: cs.drop turn) :
    as <+: cs.drop turn ∧ bs <+: cs.drop (turn + as.length) := by
  refine ⟨(List.prefix_append as bs).trans h, ?_⟩
  obtain ⟨rest, hrest⟩ := h
  refine ⟨rest, ?_⟩
  rw [← List.drop_drop, ← hrest, List.append_assoc, List.drop_left]

theorem lit_alike {i : Nat} {v : Value} (h : env[i]? = some v) :
    Alike { ctx with params := env } ctx row row (.param i) (.lit v) := by
  refine ⟨?_, rfl⟩
  rw [eval, eval, h]

theorem findIdx?_lt {α : Type} {p : α → Bool} {l : List α} {i : Nat} (h : l.findIdx? p = some i) :
    i < l.length := by
  obtain ⟨hi, -⟩ := List.findIdx?_eq_some_iff_getElem.mp h
  exact hi

theorem field_alike (hs : Slotted s ctx.params env kv calls agg col) (n : String) :
    Alike { ctx with params := env } ctx row row (s.field n) (replacedField s.keys kv col n) := by
  unfold Slots.field replacedField
  cases hkey : keyOf s.keys none (.field n) with
  | some j => exact lit_alike (hs.key j (findIdx?_lt hkey))
  | none =>
    cases hcol : s.columns.findIdx? (· == n) with
    | some i =>
      obtain ⟨henv, hsome⟩ := hs.column n i hcol
      obtain ⟨v, hv⟩ := Option.isSome_iff_exists.mp hsome
      dsimp only
      rw [hv] at henv ⊢
      exact lit_alike henv
    | none =>
      dsimp only
      rw [hs.other n hcol]
      exact ⟨by rw [Option.map_none, Option.getD_none, eval, eval], rfl⟩

section Parts

variable (ctx s env kv calls agg col row)

/-- Rewritten from its turn on, an expression comes to what it does with its aggregates replaced, and
takes a turn an aggregate. -/
def Rewrites (e : Expr) : Prop := ∀ (e' : Expr) (turn t : Nat), collect e <+: calls.drop turn →
  rewrite s e turn = .ok (e', t) →
    Alike { ctx with params := env } ctx row row e' (replaced s.keys kv agg col e) ∧
      t = turn + (collect e).length

/-- `Rewrites` of several expressions. -/
def RewritesAll (es : List Expr) : Prop :=
  ∀ (es' : List Expr) (turn t : Nat), collectAll es <+: calls.drop turn →
    rewriteAll s es turn = .ok (es', t) →
      List.Forall₂ (Alike { ctx with params := env } ctx row row) es'
          (replacedAll s.keys kv agg col es) ∧
        t = turn + (collectAll es).length

variable {ctx s env kv calls agg col row} {a b : Expr} {items : List Expr} {e' : Expr}
  {turn t : Nat}

theorem rewrites_both {f : Expr → Expr → Expr}
    (hf : ∀ {x y x' y' : Expr}, Alike { ctx with params := env } ctx row row x x' →
      Alike { ctx with params := env } ctx row row y y' →
      Alike { ctx with params := env } ctx row row (f x y) (f x' y'))
    (ha : Rewrites ctx s env kv calls agg col row a)
    (hb : Rewrites ctx s env kv calls agg col row b)
    (hc : collect a ++ collect b <+: calls.drop turn)
    (h : Aggregate.both f (rewrite s a) (rewrite s b) turn = .ok (e', t)) :
    Alike { ctx with params := env } ctx row row e'
        (f (replaced s.keys kv agg col a) (replaced s.keys kv agg col b)) ∧
      t = turn + (collect a ++ collect b).length := by
  obtain ⟨x, u, y, hx, hy, rfl⟩ := both_ok h
  obtain ⟨hca, hcb⟩ := prefix_both hc
  obtain ⟨hax, rfl⟩ := ha x turn u hca hx
  obtain ⟨hby, rfl⟩ := hb y _ t hcb hy
  exact ⟨hf hax hby, by rw [List.length_append]; omega⟩

theorem rewrites_one {f : Expr → Expr}
    (hf : ∀ {x x' : Expr}, Alike { ctx with params := env } ctx row row x x' →
      Alike { ctx with params := env } ctx row row (f x) (f x'))
    (ha : Rewrites ctx s env kv calls agg col row a)
    (hc : collect a <+: calls.drop turn)
    (h : Aggregate.one f (rewrite s a) turn = .ok (e', t)) :
    Alike { ctx with params := env } ctx row row e' (f (replaced s.keys kv agg col a)) ∧
      t = turn + (collect a).length := by
  obtain ⟨x, hx, rfl⟩ := one_ok h
  obtain ⟨hax, rfl⟩ := ha x turn t hc hx
  exact ⟨hf hax, rfl⟩

theorem rewrites_inList (ha : Rewrites ctx s env kv calls agg col row a)
    (hitems : RewritesAll ctx s env kv calls agg col row items)
    (hc : collect a ++ collectAll items <+: calls.drop turn)
    (h : Aggregate.both .inList (rewrite s a) (rewriteAll s items) turn = .ok (e', t)) :
    Alike { ctx with params := env } ctx row row e'
        (.inList (replaced s.keys kv agg col a) (replacedAll s.keys kv agg col items)) ∧
      t = turn + (collect a ++ collectAll items).length := by
  obtain ⟨x, u, ys, hx, hy, rfl⟩ := both_ok h
  obtain ⟨hca, hcb⟩ := prefix_both hc
  obtain ⟨hax, rfl⟩ := ha x turn u hca hx
  obtain ⟨hby, rfl⟩ := hitems ys _ t hcb hy
  exact ⟨.inList hax hby, by rw [List.length_append]; omega⟩

/-- An aggregate's slot holds its value. -/
theorem rewrites_aggregate (hs : Slotted s ctx.params env kv calls agg col) {name : String}
    {args : List Expr} (hagg : aggregates.contains name = true) :
    Rewrites ctx s env kv calls agg col row (.call name args) := by
  intro e' turn t hc h
  rw [collect, if_pos hagg] at hc ⊢
  rw [rewrite, if_pos hagg] at h
  rw [replaced, if_pos hagg]
  obtain ⟨rfl, rfl⟩ := Prod.mk.inj (Except.ok.inj h)
  refine ⟨lit_alike (hs.call turn _ ?_), rfl⟩
  obtain ⟨rest, hrest⟩ := hc
  have hget : (calls.drop turn)[0]? = some (.call name args) := by
    rw [← hrest]
    rfl
  rwa [List.getElem?_drop, Nat.add_zero] at hget

theorem rewrites_call {name : String} {args : List Expr}
    (hagg : ¬ aggregates.contains name = true)
    (hargs : RewritesAll ctx s env kv calls agg col row args) :
    Rewrites ctx s env kv calls agg col row (.call name args) := by
  intro e' turn t hc h
  rw [collect, if_neg hagg] at hc ⊢
  rw [rewrite, if_neg hagg] at h
  rw [replaced, if_neg hagg]
  obtain ⟨xs, hxs, rfl⟩ := one_ok h
  obtain ⟨halike, ht⟩ := hargs xs turn t hc hxs
  exact ⟨.call rfl (fun _ _ => rfl) halike, ht⟩

theorem rewrites_field (hs : Slotted s ctx.params env kv calls agg col) (n : String) :
    Rewrites ctx s env kv calls agg col row (.field n) := by
  intro e' turn t _ h
  rw [rewrite] at h
  obtain ⟨rfl, rfl⟩ := Prod.mk.inj (Except.ok.inj h)
  rw [replaced]
  exact ⟨field_alike hs n, rfl⟩

theorem rewrites_param (hs : Slotted s ctx.params env kv calls agg col) (i : Nat) :
    Rewrites ctx s env kv calls agg col row (.param i) := by
  intro e' turn t _ h
  rw [rewrite] at h
  split at h
  · cases h
  · next hi =>
    obtain ⟨rfl, rfl⟩ := Prod.mk.inj (Except.ok.inj h)
    have hlt : i < ctx.params.length := by
      rw [← hs.given]
      omega
    have henv := hs.param i (by omega)
    rw [List.getElem?_eq_getElem hlt] at henv
    refine ⟨⟨?_, rfl⟩, rfl⟩
    rw [replaced, eval, eval, henv, List.getElem?_eq_getElem hlt]

theorem rewrites_lit (v : Value) : Rewrites ctx s env kv calls agg col row (.lit v) := by
  intro e' turn t _ h
  rw [rewrite] at h
  obtain ⟨rfl, rfl⟩ := Prod.mk.inj (Except.ok.inj h)
  exact ⟨⟨by rw [replaced, eval, eval], rfl⟩, rfl⟩

theorem rewritesAll_cons {e : Expr} {es : List Expr}
    (he : Rewrites ctx s env kv calls agg col row e)
    (hes : RewritesAll ctx s env kv calls agg col row es) :
    RewritesAll ctx s env kv calls agg col row (e :: es) := by
  intro es' turn t hc h
  rw [collectAll] at hc ⊢
  rw [rewriteAll] at h
  rw [replacedAll]
  obtain ⟨x, u, ys, hx, hy, rfl⟩ := both_ok h
  obtain ⟨hca, hcb⟩ := prefix_both hc
  obtain ⟨hax, rfl⟩ := he x turn u hca hx
  obtain ⟨hby, rfl⟩ := hes ys _ t hcb hy
  exact ⟨.cons hax hby, by rw [List.length_append]; omega⟩

mutual

/-- **An expression made over the groups is the one with its aggregates replaced.** -/
theorem rewrites (hs : Slotted s ctx.params env kv calls agg col) :
    ∀ e : Expr, Rewrites ctx s env kv calls agg col row e
  | .call name args =>
    if hagg : aggregates.contains name = true then rewrites_aggregate hs hagg
    else rewrites_call hagg (rewritesAll hs args)
  | .field n => rewrites_field hs n
  | .param i => rewrites_param hs i
  | .lit v => rewrites_lit v
  | .and a b => fun _ _ _ => rewrites_both Alike.and (rewrites hs a) (rewrites hs b)
  | .or a b => fun _ _ _ => rewrites_both Alike.or (rewrites hs a) (rewrites hs b)
  | .cmp _ a b => fun _ _ _ => rewrites_both Alike.cmp (rewrites hs a) (rewrites hs b)
  | .like a b => fun _ _ _ => rewrites_both Alike.like (rewrites hs a) (rewrites hs b)
  | .has a b => fun _ _ _ => rewrites_both Alike.has (rewrites hs a) (rewrites hs b)
  | .arith _ a b => fun _ _ _ => rewrites_both Alike.arith (rewrites hs a) (rewrites hs b)
  | .not a => fun _ _ _ => rewrites_one Alike.not (rewrites hs a)
  | .isNull a => fun _ _ _ => rewrites_one Alike.isNull (rewrites hs a)
  | .inSelect a => fun _ _ _ => rewrites_one (fun _ => Alike.inSelect) (rewrites hs a)
  | .inList a items => fun _ _ _ => rewrites_inList (rewrites hs a) (rewritesAll hs items)

theorem rewritesAll (hs : Slotted s ctx.params env kv calls agg col) :
    ∀ es : List Expr, RewritesAll ctx s env kv calls agg col row es
  | [] => fun es' turn t _ h => by
    rw [rewriteAll] at h
    obtain ⟨rfl, rfl⟩ := Prod.mk.inj (Except.ok.inj h)
    exact ⟨.nil, rfl⟩
  | e :: es => rewritesAll_cons (rewrites hs e) (rewritesAll hs es)

end

end Parts

end Rewritten

/-! ## 3. A list's columns -/

section Columns

variable {B : Build}

/-- **What a column comes to**, its keys and its aggregates replaced by their values. -/
def columnValue (ctx : EvalCtx B) (keys : List GroupKey) (kv : List Value) (agg : Expr → Value)
    (at_ : Nat) (e : Expr) : Result Value :=
  match keyOf keys (some at_) e with
  | some j => .ok (kv.getD j .null)
  | none => eval ctx (Folding.idRow 0) (replaced keys kv agg (fun _ => none) e)

theorem forall₂_of_mapM {α β : Type} {g : α → Result β} {l : List α} {out : List β}
    (h : l.mapM g = .ok out) : List.Forall₂ (fun a b => g a = .ok b) l out := by
  induction l generalizing out with
  | nil =>
    obtain rfl := Except.ok.inj h
    exact .nil
  | cons a l ih =>
    rw [List.mapM_cons] at h
    obtain ⟨b, hb, h⟩ := bind_ok h
    obtain ⟨bs, hbs, h⟩ := bind_ok h
    obtain rfl := Except.ok.inj h
    exact .cons hb (ih hbs)

/-- The value of a column known by its name. -/
def columnOf (columns : List String) (row : List Value) (n : String) : Option Value :=
  (columns.findIdx? (· == n)).bind (row[·]?)

/-- What stands in the slots of a group: its keys, its aggregates' values, the query's parameters and
the columns' values. -/
theorem slotted {keys : List GroupKey} {columns : List String} {calls : List Expr}
    {kv fv params row : List Value} {agg : Expr → Value} (hkv : kv.length = keys.length)
    (hfv : fv = calls.map agg) (hrow : row.length = columns.length) :
    Slotted ⟨keys, calls.length, params.length, columns⟩ params (kv ++ fv ++ params ++ row) kv calls
      agg (columnOf columns row) := by
  subst hfv
  have hlen : (kv ++ calls.map agg).length = keys.length + calls.length := by
    rw [List.length_append, List.length_map, hkv]
  have hlen' : (kv ++ calls.map agg ++ params).length =
      keys.length + calls.length + params.length := by rw [List.length_append, hlen]
  refine ⟨?_, ?_, rfl, ?_, ?_, ?_⟩
  · intro j hj
    have hj' : j < kv.length := hkv ▸ hj
    rw [List.append_assoc, List.append_assoc, List.getElem?_append_left hj',
      List.getD_eq_getElem?_getD, List.getElem?_eq_getElem hj']
    rfl
  · intro i e he
    obtain ⟨hi, -⟩ := List.getElem?_eq_some_iff.mp he
    have hcall : (calls.map agg)[i]? = some (agg e) := by
      rw [List.getElem?_map, he]
      rfl
    change (kv ++ calls.map agg ++ params ++ row)[keys.length + i]? = _
    rw [List.append_assoc, List.append_assoc, List.getElem?_append_right (by omega), hkv,
      Nat.add_sub_cancel_left, List.getElem?_append_left (by rw [List.length_map]; exact hi), hcall]
  · intro i hi
    have hi' : i < params.length := hi
    change (kv ++ calls.map agg ++ params ++ row)[keys.length + calls.length + i]? = _
    rw [List.append_assoc, List.getElem?_append_right (by omega), hlen,
      Nat.add_sub_cancel_left, List.getElem?_append_left hi']
  · intro n i hi
    have hlt : i < row.length := hrow ▸ findIdx?_lt hi
    have hcol : columnOf columns row n = row[i]? := by
      unfold columnOf
      rw [hi]
      rfl
    change (kv ++ calls.map agg ++ params ++ row)[keys.length + calls.length + params.length + i]? =
      columnOf columns row n ∧ _
    rw [hcol, List.getElem?_append_right (by omega), hlen', Nat.add_sub_cancel_left]
    exact ⟨rfl, by rw [List.getElem?_eq_getElem hlt]; rfl⟩
  · intro n hn
    unfold columnOf
    rw [hn]
    rfl

variable {ctx : EvalCtx B} {s : Slots} {f : Folding} {env kv : List Value} {calls : List Expr}
  {agg : Expr → Value} {at_ turn t : Nat}

/-- **A column's answer**, which takes a turn an aggregate. -/
theorem outOf_answer (hkeys : f.keys.length = s.keys.length)
    (hs : Slotted s ctx.params env kv calls agg fun _ => none) {e : Expr} {o : Out}
    (hc : collectColumn s.keys at_ e <+: calls.drop turn) (h : outOf s at_ e turn = .ok (o, t)) :
    f.outValue ctx env o = columnValue ctx s.keys kv agg at_ e ∧
      t = turn + (collectColumn s.keys at_ e).length := by
  unfold outOf at h
  unfold columnValue
  unfold collectColumn at hc ⊢
  cases hkey : keyOf s.keys (some at_) e with
  | some j =>
    rw [hkey] at h
    obtain ⟨rfl, rfl⟩ := Prod.mk.inj (Except.ok.inj h)
    refine ⟨?_, rfl⟩
    unfold Folding.outValue
    dsimp only
    rw [List.getD_eq_getElem?_getD, hs.key j (findIdx?_lt hkey)]
    rfl
  | none =>
    rw [hkey, Option.isSome_none, if_neg (by decide)] at hc
    rw [hkey] at h
    rw [Option.isSome_none, if_neg (by decide)]
    dsimp only at h ⊢
    split at h
    · next hagg =>
      -- an aggregate alone is its slot
      obtain ⟨rfl, rfl⟩ := Prod.mk.inj (Except.ok.inj h)
      cases e with
      | call name args =>
        have hname : aggregates.contains name = true := hagg
        rw [collect, if_pos hname] at hc ⊢
        have hget : calls[turn]? = some (.call name args) := by
          obtain ⟨rest, hrest⟩ := hc
          have hzero : (calls.drop turn)[0]? = some (.call name args) := by
            rw [← hrest]
            rfl
          rwa [List.getElem?_drop, Nat.add_zero] at hzero
        refine ⟨?_, rfl⟩
        rw [replaced, if_pos hname, eval]
        unfold Folding.outValue
        dsimp only
        rw [List.getD_eq_getElem?_getD, hkeys, hs.call turn _ hget]
        rfl
      | _ => cases hagg
    · obtain ⟨e', he', rfl⟩ := one_ok h
      obtain ⟨halike, ht⟩ := rewrites hs e e' turn t hc he'
      exact ⟨halike.1, ht⟩

/-- **The columns' answers.** -/
theorem outsOf_answer (hkeys : f.keys.length = s.keys.length)
    (hs : Slotted s ctx.params env kv calls agg fun _ => none) {list : List Column}
    {outs : List Out}
    (hc : (list.zipIdx at_).flatMap (fun c => collectColumn s.keys c.2 c.1.expr) <+:
      calls.drop turn)
    (h : outsOf s at_ list turn = .ok (outs, t)) :
    outs.mapM (f.outValue ctx env) =
        (list.zipIdx at_).mapM (fun c => columnValue ctx s.keys kv agg c.2 c.1.expr) ∧
      t = turn +
        ((list.zipIdx at_).flatMap fun c => collectColumn s.keys c.2 c.1.expr).length := by
  induction list generalizing at_ turn t outs with
  | nil =>
    obtain ⟨rfl, rfl⟩ := Prod.mk.inj (Except.ok.inj h)
    exact ⟨rfl, rfl⟩
  | cons c list ih =>
    rw [List.zipIdx_cons, List.flatMap_cons] at hc ⊢
    obtain ⟨o, u, os, ho, hos, rfl⟩ := both_ok h
    obtain ⟨hca, hcb⟩ := prefix_both hc
    obtain ⟨hvalue, rfl⟩ := outOf_answer hkeys hs hca ho
    obtain ⟨hvalues, rfl⟩ := ih hcb hos
    rw [List.mapM_cons, List.mapM_cons, hvalue, hvalues]
    exact ⟨rfl, by rw [List.length_append]; omega⟩

end Columns

/-! ## 4. A group's row -/

section Row

variable {B : Build}

/-- Whether the filter of the groups holds, each of its keys, aggregates and columns replaced by its
value. -/
def havingHolds (ctx : EvalCtx B) (keys : List GroupKey) (kv : List Value) (agg : Expr → Value)
    (columns : List String) (row : List Value) : Option Expr → Result Bool
  | none => .ok true
  | some h => do
    pure (← eval ctx (Folding.idRow 0) (replaced keys kv agg (columnOf columns row) h)).truthy

/-- **What a class answers**: its columns' values, with the ones of its keys, where its filter and
`keep` take them. -/
def classRow (ctx : EvalCtx B) (keep : List Value → Result Bool) (keys : List GroupKey)
    (list : List Column) (having : Option Expr) (kv : List Value) (agg : Expr → Value) :
    Result (Option (List Value × List Value)) := do
  let row ← list.zipIdx.mapM fun c => columnValue ctx keys kv agg c.2 c.1.expr
  let holds ← havingHolds ctx keys kv agg (list.map (·.name)) row having
  let kept ← if holds then keep row else pure false
  pure (if kept then some (row, kv) else none)

variable {ctx : EvalCtx B} {keep : List Value → Result Bool} {f : Folding} {list : List Column}
  {having : Option Expr} {calls : List Expr} {agg : Expr → Value} {kv row : List Value}
  {turn : Nat}

/-- What a list is bound to, whatever it reads. -/
structure Bound (f : Folding) (list : List Column) (having : Option Expr) (calls : List Expr)
    (given turn : Nat) : Prop where
  collected : calls = collectList f.keys list ++ (having.map collect).getD []
  items : f.items.length = calls.length
  outs : outsOf ⟨f.keys, calls.length, given, []⟩ 0 list 0 =
    .ok (f.outs, turn)
  having : havingOf ⟨f.keys, calls.length, given, list.map (·.name)⟩ having turn = .ok f.having

/-- A group's columns are worked out with their aggregates at their values; the aggregates after them
are the filter's. -/
theorem columns_eq (hb : Bound f list having calls ctx.params.length turn)
    (hkv : kv.length = f.keys.length) :
    f.outs.mapM (f.outValue ctx (kv ++ calls.map agg ++ ctx.params)) =
        list.zipIdx.mapM (fun c => columnValue ctx f.keys kv agg c.2 c.1.expr) ∧
      turn = (collectList f.keys list).length := by
  have hs : Slotted ⟨f.keys, calls.length, ctx.params.length, []⟩ ctx.params
      (kv ++ calls.map agg ++ ctx.params ++ []) kv calls agg (columnOf [] []) :=
    slotted hkv rfl rfl
  rw [List.append_nil] at hs
  have hcalls : list.zipIdx.flatMap (fun c => collectColumn f.keys c.2 c.1.expr) <+:
      calls.drop 0 := by
    rw [hb.collected]
    exact List.prefix_append _ _
  obtain ⟨hcolumns, hturn⟩ := outsOf_answer rfl hs hcalls hb.outs
  exact ⟨hcolumns, hturn.trans (Nat.zero_add _)⟩

/-- The filter of the groups holds where it does with its values replaced. -/
theorem passes_eq (hb : Bound f list having calls ctx.params.length turn)
    (hkv : kv.length = f.keys.length) (hrow : row.length = list.length) :
    f.passes ctx keep (kv ++ calls.map agg ++ ctx.params) row =
      (havingHolds ctx f.keys kv agg (list.map (·.name)) row having >>= fun holds =>
        if holds then keep row else pure false) := by
  have hhaving := hb.having
  unfold Folding.passes havingHolds
  cases having with
  | none =>
    obtain hnone : none = f.having := Except.ok.inj hhaving
    rw [← hnone]
    rfl
  | some h =>
    obtain ⟨⟨e', t⟩, hrw, hsome⟩ := except_map_ok hhaving
    obtain ⟨-, hturn⟩ : f.outs.mapM (f.outValue ctx (kv ++ calls.map agg ++ ctx.params)) = _ ∧
      turn = (collectList f.keys list).length := columns_eq hb hkv
    have hcalls : collect h <+: calls.drop turn := by
      rw [hturn, hb.collected]
      refine ⟨[], ?_⟩
      rw [List.drop_left, List.append_nil]
      rfl
    have hs : Slotted ⟨f.keys, calls.length, ctx.params.length, list.map (·.name)⟩ ctx.params
        (kv ++ calls.map agg ++ ctx.params ++ row) kv calls agg
        (columnOf (list.map (·.name)) row) :=
      slotted hkv rfl (hrow.trans (List.length_map _).symm)
    obtain ⟨halike, -⟩ := rewrites hs h e' _ t hcalls hrw
    have heval : eval { ctx with params := kv ++ calls.map agg ++ ctx.params ++ row }
        (Folding.idRow 0) e' = eval ctx (Folding.idRow 0) (replaced f.keys kv agg
          (columnOf (list.map (·.name)) row) h) := halike.1
    rw [← hsome]
    dsimp only
    rw [heval, bind_assoc]

/-- **A group's row is its class's**, its aggregates at their values. -/
theorem groupRow_eq (hb : Bound f list having calls ctx.params.length turn)
    (hkv : kv.length = f.keys.length) {folds : List Fold}
    (hfolds : folds.map Fold.value = calls.map agg) :
    f.groupRow ctx keep (kv, folds) = classRow ctx keep f.keys list having kv agg := by
  unfold Folding.groupRow classRow
  dsimp only
  rw [hfolds, (columns_eq hb hkv).1]
  cases hrow : list.zipIdx.mapM fun c => columnValue ctx f.keys kv agg c.2 c.1.expr with
  | error err => rfl
  | ok row =>
    have hlen : row.length = list.length := by
      have hzip := (forall₂_of_mapM hrow).length_eq
      rw [List.length_zipIdx] at hzip
      exact hzip.symm
    rw [Result.ok_bind, Result.ok_bind, passes_eq hb hkv hlen, bind_assoc]
    refine bind_congr fun holds => ?_
    cases holds with
    | false => rfl
    | true => rfl

end Row

/-! ## 5. A list bound to its collection -/

section New

variable {rd : Reader} {list : List Column} {group : List Expr} {having : Option Expr}
  {given : Nat} {f : Folding}

/-- **What a list is bound to.** -/
theorem new_bound (h : Folding.new rd list group having given = .ok f) :
    f.rd = rd ∧ f.keys = groupKeys list group ∧ ∃ calls turn,
      List.Forall₂ (fun e it => itemOf rd e = .ok it) calls f.items ∧
        Bound f list having calls given turn := by
  unfold Folding.new at h
  dsimp only at h
  obtain ⟨items, hitems, h⟩ := bind_ok h
  obtain ⟨⟨outs, turn⟩, houts, h⟩ := bind_ok h
  obtain ⟨having', hhaving, h⟩ := bind_ok h
  obtain rfl := Except.ok.inj h
  have hall := forall₂_of_mapM hitems
  refine ⟨rfl, rfl, _, turn, hall, rfl, hall.length_eq.symm, ?_, ?_⟩
  · rw [hall.length_eq]
    exact houts
  · rw [hall.length_eq]
    exact hhaving

/-- A fold that is made has no value in it. -/
theorem started_new {name : String} {distinct : Bool} {field : Option Field} {F : Fold}
    (h : Fold.new name distinct field = .ok F) : F.Started := by
  unfold Fold.new at h
  dsimp only at h
  repeat' split at h
  all_goals cases h
  all_goals first
    | exact rfl
    | exact ⟨rfl, rfl⟩

/-- An aggregate starts with no value in it. -/
theorem started_itemOf {e : Expr} {it : Item} (h : itemOf rd e = .ok it) : it.start.Started := by
  cases e with
  | call name args =>
    obtain ⟨start, hstart, h⟩ := bind_ok h
    have hs := started_new hstart
    obtain rfl := Except.ok.inj h
    dsimp only
    split
    · exact hs
    · exact hs
  | _ => cases h

theorem started_items {calls : List Expr} {items : List Item}
    (h : List.Forall₂ (fun e it => itemOf rd e = .ok it) calls items) :
    ∀ it ∈ items, it.start.Started := by
  induction h with
  | nil => exact fun _ hit => absurd hit List.not_mem_nil
  | cons hit _ ih => exact List.forall_mem_cons.mpr ⟨started_itemOf hit, ih⟩

end New

end Fenec.Aggregate
