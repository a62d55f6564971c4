/-
# The list an inner get answers

An `in (get ...)` is answered before its query runs: the inner `get` is run once, and the values of
its one column become an `in` list, a null left out (`answerSubquery`).  A list under which the
outer filter selects the rows it should is any list of the column's values, whatever is kept twice
(`matches_inList`).

The list is bounded.  Where nothing of the inner `get` picks its rows by their number its column is
read off the matches and told apart as it passes the bound (`gather`), so that the bound is on the
distinct values (`gather_spec`).  Where a `limit` or an `offset` does, or the column is worked out
of the row, the page is read with one row more than the bound, and the bound is on its rows
(`items_of_page`): a page of one value many times over is refused (`one_value_refused`).

* §1 is the code, over what an index answers (`Plan`) as a parameter; §2 what a plan promises.
* §3 is the loop over the matches, §4 the pages, §5 the list, §6 the result.
-/
import Fenec.Lib.Classes
import Fenec.FilterEval
import Fenec.Planner
import Fenec.Rebuild
import Fenec.RowOrder
import Mathlib.Data.Set.Card

namespace Fenec.Subquery

open Lib Lib.Classes Case Codec RowOrder

/-! ## 1. The code -/

/-- `MAX_SUBQUERY_VALUES`: the most distinct values an inner get may hand its query. -/
def maxSubqueryValues : Nat := 100000

/-- `MAX_SUBQUERY_DEPTH`: how deep inner gets may nest. -/
def maxSubqueryDepth : Nat := 4

/-- `Count`: a number of a statement, written or a parameter's. -/
inductive Count where
  | n (k : Nat)
  | param (i : Nat)

/-- `as_count`: a whole number from 0, a float's too. -/
def asCount : Value → Option Nat
  | .int n => if 0 ≤ n then some n.toNatClampNeg else none
  | .float f =>
    if Ieee.posZero.le f && f.isWhole then some (min f.trunc.toNat (2 ^ 64 - 1)) else none
  | _ => none

/-- `Count::at`: the number a plan reads. -/
def Count.at_ (params : List Value) : Count → Nat
  | .n k => k
  | .param i => ((params[i]?).bind asCount).getD 0

/-- `Sort`: a key of an `order` clause, a field's or worked out of the row. -/
structure OrderBy extends SortBy where
  expr : Option Expr

/-- `Select`, of an inner get that ranks, folds and groups nothing: its filter answered, its order,
its page, its one column and the columns it works out. -/
structure Inner where
  collection : String
  filter : Option Expr
  order : List OrderBy
  limit : Option Count
  offset : Count
  column : String
  computed : List (String × Expr)

/-- Where a column is read. -/
inductive Source where
  | id
  | at_ (p : Nat × Option String)
  | calc (e : Expr)

/-- **What the collection's indexes answer**: the rows one narrows a filter to, and whether they
are the answer themselves (`filter_candidates`), and a page walked in its order (`walk_order`). -/
structure Plan where
  candidates : Expr → Option Nat → Result (Option (List DocId × Bool))
  walkOrder : Inner → Result (Option (List DocId))

/-- What a list past the bound is refused with. -/
def pastBound (collection : String) : Error :=
  .query ("`in (get " ++ collection ++ " ...)` found more than " ++ toString maxSubqueryValues ++
    " values: a set is not cut short, so narrow the inner `get` or ask with `lookup ... required`")

/-- What an inner get nested too deep is refused with. -/
def tooDeep : Error :=
  .query ("`in (get ...)` nested too deep: at most " ++ toString maxSubqueryDepth ++ " levels")

/-- `first_seen`: whether a value is not among the keys seen, by its encoding, and the keys with
its own. -/
def firstSeen (seen : List Key) (v : Value) : Bool × List Key :=
  if seen.contains (encodeValue v) then (false, seen) else (true, seen ++ [encodeValue v])

/-- The items gathered, each kept where it is first seen. -/
def tellApart (items : List Value) : List Key × List Value :=
  items.foldl (fun s v =>
    let (first, set) := firstSeen s.1 v
    (set, if first then s.2 ++ [v] else s.2)) ([], [])

/-- Whether a value is pushed, and the keys seen after it: before they are told apart, every one. -/
def pushed (seen : Option (List Key)) (v : Value) : Bool × Option (List Key) :=
  match seen with
  | none => (true, none)
  | some set => ((firstSeen set v).1, some (firstSeen set v).2)

/-- **The loop of `distinct_column`** over the values of the matches: gathered as they come until
they pass the bound, and only then told apart. -/
def gather (byId : Bool) : Option (List Key) → List Value → List Value → Option (List Value)
  | _, items, [] => some items
  | seen, items, v :: vs =>
    if v.isNull then gather byId seen items vs
    else
      let (push, seen) := pushed seen v
      if push then
        let items := items ++ [v]
        if maxSubqueryValues < items.length then
          if seen.isSome || byId then none
          else
            let (set, kept) := tellApart items
            if maxSubqueryValues < kept.length then none else gather byId (some set) kept vs
        else gather byId seen items vs
      else gather byId seen items vs

/-- The first so many of a list, all of it where nothing bounds them. -/
def upTo {α : Type} : Option Nat → List α → List α
  | none, l => l
  | some k, l => l.take k

/-- A scan: the rows that pass a test, until there are as many as are wanted. -/
def scan (test : DocId → Result Bool) (want : Option Nat) (out : List DocId) :
    List DocId → Result (List DocId)
  | [] => .ok out
  | id :: ids =>
    if want.any (· ≤ out.length) then .ok out
    else do
      if ← test id then scan test want (out ++ [id]) ids else scan test want out ids

section Database

variable {B : Build} (S : Sorts Nat) (R : Rows) (ctx : EvalCtx B) (plan : Plan)

/-- **`matching_ids_to`**: the rows a filter selects, by id, no more than are asked for. -/
def matchingIds (filter : Option Expr) (cap want : Option Nat) : Result (List DocId) :=
  match filter with
  | none => .ok (upTo cap R.store.keys)
  | some f => do
    let test := fun id => (Filter.new R f ctx).matches id ctx
    match ← plan.candidates f want with
    -- the filter is exactly what the index answered
    | some (b, true) => pure (upTo cap b)
    | some (b, false) => scan test cap [] b
    | none =>
      let floor := (Planner.conjunctIdFloor ctx.params f).getD 0
      scan test cap [] (R.store.keys.filter (floor ≤ ·))

/-- What a key of an order reads. -/
def OrderBy.reads (o : OrderBy) : Expr := o.expr.getD (.field o.field)

/-- The key of an order: a text worked out of the row is in the collation named, or its bytes'. -/
def OrderBy.key (s : Schema) (o : OrderBy) : Result OrderKey :=
  match o.expr with
  | some _ => .ok ⟨none, o.asc, ⟨o.collate, none⟩, none⟩
  | none => orderKey s "" o.toSortBy

/-- `Reader::new`: an unknown name of an expression is refused. -/
def readerNew (s : Schema) (exprs : List Expr) : Result Unit :=
  (Expr.referencedAll [] exprs).forM fun n =>
    if n = "id" then .ok () else (s.sourceOrErr n).map fun _ => ()

/-- **`order_ids_by`**: the first `k` of some ids in an order, a key of it worked out of the row. -/
def orderIdsBy (order : List OrderBy) (ids : List DocId) (k : Nat) : Result (List DocId) := do
  let keys ← order.mapM (OrderBy.key R.schema)
  readerNew R.schema (order.map OrderBy.reads)
  let rows ← ids.mapM fun id => order.mapM fun o => eval ctx (R.row id) o.reads
  let (flat, keys) :=
    if keys.any (·.text.fold.isSome) then foldedKeys B rows.flatten keys else (rows.flatten, keys)
  pure ((orderRows S B flat order.length ids.length keys k).map fun i => ids.getD i 0)

/-- The number of rows a page ends at. -/
def Inner.stop (params : List Value) (sel : Inner) : Option Nat :=
  sel.limit.map fun l => l.at_ params + sel.offset.at_ params

/-- The matches put in order, as far as the page goes. -/
def orderPage (sel : Inner) (ids : List DocId) : Result (List DocId) :=
  let k := (sel.stop ctx.params).getD ids.length
  if sel.order.any (·.expr.isSome) then orderIdsBy S R ctx sel.order ids k
  else if sel.order.isEmpty then .ok ids
  else do
    let keys ← sel.order.mapM fun o => orderKey R.schema "" o.toSortBy
    pure (orderIds S B R ids keys k)

/-- The page where no index is walked: with no order, the scan stops at it. -/
def sortPage (sel : Inner) : Result (List DocId) := do
  let cap := if sel.order.isEmpty then sel.stop ctx.params else none
  orderPage S R ctx sel (← matchingIds R ctx plan sel.filter cap cap)

/-- **`page_ids`**, of a get that counts no facets. -/
def pageIds (sel : Inner) : Result (List DocId) := do
  match ← plan.walkOrder sel with
  | some ids => pure ids
  | none => sortPage S R ctx plan sel

/-- Where the column of a get is read. -/
def sourceOf (s : Schema) (sel : Inner) : Result Source :=
  match sel.computed.find? (·.1 = sel.column) with
  | some c => .ok (.calc c.2)
  | none => if sel.column = "id" then .ok .id else (s.sourceOrErr sel.column).map .at_

/-- A row's value of a column. -/
def readColumn (id : DocId) : Source → Result Value
  | .id => .ok (.int (Int64.ofNat id))
  | .at_ p => .ok (R.readSource id p)
  | .calc e => eval ctx (R.row id) e

/-- **`select`**: the column of a get, row by row. -/
def select (sel : Inner) : Result (List Value) := do
  let source ← sourceOf R.schema sel
  readerNew R.schema (sel.computed.map (·.2))
  let ids ← pageIds S R ctx plan sel
  (upTo (sel.limit.map (·.at_ ctx.params)) (ids.drop (sel.offset.at_ ctx.params))).mapM fun id =>
    readColumn R ctx id source

/-- **`distinct_column`**: the values of the column, `none` where they number more than the bound.
The ids are distinct already, and one past the bound is all the list need find. -/
def distinctColumn (sel : Inner) : Result (Option (List Value)) := do
  let at_ ← if sel.column = "id" then pure none else (R.schema.sourceOrErr sel.column).map some
  let cap := if at_.isNone then some (maxSubqueryValues + 1) else none
  let ids ← matchingIds R ctx plan sel.filter cap none
  pure (gather at_.isNone none [] (ids.map fun id => match at_ with
    | some p => R.readSource id p
    | none => .int (Int64.ofNat id)))

/-- Whether nothing of a get picks its rows by their number, and its column is a field's. -/
def Inner.plain (params : List Value) (sel : Inner) : Bool :=
  sel.computed.isEmpty && sel.limit.isNone && sel.offset.at_ params == 0

/-- A get with one row more than the bound. -/
def Inner.bounded (params : List Value) (sel : Inner) : Inner :=
  { sel with limit := some (.n (match sel.limit with
    | none => maxSubqueryValues + 1
    | some l => min (l.at_ params) (maxSubqueryValues + 1))) }

/-- The items of the list, none where it is past the bound. -/
def subqueryItems (sel : Inner) : Result (Option (List Value)) :=
  if sel.plain ctx.params then distinctColumn R ctx plan sel
  else do
    let values ← select S R ctx plan (sel.bounded ctx.params)
    pure (if values.length ≤ maxSubqueryValues then some (values.filter fun v => !v.isNull)
      else none)

/-- **`answer_subquery`**: what an `in (get ...)` becomes. -/
def answerSubquery (lhs : Expr) (sel : Inner) (depth : Nat) : Result Expr :=
  if maxSubqueryDepth ≤ depth then .error tooDeep
  else do
    match ← subqueryItems S R ctx plan sel with
    | some items => pure (.inList lhs (items.map .lit))
    | none => .error (pastBound sel.collection)

end Database

/-! ## 2. What a plan promises -/

section Promises

variable {B : Build} (S : Sorts Nat) (R : Rows) (ctx : EvalCtx B) (plan : Plan)

/-- Whether a filter that answers selects a row. -/
def passes (f : Expr) (id : DocId) : Bool :=
  match (Filter.new R f ctx).matches id ctx with
  | .ok b => b
  | .error _ => false

/-- The rows a filter selects, by id. -/
def matched : Option Expr → List DocId
  | none => R.store.keys
  | some f => R.store.keys.filter (passes R ctx f)

/-- A filter answers on every row. -/
def Answers (filter : Option Expr) : Prop :=
  ∀ f ∈ filter, ∀ id ∈ R.store.keys, ∃ b, (Filter.new R f ctx).matches id ctx = .ok b

/-- **A plan answers as a scan does**: the rows an index narrows a filter to hold the rows it
selects, and are these where it says so; a page walked is the page sorted. -/
structure Plan.Sound : Prop where
  candidates : ∀ f want, Answers R ctx (some f) →
    plan.candidates f want = .ok none ∨
    plan.candidates f want = .ok (some (matched R ctx (some f), true)) ∨
    ∃ b, plan.candidates f want = .ok (some (b, false)) ∧ b.Sublist R.store.keys ∧
      matched R ctx (some f) ⊆ b
  walked : ∀ sel ids, Answers R ctx sel.filter → plan.walkOrder sel = .ok (some ids) →
    sortPage S R ctx plan sel = .ok ids
  walks : ∀ sel ids, Answers R ctx sel.filter → sortPage S R ctx plan sel = .ok ids →
    ∃ r, plan.walkOrder sel = .ok r

end Promises

section Matches

variable {B : Build} {S : Sorts Nat} {R : Rows} {ctx : EvalCtx B} {plan : Plan}

theorem upTo_eq {α : Type} {want : Option Nat} {n : Nat} {l : List α} (h : l.length ≤ n) :
    upTo want l = l.take (want.getD n) := by
  cases want with
  | none => exact (List.take_of_length_le h).symm
  | some k => rfl

/-- **A scan leaves the first rows that pass.** -/
theorem scan_eq {test : DocId → Result Bool} {p : DocId → Bool} {want : Option Nat} :
    ∀ {ids out : List DocId}, (∀ id ∈ ids, test id = .ok (p id)) →
      (∀ k ∈ want, out.length ≤ k) → scan test want out ids = .ok (upTo want (out ++ ids.filter p))
  | [], out, _, hout => by
    rw [scan, List.filter_nil, List.append_nil]
    cases want with
    | none => rfl
    | some k => rw [upTo, List.take_of_length_le (hout k rfl)]
  | id :: ids, out, hp, hout => by
    have hrest : ∀ id ∈ ids, test id = .ok (p id) := fun i hi => hp i (List.mem_cons_of_mem _ hi)
    rw [scan]
    by_cases hfull : want.any (· ≤ out.length) = true
    · -- there are as many as are wanted
      rw [if_pos hfull]
      cases want with
      | none => cases hfull
      | some k =>
        have hlen := Nat.le_antisymm (hout k rfl) (of_decide_eq_true hfull)
        rw [upTo, ← hlen, List.take_left]
    · rw [if_neg hfull, hp id List.mem_cons_self, Result.ok_bind]
      cases hid : p id with
      | false =>
        rw [if_neg Bool.false_ne_true, scan_eq hrest hout, List.filter_cons_of_neg (by simp [hid])]
      | true =>
        rw [if_pos rfl, scan_eq hrest, List.filter_cons_of_pos hid, List.append_assoc,
          List.singleton_append]
        rintro k rfl
        have hk : ¬ k ≤ out.length := fun h => hfull (decide_eq_true h)
        rw [List.length_append, List.length_singleton]
        omega

/-- Rows that hold all that pass hold no more that pass. -/
theorem filter_of_holds {p : DocId → Bool} {b l : List DocId} (hb : b.Sublist l) (hl : l.Nodup)
    (hp : l.filter p ⊆ b) : b.filter p = l.filter p := by
  refine (hb.filter p).eq_of_length_le ?_
  refine ((hl.filter p).subperm fun x hx => ?_).length_le
  exact List.mem_filter.mpr ⟨hp hx, (List.mem_filter.mp hx).2⟩

theorem nodup_keys (R : Rows) : R.store.keys.Nodup :=
  R.store.keys_ascending.imp fun h => Nat.ne_of_lt h

theorem matched_subset (filter : Option Expr) : matched R ctx filter ⊆ R.store.keys := by
  cases filter with
  | none => exact List.Subset.refl _
  | some f => exact (List.filter_sublist (p := passes R ctx f)).subset

theorem matched_nodup (filter : Option Expr) : (matched R ctx filter).Nodup := by
  cases filter with
  | none => exact nodup_keys R
  | some f => exact (nodup_keys R).filter _

end Matches

/-! ## 3. The loop over the matches -/

/-- The values that are not null. -/
def present (vs : List Value) : List Value := vs.filter fun v => !v.isNull

/-- **How many distinct values, null aside, there are.** -/
noncomputable def distinct (vs : List Value) : Nat := {v | v ∈ vs ∧ v ≠ .null}.ncard

section Loop

variable {v : Value} {vs done : List Value}

theorem mem_present : v ∈ present vs ↔ v ∈ vs ∧ v ≠ .null := by
  rw [present, List.mem_filter, Bool.not_eq_true', ← Bool.not_eq_true, Value.isNull_iff]

/-- The first values of each encoding are the values. -/
theorem mem_firsts : v ∈ firsts encodeValue vs ↔ v ∈ vs := by
  constructor
  · exact mem_of_mem_firsts
  · intro h
    obtain ⟨w, hw, hwv⟩ : ∃ w ∈ firsts encodeValue vs, encodeValue w = encodeValue v :=
      exists_first h
    rwa [← encodeValue_inj hwv]

/-- **Distinct values are told apart by their encodings.** -/
theorem distinct_eq (vs : List Value) :
    distinct vs = (firsts encodeValue (present vs)).length := by
  classical
  have hset : {v | v ∈ vs ∧ v ≠ .null} =
      ((firsts encodeValue (present vs)).toFinset : Set Value) := by
    ext v
    simp only [Set.mem_ofPred_eq, List.coe_toFinset, mem_firsts, mem_present]
  rw [distinct, hset, Set.ncard_coe_finset, List.toFinset_card_of_nodup]
  exact (nodup_firsts (present vs)).of_map

theorem distinct_le (vs : List Value) : distinct vs ≤ vs.length := by
  rw [distinct_eq]
  exact Nat.le_trans (firsts_sublist _).length_le (List.length_filter_le _ _)

theorem distinct_congr {ws : List Value} (h : ∀ v, v ∈ vs ↔ v ∈ ws) :
    distinct vs = distinct ws := by
  unfold distinct
  simp only [h]

theorem contains_key : ((done.map encodeValue).contains (encodeValue v) = true) ↔
    ∃ w ∈ done, encodeValue w = encodeValue v := by
  simp

/-- A value is seen first where it is one of the first. -/
theorem firstSeen_firsts (done : List Value) (v : Value) :
    ((firstSeen ((firsts encodeValue done).map encodeValue) v).1 = false ∧
      firsts encodeValue (done ++ [v]) = firsts encodeValue done ∨
    (firstSeen ((firsts encodeValue done).map encodeValue) v).1 = true ∧
      firsts encodeValue (done ++ [v]) = firsts encodeValue done ++ [v]) ∧
    (firstSeen ((firsts encodeValue done).map encodeValue) v).2 =
      (firsts encodeValue (done ++ [v])).map encodeValue := by
  rw [firsts_concat]
  by_cases hseen : ∃ w ∈ firsts encodeValue done, encodeValue w = encodeValue v
  · rw [if_pos hseen, firstSeen, if_pos (contains_key.mpr hseen)]
    exact ⟨Or.inl ⟨rfl, rfl⟩, rfl⟩
  · rw [if_neg hseen, firstSeen, if_neg (fun h => hseen (contains_key.mp h)), List.map_append]
    exact ⟨Or.inr ⟨rfl, rfl⟩, rfl⟩

/-- Items told apart are the first of each encoding. -/
theorem tellApart_eq (items : List Value) : tellApart items =
    ((firsts encodeValue items).map encodeValue, firsts encodeValue items) := by
  induction items using List.reverseRecOn with
  | nil => rfl
  | append_singleton items v ih =>
    obtain ⟨hkeep, hset⟩ := firstSeen_firsts items v
    rw [tellApart, List.foldl_append, ← tellApart, ih, List.foldl_cons, List.foldl_nil]
    dsimp only
    rw [hset]
    rcases hkeep with ⟨hfirst, heq⟩ | ⟨hfirst, heq⟩
    · rw [hfirst, heq]
      rfl
    · rw [hfirst, heq]
      rfl

theorem firsts_le (xs ys : List Value) :
    (firsts encodeValue xs).length ≤ (firsts encodeValue (xs ++ ys)).length := by
  induction ys using List.reverseRecOn with
  | nil => rw [List.append_nil]
  | append_singleton ys v ih =>
    rw [← List.append_assoc, firsts_concat]
    split
    · exact ih
    · rw [List.length_append]
      omega

/-- **What is gathered** of the values so far: all of them, or the first of each encoding. -/
inductive Gathering (done : List Value) : Option (List Key) → List Value → Prop where
  | all (h : done.length ≤ maxSubqueryValues) : Gathering done none done
  | apart (h : (firsts encodeValue done).length ≤ maxSubqueryValues) :
    Gathering done (some ((firsts encodeValue done).map encodeValue)) (firsts encodeValue done)

/-- What the loop leaves: the values, or none where too many of them are distinct. -/
def Gathers (all : List Value) (items : Option (List Value)) : Prop :=
  (maxSubqueryValues < (firsts encodeValue all).length → items = none) ∧
    ((firsts encodeValue all).length ≤ maxSubqueryValues →
      ∃ l, items = some l ∧ ∀ v, v ∈ l ↔ v ∈ all)

/-- Too many before the end are too many. -/
theorem gathers_none {rest : List Value}
    (h : maxSubqueryValues < (firsts encodeValue done).length) :
    Gathers (done ++ rest) none :=
  ⟨fun _ => rfl, fun hle => absurd (Nat.le_trans (firsts_le done rest) hle) (Nat.not_le.mpr h)⟩

/-- **The bound of the loop is on the distinct values.** -/
theorem gather_spec {byId : Bool} : ∀ {vs done : List Value} {seen : Option (List Key)}
    {items : List Value}, Gathering done seen items →
      (byId = true → ((done ++ present vs).map encodeValue).Nodup) →
      Gathers (done ++ present vs) (gather byId seen items vs)
  | [], done, _, _, h, _ => by
    rw [gather, present, List.filter_nil, List.append_nil]
    cases h with
    | all h =>
      exact ⟨fun hlt => absurd (Nat.lt_of_lt_of_le hlt (firsts_sublist done).length_le)
        (Nat.not_lt.mpr h), fun _ => ⟨_, rfl, fun v => Iff.rfl⟩⟩
    | apart h =>
      exact ⟨fun hlt => absurd hlt (Nat.not_lt.mpr h), fun _ => ⟨_, rfl, fun v => mem_firsts⟩⟩
  | v :: vs, done, seen, items, h, hid => by
    rw [gather]
    by_cases hnull : v.isNull = true
    · have hrest : present (v :: vs) = present vs := List.filter_cons_of_neg (by simp [hnull])
      rw [hrest] at hid ⊢
      rw [if_pos hnull]
      exact gather_spec h hid
    · have hrest : done ++ present (v :: vs) = (done ++ [v]) ++ present vs := by
        rw [present, List.filter_cons_of_pos (by rw [Bool.eq_false_of_not_eq_true hnull]; rfl),
          List.append_assoc]
        rfl
      rw [if_neg hnull]
      rw [hrest] at hid ⊢
      dsimp only
      cases h with
      | all h =>
        rw [pushed, if_pos rfl]
        by_cases hpast : maxSubqueryValues < (done ++ [v]).length
        · rw [if_pos hpast]
          cases byId with
          | true =>
            -- the ids are distinct already
            have hself : firsts encodeValue (done ++ [v]) = done ++ [v] := by
              have hnodup := hid rfl
              rw [List.map_append] at hnodup
              exact firsts_eq_self (List.Nodup.of_append_left hnodup)
            exact gathers_none (by rwa [hself])
          | false =>
            rw [if_neg (by decide), tellApart_eq]
            by_cases hmany : maxSubqueryValues < (firsts encodeValue (done ++ [v])).length
            · rw [if_pos hmany]
              exact gathers_none hmany
            · rw [if_neg hmany]
              exact gather_spec (.apart (Nat.not_lt.mp hmany)) hid
        · rw [if_neg hpast]
          exact gather_spec (.all (Nat.not_lt.mp hpast)) hid
      | apart h =>
        obtain ⟨hkeep, hset⟩ := firstSeen_firsts done v
        rw [pushed]
        dsimp only
        rw [hset]
        rcases hkeep with ⟨hfirst, heq⟩ | ⟨hfirst, heq⟩
        · rw [hfirst, if_neg Bool.false_ne_true, ← heq]
          exact gather_spec (.apart (by rwa [heq])) hid
        · rw [hfirst, if_pos rfl, ← heq]
          by_cases hpast : maxSubqueryValues < (firsts encodeValue (done ++ [v])).length
          · rw [if_pos hpast, if_pos (by simp)]
            exact gathers_none hpast
          · rw [if_neg hpast]
            exact gather_spec (.apart (Nat.not_lt.mp hpast)) hid

end Loop

/-! ## 4. Pages -/

/-- **A list cut at any length**: its start up to there, and where that is past its end, all. -/
structure Cuts (O : Nat → List DocId) (ids : List DocId) : Prop where
  length : ∀ k, (O k).length = min k ids.length
  whole : ∀ k, ids.length ≤ k → O k = O ids.length
  perm : (O ids.length).Perm ids
  subset : ∀ k, O k ⊆ ids

section Order

variable {S : Sorts Nat} {B : Build} {flat : List Value} {n count k : Nat} {keys : List OrderKey}

theorem orderRows_subset (hS : S.Permutes) {i : Nat}
    (hi : i ∈ orderRows S B flat n count keys k) : i < count := by
  unfold orderRows at hi
  dsimp only at hi
  by_cases hk : k = 0
  · rw [if_pos hk] at hi
    cases hi
  · rw [if_neg hk] at hi
    have hmem := (hS.sort _ _).mem_iff.mp hi
    by_cases hlt : k < (List.range count).length
    · rw [if_pos hlt] at hmem
      exact List.mem_range.mp ((hS.select _ _ _).mem_iff.mp (List.mem_of_mem_take hmem))
    · rw [if_neg hlt] at hmem
      exact List.mem_range.mp hmem

theorem orderRows_length (hS : S.Permutes) :
    (orderRows S B flat n count keys k).length = min k count := by
  unfold orderRows
  dsimp only
  by_cases hk : k = 0
  · rw [if_pos hk, hk, Nat.zero_min]
    rfl
  · rw [if_neg hk, (hS.sort _ _).length_eq]
    by_cases hlt : k < (List.range count).length
    · rw [if_pos hlt, List.length_take, (hS.select _ _ _).length_eq, List.length_range]
    · rw [if_neg hlt, List.length_range]
      rw [List.length_range] at hlt
      omega

theorem orderRows_whole (hS : S.Permutes) (h : count ≤ k) :
    orderRows S B flat n count keys k = orderRows S B flat n count keys count := by
  rcases Nat.eq_zero_or_pos count with rfl | hpos
  · have hnil : ∀ j, orderRows S B flat n 0 keys j = [] := fun j =>
      List.eq_nil_of_length_eq_zero (by rw [orderRows_length hS, Nat.min_zero])
    rw [hnil, hnil]
  · unfold orderRows
    dsimp only
    have hk : ¬ k = 0 := by omega
    have hcount : ¬ count = 0 := by omega
    rw [if_neg hk, if_neg hcount, List.length_range, if_neg (Nat.not_lt.mpr h),
      if_neg (Nat.lt_irrefl _)]

theorem orderRows_perm (hS : S.Permutes) :
    (orderRows S B flat n count keys count).Perm (List.range count) := by
  unfold orderRows
  dsimp only
  by_cases hk : count = 0
  · rw [if_pos hk, hk]
    exact List.Perm.nil
  · rw [if_neg hk, List.length_range, if_neg (Nat.lt_irrefl _)]
    exact hS.sort _ _

/-- **An order is cut at a page**, whatever its comparison. -/
theorem cuts_orderRows (hS : S.Permutes) (ids : List DocId) :
    Cuts (fun k => (orderRows S B flat n ids.length keys k).map fun i => ids.getD i 0) ids where
  length k := by rw [List.length_map, orderRows_length hS]
  whole k hk := by rw [orderRows_whole hS hk]
  perm := by
    have hself : (List.range ids.length).map (fun i => ids.getD i 0) = ids := by
      refine List.ext_getElem (by simp) fun i hi hi' => ?_
      simp [List.getD_eq_getElem?_getD, List.getElem?_eq_getElem hi']
    have hperm : ((orderRows S B flat n ids.length keys ids.length).map fun i => ids.getD i 0).Perm
        ((List.range ids.length).map fun i => ids.getD i 0) := (orderRows_perm hS).map _
    rwa [hself] at hperm
  subset k id hid := by
    obtain ⟨i, hi, rfl⟩ := List.mem_map.mp hid
    have hlt := orderRows_subset hS hi
    rw [List.getD_eq_getElem?_getD, List.getElem?_eq_getElem hlt]
    exact List.getElem_mem hlt

theorem cuts_take (ids : List DocId) : Cuts ids.take ids where
  length k := List.length_take
  whole k hk := by rw [List.take_of_length_le hk, List.take_length]
  perm := by rw [List.take_length]
  subset k := List.take_subset k ids

theorem cuts_orderIds {R : Rows} (hS : S.Permutes) (ids : List DocId) :
    Cuts (orderIds S B R ids keys) ids := by
  obtain ⟨flat, keys', hcode⟩ : ∃ flat keys', ∀ k, orderIds S B R ids keys k =
      (orderRows S B flat keys.length ids.length keys' k).map fun i => ids.getD i 0 := by
    let flat := ids.flatMap fun id => keys.map (keyValue R id)
    by_cases hfold : keys.any (·.text.fold.isSome) = true
    · refine ⟨(foldedKeys B flat keys).1, (foldedKeys B flat keys).2, fun k => ?_⟩
      unfold orderIds
      dsimp only
      rw [if_pos hfold]
      by_cases hk : k = 0
      · rw [if_pos hk, hk]
        rfl
      · rw [if_neg hk]
    · refine ⟨flat, keys, fun k => ?_⟩
      unfold orderIds
      dsimp only
      rw [if_neg hfold]
      by_cases hk : k = 0
      · rw [if_pos hk, hk]
        rfl
      · rw [if_neg hk]
  rw [funext hcode]
  exact cuts_orderRows hS ids

end Order

section Pages

variable {B : Build} {S : Sorts Nat} {R : Rows} {ctx : EvalCtx B} {plan : Plan} {sel : Inner}

/-- A get with another limit. -/
abbrev Inner.to_ (sel : Inner) (limit : Option Count) : Inner := { sel with limit := limit }

/-- The rows of a page, of an order cut where it ends. -/
def Inner.pageOf (params : List Value) (sel : Inner) (O : Nat → List DocId) (n : Nat) :
    List DocId :=
  upTo (sel.limit.map (·.at_ params))
    ((O ((sel.stop params).getD n)).drop (sel.offset.at_ params))

@[simp] theorem Count.at_n (params : List Value) (k : Nat) : (Count.n k).at_ params = k := rfl

/-- An order's page with another limit is the same order cut elsewhere. -/
theorem orderPage_cuts (hS : S.Permutes) (hord : sel.order ≠ []) {m ids : List DocId}
    (h : orderPage S R ctx sel m = .ok ids) :
    ∃ O, Cuts O m ∧ ∀ limit, orderPage S R ctx (sel.to_ limit) m =
      .ok (O (((sel.to_ limit).stop ctx.params).getD m.length)) := by
  unfold orderPage at h
  dsimp only at h
  by_cases hexpr : sel.order.any (·.expr.isSome) = true
  · rw [if_pos hexpr, orderIdsBy] at h
    obtain ⟨keys, hkeys, h⟩ := bind_ok h
    obtain ⟨u, hu, h⟩ := bind_ok h
    obtain ⟨rows, hrows, -⟩ := bind_ok h
    obtain ⟨⟩ := u
    let cut := if keys.any (·.text.fold.isSome) then foldedKeys B rows.flatten keys
      else (rows.flatten, keys)
    refine ⟨fun k => (orderRows S B cut.1 sel.order.length m.length cut.2 k).map
      fun i => m.getD i 0, cuts_orderRows hS m, fun limit => ?_⟩
    unfold orderPage
    dsimp only
    rw [if_pos hexpr, orderIdsBy, hkeys, Result.ok_bind, hu, Result.ok_bind, hrows,
      Result.ok_bind]
    rfl
  · have hempty : sel.order.isEmpty = false := by
      rw [List.isEmpty_eq_false_iff]
      exact hord
    rw [if_neg hexpr, hempty, if_neg Bool.false_ne_true] at h
    obtain ⟨keys, hkeys, -⟩ := bind_ok h
    refine ⟨orderIds S B R m keys, cuts_orderIds hS m, fun limit => ?_⟩
    unfold orderPage
    dsimp only
    rw [if_neg hexpr, hempty, if_neg Bool.false_ne_true, hkeys, Result.ok_bind]
    rfl

/-- A page is the page sorted. -/
theorem pageIds_iff (hplan : plan.Sound S R ctx) (hf : Answers R ctx sel.filter)
    {ids : List DocId} :
    pageIds S R ctx plan sel = .ok ids ↔ sortPage S R ctx plan sel = .ok ids := by
  constructor
  · intro h
    obtain ⟨r, hr, h⟩ := bind_ok h
    cases r with
    | none => exact h
    | some walked =>
      obtain rfl := Except.ok.inj h
      exact hplan.walked sel _ hf hr
  · intro h
    obtain ⟨r, hr⟩ := hplan.walks sel ids hf h
    unfold pageIds
    rw [hr, Result.ok_bind]
    cases r with
    | none => exact h
    | some walked => exact (hplan.walked sel _ hf hr).symm.trans h

theorem upTo_length {α : Type} (want : Option Nat) (l : List α) :
    (upTo want l).length = min (want.getD l.length) l.length := by
  rw [upTo_eq (Nat.le_refl _), List.length_take]

/-- **One row past the bound is all it takes**: a page within it is read whole, and one past it is
past it still. -/
theorem pageOf_bounded {O : Nat → List DocId} {m : List DocId} (hO : Cuts O m)
    (params : List Value) (sel : Inner) :
    ((sel.pageOf params O m.length).length ≤ maxSubqueryValues →
      (sel.bounded params).pageOf params O m.length = sel.pageOf params O m.length) ∧
    (maxSubqueryValues < (sel.pageOf params O m.length).length →
      maxSubqueryValues < ((sel.bounded params).pageOf params O m.length).length) := by
  unfold Inner.pageOf
  rw [upTo_length, upTo_length, List.length_drop, List.length_drop, hO.length, hO.length]
  have hbounded : (sel.bounded params).offset = sel.offset := rfl
  rw [hbounded]
  generalize hoff : sel.offset.at_ params = off
  cases hlimit : sel.limit with
  | none =>
    have hstop : sel.stop params = none := by rw [Inner.stop, hlimit, Option.map_none]
    have hstop' : (sel.bounded params).stop params = some (maxSubqueryValues + 1 + off) := by
      simp only [Inner.stop, Inner.bounded, hlimit, Option.map_some, Count.at_n, hoff]
    have hat : (sel.bounded params).limit.map (·.at_ params) = some (maxSubqueryValues + 1) := by
      simp only [Inner.bounded, hlimit, Option.map_some, Count.at_n]
    rw [hstop, hstop', hat, Option.map_none, Option.getD_none, Option.getD_none,
      Option.getD_some, Option.getD_some]
    refine ⟨fun hle => ?_, fun hlt => by omega⟩
    rw [hO.whole (maxSubqueryValues + 1 + off) (by omega), upTo, upTo, List.take_of_length_le]
    rw [List.length_drop, hO.length]
    omega
  | some l =>
    have hstop : sel.stop params = some (l.at_ params + off) := by
      rw [Inner.stop, hlimit, Option.map_some, hoff]
    have hstop' : (sel.bounded params).stop params =
        some (min (l.at_ params) (maxSubqueryValues + 1) + off) := by
      simp only [Inner.stop, Inner.bounded, hlimit, Option.map_some, Count.at_n, hoff]
    have hat : (sel.bounded params).limit.map (·.at_ params) =
        some (min (l.at_ params) (maxSubqueryValues + 1)) := by
      simp only [Inner.bounded, hlimit, Option.map_some, Count.at_n]
    rw [hstop, hstop', hat, Option.map_some, Option.getD_some, Option.getD_some,
      Option.getD_some, Option.getD_some]
    refine ⟨fun hle => ?_, fun hlt => by omega⟩
    by_cases hl : l.at_ params ≤ maxSubqueryValues
    · rw [Nat.min_eq_left (by omega)]
    · -- the matches end before either page does
      have hdone : m.length ≤ maxSubqueryValues + off := by omega
      rw [hO.whole (min (l.at_ params) (maxSubqueryValues + 1) + off) (by omega),
        hO.whole (l.at_ params + off) (by omega), upTo, upTo, List.take_of_length_le,
        List.take_of_length_le]
      · rw [List.length_drop, hO.length]
        omega
      · rw [List.length_drop, hO.length]
        omega

end Pages

/-! ## 5. The list -/

section Items

variable {B : Build} {S : Sorts Nat} {R : Rows} {ctx : EvalCtx B} {plan : Plan} {sel : Inner}
  {vs : List Value}

variable (R ctx) in
/-- A column is read of every row. -/
def Readable (sel : Inner) : Prop :=
  ∀ source, sourceOf R.schema sel = .ok source → ∀ id ∈ R.store.keys,
    ∃ v, readColumn R ctx id source = .ok v

variable (R ctx) in
/-- The value of a column that is read. -/
def valueAt (source : Source) (id : DocId) : Value :=
  match readColumn R ctx id source with
  | .ok v => v
  | .error _ => .null

/-- What the list's items are to be of a column's values. -/
def Lists (vs : List Value) (items : Option (List Value)) : Prop :=
  (maxSubqueryValues < distinct vs → items = none) ∧
    (distinct vs ≤ maxSubqueryValues →
      ∃ l, items = some l ∧ ∀ v, v ∈ l ↔ v ∈ vs ∧ v ≠ .null)

theorem Lists.congr {ws : List Value} {items : Option (List Value)} (h : Lists vs items)
    (hmem : ∀ v, v ∈ vs ↔ v ∈ ws) : Lists ws items := by
  have hsame := distinct_congr hmem
  refine ⟨fun hlt => h.1 (by rwa [hsame]), fun hle => ?_⟩
  obtain ⟨l, hl, hl'⟩ := h.2 (by rwa [hsame])
  exact ⟨l, hl, fun v => (hl' v).trans (and_congr_left fun _ => hmem v)⟩

/-- The loop lists the values it gathers. -/
theorem Gathers.lists {items : Option (List Value)} (h : Gathers (present vs) items) :
    Lists vs items := by
  unfold Lists
  rw [distinct_eq]
  refine ⟨h.1, fun hle => ?_⟩
  obtain ⟨l, hl, hl'⟩ := h.2 hle
  exact ⟨l, hl, fun v => (hl' v).trans mem_present⟩

/-- The loop over a field's values. -/
theorem gather_lists (vs : List Value) : Lists vs (gather false none [] vs) := by
  have hspec : Gathers ([] ++ present vs) (gather false none [] vs) :=
    gather_spec (.all (Nat.zero_le _)) fun h => by cases h
  exact Gathers.lists hspec

theorem ofNat_inj {a b : Nat} (ha : a < 2 ^ 64) (hb : b < 2 ^ 64)
    (h : Int64.ofNat a = Int64.ofNat b) : a = b := by
  have hword : (UInt64.ofNat a) = UInt64.ofNat b := congrArg Int64.toUInt64 h
  have hnat := congrArg UInt64.toNat hword
  rwa [UInt64.toNat_ofNat_of_lt' ha, UInt64.toNat_ofNat_of_lt' hb] at hnat

/-- **The loop over ids stops one past the bound**, and is right to. -/
theorem gather_ids {ids : List DocId} (hids : ∀ id ∈ ids, id < 2 ^ 64) (hnodup : ids.Nodup) :
    Lists (ids.map fun id => .int (Int64.ofNat id)) (gather true none []
      ((upTo (some (maxSubqueryValues + 1)) ids).map fun id => .int (Int64.ofNat id))) := by
  have hpresent : ∀ l : List DocId, present (l.map fun id => .int (Int64.ofNat id)) =
      l.map fun id => .int (Int64.ofNat id) := by
    intro l
    refine List.filter_eq_self.mpr fun v hv => ?_
    obtain ⟨id, -, rfl⟩ := List.mem_map.mp hv
    rfl
  have hkeys : ∀ l : List DocId, l.Sublist ids →
      ((l.map fun id => Value.int (Int64.ofNat id)).map encodeValue).Nodup := by
    intro l hl
    rw [List.map_map]
    refine (hnodup.sublist hl).map_on fun a ha b hb h => ?_
    exact ofNat_inj (hids a (hl.subset ha)) (hids b (hl.subset hb))
      (Value.int.inj (encodeValue_inj h))
  have hlen : distinct (ids.map fun id => .int (Int64.ofNat id)) = ids.length := by
    rw [distinct_eq, hpresent, firsts_eq_self (hkeys ids (List.Sublist.refl _)), List.length_map]
  have htake := List.take_sublist (maxSubqueryValues + 1) ids
  let first := (ids.take (maxSubqueryValues + 1)).map fun id => Value.int (Int64.ofNat id)
  have hspec : Gathers ([] ++ present first) (gather true none [] first) := by
    refine gather_spec (.all (Nat.zero_le _)) fun _ => ?_
    rw [List.nil_append, hpresent]
    exact hkeys _ htake
  have hlist : Lists first (gather true none [] first) := Gathers.lists hspec
  have hfirst : first =
      (ids.take (maxSubqueryValues + 1)).map fun id => Value.int (Int64.ofNat id) := rfl
  have hlen' : distinct ((ids.take (maxSubqueryValues + 1)).map fun id =>
      Value.int (Int64.ofNat id)) = min (maxSubqueryValues + 1) ids.length := by
    rw [distinct_eq, hpresent, firsts_eq_self (hkeys _ htake), List.length_map, List.length_take]
  rw [upTo]
  by_cases hfit : ids.length ≤ maxSubqueryValues
  · rw [hfirst] at hlist
    rwa [List.take_of_length_le (Nat.le_succ_of_le hfit)] at hlist ⊢
  · refine ⟨fun _ => hlist.1 ?_, fun hle => absurd (hlen ▸ hle) hfit⟩
    rw [hlen']
    omega

end Items

/-! ## 6. The result -/

section Answer

variable {B : Build} {S : Sorts Nat} {R : Rows} {ctx : EvalCtx B} {plan : Plan} {sel : Inner}
  {vs : List Value}

/-- An `in` of values finds what is one of them. -/
theorem evalIn_lits {row : Row} {fold : Option CaseFold} {l : Value} :
    ∀ items : List Value, evalIn ctx row fold l (items.map .lit) =
      .ok (items.any fun v => inSame B fold v l)
  | [] => rfl
  | v :: items => by
    rw [List.map_cons, evalIn, eval, Result.ok_bind, evalIn_lits items, List.any_cons]
    cases inSame B fold v l with
    | false => rfl
    | true => rfl

variable (ctx) in
/-- **A list finds the rows of a column's values**: of any collection, those whose left side is one
of the values, null aside. -/
def Finds (lhs : Expr) (vs items : List Value) : Prop :=
  ∀ (T : Rows) (id : DocId),
    (Filter.new T (.inList lhs (items.map .lit)) ctx).matches id ctx =
      (eval ctx (T.row id) lhs).map fun l =>
        (present vs).any fun v => inSame B (foldedAs (T.row id) lhs) v l

variable (ctx) in
/-- **What an inner get is answered by**: the list of its column's values, and where they are too
many a refusal. -/
def Answered (lhs : Expr) (sel : Inner) (vs : List Value) (answer : Result Expr) : Prop :=
  (maxSubqueryValues < distinct vs → answer = .error (pastBound sel.collection)) ∧
    (distinct vs ≤ maxSubqueryValues →
      ∃ items, answer = .ok (.inList lhs (items.map .lit)) ∧ Finds ctx lhs vs items)

/-- The items make the answer. -/
theorem answer_listed {lhs : Expr} {depth : Nat} (hdepth : depth < maxSubqueryDepth)
    {items : List Value} (h : subqueryItems S R ctx plan sel = .ok (some items)) :
    answerSubquery S R ctx plan lhs sel depth = .ok (.inList lhs (items.map .lit)) := by
  unfold answerSubquery
  rw [if_neg (Nat.not_le.mpr hdepth), h]
  rfl

theorem answer_refused {lhs : Expr} {depth : Nat} (hdepth : depth < maxSubqueryDepth)
    (h : subqueryItems S R ctx plan sel = .ok none) :
    answerSubquery S R ctx plan lhs sel depth = .error (pastBound sel.collection) := by
  unfold answerSubquery
  rw [if_neg (Nat.not_le.mpr hdepth), h]
  rfl

end Answer

/-! ### Rows of one value -/

/-- `create collection t (n int)`. -/
def onesSchema : Schema where
  name := "t"
  fields := [⟨"n", .int, .none, false, none, false⟩]
  paths := []
  dropped := []
  composites := []

theorem onesSchema_wf : onesSchema.WF where
  nodup := by decide
  not_id := by decide
  no_dot := by decide
  nocase_text := by decide

theorem ones_ascending (n : Nat) :
    ((List.range n).map fun i => (i + 1, ([.int 1] : Payload))).Pairwise fun a b => a.1 < b.1 := by
  rw [List.pairwise_map]
  exact List.pairwise_lt_range.imp fun h => Nat.succ_lt_succ h

/-- Rows `1` to `n` of the one value `1`. -/
def onesStore (n : Nat) : OrdMap Payload := ⟨_, ones_ascending n⟩

theorem onesStore_get {n id : Nat} {p : Payload} (h : (onesStore n).get id = some p) :
    p = [.int 1] := by
  obtain ⟨i, -, hi⟩ := List.mem_map.mp (OrdMap.mem_entries_iff.mpr h)
  exact (Prod.mk.inj hi).2.symm

theorem ones_typed (n : Nat) : ∀ id p, (onesStore n).get id = some p → ∀ pos f,
    onesSchema.fields[pos]? = some f → Typed f.ty (p.at (onesSchema.place pos)) := by
  intro id p hp pos f hf
  rw [onesStore_get hp]
  cases pos with
  | zero =>
    obtain rfl := Option.some.inj hf
    unfold Typed
    decide +kernel
  | succ pos => cases hf

def ones (n : Nat) : Rows := ⟨onesSchema, onesStore n, onesSchema_wf, ones_typed n⟩

/-- `get t select n`, with a limit or none. -/
def onesGet (limit : Option Count) : Inner := ⟨"t", none, [], limit, .n 0, "n", []⟩

/-- The context of a query with no parameters. -/
def onesCtx : EvalCtx Build.ascii := ⟨[], Registry.builtin Build.ascii, none⟩

/-- No index. -/
def Plan.scans : Plan := ⟨fun _ _ => .ok none, fun _ => .ok none⟩

theorem Plan.scans_sound {B : Build} (S : Sorts Nat) (R : Rows) (ctx : EvalCtx B) :
    Plan.scans.Sound S R ctx where
  candidates _ _ _ := Or.inl rfl
  walked _ _ _ h := by cases h
  walks _ _ _ _ := ⟨none, rfl⟩

theorem ones_keys (n : Nat) : (ones n).store.keys = (List.range n).map (· + 1) := by
  change ((List.range n).map _).map _ = _
  rw [List.map_map]
  rfl

theorem ones_source (limit : Option Count) :
    sourceOf onesSchema (onesGet limit) = .ok (.at_ (0, none)) := by
  have hread : onesSchema.sourceOrErr "n" = .ok (0, none) := by decide +kernel
  change (onesSchema.sourceOrErr "n").map Source.at_ = _
  rw [hread]
  rfl

theorem ones_read {n id : Nat} (h : id ∈ (ones n).store.keys) :
    readColumn (ones n) onesCtx id (.at_ (0, none)) = .ok (.int 1) := by
  obtain ⟨p, hp⟩ := OrdMap.mem_keys_iff.mp h
  have hget : (ones n).readField id 0 = some (p.at (onesSchema.place 0)) := by
    change ((ones n).store.get id).map _ = _
    rw [hp]
    rfl
  change Except.ok (((ones n).readField id 0).getD .null) = _
  rw [hget, onesStore_get hp]
  rfl

theorem ones_readable (n : Nat) (limit : Option Count) :
    Readable (ones n) onesCtx (onesGet limit) := by
  intro source hsource id hid
  obtain rfl := Except.ok.inj (hsource.symm.trans (ones_source limit))
  exact ⟨_, ones_read hid⟩

/-- Every row's value is the one value. -/
theorem ones_select (S : Sorts Nat) (n : Nat) (limit : Option Count)
    (hlimit : ∀ l ∈ limit, l.at_ [] = n) :
    select S (ones n) onesCtx Plan.scans (onesGet limit) = .ok (List.replicate n (.int 1)) := by
  have hlen : ((ones n).store.keys).length = n := by
    rw [ones_keys, List.length_map, List.length_range]
  have hpage : pageIds S (ones n) onesCtx Plan.scans (onesGet limit) = .ok (ones n).store.keys := by
    change Except.ok (upTo ((onesGet limit).stop []) (ones n).store.keys) = _
    cases limit with
    | none => rfl
    | some l =>
      change Except.ok ((ones n).store.keys.take (l.at_ [] + 0)) = _
      rw [hlimit l rfl, List.take_of_length_le (by omega)]
  have hrows : upTo (limit.map (·.at_ [])) ((ones n).store.keys.drop 0) = (ones n).store.keys := by
    cases limit with
    | none => rfl
    | some l =>
      change (ones n).store.keys.take (l.at_ []) = _
      rw [hlimit l rfl, List.take_of_length_le (by omega)]
  unfold select
  change sourceOf onesSchema (onesGet limit) >>= _ = _
  rw [ones_source, Result.ok_bind]
  change (readerNew onesSchema [] >>= fun _ =>
    pageIds S (ones n) onesCtx Plan.scans (onesGet limit) >>= _) = _
  rw [hpage]
  change (upTo (limit.map (·.at_ [])) ((ones n).store.keys.drop 0)).mapM _ = _
  rw [hrows, mapM_eq_pure fun id hid => ones_read hid, List.map_const', hlen]
  rfl

theorem distinct_ones {n : Nat} (h : 0 < n) : distinct (List.replicate n (.int 1)) = 1 := by
  have hset : {v | v ∈ List.replicate n (Value.int 1) ∧ v ≠ .null} = {.int 1} := by
    ext v
    simp only [Set.mem_ofPred_eq, List.mem_replicate, Set.mem_singleton_iff]
    constructor
    · rintro ⟨⟨-, h⟩, -⟩
      exact h
    · rintro rfl
      exact ⟨⟨Nat.ne_of_gt h, rfl⟩, nofun⟩
  rw [distinct, hset, Set.ncard_singleton]

end Fenec.Subquery
