/-
# What the planner reads off a filter

Before a query is run, the equalities, the `in` lists, the comparisons and the least id that its
filter's `and` chain asks for are collected, each with the field on the left and its value at hand.
A comparison collected is the term it was read off, turned round where the field stood on the right
(`eval_rangeKey`), so it holds wherever the filter does; an `in` list's is one of the equalities that
the evaluator tries (`inSame_eq`).

`fold_now` and `answer_expired` rewrite a filter before it is planned.  What is around an expression
sees no more of it than its value and the order of its texts (`Alike`), so an expression that is put
for another of the same value changes nothing: `now()` for the time it comes to (`alike_foldNow`),
and `expired()` for a test, where it is that test it answers (`alike_answerExpired`).
-/
import Fenec.Conjuncts
import Fenec.ValueOrder

namespace Fenec

open Lib Case Expr

namespace Planner

/-! ## 1. Reading a filter -/

/-- The value of a literal or of a parameter that is bound. -/
def value (params : List Value) : Expr → Option Value
  | .lit v => some v
  | .param i => params[i]?
  | _ => none

/-- A field against a value. -/
def fieldValue (params : List Value) : Expr → Expr → Option (String × Value)
  | .field f, e => (value params e).map (f, ·)
  | _, _ => none

/-- `Expr::equality_key`. -/
def equalityKey (params : List Value) : Expr → Option (String × Value)
  | .cmp .eq a b => (fieldValue params a b).or (fieldValue params b a)
  | _ => none

/-- `Expr::range_key`. -/
def rangeKey (params : List Value) : Expr → Option (String × CmpOp × Value)
  | .cmp op a b =>
    if op = .ne then none
    else match fieldValue params a b with
      | some (f, v) => some (f, op, v)
      | none => (fieldValue params b a).map fun (f, v) => (f, op.flip, v)
  | _ => none

/-- The values of a list's items, where every one is at hand. -/
def values (params : List Value) : List Expr → Option (List Value)
  | [] => some []
  | it :: items => (value params it).bind fun v => (values params items).map (v :: ·)

/-- An `in` list of a field. -/
def inSet (params : List Value) : Expr → Option (String × List Value)
  | .inList (.field f) items => (values params items).map (f, ·)
  | _ => none

/-- `Expr::conjunct_equalities`. -/
def conjunctEqualities (params : List Value) : Expr → List (String × Value)
  | .and a b => conjunctEqualities params a ++ conjunctEqualities params b
  | e => (equalityKey params e).toList

/-- `Expr::conjunct_in_sets`. -/
def conjunctInSets (params : List Value) : Expr → List (String × List Value)
  | .and a b => conjunctInSets params a ++ conjunctInSets params b
  | e => (inSet params e).toList

/-- `Expr::conjunct_ranges`. -/
def conjunctRanges (params : List Value) : Expr → List (String × CmpOp × Value)
  | .and a b => conjunctRanges params a ++ conjunctRanges params b
  | e => (rangeKey params e).toList

/-- `Expr::only_ranges_on`. -/
def onlyRangesOn (field : String) (params : List Value) : Expr → Bool
  | .and a b => onlyRangesOn field params a && onlyRangesOn field params b
  | e => (rangeKey params e).any fun r => r.1 == field

/-- A field `id` in an expression. -/
def isId : Expr → Bool
  | .field f => f == "id"
  | _ => false

/-- A whole number at hand. -/
def whole (params : List Value) (e : Expr) : Option Int64 :=
  match value params e with
  | some (.int i) => some i
  | _ => none

/-- `i64::saturating_add` of nought or one, cut at zero. -/
def floorOf (strict : Bool) (x : Int64) : Nat := (min (x.toInt + strict.toNat) (2 ^ 63 - 1)).toNat

/-- `Expr::conjunct_id_floor`. -/
def conjunctIdFloor (params : List Value) : Expr → Option Nat
  | .and a b =>
    match conjunctIdFloor params a, conjunctIdFloor params b with
    | some x, some y => some (max x y)
    | x, y => x.or y
  | .cmp .gt a b => if isId a then (whole params b).map (floorOf true) else none
  | .cmp .ge a b => if isId a then (whole params b).map (floorOf false) else none
  | .cmp .lt a b => if isId b then (whole params a).map (floorOf true) else none
  | .cmp .le a b => if isId b then (whole params a).map (floorOf false) else none
  | _ => none

/-! ## 2. Rewriting a filter -/

/-- What two sides of an arithmetic come to, where both are at hand and it works out. -/
def worked (params : List Value) (op : ArithOp) (a b : Expr) : Expr :=
  match value params a, value params b with
  | some l, some r => match Fenec.arith op l r with
    | .ok v => .lit v
    | .error _ => .arith op a b
  | _, _ => .arith op a b

/-- Two rewritten parts put together. -/
def both {α β γ : Type} (f : α → β → γ) (a : α × Bool) (b : β × Bool) : γ × Bool :=
  (f a.1 b.1, a.2 || b.2)

/-- Two parts that are left as they are make up what they made up. -/
theorem both_of_false {α β γ : Type} {f : α → β → γ} {a : α × Bool} {b : β × Bool} {x : α} {y : β}
    (ha : a.2 = false → a.1 = x) (hb : b.2 = false → b.1 = y) (h : (both f a b).2 = false) :
    (both f a b).1 = f x y := by
  obtain ⟨h1, h2⟩ := Bool.or_eq_false_iff.mp h
  rw [both, ha h1, hb h2]

section Rewriting

variable (now : Value) (params : List Value) (past : Expr)

mutual

/-- `Expr::fold_now`. -/
def foldNow : Expr → Expr
  | .call name args =>
    if args.isEmpty && sameName name "now" then .lit now else .call name (foldAll args)
  | .arith op a b => worked params op (foldNow a) (foldNow b)
  | .field f => .field f
  | .lit v => .lit v
  | .param i => .param i
  | .and a b => .and (foldNow a) (foldNow b)
  | .or a b => .or (foldNow a) (foldNow b)
  | .cmp op a b => .cmp op (foldNow a) (foldNow b)
  | .like a b => .like (foldNow a) (foldNow b)
  | .has a b => .has (foldNow a) (foldNow b)
  | .not a => .not (foldNow a)
  | .isNull a => .isNull (foldNow a)
  | .inSelect a => .inSelect (foldNow a)
  | .inList a items => .inList (foldNow a) (foldAll items)
termination_by structural e => e

/-- `foldNow` over several expressions. -/
def foldAll : List Expr → List Expr
  | [] => []
  | e :: es => foldNow e :: foldAll es
termination_by structural es => es

end

mutual

/-- `Expr::answer_expired`: the expression rewritten, and whether it held an `expired()`. -/
def answerExpired : Expr → Expr × Bool
  | .call name args =>
    if args.isEmpty && sameName name "expired" then (past, true)
    else (.call name (answerAll args).1, (answerAll args).2)
  | .field f => (.field f, false)
  | .lit v => (.lit v, false)
  | .param i => (.param i, false)
  | .and a b => both .and (answerExpired a) (answerExpired b)
  | .or a b => both .or (answerExpired a) (answerExpired b)
  | .cmp op a b => both (.cmp op) (answerExpired a) (answerExpired b)
  | .like a b => both .like (answerExpired a) (answerExpired b)
  | .has a b => both .has (answerExpired a) (answerExpired b)
  | .arith op a b => both (.arith op) (answerExpired a) (answerExpired b)
  | .not a => (.not (answerExpired a).1, (answerExpired a).2)
  | .isNull a => (.isNull (answerExpired a).1, (answerExpired a).2)
  | .inSelect a => (.inSelect (answerExpired a).1, (answerExpired a).2)
  | .inList a items => both .inList (answerExpired a) (answerAll items)
termination_by structural e => e

/-- `answerExpired` over several expressions. -/
def answerAll : List Expr → List Expr × Bool
  | [] => ([], false)
  | e :: es => both .cons (answerExpired e) (answerAll es)
termination_by structural es => es

end

end Rewriting

/-! ## 3. What is read off a filter holds where it does -/

section Reading

variable {B : Build} (ctx : EvalCtx B) (row : Row)

/-- A comparison of a field with a value. -/
abbrev compared (f : String) (op : CmpOp) (v : Value) : Expr := .cmp op (.field f) (.lit v)

variable {ctx row} {e a b : Expr} {f : String} {op : CmpOp} {v l : Value} {vs : List Value}

theorem eval_lit (v : Value) : eval ctx row (.lit v) = .ok v := by rw [eval]

theorem eval_cmp : eval ctx row (.cmp op a b) = (do
    let l ← eval ctx row a
    let r ← eval ctx row b
    pure (.bool (cmpSides B row op a b l r))) := by rw [eval]

theorem alike_value (h : value ctx.params e = some v) : Alike ctx ctx row row e (.lit v) := by
  cases e with
  | lit w =>
    obtain rfl := Option.some.inj h
    exact ⟨rfl, rfl⟩
  | param i =>
    have hi : ctx.params[i]? = some v := h
    have hparam : eval ctx row (.param i) = .ok v := by rw [eval, hi]
    exact ⟨hparam.trans (eval_lit v).symm, rfl⟩
  | _ => cases h

theorem alike_field : Alike ctx ctx row row (.field f) (.field f) := ⟨rfl, rfl⟩

theorem fieldValue_eq_some (h : fieldValue ctx.params a b = some (f, v)) :
    a = .field f ∧ value ctx.params b = some v := by
  cases a with
  | field g =>
    obtain ⟨w, hw, heq⟩ := Option.map_eq_some_iff.mp h
    obtain ⟨rfl, rfl⟩ := Prod.mk.inj heq
    exact ⟨rfl, hw⟩
  | _ => cases h

/-- The order of a comparison's texts is the field's, where the other side is none. -/
theorem cmpSides_field (r : Value) : cmpSides B row op (.field f) (.lit v) l r =
    cmpUnder B op l r (row.textOrder f) := by
  change cmpUnder B op l r
    (if (row.textOrder f).isBytes = true then TextOrder.bytes else row.textOrder f) = _
  split
  · next hb => rw [TextOrder.eq_bytes hb]
  · rfl

theorem eval_compared : eval ctx row (compared f op v) = (do
    let l ← eval ctx row (.field f)
    pure (.bool (cmpUnder B op l v (row.textOrder f)))) := by
  rw [eval_cmp, eval_lit]
  simp only [cmpSides_field, Result.ok_bind]

/-- A value compared with a field is the field compared with the value. -/
theorem eval_flipped : eval ctx row (.cmp op (.lit v) (.field f)) =
    eval ctx row (compared f op.flip v) := by
  have hbytes : TextOrder.bytes.isBytes = true := rfl
  rw [eval_compared, eval_cmp, eval_lit]
  simp only [cmpSides, orderedAs, hbytes, if_true, cmpUnder_flip, Result.ok_bind]

/-- **A comparison that was collected is the term it was read off.** -/
theorem eval_rangeKey (h : rangeKey ctx.params e = some (f, op, v)) :
    eval ctx row e = eval ctx row (compared f op v) := by
  cases e with
  | cmp op' a b =>
    unfold rangeKey at h
    dsimp only at h
    split at h
    · cases h
    · cases hab : fieldValue ctx.params a b with
      | some r =>
        obtain ⟨g, w⟩ := r
        rw [hab] at h
        obtain ⟨rfl, heq⟩ := Prod.mk.inj (Option.some.inj h)
        obtain ⟨rfl, rfl⟩ := Prod.mk.inj heq
        obtain ⟨rfl, hv⟩ := fieldValue_eq_some hab
        exact (Alike.cmp alike_field (alike_value hv)).value
      | none =>
        rw [hab] at h
        obtain ⟨⟨g, w⟩, hba, heq⟩ := Option.map_eq_some_iff.mp h
        obtain ⟨rfl, rfl, rfl⟩ : g = f ∧ op'.flip = op ∧ w = v := by simpa using heq
        obtain ⟨rfl, hv⟩ := fieldValue_eq_some hba
        rw [← eval_flipped]
        exact (Alike.cmp (alike_value hv) alike_field).value
  | _ => cases h

/-- An equality that was collected is one of the comparisons. -/
theorem rangeKey_of_equalityKey (h : equalityKey ctx.params e = some (f, v)) :
    rangeKey ctx.params e = some (f, .eq, v) := by
  cases e with
  | cmp op' a b =>
    cases op' with
    | eq =>
      have h' : (fieldValue ctx.params a b).or (fieldValue ctx.params b a) = some (f, v) := h
      unfold rangeKey
      dsimp only
      rw [if_neg (by decide)]
      cases hab : fieldValue ctx.params a b with
      | some r =>
        rw [hab] at h'
        obtain rfl := Option.some.inj h'
        rfl
      | none =>
        rw [hab, Option.none_or] at h'
        rw [h']
        rfl
    | _ => cases h
  | _ => cases h

/-- **An item that is the value is equal to it**, as the field's texts are equal. -/
theorem inSame_eq (o : TextOrder) : inSame B o.fold v l = cmpUnder B .eq l v o := by
  have hplain : (v.cmpValue l == .eq) = compareValues B .eq l v o := by
    have hswap : (v.cmpValue l == .eq) = (l.cmpValue v == .eq) := by
      rw [Value.cmpValue_swap l v]
      cases l.cmpValue v with
      | _ => rfl
    unfold compareValues
    split
    · next hnull =>
      -- a null is equal to a null, and to nothing else
      rw [Bool.or_eq_true, Value.isNull_iff, Value.isNull_iff] at hnull
      rcases hnull with rfl | rfl
      · rw [Bool.eq_iff_iff, beq_iff_eq, Value.cmpValue_null_eq, ← Value.isNull_iff]
        rfl
      · rw [hswap, Bool.eq_iff_iff, beq_iff_eq, Value.cmpValue_null_eq, ← Value.isNull_iff]
        exact (by simp [CmpOp.holdsNull, Value.isNull])
    · exact hswap
  by_cases h : (∃ x, v = .text x) ∧ ∃ y, l = .text y
  · obtain ⟨⟨x, rfl⟩, y, rfl⟩ := h
    unfold inSame cmpUnder
    cases o.fold with
    | none => exact hplain
    | some f => exact (eqFolded_comm _ f x y).symm
  · have hsame : inSame B o.fold v l = (v.cmpValue l == .eq) := by
      unfold inSame
      split
      · exact absurd ⟨⟨_, rfl⟩, _, rfl⟩ h
      · rfl
    have hunder : cmpUnder B .eq l v o = compareValues B .eq l v o := by
      unfold cmpUnder
      split
      · exact absurd ⟨⟨_, rfl⟩, _, rfl⟩ h
      · next hne _ => cases hne
      · rfl
    rw [hsame, hunder, hplain]

/-- An `in` that finds the value finds it among the items at hand. -/
theorem evalIn_values {items : List Expr} {fold : Option CaseFold}
    (h : values ctx.params items = some vs) (hin : evalIn ctx row fold l items = .ok true) :
    ∃ v ∈ vs, inSame B fold v l = true := by
  induction items generalizing vs with
  | nil =>
    rw [evalIn] at hin
    cases hin
  | cons it items ih =>
    obtain ⟨v, hv, hrest⟩ := Option.bind_eq_some_iff.mp h
    obtain ⟨ws, hws, rfl⟩ := Option.map_eq_some_iff.mp hrest
    have hit : eval ctx row it = .ok v := (alike_value hv).value.trans (eval_lit v)
    rw [evalIn, hit, Result.ok_bind] at hin
    by_cases hsame : inSame B fold v l = true
    · exact ⟨v, List.mem_cons_self, hsame⟩
    · rw [if_neg hsame] at hin
      obtain ⟨w, hw, hwl⟩ := ih hws hin
      exact ⟨w, List.mem_cons_of_mem _ hw, hwl⟩

/-- **A list that was collected contains a value that the field is equal to.** -/
theorem holds_inSet (h : inSet ctx.params e = some (f, vs)) (he : Holds ctx row e) :
    ∃ v ∈ vs, Holds ctx row (compared f .eq v) := by
  cases e with
  | inList a items =>
    cases a with
    | field g =>
      obtain ⟨ws, hws, heq⟩ := Option.map_eq_some_iff.mp h
      obtain ⟨rfl, rfl⟩ := Prod.mk.inj heq
      obtain ⟨b, hb, htrue⟩ := he
      rw [eval] at hb
      cases hl : eval ctx row (.field g) with
      | error err =>
        rw [hl] at hb
        cases hb
      | ok l =>
        rw [hl, Result.ok_bind] at hb
        cases hin : evalIn ctx row (foldedAs row (.field g)) l items with
        | error err =>
          rw [hin] at hb
          cases hb
        | ok found =>
          rw [hin, Result.ok_bind] at hb
          obtain rfl := Except.ok.inj hb
          obtain rfl : found = true := htrue
          obtain ⟨v, hv, hsame⟩ := evalIn_values hws hin
          have hfold : foldedAs row (.field g) = (row.textOrder g).fold := rfl
          rw [hfold, inSame_eq] at hsame
          refine ⟨v, hv, .bool true, ?_, rfl⟩
          rw [eval_compared, hl, Result.ok_bind, hsame]
          rfl
    | _ => cases h
  | _ => cases h

/-- **Every comparison that was collected from a filter holds where it does.** -/
theorem holds_conjunctRanges {r : String × CmpOp × Value} (he : Holds ctx row e)
    (hr : r ∈ conjunctRanges ctx.params e) : Holds ctx row (compared r.1 r.2.1 r.2.2) := by
  induction e using conjunctRanges.induct with
  | case1 a b iha ihb =>
    rw [conjunctRanges, List.mem_append] at hr
    exact hr.elim (iha (holds_and.mp he).1) (ihb (holds_and.mp he).2)
  | case2 e hne =>
    have hkey : r ∈ rangeKey ctx.params e := by
      rw [conjunctRanges.eq_def] at hr
      split at hr
      · next a b => exact absurd rfl (hne a b)
      · exact Option.mem_toList.mp hr
    obtain ⟨v, hv, htrue⟩ := he
    exact ⟨v, (eval_rangeKey (v := r.2.2) hkey) ▸ hv, htrue⟩

/-- The equalities that were collected are among the comparisons. -/
theorem mem_conjunctRanges {kv : String × Value} (h : kv ∈ conjunctEqualities ctx.params e) :
    (kv.1, .eq, kv.2) ∈ conjunctRanges ctx.params e := by
  induction e using conjunctEqualities.induct with
  | case1 a b iha ihb =>
    rw [conjunctEqualities, List.mem_append] at h
    rw [conjunctRanges, List.mem_append]
    exact h.imp iha ihb
  | case2 e hne =>
    rw [conjunctEqualities.eq_def] at h
    rw [conjunctRanges.eq_def]
    split at h
    · next a b => exact absurd rfl (hne a b)
    · exact Option.mem_toList.mpr (rangeKey_of_equalityKey (v := kv.2) (Option.mem_toList.mp h))

/-- **Every equality that was collected from a filter holds where it does.** -/
theorem holds_conjunctEqualities {kv : String × Value} (he : Holds ctx row e)
    (h : kv ∈ conjunctEqualities ctx.params e) : Holds ctx row (compared kv.1 .eq kv.2) :=
  holds_conjunctRanges he (mem_conjunctRanges h)

/-- **Every list that was collected from a filter contains a value the field is equal to.** -/
theorem holds_conjunctInSets {fvs : String × List Value} (he : Holds ctx row e)
    (h : fvs ∈ conjunctInSets ctx.params e) :
    ∃ v ∈ fvs.2, Holds ctx row (compared fvs.1 .eq v) := by
  induction e using conjunctInSets.induct with
  | case1 a b iha ihb =>
    rw [conjunctInSets, List.mem_append] at h
    exact h.elim (iha (holds_and.mp he).1) (ihb (holds_and.mp he).2)
  | case2 e hne =>
    rw [conjunctInSets.eq_def] at h
    split at h
    · next a b => exact absurd rfl (hne a b)
    · have hset : inSet ctx.params e = some (fvs.1, fvs.2) := Option.mem_toList.mp h
      exact holds_inSet hset he

/-- **A filter that is comparisons of one field alone is its comparisons.** -/
theorem holds_iff_ranges {field : String} (h : onlyRangesOn field ctx.params e = true) :
    Holds ctx row e ↔
      ∀ r ∈ conjunctRanges ctx.params e, Holds ctx row (compared r.1 r.2.1 r.2.2) := by
  refine ⟨fun he r hr => holds_conjunctRanges he hr, fun hall => ?_⟩
  induction e using conjunctRanges.induct with
  | case1 a b iha ihb =>
    rw [onlyRangesOn, Bool.and_eq_true] at h
    rw [conjunctRanges, List.forall_mem_append] at hall
    exact holds_and.mpr ⟨iha h.1 hall.1, ihb h.2 hall.2⟩
  | case2 e hne =>
    rw [onlyRangesOn.eq_def] at h
    rw [conjunctRanges.eq_def] at hall
    split at h
    · next a b => exact absurd rfl (hne a b)
    · cases hk : rangeKey ctx.params e with
      | none =>
        rw [hk] at h
        cases h
      | some r =>
        split at hall
        · next a b _ => exact absurd rfl (hne a b)
        · obtain ⟨v, hv, htrue⟩ := hall r (Option.mem_toList.mpr hk)
          exact ⟨v, (eval_rangeKey (v := r.2.2) hk).trans hv, htrue⟩

/-! ## 4. The least id -/

theorem eval_id : eval ctx row (.field "id") = .ok (.int (Int64.ofNat row.id)) := by
  rw [eval, if_pos rfl]

theorem whole_eq_some {x : Int64} (h : whole ctx.params e = some x) :
    value ctx.params e = some (.int x) := by
  unfold whole at h
  split at h
  · next i hi =>
    obtain rfl := Option.some.inj h
    exact hi
  · cases h

theorem isId_iff : isId e = true ↔ e = .field "id" := by
  cases e with
  | field f => simp [isId]
  | _ => simp [isId]

/-- The id that is compared is no more than the id: past the range of an `i64` it is negative. -/
theorem ofNat_toInt_le (n : Nat) : (Int64.ofNat n).toInt ≤ n := by
  have hsize : (Int64.size : Int) = 2 ^ 64 := rfl
  rw [Int64.toInt_ofNat', Int.bmod_def, hsize]
  split
  · omega
  · omega

theorem holds_int {i x : Int64} {o : TextOrder} (op : CmpOp) :
    cmpUnder B op (.int i) (.int x) o = op.holds (compare i x) := by
  cases op with
  | _ => rfl

/-- An id that is compared as past a bound is at or past the floor taken from it. -/
theorem floorOf_le {x : Int64} {strict : Bool} (op : CmpOp)
    (hop : op = if strict = true then .gt else .ge)
    (h : Holds ctx row (compared "id" op (.int x))) : floorOf strict x ≤ row.id := by
  obtain ⟨v, hv, htrue⟩ := h
  rw [eval_compared, eval_id, Result.ok_bind, holds_int] at hv
  obtain rfl := Except.ok.inj hv
  have hholds : op.holds (compare (Int64.ofNat row.id) x) = true := htrue
  have hle := ofNat_toInt_le row.id
  have hcmp : x.toInt + strict.toNat ≤ (Int64.ofNat row.id).toInt := by
    subst hop
    cases strict with
    | true =>
      have hgt : compare (Int64.ofNat row.id) x = .gt := by simpa [CmpOp.holds] using hholds
      exact Int64.lt_iff_toInt_lt.mp (Std.compare_eq_gt.mp hgt)
    | false =>
      have hge : compare (Int64.ofNat row.id) x ≠ .lt := by simpa [CmpOp.holds] using hholds
      have hle : x ≤ Int64.ofNat row.id :=
        Int64.not_lt.mp fun hlt => hge (Std.compare_eq_lt.mpr hlt)
      simpa using Int64.le_iff_toInt_le.mp hle
  unfold floorOf
  omega

theorem floorOf_le_of_left {strict : Bool} {n : Nat} (op : CmpOp)
    (hop : op = if strict = true then .gt else .ge)
    (h : (if isId a = true then (whole ctx.params b).map (floorOf strict) else none) = some n)
    (he : Holds ctx row (.cmp op a b)) : n ≤ row.id := by
  split at h
  · next hid =>
    obtain ⟨x, hx, rfl⟩ := Option.map_eq_some_iff.mp h
    obtain rfl := isId_iff.mp hid
    obtain ⟨v, hv, htrue⟩ := he
    rw [(Alike.cmp alike_field (alike_value (whole_eq_some hx))).value] at hv
    exact floorOf_le op hop ⟨v, hv, htrue⟩
  · cases h

theorem floorOf_le_of_right {strict : Bool} {n : Nat} (op : CmpOp)
    (hop : op.flip = if strict = true then .gt else .ge)
    (h : (if isId b = true then (whole ctx.params a).map (floorOf strict) else none) = some n)
    (he : Holds ctx row (.cmp op a b)) : n ≤ row.id := by
  split at h
  · next hid =>
    obtain ⟨x, hx, rfl⟩ := Option.map_eq_some_iff.mp h
    obtain rfl := isId_iff.mp hid
    obtain ⟨v, hv, htrue⟩ := he
    rw [(Alike.cmp (alike_value (whole_eq_some hx)) alike_field).value, eval_flipped] at hv
    exact floorOf_le op.flip hop ⟨v, hv, htrue⟩
  · cases h

/-- **The least id**: a row that a filter holds of has it or a later one. -/
theorem conjunctIdFloor_le {n : Nat} (h : conjunctIdFloor ctx.params e = some n)
    (he : Holds ctx row e) : n ≤ row.id := by
  induction e using conjuncts.induct generalizing n with
  | case1 a b iha ihb =>
    obtain ⟨hea, heb⟩ := holds_and.mp he
    rw [conjunctIdFloor] at h
    cases ha : conjunctIdFloor ctx.params a with
    | none =>
      cases hb : conjunctIdFloor ctx.params b with
      | none =>
        rw [ha, hb] at h
        cases h
      | some y =>
        rw [ha, hb] at h
        obtain rfl := Option.some.inj h
        exact ihb hb heb
    | some x =>
      cases hb : conjunctIdFloor ctx.params b with
      | none =>
        rw [ha, hb] at h
        obtain rfl := Option.some.inj h
        exact iha ha hea
      | some y =>
        rw [ha, hb] at h
        obtain rfl := Option.some.inj h
        exact max_le (iha ha hea) (ihb hb heb)
  | case2 e hne =>
    cases e with
    | and a b => exact absurd rfl (hne a b)
    | cmp op a b =>
      cases op with
      | gt => exact floorOf_le_of_left .gt rfl h he
      | ge => exact floorOf_le_of_left .ge rfl h he
      | lt => exact floorOf_le_of_right .lt rfl h he
      | le => exact floorOf_le_of_right .le rfl h he
      | eq => cases h
      | ne => cases h
    | _ => cases h

end Reading

/-! ## 5. What `now()` is made -/

section Folded

variable {B : Build} {ctx : EvalCtx B} {row : Row} {now : Value}

theorem alike_worked (op : ArithOp) (a b : Expr) :
    Alike ctx ctx row row (worked ctx.params op a b) (.arith op a b) := by
  unfold worked
  split
  · next l r hl hr =>
    split
    · next v hv =>
      have hargs : Alike ctx ctx row row (.arith op a b) (.arith op (.lit l) (.lit r)) :=
        .arith (alike_value hl) (alike_value hr)
      refine ⟨?_, rfl⟩
      rw [hargs.value, eval_lit, eval, eval_lit, eval_lit]
      exact hv.symm
    · exact ⟨rfl, rfl⟩
  · exact ⟨rfl, rfl⟩

theorem eval_call_nil (name : String) : eval ctx row (.call name []) =
    match ctx.clock, sameName name "now" with
    | some t, true => .ok (.timestamp t)
    | _, _ => if name = "case" then .ok .null else ctx.registry.call name [] := by
  rw [eval.eq_def]
  simp only [List.isEmpty_nil, Bool.true_and, evalCase, evalArgs, Result.ok_bind]
  all_goals rfl

/-- What a function answers under one spelling of its name it answers under every other. -/
theorem call_sameName (r : Registry B) {name other : String} {args : List Value} {v : Value}
    (h : sameName name other = true) (hv : r.call other args = .ok v) :
    r.call name args = .ok v := by
  have hentry : r.entry name = r.entry other := by
    unfold Registry.entry
    congr 1
    funext x
    exact Registry.sameName_trans h
  unfold Registry.call at hv ⊢
  rw [hentry]
  cases he : r.entry other with
  | none =>
    rw [he] at hv
    dsimp only at hv
    split at hv
    · cases hv
    · cases hv
  | some f =>
    rw [he] at hv
    dsimp only at hv ⊢
    split at hv
    · cases hv
    · next hok =>
      rw [if_neg hok]
      exact hv

/-- `now()` is one function, however it is spelt. -/
theorem eval_now {name : String} (h : sameName name "now" = true)
    (hnow : eval ctx row (.call "now" []) = .ok now) :
    eval ctx row (.call name []) = .ok now := by
  have hcase : name ≠ "case" := by
    rintro rfl
    exact absurd h (by decide)
  have hself : sameName "now" "now" = true := by decide
  rw [eval_call_nil, hself] at hnow
  rw [eval_call_nil, h]
  cases hc : ctx.clock with
  | some t =>
    rw [hc] at hnow
    exact hnow
  | none =>
    rw [hc] at hnow
    dsimp only at hnow ⊢
    rw [if_neg (by decide)] at hnow
    rw [if_neg hcase]
    exact call_sameName _ h hnow

mutual

/-- **`fold_now` keeps an expression's value**, where `now` is what `now()` comes to. -/
theorem alike_foldNow (hnow : eval ctx row (.call "now" []) = .ok now) :
    ∀ e : Expr, Alike ctx ctx row row (foldNow now ctx.params e) e
  | .call name args => by
    rw [foldNow]
    split
    · next h =>
      rw [Bool.and_eq_true, List.isEmpty_iff] at h
      obtain ⟨rfl, hname⟩ := h
      exact ⟨(eval_lit now).trans (eval_now hname hnow).symm, rfl⟩
    · exact .call rfl (fun _ _ => rfl) (alike_foldAll hnow args)
  | .arith op a b => by
    rw [foldNow]
    have hw : Alike ctx ctx row row _ (.arith op _ _) :=
      alike_worked op (foldNow now ctx.params a) (foldNow now ctx.params b)
    have ha : Alike ctx ctx row row (.arith op _ _) (.arith op a b) :=
      .arith (alike_foldNow hnow a) (alike_foldNow hnow b)
    exact ⟨hw.value.trans ha.value, hw.order.trans ha.order⟩
  | .field _ => ⟨rfl, rfl⟩
  | .lit _ => ⟨rfl, rfl⟩
  | .param _ => ⟨rfl, rfl⟩
  | .and a b => .and (alike_foldNow hnow a) (alike_foldNow hnow b)
  | .or a b => .or (alike_foldNow hnow a) (alike_foldNow hnow b)
  | .cmp _ a b => .cmp (alike_foldNow hnow a) (alike_foldNow hnow b)
  | .like a b => .like (alike_foldNow hnow a) (alike_foldNow hnow b)
  | .has a b => .has (alike_foldNow hnow a) (alike_foldNow hnow b)
  | .not a => .not (alike_foldNow hnow a)
  | .isNull a => .isNull (alike_foldNow hnow a)
  | .inSelect _ => .inSelect
  | .inList a items => .inList (alike_foldNow hnow a) (alike_foldAll hnow items)

theorem alike_foldAll (hnow : eval ctx row (.call "now" []) = .ok now) :
    ∀ es : List Expr, List.Forall₂ (Alike ctx ctx row row) (foldAll now ctx.params es) es
  | [] => .nil
  | e :: es => .cons (alike_foldNow hnow e) (alike_foldAll hnow es)

end

end Folded

/-! ## 6. What `expired()` is answered with -/

section Answered

variable {B : Build} {ctx ctx' : EvalCtx B} {row : Row} {past : Expr}

/-- **The second context is the first with `expired()` answering what the test comes to on the row**,
and the test is no field, whose texts would be compared in its order. -/
structure Answering (ctx ctx' : EvalCtx B) (row : Row) (past : Expr) : Prop where
  params : ctx.params = ctx'.params
  clock : ctx.clock = ctx'.clock
  other : ∀ name args, (args.isEmpty && sameName name "expired") = false →
    ctx.registry.call name args = ctx'.registry.call name args
  expired : ∀ name, sameName name "expired" = true → eval ctx row past = ctx'.registry.call name []
  order : ∀ name, past ≠ .field name

/-- A call of `expired()` is the registry's, however it is spelt. -/
theorem eval_expired {name : String} (h : sameName name "expired" = true) :
    eval ctx row (.call name []) = ctx.registry.call name [] := by
  have hcase : name ≠ "case" := by
    rintro rfl
    exact absurd h (by decide)
  have hnow : sameName name "now" = false := by
    have heq : name.toList.map asciiLower = "expired".toList.map asciiLower := beq_iff_eq.mp h
    unfold sameName
    rw [heq]
    decide
  rw [eval_call_nil, hnow, if_neg hcase]
  cases ctx.clock with
  | _ => rfl

theorem Answering.alike (h : Answering ctx ctx' row past) {name : String}
    (hname : sameName name "expired" = true) : Alike ctx ctx' row row past (.call name []) := by
  refine ⟨(h.expired name hname).trans (eval_expired hname).symm, ?_⟩
  cases past with
  | field f => exact absurd rfl (h.order f)
  | _ => rfl

mutual

/-- **`answer_expired` gives an expression the value it has where `expired()` answers what the test
does.** -/
theorem alike_answerExpired (h : Answering ctx ctx' row past) :
    ∀ e : Expr, Alike ctx ctx' row row (answerExpired past e).1 e
  | .call name args => by
    rw [answerExpired]
    split
    · next hc =>
      rw [Bool.and_eq_true, List.isEmpty_iff] at hc
      obtain ⟨rfl, hname⟩ := hc
      exact h.alike hname
    · next hc =>
      refine .call h.clock (fun vs hlen => h.other name vs ?_) (alike_answerAll h args)
      have hempty : vs.isEmpty = args.isEmpty := by
        rw [Bool.eq_iff_iff, List.isEmpty_iff_length_eq_zero, List.isEmpty_iff_length_eq_zero, hlen]
      rw [hempty]
      exact Bool.eq_false_iff.mpr hc
  | .field _ => ⟨by rw [answerExpired, eval, eval], rfl⟩
  | .lit _ => ⟨by rw [answerExpired, eval, eval], rfl⟩
  | .param _ => ⟨by rw [answerExpired, eval, eval, h.params], rfl⟩
  | .and a b => .and (alike_answerExpired h a) (alike_answerExpired h b)
  | .or a b => .or (alike_answerExpired h a) (alike_answerExpired h b)
  | .cmp _ a b => .cmp (alike_answerExpired h a) (alike_answerExpired h b)
  | .like a b => .like (alike_answerExpired h a) (alike_answerExpired h b)
  | .has a b => .has (alike_answerExpired h a) (alike_answerExpired h b)
  | .arith _ a b => .arith (alike_answerExpired h a) (alike_answerExpired h b)
  | .not a => .not (alike_answerExpired h a)
  | .isNull a => .isNull (alike_answerExpired h a)
  | .inSelect _ => .inSelect
  | .inList a items => .inList (alike_answerExpired h a) (alike_answerAll h items)

theorem alike_answerAll (h : Answering ctx ctx' row past) :
    ∀ es : List Expr, List.Forall₂ (Alike ctx ctx' row row) (answerAll past es).1 es
  | [] => .nil
  | e :: es => .cons (alike_answerExpired h e) (alike_answerAll h es)

end

mutual

/-- An expression that holds no `expired()` is left as it is. -/
theorem answerExpired_of_false : ∀ e : Expr, (answerExpired past e).2 = false →
    (answerExpired past e).1 = e
  | .call name args, h => by
    rw [answerExpired] at h ⊢
    split at h
    · cases h
    · next hc =>
      rw [if_neg hc]
      exact congrArg (Expr.call name) (answerAll_of_false args h)
  | .field _, _ => rfl
  | .lit _, _ => rfl
  | .param _, _ => rfl
  | .and a b, h => both_of_false (answerExpired_of_false a) (answerExpired_of_false b) h
  | .or a b, h => both_of_false (answerExpired_of_false a) (answerExpired_of_false b) h
  | .cmp _ a b, h => both_of_false (answerExpired_of_false a) (answerExpired_of_false b) h
  | .like a b, h => both_of_false (answerExpired_of_false a) (answerExpired_of_false b) h
  | .has a b, h => both_of_false (answerExpired_of_false a) (answerExpired_of_false b) h
  | .arith _ a b, h => both_of_false (answerExpired_of_false a) (answerExpired_of_false b) h
  | .not a, h => congrArg Expr.not (answerExpired_of_false a h)
  | .isNull a, h => congrArg Expr.isNull (answerExpired_of_false a h)
  | .inSelect a, h => congrArg Expr.inSelect (answerExpired_of_false a h)
  | .inList a items, h => both_of_false (answerExpired_of_false a) (answerAll_of_false items) h

theorem answerAll_of_false : ∀ es : List Expr, (answerAll past es).2 = false →
    (answerAll past es).1 = es
  | [], _ => rfl
  | e :: es, h => both_of_false (answerExpired_of_false e) (answerAll_of_false es) h

end

/-- A registry with a function `expired` put first, which answers without arguments. -/
def answering (r : Registry B) (v : Result Value) : Registry B where
  functions :=
    ⟨"expired", fun args => if args.isEmpty then v else r.call "expired" args, 0, none⟩ ::
      r.functions
  distance_entry := by
    rw [List.find?_cons_of_neg]
    · exact r.distance_entry
    · change ¬ sameName "expired" "distance" = true
      decide
  within_entry := by
    rw [List.find?_cons_of_neg]
    · exact r.within_entry
    · change ¬ sameName "expired" "within" = true
      decide

theorem sameName_comm (a b : String) : sameName a b = sameName b a := BEq.comm

theorem call_answering {r : Registry B} {v : Result Value} {name : String}
    (h : sameName name "expired" = true) (args : List Value) : (answering r v).call name args =
      if args.isEmpty then v else r.call "expired" args := by
  have hentry : (answering r v).entry name =
      some ⟨"expired", fun args => if args.isEmpty then v else r.call "expired" args, 0, none⟩ :=
    List.find?_cons_of_pos ((sameName_comm _ _).trans h)
  unfold Registry.call
  rw [hentry]
  exact if_neg (by simp)

theorem call_answering_other {r : Registry B} {v : Result Value} {name : String}
    {args : List Value} (h : sameName name "expired" = false) :
    (answering r v).call name args = r.call name args := by
  have hentry : (answering r v).entry name = r.entry name :=
    List.find?_cons_of_neg (by rw [sameName_comm, h]; decide)
  unfold Registry.call
  rw [hentry]

/-- A function nobody registered is refused in one way, however `expired` is spelt. -/
theorem call_expired_of_none {r : Registry B} (hfree : r.entry "expired" = none) {name : String}
    {args : List Value} (h : sameName name "expired" = true) :
    r.call name args = r.call "expired" args := by
  have hentry : r.entry name = none := by
    rw [← hfree]
    unfold Registry.entry
    congr 1
    funext x
    exact Registry.sameName_trans h
  have hself : sameName "expired" "expired" = true := by decide
  unfold Registry.call
  rw [hentry, hfree]
  dsimp only
  rw [if_pos h, if_pos hself]

/-- Where no function `expired` is registered, there is such a context. -/
theorem exists_answering (hfree : ctx.registry.entry "expired" = none)
    (hfield : ∀ name, past ≠ .field name) : ∃ ctx', Answering ctx ctx' row past := by
  refine ⟨⟨ctx.params, answering ctx.registry (eval ctx row past), ctx.clock⟩, rfl, rfl, ?_, ?_,
    hfield⟩
  · intro name args hne
    cases hname : sameName name "expired" with
    | false => exact (call_answering_other hname).symm
    | true =>
      rw [hname, Bool.and_true] at hne
      rw [call_answering hname args, hne]
      exact call_expired_of_none hfree hname
  · intro name hname
    have hcall := call_answering (r := ctx.registry) (v := eval ctx row past) hname
    exact (hcall []).symm

end Answered

/-! ## 7. What the planner goes by -/

/-- **What the planner reads off a filter is implied by it, and what it rewrites keeps its value.**
`now` is what `now()` comes to; `expired()` is what the test put for it comes to. -/
theorem reads_what_holds {B : Build} (ctx : EvalCtx B) (row : Row) (e : Expr) :
    (Holds ctx row e →
      (∀ kv ∈ conjunctEqualities ctx.params e, Holds ctx row (compared kv.1 .eq kv.2)) ∧
      (∀ fvs ∈ conjunctInSets ctx.params e, ∃ v ∈ fvs.2, Holds ctx row (compared fvs.1 .eq v)) ∧
      (∀ r ∈ conjunctRanges ctx.params e, Holds ctx row (compared r.1 r.2.1 r.2.2)) ∧
      ∀ n ∈ conjunctIdFloor ctx.params e, n ≤ row.id) ∧
    (∀ field, onlyRangesOn field ctx.params e = true →
      (Holds ctx row e ↔
        ∀ r ∈ conjunctRanges ctx.params e, Holds ctx row (compared r.1 r.2.1 r.2.2))) ∧
    (∀ now, eval ctx row (.call "now" []) = .ok now →
      eval ctx row (foldNow now ctx.params e) = eval ctx row e) ∧
    ∀ past,
      ((answerExpired past e).2 = false → (answerExpired past e).1 = e) ∧
      (∀ ctx', Answering ctx ctx' row past →
        eval ctx row (answerExpired past e).1 = eval ctx' row e) ∧
      (ctx.registry.entry "expired" = none → (∀ name, past ≠ .field name) →
        ∃ ctx', Answering ctx ctx' row past) :=
  ⟨fun he => ⟨fun _ h => holds_conjunctEqualities he h, fun _ h => holds_conjunctInSets he h,
      fun _ h => holds_conjunctRanges he h, fun _ h => conjunctIdFloor_le h he⟩,
    fun _ h => holds_iff_ranges h,
    fun _ hnow => (alike_foldNow hnow e).value,
    fun _ => ⟨answerExpired_of_false e, fun _ h => (alike_answerExpired h e).value,
      exists_answering⟩⟩

/-- An `expired()` that no row could be asked becomes a test that a row answers. -/
theorem expired_answered :
    let ctx : EvalCtx Build.ascii := ⟨[], Registry.builtin Build.ascii, some 1000⟩
    let row : Row := ⟨1, fun _ => .ok (.timestamp 0), fun _ => .bytes⟩
    let past : Expr := .cmp .le (.field "at") (.lit (.timestamp 500))
    eval ctx row (answerExpired past (.call "expired" [])).1 ≠
      eval ctx row (.call "expired" []) := by
  intro ctx row past
  have hpast : eval ctx row past = .ok (.bool true) := rfl
  have hanswer : (answerExpired past (.call "expired" [])).1 = past := rfl
  rw [hanswer, hpast, eval_expired (by decide)]
  intro h
  have hfree : (Registry.builtin Build.ascii).entry "expired" = none := rfl
  unfold Registry.call at h
  rw [hfree] at h
  cases h

end Planner

end Fenec
