/-
# The conjuncts of a filter

A filter that is an `and` chain holds of a row exactly when each of its terms does
(`holds_iff_conjuncts`), whatever the terms that are not reached would have answered.  That is what
lets a planner look at the terms one by one, and what lets one be left out of the chain.

An expression's value depends on nothing of a row but the fields the expression names
(`eval_agree`).  The names are collected as `referenced_fields` collects them, each once.
-/
import Fenec.Query

namespace Fenec

open Lib

namespace Expr

/-! ## 1. Terms -/

/-- `Expr::conjuncts`: the terms of an `and` chain, left to right. -/
def conjuncts : Expr → List Expr
  | .and a b => conjuncts a ++ conjuncts b
  | e => [e]

section Holds

variable {B : Build} (ctx : EvalCtx B) (row : Row)

/-- A filter is true of a row. -/
def Holds (e : Expr) : Prop := ∃ v, eval ctx row e = .ok v ∧ v.truthy = true

variable {ctx row} {a b e : Expr}

theorem holds_and : Holds ctx row (.and a b) ↔ Holds ctx row a ∧ Holds ctx row b := by
  constructor
  · rintro ⟨v, hv, htrue⟩
    rw [eval] at hv
    cases ha : eval ctx row a with
    | error err =>
      rw [ha] at hv
      cases hv
    | ok x =>
      rw [ha, Result.ok_bind] at hv
      by_cases hx : x.truthy = true
      · rw [if_pos hx] at hv
        cases hb : eval ctx row b with
        | error err =>
          rw [hb] at hv
          cases hv
        | ok y =>
          rw [hb, Result.ok_bind] at hv
          obtain rfl := Except.ok.inj hv
          exact ⟨⟨x, ha, hx⟩, ⟨y, hb, htrue⟩⟩
      · rw [if_neg hx] at hv
        obtain rfl := Except.ok.inj hv
        cases htrue
  · rintro ⟨⟨x, ha, hx⟩, ⟨y, hb, hy⟩⟩
    refine ⟨.bool y.truthy, ?_, hy⟩
    rw [eval, ha, Result.ok_bind, if_pos hx, hb]
    rfl

/-- **A filter holds exactly when its terms do.** -/
theorem holds_iff_conjuncts : Holds ctx row e ↔ ∀ t ∈ conjuncts e, Holds ctx row t := by
  induction e using conjuncts.induct with
  | case1 a b iha ihb =>
    rw [holds_and, iha, ihb, conjuncts]
    exact List.forall_mem_append.symm
  | case2 e hne =>
    rw [conjuncts.eq_def]
    split
    · next a b => exact absurd rfl (hne a b)
    · exact List.forall_mem_singleton.symm

end Holds

/-! ## 2. What an expression's value depends on -/

section Alike

variable {B : Build} (ctx ctx' : EvalCtx B) (row row' : Row)

/-- **Two expressions that nothing around them tells apart**, each read in its context and on its
row: they have one value, and name one order of texts where a field's name does. -/
structure Alike (e e' : Expr) : Prop where
  value : eval ctx row e = eval ctx' row' e'
  order : orderedAs row e = orderedAs row' e'

variable {ctx ctx' row row'} {a a' b b' : Expr} {es es' : List Expr}

theorem foldedAs_eq (row : Row) (e : Expr) : foldedAs row e = (orderedAs row e).fold := by
  cases e with
  | field name => rfl
  | _ => rfl

theorem Alike.fold (h : Alike ctx ctx' row row' a a') : foldedAs row a = foldedAs row' a' := by
  rw [foldedAs_eq, foldedAs_eq, h.order]

theorem Alike.not (h : Alike ctx ctx' row row' a a') : Alike ctx ctx' row row' (.not a) (.not a') :=
  ⟨by rw [eval, eval, h.value], rfl⟩

theorem Alike.isNull (h : Alike ctx ctx' row row' a a') :
    Alike ctx ctx' row row' (.isNull a) (.isNull a') :=
  ⟨by rw [eval, eval, h.value], rfl⟩

theorem Alike.inSelect : Alike ctx ctx' row row' (.inSelect a) (.inSelect a') := ⟨by rw [eval, eval], rfl⟩

theorem Alike.and (ha : Alike ctx ctx' row row' a a') (hb : Alike ctx ctx' row row' b b') :
    Alike ctx ctx' row row' (.and a b) (.and a' b') :=
  ⟨by rw [eval, eval, ha.value, hb.value], rfl⟩

theorem Alike.or (ha : Alike ctx ctx' row row' a a') (hb : Alike ctx ctx' row row' b b') :
    Alike ctx ctx' row row' (.or a b) (.or a' b') :=
  ⟨by rw [eval, eval, ha.value, hb.value], rfl⟩

theorem Alike.arith {op : ArithOp} (ha : Alike ctx ctx' row row' a a') (hb : Alike ctx ctx' row row' b b') :
    Alike ctx ctx' row row' (.arith op a b) (.arith op a' b') :=
  ⟨by rw [eval, eval, ha.value, hb.value], rfl⟩

theorem Alike.has (ha : Alike ctx ctx' row row' a a') (hb : Alike ctx ctx' row row' b b') :
    Alike ctx ctx' row row' (.has a b) (.has a' b') :=
  ⟨by rw [eval, eval, ha.value, hb.value], rfl⟩

theorem Alike.cmp {op : CmpOp} (ha : Alike ctx ctx' row row' a a') (hb : Alike ctx ctx' row row' b b') :
    Alike ctx ctx' row row' (.cmp op a b) (.cmp op a' b') :=
  ⟨by simp only [eval, ha.value, hb.value, cmpSides, ha.order, hb.order], rfl⟩

theorem Alike.like (ha : Alike ctx ctx' row row' a a') (hb : Alike ctx ctx' row row' b b') :
    Alike ctx ctx' row row' (.like a b) (.like a' b') :=
  ⟨by simp only [eval, ha.value, hb.value, ha.fold], rfl⟩

theorem evalIn_alike {fold : Option Case.CaseFold} {l : Value}
    (h : List.Forall₂ (Alike ctx ctx' row row') es es') :
    evalIn ctx row fold l es = evalIn ctx' row' fold l es' := by
  induction h with
  | nil => rw [evalIn, evalIn]
  | cons he _ ih => rw [evalIn, evalIn, he.value, ih]

theorem evalArgs_alike (h : List.Forall₂ (Alike ctx ctx' row row') es es') :
    evalArgs ctx row es = evalArgs ctx' row' es' := by
  induction h with
  | nil => rw [evalArgs, evalArgs]
  | cons he _ ih => rw [evalArgs, evalArgs, he.value, ih]

theorem evalEscape_alike (h : List.Forall₂ (Alike ctx ctx' row row') es es') :
    evalEscape ctx row es = evalEscape ctx' row' es' := by
  cases h with
  | nil => rw [evalEscape, evalEscape]
  | cons he ht =>
    cases ht with
    | nil => rw [evalEscape, evalEscape, he.value]
    | cons _ _ => rw [evalEscape.eq_def, evalEscape.eq_def]

theorem evalCase_alike : ∀ {es es' : List Expr}, List.Forall₂ (Alike ctx ctx' row row') es es' →
    evalCase ctx row es = evalCase ctx' row' es'
  | _, _, .nil => by rw [evalCase, evalCase]
  | _, _, .cons he .nil => by rw [evalCase, evalCase, he.value]
  | _, _, .cons hc (.cons hv ht) => by
    rw [evalCase, evalCase, hc.value, hv.value, evalCase_alike ht]

theorem Alike.inList (ha : Alike ctx ctx' row row' a a')
    (h : List.Forall₂ (Alike ctx ctx' row row') es es') :
    Alike ctx ctx' row row' (.inList a es) (.inList a' es') :=
  ⟨by simp only [eval, ha.value, ha.fold, evalIn_alike h], rfl⟩

theorem evalArgs_length {es : List Expr} {vs : List Value} (h : evalArgs ctx row es = .ok vs) :
    vs.length = es.length := by
  induction es generalizing vs with
  | nil =>
    rw [evalArgs] at h
    obtain rfl := Except.ok.inj h
    rfl
  | cons e es ih =>
    rw [evalArgs] at h
    cases he : eval ctx row e with
    | error err =>
      rw [he] at h
      cases h
    | ok v =>
      cases hes : evalArgs ctx row es with
      | error err =>
        rw [he, hes] at h
        cases h
      | ok ws =>
        rw [he, hes] at h
        obtain rfl := Except.ok.inj h
        rw [List.length_cons, List.length_cons, ih hes]

/-- A call's arguments are read alike, so it is answered alike where the function is. -/
theorem callArgs_alike {name : String}
    (hcall : ∀ vs, vs.length = es'.length → ctx.registry.call name vs = ctx'.registry.call name vs)
    (h : List.Forall₂ (Alike ctx ctx' row row') es es') :
    (do ctx.registry.call name (← evalArgs ctx row es)) =
      (do ctx'.registry.call name (← evalArgs ctx' row' es') : Result Value) := by
  rw [evalArgs_alike h]
  cases hes : evalArgs ctx' row' es' with
  | error err => rfl
  | ok vs => exact hcall vs (evalArgs_length hes)

theorem Alike.call {name : String} (hclock : ctx.clock = ctx'.clock)
    (hcall : ∀ vs, vs.length = es'.length → ctx.registry.call name vs = ctx'.registry.call name vs)
    (h : List.Forall₂ (Alike ctx ctx' row row') es es') :
    Alike ctx ctx' row row' (.call name es) (.call name es') := by
  refine ⟨?_, rfl⟩
  have hargs := callArgs_alike hcall h
  have hcase := evalCase_alike h
  rw [eval.eq_def, eval.eq_def ctx' row']
  dsimp only
  cases h with
  | nil => simp only [hclock, hargs, hcase]
  | cons hx ht =>
    cases ht with
    | nil => simp only [List.isEmpty_cons, Bool.false_and, hclock, hargs, hcase]
    | cons hp he =>
      simp only [List.isEmpty_cons, Bool.false_and, hclock, hargs, hcase, hx.value, hx.fold,
        hp.value, evalEscape_alike he]

end Alike

/-! ## 3. The fields an expression names -/

mutual

/-- `Expr::referenced_fields`: the names of an expression's fields after those there are, each
once. -/
def referencedFields (out : List String) : Expr → List String
  | .field f => if out.contains f then out else out ++ [f]
  | .lit _ => out
  | .param _ => out
  | .and a b => referencedFields (referencedFields out a) b
  | .or a b => referencedFields (referencedFields out a) b
  | .cmp _ a b => referencedFields (referencedFields out a) b
  | .like a b => referencedFields (referencedFields out a) b
  | .has a b => referencedFields (referencedFields out a) b
  | .arith _ a b => referencedFields (referencedFields out a) b
  | .not a => referencedFields out a
  | .isNull a => referencedFields out a
  -- the inner query's fields are its own collection's
  | .inSelect a => referencedFields out a
  | .inList a items => referencedAll (referencedFields out a) items
  | .call _ args => referencedAll out args
termination_by structural e => e

/-- Those of several expressions. -/
def referencedAll (out : List String) : List Expr → List String
  | [] => out
  | e :: es => referencedAll (referencedFields out e) es
termination_by structural es => es

end

/-- The names of an expression's fields. -/
abbrev names (e : Expr) : List String := referencedFields [] e

section Names

variable {n : String} {out : List String}

theorem mem_referencedBoth {a b : Expr}
    (ha : ∀ out, n ∈ referencedFields out a ↔ n ∈ out ∨ n ∈ names a)
    (hb : ∀ out, n ∈ referencedFields out b ↔ n ∈ out ∨ n ∈ names b) :
    n ∈ referencedFields (referencedFields out a) b ↔
      n ∈ out ∨ n ∈ referencedFields (referencedFields [] a) b := by
  rw [hb, ha, hb (referencedFields [] a), or_assoc]

mutual

/-- A name is among those collected when it was there before or is the expression's own. -/
theorem mem_referencedFields : ∀ (e : Expr) (out : List String),
    n ∈ referencedFields out e ↔ n ∈ out ∨ n ∈ names e
  | .field f, out => by
    unfold names
    rw [referencedFields, referencedFields]
    by_cases hf : out.contains f = true
    · have hmem : f ∈ out := List.contains_iff_mem.mp hf
      rw [if_pos hf]
      simp only [List.contains_nil, Bool.false_eq_true, if_false, List.nil_append,
        List.mem_singleton]
      exact ⟨.inl, fun h => h.elim id fun heq => heq ▸ hmem⟩
    · rw [if_neg hf]
      simp
  | .lit _, out => by simp [names, referencedFields]
  | .param _, out => by simp [names, referencedFields]
  | .not a, out => mem_referencedFields a out
  | .isNull a, out => mem_referencedFields a out
  | .inSelect a, out => mem_referencedFields a out
  | .and a b, _ => mem_referencedBoth (mem_referencedFields a) (mem_referencedFields b)
  | .or a b, _ => mem_referencedBoth (mem_referencedFields a) (mem_referencedFields b)
  | .cmp _ a b, _ => mem_referencedBoth (mem_referencedFields a) (mem_referencedFields b)
  | .like a b, _ => mem_referencedBoth (mem_referencedFields a) (mem_referencedFields b)
  | .has a b, _ => mem_referencedBoth (mem_referencedFields a) (mem_referencedFields b)
  | .arith _ a b, _ => mem_referencedBoth (mem_referencedFields a) (mem_referencedFields b)
  | .inList a items, out => by
    unfold names
    rw [referencedFields, referencedFields, mem_referencedAll items, mem_referencedFields a,
      mem_referencedAll items (referencedFields [] a), or_assoc]
  | .call _ args, out => mem_referencedAll args out

theorem mem_referencedAll : ∀ (es : List Expr) (out : List String),
    n ∈ referencedAll out es ↔ n ∈ out ∨ n ∈ referencedAll [] es
  | [], out => by simp [referencedAll]
  | e :: es, out => by
    rw [referencedAll, referencedAll, mem_referencedAll es, mem_referencedFields e,
      mem_referencedAll es (referencedFields [] e), or_assoc]

end

end Names

section Agree

variable {B : Build} (ctx : EvalCtx B) {row row' : Row}

/-- Two rows have one value under a name, and one order of its texts. -/
structure Agree (row row' : Row) (n : String) : Prop where
  id : n = "id" → row.id = row'.id
  field : n ≠ "id" → row.field n = row'.field n
  order : row.textOrder n = row'.textOrder n

mutual

/-- **An expression's value is the same on rows that agree on the fields it names.** -/
theorem alike_of_agree : ∀ e : Expr, (∀ n ∈ names e, Agree row row' n) →
    Alike ctx ctx row row' e e
  | .field f, h => by
    have hf := h f (by simp [names, referencedFields])
    refine ⟨?_, hf.order⟩
    rw [eval, eval]
    by_cases hid : f = "id"
    · rw [if_pos hid, if_pos hid, hf.id hid]
    · rw [if_neg hid, if_neg hid, hf.field hid]
  | .lit _, _ => ⟨by rw [eval, eval], rfl⟩
  | .param _, _ => ⟨by rw [eval, eval], rfl⟩
  | .not a, h => .not (alike_of_agree a h)
  | .isNull a, h => .isNull (alike_of_agree a h)
  | .inSelect _, _ => .inSelect
  | .and a b, h => .and
      (alike_of_agree a fun n hn => h n ((mem_referencedFields b _).mpr (.inl hn)))
      (alike_of_agree b fun n hn => h n ((mem_referencedFields b _).mpr (.inr hn)))
  | .or a b, h => .or
      (alike_of_agree a fun n hn => h n ((mem_referencedFields b _).mpr (.inl hn)))
      (alike_of_agree b fun n hn => h n ((mem_referencedFields b _).mpr (.inr hn)))
  | .cmp _ a b, h => .cmp
      (alike_of_agree a fun n hn => h n ((mem_referencedFields b _).mpr (.inl hn)))
      (alike_of_agree b fun n hn => h n ((mem_referencedFields b _).mpr (.inr hn)))
  | .like a b, h => .like
      (alike_of_agree a fun n hn => h n ((mem_referencedFields b _).mpr (.inl hn)))
      (alike_of_agree b fun n hn => h n ((mem_referencedFields b _).mpr (.inr hn)))
  | .has a b, h => .has
      (alike_of_agree a fun n hn => h n ((mem_referencedFields b _).mpr (.inl hn)))
      (alike_of_agree b fun n hn => h n ((mem_referencedFields b _).mpr (.inr hn)))
  | .arith _ a b, h => .arith
      (alike_of_agree a fun n hn => h n ((mem_referencedFields b _).mpr (.inl hn)))
      (alike_of_agree b fun n hn => h n ((mem_referencedFields b _).mpr (.inr hn)))
  | .inList a items, h => .inList
      (alike_of_agree a fun n hn => h n ((mem_referencedAll items _).mpr (.inl hn)))
      (alike_all items fun n hn => h n ((mem_referencedAll items _).mpr (.inr hn)))
  | .call _ args, h => .call rfl (fun _ _ => rfl) (alike_all args h)

theorem alike_all : ∀ es : List Expr, (∀ n ∈ referencedAll [] es, Agree row row' n) →
    List.Forall₂ (Alike ctx ctx row row') es es
  | [], _ => .nil
  | e :: es, h => .cons
      (alike_of_agree e fun n hn => h n ((mem_referencedAll es _).mpr (.inl hn)))
      (alike_all es fun n hn => h n ((mem_referencedAll es _).mpr (.inr hn)))

end

theorem eval_agree {e : Expr} (h : ∀ n ∈ names e, Agree row row' n) :
    eval ctx row e = eval ctx row' e :=
  (alike_of_agree ctx e h).value

end Agree

end Expr

end Fenec
