/-
# Rows folded into groups

The rows that are read fall into classes by their keys, in the order the keys are first seen
(`Folding.classes`), and each aggregate of a group is defined over the rows of its class alone
(`Item.definition`), whatever rows of other groups come between.

What has been folded in is known at every row (`Folded`): a group a class, in their order, each of
its aggregates what it comes to over the class's rows so far (`states`).  `count(distinct ...)` is the
exception.  It counts a value the first time it is put in the query's one set, under its aggregate's
and its group's numbers, which the set keeps as 32-bit words: each count is of the values that its
place is the first to have (`Lib.Classes.owned`), which are all of its values where no two places
have one (`Apart`).

* §1 is what an aggregate is over a class, §2 one value more, §3 what is counted at a place, §4 a row
  into the aggregates of its group, §5 a row's group, §6 the rows one after another.
-/
import Fenec.Aggregate
import Fenec.Lib.Classes
import Mathlib.Data.List.TakeWhile

namespace Fenec.Aggregate

open Lib Case Classes

/-- A row as it was read. -/
structure Read where
  id : DocId
  env : Expr → Value

/-! ## 1. What an aggregate is over the rows of a class -/

section Definition

variable (B : Build)

/-- Whether a value is a whole number. -/
def isInt : Value → Bool
  | .int _ => true
  | _ => false

/-- The whole number a value is. -/
def wholeOf : Value → Int
  | .int i => i.toInt
  | _ => 0

/-- Numbers added to one as floats, one after another. -/
def floatSum (from_ : F64) (vals : List Value) : F64 :=
  vals.foldl (fun sum v => sum.add ((Fold.num v).getD Ieee.posZero)) from_

/-- The whole numbers before the first float are added exactly. -/
def wholeSum (vals : List Value) : Int := ((vals.takeWhile isInt).map wholeOf).sum

/-- The first of the values that come before, or after, every one held until then. -/
def extremeOf (text : TextOrder) (max : Bool) (vals : List Value) : Option Value :=
  vals.foldl (fun best v => if best.all (Fold.better B text max v) then some v else best) none

/-- A row's order, its id and its value, where neither the order nor the value is null. -/
def Item.held (it : Item) (r : Read) : Option (Value × DocId × Value) :=
  let key := (it.order.map r.env).getD (.int (Int64.ofNat r.id))
  if (it.value r.env).isNull || key.isNull then none else some (key, r.id, it.value r.env)

/-- The value of the first row, or of the last, in the rows' order. -/
def pickOf (text : TextOrder) (later : Bool) (held : List (Value × DocId × Value)) :
    Option (Value × DocId × Value) :=
  held.foldl (fun best x =>
    if best.all (Fold.earlier B text later x.1 x.2.1) then some x else best) none

/-- The values of a class's rows that an aggregate folds: the ones that are no nulls. -/
def Item.values (it : Item) (rows : List Read) : List Value :=
  (rows.map fun r => it.value r.env).filter fun v => !v.isNull

/-- **What an aggregate is over a class's rows.** -/
def Item.definition (it : Item) (rows : List Read) : Value :=
  let vals := it.values rows
  match it.start with
  | .count _ => .int (Int64.ofNat vals.length)
  | .distinct _ fold => .int (Int64.ofNat (firsts id (vals.map (Fold.encode B · fold))).length)
  | .sumInt _ _ =>
    if vals = [] then .null
    else if vals.all isInt then .int (Int64.ofInt (wholeSum vals))
    else .float (floatSum (Ieee.ofInt (wholeSum vals)) (vals.dropWhile isInt))
  | .sumFloat _ _ => if vals = [] then .null else .float (floatSum Ieee.posZero vals)
  | .avg _ _ =>
    if vals = [] then .null
    else .float ((floatSum Ieee.posZero vals).div (Ieee.ofInt vals.length))
  | .extreme _ max text => (extremeOf B text max vals).getD .null
  | .pick _ later text =>
    ((pickOf B text later (rows.filterMap it.held)).map (·.2.2)).getD .null

/-- **What an aggregate has come to over a class's rows**, what `count(distinct ...)` counts apart. -/
def Item.state (it : Item) (rows : List Read) : Fold :=
  let vals := it.values rows
  match it.start with
  | .count _ => .count vals.length
  | .distinct _ fold => .distinct 0 fold
  | .sumInt _ _ =>
    if vals.all isInt then .sumInt (Int64.ofInt (wholeSum vals)) vals.length
    else .sumFloat (floatSum (Ieee.ofInt (wholeSum vals)) (vals.dropWhile isInt)) vals.length
  | .sumFloat _ _ => .sumFloat (floatSum Ieee.posZero vals) vals.length
  | .avg _ _ => .avg (floatSum Ieee.posZero vals) vals.length
  | .extreme _ max text => .extreme (extremeOf B text max vals) max text
  | .pick _ later text => .pick (pickOf B text later (rows.filterMap it.held)) later text

/-- Whether a fold counts the distinct values. -/
def Fold.isDistinct : Fold → Bool
  | .distinct _ _ => true
  | _ => false

/-- A fold no value has gone into. -/
def Fold.Started : Fold → Prop
  | .count n => n = 0
  | .sumInt sum n => sum = 0 ∧ n = 0
  | .sumFloat sum n => sum = Ieee.posZero ∧ n = 0
  | .avg sum n => sum = Ieee.posZero ∧ n = 0
  | .extreme best _ _ => best = none
  | .distinct n _ => n = 0
  | .pick best _ _ => best = none

/-- A sum of whole numbers that an `i64` holds. -/
def Item.Fits (it : Item) (rows : List Read) : Prop :=
  ∀ sum n, it.start = .sumInt sum n →
    -(2 ^ 63) ≤ wholeSum (it.values rows) ∧ wholeSum (it.values rows) < 2 ^ 63

end Definition

/-! ## 2. One value more -/

section State

variable {B : Build} {it : Item} {rows : List Read} {r : Read} {v : Value} {F F' : Fold}
  {done : Bool} {seen seen' : List Key} {place : Nat × Nat} {vals : List Value}

theorem values_concat (it : Item) (rows : List Read) (r : Read) : it.values (rows ++ [r]) =
    it.values rows ++ if (it.value r.env).isNull then [] else [it.value r.env] := by
  unfold Item.values
  rw [List.map_append, List.filter_append, List.map_singleton]
  cases h : (it.value r.env).isNull with
  | true => simp [h]
  | false => simp [h]

theorem held_of_null (h : (it.value r.env).isNull = true) : it.held r = none := by
  unfold Item.held
  dsimp only
  rw [h, Bool.true_or, if_pos rfl]

theorem wholeSum_of_all (h : vals.all isInt = true) : wholeSum vals = (vals.map wholeOf).sum := by
  have htake : vals.takeWhile isInt = vals :=
    List.takeWhile_eq_self_iff.mpr fun _ hw => List.all_eq_true.mp h _ hw
  rw [wholeSum, htake]

theorem wholeSum_concat (h : vals.all isInt = true) (hv : isInt v = true) :
    wholeSum (vals ++ [v]) = wholeSum vals + wholeOf v := by
  have hall : (vals ++ [v]).all isInt = true := by simp [h, hv]
  rw [wholeSum_of_all hall, wholeSum_of_all h, List.map_append, List.sum_append]
  simp

theorem takeWhile_concat (h : vals.all isInt = false ∨ isInt v = false) :
    (vals ++ [v]).takeWhile isInt = vals.takeWhile isInt := by
  induction vals with
  | nil =>
    have hv : isInt v = false := h.resolve_left (by simp)
    simp [hv]
  | cons w vals ih =>
    rw [List.cons_append, List.takeWhile_cons, List.takeWhile_cons]
    by_cases hw : isInt w = true
    · have h' : vals.all isInt = false ∨ isInt v = false := by simpa [hw] using h
      rw [if_pos hw, if_pos hw, ih h']
    · rw [if_neg hw, if_neg hw]

theorem dropWhile_concat (h : vals.all isInt = false ∨ isInt v = false) :
    (vals ++ [v]).dropWhile isInt = vals.dropWhile isInt ++ [v] := by
  have hall := List.takeWhile_append_dropWhile (p := isInt) (l := vals ++ [v])
  rw [takeWhile_concat h] at hall
  conv_rhs at hall => rw [← List.takeWhile_append_dropWhile (p := isInt) (l := vals)]
  rw [List.append_assoc] at hall
  exact List.append_cancel_left hall

theorem floatSum_concat (x : F64) (vals : List Value) (v : Value) : floatSum x (vals ++ [v]) =
    (floatSum x vals).add ((Fold.num v).getD Ieee.posZero) := by
  rw [floatSum, List.foldl_append]
  rfl

/-- A fold of no rows is the one an item starts at. -/
theorem state_nil (h : it.start.Started) : it.state B [] = it.start := by
  unfold Item.state Item.values
  cases hs : it.start with
  | count n =>
    rw [hs] at h
    obtain rfl : n = 0 := h
    rfl
  | distinct n fold =>
    rw [hs] at h
    obtain rfl : n = 0 := h
    rfl
  | sumInt sum n =>
    rw [hs] at h
    obtain ⟨rfl, rfl⟩ : sum = 0 ∧ n = 0 := h
    rfl
  | sumFloat sum n =>
    rw [hs] at h
    obtain ⟨rfl, rfl⟩ : sum = Ieee.posZero ∧ n = 0 := h
    rfl
  | avg sum n =>
    rw [hs] at h
    obtain ⟨rfl, rfl⟩ : sum = Ieee.posZero ∧ n = 0 := h
    rfl
  | extreme best max text =>
    rw [hs] at h
    obtain rfl : best = none := h
    rfl
  | pick best later text =>
    rw [hs] at h
    obtain rfl : best = none := h
    rfl

/-- A null changes nothing. -/
theorem state_concat_null (h : (it.value r.env).isNull = true) :
    it.state B (rows ++ [r]) = it.state B rows ∧ it.values (rows ++ [r]) = it.values rows := by
  have hvals : it.values (rows ++ [r]) = it.values rows := by
    rw [values_concat, if_pos h, List.append_nil]
  refine ⟨?_, hvals⟩
  unfold Item.state
  rw [hvals, List.filterMap_append]
  simp [held_of_null h]

section Step

variable (hfits : it.Fits rows) (hnull : (it.value r.env).isNull = false)
include hnull

theorem values_concat_some : it.values (rows ++ [r]) = it.values rows ++ [it.value r.env] := by
  rw [values_concat, hnull, if_neg (by decide)]

omit hnull in
theorem fits_of_ne (h : ∀ sum n, it.start ≠ .sumInt sum n) (rows : List Read) : it.Fits rows :=
  fun sum n hs => absurd hs (h sum n)

theorem add_state_count {n : Nat} (hs : it.start = .count n)
    (h : Fold.add B (it.state B rows) (it.value r.env) = .ok (F, done)) :
    done = true ∧ F = it.state B (rows ++ [r]) := by
  have hst : ∀ rs, it.state B rs = .count (it.values rs).length := fun rs => by
    unfold Item.state
    rw [hs]
  rw [hst] at h ⊢
  unfold Fold.add at h
  rw [hnull, if_neg (by decide)] at h
  obtain ⟨rfl, rfl⟩ := Prod.mk.inj (Except.ok.inj h)
  rw [values_concat_some hnull, List.length_append]
  exact ⟨rfl, rfl⟩

theorem add_state_extreme {best : Option Value} {max : Bool} {text : TextOrder}
    (hs : it.start = .extreme best max text)
    (h : Fold.add B (it.state B rows) (it.value r.env) = .ok (F, done)) :
    done = true ∧ F = it.state B (rows ++ [r]) := by
  have hst : ∀ rs, it.state B rs = .extreme (extremeOf B text max (it.values rs)) max text :=
    fun rs => by
      unfold Item.state
      rw [hs]
  rw [hst] at h ⊢
  unfold Fold.add at h
  rw [hnull, if_neg (by decide)] at h
  obtain ⟨rfl, rfl⟩ := Prod.mk.inj (Except.ok.inj h)
  refine ⟨rfl, ?_⟩
  rw [values_concat_some hnull, extremeOf, extremeOf, List.foldl_append]
  rfl

theorem add_state_avg {sum : F64} {n : Nat} (hs : it.start = .avg sum n)
    (h : Fold.add B (it.state B rows) (it.value r.env) = .ok (F, done)) :
    done = true ∧ F = it.state B (rows ++ [r]) := by
  have hst : ∀ rs, it.state B rs =
      .avg (floatSum Ieee.posZero (it.values rs)) (it.values rs).length := fun rs => by
    unfold Item.state
    rw [hs]
  rw [hst] at h ⊢
  unfold Fold.add at h
  rw [hnull, if_neg (by decide)] at h
  cases hx : Fold.num (it.value r.env) with
  | none =>
    rw [hx] at h
    cases h
  | some x =>
    rw [hx] at h
    obtain ⟨rfl, rfl⟩ := Prod.mk.inj (Except.ok.inj h)
    rw [values_concat_some hnull, floatSum_concat, hx, List.length_append]
    exact ⟨rfl, rfl⟩

theorem add_state_sumFloat {sum : F64} {n : Nat} (hs : it.start = .sumFloat sum n)
    (h : Fold.add B (it.state B rows) (it.value r.env) = .ok (F, done)) :
    done = true ∧ F = it.state B (rows ++ [r]) := by
  have hst : ∀ rs, it.state B rs =
      .sumFloat (floatSum Ieee.posZero (it.values rs)) (it.values rs).length := fun rs => by
    unfold Item.state
    rw [hs]
  rw [hst] at h ⊢
  unfold Fold.add at h
  rw [hnull, if_neg (by decide)] at h
  cases hx : Fold.num (it.value r.env) with
  | none =>
    rw [hx] at h
    cases h
  | some x =>
    rw [hx] at h
    obtain ⟨rfl, rfl⟩ := Prod.mk.inj (Except.ok.inj h)
    rw [values_concat_some hnull, floatSum_concat, hx, List.length_append]
    exact ⟨rfl, rfl⟩

include hfits in
/-- A sum that began with whole numbers takes a whole number, which an `i64` has room for, or goes
on as a float. -/
theorem add_state_sumInt {sum : Int64} {n : Nat} (hs : it.start = .sumInt sum n)
    (h : Fold.add B (it.state B rows) (it.value r.env) = .ok (F, done)) :
    done = true ∧ F = it.state B (rows ++ [r]) ∧ it.Fits (rows ++ [r]) := by
  have hvals : it.values (rows ++ [r]) = it.values rows ++ [it.value r.env] :=
    values_concat_some hnull
  have hlen : (it.values (rows ++ [r])).length = (it.values rows).length + 1 := by
    rw [hvals, List.length_append]
    rfl
  obtain ⟨hlo, hhi⟩ := hfits sum n hs
  unfold Fold.add at h
  rw [hnull, if_neg (by decide)] at h
  unfold Item.state at h ⊢
  rw [hs] at h ⊢
  dsimp only at h ⊢
  by_cases hall : (it.values rows).all isInt = true
  · rw [if_pos hall] at h
    have hexact : (Int64.ofInt (wholeSum (it.values rows))).toInt = wholeSum (it.values rows) :=
      Int64.toInt_ofInt_of_le hlo (by simpa using hhi)
    cases hv : it.value r.env with
    | int i =>
      rw [hv] at h hvals
      dsimp only at h
      have hall' : (it.values rows ++ [Value.int i]).all isInt = true := by simp [hall, isInt]
      have hsum : wholeSum (it.values rows ++ [Value.int i]) = wholeSum (it.values rows) + i.toInt :=
        wholeSum_concat hall rfl
      rw [hexact] at h
      split at h
      · next hfit =>
        obtain ⟨rfl, rfl⟩ := Prod.mk.inj (Except.ok.inj h)
        rw [hlen, hvals, if_pos hall', hsum, Int64.ofInt_add, Int64.ofInt_toInt]
        refine ⟨rfl, rfl, fun _ _ _ => ?_⟩
        rw [hvals, hsum]
        exact hfit
      · cases h
    | float x =>
      rw [hv] at h hvals
      dsimp only at h
      obtain ⟨rfl, rfl⟩ := Prod.mk.inj (Except.ok.inj h)
      have hany : (it.values rows).all isInt = false ∨ isInt (.float x) = false := .inr rfl
      have hall' : ¬ (it.values rows ++ [Value.float x]).all isInt = true := by simp [isInt]
      have htake : wholeSum (it.values rows ++ [Value.float x]) = wholeSum (it.values rows) := by
        rw [wholeSum, takeWhile_concat hany]
        rfl
      have hdrop : (it.values rows).dropWhile isInt = [] :=
        List.dropWhile_eq_nil_iff.mpr fun _ hw => List.all_eq_true.mp hall _ hw
      have hnum : (Fold.num (.float x)).getD Ieee.posZero = x := rfl
      have hnil : ∀ y, floatSum y [] = y := fun _ => rfl
      rw [hlen, hvals, if_neg hall', htake, dropWhile_concat hany, hdrop, hexact, floatSum_concat,
        hnum, hnil]
      refine ⟨rfl, rfl, fun _ _ _ => ?_⟩
      rw [hvals, htake]
      exact ⟨hlo, hhi⟩
    | _ =>
      rw [hv] at h
      cases h
  · rw [if_neg hall] at h
    have hany : ∀ v, (it.values rows).all isInt = false ∨ isInt v = false :=
      fun v => .inl (Bool.eq_false_iff.mpr hall)
    have hall' : ¬ (it.values rows ++ [it.value r.env]).all isInt = true := by
      simp [hall]
    have htake : wholeSum (it.values rows ++ [it.value r.env]) = wholeSum (it.values rows) := by
      rw [wholeSum, takeWhile_concat (hany _)]
      rfl
    dsimp only at h
    cases hx : Fold.num (it.value r.env) with
    | none =>
      rw [hx] at h
      cases h
    | some x =>
      rw [hx] at h
      obtain ⟨rfl, rfl⟩ := Prod.mk.inj (Except.ok.inj h)
      rw [hlen, hvals, if_neg hall', htake, dropWhile_concat (hany _), floatSum_concat, hx]
      refine ⟨rfl, rfl, fun _ _ _ => ?_⟩
      rw [hvals, htake]
      exact ⟨hlo, hhi⟩

end Step

/-- **A value folded in by `add`.** -/
theorem add_state (hfits : it.Fits rows)
    (h : Fold.add B (it.state B rows) (it.value r.env) = .ok (F, done)) :
    (done = true ∧ F = it.state B (rows ++ [r]) ∧ it.Fits (rows ++ [r])) ∨
      (done = false ∧ F = it.state B rows ∧ it.Fits (rows ++ [r]) ∧
        (it.value r.env).isNull = false ∧
        ((∃ n fold, it.start = .distinct n fold) ∨ ∃ b l t, it.start = .pick b l t)) := by
  cases hnull : (it.value r.env).isNull with
  | true =>
    unfold Fold.add at h
    rw [hnull, if_pos rfl] at h
    obtain ⟨rfl, rfl⟩ := Prod.mk.inj (Except.ok.inj h)
    obtain ⟨hstate, hvals⟩ : it.state B (rows ++ [r]) = it.state B rows ∧
        it.values (rows ++ [r]) = it.values rows := state_concat_null hnull
    refine .inl ⟨rfl, hstate.symm, ?_⟩
    unfold Item.Fits
    rw [hvals]
    exact hfits
  | false =>
    cases hs : it.start with
    | count n =>
      obtain ⟨hd, hF⟩ := add_state_count hnull hs h
      exact .inl ⟨hd, hF, fits_of_ne (by simp [hs]) _⟩
    | sumInt sum n => exact .inl (add_state_sumInt hfits hnull hs h)
    | sumFloat sum n =>
      obtain ⟨hd, hF⟩ := add_state_sumFloat hnull hs h
      exact .inl ⟨hd, hF, fits_of_ne (by simp [hs]) _⟩
    | avg sum n =>
      obtain ⟨hd, hF⟩ := add_state_avg hnull hs h
      exact .inl ⟨hd, hF, fits_of_ne (by simp [hs]) _⟩
    | extreme best max text =>
      obtain ⟨hd, hF⟩ := add_state_extreme hnull hs h
      exact .inl ⟨hd, hF, fits_of_ne (by simp [hs]) _⟩
    | distinct n fold =>
      have hst : it.state B rows = .distinct 0 fold := by
        unfold Item.state
        rw [hs]
      rw [hst] at h ⊢
      unfold Fold.add at h
      rw [hnull, if_neg (by decide)] at h
      obtain ⟨rfl, rfl⟩ := Prod.mk.inj (Except.ok.inj h)
      exact .inr ⟨rfl, rfl, fits_of_ne (by simp [hs]) _, rfl, .inl ⟨n, fold, rfl⟩⟩
    | pick best later text =>
      have hst : it.state B rows =
          .pick (pickOf B text later (rows.filterMap it.held)) later text := by
        unfold Item.state
        rw [hs]
      rw [hst] at h ⊢
      unfold Fold.add at h
      rw [hnull, if_neg (by decide)] at h
      obtain ⟨rfl, rfl⟩ := Prod.mk.inj (Except.ok.inj h)
      exact .inr ⟨rfl, rfl, fits_of_ne (by simp [hs]) _, rfl, .inr ⟨best, later, text, rfl⟩⟩

/-- **A row taken by `first` or `last`.** -/
theorem rowHeld_state {best : Option (Value × DocId × Value)} {later : Bool} {text : TextOrder}
    (hs : it.start = .pick best later text) (hnull : (it.value r.env).isNull = false)
    (h : Fold.rowHeld B (it.state B rows) (it.value r.env) (it.order.map r.env) r.id place seen =
      .ok (F, seen')) : F = it.state B (rows ++ [r]) ∧ seen' = seen := by
  have hst : ∀ rs : List Read, it.state B rs =
      .pick (pickOf B text later (rs.filterMap it.held)) later text := fun rs => by
    unfold Item.state
    rw [hs]
  rw [hst] at h ⊢
  unfold Fold.rowHeld at h
  rw [hnull, if_neg (by decide)] at h
  dsimp only at h
  rw [List.filterMap_append]
  cases hkey : ((it.order.map r.env).getD (.int (Int64.ofNat r.id))).isNull with
  | true =>
    have hheld : it.held r = none := by
      unfold Item.held
      dsimp only
      rw [hkey, Bool.or_true, if_pos rfl]
    rw [hkey, if_pos rfl] at h
    obtain ⟨rfl, rfl⟩ := Prod.mk.inj (Except.ok.inj h)
    rw [List.filterMap_cons_none hheld, List.filterMap_nil, List.append_nil]
    exact ⟨rfl, rfl⟩
  | false =>
    have hheld : it.held r = some ((it.order.map r.env).getD (.int (Int64.ofNat r.id)), r.id,
        it.value r.env) := by
      unfold Item.held
      dsimp only
      rw [hkey, hnull]
      rfl
    rw [hkey, if_neg (by decide)] at h
    obtain ⟨rfl, rfl⟩ := Prod.mk.inj (Except.ok.inj h)
    rw [List.filterMap_cons_some hheld, List.filterMap_nil, pickOf, pickOf, List.foldl_append]
    exact ⟨rfl, rfl⟩

end State

/-! ## 3. What is counted at a place -/

section Places

variable (B : Build)

/-- A value put in the query's set: the place it is counted at, an aggregate's number and a group's,
and its encoding. -/
abbrev Event := (Nat × Nat) × Key

/-- What an event is put in the set under. -/
def Event.key (e : Event) : Key := Fold.placed e.1 e.2

/-- What an aggregate puts in the set of a row. -/
def Item.events (it : Item) (r : Read) (place : Nat × Nat) : List Event :=
  match it.start with
  | .distinct _ fold =>
    if (it.value r.env).isNull then [] else [(place, Fold.encode B (it.value r.env) fold)]
  | _ => []

/-- What a row puts in the set, its aggregates in turn. -/
def rowEvents (r : Read) (at_ : Nat) : Nat → List Item → List Event
  | _, [] => []
  | i, it :: items => it.events B r (i, at_) ++ rowEvents r at_ (i + 1) items

/-- An aggregate's fold over the rows of its class, after the events until then. -/
def Item.stateAt (it : Item) (es : List Event) (place : Nat × Nat) (rows : List Read) : Fold :=
  match it.start with
  | .distinct _ fold => .distinct (owned Event.key Prod.fst es place) fold
  | _ => it.state B rows

/-- A group's folds. -/
def states (es : List Event) (rows : List Read) (at_ : Nat) : Nat → List Item → List Fold
  | _, [] => []
  | i, it :: items => it.stateAt B es (i, at_) rows :: states es rows at_ (i + 1) items

end Places

section Counted

variable {B : Build} {it : Item} {items : List Item} {rows : List Read} {r : Read} {F F' G : Fold}
  {done : Bool} {seen seen' : List Key} {place : Nat × Nat} {es more : List Event} {e : Event}
  {at_ i : Nat} {folds folds' : List Fold}

theorem owned_append_of_ne (h : ∀ e ∈ more, e.1 ≠ place) :
    owned Event.key Prod.fst (es ++ more) place = owned Event.key Prod.fst es place := by
  induction more generalizing es with
  | nil => rw [List.append_nil]
  | cons e more ih =>
    have hcons : es ++ e :: more = (es ++ [e]) ++ more := by
      rw [List.append_assoc, List.singleton_append]
    have hne : e.1 ≠ place := h e List.mem_cons_self
    rw [hcons, ih fun x hx => h x (List.mem_cons_of_mem e hx), owned_concat,
      if_neg fun hp => hne hp.1, Nat.add_zero]

theorem stateAt_append_of_ne (h : ∀ e ∈ more, e.1 ≠ place) :
    it.stateAt B (es ++ more) place rows = it.stateAt B es place rows := by
  unfold Item.stateAt
  rw [owned_append_of_ne h]

theorem mem_events (h : e ∈ it.events B r place) : e.1 = place := by
  unfold Item.events at h
  split at h
  · split at h
    · cases h
    · rw [List.mem_singleton.mp h]
  · cases h

theorem mem_rowEvents (h : e ∈ rowEvents B r at_ i items) : i ≤ e.1.1 ∧ e.1.2 = at_ := by
  induction items generalizing i with
  | nil => cases h
  | cons it items ih =>
    rw [rowEvents, List.mem_append] at h
    rcases h with h | h
    · rw [mem_events h]
      exact ⟨Nat.le_refl i, rfl⟩
    · obtain ⟨hle, hat⟩ := ih h
      exact ⟨by omega, hat⟩

theorem states_append_of_ne (h : ∀ e ∈ more, e.1.2 = at_ → e.1.1 < i) :
    states B (es ++ more) rows at_ i items = states B es rows at_ i items := by
  induction items generalizing i with
  | nil => rfl
  | cons it items ih =>
    rw [states, states, ih fun e he hat => by have := h e he hat; omega, stateAt_append_of_ne]
    intro e he heq
    have := h e he (by rw [heq])
    rw [heq] at this
    exact Nat.lt_irrefl i this

theorem stateAt_of_ne (h : it.start.isDistinct = false) :
    it.stateAt B es place rows = it.state B rows := by
  unfold Item.stateAt
  cases hs : it.start with
  | distinct n fold =>
    rw [hs] at h
    cases h
  | _ => rfl

theorem events_of_ne (h : it.start.isDistinct = false) : it.events B r place = [] := by
  unfold Item.events
  cases hs : it.start with
  | distinct n fold =>
    rw [hs] at h
    cases h
  | _ => rfl

theorem contains_seen (k : Key) : ((firsts Event.key es).map Event.key).contains k = true ↔
    ∃ y ∈ firsts Event.key es, y.key = k := by
  rw [List.contains_iff_mem, List.mem_map]

/-- **A value counted.** -/
theorem rowHeld_distinct {n : Nat} {fold : Option CaseFold} (hs : it.start = .distinct n fold)
    (hnull : (it.value r.env).isNull = false) (order : Option Value)
    (h : Fold.rowHeld B (it.stateAt B es place rows) (it.value r.env) order r.id place
      ((firsts Event.key es).map Event.key) = .ok (F, seen')) :
    F = it.stateAt B (es ++ it.events B r place) place (rows ++ [r]) ∧
      seen' = (firsts Event.key (es ++ it.events B r place)).map Event.key ∧
      (((firsts Event.key es).map Event.key).length ≤ maxDistinctValues →
        seen'.length ≤ maxDistinctValues) := by
  have hst : ∀ es rows, it.stateAt B es place rows =
      .distinct (owned Event.key Prod.fst es place) fold := fun es rows => by
    unfold Item.stateAt
    rw [hs]
  have hev : it.events B r place = [(place, Fold.encode B (it.value r.env) fold)] := by
    unfold Item.events
    rw [hs]
    dsimp only
    rw [hnull, if_neg (by decide)]
  rw [hst] at h ⊢
  rw [hev, owned_concat, firsts_concat]
  unfold Fold.rowHeld at h
  rw [hnull, if_neg (by decide)] at h
  dsimp only at h
  have hkey : Event.key (place, Fold.encode B (it.value r.env) fold) =
    Fold.placed place (Fold.encode B (it.value r.env) fold) := rfl
  by_cases hseen : ∃ y ∈ firsts Event.key es,
      y.key = Fold.placed place (Fold.encode B (it.value r.env) fold)
  · rw [if_pos ((contains_seen _).mpr hseen)] at h
    obtain ⟨rfl, rfl⟩ := Prod.mk.inj (Except.ok.inj h)
    rw [hkey, if_pos hseen, if_neg fun hnew => hnew.2 hseen]
    exact ⟨rfl, rfl, id⟩
  · rw [if_neg fun hc => hseen ((contains_seen _).mp hc)] at h
    split at h
    · cases h
    · next hroom =>
      obtain ⟨rfl, rfl⟩ := Prod.mk.inj (Except.ok.inj h)
      rw [hkey, if_neg hseen, if_pos ⟨rfl, hseen⟩, List.map_append]
      refine ⟨rfl, rfl, fun _ => ?_⟩
      rw [List.length_append, List.length_singleton]
      omega

/-- **A row folded into one aggregate.** -/
theorem addItem_state (hfits : it.Fits rows)
    (hseen : seen = (firsts Event.key es).map Event.key)
    (h : Folding.addItem B r.id r.env place it (it.stateAt B es place rows) seen =
      .ok (F, seen')) :
    F = it.stateAt B (es ++ it.events B r place) place (rows ++ [r]) ∧
      seen' = (firsts Event.key (es ++ it.events B r place)).map Event.key ∧
      it.Fits (rows ++ [r]) ∧
      (seen.length ≤ maxDistinctValues → seen'.length ≤ maxDistinctValues) := by
  subst hseen
  unfold Folding.addItem at h
  cases hadd : Fold.add B (it.stateAt B es place rows) (it.value r.env) with
  | error err =>
    rw [hadd] at h
    cases h
  | ok added =>
  obtain ⟨G, done⟩ := added
  rw [hadd, Result.ok_bind] at h
  dsimp only at h
  cases hdist : it.start.isDistinct with
  | false =>
    rw [events_of_ne hdist, List.append_nil, stateAt_of_ne hdist]
    rw [stateAt_of_ne hdist] at hadd
    rcases add_state hfits hadd with ⟨rfl, rfl, hfits'⟩ | ⟨rfl, rfl, hfits', hnull, hstart⟩
    · rw [if_pos rfl] at h
      obtain ⟨rfl, rfl⟩ := Prod.mk.inj (Except.ok.inj h)
      exact ⟨rfl, rfl, hfits', id⟩
    · rw [if_neg (by decide)] at h
      rcases hstart with ⟨n, fold, hs⟩ | ⟨best, later, text, hs⟩
      · rw [hs] at hdist
        cases hdist
      · obtain ⟨rfl, rfl⟩ := rowHeld_state hs hnull h
        exact ⟨rfl, rfl, hfits', id⟩
  | true =>
    cases hs : it.start with
    | distinct n fold =>
      have hfits' : it.Fits (rows ++ [r]) := fits_of_ne (by simp [hs]) _
      have hst : ∀ es rows, it.stateAt B es place rows =
          .distinct (owned Event.key Prod.fst es place) fold := fun es rows => by
        unfold Item.stateAt
        rw [hs]
      cases hnull : (it.value r.env).isNull with
      | true =>
        have hev : it.events B r place = [] := by
          unfold Item.events
          rw [hs]
          dsimp only
          rw [hnull, if_pos rfl]
        unfold Fold.add at hadd
        rw [hnull, if_pos rfl] at hadd
        obtain ⟨rfl, rfl⟩ := Prod.mk.inj (Except.ok.inj hadd)
        rw [if_pos rfl] at h
        obtain ⟨rfl, rfl⟩ := Prod.mk.inj (Except.ok.inj h)
        rw [hev, List.append_nil, hst, hst]
        exact ⟨rfl, rfl, hfits', id⟩
      | false =>
        have hG : G = it.stateAt B es place rows ∧ done = false := by
          rw [hst] at hadd ⊢
          unfold Fold.add at hadd
          rw [hnull, if_neg (by decide)] at hadd
          obtain ⟨rfl, rfl⟩ := Prod.mk.inj (Except.ok.inj hadd)
          exact ⟨rfl, rfl⟩
        obtain ⟨rfl, rfl⟩ := hG
        rw [if_neg (by decide)] at h
        obtain ⟨hF, hseen, hroom⟩ := rowHeld_distinct hs hnull _ h
        exact ⟨hF, hseen, hfits', hroom⟩
    | _ =>
      rw [hs] at hdist
      cases hdist

end Counted

/-! ## 4. A row into the aggregates of its group -/

section Row

variable {B : Build} {items : List Item} {rows : List Read} {r : Read} {seen seen' : List Key}
  {es : List Event} {at_ i : Nat} {folds' : List Fold}

/-- **A row folded into its group's aggregates**, one after another. -/
theorem addItems_states (hfits : ∀ it ∈ items, it.Fits rows)
    (hseen : seen = (firsts Event.key es).map Event.key)
    (h : Folding.addItems B r.id r.env at_ i items (states B es rows at_ i items) seen =
      .ok (folds', seen')) :
    folds' = states B (es ++ rowEvents B r at_ i items) (rows ++ [r]) at_ i items ∧
      seen' = (firsts Event.key (es ++ rowEvents B r at_ i items)).map Event.key ∧
      (∀ it ∈ items, it.Fits (rows ++ [r])) ∧
      (seen.length ≤ maxDistinctValues → seen'.length ≤ maxDistinctValues) := by
  induction items generalizing i es seen folds' with
  | nil =>
    rw [states, Folding.addItems.eq_def] at h
    obtain ⟨rfl, rfl⟩ := Prod.mk.inj (Except.ok.inj h)
    rw [rowEvents, List.append_nil]
    exact ⟨rfl, hseen, fun _ hit => (List.not_mem_nil hit).elim, id⟩
  | cons it items ih =>
    rw [states, Folding.addItems] at h
    dsimp only at h
    cases hadd : Folding.addItem B r.id r.env (i, at_) it (it.stateAt B es (i, at_) rows) seen with
    | error err =>
      rw [hadd] at h
      cases h
    | ok added =>
      obtain ⟨F, seen₁⟩ := added
      rw [hadd, Result.ok_bind] at h
      dsimp only at h
      obtain ⟨hF, hseen₁, hfit, hroom⟩ := addItem_state (hfits it List.mem_cons_self) hseen hadd
      -- the aggregates after it are at other places
      have hrest : states B es rows at_ (i + 1) items =
          states B (es ++ it.events B r (i, at_)) rows at_ (i + 1) items := by
        refine (states_append_of_ne fun e he _ => ?_).symm
        rw [mem_events he]
        exact Nat.lt_succ_self i
      cases hmore : Folding.addItems B r.id r.env at_ (i + 1) items
          (states B es rows at_ (i + 1) items) seen₁ with
      | error err =>
        rw [hmore] at h
        cases h
      | ok more =>
        obtain ⟨folds, seen₂⟩ := more
        rw [hmore, Result.ok_bind] at h
        obtain ⟨rfl, rfl⟩ := Prod.mk.inj (Except.ok.inj h)
        rw [hrest] at hmore
        obtain ⟨hfolds, hseen₂, hfits', hroom'⟩ :=
          ih (fun x hx => hfits x (List.mem_cons_of_mem it hx)) hseen₁ hmore
        have hhead : it.stateAt B (es ++ it.events B r (i, at_) ++ rowEvents B r at_ (i + 1) items)
            (i, at_) (rows ++ [r]) = F := by
          rw [hF, stateAt_append_of_ne]
          intro e he heq
          have hle := (mem_rowEvents he).1
          rw [heq] at hle
          exact absurd hle (Nat.not_succ_le_self i)
        rw [rowEvents, ← List.append_assoc, states, hhead, ← hfolds]
        refine ⟨rfl, hseen₂, ?_, fun hle => hroom' (hroom hle)⟩
        · intro x hx
          rcases List.mem_cons.mp hx with rfl | hx
          · exact hfit
          · exact hfits' x hx

end Row

/-! ## 5. A row's group -/

namespace Folding

section Classes

variable (B : Build) (f : Folding)

/-- The encoding of a row's keys. -/
def readKey (r : Read) : Key := f.key B r.env

/-- **The classes of the rows**: those of one key each, in the order the keys are first seen;
ungrouped all rows are one. -/
def classes (rows : List Read) : List (List Read) :=
  if f.keys.isEmpty then [rows] else Classes.classes (f.readKey B) rows

/-- The number of a row's class. -/
def groupOf (rows : List Read) (r : Read) : Nat := number (f.readKey B) rows r

/-- A class's keys as its first row wrote them. -/
def shown (rows : List Read) : List Value :=
  (rows.head?.map fun r => f.keys.map fun k => r.env k.expr).getD []

/-- What the rows put in the set, one after another. -/
def events (rows : List Read) : List Event :=
  rows.flatMap fun r => rowEvents B r (f.groupOf B rows r) 0 f.items

/-- The classes before a row joins its own, which is there, empty, if the row is its first. -/
def opened (rows : List Read) (r : Read) : List (List Read) :=
  if f.keys.isEmpty = true ∨ ∃ y ∈ rows, f.readKey B y = f.readKey B r then f.classes B rows
  else f.classes B rows ++ [[]]

variable {B f} {rows : List Read} {r x : Read}

theorem readKey_ungrouped (h : f.keys.isEmpty = true) (r : Read) : f.readKey B r = [] := by
  unfold readKey key
  rw [List.isEmpty_iff.mp h]
  rfl

theorem groupOf_ungrouped (h : f.keys.isEmpty = true) (hx : x ∈ rows) :
    f.groupOf B rows x = 0 := by
  obtain ⟨y, hy, -⟩ : ∃ y ∈ firsts (f.readKey B) rows, f.readKey B y = f.readKey B x :=
    exists_first hx
  cases hfirsts : firsts (f.readKey B) rows with
  | nil =>
    rw [hfirsts] at hy
    cases hy
  | cons z zs =>
    refine (number_eq_iff (y := z) (by rw [hfirsts]; rfl)).mpr ?_
    rw [readKey_ungrouped h, readKey_ungrouped h]

theorem mem_concat (rows : List Read) (r : Read) : r ∈ rows ++ [r] :=
  List.mem_append_right _ (List.mem_singleton_self r)

theorem groupOf_concat (h : ∃ y ∈ rows, f.readKey B y = f.readKey B x) (r : Read) :
    f.groupOf B (rows ++ [r]) x = f.groupOf B rows x := number_concat h r

/-- **A row joins its class**, at its end. -/
theorem classes_concat (rows : List Read) (r : Read) : f.classes B (rows ++ [r]) =
    (f.opened B rows r).modify (f.groupOf B (rows ++ [r]) r) (· ++ [r]) := by
  unfold opened classes
  by_cases hk : f.keys.isEmpty = true
  · rw [if_pos hk, if_pos (.inl hk), if_pos hk, groupOf_ungrouped hk (mem_concat rows r)]
    rfl
  · rw [if_neg hk, if_neg hk]
    by_cases hseen : ∃ y ∈ rows, f.readKey B y = f.readKey B r
    · rw [if_pos (.inr hseen), groupOf_concat hseen, classes_concat_of_mem hseen]
      rfl
    · have hnew : ¬ (f.keys.isEmpty = true ∨ ∃ y ∈ rows, f.readKey B y = f.readKey B r) :=
        fun h => h.elim hk hseen
      have hnumber : f.groupOf B (rows ++ [r]) r = (Classes.classes (f.readKey B) rows).length :=
        (number_concat_self hseen).trans length_classes.symm
      rw [if_neg hnew, classes_concat_of_not_mem hseen, hnumber, List.modify_eq_take_drop]
      simp

theorem length_opened_le : (f.opened B rows r).length = (f.classes B (rows ++ [r])).length := by
  rw [classes_concat, List.length_modify]

theorem groupOf_lt_opened : f.groupOf B (rows ++ [r]) r < (f.opened B rows r).length := by
  by_cases hk : f.keys.isEmpty = true
  · have hone : f.opened B rows r = [rows] := by
      unfold opened classes
      rw [if_pos (.inl hk), if_pos hk]
    rw [groupOf_ungrouped hk (mem_concat rows r), hone]
    exact Nat.one_pos
  · rw [length_opened_le]
    unfold classes
    rw [if_neg hk, length_classes]
    exact number_lt_iff.mpr ⟨r, mem_concat rows r, rfl⟩

theorem events_concat (rows : List Read) (r : Read) : f.events B (rows ++ [r]) =
    f.events B rows ++ rowEvents B r (f.groupOf B (rows ++ [r]) r) 0 f.items := by
  unfold events
  rw [List.flatMap_append, List.flatMap_singleton]
  congr 1
  rw [List.flatMap_def, List.flatMap_def]
  congr 1
  refine List.map_congr_left fun x hx => ?_
  rw [groupOf_concat ⟨x, hx, rfl⟩]

/-- A place a value was counted at is a group's. -/
theorem lt_of_mem_events {e : Event} (h : e ∈ f.events B rows) :
    e.1.2 < (f.classes B rows).length := by
  obtain ⟨x, hx, he⟩ := List.mem_flatMap.mp h
  rw [(mem_rowEvents he).2]
  by_cases hk : f.keys.isEmpty = true
  · unfold classes
    rw [if_pos hk, groupOf_ungrouped hk hx]
    exact Nat.one_pos
  · unfold classes
    rw [if_neg hk, length_classes]
    exact number_lt_iff.mpr ⟨x, hx, rfl⟩

/-- **What has been folded in.** -/
structure Folded (B : Build) (f : Folding) (rows : List Read) (g : Groups) : Prop where
  n : g.n = (f.classes B rows).length
  keyValues : g.keyValues = (f.classes B rows).map f.shown
  index : f.keys.isEmpty = false → ∀ x : Read, g.index.lookup (f.readKey B x) =
    if ∃ y ∈ rows, f.readKey B y = f.readKey B x then some (f.groupOf B rows x) else none
  last : ∀ l, g.last = some l → ∀ x : Read, f.readKey B x = g.lastKey →
    (∃ y ∈ rows, f.readKey B y = f.readKey B x) ∧ f.groupOf B rows x = l
  folds : g.folds = (f.classes B rows).mapIdx fun i c => states B (f.events B rows) c i 0 f.items
  seen : g.seen = (firsts Event.key (f.events B rows)).map Event.key
  fits : ∀ c ∈ f.classes B rows, ∀ it ∈ f.items, it.Fits c
  room : g.seen.length ≤ maxDistinctValues

/-- What is known once a row's group is, before the row is folded into it. -/
structure Turned (B : Build) (f : Folding) (rows : List Read) (r : Read) (g : Groups) : Prop where
  n : g.n = (f.classes B (rows ++ [r])).length
  keyValues : g.keyValues = (f.classes B (rows ++ [r])).map f.shown
  index : f.keys.isEmpty = false → ∀ x : Read, g.index.lookup (f.readKey B x) =
    if ∃ y ∈ rows ++ [r], f.readKey B y = f.readKey B x then some (f.groupOf B (rows ++ [r]) x)
    else none
  last : ∀ l, g.last = some l → ∀ x : Read, f.readKey B x = g.lastKey →
    (∃ y ∈ rows ++ [r], f.readKey B y = f.readKey B x) ∧ f.groupOf B (rows ++ [r]) x = l
  folds : g.folds =
    (f.opened B rows r).mapIdx fun i c => states B (f.events B rows) c i 0 f.items

theorem shown_append {c : List Read} (h : c ≠ [] ∨ f.keys.isEmpty = true) (r : Read) :
    f.shown (c ++ [r]) = f.shown c := by
  cases c with
  | cons x c => rfl
  | nil =>
    have hk := List.isEmpty_iff.mp (h.resolve_left fun hne => hne rfl)
    unfold shown
    rw [hk]
    rfl

/-- The keys of the classes that were there are not changed by one more row. -/
theorem map_shown_concat (h : f.keys.isEmpty = true ∨ ∃ y ∈ rows, f.readKey B y = f.readKey B r) :
    (f.classes B (rows ++ [r])).map f.shown = (f.classes B rows).map f.shown := by
  have hopened : f.opened B rows r = f.classes B rows := if_pos h
  have hclass : ∀ c ∈ f.classes B rows, c ≠ [] ∨ f.keys.isEmpty = true := by
    intro c hc
    unfold classes at hc
    split at hc
    · next hk => exact .inr hk
    · exact .inl (ne_nil_of_mem_classes hc)
  rw [classes_concat, hopened]
  refine List.ext_getElem? fun i => ?_
  rw [List.getElem?_map, List.getElem?_map, List.getElem?_modify]
  cases hi : (f.classes B rows)[i]? with
  | none => rfl
  | some c =>
    change some (f.shown (if _ then c ++ [r] else c)) = some (f.shown c)
    split
    · rw [shown_append (hclass c (List.mem_of_getElem? hi))]
    · rfl

theorem states_start {es : List Event} {items : List Item} {at_ i : Nat}
    (hstart : ∀ it ∈ items, it.start.Started) (hes : ∀ e ∈ es, e.1.2 ≠ at_) :
    states B es [] at_ i items = items.map (·.start) := by
  induction items generalizing i with
  | nil => rfl
  | cons it items ih =>
    have hnone : it.stateAt B ([] ++ es) (i, at_) [] = it.stateAt B [] (i, at_) [] :=
      stateAt_append_of_ne fun e he heq => hes e he (by rw [heq])
    rw [List.nil_append] at hnone
    have hhead : it.stateAt B [] (i, at_) [] = it.start := by
      have hs := hstart it List.mem_cons_self
      cases hdist : it.start with
      | distinct n fold =>
        rw [hdist] at hs
        obtain rfl : n = 0 := hs
        unfold Item.stateAt
        rw [hdist]
        rfl
      | _ =>
        rw [stateAt_of_ne (by rw [hdist]; rfl), state_nil hs, hdist]
    rw [states, hnone, hhead, ih fun x hx => hstart x (List.mem_cons_of_mem it hx)]
    rfl

theorem seen_concat (rows : List Read) (r x : Read) :
    (∃ y ∈ rows ++ [r], f.readKey B y = f.readKey B x) ↔
      (∃ y ∈ rows, f.readKey B y = f.readKey B x) ∨ f.readKey B r = f.readKey B x := by
  simp only [List.mem_append, List.mem_singleton, or_and_right, exists_or, exists_eq_left]

/-- A row of a class that is there leaves the groups as they are. -/
theorem Folded.turned_old {g g' : Groups} (hg : Folded B f rows g)
    (hseen : ∃ y ∈ rows, f.readKey B y = f.readKey B r) (hn : g'.n = g.n)
    (hvalues : g'.keyValues = g.keyValues) (hindex : g'.index = g.index)
    (hfolds : g'.folds = g.folds)
    (hlast : ∀ l, g'.last = some l → ∀ x : Read, f.readKey B x = g'.lastKey →
      (∃ y ∈ rows, f.readKey B y = f.readKey B x) ∧ f.groupOf B rows x = l) :
    Turned B f rows r g' := by
  have hopened : f.opened B rows r = f.classes B rows := if_pos (.inr hseen)
  have hiff : ∀ x : Read, (∃ y ∈ rows ++ [r], f.readKey B y = f.readKey B x) ↔
      ∃ y ∈ rows, f.readKey B y = f.readKey B x := by
    intro x
    rw [seen_concat, or_iff_left_of_imp]
    rintro hrx
    obtain ⟨y, hy, hyr⟩ := hseen
    exact ⟨y, hy, hyr.trans hrx⟩
  refine ⟨?_, ?_, ?_, ?_, ?_⟩
  · rw [hn, hg.n, ← length_opened_le, hopened]
  · rw [hvalues, hg.keyValues, map_shown_concat (.inr hseen)]
  · intro hk x
    rw [hindex, hg.index hk x]
    by_cases hx : ∃ y ∈ rows, f.readKey B y = f.readKey B x
    · rw [if_pos hx, if_pos ((hiff x).mpr hx), groupOf_concat hx]
    · rw [if_neg hx, if_neg fun h => hx ((hiff x).mp h)]
  · intro l hl x hx
    obtain ⟨hin, hl⟩ := hlast l hl x hx
    exact ⟨(hiff x).mpr hin, (groupOf_concat hin r).trans hl⟩
  · rw [hfolds, hg.folds, hopened]

/-- A row of no class there opens a group for it. -/
theorem Folded.turned_new (hstart : ∀ it ∈ f.items, it.start.Started) {g : Groups}
    (hg : Folded B f rows g) (hk : f.keys.isEmpty = false)
    (hnew : ¬ ∃ y ∈ rows, f.readKey B y = f.readKey B r) (streak : Bool) :
    Turned B f rows r { f.open_ g (f.readKey B r) r.env with
      lastKey := f.readKey B r, streak := streak, last := some g.n } := by
  have hkeys : ¬ f.keys.isEmpty = true := by rw [hk]; decide
  have hopened : f.opened B rows r = f.classes B rows ++ [[]] :=
    if_neg fun h => h.elim hkeys hnew
  have hclasses : f.classes B (rows ++ [r]) = f.classes B rows ++ [[r]] := by
    unfold classes
    rw [if_neg hkeys, if_neg hkeys]
    exact classes_concat_of_not_mem hnew
  have hnumber : f.groupOf B (rows ++ [r]) r = g.n := by
    rw [hg.n]
    unfold classes
    rw [if_neg hkeys]
    exact (number_concat_self hnew).trans length_classes.symm
  have hself : ∀ x : Read, f.readKey B x = f.readKey B r →
      f.groupOf B (rows ++ [r]) x = g.n := by
    intro x hx
    rw [← hnumber]
    unfold groupOf number
    rw [hx]
  refine ⟨?_, ?_, ?_, ?_, ?_⟩
  · rw [hclasses, List.length_append]
    exact congrArg (· + 1) hg.n
  · rw [hclasses, List.map_append, ← hg.keyValues]
    rfl
  · intro _ x
    change List.lookup (f.readKey B x) ((f.readKey B r, g.n) :: g.index) = _
    rw [List.lookup_cons]
    by_cases hx : f.readKey B x = f.readKey B r
    · rw [if_pos ((seen_concat rows r x).mpr (.inr hx.symm)), hself x hx, hx, beq_self_eq_true]
    · have hne : (f.readKey B x == f.readKey B r) = false := beq_eq_false_iff_ne.mpr hx
      rw [hne]
      change g.index.lookup (f.readKey B x) = _
      rw [hg.index hk x]
      by_cases hin : ∃ y ∈ rows, f.readKey B y = f.readKey B x
      · rw [if_pos hin, if_pos ((seen_concat rows r x).mpr (.inl hin)), groupOf_concat hin]
      · rw [if_neg hin, if_neg fun h => ((seen_concat rows r x).mp h).elim hin fun h => hx h.symm]
  · intro l hl x hx
    obtain rfl := Option.some.inj hl
    exact ⟨(seen_concat rows r x).mpr (.inr hx.symm), hself x hx⟩
  · rw [hopened, List.mapIdx_append, ← hg.folds]
    change g.folds ++ [f.items.map (·.start)] = _
    rw [List.mapIdx_singleton, Nat.zero_add,
      states_start hstart fun e he => Nat.ne_of_lt (lt_of_mem_events he)]

/-- **A row's group is the one of its class.** -/
theorem turn_spec (hstart : ∀ it ∈ f.items, it.start.Started) {g : Groups}
    (hg : Folded B f rows g) (r : Read) :
    Turned B f rows r (f.turn B g r.env).1 ∧
      (f.turn B g r.env).2 = f.groupOf B (rows ++ [r]) r ∧ (f.turn B g r.env).1.seen = g.seen := by
  unfold turn
  cases hk : f.keys.isEmpty with
  | true =>
    rw [if_pos rfl]
    have hopened : f.opened B rows r = f.classes B rows := if_pos (.inl hk)
    refine ⟨⟨?_, ?_, fun h => absurd (hk.symm.trans h) (by decide), ?_, ?_⟩, ?_, rfl⟩
    · rw [hg.n, ← length_opened_le, hopened]
    · rw [hg.keyValues, map_shown_concat (.inl hk)]
    · intro l hl x hx
      obtain ⟨⟨y, hy, hyx⟩, hl⟩ := hg.last l hl x hx
      have hin : ∃ y ∈ rows, f.readKey B y = f.readKey B x := ⟨y, hy, hyx⟩
      exact ⟨(seen_concat rows r x).mpr (.inl hin), (groupOf_concat hin r).trans hl⟩
    · rw [hg.folds, hopened]
    · rw [groupOf_ungrouped hk (mem_concat rows r)]
  | false =>
    rw [if_neg (by decide)]
    have hkey : f.key B r.env = f.readKey B r := rfl
    have hindex := hg.index hk r
    dsimp only
    rw [hkey]
    split
    · next n hlast hstreak =>
      -- the row before went to its group
      have hsame : f.readKey B r = g.lastKey := by
        rw [Bool.and_eq_true, beq_iff_eq] at hstreak
        exact hstreak.2
      obtain ⟨hseen, hnumber⟩ := hg.last n hlast r hsame
      exact ⟨hg.turned_old hseen rfl rfl rfl rfl hg.last,
        ((groupOf_concat hseen r).trans hnumber).symm, rfl⟩
    · by_cases hseen : ∃ y ∈ rows, f.readKey B y = f.readKey B r
      · rw [if_pos hseen] at hindex
        rw [hindex]
        refine ⟨hg.turned_old hseen rfl rfl rfl rfl ?_, (groupOf_concat hseen r).symm, rfl⟩
        intro l hl x hx
        obtain rfl := Option.some.inj hl
        have hx' : f.readKey B x = f.readKey B r := hx
        refine ⟨hx'.symm ▸ hseen, ?_⟩
        unfold groupOf number
        rw [hx']
      · rw [if_neg hseen] at hindex
        rw [hindex]
        refine ⟨hg.turned_new hstart hk hseen _, ?_, rfl⟩
        have hnumber := number_concat_self hseen
        have hkeys : ¬ f.keys.isEmpty = true := by rw [hk]; decide
        have hlen : g.n = (firsts (f.readKey B) rows).length := by
          rw [hg.n]
          unfold classes
          rw [if_neg hkeys, length_classes]
        exact hlen.trans hnumber.symm

/-! ## 6. The rows one after another -/

theorem fits_nil (it : Item) : it.Fits [] := by
  intro sum n _
  have hzero : wholeSum (it.values []) = 0 := rfl
  rw [hzero]
  decide

/-- The folds that a row is folded into: those of its class, empty if the row is its first. -/
theorem turn_folds (hstart : ∀ it ∈ f.items, it.start.Started) {g : Groups}
    (hg : Folded B f rows g) (r : Read) :
    ∃ c, (f.opened B rows r)[f.groupOf B (rows ++ [r]) r]? = some c ∧
      (f.turn B g r.env).1.folds.getD (f.groupOf B (rows ++ [r]) r) [] =
        states B (f.events B rows) c (f.groupOf B (rows ++ [r]) r) 0 f.items := by
  have hlt : f.groupOf B (rows ++ [r]) r < (f.opened B rows r).length := groupOf_lt_opened
  have hc := List.getElem?_eq_getElem hlt
  refine ⟨_, hc, ?_⟩
  rw [(turn_spec hstart hg r).1.folds, List.getD_eq_getElem?_getD, List.getElem?_mapIdx, hc]
  rfl

/-- **A row that is folded in is folded into its group.** -/
theorem foldRow_folded (hstart : ∀ it ∈ f.items, it.start.Started) {g g' : Groups}
    (hg : Folded B f rows g) (r : Read) (h : f.foldRow B g r.id r.env = .ok g') :
    Folded B f (rows ++ [r]) g' := by
  obtain ⟨ht, hat, hseen⟩ := turn_spec hstart hg r
  unfold foldRow at h
  dsimp only at h
  rw [hat] at h
  obtain ⟨c, hc, hget⟩ := turn_folds hstart hg r
  have hfits : ∀ c ∈ f.opened B rows r, ∀ it ∈ f.items, it.Fits c := by
    intro c hc it hit
    unfold opened at hc
    split at hc
    · exact hg.fits c hc it hit
    · rcases List.mem_append.mp hc with hc | hc
      · exact hg.fits c hc it hit
      · rw [List.mem_singleton.mp hc]
        exact fits_nil it
  rw [hget, hseen] at h
  cases hadd : addItems B r.id r.env (f.groupOf B (rows ++ [r]) r) 0 f.items
      (states B (f.events B rows) c (f.groupOf B (rows ++ [r]) r) 0 f.items) g.seen with
  | error err =>
    rw [hadd] at h
    cases h
  | ok added =>
    obtain ⟨folds, seen⟩ := added
    rw [hadd, Result.ok_bind] at h
    obtain rfl := Except.ok.inj h
    obtain ⟨hfolds, hseen', hfits', hroom⟩ :=
      addItems_states (hfits c (List.mem_of_getElem? hc)) hg.seen hadd
    rw [← events_concat] at hfolds hseen'
    refine ⟨ht.n, ht.keyValues, ht.index, ht.last, ?_, hseen', ?_, hroom hg.room⟩
    · -- the folds of the row's group are the ones of its class with the row; no others are changed
      change (f.turn B g r.env).1.folds.set (f.groupOf B (rows ++ [r]) r) folds = _
      rw [ht.folds, classes_concat]
      refine List.ext_getElem? fun i => ?_
      rw [List.getElem?_set, List.getElem?_mapIdx, List.getElem?_mapIdx, List.getElem?_modify,
        List.length_mapIdx]
      by_cases hi : f.groupOf B (rows ++ [r]) r = i
      · subst hi
        rw [if_pos rfl, if_pos groupOf_lt_opened, hc, hfolds]
        change _ = some (states B _ (if _ = _ then c ++ [r] else c) _ _ _)
        rw [if_pos rfl]
      · rw [if_neg hi]
        cases hci : (f.opened B rows r)[i]? with
        | none => rfl
        | some d =>
          change some (states B _ d i 0 f.items) =
            some (states B _ (if _ = i then d ++ [r] else d) i 0 f.items)
          rw [if_neg hi, events_concat, states_append_of_ne]
          intro e he hei
          exact absurd ((mem_rowEvents he).2.symm.trans hei) hi
    · intro d hd it hit
      rw [classes_concat] at hd
      obtain ⟨i, hi⟩ := List.mem_iff_getElem?.mp hd
      rw [List.getElem?_modify] at hi
      cases hci : (f.opened B rows r)[i]? with
      | none =>
        rw [hci] at hi
        cases hi
      | some e =>
        rw [hci] at hi
        have hd' : (if f.groupOf B (rows ++ [r]) r = i then e ++ [r] else e) = d :=
          Option.some.inj hi
        by_cases heq : f.groupOf B (rows ++ [r]) r = i
        · rw [if_pos heq] at hd'
          rw [heq, hci] at hc
          obtain rfl := Option.some.inj hc
          exact hd' ▸ hfits' it hit
        · rw [if_neg heq] at hd'
          exact hd' ▸ hfits e (List.mem_of_getElem? hci) it hit

/-- The rows that are read of some ids. -/
def reads (f : Folding) : List DocId → Result (List Read)
  | [] => .ok []
  | id :: ids => do
    match (← f.rd.read id) with
    | none => reads f ids
    | some env => do pure (⟨id, env⟩ :: (← reads f ids))

theorem start_folded (hstart : ∀ it ∈ f.items, it.start.Started) (lastKey : Key) :
    Folded B f [] (f.start lastKey) := by
  have hclasses : f.classes B [] = if f.keys.isEmpty then [[]] else [] := rfl
  refine ⟨?_, ?_, ?_, fun l hl => (by cases hl), ?_, rfl, ?_, Nat.zero_le _⟩
  · rw [hclasses]
    unfold start
    dsimp only
    split
    · rfl
    · rfl
  · rw [hclasses]
    unfold start
    dsimp only
    split
    · rfl
    · rfl
  · intro _ x
    rw [if_neg fun ⟨y, hy, _⟩ => List.not_mem_nil hy]
    rfl
  · rw [hclasses]
    unfold start
    dsimp only
    split
    · rw [List.mapIdx_cons, List.mapIdx_nil]
      exact congrArg ([·]) (states_start hstart fun e he => absurd he List.not_mem_nil).symm
    · rfl
  · intro c hc it _
    rw [hclasses] at hc
    split at hc
    · rw [List.mem_singleton.mp hc]
      exact fits_nil it
    · cases hc

/-- **Rows that are folded in are folded into their groups.** -/
theorem fold_folded (hstart : ∀ it ∈ f.items, it.start.Started) {g g' : Groups}
    {ids : List DocId} (hg : Folded B f rows g) (h : f.fold B g ids = .ok g') :
    ∃ more, f.reads ids = .ok more ∧ Folded B f (rows ++ more) g' := by
  induction ids generalizing rows g with
  | nil =>
    obtain rfl := Except.ok.inj h
    exact ⟨[], rfl, by rwa [List.append_nil]⟩
  | cons id ids ih =>
    rw [fold] at h
    rw [reads]
    cases hread : f.rd.read id with
    | error err =>
      rw [hread] at h
      cases h
    | ok row =>
      rw [hread, Result.ok_bind] at h
      rw [Result.ok_bind]
      cases row with
      | none => exact ih hg h
      | some env =>
        dsimp only at h ⊢
        cases hrow : f.foldRow B g id env with
        | error err =>
          rw [hrow] at h
          cases h
        | ok g₁ =>
          rw [hrow, Result.ok_bind] at h
          obtain ⟨more, hmore, hg'⟩ := ih (foldRow_folded hstart hg ⟨id, env⟩ hrow) h
          refine ⟨⟨id, env⟩ :: more, by rw [hmore]; rfl, ?_⟩
          rwa [List.append_assoc, List.singleton_append] at hg'

end Classes

end Folding

end Fenec.Aggregate
