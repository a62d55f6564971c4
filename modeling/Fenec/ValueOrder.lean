/-
# The order of values, turned round

`cmpValue` of two values the other way round is its reverse, whatever kinds they are of
(`cmpValue_swap`): where a text meets a timestamp, both ways parse the same text, and a NaN is equal
to everything from either side.  So are the order of a field's texts, and a comparison with its
operator turned round (`cmpUnder_flip`).
-/
import Fenec.Query

namespace Fenec

open Lib Case

namespace Value

/-! ## 1. Values -/

theorem cmpFloat_swap {e m : Nat} (x y : Ieee e m) : cmpFloat y x = (cmpFloat x y).swap := by
  unfold cmpFloat Ieee.partialCmp
  rw [Bool.or_comm]
  split
  · rfl
  · exact Std.OrientedOrd.eq_swap

theorem compareLex_swap {α : Type} {f : α → α → Ordering} (hf : ∀ x y, f y x = (f x y).swap) :
    ∀ xs ys : List α, List.compareLex f ys xs = (List.compareLex f xs ys).swap
  | [], [] => rfl
  | [], _ :: _ => rfl
  | _ :: _, [] => rfl
  | x :: xs, y :: ys => by
    rw [List.compareLex_cons_cons, List.compareLex_cons_cons, hf x y, Ordering.swap_then,
      compareLex_swap hf xs ys]

theorem cmpStr_swap (a b : String) : cmpStr b a = (cmpStr a b).swap := Std.OrientedOrd.eq_swap

/-- The two dates of a text and a timestamp, the other way round. -/
theorem cmpDate_swap (ms : Int64) (t : String) :
    cmpValue (.text t) (.timestamp ms) = (cmpValue (.timestamp ms) (.text t)).swap := by
  simp only [cmpValue]
  cases Time.parse t with
  | ok t => exact Std.OrientedOrd.eq_swap
  | error _ => rfl

theorem cmpDate_swap' (ms : Int64) (t : String) :
    cmpValue (.timestamp ms) (.text t) = (cmpValue (.text t) (.timestamp ms)).swap := by
  rw [cmpDate_swap, Ordering.swap_swap]

mutual

/-- **Comparing the other way round is the reverse.** -/
theorem cmpValue_swap : ∀ a b : Value, cmpValue b a = (cmpValue a b).swap
  | .null, b => by cases b <;> rfl
  | .bool x, b => by
    cases b with
    | bool y => exact Std.OrientedOrd.eq_swap
    | _ => rfl
  | .int x, b => by
    cases b with
    | int y => exact Std.OrientedOrd.eq_swap
    | float y => exact cmpFloat_swap _ _
    | timestamp y => exact cmpFloat_swap (Ieee.ofInt x.toInt : F64) _
    | _ => rfl
  | .float x, b => by
    cases b with
    | int y => exact cmpFloat_swap _ _
    | float y => exact cmpFloat_swap _ _
    | timestamp y => exact cmpFloat_swap _ _
    | _ => rfl
  | .timestamp x, b => by
    cases b with
    | int y => exact cmpFloat_swap (Ieee.ofInt x.toInt : F64) _
    | float y => exact cmpFloat_swap _ _
    | timestamp y => exact Std.OrientedOrd.eq_swap
    | text y => exact cmpDate_swap x y
    | _ => rfl
  | .text x, b => by
    cases b with
    | text y => exact cmpStr_swap x y
    | timestamp y => exact cmpDate_swap' y x
    | bytes y => exact Std.OrientedOrd.eq_swap
    | _ => rfl
  | .bytes x, b => by
    cases b with
    | bytes y => exact Std.OrientedOrd.eq_swap
    | text y => exact Std.OrientedOrd.eq_swap
    | _ => rfl
  | .vector x, b => by
    cases b with
    | vector y => exact compareLex_swap cmpFloat_swap x y
    | _ => rfl
  | .sparse d x, b => by
    cases b with
    | sparse d' y =>
      have hentry : ∀ a b : UInt32 × F32, (compare b.1 a.1).then (cmpFloat b.2 a.2) =
          ((compare a.1 b.1).then (cmpFloat a.2 b.2)).swap := fun a b => by
        rw [Ordering.swap_then, ← cmpFloat_swap, ← Std.OrientedOrd.eq_swap]
      have hdim : compare d' d = (compare d d').swap := Std.OrientedOrd.eq_swap
      rw [cmpValue, cmpValue, compareLex_swap hentry x y, hdim, Ordering.swap_then]
    | _ => rfl
  | .list x, b => by
    cases b with
    | list y => exact cmpList_swap x y
    | _ => rfl
  | .object x, b => by
    cases b with
    | object y => exact cmpMembers_swap x y
    | _ => rfl

theorem cmpList_swap : ∀ xs ys : List Value, cmpList ys xs = (cmpList xs ys).swap
  | [], [] => rfl
  | [], _ :: _ => rfl
  | _ :: _, [] => rfl
  | x :: xs, y :: ys => by
    rw [cmpList, cmpList, cmpValue_swap x y, cmpList_swap xs ys, Ordering.swap_then]

theorem cmpMembers_swap :
    ∀ xs ys : List (String × Value), cmpMembers ys xs = (cmpMembers xs ys).swap
  | [], [] => rfl
  | [], _ :: _ => rfl
  | _ :: _, [] => rfl
  | (k, x) :: xs, (k', y) :: ys => by
    rw [cmpMembers, cmpMembers, cmpStr_swap k k', cmpValue_swap x y, cmpMembers_swap xs ys,
      Ordering.swap_then, Ordering.swap_then]

end

end Value

/-! ## 2. A field's texts, and comparisons -/

theorem TextOrder.compare_swap (T : CharCase) (D : CollationData) (o : TextOrder) (a b : String) :
    o.compare T D b a = (o.compare T D a b).swap := by
  unfold TextOrder.compare
  cases o.fold with
  | none =>
    cases o.coll with
    | none => exact Value.cmpStr_swap a b
    | some c => exact Collation.compare_swap D c a b
  | some f =>
    cases o.coll with
    | none => exact cmpFolded_swap T f a.toList b.toList
    | some c => exact Collation.compare_swap D c _ _

/-- The comparison with its sides exchanged. -/
def CmpOp.flip : CmpOp → CmpOp
  | .lt => .gt
  | .le => .ge
  | .gt => .lt
  | .ge => .le
  | op => op

section Flip

variable (B : Build) (op : CmpOp) (l r : Value) (order : TextOrder)

theorem holds_flip (o : Ordering) : op.flip.holds o.swap = op.holds o := by
  cases op with
  | _ => cases o with
    | _ => rfl

theorem holdsNull_flip (x y : Bool) : op.flip.holdsNull y x = op.holdsNull x y := by
  cases op with
  | eq => exact Bool.and_comm y x
  | ne => exact bne_comm
  | _ => rfl

variable {B op l r order} in
/-- The order of texts matters only between two texts. -/
theorem ordUnder_plain (h : ¬ ((∃ x, l = .text x) ∧ ∃ y, r = .text y)) :
    ordUnder B op l r order = l.cmpValue r := by
  unfold ordUnder
  split
  · rfl
  · rfl
  · exact absurd ⟨⟨_, rfl⟩, _, rfl⟩ h
  · rfl

theorem ordUnder_flip : ordUnder B op.flip r l order = (ordUnder B op l r order).swap := by
  by_cases h : (∃ x, l = .text x) ∧ ∃ y, r = .text y
  · obtain ⟨⟨x, rfl⟩, y, rfl⟩ := h
    have htexts : (if order.isBytes = true then cmpStr y x
        else order.compare B.chars B.collation y x) =
        (if order.isBytes = true then cmpStr x y
          else order.compare B.chars B.collation x y).swap := by
      split
      · exact Value.cmpStr_swap x y
      · exact TextOrder.compare_swap _ _ order x y
    cases op with
    | eq => exact Value.cmpValue_swap _ _
    | ne => exact Value.cmpValue_swap _ _
    | _ => exact htexts
  · rw [ordUnder_plain h, ordUnder_plain fun h' => h h'.symm]
    exact Value.cmpValue_swap l r

theorem compareValues_flip :
    compareValues B op.flip r l order = compareValues B op l r order := by
  unfold compareValues
  rw [Bool.or_comm, holdsNull_flip, ordUnder_flip, holds_flip]

theorem eqFolded_comm (T : CharCase) (f : CaseFold) (x y : String) :
    eqFolded T f y x = eqFolded T f x y := by
  rw [Bool.eq_iff_iff, eqFolded_iff, eqFolded_iff]
  exact eq_comm

/-- **A comparison turned round** is the same comparison. -/
theorem cmpUnder_flip : cmpUnder B op.flip r l order = cmpUnder B op l r order := by
  have hplain := compareValues_flip B op l r order
  by_cases h : (∃ x, l = .text x) ∧ ∃ y, r = .text y
  · obtain ⟨⟨x, rfl⟩, y, rfl⟩ := h
    unfold cmpUnder
    cases order.fold with
    | none =>
      cases op with
      | _ => exact hplain
    | some f =>
      cases op with
      | eq => exact eqFolded_comm _ f x y
      | ne => exact congrArg not (eqFolded_comm _ f x y)
      | _ => exact hplain
  · have hone : ∀ op l r, ¬ ((∃ x, l = .text x) ∧ ∃ y, r = .text y) →
        cmpUnder B op l r order = compareValues B op l r order := by
      intro op l r h
      unfold cmpUnder
      split
      · exact absurd ⟨⟨_, rfl⟩, _, rfl⟩ h
      · exact absurd ⟨⟨_, rfl⟩, _, rfl⟩ h
      · rfl
    rw [hone _ _ _ h, hone _ _ _ fun h' => h h'.symm, hplain]

end Flip

end Fenec
