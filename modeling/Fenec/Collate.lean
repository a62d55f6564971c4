/-
# The order of texts

A field's texts are ordered by their bytes, by a collation, by their case folds, or by a
collation of their folds (`TextOrder`).

A collation compares texts level by level: the weights of all their characters at the first
level, then at the second, then at the third, and last the texts themselves, so that only a text
and itself compare equal.  The weight tables are Unicode's and a parameter (`CollationData`);
what the source adds is a short cut, comparing past the texts' common start, held back to where
no contraction can reach across.
-/
import Fenec.Case

namespace Fenec

open Lib Case

/-- The collations a field may name. -/
inductive Collation where
  | turkish
  | root
deriving DecidableEq

/-- The name a declaration gives a collation. -/
def Collation.name : Collation → String
  | .turkish => "tr"
  | .root => "und"

/-- The collation tables: which characters a contraction may take after another, and the weights
of a text at a level, the zero ones left out. -/
structure CollationData where
  continues : Char → Bool
  weights : Collation → Nat → List Char → List Nat

namespace Collation

variable (D : CollationData)

/-- Whether the text goes on with a character a contraction may take. -/
def continued : List Char → Bool
  | [] => false
  | c :: _ => !isAscii c && D.continues c

/-- The common start of two texts, last character first, and what follows it in each. -/
def common : List Char → List Char → List Char → List Char × List Char × List Char
  | acc, x :: xs, y :: ys => if x = y then common (x :: acc) xs ys else (acc, x :: xs, y :: ys)
  | acc, xs, ys => (acc, xs, ys)

/-- Gives characters of the common start back while either rest goes on with one a contraction
may take. -/
def holdBack : List Char → List Char → List Char → List Char × List Char
  | c :: acc, a, b =>
    if continued D a || continued D b then holdBack acc (c :: a) (c :: b) else (a, b)
  | [], a, b => (a, b)

/-- The levels in turn, the texts themselves last. -/
def levels (c : Collation) (a b : List Char) : Ordering :=
  (((compare (D.weights c 0 a) (D.weights c 0 b)).then
    (compare (D.weights c 1 a) (D.weights c 1 b))).then
    (compare (D.weights c 2 a) (D.weights c 2 b))).then (compare a b)

/-- `Collation::compare`. -/
def compare (c : Collation) (a b : String) : Ordering :=
  let (acc, x, y) := common [] a.toList b.toList
  if x = [] ∧ y = [] then .eq
  else
    let (x, y) := holdBack D acc x y
    levels D c x y

/-! ## 1. Turning the texts round turns the answer round -/

theorem common_swap (acc a b : List Char) :
    common acc b a = ((common acc a b).1, (common acc a b).2.2, (common acc a b).2.1) := by
  fun_induction common acc a b with
  | case1 acc x xs ys ih => rw [common, if_pos rfl, ih]
  | case2 acc x xs y ys h => rw [common, if_neg (Ne.symm h)]
  | case3 acc xs ys h =>
    cases xs with
    | nil => cases ys <;> simp [common]
    | cons x xs =>
      cases ys with
      | nil => simp [common]
      | cons y ys => exact absurd rfl (h x xs y ys rfl)

theorem holdBack_swap (acc a b : List Char) :
    holdBack D acc b a = ((holdBack D acc a b).2, (holdBack D acc a b).1) := by
  fun_induction holdBack D acc a b with
  | case1 c acc a b h ih => rw [holdBack, Bool.or_comm, if_pos h, ih]
  | case2 c acc a b h => rw [holdBack, Bool.or_comm, if_neg h]
  | case3 a b => rw [holdBack]

theorem levels_swap (c : Collation) (a b : List Char) :
    levels D c b a = (levels D c a b).swap := by
  unfold levels
  simp only [Ordering.swap_then]
  rw [Std.OrientedOrd.eq_swap (a := D.weights c 0 b), Std.OrientedOrd.eq_swap
    (a := D.weights c 1 b), Std.OrientedOrd.eq_swap (a := D.weights c 2 b),
    Std.OrientedOrd.eq_swap (a := b)]

/-- **A collation is antisymmetric.** -/
theorem compare_swap (c : Collation) (a b : String) :
    compare D c b a = (compare D c a b).swap := by
  unfold compare
  rw [common_swap]
  dsimp only
  by_cases h : (common [] a.toList b.toList).2.1 = [] ∧ (common [] a.toList b.toList).2.2 = []
  · rw [if_pos h, if_pos h.symm]
    rfl
  · rw [if_neg h, if_neg fun h' => h h'.symm, holdBack_swap, levels_swap]

/-! ## 2. Only a text and itself compare equal -/

theorem common_append (acc a b : List Char) :
    acc.reverse ++ a = (common acc a b).1.reverse ++ (common acc a b).2.1 ∧
    acc.reverse ++ b = (common acc a b).1.reverse ++ (common acc a b).2.2 := by
  fun_induction common acc a b with
  | case1 acc x xs ys ih => simpa using ih
  | case2 => simp
  | case3 => simp

theorem holdBack_append (acc a b : List Char) : ∃ pre : List Char,
    (holdBack D acc a b).1 = pre ++ a ∧ (holdBack D acc a b).2 = pre ++ b := by
  fun_induction holdBack D acc a b with
  | case1 c acc a b h ih =>
    obtain ⟨pre, h1, h2⟩ := ih
    exact ⟨pre ++ [c], by simp [h1], by simp [h2]⟩
  | case2 => exact ⟨[], rfl, rfl⟩
  | case3 => exact ⟨[], rfl, rfl⟩

theorem compare_eq_iff (c : Collation) {a b : String} : compare D c a b = .eq ↔ a = b := by
  have happ := common_append [] a.toList b.toList
  unfold compare
  generalize hcm : common [] a.toList b.toList = t at happ ⊢
  obtain ⟨acc, x, y⟩ := t
  simp only [List.reverse_nil, List.nil_append] at happ
  dsimp only
  rw [← String.toList_inj, happ.1, happ.2]
  split
  · next h => simp [h.1, h.2]
  · obtain ⟨pre, hx, hy⟩ := holdBack_append D acc x y
    rw [hx, hy]
    simp only [levels, Ordering.then_eq_eq, Std.compare_eq_iff_eq]
    constructor
    · rintro ⟨-, h⟩
      rw [List.append_cancel_left h]
    · intro h
      rw [List.append_cancel_left h]
      simp

end Collation

/-! ## 3. A field's order -/

/-- How a field's texts compare. -/
structure TextOrder where
  coll : Option Collation
  fold : Option CaseFold
deriving DecidableEq

namespace TextOrder

/-- By their bytes. -/
def bytes : TextOrder := ⟨none, none⟩

/-- Whether it is by their bytes. -/
def isBytes (o : TextOrder) : Bool := o.coll.isNone && o.fold.isNone

theorem eq_bytes {o : TextOrder} (h : o.isBytes = true) : o = .bytes := by
  obtain ⟨c, f⟩ := o
  simp only [isBytes, Bool.and_eq_true, Option.isNone_iff_eq_none] at h
  rw [h.1, h.2]
  rfl

/-- `TextOrder::compare`. -/
def compare (T : CharCase) (D : CollationData) (o : TextOrder) (a b : String) : Ordering :=
  match o.fold, o.coll with
  | none, none => cmpStr a b
  | none, some c => c.compare D a b
  | some f, none => cmpFolded T f a.toList b.toList
  | some f, some c => c.compare D (Case.fold T f a) (Case.fold T f b)

end TextOrder

end Fenec
