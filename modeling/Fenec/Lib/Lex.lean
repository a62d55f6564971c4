/-
# Strings that compare piece by piece

Strings laid end to end compare piece by piece where no piece is a proper start of another that
may stand in its place: two pieces are then one and the same, or they differ at a place both have
(`Parted`), and what follows them does not matter (`Parted.compare_append`).  Turning every letter
round turns the order of such pieces round too (`Parted.compare_map`), which is not so of strings
in general: a start of a string stays below it.

Pieces of one length are parted, and a number written in a fixed number of digits, the most
significant first, is a piece that compares as the number does (`compare_digits`).  Strings that
are padded to one length compare as before, but for one that the other starts (`compare_padded`).
-/
import Mathlib.Data.List.Basic
import Mathlib.Order.Compare
import Mathlib.Tactic.Ring

namespace Fenec.Lib

/-! ## 1. Pieces -/

section Pieces

variable {α : Type} {a b r r' : List α}

/-- **The same string, or two that differ at a place both have.** -/
def Parted (a b : List α) : Prop :=
  a = b ∨ ∃ p x s y t, a = p ++ x :: s ∧ b = p ++ y :: t ∧ x ≠ y

theorem parted_self (a : List α) : Parted a a := .inl rfl

/-- Different letters part what they start. -/
theorem parted_cons_of_ne {x y : α} (h : x ≠ y) (s t : List α) : Parted (x :: s) (y :: t) :=
  .inr ⟨[], x, s, y, t, rfl, rfl, h⟩

theorem Parted.append (h : Parted a b) (h' : a = b → Parted r r') :
    Parted (a ++ r) (b ++ r') := by
  rcases h with rfl | ⟨p, x, s, y, t, rfl, rfl, hne⟩
  · rcases h' rfl with rfl | ⟨p, x, s, y, t, rfl, rfl, hne⟩
    · exact .inl rfl
    · exact .inr ⟨a ++ p, x, s, y, t, by simp, by simp, hne⟩
  · exact .inr ⟨p, x, s ++ r, y, t ++ r', by simp, by simp, hne⟩

theorem Parted.cons (h : Parted a b) (x : α) : Parted (x :: a) (x :: b) :=
  (parted_self [x]).append fun _ => h

/-- Strings of one length are parted. -/
theorem parted_of_length (h : a.length = b.length) : Parted a b := by
  induction a generalizing b with
  | nil => exact .inl (List.length_eq_zero_iff.mp h.symm).symm
  | cons x a ih =>
    cases b with
    | nil => cases h
    | cons y b =>
      by_cases hxy : x = y
      · subst hxy
        exact (ih (Nat.succ.inj h)).cons x
      · exact parted_cons_of_ne hxy a b

end Pieces

/-! ## 2. The order of pieces -/

theorem compare_cons {α : Type} [Ord α] (x y : α) (xs ys : List α) :
    compare (x :: xs) (y :: ys) = (compare x y).then (compare xs ys) :=
  List.compareLex_cons_cons

section Order

variable {α : Type} [Ord α] [Std.LawfulEqOrd α] {a b r r' : List α}

theorem compare_append_left (p a b : List α) : compare (p ++ a) (p ++ b) = compare a b := by
  induction p with
  | nil => rfl
  | cons x p ih => rw [List.cons_append, List.cons_append, compare_cons, Std.compare_self, ih]; rfl

/-- An answer other than equal is the whole answer. -/
theorem then_of_ne {x y : α} (h : x ≠ y) (o : Ordering) : (compare x y).then o = compare x y := by
  have hne : compare x y ≠ .eq := fun heq => h (Std.compare_eq_iff_eq.mp heq)
  cases hc : compare x y with
  | eq => exact absurd hc hne
  | lt => rfl
  | gt => rfl

/-- What tells two strings apart tells them apart whatever follows. -/
theorem compare_apart {p s t : List α} {x y : α} (h : x ≠ y) :
    compare (p ++ x :: s) (p ++ y :: t) = compare x y := by
  rw [compare_append_left, compare_cons, then_of_ne h]

/-- **Parted pieces compare first, and then what follows them.** -/
theorem Parted.compare_append (h : Parted a b) (r r' : List α) :
    compare (a ++ r) (b ++ r') = (compare a b).then (compare r r') := by
  rcases h with rfl | ⟨p, x, s, y, t, rfl, rfl, hne⟩
  · rw [compare_append_left, Std.compare_self]
    rfl
  · rw [List.append_assoc, List.append_assoc, List.cons_append, List.cons_append,
      compare_apart hne, compare_apart hne, then_of_ne hne]

section Turned

variable {f : α → α} (hf : ∀ x y, compare (f x) (f y) = (compare x y).swap)

include hf

theorem turned_injective {x y : α} (h : f x = f y) : x = y := by
  have hswap := hf x y
  rw [h, Std.compare_self] at hswap
  exact Std.compare_eq_iff_eq.mp (Ordering.swap_eq_eq.mp hswap.symm)

theorem Parted.map (h : Parted a b) : Parted (a.map f) (b.map f) := by
  rcases h with rfl | ⟨p, x, s, y, t, rfl, rfl, hne⟩
  · exact .inl rfl
  · exact .inr ⟨p.map f, f x, s.map f, f y, t.map f, by simp, by simp,
      fun heq => hne (turned_injective hf heq)⟩

/-- **Letters turned round turn the order of parted strings round.** -/
theorem Parted.compare_map (h : Parted a b) :
    compare (a.map f) (b.map f) = (compare a b).swap := by
  rcases h with rfl | ⟨p, x, s, y, t, rfl, rfl, hne⟩
  · rw [Std.compare_self, Std.compare_self]
    rfl
  · rw [List.map_append, List.map_append, List.map_cons, List.map_cons,
      compare_apart (fun heq => hne (turned_injective hf heq)), compare_apart hne, hf]

end Turned

end Order

/-! ## 3. Digits -/

section Digits

variable {α : Type} {base : Nat} {digit : Nat → α}

/-- The last `n` digits of a number, the most significant first. -/
def digits (base : Nat) (digit : Nat → α) : Nat → Nat → List α
  | 0, _ => []
  | n + 1, v => digits base digit n (v / base) ++ [digit (v % base)]

@[simp] theorem length_digits (n v : Nat) : (digits base digit n v).length = n := by
  induction n generalizing v with
  | zero => rfl
  | succ n ih => rw [digits, List.length_append, ih]; rfl

/-- A number compares by what is left of its last digit, and then by that. -/
theorem compare_div_mod (v w : Nat) (hb : 0 < base) :
    (compare (v / base) (w / base)).then (compare (v % base) (w % base)) = compare v w := by
  have hv := Nat.div_add_mod v base
  have hw := Nat.div_add_mod w base
  have hv' := Nat.mod_lt v hb
  have hw' := Nat.mod_lt w hb
  rcases Nat.lt_trichotomy (v / base) (w / base) with h | h | h
  · have hlt : v < w := by
      have := Nat.mul_le_mul_left base h
      rw [Nat.mul_succ] at this
      omega
    rw [Nat.compare_eq_lt.mpr h, Nat.compare_eq_lt.mpr hlt]
    rfl
  · rw [h, Std.compare_self]
    show compare (v % base) (w % base) = compare v w
    rw [h] at hv
    rcases Nat.lt_trichotomy (v % base) (w % base) with h' | h' | h'
    · rw [Nat.compare_eq_lt.mpr h', Nat.compare_eq_lt.mpr (by omega)]
    · have hvw : v = w := by omega
      rw [hvw, Std.compare_self, Std.compare_self]
    · rw [Nat.compare_eq_gt.mpr h', Nat.compare_eq_gt.mpr (by omega)]
  · have hlt : w < v := by
      have := Nat.mul_le_mul_left base h
      rw [Nat.mul_succ] at this
      omega
    rw [Nat.compare_eq_gt.mpr h, Nat.compare_eq_gt.mpr hlt]
    rfl

/-- **Numbers of a fixed number of digits compare as the digits do.** -/
theorem compare_digits [Ord α] [Std.LawfulEqOrd α] (hb : 0 < base)
    (hdigit : ∀ x y, x < base → y < base → compare (digit x) (digit y) = compare x y)
    {n v w : Nat} (hv : v < base ^ n) (hw : w < base ^ n) :
    compare (digits base digit n v) (digits base digit n w) = compare v w := by
  induction n generalizing v w with
  | zero =>
    rw [Nat.pow_zero] at hv hw
    rw [show v = w by omega, Std.compare_self, Std.compare_self]
  | succ n ih =>
    have hlen : (digits base digit n (v / base)).length =
        (digits base digit n (w / base)).length := by
      rw [length_digits, length_digits]
    rw [Nat.pow_succ] at hv hw
    rw [digits, digits, (parted_of_length hlen).compare_append,
      ih (Nat.div_lt_of_lt_mul (by rwa [Nat.mul_comm])) (Nat.div_lt_of_lt_mul (by rwa [Nat.mul_comm])),
      compare_cons, hdigit _ _ (Nat.mod_lt _ hb) (Nat.mod_lt _ hb)]
    show (compare (v / base) (w / base)).then
      ((compare (v % base) (w % base)).then (compare ([] : List α) [])) = compare v w
    rw [show compare ([] : List α) [] = .eq from rfl, Ordering.then_eq, compare_div_mod v w hb]

end Digits

/-! ## 4. Padding -/

section Padding

variable {α : Type} [Ord α] {z : α} (hz : ∀ x, compare z x ≠ .gt)

include hz

/-- Nothing is below a string of least letters of its length. -/
theorem compare_least (l : List α) : compare (List.replicate l.length z) l ≠ .gt := by
  induction l with
  | nil => exact fun h => by cases h
  | cons x l ih =>
    rw [List.length_cons, List.replicate_succ, compare_cons]
    cases hc : compare z x with
    | lt => exact fun h => by cases h
    | eq => exact ih
    | gt => exact absurd hc (hz x)

/-- A string is below one it starts, however short of it padding makes it. -/
theorem compare_nil_padded {n : Nat} {y : α} {b : List α} (hb : b.length + 1 ≤ n) :
    (compare (List.replicate n z) (y :: b ++ List.replicate (n - (b.length + 1)) z)).then .lt =
      .lt := by
  have hlen : (y :: b ++ List.replicate (n - (b.length + 1)) z).length = n := by
    simp only [List.length_append, List.length_cons, List.length_replicate]
    omega
  have hle := compare_least hz (y :: b ++ List.replicate (n - (b.length + 1)) z)
  rw [hlen] at hle
  cases hc : compare (List.replicate n z) (y :: b ++ List.replicate (n - (b.length + 1)) z) with
  | lt => rfl
  | eq => rfl
  | gt => exact absurd hc hle

variable [Std.LawfulEqOrd α] [Std.OrientedOrd α]

/-- **Strings padded with least letters to one length compare as the strings do**, the shorter
first where the padding tells nothing. -/
theorem compare_padded {n : Nat} {a b : List α} (ha : a.length ≤ n) (hb : b.length ≤ n) :
    (compare (a ++ List.replicate (n - a.length) z) (b ++ List.replicate (n - b.length) z)).then
      (compare a.length b.length) = compare a b := by
  induction a generalizing n b with
  | nil =>
    cases b with
    | nil =>
      rw [Std.compare_self]
      rfl
    | cons y b => exact compare_nil_padded hz hb
  | cons x a ih =>
    cases b with
    | nil =>
      have hlt := compare_nil_padded (y := x) hz ha
      have hswap : compare (x :: a ++ List.replicate (n - (a.length + 1)) z)
          (List.replicate n z) =
          (compare (List.replicate n z) (x :: a ++ List.replicate (n - (a.length + 1)) z)).swap :=
        Std.OrientedCmp.eq_swap
      show (compare (x :: a ++ List.replicate (n - (a.length + 1)) z)
        (List.replicate n z)).then .gt = .gt
      rw [hswap]
      cases hc : compare (List.replicate n z)
          (x :: a ++ List.replicate (n - (a.length + 1)) z) with
      | lt => rfl
      | eq => rfl
      | gt =>
        rw [hc] at hlt
        cases hlt
    | cons y b =>
      obtain ⟨m, rfl⟩ : ∃ m, n = m + 1 := ⟨n - 1, by rw [List.length_cons] at ha; omega⟩
      have hrest := ih (Nat.le_of_succ_le_succ ha) (Nat.le_of_succ_le_succ hb)
      have hlens : compare (a.length + 1) (b.length + 1) = compare a.length b.length := by
        rcases Nat.lt_trichotomy a.length b.length with h | h | h
        · rw [Nat.compare_eq_lt.mpr h, Nat.compare_eq_lt.mpr (by omega)]
        · rw [h, Std.compare_self, Std.compare_self]
        · rw [Nat.compare_eq_gt.mpr h, Nat.compare_eq_gt.mpr (by omega)]
      rw [List.cons_append, List.cons_append, compare_cons, compare_cons, List.length_cons,
        List.length_cons, hlens, Nat.add_sub_add_right, Nat.add_sub_add_right,
        Ordering.then_assoc, hrest]

end Padding
end Fenec.Lib
