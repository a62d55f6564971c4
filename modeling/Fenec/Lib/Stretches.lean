/-
# Stretches of a list

Two ways a program speaks of part of a buffer: between two places (`sliceOf`, which fails where they
are out of bounds), and between two separators (`pieces`: what each separator closes, and what is
still open at the end).

A list read a part at a time has the pieces of the whole: what a part leaves open is put before
the next part (`pieces_append`).
-/
import Mathlib.Data.List.Basic

namespace Fenec.Lib

variable {α : Type}

/-! ## 1. Between two places -/

/-- `&xs[start..stop]`, nothing where it is out of bounds. -/
def sliceOf (xs : List α) (start stop : Nat) : Option (List α) :=
  if start ≤ stop ∧ stop ≤ xs.length then some ((xs.take stop).drop start) else none

variable {pre a post : List α}

/-- A stretch between its own two places. -/
theorem sliceOf_middle :
    sliceOf (pre ++ (a ++ post)) pre.length (pre.length + a.length) = some a := by
  have hin : pre.length ≤ pre.length + a.length ∧
      pre.length + a.length ≤ (pre ++ (a ++ post)).length := by
    rw [List.length_append, List.length_append]
    omega
  unfold sliceOf
  rw [if_pos hin, List.take_length_add_append, List.take_left, List.drop_left]

/-- A stretch to the end. -/
theorem sliceOf_to_end {xs : List α} {start : Nat} (h : start ≤ xs.length) :
    sliceOf xs start xs.length = some (xs.drop start) := by
  unfold sliceOf
  rw [if_pos ⟨h, Nat.le_refl _⟩, List.take_length]

/-! ## 2. Between two separators -/

variable [DecidableEq α]

/-- An item put before the first of the pieces. -/
def pushFront (b : α) : List (List α) × List α → List (List α) × List α
  | ([], rest) => ([], b :: rest)
  | (l :: closed, rest) => ((b :: l) :: closed, rest)

/-- The pieces of a list each closed by a separator, and the one still open. -/
def pieces (sep : α) : List α → List (List α) × List α
  | [] => ([], [])
  | b :: bs =>
    if b = sep then ([] :: (pieces sep bs).1, (pieces sep bs).2) else pushFront b (pieces sep bs)

variable {sep : α} {l rest : List α}

theorem pieces_sep : pieces sep (sep :: l) = ([] :: (pieces sep l).1, (pieces sep l).2) := by
  rw [pieces, if_pos rfl]

/-- A list with no separator is open. -/
theorem pieces_of_not_mem (h : sep ∉ l) : pieces sep l = ([], l) := by
  induction l with
  | nil => rfl
  | cons b l ih =>
    obtain ⟨hb, hl⟩ := not_or.mp (mt List.mem_cons.mpr h)
    rw [pieces, ih hl, if_neg (Ne.symm hb), pushFront]

/-- What stands before the first separator is the first piece. -/
theorem pieces_closed (h : sep ∉ l) : pieces sep (l ++ sep :: rest) =
    (l :: (pieces sep rest).1, (pieces sep rest).2) := by
  induction l with
  | nil => exact pieces_sep
  | cons b l ih =>
    obtain ⟨hb, hl⟩ := not_or.mp (mt List.mem_cons.mpr h)
    rw [List.cons_append, pieces, ih hl, if_neg (Ne.symm hb), pushFront]

/-- A list is open, or has a first piece. -/
theorem open_or_closed (sep : α) (l : List α) :
    sep ∉ l ∨ ∃ a rest, l = a ++ sep :: rest ∧ sep ∉ a := by
  by_cases h : sep ∈ l
  · exact .inr (List.eq_append_cons_of_mem h)
  · exact .inl h

/-- What is open holds no separator. -/
theorem not_mem_open (sep : α) (l : List α) : sep ∉ (pieces sep l).2 := by
  induction l with
  | nil => exact List.not_mem_nil
  | cons b l ih =>
    rw [pieces]
    split
    · exact ih
    · next hb =>
      generalize pieces sep l = p at ih ⊢
      rcases p with ⟨_ | ⟨a, closed⟩, rest⟩
      · exact fun hmem => (List.mem_cons.mp hmem).elim (fun h => hb h.symm) ih
      · exact ih

/-- What is open ends the list. -/
theorem open_suffix (sep : α) (l : List α) : (pieces sep l).2 <:+ l := by
  induction l with
  | nil => exact List.suffix_refl _
  | cons b l ih =>
    rw [pieces]
    split
    · exact ih.trans (List.suffix_cons b l)
    · generalize hp : pieces sep l = p at ih ⊢
      rcases p with ⟨_ | ⟨a, closed⟩, rest⟩
      · -- nothing is closed: all of it is open
        have hall : sep ∉ l := by
          rcases open_or_closed sep l with h | ⟨a, after, rfl, ha⟩
          · exact h
          · rw [pieces_closed ha] at hp
            cases hp
        rw [pieces_of_not_mem hall] at hp
        obtain rfl : l = rest := congrArg Prod.snd hp
        exact List.suffix_refl _
      · exact ih.trans (List.suffix_cons b l)

/-- **A list read a part at a time**: what the first part leaves open is put before the second. -/
theorem pieces_append (a b : List α) : pieces sep (a ++ b) =
    ((pieces sep a).1 ++ (pieces sep ((pieces sep a).2 ++ b)).1,
      (pieces sep ((pieces sep a).2 ++ b)).2) := by
  induction a with
  | nil => rfl
  | cons x a ih =>
    rw [List.cons_append, pieces, ih, pieces]
    by_cases hx : x = sep
    · rw [if_pos hx, if_pos hx]
      rfl
    · rw [if_neg hx, if_neg hx]
      rcases pieces sep a with ⟨_ | ⟨l, closed⟩, rest⟩
      · -- the first part is all open: it is read again with the second behind it
        rw [pushFront, List.nil_append, List.nil_append, List.cons_append, pieces, if_neg hx]
      · rfl

end Fenec.Lib
