/-
# The first few of a set

The `k` least elements of a finite set, in order (`best`), and the bounded heap that finds them one
element at a time: what it keeps of a set is the set's first `k`, whatever the order they come in
(`keep_best`).  An element past all that a full heap holds can be left out (`best_insert_of_past`),
and one such bound covers every element that it bounds (`best_union_of_past`): that is all a search
needs to know in order to pass elements over.

The heap is a list in order, its last element the one a heap would have at its top.
-/
import Mathlib.Data.Finset.Sort
import Mathlib.Data.List.Sort

namespace Fenec.Lib.Best

variable {α : Type} [LinearOrder α] {k : Nat} {s t : Finset α} {l : List α} {x y : α}

/-! ## 1. The first of a set -/

/-- The `k` least elements of a set, in order. -/
def best (k : Nat) (s : Finset α) : List α := (s.sort (· ≤ ·)).take k

theorem best_empty (k : Nat) : best k (∅ : Finset α) = [] := by
  unfold best
  rw [Finset.sort_empty, List.take_nil]

theorem sorted_best : (best k s).Pairwise (· ≤ ·) :=
  (Finset.pairwise_sort s (· ≤ ·)).sublist (List.take_sublist _ _)

theorem length_best_le : (best k s).length ≤ k := List.length_take_le _ _

/-- A set with an element more, in order. -/
theorem sort_insert (hx : x ∉ s) :
    (insert x s).sort (· ≤ ·) = (s.sort (· ≤ ·)).orderedInsert (· ≤ ·) x := by
  have hsorted : ((s.sort (· ≤ ·)).orderedInsert (· ≤ ·) x).Pairwise (· ≤ ·) :=
    (Finset.pairwise_sort s (· ≤ ·)).orderedInsert x _
  have hperm : ((s.sort (· ≤ ·)).orderedInsert (· ≤ ·) x).Perm (x :: s.sort (· ≤ ·)) :=
    List.perm_orderedInsert (· ≤ ·) x _
  have hnodup : ((s.sort (· ≤ ·)).orderedInsert (· ≤ ·) x).Nodup :=
    hperm.nodup_iff.mpr (List.nodup_cons.mpr
      ⟨fun hmem => hx ((Finset.mem_sort _).mp hmem), Finset.sort_nodup _ _⟩)
  have hset : ((s.sort (· ≤ ·)).orderedInsert (· ≤ ·) x).toFinset = insert x s := by
    rw [List.toFinset_eq_of_perm _ _ hperm, List.toFinset_cons, Finset.sort_toFinset]
  rw [← hset]
  exact (List.toFinset_sort (· ≤ ·) hnodup).mpr hsorted

/-! ## 2. The bounded heap -/

/-- The heap after an element: put in its place, and the last one out where they are too many. -/
def keep (k : Nat) (l : List α) (x : α) : List α :=
  let l := l.orderedInsert (· ≤ ·) x
  if k < l.length then l.dropLast else l

/-- The first few after an insertion are those of an insertion into the first few. -/
theorem take_orderedInsert (k : Nat) (l : List α) (x : α) :
    (l.orderedInsert (· ≤ ·) x).take k = ((l.take k).orderedInsert (· ≤ ·) x).take k := by
  induction l generalizing k with
  | nil => rw [List.take_nil]
  | cons a rest ih =>
    cases k with
    | zero => rw [List.take_zero, List.take_zero]
    | succ k =>
      rw [List.take_succ_cons]
      by_cases hxa : x ≤ a
      · rw [List.orderedInsert_cons_of_le _ _ hxa, List.orderedInsert_cons_of_le _ _ hxa,
          List.take_succ_cons, List.take_succ_cons]
        cases k with
        | zero => rw [List.take_zero, List.take_zero]
        | succ k =>
          rw [List.take_succ_cons, List.take_succ_cons, List.take_take,
            Nat.min_eq_left (Nat.le_succ k)]
      · rw [List.orderedInsert_of_not_le _ _ hxa, List.orderedInsert_of_not_le _ _ hxa,
          List.take_succ_cons, List.take_succ_cons, ih k]

/-- A heap of at most `k` after an element is the first `k` of the insertion. -/
theorem keep_eq_take (h : l.length ≤ k) : keep k l x = (l.orderedInsert (· ≤ ·) x).take k := by
  have hlen : (l.orderedInsert (· ≤ ·) x).length = l.length + 1 :=
    List.orderedInsert_length (· ≤ ·) l x
  unfold keep
  dsimp only
  split
  · next hlt =>
    have hk : k = (l.orderedInsert (· ≤ ·) x).length - 1 := by omega
    rw [List.dropLast_eq_take, ← hk]
  · next hge => rw [List.take_of_length_le (by omega)]

/-- **What the heap keeps of a set is the set's first**: an element more, and it keeps the first of
the set with that element. -/
theorem keep_best (hx : x ∉ s) : keep k (best k s) x = best k (insert x s) := by
  rw [keep_eq_take length_best_le]
  unfold best
  rw [sort_insert hx, ← take_orderedInsert]

/-! ## 3. What can be passed over -/

/-- The heap is full and an element comes after all it keeps. -/
def Past (k : Nat) (l : List α) (x : α) : Prop := l.length = k ∧ ∀ y ∈ l, y < x

theorem Past.trans (h : Past k l x) (hxy : x ≤ y) : Past k l y :=
  ⟨h.1, fun z hz => lt_of_lt_of_le (h.2 z hz) hxy⟩

/-- An element past all of a list goes to its end. -/
theorem orderedInsert_past (h : ∀ y ∈ l, y < x) : l.orderedInsert (· ≤ ·) x = l ++ [x] := by
  induction l with
  | nil => rfl
  | cons a rest ih =>
    have hxa : ¬ x ≤ a := not_le.mpr (h a List.mem_cons_self)
    rw [List.orderedInsert_of_not_le _ _ hxa, List.cons_append,
      ih fun y hy => h y (List.mem_cons_of_mem _ hy)]

/-- An element past all that a full heap keeps changes nothing. -/
theorem best_insert_of_past (h : Past k (best k s) x) : best k (insert x s) = best k s := by
  by_cases hx : x ∈ s
  · rw [Finset.insert_eq_of_mem hx]
  · obtain ⟨hfull, hall⟩ := h
    rw [← keep_best hx, keep_eq_take length_best_le, orderedInsert_past hall,
      List.take_append_of_le_length hfull.ge, List.take_of_length_le hfull.le]

/-- What is past all that is kept stays so. -/
theorem Past.stays (h : Past k (best k s) y) (x : α) : Past k (best k (insert x s)) y := by
  by_cases hxy : y ≤ x
  · rw [best_insert_of_past (h.trans hxy)]
    exact h
  · by_cases hx : x ∈ s
    · rw [Finset.insert_eq_of_mem hx]
      exact h
    · have hkeep : best k (insert x s) = ((best k s).orderedInsert (· ≤ ·) x).take k := by
        rw [← keep_best hx, keep_eq_take length_best_le]
      rw [hkeep]
      refine ⟨?_, fun z hz => ?_⟩
      · rw [List.length_take, List.orderedInsert_length, h.1]
        omega
      · rcases (List.mem_orderedInsert (· ≤ ·)).mp (List.mem_of_mem_take hz) with rfl | hz
        · exact not_le.mp hxy
        · exact h.2 z hz

/-- **Elements past all that a full heap keeps change nothing**, however many they are. -/
theorem best_union_of_past (h : ∀ x ∈ t, Past k (best k s) x) : best k (s ∪ t) = best k s := by
  induction t using Finset.induction_on with
  | empty => rw [Finset.union_empty]
  | insert x t hx ih =>
    have hrest : best k (s ∪ t) = best k s := ih fun y hy => h y (Finset.mem_insert_of_mem hy)
    rw [Finset.union_insert, best_insert_of_past, hrest]
    rw [hrest]
    exact h x (Finset.mem_insert_self x t)

end Fenec.Lib.Best
