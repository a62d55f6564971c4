/-
# A counting pass

A counting pass puts a list in the order of a small key: all that has the first key, then all that
has the second, and so on, each as they came (`gathered`).  It is a permutation, and it is stable:
what was in some order before is in the order of the key and then of that one after
(`pairwise_gathered`).  So passes over the digits of a number, the lowest first, sort by the number.

A program makes the pass in place of the classes: it counts each key, starts each where those
before it end, and then puts every item at its key's next place.  What it has written is the pass
(`scattered`), whatever was in the places before.
-/
import Mathlib.Data.List.Basic
import Mathlib.Data.List.Perm.Basic
import Mathlib.Algebra.BigOperators.Group.List.Basic

namespace Fenec.Lib

section Pass

variable {α : Type} {key : α → Nat} {m : Nat} {l : List α}

/-! ## 1. The pass -/

/-- The items of each key in turn, each as they came. -/
def gathered (key : α → Nat) (m : Nat) (l : List α) : List α :=
  (List.range m).flatMap fun b => l.filter fun e => key e == b

/-- The pass up to a key more. -/
theorem gathered_succ (key : α → Nat) (m : Nat) (l : List α) :
    gathered key (m + 1) l = gathered key m l ++ l.filter fun e => key e == m := by
  rw [gathered, List.range_succ, List.flatMap_append, List.flatMap_singleton]
  rfl

theorem mem_gathered {e : α} : e ∈ gathered key m l ↔ e ∈ l ∧ key e < m := by
  unfold gathered
  rw [List.mem_flatMap]
  constructor
  · rintro ⟨b, hb, he⟩
    obtain ⟨hmem, hkey⟩ := List.mem_filter.mp he
    rw [beq_iff_eq.mp hkey]
    exact ⟨hmem, List.mem_range.mp hb⟩
  · rintro ⟨hmem, hlt⟩
    exact ⟨key e, List.mem_range.mpr hlt, List.mem_filter.mpr ⟨hmem, beq_self_eq_true _⟩⟩

/-- What has a key below a bound, and the rest. -/
theorem gathered_perm_filter (key : α → Nat) (m : Nat) (l : List α) :
    (gathered key m l).Perm (l.filter fun e => key e < m) := by
  induction m with
  | zero =>
    have hnone : (l.filter fun e => decide (key e < 0)) = [] :=
      List.filter_eq_nil_iff.mpr fun e _ => by simp
    rw [hnone]
    exact List.Perm.refl _
  | succ m ih =>
    rw [gathered_succ]
    refine (ih.append_right _).trans ?_
    clear ih
    induction l with
    | nil => exact List.Perm.refl _
    | cons e l ih =>
      rw [List.filter_cons, List.filter_cons, List.filter_cons]
      rcases Nat.lt_trichotomy (key e) m with hlt | heq | hgt
      · rw [if_pos (decide_eq_true hlt), if_neg (by simp [Nat.ne_of_lt hlt]),
          if_pos (decide_eq_true (Nat.lt_succ_of_lt hlt))]
        exact ih.cons e
      · rw [if_neg (by simp [heq]), if_pos (beq_iff_eq.mpr heq),
          if_pos (decide_eq_true (by omega))]
        exact List.perm_middle.trans (ih.cons e)
      · rw [if_neg (by simp [Nat.le_of_lt hgt]), if_neg (by simp [Nat.ne_of_gt hgt]),
          if_neg (by simp; omega)]
        exact ih

/-- **A pass loses nothing** where every key is below the bound. -/
theorem gathered_perm (h : ∀ e ∈ l, key e < m) : (gathered key m l).Perm l := by
  have hall : (l.filter fun e => decide (key e < m)) = l :=
    List.filter_eq_self.mpr fun e he => decide_eq_true (h e he)
  have hperm := gathered_perm_filter key m l
  rwa [hall] at hperm

/-- **A pass is stable**: what was in an order is in the key's, and in that one where keys tie. -/
theorem pairwise_gathered {R : α → α → Prop} (h : l.Pairwise R) :
    (gathered key m l).Pairwise fun a b => key a < key b ∨ key a = key b ∧ R a b := by
  induction m with
  | zero => exact List.Pairwise.nil
  | succ m ih =>
    rw [gathered_succ]
    refine List.pairwise_append.mpr ⟨ih, ?_, fun a ha b hb => ?_⟩
    · refine (h.filter _).imp_of_mem fun {a b} ha hb hab => Or.inr ⟨?_, hab⟩
      rw [beq_iff_eq.mp (List.mem_filter.mp ha).2, beq_iff_eq.mp (List.mem_filter.mp hb).2]
    · rw [beq_iff_eq.mp (List.mem_filter.mp hb).2]
      exact Or.inl (mem_gathered.mp ha).2

/-! ## 2. The pass in place -/

/-- How many items have a key. -/
def counted (key : α → Nat) (l : List α) (b : Nat) : Nat := (l.filter fun e => key e == b).length

/-- Where the items of a key start: after all of the keys before. -/
def classStart (key : α → Nat) (l : List α) (b : Nat) : Nat := (gathered key b l).length

theorem classStart_succ (key : α → Nat) (l : List α) (b : Nat) :
    classStart key l (b + 1) = classStart key l b + counted key l b := by
  rw [classStart, gathered_succ, List.length_append]
  rfl

theorem classStart_mono (key : α → Nat) (l : List α) {b c : Nat} (h : b ≤ c) :
    classStart key l b ≤ classStart key l c := by
  induction h with
  | refl => exact Nat.le_refl _
  | step _ ih =>
    rw [classStart_succ]
    omega

/-- An item put at its key's next place. -/
def scatter (key : α → Nat) (s : List Nat × List α) (e : α) : List Nat × List α :=
  (s.1.modify (key e) (· + 1), s.2.set (s.1.getD (key e) 0) e)

/-- **What is written so far**: of each key as many as came, from where the key starts. -/
structure Written (key : α → Nat) (m : Nat) (l P : List α) (s : List Nat × List α) : Prop where
  next : ∀ b < m, s.1[b]? = some (classStart key l b + counted key P b)
  room : s.2.length = l.length
  put : ∀ b < m, ∀ j < counted key P b,
    s.2[classStart key l b + j]? = (P.filter fun e => key e == b)[j]?

theorem counted_append (key : α → Nat) (P S : List α) (b : Nat) :
    counted key (P ++ S) b = counted key P b + counted key S b := by
  rw [counted, List.filter_append, List.length_append]
  rfl

theorem counted_singleton (key : α → Nat) (e : α) (b : Nat) :
    counted key [e] b = if key e = b then 1 else 0 := by
  unfold counted
  by_cases h : key e = b
  · simp [h]
  · simp [h]

/-- **An item more.** -/
theorem Written.step {P S : List α} {e : α} {s : List Nat × List α}
    (h : Written key m (P ++ e :: S) P s) (hkey : key e < m) (hall : ∀ x ∈ P ++ e :: S, key x < m) :
    Written key m (P ++ e :: S) (P ++ [e]) (scatter key s e) := by
  have hroom : counted key P (key e) < counted key (P ++ e :: S) (key e) := by
    rw [counted_append, ← List.singleton_append, counted_append, counted_singleton, if_pos rfl]
    omega
  have hat : s.1.getD (key e) 0 =
      classStart key (P ++ e :: S) (key e) + counted key P (key e) := by
    rw [List.getD_eq_getElem?_getD, h.next _ hkey, Option.getD_some]
  -- it has a place of its own
  have hbound : ∀ b c, b < c → ∀ j < counted key (P ++ e :: S) b,
      classStart key (P ++ e :: S) b + j < classStart key (P ++ e :: S) c := by
    intro b c hbc j hj
    have hnext := classStart_succ key (P ++ e :: S) b
    have hmono : classStart key (P ++ e :: S) (b + 1) ≤ classStart key (P ++ e :: S) c :=
      classStart_mono key _ hbc
    omega
  have hpart : ∀ b, counted key P b ≤ counted key (P ++ e :: S) b := by
    intro b
    rw [counted_append]
    omega
  refine ⟨fun b hb => ?_, ?_, fun b hb j hj => ?_⟩
  · rw [scatter, List.getElem?_modify, h.next b hb, counted_append, counted_singleton]
    by_cases hb' : key e = b
    · rw [Option.map_eq_map, Option.map_some, if_pos hb', if_pos hb', Nat.add_assoc]
    · rw [Option.map_eq_map, Option.map_some, if_neg hb', if_neg hb', Nat.add_zero]
  · rw [scatter, List.length_set]
    exact h.room
  · rw [scatter, hat, List.filter_append]
    rw [counted_append, counted_singleton] at hj
    rcases Nat.lt_trichotomy b (key e) with hlt | rfl | hgt
    · rw [if_neg (Nat.ne_of_gt hlt), Nat.add_zero] at hj
      have hless := hbound b (key e) hlt j (Nat.lt_of_lt_of_le hj (hpart b))
      rw [List.getElem?_set_ne (by omega), h.put b hb j hj, List.getElem?_append_left hj]
    · rw [if_pos rfl] at hj
      rcases Nat.lt_succ_iff_lt_or_eq.mp hj with hj | rfl
      · rw [List.getElem?_set_ne (by omega), h.put _ hb j hj, List.getElem?_append_left hj]
      · have hplace :
            classStart key (P ++ e :: S) (key e) + counted key P (key e) < s.2.length := by
          rw [h.room]
          have hnext := classStart_succ key (P ++ e :: S) (key e)
          have hmono : classStart key (P ++ e :: S) (key e + 1) ≤ classStart key (P ++ e :: S) m :=
            classStart_mono key _ hkey
          have hlen : classStart key (P ++ e :: S) m = (P ++ e :: S).length :=
            (gathered_perm hall).length_eq
          omega
        have hlast : [e].filter (fun x => key x == key e) = [e] := by simp
        rw [List.getElem?_set_self hplace, hlast, counted]
        exact List.getElem?_concat_length.symm
    · rw [if_neg (Nat.ne_of_lt hgt), Nat.add_zero] at hj
      have hless := hbound (key e) b hgt _ hroom
      rw [List.getElem?_set_ne (by omega), h.put b hb j hj, List.getElem?_append_left hj]

/-- **What a program has written is the pass.** -/
theorem scattered {s : List Nat × List α} (hall : ∀ e ∈ l, key e < m)
    (hnext : ∀ b < m, s.1[b]? = some (classStart key l b)) (hroom : s.2.length = l.length) :
    (l.foldl (scatter key) s).2 = gathered key m l := by
  have hrun : ∀ (S P : List α) (s : List Nat × List α), P ++ S = l → Written key m l P s →
      Written key m l l (S.foldl (scatter key) s) := by
    intro S
    induction S with
    | nil =>
      intro P s hl hP
      rw [List.append_nil] at hl
      exact hl ▸ hP
    | cons e S ih =>
      intro P s hl hP
      subst hl
      refine ih (P ++ [e]) _ (by rw [List.append_assoc]; rfl) (hP.step ?_ hall)
      exact hall e (List.mem_append_right _ List.mem_cons_self)
  have hwritten := hrun l [] s (List.nil_append l)
    ⟨fun b hb => hnext b hb, hroom, fun b _ j hj => absurd hj (Nat.not_lt_zero j)⟩
  -- key after key, what is written up to its end is the pass up to it
  have htake : ∀ b ≤ m,
      (l.foldl (scatter key) s).2.take (classStart key l b) = gathered key b l := by
    intro b
    induction b with
    | zero => exact fun _ => List.take_zero
    | succ b ih =>
      intro hb
      rw [classStart_succ, List.take_add, ih (Nat.le_of_succ_le hb), gathered_succ]
      congr 1
      apply List.ext_getElem?
      intro j
      rw [List.getElem?_take]
      by_cases hj : j < counted key l b
      · rw [if_pos hj, List.getElem?_drop]
        exact hwritten.put b (Nat.lt_of_succ_le hb) j hj
      · rw [if_neg hj]
        exact (List.getElem?_eq_none (Nat.not_lt.mp hj)).symm
  have hlen : (l.foldl (scatter key) s).2.length = classStart key l m := by
    rw [hwritten.room, classStart]
    exact (gathered_perm hall).length_eq.symm
  rw [← htake m (Nat.le_refl m), ← hlen, List.take_length]

end Pass

end Fenec.Lib
