/-
# Selection and sorting

A library's unstable sort and its selection of the first items are told what they promise and no
more (`Sorts`): over a comparison that is a total order on the items, a sort leaves them in order
and a selection leaves an item at its place with none after it before it and none before it after
it.  What they do over any other comparison is not said.

Where the comparison ties no two items there is one order of them, and to select the first so many
and sort those is to sort all and take the first (`Sorts.first_eq`), so a sort made stable by a last
comparison of places may be cut short.
-/
import Mathlib.Data.List.Basic
import Mathlib.Data.List.Perm.Basic
import Mathlib.Tactic.Common

namespace Fenec.Lib

section Select

variable {α : Type} {cmp : α → α → Ordering} {l p q : List α}

/-! ## 1. What is promised -/

/-- **A comparison that is a total order** on the items of a list. -/
structure Total (cmp : α → α → Ordering) (l : List α) : Prop where
  swap : ∀ a ∈ l, ∀ b ∈ l, cmp b a = (cmp a b).swap
  trans : ∀ a ∈ l, ∀ b ∈ l, ∀ c ∈ l, cmp a b ≠ .gt → cmp b c ≠ .gt → cmp a c ≠ .gt

/-- A list in the order of a comparison. -/
def InOrder (cmp : α → α → Ordering) (l : List α) : Prop := l.Pairwise fun a b => cmp a b ≠ .gt

/-- **A library's sort and selection**, with what they promise. -/
structure Sorts (α : Type) where
  sortUnstableBy : (α → α → Ordering) → List α → List α
  selectNthUnstableBy : (α → α → Ordering) → Nat → List α → List α
  sorted : ∀ cmp l, Total cmp l →
    (sortUnstableBy cmp l).Perm l ∧ InOrder cmp (sortUnstableBy cmp l)
  selected : ∀ cmp i l, Total cmp l → i < l.length →
    ∃ A x B, selectNthUnstableBy cmp i l = A ++ x :: B ∧ A.length = i ∧ (A ++ x :: B).Perm l ∧
      (∀ a ∈ A, cmp a x ≠ .gt) ∧ ∀ b ∈ B, cmp x b ≠ .gt

/-- **Nothing is lost or made**, whatever the comparison. -/
structure Sorts.Permutes (S : Sorts α) : Prop where
  sort : ∀ cmp l, (S.sortUnstableBy cmp l).Perm l
  select : ∀ cmp i l, (S.selectNthUnstableBy cmp i l).Perm l

/-! ## 2. One order -/

theorem Total.subset (h : Total cmp l) (hp : p ⊆ l) : Total cmp p :=
  ⟨fun a ha b hb => h.swap a (hp ha) b (hp hb),
    fun a ha b hb c hc => h.trans a (hp ha) b (hp hb) c (hp hc)⟩

/-- **Where nothing ties, the items have one order.** -/
theorem Total.eq_of_inOrder (h : Total cmp l) (htie : ∀ a ∈ l, ∀ b ∈ l, cmp a b = .eq → a = b)
    (hp : p.Perm l) (hq : q.Perm l) (hpo : InOrder cmp p) (hqo : InOrder cmp q) : p = q := by
  refine List.Perm.eq_of_pairwise (fun a b ha hb hab hba => ?_) hpo hqo (hp.trans hq.symm)
  have ha := hp.mem_iff.mp ha
  have hb := hq.mem_iff.mp hb
  refine htie a ha b hb ?_
  rw [h.swap a ha b hb] at hba
  cases hcmp : cmp a b with
  | eq => rfl
  | gt => exact absurd hcmp hab
  | lt =>
    rw [hcmp] at hba
    exact absurd rfl hba

/-- **Selecting the first and sorting them** is sorting all and taking the first. -/
theorem Sorts.first_eq (S : Sorts α) (h : Total cmp l)
    (htie : ∀ a ∈ l, ∀ b ∈ l, cmp a b = .eq → a = b) (hp : p.Perm l) (hpo : InOrder cmp p)
    {k : Nat} (hk : 0 < k) (hlt : k < l.length) :
    S.sortUnstableBy cmp ((S.selectNthUnstableBy cmp (k - 1) l).take k) = p.take k := by
  obtain ⟨A, x, B, hsel, hlen, hperm, hA, hB⟩ := S.selected cmp (k - 1) l h (by omega)
  have htake : (S.selectNthUnstableBy cmp (k - 1) l).take k = A ++ [x] := by
    have hcut : A ++ x :: B = (A ++ [x]) ++ B := by
      rw [List.append_assoc, List.singleton_append]
    have hk' : k = (A ++ [x]).length := by
      rw [List.length_append, List.length_singleton]
      omega
    rw [hsel, hcut, hk', List.take_left]
  rw [htake]
  have hmem : ∀ y, y ∈ A ++ x :: B ↔ y ∈ l := fun y => hperm.mem_iff
  have hfirst : A ++ [x] ⊆ l := by
    intro y hy
    refine (hmem y).mp ?_
    rcases List.mem_append.mp hy with hy | hy
    · exact List.mem_append_left _ hy
    · rw [List.mem_singleton.mp hy]
      exact List.mem_append_right _ List.mem_cons_self
  have hrest : B ⊆ l := fun y hy =>
    (hmem y).mp (List.mem_append_right _ (List.mem_cons_of_mem _ hy))
  obtain ⟨hfperm, hford⟩ := S.sorted cmp _ (h.subset hfirst)
  obtain ⟨hrperm, hrord⟩ := S.sorted cmp _ (h.subset hrest)
  -- the first sorted and the rest sorted are all of it sorted
  have hall : p = S.sortUnstableBy cmp (A ++ [x]) ++ S.sortUnstableBy cmp B := by
    refine h.eq_of_inOrder htie hp ?_ hpo ?_
    · have hcut : (A ++ [x]) ++ B = A ++ x :: B := by
        rw [List.append_assoc, List.singleton_append]
      exact (hfperm.append hrperm).trans (hcut ▸ hperm)
    · refine List.pairwise_append.mpr ⟨hford, hrord, fun a ha b hb => ?_⟩
      have ha := hfperm.mem_iff.mp ha
      have hb := hrperm.mem_iff.mp hb
      have hx : x ∈ l := (hmem x).mp (List.mem_append_right _ List.mem_cons_self)
      have hax : cmp a x ≠ .gt := by
        rcases List.mem_append.mp ha with ha | ha
        · exact hA a ha
        · rw [List.mem_singleton.mp ha]
          have hself := h.swap x hx x hx
          intro hgt
          rw [hgt] at hself
          cases hself
      exact h.trans a (hfirst ha) x hx b (hrest hb) hax (hB b hb)
  have hlen' : k = (S.sortUnstableBy cmp (A ++ [x])).length := by
    rw [hfperm.length_eq, List.length_append, List.length_singleton]
    omega
  rw [hall, hlen', List.take_left]

/-! ## 3. A sort that keeps the promise -/

/-- The sort by merging, over the items of a list alone. -/
def mergeSortOn (cmp : α → α → Ordering) (l : List α) : List α :=
  (l.attach.mergeSort fun a b => (cmp a.1 b.1).isLE).map (·.1)

theorem mergeSortOn_perm (cmp : α → α → Ordering) (l : List α) : (mergeSortOn cmp l).Perm l := by
  have hperm := (List.mergeSort_perm l.attach fun a b => (cmp a.1 b.1).isLE).map (·.1)
  rwa [List.attach_map_subtype_val] at hperm

theorem mergeSortOn_spec (h : Total cmp l) :
    (mergeSortOn cmp l).Perm l ∧ InOrder cmp (mergeSortOn cmp l) := by
  have hle : ∀ a b, (cmp a b).isLE = true ↔ cmp a b ≠ .gt := by
    intro a b
    cases cmp a b <;> decide
  constructor
  · exact mergeSortOn_perm cmp l
  · have htrans : ∀ a b c : {x // x ∈ l}, (cmp a.1 b.1).isLE = true → (cmp b.1 c.1).isLE = true →
        (cmp a.1 c.1).isLE = true := by
      intro a b c hab hbc
      exact (hle _ _).mpr (h.trans a.1 a.2 b.1 b.2 c.1 c.2 ((hle _ _).mp hab) ((hle _ _).mp hbc))
    have htotal : ∀ a b : {x // x ∈ l}, ((cmp a.1 b.1).isLE || (cmp b.1 a.1).isLE) = true := by
      intro a b
      rw [h.swap a.1 a.2 b.1 b.2]
      cases cmp a.1 b.1 <;> rfl
    exact List.pairwise_map.mpr ((List.pairwise_mergeSort htrans htotal l.attach).imp
      fun {a b} hab => (hle _ _).mp hab)

/-- A sorted list has every item at its place. -/
theorem mergeSortOn_selected (h : Total cmp l) {i : Nat} (hi : i < l.length) :
    ∃ A x B, mergeSortOn cmp l = A ++ x :: B ∧ A.length = i ∧ (A ++ x :: B).Perm l ∧
      (∀ a ∈ A, cmp a x ≠ .gt) ∧ ∀ b ∈ B, cmp x b ≠ .gt := by
  obtain ⟨hperm, hord⟩ := mergeSortOn_spec h
  have hlt : i < (mergeSortOn cmp l).length := by rwa [hperm.length_eq]
  have hcut : mergeSortOn cmp l = (mergeSortOn cmp l).take i ++
      (mergeSortOn cmp l)[i] :: (mergeSortOn cmp l).drop (i + 1) := by
    rw [List.getElem_cons_drop, List.take_append_drop]
  unfold InOrder at hord
  rw [hcut] at hord
  obtain ⟨-, hright, hacross⟩ := List.pairwise_append.mp hord
  exact ⟨_, _, _, hcut, List.length_take_of_le (Nat.le_of_lt hlt), hcut ▸ hperm,
    fun a ha => hacross a ha _ List.mem_cons_self, (List.pairwise_cons.mp hright).1⟩

/-- A sort by merging, and a selection that sorts. -/
def Sorts.merging (α : Type) : Sorts α where
  sortUnstableBy := mergeSortOn
  selectNthUnstableBy cmp _ l := mergeSortOn cmp l
  sorted _ _ h := mergeSortOn_spec h
  selected _ _ _ h hi := mergeSortOn_selected h hi

theorem Sorts.merging_permutes : (Sorts.merging α).Permutes where
  sort := mergeSortOn_perm
  select cmp _ := mergeSortOn_perm cmp

end Select

end Fenec.Lib
