/-
# What a list's places give

`placed f l` is what `f` gives of each item and its place, where it gives anything.  Setting an item
changes what its place gives and nothing else (`placed_set`), in any order; an item more gives what
its own place does (`placed_concat`).
-/
import Mathlib.Data.List.Basic
import Mathlib.Data.List.Perm.Basic

namespace Fenec.Lib

section Places

variable {α β : Type} {l : List α} {i : Nat}

/-- **Setting an item changes what it gives**, and what the others give is the same. -/
theorem filterMap_set (f : α → Option β) (hi : i < l.length) :
    ∃ R, (l.filterMap f).Perm ((f l[i]).toList ++ R) ∧
      ∀ a, ((l.set i a).filterMap f).Perm ((f a).toList ++ R) := by
  have hmiddle : ∀ a, ((l.take i ++ a :: l.drop (i + 1)).filterMap f).Perm
      ((f a).toList ++ ((l.take i).filterMap f ++ (l.drop (i + 1)).filterMap f)) := by
    intro a
    rw [List.filterMap_append]
    cases hf : f a with
    | none => rw [List.filterMap_cons_none hf]; exact List.Perm.refl _
    | some b => rw [List.filterMap_cons_some hf]; exact List.perm_middle
  refine ⟨(l.take i).filterMap f ++ (l.drop (i + 1)).filterMap f, ?_, fun a => ?_⟩
  · have hl : l = l.take i ++ l[i] :: l.drop (i + 1) := by
      rw [List.getElem_cons_drop, List.take_append_drop]
    have hperm := hmiddle l[i]
    rwa [← hl] at hperm
  · rw [List.set_eq_take_append_cons_drop, if_pos hi]
    exact hmiddle a

/-- What the places of a list give, the first of them numbered. -/
def placedFrom (f : α → Nat → Option β) (l : List α) (k : Nat) : List β :=
  (l.zipIdx k).filterMap fun ai => f ai.1 ai.2

/-- What the places of a list give. -/
def placed (f : α → Nat → Option β) (l : List α) : List β := placedFrom f l 0

theorem placedFrom_cons (f : α → Nat → Option β) (a : α) (l : List α) (k : Nat) :
    placedFrom f (a :: l) k = (f a k).toList ++ placedFrom f l (k + 1) := by
  rw [placedFrom, List.zipIdx_cons, List.filterMap_cons]
  cases f a k <;> rfl

theorem placed_set (f : α → Nat → Option β) (hi : i < l.length) :
    ∃ R, (placed f l).Perm ((f l[i] i).toList ++ R) ∧
      ∀ a, (placed f (l.set i a)).Perm ((f a i).toList ++ R) := by
  have hi' : i < l.zipIdx.length := by rwa [List.length_zipIdx]
  obtain ⟨R, hold, hnew⟩ := filterMap_set (fun ai : α × Nat => f ai.1 ai.2) hi'
  refine ⟨R, ?_, fun a => ?_⟩
  · rw [List.getElem_zipIdx] at hold
    simpa [placed, placedFrom] using hold
  · have hset : (l.set i a).zipIdx = l.zipIdx.set i (a, i) := by
      apply List.ext_getElem?
      intro j
      simp only [List.getElem?_zipIdx, List.getElem?_set, List.length_zipIdx]
      by_cases hij : i = j
      · subst hij
        simp [hi]
      · simp [hij]
    rw [placed, placedFrom, hset]
    exact hnew (a, i)

/-- An item more. -/
theorem placed_concat (f : α → Nat → Option β) (l : List α) (a : α) :
    placed f (l ++ [a]) = placed f l ++ (f a l.length).toList := by
  rw [placed, placedFrom, List.zipIdx_append, List.filterMap_append]
  cases hf : f a l.length with
  | none => simp [placed, placedFrom, hf]
  | some b => simp [placed, placedFrom, hf]

theorem mem_placed {f : α → Nat → Option β} {b : β} :
    b ∈ placed f l ↔ ∃ (i : Nat) (h : i < l.length), f l[i] i = some b := by
  unfold placed placedFrom
  rw [List.mem_filterMap]
  constructor
  · rintro ⟨⟨a, i⟩, hmem, hf⟩
    obtain ⟨hi, ha⟩ := List.mem_zipIdx' hmem
    exact ⟨i, hi, by rw [← ha]; exact hf⟩
  · rintro ⟨i, hi, hf⟩
    exact ⟨(l[i], i), List.mem_zipIdx_iff_getElem?.mpr (List.getElem?_eq_getElem hi), hf⟩

/-- **What the places give, told of the items** that give something. -/
theorem map_placedFrom {γ : Type} {live : α → Bool} {f : α → Nat → Option β} {g : β → γ}
    {r : α → γ} (hdead : ∀ a i, live a = false → f a i = none)
    (hlive : ∀ a i, live a = true → ∃ b, f a i = some b ∧ g b = r a) : ∀ (l : List α) (k : Nat),
    (placedFrom f l k).map g = (l.filter live).map r
  | [], _ => rfl
  | a :: l, k => by
    have ih := map_placedFrom hdead hlive l (k + 1)
    rw [placedFrom_cons]
    by_cases ha : live a = true
    · obtain ⟨b, hb, hg⟩ := hlive a k ha
      rw [List.filter_cons_of_pos ha, hb, Option.toList_some, List.singleton_append,
        List.map_cons, List.map_cons, hg, ih]
    · rw [List.filter_cons_of_neg ha, hdead a k (Bool.not_eq_true _ ▸ ha), Option.toList_none,
        List.nil_append, ih]

/-- **Setting an item changes what it gives**, where items give lists. -/
theorem flatMap_set (f : α → List β) (hi : i < l.length) :
    ∃ R, (l.flatMap f).Perm (f l[i] ++ R) ∧ (∀ a, ((l.set i a).flatMap f).Perm (f a ++ R)) ∧
      ∀ b ∈ R, ∃ (j : Nat) (hj : j < l.length), j ≠ i ∧ b ∈ f l[j] := by
  have hcut : ∀ a, ((l.take i).flatMap f ++ (f a ++ (l.drop (i + 1)).flatMap f)).Perm
      (f a ++ ((l.take i).flatMap f ++ (l.drop (i + 1)).flatMap f)) := by
    intro a
    rw [← List.append_assoc, ← List.append_assoc]
    exact List.perm_append_comm.append_right _
  refine ⟨(l.take i).flatMap f ++ (l.drop (i + 1)).flatMap f, ?_, fun a => ?_, fun b hb => ?_⟩
  · have hl : l.flatMap f = (l.take i).flatMap f ++ (f l[i] ++ (l.drop (i + 1)).flatMap f) := by
      rw [← List.flatMap_cons, ← List.flatMap_append, List.getElem_cons_drop, List.take_append_drop]
    rw [hl]
    exact hcut l[i]
  · rw [List.set_eq_take_append_cons_drop, if_pos hi, List.flatMap_append, List.flatMap_cons]
    exact hcut a
  · rcases List.mem_append.mp hb with hb | hb
    · obtain ⟨a, ha, hba⟩ := List.mem_flatMap.mp hb
      obtain ⟨j, hj, rfl⟩ := List.mem_iff_getElem.mp ha
      rw [List.length_take] at hj
      refine ⟨j, by omega, by omega, ?_⟩
      rwa [List.getElem_take] at hba
    · obtain ⟨a, ha, hba⟩ := List.mem_flatMap.mp hb
      obtain ⟨j, hj, rfl⟩ := List.mem_iff_getElem.mp ha
      rw [List.length_drop] at hj
      refine ⟨i + 1 + j, by omega, by omega, ?_⟩
      rwa [List.getElem_drop] at hba

end Places

end Fenec.Lib
