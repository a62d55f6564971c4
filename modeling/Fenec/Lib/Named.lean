/-
# Lists of things under names

A list of things, each under a name, is read by the first entry of a name, written by replacing
that entry or adding one at the end, and a thing is taken out by its name.

`Named.Fits want good l` says what such a list should be: the names are those wanted, each once,
and every thing is good under its name.  Each operation has one lemma, which says how what is
wanted changes; `Fits.imp` is how the two predicates are exchanged for others.
-/
import Mathlib.Data.List.InsertIdx
import Mathlib.Data.List.Nodup
import Mathlib.Data.List.Perm.Basic

namespace Fenec.Lib.Named

variable {κ δ : Type}

/-! ## 1. What a list should be -/

/-- **The wanted names, each once, and good things under them.** -/
structure Fits (want : κ → Prop) (good : κ → δ → Prop) (l : List (κ × δ)) : Prop where
  nodup : (l.map (·.1)).Nodup
  names : ∀ n, n ∈ l.map (·.1) ↔ want n
  good : ∀ n d, (n, d) ∈ l → good n d

variable {want want' : κ → Prop} {good good' : κ → δ → Prop} {l l' : List (κ × δ)} {n : κ} {d : δ}

theorem mem_names (h : (n, d) ∈ l) : n ∈ l.map (·.1) := List.mem_map.mpr ⟨(n, d), h, rfl⟩

namespace Fits

/-- The name of an entry is wanted. -/
theorem wanted (h : Fits want good l) (hm : (n, d) ∈ l) : want n :=
  (h.names n).mp (mem_names hm)

theorem perm (h : Fits want good l) (hp : l.Perm l') : Fits want good l' where
  nodup := (hp.map _).nodup_iff.mp h.nodup
  names m := by rw [← h.names m, (hp.map _).mem_iff]
  good m e hm := h.good m e (hp.mem_iff.mpr hm)

/-- What is wanted, and what is good of it, said otherwise. -/
theorem imp (h : Fits want good l) (hw : ∀ m, want m ↔ want' m)
    (hg : ∀ m e, want m → good m e → good' m e) : Fits want' good' l where
  nodup := h.nodup
  names m := (h.names m).trans (hw m)
  good m e hm := hg m e (h.wanted hm) (h.good m e hm)

theorem cons (h : Fits want good l) (hn : ¬ want n) (hd : good n d) :
    Fits (fun m => want m ∨ m = n) good ((n, d) :: l) where
  nodup := List.nodup_cons.mpr ⟨fun hm => hn ((h.names n).mp hm), h.nodup⟩
  names m := by
    rw [List.map_cons, List.mem_cons, h.names m, or_comm]
  good m e hm := by
    rcases List.mem_cons.mp hm with heq | hm
    · cases heq
      exact hd
    · exact h.good m e hm

theorem insertIdx (h : Fits want good l) (hn : ¬ want n) (hd : good n d) {i : Nat}
    (hi : i ≤ l.length) : Fits (fun m => want m ∨ m = n) good (l.insertIdx i (n, d)) :=
  (h.cons hn hd).perm (List.perm_insertIdx (n, d) l hi).symm

theorem filter (h : Fits want good l) (p : κ → Bool) :
    Fits (fun m => want m ∧ p m = true) good (l.filter fun e => p e.1) where
  nodup := h.nodup.sublist (List.filter_sublist.map _)
  names m := by
    rw [← h.names m]
    constructor
    · intro hm
      obtain ⟨e, he, rfl⟩ := List.mem_map.mp hm
      obtain ⟨he, hp⟩ := List.mem_filter.mp he
      exact ⟨List.mem_map_of_mem he, hp⟩
    · rintro ⟨hm, hp⟩
      obtain ⟨e, he, rfl⟩ := List.mem_map.mp hm
      exact List.mem_map.mpr ⟨e, List.mem_filter.mpr ⟨he, hp⟩, rfl⟩
  good m e hm := h.good m e (List.mem_of_mem_filter hm)

end Fits

/-! ## 2. Operations -/

variable [DecidableEq κ]

/-- A thing put under a name, in the place of the one there or at the end. -/
def set (n : κ) (d : δ) : List (κ × δ) → List (κ × δ)
  | [] => [(n, d)]
  | e :: l => if e.1 = n then (n, d) :: l else e :: set n d l

/-- The first entry of a name taken out. -/
def remove (n : κ) : List (κ × δ) → List (κ × δ)
  | [] => []
  | e :: l => if e.1 = n then l else e :: remove n l

/-- Whether a name is there. -/
def has (n : κ) (l : List (κ × δ)) : Bool := l.any fun e => e.1 = n

theorem has_iff : has n l = true ↔ n ∈ l.map (·.1) := by
  simp [has, List.any_eq_true]

theorem mem_of_lookup (h : l.lookup n = some d) : (n, d) ∈ l := by
  obtain ⟨l₁, l₂, rfl, -⟩ := List.lookup_eq_some_iff.mp h
  simp

theorem remove_eq_filter (h : (l.map (·.1)).Nodup) : remove n l = l.filter fun e => !(e.1 = n) := by
  induction l with
  | nil => rfl
  | cons e l ih =>
    rw [List.map_cons, List.nodup_cons] at h
    unfold remove
    split
    · next heq =>
      rw [List.filter_cons_of_neg (by simpa using heq), eq_comm, List.filter_eq_self]
      intro a ha
      have hne : a.1 ≠ n := fun heq' => h.1 (heq ▸ heq' ▸ List.mem_map_of_mem ha)
      simpa using hne
    · next hne =>
      rw [List.filter_cons_of_pos (by simpa using hne), ih h.2]

theorem Fits.remove (h : Fits want good l) (n : κ) :
    Fits (fun m => want m ∧ m ≠ n) good (remove n l) := by
  rw [remove_eq_filter h.nodup]
  exact (h.filter fun m => !(m = n)).imp (fun m => by simp) fun _ _ _ hg => hg

/-- Setting is taking out and adding, but for the place. -/
theorem set_perm (h : (l.map (·.1)).Nodup) : (set n d l).Perm ((n, d) :: Named.remove n l) := by
  induction l with
  | nil => exact .refl _
  | cons e l ih =>
    rw [List.map_cons, List.nodup_cons] at h
    unfold set Named.remove
    split
    · exact .refl _
    · exact ((ih h.2).cons e).trans (.swap _ _ _)

theorem Fits.set (h : Fits want good l) (hd : good n d) :
    Fits (fun m => want m ∨ m = n) good (set n d l) := by
  have hcons := (h.remove n).cons (n := n) (d := d) (fun hn => hn.2 rfl) hd
  refine (hcons.perm (set_perm h.nodup).symm).imp (fun m => ?_) fun _ _ _ hg => hg
  by_cases hm : m = n
  · simp [hm]
  · simp [hm]

end Fenec.Lib.Named
