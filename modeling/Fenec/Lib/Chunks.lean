/-
# A buffer in chunks

Bytes kept in pieces: a list of lists, its concatenation the whole.  `start ds k` is where chunk
`k` starts in the whole, the whole's end past the last.  A slice inside a chunk is a slice of the
whole (`slice_chunk`).

`Extends ds ds'` says that every chunk of `ds` is still there, where it was, perhaps longer: what
appending to the last chunk and opening a new one both are, so that places found in a chunk stay
good.
-/
import Mathlib.Data.List.Basic
import Mathlib.Tactic.Ring

namespace Fenec.Lib.Chunks

variable {α : Type} {ds ds' ps : List (List α)} {d : List α} {k : Nat}

/-- Where chunk `k` starts. -/
def start (ds : List (List α)) (k : Nat) : Nat := (ds.take k).flatten.length

/-! ## 1. Chunks and the whole -/

@[simp] theorem start_zero : start ds 0 = 0 := rfl

theorem start_le (ds : List (List α)) (k : Nat) : start ds k ≤ ds.flatten.length := by
  rw [start]
  conv_rhs => rw [← List.take_append_drop k ds, List.flatten_append, List.length_append]
  exact Nat.le_add_right _ _

theorem start_of_le (h : ds.length ≤ k) : start ds k = ds.flatten.length := by
  rw [start, List.take_of_length_le h]

theorem start_succ (h : ds[k]? = some d) : start ds (k + 1) = start ds k + d.length := by
  obtain ⟨hk, hd⟩ := List.getElem?_eq_some_iff.mp h
  rw [start, start, List.take_succ_eq_append_getElem hk, List.flatten_append, List.length_append,
    hd]
  simp

/-- The whole from where a chunk starts. -/
theorem drop_start (ds : List (List α)) (k : Nat) :
    ds.flatten.drop (start ds k) = (ds.drop k).flatten := by
  rw [start]
  conv_lhs => rw [← List.take_append_drop k ds, List.flatten_append, List.take_append_drop]
  exact List.drop_left

theorem drop_chunk (h : ds[k]? = some d) :
    ds.flatten.drop (start ds k) = d ++ (ds.drop (k + 1)).flatten := by
  obtain ⟨hk, hd⟩ := List.getElem?_eq_some_iff.mp h
  rw [drop_start, List.drop_eq_getElem_cons hk, List.flatten_cons, hd]

/-- **A slice inside a chunk is one of the whole.** -/
theorem slice_chunk {off len : Nat} (h : ds[k]? = some d) (hle : off + len ≤ d.length) :
    (ds.flatten.drop (start ds k + off)).take len = (d.drop off).take len := by
  rw [← List.drop_drop, drop_chunk h, List.drop_append_of_le_length (by omega),
    List.take_append_of_le_length (by rw [List.length_drop]; omega)]

theorem start_append_left (h : k ≤ ds.length) : start (ds ++ ds') k = start ds k := by
  rw [start, start, List.take_append_of_le_length h]

theorem start_append_right (ds ds' : List (List α)) (k : Nat) :
    start (ds ++ ds') (ds.length + k) = ds.flatten.length + start ds' k := by
  rw [start, start, List.take_length_add_append, List.flatten_append, List.length_append]

/-! ## 2. Chunks that grow -/

/-- **Every chunk is where it was**, perhaps longer. -/
def Extends (ds ds' : List (List α)) : Prop :=
  ∀ k d, ds[k]? = some d → ∃ d', ds'[k]? = some d' ∧ d <+: d' ∧ start ds' k = start ds k

theorem extends_refl (ds : List (List α)) : Extends ds ds :=
  fun _ d h => ⟨d, h, List.prefix_refl d, rfl⟩

theorem extends_concat (ds ds' : List (List α)) : Extends ds (ds ++ ds') := by
  intro k d h
  obtain ⟨hk, -⟩ := List.getElem?_eq_some_iff.mp h
  refine ⟨d, ?_, List.prefix_refl d, start_append_left (Nat.le_of_lt hk)⟩
  rw [List.getElem?_append_left hk]
  exact h

theorem extends_last (ds : List (List α)) (d bs : List α) :
    Extends (ds ++ [d]) (ds ++ [d ++ bs]) := by
  intro k e h
  obtain ⟨hk, -⟩ := List.getElem?_eq_some_iff.mp h
  rw [List.length_append, List.length_singleton] at hk
  have hstart : start (ds ++ [d ++ bs]) k = start (ds ++ [d]) k := by
    rw [start_append_left (by omega), start_append_left (by omega)]
  by_cases hlt : k < ds.length
  · rw [List.getElem?_append_left hlt] at h
    exact ⟨e, by rw [List.getElem?_append_left hlt]; exact h, List.prefix_refl e, hstart⟩
  · obtain rfl : k = ds.length := by omega
    rw [List.getElem?_concat_length] at h
    cases h
    exact ⟨d ++ bs, by rw [List.getElem?_concat_length], List.prefix_append d bs, hstart⟩

/-- Chunks past ones that stay. -/
theorem Extends.append_left (h : Extends ds ds') (ps : List (List α)) :
    Extends (ps ++ ds) (ps ++ ds') := by
  intro k d hd
  by_cases hlt : k < ps.length
  · rw [List.getElem?_append_left hlt] at hd
    refine ⟨d, by rw [List.getElem?_append_left hlt]; exact hd, List.prefix_refl d, ?_⟩
    rw [start_append_left (Nat.le_of_lt hlt), start_append_left (Nat.le_of_lt hlt)]
  · obtain ⟨j, rfl⟩ : ∃ j, k = ps.length + j := ⟨k - ps.length, by omega⟩
    rw [List.getElem?_append_right (by omega), Nat.add_sub_cancel_left] at hd
    obtain ⟨d', hd', hpre, hstart⟩ := h j d hd
    refine ⟨d', ?_, hpre, ?_⟩
    · rw [List.getElem?_append_right (by omega), Nat.add_sub_cancel_left]
      exact hd'
    · rw [start_append_right, start_append_right, hstart]

end Fenec.Lib.Chunks
