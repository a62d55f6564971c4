/-
# The classes of a list by a key

The classes of the elements with one key each, in the order in which the keys are first seen
(`classes`), and each named by its first element (`firsts`).  One element more either joins the
class of its key at the end, or opens a class after the others (`classes_concat_of_mem`,
`classes_concat_of_not_mem`), and no class changes its number (`number_concat`).

§2 is about elements that also have a place, where a key is counted once, at the place it is first
seen at.  A place then counts all of its own keys exactly when no two places have one
(`owned_eq`, `exists_owned_lt`).
-/
import Mathlib.Data.List.Perm.Subperm
import Mathlib.Data.List.Nodup
import Mathlib.Data.List.Induction

namespace Fenec.Lib.Classes

variable {α κ π : Type} [DecidableEq κ] [DecidableEq π] (key : α → κ)

/-! ## 1. Classes -/

/-- The elements whose keys are seen for the first time. -/
def firsts (xs : List α) : List α :=
  xs.foldl (fun fs x => if ∃ y ∈ fs, key y = key x then fs else fs ++ [x]) []

/-- The elements of a list with an element's key. -/
def members (xs : List α) (y : α) : List α := xs.filter fun x => key x = key y

/-- **The classes of a list**, in the order their keys are first seen. -/
def classes (xs : List α) : List (List α) := (firsts key xs).map (members key xs)

/-- The number of the class of an element's key. -/
def number (xs : List α) (x : α) : Nat := (firsts key xs).findIdx fun y => key y = key x

variable {key} {xs ys : List α} {x y z : α}

theorem firsts_concat (xs : List α) (x : α) : firsts key (xs ++ [x]) =
    if ∃ y ∈ firsts key xs, key y = key x then firsts key xs else firsts key xs ++ [x] := by
  rw [firsts, List.foldl_append]
  rfl

theorem firsts_sublist (xs : List α) : (firsts key xs).Sublist xs := by
  induction xs using List.reverseRecOn with
  | nil => exact .slnil
  | append_singleton xs x ih =>
    rw [firsts_concat]
    split
    · exact ih.trans (List.sublist_append_left xs [x])
    · exact ih.append (List.Sublist.refl [x])

theorem exists_first (h : x ∈ xs) : ∃ y ∈ firsts key xs, key y = key x := by
  induction xs using List.reverseRecOn with
  | nil => cases h
  | append_singleton xs z ih =>
    have hold : x ∈ xs → ∃ y ∈ firsts key (xs ++ [z]), key y = key x := by
      intro hx
      obtain ⟨y, hy, hyx⟩ := ih hx
      refine ⟨y, ?_, hyx⟩
      rw [firsts_concat]
      split
      · exact hy
      · exact List.mem_append_left _ hy
    rcases List.mem_append.mp h with hx | hx
    · exact hold hx
    · obtain rfl := List.mem_singleton.mp hx
      rw [firsts_concat]
      split
      · next hseen => exact hseen
      · exact ⟨x, List.mem_append_right _ (List.mem_singleton_self x), rfl⟩

theorem mem_of_mem_firsts (h : x ∈ firsts key xs) : x ∈ xs := (firsts_sublist xs).subset h

/-- Whether a key is a class's is whether an element has it. -/
theorem seen_iff : (∃ y ∈ firsts key xs, key y = key x) ↔ ∃ y ∈ xs, key y = key x :=
  ⟨fun ⟨y, hy, hyx⟩ => ⟨y, mem_of_mem_firsts hy, hyx⟩,
    fun ⟨_, hy, hyx⟩ => hyx ▸ exists_first hy⟩

/-- **No two classes have one key.** -/
theorem nodup_firsts (xs : List α) : ((firsts key xs).map key).Nodup := by
  induction xs using List.reverseRecOn with
  | nil => exact List.nodup_nil
  | append_singleton xs x ih =>
    rw [firsts_concat]
    split
    · exact ih
    · next hnew =>
      rw [List.map_append, List.map_singleton, List.nodup_append_comm, List.singleton_append,
        List.nodup_cons]
      refine ⟨fun hmem => hnew ?_, ih⟩
      obtain ⟨y, hy, hyx⟩ := List.mem_map.mp hmem
      exact ⟨y, hy, hyx⟩

theorem eq_of_mem_firsts (hx : x ∈ firsts key xs) (hy : y ∈ firsts key xs)
    (h : key x = key y) : x = y :=
  List.inj_on_of_nodup_map (nodup_firsts xs) hx hy h

theorem members_concat (xs : List α) (x y : α) : members key (xs ++ [x]) y =
    if key x = key y then members key xs y ++ [x] else members key xs y := by
  unfold members
  rw [List.filter_append]
  by_cases h : key x = key y
  · simp [h]
  · simp [h]

/-- The first element of a class is the one it is named by. -/
theorem head_members (h : y ∈ firsts key xs) : (members key xs y).head? = some y := by
  induction xs using List.reverseRecOn with
  | nil => cases h
  | append_singleton xs x ih =>
    rw [firsts_concat] at h
    have hold : y ∈ firsts key xs → (members key (xs ++ [x]) y).head? = some y := by
      intro hy
      rw [members_concat]
      split
      · rw [List.head?_append, ih hy, Option.some_or]
      · exact ih hy
    split at h
    · exact hold h
    · next hnew =>
      rcases List.mem_append.mp h with hy | hy
      · exact hold hy
      · obtain rfl := List.mem_singleton.mp hy
        have hnone : members key xs y = [] := by
          refine List.filter_eq_nil_iff.mpr fun z hz hzy => hnew ?_
          exact seen_iff.mpr ⟨z, hz, of_decide_eq_true hzy⟩
        rw [members_concat, if_pos rfl, hnone]
        rfl

theorem number_lt_iff : number key xs x < (firsts key xs).length ↔ ∃ y ∈ xs, key y = key x := by
  unfold number
  rw [List.findIdx_lt_length]
  simpa using seen_iff

/-- **No class changes its number.** -/
theorem number_concat (h : ∃ y ∈ xs, key y = key x) (z : α) :
    number key (xs ++ [z]) x = number key xs x := by
  have hlt := number_lt_iff.mpr h
  unfold number at hlt ⊢
  rw [firsts_concat]
  split
  · rfl
  · rw [List.findIdx_append, if_pos hlt]

theorem number_of_not_mem (h : ¬ ∃ y ∈ xs, key y = key x) :
    number key xs x = (firsts key xs).length :=
  (Nat.lt_or_eq_of_le List.findIdx_le_length).resolve_left fun hlt => h (number_lt_iff.mp hlt)

/-- A class that is opened is numbered after the others. -/
theorem number_concat_self (h : ¬ ∃ y ∈ xs, key y = key x) :
    number key (xs ++ [x]) x = (firsts key xs).length := by
  have hnot := number_of_not_mem h
  unfold number at hnot ⊢
  rw [firsts_concat, if_neg fun hseen => h (seen_iff.mp hseen), List.findIdx_append, hnot,
    if_neg (Nat.lt_irrefl _), List.findIdx_cons]
  simp

/-- The class of a number is the class of an element exactly when that is its number. -/
theorem number_eq_iff {i : Nat} (h : (firsts key xs)[i]? = some y) :
    number key xs x = i ↔ key x = key y := by
  obtain ⟨hi, hget⟩ := List.getElem?_eq_some_iff.mp h
  constructor
  · intro hn
    subst hn
    have hfound := List.findIdx_getElem (p := fun y => decide (key y = key x)) (w := hi)
    rw [← hget]
    exact (of_decide_eq_true hfound).symm
  · intro hxy
    have hmem : y ∈ firsts key xs := List.mem_of_getElem? h
    have hlt : number key xs x < (firsts key xs).length :=
      number_lt_iff.mpr ⟨y, mem_of_mem_firsts hmem, hxy.symm⟩
    have hfound := List.findIdx_getElem (p := fun y => decide (key y = key x)) (w := hlt)
    have hkey : key (firsts key xs)[number key xs x] = key y :=
      (of_decide_eq_true hfound).trans hxy
    have hnodup : ((firsts key xs).map key).Nodup := nodup_firsts xs
    have hinj := List.nodup_iff_injective_getElem.mp hnodup
    have hlt' : number key xs x < ((firsts key xs).map key).length := by simpa using hlt
    have hi' : i < ((firsts key xs).map key).length := by simpa using hi
    have heq : (⟨_, hlt'⟩ : Fin ((firsts key xs).map key).length) = ⟨i, hi'⟩ :=
      hinj (by simpa [hget] using hkey)
    exact Fin.mk.inj heq

theorem length_classes : (classes key xs).length = (firsts key xs).length := List.length_map _

theorem ne_nil_of_mem_classes {c : List α} (h : c ∈ classes key xs) : c ≠ [] := by
  obtain ⟨y, hy, rfl⟩ := List.mem_map.mp h
  intro hnil
  have hhead := head_members hy
  rw [hnil] at hhead
  cases hhead

/-- One element more of a class joins it at the end. -/
theorem classes_concat_of_mem (h : ∃ y ∈ xs, key y = key x) :
    classes key (xs ++ [x]) = (classes key xs).modify (number key xs x) (· ++ [x]) := by
  unfold classes
  rw [firsts_concat, if_pos (seen_iff.mpr h)]
  refine List.ext_getElem? fun i => ?_
  rw [List.getElem?_modify, List.getElem?_map, List.getElem?_map]
  cases hi : (firsts key xs)[i]? with
  | none => rfl
  | some y =>
    rw [Option.map_some, members_concat]
    change _ = some (if number key xs x = i then members key xs y ++ [x] else members key xs y)
    by_cases hxy : key x = key y
    · rw [if_pos hxy, if_pos ((number_eq_iff hi).mpr hxy)]
    · rw [if_neg hxy, if_neg fun hn => hxy ((number_eq_iff hi).mp hn)]

/-- An element of no class there is opens one. -/
theorem classes_concat_of_not_mem (h : ¬ ∃ y ∈ xs, key y = key x) :
    classes key (xs ++ [x]) = classes key xs ++ [[x]] := by
  unfold classes
  rw [firsts_concat, if_neg fun hseen => h (seen_iff.mp hseen), List.map_append,
    List.map_singleton]
  have hnone : members key xs x = [] :=
    List.filter_eq_nil_iff.mpr fun z hz hzx => h ⟨z, hz, of_decide_eq_true hzx⟩
  have hself : members key (xs ++ [x]) x = [x] := by
    rw [members_concat, if_pos rfl, hnone, List.nil_append]
  rw [hself]
  congr 1
  refine List.map_congr_left fun y hy => ?_
  rw [members_concat, if_neg]
  exact fun hxy => h ⟨y, mem_of_mem_firsts hy, hxy.symm⟩

theorem firsts_congr {κ' : Type} [DecidableEq κ'] {key' : α → κ'}
    (h : ∀ x ∈ xs, ∀ y ∈ xs, key x = key y ↔ key' x = key' y) :
    firsts key xs = firsts key' xs := by
  induction xs using List.reverseRecOn with
  | nil => rfl
  | append_singleton xs x ih =>
    have hxs : firsts key xs = firsts key' xs := ih fun a ha b hb =>
      h a (List.mem_append_left _ ha) b (List.mem_append_left _ hb)
    have hx : x ∈ xs ++ [x] := List.mem_append_right _ (List.mem_singleton_self x)
    have hseen : (∃ y ∈ firsts key xs, key y = key x) ↔ ∃ y ∈ firsts key' xs, key' y = key' x := by
      rw [hxs]
      refine exists_congr fun y => and_congr_right fun hy => ?_
      exact h y (List.mem_append_left _ (mem_of_mem_firsts hy)) x hx
    rw [firsts_concat, firsts_concat]
    simp only [hseen]
    rw [hxs]

theorem firsts_map {β : Type} (g : β → α) (zs : List β) :
    firsts key (zs.map g) = (firsts (fun z => key (g z)) zs).map g := by
  induction zs using List.reverseRecOn with
  | nil => rfl
  | append_singleton zs z ih =>
    have hseen : (∃ y ∈ (firsts (fun z => key (g z)) zs).map g, key y = key (g z)) ↔
        ∃ w ∈ firsts (fun z => key (g z)) zs, key (g w) = key (g z) := by
      simp only [List.mem_map, exists_exists_and_eq_and]
    rw [List.map_append, List.map_singleton, firsts_concat, firsts_concat, ih]
    simp only [hseen]
    split
    · rfl
    · rw [List.map_append, List.map_singleton]

theorem firsts_eq_self (h : (xs.map key).Nodup) : firsts key xs = xs := by
  induction xs using List.reverseRecOn with
  | nil => rfl
  | append_singleton xs x ih =>
    rw [List.map_append, List.map_singleton, List.nodup_append_comm, List.singleton_append,
      List.nodup_cons] at h
    obtain ⟨hnew, hxs⟩ := h
    rw [firsts_concat, ih hxs, if_neg]
    rintro ⟨y, hy, hyx⟩
    exact hnew (List.mem_map.mpr ⟨y, hy, hyx⟩)

/-- Elements split into lists of the ones alike. -/
structure Partition (same : α → α → Prop) (xs : List α) (cs : List (List α)) : Prop where
  perm : cs.flatten.Perm xs
  sublist : ∀ c ∈ cs, c.Sublist xs
  alike : ∀ c ∈ cs, ∀ x ∈ c, ∀ y ∈ c, same x y
  apart : cs.Pairwise fun c d => ∀ x ∈ c, ∀ y ∈ d, ¬ same x y
  order : (cs.filterMap List.head?).Sublist xs

theorem mem_members : z ∈ members key xs y ↔ z ∈ xs ∧ key z = key y := by
  unfold members
  rw [List.mem_filter, decide_eq_true_eq]

theorem filterMap_head? {fs : List α} (h : ∀ y ∈ fs, y ∈ firsts key xs) :
    (fs.map (members key xs)).filterMap List.head? = fs := by
  induction fs with
  | nil => rfl
  | cons y fs ih =>
    have hhead : (members key xs y).head? = some y := head_members (h y List.mem_cons_self)
    rw [List.map_cons, List.filterMap_cons_some hhead,
      ih fun z hz => h z (List.mem_cons_of_mem y hz)]

/-- An element put at one list's end is put at the end of all. -/
theorem perm_modify {cs : List (List α)} {i : Nat} (h : i < cs.length) (x : α) :
    (cs.modify i (· ++ [x])).flatten.Perm (cs.flatten ++ [x]) := by
  have hcs : cs = cs.take i ++ cs[i] :: cs.drop (i + 1) := by
    rw [← List.drop_eq_getElem_cons h, List.take_append_drop]
  rw [List.modify_eq_take_cons_drop h]
  conv_rhs => rw [hcs]
  rw [List.flatten_append, List.flatten_append, List.flatten_cons, List.flatten_cons,
    List.append_assoc, List.append_assoc, List.append_assoc]
  exact (List.Perm.append_left _ List.perm_append_comm).append_left _

/-- **The classes of a list are its elements split by their keys.** -/
theorem partition_classes (xs : List α) :
    Partition (fun x y => key x = key y) xs (classes key xs) := by
  refine ⟨?_, ?_, ?_, ?_, ?_⟩
  · induction xs using List.reverseRecOn with
    | nil => exact .nil
    | append_singleton xs x ih =>
      by_cases h : ∃ y ∈ xs, key y = key x
      · have hlt : number key xs x < (classes key xs).length :=
          Nat.lt_of_lt_of_eq (number_lt_iff.mpr h) length_classes.symm
        rw [classes_concat_of_mem h]
        exact (perm_modify hlt x).trans (ih.append_right [x])
      · rw [classes_concat_of_not_mem h, List.flatten_append, List.flatten_singleton]
        exact ih.append_right [x]
  · intro c hc
    obtain ⟨y, -, rfl⟩ := List.mem_map.mp hc
    exact List.filter_sublist
  · intro c hc x hx z hz
    obtain ⟨y, -, rfl⟩ := List.mem_map.mp hc
    exact (mem_members.mp hx).2.trans (mem_members.mp hz).2.symm
  · unfold classes
    rw [List.pairwise_map]
    have hnodup : ((firsts key xs).map key).Nodup := nodup_firsts xs
    rw [List.Nodup, List.pairwise_map] at hnodup
    refine hnodup.imp fun hne x hx z hz heq => hne ?_
    exact (mem_members.mp hx).2.symm.trans (heq.trans (mem_members.mp hz).2)
  · have hheads : (classes key xs).filterMap List.head? = firsts key xs :=
      filterMap_head? fun y hy => hy
    rw [hheads]
    exact firsts_sublist xs

/-! ## 2. Keys that are counted at the place they are first seen at -/

section Owned

variable {place : α → π} {p : π}

/-- How many keys a place is the first to have. -/
def owned (key : α → κ) (place : α → π) (xs : List α) (p : π) : Nat :=
  ((firsts key xs).filter fun x => place x = p).length

/-- How many keys a place has. -/
def held (key : α → κ) (place : α → π) (xs : List α) (p : π) : Nat :=
  (firsts key (xs.filter fun x => place x = p)).length

theorem owned_concat (xs : List α) (x : α) (p : π) : owned key place (xs ++ [x]) p =
    owned key place xs p +
      if place x = p ∧ ¬ ∃ y ∈ firsts key xs, key y = key x then 1 else 0 := by
  unfold owned
  rw [firsts_concat]
  by_cases hseen : ∃ y ∈ firsts key xs, key y = key x
  · rw [if_pos hseen, if_neg fun h => h.2 hseen]
    rfl
  · rw [if_neg hseen, List.filter_append, List.length_append]
    by_cases hp : place x = p
    · rw [if_pos ⟨hp, hseen⟩, List.filter_singleton]
      simp [hp]
    · rw [if_neg fun h => hp h.1, List.filter_singleton]
      simp [hp]

theorem held_concat (xs : List α) (x : α) (p : π) : held key place (xs ++ [x]) p =
    held key place xs p +
      if place x = p ∧ ¬ ∃ y ∈ xs, place y = p ∧ key y = key x then 1 else 0 := by
  unfold held
  rw [List.filter_append, List.filter_singleton]
  by_cases hp : place x = p
  · have hseen : (∃ y ∈ firsts key (xs.filter fun x => place x = p), key y = key x) ↔
        ∃ y ∈ xs, place y = p ∧ key y = key x := by
      simp only [seen_iff, List.mem_filter, decide_eq_true_eq, and_assoc]
    rw [decide_eq_true hp, cond_true, firsts_concat]
    simp only [hseen, hp, true_and]
    split
    · rfl
    · exact List.length_append
  · rw [decide_eq_false hp, cond_false, List.append_nil, if_neg fun h => hp h.1, Nat.add_zero]

/-- A place has no more keys than there are. -/
theorem held_le (xs : List α) (p : π) : held key place xs p ≤ (firsts key xs).length := by
  have hsub : (firsts key (xs.filter fun x => place x = p)).map key ⊆
      (firsts key xs).map key := by
    intro k hk
    obtain ⟨z, hz, rfl⟩ := List.mem_map.mp hk
    have hzs : z ∈ xs := (List.mem_filter.mp (mem_of_mem_firsts hz)).1
    obtain ⟨w, hw, hwz⟩ : ∃ w ∈ firsts key xs, key w = key z := exists_first hzs
    exact List.mem_map.mpr ⟨w, hw, hwz⟩
  have hle := ((nodup_firsts _).subperm hsub).length_le
  rw [List.length_map, List.length_map] at hle
  exact hle

/-- **Where no two places have one key, a place counts every key it has.** -/
theorem owned_eq (h : ∀ x ∈ xs, ∀ y ∈ xs, key x = key y → place x = place y) (p : π) :
    owned key place xs p = held key place xs p := by
  induction xs using List.reverseRecOn with
  | nil => rfl
  | append_singleton xs x ih =>
    have hxs : ∀ a ∈ xs, ∀ b ∈ xs, key a = key b → place a = place b :=
      fun a ha b hb => h a (List.mem_append_left _ ha) b (List.mem_append_left _ hb)
    have hx : x ∈ xs ++ [x] := List.mem_append_right _ (List.mem_singleton_self x)
    have hseen : place x = p → ((∃ y ∈ firsts key xs, key y = key x) ↔
        ∃ y ∈ xs, place y = p ∧ key y = key x) := by
      intro hp
      rw [seen_iff]
      refine ⟨fun ⟨y, hy, hyx⟩ => ⟨y, hy, ?_, hyx⟩, fun ⟨y, hy, _, hyx⟩ => ⟨y, hy, hyx⟩⟩
      exact (h y (List.mem_append_left _ hy) x hx hyx).trans hp
    rw [owned_concat, held_concat, ih hxs]
    congr 1
    by_cases hp : place x = p
    · simp only [hp, hseen hp]
    · rw [if_neg fun hn => hp hn.1, if_neg fun hn => hp hn.1]

/-- A place that has a key another place counts does not count all of its own. -/
theorem owned_lt (hx : x ∈ xs) (hy : y ∈ firsts key xs) (hkey : key y = key x)
    (hplace : place y ≠ place x) :
    owned key place xs (place x) < held key place xs (place x) := by
  have hcounted : (key x :: ((firsts key xs).filter fun z => place z = place x).map key).Nodup := by
    refine List.nodup_cons.mpr ⟨fun hmem => ?_,
      (nodup_firsts xs).sublist (List.filter_sublist.map key)⟩
    obtain ⟨z, hz, hzx⟩ := List.mem_map.mp hmem
    obtain ⟨hzf, hzp⟩ := List.mem_filter.mp hz
    obtain rfl := eq_of_mem_firsts hzf hy (hzx.trans hkey.symm)
    exact hplace (of_decide_eq_true hzp)
  have hheld : ∀ {z}, z ∈ xs → place z = place x →
      key z ∈ (firsts key (xs.filter fun z => place z = place x)).map key := by
    intro z hz hzp
    have hmem : z ∈ xs.filter fun z => place z = place x :=
      List.mem_filter.mpr ⟨hz, decide_eq_true hzp⟩
    obtain ⟨w, hw, hwz⟩ : ∃ w ∈ firsts key _, key w = key z := exists_first hmem
    exact List.mem_map.mpr ⟨w, hw, hwz⟩
  have hsub : key x :: ((firsts key xs).filter fun z => place z = place x).map key ⊆
      (firsts key (xs.filter fun z => place z = place x)).map key := by
    refine List.cons_subset.mpr ⟨hheld hx rfl, fun k hk => ?_⟩
    obtain ⟨z, hz, rfl⟩ := List.mem_map.mp hk
    obtain ⟨hzf, hzp⟩ := List.mem_filter.mp hz
    exact hheld (mem_of_mem_firsts hzf) (of_decide_eq_true hzp)
  have hle := (hcounted.subperm hsub).length_le
  rw [List.length_cons, List.length_map, List.length_map] at hle
  exact hle

/-- **Of two places that have one key, one does not count it.** -/
theorem exists_owned_lt (hx : x ∈ xs) (hy : y ∈ xs) (hkey : key x = key y)
    (hplace : place x ≠ place y) : ∃ z ∈ xs, owned key place xs (place z) <
      held key place xs (place z) := by
  obtain ⟨w, hw, hwx⟩ : ∃ w ∈ firsts key xs, key w = key x := exists_first hx
  by_cases h : place w = place x
  · exact ⟨y, hy, owned_lt hy hw (hwx.trans hkey) (h ▸ hplace)⟩
  · exact ⟨x, hx, owned_lt hx hw hwx h⟩

end Owned

end Fenec.Lib.Classes
