/-
# Indexes filed by row

An index of any kind files each row of a table under something the row's value determines, and
takes it out again by the same value.  `Filing` says what maintaining one takes: inserting a row
that was not there files it, removing a row by its value takes it out and nothing else, and the
order of the rows does not matter.  From these three an index that holds a table holds the table
with one row written or erased (`holds_put_new`, `holds_put_over`, `holds_erase`), also where the
writer skips both halves because the two values are filed alike (`Alike`, `holds_put_alike`).

`Entries` is the container such indexes are made of: entries in an order, found by comparing,
where two entries that compare equal are of the same row.
-/
import Fenec.Lib.OrdMap
import Mathlib.Data.List.Nodup
import Mathlib.Data.List.Perm.Basic

namespace Fenec.Lib

/-! ## 1. Rows of a map -/

namespace OrdMap

variable {α : Type}

theorem nodup_entries (m : OrdMap α) : (m.entries.map (·.1)).Nodup :=
  m.keys_ascending.imp Nat.ne_of_lt

theorem notMem_keys_of_get {m : OrdMap α} {k : Nat} (h : m.get k = none) :
    k ∉ m.entries.map (·.1) := by
  intro hk
  obtain ⟨v, hv⟩ := mem_keys_iff.mp hk
  rw [h] at hv
  cases hv

/-- Two lists of entries with the same members, each key once, are the same up to order. -/
theorem perm_of_mem_iff {l l' : List (Nat × α)} (h : (l.map (·.1)).Nodup)
    (h' : (l'.map (·.1)).Nodup) (hmem : ∀ e, e ∈ l ↔ e ∈ l') : l.Perm l' :=
  (List.perm_ext_iff_of_nodup (.of_map _ h) (.of_map _ h')).mpr hmem

theorem notMem_keys_erase (m : OrdMap α) (k : Nat) : k ∉ (m.erase k).entries.map (·.1) :=
  notMem_keys_of_get (by rw [get_erase, if_pos rfl])

/-- The entries of a map with a key written are the new one and those of the other keys. -/
theorem entries_insert_perm (m : OrdMap α) (k : Nat) (v : α) :
    (m.insert k v).entries.Perm ((k, v) :: (m.erase k).entries) := by
  refine perm_of_mem_iff (nodup_entries _) ?_ ?_
  · rw [List.map_cons, List.nodup_cons]
    exact ⟨notMem_keys_erase m k, nodup_entries _⟩
  · rintro ⟨j, w⟩
    rw [List.mem_cons, mem_entries_iff, mem_entries_iff, get_insert, get_erase, Prod.mk.injEq]
    by_cases hj : j = k
    · simp [hj, eq_comm]
    · simp [hj]

/-- The entries of a map that holds a key are the one at it and those of the other keys. -/
theorem entries_perm_of_get {m : OrdMap α} {k : Nat} {v : α} (h : m.get k = some v) :
    m.entries.Perm ((k, v) :: (m.erase k).entries) := by
  have hm : m.insert k v = m := by
    apply ext_get
    intro j
    rw [get_insert]
    by_cases hj : j = k
    · rw [if_pos hj, hj, h]
    · rw [if_neg hj]
  rw [← hm]
  have herase : (m.insert k v).erase k = m.erase k := by
    apply ext_get
    intro j
    rw [get_erase, get_erase, get_insert]
    by_cases hj : j = k
    · rw [if_pos hj, if_pos hj]
    · rw [if_neg hj, if_neg hj, if_neg hj]
  rw [herase]
  exact entries_insert_perm m k v

theorem erase_of_get_none {m : OrdMap α} {k : Nat} (h : m.get k = none) : m.erase k = m := by
  apply ext_get
  intro j
  rw [get_erase]
  by_cases hj : j = k
  · rw [if_pos hj, hj, h]
  · rw [if_neg hj]

end OrdMap

/-! ## 2. Filings -/

/-- **A way to file rows**: what an index holds of a list of rows, kept by inserting and
removing one. -/
structure Filing (Ix Val : Type) where
  insert : Ix → Nat → Val → Ix
  remove : Ix → Nat → Val → Ix
  Holds : Ix → List (Nat × Val) → Prop
  holds_perm : ∀ {ix l l'}, Holds ix l → l.Perm l' → Holds ix l'
  holds_insert : ∀ {ix l id v}, Holds ix l → id ∉ l.map (·.1) →
    Holds (insert ix id v) ((id, v) :: l)
  holds_remove : ∀ {ix l id v}, Holds ix ((id, v) :: l) → id ∉ l.map (·.1) →
    Holds (remove ix id v) l

namespace Filing

variable {Ix Val : Type} (F : Filing Ix Val)

/-- Two values an index does not tell apart. -/
def Alike (v w : Val) : Prop :=
  ∀ ix id l, F.Holds ix ((id, v) :: l) → F.Holds ix ((id, w) :: l)

variable {F} {ix : Ix} {m : OrdMap Val} {id : Nat} {v w : Val}

theorem holds_put_new (h : F.Holds ix m.entries) (hid : m.get id = none) :
    F.Holds (F.insert ix id v) (m.insert id v).entries := by
  have hperm := m.entries_insert_perm id v
  rw [OrdMap.erase_of_get_none hid] at hperm
  exact F.holds_perm (F.holds_insert h (OrdMap.notMem_keys_of_get hid)) hperm.symm

theorem holds_erase (h : F.Holds ix m.entries) (hid : m.get id = some v) :
    F.Holds (F.remove ix id v) (m.erase id).entries :=
  F.holds_remove (F.holds_perm h (OrdMap.entries_perm_of_get hid)) (m.notMem_keys_erase id)

theorem holds_put_over (h : F.Holds ix m.entries) (hid : m.get id = some v) :
    F.Holds (F.insert (F.remove ix id v) id w) (m.insert id w).entries :=
  F.holds_perm (F.holds_insert (holds_erase h hid) (m.notMem_keys_erase id))
    (m.entries_insert_perm id w).symm

theorem holds_put_alike (h : F.Holds ix m.entries) (hid : m.get id = some v)
    (hvw : F.Alike v w) : F.Holds ix (m.insert id w).entries :=
  F.holds_perm (hvw _ _ _ (F.holds_perm h (OrdMap.entries_perm_of_get hid)))
    (m.entries_insert_perm id w).symm

variable (F) in
/-- What a writer does to an index when row `id` becomes `v`: the old version out and the new one
in, or neither. -/
def rewrite (ix : Ix) (id : Nat) (old : Option Val) (kept : Bool) (v : Val) : Ix :=
  let ix := match old with
    | some u => if kept then ix else F.remove ix id u
    | none => ix
  if kept then ix else F.insert ix id v

/-- **Rewriting keeps the index**, if it is skipped only over values filed alike. -/
theorem holds_rewrite {kept : Bool} (h : F.Holds ix m.entries)
    (hkept : kept = true → ∃ u, m.get id = some u ∧ F.Alike u v) :
    F.Holds (F.rewrite ix id (m.get id) kept v) (m.insert id v).entries := by
  unfold rewrite
  cases hold : m.get id with
  | none =>
    cases kept with
    | false => exact holds_put_new h hold
    | true =>
      obtain ⟨u, hu, -⟩ := hkept rfl
      rw [hold] at hu
      cases hu
  | some u =>
    cases kept with
    | false => exact holds_put_over h hold
    | true =>
      obtain ⟨u', hu, halike⟩ := hkept rfl
      rw [hold] at hu
      cases hu
      exact holds_put_alike h hold halike

/-- An index of no rows, every row put in. -/
theorem holds_foldl {empty : Ix} (h : F.Holds empty []) (m : OrdMap Val) :
    F.Holds (m.entries.foldl (fun ix r => F.insert ix r.1 r.2) empty) m.entries := by
  have hgen : ∀ (rest done : List (Nat × Val)) (ix : Ix), F.Holds ix done →
      ((rest ++ done).map (·.1)).Nodup →
      F.Holds (rest.foldl (fun ix r => F.insert ix r.1 r.2) ix) (rest ++ done) := by
    intro rest
    induction rest with
    | nil => intro done ix h _; exact h
    | cons r rest ih =>
      intro done ix h hnodup
      rw [List.cons_append, List.map_cons, List.nodup_cons] at hnodup
      have hr : r.1 ∉ done.map (·.1) := fun hm =>
        hnodup.1 (by rw [List.map_append]; exact List.mem_append_right _ hm)
      have hperm : (rest ++ r :: done).Perm (r :: (rest ++ done)) := List.perm_middle
      refine F.holds_perm (ih (r :: done) _ (F.holds_insert h hr) ?_) hperm
      rw [(hperm.map _).nodup_iff, List.map_cons, List.nodup_cons]
      exact hnodup
  have hall := hgen m.entries [] empty h
  rw [List.append_nil] at hall
  exact hall m.nodup_entries

end Filing

/-! ## 3. Entries found by comparing -/

namespace Entries

variable {κ : Type} (cmp : κ × Nat → κ × Nat → Ordering)

/-- An entry before the first one past it, unless one that compares equal is there. -/
def insert (x : κ × Nat) (l : List (κ × Nat)) : List (κ × Nat) :=
  if l.any fun y => cmp y x == .eq then l
  else l.takeWhile (fun y => cmp y x == .lt) ++ x :: l.dropWhile (fun y => cmp y x == .lt)

/-- The entries without the one that compares equal. -/
def remove (x : κ × Nat) (l : List (κ × Nat)) : List (κ × Nat) :=
  l.eraseP fun y => cmp y x == .eq

/-- What comparing must do: an entry is found by itself, and only by entries of its row. -/
structure Finds : Prop where
  self : ∀ x, cmp x x = .eq
  row : ∀ x y, cmp x y = .eq → x.2 = y.2

variable {cmp} {l : List (κ × Nat)} {x : κ × Nat}

theorem insert_perm (h : Finds cmp) (hx : x.2 ∉ l.map (·.2)) :
    (insert cmp x l).Perm (x :: l) := by
  have hnot : (l.any fun y => cmp y x == .eq) = false := by
    rw [List.any_eq_false]
    intro y hy heq
    exact hx (List.mem_map.mpr ⟨y, hy, h.row y x (by simpa using heq)⟩)
  rw [insert, hnot, if_neg Bool.false_ne_true]
  refine (List.perm_middle).trans ?_
  rw [List.takeWhile_append_dropWhile]

theorem remove_perm (h : Finds cmp) {l' : List (κ × Nat)} (hl : l.Perm (x :: l'))
    (hx : x.2 ∉ l'.map (·.2)) : (remove cmp x l).Perm l' := by
  have hmem : x ∈ l := hl.mem_iff.mpr (List.mem_cons_self ..)
  obtain ⟨a, l₁, l₂, -, ha, rfl, herase⟩ :=
    List.exists_of_eraseP (p := fun y => cmp y x == .eq) hmem (by simp [h.self])
  -- the entry found is of the row of `x`, and the list has one of that row
  have hax : a = x := by
    have harow : a.2 = x.2 := h.row a x (by simpa using ha)
    have hamem : a ∈ x :: l' := hl.mem_iff.mp (by simp)
    rcases List.mem_cons.mp hamem with rfl | hamem
    · rfl
    · exact absurd (List.mem_map.mpr ⟨a, hamem, harow⟩) hx
  subst hax
  rw [remove, herase]
  exact (List.perm_cons a).mp (List.perm_middle.symm.trans hl)

end Entries

end Fenec.Lib
