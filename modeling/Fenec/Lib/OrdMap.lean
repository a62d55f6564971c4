/-
# Finite maps by ascending key

A finite map from naturals, kept as its entries in ascending order of their keys.  The order is
part of the type, so two maps that answer every key alike are equal (`ext_get`), and walking the
entries is walking the keys in order.
-/
import Mathlib.Data.List.Basic
import Mathlib.Data.List.Pairwise
import Mathlib.Order.Basic

namespace Fenec.Lib

/-- A finite map from naturals, its entries by ascending key. -/
@[ext] structure OrdMap (α : Type) where
  entries : List (Nat × α)
  ascending : entries.Pairwise fun a b => a.1 < b.1

namespace OrdMap

variable {α : Type}

instance [DecidableEq α] : DecidableEq (OrdMap α) := fun a b =>
  decidable_of_iff (a.entries = b.entries) OrdMap.ext_iff.symm

/-- The map of nothing. -/
def empty : OrdMap α := ⟨[], List.Pairwise.nil⟩

/-- What the map holds at a key. -/
def get (m : OrdMap α) (k : Nat) : Option α := m.entries.lookup k

/-- The keys, ascending. -/
def keys (m : OrdMap α) : List Nat := m.entries.map (·.1)

/-- An entry put in its place, over the one that was there. -/
def insertEntry (k : Nat) (v : α) : List (Nat × α) → List (Nat × α)
  | [] => [(k, v)]
  | e :: rest =>
    if k < e.1 then (k, v) :: e :: rest
    else if k = e.1 then (k, v) :: rest
    else e :: insertEntry k v rest

theorem mem_insertEntry {k : Nat} {v : α} {l : List (Nat × α)} {e : Nat × α}
    (h : e ∈ insertEntry k v l) : e = (k, v) ∨ e ∈ l := by
  induction l with
  | nil => exact .inl (by simpa [insertEntry] using h)
  | cons a rest ih =>
    unfold insertEntry at h
    split at h
    · exact (List.mem_cons.mp h)
    · split at h
      · rcases List.mem_cons.mp h with h | h
        · exact .inl h
        · exact .inr (List.mem_cons_of_mem _ h)
      · rcases List.mem_cons.mp h with h | h
        · exact .inr (h ▸ List.mem_cons_self ..)
        · exact (ih h).imp id (List.mem_cons_of_mem _)

theorem ascending_insertEntry {k : Nat} {v : α} {l : List (Nat × α)}
    (h : l.Pairwise fun a b => a.1 < b.1) :
    (insertEntry k v l).Pairwise fun a b => a.1 < b.1 := by
  induction l with
  | nil => exact List.pairwise_singleton _ _
  | cons a rest ih =>
    obtain ⟨ha, hrest⟩ := List.pairwise_cons.mp h
    unfold insertEntry
    split
    · next hlt =>
      refine List.pairwise_cons.mpr ⟨fun b hb => ?_, h⟩
      rcases List.mem_cons.mp hb with rfl | hb
      · exact hlt
      · exact Nat.lt_trans hlt (ha b hb)
    · split
      · next heq => exact List.pairwise_cons.mpr ⟨fun b hb => heq ▸ ha b hb, hrest⟩
      · refine List.pairwise_cons.mpr ⟨fun b hb => ?_, ih hrest⟩
        rcases mem_insertEntry hb with rfl | hb
        · show a.1 < k
          omega
        · exact ha b hb

/-- The map with `v` at `k`. -/
def insert (m : OrdMap α) (k : Nat) (v : α) : OrdMap α :=
  ⟨insertEntry k v m.entries, ascending_insertEntry m.ascending⟩

/-- The map with nothing at `k`. -/
def erase (m : OrdMap α) (k : Nat) : OrdMap α :=
  ⟨m.entries.filter fun e => e.1 != k, m.ascending.filter _⟩

/-- The map with every value changed. -/
def map {β : Type} (f : Nat → α → β) (m : OrdMap α) : OrdMap β :=
  ⟨m.entries.map fun e => (e.1, f e.1 e.2), by
    rw [List.pairwise_map]
    exact m.ascending⟩

/-! ## 1. Lookups -/

@[simp] theorem get_empty (k : Nat) : (empty : OrdMap α).get k = none := rfl

theorem lookup_cons_ite {k : Nat} {e : Nat × α} {l : List (Nat × α)} :
    (e :: l).lookup k = if k = e.1 then some e.2 else l.lookup k := by
  obtain ⟨a, b⟩ := e
  by_cases h : k = a
  · simp [h]
  · simp [List.lookup_cons, h, beq_eq_false_iff_ne.mpr h]

theorem lookup_insertEntry {k k' : Nat} {v : α} {l : List (Nat × α)} :
    (insertEntry k v l).lookup k' = if k' = k then some v else l.lookup k' := by
  induction l with
  | nil => simp [insertEntry, lookup_cons_ite]
  | cons a rest ih =>
    unfold insertEntry
    split
    · rw [lookup_cons_ite]
    · split
      · next heq =>
        rw [lookup_cons_ite, lookup_cons_ite, ← heq]
        split <;> rfl
      · next hne =>
        rw [lookup_cons_ite, lookup_cons_ite, ih]
        by_cases hk : k' = k
        · rw [if_pos hk, if_pos hk, if_neg (hk ▸ hne)]
        · rw [if_neg hk, if_neg hk]

@[simp] theorem get_insert (m : OrdMap α) (k k' : Nat) (v : α) :
    (m.insert k v).get k' = if k' = k then some v else m.get k' :=
  lookup_insertEntry

@[simp] theorem get_erase (m : OrdMap α) (k k' : Nat) :
    (m.erase k).get k' = if k' = k then none else m.get k' := by
  show (m.entries.filter _).lookup k' = _
  unfold get
  induction m.entries with
  | nil => simp
  | cons a rest ih =>
    rw [List.filter_cons, lookup_cons_ite]
    by_cases ha : a.1 = k
    · rw [if_neg (by simpa using ha), ih, ha]
      split <;> rfl
    · rw [if_pos (by simpa using ha), lookup_cons_ite, ih]
      by_cases hk : k' = a.1
      · rw [if_pos hk, if_pos hk, if_neg (hk ▸ ha)]
      · rw [if_neg hk, if_neg hk]

theorem mem_entries_iff {m : OrdMap α} {k : Nat} {v : α} :
    (k, v) ∈ m.entries ↔ m.get k = some v := by
  unfold get
  obtain ⟨l, hl⟩ := m
  dsimp only
  induction l with
  | nil => simp
  | cons a rest ih =>
    obtain ⟨a1, a2⟩ := a
    obtain ⟨ha, hrest⟩ := List.pairwise_cons.mp hl
    rw [List.mem_cons, lookup_cons_ite]
    by_cases hk : k = a1
    · subst hk
      have hnot : (k, v) ∉ rest := fun hm => Nat.lt_irrefl k (ha (k, v) hm)
      simp [hnot, eq_comm]
    · simp [hk, ih hrest]

theorem mem_keys_iff {m : OrdMap α} {k : Nat} : k ∈ m.keys ↔ ∃ v, m.get k = some v := by
  simp only [keys, List.mem_map, Prod.exists, exists_and_right, exists_eq_right,
    mem_entries_iff]

theorem keys_ascending (m : OrdMap α) : m.keys.Pairwise (· < ·) := by
  rw [keys, List.pairwise_map]
  exact m.ascending

@[simp] theorem get_map {β : Type} (f : Nat → α → β) (m : OrdMap α) (k : Nat) :
    (m.map f).get k = (m.get k).map (f k) := by
  show (m.entries.map _).lookup k = _
  unfold get
  induction m.entries with
  | nil => rfl
  | cons a rest ih =>
    rw [List.map_cons, lookup_cons_ite, lookup_cons_ite, ih]
    split
    · next hk => rw [hk]; rfl
    · rfl

/-- **A map is what it answers.** -/
theorem ext_get {m n : OrdMap α} (h : ∀ k, m.get k = n.get k) : m = n := by
  have hnodup : ∀ m : OrdMap α, m.entries.Nodup := by
    intro m
    refine m.ascending.imp ?_
    rintro a b hlt rfl
    exact Nat.lt_irrefl _ hlt
  apply OrdMap.ext
  refine List.Perm.eq_of_pairwise ?_ m.ascending n.ascending ?_
  · intro a b _ _ hab hba
    exact absurd (Nat.lt_trans hab hba) (Nat.lt_irrefl _)
  · rw [List.perm_ext_iff_of_nodup]
    · rintro ⟨k, v⟩
      rw [mem_entries_iff, mem_entries_iff, h]
    · exact hnodup m
    · exact hnodup n

/-! ## 2. Places -/

section Places

variable {k : Nat} {v w : α} {A B : List (Nat × α)}

theorem insertEntry_over (h : ∀ e ∈ A, e.1 < k) :
    insertEntry k v (A ++ (k, w) :: B) = A ++ (k, v) :: B := by
  induction A with
  | nil =>
    rw [List.nil_append, insertEntry, if_neg (Nat.lt_irrefl k), if_pos rfl]
    rfl
  | cons a A ih =>
    have hak : a.1 < k := h a List.mem_cons_self
    rw [List.cons_append, insertEntry, if_neg (by omega), if_neg (by omega),
      ih fun e he => h e (List.mem_cons_of_mem _ he)]
    rfl

theorem insertEntry_between (hA : ∀ e ∈ A, e.1 < k) (hB : ∀ e ∈ B, k < e.1) :
    insertEntry k v (A ++ B) = A ++ (k, v) :: B := by
  induction A with
  | nil =>
    cases B with
    | nil => rfl
    | cons b B =>
      rw [List.nil_append, insertEntry, if_pos (hB b List.mem_cons_self)]
      rfl
  | cons a A ih =>
    have hak : a.1 < k := hA a List.mem_cons_self
    rw [List.cons_append, insertEntry, if_neg (by omega), if_neg (by omega),
      ih fun e he => hA e (List.mem_cons_of_mem _ he)]
    rfl

theorem filter_ne_of_lt (hA : ∀ e ∈ A, e.1 < k) : (A.filter fun e => e.1 != k) = A := by
  refine List.filter_eq_self.mpr fun e he => ?_
  have hek : e.1 ≠ k := Nat.ne_of_lt (hA e he)
  simpa using hek

theorem filter_ne_of_gt (hB : ∀ e ∈ B, k < e.1) : (B.filter fun e => e.1 != k) = B := by
  refine List.filter_eq_self.mpr fun e he => ?_
  have hek : e.1 ≠ k := (Nat.ne_of_lt (hB e he)).symm
  simpa using hek

/-- A map with a key it does not hold. -/
theorem insert_perm {m : OrdMap α} (h : m.get k = none) :
    (m.insert k v).entries.Perm ((k, v) :: m.entries) := by
  have hne : ∀ e ∈ m.entries, e.1 ≠ k := by
    rintro e he rfl
    have hget : m.get e.1 = some e.2 := mem_entries_iff.mp he
    cases h.symm.trans hget
  show (insertEntry k v m.entries).Perm _
  revert hne
  induction m.entries with
  | nil => exact fun _ => List.Perm.refl _
  | cons a rest ih =>
    intro hne
    unfold insertEntry
    split
    · exact List.Perm.refl _
    · rw [if_neg fun hk => hne a List.mem_cons_self hk.symm]
      have hrest := ih fun e he => hne e (List.mem_cons_of_mem _ he)
      exact (hrest.cons a).trans (List.Perm.swap _ _ _)

/-- A map without a key it holds. -/
theorem erase_perm {m : OrdMap α} (h : m.get k = some v) :
    m.entries.Perm ((k, v) :: (m.erase k).entries) := by
  obtain ⟨A, B, hcut⟩ := List.append_of_mem (mem_entries_iff.mpr h)
  have hasc := m.ascending
  rw [hcut] at hasc
  obtain ⟨-, hright, hacross⟩ := List.pairwise_append.mp hasc
  have hlow : ∀ e ∈ A, e.1 < k := fun e he => hacross e he _ List.mem_cons_self
  have hhigh : ∀ e ∈ B, k < e.1 := (List.pairwise_cons.mp hright).1
  have herase : (m.erase k).entries = A ++ B := by
    show m.entries.filter _ = _
    rw [hcut, List.filter_append, List.filter_cons_of_neg (by simp), filter_ne_of_lt hlow,
      filter_ne_of_gt hhigh]
  rw [herase, hcut]
  exact List.perm_middle

/-- The map of what a function makes of the entries, where it makes anything. -/
def filterMap {β : Type} (f : Nat → α → Option β) (m : OrdMap α) : OrdMap β :=
  ⟨m.entries.filterMap fun e => (f e.1 e.2).map (e.1, ·), by
    refine List.Pairwise.filterMap _ ?_ m.ascending
    intro a b hab c hc d hd
    obtain ⟨c', -, rfl⟩ := Option.map_eq_some_iff.mp hc
    obtain ⟨d', -, rfl⟩ := Option.map_eq_some_iff.mp hd
    exact hab⟩

@[simp] theorem get_filterMap {β : Type} (f : Nat → α → Option β) (m : OrdMap α) (k : Nat) :
    (m.filterMap f).get k = (m.get k).bind (f k) := by
  refine Option.ext fun b => ?_
  rw [← mem_entries_iff, Option.bind_eq_some_iff]
  refine List.mem_filterMap.trans ⟨?_, ?_⟩
  · rintro ⟨⟨k', a⟩, hmem, hf⟩
    obtain ⟨b', hb, heq⟩ := Option.map_eq_some_iff.mp hf
    obtain ⟨rfl, rfl⟩ := Prod.mk.inj heq
    exact ⟨a, mem_entries_iff.mp hmem, hb⟩
  · rintro ⟨a, ha, hb⟩
    exact ⟨(k, a), mem_entries_iff.mpr ha, by rw [hb]; rfl⟩

end Places

end OrdMap

end Fenec.Lib
