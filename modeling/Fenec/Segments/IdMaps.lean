/-
# The maps by id

Whatever a run of writes puts into the id index and takes out of it, the index is the finite map
those writes make (`IdIndex.run_agrees`): it answers and counts as the map does and lists the map's
keys.  A list from an id on starts in the middle of the dense slots; it is the whole list less the
ids below (`iterFrom_eq`).

The text and vector indexes keep a number above zero for each document in a `DocMap`, laid out as
the id index is.  It settles an id that is in both its parts the other way: a number the dense slots
grow over stays in the map, is read there while its slot is empty, and is taken out when the slot
is written.  What that rests on is `Good`: an id with a full slot is not in the map.
-/
import Fenec.Segments.IdIndex

namespace Fenec

open Lib

namespace Segments

/-! ## 1. Counting the keys of a map -/

section Keys

variable {α : Type} {m : OrdMap α} {id k : Nat} {v : α}

theorem keys_nodup (m : OrdMap α) : m.keys.Nodup := m.keys_ascending.imp Nat.ne_of_lt

theorem length_keys_insert : (m.insert id v).keys.length =
    if (m.get id).isSome then m.keys.length else m.keys.length + 1 := by
  have hmem : ∀ k, k ∈ (m.insert id v).keys ↔ k = id ∨ k ∈ m.keys := by
    intro k
    rw [OrdMap.mem_keys_iff, OrdMap.mem_keys_iff, OrdMap.get_insert]
    by_cases h : k = id <;> simp [h]
  rw [IdIndex.length_of_insert (keys_nodup m) (keys_nodup _) hmem]
  have hin : id ∈ m.keys ↔ (m.get id).isSome = true := by
    rw [OrdMap.mem_keys_iff, Option.isSome_iff_exists]
  by_cases h : id ∈ m.keys
  · rw [if_pos h, if_pos (hin.mp h)]
  · rw [if_neg h, if_neg fun hs => h (hin.mpr hs)]

theorem length_keys_erase :
    (m.erase id).keys.length = if (m.get id).isSome then m.keys.length - 1 else m.keys.length := by
  cases hget : m.get id with
  | none =>
    have hsame : m.erase id = m := by
      refine OrdMap.ext_get fun k => ?_
      rw [OrdMap.get_erase]
      split
      · next h => rw [h, hget]
      · rfl
    rw [hsame]
    rfl
  | some v =>
    have hback : (m.erase id).insert id v = m := by
      refine OrdMap.ext_get fun k => ?_
      rw [OrdMap.get_insert, OrdMap.get_erase]
      split
      · next h => rw [h, hget]
      · rfl
    have hlen : ((m.erase id).insert id v).keys.length = _ := length_keys_insert
    rw [hback, OrdMap.get_erase, if_pos rfl] at hlen
    rw [hlen]
    rfl

end Keys

namespace IdIndex

/-! ## 2. The ids from one on -/

section From

variable {α : Type} {x : IdIndex α}

/-- **`IdIndex::iter_from`.** -/
def iterFrom (x : IdIndex α) (from_ : Nat) : List Nat :=
  let skip := min (max from_ 1 - 1) x.dense.length
  denseIds (skip + 1) (x.dense.drop skip) ++ x.sparse.keys.filter fun k => from_ ≤ k

/-- The ids of a list's slots from one of them on. -/
theorem denseIds_drop (l : List (Option α)) : ∀ m n : Nat,
    denseIds (m + n) (l.drop n) = (denseIds m l).filter fun k => m + n ≤ k := by
  induction l with
  | nil => exact fun m n => by rw [List.drop_nil]; rfl
  | cons a l ih =>
    intro m n
    cases n with
    | zero =>
      refine (List.filter_eq_self.mpr fun k hk => ?_).symm
      have hle := (mem_denseIds.mp hk).1
      simpa using hle
    | succ n =>
      have hnext := ih (m + 1) n
      rw [show m + 1 + n = m + (n + 1) by omega] at hnext
      cases a with
      | none => rw [List.drop_succ_cons, hnext, denseIds]
      | some v =>
        rw [List.drop_succ_cons, hnext, denseIds, List.filter_cons_of_neg]
        simp

/-- **The ids from one on are those of all that are not below it.** -/
theorem iterFrom_eq (x : IdIndex α) (from_ : Nat) :
    x.iterFrom from_ = x.ids.filter fun k => from_ ≤ k := by
  have hskip : denseIds (min (max from_ 1 - 1) x.dense.length + 1)
      (x.dense.drop (min (max from_ 1 - 1) x.dense.length)) =
        denseIds (1 + (from_ - 1)) (x.dense.drop (from_ - 1)) := by
    have hone : max from_ 1 - 1 = from_ - 1 := by omega
    rw [hone]
    rcases Nat.le_total (from_ - 1) x.dense.length with hle | hge
    · rw [Nat.min_eq_left hle, Nat.add_comm]
    · rw [Nat.min_eq_right hge, List.drop_eq_nil_of_le hge, List.drop_length]
      rfl
  have hcongr : ((denseIds 1 x.dense).filter fun k => 1 + (from_ - 1) ≤ k) =
      (denseIds 1 x.dense).filter fun k => from_ ≤ k := by
    refine List.filter_congr fun k hk => ?_
    have hpos := (mem_denseIds.mp hk).1
    rw [decide_eq_decide]
    omega
  rw [iterFrom, ids, List.filter_append, hskip, denseIds_drop, hcongr]

end From

/-! ## 3. What a relocation visits -/

section Visits

variable {α σ : Type} {x : IdIndex α}

/-- A relocation that writes down the ids it visits. -/
def visiting (f : σ → Nat → α → α × σ) (st : σ × List Nat) (id : Nat) (loc : α) :
    α × σ × List Nat :=
  ((f st.1 id loc).1, (f st.1 id loc).2, st.2 ++ [id])

theorem relocatePairs_visiting (f : σ → Nat → α → α × σ) (l : List (Nat × α)) :
    ∀ (st : σ) (seen : List Nat), relocatePairs (visiting f) l (st, seen) =
      ((relocatePairs f l st).1, (relocatePairs f l st).2, seen ++ l.map (·.1)) := by
  induction l with
  | nil => exact fun st seen => by rw [List.map_nil, List.append_nil]; rfl
  | cons e l ih =>
    intro st seen
    obtain ⟨k, v⟩ := e
    rw [relocatePairs, visiting, ih, List.append_assoc]
    rfl

/-- **A relocation visits every id once, in order.** -/
theorem relocate_visits (f : σ → Nat → α → α × σ) (st : σ) :
    (x.relocate (visiting f) (st, [])).2.2 = x.ids := by
  rw [(pairs_relocate x (st, [])).2, relocatePairs_visiting, List.nil_append, map_pairs]

end Visits

/-! ## 4. Runs of writes to the id index -/

section Runs

variable {α : Type}

/-- A write to the id index. -/
inductive Op (α : Type) where
  | insert (id : Nat) (loc : α)
  | remove (id : Nat)
  | pushAbove (id : Nat) (loc : α)

/-- The id a write is of. -/
def Op.id : Op α → Nat
  | .insert id _ => id
  | .remove id => id
  | .pushAbove id _ => id

/-- What a write does to the index. -/
def Op.write (x : IdIndex α) : Op α → IdIndex α
  | .insert id loc => x.insert id loc
  | .remove id => x.remove id
  | .pushAbove id loc => x.pushAbove id loc

/-- What a write does to a map. -/
def Op.change (m : OrdMap α) : Op α → OrdMap α
  | .insert id loc => m.insert id loc
  | .remove id => m.erase id
  | .pushAbove id loc => m.insert id loc

/-- **The index is the map.** -/
structure Agrees (x : IdIndex α) (m : OrdMap α) : Prop extends Good x where
  answers : ∀ k, x.get k = m.get k

theorem write_agrees {x : IdIndex α} {m : OrdMap α} {op : Op α} (h : Agrees x m)
    (hid : 1 ≤ op.id) : Agrees (op.write x) (op.change m) := by
  cases op with
  | insert id loc =>
    refine ⟨good_insert h.toGood hid, fun k => ?_⟩
    have hput := @get_insert α x id loc h.toPlaced hid k
    rw [Op.write, hput, h.answers, Op.change, OrdMap.get_insert]
  | remove id =>
    refine ⟨good_remove h.toGood id, fun k => ?_⟩
    rw [Op.write, get_remove, h.answers, Op.change, OrdMap.get_erase]
  | pushAbove id loc =>
    obtain ⟨hgood, hget⟩ := @pushAbove_spec α x id loc h.toGood hid
    refine ⟨hgood, fun k => ?_⟩
    rw [Op.write, hget, h.answers, Op.change, OrdMap.get_insert]

/-- **A run of writes leaves the map those writes make.** -/
theorem run_agrees {ops : List (Op α)} : ∀ {x : IdIndex α} {m : OrdMap α}, Agrees x m →
    (∀ op ∈ ops, 1 ≤ op.id) → Agrees (ops.foldl Op.write x) (ops.foldl Op.change m) := by
  induction ops with
  | nil => exact fun h _ => h
  | cons op ops ih =>
    intro x m h hids
    exact ih (write_agrees h (hids op List.mem_cons_self))
      fun op' hop => hids op' (List.mem_cons_of_mem _ hop)

theorem agrees_empty : Agrees (empty : IdIndex α) OrdMap.empty := ⟨good_empty, get_empty⟩

variable {x : IdIndex α} {m : OrdMap α}

/-- The ids listed are the map's keys. -/
theorem Agrees.ids_eq_keys (h : Agrees x m) : x.ids = m.keys := by
  refine List.Perm.eq_of_pairwise ?_ h.ids_ascending m.keys_ascending ?_
  · intro a b _ _ hab hba
    exact absurd (Nat.lt_trans hab hba) (Nat.lt_irrefl _)
  · refine (List.perm_ext_iff_of_nodup h.ids_nodup (keys_nodup m)).mpr fun k => ?_
    rw [h.mem_ids, OrdMap.mem_keys_iff, h.answers]

theorem Agrees.count_eq (h : Agrees x m) : x.count = m.keys.length := by
  rw [h.counted, h.ids_eq_keys]

end Runs

end IdIndex

/-! ## 5. A number for each document -/

/-- `DocMap`: the slot at a place is of the id one more, zero where it has none. -/
structure DocMap where
  dense : List Nat
  sparse : OrdMap Nat
  count : Nat

namespace DocMap

/-- `DocMap::default`. -/
def empty : DocMap := ⟨[], OrdMap.empty, 0⟩

/-- `in_dense`. -/
def inDense (x : DocMap) (id : Nat) : Bool := decide (1 ≤ id) && decide (id ≤ x.dense.length)

/-- **`DocMap::get`.** -/
def get (x : DocMap) (id : Nat) : Nat :=
  if x.inDense id ∧ ((x.dense[id - 1]?).getD 0 ≠ 0 ∨ x.sparse.entries.isEmpty) then
    (x.dense[id - 1]?).getD 0
  else (x.sparse.get id).getD 0

/-- `take_sparse`. -/
def takeSparse (x : DocMap) (id : Nat) : DocMap × Nat :=
  if x.sparse.entries.isEmpty then (x, 0)
  else ({ x with sparse := x.sparse.erase id }, (x.sparse.get id).getD 0)

/-- A slot replaced, with the number the id had. -/
def replace (x : DocMap) (id n : Nat) : DocMap × Nat :=
  let old := (x.dense[id - 1]?).getD 0
  let x := { x with dense := x.dense.set (id - 1) n }
  if old = 0 then x.takeSparse id else (x, old)

/-- The dense slots grown to an id past their end, where it is not too far past. -/
def grow (x : DocMap) (id : Nat) : DocMap :=
  if x.inDense id = false ∧ 1 ≤ id ∧ id - x.dense.length ≤ maxDenseGap then
    { x with dense := x.dense ++ List.replicate (id - x.dense.length) 0 }
  else x

/-- The end of an insert: a number where there was none is one more. -/
def added (r : DocMap × Nat) : DocMap × Option Nat :=
  if r.2 ≠ 0 then (r.1, some r.2) else ({ r.1 with count := r.1.count + 1 }, none)

/-- **`DocMap::insert`**, with the number the id had. -/
def insert (x : DocMap) (id n : Nat) : DocMap × Option Nat :=
  let x := x.grow id
  added (if x.inDense id then x.replace id n
    else ({ x with sparse := x.sparse.insert id n }, (x.sparse.get id).getD 0))

/-- **`DocMap::remove`**, with the number the id had. -/
def remove (x : DocMap) (id : Nat) : DocMap × Option Nat :=
  let r := if x.inDense id then x.replace id 0 else x.takeSparse id
  if r.2 = 0 then (r.1, none) else ({ r.1 with count := r.1.count - 1 }, some r.2)

/-! ## 6. What stands under an id -/

section Writes

variable {x : DocMap} {id k n : Nat}

/-- The number in an id's slot, zero where it has none. -/
def slot (x : DocMap) (k : Nat) : Nat := if x.inDense k then (x.dense[k - 1]?).getD 0 else 0

/-- **An id with a full slot is not in the map**, and the map's numbers are above zero. -/
structure Good (x : DocMap) : Prop where
  apart : ∀ k, x.slot k ≠ 0 → x.sparse.get k = none
  pos : ∀ k n, x.sparse.get k = some n → 0 < n

theorem inDense_iff : x.inDense id = true ↔ 1 ≤ id ∧ id ≤ x.dense.length := by simp [inDense]

theorem get_none_of_isEmpty (h : x.sparse.entries.isEmpty = true) (k : Nat) :
    x.sparse.get k = none := by
  rw [OrdMap.get, List.isEmpty_iff.mp h]
  rfl

/-- The slot's number where it has one, else the map's. -/
theorem get_eq (x : DocMap) (k : Nat) :
    x.get k = if x.slot k ≠ 0 then x.slot k else (x.sparse.get k).getD 0 := by
  unfold get slot
  by_cases hd : x.inDense k = true
  · rw [if_pos hd]
    by_cases hs : (x.dense[k - 1]?).getD 0 = 0
    · rw [if_neg (not_not.mpr hs)]
      by_cases he : x.sparse.entries.isEmpty = true
      · rw [if_pos ⟨hd, .inr he⟩, hs, get_none_of_isEmpty he]
        rfl
      · rw [if_neg (by simp [hs, he])]
    · rw [if_pos hs, if_pos ⟨hd, .inl hs⟩]
  · rw [if_neg hd, if_neg (fun h => hd h.1), if_neg (by simp)]

theorem takeSparse_spec (x : DocMap) (id : Nat) :
    (x.takeSparse id).1 = { x with sparse := x.sparse.erase id } ∧
      (x.takeSparse id).2 = (x.sparse.get id).getD 0 := by
  unfold takeSparse
  by_cases he : x.sparse.entries.isEmpty = true
  · have hsame : x.sparse.erase id = x.sparse := by
      refine OrdMap.ext_get fun k => ?_
      rw [OrdMap.get_erase, get_none_of_isEmpty he, ite_self]
    rw [if_pos he, hsame, get_none_of_isEmpty he]
    exact ⟨rfl, rfl⟩
  · rw [if_neg he]
    exact ⟨rfl, rfl⟩

theorem slot_set (hd : x.inDense id = true) (n k : Nat) :
    ({ x with dense := x.dense.set (id - 1) n } : DocMap).slot k =
      if k = id then n else x.slot k := by
  obtain ⟨hid, hlen⟩ := inDense_iff.mp hd
  unfold slot inDense
  dsimp only
  rw [List.length_set]
  by_cases hk : k = id
  · rw [hk, if_pos rfl, if_pos (by simp [hid, hlen]), List.getElem?_set_self (by omega)]
    rfl
  · rw [if_neg hk]
    split
    · next hin =>
      simp only [Bool.and_eq_true, decide_eq_true_eq] at hin
      rw [List.getElem?_set_ne (by omega)]
    · rfl

/-- **A slot replaced**: what the id had, and what every id has then. -/
theorem replace_spec (h : x.Good) (hd : x.inDense id = true) (n : Nat) :
    (x.replace id n).2 = x.get id ∧ (x.replace id n).1.Good ∧
      (x.replace id n).1.count = x.count ∧
      ∀ k, (x.replace id n).1.get k = if k = id then n else x.get k := by
  have hslot : x.slot id = (x.dense[id - 1]?).getD 0 := if_pos hd
  have hset := slot_set hd n
  -- the map with nothing at the id, whether there was anything or not
  have hmap : ∀ y : DocMap, (∀ k, y.slot k = if k = id then n else x.slot k) →
      y.sparse = x.sparse.erase id → y.Good ∧ ∀ k, y.get k = if k = id then n else x.get k := by
    intro y hy hsparse
    refine ⟨⟨fun k hk => ?_, fun k v hv => ?_⟩, fun k => ?_⟩
    · rw [hsparse, OrdMap.get_erase]
      split
      · rfl
      · next hne =>
        rw [hy, if_neg hne] at hk
        exact h.apart k hk
    · rw [hsparse, OrdMap.get_erase] at hv
      split at hv
      · cases hv
      · exact h.pos k v hv
    · rw [get_eq, get_eq, hy, hsparse, OrdMap.get_erase]
      by_cases hk : k = id
      · rw [if_pos hk, if_pos hk, if_pos hk]
        by_cases hn : n = 0
        · rw [if_neg (not_not.mpr hn), hn]
          rfl
        · rw [if_pos hn]
      · rw [if_neg hk, if_neg hk, if_neg hk]
  unfold replace
  dsimp only
  by_cases hzero : (x.dense[id - 1]?).getD 0 = 0
  · rw [if_pos hzero]
    obtain ⟨hrest, hold⟩ := takeSparse_spec { x with dense := x.dense.set (id - 1) n } id
    rw [hrest, hold]
    obtain ⟨hgood, hget⟩ := hmap
      { x with dense := x.dense.set (id - 1) n, sparse := x.sparse.erase id } hset rfl
    refine ⟨?_, hgood, rfl, hget⟩
    rw [get_eq, hslot, if_neg (not_not.mpr hzero)]
  · rw [if_neg hzero]
    have hnone : x.sparse.get id = none := h.apart id (by rw [hslot]; exact hzero)
    have hsame : x.sparse = x.sparse.erase id := by
      refine OrdMap.ext_get fun k => ?_
      rw [OrdMap.get_erase]
      split
      · next hk => rw [hk, hnone]
      · rfl
    obtain ⟨hgood, hget⟩ := hmap { x with dense := x.dense.set (id - 1) n } hset hsame
    refine ⟨?_, hgood, rfl, hget⟩
    rw [get_eq, hslot, if_pos hzero]

/-- **Growing changes nothing**: the map's numbers stay where they are. -/
theorem grow_spec (x : DocMap) (id : Nat) :
    (∀ k, (x.grow id).slot k = x.slot k) ∧ (x.grow id).sparse = x.sparse ∧
      (x.grow id).count = x.count := by
  unfold grow
  split
  · refine ⟨fun k => ?_, rfl, rfl⟩
    unfold slot inDense
    dsimp only
    rw [List.length_append, List.length_replicate]
    by_cases hk : 1 ≤ k ∧ k ≤ x.dense.length
    · rw [if_pos (by simp; omega), if_pos (by simp; omega), List.getElem?_append_left (by omega)]
    · rw [if_neg (c := (decide (1 ≤ k) && decide (k ≤ x.dense.length)) = true) (by simp; omega)]
      split
      · next hin =>
        simp only [Bool.and_eq_true, decide_eq_true_eq] at hin
        rw [List.getElem?_append_right (by omega), List.getElem?_replicate]
        split <;> rfl
      · rfl
  · exact ⟨fun _ => rfl, rfl, rfl⟩

theorem grow_good (h : x.Good) (id : Nat) :
    (x.grow id).Good ∧ ∀ k, (x.grow id).get k = x.get k := by
  obtain ⟨hslot, hsparse, -⟩ := grow_spec x id
  refine ⟨⟨fun k hk => ?_, fun k n hn => ?_⟩, fun k => ?_⟩
  · rw [hsparse]
    rw [hslot] at hk
    exact h.apart k hk
  · rw [hsparse] at hn
    exact h.pos k n hn
  · rw [get_eq, get_eq, hslot, hsparse]

/-! ## 7. Writes -/

/-- An answer: the number an id had, or none. -/
def answer (old : Nat) : Option Nat := if old = 0 then none else some old

/-- A write to an id, and all it leaves as it was. -/
structure Put (x : DocMap) (id n : Nat) (r : DocMap × Nat) : Prop where
  old : r.2 = x.get id
  good : r.1.Good
  count : r.1.count = x.count
  get : ∀ k, r.1.get k = if k = id then n else x.get k

theorem put_replace (h : x.Good) (hd : x.inDense id = true) (n : Nat) :
    Put x id n (x.replace id n) := by
  obtain ⟨hold, hgood, hcount, hget⟩ := replace_spec h hd n
  exact ⟨hold, hgood, hcount, hget⟩

theorem put_sparse (h : x.Good) (hd : ¬ x.inDense id = true) (hn : 0 < n) :
    Put x id n ({ x with sparse := x.sparse.insert id n }, (x.sparse.get id).getD 0) := by
  have hslot : x.slot id = 0 := if_neg hd
  have hslots : ∀ k, ({ x with sparse := x.sparse.insert id n } : DocMap).slot k = x.slot k :=
    fun _ => rfl
  refine ⟨?_, ⟨fun k hk => ?_, fun k v hv => ?_⟩, rfl, fun k => ?_⟩
  · rw [get_eq, hslot]
    rfl
  · -- a full slot is another id's
    rw [hslots] at hk
    rw [OrdMap.get_insert, if_neg]
    · exact h.apart k hk
    · rintro rfl
      exact hk hslot
  · rw [OrdMap.get_insert] at hv
    split at hv
    · obtain rfl := Option.some.inj hv
      exact hn
    · exact h.pos k v hv
  · rw [get_eq, hslots, OrdMap.get_insert, get_eq]
    by_cases hk : k = id
    · rw [if_pos hk, if_pos hk, hk, hslot, if_neg (not_not.mpr rfl)]
      rfl
    · rw [if_neg hk, if_neg hk]

theorem put_takeSparse (h : x.Good) (hd : ¬ x.inDense id = true) :
    Put x id 0 (x.takeSparse id) := by
  have hslot : x.slot id = 0 := if_neg hd
  obtain ⟨hrest, hold⟩ := takeSparse_spec x id
  have hslots : ∀ k, (x.takeSparse id).1.slot k = x.slot k := fun k => by rw [hrest]; rfl
  have hmap : (x.takeSparse id).1.sparse = x.sparse.erase id := by rw [hrest]
  refine ⟨?_, ⟨fun k hk => ?_, fun k v hv => ?_⟩, by rw [hrest], fun k => ?_⟩
  · rw [hold, get_eq, hslot]
    rfl
  · rw [hslots] at hk
    rw [hmap, OrdMap.get_erase, h.apart k hk, ite_self]
  · rw [hmap, OrdMap.get_erase] at hv
    split at hv
    · cases hv
    · exact h.pos k v hv
  · rw [get_eq, hslots, hmap, OrdMap.get_erase, get_eq]
    by_cases hk : k = id
    · rw [if_pos hk, if_pos hk, hk, hslot, if_neg (not_not.mpr rfl)]
      rfl
    · rw [if_neg hk, if_neg hk]

/-- **`insert` puts a number under its id**, and answers the one it had. -/
theorem insert_spec (h : x.Good) (hn : 0 < n) :
    (x.insert id n).2 = answer (x.get id) ∧ (x.insert id n).1.Good ∧
      (x.insert id n).1.count = (if x.get id = 0 then x.count + 1 else x.count) ∧
      ∀ k, (x.insert id n).1.get k = if k = id then n else x.get k := by
  obtain ⟨hgood, hget⟩ := grow_good h id
  have hcount := (grow_spec x id).2.2
  have hput : ∃ r, x.insert id n = added r ∧ Put (x.grow id) id n r := by
    rw [insert]
    by_cases hd : (x.grow id).inDense id = true
    · exact ⟨_, by rw [if_pos hd], put_replace hgood hd n⟩
    · exact ⟨_, by rw [if_neg hd], put_sparse hgood hd hn⟩
  obtain ⟨r, hr, hold, hgood', hcount', hget'⟩ := hput
  rw [hget] at hold
  rw [hr, added, answer, hold]
  by_cases hzero : x.get id = 0
  · rw [if_neg (not_not.mpr hzero), if_pos hzero, if_pos hzero]
    refine ⟨rfl, ⟨hgood'.apart, hgood'.pos⟩, ?_, fun k => ?_⟩
    · rw [hcount', hcount]
    · exact (hget' k).trans (by rw [hget])
  · rw [if_pos hzero, if_neg hzero, if_neg hzero]
    refine ⟨rfl, hgood', ?_, fun k => ?_⟩
    · rw [hcount', hcount]
    · exact (hget' k).trans (by rw [hget])

/-- **`remove` takes the number under an id out**, and answers it. -/
theorem remove_spec (h : x.Good) (id : Nat) :
    (x.remove id).2 = answer (x.get id) ∧ (x.remove id).1.Good ∧
      (x.remove id).1.count = (if x.get id = 0 then x.count else x.count - 1) ∧
      ∀ k, (x.remove id).1.get k = if k = id then 0 else x.get k := by
  have hput : Put x id 0 (if x.inDense id then x.replace id 0 else x.takeSparse id) := by
    by_cases hd : x.inDense id = true
    · rw [if_pos hd]
      exact put_replace h hd 0
    · rw [if_neg hd]
      exact put_takeSparse h hd
  rw [remove]
  generalize (if x.inDense id = true then x.replace id 0 else x.takeSparse id) = r at hput
  obtain ⟨hold, hgood, hcount, hget⟩ := hput
  rw [answer, ← hold]
  by_cases hzero : r.2 = 0
  · rw [if_pos hzero, if_pos hzero, if_pos hzero]
    exact ⟨rfl, hgood, hcount, hget⟩
  · rw [if_neg hzero, if_neg hzero, if_neg hzero]
    exact ⟨rfl, ⟨hgood.apart, hgood.pos⟩, by rw [hcount], hget⟩

end Writes

/-! ## 8. Runs of writes to a `DocMap` -/

section Runs

/-- A write to a `DocMap`; a number put is above zero. -/
inductive Op where
  | insert (id n : Nat) (above : 0 < n)
  | remove (id : Nat)

/-- What a write does to it, and what it answers. -/
def Op.write (x : DocMap) : Op → DocMap × Option Nat
  | .insert id n _ => x.insert id n
  | .remove id => x.remove id

/-- The id a write is of. -/
def Op.id : Op → Nat
  | .insert id _ _ => id
  | .remove id => id

/-- What a write does to a map. -/
def Op.change (m : OrdMap Nat) : Op → OrdMap Nat
  | .insert id n _ => m.insert id n
  | .remove id => m.erase id

/-- **The numbers are a map's.** -/
structure Agrees (x : DocMap) (m : OrdMap Nat) : Prop extends Good x where
  answers : ∀ k, x.get k = (m.get k).getD 0
  above : ∀ k n, m.get k = some n → 0 < n
  counted : x.count = m.keys.length

variable {x : DocMap} {m : OrdMap Nat}

/-- An id has the number zero where the map has none. -/
theorem Agrees.zero_iff (h : Agrees x m) (k : Nat) : x.get k = 0 ↔ ¬ (m.get k).isSome = true := by
  rw [h.answers]
  cases hget : m.get k with
  | none => simp
  | some n =>
    have hpos := h.above k n hget
    simp
    omega

theorem Agrees.answer_eq (h : Agrees x m) (k : Nat) : answer (x.get k) = m.get k := by
  rw [answer, h.answers]
  cases hget : m.get k with
  | none => rfl
  | some n => exact if_neg (Nat.ne_of_gt (h.above k n hget))

/-- **A write does what it does to the map**, and answers what that had. -/
theorem write_spec (h : Agrees x m) (op : Op) :
    Agrees (op.write x).1 (op.change m) ∧ (op.write x).2 = m.get op.id := by
  cases op with
  | insert id n above =>
    obtain ⟨hold, hgood, hcount, hget⟩ := @insert_spec x id n h.toGood above
    refine ⟨⟨hgood, fun k => ?_, fun k v hv => ?_, ?_⟩, hold.trans (h.answer_eq id)⟩
    · rw [Op.change, OrdMap.get_insert]
      refine (hget k).trans ?_
      split
      · rfl
      · exact h.answers k
    · rw [Op.change, OrdMap.get_insert] at hv
      split at hv
      · obtain rfl := Option.some.inj hv
        exact above
      · exact h.above k v hv
    · rw [Op.change, length_keys_insert]
      refine hcount.trans ?_
      by_cases hs : (m.get id).isSome = true
      · rw [if_pos hs, if_neg (mt (h.zero_iff id).mp (not_not.mpr hs)), h.counted]
      · rw [if_neg hs, if_pos ((h.zero_iff id).mpr hs), h.counted]
  | remove id =>
    obtain ⟨hold, hgood, hcount, hget⟩ := remove_spec h.toGood id
    refine ⟨⟨hgood, fun k => ?_, fun k v hv => ?_, ?_⟩, hold.trans (h.answer_eq id)⟩
    · rw [Op.change, OrdMap.get_erase]
      refine (hget k).trans ?_
      split
      · rfl
      · exact h.answers k
    · rw [Op.change, OrdMap.get_erase] at hv
      split at hv
      · cases hv
      · exact h.above k v hv
    · rw [Op.change, length_keys_erase]
      refine hcount.trans ?_
      by_cases hs : (m.get id).isSome = true
      · rw [if_pos hs, if_neg (mt (h.zero_iff id).mp (not_not.mpr hs)), h.counted]
      · rw [if_neg hs, if_pos ((h.zero_iff id).mpr hs), h.counted]

theorem agrees_empty : Agrees empty OrdMap.empty := by
  refine ⟨⟨fun k hk => rfl, fun k n h => (by cases h)⟩, fun k => ?_, fun k n h => (by cases h), rfl⟩
  have hslot : empty.slot k = 0 := by
    unfold slot
    split <;> rfl
  rw [get_eq, hslot]
  rfl

/-- **A run of writes leaves the map those writes make.** -/
theorem run_agrees {ops : List Op} : ∀ {x : DocMap} {m : OrdMap Nat}, Agrees x m →
    Agrees (ops.foldl (fun x op => (op.write x).1) x) (ops.foldl Op.change m) := by
  induction ops with
  | nil => exact fun h => h
  | cons op ops ih => exact fun h => ih (write_spec h op).1

end Runs

end DocMap

/-! ## 9. The two maps -/

/-- **The id index and the `DocMap` are the finite maps of their writes.** -/
theorem ids_are_maps :
    (∀ {α : Type} (ops : List (IdIndex.Op α)), (∀ op ∈ ops, 1 ≤ op.id) →
      ∃ x m, x = ops.foldl IdIndex.Op.write IdIndex.empty ∧
        m = ops.foldl IdIndex.Op.change OrdMap.empty ∧
        (∀ id, x.get id = m.get id) ∧ x.count = m.keys.length ∧
        (∀ id ∈ x.sparse.keys, x.dense.length < id ∧ x.sparseFloor ≤ id) ∧
        x.ids = m.keys ∧ x.ids.Pairwise (· < ·) ∧
        (∀ from_, x.iterFrom from_ = x.ids.filter fun id => from_ ≤ id) ∧
        ∀ {σ : Type} (f : σ → Nat → α → α × σ) (st : σ),
          (x.relocate (IdIndex.visiting f) (st, [])).2.2 = x.ids) ∧
    ∀ ops : List DocMap.Op,
      ∃ x m, x = ops.foldl (fun x op => (op.write x).1) DocMap.empty ∧
        m = ops.foldl DocMap.Op.change OrdMap.empty ∧
        (∀ id, x.get id = (m.get id).getD 0) ∧ x.count = m.keys.length ∧
        ∀ op : DocMap.Op, (op.write x).2 = m.get op.id := by
  constructor
  · intro α ops hids
    have h := IdIndex.run_agrees IdIndex.agrees_empty hids
    exact ⟨_, _, rfl, rfl, h.answers, h.count_eq, fun id hid => ⟨h.past id hid, h.floor id hid⟩,
      h.ids_eq_keys, h.ids_ascending, IdIndex.iterFrom_eq _, IdIndex.relocate_visits⟩
  · intro ops
    have h := @DocMap.run_agrees ops _ _ DocMap.agrees_empty
    exact ⟨_, _, rfl, rfl, h.answers, h.counted, fun op => (DocMap.write_spec h op).2⟩

/-- An id too far past the list for it, two near it, and one of these taken out again. -/
theorem ids_far_and_near :
    ∃ x, x = [.insert 9000 'a', .insert 2 'b', .pushAbove 9001 'c', .remove 2].foldl
        IdIndex.Op.write IdIndex.empty ∧
      x.ids = [9000, 9001] ∧ x.count = 2 ∧ x.iterFrom 9001 = [9001] := by
  obtain ⟨x, m, hx, rfl, -, hcount, -, hids, -, hfrom, -⟩ := ids_are_maps.1
    [.insert 9000 'a', .insert 2 'b', .pushAbove 9001 'c', .remove 2] (by decide)
  refine ⟨x, hx, hids, hcount, ?_⟩
  rw [hfrom, hids]
  rfl

end Segments

end Fenec
