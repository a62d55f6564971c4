/-
# The id index

Where each document is.  Ids are handed out one after another, so the locations of the first ids
stand in a list by id (`dense`), and only an id far past its end goes into a map (`sparse`).  When
the list grows past ids the map holds, it takes them over, with every run of them it then reaches
(`takeOverSparse`).

Whatever is where, the index is a map: `get_insert` and `get_remove` are what a map's are, `ids`
are its keys ascending, and `count` is their number.  What that rests on is `Placed`: an id in the
map is past the list's end, and `sparseFloor` is no greater than any of them.
-/
import Fenec.Lib.OrdMap
import Mathlib.Data.Finset.Card
import Mathlib.Data.List.Nodup
import Mathlib.Tactic.Ring

namespace Fenec

open Lib

namespace Segments

/-! ## 1. The index -/

/-- `IdIndex`: an empty slot of the list is none. -/
structure IdIndex (α : Type) where
  dense : List (Option α)
  sparse : OrdMap α
  sparseFloor : Nat
  count : Nat

/-- `MAX_DENSE_GAP`. -/
def maxDenseGap : Nat := 4096

namespace IdIndex

variable {α : Type}

/-- `IdIndex::default`. -/
def empty : IdIndex α := ⟨[], OrdMap.empty, 0, 0⟩

/-- `in_dense`. -/
def inDense (x : IdIndex α) (id : Nat) : Bool := decide (1 ≤ id) && decide (id ≤ x.dense.length)

/-- **`IdIndex::get`.** -/
def get (x : IdIndex α) (id : Nat) : Option α :=
  if x.inDense id then (x.dense[id - 1]?).join else x.sparse.get id

/-- An id of the list given a location. -/
def setSlot (x : IdIndex α) (id : Nat) (loc : α) : IdIndex α :=
  { x with
    dense := x.dense.set (id - 1) (some loc)
    count := if ((x.dense[id - 1]?).join).isNone then x.count + 1 else x.count }

/-- `dense.resize(n, Loc::EMPTY)`, for a longer list. -/
def resize (x : IdIndex α) (n : Nat) : IdIndex α :=
  { x with dense := x.dense ++ List.replicate (n - x.dense.length) none }

/-- How far the list reaches with the ascending keys from `end_` on, and how many of them. -/
def reach : Nat → List Nat → Nat × Nat
  | end_, [] => (end_, 0)
  | end_, k :: ks =>
    if end_ < k ∧ maxDenseGap < k - end_ then (end_, 0)
    else ((reach (max end_ k) ks).1, (reach (max end_ k) ks).2 + 1)

/-- One key out of the map and into the list. -/
def moveKey (x : IdIndex α) (k : Nat) : IdIndex α :=
  match x.sparse.get k with
  | some l => { x with dense := x.dense.set (k - 1) (some l), sparse := x.sparse.erase k }
  | none => x

/-- **`take_over_sparse`.** -/
def takeOverSparse (x : IdIndex α) (upto : Nat) : IdIndex α :=
  let keys := x.sparse.keys
  let end_ := (reach upto keys).1
  let taken := (reach upto keys).2
  let x := if x.dense.length < end_ then x.resize end_ else x
  let x := (keys.take taken).foldl moveKey x
  { x with sparseFloor := (keys[taken]?).getD (2 ^ 64 - 1) }

/-- **`IdIndex::insert`.** -/
def insert (x : IdIndex α) (id : Nat) (loc : α) : IdIndex α :=
  if x.inDense id then x.setSlot id loc
  else if 1 ≤ id ∧ id - x.dense.length ≤ maxDenseGap then
    let x := x.resize id
    let x := if x.sparseFloor ≤ id then x.takeOverSparse id else x
    x.setSlot id loc
  else
    { x with
      sparse := x.sparse.insert id loc
      sparseFloor := if x.sparse.entries.isEmpty || id < x.sparseFloor then id else x.sparseFloor
      count := if (x.sparse.get id).isNone then x.count + 1 else x.count }

/-- **`IdIndex::remove`**, the index it leaves. -/
def remove (x : IdIndex α) (id : Nat) : IdIndex α :=
  if x.inDense id then
    if ((x.dense[id - 1]?).join).isNone then x
    else { x with dense := x.dense.set (id - 1) none, count := x.count - 1 }
  else
    { x with
      sparse := x.sparse.erase id
      count := if (x.sparse.get id).isSome then x.count - 1 else x.count }

/-- The ids of the list's full slots, its first slot being `from_`. -/
def denseIds : Nat → List (Option α) → List Nat
  | _, [] => []
  | from_, some _ :: rest => from_ :: denseIds (from_ + 1) rest
  | from_, none :: rest => denseIds (from_ + 1) rest

/-- **`IdIndex::ids`.** -/
def ids (x : IdIndex α) : List Nat := denseIds 1 x.dense ++ x.sparse.keys

/-! ## 2. What stands where -/

variable {x : IdIndex α} {id k : Nat} {loc : α}

/-- **An id in the map is past the list**, and no less than the floor. -/
structure Placed (x : IdIndex α) : Prop where
  past : ∀ k ∈ x.sparse.keys, x.dense.length < k
  floor : ∀ k ∈ x.sparse.keys, x.sparseFloor ≤ k

/-- The location of an id, in the list or in the map. -/
def look (x : IdIndex α) (k : Nat) : Option α := ((x.dense[k - 1]?).join).or (x.sparse.get k)

theorem get_empty (k : Nat) : (empty : IdIndex α).get k = none := by
  unfold get
  split
  · rfl
  · rfl

theorem inDense_iff : x.inDense id = true ↔ 1 ≤ id ∧ id ≤ x.dense.length := by
  simp [inDense]

theorem Placed.sparse_none (h : Placed x) (hk : k ≤ x.dense.length) : x.sparse.get k = none := by
  cases hget : x.sparse.get k with
  | none => rfl
  | some l =>
    have := h.past k (OrdMap.mem_keys_iff.mpr ⟨l, hget⟩)
    omega

/-- **Where nothing stands twice, an id is looked up in one place.** -/
theorem Placed.get_eq (h : Placed x) (hk : 1 ≤ k) : x.get k = x.look k := by
  unfold get look
  split
  · next hd =>
    rw [h.sparse_none (inDense_iff.mp hd).2, Option.or_none]
  · next hd =>
    rw [inDense_iff] at hd
    rw [List.getElem?_eq_none (by omega)]
    rfl

theorem Placed.get_zero (h : Placed x) : x.get 0 = none := by
  unfold get
  rw [if_neg (by simp [inDense])]
  exact h.sparse_none (Nat.zero_le _)

/-! ## 3. The list grown -/

theorem length_resize (n : Nat) : (x.resize n).dense.length = max x.dense.length n := by
  simp only [resize, List.length_append, List.length_replicate]
  omega

/-- The slots a list is grown by are empty. -/
theorem dense_resize (n i : Nat) : ((x.resize n).dense[i]?).join = (x.dense[i]?).join := by
  simp only [resize, List.getElem?_append]
  split
  · rfl
  · next hi =>
    rw [List.getElem?_eq_none (Nat.le_of_not_lt hi), List.getElem?_replicate]
    split <;> rfl

theorem look_resize (n k : Nat) : (x.resize n).look k = x.look k := by
  rw [look, dense_resize]
  rfl

theorem reach_spec {ks : List Nat} : ∀ end_ : Nat, ks.Pairwise (· < ·) →
    end_ ≤ (reach end_ ks).1 ∧ (∀ k ∈ ks.take (reach end_ ks).2, k ≤ (reach end_ ks).1) ∧
      ∀ k ∈ ks.drop (reach end_ ks).2, (reach end_ ks).1 < k := by
  induction ks with
  | nil => exact fun _ _ => ⟨Nat.le_refl _, by simp [reach], by simp [reach]⟩
  | cons k ks ih =>
    intro end_ hasc
    obtain ⟨hlt, hasc⟩ := List.pairwise_cons.mp hasc
    unfold reach
    split
    · next hgap =>
      -- too far: neither it nor any past it is reached
      refine ⟨Nat.le_refl _, by simp, fun j hj => ?_⟩
      rcases List.mem_cons.mp hj with rfl | hj
      · exact hgap.1
      · exact Nat.lt_trans hgap.1 (hlt j hj)
    · obtain ⟨hle, htaken, hrest⟩ := ih (max end_ k) hasc
      refine ⟨by omega, fun j hj => ?_, fun j hj => hrest j (by simpa using hj)⟩
      rw [List.take_succ_cons] at hj
      rcases List.mem_cons.mp hj with rfl | hj
      · show j ≤ (reach (max end_ j) ks).1
        omega
      · exact htaken j hj

/-- No id stands in both. -/
def Apart (x : IdIndex α) : Prop :=
  ∀ k ∈ x.sparse.keys, 1 ≤ k ∧ (x.dense[k - 1]?).join = none

theorem moveKey_spec (h : Apart x) (hk : k - 1 < x.dense.length) (hk1 : 1 ≤ k) :
    Apart (x.moveKey k) ∧ (∀ j, 1 ≤ j → (x.moveKey k).look j = x.look j) ∧
      (x.moveKey k).dense.length = x.dense.length ∧
      (∀ j, (x.moveKey k).sparse.get j = if j = k then none else x.sparse.get j) := by
  unfold moveKey
  cases hget : x.sparse.get k with
  | none =>
    refine ⟨h, fun _ _ => rfl, rfl, fun j => ?_⟩
    dsimp only
    split
    · next heq => rw [heq, hget]
    · rfl
  | some l =>
    dsimp only
    have hslot := (h k (OrdMap.mem_keys_iff.mpr ⟨l, hget⟩)).2
    have hother : ∀ j, 1 ≤ j → j ≠ k →
        ((x.dense.set (k - 1) (some l))[j - 1]?).join = (x.dense[j - 1]?).join := by
      intro j hj hne
      rw [List.getElem?_set_ne (by omega)]
    refine ⟨fun j hj => ?_, fun j hj => ?_, by simp, fun j => OrdMap.get_erase _ _ _⟩
    · obtain ⟨w, hw⟩ := OrdMap.mem_keys_iff.mp hj
      rw [OrdMap.get_erase] at hw
      split at hw
      · cases hw
      · next hne =>
        obtain ⟨hj1, hnone⟩ := h j (OrdMap.mem_keys_iff.mpr ⟨w, hw⟩)
        exact ⟨hj1, by rw [hother j hj1 hne]; exact hnone⟩
    · unfold look
      by_cases hne : j = k
      · subst hne
        rw [hslot, hget, List.getElem?_set_self hk]
        rfl
      · rw [hother j hj hne, OrdMap.get_erase, if_neg hne]

theorem foldl_moveKey {ks : List Nat} : ∀ {x : IdIndex α}, Apart x →
    (∀ k ∈ ks, 1 ≤ k ∧ k ≤ x.dense.length) →
    Apart (ks.foldl moveKey x) ∧ (∀ j, 1 ≤ j → (ks.foldl moveKey x).look j = x.look j) ∧
      (ks.foldl moveKey x).dense.length = x.dense.length ∧
      (∀ j, (ks.foldl moveKey x).sparse.get j = if j ∈ ks then none else x.sparse.get j) := by
  induction ks with
  | nil => exact fun h _ => ⟨h, fun _ _ => rfl, rfl, by simp⟩
  | cons k ks ih =>
    intro x h hks
    obtain ⟨hk1, hk⟩ := hks k (List.mem_cons_self ..)
    obtain ⟨hapart, hlook, hlen, hget⟩ := moveKey_spec h (by omega) hk1
    have hks' : ∀ j ∈ ks, 1 ≤ j ∧ j ≤ (x.moveKey k).dense.length := fun j hj => by
      rw [hlen]
      exact hks j (List.mem_cons_of_mem _ hj)
    obtain ⟨hapart', hlook', hlen', hget'⟩ := ih hapart hks'
    refine ⟨hapart', fun j hj => (hlook' j hj).trans (hlook j hj), hlen'.trans hlen, fun j => ?_⟩
    rw [List.foldl_cons, hget', hget]
    by_cases hj : j = k
    · simp [hj]
    · by_cases hjs : j ∈ ks <;> simp [hj, hjs]

/-- **Taking over changes where ids stand, and nothing else.** -/
theorem takeOverSparse_spec (h : Apart x) :
    Placed (x.takeOverSparse x.dense.length) ∧
      (∀ j, 1 ≤ j → (x.takeOverSparse x.dense.length).look j = x.look j) ∧
      x.dense.length ≤ (x.takeOverSparse x.dense.length).dense.length ∧
      (x.takeOverSparse x.dense.length).count = x.count := by
  obtain ⟨hle, htaken, hrest⟩ := reach_spec x.dense.length x.sparse.keys_ascending
  unfold takeOverSparse
  extract_lets keys end_ taken x₁ x₂
  have hlen₁ : x₁.dense.length = end_ := by
    show (if x.dense.length < end_ then x.resize end_ else x).dense.length = end_
    split
    · rw [length_resize]
      omega
    · change x.dense.length ≤ end_ at hle
      omega
  have hlook₁ : ∀ j, x₁.look j = x.look j := by
    intro j
    show (if x.dense.length < end_ then x.resize end_ else x).look j = _
    split
    · exact look_resize end_ j
    · rfl
  have hsparse₁ : x₁.sparse = x.sparse := by
    show (if x.dense.length < end_ then x.resize end_ else x).sparse = _
    split <;> rfl
  have hapart₁ : Apart x₁ := by
    intro k hk
    rw [hsparse₁] at hk
    obtain ⟨hk1, hnone⟩ := h k hk
    refine ⟨hk1, ?_⟩
    show ((if x.dense.length < end_ then x.resize end_ else x).dense[k - 1]?).join = none
    split
    · rw [dense_resize]
      exact hnone
    · exact hnone
  have hkeys : ∀ k ∈ keys.take taken, 1 ≤ k ∧ k ≤ x₁.dense.length := fun k hk => by
    rw [hlen₁]
    exact ⟨(h k (List.mem_of_mem_take hk)).1, htaken k hk⟩
  obtain ⟨-, hlook₂, hlen₂, hget₂⟩ := foldl_moveKey hapart₁ hkeys
  -- what is left in the map is what was not reached
  have hleft : ∀ k ∈ x₂.sparse.keys, k ∈ keys.drop taken := by
    intro k hk
    obtain ⟨w, hw⟩ := OrdMap.mem_keys_iff.mp hk
    rw [show x₂.sparse.get k = _ from hget₂ k] at hw
    split at hw
    · cases hw
    · next hnot =>
      rw [hsparse₁] at hw
      have hmem : k ∈ keys := OrdMap.mem_keys_iff.mpr ⟨w, hw⟩
      rw [← List.take_append_drop taken keys] at hmem
      exact (List.mem_append.mp hmem).resolve_left hnot
  have hcount : x₂.count = x.count := by
    have hfold : ∀ (ks : List Nat) (y : IdIndex α), (ks.foldl moveKey y).count = y.count := by
      intro ks
      induction ks with
      | nil => exact fun _ => rfl
      | cons k ks ih =>
        intro y
        rw [List.foldl_cons, ih]
        unfold moveKey
        split <;> rfl
    show (List.foldl moveKey x₁ (keys.take taken)).count = _
    rw [hfold]
    show (if x.dense.length < end_ then x.resize end_ else x).count = _
    split <;> rfl
  refine ⟨⟨fun k hk => ?_, fun k hk => ?_⟩, fun j hj => ?_, ?_, hcount⟩
  · show x₂.dense.length < k
    rw [show x₂.dense.length = _ from hlen₂, hlen₁]
    exact hrest k (hleft k hk)
  · -- the least of what is left
    show (keys[taken]?).getD (2 ^ 64 - 1) ≤ k
    have hmem := hleft k hk
    cases hfirst : keys[taken]? with
    | none =>
      rw [List.drop_eq_nil_of_le (List.getElem?_eq_none_iff.mp hfirst)] at hmem
      cases hmem
    | some m =>
      obtain ⟨hlt, hm⟩ := List.getElem?_eq_some_iff.mp hfirst
      rw [List.drop_eq_getElem_cons hlt, hm] at hmem
      rcases List.mem_cons.mp hmem with rfl | hmem
      · exact Nat.le_refl _
      · have hasc : (keys.drop taken).Pairwise (· < ·) := x.sparse.keys_ascending.drop
        rw [List.drop_eq_getElem_cons hlt, hm] at hasc
        exact Nat.le_of_lt ((List.pairwise_cons.mp hasc).1 k hmem)
  · show x₂.look j = _
    rw [show x₂.look j = _ from hlook₂ j hj, hlook₁]
  · show _ ≤ x₂.dense.length
    rw [show x₂.dense.length = _ from hlen₂, hlen₁]
    exact hle

/-! ## 4. A map -/

theorem look_setSlot (hid : 1 ≤ id) (hlen : id ≤ x.dense.length) (hk : 1 ≤ k) :
    (x.setSlot id loc).look k = if k = id then some loc else x.look k := by
  unfold look setSlot
  dsimp only
  by_cases heq : k = id
  · subst heq
    rw [if_pos rfl, List.getElem?_set_self (by omega)]
    rfl
  · rw [if_neg heq, List.getElem?_set_ne (by omega)]

theorem Placed.setSlot (h : Placed x) : Placed (x.setSlot id loc) :=
  ⟨fun k hk => by rw [IdIndex.setSlot, List.length_set]; exact h.past k hk, h.floor⟩

/-- **The list grown up to an id**: what stands where is as it was. -/
theorem grown_spec (h : Placed x) (hid : x.dense.length < id) :
    ∃ y : IdIndex α, (if (x.resize id).sparseFloor ≤ id then (x.resize id).takeOverSparse id
        else x.resize id) = y ∧
      Placed y ∧ (∀ j, 1 ≤ j → y.look j = x.look j) ∧ id ≤ y.dense.length ∧ y.count = x.count := by
  have hlen : (x.resize id).dense.length = id := by
    rw [length_resize]
    omega
  have hapart : Apart (x.resize id) := by
    intro k hk
    have hpast := h.past k hk
    refine ⟨by omega, ?_⟩
    rw [dense_resize, List.getElem?_eq_none (by omega)]
    rfl
  refine ⟨_, rfl, ?_⟩
  split
  · obtain ⟨hplaced, hlook, hle, hcount⟩ := takeOverSparse_spec hapart
    rw [hlen] at hplaced hlook hle hcount
    exact ⟨hplaced, fun j hj => (hlook j hj).trans (look_resize id j), hle, hcount⟩
  · next hfloor =>
    refine ⟨⟨fun k hk => ?_, h.floor⟩, fun j _ => look_resize id j, hlen.ge, rfl⟩
    have hk' := h.floor k hk
    change ¬ x.sparseFloor ≤ id at hfloor
    omega

theorem sparse_insert_floor (h : Placed x) {k : Nat} (hk : k ∈ (x.sparse.insert id loc).keys) :
    (if x.sparse.entries.isEmpty || id < x.sparseFloor then id else x.sparseFloor) ≤ k := by
  obtain ⟨w, hw⟩ := OrdMap.mem_keys_iff.mp hk
  rw [OrdMap.get_insert] at hw
  split at hw
  · next heq =>
    subst heq
    split
    · exact Nat.le_refl _
    · next hfloor =>
      simp only [Bool.or_eq_true, decide_eq_true_eq, not_or] at hfloor
      omega
  · have hmem : k ∈ x.sparse.keys := OrdMap.mem_keys_iff.mpr ⟨w, hw⟩
    have hle := h.floor k hmem
    split
    · next hfloor =>
      rcases Bool.or_eq_true_iff.mp hfloor with hempty | hlt
      · rw [OrdMap.keys, List.isEmpty_iff.mp hempty] at hmem
        cases hmem
      · have := of_decide_eq_true hlt
        omega
    · exact hle

/-- **`insert` keeps each id in one place, and the floor below the map.** -/
theorem placed_insert (h : Placed x) (hid : 1 ≤ id) : Placed (x.insert id loc) := by
  unfold insert
  split
  · exact h.setSlot
  · next hd =>
    rw [inDense_iff] at hd
    split
    · obtain ⟨y, hy, hplaced, -⟩ := grown_spec h (show x.dense.length < id by omega)
      dsimp only
      rw [hy]
      exact hplaced.setSlot
    · refine ⟨fun k hk => ?_, fun k hk => sparse_insert_floor h hk⟩
      obtain ⟨w, hw⟩ := OrdMap.mem_keys_iff.mp hk
      rw [OrdMap.get_insert] at hw
      split at hw
      · next heq =>
        subst heq
        show x.dense.length < k
        omega
      · exact h.past k (OrdMap.mem_keys_iff.mpr ⟨w, hw⟩)

theorem look_insert (h : Placed x) (hid : 1 ≤ id) (hk : 1 ≤ k) :
    (x.insert id loc).look k = if k = id then some loc else x.look k := by
  unfold insert
  split
  · next hd => exact look_setSlot hid (inDense_iff.mp hd).2 hk
  · next hd =>
    rw [inDense_iff] at hd
    split
    · obtain ⟨y, hy, -, hlook, hlen, -⟩ := grown_spec h (show x.dense.length < id by omega)
      dsimp only
      rw [hy, look_setSlot hid hlen hk, hlook k hk]
    · unfold look
      dsimp only
      rw [OrdMap.get_insert]
      split
      · next heq =>
        rw [heq, List.getElem?_eq_none (by omega)]
        rfl
      · rfl

/-- **`get` after `insert`.** -/
theorem get_insert (h : Placed x) (hid : 1 ≤ id) (k : Nat) :
    (x.insert id loc).get k = if k = id then some loc else x.get k := by
  rcases Nat.eq_zero_or_pos k with rfl | hk
  · rw [(placed_insert h hid).get_zero, if_neg (by omega), h.get_zero]
  · rw [(placed_insert h hid).get_eq hk, look_insert h hid hk, h.get_eq hk]

theorem placed_remove (h : Placed x) (id : Nat) : Placed (x.remove id) := by
  have herase : ∀ k, k ∈ (x.sparse.erase id).keys → k ∈ x.sparse.keys := by
    intro k hk
    obtain ⟨w, hw⟩ := OrdMap.mem_keys_iff.mp hk
    rw [OrdMap.get_erase] at hw
    split at hw
    · cases hw
    · exact OrdMap.mem_keys_iff.mpr ⟨w, hw⟩
  unfold remove
  split
  · split
    · exact h
    · exact ⟨fun k hk => by rw [List.length_set]; exact h.past k hk, h.floor⟩
  · exact ⟨fun k hk => h.past k (herase k hk), fun k hk => h.floor k (herase k hk)⟩

/-- **`get` after `remove`.** -/
theorem get_remove (id k : Nat) :
    (x.remove id).get k = if k = id then none else x.get k := by
  unfold remove
  split
  · next hd =>
    obtain ⟨hid, hlen⟩ := inDense_iff.mp hd
    split
    · next hnone =>
      split
      · next heq =>
        rw [heq, get, if_pos hd]
        exact Option.isNone_iff_eq_none.mp hnone
      · rfl
    · unfold get inDense
      dsimp only
      rw [List.length_set]
      by_cases heq : k = id
      · subst heq
        change (if x.inDense k then _ else _) = _
        rw [if_pos hd, if_pos rfl, List.getElem?_set_self (by omega)]
        rfl
      · rw [if_neg heq]
        split
        · next hk =>
          have hk' : 1 ≤ k ∧ k ≤ x.dense.length := by simpa using hk
          rw [List.getElem?_set_ne (by omega)]
        · rfl
  · next hd =>
    unfold get
    dsimp only
    rw [OrdMap.get_erase]
    change (if x.inDense k then _ else _) = _
    split
    · next hk =>
      rw [if_neg]
      rintro rfl
      exact hd hk
    · rfl

/-! ## 5. Its keys -/

theorem mem_denseIds {l : List (Option α)} : ∀ {m : Nat},
    k ∈ denseIds m l ↔ m ≤ k ∧ ∃ v, (l[k - m]?).join = some v := by
  induction l with
  | nil => simp [denseIds]
  | cons a l ih =>
    intro m
    have hcons : ∀ {m}, (∃ v, ((a :: l)[k - m]?).join = some v) ∧ m ≤ k ↔
        (k = m ∧ a.isSome) ∨ (m + 1 ≤ k ∧ ∃ v, (l[k - (m + 1)]?).join = some v) := by
      intro m
      rcases Nat.lt_trichotomy k m with hlt | rfl | hgt
      · constructor
        · omega
        · omega
      · rw [Nat.sub_self]
        cases a <;> simp
      · rw [show k - m = (k - (m + 1)) + 1 by omega, List.getElem?_cons_succ]
        constructor
        · rintro ⟨hv, -⟩
          exact .inr ⟨hgt, hv⟩
        · rintro (⟨rfl, -⟩ | ⟨-, hv⟩)
          · omega
          · exact ⟨hv, Nat.le_of_lt hgt⟩
    rw [and_comm, hcons]
    cases a with
    | none => simp [denseIds, ih]
    | some v => simp [denseIds, ih]

theorem denseIds_ascending {l : List (Option α)} : ∀ {m : Nat}, (denseIds m l).Pairwise (· < ·) := by
  induction l with
  | nil => exact List.Pairwise.nil
  | cons a l ih =>
    intro m
    cases a with
    | none => exact ih
    | some v =>
      refine List.pairwise_cons.mpr ⟨fun j hj => ?_, ih⟩
      exact (mem_denseIds.mp hj).1

theorem le_of_mem_denseIds {l : List (Option α)} {m : Nat} (h : k ∈ denseIds m l) :
    k < m + l.length := by
  obtain ⟨hle, v, hv⟩ := mem_denseIds.mp h
  by_contra hlt
  rw [List.getElem?_eq_none (by omega)] at hv
  cases hv

/-- **`ids` are the keys, ascending.** -/
theorem Placed.mem_ids (h : Placed x) : k ∈ x.ids ↔ ∃ v, x.get k = some v := by
  unfold ids get
  rw [List.mem_append, mem_denseIds, OrdMap.mem_keys_iff]
  split
  · next hd =>
    obtain ⟨hk, hlen⟩ := inDense_iff.mp hd
    rw [h.sparse_none hlen]
    simp [hk]
  · next hd =>
    rw [inDense_iff] at hd
    constructor
    · rintro (⟨hk, v, hv⟩ | hs)
      · rw [List.getElem?_eq_none (by omega)] at hv
        cases hv
      · exact hs
    · exact .inr

theorem Placed.ids_ascending (h : Placed x) : x.ids.Pairwise (· < ·) := by
  refine List.pairwise_append.mpr ⟨denseIds_ascending, x.sparse.keys_ascending, fun a ha b hb => ?_⟩
  have hlt := le_of_mem_denseIds ha
  have hpast := h.past b hb
  omega

theorem Placed.ids_nodup (h : Placed x) : x.ids.Nodup := h.ids_ascending.imp Nat.ne_of_lt

/-- **An index in order**: each id in one place, and as many as it counts. -/
structure Good (x : IdIndex α) : Prop extends Placed x where
  counted : x.count = x.ids.length

theorem good_empty : Good (empty : IdIndex α) :=
  ⟨⟨by simp [empty, OrdMap.keys, OrdMap.empty], by simp [empty, OrdMap.keys, OrdMap.empty]⟩, rfl⟩

/-- Two lists of distinct ids, the second with one more that may be new. -/
theorem length_of_insert {l l' : List Nat} (hl : l.Nodup) (hl' : l'.Nodup)
    (h : ∀ k, k ∈ l' ↔ k = id ∨ k ∈ l) :
    l'.length = if id ∈ l then l.length else l.length + 1 := by
  have hset : l'.toFinset = Insert.insert id l.toFinset := by
    ext k
    simp [h]
  rw [← List.toFinset_card_of_nodup hl', ← List.toFinset_card_of_nodup hl, hset]
  split
  · next hmem => rw [Finset.insert_eq_of_mem (by simpa using hmem)]
  · next hmem => rw [Finset.card_insert_of_notMem (by simpa using hmem)]

theorem count_insert (h : Placed x) (hid : 1 ≤ id) :
    (x.insert id loc).count = if (x.get id).isNone then x.count + 1 else x.count := by
  unfold insert
  split
  · next hd => rw [get, if_pos hd, setSlot]
  · next hd =>
    have hd' := hd
    rw [inDense_iff] at hd'
    split
    · obtain ⟨y, hy, hplaced, hlook, hlen, hcount⟩ := grown_spec h (show x.dense.length < id by omega)
      have hslot : (y.dense[id - 1]?).join = x.get id := by
        rw [h.get_eq hid, ← hlook id hid, look, hplaced.sparse_none hlen, Option.or_none]
      dsimp only
      rw [hy, setSlot, hslot, hcount]
    · rw [get, if_neg hd]

/-- **`insert` counts what it adds.** -/
theorem good_insert (h : Good x) (hid : 1 ≤ id) : Good (x.insert id loc) := by
  have hplaced : Placed (x.insert id loc) := placed_insert h.toPlaced hid
  refine ⟨hplaced, ?_⟩
  have hmem : ∀ k, k ∈ (x.insert id loc).ids ↔ k = id ∨ k ∈ x.ids := by
    intro k
    rw [hplaced.mem_ids, h.mem_ids, get_insert h.toPlaced hid]
    by_cases heq : k = id <;> simp [heq]
  rw [count_insert h.toPlaced hid, length_of_insert h.ids_nodup hplaced.ids_nodup hmem, h.counted]
  have hin : id ∈ x.ids ↔ ¬ (x.get id).isNone = true := by
    rw [h.mem_ids]
    cases x.get id <;> simp
  by_cases hnone : (x.get id).isNone = true
  · rw [if_pos hnone, if_neg (fun hm => hin.mp hm hnone)]
  · rw [if_neg hnone, if_pos (hin.mpr hnone)]

/-- **`remove` counts what it takes out.** -/
theorem good_remove (h : Good x) (id : Nat) : Good (x.remove id) := by
  have hplaced := placed_remove h.toPlaced id
  refine ⟨hplaced, ?_⟩
  have hcount : (x.remove id).count = if (x.get id).isSome then x.count - 1 else x.count := by
    unfold remove get
    split
    · next hd =>
      cases hslot : (x.dense[id - 1]?).join <;> simp
    · rfl
  have hmem : ∀ k, k ∈ (x.remove id).ids ↔ k ≠ id ∧ k ∈ x.ids := by
    intro k
    rw [hplaced.mem_ids, h.mem_ids, get_remove]
    by_cases heq : k = id <;> simp [heq]
  rw [hcount, h.counted]
  cases hget : x.get id with
  | none =>
    have hnot : id ∉ x.ids := fun hm => by
      obtain ⟨v, hv⟩ := h.mem_ids.mp hm
      rw [hget] at hv
      cases hv
    have hperm : (x.remove id).ids.Perm x.ids := by
      rw [List.perm_ext_iff_of_nodup hplaced.ids_nodup h.ids_nodup]
      intro k
      rw [hmem]
      refine ⟨fun hk => hk.2, fun hk => ⟨?_, hk⟩⟩
      rintro rfl
      exact hnot hk
    simpa using hperm.length_eq.symm
  | some v =>
    have hin : id ∈ x.ids := h.mem_ids.mpr ⟨v, hget⟩
    have hadd : ∀ k, k ∈ x.ids ↔ k = id ∨ k ∈ (x.remove id).ids := by
      intro k
      rw [hmem]
      by_cases heq : k = id
      · simp [heq, hin]
      · simp [heq]
    have hback := length_of_insert hplaced.ids_nodup h.ids_nodup hadd
    rw [if_neg (fun hm => ((hmem id).mp hm).1 rfl)] at hback
    simp only [Option.isSome_some, if_true]
    omega

/-! ## 6. Its entries in order -/

/-- The full slots of the list with their ids, its first slot being `from_`. -/
def densePairs : Nat → List (Option α) → List (Nat × α)
  | _, [] => []
  | from_, some v :: rest => (from_, v) :: densePairs (from_ + 1) rest
  | from_, none :: rest => densePairs (from_ + 1) rest

/-- The ids and their locations, in `iter`'s order. -/
def pairs (x : IdIndex α) : List (Nat × α) := densePairs 1 x.dense ++ x.sparse.entries

/-- Each location replaced by what `f` makes of it, one after another. -/
def relocatePairs {σ : Type} (f : σ → Nat → α → α × σ) : List (Nat × α) → σ → List (Nat × α) × σ
  | [], st => ([], st)
  | (k, v) :: rest, st =>
    ((k, (f st k v).1) :: (relocatePairs f rest (f st k v).2).1,
      (relocatePairs f rest (f st k v).2).2)

/-- The same of the list's slots. -/
def relocateDense {σ : Type} (f : σ → Nat → α → α × σ) :
    Nat → List (Option α) → σ → List (Option α) × σ
  | _, [], st => ([], st)
  | from_, none :: rest, st =>
    (none :: (relocateDense f (from_ + 1) rest st).1, (relocateDense f (from_ + 1) rest st).2)
  | from_, some v :: rest, st =>
    (some (f st from_ v).1 :: (relocateDense f (from_ + 1) rest (f st from_ v).2).1,
      (relocateDense f (from_ + 1) rest (f st from_ v).2).2)

section Relocate

variable {σ : Type} {f : σ → Nat → α → α × σ}

theorem keys_relocatePairs (l : List (Nat × α)) (st : σ) :
    (relocatePairs f l st).1.map (·.1) = l.map (·.1) := by
  induction l generalizing st with
  | nil => rfl
  | cons e l ih =>
    obtain ⟨k, v⟩ := e
    rw [relocatePairs, List.map_cons, List.map_cons, ih]

/-- **`IdIndex::relocate`**, with what `f` carries along. -/
def relocate (x : IdIndex α) (f : σ → Nat → α → α × σ) (st : σ) : IdIndex α × σ :=
  let d := relocateDense f 1 x.dense st
  ({ x with
      dense := d.1
      sparse := ⟨(relocatePairs f x.sparse.entries d.2).1, by
        have hkeys := x.sparse.keys_ascending
        rw [OrdMap.keys, ← keys_relocatePairs (f := f) x.sparse.entries d.2, List.pairwise_map] at hkeys
        exact hkeys⟩ },
    (relocatePairs f x.sparse.entries d.2).2)

theorem map_densePairs (l : List (Option α)) (m : Nat) :
    (densePairs m l).map (·.1) = denseIds m l := by
  induction l generalizing m with
  | nil => rfl
  | cons a l ih =>
    cases a with
    | none => exact ih (m + 1)
    | some v => rw [densePairs, denseIds, List.map_cons, ih]

theorem map_pairs (x : IdIndex α) : x.pairs.map (·.1) = x.ids := by
  rw [pairs, List.map_append, map_densePairs, ids, OrdMap.keys]

theorem mem_densePairs {l : List (Option α)} {v : α} : ∀ {m : Nat},
    (k, v) ∈ densePairs m l ↔ m ≤ k ∧ (l[k - m]?).join = some v := by
  induction l with
  | nil => simp [densePairs]
  | cons a l ih =>
    intro m
    have hsucc : m + 1 ≤ k → (a :: l)[k - m]? = l[k - (m + 1)]? := by
      intro hle
      rw [show k - m = (k - (m + 1)) + 1 by omega, List.getElem?_cons_succ]
    rcases Nat.lt_trichotomy k m with hlt | rfl | hgt
    · have hno : (k, v) ∉ densePairs (m + 1) l := fun h => by
        have := (ih.mp h).1
        omega
      cases a with
      | none =>
        rw [densePairs]
        exact ⟨fun h => absurd h hno, fun h => absurd h.1 (by omega)⟩
      | some w =>
        rw [densePairs, List.mem_cons, Prod.mk.injEq]
        constructor
        · rintro (⟨rfl, -⟩ | h)
          · omega
          · exact absurd h hno
        · intro h
          exact absurd h.1 (by omega)
    · have hno : (k, v) ∉ densePairs (k + 1) l := fun h => by
        have := (ih.mp h).1
        omega
      cases a with
      | none => simp [densePairs, hno]
      | some w => simp [densePairs, hno, eq_comm]
    · rw [hsucc hgt]
      cases a with
      | none =>
        rw [densePairs, ih]
        exact ⟨fun h => ⟨by omega, h.2⟩, fun h => ⟨hgt, h.2⟩⟩
      | some w =>
        rw [densePairs, List.mem_cons, ih, Prod.mk.injEq]
        constructor
        · rintro (⟨rfl, -⟩ | h)
          · omega
          · exact ⟨by omega, h.2⟩
        · exact fun h => .inr ⟨hgt, h.2⟩

/-- **The entries are what the index answers.** -/
theorem Placed.mem_pairs (h : Placed x) {v : α} : (k, v) ∈ x.pairs ↔ x.get k = some v := by
  unfold pairs get
  rw [List.mem_append, mem_densePairs, OrdMap.mem_entries_iff]
  split
  · next hd =>
    obtain ⟨hk, hlen⟩ := inDense_iff.mp hd
    rw [h.sparse_none hlen]
    simp [hk]
  · next hd =>
    rw [inDense_iff] at hd
    constructor
    · rintro (⟨hk, hv⟩ | hs)
      · rw [List.getElem?_eq_none (by omega)] at hv
        cases hv
      · exact hs
    · exact .inr

theorem relocatePairs_append (a b : List (Nat × α)) (st : σ) :
    relocatePairs f (a ++ b) st =
      ((relocatePairs f a st).1 ++ (relocatePairs f b (relocatePairs f a st).2).1,
        (relocatePairs f b (relocatePairs f a st).2).2) := by
  induction a generalizing st with
  | nil => rfl
  | cons e a ih =>
    obtain ⟨k, v⟩ := e
    rw [List.cons_append, relocatePairs, relocatePairs, ih]
    rfl

theorem relocateDense_spec (l : List (Option α)) : ∀ (m : Nat) (st : σ),
    densePairs m (relocateDense f m l st).1 = (relocatePairs f (densePairs m l) st).1 ∧
      (relocateDense f m l st).2 = (relocatePairs f (densePairs m l) st).2 ∧
      (relocateDense f m l st).1.length = l.length := by
  induction l with
  | nil => exact fun _ _ => ⟨rfl, rfl, rfl⟩
  | cons a l ih =>
    intro m st
    cases a with
    | none =>
      obtain ⟨hpairs, hst, hlen⟩ := ih (m + 1) st
      refine ⟨hpairs, hst, ?_⟩
      rw [relocateDense, List.length_cons, hlen, List.length_cons]
    | some v =>
      obtain ⟨hpairs, hst, hlen⟩ := ih (m + 1) (f st m v).2
      refine ⟨?_, hst, ?_⟩
      · rw [relocateDense, densePairs, hpairs]
        rfl
      · rw [relocateDense, List.length_cons, hlen, List.length_cons]

/-- **Relocating an index relocates its entries in order.** -/
theorem pairs_relocate (x : IdIndex α) (st : σ) :
    (x.relocate f st).1.pairs = (relocatePairs f x.pairs st).1 ∧
      (x.relocate f st).2 = (relocatePairs f x.pairs st).2 := by
  obtain ⟨hpairs, hst, -⟩ := relocateDense_spec (f := f) x.dense 1 st
  rw [pairs, pairs, relocatePairs_append, ← hpairs, ← hst]
  exact ⟨rfl, rfl⟩

theorem good_relocate (h : Good x) (st : σ) : Good (x.relocate f st).1 := by
  obtain ⟨-, -, hlen⟩ := relocateDense_spec (f := f) x.dense 1 st
  have hkeys : (x.relocate f st).1.sparse.keys = x.sparse.keys := keys_relocatePairs _ _
  have hdense : (x.relocate f st).1.dense.length = x.dense.length := hlen
  refine ⟨⟨?_, ?_⟩, ?_⟩
  · rw [hkeys, hdense]
    exact h.past
  · rw [hkeys]
    exact h.floor
  · have hids : (x.relocate f st).1.ids = x.ids := by
      rw [← map_pairs, (pairs_relocate x st).1, keys_relocatePairs, map_pairs]
    rw [hids]
    exact h.counted

end Relocate

/-! ## 7. Ids in ascending order -/

/-- **`IdIndex::push_above`.** -/
def pushAbove (x : IdIndex α) (id : Nat) (loc : α) : IdIndex α :=
  if id = x.dense.length + 1 ∧ x.sparse.entries.isEmpty = true then
    { x with dense := x.dense ++ [some loc], count := x.count + 1 }
  else x.insert id loc

/-- An id past the list's end laid at its place, the slots up to it empty. -/
def laid (x : IdIndex α) (id : Nat) (loc : α) : IdIndex α :=
  { x with
    dense := x.dense ++ List.replicate (id - x.dense.length - 1) none ++ [some loc]
    count := x.count + 1 }

/-- **Indexes with the same ids have them in the same order, and count them alike.** -/
theorem Good.ids_eq {y : IdIndex α} (hx : Good x) (hy : Good y) (h : ∀ k, k ∈ x.ids ↔ k ∈ y.ids) :
    x.ids = y.ids ∧ x.count = y.count := by
  have hids : x.ids = y.ids := by
    refine List.Perm.eq_of_pairwise ?_ hx.ids_ascending hy.ids_ascending ?_
    · intro a b _ _ hab hba
      exact absurd (Nat.lt_trans hab hba) (Nat.lt_irrefl _)
    · exact (List.perm_ext_iff_of_nodup hx.ids_nodup hy.ids_nodup).mpr h
  exact ⟨hids, by rw [hx.counted, hy.counted, hids]⟩

/-- An index that has one id more, new to it. -/
theorem good_of_get {y : IdIndex α} (hx : Good x) (hy : Placed y)
    (hget : ∀ k, y.get k = if k = id then some loc else x.get k) (hnew : x.get id = none)
    (hcount : y.count = x.count + 1) : Good y := by
  refine ⟨hy, ?_⟩
  have hmem : ∀ k, k ∈ y.ids ↔ k = id ∨ k ∈ x.ids := by
    intro k
    rw [hy.mem_ids, hx.mem_ids, hget]
    by_cases heq : k = id <;> simp [heq]
  have hout : id ∉ x.ids := fun hin => by
    obtain ⟨v, hv⟩ := hx.mem_ids.mp hin
    rw [hnew] at hv
    cases hv
  rw [length_of_insert hx.ids_nodup hy.ids_nodup hmem, if_neg hout, hcount, hx.counted]

/-- **An id laid past the end of an index that is all list.** -/
theorem laid_spec (h : Good x) (hlist : x.sparse.entries = []) (hid : x.dense.length < id) :
    Good (x.laid id loc) ∧ (x.laid id loc).dense.length = id ∧
      ∀ k, (x.laid id loc).get k = if k = id then some loc else x.get k := by
  have hkeys : x.sparse.keys = [] := by rw [OrdMap.keys, hlist, List.map_nil]
  have hnone : ∀ k, x.sparse.get k = none := by
    intro k
    rw [OrdMap.get, hlist]
    rfl
  have hlen : (x.laid id loc).dense.length = id := by
    rw [laid]
    simp only [List.length_append, List.length_replicate, List.length_singleton]
    omega
  have hget : ∀ k, (x.laid id loc).get k = if k = id then some loc else x.get k := by
    intro k
    rw [get, get]
    by_cases hk : x.inDense k = true
    · -- in the list as it was
      obtain ⟨hpos, hle⟩ := inDense_iff.mp hk
      rw [if_pos (inDense_iff.mpr ⟨hpos, by omega⟩), if_pos hk, if_neg (by omega), laid]
      dsimp only
      rw [List.append_assoc, List.getElem?_append_left (by omega)]
    · rw [if_neg hk, hnone]
      rw [inDense_iff] at hk
      by_cases hin : (x.laid id loc).inDense k = true
      · obtain ⟨hpos, hle⟩ := inDense_iff.mp hin
        rw [if_pos hin, laid]
        dsimp only
        rw [hlen] at hle
        by_cases heq : k = id
        · rw [if_pos heq, List.getElem?_append_right (by simp; omega),
            List.length_append, List.length_replicate,
            show k - 1 - (x.dense.length + (id - x.dense.length - 1)) = 0 by omega]
          rfl
        · rw [if_neg heq, List.append_assoc, List.getElem?_append_right (by omega),
            List.getElem?_append_left (by rw [List.length_replicate]; omega),
            List.getElem?_replicate, if_pos (by omega)]
          rfl
      · rw [if_neg hin, if_neg]
        · exact hnone k
        · rintro rfl
          exact hin (inDense_iff.mpr ⟨by omega, by omega⟩)
  refine ⟨good_of_get h ⟨?_, ?_⟩ hget ?_ rfl, hlen, hget⟩
  · intro k hk
    rw [show (x.laid id loc).sparse = x.sparse from rfl, hkeys] at hk
    cases hk
  · intro k hk
    rw [show (x.laid id loc).sparse = x.sparse from rfl, hkeys] at hk
    cases hk
  · rw [get, if_neg (by rw [inDense_iff]; omega), hnone]

/-- **An id pushed above every other is put as any is.** -/
theorem pushAbove_spec (h : Good x) (hid : 1 ≤ id) : Good (x.pushAbove id loc) ∧
    ∀ k, (x.pushAbove id loc).get k = if k = id then some loc else x.get k := by
  rw [pushAbove]
  split
  · next hnext =>
    have hlaid : ({ x with dense := x.dense ++ [some loc], count := x.count + 1 } : IdIndex α) =
        x.laid id loc := by
      rw [laid, hnext.1]
      simp
    rw [hlaid]
    obtain ⟨hgood, -, hget⟩ := laid_spec h (List.isEmpty_iff.mp hnext.2)
      (show x.dense.length < id by omega)
    exact ⟨hgood, hget⟩
  · exact ⟨good_insert h hid, get_insert h.toPlaced hid⟩

end IdIndex

end Segments

end Fenec
