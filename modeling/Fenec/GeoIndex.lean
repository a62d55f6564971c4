/-
# The point index

The index is a sorted set of every point's key with its row's id.  A run of writes that takes out
what was put in leaves it the keys of the rows' points (`Indexed`, `indexed_run`).

A cell of a level is a range of keys, and the cells of a level part all keys; so a walk over the
cells of a cover meets every key of the rectangle once (`cover_perm`).  `candidates` gives up only
where more are met than it may name, and names otherwise the rows whose keys the rectangles hold
(`Indexed.candidates`): by the laws of the sphere, every row with its point in the shape.
-/
import Fenec.Changes
import Fenec.GeoShapes
import Fenec.Sparse
import Mathlib.Data.Prod.Lex

namespace Fenec.Geo

open Lib

/-! ## 1. Keys with ids -/

/-- A key and the row whose point it is of. -/
abbrev Entry : Type := Nat ×ₗ DocId

/-- `GeoIndex`. -/
structure GeoIndex where
  keys : Chunked Entry

/-- The entry of a row's point. -/
def entryOf (id : DocId) (p : Point) : Entry := toLex (key p, id)

/-- `entry`: what the index holds of a row's value, nothing where it is no point. -/
def entry (id : DocId) (v : Option Value) : Option Entry := (v.bind pointIn).map (entryOf id)

namespace GeoIndex

/-- `GeoIndex::new`. -/
def new : GeoIndex := ⟨.new⟩

/-- `GeoIndex::build`. -/
def build (rows : List (DocId × Point)) : GeoIndex :=
  ⟨.fromSorted ((rows.map fun r => entryOf r.1 r.2).mergeSort fun a b => (compare a b).isLE)⟩

/-- `GeoIndex::insert`. -/
def insert (ix : GeoIndex) (id : DocId) (v : Option Value) : Option GeoIndex :=
  match entry id v with
  | none => some ix
  | some e => (ix.keys.insert compare e).map fun k => ⟨k.1⟩

/-- `GeoIndex::remove`. -/
def remove (ix : GeoIndex) (id : DocId) (v : Option Value) : Option GeoIndex :=
  match entry id v with
  | none => some ix
  | some e => (ix.keys.remove compare e).map fun k => ⟨k.1⟩

/-- The entries with keys from the first to the last. -/
def range (ix : GeoIndex) (c : Nat × Nat) : Option (List Entry) :=
  ix.keys.range compare (.included (toLex (c.1, 0))) (.included (toLex (c.2, Near.docMax)))

/-- How many entries have keys from the first to the last. -/
def count (ix : GeoIndex) (c : Nat × Nat) : Option Nat :=
  if c.2 + 1 < 2 ^ 64 then ix.keys.count compare (toLex (c.1, 0)) (toLex (c.2 + 1, 0))
  else ix.keys.count compare (toLex (c.1, 0)) (toLex (2 ^ 64 - 1, Near.docMax))

/-- The entries of a range that a rectangle holds, met until there are more than may be named. -/
def meet (r : Rect) (cap : Nat) (out : List DocId) : List Entry → Option (List DocId)
  | [] => some out
  | e :: rest =>
    if r.holds (ofLex e).1 then
      if cap ≤ out.length then none else meet r cap (out ++ [(ofLex e).2]) rest
    else meet r cap out rest

/-- The cells walked, one after another; the inner `none` is the walk given up. -/
def walk (ix : GeoIndex) (cap : Nat) (out : List DocId) :
    List (Rect × (Nat × Nat)) → Option (Option (List DocId))
  | [] => some (some out)
  | (r, cell) :: rest => do
    match meet r cap out (← ix.range cell) with
    | none => pure none
    | some out => ix.walk cap out rest

/-- **`candidates`**: the rows with keys in the rectangles of a shape, or nothing where more than
`cap` were met. -/
def candidates (ix : GeoIndex) (T : Trig) (shape : Shape) (cap : Nat) :
    Option (Option (List DocId)) := do
  let cells := (T.rects shape).flatMap fun r => (cover r).map fun cell => (r, cell)
  let met ← ix.walk cap [] cells
  pure (met.map Changes.sortDedup)

end GeoIndex

/-! ## 2. Ranges and counts -/

instance : Std.LawfulEqCmp (compare : Entry → Entry → Ordering) where
  eq_of_compare h := compare_eq_iff_eq.mp h

/-- Whether a key lies in a range. -/
def inRange (c : Nat × Nat) (k : Nat) : Bool := decide (c.1 ≤ k) && decide (k ≤ c.2)

section Ranges

variable {ix : GeoIndex} {c : Nat × Nat}

/-- The entries from `(lo, 0)` on are those with a key from `lo` on. -/
theorem above_iff {e : Entry} {lo : Nat} :
    Bound.above compare (.included (toLex (lo, 0))) e = true ↔ lo ≤ (ofLex e).1 := by
  unfold Bound.above
  rw [bne_iff_ne, ne_eq, compare_lt_iff_lt, not_lt, Prod.Lex.le_iff]
  constructor
  · rintro (h | ⟨h, -⟩)
    · exact Nat.le_of_lt h
    · exact Nat.le_of_eq h
  · intro h
    rcases Nat.lt_or_eq_of_le h with h | h
    · exact .inl h
    · exact .inr ⟨h, Nat.zero_le _⟩

/-- **What a range is**: the entries with a key in it, in order. -/
theorem GeoIndex.range_eq (hgood : ix.keys.Good compare)
    (hids : ∀ e ∈ ix.keys.entries, (ofLex e).2 < Near.docMax) :
    ix.range c = some (ix.keys.entries.filter fun e => inRange c (ofLex e).1) := by
  unfold GeoIndex.range
  rw [(Chunked.range_eq hgood _ _).1, range_eq_filter hgood.sorted]
  refine congrArg some (List.filter_congr fun e he => ?_)
  have hid := hids e he
  have hunder : Bound.under compare (.included (toLex (c.2, Near.docMax))) e = true ↔
      (ofLex e).1 ≤ c.2 := by
    unfold Bound.under
    rw [bne_iff_ne, ne_eq, compare_gt_iff_gt, not_lt, Prod.Lex.le_iff]
    constructor
    · rintro (h | ⟨h, -⟩)
      · exact Nat.le_of_lt h
      · exact Nat.le_of_eq h
    · intro h
      rcases Nat.lt_or_eq_of_le h with h | h
      · exact .inl h
      · exact .inr ⟨h, Nat.le_of_lt hid⟩
  rw [Bool.eq_iff_iff, Bool.and_eq_true, above_iff, hunder]
  unfold inRange
  rw [Bool.and_eq_true, decide_eq_true_eq, decide_eq_true_eq]

/-- **What a count is**, the last key's cell counted by its last id. -/
theorem GeoIndex.count_eq (hgood : ix.keys.Good compare)
    (hids : ∀ e ∈ ix.keys.entries, (ofLex e).2 < Near.docMax)
    (hkeys : ∀ e ∈ ix.keys.entries, (ofLex e).1 < 2 ^ 64) :
    ix.count c = some (ix.keys.entries.filter fun e => inRange c (ofLex e).1).length := by
  have hunder : ∀ {e x : Entry}, Bound.under compare (.excluded x) e = true ↔ e < x := by
    intro e x
    unfold Bound.under
    rw [beq_iff_eq, compare_lt_iff_lt]
  unfold GeoIndex.count
  split
  · rw [Chunked.count_spec hgood, range_eq_filter hgood.sorted]
    refine congrArg (fun l => some (List.length l)) (List.filter_congr fun e he => ?_)
    rw [Bool.eq_iff_iff, Bool.and_eq_true, above_iff, hunder, Prod.Lex.lt_iff]
    unfold inRange
    rw [Bool.and_eq_true, decide_eq_true_eq, decide_eq_true_eq]
    refine and_congr_right fun _ => ?_
    constructor
    · rintro (h | ⟨-, h⟩)
      · exact Nat.le_of_lt_succ h
      · exact absurd h (Nat.not_lt_zero _)
    · exact fun h => .inl (Nat.lt_succ_of_le h)
  · next hlast =>
    rw [Chunked.count_spec hgood, range_eq_filter hgood.sorted]
    refine congrArg (fun l => some (List.length l)) (List.filter_congr fun e he => ?_)
    have hid := hids e he
    have hkey := hkeys e he
    have hend : e < toLex (2 ^ 64 - 1, Near.docMax) := by
      rw [Prod.Lex.lt_iff]
      rcases Nat.lt_or_eq_of_le (Nat.le_sub_one_of_lt hkey) with h | h
      · exact .inl h
      · exact .inr ⟨h, hid⟩
    rw [Bool.eq_iff_iff, Bool.and_eq_true, above_iff, hunder]
    unfold inRange
    rw [Bool.and_eq_true, decide_eq_true_eq, decide_eq_true_eq]
    refine and_congr_right fun _ => iff_of_true hend ?_
    omega

end Ranges

/-! ## 3. The rows -/

/-- The points among the values of rows. -/
def points (rows : OrdMap (Option Value)) : OrdMap Point := rows.filterMap fun _ v => v.bind pointIn

/-- A write of a row's value, and its removal. -/
inductive Write where
  | insert (id : DocId) (v : Option Value)
  | remove (id : DocId) (v : Option Value)

/-- The index and the rows it was given, after a write. -/
def writeStep (s : GeoIndex × OrdMap (Option Value)) :
    Write → Option (GeoIndex × OrdMap (Option Value))
  | .insert id v => (s.1.insert id v).map fun ix => (ix, s.2.insert id v)
  | .remove id v => (s.1.remove id v).map fun ix => (ix, s.2.erase id)

/-- A row is put in where it is not in, a point of the earth where it has one, and taken out with
the value it has. -/
def Fits (s : GeoIndex × OrdMap (Option Value)) : Write → Prop
  | .insert id v => s.2.get id = none ∧ id < Near.docMax ∧
      ∀ p, v.bind pointIn = some p → valid p.1 p.2 = true
  | .remove id v => s.2.get id = some v

/-- **What the index is between writes**: a sorted set of the entries of the rows' points. -/
structure Indexed (s : GeoIndex × OrdMap (Option Value)) : Prop where
  good : s.1.keys.Good compare
  mem : ∀ e, e ∈ s.1.keys.entries ↔ ∃ id p, (points s.2).get id = some p ∧ e = entryOf id p
  below : ∀ id p, (points s.2).get id = some p → id < Near.docMax
  valid : ∀ id p, (points s.2).get id = some p → Geo.valid p.1 p.2 = true

variable {s : GeoIndex × OrdMap (Option Value)} {rows : OrdMap (Option Value)} {id : DocId}
  {v : Option Value}

theorem get_points : (points rows).get id = (rows.get id).bind fun v => v.bind pointIn :=
  OrdMap.get_filterMap _ _ _

theorem get_points_insert (id' : DocId) : (points (rows.insert id v)).get id' =
    if id' = id then v.bind pointIn else (points rows).get id' := by
  rw [get_points, get_points, OrdMap.get_insert]
  split <;> rfl

theorem get_points_erase (id' : DocId) : (points (rows.erase id)).get id' =
    if id' = id then none else (points rows).get id' := by
  rw [get_points, get_points, OrdMap.get_erase]
  split <;> rfl

/-- An entry is of one row and, in a map of rows, of one point. -/
theorem entryOf_inj {id' : DocId} {p p' : Point} (h : entryOf id p = entryOf id' p') :
    id = id' ∧ key p = key p' :=
  have hpair := Prod.mk.inj (toLex.injective h)
  ⟨hpair.2, hpair.1⟩

theorem indexed_build {rows : OrdMap (Option Value)}
    (hbelow : ∀ id p, (points rows).get id = some p → id < Near.docMax)
    (hvalid : ∀ id p, (points rows).get id = some p → Geo.valid p.1 p.2 = true) :
    Indexed (.build (points rows).entries, rows) := by
  have hne : ((points rows).entries.map fun r => entryOf r.1 r.2).Pairwise
      fun a b => compare a b ≠ .eq := by
    rw [List.pairwise_map]
    refine (points rows).ascending.imp fun {a b} hlt heq => ?_
    have hid := (entryOf_inj (compare_eq_iff_eq.mp heq)).1
    rw [hid] at hlt
    exact Nat.lt_irrefl _ hlt
  obtain ⟨hgood, hentries⟩ := Chunked.fromSorted_good (sorted_mergeSort hne)
  refine ⟨hgood, fun e => ?_, hbelow, hvalid⟩
  have hmem : e ∈ (GeoIndex.build (points rows).entries).keys.entries ↔
      e ∈ (points rows).entries.map fun r => entryOf r.1 r.2 := by
    unfold GeoIndex.build
    rw [hentries, List.mem_mergeSort]
  rw [hmem, List.mem_map]
  constructor
  · rintro ⟨⟨id, p⟩, hrow, rfl⟩
    exact ⟨id, p, OrdMap.mem_entries_iff.mp hrow, rfl⟩
  · rintro ⟨id, p, hrow, rfl⟩
    exact ⟨(id, p), OrdMap.mem_entries_iff.mpr hrow, rfl⟩

/-- **`insert` puts the entry of a row's point into the set.** -/
theorem Indexed.insert (h : Indexed s) (hnone : s.2.get id = none) (hid : id < Near.docMax)
    (hv : ∀ p, v.bind pointIn = some p → Geo.valid p.1 p.2 = true) :
    ∃ ix, s.1.insert id v = some ix ∧ Indexed (ix, s.2.insert id v) := by
  have hrest : ∀ {P : DocId → Point → Prop}, (∀ p, v.bind pointIn = some p → P id p) →
      (∀ id' p, (points s.2).get id' = some p → P id' p) →
      ∀ id' p, (points (s.2.insert id v)).get id' = some p → P id' p := by
    intro P hnew hold id' p hp
    rw [get_points_insert] at hp
    split at hp
    · next heq => exact heq ▸ hnew p hp
    · exact hold id' p hp
  have hbelow := hrest (P := fun id _ => id < Near.docMax) (fun _ _ => hid) h.below
  have hvalid := hrest (P := fun _ p => Geo.valid p.1 p.2 = true) hv h.valid
  have hempty : (points s.2).get id = none := by rw [get_points, hnone]; rfl
  have hrows : ∀ e, (∃ id' p, (points (s.2.insert id v)).get id' = some p ∧ e = entryOf id' p) ↔
      (∃ p, v.bind pointIn = some p ∧ e = entryOf id p) ∨ e ∈ s.1.keys.entries := by
    intro e
    rw [h.mem]
    constructor
    · rintro ⟨id', p, hp, rfl⟩
      rw [get_points_insert] at hp
      split at hp
      · next heq => exact .inl ⟨p, hp, by rw [heq]⟩
      · exact .inr ⟨id', p, hp, rfl⟩
    · rintro (⟨p, hp, rfl⟩ | ⟨id', p, hp, rfl⟩)
      · exact ⟨id, p, by rw [get_points_insert, if_pos rfl, hp], rfl⟩
      · have hne : id' ≠ id := fun heq => by rw [heq, hempty] at hp; cases hp
        exact ⟨id', p, by rw [get_points_insert, if_neg hne, hp], rfl⟩
  unfold GeoIndex.insert entry
  cases hp : v.bind pointIn with
  | none =>
    refine ⟨s.1, rfl, h.good, fun e => ?_, hbelow, hvalid⟩
    rw [hrows e, hp]
    simp
  | some p =>
    obtain ⟨keys, changed, hinsert, hgood, hmem, -⟩ := Chunked.insert_spec h.good (entryOf id p)
    refine ⟨⟨keys⟩, ?_, hgood, fun e => ?_, hbelow, hvalid⟩
    · rw [Option.map_some]
      dsimp only
      rw [hinsert]
      rfl
    · rw [hrows e, hmem, hp]
      simp

/-- **`remove` takes the entry of a row's point out of the set**, given what was indexed. -/
theorem Indexed.remove (h : Indexed s) (hsome : s.2.get id = some v) :
    ∃ ix, s.1.remove id v = some ix ∧ Indexed (ix, s.2.erase id) := by
  have hpoint : (points s.2).get id = v.bind pointIn := by rw [get_points, hsome]; rfl
  have hrest : ∀ id' p, (points (s.2.erase id)).get id' = some p →
      id' ≠ id ∧ (points s.2).get id' = some p := by
    intro id' p hp
    rw [get_points_erase] at hp
    split at hp
    · cases hp
    · next hne => exact ⟨hne, hp⟩
  have hrows : ∀ e, (∃ id' p, (points (s.2.erase id)).get id' = some p ∧ e = entryOf id' p) ↔
      (∀ p, v.bind pointIn = some p → e ≠ entryOf id p) ∧ e ∈ s.1.keys.entries := by
    intro e
    rw [h.mem]
    constructor
    · rintro ⟨id', p, hp, rfl⟩
      obtain ⟨hne, hold⟩ := hrest id' p hp
      exact ⟨fun p' _ heq => hne (entryOf_inj heq).1, id', p, hold, rfl⟩
    · rintro ⟨hnot, id', p, hp, rfl⟩
      have hne : id' ≠ id := by
        rintro rfl
        exact hnot p (hpoint ▸ hp) rfl
      exact ⟨id', p, by rw [get_points_erase, if_neg hne, hp], rfl⟩
  have hbelow : ∀ id' p, (points (s.2.erase id)).get id' = some p → id' < Near.docMax :=
    fun id' p hp => h.below id' p (hrest id' p hp).2
  have hvalid : ∀ id' p, (points (s.2.erase id)).get id' = some p → Geo.valid p.1 p.2 = true :=
    fun id' p hp => h.valid id' p (hrest id' p hp).2
  unfold GeoIndex.remove entry
  cases hp : v.bind pointIn with
  | none =>
    refine ⟨s.1, rfl, h.good, fun e => ?_, hbelow, hvalid⟩
    rw [hrows e, hp]
    simp
  | some p =>
    obtain ⟨keys, changed, hremove, hgood, hmem, -⟩ := Chunked.remove_spec h.good (entryOf id p)
    refine ⟨⟨keys⟩, ?_, hgood, fun e => ?_, hbelow, hvalid⟩
    · rw [Option.map_some]
      dsimp only
      rw [hremove]
      rfl
    · rw [hrows e, hmem, hp]
      simp

theorem Indexed.step (h : Indexed s) {w : Write} (hw : Fits s w) :
    ∃ s', writeStep s w = some s' ∧ Indexed s' := by
  cases w with
  | insert id v =>
    obtain ⟨ix, hix, hnext⟩ := h.insert hw.1 hw.2.1 hw.2.2
    exact ⟨_, by rw [writeStep, hix]; rfl, hnext⟩
  | remove id v =>
    obtain ⟨ix, hix, hnext⟩ := h.remove hw
    exact ⟨_, by rw [writeStep, hix]; rfl, hnext⟩

/-- **Every run of writes that fit is done**, and leaves the index what it is between writes. -/
theorem indexed_run (h : Indexed s) {ws : List Write} (hws : Along writeStep Fits s ws) :
    ∃ s', run writeStep s ws = some s' ∧ Indexed s' :=
  run_returns (fun _ _ hs hw => hs.step hw) h hws

/-! ## 4. What is met -/

/-- Two parts of a list that share nothing, put together. -/
theorem filter_or_perm {α : Type} {p q : α → Bool} {l : List α}
    (h : ∀ a ∈ l, p a = true → q a = false) :
    (l.filter p ++ l.filter q).Perm (l.filter fun a => p a || q a) := by
  induction l with
  | nil => exact .refl _
  | cons a l ih =>
    have hrest := ih fun b hb => h b (List.mem_cons_of_mem _ hb)
    cases hp : p a with
    | true =>
      have hq := h a List.mem_cons_self hp
      rw [List.filter_cons_of_pos hp, List.filter_cons_of_neg (by rw [hq]; decide),
        List.filter_cons_of_pos (by rw [hp]; rfl)]
      exact hrest.cons a
    | false =>
      rw [List.filter_cons_of_neg (by rw [hp]; decide)]
      cases hq : q a with
      | true =>
        rw [List.filter_cons_of_pos hq, List.filter_cons_of_pos (by rw [hq, Bool.or_true])]
        exact List.perm_middle.trans (hrest.cons a)
      | false =>
        rw [List.filter_cons_of_neg (by rw [hq]; decide),
          List.filter_cons_of_neg (by rw [hp, hq]; decide)]
        exact hrest

/-- The members of each of some classes, class after class. -/
theorem flatMap_filter_perm {α κ : Type} [DecidableEq κ] (cls : α → κ) (l : List α) {cs : List κ}
    (hcs : cs.Nodup) :
    (cs.flatMap fun c => l.filter fun a => decide (cls a = c)).Perm
      (l.filter fun a => decide (cls a ∈ cs)) := by
  induction cs with
  | nil => simp
  | cons c cs ih =>
    obtain ⟨hc, hcs⟩ := List.nodup_cons.mp hcs
    have hor : ∀ a, (decide (cls a = c) || decide (cls a ∈ cs)) = decide (cls a ∈ c :: cs) := by
      intro a
      rw [Bool.eq_iff_iff]
      simp
    rw [List.flatMap_cons, ← List.filter_congr fun a _ => hor a]
    refine ((ih hcs).append_left _).trans (filter_or_perm fun a _ ha => ?_)
    rw [of_decide_eq_true ha]
    exact decide_eq_false hc

/-- **A list parted by classes** that are all its members'. -/
theorem flatMap_class_perm {α κ : Type} [DecidableEq κ] (cls : α → κ) (l : List α) {cs : List κ}
    (hcs : cs.Nodup) (hmem : ∀ a ∈ l, cls a ∈ cs) :
    (cs.flatMap fun c => l.filter fun a => decide (cls a = c)).Perm l := by
  have hparted := flatMap_filter_perm cls l hcs
  rwa [List.filter_eq_self.mpr fun a ha => decide_eq_true (hmem a ha)] at hparted

section Met

variable {level cx cy : Nat} {r : Rect} {l : List Entry}

/-- A cell's range holds the keys of the cell. -/
theorem inRange_cellKeys (hlevel : level ≤ 32) (hcx : cx < 2 ^ level) (hcy : cy < 2 ^ level)
    {k : Nat} (hk : k < 2 ^ 64) :
    inRange (cellKeys level cx cy) k = decide (cellOf level k = (cx, cy)) := by
  rw [Bool.eq_iff_iff, decide_eq_true_eq, ← mem_cellKeys hlevel hcx hcy hk]
  unfold inRange
  rw [Bool.and_eq_true, decide_eq_true_eq, decide_eq_true_eq]

/-- **A cover meets each key of its rectangle once.** -/
theorem cover_perm (hkeys : ∀ e ∈ l, (ofLex e).1 < 2 ^ 64) :
    ((cover r).flatMap fun cell =>
      (l.filter fun e => inRange cell (ofLex e).1).filter fun e => r.holds (ofLex e).1).Perm
      (l.filter fun e => r.holds (ofLex e).1) := by
  have hlevel : r.finest 0 ≤ 32 := finest_le (Nat.zero_le _)
  have hcells : (cover r).flatMap (fun cell =>
      (l.filter fun e => inRange cell (ofLex e).1).filter fun e => r.holds (ofLex e).1) =
      (r.cellsAt (r.finest 0)).flatMap fun c =>
        (l.filter fun e => r.holds (ofLex e).1).filter fun e =>
          decide (cellOf (r.finest 0) (ofLex e).1 = c) := by
    unfold cover
    rw [List.flatMap_map]
    refine List.flatMap_congr fun c hc => ?_
    obtain ⟨hcx, hcy⟩ := cell_lt_of_mem hlevel hc
    rw [List.filter_filter, List.filter_filter]
    refine List.filter_congr fun e he => ?_
    rw [inRange_cellKeys hlevel hcx hcy (hkeys e he), Bool.and_comm]
  rw [hcells]
  exact flatMap_class_perm _ _ nodup_cellsAt fun e he => cellOf_mem (List.mem_filter.mp he).2

/-- What a range adds to what was met, where that is not too much. -/
theorem meet_eq {cap : Nat} {out : List DocId} (hout : out.length ≤ cap) :
    GeoIndex.meet r cap out l =
      if out.length + (l.filter fun e => r.holds (ofLex e).1).length ≤ cap
      then some (out ++ (l.filter fun e => r.holds (ofLex e).1).map fun e => (ofLex e).2)
      else none := by
  induction l generalizing out with
  | nil => simp [GeoIndex.meet, hout]
  | cons e l ih =>
    unfold GeoIndex.meet
    rw [List.filter_cons]
    cases r.holds (ofLex e).1 with
    | false => rw [if_neg Bool.false_ne_true, if_neg Bool.false_ne_true, ih hout]
    | true =>
      rw [if_pos rfl, if_pos rfl, List.length_cons]
      by_cases hfull : cap ≤ out.length
      · rw [if_pos hfull, if_neg (by omega)]
      · rw [if_neg hfull, ih (by rw [List.length_append, List.length_singleton]; omega),
          List.length_append, List.length_singleton, List.map_cons, List.append_assoc]
        have hlen : out.length + 1 + (l.filter fun e => r.holds (ofLex e).1).length =
            out.length + ((l.filter fun e => r.holds (ofLex e).1).length + 1) := by omega
        rw [hlen]
        rfl

/-- What the cells of rectangles meet of a list of entries. -/
def metIn (l : List Entry) (cells : List (Rect × (Nat × Nat))) : List DocId :=
  cells.flatMap fun c =>
    ((l.filter fun e => inRange c.2 (ofLex e).1).filter fun e => c.1.holds (ofLex e).1).map
      fun e => (ofLex e).2

/-- **A walk over cells** finds what they meet, or is given up where that is too much. -/
theorem walk_eq {ix : GeoIndex} {cap : Nat} {out : List DocId} {cells : List (Rect × (Nat × Nat))}
    (hrange : ∀ c, ix.range c = some (l.filter fun e => inRange c (ofLex e).1))
    (hout : out.length ≤ cap) :
    ix.walk cap out cells = some (if out.length + (metIn l cells).length ≤ cap
      then some (out ++ metIn l cells) else none) := by
  induction cells generalizing out with
  | nil => simp [GeoIndex.walk, metIn, hout]
  | cons c cells ih =>
    have hcons : metIn l (c :: cells) = ((l.filter fun e => inRange c.2 (ofLex e).1).filter
        fun e => c.1.holds (ofLex e).1).map (fun e => (ofLex e).2) ++ metIn l cells := by
      unfold metIn
      rw [List.flatMap_cons]
    unfold GeoIndex.walk
    rw [hrange, Option.bind_eq_bind, Option.bind_some, meet_eq hout, hcons]
    generalize (l.filter fun e => inRange c.2 (ofLex e).1).filter
      (fun e => c.1.holds (ofLex e).1) = here
    rw [List.length_append, List.length_map]
    by_cases hfits : out.length + here.length ≤ cap
    · have hlen : (out ++ here.map fun e => (ofLex e).2).length = out.length + here.length := by
        rw [List.length_append, List.length_map]
      rw [if_pos hfits]
      dsimp only
      rw [ih (by rw [hlen]; exact hfits), hlen, Nat.add_assoc, List.append_assoc]
    · rw [if_neg hfits, if_neg (by omega)]
      rfl

end Met

/-! ## 5. Candidates -/

theorem Indexed.ids (h : Indexed s) : ∀ e ∈ s.1.keys.entries, (ofLex e).2 < Near.docMax := by
  intro e he
  obtain ⟨id, p, hp, rfl⟩ := (h.mem e).mp he
  exact h.below id p hp

theorem Indexed.keys_lt (h : Indexed s) : ∀ e ∈ s.1.keys.entries, (ofLex e).1 < 2 ^ 64 := by
  intro e he
  obtain ⟨id, p, -, rfl⟩ := (h.mem e).mp he
  exact key_lt p

/-- **The set is the rows' points**, each with its key. -/
theorem Indexed.perm (h : Indexed s) :
    s.1.keys.entries.Perm ((points s.2).entries.map fun e => entryOf e.1 e.2) := by
  have hleft : s.1.keys.entries.Nodup := by
    refine h.good.sorted.imp fun {a b} hlt heq => ?_
    rw [heq, compare_lt_iff_lt] at hlt
    exact lt_irrefl _ hlt
  have hright : ((points s.2).entries.map fun e => entryOf e.1 e.2).Nodup := by
    rw [List.nodup_iff_pairwise_ne, List.pairwise_map]
    refine (points s.2).ascending.imp fun {a b} hlt heq => ?_
    rw [(entryOf_inj heq).1] at hlt
    exact Nat.lt_irrefl _ hlt
  refine (List.perm_ext_iff_of_nodup hleft hright).mpr fun e => ?_
  rw [h.mem, List.mem_map]
  constructor
  · rintro ⟨id, p, hp, rfl⟩
    exact ⟨(id, p), OrdMap.mem_entries_iff.mpr hp, rfl⟩
  · rintro ⟨⟨id, p⟩, he, rfl⟩
    exact ⟨id, p, OrdMap.mem_entries_iff.mp he, rfl⟩

/-- The rows with a key that a rectangle holds. -/
def heldBy (rows : OrdMap (Option Value)) (r : Rect) : List DocId :=
  ((points rows).entries.filter fun e => r.holds (key e.2)).map fun e => e.1

theorem mem_heldBy {r : Rect} :
    id ∈ heldBy rows r ↔ ∃ p, (points rows).get id = some p ∧ r.holds (key p) = true := by
  unfold heldBy
  rw [List.mem_map]
  constructor
  · rintro ⟨⟨id, p⟩, he, rfl⟩
    obtain ⟨he, hr⟩ := List.mem_filter.mp he
    exact ⟨p, OrdMap.mem_entries_iff.mp he, hr⟩
  · rintro ⟨p, hp, hr⟩
    exact ⟨(id, p), List.mem_filter.mpr ⟨OrdMap.mem_entries_iff.mpr hp, hr⟩, rfl⟩

/-- The rows a search meets, rectangle after rectangle. -/
def metBy (rows : OrdMap (Option Value)) (rects : List Rect) : List DocId :=
  rects.flatMap (heldBy rows)

/-- **The walk meets the rows the rectangles hold**, each once for each that holds it. -/
theorem Indexed.metIn_perm (h : Indexed s) (rects : List Rect) :
    (metIn s.1.keys.entries (rects.flatMap fun r => (cover r).map fun cell => (r, cell))).Perm
      (metBy s.2 rects) := by
  unfold metIn metBy
  rw [List.flatMap_assoc]
  refine List.Perm.flatMap_left _ fun r _ => ?_
  rw [List.flatMap_map, ← List.map_flatMap]
  refine ((cover_perm h.keys_lt).map _).trans ?_
  unfold heldBy
  refine ((h.perm.filter _).map _).trans (List.Perm.of_eq ?_)
  rw [List.filter_map, List.map_map]
  rfl

/-- **`candidates`** gives up exactly where more were met than it may name, and names otherwise
each row with its key in a rectangle of the shape, once and in order. -/
theorem Indexed.candidates (h : Indexed s) (T : Trig) (shape : Shape) (cap : Nat) :
    ∃ named, s.1.candidates T shape cap = some named ∧
      (named = none ↔ cap < (metBy s.2 (T.rects shape)).length) ∧
      ∀ ids, named = some ids → ids.Pairwise (· < ·) ∧
        ∀ id, id ∈ ids ↔ ∃ p, (points s.2).get id = some p ∧
          ∃ r ∈ T.rects shape, r.holds (key p) = true := by
  have hrange : ∀ c, s.1.range c =
      some (s.1.keys.entries.filter fun e => inRange c (ofLex e).1) :=
    fun c => GeoIndex.range_eq h.good h.ids
  have hperm := h.metIn_perm (T.rects shape)
  have hempty : ([] : List DocId).length ≤ cap := Nat.zero_le cap
  unfold GeoIndex.candidates
  dsimp only
  rw [walk_eq hrange hempty, List.length_nil, Nat.zero_add, List.nil_append, hperm.length_eq]
  refine ⟨_, rfl, ?_, ?_⟩
  · split
    · next hfits => exact iff_of_false (by simp) (Nat.not_lt.mpr hfits)
    · next hmany => exact iff_of_true rfl (Nat.not_le.mp hmany)
  · intro ids hids
    split at hids
    · obtain rfl := Option.some.inj hids
      refine ⟨Changes.sortDedup_ascending _, fun id => ?_⟩
      rw [Changes.mem_sortDedup, hperm.mem_iff]
      unfold metBy
      rw [List.mem_flatMap]
      constructor
      · rintro ⟨r, hr, hid⟩
        obtain ⟨p, hp, hholds⟩ := mem_heldBy.mp hid
        exact ⟨p, hp, r, hr, hholds⟩
      · rintro ⟨p, hp, r, hr, hholds⟩
        exact ⟨r, hr, mem_heldBy.mpr ⟨p, hp, hholds⟩⟩
    · cases hids

/-- **The index narrows without losing**: a row with its point in the shape is named. -/
theorem Indexed.narrows (h : Indexed s) {T : Trig} (hT : T.Laws) {shape : Shape}
    (hshape : shape.Sound) {p : Point} (hp : (points s.2).get id = some p)
    (hinside : T.inside p shape = true) : ∃ r ∈ T.rects shape, r.holds (key p) = true :=
  T.rects_holds hT hshape (h.valid id p hp) hinside

end Fenec.Geo
