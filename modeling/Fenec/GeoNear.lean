/-
# The nearest rows, in order

`nearest` keeps a heap of cells, each at the least distance a point of it may have, and of points,
each at its own.  What is popped is a point that no other can come before, which is visited, or a
cell, which is replaced by its quarters or, where it holds few points, by these.

The argument is one invariant (`Frontier`, `Pending`): the rows still to be visited are, in order,
those that the heap's points are and its cells hold, the ones too far apart.  A cell's floor is at
most the distance of its points, so a popped point is the first of them; and a turn leaves less of
the heap, each cell weighing more than its quarters or its points together.
-/
import Fenec.GeoIndex
import Fenec.Lib.Loop

namespace Fenec.Geo

open Lib

/-! ## 1. The search -/

/-- `Near`: a cell at its floor, or a row at its point's distance. -/
structure Near where
  at_ : F64
  point : Bool
  id : Nat

/-- What `Near`s are popped by: the nearest first, a cell before a point, the lower id first. -/
def Near.rank (n : Near) : Int ×ₗ Bool ×ₗ Nat := toLex (n.at_.totalKey, toLex (n.point, n.id))

/-- `BinaryHeap::push`, the heap being what is in it in the order it is popped. -/
def push (heap : List Near) (n : Near) : List Near :=
  heap.orderedInsert (fun a b => a.rank ≤ b.rank) n

/-- A cell of a level and how many entries it holds. -/
structure Cell where
  level : Nat
  cx : Nat
  cy : Nat
  n : Nat

/-- `LEAF`: the points a cell may hold and be read whole. -/
def leaf : Nat := 16

/-- `f64::NEG_INFINITY`. -/
def negInfinity : F64 := Ieee.ofMag true (Ieee.infMag 11 52)

/-- What a search is over: the cells met, the heap, and what the visits left. -/
structure Search (σ : Type) where
  cells : List Cell
  heap : List Near
  seen : σ

section Model

variable {σ : Type} (ix : GeoIndex) (T : Trig) (frm : Point) (max : F64)
  (pointAt : DocId → Result (Option Point)) (visit : σ → DocId → F64 → Result (σ × Bool))

/-- The points of a cell's rows, pushed. -/
def gather (heap : List Near) (entries : List Entry) : Result (List Near) :=
  entries.foldlM (fun heap e => do
    match ← pointAt (ofLex e).2 with
    | none => pure heap
    | some p => pure (push heap ⟨T.distance p frm, true, (ofLex e).2⟩)) heap

/-- A quarter of a cell, pushed where it holds anything and not only what is too far. -/
def quarter (c : Cell) (s : List Cell × List Near) (d : Nat × Nat) :
    Option (List Cell × List Near) := do
  let x := 2 * c.cx + d.1
  let y := 2 * c.cy + d.2
  let n ← ix.count (cellKeys (c.level + 1) x y)
  if n = 0 then pure s
  else
    let floor := T.cellFloor frm (T.cos (toRadians frm.2)) (cellDegrees (c.level + 1) x y)
    if max.lt floor then pure s
    else pure (s.1 ++ [⟨c.level + 1, x, y, n⟩], push s.2 ⟨floor, false, s.1.length⟩)

/-- The quarters of a cell. -/
def quarters : List (Nat × Nat) := [(0, 0), (1, 0), (0, 1), (1, 1)]

/-- One turn of `nearest`: what is popped, and what comes of it. -/
def turn (s : Search σ) : Turn (Search σ) (Option (Result σ)) :=
  match s.heap with
  | [] => .done (some (.ok s.seen))
  | item :: heap =>
    if max.lt item.at_ then .done (some (.ok s.seen))
    else if item.point then
      match visit s.seen item.id item.at_ with
      | .error e => .done (some (.error e))
      | .ok (seen, more) => if more then .again ⟨s.cells, heap, seen⟩ else .done (some (.ok seen))
    else
      match s.cells[item.id]? with
      | none => .done none
      | some c =>
        if c.n ≤ leaf ∨ c.level = 32 then
          match ix.range (cellKeys c.level c.cx c.cy) with
          | none => .done none
          | some entries =>
            match gather T frm pointAt heap entries with
            | .error e => .done (some (.error e))
            | .ok heap => .again ⟨s.cells, heap, s.seen⟩
        else
          match quarters.foldlM (quarter ix T frm max c) (s.cells, heap) with
          | none => .done none
          | some (cells, heap) => .again ⟨cells, heap, s.seen⟩

/-- What `nearest` starts from: the cell of all. -/
def start (seen : σ) : Search σ := ⟨[⟨0, 0, 0, ix.keys.len⟩], [⟨negInfinity, false, 0⟩], seen⟩

/-- Visits in order, until one wants no more. -/
def visitAll (seen : σ) : List Near → Result σ
  | [] => .ok seen
  | h :: rest =>
    match visit seen h.id h.at_ with
    | .error e => .error e
    | .ok (seen, more) => if more then visitAll seen rest else .ok seen

end Model

/-! ## 2. The rows within reach -/

section Reach

variable (T : Trig) (frm : Point) (max : F64) (rows : OrdMap (Option Value))

/-- A row with its distance. -/
def hit (e : DocId × Point) : Near := ⟨T.distance e.2 frm, true, e.1⟩

/-- Whether a row is within `max`, or a cell may hold one that is. -/
def within (n : Near) : Bool := !max.lt n.at_

/-- **The rows within `max`**, in order of distance and id. -/
def hits : List Near :=
  (((points rows).entries.map (hit T frm)).filter (within max)).mergeSort
    fun a b => decide (a.rank ≤ b.rank)

/-- The rows of a cell, with their distances. -/
def rowsIn (level : Nat) (c : Nat × Nat) : List Near :=
  ((points rows).entries.filter fun e => decide (cellOf level (key e.2) = c)).map (hit T frm)

/-- The rows an item of the heap stands for. -/
def under (cells : List Cell) (item : Near) : List Near :=
  if item.point then [item]
  else
    match cells[item.id]? with
    | none => []
    | some c => rowsIn T frm rows c.level (c.cx, c.cy)

/-- What an item weighs: a point one, a cell more than its quarters or its points together. -/
def weight (cells : List Cell) (item : Near) : Nat :=
  if item.point then 1
  else
    match cells[item.id]? with
    | none => 0
    | some c => 1 + (rowsIn T frm rows c.level (c.cx, c.cy)).length * (33 - c.level)

/-- The rows within `max` that a heap stands for. -/
def reach (cells : List Cell) (heap : List Near) : List Near :=
  (heap.flatMap (under T frm rows cells)).filter (within max)

/-- An item of the heap: a row with its distance, or a cell at no more than its rows' distances. -/
def Sound (cells : List Cell) (item : Near) : Prop :=
  item.point = true ∧ item.at_.isNaN = false ∨
    item.point = false ∧ ∃ c, cells[item.id]? = some c ∧ c.level ≤ 32 ∧ c.cx < 2 ^ c.level ∧
      c.cy < 2 ^ c.level ∧ ∀ h ∈ rowsIn T frm rows c.level (c.cx, c.cy),
        item.at_.totalKey ≤ h.at_.totalKey

/-- **What the heap is between turns**: its items in the order they are popped, each sound. -/
structure Frontier (cells : List Cell) (heap : List Near) : Prop where
  sorted : heap.Pairwise fun a b => a.rank ≤ b.rank
  sound : ∀ item ∈ heap, Sound T frm rows cells item

/-- What a heap weighs. -/
def total (cells : List Cell) (heap : List Near) : Nat :=
  (heap.map (weight T frm rows cells)).sum

end Reach

/-! ## 3. Ranks and the heap -/

section Heap

variable {a b n : Near} {heap : List Near}

theorem key_le_of_rank (h : a.rank ≤ b.rank) : a.at_.totalKey ≤ b.at_.totalKey := by
  rcases Prod.Lex.le_iff.mp h with h | ⟨h, -⟩
  · exact Int.le_of_lt h
  · exact Int.le_of_eq h

theorem rank_lt_of_key (h : a.at_.totalKey < b.at_.totalKey) : a.rank < b.rank :=
  Prod.Lex.lt_iff.mpr (.inl h)

/-- A point that comes before a cell is nearer than all of it. -/
theorem key_lt_of_rank (h : a.rank ≤ b.rank) (ha : a.point = true) (hb : b.point = false) :
    a.at_.totalKey < b.at_.totalKey := by
  rcases Prod.Lex.le_iff.mp h with h | ⟨-, h⟩
  · exact h
  · unfold Near.rank at h
    have hle : toLex (a.point, a.id) ≤ toLex (b.point, b.id) := h
    rw [ha, hb] at hle
    rcases Prod.Lex.le_iff.mp hle with h | ⟨h, -⟩
    · have hlt : true < false := h
      exact absurd hlt (by decide)
    · have heq : true = false := h
      cases heq

/-- Between points it is the distance that decides, then the id. -/
theorem lt_of_rank_lt (h : a.rank < b.rank) (hab : a.point = b.point) :
    a.at_.totalKey < b.at_.totalKey ∨ a.at_.totalKey = b.at_.totalKey ∧ a.id < b.id := by
  rcases Prod.Lex.lt_iff.mp h with h | ⟨heq, h⟩
  · exact .inl h
  · refine .inr ⟨heq, ?_⟩
    rcases Prod.Lex.lt_iff.mp h with h | ⟨-, h⟩
    · have hlt : a.point < b.point := h
      rw [hab] at hlt
      exact absurd hlt (lt_irrefl _)
    · exact h

theorem perm_push : (push heap n).Perm (n :: heap) := List.perm_orderedInsert _ _ _

theorem sorted_push (h : heap.Pairwise fun a b => a.rank ≤ b.rank) :
    (push heap n).Pairwise fun a b => a.rank ≤ b.rank := by
  unfold push
  induction heap with
  | nil => exact List.pairwise_singleton _ _
  | cons a heap ih =>
    obtain ⟨ha, hheap⟩ := List.pairwise_cons.mp h
    rw [List.orderedInsert]
    split
    · next hle =>
      refine List.pairwise_cons.mpr ⟨fun b hb => ?_, h⟩
      rcases List.mem_cons.mp hb with rfl | hb
      · exact hle
      · exact le_trans hle (ha b hb)
    · next hlt =>
      refine List.pairwise_cons.mpr ⟨fun b hb => ?_, ih hheap⟩
      rcases List.mem_cons.mp ((List.perm_orderedInsert _ _ _).mem_iff.mp hb) with rfl | hb
      · exact le_of_lt (not_le.mp hlt)
      · exact ha b hb

/-- The first of what is in strict order is what no other comes before. -/
theorem exists_cons_of_least {rest l : List Near} (hrest : rest.Pairwise fun a b => a.rank < b.rank)
    (hperm : rest.Perm (a :: l)) (hleast : ∀ h ∈ l, a.rank ≤ h.rank) :
    ∃ rest', rest = a :: rest' ∧ rest'.Perm l := by
  cases rest with
  | nil => exact absurd hperm (List.not_perm_nil_cons _ _)
  | cons b rest =>
    by_cases hab : b = a
    · subst hab
      exact ⟨rest, rfl, hperm.cons_inv⟩
    · have hbl : b ∈ l := (List.mem_cons.mp (hperm.mem_iff.mp List.mem_cons_self)).resolve_left hab
      have ha : a ∈ rest := (List.mem_cons.mp (hperm.mem_iff.mpr List.mem_cons_self)).resolve_left
        fun h => hab h.symm
      have hlt := (List.pairwise_cons.mp hrest).1 a ha
      exact absurd (hleast b hbl) (not_le.mpr hlt)

end Heap

/-! ## 4. Rows and cells -/

section Rows

variable {T : Trig} {frm : Point} {max : F64} {rows : OrdMap (Option Value)}
  {cells : List Cell} {heap : List Near} {item h : Near} {level : Nat} {c : Nat × Nat}

theorem hit_at (id : DocId) (p : Point) : (hit T frm (id, p)).at_ = T.distance p frm := by
  rw [hit]

theorem mem_rowsIn : h ∈ rowsIn T frm rows level c ↔ ∃ id p, (points rows).get id = some p ∧
    cellOf level (key p) = c ∧ h = hit T frm (id, p) := by
  unfold rowsIn
  rw [List.mem_map]
  constructor
  · rintro ⟨⟨id, p⟩, he, rfl⟩
    obtain ⟨he, hcell⟩ := List.mem_filter.mp he
    exact ⟨id, p, OrdMap.mem_entries_iff.mp he, of_decide_eq_true hcell, rfl⟩
  · rintro ⟨id, p, hp, hcell, rfl⟩
    exact ⟨(id, p), List.mem_filter.mpr ⟨OrdMap.mem_entries_iff.mpr hp, decide_eq_true hcell⟩, rfl⟩

theorem under_point (h : item.point = true) : under T frm rows cells item = [item] := if_pos h

theorem under_cell (T : Trig) (frm : Point) (rows : OrdMap (Option Value))
    (h : item.point = false) {c : Cell} (hc : cells[item.id]? = some c) :
    under T frm rows cells item = rowsIn T frm rows c.level (c.cx, c.cy) := by
  unfold under
  rw [h, if_neg Bool.false_ne_true, hc]

theorem weight_point (h : item.point = true) : weight T frm rows cells item = 1 := if_pos h

theorem weight_cell (T : Trig) (frm : Point) (rows : OrdMap (Option Value))
    (h : item.point = false) {c : Cell} (hc : cells[item.id]? = some c) :
    weight T frm rows cells item =
      1 + (rowsIn T frm rows c.level (c.cx, c.cy)).length * (33 - c.level) := by
  unfold weight
  rw [h, if_neg Bool.false_ne_true, hc]

/-- A cell more changes nothing of an item there is. -/
theorem Sound.append (h : Sound T frm rows cells item) (more : List Cell) :
    Sound T frm rows (cells ++ more) item ∧
      under T frm rows (cells ++ more) item = under T frm rows cells item ∧
      weight T frm rows (cells ++ more) item = weight T frm rows cells item := by
  rcases h with ⟨hpoint, hnum⟩ | ⟨hpoint, c, hc, hrest⟩
  · exact ⟨.inl ⟨hpoint, hnum⟩, by rw [under_point hpoint, under_point hpoint],
      by rw [weight_point hpoint, weight_point hpoint]⟩
  · have hmore : (cells ++ more)[item.id]? = some c := by
      rw [List.getElem?_append_left (List.getElem?_eq_some_iff.mp hc).1, hc]
    exact ⟨.inr ⟨hpoint, c, hmore, hrest⟩, by rw [under_cell _ _ _ hpoint hc, under_cell _ _ _ hpoint hmore],
      by rw [weight_cell _ _ _ hpoint hc, weight_cell _ _ _ hpoint hmore]⟩

theorem reach_cons : reach T frm max rows cells (item :: heap) =
    (under T frm rows cells item).filter (within max) ++ reach T frm max rows cells heap := by
  unfold reach
  rw [List.flatMap_cons, List.filter_append]

theorem reach_perm {heap' : List Near} (h : heap.Perm heap') :
    (reach T frm max rows cells heap).Perm (reach T frm max rows cells heap') :=
  (h.flatMap_right _).filter _

theorem total_cons : total T frm rows cells (item :: heap) =
    weight T frm rows cells item + total T frm rows cells heap := by
  unfold total
  rw [List.map_cons, List.sum_cons]

theorem total_perm {heap' : List Near} (h : heap.Perm heap') :
    total T frm rows cells heap = total T frm rows cells heap' :=
  (h.map _).sum_nat

/-- A cell more changes nothing of a heap there is. -/
theorem Frontier.append (h : Frontier T frm rows cells heap) (max : F64) (more : List Cell) :
    Frontier T frm rows (cells ++ more) heap ∧
      reach T frm max rows (cells ++ more) heap = reach T frm max rows cells heap ∧
      total T frm rows (cells ++ more) heap = total T frm rows cells heap := by
  refine ⟨⟨h.sorted, fun item hi => ((h.sound item hi).append more).1⟩, ?_, ?_⟩
  · unfold reach
    rw [List.flatMap_congr fun item hi => ((h.sound item hi).append more).2.1]
  · unfold total
    rw [List.map_congr_left fun item hi => ((h.sound item hi).append more).2.2]

/-- **A sound item pushed.** -/
theorem Frontier.push (h : Frontier T frm rows cells heap) (hitem : Sound T frm rows cells item) :
    Frontier T frm rows cells (push heap item) := by
  refine ⟨sorted_push h.sorted, fun item' hi => ?_⟩
  rcases List.mem_cons.mp (perm_push.mem_iff.mp hi) with rfl | hi
  · exact hitem
  · exact h.sound item' hi

end Rows

/-! ## 5. A cell opened -/

section Opened

variable {s : GeoIndex × OrdMap (Option Value)} {T : Trig} {frm : Point} {max : F64}
  {cells : List Cell} {heap : List Near} {level : Nat} {c : Cell}

/-- The entries of a cell's range are those of its rows. -/
theorem Indexed.range_perm (h : Indexed s) {cx cy : Nat} (hlevel : level ≤ 32)
    (hcx : cx < 2 ^ level) (hcy : cy < 2 ^ level) :
    (s.1.keys.entries.filter fun e => inRange (cellKeys level cx cy) (ofLex e).1).Perm
      (((points s.2).entries.filter fun e => decide (cellOf level (key e.2) = (cx, cy))).map
        fun e => entryOf e.1 e.2) := by
  refine (h.perm.filter _).trans (List.Perm.of_eq ?_)
  rw [List.filter_map]
  refine congrArg _ (List.filter_congr fun e _ => ?_)
  exact inRange_cellKeys hlevel hcx hcy (key_lt e.2)

theorem Indexed.count_rows (h : Indexed s) (T : Trig) (frm : Point) {cx cy : Nat} (hlevel : level ≤ 32)
    (hcx : cx < 2 ^ level) (hcy : cy < 2 ^ level) : s.1.count (cellKeys level cx cy) =
      some (rowsIn T frm s.2 level (cx, cy)).length := by
  rw [GeoIndex.count_eq h.good h.ids h.keys_lt, (h.range_perm hlevel hcx hcy).length_eq,
    List.length_map]
  unfold rowsIn
  rw [List.length_map]

/-- **The floor of a cell is at most the distance of each of its rows**, in the order of the
heap too. -/
theorem Indexed.floor_le (h : Indexed s) (hT : T.Laws) (hfrm : Geo.valid frm.1 frm.2 = true)
    {cx cy : Nat} (hlevel : level ≤ 32) {n : Near} (hn : n ∈ rowsIn T frm s.2 level (cx, cy)) :
    (T.cellFloor frm (T.cos (toRadians frm.2)) (cellDegrees level cx cy)).le n.at_ = true ∧
      (T.cellFloor frm (T.cos (toRadians frm.2)) (cellDegrees level cx cy)).totalKey ≤
        n.at_.totalKey := by
  obtain ⟨id, p, hp, hcell, rfl⟩ := mem_rowsIn.mp hn
  have hvalid := h.valid id p hp
  have hfloor := hT.floor_le frm p level hfrm hvalid hlevel
  unfold Trig.floorAt at hfloor
  rw [hcell] at hfloor
  rw [hit_at]
  dsimp only at hfloor ⊢
  exact ⟨hfloor, Ieee.totalKey_le hfloor (hT.distance_pos p frm hvalid hfrm)⟩

theorem Indexed.number_hit (h : Indexed s) (hT : T.Laws) (hfrm : Geo.valid frm.1 frm.2 = true)
    {id : DocId} {p : Point} (hp : (points s.2).get id = some p) :
    (hit T frm (id, p)).at_.isNaN = false := by
  have hfloor := hT.floor_le frm p 0 hfrm (h.valid id p hp) (Nat.zero_le _)
  rw [hit_at]
  exact (Ieee.le_iff.mp hfloor).2.1

/-- **A quarter pushed** puts its rows within reach, and weighs no more than they did in the
cell. -/
theorem Indexed.quarter (h : Indexed s) (max : F64) (hT : T.Laws) (hfrm : Geo.valid frm.1 frm.2 = true)
    (hfront : Frontier T frm s.2 cells heap) (hlevel : c.level < 32) {d : Nat × Nat}
    (hx : 2 * c.cx + d.1 < 2 ^ (c.level + 1)) (hy : 2 * c.cy + d.2 < 2 ^ (c.level + 1)) :
    ∃ cells' heap', Geo.quarter s.1 T frm max c (cells, heap) d = some (cells', heap') ∧
      Frontier T frm s.2 cells' heap' ∧
      (reach T frm max s.2 cells' heap').Perm
        ((rowsIn T frm s.2 (c.level + 1) (2 * c.cx + d.1, 2 * c.cy + d.2)).filter (within max) ++
          reach T frm max s.2 cells heap) ∧
      total T frm s.2 cells' heap' ≤ total T frm s.2 cells heap +
        (rowsIn T frm s.2 (c.level + 1) (2 * c.cx + d.1, 2 * c.cy + d.2)).length *
          (33 - c.level) := by
  have hcount := h.count_rows T frm hlevel hx hy
  have hfloor : ∀ n ∈ rowsIn T frm s.2 (c.level + 1) (2 * c.cx + d.1, 2 * c.cy + d.2), _ :=
    fun n hn => h.floor_le hT hfrm hlevel hn
  unfold Geo.quarter
  dsimp only
  rw [hcount, Option.bind_eq_bind, Option.bind_some]
  generalize hrows : rowsIn T frm s.2 (c.level + 1) (2 * c.cx + d.1, 2 * c.cy + d.2) = Q at hfloor ⊢
  generalize hat : T.cellFloor frm (T.cos (toRadians frm.2))
    (cellDegrees (c.level + 1) (2 * c.cx + d.1) (2 * c.cy + d.2)) = floor at hfloor ⊢
  by_cases hnone : Q.length = 0
  · rw [if_pos hnone]
    refine ⟨cells, heap, rfl, hfront, ?_, Nat.le_add_right _ _⟩
    rw [List.length_eq_zero_iff.mp hnone]
    exact .refl _
  rw [if_neg hnone]
  by_cases hfar : max.lt floor = true
  · -- none of the quarter is within reach
    rw [if_pos hfar]
    refine ⟨cells, heap, rfl, hfront, ?_, Nat.le_add_right _ _⟩
    have hempty : Q.filter (within max) = [] := by
      refine List.filter_eq_nil_iff.mpr fun n hn => ?_
      unfold within
      rw [Ieee.lt_of_lt_of_le hfar (hfloor n hn).1]
      decide
    rw [hempty]
    exact .refl _
  · rw [if_neg hfar]
    obtain ⟨hfront', hreach, htotal⟩ := hfront.append max
      [⟨c.level + 1, 2 * c.cx + d.1, 2 * c.cy + d.2, Q.length⟩]
    have hget : (cells ++ [(⟨c.level + 1, 2 * c.cx + d.1, 2 * c.cy + d.2, Q.length⟩ : Cell)])[
        cells.length]? = some ⟨c.level + 1, 2 * c.cx + d.1, 2 * c.cy + d.2, Q.length⟩ := by
      rw [List.getElem?_append_right (Nat.le_refl _), Nat.sub_self]
      rfl
    have hsound : Sound T frm s.2
        (cells ++ [⟨c.level + 1, 2 * c.cx + d.1, 2 * c.cy + d.2, Q.length⟩])
        ⟨floor, false, cells.length⟩ := by
      refine .inr ⟨rfl, _, hget, hlevel, hx, hy, fun n hn => ?_⟩
      rw [hrows] at hn
      exact (hfloor n hn).2
    have hcell : (⟨floor, false, cells.length⟩ : Near).point = false := rfl
    have hunder := under_cell T frm s.2 hcell hget
    have hweight := weight_cell T frm s.2 hcell hget
    refine ⟨_, _, rfl, hfront'.push hsound, ?_, ?_⟩
    · refine (reach_perm perm_push).trans (List.Perm.of_eq ?_)
      rw [reach_cons, hunder, hreach, hrows]
    · rw [total_perm perm_push, total_cons, hweight, htotal, hrows]
      have hstep : 33 - c.level = 33 - (c.level + 1) + 1 := by omega
      rw [hstep, Nat.mul_succ]
      dsimp only
      have hsome : 1 ≤ Q.length := Nat.pos_of_ne_zero hnone
      generalize Q.length * (33 - (c.level + 1)) = w
      omega

/-- **Quarters pushed**, one after another. -/
theorem Indexed.foldlM_quarter (h : Indexed s) (max : F64) (hT : T.Laws)
    (hfrm : Geo.valid frm.1 frm.2 = true) (hlevel : c.level < 32) {ds : List (Nat × Nat)}
    (hds : ∀ d ∈ ds, 2 * c.cx + d.1 < 2 ^ (c.level + 1) ∧ 2 * c.cy + d.2 < 2 ^ (c.level + 1))
    (hfront : Frontier T frm s.2 cells heap) :
    ∃ cells' heap', ds.foldlM (Geo.quarter s.1 T frm max c) (cells, heap) = some (cells', heap') ∧
      Frontier T frm s.2 cells' heap' ∧
      (reach T frm max s.2 cells' heap').Perm
        ((ds.flatMap fun d => rowsIn T frm s.2 (c.level + 1)
          (2 * c.cx + d.1, 2 * c.cy + d.2)).filter (within max) ++
          reach T frm max s.2 cells heap) ∧
      total T frm s.2 cells' heap' ≤ total T frm s.2 cells heap +
        (ds.flatMap fun d => rowsIn T frm s.2 (c.level + 1)
          (2 * c.cx + d.1, 2 * c.cy + d.2)).length * (33 - c.level) := by
  induction ds generalizing cells heap with
  | nil => exact ⟨cells, heap, rfl, hfront, .refl _, Nat.le_add_right _ _⟩
  | cons d ds ih =>
    obtain ⟨hx, hy⟩ := hds d List.mem_cons_self
    obtain ⟨cells₁, heap₁, hstep, hfront₁, hreach₁, htotal₁⟩ :=
      h.quarter max hT hfrm hfront hlevel hx hy
    obtain ⟨cells₂, heap₂, hrest, hfront₂, hreach₂, htotal₂⟩ :=
      ih (fun d hd => hds d (List.mem_cons_of_mem _ hd)) hfront₁
    refine ⟨cells₂, heap₂, ?_, hfront₂, ?_, ?_⟩
    · rw [List.foldlM_cons, hstep]
      exact hrest
    · refine hreach₂.trans ((hreach₁.append_left _).trans ?_)
      rw [List.flatMap_cons, List.filter_append, ← List.append_assoc]
      exact List.perm_append_comm.append_right _
    · rw [List.flatMap_cons, List.length_append, Nat.add_mul]
      omega

theorem cellOf_succ (hlevel : level < 32) (k : Nat) :
    cellOf level k = ((cellOf (level + 1) k).1 / 2, (cellOf (level + 1) k).2 / 2) := by
  have hshift : 32 - level = 32 - (level + 1) + 1 := by omega
  unfold cellOf
  rw [hshift, Nat.shiftRight_succ (squash (k >>> 1)), Nat.shiftRight_succ (squash k)]

/-- **The quarters of a cell part its rows.** -/
theorem quarters_perm (T : Trig) (frm : Point) (hlevel : level < 32)
    (rows : OrdMap (Option Value)) (cx cy : Nat) :
    (quarters.flatMap fun d => rowsIn T frm rows (level + 1) (2 * cx + d.1, 2 * cy + d.2)).Perm
      (rowsIn T frm rows level (cx, cy)) := by
  have hcells : quarters.map (fun d => (2 * cx + d.1, 2 * cy + d.2)) =
      [(2 * cx, 2 * cy), (2 * cx + 1, 2 * cy), (2 * cx, 2 * cy + 1),
        (2 * cx + 1, 2 * cy + 1)] := rfl
  have hnodup : (quarters.map fun d => (2 * cx + d.1, 2 * cy + d.2)).Nodup := by
    rw [hcells]
    simp
  have hparent : ∀ k, cellOf level k = (cx, cy) ↔
      cellOf (level + 1) k ∈ quarters.map fun d => (2 * cx + d.1, 2 * cy + d.2) := by
    intro k
    rw [cellOf_succ hlevel, hcells]
    generalize cellOf (level + 1) k = c
    obtain ⟨x, y⟩ := c
    simp only [Prod.mk.injEq, List.mem_cons, List.not_mem_nil, or_false]
    omega
  have hparted := flatMap_class_perm (fun e : DocId × Point => cellOf (level + 1) (key e.2))
    ((points rows).entries.filter fun e => decide (cellOf level (key e.2) = (cx, cy)))
    hnodup fun e he => (hparent (key e.2)).mp (of_decide_eq_true (List.mem_filter.mp he).2)
  have hrows := hparted.map (hit T frm)
  rw [List.map_flatMap, List.flatMap_map] at hrows
  refine (List.Perm.of_eq ?_).trans hrows
  refine List.flatMap_congr fun d hd => ?_
  unfold rowsIn
  rw [List.filter_filter]
  refine congrArg _ (List.filter_congr fun e _ => ?_)
  rw [Bool.eq_iff_iff, Bool.and_eq_true, decide_eq_true_eq, decide_eq_true_eq, hparent]
  refine ⟨fun heq => ⟨heq, ?_⟩, fun heq => heq.1⟩
  rw [heq]
  exact List.mem_map_of_mem hd

/-! ## 6. A cell read whole -/

/-- **The points of a range pushed** are its rows with their distances. -/
theorem Indexed.gather (h : Indexed s) (hT : T.Laws) (hfrm : Geo.valid frm.1 frm.2 = true)
    {pointAt : DocId → Result (Option Point)}
    (hread : ∀ id p, (points s.2).get id = some p → pointAt id = .ok (some p))
    {l : List Entry} (hl : ∀ e ∈ l, e ∈ s.1.keys.entries)
    (hfront : Frontier T frm s.2 cells heap) :
    ∃ heap', Geo.gather T frm pointAt heap l = .ok heap' ∧ Frontier T frm s.2 cells heap' ∧
      heap'.Perm ((l.filterMap fun e => ((points s.2).get (ofLex e).2).map fun p =>
        hit T frm ((ofLex e).2, p)) ++ heap) := by
  induction l generalizing heap with
  | nil => exact ⟨heap, rfl, hfront, .refl _⟩
  | cons e l ih =>
    obtain ⟨id, p, hp, rfl⟩ := (h.mem e).mp (hl e List.mem_cons_self)
    have hid : (ofLex (entryOf id p)).2 = id := rfl
    have hsound : Sound T frm s.2 cells (hit T frm (id, p)) := .inl ⟨rfl, h.number_hit hT hfrm hp⟩
    obtain ⟨heap', hrest, hfront', hperm⟩ :=
      ih (fun e he => hl e (List.mem_cons_of_mem _ he)) (hfront.push hsound)
    refine ⟨heap', ?_, hfront', ?_⟩
    · unfold Geo.gather at hrest ⊢
      rw [List.foldlM_cons, hid, hread id p hp]
      exact hrest
    · rw [List.filterMap_cons, hid, hp, Option.map_some]
      refine hperm.trans ((perm_push.append_left _).trans ?_)
      exact List.perm_middle

/-- A cell read whole puts its rows in its place. -/
theorem Indexed.gather_cell (h : Indexed s) (hT : T.Laws) (hfrm : Geo.valid frm.1 frm.2 = true)
    {pointAt : DocId → Result (Option Point)}
    (hread : ∀ id p, (points s.2).get id = some p → pointAt id = .ok (some p))
    (hlevel : level ≤ 32) {cx cy : Nat} (hcx : cx < 2 ^ level) (hcy : cy < 2 ^ level)
    (hfront : Frontier T frm s.2 cells heap) :
    ∃ l heap', s.1.range (cellKeys level cx cy) = some l ∧
      Geo.gather T frm pointAt heap l = .ok heap' ∧ Frontier T frm s.2 cells heap' ∧
      heap'.Perm (rowsIn T frm s.2 level (cx, cy) ++ heap) := by
  have hrange := GeoIndex.range_eq (c := cellKeys level cx cy) h.good h.ids
  obtain ⟨heap', hgather, hfront', hperm⟩ :=
    h.gather hT hfrm hread (fun e he => (List.mem_filter.mp he).1) hfront
  refine ⟨_, heap', hrange, hgather, hfront', hperm.trans (List.Perm.append_right _ ?_)⟩
  refine ((h.range_perm hlevel hcx hcy).filterMap _).trans (List.Perm.of_eq ?_)
  unfold rowsIn
  rw [List.filterMap_map, ← List.filterMap_eq_map]
  refine List.filterMap_congr fun e he => ?_
  have hget : (points s.2).get e.1 = some e.2 :=
    OrdMap.mem_entries_iff.mp (List.mem_filter.mp he).1
  show ((points s.2).get e.1).map (fun p => hit T frm (e.1, p)) = some (hit T frm e)
  rw [hget]
  rfl

end Opened

/-! ## 7. Turn after turn -/

section Turns

variable {σ : Type} {s : GeoIndex × OrdMap (Option Value)} {T : Trig} {frm : Point} {max : F64}
  {pointAt : DocId → Result (Option Point)} {visit : σ → DocId → F64 → Result (σ × Bool)}
  {seen₀ : σ} {cells : List Cell} {heap : List Near} {item : Near} {m : Nat} {w : Search σ}

/-- **What a search is between turns**: the rows it has still to visit are, in order, those its
heap stands for. -/
structure Pending (s : GeoIndex × OrdMap (Option Value)) (T : Trig) (frm : Point) (max : F64)
    (visit : σ → DocId → F64 → Result (σ × Bool)) (seen₀ : σ) (m : Nat) (w : Search σ) : Prop where
  frontier : Frontier T frm s.2 w.cells w.heap
  rest : ∃ rest : List Near, rest.Pairwise (fun a b => a.rank < b.rank) ∧
    rest.Perm (reach T frm max s.2 w.cells w.heap) ∧
    visitAll visit w.seen rest = visitAll visit seen₀ (hits T frm max s.2)
  weight : total T frm s.2 w.cells w.heap = m

/-- An item is at no more than the distance of any row it stands for. -/
theorem Indexed.under_le (h : Indexed s) (hT : T.Laws) (hfrm : Geo.valid frm.1 frm.2 = true)
    (hsound : Sound T frm s.2 cells item) {n : Near} (hn : n ∈ under T frm s.2 cells item) :
    item.at_.totalKey ≤ n.at_.totalKey ∧ n.at_.isNaN = false := by
  rcases hsound with ⟨hpoint, hnum⟩ | ⟨hpoint, c, hc, -, -, -, hfloor⟩
  · rw [under_point hpoint, List.mem_singleton] at hn
    rw [hn]
    exact ⟨Int.le_refl _, hnum⟩
  · rw [under_cell _ _ _ hpoint hc] at hn
    obtain ⟨id, p, hp, -, rfl⟩ := mem_rowsIn.mp hn
    exact ⟨hfloor _ hn, h.number_hit hT hfrm hp⟩

theorem mem_reach {n : Near} (hn : n ∈ reach T frm max s.2 cells heap) :
    ∃ item ∈ heap, n ∈ under T frm s.2 cells item :=
  List.mem_flatMap.mp (List.mem_filter.mp hn).1

/-- **Nothing is within reach once what is popped is not.** -/
theorem Indexed.reach_far (h : Indexed s) (hT : T.Laws) (hfrm : Geo.valid frm.1 frm.2 = true)
    (hfront : Frontier T frm s.2 cells (item :: heap)) (hfar : max.lt item.at_ = true) :
    reach T frm max s.2 cells (item :: heap) = [] := by
  obtain ⟨hfirst, -⟩ := List.pairwise_cons.mp hfront.sorted
  obtain ⟨hmax, -, hlt⟩ := Ieee.lt_iff.mp hfar
  refine List.eq_nil_iff_forall_not_mem.mpr fun n hn => ?_
  obtain ⟨item', hitem', hunder⟩ := mem_reach hn
  obtain ⟨hle, hnum⟩ := h.under_le hT hfrm (hfront.sound item' hitem') hunder
  have hpopped : item.at_.totalKey ≤ item'.at_.totalKey := by
    rcases List.mem_cons.mp hitem' with rfl | hitem'
    · exact Int.le_refl _
    · exact key_le_of_rank (hfirst item' hitem')
  have hpast : max.lt n.at_ = true := Ieee.lt_iff.mpr ⟨hmax, hnum,
    Int.lt_of_lt_of_le hlt (Ieee.ord_le_of_totalKey (Int.le_trans hpopped hle))⟩
  have hwithin := (List.mem_filter.mp hn).2
  unfold within at hwithin
  rw [hpast] at hwithin
  cases hwithin

/-- **A popped point comes before every row there still is.** -/
theorem Indexed.point_least (h : Indexed s) (hT : T.Laws) (hfrm : Geo.valid frm.1 frm.2 = true)
    (hfront : Frontier T frm s.2 cells (item :: heap)) (hpoint : item.point = true) {n : Near}
    (hn : n ∈ reach T frm max s.2 cells heap) : item.rank ≤ n.rank := by
  obtain ⟨hfirst, -⟩ := List.pairwise_cons.mp hfront.sorted
  obtain ⟨item', hitem', hunder⟩ := mem_reach hn
  have hrank := hfirst item' hitem'
  have hsound := hfront.sound item' (List.mem_cons_of_mem _ hitem')
  cases hcell : item'.point with
  | true =>
    rw [under_point hcell, List.mem_singleton] at hunder
    rwa [hunder]
  | false =>
    have hle := (h.under_le hT hfrm hsound hunder).1
    exact le_of_lt (rank_lt_of_key (Int.lt_of_lt_of_le (key_lt_of_rank hrank hpoint hcell) hle))

theorem Frontier.tail (h : Frontier T frm s.2 cells (item :: heap)) :
    Frontier T frm s.2 cells heap :=
  ⟨(List.pairwise_cons.mp h.sorted).2, fun i hi => h.sound i (List.mem_cons_of_mem _ hi)⟩

/-- Rows put into a heap are within reach as they are. -/
theorem reach_rows {c : Nat × Nat} {level : Nat} :
    reach T frm max s.2 cells (rowsIn T frm s.2 level c ++ heap) =
      (rowsIn T frm s.2 level c).filter (within max) ++ reach T frm max s.2 cells heap := by
  have hrows : (rowsIn T frm s.2 level c).flatMap (under T frm s.2 cells) =
      rowsIn T frm s.2 level c := by
    conv_rhs => rw [← List.flatMap_singleton' (rowsIn T frm s.2 level c)]
    refine List.flatMap_congr fun n hn => ?_
    obtain ⟨id, p, -, -, rfl⟩ := mem_rowsIn.mp hn
    exact under_point rfl
  unfold reach
  rw [List.flatMap_append, List.filter_append, hrows]

theorem total_rows {c : Nat × Nat} {level : Nat} :
    total T frm s.2 cells (rowsIn T frm s.2 level c ++ heap) =
      (rowsIn T frm s.2 level c).length + total T frm s.2 cells heap := by
  have hrows : ((rowsIn T frm s.2 level c).map (weight T frm s.2 cells)).sum =
      (rowsIn T frm s.2 level c).length := by
    rw [List.map_congr_left (g := fun _ => 1) fun n hn => by
      obtain ⟨id, p, -, -, rfl⟩ := mem_rowsIn.mp hn
      exact weight_point rfl]
    rw [List.map_const', List.sum_replicate_nat, Nat.mul_one]
  unfold total
  rw [List.map_append, List.sum_append_nat, hrows]

theorem quarters_le {d : Nat × Nat} (hd : d ∈ quarters) : d.1 ≤ 1 ∧ d.2 ≤ 1 := by
  unfold quarters at hd
  simp only [List.mem_cons, List.not_mem_nil, or_false] at hd
  rcases hd with rfl | rfl | rfl | rfl <;> exact ⟨by decide, by decide⟩

/-- **A turn of the search**: it goes on with less of what was pending, or comes to what the
visits in order come to. -/
theorem Indexed.turn (h : Indexed s) (hT : T.Laws) (hfrm : Geo.valid frm.1 frm.2 = true)
    (hread : ∀ id p, (points s.2).get id = some p → pointAt id = .ok (some p))
    (hw : Pending s T frm max visit seen₀ m w) :
    (∀ w', Geo.turn s.1 T frm max pointAt visit w = .again w' →
      ∃ m', m' < m ∧ Pending s T frm max visit seen₀ m' w') ∧
    (∀ r, Geo.turn s.1 T frm max pointAt visit w = .done r →
      r = some (visitAll visit seen₀ (hits T frm max s.2))) := by
  obtain ⟨cells, heap, seen⟩ := w
  obtain ⟨hfront, ⟨rest, hsorted, hperm, hvisits⟩, hweight⟩ := hw
  dsimp only at hfront hperm hvisits hweight
  unfold Geo.turn
  dsimp only
  cases heap with
  | nil =>
    -- nothing is left
    have hnil : rest = [] := hperm.eq_nil
    rw [hnil] at hvisits
    exact ⟨fun w' h => (by cases h), fun r h => by cases h; exact congrArg some hvisits⟩
  | cons item heap =>
    dsimp only
    by_cases hfar : max.lt item.at_ = true
    · -- nothing that is left is near enough
      have hnil : rest = [] := by
        rw [h.reach_far hT hfrm hfront hfar] at hperm
        exact hperm.eq_nil
      rw [hnil] at hvisits
      rw [if_pos hfar]
      exact ⟨fun w' h => (by cases h), fun r h => by cases h; exact congrArg some hvisits⟩
    rw [if_neg hfar]
    rw [total_cons] at hweight
    rw [reach_cons] at hperm
    cases hpoint : item.point with
    | true =>
      -- the point is the first of what is left
      rw [if_pos rfl]
      rw [weight_point hpoint] at hweight
      have hwithin : within max item = true := by
        unfold within
        rw [Bool.eq_false_of_not_eq_true hfar]
        rfl
      rw [under_point hpoint, List.filter_cons_of_pos hwithin] at hperm
      obtain ⟨rest', rfl, hrest⟩ := exists_cons_of_least hsorted hperm
        fun n hn => h.point_least hT hfrm hfront hpoint hn
      rw [visitAll] at hvisits
      cases hvisit : visit seen item.id item.at_ with
      | error e =>
        rw [hvisit] at hvisits
        exact ⟨fun w' h => (by cases h), fun r h => by cases h; exact congrArg some hvisits⟩
      | ok out =>
        obtain ⟨seen', more⟩ := out
        rw [hvisit] at hvisits
        dsimp only at hvisits ⊢
        cases more with
        | false =>
          exact ⟨fun w' h => (by cases h), fun r h => by cases h; exact congrArg some hvisits⟩
        | true =>
          refine ⟨fun w' h => ?_, fun r h => (by cases h)⟩
          cases h
          exact ⟨total T frm s.2 cells heap, by omega, hfront.tail,
            ⟨rest', (List.pairwise_cons.mp hsorted).2, hrest, hvisits⟩, rfl⟩
    | false =>
      rw [if_neg Bool.false_ne_true]
      obtain ⟨c, hc, hlevel, hcx, hcy, -⟩ :=
        ((hfront.sound item List.mem_cons_self).resolve_left fun hp => by
          rw [hpoint] at hp; cases hp.1).2
      rw [weight_cell _ _ _ hpoint hc] at hweight
      rw [under_cell _ _ _ hpoint hc] at hperm
      rw [hc]
      dsimp only
      split
      · -- a cell of few points, or of one place: its points instead
        obtain ⟨l, heap', hrange, hgather, hfront', hheap⟩ :=
          h.gather_cell hT hfrm hread hlevel hcx hcy hfront.tail
        rw [hrange]
        dsimp only
        rw [hgather]
        refine ⟨fun w' h => ?_, fun r h => (by cases h)⟩
        cases h
        refine ⟨_, ?_, hfront', ⟨rest, hsorted, hperm.trans ?_, hvisits⟩, rfl⟩
        · dsimp only
          rw [total_perm hheap, total_rows]
          have hone : (rowsIn T frm s.2 c.level (c.cx, c.cy)).length * 1 ≤
              (rowsIn T frm s.2 c.level (c.cx, c.cy)).length * (33 - c.level) :=
            Nat.mul_le_mul_left _ (by omega)
          omega
        · rw [← reach_rows]
          exact (reach_perm hheap).symm
      · next hlarge =>
        have hdeep : c.level < 32 := Nat.lt_of_le_of_ne hlevel fun h => hlarge (.inr h)
        have hds : ∀ d ∈ quarters,
            2 * c.cx + d.1 < 2 ^ (c.level + 1) ∧ 2 * c.cy + d.2 < 2 ^ (c.level + 1) := by
          intro d hd
          have hone : d.1 ≤ 1 ∧ d.2 ≤ 1 := quarters_le hd
          rw [Nat.pow_succ]
          omega
        obtain ⟨cells', heap', hquarters, hfront', hreach, htotal⟩ :=
          h.foldlM_quarter max hT hfrm hdeep hds hfront.tail
        have hparted := quarters_perm T frm hdeep s.2 c.cx c.cy
        rw [hparted.length_eq] at htotal
        rw [hquarters]
        refine ⟨fun w' h => ?_, fun r h => (by cases h)⟩
        cases h
        refine ⟨_, ?_, hfront', ⟨rest, hsorted, hperm.trans ?_, hvisits⟩, rfl⟩
        · dsimp only
          omega
        · exact (((hparted.filter _).append_right _).symm).trans hreach.symm

/-! ## 8. The whole search -/

/-- The rows within reach, each once and in order. -/
theorem hits_perm : (hits T frm max s.2).Perm
    (((points s.2).entries.map (hit T frm)).filter (within max)) := List.mergeSort_perm _ _

theorem hits_ascending : (hits T frm max s.2).Pairwise fun a b => a.rank < b.rank := by
  have hle : (hits T frm max s.2).Pairwise fun a b => a.rank ≤ b.rank := by
    have hsort : (hits T frm max s.2).Pairwise fun a b => decide (a.rank ≤ b.rank) = true :=
      @List.pairwise_mergeSort _ (fun a b : Near => decide (a.rank ≤ b.rank))
        (fun a b c hab hbc => decide_eq_true
          (le_trans (of_decide_eq_true hab) (of_decide_eq_true hbc)))
        (fun a b => by simpa using le_total a.rank b.rank) _
    exact hsort.imp fun h => of_decide_eq_true h
  have hne : (hits T frm max s.2).Pairwise fun a b => a.id ≠ b.id := by
    refine (hits_perm.pairwise_iff fun h => h.symm).mpr (List.Pairwise.filter _ ?_)
    rw [List.pairwise_map]
    exact (points s.2).ascending.imp fun h => Nat.ne_of_lt h
  exact (hle.and hne).imp fun h => lt_of_le_of_ne h.1 fun heq =>
    h.2 (congrArg (fun r => (ofLex (ofLex r).2).2) heq)

theorem mem_hits {n : Near} : n ∈ hits T frm max s.2 ↔ ∃ id p, (points s.2).get id = some p ∧
    max.lt (T.distance p frm) = false ∧ n = hit T frm (id, p) := by
  rw [hits_perm.mem_iff, List.mem_filter, List.mem_map]
  unfold within
  constructor
  · rintro ⟨⟨⟨id, p⟩, he, rfl⟩, hwithin⟩
    rw [hit_at] at hwithin
    exact ⟨id, p, OrdMap.mem_entries_iff.mp he, by simpa using hwithin, rfl⟩
  · rintro ⟨id, p, hp, hwithin, rfl⟩
    rw [hit_at]
    exact ⟨⟨(id, p), OrdMap.mem_entries_iff.mpr hp, rfl⟩, by simpa using hwithin⟩

theorem point_of_mem_hits {n : Near} (h : n ∈ hits T frm max s.2) : n.point = true := by
  obtain ⟨id, p, -, -, rfl⟩ := mem_hits.mp h
  rfl

/-- The cell of all holds every row. -/
theorem rowsIn_zero : rowsIn T frm s.2 0 (0, 0) = (points s.2).entries.map (hit T frm) := by
  unfold rowsIn
  rw [List.filter_eq_self.mpr]
  intro e _
  have hlt := cellOf_lt (Nat.zero_le 32) (key e.2)
  exact decide_eq_true (Prod.ext (Nat.lt_one_iff.mp hlt.1) (Nat.lt_one_iff.mp hlt.2))

theorem negInfinity_le {x : F64} (h : x.isNaN = false) : negInfinity.totalKey ≤ x.totalKey := by
  have hmag := Ieee.mag_le_of_number h
  have hinf : Ieee.infMag 11 52 < 2 ^ (11 + 52) := Ieee.infMag_lt
  unfold negInfinity Ieee.totalKey
  rw [Ieee.neg_ofMag hinf, Ieee.mag_ofMag hinf, if_pos rfl]
  split <;> omega

/-- **What a search starts from** stands for every row. -/
theorem Indexed.pending (h : Indexed s) (max : F64)
    (visit : σ → DocId → F64 → Result (σ × Bool)) (seen₀ : σ) (hT : T.Laws) (hfrm : Geo.valid frm.1 frm.2 = true) :
    ∃ m, Pending s T frm max visit seen₀ m (start s.1 seen₀) := by
  have hrows : under T frm s.2 [⟨0, 0, 0, s.1.keys.len⟩] ⟨negInfinity, false, 0⟩ =
      (points s.2).entries.map (hit T frm) := rowsIn_zero
  refine ⟨_, ⟨List.pairwise_singleton _ _, fun item hitem => ?_⟩,
    ⟨hits T frm max s.2, hits_ascending, ?_, rfl⟩, rfl⟩
  · obtain rfl := List.mem_singleton.mp hitem
    refine .inr ⟨rfl, _, rfl, Nat.zero_le _, Nat.one_pos, Nat.one_pos, fun n hn => ?_⟩
    obtain ⟨id, p, hp, -, rfl⟩ := mem_rowsIn.mp hn
    exact negInfinity_le (h.number_hit hT hfrm hp)
  · unfold reach start
    dsimp only
    rw [List.flatMap_singleton, hrows]
    exact hits_perm

/-- **`nearest` ends**, having visited the rows within `max` in order of distance and id, each
once, until one was the last that was wanted. -/
theorem Indexed.nearest (h : Indexed s) (hT : T.Laws) (hfrm : Geo.valid frm.1 frm.2 = true)
    (hread : ∀ id p, (points s.2).get id = some p → pointAt id = .ok (some p)) :
    Returns (Geo.turn s.1 T frm max pointAt visit) (start s.1 seen₀)
      (some (visitAll visit seen₀ (hits T frm max s.2))) := by
  obtain ⟨m, hstart⟩ := h.pending max visit seen₀ hT hfrm
  obtain ⟨r, hreturns, hr⟩ := returns_of_keeps
    (I := Pending s T frm max visit seen₀)
    (fun _ _ _ hw hturn => (h.turn hT hfrm hread hw).1 _ hturn)
    (fun _ _ _ hw hturn => (h.turn hT hfrm hread hw).2 _ hturn) hstart
  exact hr ▸ hreturns

end Turns

/-! ## 9. The index as a whole -/

/-- **What `candidates` answers**: nothing exactly where more were met than may be named, and
otherwise the rows with a key in the shape's rectangles, which the rows in the shape are among. -/
structure Narrows (T : Trig) (rows : OrdMap (Option Value)) (shape : Shape) (cap : Nat)
    (named : Option (List DocId)) : Prop where
  refused : named = none ↔ cap < (metBy rows (T.rects shape)).length
  ascending : ∀ ids, named = some ids → ids.Pairwise (· < ·)
  names : ∀ ids, named = some ids → ∀ id, id ∈ ids ↔
    ∃ p, (points rows).get id = some p ∧ ∃ r ∈ T.rects shape, r.holds (key p) = true
  inside : ∀ ids, named = some ids → ∀ id p, (points rows).get id = some p →
    T.inside p shape = true → id ∈ ids

/-- **What `nearest` visits**: the rows within `max`, in order of distance and id. -/
structure Visits (T : Trig) (rows : OrdMap (Option Value)) (frm : Point) (max : F64)
    (visited : List Near) : Prop where
  ascending : visited.Pairwise fun a b => a.at_.totalKey < b.at_.totalKey ∨
    a.at_.totalKey = b.at_.totalKey ∧ a.id < b.id
  mem : ∀ id at_, (∃ n ∈ visited, n.id = id ∧ n.at_ = at_) ↔
    ∃ p, (points rows).get id = some p ∧ at_ = T.distance p frm ∧ max.lt at_ = false
  once : (visited.map Near.id).Nodup

theorem visits_hits (T : Trig) (s : GeoIndex × OrdMap (Option Value)) (frm : Point) (max : F64) :
    Visits T s.2 frm max (hits T frm max s.2) where
  ascending := by
    refine hits_ascending.imp_of_mem fun {a b} ha hb hlt => ?_
    exact lt_of_rank_lt hlt ((point_of_mem_hits ha).trans (point_of_mem_hits hb).symm)
  mem := by
    intro id at_
    constructor
    · rintro ⟨n, hn, rfl, rfl⟩
      obtain ⟨id, p, hp, hwithin, rfl⟩ := mem_hits.mp hn
      exact ⟨p, hp, hit_at id p, by rwa [hit_at]⟩
    · rintro ⟨p, hp, hat, hwithin⟩
      rw [hat] at hwithin
      exact ⟨hit T frm (id, p), mem_hits.mpr ⟨id, p, hp, hwithin, rfl⟩, rfl,
        (hit_at id p).trans hat.symm⟩
  once := by
    refine ((hits_perm.map Near.id).nodup_iff).mpr ?_
    rw [List.nodup_iff_pairwise_ne, List.pairwise_map]
    refine List.Pairwise.filter _ ?_
    rw [List.pairwise_map]
    exact (points s.2).ascending.imp fun h => Nat.ne_of_lt h

/-- **The point index**: its keys interleave the two coordinates, a cell is a range of them, and a
cover meets every key of its rectangle; and after any run of writes of rows, `candidates` narrows
to a shape without losing a row of it, and `nearest` visits the rows within `max` in order. -/
theorem point_index {T : Trig} (hT : T.Laws) (rows : OrdMap (Option Value))
    (hrows : ∀ id p, (points rows).get id = some p → id < Near.docMax ∧ valid p.1 p.2 = true)
    (ws : List Write) (hws : Along writeStep Fits (.build (points rows).entries, rows) ws) :
    (∀ x < 2 ^ 32, squash (spread x) = x) ∧
    (∀ p i, (key p).testBit (2 * i) = (quantLat p.2).toNat.testBit i ∧
      (key p).testBit (2 * i + 1) = (quantLon p.1).toNat.testBit i) ∧
    (∀ level ≤ 32, ∀ cx < 2 ^ level, ∀ cy < 2 ^ level, ∀ k < 2 ^ 64,
      (cellKeys level cx cy).1 ≤ k ∧ k ≤ (cellKeys level cx cy).2 ↔
        squash (k >>> 1) >>> (32 - level) = cx ∧ squash k >>> (32 - level) = cy) ∧
    (∀ (r : Rect), ∀ k < 2 ^ 64, r.holds k = true → ∃ c ∈ cover r, c.1 ≤ k ∧ k ≤ c.2) ∧
    ∃ s, run writeStep (.build (points rows).entries, rows) ws = some s ∧
      (∀ (shape : Shape) (cap : Nat), shape.Sound →
        ∃ named, s.1.candidates T shape cap = some named ∧ Narrows T s.2 shape cap named) ∧
      ∀ (σ : Type) (frm : Point) (max : F64) (pointAt : DocId → Result (Option Point))
        (visit : σ → DocId → F64 → Result (σ × Bool)) (seen : σ), valid frm.1 frm.2 = true →
        (∀ id p, (points s.2).get id = some p → pointAt id = .ok (some p)) →
        ∃ visited, Visits T s.2 frm max visited ∧
          Returns (turn s.1 T frm max pointAt visit) (start s.1 seen)
            (some (visitAll visit seen visited)) := by
  refine ⟨fun x hx => squash_spread hx, fun p i => ?_, ?_, fun r k hk hr => ?_, ?_⟩
  · have hx := (quantLon p.1).toNat_lt
    have hy := (quantLat p.2).toNat_lt
    unfold key
    rw [testBit_interleave hx hy, testBit_interleave hx hy]
    have heven : 2 * i % 2 = 0 ∧ 2 * i / 2 = i := by omega
    have hodd : (2 * i + 1) % 2 ≠ 0 ∧ (2 * i + 1) / 2 = i := by omega
    rw [if_pos heven.1, if_neg hodd.1, heven.2, hodd.2]
    exact ⟨rfl, rfl⟩
  · intro level hlevel cx hcx cy hcy k hk
    rw [mem_cellKeys hlevel hcx hcy hk]
    exact Prod.mk_inj
  · have hlevel : r.finest 0 ≤ 32 := finest_le (Nat.zero_le _)
    have hcell : cellOf (r.finest 0) k ∈ r.cellsAt (r.finest 0) := cellOf_mem hr
    obtain ⟨hx, hy⟩ := cellOf_lt hlevel k
    exact ⟨_, List.mem_map_of_mem hcell, (mem_cellKeys hlevel hx hy hk).mpr rfl⟩
  · obtain ⟨s, hrun, h⟩ := indexed_run
      (indexed_build (fun id p hp => (hrows id p hp).1) fun id p hp => (hrows id p hp).2) hws
    refine ⟨s, hrun, fun shape cap hshape => ?_, fun σ frm max pointAt visit seen hfrm hread => ?_⟩
    · obtain ⟨named, hcandidates, hnone, hsome⟩ := h.candidates T shape cap
      refine ⟨named, hcandidates, hnone, fun ids hids => (hsome ids hids).1,
        fun ids hids => (hsome ids hids).2, fun ids hids id p hp hin => ?_⟩
      exact ((hsome ids hids).2 id).mpr ⟨p, hp, h.narrows hT hshape hp hin⟩
    · exact ⟨_, visits_hits T s frm max, h.nearest hT hfrm hread⟩

/-! ## 10. Antipodes -/

/-- Functions that measure any two points as the engine's do antipodes. -/
def antipodal : Trig where
  sin x := if x.mag = 0 then .posZero else Ieee.ofInt 1
  cos _ := Ieee.ofInt 1
  asin _ := halfPi
  sqrt x := x

/-- Half the way round the earth. -/
def halfway : F64 := diameter.mul halfPi

theorem metres_antipodal (h : F64) : antipodal.metres h = halfway := by
  rw [Trig.metres, antipodal, halfway]

theorem distance_antipodal (a b : Point) : antipodal.distance a b = halfway := by
  rw [Trig.distance, metres_antipodal]

/-- What the numbers of half the way round are. -/
theorem halfway_numbers :
    (((halfway.sub (Ieee.ofInt 1)).sub (halfway.mul pad)).le halfway = true ∧
      halfway.neg = false ∧ pad.isFinite = true) ∧
    pi.le (((halfway.div earthRadiusM).mul ((Ieee.ofInt 1 : F64).add pad)).add pad) = true ∧
    (earthRadiusM.isFinite = true ∧ earthRadiusM.neg = false ∧ earthRadiusM.mag ≠ 0) ∧
    ((Ieee.ofInt 1 : F64).add pad).isFinite = true ∧
      ((Ieee.ofInt 1 : F64).add pad).neg = false ∧ ((Ieee.ofInt 1 : F64).add pad).mag ≠ 0 := by
  decide +kernel

/-- A circle of half the way round is the whole earth. -/
theorem whole_earth {r : F64} (h : halfway.le r = true) :
    pi.le (((r.div earthRadiusM).mul ((Ieee.ofInt 1 : F64).add pad)).add pad) = true := by
  obtain ⟨⟨-, -, hpad⟩, hhalf, ⟨hfinite, hneg, hmag⟩, hfinite', hneg', hmag'⟩ := halfway_numbers
  exact Ieee.le_trans hhalf (Ieee.add_mono hpad
    (Ieee.mul_mono ⟨hfinite', hneg', hmag'⟩ (Ieee.div_mono ⟨hfinite, hneg, hmag⟩ h)))

theorem laws_antipodal : antipodal.Laws where
  circle_holds c p r _ hp _ _ hr := by
    rw [distance_antipodal] at hr
    unfold Trig.circleEdges
    rw [if_pos (whole_earth hr)]
    refine ⟨_, List.mem_singleton_self _, ?_⟩
    unfold valid at hp
    unfold Edges.holds
    simp only [Bool.and_eq_true] at hp ⊢
    exact hp
  floor_le frm p level _ _ _ := by
    rw [distance_antipodal]
    unfold Trig.floorAt Trig.cellFloor
    simp only [metres_antipodal]
    exact halfway_numbers.1.1
  distance_pos a b _ _ := by
    rw [distance_antipodal]
    exact halfway_numbers.1.2.1

/-- A row at the far end of the equator, indexed and searched for from where it starts. -/
theorem point_index_antipode :
    ∃ s, run writeStep (.build (points .empty).entries, .empty)
        [.insert 1 (some (geoValue (Ieee.ofInt 180, .posZero)))] = some s ∧
      (∃ named, s.1.candidates antipodal (.circle (.posZero, .posZero) halfway) 5 = some named ∧
        Narrows antipodal s.2 (.circle (.posZero, .posZero) halfway) 5 named) ∧
      ∃ visited, Visits antipodal s.2 (.posZero, .posZero) halfway visited ∧
        Returns (turn s.1 antipodal (.posZero, .posZero) halfway
            (fun id => .ok ((points s.2).get id)) fun met _ _ => .ok (met + 1, true))
          (start s.1 0) (some (visitAll (fun met _ _ => .ok (met + 1, true)) 0 visited)) := by
  have hvalid : valid (Ieee.ofInt 180) .posZero = true := by decide +kernel
  have hzero : valid .posZero .posZero = true := by decide +kernel
  obtain ⟨-, -, -, -, s, hrun, hcandidates, hnearest⟩ :=
    point_index laws_antipodal .empty (fun id p hp => (by cases hp))
      [.insert 1 (some (geoValue (Ieee.ofInt 180, .posZero)))]
      ⟨⟨rfl, by decide, fun p hp => by
        rw [Option.bind_some, pointIn_geoValue] at hp
        exact Option.some.inj hp ▸ hvalid⟩, fun _ _ => trivial⟩
  have hsound : Shape.Sound (.circle (.posZero, .posZero) halfway) :=
    ⟨hzero, by decide +kernel, by decide +kernel⟩
  exact ⟨s, hrun, hcandidates _ 5 hsound,
    hnearest Nat (.posZero, .posZero) halfway _ _ 0 hzero fun id p hp => congrArg _ hp⟩

end Fenec.Geo
