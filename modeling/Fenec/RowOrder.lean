/-
# The first rows of an order

An `order` clause's keys are read of every row into one flat list (`orderIds`), a `nocase` key's
texts folded once a row (`foldedKeys`), and the places of the rows are put in order by their keys
and then by place (`orderRows`): where only the first so many are asked for, these are selected
first and only they are sorted.

Two rows' keys compare folded as they do unfolded (`rank_folded`), since a `nocase` field holds a
text or nothing.  Where the keys rank the rows consistently there is one order of them that ties by
place (`Stable`), and what is selected and sorted is its start (`orderRows_eq`).

* §1 is the code, §2 the order asked for, §3 the order as it is found, §4 the folds, §5 the ids,
  §6 the result.

Not every list of values is: an integer and a float are compared as floats, so that two integers
past 2^53 may both tie with a float and not with each other (`ties_by_place`).
-/
import Fenec.Lib.Select
import Fenec.Aggregate
import Fenec.Alter
import Fenec.ValueOrder

namespace Fenec.RowOrder

open Lib Case

/-! ## 1. The code -/

/-- `Sort`: a key of an `order` clause. -/
structure SortBy where
  field : String
  asc : Bool
  collate : Option Collation

/-- `OrderKey`: a field's position, none for `id`, whether it ascends, how its text compares, and
the keys past it of a path. -/
structure OrderKey where
  pos : Option Nat
  asc : Bool
  text : TextOrder
  path : Option String
deriving DecidableEq

/-- `source_or_err`: the field a name reads, and the keys into it; an error names the owner. -/
def sourceOrErr (s : Schema) (name owner : String) : Result (Nat × Option String) := do
  match (← s.pathOf name) with
  | some (pos, keys) => pure (pos, some keys)
  | none => match s.fieldPos name with
    | some p => pure (p, none)
    | none => .error (noField (owner ++ name))

/-- The type a key's collation is checked against: a path's values may be texts. -/
def collatedType (s : Schema) : Option Nat × Option String → DataType
  | (_, some _) => .text
  | (some p, none) => ((s.fields[p]?).map (·.ty)).getD .json
  | (none, none) => .int

/-- A field's own order; a path's and the id's is the bytes'. -/
def fieldOrder (s : Schema) : Option Nat × Option String → TextOrder
  | (some p, none) => ((s.fields[p]?).map Field.textOrder).getD .bytes
  | _ => .bytes

/-- Where a key reads: no field for `id`, and the keys past a path's. -/
def keySource (s : Schema) (owner : String) (o : SortBy) : Result (Option Nat × Option String) :=
  if o.field = "id" then .ok (none, none)
  else do
    let (p, keys) ← sourceOrErr s o.field owner
    pure (some p, keys)

/-- Only text takes a collation. -/
def checkCollate (s : Schema) (owner : String) (o : SortBy) (at_ : Option Nat × Option String) :
    Result Unit :=
  match o.collate with
  | none => .ok ()
  | some c =>
    if collatable (collatedType s at_) then .ok ()
    else .error (.query ("`collate " ++ c.name ++ "` orders text; `" ++ owner ++ o.field ++
      "` is " ++ (collatedType s at_).name))

/-- **`order_key`**. -/
def orderKey (s : Schema) (owner : String) (o : SortBy) : Result OrderKey := do
  let at_ ← keySource s owner o
  checkCollate s owner o at_
  let field := fieldOrder s at_
  pure ⟨at_.1, o.asc, ⟨o.collate <|> field.coll, field.fold⟩, at_.2⟩

/-- Two values of a key. -/
def compareKey (B : Build) (key : OrderKey) (x y : Value) : Ordering :=
  let o := if key.text.isBytes then x.cmpValue y else key.text.compareValues B x y
  if key.asc then o else o.swap

/-- **`rank`**: two rows' keys, before any tie-break.  A row is as wide as the keys. -/
def rank (B : Build) : List OrderKey → List Value → List Value → Ordering
  | key :: keys, x :: a, y :: b => (compareKey B key x y).then (rank B keys a b)
  | _, _, _ => .eq

/-- **`order_rows`**: the places of the first `k` of `count` rows, each `n` values of a list. -/
def orderRows (S : Sorts Nat) (B : Build) (flat : List Value) (n count : Nat)
    (keys : List OrderKey) (k : Nat) : List Nat :=
  let row (i : Nat) := (flat.drop (i * n)).take n
  let cmp (a b : Nat) := (rank B keys (row a) (row b)).then (compare a b)
  let idx := List.range count
  if k = 0 then []
  else
    let idx := if k < idx.length then (S.selectNthUnstableBy cmp (k - 1) idx).take k else idx
    S.sortUnstableBy cmp idx

/-- A key's value folded where the key folds. -/
def foldValue (B : Build) (fold : Option CaseFold) (v : Value) : Value :=
  match fold, v with
  | some f, .text t => .text (Case.fold B.chars f t)
  | _, v => v

/-- **`folded_keys`**: the `nocase` keys' texts made their folds, and the keys that order them. -/
def foldedKeys (B : Build) (flat : List Value) (keys : List OrderKey) :
    List Value × List OrderKey :=
  (flat.zipIdx.map fun vi =>
      foldValue B ((keys[vi.2 % keys.length]?).bind (·.text.fold)) vi.1,
    keys.map fun key => { key with text := ⟨key.text.coll, none⟩ })

/-- What a key reads of a row. -/
def keyValue (R : Rows) (id : DocId) (key : OrderKey) : Value :=
  match key.pos, key.path with
  | none, _ => .int (UInt64.ofNat id).toInt64
  | some p, none => (R.readField id p).getD .null
  | some p, some keys => (R.readPath id p keys).getD .null

/-- **`order_ids`**: the first `k` of some ids in the order of the keys. -/
def orderIds (S : Sorts Nat) (B : Build) (R : Rows) (ids : List DocId) (keys : List OrderKey)
    (k : Nat) : List DocId :=
  if k = 0 then []
  else
    let n := keys.length
    let flat := ids.flatMap fun id => keys.map (keyValue R id)
    let (flat, keys) :=
      if keys.any (·.text.fold.isSome) then foldedKeys B flat keys else (flat, keys)
    (orderRows S B flat n ids.length keys k).map fun i => ids.getD i 0

/-! ## 2. The order asked for -/

/-- Places ranked consistently: no three of them go round. -/
def Consistent (r : Nat → Nat → Ordering) (n : Nat) : Prop :=
  ∀ i < n, ∀ j < n, ∀ l < n, r i j ≠ .gt → r j l ≠ .gt → r i l ≠ .gt

/-- **The stable sort** of places: each once, in the order of their rank, ties by place. -/
structure Stable (r : Nat → Nat → Ordering) (n : Nat) (p : List Nat) : Prop where
  perm : p.Perm (List.range n)
  ordered : p.Pairwise fun i j => r i j = .lt ∨ r i j = .eq ∧ i < j

section Orders

variable {S : Sorts Nat} {r : Nat → Nat → Ordering} {n : Nat} {p q : List Nat}

/-- The rank and then the place. -/
def byPlace (r : Nat → Nat → Ordering) (i j : Nat) : Ordering := (r i j).then (compare i j)

theorem byPlace_ne_gt {i j : Nat} : byPlace r i j ≠ .gt ↔ r i j = .lt ∨ r i j = .eq ∧ i ≤ j := by
  unfold byPlace
  cases r i j with
  | lt => simp
  | gt => simp
  | eq => simp [Nat.compare_ne_gt]

theorem eq_of_byPlace {i j : Nat} (h : byPlace r i j = .eq) : i = j := by
  unfold byPlace at h
  exact Nat.compare_eq_eq.mp (Ordering.then_eq_eq.mp h).2

/-- One comparison and then another: transitive where both are. -/
theorem then_trans {ab bc ac x y z : Ordering} (h : ab ≠ .gt → bc ≠ .gt → ac ≠ .gt)
    (hba : bc ≠ .gt → ac.swap ≠ .gt → ab.swap ≠ .gt)
    (hcb : ac.swap ≠ .gt → ab ≠ .gt → bc.swap ≠ .gt) (hlast : x ≠ .gt → y ≠ .gt → z ≠ .gt) :
    ab.then x ≠ .gt → bc.then y ≠ .gt → ac.then z ≠ .gt := by
  cases ab <;> cases bc <;> cases ac <;> simp_all

/-- **A consistent rank and then the place** is a total order. -/
theorem total_byPlace (hswap : ∀ i j, r j i = (r i j).swap) (hr : Consistent r n) :
    Total (byPlace r) (List.range n) := by
  refine ⟨fun i _ j _ => ?_, fun i hi j hj l hl hij hjl => ?_⟩
  · unfold byPlace
    rw [hswap i j, Ordering.swap_then]
    congr 1
    exact Std.OrientedOrd.eq_swap
  · have hi := List.mem_range.mp hi
    have hj := List.mem_range.mp hj
    have hl := List.mem_range.mp hl
    refine then_trans (hr i hi j hj l hl) ?_ ?_ ?_ hij hjl
    · rw [← hswap, ← hswap]
      exact hr j hj l hl i hi
    · rw [← hswap, ← hswap]
      exact hr l hl i hi j hj
    · rw [Nat.compare_ne_gt, Nat.compare_ne_gt, Nat.compare_ne_gt]
      exact Nat.le_trans

/-- A list in the order of rank and place, each place once, is the stable sort. -/
theorem stable_of_inOrder (hp : p.Perm (List.range n)) (hord : InOrder (byPlace r) p) :
    Stable r n p := by
  refine ⟨hp, ?_⟩
  have hnodup : p.Nodup := hp.nodup_iff.mpr List.nodup_range
  refine (hord.and hnodup).imp fun {i j} h => ?_
  rcases byPlace_ne_gt.mp h.1 with hlt | ⟨heq, hle⟩
  · exact Or.inl hlt
  · exact Or.inr ⟨heq, Nat.lt_of_le_of_ne hle h.2⟩

theorem Stable.inOrder (h : Stable r n p) : InOrder (byPlace r) p :=
  h.ordered.imp fun hij => byPlace_ne_gt.mpr (hij.imp_right fun h => ⟨h.1, Nat.le_of_lt h.2⟩)

/-- Only the rank of the places there are counts. -/
theorem Consistent.congr {r' : Nat → Nat → Ordering} (h : Consistent r n)
    (heq : ∀ i < n, ∀ j < n, r' i j = r i j) : Consistent r' n := by
  intro i hi j hj l hl hij hjl
  rw [heq i hi j hj] at hij
  rw [heq j hj l hl] at hjl
  rw [heq i hi l hl]
  exact h i hi j hj l hl hij hjl

theorem Stable.congr {r' : Nat → Nat → Ordering} (h : Stable r n p)
    (heq : ∀ i < n, ∀ j < n, r' i j = r i j) : Stable r' n p := by
  refine ⟨h.perm, h.ordered.imp_of_mem fun {i j} hi hj hij => ?_⟩
  rwa [heq i (List.mem_range.mp (h.perm.mem_iff.mp hi)) j
    (List.mem_range.mp (h.perm.mem_iff.mp hj))]

/-- **There is one stable sort** of places ranked consistently. -/
theorem Stable.unique (hswap : ∀ i j, r j i = (r i j).swap) (hr : Consistent r n)
    (hp : Stable r n p) (hq : Stable r n q) : q = p :=
  (total_byPlace hswap hr).eq_of_inOrder (fun _ _ _ _ => eq_of_byPlace) hq.perm hp.perm
    hq.inOrder hp.inOrder

end Orders

/-! ## 3. The order as it is found -/

section Rows

variable {B : Build}

mutual

/-- **Comparing the other way round** in a field's order is the reverse. -/
theorem compareValues_swap (B : Build) (o : TextOrder) : ∀ a b : Value,
    o.compareValues B b a = (o.compareValues B a b).swap
  | .text x, b => by
    cases b with
    | text y => exact TextOrder.compare_swap B.chars B.collation o x y
    | _ => exact Value.cmpValue_swap (.text x) _
  | .list xs, b => by
    cases b with
    | list ys =>
      simp only [TextOrder.compareValues]
      split
      · exact Value.cmpValue_swap (.list xs) (.list ys)
      · exact compareItems_swap B o xs ys
    | _ => exact Value.cmpValue_swap (.list xs) _
  | .null, b => by cases b <;> exact Value.cmpValue_swap .null _
  | .bool x, b => by cases b <;> exact Value.cmpValue_swap (.bool x) _
  | .int x, b => by cases b <;> exact Value.cmpValue_swap (.int x) _
  | .float x, b => by cases b <;> exact Value.cmpValue_swap (.float x) _
  | .bytes x, b => by cases b <;> exact Value.cmpValue_swap (.bytes x) _
  | .vector x, b => by cases b <;> exact Value.cmpValue_swap (.vector x) _
  | .timestamp x, b => by cases b <;> exact Value.cmpValue_swap (.timestamp x) _
  | .sparse d x, b => by cases b <;> exact Value.cmpValue_swap (.sparse d x) _
  | .object x, b => by cases b <;> exact Value.cmpValue_swap (.object x) _
termination_by structural a => a

theorem compareItems_swap (B : Build) (o : TextOrder) : ∀ xs ys : List Value,
    o.compareItems B ys xs = (o.compareItems B xs ys).swap
  | [], [] => rfl
  | [], _ :: _ => rfl
  | _ :: _, [] => rfl
  | x :: xs, y :: ys => by
    simp only [TextOrder.compareItems]
    rw [compareValues_swap B o x y, compareItems_swap B o xs ys, Ordering.swap_then]
termination_by structural a => a

end

theorem compareKey_swap (key : OrderKey) (x y : Value) :
    compareKey B key y x = (compareKey B key x y).swap := by
  unfold compareKey
  dsimp only
  rw [Value.cmpValue_swap x y, compareValues_swap B key.text x y]
  cases key.text.isBytes <;> cases key.asc <;> simp

theorem rank_swap (keys : List OrderKey) : ∀ a b : List Value,
    rank B keys b a = (rank B keys a b).swap := by
  induction keys with
  | nil => exact fun _ _ => rfl
  | cons key keys ih =>
    intro a b
    cases a with
    | nil => cases b <;> rfl
    | cons x a =>
      cases b with
      | nil => rfl
      | cons y b =>
        rw [rank, rank, compareKey_swap, ih a b, Ordering.swap_then]

/-- The rank of two rows of a list. -/
def rowRank (B : Build) (flat : List Value) (n : Nat) (keys : List OrderKey) (i j : Nat) :
    Ordering :=
  rank B keys ((flat.drop (i * n)).take n) ((flat.drop (j * n)).take n)

/-- **`order_rows` leaves the start of the stable sort.** -/
theorem orderRows_eq (S : Sorts Nat) (B : Build) {flat : List Value} {n count : Nat}
    {keys : List OrderKey} (hr : Consistent (rowRank B flat n keys) count) :
    ∃ p, Stable (rowRank B flat n keys) count p ∧
      ∀ k, orderRows S B flat n count keys k = p.take k := by
  have htotal := total_byPlace (fun _ _ => rank_swap keys _ _) hr
  obtain ⟨hperm, hord⟩ := S.sorted _ _ htotal
  refine ⟨_, stable_of_inOrder hperm hord, fun k => ?_⟩
  unfold orderRows
  dsimp only
  by_cases hk : k = 0
  · rw [if_pos hk, hk, List.take_zero]
  · rw [if_neg hk]
    by_cases hlt : k < (List.range count).length
    · rw [if_pos hlt]
      exact S.first_eq htotal (fun _ _ _ _ => eq_of_byPlace) hperm hord (Nat.pos_of_ne_zero hk) hlt
    · rw [if_neg hlt, List.take_of_length_le (by rw [hperm.length_eq]; exact Nat.not_lt.mp hlt)]
      rfl

end Rows

/-! ## 4. The folds -/

section Folds

variable {B : Build} {keys : List OrderKey}

/-- A key once its texts are folded. -/
def OrderKey.folded (key : OrderKey) : OrderKey := { key with text := ⟨key.text.coll, none⟩ }

/-- A value that is a text or nothing. -/
def TextOrNull (v : Value) : Prop := v = .null ∨ ∃ t, v = .text t

/-- **Folded texts compare as the texts do** under the fold. -/
theorem compareKey_folded {key : OrderKey} {x y : Value}
    (hx : key.text.fold.isSome = true → TextOrNull x)
    (hy : key.text.fold.isSome = true → TextOrNull y) :
    compareKey B key.folded (foldValue B key.text.fold x) (foldValue B key.text.fold y) =
      compareKey B key x y := by
  obtain ⟨pos, asc, ⟨coll, fold⟩, path⟩ := key
  cases fold with
  | none => cases x <;> cases y <;> rfl
  | some f =>
    rcases hx rfl with rfl | ⟨s, rfl⟩
    · rcases hy rfl with rfl | ⟨t, rfl⟩
      · cases coll <;> rfl
      · cases coll <;> rfl
    · rcases hy rfl with rfl | ⟨t, rfl⟩
      · cases coll <;> rfl
      · cases coll with
        | none =>
          have hfold : cmpStr (Case.fold B.chars f s) (Case.fold B.chars f t) =
              cmpFolded B.chars f s.toList t.toList := by
            rw [cmpStr, toList_fold, toList_fold, cmpFolded_eq]
          simp only [compareKey, OrderKey.folded, foldValue, TextOrder.isBytes,
            TextOrder.compareValues, TextOrder.compare, Value.cmpValue, hfold]
          rfl
        | some c => rfl

/-- **Rows rank folded as they do unfolded.** -/
theorem rank_folded {f g : OrderKey → Value}
    (hf : ∀ key ∈ keys, key.text.fold.isSome = true → TextOrNull (f key))
    (hg : ∀ key ∈ keys, key.text.fold.isSome = true → TextOrNull (g key)) :
    rank B (keys.map OrderKey.folded) (keys.map fun key => foldValue B key.text.fold (f key))
      (keys.map fun key => foldValue B key.text.fold (g key)) =
      rank B keys (keys.map f) (keys.map g) := by
  induction keys with
  | nil => rfl
  | cons key keys ih =>
    rw [List.map_cons, List.map_cons, List.map_cons, List.map_cons, List.map_cons, rank, rank,
      compareKey_folded (hf key List.mem_cons_self) (hg key List.mem_cons_self),
      ih (fun k hk => hf k (List.mem_cons_of_mem _ hk)) fun k hk =>
        hg k (List.mem_cons_of_mem _ hk)]

/-- The row of a place, of rows laid end to end. -/
theorem row_flat (h : DocId → OrderKey → Value) : ∀ (ids : List DocId) (i : Nat),
    i < ids.length → ((ids.flatMap fun id => keys.map (h id)).drop (i * keys.length)).take
      keys.length = keys.map (h (ids.getD i 0))
  | [], i, hi => absurd hi (Nat.not_lt_zero i)
  | id :: ids, 0, _ => by
    have hlen : keys.length = (keys.map (h id)).length := (List.length_map _).symm
    rw [Nat.zero_mul, List.drop_zero, List.flatMap_cons, hlen, List.take_left]
    rfl
  | id :: ids, i + 1, hi => by
    have hlen : (i + 1) * keys.length = (keys.map (h id)).length + i * keys.length := by
      rw [List.length_map, Nat.succ_mul, Nat.add_comm]
    rw [List.flatMap_cons, hlen, List.drop_length_add_append,
      row_flat h ids i (Nat.lt_of_succ_lt_succ hi)]
    rfl

/-- Each value of rows laid end to end is its key's. -/
theorem zipIdx_flat (keys : List OrderKey) (h : DocId → OrderKey → Value) (G : Option OrderKey → Value → Value) :
    ∀ (ids : List DocId) (m : Nat),
      ((ids.flatMap fun id => keys.map (h id)).zipIdx (m * keys.length)).map
        (fun vi => G (keys[vi.2 % keys.length]?) vi.1) =
        ids.flatMap fun id => keys.map fun key => G (some key) (h id key)
  | [], _ => rfl
  | id :: ids, m => by
    have hnext : m * keys.length + (keys.map (h id)).length = (m + 1) * keys.length := by
      rw [List.length_map, Nat.succ_mul]
    rw [List.flatMap_cons, List.zipIdx_append, List.map_append, hnext, zipIdx_flat keys h G ids (m + 1),
      List.flatMap_cons]
    congr 1
    apply List.ext_getElem?
    intro i
    rw [List.getElem?_map, List.getElem?_zipIdx, List.getElem?_map, List.getElem?_map]
    by_cases hi : i < keys.length
    · have hmod : (m * keys.length + i) % keys.length = i := by
        rw [Nat.add_comm, Nat.add_mul_mod_self_right, Nat.mod_eq_of_lt hi]
      rw [List.getElem?_eq_getElem hi]
      simp only [Option.map_some, hmod, List.getElem?_eq_getElem hi]
    · rw [List.getElem?_eq_none (Nat.not_lt.mp hi)]
      rfl

/-- **Each row's texts are folded by its keys.** -/
theorem foldedKeys_eq (B : Build) (h : DocId → OrderKey → Value) (ids : List DocId) :
    foldedKeys B (ids.flatMap fun id => keys.map (h id)) keys =
      (ids.flatMap fun id => keys.map fun key => foldValue B key.text.fold (h id key),
        keys.map OrderKey.folded) := by
  have hflat := zipIdx_flat keys h (fun key v => foldValue B (key.bind (·.text.fold)) v) ids 0
  rw [Nat.zero_mul] at hflat
  rw [foldedKeys, hflat]
  rfl

end Folds

/-! ## 5. Ids by what their rows hold -/

section Ids

variable {B : Build} {R : Rows} {keys : List OrderKey} {ids : List DocId}

/-- The rank of the rows of two places of a list of ids. -/
def idRank (B : Build) (R : Rows) (keys : List OrderKey) (ids : List DocId) (i j : Nat) :
    Ordering :=
  rank B keys (keys.map (keyValue R (ids.getD i 0))) (keys.map (keyValue R (ids.getD j 0)))

/-- Only a `nocase` field's own order folds, and no path's. -/
theorem fold_of_orderKey {s : Schema} {owner : String} {o : SortBy} {key : OrderKey}
    (h : orderKey s owner o = .ok key) (hf : key.text.fold.isSome = true) :
    ∃ p f, key.pos = some p ∧ key.path = none ∧ s.fields[p]? = some f ∧ f.nocase = true := by
  unfold orderKey at h
  obtain ⟨⟨pos, path⟩, -, h⟩ := bind_ok h
  obtain ⟨_, -, h⟩ := bind_ok h
  obtain rfl := Except.ok.inj h
  cases pos with
  | none => cases hf
  | some p =>
    cases path with
    | some keys => cases hf
    | none =>
      cases hget : s.fields[p]? with
      | none =>
        simp only [fieldOrder, hget, Option.map_none, Option.getD_none] at hf
        cases hf
      | some f =>
        refine ⟨p, f, rfl, rfl, hget, ?_⟩
        simp only [fieldOrder, hget, Option.map_some, Option.getD_some, Field.textOrder,
          Field.caseFold] at hf
        cases hno : f.nocase with
        | true => rfl
        | false =>
          rw [hno] at hf
          cases hf

/-- **What a key that folds reads is a text or nothing.** -/
theorem textOrNull_keyValue {owner : String} {o : SortBy} {key : OrderKey}
    (h : orderKey R.schema owner o = .ok key) (hf : key.text.fold.isSome = true) (id : DocId) :
    TextOrNull (keyValue R id key) := by
  obtain ⟨p, f, hpos, hpath, hget, hno⟩ := fold_of_orderKey h hf
  have htext : f.ty = .text := R.wf.nocase_text f (List.mem_of_getElem? hget) hno
  have htyped := R.typed_readField id hget
  rw [htext] at htyped
  unfold keyValue
  rw [hpos, hpath]
  exact typed_text htyped

/-- **`order_ids` leaves the start of the stable sort** of the rows of the ids. -/
theorem orderIds_eq (S : Sorts Nat)
    (htext : ∀ key ∈ keys, key.text.fold.isSome = true → ∀ id, TextOrNull (keyValue R id key))
    (hr : Consistent (idRank B R keys ids) ids.length) :
    ∃ p, Stable (idRank B R keys ids) ids.length p ∧
      ∀ k, orderIds S B R ids keys k = (p.take k).map fun i => ids.getD i 0 := by
  -- what is ordered is the rows laid end to end, folded where a key folds
  obtain ⟨flat, keys', hcode, hrank⟩ : ∃ flat keys',
      (∀ k, k ≠ 0 → orderIds S B R ids keys k =
        (orderRows S B flat keys.length ids.length keys' k).map fun i => ids.getD i 0) ∧
      ∀ i < ids.length, ∀ j < ids.length,
        rowRank B flat keys.length keys' i j = idRank B R keys ids i j := by
    by_cases hfold : keys.any (·.text.fold.isSome) = true
    · refine ⟨ids.flatMap fun id => keys.map fun key =>
        foldValue B key.text.fold (keyValue R id key), keys.map OrderKey.folded,
        fun k hk => ?_, fun i hi j hj => ?_⟩
      · unfold orderIds
        dsimp only
        rw [if_neg hk, if_pos hfold, foldedKeys_eq B (keyValue R) ids]
      · unfold rowRank idRank
        rw [row_flat (fun id key => foldValue B key.text.fold (keyValue R id key)) ids i hi,
          row_flat (fun id key => foldValue B key.text.fold (keyValue R id key)) ids j hj]
        exact rank_folded (fun key hkey hf => htext key hkey hf _)
          fun key hkey hf => htext key hkey hf _
    · refine ⟨ids.flatMap fun id => keys.map (keyValue R id), keys,
        fun k hk => ?_, fun i hi j hj => ?_⟩
      · unfold orderIds
        dsimp only
        rw [if_neg hk, if_neg hfold]
      · unfold rowRank idRank
        rw [row_flat (keyValue R) ids i hi, row_flat (keyValue R) ids j hj]
  obtain ⟨p, hp, hrows⟩ := orderRows_eq S B (hr.congr hrank)
  refine ⟨p, hp.congr fun i hi j hj => (hrank i hi j hj).symm, fun k => ?_⟩
  by_cases hk : k = 0
  · rw [hk]
    rfl
  · rw [hcode k hk, hrows k]

/-- Of ids that ascend, ties by place are ties by id. -/
theorem Stable.pairwise_ids {p : List Nat} (hids : ids.Pairwise (· < ·))
    (hp : Stable (idRank B R keys ids) ids.length p) :
    (p.map fun i => ids.getD i 0).Pairwise fun a b =>
      rank B keys (keys.map (keyValue R a)) (keys.map (keyValue R b)) = .lt ∨
      rank B keys (keys.map (keyValue R a)) (keys.map (keyValue R b)) = .eq ∧ a < b := by
  refine List.pairwise_map.mpr (hp.ordered.imp_of_mem fun {i j} hi hj hij => ?_)
  have hi := List.mem_range.mp (hp.perm.mem_iff.mp hi)
  have hj := List.mem_range.mp (hp.perm.mem_iff.mp hj)
  rcases hij with hlt | ⟨heq, hlt⟩
  · exact Or.inl hlt
  · refine Or.inr ⟨heq, ?_⟩
    rw [List.getD_eq_getElem _ _ hi, List.getD_eq_getElem _ _ hj]
    exact List.pairwise_iff_getElem.mp hids i j hi hj hlt

end Ids

/-! ## 6. The first of an order -/

/-- **The first `k` rows of an order** are the first `k` of the stable sort, which ties by the place
a row came in, and so by id where the ids ascend. -/
theorem first_rows (S : Sorts Nat) (B : Build) :
    (∀ (flat : List Value) (n count : Nat) (keys : List OrderKey),
      Consistent (rowRank B flat n keys) count →
      ∃ p, Stable (rowRank B flat n keys) count p ∧
        (∀ q, Stable (rowRank B flat n keys) count q → q = p) ∧
        ∀ k, orderRows S B flat n count keys k = p.take k) ∧
    ∀ (R : Rows) (owner : String) (items : List SortBy) (keys : List OrderKey),
      items.mapM (orderKey R.schema owner) = .ok keys → ∀ ids : List DocId,
      Consistent (idRank B R keys ids) ids.length →
      ∃ p, Stable (idRank B R keys ids) ids.length p ∧
        (∀ q, Stable (idRank B R keys ids) ids.length q → q = p) ∧
        (∀ k, orderIds S B R ids keys k = (p.take k).map fun i => ids.getD i 0) ∧
        (ids.Pairwise (· < ·) → (p.map fun i => ids.getD i 0).Pairwise fun a b =>
          rank B keys (keys.map (keyValue R a)) (keys.map (keyValue R b)) = .lt ∨
          rank B keys (keys.map (keyValue R a)) (keys.map (keyValue R b)) = .eq ∧ a < b) := by
  constructor
  · intro flat n count keys hr
    obtain ⟨p, hp, hk⟩ := orderRows_eq S B hr
    exact ⟨p, hp, fun q hq => hp.unique (fun _ _ => rank_swap keys _ _) hr hq, hk⟩
  · intro R owner items keys hkeys ids hr
    have htext : ∀ key ∈ keys, key.text.fold.isSome = true →
        ∀ id, TextOrNull (keyValue R id key) := by
      intro key hkey hf id
      obtain ⟨o, -, ho⟩ := mapM_ok hkeys key hkey
      exact textOrNull_keyValue ho hf id
    obtain ⟨p, hp, hk⟩ := orderIds_eq S htext hr
    exact ⟨p, hp, fun q hq => hp.unique (fun _ _ => rank_swap keys _ _) hr hq, hk,
      fun hids => hp.pairwise_ids hids⟩

/-- `create collection t (d json)`. -/
def numbersSchema : Schema where
  name := "t"
  fields := [⟨"d", .json, .none, false, none, false⟩]
  paths := []
  dropped := []
  composites := []

theorem numbersSchema_wf : numbersSchema.WF where
  nodup := by decide
  not_id := by decide
  no_dot := by decide
  nocase_text := by decide

/-- The row of `{d: {n: …}}`. -/
def numberRow (v : Value) : Payload := [.object [("n", v)]]

/-- Rows 1 to 3 of `2^53 + 1`, `2^53` as a float, and `2^53`. -/
def numbersStore : OrdMap Payload :=
  ⟨[(1, numberRow (.int 9007199254740993)), (2, numberRow (.float (Ieee.ofInt 9007199254740992))),
    (3, numberRow (.int 9007199254740992))], by decide⟩

theorem numbers_typed : ∀ id p, numbersStore.get id = some p → ∀ pos f,
    numbersSchema.fields[pos]? = some f → Typed f.ty (p.at (numbersSchema.place pos)) := by
  intro id p hp pos f hf
  have hrow : ∀ v, Typed .json (.object [("n", v)]) → ∀ pos f,
      numbersSchema.fields[pos]? = some f →
        Typed f.ty ((numberRow v).at (numbersSchema.place pos)) := by
    intro v hv pos f hf
    cases pos with
    | zero =>
      obtain rfl := Option.some.inj hf
      exact hv
    | succ pos => cases hf
  have hmem := OrdMap.mem_entries_iff.mpr hp
  rcases List.mem_cons.mp hmem with h | hmem
  · obtain ⟨-, rfl⟩ := Prod.mk.inj h
    exact hrow _ (by unfold Typed; decide +kernel) pos f hf
  · rcases List.mem_cons.mp hmem with h | hmem
    · obtain ⟨-, rfl⟩ := Prod.mk.inj h
      exact hrow _ (by unfold Typed; decide +kernel) pos f hf
    · obtain ⟨-, rfl⟩ := Prod.mk.inj (List.mem_singleton.mp hmem)
      exact hrow _ (by unfold Typed; decide +kernel) pos f hf

def numbers : Rows := ⟨numbersSchema, numbersStore, numbersSchema_wf, numbers_typed⟩

/-- The key of an ascending path of `d`. -/
def pathKey (path : String) : OrderKey := ⟨some 0, true, .bytes, some path⟩

/-- Two places out of order are put in order. -/
theorem stable_of_gt {r : Nat → Nat → Ordering} (hswap : ∀ i j, r j i = (r i j).swap)
    (h : r 0 1 = .gt) : Stable r 2 [1, 0] := by
  refine ⟨List.Perm.swap 0 1 [], List.pairwise_cons.mpr ⟨fun j hj => Or.inl ?_, by simp⟩⟩
  rw [List.mem_singleton.mp hj, hswap 0 1, h]
  rfl

/-- Two places that do not tie go round nowhere. -/
theorem consistent_of_gt {r : Nat → Nat → Ordering} (hswap : ∀ i j, r j i = (r i j).swap)
    (h : r 0 1 = .gt) : Consistent r 2 := by
  have hself : ∀ i, r i i = .eq := by
    intro i
    have hi := hswap i i
    cases hr : r i i with
    | eq => rfl
    | lt => rw [hr] at hi; cases hi
    | gt => rw [hr] at hi; cases hi
  have h' : r 1 0 = .lt := by
    rw [hswap 0 1, h]
    rfl
  intro i hi j hj l hl
  obtain rfl | rfl : i = 0 ∨ i = 1 := by omega
  · obtain rfl | rfl : j = 0 ∨ j = 1 := by omega
    · exact fun _ hjl => hjl
    · exact fun hij => absurd h hij
  · obtain rfl | rfl : l = 0 ∨ l = 1 := by omega
    · simp [h']
    · simp [hself]

theorem numbers_gt : idRank Build.ascii numbers [pathKey "n"] [1, 3] 0 1 = .gt := by
  decide +kernel

/-- The rows `2` and `1`, and `order d.n` of rows 1 and 3. -/
theorem first_numbers :
    (∀ k, orderRows (Sorts.merging Nat) Build.ascii [.int 2, .int 1] 1 2 [pathKey "n"] k =
      [1, 0].take k) ∧
    ∀ k, orderIds (Sorts.merging Nat) Build.ascii numbers [1, 3] [pathKey "n"] k =
      [3, 1].take k := by
  obtain ⟨hrows, hids⟩ := first_rows (Sorts.merging Nat) Build.ascii
  have hswap := fun i j => rank_swap (B := Build.ascii) [pathKey "n"] i j
  constructor
  · have hgt : rowRank Build.ascii [.int 2, .int 1] 1 [pathKey "n"] 0 1 = .gt := by
      decide +kernel
    obtain ⟨p, -, huniq, hk⟩ := hrows [.int 2, .int 1] 1 2 [pathKey "n"]
      (consistent_of_gt (fun _ _ => hswap _ _) hgt)
    rwa [← huniq [1, 0] (stable_of_gt (fun _ _ => hswap _ _) hgt)] at hk
  · have hkeys : [(⟨"d.n", true, none⟩ : SortBy)].mapM (orderKey numbers.schema "") =
        .ok [pathKey "n"] := by
      decide +kernel
    obtain ⟨p, -, huniq, hk, -⟩ := hids numbers "" _ _ hkeys [1, 3]
      (consistent_of_gt (fun _ _ => hswap _ _) numbers_gt)
    intro k
    rw [hk k, ← huniq [1, 0] (stable_of_gt (fun _ _ => hswap _ _) numbers_gt), List.map_take]
    rfl

/-- **Rows that tie stay as they came in**, the later id first where it came first; and rows whose
values go round have no stable sort at all. -/
theorem ties_by_place :
    orderKey numbers.schema "" ⟨"d.m", true, none⟩ = .ok (pathKey "m") ∧
    orderKey numbers.schema "" ⟨"d.n", true, none⟩ = .ok (pathKey "n") ∧
    idRank Build.ascii numbers [pathKey "m"] [2, 1] 0 1 = .eq ∧
    (∀ S : Sorts Nat, orderIds S Build.ascii numbers [2, 1] [pathKey "m"] 2 = [2, 1]) ∧
    ∀ p, ¬ Stable (idRank Build.ascii numbers [pathKey "n"] [1, 2, 3]) 3 p := by
  have htie : ∀ i < 2, ∀ j < 2, idRank Build.ascii numbers [pathKey "m"] [2, 1] i j = .eq := by
    decide +kernel
  refine ⟨by decide +kernel, by decide +kernel, htie 0 (by omega) 1 (by omega), fun S => ?_,
    fun p hp => ?_⟩
  · have hr : Consistent (idRank Build.ascii numbers [pathKey "m"] [2, 1]) 2 := by
      intro i hi j hj l hl _ _
      rw [htie i hi l hl]
      decide
    have htext : ∀ key ∈ [pathKey "m"], key.text.fold.isSome = true →
        ∀ id, TextOrNull (keyValue numbers id key) := by
      intro key hkey hf
      rw [List.mem_singleton.mp hkey] at hf
      cases hf
    have hplace : Stable (idRank Build.ascii numbers [pathKey "m"] [2, 1]) 2 [0, 1] := by
      refine ⟨List.Perm.refl _, List.pairwise_cons.mpr ⟨fun j hj => Or.inr ⟨?_, ?_⟩, by simp⟩⟩
      · rw [List.mem_singleton.mp hj]
        exact htie 0 (by omega) 1 (by omega)
      · rw [List.mem_singleton.mp hj]
        exact Nat.zero_lt_one
    obtain ⟨p, hp, hk⟩ := orderIds_eq S htext hr
    rw [hk 2, ← hp.unique (fun _ _ => rank_swap [pathKey "m"] _ _) hr hplace]
    rfl
  · -- the first ties with the second and the second with the third, which is before the first
    have hnext : ∀ i < 3, ∃ j < 3, j ≠ i ∧
        ¬ (idRank Build.ascii numbers [pathKey "n"] [1, 2, 3] i j = .lt ∨
          idRank Build.ascii numbers [pathKey "n"] [1, 2, 3] i j = .eq ∧ i < j) := by
      decide +kernel
    cases p with
    | nil => cases hp.perm.length_eq
    | cons i p =>
      obtain ⟨j, hj, hne, hnot⟩ := hnext i
        (List.mem_range.mp (hp.perm.mem_iff.mp List.mem_cons_self))
      have hmem := hp.perm.mem_iff.mpr (List.mem_range.mpr hj)
      exact hnot ((List.pairwise_cons.mp hp.ordered).1 j
        ((List.mem_cons.mp hmem).resolve_left hne))

end Fenec.RowOrder
