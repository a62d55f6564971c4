/-
# The sparse index

A sparse vector keeps its non-zero entries by ascending dimension.  The index over them has a list
for each dimension, the documents with a weight there ascending by id, and a search scores the
documents on the query's lists by dot product, in one of two ways: `walk` takes a document at a
time and skips those that cannot be kept, `summed` takes a list at a time and sums a window of ids.

This module is the code as it stands: vectors and their dot product, the lists, the index and its
writes, and the two searches.  A weight is a rational and a sum exact; what a score is kept as is
its rounding, of which only that it keeps order is said.  How a `Vec` grows is a parameter too.

Sizes and places are those of a 64-bit build without overflow checks, as a release is: what `summed`
adds to an id wraps.  A dimension is below 10^9, so a list's place always fits its 32 bits.
-/
import Fenec.Chunked
import Fenec.Coerce
import Fenec.Lib.Best
import Fenec.Lib.Loop
import Fenec.Lib.OrdMap
import Mathlib.Algebra.Order.Ring.Rat
import Mathlib.Data.Nat.Bitwise
import Mathlib.Data.Prod.Lex

namespace Fenec.Near

open Lib

/-! ## 1. Vectors -/

/-- A normalised vector's entries, `(index, weight)` ascending by index. -/
structure SparseVector extends OrdMap ℚ where
  nonzero : ∀ e ∈ entries, e.2 ≠ 0
  below : ∀ e ∈ entries, e.1 < Sparse.maxDim

/-- The loop of `dot`: what is left of either vector, the sum so far and whether any was shared. -/
def dotFrom (sum : ℚ) (shared : Bool) : List (Nat × ℚ) → List (Nat × ℚ) → Option ℚ
  | (i, x) :: a, (j, y) :: b =>
    if i < j then dotFrom sum shared a ((j, y) :: b)
    else if j < i then dotFrom sum shared ((i, x) :: a) b
    else dotFrom (sum + x * y) true a b
  | [], _ => if shared then some sum else none
  | _ :: _, [] => if shared then some sum else none
termination_by a b => a.length + b.length

/-- `dot`: the dot product over the dimensions two vectors share, none where they share none. -/
def dot (a b : List (Nat × ℚ)) : Option ℚ := dotFrom 0 false a b

/-! ## 2. Lists -/

/-- How a full `Vec` of a length grows: to any larger capacity. -/
structure Growth where
  room : Nat → Nat
  more : ∀ n, n < room n

/-- A `Vec`'s capacity once it takes one element more. -/
def Growth.after (g : Growth) (len cap : Nat) : Nat := if len < cap then cap else g.room len

/-- `List`: one dimension's documents, ascending by id, their weights beside them. -/
structure PostingList where
  docs : List DocId
  weights : List ℚ
  docsCapacity : Nat
  weightsCapacity : Nat
  max : ℚ
  min : ℚ
  deriving DecidableEq

/-- `List::default`. -/
def PostingList.default : PostingList := ⟨[], [], 0, 0, 0, 0⟩

/-- `List::bytes`. -/
def PostingList.bytes (l : PostingList) : Nat := l.docsCapacity * 8 + l.weightsCapacity * 4 + 8

/-- `List::set`. -/
def PostingList.set (g : Growth) (l : PostingList) (doc : DocId) (w : ℚ) : PostingList :=
  let l := { l with max := l.max ⊔ w, min := l.min ⊓ w }
  match Chunked.search compare l.docs doc with
  | .ok at_ => { l with weights := l.weights.set at_ w }
  | .error at_ =>
    { l with
      docs := l.docs.insertIdx at_ doc
      weights := l.weights.insertIdx at_ w
      docsCapacity := g.after l.docs.length l.docsCapacity
      weightsCapacity := g.after l.weights.length l.weightsCapacity }

/-- `List::drop_doc`. -/
def PostingList.dropDoc (l : PostingList) (doc : DocId) : PostingList :=
  match Chunked.search compare l.docs doc with
  | .ok at_ => { l with docs := l.docs.eraseIdx at_, weights := l.weights.eraseIdx at_ }
  | .error _ => l

/-! ## 3. The index -/

/-- `SparseIndex`: where each dimension's list is, the lists, the documents indexed and the bytes
the lists hold. -/
structure SparseIndex where
  at_ : OrdMap Nat
  lists : List PostingList
  docs : Nat
  heap : Nat

namespace SparseIndex

/-- `SparseIndex::new`. -/
def new : SparseIndex := ⟨.empty, [], 0, 0⟩

/-- `list`: a dimension's list. -/
def list (ix : SparseIndex) (i : Nat) : Option PostingList :=
  (ix.at_.get i).bind fun k => ix.lists[k]?

/-- The place of a dimension's list, a new one at the end where it has none. -/
def place (ix : SparseIndex) (i : Nat) : SparseIndex × Nat :=
  match ix.at_.get i with
  | some k => (ix, k)
  | none =>
    ({ ix with
        at_ := ix.at_.insert i ix.lists.length
        lists := ix.lists ++ [.default]
        heap := ix.heap + PostingList.default.bytes }, ix.lists.length)

/-- One entry of an insert, or nothing where a place is out of bounds. -/
def insertEntry (g : Growth) (doc : DocId) (ix : SparseIndex) (e : Nat × ℚ) :
    Option SparseIndex :=
  let (ix, k) := ix.place e.1
  ix.lists[k]?.map fun list =>
    { ix with
      lists := ix.lists.set k (list.set g doc e.2)
      heap := ix.heap + ((list.set g doc e.2).bytes - list.bytes) }

/-- **`SparseIndex::insert`**. -/
def insert (g : Growth) (ix : SparseIndex) (doc : DocId) (entries : List (Nat × ℚ)) :
    Option SparseIndex :=
  if entries.isEmpty then some ix
  else (entries.foldlM (insertEntry g doc) ix).map fun ix => { ix with docs := ix.docs + 1 }

/-- One entry of a removal. -/
def removeEntry (doc : DocId) (ix : SparseIndex) (e : Nat × ℚ) : Option SparseIndex :=
  match ix.at_.get e.1 with
  | none => some ix
  | some k =>
    ix.lists[k]?.map fun list =>
      let list := list.dropDoc doc
      if list.docs.isEmpty then
        { ix with
          lists := ix.lists.set k .default
          heap := ix.heap - (list.bytes - PostingList.default.bytes) }
      else { ix with lists := ix.lists.set k list }

/-- **`SparseIndex::remove`**. -/
def remove (ix : SparseIndex) (doc : DocId) (entries : List (Nat × ℚ)) : Option SparseIndex :=
  if entries.isEmpty then some ix
  else (entries.foldlM (removeEntry doc) ix).map fun ix => { ix with docs := ix.docs - 1 }

end SparseIndex

/-! ## 4. Cursors and the kept -/

/-- `Cursor`: one query dimension's walk through its list. -/
structure Cursor where
  at_ : Nat
  list : PostingList
  weight : ℚ
  ceiling : ℚ
  deriving DecidableEq

/-- The cursor at the head of a query entry's list, with the most it can add. -/
def SparseIndex.cursor (ix : SparseIndex) (e : Nat × ℚ) : Option Cursor :=
  (ix.list e.1).map fun list =>
    ⟨0, list, e.2, ((e.2 * list.max ⊔ e.2 * list.min) ⊔ 0) * (1 + 1 / 1000000000)⟩

/-- `cursors`: a cursor at the head of each list the query has a dimension in. -/
def SparseIndex.cursors (ix : SparseIndex) (query : List (Nat × ℚ)) : List Cursor :=
  query.filterMap ix.cursor

/-- The document a cursor is at. -/
def Cursor.head (c : Cursor) : Option DocId := c.list.docs[c.at_]?

/-- What a cursor adds to the document it is at. -/
def Cursor.score (c : Cursor) : ℚ := c.weight * c.list.weights.getD c.at_ 0

/-- What a score is kept as: a rounding that keeps order. -/
structure Rounding (R : Type) [LinearOrder R] where
  round : ℚ → R
  mono : Monotone round

/-- `ByScore`: a document by its score, the largest first and ties by the lower id. -/
abbrev ByScore (R : Type) : Type := Rᵒᵈ ×ₗ DocId

variable {R : Type} [LinearOrder R]

/-- `ByScore(score, doc)`. -/
def byScore (score : R) (doc : DocId) : ByScore R := toLex (OrderDual.toDual score, doc)

/-- The document. -/
def ByScore.doc (s : ByScore R) : DocId := (ofLex s).2

/-- Its score. -/
def ByScore.score (s : ByScore R) : R := OrderDual.ofDual (ofLex s).1

/-- `best_first`. -/
def bestFirst (a b : DocId × R) : Bool := b.2 < a.2 || (a.2 = b.2 && a.1 ≤ b.1)

/-- `best`: what the heap kept, best first. -/
def best (heap : List (ByScore R)) : List (DocId × R) :=
  (heap.map fun s => (s.doc, s.score)).mergeSort bestFirst

variable [OrderBot R]

/-- What a document now has to score to get in: the worst kept, once `k` are. -/
def worst (heap : List (ByScore R)) (k : Nat) : R :=
  if heap.length = k then (heap.getLast?.map ByScore.score).getD ⊥ else ⊥

/-- `keep`: the heap with a document, the worst one out where it is one too many. -/
def keep (heap : List (ByScore R)) (k : Nat) (score : R) (doc : DocId) : List (ByScore R) × R :=
  let heap := Best.keep k heap (byScore score doc)
  (heap, worst heap k)

/-! ## 5. The walk -/

/-- `DocId::MAX`. -/
def docMax : DocId := 2 ^ 64 - 1

/-- The cursors by ceiling, the smallest first. -/
def byCeiling (f : Rounding R) (found : List Cursor) : List Cursor :=
  let keyed := found.zipIdx.map fun (c, at_) => (at_, f.round c.ceiling)
  -- the source sorts the negated ceilings largest first
  let keyed := keyed.mergeSort fun a b => a.2 < b.2 || (a.2 = b.2 && a.1 ≤ b.1)
  keyed.filterMap fun (at_, _) => found[at_]?

/-- `reach`: what the cursors before each place add at most, all together. -/
def reachFrom (sum : ℚ) : List Cursor → List ℚ
  | [] => [sum]
  | c :: cs => sum :: reachFrom (sum + c.ceiling) cs

/-- The walk between two documents. -/
structure Walk (R : Type) [LinearOrder R] where
  cursors : List Cursor
  heap : List (ByScore R)
  worstKept : R
  pivot : Nat

/-- The pivot past every place whose reach falls short of the worst kept. -/
def raise (f : Rounding R) (reach : List ℚ) (worstKept : R) (pivot : Nat) : Nat :=
  pivot + ((reach.drop (pivot + 1)).takeWhile fun r => f.round r < worstKept).length

/-- The lower of a document and the one a cursor is at. -/
def lower (doc : DocId) (c : Cursor) : DocId :=
  match c.head with
  | some d => if d < doc then d else doc
  | none => doc

/-- The lowest document a list of cursors is at, `DocId::MAX` where all are at their ends. -/
def lowest (cs : List Cursor) : DocId := cs.foldl lower docMax

/-- The cursors that are at a document moved past it, and what they add to it. -/
def advance (doc : DocId) (cs : List Cursor) : List Cursor × ℚ :=
  (cs.map fun c => if c.head = some doc then { c with at_ := c.at_ + 1 } else c,
    ((cs.filter fun c => c.head = some doc).map Cursor.score).sum)

/-- A cursor moved to the first document not below another. -/
def Cursor.seek (c : Cursor) (doc : DocId) : Cursor :=
  { c with at_ := c.at_ + Chunked.partitionPoint (· < doc) (c.list.docs.drop c.at_) }

/-- The places below the pivot read for a document, the highest first, none for its score where
what is left to read falls short of the worst kept. -/
def settle (f : Rounding R) (reach : List ℚ) (worstKept : R) (doc : DocId) :
    Nat → List Cursor → ℚ → List Cursor × Option ℚ
  | 0, cs, score => (cs, some score)
  | j + 1, cs, score =>
    if f.round (score + reach.getD (j + 1) 0) < worstKept then (cs, none)
    else
      match cs[j]? with
      | none => (cs, none)
      | some c =>
        let c := c.seek doc
        settle f reach worstKept doc j (cs.set j c)
          (if c.head = some doc then score + c.score else score)

/-- One turn of the walk: the lowest document past the pivot, scored and kept. -/
def walkTurn (f : Rounding R) (reach : List ℚ) (k : Nat) (accept : DocId → Bool) (w : Walk R) :
    Turn (Walk R) (List (DocId × R)) :=
  let pivot := raise f reach w.worstKept w.pivot
  if pivot = w.cursors.length then .done (best w.heap)
  else
    let doc := lowest (w.cursors.drop pivot)
    if doc = docMax then .done (best w.heap)
    else
      let (upper, score) := advance doc (w.cursors.drop pivot)
      let cursors := w.cursors.take pivot ++ upper
      match settle f reach w.worstKept doc pivot cursors score with
      | (cursors, none) => .again { w with cursors := cursors, pivot := pivot }
      | (cursors, some score) =>
        if accept doc then
          let (heap, worstKept) := keep w.heap k (f.round score) doc
          .again ⟨cursors, heap, worstKept, pivot⟩
        else .again { w with cursors := cursors, pivot := pivot }

/-- The walk over cursors in the order they stand. -/
def walkOver (f : Rounding R) (k : Nat) (accept : DocId → Bool) (cursors : List Cursor)
    (turns : Nat) : Option (List (DocId × R)) :=
  loop (walkTurn f (reachFrom 0 cursors) k accept) turns ⟨cursors, [], ⊥, 0⟩

/-- **`walk`**: MaxScore, with a bound on its turns. -/
def walk (f : Rounding R) (k : Nat) (accept : DocId → Bool) (found : List Cursor)
    (turns : Nat) : Option (List (DocId × R)) :=
  walkOver f k accept (byCeiling f found) turns

/-! ## 6. The sums -/

/-- `span`: how many ids the lists span, their first document to their last. -/
def span (cs : List Cursor) : Nat :=
  let (first, last) := cs.foldl (fun (first, last) c =>
    match c.list.docs.head?, c.list.docs.getLast? with
    | some a, some z => (first ⊓ a, last ⊔ z)
    | _, _ => (first, last)) (docMax, 0)
  last - first + 1

/-- `dense`: whether the lists are dense enough in the ids they span to be summed. -/
def dense (cs : List Cursor) : Bool :=
  span cs / 256 < (cs.map fun c => c.list.docs.length).sum

/-- `usize::next_power_of_two`, nothing where the power does not fit. -/
def nextPowerOfTwo (n : Nat) : Nat := if n ≤ 2 ^ 63 then Nat.nextPowerOfTwo n else 0

/-- The ids summed at a time: `WINDOW` at most, and a word of marks at least. -/
def windowOf (WINDOW : Nat) (cs : List Cursor) : Nat :=
  (WINDOW ⊓ nextPowerOfTwo (span cs)) ⊔ 64

/-- The sums between two windows: the cursors, a slot and a mark for each id of a window, and what
is kept. -/
structure Sums (R : Type) [LinearOrder R] where
  cursors : List Cursor
  sums : List ℚ
  held : List Nat
  heap : List (ByScore R)
  worstKept : R

/-- `u64::trailing_zeros` of a word that is not zero. -/
def trailingZeros (bits : Nat) : Nat :=
  if bits % 2 = 0 ∧ bits ≠ 0 then trailingZeros (bits / 2) + 1 else 0
termination_by bits
decreasing_by omega

/-- A cursor's documents below `hi`, each added into its slot and marked. -/
def gather (lo hi : Nat) (c : Cursor) (sums : List ℚ) (held : List Nat) :
    List (DocId × ℚ) → Cursor × List ℚ × List Nat
  | [] => (c, sums, held)
  | (d, w) :: rest =>
    if d < hi then
      gather lo hi { c with at_ := c.at_ + 1 } (sums.modify (d - lo) (· + c.weight * w))
        (held.modify ((d - lo) / 64) (· ||| 1 <<< ((d - lo) % 64))) rest
    else (c, sums, held)

/-- Every cursor's documents below `hi`. -/
def gatherAll (lo hi : Nat) (sums : List ℚ) (held : List Nat) :
    List Cursor → List Cursor × List ℚ × List Nat
  | [] => ([], sums, held)
  | c :: cs =>
    let (c, sums, held) :=
      gather lo hi c sums held ((c.list.docs.zip c.list.weights).drop c.at_)
    let (cs, sums, held) := gatherAll lo hi sums held cs
    (c :: cs, sums, held)

/-- One marked slot: its sum taken, the slot cleared, and its document kept where it may be. -/
def weigh (f : Rounding R) (k : Nat) (accept : DocId → Bool) (lo i : Nat)
    (st : List ℚ × List (ByScore R) × R) : List ℚ × List (ByScore R) × R :=
  let (sums, heap, worstKept) := st
  let score := f.round (sums.getD i 0)
  let sums := sums.set i 0
  if score < worstKept || !accept (lo + i) then (sums, heap, worstKept)
  else
    let (heap, worstKept) := keep heap k score (lo + i)
    (sums, heap, worstKept)

/-- The marked slots of one word, the lowest first, until none is left. -/
def drain (f : Rounding R) (k : Nat) (accept : DocId → Bool) (lo w bits : Nat)
    (st : List ℚ × List (ByScore R) × R) : List ℚ × List (ByScore R) × R :=
  if bits = 0 then st
  else drain f k accept lo w (bits &&& (bits - 1))
    (weigh f k accept lo (w * 64 + trailingZeros bits) st)
termination_by bits
decreasing_by exact Nat.lt_of_le_of_lt Nat.and_le_right (by omega)

/-- Every word's marked slots; each word is zero after. -/
def drainAll (f : Rounding R) (k : Nat) (accept : DocId → Bool) (lo : Nat) :
    Nat → List Nat → List ℚ × List (ByScore R) × R →
    List Nat × List ℚ × List (ByScore R) × R
  | _, [], st => ([], st)
  | w, bits :: held, st =>
    let (held, st) := drainAll f k accept lo (w + 1) held (drain f k accept lo w bits st)
    (0 :: held, st)

/-- One window: the lists' documents in it summed, and the marked ones weighed. -/
def sumTurn (f : Rounding R) (window k : Nat) (accept : DocId → Bool) (s : Sums R) :
    Turn (Sums R) (List (DocId × R)) :=
  match (s.cursors.filterMap Cursor.head).min? with
  | none => .done (best s.heap)
  | some next =>
    -- `next & !(window - 1)`, and a sum that wraps
    let lo := next &&& (2 ^ 64 - 1 - (window - 1))
    let hi := (lo + window) % 2 ^ 64
    let (cursors, sums, held) := gatherAll lo hi s.sums s.held s.cursors
    let (held, sums, heap, worstKept) :=
      drainAll f k accept lo 0 held (sums, s.heap, s.worstKept)
    .again ⟨cursors, sums, held, heap, worstKept⟩

/-- **`summed`**, its `WINDOW` a parameter, with a bound on its turns. -/
def summed (f : Rounding R) (WINDOW k : Nat) (accept : DocId → Bool) (lists : List Cursor)
    (turns : Nat) : Option (List (DocId × R)) :=
  let window := windowOf WINDOW lists
  loop (sumTurn f window k accept) turns
    ⟨lists, List.replicate window 0, List.replicate (window / 64) 0, [], ⊥⟩

/-- `search`: summed where the lists are dense, or in the browser whatever they are. -/
def SparseIndex.search (f : Rounding R) (wasm : Bool) (WINDOW : Nat) (ix : SparseIndex)
    (query : List (Nat × ℚ)) (k : Nat) (accept : DocId → Bool) (turns : Nat) :
    Option (List (DocId × R)) :=
  let lists := ix.cursors query
  if k = 0 ∨ lists.isEmpty then some []
  else if wasm || dense lists then summed f WINDOW k accept lists turns
  else walk f k accept lists turns

/-! ## 7. The exhaustive answer -/

/-- Every document scored against the query, the best `k` kept, ties to the lower id. -/
def exhaustive (f : Rounding R) (documents : OrdMap SparseVector) (query : List (Nat × ℚ))
    (k : Nat) (accept : DocId → Bool) : List (DocId × R) :=
  (((documents.entries.filter fun e => accept e.1).filterMap fun (id, v) =>
    (dot v.entries query).map fun s => (id, f.round s)).mergeSort bestFirst).take k

end Fenec.Near
