/-
# The sparse index returns the exact top k

The cursors of a query stand for the documents' own weights, so what they add to a document is its
dot product with the query (`total_cursors`, `dot_eq`), and the first `k` keys of the documents on
the lists are the exhaustive answer (`best_eq_exhaustive`).  With what the walk and the sums end
with, the index answers exactly (`Exact`) after every run of writes; the sums alone ask that no
document they score is in the last window of the ids (`exact_iff`), and so does a search where it
takes them (`search_iff`).
-/
import Fenec.Windows

namespace Fenec.Near

open Lib

/-! ## 1. The dot product -/

/-- Whether two vectors share a dimension. -/
def shares (a b : List (Nat × ℚ)) : Bool := b.any fun e => (a.lookup e.1).isSome

/-- The products over the dimensions of `b`, nothing where `a` has none. -/
def products (a b : List (Nat × ℚ)) : ℚ := (b.map fun e => (a.lookup e.1).getD 0 * e.2).sum

theorem lookup_none_of_lt {a : List (Nat × ℚ)} {j : Nat} (h : ∀ e ∈ a, j < e.1) :
    a.lookup j = none := by
  refine List.lookup_eq_none_iff.mpr fun p hp => bne_iff_ne.mpr ?_
  exact Nat.ne_of_lt (h p hp)

theorem shares_nil (b : List (Nat × ℚ)) : shares [] b = false := by
  rw [shares, List.any_eq_false]
  exact fun _ _ => Bool.false_ne_true

theorem products_nil (b : List (Nat × ℚ)) : products [] b = 0 := by
  refine List.sum_eq_zero fun x hx => ?_
  obtain ⟨e, -, rfl⟩ := List.mem_map.mp hx
  rw [List.lookup_nil, Option.getD_none, zero_mul]

/-- An entry below all of the other vector's adds nothing. -/
theorem products_skip {i : Nat} {x : ℚ} {a b : List (Nat × ℚ)} (h : ∀ e ∈ b, i < e.1) :
    shares ((i, x) :: a) b = shares a b ∧ products ((i, x) :: a) b = products a b := by
  have hsame : ∀ e ∈ b, ((i, x) :: a).lookup e.1 = a.lookup e.1 := by
    intro e he
    rw [OrdMap.lookup_cons_ite, if_neg (Nat.ne_of_lt (h e he)).symm]
  constructor
  · unfold shares
    rw [Bool.eq_iff_iff, List.any_eq_true, List.any_eq_true]
    exact exists_congr fun e => and_congr_right fun he => by rw [hsame e he]
  · unfold products
    rw [List.map_congr_left fun e he => by rw [hsame e he]]

/-- **The merge sums the products over what the vectors share.** -/
theorem dotFrom_eq (sum : ℚ) (shared : Bool) (a b : List (Nat × ℚ))
    (ha : a.Pairwise fun x y => x.1 < y.1) (hb : b.Pairwise fun x y => x.1 < y.1) :
    dotFrom sum shared a b =
      if shared || shares a b then some (sum + products a b) else none := by
  induction sum, shared, a, b using dotFrom.induct with
  | case1 sum shared i x a j y b hij ih =>
    obtain ⟨-, ha⟩ := List.pairwise_cons.mp ha
    have habove : ∀ e ∈ (j, y) :: b, i < e.1 := by
      intro e he
      rcases List.mem_cons.mp he with rfl | he
      · exact hij
      · exact Nat.lt_trans hij ((List.pairwise_cons.mp hb).1 e he)
    obtain ⟨hshares, hproducts⟩ := products_skip (x := x) (a := a) habove
    rw [dotFrom, if_pos hij, ih ha hb, hshares, hproducts]
  | case2 sum shared i x a j y b hij hji ih =>
    obtain ⟨-, hb⟩ := List.pairwise_cons.mp hb
    have hnone : ((i, x) :: a).lookup j = none := by
      refine lookup_none_of_lt fun e he => ?_
      rcases List.mem_cons.mp he with rfl | he
      · exact hji
      · exact Nat.lt_trans hji ((List.pairwise_cons.mp ha).1 e he)
    have hshares : shares ((i, x) :: a) ((j, y) :: b) = shares ((i, x) :: a) b := by
      rw [shares, List.any_cons, hnone]
      rfl
    have hproducts : products ((i, x) :: a) ((j, y) :: b) = products ((i, x) :: a) b := by
      rw [products, List.map_cons, List.sum_cons, hnone, Option.getD_none, zero_mul, zero_add]
      rfl
    rw [dotFrom, if_neg hij, if_pos hji, ih ha hb, hshares, hproducts]
  | case3 sum shared i x a j y b hij hji ih =>
    obtain ⟨-, ha'⟩ := List.pairwise_cons.mp ha
    obtain ⟨hhead, hb'⟩ := List.pairwise_cons.mp hb
    obtain rfl : i = j := by omega
    obtain ⟨-, hproducts⟩ := products_skip (x := x) (a := a) hhead
    have hshares : shares ((i, x) :: a) ((i, y) :: b) = true := by
      rw [shares, List.any_cons, OrdMap.lookup_cons_ite, if_pos rfl]
      rfl
    have hsum : products ((i, x) :: a) ((i, y) :: b) = x * y + products a b := by
      rw [← hproducts, products, List.map_cons, List.sum_cons, OrdMap.lookup_cons_ite, if_pos rfl]
      rfl
    rw [dotFrom, if_neg hij, if_neg hji, ih ha' hb', hshares, hsum, Bool.true_or, Bool.or_true,
      if_pos rfl, if_pos rfl, add_assoc]
  | case4 | case5 => simp [dotFrom, shares_nil, products_nil]
  | case6 | case7 => simp [dotFrom, shares, products]

/-- `dot` is the sum of the products over what two vectors share. -/
theorem dot_eq (v q : SparseVector) : dot v.entries q.entries =
    if shares v.entries q.entries then some (products v.entries q.entries) else none := by
  rw [dot, dotFrom_eq 0 false _ _ v.ascending q.ascending, Bool.false_or, zero_add]

/-! ## 2. The cursors of a query -/

variable {s : SparseIndex × OrdMap SparseVector} {query : List (Nat × ℚ)} {c : Cursor}
  {d : DocId} {v : SparseVector}

/-- A list stands for the documents' weights in its dimension. -/
theorem Indexed.list_holds (h : Indexed s) {i : Nat} {l : PostingList}
    (hl : s.1.list i = some l) : l.Holds (posts s.2 i) := by
  obtain ⟨k, hi, hk⟩ := Option.bind_eq_some_iff.mp hl
  exact h.holds.held hi hk

/-- A dimension without a list has no documents. -/
theorem Indexed.list_none (h : Indexed s) {i : Nat} (hl : s.1.list i = none) :
    posts s.2 i = .empty := by
  unfold SparseIndex.list at hl
  cases hi : s.1.at_.get i with
  | none => exact h.holds.missing hi
  | some k =>
    rw [hi, Option.bind_some, List.getElem?_eq_none_iff] at hl
    exact absurd (h.holds.inside hi) (Nat.not_lt.mpr hl)

/-- What a list adds to a document is the query's weight times the document's. -/
theorem adds_of_holds {m : OrdMap ℚ} (hc : c.list.Holds m) (d : DocId) :
    c.adds d = c.weight * (m.get d).getD 0 := by
  have hzip : c.postings = m.entries := by
    rw [Cursor.postings, hc.docs, hc.weights]
    exact (List.zip_of_prod rfl rfl).symm
  rw [Cursor.adds, hzip]
  rfl

/-- A cursor of the query is at the head of a sound list. -/
theorem Indexed.cursor (h : Indexed s) (hc : c ∈ s.1.cursors query) : c.at_ = 0 ∧ c.Sound := by
  obtain ⟨⟨i, q⟩, hq, hcursor⟩ := List.mem_filterMap.mp hc
  obtain ⟨l, hl, rfl⟩ := Option.map_eq_some_iff.mp hcursor
  have hholds := h.list_holds hl
  refine ⟨rfl, hholds.docs ▸ OrdMap.keys_ascending _, ?_, fun d hd => ?_, fun d => ?_⟩
  · show l.weights.length = l.docs.length
    rw [hholds.docs, hholds.weights, OrdMap.keys, List.length_map, List.length_map]
  · have hd : d ∈ (posts s.2 i).keys := hholds.docs ▸ hd
    obtain ⟨w, hw⟩ := OrdMap.mem_keys_iff.mp hd
    rw [get_posts] at hw
    obtain ⟨v, hv, -⟩ := Option.bind_eq_some_iff.mp hw
    exact h.below (d, v) (OrdMap.mem_entries_iff.mpr hv)
  · rw [adds_of_holds hholds]
    show q * ((posts s.2 i).get d).getD 0 ≤ ((q * l.max ⊔ q * l.min) ⊔ 0) * (1 + 1 / 1000000000)
    have hpos : (0 : ℚ) ≤ (q * l.max ⊔ q * l.min) ⊔ 0 := le_sup_right
    have hslack : (q * l.max ⊔ q * l.min) ⊔ 0 ≤
        ((q * l.max ⊔ q * l.min) ⊔ 0) * (1 + 1 / 1000000000) :=
      le_mul_of_one_le_right hpos (by norm_num)
    refine le_trans ?_ hslack
    cases hw : (posts s.2 i).get d with
    | none =>
      rw [Option.getD_none, mul_zero]
      exact hpos
    | some w =>
      obtain ⟨hlow, hhigh⟩ := hholds.bounds (d, w) (OrdMap.mem_entries_iff.mpr hw)
      rw [Option.getD_some]
      refine le_trans ?_ le_sup_left
      rcases le_total 0 q with hq0 | hq0
      · exact le_trans (mul_le_mul_of_nonneg_left hhigh hq0) le_sup_left
      · exact le_trans (mul_le_mul_of_nonpos_left hlow hq0) le_sup_right

/-- What the query's lists add to a document they hold is its products with the query. -/
theorem Indexed.total_cursors (h : Indexed s) (hv : s.2.get d = some v) :
    total (s.1.cursors query) d = products v.entries query := by
  unfold SparseIndex.cursors
  induction query with
  | nil => rfl
  | cons e query ih =>
    obtain ⟨i, q⟩ := e
    have hget : (posts s.2 i).get d = v.get i := by rw [get_posts, hv, Option.bind_some]
    rw [products, List.map_cons, List.sum_cons]
    cases hl : s.1.list i with
    | none =>
      have hnone : v.entries.lookup i = none := by
        have hempty := hget
        rw [h.list_none hl] at hempty
        exact hempty.symm
      rw [List.filterMap_cons_none (by rw [SparseIndex.cursor, hl]; rfl), ih, hnone,
        Option.getD_none, zero_mul, zero_add]
      rfl
    | some l =>
      rw [List.filterMap_cons_some (by rw [SparseIndex.cursor, hl]; rfl), total_cons, ih,
        adds_of_holds (h.list_holds hl), hget, mul_comm]
      rfl

/-- The documents on the query's lists are those that share a dimension with it. -/
theorem Indexed.mem_docsOf (h : Indexed s) : d ∈ docsOf (s.1.cursors query) ↔
    ∃ v, s.2.get d = some v ∧ shares v.entries query = true := by
  rw [Near.mem_docsOf]
  constructor
  · rintro ⟨c, hc, hd⟩
    obtain ⟨⟨i, q⟩, hq, hcursor⟩ := List.mem_filterMap.mp hc
    obtain ⟨l, hl, rfl⟩ := Option.map_eq_some_iff.mp hcursor
    have hd : d ∈ (posts s.2 i).keys := (h.list_holds hl).docs ▸ hd
    obtain ⟨w, hw⟩ := OrdMap.mem_keys_iff.mp hd
    rw [get_posts] at hw
    obtain ⟨v, hv, hi⟩ := Option.bind_eq_some_iff.mp hw
    refine ⟨v, hv, List.any_eq_true.mpr ⟨(i, q), hq, ?_⟩⟩
    have hi : v.entries.lookup i = some w := hi
    rw [hi]
    rfl
  · rintro ⟨v, hv, hshares⟩
    obtain ⟨⟨i, q⟩, hq, hi⟩ := List.any_eq_true.mp hshares
    obtain ⟨w, hw⟩ := Option.isSome_iff_exists.mp hi
    have hget : (posts s.2 i).get d = some w := by
      rw [get_posts, hv, Option.bind_some]
      exact hw
    cases hl : s.1.list i with
    | none =>
      rw [h.list_none hl] at hget
      cases hget
    | some l =>
      refine ⟨_, List.mem_filterMap.mpr ⟨(i, q), hq, by rw [SparseIndex.cursor, hl]; rfl⟩, ?_⟩
      show d ∈ l.docs
      rw [(h.list_holds hl).docs]
      exact OrdMap.mem_keys_iff.mpr ⟨w, hget⟩

/-! ## 3. The exhaustive answer -/

section Answer

variable {R : Type} [LinearOrder R] {f : Rounding R} {accept : DocId → Bool} {k : Nat}

/-- `best_first` is the order of the keys. -/
theorem bestFirst_iff {a b : DocId × R} :
    bestFirst a b = true ↔ byScore a.2 a.1 ≤ byScore b.2 b.1 := by
  unfold bestFirst byScore
  rw [Prod.Lex.toLex_le_toLex, Bool.or_eq_true, Bool.and_eq_true, decide_eq_true_iff,
    decide_eq_true_iff, decide_eq_true_iff, OrderDual.toDual_lt_toDual]
  exact or_congr_right (and_congr_left fun _ => OrderDual.toDual_inj.symm)

/-- Keys in order are best first. -/
theorem bestFirst_sorted {l : List (ByScore R)} (h : l.Pairwise (· ≤ ·)) :
    (l.map fun s => (s.doc, s.score)).Pairwise fun a b => bestFirst a b = true := by
  rw [List.pairwise_map]
  exact h.imp fun hab => bestFirst_iff.mpr hab

theorem best_eq_map {l : List (ByScore R)} (h : l.Pairwise (· ≤ ·)) :
    best l = l.map fun s => (s.doc, s.score) :=
  List.mergeSort_of_pairwise (bestFirst_sorted h)

theorem bestFirst_antisymm {a b : DocId × R} (hab : bestFirst a b = true)
    (hba : bestFirst b a = true) : a = b := by
  have heq : byScore a.2 a.1 = byScore b.2 b.1 :=
    le_antisymm (bestFirst_iff.mp hab) (bestFirst_iff.mp hba)
  exact Prod.ext (congrArg ByScore.doc heq) (congrArg ByScore.score heq)

/-- A list best first is its own keys in order. -/
theorem mergeSort_bestFirst {l : List (DocId × R)} {S : Finset (ByScore R)} (hl : l.Nodup)
    (hmem : ∀ a, a ∈ l ↔ byScore a.2 a.1 ∈ S) :
    l.mergeSort bestFirst = (S.sort (· ≤ ·)).map fun s => (s.doc, s.score) := by
  have hsorted : (l.mergeSort bestFirst).Pairwise fun a b => bestFirst a b = true := by
    refine List.pairwise_mergeSort (fun a b c hab hbc => ?_) (fun a b => ?_) l
    · exact bestFirst_iff.mpr (le_trans (bestFirst_iff.mp hab) (bestFirst_iff.mp hbc))
    · rw [Bool.or_eq_true, bestFirst_iff, bestFirst_iff]
      exact le_total _ _
  refine List.Perm.eq_of_pairwise (fun a b _ _ hab hba => bestFirst_antisymm hab hba) hsorted
    (bestFirst_sorted (Finset.pairwise_sort S _)) ((List.mergeSort_perm l _).trans ?_)
  rw [List.perm_ext_iff_of_nodup hl]
  · intro a
    rw [hmem, List.mem_map]
    constructor
    · exact fun h => ⟨_, (Finset.mem_sort _).mpr h, rfl⟩
    · rintro ⟨s, hs, rfl⟩
      exact (Finset.mem_sort _).mp hs
  · refine List.Nodup.map (fun a b hab => ?_) (Finset.sort_nodup S _)
    obtain ⟨hdoc, hscore⟩ := Prod.mk.inj hab
    exact congrArg₂ byScore hscore hdoc

/-- **The first keys of the documents on the query's lists are the exhaustive answer.** -/
theorem Indexed.best_eq_exhaustive (h : Indexed s) (query : SparseVector) :
    best (Best.best k (keys f accept (s.1.cursors query.entries)
      (docsOf (s.1.cursors query.entries)))) =
      exhaustive f s.2 query.entries k accept := by
  have hscored : ∀ {d v}, s.2.get d = some v → ∀ r,
      (dot v.entries query.entries).map f.round = some r ↔
        shares v.entries query.entries = true ∧
          f.round (total (s.1.cursors query.entries) d) = r := by
    intro d v hv r
    rw [dot_eq, h.total_cursors hv]
    by_cases hshares : shares v.entries query.entries = true
    · rw [if_pos hshares, Option.map_some, Option.some_inj]
      exact (and_iff_right hshares).symm
    · rw [if_neg hshares]
      exact iff_of_false (fun h => by cases h) fun h => hshares h.1
  rw [best_eq_map Best.sorted_best, Best.best, List.map_take, exhaustive]
  congr 1
  refine (mergeSort_bestFirst ?_ ?_).symm
  · have hasc := s.2.ascending.filter fun e => accept e.1
    refine (List.Pairwise.filterMap (S := fun a b : DocId × R => a ≠ b) _ ?_ hasc)
    rintro ⟨d, v⟩ ⟨d', v'⟩ hlt a ha b hb rfl
    obtain ⟨r, -, rfl⟩ := Option.map_eq_some_iff.mp ha
    obtain ⟨r', -, heq⟩ := Option.map_eq_some_iff.mp hb
    have hdd : d < d' := hlt
    rw [(Prod.mk.inj heq).1] at hdd
    exact Nat.lt_irrefl d hdd
  · rintro ⟨d, r⟩
    constructor
    · intro hmem
      obtain ⟨⟨d', v⟩, hin, hdot⟩ := List.mem_filterMap.mp hmem
      obtain ⟨hin, haccept⟩ := List.mem_filter.mp hin
      obtain ⟨x, hx, heq⟩ := Option.map_eq_some_iff.mp hdot
      obtain ⟨rfl, rfl⟩ := Prod.mk.inj heq
      have hv : s.2.get d' = some v := OrdMap.mem_entries_iff.mp hin
      obtain ⟨hshares, hscore⟩ := (hscored hv (f.round x)).mp (by rw [hx]; rfl)
      refine Finset.mem_image.mpr ⟨d', Finset.mem_filter.mpr ⟨?_, haccept⟩, by rw [hscore]⟩
      exact h.mem_docsOf.mpr ⟨v, hv, hshares⟩
    · intro hmem
      obtain ⟨d', hd', heq⟩ := Finset.mem_image.mp hmem
      obtain rfl : d' = d := congrArg ByScore.doc heq
      have hscore : f.round (total (s.1.cursors query.entries) d') = r :=
        congrArg ByScore.score heq
      obtain ⟨hd', haccept⟩ := Finset.mem_filter.mp hd'
      obtain ⟨v, hv, hshares⟩ := h.mem_docsOf.mp hd'
      obtain ⟨x, hx, rfl⟩ := Option.map_eq_some_iff.mp ((hscored hv r).mpr ⟨hshares, hscore⟩)
      refine List.mem_filterMap.mpr ⟨(d', v), List.mem_filter.mpr ⟨?_, haccept⟩, ?_⟩
      · exact OrdMap.mem_entries_iff.mpr hv
      · dsimp only
        rw [hx]
        rfl

end Answer

/-! ## 4. The index answers exactly -/

section Exact

variable {R : Type} [LinearOrder R] {f : Rounding R} {accept : DocId → Bool} {k e : Nat}
  {g : Growth}

/-- Cursors in another order score alike. -/
theorem keys_perm {cs cs' : List Cursor} (h : cs.Perm cs') :
    keys f accept cs (docsOf cs) = keys f accept cs' (docsOf cs') := by
  have htotal : total cs = total cs' := by
    funext d
    exact (h.map fun c => c.adds d).sum_eq
  have hdocs : docsOf cs = docsOf cs' := List.toFinset_eq_of_perm _ _ (h.flatMap_right _)
  rw [keys, keys, htotal, hdocs]

/-- The cursors by ceiling are the same cursors. -/
theorem byCeiling_perm (f : Rounding R) (found : List Cursor) : (byCeiling f found).Perm found := by
  unfold byCeiling
  dsimp only
  refine ((List.mergeSort_perm _ _).filterMap _).trans (List.Perm.of_eq ?_)
  have hplace : ∀ p ∈ found.zipIdx, found[p.2]? = some p.1 := by
    rintro ⟨c, i⟩ hp
    exact List.mem_zipIdx_iff_getElem?.mp hp
  rw [List.filterMap_map]
  have hfound : found.zipIdx.filterMap (fun p => found[p.2]?) = found.zipIdx.map (·.1) := by
    rw [← List.filterMap_eq_map]
    exact List.filterMap_congr hplace
  exact hfound.trans (List.zipIdx_map_fst 0 found)

variable [OrderBot R]

/-- **The index is what a fresh build of its documents is, and answers a query exactly**: the walk
over any order of the cursors, and `walk` and `summed` over those of the query. -/
structure Exact (g : Growth) (f : Rounding R) (s : SparseIndex × OrdMap SparseVector)
    (query : SparseVector) (k : Nat) (accept : DocId → Bool) (WINDOW : Nat) : Prop where
  built : ∃ fresh, SparseIndex.build g s.2 = some fresh ∧
    ∀ i, s.1.postings i = fresh.postings i
  len : s.1.docs = indexed s.2
  heap : s.1.heap = (s.1.lists.map PostingList.bytes).sum
  walkedOver : ∀ cursors : List Cursor, cursors.Perm (s.1.cursors query.entries) → ∃ turns,
    walkOver f k accept cursors turns = some (exhaustive f s.2 query.entries k accept)
  walked : ∃ turns, walk f k accept (s.1.cursors query.entries) turns =
    some (exhaustive f s.2 query.entries k accept)
  summed : ∃ turns, summed f WINDOW k accept (s.1.cursors query.entries) turns =
    some (exhaustive f s.2 query.entries k accept)

variable {s : SparseIndex × OrdMap SparseVector} {query : SparseVector}

/-- The walk answers exactly, whatever the order of the cursors. -/
theorem Indexed.walkOver_eq (h : Indexed s) {cursors : List Cursor}
    (hperm : cursors.Perm (s.1.cursors query.entries)) : ∃ turns,
    walkOver f k accept cursors turns = some (exhaustive f s.2 query.entries k accept) := by
  have hcursor : ∀ c ∈ cursors, c.at_ = 0 ∧ c.Sound := fun c hc => h.cursor (hperm.mem_iff.mp hc)
  obtain ⟨turns, hturns⟩ := walkOver_spec f k accept
    (fun c hc => (hcursor c hc).1) fun c hc => (hcursor c hc).2
  exact ⟨turns, by rw [hturns, keys_perm hperm, h.best_eq_exhaustive query]⟩

/-- The documents the query's lists hold are those it has a dot product with. -/
theorem Indexed.mem_docsOf_dot (h : Indexed s) {d : DocId} :
    d ∈ docsOf (s.1.cursors query.entries) ↔
      ∃ v, s.2.get d = some v ∧ (dot v.entries query.entries).isSome = true := by
  rw [h.mem_docsOf]
  refine exists_congr fun v => and_congr_right fun _ => ?_
  rw [dot_eq]
  cases shares v.entries query.entries <;> simp

/-- The sums answer exactly where no document they score is in the last window of the ids, and
never elsewhere. -/
theorem Indexed.summed_iff (f : Rounding R) (k : Nat) (accept : DocId → Bool) (h : Indexed s)
    (he : e < 64) :
    (∃ turns, Near.summed f (2 ^ e) k accept (s.1.cursors query.entries) turns =
        some (exhaustive f s.2 query.entries k accept)) ↔
      ∀ d v, s.2.get d = some v → (dot v.entries query.entries).isSome = true →
        d < 2 ^ 64 - windowOf (2 ^ e) (s.1.cursors query.entries) := by
  have hzero : ∀ c ∈ s.1.cursors query.entries, c.at_ = 0 := fun c hc => (h.cursor hc).1
  have hs : ∀ c ∈ s.1.cursors query.entries, c.Sound := fun c hc => (h.cursor hc).2
  constructor
  · rintro ⟨turns, hturns⟩ d v hv hdot
    by_contra hlast
    have hnever := summed_never f k accept he hzero hs
      ⟨d, h.mem_docsOf_dot.mpr ⟨v, hv, hdot⟩, Nat.le_of_not_lt hlast⟩ turns
    cases hnever.symm.trans hturns
  · intro hlast
    obtain ⟨turns, hturns⟩ := summed_spec f k accept he hzero hs
      fun d hd => by
        obtain ⟨v, hv, hdot⟩ := h.mem_docsOf_dot.mp hd
        exact hlast d v hv hdot
    exact ⟨turns, by rw [hturns, h.best_eq_exhaustive query]⟩

/-- What an index is between writes is exact but for the sums over the last window. -/
theorem Indexed.exact_iff (h : Indexed s) (he : e < 64) :
    Exact g f s query k accept (2 ^ e) ↔
      ∀ d v, s.2.get d = some v → (dot v.entries query.entries).isSome = true →
        d < 2 ^ 64 - windowOf (2 ^ e) (s.1.cursors query.entries) := by
  rw [← Indexed.summed_iff f k accept h he]
  refine ⟨fun hexact => hexact.summed, fun hsummed => ⟨?_, h.docs, h.holds.heap,
    fun cursors hperm => h.walkOver_eq hperm, h.walkOver_eq (byCeiling_perm f _), hsummed⟩⟩
  obtain ⟨fresh, hbuild, hfresh⟩ := indexed_build g h.below
  exact ⟨fresh, hbuild, fun i => by rw [h.postings_eq, hfresh.postings_eq]⟩

/-- A query that meets no list shares a dimension with no document. -/
theorem Indexed.dot_of_nil (h : Indexed s) (hnil : s.1.cursors query.entries = [])
    (hget : s.2.get d = some v) : (dot v.entries query.entries).isSome = false := by
  refine Bool.eq_false_iff.mpr fun hdot => ?_
  have hmem := h.mem_docsOf_dot.mpr ⟨v, hget, hdot⟩
  rw [hnil] at hmem
  cases hmem

omit [OrderBot R] in
/-- Nothing is found of a query for no rows, or of one that meets no list. -/
theorem Indexed.exhaustive_nil (f : Rounding R) (accept : DocId → Bool) (h : Indexed s)
    (hnone : k = 0 ∨ s.1.cursors query.entries = []) :
    exhaustive f s.2 query.entries k accept = [] := by
  rw [← h.best_eq_exhaustive query]
  rcases hnone with rfl | hnil
  · rw [best_eq_map Best.sorted_best, Best.best, List.take_zero]
    rfl
  · have hkeys : keys f accept (s.1.cursors query.entries)
        (docsOf (s.1.cursors query.entries)) = ∅ := by
      rw [hnil]
      rfl
    rw [best_eq_map Best.sorted_best, hkeys, Best.best_empty]
    rfl

/-- `search` answers exactly but where it takes the sums and a document it scores is in the last
window of the ids. -/
theorem Indexed.search_iff (f : Rounding R) (k : Nat) (accept : DocId → Bool) (wasm : Bool)
    (h : Indexed s) (he : e < 64) :
    (∃ turns, s.1.search f wasm (2 ^ e) query.entries k accept turns =
        some (exhaustive f s.2 query.entries k accept)) ↔
      (k ≠ 0 → (wasm || dense (s.1.cursors query.entries)) = true →
        ∀ d v, s.2.get d = some v → (dot v.entries query.entries).isSome = true →
          d < 2 ^ 64 - windowOf (2 ^ e) (s.1.cursors query.entries)) := by
  unfold SparseIndex.search
  dsimp only
  by_cases hnone : k = 0 ∨ (s.1.cursors query.entries).isEmpty = true
  · rw [List.isEmpty_iff] at hnone
    refine iff_of_true ⟨0, ?_⟩ fun hk _ d v hget hdot => ?_
    · rw [if_pos (hnone.imp_right List.isEmpty_iff.mpr), h.exhaustive_nil f accept hnone]
    · have hnil := hnone.resolve_left hk
      rw [h.dot_of_nil hnil hget] at hdot
      cases hdot
  · have hk : k ≠ 0 := fun hk => hnone (.inl hk)
    simp only [if_neg hnone]
    by_cases hsums : (wasm || dense (s.1.cursors query.entries)) = true
    · simp only [if_pos hsums]
      rw [Indexed.summed_iff f k accept h he]
      exact ⟨fun hlast _ _ => hlast, fun hlast => hlast hk hsums⟩
    · simp only [if_neg hsums]
      exact iff_of_true (h.walkOver_eq (byCeiling_perm f _)) fun _ hdense => absurd hdense hsums

/-- **The sparse index returns the exact top k**, after every run of writes that takes out what was
indexed, for every window: where no document that shares a dimension with the query has its id in
the last window of the ids. -/
theorem sparse_index_exact (g : Growth) (f : Rounding R) {ws : List Write}
    (h : Along (writeStep g) Fits (.new, .empty) ws) (query : SparseVector) (k : Nat)
    (accept : DocId → Bool) {e : Nat} (he : e < 64) :
    ∃ s, run (writeStep g) (.new, .empty) ws = some s ∧
      (Exact g f s query k accept (2 ^ e) ↔
        ∀ d v, s.2.get d = some v → (dot v.entries query.entries).isSome = true →
          d < 2 ^ 64 - windowOf (2 ^ e) (s.1.cursors query.entries)) := by
  obtain ⟨s, hrun, hs⟩ := indexed_run h
  exact ⟨s, hrun, hs.exact_iff he⟩

/-- Scores kept as they are. -/
def unrounded : Rounding (WithBot ℚ) := ⟨fun q => q, fun _ _ h => WithBot.coe_le_coe.mpr h⟩

/-- A `Vec` that doubles, from four on. -/
def doubling : Growth := ⟨fun n => 4 ⊔ 2 * n, fun n => by
  show n < 4 ⊔ 2 * n
  omega⟩

/-- The vector `{1:1}`. -/
def oneWeight : SparseVector := ⟨⟨[(0, 1)], List.pairwise_singleton _ _⟩, by simp, by
  simp [Sparse.maxDim]⟩

/-- One insert fits. -/
theorem fits_one {d : DocId} (h : d < docMax) :
    Along (writeStep doubling) Fits (.new, .empty) [.insert d oneWeight] :=
  ⟨⟨rfl, h⟩, fun _ _ => trivial⟩

theorem sparse_index_exact_one : ∃ s,
    run (writeStep doubling) (.new, .empty) [.insert 7 oneWeight] = some s ∧
      (Exact doubling unrounded s oneWeight 1 (fun _ => true) (2 ^ 16) ↔
        ∀ d v, s.2.get d = some v → (dot v.entries oneWeight.entries).isSome = true →
          d < 2 ^ 64 - windowOf (2 ^ 16) (s.1.cursors oneWeight.entries)) :=
  sparse_index_exact doubling unrounded (fits_one (by decide)) oneWeight 1 (fun _ => true)
    (by decide)

/-- A document two ids below the last: the sums over it never end. -/
theorem last_window_never_summed : ∃ s,
    run (writeStep doubling) (.new, .empty) [.insert (2 ^ 64 - 2) oneWeight] = some s ∧
      ¬ Exact doubling unrounded s oneWeight 1 (fun _ => true) (2 ^ 16) := by
  obtain ⟨s, hrun, hs⟩ := indexed_run (fits_one (d := 2 ^ 64 - 2) (by decide))
  refine ⟨s, hrun, fun hexact => ?_⟩
  have hheld : s.2 = OrdMap.insert .empty (2 ^ 64 - 2) oneWeight := by
    obtain ⟨t, hstep, hnil⟩ := run_cons hrun
    rw [writeStep] at hstep
    obtain ⟨ix, -, rfl⟩ := Option.map_eq_some_iff.mp hstep
    rw [← Option.some.inj hnil]
  have hget : s.2.get (2 ^ 64 - 2) = some oneWeight := by
    rw [hheld, OrdMap.get_insert, if_pos rfl]
  have hdot : (dot oneWeight.entries oneWeight.entries).isSome = true := by
    rw [dot_eq, if_pos (by decide)]
    rfl
  have hless := (hs.exact_iff (by decide)).mp hexact _ _ hget hdot
  have hwindow : 64 ≤ windowOf (2 ^ 16) (s.1.cursors oneWeight.entries) := le_sup_right
  omega

end Exact

end Fenec.Near
