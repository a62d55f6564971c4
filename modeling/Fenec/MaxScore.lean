/-
# The walk skips nothing it would keep

Each list is read through a cursor.  What a search may answer with is the keys of the documents on
the lists that the filter accepts (`keys`), and the heap holds the first `k` of those read so far.
Two facts carry every skip: a document on lists that add up to less than the worst kept comes after
all that is kept (`best_union_short`), and what lists can add is at most their ceilings
(`total_le_reach`).

The walk's invariant is a frontier: every document below it has been read or skipped, the cursors
from the pivot on are at it, and those before the pivot are not past it (`Frontier`).  A turn moves
the frontier past the lowest document from the pivot on (`walkTurn_spec`), so the walk ends, with
the first `k` of all (`walkOver_spec`), in whatever order the cursors stand.
-/
import Fenec.Inverted
import Mathlib.Algebra.Order.BigOperators.Group.List
import Mathlib.Data.List.TakeWhile

namespace Fenec.Near

open Lib

/-! ## 1. Cursors -/

/-- A list's documents with their weights. -/
def Cursor.postings (c : Cursor) : List (DocId × ℚ) := c.list.docs.zip c.list.weights

/-- What a list adds to a document's score. -/
def Cursor.adds (c : Cursor) (d : DocId) : ℚ := c.weight * (c.postings.lookup d).getD 0

/-- The cursor at the head of its list. -/
def Cursor.start (c : Cursor) : Cursor := { c with at_ := 0 }

/-- A list in order, a weight for each document and no more added than its ceiling. -/
structure Cursor.Sound (c : Cursor) : Prop where
  ascending : c.list.docs.Pairwise (· < ·)
  even : c.list.weights.length = c.list.docs.length
  below : ∀ d ∈ c.list.docs, d < docMax
  bounded : ∀ d, c.adds d ≤ c.ceiling

/-- The cursor is at a frontier: past the documents below it and no others. -/
def Cursor.Reads (c : Cursor) (b : DocId) : Prop :=
  ∀ n d, c.list.docs[n]? = some d → (n < c.at_ ↔ d < b)

/-- The cursor is not past a frontier. -/
def Cursor.Lags (c : Cursor) (b : DocId) : Prop :=
  ∀ n d, c.list.docs[n]? = some d → n < c.at_ → d < b

variable {c : Cursor} {cs cs' : List Cursor} {b d doc : DocId} {n : Nat}

theorem Cursor.start_of_zero (h : c.at_ = 0) : c.start = c := by
  obtain ⟨at_, list, weight, ceiling⟩ := c
  rw [Cursor.start, ← h]

@[simp] theorem Cursor.adds_start (c : Cursor) (d : DocId) : c.start.adds d = c.adds d := rfl

theorem map_start_of_zero (h : ∀ c ∈ cs, c.at_ = 0) : cs.map Cursor.start = cs := by
  have hid : cs.map Cursor.start = cs.map id :=
    List.map_congr_left fun c hc => Cursor.start_of_zero (h c hc)
  rw [hid, List.map_id]

theorem Cursor.Sound.start (h : c.Sound) : c.start.Sound :=
  ⟨h.ascending, h.even, h.below, h.bounded⟩

theorem Cursor.Sound.of_start (h : c.start.Sound) : c.Sound :=
  ⟨h.ascending, h.even, h.below, h.bounded⟩

theorem Cursor.Sound.seek (h : c.Sound) : (c.seek d).Sound :=
  ⟨h.ascending, h.even, h.below, h.bounded⟩

theorem Cursor.Reads.lags (h : c.Reads b) : c.Lags b := fun n d hd hn => (h n d hd).mp hn

theorem Cursor.Lags.mono (h : c.Lags b) (hbd : b ≤ d) : c.Lags d :=
  fun n e he hn => Nat.lt_of_lt_of_le (h n e he hn) hbd

/-- A frontier moves over ids the list does not hold. -/
theorem Cursor.Reads.mono (h : c.Reads b) (hbd : b ≤ d)
    (hnone : ∀ e ∈ c.list.docs, b ≤ e → d ≤ e) : c.Reads d := by
  intro n e he
  rw [h n e he]
  refine ⟨fun heb => Nat.lt_of_lt_of_le heb hbd, fun hed => ?_⟩
  by_contra hbe
  exact Nat.lt_irrefl e (Nat.lt_of_lt_of_le hed
    (hnone e (List.mem_of_getElem? he) (Nat.le_of_not_lt hbe)))

theorem Cursor.reads_start (c : Cursor) (h : c.at_ = 0) : c.Reads 0 := by
  intro n d _
  rw [h]
  exact ⟨fun hn => absurd hn (Nat.not_lt_zero n), fun hd => absurd hd (Nat.not_lt_zero d)⟩

/-- In an ascending list the places go as the documents. -/
theorem place_lt_iff {docs : List DocId} (h : docs.Pairwise (· < ·)) {m : Nat} {e : DocId}
    (hd : docs[n]? = some d) (he : docs[m]? = some e) : n < m ↔ d < e := by
  have hmono : ∀ {n m : Nat} {d e : DocId}, docs[n]? = some d → docs[m]? = some e →
      n < m → d < e := by
    intro n m d e hd he hnm
    obtain ⟨hn, rfl⟩ := List.getElem?_eq_some_iff.mp hd
    obtain ⟨hm, rfl⟩ := List.getElem?_eq_some_iff.mp he
    exact List.pairwise_iff_getElem.mp h n m hn hm hnm
  refine ⟨hmono hd he, fun hde => ?_⟩
  rcases Nat.lt_trichotomy n m with hnm | rfl | hmn
  · exact hnm
  · rw [Option.some.inj (hd.symm.trans he)] at hde
    exact absurd hde (Nat.lt_irrefl e)
  · exact absurd (Nat.lt_trans hde (hmono he hd hmn)) (Nat.lt_irrefl d)

/-- The document a cursor is at is the first past its frontier. -/
theorem Cursor.Reads.head (h : c.Reads b) (hs : c.Sound) (hd : c.head = some d) :
    d ∈ c.list.docs ∧ b ≤ d ∧ ∀ e ∈ c.list.docs, b ≤ e → d ≤ e := by
  refine ⟨List.mem_of_getElem? hd, ?_, fun e he hbe => ?_⟩
  · exact Nat.le_of_not_lt fun hdb => Nat.lt_irrefl _ ((h _ d hd).mpr hdb)
  · obtain ⟨m, hm⟩ := List.getElem?_of_mem he
    have hplace : ¬ m < c.at_ := fun hlt => Nat.not_lt.mpr hbe ((h m e hm).mp hlt)
    exact Nat.le_of_not_lt fun hed => hplace ((place_lt_iff hs.ascending hm hd).mpr hed)

/-- A cursor at its list's end has every document behind its frontier. -/
theorem Cursor.Reads.head_none (h : c.Reads b) (hd : c.head = none) : ∀ e ∈ c.list.docs, e < b := by
  intro e he
  obtain ⟨m, hm⟩ := List.getElem?_of_mem he
  have hlen : c.list.docs.length ≤ c.at_ := List.getElem?_eq_none_iff.mp hd
  have hin : m < c.list.docs.length := (List.getElem?_eq_some_iff.mp hm).1
  exact (h m e hm).mp (Nat.lt_of_lt_of_le hin hlen)

/-- A cursor at the frontier of a document but not at the document: its list does not hold it. -/
theorem Cursor.Reads.notMem (h : c.Reads d) (hs : c.Sound) (hd : c.head ≠ some d) :
    d ∉ c.list.docs := by
  intro hmem
  cases hfirst : c.head with
  | none => exact Nat.lt_irrefl d (h.head_none hfirst d hmem)
  | some e =>
    obtain ⟨-, hde, hleast⟩ := h.head hs hfirst
    rw [Nat.le_antisymm (hleast d hmem (Nat.le_refl d)) hde] at hfirst
    exact hd hfirst

/-- A cursor moved past the document it is at. -/
theorem Cursor.Sound.next (hs : c.Sound) (hd : c.head = some d) :
    ({ c with at_ := c.at_ + 1 } : Cursor).Reads (d + 1) := by
  intro n e he
  have hplace := place_lt_iff hs.ascending hd he
  have hlt : c.at_ < n ↔ d < e := hplace
  show n < c.at_ + 1 ↔ e < d + 1
  rw [Nat.lt_succ_iff, Nat.lt_succ_iff, ← Nat.not_lt, ← Nat.not_lt]
  exact not_congr hlt

/-- Where a property leads a list, it holds at the places before its end. -/
theorem lt_takeWhile_iff {α : Type} {p : α → Bool} {l : List α} (h : Leads p l) {x : α}
    (hx : l[n]? = some x) : n < (l.takeWhile p).length ↔ p x = true := by
  have hcut := List.takeWhile_append_dropWhile (p := p) (l := l)
  rw [← hcut] at hx
  refine ⟨fun hn => ?_, fun hp => ?_⟩
  · rw [List.getElem?_append_left hn] at hx
    exact List.mem_takeWhile_imp (List.mem_of_getElem? hx)
  · by_contra hn
    rw [List.getElem?_append_right (Nat.le_of_not_lt hn)] at hx
    have hmem := List.mem_of_getElem? hx
    rw [h.dropWhile_eq] at hmem
    have hnot := (List.mem_filter.mp hmem).2
    rw [hp] at hnot
    cases hnot

/-- Of the places from a cursor on, it is moved past those of the documents below. -/
theorem Cursor.Sound.lt_seek (hs : c.Sound) (hn : c.at_ ≤ n) (hd : c.list.docs[n]? = some d) :
    n < (c.seek b).at_ ↔ d < b := by
  have hdrop : (c.list.docs.drop c.at_)[n - c.at_]? = some d := by
    rw [List.getElem?_drop, Nat.add_sub_cancel' hn]
    exact hd
  have hleads : Leads (fun e => decide (e < b)) (c.list.docs.drop c.at_) := by
    refine (hs.ascending.sublist (List.drop_sublist _ _)).imp fun {x y} hxy hy => ?_
    exact decide_eq_true (Nat.lt_trans hxy (of_decide_eq_true hy))
  have hplace := lt_takeWhile_iff hleads hdrop
  rw [decide_eq_true_iff] at hplace
  rw [← hplace]
  unfold Cursor.seek Chunked.partitionPoint
  dsimp only
  omega

/-- A cursor that lags, moved to a frontier. -/
theorem Cursor.Lags.seek (h : c.Lags b) (hs : c.Sound) : (c.seek b).Reads b := by
  intro n d hd
  by_cases hn : n < c.at_
  · exact ⟨fun _ => h n d hd hn, fun _ => Nat.lt_add_right _ hn⟩
  · exact hs.lt_seek (Nat.le_of_not_lt hn) hd

/-! ## 2. Scores -/

theorem Cursor.adds_of_notMem (h : d ∉ c.list.docs) : c.adds d = 0 := by
  have hnone : c.postings.lookup d = none := by
    refine List.lookup_eq_none_iff.mpr fun p hp => bne_iff_ne.mpr ?_
    rintro rfl
    exact h (List.of_mem_zip hp).1
  rw [adds, hnone, Option.getD_none, mul_zero]

theorem lookup_zip {docs : List DocId} {weights : List ℚ} (h : docs.Pairwise (· < ·))
    (heven : weights.length = docs.length) (hd : docs[n]? = some d) :
    (docs.zip weights).lookup d = weights[n]? := by
  induction docs generalizing weights n with
  | nil => cases hd
  | cons a docs ih =>
    cases weights with
    | nil => cases heven
    | cons w weights =>
      obtain ⟨ha, hdocs⟩ := List.pairwise_cons.mp h
      rw [List.zip_cons_cons, OrdMap.lookup_cons_ite]
      cases n with
      | zero =>
        rw [if_pos (Option.some.inj hd).symm]
        rfl
      | succ n =>
        have had : a < d := ha d (List.mem_of_getElem? hd)
        rw [if_neg (Nat.ne_of_lt had).symm, ih hdocs (Nat.succ.inj heven) hd]
        rfl

/-- What is read at a cursor's document is what its list adds to it. -/
theorem Cursor.Sound.score_eq (hs : c.Sound) (hd : c.head = some d) : c.score = c.adds d := by
  rw [score, adds, postings, lookup_zip hs.ascending hs.even hd, List.getD_eq_getElem?_getD]

/-- What the lists add to a document's score together. -/
def total (cs : List Cursor) (d : DocId) : ℚ := (cs.map fun c => c.adds d).sum

theorem total_cons (c : Cursor) (cs : List Cursor) (d : DocId) :
    total (c :: cs) d = c.adds d + total cs d := rfl

theorem total_append (cs cs' : List Cursor) (d : DocId) :
    total (cs ++ cs') d = total cs d + total cs' d := by
  rw [total, List.map_append, List.sum_append]
  rfl

theorem total_start (cs : List Cursor) (d : DocId) : total (cs.map Cursor.start) d = total cs d := by
  rw [total, List.map_map]
  rfl

/-- What the lists can add at most. -/
def reach (cs : List Cursor) : ℚ := (cs.map Cursor.ceiling).sum

theorem total_le_reach (h : ∀ c ∈ cs, c.Sound) : total cs d ≤ reach cs :=
  List.sum_le_sum fun c hc => (h c hc).bounded d

theorem total_of_notMem (h : ∀ c ∈ cs, d ∉ c.list.docs) : total cs d = 0 := by
  refine List.sum_eq_zero fun x hx => ?_
  obtain ⟨c, hc, rfl⟩ := List.mem_map.mp hx
  exact Cursor.adds_of_notMem (h c hc)

theorem reachFrom_getD (sum : ℚ) (cs : List Cursor) {j : Nat} (hj : j ≤ cs.length) :
    (reachFrom sum cs).getD j 0 = sum + reach (cs.take j) := by
  induction cs generalizing sum j with
  | nil =>
    obtain rfl : j = 0 := Nat.le_zero.mp hj
    exact (add_zero sum).symm
  | cons c cs ih =>
    cases j with
    | zero => exact (add_zero sum).symm
    | succ j =>
      rw [reachFrom, List.getD_cons_succ, ih _ (Nat.le_of_succ_le_succ hj), List.take_succ_cons,
        add_assoc]
      rfl

theorem length_reachFrom (sum : ℚ) (cs : List Cursor) :
    (reachFrom sum cs).length = cs.length + 1 := by
  induction cs generalizing sum with
  | nil => rfl
  | cons c cs ih => rw [reachFrom, List.length_cons, ih, List.length_cons]

/-! ## 3. What is kept -/

section Kept

variable {R : Type}

@[simp] theorem byScore_doc (r : R) (d : DocId) : (byScore r d).doc = d := rfl

@[simp] theorem byScore_score (r : R) (d : DocId) : (byScore r d).score = r := rfl

variable [LinearOrder R]

theorem byScore_lt_of_lt {r r' : R} (h : r' < r) : byScore r d < byScore r' doc :=
  Prod.Lex.toLex_lt_toLex.mpr (.inl h)

/-- The keys of the documents a filter accepts. -/
def keys (f : Rounding R) (accept : DocId → Bool) (cs : List Cursor) (D : Finset DocId) :
    Finset (ByScore R) :=
  (D.filter fun d => accept d = true).image fun d => byScore (f.round (total cs d)) d

variable {f : Rounding R} {accept : DocId → Bool} {D E : Finset DocId} {k : Nat}

theorem keys_union : keys f accept cs (D ∪ E) = keys f accept cs D ∪ keys f accept cs E := by
  rw [keys, Finset.filter_union, Finset.image_union]
  rfl

theorem keys_insert (h : accept d = true) : keys f accept cs (insert d D) =
    insert (byScore (f.round (total cs d)) d) (keys f accept cs D) := by
  rw [keys, Finset.filter_insert, if_pos h, Finset.image_insert]
  rfl

theorem keys_insert_of_not (h : accept d = false) :
    keys f accept cs (insert d D) = keys f accept cs D := by
  rw [keys, Finset.filter_insert, if_neg (by rw [h]; exact Bool.false_ne_true)]
  rfl

theorem notMem_keys (h : d ∉ D) {r : R} : byScore r d ∉ keys f accept cs D := by
  intro hmem
  obtain ⟨e, he, heq⟩ := Finset.mem_image.mp hmem
  have hed : e = d := congrArg ByScore.doc heq
  exact h (hed ▸ (Finset.mem_filter.mp he).1)

variable [OrderBot R]

/-- A score below the worst kept comes after all that is kept. -/
theorem past_of_lt_worst {heap : List (ByScore R)} (hsorted : heap.Pairwise (· ≤ ·)) {r : R}
    (h : r < worst heap k) : Best.Past k heap (byScore r d) := by
  unfold worst at h
  split at h
  · next hlen =>
    refine ⟨hlen, fun y hy => ?_⟩
    cases hlast : heap.getLast? with
    | none =>
      rw [List.getLast?_eq_none_iff.mp hlast] at hy
      cases hy
    | some s =>
      rw [hlast] at h
      obtain ⟨init, rfl⟩ := List.getLast?_eq_some_iff.mp hlast
      have hys : y ≤ s := by
        rcases List.mem_append.mp hy with hy | hy
        · exact (List.pairwise_append.mp hsorted).2.2 y hy s List.mem_cons_self
        · rw [List.mem_singleton.mp hy]
      have hsd : byScore s.score s.doc < byScore r d := byScore_lt_of_lt h
      exact lt_of_le_of_lt hys hsd
  · exact absurd h not_lt_bot

/-- A score that falls short of the worst kept does once another document is kept. -/
theorem lt_worst_insert {S : Finset (ByScore R)} {r : R} (h : r < worst (Best.best k S) k)
    (x : ByScore R) : r < worst (Best.best k (insert x S)) k := by
  have hpast : Best.Past k (Best.best k S) (byScore r 0) := past_of_lt_worst Best.sorted_best h
  have hk : 0 < k := by
    refine Nat.pos_of_ne_zero fun hzero => ?_
    subst hzero
    have hnil : Best.best 0 S = [] := List.length_eq_zero_iff.mp hpast.1
    rw [hnil] at h
    exact not_lt_bot h
  obtain ⟨hlen, hall⟩ := hpast.stays x
  unfold worst
  rw [if_pos hlen]
  cases hlast : (Best.best k (insert x S)).getLast? with
  | none =>
    rw [List.getLast?_eq_none_iff.mp hlast, List.length_nil] at hlen
    exact absurd hlen (Nat.ne_of_lt hk)
  | some s =>
    rcases Prod.Lex.lt_iff.mp (hall s (List.mem_of_getLast? hlast)) with hlt | ⟨-, hlt⟩
    · exact OrderDual.toDual_lt_toDual.mp hlt
    · exact absurd hlt (Nat.not_lt_zero _)

/-- **Documents that fall short of the worst kept change nothing.** -/
theorem best_union_short
    (h : ∀ d ∈ E, f.round (total cs d) < worst (Best.best k (keys f accept cs D)) k) :
    Best.best k (keys f accept cs (D ∪ E)) = Best.best k (keys f accept cs D) := by
  rw [keys_union]
  refine Best.best_union_of_past fun x hx => ?_
  obtain ⟨d, hd, rfl⟩ := Finset.mem_image.mp hx
  exact past_of_lt_worst Best.sorted_best (h d (Finset.mem_filter.mp hd).1)

/-- A document that is accepted, kept. -/
theorem keep_keys (hd : d ∉ D) (ha : accept d = true) :
    keep (Best.best k (keys f accept cs D)) k (f.round (total cs d)) d =
      (Best.best k (keys f accept cs (insert d D)),
        worst (Best.best k (keys f accept cs (insert d D))) k) := by
  unfold keep
  dsimp only
  rw [Best.keep_best (notMem_keys hd), keys_insert ha]

end Kept

/-! ## 4. The parts of a turn -/

theorem lower_le (m : DocId) (c : Cursor) : lower m c ≤ m := by
  unfold lower
  split
  · split
    · next hlt => exact Nat.le_of_lt hlt
    · exact Nat.le_refl m
  · exact Nat.le_refl m

theorem lower_le_head {m : DocId} (h : c.head = some d) : lower m c ≤ d := by
  rw [lower, h]
  dsimp only
  split
  · exact Nat.le_refl d
  · next hlt => exact Nat.le_of_not_lt hlt

theorem lower_cases (m : DocId) (c : Cursor) : lower m c = m ∨ c.head = some (lower m c) := by
  unfold lower
  cases c.head with
  | none => exact .inl rfl
  | some d =>
    dsimp only
    split
    · exact .inr rfl
    · exact .inl rfl

theorem foldl_lower (cs : List Cursor) (m : DocId) : cs.foldl lower m ≤ m ∧
    (∀ c ∈ cs, ∀ d, c.head = some d → cs.foldl lower m ≤ d) ∧
    (cs.foldl lower m = m ∨ ∃ c ∈ cs, c.head = some (cs.foldl lower m)) := by
  induction cs generalizing m with
  | nil => exact ⟨Nat.le_refl m, fun _ hc => absurd hc List.not_mem_nil, .inl rfl⟩
  | cons c cs ih =>
    obtain ⟨hle, hheads, hcases⟩ := ih (lower m c)
    rw [List.foldl_cons]
    refine ⟨Nat.le_trans hle (lower_le m c), fun c' hc' d hd => ?_, ?_⟩
    · rcases List.mem_cons.mp hc' with rfl | hc'
      · exact Nat.le_trans hle (lower_le_head hd)
      · exact hheads c' hc' d hd
    · rcases hcases with heq | ⟨c', hc', hd⟩
      · rw [heq]
        exact (lower_cases m c).imp id fun h => ⟨c, List.mem_cons_self, h⟩
      · exact .inr ⟨c', List.mem_cons_of_mem _ hc', hd⟩

/-- `lowest` is not above a head, and is one unless it is the last id. -/
theorem lowest_le (hc : c ∈ cs) (hd : c.head = some d) : lowest cs ≤ d :=
  (foldl_lower cs docMax).2.1 c hc d hd

theorem lowest_cases (cs : List Cursor) :
    lowest cs = docMax ∨ ∃ c ∈ cs, c.head = some (lowest cs) :=
  (foldl_lower cs docMax).2.2

/-- The lists from the pivot on hold no document between the frontier and the lowest. -/
theorem lowest_le_of_mem (hs : c.Sound) (hr : c.Reads b) (hc : c ∈ cs) (hd : d ∈ c.list.docs)
    (hbd : b ≤ d) : lowest cs ≤ d := by
  cases hhead : c.head with
  | none => exact absurd (hr.head_none hhead d hd) (Nat.not_lt.mpr hbd)
  | some e => exact Nat.le_trans (lowest_le hc hhead) ((hr.head hs hhead).2.2 d hd hbd)

/-- Cursors at a frontier whose lists' next document is `doc` or later: `advance` moves them past
`doc` and gives what they add to it. -/
theorem advance_spec (hs : ∀ c ∈ cs, c.Sound) (hr : ∀ c ∈ cs, c.Reads b) (hb : b ≤ doc)
    (hnext : ∀ c ∈ cs, ∀ d ∈ c.list.docs, b ≤ d → doc ≤ d) :
    (advance doc cs).1.map Cursor.start = cs.map Cursor.start ∧
      (∀ c ∈ (advance doc cs).1, c.Reads (doc + 1)) ∧ (advance doc cs).2 = total cs doc := by
  unfold advance
  dsimp only
  induction cs with
  | nil => exact ⟨rfl, fun _ hc => absurd hc List.not_mem_nil, rfl⟩
  | cons c cs ih =>
    have hsound := hs c List.mem_cons_self
    have hreads := hr c List.mem_cons_self
    have hmore := hnext c List.mem_cons_self
    obtain ⟨hsame, hall, hsum⟩ := ih (fun c hc => hs c (List.mem_cons_of_mem _ hc))
      (fun c hc => hr c (List.mem_cons_of_mem _ hc))
      fun c hc => hnext c (List.mem_cons_of_mem _ hc)
    by_cases hhead : c.head = some doc
    · refine ⟨?_, fun c' hc' => ?_, ?_⟩
      · rw [List.map_cons, List.map_cons, List.map_cons, hsame, if_pos hhead]
        rfl
      · rw [List.map_cons, if_pos hhead] at hc'
        rcases List.mem_cons.mp hc' with rfl | hc'
        · exact hsound.next hhead
        · exact hall c' hc'
      · rw [List.filter_cons_of_pos (by exact decide_eq_true hhead), List.map_cons,
          List.sum_cons, hsum, hsound.score_eq hhead, total_cons]
    · have hnot : doc ∉ c.list.docs := (hreads.mono hb hmore).notMem hsound hhead
      refine ⟨?_, fun c' hc' => ?_, ?_⟩
      · rw [List.map_cons, List.map_cons, List.map_cons, hsame, if_neg hhead]
      · rw [List.map_cons, if_neg hhead] at hc'
        rcases List.mem_cons.mp hc' with rfl | hc'
        · refine hreads.mono (Nat.le_succ_of_le hb) fun d hd hbd => ?_
          exact Nat.lt_of_le_of_ne (hmore d hd hbd) fun h => hnot (h ▸ hd)
        · exact hall c' hc'
      · rw [List.filter_cons_of_neg (by rw [decide_eq_true_iff]; exact hhead), hsum, total_cons,
          Cursor.adds_of_notMem hnot, zero_add]

/-- **What `settle` finds out of a document.**  The lists from the pivot on have been read for it;
those before are read until its score is whole, or what is left can add too little. -/
theorem settle_spec {R : Type} [LinearOrder R] (f : Rounding R) (worstKept : R) {reaches : List ℚ}
    (low up : List Cursor) (hs : ∀ c ∈ low, c.Sound) (hlags : ∀ c ∈ low, c.Lags doc)
    (hreach : ∀ j ≤ low.length, reaches.getD j 0 = reach (low.take j)) :
    ∃ low' score, settle f reaches worstKept doc low.length (low ++ up) (total up doc) =
        (low' ++ up, score) ∧ low'.map Cursor.start = low.map Cursor.start ∧
      (∀ c ∈ low', c.Lags doc) ∧ (score = some (total (low ++ up) doc) ∨
        score = none ∧ f.round (total (low ++ up) doc) < worstKept) := by
  induction low using List.reverseRecOn generalizing up with
  | nil => exact ⟨[], _, rfl, rfl, fun _ hc => absurd hc List.not_mem_nil, .inl rfl⟩
  | append_singleton low c ih =>
    have hsound : c.Sound := hs c (List.mem_append_right _ List.mem_cons_self)
    have hseek : (c.seek doc).Reads doc :=
      (hlags c (List.mem_append_right _ List.mem_cons_self)).seek hsound
    rw [List.length_append, List.length_singleton, settle]
    split
    · next hshort =>
      refine ⟨low ++ [c], none, rfl, rfl, hlags, .inr ⟨rfl, lt_of_le_of_lt (f.mono ?_) hshort⟩⟩
      have hmost : reaches.getD (low.length + 1) 0 = reach (low ++ [c]) := by
        rw [hreach _ (by rw [List.length_append, List.length_singleton]), List.take_of_length_le]
        rw [List.length_append, List.length_singleton]
      rw [hmost, total_append, add_comm (total up doc)]
      exact add_le_add_left (total_le_reach hs) _
    · have hget : (low ++ [c] ++ up)[low.length]? = some c := by
        rw [List.append_assoc, List.getElem?_append_right (Nat.le_refl _), Nat.sub_self]
        rfl
      have hset : (low ++ [c] ++ up).set low.length (c.seek doc) = low ++ (c.seek doc :: up) := by
        rw [List.append_assoc]
        exact Chunked.set_middle
      have hscore : (if (c.seek doc).head = some doc then total up doc + (c.seek doc).score
          else total up doc) = total (c.seek doc :: up) doc := by
        rw [total_cons]
        split
        · next hhead => rw [hsound.seek.score_eq hhead, add_comm]
        · next hhead => rw [Cursor.adds_of_notMem (hseek.notMem hsound.seek hhead), zero_add]
      rw [hget]
      dsimp only
      rw [hset, hscore]
      obtain ⟨low', score, hsettle, hsame, hlow, hout⟩ := ih (c.seek doc :: up)
        (fun c hc => hs c (List.mem_append_left _ hc))
        (fun c hc => hlags c (List.mem_append_left _ hc)) fun j hj => by
          rw [hreach j (by rw [List.length_append]; exact Nat.le_add_right_of_le hj),
            List.take_append_of_le_length hj]
      refine ⟨low' ++ [c.seek doc], score, ?_, ?_, fun c' hc' => ?_, ?_⟩
      · rw [hsettle, List.append_assoc]
        rfl
      · rw [List.map_append, List.map_append, hsame]
        rfl
      · rcases List.mem_append.mp hc' with hc' | hc'
        · exact hlow c' hc'
        · rw [List.mem_singleton.mp hc']
          exact hseek.lags
      · have htotal : total (low ++ (c.seek doc :: up)) doc = total (low ++ [c] ++ up) doc := by
          have hone : total [c] doc = c.adds doc := add_zero _
          rw [total_append, total_append, total_append, total_cons, hone, add_assoc]
          rfl
        rw [htotal] at hout
        exact hout

/-! ## 5. The walk -/

/-- The documents on the lists. -/
def docsOf (cs : List Cursor) : Finset DocId := (cs.flatMap fun c => c.list.docs).toFinset

/-- Those below a frontier. -/
def docsBelow (cs : List Cursor) (b : DocId) : Finset DocId := (docsOf cs).filter (· < b)

theorem mem_docsOf : d ∈ docsOf cs ↔ ∃ c ∈ cs, d ∈ c.list.docs := by
  rw [docsOf, List.mem_toFinset, List.mem_flatMap]

theorem mem_docsBelow : d ∈ docsBelow cs b ↔ d ∈ docsOf cs ∧ d < b := Finset.mem_filter

theorem docsBelow_zero : docsBelow cs 0 = ∅ :=
  Finset.filter_eq_empty_iff.mpr fun d _ => Nat.not_lt_zero d

/-- A frontier moved, and the documents it moved over. -/
theorem docsBelow_union (hbd : b ≤ d) :
    docsBelow cs d = docsBelow cs b ∪ (docsBelow cs d).filter (b ≤ ·) := by
  ext e
  rw [Finset.mem_union, Finset.mem_filter, mem_docsBelow, mem_docsBelow]
  constructor
  · rintro ⟨he, hed⟩
    rcases Nat.lt_or_ge e b with heb | hbe
    · exact .inl ⟨he, heb⟩
    · exact .inr ⟨⟨he, hed⟩, hbe⟩
  · rintro (⟨he, heb⟩ | ⟨h, -⟩)
    · exact ⟨he, Nat.lt_of_lt_of_le heb hbd⟩
    · exact h

theorem docsBelow_succ (hd : d ∈ docsOf cs) : docsBelow cs (d + 1) = insert d (docsBelow cs d) := by
  ext e
  rw [Finset.mem_insert, mem_docsBelow, mem_docsBelow, Nat.lt_succ_iff_lt_or_eq]
  constructor
  · rintro ⟨he, hlt | rfl⟩
    · exact .inr ⟨he, hlt⟩
    · exact .inl rfl
  · rintro (rfl | ⟨he, hlt⟩)
    · exact ⟨hd, .inr rfl⟩
    · exact ⟨he, .inl hlt⟩

section Walk

variable {R : Type} [LinearOrder R] [OrderBot R] {f : Rounding R} {accept : DocId → Bool}
  {k : Nat} {found : List Cursor} {w : Walk R}

/-- **What holds between two documents of the walk**, every document below `b` read or skipped. -/
structure Frontier (f : Rounding R) (k : Nat) (accept : DocId → Bool) (found : List Cursor)
    (b : DocId) (w : Walk R) : Prop where
  lists : w.cursors.map Cursor.start = found
  sound : ∀ c ∈ w.cursors, c.Sound
  within : w.pivot ≤ w.cursors.length
  upper : ∀ c ∈ w.cursors.drop w.pivot, c.Reads b
  lower : ∀ c ∈ w.cursors.take w.pivot, c.Lags b
  short : w.pivot = 0 ∨ f.round (reach (w.cursors.take w.pivot)) < w.worstKept
  heap : w.heap = Best.best k (keys f accept found (docsBelow found b))
  worst : w.worstKept = worst w.heap k

theorem reach_start (cs : List Cursor) : reach (cs.map Cursor.start) = reach cs := by
  rw [reach, List.map_map]
  rfl

/-- What the places before `j` can reach, read off the walk's table. -/
theorem Frontier.reach_eq (h : Frontier f k accept found b w) {j : Nat}
    (hj : j ≤ w.cursors.length) : (reachFrom 0 found).getD j 0 = reach (w.cursors.take j) := by
  have hlen : j ≤ found.length := by rw [← h.lists, List.length_map]; exact hj
  rw [reachFrom_getD 0 found hlen, zero_add, ← h.lists, ← List.map_take, reach_start]

theorem Frontier.mem_docsOf (h : Frontier f k accept found b w) :
    d ∈ docsOf found ↔ ∃ c ∈ w.cursors, d ∈ c.list.docs := by
  rw [Near.mem_docsOf, ← h.lists]
  constructor
  · rintro ⟨c, hc, hd⟩
    obtain ⟨c', hc', rfl⟩ := List.mem_map.mp hc
    exact ⟨c', hc', hd⟩
  · rintro ⟨c, hc, hd⟩
    exact ⟨c.start, List.mem_map_of_mem hc, hd⟩

theorem Frontier.total_eq (h : Frontier f k accept found b w) :
    total found d = total (w.cursors.take w.pivot) d + total (w.cursors.drop w.pivot) d := by
  rw [← total_append, List.take_append_drop, ← h.lists, total_start]

/-- A higher pivot is still one. -/
theorem Frontier.raise (h : Frontier f k accept found b w) : Frontier f k accept found b
    { w with pivot := raise f (reachFrom 0 found) w.worstKept w.pivot } := by
  have hlen : found.length = w.cursors.length := by rw [← h.lists, List.length_map]
  have hcut := List.take_append_drop w.pivot w.cursors
  have hwithin := h.within
  unfold Near.raise
  generalize ht : ((reachFrom 0 found).drop (w.pivot + 1)).takeWhile
    (fun r => decide (f.round r < w.worstKept)) = past
  have hpast : past.length ≤ w.cursors.length - w.pivot := by
    have hsub : past.length ≤ ((reachFrom 0 found).drop (w.pivot + 1)).length := by
      rw [← ht]
      exact (List.takeWhile_sublist _).length_le
    rw [List.length_drop, length_reachFrom, hlen] at hsub
    omega
  refine ⟨h.lists, h.sound, ?_, fun c hc => ?_, fun c hc => ?_, ?_, h.heap, h.worst⟩
  · dsimp only
    omega
  · refine h.upper c ?_
    rw [← List.drop_drop] at hc
    exact List.mem_of_mem_drop hc
  · have hc : c ∈ w.cursors.take (w.pivot + past.length) := hc
    rw [List.take_add, List.mem_append] at hc
    rcases hc with hc | hc
    · exact h.lower c hc
    · exact (h.upper c (List.mem_of_mem_take hc)).lags
  · cases hlast : past.getLast? with
    | none =>
      rw [List.getLast?_eq_none_iff.mp hlast]
      exact h.short
    | some r =>
      refine .inr ?_
      obtain ⟨init, hinit⟩ := List.getLast?_eq_some_iff.mp hlast
      have hr : f.round r < w.worstKept := by
        have hmem : r ∈ ((reachFrom 0 found).drop (w.pivot + 1)).takeWhile
            (fun r => decide (f.round r < w.worstKept)) := by
          rw [ht, hinit]
          exact List.mem_append_right _ List.mem_cons_self
        exact of_decide_eq_true
          (List.mem_takeWhile_imp (p := fun r => decide (f.round r < w.worstKept)) hmem)
      have hplace : (reachFrom 0 found)[w.pivot + past.length]? = some r := by
        have hprefix : (((reachFrom 0 found).drop (w.pivot + 1)))[init.length]? = some r := by
          rw [← List.takeWhile_append_dropWhile
            (p := fun r => decide (f.round r < w.worstKept))
            (l := (reachFrom 0 found).drop (w.pivot + 1)), ht, hinit, List.append_assoc,
            List.getElem?_append_right (Nat.le_refl _), Nat.sub_self]
          rfl
        rw [List.getElem?_drop] at hprefix
        rw [hinit, List.length_append, List.length_singleton, ← hprefix]
        congr 1
        omega
      have hreach := h.reach_eq (j := w.pivot + past.length) (by omega)
      rw [List.getD_eq_getElem?_getD, hplace, Option.getD_some] at hreach
      rw [← hreach]
      exact hr

/-- A document on no list from the pivot on falls short. -/
theorem Frontier.skips (h : Frontier f k accept found b w) (hd : d ∈ docsOf found)
    (hnone : ∀ c ∈ w.cursors.drop w.pivot, d ∉ c.list.docs) :
    f.round (total found d) < w.worstKept := by
  have hlow : total found d ≤ reach (w.cursors.take w.pivot) := by
    rw [h.total_eq, total_of_notMem hnone, add_zero]
    exact total_le_reach fun c hc => h.sound c (List.mem_of_mem_take hc)
  rcases h.short with hzero | hshort
  · obtain ⟨c, hc, hmem⟩ := h.mem_docsOf.mp hd
    rw [hzero, List.drop_zero] at hnone
    exact absurd hmem (hnone c hc)
  · exact lt_of_le_of_lt (f.mono hlow) hshort

/-- The heap is that of a later frontier that no list from the pivot on has a document before. -/
theorem Frontier.heap_eq (h : Frontier f k accept found b w) (hbd : b ≤ d)
    (hnone : ∀ c ∈ w.cursors.drop w.pivot, ∀ e ∈ c.list.docs, b ≤ e → d ≤ e) :
    w.heap = Best.best k (keys f accept found (docsBelow found d)) := by
  rw [docsBelow_union hbd, best_union_short, h.heap]
  intro e he
  obtain ⟨hbelow, hbe⟩ := Finset.mem_filter.mp he
  obtain ⟨hmem, hed⟩ := mem_docsBelow.mp hbelow
  rw [← h.heap, ← h.worst]
  exact h.skips hmem fun c hc hin => Nat.lt_irrefl e (Nat.lt_of_lt_of_le hed (hnone c hc e hin hbe))

/-- The cursors after a document are at the next frontier, whatever became of the document. -/
theorem Frontier.next {low up : List Cursor} {heap : List (ByScore R)} {worstKept : R}
    (h : Frontier f k accept found b w)
    (hlow : low.map Cursor.start = (w.cursors.take w.pivot).map Cursor.start)
    (hup : up.map Cursor.start = (w.cursors.drop w.pivot).map Cursor.start)
    (hlags : ∀ c ∈ low, c.Lags doc) (hreads : ∀ c ∈ up, c.Reads (doc + 1))
    (hheap : heap = Best.best k (keys f accept found (docsBelow found (doc + 1))))
    (hworst : worstKept = Near.worst heap k)
    (hshort : ∀ r, r < w.worstKept → r < worstKept) :
    Frontier f k accept found (doc + 1) ⟨low ++ up, heap, worstKept, w.pivot⟩ := by
  have hlen : low.length = w.pivot := by
    have hsame := congrArg List.length hlow
    rw [List.length_map, List.length_map, List.length_take, Nat.min_eq_left h.within] at hsame
    exact hsame
  have hlists : (low ++ up).map Cursor.start = found := by
    rw [List.map_append, hlow, hup, ← List.map_append, List.take_append_drop, h.lists]
  have htake : (low ++ up).take w.pivot = low := by
    rw [← hlen, List.take_left']
    rfl
  have hdrop : (low ++ up).drop w.pivot = up := by
    rw [← hlen, List.drop_left']
    rfl
  refine ⟨hlists, fun c hc => ?_, ?_, fun c hc => ?_, fun c hc => ?_, ?_, hheap, hworst⟩
  · have hstart : c.start ∈ w.cursors.map Cursor.start := by
      rw [h.lists, ← hlists]
      exact List.mem_map_of_mem hc
    obtain ⟨c', hc', heq⟩ := List.mem_map.mp hstart
    exact Cursor.Sound.of_start (heq ▸ (h.sound c' hc').start)
  · show w.pivot ≤ (low ++ up).length
    rw [List.length_append, hlen]
    exact Nat.le_add_right _ _
  · exact hreads c (hdrop ▸ hc)
  · exact (hlags c (htake ▸ hc)).mono (Nat.le_succ doc)
  · refine h.short.imp id fun hreach => ?_
    show f.round (reach ((low ++ up).take w.pivot)) < worstKept
    rw [htake, ← reach_start, hlow, reach_start]
    exact hshort _ hreach

/-- **What one turn does**: it moves the frontier past a document, or ends with the first `k`. -/
theorem walkTurn_spec (h : Frontier f k accept found b w) (hb : b ≤ docMax) :
    (walkTurn f (reachFrom 0 found) k accept w =
        .done (best (Best.best k (keys f accept found (docsOf found))))) ∨
      ∃ w' doc, walkTurn f (reachFrom 0 found) k accept w = .again w' ∧ b ≤ doc ∧ doc < docMax ∧
        Frontier f k accept found (doc + 1) w' := by
  have hraised := h.raise
  unfold walkTurn
  dsimp only
  generalize raise f (reachFrom 0 found) w.worstKept w.pivot = pivot at hraised ⊢
  -- where no list from the pivot on has a document left, nothing more is kept
  have hend (hnone : ∀ c ∈ w.cursors.drop pivot, ∀ e ∈ c.list.docs, b ≤ e → docMax ≤ e) :
      best w.heap = best (Best.best k (keys f accept found (docsOf found))) := by
    have hall : docsBelow found docMax = docsOf found := by
      refine Finset.filter_true_of_mem fun d hd => ?_
      obtain ⟨c, hc, hmem⟩ := h.mem_docsOf.mp hd
      exact (h.sound c hc).below d hmem
    rw [← hall, ← hraised.heap_eq hb hnone]
  have hsound : ∀ c ∈ w.cursors.drop pivot, c.Sound :=
    fun c hc => h.sound c (List.mem_of_mem_drop hc)
  have hnext : ∀ c ∈ w.cursors.drop pivot, ∀ d ∈ c.list.docs, b ≤ d →
      lowest (w.cursors.drop pivot) ≤ d :=
    fun c hc d hd hbd => lowest_le_of_mem (hsound c hc) (hraised.upper c hc) hc hd hbd
  by_cases hpivot : pivot = w.cursors.length
  · rw [if_pos hpivot, hend]
    · exact .inl rfl
    · intro c hc
      rw [hpivot, List.drop_length] at hc
      exact absurd hc List.not_mem_nil
  rw [if_neg hpivot]
  by_cases hmax : lowest (w.cursors.drop pivot) = docMax
  · rw [if_pos hmax, hend]
    · exact .inl rfl
    · rw [← hmax]
      exact hnext
  rw [if_neg hmax]
  refine .inr ?_
  obtain ⟨c, hc, hhead⟩ := (lowest_cases (w.cursors.drop pivot)).resolve_left hmax
  generalize lowest (w.cursors.drop pivot) = doc at hnext hhead ⊢
  obtain ⟨hmem, hbdoc, -⟩ := (hraised.upper c hc).head (hsound c hc) hhead
  have hdoc : doc < docMax := (hsound c hc).below doc hmem
  have hin : doc ∈ docsOf found := h.mem_docsOf.mpr ⟨c, List.mem_of_mem_drop hc, hmem⟩
  have hheap := hraised.heap_eq hbdoc hnext
  have hnew : doc ∉ docsBelow found doc := fun hd => Nat.lt_irrefl doc (mem_docsBelow.mp hd).2
  obtain ⟨hup, hreads, hscore⟩ := advance_spec hsound hraised.upper hbdoc hnext
  generalize advance doc (w.cursors.drop pivot) = advanced at hup hreads hscore ⊢
  obtain ⟨up, score⟩ := advanced
  dsimp only at hup hreads hscore ⊢
  have hscore : score = total up doc := by rw [hscore, ← total_start, ← hup, total_start]
  have hlags : ∀ c ∈ w.cursors.take pivot, c.Lags doc :=
    fun c hc => (hraised.lower c hc).mono hbdoc
  obtain ⟨low, settled, hsettle, hlow, hlags, hout⟩ := settle_spec f w.worstKept
    (w.cursors.take pivot) up
    (fun c hc => h.sound c (List.mem_of_mem_take hc)) hlags fun j hj => by
      rw [List.length_take, Nat.le_min] at hj
      rw [h.reach_eq hj.2, List.take_take, Nat.min_eq_left hj.1]
  have hlen : (w.cursors.take pivot).length = pivot := by
    rw [List.length_take, Nat.min_eq_left hraised.within]
  have htotal : total (w.cursors.take pivot ++ up) doc = total found doc := by
    rw [total_append, ← total_start up, hup, total_start, ← hraised.total_eq]
  rw [hlen, ← hscore] at hsettle
  rw [htotal] at hout
  rw [hsettle]
  have hbelow : docsBelow found (doc + 1) = insert doc (docsBelow found doc) := docsBelow_succ hin
  rcases hout with rfl | ⟨rfl, hshort⟩
  · dsimp only
    by_cases haccept : accept doc = true
    · have hkeep : keep (Best.best k (keys f accept found (docsBelow found doc))) k
          (f.round (total found doc)) doc =
          (Best.best k (keys f accept found (insert doc (docsBelow found doc))),
            worst (Best.best k (keys f accept found (insert doc (docsBelow found doc)))) k) :=
        keep_keys hnew haccept
      rw [← hheap] at hkeep
      rw [if_pos haccept, hkeep, ← hbelow]
      refine ⟨_, doc, rfl, hbdoc, hdoc, hraised.next hlow hup hlags hreads rfl rfl fun r hr => ?_⟩
      have hr : r < worst (Best.best k (keys f accept found (docsBelow found doc))) k := by
        rw [← hheap, ← h.worst]
        exact hr
      rw [hbelow, keys_insert haccept]
      exact lt_worst_insert hr _
    · rw [if_neg haccept]
      refine ⟨_, doc, rfl, hbdoc, hdoc,
        hraised.next hlow hup hlags hreads ?_ hraised.worst fun _ hr => hr⟩
      rw [hbelow, keys_insert_of_not (Bool.eq_false_iff.mpr haccept)]
      exact hheap
  · refine ⟨_, doc, rfl, hbdoc, hdoc,
      hraised.next hlow hup hlags hreads ?_ hraised.worst fun _ hr => hr⟩
    have hone : insert doc (docsBelow found doc) = docsBelow found doc ∪ {doc} := by
      rw [Finset.union_comm]
      rfl
    rw [hbelow, hone, best_union_short, ← hheap]
    intro d hd
    rw [Finset.mem_singleton.mp hd, ← hheap, ← h.worst]
    exact hshort

/-- The walk starts at the first id, with nothing kept. -/
theorem frontier_start (hzero : ∀ c ∈ found, c.at_ = 0) (hs : ∀ c ∈ found, c.Sound) :
    Frontier f k accept found 0 ⟨found, [], ⊥, 0⟩ where
  lists := map_start_of_zero hzero
  sound := hs
  within := Nat.zero_le _
  upper c hc := c.reads_start (hzero c (List.mem_of_mem_drop hc))
  lower c hc := by
    rw [List.take_zero] at hc
    exact absurd hc List.not_mem_nil
  short := .inl rfl
  heap := by
    rw [docsBelow_zero]
    exact (Best.best_empty k).symm
  worst := by
    unfold Near.worst
    split <;> rfl

/-- **The walk ends with the first `k`**, in whatever order the cursors stand. -/
theorem walkOver_spec (f : Rounding R) (k : Nat) (accept : DocId → Bool)
    (hzero : ∀ c ∈ found, c.at_ = 0) (hs : ∀ c ∈ found, c.Sound) :
    ∃ turns, walkOver f k accept found turns =
      some (best (Best.best k (keys f accept found (docsOf found)))) := by
  have hreturns : ∃ r, Returns (walkTurn f (reachFrom 0 found) k accept) ⟨found, [], ⊥, 0⟩ r ∧
      r = best (Best.best k (keys f accept found (docsOf found))) := by
    refine returns_of_keeps
      (I := fun m w => ∃ b, b ≤ docMax ∧ m = docMax - b ∧ Frontier f k accept found b w) ?_ ?_
      ⟨0, Nat.zero_le _, rfl, frontier_start hzero hs⟩
    · rintro m w w' ⟨b, hb, rfl, hw⟩ hturn
      rcases walkTurn_spec hw hb with hdone | ⟨w'', doc, hagain, hbd, hdoc, hnext⟩
      · cases hturn.symm.trans hdone
      · cases hturn.symm.trans hagain
        exact ⟨docMax - (doc + 1), Nat.sub_lt_sub_left (Nat.lt_of_le_of_lt hbd hdoc)
          (Nat.lt_succ_of_le hbd), doc + 1, hdoc, rfl, hnext⟩
    · rintro m w r ⟨b, hb, rfl, hw⟩ hturn
      rcases walkTurn_spec hw hb with hdone | ⟨w'', doc, hagain, -⟩
      · cases hturn.symm.trans hdone
        rfl
      · cases hturn.symm.trans hagain
  obtain ⟨r, hloop, rfl⟩ := hreturns
  exact hloop

end Walk

end Fenec.Near
