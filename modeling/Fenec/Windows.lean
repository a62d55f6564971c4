/-
# The sums leave nothing out

A window of ids is summed a list at a time into a slot an id, a bit marking each slot a list wrote
to; then the marked slots are weighed, the lowest first, and left clear for the next window.  A turn
moves every list past the window and keeps the first `k` of what is below it (`sumTurn_spec`), so
the sums end with the first `k` of all, the walk's answer (`summed_spec`).

The end of a window is an id plus the window's size, in 64 bits.  In the last window it wraps to 0:
no list moves, and the turns never end (`summed_never`).  So the sums return exactly where no list
holds a document in the last window of the ids.
-/
import Fenec.MaxScore

namespace Fenec.Near

open Lib

/-! ## 1. Bits -/

/-- A word less one differs from it up to its lowest bit. -/
theorem testBit_pred (bits : Nat) (h : bits ≠ 0) (j : Nat) (hj : bits.testBit j = true) :
    (bits - 1).testBit j = decide (j ≠ trailingZeros bits) := by
  induction bits using trailingZeros.induct generalizing j with
  | case1 bits heven ih =>
    rw [trailingZeros, if_pos heven]
    cases j with
    | zero =>
      rw [Nat.testBit_zero, heven.1] at hj
      cases hj
    | succ j =>
      have hhalf : (bits - 1) / 2 = bits / 2 - 1 := by omega
      rw [Nat.testBit_succ] at hj
      rw [Nat.testBit_succ, hhalf, ih (by omega) j hj]
      simp only [ne_eq, Nat.add_right_cancel_iff]
  | case2 bits hodd =>
    rw [trailingZeros, if_neg hodd]
    have hone : bits % 2 = 1 := by omega
    cases j with
    | zero =>
      have hzero : (bits - 1) % 2 = 0 := by omega
      rw [Nat.testBit_zero, hzero]
      rfl
    | succ j =>
      have hhalf : (bits - 1) / 2 = bits / 2 := by omega
      rw [Nat.testBit_succ] at hj
      rw [Nat.testBit_succ, hhalf, hj]
      exact (decide_eq_true (Nat.succ_ne_zero j)).symm

/-- `bits & (bits - 1)` is the word without its lowest bit. -/
theorem testBit_clear {bits : Nat} (h : bits ≠ 0) (j : Nat) :
    (bits &&& (bits - 1)).testBit j = true ↔ bits.testBit j = true ∧ j ≠ trailingZeros bits := by
  rw [Nat.testBit_and, Bool.and_eq_true]
  refine and_congr_right fun hj => ?_
  rw [testBit_pred bits h j hj, decide_eq_true_iff]

/-- A word's lowest bit is one of it. -/
theorem testBit_trailingZeros (bits : Nat) (h : bits ≠ 0) :
    bits.testBit (trailingZeros bits) = true := by
  induction bits using trailingZeros.induct with
  | case1 bits heven ih =>
    rw [trailingZeros, if_pos heven, Nat.testBit_succ]
    exact ih (by omega)
  | case2 bits hodd =>
    have hone : bits % 2 = 1 := by omega
    rw [trailingZeros, if_neg hodd, Nat.testBit_zero, hone]
    rfl

/-- The mask rounds down to a window's start. -/
theorem and_mask {m n : Nat} (hm : m ≤ 64) (hn : n < 2 ^ 64) :
    n &&& (2 ^ 64 - 1 - (2 ^ m - 1)) = n / 2 ^ m * 2 ^ m := by
  have hmask : 2 ^ 64 - 1 - (2 ^ m - 1) = (2 ^ (64 - m) - 1) * 2 ^ m := by
    have hpow : 2 ^ (64 - m) * 2 ^ m = 2 ^ 64 := by rw [← pow_add, Nat.sub_add_cancel hm]
    have hpos : 0 < 2 ^ m := Nat.two_pow_pos m
    rw [Nat.sub_one_mul, hpow]
    omega
  rw [hmask]
  refine Nat.eq_of_testBit_eq fun j => ?_
  rw [Nat.testBit_and, Nat.testBit_mul_two_pow, Nat.testBit_mul_two_pow,
    Nat.testBit_two_pow_sub_one]
  by_cases hj : m ≤ j
  · have hhigh : (n / 2 ^ m).testBit (j - m) = n.testBit j := by
      rw [Nat.testBit_div_two_pow, Nat.sub_add_cancel hj]
    rw [hhigh]
    by_cases hj64 : j < 64
    · have hless : j - m < 64 - m := by omega
      simp [hj, hless]
    · have hbig : n.testBit j = false :=
        Nat.testBit_lt_two_pow (Nat.lt_of_lt_of_le hn (Nat.pow_le_pow_right (by omega) (by omega)))
      simp [hbig]
  · simp [hj]

/-! ## 2. Slots -/

variable {c : Cursor} {cs : List Cursor} {b d lo hi window : Nat}

/-- **What the slots of a window hold**: for each id a sum, marked where a list wrote to it. -/
structure Slots (lo window : Nat) (sum : DocId → ℚ) (M : Finset DocId) (sums : List ℚ)
    (held : List Nat) : Prop where
  room : sums.length = window
  words : held.length * 64 = window
  sums : ∀ i < window, sums.getD i 0 = sum (lo + i)
  marks : ∀ i < window, (held.getD (i / 64) 0).testBit (i % 64) = true ↔ lo + i ∈ M
  bits : ∀ bits ∈ held, bits < 2 ^ 64

theorem getD_modify {α : Type} (l : List α) (i j : Nat) (g : α → α) (a : α) (hi : i < l.length) :
    (l.modify i g).getD j a = if i = j then g (l.getD j a) else l.getD j a := by
  rw [List.getD_eq_getElem?_getD, List.getD_eq_getElem?_getD, List.getElem?_modify]
  by_cases hij : i = j
  · subst hij
    simp [List.getElem?_eq_getElem hi]
  · simp [hij]

/-- One weight added into its slot. -/
theorem Slots.put {sum : DocId → ℚ} {M : Finset DocId} {sums : List ℚ} {held : List Nat}
    (h : Slots lo window sum M sums held) (hlo : lo ≤ d) (hd : d - lo < window) (x : ℚ) :
    Slots lo window (fun e => sum e + if e = d then x else 0) (insert d M)
      (sums.modify (d - lo) (· + x))
      (held.modify ((d - lo) / 64) (· ||| 1 <<< ((d - lo) % 64))) where
  room := by rw [List.length_modify, h.room]
  words := by rw [List.length_modify, h.words]
  sums i hi := by
    rw [getD_modify _ _ _ _ _ (by rw [h.room]; exact hd), h.sums i hi]
    by_cases hid : d - lo = i
    · have heq : lo + i = d := by omega
      rw [if_pos hid, if_pos heq]
    · have hne : ¬ lo + i = d := by omega
      rw [if_neg hid, if_neg hne, add_zero]
  marks i hi := by
    have hwords := h.words
    have hin : (d - lo) / 64 < held.length := by omega
    rw [getD_modify _ _ _ _ _ hin, Finset.mem_insert, ← h.marks i hi]
    by_cases hword : (d - lo) / 64 = i / 64
    · rw [if_pos hword, Nat.testBit_or, Bool.or_eq_true, Nat.one_shiftLeft,
        Nat.testBit_two_pow, decide_eq_true_iff, or_comm]
      refine or_congr_left ?_
      omega
    · have hne : ¬ lo + i = d := by omega
      rw [if_neg hword, or_iff_right hne]
  bits bits hbits := by
    obtain ⟨n, hn⟩ := List.getElem?_of_mem hbits
    rw [List.getElem?_modify] at hn
    obtain ⟨word, hword, heq⟩ := Option.map_eq_some_iff.mp hn
    have hless : word < 2 ^ 64 := h.bits word (List.mem_of_getElem? hword)
    split at heq
    · rw [← heq]
      refine Nat.or_lt_two_pow hless ?_
      rw [Nat.one_shiftLeft]
      exact Nat.pow_lt_pow_right (by omega) (Nat.mod_lt _ (by omega))
    · exact heq ▸ hless

/-! ## 3. A list gathered -/

/-- What a cursor's list has left to add to a document. -/
def Cursor.left (c : Cursor) (d : DocId) : ℚ :=
  c.weight * ((c.postings.drop c.at_).lookup d).getD 0

theorem Cursor.postings_keys (hs : c.Sound) :
    (c.postings.drop c.at_).map (·.1) = c.list.docs.drop c.at_ := by
  rw [List.map_drop, postings, List.map_fst_zip (Nat.le_of_eq hs.even.symm)]

/-- The cursor after a window is at its end. -/
theorem gather_cursor (sums : List ℚ) (held : List Nat) (rest : List (DocId × ℚ)) (c : Cursor) :
    (gather lo hi c sums held rest).1 =
      { c with at_ := c.at_ + ((rest.map (·.1)).takeWhile (· < hi)).length } := by
  induction rest generalizing c sums held with
  | nil => rfl
  | cons p rest ih =>
    obtain ⟨d, w⟩ := p
    rw [gather, List.map_cons]
    by_cases hd : d < hi
    · rw [if_pos hd, ih, List.takeWhile_cons_of_pos (by simpa using hd), List.length_cons]
      dsimp only
      rw [Nat.add_assoc, Nat.add_comm 1]
    · rw [if_neg hd, List.takeWhile_cons_of_neg (by simpa using hd)]
      rfl

/-- What is gathered from the rest of a list: each document below the end, its weight. -/
theorem gather_slots {sum : DocId → ℚ} {M : Finset DocId} {sums : List ℚ} {held : List Nat}
    {rest : List (DocId × ℚ)} (h : Slots lo window sum M sums held)
    (hasc : (rest.map (·.1)).Pairwise (· < ·)) (hlo : ∀ p ∈ rest, lo ≤ p.1) :
    Slots lo window
      (fun e => sum e + if e < lo + window then c.weight * (rest.lookup e).getD 0 else 0)
      (M ∪ (rest.map (·.1)).toFinset.filter (· < lo + window))
      (gather lo (lo + window) c sums held rest).2.1
      (gather lo (lo + window) c sums held rest).2.2 := by
  induction rest generalizing c sum M sums held with
  | nil =>
    have hsum : (fun e => sum e + if e < lo + window then
        c.weight * (([] : List (DocId × ℚ)).lookup e).getD 0 else 0) = sum := by
      funext e
      rw [List.lookup_nil, Option.getD_none, mul_zero, ite_self, add_zero]
    rw [hsum]
    simpa [gather] using h
  | cons p rest ih =>
    obtain ⟨d, w⟩ := p
    obtain ⟨hhead, hrest⟩ := List.pairwise_cons.mp hasc
    have hlod : lo ≤ d := hlo (d, w) List.mem_cons_self
    rw [gather]
    by_cases hd : d < lo + window
    · have hput := h.put hlod ((Nat.sub_lt_iff_lt_add' hlod).mpr hd) (c.weight * w)
      have hnext := ih (c := { c with at_ := c.at_ + 1 }) hput hrest
        fun p hp => hlo p (List.mem_cons_of_mem _ hp)
      have hsum : (fun e => sum e + if e < lo + window then
          c.weight * (((d, w) :: rest).lookup e).getD 0 else 0) =
          fun e => (sum e + if e = d then c.weight * w else 0) + if e < lo + window then
            c.weight * (rest.lookup e).getD 0 else 0 := by
        funext e
        rw [OrdMap.lookup_cons_ite]
        by_cases hed : e = d
        · have hnone : rest.lookup d = none := by
            refine List.lookup_eq_none_iff.mpr fun p hp => bne_iff_ne.mpr ?_
            exact Nat.ne_of_lt (hhead p.1 (List.mem_map_of_mem hp))
          rw [if_pos hed, if_pos hed, hed, if_pos hd, if_pos hd, hnone, Option.getD_none, mul_zero,
            add_zero]
          rfl
        · rw [if_neg hed, if_neg hed, add_zero]
      have hmarks : M ∪ (((d, w) :: rest).map (·.1)).toFinset.filter (· < lo + window) =
          insert d M ∪ (rest.map (·.1)).toFinset.filter (· < lo + window) := by
        rw [List.map_cons, List.toFinset_cons, Finset.filter_insert, if_pos hd,
          Finset.union_insert, Finset.insert_union]
      rw [if_pos hd, hsum, hmarks]
      exact hnext
    · -- the rest of the list is past the window
      have hpast : ∀ p ∈ (d, w) :: rest, ¬ p.1 < lo + window := by
        intro p hp
        rcases List.mem_cons.mp hp with rfl | hp
        · exact hd
        · have hdp : d < p.1 := hhead p.1 (List.mem_map_of_mem hp)
          exact fun hlt => hd (Nat.lt_trans hdp hlt)
      have hsum : (fun e => sum e + if e < lo + window then
          c.weight * (((d, w) :: rest).lookup e).getD 0 else 0) = sum := by
        funext e
        by_cases he : e < lo + window
        · have hnone : ((d, w) :: rest).lookup e = none := by
            refine List.lookup_eq_none_iff.mpr fun p hp => bne_iff_ne.mpr ?_
            rintro rfl
            exact hpast p hp he
          rw [hnone, Option.getD_none, mul_zero, ite_self, add_zero]
        · rw [if_neg he, add_zero]
      have hmarks : (((d, w) :: rest).map (·.1)).toFinset.filter (· < lo + window) = ∅ := by
        refine Finset.filter_eq_empty_iff.mpr fun {e} he => ?_
        obtain ⟨p, hp, rfl⟩ := List.mem_map.mp (List.mem_toFinset.mp he)
        exact hpast p hp
      rw [if_neg hd, hsum, hmarks, Finset.union_empty]
      exact h

/-- The documents past a cursor are those from its frontier on. -/
theorem Cursor.Reads.mem_drop (hr : c.Reads b) :
    d ∈ c.list.docs.drop c.at_ ↔ d ∈ c.list.docs ∧ b ≤ d := by
  constructor
  · intro hd
    obtain ⟨n, hn⟩ := List.getElem?_of_mem hd
    rw [List.getElem?_drop] at hn
    refine ⟨List.mem_of_mem_drop hd, Nat.le_of_not_lt fun hlt => ?_⟩
    exact Nat.not_lt.mpr (Nat.le_add_right c.at_ n) ((hr _ d hn).mpr hlt)
  · rintro ⟨hd, hbd⟩
    obtain ⟨n, hn⟩ := List.getElem?_of_mem hd
    have hat : c.at_ ≤ n := Nat.le_of_not_lt fun hlt =>
      Nat.not_lt.mpr hbd ((hr n d hn).mp hlt)
    refine List.mem_of_getElem? (i := n - c.at_) ?_
    rw [List.getElem?_drop, Nat.add_sub_cancel' hat]
    exact hn

/-- A list has left to add what it adds from its frontier on. -/
theorem Cursor.Reads.left_eq (hr : c.Reads b) (hs : c.Sound) (d : DocId) :
    c.left d = if b ≤ d then c.adds d else 0 := by
  have hkeys := Cursor.postings_keys hs
  by_cases hbd : b ≤ d
  · have htake : (c.postings.take c.at_).lookup d = none := by
      refine List.lookup_eq_none_iff.mpr fun p hp => bne_iff_ne.mpr ?_
      rintro rfl
      have hmem : p.1 ∈ c.list.docs.take c.at_ := by
        rw [← List.map_fst_zip (Nat.le_of_eq hs.even.symm), ← List.map_take]
        exact List.mem_map_of_mem hp
      obtain ⟨n, hn⟩ := List.getElem?_of_mem hmem
      rw [List.getElem?_take] at hn
      split at hn
      · next hlt => exact Nat.not_lt.mpr hbd ((hr n _ hn).mp hlt)
      · cases hn
    have hdrop : (c.postings.drop c.at_).lookup d = c.postings.lookup d := by
      have hcut := List.take_append_drop c.at_ c.postings
      rw [← hcut, List.lookup_append, htake, Option.none_or, hcut]
    rw [left, adds, hdrop, if_pos hbd]
  · have hnone : (c.postings.drop c.at_).lookup d = none := by
      refine List.lookup_eq_none_iff.mpr fun p hp => bne_iff_ne.mpr ?_
      rintro rfl
      have hmem : p.1 ∈ c.list.docs.drop c.at_ := hkeys ▸ List.mem_map_of_mem hp
      exact hbd (hr.mem_drop.mp hmem).2
    rw [left, hnone, Option.getD_none, mul_zero, if_neg hbd]

/-- Every cursor is moved to the end of the window. -/
theorem gatherAll_cursors (lo hi : Nat) (hs : ∀ c ∈ cs, c.Sound) (sums : List ℚ)
    (held : List Nat) :
    (gatherAll lo hi sums held cs).1 = cs.map fun c => c.seek hi := by
  induction cs generalizing sums held with
  | nil => rfl
  | cons c cs ih =>
    rw [gatherAll]
    dsimp only
    rw [ih (fun c hc => hs c (List.mem_cons_of_mem _ hc)), List.map_cons]
    congr 1
    have hc : (gather lo hi c sums held (c.postings.drop c.at_)).1 = _ := gather_cursor _ _ _ _
    rw [Cursor.postings_keys (hs c List.mem_cons_self)] at hc
    exact hc

/-- **What is gathered from every list**: each document from the frontier to the end of the window,
its whole score. -/
theorem gatherAll_slots {sum : DocId → ℚ} {M : Finset DocId} {sums : List ℚ} {held : List Nat}
    (h : Slots lo window sum M sums held) (hs : ∀ c ∈ cs, c.Sound) (hr : ∀ c ∈ cs, c.Reads b)
    (hlo : ∀ c ∈ cs, ∀ d ∈ c.list.docs, b ≤ d → lo ≤ d) :
    Slots lo window
      (fun e => sum e + if b ≤ e ∧ e < lo + window then total cs e else 0)
      (M ∪ (docsBelow cs (lo + window)).filter (b ≤ ·))
      (gatherAll lo (lo + window) sums held cs).2.1
      (gatherAll lo (lo + window) sums held cs).2.2 := by
  induction cs generalizing sum M sums held with
  | nil =>
    have hsum : (fun e => sum e + if b ≤ e ∧ e < lo + window then total [] e else 0) = sum := by
      funext e
      rw [show total [] e = 0 from rfl, ite_self, add_zero]
    have hdocs : (docsBelow [] (lo + window)).filter (b ≤ ·) = ∅ := rfl
    rw [hsum, hdocs, Finset.union_empty]
    exact h
  | cons c cs ih =>
    have hsound := hs c List.mem_cons_self
    have hreads := hr c List.mem_cons_self
    have hkeys := Cursor.postings_keys hsound
    have hone := gather_slots (c := c) h
      (by rw [hkeys]; exact hsound.ascending.sublist (List.drop_sublist _ _))
      (fun p hp => by
        have hmem : p.1 ∈ c.list.docs.drop c.at_ := hkeys ▸ List.mem_map_of_mem hp
        obtain ⟨hin, hbp⟩ := hreads.mem_drop.mp hmem
        exact hlo c List.mem_cons_self p.1 hin hbp)
    have hall := ih hone (fun c hc => hs c (List.mem_cons_of_mem _ hc))
      (fun c hc => hr c (List.mem_cons_of_mem _ hc))
      fun c hc => hlo c (List.mem_cons_of_mem _ hc)
    have hsum : (fun e => sum e + if b ≤ e ∧ e < lo + window then total (c :: cs) e else 0) =
        fun e => (sum e + if e < lo + window then
          c.weight * ((c.postings.drop c.at_).lookup e).getD 0 else 0) +
          if b ≤ e ∧ e < lo + window then total cs e else 0 := by
      funext e
      have hleft := hreads.left_eq hsound e
      unfold Cursor.left at hleft
      rw [hleft, total_cons]
      by_cases hbe : b ≤ e <;> by_cases he : e < lo + window <;> simp [hbe, he, add_assoc]
    have hdocs : M ∪ (docsBelow (c :: cs) (lo + window)).filter (b ≤ ·) =
        (M ∪ ((c.postings.drop c.at_).map (·.1)).toFinset.filter (· < lo + window)) ∪
          (docsBelow cs (lo + window)).filter (b ≤ ·) := by
      ext e
      simp only [Finset.mem_union, Finset.mem_filter, mem_docsBelow, mem_docsOf, hkeys,
        List.mem_toFinset, hreads.mem_drop, List.mem_cons, exists_eq_or_imp]
      tauto
    rw [hsum, hdocs]
    exact hall

/-! ## 4. The slots weighed -/

section Weighed

variable {R : Type} [LinearOrder R] [OrderBot R] {f : Rounding R} {accept : DocId → Bool}
  {k : Nat} {found : List Cursor} {M D : Finset DocId} {st : List ℚ × List (ByScore R) × R}

/-- **What holds between two slots**: those of `M` hold their documents' scores and all others
nothing, and the heap is the first of the documents weighed. -/
structure Weighed (f : Rounding R) (k : Nat) (accept : DocId → Bool) (found : List Cursor)
    (lo window : Nat) (M D : Finset DocId) (st : List ℚ × List (ByScore R) × R) : Prop where
  room : st.1.length = window
  sums : ∀ i < window, st.1.getD i 0 = if lo + i ∈ M then total found (lo + i) else 0
  heap : st.2.1 = Best.best k (keys f accept found D)
  worst : st.2.2 = worst st.2.1 k
  apart : Disjoint M D

/-- A slot weighed is cleared, and its document counted. -/
theorem Weighed.weigh (h : Weighed f k accept found lo window M D st) {i : Nat} (hi : i < window)
    (hM : lo + i ∈ M) : Weighed f k accept found lo window (M.erase (lo + i))
      (insert (lo + i) D) (weigh f k accept lo i st) := by
  obtain ⟨sums, heap, worstKept⟩ := st
  have hsum : sums.getD i 0 = total found (lo + i) := by
    have hsum := h.sums i hi
    rw [if_pos hM] at hsum
    exact hsum
  have hnew : lo + i ∉ D := Finset.disjoint_left.mp h.apart hM
  have hsums : ∀ j < window, (sums.set i 0).getD j 0 =
      if lo + j ∈ M.erase (lo + i) then total found (lo + j) else 0 := by
    intro j hj
    have hroom : sums.length = window := h.room
    rw [List.getD_eq_getElem?_getD]
    by_cases hij : i = j
    · subst hij
      rw [List.getElem?_set_self (by rw [hroom]; exact hi), if_neg (Finset.notMem_erase _ _)]
      rfl
    · have hne : lo + j ≠ lo + i := by omega
      have hsum := h.sums j hj
      rw [List.getD_eq_getElem?_getD] at hsum
      rw [List.getElem?_set_ne hij, hsum]
      simp only [Finset.mem_erase, hne, ne_eq, not_false_eq_true, true_and]
  have hroom : (sums.set i 0).length = window := by rw [List.length_set]; exact h.room
  have hapart : Disjoint (M.erase (lo + i)) (insert (lo + i) D) := by
    rw [Finset.disjoint_insert_right]
    exact ⟨Finset.notMem_erase _ _, h.apart.mono_left (Finset.erase_subset _ _)⟩
  have hheap : heap = Best.best k (keys f accept found D) := h.heap
  have hworst : worstKept = Near.worst heap k := h.worst
  unfold Near.weigh
  dsimp only
  rw [hsum]
  by_cases haccept : accept (lo + i) = true
  · by_cases hshort : f.round (total found (lo + i)) < worstKept
    · -- too little to be kept
      rw [if_pos (by simp [hshort])]
      refine ⟨hroom, hsums, ?_, hworst, hapart⟩
      have hone : insert (lo + i) D = D ∪ {lo + i} := by
        rw [Finset.union_comm]
        rfl
      rw [hone, best_union_short, ← hheap]
      intro d hd
      rw [Finset.mem_singleton.mp hd, ← hheap, ← hworst]
      exact hshort
    · have hkeep : keep (Best.best k (keys f accept found D)) k
          (f.round (total found (lo + i))) (lo + i) =
          (Best.best k (keys f accept found (insert (lo + i) D)),
            Near.worst (Best.best k (keys f accept found (insert (lo + i) D))) k) :=
        keep_keys hnew haccept
      rw [if_neg (by simp [hshort, haccept]), hheap, hkeep]
      exact ⟨hroom, hsums, rfl, rfl, hapart⟩
  · have hreject : accept (lo + i) = false := Bool.eq_false_iff.mpr haccept
    rw [if_pos (by simp [hreject])]
    refine ⟨hroom, hsums, ?_, hworst, hapart⟩
    rw [keys_insert_of_not hreject]
    exact hheap

/-- **A word drained**: every document it marks is weighed. -/
theorem Weighed.drain {w bits : Nat} (h : Weighed f k accept found lo window M D st)
    (hw : w * 64 + 64 ≤ window) (hbits : bits < 2 ^ 64)
    (hmarks : ∀ j < 64, bits.testBit j = true ↔ lo + (w * 64 + j) ∈ M) (hM : ∀ d ∈ M, lo ≤ d) :
    Weighed f k accept found lo window (M.filter fun d => (d - lo) / 64 ≠ w)
      (D ∪ M.filter fun d => (d - lo) / 64 = w) (drain f k accept lo w bits st) := by
  induction bits using Nat.strongRecOn generalizing M D st with
  | ind bits ih =>
    rw [Near.drain]
    by_cases hzero : bits = 0
    · -- no document of the word is left
      have hnone : ∀ d ∈ M, (d - lo) / 64 ≠ w := by
        intro d hd hword
        have hlo : lo ≤ d := hM d hd
        have hplace : lo + (w * 64 + (d - lo) % 64) = d := by
          rw [← hword, Nat.div_add_mod', Nat.add_sub_cancel' hlo]
        have hbit := (hmarks ((d - lo) % 64) (Nat.mod_lt _ (by omega))).mpr (hplace.symm ▸ hd)
        rw [hzero, Nat.zero_testBit] at hbit
        cases hbit
      rw [if_pos hzero, Finset.filter_true_of_mem hnone,
        Finset.filter_false_of_mem fun d hd => hnone d hd, Finset.union_empty]
      exact h
    · have ht : bits.testBit (trailingZeros bits) = true := testBit_trailingZeros bits hzero
      have hlt : trailingZeros bits < 64 := by
        by_contra hge
        have hbig := Nat.testBit_lt_two_pow
          (Nat.lt_of_lt_of_le hbits (Nat.pow_le_pow_right (by omega) (Nat.le_of_not_lt hge)))
        rw [ht] at hbig
        cases hbig
      have hin := (hmarks _ hlt).mp ht
      have hword : (lo + (w * 64 + trailingZeros bits) - lo) / 64 = w := by omega
      have hnext := ih (bits &&& (bits - 1))
        (Nat.lt_of_le_of_lt Nat.and_le_right (by omega))
        (h.weigh (by omega) hin) (Nat.lt_of_le_of_lt Nat.and_le_left hbits)
        (fun j hj => by
          rw [testBit_clear hzero, hmarks j hj, Finset.mem_erase, and_comm]
          refine and_congr_left fun _ => ?_
          omega)
        fun d hd => hM d (Finset.mem_of_mem_erase hd)
      rw [if_neg hzero]
      generalize lo + (w * 64 + trailingZeros bits) = doc at hin hword hnext
      have hleft : (M.erase doc).filter (fun d => (d - lo) / 64 ≠ w) =
          M.filter fun d => (d - lo) / 64 ≠ w := by
        rw [Finset.filter_erase, Finset.erase_eq_of_notMem]
        exact fun hmem => (Finset.mem_filter.mp hmem).2 hword
      have hdone : insert doc D ∪ (M.erase doc).filter (fun d => (d - lo) / 64 = w) =
          D ∪ M.filter fun d => (d - lo) / 64 = w := by
        rw [Finset.filter_erase, Finset.insert_union, ← Finset.union_insert, Finset.insert_erase]
        exact Finset.mem_filter.mpr ⟨hin, hword⟩
      rw [hleft, hdone] at hnext
      exact hnext

/-- **The words drained**: every document marked is weighed, and the slots are as they were. -/
theorem Weighed.drainAll {held : List Nat} {w : Nat}
    (h : Weighed f k accept found lo window M D st) (hwords : (w + held.length) * 64 = window)
    (hbits : ∀ bits ∈ held, bits < 2 ^ 64)
    (hmarks : ∀ n < held.length, ∀ j < 64,
      (held.getD n 0).testBit j = true ↔ lo + ((w + n) * 64 + j) ∈ M)
    (hM : ∀ d ∈ M, lo + w * 64 ≤ d ∧ d < lo + window) :
    (drainAll f k accept lo w held st).1 = List.replicate held.length 0 ∧
      Weighed f k accept found lo window ∅ (D ∪ M) (drainAll f k accept lo w held st).2 := by
  induction held generalizing w M D st with
  | nil =>
    have hnone : M = ∅ := by
      refine Finset.eq_empty_iff_forall_notMem.mpr fun d hd => ?_
      have hd := hM d hd
      rw [List.length_nil, Nat.add_zero] at hwords
      rw [hwords] at hd
      exact Nat.not_lt.mpr hd.1 hd.2
    subst hnone
    rw [Finset.union_empty]
    exact ⟨rfl, h⟩
  | cons bits held ih =>
    rw [List.length_cons] at hwords
    have hdrain := h.drain (w := w) (by omega) (hbits bits List.mem_cons_self)
      (fun j hj => hmarks 0 (Nat.succ_pos _) j hj)
      fun d hd => Nat.le_trans (Nat.le_add_right _ _) (hM d hd).1
    obtain ⟨hzero, hrest⟩ := ih (w := w + 1) hdrain (by omega)
      (fun bits hb => hbits bits (List.mem_cons_of_mem _ hb))
      (fun n hn j hj => by
        have hmark := hmarks (n + 1) (by rw [List.length_cons]; omega) j hj
        have hplace : w + 1 + n = w + (n + 1) := by omega
        have hword : (lo + ((w + (n + 1)) * 64 + j) - lo) / 64 ≠ w := by omega
        rw [List.getD_cons_succ] at hmark
        rw [hplace, hmark, Finset.mem_filter]
        exact (and_iff_left hword).symm)
      (fun d hd => by
        obtain ⟨hd, hword⟩ := Finset.mem_filter.mp hd
        obtain ⟨hlow, hhigh⟩ := hM d hd
        refine ⟨?_, hhigh⟩
        have hlow : lo + w * 64 ≤ d := hlow
        obtain ⟨off, rfl⟩ := Nat.exists_eq_add_of_le (Nat.le_trans (Nat.le_add_right _ _) hlow)
        have hoff : w * 64 ≤ off := Nat.le_of_add_le_add_left hlow
        have hword : off / 64 ≠ w := by rwa [Nat.add_sub_cancel_left] at hword
        exact Nat.add_le_add_left (by omega) lo)
    have hwhole : (M.filter fun d => (d - lo) / 64 = w) ∪
        (M.filter fun d => (d - lo) / 64 ≠ w) = M := by
      ext d
      rw [Finset.mem_union, Finset.mem_filter, Finset.mem_filter, ← and_or_left]
      exact and_iff_left (em _)
    rw [Finset.union_assoc, hwhole] at hrest
    unfold Near.drainAll
    dsimp only
    rw [hzero]
    exact ⟨rfl, hrest⟩

end Weighed

/-! ## 5. The windows -/

/-- A window is a power of two, from a word of marks to less than all ids. -/
theorem windowOf_pow {e : Nat} (he : e < 64) (cs : List Cursor) :
    ∃ m, 6 ≤ m ∧ m < 64 ∧ windowOf (2 ^ e) cs = 2 ^ m := by
  have hword : (64 : Nat) = 2 ^ 6 := rfl
  unfold windowOf nextPowerOfTwo
  by_cases hfits : span cs ≤ 2 ^ 63
  · obtain ⟨j, hj⟩ := Nat.isPowerOfTwo_nextPowerOfTwo (span cs)
    refine ⟨(e ⊓ j) ⊔ 6, le_sup_right, by omega, ?_⟩
    have hmono : Monotone fun n : Nat => 2 ^ n := pow_right_mono₀ (by omega)
    rw [if_pos hfits, hj, hword, ← hmono.map_min, ← hmono.map_max]
  · refine ⟨6, le_refl 6, by omega, ?_⟩
    rw [if_neg hfits, Nat.min_zero, Nat.zero_max, hword]

/-- A document and its window: where the window starts, and whether its end wraps. -/
theorem window_bounds {m next : Nat} (hm : m < 64) (hnext : next < 2 ^ 64) :
    next / 2 ^ m * 2 ^ m ≤ next ∧ next < next / 2 ^ m * 2 ^ m + 2 ^ m ∧
      (next / 2 ^ m * 2 ^ m + 2 ^ m = 2 ^ 64 ∨ next / 2 ^ m * 2 ^ m + 2 ^ m + 2 ^ m ≤ 2 ^ 64) := by
  have hpos : 0 < 2 ^ m := Nat.two_pow_pos m
  have hpow : 2 ^ (64 - m) * 2 ^ m = 2 ^ 64 := by rw [← pow_add, Nat.sub_add_cancel (by omega)]
  have hdiv := Nat.div_add_mod' next (2 ^ m)
  have hmod := Nat.mod_lt next hpos
  refine ⟨by omega, by omega, ?_⟩
  have hplace : next / 2 ^ m < 2 ^ (64 - m) := by
    rw [Nat.div_lt_iff_lt_mul hpos, hpow]
    exact hnext
  rcases Nat.lt_or_ge (next / 2 ^ m + 1) (2 ^ (64 - m)) with hless | hmore
  · refine .inr ?_
    calc next / 2 ^ m * 2 ^ m + 2 ^ m + 2 ^ m = (next / 2 ^ m + 2) * 2 ^ m := by ring
      _ ≤ 2 ^ (64 - m) * 2 ^ m := Nat.mul_le_mul_right _ hless
      _ = 2 ^ 64 := hpow
  · refine .inl ?_
    have hlast : next / 2 ^ m + 1 = 2 ^ (64 - m) := Nat.le_antisymm hplace hmore
    rw [← hpow, ← hlast, Nat.add_mul, Nat.one_mul]

section Turns

variable {R : Type} [LinearOrder R] [OrderBot R] {f : Rounding R} {accept : DocId → Bool}
  {k m : Nat} {found : List Cursor} {s : Sums R}

/-- **What holds between two windows**, every document below `b` summed and weighed. -/
structure Summing (f : Rounding R) (k : Nat) (accept : DocId → Bool) (found : List Cursor)
    (window : Nat) (b : DocId) (s : Sums R) : Prop where
  lists : s.cursors.map Cursor.start = found
  sound : ∀ c ∈ s.cursors, c.Sound
  reads : ∀ c ∈ s.cursors, c.Reads b
  room : s.sums.length = window
  clear : ∀ i < window, s.sums.getD i 0 = 0
  held : s.held = List.replicate (window / 64) 0
  heap : s.heap = Best.best k (keys f accept found (docsBelow found b))
  worst : s.worstKept = worst s.heap k

theorem docsOf_start (cs : List Cursor) : docsOf (cs.map Cursor.start) = docsOf cs := by
  rw [docsOf, List.flatMap_map]
  rfl

/-- The lists' next document is the first from the frontier on. -/
theorem Summing.next (h : Summing f k accept found window b s) {next : DocId}
    (hmin : (s.cursors.filterMap Cursor.head).min? = some next) :
    next < docMax ∧ next ∈ docsOf s.cursors ∧ b ≤ next ∧ ∀ c ∈ s.cursors, ∀ d ∈ c.list.docs, b ≤ d → next ≤ d := by
  obtain ⟨hmem, hleast⟩ := List.min?_eq_some_iff.mp hmin
  obtain ⟨c, hc, hhead⟩ := List.mem_filterMap.mp hmem
  obtain ⟨hin, hb, -⟩ := (h.reads c hc).head (h.sound c hc) hhead
  refine ⟨(h.sound c hc).below next hin, mem_docsOf.mpr ⟨c, hc, hin⟩, hb, fun c' hc' d hd hbd => ?_⟩
  cases hhead' : c'.head with
  | none => exact absurd ((h.reads c' hc').head_none hhead' d hd) (Nat.not_lt.mpr hbd)
  | some e =>
    have hne : next ≤ e := hleast e (List.mem_filterMap.mpr ⟨c', hc', hhead'⟩)
    exact Nat.le_trans hne (((h.reads c' hc').head (h.sound c' hc') hhead').2.2 d hd hbd)

/-- **What one turn does**, where no document is in the last window: it moves the frontier past a
window, or ends with the first `k`. -/
theorem sumTurn_spec (h : Summing f k accept found (2 ^ m) b s) (h6 : 6 ≤ m) (hm : m < 64)
    (hlast : ∀ d ∈ docsOf found, d < 2 ^ 64 - 2 ^ m) :
    (sumTurn f (2 ^ m) k accept s =
        .done (best (Best.best k (keys f accept found (docsOf found))))) ∨
      ∃ s' b', sumTurn f (2 ^ m) k accept s = .again s' ∧ b < b' ∧ b' < 2 ^ 64 ∧
        Summing f k accept found (2 ^ m) b' s' := by
  have hsame : docsOf s.cursors = docsOf found := by rw [← h.lists, docsOf_start]
  unfold sumTurn
  cases hmin : (s.cursors.filterMap Cursor.head).min? with
  | none =>
    have hall : docsBelow found b = docsOf found := by
      refine Finset.filter_true_of_mem fun d hd => ?_
      obtain ⟨c, hc, hin⟩ := mem_docsOf.mp (hsame ▸ hd)
      refine (h.reads c hc).head_none ?_ d hin
      have hnone := List.min?_eq_none_iff.mp hmin
      exact List.filterMap_eq_nil_iff.mp hnone c hc
    dsimp only
    rw [h.heap, hall]
    exact .inl rfl
  | some next =>
    obtain ⟨hmax, hin, hb, hleast⟩ := h.next hmin
    have hnext64 : next < 2 ^ 64 := Nat.lt_trans hmax (by decide)
    obtain ⟨hlow, hhigh, -⟩ := window_bounds hm hnext64
    have hnext : next < 2 ^ 64 - 2 ^ m := hlast next (hsame ▸ hin)
    dsimp only
    rw [and_mask (Nat.le_of_lt hm) hnext64]
    generalize next / 2 ^ m * 2 ^ m = lo at hlow hhigh ⊢
    have hfits : lo + 2 ^ m < 2 ^ 64 :=
      Nat.add_lt_of_lt_sub (Nat.lt_of_le_of_lt hlow hnext)
    have hbhi : b ≤ lo + 2 ^ m := Nat.le_trans hb (Nat.le_of_lt hhigh)
    have hwords : 2 ^ m / 64 * 64 = 2 ^ m := Nat.div_mul_cancel (pow_dvd_pow 2 h6)
    rw [Nat.mod_eq_of_lt hfits]
    have hempty : Slots lo (2 ^ m) (fun _ => 0) ∅ s.sums s.held := by
      refine ⟨h.room, by rw [h.held, List.length_replicate, hwords], h.clear, fun i _ => ?_, ?_⟩
      · rw [h.held, List.getD_eq_getElem?_getD, List.getElem?_replicate]
        split <;> simp
      · intro bits hbits
        rw [h.held] at hbits
        rw [List.eq_of_mem_replicate hbits]
        exact Nat.two_pow_pos 64
    have hslots := gatherAll_slots hempty h.sound h.reads fun c hc d hd hbd =>
      Nat.le_trans hlow (hleast c hc d hd hbd)
    have hcursors := gatherAll_cursors lo (lo + 2 ^ m) h.sound s.sums s.held
    generalize gatherAll lo (lo + 2 ^ m) s.sums s.held s.cursors = gathered at hslots hcursors ⊢
    obtain ⟨cursors, sums, held⟩ := gathered
    dsimp only at hslots hcursors ⊢
    rw [Finset.empty_union] at hslots
    have hbelow : docsBelow s.cursors (lo + 2 ^ m) = docsBelow found (lo + 2 ^ m) := by
      rw [docsBelow, hsame]
      rfl
    rw [hbelow] at hslots
    have hweighed : Weighed f k accept found lo (2 ^ m)
        ((docsBelow found (lo + 2 ^ m)).filter (b ≤ ·)) (docsBelow found b)
        (sums, s.heap, s.worstKept) := by
      refine ⟨hslots.room, fun i hi => ?_, h.heap, h.worst, ?_⟩
      · show sums.getD i 0 = _
        rw [hslots.sums i hi, zero_add, ← total_start s.cursors, h.lists]
        by_cases hmem : lo + i ∈ (docsBelow found (lo + 2 ^ m)).filter (b ≤ ·)
        · obtain ⟨hd, hbd⟩ := Finset.mem_filter.mp hmem
          rw [if_pos hmem, if_pos ⟨hbd, (mem_docsBelow.mp hd).2⟩]
        · rw [if_neg hmem]
          split
          · next hplace =>
            refine total_of_notMem fun c hc hd => hmem ?_
            exact Finset.mem_filter.mpr
              ⟨mem_docsBelow.mpr ⟨mem_docsOf.mpr ⟨c, hc, hd⟩, hplace.2⟩, hplace.1⟩
          · rfl
      · refine Finset.disjoint_left.mpr fun d hd hd' => ?_
        exact Nat.not_lt.mpr (Finset.mem_filter.mp hd).2 (mem_docsBelow.mp hd').2
    obtain ⟨hzero, hdone⟩ := hweighed.drainAll (w := 0) (by rw [Nat.zero_add]; exact hslots.words)
      hslots.bits
      (fun n hn j hj => by
        have hplace : n * 64 + j < 2 ^ m := by
          rw [← hslots.words]
          omega
        have hmark := hslots.marks (n * 64 + j) hplace
        have hword : (n * 64 + j) / 64 = n := by omega
        have hbit : (n * 64 + j) % 64 = j := by omega
        rw [hword, hbit] at hmark
        rw [Nat.zero_add]
        exact hmark)
      fun d hd => by
        obtain ⟨hd, hbd⟩ := Finset.mem_filter.mp hd
        obtain ⟨hd, hhi⟩ := mem_docsBelow.mp hd
        obtain ⟨c, hc, hdc⟩ := mem_docsOf.mp (hsame ▸ hd)
        rw [Nat.zero_mul, Nat.add_zero]
        exact ⟨Nat.le_trans hlow (hleast c hc d hdc hbd), hhi⟩
    rw [← docsBelow_union hbhi] at hdone
    generalize drainAll f k accept lo 0 held (sums, s.heap, s.worstKept) = drained at hzero hdone ⊢
    obtain ⟨held', sums', heap', worst'⟩ := drained
    refine .inr ⟨_, lo + 2 ^ m, rfl, Nat.lt_of_le_of_lt hb hhigh, hfits, ?_, ?_, ?_, hdone.room,
      fun i hi => ?_, ?_, hdone.heap, hdone.worst⟩
    · show cursors.map Cursor.start = found
      rw [hcursors, List.map_map, ← h.lists]
      rfl
    · intro c hc
      obtain ⟨c', hc', rfl⟩ := List.mem_map.mp (hcursors ▸ hc)
      exact (h.sound c' hc').seek
    · intro c hc
      obtain ⟨c', hc', rfl⟩ := List.mem_map.mp (hcursors ▸ hc)
      exact ((h.reads c' hc').lags.mono hbhi).seek (h.sound c' hc')
    · have hsum := hdone.sums i hi
      rw [if_neg (Finset.notMem_empty _)] at hsum
      exact hsum
    · show held' = _
      have hlen : held.length = 2 ^ m / 64 := by
        have hwords' := hslots.words
        omega
      exact hzero.trans (by rw [hlen])

/-- The sums start at the first id, with every slot clear and nothing kept. -/
theorem summing_start (hzero : ∀ c ∈ found, c.at_ = 0) (hs : ∀ c ∈ found, c.Sound) (window : Nat) :
    Summing f k accept found window 0
      ⟨found, List.replicate window 0, List.replicate (window / 64) 0, [], ⊥⟩ where
  lists := map_start_of_zero hzero
  sound := hs
  reads c hc := c.reads_start (hzero c hc)
  room := List.length_replicate
  clear i hi := by rw [List.getD_eq_getElem?_getD, List.getElem?_replicate, if_pos hi]; rfl
  held := rfl
  heap := by
    rw [docsBelow_zero]
    exact (Best.best_empty k).symm
  worst := by
    unfold Near.worst
    split <;> rfl

/-- **The sums end with the first `k`**, whatever the window, where no list holds a document in the
last window of the ids. -/
theorem summed_spec (f : Rounding R) (k : Nat) (accept : DocId → Bool) {e : Nat} (he : e < 64)
    (hzero : ∀ c ∈ found, c.at_ = 0) (hs : ∀ c ∈ found, c.Sound)
    (hlast : ∀ d ∈ docsOf found, d < 2 ^ 64 - windowOf (2 ^ e) found) :
    ∃ turns, summed f (2 ^ e) k accept found turns =
      some (best (Best.best k (keys f accept found (docsOf found)))) := by
  obtain ⟨m, h6, hm, hwindow⟩ := windowOf_pow he found
  rw [hwindow] at hlast
  unfold summed
  dsimp only
  rw [hwindow]
  have hreturns : ∃ r, Returns (sumTurn f (2 ^ m) k accept)
      ⟨found, List.replicate (2 ^ m) 0, List.replicate (2 ^ m / 64) 0, [], ⊥⟩ r ∧
      r = best (Best.best k (keys f accept found (docsOf found))) := by
    refine returns_of_keeps
      (I := fun n s => ∃ b, n = 2 ^ 64 - b ∧ Summing f k accept found (2 ^ m) b s) ?_ ?_
      ⟨0, rfl, summing_start hzero hs (2 ^ m)⟩
    · rintro n s s' ⟨b, rfl, hsum⟩ hturn
      rcases sumTurn_spec hsum h6 hm hlast with hdone | ⟨s'', b', hagain, hbb, hb', hnext⟩
      · cases hturn.symm.trans hdone
      · cases hturn.symm.trans hagain
        exact ⟨2 ^ 64 - b', Nat.sub_lt_sub_left (Nat.lt_trans hbb hb') hbb, b', rfl, hnext⟩
    · rintro n s r ⟨b, rfl, hsum⟩ hturn
      rcases sumTurn_spec hsum h6 hm hlast with hdone | ⟨s'', b', hagain, -⟩
      · cases hturn.symm.trans hdone
        rfl
      · cases hturn.symm.trans hagain
  obtain ⟨r, hloop, rfl⟩ := hreturns
  exact hloop

/-! ## 6. The last window -/

/-- A list has a document in the last window still to come. -/
def Stuck (m : Nat) (s : Sums R) : Prop :=
  (∀ c ∈ s.cursors, c.Sound) ∧
    ∃ c ∈ s.cursors, ∃ n d, c.at_ ≤ n ∧ c.list.docs[n]? = some d ∧ 2 ^ 64 - 2 ^ m ≤ d

/-- A turn does not reach the last window, nor end before it. -/
theorem Stuck.turn (h : Stuck m s) (hm : m < 64) :
    ∃ s', sumTurn f (2 ^ m) k accept s = .again s' ∧ Stuck m s' := by
  obtain ⟨hs, c, hc, n, d, hn, hd, hlast⟩ := h
  unfold sumTurn
  cases hmin : (s.cursors.filterMap Cursor.head).min? with
  | none =>
    have hnone := List.filterMap_eq_nil_iff.mp (List.min?_eq_none_iff.mp hmin) c hc
    have hlen : c.list.docs.length ≤ c.at_ := List.getElem?_eq_none_iff.mp hnone
    obtain ⟨hlt, -⟩ := List.getElem?_eq_some_iff.mp hd
    exact absurd hlt (Nat.not_lt.mpr (Nat.le_trans hlen hn))
  | some next =>
    obtain ⟨c', hc', hhead⟩ := List.mem_filterMap.mp (List.min?_eq_some_iff.mp hmin).1
    have hmax : next < docMax := (hs c' hc').below next (List.mem_of_getElem? hhead)
    have hnext64 : next < 2 ^ 64 := Nat.lt_trans hmax (by decide)
    obtain ⟨-, -, hwrap⟩ := window_bounds hm hnext64
    dsimp only
    rw [and_mask (Nat.le_of_lt hm) hnext64]
    generalize next / 2 ^ m * 2 ^ m = lo at hwrap ⊢
    -- the window's end wraps, or stops short of the last window
    have hhi : (lo + 2 ^ m) % 2 ^ 64 ≤ d := by
      have hpos : 0 < 2 ^ m := Nat.two_pow_pos m
      rcases hwrap with hwrap | hwrap
      · rw [hwrap, Nat.mod_self]
        exact Nat.zero_le d
      · rw [Nat.mod_eq_of_lt (by omega)]
        exact Nat.le_trans (by omega) hlast
    generalize (lo + 2 ^ m) % 2 ^ 64 = hi at hhi ⊢
    have hcursors := gatherAll_cursors lo hi hs s.sums s.held
    refine ⟨_, rfl, ?_, c.seek hi, ?_, n, d, ?_, hd, hlast⟩
    · intro c'' hc''
      obtain ⟨c₀, hc₀, rfl⟩ := List.mem_map.mp (hcursors ▸ hc'')
      exact (hs c₀ hc₀).seek
    · show c.seek hi ∈ (gatherAll lo hi s.sums s.held s.cursors).1
      rw [hcursors]
      exact List.mem_map_of_mem hc
    · refine Nat.le_of_not_lt fun hlt => ?_
      exact Nat.not_lt.mpr hhi (((hs c hc).lt_seek hn hd).mp hlt)

/-- **The sums never end** where a list holds a document in the last window of the ids. -/
theorem summed_never (f : Rounding R) (k : Nat) (accept : DocId → Bool) {e : Nat} (he : e < 64)
    (hzero : ∀ c ∈ found, c.at_ = 0) (hs : ∀ c ∈ found, c.Sound)
    (hlast : ∃ d ∈ docsOf found, 2 ^ 64 - windowOf (2 ^ e) found ≤ d) (turns : Nat) :
    summed f (2 ^ e) k accept found turns = none := by
  obtain ⟨m, -, hm, hwindow⟩ := windowOf_pow he found
  obtain ⟨d, hd, hlast⟩ := hlast
  obtain ⟨c, hc, hin⟩ := mem_docsOf.mp hd
  obtain ⟨n, hn⟩ := List.getElem?_of_mem hin
  rw [hwindow] at hlast
  unfold summed
  dsimp only
  rw [hwindow]
  refine loop_eq_none (I := Stuck m) (fun s hstuck => hstuck.turn hm) ⟨hs, c, hc, n, d, ?_, hn,
    hlast⟩ turns
  rw [hzero c hc]
  exact Nat.zero_le n

end Turns

end Fenec.Near
