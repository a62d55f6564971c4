/-
# Sketches

A sketch is `2^14` registers, each the greatest rank of the hashes that fall to it.  It is kept as the
registers that are set, ascending, until there are more than a sixteenth of them, and as all of them
from then on.

What it is made of is a set of hashes: whatever the order they are taken in, however often, in however
many sketches merged in whatever tree, with any of them written and read back on the way, two sketches
of one set are one sketch (`made_eq`), with the registers that the set says (`made_at`).

* §1 is the sketch, §2 its bytes, §3 what is kept of every sketch that is read (`Valid`), §4 what is
  kept of those that were made (`Settled`), §5 the registers of a set of hashes, §6 sketches that were
  made.
-/
import Fenec.Value
import Fenec.Lib.Sorted
import Mathlib.Data.Multiset.Basic
import Mathlib.Data.Finset.Lattice.Fold
import Mathlib.Order.Lattice.Nat

namespace Fenec.Hll

/-! ## 1. Sketches -/

/-- `P`: the index bits. -/
def p : Nat := 14

/-- `M`: the registers. -/
def m : Nat := 2 ^ p

/-- `Q`: the bits of a hash after its index. -/
def q : Nat := 64 - p

/-- `SPARSE_MOST`. -/
def sparseMost : Nat := m / 16

/-- `Sketch`: the registers that are set, `index << 8 | rank`, or all of them. -/
inductive Sketch where
  | sparse (v : List Nat)
  | dense (r : List Nat)
deriving DecidableEq

/-- `u64::leading_zeros`. -/
def leadingZeros (x : UInt64) : Nat := if x = 0 then 64 else 63 - Nat.log2 x.toNat

/-- The register of a hash. -/
def indexOf (h : UInt64) : Nat := (h >>> 50).toNat

/-- The rank of a hash: the zeros after its index, and one. -/
def rankOf (h : UInt64) : Nat := min (leadingZeros (h <<< 14 ||| (1 : UInt64) <<< 13)) q + 1

/-- A register's entry. -/
def entry (index rank : Nat) : Nat := index <<< 8 ||| rank

/-- The register of an entry, `e >> 8`. -/
def indexAt (e : Nat) : Nat := e >>> 8

/-- The rank of an entry, `e as u8`. -/
def rankAt (e : Nat) : Nat := e % 256

/-- A slot set, where there is one. -/
def store (r : List Nat) (i x : Nat) : Option (List Nat) :=
  if i < r.length then some (r.set i x) else none

/-- An entry put in its place, over the one that was there if its rank is greater. -/
def place (index rank : Nat) : List Nat → List Nat
  | [] => [entry index rank]
  | e :: v =>
    if indexAt e < index then e :: place index rank v
    else if indexAt e = index then max e (entry index rank) :: v
    else entry index rank :: e :: v

namespace Sketch

/-- `Sketch::default`. -/
def new : Sketch := .sparse []

/-- `densify`: `none` where an entry's register is out of range. -/
def densify : Sketch → Option (List Nat)
  | .sparse v => v.foldlM (fun r e => store r (indexAt e) (rankAt e)) (List.replicate m 0)
  | .dense r => some r

/-- `set`: `none` where a register is out of range. -/
def set (index rank : Nat) : Sketch → Option Sketch
  | .dense r => do
    let x ← r[index]?
    (store r index (max x rank)).map .dense
  | .sparse v =>
    let v := place index rank v
    if sparseMost < v.length then (densify (.sparse v)).map .dense else some (.sparse v)

/-- `add`. -/
def add (s : Sketch) (h : UInt64) : Option Sketch := s.set (indexOf h) (rankOf h)

/-- `merge`. -/
def merge (s : Sketch) : Sketch → Option Sketch
  | .sparse v => v.foldlM (fun s e => s.set (indexAt e) (rankAt e)) s
  | .dense o => do
    let r ← s.densify
    pure (.dense (List.zipWith max r o ++ r.drop o.length))

/-- A count of a rank more. -/
def bump (counts : List Nat) (k : Nat) : Option (List Nat) := do
  let x ← counts[k]?
  store counts k (x + 1)

/-- What `estimate` counts: how many registers hold each rank, `none` where a rank is out of range or
there are more entries than registers. -/
def counts : Sketch → Option (List Nat)
  | .sparse v =>
    if v.length ≤ m then
      v.foldlM (fun c e => bump c (rankAt e)) ((List.replicate (q + 2) 0).set 0 (m - v.length))
    else none
  | .dense r => r.foldlM bump (List.replicate (q + 2) 0)

/-! ## 2. Bytes -/

/-- `SPARSE`. -/
def sparseTag : UInt8 := 2

/-- `DENSE`. -/
def denseTag : UInt8 := 1

/-- An entry's bytes: its register in two, the low one first, and its rank. -/
def entryBytes (e : Nat) : List UInt8 :=
  [UInt8.ofNat (indexAt e), UInt8.ofNat (indexAt e / 256), UInt8.ofNat e]

/-- `to_bytes`. -/
def toBytes : Sketch → List UInt8
  | .sparse v => sparseTag :: UInt8.ofNat p :: v.flatMap entryBytes
  | .dense r => denseTag :: UInt8.ofNat p :: r.map UInt8.ofNat

/-- The refusal of bytes that are no sketch. -/
def bad : Error := .type
  "not a sketch: hll_combine and hll_estimate take what hll_accumulate makes"

/-- The entries of a sparse sketch's bytes, ascending from past the one before. -/
def entriesOf : Option Nat → List UInt8 → Result (List Nat)
  | last, a :: b :: c :: rest =>
    let index := a.toNat + 256 * b.toNat
    let rank := c.toNat
    if m ≤ index ∨ rank = 0 ∨ q + 1 < rank ∨ last.any (index ≤ indexAt ·) then .error bad
    else do pure (entry index rank :: (← entriesOf (some (entry index rank)) rest))
  | _, [] => .ok []
  | _, _ => .error bad

/-- `from_bytes`. -/
def fromBytes : List UInt8 → Result Sketch
  | t :: n :: r =>
    if t = denseTag ∧ n.toNat = p ∧ r.length = m then
      if r.any fun x => q + 1 < x.toNat then .error bad
      else .ok (.dense (r.map UInt8.toNat))
    else if t = sparseTag ∧ n.toNat = p ∧ r.length % 3 = 0 then
      (entriesOf none r).map .sparse
    else .error bad
  | _ => .error bad

/-- The rank a register holds. -/
def at_ (s : Sketch) (i : Nat) : Nat :=
  match s with
  | .sparse v => ((v.find? (indexAt · == i)).map rankAt).getD 0
  | .dense r => r.getD i 0

end Sketch

/-! ## 3. Sketches that are read -/

section Entries

variable {index rank i j : Nat} {v : List Nat} {e : Nat}

theorem entry_eq (h : rank < 256) : entry index rank = index * 256 + rank := by
  unfold entry
  rw [Nat.shiftLeft_eq, ← Nat.shiftLeft_eq, ← Nat.shiftLeft_add_eq_or_of_lt (by simpa using h),
    Nat.shiftLeft_eq]

theorem indexAt_eq (e : Nat) : indexAt e = e / 256 := Nat.shiftRight_eq_div_pow e 8

theorem indexAt_entry (h : rank < 256) : indexAt (entry index rank) = index := by
  rw [entry_eq h, indexAt_eq]
  omega

theorem rankAt_entry (h : rank < 256) : rankAt (entry index rank) = rank := by
  rw [entry_eq h, rankAt]
  omega

theorem entry_indexAt (e : Nat) : entry (indexAt e) (rankAt e) = e := by
  have hlt : rankAt e < 256 := Nat.mod_lt e (by decide)
  rw [entry_eq hlt, indexAt_eq, rankAt]
  omega

/-- Of two entries of one register, the greater has the greater rank. -/
theorem max_entry (h : rank < 256) (he : indexAt e = index) :
    max e (entry index rank) = entry index (max (rankAt e) rank) := by
  have hlt : rankAt e < 256 := Nat.mod_lt e (by decide)
  have hmax : max (rankAt e) rank < 256 := Nat.max_lt.mpr ⟨hlt, h⟩
  rw [indexAt_eq] at he
  rw [entry_eq h, entry_eq hmax]
  unfold rankAt
  omega

/-- Entries of registers that ascend. -/
def Ascends (v : List Nat) : Prop := v.Pairwise fun a b => indexAt a < indexAt b

theorem mem_place (h : rank < 256) (he : e ∈ place index rank v) :
    e ∈ v ∨ indexAt e = index ∧ rank ≤ rankAt e ∧
      (rankAt e = rank ∨ ∃ d ∈ v, indexAt d = index ∧ rankAt e = rankAt d) := by
  induction v with
  | nil =>
    obtain rfl := List.mem_singleton.mp he
    rw [indexAt_entry h, rankAt_entry h]
    exact .inr ⟨rfl, Nat.le_refl rank, .inl rfl⟩
  | cons d v ih =>
    rw [place] at he
    split at he
    · rcases List.mem_cons.mp he with rfl | he
      · exact .inl List.mem_cons_self
      · rcases ih he with he | ⟨hi, hr, hrank⟩
        · exact .inl (List.mem_cons_of_mem d he)
        · refine .inr ⟨hi, hr, hrank.imp id ?_⟩
          rintro ⟨c, hc, hci⟩
          exact ⟨c, List.mem_cons_of_mem d hc, hci⟩
    · split at he
      · next hd =>
        rcases List.mem_cons.mp he with rfl | he
        · have hlt : rankAt d < 256 := Nat.mod_lt d (by decide)
          have hmax : max (rankAt d) rank < 256 := Nat.max_lt.mpr ⟨hlt, h⟩
          rw [max_entry h hd, indexAt_entry hmax, rankAt_entry hmax]
          refine .inr ⟨rfl, Nat.le_max_right _ _, ?_⟩
          rcases Nat.le_total (rankAt d) rank with hle | hle
          · exact .inl (Nat.max_eq_right hle)
          · exact .inr ⟨d, List.mem_cons_self, hd, Nat.max_eq_left hle⟩
        · exact .inl (List.mem_cons_of_mem d he)
      · rcases List.mem_cons.mp he with rfl | he
        · rw [indexAt_entry h, rankAt_entry h]
          exact .inr ⟨rfl, Nat.le_refl rank, .inl rfl⟩
        · exact .inl he

theorem ascends_place (h : rank < 256) (hv : Ascends v) : Ascends (place index rank v) := by
  induction v with
  | nil => exact List.pairwise_singleton _ _
  | cons d v ih =>
    obtain ⟨hd, hrest⟩ := List.pairwise_cons.mp hv
    rw [place]
    split
    · next hlt =>
      refine List.pairwise_cons.mpr ⟨fun e he => ?_, ih hrest⟩
      rcases mem_place h he with he | ⟨hi, -⟩
      · exact hd e he
      · rw [hi]
        exact hlt
    · next hge =>
      split
      · next hi =>
        have hlt : rankAt d < 256 := Nat.mod_lt d (by decide)
        refine List.pairwise_cons.mpr ⟨fun e he => ?_, hrest⟩
        rw [max_entry h hi, indexAt_entry (Nat.max_lt.mpr ⟨hlt, h⟩), ← hi]
        exact hd e he
      · next hi =>
        refine List.pairwise_cons.mpr ⟨fun e he => ?_, hv⟩
        rw [indexAt_entry h]
        rcases List.mem_cons.mp he with rfl | he
        · omega
        · have := hd e he
          omega

/-- The rank of a register in a list of entries. -/
def lookup (v : List Nat) (i : Nat) : Nat := ((v.find? (indexAt · == i)).map rankAt).getD 0

theorem lookup_cons (e : Nat) (v : List Nat) (i : Nat) :
    lookup (e :: v) i = if indexAt e = i then rankAt e else lookup v i := by
  unfold lookup
  rw [List.find?_cons]
  by_cases he : indexAt e = i
  · rw [if_pos he, beq_iff_eq.mpr he]
    rfl
  · rw [if_neg he, beq_eq_false_iff_ne.mpr he]

theorem lookup_eq_zero (h : ∀ e ∈ v, indexAt e ≠ i) : lookup v i = 0 := by
  unfold lookup
  rw [List.find?_eq_none.mpr fun e he => by simpa using h e he]
  rfl

/-- **A register set is the greater of what it was and what it is set to**; no other is changed. -/
theorem lookup_place (h : rank < 256) (hv : Ascends v) (i : Nat) :
    lookup (place index rank v) i = if i = index then max (lookup v i) rank else lookup v i := by
  induction v with
  | nil =>
    rw [place, lookup_cons, indexAt_entry h, rankAt_entry h]
    have hzero : lookup [] i = 0 := rfl
    rw [hzero, Nat.zero_max]
    by_cases hi : index = i
    · rw [if_pos hi, if_pos hi.symm]
    · rw [if_neg hi, if_neg (Ne.symm hi)]
  | cons d v ih =>
    obtain ⟨hd, hrest⟩ := List.pairwise_cons.mp hv
    rw [place]
    split
    · next hlt =>
      rw [lookup_cons, lookup_cons, ih hrest]
      by_cases hdi : indexAt d = i
      · rw [if_pos hdi, if_pos hdi, if_neg (by omega)]
      · rw [if_neg hdi, if_neg hdi]
    · next hge =>
      split
      · next heq =>
        have hlt : rankAt d < 256 := Nat.mod_lt d (by decide)
        have hmax : max (rankAt d) rank < 256 := Nat.max_lt.mpr ⟨hlt, h⟩
        rw [lookup_cons, lookup_cons, max_entry h heq, indexAt_entry hmax, rankAt_entry hmax, heq]
        by_cases hi : index = i
        · rw [if_pos hi, if_pos hi, if_pos hi.symm]
        · rw [if_neg hi, if_neg hi, if_neg (Ne.symm hi)]
      · next hne =>
        have hnone : i = index → lookup (d :: v) i = 0 := by
          intro hi
          refine lookup_eq_zero fun e he => ?_
          rcases List.mem_cons.mp he with rfl | he
          · omega
          · have := hd e he
            omega
        rw [lookup_cons, indexAt_entry h, rankAt_entry h]
        by_cases hi : index = i
        · rw [if_pos hi, if_pos hi.symm, hnone hi.symm, Nat.zero_max]
        · rw [if_neg hi, if_neg (Ne.symm hi)]

theorem lookup_of_mem (hv : Ascends v) (he : e ∈ v) : lookup v (indexAt e) = rankAt e := by
  induction v with
  | nil => cases he
  | cons d v ih =>
    obtain ⟨hd, hrest⟩ := List.pairwise_cons.mp hv
    rw [lookup_cons]
    rcases List.mem_cons.mp he with rfl | he
    · rw [if_pos rfl]
    · rw [if_neg (Nat.ne_of_lt (hd e he)), ih hrest he]

theorem exists_of_lookup_ne_zero (h : lookup v i ≠ 0) :
    ∃ e ∈ v, indexAt e = i ∧ rankAt e = lookup v i := by
  unfold lookup at h ⊢
  cases hfind : v.find? (indexAt · == i) with
  | none =>
    rw [hfind] at h
    exact absurd rfl h
  | some e =>
    exact ⟨e, List.mem_of_find?_eq_some hfind, by simpa using List.find?_some hfind, rfl⟩

theorem Ascends.nodup (hv : Ascends v) : v.Nodup := by
  refine List.Pairwise.imp (fun {a b} hab => ?_) hv
  rintro rfl
  exact Nat.lt_irrefl _ hab

/-- Two lists of entries that ascend are one where their registers' ranks are. -/
theorem entries_ext {w : List Nat} (hv : Ascends v) (hw : Ascends w)
    (hv' : ∀ e ∈ v, rankAt e ≠ 0) (hw' : ∀ e ∈ w, rankAt e ≠ 0)
    (h : ∀ i, lookup v i = lookup w i) : v = w := by
  have hsub : ∀ {v w : List Nat}, Ascends v → Ascends w → (∀ e ∈ v, rankAt e ≠ 0) →
      (∀ i, lookup v i = lookup w i) → ∀ e ∈ v, e ∈ w := by
    intro v w hv hw hv' h e he
    have hlook := lookup_of_mem hv he
    obtain ⟨d, hd, hdi, hdr⟩ : ∃ d ∈ w, indexAt d = indexAt e ∧ rankAt d = lookup w (indexAt e) :=
      exists_of_lookup_ne_zero (by rw [← h, hlook]; exact hv' e he)
    have hde : d = e := by
      rw [← entry_indexAt d, ← entry_indexAt e, hdi, hdr, ← h, hlook]
    exact hde ▸ hd
  have hperm : v.Perm w := by
    refine (List.perm_ext_iff_of_nodup hv.nodup hw.nodup).mpr fun e => ⟨?_, ?_⟩
    · exact hsub hv hw hv' h e
    · exact hsub hw hv hw' (fun i => (h i).symm) e
  exact hperm.eq_of_pairwise (fun _ _ _ _ hab hba => absurd hab (Nat.lt_asymm hba)) hv hw

end Entries

namespace Sketch

section Valid

variable {s t u : Sketch} {v r : List Nat} {index rank i x : Nat}

/-- **A sketch that may be read**: its registers' entries ascend and are in range, or all registers
are there; and no rank is past the most a hash has. -/
def Valid : Sketch → Prop
  | .sparse v => Ascends v ∧ ∀ e ∈ v, indexAt e < m ∧ rankAt e ≠ 0 ∧ rankAt e ≤ q + 1
  | .dense r => r.length = m ∧ ∀ x ∈ r, x ≤ q + 1

theorem store_of_lt (h : i < r.length) (x : Nat) : store r i x = some (r.set i x) := if_pos h

theorem getD_set (h : i < r.length) (x j : Nat) :
    (r.set i x).getD j 0 = if j = i then x else r.getD j 0 := by
  rw [List.getD_eq_getElem?_getD, List.getElem?_set]
  by_cases hj : i = j
  · subst hj
    rw [if_pos rfl, if_pos h, if_pos rfl]
    rfl
  · rw [if_neg hj, if_neg (Ne.symm hj), ← List.getD_eq_getElem?_getD]

/-- Entries written over registers. -/
theorem foldlM_store (hv : Ascends v) (hi : ∀ e ∈ v, indexAt e < r.length) :
    ∃ r', v.foldlM (fun r e => store r (indexAt e) (rankAt e)) r = some r' ∧
      r'.length = r.length ∧ (∀ e ∈ v, r'.getD (indexAt e) 0 = rankAt e) ∧
      ∀ i, (∀ e ∈ v, indexAt e ≠ i) → r'.getD i 0 = r.getD i 0 := by
  induction v generalizing r with
  | nil => exact ⟨r, rfl, rfl, fun _ he => absurd he List.not_mem_nil, fun _ _ => rfl⟩
  | cons d v ih =>
    obtain ⟨hd, hrest⟩ := List.pairwise_cons.mp hv
    have hlt := hi d List.mem_cons_self
    have hi' : ∀ e ∈ v, indexAt e < (r.set (indexAt d) (rankAt d)).length := by
      intro e he
      rw [List.length_set]
      exact hi e (List.mem_cons_of_mem d he)
    obtain ⟨r', hfold, hlen, hin, hout⟩ := ih hrest hi'
    refine ⟨r', ?_, by rw [hlen, List.length_set], ?_, ?_⟩
    · rw [List.foldlM_cons, store_of_lt hlt]
      exact hfold
    · intro e he
      rcases List.mem_cons.mp he with rfl | he
      · rw [hout (indexAt e) fun c hc => (Nat.ne_of_lt (hd c hc)).symm, getD_set hlt, if_pos rfl]
      · exact hin e he
    · intro i hnone
      rw [hout i fun e he => hnone e (List.mem_cons_of_mem d he), getD_set hlt,
        if_neg (hnone d List.mem_cons_self).symm]

/-- **Registers made of entries are the ones the entries are of.** -/
theorem densify_spec (h : Valid s) : ∃ r, s.densify = some r ∧ r.length = m ∧
    (∀ x ∈ r, x ≤ q + 1) ∧ ∀ i, r.getD i 0 = s.at_ i := by
  cases s with
  | dense r => exact ⟨r, rfl, h.1, h.2, fun _ => rfl⟩
  | sparse v =>
    obtain ⟨hv, hin⟩ := h
    have hzero : ∀ i, (List.replicate m 0).getD i 0 = 0 := by
      intro i
      rw [List.getD_eq_getElem?_getD, List.getElem?_replicate]
      split
      · rfl
      · rfl
    have hlen : (List.replicate m 0).length = m := List.length_replicate
    have hrange : ∀ e ∈ v, indexAt e < (List.replicate m 0).length := by
      intro e he
      rw [hlen]
      exact (hin e he).1
    obtain ⟨r, hfold, hlen', hset, hnot⟩ := foldlM_store hv hrange
    have hat : ∀ i, r.getD i 0 = (sparse v).at_ i := by
      intro i
      change r.getD i 0 = lookup v i
      by_cases hi : ∃ e ∈ v, indexAt e = i
      · obtain ⟨e, he, rfl⟩ := hi
        rw [hset e he, lookup_of_mem hv he]
      · have hnone : ∀ e ∈ v, indexAt e ≠ i := fun e he heq => hi ⟨e, he, heq⟩
        rw [hnot i hnone, hzero, lookup_eq_zero hnone]
    refine ⟨r, hfold, hlen'.trans hlen, ?_, hat⟩
    intro x hx
    obtain ⟨i, hi⟩ := List.mem_iff_getElem?.mp hx
    have hget : r.getD i 0 = x := by
      rw [List.getD_eq_getElem?_getD, hi]
      rfl
    rw [← hget, hat]
    change lookup v i ≤ q + 1
    by_cases hne : lookup v i = 0
    · rw [hne]
      exact Nat.zero_le _
    · obtain ⟨e, he, -, hr⟩ := exists_of_lookup_ne_zero hne
      rw [← hr]
      exact (hin e he).2.2

theorem lt_of_le_most (h : rank ≤ q + 1) : rank < 256 := by
  unfold q p at h
  omega

theorem valid_place (h : Valid (.sparse v)) (hindex : index < m) (hrank : rank ≠ 0)
    (hmost : rank ≤ q + 1) : Valid (.sparse (place index rank v)) := by
  have hbyte := lt_of_le_most hmost
  refine ⟨ascends_place hbyte h.1, fun e he => ?_⟩
  rcases mem_place hbyte he with he | ⟨hi, -, hr | ⟨d, hd, -, hr⟩⟩
  · exact h.2 e he
  · rw [hi, hr]
    exact ⟨hindex, hrank, hmost⟩
  · rw [hi, hr]
    exact ⟨hindex, (h.2 d hd).2⟩

/-- **A register set.** -/
theorem set_spec (h : Valid s) (hindex : index < m) (hrank : rank ≠ 0) (hmost : rank ≤ q + 1) :
    ∃ s', s.set index rank = some s' ∧ Valid s' ∧
      ∀ i, s'.at_ i = if i = index then max (s.at_ i) rank else s.at_ i := by
  have hbyte := lt_of_le_most hmost
  cases s with
  | dense r =>
    obtain ⟨hlen, hr⟩ := h
    have hlt : index < r.length := hlen ▸ hindex
    refine ⟨.dense (r.set index (max r[index] rank)), ?_, ⟨?_, ?_⟩, ?_⟩
    · unfold set
      dsimp only
      rw [List.getElem?_eq_getElem hlt]
      change (store r index (max r[index] rank)).map dense = _
      rw [store_of_lt hlt]
      rfl
    · rw [List.length_set, hlen]
    · intro x hx
      rcases List.mem_or_eq_of_mem_set hx with hx | rfl
      · exact hr x hx
      · exact Nat.max_le.mpr ⟨hr _ (List.getElem_mem hlt), hmost⟩
    · intro i
      change (r.set index (max r[index] rank)).getD i 0 =
        if i = index then max (r.getD i 0) rank else r.getD i 0
      rw [getD_set hlt]
      by_cases hi : i = index
      · subst hi
        rw [if_pos rfl, if_pos rfl, List.getD_eq_getElem?_getD, List.getElem?_eq_getElem hlt]
        rfl
      · rw [if_neg hi, if_neg hi]
  | sparse v =>
    have hv := h.1
    have hvalid := valid_place h hindex hrank hmost
    have hat : ∀ i, (sparse (place index rank v)).at_ i =
        if i = index then max ((sparse v).at_ i) rank else (sparse v).at_ i :=
      lookup_place hbyte hv
    unfold set
    dsimp only
    split
    · obtain ⟨r, hr, hlen, hmost', hget⟩ := densify_spec hvalid
      refine ⟨.dense r, by rw [hr]; rfl, ⟨hlen, hmost'⟩, fun i => ?_⟩
      rw [← hat]
      exact hget i
    · exact ⟨_, rfl, hvalid, hat⟩

theorem foldlM_set (h : Valid s) {w : List Nat}
    (hw : ∀ e ∈ w, indexAt e < m ∧ rankAt e ≠ 0 ∧ rankAt e ≤ q + 1) (hasc : Ascends w) :
    ∃ u, w.foldlM (fun s e => s.set (indexAt e) (rankAt e)) s = some u ∧ Valid u ∧
      ∀ i, u.at_ i = max (s.at_ i) (lookup w i) := by
  induction w generalizing s with
  | nil => exact ⟨s, rfl, h, fun i => (Nat.max_zero _).symm⟩
  | cons e w ih =>
    obtain ⟨he, hrest⟩ := List.pairwise_cons.mp hasc
    obtain ⟨hindex, hrank, hmost⟩ := hw e List.mem_cons_self
    obtain ⟨s', hset, hs', hat⟩ := set_spec h hindex hrank hmost
    obtain ⟨u, hfold, hu, hmax⟩ := ih hs' (fun d hd => hw d (List.mem_cons_of_mem e hd)) hrest
    refine ⟨u, ?_, hu, fun i => ?_⟩
    · rw [List.foldlM_cons, hset]
      exact hfold
    · rw [hmax, hat, lookup_cons]
      by_cases hi : indexAt e = i
      · have hnone : lookup w i = 0 := lookup_eq_zero fun d hd heq => by
          have := he d hd
          omega
        rw [if_pos hi.symm, if_pos hi, hnone, Nat.max_zero]
      · rw [if_neg (Ne.symm hi), if_neg hi]

/-- **Sketches merged**: each register the greater of the two. -/
theorem merge_spec (hs : Valid s) (ht : Valid t) :
    ∃ u, s.merge t = some u ∧ Valid u ∧ ∀ i, u.at_ i = max (s.at_ i) (t.at_ i) := by
  cases t with
  | sparse w => exact foldlM_set hs ht.2 ht.1
  | dense o =>
    obtain ⟨hlen, ho⟩ := ht
    obtain ⟨r, hr, hrlen, hmost, hget⟩ := densify_spec hs
    have hdrop : r.drop o.length = [] := List.drop_eq_nil_of_le (by rw [hrlen, hlen])
    refine ⟨.dense (List.zipWith max r o), ?_, ⟨?_, ?_⟩, fun i => ?_⟩
    · unfold merge
      dsimp only
      rw [hr]
      change some (dense (List.zipWith max r o ++ r.drop o.length)) = _
      rw [hdrop, List.append_nil]
    · rw [List.length_zipWith, hrlen, hlen, Nat.min_self]
    · intro x hx
      obtain ⟨i, hi⟩ := List.mem_iff_getElem?.mp hx
      rw [List.getElem?_zipWith] at hi
      cases hri : r[i]? with
      | none =>
        rw [hri] at hi
        cases hi
      | some a =>
        cases hoi : o[i]? with
        | none =>
          rw [hri, hoi] at hi
          cases hi
        | some b =>
          rw [hri, hoi] at hi
          obtain rfl := Option.some.inj hi
          exact Nat.max_le.mpr
            ⟨hmost a (List.mem_of_getElem? hri), ho b (List.mem_of_getElem? hoi)⟩
    · rw [← hget]
      change (List.zipWith max r o).getD i 0 = max (r.getD i 0) (o.getD i 0)
      rw [List.getD_eq_getElem?_getD, List.getD_eq_getElem?_getD, List.getD_eq_getElem?_getD,
        List.getElem?_zipWith]
      by_cases hi : i < m
      · rw [List.getElem?_eq_getElem (hrlen ▸ hi), List.getElem?_eq_getElem (hlen ▸ hi)]
        rfl
      · rw [List.getElem?_eq_none (by omega), List.getElem?_eq_none (by omega)]
        rfl

theorem index_lt (h : UInt64) : indexOf h < m := by
  unfold indexOf m p
  rw [UInt64.toNat_shiftRight]
  have hlt := h.toNat_lt
  have h50 : (50 : UInt64).toNat % 64 = 50 := by decide
  rw [h50, Nat.shiftRight_eq_div_pow]
  omega

theorem rank_ne_zero (h : UInt64) : rankOf h ≠ 0 := Nat.succ_ne_zero _

theorem rank_le (h : UInt64) : rankOf h ≤ q + 1 := Nat.succ_le_succ (Nat.min_le_right _ _)

/-- **A hash taken in.** -/
theorem add_spec (hs : Valid s) (h : UInt64) : ∃ s', s.add h = some s' ∧ Valid s' ∧
    ∀ i, s'.at_ i = if i = indexOf h then max (s.at_ i) (rankOf h) else s.at_ i :=
  set_spec hs (index_lt h) (rank_ne_zero h) (rank_le h)

theorem bump_of_lt {counts : List Nat} {k : Nat} (h : k < counts.length) :
    ∃ c', bump counts k = some c' ∧ c'.length = counts.length := by
  refine ⟨counts.set k (counts[k] + 1), ?_, List.length_set⟩
  unfold bump
  rw [List.getElem?_eq_getElem h]
  exact store_of_lt h _

theorem foldlM_bump {c : List Nat} {rank : Nat → Nat} {l : List Nat}
    (h : ∀ e ∈ l, rank e < c.length) :
    ∃ c', l.foldlM (fun c e => bump c (rank e)) c = some c' := by
  induction l generalizing c with
  | nil => exact ⟨c, rfl⟩
  | cons e l ih =>
    obtain ⟨c₁, hc₁, hlen⟩ := bump_of_lt (h e List.mem_cons_self)
    obtain ⟨c', hc'⟩ := ih (c := c₁) fun d hd => by
      rw [hlen]
      exact h d (List.mem_cons_of_mem e hd)
    refine ⟨c', ?_⟩
    rw [List.foldlM_cons, hc₁]
    exact hc'

/-- Entries that ascend are no more than registers. -/
theorem length_le_of_ascends (hv : Ascends v) {n : Nat} (h : ∀ e ∈ v, indexAt e < n) :
    v.length ≤ n := by
  have hnodup : (v.map indexAt).Nodup := List.pairwise_map.mpr (hv.imp Nat.ne_of_lt)
  have hsub : v.map indexAt ⊆ List.range n := by
    intro i hi
    obtain ⟨e, he, rfl⟩ := List.mem_map.mp hi
    exact List.mem_range.mpr (h e he)
  have hle := (hnodup.subperm hsub).length_le
  rwa [List.length_map, List.length_range] at hle

/-- **The ranks of a sketch are counted.** -/
theorem counts_spec (hs : Valid s) : ∃ c, s.counts = some c := by
  cases s with
  | sparse v =>
    obtain ⟨hv, hin⟩ := hs
    unfold counts
    dsimp only
    rw [if_pos (length_le_of_ascends hv fun e he => (hin e he).1)]
    refine foldlM_bump fun e he => ?_
    rw [List.length_set, List.length_replicate]
    have := (hin e he).2.2
    omega
  | dense r =>
    have hlt : ∀ x ∈ r, id x < (List.replicate (q + 2) 0).length := by
      intro x hx
      rw [List.length_replicate]
      have := hs.2 x hx
      dsimp only [id]
      omega
    exact foldlM_bump hlt

end Valid

/-! ## 4. Sketches that were made -/

section Settled

variable {s t u : Sketch} {v r : List Nat} {h : UInt64} {i : Nat}

/-- The registers that are set. -/
def occupied (s : Sketch) : Finset Nat := (Finset.range m).filter fun i => s.at_ i ≠ 0

/-- **A sketch that was made**: what it is kept as is told by how many registers are set. -/
def Settled (s : Sketch) : Prop := Valid s ∧
  match s with
  | .sparse v => v.length ≤ sparseMost
  | .dense _ => sparseMost < (occupied s).card

theorem occupied_mono (h : ∀ i, s.at_ i ≤ t.at_ i) : occupied s ⊆ occupied t := by
  intro i hi
  obtain ⟨hm, hne⟩ := Finset.mem_filter.mp hi
  refine Finset.mem_filter.mpr ⟨hm, ?_⟩
  have := h i
  omega

/-- A sparse sketch has an entry a register that is set. -/
theorem card_occupied (h : Valid (.sparse v)) : (occupied (.sparse v)).card = v.length := by
  obtain ⟨hv, hin⟩ := h
  have hmap : occupied (.sparse v) = (v.map indexAt).toFinset := by
    ext i
    unfold occupied
    rw [Finset.mem_filter, Finset.mem_range, List.mem_toFinset, List.mem_map]
    constructor
    · rintro ⟨-, hne⟩
      obtain ⟨e, he, hi, -⟩ := exists_of_lookup_ne_zero hne
      exact ⟨e, he, hi⟩
    · rintro ⟨e, he, rfl⟩
      refine ⟨(hin e he).1, ?_⟩
      change lookup v (indexAt e) ≠ 0
      rw [lookup_of_mem hv he]
      exact (hin e he).2.1
  have hnodup : (v.map indexAt).Nodup := List.pairwise_map.mpr (hv.imp Nat.ne_of_lt)
  rw [hmap, List.toFinset_card_of_nodup hnodup, List.length_map]

theorem settled_new : Settled new :=
  ⟨⟨List.Pairwise.nil, fun _ he => absurd he List.not_mem_nil⟩, Nat.zero_le _⟩

/-- A register set keeps a sketch as the registers that are set say. -/
theorem settled_set {index rank : Nat} (hs : Settled s) (hindex : index < m) (hrank : rank ≠ 0)
    (hmost : rank ≤ q + 1) {s' : Sketch} (hset : s.set index rank = some s') : Settled s' := by
  obtain ⟨hvalid, hkept⟩ := hs
  obtain ⟨s₁, hset₁, hvalid', hat⟩ := set_spec hvalid hindex hrank hmost
  obtain rfl := Option.some.inj (hset₁.symm.trans hset)
  refine ⟨hvalid', ?_⟩
  have hle : ∀ i, s.at_ i ≤ s₁.at_ i := by
    intro i
    rw [hat]
    split
    · exact Nat.le_max_left _ _
    · exact Nat.le_refl _
  cases s with
  | dense r =>
    -- all registers are there, and more are set
    have hd : ∃ r', s₁ = .dense r' := by
      unfold set at hset
      obtain ⟨x, -, hx⟩ := Option.bind_eq_some_iff.mp hset
      obtain ⟨r', -, hr'⟩ := Option.map_eq_some_iff.mp hx
      exact ⟨r', hr'.symm⟩
    obtain ⟨r', rfl⟩ := hd
    exact Nat.lt_of_lt_of_le hkept (Finset.card_le_card (occupied_mono hle))
  | sparse v =>
    unfold set at hset
    dsimp only at hset
    split at hset
    · next hlong =>
      -- the entries are as many as the registers that are set
      obtain ⟨r', hr', rfl⟩ := Option.map_eq_some_iff.mp hset
      have hplace := valid_place hvalid hindex hrank hmost
      have hsame : occupied (.sparse (place index rank v)) = occupied (.dense r') := by
        unfold occupied
        refine Finset.filter_congr fun i _ => ?_
        obtain ⟨r₂, hr₂, -, -, hget⟩ := densify_spec hplace
        obtain rfl := Option.some.inj (hr₂.symm.trans hr')
        rw [← hget]
        rfl
      change sparseMost < (occupied (.dense r')).card
      rw [← hsame, card_occupied hplace]
      exact hlong
    · next hshort =>
      obtain rfl := Option.some.inj hset
      exact Nat.le_of_not_lt hshort

theorem settled_add (hs : Settled s) {s' : Sketch} (hadd : s.add h = some s') : Settled s' :=
  settled_set hs (index_lt h) (rank_ne_zero h) (rank_le h) hadd

theorem settled_foldlM {w : List Nat} (hs : Settled s)
    (hw : ∀ e ∈ w, indexAt e < m ∧ rankAt e ≠ 0 ∧ rankAt e ≤ q + 1)
    (h : w.foldlM (fun s e => s.set (indexAt e) (rankAt e)) s = some u) : Settled u := by
  induction w generalizing s with
  | nil =>
    obtain rfl := Option.some.inj h
    exact hs
  | cons e w ih =>
    rw [List.foldlM_cons] at h
    obtain ⟨s', hset, h⟩ := Option.bind_eq_some_iff.mp h
    obtain ⟨hindex, hrank, hmost⟩ := hw e List.mem_cons_self
    exact ih (settled_set hs hindex hrank hmost hset)
      (fun d hd => hw d (List.mem_cons_of_mem e hd)) h

theorem settled_merge (hs : Settled s) (ht : Settled t) (h : s.merge t = some u) : Settled u := by
  cases t with
  | sparse w => exact settled_foldlM hs ht.1.2 h
  | dense o =>
    obtain ⟨u', hu', hvalid, hat⟩ := merge_spec hs.1 ht.1
    obtain rfl := Option.some.inj (hu'.symm.trans h)
    have hle : ∀ i, (dense o).at_ i ≤ u'.at_ i := fun i => by
      rw [hat]
      exact Nat.le_max_right _ _
    obtain ⟨r, hr⟩ : ∃ r, u' = .dense r := by
      obtain ⟨r, -, hr⟩ := Option.bind_eq_some_iff.mp h
      exact ⟨_, (Option.some.inj hr).symm⟩
    refine ⟨hvalid, ?_⟩
    rw [hr] at hle ⊢
    exact Nat.lt_of_lt_of_le ht.2 (Finset.card_le_card (occupied_mono hle))

/-- **Two sketches that were made are one where their registers are.** -/
theorem ext_of_at (hs : Settled s) (ht : Settled t) (h : ∀ i, s.at_ i = t.at_ i) : s = t := by
  have hsame : occupied s = occupied t := by
    unfold occupied
    simp only [h]
  obtain ⟨hsv, hs⟩ := hs
  obtain ⟨htv, ht⟩ := ht
  cases s with
  | sparse v =>
    cases t with
    | sparse w =>
      exact congrArg sparse (entries_ext hsv.1 htv.1 (fun e he => (hsv.2 e he).2.1)
        (fun e he => (htv.2 e he).2.1) h)
    | dense o =>
      have hcard := card_occupied hsv
      change v.length ≤ sparseMost at hs
      change sparseMost < (occupied (dense o)).card at ht
      rw [hsame] at hcard
      omega
  | dense r =>
    cases t with
    | sparse w =>
      have hcard := card_occupied htv
      change sparseMost < (occupied (dense r)).card at hs
      change w.length ≤ sparseMost at ht
      rw [← hsame] at hcard
      omega
    | dense o =>
      refine congrArg dense (List.ext_getElem (hsv.1.trans htv.1.symm) fun i hi hi' => ?_)
      have hget : r.getD i 0 = o.getD i 0 := h i
      rwa [List.getD_eq_getElem?_getD, List.getD_eq_getElem?_getD, List.getElem?_eq_getElem hi,
        List.getElem?_eq_getElem hi'] at hget

end Settled

/-! ## 5. Sketches read back -/

section Bytes

variable {s : Sketch} {v r : List Nat} {b : List UInt8}

/-- The last entry's register is below the next one's. -/
def Follows (last : Option Nat) (v : List Nat) : Prop :=
  ∀ l ∈ last, ∀ e ∈ v, indexAt l < indexAt e

theorem entriesOf_bytes {last : Option Nat} (hv : Ascends v)
    (hin : ∀ e ∈ v, indexAt e < m ∧ rankAt e ≠ 0 ∧ rankAt e ≤ q + 1) (hlast : Follows last v) :
    entriesOf last (v.flatMap entryBytes) = .ok v := by
  induction v generalizing last with
  | nil => rfl
  | cons e v ih =>
    obtain ⟨he, hrest⟩ := List.pairwise_cons.mp hv
    obtain ⟨hindex, hrank, hmost⟩ := hin e List.mem_cons_self
    have hword : (UInt8.ofNat (indexAt e)).toNat + 256 * (UInt8.ofNat (indexAt e / 256)).toNat =
        indexAt e := by
      rw [UInt8.toNat_ofNat', UInt8.toNat_ofNat']
      unfold m p at hindex
      omega
    have hbyte : (UInt8.ofNat e).toNat = rankAt e := UInt8.toNat_ofNat'
    have hnot : ¬ (m ≤ indexAt e ∨ rankAt e = 0 ∨ q + 1 < rankAt e ∨
        last.any (fun l => decide (indexAt e ≤ indexAt l)) = true) := by
      rintro (h | h | h | h)
      · omega
      · exact hrank h
      · omega
      · cases last with
        | none => cases h
        | some l =>
          have hlt := hlast l rfl e List.mem_cons_self
          have hle : indexAt e ≤ indexAt l := of_decide_eq_true h
          omega
    have hnext : Follows (some (entry (indexAt e) (rankAt e))) v := by
      intro l hl d hd
      obtain rfl := Option.some.inj hl
      rw [entry_indexAt]
      exact he d hd
    rw [List.flatMap_cons]
    change entriesOf last (UInt8.ofNat (indexAt e) :: UInt8.ofNat (indexAt e / 256) ::
      UInt8.ofNat e :: v.flatMap entryBytes) = _
    rw [entriesOf, hword, hbyte, if_neg hnot,
      ih hrest (fun d hd => hin d (List.mem_cons_of_mem e hd)) hnext, entry_indexAt]
    rfl

theorem length_entryBytes (v : List Nat) : (v.flatMap entryBytes).length % 3 = 0 := by
  induction v with
  | nil => rfl
  | cons e v ih =>
    have hthree : (entryBytes e).length = 3 := rfl
    rw [List.flatMap_cons, List.length_append, hthree]
    omega

/-- **A sketch's bytes are read back as the sketch.** -/
theorem fromBytes_toBytes (hs : Valid s) : fromBytes s.toBytes = .ok s := by
  cases s with
  | sparse v =>
    obtain ⟨hv, hin⟩ := hs
    have hnone : Follows none v := fun l hl => absurd hl (Option.not_mem_none l)
    rw [toBytes, fromBytes, if_neg fun h => absurd h.1 (by decide),
      if_pos ⟨rfl, rfl, length_entryBytes v⟩, entriesOf_bytes hv hin hnone]
    rfl
  | dense r =>
    obtain ⟨hlen, hr⟩ := hs
    have hbyte : ∀ x ∈ r, (UInt8.ofNat x).toNat = x := by
      intro x hx
      rw [UInt8.toNat_ofNat']
      exact Nat.mod_eq_of_lt (lt_of_le_most (hr x hx))
    have hmost : ¬ (r.map UInt8.ofNat).any (fun x => decide (q + 1 < x.toNat)) = true := by
      intro hany
      obtain ⟨y, hy, hlt⟩ := List.any_eq_true.mp hany
      obtain ⟨x, hx, rfl⟩ := List.mem_map.mp hy
      have hle := hr x hx
      have := of_decide_eq_true hlt
      rw [hbyte x hx] at this
      omega
    have hlen' : (r.map UInt8.ofNat).length = m := (List.length_map _).trans hlen
    rw [toBytes, fromBytes, if_pos ⟨rfl, rfl, hlen'⟩, if_neg hmost, List.map_map]
    refine congrArg (fun r => Except.ok (dense r)) ?_
    conv_rhs => rw [← List.map_id r]
    exact List.map_congr_left fun x hx => hbyte x hx

theorem entriesOf_valid {last : Option Nat} (h : entriesOf last b = .ok v) :
    Ascends v ∧ Follows last v ∧ ∀ e ∈ v, indexAt e < m ∧ rankAt e ≠ 0 ∧ rankAt e ≤ q + 1 := by
  induction last, b using entriesOf.induct generalizing v with
  | case1 =>
    rename_i hbad
    rw [entriesOf, if_pos hbad] at h
    cases h
  | case2 =>
    rename_i last x y z rest index rank hok ih
    rw [entriesOf, if_neg hok] at h
    cases hrest : entriesOf (some (entry index rank)) rest with
    | error err =>
      rw [hrest] at h
      cases h
    | ok w =>
      rw [hrest] at h
      obtain rfl := Except.ok.inj h
      obtain ⟨hw, hfollows, hin⟩ := ih hrest
      have hindex : index < m := by
        by_contra hm
        exact hok (.inl (Nat.le_of_not_lt hm))
      have hrank : rank ≠ 0 := fun hz => hok (.inr (.inl hz))
      have hmost : rank ≤ q + 1 := by
        by_contra hm
        exact hok (.inr (.inr (.inl (Nat.lt_of_not_le hm))))
      have hbyte := lt_of_le_most hmost
      have hself : indexAt (entry index rank) = index := indexAt_entry hbyte
      refine ⟨List.pairwise_cons.mpr ⟨fun e he => hfollows _ rfl e he, hw⟩, ?_, ?_⟩
      · intro l hl e he
        have hlt : indexAt l < index := by
          by_contra hge
          refine hok (.inr (.inr (.inr ?_)))
          obtain rfl : last = some l := hl
          exact decide_eq_true (Nat.le_of_not_lt hge)
        rcases List.mem_cons.mp he with rfl | he
        · rw [hself]
          exact hlt
        · have := hfollows _ rfl e he
          rw [hself] at this
          exact Nat.lt_trans hlt this
      · intro e he
        rcases List.mem_cons.mp he with rfl | he
        · rw [hself, rankAt_entry hbyte]
          exact ⟨hindex, hrank, hmost⟩
        · exact hin e he
  | case3 last =>
    rw [entriesOf] at h
    obtain rfl := Except.ok.inj h
    exact ⟨List.Pairwise.nil, fun _ _ _ he => absurd he List.not_mem_nil,
      fun _ he => absurd he List.not_mem_nil⟩
  | case4 last b hlong hne =>
    rw [entriesOf] at h
    · cases h
    · exact hlong
    · exact hne

/-- **Bytes that are read are a sketch's.** -/
theorem valid_fromBytes (h : fromBytes b = .ok s) : Valid s := by
  unfold fromBytes at h
  split at h
  · next t n r =>
    split at h
    · next hdense =>
      split at h
      · cases h
      · next hmost =>
        obtain rfl := Except.ok.inj h
        refine ⟨(List.length_map _).trans hdense.2.2, fun x hx => ?_⟩
        obtain ⟨y, hy, rfl⟩ := List.mem_map.mp hx
        by_contra hgt
        exact hmost (List.any_eq_true.mpr ⟨y, hy, decide_eq_true (Nat.lt_of_not_le hgt)⟩)
    · split at h
      · cases hentries : entriesOf none r with
        | error err =>
          rw [hentries] at h
          cases h
        | ok v =>
          rw [hentries] at h
          obtain rfl := Except.ok.inj h
          obtain ⟨hv, -, hin⟩ := entriesOf_valid hentries
          exact ⟨hv, hin⟩
      · cases h
  · cases h

end Bytes

/-! ## 6. Sketches that were made -/

/-- The greatest rank of the hashes of a register. -/
def greatest (hs : Finset UInt64) (i : Nat) : Nat := (hs.filter fun h => indexOf h = i).sup rankOf

/-- **The sketches that are made of a set of hashes**: of none, of one more taken in, of two merged,
and any of them read back from its bytes. -/
inductive Made : Finset UInt64 → Sketch → Prop where
  | new : Made ∅ new
  | add {hs s s'} (h : UInt64) : Made hs s → s.add h = some s' → Made (insert h hs) s'
  | merge {hs ks s t u} : Made hs s → Made ks t → s.merge t = some u → Made (hs ∪ ks) u
  | bytes {hs s s'} : Made hs s → fromBytes s.toBytes = .ok s' → Made hs s'

/-- **The sketches there may be**: those that are made, and those read from whatever bytes are
accepted, and what comes of taking hashes in and merging from there on. -/
inductive Held : Sketch → Prop where
  | new : Held new
  | read {b s} : fromBytes b = .ok s → Held s
  | add {s s'} (h : UInt64) : Held s → s.add h = some s' → Held s'
  | merge {s t u} : Held s → Held t → s.merge t = some u → Held u

section Made

variable {hs ks ls : Finset UInt64} {s s' t u : Sketch}

theorem greatest_insert (h : UInt64) (hs : Finset UInt64) (i : Nat) : greatest (insert h hs) i =
    if i = indexOf h then max (greatest hs i) (rankOf h) else greatest hs i := by
  unfold greatest
  rw [Finset.filter_insert]
  by_cases hi : indexOf h = i
  · rw [if_pos hi, if_pos hi.symm, Finset.sup_insert, sup_comm]
  · rw [if_neg hi, if_neg (Ne.symm hi)]

theorem greatest_union (hs ks : Finset UInt64) (i : Nat) :
    greatest (hs ∪ ks) i = max (greatest hs i) (greatest ks i) := by
  unfold greatest
  rw [Finset.filter_union, Finset.sup_union]

/-- **The registers of a sketch that was made are the greatest ranks of its hashes.** -/
theorem made_at (h : Made hs s) : Settled s ∧ ∀ i, s.at_ i = greatest hs i := by
  induction h with
  | new => exact ⟨settled_new, fun _ => rfl⟩
  | add h _ hadd ih =>
    obtain ⟨hsettled, hat⟩ := ih
    obtain ⟨s₁, hs₁, -, hmax⟩ := add_spec hsettled.1 h
    obtain rfl := Option.some.inj (hs₁.symm.trans hadd)
    refine ⟨settled_add hsettled hadd, fun i => ?_⟩
    rw [hmax, hat, greatest_insert]
  | merge _ _ hmerge ihs iht =>
    obtain ⟨hsettled, hat⟩ := ihs
    obtain ⟨htsettled, hat'⟩ := iht
    obtain ⟨u₁, hu₁, -, hmax⟩ := merge_spec hsettled.1 htsettled.1
    obtain rfl := Option.some.inj (hu₁.symm.trans hmerge)
    refine ⟨settled_merge hsettled htsettled hmerge, fun i => ?_⟩
    rw [hmax, hat, hat', greatest_union]
  | bytes _ hread ih =>
    rw [fromBytes_toBytes ih.1.1] at hread
    obtain rfl := Except.ok.inj hread
    exact ih

/-- **Two sketches made of one set are one.** -/
theorem made_eq (h : Made hs s) (h' : Made hs s') : s = s' := by
  obtain ⟨hs₁, hat₁⟩ := made_at h
  obtain ⟨hs₂, hat₂⟩ := made_at h'
  exact ext_of_at hs₁ hs₂ fun i => (hat₁ i).trans (hat₂ i).symm

theorem made_add (h : Made hs s) (x : UInt64) : ∃ s', s.add x = some s' ∧ Made (insert x hs) s' := by
  obtain ⟨s', hs', -⟩ := add_spec (made_at h).1.1 x
  exact ⟨s', hs', .add x h hs'⟩

theorem made_merge (h : Made hs s) (h' : Made ks t) :
    ∃ u, s.merge t = some u ∧ Made (hs ∪ ks) u := by
  obtain ⟨u, hu, -⟩ := merge_spec (made_at h).1.1 (made_at h').1.1
  exact ⟨u, hu, .merge h h' hu⟩

theorem held_valid (h : Held s) : Valid s := by
  induction h with
  | new => exact settled_new.1
  | read hread => exact valid_fromBytes hread
  | add x _ hadd ih =>
    obtain ⟨s₁, hs₁, hvalid, -⟩ := add_spec ih x
    obtain rfl := Option.some.inj (hs₁.symm.trans hadd)
    exact hvalid
  | merge _ _ hmerge ihs iht =>
    obtain ⟨u₁, hu₁, hvalid, -⟩ := merge_spec ihs iht
    obtain rfl := Option.some.inj (hu₁.symm.trans hmerge)
    exact hvalid

/-- **A sketch is of the set of values it took in**: however they are taken in, in whatever order, how
often, in sketches merged in whatever tree, read back at any point, there is one sketch of them, whose
registers hold the greatest ranks; merging is commutative, associative and idempotent; a sketch's
bytes are read back as it is; and no sketch, not one of bytes from anywhere that are accepted, puts a
hash, another sketch or a count out of range. -/
theorem sketch_of_set :
    (∀ hs s, Made hs s → (∀ i, s.at_ i = greatest hs i) ∧
      (∀ s', Made hs s' → s' = s ∧ s'.toBytes = s.toBytes) ∧ fromBytes s.toBytes = .ok s ∧
      (∀ h, ∃ s', s.add h = some s' ∧ Made (insert h hs) s') ∧ s.merge s = some s ∧
      ∀ ks t, Made ks t → (∃ u, s.merge t = some u ∧ Made (hs ∪ ks) u) ∧
        s.merge t = t.merge s ∧
        ∀ ls u, Made ls u → ((s.merge t).bind fun x => x.merge u) =
          (t.merge u).bind fun x => s.merge x) ∧
    ∀ s, Held s → (∀ h, (s.add h).isSome) ∧ (∀ t, Held t → (s.merge t).isSome) ∧
      s.counts.isSome := by
  refine ⟨fun hs s h => ⟨(made_at h).2, ?_, fromBytes_toBytes (made_at h).1.1, made_add h, ?_,
    fun ks t ht => ⟨made_merge h ht, ?_, fun ls u hu => ?_⟩⟩, fun s h => ⟨fun x => ?_, fun t ht => ?_, ?_⟩⟩
  · intro s' h'
    obtain rfl := made_eq h' h
    exact ⟨rfl, rfl⟩
  · obtain ⟨u, hu, hmade⟩ := made_merge h h
    rw [Finset.union_idempotent] at hmade
    rw [hu, made_eq hmade h]
  · obtain ⟨u, hu, hmade⟩ := made_merge h ht
    obtain ⟨u', hu', hmade'⟩ := made_merge ht h
    rw [Finset.union_comm] at hmade'
    rw [hu, hu', made_eq hmade hmade']
  · obtain ⟨a, ha, hmade⟩ := made_merge h ht
    obtain ⟨b, hb, hmade'⟩ := made_merge ht hu
    obtain ⟨c, hc, hleft⟩ := made_merge hmade hu
    obtain ⟨d, hd, hright⟩ := made_merge h hmade'
    rw [← Finset.union_assoc] at hright
    rw [ha, hb]
    change a.merge u = s.merge b
    rw [hc, hd, made_eq hleft hright]
  · obtain ⟨s', hs', -⟩ := add_spec (held_valid h) x
    rw [hs']
    rfl
  · obtain ⟨u, hu, -⟩ := merge_spec (held_valid h) (held_valid ht)
    rw [hu]
    rfl
  · obtain ⟨c, hc⟩ := counts_spec (held_valid h)
    rw [hc]
    rfl

end Made

end Sketch

end Fenec.Hll
