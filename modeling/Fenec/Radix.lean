/-
# The radix sort of an index's entries

`radix_sort` sorts entries, each a key and an id of 64 bits, by their sixteen bytes, the id's lowest
first.  A pass over a byte counts how often each of its values comes, starts each value where those
before it end and puts the entries there as they come, into a spare vector that then changes places
with the entries.  A byte that all entries share is passed over, and so are the id's bytes where the
entries came in the order of their ids.

An entry is a number of sixteen digits (`number`).  Before each pass the entries are in the order of
the digits passed (`Passed`): a pass puts them in the order of one more, since it is stable, and
where it is skipped they already are.
-/
import Fenec.Lib.Counting
import Mathlib.Tactic.IntervalCases

namespace Fenec.Radix

open Lib

/-! ## 1. The code -/

/-- An entry: its key and its id. -/
abbrev Entry := UInt64 × UInt64

/-- `is_sorted`, by a comparison of neighbours. -/
def isSorted {α : Type} (le : α → α → Bool) : List α → Bool
  | [] => true
  | [_] => true
  | a :: b :: l => le a b && isSorted le (b :: l)

/-- Two entries in order. -/
def le (a b : Entry) : Bool := a.1 < b.1 || (a.1 == b.1 && a.2 ≤ b.2)

/-- A byte of a word, the lowest first. -/
def byte (x : UInt64) (b : Nat) : Nat := (x >>> UInt64.ofNat (8 * b)).toUInt8.toNat

/-- The byte a pass is over: the id's in turn, then the key's. -/
def digit (pass : Nat) (e : Entry) : Nat := byte (if pass < 8 then e.2 else e.1) (pass % 8)

/-- A value counted. -/
def bump (counts : List (List Nat)) (pass b : Nat) : List (List Nat) :=
  counts.modify pass fun count => count.modify b (· + 1)

/-- The bytes of an entry counted. -/
def countEntry (counts : List (List Nat)) (e : Entry) : List (List Nat) :=
  (List.range 8).foldl
    (fun counts b => bump (bump counts b (byte e.2 b)) (8 + b) (byte e.1 b)) counts

/-- Where each value starts: after those before it. -/
def starts : List Nat → Nat → List Nat
  | [], _ => []
  | c :: count, sum => sum :: starts count (sum + c)

/-- A pass over the entries, which change places with the spare vector. -/
def pass (byId : Bool) (n : Nat) (s : List Entry × List Entry) (count : List Nat × Nat) :
    List Entry × List Entry :=
  if count.1.contains n || (byId && count.2 < 8) then s
  else ((s.1.foldl (scatter (digit count.2)) (starts count.1 0, s.2)).2, s.1)

/-- **`radix_sort`**. -/
def radixSort (v : List Entry) : List Entry :=
  if isSorted le v then v
  else
    let byId := isSorted (fun a b : Entry => a.2 ≤ b.2) v
    let counts := v.foldl countEntry (List.replicate 16 (List.replicate 256 0))
    (counts.zipIdx.foldl (pass byId v.length) (v, List.replicate v.length (0, 0))).1

/-! ## 2. Entries as numbers -/

/-- An entry as a number of sixteen digits. -/
def number (e : Entry) : Nat := e.1.toNat * 2 ^ 64 + e.2.toNat

theorem byte_eq (x : UInt64) {b : Nat} (hb : b < 8) : byte x b = x.toNat / 256 ^ b % 256 := by
  have hpow : 256 ^ b = 2 ^ (8 * b) := by rw [Nat.pow_mul]
  have hshift : (UInt64.ofNat (8 * b)).toNat % 64 = 8 * b := by
    rw [UInt64.toNat_ofNat', Nat.mod_eq_of_lt (by omega), Nat.mod_eq_of_lt (by omega)]
  rw [byte, UInt64.toNat_toUInt8, UInt64.toNat_shiftRight, hshift, Nat.shiftRight_eq_div_pow, hpow]

/-- **A pass's byte is the number's digit.** -/
theorem digit_eq {p : Nat} (hp : p < 16) (e : Entry) : digit p e = number e / 256 ^ p % 256 := by
  have hid := e.2.toNat_lt
  unfold digit number
  rw [byte_eq _ (Nat.mod_lt p (by omega))]
  interval_cases p <;> simp <;> omega

theorem digit_lt (p : Nat) (e : Entry) : digit p e < 256 := UInt8.toNat_lt _

theorem number_lt (e : Entry) : number e < 256 ^ 16 := by
  have hkey := e.1.toNat_lt
  have hid := e.2.toNat_lt
  unfold number
  omega

theorem number_le {a b : Entry} : number a ≤ number b ↔ a.1 < b.1 ∨ a.1 = b.1 ∧ a.2 ≤ b.2 := by
  have ha := a.2.toNat_lt
  have hb := b.2.toNat_lt
  rw [UInt64.lt_iff_toNat_lt, ← UInt64.toNat_inj, UInt64.le_iff_toNat_le]
  unfold number
  omega

/-- One digit more. -/
theorem number_mod_le {p : Nat} (hp : p < 16) {a b : Entry}
    (h : digit p a < digit p b ∨
      digit p a = digit p b ∧ number a % 256 ^ p ≤ number b % 256 ^ p) :
    number a % 256 ^ (p + 1) ≤ number b % 256 ^ (p + 1) := by
  rw [digit_eq hp, digit_eq hp] at h
  rw [Nat.mod_pow_succ, Nat.mod_pow_succ]
  generalize hx : number a / 256 ^ p % 256 = x at h
  generalize hy : number b / 256 ^ p % 256 = y at h
  rcases h with hlt | ⟨rfl, hle⟩
  · have hmod : number a % 256 ^ p < 256 ^ p := Nat.mod_lt _ (Nat.pow_pos (by omega))
    have hmul : 256 ^ p * (x + 1) ≤ 256 ^ p * y := Nat.mul_le_mul_left _ hlt
    rw [Nat.mul_succ] at hmul
    omega
  · omega

/-! ## 3. What is counted -/

/-- How often each value of each byte comes. -/
def tallies (v : List Entry) : List (List Nat) :=
  (List.range 16).map fun p => (List.range 256).map (counted (digit p) v)

theorem starts_get (count : List Nat) (sum b : Nat) (hb : b < count.length) :
    (starts count sum)[b]? = some (sum + (count.take b).sum) := by
  induction count generalizing sum b with
  | nil => exact absurd hb (Nat.not_lt_zero b)
  | cons c count ih =>
    rw [starts]
    cases b with
    | zero => rfl
    | succ b =>
      rw [List.getElem?_cons_succ, ih (sum + c) b (Nat.lt_of_succ_lt_succ hb), List.take_succ_cons,
        List.sum_cons, Nat.add_assoc]

/-- **Each value starts where those before it end.** -/
theorem starts_counted (key : Entry → Nat) (v : List Entry) {m b : Nat} (hb : b < m) :
    (starts ((List.range m).map (counted key v)) 0)[b]? = some (classStart key v b) := by
  have hsum : ∀ b, ((List.range b).map (counted key v)).sum = classStart key v b := by
    intro b
    induction b with
    | zero => rfl
    | succ b ih =>
      rw [List.range_succ, List.map_append, List.sum_append, ih, classStart_succ,
        List.map_singleton, List.sum_singleton]
  rw [starts_get _ 0 b (by rwa [List.length_map, List.length_range]), ← List.map_take,
    List.take_range, Nat.min_eq_left (Nat.le_of_lt hb), hsum, Nat.zero_add]

theorem tallies_get (v : List Entry) (p : Nat) :
    (tallies v)[p]? =
      if p < 16 then some ((List.range 256).map (counted (digit p) v)) else none := by
  rw [tallies, List.getElem?_map]
  by_cases hp : p < 16
  · rw [if_pos hp, List.getElem?_range hp, Option.map_some]
  · rw [if_neg hp, List.getElem?_eq_none (by rw [List.length_range]; omega), Option.map_none]

/-- A value counted once more. -/
theorem counted_modify (p : Nat) (v : List Entry) (e : Entry) :
    ((List.range 256).map (counted (digit p) v)).modify (digit p e) (· + 1) =
      (List.range 256).map (counted (digit p) (v ++ [e])) := by
  apply List.ext_getElem?
  intro b
  rw [List.getElem?_modify, List.getElem?_map, List.getElem?_map]
  by_cases hb : b < 256
  · rw [List.getElem?_range hb, Option.map_some, Option.map_some, counted_append,
      counted_singleton, Option.map_eq_map, Option.map_some]
    by_cases hd : digit p e = b
    · rw [if_pos hd, if_pos hd]
    · rw [if_neg hd, if_neg hd, Nat.add_zero]
  · rw [List.getElem?_eq_none (by rw [List.length_range]; omega)]
    rfl

/-- **An entry's bytes counted**, each in its pass. -/
theorem countEntry_tallies (v : List Entry) (e : Entry) :
    countEntry (tallies v) e = tallies (v ++ [e]) := by
  -- the passes over the first bytes of either word have counted theirs
  have hloop : ∀ k ≤ 8, ∀ p, ((List.range k).foldl (fun counts b =>
      bump (bump counts b (byte e.2 b)) (8 + b) (byte e.1 b)) (tallies v))[p]? =
        if p < k ∨ 8 ≤ p ∧ p < 8 + k then (tallies (v ++ [e]))[p]? else (tallies v)[p]? := by
    intro k
    induction k with
    | zero =>
      intro _ p
      rw [if_neg (by omega)]
      rfl
    | succ k ih =>
      intro hk p
      rw [List.range_succ, List.foldl_append, List.foldl_cons, List.foldl_nil, bump, bump,
        List.getElem?_modify, List.getElem?_modify, ih (by omega)]
      have hid : digit k e = byte e.2 k := by
        rw [digit, if_pos (by omega), Nat.mod_eq_of_lt (by omega)]
      have hkey : digit (8 + k) e = byte e.1 k := by
        have hmod : (8 + k) % 8 = k := by omega
        rw [digit, if_neg (by omega), hmod]
      by_cases hpk : p = k
      · subst hpk
        rw [if_neg (by omega), if_pos (by omega), tallies_get, tallies_get, if_pos (by omega),
          if_pos (by omega), ← counted_modify, hid]
        simp
      · by_cases hpk' : p = 8 + k
        · subst hpk'
          rw [if_neg (by omega), if_pos (by omega), tallies_get, tallies_get, if_pos (by omega),
            if_pos (by omega), ← counted_modify, hkey]
          simp
        · have hiff : (p < k ∨ 8 ≤ p ∧ p < 8 + k) ↔
              (p < k + 1 ∨ 8 ≤ p ∧ p < 8 + (k + 1)) := by omega
          simp [Ne.symm hpk, Ne.symm hpk', hiff]
  apply List.ext_getElem?
  intro p
  rw [countEntry, hloop 8 (Nat.le_refl 8) p]
  by_cases hp : p < 16
  · rw [if_pos (by omega)]
  · rw [tallies_get, tallies_get, if_neg hp, if_neg hp, ite_self]

theorem counts_eq (v : List Entry) :
    v.foldl countEntry (List.replicate 16 (List.replicate 256 0)) = tallies v := by
  have hrun : ∀ (S P : List Entry), S.foldl countEntry (tallies P) = tallies (P ++ S) := by
    intro S
    induction S with
    | nil => intro P; rw [List.append_nil]; rfl
    | cons e S ih =>
      intro P
      rw [List.foldl_cons, countEntry_tallies, ih, List.append_assoc]
      rfl
  have hnone : ∀ p, (List.range 256).map (counted (digit p) []) = List.replicate 256 0 := by
    intro p
    refine List.eq_replicate_iff.mpr ⟨by rw [List.length_map, List.length_range], fun c hc => ?_⟩
    obtain ⟨b, -, rfl⟩ := List.mem_map.mp hc
    rfl
  have hempty : List.replicate 16 (List.replicate 256 0) = tallies [] := by
    rw [tallies, List.map_congr_left fun p _ => hnone p, List.map_const', List.length_range]
  rw [hempty, hrun]
  rfl

/-! ## 4. The passes -/

/-- **Before a pass** the entries are in the order of the digits passed. -/
structure Passed (input : List Entry) (p : Nat) (s : List Entry × List Entry) : Prop where
  perm : s.1.Perm input
  room : s.2.length = input.length
  ordered : s.1.Pairwise fun a b => number a % 256 ^ p ≤ number b % 256 ^ p

variable {input : List Entry} {p : Nat} {s : List Entry × List Entry}

/-- A pass that is made. -/
theorem Passed.gather (h : Passed input p s) (hp : p < 16) :
    Passed input (p + 1)
      ((s.1.foldl (scatter (digit p))
        (starts ((List.range 256).map (counted (digit p) input)) 0, s.2)).2, s.1) := by
  have hcount : counted (digit p) input = counted (digit p) s.1 := by
    funext b
    exact (h.perm.symm.filter _).length_eq
  have hall : ∀ e ∈ s.1, digit p e < 256 := fun e _ => digit_lt p e
  have hnext : ∀ b < 256, (starts ((List.range 256).map (counted (digit p) input)) 0)[b]? =
      some (classStart (digit p) s.1 b) := by
    intro b hb
    rw [hcount]
    exact starts_counted (digit p) s.1 hb
  rw [scattered hall hnext (h.room.trans h.perm.length_eq.symm)]
  have hordered : (gathered (digit p) 256 s.1).Pairwise fun a b =>
      number a % 256 ^ (p + 1) ≤ number b % 256 ^ (p + 1) :=
    (pairwise_gathered h.ordered).imp fun {a b} hab => number_mod_le hp (a := a) (b := b) hab
  exact ⟨(gathered_perm hall).trans h.perm, h.perm.length_eq, hordered⟩

/-- A pass over a byte that all entries share is not needed. -/
theorem Passed.shared (h : Passed input p s) (hp : p < 16)
    (hall : ((List.range 256).map (counted (digit p) input)).contains input.length = true) :
    Passed input (p + 1) s := by
  obtain ⟨b, -, hb⟩ := List.mem_map.mp (List.contains_iff_mem.mp hall)
  have hsame : ∀ e ∈ input, digit p e = b := fun e he =>
    beq_iff_eq.mp (List.length_filter_eq_length_iff.mp hb e he)
  refine ⟨h.perm, h.room, h.ordered.imp_of_mem fun {a c} ha hc hac =>
    number_mod_le hp (Or.inr ⟨?_, hac⟩)⟩
  rw [hsame a (h.perm.mem_iff.mp ha), hsame c (h.perm.mem_iff.mp hc)]

/-- How far the digits are passed before a pass: past the id's at once where its passes are
skipped. -/
def reached (byId : Bool) (p : Nat) : Nat := if byId then max p 8 else p

/-- **A pass**, made or skipped. -/
theorem Passed.pass {byId : Bool} (h : Passed input (reached byId p) s) (hp : p < 16) :
    Passed input (reached byId (p + 1))
      (Radix.pass byId input.length s ((List.range 256).map (counted (digit p) input), p)) := by
  unfold Radix.pass
  dsimp only
  by_cases hid : byId = true ∧ p < 8
  · obtain ⟨rfl, h8⟩ := hid
    rw [decide_eq_true h8, Bool.and_self, Bool.or_true, if_pos rfl]
    have hsame : reached true (p + 1) = reached true p := by
      unfold reached
      rw [if_pos rfl, if_pos rfl]
      omega
    rwa [hsame]
  · have hnot : (byId && decide (p < 8)) = false := by
      rw [Bool.eq_false_iff, ne_eq, Bool.and_eq_true, decide_eq_true_eq]
      exact hid
    have hreached : reached byId p = p ∧ reached byId (p + 1) = p + 1 := by
      unfold reached
      cases byId with
      | false => exact ⟨rfl, rfl⟩
      | true =>
        have h8 : 8 ≤ p := Nat.not_lt.mp fun hlt => hid ⟨rfl, hlt⟩
        exact ⟨Nat.max_eq_left h8, Nat.max_eq_left (Nat.le_succ_of_le h8)⟩
    rw [hreached.1] at h
    rw [hreached.2, hnot, Bool.or_false]
    split
    next hall => exact h.shared hp hall
    · exact h.gather hp

/-- **The passes** one after another. -/
theorem Passed.passes {byId : Bool} (h : Passed input (reached byId 0) s) :
    ∀ k ≤ 16, Passed input (reached byId k)
      (((List.range k).map fun p => ((List.range 256).map (counted (digit p) input), p)).foldl
        (Radix.pass byId input.length) s) := by
  intro k
  induction k with
  | zero => exact fun _ => h
  | succ k ih =>
    intro hk
    rw [List.range_succ (n := k), List.map_append, List.foldl_append]
    exact (ih (by omega)).pass (by omega)

theorem zipIdx_tallies (v : List Entry) : (tallies v).zipIdx =
    (List.range 16).map fun p => ((List.range 256).map (counted (digit p) v), p) := by
  apply List.ext_getElem?
  intro p
  rw [List.getElem?_zipIdx, tallies_get, List.getElem?_map]
  by_cases hp : p < 16
  · rw [if_pos hp, List.getElem?_range hp, Option.map_some, Option.map_some, Nat.zero_add]
  · rw [if_neg hp, List.getElem?_eq_none (by rw [List.length_range]; omega), Option.map_none,
      Option.map_none]

/-- Neighbours in order are all in order. -/
theorem pairwise_of_isSorted {α : Type} {r : α → α → Bool}
    (htrans : ∀ a b c, r a b = true → r b c = true → r a c = true) :
    ∀ {l : List α}, isSorted r l = true → l.Pairwise fun a b => r a b = true
  | [], _ => List.Pairwise.nil
  | [_], _ => List.pairwise_singleton _ _
  | a :: b :: l, h => by
    rw [isSorted, Bool.and_eq_true] at h
    have hrest := pairwise_of_isSorted htrans h.2
    refine List.pairwise_cons.mpr ⟨fun c hc => ?_, hrest⟩
    rcases List.mem_cons.mp hc with rfl | hc
    · exact h.1
    · exact htrans a b c h.1 ((List.pairwise_cons.mp hrest).1 c hc)

/-- **`radix_sort` sorts**: what it leaves is the entries, in the order of their keys and then of
their ids. -/
theorem radix_sort_sorts (v : List Entry) :
    (radixSort v).Perm v ∧
      (radixSort v).Pairwise fun a b => a.1 < b.1 ∨ a.1 = b.1 ∧ a.2 ≤ b.2 := by
  unfold radixSort
  by_cases hsorted : isSorted le v = true
  · rw [if_pos hsorted]
    refine ⟨List.Perm.refl v, ?_⟩
    have hle : ∀ {a b : Entry}, le a b = true ↔ number a ≤ number b := by
      intro a b
      rw [number_le, le, Bool.or_eq_true, Bool.and_eq_true, decide_eq_true_eq, decide_eq_true_eq,
        beq_iff_eq]
    have htrans : ∀ a b c : Entry, le a b = true → le b c = true → le a c = true :=
      fun a b c hab hbc => hle.mpr (Nat.le_trans (hle.mp hab) (hle.mp hbc))
    exact (pairwise_of_isSorted htrans hsorted).imp fun hab => number_le.mp (hle.mp hab)
  · rw [if_neg hsorted]
    dsimp only
    rw [counts_eq, zipIdx_tallies]
    generalize hid : isSorted (fun a b : Entry => decide (a.2 ≤ b.2)) v = byId
    have hstart : Passed v (reached byId 0) (v, List.replicate v.length (0, 0)) := by
      refine ⟨List.Perm.refl v, List.length_replicate, ?_⟩
      cases byId with
      | false => exact List.pairwise_of_forall fun a b => by simp [reached, Nat.mod_one]
      | true =>
        have htrans : ∀ a b c : Entry, decide (a.2 ≤ b.2) = true → decide (b.2 ≤ c.2) = true →
            decide (a.2 ≤ c.2) = true := fun a b c hab hbc =>
          decide_eq_true (UInt64.le_trans (of_decide_eq_true hab) (of_decide_eq_true hbc))
        have hids := pairwise_of_isSorted htrans hid
        refine hids.imp fun {a b} hab => ?_
        have hab' := UInt64.le_iff_toNat_le.mp (of_decide_eq_true hab)
        have ha := a.2.toNat_lt
        have hb := b.2.toNat_lt
        have h8 : reached true 0 = 8 := rfl
        rw [h8, number, number]
        omega
    have hend := hstart.passes 16 (Nat.le_refl 16)
    have hall : reached byId 16 = 16 := by
      cases byId <;> rfl
    rw [hall] at hend
    refine ⟨hend.perm, hend.ordered.imp fun {a b} hab => ?_⟩
    rw [Nat.mod_eq_of_lt (number_lt a), Nat.mod_eq_of_lt (number_lt b)] at hab
    exact number_le.mp hab

example : radixSort [(2, 1), (1, 9), (2, 0)] = [(1, 9), (2, 0), (2, 1)] := by decide +kernel

end Fenec.Radix
