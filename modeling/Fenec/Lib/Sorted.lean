/-
# Entries in order

The entries of an ordered container: a list each of whose entries is below those after it.
Sorting a list with no two equal entries makes such a list (`sorted_mergeSort`).

A range of it is found by two searches, each for the end of the entries a bound is above; what lies
between them is what lies within the bounds (`range_eq_filter`), and the difference of the two
places is how many that is (`countWithin_eq`).
-/
import Fenec.Lib.Filing

namespace Fenec.Lib

/-! ## 1. Predicates that hold of a start -/

section Leads

variable {α : Type} {p q : α → Bool} {l : List α}

/-- A predicate that holds of a start of a list, if of any of it. -/
def Leads (p : α → Bool) (l : List α) : Prop := l.Pairwise fun a b => p b = true → p a = true

/-- Past the first entry it fails at it fails. -/
theorem Leads.false_of_head {a : α} (h : Leads p (a :: l)) (ha : p a = false) :
    ∀ b ∈ a :: l, p b = false := by
  intro b hb
  rcases List.mem_cons.mp hb with rfl | hb
  · exact ha
  · cases hpb : p b with
    | false => rfl
    | true => rw [(List.pairwise_cons.mp h).1 b hb hpb] at ha; cases ha

theorem Leads.takeWhile_eq (h : Leads p l) : l.takeWhile p = l.filter p := by
  induction l with
  | nil => rfl
  | cons a l ih =>
    cases ha : p a with
    | true =>
      rw [List.takeWhile_cons_of_pos ha, List.filter_cons_of_pos ha,
        ih (List.pairwise_cons.mp h).2]
    | false =>
      have hnone := h.false_of_head ha
      rw [List.takeWhile_cons_of_neg (by simp [ha]), List.filter_eq_nil_iff.mpr]
      intro b hb
      simp [hnone b hb]

theorem Leads.dropWhile_eq (h : Leads p l) : l.dropWhile p = l.filter (!p ·) := by
  induction l with
  | nil => rfl
  | cons a l ih =>
    cases ha : p a with
    | true =>
      rw [List.dropWhile_cons_of_pos ha, List.filter_cons_of_neg (by simp [ha]),
        ih (List.pairwise_cons.mp h).2]
    | false =>
      have hnone := h.false_of_head ha
      rw [List.dropWhile_cons_of_neg (by simp [ha]), List.filter_eq_self.mpr]
      intro b hb
      simp [hnone b hb]

/-- What lies between the ends of two predicates. -/
theorem Leads.slice_eq (hp : Leads p l) (hq : Leads q l) :
    (l.take (l.takeWhile q).length).drop (l.takeWhile p).length =
      l.filter fun e => !p e && q e := by
  induction l with
  | nil => rfl
  | cons a l ih =>
    cases hpa : p a with
    | false =>
      have hnone := hp.false_of_head hpa
      have hfilter : ((a :: l).filter fun e => !p e && q e) = (a :: l).filter q := by
        refine List.filter_congr fun b hb => ?_
        rw [hnone b hb]
        rfl
      have htake : (a :: l).take ((a :: l).takeWhile q).length = (a :: l).takeWhile q :=
        (List.prefix_iff_eq_take.mp (List.takeWhile_prefix q)).symm
      rw [hfilter, List.takeWhile_cons_of_neg (by simp [hpa]), List.length_nil, List.drop_zero,
        htake, hq.takeWhile_eq]
    | true =>
      cases hqa : q a with
      | false =>
        have hnone := hq.false_of_head hqa
        have hstop : (a :: l).takeWhile q = [] := List.takeWhile_cons_of_neg (by simp [hqa])
        rw [hstop, List.length_nil, List.take_zero, List.drop_nil, List.filter_eq_nil_iff.mpr]
        intro b hb
        simp [hnone b hb]
      | true =>
        rw [List.takeWhile_cons_of_pos hpa, List.takeWhile_cons_of_pos hqa, List.length_cons,
          List.length_cons, List.take_succ_cons, List.drop_succ_cons,
          ih (List.pairwise_cons.mp hp).2 (List.pairwise_cons.mp hq).2,
          List.filter_cons_of_neg (by simp [hpa])]

end Leads

/-! ## 2. Sorted containers -/

section Sorted

variable {α : Type} {cmp : α → α → Ordering} {l : List α} {a x : α}

/-- Every entry is below those after it. -/
def Sorted (cmp : α → α → Ordering) (l : List α) : Prop := l.Pairwise fun a b => cmp a b = .lt

/-- **A list sorted by `mergeSort` is sorted**, where no two of its entries compare equal. -/
theorem sorted_mergeSort [Std.TransCmp cmp] (h : l.Pairwise fun a b => cmp a b ≠ .eq) :
    Sorted cmp (l.mergeSort fun a b => (cmp a b).isLE) := by
  have htrans : ∀ a b c, (cmp a b).isLE = true → (cmp b c).isLE = true →
      (cmp a c).isLE = true := fun a b c hab hbc => Std.TransCmp.isLE_trans hab hbc
  have htotal : ∀ a b, ((cmp a b).isLE || (cmp b a).isLE) = true := by
    intro a b
    have hswap : cmp b a = (cmp a b).swap := Std.OrientedCmp.eq_swap
    rw [hswap]
    cases cmp a b <;> rfl
  have hle : (l.mergeSort fun a b => (cmp a b).isLE).Pairwise fun a b => (cmp a b).isLE = true :=
    List.pairwise_mergeSort htrans htotal l
  have hne : (l.mergeSort fun a b => (cmp a b).isLE).Pairwise fun a b => cmp a b ≠ .eq := by
    refine (List.Perm.pairwise_iff (fun {a b} hab heq => ?_) (List.mergeSort_perm _ _)).mpr h
    exact hab (Std.OrientedCmp.eq_symm heq)
  refine (hle.and hne).imp ?_
  rintro a b ⟨hab, hab'⟩
  cases hc : cmp a b with
  | lt => rfl
  | eq => exact absurd hc hab'
  | gt => rw [hc] at hab; cases hab

end Sorted

/-! ## 3. Ranges -/

/-- An end of a range. -/
inductive Bound (α : Type) where
  | included (x : α)
  | excluded (x : α)
  | unbounded
deriving DecidableEq

namespace Bound

variable {α β : Type}

/-- Whether an entry is past a lower bound. -/
def above (cmp : α → α → Ordering) (lo : Bound α) (e : α) : Bool :=
  match lo with
  | .included x => cmp e x != .lt
  | .excluded x => cmp e x == .gt
  | .unbounded => true

/-- Whether an entry is short of an upper bound. -/
def under (cmp : α → α → Ordering) (hi : Bound α) (e : α) : Bool :=
  match hi with
  | .included x => cmp e x != .gt
  | .excluded x => cmp e x == .lt
  | .unbounded => true

end Bound

section Range

variable {α β : Type} (cmp : α → α → Ordering)

/-- Whether an entry is below another, or equal to it where the search goes past it. -/
def below (x : α) (past : Bool) (e : α) : Bool :=
  match cmp e x with
  | .lt => true
  | .eq => past
  | .gt => false

/-- The place of the first entry above another, or not below it. -/
def seek (l : List α) (x : α) (past : Bool) : Nat := (l.takeWhile (below cmp x past)).length

/-- Where a range starts. -/
def startOf (l : List α) (lo : Bound α) : Nat :=
  match lo with
  | .included x => seek cmp l x false
  | .excluded x => seek cmp l x true
  | .unbounded => 0

/-- Where a range ends. -/
def stopOf (l : List α) (hi : Bound α) : Nat :=
  match hi with
  | .included x => seek cmp l x true
  | .excluded x => seek cmp l x false
  | .unbounded => l.length

/-- The entries within two bounds. -/
def range (lo hi : Bound α) (l : List α) : List α :=
  (l.take (stopOf cmp l hi)).drop (startOf cmp l lo)

/-- How many entries are within two bounds. -/
def countWithin (lo hi : Bound α) (l : List α) : Nat := stopOf cmp l hi - startOf cmp l lo

variable {cmp} {l : List α} {lo hi : Bound α}

theorem leads_below [Std.TransCmp cmp] (h : Sorted cmp l) (x : α) (past : Bool) :
    Leads (below cmp x past) l := by
  refine h.imp fun {a b} hab hb => ?_
  unfold below at hb ⊢
  cases hbx : cmp b x with
  | lt => rw [Std.TransCmp.lt_trans hab hbx]
  | eq => rw [Std.TransCmp.lt_of_lt_of_eq hab hbx]
  | gt => rw [hbx] at hb; cases hb

theorem stopOf_le (l : List α) (hi : Bound α) : stopOf cmp l hi ≤ l.length := by
  have hlen : ∀ p : α → Bool, (l.takeWhile p).length ≤ l.length := fun p =>
    (List.takeWhile_prefix p).length_le
  cases hi with
  | included x => exact hlen _
  | excluded x => exact hlen _
  | unbounded => exact Nat.le_refl _

/-- **A range is what lies within its bounds.** -/
theorem range_eq_filter [Std.TransCmp cmp] (h : Sorted cmp l) :
    range cmp lo hi l = l.filter fun e => lo.above cmp e && hi.under cmp e := by
  -- a bound as a predicate that leads
  have hlo : ∃ p : α → Bool, Leads p l ∧ startOf cmp l lo = (l.takeWhile p).length ∧
      ∀ e, (!p e) = lo.above cmp e := by
    cases lo with
    | included x =>
      refine ⟨_, leads_below h x false, rfl, fun e => ?_⟩
      cases hc : cmp e x <;> simp [below, Bound.above, hc]
    | excluded x =>
      refine ⟨_, leads_below h x true, rfl, fun e => ?_⟩
      cases hc : cmp e x <;> simp [below, Bound.above, hc]
    | unbounded =>
      refine ⟨fun _ => false, ?_, ?_, fun e => rfl⟩
      · exact List.pairwise_of_forall fun _ _ h => h
      · cases l <;> rfl
  have hhi : ∃ q : α → Bool, Leads q l ∧ stopOf cmp l hi = (l.takeWhile q).length ∧
      ∀ e, q e = hi.under cmp e := by
    cases hi with
    | included x =>
      refine ⟨_, leads_below h x true, rfl, fun e => ?_⟩
      cases hc : cmp e x <;> simp [below, Bound.under, hc]
    | excluded x =>
      refine ⟨_, leads_below h x false, rfl, fun e => ?_⟩
      cases hc : cmp e x <;> simp [below, Bound.under, hc]
    | unbounded =>
      refine ⟨fun _ => true, ?_, ?_, fun e => rfl⟩
      · exact List.pairwise_of_forall fun _ _ h => h
      · have hall : l.takeWhile (fun _ => true) = l := by
          rw [Leads.takeWhile_eq (List.pairwise_of_forall fun _ _ _ => rfl), List.filter_true]
        rw [hall]
        rfl
  obtain ⟨p, hp, hstart, habove⟩ := hlo
  obtain ⟨q, hq, hstop, hunder⟩ := hhi
  rw [range, hstart, hstop, hp.slice_eq hq]
  refine List.filter_congr fun e _ => ?_
  rw [habove, hunder]

/-- **The places found count the range.** -/
theorem countWithin_eq (lo hi : Bound α) (l : List α) :
    countWithin cmp lo hi l = (range cmp lo hi l).length := by
  rw [countWithin, range, List.length_drop, List.length_take, Nat.min_eq_left (stopOf_le l hi)]

end Range

end Fenec.Lib
