/-
# Disjunctive facets

A disjunctive facet counts over the rows that the query's filter selects without its conditions on
the facet's own field.  `split_facets` takes these conditions off the filter's `and` chain, before
anything is added to the filter, and keeps what is left with the facet.

What is left and what was taken off hold together exactly where the filter does (`SplitOff.holds`),
and what is left does not depend on the field at all (`SplitOff.unread`).  A term that reads the
field and another besides can be on neither side, and is refused.  A facet that was looked at is
never looked at again: it is no longer disjunctive, or has its rest.
-/
import Fenec.Conjuncts

namespace Fenec

open Lib Expr

namespace Facets

/-! ## 1. Splitting -/

/-- A facet, as far as it is split: its field, whether it is disjunctive, and its filter once that
is split off. -/
structure Facet where
  field : String
  disjunctive : Bool
  rest : Option (Option Expr)

/-- A query's filter and its facets. -/
structure Select where
  filter : Option Expr
  facets : List Facet

/-- How often an `and` chain is taken apart before its terms are all there. -/
def chainSize : Expr → Nat
  | .and a b => chainSize a + chainSize b + 1
  | _ => 1

/-- The loop over what is still to be taken apart, the last put there first. -/
def chainTerms : List Expr → List Expr
  | [] => []
  | .and a b :: todo => chainTerms (a :: b :: todo)
  | e :: todo => e :: chainTerms todo
termination_by todo => (todo.map chainSize).sum
decreasing_by
  · simp only [List.map_cons, List.sum_cons, chainSize]
    omega
  · have hpos : 0 < chainSize e := by
      unfold chainSize
      split
      · omega
      · omega
    simp only [List.map_cons, List.sum_cons]
    omega

/-- A term reads the facet's field. -/
def own (field : String) (t : Expr) : Bool := (names t).contains field

/-- A term reads another field. -/
def other (field : String) (t : Expr) : Bool := (names t).any (· != field)

/-- The error for a term that reads both. -/
def mixed (field : String) : Error :=
  .query ("`facet " ++ field ++ " disjunctive` leaves the filter's conditions on `" ++ field ++
    "` out, and one of them reads another field too: write it as a condition of its own, joined " ++
    "by `and`")

/-- A term that is kept, after those that were. -/
def chained (rest : Option Expr) (t : Expr) : Expr :=
  match rest with
  | none => t
  | some r => .and r t

/-- The loop over the terms: what is left of the filter, and whether anything was taken off. -/
def splitTerms (field : String) : List Expr → Option Expr → Bool → Result (Option Expr × Bool)
  | [], rest, dropped => .ok (rest, dropped)
  | t :: ts, rest, dropped =>
    if own field t && other field t then .error (mixed field)
    else if own field t then splitTerms field ts rest true
    else splitTerms field ts (some (chained rest t)) dropped

/-- One facet split off a filter. -/
def splitFacet (filter : Option Expr) (f : Facet) : Result Facet :=
  if !f.disjunctive || f.rest.isSome then .ok f
  else do
    let (rest, dropped) ← splitTerms f.field (chainTerms filter.toList) none false
    -- with no condition of its own it is counted over the query's rows
    pure (if dropped then { f with rest := some rest } else { f with disjunctive := false })

/-- The facets in turn. -/
def splitAll (filter : Option Expr) : List Facet → Result (List Facet)
  | [] => .ok []
  | f :: fs => do
    let f ← splitFacet filter f
    let fs ← splitAll filter fs
    pure (f :: fs)

/-- **`split_facets`.** -/
def Select.splitFacets (q : Select) : Result Select := do
  let facets ← splitAll q.filter q.facets
  pure { q with facets := facets }

/-- `each_filter_mut`: one rewriting of the filter and of what was split off it. -/
def Select.eachFilter (q : Select) (g : Option Expr → Option Expr) : Select :=
  { filter := g q.filter, facets := q.facets.map fun f => { f with rest := f.rest.map g } }

/-! ## 2. Terms and what is left of them -/

/-- The terms of a filter. -/
def terms (filter : Option Expr) : List Expr := filter.toList.flatMap conjuncts

theorem chainTerms_eq (todo : List Expr) : chainTerms todo = todo.flatMap conjuncts := by
  induction todo using chainTerms.induct with
  | case1 => rw [chainTerms, List.flatMap_nil]
  | case2 todo a b ih =>
    rw [chainTerms, ih, List.flatMap_cons, List.flatMap_cons, List.flatMap_cons, conjuncts,
      List.append_assoc]
  | case3 e todo hne ih =>
    have hterm : conjuncts e = [e] := by
      rw [conjuncts.eq_def]
      split
      · next a b => exact absurd rfl (hne a b)
      · rfl
    rw [chainTerms, ih, List.flatMap_cons, hterm, List.singleton_append]
    exact hne

theorem own_iff {field : String} {t : Expr} : own field t = true ↔ field ∈ names t := by
  unfold own
  exact List.contains_iff_mem

theorem other_iff {field : String} {t : Expr} :
    other field t = true ↔ ∃ n ∈ names t, n ≠ field := by
  unfold other
  rw [List.any_eq_true]
  simp

section Selects

variable {B : Build} (ctx : EvalCtx B) (row : Row)

/-- A filter, or none, lets a row through. -/
def Selects (filter : Option Expr) : Prop := ∀ e, filter = some e → Holds ctx row e

theorem selects_iff_terms {filter : Option Expr} :
    Selects ctx row filter ↔ ∀ t ∈ terms filter, Holds ctx row t := by
  unfold Selects terms
  cases filter with
  | none => simp
  | some e =>
    rw [Option.toList_some, List.flatMap_singleton, ← holds_iff_conjuncts]
    exact ⟨fun h => h e rfl, fun h e' he => Option.some.inj he ▸ h⟩

theorem selects_chained {rest : Option Expr} {t : Expr} :
    Selects ctx row (some (chained rest t)) ↔ Selects ctx row rest ∧ Holds ctx row t := by
  unfold Selects chained
  cases rest with
  | none => simp
  | some r => simp [holds_and]

end Selects

/-- **What is left of a filter without a field's conditions.** -/
structure SplitOff (filter : Option Expr) (field : String) (rest : Option Expr) : Prop where
  holds : ∀ {B : Build} (ctx : EvalCtx B) (row : Row), Selects ctx row filter ↔
    Selects ctx row rest ∧ ∀ t ∈ terms filter, field ∈ names t → Holds ctx row t
  wider : ∀ {B : Build} (ctx : EvalCtx B) (row : Row),
    Selects ctx row filter → Selects ctx row rest
  reads : ∀ e, rest = some e → field ∉ names e
  unread : ∀ {B : Build} (ctx : EvalCtx B) (row row' : Row),
    (∀ n, n ≠ field → Agree row row' n) →
    ∀ e, rest = some e → eval ctx row e = eval ctx row' e

section Split

variable {field : String} {ts : List Expr} {rest rest' : Option Expr} {dropped dropped' : Bool}

/-- The loop fails on a term that reads both, and on nothing else. -/
theorem splitTerms_error : (∃ err, splitTerms field ts rest dropped = .error err) ↔
    ∃ t ∈ ts, field ∈ names t ∧ ∃ n ∈ names t, n ≠ field := by
  induction ts generalizing rest dropped with
  | nil => simp [splitTerms]
  | cons t ts ih =>
    rw [List.exists_mem_cons_iff, splitTerms, ← own_iff, ← other_iff]
    cases hown : own field t with
    | false =>
      rw [Bool.false_and, if_neg (by decide), if_neg (by decide), ih]
      simp
    | true =>
      cases hother : other field t with
      | false =>
        rw [Bool.and_false, if_neg (by decide), if_pos rfl, ih]
        simp
      | true => simp

/-- **What the loop keeps**: the terms that do not read the field, in one chain. -/
theorem splitTerms_ok (h : splitTerms field ts rest dropped = .ok (rest', dropped')) :
    (dropped' = true ↔ dropped = true ∨ ∃ t ∈ ts, field ∈ names t) ∧
    (∀ {B : Build} (ctx : EvalCtx B) (row : Row), Selects ctx row rest' ↔
      Selects ctx row rest ∧ ∀ t ∈ ts, field ∉ names t → Holds ctx row t) ∧
    ((∀ e, rest = some e → field ∉ names e) → ∀ e, rest' = some e → field ∉ names e) := by
  induction ts generalizing rest dropped with
  | nil =>
    obtain ⟨rfl, rfl⟩ := Prod.mk.inj (Except.ok.inj h)
    exact ⟨by simp, fun ctx row => by simp, id⟩
  | cons t ts ih =>
    rw [splitTerms] at h
    split at h
    · cases h
    · split at h
      · next hown =>
        obtain ⟨hdrop, hholds, hreads⟩ := ih h
        rw [own_iff] at hown
        refine ⟨?_, fun ctx row => ?_, hreads⟩
        · rw [hdrop]
          simp [hown]
        · rw [hholds, List.forall_mem_cons]
          simp [hown]
      · next hown =>
        obtain ⟨hdrop, hholds, hreads⟩ := ih h
        rw [own_iff] at hown
        refine ⟨?_, fun ctx row => ?_, fun hrest => hreads fun e he => ?_⟩
        · rw [hdrop]
          simp [hown]
        · rw [hholds, selects_chained, List.forall_mem_cons, and_assoc]
          simp [hown]
        · obtain rfl := Option.some.inj he
          unfold chained
          cases rest with
          | none => exact hown
          | some r =>
            intro hmem
            rcases (mem_referencedFields t _).mp hmem with hr | ht
            · exact hrest r rfl hr
            · exact hown ht

/-- **What was split off is the filter without the terms that read the field.** -/
theorem splitOff_of_ok {filter : Option Expr}
    (h : splitTerms field (chainTerms filter.toList) none false = .ok (rest, dropped)) :
    SplitOff filter field rest ∧ (dropped = true ↔ ∃ t ∈ terms filter, field ∈ names t) := by
  rw [chainTerms_eq] at h
  obtain ⟨hdrop, hholds, hreads⟩ := splitTerms_ok h
  have hnone : ∀ {B : Build} (ctx : EvalCtx B) (row : Row), Selects ctx row none :=
    fun ctx row e he => (by cases he)
  have hrest : ∀ {B : Build} (ctx : EvalCtx B) (row : Row), Selects ctx row rest ↔
      ∀ t ∈ terms filter, field ∉ names t → Holds ctx row t := fun ctx row =>
    (hholds ctx row).trans (and_iff_right (hnone ctx row))
  have hnames : ∀ e, rest = some e → field ∉ names e := hreads fun e he => (by cases he)
  refine ⟨⟨fun ctx row => ?_, fun ctx row hsel => ?_, hnames, fun ctx row row' hagree e he => ?_⟩,
    hdrop.trans (or_iff_right (by decide))⟩
  · rw [selects_iff_terms, hrest]
    constructor
    · intro hall
      exact ⟨fun t ht _ => hall t ht, fun t ht _ => hall t ht⟩
    · rintro ⟨hkept, hown⟩ t ht
      by_cases hmem : field ∈ names t
      · exact hown t ht hmem
      · exact hkept t ht hmem
  · rw [hrest]
    exact fun t ht _ => (selects_iff_terms ctx row).mp hsel t ht
  · refine eval_agree ctx fun n hn => hagree n ?_
    rintro rfl
    exact hnames e he hn

end Split

/-! ## 3. The facets of a query -/

/-- A facet still to be split. -/
def Facet.Unsplit (f : Facet) : Prop := f.disjunctive = true ∧ f.rest = none

/-- A term of the filter reads a facet's field and another. -/
def Mixes (filter : Option Expr) (f : Facet) : Prop :=
  ∃ t ∈ terms filter, f.field ∈ names t ∧ ∃ n ∈ names t, n ≠ f.field

/-- **What becomes of a facet**: it has the rest of the filter, or is made plain where no term
reads its field, or was nothing to split. -/
inductive Splits (filter : Option Expr) (f : Facet) : Facet → Prop
  | rest {rest : Option Expr} : f.Unsplit → (∃ t ∈ terms filter, f.field ∈ names t) →
      SplitOff filter f.field rest → Splits filter f { f with rest := some rest }
  | plain : f.Unsplit → (∀ t ∈ terms filter, f.field ∉ names t) →
      Splits filter f { f with disjunctive := false }
  | kept : ¬ f.Unsplit → Splits filter f f

section Facets

variable {filter : Option Expr} {f f' : Facet} {fs fs' : List Facet}

theorem unsplit_iff : (!f.disjunctive || f.rest.isSome) = false ↔ f.Unsplit := by
  unfold Facet.Unsplit
  rw [Bool.or_eq_false_iff, Bool.not_eq_false', Option.isSome_eq_false_iff,
    Option.isNone_iff_eq_none]

theorem splitFacet_error : (∃ err, splitFacet filter f = .error err) ↔
    f.Unsplit ∧ Mixes filter f := by
  have hloop : (∃ err, splitTerms f.field (chainTerms filter.toList) none false = .error err) ↔
      ∃ t ∈ chainTerms filter.toList, f.field ∈ names t ∧ ∃ n ∈ names t, n ≠ f.field :=
    splitTerms_error
  rw [chainTerms_eq] at hloop
  unfold splitFacet
  cases hdone : (!f.disjunctive || f.rest.isSome) with
  | true =>
    have hnot : ¬ f.Unsplit := fun h => by
      rw [unsplit_iff.mpr h] at hdone
      cases hdone
    simp [hnot]
  | false =>
    have hun := unsplit_iff.mp hdone
    rw [if_neg (by decide), chainTerms_eq]
    refine Iff.trans ?_ (hloop.trans (and_iff_right hun).symm)
    cases hres : splitTerms f.field (filter.toList.flatMap conjuncts) none false with
    | error err => simp
    | ok r => simp

theorem splitFacet_ok (h : splitFacet filter f = .ok f') :
    Splits filter f f' ∧ ¬ f'.Unsplit := by
  unfold splitFacet at h
  cases hdone : (!f.disjunctive || f.rest.isSome) with
  | true =>
    rw [hdone, if_pos rfl] at h
    obtain rfl := Except.ok.inj h
    have hnot : ¬ f.Unsplit := fun h => by
      rw [unsplit_iff.mpr h] at hdone
      cases hdone
    exact ⟨.kept hnot, hnot⟩
  | false =>
    have hun := unsplit_iff.mp hdone
    rw [hdone, if_neg (by decide)] at h
    cases hres : splitTerms f.field (chainTerms filter.toList) none false with
    | error err =>
      rw [hres] at h
      cases h
    | ok r =>
      obtain ⟨rest, dropped⟩ := r
      rw [hres] at h
      obtain rfl := Except.ok.inj h
      obtain ⟨hoff, hdrop⟩ := splitOff_of_ok hres
      cases dropped with
      | true =>
        exact ⟨.rest hun (hdrop.mp rfl) hoff, fun h => (by cases h.2)⟩
      | false =>
        refine ⟨.plain hun fun t ht hmem => ?_, fun h => (by cases h.1)⟩
        cases hdrop.mpr ⟨t, ht, hmem⟩

theorem splitAll_error : (∃ err, splitAll filter fs = .error err) ↔
    ∃ f ∈ fs, f.Unsplit ∧ Mixes filter f := by
  induction fs with
  | nil => simp [splitAll]
  | cons f fs ih =>
    rw [List.exists_mem_cons_iff, ← splitFacet_error, ← ih, splitAll]
    cases hf : splitFacet filter f with
    | error err => simp
    | ok f' =>
      cases hfs : splitAll filter fs with
      | error err => simp
      | ok fs' => simp

theorem splitAll_ok (h : splitAll filter fs = .ok fs') :
    List.Forall₂ (Splits filter) fs fs' ∧ ∀ f ∈ fs', ¬ f.Unsplit := by
  induction fs generalizing fs' with
  | nil =>
    obtain rfl := Except.ok.inj h
    exact ⟨.nil, fun f hf => (by cases hf)⟩
  | cons f fs ih =>
    rw [splitAll] at h
    cases hf : splitFacet filter f with
    | error err =>
      rw [hf] at h
      cases h
    | ok f' =>
      rw [hf] at h
      cases hfs : splitAll filter fs with
      | error err =>
        rw [hfs] at h
        cases h
      | ok fs'' =>
        rw [hfs] at h
        obtain rfl := Except.ok.inj h
        obtain ⟨hsplit, hdone⟩ := splitFacet_ok hf
        obtain ⟨hall, hrest⟩ := ih hfs
        exact ⟨.cons hsplit hall, List.forall_mem_cons.mpr ⟨hdone, hrest⟩⟩

/-- Facets with nothing to split are as they were. -/
theorem splitAll_done (h : ∀ f ∈ fs, ¬ f.Unsplit) : splitAll filter fs = .ok fs := by
  induction fs with
  | nil => rfl
  | cons f fs ih =>
    obtain ⟨hf, hfs⟩ := List.forall_mem_cons.mp h
    have hdone : splitFacet filter f = .ok f := by
      unfold splitFacet
      rw [if_pos]
      cases hd : (!f.disjunctive || f.rest.isSome) with
      | true => rfl
      | false => exact absurd (unsplit_iff.mp hd) hf
    rw [splitAll, hdone, Result.ok_bind, ih hfs]
    rfl

end Facets

/-- **A disjunctive facet counts over the filter less its own conditions.**  Splitting fails exactly
where a term of the filter reads the field of a facet to be split and another field.  Otherwise the
filter stays, each facet is split as it should be, and splitting once more does nothing, whatever
the filter and the rests have been rewritten to by then. -/
theorem split_facets_spec (q : Select) :
    ((∃ err, q.splitFacets = .error err) ↔ ∃ f ∈ q.facets, f.Unsplit ∧ Mixes q.filter f) ∧
    ∀ q', q.splitFacets = .ok q' → q'.filter = q.filter ∧
      List.Forall₂ (Splits q.filter) q.facets q'.facets ∧
      ∀ g, (q'.eachFilter g).splitFacets = .ok (q'.eachFilter g) := by
  rw [← splitAll_error]
  unfold Select.splitFacets
  cases hall : splitAll q.filter q.facets with
  | error err => simp
  | ok fs =>
    refine ⟨by simp, fun q' hq' => ?_⟩
    obtain rfl := Except.ok.inj hq'
    obtain ⟨hsplits, hdone⟩ := splitAll_ok hall
    refine ⟨rfl, hsplits, fun g => ?_⟩
    have hmapped : ∀ f ∈ fs.map fun f => { f with rest := f.rest.map g }, ¬ f.Unsplit := by
      intro f hf
      obtain ⟨f', hf', rfl⟩ := List.mem_map.mp hf
      rintro ⟨hdisj, hnone⟩
      exact hdone f' hf' ⟨hdisj, Option.map_eq_none_iff.mp hnone⟩
    unfold Select.eachFilter
    dsimp only
    rw [splitAll_done hmapped]
    rfl

end Facets

end Fenec
