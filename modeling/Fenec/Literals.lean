/-
# The keys of literals

A comparison in a filter is looked up in an index under the key of its literal, where the index's
keys say it exactly: `SortedIndex.bound` and `CompositeIndex.literal`.  Both answer for a literal
of another kind than the field's: a text that a timestamp meets by parsing it, an integer that a
float meets as one, and an integer that a timestamp meets as two floats.

The last is guarded by `|i| ≤ 2 ^ 53`, a bound on the literal, and the guard lets one value too
many through: the stored integer one past `2 ^ 53` is rounded to the literal `2 ^ 53` and compares
equal to it, while its key is above the literal's (`Meets`).  Everywhere else the key answers as
`cmpValue` does (`literal_keys_exact`).
-/
import Fenec.Tuples

namespace Fenec

open Lib Case CompositeKey

/-! ## 1. Keys of literals -/

/-- `sorted::Key`. -/
inductive SortedKey where
  | num (k : Nat)
  | text (t : String)
deriving DecidableEq

/-- The order of keys: numbers before texts. -/
def SortedKey.cmp (txt : String → String → Ordering) : SortedKey → SortedKey → Ordering
  | .num a, .num b => compare a b
  | .text a, .text b => txt a b
  | .num _, .text _ => .lt
  | .text _, .num _ => .gt

/-- The key a json slot is. -/
def JsonSlot.key? : JsonSlot → Option SortedKey
  | .num k => some (.num k)
  | .text t => some (.text t)
  | _ => none

namespace SortedIndex

/-- `SortedIndex::bound`. -/
def bound (B : Build) (ty : DataType) (fold : Option CaseFold) (v : Value) : Option SortedKey :=
  match ty, v with
  | .text, .text t => match fold with
    | some f => some (.text (Case.fold B.chars f t))
    | none => some (.text t)
  | .int, .int i => some (.num (intKey i))
  | .timestamp, .timestamp ms => some (.num (intKey ms))
  | .timestamp, .int ms => if exactAsFloat ms then some (.num (intKey ms)) else none
  | .timestamp, .text t => match Time.parse t with
    | .ok ms => some (.num (intKey ms))
    | .error _ => none
  | .float, .float f => if f.isNaN then none else some (.num (floatKey f))
  | .float, .int i => some (.num (floatKey (Ieee.ofInt i.toInt)))
  | .json, v => (jsonSlot (some v)).key?
  | _, _ => none

/-- The key a field's index files a value under, if it files it under one. -/
def keyOf (B : Build) (ty : DataType) (fold : Option CaseFold) (v : Value) : Option SortedKey :=
  match ty with
  | .text => (textSlot B (some v) fold).key?.map .text
  | .json => (jsonSlot (some v)).key?
  | _ => (numSlot (some v)).key?.map .num

/-- The order of a field's texts: a json's are by their bytes. -/
def fieldOrder (ty : DataType) (order : TextOrder) : TextOrder :=
  if ty = .text then order else .bytes

end SortedIndex

/-- `CompositeIndex::literal`: the value a literal is keyed as, and its bytes. -/
def Part.asKeyed (p : Part) (v : Value) : Option Value :=
  match p.kind, v with
  | .int, .int i => some (.int i)
  | .int, .timestamp i => if exactAsFloat i then some v else none
  | .time, .int i => if exactAsFloat i then some v else none
  | .time, .timestamp i => if exactAsFloat i then some v else none
  | .time, .text t => match Time.parse t with
    | .ok ms => some (.timestamp ms)
    | .error _ => none
  | .float, .float f => if f.isNaN then none else some v
  | .float, .int i => some (.float (Ieee.ofInt i.toInt))
  | .bool, .bool _ => some v
  | .text, .text _ => some v
  | .json, v => match jsonSlot (some v) with
    | .num _ => some v
    | .text _ => some v
    | _ => none
  | _, _ => none

/-- `CompositeIndex::literal` of a part. -/
def Part.literal (B : Build) (p : Part) (v : Value) : Option Key :=
  (p.asKeyed v).map fun v => (putPart B p v).1

/-- **A stored value and a literal that meet as one float, though they differ**: an integer and a
timestamp. -/
def Meets : Value → Value → Prop
  | .timestamp a, .int b => Collides a.toInt b.toInt
  | .int a, .timestamp b => Collides a.toInt b.toInt
  | _, _ => False

instance (x v : Value) : Decidable (Meets x v) := by
  unfold Meets
  split <;> infer_instance

/-- An integer's word against that of an exact one it meets as a float. -/
theorem compare_intKey_iff {a b : Int64} (hb : exactAsFloat b = true) :
    compare (intKey a) (intKey b) =
        Value.cmpFloat (Ieee.ofInt a.toInt : F64) (Ieee.ofInt b.toInt) ↔
      ¬ Collides a.toInt b.toInt := by
  rw [compare_intKey, compare_int64, eq_comm]
  exact cmpFloat_ofInt_iff (of_decide_eq_true hb)

/-! ## 2. Ordered indexes -/

section Bound

variable {B : Build} {ty : DataType} {order : TextOrder} {x v : Value} {k : SortedKey}

theorem bound_int (h : SortedIndex.bound B .int order.fold v = some k) :
    ∃ i, v = .int i ∧ k = .num (intKey i) := by
  cases v <;> cases h
  exact ⟨_, rfl, rfl⟩

theorem bound_timestamp (h : SortedIndex.bound B .timestamp order.fold v = some k) :
    (∃ ms, v = .timestamp ms ∧ k = .num (intKey ms)) ∨
    (∃ ms, v = .int ms ∧ exactAsFloat ms = true ∧ k = .num (intKey ms)) ∨
    ∃ t ms, v = .text t ∧ Time.parse t = .ok ms ∧ k = .num (intKey ms) := by
  cases v with
  | timestamp ms =>
    cases h
    exact .inl ⟨ms, rfl, rfl⟩
  | int ms =>
    simp only [SortedIndex.bound] at h
    split at h
    · next hms =>
      cases h
      exact .inr (.inl ⟨ms, rfl, hms, rfl⟩)
    · cases h
  | text t =>
    simp only [SortedIndex.bound] at h
    split at h
    · next ms hparse =>
      cases h
      exact .inr (.inr ⟨t, ms, rfl, hparse, rfl⟩)
    · cases h
  | _ => cases h

theorem bound_float (h : SortedIndex.bound B .float order.fold v = some k) :
    (∃ i, v = .int i ∧ k = .num (floatKey (Ieee.ofInt i.toInt))) ∨
    ∃ f, v = .float f ∧ f.isNaN = false ∧ k = .num (floatKey f) := by
  cases v with
  | int i =>
    cases h
    exact .inl ⟨i, rfl, rfl⟩
  | float f =>
    simp only [SortedIndex.bound] at h
    split at h
    · cases h
    · next hf =>
      cases h
      exact .inr ⟨f, rfl, by simpa using hf, rfl⟩
  | _ => cases h

theorem bound_text (h : SortedIndex.bound B .text order.fold v = some k) :
    ∃ t, v = .text t ∧ k = .text (fit B.chars order.fold t) := by
  cases v with
  | text t =>
    simp only [SortedIndex.bound] at h
    split at h <;> cases h <;> exact ⟨t, rfl, by simp_all [fit]⟩
  | _ => cases h

/-- The keys of a json field's values and of its literals. -/
theorem jsonKey_cases (h : (jsonSlot (some v)).key? = some k) :
    (∃ w, JsonNumber v w ∧ k = .num w) ∨ ∃ t, v = .text t ∧ k = .text t := by
  rcases jsonSlot_cases v with ⟨w, hw, hj⟩ | ⟨t, hv, hj⟩ | ⟨-, hj⟩ | ⟨-, hj⟩
  all_goals rw [hj] at h
  all_goals cases h
  · exact .inl ⟨w, hw, rfl⟩
  · exact .inr ⟨t, hv, rfl⟩

/-- Json keys order as the values do. -/
theorem jsonKey_order {k' : SortedKey} (hx : (jsonSlot (some x)).key? = some k')
    (hv : (jsonSlot (some v)).key? = some k) : k'.cmp cmpStr k = x.cmpValue v := by
  rcases jsonKey_cases hx with ⟨w, hw, rfl⟩ | ⟨t, rfl, rfl⟩
  · rcases jsonKey_cases hv with ⟨w', hw', rfl⟩ | ⟨t', rfl, rfl⟩
    · exact compare_jsonNumber hw hw'
    · exact (jsonNumber_text hw t').1.symm
  · rcases jsonKey_cases hv with ⟨w', hw', rfl⟩ | ⟨t', rfl, rfl⟩
    · exact (jsonNumber_text hw' t).2.symm
    · rfl

/-- **A literal's key answers as the values compare, except where the two meet as one float.** -/
theorem bound_exact (h : SortedIndex.bound B ty order.fold v = some k) (hx : Typed ty x)
    (hnull : x ≠ .null) (hnan : ∀ f, x = .float f → f.isNaN = false)
    (hjson : ty = .json → jsonSlot (some x) ≠ .apart) :
    ∃ k', SortedIndex.keyOf B ty order.fold x = some k' ∧
      (k'.cmp (textOrder B (SortedIndex.fieldOrder ty order).coll) k =
        cmpIn B (SortedIndex.fieldOrder ty order) x v ↔ ¬ Meets x v) := by
  cases ty with
  | int =>
    obtain ⟨i, rfl⟩ := (typed_int hx).resolve_left hnull
    obtain ⟨j, rfl, rfl⟩ := bound_int h
    exact ⟨_, rfl, iff_of_true (compare_intKey i j) not_false⟩
  | timestamp =>
    obtain ⟨i, rfl⟩ := (typed_timestamp hx).resolve_left hnull
    refine ⟨_, rfl, ?_⟩
    rcases bound_timestamp h with ⟨ms, rfl, rfl⟩ | ⟨ms, rfl, hms, rfl⟩ | ⟨t, ms, rfl, hparse, rfl⟩
    · exact iff_of_true (compare_intKey i ms) not_false
    · exact compare_intKey_iff hms
    · have hcmp : cmpIn B (SortedIndex.fieldOrder .timestamp order) (.timestamp i) (.text t) =
          compare i ms := by
        show Value.cmpValue (.timestamp i) (.text t) = _
        rw [Value.cmpValue, hparse]
      rw [hcmp]
      exact iff_of_true (compare_intKey i ms) not_false
  | float =>
    obtain ⟨f, rfl⟩ := (typed_float hx).resolve_left hnull
    have hf := hnan f rfl
    refine ⟨.num (floatKey f), ?_, ?_⟩
    · show ((numSlot (some (.float f))).key?.map _) = _
      rw [numSlot, if_neg (by rw [hf]; exact Bool.false_ne_true)]
      rfl
    · rcases bound_float h with ⟨i, rfl, rfl⟩ | ⟨g, rfl, hg, rfl⟩
      · exact iff_of_true (compare_floatKey hf (Ieee.isNaN_ofInt _)) not_false
      · exact iff_of_true (compare_floatKey hf hg) not_false
  | text =>
    obtain ⟨t, rfl⟩ := (typed_text hx).resolve_left hnull
    obtain ⟨t', rfl, rfl⟩ := bound_text h
    refine ⟨.text (fit B.chars order.fold t), ?_, ?_⟩
    · cases hfold : order.fold <;> rfl
    · exact iff_of_true (compare_order B order.coll order.fold t t').symm not_false
  | json =>
    obtain ⟨k', hk'⟩ : ∃ k', (jsonSlot (some x)).key? = some k' := by
      rcases jsonSlot_cases x with ⟨w, -, hj⟩ | ⟨t, -, hj⟩ | ⟨h0, -⟩ | ⟨-, hj⟩
      · exact ⟨.num w, by rw [hj]; rfl⟩
      · exact ⟨.text t, by rw [hj]; rfl⟩
      · exact absurd h0 hnull
      · exact absurd hj (hjson rfl)
    have hv : (jsonSlot (some v)).key? = some k := h
    refine ⟨k', hk', iff_of_true ((jsonKey_order hk' hv).trans ?_) ?_⟩
    · rcases jsonKey_cases hk' with ⟨w, hw, -⟩ | ⟨t, rfl, -⟩
      · exact (cmpIn_jsonNumber hw v _).1.symm
      · cases v <;> rfl
    · -- neither is a timestamp
      rcases jsonKey_cases hk' with ⟨w, ⟨i, rfl, -⟩ | ⟨f, rfl, -⟩, -⟩ | ⟨t, rfl, -⟩
      · rcases jsonKey_cases hv with ⟨w', ⟨j, rfl, -⟩ | ⟨g, rfl, -⟩, -⟩ | ⟨t', rfl, -⟩ <;>
          exact not_false
      · exact not_false
      · exact not_false
  | _ => cases v <;> cases h

end Bound

/-! ## 3. Composite indexes -/

section Literal

variable {B : Build} {p : Part} {ps : List Part} {x v w : Value} {s s' : PartSlot}

/-- What a literal is keyed as: itself where the part's fields hold it, and four other kinds. -/
theorem asKeyed_cases (h : p.asKeyed v = some w) :
    (w = v ∧ p.Takes v) ∨
    (p.kind = .time ∧ ∃ t ms, v = .text t ∧ Time.parse t = .ok ms ∧ w = .timestamp ms) ∨
    (p.kind = .float ∧ ∃ i, v = .int i ∧ w = .float (Ieee.ofInt i.toInt)) ∨
    (p.kind = .int ∧ ∃ i, v = .timestamp i ∧ exactAsFloat i = true ∧ w = v) ∨
    (p.kind = .time ∧ ∃ i, v = .int i ∧ exactAsFloat i = true ∧ w = v) := by
  obtain ⟨kind, desc, coll, fold⟩ := p
  cases kind with
  | int =>
    cases v with
    | int i =>
      cases h
      exact .inl ⟨rfl, fun _ => rfl⟩
    | timestamp i =>
      simp only [Part.asKeyed] at h
      split at h
      · next hi =>
        cases h
        exact .inr (.inr (.inr (.inl ⟨rfl, i, rfl, hi, rfl⟩)))
      · cases h
    | _ => cases h
  | time =>
    cases v with
    | int i =>
      simp only [Part.asKeyed] at h
      split at h
      · next hi =>
        cases h
        exact .inr (.inr (.inr (.inr ⟨rfl, i, rfl, hi, rfl⟩)))
      · cases h
    | timestamp i =>
      simp only [Part.asKeyed] at h
      split at h
      · cases h
        exact .inl ⟨rfl, fun _ => rfl⟩
      · cases h
    | text t =>
      simp only [Part.asKeyed] at h
      split at h
      · next ms hparse =>
        cases h
        exact .inr (.inl ⟨rfl, t, ms, rfl, hparse, rfl⟩)
      · cases h
    | _ => cases h
  | float =>
    cases v with
    | int i =>
      cases h
      exact .inr (.inr (.inl ⟨rfl, i, rfl, rfl⟩))
    | float f =>
      simp only [Part.asKeyed] at h
      split at h
      · cases h
      · cases h
        exact .inl ⟨rfl, fun _ => rfl⟩
    | _ => cases h
  | bool =>
    cases v with
    | bool b =>
      cases h
      exact .inl ⟨rfl, fun _ => rfl⟩
    | _ => cases h
  | text =>
    cases v with
    | text t =>
      cases h
      exact .inl ⟨rfl, fun _ => rfl⟩
    | _ => cases h
  | json =>
    simp only [Part.asKeyed] at h
    rcases jsonSlot_cases v with ⟨k, -, hj⟩ | ⟨t, -, hj⟩ | ⟨-, hj⟩ | ⟨-, hj⟩
    · rw [hj] at h
      cases h
      exact .inl ⟨rfl, fun hk => absurd rfl hk⟩
    · rw [hj] at h
      cases h
      exact .inl ⟨rfl, fun hk => absurd rfl hk⟩
    · rw [hj] at h
      cases h
    · rw [hj] at h
      cases h

/-- A literal has a slot. -/
theorem slot_asKeyed (h : p.asKeyed v = some w) : ∃ s, p.slot B w = some s := by
  obtain ⟨kind, desc, coll, fold⟩ := p
  cases kind with
  | float =>
    have hfloat : ∀ f : F64, f.isNaN = false →
        Part.slot B ⟨.float, desc, coll, fold⟩ (.float f) = some (.num (floatKey f)) := fun f hf =>
      if_neg (by rw [hf]; exact Bool.false_ne_true)
    cases v with
    | int i =>
      cases h
      exact ⟨_, hfloat _ (Ieee.isNaN_ofInt _)⟩
    | float f =>
      simp only [Part.asKeyed] at h
      split at h
      · cases h
      · next hf =>
        cases h
        exact ⟨_, hfloat f (by simpa using hf)⟩
    | _ => cases h
  | json =>
    simp only [Part.asKeyed] at h
    rcases jsonSlot_cases v with ⟨k, hk, hj⟩ | ⟨t, rfl, hj⟩ | ⟨-, hj⟩ | ⟨-, hj⟩
    · rw [hj] at h
      cases h
      refine ⟨.num k, ?_⟩
      rcases hk with ⟨i, rfl, -⟩ | ⟨f, rfl, -⟩ <;> simp only [Part.slot, hj]
    · cases h
      exact ⟨_, rfl⟩
    · rw [hj] at h
      cases h
    · rw [hj] at h
      cases h
  | _ =>
    cases v <;> simp only [Part.asKeyed, reduceCtorEq] at h
    all_goals try split at h
    all_goals cases h
    all_goals exact ⟨_, rfl⟩

theorem meets_cases (h : Meets x v) :
    (∃ a b, x = .timestamp a ∧ v = .int b) ∨ ∃ a b, x = .int a ∧ v = .timestamp b := by
  cases x with
  | int a =>
    cases v with
    | timestamp b => exact .inr ⟨a, b, rfl, rfl⟩
    | _ => exact h.elim
  | timestamp a =>
    cases v with
    | int b => exact .inl ⟨a, b, rfl, rfl⟩
    | _ => exact h.elim
  | _ => exact h.elim

theorem kind_of_timestamp {i : Int64} (hx : p.Takes (.timestamp i))
    (hs : p.slot B (.timestamp i) = some s) : p.kind = .time := by
  rcases slot_cases hx hs with ⟨h, -⟩ | ⟨-, j, h, -⟩ | ⟨hk, -⟩ | ⟨-, f, h, -⟩ | ⟨-, b, h, -⟩ |
    ⟨-, t, h, -⟩ | ⟨-, ⟨k, ⟨j, h, -⟩ | ⟨f, h, -⟩, -⟩ | ⟨t, h, -⟩⟩
  all_goals first | exact hk | cases h

theorem kind_of_int {i : Int64} (hx : p.Takes (.int i)) (hs : p.slot B (.int i) = some s) :
    p.kind = .int ∨ p.kind = .json := by
  rcases slot_cases hx hs with ⟨h, -⟩ | ⟨hk, -⟩ | ⟨-, j, h, -⟩ | ⟨-, f, h, -⟩ | ⟨-, b, h, -⟩ |
    ⟨-, t, h, -⟩ | ⟨hk, -⟩
  all_goals first | exact .inl hk | exact .inr hk | cases h

/-- Values of one part never meet as one float. -/
theorem not_meets (hx : p.Takes x) (hv : p.Takes v) (hs : p.slot B x = some s)
    (hs' : p.slot B v = some s') : ¬ Meets x v := by
  intro hmeets
  rcases meets_cases hmeets with ⟨a, b, rfl, rfl⟩ | ⟨a, b, rfl, rfl⟩
  · have htime := kind_of_timestamp hx hs
    rcases kind_of_int hv hs' with hk | hk <;> cases htime.symm.trans hk
  · have htime := kind_of_timestamp hv hs'
    rcases kind_of_int hx hs with hk | hk <;> cases htime.symm.trans hk

/-- **A value's slot answers as it compares with a literal, except where the two meet as one
float.** -/
theorem slot_exact (h : p.asKeyed v = some w) (hs' : p.slot B w = some s') (hx : p.Holds x)
    (hs : p.slot B x = some s) :
    s.cmp (textOrder B p.textColl) s' = cmpIn B p.order x v ↔ ¬ Meets x v := by
  rcases asKeyed_cases h with ⟨rfl, hv⟩ | ⟨hk, t, ms, rfl, hparse, rfl⟩ | ⟨hk, i, rfl, rfl⟩ |
    ⟨hk, i, rfl, hi, rfl⟩ | ⟨hk, i, rfl, hi, rfl⟩
  · exact iff_of_true (slots_order hx.takes hv hs hs') (not_meets hx.takes hv hs hs')
  all_goals
    obtain ⟨kind, desc, coll, fold⟩ := p
    subst hk
  · have hw : Part.Takes ⟨.time, desc, coll, fold⟩ (.timestamp ms) := fun _ => rfl
    rw [slots_order hx.takes hw hs hs']
    rcases typed_timestamp hx with rfl | ⟨a, rfl⟩
    · exact iff_of_true rfl not_false
    · refine iff_of_true ?_ not_false
      show compare a ms = Value.cmpValue (.timestamp a) (.text t)
      rw [Value.cmpValue, hparse]
  · have hw : Part.Takes ⟨.float, desc, coll, fold⟩ (.float (Ieee.ofInt i.toInt)) := fun _ => rfl
    rw [slots_order hx.takes hw hs hs']
    rcases typed_float hx with rfl | ⟨f, rfl⟩
    · exact iff_of_true rfl not_false
    · exact iff_of_true rfl not_false
  · cases hs'
    rcases typed_int hx with rfl | ⟨a, rfl⟩
    · cases hs
      exact iff_of_true rfl not_false
    · cases hs
      exact compare_intKey_iff hi
  · cases hs'
    rcases typed_timestamp hx with rfl | ⟨a, rfl⟩
    · cases hs
      exact iff_of_true rfl not_false
    · cases hs
      exact compare_intKey_iff hi

/-- Two parts of keys compare as their slots do, alone as in their keys. -/
theorem keyOrder_code (hp : p ∈ ps) (hs : s.Fits p.textColl) (hs' : s'.Fits p.textColl) :
    keyOrder B ps (p.code s) (p.code s') = p.cmpSlots B s s' := by
  unfold keyOrder
  split
  · obtain ⟨rest, hcode⟩ := code_head p s
    have hlen : (p.code s).length = rest.length + 1 := by rw [hcode, List.length_cons]
    have hcmp := cmpKeys_code (B := B) hs hs' [] [] rest.length
    rw [List.append_nil, List.append_nil] at hcmp
    rw [hlen, hcmp]
    cases rest.length <;> exact Ordering.then_eq
  · next hany =>
    have hplain := plain_of_coll (coll_of_any hany p hp)
    rw [cmp_keyBytes]
    exact (parted_code hs hs' (.inr ⟨hplain s, hplain s'⟩)).2

/-- A literal's slot fits, and its text where that is short. -/
theorem fits_asKeyed (h : p.asKeyed v = some w) (hshort : p.Short B v)
    (hs : p.slot B w = some s) : s.Fits p.textColl := by
  rcases asKeyed_cases h with ⟨rfl, hv⟩ | ⟨hk, t, ms, rfl, -, rfl⟩ | ⟨hk, i, rfl, rfl⟩ |
    ⟨hk, i, rfl, hi, rfl⟩ | ⟨hk, i, rfl, hi, rfl⟩
  · exact fits_slot hv hshort hs
  all_goals
    obtain ⟨kind, desc, coll, fold⟩ := p
    subst hk
  · cases hs
    exact intKey_lt ms
  · have hw : Part.Takes ⟨.float, desc, coll, fold⟩ (.float (Ieee.ofInt i.toInt)) := fun _ => rfl
    exact fits_slot hw (fun t ht => (by cases ht)) hs
  · cases hs
    exact intKey_lt i
  · cases hs
    exact intKey_lt i

/-- **A part's bytes answer as its value compares with a literal, except where the two meet as one
float.** -/
theorem literal_exact {bytes : Key} (hp : p ∈ ps) (h : p.literal B v = some bytes)
    (hx : p.Holds x) (happart : (putPart B p x).2 = false) (hshort : p.Short B x)
    (hshort' : p.Short B v) :
    keyOrder B ps (putPart B p x).1 bytes = p.cmp B x v ↔ ¬ Meets x v := by
  obtain ⟨w, hw, rfl⟩ := Option.map_eq_some_iff.mp h
  obtain ⟨s, hs⟩ := slot_of_not_apart happart
  obtain ⟨s', hs'⟩ := slot_asKeyed (B := B) hw
  rw [putPart_eq hs, putPart_eq hs', keyOrder_code hp (fits_slot hx.takes hshort hs)
    (fits_asKeyed hw hshort' hs'), ← slot_exact hw hs' hx hs]
  unfold Part.cmpSlots Part.cmp
  dsimp only
  split
  · exact Ordering.swap_inj
  · exact Iff.rfl

end Literal

/-! ## 4. Literals' keys -/

/-- **The key of a literal is exact except where it meets a value as one float though they differ**:
an ordered index's key, of every field type, and a composite index's, of every part in every
index it is of, a descending one's turned round. -/
theorem literal_keys_exact (B : Build) :
    (∀ (ty : DataType) (order : TextOrder) (v : Value) (k : SortedKey) (x : Value),
      SortedIndex.bound B ty order.fold v = some k → Typed ty x → x ≠ .null →
      (∀ f, x = .float f → f.isNaN = false) → (ty = .json → jsonSlot (some x) ≠ .apart) →
      ∃ k', SortedIndex.keyOf B ty order.fold x = some k' ∧
        (k'.cmp (textOrder B (SortedIndex.fieldOrder ty order).coll) k =
          cmpIn B (SortedIndex.fieldOrder ty order) x v ↔ ¬ Meets x v)) ∧
    ∀ (p : Part) (ps : List Part) (v : Value) (bytes : Key) (x : Value), p ∈ ps →
      p.literal B v = some bytes → p.Holds x → (putPart B p x).2 = false → p.Short B x →
      p.Short B v → (keyOrder B ps (putPart B p x).1 bytes = p.cmp B x v ↔ ¬ Meets x v) :=
  ⟨fun _ _ _ _ _ h hx hnull hnan hjson => bound_exact h hx hnull hnan hjson,
    fun _ _ _ _ _ hp h hx happart hshort hshort' =>
      literal_exact hp h hx happart hshort hshort'⟩

/-- A timestamp and an integer that do not meet. -/
theorem literal_keys_exact_apart : ∃ k',
    SortedIndex.keyOf Build.ascii .timestamp none (.timestamp 7) = some k' ∧
      k'.cmp (textOrder Build.ascii none) (.num (intKey 5)) =
        cmpIn Build.ascii .bytes (.timestamp 7) (.int 5) := by
  obtain ⟨k', hk', hiff⟩ := (literal_keys_exact Build.ascii).1 .timestamp .bytes (.int 5)
    (.num (intKey 5)) (.timestamp 7) rfl rfl (fun h => (by cases h)) (fun f h => (by cases h))
    (fun h => (by cases h))
  exact ⟨k', hk', hiff.mpr (by decide)⟩

/-- **The timestamp one past `2 ^ 53` compares equal to the integer `2 ^ 53`, and is filed above its
key**, in an ordered index and in a composite one. -/
theorem literal_key_misses :
    SortedIndex.bound Build.ascii .timestamp none (.int 9007199254740992) =
        some (.num (intKey 9007199254740992)) ∧
    SortedIndex.keyOf Build.ascii .timestamp none (.timestamp 9007199254740993) =
        some (.num (intKey 9007199254740993)) ∧
    compare (intKey 9007199254740993) (intKey 9007199254740992) = .gt ∧
    Value.cmpValue (.timestamp 9007199254740993) (.int 9007199254740992) = .eq ∧
    Part.literal Build.ascii ⟨.time, false, none, none⟩ (.int 9007199254740992) =
        some (putNum (intKey 9007199254740992)) ∧
    (putPart Build.ascii ⟨.time, false, none, none⟩ (.timestamp 9007199254740993)).1 =
        putNum (intKey 9007199254740993) ∧
    compare (putNum (intKey 9007199254740993)) (putNum (intKey 9007199254740992)) = .gt := by
  refine ⟨by decide, rfl, by decide, ?_, by decide, rfl, by decide⟩
  show Value.cmpFloat (Ieee.ofInt (9007199254740993 : Int64).toInt : F64)
    (Ieee.ofInt (9007199254740992 : Int64).toInt) = .eq
  have hmeets : Collides (9007199254740993 : Int64).toInt (9007199254740992 : Int64).toInt := by
    decide
  rw [cmpFloat_ofInt, ord_of_collides hmeets, Std.compare_self]

end Fenec
