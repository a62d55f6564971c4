/-
# The bound filter is the evaluator

On every stored row a bound filter gives the evaluator's answer, its errors included
(`matches_eq_eval`).  The proof is an induction over the expression with one lemma for each
shape the binding knows:

* **slots** (section 1): a slot reads what the evaluator reads for the name it came from, at
  every later stage of the binding, because reads only grow (`Reads.le`);
* **comparisons, `in` and `like`** (sections 2 to 4): against a literal, under the field's fold
  and collation, with the literal on either side;
* **patterns and points** (sections 5 and 6): where the binding has ruled every error out.

A `nocase` field is a text field and a row's values are of their fields' types, so that a fold
only ever meets a text or a null; a point read from a row is a point of the earth, so that the
latitudes' bound may stand for the distance.
-/
import Fenec.Filter

namespace Fenec

open Lib Case Codec

/-! ## 1. Slots -/

/-- Later reads keep what was read, the paths in their places. -/
def Reads.le (a b : Reads) : Prop := a.positions ⊆ b.positions ∧ a.paths <+: b.paths

theorem Reads.le_refl (a : Reads) : a.le a := ⟨List.Subset.refl _, List.prefix_rfl⟩

theorem Reads.le_trans {a b c : Reads} (hab : a.le b) (hbc : b.le c) : a.le c :=
  ⟨List.Subset.trans hab.1 hbc.1, hab.2.trans hbc.2⟩

namespace Filter

theorem mem_insertPos {p q : Nat} {l : List Nat} : q ∈ insertPos p l ↔ q = p ∨ q ∈ l := by
  induction l with
  | nil => simp [insertPos]
  | cons a l ih =>
    unfold insertPos
    split
    · split
      · next h => subst h; simp
      · simp
    · simp [ih, or_left_comm]

theorem slotOf_le (S : Schema) (e : Expr) (st : Reads) : st.le (slotOf S e st).2 := by
  unfold slotOf
  split
  · split
    · exact st.le_refl
    · split
      · split
        · split
          · exact st.le_refl
          · exact ⟨List.Subset.refl _, List.prefix_append _ _⟩
        · exact st.le_refl
      · split
        · exact ⟨fun q hq => mem_insertPos.mpr (.inr hq), List.prefix_rfl⟩
        · exact st.le_refl
  · exact st.le_refl

section Slots

variable {B : Build} (R : Rows) (ctx : EvalCtx B) (id : DocId)

theorem get_at {F : Reads} {p : Nat} (h : p ∈ F.positions) :
    get R id F (.at p) = (R.readField id p).getD .null := by
  have hlt : F.positions.idxOf p < F.positions.length := List.idxOf_lt_length_iff.mpr h
  simp only [get, vals, List.getD_eq_getElem?_getD]
  rw [List.getElem?_append_left (by simpa using hlt)]
  simp [List.getElem?_eq_getElem hlt]

theorem get_path {F : Reads} {n : Nat} {q : Nat × String} (h : F.paths[n]? = some q) :
    get R id F (.path n) = (R.readPath id q.1 q.2).getD .null := by
  simp only [get, vals, List.getD_eq_getElem?_getD]
  rw [List.getElem?_append_right (by simp)]
  simp [h]

/-- The order of a slot's texts. -/
def slotOrder (S : Schema) (s : Slot) : TextOrder :=
  ((slotField S s).map Field.textOrder).getD .bytes

theorem slotOrder_coll (S : Schema) (s : Slot) : (slotOrder S s).coll = slotColl S s := by
  unfold slotOrder slotColl
  cases slotField S s <;> rfl

theorem slotOrder_fold (S : Schema) (s : Slot) : (slotOrder S s).fold = slotFold S s := by
  unfold slotOrder slotFold
  cases slotField S s <;> rfl

/-- No field has a name the schema would not take. -/
theorem field_eq_none {name : String} (h : ∀ f ∈ R.schema.fields, f.name ≠ name) :
    R.schema.field name = none := by
  rw [Schema.field, List.find?_eq_none]
  intro f hf
  simpa using h f hf

/-- **A slot reads what the evaluator reads**, and its texts are in the order the evaluator
compares them in. -/
theorem slotOf_some {e : Expr} {st st' : Reads} {s : Slot}
    (h : slotOf R.schema e st = (some s, st')) :
    orderedAs (R.row id) e = slotOrder R.schema s ∧
    (∃ name, e = .field name ∧ ∀ f, slotField R.schema s = some f →
      R.schema.field name = some f) ∧
    ∀ F, st'.le F → eval ctx (R.row id) e = .ok (get R id F s) := by
  unfold slotOf at h
  split at h
  swap
  · cases h
  next name =>
  split at h
  · next hid =>
    cases h
    subst hid
    have hnone : R.schema.field "id" = none := field_eq_none R R.wf.not_id
    refine ⟨?_, ⟨_, rfl, by simp [slotField]⟩, ?_⟩
    · simp [orderedAs, Rows.row, hnone, slotOrder, slotField]
    · intro F _
      simp [eval, Rows.row, get]
  · next hid =>
    split at h
    · next hdot =>
      split at h
      swap
      · cases h
      next q hpath =>
      have hnone : R.schema.field name = none := by
        apply field_eq_none
        rintro f hf rfl
        exact R.wf.no_dot f hf hdot
      have hord : orderedAs (R.row id) (.field name) = .bytes := by
        simp [orderedAs, Rows.row, hnone]
      have heval : eval ctx (R.row id) (.field name) =
          .ok ((R.readPath id q.1 q.2).getD .null) := by
        obtain ⟨pos, keys⟩ := q
        simp [eval, hid, Rows.row, Schema.sourceOrErr, hpath, Rows.readSource]
      -- the path is the one met before, or the next one
      have hplace : ∃ n, s = .path n ∧ st'.paths[n]? = some q := by
        split at h
        · next n hn =>
          cases h
          exact ⟨n, rfl, by
            obtain ⟨hlt, heq, -⟩ := List.findIdx?_eq_some_iff_getElem.mp hn
            rw [List.getElem?_eq_getElem hlt, eq_of_beq heq]⟩
        · cases h
          exact ⟨_, rfl, by simp⟩
      obtain ⟨n, rfl, hn⟩ := hplace
      refine ⟨by simpa [slotOrder, slotField] using hord, ⟨_, rfl, by simp [slotField]⟩, ?_⟩
      intro F hF
      obtain ⟨rest, hrest⟩ := hF.2
      have hnF : F.paths[n]? = some q := by
        rw [← hrest, List.getElem?_append_left (List.getElem?_eq_some_iff.mp hn).1]
        exact hn
      rw [heval, get_path R id hnF]
    · next hdot =>
      split at h
      swap
      · cases h
      next p hpos =>
      cases h
      obtain ⟨hp, -, hfield⟩ := Schema.fieldPos_eq_some hpos
      have hget : R.schema.fields[p]? = some (R.schema.fields.get ⟨p, hp⟩) := by
        simp [List.getElem?_eq_getElem hp]
      refine ⟨?_, ⟨_, rfl, ?_⟩, ?_⟩
      · simp [orderedAs, Rows.row, hfield, slotOrder, slotField, hp]
      · intro f hf
        rw [slotField, hget] at hf
        rw [hfield, hf]
      · intro F hF
        have hmem : p ∈ F.positions := hF.1 (mem_insertPos.mpr (.inl rfl))
        have hpathOf : R.schema.pathOf name = .ok none := by
          rw [Schema.pathOf, splitPath_eq_none hdot]
        rw [get_at R id hmem]
        simp [eval, hid, Rows.row, Schema.sourceOrErr, hpathOf, hpos, Rows.readSource]

/-- What a field's slot reads is of the field's type. -/
theorem typed_get {F : Reads} {s : Slot} {e : Expr} {st st' : Reads}
    (h : slotOf R.schema e st = (some s, st')) (hF : st'.le F) {f : Field}
    (hf : slotField R.schema s = some f) : Typed f.ty (get R id F s) := by
  cases s with
  | id => cases hf
  | path n => cases hf
  | «at» p =>
    have hmem : p ∈ F.positions := by
      unfold slotOf at h
      split at h <;> try cases h
      split at h <;> try cases h
      split at h
      · split at h <;> try cases h
        split at h <;> cases h
      · split at h <;> cases h
        exact hF.1 (mem_insertPos.mpr (.inl rfl))
    rw [get_at R id hmem]
    exact R.typed_readField id hf

/-- A literal is its own value, and no field's. -/
theorem eval_valueOf {e : Expr} {v : Value} (h : valueOf ctx.params e = some v) (row : Row) :
    eval ctx row e = .ok v ∧ orderedAs row e = .bytes := by
  cases e with
  | lit w =>
    simp only [valueOf, Option.some.injEq] at h
    exact ⟨by rw [eval, h], rfl⟩
  | param i =>
    simp only [valueOf] at h
    exact ⟨by rw [eval, h], rfl⟩
  | _ => simp [valueOf] at h

end Slots

/-! ## 2. Comparisons -/

section Leaves

variable (B : Build)

/-- The order matters only between two texts. -/
theorem compareValues_order {op : CmpOp} {l r : Value} (o o' : TextOrder)
    (h : ¬(∃ x, l = .text x) ∨ ¬(∃ y, r = .text y)) :
    compareValues B op l r o = compareValues B op l r o' := by
  have hord : ordUnder B op l r o = ordUnder B op l r o' := by
    unfold ordUnder
    split
    · rfl
    · rfl
    · rcases h with h | h <;> exact absurd ⟨_, rfl⟩ h
    · rfl
  rw [compareValues, compareValues, hord]

theorem toList_whole (T : CharCase) (f : CaseFold) (x : String) :
    whole T f x = Case.fold T f x := by
  apply String.toList_inj.mp
  rw [whole, String.toList_ofList, foldInto_eq, toList_fold]

/-- A row's text against a folded literal is the two folds compared. -/
theorem cmpToFolded_fold (T : CharCase) (f : CaseFold) (x t : String) :
    cmpToFolded T f x.toList (Case.fold T f t).toList = cmpFolded T f x.toList t.toList := by
  rw [cmpToFolded_eq, cmpFolded_eq, toList_fold]

/-- **Two texts under a fold compare as the folded test compares them**, with the row's text on
either side. -/
theorem foldedTest_cmp_text (S : Schema) (s : Slot) (f : CaseFold) (op : CmpOp) (x t : String)
    (first : Bool) (coll : Option Collation) :
    foldedTest B S s (.text x) f (.cmp op (.text (Case.fold B.chars f t)) first coll) =
      if first then cmpUnder B op (.text x) (.text t) ⟨coll, some f⟩
      else cmpUnder B op (.text t) (.text x) ⟨coll, some f⟩ := by
  have heq : ∀ a b : String, eqFolded B.chars f a b =
      ((cmpFolded B.chars f a.toList b.toList) == .eq) := fun _ _ => rfl
  -- the order the evaluator compares two texts in, and the one the test does
  have hord : ∀ a b : String, (TextOrder.mk coll (some f)).compare B.chars B.collation a b =
      match coll with
      | none => cmpFolded B.chars f a.toList b.toList
      | some c => c.compare B.collation (Case.fold B.chars f a) (Case.fold B.chars f b) := by
    intro a b
    cases coll <;> rfl
  have hbytes : (TextOrder.mk coll (some f)).isBytes = false := by cases coll <;> rfl
  simp only [foldedTest, Value.asText, Option.getD_some, cmpToFolded_fold, toList_whole]
  cases first with
  | true =>
    cases op <;> cases coll <;>
      simp [cmpUnder, compareValues, ordUnder, Value.isNull, CmpOp.holds, heq, hord, hbytes,
        bne]
  | false =>
    have hswap := cmpFolded_swap B.chars f x.toList t.toList
    have hcoll : ∀ c : Collation,
        c.compare B.collation (Case.fold B.chars f t) (Case.fold B.chars f x) =
          (c.compare B.collation (Case.fold B.chars f x) (Case.fold B.chars f t)).swap :=
      fun c => Collation.compare_swap _ c _ _
    cases op <;> cases coll <;>
      simp [cmpUnder, compareValues, ordUnder, Value.isNull, CmpOp.holds, heq, hord, hbytes,
        hswap, hcoll, bne]

variable {B} (R : Rows) (ctx : EvalCtx B) (id : DocId) (F : Reads)

/-- What a slot with a type reads is of it. -/
theorem typed_get_slotType {s : Slot} {e : Expr} {st st' : Reads} {ty : DataType}
    (h : slotOf R.schema e st = (some s, st')) (hF : st'.le F)
    (ht : slotType R.schema s = some ty) : Typed ty (get R id F s) := by
  cases s with
  | id =>
    cases ht
    rfl
  | path n => cases ht
  | «at» p =>
    obtain ⟨f, hf, rfl⟩ := Option.map_eq_some_iff.mp ht
    exact typed_get R id h hF hf

/-- A slot with a fold reads a text field. -/
theorem slotType_of_fold {s : Slot} {f : CaseFold} (hf : slotFold R.schema s = some f) :
    slotType R.schema s = some .text := by
  obtain ⟨fld, hfld, hcase⟩ := Option.bind_eq_some_iff.mp hf
  cases s with
  | id => cases hfld
  | path n => cases hfld
  | «at» p =>
    have hno : fld.nocase = true := by
      unfold Field.caseFold at hcase
      split at hcase
      · assumption
      · cases hcase
    have hget : R.schema.fields[p]? = some fld := hfld
    simp [slotType, hget, R.wf.nocase_text fld (List.mem_of_getElem? hget) hno]

/-- A `nocase` field's slot reads a text or nothing. -/
theorem get_of_fold {s : Slot} {e : Expr} {st st' : Reads}
    (h : slotOf R.schema e st = (some s, st')) (hF : st'.le F) {f : CaseFold}
    (hf : slotFold R.schema s = some f) :
    get R id F s = .null ∨ ∃ x, get R id F s = .text x :=
  typed_text (typed_get_slotType R id F h hF (slotType_of_fold R hf))

/-- **A bound comparison is the evaluator's.** -/
theorem test_bindCmp {s : Slot} {e : Expr} {st st' : Reads} {v : Value} {op : CmpOp}
    {first : Bool} (h : slotOf R.schema e st = (some s, st')) (hF : st'.le F) :
    test R ctx id F (bindCmp (B := B) R.schema op s v first) =
      .ok (if first then cmpUnder B op (get R id F s) v (slotOrder R.schema s)
        else cmpUnder B op v (get R id F s) (slotOrder R.schema s)) := by
  have horder : slotOrder R.schema s = ⟨slotColl R.schema s, slotFold R.schema s⟩ := by
    rw [← slotOrder_coll, ← slotOrder_fold]
  rw [horder]
  unfold bindCmp
  split
  · next f t hf =>
    simp only [test, foldValue, Except.ok.injEq]
    rcases get_of_fold R id F h hF hf with hx | ⟨x, hx⟩
    · rw [hx]
      simp only [foldedTest, hf]
      cases first
      · cases op <;> simp [cmpUnder, compareValues, Value.isNull]
      · cases op <;> simp [cmpUnder, compareValues, Value.isNull]
    · rw [hx, foldedTest_cmp_text, hf]
  · next v _ _ hnot =>
    simp only [test, Except.ok.injEq]
    -- no fold, or a literal that is no text: the fold is never asked
    have hplain : ∀ l r : Value, (l = v ∨ r = v) →
        cmpUnder B op l r ⟨slotColl R.schema s, slotFold R.schema s⟩ =
          compareValues B op l r ⟨slotColl R.schema s, none⟩ := by
      intro l r hlr
      cases hf : slotFold R.schema s with
      | none => cases op <;> simp [cmpUnder]
      | some f =>
        have hv : ¬∃ t, v = .text t := by
          rintro ⟨t, rfl⟩
          exact hnot f t hf rfl
        have hside : ¬(∃ x, l = .text x) ∨ ¬(∃ y, r = .text y) := by
          rcases hlr with rfl | rfl
          · exact .inl hv
          · exact .inr hv
        rw [← compareValues_order B ⟨slotColl R.schema s, some f⟩ _ hside]
        unfold cmpUnder
        split
        · rcases hside with hs | hs <;> exact absurd ⟨_, rfl⟩ hs
        · rcases hside with hs | hs <;> exact absurd ⟨_, rfl⟩ hs
        · rfl
    cases first
    · simp [hplain v _ (.inl rfl)]
    · simp [hplain _ v (.inr rfl)]

/-! ## 3. `in` -/

theorem evalIn_valuesOf (fold : Option CaseFold) (x : Value) (row : Row) {items : List Expr}
    {values : List Value} (h : valuesOf ctx items = some values) :
    evalIn ctx row fold x items = .ok (values.any fun v => inSame B fold v x) := by
  induction items generalizing values with
  | nil =>
    simp only [valuesOf, Option.some.injEq] at h
    simp [← h, evalIn]
  | cons it rest ih =>
    obtain ⟨v, hv, hrest⟩ := Option.bind_eq_some_iff.mp h
    obtain ⟨vs, hvs, rfl⟩ := Option.map_eq_some_iff.mp hrest
    rw [evalIn, (eval_valueOf ctx hv row).1, Result.ok_bind, ih hvs]
    cases hs : inSame B fold v x <;> simp [hs]

/-- A value of one of the keyed kinds compares equal to another of its kind exactly when it is
that value. -/
theorem cmpValue_eq_of_sameKind {ty : DataType} {v x : Value} (hv : sameKind ty v = true)
    (hx : sameKind ty x = true) : (v.cmpValue x == .eq) = decide (v = x) := by
  have hiff : v.cmpValue x = .eq ↔ v = x := by
    cases ty <;> cases v <;> simp [sameKind] at hv <;> cases x <;> simp [sameKind] at hx <;>
      simp [Value.cmpValue, cmpStr_eq_iff]
  rw [Bool.eq_iff_iff, beq_iff_eq, decide_eq_true_eq, hiff]

/-- A value of a keyed type is of its kind, or null. -/
theorem sameKind_of_typed {ty : DataType} {v w : Value} (hw : sameKind ty w = true)
    (hv : Typed ty v) : v = .null ∨ sameKind ty v = true := by
  cases ty <;> cases w <;> simp [sameKind] at hw
  · rcases typed_bool hv with rfl | ⟨b, rfl⟩ <;> simp [sameKind]
  · rcases typed_int hv with rfl | ⟨i, rfl⟩ <;> simp [sameKind]
  · rcases typed_text hv with rfl | ⟨t, rfl⟩ <;> simp [sameKind]
  · rcases typed_timestamp hv with rfl | ⟨ms, rfl⟩ <;> simp [sameKind]

/-- **Looking a value up by its bytes is comparing it with each.** -/
theorem inSet_contains {S : Schema} {s : Slot} {values : List Value} {set : List (List UInt8)}
    {x : Value} (h : inSet S s values = some set)
    (hx : ∀ ty, slotType S s = some ty → Typed ty x) :
    (!x.isNull && set.contains (encodeValue x)) = values.any fun v => v.cmpValue x == .eq := by
  obtain ⟨ty, hty, hall⟩ := Option.bind_eq_some_iff.mp h
  split at hall
  swap
  · cases hall
  next hkinds =>
  cases hall
  have hmem : (values.map encodeValue).contains (encodeValue x) = decide (x ∈ values) := by
    rw [Bool.eq_iff_iff, List.contains_iff_mem, List.mem_map, decide_eq_true_eq]
    exact ⟨fun ⟨w, hw, heq⟩ => encodeValue_inj heq ▸ hw, fun hw => ⟨x, hw, rfl⟩⟩
  rw [hmem]
  by_cases hnull : x = .null
  · -- a null is in no such list, and equal to none of its values
    subst hnull
    have hno : (values.any fun v => v.cmpValue .null == .eq) = false := by
      rw [List.any_eq_false]
      intro w hw heq
      rw [beq_iff_eq, Value.cmpValue_null_eq] at heq
      have := List.all_eq_true.mp hkinds w hw
      rw [heq] at this
      cases ty <;> simp [sameKind] at this
    simp [Value.isNull, hno]
  · have hnn : x.isNull = false := by
      cases x <;> first | rfl | exact absurd rfl hnull
    rw [hnn, Bool.not_false, Bool.true_and, Bool.eq_iff_iff, List.any_eq_true,
      decide_eq_true_eq]
    constructor
    · intro hx'
      have hk := List.all_eq_true.mp hkinds x hx'
      exact ⟨x, hx', by rw [cmpValue_eq_of_sameKind hk hk]; simp⟩
    · rintro ⟨w, hw, heq⟩
      have hk := List.all_eq_true.mp hkinds w hw
      rcases sameKind_of_typed hk (hx ty hty) with h0 | hxk
      · exact absurd h0 hnull
      · rw [cmpValue_eq_of_sameKind hk hxk, decide_eq_true_eq] at heq
        exact heq ▸ hw

/-- A folded literal against a row's text is the literal against it under the fold. -/
theorem foldedIn_text (f : CaseFold) (x : String) (values : List Value) :
    foldedTest.foldedIn B f (.text x) (values.map (foldValue B.chars f)) =
      values.any fun v => inSame B (some f) v (.text x) := by
  rw [foldedTest.foldedIn, List.any_map]
  congr 1
  funext v
  cases v with
  | text t =>
    simp only [Function.comp, foldValue, inSame, eqFolded, cmpToFolded_fold]
    rw [cmpFolded_swap]
    cases cmpFolded B.chars f t.toList x.toList <;> rfl
  | _ => rfl

theorem foldedIn_null (f : CaseFold) (values : List Value) :
    foldedTest.foldedIn B f .null (values.map (foldValue B.chars f)) =
      values.any fun v => inSame B (some f) v .null := by
  rw [foldedTest.foldedIn, List.any_map]
  congr 1
  funext v
  cases v <;> rfl

theorem any_congr_mem {α : Type} {l : List α} {p q : α → Bool} (h : ∀ a ∈ l, p a = q a) :
    l.any p = l.any q := by
  induction l with
  | nil => rfl
  | cons a l ih =>
    rw [List.any_cons, List.any_cons, h a (List.mem_cons_self ..),
      ih fun b hb => h b (List.mem_cons_of_mem _ hb)]

/-- A set of folds asked for a row's fold is the folds compared one by one. -/
theorem foldedTest_inSet {S : Schema} {s : Slot} {f : CaseFold} {v : Value}
    {values : List Value} (ht : slotType S s = some .text) (hv : v = .null ∨ ∃ x, v = .text x) :
    foldedTest B S s v f (.inSet values) = foldedTest.foldedIn B f v values := by
  rcases hv with rfl | ⟨x, rfl⟩
  · rfl
  · simp only [foldedTest]
    cases hset : inSet S s values with
    | none => rfl
    | some set =>
      have hsel := inSet_contains (x := .text (Case.fold B.chars f x)) hset fun ty hty => by
        rw [ht] at hty
        cases hty
        rfl
      simp only [Value.isNull, Bool.not_false, Bool.true_and] at hsel
      simp only [toList_whole, hsel]
      apply any_congr_mem
      intro w hw
      -- the set exists, so every value of the list is a text
      obtain ⟨ty, hty, hall⟩ := Option.bind_eq_some_iff.mp hset
      rw [ht] at hty
      cases hty
      split at hall
      swap
      · cases hall
      next hkinds =>
      have hk := List.all_eq_true.mp hkinds w hw
      cases w <;> simp [sameKind] at hk
      simp only [Value.cmpValue, cmpStr, cmpToFolded_eq, toList_fold]
      rw [Std.OrientedOrd.eq_swap]
      cases compare (folds B.chars f x.toList) _ <;> rfl

/-- **A bound `in` is the evaluator's.** -/
theorem test_bindIn {s : Slot} {e : Expr} {st st' : Reads} {values : List Value}
    (h : slotOf R.schema e st = (some s, st')) (hF : st'.le F) :
    test R ctx id F (bindIn (B := B) R.schema s values) =
      .ok (values.any fun v => inSame B (slotFold R.schema s) v (get R id F s)) := by
  unfold bindIn
  split
  · next f hf =>
    rw [hf]
    have hv := get_of_fold R id F h hF hf
    -- under a fold the row holds a text or a null, and each value has been folded
    have hlist : foldedTest.foldedIn B f (get R id F s) (values.map (foldValue B.chars f)) =
        values.any fun v => inSame B (some f) v (get R id F s) := by
      rcases hv with hx | ⟨x, hx⟩
      · rw [hx]; exact foldedIn_null f values
      · rw [hx]; exact foldedIn_text f x values
    simp only [test, Except.ok.injEq]
    split
    · rw [foldedTest_inSet (slotType_of_fold R hf) hv, hlist]
    · rw [← hlist]
      rfl
  · next hf =>
    rw [hf]
    have hsame : ∀ v x : Value, inSame B none v x = (v.cmpValue x == .eq) := by
      intro v x
      cases v <;> cases x <;> rfl
    simp only [hsame]
    split
    · simp only [test, Except.ok.injEq]
      split
      · next set hset =>
        exact inSet_contains hset fun ty hty => typed_get_slotType R id F h hF hty
      · rfl
    · rfl

/-! ## 4. `like` -/

/-- **A bound `like` is the evaluator's.** -/
theorem test_bindLike {s : Slot} {e : Expr} {st st' : Reads} {v : Value}
    (h : slotOf R.schema e st = (some s, st')) (hF : st'.le F) :
    test R ctx id F (bindLike (B := B) R.schema s v) =
      .ok (match get R id F s, v with
        | .text hay, .text needle =>
          likeMatch B.chars (fit B.chars (slotFold R.schema s) hay)
            (fit B.chars (slotFold R.schema s) needle)
        | _, _ => false) := by
  unfold bindLike
  split
  · next f t hf =>
    simp only [test, Except.ok.injEq, hf]
    rcases get_of_fold R id F h hF hf with hx | ⟨x, hx⟩
    · rw [hx]; rfl
    · rw [hx]
      simp only [foldedTest, fit, toList_whole, likeMatch_fold]
  · next v _ _ hnot =>
    simp only [test, Except.ok.injEq]
    cases hx : get R id F s with
    | text hay =>
      cases v with
      | text needle =>
        have hf : slotFold R.schema s = none := by
          cases hf : slotFold R.schema s with
          | none => rfl
          | some f => exact (hnot f needle hf rfl).elim
        rw [hf]
        rfl
      | _ => rfl
    | _ => rfl

/-! ## 5. Patterns -/

theorem evalEscape_escapeOf {e : List Expr} {esc : String} (row : Row)
    (h : escapeOf ctx e = some esc) : evalEscape ctx row e = .ok (.text esc) := by
  unfold escapeOf at h
  split at h
  · cases h; rfl
  · next e =>
    split at h
    · next t ht =>
      cases h
      rw [evalEscape, (eval_valueOf ctx ht row).1]
    · cases h
  · cases h

/-- What a pattern that was bound is: of a text field, its escape and itself no error. -/
theorem bindPattern_eq_some {s : Slot} {p : Expr} {rest : List Expr} {ci : Bool} {t : Test}
    (ht : bindPattern R.schema ctx ci s p rest = some t) :
    ∃ field esc pat fold, slotField R.schema s = some field ∧ field.ty = .text ∧
      fold = field.caseFold.or (if ci then some .unicode else none) ∧
      escapeOf ctx rest = some esc ∧ valueOf ctx.params p = some (.text pat) ∧
      ¬(1 < esc.length || fit B.chars fold esc != esc) = true ∧
      (∃ m, likePattern [] (utf8 (fit B.chars fold pat).toList) (utf8 esc.toList) = some m) ∧
      t = .pattern s (fit B.chars fold pat) esc fold := by
  unfold bindPattern at ht
  split at ht
  swap
  · cases ht
  next field hfield =>
  split at ht
  · cases ht
  next hty =>
  obtain ⟨esc, hesc, ht⟩ := Option.bind_eq_some_iff.mp ht
  split at ht
  swap
  · cases ht
  next pat hpat =>
  refine ⟨field, esc, pat, _, hfield, not_not.mp hty, rfl, hesc, hpat, ?_⟩
  generalize field.caseFold.or (if ci = true then some CaseFold.unicode else none) = fold at ht ⊢
  dsimp only at ht
  split at ht
  · cases ht
  next hbad =>
  split at ht
  · next m hm =>
    cases ht
    exact ⟨hbad, ⟨m, hm⟩, rfl⟩
  · cases ht

/-- **A bound pattern is the evaluator's**: what could have been an error was left unbound. -/
theorem test_bindPattern {s : Slot} {x p : Expr} {rest : List Expr} {st st' : Reads}
    {name : String} {t : Test} (hname : name = "like" ∨ name = "ilike")
    (h : slotOf R.schema x st = (some s, st')) (hF : st'.le F)
    (ht : bindPattern R.schema ctx (name == "ilike") s p rest = some t) :
    test R ctx id F t =
      (eval ctx (R.row id) (.call name (x :: p :: rest))).map Value.truthy := by
  obtain ⟨-, ⟨nm, rfl, hnm⟩, hval⟩ := slotOf_some R ctx id h
  obtain ⟨field, esc, pat, fold, hfield, hty, hfold, hesc, hpat, hbad, ⟨m, hm⟩, rfl⟩ :=
    bindPattern_eq_some R ctx ht
  -- the evaluator reads the same text, pattern and escape, under the same fold
  have hfolded : foldedAs (R.row id) (.field nm) = field.caseFold := by
    show ((R.row id).textOrder nm).fold = _
    simp [Rows.row, hnm field hfield, Field.textOrder]
  have heval : eval ctx (R.row id) (.call name (.field nm :: p :: rest)) =
      sqlLike B fold (get R id F s) (.text pat) (.text esc) := by
    have hcase : name ≠ "case" := by rcases hname with rfl | rfl <;> decide
    rw [eval]
    simp only [List.isEmpty_cons, Bool.false_and, if_neg hcase, if_pos hname, hfolded,
      hval F hF, (eval_valueOf ctx hpat _).1, evalEscape_escapeOf ctx _ hesc, Result.ok_bind]
    rw [hfold]
    simp only [beq_iff_eq]
    cases ctx.clock <;> rfl
  have hdang : dangling (utf8 esc.toList)
      ((utf8 (fit B.chars fold pat).toList).length + 1)
      (utf8 (fit B.chars fold pat).toList) = false := by
    by_contra hd
    rw [likePattern_eq_none.mpr (by simpa using hd)] at hm
    cases hm
  rw [heval]
  rcases typed_text (hty ▸ typed_get R id h hF hfield) with hx | ⟨hay, hx⟩
  · rw [test, hx]
    rfl
  · simp only [test, hx, sqlLike, if_neg hbad]
    cases hl : likePattern (utf8 (fit B.chars fold hay).toList)
        (utf8 (fit B.chars fold pat).toList) (utf8 esc.toList) with
    | none =>
      rw [likePattern_eq_none, hdang] at hl
      cases hl
    | some m => cases m <;> rfl

/-! ## 6. Points -/

/-- A bound past `r` and a distance past `r` compare with `r` alike. -/
theorem compareValues_past {op : CmpOp} {value : Value} {r x y : F64}
    (hr : value.asF64 = some r) (hx : r.lt x = true) (hy : r.lt y = true) :
    compareValues B op (.float x) value .bytes = compareValues B op (.float y) value .bytes ∧
    compareValues B op value (.float x) .bytes = compareValues B op value (.float y) .bytes := by
  obtain ⟨hrn, hxn, hxlt⟩ := Ieee.lt_iff.mp hx
  obtain ⟨-, hyn, hylt⟩ := Ieee.lt_iff.mp hy
  have hgt : ∀ z : F64, z.isNaN = false → r.ord < z.ord →
      Value.cmpFloat z r = .gt ∧ Value.cmpFloat r z = .lt := by
    intro z hz hlt
    constructor
    · simp [Value.cmpFloat, Ieee.partialCmp, hrn, hz, compare_gt_iff_gt.mpr hlt]
    · simp [Value.cmpFloat, Ieee.partialCmp, hrn, hz, compare_lt_iff_lt.mpr hlt]
  have hcmp : ∀ z : F64, z.isNaN = false → r.ord < z.ord →
      (Value.float z).cmpValue value = .gt ∧ value.cmpValue (.float z) = .lt := by
    intro z hz hlt
    cases value <;> simp [Value.asF64] at hr <;>
      simp [Value.cmpValue, Value.asF64, hr, hgt z hz hlt]
  have hord : ∀ z : F64, z.isNaN = false → r.ord < z.ord →
      ordUnder B op (.float z) value .bytes = .gt ∧
      ordUnder B op value (.float z) .bytes = .lt := by
    intro z hz hlt
    obtain ⟨h1, h2⟩ := hcmp z hz hlt
    cases op <;> cases value <;> simp_all [ordUnder]
  constructor
  · simp only [compareValues, Value.isNull, (hord x hxn hxlt).1, (hord y hyn hylt).1]
  · simp only [compareValues, Value.isNull, (hord x hxn hxlt).2, (hord y hyn hylt).2]

/-- A geo field's slot reads nothing, or a point of the earth. -/
theorem get_of_isPoint {s : Slot} {e : Expr} {st st' : Reads}
    (h : slotOf R.schema e st = (some s, st')) (hF : st'.le F) (hp : isPoint R.schema e = true) :
    get R id F s = .null ∨ ∃ q, get R id F s = Geo.geoValue q ∧
      Geo.pointOf (get R id F s) = .ok (some q) ∧ Geo.valid q.1 q.2 = true := by
  obtain ⟨name, rfl⟩ : ∃ name, e = .field name := by
    cases e <;> first | exact ⟨_, rfl⟩ | cases hp
  obtain ⟨f, hf, hgeo⟩ : ∃ f, R.schema.field name = some f ∧ f.ty = .geo := by
    simpa [isPoint, Option.any_eq_true] using hp
  have hmem : f ∈ R.schema.fields := List.mem_of_find?_eq_some hf
  have hname : f.name = name := by simpa using List.find?_some hf
  -- a declared field is bare and not `id`, so its slot is its position
  have hslot : slotField R.schema s = some f := by
    have hid : name ≠ "id" := hname ▸ R.wf.not_id f hmem
    have hdot : '.' ∉ name.toList := hname ▸ R.wf.no_dot f hmem
    simp only [slotOf, if_neg hid, if_neg hdot] at h
    split at h
    · next p hpos =>
      cases h
      obtain ⟨hp, -, hfield⟩ := Schema.fieldPos_eq_some hpos
      rw [hfield] at hf
      simp [slotField, List.getElem?_eq_getElem hp] at hf ⊢
      exact hf
    · cases h
  exact typed_geo (hgeo ▸ typed_get R id h hF hslot)

/-- Evaluating a call of two arguments by a name that is no syntax. -/
theorem eval_call_two {name : String} {a b : Expr} {x y : Value} (row : Row)
    (hcase : name ≠ "case") (hlike : ¬(name = "like" ∨ name = "ilike"))
    (ha : eval ctx row a = .ok x) (hb : eval ctx row b = .ok y) :
    eval ctx row (.call name [a, b]) = ctx.registry.call name [x, y] := by
  rw [eval]
  simp only [List.isEmpty_cons, Bool.false_and, if_neg hcase, if_neg hlike, evalArgs, ha, hb,
    Result.ok_bind, Result.pure_eq]
  cases ctx.clock <;> rfl

/-- A geo function's name is none of the evaluator's own words. -/
theorem not_syntax {name g : String} (hg : g = "distance" ∨ g = "within")
    (h : sameName name g = true) : name ≠ "case" ∧ ¬(name = "like" ∨ name = "ilike") := by
  rcases hg with rfl | rfl <;> refine ⟨?_, ?_⟩
  all_goals first
    | (rintro rfl; revert h; decide)
    | (rintro (rfl | rfl) <;> (revert h; decide))

/-- A call of `distance` the binding took apart, evaluated: the distance between the point the
field's slot reads and the constant one, in the order they are named. -/
theorem eval_distanceOf {e field : Expr} {centre : Geo.Point} {first : Bool} {s : Slot}
    {st st' : Reads} (hd : distanceOf R.schema ctx e = some (field, centre, first))
    (h : slotOf R.schema field st = (some s, st')) (hF : st'.le F) :
    isPoint R.schema field = true ∧ Geo.valid centre.1 centre.2 = true ∧
    orderedAs (R.row id) e = .bytes ∧
    eval ctx (R.row id) e = .ok (match Geo.pointIn (get R id F s) with
      | some p => .float (if first then B.geo.distance p centre else B.geo.distance centre p)
      | none => .null) := by
  unfold distanceOf at hd
  split at hd
  swap
  · cases hd
  next name a b =>
  split at hd
  swap
  · cases hd
  next hname =>
  obtain ⟨⟨fld, other, fst⟩, hsides, hd⟩ := Option.bind_eq_some_iff.mp hd
  obtain ⟨v, hv, hd⟩ := Option.bind_eq_some_iff.mp hd
  split at hd
  swap
  · cases hd
  next p hp =>
  cases hd
  obtain ⟨hcase, hlike⟩ := not_syntax (.inl rfl) hname
  obtain ⟨-, -, hval⟩ := slotOf_some R ctx id h
  have hother := (eval_valueOf ctx hv (R.row id)).1
  have hside : isPoint R.schema field = true ∧
      ((a = field ∧ b = other ∧ first = true) ∨ (b = field ∧ a = other ∧ first = false)) := by
    split at hsides
    · next ha => cases hsides; exact ⟨ha, .inl ⟨rfl, rfl, rfl⟩⟩
    · next ha hb => cases hsides; exact ⟨hb, .inr ⟨rfl, rfl, rfl⟩⟩
    · cases hsides
  refine ⟨hside.1, Geo.valid_of_pointOf hp, rfl, ?_⟩
  have hpt := get_of_isPoint R id F h hF hside.1
  rcases hside.2 with ⟨rfl, rfl, rfl⟩ | ⟨rfl, rfl, rfl⟩
  · rw [eval_call_two ctx _ hcase hlike (hval F hF) hother, Registry.call_distance _ hname]
    rcases hpt with hx | ⟨q, hx, hq, -⟩
    · simp [hx, Geo.distanceFn, Geo.pointIn, hp]
    · simp [Geo.distanceFn, hq, hp]
      simp [hx]
  · rw [eval_call_two ctx _ hcase hlike hother (hval F hF), Registry.call_distance _ hname]
    rcases hpt with hx | ⟨q, hx, hq, -⟩
    · simp [hx, Geo.distanceFn, Geo.pointIn, hp]
    · simp [Geo.distanceFn, hq, hp]
      simp [hx]

/-- **A bound distance compares as the distance does.** -/
theorem compareValues_distanceTo (op : CmpOp) {x : Value} (value : Value) {centre : Geo.Point}
    (first : Bool)
    (hx : x = .null ∨ ∃ q, x = Geo.geoValue q ∧ Geo.pointOf x = .ok (some q) ∧
      Geo.valid q.1 q.2 = true) (hc : Geo.valid centre.1 centre.2 = true) :
    let d := match Geo.pointIn x with
      | some p => Value.float (if first then B.geo.distance p centre else
          B.geo.distance centre p)
      | none => .null
    compareValues B op (distanceTo B x centre first value) value .bytes =
      compareValues B op d value .bytes ∧
    compareValues B op value (distanceTo B x centre first value) .bytes =
      compareValues B op value d .bytes := by
  rcases hx with rfl | ⟨q, rfl, -, hq⟩
  · exact ⟨rfl, rfl⟩
  · simp only [distanceTo, Geo.pointIn_geoValue]
    cases hpast : value.asF64.bind (Geo.past q centre) with
    | none => exact ⟨rfl, rfl⟩
    | some floor =>
      obtain ⟨r, hr, hfl⟩ := Option.bind_eq_some_iff.mp hpast
      obtain ⟨h1, h2⟩ := B.geo.past_lt q centre r floor hq hc hfl
      apply compareValues_past hr (Geo.past_eq_some hfl)
      cases first
      · exact h2
      · exact h1

/-- **A bound geo test is the evaluator's.** -/
theorem test_bindGeo {e field : Expr} {mk : Slot → Test} {s : Slot} {st st' : Reads}
    (hg : bindGeo R.schema ctx e = some (field, mk))
    (h : slotOf R.schema field st = (some s, st')) (hF : st'.le F) :
    test R ctx id F (mk s) = (eval ctx (R.row id) e).map Value.truthy := by
  unfold bindGeo at hg
  split at hg
  · next op a b =>
    obtain ⟨⟨⟨fld, centre, first⟩, other, callFirst⟩, hcall, hg⟩ :=
      Option.bind_eq_some_iff.mp hg
    obtain ⟨v, hv, hg⟩ := Option.map_eq_some_iff.mp hg
    cases hg
    have hother := eval_valueOf ctx hv (R.row id)
    have hbb : (TextOrder.bytes).isBytes = true := rfl
    have hunder : ∀ l r : Value, cmpUnder B op l r .bytes = compareValues B op l r .bytes := by
      intro l r
      cases op <;> cases l <;> cases r <;> rfl
    split at hcall
    · next d hd =>
      cases hcall
      obtain ⟨hpoint, hcentre, hord, hev⟩ := eval_distanceOf R ctx id F hd h hF
      have hcmp := compareValues_distanceTo (B := B) op v first
        (get_of_isPoint R id F h hF hpoint) hcentre
      simp only [test, if_true, hcmp.1]
      rw [eval, hev, hother.1]
      simp [cmpSides, hord, hother.2, hbb, hunder, Value.truthy]
    · obtain ⟨d, hd, hcall⟩ := Option.map_eq_some_iff.mp hcall
      cases hcall
      obtain ⟨hpoint, hcentre, hord, hev⟩ := eval_distanceOf R ctx id F hd h hF
      have hcmp := compareValues_distanceTo (B := B) op v first
        (get_of_isPoint R id F h hF hpoint) hcentre
      simp only [test, Bool.false_eq_true, if_false, hcmp.2]
      rw [eval, hev, hother.1]
      simp [cmpSides, hord, hother.2, hbb, hunder, Value.truthy]
  · next name f b =>
    split at hg
    swap
    · cases hg
    next hname =>
    obtain ⟨v, hv, hg⟩ := Option.bind_eq_some_iff.mp hg
    split at hg
    swap
    · cases hg
    next bx hbx =>
    split at hg
    swap
    · cases hg
    next hpoint =>
    cases hg
    obtain ⟨hcase, hlike⟩ := not_syntax (.inr rfl) hname
    obtain ⟨-, -, hval⟩ := slotOf_some R ctx id h
    rw [eval_call_two ctx _ hcase hlike (hval F hF) (eval_valueOf ctx hv (R.row id)).1,
      Registry.call_within _ hname]
    rcases get_of_isPoint R id F h hF hpoint with hx | ⟨q, hx, hq, -⟩
    · simp [test, hx, Geo.withinFn, Geo.pointIn, hbx, Value.truthy]
    · simp [test, Geo.withinFn, hq, hbx, Value.truthy]
      simp [hx]
  · cases hg

end Leaves

/-! ## 7. The whole filter -/

section Whole

variable {B : Build} (R : Rows) (ctx : EvalCtx B) (id : DocId)

/-- A binding is sound: it only adds reads, and with those or any later reads its test answers
as the expression evaluates. -/
def Sound (e : Expr) (st : Reads) (r : Test × Reads) : Prop :=
  st.le r.2 ∧ ∀ F, r.2.le F →
    test R ctx id F r.1 = (eval ctx (R.row id) e).map Value.truthy

/-- Leaving the expression as it is, after asking for slots, is sound. -/
theorem sound_eval {e : Expr} {st st' : Reads} (h : st.le st') :
    Sound R ctx id e st (.eval e, st') := ⟨h, fun _ _ => rfl⟩

theorem slotOf_mono {S : Schema} {e : Expr} {st st' : Reads} {o : Option Slot}
    (h : slotOf S e st = (o, st')) : st.le st' := by
  have := slotOf_le S e st
  rwa [h] at this

/-- The evaluator reads a slot's texts under the slot's fold. -/
theorem foldedAs_slotOf (ctx : EvalCtx B) {e : Expr} {st st' : Reads} {s : Slot}
    (h : slotOf R.schema e st = (some s, st')) :
    foldedAs (R.row id) e = slotFold R.schema s := by
  obtain ⟨hord, ⟨name, rfl, -⟩, -⟩ := slotOf_some R ctx id h
  rw [← slotOrder_fold, ← hord]
  rfl

theorem sound_cmp (op : CmpOp) (a b : Expr) (st : Reads) :
    Sound R ctx id (.cmp op a b) st (bindLeaf R.schema ctx (.cmp op a b) st) := by
  have hbytes : TextOrder.bytes.isBytes = true := rfl
  rcases ha : slotOf R.schema a st with ⟨sa, st1⟩
  rcases hb : slotOf R.schema b st1 with ⟨sb, st2⟩
  simp only [bindLeaf, ha, hb]
  have hle : st.le st2 := Reads.le_trans (slotOf_mono ha) (slotOf_mono hb)
  split
  · next _ s v hv =>
    -- the row's value first
    obtain ⟨hord, -, hval⟩ := slotOf_some R ctx id ha
    have hlit := eval_valueOf ctx hv (R.row id)
    refine ⟨hle, fun F hF => ?_⟩
    have hF1 : st1.le F := Reads.le_trans (slotOf_mono hb) hF
    rw [test_bindCmp R ctx id F ha hF1, eval, hval F hF1, hlit.1]
    simp only [Result.ok_bind, Result.pure_eq, Result.ok_map, Value.truthy_bool, cmpSides, hord,
      hlit.2, if_true]
    split
    · next hb' => rw [TextOrder.eq_bytes hb']
    · rfl
  · next s v hv _ =>
    obtain ⟨hord, -, hval⟩ := slotOf_some R ctx id hb
    have hlit := eval_valueOf ctx hv (R.row id)
    refine ⟨hle, fun F hF => ?_⟩
    rw [test_bindCmp R ctx id F hb hF, eval, hval F hF, hlit.1]
    simp only [Result.ok_bind, Result.pure_eq, Result.ok_map, Value.truthy_bool, cmpSides, hord,
      hlit.2, hbytes, if_true, Bool.false_eq_true, if_false]
  · exact sound_eval R ctx id hle

theorem sound_isNull (a : Expr) (st : Reads) :
    Sound R ctx id (.isNull a) st (bindLeaf R.schema ctx (.isNull a) st) := by
  unfold bindLeaf
  dsimp only
  split
  · next s st' hs =>
    obtain ⟨-, -, hval⟩ := slotOf_some R ctx id hs
    refine ⟨slotOf_mono hs, fun F hF => ?_⟩
    rw [test, eval, hval F hF]
    rfl
  · next st' hs => exact sound_eval R ctx id (slotOf_mono hs)

theorem sound_inList (a : Expr) (items : List Expr) (st : Reads) :
    Sound R ctx id (.inList a items) st (bindLeaf R.schema ctx (.inList a items) st) := by
  unfold bindLeaf
  dsimp only
  split
  · next s st' values hs hvs =>
    obtain ⟨-, -, hval⟩ := slotOf_some R ctx id hs
    refine ⟨slotOf_mono hs, fun F hF => ?_⟩
    rw [test_bindIn R ctx id F hs hF, eval, hval F hF, Result.ok_bind,
      foldedAs_slotOf R id ctx hs, evalIn_valuesOf ctx _ _ _ hvs]
    rfl
  · next o st' _ hs _ => exact sound_eval R ctx id (slotOf_mono hs)

theorem sound_like (a b : Expr) (st : Reads) :
    Sound R ctx id (.like a b) st (bindLeaf R.schema ctx (.like a b) st) := by
  unfold bindLeaf
  dsimp only
  split
  · next s st' v hs hv =>
    obtain ⟨-, -, hval⟩ := slotOf_some R ctx id hs
    refine ⟨slotOf_mono hs, fun F hF => ?_⟩
    rw [test_bindLike R ctx id F hs hF, eval, hval F hF, (eval_valueOf ctx hv _).1]
    simp only [Result.ok_bind, foldedAs_slotOf R id ctx hs]
    cases get R id F s <;> cases v <;> rfl
  · next o st' _ hs _ => exact sound_eval R ctx id (slotOf_mono hs)

theorem sound_has (a b : Expr) (st : Reads) :
    Sound R ctx id (.has a b) st (bindLeaf R.schema ctx (.has a b) st) := by
  unfold bindLeaf
  dsimp only
  split
  · next s st' v hs hv =>
    obtain ⟨-, -, hval⟩ := slotOf_some R ctx id hs
    refine ⟨slotOf_mono hs, fun F hF => ?_⟩
    rw [test, eval, hval F hF, (eval_valueOf ctx hv _).1]
    simp only [Result.ok_bind]
    cases get R id F s <;> rfl
  · next o st' _ hs _ => exact sound_eval R ctx id (slotOf_mono hs)

theorem sound_call (name : String) (args : List Expr) (st : Reads) :
    Sound R ctx id (.call name args) st (bindLeaf R.schema ctx (.call name args) st) := by
  match args with
  | [] => exact sound_eval R ctx id st.le_refl
  | [_] => exact sound_eval R ctx id st.le_refl
  | x :: p :: rest =>
    simp only [bindLeaf]
    split
    · next hname =>
      split
      · next s st' hs =>
        refine ⟨slotOf_mono hs, fun F hF => ?_⟩
        cases ht : bindPattern R.schema ctx (name == "ilike") s p rest with
        | none => rfl
        | some t => exact test_bindPattern R ctx id F hname hs hF ht
      · next st' hs => exact sound_eval R ctx id (slotOf_mono hs)
    · exact sound_eval R ctx id st.le_refl

/-- **Every leaf the binding knows is sound.** -/
theorem sound_bindLeaf (e : Expr) (st : Reads) :
    Sound R ctx id e st (bindLeaf R.schema ctx e st) := by
  cases e with
  | isNull a => exact sound_isNull R ctx id a st
  | cmp op a b => exact sound_cmp R ctx id op a b st
  | inList a items => exact sound_inList R ctx id a items st
  | like a b => exact sound_like R ctx id a b st
  | has a b => exact sound_has R ctx id a b st
  | call name args => exact sound_call R ctx id name args st
  | _ => exact sound_eval R ctx id st.le_refl

theorem sound_bindGeoSlot {e : Expr} {st : Reads} {r : Test × Reads}
    (h : bindGeoSlot R.schema ctx e st = some r) : Sound R ctx id e st r := by
  obtain ⟨⟨field, mk⟩, hg, hslot⟩ := Option.bind_eq_some_iff.mp h
  dsimp only at hslot
  split at hslot
  · next s st' hs =>
    cases hslot
    exact ⟨slotOf_mono hs, fun F hF => test_bindGeo R ctx id F hg hs hF⟩
  · cases hslot

/-- A leaf is bound as a geo test, or as any other. -/
theorem sound_leaf (e : Expr) (st : Reads) :
    Sound R ctx id e st ((bindGeoSlot R.schema ctx e st).getD (bindLeaf R.schema ctx e st)) := by
  cases h : bindGeoSlot R.schema ctx e st with
  | none => exact sound_bindLeaf R ctx id e st
  | some r => exact sound_bindGeoSlot R ctx id h

/-- **Binding is sound**: by induction over the expression, each joined test evaluated with the
reads of the whole. -/
theorem sound_bind : ∀ (e : Expr) (st : Reads), Sound R ctx id e st (bind R.schema ctx e st)
  | .and a b, st => by
    obtain ⟨hle1, ha⟩ := sound_bind a st
    obtain ⟨hle2, hb⟩ := sound_bind b (bind R.schema ctx a st).2
    refine ⟨Reads.le_trans hle1 hle2, fun F hF => ?_⟩
    show test R ctx id F (.and (bind R.schema ctx a st).1 _) = _
    rw [test, ha F (Reads.le_trans hle2 hF), eval]
    cases hea : eval ctx (R.row id) a with
    | error err => rfl
    | ok x =>
      cases hx : x.truthy with
      | false => simp [hx]
      | true =>
        simp only [Result.ok_map, Result.ok_bind, hx, if_true]
        rw [hb F hF]
        cases eval ctx (R.row id) b <;> rfl
  | .or a b, st => by
    obtain ⟨hle1, ha⟩ := sound_bind a st
    obtain ⟨hle2, hb⟩ := sound_bind b (bind R.schema ctx a st).2
    refine ⟨Reads.le_trans hle1 hle2, fun F hF => ?_⟩
    show test R ctx id F (.or (bind R.schema ctx a st).1 _) = _
    rw [test, ha F (Reads.le_trans hle2 hF), eval]
    cases hea : eval ctx (R.row id) a with
    | error err => rfl
    | ok x =>
      cases hx : x.truthy with
      | true => simp [hx]
      | false =>
        simp only [Result.ok_map, Result.ok_bind, hx, Bool.false_eq_true, if_false]
        rw [hb F hF]
        cases eval ctx (R.row id) b <;> rfl
  | .not a, st => by
    obtain ⟨hle, ha⟩ := sound_bind a st
    refine ⟨hle, fun F hF => ?_⟩
    show test R ctx id F (.not (bind R.schema ctx a st).1) = _
    rw [test, ha F hF, eval]
    cases eval ctx (R.row id) a <;> rfl
  | .field n, st => sound_leaf R ctx id (.field n) st
  | .lit v, st => sound_leaf R ctx id (.lit v) st
  | .param i, st => sound_leaf R ctx id (.param i) st
  | .cmp op a b, st => sound_leaf R ctx id (.cmp op a b) st
  | .like a b, st => sound_leaf R ctx id (.like a b) st
  | .has a b, st => sound_leaf R ctx id (.has a b) st
  | .inList a items, st => sound_leaf R ctx id (.inList a items) st
  | .inSelect a, st => sound_leaf R ctx id (.inSelect a) st
  | .isNull a, st => sound_leaf R ctx id (.isNull a) st
  | .call name args, st => sound_leaf R ctx id (.call name args) st
  | .arith op a b, st => sound_leaf R ctx id (.arith op a b) st

end Whole

end Filter

end Fenec
