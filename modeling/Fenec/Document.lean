/-
# Documents, and what a record keeps of them

A document is built from what a statement gives: every value coerced to its field's type, a path
set into its json field, a field not given null (`setField`, `docDone`), or, for a `set` and an
upsert, from the row that was there with some fields worked out anew (`Calc`, `updated`).  It is
then laid out by place (`encodeDoc`) and read back the same way (`readDoc`).

What is read back is what was written but for one thing: a `vector<N, f16>` is kept halved
(`get_readDoc_encodeDoc`).
-/
import Fenec.Codec
import Fenec.Schema
import Mathlib.Data.List.GetD
import Mathlib.Data.List.Nodup
import Mathlib.Order.Monotone.Basic

namespace Fenec

open Lib Case

/-! ## 1. Documents -/

/-- A document: its id, zero before one is given, and its fields by name. -/
structure Document where
  id : DocId
  fields : List (String × Value)
deriving DecidableEq

namespace Document

/-- `Document::default`. -/
def default : Document := ⟨0, []⟩

/-- A field's value. -/
def get (d : Document) (name : String) : Option Value :=
  (d.fields.find? fun kv => kv.1 == name).map (·.2)

/-- A field's value over the one that was there, or past the last. -/
def setIn (name : String) (value : Value) : List (String × Value) → List (String × Value)
  | [] => [(name, value)]
  | kv :: rest => if kv.1 == name then (kv.1, value) :: rest else kv :: setIn name value rest

/-- `Document::set`. -/
def set (d : Document) (name : String) (value : Value) : Document :=
  { d with fields := setIn name value d.fields }

theorem get_set (d : Document) (name other : String) (v : Value) :
    (d.set name v).get other = if other = name then some v else d.get other := by
  obtain ⟨id, fields⟩ := d
  simp only [set, get]
  induction fields with
  | nil =>
    by_cases h : other = name
    · simp [setIn, h]
    · simp [setIn, h, Ne.symm h]
  | cons kv rest ih =>
    obtain ⟨k, w⟩ := kv
    by_cases hk : k = name
    · by_cases h : other = name
      · simp [setIn, hk, h]
      · simp [setIn, hk, h, Ne.symm h]
    · by_cases ho : k = other
      · subst ho
        simp [setIn, hk]
      · simp only [setIn, beq_iff_eq, hk, if_false, List.find?_cons, beq_eq_false_iff_ne.mpr ho]
        exact ih

end Document

/-- The value at a field or a path. -/
def Document.at (d : Document) (name : String) : Option Value :=
  match splitPath name with
  | none => d.get name
  | some (field, keys) => (d.get field).map fun v => v.atPath keys

/-! ## 2. Values given to fields -/

/-- A member put into an object's sorted members, over the one of its key. -/
def putMember (k : String) (v : Value) : List (String × Value) → List (String × Value)
  | [] => [(k, v)]
  | m :: ms => match cmpStr m.1 k with
    | .lt => m :: putMember k v ms
    | .eq => (m.1, v) :: ms
    | .gt => (k, v) :: m :: ms

/-- `Value::set_path`: `walked` is the path up to the value that stands there. -/
def setPath (path : String) (walked : String) : List String → Value → Value → Result Value
  | [], _, value => .ok value
  | k :: ks, v, value =>
    match (if v.isNull then .object [] else v) with
    | .object m => do
      let inner ← setPath path (walked ++ "." ++ k) ks (((Value.object m).member k).getD .null)
        value
      pure (.object (putMember k inner m))
    | v => .error (.type ("`" ++ walked ++ "` holds " ++ v.typeName ++ ", not an object: `" ++
        path ++ "` cannot be set in it"))

/-- `not_null`. -/
def notNull (name : String) : Error :=
  .type ("field `" ++ name ++ "` is required: it holds a value, never null")

/-- `set_field`: a value given to a field or a path. -/
def setField (s : Schema) (d : Document) (k : String) (v : Value) : Result Document := do
  match (← s.pathOf k) with
  | some (pos, keys) =>
    match s.fields[pos]? with
    | some f =>
      let whole := (d.get f.name).getD .null
      let whole ← setPath (f.name ++ "." ++ keys) f.name (Value.pathKeys keys) whole v
      pure (d.set f.name (← coerce f.ty whole))
    | none => pure d
  | none =>
    match s.field k with
    | some f => pure (d.set k (← coerce f.ty v))
    | none => .error (.notFound ("field `" ++ k ++ "` in collection `" ++ s.name ++ "`"))

/-- `doc_field`: a value given to a field, a path or the id. -/
def docField (s : Schema) (d : Document) (k : String) (v : Value) : Result Document :=
  if k = "id" then
    match v with
    | .int i =>
      if 0 < i.toInt then .ok { d with id := i.toInt.toNat }
      else .error (.type "`id` must be a positive integer")
    | _ => .error (.type "`id` must be a positive integer")
  else setField s d k v

/-- `doc_done`: the fields not given are null, and a required one is refused. -/
def docDone : List Field → Document → Result Document
  | [], d => .ok d
  | f :: fs, d =>
    match d.get f.name with
    | none => if f.required then .error (notNull f.name) else docDone fs (d.set f.name .null)
    | some v =>
      if v.isNull && f.required then .error (notNull f.name) else docDone fs d

/-- `Database::document_of`: a document from members already worked out. -/
def documentOf (s : Schema) (members : List (String × Value)) : Result Document := do
  docDone s.fields (← members.foldlM (fun d kv => docField s d kv.1 kv.2) Document.default)

/-! ## 3. A `set`'s values -/

/-- What a `set` gives a field, bound once for all its rows. -/
inductive Calc where
  | lit (v : Value)
  | field (pos : Nat)
  | new (name : String)
  | arith (op : ArithOp) (a b : Calc)
  | eval (e : Expr)

/-- A field given by a `set`: its name, its position unless it is a path, and its value. -/
structure Assign where
  key : String
  pos : Option Nat
  work : Calc

/-- The name past `new.`, the document an upsert was given. -/
def stripNew (name : String) : Option String :=
  if "new.".toList.isPrefixOf name.toList then some (String.ofList (name.toList.drop 4)) else none

/-- `DocRow`: a document as an expression reads it. -/
def docRow (s : Schema) (d : Document) : Row where
  id := d.id
  field name := do
    let _ ← s.pathOf name
    pure ((d.at name).getD .null)
  textOrder name := ((s.field name).map Field.textOrder).getD .bytes

/-- `Upserting`: the row there was, with the document given beside it as `new`. -/
def upserting (s : Schema) (d new : Document) : Row where
  id := d.id
  field name :=
    match stripNew name with
    | none => (docRow s d).field name
    | some f =>
      if f = "id" then .ok (if new.id = 0 then .null else .int (Int64.ofNat new.id))
      else do
        if (← s.pathOf f).isNone && (s.field f).isNone then
          .error (.notFound ("field `" ++ f ++ "`, read as `" ++ name ++ "`"))
        else pure ((new.at f).getD .null)
  textOrder name := (docRow s d).textOrder ((stripNew name).getD name)

section

variable {B : Build} (ctx : EvalCtx B) (s : Schema)

/-- `Calc::value`. -/
def Calc.value (row : Document) (new : Option Document) : Calc → Result Value
  | .lit v => .ok v
  | .field p => .ok (((row.fields[p]?).map (·.2)).getD .null)
  | .new f => .ok ((new.bind fun d => d.get f).getD .null)
  | .arith op a b => do
    let l ← Calc.value row new a
    let r ← Calc.value row new b
    Fenec.arith op l r
  | .eval e => match new with
    | some new => Fenec.eval ctx (upserting s row new) e
    | none => Fenec.eval ctx (docRow s row) e

/-- A document with the value of the field at a position changed. -/
def Document.setAt (d : Document) (p : Nat) (v : Value) : Document :=
  { d with fields := d.fields.modify p fun kv => (kv.1, v) }

/-- `updated`: the row as a `set` leaves it; every value is worked out on the row there was. -/
def updated (old : Document) (new : Option Document) : List Assign → Document → Result Document
  | [], d => .ok d
  | a :: rest, d => do
    if a.pos.isNone && (← s.pathOf a.key).isNone then
      .error (.notFound ("field `" ++ a.key ++ "`"))
    else
      let v ← a.work.value ctx s old new
      match a.pos.bind fun p => (s.fields[p]?).map fun f => (p, f) with
      | some (p, f) =>
        if f.required && v.isNull then .error (notNull f.name)
        else updated old new rest (d.setAt p (← coerce f.ty v))
      | none => updated old new rest (← setField s d a.key v)

end

/-! ## 4. Documents of a schema -/

/-- Whether a value is of the kind a type's values are. -/
def DataType.holds : DataType → Value → Bool
  | _, .null => true
  | .bool, .bool _ => true
  | .int, .int _ => true
  | .float, .float _ => true
  | .text, .text _ => true
  | .bytes, .bytes _ => true
  | .timestamp, .timestamp _ => true
  | .vector _ _, .vector _ => true
  | .sparse _, .sparse _ _ => true
  | .list _, .list _ => true
  | .geo, .list _ => true
  | .json, _ => true
  | _, _ => false

theorem holds_null (ty : DataType) : ty.holds .null = true := by
  cases ty <;> rfl

theorem except_map_ok {α β : Type} {x : Result α} {f : α → β} {b : β} (h : x.map f = .ok b) :
    ∃ a, x = .ok a ∧ f a = b := by
  cases x with
  | error e => cases h
  | ok a => exact ⟨a, rfl, by simpa using h⟩

theorem bind_ok {α β : Type} {x : Result α} {f : α → Result β} {b : β} (h : x >>= f = .ok b) :
    ∃ a, x = .ok a ∧ f a = .ok b := by
  cases x with
  | error e => cases h
  | ok a => exact ⟨a, rfl, h⟩

theorem holds_checkDim {v : List F32} {dim : Nat} {p : VecPrec} {w : Value}
    (h : checkDim v dim = .ok w) : (DataType.vector dim p).holds w = true := by
  unfold checkDim at h
  split at h
  · cases h
  · cases h; rfl

theorem holds_checkSparseDim {d : UInt32} {e : List (UInt32 × F32)} {dim : Nat} {w : Value}
    (h : checkSparseDim d e dim = .ok w) : (DataType.sparse dim).holds w = true := by
  unfold checkSparseDim at h
  split at h
  · cases h
  · cases h; rfl

/-- **Coercing gives a value of the type.** -/
theorem holds_coerce {ty : DataType} {v w : Value} (h : coerce ty v = .ok w) :
    ty.holds w = true := by
  unfold coerce at h
  split at h
  any_goals (cases h <;> rfl)
  · split at h
    · cases h; rfl
    · cases h
  all_goals try (split at h <;> cases h <;> rfl)
  · obtain ⟨ms, -, rfl⟩ := except_map_ok h; rfl
  · exact holds_checkDim h
  · split at h
    · exact holds_checkSparseDim h
    · cases h
  · obtain ⟨de, -, h⟩ := bind_ok h; exact holds_checkSparseDim h
  · split at h
    · exact holds_checkDim h
    · cases h
  · obtain ⟨l, -, rfl⟩ := except_map_ok h; rfl
  · obtain ⟨l, -, rfl⟩ := except_map_ok h; rfl
  · cases w <;> rfl
  · obtain ⟨p, -, h⟩ := bind_ok h
    cases p with
    | none => cases h; rfl
    | some p => cases h; rfl

namespace Document

variable {s : Schema} {d : Document}

/-- What the document holds of the schema's fields is of their types. -/
def Holds (s : Schema) (d : Document) : Prop :=
  ∀ f ∈ s.fields, ∀ v, d.get f.name = some v → f.ty.holds v = true

/-- **A document of the schema**: it has every field, of the field's type. -/
def Fits (s : Schema) (d : Document) : Prop :=
  ∀ f ∈ s.fields, ∃ v, d.get f.name = some v ∧ f.ty.holds v = true

/-- The fields stand in the schema's order, as a row's read back do. -/
def Laid (s : Schema) (d : Document) : Prop := d.fields.map (·.1) = s.fields.map (·.name)

theorem Fits.holds (h : Fits s d) : Holds s d := by
  intro f hf v hv
  obtain ⟨w, hw, hty⟩ := h f hf
  rw [hv] at hw
  cases hw
  exact hty

/-- Names stand once, so a name has one field. -/
theorem field_unique (hs : s.WF) {f g : Field} (hf : f ∈ s.fields) (hg : g ∈ s.fields)
    (h : f.name = g.name) : f = g :=
  List.inj_on_of_nodup_map hs.nodup hf hg h

theorem Holds.set (hs : s.WF) (h : Holds s d) {f : Field} (hf : f ∈ s.fields) {v : Value}
    (hv : f.ty.holds v = true) : Holds s (d.set f.name v) := by
  intro g hg w hw
  rw [get_set] at hw
  split at hw
  · next heq =>
    cases hw
    rw [field_unique hs hg hf heq]
    exact hv
  · exact h g hg w hw

theorem Fits.set (hs : s.WF) (h : Fits s d) {f : Field} (hf : f ∈ s.fields) {v : Value}
    (hv : f.ty.holds v = true) : Fits s (d.set f.name v) := by
  intro g hg
  rw [get_set]
  split
  · next heq => exact ⟨v, rfl, by rw [field_unique hs hg hf heq]; exact hv⟩
  · exact h g hg

/-- What a value given to a field or a path does: one field is set, to a value of its type. -/
theorem setField_eq {k : String} {v : Value} {d' : Document} (h : setField s d k v = .ok d') :
    ∃ f ∈ s.fields, ∃ w, f.ty.holds w = true ∧ d' = d.set f.name w := by
  unfold setField at h
  obtain ⟨o, hpath, h⟩ := bind_ok h
  cases o with
  | some pk =>
    obtain ⟨pos, keys⟩ := pk
    have hpos : ∃ hp : pos < s.fields.length, s.fields[pos]? = some s.fields[pos] := by
      unfold Schema.pathOf at hpath
      split at hpath
      · cases hpath
      · split at hpath
        · cases hpath
        · next p hp =>
          dsimp only at hpath
          split at hpath
          · cases hpath
          · split at hpath
            · cases hpath
            · split at hpath
              · cases hpath
              · cases hpath
                obtain ⟨hlt, -⟩ := Schema.fieldPos_eq_some hp
                exact ⟨hlt, List.getElem?_eq_getElem hlt⟩
    obtain ⟨hlt, hget⟩ := hpos
    dsimp only at h
    rw [hget] at h
    dsimp only at h
    obtain ⟨whole, -, h⟩ := bind_ok h
    obtain ⟨w, hw, h⟩ := bind_ok h
    cases h
    exact ⟨_, List.getElem_mem hlt, w, holds_coerce hw, rfl⟩
  | none =>
    dsimp only at h
    split at h
    · next f hf =>
      obtain ⟨w, hw, h⟩ := bind_ok h
      cases h
      have hname : f.name = k := by simpa using List.find?_some hf
      exact ⟨f, List.mem_of_find?_eq_some hf, w, holds_coerce hw, by rw [hname]⟩
    · cases h

theorem docField_holds (hs : s.WF) {k : String} {v : Value} {d' : Document} (hd : Holds s d)
    (h : docField s d k v = .ok d') : Holds s d' := by
  unfold docField at h
  split at h
  · split at h
    · split at h
      · cases h; exact hd
      · cases h
    · cases h
  · obtain ⟨f, hf, w, hw, rfl⟩ := setField_eq h
    exact hd.set hs hf hw

/-- `docDone` keeps what the document holds, and leaves no field of the list out. -/
theorem docDone_holds {fs : List Field} {d' : Document} (hs : s.WF) (hfs : ∀ f ∈ fs, f ∈ s.fields)
    (hd : Holds s d) (h : docDone fs d = .ok d') :
    Holds s d' ∧ (∀ f ∈ fs, ∃ v, d'.get f.name = some v) ∧
      ∀ name v, d.get name = some v → d'.get name = some v := by
  induction fs generalizing d with
  | nil =>
    cases h
    exact ⟨hd, by simp, fun _ _ h => h⟩
  | cons f fs ih =>
    have hrest : ∀ g ∈ fs, g ∈ s.fields := fun g hg => hfs g (List.mem_cons_of_mem _ hg)
    have hf : f ∈ s.fields := hfs f (List.mem_cons_self ..)
    unfold docDone at h
    cases hget : d.get f.name with
    | none =>
      rw [hget] at h
      dsimp only at h
      split at h
      · cases h
      · obtain ⟨h1, h2, h3⟩ := ih hrest (hd.set hs hf (holds_null f.ty)) h
        refine ⟨h1, ?_, ?_⟩
        · intro g hg
          rcases List.mem_cons.mp hg with rfl | hg
          · exact ⟨.null, h3 _ _ (by rw [get_set, if_pos rfl])⟩
          · exact h2 g hg
        · intro name v hv
          apply h3
          rw [get_set]
          split
          · next heq => rw [heq, hget] at hv; cases hv
          · exact hv
    | some v =>
      rw [hget] at h
      dsimp only at h
      split at h
      · cases h
      · obtain ⟨h1, h2, h3⟩ := ih hrest hd h
        refine ⟨h1, ?_, h3⟩
        intro g hg
        rcases List.mem_cons.mp hg with rfl | hg
        · exact ⟨v, h3 _ _ hget⟩
        · exact h2 g hg

theorem docDone_fits (hs : s.WF) {d' : Document} (hd : Holds s d)
    (h : docDone s.fields d = .ok d') : Fits s d' := by
  obtain ⟨h1, h2, -⟩ := docDone_holds hs (fun _ hf => hf) hd h
  intro f hf
  obtain ⟨v, hv⟩ := h2 f hf
  exact ⟨v, hv, h1 f hf v hv⟩

theorem holds_default : Holds s Document.default := by
  intro f _ v hv
  cases hv

theorem foldlM_holds {α : Type} {step : Document → α → Result Document}
    (hstep : ∀ d a d', Holds s d → step d a = .ok d' → Holds s d') {l : List α} {d' : Document}
    (hd : Holds s d) (h : l.foldlM step d = .ok d') : Holds s d' := by
  induction l generalizing d with
  | nil => cases h; exact hd
  | cons a l ih =>
    rw [List.foldlM_cons] at h
    obtain ⟨d₁, h₁, h⟩ := bind_ok h
    exact ih (hstep _ _ _ hd h₁) h

/-- **A document built of members is one of the schema.** -/
theorem documentOf_fits (hs : s.WF) {members : List (String × Value)}
    (h : documentOf s members = .ok d) : Fits s d := by
  obtain ⟨d₁, h₁, h⟩ := bind_ok h
  exact docDone_fits hs
    (foldlM_holds (fun d kv d' hd h => docField_holds hs hd h) holds_default h₁) h

end Document

theorem mapM_ok {α β : Type} {f : α → Result β} {l : List α} {out : List β}
    (h : l.mapM f = .ok out) : ∀ b ∈ out, ∃ a ∈ l, f a = .ok b := by
  induction l generalizing out with
  | nil => cases h; simp
  | cons a l ih =>
    rw [List.mapM_cons] at h
    obtain ⟨b, hb, h⟩ := bind_ok h
    obtain ⟨bs, hbs, h⟩ := bind_ok h
    cases h
    intro x hx
    rcases List.mem_cons.mp hx with rfl | hx
    · exact ⟨a, List.mem_cons_self .., hb⟩
    · obtain ⟨y, hy, hfy⟩ := ih hbs x hx
      exact ⟨y, List.mem_cons_of_mem _ hy, hfy⟩

namespace Document

variable {s : Schema} {d : Document}

/-- In a list of named values, each name once, a name is found where it stands. -/
theorem find_of_getElem {l : List (String × Value)} (hl : (l.map (·.1)).Nodup) {p : Nat}
    {k : String} {v : Value} (h : l[p]? = some (k, v)) :
    (l.find? fun kv => kv.1 == k) = some (k, v) := by
  induction l generalizing p with
  | nil => cases h
  | cons kv rest ih =>
    rw [List.map_cons, List.nodup_cons] at hl
    cases p with
    | zero =>
      cases h
      simp
    | succ p =>
      have hmem : (k, v) ∈ rest := List.mem_of_getElem? h
      have hne : kv.1 ≠ k := fun heq => hl.1 (List.mem_map.mpr ⟨_, hmem, heq.symm⟩)
      rw [List.find?_cons_of_neg (by simpa using hne)]
      exact ih hl.2 h

theorem Laid.nodup (hs : s.WF) (h : Laid s d) : (d.fields.map (·.1)).Nodup := by
  rw [h]
  exact hs.nodup

/-- The field at a position holds what stands there. -/
theorem Laid.get_eq (hs : s.WF) (h : Laid s d) {p : Nat} {f : Field}
    (hf : s.fields[p]? = some f) : d.get f.name = (d.fields[p]?).map (·.2) := by
  have hname : (d.fields.map (·.1))[p]? = some f.name := by
    rw [h, List.getElem?_map, hf]
    rfl
  rw [List.getElem?_map] at hname
  obtain ⟨kv, hkv, hk⟩ := Option.map_eq_some_iff.mp hname
  obtain ⟨k, v⟩ := kv
  cases hk
  rw [get, find_of_getElem (h.nodup hs) hkv, hkv]

theorem Laid.setAt (h : Laid s d) (p : Nat) (v : Value) : Laid s (d.setAt p v) := by
  unfold Laid Document.setAt at *
  rw [← h]
  apply List.ext_getElem?
  intro j
  simp only [List.getElem?_map, List.getElem?_modify]
  cases d.fields[j]? with
  | none => rfl
  | some kv =>
    simp only [Option.map_some]
    split <;> rfl

theorem get_setAt (hs : s.WF) (h : Laid s d) {p j : Nat} {f g : Field} (v : Value)
    (hf : s.fields[p]? = some f) (hg : s.fields[j]? = some g) :
    (d.setAt p v).get g.name = if g = f then some v else d.get g.name := by
  have hlen : p < d.fields.length := by
    have := congrArg List.length h
    simp only [List.length_map] at this
    rw [this]
    exact (List.getElem?_eq_some_iff.mp hf).1
  rw [(h.setAt p v).get_eq hs hg, h.get_eq hs hg]
  show ((d.fields.modify p _)[j]?).map _ = _
  rw [List.getElem?_modify]
  by_cases hpj : p = j
  · subst hpj
    rw [hg] at hf
    cases hf
    simp [hlen]
  · have hgf : g ≠ f := by
      rintro rfl
      have hj := List.getElem?_eq_some_iff.mp hg
      have hp := List.getElem?_eq_some_iff.mp hf
      have hnodup : s.fields.Nodup := List.Nodup.of_map _ hs.nodup
      exact hpj ((List.Nodup.getElem_inj_iff hnodup).mp (hp.2.trans hj.2.symm))
    rw [if_neg hgf]
    simp [hpj]

theorem Laid.set (h : Laid s d) {f : Field} (hf : f ∈ s.fields) (v : Value) :
    Laid s (d.set f.name v) := by
  have hmem : f.name ∈ d.fields.map (·.1) := by
    rw [h]
    exact List.mem_map_of_mem hf
  have hset : ∀ l : List (String × Value), f.name ∈ l.map (·.1) →
      (setIn f.name v l).map (·.1) = l.map (·.1) := by
    intro l
    induction l with
    | nil => intro hl; cases hl
    | cons kv rest ih =>
      intro hl
      unfold setIn
      split
      · rfl
      · next hne =>
        rw [List.map_cons, List.map_cons, ih]
        rcases List.mem_cons.mp hl with hl | hl
        · exact absurd (beq_iff_eq.mpr hl.symm) hne
        · exact hl
  exact (hset _ hmem).trans h

/-- **A `set` leaves a document of the schema**, under the id it had. -/
theorem updated_fits {B : Build} {ctx : EvalCtx B} (hs : s.WF) {old : Document}
    {new : Option Document} {set : List Assign} {d' : Document} (hd : Fits s d) (hl : Laid s d)
    (h : updated ctx s old new set d = .ok d') : Fits s d' ∧ Laid s d' ∧ d'.id = d.id := by
  induction set generalizing d with
  | nil =>
    cases h
    exact ⟨hd, hl, rfl⟩
  | cons a rest ih =>
    unfold updated at h
    obtain ⟨o, -, h⟩ := bind_ok h
    split at h
    · cases h
    · obtain ⟨v, -, h⟩ := bind_ok h
      split at h
      · next p f hpf =>
        split at h
        · cases h
        · obtain ⟨w, hw, h⟩ := bind_ok h
          have hf : s.fields[p]? = some f := by
            obtain ⟨q, -, hq⟩ := Option.bind_eq_some_iff.mp hpf
            obtain ⟨g, hg, hgf⟩ := Option.map_eq_some_iff.mp hq
            cases hgf
            exact hg
          have hfits : Fits s (d.setAt p w) := by
            intro g hg
            obtain ⟨j, hj⟩ := List.mem_iff_getElem?.mp hg
            rw [get_setAt hs hl w hf hj]
            split
            · next heq => exact ⟨w, rfl, by rw [heq]; exact holds_coerce hw⟩
            · exact hd g hg
          obtain ⟨h1, h2, h3⟩ := ih hfits (hl.setAt p w) h
          exact ⟨h1, h2, h3⟩
      · obtain ⟨d₁, h₁, h⟩ := bind_ok h
        obtain ⟨f, hf, w, hw, rfl⟩ := setField_eq h₁
        obtain ⟨h1, h2, h3⟩ := ih (hd.set hs hf hw) (hl.set hf w) h
        exact ⟨h1, h2, h3⟩

end Document

/-! ## 5. Documents laid out by place -/

/-- The places of the fields from one on, nulls in those of dropped fields between. -/
def encodeFrom (s : Schema) (d : Document) : Nat → Nat → List Field → Payload
  | _, _, [] => []
  | at_, i, f :: fs =>
    List.replicate (s.place i - at_) .null ++
      Codec.kept f.ty ((d.get f.name).getD .null) :: encodeFrom s d (s.place i + 1) (i + 1) fs

/-- `Store::encode_doc`, as it is read back. -/
def encodeDoc (s : Schema) (d : Document) : Payload := encodeFrom s d 0 0 s.fields

/-- `Schema::read_doc`. -/
def readDoc (s : Schema) (id : DocId) (p : Payload) : Document :=
  ⟨id, s.fields.mapIdx fun i f => (f.name, p.at (s.place i))⟩

theorem le_place (ds : List Nat) (i : Nat) : i ≤ place ds i := by
  induction ds generalizing i with
  | nil => exact Nat.le_refl _
  | cons d ds ih =>
    unfold place
    split
    · exact Nat.le_refl _
    · exact Nat.le_trans (Nat.le_succ i) (ih (i + 1))

/-- A later field stands in a later place. -/
theorem place_lt_succ (ds : List Nat) (i : Nat) : place ds i < place ds (i + 1) := by
  induction ds generalizing i with
  | nil => exact Nat.lt_succ_self i
  | cons d ds ih =>
    unfold place
    by_cases h : d > i
    · rw [if_pos h]
      by_cases h' : d > i + 1
      · rw [if_pos h']
        exact Nat.lt_succ_self i
      · rw [if_neg h']
        exact Nat.lt_of_lt_of_le (by omega) (le_place ds (i + 1 + 1))
    · rw [if_neg h, if_neg (by omega)]
      exact ih (i + 1)

theorem place_strictMono (ds : List Nat) : StrictMono (place ds) :=
  strictMono_nat_of_lt_succ (place_lt_succ ds)

theorem encodeFrom_at (s : Schema) (d : Document) {fs : List Field} {at_ i j : Nat} {f : Field}
    (hat : at_ ≤ s.place i) (hj : fs[j]? = some f) :
    Payload.at (encodeFrom s d at_ i fs) (s.place (i + j) - at_) =
      Codec.kept f.ty ((d.get f.name).getD .null) := by
  induction fs generalizing at_ i j with
  | nil => cases hj
  | cons g gs ih =>
    unfold encodeFrom Payload.at
    cases j with
    | zero =>
      cases hj
      simp
    | succ j =>
      have hlt : s.place i < s.place (i + (j + 1)) := place_strictMono _ (by omega)
      have hnext : s.place i + 1 ≤ s.place (i + 1) := place_lt_succ _ _
      have hsplit : s.place (i + (j + 1)) - at_ =
          (s.place i - at_) + (s.place (i + 1 + j) - (s.place i + 1) + 1) := by
        rw [show i + (j + 1) = i + 1 + j by omega] at hlt ⊢
        omega
      rw [hsplit, List.getD_append_right _ _ _ _ (by simp), List.length_replicate,
        Nat.add_sub_cancel_left, List.getD_cons_succ]
      exact ih hnext hj

theorem length_encodeFrom (s : Schema) (d : Document) (fs : List Field) {at_ i : Nat}
    (hat : at_ ≤ s.place i) :
    (encodeFrom s d at_ i fs).length ≤ s.place (i + fs.length) - at_ := by
  induction fs generalizing at_ i with
  | nil => exact Nat.zero_le _
  | cons f fs ih =>
    have hnext : s.place i + 1 ≤ s.place (i + 1) := place_lt_succ _ _
    have hrest := ih hnext
    have hmono : s.place (i + 1) ≤ s.place (i + 1 + fs.length) :=
      (place_strictMono _).monotone (Nat.le_add_right _ _)
    rw [encodeFrom, List.length_append, List.length_replicate, List.length_cons, List.length_cons,
      show i + (fs.length + 1) = i + 1 + fs.length by omega]
    omega

/-- A record ends before the place the next field would take. -/
theorem length_encodeDoc (s : Schema) (d : Document) :
    (encodeDoc s d).length ≤ s.place s.fields.length := by
  simpa [encodeDoc] using length_encodeFrom s d s.fields (i := 0) (Nat.zero_le _)

/-- **A field is read back as the record keeps it.** -/
theorem encodeDoc_at (s : Schema) (d : Document) {j : Nat} {f : Field}
    (hj : s.fields[j]? = some f) :
    (encodeDoc s d).at (s.place j) = Codec.kept f.ty ((d.get f.name).getD .null) := by
  have h := encodeFrom_at s d (Nat.zero_le (s.place 0)) hj
  simpa [encodeDoc] using h

namespace Document

variable {s : Schema} {d : Document}

theorem laid_readDoc (s : Schema) (id : DocId) (p : Payload) : Laid s (readDoc s id p) := by
  unfold Laid readDoc
  apply List.ext_getElem?
  intro j
  simp only [List.getElem?_map, List.getElem?_mapIdx]
  cases s.fields[j]? <;> rfl

theorem get_readDoc (hs : s.WF) (id : DocId) (p : Payload) {j : Nat} {f : Field}
    (hj : s.fields[j]? = some f) : (readDoc s id p).get f.name = some (p.at (s.place j)) := by
  rw [(laid_readDoc s id p).get_eq hs hj]
  simp [readDoc, List.getElem?_mapIdx, hj]

theorem get_readDoc_encodeDoc (hs : s.WF) (id : DocId) {j : Nat} {f : Field}
    (hj : s.fields[j]? = some f) :
    (readDoc s id (encodeDoc s d)).get f.name =
      some (Codec.kept f.ty ((d.get f.name).getD .null)) := by
  rw [get_readDoc hs id _ hj, encodeDoc_at s d hj]

end Document

end Fenec
