/-
# Schemas, and rows laid out by them

A document is stored as its field values one after another, by *place*.  A field's place is its
position in the schema counted past the places of fields that were dropped: a drop leaves the
stored payloads as they are and notes the place in `dropped`, and only a rewrite takes the value
out (`place`, `withoutDropped`).  A payload may stop short of the last places, which then read
as null: that is how a field added later reads on a row written before it.

`Rows` is a schema with the payloads stored under it, and carries what every reader relies on:
the schema is one that was accepted, and what a row holds in a field is of the field's type.
-/
import Fenec.Lib.OrdMap
import Fenec.Query

namespace Fenec

open Lib Case

/-! ## 1. Declarations -/

/-- A vector index's metric. -/
inductive Metric where
  | cosine
  | l2
  | dot
deriving DecidableEq

/-- How a vector index keeps its vectors. -/
inductive Quant where
  | none
  | int8
  | bit
deriving DecidableEq

/-- A vector index's settings. -/
structure VectorIndexSpec where
  metric : Metric
  m : Nat
  efConstruction : Nat
  efSearch : Nat
  quant : Quant
deriving DecidableEq

/-- A text index's settings. -/
structure TextIndexSpec where
  k1Pct : Nat
  bPct : Nat
  prefixMax : Nat
  prefixMin : Nat
  chars : Bool
deriving DecidableEq

/-- The index a field or a path has. -/
inductive IndexKind where
  | none
  | hash (unique : Bool)
  | vector (spec : VectorIndexSpec)
  | text (spec : TextIndexSpec)
  | sorted (ttl : Option Nat)
  | inverted
  | geo
deriving DecidableEq

/-- `VectorIndexSpec::resolved`. -/
def VectorIndexSpec.resolved (spec : VectorIndexSpec) : VectorIndexSpec :=
  if spec.efSearch = 0 then
    { spec with efSearch := if spec.quant = .bit then 200 else 100 }
  else spec

/-- `IndexKind::resolved`. -/
def IndexKind.resolved : IndexKind → IndexKind
  | .vector spec => .vector spec.resolved
  | k => k

/-- Whether it refuses a value two rows hold. -/
def IndexKind.isUnique : IndexKind → Bool
  | .hash unique => unique
  | _ => false

/-- The milliseconds a row outlives its field by. -/
def IndexKind.ttl : IndexKind → Option Nat
  | .sorted ttl => ttl
  | _ => .none

/-- A field, or an indexed path into a json field. -/
structure Field where
  name : String
  ty : DataType
  index : IndexKind
  required : Bool
  collate : Option Collation
  nocase : Bool
deriving DecidableEq

/-- The fold a `nocase` field's texts are compared under. -/
def Field.caseFold (f : Field) : Option CaseFold :=
  if f.nocase then
    some (match f.collate with
      | some .turkish => .turkish
      | _ => .unicode)
  else none

/-- The order of a field's texts. -/
def Field.textOrder (f : Field) : TextOrder := ⟨f.collate, f.caseFold⟩

/-- An index over several fields or paths, each ascending or descending. -/
structure Composite where
  keys : List (String × Bool)
  unique : Bool
deriving DecidableEq

/-- A collection's declaration. -/
structure Schema where
  name : String
  fields : List Field
  paths : List Field
  dropped : List Nat
  composites : List Composite
deriving DecidableEq

/-! ## 2. Places -/

/-- `schema::place`: where a field's value stands, past the dropped places before it. -/
def place : List Nat → Nat → Nat
  | [], pos => pos
  | d :: ds, pos => if d > pos then pos else place ds (pos + 1)

/-- The hint an unknown field's error ends in. -/
def fieldHint (name : String) : String :=
  if ["rowid", "_id", "oid", "_rowid_"].contains name then ": a row's id is `id`"
  else if name.toList.contains '.' then
    ": the clauses after `lookup` are the looked-up collection's, and a filter of the rows " ++
    "above goes before it"
  else ""

/-- `no_field`. -/
def noField (name : String) : Error := .notFound ("field `" ++ name ++ "`" ++ fieldHint name)

/-- A path's field and the keys past it. -/
def splitPath (name : String) : Option (String × String) :=
  (Time.splitOnce (· == '.') name.toList).map fun (a, b) => (String.ofList a, String.ofList b)

/-- How many keys a path may name. -/
def maxPathKeys : Nat := maxJsonDepth

namespace Schema

/-- The field of a name. -/
def field (s : Schema) (name : String) : Option Field := s.fields.find? fun f => f.name == name

/-- Its position. -/
def fieldPos (s : Schema) (name : String) : Option Nat :=
  s.fields.findIdx? fun f => f.name == name

/-- Where field `pos` stands in a payload. -/
def place (s : Schema) (pos : Nat) : Nat := Fenec.place s.dropped pos

/-- The places a whole payload has. -/
def width (s : Schema) : Nat := s.fields.length + s.dropped.length

/-- `Schema::path_of`: the json field a dotted name reads into and its keys, `none` for a bare
name. -/
def pathOf (s : Schema) (name : String) : Result (Option (Nat × String)) :=
  match splitPath name with
  | none => .ok none
  | some (field, keys) =>
    match s.fieldPos field with
    | none => .error (.notFound ("field `" ++ field ++ "`: `" ++ name ++
        "` reads into a json field, and a field is named bare"))
    | some pos =>
      let ty := ((s.fields[pos]?).map (·.ty)).getD .json
      if ty ≠ .json then
        .error (.type ("`" ++ name ++ "` is a path, and `" ++ field ++ "` is " ++ ty.name ++
          ": a path reads into a json field"))
      else if (Value.pathKeys keys).contains "" then
        .error (.query ("`" ++ name ++ "`: a path's keys are names"))
      else if (Value.pathKeys keys).length > maxPathKeys then
        .error (.query ("`" ++ name ++ "`: a path names at most " ++ toString maxPathKeys ++
          " keys past its field"))
      else .ok (some (pos, keys))

/-- `source_or_err`: the field a name reads, and the keys into it. -/
def sourceOrErr (s : Schema) (name : String) : Result (Nat × Option String) := do
  match (← s.pathOf name) with
  | some (pos, keys) => pure (pos, some keys)
  | none => match s.fieldPos name with
    | some p => pure (p, none)
    | none => .error (noField name)

/-- **A schema that was accepted**: no field is named `id`, names hold no dot and stand once,
and only a text field is `nocase`. -/
structure WF (s : Schema) : Prop where
  nodup : (s.fields.map (·.name)).Nodup
  not_id : ∀ f ∈ s.fields, f.name ≠ "id"
  no_dot : ∀ f ∈ s.fields, '.' ∉ f.name.toList
  nocase_text : ∀ f ∈ s.fields, f.nocase = true → f.ty = .text

theorem fieldPos_eq_some {s : Schema} {name : String} {p : Nat} (h : s.fieldPos name = some p) :
    ∃ hp : p < s.fields.length, (s.fields.get ⟨p, hp⟩).name = name ∧
      s.field name = some (s.fields.get ⟨p, hp⟩) := by
  obtain ⟨hp, hname, hbefore⟩ := List.findIdx?_eq_some_iff_getElem.mp h
  refine ⟨hp, by simpa using hname, ?_⟩
  rw [field, List.find?_eq_some_iff_getElem]
  refine ⟨by simpa using hname, p, hp, rfl, ?_⟩
  intro j hj
  simpa using hbefore j hj

theorem fieldPos_eq_none {s : Schema} {name : String} (h : s.fieldPos name = none) :
    s.field name = none := by
  rw [fieldPos, List.findIdx?_eq_none_iff] at h
  rw [field, List.find?_eq_none]
  intro f hf
  simpa using h f hf

end Schema

/-- A bare name has no keys. -/
theorem splitPath_eq_none {name : String} (h : '.' ∉ name.toList) : splitPath name = none := by
  have hs : ∀ cs : List Char, '.' ∉ cs → Time.splitOnce (· == '.') cs = none := by
    intro cs
    induction cs with
    | nil => intro _; rfl
    | cons c cs ih =>
      intro hc
      have hne : ('.' : Char) ≠ c := fun heq => hc (heq ▸ List.mem_cons_self ..)
      have hrest := ih fun hm => hc (List.mem_cons_of_mem _ hm)
      simp [Time.splitOnce, hne.symm, hrest]
  rw [splitPath, hs _ h]
  rfl

/-- A dotted name has a field and keys. -/
theorem splitPath_of_dot {name : String} (h : '.' ∈ name.toList) :
    ∃ field keys, splitPath name = some (field, keys) := by
  have hs : ∀ cs : List Char, '.' ∈ cs → ∃ a b, Time.splitOnce (· == '.') cs = some (a, b) := by
    intro cs
    induction cs with
    | nil => intro hc; cases hc
    | cons c cs ih =>
      intro hc
      by_cases hd : c = '.'
      · exact ⟨[], cs, by simp [Time.splitOnce, hd]⟩
      · have hrest : '.' ∈ cs := by
          rcases List.mem_cons.mp hc with hc | hc
          · exact absurd hc.symm hd
          · exact hc
        obtain ⟨a, b, hab⟩ := ih hrest
        exact ⟨c :: a, b, by simp [Time.splitOnce, hd, hab]⟩
  obtain ⟨a, b, hab⟩ := hs _ h
  exact ⟨_, _, by rw [splitPath, hab]; rfl⟩

/-! ## 3. What an index may be on -/

/-- `orderable`: the types an ordered index takes. -/
def orderable : DataType → Bool
  | .int | .float | .timestamp | .text | .json => true
  | _ => false

/-- `composite_part`: the types a composite index orders. -/
def compositePart (ty : DataType) : Bool := ty == .bool || orderable ty

/-- A metric's name. -/
def Metric.name : Metric → String
  | .cosine => "cosine"
  | .l2 => "l2"
  | .dot => "dot"

/-- Refuses a sparse type with no dimension, or one past the most. -/
def checkSparse (field : String) : DataType → Result Unit
  | .sparse d =>
    if d = 0 ∨ d > Sparse.maxDim then
      .error (.type ("`" ++ field ++ "`: a sparse vector's dimension is 1 to " ++
        toString Sparse.maxDim))
    else .ok ()
  | _ => .ok ()

/-- The kinds a path takes. -/
def IndexKind.onPath : IndexKind → Bool
  | .hash _ | .sorted _ => true
  | _ => false

/-- **`IndexKind::check`**: whether a field of the type takes the index. -/
def IndexKind.check (k : IndexKind) (field : String) (ty : DataType) : Result Unit :=
  if field.toList.contains '.' && !k.onPath then
    .error (.query ("`" ++ field ++ "` is a path: it takes @hash, @unique or @sorted"))
  else
    match k with
    | .vector spec =>
      match ty with
      | .vector _ _ =>
        if spec.quant = .bit ∧ spec.metric ≠ .cosine then
          .error (.query ("`" ++ field ++ "`: quant=bit keeps the signs of unit vectors, so it " ++
            "needs the cosine metric, not " ++ spec.metric.name))
        else checkSparse field ty
      | _ => .error (.type ("field `" ++ field ++
          "` is not vector<N>, no vector index can be built"))
    | .text _ =>
      if ty ≠ .text then
        .error (.type ("field `" ++ field ++ "` is not text, no full-text index can be built"))
      else checkSparse field ty
    | .sorted ttl =>
      if (ttl.isSome ∧ ty ≠ .timestamp) ∨ ttl = some 0 then
        .error (.type ("`" ++ field ++
          "`: @ttl takes a timestamp field and a duration past zero"))
      else if !orderable ty then
        .error (.type ("field `" ++ field ++ "` is not int, float, timestamp, text or json, no " ++
          "ordered index can be built"))
      else checkSparse field ty
    | .inverted =>
      match ty with
      | .sparse _ => checkSparse field ty
      | _ => .error (.type ("field `" ++ field ++ "` is not sparse<N>, no inverted index can be " ++
          "built (a text field's is @text)"))
    | .geo =>
      if ty ≠ .geo then
        .error (.type ("field `" ++ field ++ "` is not geo, no @geo index can be built"))
      else checkSparse field ty
    | .hash _ =>
      if ty = .geo then .error (.type ("`" ++ field ++ "` is a point: it takes @geo"))
      else checkSparse field ty
    | .none => checkSparse field ty

/-- `Schema::path`. -/
def Schema.path (s : Schema) (name : String) : Option Field := s.paths.find? fun f => f.name == name

/-- `Schema::indexed`: the field or path an index of the name is on. -/
def Schema.indexed (s : Schema) (name : String) : Option Field :=
  match splitPath name with
  | none => s.field name
  | some _ => s.path name

/-- `Schema::part_type`. -/
def Schema.partType (s : Schema) (key : String) : Result DataType := do
  if (← s.pathOf key).isSome then pure .json
  else match s.field key with
    | some f => pure f.ty
    | none => .error (.notFound ("field `" ++ key ++ "` in `" ++ s.name ++ "`"))

/-- `MAX_COMPOSITE_KEYS`. -/
def maxCompositeKeys : Nat := 8

/-- **A schema whose declarations were checked**: as accepted, every index one its field takes,
every path one that reads into a json field, and every composite over fields with an order. -/
structure Schema.Checked (s : Schema) : Prop extends s.WF where
  fields_checked : ∀ f ∈ s.fields, f.index.check f.name f.ty = .ok ()
  fields_resolved : ∀ f ∈ s.fields, f.index.resolved = f.index
  paths_nodup : (s.paths.map (·.name)).Nodup
  paths_json : ∀ p ∈ s.paths, p.ty = .json
  paths_plain : ∀ p ∈ s.paths, p.collate = none ∧ p.nocase = false
  paths_read : ∀ p ∈ s.paths, ∃ pos keys, s.pathOf p.name = .ok (some (pos, keys))
  composites_long : ∀ c ∈ s.composites, 2 ≤ c.keys.length
  composites_short : ∀ c ∈ s.composites, c.keys.length ≤ maxCompositeKeys
  composites_part : ∀ c ∈ s.composites, ∀ k ∈ c.keys,
    ∃ ty, s.partType k.1 = .ok ty ∧ compositePart ty = true

/-! ## 4. Rows -/

/-- A stored document: its values by place, the last nulls possibly left out. -/
abbrev Payload := List Value

/-- The value at a place. -/
def Payload.at (p : Payload) (place : Nat) : Value := p.getD place .null

/-- **A collection's rows**: an accepted schema and the payloads stored under it, each of which
holds in every field a value of the field's type. -/
structure Rows where
  schema : Schema
  store : OrdMap Payload
  wf : schema.WF
  typed : ∀ id p, store.get id = some p → ∀ pos f, schema.fields[pos]? = some f →
    Typed f.ty (p.at (schema.place pos))

namespace Rows

/-- `Store::read_field`: the field of a row, `none` where there is no row. -/
def readField (R : Rows) (id : DocId) (pos : Nat) : Option Value :=
  (R.store.get id).map fun p => p.at (R.schema.place pos)

/-- `Store::read_path`: the value at a path into a field of a row. -/
def readPath (R : Rows) (id : DocId) (pos : Nat) (keys : String) : Option Value :=
  (R.store.get id).map fun p => (p.at (R.schema.place pos)).atPath keys

/-- `read_source`: a missing row reads as null. -/
def readSource (R : Rows) (id : DocId) : Nat × Option String → Value
  | (pos, none) => (R.readField id pos).getD .null
  | (pos, some keys) => (R.readPath id pos keys).getD .null

/-- **A stored row as an expression reads it**, `StoreRow`. -/
def row (R : Rows) (id : DocId) : Row where
  id := id
  field name := (R.schema.sourceOrErr name).map (R.readSource id)
  textOrder name := ((R.schema.field name).map Field.textOrder).getD .bytes

/-- The value field `pos` of a row reads as is of the field's type. -/
theorem typed_readField (R : Rows) (id : DocId) {pos : Nat} {f : Field}
    (h : R.schema.fields[pos]? = some f) : Typed f.ty ((R.readField id pos).getD .null) := by
  unfold readField
  cases hp : R.store.get id with
  | none => exact typed_null f.ty
  | some p => exact R.typed id p hp pos f h

end Rows

end Fenec
