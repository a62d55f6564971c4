/-
# Schemas made and changed

`Schema.create` is the one check every schema's fields go through.  `alterSchema` adds, drops and
renames a field and changes a `@ttl`, `checkIndex` and `checkComposite` say what an index may be
made on.

`Schema.Lawful` is what all of them keep (`alter_lawful`): it is `Checked` in a form that depends
on the fields only through what a name reads.  A drop leaves the stored payloads as they are, and a
rename changes no place, so where a name reads before and after a change it reads the same
(`alter_agrees`).
-/
import Fenec.Layout

namespace Fenec

open Lib Case

/-! ## 1. Making a schema -/

/-- `collatable`. -/
def collatable : DataType → Bool
  | .text => true
  | .list t => t == .text
  | _ => false

/-- `one_expiry`: the rows of a collection expire by one field. -/
def oneExpiry (collection : String) (fields : List Field) : Result Unit :=
  match fields.filter fun f => f.index.ttl.isSome with
  | a :: b :: _ => .error (.query ("`" ++ collection ++ "`'s rows expire by one field: `" ++
      a.name ++ "` and `" ++ b.name ++ "` both have @ttl"))
  | _ => .ok ()

/-- What `Schema::new` asks of a field, past the ones seen. -/
def checkField (seen : List String) (f : Field) : Result Unit :=
  if f.name = "id" then
    .error (.query "`id` is a reserved field, it cannot be declared in a schema")
  else if f.name.toList.contains '.' || f.name.toList.isEmpty then
    .error (.query ("`" ++ f.name ++
      "` cannot name a field: a name holds no dot, which starts a path"))
  else if f.ty = .list .json then
    .error (.type ("`" ++ f.name ++ "`: a list of json is a json field holding a list"))
  else if seen.contains f.name then .error (.existing ("duplicate field `" ++ f.name ++ "`"))
  else match f.collate.filter fun _ => !collatable f.ty with
    | some c => .error (.query ("`collate " ++ c.name ++ "` orders text; `" ++ f.name ++ "` is " ++
        f.ty.name))
    | none =>
      if f.nocase && f.ty != .text then
        .error (.query ("`nocase` compares a text by its case fold; `" ++ f.name ++ "` is " ++
          f.ty.name))
      else f.index.check f.name f.ty

/-- The fields of a schema, each checked past the ones before it. -/
def checkFields : List String → List Field → Result Unit
  | _, [] => .ok ()
  | seen, f :: fs => do
    checkField seen f
    checkFields (f.name :: seen) fs

/-- **`Schema::new`**. -/
def Schema.create (name : String) (fields : List Field) : Result Schema := do
  let fields := fields.map fun f => { f with index := f.index.resolved }
  checkFields [] fields
  oneExpiry name fields
  pure ⟨name, fields, [], [], []⟩

/-! ## 2. Changing fields -/

/-- `Alter`. -/
inductive Alter where
  | addField (f : Field)
  | dropField (name : String)
  | renameField (name to_ : String)
  | ttl (name : String) (ttl : Option Nat)

/-- `FIELD_ADD` and its siblings. -/
inductive FieldOp where
  | add
  | drop
  | rename
  | ttl
deriving DecidableEq

/-- `FieldChange`: a change of a collection's fields, and the schema it leaves. -/
structure FieldChange where
  op : FieldOp
  field : String
  to_ : String
  schema : Schema
deriving DecidableEq

/-- `str::strip_prefix`. -/
def stripPrefix (pre name : String) : Option String :=
  if pre.toList.isPrefixOf name.toList then
    some (String.ofList (name.toList.drop pre.toList.length))
  else none

/-- `Composite::reads`. -/
def Composite.reads (k : Composite) (field : String) : Bool :=
  k.keys.any fun key => key.1 == field || (splitPath key.1).any fun fk => fk.1 == field

/-- A name after a field was renamed: the field, or a path into it. -/
def renamedKey (name to_ key : String) : String :=
  if key = name then to_
  else match stripPrefix (name ++ ".") key with
    | some keys => to_ ++ "." ++ keys
    | none => key

/-- A path after a field was renamed. -/
def renamedPath (name to_ path : String) : String :=
  match stripPrefix (name ++ ".") path with
  | some keys => to_ ++ "." ++ keys
  | none => path

/-- **`Database::alter_collection`, the schema it makes.** -/
def alterSchema (s : Schema) (change : Alter) : Result FieldChange :=
  let missing (f : String) : Error := .notFound ("field `" ++ f ++ "` in `" ++ s.name ++ "`")
  match change with
  | .addField f =>
    if f.required then
      .error (.query ("`" ++ f.name ++ "` cannot be required: the documents `" ++ s.name ++
        "` holds have no value for it"))
    else do
      let made ← Schema.create s.name (s.fields ++ [f])
      pure ⟨.add, f.name, "", { s with fields := made.fields }⟩
  | .dropField name =>
    match s.fieldPos name with
    | none => .error (missing name)
    | some pos =>
      if s.fields.length = 1 then
        .error (.query ("`" ++ name ++ "` is the only field of `" ++ s.name ++
          "`, which keeps one at least"))
      else
        .ok ⟨.drop, name, "", { s with
          fields := s.fields.eraseIdx pos
          dropped := insertPlace (s.place pos) s.dropped
          paths := s.paths.filter fun p => (stripPrefix (name ++ ".") p.name).isNone
          composites := s.composites.filter fun c => !c.reads name }⟩
  | .renameField name to_ =>
    match s.fieldPos name with
    | none => .error (missing name)
    | some pos => do
      let made ← Schema.create s.name (s.fields.modify pos fun f => { f with name := to_ })
      pure ⟨.rename, name, to_, { s with
        fields := made.fields
        paths := s.paths.map fun p => { p with name := renamedPath name to_ p.name }
        composites := s.composites.map fun c =>
          { c with keys := c.keys.map fun k => (renamedKey name to_ k.1, k.2) } }⟩
  | .ttl name ttl =>
    match s.fieldPos name with
    | none => .error (missing name)
    | some pos =>
      match s.fields[pos]? with
      | some ⟨_, ty, .sorted _, _, _, _⟩ => do
        IndexKind.check (.sorted ttl) name ty
        let fields := s.fields.modify pos fun f => { f with index := .sorted ttl }
        oneExpiry s.name fields
        pure ⟨.ttl, name, "", { s with fields := fields }⟩
      | _ => .error (.query ("`" ++ name ++ "` has no ordered index to expire rows by: `create " ++
          "index on " ++ s.name ++ " (" ++ name ++ ") @ttl(..)` makes one"))

/-! ## 3. Declaring indexes -/

/-- What `check_index` answers: nothing to do, or the field or path to index. -/
inductive IndexTarget where
  | done
  | field (pos : Nat)
  | path

/-- **`Database::check_index`**. -/
def checkIndex (s : Schema) (field : String) (kind : IndexKind) (ifNotExists : Bool) :
    Result IndexTarget := do
  let isPath := (← s.pathOf field).isSome
  let found : Result (DataType × IndexKind) := match s.path field with
    | some p => .ok (p.ty, p.index)
    | none =>
      if isPath then .ok (.json, .none)
      else match s.field field with
        | some f => .ok (f.ty, f.index)
        | none => .error (.notFound ("field `" ++ field ++ "` in `" ++ s.name ++ "`"))
  let (ty, index) ← found
  if index ≠ .none then
    if ifNotExists then pure .done
    else .error (.existing ("an index on field `" ++ field ++ "`"))
  else
    IndexKind.check kind field ty
    if kind.ttl.isSome then
      oneExpiry s.name (s.fields ++ [⟨field, ty, kind, false, none, false⟩])
    if (splitPath field).isSome then pure .path
    else match s.fieldPos field with
      | some pos => pure (.field pos)
      | none => .error (.notFound ("field `" ++ field ++ "` in `" ++ s.name ++ "`"))

/-- `Schema::add_path`: a path past those of the fields up to its own. -/
def Schema.addPath (s : Schema) (f : Field) : Schema :=
  let rank (n : String) : Option Nat := (splitPath n).bind fun fk => s.fieldPos fk.1
  let later (p : Field) : Bool := match rank p.name, rank f.name with
    | some a, some b => decide (b < a)
    | some _, none => true
    | none, _ => false
  { s with paths := s.paths.takeWhile (fun p => !later p) ++
      f :: s.paths.dropWhile fun p => !later p }

/-- `Schema::check_composite`: the composite over the same keys that is there, if one is. -/
def checkComposite (s : Schema) (c : Composite) : Result (Option Composite) := do
  if c.keys.length < 2 then
    .error (.query ("an index of one field is that field's own: `@sorted`, which walks both ways, " ++
      "or `@unique`"))
  else if c.keys.length > maxCompositeKeys then
    .error (.query ("an index takes at most " ++ toString maxCompositeKeys ++ " fields, not " ++
      toString c.keys.length))
  else
    checkParts [] (c.keys.map (·.1))
    pure (s.composites.find? fun o => o.keys.map (·.1) == c.keys.map (·.1))
where
  /-- The parts, each past the ones before it. -/
  checkParts : List String → List String → Result Unit
    | _, [] => .ok ()
    | seen, k :: ks =>
      if seen.contains k then .error (.query ("`" ++ k ++ "` is named twice in one index"))
      else do
        let ty ← s.partType k
        if !compositePart ty then
          .error (.type ("`" ++ k ++ "` is " ++ ty.name ++ ": an index over several fields orders " ++
            "bool, int, float, timestamp, text and json"))
        else checkParts (k :: seen) ks

/-! ## 4. Names and paths -/

theorem splitOnce_eq_some {cs a b : List Char} :
    Time.splitOnce (· == '.') cs = some (a, b) ↔ cs = a ++ '.' :: b ∧ '.' ∉ a := by
  induction cs generalizing a with
  | nil => simp [Time.splitOnce]
  | cons c cs ih =>
    by_cases hc : c = '.'
    · subst hc
      simp only [Time.splitOnce, beq_self_eq_true, if_true, Option.some.injEq, Prod.mk.injEq]
      constructor
      · rintro ⟨rfl, rfl⟩
        exact ⟨rfl, by simp⟩
      · rintro ⟨h, ha⟩
        cases a with
        | nil =>
          cases h
          exact ⟨rfl, rfl⟩
        | cons x a =>
          cases h
          exact absurd List.mem_cons_self ha
    · simp only [Time.splitOnce, beq_iff_eq, hc, if_false, Option.map_eq_some_iff, Prod.exists,
        Prod.mk.injEq]
      constructor
      · rintro ⟨a', b', h, rfl, rfl⟩
        obtain ⟨rfl, ha⟩ := ih.mp h
        refine ⟨rfl, ?_⟩
        rw [List.mem_cons, not_or]
        exact ⟨Ne.symm hc, ha⟩
      · rintro ⟨h, ha⟩
        cases a with
        | nil => exact absurd (List.cons.inj h).1 hc
        | cons x a =>
          obtain ⟨rfl, hcs⟩ := List.cons.inj h
          rw [List.mem_cons, not_or] at ha
          exact ⟨a, b, ih.mpr ⟨hcs, ha.2⟩, rfl, rfl⟩

theorem splitPath_eq_some {n field keys : String} :
    splitPath n = some (field, keys) ↔ n = field ++ "." ++ keys ∧ '.' ∉ field.toList := by
  unfold splitPath
  rw [Option.map_eq_some_iff]
  constructor
  · rintro ⟨⟨a, b⟩, h, heq⟩
    cases heq
    obtain ⟨hn, ha⟩ := splitOnce_eq_some.mp h
    refine ⟨?_, by simpa using ha⟩
    rw [← String.toList_inj]
    simp [hn]
  · rintro ⟨rfl, hf⟩
    refine ⟨(field.toList, keys.toList), splitOnce_eq_some.mpr ⟨by simp, hf⟩, by simp⟩

/-- **A name starts with a field's name and a dot where it is a path into the field.** -/
theorem stripPrefix_eq_some {name n keys : String} (hd : '.' ∉ name.toList) :
    stripPrefix (name ++ ".") n = some keys ↔ splitPath n = some (name, keys) := by
  rw [splitPath_eq_some]
  unfold stripPrefix
  constructor
  · intro h
    split at h
    · next hpre =>
      cases h
      refine ⟨?_, hd⟩
      obtain ⟨t, ht⟩ := List.isPrefixOf_iff_prefix.mp hpre
      rw [← String.toList_inj, ← ht]
      simp
    · cases h
  · rintro ⟨rfl, -⟩
    have hpre : (name ++ ".").toList.isPrefixOf (name ++ "." ++ keys).toList = true := by
      rw [List.isPrefixOf_iff_prefix]
      exact ⟨keys.toList, by simp⟩
    rw [if_pos hpre]
    simp

theorem stripPrefix_eq_none {name n : String} (hd : '.' ∉ name.toList) :
    stripPrefix (name ++ ".") n = none ↔ ∀ keys, splitPath n ≠ some (name, keys) := by
  rw [Option.eq_none_iff_forall_ne_some]
  exact forall_congr' fun keys => not_congr (stripPrefix_eq_some hd)

theorem splitPath_path {field : String} (hd : '.' ∉ field.toList) (keys : String) :
    splitPath (field ++ "." ++ keys) = some (field, keys) :=
  splitPath_eq_some.mpr ⟨rfl, hd⟩

/-! ## 5. What is checked stays checked -/

/-- What a schema's fields have to be. -/
structure FieldsOk (fields : List Field) : Prop where
  nodup : (fields.map (·.name)).Nodup
  not_id : ∀ f ∈ fields, f.name ≠ "id"
  no_dot : ∀ f ∈ fields, '.' ∉ f.name.toList
  nocase_text : ∀ f ∈ fields, f.nocase = true → f.ty = .text
  checked : ∀ f ∈ fields, f.index.check f.name f.ty = .ok ()
  resolved : ∀ f ∈ fields, f.index.resolved = f.index

theorem FieldsOk.wf {s : Schema} (h : FieldsOk s.fields) : s.WF :=
  ⟨h.nodup, h.not_id, h.no_dot, h.nocase_text⟩

theorem resolved_resolved (k : IndexKind) : k.resolved.resolved = k.resolved := by
  cases k with
  | vector spec =>
    simp only [IndexKind.resolved, VectorIndexSpec.resolved]
    congr 1
    split
    · next h =>
      rw [if_neg]
      split
      · exact Nat.succ_ne_zero _
      · exact Nat.succ_ne_zero _
    · rfl
  | _ => rfl

theorem checkField_ok {seen : List String} {f : Field} (h : checkField seen f = .ok ()) :
    f.name ≠ "id" ∧ '.' ∉ f.name.toList ∧ f.name ∉ seen ∧ (f.nocase = true → f.ty = .text) ∧
      f.index.check f.name f.ty = .ok () := by
  unfold checkField at h
  split at h
  · cases h
  · next hid =>
    split at h
    · cases h
    · next hdot =>
      split at h
      · cases h
      · split at h
        · cases h
        · next hseen =>
          split at h
          · cases h
          · split at h
            · cases h
            · next hcase =>
              rw [Bool.not_eq_true, Bool.or_eq_false_iff] at hdot
              refine ⟨hid, by simpa using hdot.1, by simpa using hseen, fun hn => ?_, h⟩
              simpa [hn] using hcase

theorem checkFields_ok {seen : List String} {fields : List Field}
    (h : checkFields seen fields = .ok ()) : (fields.map (·.name)).Nodup ∧
      (∀ f ∈ fields, f.name ∉ seen) ∧ ∀ f ∈ fields, f.name ≠ "id" ∧ '.' ∉ f.name.toList ∧
        (f.nocase = true → f.ty = .text) ∧ f.index.check f.name f.ty = .ok () := by
  induction fields generalizing seen with
  | nil => exact ⟨List.nodup_nil, by simp, by simp⟩
  | cons f fs ih =>
    unfold checkFields at h
    obtain ⟨_, hf, hfs⟩ := bind_ok h
    obtain ⟨hid, hdot, hseen, hcase, hcheck⟩ := checkField_ok hf
    obtain ⟨hnodup, hnot, hall⟩ := ih hfs
    refine ⟨?_, ?_, ?_⟩
    · rw [List.map_cons, List.nodup_cons]
      refine ⟨fun hm => ?_, hnodup⟩
      obtain ⟨g, hg, hname⟩ := List.mem_map.mp hm
      exact hnot g hg (hname ▸ List.mem_cons_self)
    · intro g hg
      rcases List.mem_cons.mp hg with rfl | hg
      · exact hseen
      · exact fun hm => hnot g hg (List.mem_cons_of_mem _ hm)
    · intro g hg
      rcases List.mem_cons.mp hg with rfl | hg
      · exact ⟨hid, hdot, hcase, hcheck⟩
      · exact hall g hg

/-- **`Schema::new` makes fields that are in order**, their indexes resolved. -/
theorem create_ok {name : String} {fields : List Field} {s : Schema}
    (h : Schema.create name fields = .ok s) :
    s.fields = fields.map (fun f => { f with index := f.index.resolved }) ∧ FieldsOk s.fields := by
  unfold Schema.create at h
  obtain ⟨_, hf, h⟩ := bind_ok h
  obtain ⟨_, -, h⟩ := bind_ok h
  cases h
  obtain ⟨hnodup, -, hall⟩ := checkFields_ok hf
  refine ⟨rfl, hnodup, fun f hf => (hall f hf).1, fun f hf => (hall f hf).2.1,
    fun f hf => (hall f hf).2.2.1, fun f hf => (hall f hf).2.2.2, fun f hf => ?_⟩
  obtain ⟨g, -, rfl⟩ := List.mem_map.mp hf
  exact resolved_resolved g.index

/-! ## 6. Schemas in good order -/

/-- What a path declared beside the fields has to be. -/
structure PathOk (s : Schema) (p : Field) : Prop where
  json : p.ty = .json
  plain : p.collate = none ∧ p.nocase = false
  on_path : p.index.onPath = true
  dotted : (splitPath p.name).isSome = true
  reads : (s.reading p.name).isSome = true

/-- What a composite has to be. -/
structure CompositeOk (s : Schema) (k : Composite) : Prop where
  long : 2 ≤ k.keys.length
  short : k.keys.length ≤ maxCompositeKeys
  part : ∀ key ∈ k.keys, ∃ r, s.reading key.1 = some r ∧ compositePart r.ty = true

/-- **A schema whose declarations are in order**: the fields, the paths beside them, each with an
index, and the composites. -/
structure Schema.Lawful (s : Schema) : Prop where
  fields : FieldsOk s.fields
  paths_nodup : (s.paths.map (·.name)).Nodup
  path : ∀ p ∈ s.paths, PathOk s p
  composite : ∀ k ∈ s.composites, CompositeOk s k

theorem Schema.Lawful.checked {s : Schema} (h : s.Lawful) : s.Checked where
  toWF := h.fields.wf
  fields_checked := h.fields.checked
  fields_resolved := h.fields.resolved
  paths_nodup := h.paths_nodup
  paths_json p hp := (h.path p hp).json
  paths_plain p hp := (h.path p hp).plain
  paths_read p hp := pathOf_iff_reading.mpr ⟨(h.path p hp).dotted, (h.path p hp).reads⟩
  composites_long k hk := (h.composite k hk).long
  composites_short k hk := (h.composite k hk).short
  composites_part k hk key hkey := by
    obtain ⟨r, hr, hpart⟩ := (h.composite k hk).part key hkey
    exact ⟨r.ty, partType_iff_reading.mpr ⟨r, hr, rfl⟩, hpart⟩

section

variable {s s' : Schema}

theorem PathOk.within {p : Field} (h : PathOk s p) (hw : s.Within s') : PathOk s' p where
  json := h.json
  plain := h.plain
  on_path := h.on_path
  dotted := h.dotted
  reads := by
    obtain ⟨r, hr⟩ := Option.isSome_iff_exists.mp h.reads
    rw [hw _ r hr]
    rfl

theorem CompositeOk.within {k : Composite} (h : CompositeOk s k) (hw : s.Within s') :
    CompositeOk s' k where
  long := h.long
  short := h.short
  part key hkey := by
    obtain ⟨r, hr, hpart⟩ := h.part key hkey
    exact ⟨r, hw _ r hr, hpart⟩

/-- **A schema that reads what one in order did is in order**, if its fields are. -/
theorem Schema.Lawful.within (h : s.Lawful) (hw : s.Within s') (hf : FieldsOk s'.fields)
    (hp : s'.paths = s.paths) (hk : ∀ k ∈ s'.composites, k ∈ s.composites) : s'.Lawful where
  fields := hf
  paths_nodup := by
    rw [hp]
    exact h.paths_nodup
  path p hmem := (h.path p (hp ▸ hmem)).within hw
  composite k hmem := (h.composite k (hk k hmem)).within hw

theorem FieldsOk.sublist {l l' : List Field} (h : FieldsOk l) (hl : l'.Sublist l) :
    FieldsOk l' where
  nodup := h.nodup.sublist (hl.map _)
  not_id f hf := h.not_id f (hl.subset hf)
  no_dot f hf := h.no_dot f (hl.subset hf)
  nocase_text f hf := h.nocase_text f (hl.subset hf)
  checked f hf := h.checked f (hl.subset hf)
  resolved f hf := h.resolved f (hl.subset hf)

/-- Fields whose indexes are resolved already. -/
theorem map_resolved {fields : List Field} (h : ∀ f ∈ fields, f.index.resolved = f.index) :
    fields.map (fun f => { f with index := f.index.resolved }) = fields := by
  refine (List.map_congr_left fun f hf => ?_).trans (List.map_id fields)
  rw [h f hf]
  rfl

/-- A resolved index may be where the index may. -/
theorem check_resolved (k : IndexKind) (name : String) (ty : DataType) :
    k.resolved.check name ty = k.check name ty := by
  cases k with
  | vector spec =>
    have hspec : ∀ t : VectorIndexSpec, t.quant = spec.quant → t.metric = spec.metric →
        (IndexKind.vector t).check name ty = (IndexKind.vector spec).check name ty := by
      intro t hq hm
      simp only [IndexKind.check, hq, hm]
      rfl
    refine hspec spec.resolved ?_ ?_
    · unfold VectorIndexSpec.resolved
      split <;> rfl
    · unfold VectorIndexSpec.resolved
      split <;> rfl
  | _ => rfl

end

/-! ## 7. A field added, or its index changed -/

/-- A schema with a field's index changed. -/
def Schema.indexAt (s : Schema) (pos : Nat) (k : IndexKind) : Schema := { s with
  fields := s.fields.modify pos fun f => { f with index := k } }

section

variable {s : Schema} {pos : Nat} {f : Field} {ch : FieldChange}

/-- A schema with a field more reads what it did. -/
theorem within_addField {g : Field} (hok : FieldsOk (s.fields ++ [g])) :
    s.Within { s with fields := s.fields ++ [g] } := by
  refine within_of_look fun n r hr => ?_
  have hspot := spot_add (s := s) (f := g) hok.nodup
    (spots_add s { s with fields := s.fields ++ [g] } g rfl rfl) n
  by_cases hn : n = g.name
  · -- the name was no field's
    subst hn
    rw [look_eq_none] at hr
    · cases hr
    · refine List.findIdx?_eq_none_iff.mpr fun f hf => ?_
      have hne : f.name ≠ g.name := by
        have hnodup := hok.nodup
        rw [List.map_append, List.nodup_append] at hnodup
        exact hnodup.2.2 f.name (List.mem_map_of_mem hf) g.name (by simp)
      simpa using hne
  · rw [if_neg hn] at hspot
    rw [Schema.look, hspot]
    exact hr

/-- **What adding a field makes.** -/
theorem alter_add (hs : s.Lawful) (h : alterSchema s (.addField f) = .ok ch) :
    ∃ g : Field, g.name = f.name ∧ g.index = f.index.resolved ∧ g.ty = f.ty ∧
      ch = ⟨.add, g.name, "", { s with fields := s.fields ++ [g] }⟩ ∧
      FieldsOk (s.fields ++ [g]) := by
  unfold alterSchema at h
  dsimp only at h
  split at h
  · cases h
  · obtain ⟨made, hmade, h⟩ := bind_ok h
    cases h
    obtain ⟨hfields, hok⟩ := create_ok hmade
    rw [List.map_append, map_resolved hs.fields.resolved] at hfields
    rw [hfields] at hok
    refine ⟨{ f with index := f.index.resolved }, rfl, rfl, rfl, ?_, hok⟩
    rw [hfields]
    rfl

theorem names_indexAt (s : Schema) (pos : Nat) (k : IndexKind) :
    (s.indexAt pos k).fields.map (·.name) = s.fields.map (·.name) := by
  apply List.ext_getElem?
  intro j
  simp only [Schema.indexAt, List.getElem?_map, List.getElem?_modify]
  cases s.fields[j]? with
  | none => rfl
  | some f =>
    simp only [Option.map_eq_map, Option.map_some]
    split <;> rfl

/-- A field with another index is looked up as it was. -/
theorem look_indexAt (hs : s.WF) (hf : s.fields[pos]? = some f) (k : IndexKind) (n : String) :
    (s.indexAt pos k).look n = s.look n := by
  have hspot := spot_modify (s := s) hs.nodup
    ((names_indexAt s pos k).symm ▸ hs.nodup) hf (fun f => { f with index := k })
    (spots_modify s (s.indexAt pos k) pos _ rfl rfl) n
  by_cases hn : n = f.name
  · rw [if_pos hn] at hspot
    rw [hn, look_of_getElem hs hf, ← hn, Schema.look, hspot]
    rfl
  · rw [if_neg hn, if_neg hn] at hspot
    rw [Schema.look, hspot]
    rfl

theorem within_indexAt (hs : s.WF) (hf : s.fields[pos]? = some f) (k : IndexKind) :
    s.Within (s.indexAt pos k) :=
  within_of_look fun n _ hr => (look_indexAt hs hf k n).trans hr

/-- The fields stay in order under an index that may be where it is put. -/
theorem fieldsOk_indexAt (hs : FieldsOk s.fields) (hf : s.fields[pos]? = some f) {k : IndexKind}
    (hcheck : k.check f.name f.ty = .ok ()) (hres : k.resolved = k) :
    FieldsOk (s.indexAt pos k).fields := by
  have hmem : ∀ g ∈ (s.indexAt pos k).fields, g = { f with index := k } ∨ g ∈ s.fields := by
    intro g hg
    rcases (mem_modify_name (g := fun f : Field => f.name) _ hf hs.nodup).mp hg with h | h
    · exact .inl h
    · exact .inr h.1
  have hin := List.mem_of_getElem? hf
  constructor
  · exact (names_indexAt s pos k).symm ▸ hs.nodup
  · intro g hg
    rcases hmem g hg with rfl | hg
    · exact hs.not_id f hin
    · exact hs.not_id g hg
  · intro g hg
    rcases hmem g hg with rfl | hg
    · exact hs.no_dot f hin
    · exact hs.no_dot g hg
  · intro g hg
    rcases hmem g hg with rfl | hg
    · exact hs.nocase_text f hin
    · exact hs.nocase_text g hg
  · intro g hg
    rcases hmem g hg with rfl | hg
    · exact hcheck
    · exact hs.checked g hg
  · intro g hg
    rcases hmem g hg with rfl | hg
    · exact hres
    · exact hs.resolved g hg

theorem lawful_indexAt (hs : s.Lawful) (hf : s.fields[pos]? = some f) {k : IndexKind}
    (hcheck : k.check f.name f.ty = .ok ()) (hres : k.resolved = k) : (s.indexAt pos k).Lawful :=
  hs.within (within_indexAt hs.fields.wf hf k) (fieldsOk_indexAt hs.fields hf hcheck hres) rfl
    fun _ hk => hk

/-- **What changing a `@ttl` makes.** -/
theorem alter_ttl {name : String} {ttl : Option Nat} (h : alterSchema s (.ttl name ttl) = .ok ch) :
    ∃ pos f, s.fields[pos]? = some f ∧ f.name = name ∧ (∃ old, f.index = .sorted old) ∧
      (IndexKind.sorted ttl).check f.name f.ty = .ok () ∧
      ch = ⟨.ttl, name, "", s.indexAt pos (.sorted ttl)⟩ := by
  unfold alterSchema at h
  dsimp only at h
  split at h
  · cases h
  · next pos hpos =>
    obtain ⟨hlt, hname, -⟩ := Schema.fieldPos_eq_some hpos
    split at h
    · next fname ty old req coll nocase hf =>
      obtain ⟨_, hcheck, h⟩ := bind_ok h
      obtain ⟨_, -, h⟩ := bind_ok h
      cases h
      have hfname : fname = name := by
        rw [List.getElem?_eq_getElem hlt] at hf
        rw [← hname, List.get_eq_getElem, Option.some.inj hf]
      exact ⟨pos, _, hf, hfname, ⟨old, rfl⟩, hfname ▸ hcheck, rfl⟩
    · cases h

end

/-! ## 8. A field dropped -/

/-- A schema with a field taken out, its place noted, the paths into it and the composites over it
with it. -/
def Schema.dropAt (s : Schema) (name : String) (pos : Nat) : Schema := { s with
  fields := s.fields.eraseIdx pos
  dropped := insertPlace (s.place pos) s.dropped
  paths := s.paths.filter fun p => (stripPrefix (name ++ ".") p.name).isNone
  composites := s.composites.filter fun c => !c.reads name }

section

variable {s : Schema} {pos : Nat} {f : Field} {ch : FieldChange}

/-- **What dropping a field makes.** -/
theorem alter_drop {name : String} (h : alterSchema s (.dropField name) = .ok ch) :
    ∃ pos f, s.fields[pos]? = some f ∧ f.name = name ∧
      ch = ⟨.drop, f.name, "", s.dropAt f.name pos⟩ := by
  unfold alterSchema at h
  dsimp only at h
  split at h
  · cases h
  · next pos hpos =>
    obtain ⟨hlt, hname, -⟩ := Schema.fieldPos_eq_some hpos
    split at h
    · cases h
    · cases h
      subst hname
      exact ⟨pos, s.fields.get ⟨pos, hlt⟩, by simp, rfl, rfl⟩

/-- A dropped field is not looked up, the others are as they were. -/
theorem look_dropAt (hs : s.WF) (hf : s.fields[pos]? = some f) (n : String) :
    (s.dropAt f.name pos).look n = if n = f.name then none else s.look n := by
  have hspot := spot_drop (s := s) hs.nodup hf
    (spots_drop s (s.dropAt f.name pos) pos rfl rfl) n
  rw [Schema.look, hspot]
  split <;> rfl

theorem agrees_dropAt (hs : s.WF) (hf : s.fields[pos]? = some f) :
    s.Agrees (s.dropAt f.name pos) := by
  refine agrees_of_look fun n r r' hr hr' => ?_
  rw [look_dropAt hs hf] at hr'
  split at hr'
  · cases hr'
  · rw [hr] at hr'
    exact Option.some.inj hr'

/-- A name that is not the dropped field's, nor a path into it, reads what it did. -/
theorem reading_dropAt (hs : s.WF) (hf : s.fields[pos]? = some f) {n : String} (hne : n ≠ f.name)
    (hpath : ∀ keys, splitPath n ≠ some (f.name, keys)) :
    (s.dropAt f.name pos).reading n = s.reading n := by
  cases hsplit : splitPath n with
  | none => rw [reading_bare hsplit, reading_bare hsplit, look_dropAt hs hf, if_neg hne]
  | some fk =>
    obtain ⟨field, keys⟩ := fk
    refine reading_congr hsplit hsplit ?_
    rw [look_dropAt hs hf, if_neg]
    rintro rfl
    exact hpath keys hsplit

/-- **A schema in order stays so when a field is dropped.** -/
theorem lawful_dropAt (hs : s.Lawful) (hf : s.fields[pos]? = some f) :
    (s.dropAt f.name pos).Lawful := by
  have hdot : '.' ∉ f.name.toList := hs.fields.no_dot f (List.mem_of_getElem? hf)
  have hbare : splitPath f.name = none := splitPath_eq_none hdot
  refine ⟨hs.fields.sublist (List.eraseIdx_sublist _ _),
    hs.paths_nodup.sublist (List.filter_sublist.map _), fun p hp => ?_, fun k hk => ?_⟩
  · obtain ⟨hp, hnone⟩ := List.mem_filter.mp hp
    have hpath := hs.path p hp
    refine ⟨hpath.json, hpath.plain, hpath.on_path, hpath.dotted, ?_⟩
    rw [reading_dropAt hs.fields.wf hf ?_ ((stripPrefix_eq_none hdot).mp (by simpa using hnone))]
    · exact hpath.reads
    · intro heq
      have hd := hpath.dotted
      rw [heq, hbare] at hd
      cases hd
  · obtain ⟨hk, hreads⟩ := List.mem_filter.mp hk
    have hcomp := hs.composite k hk
    refine ⟨hcomp.long, hcomp.short, fun key hkey => ?_⟩
    obtain ⟨r, hr, hpart⟩ := hcomp.part key hkey
    -- the composite reads the field under none of its keys
    have hno : ¬ (key.1 == f.name || (splitPath key.1).any fun fk => fk.1 == f.name) = true := by
      intro hkf
      have hreads' : k.reads f.name = true := List.any_eq_true.mpr ⟨key, hkey, hkf⟩
      rw [hreads'] at hreads
      cases hreads
    rw [Bool.or_eq_true, not_or] at hno
    refine ⟨r, ?_, hpart⟩
    rw [reading_dropAt hs.fields.wf hf (by simpa using hno.1), hr]
    intro keys hsplit
    exact hno.2 (by rw [hsplit]; simp)

end

/-! ## 9. A field renamed -/

/-- A schema with a field renamed, in the paths and the composites too. -/
def Schema.renameAt (s : Schema) (name to_ : String) (pos : Nat) : Schema := { s with
  fields := s.fields.modify pos fun f => { f with name := to_ }
  paths := s.paths.map fun p => { p with name := renamedPath name to_ p.name }
  composites := s.composites.map fun c =>
    { c with keys := c.keys.map fun k => (renamedKey name to_ k.1, k.2) } }

section

variable {s : Schema} {pos : Nat} {f : Field} {ch : FieldChange} {to_ : String}

/-- **What renaming a field makes.** -/
theorem alter_rename {name : String} (hs : s.Lawful)
    (h : alterSchema s (.renameField name to_) = .ok ch) :
    ∃ pos f, s.fields[pos]? = some f ∧ f.name = name ∧
      ch = ⟨.rename, f.name, to_, s.renameAt f.name to_ pos⟩ ∧
      FieldsOk (s.renameAt f.name to_ pos).fields := by
  unfold alterSchema at h
  dsimp only at h
  split at h
  · cases h
  · next pos hpos =>
    obtain ⟨hlt, hname, -⟩ := Schema.fieldPos_eq_some hpos
    have hf : s.fields[pos]? = some (s.fields.get ⟨pos, hlt⟩) := by simp
    obtain ⟨made, hmade, h⟩ := bind_ok h
    cases h
    obtain ⟨hfields, hok⟩ := create_ok hmade
    rw [map_resolved] at hfields
    · rw [hfields] at hok
      subst hname
      refine ⟨pos, s.fields.get ⟨pos, hlt⟩, hf, rfl, ?_, hok⟩
      rw [hfields]
      rfl
    · intro g hg
      rcases (mem_modify_name (g := fun f : Field => f.name) _ hf hs.fields.nodup).mp hg with
        rfl | ⟨hg, -⟩
      · exact hs.fields.resolved (s.fields.get ⟨pos, hlt⟩) (List.mem_of_getElem? hf)
      · exact hs.fields.resolved g hg

theorem renameAt_getElem (hf : s.fields[pos]? = some f) :
    (s.renameAt f.name to_ pos).fields[pos]? = some { f with name := to_ } := by
  simp [Schema.renameAt, hf]

/-- The other fields stay as they are. -/
theorem renameAt_eraseIdx (s : Schema) (name to_ : String) (pos : Nat) :
    (s.renameAt name to_ pos).fields.eraseIdx pos = s.fields.eraseIdx pos := by
  apply List.ext_getElem?
  intro j
  simp only [Schema.renameAt, List.getElem?_eraseIdx, List.getElem?_modify]
  split
  · have hj : pos ≠ j := by omega
    cases s.fields[j]? <;> simp [hj]
  · have hj : pos ≠ j + 1 := by omega
    cases s.fields[j + 1]? <;> simp [hj]

/-- No other field has the new name. -/
theorem ne_to_of_mem (hf : s.fields[pos]? = some f)
    (hok : FieldsOk (s.renameAt f.name to_ pos).fields) {g : Field}
    (hg : g ∈ s.fields.eraseIdx pos) : g.name ≠ to_ := by
  rw [← renameAt_eraseIdx s f.name to_ pos] at hg
  exact ((mem_eraseIdx_name (g := fun f : Field => f.name) (renameAt_getElem hf) hok.nodup).mp hg).2

/-- The new name was no other field's. -/
theorem look_to (hs : s.WF) (hf : s.fields[pos]? = some f)
    (hok : FieldsOk (s.renameAt f.name to_ pos).fields) (hne : to_ ≠ f.name) :
    s.look to_ = none := by
  refine look_eq_none (List.findIdx?_eq_none_iff.mpr fun g hg => ?_)
  by_cases hgf : g.name = f.name
  · simpa [hgf] using fun h => hne h.symm
  · have hmem := (mem_eraseIdx_name (g := fun f : Field => f.name) hf hs.nodup).mpr ⟨hg, hgf⟩
    simpa using ne_to_of_mem hf hok hmem

/-- **A renamed field is looked up under the name it has now**, the others as they were. -/
theorem look_renameAt (hs : s.WF) (hf : s.fields[pos]? = some f)
    (hok : FieldsOk (s.renameAt f.name to_ pos).fields) (n : String) :
    (s.renameAt f.name to_ pos).look n =
      if n = to_ then s.look f.name else if n = f.name then none else s.look n := by
  have hspot := spot_modify (s := s) hs.nodup hok.nodup hf
    (fun f => { f with name := to_ }) (spots_modify s (s.renameAt f.name to_ pos) pos _ rfl rfl) n
  rw [Schema.look, hspot]
  by_cases hn : n = to_
  · rw [if_pos hn, if_pos hn, look_of_getElem hs hf]
    rfl
  · rw [if_neg hn, if_neg hn]
    split <;> rfl

theorem agrees_renameAt (hs : s.WF) (hf : s.fields[pos]? = some f)
    (hok : FieldsOk (s.renameAt f.name to_ pos).fields) :
    s.Agrees (s.renameAt f.name to_ pos) := by
  refine agrees_of_look fun n r r' hr hr' => ?_
  rw [look_renameAt hs hf hok] at hr'
  split at hr'
  · next hn =>
    by_cases hsame : to_ = f.name
    · rw [hn, hsame, hr'] at hr
      exact (Option.some.inj hr).symm
    · rw [hn, look_to hs hf hok hsame] at hr
      cases hr
  · split at hr'
    · cases hr'
    · rw [hr] at hr'
      exact Option.some.inj hr'

/-- The field a renamed name starts from. -/
def renamedField (name to_ field : String) : String := if field = name then to_ else field

theorem renamedPath_split {n field keys : String} (hdot : '.' ∉ f.name.toList)
    (h : splitPath n = some (field, keys)) :
    renamedPath f.name to_ n = renamedField f.name to_ field ++ "." ++ keys := by
  unfold renamedPath renamedField
  by_cases hfield : field = f.name
  · subst hfield
    rw [(stripPrefix_eq_some hdot).mpr h, if_pos rfl]
  · rw [if_neg hfield]
    have hnone : stripPrefix (f.name ++ ".") n = none := by
      refine (stripPrefix_eq_none hdot).mpr fun keys' h' => ?_
      rw [h] at h'
      exact hfield (Prod.mk.inj (Option.some.inj h')).1
    rw [hnone]
    exact (splitPath_eq_some.mp h).1

theorem renamedKey_path {n field keys : String} (hdot : '.' ∉ f.name.toList)
    (h : splitPath n = some (field, keys)) :
    renamedKey f.name to_ n = renamedPath f.name to_ n := by
  unfold renamedKey renamedPath
  rw [if_neg]
  rintro rfl
  rw [splitPath_eq_none hdot] at h
  cases h

theorem renamedKey_bare {n : String} (hdot : '.' ∉ f.name.toList) (h : splitPath n = none) :
    renamedKey f.name to_ n = renamedField f.name to_ n := by
  unfold renamedKey renamedField
  split
  · rfl
  · have hnone : stripPrefix (f.name ++ ".") n = none := by
      refine (stripPrefix_eq_none hdot).mpr fun keys h' => ?_
      rw [h] at h'
      cases h'
    rw [hnone]

section

variable (hs : s.WF) (hf : s.fields[pos]? = some f)
  (hok : FieldsOk (s.renameAt f.name to_ pos).fields)

include hf hok

/-- The name the renamed field has now is bare. -/
theorem no_dot_to : '.' ∉ to_.toList := by
  exact hok.no_dot { f with name := to_ } (List.mem_of_getElem? (renameAt_getElem hf))

/-- A field's name that is read has no dot after the rename either. -/
theorem no_dot_renamedField {n : String} (hn : '.' ∉ n.toList) :
    '.' ∉ (renamedField f.name to_ n).toList := by
  unfold renamedField
  split
  · exact no_dot_to hf hok
  · exact hn

include hs

theorem look_renamedField {n : String} {r : Reading} (hr : s.look n = some r) :
    (s.renameAt f.name to_ pos).look (renamedField f.name to_ n) = some r := by
  rw [look_renameAt hs hf hok]
  unfold renamedField
  by_cases hn : n = f.name
  · rw [if_pos hn, if_pos rfl, ← hn, hr]
  · rw [if_neg hn, if_neg hn, if_neg, hr]
    -- a field that is looked up under the new name is the renamed one itself
    rintro rfl
    rw [look_to hs hf hok hn] at hr
    cases hr

/-- **A name that reads is read the same under its new name.** -/
theorem reading_renamedKey {n : String} {r : Reading} (hr : s.reading n = some r) :
    (s.renameAt f.name to_ pos).reading (renamedKey f.name to_ n) = some r := by
  have hdot : '.' ∉ f.name.toList := hs.no_dot f (List.mem_of_getElem? hf)
  cases hsplit : splitPath n with
  | none =>
    have hbare : '.' ∉ n.toList := fun hmem => by
      obtain ⟨a, b, hab⟩ := splitPath_of_dot hmem
      rw [hsplit] at hab
      cases hab
    rw [reading_bare hsplit] at hr
    rw [renamedKey_bare hdot hsplit,
      reading_bare (splitPath_eq_none (no_dot_renamedField hf hok hbare))]
    exact look_renamedField hs hf hok hr
  | some fk =>
    obtain ⟨field, keys⟩ := fk
    have hfield : '.' ∉ field.toList := (splitPath_eq_some.mp hsplit).2
    rw [reading_path hsplit] at hr
    obtain ⟨q, hq, hr⟩ := Option.bind_eq_some_iff.mp hr
    rw [renamedKey_path hdot hsplit, renamedPath_split hdot hsplit,
      reading_path (splitPath_path (no_dot_renamedField hf hok hfield) keys),
      look_renamedField hs hf hok hq, Option.bind_some, hr]

/-- Names of paths that read stay apart. -/
theorem renamedPath_inj {n n' : String} (hn : (splitPath n).isSome = true)
    (hn' : (splitPath n').isSome = true) (hr : (s.reading n).isSome = true)
    (hr' : (s.reading n').isSome = true)
    (heq : renamedPath f.name to_ n = renamedPath f.name to_ n') : n = n' := by
  have hdot : '.' ∉ f.name.toList := hs.no_dot f (List.mem_of_getElem? hf)
  obtain ⟨⟨field, keys⟩, hsplit⟩ := Option.isSome_iff_exists.mp hn
  obtain ⟨⟨field', keys'⟩, hsplit'⟩ := Option.isSome_iff_exists.mp hn'
  have hlook : ∀ {m fd ks}, splitPath m = some (fd, ks) → (s.reading m).isSome = true →
      s.look fd ≠ none := by
    intro m fd ks hm hread hnone
    rw [reading_path hm, hnone] at hread
    cases hread
  have hbare := (splitPath_eq_some.mp hsplit).2
  have hbare' := (splitPath_eq_some.mp hsplit').2
  rw [renamedPath_split hdot hsplit, renamedPath_split hdot hsplit'] at heq
  have hpair := congrArg splitPath heq
  rw [splitPath_path (no_dot_renamedField hf hok hbare),
    splitPath_path (no_dot_renamedField hf hok hbare')] at hpair
  obtain ⟨hfields, rfl⟩ := Prod.mk.inj (Option.some.inj hpair)
  have hsame : field = field' := by
    unfold renamedField at hfields
    by_cases h : field = f.name
    · rw [if_pos h] at hfields
      by_cases h' : field' = f.name
      · rw [h, h']
      · rw [if_neg h'] at hfields
        exact absurd (look_to hs hf hok (hfields ▸ h')) (hfields ▸ hlook hsplit' hr')
    · rw [if_neg h] at hfields
      by_cases h' : field' = f.name
      · rw [if_pos h'] at hfields
        exact absurd (look_to hs hf hok (hfields ▸ h)) (hfields ▸ hlook hsplit hr)
      · rw [if_neg h'] at hfields
        exact hfields
  rw [(splitPath_eq_some.mp hsplit).1, (splitPath_eq_some.mp hsplit').1, hsame]

end

/-- A renamed path has the name of one there was before only if it is that path. -/
theorem eq_of_renamedPath (hs : s.Lawful) (hf : s.fields[pos]? = some f)
    (hok : FieldsOk (s.renameAt f.name to_ pos).fields) {p q : Field} (hp : p ∈ s.paths)
    (hq : q ∈ s.paths) (h : renamedPath f.name to_ q.name = p.name) : q = p := by
  have hwf := hs.fields.wf
  have hdot : '.' ∉ f.name.toList := hwf.no_dot f (List.mem_of_getElem? hf)
  obtain ⟨⟨field, keys⟩, hsplit⟩ := Option.isSome_iff_exists.mp (hs.path p hp).dotted
  obtain ⟨⟨field', keys'⟩, hsplit'⟩ := Option.isSome_iff_exists.mp (hs.path q hq).dotted
  have hbare := no_dot_renamedField hf hok (splitPath_eq_some.mp hsplit').2
  rw [renamedPath_split hdot hsplit'] at h
  rw [← h, splitPath_path hbare] at hsplit
  obtain ⟨hfield, rfl⟩ := Prod.mk.inj (Option.some.inj hsplit)
  have hsame : field = field' := by
    unfold renamedField at hfield
    split at hfield
    · next hname =>
      -- the path was on the new name, which no other field had
      by_contra hne
      have hnone := look_to hwf hf hok fun heq => hne (by rw [← hfield, heq, hname])
      have hread := (hs.path p hp).reads
      rw [← h, renamedField, if_pos hname, reading_path (splitPath_path
        (no_dot_to hf hok) keys'), hnone] at hread
      cases hread
    · exact hfield.symm
  refine List.inj_on_of_nodup_map hs.paths_nodup hq hp ?_
  rw [← h, hfield, hsame]
  exact (splitPath_eq_some.mp hsplit').1

/-- **A schema in order stays so when a field is renamed.** -/
theorem lawful_renameAt (hs : s.Lawful) (hf : s.fields[pos]? = some f)
    (hok : FieldsOk (s.renameAt f.name to_ pos).fields) : (s.renameAt f.name to_ pos).Lawful := by
  have hwf := hs.fields.wf
  have hdot : '.' ∉ f.name.toList := hwf.no_dot f (List.mem_of_getElem? hf)
  refine ⟨hok, ?_, fun p hp => ?_, fun k hk => ?_⟩
  · have hnames : (s.renameAt f.name to_ pos).paths.map (·.name) =
        (s.paths.map (·.name)).map (renamedPath f.name to_) := by
      simp [Schema.renameAt]
    rw [hnames]
    refine hs.paths_nodup.map_on fun n hn n' hn' heq => ?_
    obtain ⟨p, hp, rfl⟩ := List.mem_map.mp hn
    obtain ⟨p', hp', rfl⟩ := List.mem_map.mp hn'
    exact renamedPath_inj hwf hf hok (hs.path p hp).dotted (hs.path p' hp').dotted
      (hs.path p hp).reads (hs.path p' hp').reads heq
  · obtain ⟨q, hq, rfl⟩ := List.mem_map.mp hp
    have hpath := hs.path q hq
    obtain ⟨⟨field, keys⟩, hsplit⟩ := Option.isSome_iff_exists.mp hpath.dotted
    obtain ⟨r, hr⟩ := Option.isSome_iff_exists.mp hpath.reads
    have hfield : '.' ∉ field.toList := (splitPath_eq_some.mp hsplit).2
    have hread := reading_renamedKey hwf hf hok hr
    rw [renamedKey_path hdot hsplit] at hread
    refine ⟨hpath.json, hpath.plain, hpath.on_path, ?_, ?_⟩
    · show (splitPath (renamedPath f.name to_ q.name)).isSome = true
      rw [renamedPath_split hdot hsplit,
        splitPath_path (no_dot_renamedField hf hok hfield)]
      rfl
    · show ((s.renameAt f.name to_ pos).reading (renamedPath f.name to_ q.name)).isSome = true
      rw [hread]
      rfl
  · obtain ⟨q, hq, rfl⟩ := List.mem_map.mp hk
    have hcomp := hs.composite q hq
    refine ⟨by simpa using hcomp.long, by simpa using hcomp.short, fun key hkey => ?_⟩
    obtain ⟨k, hk, rfl⟩ := List.mem_map.mp hkey
    obtain ⟨r, hr, hpart⟩ := hcomp.part k hk
    exact ⟨r, reading_renamedKey hwf hf hok hr, hpart⟩

end

/-! ## 10. Any change -/

section

variable {s : Schema} {change : Alter} {ch : FieldChange}

/-- **A change of the fields leaves a schema in order.** -/
theorem alter_lawful (hs : s.Lawful) (h : alterSchema s change = .ok ch) : ch.schema.Lawful := by
  cases change with
  | addField f =>
    obtain ⟨g, -, -, -, rfl, hok⟩ := alter_add hs h
    exact hs.within (within_addField hok) hok rfl fun _ hk => hk
  | dropField name =>
    obtain ⟨pos, f, hf, rfl, rfl⟩ := alter_drop h
    exact lawful_dropAt hs hf
  | renameField name to_ =>
    obtain ⟨pos, f, hf, rfl, rfl, hok⟩ := alter_rename hs h
    exact lawful_renameAt hs hf hok
  | ttl name ttl =>
    obtain ⟨pos, f, hf, rfl, -, hcheck, rfl⟩ := alter_ttl h
    exact lawful_indexAt hs hf hcheck rfl

/-- **What a name reads before and after a change of the fields is the same.** -/
theorem alter_agrees (hs : s.Lawful) (h : alterSchema s change = .ok ch) :
    s.Agrees ch.schema := by
  cases change with
  | addField f =>
    obtain ⟨g, -, -, -, rfl, hok⟩ := alter_add hs h
    exact (within_addField hok).agrees
  | dropField name =>
    obtain ⟨pos, f, hf, rfl, rfl⟩ := alter_drop h
    exact agrees_dropAt hs.fields.wf hf
  | renameField name to_ =>
    obtain ⟨pos, f, hf, rfl, rfl, hok⟩ := alter_rename hs h
    exact agrees_renameAt hs.fields.wf hf hok
  | ttl name ttl =>
    obtain ⟨pos, f, hf, rfl, -, hcheck, rfl⟩ := alter_ttl h
    exact (within_indexAt hs.fields.wf hf _).agrees

/-- **A schema that is made is in order.** -/
theorem lawful_create {name : String} {fields : List Field}
    (h : Schema.create name fields = .ok s) : s.Lawful := by
  have hok := (create_ok h).2
  unfold Schema.create at h
  obtain ⟨_, -, h⟩ := bind_ok h
  obtain ⟨_, -, h⟩ := bind_ok h
  cases h
  exact ⟨hok, List.nodup_nil, fun p hp => absurd hp List.not_mem_nil,
    fun k hk => absurd hk List.not_mem_nil⟩

end

/-! ## 11. An index declared -/

section

variable {s : Schema} {field : String} {kind : IndexKind} {ifNotExists : Bool}

/-- **Where an index may be made on a field**: one that has none, and may have this. -/
theorem checkIndex_field (hs : s.Lawful) {pos : Nat}
    (h : checkIndex s field kind ifNotExists = .ok (.field pos)) :
    ∃ f, s.fields[pos]? = some f ∧ f.name = field ∧ f.index = .none ∧
      kind.check f.name f.ty = .ok () := by
  unfold checkIndex at h
  obtain ⟨o, hpath, h⟩ := bind_ok h
  obtain ⟨⟨ty, index⟩, hfound, h⟩ := bind_ok h
  dsimp only at h hfound
  split at h
  · split at h <;> cases h
  · next hindex =>
    obtain ⟨_, hcheck, h⟩ := bind_ok h
    have hend : (if (splitPath field).isSome = true then pure IndexTarget.path
        else match s.fieldPos field with
          | some pos => pure (IndexTarget.field pos)
          | none => .error (.notFound ("field `" ++ field ++ "` in `" ++ s.name ++ "`"))) =
        (Except.ok (IndexTarget.field pos) : Result IndexTarget) := by
      split at h
      · obtain ⟨_, -, h⟩ := bind_ok h
        exact h
      · exact h
    split at hend
    · cases hend
    · next hsplit =>
      have hbare : splitPath field = none := by simpa using hsplit
      split at hend
      · next p hpos =>
        cases hend
        obtain ⟨hlt, hname, hfield⟩ := Schema.fieldPos_eq_some hpos
        have hnopath : s.path field = none := by
          refine List.find?_eq_none.mpr fun q hq heq => ?_
          have hdotted := (hs.path q hq).dotted
          rw [eq_of_beq heq, hbare] at hdotted
          cases hdotted
        have hnone : o = none := by
          have : s.pathOf field = .ok none := by simp [Schema.pathOf, hbare]
          rw [this] at hpath
          cases hpath
          rfl
        rw [hnopath, hnone, hfield] at hfound
        cases hfound
        refine ⟨_, by simp, hname, by simpa using hindex, ?_⟩
        rw [hname]
        exact hcheck
      · cases hend

/-- **Where an index may be made on a path**: one that reads into a json field and has none. -/
theorem checkIndex_path (hs : s.Lawful) (h : checkIndex s field kind ifNotExists = .ok .path) :
    (splitPath field).isSome = true ∧ (s.reading field).isSome = true ∧ s.path field = none ∧
      kind.onPath = true := by
  unfold checkIndex at h
  obtain ⟨o, hpath, h⟩ := bind_ok h
  obtain ⟨⟨ty, index⟩, hfound, h⟩ := bind_ok h
  dsimp only at h hfound
  split at h
  · split at h <;> cases h
  · next hindex =>
    obtain ⟨_, hcheck, h⟩ := bind_ok h
    have hdotted : (splitPath field).isSome = true := by
      by_contra hno
      split at h
      · obtain ⟨_, -, h⟩ := bind_ok h
        split at h <;> cases h
      · split at h <;> cases h
    obtain ⟨⟨fd, keys⟩, hsplit⟩ := Option.isSome_iff_exists.mp hdotted
    rcases pathOf_of_split (s := s) hsplit with ⟨pos, f, -, -, -, -, hp⟩ | ⟨-, e, he⟩
    · have hreads := pathOf_iff_reading.mp ⟨pos, keys, hp⟩
      have hnopath : s.path field = none := by
        cases hq : s.path field with
        | none => rfl
        | some p =>
          rw [hq] at hfound
          cases hfound
          -- a declared path has an index
          have hon := (hs.path p (List.mem_of_find?_eq_some hq)).on_path
          rw [not_not.mp hindex] at hon
          cases hon
      refine ⟨hdotted, hreads.2, hnopath, ?_⟩
      have hdot : '.' ∈ field.toList := by
        rw [(splitPath_eq_some.mp hsplit).1]
        simp
      by_contra hoff
      unfold IndexKind.check at hcheck
      rw [if_pos (by simpa using ⟨hdot, by simpa using hoff⟩)] at hcheck
      cases hcheck
    · rw [he] at hpath
      cases hpath

/-- A path is put somewhere among the others. -/
theorem addPath_paths (s : Schema) (p : Field) : ∃ before : Field → Bool,
    (s.addPath p).paths = s.paths.takeWhile before ++ p :: s.paths.dropWhile before :=
  ⟨_, rfl⟩

theorem mem_addPath {p q : Field} : q ∈ (s.addPath p).paths ↔ q = p ∨ q ∈ s.paths := by
  obtain ⟨before, hpaths⟩ := addPath_paths s p
  rw [hpaths]
  conv_rhs => rw [← List.takeWhile_append_dropWhile (p := before) (l := s.paths)]
  simp only [List.mem_append, List.mem_cons]
  tauto

/-- **A schema in order stays so when a path is declared.** -/
theorem lawful_addPath (hs : s.Lawful) {p : Field} (hp : PathOk s p) (hnone : s.path p.name = none) :
    (s.addPath p).Lawful where
  fields := hs.fields
  paths_nodup := by
    have hnew : p.name ∉ s.paths.map (·.name) := by
      intro hmem
      obtain ⟨q, hq, hname⟩ := List.mem_map.mp hmem
      exact List.find?_eq_none.mp hnone q hq (by simpa using hname)
    obtain ⟨before, hpaths⟩ := addPath_paths s p
    rw [hpaths, List.map_append, List.map_cons, List.nodup_middle, List.nodup_cons,
      ← List.map_append, List.takeWhile_append_dropWhile]
    exact ⟨hnew, hs.paths_nodup⟩
  path q hq := by
    rcases mem_addPath.mp hq with rfl | hq
    · exact hp.within fun _ _ h => h
    · exact (hs.path q hq).within fun _ _ h => h
  composite k hk := (hs.composite k hk).within fun _ _ h => h

theorem checkParts_ok {seen ks : List String} (h : checkComposite.checkParts s seen ks = .ok ()) :
    ∀ k ∈ ks, ∃ ty, s.partType k = .ok ty ∧ compositePart ty = true := by
  induction ks generalizing seen with
  | nil => exact fun k hk => absurd hk List.not_mem_nil
  | cons k ks ih =>
    unfold checkComposite.checkParts at h
    split at h
    · cases h
    · obtain ⟨ty, hty, h⟩ := bind_ok h
      split at h
      · cases h
      · next hpart =>
        intro k' hk'
        rcases List.mem_cons.mp hk' with rfl | hk'
        · exact ⟨ty, hty, by simpa using hpart⟩
        · exact ih h k' hk'

/-- **An index over several fields that is let through is one a schema may declare.** -/
theorem checkComposite_ok {k : Composite} {o : Option Composite}
    (h : checkComposite s k = .ok o) : CompositeOk s k := by
  unfold checkComposite at h
  split at h
  · cases h
  · next hlong =>
    split at h
    · cases h
    · next hshort =>
      obtain ⟨_, hparts, -⟩ := bind_ok h
      refine ⟨Nat.not_lt.mp hlong, Nat.not_lt.mp hshort, fun key hkey => ?_⟩
      obtain ⟨ty, hty, hpart⟩ := checkParts_ok hparts key.1 (List.mem_map_of_mem hkey)
      obtain ⟨r, hr, rfl⟩ := partType_iff_reading.mp hty
      exact ⟨r, hr, hpart⟩

end

end Fenec
