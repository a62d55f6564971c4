/-
# Collections, and the indexes kept beside their rows

A collection is its schema, its stored rows and the indexes the schema declares.  An index is
derived from the rows and built when it is first asked for (`Derived`); once built it is kept
with every write, by taking the old version of the row out (`unindexDoc`) and putting the new
one in (`indexScalar`), both leaving alone what they judge unchanged.

`Collection.Kept` is what that keeping is for: every built index holds what a rebuild from the
rows stored now would file.  It is stated through the four filings, and `write_kept` and
`erase_kept` are its two steps.

Text, vector and point indexes are no part of the model.
-/
import Fenec.Filed

namespace Fenec

open Lib Case

/-! ## 1. Stored rows -/

/-- `Store`: the payloads by id, and the id the next document given none takes. -/
structure Store where
  rows : OrdMap Payload
  nextId : Nat
deriving DecidableEq

namespace Store

/-- `Store::new`. -/
def new : Store := ⟨.empty, 1⟩

/-- `Store::append` of a put. -/
def put (st : Store) (id : DocId) (p : Payload) : Store :=
  ⟨st.rows.insert id p, if id ≥ st.nextId then id + 1 else st.nextId⟩

/-- `Store::append` of a delete. -/
def del (st : Store) (id : DocId) : Store := ⟨st.rows.erase id, st.nextId⟩

/-- `Store::read`. -/
def read (st : Store) (s : Schema) (id : DocId) : Option Document :=
  (st.rows.get id).map (readDoc s id)

/-- `Store::contains`. -/
def contains (st : Store) (id : DocId) : Bool := (st.rows.get id).isSome

end Store

/-! ## 2. Building an index from the rows -/

/-- `source`: the field a name reads, and the keys into it. -/
def source (s : Schema) (name : String) : Option (Nat × Option String) :=
  match s.pathOf name with
  | .ok (some (pos, keys)) => some (pos, some keys)
  | .ok none => (s.fieldPos name).map fun p => (p, none)
  | .error _ => none

/-- A field's value, or what stands at a path into it. -/
def under (keys : Option String) (v : Value) : Value :=
  match keys with
  | none => v
  | some keys => v.atPath keys

/-- `Store::read_field` and `Store::read_path` of a stored row. -/
def readAt (s : Schema) (p : Payload) (src : Nat × Option String) : Value :=
  under src.2 (p.at (s.place src.1))

section

variable (B : Build) (s : Schema) (st : Store)

/-- The values a source reads in the rows. -/
def columnOf (src : Nat × Option String) : OrdMap Value :=
  st.rows.map fun _ p => readAt s p src

/-- `hash_of`. -/
def hashOf (src : Nat × Option String) (fold : Option CaseFold) : HashIndex :=
  (columnOf s st src).entries.foldl (fun ix r => ix.add (ix.key B r.2) r.1) (.folding fold)

/-- `sorted_of`. -/
def sortedOf (f : Field) (src : Nat × Option String) : SortedIndex :=
  .build B f.ty f.textOrder ((columnOf s st src).entries.map fun r => (r.1, some r.2))

/-- `sparse_of`. -/
def sparseOf (pos : Nat) : SparseIndex :=
  (columnOf s st (pos, none)).entries.foldl (fun ix r => ix.put r.1 r.2) .new

/-- `composite_parts`. -/
def compositeParts (c : Composite) : Option (List Part) :=
  c.keys.mapM fun (k, desc) => match s.partType k with
    | .ok ty => some (Part.of ty desc (((s.field k).map Field.textOrder).getD .bytes))
    | .error _ => none

/-- The values of several sources in the rows. -/
def tuplesOf (srcs : List (Nat × Option String)) : OrdMap (List Value) :=
  st.rows.map fun _ p => srcs.map (readAt s p)

/-- `composite_of`. -/
def compositeOf (c : Composite) : Result CompositeIndex := do
  match compositeParts s c with
  | none => .error (.query
      "the index needs the `composite` feature, which this build was made without")
  | some parts =>
    let srcs ← c.keys.mapM fun k => s.sourceOrErr k.1
    pure (.build B parts ((tuplesOf s st srcs).entries.map fun r =>
      (r.1, CompositeIndex.rowKey B parts r.2)))

end

/-! ## 3. Collections -/

/-- `Derived`: an index built when it is first asked for. -/
inductive Derived (α : Type) where
  | unbuilt
  | built (ix : α)
  | refused (e : Error)
deriving DecidableEq

namespace Derived

variable {α : Type}

/-- A built index changed. -/
def modify (d : Derived α) (f : α → α) : Derived α :=
  match d with
  | .built ix => .built (f ix)
  | d => d

/-- `Derived::or_build`, as it is left. -/
def orBuild (d : Derived α) (build : Result α) : Derived α :=
  match d with
  | .unbuilt => match build with
    | .ok ix => .built ix
    | .error e => .refused e
  | d => d

end Derived

/-- Every built index of a list changed. -/
def eachBuilt {κ α : Type} (l : List (κ × Derived α)) (g : κ → α → α) : List (κ × Derived α) :=
  l.map fun kd => (kd.1, kd.2.modify (g kd.1))

/-- `Collection`. -/
structure Collection where
  id : Nat
  schema : Schema
  store : Store
  hashes : List (String × Derived HashIndex)
  sorted : List (String × Derived SortedIndex)
  sparse : List (String × Derived SparseIndex)
  composites : List (Composite × Derived CompositeIndex)
deriving DecidableEq

/-- `composite_key`, the values it is made of. -/
def compositeValues (c : Composite) (d : Document) : List Value :=
  (c.keys.take maxCompositeKeys).map fun k => (d.at k.1).getD .null

/-- Whether a row's old and new versions hold one value under a name. -/
def keptAs (old new : Option Document) (name : String) : Bool :=
  match old, new with
  | some o, some n => same (o.at name) (n.at name)
  | _, _ => false

namespace Collection

variable (B : Build)

/-- **`Collection::index_scalar`**: puts a row into the built indexes, past what `old` had
already. -/
def indexScalar (c : Collection) (doc : Document) (old : Option Document) : Collection :=
  let kept := keptAs old (some doc)
  { c with
    hashes := eachBuilt c.hashes fun n ix =>
      match doc.at n with
      | some v => if kept n then ix else ix.add (ix.key B v) doc.id
      | none => ix
    sorted := eachBuilt c.sorted fun n ix =>
      if kept n then ix else ix.insert B doc.id (doc.at n)
    sparse := eachBuilt c.sparse fun n ix =>
      match doc.get n with
      | some v => if kept n then ix else ix.put doc.id v
      | none => ix
    composites := eachBuilt c.composites fun k ix =>
      if k.keys.all fun key => kept key.1 then ix
      else ix.insert B doc.id (CompositeIndex.rowKey B ix.parts (compositeValues k doc)) }

/-- **`Collection::unindex_doc`**: takes a row out of the built indexes, but for what `new` will
have again. -/
def unindexDoc (c : Collection) (doc : Document) (new : Option Document) : Collection :=
  let kept := keptAs (some doc) new
  { c with
    hashes := eachBuilt c.hashes fun n ix =>
      match doc.at n with
      | some v => if kept n then ix else ix.remove (ix.key B v) doc.id
      | none => ix
    sorted := eachBuilt c.sorted fun n ix =>
      if kept n then ix else ix.remove B doc.id (doc.at n)
    sparse := eachBuilt c.sparse fun n ix =>
      match doc.get n with
      | some v => if kept n then ix else ix.take doc.id v
      | none => ix
    composites := eachBuilt c.composites fun k ix =>
      if k.keys.all fun key => kept key.1 then ix
      else ix.remove B doc.id (CompositeIndex.rowKey B ix.parts (compositeValues k doc)) }

/-- A row filed anew: its old version out of the indexes, the store as it stands then, the new
version into the indexes. -/
def refile (c : Collection) (doc : Document) (old : Option Document) (st : Store) : Collection :=
  let c := match old with
    | some o => c.unindexDoc B o (some doc)
    | none => c
  { c with store := st }.indexScalar B doc old

/-- A row written over the version that was there. -/
def write (c : Collection) (doc : Document) (old : Option Document) : Collection :=
  c.refile B doc old (c.store.put doc.id (encodeDoc c.schema doc))

/-- A row erased. -/
def eraseRow (c : Collection) (id : DocId) : Collection :=
  let c := match c.store.read c.schema id with
    | some doc => c.unindexDoc B doc none
    | none => c
  { c with store := c.store.del id }

/-- The index of a name, built from the rows if it was not. -/
def builtHash (c : Collection) (n : String) (d : Derived HashIndex) : Derived HashIndex :=
  match source c.schema n with
  | some src => d.orBuild (.ok
      (hashOf B c.schema c.store src ((c.schema.indexed n).bind Field.caseFold)))
  | none => d

/-- `Collection::hash`, as it leaves the collection. -/
def buildHash (c : Collection) (name : String) : Collection :=
  { c with hashes := c.hashes.map fun nd =>
      (nd.1, if nd.1 = name then c.builtHash B nd.1 nd.2 else nd.2) }

/-- `Collection::sorted_index`, as it leaves the collection. -/
def buildSorted (c : Collection) (name : String) : Collection :=
  { c with sorted := c.sorted.map fun (n, d) =>
      (n, if n = name then
        match source c.schema n, c.schema.indexed n with
        | some src, some f => d.orBuild (.ok (sortedOf B c.schema c.store f src))
        | _, _ => d
      else d) }

/-- `Collection::sparse_index`, as it leaves the collection. -/
def buildSparse (c : Collection) (name : String) : Collection :=
  { c with sparse := c.sparse.map fun (n, d) =>
      (n, if n = name then
        match c.schema.fieldPos n with
        | some pos => d.orBuild (.ok (sparseOf c.schema c.store pos))
        | none => d
      else d) }

/-- `Collection::composite`, as it leaves the collection. -/
def buildComposite (c : Collection) (i : Nat) : Collection :=
  { c with composites := c.composites.modify i fun (k, d) =>
      (k, d.orBuild (compositeOf B c.schema c.store k)) }

end Collection

/-! ## 4. What a name reads -/

theorem pathOf_eq_some {s : Schema} {n : String} {pos : Nat} {keys : String}
    (h : s.pathOf n = .ok (some (pos, keys))) :
    ∃ f, s.fields[pos]? = some f ∧ splitPath n = some (f.name, keys) ∧ f.ty = .json := by
  unfold Schema.pathOf at h
  split at h
  · cases h
  · next field ks hsplit =>
    split at h
    · cases h
    · next p hp =>
      obtain ⟨hlt, hname, -⟩ := Schema.fieldPos_eq_some hp
      dsimp only at h
      split at h
      · cases h
      · next hty =>
        split at h
        · cases h
        · split at h
          · cases h
          · cases h
            refine ⟨s.fields.get ⟨pos, hlt⟩, by simp, by rw [hname]; exact hsplit, ?_⟩
            simpa [hlt] using hty

theorem pathOf_eq_none {s : Schema} {n : String} (h : s.pathOf n = .ok none) :
    splitPath n = none := by
  unfold Schema.pathOf at h
  split at h
  · next hs => exact hs
  · split at h
    · cases h
    · dsimp only at h
      split at h
      · cases h
      · split at h
        · cases h
        · split at h <;> cases h

/-- **What a name reads**: a field, or a path into a json field. -/
theorem source_cases {s : Schema} {n : String} {pos : Nat} {keys : Option String}
    (h : source s n = some (pos, keys)) :
    ∃ f, s.fields[pos]? = some f ∧
      (keys = none ∧ splitPath n = none ∧ f.name = n ∨
        ∃ ks, keys = some ks ∧ splitPath n = some (f.name, ks) ∧ f.ty = .json) := by
  unfold source at h
  split at h
  · next p ks hpath =>
    cases h
    obtain ⟨f, hf, hsplit, hty⟩ := pathOf_eq_some hpath
    exact ⟨f, hf, .inr ⟨ks, rfl, hsplit, hty⟩⟩
  · next hpath =>
    obtain ⟨p, hp, heq⟩ := Option.map_eq_some_iff.mp h
    cases heq
    obtain ⟨hlt, hname, -⟩ := Schema.fieldPos_eq_some hp
    exact ⟨s.fields.get ⟨pos, hlt⟩, by simp, .inl ⟨rfl, pathOf_eq_none hpath, hname⟩⟩
  · cases h

theorem at_of_source {s : Schema} {n : String} {pos : Nat} {keys : Option String} {f : Field}
    (h : source s n = some (pos, keys)) (hf : s.fields[pos]? = some f) (d : Document) :
    d.at n = (d.get f.name).map (under keys) := by
  obtain ⟨g, hg, hcases⟩ := source_cases h
  rw [hf] at hg
  cases hg
  rcases hcases with ⟨rfl, hsplit, hname⟩ | ⟨ks, rfl, hsplit, -⟩
  · simp only [Document.at, hsplit, hname]
    cases d.get n <;> rfl
  · simp only [Document.at, hsplit]
    rfl

/-- A stored row read as a document holds at a name what the name reads. -/
theorem at_readDoc {s : Schema} (hs : s.WF) {n : String} {src : Nat × Option String}
    (h : source s n = some src) (id : DocId) (p : Payload) :
    (readDoc s id p).at n = some (readAt s p src) := by
  obtain ⟨pos, keys⟩ := src
  obtain ⟨f, hf, -⟩ := source_cases h
  rw [at_of_source h hf, Document.get_readDoc hs id p hf]
  rfl

/-- The record keeps what a document holds in a field as it is. -/
def Document.Exact (d : Document) (f : Field) : Prop :=
  Codec.kept f.ty ((d.get f.name).getD .null) = (d.get f.name).getD .null

/-- Where the record keeps a field as it is, a name reads back what the document had. -/
theorem at_eq_readAt {s : Schema} {d : Document} (hd : d.Fits s) {n : String}
    {src : Nat × Option String} {f : Field} (h : source s n = some src)
    (hf : s.fields[src.1]? = some f) (hx : d.Exact f) :
    d.at n = some (readAt s (encodeDoc s d) src) := by
  obtain ⟨pos, keys⟩ := src
  obtain ⟨v, hv, -⟩ := hd f (List.mem_of_getElem? hf)
  have hkept : Codec.kept f.ty v = v := by
    simpa [Document.Exact, hv] using hx
  rw [at_of_source h hf, hv, readAt, encodeDoc_at s d hf, hv]
  simp [hkept]

theorem exact_of_ne {d : Document} {f : Field} (h : ∀ n, f.ty ≠ .vector n .f16) : d.Exact f :=
  Codec.kept_of_ne h

/-- What a stored row reads under a name of a type is of the type. -/
theorem holds_readAt {s : Schema} (hs : s.WF) {id : DocId} {p : Payload}
    (hfits : (readDoc s id p).Fits s) {pos : Nat} {f : Field} (hf : s.fields[pos]? = some f) :
    f.ty.holds (p.at (s.place pos)) = true :=
  hfits.holds f (List.mem_of_getElem? hf) _ (Document.get_readDoc hs id p hf)

/-! ## 5. Declared names -/

theorem find_eq_of_mem {l : List Field} (h : (l.map (·.name)).Nodup) {f : Field} (hf : f ∈ l) :
    (l.find? fun g => g.name == f.name) = some f := by
  induction l with
  | nil => cases hf
  | cons g l ih =>
    rw [List.map_cons, List.nodup_cons] at h
    rcases List.mem_cons.mp hf with rfl | hf
    · simp
    · have hne : g.name ≠ f.name := fun heq => h.1 (List.mem_map.mpr ⟨f, hf, heq.symm⟩)
      rw [List.find?_cons_of_neg (by simpa using hne)]
      exact ih h.2 hf

/-- A field stands where its name says. -/
theorem fieldPos_of_getElem {s : Schema} (hs : s.WF) {pos : Nat} {f : Field}
    (hf : s.fields[pos]? = some f) : s.fieldPos f.name = some pos := by
  obtain ⟨hlt, rfl⟩ := List.getElem?_eq_some_iff.mp hf
  refine List.findIdx?_eq_some_iff_getElem.mpr ⟨hlt, by simp, fun j hj heq => ?_⟩
  have hname : s.fields[j].name = s.fields[pos].name := by simpa using heq
  have hfield := List.inj_on_of_nodup_map hs.nodup (List.getElem_mem _) (List.getElem_mem _) hname
  exact absurd ((List.Nodup.getElem_inj_iff (.of_map _ hs.nodup)).mp hfield) (Nat.ne_of_lt hj)

/-- A declared field, or a declared path, by what its name reads. -/
structure ReadsAt (s : Schema) (f : Field) (src : Nat × Option String) : Prop where
  indexed : s.indexed f.name = some f
  source : source s f.name = some src
  ty : src.2 = none ∧ s.fields[src.1]? = some f ∨ src.2.isSome ∧ f.ty = .json

theorem reads_field {s : Schema} (hs : s.WF) {f : Field} (hf : f ∈ s.fields) :
    ∃ pos, s.fields[pos]? = some f ∧ ReadsAt s f (pos, none) := by
  have hsplit : splitPath f.name = none := splitPath_eq_none (hs.no_dot f hf)
  have hfind : s.field f.name = some f := find_eq_of_mem hs.nodup hf
  have hpath : s.pathOf f.name = .ok none := by simp [Schema.pathOf, hsplit]
  cases hp : s.fieldPos f.name with
  | none => rw [Schema.fieldPos_eq_none hp] at hfind; cases hfind
  | some pos =>
    obtain ⟨hlt, -, hfield⟩ := Schema.fieldPos_eq_some hp
    have hget : s.fields[pos]? = some f := by
      rw [hfind] at hfield
      rw [List.getElem?_eq_getElem hlt]
      exact hfield.symm
    refine ⟨pos, hget, ?_, ?_, .inl ⟨rfl, hget⟩⟩
    · simp [Schema.indexed, hsplit, hfind]
    · simp [Fenec.source, hpath, hp]

theorem reads_path {s : Schema} (hs : s.Checked) {f : Field} (hf : f ∈ s.paths) :
    ∃ src, ReadsAt s f src := by
  obtain ⟨pos, keys, hpath⟩ := hs.paths_read f hf
  obtain ⟨g, -, hsplit, -⟩ := pathOf_eq_some hpath
  refine ⟨(pos, some keys), ?_, by simp [Fenec.source, hpath], .inr ⟨rfl, hs.paths_json f hf⟩⟩
  simp [Schema.indexed, hsplit, Schema.path, find_eq_of_mem hs.paths_nodup hf]

theorem reads_declared {s : Schema} (hs : s.Checked) {f : Field}
    (hf : f ∈ s.fields ++ s.paths) : ∃ src, ReadsAt s f src := by
  rcases List.mem_append.mp hf with hf | hf
  · obtain ⟨pos, -, h⟩ := reads_field hs.toWF hf
    exact ⟨_, h⟩
  · exact reads_path hs hf

namespace ReadsAt

variable {s : Schema} {f : Field} {src : Nat × Option String}

theorem holds (hs : s.WF) (h : ReadsAt s f src) {id : DocId} {p : Payload}
    (hfits : (readDoc s id p).Fits s) : f.ty.holds (readAt s p src) = true := by
  rcases h.ty with ⟨hnone, hf⟩ | ⟨-, hty⟩
  · rw [readAt, hnone]
    exact holds_readAt hs hfits hf
  · rw [hty]
    generalize readAt s p src = v
    cases v <;> rfl

end ReadsAt

end Fenec
