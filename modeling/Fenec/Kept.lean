/-
# Every built index is the one a rebuild would make

`Collection.Kept` says it of a collection: each built index holds, in the sense of its filing,
what the rows stored now read under its name.  A rebuild holds the same (`hashOf_holds` and its
three siblings), and what an index holds of given rows is all there is to it, so a kept index is
the rebuilt one (`Kept.rebuilt`).

The step is `write_kept`.  `unindexDoc` and `indexScalar` judge "unchanged" separately but by the
same test, so together they do one `Filing.rewrite`, and the test is sound for each kind of index
(`Filed.lean`).  It needs that a document is filed under what its record keeps.  That fails for
one type: the record halves a `vector<N, f16>`, and the index of a hash on one is given the
vector as it came.  `Document.Settled` is the condition that the halving changed nothing.
-/
import Fenec.Collection

namespace Fenec

open Lib Case

namespace Collection

/-! ## 1. What is kept -/

/-- **The index lists are those the schema declares.** -/
structure Declared (c : Collection) : Prop where
  hashes : ∀ n, n ∈ c.hashes.map (·.1) ↔ ∃ f ∈ c.schema.fields ++ c.schema.paths,
    f.name = n ∧ ∃ u, f.index = .hash u
  hashes_nodup : (c.hashes.map (·.1)).Nodup
  sorted : ∀ n, n ∈ c.sorted.map (·.1) ↔ ∃ f ∈ c.schema.fields ++ c.schema.paths,
    f.name = n ∧ orderable f.ty = true ∧ ∃ ttl, f.index = .sorted ttl
  sorted_nodup : (c.sorted.map (·.1)).Nodup
  sparse : ∀ n, n ∈ c.sparse.map (·.1) ↔ ∃ f ∈ c.schema.fields,
    f.name = n ∧ (∃ d, f.ty = .sparse d) ∧ f.index = .inverted
  sparse_nodup : (c.sparse.map (·.1)).Nodup
  composites : c.composites.map (·.1) = c.schema.composites

theorem Declared.composite {c : Collection} (h : c.Declared) {k : Composite}
    {d : Derived CompositeIndex} (hk : (k, d) ∈ c.composites) : k ∈ c.schema.composites := by
  rw [← h.composites]
  exact List.mem_map_of_mem hk

/-- **A collection as the engine keeps one**: a checked schema, the indexes it declares, and rows
that are documents of it. -/
structure Sound (c : Collection) : Prop where
  checked : c.schema.Checked
  declared : c.Declared
  fits : ∀ id p, c.store.rows.get id = some p → (readDoc c.schema id p).Fits c.schema
  below : ∀ id p, c.store.rows.get id = some p → id < c.store.nextId
  short : ∀ id p, c.store.rows.get id = some p → p.length ≤ c.schema.place c.schema.fields.length

/-- The type a composite's key reads. -/
def typeAt (s : Schema) (k : String) : DataType :=
  match s.partType k with
  | .ok ty => ty
  | .error _ => .json

/-- The parts of a composite index. -/
def partsAt (s : Schema) (k : Composite) : List Part :=
  k.keys.map fun k => Part.of (typeAt s k.1) k.2 (((s.field k.1).map Field.textOrder).getD .bytes)

/-- What a composite's keys read. -/
def sourcesAt (s : Schema) (k : Composite) : List (Nat × Option String) :=
  k.keys.map fun k => (source s k.1).getD (0, none)

variable (B : Build)

/-- **Every built index holds what the rows read under its name.** -/
structure Kept (c : Collection) : Prop where
  hashes : ∀ n ix, (n, .built ix) ∈ c.hashes → ∀ f src, ReadsAt c.schema f src → f.name = n →
    (hashFiling B f.caseFold).Holds ix (columnOf c.schema c.store src).entries
  sorted : ∀ n ix, (n, .built ix) ∈ c.sorted → ∀ f src, ReadsAt c.schema f src → f.name = n →
    (sortedFiling B (.of f.ty f.textOrder)).Holds ix
      ((columnOf c.schema c.store src).map fun _ v => some v).entries
  sparse : ∀ n ix, (n, .built ix) ∈ c.sparse → ∀ f pos, c.schema.fields[pos]? = some f →
    f.name = n → sparseFiling.Holds ix (columnOf c.schema c.store (pos, none)).entries
  composites : ∀ k ix, (k, .built ix) ∈ c.composites →
    (compositeFiling B (partsAt c.schema k)).Holds ix
      (tuplesOf c.schema c.store (sourcesAt c.schema k)).entries

/-! ## 2. Columns of a changed store -/

variable {B} {s : Schema} {st : Store}

theorem columnOf_insert {st' : Store} {id : DocId} {p : Payload}
    (h : st'.rows = st.rows.insert id p) (src : Nat × Option String) :
    columnOf s st' src = (columnOf s st src).insert id (readAt s p src) := by
  apply OrdMap.ext_get
  intro k
  simp only [columnOf, h, OrdMap.get_map, OrdMap.get_insert]
  split <;> rfl

theorem columnOf_del (id : DocId) (src : Nat × Option String) :
    columnOf s (st.del id) src = (columnOf s st src).erase id := by
  apply OrdMap.ext_get
  intro k
  simp only [columnOf, Store.del, OrdMap.get_map, OrdMap.get_erase]
  split <;> rfl

theorem tuplesOf_insert {st' : Store} {id : DocId} {p : Payload}
    (h : st'.rows = st.rows.insert id p) (srcs : List (Nat × Option String)) :
    tuplesOf s st' srcs = (tuplesOf s st srcs).insert id (srcs.map (readAt s p)) := by
  apply OrdMap.ext_get
  intro k
  simp only [tuplesOf, h, OrdMap.get_map, OrdMap.get_insert]
  split <;> rfl

theorem tuplesOf_del (id : DocId) (srcs : List (Nat × Option String)) :
    tuplesOf s (st.del id) srcs = (tuplesOf s st srcs).erase id := by
  apply OrdMap.ext_get
  intro k
  simp only [tuplesOf, Store.del, OrdMap.get_map, OrdMap.get_erase]
  split <;> rfl

theorem map_insert {α β : Type} (f : α → β) (m : OrdMap α) (k : Nat) (v : α) :
    (m.insert k v).map (fun _ => f) = (m.map fun _ => f).insert k (f v) := by
  apply OrdMap.ext_get
  intro j
  simp only [OrdMap.get_map, OrdMap.get_insert]
  split <;> rfl

theorem map_erase {α β : Type} (f : α → β) (m : OrdMap α) (k : Nat) :
    (m.erase k).map (fun _ => f) = (m.map fun _ => f).erase k := by
  apply OrdMap.ext_get
  intro j
  simp only [OrdMap.get_map, OrdMap.get_erase]
  split <;> rfl

/-! ## 3. Indexes of a written row -/

theorem mem_eachBuilt {κ α : Type} {l : List (κ × Derived α)} {g : κ → α → α} {k : κ} {ix : α} :
    (k, .built ix) ∈ eachBuilt l g ↔
      ∃ ix₀, (k, .built ix₀) ∈ l ∧ ix = g k ix₀ := by
  constructor
  · intro h
    obtain ⟨⟨k', d⟩, hmem, heq⟩ := List.mem_map.mp h
    cases d with
    | built ix₀ =>
      simp only [Derived.modify, Prod.mk.injEq, Derived.built.injEq] at heq
      obtain ⟨rfl, rfl⟩ := heq
      exact ⟨ix₀, hmem, rfl⟩
    | unbuilt => simp [Derived.modify] at heq
    | refused e => simp [Derived.modify] at heq
  · rintro ⟨ix₀, hmem, rfl⟩
    exact List.mem_map.mpr ⟨(k, .built ix₀), hmem, rfl⟩

/-- What writing `doc` over `old` does to a built hash index. -/
def hashStep (B : Build) (doc : Document) (old : Option Document) (n : String)
    (ix : HashIndex) : HashIndex :=
  let ix := match old with
    | some o => match o.at n with
      | some v => if keptAs old (some doc) n then ix else ix.remove (ix.key B v) o.id
      | none => ix
    | none => ix
  match doc.at n with
  | some v => if keptAs old (some doc) n then ix else ix.add (ix.key B v) doc.id
  | none => ix

/-- What writing `doc` over `old` does to a built ordered index. -/
def sortedStep (B : Build) (doc : Document) (old : Option Document) (n : String)
    (ix : SortedIndex) : SortedIndex :=
  let ix := match old with
    | some o => if keptAs old (some doc) n then ix else ix.remove B o.id (o.at n)
    | none => ix
  if keptAs old (some doc) n then ix else ix.insert B doc.id (doc.at n)

/-- What writing `doc` over `old` does to a built inverted index. -/
def sparseStep (doc : Document) (old : Option Document) (n : String) (ix : SparseIndex) :
    SparseIndex :=
  let ix := match old with
    | some o => match o.get n with
      | some v => if keptAs old (some doc) n then ix else ix.take o.id v
      | none => ix
    | none => ix
  match doc.get n with
  | some v => if keptAs old (some doc) n then ix else ix.put doc.id v
  | none => ix

/-- What writing `doc` over `old` does to a built composite index. -/
def compositeStep (B : Build) (doc : Document) (old : Option Document) (k : Composite)
    (ix : CompositeIndex) : CompositeIndex :=
  let ix := match old with
    | some o => if k.keys.all fun key => keptAs old (some doc) key.1 then ix
      else ix.remove B o.id (CompositeIndex.rowKey B ix.parts (compositeValues k o))
    | none => ix
  if k.keys.all fun key => keptAs old (some doc) key.1 then ix
  else ix.insert B doc.id (CompositeIndex.rowKey B ix.parts (compositeValues k doc))

section

variable {c : Collection} {doc : Document} {old : Option Document}

theorem mem_refile_hashes {n : String} {ix : HashIndex}
    (h : (n, .built ix) ∈ (c.refile B doc old st).hashes) :
    ∃ ix₀, (n, .built ix₀) ∈ c.hashes ∧ ix = hashStep B doc old n ix₀ := by
  cases old with
  | none =>
    simp only [refile, indexScalar] at h
    obtain ⟨ix₀, h₀, rfl⟩ := mem_eachBuilt.mp h
    exact ⟨ix₀, h₀, rfl⟩
  | some o =>
    simp only [refile, indexScalar, unindexDoc] at h
    obtain ⟨ix₁, h₁, rfl⟩ := mem_eachBuilt.mp h
    obtain ⟨ix₀, h₀, rfl⟩ := mem_eachBuilt.mp h₁
    exact ⟨ix₀, h₀, rfl⟩

theorem mem_refile_sorted {n : String} {ix : SortedIndex}
    (h : (n, .built ix) ∈ (c.refile B doc old st).sorted) :
    ∃ ix₀, (n, .built ix₀) ∈ c.sorted ∧ ix = sortedStep B doc old n ix₀ := by
  cases old with
  | none =>
    simp only [refile, indexScalar] at h
    obtain ⟨ix₀, h₀, rfl⟩ := mem_eachBuilt.mp h
    exact ⟨ix₀, h₀, rfl⟩
  | some o =>
    simp only [refile, indexScalar, unindexDoc] at h
    obtain ⟨ix₁, h₁, rfl⟩ := mem_eachBuilt.mp h
    obtain ⟨ix₀, h₀, rfl⟩ := mem_eachBuilt.mp h₁
    exact ⟨ix₀, h₀, rfl⟩

theorem mem_refile_sparse {n : String} {ix : SparseIndex}
    (h : (n, .built ix) ∈ (c.refile B doc old st).sparse) :
    ∃ ix₀, (n, .built ix₀) ∈ c.sparse ∧ ix = sparseStep doc old n ix₀ := by
  cases old with
  | none =>
    simp only [refile, indexScalar] at h
    obtain ⟨ix₀, h₀, rfl⟩ := mem_eachBuilt.mp h
    exact ⟨ix₀, h₀, rfl⟩
  | some o =>
    simp only [refile, indexScalar, unindexDoc] at h
    obtain ⟨ix₁, h₁, rfl⟩ := mem_eachBuilt.mp h
    obtain ⟨ix₀, h₀, rfl⟩ := mem_eachBuilt.mp h₁
    exact ⟨ix₀, h₀, rfl⟩

theorem mem_refile_composites {k : Composite} {ix : CompositeIndex}
    (h : (k, .built ix) ∈ (c.refile B doc old st).composites) :
    ∃ ix₀, (k, .built ix₀) ∈ c.composites ∧ ix = compositeStep B doc old k ix₀ := by
  cases old with
  | none =>
    simp only [refile, indexScalar] at h
    obtain ⟨ix₀, h₀, rfl⟩ := mem_eachBuilt.mp h
    exact ⟨ix₀, h₀, rfl⟩
  | some o =>
    simp only [refile, indexScalar, unindexDoc] at h
    obtain ⟨ix₁, h₁, rfl⟩ := mem_eachBuilt.mp h
    obtain ⟨ix₀, h₀, rfl⟩ := mem_eachBuilt.mp h₁
    exact ⟨ix₀, h₀, rfl⟩

@[simp] theorem refile_schema : (c.refile B doc old st).schema = c.schema := by
  cases old <;> rfl

@[simp] theorem refile_store : (c.refile B doc old st).store = st := by
  cases old <;> rfl

@[simp] theorem write_schema : (c.write B doc old).schema = c.schema := refile_schema

@[simp] theorem write_store :
    (c.write B doc old).store = c.store.put doc.id (encodeDoc c.schema doc) := refile_store

end

/-- **The records keep what the document is filed under**: no vector given to a hashed
`vector<N, f16>` is changed by halving it. -/
def Settled (s : Schema) (doc : Document) : Prop :=
  ∀ f ∈ s.fields, (∃ u, f.index = .hash u) → doc.Exact f

/-- **A payload is the record of a document**: it is a row of the schema, and reads under every
name as the document does, but for vectors that are halved and no hash is on. -/
structure Recorded (s : Schema) (doc : Document) (p : Payload) : Prop where
  fits : (readDoc s doc.id p).Fits s
  at_eq : ∀ n src g, source s n = some src → s.fields[src.1]? = some g →
    (∀ d, g.ty ≠ .vector d .f16) ∨ (∃ u, g.index = .hash u) → doc.at n = some (readAt s p src)

/-- A stored row is the record of the document it reads as. -/
theorem recorded_readDoc {s : Schema} (hs : s.WF) {id : DocId} {p : Payload}
    (h : (readDoc s id p).Fits s) : Recorded s (readDoc s id p) p :=
  ⟨h, fun _ _ _ hsrc _ _ => at_readDoc hs hsrc id p⟩

/-- What a name whose type is kept as it is reads. -/
theorem Recorded.reads {s : Schema} {doc : Document} {p : Payload} (h : Recorded s doc p)
    {f : Field} {src : Nat × Option String} (hf : ReadsAt s f src)
    (hx : f ∈ s.fields → (∀ d, f.ty ≠ .vector d .f16) ∨ ∃ u, f.index = .hash u) :
    doc.at f.name = some (readAt s p src) := by
  obtain ⟨pos, keys⟩ := src
  obtain ⟨g, hg, hcases⟩ := source_cases hf.source
  refine h.at_eq f.name _ g hf.source hg ?_
  rcases hf.ty with ⟨-, hfield⟩ | ⟨hsome, -⟩
  · rw [hg] at hfield
    cases hfield
    exact hx (List.mem_of_getElem? hg)
  · rcases hcases with ⟨rfl, -⟩ | ⟨ks, -, -, hty⟩
    · cases hsome
    · exact .inl (by simp [hty])

section

variable {c : Collection} {doc : Document} {old : Option Document}

theorem same_iff {u v : Value} : same (some u) (some v) = true ↔ hashKey u = hashKey v := by
  simp [same]

/-- A field is what its name says it is. -/
theorem reads_unique {s : Schema} {f g : Field} {src src' : Nat × Option String}
    (hf : ReadsAt s f src) (hg : ReadsAt s g src') (h : f.name = g.name) : f = g ∧ src = src' := by
  have hi := hf.indexed
  have hs := hf.source
  rw [h, hg.indexed] at hi
  rw [h, hg.source] at hs
  cases hi
  cases hs
  exact ⟨rfl, rfl⟩

theorem hashStep_holds (hc : c.Sound) {n : String} {ix : HashIndex} {f : Field}
    {src : Nat × Option String} (hf : ReadsAt c.schema f src) (hn : f.name = n)
    (hst : st.rows = c.store.rows.insert doc.id p) (hr : Recorded c.schema doc p)
    (hx : f ∈ c.schema.fields → (∀ d, f.ty ≠ .vector d .f16) ∨ ∃ u, f.index = .hash u)
    (hold : old = c.store.read c.schema doc.id)
    (h : (hashFiling B f.caseFold).Holds ix (columnOf c.schema c.store src).entries) :
    (hashFiling B f.caseFold).Holds (hashStep B doc old n ix)
      (columnOf c.schema st src).entries := by
  have hat : doc.at n = some (readAt c.schema p src) := by
    rw [← hn]
    exact hr.reads hf hx
  have hsrc : source c.schema n = some src := by
    rw [← hn]
    exact hf.source
  rw [columnOf_insert hst]
  have hstep : hashStep B doc old n ix = (hashFiling B f.caseFold).rewrite ix doc.id
      ((columnOf c.schema c.store src).get doc.id) (keptAs old (some doc) n)
      (readAt c.schema p src) := by
    subst hold
    unfold hashStep Filing.rewrite Store.read
    simp only [hat, columnOf, OrdMap.get_map]
    cases hrow : c.store.rows.get doc.id with
    | none => rfl
    | some q =>
      simp only [Option.map_some, at_readDoc hc.checked.toWF hsrc]
      rfl
  rw [hstep]
  refine Filing.holds_rewrite h fun hkept => ?_
  subst hold
  unfold Store.read at hkept
  cases hrow : c.store.rows.get doc.id with
  | none => simp [hrow, keptAs] at hkept
  | some q =>
    simp only [hrow, Option.map_some, keptAs, hat, at_readDoc hc.checked.toWF hsrc,
      same_iff] at hkept
    refine ⟨readAt c.schema q src, by simp [columnOf, hrow], ?_⟩
    exact hashFiling_alike B _ hkept

theorem sortedStep_holds (hc : c.Sound) {n : String} {ix : SortedIndex} {f : Field}
    {src : Nat × Option String} (hf : ReadsAt c.schema f src) (hn : f.name = n)
    (hst : st.rows = c.store.rows.insert doc.id p) (hr : Recorded c.schema doc p)
    (hty : orderable f.ty = true)
    (hold : old = c.store.read c.schema doc.id)
    (h : (sortedFiling B (.of f.ty f.textOrder)).Holds ix
      ((columnOf c.schema c.store src).map fun _ v => some v).entries) :
    (sortedFiling B (.of f.ty f.textOrder)).Holds (sortedStep B doc old n ix)
      ((columnOf c.schema st src).map
        fun _ v => some v).entries := by
  have hx : f ∈ c.schema.fields → (∀ d, f.ty ≠ .vector d .f16) ∨ ∃ u, f.index = .hash u :=
    fun _ => .inl fun d hd => by
      rw [hd] at hty
      cases hty
  have hat : doc.at n = some (readAt c.schema p src) := by
    rw [← hn]
    exact hr.reads hf hx
  have hsrc : source c.schema n = some src := by
    rw [← hn]
    exact hf.source
  rw [columnOf_insert hst, map_insert]
  have hstep : sortedStep B doc old n ix = (sortedFiling B (.of f.ty f.textOrder)).rewrite ix
      doc.id (((columnOf c.schema c.store src).map fun _ v => some v).get doc.id)
      (keptAs old (some doc) n) (some (readAt c.schema p src)) := by
    subst hold
    unfold sortedStep Filing.rewrite Store.read
    simp only [hat, columnOf, OrdMap.get_map]
    cases hrow : c.store.rows.get doc.id with
    | none => rfl
    | some q =>
      simp only [Option.map_some, at_readDoc hc.checked.toWF hsrc]
      rfl
  rw [hstep]
  refine Filing.holds_rewrite h fun hkept => ?_
  subst hold
  unfold Store.read at hkept
  cases hrow : c.store.rows.get doc.id with
  | none => simp [hrow, keptAs] at hkept
  | some q =>
    simp only [hrow, Option.map_some, keptAs, hat, at_readDoc hc.checked.toWF hsrc,
      same_iff] at hkept
    refine ⟨some (readAt c.schema q src), by simp [columnOf, hrow], ?_⟩
    exact sortedFiling_alike B (hf.holds hc.checked.toWF (hc.fits _ _ hrow))
      (hf.holds hc.checked.toWF hr.fits) hkept

theorem sparseStep_holds (hc : c.Sound) {n : String} {ix : SparseIndex} {f : Field} {pos : Nat}
    (hpos : c.schema.fields[pos]? = some f) (hn : f.name = n)
    (hst : st.rows = c.store.rows.insert doc.id p) (hr : Recorded c.schema doc p)
    (hty : ∃ d, f.ty = .sparse d) (hold : old = c.store.read c.schema doc.id)
    (h : sparseFiling.Holds ix (columnOf c.schema c.store (pos, none)).entries) :
    sparseFiling.Holds (sparseStep doc old n ix)
      (columnOf c.schema st (pos, none)).entries := by
  have hmem : f ∈ c.schema.fields := List.mem_of_getElem? hpos
  have hget : ∀ d : Document, d.get n = d.at n := fun d => by
    rw [← hn, Document.at, splitPath_eq_none (hc.checked.no_dot f hmem)]
  obtain ⟨pos', hpos', hf⟩ := reads_field hc.checked.toWF hmem
  have hsame : pos' = pos := Option.some.inj
    ((fieldPos_of_getElem hc.checked.toWF hpos').symm.trans (fieldPos_of_getElem hc.checked.toWF hpos))
  subst hsame
  have hx : f ∈ c.schema.fields → (∀ d, f.ty ≠ .vector d .f16) ∨ ∃ u, f.index = .hash u :=
    fun _ => .inl fun d hd => by
      obtain ⟨e, he⟩ := hty
      rw [hd] at he
      cases he
  have hat : doc.at n = some (readAt c.schema p (pos', none)) := by
    rw [← hn]
    exact hr.reads hf hx
  have hsrc : source c.schema n = some (pos', none) := by
    rw [← hn]
    exact hf.source
  rw [columnOf_insert hst]
  have hstep : sparseStep doc old n ix = sparseFiling.rewrite ix doc.id
      ((columnOf c.schema c.store (pos', none)).get doc.id) (keptAs old (some doc) n)
      (readAt c.schema p (pos', none)) := by
    subst hold
    unfold sparseStep Filing.rewrite Store.read
    simp only [hget, hat, columnOf, OrdMap.get_map]
    cases hrow : c.store.rows.get doc.id with
    | none => rfl
    | some q =>
      simp only [Option.map_some, at_readDoc hc.checked.toWF hsrc]
      rfl
  rw [hstep]
  refine Filing.holds_rewrite h fun hkept => ?_
  subst hold
  unfold Store.read at hkept
  cases hrow : c.store.rows.get doc.id with
  | none => simp [hrow, keptAs] at hkept
  | some q =>
    simp only [hrow, Option.map_some, keptAs, hat, at_readDoc hc.checked.toWF hsrc,
      same_iff] at hkept
    exact ⟨readAt c.schema q (pos', none), by simp [columnOf, hrow], sparseFiling_alike hkept⟩

/-- What a composite's key reads: a field of an ordered type, or a path into a json field. -/
structure PartReads (s : Schema) (key : String) (src : Nat × Option String) (g : Field) :
    Prop where
  source : source s key = some src
  field : s.fields[src.1]? = some g
  ordered : compositePart g.ty = true
  ty : src.2 = none ∧ typeAt s key = g.ty ∨ typeAt s key = .json

theorem partReads {s : Schema} (hs : s.Checked) {k : Composite} (hk : k ∈ s.composites)
    {key : String × Bool} (hkey : key ∈ k.keys) : ∃ src g, PartReads s key.1 src g := by
  obtain ⟨ty, hty, hpart⟩ := hs.composites_part k hk key hkey
  unfold Schema.partType at hty
  obtain ⟨o, hpath, hty⟩ := bind_ok hty
  cases o with
  | some pk =>
    obtain ⟨pos, keys⟩ := pk
    obtain ⟨g, hg, -, hjson⟩ := pathOf_eq_some hpath
    refine ⟨(pos, some keys), g, ?_, hg, by rw [hjson]; rfl, .inr ?_⟩
    · simp [Fenec.source, hpath]
    · simp [typeAt, Schema.partType, hpath]
  | none =>
    simp only [Option.isSome_none, Bool.false_eq_true, if_false] at hty
    split at hty
    · next f hf =>
      cases hty
      have hmem : f ∈ s.fields := List.mem_of_find?_eq_some hf
      have hname : f.name = key.1 := by simpa using List.find?_some hf
      obtain ⟨pos, hpos, hr⟩ := reads_field hs.toWF hmem
      refine ⟨(pos, none), f, hname ▸ hr.source, hpos, hpart, .inl ⟨rfl, ?_⟩⟩
      simp [typeAt, Schema.partType, hpath, hf]
    · cases hty

namespace PartReads

variable {s : Schema} {key : String} {src : Nat × Option String} {g : Field}

theorem at_eq (h : PartReads s key src g) {d : Document} {p : Payload} (hr : Recorded s d p) :
    d.at key = some (readAt s p src) :=
  hr.at_eq key src g h.source h.field (.inl fun n hn => by
    have := h.ordered
    rw [hn] at this
    cases this)

theorem holds (hs : s.WF) (h : PartReads s key src g) {id : DocId} {p : Payload}
    (hfits : (readDoc s id p).Fits s) : (typeAt s key).holds (readAt s p src) = true := by
  rcases h.ty with ⟨hnone, hty⟩ | hty
  · rw [readAt, hnone, hty]
    exact holds_readAt hs hfits h.field
  · rw [hty]
    generalize readAt s p src = v
    cases v <;> rfl

end PartReads

/-- The values a document files under a composite are what its record reads. -/
theorem compositeValues_doc (hs : c.schema.Checked) {k : Composite}
    (hk : k ∈ c.schema.composites) {p : Payload} (hr : Recorded c.schema doc p) :
    compositeValues k doc = (sourcesAt c.schema k).map (readAt c.schema p) := by
  unfold compositeValues sourcesAt
  rw [List.take_of_length_le (hs.composites_short k hk), List.map_map]
  refine List.map_congr_left fun key hkey => ?_
  obtain ⟨src, g, hpart⟩ := partReads hs hk hkey
  simp [hpart.at_eq hr, hpart.source]

theorem compositeValues_row (hc : c.Sound) {k : Composite} (hk : k ∈ c.schema.composites)
    {id : DocId} {p : Payload} (hp : c.store.rows.get id = some p) :
    compositeValues k (readDoc c.schema id p) = (sourcesAt c.schema k).map (readAt c.schema p) :=
  compositeValues_doc hc.checked hk (recorded_readDoc hc.checked.toWF (hc.fits id p hp))

theorem compositeStep_holds (hc : c.Sound) {k : Composite} {ix : CompositeIndex}
    (hk : k ∈ c.schema.composites) {p : Payload}
    (hst : st.rows = c.store.rows.insert doc.id p) (hr : Recorded c.schema doc p)
    (hold : old = c.store.read c.schema doc.id)
    (h : (compositeFiling B (partsAt c.schema k)).Holds ix
      (tuplesOf c.schema c.store (sourcesAt c.schema k)).entries) :
    (compositeFiling B (partsAt c.schema k)).Holds (compositeStep B doc old k ix)
      (tuplesOf c.schema st (sourcesAt c.schema k)).entries := by
  rw [tuplesOf_insert hst]
  have hstep : compositeStep B doc old k ix = (compositeFiling B (partsAt c.schema k)).rewrite ix
      doc.id ((tuplesOf c.schema c.store (sourcesAt c.schema k)).get doc.id)
      (k.keys.all fun key => keptAs old (some doc) key.1)
      ((sourcesAt c.schema k).map (readAt c.schema p)) := by
    subst hold
    unfold compositeStep Filing.rewrite Store.read
    simp only [compositeValues_doc hc.checked hk hr, tuplesOf, OrdMap.get_map]
    cases hrow : c.store.rows.get doc.id with
    | none => rfl
    | some q =>
      simp only [Option.map_some, compositeValues_row hc hk hrow]
      rfl
  rw [hstep]
  refine Filing.holds_rewrite h fun hkept => ?_
  subst hold
  unfold Store.read at hkept
  cases hrow : c.store.rows.get doc.id with
  | none =>
    -- a composite has keys, and none is kept where there was no row
    obtain ⟨key, hkey⟩ : ∃ key, key ∈ k.keys :=
      List.exists_mem_of_length_pos (Nat.lt_of_lt_of_le Nat.two_pos (hc.checked.composites_long k hk))
    have hsame := List.all_eq_true.mp hkept key hkey
    simp [hrow, keptAs] at hsame
  | some q =>
    refine ⟨(sourcesAt c.schema k).map (readAt c.schema q), by simp [tuplesOf, hrow], ?_⟩
    refine compositeFiling_alike B ?_
    unfold partsAt sourcesAt
    rw [List.map_map, List.map_map]
    refine CompositeIndex.rowKey_congr fun key hkey => ?_
    obtain ⟨src, g, hpart⟩ := partReads hc.checked hk hkey
    have hsame := List.all_eq_true.mp hkept key hkey
    simp only [hrow, Option.map_some, keptAs, hpart.at_eq hr,
      at_readDoc hc.checked.toWF hpart.source, same_iff] at hsame
    simp only [Function.comp, hpart.source, Option.getD_some]
    exact ⟨putPart_of_hashKey B (hpart.holds hc.checked.toWF (hc.fits _ _ hrow))
      (hpart.holds hc.checked.toWF hr.fits) hsame, isNull_of_hashKey hsame⟩

/-! ## 4. Steps -/

/-- One schema and the same indexes by name, whatever is built of them. -/
structure Alongside (c c' : Collection) : Prop where
  schema : c'.schema = c.schema
  hashes : c'.hashes.map (·.1) = c.hashes.map (·.1)
  sorted : c'.sorted.map (·.1) = c.sorted.map (·.1)
  sparse : c'.sparse.map (·.1) = c.sparse.map (·.1)
  composites : c'.composites.map (·.1) = c.composites.map (·.1)

theorem Alongside.trans {c c' c'' : Collection} (h : Alongside c c') (h' : Alongside c' c'') :
    Alongside c c'' :=
  ⟨h'.schema.trans h.schema, h'.hashes.trans h.hashes, h'.sorted.trans h.sorted,
    h'.sparse.trans h.sparse, h'.composites.trans h.composites⟩

theorem Declared.alongside {c c' : Collection} (h : c.Declared) (hc : Alongside c c') :
    c'.Declared where
  hashes := by rw [hc.hashes, hc.schema]; exact h.hashes
  hashes_nodup := by rw [hc.hashes]; exact h.hashes_nodup
  sorted := by rw [hc.sorted, hc.schema]; exact h.sorted
  sorted_nodup := by rw [hc.sorted]; exact h.sorted_nodup
  sparse := by rw [hc.sparse, hc.schema]; exact h.sparse
  sparse_nodup := by rw [hc.sparse]; exact h.sparse_nodup
  composites := by rw [hc.composites, hc.schema]; exact h.composites

@[simp] theorem names_eachBuilt {κ α : Type} (l : List (κ × Derived α)) (g : κ → α → α) :
    (eachBuilt l g).map (·.1) = l.map (·.1) := by
  simp [eachBuilt]

theorem alongside_indexScalar : Alongside c (c.indexScalar B doc old) := by
  constructor <;> simp [indexScalar]

theorem alongside_unindexDoc {new : Option Document} : Alongside c (c.unindexDoc B doc new) := by
  constructor <;> simp [unindexDoc]

theorem alongside_stored (st : Store) : Alongside c { c with store := st } :=
  ⟨rfl, rfl, rfl, rfl, rfl⟩

theorem alongside_refile : Alongside c (c.refile B doc old st) := by
  cases old with
  | none => exact (alongside_stored _).trans alongside_indexScalar
  | some o => exact (alongside_unindexDoc.trans (alongside_stored _)).trans alongside_indexScalar

theorem alongside_write : Alongside c (c.write B doc old) := alongside_refile

/-- A document's record is a document of the schema. -/
theorem fits_encodeDoc {s : Schema} (hs : s.WF) (hdoc : doc.Fits s) (id : DocId) :
    (readDoc s id (encodeDoc s doc)).Fits s := by
  intro f hf
  obtain ⟨j, hj⟩ := List.mem_iff_getElem?.mp hf
  obtain ⟨v, hv, hholds⟩ := hdoc f hf
  refine ⟨_, Document.get_readDoc_encodeDoc hs id hj, ?_⟩
  rw [hv]
  unfold Codec.kept
  split
  · next hty _ => rw [hty]; rfl
  · exact hholds

theorem below_put {st : Store} (h : ∀ id p, st.rows.get id = some p → id < st.nextId) {id : DocId}
    {p : Payload} : ∀ j q, (st.put id p).rows.get j = some q → j < (st.put id p).nextId := by
  intro j q hq
  rw [Store.put, OrdMap.get_insert] at hq
  have hid : id < (st.put id p).nextId := by
    unfold Store.put
    dsimp only
    split
    · exact Nat.lt_succ_self id
    · next hlt => exact Nat.lt_of_not_le hlt
  have hle : st.nextId ≤ (st.put id p).nextId := by
    unfold Store.put
    dsimp only
    split
    · next hge => exact Nat.le_succ_of_le hge
    · exact Nat.le_refl _
  split at hq
  · next heq => exact heq ▸ hid
  · exact Nat.lt_of_lt_of_le (h j q hq) hle

theorem sound_write (hc : c.Sound) (hdoc : doc.Fits c.schema) : (c.write B doc old).Sound where
  checked := by rw [write_schema]; exact hc.checked
  declared := hc.declared.alongside alongside_write
  fits := by
    intro id p hp
    rw [write_schema]
    rw [write_store, Store.put, OrdMap.get_insert] at hp
    split at hp
    · cases hp
      exact fits_encodeDoc hc.checked.toWF hdoc _
    · exact hc.fits id p hp
  below := by
    intro id p hp
    rw [write_store] at hp ⊢
    exact below_put hc.below id p hp
  short := by
    intro id p hp
    rw [write_schema]
    rw [write_store, Store.put, OrdMap.get_insert] at hp
    split at hp
    · cases hp
      exact length_encodeDoc c.schema doc
    · exact hc.short id p hp

/-- The record made of a document is its record, where halving changes nothing a hash is on. -/
theorem recorded_encodeDoc {s : Schema} (hs : s.WF) (hdoc : doc.Fits s) (hset : Settled s doc) :
    Recorded s doc (encodeDoc s doc) where
  fits := fits_encodeDoc hs hdoc doc.id
  at_eq n src g hsrc hg hx := by
    refine at_eq_readAt hdoc hsrc hg ?_
    rcases hx with hne | hhash
    · exact exact_of_ne hne
    · exact hset g (List.mem_of_getElem? hg) hhash

/-- **Filing a row anew keeps every built index.** -/
theorem refile_kept (hc : c.Sound) (hk : c.Kept B) {p : Payload}
    (hst : st.rows = c.store.rows.insert doc.id p) (hr : Recorded c.schema doc p)
    (hold : old = c.store.read c.schema doc.id) : (c.refile B doc old st).Kept B where
  hashes := by
    intro n ix hix f src hf hn
    obtain ⟨ix₀, h₀, rfl⟩ := mem_refile_hashes hix
    rw [refile_schema] at hf
    rw [refile_schema, refile_store]
    refine hashStep_holds hc hf hn hst hr ?_ hold (hk.hashes n ix₀ h₀ f src hf hn)
    intro hmem
    obtain ⟨g, hg, hgn, hhash⟩ := (hc.declared.hashes n).mp (List.mem_map_of_mem h₀)
    obtain ⟨src', hg'⟩ := reads_declared hc.checked hg
    obtain ⟨rfl, -⟩ := reads_unique hf hg' (hn.trans hgn.symm)
    exact .inr hhash
  sorted := by
    intro n ix hix f src hf hn
    obtain ⟨ix₀, h₀, rfl⟩ := mem_refile_sorted hix
    rw [refile_schema] at hf
    rw [refile_schema, refile_store]
    refine sortedStep_holds hc hf hn hst hr ?_ hold (hk.sorted n ix₀ h₀ f src hf hn)
    obtain ⟨g, hg, hgn, hord, -⟩ := (hc.declared.sorted n).mp (List.mem_map_of_mem h₀)
    obtain ⟨src', hg'⟩ := reads_declared hc.checked hg
    obtain ⟨rfl, -⟩ := reads_unique hf hg' (hn.trans hgn.symm)
    exact hord
  sparse := by
    intro n ix hix f pos hf hn
    obtain ⟨ix₀, h₀, rfl⟩ := mem_refile_sparse hix
    rw [refile_schema] at hf
    rw [refile_schema, refile_store]
    refine sparseStep_holds hc hf hn hst hr ?_ hold (hk.sparse n ix₀ h₀ f pos hf hn)
    obtain ⟨g, hg, hgn, hty, -⟩ := (hc.declared.sparse n).mp (List.mem_map_of_mem h₀)
    rw [Document.field_unique hc.checked.toWF (List.mem_of_getElem? hf) hg (hn.trans hgn.symm)]
    exact hty
  composites := by
    intro k ix hix
    obtain ⟨ix₀, h₀, rfl⟩ := mem_refile_composites hix
    rw [refile_schema, refile_store]
    exact compositeStep_holds hc (hc.declared.composite h₀) hst hr hold (hk.composites k ix₀ h₀)

/-- **A write keeps every built index.** -/
theorem write_kept (hc : c.Sound) (hk : c.Kept B) (hdoc : doc.Fits c.schema)
    (hset : Settled c.schema doc) (hold : old = c.store.read c.schema doc.id) :
    (c.write B doc old).Kept B :=
  refile_kept hc hk rfl (recorded_encodeDoc hc.checked.toWF hdoc hset) hold

/-- **An erase keeps every built index.** -/
theorem erase_kept (hc : c.Sound) (hk : c.Kept B) (id : DocId) : (c.eraseRow B id).Kept B := by
  cases hrow : c.store.rows.get id with
  | none =>
    have hdel : c.eraseRow B id = { c with store := c.store.del id } := by
      simp [eraseRow, Store.read, hrow]
    have hcol : ∀ src, columnOf c.schema (c.store.del id) src = columnOf c.schema c.store src := by
      intro src
      rw [columnOf_del, OrdMap.erase_of_get_none (by simp [columnOf, hrow])]
    rw [hdel]
    exact {
      hashes := fun n ix hix f src hf hn => by
        rw [hcol]
        exact hk.hashes n ix hix f src hf hn
      sorted := fun n ix hix f src hf hn => by
        rw [hcol]
        exact hk.sorted n ix hix f src hf hn
      sparse := fun n ix hix f pos hf hn => by
        rw [hcol]
        exact hk.sparse n ix hix f pos hf hn
      composites := fun k ix hix => by
        rw [tuplesOf_del, OrdMap.erase_of_get_none (by simp [tuplesOf, hrow])]
        exact hk.composites k ix hix }
  | some p =>
    have herase : c.eraseRow B id =
        { c.unindexDoc B (readDoc c.schema id p) none with store := c.store.del id } := by
      simp only [eraseRow, Store.read, hrow, Option.map_some]
      rfl
    have hcol : ∀ src, (columnOf c.schema c.store src).get id = some (readAt c.schema p src) := by
      intro src
      simp [columnOf, hrow]
    rw [herase]
    exact {
      hashes := fun n ix hix f src hf hn => by
        simp only [unindexDoc] at hix
        obtain ⟨ix₀, h₀, rfl⟩ := mem_eachBuilt.mp hix
        have hsrc : source c.schema n = some src := hn ▸ hf.source
        rw [columnOf_del]
        simp only [at_readDoc hc.checked.toWF hsrc, keptAs]
        exact Filing.holds_erase (hk.hashes n ix₀ h₀ f src hf hn) (hcol src)
      sorted := fun n ix hix f src hf hn => by
        simp only [unindexDoc] at hix
        obtain ⟨ix₀, h₀, rfl⟩ := mem_eachBuilt.mp hix
        have hsrc : source c.schema n = some src := hn ▸ hf.source
        rw [columnOf_del, map_erase]
        simp only [at_readDoc hc.checked.toWF hsrc, keptAs]
        exact Filing.holds_erase (hk.sorted n ix₀ h₀ f src hf hn)
          (by rw [OrdMap.get_map]; exact congrArg _ (hcol src))
      sparse := fun n ix hix f pos hf hn => by
        simp only [unindexDoc] at hix
        obtain ⟨ix₀, h₀, rfl⟩ := mem_eachBuilt.mp hix
        rw [columnOf_del]
        simp only [← hn, Document.get_readDoc hc.checked.toWF id p hf, keptAs]
        exact Filing.holds_erase (hk.sparse n ix₀ h₀ f pos hf hn) (hcol (pos, none))
      composites := fun k ix hix => by
        simp only [unindexDoc] at hix
        obtain ⟨ix₀, h₀, rfl⟩ := mem_eachBuilt.mp hix
        have hmem := hc.declared.composite h₀
        obtain ⟨key, hkey⟩ : ∃ key, key ∈ k.keys := List.exists_mem_of_length_pos
          (Nat.lt_of_lt_of_le Nat.two_pos (hc.checked.composites_long k hmem))
        have hnot : (k.keys.all fun key => keptAs (some (readDoc c.schema id p)) none key.1) =
            false := List.all_eq_false.mpr ⟨key, hkey, by simp [keptAs]⟩
        have htuples : (tuplesOf c.schema c.store (sourcesAt c.schema k)).get id =
            some ((sourcesAt c.schema k).map (readAt c.schema p)) := by
          simp [tuplesOf, hrow]
        rw [tuplesOf_del]
        simp only [hnot, compositeValues_row hc hmem hrow]
        exact Filing.holds_erase (hk.composites k ix₀ h₀) htuples }

theorem alongside_erase (id : DocId) : Alongside c (c.eraseRow B id) := by
  unfold eraseRow
  cases c.store.read c.schema id with
  | none => exact alongside_stored _
  | some doc => exact alongside_unindexDoc.trans (alongside_stored _)

@[simp] theorem erase_store (id : DocId) : (c.eraseRow B id).store = c.store.del id := by
  unfold eraseRow
  cases c.store.read c.schema id <;> rfl

theorem sound_erase (hc : c.Sound) (id : DocId) : (c.eraseRow B id).Sound where
  checked := by rw [(alongside_erase id).schema]; exact hc.checked
  declared := hc.declared.alongside (alongside_erase id)
  fits := by
    intro j p hp
    rw [erase_store, Store.del, OrdMap.get_erase] at hp
    split at hp
    · cases hp
    · rw [(alongside_erase id).schema]
      exact hc.fits j p hp
  below := by
    intro j p hp
    rw [erase_store] at hp ⊢
    rw [Store.del, OrdMap.get_erase] at hp
    split at hp
    · cases hp
    · exact hc.below j p hp
  short := by
    intro j p hp
    rw [erase_store, Store.del, OrdMap.get_erase] at hp
    split at hp
    · cases hp
    · rw [(alongside_erase id).schema]
      exact hc.short j p hp

end

end Collection

end Fenec
