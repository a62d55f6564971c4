/-
# Schemas changed under the indexes

`alterCollection` changes the fields of a collection and brings its indexes after them;
`createIndex`, `createComposite` and `dropComposite` put an index on a collection with rows in it
or take one off.  Each is modelled as it leaves the collection where it is carried out: a statement
that fails leaves it as it was.

`Steady` is what they keep, and what every write keeps too: a schema in order, rows that are
documents of it, and under each name the schema declares an index that is not built or holds what
the name reads in the rows.  The changes of the fields are one argument (`steady_alter`): a change
takes the indexes of the names it touches off, fits those of the paths and the composites, and
what it leaves on reads as it did, since where a name reads in both schemas it reads the same.
-/
import Fenec.Alter
import Fenec.Indexes
import Fenec.RowRun

namespace Fenec

open Lib Case

/-! ## 1. Changes -/

/-- `HashIndex::shared`: whether two rows are filed under one key, the null's aside. -/
def HashIndex.shared (ix : HashIndex) : Bool :=
  decide (∃ e ∈ ix.entries, e.1 ≠ hashKey .null ∧ ∃ e' ∈ ix.entries, e'.1 = e.1 ∧ e'.2 ≠ e.2)

namespace CompositeIndex

/-- `CompositeIndex::has_null`; `fuel` is past the parts. -/
def hasNull : Nat → Key → Bool
  | fuel + 1, x :: xs =>
    x = CompositeKey.null || x = 255 - CompositeKey.null ||
      hasNull fuel ((x :: xs).drop (CompositeKey.partLen (x :: xs)))
  | _, _ => false

/-- `CompositeIndex::shared`: whether two entries in a row are of one key with no null in it. -/
def shared (ix : CompositeIndex) : Bool :=
  (ix.keys.zip ix.keys.tail).any fun ab => ab.1.1 == ab.2.1 && !hasNull ab.2.1.length ab.2.1

end CompositeIndex

/-- What is said of a value, or of several, that two rows hold: the text ends in their json. -/
structure Refusals where
  hash : HashIndex → Error
  composite : Composite → CompositeIndex → Error

namespace Collection

/-- **`Collection::alter_fields`**. -/
def alterFields (c : Collection) (ch : FieldChange) : Collection :=
  match ch.op with
  | .add | .ttl => { c with schema := ch.schema }.fitPaths.fitComposites
  | .drop => { c.takeIndexes ch.field with schema := ch.schema }.fitPaths.fitComposites
  | .rename =>
    ({ c.takeIndexes ch.field with schema := ch.schema }.fitPaths.fitComposites).putIndexes ch.to_
      (c.taken ch.field)

section

variable (B : Build) (no : Refusals)

/-- **`Database::alter_collection`**. -/
def alterCollection (c : Collection) (change : Alter) : Result Collection := do
  let ch ← alterSchema c.schema change
  let c := c.alterFields ch
  pure (match ch.op, c.schema.fieldPos ch.field with
    | .add, some pos => c.buildIndex B pos
    | _, _ => c)

/-- `refuse_shared`. -/
def refuseShared (c : Collection) (n : String) : Result Unit :=
  match (c.buildHash B n).hashes.lookup n with
  | some (.built ix) => if ix.shared then .error (no.hash ix) else .ok ()
  | some (.refused e) => .error e
  | _ => .ok ()

/-- A collection with an index more, unless the index is unique and the rows share a value. -/
def orRefuse (c : Collection) (kind : IndexKind) (n : String) : Result Collection := do
  if kind.isUnique then c.refuseShared B no n
  pure c

/-- **`Database::create_index`**. -/
def createIndex (c : Collection) (field : String) (kind : IndexKind) (ifNotExists : Bool) :
    Result Collection := do
  match ← checkIndex c.schema field kind ifNotExists with
  | .done => pure c
  | .path =>
    let s := c.schema.addPath ⟨field, .json, kind.resolved, false, none, false⟩
    ({ c with schema := s }.buildPathIndex B field).orRefuse B no kind field
  | .field pos =>
    let s := c.schema.indexAt pos kind.resolved
    ({ c with schema := s }.buildIndex B pos).orRefuse B no kind field

/-- A collection with a composite index more, the last of them, built. -/
def compose (c : Collection) (k : Composite) : Collection :=
  let s := { c.schema with composites := c.schema.composites ++ [k] }
  let c := { c with schema := s }.fitComposites
  c.buildComposite B (c.composites.length - 1)

/-- A collection with its last composite index, unless that is unique and the rows share a key. -/
def orRefuseLast (c : Collection) (k : Composite) : Result Collection :=
  match c.composites[c.composites.length - 1]? with
  | some (_, .built ix) => if k.unique && ix.shared then .error (no.composite k ix) else .ok c
  | some (_, .refused e) => .error e
  | _ => .ok c

/-- **`Database::create_composite`**. -/
def createComposite (c : Collection) (k : Composite) (ifNotExists : Bool) : Result Collection := do
  match ← checkComposite c.schema k with
  | some _ =>
    if ifNotExists then pure c
    else .error (.existing ("an index on `" ++ c.schema.name ++ "` (" ++ k.keysText ++ ")"))
  | none => (c.compose B k).orRefuseLast no k

end

/-- **`Database::drop_composite`**. -/
def dropComposite (c : Collection) (keys : List String) (ifExists : Bool) : Result Collection :=
  match c.schema.composites.findIdx? fun o => o.keys.map (·.1) == keys with
  | none =>
    if ifExists then .ok c
    else .error (.notFound ("an index on `" ++ c.schema.name ++ "` (" ++
      ", ".intercalate keys ++ ")"))
  | some i =>
    .ok { c with
      schema := { c.schema with composites := c.schema.composites.eraseIdx i }
      composites := c.composites.eraseIdx i }

end Collection

/-! ## 2. Rows under a changed schema -/

/-- **Rows that are documents of a schema**: every spot holds what its field may, no row reaches
past the places, and the next id is past them all. -/
structure Schema.Rowed (s : Schema) (st : Store) : Prop where
  fits : ∀ id p, st.rows.get id = some p → ∀ pf ∈ s.spots, pf.2.ty.holds (p.at pf.1) = true
  below : ∀ id p, st.rows.get id = some p → id < st.nextId
  short : ∀ id p, st.rows.get id = some p → p.length ≤ s.place s.fields.length

theorem mem_spots {s : Schema} {pf : Nat × Field} :
    pf ∈ s.spots ↔ ∃ i : Nat, s.fields[i]? = some pf.2 ∧ pf.1 = s.place i := by
  constructor
  · intro h
    obtain ⟨i, hi⟩ := List.mem_iff_getElem?.mp h
    rw [Schema.spots, List.getElem?_mapIdx, Option.map_eq_some_iff] at hi
    obtain ⟨f, hf, rfl⟩ := hi
    exact ⟨i, hf, rfl⟩
  · rintro ⟨i, hf, hp⟩
    have hget := spots_getElem hf
    rw [← hp] at hget
    exact List.mem_of_getElem? hget

/-- A stored row is a document of the schema where every spot holds what its field may. -/
theorem fits_iff_spots {s : Schema} (hs : s.WF) (id : DocId) (p : Payload) :
    (readDoc s id p).Fits s ↔ ∀ pf ∈ s.spots, pf.2.ty.holds (p.at pf.1) = true := by
  constructor
  · intro h pf hpf
    obtain ⟨i, hf, hp⟩ := mem_spots.mp hpf
    rw [hp]
    exact holds_readAt hs h hf
  · intro h f hf
    obtain ⟨i, hi⟩ := List.mem_iff_getElem?.mp hf
    exact ⟨_, Document.get_readDoc hs id p hi, h (s.place i, f) (mem_spots.mpr ⟨i, hi, rfl⟩)⟩

section

variable {s s' : Schema} {st : Store} {pos : Nat} {f : Field}

theorem Schema.Rowed.add (h : s.Rowed st) (g : Field) :
    Schema.Rowed { s with fields := s.fields ++ [g] } st where
  fits id p hp pf hpf := by
    rw [spots_add s { s with fields := s.fields ++ [g] } g rfl rfl] at hpf
    rcases List.mem_append.mp hpf with hpf | hpf
    · exact h.fits id p hp pf hpf
    · -- the new place is past the end of every row
      rw [List.mem_singleton.mp hpf]
      have hnull : p.at (s.place s.fields.length) = .null := by
        rw [Payload.at, List.getD_eq_default]
        exact h.short id p hp
      rw [hnull]
      exact holds_null _
  below := h.below
  short id p hp := by
    refine Nat.le_trans (h.short id p hp) ?_
    rw [List.length_append]
    exact (place_strictMono s.dropped).monotone (Nat.le_add_right _ _)

/-- A field changed but for its type. -/
theorem Schema.Rowed.modify (h : s.Rowed st) (g : Field → Field) (hty : ∀ f, (g f).ty = f.ty)
    (hf : s'.fields = s.fields.modify pos g) (hd : s'.dropped = s.dropped) : s'.Rowed st where
  fits id p hp pf hpf := by
    rw [spots_modify s s' pos g hf hd] at hpf
    obtain ⟨i, hi⟩ := List.mem_iff_getElem?.mp hpf
    rw [List.getElem?_modify] at hi
    obtain ⟨qf, hqf, heq⟩ := Option.map_eq_some_iff.mp hi
    have hold := h.fits id p hp qf (List.mem_of_getElem? hqf)
    subst heq
    split
    · rw [hty]
      exact hold
    · exact hold
  below := h.below
  short id p hp := by
    have hplace : s'.place s'.fields.length = s.place s.fields.length := by
      rw [Schema.place, Schema.place, hf, hd, List.length_modify]
    rw [hplace]
    exact h.short id p hp

theorem Schema.Rowed.dropAt (h : s.Rowed st) (hf : s.fields[pos]? = some f) (name : String) :
    (s.dropAt name pos).Rowed st where
  fits id p hp pf hpf := by
    rw [spots_drop s (s.dropAt name pos) pos rfl rfl] at hpf
    exact h.fits id p hp pf ((List.eraseIdx_sublist _ _).subset hpf)
  below := h.below
  short id p hp := by
    obtain ⟨hlt, -⟩ := List.getElem?_eq_some_iff.mp hf
    have hplace : (s.dropAt name pos).place (s.dropAt name pos).fields.length =
        s.place s.fields.length := by
      simp only [Schema.dropAt, Schema.place, List.length_eraseIdx, if_pos hlt,
        place_insertPlace]
      rw [if_neg (by omega)]
      congr 1
      omega
    rw [hplace]
    exact h.short id p hp

end

/-! ## 3. What is wanted under a changed schema -/

/-- The names of the fields of a list that meet a condition. -/
def Wanted (fs : List Field) (Q : Field → Prop) (n : String) : Prop := ∃ f ∈ fs, f.name = n ∧ Q f

/-- The fields with a hash index. -/
def Hashes (f : Field) : Prop := ∃ u, f.index = .hash u

/-- The fields with an ordered index. -/
def Orders (f : Field) : Prop := orderable f.ty = true ∧ ∃ ttl, f.index = .sorted ttl

/-- The fields with an inverted index. -/
def Inverts (f : Field) : Prop := (∃ d, f.ty = .sparse d) ∧ f.index = .inverted

section

variable {F ps ps' : List Field} {Q Q' : Field → Prop} {n : String} {f : Field}

theorem wanted_append : Wanted (F ++ ps) Q n ↔ Wanted F Q n ∨ Wanted ps Q n := by
  simp only [Wanted, List.mem_append]
  exact ⟨fun ⟨f, hf, h⟩ => hf.elim (fun hf => .inl ⟨f, hf, h⟩) fun hf => .inr ⟨f, hf, h⟩,
    fun h => h.elim (fun ⟨f, hf, h⟩ => ⟨f, .inl hf, h⟩) fun ⟨f, hf, h⟩ => ⟨f, .inr hf, h⟩⟩

theorem wanted_singleton : Wanted [f] Q n ↔ n = f.name ∧ Q f := by
  constructor
  · rintro ⟨g, hg, rfl, hQ⟩
    rw [List.mem_singleton.mp hg] at hQ ⊢
    exact ⟨rfl, hQ⟩
  · rintro ⟨rfl, hQ⟩
    exact ⟨f, List.mem_singleton_self f, rfl, hQ⟩

/-- What is left when a field's name is no longer wanted. -/
theorem wanted_eraseIdx {pos : Nat} (hf : F[pos]? = some f) (hn : (F.map (·.name)).Nodup) :
    Wanted (F.eraseIdx pos) Q n ↔ Wanted F Q n ∧ n ≠ f.name := by
  constructor
  · rintro ⟨g, hg, rfl, hQ⟩
    obtain ⟨hg, hne⟩ := (mem_eraseIdx_name (g := fun f : Field => f.name) hf hn).mp hg
    exact ⟨⟨g, hg, rfl, hQ⟩, hne⟩
  · rintro ⟨⟨g, hg, rfl, hQ⟩, hne⟩
    exact ⟨g, (mem_eraseIdx_name (g := fun f : Field => f.name) hf hn).mpr ⟨hg, hne⟩, rfl, hQ⟩

/-- What is wanted when a field is changed. -/
theorem wanted_modify {pos : Nat} (g : Field → Field) (hf : F[pos]? = some f)
    (hn : (F.map (·.name)).Nodup) : Wanted (F.modify pos g) Q n ↔
      n = (g f).name ∧ Q (g f) ∨ Wanted (F.eraseIdx pos) Q n := by
  rw [wanted_eraseIdx hf hn]
  constructor
  · rintro ⟨x, hx, rfl, hQ⟩
    rcases (mem_modify_name (g := fun f : Field => f.name) g hf hn).mp hx with rfl | ⟨hx, hne⟩
    · exact .inl ⟨rfl, hQ⟩
    · exact .inr ⟨⟨x, hx, rfl, hQ⟩, hne⟩
  · rintro (⟨rfl, hQ⟩ | ⟨⟨x, hx, rfl, hQ⟩, hne⟩)
    · exact ⟨g f, (mem_modify_name (g := fun f : Field => f.name) g hf hn).mpr (.inl rfl), rfl, hQ⟩
    · exact ⟨x, (mem_modify_name (g := fun f : Field => f.name) g hf hn).mpr (.inr ⟨hx, hne⟩),
        rfl, hQ⟩

/-- What is wanted of one field, and of the others. -/
theorem wanted_at {pos : Nat} (hf : F[pos]? = some f) (hn : (F.map (·.name)).Nodup) :
    Wanted F Q n ↔ n = f.name ∧ Q f ∨ Wanted (F.eraseIdx pos) Q n := by
  have h := wanted_modify (Q := Q) (n := n) (fun g => g) hf hn
  rwa [show F.modify pos (fun g => g) = F from List.modify_id pos F] at h

/-- A field that is wanted by its name alone. -/
theorem wanted_of_mem (hn : (F.map (·.name)).Nodup) (hf : f ∈ F) :
    Wanted F Q f.name ↔ Q f := by
  constructor
  · rintro ⟨g, hg, hname, hQ⟩
    rw [List.inj_on_of_nodup_map hn hg hf hname] at hQ
    exact hQ
  · exact fun hQ => ⟨f, hf, rfl, hQ⟩

/-- What is wanted past the paths that went and with those that came. -/
theorem wanted_fit {s' : Schema} (hF : ∀ f ∈ F, '.' ∉ f.name.toList)
    (hps : ∀ p ∈ ps, '.' ∈ p.name.toList)
    (hsame : ∀ p ∈ ps, ∀ p' ∈ s'.paths, p'.name = p.name → Q p → Q p') :
    Wanted (F ++ ps) Q n ∧ ('.' ∈ n.toList → (s'.path n).isSome = true) ∨ Wanted s'.paths Q n ↔
      Wanted (F ++ s'.paths) Q n := by
  rw [wanted_append, wanted_append]
  constructor
  · rintro (⟨hF | ⟨p, hp, rfl, hQ⟩, hpath⟩ | h)
    · exact .inl hF
    · right
      obtain ⟨p', hp'⟩ := Option.isSome_iff_exists.mp (hpath (hps p hp))
      have hname : p'.name = p.name := by simpa using List.find?_some hp'
      have hmem := List.mem_of_find?_eq_some hp'
      exact ⟨p', hmem, hname, hsame p hp p' hmem hname hQ⟩
    · exact .inr h
  · rintro (⟨f, hf, rfl, hQ⟩ | h)
    · exact .inl ⟨.inl ⟨f, hf, rfl, hQ⟩, fun hdot => absurd hdot (hF f hf)⟩
    · exact .inr h

end

/-! ## 4. Indexes brought after a change -/

namespace Collection

/-- **A collection whose indexes are on the names of some fields and of the declared paths**, each
not built or right. -/
structure IndexedOver (B : Build) (F : List Field) (c : Collection) : Prop where
  wants : c.Wants B (Wanted (F ++ c.schema.paths) Hashes) (Wanted (F ++ c.schema.paths) Orders)
    (Wanted F Inverts)
  composites : c.composites.map (·.1) = c.schema.composites
  good : ∀ k d, (k, d) ∈ c.composites → c.schema.GoodComposite B c.store k d

section

variable {B : Build} {c : Collection} {F : List Field} {s' : Schema}

theorem indexedOver_fields : c.IndexedOver B c.schema.fields ↔ c.Indexed B :=
  ⟨fun h => ⟨h.wants.hashes, h.wants.sorted, h.wants.sparse, h.composites, h.good⟩,
    fun h => ⟨⟨h.hashes, h.sorted, h.sparse⟩, h.composites, h.good⟩⟩

/-- An index over several fields is as good where both schemas read alike. -/
theorem good_agrees (hs : c.schema.Lawful) (hs' : s'.Lawful) (ha : c.schema.Agrees s')
    {k : Composite} {d : Derived CompositeIndex} (hk : k ∈ c.schema.composites)
    (hk' : k ∈ s'.composites) (h : c.schema.GoodComposite B c.store k d) :
    s'.GoodComposite B c.store k d := by
  refine goodComposite_congr hs.fields.wf hs'.fields.wf (fun key hkey => ?_) h
  obtain ⟨r, hr, -⟩ := (hs.composite k hk).part key hkey
  obtain ⟨r', hr', -⟩ := (hs'.composite k hk').part key hkey
  exact ⟨r, hr, by rw [ha _ r r' hr hr', hr']⟩

/-- A declared name reads. -/
theorem reading_declared {s : Schema} (hs : s.Lawful) {f : Field} (hf : f ∈ s.fields ++ s.paths) :
    ∃ r, s.reading f.name = some r := by
  rcases List.mem_append.mp hf with hf | hf
  · obtain ⟨pos, hpos⟩ := List.mem_iff_getElem?.mp hf
    exact ⟨_, reading_field hs.fields.wf hpos⟩
  · exact Option.isSome_iff_exists.mp (hs.path f hf).reads

/-- A wanted name reads. -/
theorem reads_wanted (hs : c.schema.Lawful) (hF : ∀ f ∈ F, f ∈ c.schema.fields) {n : String}
    (h : Wanted (F ++ c.schema.paths) Hashes n ∨ Wanted (F ++ c.schema.paths) Orders n ∨
      Wanted F Inverts n) : ∃ r, c.schema.reading n = some r := by
  have hdeclared : ∀ f ∈ F ++ c.schema.paths, ∃ r, c.schema.reading f.name = some r := by
    intro f hf
    refine reading_declared hs (List.mem_append.mpr ?_)
    exact (List.mem_append.mp hf).imp_left (hF f)
  rcases h with ⟨f, hf, rfl, -⟩ | ⟨f, hf, rfl, -⟩ | ⟨f, hf, rfl, -⟩
  · exact hdeclared f hf
  · exact hdeclared f hf
  · exact hdeclared f (List.mem_append_left _ hf)

theorem orders_path {s : Schema} (hs : s.Lawful) {n : String} :
    (∃ p ∈ s.paths, p.name = n ∧ ∃ ttl, p.index = .sorted ttl) ↔ Wanted s.paths Orders n := by
  constructor
  · rintro ⟨p, hp, rfl, httl⟩
    refine ⟨p, hp, rfl, ?_, httl⟩
    rw [(hs.path p hp).json]
    rfl
  · rintro ⟨p, hp, rfl, -, httl⟩
    exact ⟨p, hp, rfl, httl⟩

/-- A path declared has a dot in its name, a field none. -/
theorem dot_path {s : Schema} (hs : s.Lawful) {p : Field} (hp : p ∈ s.paths) :
    '.' ∈ p.name.toList := by
  obtain ⟨⟨field, keys⟩, hsplit⟩ := Option.isSome_iff_exists.mp (hs.path p hp).dotted
  rw [(splitPath_eq_some.mp hsplit).1]
  simp

theorem schema_addPaths (ps : List Field) (c : Collection) :
    (ps.foldl addPathIndex c).schema = c.schema ∧ (ps.foldl addPathIndex c).store = c.store ∧
      (ps.foldl addPathIndex c).composites = c.composites := by
  induction ps generalizing c with
  | nil => exact ⟨rfl, rfl, rfl⟩
  | cons p ps ih =>
    obtain ⟨h1, h2, h3⟩ := ih (c.addPathIndex p)
    have hp : (c.addPathIndex p).schema = c.schema ∧ (c.addPathIndex p).store = c.store ∧
        (c.addPathIndex p).composites = c.composites := by
      unfold addPathIndex
      split
      · split <;> exact ⟨rfl, rfl, rfl⟩
      · split <;> exact ⟨rfl, rfl, rfl⟩
      · exact ⟨rfl, rfl, rfl⟩
    exact ⟨h1.trans hp.1, h2.trans hp.2.1, h3.trans hp.2.2⟩

/-- Fitting the paths leaves the rest as it is. -/
theorem fitPaths_rest (c : Collection) : c.fitPaths.schema = c.schema ∧
    c.fitPaths.store = c.store ∧ c.fitPaths.composites = c.composites := by
  have h := schema_addPaths c.schema.paths (c.gonePaths.foldl takeIndexes c)
  rw [takeAll_eq] at h
  unfold fitPaths
  rw [takeAll_eq]
  exact h

/-- **The lists as they are, read by a schema that reads what the one before did.** -/
theorem IndexedOver.reread (h : c.IndexedOver B F) (hs : c.schema.Lawful)
    (ha : c.schema.Agrees s') (hF : ∀ f ∈ F, f ∈ c.schema.fields) :
    { c with schema := s' }.Wants B (Wanted (F ++ c.schema.paths) Hashes)
      (Wanted (F ++ c.schema.paths) Orders) (Wanted F Inverts) := by
  refine h.wants.reschema fun n hn r hr => ?_
  obtain ⟨r', hr'⟩ := reads_wanted hs hF hn
  rw [hr', ha n r' r hr' hr]

/-- The indexes over several fields, fitted to the schema after a change. -/
theorem IndexedOver.good_fitComposite (h : c.IndexedOver B F) (hs : c.schema.Lawful)
    (hs' : s'.Lawful) (ha : c.schema.Agrees s') {k : Composite} {d : Derived CompositeIndex}
    (hd : (k, d) ∈ fitComposite c.composites s'.composites) :
    s'.GoodComposite B c.store k d := by
  have hk : k ∈ s'.composites := by
    rw [← names_fitComposite c.composites s'.composites]
    exact List.mem_map_of_mem (f := (·.1)) hd
  rcases mem_fitComposite hd with hold | rfl
  · have hkold : k ∈ c.schema.composites := by
      rw [← h.composites]
      exact List.mem_map_of_mem (f := (·.1)) hold
    exact good_agrees hs hs' ha hkold hk (h.good k d hold)
  · intro ix hix
    cases hix

/-- **The indexes left on, fitted to the schema after a change**: where it reads what the one
before did, and the paths there were before are declared as they were. -/
theorem IndexedOver.fit (h : c.IndexedOver B F) (hs : c.schema.Lawful) (hs' : s'.Lawful)
    (ha : c.schema.Agrees s') (hF : ∀ f ∈ F, f ∈ c.schema.fields)
    (hpaths : ∀ p ∈ c.schema.paths, ∀ p' ∈ s'.paths, p'.name = p.name → p'.index = p.index) :
    IndexedOver B F ({ c with schema := s' }.fitPaths.fitComposites) ∧
      ({ c with schema := s' }.fitPaths.fitComposites).schema = s' ∧
      ({ c with schema := s' }.fitPaths.fitComposites).store = c.store := by
  have hbare : ∀ f ∈ F, '.' ∉ f.name.toList := fun f hf => hs.fields.no_dot f (hF f hf)
  have hdots : ∀ p ∈ c.schema.paths, '.' ∈ p.name.toList := fun p hp => dot_path hs hp
  obtain ⟨hschema, hstore, hcomps⟩ := fitPaths_rest { c with schema := s' }
  have hfit := (h.reread hs ha hF).fitPaths fun m hm => by
    obtain ⟨f, hf, rfl, -⟩ := hm
    exact hbare f hf
  have hwants := hfit.imp (fun m => wanted_fit hbare hdots fun p hp p' hp' hname ⟨u, hu⟩ =>
      ⟨u, (hpaths p hp p' hp' hname).trans hu⟩)
    (fun m => (or_congr_right (orders_path hs')).trans (wanted_fit hbare hdots
      fun p hp p' hp' hname ⟨_, ttl, httl⟩ => ⟨by rw [(hs'.path p' hp').json]; rfl, ttl,
        (hpaths p hp p' hp' hname).trans httl⟩)) fun _ => Iff.rfl
  have hschema' : ({ c with schema := s' }.fitPaths.fitComposites).schema = s' := hschema
  refine ⟨⟨?_, ?_, fun k d hd => ?_⟩, hschema, hstore⟩
  · rw [hschema']
    exact ⟨hwants.hashes, hwants.sorted, hwants.sparse⟩
  · exact names_fitComposite _ _
  · have hstore' : ({ c with schema := s' }.fitPaths.fitComposites).store = c.store := hstore
    have hfitted : (k, d) ∈ fitComposite { c with schema := s' }.fitPaths.composites
        { c with schema := s' }.fitPaths.schema.composites := hd
    rw [hcomps, hschema] at hfitted
    rw [hschema', hstore']
    exact h.good_fitComposite hs hs' ha hfitted

theorem IndexedOver.imp {F' : List Field} (h : c.IndexedOver B F)
    (hh : ∀ n, Wanted F Hashes n ↔ Wanted F' Hashes n)
    (ho : ∀ n, Wanted F Orders n ↔ Wanted F' Orders n)
    (hi : ∀ n, Wanted F Inverts n ↔ Wanted F' Inverts n) : c.IndexedOver B F' where
  wants := h.wants.imp (fun n => by rw [wanted_append, wanted_append, hh])
    (fun n => by rw [wanted_append, wanted_append, ho]) hi
  composites := h.composites
  good := h.good

/-! ## 5. Indexes built over the rows -/

theorem orderable_of_check {name : String} {ty : DataType} {ttl : Option Nat}
    (h : (IndexKind.sorted ttl).check name ty = .ok ()) : orderable ty = true := by
  unfold IndexKind.check at h
  split at h
  · cases h
  · dsimp only at h
    split at h
    · cases h
    · split at h
      · cases h
      · next hord => simpa using hord

theorem sparse_of_check {name : String} {ty : DataType}
    (h : IndexKind.inverted.check name ty = .ok ()) : ∃ d, ty = .sparse d := by
  unfold IndexKind.check at h
  split at h
  · cases h
  · dsimp only at h
    split at h
    · exact ⟨_, rfl⟩
    · cases h

variable {hash sorted sparse : String → Prop}

/-- **Building the index of a field adds it to what is there.** -/
theorem Wants.build (h : c.Wants B hash sorted sparse) (hs : c.schema.Lawful) {pos : Nat}
    {f : Field} (hf : c.schema.fields[pos]? = some f) :
    (c.buildIndex B pos).Wants B (fun m => hash m ∨ m = f.name ∧ Hashes f)
      (fun m => sorted m ∨ m = f.name ∧ Orders f) (fun m => sparse m ∨ m = f.name ∧ Inverts f) := by
  have hread := reading_field hs.fields.wf hf
  have hcheck := hs.fields.checked f (List.mem_of_getElem? hf)
  unfold buildIndex
  rw [hf]
  dsimp only
  split
  · next u hu =>
    have hgood : c.schema.GoodHash B c.store f.name
        (.built (hashOf B c.schema c.store (pos, none) f.caseFold)) := by
      intro ix r hix hr
      rw [hread] at hr
      cases hix
      cases hr
      exact hashOf_holds B c.schema c.store (pos, none) f.caseFold
    refine ⟨(h.hashes.set hgood).imp (fun m => ?_) fun _ _ _ hg => hg,
      h.sorted.imp (fun m => ?_) fun _ _ _ hg => hg, h.sparse.imp (fun m => ?_) fun _ _ _ hg => hg⟩
    · simp [Hashes, hu]
    · simp [Orders, hu]
    · simp [Inverts, hu]
  · next ttl httl =>
    have hgood : c.schema.GoodSorted B c.store f.name
        (.built (sortedOf B c.schema c.store f (pos, none))) := by
      intro ix r hix hr
      rw [hread] at hr
      cases hix
      cases hr
      exact sortedOf_holds B c.schema c.store f (pos, none)
    rw [httl] at hcheck
    refine ⟨h.hashes.imp (fun m => ?_) fun _ _ _ hg => hg,
      (h.sorted.set hgood).imp (fun m => ?_) fun _ _ _ hg => hg,
      h.sparse.imp (fun m => ?_) fun _ _ _ hg => hg⟩
    · simp [Hashes, httl]
    · simp [Orders, httl, orderable_of_check hcheck]
    · simp [Inverts, httl]
  · next hinv =>
    have hgood : c.schema.GoodSparse c.store f.name
        (.built (sparseOf c.schema c.store pos)) := by
      intro ix r hix hr
      rw [hread] at hr
      cases hix
      cases hr
      exact sparseOf_holds c.schema c.store pos
    rw [hinv] at hcheck
    refine ⟨h.hashes.imp (fun m => ?_) fun _ _ _ hg => hg,
      h.sorted.imp (fun m => ?_) fun _ _ _ hg => hg,
      (h.sparse.set hgood).imp (fun m => ?_) fun _ _ _ hg => hg⟩
    · simp [Hashes, hinv]
    · simp [Orders, hinv]
    · simp [Inverts, hinv, sparse_of_check hcheck]
  · next hnohash hnosorted hnoinv =>
    refine h.imp (fun m => ?_) (fun m => ?_) fun m => ?_
    · have hno : ¬ Hashes f := fun ⟨u, hu⟩ => hnohash u hu
      simp [hno]
    · have hno : ¬ Orders f := fun ⟨_, ttl, httl⟩ => hnosorted ttl httl
      simp [hno]
    · have hno : ¬ Inverts f := fun ⟨_, hi⟩ => hnoinv hi
      simp [hno]

theorem buildIndex_rest (c : Collection) (pos : Nat) : (c.buildIndex B pos).schema = c.schema ∧
    (c.buildIndex B pos).store = c.store ∧ (c.buildIndex B pos).composites = c.composites := by
  unfold buildIndex
  split
  · exact ⟨rfl, rfl, rfl⟩
  · split <;> exact ⟨rfl, rfl, rfl⟩

/-- **Building the index of a path adds it to what is there.** -/
theorem Wants.buildPath (h : c.Wants B hash sorted sparse) (hs : c.schema.Lawful) {p : Field}
    (hp : p ∈ c.schema.paths) : (c.buildPathIndex B p.name).Wants B
      (fun m => hash m ∨ m = p.name ∧ Hashes p) (fun m => sorted m ∨ m = p.name ∧ Orders p)
      sparse := by
  obtain ⟨src, hreads⟩ := reads_path hs.checked hp
  have hpath := hs.path p hp
  have hread := hreads.reading hs.checked
  have hfind : c.schema.path p.name = some p := find_eq_of_mem hs.paths_nodup hp
  have hfold : p.caseFold = none := by simp [Field.caseFold, hpath.plain.2]
  unfold buildPathIndex
  rw [hfind, hreads.source]
  dsimp only
  split
  · next u hu =>
    have hgood : c.schema.GoodHash B c.store p.name
        (.built (hashOf B c.schema c.store src none)) := by
      intro ix r hix hr
      rw [hread] at hr
      cases hix
      cases hr
      rw [hfold]
      exact hashOf_holds B c.schema c.store src none
    refine ⟨(h.hashes.set hgood).imp (fun m => ?_) fun _ _ _ hg => hg,
      h.sorted.imp (fun m => ?_) fun _ _ _ hg => hg, h.sparse⟩
    · simp [Hashes, hu]
    · simp [Orders, hu]
  · next ttl httl =>
    have hgood : c.schema.GoodSorted B c.store p.name
        (.built (sortedOf B c.schema c.store p src)) := by
      intro ix r hix hr
      rw [hread] at hr
      cases hix
      cases hr
      exact sortedOf_holds B c.schema c.store p src
    have hord : Orders p := ⟨by rw [hpath.json]; rfl, ttl, httl⟩
    have hlist : Named.Fits (fun m => sorted m ∨ m = p.name) (c.schema.GoodSorted B c.store)
        (if Named.has p.name c.sorted then
          Named.set p.name (.built (sortedOf B c.schema c.store p src)) c.sorted
        else inSchemaOrder c.schema p.name (.built (sortedOf B c.schema c.store p src))
          c.sorted) := by
      split
      · exact h.sorted.set hgood
      · next hhas =>
        exact fits_inSchemaOrder c.schema h.sorted
          (fun hn => hhas (Named.has_iff.mpr ((h.sorted.names _).mpr hn))) hgood
    refine ⟨h.hashes.imp (fun m => ?_) fun _ _ _ hg => hg,
      hlist.imp (fun m => ?_) fun _ _ _ hg => hg, h.sparse⟩
    · simp [Hashes, httl]
    · simp [hord]
  · next hnohash hnosorted =>
    refine h.imp (fun m => ?_) (fun m => ?_) fun m => Iff.rfl
    · have hno : ¬ Hashes p := by
        rintro ⟨u, hu⟩
        exact hnohash u hu
      simp [hno]
    · have hno : ¬ Orders p := by
        rintro ⟨-, ttl, httl⟩
        exact hnosorted ttl httl
      simp [hno]

theorem buildPathIndex_rest (c : Collection) (n : String) :
    (c.buildPathIndex B n).schema = c.schema ∧ (c.buildPathIndex B n).store = c.store ∧
      (c.buildPathIndex B n).composites = c.composites := by
  unfold buildPathIndex
  split
  · split <;> exact ⟨rfl, rfl, rfl⟩
  · exact ⟨rfl, rfl, rfl⟩

end

/-! ## 6. Changes of the fields -/

/-- **What every statement keeps**: a schema in order, rows that are documents of it, and the
declared indexes, each not built or right. -/
structure Steady (B : Build) (c : Collection) : Prop where
  lawful : c.schema.Lawful
  rowed : c.schema.Rowed c.store
  indexed : c.IndexedOver B c.schema.fields

section

variable {B : Build} {c c' : Collection} {pos : Nat} {f : Field}

theorem Steady.sound (h : c.Steady B) : c.Sound where
  checked := h.lawful.checked
  declared := ((indexed_iff h.lawful.checked).mp (indexedOver_fields.mp h.indexed)).1
  fits id p hp := (fits_iff_spots h.lawful.fields.wf id p).mpr (h.rowed.fits id p hp)
  below := h.rowed.below
  short := h.rowed.short

theorem Steady.kept (h : c.Steady B) : c.Kept B :=
  ((indexed_iff h.lawful.checked).mp (indexedOver_fields.mp h.indexed)).2

theorem steady_of_sound (hs : c.schema.Lawful) (hc : c.Sound) (hk : c.Kept B) : c.Steady B where
  lawful := hs
  rowed := ⟨fun id p hp => (fits_iff_spots hs.fields.wf id p).mp (hc.fits id p hp), hc.below,
    hc.short⟩
  indexed := indexedOver_fields.mpr ((indexed_iff hs.checked).mpr ⟨hc.declared, hk⟩)

/-- The indexes of a field taken off. -/
theorem IndexedOver.take (h : c.IndexedOver B c.schema.fields) (hs : c.schema.Lawful)
    (hf : c.schema.fields[pos]? = some f) :
    (c.takeIndexes f.name).IndexedOver B (c.schema.fields.eraseIdx pos) := by
  have hdot : '.' ∉ f.name.toList := hs.fields.no_dot f (List.mem_of_getElem? hf)
  have hpath : ∀ Q n, Wanted c.schema.paths Q n → n ≠ f.name := by
    rintro Q n ⟨p, hp, rfl, -⟩ heq
    exact hdot (heq ▸ dot_path hs hp)
  have happ : ∀ Q n, Wanted (c.schema.fields ++ c.schema.paths) Q n ∧ n ≠ f.name ↔
      Wanted (c.schema.fields.eraseIdx pos ++ c.schema.paths) Q n := fun Q n => by
    rw [wanted_append, wanted_append, wanted_eraseIdx hf hs.fields.nodup, or_and_right]
    exact or_congr_right ⟨And.left, fun hp => ⟨hp, hpath Q n hp⟩⟩
  exact ⟨(h.wants.take f.name).imp (happ _) (happ _)
    fun n => (wanted_eraseIdx hf hs.fields.nodup).symm, h.composites, h.good⟩

/-- **A field added**, and its index built. -/
theorem steady_add {g : Field} (h : c.Steady B)
    (hs' : Schema.Lawful { c.schema with fields := c.schema.fields ++ [g] }) :
    (({ c with schema := { c.schema with fields := c.schema.fields ++ [g] }
      }.fitPaths.fitComposites).buildIndex B c.schema.fields.length).Steady B := by
  obtain ⟨hfit, hschema, hstore⟩ := h.indexed.fit h.lawful hs'
    (within_addField hs'.fields).agrees (fun f hf => hf) fun p hp p' hp' hname => by
      rw [List.inj_on_of_nodup_map h.lawful.paths_nodup hp' hp hname]
  obtain ⟨hschema', hstore', hcomps'⟩ := buildIndex_rest (B := B)
    ({ c with schema := { c.schema with fields := c.schema.fields ++ [g] }
      }.fitPaths.fitComposites) c.schema.fields.length
  have hget : ({ c with schema := { c.schema with fields := c.schema.fields ++ [g] }
      }.fitPaths.fitComposites).schema.fields[c.schema.fields.length]? = some g := by
    rw [hschema]
    simp
  have hbuilt := hfit.wants.build (hschema.symm ▸ hs') hget
  refine ⟨?_, ?_, ⟨?_, ?_, ?_⟩⟩
  · rw [hschema', hschema]
    exact hs'
  · rw [hschema', hschema, hstore', hstore]
    exact h.rowed.add g
  · rw [hschema', hschema]
    rw [hschema] at hbuilt
    have hand : ∀ Q n, Wanted (c.schema.fields ++ c.schema.paths) Q n ∨ n = g.name ∧ Q g ↔
        Wanted (c.schema.fields ++ [g] ++ c.schema.paths) Q n := fun Q n => by
      rw [wanted_append, wanted_append, wanted_append, wanted_singleton, or_right_comm]
    exact hbuilt.imp (hand _) (hand _) fun n => by rw [wanted_append, wanted_singleton]
  · rw [hcomps', hschema']
    exact hfit.composites
  · intro k d hd
    rw [hcomps'] at hd
    rw [hschema', hstore']
    exact hfit.good k d hd

/-- **A field dropped**, its indexes with it. -/
theorem steady_drop (h : c.Steady B) (hf : c.schema.fields[pos]? = some f) :
    ({ c.takeIndexes f.name with schema := c.schema.dropAt f.name pos
      }.fitPaths.fitComposites).Steady B := by
  obtain ⟨hfit, hschema, hstore⟩ := (h.indexed.take h.lawful hf).fit
    h.lawful (lawful_dropAt h.lawful hf)
    (agrees_dropAt h.lawful.fields.wf hf) (fun g hg => (List.eraseIdx_sublist _ _).subset hg)
    fun p hp p' hp' hname => by
      rw [List.inj_on_of_nodup_map h.lawful.paths_nodup (List.mem_of_mem_filter hp') hp hname]
  refine ⟨?_, ?_, ?_⟩
  · rw [hschema]
    exact lawful_dropAt h.lawful hf
  · rw [hschema, hstore]
    exact h.rowed.dropAt hf f.name
  · rw [hschema]
    exact hfit

/-- **A field's index changed for one of its kind.** -/
theorem steady_ttl {old ttl : Option Nat} (h : c.Steady B) (hf : c.schema.fields[pos]? = some f)
    (hold : f.index = .sorted old) (hcheck : (IndexKind.sorted ttl).check f.name f.ty = .ok ()) :
    ({ c with schema := c.schema.indexAt pos (.sorted ttl) }.fitPaths.fitComposites).Steady B := by
  have hs' := lawful_indexAt (k := .sorted ttl) h.lawful hf hcheck rfl
  obtain ⟨hfit, hschema, hstore⟩ := h.indexed.fit h.lawful hs'
    (within_indexAt h.lawful.fields.wf hf (.sorted ttl)).agrees (fun g hg => hg)
    fun p hp p' hp' hname => by
      rw [List.inj_on_of_nodup_map h.lawful.paths_nodup hp' hp hname]
  have hsame : ∀ Q : Field → Prop, (Q { f with index := .sorted ttl } ↔ Q f) → ∀ n,
      Wanted c.schema.fields Q n ↔ Wanted (c.schema.indexAt pos (.sorted ttl)).fields Q n := by
    intro Q hQ n
    have hn := h.lawful.fields.nodup
    exact (wanted_at hf hn).trans ((or_congr_left (and_congr_right fun _ => hQ.symm)).trans
      (wanted_modify (fun f => { f with index := .sorted ttl }) hf hn).symm)
  refine ⟨?_, ?_, ?_⟩
  · rw [hschema]
    exact hs'
  · rw [hschema, hstore]
    exact h.rowed.modify (fun f => { f with index := .sorted ttl }) (fun _ => rfl) rfl rfl
  · rw [hschema]
    refine hfit.imp (hsame _ ?_) (hsame _ ?_) (hsame _ ?_)
    · simp [Hashes, hold]
    · simp [Orders, hold]
    · simp [Inverts, hold]

/-- What a name's lists had is there to be put on another. -/
theorem isSome_taken {α : Type} {want : String → Prop} {good : String → α → Prop}
    {l : List (String × α)} (h : Named.Fits want good l) (n : String) :
    (l.lookup n).isSome = true ↔ want n := by
  rw [← h.names n]
  cases hl : l.lookup n with
  | some d => simpa using Named.mem_names (Named.mem_of_lookup hl)
  | none =>
    simp only [Option.isSome_none, Bool.false_eq_true, false_iff]
    intro hmem
    obtain ⟨e, he, rfl⟩ := List.mem_map.mp hmem
    simpa using List.lookup_eq_none_iff.mp hl e he

/-- **A field renamed**, its indexes moved to its new name. -/
theorem steady_rename {to_ : String} (h : c.Steady B) (hf : c.schema.fields[pos]? = some f)
    (hok : FieldsOk (c.schema.renameAt f.name to_ pos).fields) :
    (({ c.takeIndexes f.name with schema := c.schema.renameAt f.name to_ pos
      }.fitPaths.fitComposites).putIndexes to_ (c.taken f.name)).Steady B := by
  have hs := h.lawful
  have hs' := lawful_renameAt hs hf hok
  have hn := hs.fields.nodup
  obtain ⟨hfit, hschema, hstore⟩ := (h.indexed.take hs hf).fit
    hs hs' (agrees_renameAt hs.fields.wf hf hok)
    (fun g hg => (List.eraseIdx_sublist _ _).subset hg) fun p hp p' hp' hname => by
      obtain ⟨q, hq, rfl⟩ := List.mem_map.mp hp'
      rw [eq_of_renamedPath hs hf hok hp hq hname]
  have hlists := h.indexed.wants
  have hbare : '.' ∉ to_.toList := no_dot_to hf hok
  have hfree : ∀ Q, ¬ Wanted (c.schema.fields.eraseIdx pos) Q to_ := by
    rintro Q ⟨g, hg, hname, -⟩
    exact ne_to_of_mem hf hok hg hname
  have hnopath : ∀ Q, ¬ Wanted (c.schema.renameAt f.name to_ pos).paths Q to_ := by
    rintro Q ⟨p, hp, hname, -⟩
    exact hbare (hname ▸ dot_path hs' hp)
  -- the field reads under its new name what it read under the old
  have hread : ∀ r, (c.schema.renameAt f.name to_ pos).reading to_ = some r →
      c.schema.reading f.name = some r := by
    intro r hr
    have hfield := reading_field hs.fields.wf hf
    have hnew := reading_renamedKey hs.fields.wf hf hok hfield
    rw [renamedKey, if_pos rfl, hr] at hnew
    rw [hfield, Option.some.inj hnew]
  have hput := Wants.put hfit.wants (n := to_) (t := c.taken f.name)
    (by
      rw [hschema, wanted_append]
      exact not_or.mpr ⟨hfree _, hnopath _⟩)
    (hfree _)
    (by
      rw [hschema, hstore]
      exact fun d hd ix r hix hr => hlists.hashes.good _ _ (Named.mem_of_lookup hd) ix r hix
        (hread r hr))
    (by
      rw [hschema, hstore]
      exact fun d hd ix r hix hr => hlists.sorted.good _ _ (Named.mem_of_lookup hd) ix r hix
        (hread r hr))
    (by
      rw [hschema, hstore]
      exact fun d hd ix r hix hr => hlists.sparse.good _ _ (Named.mem_of_lookup hd) ix r hix
        (hread r hr))
  have hname : ∀ Q, Wanted (c.schema.fields ++ c.schema.paths) Q f.name ↔ Q f := fun Q =>
    wanted_of_mem (names_nodup hs.checked) (List.mem_append_left _ (List.mem_of_getElem? hf))
  have hmoved : ∀ (Q : Field → Prop) (P : Prop), (P ↔ Q f) → (Q { f with name := to_ } ↔ Q f) →
      ∀ n, (Wanted (c.schema.fields.eraseIdx pos) Q n ∨ n = to_ ∧ P) ↔
        Wanted (c.schema.renameAt f.name to_ pos).fields Q n := by
    intro Q P hP hQ n
    refine Iff.trans ?_ (wanted_modify (fun f => { f with name := to_ }) hf hn).symm
    rw [or_comm, hP, ← hQ]
  have hmovedPath : ∀ (Q : Field → Prop) (P : Prop), (P ↔ Q f) → (Q { f with name := to_ } ↔ Q f) →
      ∀ n, (Wanted (c.schema.fields.eraseIdx pos ++
          (c.schema.renameAt f.name to_ pos).paths) Q n ∨ n = to_ ∧ P) ↔
        Wanted ((c.schema.renameAt f.name to_ pos).fields ++
          (c.schema.renameAt f.name to_ pos).paths) Q n := by
    intro Q P hP hQ n
    rw [wanted_append, wanted_append, ← hmoved Q P hP hQ, or_right_comm]
  have hschema' : (({ c.takeIndexes f.name with schema := c.schema.renameAt f.name to_ pos
      }.fitPaths.fitComposites).putIndexes to_ (c.taken f.name)).schema =
      c.schema.renameAt f.name to_ pos := hschema
  refine ⟨?_, ?_, ⟨?_, hfit.composites, hfit.good⟩⟩
  · rw [hschema']
    exact hs'
  · have hstore' : (({ c.takeIndexes f.name with schema := c.schema.renameAt f.name to_ pos
        }.fitPaths.fitComposites).putIndexes to_ (c.taken f.name)).store = c.store := hstore
    rw [hschema', hstore']
    exact h.rowed.modify (fun f => { f with name := to_ }) (fun _ => rfl) rfl rfl
  · rw [hschema']
    rw [hschema] at hput
    refine hput.imp (hmovedPath Hashes _ ?_ Iff.rfl) (hmovedPath Orders _ ?_ Iff.rfl)
      (hmoved Inverts _ ?_ Iff.rfl)
    · exact (isSome_taken hlists.hashes f.name).trans (hname Hashes)
    · exact (isSome_taken hlists.sorted f.name).trans (hname Orders)
    · exact (isSome_taken hlists.sparse f.name).trans
        (wanted_of_mem hn (List.mem_of_getElem? hf))

/-- **Any change of the fields keeps the collection steady.** -/
theorem steady_alter {change : Alter} (h : c.Steady B) (hok : c.alterCollection B change = .ok c') :
    c'.Steady B := by
  unfold alterCollection at hok
  obtain ⟨ch, hch, hok⟩ := bind_ok hok
  cases hok
  cases change with
  | addField f =>
    have hs' := alter_lawful h.lawful hch
    obtain ⟨g, -, -, -, rfl, hfields⟩ := alter_add h.lawful hch
    have hfit := (h.indexed.fit h.lawful hs' (within_addField hfields).agrees (fun f hf => hf)
      fun p hp p' hp' hname => by
        rw [List.inj_on_of_nodup_map h.lawful.paths_nodup hp' hp hname]).2.1
    have hpos : (c.alterFields ⟨.add, g.name, "", { c.schema with
        fields := c.schema.fields ++ [g] }⟩).schema.fieldPos g.name =
          some c.schema.fields.length := by
      refine fieldPos_of_getElem ?_ ?_
      · show ({ c with schema := { c.schema with fields := c.schema.fields ++ [g] }
          }.fitPaths.fitComposites).schema.WF
        rw [hfit]
        exact hs'.fields.wf
      · show ({ c with schema := { c.schema with fields := c.schema.fields ++ [g] }
          }.fitPaths.fitComposites).schema.fields[c.schema.fields.length]? = some g
        rw [hfit]
        simp
    rw [hpos]
    exact steady_add h hs'
  | dropField name =>
    obtain ⟨pos, f, hf, rfl, rfl⟩ := alter_drop hch
    exact steady_drop h hf
  | renameField name to_ =>
    obtain ⟨pos, f, hf, rfl, rfl, hfields⟩ := alter_rename h.lawful hch
    exact steady_rename h hf hfields
  | ttl name ttl =>
    obtain ⟨pos, f, hf, rfl, ⟨old, hold⟩, hcheck, rfl⟩ := alter_ttl hch
    exact steady_ttl h hf hold hcheck

end

/-! ## 7. Indexes put on and taken off -/

section

variable {B : Build} {no : Refusals} {c c' : Collection} {pos : Nat} {f : Field} {kind : IndexKind}

theorem orRefuse_ok {n : String} (h : c.orRefuse B no kind n = .ok c') :
    c' = c ∧ (kind.isUnique = true → c.refuseShared B no n = .ok ()) := by
  unfold orRefuse at h
  split at h
  · obtain ⟨_, hshared, h⟩ := bind_ok h
    cases h
    exact ⟨rfl, fun _ => hshared⟩
  · next hu =>
    cases h
    exact ⟨rfl, fun hu' => absurd hu' hu⟩

/-- **An index put on a field that has none.** -/
theorem steady_indexField (h : c.Steady B) (hf : c.schema.fields[pos]? = some f)
    (hnone : f.index = .none) (hcheck : kind.check f.name f.ty = .ok ()) :
    ({ c with schema := c.schema.indexAt pos kind.resolved }.buildIndex B pos).Steady B := by
  have hs := h.lawful
  have hn := hs.fields.nodup
  have hs' := lawful_indexAt (k := kind.resolved) hs hf ((check_resolved _ _ _).trans hcheck)
    (resolved_resolved kind)
  have ha := (within_indexAt hs.fields.wf hf kind.resolved).agrees
  have hf' : (c.schema.indexAt pos kind.resolved).fields[pos]? =
      some { f with index := kind.resolved } := by simp [Schema.indexAt, hf]
  have hbuilt := Wants.build (h.indexed.reread hs ha fun g hg => hg) hs' hf'
  obtain ⟨hschema, hstore, hcomps⟩ := buildIndex_rest (B := B)
    { c with schema := c.schema.indexAt pos kind.resolved } pos
  -- the field was wanted for no index before
  have hall : ∀ Q : Field → Prop, ¬ Q f → ∀ n,
      (Wanted c.schema.fields Q n ∨ n = f.name ∧ Q { f with index := kind.resolved }) ↔
        Wanted (c.schema.indexAt pos kind.resolved).fields Q n := by
    intro Q hQ n
    refine Iff.trans ?_ (wanted_modify (fun f => { f with index := kind.resolved }) hf hn).symm
    rw [wanted_at hf hn, or_comm]
    simp [hQ]
  have hallPath : ∀ Q : Field → Prop, ¬ Q f → ∀ n,
      (Wanted (c.schema.fields ++ c.schema.paths) Q n ∨
        n = f.name ∧ Q { f with index := kind.resolved }) ↔
        Wanted ((c.schema.indexAt pos kind.resolved).fields ++ c.schema.paths) Q n := by
    intro Q hQ n
    rw [wanted_append, wanted_append, ← hall Q hQ, or_right_comm]
  refine ⟨?_, ?_, ⟨?_, ?_, ?_⟩⟩
  · rw [hschema]
    exact hs'
  · rw [hschema, hstore]
    exact h.rowed.modify (fun f => { f with index := kind.resolved }) (fun _ => rfl) rfl rfl
  · rw [hschema]
    refine hbuilt.imp (hallPath Hashes ?_) (hallPath Orders ?_) (hall Inverts ?_)
    · simp [Hashes, hnone]
    · simp [Orders, hnone]
    · simp [Inverts, hnone]
  · rw [hcomps, hschema]
    exact h.indexed.composites
  · intro k d hd
    rw [hcomps] at hd
    rw [hschema, hstore]
    have hk : k ∈ c.schema.composites := by
      rw [← h.indexed.composites]
      exact List.mem_map_of_mem (f := (·.1)) hd
    exact good_agrees hs hs' ha hk hk (h.indexed.good k d hd)

/-- **An index put on a path that has none.** -/
theorem steady_indexPath {p : Field} (h : c.Steady B) (hp : PathOk c.schema p)
    (hnone : c.schema.path p.name = none) :
    ({ c with schema := c.schema.addPath p }.buildPathIndex B p.name).Steady B := by
  have hs := h.lawful
  have hs' := lawful_addPath hs hp hnone
  have ha : c.schema.Agrees (c.schema.addPath p) := Schema.Within.agrees fun _ _ h => h
  have hbuilt := Wants.buildPath (h.indexed.reread hs ha fun g hg => hg) hs'
    (mem_addPath.mpr (.inl rfl))
  obtain ⟨hschema, hstore, hcomps⟩ := buildPathIndex_rest (B := B)
    { c with schema := c.schema.addPath p } p.name
  have hall : ∀ Q n, (Wanted (c.schema.fields ++ c.schema.paths) Q n ∨ n = p.name ∧ Q p) ↔
      Wanted (c.schema.fields ++ (c.schema.addPath p).paths) Q n := by
    intro Q n
    have hnew : Wanted (c.schema.addPath p).paths Q n ↔
        n = p.name ∧ Q p ∨ Wanted c.schema.paths Q n := by
      constructor
      · rintro ⟨q, hq, rfl, hQ⟩
        rcases mem_addPath.mp hq with rfl | hq
        · exact .inl ⟨rfl, hQ⟩
        · exact .inr ⟨q, hq, rfl, hQ⟩
      · rintro (⟨rfl, hQ⟩ | ⟨q, hq, rfl, hQ⟩)
        · exact ⟨p, mem_addPath.mpr (.inl rfl), rfl, hQ⟩
        · exact ⟨q, mem_addPath.mpr (.inr hq), rfl, hQ⟩
    rw [wanted_append, wanted_append, hnew, or_assoc, or_comm (a := Wanted c.schema.paths Q n)]
  refine ⟨?_, ?_, ⟨?_, ?_, ?_⟩⟩
  · rw [hschema]
    exact hs'
  · rw [hschema, hstore]
    exact ⟨h.rowed.fits, h.rowed.below, h.rowed.short⟩
  · rw [hschema]
    exact hbuilt.imp (hall Hashes) (hall Orders) fun _ => Iff.rfl
  · rw [hcomps, hschema]
    exact h.indexed.composites
  · intro k d hd
    rw [hcomps] at hd
    rw [hschema, hstore]
    have hk : k ∈ c.schema.composites := by
      rw [← h.indexed.composites]
      exact List.mem_map_of_mem (f := (·.1)) hd
    exact good_agrees hs hs' ha hk hk (h.indexed.good k d hd)

/-- **`create index` on a field or a path keeps the collection steady.** -/
theorem steady_createIndex {field : String} {ifNotExists : Bool} (h : c.Steady B)
    (hok : c.createIndex B no field kind ifNotExists = .ok c') : c'.Steady B := by
  unfold createIndex at hok
  obtain ⟨target, htarget, hok⟩ := bind_ok hok
  cases target with
  | done =>
    cases hok
    exact h
  | field pos =>
    obtain ⟨f, hf, rfl, hnone, hcheck⟩ := checkIndex_field h.lawful htarget
    obtain ⟨rfl, -⟩ := orRefuse_ok hok
    exact steady_indexField h hf hnone hcheck
  | path =>
    obtain ⟨hdotted, hreads, hnone, hon⟩ := checkIndex_path h.lawful htarget
    obtain ⟨rfl, -⟩ := orRefuse_ok hok
    refine steady_indexPath (p := ⟨field, .json, kind.resolved, false, none, false⟩) h
      ⟨rfl, ⟨rfl, rfl⟩, ?_, hdotted, hreads⟩ hnone
    cases kind <;> first | rfl | cases hon

/-- An index over several fields put on, built. -/
theorem steady_compose {k : Composite} (h : c.Steady B) (hk : CompositeOk c.schema k) :
    (c.compose B k).Steady B := by
  have hs := h.lawful
  have hs' : Schema.Lawful { c.schema with composites := c.schema.composites ++ [k] } :=
    { fields := hs.fields
      paths_nodup := hs.paths_nodup
      path := fun p hp => (hs.path p hp).within fun _ _ h => h
      composite := fun k' hk' => by
        rcases List.mem_append.mp hk' with hk' | hk'
        · exact (hs.composite k' hk').within fun _ _ h => h
        · rw [List.mem_singleton.mp hk']
          exact hk.within fun _ _ h => h }
  have ha : c.schema.Agrees { c.schema with composites := c.schema.composites ++ [k] } :=
    Schema.Within.agrees fun _ _ h => h
  have hfit : Steady B ({ c with schema := { c.schema with
      composites := c.schema.composites ++ [k] } }.fitComposites) :=
    { lawful := hs'
      rowed := ⟨h.rowed.fits, h.rowed.below, h.rowed.short⟩
      indexed := by
        refine ⟨?_, names_fitComposite _ _, fun k' d hd => h.indexed.good_fitComposite hs hs' ha hd⟩
        have hwants := h.indexed.reread hs ha fun g hg => hg
        exact ⟨hwants.hashes, hwants.sorted, hwants.sparse⟩ }
  exact steady_of_sound hs' (hfit.sound.alongside (alongside_buildComposite _) rfl)
    (buildComposite_kept hfit.sound hfit.kept _)

theorem orRefuseLast_ok {k : Composite} (h : c.orRefuseLast no k = .ok c') : c' = c := by
  unfold orRefuseLast at h
  split at h
  · split at h
    · cases h
    · cases h
      rfl
  · cases h
  · cases h
    rfl

/-- **`create index` on several fields keeps the collection steady.** -/
theorem steady_createComposite {k : Composite} {ifNotExists : Bool} (h : c.Steady B)
    (hok : c.createComposite B no k ifNotExists = .ok c') : c'.Steady B := by
  unfold createComposite at hok
  obtain ⟨o, ho, hok⟩ := bind_ok hok
  cases o with
  | some there =>
    dsimp only at hok
    split at hok
    · cases hok
      exact h
    · cases hok
  | none =>
    rw [orRefuseLast_ok hok]
    exact steady_compose h (checkComposite_ok ho)

/-- **Taking an index over several fields off keeps the collection steady.** -/
theorem steady_dropComposite {keys : List String} {ifExists : Bool} (h : c.Steady B)
    (hok : c.dropComposite keys ifExists = .ok c') : c'.Steady B := by
  unfold dropComposite at hok
  split at hok
  · split at hok
    · cases hok
      exact h
    · cases hok
  · next i _ =>
    cases hok
    have hs := h.lawful
    have hs' : Schema.Lawful { c.schema with composites := c.schema.composites.eraseIdx i } :=
      hs.within (fun _ _ h => h) hs.fields rfl fun k hk => (List.eraseIdx_sublist _ _).subset hk
    have ha : c.schema.Agrees { c.schema with composites := c.schema.composites.eraseIdx i } :=
      Schema.Within.agrees fun _ _ h => h
    refine ⟨hs', ⟨h.rowed.fits, h.rowed.below, h.rowed.short⟩, ⟨?_, ?_, fun k d hd => ?_⟩⟩
    · have hwants := h.indexed.reread hs ha fun g hg => hg
      exact ⟨hwants.hashes, hwants.sorted, hwants.sparse⟩
    · show (c.composites.eraseIdx i).map (·.1) = c.schema.composites.eraseIdx i
      rw [← h.indexed.composites, List.eraseIdx_map]
    · have hnames : (c.composites.eraseIdx i).map (·.1) = c.schema.composites.eraseIdx i := by
        rw [← h.indexed.composites, List.eraseIdx_map]
      have hk' : k ∈ c.schema.composites.eraseIdx i := by
        rw [← hnames]
        exact List.mem_map_of_mem (f := (·.1)) hd
      exact good_agrees hs hs' ha ((List.eraseIdx_sublist _ _).subset hk') hk'
        (h.indexed.good k d ((List.eraseIdx_sublist _ _).subset hd))

end

end Collection

end Fenec
