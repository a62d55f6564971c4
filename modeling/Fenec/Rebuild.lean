/-
# What a rebuild makes

`hashOf`, `sortedOf`, `sparseOf` and `compositeOf` build an index from the rows stored now.  Each
holds, in the sense of its filing, what the rows read (`hashOf_holds` and its siblings), so that
an index first asked for in the middle of a run starts out kept (`buildHash_kept` and its
siblings), and so does a collection with no rows yet (`Collection.new`).

What an index holds of given rows is all there is to it: `Collection.Kept.rebuilt` says of each
built index that it has exactly the entries a rebuild would file.
-/
import Fenec.Kept

namespace Fenec

open Lib Case

/-! ## 1. A rebuild holds the rows -/

theorem mapM_eq_pure {m : Type → Type} [Monad m] [LawfulMonad m] {α β : Type} {f : α → m β}
    {g : α → β} {l : List α} (h : ∀ a ∈ l, f a = pure (g a)) : l.mapM f = pure (l.map g) := by
  induction l with
  | nil => simp
  | cons a l ih =>
    rw [List.mapM_cons, h a (List.mem_cons_self ..), ih fun b hb => h b (List.mem_cons_of_mem _ hb)]
    simp

section

variable (B : Build) (s : Schema) (st : Store)

theorem hashOf_holds (src : Nat × Option String) (fold : Option CaseFold) :
    (hashFiling B fold).Holds (hashOf B s st src fold) (columnOf s st src).entries :=
  Filing.holds_foldl (F := hashFiling B fold) rfl _

theorem sparseOf_holds (pos : Nat) :
    sparseFiling.Holds (sparseOf s st pos) (columnOf s st (pos, none)).entries := by
  refine Filing.holds_foldl (F := sparseFiling) ⟨fun i id w => ?_, rfl⟩ _
  constructor
  · intro h
    cases h
  · rintro ⟨v, hv, -⟩
    cases hv

theorem entered_text_build (order : TextOrder) (rows : List (DocId × Option Value)) :
    (SortedIndex.build B .text order rows).Entered B rows where
  keys := SortedIndex.sorted_perm _ _
  nulls := SortedIndex.sorted_perm _ _
  nans := by
    -- no text is filed where a float that is no number would be
    have hnil : SortedIndex.keysOf (fun v => (textSlot B v order.fold).only .nan "") rows = [] := by
      unfold SortedIndex.keysOf
      rw [List.filterMap_eq_nil_iff]
      intro r _
      simp [KeySlot.only, SortedIndex.textSlot_ne_nan]
    rw [hnil]

theorem entered_num_build (rows : List (DocId × Option Value)) :
    (SortedIndex.build B .int .bytes rows).Entered B rows where
  keys := SortedIndex.sorted_perm _ _
  nulls := SortedIndex.sorted_perm _ _
  nans := SortedIndex.sorted_perm _ _

theorem sortedOf_holds (f : Field) (src : Nat × Option String) :
    (sortedFiling B (.of f.ty f.textOrder)).Holds (sortedOf B s st f src)
      ((columnOf s st src).map fun _ v => some v).entries := by
  unfold sortedOf SortedShape.of
  cases f.ty with
  | text => exact ⟨rfl, entered_text_build B _ _⟩
  | json =>
    have hnew : (sortedFiling B .json).Holds (.new .json .bytes) [] :=
      ⟨rfl, List.Perm.nil, List.Perm.nil, List.Perm.nil, List.Perm.nil⟩
    exact Filing.holds_foldl hnew ((columnOf s st src).map fun _ v => some v)
  | _ => exact ⟨rfl, entered_num_build B _⟩

theorem compositeParts_eq (hs : s.Checked) {k : Composite} (hk : k ∈ s.composites) :
    compositeParts s k = some (Collection.partsAt s k) := by
  refine mapM_eq_pure fun key hkey => ?_
  obtain ⟨ty, hty, -⟩ := hs.composites_part k hk key hkey
  simp [Collection.typeAt, hty]

theorem sourceOrErr_eq {n : String} {src : Nat × Option String} (h : source s n = some src) :
    s.sourceOrErr n = .ok src := by
  unfold source at h
  unfold Schema.sourceOrErr
  cases hpath : s.pathOf n with
  | error e =>
    rw [hpath] at h
    cases h
  | ok o =>
    rw [hpath] at h
    cases o with
    | some pk =>
      cases h
      rfl
    | none =>
      obtain ⟨p, hp, rfl⟩ := Option.map_eq_some_iff.mp h
      simp only [hp, Result.ok_bind, Result.pure_eq]

theorem sourcesAt_eq (hs : s.Checked) {k : Composite} (hk : k ∈ s.composites) :
    (k.keys.mapM fun k => s.sourceOrErr k.1) = .ok (Collection.sourcesAt s k) := by
  refine mapM_eq_pure fun key hkey => ?_
  obtain ⟨src, g, hr⟩ := Collection.partReads hs hk hkey
  rw [sourceOrErr_eq s hr.source, hr.source]
  rfl

/-- **A rebuild of a declared composite is never refused, and holds the rows.** -/
theorem compositeOf_holds (hs : s.Checked) {k : Composite} (hk : k ∈ s.composites) :
    ∃ ix, compositeOf B s st k = .ok ix ∧ (compositeFiling B (Collection.partsAt s k)).Holds ix
      (tuplesOf s st (Collection.sourcesAt s k)).entries := by
  refine ⟨.build B (Collection.partsAt s k)
    ((tuplesOf s st (Collection.sourcesAt s k)).entries.map fun r =>
      (r.1, CompositeIndex.rowKey B (Collection.partsAt s k) r.2)), ?_, rfl, ?_, ?_⟩
  · unfold compositeOf
    rw [compositeParts_eq s hs hk]
    dsimp only
    rw [sourcesAt_eq s hs hk]
    rfl
  · refine (SortedIndex.sorted_perm _ _).trans ?_
    rw [List.map_map]
    rfl
  · refine (List.mergeSort_perm _ _).trans ?_
    rw [List.filter_map, List.map_map]
    rfl

end

namespace Collection

variable {B : Build} {c : Collection}

/-! ## 2. Indexes built when they are asked for -/

theorem orBuild_eq_built {α : Type} {d : Derived α} {r : Result α} {ix : α}
    (h : d.orBuild r = .built ix) : d = .built ix ∨ r = .ok ix := by
  unfold Derived.orBuild at h
  split at h
  · split at h
    · cases h
      exact .inr rfl
    · cases h
  · exact .inl h

theorem mem_buildHash {name n : String} {ix : HashIndex}
    (h : (n, .built ix) ∈ (c.buildHash B name).hashes) :
    (n, .built ix) ∈ c.hashes ∨ ∃ src, source c.schema n = some src ∧
      ix = hashOf B c.schema c.store src ((c.schema.indexed n).bind Field.caseFold) := by
  obtain ⟨⟨m, d⟩, hmem, heq⟩ := List.mem_map.mp h
  obtain ⟨rfl, hd⟩ := Prod.mk.inj heq
  split at hd
  · unfold builtHash at hd
    split at hd
    · next src hsrc =>
      rcases orBuild_eq_built hd with hd | hix
      · exact .inl (hd ▸ hmem)
      · cases hix
        exact .inr ⟨src, hsrc, rfl⟩
    · exact .inl (hd ▸ hmem)
  · exact .inl (hd ▸ hmem)

theorem mem_buildSorted {name n : String} {ix : SortedIndex}
    (h : (n, .built ix) ∈ (c.buildSorted B name).sorted) :
    (n, .built ix) ∈ c.sorted ∨ ∃ src f, source c.schema n = some src ∧
      c.schema.indexed n = some f ∧ ix = sortedOf B c.schema c.store f src := by
  obtain ⟨⟨m, d⟩, hmem, heq⟩ := List.mem_map.mp h
  obtain ⟨rfl, hd⟩ := Prod.mk.inj heq
  split at hd
  · split at hd
    · next src f hsrc hf =>
      rcases orBuild_eq_built hd with rfl | hix
      · exact .inl hmem
      · cases hix
        exact .inr ⟨src, f, hsrc, hf, rfl⟩
    · exact .inl (hd ▸ hmem)
  · exact .inl (hd ▸ hmem)

theorem mem_buildSparse {name n : String} {ix : SparseIndex}
    (h : (n, .built ix) ∈ (c.buildSparse name).sparse) :
    (n, .built ix) ∈ c.sparse ∨ ∃ pos, c.schema.fieldPos n = some pos ∧
      ix = sparseOf c.schema c.store pos := by
  obtain ⟨⟨m, d⟩, hmem, heq⟩ := List.mem_map.mp h
  obtain ⟨rfl, hd⟩ := Prod.mk.inj heq
  split at hd
  · split at hd
    · next pos hpos =>
      rcases orBuild_eq_built hd with rfl | hix
      · exact .inl hmem
      · cases hix
        exact .inr ⟨pos, hpos, rfl⟩
    · exact .inl (hd ▸ hmem)
  · exact .inl (hd ▸ hmem)

theorem mem_buildComposite {i : Nat} {k : Composite} {ix : CompositeIndex}
    (h : (k, .built ix) ∈ (c.buildComposite B i).composites) :
    (k, .built ix) ∈ c.composites ∨
      (∃ d, (k, d) ∈ c.composites) ∧ compositeOf B c.schema c.store k = .ok ix := by
  obtain ⟨j, hj, hget⟩ := List.mem_iff_getElem.mp h
  simp only [buildComposite, List.getElem_modify] at hget
  split at hget
  · obtain ⟨hk, hd⟩ := Prod.mk.inj hget
    have hmem : (k, (c.composites.get ⟨j, by simpa [buildComposite] using hj⟩).2) ∈
        c.composites := by
      rw [← hk]
      exact List.get_mem ..
    rcases orBuild_eq_built hd with hbuilt | hix
    · refine .inl ?_
      rw [← hbuilt]
      exact hmem
    · exact .inr ⟨⟨_, hmem⟩, hk ▸ hix⟩
  · exact .inl (hget ▸ List.getElem_mem _)

theorem alongside_buildHash (name : String) : Alongside c (c.buildHash B name) :=
  ⟨rfl, by simp [buildHash, Function.comp_def], rfl, rfl, rfl⟩

theorem alongside_buildSorted (name : String) : Alongside c (c.buildSorted B name) :=
  ⟨rfl, rfl, by simp [buildSorted, Function.comp_def], rfl, rfl⟩

theorem alongside_buildSparse (name : String) : Alongside c (c.buildSparse name) :=
  ⟨rfl, rfl, rfl, by simp [buildSparse, Function.comp_def], rfl⟩

theorem alongside_buildComposite (i : Nat) : Alongside c (c.buildComposite B i) := by
  refine ⟨rfl, rfl, rfl, rfl, ?_⟩
  apply List.ext_getElem
  · simp [buildComposite]
  · intro j h₁ h₂
    simp only [buildComposite, List.getElem_map, List.getElem_modify]
    split <;> rfl

/-- A collection with the same rows and the same indexes by name is as sound. -/
theorem Sound.alongside {c c' : Collection} (hc : c.Sound) (h : Alongside c c')
    (hst : c'.store = c.store) : c'.Sound where
  checked := by rw [h.schema]; exact hc.checked
  declared := hc.declared.alongside h
  fits := by
    intro id p hp
    rw [hst] at hp
    rw [h.schema]
    exact hc.fits id p hp
  below := by
    rw [hst]
    exact hc.below
  short := by
    rw [hst, h.schema]
    exact hc.short

theorem buildHash_kept (hk : c.Kept B) (name : String) : (c.buildHash B name).Kept B :=
  { hk with
    hashes := by
      intro n ix hix f src hf hn
      rcases mem_buildHash hix with hix | ⟨src', hsrc, rfl⟩
      · exact hk.hashes n ix hix f src hf hn
      · have hsame : src' = src := by
          have := hf.source
          rw [hn] at this
          exact Option.some.inj (hsrc.symm.trans this)
        have hfold : (c.schema.indexed n).bind Field.caseFold = f.caseFold := by
          have := hf.indexed
          rw [hn] at this
          rw [show c.schema.indexed n = some f from this]
          rfl
        rw [hsame, hfold]
        exact hashOf_holds B c.schema c.store src f.caseFold }

theorem buildSorted_kept (hk : c.Kept B) (name : String) : (c.buildSorted B name).Kept B :=
  { hk with
    sorted := by
      intro n ix hix f src hf hn
      rcases mem_buildSorted hix with hix | ⟨src', g, hsrc, hg, rfl⟩
      · exact hk.sorted n ix hix f src hf hn
      · have hsame : src' = src := by
          have := hf.source
          rw [hn] at this
          exact Option.some.inj (hsrc.symm.trans this)
        have hfield : g = f := by
          have := hf.indexed
          rw [hn] at this
          exact Option.some.inj (hg.symm.trans this)
        rw [hsame, hfield]
        exact sortedOf_holds B c.schema c.store f src }

theorem buildSparse_kept (hc : c.Sound) (hk : c.Kept B) (name : String) :
    (c.buildSparse name).Kept B :=
  { hk with
    sparse := by
      intro n ix hix f pos hf hn
      rcases mem_buildSparse hix with hix | ⟨pos', hpos, rfl⟩
      · exact hk.sparse n ix hix f pos hf hn
      · have hsame : pos' = pos := by
          have := fieldPos_of_getElem hc.checked.toWF hf
          rw [hn] at this
          exact Option.some.inj (hpos.symm.trans this)
        rw [hsame]
        exact sparseOf_holds c.schema c.store pos }

theorem buildComposite_kept (hc : c.Sound) (hk : c.Kept B) (i : Nat) :
    (c.buildComposite B i).Kept B :=
  { hk with
    composites := by
      intro k ix hix
      rcases mem_buildComposite hix with hix | ⟨⟨d, hd⟩, hix⟩
      · exact hk.composites k ix hix
      · obtain ⟨ix', hix', hholds⟩ :=
          compositeOf_holds B c.schema c.store hc.checked (hc.declared.composite hd)
        rw [hix] at hix'
        cases hix'
        exact hholds }

/-! ## 3. A new collection -/

/-- `Collection::new`: no rows, and every index of the schema built over none. -/
def new (id : Nat) (s : Schema) : Collection where
  id := id
  schema := s
  store := .new
  hashes := (s.fields ++ s.paths).filterMap fun f => match f.index with
    | .hash _ => some (f.name, .built (.folding f.caseFold))
    | _ => none
  sorted := (s.fields ++ s.paths).filterMap fun f => match f.index with
    | .sorted _ =>
      if orderable f.ty then some (f.name, .built (.new f.ty f.textOrder)) else none
    | _ => none
  sparse := (s.fields ++ s.paths).filterMap fun f => match f.index, f.ty with
    | .inverted, .sparse _ => some (f.name, .built .new)
    | _, _ => none
  composites := s.composites.map fun k => (k, match compositeParts s k with
    | some parts => .built (.new parts)
    | none => .unbuilt)

theorem mem_new_hashes {id : Nat} {s : Schema} {n : String} {d : Derived HashIndex}
    (h : (n, d) ∈ (new id s).hashes) : ∃ f ∈ s.fields ++ s.paths, f.name = n ∧
      (∃ u, f.index = .hash u) ∧ d = .built (.folding f.caseFold) := by
  obtain ⟨f, hf, heq⟩ := List.mem_filterMap.mp h
  split at heq
  · next u hu =>
    cases heq
    exact ⟨f, hf, rfl, ⟨u, hu⟩, rfl⟩
  · cases heq

theorem mem_new_sorted {id : Nat} {s : Schema} {n : String} {d : Derived SortedIndex}
    (h : (n, d) ∈ (new id s).sorted) : ∃ f ∈ s.fields ++ s.paths, f.name = n ∧
      orderable f.ty = true ∧ (∃ ttl, f.index = .sorted ttl) ∧
      d = .built (.new f.ty f.textOrder) := by
  obtain ⟨f, hf, heq⟩ := List.mem_filterMap.mp h
  split at heq
  · next ttl httl =>
    split at heq
    · next hord =>
      cases heq
      exact ⟨f, hf, rfl, hord, ⟨ttl, httl⟩, rfl⟩
    · cases heq
  · cases heq

theorem mem_new_sparse {id : Nat} {s : Schema} (hs : s.Checked) {n : String}
    {d : Derived SparseIndex} (h : (n, d) ∈ (new id s).sparse) : ∃ f ∈ s.fields, f.name = n ∧
      (∃ d, f.ty = .sparse d) ∧ f.index = .inverted ∧ d = .built .new := by
  obtain ⟨f, hf, heq⟩ := List.mem_filterMap.mp h
  split at heq
  · next dim hix hty =>
    cases heq
    refine ⟨f, ?_, rfl, ⟨dim, hty⟩, hix, rfl⟩
    rcases List.mem_append.mp hf with hf | hf
    · exact hf
    · -- a path is json
      rw [hs.paths_json f hf] at hty
      cases hty
  · cases heq

/-- No path is named as a field is, so a name stands once among both. -/
theorem names_nodup {s : Schema} (hs : s.Checked) :
    ((s.fields ++ s.paths).map (·.name)).Nodup := by
  rw [List.map_append, List.nodup_append]
  refine ⟨hs.nodup, hs.paths_nodup, ?_⟩
  intro a ha b hb hab
  obtain ⟨f, hf, rfl⟩ := List.mem_map.mp ha
  obtain ⟨p, hp, rfl⟩ := List.mem_map.mp hb
  obtain ⟨pos, keys, hpath⟩ := hs.paths_read p hp
  obtain ⟨g, -, hsplit, -⟩ := pathOf_eq_some hpath
  rw [← hab, splitPath_eq_none (hs.no_dot f hf)] at hsplit
  cases hsplit

theorem names_sublist {α : Type} {l : List Field} {g : Field → Option (String × α)}
    (hg : ∀ f kd, g f = some kd → kd.1 = f.name) :
    ((l.filterMap g).map (·.1)).Sublist (l.map (·.name)) := by
  induction l with
  | nil => exact List.Sublist.slnil
  | cons f l ih =>
    rw [List.filterMap_cons, List.map_cons]
    split
    · exact ih.cons _
    · next kd hkd =>
      rw [List.map_cons, hg f kd hkd]
      exact ih.cons_cons _

theorem declared_new (id : Nat) {s : Schema} (hs : s.Checked) : (new id s).Declared where
  hashes := by
    intro n
    constructor
    · intro h
      obtain ⟨⟨m, d⟩, hmem, rfl⟩ := List.mem_map.mp h
      obtain ⟨f, hf, hn, hu, -⟩ := mem_new_hashes hmem
      exact ⟨f, hf, hn, hu⟩
    · rintro ⟨f, hf, rfl, u, hu⟩
      refine List.mem_map.mpr ⟨(f.name, .built (.folding f.caseFold)), ?_, rfl⟩
      exact List.mem_filterMap.mpr ⟨f, hf, by rw [hu]⟩
  hashes_nodup := by
    refine (names_sublist fun f kd h => ?_).nodup (names_nodup hs)
    split at h
    · cases h
      rfl
    · cases h
  sorted := by
    intro n
    constructor
    · intro h
      obtain ⟨⟨m, d⟩, hmem, rfl⟩ := List.mem_map.mp h
      obtain ⟨f, hf, hn, hord, httl, -⟩ := mem_new_sorted hmem
      exact ⟨f, hf, hn, hord, httl⟩
    · rintro ⟨f, hf, rfl, hord, ttl, httl⟩
      refine List.mem_map.mpr ⟨(f.name, .built (.new f.ty f.textOrder)), ?_, rfl⟩
      exact List.mem_filterMap.mpr ⟨f, hf, by rw [httl]; simp [hord]⟩
  sorted_nodup := by
    refine (names_sublist fun f kd h => ?_).nodup (names_nodup hs)
    split at h
    · split at h
      · cases h
        rfl
      · cases h
    · cases h
  sparse := by
    intro n
    constructor
    · intro h
      obtain ⟨⟨m, d⟩, hmem, rfl⟩ := List.mem_map.mp h
      obtain ⟨f, hf, hn, hty, hix, -⟩ := mem_new_sparse hs hmem
      exact ⟨f, hf, hn, hty, hix⟩
    · rintro ⟨f, hf, rfl, ⟨dim, hty⟩, hix⟩
      refine List.mem_map.mpr ⟨(f.name, .built .new), ?_, rfl⟩
      exact List.mem_filterMap.mpr ⟨f, List.mem_append_left _ hf, by rw [hix, hty]⟩
  sparse_nodup := by
    refine (names_sublist fun f kd h => ?_).nodup (names_nodup hs)
    split at h
    · cases h
      rfl
    · cases h
  composites := by simp [new, Function.comp_def]

theorem sound_new (id : Nat) {s : Schema} (hs : s.Checked) : (new id s).Sound where
  checked := hs
  declared := declared_new id hs
  fits := by
    intro j p hp
    cases hp
  below := by
    intro j p hp
    cases hp
  short := by
    intro j p hp
    cases hp

theorem kept_new (id : Nat) {s : Schema} (hs : s.Checked) : (new id s).Kept B where
  hashes := by
    intro n ix hix f src hf hn
    obtain ⟨g, hg, hgn, -, heq⟩ := mem_new_hashes hix
    cases heq
    obtain ⟨src', hg'⟩ := reads_declared hs hg
    obtain ⟨rfl, -⟩ := reads_unique hf hg' (hn.trans hgn.symm)
    rfl
  sorted := by
    intro n ix hix f src hf hn
    obtain ⟨g, hg, hgn, -, -, heq⟩ := mem_new_sorted hix
    cases heq
    obtain ⟨src', hg'⟩ := reads_declared hs hg
    obtain ⟨rfl, -⟩ := reads_unique hf hg' (hn.trans hgn.symm)
    unfold SortedIndex.new SortedShape.of
    cases f.ty with
    | json => exact ⟨rfl, List.Perm.nil, List.Perm.nil, List.Perm.nil, List.Perm.nil⟩
    | _ => exact ⟨rfl, List.Perm.nil, List.Perm.nil, List.Perm.nil⟩
  sparse := by
    intro n ix hix f pos hf hn
    obtain ⟨g, -, -, -, -, heq⟩ := mem_new_sparse hs hix
    cases heq
    exact sparseOf_holds s .new pos
  composites := by
    intro k ix hix
    obtain ⟨k', hk', heq⟩ := List.mem_map.mp hix
    obtain ⟨rfl, hd⟩ := Prod.mk.inj heq
    rw [compositeParts_eq s hs hk'] at hd
    cases hd
    exact ⟨rfl, List.Perm.nil, List.Perm.nil⟩

/-! ## 4. The same entries -/

end Collection

/-- The same entries, whatever their order is. -/
def SortedIndex.Same : SortedIndex → SortedIndex → Prop
  | .num o, .num o' => o.keys.Perm o'.keys ∧ o.nulls.Perm o'.nulls ∧ o.nans.Perm o'.nans
  | .text order o, .text order' o' =>
    order = order' ∧ o.keys.Perm o'.keys ∧ o.nulls.Perm o'.nulls ∧ o.nans.Perm o'.nans
  | .json j, .json j' => j.num.Perm j'.num ∧ j.text.Perm j'.text ∧ j.nulls.Perm j'.nulls ∧
    j.apart.Perm j'.apart
  | _, _ => False

/-- The same weights, of as many rows. -/
def SparseIndex.Same (ix ix' : SparseIndex) : Prop :=
  (∀ i id, ix.weight i id = ix'.weight i id) ∧ ix.docs = ix'.docs

/-- The same entries over the same parts. -/
def CompositeIndex.Same (ix ix' : CompositeIndex) : Prop :=
  ix.parts = ix'.parts ∧ ix.keys.Perm ix'.keys ∧ ix.apart.Perm ix'.apart

theorem sorted_same {B : Build} {sh : SortedShape} {ix ix' : SortedIndex}
    {l : List (DocId × Option Value)} (h : (sortedFiling B sh).Holds ix l)
    (h' : (sortedFiling B sh).Holds ix' l) : ix.Same ix' := by
  obtain ⟨hsh, he⟩ := h
  obtain ⟨hsh', he'⟩ := h'
  have heq := hsh.trans hsh'.symm
  cases ix with
  | num o =>
    cases ix' with
    | num o' => exact ⟨he.keys.trans he'.keys.symm, he.nulls.trans he'.nulls.symm,
        he.nans.trans he'.nans.symm⟩
    | text _ _ => cases heq
    | json _ => cases heq
  | text order o =>
    cases ix' with
    | num _ => cases heq
    | text order' o' =>
      cases heq
      exact ⟨rfl, he.keys.trans he'.keys.symm, he.nulls.trans he'.nulls.symm,
        he.nans.trans he'.nans.symm⟩
    | json _ => cases heq
  | json j =>
    cases ix' with
    | num _ => cases heq
    | text _ _ => cases heq
    | json j' => exact ⟨he.num.trans he'.num.symm, he.text.trans he'.text.symm,
        he.nulls.trans he'.nulls.symm, he.apart.trans he'.apart.symm⟩

theorem sparse_same {ix ix' : SparseIndex} {l : List (DocId × Value)}
    (h : sparseFiling.Holds ix l) (h' : sparseFiling.Holds ix' l) : ix.Same ix' := by
  refine ⟨fun i id => ?_, h.docs.trans h'.docs.symm⟩
  apply Option.ext
  intro w
  exact (h.weights i id w).trans (h'.weights i id w).symm

theorem composite_same {B : Build} {parts : List Part} {ix ix' : CompositeIndex}
    {l : List (DocId × List Value)} (h : (compositeFiling B parts).Holds ix l)
    (h' : (compositeFiling B parts).Holds ix' l) : ix.Same ix' :=
  ⟨h.parts_eq.trans h'.parts_eq.symm, h.keys.trans h'.keys.symm, h.apart.trans h'.apart.symm⟩

namespace Collection

variable {B : Build} {c : Collection}

/-- **Every built index is the one a rebuild from the rows stored now would make.** -/
structure Rebuilt (B : Build) (c : Collection) : Prop where
  hashes : ∀ n ix, (n, .built ix) ∈ c.hashes → ∃ src, source c.schema n = some src ∧
    ix = hashOf B c.schema c.store src ((c.schema.indexed n).bind Field.caseFold)
  sorted : ∀ n ix, (n, .built ix) ∈ c.sorted → ∃ src f, source c.schema n = some src ∧
    c.schema.indexed n = some f ∧ ix.Same (sortedOf B c.schema c.store f src)
  sparse : ∀ n ix, (n, .built ix) ∈ c.sparse → ∃ pos, c.schema.fieldPos n = some pos ∧
    ix.Same (sparseOf c.schema c.store pos)
  composites : ∀ k ix, (k, .built ix) ∈ c.composites →
    ∃ ix', compositeOf B c.schema c.store k = .ok ix' ∧ ix.Same ix'

/-- **A kept index is the rebuilt one.** -/
theorem Kept.rebuilt (hc : c.Sound) (hk : c.Kept B) : c.Rebuilt B where
  hashes := by
    intro n ix hix
    obtain ⟨f, hf, rfl, -⟩ := (hc.declared.hashes n).mp (List.mem_map_of_mem hix)
    obtain ⟨src, hr⟩ := reads_declared hc.checked hf
    refine ⟨src, hr.source, ?_⟩
    rw [hr.indexed]
    exact (hk.hashes _ ix hix f src hr rfl).trans
      (hashOf_holds B c.schema c.store src f.caseFold).symm
  sorted := by
    intro n ix hix
    obtain ⟨f, hf, rfl, -⟩ := (hc.declared.sorted n).mp (List.mem_map_of_mem hix)
    obtain ⟨src, hr⟩ := reads_declared hc.checked hf
    exact ⟨src, f, hr.source, hr.indexed, sorted_same (hk.sorted _ ix hix f src hr rfl)
      (sortedOf_holds B c.schema c.store f src)⟩
  sparse := by
    intro n ix hix
    obtain ⟨f, hf, rfl, -⟩ := (hc.declared.sparse n).mp (List.mem_map_of_mem hix)
    obtain ⟨pos, hpos⟩ := List.mem_iff_getElem?.mp hf
    exact ⟨pos, fieldPos_of_getElem hc.checked.toWF hpos,
      sparse_same (hk.sparse _ ix hix f pos hpos rfl) (sparseOf_holds c.schema c.store pos)⟩
  composites := by
    intro k ix hix
    obtain ⟨ix', hix', hholds⟩ :=
      compositeOf_holds B c.schema c.store hc.checked (hc.declared.composite hix)
    exact ⟨ix', hix', composite_same (hk.composites k ix hix) hholds⟩

end Collection

end Fenec
