/-
# The index lists of a collection

An index hangs on a name, in the list of its kind, and a change of the schema has to bring the
lists after it: `takeIndexes` takes a name's out and `putIndexes` puts them back under one,
`fitPaths` drops the indexes of paths that went and adds those that came, `fitComposites` keeps
the composites that are still declared.

`Collection.Indexed` says what the lists should be, in the terms of `Lib.Named`: the names the
schema declares, each once, and under each an index that is not built or holds what the name
reads in the rows.  It is `Declared` and `Kept` together (`indexed_iff`), put so that it depends
on the schema only through what it declares and through `reading`.
-/
import Fenec.Lib.Named
import Fenec.Layout
import Fenec.Rebuild

namespace Fenec

open Lib Case

/-! ## 1. Taking indexes off and putting them on -/

/-- `Taken`: the indexes a name had. -/
structure Taken where
  hash : Option (Derived HashIndex)
  sorted : Option (Derived SortedIndex)
  sparse : Option (Derived SparseIndex)
deriving DecidableEq

/-- Where a declared name stands in a schema. -/
def Schema.rank (s : Schema) (n : String) : Option Nat :=
  match s.fieldPos n with
  | some p => some p
  | none => (s.paths.findIdx? fun p => p.name == n).map (s.fields.length + ·)

/-- The order of ranks, a name that is not declared before the others. -/
def rankBefore : Option Nat → Option Nat → Bool
  | none, some _ => true
  | some a, some b => decide (a < b)
  | _, none => false

/-- `in_schema_order`: a name's index put before those of the names declared after it. -/
def inSchemaOrder {α : Type} (s : Schema) (n : String) (ix : α) (l : List (String × α)) :
    List (String × α) :=
  l.insertIdx ((l.findIdx? fun e => rankBefore (s.rank n) (s.rank e.1)).getD l.length) (n, ix)

/-- `slice::swap_remove`. -/
def swapRemove {α : Type} (l : List α) (i : Nat) : List α :=
  match l.getLast? with
  | some z => (l.set i z).dropLast
  | none => l

namespace Collection

/-- `Collection::take_indexes`, what it takes. -/
def taken (c : Collection) (n : String) : Taken :=
  ⟨c.hashes.lookup n, c.sorted.lookup n, c.sparse.lookup n⟩

/-- `Collection::take_indexes`, what it leaves. -/
def takeIndexes (c : Collection) (n : String) : Collection :=
  { c with
    hashes := Named.remove n c.hashes
    sorted := Named.remove n c.sorted
    sparse := Named.remove n c.sparse }

/-- `Collection::put_indexes`. -/
def putIndexes (c : Collection) (n : String) (t : Taken) : Collection :=
  { c with
    hashes := match t.hash with
      | some d => Named.set n d c.hashes
      | none => c.hashes
    sorted := match t.sorted with
      | some d => inSchemaOrder c.schema n d c.sorted
      | none => c.sorted
    sparse := match t.sparse with
      | some d => inSchemaOrder c.schema n d c.sparse
      | none => c.sparse }

/-- An index of a path put where there is none, to be built. -/
def addPathIndex (c : Collection) (p : Field) : Collection :=
  match p.index with
  | .hash _ =>
    if Named.has p.name c.hashes then c
    else { c with hashes := Named.set p.name .unbuilt c.hashes }
  | .sorted _ =>
    if Named.has p.name c.sorted then c
    else { c with sorted := inSchemaOrder c.schema p.name .unbuilt c.sorted }
  | _ => c

/-- The names of path indexes whose path is not declared. -/
def gonePaths (c : Collection) : List String :=
  (c.hashes.map (·.1) ++ c.sorted.map (·.1)).filter fun n =>
    n.toList.contains '.' && (c.schema.path n).isNone

/-- **`Collection::fit_paths`**. -/
def fitPaths (c : Collection) : Collection :=
  c.schema.paths.foldl addPathIndex (c.gonePaths.foldl takeIndexes c)

/-- The composite indexes of some declarations, those there were kept. -/
def fitComposite : List (Composite × Derived CompositeIndex) → List Composite →
    List (Composite × Derived CompositeIndex)
  | _, [] => []
  | had, k :: ks => match had.findIdx? fun o => o.1 == k with
    | some i => (k, ((had[i]?).map (·.2)).getD .unbuilt) :: fitComposite (swapRemove had i) ks
    | none => (k, .unbuilt) :: fitComposite had ks

/-- **`Collection::fit_composites`**. -/
def fitComposites (c : Collection) : Collection :=
  { c with composites := fitComposite c.composites c.schema.composites }

variable (B : Build)

/-- **`build_index`**: the index of a field, made from the rows. -/
def buildIndex (c : Collection) (pos : Nat) : Collection :=
  match c.schema.fields[pos]? with
  | none => c
  | some f => match f.index with
    | .hash _ =>
      let ix := hashOf B c.schema c.store (pos, none) f.caseFold
      { c with hashes := Named.set f.name (.built ix) c.hashes }
    | .sorted _ =>
      let ix := sortedOf B c.schema c.store f (pos, none)
      { c with sorted := Named.set f.name (.built ix) c.sorted }
    | .inverted =>
      let ix := sparseOf c.schema c.store pos
      { c with sparse := Named.set f.name (.built ix) c.sparse }
    | _ => c

/-- **`build_path_index`**. -/
def buildPathIndex (c : Collection) (path : String) : Collection :=
  match c.schema.path path, source c.schema path with
  | some f, some src => match f.index with
    | .hash _ =>
      let ix := hashOf B c.schema c.store src none
      { c with hashes := Named.set path (.built ix) c.hashes }
    | .sorted _ =>
      let ix := sortedOf B c.schema c.store f src
      { c with sorted := if Named.has path c.sorted then Named.set path (.built ix) c.sorted
          else inSchemaOrder c.schema path (.built ix) c.sorted }
    | _ => c
  | _, _ => c

end Collection

/-! ## 2. What the lists should be -/

/-- What a name reads in the rows. -/
def Reading.column (r : Reading) (st : Store) : OrdMap Value := st.rows.map fun _ p => r.at p

namespace Schema

variable (s : Schema)

/-- The names with a hash index. -/
def WantHash (n : String) : Prop :=
  ∃ f ∈ s.fields ++ s.paths, f.name = n ∧ ∃ u, f.index = .hash u

/-- The names with an ordered index. -/
def WantSorted (n : String) : Prop :=
  ∃ f ∈ s.fields ++ s.paths, f.name = n ∧ orderable f.ty = true ∧ ∃ ttl, f.index = .sorted ttl

/-- The names with an inverted index. -/
def WantSparse (n : String) : Prop :=
  ∃ f ∈ s.fields, f.name = n ∧ (∃ d, f.ty = .sparse d) ∧ f.index = .inverted

variable (B : Build) (st : Store)

/-- A hash index that is not built, or holds what its name reads. -/
def GoodHash (n : String) (d : Derived HashIndex) : Prop :=
  ∀ ix r, d = .built ix → s.reading n = some r →
    (hashFiling B r.fold).Holds ix (r.column st).entries

/-- An ordered index that is not built, or holds what its name reads. -/
def GoodSorted (n : String) (d : Derived SortedIndex) : Prop :=
  ∀ ix r, d = .built ix → s.reading n = some r →
    (sortedFiling B (.of r.ty r.order)).Holds ix ((r.column st).map fun _ v => some v).entries

/-- An inverted index that is not built, or holds what its name reads. -/
def GoodSparse (n : String) (d : Derived SparseIndex) : Prop :=
  ∀ ix r, d = .built ix → s.reading n = some r → sparseFiling.Holds ix (r.column st).entries

/-- A composite index that is not built, or holds what its keys read. -/
def GoodComposite (k : Composite) (d : Derived CompositeIndex) : Prop :=
  ∀ ix, d = .built ix → (compositeFiling B (Collection.partsAt s k)).Holds ix
    (tuplesOf s st (Collection.sourcesAt s k)).entries

end Schema

/-- **The indexes the schema declares, each not built or right.** -/
structure Collection.Indexed (B : Build) (c : Collection) : Prop where
  hashes : Named.Fits c.schema.WantHash (c.schema.GoodHash B c.store) c.hashes
  sorted : Named.Fits c.schema.WantSorted (c.schema.GoodSorted B c.store) c.sorted
  sparse : Named.Fits c.schema.WantSparse (c.schema.GoodSparse c.store) c.sparse
  composites : c.composites.map (·.1) = c.schema.composites
  good : ∀ k d, (k, d) ∈ c.composites → c.schema.GoodComposite B c.store k d

/-- A sparse field's name is bare, and reads the field. -/
theorem reading_field {s : Schema} (hs : s.WF) {pos : Nat} {f : Field}
    (hf : s.fields[pos]? = some f) : s.reading f.name = some (.field (s.place pos, f)) := by
  have hsplit : splitPath f.name = none :=
    splitPath_eq_none (hs.no_dot f (List.mem_of_getElem? hf))
  simp only [Schema.reading, hsplit, spot_of_fieldPos (fieldPos_of_getElem hs hf) hf,
    Option.map_some]

/-- **It is the names that are declared, and every index kept.** -/
theorem Collection.indexed_iff {B : Build} {c : Collection} (hs : c.schema.Checked) :
    c.Indexed B ↔ c.Declared ∧ c.Kept B := by
  constructor
  · intro h
    refine ⟨⟨h.hashes.names, h.hashes.nodup, h.sorted.names, h.sorted.nodup, h.sparse.names,
      h.sparse.nodup, h.composites⟩, ⟨?_, ?_, ?_, ?_⟩⟩
    · rintro n ix hix f src hf rfl
      exact h.hashes.good _ _ hix ix _ rfl (hf.reading hs)
    · rintro n ix hix f src hf rfl
      exact h.sorted.good _ _ hix ix _ rfl (hf.reading hs)
    · rintro n ix hix f pos hf rfl
      exact h.sparse.good _ _ hix ix _ rfl (reading_field hs.toWF hf)
    · intro k ix hix
      exact h.good k _ hix ix rfl
  · rintro ⟨hd, hk⟩
    refine ⟨⟨hd.hashes_nodup, hd.hashes, ?_⟩, ⟨hd.sorted_nodup, hd.sorted, ?_⟩,
      ⟨hd.sparse_nodup, hd.sparse, ?_⟩, hd.composites, ?_⟩
    · rintro n d hmem ix r rfl hr
      obtain ⟨f, hf, rfl, -⟩ := (hd.hashes n).mp (Named.mem_names hmem)
      obtain ⟨src, hreads⟩ := reads_declared hs hf
      rw [hreads.reading hs] at hr
      cases hr
      exact hk.hashes _ ix hmem f src hreads rfl
    · rintro n d hmem ix r rfl hr
      obtain ⟨f, hf, rfl, -⟩ := (hd.sorted n).mp (Named.mem_names hmem)
      obtain ⟨src, hreads⟩ := reads_declared hs hf
      rw [hreads.reading hs] at hr
      cases hr
      exact hk.sorted _ ix hmem f src hreads rfl
    · rintro n d hmem ix r rfl hr
      obtain ⟨f, hf, rfl, -⟩ := (hd.sparse n).mp (Named.mem_names hmem)
      obtain ⟨pos, hpos, -⟩ := reads_field hs.toWF hf
      rw [reading_field hs.toWF hpos] at hr
      cases hr
      exact hk.sparse _ ix hmem f pos hpos rfl
    · rintro k d hmem ix rfl
      exact hk.composites k ix hmem

/-! ## 3. What each change of the lists does -/

section

variable {want : String → Prop} {α : Type} {good : String → α → Prop} {l : List (String × α)}

theorem fits_inSchemaOrder (s : Schema) {n : String} {d : α} (h : Named.Fits want good l)
    (hn : ¬ want n) (hd : good n d) :
    Named.Fits (fun m => want m ∨ m = n) good (inSchemaOrder s n d l) := by
  refine h.insertIdx hn hd ?_
  cases hi : l.findIdx? (fun e => rankBefore (s.rank n) (s.rank e.1)) with
  | none => exact Nat.le_refl _
  | some i =>
    obtain ⟨hlt, -⟩ := List.findIdx?_eq_some_iff_getElem.mp hi
    exact Nat.le_of_lt hlt

theorem fits_removeAll (gone : List String) (h : Named.Fits want good l) :
    Named.Fits (fun m => want m ∧ m ∉ gone) good (gone.foldl (fun l n => Named.remove n l) l) := by
  induction gone generalizing want l with
  | nil => exact h.imp (fun m => by simp) fun _ _ _ hg => hg
  | cons n gone ih =>
    refine (ih (h.remove n)).imp (fun m => ?_) fun _ _ _ hg => hg
    rw [List.mem_cons]
    tauto

end

namespace Collection

/-- What taking several names off leaves. -/
theorem takeAll_eq (gone : List String) (c : Collection) : gone.foldl takeIndexes c =
    { c with
      hashes := gone.foldl (fun l n => Named.remove n l) c.hashes
      sorted := gone.foldl (fun l n => Named.remove n l) c.sorted
      sparse := gone.foldl (fun l n => Named.remove n l) c.sparse } := by
  induction gone generalizing c with
  | nil => rfl
  | cons n gone ih => exact ih (c.takeIndexes n)

/-- What the lists want of each kind. -/
structure Wants (B : Build) (c : Collection) (hash sorted sparse : String → Prop) : Prop where
  hashes : Named.Fits hash (c.schema.GoodHash B c.store) c.hashes
  sorted : Named.Fits sorted (c.schema.GoodSorted B c.store) c.sorted
  sparse : Named.Fits sparse (c.schema.GoodSparse c.store) c.sparse

namespace Wants

variable {B : Build} {c : Collection} {hash sorted sparse : String → Prop}

theorem imp {hash' sorted' sparse' : String → Prop} (h : c.Wants B hash sorted sparse)
    (hh : ∀ n, hash n ↔ hash' n) (ho : ∀ n, sorted n ↔ sorted' n)
    (hp : ∀ n, sparse n ↔ sparse' n) : c.Wants B hash' sorted' sparse' :=
  ⟨h.hashes.imp hh fun _ _ _ hg => hg, h.sorted.imp ho fun _ _ _ hg => hg,
    h.sparse.imp hp fun _ _ _ hg => hg⟩

/-- **The same lists under a schema that reads the wanted names alike.** -/
theorem reschema {s : Schema} (h : c.Wants B hash sorted sparse)
    (hr : ∀ n, hash n ∨ sorted n ∨ sparse n →
      ∀ r, s.reading n = some r → c.schema.reading n = some r) :
    { c with schema := s }.Wants B hash sorted sparse where
  hashes := h.hashes.imp (fun _ => Iff.rfl) fun n _ hn hg ix r hd hrn =>
    hg ix r hd (hr n (.inl hn) r hrn)
  sorted := h.sorted.imp (fun _ => Iff.rfl) fun n _ hn hg ix r hd hrn =>
    hg ix r hd (hr n (.inr (.inl hn)) r hrn)
  sparse := h.sparse.imp (fun _ => Iff.rfl) fun n _ hn hg ix r hd hrn =>
    hg ix r hd (hr n (.inr (.inr hn)) r hrn)

theorem take (h : c.Wants B hash sorted sparse) (n : String) :
    (c.takeIndexes n).Wants B (fun m => hash m ∧ m ≠ n) (fun m => sorted m ∧ m ≠ n)
      (fun m => sparse m ∧ m ≠ n) :=
  ⟨h.hashes.remove n, h.sorted.remove n, h.sparse.remove n⟩

theorem takeAll (h : c.Wants B hash sorted sparse) (gone : List String) :
    (gone.foldl takeIndexes c).Wants B (fun m => hash m ∧ m ∉ gone) (fun m => sorted m ∧ m ∉ gone)
      (fun m => sparse m ∧ m ∉ gone) := by
  rw [takeAll_eq]
  exact ⟨fits_removeAll gone h.hashes, fits_removeAll gone h.sorted, fits_removeAll gone h.sparse⟩

/-- Indexes put on under a name that has none. -/
theorem put (h : c.Wants B hash sorted sparse) {n : String} {t : Taken} (hs : ¬ sorted n)
    (hp : ¬ sparse n) (gh : ∀ d, t.hash = some d → c.schema.GoodHash B c.store n d)
    (go : ∀ d, t.sorted = some d → c.schema.GoodSorted B c.store n d)
    (gp : ∀ d, t.sparse = some d → c.schema.GoodSparse c.store n d) :
    (c.putIndexes n t).Wants B (fun m => hash m ∨ m = n ∧ t.hash.isSome = true)
      (fun m => sorted m ∨ m = n ∧ t.sorted.isSome = true)
      (fun m => sparse m ∨ m = n ∧ t.sparse.isSome = true) where
  hashes := by
    unfold putIndexes
    cases hd : t.hash with
    | none => exact h.hashes.imp (fun m => by simp) fun _ _ _ hg => hg
    | some d => exact (h.hashes.set (gh d hd)).imp (fun m => by simp) fun _ _ _ hg => hg
  sorted := by
    unfold putIndexes
    cases hd : t.sorted with
    | none => exact h.sorted.imp (fun m => by simp) fun _ _ _ hg => hg
    | some d =>
      exact (fits_inSchemaOrder c.schema h.sorted hs (go d hd)).imp (fun m => by simp)
        fun _ _ _ hg => hg
  sparse := by
    unfold putIndexes
    cases hd : t.sparse with
    | none => exact h.sparse.imp (fun m => by simp) fun _ _ _ hg => hg
    | some d =>
      exact (fits_inSchemaOrder c.schema h.sparse hp (gp d hd)).imp (fun m => by simp)
        fun _ _ _ hg => hg

theorem addPath (h : c.Wants B hash sorted sparse) (p : Field) :
    (c.addPathIndex p).Wants B (fun m => hash m ∨ p.name = m ∧ ∃ u, p.index = .hash u)
      (fun m => sorted m ∨ p.name = m ∧ ∃ ttl, p.index = .sorted ttl) sparse := by
  unfold addPathIndex
  split
  · next u hp =>
    split
    · next hhas =>
      have hn : hash p.name := (h.hashes.names _).mp (Named.has_iff.mp hhas)
      refine h.imp (fun m => ?_) (fun m => by simp [hp]) fun _ => Iff.rfl
      exact ⟨.inl, fun ho => ho.elim (fun hm => hm) fun ⟨heq, _⟩ => heq ▸ hn⟩
    · have hset := h.hashes.set (n := p.name) (d := .unbuilt) fun _ _ hd => nomatch hd
      refine ⟨hset.imp (fun m => ?_) fun _ _ _ hg => hg,
        h.sorted.imp (fun m => by simp [hp]) fun _ _ _ hg => hg, h.sparse⟩
      simp [hp, eq_comm]
  · next ttl hp =>
    split
    · next hhas =>
      have hn : sorted p.name := (h.sorted.names _).mp (Named.has_iff.mp hhas)
      refine h.imp (fun m => by simp [hp]) (fun m => ?_) fun _ => Iff.rfl
      exact ⟨.inl, fun ho => ho.elim (fun hm => hm) fun ⟨heq, _⟩ => heq ▸ hn⟩
    · next hhas =>
      have hn : ¬ sorted p.name := fun hn => hhas (Named.has_iff.mpr ((h.sorted.names _).mpr hn))
      have hput := fits_inSchemaOrder c.schema h.sorted (d := .unbuilt) hn fun _ _ hd => nomatch hd
      refine ⟨h.hashes.imp (fun m => by simp [hp]) fun _ _ _ hg => hg,
        hput.imp (fun m => ?_) fun _ _ _ hg => hg, h.sparse⟩
      simp [hp, eq_comm]
  · next hhash hsorted =>
    refine h.imp (fun m => ?_) (fun m => ?_) fun _ => Iff.rfl
    · refine ⟨.inl, fun ho => ho.elim (fun hm => hm) ?_⟩
      rintro ⟨-, u, hu⟩
      exact absurd hu (hhash u)
    · refine ⟨.inl, fun ho => ho.elim (fun hm => hm) ?_⟩
      rintro ⟨-, ttl, hu⟩
      exact absurd hu (hsorted ttl)

theorem addPaths (ps : List Field) (h : c.Wants B hash sorted sparse) :
    (ps.foldl addPathIndex c).Wants B
      (fun m => hash m ∨ ∃ p ∈ ps, p.name = m ∧ ∃ u, p.index = .hash u)
      (fun m => sorted m ∨ ∃ p ∈ ps, p.name = m ∧ ∃ ttl, p.index = .sorted ttl) sparse := by
  induction ps generalizing c hash sorted with
  | nil => exact h.imp (fun m => by simp) (fun m => by simp) fun _ => Iff.rfl
  | cons p ps ih =>
    refine (ih (h.addPath p)).imp (fun m => ?_) (fun m => ?_) fun _ => Iff.rfl
    · simp only [List.mem_cons, exists_eq_or_imp, or_assoc]
    · simp only [List.mem_cons, exists_eq_or_imp, or_assoc]

/-- **Fitting the paths wants the declared ones**, and of the others what there was. -/
theorem fitPaths (h : c.Wants B hash sorted sparse) (hbare : ∀ m, sparse m → '.' ∉ m.toList) :
    c.fitPaths.Wants B
      (fun m => hash m ∧ ('.' ∈ m.toList → (c.schema.path m).isSome = true) ∨
        ∃ p ∈ c.schema.paths, p.name = m ∧ ∃ u, p.index = .hash u)
      (fun m => sorted m ∧ ('.' ∈ m.toList → (c.schema.path m).isSome = true) ∨
        ∃ p ∈ c.schema.paths, p.name = m ∧ ∃ ttl, p.index = .sorted ttl) sparse := by
  have hgone : ∀ m, m ∈ c.gonePaths ↔
      (hash m ∨ sorted m) ∧ '.' ∈ m.toList ∧ (c.schema.path m).isSome = false := fun m => by
    rw [gonePaths, List.mem_filter, List.mem_append, h.hashes.names, h.sorted.names]
    simp
  refine ((h.takeAll c.gonePaths).addPaths c.schema.paths).imp (fun m => or_congr_left ?_)
    (fun m => or_congr_left ?_) fun m => ?_
  · rw [hgone]
    refine and_congr_right fun hm => ⟨fun hn hdot => ?_, fun hn hg => ?_⟩
    · by_contra hpath
      exact hn ⟨.inl hm, hdot, by simpa using hpath⟩
    · rw [hn hg.2.1] at hg
      exact absurd hg.2.2 (by decide)
  · rw [hgone]
    refine and_congr_right fun hm => ⟨fun hn hdot => ?_, fun hn hg => ?_⟩
    · by_contra hpath
      exact hn ⟨.inr hm, hdot, by simpa using hpath⟩
    · rw [hn hg.2.1] at hg
      exact absurd hg.2.2 (by decide)
  · rw [hgone]
    exact ⟨And.left, fun hm => ⟨hm, fun hg => hbare m hm hg.2.1⟩⟩

end Wants

/-! ## 4. Composites -/

theorem mem_of_mem_swapRemove {α : Type} {l : List α} {i : Nat} {a : α}
    (h : a ∈ swapRemove l i) : a ∈ l := by
  unfold swapRemove at h
  split at h
  · next z hz =>
    rcases List.mem_or_eq_of_mem_set (List.mem_of_mem_dropLast h) with h | rfl
    · exact h
    · exact List.mem_of_getLast? hz
  · exact h

theorem names_fitComposite (had : List (Composite × Derived CompositeIndex))
    (ks : List Composite) : (fitComposite had ks).map (·.1) = ks := by
  induction ks generalizing had with
  | nil => rfl
  | cons k ks ih =>
    unfold fitComposite
    split <;> simp [ih]

/-- A composite index is one there was, or is not built. -/
theorem mem_fitComposite {had : List (Composite × Derived CompositeIndex)} {ks : List Composite}
    {k : Composite} {d : Derived CompositeIndex} (h : (k, d) ∈ fitComposite had ks) :
    (k, d) ∈ had ∨ d = .unbuilt := by
  induction ks generalizing had with
  | nil => cases h
  | cons k' ks ih =>
    unfold fitComposite at h
    split at h
    · next i hi =>
      obtain ⟨hlt, hk, -⟩ := List.findIdx?_eq_some_iff_getElem.mp hi
      rcases List.mem_cons.mp h with heq | h
      · obtain ⟨rfl, rfl⟩ := Prod.mk.inj heq
        left
        have hget : (k, had[i].2) = had[i] := by
          rw [← eq_of_beq hk]
        simp only [List.getElem?_eq_getElem hlt, Option.map_some, Option.getD_some, hget]
        exact List.getElem_mem hlt
      · rcases ih h with hmem | hd
        · exact .inl (mem_of_mem_swapRemove hmem)
        · exact .inr hd
    · rcases List.mem_cons.mp h with heq | h
      · exact .inr (Prod.mk.inj heq).2
      · exact ih h

/-- A composite is indexed alike under two schemas that read its keys alike. -/
theorem goodComposite_congr {B : Build} {s s' : Schema} (hs : s.WF) (hs' : s'.WF) {st : Store}
    {k : Composite} {d : Derived CompositeIndex}
    (hk : ∀ key ∈ k.keys, ∃ r, s.reading key.1 = some r ∧ s'.reading key.1 = some r)
    (h : s.GoodComposite B st k d) : s'.GoodComposite B st k d := by
  have hparts : partsAt s' k = partsAt s k := List.map_congr_left fun key hkey => by
    obtain ⟨r, hr, hr'⟩ := hk key hkey
    have hty : ∀ t : Schema, t.reading key.1 = some r → typeAt t key.1 = r.ty := fun t ht => by
      rw [typeAt, partType_iff_reading.mpr ⟨r, ht, rfl⟩]
    rw [hty s hr, hty s' hr', (reading_part hs hr).1, (reading_part hs' hr').1]
  have htuples : tuplesOf s' st (sourcesAt s' k) = tuplesOf s st (sourcesAt s k) := by
    apply OrdMap.ext_get
    intro id
    simp only [tuplesOf, OrdMap.get_map, sourcesAt, List.map_map]
    congr 1
    funext p
    refine List.map_congr_left fun key hkey => ?_
    obtain ⟨r, hr, hr'⟩ := hk key hkey
    exact ((reading_part hs' hr').2 p).trans ((reading_part hs hr).2 p).symm
  intro ix hix
  rw [hparts, htuples]
  exact h ix hix

end Collection

end Fenec
