/-
# Runs of writes and schema changes

A database's life is writes with changes of the schema among them: fields added, dropped and
renamed, indexes put on rows that are there and taken off.  A step here is a document given to a
`put`, a row of a `set` or a `del`, an index built by a read, or a statement that changes the
schema; one that fails leaves the collection as it was.

Two results hold after every step of every run, if no write gives a hashed field a value its
record does not keep (`Collection.Settled`, by the schema of that moment):

* `rebuilt_over_changes`: every built index is the one a rebuild from the rows would make;
* `unshared_over_changes`: no two rows hold one value in a unique field or path, null aside.

The second needs the first: a write is judged by what the index holds, and it is the rows that
have to be apart.  An index put on rows that share a value is refused, and a field added unique is
null in every row.
-/
import Fenec.Reindex

namespace Fenec

open Lib Case Relation

/-! ## 1. Steps -/

/-- A step over a collection, whatever its schema is by then. -/
inductive DbStep (B : Build) where
  | put (env : Session B) (mode : PutMode) (members : List (String × Value))
  | set (env : Session B) (id : DocId) (set : List Assign)
  | del (env : Session B) (id : DocId)
  | hash (name : String)
  | sorted (name : String)
  | sparse (name : String)
  | composite (i : Nat)
  | alter (change : Alter)
  | createIndex (field : String) (kind : IndexKind) (ifNotExists : Bool)
  | createComposite (k : Composite) (ifNotExists : Bool)
  | dropComposite (keys : List String) (ifExists : Bool)

/-- A collection as a statement leaves it, the one before where it failed. -/
def Work.changed (w : Work) : Result Collection → Work
  | .ok c => { w with c := c }
  | .error _ => w

namespace DbStep

variable {B : Build}

/-- What a step leaves, whether it answers or fails. -/
def run (no : Refusals) : DbStep B → Work → Work
  | put env mode members, w => match documentOf w.c.schema members with
    | .ok doc => (putRow env mode doc w).2
    | .error _ => w
  | set env id assigns, w => (setRow env id assigns none w).2
  | del env id, w => (erase env id w).2
  | hash name, w => { w with c := w.c.buildHash B name }
  | sorted name, w => { w with c := w.c.buildSorted B name }
  | sparse name, w => { w with c := w.c.buildSparse name }
  | composite i, w => { w with c := w.c.buildComposite B i }
  | alter change, w => w.changed (w.c.alterCollection B change)
  | createIndex field kind ifNotExists, w =>
    w.changed (w.c.createIndex B no field kind ifNotExists)
  | createComposite k ifNotExists, w => w.changed (w.c.createComposite B no k ifNotExists)
  | dropComposite keys ifExists, w => w.changed (w.c.dropComposite keys ifExists)

/-- The documents a step may write. -/
def Gives (c : Collection) (d : Document) : DbStep B → Prop
  | put env mode members => ∃ doc, documentOf c.schema members = .ok doc ∧ mode.Gives env c doc d
  | set env id assigns => ∃ old, c.store.read c.schema id = some old ∧
      updated env.ctx c.schema old none assigns old = .ok d
  | _ => False

/-- **A step moves, or changes the schema.** -/
theorem moves_or_changes (no : Refusals) (step : DbStep B) {w : Work} (hw : w.c.Sound)
    {ok : Document → Prop} (hok : ∀ d, step.Gives w.c d → ok d) :
    Moves B ok w (step.run no w) ∨ ∃ c', step.run no w = { w with c := c' } ∧
      ((∃ change, w.c.alterCollection B change = .ok c') ∨
        (∃ field kind ifNotExists, w.c.createIndex B no field kind ifNotExists = .ok c') ∨
        (∃ k ifNotExists, w.c.createComposite B no k ifNotExists = .ok c') ∨
        ∃ keys ifExists, w.c.dropComposite keys ifExists = .ok c') := by
  cases step with
  | put env mode members =>
    left
    simp only [run]
    cases hdoc : documentOf w.c.schema members with
    | error e => exact .refl
    | ok doc =>
      have hfits := Document.documentOf_fits hw.checked.toWF hdoc
      exact RowStep.moves (.put env mode doc hfits) rfl hw fun d hd => hok d ⟨doc, hdoc, hd⟩
  | set env id assigns =>
    exact .inl (RowStep.moves (s := w.c.schema) (.set env id assigns) rfl hw hok)
  | del env id => exact .inl (RowStep.moves (s := w.c.schema) (.del env id) rfl hw hok)
  | hash name => exact .inl (.single (.hash w name))
  | sorted name => exact .inl (.single (.sorted w name))
  | sparse name => exact .inl (.single (.sparse w name))
  | composite i => exact .inl (.single (.composite w i))
  | alter change =>
    simp only [run]
    cases hc : w.c.alterCollection B change with
    | error e => exact .inl .refl
    | ok c' => exact .inr ⟨c', rfl, .inl ⟨change, hc⟩⟩
  | createIndex field kind ifNotExists =>
    simp only [run]
    cases hc : w.c.createIndex B no field kind ifNotExists with
    | error e => exact .inl .refl
    | ok c' => exact .inr ⟨c', rfl, .inr (.inl ⟨field, kind, ifNotExists, hc⟩)⟩
  | createComposite k ifNotExists =>
    simp only [run]
    cases hc : w.c.createComposite B no k ifNotExists with
    | error e => exact .inl .refl
    | ok c' => exact .inr ⟨c', rfl, .inr (.inr (.inl ⟨k, ifNotExists, hc⟩))⟩
  | dropComposite keys ifExists =>
    simp only [run]
    cases hc : w.c.dropComposite keys ifExists with
    | error e => exact .inl .refl
    | ok c' => exact .inr ⟨c', rfl, .inr (.inr (.inr ⟨keys, ifExists, hc⟩))⟩

end DbStep

/-- What a run of steps leaves. -/
def runDb {B : Build} (no : Refusals) (steps : List (DbStep B)) (w : Work) : Work :=
  steps.foldl (fun w step => step.run no w) w

/-- **Every write of a run gives the hashed fields what their records keep**, by the schema of the
moment. -/
def Settles {B : Build} (no : Refusals) (c : Collection) (steps : List (DbStep B)) : Prop :=
  ∀ pre step post, steps = pre ++ step :: post →
    ∀ d, step.Gives (runDb no pre ⟨c, []⟩).c d →
      Collection.Settled (runDb no pre ⟨c, []⟩).c.schema d

/-! ## 2. Every built index is the one a rebuild would make -/

namespace Collection

variable {B : Build} {w w' : Work}

theorem Steady.moves {ok : Document → Prop} (h : w.c.Steady B) (hm : Moves B ok w w')
    (hok : ∀ d, ok d → Settled w.c.schema d) : w'.c.Steady B := by
  refine steady_of_sound ?_ (moves_sound hm h.sound) (moves_kept hok hm h.sound h.kept)
  rw [moves_schema hm]
  exact h.lawful

/-- **A step keeps the collection steady.** -/
theorem Steady.step {no : Refusals} (step : DbStep B) (h : w.c.Steady B)
    (hok : ∀ d, step.Gives w.c d → Settled w.c.schema d) : (step.run no w).c.Steady B := by
  rcases step.moves_or_changes no h.sound hok with hm | ⟨c', hrun, hc⟩
  · exact h.moves hm fun _ hd => hd
  · rw [hrun]
    rcases hc with ⟨_, hc⟩ | ⟨_, _, _, hc⟩ | ⟨_, _, hc⟩ | ⟨_, _, hc⟩
    · exact steady_alter h hc
    · exact steady_createIndex h hc
    · exact steady_createComposite h hc
    · exact steady_dropComposite h hc

end Collection

section

variable {B : Build} {no : Refusals} {s : Schema} {c : Collection} {steps : List (DbStep B)}

theorem Settles.upto {pre : List (DbStep B)} (h : Settles no c steps) (hpre : pre <+: steps) :
    Settles no c pre := by
  obtain ⟨post, rfl⟩ := hpre
  intro pre' step post' heq
  refine h pre' step (post' ++ post) ?_
  rw [heq, List.append_assoc, List.cons_append]

/-- **What every step keeps holds after every run.** -/
theorem runDb_induction {P : Collection → Prop} (h₀ : P c) (hset : Settles no c steps)
    (hstep : ∀ (w : Work) (step : DbStep B), P w.c →
      (∀ d, step.Gives w.c d → Collection.Settled w.c.schema d) → P (step.run no w).c) :
    P (runDb no steps ⟨c, []⟩).c := by
  -- by the number of steps, the last one taken from the state the others left
  induction steps using List.reverseRecOn with
  | nil => exact h₀
  | append_singleton pre step ih =>
    have hrun : runDb no (pre ++ [step]) ⟨c, []⟩ = step.run no (runDb no pre ⟨c, []⟩) := by
      simp [runDb]
    rw [hrun]
    exact hstep _ step (ih (hset.upto (List.prefix_append _ _))) (hset pre step [] rfl)

end

/-- What is said where the texts are of no matter. -/
def Refusals.plain : Refusals := ⟨fun _ => .duplicate "", fun _ _ => .duplicate ""⟩

/-- `create collection t (e text)`. -/
def noteSchema : Schema := ⟨"t", [⟨"e", .text, .none, false, none, false⟩], [], [], []⟩

theorem noteSchema_lawful : noteSchema.Lawful := by
  have hcreate : Schema.create "t" [⟨"e", .text, .none, false, none, false⟩] = .ok noteSchema := rfl
  exact lawful_create hcreate

/-- A note put, its field renamed and made unique. -/
def noteSteps : List (DbStep Build.ascii) :=
  [.put (.quiet Build.ascii) .plain [("e", .text "a")], .alter (.renameField "e" "f"),
    .createIndex "f" (.hash true) false]

theorem noteSteps_settle : Settles .plain (.new 1 noteSchema) noteSteps := by
  intro pre step post heq d hd
  cases pre with
  | nil =>
    -- no field is a vector of halves
    intro f hf _
    rw [List.mem_singleton.mp hf]
    exact exact_of_ne fun n h => by cases h
  | cons a pre =>
    obtain ⟨-, heq⟩ := List.cons.inj heq
    cases pre with
    | nil =>
      obtain ⟨rfl, -⟩ := List.cons.inj heq
      cases hd
    | cons b pre =>
      obtain ⟨-, heq⟩ := List.cons.inj heq
      cases pre with
      | nil =>
        obtain ⟨rfl, -⟩ := List.cons.inj heq
        cases hd
      | cons e pre => cases pre <;> cases (List.cons.inj heq).2

/-! ## 3. Unique values -/

/-- **No two rows hold one value there**, null aside. -/
def Reading.Apart (B : Build) (r : Reading) (st : Store) : Prop :=
  ∀ id p id' p', st.rows.get id = some p → st.rows.get id' = some p' → (r.at p).isNull = false →
    foldedKey B (r.at p) r.fold = foldedKey B (r.at p') r.fold → id = id'

/-- **No two rows hold one value in a unique field or path.** -/
def Collection.Unshared (B : Build) (c : Collection) : Prop :=
  ∀ f ∈ c.schema.fields ++ c.schema.paths, f.index.isUnique = true →
    ∀ r, c.schema.reading f.name = some r → r.Apart B c.store

/-- Nothing is filed as null is but null. -/
theorem foldedKey_null {B : Build} {v : Value} {fold : Option CaseFold}
    (h : foldedKey B v fold = hashKey .null) : v = .null := by
  have hplain : hashKey v = hashKey .null → v = .null := fun h => by
    rcases hashKey_eq_cases h with rfl | ⟨-, k, -, hk⟩
    · rfl
    · cases hk
  cases v with
  | text t =>
    cases fold with
    | none => exact hplain h
    | some f =>
      have htag : Codec.tag (.text t) ≠ Codec.tag .null := by simp [Codec.tag]
      simp only [foldedKey, encodeFolded] at h
      split at h <;> exact absurd (List.cons.inj h).1 htag
  | null => rfl
  | _ => exact hplain h

theorem isHash_of_unique {k : IndexKind} (h : k.isUnique = true) : ∃ u, k = .hash u := by
  cases k with
  | hash u => exact ⟨u, rfl⟩
  | _ => cases h

section

variable {B : Build} {no : Refusals} {c c' : Collection} {f : Field} {r : Reading}

/-- What a kept hash index has for a value: every row that holds it. -/
theorem mem_get_of_row {ix : HashIndex} {src : Nat × Option String} {id : DocId} {p : Payload}
    {v : Value} (hholds : (hashFiling B f.caseFold).Holds ix
      (columnOf c.schema c.store src).entries) (hp : c.store.rows.get id = some p)
    (hkey : foldedKey B v f.caseFold = foldedKey B (readAt c.schema p src) f.caseFold) :
    id ∈ ix.get (ix.key B v) := by
  have hix : ix = ⟨f.caseFold, ((columnOf c.schema c.store src).entries.map fun r =>
      (foldedKey B r.2 f.caseFold, r.1)).toFinset⟩ := hholds
  have hrow : (id, readAt c.schema p src) ∈ (columnOf c.schema c.store src).entries := by
    rw [OrdMap.mem_entries_iff, columnOf, OrdMap.get_map, hp]
    rfl
  rw [HashIndex.mem_get, hix]
  refine List.mem_toFinset.mpr (List.mem_map.mpr ⟨_, hrow, ?_⟩)
  rw [HashIndex.key, hkey]

/-- **Rows over which a unique index is not refused share no value.** -/
theorem apart_of_refuse (h : c.Steady B) (hf : f ∈ c.schema.fields ++ c.schema.paths)
    (hu : f.index.isUnique = true) (hok : c.refuseShared B no f.name = .ok ())
    (hr : c.schema.reading f.name = some r) : r.Apart B c.store := by
  obtain ⟨src, hreads⟩ := reads_declared h.lawful.checked hf
  have hread := hreads.reading h.lawful.checked
  rw [hr] at hread
  cases hread
  -- the index there is, built if it was not
  have hname : f.name ∈ c.hashes.map (·.1) :=
    (h.sound.declared.hashes f.name).mpr ⟨f, hf, rfl, isHash_of_unique hu⟩
  obtain ⟨d, hd⟩ := Option.isSome_iff_exists.mp
    ((Collection.isSome_taken (Collection.indexedOver_fields.mp h.indexed).hashes f.name).mpr
      (((Collection.indexedOver_fields.mp h.indexed).hashes.names f.name).mp hname))
  have hlook : (c.buildHash B f.name).hashes.lookup f.name = some (c.builtHash B f.name d) := by
    rw [Collection.buildHash]
    dsimp only
    rw [lookup_map (fun m d => if m = f.name then c.builtHash B m d else d), hd]
    simp
  have hne : c.builtHash B f.name d ≠ .unbuilt := by
    unfold Collection.builtHash
    rw [hreads.source]
    exact orBuild_ne_unbuilt _ _
  have hmem := mem_of_lookup hlook
  unfold Collection.refuseShared at hok
  rw [hlook] at hok
  cases hbuilt : c.builtHash B f.name d with
  | unbuilt => exact absurd hbuilt hne
  | refused e =>
    rw [hbuilt] at hok
    cases hok
  | built ix =>
    rw [hbuilt] at hok hmem
    have hholds := (Collection.buildHash_kept h.kept f.name).hashes f.name ix hmem f src hreads rfl
    have hshared : ix.shared = false := by
      cases hs : ix.shared with
      | false => rfl
      | true =>
        simp only [hs, if_true] at hok
        cases hok
    have hfold : ix.fold = f.caseFold := by
      rw [show ix = _ from hholds]
    intro id p id' p' hp hp' hnull hkey
    have hrow := mem_get_of_row (v := readAt c.schema p src) hholds hp rfl
    have hrow' := mem_get_of_row hholds hp' hkey
    rw [HashIndex.mem_get] at hrow hrow'
    by_contra hids
    have hno := of_decide_eq_false hshared
    refine hno ⟨_, hrow, fun heq => ?_, _, hrow', rfl, fun heq => hids heq.symm⟩
    have hvalue : readAt c.schema p src = .null := foldedKey_null heq
    have hnull' : (readAt c.schema p src).isNull = false := hnull
    rw [hvalue] at hnull'
    cases hnull'

/-- **A change that leaves the rows and what the unique names read leaves their values apart.** -/
theorem Unshared.of_readings (h : c.Unshared B) (hst : c'.store = c.store)
    (hr : ∀ f' ∈ c'.schema.fields ++ c'.schema.paths, f'.index.isUnique = true →
      ∀ r, c'.schema.reading f'.name = some r →
        (∃ f ∈ c.schema.fields ++ c.schema.paths, f.index.isUnique = true ∧
          c.schema.reading f.name = some r) ∨ r.Apart B c'.store) : c'.Unshared B := by
  intro f' hf' hu r hread
  rcases hr f' hf' hu r hread with ⟨f, hf, hu', hread'⟩ | hapart
  · rw [hst]
    exact h f hf hu' r hread'
  · exact hapart

/-- A name declared in both reads what it did. -/
theorem reading_old (hs : c.schema.Lawful) (ha : c.schema.Agrees c'.schema)
    (hf : f ∈ c.schema.fields ++ c.schema.paths) (hr : c'.schema.reading f.name = some r) :
    c.schema.reading f.name = some r := by
  obtain ⟨r₀, hr₀⟩ := Collection.reading_declared hs hf
  rw [hr₀, ha _ r₀ r hr₀ hr]

/-- **A row written where no other holds its unique values leaves them apart.** -/
theorem Unshared.write {doc : Document} {old : Option Document} (hu : c.Unshared B)
    (h : c.Steady B) (hdoc : doc.Fits c.schema) (hset : Collection.Settled c.schema doc)
    (hfree : Free B c doc) : (c.write B doc old).Unshared B := by
  intro f hf huniq r hr
  rw [Collection.write_schema] at hf hr
  obtain ⟨src, hreads⟩ := reads_declared h.lawful.checked hf
  have hread := hreads.reading h.lawful.checked
  rw [hr] at hread
  cases hread
  have hholds := h.kept.hashes
  -- the value the record keeps is the one the document was judged by
  have hkept : doc.at f.name = some (readAt c.schema (encodeDoc c.schema doc) src) :=
    (Collection.recorded_encodeDoc h.lawful.fields.wf hdoc hset).reads hreads fun _ =>
      .inr (isHash_of_unique huniq)
  have hnew : ∀ id p, c.store.rows.get id = some p →
      (readAt c.schema (encodeDoc c.schema doc) src).isNull = false →
      foldedKey B (readAt c.schema (encodeDoc c.schema doc) src) f.caseFold =
        foldedKey B (readAt c.schema p src) f.caseFold → id = doc.id := by
    intro id p hp hnull hkey
    rcases hfree.fields f hf huniq _ hkept hnull with hnone | ⟨ix, hix, hno⟩
    · rcases hnone with hnone | hnone
      · exact absurd ((h.sound.declared.hashes f.name).mpr
          ⟨f, hf, rfl, isHash_of_unique huniq⟩) hnone
      · rw [hreads.source] at hnone
        cases hnone
    · exact hno id (mem_get_of_row (hholds f.name ix hix f src hreads rfl) hp hkey)
  have hold := hu f hf huniq _ hr
  intro id p id' p' hp hp' hnull hkey
  rw [Collection.write_store, Store.put, OrdMap.get_insert] at hp hp'
  split at hp
  · next hid =>
    cases hp
    split at hp'
    · next hid' => rw [hid, hid']
    · rw [hid]
      exact (hnew id' p' hp' hnull hkey).symm
  · split at hp'
    · next hid' =>
      cases hp'
      rw [hid']
      refine hnew id p hp ?_ hkey.symm
      -- a null would be filed as the other row's value is
      cases hv : (readAt c.schema (encodeDoc c.schema doc) src).isNull with
      | false => rfl
      | true =>
        have hnull' := Value.isNull_iff.mp hv
        have hkey' : foldedKey B (readAt c.schema p src) f.caseFold =
            foldedKey B (readAt c.schema (encodeDoc c.schema doc) src) f.caseFold := hkey
        rw [hnull'] at hkey'
        have hpnull : readAt c.schema p src = .null := foldedKey_null hkey'
        have hp0 : (readAt c.schema p src).isNull = false := hnull
        rw [hpnull] at hp0
        cases hp0
    · exact hold id p id' p' hp hp' hnull hkey

theorem Unshared.shrunk (hu : c.Unshared B) (hs : c'.schema = c.schema)
    (hrows : ∀ id p, c'.store.rows.get id = some p → c.store.rows.get id = some p) :
    c'.Unshared B := by
  intro f hf huniq r hr
  rw [hs] at hf hr
  exact fun id p id' p' hp hp' => hu f hf huniq r hr id p id' p' (hrows id p hp) (hrows id' p' hp')

/-- **A move leaves unique values apart.** -/
theorem Move.unshared {w w' : Work} {ok : Document → Prop} (hm : Move B ok w w')
    (hok : ∀ d, ok d → Collection.Settled w.c.schema d) (h : w.c.Steady B)
    (hu : w.c.Unshared B) : w'.c.Unshared B := by
  cases hm with
  | write doc hfits hfree hdoc => exact Unshared.write hu h hfits (hok doc hdoc) hfree
  | erase id =>
    refine Unshared.shrunk hu (Collection.alongside_erase id).schema fun j p hp => ?_
    exact (shrunk_erased w id).rows j p hp
  | _ => exact Unshared.shrunk hu rfl fun _ _ hp => hp

theorem moves_unshared {w w' : Work} {ok : Document → Prop} (hm : Moves B ok w w')
    (hok : ∀ d, ok d → Collection.Settled w.c.schema d) (h : w.c.Steady B) (hu : w.c.Unshared B) :
    w'.c.Unshared B := by
  induction hm with
  | refl => exact hu
  | tail hrun hstep ih =>
    refine hstep.unshared ?_ (h.moves hrun hok) ih
    rw [moves_schema hrun]
    exact hok

/-- What a change of the fields leaves of the rows, and the schema it makes. -/
theorem alterCollection_rest {change : Alter} (hok : c.alterCollection B change = .ok c') :
    ∃ ch, alterSchema c.schema change = .ok ch ∧ c'.schema = ch.schema ∧ c'.store = c.store := by
  unfold Collection.alterCollection at hok
  obtain ⟨ch, hch, hok⟩ := bind_ok hok
  have hfields : (c.alterFields ch).schema = ch.schema ∧ (c.alterFields ch).store = c.store := by
    have hplain := Collection.fitPaths_rest { c with schema := ch.schema }
    have htaken := Collection.fitPaths_rest { c.takeIndexes ch.field with schema := ch.schema }
    unfold Collection.alterFields
    split
    · exact ⟨hplain.1, hplain.2.1⟩
    · exact ⟨hplain.1, hplain.2.1⟩
    · exact ⟨htaken.1, htaken.2.1⟩
    · exact ⟨htaken.1, htaken.2.1⟩
  refine ⟨ch, hch, ?_⟩
  cases hok
  split
  · next pos _ _ =>
    have hbuilt := Collection.buildIndex_rest (B := B) (c.alterFields ch) pos
    exact ⟨hbuilt.1.trans hfields.1, hbuilt.2.1.trans hfields.2⟩
  · exact hfields

/-- **A change of the fields leaves unique values apart.** -/
theorem unshared_alter {change : Alter} (h : c.Steady B) (hu : c.Unshared B)
    (hok : c.alterCollection B change = .ok c') : c'.Unshared B := by
  obtain ⟨ch, hch, hschema, hstore⟩ := alterCollection_rest hok
  have hs := h.lawful
  have ha : c.schema.Agrees c'.schema := hschema ▸ alter_agrees hs hch
  refine Unshared.of_readings hu hstore fun f' hf' huniq r hr => ?_
  have hkept : f' ∈ c.schema.fields ++ c.schema.paths →
      ∃ f ∈ c.schema.fields ++ c.schema.paths, f.index.isUnique = true ∧
        c.schema.reading f.name = some r := fun hf =>
    ⟨f', hf, huniq, reading_old hs ha hf hr⟩
  rw [hschema] at hf' hr
  cases change with
  | addField f =>
    obtain ⟨g, -, -, -, rfl, hfields⟩ := alter_add hs hch
    rw [List.append_assoc, List.mem_append] at hf'
    rcases hf' with hf' | hf'
    · exact .inl (hkept (List.mem_append_left _ hf'))
    · rcases List.mem_cons.mp hf' with rfl | hf'
      · -- the field added is null in every row
        right
        have hnew : (c.schema.fields ++ [f'])[c.schema.fields.length]? = some f' := by simp
        have hread := reading_field (s := { c.schema with fields := c.schema.fields ++ [f'] })
          (alter_lawful hs hch).fields.wf hnew
        rw [hr] at hread
        cases hread
        intro id p id' p' hp hp' hnull
        rw [hstore] at hp
        have hat : p.at (c.schema.place c.schema.fields.length) = .null := by
          rw [Payload.at, List.getD_eq_default]
          exact h.rowed.short id p hp
        have hnull' : (p.at (c.schema.place c.schema.fields.length)).isNull = false := hnull
        rw [hat] at hnull'
        cases hnull'
      · exact .inl (hkept (List.mem_append_right _ hf'))
  | dropField name =>
    obtain ⟨pos, f, hf, rfl, rfl⟩ := alter_drop hch
    refine .inl (hkept ?_)
    rcases List.mem_append.mp hf' with hf' | hf'
    · exact List.mem_append_left _ ((List.eraseIdx_sublist _ _).subset hf')
    · exact List.mem_append_right _ (List.mem_of_mem_filter hf')
  | renameField name to_ =>
    obtain ⟨pos, f, hf, rfl, rfl, hfields⟩ := alter_rename hs hch
    left
    rcases List.mem_append.mp hf' with hf' | hf'
    · rcases (mem_modify_name (g := fun f : Field => f.name) _ hf hs.fields.nodup).mp hf' with
        rfl | ⟨hf', -⟩
      · refine ⟨f, List.mem_append_left _ (List.mem_of_getElem? hf), huniq, ?_⟩
        have hfield := reading_field hs.fields.wf hf
        have hnew := reading_renamedKey hs.fields.wf hf hfields hfield
        rw [renamedKey, if_pos rfl, hr] at hnew
        rw [hfield, Option.some.inj hnew]
      · exact hkept (List.mem_append_left _ hf')
    · obtain ⟨q, hq, rfl⟩ := List.mem_map.mp hf'
      refine ⟨q, List.mem_append_right _ hq, huniq, ?_⟩
      obtain ⟨r₀, hr₀⟩ := Option.isSome_iff_exists.mp (hs.path q hq).reads
      obtain ⟨⟨field, keys⟩, hsplit⟩ := Option.isSome_iff_exists.mp (hs.path q hq).dotted
      have hnew := reading_renamedKey hs.fields.wf hf hfields hr₀
      rw [renamedKey_path (hs.fields.no_dot f (List.mem_of_getElem? hf)) hsplit, hr] at hnew
      rw [hr₀, Option.some.inj hnew]
  | ttl name ttl =>
    obtain ⟨pos, f, hf, rfl, -, -, rfl⟩ := alter_ttl hch
    rcases List.mem_append.mp hf' with hf' | hf'
    · rcases (mem_modify_name (g := fun f : Field => f.name) _ hf hs.fields.nodup).mp hf' with
        rfl | ⟨hf', -⟩
      · cases huniq
      · exact .inl (hkept (List.mem_append_left _ hf'))
    · exact .inl (hkept (List.mem_append_right _ hf'))

theorem isUnique_resolved (k : IndexKind) : k.resolved.isUnique = k.isUnique := by
  cases k <;> rfl

/-- **An index put on a field or a path leaves unique values apart.** -/
theorem unshared_createIndex {field : String} {kind : IndexKind} {ifNotExists : Bool}
    (h : c.Steady B) (hu : c.Unshared B)
    (hok : c.createIndex B no field kind ifNotExists = .ok c') : c'.Unshared B := by
  have hsteady := Collection.steady_createIndex h hok
  have hs := h.lawful
  unfold Collection.createIndex at hok
  obtain ⟨target, htarget, hok⟩ := bind_ok hok
  cases target with
  | done =>
    cases hok
    exact hu
  | field pos =>
    obtain ⟨f, hf, rfl, -, -⟩ := checkIndex_field hs htarget
    obtain ⟨rfl, hrefuse⟩ := Collection.orRefuse_ok hok
    obtain ⟨hschema, hstore, -⟩ := Collection.buildIndex_rest (B := B)
      { c with schema := c.schema.indexAt pos kind.resolved } pos
    have hw := within_indexAt hs.fields.wf hf kind.resolved
    refine Unshared.of_readings hu hstore fun f' hf' huniq r hr => ?_
    have hf'' := hf'
    rw [hschema] at hf'
    have hkept : f' ∈ c.schema.fields ++ c.schema.paths →
        ∃ f ∈ c.schema.fields ++ c.schema.paths, f.index.isUnique = true ∧
          c.schema.reading f.name = some r := fun hold =>
      ⟨f', hold, huniq, reading_old hs (hschema ▸ hw.agrees) hold hr⟩
    rcases List.mem_append.mp hf' with hmem | hmem
    · rcases (mem_modify_name (g := fun f : Field => f.name) _ hf hs.fields.nodup).mp hmem with
        rfl | ⟨hmem, -⟩
      · -- the index is unique, and was not refused
        have huniq' : kind.isUnique = true := (isUnique_resolved kind).symm.trans huniq
        exact .inr (apart_of_refuse hsteady hf'' huniq (hrefuse huniq') hr)
      · exact .inl (hkept (List.mem_append_left _ hmem))
    · exact .inl (hkept (List.mem_append_right _ hmem))
  | path =>
    obtain ⟨rfl, hrefuse⟩ := Collection.orRefuse_ok hok
    obtain ⟨hschema, hstore, -⟩ := Collection.buildPathIndex_rest (B := B)
      { c with schema := c.schema.addPath ⟨field, .json, kind.resolved, false, none, false⟩ } field
    refine Unshared.of_readings hu hstore fun f' hf' huniq r hr => ?_
    have hf'' := hf'
    rw [hschema] at hf'
    have hkept : f' ∈ c.schema.fields ++ c.schema.paths →
        ∃ f ∈ c.schema.fields ++ c.schema.paths, f.index.isUnique = true ∧
          c.schema.reading f.name = some r := fun hold => by
      refine ⟨f', hold, huniq, reading_old hs ?_ hold hr⟩
      rw [hschema]
      exact Schema.Within.agrees fun _ _ h => h
    rcases List.mem_append.mp hf' with hmem | hmem
    · exact .inl (hkept (List.mem_append_left _ hmem))
    · rcases mem_addPath.mp hmem with rfl | hmem
      · have huniq' : kind.isUnique = true := (isUnique_resolved kind).symm.trans huniq
        exact .inr (apart_of_refuse hsteady hf'' huniq (hrefuse huniq') hr)
      · exact .inl (hkept (List.mem_append_right _ hmem))

theorem unshared_createComposite {k : Composite} {ifNotExists : Bool} (hu : c.Unshared B)
    (hok : c.createComposite B no k ifNotExists = .ok c') : c'.Unshared B := by
  unfold Collection.createComposite at hok
  obtain ⟨o, -, hok⟩ := bind_ok hok
  cases o with
  | some there =>
    dsimp only at hok
    split at hok
    · cases hok
      exact hu
    · cases hok
  | none =>
    rw [Collection.orRefuseLast_ok hok]
    exact hu

theorem unshared_dropComposite {keys : List String} {ifExists : Bool} (hu : c.Unshared B)
    (hok : c.dropComposite keys ifExists = .ok c') : c'.Unshared B := by
  unfold Collection.dropComposite at hok
  split at hok
  · split at hok
    · cases hok
      exact hu
    · cases hok
  · cases hok
    exact hu

end

end Fenec
