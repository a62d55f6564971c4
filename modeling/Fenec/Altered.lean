/-
# What a document holds while its collection is altered

`Ledger` says what altering a collection is for: a field is its identity, given when it is added
and never given again, and a document holds a value for each field there was when it was written.
Adding, dropping and renaming change which fields there are and what they are called, and nothing
that is held.

The code has no identities.  A field is found by its place, which the fields dropped before it
shift, in payloads written under every schema there has been.  `Follows` relates the two: the
place of a field is its identity, the next place the next identity, and every payload holds at
each place what the ledger holds for it.  It survives every change (`follows_alter`) and every
write (`follows_write`), and under it each reader answers from the ledger
(`alter_keeps_documents`).
-/
import Fenec.Payloads

namespace Fenec

open Lib Reader

namespace Altered

/-! ## 1. The ledger -/

/-- A field by its identity. -/
structure Column where
  key : Nat
  name : String
  ty : DataType
deriving DecidableEq

/-- The fields there are, the next identity, and what each document holds by identity. -/
structure Ledger where
  columns : List Column
  next : Nat
  held : DocId → Option (Nat → Value)

namespace Ledger

/-- A collection as it is created. -/
def create (fields : List Field) : Ledger :=
  ⟨fields.mapIdx fun i f => ⟨i, f.name, f.ty⟩, fields.length, fun _ => none⟩

/-- A change of the fields: what documents hold stays. -/
def alter (l : Ledger) : Alter → Ledger
  | .addField f => { l with columns := l.columns ++ [⟨l.next, f.name, f.ty⟩], next := l.next + 1 }
  | .dropField name => { l with columns := l.columns.filter fun k => k.name != name }
  | .renameField name to_ =>
    { l with columns := l.columns.map fun k => if k.name == name then { k with name := to_ } else k }
  | .ttl _ _ => l

/-- What a document holds once it is written: a value for each field there is, and nothing for
any other.  A `vector<N, f16>` is kept halved. -/
def values (l : Ledger) (d : Document) (key : Nat) : Value :=
  match l.columns.find? fun k => k.key == key with
  | some k => Codec.kept k.ty ((d.get k.name).getD .null)
  | none => .null

/-- A document written. -/
def write (l : Ledger) (d : Document) : Ledger :=
  { l with held := fun id => if id = d.id then some (l.values d) else l.held id }

/-- A document as it is to be read: the fields there are, each by the name it has now. -/
def document (l : Ledger) (id : DocId) (held : Nat → Value) : Document :=
  ⟨id, l.columns.map fun k => (k.name, held k.key)⟩

end Ledger

/-! ## 2. Runs -/

/-- A collection's schema and its documents' payloads. -/
structure Table where
  schema : Schema
  rows : DocId → Option (List UInt8)

/-- A document written under the schema of the moment. -/
def Table.write (t : Table) (d : Document) : Table :=
  { t with rows := fun id =>
    if id = d.id then some (Cells.encodeDoc t.schema d) else t.rows id }

/-- **Every sequence of changes and writes**: the table it leads to, and the ledger beside it.
A change that is refused leaves the table as it was, so only those made are steps; a payload is a
slice, and shorter than `2 ^ 63` bytes. -/
inductive Reached : Table → Ledger → Prop
  | create {name : String} {fields : List Field} {s : Schema}
      (made : Schema.create name fields = .ok s) :
      Reached ⟨s, fun _ => none⟩ (Ledger.create s.fields)
  | alter {t : Table} {l : Ledger} {change : Alter} {c : FieldChange} (before : Reached t l)
      (made : alterSchema t.schema change = .ok c) :
      Reached { t with schema := c.schema } (l.alter change)
  | write {t : Table} {l : Ledger} {d : Document} (before : Reached t l) (sound : Cells.SoundDoc d)
      (short : (Cells.encodeDoc t.schema d).length < 2 ^ 63) :
      Reached (t.write d) (l.write d)

/-! ## 3. Places -/

section Places

variable {ds : List Nat} {p : Nat}

/-- No field stands in a dropped place. -/
theorem place_notMem (h : ds.Pairwise (· < ·)) (i : Nat) : place ds i ∉ ds := by
  induction ds generalizing i with
  | nil => simp
  | cons d ds ih =>
    obtain ⟨hlt, hasc⟩ := List.pairwise_cons.mp h
    rw [place]
    split
    · next hd =>
      intro hmem
      rcases List.mem_cons.mp hmem with heq | hmem
      · omega
      · have := hlt i hmem
        omega
    · intro hmem
      have hge := le_place ds (i + 1)
      rcases List.mem_cons.mp hmem with heq | hmem
      · omega
      · exact ih hasc (i + 1) hmem

theorem mem_insertPlace {x : Nat} : x ∈ insertPlace p ds ↔ x = p ∨ x ∈ ds := by
  induction ds with
  | nil => simp [insertPlace]
  | cons d ds ih =>
    unfold insertPlace
    split
    · rw [List.mem_cons, ih, List.mem_cons]
      tauto
    · rw [List.mem_cons]

theorem insertPlace_ascending (h : ds.Pairwise (· < ·)) (hp : p ∉ ds) :
    (insertPlace p ds).Pairwise (· < ·) := by
  induction ds with
  | nil => simp [insertPlace]
  | cons d ds ih =>
    obtain ⟨hlt, hasc⟩ := List.pairwise_cons.mp h
    rw [List.mem_cons, not_or] at hp
    unfold insertPlace
    split
    · next hd =>
      refine List.pairwise_cons.mpr ⟨fun x hx => ?_, ih hasc hp.2⟩
      rcases mem_insertPlace.mp hx with rfl | hx
      · exact hd
      · exact hlt x hx
    · next hd =>
      refine List.pairwise_cons.mpr ⟨fun x hx => ?_, h⟩
      rcases List.mem_cons.mp hx with rfl | hx
      · omega
      · have := hlt x hx
        omega

/-- Past every dropped place, places are consecutive. -/
theorem place_succ_of_past {n : Nat} (h : ∀ d ∈ ds, d < place ds n) :
    place ds (n + 1) = place ds n + 1 := by
  induction ds generalizing n with
  | nil => rfl
  | cons d ds ih =>
    have hd := h d (List.mem_cons_self ..)
    by_cases hgt : d > n
    · rw [place, if_pos hgt] at hd
      omega
    · rw [place, if_neg hgt] at h
      rw [place, if_neg (by omega), place, if_neg hgt]
      exact ih fun x hx => h x (List.mem_cons_of_mem _ hx)

end Places

section Named

variable {α : Type} {l : List α} {i : Nat} {a : α} {g : α → String}

/-- Names stand once: taking out a name takes out one thing. -/
theorem filter_name (ha : l[i]? = some a) (hn : (l.map g).Nodup) :
    l.filter (fun x => g x != g a) = l.eraseIdx i := by
  have hsplit := split_at ha
  rw [hsplit, List.map_append, List.map_cons, List.nodup_middle, List.nodup_cons,
    ← List.map_append] at hn
  have hne : ∀ y ∈ l.take i ++ l.drop (i + 1), (g y != g a) = true := fun y hy =>
    bne_iff_ne.mpr fun heq => hn.1 (heq ▸ List.mem_map_of_mem hy)
  rw [List.eraseIdx_eq_take_drop_succ]
  conv_lhs => rw [hsplit]
  rw [List.filter_append, List.filter_cons_of_neg (by simp), ← List.filter_append,
    List.filter_eq_self.mpr hne]

/-- Changing a name's thing changes one thing. -/
theorem map_name {f : α → α} (ha : l[i]? = some a) (hn : (l.map g).Nodup) :
    l.map (fun x => if g x == g a then f x else x) = l.modify i f := by
  apply List.ext_getElem?
  intro j
  rw [List.getElem?_map, List.getElem?_modify]
  cases hj : l[j]? with
  | none => rfl
  | some x =>
    by_cases hij : i = j
    · subst hij
      rw [ha] at hj
      cases hj
      simp
    · have hne : (g x == g a) = false := by
        refine beq_eq_false_iff_ne.mpr fun heq => hij ?_
        obtain ⟨hi, -⟩ := List.getElem?_eq_some_iff.mp ha
        refine (List.getElem?_inj (by simpa using hi) hn).mp ?_
        rw [List.getElem?_map, List.getElem?_map, ha, hj, Option.map_some, Option.map_some, heq]
      simp only [Option.map_some, hne, if_neg hij]
      rfl

theorem map_modify {β : Type} {f : α → α} {h : α → β} {k : β → β} (hk : ∀ x, h (f x) = k (h x)) :
    (l.modify i f).map h = (l.map h).modify i k := by
  apply List.ext_getElem?
  intro j
  simp only [List.getElem?_modify, List.getElem?_map]
  cases l[j]? with
  | none => rfl
  | some x =>
    simp only [Option.map_some]
    by_cases hij : i = j
    · simp [hij, hk]
    · simp [hij]

end Named

/-! ## 4. Payloads by identity -/

section Written

variable {s : Schema} {d : Document}

/-- Where no field stands nothing is written. -/
theorem encodeFrom_at_other {fs : List Field} {at_ i q : Nat} (hat : at_ ≤ s.place i)
    (h : ∀ j < fs.length, s.place (i + j) ≠ at_ + q) :
    Payload.at (encodeFrom s d at_ i fs) q = .null := by
  induction fs generalizing at_ i q with
  | nil => simp [encodeFrom, Payload.at]
  | cons f fs ih =>
    have hhere := h 0 (by simp)
    rw [Nat.add_zero] at hhere
    have hnext : s.place i + 1 ≤ s.place (i + 1) := place_lt_succ _ _
    unfold encodeFrom Payload.at
    by_cases hq : q < s.place i - at_
    · rw [List.getD_append _ _ _ _ (by simpa using hq)]
      simp [hq]
    · obtain ⟨r, rfl⟩ : ∃ r, q = (s.place i - at_) + (r + 1) := ⟨q - (s.place i - at_) - 1, by omega⟩
      rw [List.getD_append_right _ _ _ _ (by simp), List.length_replicate, Nat.add_sub_cancel_left,
        List.getD_cons_succ]
      refine ih hnext fun j hj => ?_
      have hj' := h (j + 1) (by simpa using hj)
      rw [show i + (j + 1) = i + 1 + j by omega] at hj'
      omega

theorem encodeDoc_at_other {p : Nat} (h : ∀ j < s.fields.length, s.place j ≠ p) :
    (encodeDoc s d).at p = .null := by
  refine encodeFrom_at_other (Nat.zero_le _) fun j hj => ?_
  rw [Nat.zero_add, Nat.zero_add]
  exact h j hj

end Written

/-- A field's column: its place is its identity. -/
def column (pf : Nat × Field) : Column := ⟨pf.1, pf.2.name, pf.2.ty⟩

/-- **A table follows a ledger.** -/
structure Follows (t : Table) (l : Ledger) : Prop where
  columns : l.columns = t.schema.spots.map column
  next : l.next = t.schema.place t.schema.fields.length
  names : (t.schema.fields.map (·.name)).Nodup
  resolved : ∀ f ∈ t.schema.fields, f.index.resolved = f.index
  ascending : t.schema.dropped.Pairwise (· < ·)
  past : ∀ d ∈ t.schema.dropped, d < l.next
  absent : ∀ id, t.rows id = none ↔ l.held id = none
  rows : ∀ id buf, t.rows id = some buf → ∃ cells P held, Cells.Holds buf cells P ∧
    l.held id = some held ∧ ∀ p, P.at p = held p

section Follows

variable {t : Table} {l : Ledger}

theorem Follows.column_at (h : Follows t l) {j : Nat} {f : Field}
    (hf : t.schema.fields[j]? = some f) :
    l.columns[j]? = some ⟨t.schema.place j, f.name, f.ty⟩ := by
  rw [h.columns, List.getElem?_map, spots_getElem hf]
  rfl

/-- The column of an identity is that of the field in its place. -/
theorem Follows.find_column (h : Follows t l) {j : Nat} {f : Field}
    (hf : t.schema.fields[j]? = some f) :
    (l.columns.find? fun k => k.key == t.schema.place j) =
      some ⟨t.schema.place j, f.name, f.ty⟩ := by
  rw [List.find?_eq_some_iff_getElem]
  obtain ⟨hj, hget⟩ := List.getElem?_eq_some_iff.mp (h.column_at hf)
  refine ⟨by simp, j, hj, hget, fun i hi => ?_⟩
  have hi' : i < t.schema.fields.length := by
    have := (List.getElem?_eq_some_iff.mp hf).1
    omega
  have hfi := h.column_at (List.getElem?_eq_getElem hi')
  rw [List.getElem?_eq_getElem (by omega), Option.some.injEq] at hfi
  rw [hfi]
  have hlt : t.schema.place i < t.schema.place j := place_strictMono _ hi
  simpa using Nat.ne_of_lt hlt

/-- **A document is laid out as the ledger holds it.** -/
theorem Follows.values_eq (h : Follows t l) (d : Document) (p : Nat) :
    (encodeDoc t.schema d).at p = l.values d p := by
  by_cases hp : ∃ j f, t.schema.fields[j]? = some f ∧ t.schema.place j = p
  · obtain ⟨j, f, hf, rfl⟩ := hp
    rw [encodeDoc_at _ _ hf, Ledger.values, h.find_column hf]
  · have hnone : (l.columns.find? fun k => k.key == p) = none := by
      rw [List.find?_eq_none]
      intro k hk heq
      obtain ⟨j, hj⟩ := List.mem_iff_getElem?.mp hk
      rw [h.columns, List.getElem?_map] at hj
      obtain ⟨pf, hpf, rfl⟩ := Option.map_eq_some_iff.mp hj
      simp only [Schema.spots, List.getElem?_mapIdx] at hpf
      obtain ⟨f, hf, rfl⟩ := Option.map_eq_some_iff.mp hpf
      exact hp ⟨j, f, hf, eq_of_beq heq⟩
    rw [Ledger.values, hnone]
    refine encodeDoc_at_other fun j hj heq => hp ⟨j, _, List.getElem?_eq_getElem hj, heq⟩

theorem follows_create {name : String} {fields : List Field} {s : Schema}
    (h : Schema.create name fields = .ok s) :
    Follows ⟨s, fun _ => none⟩ (Ledger.create s.fields) := by
  obtain ⟨-, hok⟩ := create_ok h
  have hdropped : s.dropped = [] := by
    unfold Schema.create at h
    obtain ⟨_, -, h⟩ := bind_ok h
    obtain ⟨_, -, h⟩ := bind_ok h
    cases h
    rfl
  have hplace : ∀ n, s.place n = n := fun n => by rw [Schema.place, hdropped]; rfl
  refine ⟨?_, ?_, hok.nodup, hok.resolved, by simp [hdropped], by simp [hdropped],
    fun _ => by simp [Ledger.create], fun _ _ hrow => by cases hrow⟩
  · show s.fields.mapIdx _ = s.spots.map column
    apply List.ext_getElem?
    intro j
    simp only [Schema.spots, List.getElem?_map, List.getElem?_mapIdx, hplace]
    cases s.fields[j]? <;> rfl
  · show s.fields.length = _
    rw [hplace]

/-- A write is laid out by the schema of its moment. -/
theorem follows_write (h : Follows t l) {d : Document} (hd : Cells.SoundDoc d)
    (hshort : (Cells.encodeDoc t.schema d).length < 2 ^ 63) :
    Follows (t.write d) (l.write d) := by
  refine ⟨h.columns, h.next, h.names, h.resolved, h.ascending, h.past, fun id => ?_,
    fun id buf hrow => ?_⟩
  · by_cases hid : id = d.id
    · simp [Table.write, Ledger.write, hid]
    · simpa [Table.write, Ledger.write, hid] using h.absent id
  · by_cases hid : id = d.id
    · obtain ⟨cells, hholds⟩ := Cells.holds_encodeDoc hd hshort
      simp only [Table.write, hid, if_true, Option.some.injEq] at hrow
      subst hrow
      exact ⟨cells, _, l.values d, hholds, by simp [Ledger.write, hid], h.values_eq d⟩
    · simp only [Table.write, if_neg hid] at hrow
      obtain ⟨cells, P, held, hholds, hheld, hat⟩ := h.rows id buf hrow
      exact ⟨cells, P, held, hholds, by simpa [Ledger.write, hid] using hheld, hat⟩

end Follows

/-! ## 5. Changes -/

/-- Fields whose indexes are resolved are made as they are. -/
theorem map_resolved {fields : List Field} (h : ∀ f ∈ fields, f.index.resolved = f.index) :
    fields.map (fun f => { f with index := f.index.resolved }) = fields := by
  conv_rhs => rw [← List.map_id fields]
  refine List.map_congr_left fun f hf => ?_
  rw [h f hf]
  rfl

theorem fieldPos_getElem {s : Schema} {name : String} {pos : Nat} (h : s.fieldPos name = some pos) :
    ∃ f, s.fields[pos]? = some f ∧ f.name = name := by
  obtain ⟨hlt, hname, -⟩ := Schema.fieldPos_eq_some h
  exact ⟨_, List.getElem?_eq_getElem hlt, hname⟩

/-- **What a change does to the fields and their places.** -/
theorem alterSchema_ok {s : Schema} (hs : ∀ f ∈ s.fields, f.index.resolved = f.index)
    {change : Alter} {c : FieldChange} (h : alterSchema s change = .ok c) :
    (∃ f g, change = .addField f ∧ g.name = f.name ∧ g.ty = f.ty ∧
      c.schema.fields = s.fields ++ [g] ∧ c.schema.dropped = s.dropped ∧
      FieldsOk c.schema.fields) ∨
    (∃ pos f, change = .dropField f.name ∧ s.fields[pos]? = some f ∧
      c.schema.fields = s.fields.eraseIdx pos ∧
      c.schema.dropped = insertPlace (s.place pos) s.dropped) ∨
    (∃ pos f to_, change = .renameField f.name to_ ∧ s.fields[pos]? = some f ∧
      c.schema.fields = s.fields.modify pos (fun f => { f with name := to_ }) ∧
      c.schema.dropped = s.dropped ∧ FieldsOk c.schema.fields) ∨
    ∃ pos name ttl, change = .ttl name ttl ∧
      c.schema.fields = s.fields.modify pos (fun f => { f with index := .sorted ttl }) ∧
      c.schema.dropped = s.dropped := by
  cases change with
  | addField f =>
    unfold alterSchema at h
    dsimp only at h
    split at h
    · cases h
    · obtain ⟨made, hmade, h⟩ := bind_ok h
      cases h
      obtain ⟨hfields, hok⟩ := create_ok hmade
      rw [List.map_append, map_resolved hs] at hfields
      exact .inl ⟨f, { f with index := f.index.resolved }, rfl, rfl, rfl, hfields, rfl, hok⟩
  | dropField name =>
    unfold alterSchema at h
    dsimp only at h
    cases hpos : s.fieldPos name with
    | none =>
      rw [hpos] at h
      cases h
    | some pos =>
      obtain ⟨f, hf, rfl⟩ := fieldPos_getElem hpos
      rw [hpos] at h
      dsimp only at h
      split at h
      · cases h
      · cases h
        exact .inr (.inl ⟨pos, f, rfl, hf, rfl, rfl⟩)
  | renameField name to_ =>
    unfold alterSchema at h
    dsimp only at h
    cases hpos : s.fieldPos name with
    | none =>
      rw [hpos] at h
      cases h
    | some pos =>
      obtain ⟨f, hf, rfl⟩ := fieldPos_getElem hpos
      rw [hpos] at h
      obtain ⟨made, hmade, h⟩ := bind_ok h
      cases h
      obtain ⟨hfields, hok⟩ := create_ok hmade
      -- a rename leaves the index it finds
      have hres : ∀ g ∈ s.fields.modify pos (fun f => { f with name := to_ }),
          g.index.resolved = g.index := by
        intro g hg
        obtain ⟨j, hj⟩ := List.mem_iff_getElem?.mp hg
        rw [List.getElem?_modify] at hj
        obtain ⟨g', hg', rfl⟩ := Option.map_eq_some_iff.mp hj
        have hg'' := hs g' (List.mem_of_getElem? hg')
        split <;> exact hg''
      rw [map_resolved hres] at hfields
      exact .inr (.inr (.inl ⟨pos, f, to_, rfl, hf, hfields, rfl, hok⟩))
  | ttl name ttl =>
    unfold alterSchema at h
    dsimp only at h
    cases hpos : s.fieldPos name with
    | none =>
      rw [hpos] at h
      cases h
    | some pos =>
      rw [hpos] at h
      dsimp only at h
      split at h
      · obtain ⟨_, -, h⟩ := bind_ok h
        obtain ⟨_, -, h⟩ := bind_ok h
        cases h
        exact .inr (.inr (.inr ⟨pos, name, ttl, rfl, rfl, rfl⟩))
      · cases h

/-- **A change of the fields is followed**, the payloads left as they are. -/
theorem follows_alter {t : Table} {l : Ledger} (h : Follows t l) {change : Alter} {c : FieldChange}
    (hc : alterSchema t.schema change = .ok c) :
    Follows { t with schema := c.schema } (l.alter change) := by
  have hspotNames : (t.schema.spots.map fun pf => (column pf).name).Nodup :=
    (names_spots t.schema).symm ▸ h.names
  have hcolumnNames : (l.columns.map (·.name)).Nodup := by
    rw [h.columns, List.map_map]
    exact hspotNames
  rcases alterSchema_ok h.resolved hc with ⟨f, g, rfl, hname, hty, hfields, hdropped, hok⟩ |
    ⟨pos, f, rfl, hf, hfields, hdropped⟩ | ⟨pos, f, to_, rfl, hf, hfields, hdropped, hok⟩ |
    ⟨pos, name, ttl, rfl, hfields, hdropped⟩
  · -- the next place is the next identity
    have hspots := spots_add t.schema c.schema g hfields hdropped
    have hnext : c.schema.place c.schema.fields.length = l.next + 1 := by
      have hpast := h.past
      rw [h.next] at hpast ⊢
      rw [hfields, List.length_append, Schema.place, hdropped]
      exact place_succ_of_past hpast
    refine ⟨?_, hnext.symm, hok.nodup, hok.resolved, hdropped ▸ h.ascending, fun d hd => ?_,
      h.absent, h.rows⟩
    · show l.columns ++ _ = _
      rw [hspots, List.map_append, h.columns, h.next, ← hname, ← hty]
      rfl
    · exact Nat.lt_succ_of_lt (h.past d (hdropped ▸ hd))
  · have hspots := spots_drop t.schema c.schema pos hfields hdropped
    obtain ⟨hpos, -⟩ := List.getElem?_eq_some_iff.mp hf
    have hnext : l.next = c.schema.place c.schema.fields.length := by
      rw [h.next, Schema.place, Schema.place, hdropped, Schema.place, place_insertPlace, hfields,
        List.length_eraseIdx, if_pos hpos, if_neg (by omega), Nat.sub_add_cancel (by omega)]
    have hlt : t.schema.place pos < l.next := by
      rw [h.next]
      exact place_strictMono _ hpos
    refine ⟨?_, hnext, ?_, fun g hg => ?_, ?_, fun d hd => ?_, h.absent, h.rows⟩
    · show l.columns.filter _ = _
      have hcolumn := h.column_at hf
      rw [hspots, ← List.eraseIdx_map, ← h.columns]
      exact filter_name (g := Column.name) hcolumn hcolumnNames
    · rw [hfields]
      exact h.names.sublist ((List.eraseIdx_sublist _ _).map _)
    · rw [hfields] at hg
      exact h.resolved g (List.mem_of_mem_eraseIdx hg)
    · rw [hdropped]
      exact insertPlace_ascending h.ascending (place_notMem h.ascending pos)
    · rw [hdropped] at hd
      rcases mem_insertPlace.mp hd with rfl | hd
      · exact hlt
      · exact h.past d hd
  · have hspots := spots_modify t.schema c.schema pos _ hfields hdropped
    have hnext : l.next = c.schema.place c.schema.fields.length := by
      rw [h.next, Schema.place, Schema.place, hdropped, hfields, List.length_modify]
    refine ⟨?_, hnext, hok.nodup, hok.resolved, hdropped ▸ h.ascending, hdropped ▸ h.past,
      h.absent, h.rows⟩
    show l.columns.map _ = _
    have hcolumn := h.column_at hf
    rw [map_name (g := Column.name) hcolumn hcolumnNames, hspots, h.columns]
    symm
    apply map_modify
    exact fun _ => rfl
  · have hspots := spots_modify t.schema c.schema pos _ hfields hdropped
    have hnext : l.next = c.schema.place c.schema.fields.length := by
      rw [h.next, Schema.place, Schema.place, hdropped, hfields, List.length_modify]
    have hcolumns : l.columns = c.schema.spots.map column := by
      have hsame := map_modify (l := t.schema.spots) (i := pos) (h := column) (k := id)
        (f := fun pf => (pf.1, { pf.2 with index := .sorted ttl })) fun _ => rfl
      rw [h.columns, hspots, hsame, List.modify_id]
    have hnames : c.schema.fields.map (·.name) = t.schema.fields.map (·.name) := by
      rw [← names_spots, ← names_spots]
      have hc' := congrArg (List.map Column.name) (h.columns.symm.trans hcolumns)
      rw [List.map_map, List.map_map] at hc'
      exact hc'.symm
    refine ⟨hcolumns, hnext, hnames ▸ h.names, fun g hg => ?_, hdropped ▸ h.ascending,
      hdropped ▸ h.past, h.absent, h.rows⟩
    rw [hfields] at hg
    obtain ⟨j, hj⟩ := List.mem_iff_getElem?.mp hg
    rw [List.getElem?_modify] at hj
    obtain ⟨g', hg', rfl⟩ := Option.map_eq_some_iff.mp hj
    have hg'' := h.resolved g' (List.mem_of_getElem? hg')
    split
    · rfl
    · exact hg''

/-! ## 6. Every run -/

/-- **Every table that is reached follows its ledger**, by induction over the run. -/
theorem follows_reached {t : Table} {l : Ledger} (h : Reached t l) : Follows t l := by
  induction h with
  | create made => exact follows_create made
  | alter _ made ih => exact follows_alter ih made
  | write _ sound short ih => exact follows_write ih sound short

section Reading

variable {t : Table} {l : Ledger} {P : Payload} {held : Nat → Value}

/-- The document of a payload is the ledger's. -/
theorem Follows.readDoc_eq (h : Follows t l) (hat : ∀ p, P.at p = held p) (id : DocId) :
    readDoc t.schema id P = l.document id held := by
  unfold readDoc Ledger.document
  congr 1
  apply List.ext_getElem?
  intro j
  rw [h.columns]
  simp only [Schema.spots, List.getElem?_map, List.getElem?_mapIdx, hat]
  cases t.schema.fields[j]? <;> rfl

/-- A field's place is its column's identity. -/
theorem Follows.place_eq (h : Follows t l) {pos : Nat} {k : Column}
    (hk : l.columns[pos]? = some k) : t.schema.place pos = k.key := by
  rw [h.columns, List.getElem?_map] at hk
  obtain ⟨pf, hpf, rfl⟩ := Option.map_eq_some_iff.mp hk
  simp only [Schema.spots, List.getElem?_mapIdx] at hpf
  obtain ⟨f, -, rfl⟩ := Option.map_eq_some_iff.mp hpf
  rfl

/-- Identities stand once. -/
theorem Follows.keys_nodup (h : Follows t l) : (l.columns.map (·.key)).Nodup := by
  have hkeys : l.columns.map (·.key) = (List.range t.schema.fields.length).map t.schema.place := by
    rw [h.columns, List.map_map]
    apply List.ext_getElem?
    intro j
    simp only [Schema.spots, List.getElem?_map, List.getElem?_mapIdx]
    by_cases hj : j < t.schema.fields.length
    · simp [hj, column]
    · simp [hj]
  rw [hkeys]
  exact List.nodup_range.map (place_strictMono _).injective

end Reading

/-- **Altering a collection never changes what a document holds.**  Whatever was added, dropped,
renamed and written, a payload is there for exactly the documents the ledger holds, and every
reader of it answers what the ledger holds for the fields there are now; so does the payload
without its dropped places, under the schema with nothing dropped. -/
theorem alter_keeps_documents {t : Table} {l : Ledger} (h : Reached t l) (id : DocId)
    (o : Codec.Overflow) (log : List (Codec.Tag × Nat)) :
    (l.columns.map (·.key)).Nodup ∧ (t.rows id = none ↔ l.held id = none) ∧
    ∀ buf, t.rows id = some buf → ∃ held, l.held id = some held ∧
      (∃ c, Cells.readDoc o buf t.schema id ⟨0, log⟩ = (.ok (l.document id held), c)) ∧
      (∀ pos k, l.columns[pos]? = some k →
        ∃ c, Cells.readField o buf t.schema pos ⟨0, log⟩ = (.ok (held k.key), c)) ∧
      (∀ (places : List Nat) (out : List Value), places.Pairwise (· < ·) →
        ∃ c, Cells.readFields o buf 0 places out ⟨0, log⟩ =
          (.ok (places.map held ++ out.drop places.length), c)) ∧
      (∀ pos k, l.columns[pos]? = some k → t.schema.place pos = k.key) ∧
      (∀ (paths : List (Nat × String)) (out : List Value),
        ∃ c, Cells.readPaths o buf t.schema 0 paths out ⟨0, log⟩ =
          (.ok ((paths.take out.length).map (fun p => (held (t.schema.place p.1)).atPath p.2) ++
            out.drop paths.length), c)) ∧
      ∃ small c, Cells.withoutDropped o buf t.schema.dropped ⟨0, log⟩ = (.ok small, c) ∧
        ∃ c', Cells.readDoc o small { t.schema with dropped := [] } id ⟨0, log⟩ =
          (.ok (l.document id held), c') := by
  have hf := follows_reached h
  refine ⟨hf.keys_nodup, hf.absent id, fun buf hrow => ?_⟩
  obtain ⟨cells, P, held, hholds, hheld, hat⟩ := hf.rows id buf hrow
  have hfun : P.at = held := funext hat
  subst hfun
  -- a reader that goes from the first cell answers from the start of the payload
  have hgo : ∀ {α : Type} {m : Codec.Dec α} {cells : List (List UInt8)} {j : Nat} {a : α},
      Cells.Goes cells m 0 j a → ∃ c, m ⟨0, log⟩ = (.ok a, c) := by
    intro α m cells j a hm
    obtain ⟨l, hl⟩ := hm ⟨0, log⟩ Chunks.start_zero.symm
    exact ⟨_, hl⟩
  refine ⟨_, hheld, ?_, fun pos k hk => ?_, fun places out hasc => ?_,
    fun pos k hk => hf.place_eq hk, fun paths out => ?_, ?_⟩
  · obtain ⟨j, hj⟩ := hholds.readDoc_goes (o := o) t.schema id
    rw [hf.readDoc_eq hat id] at hj
    exact hgo hj
  · have hread := hholds.readField_goes (o := o) t.schema pos
    rw [hf.place_eq hk] at hread
    exact hgo hread
  · obtain ⟨j, hj⟩ := hholds.readFields_goes (o := o) places 0 out
      (fun _ _ => Nat.zero_le _) hasc
    exact hgo hj
  · obtain ⟨j, hj⟩ := hholds.readPaths_goes (o := o) t.schema paths 0 out
    exact hgo hj
  · obtain ⟨small, ⟨j, hj⟩, hsmall⟩ := hholds.withoutDropped_goes (o := o) t.schema.dropped
    obtain ⟨c, hc⟩ := hgo hj
    refine ⟨small, c, hc, ?_⟩
    obtain ⟨j', hj'⟩ := hsmall.readDoc_goes (o := o) { t.schema with dropped := [] } id
    rw [Cells.Holds.readDoc_kept hf.ascending, hf.readDoc_eq hat id] at hj'
    exact hgo hj'

/-- A field of a name and a type. -/
def plain (name : String) (ty : DataType) : Field := ⟨name, ty, .none, false, none, false⟩

theorem alter_keeps_documents_renamed : ∃ c,
    Cells.readDoc .wraps
      (Cells.encodeDoc ⟨"t", [plain "a" .int, plain "b" .text], [], [], []⟩
        ⟨1, [("a", .int 7), ("b", .text "x")]⟩)
      ⟨"t", [plain "e" .text, plain "c" .int], [], [0], []⟩ 1 ⟨0, []⟩ =
        (.ok ⟨1, [("e", .text "x"), ("c", .null)]⟩, c) := by
  have h₀ : Reached ⟨⟨"t", [plain "a" .int, plain "b" .text], [], [], []⟩, fun _ => none⟩ _ :=
    .create (show Schema.create "t" [plain "a" .int, plain "b" .text] = .ok _ from rfl)
  have hsound : Cells.SoundDoc ⟨1, [("a", .int 7), ("b", .text "x")]⟩ := by
    intro kv hkv
    rcases List.mem_pair.mp hkv with rfl | rfl
    · exact .other (by simp) (by simp)
    · exact .other (by simp) (by simp)
  have h₁ := h₀.write hsound (by decide)
  have h₂ := h₁.alter (show alterSchema _ (.dropField "a") = .ok
    ⟨.drop, "a", "", ⟨"t", [plain "b" .text], [], [0], []⟩⟩ by decide)
  have h₃ := h₂.alter (show alterSchema _ (.renameField "b" "e") = .ok
    ⟨.rename, "b", "e", ⟨"t", [plain "e" .text], [], [0], []⟩⟩ by decide)
  have h₄ := h₃.alter (show alterSchema _ (.addField (plain "c" .int)) = .ok
    ⟨.add, "c", "", ⟨"t", [plain "e" .text, plain "c" .int], [], [0], []⟩⟩ by decide)
  obtain ⟨held, hheld, hread, -⟩ := (alter_keeps_documents h₄ 1 .wraps []).2.2 _ rfl
  cases hheld
  exact hread

end Altered

end Fenec
