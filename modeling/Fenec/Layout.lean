/-
# Where names read

A field added, dropped or renamed leaves the stored payloads as they are, so what matters of a
schema to a stored row is where each name reads: `spots` lists the fields with their places, and
`reading` is all an index has to know of a name, its place, the keys into the value there, and
the type, fold and order of what it finds.

`spots_drop` and its siblings say what a change of the fields does to the spots: a drop takes one
out and leaves the others where they are, though their positions shift.  An index on a name whose
reading a change leaves alone is as good after it as before: `Schema.Agrees` and `Schema.Within`
say so of all names at once.
-/
import Fenec.Collection

namespace Fenec

open Lib Case

/-! ## 1. Spots -/

/-- The fields, each with the place it stands in. -/
def Schema.spots (s : Schema) : List (Nat × Field) := s.fields.mapIdx fun i f => (s.place i, f)

/-- The field of a name and its place. -/
def Schema.spot (s : Schema) (n : String) : Option (Nat × Field) :=
  s.spots.find? fun pf => pf.2.name == n

theorem find_mapIdx {α β : Type} (g : Nat → β) (p : α → Bool) (l : List α) :
    (l.mapIdx fun i a => (g i, a)).find? (fun ba => p ba.2) =
      (l.findIdx? p).bind fun i => (l[i]?).map fun a => (g i, a) := by
  induction l generalizing g with
  | nil => rfl
  | cons a l ih =>
    rw [List.mapIdx_cons, List.findIdx?_cons]
    cases hp : p a with
    | true => simp [hp]
    | false =>
      rw [List.find?_cons_of_neg (by simpa using hp), ih fun i => g (i + 1)]
      cases l.findIdx? p with
      | none => rfl
      | some i => simp

theorem spot_eq (s : Schema) (n : String) :
    s.spot n = (s.fieldPos n).bind fun i => (s.fields[i]?).map fun f => (s.place i, f) :=
  find_mapIdx s.place (fun f : Field => f.name == n) s.fields

theorem spot_of_fieldPos {s : Schema} {n : String} {i : Nat} {f : Field}
    (h : s.fieldPos n = some i) (hf : s.fields[i]? = some f) :
    s.spot n = some (s.place i, f) := by
  rw [spot_eq, h, Option.bind_some, hf]
  rfl

theorem spot_eq_none {s : Schema} {n : String} (h : s.fieldPos n = none) : s.spot n = none := by
  rw [spot_eq, h]
  rfl

/-! ## 2. Readings -/

/-- What an index has to know of a name. -/
structure Reading where
  place : Nat
  keys : Option String
  ty : DataType
  fold : Option CaseFold
  order : TextOrder
deriving DecidableEq

/-- What a bare name reads. -/
def Reading.field (pf : Nat × Field) : Reading :=
  ⟨pf.1, none, pf.2.ty, pf.2.caseFold, pf.2.textOrder⟩

/-- Whether the keys past a path's field are ones a path may have. -/
def pathOk (keys : String) : Bool :=
  !(Value.pathKeys keys).contains "" && decide ((Value.pathKeys keys).length ≤ maxPathKeys)

/-- What a path into a field reads. -/
def Reading.path (keys : String) (pf : Nat × Field) : Option Reading :=
  if pf.2.ty = .json ∧ pathOk keys = true then some ⟨pf.1, some keys, .json, none, .bytes⟩
  else none

/-- **What a name reads.** -/
def Schema.reading (s : Schema) (n : String) : Option Reading :=
  match splitPath n with
  | none => (s.spot n).map Reading.field
  | some (field, keys) => (s.spot field).bind (Reading.path keys)

/-- The value a payload holds there. -/
def Reading.at (r : Reading) (p : Payload) : Value := under r.keys (p.at r.place)

theorem pathOf_of_split {s : Schema} {n field keys : String}
    (h : splitPath n = some (field, keys)) :
    (∃ pos f, s.fieldPos field = some pos ∧ s.fields[pos]? = some f ∧ f.ty = .json ∧
      pathOk keys = true ∧ s.pathOf n = .ok (some (pos, keys))) ∨
      ((s.spot field).bind (Reading.path keys) = none ∧ ∃ e, s.pathOf n = .error e) := by
  unfold Schema.pathOf
  rw [h]
  dsimp only
  cases hpos : s.fieldPos field with
  | none => exact .inr ⟨by rw [spot_eq_none hpos]; rfl, _, rfl⟩
  | some pos =>
    obtain ⟨hlt, -, -⟩ := Schema.fieldPos_eq_some hpos
    have hf : s.fields[pos]? = some (s.fields.get ⟨pos, hlt⟩) := by simp
    have hspot := spot_of_fieldPos hpos hf
    simp only [hf, Option.map_some, Option.getD_some]
    by_cases hty : (s.fields.get ⟨pos, hlt⟩).ty = .json
    · rw [if_neg (by simpa using hty)]
      by_cases hempty : (Value.pathKeys keys).contains "" = true
      · rw [if_pos hempty]
        refine .inr ⟨?_, _, rfl⟩
        simp only [hspot, Option.bind_some, Reading.path, pathOk, hempty]
        simp
      · rw [if_neg hempty]
        by_cases hlong : (Value.pathKeys keys).length > maxPathKeys
        · rw [if_pos hlong]
          refine .inr ⟨?_, _, rfl⟩
          simp only [hspot, Option.bind_some, Reading.path, pathOk]
          simp [Nat.not_le.mpr hlong]
        · rw [if_neg hlong]
          refine .inl ⟨pos, _, rfl, hf, hty, ?_, rfl⟩
          rw [Bool.not_eq_true] at hempty
          simp only [pathOk, hempty, Bool.not_false, Bool.true_and]
          exact decide_eq_true (Nat.not_lt.mp hlong)
    · rw [if_pos (by simpa using hty)]
      refine .inr ⟨?_, _, rfl⟩
      simp only [hspot, Option.bind_some, Reading.path, hty]
      simp

/-- **A reading is a source, its place, and what stands there.** -/
theorem reading_eq_some {s : Schema} {n : String} {r : Reading} :
    s.reading n = some r ↔ ∃ src f, source s n = some src ∧ s.fields[src.1]? = some f ∧
      r = (match src.2 with
        | none => Reading.field (s.place src.1, f)
        | some keys => ⟨s.place src.1, some keys, .json, none, .bytes⟩) := by
  unfold Schema.reading source
  cases hsplit : splitPath n with
  | none =>
    have hpath : s.pathOf n = .ok none := by simp [Schema.pathOf, hsplit]
    simp only [hpath]
    rw [spot_eq]
    constructor
    · intro h
      obtain ⟨pf, hpf, rfl⟩ := Option.map_eq_some_iff.mp h
      obtain ⟨i, hi, hif⟩ := Option.bind_eq_some_iff.mp hpf
      obtain ⟨f, hf, rfl⟩ := Option.map_eq_some_iff.mp hif
      exact ⟨(i, none), f, by rw [hi]; rfl, hf, rfl⟩
    · rintro ⟨src, f, hsrc, hf, rfl⟩
      obtain ⟨i, hi, rfl⟩ := Option.map_eq_some_iff.mp hsrc
      simp [hi, hf]
  | some fk =>
    obtain ⟨field, keys⟩ := fk
    dsimp only
    rcases pathOf_of_split (s := s) hsplit with ⟨pos, f, hpos, hf, hty, hok, hpath⟩ | ⟨hnone, e, hpath⟩
    · rw [spot_of_fieldPos hpos hf, hpath]
      simp only [Option.bind_some, Reading.path, hty, hok, and_self, if_true, Option.some.injEq]
      constructor
      · rintro rfl
        exact ⟨(pos, some keys), f, rfl, hf, rfl⟩
      · rintro ⟨src, g, rfl, -, rfl⟩
        rfl
    · rw [hnone, hpath]
      simp

/-- A path reads where its field stands. -/
theorem pathOf_iff_reading {s : Schema} {n : String} :
    (∃ pos keys, s.pathOf n = .ok (some (pos, keys))) ↔
      (splitPath n).isSome = true ∧ (s.reading n).isSome = true := by
  unfold Schema.reading
  cases hsplit : splitPath n with
  | none => simp [Schema.pathOf, hsplit]
  | some fk =>
    obtain ⟨field, keys⟩ := fk
    dsimp only
    rcases pathOf_of_split (s := s) hsplit with
      ⟨pos, f, hpos, hf, hty, hok, hpath⟩ | ⟨hnone, e, hpath⟩
    · rw [spot_of_fieldPos hpos hf, hpath]
      simp [Reading.path, hty, hok]
    · rw [hnone, hpath]
      simp

/-- The type of a composite's key is that of what it reads. -/
theorem partType_iff_reading {s : Schema} {k : String} {ty : DataType} :
    s.partType k = .ok ty ↔ ∃ r, s.reading k = some r ∧ r.ty = ty := by
  unfold Schema.partType Schema.reading
  cases hsplit : splitPath k with
  | none =>
    have hpath : s.pathOf k = .ok none := by simp [Schema.pathOf, hsplit]
    rw [hpath, spot_eq]
    simp only [Result.ok_bind, Option.isSome_none, Bool.false_eq_true, if_false]
    cases hpos : s.fieldPos k with
    | none => simp [Schema.fieldPos_eq_none hpos]
    | some pos =>
      obtain ⟨hlt, -, hfield⟩ := Schema.fieldPos_eq_some hpos
      simp [hfield, hlt, Reading.field]
  | some fk =>
    obtain ⟨field, keys⟩ := fk
    dsimp only
    rcases pathOf_of_split (s := s) hsplit with
      ⟨pos, f, hpos, hf, hty, hok, hpath⟩ | ⟨hnone, e, hpath⟩
    · rw [spot_of_fieldPos hpos hf, hpath]
      simp [Reading.path, hty, hok]
    · rw [hnone, hpath]
      simp

/-- What a declared name reads, as the readers say it. -/
theorem ReadsAt.reading {s : Schema} (hs : s.Checked) {f : Field} {src : Nat × Option String}
    (h : ReadsAt s f src) :
    s.reading f.name = some ⟨s.place src.1, src.2, f.ty, f.caseFold, f.textOrder⟩ := by
  obtain ⟨pos, keys⟩ := src
  obtain ⟨g, hg, hcases⟩ := source_cases h.source
  rw [reading_eq_some]
  refine ⟨(pos, keys), g, h.source, hg, ?_⟩
  rcases hcases with ⟨rfl, hsplit, hname⟩ | ⟨ks, rfl, hsplit, -⟩
  · rcases h.ty with ⟨-, hf⟩ | ⟨hsome, -⟩
    · rw [hg] at hf
      cases hf
      rfl
    · cases hsome
  · have hind := h.indexed
    simp only [Schema.indexed, hsplit] at hind
    have hmem : f ∈ s.paths := List.mem_of_find?_eq_some hind
    obtain ⟨hcoll, hcase⟩ := hs.paths_plain f hmem
    simp only [hs.paths_json f hmem, Field.caseFold, Field.textOrder, hcoll, hcase]
    rfl

/-- The order of a key's texts, and what it reads in a row. -/
theorem reading_part {s : Schema} (hs : s.WF) {k : String} {r : Reading}
    (h : s.reading k = some r) : ((s.field k).map Field.textOrder).getD .bytes = r.order ∧
      ∀ p, readAt s p ((source s k).getD (0, none)) = r.at p := by
  obtain ⟨⟨pos, keys⟩, f, hsrc, hf, rfl⟩ := reading_eq_some.mp h
  obtain ⟨g, hg, hcases⟩ := source_cases hsrc
  rw [hf] at hg
  cases hg
  rcases hcases with ⟨rfl, hsplit, rfl⟩ | ⟨ks, rfl, hsplit, -⟩
  · have hfield : s.field f.name = some f := find_eq_of_mem hs.nodup (List.mem_of_getElem? hf)
    refine ⟨by rw [hfield]; rfl, fun p => by rw [hsrc]; rfl⟩
  · have hfield : s.field k = none := by
      rw [Schema.field, List.find?_eq_none]
      intro g hg hname
      rw [← eq_of_beq hname, splitPath_eq_none (hs.no_dot g hg)] at hsplit
      cases hsplit
    refine ⟨by rw [hfield]; rfl, fun p => by rw [hsrc]; rfl⟩

/-! ## 3. Changed fields -/

/-- A place put among the dropped ones, which are ascending. -/
def insertPlace (p : Nat) : List Nat → List Nat
  | [] => [p]
  | d :: ds => if d < p then d :: insertPlace p ds else p :: d :: ds

/-- **The fields past a dropped one keep their places**, each found a position earlier. -/
theorem place_insertPlace (ds : List Nat) (pos j : Nat) :
    place (insertPlace (place ds pos) ds) j =
      if j < pos then place ds j else place ds (j + 1) := by
  induction ds generalizing pos j with
  | nil =>
    show (if pos > j then j else j + 1) = if j < pos then j else j + 1
    rfl
  | cons d ds ih =>
    by_cases hd : d > pos
    · -- the dropped place is before the first that was dropped already
      have hp : place (d :: ds) pos = pos := by simp [place, hd]
      have hins : insertPlace pos (d :: ds) = pos :: d :: ds := by
        simp [insertPlace, Nat.not_lt.mpr (Nat.le_of_lt hd)]
      rw [hp, hins]
      by_cases h : j < pos
      · rw [if_pos h, place, if_pos h, place, if_pos (Nat.lt_trans h hd)]
      · rw [if_neg h, place, if_neg h]
    · have hp : place (d :: ds) pos = place ds (pos + 1) := by simp [place, hd]
      have hlt : d < place ds (pos + 1) := by
        have := le_place ds (pos + 1)
        omega
      have hins : insertPlace (place ds (pos + 1)) (d :: ds) =
          d :: insertPlace (place ds (pos + 1)) ds := by simp [insertPlace, hlt]
      rw [hp, hins, place]
      by_cases h : j < pos
      · rw [if_pos h, place]
        split
        · rfl
        · rw [ih, if_pos (by omega)]
      · rw [if_neg h, if_neg (by omega), ih, if_neg (by omega), place, if_neg (by omega)]

/-- A drop takes one spot out. -/
theorem spots_drop (s s' : Schema) (pos : Nat) (hf : s'.fields = s.fields.eraseIdx pos)
    (hd : s'.dropped = insertPlace (s.place pos) s.dropped) :
    s'.spots = s.spots.eraseIdx pos := by
  apply List.ext_getElem?
  intro j
  simp only [Schema.spots, List.getElem?_mapIdx, List.getElem?_eraseIdx, hf, Schema.place, hd,
    place_insertPlace]
  split <;> rfl

theorem spots_add (s s' : Schema) (f : Field) (hf : s'.fields = s.fields ++ [f])
    (hd : s'.dropped = s.dropped) :
    s'.spots = s.spots ++ [(s.place s.fields.length, f)] := by
  simp only [Schema.spots, Schema.place, hf, hd, List.mapIdx_append, List.mapIdx_cons,
    List.mapIdx_nil, Nat.zero_add]

theorem spots_modify (s s' : Schema) (pos : Nat) (g : Field → Field)
    (hf : s'.fields = s.fields.modify pos g) (hd : s'.dropped = s.dropped) :
    s'.spots = s.spots.modify pos fun pf => (pf.1, g pf.2) := by
  apply List.ext_getElem?
  intro j
  simp only [Schema.spots, List.getElem?_mapIdx, List.getElem?_modify, hf, Schema.place, hd]
  split <;> cases s.fields[j]? <;> rfl

/-! ## 4. Spots by name -/

theorem fields_spots (s : Schema) : s.spots.map (·.2) = s.fields := by
  apply List.ext_getElem?
  intro j
  simp only [Schema.spots, List.getElem?_map, List.getElem?_mapIdx]
  cases s.fields[j]? <;> rfl

theorem names_spots (s : Schema) : s.spots.map (·.2.name) = s.fields.map (·.name) := by
  rw [← fields_spots s, List.map_map]
  rfl

/-- **The spot of a name is the one there is.** -/
theorem spot_eq_some {s : Schema} (hs : (s.fields.map (·.name)).Nodup) {n : String}
    {pf : Nat × Field} : s.spot n = some pf ↔ pf ∈ s.spots ∧ pf.2.name = n := by
  constructor
  · intro h
    exact ⟨List.mem_of_find?_eq_some h, by simpa using List.find?_some h⟩
  · rintro ⟨hmem, rfl⟩
    rw [← names_spots] at hs
    cases h : s.spot pf.2.name with
    | none =>
      have := List.find?_eq_none.mp h pf hmem
      simp at this
    | some qg =>
      have hmem' := List.mem_of_find?_eq_some h
      have hname : qg.2.name = pf.2.name := by simpa using List.find?_some h
      rw [List.inj_on_of_nodup_map hs hmem' hmem hname]

section

variable {α β : Type} {l : List α} {i : Nat} {a x : α} {g : α → β}

theorem split_at (ha : l[i]? = some a) : l = l.take i ++ a :: l.drop (i + 1) := by
  obtain ⟨hlt, rfl⟩ := List.getElem?_eq_some_iff.mp ha
  rw [List.cons_getElem_drop_succ, List.take_append_drop]

/-- What is left of a list of distinct names without one of them. -/
theorem mem_eraseIdx_name (ha : l[i]? = some a) (hn : (l.map g).Nodup) :
    x ∈ l.eraseIdx i ↔ x ∈ l ∧ g x ≠ g a := by
  have hsplit := split_at ha
  rw [hsplit, List.map_append, List.map_cons, List.nodup_middle, List.nodup_cons,
    ← List.map_append] at hn
  have hne : ∀ y ∈ l.take i ++ l.drop (i + 1), g y ≠ g a := fun y hy heq =>
    hn.1 (heq ▸ List.mem_map_of_mem hy)
  rw [List.eraseIdx_eq_take_drop_succ]
  constructor
  · intro hx
    refine ⟨?_, hne x hx⟩
    rw [hsplit]
    rcases List.mem_append.mp hx with h | h
    · exact List.mem_append_left _ h
    · exact List.mem_append_right _ (List.mem_cons_of_mem _ h)
  · rintro ⟨hx, hxa⟩
    rw [hsplit] at hx
    rcases List.mem_append.mp hx with h | h
    · exact List.mem_append_left _ h
    · rcases List.mem_cons.mp h with rfl | h
      · exact absurd rfl hxa
      · exact List.mem_append_right _ h

/-- A list of distinct names with one thing changed. -/
theorem mem_modify_name (f : α → α) (ha : l[i]? = some a) (hn : (l.map g).Nodup) :
    x ∈ l.modify i f ↔ x = f a ∨ x ∈ l ∧ g x ≠ g a := by
  obtain ⟨hlt, hget⟩ := List.getElem?_eq_some_iff.mp ha
  rw [← mem_eraseIdx_name ha hn, List.eraseIdx_eq_take_drop_succ,
    List.modify_eq_take_cons_drop hlt, hget]
  simp only [List.mem_append, List.mem_cons]
  tauto

end

section

variable {s s' : Schema} {pos : Nat} {f : Field}

theorem spots_getElem (hf : s.fields[pos]? = some f) : s.spots[pos]? = some (s.place pos, f) := by
  simp [Schema.spots, List.getElem?_mapIdx, hf]

/-- **A dropped name reads nothing, and the others what they did.** -/
theorem spot_drop (hs : (s.fields.map (·.name)).Nodup) (hf : s.fields[pos]? = some f)
    (hspots : s'.spots = s.spots.eraseIdx pos) (n : String) :
    s'.spot n = if n = f.name then none else s.spot n := by
  have hmem : ∀ pf, pf ∈ s'.spots ↔ pf ∈ s.spots ∧ pf.2.name ≠ f.name := fun pf => by
    rw [hspots]
    exact mem_eraseIdx_name (g := fun pf => pf.2.name) (spots_getElem hf)
      ((names_spots s).symm ▸ hs)
  have hs' : (s'.fields.map (·.name)).Nodup := by
    rw [← names_spots, hspots]
    exact ((names_spots s).symm ▸ hs).sublist ((List.eraseIdx_sublist _ _).map _)
  ext pf
  rw [spot_eq_some hs', hmem]
  split
  · next heq =>
    subst heq
    simp only [reduceCtorEq, iff_false]
    rintro ⟨⟨-, hne⟩, heq⟩
    exact hne heq
  · next hne =>
    rw [spot_eq_some hs]
    constructor
    · rintro ⟨⟨h, -⟩, rfl⟩
      exact ⟨h, rfl⟩
    · rintro ⟨h, rfl⟩
      exact ⟨⟨h, hne⟩, rfl⟩

/-- **An added name reads the place past the others, and they what they did.** -/
theorem spot_add (hs' : (s'.fields.map (·.name)).Nodup)
    (hspots : s'.spots = s.spots ++ [(s.place s.fields.length, f)]) (n : String) :
    s'.spot n = if n = f.name then some (s.place s.fields.length, f) else s.spot n := by
  rw [← names_spots, hspots, List.map_append, List.nodup_append] at hs'
  unfold Schema.spot
  rw [hspots, List.find?_append]
  split
  · next heq =>
    have hnone : s.spots.find? (fun pf => pf.2.name == n) = none := by
      rw [List.find?_eq_none]
      intro pf hpf hname
      refine hs'.2.2 pf.2.name (List.mem_map_of_mem (f := fun pf => pf.2.name) hpf) f.name
        (by simp) ?_
      rw [← heq]
      simpa using hname
    rw [hnone]
    simp [heq]
  · next hne =>
    simp [Ne.symm hne]

/-- **A changed field reads where it did, under the name it has now.** -/
theorem spot_modify (hs : (s.fields.map (·.name)).Nodup) (hs' : (s'.fields.map (·.name)).Nodup)
    (hf : s.fields[pos]? = some f) (g : Field → Field)
    (hspots : s'.spots = s.spots.modify pos fun pf => (pf.1, g pf.2)) (n : String) :
    s'.spot n = if n = (g f).name then some (s.place pos, g f)
      else if n = f.name then none else s.spot n := by
  have hmem : ∀ pf, pf ∈ s'.spots ↔ pf = (s.place pos, g f) ∨
      pf ∈ s.spots ∧ pf.2.name ≠ f.name := fun pf => by
    rw [hspots]
    exact mem_modify_name (g := fun pf => pf.2.name) _ (spots_getElem hf)
      ((names_spots s).symm ▸ hs)
  split
  · next heq => exact (spot_eq_some hs').mpr ⟨(hmem _).mpr (.inl rfl), heq.symm⟩
  · next hne =>
    ext pf
    rw [spot_eq_some hs', hmem]
    constructor
    · rintro ⟨rfl | ⟨h, hold⟩, rfl⟩
      · exact absurd rfl hne
      · rw [if_neg hold, spot_eq_some hs]
        exact ⟨h, rfl⟩
    · intro h
      split at h
      · cases h
      · next hold =>
        obtain ⟨hpf, rfl⟩ := (spot_eq_some hs).mp h
        exact ⟨.inr ⟨hpf, hold⟩, rfl⟩

end

/-! ## 5. Readings by bare name -/

/-- What a bare name reads. -/
def Schema.look (s : Schema) (n : String) : Option Reading := (s.spot n).map Reading.field

/-- What a path past a field reads, by what the field does. -/
def Reading.into (keys : String) (r : Reading) : Option Reading :=
  if r.ty = .json ∧ pathOk keys = true then some ⟨r.place, some keys, .json, none, .bytes⟩
  else none

section

variable {s s' : Schema} {n field keys : String}

theorem reading_bare (h : splitPath n = none) : s.reading n = s.look n := by
  rw [Schema.reading, h]
  rfl

theorem reading_path (h : splitPath n = some (field, keys)) :
    s.reading n = (s.look field).bind (Reading.into keys) := by
  rw [Schema.reading, h, Schema.look, Option.bind_map]
  rfl

/-- **Schemas that look the same up under two fields read the same past them.** -/
theorem reading_congr {n' field' : String} (h : splitPath n = some (field, keys))
    (h' : splitPath n' = some (field', keys)) (hlook : s'.look field' = s.look field) :
    s'.reading n' = s.reading n := by
  rw [reading_path h, reading_path h', hlook]

/-- Where two names read, they read the same. -/
def Schema.Agrees (s s' : Schema) : Prop :=
  ∀ n r r', s.reading n = some r → s'.reading n = some r' → r = r'

/-- What one schema reads the other does, and the same. -/
def Schema.Within (s s' : Schema) : Prop := ∀ n r, s.reading n = some r → s'.reading n = some r

theorem agrees_of_look (h : ∀ n r r', s.look n = some r → s'.look n = some r' → r = r') :
    s.Agrees s' := by
  intro n r r' hr hr'
  cases hsplit : splitPath n with
  | none =>
    rw [reading_bare hsplit] at hr hr'
    exact h n r r' hr hr'
  | some fk =>
    obtain ⟨field, keys⟩ := fk
    rw [reading_path hsplit] at hr hr'
    obtain ⟨q, hq, hr⟩ := Option.bind_eq_some_iff.mp hr
    obtain ⟨q', hq', hr'⟩ := Option.bind_eq_some_iff.mp hr'
    rw [← h field q q' hq hq', hr] at hr'
    exact Option.some.inj hr'

theorem within_of_look (h : ∀ n r, s.look n = some r → s'.look n = some r) : s.Within s' := by
  intro n r hr
  cases hsplit : splitPath n with
  | none =>
    rw [reading_bare hsplit] at hr ⊢
    exact h n r hr
  | some fk =>
    obtain ⟨field, keys⟩ := fk
    rw [reading_path hsplit] at hr ⊢
    obtain ⟨q, hq, hr⟩ := Option.bind_eq_some_iff.mp hr
    rw [h field q hq, Option.bind_some, hr]

theorem Schema.Within.agrees (h : s.Within s') : s.Agrees s' := by
  intro n r r' hr hr'
  rw [h n r hr] at hr'
  exact Option.some.inj hr'

/-- A name reads nothing where the field it starts from is none. -/
theorem look_eq_none (h : s.fieldPos n = none) : s.look n = none := by
  rw [Schema.look, spot_eq_none h]
  rfl

theorem look_of_getElem (hs : s.WF) {pos : Nat} {f : Field} (hf : s.fields[pos]? = some f) :
    s.look f.name = some (Reading.field (s.place pos, f)) := by
  rw [Schema.look, spot_of_fieldPos (fieldPos_of_getElem hs hf) hf]
  rfl

end

end Fenec
