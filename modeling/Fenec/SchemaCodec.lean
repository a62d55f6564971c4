/-
# A schema written and read back

A collection's declaration goes into the log as bytes: its name, a count, and that many places.
A place is a field (its name, its collation and fold where it has them, its type, whether it is
required, its index and, for a json field, the indexed paths into it), or a dropped one (an empty
name and a tag of its own), and the composites follow the last place as one more, of an empty name
and another tag.  Fields, dropped places and composites so share one count and one space of tags:
that a reader tells them apart rests on no field's name being empty and on no type's tag being one
of theirs.

`Schema.encode` walks the places and takes the next field at each that was not dropped;
`Schema.decode` counts places and has to find the same positions dropped.  Paths are written with
their field, so they are read in the order of the fields: `decode` gives back the list `addPath`
keeps because `addPath` keeps it in that order (`Canonical.grouped`), and a field added or dropped
leaves it so.  `decode_undoes_schema` says it of every schema that is made.
-/
import Fenec.Altered
import Fenec.RoundTrip
import Fenec.Write

namespace Fenec

open Lib Reader Codec

/-! ## 1. Codes and tags -/

/-- `TAG_COLLATED`: the field's collation follows. -/
def tagCollated : UInt8 := 11

/-- `TAG_DROPPED`: the place is of a dropped field. -/
def tagDropped : UInt8 := 12

/-- `TAG_COMPOSITES`: the composites follow. -/
def tagComposites : UInt8 := 16

/-- `TAG_NOCASE`: the field's texts are compared by their fold. -/
def tagNocase : UInt8 := 17

/-- `Metric::code`. -/
def Metric.code : Metric → UInt8
  | .cosine => 0
  | .l2 => 1
  | .dot => 2

/-- `Metric::from_code`. -/
def Metric.fromCode (c : UInt8) : Except Fault Metric :=
  if c = 0 then .ok .cosine
  else if c = 1 then .ok .l2
  else if c = 2 then .ok .dot
  else .error (.corrupt ("unknown metric " ++ toString c.toNat))

/-- `Quant::code`. -/
def Quant.code : Quant → UInt8
  | .none => 0
  | .int8 => 1
  | .bit => 2

/-- `Quant::from_code`. -/
def Quant.fromCode (c : UInt8) : Option Quant :=
  if c = 0 then some .none
  else if c = 1 then some .int8
  else if c = 2 then some .bit
  else none

/-- `Collation::code`. -/
def Collation.code : Collation → UInt8
  | .turkish => 1
  | .root => 2

/-- `Collation::from_code`. -/
def Collation.fromCode (c : UInt8) : Option Collation :=
  if c = 1 then some .turkish
  else if c = 2 then some .root
  else none

/-- `b as u8`. -/
def flag (b : Bool) : UInt8 := if b then 1 else 0

/-! ## 2. Writing -/

/-- `encode_type`. -/
def encodeType : DataType → List UInt8
  | .bool => [1]
  | .int => [2]
  | .float => [3]
  | .text => [4]
  | .bytes => [5]
  | .timestamp => [9]
  | .vector d .f32 => 6 :: uvarint d
  | .vector d .f16 => 8 :: uvarint d
  | .list inner => 7 :: encodeType inner
  | .sparse d => 10 :: uvarint d
  | .json => [14]
  | .geo => [15]

/-- `encode_index`. -/
def encodeIndex : IndexKind → List UInt8
  | .none => [0]
  | .hash unique => [if unique then 8 else 1]
  | .vector spec =>
    (if spec.quant = .none then 2 else 5) :: spec.metric.code :: (uvarint spec.m ++
      (uvarint spec.efConstruction ++ (uvarint spec.efSearch ++
        if spec.quant = .none then [] else [spec.quant.code])))
  | .text spec =>
    (if spec.chars then 7 else 3) :: (uvarint spec.k1Pct ++ (uvarint spec.bPct ++
      (uvarint spec.prefixMax ++ uvarint spec.prefixMin)))
  | .sorted none => [4]
  | .sorted (some ms) => 9 :: uvarint ms
  | .inverted => [6]
  | .geo => [10]

/-- A path's keys past its field, and its index. -/
def encodePath (p : Field) : List UInt8 :=
  encodeStr (((splitPath p.name).map (·.2)).getD "") ++ encodeIndex p.index

/-- The paths into a field. -/
def Schema.mine (s : Schema) (f : Field) : List Field :=
  s.paths.filter fun p => (splitPath p.name).any fun hk => hk.1 == f.name

/-- A field past its name, with the paths into it. -/
def Schema.encodeDeclared (s : Schema) (f : Field) : List UInt8 :=
  (f.collate.map fun c => [tagCollated, c.code]).getD [] ++
    ((if f.nocase then [tagNocase] else []) ++ (encodeType f.ty ++ (flag f.required ::
      (encodeIndex f.index ++ if f.ty = .json then
        uvarint (s.mine f).length ++ (s.mine f).flatMap encodePath
      else []))))

/-- A field. -/
def Schema.encodeField (s : Schema) (f : Field) : List UInt8 :=
  encodeStr f.name ++ s.encodeDeclared f

/-- The places `ats` of a schema, `fields` the fields that are left. -/
def Schema.encodePlaces (s : Schema) : List Nat → List Field → List UInt8
  | [], _ => []
  | at_ :: ats, fields =>
    if s.dropped.contains at_ then
      (encodeStr "" ++ [tagDropped]) ++ s.encodePlaces ats fields
    else match fields with
      | [] => []
      | f :: fs => s.encodeField f ++ s.encodePlaces ats fs

/-- A composite's part. -/
def encodeKey (key : String × Bool) : List UInt8 := encodeStr key.1 ++ [flag key.2]

/-- A composite. -/
def encodeComposite (c : Composite) : List UInt8 :=
  flag c.unique :: (uvarint c.keys.length ++ c.keys.flatMap encodeKey)

/-- The composites, as one more place. -/
def encodeComposites (cs : List Composite) : List UInt8 :=
  if cs.isEmpty then []
  else encodeStr "" ++ (tagComposites :: (uvarint cs.length ++ cs.flatMap encodeComposite))

/-- **`Schema::encode`.** -/
def Schema.encode (s : Schema) : List UInt8 :=
  encodeStr s.name ++ (uvarint (s.width + if s.composites.isEmpty then 0 else 1) ++
    (s.encodePlaces (List.range s.width) s.fields ++ encodeComposites s.composites))

/-! ## 3. Reading -/

section Reading

variable (buf : List UInt8)

/-- `buf.get(*pos)`, the place left where it is. -/
def peek : Dec (Option UInt8) := fun c => (.ok buf[c.pos]?, c)

/-- `*pos += n`. -/
def advance (n : Nat) : Dec Unit := Act.change fun c => { c with pos := c.pos + n }

/-- `decode_type`, `depth` lists deep at most.  A level takes a byte, so the bytes of the buffer
are enough. -/
def decodeTypeAt : Nat → Dec DataType
  | 0 => Act.fail (.corrupt "deeper than the buffer is long")
  | depth + 1 => do
    let tag ← byte buf "missing type tag"
    match tag with
    | 1 => pure .bool
    | 2 => pure .int
    | 3 => pure .float
    | 4 => pure .text
    | 5 => pure .bytes
    | 9 => pure .timestamp
    | 6 => do pure (.vector (← getUvarint buf) .f32)
    | 8 => do pure (.vector (← getUvarint buf) .f16)
    | 7 => do pure (.list (← decodeTypeAt depth))
    | 10 => do pure (.sparse (← getUvarint buf))
    | 14 => pure .json
    | 15 => pure .geo
    | other => Act.fail (.corrupt ("unknown type tag " ++ toString other.toNat))

/-- **`decode_type`.** -/
def decodeType : Dec DataType := decodeTypeAt buf (buf.length + 1)

/-- A vector index's settings, past its kind. -/
def decodeVectorSpec (quantised : Bool) : Dec VectorIndexSpec := do
  let code ← byte buf "schema ended early"
  let metric ← Act.lift (Metric.fromCode code)
  let m ← getUvarint buf
  let efConstruction ← getUvarint buf
  let efSearch ← getUvarint buf
  let quant ← if quantised then do
      let c ← byte buf "schema ended early"
      Act.lift ((Quant.fromCode c).elim
        (.error (.corrupt ("unknown quantization " ++ toString c.toNat))) .ok)
    else pure .none
  pure (VectorIndexSpec.resolved ⟨metric, m, efConstruction, efSearch, quant⟩)

/-- A text index's settings, past its kind. -/
def decodeTextSpec (chars : Bool) : Dec TextIndexSpec := do
  let k1Pct ← getUvarint buf
  let bPct ← getUvarint buf
  let prefixMax ← getUvarint buf
  let prefixMin ← getUvarint buf
  pure ⟨k1Pct % 2 ^ 16, bPct % 2 ^ 16, prefixMax % 2 ^ 8, prefixMin % 2 ^ 8, chars⟩

/-- **`decode_index`.** -/
def decodeIndex : Dec IndexKind := do
  let kind ← byte buf "schema ended early"
  match kind with
  | 0 => pure .none
  | 1 => pure (.hash false)
  | 8 => pure (.hash true)
  | 2 => do pure (.vector (← decodeVectorSpec buf false))
  | 5 => do pure (.vector (← decodeVectorSpec buf true))
  | 3 => do pure (.text (← decodeTextSpec buf false))
  | 7 => do pure (.text (← decodeTextSpec buf true))
  | 4 => pure (.sorted none)
  | 9 => do pure (.sorted (some (← getUvarint buf)))
  | 6 => pure .inverted
  | 10 => pure .geo
  | o => Act.fail (.corrupt ("unknown index kind " ++ toString o.toNat))

/-- The byte past a tag: the place moves past both or past neither. -/
def codeByte : Dec UInt8 := fun c =>
  match buf[c.pos + 1]? with
  | some b => (.ok b, { c with pos := c.pos + 2 })
  | none => (.error (.corrupt "schema ended early"), c)

/-- The collation of a field, where its tag stands. -/
def decodeCollate : Dec (Option Collation) := do
  if (← peek buf) = some tagCollated then
    let c ← codeByte buf
    Act.lift ((Collation.fromCode c).elim
      (.error (.corrupt ("unknown collation " ++ toString c.toNat))) fun k => .ok (some k))
  else pure none

/-- Whether the tag of a fold stands here. -/
def decodeNocase : Dec Bool := do
  let nocase := decide ((← peek buf) = some tagNocase)
  advance (if nocase then 1 else 0)
  pure nocase

/-- A path into the field `fname`. -/
def decodePath (fname : String) : Dec Field := do
  let keys ← decodeStr buf
  let index ← decodeIndex buf
  pure ⟨fname ++ "." ++ keys, .json, index, false, none, false⟩

/-- A composite's part. -/
def decodeKey : Dec (String × Bool) := do
  let k ← decodeStr buf
  let desc ← byte buf "schema ended early"
  pure (k, desc != 0)

/-- A composite. -/
def decodeComposite : Dec Composite := do
  let unique ← byte buf "schema ended early"
  let parts ← getUvarint buf
  let keys ← times (decodeKey buf) parts
  pure ⟨keys, unique != 0⟩

/-- What `decode` has read of a schema. -/
structure Parts where
  fields : List Field
  paths : List Field
  dropped : List Nat
  composites : List Composite

/-- A field past its name, with the paths into it. -/
def decodeField (fname : String) : Dec (Field × List Field) := do
  let collate ← decodeCollate buf
  let nocase ← decodeNocase buf
  let ty ← decodeType buf
  let required ← byte buf "schema ended early"
  let index ← decodeIndex buf
  let paths ← if ty = .json then do
      let n ← getUvarint buf
      times (decodePath buf fname) n
    else pure []
  pure (⟨fname, ty, index, required != 0, collate, nocase⟩, paths)

/-- The place `at_`, put to what was read. -/
def decodePlace (at_ : Nat) (p : Parts) : Dec Parts := do
  let fname ← decodeStr buf
  let next ← peek buf
  if next = some tagDropped then
    advance 1
    pure { p with dropped := p.dropped ++ [at_] }
  else if fname = "" ∧ next = some tagComposites then
    advance 1
    let n ← getUvarint buf
    let cs ← times (decodeComposite buf) n
    pure { p with composites := p.composites ++ cs }
  else
    let (f, paths) ← decodeField buf fname
    pure { p with fields := p.fields ++ [f], paths := p.paths ++ paths }

/-- The `n` places from `at_` on. -/
def decodePlaces : Nat → Nat → Parts → Dec Parts
  | _, 0, p => pure p
  | at_, n + 1, p => do
    let p ← decodePlace buf at_ p
    decodePlaces (at_ + 1) n p

/-- **`Schema::decode`.** -/
def Schema.decode : Dec Schema := do
  let name ← decodeStr buf
  let n ← getUvarint buf
  let p ← decodePlaces buf 0 n ⟨[], [], [], []⟩
  pure ⟨name, p.fields, p.paths, p.dropped, p.composites⟩

end Reading

/-! ## 4. Each piece is read back -/

/-- The numbers of a type fit the machine's. -/
def DataType.Sized : DataType → Prop
  | .vector d _ => d < 2 ^ 64
  | .sparse d => d < 2 ^ 64
  | .list inner => inner.Sized
  | _ => True

/-- The numbers of an index fit the types the source gives them. -/
def IndexKind.Sized : IndexKind → Prop
  | .vector spec => spec.m < 2 ^ 64 ∧ spec.efConstruction < 2 ^ 64 ∧ spec.efSearch < 2 ^ 64
  | .text spec =>
    spec.k1Pct < 2 ^ 16 ∧ spec.bPct < 2 ^ 16 ∧ spec.prefixMax < 2 ^ 8 ∧ spec.prefixMin < 2 ^ 8
  | .sorted (some ms) => ms < 2 ^ 64
  | _ => True

namespace SchemaCodec

section Pieces

variable {buf : List UInt8}

theorem looks_peek {x : UInt8} {bs : List UInt8} (h : bs.head? = some x) :
    Looks buf (peek buf) bs (some x) := by
  intro c rest _ hd
  obtain ⟨bs', rfl⟩ := List.head?_eq_some_iff.mp h
  have hget : buf[c.pos]? = some x := by
    have h0 : (buf.drop c.pos)[0]? = some x := by rw [hd]; rfl
    simpa using h0
  rw [peek, hget]

theorem reads_advance {bs : List UInt8} {n : Nat} (h : bs.length = n) :
    Reader.Reads buf (advance n) bs () := by
  intro c rest _ _
  exact ⟨c.log, by rw [h]; rfl⟩

theorem reads_str (hbuf : buf.length < 2 ^ 63) (s : String) :
    Reader.Reads buf (decodeStr buf) (encodeStr s) s :=
  reads_of_fits fun hle => reads_decodeStr hbuf (by omega)

/-- A byte, and what it leads to. -/
theorem reads_next {text : String} {x : UInt8} {α : Type} {f : UInt8 → Dec α} {bs : List UInt8}
    {a : α} (h : Reader.Reads buf (f x) bs a) : Reader.Reads buf (byte buf text >>= f) (x :: bs) a :=
  reads_byte.bind h

@[simp] theorem flag_bne (b : Bool) : (flag b != 0) = b := by
  cases b <;> rfl

/-- **A counted list is read back**, its count being no more than its bytes. -/
theorem reads_counted {α β : Type} {m : Dec α} {enc : α → List UInt8} {as : List α}
    {f : List α → Dec β} {b : β} (hbuf : buf.length < 2 ^ 63) (hpos : ∀ a, 0 < (enc a).length)
    (h : ∀ a ∈ as, Reader.Reads buf m (enc a) a) (hf : Reader.Reads buf (f as) [] b) :
    Reader.Reads buf (do let n ← getUvarint buf; let as ← times m n; f as)
      (uvarint as.length ++ as.flatMap enc) b := by
  refine reads_of_fits fun hle => ?_
  have hcount := length_le_flatMap hpos as
  rw [List.length_append] at hle
  exact (reads_uvarint (by omega)).bind ((reads_times h).answer hf)

theorem length_encodeType_pos (ty : DataType) : 0 < (encodeType ty).length := by
  cases ty with
  | vector d prec => cases prec <;> simp [encodeType]
  | _ => simp [encodeType]

theorem reads_typeAt {d : Nat} (ty : DataType) : ty.Sized → (encodeType ty).length ≤ d →
    Reader.Reads buf (decodeTypeAt buf d) (encodeType ty) ty := by
  induction d generalizing ty with
  | zero =>
    intro _ hd
    exact absurd (length_encodeType_pos ty) (by omega)
  | succ d ih =>
    intro hs hd
    cases ty with
    | vector n prec =>
      cases prec with
      | f32 => exact reads_byte.bind ((reads_uvarint hs).answer reads_pure)
      | f16 => exact reads_byte.bind ((reads_uvarint hs).answer reads_pure)
    | sparse n => exact reads_byte.bind ((reads_uvarint hs).answer reads_pure)
    | list inner =>
      have hinner := ih inner hs (by simpa [encodeType] using hd)
      exact reads_byte.bind (hinner.answer reads_pure)
    | bool => exact reads_byte.answer reads_pure
    | int => exact reads_byte.answer reads_pure
    | float => exact reads_byte.answer reads_pure
    | text => exact reads_byte.answer reads_pure
    | bytes => exact reads_byte.answer reads_pure
    | timestamp => exact reads_byte.answer reads_pure
    | json => exact reads_byte.answer reads_pure
    | geo => exact reads_byte.answer reads_pure

theorem reads_type {ty : DataType} (hs : ty.Sized) :
    Reader.Reads buf (decodeType buf) (encodeType ty) ty :=
  reads_of_fits fun hle => reads_typeAt ty hs (by omega)

theorem metric_fromCode (m : Metric) : Metric.fromCode m.code = .ok m := by
  cases m <;> rfl

theorem quant_fromCode (q : Quant) : Quant.fromCode q.code = some q := by
  cases q <;> rfl

theorem collation_fromCode (k : Collation) : Collation.fromCode k.code = some k := by
  cases k <;> rfl

theorem reads_lift {α : Type} {a : α} {r : Except Fault α} (h : r = .ok a) :
    Reader.Reads buf (Act.lift r : Dec α) [] a := by
  rw [h]
  exact reads_pure

theorem reads_after {α β : Type} {m : Dec α} {f : α → Dec β} {a : α} {b : β} {bs : List UInt8}
    (hm : Reader.Reads buf m [] a) (hf : Reader.Reads buf (f a) bs b) : Reader.Reads buf (m >>= f) bs b :=
  hm.bind hf

/-- A vector index's settings are read back, where they were resolved when they were written. -/
theorem reads_vectorSpec {spec : VectorIndexSpec} (hs : (IndexKind.vector spec).Sized)
    (hr : spec.resolved = spec) :
    Reader.Reads buf (decodeVectorSpec buf (spec.quant ≠ .none))
      (spec.metric.code :: (uvarint spec.m ++ (uvarint spec.efConstruction ++
        (uvarint spec.efSearch ++ if spec.quant = .none then [] else [spec.quant.code]))))
      spec := by
  obtain ⟨hm, hc, hf⟩ := hs
  have hlast : ∀ quant, quant = spec.quant →
      Reader.Reads buf (pure (VectorIndexSpec.resolved
        ⟨spec.metric, spec.m, spec.efConstruction, spec.efSearch, quant⟩) : Dec VectorIndexSpec)
        [] spec := by
    intro quant hq
    rw [hq]
    exact hr.symm ▸ reads_pure
  refine reads_next (reads_after (reads_lift (metric_fromCode spec.metric)) ?_)
  refine (reads_uvarint hm).bind ((reads_uvarint hc).bind ((reads_uvarint hf).bind ?_))
  by_cases hq : spec.quant = .none
  · rw [if_pos hq, decide_eq_false (not_not.mpr hq)]
    exact reads_after reads_pure (hlast _ hq.symm)
  · rw [if_neg hq, decide_eq_true hq]
    refine reads_next (reads_after (a := spec.quant) (reads_lift ?_) (hlast _ rfl))
    rw [quant_fromCode]
    rfl

theorem reads_textSpec {spec : TextIndexSpec} (hs : (IndexKind.text spec).Sized) :
    Reader.Reads buf (decodeTextSpec buf spec.chars) (uvarint spec.k1Pct ++ (uvarint spec.bPct ++
      (uvarint spec.prefixMax ++ uvarint spec.prefixMin))) spec := by
  obtain ⟨hk, hb, hmax, hmin⟩ := hs
  refine (reads_uvarint (by omega)).bind ((reads_uvarint (by omega)).bind
    ((reads_uvarint (by omega)).bind ((reads_uvarint (by omega)).answer ?_)))
  rw [Nat.mod_eq_of_lt hk, Nat.mod_eq_of_lt hb, Nat.mod_eq_of_lt hmax, Nat.mod_eq_of_lt hmin]
  exact reads_pure

/-- **An index is read back.** -/
theorem reads_index {k : IndexKind} (hs : k.Sized) (hr : k.resolved = k) :
    Reader.Reads buf (decodeIndex buf) (encodeIndex k) k := by
  cases k with
  | none => exact reads_byte.answer reads_pure
  | hash unique =>
    cases unique with
    | false => exact reads_byte.answer reads_pure
    | true => exact reads_byte.answer reads_pure
  | vector spec =>
    have hres : spec.resolved = spec := IndexKind.vector.inj hr
    have hspec : Reader.Reads buf _ _ spec := reads_vectorSpec hs hres
    by_cases hq : spec.quant = .none
    · rw [decide_eq_false (not_not.mpr hq)] at hspec
      rw [encodeIndex, if_pos hq]
      exact reads_next (hspec.answer reads_pure)
    · rw [decide_eq_true hq] at hspec
      rw [encodeIndex, if_neg hq]
      exact reads_next (hspec.answer reads_pure)
  | text spec =>
    have hspec : Reader.Reads buf _ _ spec := reads_textSpec hs
    rw [encodeIndex]
    cases hc : spec.chars with
    | false =>
      rw [hc] at hspec
      exact reads_next (hspec.answer reads_pure)
    | true =>
      rw [hc] at hspec
      exact reads_next (hspec.answer reads_pure)
  | sorted ttl =>
    cases ttl with
    | none => exact reads_byte.answer reads_pure
    | some ms => exact reads_byte.bind ((reads_uvarint hs).answer reads_pure)
  | inverted => exact reads_byte.answer reads_pure
  | geo => exact reads_byte.answer reads_pure

theorem length_encodeStr_pos (s : String) : 0 < (encodeStr s).length := by
  have hpos : 0 < (uvarint (utf8 s.toList).length).length := by
    unfold uvarint uvarintGo
    split
    all_goals simp
    split <;> simp
  rw [encodeStr, List.length_append]
  omega

theorem reads_key (hbuf : buf.length < 2 ^ 63) (key : String × Bool) :
    Reader.Reads buf (decodeKey buf) (encodeKey key) key := by
  refine (reads_str hbuf key.1).bind (reads_byte.answer ?_)
  rw [flag_bne]
  exact reads_pure

/-- **A composite is read back.** -/
theorem reads_composite (hbuf : buf.length < 2 ^ 63) (c : Composite) :
    Reader.Reads buf (decodeComposite buf) (encodeComposite c) c := by
  have hpos : ∀ key, 0 < (encodeKey key).length := by
    intro key
    have := length_encodeStr_pos key.1
    rw [encodeKey, List.length_append]
    omega
  refine reads_next (reads_counted hbuf hpos (fun key _ => reads_key hbuf key) ?_)
  rw [flag_bne]
  exact reads_pure

/-- **A path is read back** under its field's name. -/
theorem reads_path (hbuf : buf.length < 2 ^ 63) {p : Field} {fname keys : String}
    (hp : p = ⟨p.name, .json, p.index, false, none, false⟩)
    (hsplit : splitPath p.name = some (fname, keys)) (hs : p.index.Sized)
    (hr : p.index.resolved = p.index) :
    Reader.Reads buf (decodePath buf fname) (encodePath p) p := by
  have hname : fname ++ "." ++ keys = p.name := (splitPath_eq_some.mp hsplit).1.symm
  rw [encodePath, hsplit]
  refine (reads_str hbuf keys).bind ((reads_index hs hr).answer ?_)
  rw [hname, ← hp]
  exact reads_pure

/-- The tag a type starts with is none that stands before a type. -/
theorem head_encodeType (ty : DataType) : ∃ x, (encodeType ty).head? = some x ∧
    x ≠ tagCollated ∧ x ≠ tagDropped ∧ x ≠ tagNocase := by
  cases ty with
  | vector d prec =>
    cases prec with
    | f32 => exact ⟨6, rfl, by decide⟩
    | f16 => exact ⟨8, rfl, by decide⟩
  | sparse d => exact ⟨10, rfl, by decide⟩
  | list inner => exact ⟨7, rfl, by decide⟩
  | bool => exact ⟨1, rfl, by decide⟩
  | int => exact ⟨2, rfl, by decide⟩
  | float => exact ⟨3, rfl, by decide⟩
  | text => exact ⟨4, rfl, by decide⟩
  | bytes => exact ⟨5, rfl, by decide⟩
  | timestamp => exact ⟨9, rfl, by decide⟩
  | json => exact ⟨14, rfl, by decide⟩
  | geo => exact ⟨15, rfl, by decide⟩

section Flags

variable {α : Type} {a : α} {x : UInt8} {bs : List UInt8}

/-- The collation, where one is written, and what follows it. -/
theorem reads_collate {f : Option Collation → Dec α} {k : Option Collation}
    (hx : bs.head? = some x) (hne : x ≠ tagCollated) (h : Reader.Reads buf (f k) bs a) :
    Reader.Reads buf (decodeCollate buf >>= f)
      ((k.map fun c => [tagCollated, c.code]).getD [] ++ bs) a := by
  cases k with
  | none =>
    refine Looks.bind (a := none) ?_ h
    intro c rest hpos hd
    have hpeek := looks_peek hx c rest hpos hd
    rw [decodeCollate, Act.bind_eq, hpeek]
    exact congrFun (if_neg (by simpa using hne)) c
  | some c =>
    refine Reader.Reads.bind (a := some c) ?_ h
    have hcode : Reader.Reads buf (codeByte buf) [tagCollated, c.code] c.code := by
      intro c' rest _ hd
      have hget : buf[c'.pos + 1]? = some c.code := by
        have h1 : (buf.drop c'.pos)[1]? = some c.code := by rw [hd]; rfl
        simpa using h1
      exact ⟨c'.log, by rw [codeByte, hget]; rfl⟩
    refine Looks.bind (looks_peek (x := tagCollated) rfl) ?_
    rw [if_pos rfl]
    refine hcode.answer (reads_lift ?_)
    rw [collation_fromCode]
    rfl

/-- The fold's tag, where it is written, and what follows it. -/
theorem reads_nocase {f : Bool → Dec α} {n : Bool}
    (hx : bs.head? = some x) (hne : x ≠ tagNocase) (h : Reader.Reads buf (f n) bs a) :
    Reader.Reads buf (decodeNocase buf >>= f) ((if n then [tagNocase] else []) ++ bs) a := by
  cases n with
  | false =>
    refine Looks.bind (a := false) ?_ h
    intro c rest hpos hd
    have hpeek := looks_peek hx c rest hpos hd
    have hno : decide (some x = some tagNocase) = false := by simpa using hne
    rw [decodeNocase, Act.bind_eq, hpeek]
    dsimp only
    rw [hno]
    rfl
  | true =>
    refine Reader.Reads.bind (a := true) ?_ h
    exact Looks.bind (looks_peek rfl) ((reads_advance rfl).answer reads_pure)

end Flags

end Pieces

/-! ## 5. A schema is read back -/

/-- The field a path reads into. -/
def head (p : Field) : String := ((splitPath p.name).map (·.1)).getD ""

/-- **A schema as the operations on schemas keep it**: its fields named and resolved, its dropped
places ascending and among its places, and its paths plain ones into json fields, in the order of
these fields. -/
structure Canonical (s : Schema) : Prop where
  names : (s.fields.map (·.name)).Nodup
  named : ∀ f ∈ s.fields, f.name ≠ ""
  no_dot : ∀ f ∈ s.fields, '.' ∉ f.name.toList
  resolved : ∀ f ∈ s.fields, f.index.resolved = f.index
  ascending : s.dropped.Pairwise (· < ·)
  within : ∀ d ∈ s.dropped, d < s.width
  plain : ∀ p ∈ s.paths, p = ⟨p.name, .json, p.index, false, none, false⟩
  settled : ∀ p ∈ s.paths, p.index.resolved = p.index
  into : ∀ p ∈ s.paths, ∃ f ∈ s.fields, f.ty = .json ∧
    ∃ keys, splitPath p.name = some (f.name, keys)
  grouped : s.paths.Pairwise fun p q =>
    (s.fields.map (·.name)).idxOf (head p) ≤ (s.fields.map (·.name)).idxOf (head q)

/-- The numbers of a schema fit the types the source gives them. -/
structure Sized (s : Schema) : Prop where
  types : ∀ f ∈ s.fields, f.ty.Sized
  indexes : ∀ f ∈ s.fields, f.index.Sized
  paths : ∀ p ∈ s.paths, p.index.Sized

section Whole

variable {buf : List UInt8} {s : Schema}

theorem mem_mine {f p : Field} : p ∈ s.mine f ↔
    p ∈ s.paths ∧ ∃ keys, splitPath p.name = some (f.name, keys) := by
  rw [Schema.mine, List.mem_filter, Option.any_eq_true]
  refine and_congr_right fun _ => ⟨?_, ?_⟩
  · rintro ⟨⟨h, keys⟩, hsplit, heq⟩
    have hname : h = f.name := beq_iff_eq.mp heq
    exact ⟨keys, by rw [hsplit, hname]⟩
  · rintro ⟨keys, hsplit⟩
    exact ⟨(f.name, keys), hsplit, beq_self_eq_true _⟩

/-- What a field's place adds to the paths. -/
def pathsOf (s : Schema) (f : Field) : List Field := if f.ty = .json then s.mine f else []

/-- **A field is read back past its name**, with the paths into it. -/
theorem reads_declared (hbuf : buf.length < 2 ^ 63) (hc : Canonical s) (hz : Sized s) {f : Field}
    (hf : f ∈ s.fields) :
    Reader.Reads buf (decodeField buf f.name) (s.encodeDeclared f) (f, pathsOf s f) := by
  obtain ⟨x, hx, hcol, -, hno⟩ := head_encodeType f.ty
  have hhead : ∀ rest, (encodeType f.ty ++ rest).head? = some x := by
    intro rest
    rw [List.head?_append, hx]
    rfl
  -- the tag the collation is told from is the fold's or the type's
  have hfold : ∀ rest, ∃ y, ((if f.nocase then [tagNocase] else []) ++
      (encodeType f.ty ++ rest)).head? = some y ∧ y ≠ tagCollated := by
    intro rest
    cases f.nocase with
    | true => exact ⟨tagNocase, rfl, by decide⟩
    | false => exact ⟨x, hhead rest, hcol⟩
  have hpath : ∀ p ∈ s.mine f, Reader.Reads buf (decodePath buf f.name) (encodePath p) p := by
    intro p hp
    obtain ⟨hmem, keys, hsplit⟩ := mem_mine.mp hp
    exact reads_path hbuf (hc.plain p hmem) hsplit (hz.paths p hmem) (hc.settled p hmem)
  have hpos : ∀ p, 0 < (encodePath p).length := by
    intro p
    have := length_encodeStr_pos (((splitPath p.name).map (·.2)).getD "")
    rw [encodePath, List.length_append]
    omega
  obtain ⟨y, hy, hyne⟩ := hfold (flag f.required :: (encodeIndex f.index ++
    if f.ty = .json then uvarint (s.mine f).length ++ (s.mine f).flatMap encodePath else []))
  refine reads_collate hy hyne (reads_nocase (hhead _) hno ?_)
  refine (reads_type (hz.types f hf)).bind (reads_next ?_)
  refine (reads_index (hz.indexes f hf) (hc.resolved f hf)).bind ?_
  rw [flag_bne]
  by_cases hjson : f.ty = .json
  · rw [if_pos hjson, if_pos hjson, pathsOf, if_pos hjson]
    exact reads_counted hbuf hpos hpath reads_pure
  · rw [if_neg hjson, if_neg hjson, pathsOf, if_neg hjson]
    exact reads_after reads_pure reads_pure

/-- The place of a field is read back. -/
theorem reads_place_field (hbuf : buf.length < 2 ^ 63) (hc : Canonical s) (hz : Sized s)
    {f : Field} (hf : f ∈ s.fields) (at_ : Nat) (p : Parts) :
    Reader.Reads buf (decodePlace buf at_ p) (s.encodeField f)
      { p with fields := p.fields ++ [f], paths := p.paths ++ pathsOf s f } := by
  obtain ⟨x, hx, -, hdrop, -⟩ := head_encodeType f.ty
  have hhead : ∃ y, (s.encodeDeclared f).head? = some y ∧ y ≠ tagDropped := by
    unfold Schema.encodeDeclared
    cases f.collate with
    | some c => exact ⟨tagCollated, rfl, by decide⟩
    | none =>
      cases f.nocase with
      | true => exact ⟨tagNocase, rfl, by decide⟩
      | false =>
        refine ⟨x, ?_, hdrop⟩
        show (encodeType f.ty ++ _).head? = some x
        rw [List.head?_append, hx]
        rfl
  obtain ⟨y, hy, hne⟩ := hhead
  refine (reads_str hbuf f.name).bind ((looks_peek hy).bind ?_)
  rw [if_neg (by simpa using hne), if_neg (fun h => hc.named f hf h.1)]
  exact (reads_declared hbuf hc hz hf).answer reads_pure

/-- A dropped place is read back as one. -/
theorem reads_place_dropped (hbuf : buf.length < 2 ^ 63) (at_ : Nat) (p : Parts) :
    Reader.Reads buf (decodePlace buf at_ p) (encodeStr "" ++ [tagDropped])
      { p with dropped := p.dropped ++ [at_] } := by
  refine (reads_str hbuf "").bind ((looks_peek rfl).bind ?_)
  rw [if_pos rfl]
  exact (reads_advance rfl).answer reads_pure

/-- The composites are read back from the place past the last. -/
theorem reads_place_composites (hbuf : buf.length < 2 ^ 63) {cs : List Composite} (at_ : Nat)
    (p : Parts) :
    Reader.Reads buf (decodePlace buf at_ p)
      (encodeStr "" ++ (tagComposites :: (uvarint cs.length ++ cs.flatMap encodeComposite)))
      { p with composites := p.composites ++ cs } := by
  have hpos : ∀ c, 0 < (encodeComposite c).length := fun c => by
    rw [encodeComposite, List.length_cons]
    omega
  refine (reads_str hbuf "").bind ((looks_peek rfl).bind ?_)
  rw [if_neg (by decide), if_pos ⟨rfl, rfl⟩]
  have hrest : Reader.Reads buf (do
      let n ← getUvarint buf
      let cs ← times (decodeComposite buf) n
      pure { p with composites := p.composites ++ cs }) (uvarint cs.length ++
        cs.flatMap encodeComposite) { p with composites := p.composites ++ cs } :=
    reads_counted hbuf hpos (fun c _ => reads_composite hbuf c) reads_pure
  have hadvance : Reader.Reads buf (advance 1) [tagComposites] () := reads_advance rfl
  exact hadvance.bind hrest

theorem encodePlaces_dropped {a : Nat} (hd : a ∈ s.dropped) (ats : List Nat) (fs : List Field) :
    s.encodePlaces (a :: ats) fs =
      (encodeStr "" ++ [tagDropped]) ++ s.encodePlaces ats fs := by
  cases fs <;> simp [Schema.encodePlaces, hd]

theorem encodePlaces_field {a : Nat} (hd : a ∉ s.dropped) (ats : List Nat) (f : Field)
    (fs : List Field) :
    s.encodePlaces (a :: ats) (f :: fs) = s.encodeField f ++ s.encodePlaces ats fs := by
  simp [Schema.encodePlaces, hd]

/-- How many of the places `ats` are left. -/
def standing (s : Schema) (ats : List Nat) : Nat := (ats.filter (· ∉ s.dropped)).length

/-- What the places `ats`, holding the fields `fs`, add to what was read. -/
def Parts.past (s : Schema) (p : Parts) (ats : List Nat) (fs : List Field) : Parts :=
  ⟨p.fields ++ fs, p.paths ++ fs.flatMap (pathsOf s), p.dropped ++ ats.filter (· ∈ s.dropped),
    p.composites⟩

/-- **The places are read back, one after another**, where there is a field for each that is left:
by induction over the places, with whatever follows them. -/
theorem reads_places (hbuf : buf.length < 2 ^ 63) (hc : Canonical s) (hz : Sized s) {k : Nat}
    {more : List UInt8} {q : Parts} : ∀ {n a : Nat} {fs : List Field} {p : Parts},
    (∀ f ∈ fs, f ∈ s.fields) → standing s (List.range' a n) = fs.length →
    Reader.Reads buf (decodePlaces buf (a + n) k (Parts.past s p (List.range' a n) fs)) more q →
    Reader.Reads buf (decodePlaces buf a (n + k) p)
      (s.encodePlaces (List.range' a n) fs ++ more) q := by
  intro n
  induction n with
  | zero =>
    intro a fs p _ hleft hmore
    have hfs : fs = [] := List.length_eq_zero_iff.mp hleft.symm
    subst hfs
    simpa [Parts.past, Schema.encodePlaces] using hmore
  | succ n ih =>
    intro a fs p hfs hleft hmore
    rw [List.range'_succ] at hleft hmore ⊢
    rw [show n + 1 + k = (n + k) + 1 by omega]
    rw [show a + (n + 1) = a + 1 + n by omega] at hmore
    by_cases hd : a ∈ s.dropped
    · -- a dropped place, and no field is taken
      rw [encodePlaces_dropped hd, List.append_assoc]
      refine (reads_place_dropped hbuf a p).bind (ih hfs ?_ ?_)
      · simpa [standing, hd] using hleft
      · simpa [Parts.past, hd] using hmore
    · rw [standing, List.filter_cons_of_pos (by simpa using hd), List.length_cons] at hleft
      cases fs with
      | nil => cases hleft
      | cons f fs =>
        rw [encodePlaces_field hd, List.append_assoc]
        refine (reads_place_field hbuf hc hz (hfs f List.mem_cons_self) a p).bind (ih ?_ ?_ ?_)
        · exact fun g hg => hfs g (List.mem_cons_of_mem _ hg)
        · exact Nat.succ.inj hleft
        · simpa [Parts.past, hd] using hmore

/-- Each place takes a byte at least. -/
theorem le_length_places : ∀ {ats : List Nat} {fs : List Field}, standing s ats = fs.length →
    ats.length ≤ (s.encodePlaces ats fs).length := by
  intro ats
  induction ats with
  | nil =>
    intro fs _
    exact Nat.zero_le _
  | cons a ats ih =>
    intro fs hleft
    by_cases hd : a ∈ s.dropped
    · have hrest : standing s ats = fs.length := by simpa [standing, hd] using hleft
      have := ih hrest
      rw [encodePlaces_dropped hd]
      simp only [List.length_append, List.length_cons, List.length_nil]
      omega
    · rw [standing, List.filter_cons_of_pos (by simpa using hd), List.length_cons] at hleft
      cases fs with
      | nil => cases hleft
      | cons f fs =>
        have hrest : standing s ats = fs.length := Nat.succ.inj hleft
        have := ih hrest
        have hname := length_encodeStr_pos f.name
        rw [encodePlaces_field hd, Schema.encodeField]
        simp only [List.length_append, List.length_cons]
        omega

end Whole

/-! ## 6. Lists in the order of their keys -/

section Groups

variable {α κ : Type} {l : List α}

/-- A list whose things of a kind all come first. -/
theorem filter_append_filter {P : α → Bool} (h : l.Pairwise fun a b => P b = true → P a = true) :
    l.filter P ++ l.filter (fun a => !P a) = l := by
  induction l with
  | nil => rfl
  | cons a l ih =>
    obtain ⟨hfirst, hrest⟩ := List.pairwise_cons.mp h
    by_cases ha : P a = true
    · rw [List.filter_cons_of_pos ha, List.filter_cons_of_neg (by simpa using ha), List.cons_append,
        ih hrest]
    · -- the first is of the other kind, and so are all
      have hnone : ∀ b ∈ l, ¬ P b = true := fun b hb hPb => ha (hfirst b hb hPb)
      have hall : ∀ b ∈ l, (!P b) = true := fun b hb => by simpa using hnone b hb
      rw [List.filter_cons_of_neg ha, List.filter_cons_of_pos (by simpa using ha),
        List.filter_eq_nil_iff.mpr hnone, List.filter_eq_self.mpr hall, List.nil_append]

/-- **A list in the order of its keys is its groups, one after another.** -/
theorem flatMap_groups [DecidableEq κ] {key : α → κ} {ks : List κ} (hks : ks.Nodup)
    (hkey : ∀ a ∈ l, key a ∈ ks)
    (hl : l.Pairwise fun a b => ks.idxOf (key a) ≤ ks.idxOf (key b)) :
    ks.flatMap (fun k => l.filter fun a => key a == k) = l := by
  induction ks generalizing l with
  | nil =>
    cases l with
    | nil => rfl
    | cons a l => exact absurd (hkey a List.mem_cons_self) List.not_mem_nil
  | cons k ks ih =>
    obtain ⟨hk, hks⟩ := List.nodup_cons.mp hks
    have hfirst : l.Pairwise fun a b => (key b == k) = true → (key a == k) = true := by
      refine hl.imp fun {a b} hle hb => ?_
      rw [beq_iff_eq] at hb ⊢
      by_contra hne
      rw [hb, List.idxOf_cons_self, List.idxOf_cons_ne _ (Ne.symm hne)] at hle
      omega
    have hgroups : ks.flatMap (fun k' => l.filter fun a => key a == k') =
        ks.flatMap fun k' => (l.filter fun a => !(key a == k)).filter fun a => key a == k' := by
      refine List.flatMap_congr fun k' hk' => ?_
      rw [List.filter_filter]
      refine List.filter_congr fun a _ => ?_
      by_cases h : key a = k'
      · have hne : k' ≠ k := fun heq => hk (heq ▸ hk')
        simp [h, hne]
      · simp [h]
    rw [List.flatMap_cons, hgroups, ih hks, filter_append_filter hfirst]
    · intro a ha
      obtain ⟨hmem, hne⟩ := List.mem_filter.mp ha
      rcases List.mem_cons.mp (hkey a hmem) with heq | hin
      · simp [heq] at hne
      · exact hin
    · refine (hl.sublist List.filter_sublist).imp_of_mem fun {a b} ha hb hle => ?_
      have hna : k ≠ key a := by
        intro heq
        have hne := (List.mem_filter.mp ha).2
        rw [heq] at hne
        simp at hne
      have hnb : k ≠ key b := by
        intro heq
        have hne := (List.mem_filter.mp hb).2
        rw [heq] at hne
        simp at hne
      rw [List.idxOf_cons_ne _ hna, List.idxOf_cons_ne _ hnb] at hle
      omega

/-- The order of two keys is theirs among fewer. -/
theorem idxOf_filter_le [DecidableEq κ] {ks : List κ} {P : κ → Bool} {a b : κ} (ha : P a = true)
    (hb : P b = true) (h : ks.idxOf a ≤ ks.idxOf b) :
    (ks.filter P).idxOf a ≤ (ks.filter P).idxOf b := by
  induction ks with
  | nil => exact Nat.le_refl _
  | cons k ks ih =>
    by_cases hk : P k = true
    · rw [List.filter_cons_of_pos hk]
      by_cases hka : k = a
      · rw [hka, List.idxOf_cons_self]
        exact Nat.zero_le _
      · by_cases hkb : k = b
        · rw [hkb, List.idxOf_cons_self, List.idxOf_cons_ne _ (hkb ▸ hka)] at h
          omega
        · rw [List.idxOf_cons_ne _ hka, List.idxOf_cons_ne _ hkb] at h ⊢
          exact Nat.succ_le_succ (ih (Nat.le_of_succ_le_succ h))
    · have hka : k ≠ a := fun heq => hk (heq ▸ ha)
      have hkb : k ≠ b := fun heq => hk (heq ▸ hb)
      rw [List.filter_cons_of_neg hk]
      rw [List.idxOf_cons_ne _ hka, List.idxOf_cons_ne _ hkb] at h
      exact ih (Nat.le_of_succ_le_succ h)

end Groups

/-! ## 7. What is written is the schema -/

section Written

variable {buf : List UInt8} {s : Schema}

theorem head_eq {p : Field} {name keys : String} (h : splitPath p.name = some (name, keys)) :
    head p = name := by
  rw [head, h]
  rfl

/-- The paths of a field are those of its name. -/
theorem pathsOf_eq (hc : Canonical s) {f : Field} (hf : f ∈ s.fields) :
    pathsOf s f = s.paths.filter fun p => head p == f.name := by
  unfold pathsOf
  split
  · refine List.filter_congr fun p hp => ?_
    obtain ⟨g, -, -, keys, hsplit⟩ := hc.into p hp
    rw [head_eq hsplit, hsplit]
    rfl
  · next hjson =>
    refine (List.filter_eq_nil_iff.mpr fun p hp hname => hjson ?_).symm
    obtain ⟨g, hg, hty, keys, hsplit⟩ := hc.into p hp
    have hgf : g = f := List.inj_on_of_nodup_map hc.names hg hf <| by
      rw [← beq_iff_eq.mp hname, head_eq hsplit]
    exact hgf ▸ hty

/-- **The paths are those of the fields, field by field.** -/
theorem flatMap_pathsOf (hc : Canonical s) : s.fields.flatMap (pathsOf s) = s.paths := by
  have hnames : s.fields.flatMap (pathsOf s) =
      (s.fields.map (·.name)).flatMap fun n => s.paths.filter fun p => head p == n := by
    rw [List.flatMap_map]
    exact List.flatMap_congr fun f hf => pathsOf_eq hc hf
  rw [hnames]
  refine flatMap_groups hc.names (fun p hp => ?_) hc.grouped
  obtain ⟨f, hf, -, keys, hsplit⟩ := hc.into p hp
  rw [head_eq hsplit]
  exact List.mem_map_of_mem hf

/-- The dropped places are found among the places, in order. -/
theorem filter_dropped (hc : Canonical s) :
    (List.range' 0 s.width).filter (· ∈ s.dropped) = s.dropped := by
  have hrange : (List.range' 0 s.width).Pairwise (· < ·) := List.pairwise_lt_range'
  refine (hrange.sublist List.filter_sublist).eq_of_mem_iff hc.ascending fun d => ?_
  rw [List.mem_filter, List.mem_range'_1]
  constructor
  · rintro ⟨-, h⟩
    simpa using h
  · intro h
    have := hc.within d h
    exact ⟨⟨Nat.zero_le _, by omega⟩, by simpa using h⟩

/-- The places that are left are as many as the fields. -/
theorem standing_eq (hc : Canonical s) : standing s (List.range' 0 s.width) = s.fields.length := by
  have hsum := List.length_eq_length_filter_add (l := List.range' 0 s.width) (· ∈ s.dropped)
  rw [filter_dropped hc, List.length_range', Schema.width] at hsum
  have hleft : standing s (List.range' 0 s.width) =
      ((List.range' 0 s.width).filter fun d => !decide (d ∈ s.dropped)).length := by
    rw [standing]
    refine congrArg List.length (List.filter_congr fun d _ => ?_)
    simp
  rw [Schema.width] at hleft ⊢
  omega

/-- **A schema is read back where it was written.** -/
theorem reads_schema (hbuf : buf.length < 2 ^ 63) (hc : Canonical s) (hz : Sized s) :
    Reader.Reads buf (Schema.decode buf) s.encode s := by
  have hleft := standing_eq hc
  have hplaces := le_length_places hleft
  rw [List.length_range'] at hplaces
  have hpast : Parts.past s ⟨[], [], [], []⟩ (List.range' 0 s.width) s.fields =
      ⟨s.fields, s.paths, s.dropped, []⟩ := by
    simp only [Parts.past, List.nil_append, flatMap_pathsOf hc, filter_dropped hc]
  have hread : ∀ k more, Reader.Reads buf (decodePlaces buf (0 + s.width) k
        ⟨s.fields, s.paths, s.dropped, []⟩) more ⟨s.fields, s.paths, s.dropped, s.composites⟩ →
      Reader.Reads buf (decodePlaces buf 0 (s.width + k) ⟨[], [], [], []⟩)
        (s.encodePlaces (List.range' 0 s.width) s.fields ++ more)
        ⟨s.fields, s.paths, s.dropped, s.composites⟩ := by
    intro k more hmore
    exact reads_places hbuf hc hz (fun f hf => hf) hleft (hpast ▸ hmore)
  refine reads_of_fits fun hle => ?_
  rw [Schema.encode, List.range_eq_range'] at hle ⊢
  simp only [List.length_append] at hle
  refine (reads_str hbuf s.name).bind ((reads_uvarint ?_).bind ((Reader.Reads.answer (hread _ _ ?_)) ?_))
  · split <;> omega
  · cases hcs : s.composites with
    | nil => exact reads_pure
    | cons c cs =>
      refine Reader.Reads.answer (reads_place_composites hbuf _ _) ?_
      exact reads_pure
  · exact reads_pure

end Written

/-! ## 8. Schemas that are made -/

/-- `Schema::add_composite`. -/
def addComposite (s : Schema) (c : Composite) : Result Schema := do
  if (← checkComposite s c).isSome then
    .error (.existing ("an index on `" ++ s.name ++ "` (" ++ c.keysText ++ ")"))
  else pure { s with composites := s.composites ++ [c] }

/-- **A schema that is made**: declared by `Schema::new`, then given paths and composites and
having fields added and dropped, in any order.  A path is added only once its name was found to
read into a json field and its index to be one a path takes, by every caller of `add_path`. -/
inductive Made : Schema → Prop
  | create {name : String} {fields : List Field} {s : Schema} :
    Schema.create name fields = .ok s → Made s
  | path {s : Schema} {name : String} {kind : IndexKind} {at_ : Nat × String} : Made s →
    s.pathOf name = .ok (some at_) → kind.check name .json = .ok () →
    Made (s.addPath ⟨name, .json, kind, false, none, false⟩)
  | composite {s s' : Schema} {c : Composite} : Made s → addComposite s c = .ok s' → Made s'
  | added {s : Schema} {f : Field} {c : FieldChange} : Made s →
    alterSchema s (.addField f) = .ok c → Made c.schema
  | dropped {s : Schema} {name : String} {c : FieldChange} : Made s →
    alterSchema s (.dropField name) = .ok c → Made c.schema

section Steps

variable {s : Schema}

theorem checkFields_named {seen : List String} {fields : List Field}
    (h : checkFields seen fields = .ok ()) : ∀ f ∈ fields, f.name ≠ "" := by
  induction fields generalizing seen with
  | nil => exact fun f hf => absurd hf List.not_mem_nil
  | cons f fs ih =>
    unfold checkFields at h
    obtain ⟨_, hf, hfs⟩ := bind_ok h
    intro g hg
    rcases List.mem_cons.mp hg with rfl | hg
    · intro hname
      unfold checkField at hf
      rw [hname] at hf
      rw [if_neg (by decide), if_pos (by decide)] at hf
      cases hf
    · exact ih hfs g hg

theorem create_named {name : String} {fields : List Field} {made : Schema}
    (h : Schema.create name fields = .ok made) : ∀ f ∈ made.fields, f.name ≠ "" := by
  unfold Schema.create at h
  obtain ⟨_, hf, h⟩ := bind_ok h
  obtain ⟨_, -, h⟩ := bind_ok h
  cases h
  exact checkFields_named hf

theorem canonical_create {name : String} {fields : List Field} {made : Schema}
    (h : Schema.create name fields = .ok made) : Canonical made := by
  have hok := (create_ok h).2
  have hnamed := create_named h
  unfold Schema.create at h
  obtain ⟨_, -, h⟩ := bind_ok h
  obtain ⟨_, -, h⟩ := bind_ok h
  cases h
  exact ⟨hok.nodup, hnamed, hok.no_dot, hok.resolved, List.Pairwise.nil,
    fun d hd => absurd hd List.not_mem_nil, fun p hp => absurd hp List.not_mem_nil,
    fun p hp => absurd hp List.not_mem_nil, fun p hp => absurd hp List.not_mem_nil,
    List.Pairwise.nil⟩

/-- A thing put past those that go before it keeps the order. -/
theorem pairwise_insert {α : Type} {r : α → Nat} {q : α → Bool} {x : α} {l : List α}
    (hq : ∀ a ∈ l, q a = true ↔ r a ≤ r x) (hl : l.Pairwise fun a b => r a ≤ r b) :
    (l.takeWhile q ++ x :: l.dropWhile q).Pairwise fun a b => r a ≤ r b := by
  induction l with
  | nil => exact List.pairwise_singleton _ _
  | cons a l ih =>
    obtain ⟨hfirst, hrest⟩ := List.pairwise_cons.mp hl
    by_cases ha : q a = true
    · rw [List.takeWhile_cons_of_pos ha, List.dropWhile_cons_of_pos ha, List.cons_append]
      refine List.pairwise_cons.mpr ⟨fun b hb => ?_,
        ih (fun b hb => hq b (List.mem_cons_of_mem _ hb)) hrest⟩
      rcases List.mem_append.mp hb with hb | hb
      · exact hfirst b (List.takeWhile_subset _ hb)
      · rcases List.mem_cons.mp hb with rfl | hb
        · exact (hq a List.mem_cons_self).mp ha
        · exact hfirst b ((List.dropWhile_sublist _).subset hb)
    · rw [List.takeWhile_cons_of_neg ha, List.dropWhile_cons_of_neg ha, List.nil_append]
      have hlt : r x ≤ r a := by
        have := mt (hq a List.mem_cons_self).mpr ha
        omega
      refine List.pairwise_cons.mpr ⟨fun b hb => ?_, hl⟩
      rcases List.mem_cons.mp hb with rfl | hb
      · exact hlt
      · exact Nat.le_trans hlt (hfirst b hb)

theorem fieldPos_eq_idxOf {n : String} (h : n ∈ s.fields.map (·.name)) :
    s.fieldPos n = some ((s.fields.map (·.name)).idxOf n) := by
  rw [Schema.fieldPos, List.findIdx?_eq_some_iff_findIdx_eq, List.idxOf, List.findIdx_map]
  refine ⟨?_, rfl⟩
  have hlt := List.idxOf_lt_length_of_mem h
  rwa [List.idxOf, List.findIdx_map, List.length_map] at hlt

/-- **A path that is added stands past those of the fields up to its own.** -/
theorem canonical_addPath (hc : Canonical s) {name : String} {kind : IndexKind}
    {at_ : Nat × String} (hpath : s.pathOf name = .ok (some at_))
    (hkind : kind.check name .json = .ok ()) :
    Canonical (s.addPath ⟨name, .json, kind, false, none, false⟩) := by
  obtain ⟨f, hf, hsplit, hty⟩ := pathOf_eq_some hpath
  have hmemf : f ∈ s.fields := List.mem_of_getElem? hf
  have hdot : name.toList.contains '.' = true := by
    rw [(splitPath_eq_some.mp hsplit).1]
    simp
  -- a path takes no index that has anything to resolve
  have hres : kind.resolved = kind := by
    cases kind with
    | vector spec =>
      unfold IndexKind.check at hkind
      rw [if_pos (by rw [hdot]; rfl)] at hkind
      cases hkind
    | _ => rfl
  set p : Field := ⟨name, .json, kind, false, none, false⟩ with hp
  have hhead : head p = f.name := head_eq hsplit
  have hmem : ∀ q, q ∈ (s.addPath p).paths ↔ q = p ∨ q ∈ s.paths := by
    intro q
    rw [Schema.addPath, List.mem_append, List.mem_cons, or_left_comm, ← List.mem_append,
      List.takeWhile_append_dropWhile]
  refine ⟨hc.names, hc.named, hc.no_dot, hc.resolved, hc.ascending, hc.within, ?_, ?_, ?_, ?_⟩
  · intro q hq
    rcases (hmem q).mp hq with rfl | hq
    · rfl
    · exact hc.plain q hq
  · intro q hq
    rcases (hmem q).mp hq with rfl | hq
    · exact hres
    · exact hc.settled q hq
  · intro q hq
    rcases (hmem q).mp hq with rfl | hq
    · exact ⟨f, hmemf, hty, at_.2, hsplit⟩
    · exact hc.into q hq
  · refine pairwise_insert (fun q hq => ?_) hc.grouped
    obtain ⟨g, hg, -, keys, hqsplit⟩ := hc.into q hq
    have hqrank : (splitPath q.name).bind (fun fk => s.fieldPos fk.1) =
        some ((s.fields.map (·.name)).idxOf g.name) := by
      rw [hqsplit]
      exact fieldPos_eq_idxOf (List.mem_map_of_mem hg)
    have hprank : (splitPath p.name).bind (fun fk => s.fieldPos fk.1) =
        some ((s.fields.map (·.name)).idxOf f.name) := by
      rw [show splitPath p.name = _ from hsplit]
      exact fieldPos_eq_idxOf (List.mem_map_of_mem hmemf)
    rw [hhead, head_eq hqsplit]
    dsimp only
    rw [hqrank, hprank]
    show (!decide _) = true ↔ (s.fields.map (·.name)).idxOf g.name ≤
      (s.fields.map (·.name)).idxOf f.name
    rw [Bool.not_eq_true', decide_eq_false_iff_not, Nat.not_lt]

theorem length_insertPlace (p : Nat) (ds : List Nat) :
    (insertPlace p ds).length = ds.length + 1 := by
  induction ds with
  | nil => rfl
  | cons d ds ih =>
    unfold insertPlace
    split
    · rw [List.length_cons, ih, List.length_cons]
    · rfl

/-- A field is past no more places than were dropped. -/
theorem place_le_add (ds : List Nat) (i : Nat) : place ds i ≤ i + ds.length := by
  induction ds generalizing i with
  | nil => exact Nat.le_refl _
  | cons d ds ih =>
    rw [place, List.length_cons]
    split
    · omega
    · have := ih (i + 1)
      omega

/-- **A field that is added stands past the others.** -/
theorem canonical_added (hc : Canonical s) {f : Field} {c : FieldChange}
    (h : alterSchema s (.addField f) = .ok c) : Canonical c.schema := by
  unfold alterSchema at h
  dsimp only at h
  split at h
  · cases h
  obtain ⟨made, hmade, h⟩ := bind_ok h
  cases h
  obtain ⟨hfields, hok⟩ := create_ok hmade
  have hnamed := create_named hmade
  rw [List.map_append, Altered.map_resolved hc.resolved] at hfields
  have hnames : made.fields.map (·.name) = s.fields.map (·.name) ++ [f.name] := by
    rw [hfields, List.map_append]
    rfl
  refine ⟨hok.nodup, hnamed, hok.no_dot, hok.resolved, hc.ascending, fun d hd => ?_, hc.plain,
    hc.settled, fun p hp => ?_, ?_⟩
  · have := hc.within d hd
    show d < made.fields.length + s.dropped.length
    rw [hfields, List.length_append]
    unfold Schema.width at this
    omega
  · obtain ⟨g, hg, hrest⟩ := hc.into p hp
    refine ⟨g, ?_, hrest⟩
    show g ∈ made.fields
    rw [hfields]
    exact List.mem_append_left _ hg
  · refine hc.grouped.imp_of_mem fun {p q} hp hq hle => ?_
    have hmem : ∀ p ∈ s.paths, head p ∈ s.fields.map (·.name) := by
      intro p hp
      obtain ⟨g, hg, -, keys, hsplit⟩ := hc.into p hp
      rw [head_eq hsplit]
      exact List.mem_map_of_mem hg
    show (made.fields.map (·.name)).idxOf (head p) ≤ (made.fields.map (·.name)).idxOf (head q)
    rw [hnames, List.idxOf_append_of_mem (hmem p hp), List.idxOf_append_of_mem (hmem q hq)]
    exact hle

/-- **A field that is dropped leaves its place**, and takes its paths with it. -/
theorem canonical_dropped (hc : Canonical s) {name : String} {c : FieldChange}
    (h : alterSchema s (.dropField name) = .ok c) : Canonical c.schema := by
  unfold alterSchema at h
  dsimp only at h
  cases hpos : s.fieldPos name with
  | none =>
    rw [hpos] at h
    cases h
  | some pos =>
    obtain ⟨f, hf, rfl⟩ := Altered.fieldPos_getElem hpos
    obtain ⟨hlt, -⟩ := List.getElem?_eq_some_iff.mp hf
    rw [hpos] at h
    dsimp only at h
    split at h
    · cases h
    cases h
    have hsub : (s.fields.eraseIdx pos).Sublist s.fields := List.eraseIdx_sublist _ _
    have hnames : (s.fields.eraseIdx pos).map (·.name) =
        (s.fields.map (·.name)).filter (· != f.name) := by
      rw [← Altered.filter_name (g := Field.name) hf hc.names, List.filter_map]
      rfl
    have hdot : '.' ∉ f.name.toList := hc.no_dot f (List.mem_of_getElem? hf)
    -- what is left reads into other fields
    have hother : ∀ p ∈ s.paths.filter (fun p => (stripPrefix (f.name ++ ".") p.name).isNone),
        p ∈ s.paths ∧ head p ≠ f.name := by
      intro p hp
      obtain ⟨hmem, hnone⟩ := List.mem_filter.mp hp
      refine ⟨hmem, fun heq => ?_⟩
      obtain ⟨g, -, -, keys, hsplit⟩ := hc.into p hmem
      rw [head_eq hsplit] at heq
      rw [Option.isNone_iff_eq_none, stripPrefix_eq_none hdot] at hnone
      exact hnone keys (heq ▸ hsplit)
    have hplace : s.place pos < s.width := by
      have := place_le_add s.dropped pos
      show place s.dropped pos < s.fields.length + s.dropped.length
      omega
    refine ⟨?_, fun g hg => hc.named g (hsub.subset hg), fun g hg => hc.no_dot g (hsub.subset hg),
      fun g hg => hc.resolved g (hsub.subset hg),
      Altered.insertPlace_ascending hc.ascending (Altered.place_notMem hc.ascending pos),
      fun d hd => ?_, fun p hp => hc.plain p (hother p hp).1,
      fun p hp => hc.settled p (hother p hp).1, fun p hp => ?_, ?_⟩
    · exact hc.names.sublist (hsub.map _)
    · have hd : d < s.width := by
        rcases Altered.mem_insertPlace.mp hd with rfl | hd
        · exact hplace
        · exact hc.within d hd
      show d < (s.fields.eraseIdx pos).length + (insertPlace (s.place pos) s.dropped).length
      rw [List.length_eraseIdx_of_lt hlt, length_insertPlace]
      unfold Schema.width at hd
      omega
    · obtain ⟨hmem, hne⟩ := hother p hp
      obtain ⟨g, hg, hty, keys, hsplit⟩ := hc.into p hmem
      rw [head_eq hsplit] at hne
      refine ⟨g, ?_, hty, keys, hsplit⟩
      show g ∈ s.fields.eraseIdx pos
      rw [← Altered.filter_name (g := Field.name) hf hc.names]
      exact List.mem_filter.mpr ⟨hg, bne_iff_ne.mpr hne⟩
    · refine (hc.grouped.sublist List.filter_sublist).imp_of_mem fun {p q} hp hq hle => ?_
      show ((s.fields.eraseIdx pos).map (·.name)).idxOf (head p) ≤
        ((s.fields.eraseIdx pos).map (·.name)).idxOf (head q)
      rw [hnames]
      exact idxOf_filter_le (bne_iff_ne.mpr (hother p hp).2) (bne_iff_ne.mpr (hother q hq).2) hle

/-- **Every schema that is made is as the operations keep it**, by induction over how it was. -/
theorem canonical_made (h : Made s) : Canonical s := by
  induction h with
  | create h => exact canonical_create h
  | path _ hpath hkind hc => exact canonical_addPath hc hpath hkind
  | composite _ h hc =>
    unfold addComposite at h
    obtain ⟨found, -, h⟩ := bind_ok h
    split at h
    · cases h
    · cases h
      exact ⟨hc.names, hc.named, hc.no_dot, hc.resolved, hc.ascending, hc.within, hc.plain,
        hc.settled, hc.into, hc.grouped⟩
  | added _ h hc => exact canonical_added hc h
  | dropped _ h hc => exact canonical_dropped hc h

end Steps

/-! ## 9. The codec's contract -/

/-- **`Schema::decode` undoes `Schema::encode`**: of every schema that is made, whatever stands
before and after it in the buffer, the same schema is read and the place is left at its end. -/
theorem decode_undoes_schema {s : Schema} (hs : Made s) (hz : Sized s) (before after : List UInt8)
    (hlen : (before ++ s.encode ++ after).length < 2 ^ 63) (log : List (Tag × Nat)) :
    ∃ log', Schema.decode (before ++ s.encode ++ after) ⟨before.length, log⟩ =
      (.ok s, ⟨(before ++ s.encode).length, log'⟩) := by
  have hread := reads_schema hlen (canonical_made hs) hz
  have hend : (before ++ s.encode).length = before.length + s.encode.length := List.length_append
  rw [hend]
  refine hread ⟨before.length, log⟩ after ?_ ?_
  · simp only [List.length_append]
    omega
  · rw [List.append_assoc, List.drop_left]

/-- A folded text in a collation, a json field, a time rows expire by, a quantised vector index
and one over characters. -/
def declared : List Field :=
  [⟨"a", .text, .none, true, some .turkish, true⟩, ⟨"m", .json, .none, false, none, false⟩,
    ⟨"t", .timestamp, .sorted (some 5), false, none, false⟩,
    ⟨"v", .vector 3 .f16, .vector ⟨.cosine, 16, 200, 200, .bit⟩, false, none, false⟩,
    ⟨"w", .text, .text ⟨120, 75, 8, 2, true⟩, false, none, false⟩]

/-- A path into `m`. -/
def rank : Field := ⟨"m.x", .json, .sorted none, false, none, false⟩

/-- An index over `t`, descending, and the path. -/
def latest : Composite := ⟨[("t", true), ("m.x", false)], false⟩

theorem decode_undoes_schema_dropped : ∃ log',
    Schema.decode ([9] ++ Schema.encode ⟨"c", declared, [rank], [5], [latest]⟩ ++ [1]) ⟨1, []⟩ =
      (.ok ⟨"c", declared, [rank], [5], [latest]⟩, ⟨64, log'⟩) := by
  have h₀ : Made ⟨"c", declared ++ [Altered.plain "z" .int], [], [], []⟩ :=
    .create (show Schema.create "c" (declared ++ [Altered.plain "z" .int]) = .ok _ from rfl)
  have h₁ : Made ⟨"c", declared ++ [Altered.plain "z" .int], [rank], [], []⟩ :=
    h₀.path (show Schema.pathOf _ "m.x" = .ok (some (1, "x")) from rfl)
      (show IndexKind.check (.sorted none) "m.x" .json = .ok () from rfl)
  have h₂ : Made ⟨"c", declared ++ [Altered.plain "z" .int], [rank], [], [latest]⟩ :=
    h₁.composite (show addComposite _ latest = .ok _ from rfl)
  have h₃ := h₂.dropped (show alterSchema _ (.dropField "z") = .ok
    ⟨.drop, "z", "", ⟨"c", declared, [rank], [5], [latest]⟩⟩ from rfl)
  refine decode_undoes_schema h₃ ⟨?_, ?_, ?_⟩ [9] [1] (by decide) []
  · simp [declared, DataType.Sized]
  · simp [declared, IndexKind.Sized]
  · simp [rank, IndexKind.Sized]

end SchemaCodec

end Fenec
