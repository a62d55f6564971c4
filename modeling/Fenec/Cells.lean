/-
# Documents as bytes

A stored document is its values' bytes one after another, by place.  This module has the writer
of such a payload and the five readers of it as the source has them, walking the bytes: the whole
document (`readDoc`), one field (`readField`), several in one pass (`readFields`), paths into json
fields (`readPaths`), and what `compact` keeps of a payload (`withoutDropped`).

`Holds buf P` says that the payload `buf` holds the values `P`, a cell each.  Under it every reader
answers what `P` has at the places it asks for, and what it does not have is null: the readers
below this module's speak of `P` alone.
-/
import Fenec.Alter
import Fenec.Lib.Chunks
import Fenec.RoundTrip

namespace Fenec

open Lib Reader Codec Chunks

namespace Cells

/-! ## 1. Writing -/

/-- The places of the fields from one on, a null in that of each dropped field between. -/
def encodeFrom (s : Schema) (d : Document) : Nat → Nat → List Field → List UInt8
  | _, _, [] => []
  | at_, i, f :: fs =>
    List.replicate (s.place i - at_) Tag.null.byte ++
      (encodeValueAs ((d.get f.name).getD .null) (some f.ty) ++
        encodeFrom s d (s.place i + 1) (i + 1) fs)

/-- **`Store::encode_doc_into`.** -/
def encodeDoc (s : Schema) (d : Document) : List UInt8 := encodeFrom s d 0 0 s.fields

/-! ## 2. Reading -/

section Readers

variable (o : Overflow) (buf : List UInt8)

/-- `skip_field`, `n` times. -/
def skipFields : Nat → Dec Unit
  | 0 => pure ()
  | n + 1 => do
    skipField o buf
    skipFields n

/-- The value here, null past the payload's end. -/
def valueHere : Dec Value := fun c =>
  if c.pos < buf.length then decodeValue o buf c else (.ok .null, c)

/-- The fields from one on. -/
def readFrom (s : Schema) : Nat → Nat → List Field → Dec (List (String × Value))
  | _, _, [] => pure []
  | at_, i, f :: fs => do
    skipFields o buf (s.place i - at_)
    let v ← valueHere o buf
    let rest ← readFrom s (s.place i + 1) (i + 1) fs
    pure ((f.name, v) :: rest)

/-- **`Schema::read_doc`.** -/
def readDoc (s : Schema) (id : DocId) : Dec Document := do
  let fields ← readFrom o buf s 0 0 s.fields
  pure ⟨id, fields⟩

/-- **`Store::read_field`**, the document found. -/
def readField (s : Schema) (pos : Nat) : Dec Value := do
  skipFields o buf (s.place pos)
  valueHere o buf

/-- `decode_text_into`, from its tag. -/
def textInto : Dec Value := do
  let _ ← byte buf "missing value tag"
  let n ← getUvarint buf
  let raw ← take buf n
  let s ← Act.lift (textOf raw)
  pure (.text s)

/-- A point into the two floats its slot held. -/
def pointInto : Dec Value := fun c =>
  if buf.length < c.pos + 17 then (.error (.corrupt "point outside the segment"), c)
  else (.ok (Geo.geoValue (geoAt (buf.drop (c.pos + 1)))), { c with pos := c.pos + 17 })

/-- What `read_fields` puts in a slot, which held a value or is yet to be made. -/
def slotValue (slot : Option Value) : Dec Value := fun c =>
  match buf[c.pos]?, slot with
  | none, _ => (.ok .null, c)
  | some b, some (.text _) => if b = Tag.text.byte then textInto buf c else decodeValue o buf c
  | some b, some (.list [_, _]) => if b = Tag.geo.byte then pointInto buf c else decodeValue o buf c
  | some _, _ => decodeValue o buf c

/-- **`Store::read_fields`**, the document found: the values at ascending places into the first
slots, the slots past them left as they were. -/
def readFields : Nat → List Nat → List Value → Dec (List Value)
  | _, [], out => pure out
  | at_, want :: places, out => do
    skipFields o buf (want - at_)
    let v ← slotValue o buf out.head?
    let rest ← readFields (want + 1) places out.tail
    pure (v :: rest)

/-- The member of an object with key `key`, among `n` of them: whether there is one, and the place
of its value.  The keys of an object ascend. -/
def findKey (key : List UInt8) : Nat → Dec Bool
  | 0 => pure false
  | n + 1 => do
    let len ← getUvarint buf
    let k ← take buf len
    match compare k key with
    | .lt => do
      skipValue o buf
      findKey key n
    | .eq => pure true
    | .gt => pure false

/-- Whether an object stands here, its tag passed over if one does. -/
def isObject : Dec Bool := fun c =>
  if buf[c.pos]? = some Tag.object.byte then (.ok true, { c with pos := c.pos + 1 })
  else (.ok false, c)

/-- One key of a path: into the object that stands here. -/
def stepIn (key : String) : Bool → Dec Bool
  | false => pure false
  | true => do
    let n ← getUvarint buf
    findKey o buf (utf8 key.toList) n

/-- The keys of a path, one object into the next: whether it leads anywhere, and where. -/
def walk : List String → Bool → Dec Bool
  | [], found => pure found
  | _ :: _, false => pure false
  | k :: ks, true => do
    let obj ← isObject buf
    let found ← stepIn o buf k obj
    walk ks found

/-- What a path's slot is given, at its end. -/
def pathValue (slot : Value) : Bool → Dec Value
  | false => pure .null
  | true => fun c => match buf[c.pos]?, slot with
    | some b, .text _ => if b = Tag.text.byte then textInto buf c else decodeValue o buf c
    | _, _ => decodeValue o buf c

/-- **`decode_path_into`.** -/
def decodePath (keys : String) (slot : Value) : Dec Value := do
  let found ← walk o buf (Value.pathKeys keys) true
  pathValue o buf slot found

/-- A path from the field that starts here; the place itself is not moved. -/
def pathHere (keys : String) (slot : Value) : Dec Value := fun c =>
  if c.pos < buf.length then ((decodePath o buf keys slot c).1, c) else (.ok .null, c)

/-- From one place to another, from the start again where it lies before. -/
def seek (at_ want : Nat) : Dec Unit :=
  if want < at_ then do
    Reader.moveTo 0
    skipFields o buf want
  else skipFields o buf (want - at_)

/-- **`Store::read_paths`**, the document found. -/
def readPaths (s : Schema) : Nat → List (Nat × String) → List Value → Dec (List Value)
  | _, [], out => pure out
  | _, _ :: _, [] => pure []
  | at_, (field, keys) :: paths, slot :: out => do
    seek o buf at_ (s.place field)
    let v ← pathHere o buf keys slot
    let rest ← readPaths s (s.place field) paths out
    pure (v :: rest)

/-- `without_dropped` from place `at_` on, through at most `fuel` values: each takes a byte. -/
def withoutFrom (dropped : List Nat) : Nat → Nat → List UInt8 → Dec (List UInt8)
  | 0, _, out => pure out
  | fuel + 1, at_, out => fun c =>
    if c.pos < buf.length then
      match skipValue o buf c with
      | (.ok (), c') =>
        withoutFrom dropped fuel (at_ + 1)
          (if dropped.contains at_ then out else out ++ (buf.drop c.pos).take (c'.pos - c.pos)) c'
      | (.error e, c') => (.error e, c')
    else (.ok out, c)

/-- **`Schema::without_dropped`**: a payload without its dropped places. -/
def withoutDropped (dropped : List Nat) : Dec (List UInt8) :=
  withoutFrom o buf dropped buf.length 0 []

end Readers

/-! ## 3. Cells -/

/-- What a `Value` of the source is by its type: an object's members ascend by key, each key once,
and the floats of a vector take no more bytes than an allocation has. -/
inductive Sound : Value → Prop
  | object {ms : List (String × Value)} (ascend : ms.Pairwise fun a b => cmpStr a.1 b.1 = .lt)
      (members : ∀ kv ∈ ms, Sound kv.2) : Sound (.object ms)
  | vector {vals : List F32} (fits : vals.length * 4 < 2 ^ 63) : Sound (.vector vals)
  | other {v : Value} (obj : ∀ ms, v ≠ .object ms) (vec : ∀ vals, v ≠ .vector vals) : Sound v

theorem sound_null : Sound .null := .other (by simp) (by simp)

/-- `bs` is a field's value `v` as a payload has it. -/
structure Cell (bs : List UInt8) (v : Value) : Prop where
  written : ∃ u ty, Sound u ∧ bs = encodeValueAs u (some ty) ∧ v = kept ty u

theorem cell_null : Cell [Tag.null.byte] .null := ⟨.null, .bool, sound_null, rfl, rfl⟩

/-- **The three ways a value is written.** -/
theorem Cell.cases {bs : List UInt8} {v : Value} (h : Cell bs v) :
    (bs = encodeValue v ∧ Sound v) ∨
    (∃ lon lat, bs = Tag.geo.byte :: (leBytes 8 lon.bits.toNat ++ leBytes 8 lat.bits.toNat) ∧
      v = Geo.geoValue (lon, lat)) ∨
    ∃ vals : List F32, vals.length * 4 < 2 ^ 63 ∧ bs = Tag.vectorF16.byte ::
      (uvarint vals.length ++ vals.flatMap fun f => leBytes 2 (f16FromF32 f)) ∧
      v = .vector (vals.map halved) := by
  obtain ⟨u, ty, hu, rfl, rfl⟩ := h.written
  unfold encodeValueAs
  split
  · next d heq =>
    cases heq
    cases hu with
    | vector hfits => exact .inr (.inr ⟨_, hfits, rfl, rfl⟩)
    | object ha hm => exact .inl ⟨rfl, .object ha hm⟩
    | other ho hv =>
      refine .inl ?_
      cases u with
      | vector vals => exact absurd rfl (hv vals)
      | _ => exact ⟨rfl, .other ho hv⟩
  · next heq =>
    cases heq
    split
    · exact .inr (.inl ⟨_, _, rfl, rfl⟩)
    · exact .inl ⟨by rw [kept_of_ne (by simp)], by rw [kept_of_ne (by simp)]; exact hu⟩
  · next h16 _ =>
    have hk : kept ty u = u := kept_of_ne fun d hd => h16 d (by rw [hd])
    rw [hk]
    exact .inl ⟨rfl, hu⟩

theorem Cell.pos {bs : List UInt8} {v : Value} (h : Cell bs v) : 0 < bs.length := by
  rcases h.cases with ⟨rfl, -⟩ | ⟨lon, lat, rfl, -⟩ | ⟨vals, -, rfl, -⟩
  · exact length_encodeValue_pos v
  · exact Nat.succ_pos _
  · exact Nat.succ_pos _

theorem f16FromF32_lt (f : F32) : f16FromF32 f < 256 ^ 2 := by
  have hsign : (f.bits.toNat >>> 16) &&& 0x8000 < 2 ^ 16 :=
    Nat.lt_of_le_of_lt Nat.and_le_right (by norm_num)
  have hmant : f.bits.toNat &&& 0x7fffff < 2 ^ 23 :=
    Nat.lt_of_le_of_lt Nat.and_le_right (by norm_num)
  have hor : ∀ {a b : Nat}, a < 2 ^ 16 → b < 2 ^ 16 → a ||| b < 2 ^ 16 := Nat.or_lt_two_pow
  have hup : ∀ {h rem half : Nat}, h < 2 ^ 15 →
      (if rem > half ∨ rem = half ∧ h % 2 = 1 then h + 1 else h) < 2 ^ 16 := by
    intro h rem half hh
    split <;> omega
  -- nothing is left of a subnormal past its ten bits
  have hshift : ∀ {m k : Nat}, m < 2 ^ 24 → 14 ≤ k → m >>> k < 2 ^ 15 := by
    intro m k hm hk
    rw [Nat.shiftRight_eq_div_pow]
    have hle : m / 2 ^ k ≤ m / 2 ^ 14 :=
      Nat.div_le_div_left (Nat.pow_le_pow_right (by omega) hk) (by positivity)
    omega
  show f16FromF32 f < 2 ^ 16
  unfold f16FromF32
  extract_lets x sign rawExp mant up
  have hmant' : mant < 2 ^ 23 := hmant
  split
  · refine hor (hor hsign (by norm_num)) ?_
    split <;> norm_num
  · split
    · exact hor hsign (by norm_num)
    · split
      · split
        · exact hsign
        · refine hor hsign (hup (hshift (Nat.or_lt_two_pow ?_ (by norm_num)) (by omega)))
          omega
      · refine hor hsign (hup (Nat.or_lt_two_pow ?_ ?_))
        · rw [Nat.shiftLeft_eq]
          omega
        · rw [Nat.shiftRight_eq_div_pow]
          omega

section

variable {o : Overflow} {buf : List UInt8}

theorem reads_halves (hbuf : buf.length < 2 ^ 63) {vals : List F32}
    (hfits : vals.length * 4 < 2 ^ 63) (d : Nat) :
    Reader.Reads buf (decodeAt o buf (d + 1)) (Tag.vectorF16.byte ::
      (uvarint vals.length ++ vals.flatMap fun f => leBytes 2 (f16FromF32 f)))
      (.vector (vals.map halved)) := by
  have hlen : (vals.flatMap fun f => leBytes 2 (f16FromF32 f)).length = vals.length * 2 :=
    length_flatMap_const (fun _ => length_leBytes 2 _) vals
  have hread : (chunks 2 (vals.flatMap fun f => leBytes 2 (f16FromF32 f))).map
      (fun w => f32FromF16 (fromLe w)) = vals.map halved := by
    rw [chunks_flatMap (by omega) (fun _ => length_leBytes 2 _), List.map_map]
    refine List.map_congr_left fun f _ => ?_
    show f32FromF16 (fromLe (leBytes 2 (f16FromF32 f))) = halved f
    rw [fromLe_leBytes, Nat.mod_eq_of_lt (f16FromF32_lt f), halved]
  have hbody : Reader.Reads buf (do
      withCapacity .vectorF16 vals.length 4
      pure (.vector ((chunks 2 (vals.flatMap fun f => leBytes 2 (f16FromF32 f))).map
        fun w => f32FromF16 (fromLe w))) : Dec Value) [] (.vector (vals.map halved)) := by
    rw [hread]
    exact (reads_withCapacity hfits).answer reads_pure
  refine reads_tagged (t := .vectorF16) ((reads_uvarint (by omega)).bind ?_)
  exact (reads_product (by omega)).bind ((reads_take hbuf hlen).answer hbody)

/-- **A cell is read as the value it is of.** -/
theorem Cell.reads {bs : List UInt8} {v : Value} (h : Cell bs v) (hbuf : buf.length < 2 ^ 63)
    (hbs : bs.length ≤ buf.length) : Reader.Reads buf (decodeValue o buf) bs v := by
  rcases h.cases with ⟨rfl, -⟩ | ⟨lon, lat, rfl, rfl⟩ | ⟨vals, hfits, rfl, rfl⟩
  · exact reads_value hbuf v (by omega) (by omega)
  · exact reads_point hbuf (lon, lat) _
  · exact reads_halves hbuf hfits _

end

/-! ## 4. Payloads, cell by cell -/

/-- **The payload `buf` holds the values `P`**, the bytes of each in `cells`. -/
structure Holds (buf : List UInt8) (cells : List (List UInt8)) (P : Payload) : Prop where
  eq : buf = cells.flatten
  cell : List.Forall₂ Cell cells P
  short : buf.length < 2 ^ 63

section Goes

variable {α β : Type} {cells : List (List UInt8)} {m : Dec α} {f : α → Dec β} {a : α} {b : β}
  {i j k : Nat}

/-- From the start of cell `k` the reader answers `a`, at the start of cell `j`. -/
def Goes (cells : List (List UInt8)) (m : Dec α) (k j : Nat) (a : α) : Prop :=
  ∀ c, c.pos = start cells k → ∃ l, m c = (.ok a, ⟨start cells j, l⟩)

theorem goes_pure : Goes cells (pure a : Dec α) k k a := fun c hc => ⟨c.log, by rw [← hc]; rfl⟩

theorem Goes.bind (hm : Goes cells m i j a) (hf : Goes cells (f a) j k b) :
    Goes cells (m >>= f) i k b := by
  intro c hc
  obtain ⟨l, hl⟩ := hm c hc
  obtain ⟨l', hl'⟩ := hf ⟨start cells j, l⟩ rfl
  exact ⟨l', by rw [Act.bind_eq, hl]; exact hl'⟩

end Goes

namespace Holds

variable {o : Overflow} {buf : List UInt8} {cells : List (List UInt8)} {P : Payload} {k : Nat}

theorem length_eq (h : Holds buf cells P) : cells.length = P.length := h.cell.length_eq

theorem start_le (h : Holds buf cells P) (k : Nat) : start cells k ≤ buf.length := by
  rw [h.eq]
  exact Chunks.start_le cells k

/-- **The cell at a place, where it starts and where the next one does.** -/
theorem at_cell (h : Holds buf cells P) (hk : k < P.length) :
    ∃ bs rest, Cell bs (P.at k) ∧ cells[k]? = some bs ∧
      buf.drop (start cells k) = bs ++ rest ∧ start cells (k + 1) = start cells k + bs.length := by
  have hk' : k < cells.length := h.length_eq ▸ hk
  have hget : cells[k]? = some (cells.get ⟨k, hk'⟩) := List.getElem?_eq_getElem hk'
  have hcell : Cell (cells.get ⟨k, hk'⟩) (P.get ⟨k, hk⟩) := h.cell.get hk' hk
  have hat : P.at k = P.get ⟨k, hk⟩ := by simp [Payload.at, hk]
  refine ⟨cells.get ⟨k, hk'⟩, (cells.drop (k + 1)).flatten, hat ▸ hcell, hget, ?_, start_succ hget⟩
  rw [h.eq]
  exact drop_chunk hget

/-- Past the last cell the payload ends, and nothing is there. -/
theorem past_end (h : Holds buf cells P) (hk : P.length ≤ k) :
    start cells k = buf.length ∧ P.at k = .null := by
  refine ⟨?_, by simp [Payload.at, hk]⟩
  rw [h.eq, start_of_le (h.length_eq ▸ hk)]

theorem start_lt (h : Holds buf cells P) (hk : k < P.length) : start cells k < buf.length := by
  obtain ⟨bs, rest, hc, -, -, hnext⟩ := h.at_cell hk
  have hpos := hc.pos
  have hle := h.start_le (k + 1)
  omega

theorem decode_at (h : Holds buf cells P) (hk : k < P.length) :
    Goes cells (decodeValue o buf) k (k + 1) (P.at k) := by
  intro c hc
  obtain ⟨bs, rest, hcell, -, hdrop, hnext⟩ := h.at_cell hk
  have hle := h.start_le (k + 1)
  have hread := hcell.reads (o := o) h.short (by omega)
  rw [← hc] at hdrop hnext
  rw [hnext]
  exact hread c rest (hc ▸ h.start_le k) hdrop

theorem skip_at (h : Holds buf cells P) (hk : k < P.length) :
    Goes cells (skipValue o buf) k (k + 1) () := by
  intro c hc
  obtain ⟨l, hl⟩ := h.decode_at (o := o) hk c hc
  obtain ⟨_, ⟨pos, l'⟩, hskip, hpos, -⟩ := follows_decode _ c c _ _ rfl hl
  cases hpos
  exact ⟨l', hskip⟩

theorem skipField_at (h : Holds buf cells P) (k : Nat) :
    Goes cells (skipField o buf) k (k + 1) () := by
  intro c hc
  unfold skipField
  by_cases hk : k < P.length
  · have hlt := h.start_lt hk
    rw [List.getElem?_eq_getElem (by omega)]
    exact h.skip_at hk c hc
  · have hend := (h.past_end (Nat.le_of_not_lt hk)).1
    have hend' := (h.past_end (k := k + 1) (by omega)).1
    rw [List.getElem?_eq_none (by omega)]
    exact ⟨c.log, by rw [hend', ← hend, ← hc]⟩

theorem skipFields_at (h : Holds buf cells P) (n : Nat) : ∀ k,
    Goes cells (skipFields o buf n) k (k + n) () := by
  induction n with
  | zero => exact fun k => goes_pure
  | succ n ih =>
    intro k
    have hrest := ih (k + 1)
    rw [Nat.add_right_comm] at hrest
    exact (h.skipField_at k).bind hrest

/-- **The value at a place is read there**, null past the end. -/
theorem valueHere_at (h : Holds buf cells P) (k : Nat) :
    Goes cells (valueHere o buf) k (k + 1) (P.at k) := by
  intro c hc
  unfold valueHere
  by_cases hk : k < P.length
  · rw [if_pos (by rw [hc]; exact h.start_lt hk)]
    exact h.decode_at hk c hc
  · obtain ⟨hend, hnull⟩ := h.past_end (Nat.le_of_not_lt hk)
    have hend' := (h.past_end (k := k + 1) (by omega)).1
    rw [if_neg (by omega), hnull]
    exact ⟨c.log, by rw [hend', ← hend, ← hc]⟩

/-! ## 5. Documents and fields -/

theorem readFrom_goes (h : Holds buf cells P) (s : Schema) (fs : List Field) : ∀ at_ i : Nat,
    at_ ≤ s.place i → ∃ j, Goes cells (readFrom o buf s at_ i fs) at_ j
      (fs.mapIdx fun n f => (f.name, P.at (s.place (i + n)))) := by
  induction fs with
  | nil => exact fun _ _ _ => ⟨_, goes_pure⟩
  | cons f fs ih =>
    intro at_ i hat
    obtain ⟨j, hj⟩ := ih (s.place i + 1) (i + 1) (place_lt_succ _ _)
    refine ⟨j, ?_⟩
    have hskip := h.skipFields_at (o := o) (s.place i - at_) at_
    rw [Nat.add_sub_cancel' hat] at hskip
    have hrest := hj.bind (f := fun rest => pure ((f.name, P.at (s.place i)) :: rest)) goes_pure
    simp only [Nat.add_assoc i 1, Nat.add_comm 1] at hrest
    simp only [List.mapIdx_cons, Nat.add_zero]
    exact hskip.bind ((h.valueHere_at _).bind hrest)

/-- **`read_doc` reads the document its payload holds.** -/
theorem readDoc_goes (h : Holds buf cells P) (s : Schema) (id : DocId) :
    ∃ j, Goes cells (readDoc o buf s id) 0 j (Fenec.readDoc s id P) := by
  obtain ⟨j, hj⟩ := h.readFrom_goes (o := o) s s.fields 0 0 (Nat.zero_le _)
  simp only [Nat.zero_add] at hj
  exact ⟨j, hj.bind (b := Fenec.readDoc s id P) goes_pure⟩

/-- **`read_field` reads what stands at the field's place.** -/
theorem readField_goes (h : Holds buf cells P) (s : Schema) (pos : Nat) :
    Goes cells (readField o buf s pos) 0 (s.place pos + 1) (P.at (s.place pos)) := by
  have hskip := h.skipFields_at (o := o) (s.place pos) 0
  rw [Nat.zero_add] at hskip
  exact hskip.bind (h.valueHere_at _)

/-! ## 6. Fields into slots -/

end Holds

section Heads

variable {o : Overflow} {buf bs : List UInt8} {v : Value}

theorem cell_text (h : Cell (Tag.text.byte :: bs) v) : ∃ s, v = .text s ∧ bs = encodeStr s := by
  rcases h.cases with ⟨heq, -⟩ | ⟨lon, lat, heq, -⟩ | ⟨vals, -, heq, -⟩
  · obtain ⟨htag, hbody⟩ := List.cons.inj heq
    cases v with
    | text s => exact ⟨s, rfl, hbody⟩
    | _ => exact absurd htag (by simp [tag, Tag.byte])
  · exact absurd (List.cons.inj heq).1 (by decide)
  · exact absurd (List.cons.inj heq).1 (by decide)

theorem cell_geo (h : Cell (Tag.geo.byte :: bs) v) : ∃ lon lat,
    bs = leBytes 8 lon.bits.toNat ++ leBytes 8 lat.bits.toNat ∧ v = Geo.geoValue (lon, lat) := by
  rcases h.cases with ⟨heq, -⟩ | ⟨lon, lat, heq, hv⟩ | ⟨vals, -, heq, -⟩
  · exact absurd (List.cons.inj heq).1 (by cases v <;> simp [tag, Tag.byte])
  · exact ⟨lon, lat, (List.cons.inj heq).2, hv⟩
  · exact absurd (List.cons.inj heq).1 (by decide)

/-- An object stands behind its tag, and behind no other. -/
theorem cell_object {b : UInt8} (h : Cell (b :: bs) v) :
    (b = Tag.object.byte ∧ ∃ ms, v = .object ms ∧ Sound v ∧ bs = body v) ∨
      (b ≠ Tag.object.byte ∧ ∀ ms, v ≠ .object ms) := by
  rcases h.cases with ⟨heq, hs⟩ | ⟨lon, lat, heq, rfl⟩ | ⟨vals, -, heq, rfl⟩
  · obtain ⟨rfl, rfl⟩ := List.cons.inj heq
    cases v with
    | object ms => exact .inl ⟨rfl, ms, rfl, hs, rfl⟩
    | _ => exact .inr ⟨by simp [tag, Tag.byte], by simp⟩
  · refine .inr ⟨?_, by simp [Geo.geoValue]⟩
    rw [(List.cons.inj heq).1]
    decide
  · refine .inr ⟨?_, by simp⟩
    rw [(List.cons.inj heq).1]
    decide

theorem reads_textInto (hbuf : buf.length < 2 ^ 63) {s : String}
    (hs : (encodeStr s).length < 2 ^ 63) :
    Reader.Reads buf (textInto buf) (Tag.text.byte :: encodeStr s) (.text s) := by
  have hlen : (utf8 s.toList).length < 2 ^ 64 := by
    rw [encodeStr, List.length_append] at hs
    omega
  have hlift : Reader.Reads buf (Act.lift (textOf (utf8 s.toList)) : Dec String) [] s := by
    rw [textOf, fromUtf8_utf8]
    exact reads_pure
  exact reads_byte.bind ((reads_uvarint hlen).bind
    ((reads_take hbuf rfl).answer (hlift.answer reads_pure)))

theorem reads_pointInto (lon lat : F64) : Reader.Reads buf (pointInto buf)
    (Tag.geo.byte :: (leBytes 8 lon.bits.toNat ++ leBytes 8 lat.bits.toNat))
    (Geo.geoValue (lon, lat)) := by
  intro c rest hpos h
  have hle := past_le hpos h
  simp only [List.length_cons, List.length_append, length_leBytes] at hle
  have hdrop : buf.drop (c.pos + 1) =
      leBytes 8 lon.bits.toNat ++ (leBytes 8 lat.bits.toNat ++ rest) := by
    rw [← List.drop_drop, h]
    simp
  have hlon : f64At (buf.drop (c.pos + 1)) = lon := by
    rw [hdrop, f64At, List.take_left' (length_leBytes 8 _)]
    exact ofWord_leBytes lon (by norm_num)
  have hlat : f64At ((buf.drop (c.pos + 1)).drop 8) = lat := by
    rw [hdrop, List.drop_left' (length_leBytes 8 _), f64At, List.take_left' (length_leBytes 8 _)]
    exact ofWord_leBytes lat (by norm_num)
  refine ⟨c.log, ?_⟩
  rw [pointInto, if_neg (by omega), geoAt, hlon, hlat]
  simp

end Heads

namespace Holds

variable {o : Overflow} {buf : List UInt8} {cells : List (List UInt8)} {P : Payload} {k : Nat}

/-- The byte a cell starts with. -/
theorem head_at (h : Holds buf cells P) (hk : k < P.length) :
    ∃ b bs rest, buf[start cells k]? = some b ∧ Cell (b :: bs) (P.at k) ∧
      buf.drop (start cells k) = (b :: bs) ++ rest ∧
      start cells (k + 1) = start cells k + (b :: bs).length := by
  obtain ⟨bs, rest, hcell, -, hdrop, hnext⟩ := h.at_cell hk
  cases bs with
  | nil => exact absurd hcell.pos (Nat.lt_irrefl 0)
  | cons b bs =>
    refine ⟨b, bs, rest, ?_, hcell, hdrop, hnext⟩
    have h0 : (buf.drop (start cells k))[0]? = some b := by rw [hdrop]; rfl
    simpa using h0

/-- What reads a cell's bytes goes over the cell. -/
theorem goes_of_reads (h : Holds buf cells P) {m : Dec Value} {bs rest : List UInt8}
    (hdrop : buf.drop (start cells k) = bs ++ rest)
    (hnext : start cells (k + 1) = start cells k + bs.length) {v : Value}
    (hm : Reader.Reads buf m bs v) : Goes cells m k (k + 1) v := by
  intro c hc
  rw [← hc] at hdrop hnext
  rw [hnext]
  exact hm c rest (hc ▸ h.start_le k) hdrop

/-- **Whatever its slot held, a value is read into it as it is.** -/
theorem slotValue_at (h : Holds buf cells P) (slot : Option Value) (k : Nat) :
    Goes cells (slotValue o buf slot) k (k + 1) (P.at k) := by
  intro c hc
  by_cases hk : k < P.length
  · obtain ⟨b, bs, rest, hget, hcell, hdrop, hnext⟩ := h.head_at hk
    have hle := h.start_le (k + 1)
    have hshort := h.short
    have hanew := h.decode_at (o := o) hk c hc
    rw [← hc] at hget
    unfold slotValue
    rw [hget]
    split
    · next heq => cases heq
    · next heq =>
      cases heq
      split
      · next htag =>
        subst htag
        obtain ⟨s, hv, rfl⟩ := cell_text hcell
        rw [hv]
        rw [List.length_cons] at hnext
        exact h.goes_of_reads hdrop hnext (reads_textInto h.short (by omega)) c hc
      · exact hanew
    · next heq =>
      cases heq
      split
      · next htag =>
        subst htag
        obtain ⟨lon, lat, rfl, hv⟩ := cell_geo hcell
        rw [hv]
        exact h.goes_of_reads hdrop hnext (reads_pointInto lon lat) c hc
      · exact hanew
    · exact hanew
  · obtain ⟨hend, hnull⟩ := h.past_end (Nat.le_of_not_lt hk)
    have hend' := (h.past_end (k := k + 1) (by omega)).1
    have hget : buf[c.pos]? = none := List.getElem?_eq_none (by omega)
    unfold slotValue
    rw [hget, hnull]
    exact ⟨c.log, by rw [hend', ← hend, ← hc]⟩

/-- **`read_fields` reads what stands at each place**, and leaves the slots past them. -/
theorem readFields_goes (h : Holds buf cells P) (places : List Nat) : ∀ (at_ : Nat)
    (out : List Value), (∀ p ∈ places, at_ ≤ p) → places.Pairwise (· < ·) →
    ∃ j, Goes cells (readFields o buf at_ places out) at_ j
      (places.map P.at ++ out.drop places.length) := by
  induction places with
  | nil => exact fun _ _ _ _ => ⟨_, goes_pure⟩
  | cons want places ih =>
    intro at_ out hat hasc
    obtain ⟨hlt, hasc⟩ := List.pairwise_cons.mp hasc
    obtain ⟨j, hj⟩ := ih (want + 1) out.tail hlt hasc
    refine ⟨j, ?_⟩
    have hskip := h.skipFields_at (o := o) (want - at_) at_
    rw [Nat.add_sub_cancel' (hat want (List.mem_cons_self ..))] at hskip
    have hout : out.tail.drop places.length = out.drop (want :: places).length := by
      rw [List.drop_tail, List.length_cons]
    rw [hout] at hj
    exact hskip.bind ((h.slotValue_at out.head? want).bind (hj.bind goes_pure))


end Holds

end Cells

end Fenec
