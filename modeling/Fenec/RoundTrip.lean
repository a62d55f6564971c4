/-
# What is written is read back

`decodeValue` at the start of `encodeValue v` answers `v` and stops at its end, whatever stands
before and after (`reads_value`, by induction over the value), and wherever `decodeValue` answers
at all, `skipValue` goes exactly as far (`follows_decode`, by induction over the nesting).

The one thing the first rests on is that a buffer is shorter than `2 ^ 63` bytes, as every slice
is: no length in it then overflows when multiplied.
-/
import Fenec.Decode
import Mathlib.Tactic.Ring

namespace Fenec

open Lib Reader

namespace Codec

/-! ## 1. Bytes and lengths -/

section Spans

variable {o : Overflow} {buf : List UInt8}

theorem reads_byte {b : UInt8} {text : String} : Reads buf (byte buf text) [b] b := by
  intro c rest _ h
  have hget : buf[c.pos]? = some b := by
    have h0 : (buf.drop c.pos)[0]? = some b := by rw [h]; rfl
    simpa using h0
  exact ⟨c.log, by simp [byte, hget]⟩

theorem reads_take {raw : List UInt8} {n : Nat} (hbuf : buf.length < 2 ^ 63)
    (hn : raw.length = n) : Reads buf (take buf n) raw raw := by
  intro c rest hpos h
  subst hn
  have hle := past_le hpos h
  have h64 : ¬ 2 ^ 64 ≤ c.pos + raw.length := by omega
  refine ⟨c.log, ?_⟩
  simp only [take, if_neg h64, if_neg (Nat.not_lt.mpr hle), h, List.take_left]

/-- Seven more bits over the ones there are. -/
theorem or_shift {acc w shift : Nat} (hacc : acc < 2 ^ shift) (hw : w * 2 ^ shift < 2 ^ 64) :
    acc ||| ((w <<< shift) % 2 ^ 64) = acc + w * 2 ^ shift := by
  rw [Nat.shiftLeft_eq, Nat.mod_eq_of_lt hw, Nat.or_comm, Nat.mul_comm,
    ← Nat.two_pow_add_eq_or_of_lt hacc w, Nat.add_comm]

theorem reads_uvarintGo {f : Nat} : ∀ {k v shift acc : Nat}, v < 128 ^ (f + 1) →
    shift + 7 * k = 63 → acc < 2 ^ shift → v * 2 ^ shift < 2 ^ 64 →
    Reads buf (uvarintAt buf (k + 1) shift acc) (uvarintGo f v) (acc + v * 2 ^ shift) := by
  -- the last byte of a number, below 128
  have last : ∀ {k v shift acc : Nat}, v < 128 → acc < 2 ^ shift → v * 2 ^ shift < 2 ^ 64 →
      Reads buf (uvarintAt buf (k + 1) shift acc) [UInt8.ofNat v] (acc + v * 2 ^ shift) := by
    intro k v shift acc hv hacc hw
    have hb : (UInt8.ofNat v).toNat = v := by
      rw [UInt8.toNat_ofNat']
      omega
    have hrest : Reads buf (if (UInt8.ofNat v).toNat < 128 then
        pure (acc ||| ((((UInt8.ofNat v).toNat % 128) <<< shift) % 2 ^ 64))
        else uvarintAt buf k (shift + 7)
          (acc ||| ((((UInt8.ofNat v).toNat % 128) <<< shift) % 2 ^ 64)))
        [] (acc + v * 2 ^ shift) := by
      rw [hb, if_pos hv, Nat.mod_eq_of_lt hv, or_shift hacc hw]
      exact reads_pure
    exact reads_byte.answer hrest
  induction f with
  | zero =>
    intro k v shift acc hv _ hacc hw
    exact last (by simpa using hv) hacc hw
  | succ f ih =>
    intro k v shift acc hv hk hacc hw
    by_cases hlt : v < 128
    · rw [uvarintGo, if_pos hlt]
      exact last hlt hacc hw
    · rw [uvarintGo, if_neg hlt]
      have hb : (UInt8.ofNat (v % 128 + 128)).toNat = v % 128 + 128 := by
        rw [UInt8.toNat_ofNat']
        omega
      have hmod : (v % 128 + 128) % 128 = v % 128 := by omega
      have hlow : v % 128 * 2 ^ shift < 2 ^ 64 :=
        Nat.lt_of_le_of_lt (Nat.mul_le_mul_right _ (Nat.mod_le v 128)) hw
      -- a number of two bytes and more leaves room for the next shift
      obtain ⟨k, rfl⟩ : ∃ j, k = j + 1 := by
        refine ⟨k - 1, ?_⟩
        rcases Nat.eq_zero_or_pos k with rfl | hpos
        · have h63 : shift = 63 := by omega
          subst h63
          omega
        · omega
      have hpow : 2 ^ (shift + 7) = 2 ^ shift * 128 := by rw [Nat.pow_add]
      have hsplit : v / 128 * 2 ^ (shift + 7) + v % 128 * 2 ^ shift = v * 2 ^ shift := by
        calc v / 128 * 2 ^ (shift + 7) + v % 128 * 2 ^ shift
            = (128 * (v / 128) + v % 128) * 2 ^ shift := by rw [hpow]; ring
          _ = v * 2 ^ shift := by rw [Nat.div_add_mod]
      have hnext : acc + v % 128 * 2 ^ shift < 2 ^ (shift + 7) := by
        have hm : v % 128 + 1 ≤ 128 := by omega
        calc acc + v % 128 * 2 ^ shift < 2 ^ shift + v % 128 * 2 ^ shift := by omega
          _ = (v % 128 + 1) * 2 ^ shift := by ring
          _ ≤ 128 * 2 ^ shift := Nat.mul_le_mul_right _ hm
          _ = 2 ^ (shift + 7) := by rw [hpow]; ring
      have hgo := ih (k := k) (v := v / 128) (Nat.div_lt_of_lt_mul (by
        rw [Nat.pow_succ] at hv; omega)) (by omega : shift + 7 + 7 * k = 63) hnext (by omega)
      have hrest : Reads buf (if (UInt8.ofNat (v % 128 + 128)).toNat < 128 then
          pure (acc ||| ((((UInt8.ofNat (v % 128 + 128)).toNat % 128) <<< shift) % 2 ^ 64))
          else uvarintAt buf (k + 1) (shift + 7)
            (acc ||| ((((UInt8.ofNat (v % 128 + 128)).toNat % 128) <<< shift) % 2 ^ 64)))
          (uvarintGo f (v / 128)) (acc + v * 2 ^ shift) := by
        rw [hb, if_neg (by omega), hmod, or_shift hacc hlow, ← hsplit,
          Nat.add_comm (v / 128 * _), ← Nat.add_assoc]
        exact hgo
      exact reads_byte.bind hrest

theorem reads_uvarint {v : Nat} (hv : v < 2 ^ 64) : Reads buf (getUvarint buf) (uvarint v) v := by
  have h : Reads buf (uvarintAt buf (9 + 1) 0 0) (uvarintGo (Nat.log2 v) v) (0 + v * 2 ^ 0) :=
    reads_uvarintGo (lt_pow_log2 v) (by omega) (by omega) (by omega)
  rw [Nat.zero_add, Nat.pow_zero, Nat.mul_one] at h
  exact h

/-- A product that fits is the same in every build. -/
theorem product_of_lt {n k : Nat} (h : n * k < 2 ^ 64) : product o n k = pure (n * k) := by
  cases o with
  | stops => rw [product, if_pos h]
  | wraps => rw [product, Nat.mod_eq_of_lt h]

theorem product_stops {n k : Nat} (h : ¬ n * k < 2 ^ 64) :
    product .stops n k = Act.fail .overflow := by
  rw [product, if_neg h]

theorem reads_product {n k : Nat} (h : n * k < 2 ^ 64) : Reads buf (product o n k) [] (n * k) := by
  rw [product_of_lt h]
  exact reads_pure

theorem reads_withCapacity {t : Tag} {n size : Nat} (h : n * size < 2 ^ 63) :
    Reads buf (withCapacity t n size) [] () := by
  rw [withCapacity, if_pos h]
  exact reads_note.answer reads_pure

end Spans

/-! ## 2. Words -/

theorem fromLe_leBytes (n w : Nat) : fromLe (leBytes n w) = w % 256 ^ n := by
  induction n generalizing w with
  | zero => simp [leBytes, fromLe, Nat.mod_one]
  | succ n ih =>
    have hpow : 256 ^ (n + 1) = 256 * 256 ^ n := Nat.pow_succ'
    rw [leBytes, fromLe, ih, UInt8.toNat_ofNat', hpow, Nat.mod_mul]

theorem ofWord_leBytes {e m n : Nat} (x : Ieee e m) (hn : 2 ^ (1 + e + m) ≤ 256 ^ n) :
    Ieee.ofWord (fromLe (leBytes n x.bits.toNat)) = x := by
  have hx := Nat.lt_of_lt_of_le x.bits.isLt hn
  rw [fromLe_leBytes, Nat.mod_eq_of_lt hx]
  cases x
  simp [Ieee.ofWord]

theorem f64At_leBytes (f : F64) : f64At (leBytes 8 f.bits.toNat) = f := by
  rw [f64At, List.take_of_length_le (by simp)]
  exact ofWord_leBytes f (by norm_num)

section Chunks

variable {α : Type} {k : Nat} {enc : α → List UInt8}

theorem length_flatMap_const (henc : ∀ a, (enc a).length = k) (l : List α) :
    (l.flatMap enc).length = l.length * k := by
  induction l with
  | nil => simp
  | cons a l ih => rw [List.flatMap_cons, List.length_append, henc, ih, List.length_cons]; ring

theorem chunksFrom_flatMap (henc : ∀ a, (enc a).length = k) (l : List α) :
    chunksFrom k l.length (l.flatMap enc) = l.map enc := by
  induction l with
  | nil => rfl
  | cons a l ih =>
    rw [List.length_cons, chunksFrom, List.flatMap_cons, List.map_cons]
    rw [List.take_left' (henc a), List.drop_left' (henc a), ih]

/-- The spans of what was written a span at a time. -/
theorem chunks_flatMap (hk : 0 < k) (henc : ∀ a, (enc a).length = k) (l : List α) :
    chunks k (l.flatMap enc) = l.map enc := by
  rw [chunks, length_flatMap_const henc, Nat.mul_div_cancel _ hk, chunksFrom_flatMap henc]

end Chunks

theorem length_words (v : List F32) : (words v).length = v.length * 4 :=
  length_flatMap_const (fun _ => length_leBytes 4 _) v

theorem f32s_words (v : List F32) : f32s (words v) = v := by
  unfold f32s words
  rw [chunks_flatMap (by omega) (fun _ => length_leBytes 4 _), List.map_map]
  have hid : ((fun w => Ieee.ofWord (fromLe w)) ∘ fun f : F32 => leBytes 4 f.bits.toNat)
      = (id : F32 → F32) := by
    funext f
    exact ofWord_leBytes f (by norm_num)
  rw [hid, List.map_id]

theorem zigzag_lt (i : Int64) : zigzag i < 2 ^ 64 := by
  have hle := Int64.toInt_lt i
  have hge := Int64.le_toInt i
  unfold zigzag
  split <;> omega

theorem unzigzag_zigzag (i : Int64) : unzigzag (zigzag i) = i := by
  have hle := Int64.toInt_lt i
  have hge := Int64.le_toInt i
  apply Int64.toInt_inj.mp
  unfold unzigzag zigzag
  by_cases h0 : 0 ≤ i.toInt
  · have hnum : (((2 * i.toInt.toNat / 2 : Nat)) : Int) = i.toInt := by omega
    rw [if_pos h0, if_pos (by omega), hnum, Int64.ofInt_toInt]
  · have hnum : -(((2 * (-i.toInt).toNat - 1) / 2 : Nat) : Int) - 1 = i.toInt := by omega
    rw [if_neg h0, if_neg (by omega), hnum, Int64.ofInt_toInt]

/-- The gaps a sparse vector's indices are written by. -/
def gapsOf : UInt32 → List (UInt32 × F32) → List Nat
  | _, [] => []
  | last, (i, _) :: rest => (i - last).toNat :: gapsOf i rest

theorem gaps_eq (last : UInt32) (es : List (UInt32 × F32)) :
    gaps last es = (gapsOf last es).flatMap uvarint := by
  induction es generalizing last with
  | nil => rfl
  | cons x es ih => rw [gaps, gapsOf, List.flatMap_cons, ih]

theorem length_gapsOf (last : UInt32) (es : List (UInt32 × F32)) :
    (gapsOf last es).length = es.length := by
  induction es generalizing last with
  | nil => rfl
  | cons x es ih => rw [gapsOf, List.length_cons, ih, List.length_cons]

theorem lt_of_mem_gapsOf {last : UInt32} {es : List (UInt32 × F32)} {g : Nat}
    (h : g ∈ gapsOf last es) : g < 2 ^ 64 := by
  induction es generalizing last with
  | nil => simp [gapsOf] at h
  | cons x es ih =>
    rcases List.mem_cons.mp h with rfl | h
    · exact Nat.lt_trans (UInt32.toNat_lt _) (by norm_num)
    · exact ih h

theorem indices_gapsOf (last : UInt32) (es : List (UInt32 × F32)) :
    indices last (gapsOf last es) = es.map (·.1) := by
  induction es generalizing last with
  | nil => rfl
  | cons x es ih =>
    obtain ⟨i, w⟩ := x
    have hi : last + UInt32.ofNat (i - last).toNat = i := by
      rw [UInt32.ofNat_toNat, UInt32.add_comm, UInt32.sub_add_cancel]
    simp only [gapsOf, indices, hi, List.map_cons, ih]

theorem weigh_map (es : List (UInt32 × F32)) : weigh (es.map (·.1)) (es.map (·.2)) = es := by
  induction es with
  | nil => rfl
  | cons x es ih => simp only [List.map_cons, weigh, ih]

/-! ## 3. Values -/

section Values

variable {o : Overflow} {buf : List UInt8}

theorem encodeItems_eq (vs : List Value) : encodeItems vs = vs.flatMap encodeValue := by
  induction vs with
  | nil => rfl
  | cons v vs ih => rw [encodeItems, ih, List.flatMap_cons, encodeValue]

/-- A member of an object as it is written. -/
def encodeMember (kv : String × Value) : List UInt8 := encodeStr kv.1 ++ encodeValue kv.2

theorem encodeMembers_eq (ms : List (String × Value)) :
    encodeMembers ms = ms.flatMap encodeMember := by
  induction ms with
  | nil => rfl
  | cons kv ms ih =>
    obtain ⟨k, v⟩ := kv
    rw [encodeMembers, ih, List.flatMap_cons, encodeMember, encodeValue, List.append_assoc]

theorem length_le_flatMap {α : Type} {enc : α → List UInt8} (h : ∀ a, 0 < (enc a).length)
    (l : List α) : l.length ≤ (l.flatMap enc).length := by
  induction l with
  | nil => simp
  | cons a l ih =>
    have ha := h a
    rw [List.length_cons, List.flatMap_cons, List.length_append]
    omega

theorem length_encodeValue_pos (v : Value) : 0 < (encodeValue v).length := by
  simp [encodeValue]

theorem length_encodeMember_pos (kv : String × Value) : 0 < (encodeMember kv).length := by
  simp [encodeMember, encodeValue]

theorem length_le_of_mem {α : Type} {f : α → List UInt8} {a : α} {l : List α} (h : a ∈ l) :
    (f a).length ≤ (l.flatMap f).length := by
  obtain ⟨s, t, rfl⟩ := List.append_of_mem h
  simp only [List.flatMap_append, List.flatMap_cons, List.length_append]
  omega

theorem reads_readTag (t : Tag) : Reads buf (readTag buf) [t.byte] t := by
  refine reads_byte.answer ?_
  rw [Tag.of_byte]
  exact reads_pure

theorem reads_decodeStr (hbuf : buf.length < 2 ^ 63) {s : String}
    (hs : (encodeStr s).length < 2 ^ 63) : Reads buf (decodeStr buf) (encodeStr s) s := by
  have hlen : (utf8 s.toList).length < 2 ^ 64 := by
    rw [encodeStr, List.length_append] at hs
    omega
  have hlift : Reads buf (Act.lift (textOf (utf8 s.toList)) : Dec String) [] s := by
    rw [textOf, fromUtf8_utf8]
    exact reads_pure
  exact (reads_uvarint hlen).bind ((reads_take hbuf rfl).answer (reads_note.answer hlift))

/-- A value is read by its tag's branch. -/
theorem reads_tagged {d : Nat} {t : Tag} {bs : List UInt8} {v : Value}
    (h : Reads buf (decodeBody o buf (decodeAt o buf d) t) bs v) :
    Reads buf (decodeAt o buf (d + 1)) (t.byte :: bs) v :=
  (reads_readTag t).bind h

/-- **A value is read back where it was written**, by induction over the depth allowed. -/
theorem reads_value (hbuf : buf.length < 2 ^ 63) {d : Nat} : ∀ v : Value,
    (encodeValue v).length ≤ d → (encodeValue v).length < 2 ^ 63 →
    Reads buf (decodeAt o buf d) (encodeValue v) v := by
  induction d with
  | zero =>
    intro v hd
    exact absurd (length_encodeValue_pos v) (by omega)
  | succ d ih =>
    intro v hd hlt
    cases v with
    | null => exact reads_tagged (t := .null) reads_pure
    | bool b =>
      refine reads_tagged (t := .bool) (reads_byte.answer ?_)
      cases b <;> exact reads_pure
    | int i =>
      refine reads_tagged (t := .int) ((reads_uvarint (zigzag_lt i)).answer ?_)
      rw [unzigzag_zigzag]
      exact reads_pure
    | timestamp i =>
      refine reads_tagged (t := .timestamp) ((reads_uvarint (zigzag_lt i)).answer ?_)
      rw [unzigzag_zigzag]
      exact reads_pure
    | float f =>
      refine reads_tagged (t := .float) ((reads_take hbuf (length_leBytes 8 _)).answer ?_)
      rw [f64At_leBytes]
      exact reads_pure
    | text s =>
      have hs : (encodeStr s).length < 2 ^ 63 := by
        simp only [encodeValue, body, List.length_cons] at hlt
        omega
      exact reads_tagged (t := .text) ((reads_decodeStr hbuf hs).answer reads_pure)
    | bytes b =>
      have hb : b.length < 2 ^ 64 := by
        simp only [encodeValue, body, List.length_cons, List.length_append] at hlt
        omega
      refine reads_tagged (t := .bytes) ((reads_uvarint hb).bind ?_)
      exact (reads_take hbuf rfl).answer (reads_note.answer reads_pure)
    | vector v =>
      have hv : v.length * 4 < 2 ^ 63 := by
        simp only [encodeValue, body, List.length_cons, List.length_append, length_words] at hlt
        omega
      have hcap : (words v).length / 4 * 4 < 2 ^ 63 := by
        rw [length_words]
        omega
      have hbody : Reads buf (do
          withCapacity .vector ((words v).length / 4) 4
          pure (.vector (f32s (words v))) : Dec Value) [] (.vector v) := by
        rw [f32s_words]
        exact (reads_withCapacity hcap).answer reads_pure
      refine reads_tagged (t := .vector) ((reads_uvarint (by omega)).bind ?_)
      exact (reads_product (by omega)).bind ((reads_take hbuf (length_words v)).answer hbody)
    | list items =>
      have hlen : (items.flatMap encodeValue).length < (encodeValue (.list items)).length := by
        simp only [encodeValue, body, encodeItems_eq, List.length_cons, List.length_append]
        omega
      have hn := length_le_flatMap length_encodeValue_pos items
      have hitems : ∀ v ∈ items, Reads buf (decodeAt o buf d) (encodeValue v) v := by
        intro v hv
        have hle := length_le_of_mem (f := encodeValue) hv
        exact ih v (by omega) (by omega)
      refine reads_tagged (t := .list) ((reads_uvarint (by omega)).bind ?_)
      rw [encodeItems_eq]
      exact reads_note.bind ((reads_times hitems).answer reads_pure)
    | object members =>
      have hlen : (members.flatMap encodeMember).length <
          (encodeValue (.object members)).length := by
        simp only [encodeValue, body, encodeMembers_eq, List.length_cons, List.length_append]
        omega
      have hn := length_le_flatMap length_encodeMember_pos members
      have hmembers : ∀ kv ∈ members, Reads buf (do
          let k ← decodeStr buf
          let v ← decodeAt o buf d
          pure (k, v) : Dec (String × Value)) (encodeMember kv) kv := by
        intro kv hkv
        have hle := length_le_of_mem (f := encodeMember) hkv
        rw [encodeMember, List.length_append] at hle
        exact (reads_decodeStr hbuf (by omega)).bind
          ((ih kv.2 (by omega) (by omega)).answer reads_pure)
      refine reads_tagged (t := .object) ((reads_uvarint (by omega)).bind ?_)
      rw [encodeMembers_eq]
      exact reads_note.bind ((reads_times hmembers).answer reads_pure)
    | sparse dim es =>
      have hes : es.length * 4 < 2 ^ 63 := by
        simp only [encodeValue, body, List.length_cons, List.length_append, length_words,
          List.length_map] at hlt
        omega
      have hgaps : Reads buf (times (getUvarint buf) es.length) (gaps 0 es) (gapsOf 0 es) := by
        rw [gaps_eq, ← length_gapsOf 0 es]
        exact reads_times fun g hg => reads_uvarint (lt_of_mem_gapsOf hg)
      have hraw : (words (es.map (·.2))).length = es.length * 4 := by
        rw [length_words, List.length_map]
      have hbody : Reads buf (pure (.sparse (UInt32.ofNat dim.toNat) (weigh
          (indices 0 (gapsOf 0 es)) ((chunks 4 (words (es.map (·.2)))).map fun w =>
            Ieee.ofWord (fromLe w)))) : Dec Value) [] (.sparse dim es) := by
        have hw := f32s_words (es.map (·.2))
        rw [f32s] at hw
        rw [hw, indices_gapsOf, weigh_map, UInt32.ofNat_toNat]
        exact reads_pure
      have hdim : dim.toNat < 2 ^ 64 := Nat.lt_trans (UInt32.toNat_lt dim) (by norm_num)
      refine reads_tagged (t := .sparse) ((reads_uvarint hdim).bind ?_)
      refine (reads_uvarint (by omega)).bind (reads_note.bind (hgaps.bind ?_))
      exact (reads_product (by omega)).bind ((reads_take hbuf hraw).answer hbody)

end Values

/-! ## 4. Skipping -/

section Skipping

variable {o : Overflow} {buf : List UInt8}

theorem follows_byte {text : String} : Follows (byte buf text) (byte buf text) (· = ·) := by
  refine follows_self fun c d a c' hpos h => ?_
  unfold byte at h ⊢
  rw [← hpos]
  split at h
  · cases h
    exact ⟨_, rfl, rfl⟩
  · cases h

theorem follows_take {n : Nat} : Follows (take buf n) (take buf n) (· = ·) := by
  refine follows_self fun c d a c' hpos h => ?_
  unfold take at h ⊢
  rw [← hpos]
  by_cases h64 : 2 ^ 64 ≤ c.pos + n
  · rw [if_pos h64] at h
    cases h
  · rw [if_neg h64] at h ⊢
    by_cases hlen : buf.length < c.pos + n
    · rw [if_pos hlen] at h
      cases h
    · rw [if_neg hlen] at h ⊢
      cases h
      exact ⟨_, rfl, rfl⟩

theorem follows_uvarintAt {k : Nat} : ∀ {shift acc : Nat},
    Follows (uvarintAt buf k shift acc) (uvarintAt buf k shift acc) (· = ·) := by
  induction k with
  | zero =>
    intro shift acc c d a c' _ h
    cases h
  | succ k ih =>
    intro shift acc
    refine follows_byte.bind fun a b hab => ?_
    subst hab
    dsimp only
    split
    · exact follows_pure rfl
    · exact ih

theorem follows_getUvarint : Follows (getUvarint buf) (getUvarint buf) (· = ·) :=
  follows_uvarintAt

theorem follows_product {n k : Nat} : Follows (product o n k) (product o n k) (· = ·) := by
  cases o with
  | stops =>
    by_cases hlt : n * k < 2 ^ 64
    · rw [product_of_lt hlt]
      exact follows_pure rfl
    · rw [product_stops hlt]
      intro c d a c' _ h
      cases h
  | wraps => exact follows_pure rfl

theorem follows_readTag : Follows (readTag buf) (readTag buf) (· = ·) := by
  refine follows_byte.bind fun a b hab => ?_
  subst hab
  cases Tag.of a with
  | none =>
    intro c d a c' _ h
    cases h
  | some t => exact follows_pure rfl

/-- A length read by both, then the same number of bytes. -/
theorem follows_counted {α : Type} {f : List UInt8 → Dec α} {g : Dec Unit}
    (h : ∀ raw, Follows (f raw) g fun _ _ => True) {n : Nat} :
    Follows (do
      let raw ← take buf n
      f raw) (do
      let _ ← take buf n
      g) fun _ _ => True :=
  follows_take.bind fun _ _ _ => h _

theorem still_note {r : Tag × Nat} {c c' : Cursor (Tag × Nat)} {a : Unit}
    (h : (Reader.note r : Dec Unit) c = (.ok a, c')) : c'.pos = c.pos := by
  cases h
  rfl

theorem still_withCapacity {t : Tag} {n size : Nat} {c c' : Cursor (Tag × Nat)} {a : Unit}
    (h : withCapacity t n size c = (.ok a, c')) : c'.pos = c.pos := by
  obtain ⟨_, d, h₁, h₂⟩ := Reader.bind_ok h
  rw [← still_note h₁]
  split at h₂ <;> cases h₂
  rfl

/-- A text read, and one passed over. -/
theorem follows_decodeStr {α : Type} {f : String → Dec α} {g : Dec Unit}
    (h : ∀ s, Follows (f s) g fun _ _ => True) :
    Follows (decodeStr buf >>= f) (do
      let n ← getUvarint buf
      let _ ← take buf n
      g) fun _ _ => True := by
  have hstr : Follows (decodeStr buf) (do
      let n ← getUvarint buf
      take buf n) fun _ _ => True := by
    refine follows_getUvarint.bind fun n n' hn => ?_
    subst hn
    intro c d s c' hpos hs
    obtain ⟨raw, c₁, hraw, hrest⟩ := Reader.bind_ok hs
    obtain ⟨raw', d', htake, hpos', -⟩ := follows_take c d raw c₁ hpos hraw
    obtain ⟨_, c₂, hnote, hlift⟩ := Reader.bind_ok hrest
    obtain ⟨-, hc⟩ := Prod.mk.inj hlift
    refine ⟨raw', d', htake, ?_, trivial⟩
    rw [← hpos', ← still_note hnote, hc]
  intro c d a c' hpos hm
  obtain ⟨s, c₁, hs, hf⟩ := Reader.bind_ok hm
  obtain ⟨raw, d₁, hd, hpos₁, -⟩ := hstr c d s c₁ hpos hs
  obtain ⟨n, d₂, hn, htake⟩ := Reader.bind_ok hd
  obtain ⟨b, d', hg, hpos', -⟩ := h s c₁ d₁ a c' hpos₁ hf
  refine ⟨b, d', ?_, hpos', trivial⟩
  rw [Act.bind_eq, hn]
  dsimp only
  rw [Act.bind_eq, htake]
  exact hg

variable {item : Dec Value} {skip : Dec Unit}

/-- What is answered last is not compared. -/
theorem follows_done {α β : Type} {a : α} {b : β} :
    Follows (pure a : Dec α) (pure b : Dec β) fun _ _ => True := follows_pure trivial

/-- **One tag at a time, the two matches cover the same bytes.** -/
theorem follows_body (hitem : Follows item skip fun _ _ => True) (t : Tag) :
    Follows (decodeBody o buf item t) (skipBody o buf skip t) fun _ _ => True := by
  cases t with
  | null => exact follows_done
  | bool =>
    intro c d a c' hpos h
    obtain ⟨b, c₁, hb, hp⟩ := Reader.bind_ok h
    cases hp
    unfold byte at hb
    split at hb <;> cases hb
    exact ⟨(), _, rfl, by simp [hpos], trivial⟩
  | int => exact follows_getUvarint.bind fun _ _ _ => follows_done
  | timestamp => exact follows_getUvarint.bind fun _ _ _ => follows_done
  | float => exact follows_take.bind fun _ _ _ => follows_done
  | geo => exact follows_take.bind fun _ _ _ => follows_done
  | text => exact follows_decodeStr fun _ => follows_done
  | bytes =>
    refine follows_getUvarint.bind fun n n' hn => ?_
    subst hn
    exact follows_counted fun raw => .still (fun _ _ _ => still_note) fun _ => follows_done
  | vector =>
    refine follows_getUvarint.bind fun n n' hn => ?_
    subst hn
    refine follows_product.bind fun k k' hk => ?_
    subst hk
    exact follows_counted fun raw => .still (fun _ _ _ => still_withCapacity) fun _ => follows_done
  | vectorF16 =>
    refine follows_getUvarint.bind fun n n' hn => ?_
    subst hn
    refine follows_product.bind fun k k' hk => ?_
    subst hk
    exact follows_counted fun raw => .still (fun _ _ _ => still_withCapacity) fun _ => follows_done
  | list =>
    refine follows_getUvarint.bind fun n n' hn => ?_
    subst hn
    refine .still (fun _ _ _ => still_note) fun _ => ?_
    exact (follows_times hitem n).bind fun _ _ _ => follows_done
  | object =>
    refine follows_getUvarint.bind fun n n' hn => ?_
    subst hn
    refine .still (fun _ _ _ => still_note) fun _ => ?_
    refine (follows_times ?_ n).bind fun _ _ _ => follows_done
    -- a key and its value, against a length, a span and a value passed over
    refine follows_decodeStr fun _ c d kv c' hpos h => ?_
    obtain ⟨v, c₁, hv, hp⟩ := Reader.bind_ok h
    cases hp
    exact hitem c d v _ hpos hv
  | sparse =>
    refine follows_getUvarint.bind fun _ _ _ => follows_getUvarint.bind fun n n' hn => ?_
    subst hn
    refine .still (fun _ _ _ => still_note) fun _ => ?_
    refine (follows_times (follows_getUvarint.imp fun _ _ _ => trivial) n).bind fun _ _ _ => ?_
    refine follows_product.bind fun k k' hk => ?_
    subst hk
    exact follows_counted fun raw => follows_done

/-- **Wherever a value is read, skipping it goes exactly as far.** -/
theorem follows_decode (d : Nat) :
    Follows (decodeAt o buf d) (skipAt o buf d) fun _ _ => True := by
  induction d with
  | zero =>
    intro c d a c' _ h
    cases h
  | succ d ih =>
    refine follows_readTag.bind fun t t' ht => ?_
    subst ht
    exact follows_body ih t

end Skipping

/-! ## 5. The codec's contract -/

/-- A point is written in its own sixteen bytes. -/
theorem reads_point {o : Overflow} {buf : List UInt8} (hbuf : buf.length < 2 ^ 63)
    (p : Geo.Point) (d : Nat) :
    Reads buf (decodeAt o buf (d + 1)) (encodeValueAs (Geo.geoValue p) (some .geo))
      (Geo.geoValue p) := by
  obtain ⟨lon, lat⟩ := p
  have hlen : (leBytes 8 lon.bits.toNat ++ leBytes 8 lat.bits.toNat).length = 16 := by simp
  have hlon : f64At (leBytes 8 lon.bits.toNat ++ leBytes 8 lat.bits.toNat) = lon := by
    rw [f64At, List.take_left' (length_leBytes 8 _)]
    exact ofWord_leBytes lon (by norm_num)
  have hlat : f64At ((leBytes 8 lon.bits.toNat ++ leBytes 8 lat.bits.toNat).drop 8) = lat := by
    rw [List.drop_left' (length_leBytes 8 _)]
    exact f64At_leBytes lat
  refine reads_tagged (t := .geo) ((reads_take hbuf hlen).answer ?_)
  rw [geoAt, hlon, hlat]
  exact reads_pure

/-- What a reader reads, read between two other strings. -/
theorem decode_between {o : Overflow} {before bs after : List UInt8} {v : Value}
    (h : Reads (before ++ bs ++ after) (decodeValue o (before ++ bs ++ after)) bs v)
    (log : List (Tag × Nat)) :
    ∃ log', decodeValue o (before ++ bs ++ after) ⟨before.length, log⟩ =
      (.ok v, ⟨(before ++ bs).length, log'⟩) := by
  have hend : (before ++ bs).length = before.length + bs.length := List.length_append
  rw [hend]
  refine h ⟨before.length, log⟩ after ?_ ?_
  · simp only [List.length_append]
    omega
  · rw [List.append_assoc, List.drop_left]

/-- **Decoding undoes encoding, and skipping covers the same distance.** -/
theorem decode_undoes_encode (o : Overflow) (before after : List UInt8) :
    (∀ (v : Value) (log : List (Tag × Nat)),
      (before ++ encodeValue v ++ after).length < 2 ^ 63 →
      (∃ log', decodeValue o (before ++ encodeValue v ++ after) ⟨before.length, log⟩ =
        (.ok v, ⟨(before ++ encodeValue v).length, log'⟩)) ∧
      ∃ log', skipValue o (before ++ encodeValue v ++ after) ⟨before.length, log⟩ =
        (.ok (), ⟨(before ++ encodeValue v).length, log'⟩)) ∧
    (∀ (buf : List UInt8) (c c' : Cursor (Tag × Nat)) (v : Value),
      decodeValue o buf c = (.ok v, c') →
      ∃ d, skipValue o buf c = (.ok (), d) ∧ d.pos = c'.pos) ∧
    ∀ (v w : Value) (log : List (Tag × Nat)), coerce .geo v = .ok w →
      (before ++ encodeValueAs w (some .geo) ++ after).length < 2 ^ 63 →
      ∃ log', decodeValue o (before ++ encodeValueAs w (some .geo) ++ after)
        ⟨before.length, log⟩ =
        (.ok w, ⟨(before ++ encodeValueAs w (some .geo)).length, log'⟩) := by
  refine ⟨fun v log hlen => ?_, fun buf c c' v h => ?_, fun v w log hw hlen => ?_⟩
  · have hle : (encodeValue v).length < 2 ^ 63 := by
      simp only [List.length_append] at hlen
      omega
    have hread := reads_value (o := o) hlen (d := (before ++ encodeValue v ++ after).length + 1) v
      (by simp only [List.length_append]; omega) hle
    obtain ⟨log', hdec⟩ := decode_between hread log
    refine ⟨⟨log', hdec⟩, ?_⟩
    obtain ⟨_, ⟨pos, log''⟩, hskip, hpos, -⟩ := follows_decode _ _ _ _ _ rfl hdec
    cases hpos
    exact ⟨log'', hskip⟩
  · obtain ⟨_, d, hskip, hpos, -⟩ := follows_decode _ _ c _ _ rfl h
    exact ⟨d, hskip, hpos.symm⟩
  · rcases coerce_geo hw with rfl | ⟨p, rfl, -⟩
    · refine decode_between (reads_value hlen .null ?_ ?_) log
      · simp only [List.length_append]
        have : (encodeValue .null).length = (encodeValueAs .null (some .geo)).length := rfl
        omega
      · decide
    · exact decode_between (reads_point hlen p _) log

theorem decode_undoes_encode_between :
    (∃ log', decodeValue .wraps ([9] ++ encodeValue (.list [.int (-3), .sparse 4 []]) ++ [1])
      ⟨1, []⟩ = (.ok (.list [.int (-3), .sparse 4 []]), ⟨8, log'⟩)) ∧
    (∃ d, skipValue .wraps [0] ⟨0, []⟩ = (.ok (), d) ∧ d.pos = 1) ∧
    ∃ log', decodeValue .wraps
      ([9] ++ encodeValueAs (Geo.geoValue (.posZero, .posZero)) (some .geo) ++ [1]) ⟨1, []⟩ =
        (.ok (Geo.geoValue (.posZero, .posZero)), ⟨18, log'⟩) := by
  refine ⟨?_, ?_, ?_⟩
  · exact ((decode_undoes_encode .wraps [9] [1]).1 (.list [.int (-3), .sparse 4 []]) []
      (by decide)).1
  · exact (decode_undoes_encode .wraps [9] [1]).2.1 [0] ⟨0, []⟩ ⟨1, []⟩ .null rfl
  · exact (decode_undoes_encode .wraps [9] [1]).2.2
      (.list [.float .posZero, .float .posZero]) _ [] (by decide +kernel) (by decide)

end Codec

end Fenec
