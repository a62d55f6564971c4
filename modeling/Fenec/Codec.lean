/-
# How a value is written

`encodeValue` writes a value as a tag and a body, lengths as variable-length integers.  The
engine uses these bytes twice: as what a document stores, and as the key a value is filed under
in a hash index.  For the second use it matters that no two values are written alike, and more:
that no value's bytes start another's, so that a list of values is told apart from its own
continuations.  That is `encodeValue_append_inj`, by induction over the value.
-/
import Fenec.Coerce

namespace Fenec

open Lib

namespace Codec

/-! ## 1. Words and lengths -/

/-- The low `n` bytes of a word, least first. -/
def leBytes : Nat → Nat → List UInt8
  | 0, _ => []
  | n + 1, w => UInt8.ofNat w :: leBytes n (w / 256)

@[simp] theorem length_leBytes (n w : Nat) : (leBytes n w).length = n := by
  induction n generalizing w with
  | zero => rfl
  | succ n ih => simp [leBytes, ih]

theorem leBytes_inj {n v w : Nat} (hv : v < 256 ^ n) (hw : w < 256 ^ n)
    (h : leBytes n v = leBytes n w) : v = w := by
  induction n generalizing v w with
  | zero => simp at hv hw; omega
  | succ n ih =>
    rw [leBytes, leBytes, List.cons.injEq] at h
    have hlow : v % 256 = w % 256 := by
      have := congrArg UInt8.toNat h.1
      simpa using this
    have hhigh : v / 256 = w / 256 := by
      apply ih _ _ h.2
      · rw [Nat.pow_succ] at hv; exact Nat.div_lt_of_lt_mul (by omega)
      · rw [Nat.pow_succ] at hw; exact Nat.div_lt_of_lt_mul (by omega)
    omega

/-- `put_uvarint` with room for `fuel` more bytes. -/
def uvarintGo : Nat → Nat → List UInt8
  | 0, v => [UInt8.ofNat v]
  | fuel + 1, v =>
    if v < 128 then [UInt8.ofNat v]
    else UInt8.ofNat (v % 128 + 128) :: uvarintGo fuel (v / 128)

/-- `put_uvarint`: seven bits a byte, the low ones first, the top bit set on all but the
last. -/
def uvarint (v : Nat) : List UInt8 := uvarintGo (Nat.log2 v) v

theorem uvarintGo_inj {f f' v v' : Nat} {r r' : List UInt8} (hf : v < 128 ^ (f + 1))
    (hf' : v' < 128 ^ (f' + 1)) (h : uvarintGo f v ++ r = uvarintGo f' v' ++ r') :
    v = v' ∧ r = r' := by
  -- a last byte is below 128 and any other is not, so both ends come at the same place
  have single : ∀ {v v' : Nat}, v < 128 → v' < 128 →
      UInt8.ofNat v = UInt8.ofNat v' → v = v' := by
    intro v v' hv hv' h
    have := congrArg UInt8.toNat h
    simp only [UInt8.toNat_ofNat'] at this
    omega
  have last_ne : ∀ {v v' : Nat}, v < 128 → UInt8.ofNat v ≠ UInt8.ofNat (v' % 128 + 128) := by
    intro v v' hv h
    have := congrArg UInt8.toNat h
    simp only [UInt8.toNat_ofNat'] at this
    omega
  have more : ∀ {v v' : Nat}, UInt8.ofNat (v % 128 + 128) = UInt8.ofNat (v' % 128 + 128) →
      v % 128 = v' % 128 := by
    intro v v' h
    have := congrArg UInt8.toNat h
    simp only [UInt8.toNat_ofNat'] at this
    omega
  have shrink : ∀ {f v : Nat}, v < 128 ^ (f + 1 + 1) → v / 128 < 128 ^ (f + 1) := by
    intro f v hv
    exact Nat.div_lt_of_lt_mul (by rw [Nat.pow_succ] at hv; omega)
  -- the bytes of a number that ends here, and of one that goes on
  have ends : ∀ (f v : Nat), v < 128 → uvarintGo f v = [UInt8.ofNat v] := by
    intro f v hv
    cases f <;> simp [uvarintGo, hv]
  induction f generalizing f' v v' with
  | zero =>
    have hv : v < 128 := by simpa using hf
    rw [ends 0 v hv] at h
    by_cases hv' : v' < 128
    · rw [ends f' v' hv'] at h
      simp only [List.singleton_append, List.cons.injEq] at h
      exact ⟨single hv hv' h.1, h.2⟩
    · cases f' with
      | zero => exact absurd (by simpa using hf') hv'
      | succ f' =>
        rw [uvarintGo, if_neg hv'] at h
        simp only [List.cons_append, List.cons.injEq] at h
        exact absurd h.1 (last_ne hv)
  | succ f ih =>
    by_cases hv : v < 128
    · rw [ends _ v hv] at h
      by_cases hv' : v' < 128
      · rw [ends f' v' hv'] at h
        simp only [List.singleton_append, List.cons.injEq] at h
        exact ⟨single hv hv' h.1, h.2⟩
      · cases f' with
        | zero => exact absurd (by simpa using hf') hv'
        | succ f' =>
          rw [uvarintGo, if_neg hv'] at h
          simp only [List.cons_append, List.cons.injEq] at h
          exact absurd h.1 (last_ne hv)
    · rw [uvarintGo, if_neg hv] at h
      by_cases hv' : v' < 128
      · rw [ends f' v' hv'] at h
        simp only [List.cons_append, List.cons.injEq] at h
        exact absurd h.1.symm (last_ne hv')
      · cases f' with
        | zero => exact absurd (by simpa using hf') hv'
        | succ f' =>
          rw [uvarintGo, if_neg hv'] at h
          simp only [List.cons_append, List.cons.injEq] at h
          obtain ⟨hq, hr⟩ := ih (shrink hf) (shrink hf') h.2
          have hm := more h.1
          exact ⟨by omega, hr⟩

theorem lt_pow_log2 (v : Nat) : v < 128 ^ (Nat.log2 v + 1) := by
  calc v < 2 ^ (Nat.log2 v + 1) := Nat.lt_log2_self
    _ ≤ 128 ^ (Nat.log2 v + 1) := Nat.pow_le_pow_left (by omega) _

/-- **A length is told apart from any other by its own bytes.** -/
theorem uvarint_append_inj {v v' : Nat} {r r' : List UInt8}
    (h : uvarint v ++ r = uvarint v' ++ r') : v = v' ∧ r = r' :=
  uvarintGo_inj (lt_pow_log2 v) (lt_pow_log2 v') h

/-- `zigzag`: `(v << 1) ^ (v >> 63)`, twice a number from zero up and one less than twice a
negative one's size. -/
def zigzag (v : Int64) : Nat :=
  if 0 ≤ v.toInt then 2 * v.toInt.toNat else 2 * (-v.toInt).toNat - 1

theorem zigzag_inj {a b : Int64} (h : zigzag a = zigzag b) : a = b := by
  apply Int64.toInt_inj.mp
  unfold zigzag at h
  split at h <;> split at h <;> omega

/-! ## 2. Values -/

/-- The tag a value's bytes start with. -/
def tag : Value → UInt8
  | .null => 0
  | .bool _ => 1
  | .int _ => 2
  | .float _ => 3
  | .text _ => 4
  | .bytes _ => 5
  | .vector _ => 6
  | .list _ => 7
  | .timestamp _ => 9
  | .sparse _ _ => 10
  | .object _ => 13

/-- `encode_str`: a length in bytes, then the bytes. -/
def encodeStr (s : String) : List UInt8 :=
  uvarint (utf8 s.toList).length ++ utf8 s.toList

/-- The gaps between a sparse vector's indices, each a `u32` that wraps. -/
def gaps : UInt32 → List (UInt32 × F32) → List UInt8
  | _, [] => []
  | last, (i, _) :: rest => uvarint (i - last).toNat ++ gaps i rest

/-- The words of a list of `f32`s. -/
def words (v : List F32) : List UInt8 := v.flatMap fun f => leBytes 4 f.bits.toNat

mutual

/-- **`encode_value`**, past the tag. -/
def body : Value → List UInt8
  | .null => []
  | .bool b => [if b then 1 else 0]
  | .int i => uvarint (zigzag i)
  | .timestamp ms => uvarint (zigzag ms)
  | .float f => leBytes 8 f.bits.toNat
  | .text s => encodeStr s
  | .bytes b => uvarint b.length ++ b
  | .vector v => uvarint v.length ++ words v
  | .list items => uvarint items.length ++ encodeItems items
  | .object members => uvarint members.length ++ encodeMembers members
  | .sparse dim entries =>
    uvarint dim.toNat ++ (uvarint entries.length ++
      (gaps 0 entries ++ words (entries.map (·.2))))
termination_by structural v => v

/-- The items of a list, one after another. -/
def encodeItems : List Value → List UInt8
  | [] => []
  | v :: vs => (tag v :: body v) ++ encodeItems vs
termination_by structural l => l

/-- The members of an object, key before value. -/
def encodeMembers : List (String × Value) → List UInt8
  | [] => []
  | (k, v) :: ms => encodeStr k ++ ((tag v :: body v) ++ encodeMembers ms)
termination_by structural l => l

end

/-- `encode_value`. -/
def encodeValue (v : Value) : List UInt8 := tag v :: body v

/-! ## 3. No two values are written alike -/

theorem counted_append_inj {b b' r r' : List UInt8}
    (h : uvarint b.length ++ b ++ r = uvarint b'.length ++ b' ++ r') : b = b' ∧ r = r' := by
  rw [List.append_assoc, List.append_assoc] at h
  obtain ⟨hl, h⟩ := uvarint_append_inj h
  exact List.append_inj h hl

theorem encodeStr_append_inj {s s' : String} {r r' : List UInt8}
    (h : encodeStr s ++ r = encodeStr s' ++ r') : s = s' ∧ r = r' := by
  obtain ⟨hb, hr⟩ := counted_append_inj h
  exact ⟨String.toList_inj.mp (utf8_injective hb), hr⟩

theorem leBytes_append_inj {e m n : Nat} {x y : Ieee e m} {r r' : List UInt8}
    (hn : 2 ^ (1 + e + m) ≤ 256 ^ n)
    (h : leBytes n x.bits.toNat ++ r = leBytes n y.bits.toNat ++ r') : x = y ∧ r = r' := by
  obtain ⟨hb, hr⟩ := List.append_inj h (by simp)
  have hx := Nat.lt_of_lt_of_le x.bits.isLt hn
  have hy := Nat.lt_of_lt_of_le y.bits.isLt hn
  have hbits : x.bits = y.bits := BitVec.eq_of_toNat_eq (leBytes_inj hx hy hb)
  refine ⟨?_, hr⟩
  cases x; cases y; cases hbits; rfl

theorem words_append_inj {v w : List F32} {r r' : List UInt8} (hl : v.length = w.length)
    (h : words v ++ r = words w ++ r') : v = w ∧ r = r' := by
  induction v generalizing w with
  | nil =>
    cases w with
    | nil => exact ⟨rfl, h⟩
    | cons _ _ => simp at hl
  | cons x v ih =>
    cases w with
    | nil => simp at hl
    | cons y w =>
      simp only [words, List.flatMap_cons, List.append_assoc] at h
      obtain ⟨hxy, h⟩ := leBytes_append_inj (by norm_num) h
      obtain ⟨hvw, hr⟩ := ih (by simpa using hl) h
      exact ⟨by rw [hxy, hvw], hr⟩

theorem gaps_append_inj {last : UInt32} {a b : List (UInt32 × F32)} {r r' : List UInt8}
    (hl : a.length = b.length) (h : gaps last a ++ r = gaps last b ++ r') :
    a.map (·.1) = b.map (·.1) ∧ r = r' := by
  induction a generalizing b last with
  | nil =>
    cases b with
    | nil => exact ⟨rfl, h⟩
    | cons _ _ => simp at hl
  | cons x a ih =>
    cases b with
    | nil => simp at hl
    | cons y b =>
      obtain ⟨i, f⟩ := x
      obtain ⟨j, g⟩ := y
      simp only [gaps, List.append_assoc] at h
      obtain ⟨hij, h⟩ := uvarint_append_inj h
      have hsub : i = j := by
        have := UInt32.toNat_inj.mp hij
        simpa using this
      subst hsub
      obtain ⟨hab, hr⟩ := ih (by simpa using hl) h
      exact ⟨by simp [hab], hr⟩

mutual

/-- **No value's bytes start another's.** -/
theorem body_append_inj : ∀ (v w : Value) {r r' : List UInt8}, tag v = tag w →
    body v ++ r = body w ++ r' → v = w ∧ r = r'
  | .null, w, r, r', ht, h => by
    cases w with
    | null => exact ⟨rfl, by simpa [body] using h⟩
    | _ => simp [tag] at ht
  | .bool a, w, r, r', ht, h => by
    cases w with
    | bool b =>
      simp only [body, List.singleton_append, List.cons.injEq] at h
      refine ⟨?_, h.2⟩
      cases a <;> cases b <;> simp_all
    | _ => simp [tag] at ht
  | .int a, w, r, r', ht, h => by
    cases w with
    | int b =>
      obtain ⟨hz, hr⟩ := uvarint_append_inj (by simpa only [body] using h)
      exact ⟨by rw [zigzag_inj hz], hr⟩
    | _ => simp [tag] at ht
  | .timestamp a, w, r, r', ht, h => by
    cases w with
    | timestamp b =>
      obtain ⟨hz, hr⟩ := uvarint_append_inj (by simpa only [body] using h)
      exact ⟨by rw [zigzag_inj hz], hr⟩
    | _ => simp [tag] at ht
  | .float a, w, r, r', ht, h => by
    cases w with
    | float b =>
      simp only [body] at h
      obtain ⟨hf, hr⟩ := leBytes_append_inj (by norm_num) h
      exact ⟨by rw [hf], hr⟩
    | _ => simp [tag] at ht
  | .text a, w, r, r', ht, h => by
    cases w with
    | text b =>
      obtain ⟨hs, hr⟩ := encodeStr_append_inj (by simpa only [body] using h)
      exact ⟨by rw [hs], hr⟩
    | _ => simp [tag] at ht
  | .bytes a, w, r, r', ht, h => by
    cases w with
    | bytes b =>
      obtain ⟨hb, hr⟩ := counted_append_inj (by simpa only [body] using h)
      exact ⟨by rw [hb], hr⟩
    | _ => simp [tag] at ht
  | .vector a, w, r, r', ht, h => by
    cases w with
    | vector b =>
      simp only [body, List.append_assoc] at h
      obtain ⟨hl, h⟩ := uvarint_append_inj h
      obtain ⟨hv, hr⟩ := words_append_inj hl h
      exact ⟨by rw [hv], hr⟩
    | _ => simp [tag] at ht
  | .list a, w, r, r', ht, h => by
    cases w with
    | list b =>
      simp only [body, List.append_assoc] at h
      obtain ⟨hl, h⟩ := uvarint_append_inj h
      obtain ⟨hv, hr⟩ := encodeItems_append_inj a b hl h
      exact ⟨by rw [hv], hr⟩
    | _ => simp [tag] at ht
  | .object a, w, r, r', ht, h => by
    cases w with
    | object b =>
      simp only [body, List.append_assoc] at h
      obtain ⟨hl, h⟩ := uvarint_append_inj h
      obtain ⟨hv, hr⟩ := encodeMembers_append_inj a b hl h
      exact ⟨by rw [hv], hr⟩
    | _ => simp [tag] at ht
  | .sparse d a, w, r, r', ht, h => by
    cases w with
    | sparse d' b =>
      simp only [body, List.append_assoc] at h
      obtain ⟨hd, h⟩ := uvarint_append_inj h
      obtain ⟨hl, h⟩ := uvarint_append_inj h
      obtain ⟨hi, h⟩ := gaps_append_inj hl h
      obtain ⟨hf, hr⟩ := words_append_inj (by simpa using hl) h
      have hab : a = b := by
        rw [← List.zip_unzip a, ← List.zip_unzip b, List.unzip_eq_map, List.unzip_eq_map,
          hi, hf]
      exact ⟨by rw [UInt32.toNat_inj.mp hd, hab], hr⟩
    | _ => simp [tag] at ht

theorem encodeItems_append_inj : ∀ (a b : List Value) {r r' : List UInt8},
    a.length = b.length → encodeItems a ++ r = encodeItems b ++ r' → a = b ∧ r = r'
  | [], b, r, r', hl, h => by
    cases b with
    | nil => exact ⟨rfl, h⟩
    | cons _ _ => simp at hl
  | x :: xs, b, r, r', hl, h => by
    cases b with
    | nil => simp at hl
    | cons y ys =>
      simp only [encodeItems, List.cons_append, List.append_assoc, List.cons.injEq] at h
      obtain ⟨hxy, h⟩ := body_append_inj x y h.1 h.2
      obtain ⟨hv, hr⟩ := encodeItems_append_inj xs ys (by simpa using hl) h
      exact ⟨by rw [hxy, hv], hr⟩

theorem encodeMembers_append_inj : ∀ (a b : List (String × Value)) {r r' : List UInt8},
    a.length = b.length → encodeMembers a ++ r = encodeMembers b ++ r' → a = b ∧ r = r'
  | [], b, r, r', hl, h => by
    cases b with
    | nil => exact ⟨rfl, h⟩
    | cons _ _ => simp at hl
  | (k, x) :: xs, b, r, r', hl, h => by
    cases b with
    | nil => simp at hl
    | cons y ys =>
      obtain ⟨k', y⟩ := y
      simp only [encodeMembers, List.cons_append, List.append_assoc] at h
      obtain ⟨hk, h⟩ := encodeStr_append_inj h
      simp only [List.cons.injEq] at h
      obtain ⟨hxy, h⟩ := body_append_inj x y h.1 h.2
      obtain ⟨hv, hr⟩ := encodeMembers_append_inj xs ys (by simpa using hl) h
      exact ⟨by rw [hk, hxy, hv], hr⟩

end

/-- **The bytes of a value name it.** -/
theorem encodeValue_inj {v w : Value} (h : encodeValue v = encodeValue w) : v = w := by
  simp only [encodeValue, List.cons.injEq] at h
  have hbody : body v ++ [] = body w ++ [] := by simpa using h.2
  exact (body_append_inj v w h.1 hbody).1

/-! ## 4. What a record keeps of a value

A field's value is written under the field's type, which changes one thing: the elements of a
`vector<N, f16>` are halved, so such a vector reads back rounded. -/

/-- `f16_from_f32`: the halved word of an `f32`, ties to even. -/
def f16FromF32 (v : F32) : Nat :=
  let x := v.bits.toNat
  let sign := (x >>> 16) &&& 0x8000
  let rawExp := (x >>> 23) &&& 0xff
  let mant := x &&& 0x7fffff
  let up (rem half h : Nat) : Nat := if rem > half ∨ rem = half ∧ h % 2 = 1 then h + 1 else h
  if rawExp = 0xff then sign ||| 0x7c00 ||| (if mant ≠ 0 then 0x0200 else 0)
  -- the exponent is rebased by 127 - 15 = 112; below 102 nothing of the number is left
  else if rawExp ≥ 112 + 0x1f then sign ||| 0x7c00
  else if rawExp ≤ 112 then
    if rawExp < 102 then sign
    else
      let m := mant ||| 0x800000
      let shift := 126 - rawExp
      sign ||| up (m &&& ((1 <<< shift) - 1)) (1 <<< (shift - 1)) (m >>> shift)
  else sign ||| up (mant &&& 0x1fff) 0x1000 (((rawExp - 112) <<< 10) ||| (mant >>> 13))

/-- `f32_from_f16`: the `f32` of a halved word. -/
def f32FromF16 (h : Nat) : F32 :=
  let sign := (h &&& 0x8000) <<< 16
  let exp := (h >>> 10) &&& 0x1f
  let mant := h &&& 0x3ff
  Ieee.ofWord (if exp = 0 then
    if mant = 0 then sign
    else
      let msb := Nat.log2 mant
      sign ||| ((msb + 103) <<< 23) ||| ((mant <<< (23 - msb)) &&& 0x7fffff)
  else if exp = 0x1f then sign ||| 0x7f800000 ||| (mant <<< 13)
  else sign ||| ((exp + 112) <<< 23) ||| (mant <<< 13))

/-- An element as a halved vector keeps it. -/
def halved (v : F32) : F32 := f32FromF16 (f16FromF32 v)

/-- `encode_value_as` read back: what a record keeps of a field's value. -/
def kept : DataType → Value → Value
  | .vector _ .f16, .vector v => .vector (v.map halved)
  | _, v => v

/-- Nothing but a halved vector is changed. -/
theorem kept_of_ne {ty : DataType} {v : Value} (h : ∀ d, ty ≠ .vector d .f16) :
    kept ty v = v := by
  unfold kept
  split
  · exact absurd rfl (h _)
  · rfl

end Codec

end Fenec
