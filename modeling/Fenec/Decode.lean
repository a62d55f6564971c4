/-
# Reading values back

`decodeValue` reads a value off a buffer and `skipValue` only finds its end: two more hand-written
matches over the tags `encodeValue` writes, and they must not drift, since every field of a
document is found by skipping the ones before it.

A reader's position is a `&mut usize`, moved also by a read that fails.  Lengths come from the
buffer.  Two things may go wrong with them besides a `Corrupt`: the product of a length with its
element's size may overflow a `usize` of 64 bits, where a debug build stops and a release build
goes on with the wrapped product (`Overflow`), and `Vec::with_capacity` stops at a capacity no
allocation has.  What capacities are asked for is noted in the cursor's log.

Nesting is followed by a depth that goes down with each level.  A level takes a byte, its tag, so
one more than the bytes of the buffer is always enough (`decodeAt_deep`).
-/
import Fenec.Codec
import Fenec.Lib.Scan

namespace Fenec

open Lib Reader

namespace Codec

/-! ## 1. Tags, faults and cursors -/

/-- The tags a value starts with. -/
inductive Tag where
  | null
  | bool
  | int
  | float
  | text
  | bytes
  | vector
  | list
  | vectorF16
  | timestamp
  | sparse
  | object
  | geo
deriving DecidableEq

/-- The byte of a tag. -/
def Tag.byte : Tag → UInt8
  | .null => 0
  | .bool => 1
  | .int => 2
  | .float => 3
  | .text => 4
  | .bytes => 5
  | .vector => 6
  | .list => 7
  | .vectorF16 => 8
  | .timestamp => 9
  | .sparse => 10
  | .object => 13
  | .geo => 15

/-- The tag a byte is, none where it is a tag of no value. -/
def Tag.of (b : UInt8) : Option Tag :=
  [Tag.null, .bool, .int, .float, .text, .bytes, .vector, .list, .vectorF16, .timestamp, .sparse,
    .object, .geo].find? fun t => t.byte == b

@[simp] theorem Tag.of_byte (t : Tag) : Tag.of t.byte = some t := by
  cases t <;> rfl

theorem Tag.byte_of {b : UInt8} {t : Tag} (h : Tag.of b = some t) : t.byte = b := by
  have hfound := List.find?_some h
  exact beq_iff_eq.mp hfound

/-- What an arithmetic overflow does: a build with overflow checks stops there, one without goes
on with what is left of the number modulo `2 ^ 64`. -/
inductive Overflow where
  | stops
  | wraps
deriving DecidableEq

/-- Why a read did not answer. -/
inductive Fault where
  /-- `Error::Corrupt` -/
  | corrupt (text : String)
  /-- the panic of an overflowing product -/
  | overflow
  /-- the panic of `Vec::with_capacity` past `isize::MAX` bytes -/
  | capacity
deriving DecidableEq

/-- A read of the buffer, noting each capacity it asks for under the tag it is for. -/
abbrev Dec (α : Type) : Type := Reader Fault (Tag × Nat) α

/-! ## 2. Bytes, lengths and spans -/

section Spans

variable (o : Overflow) (buf : List UInt8)

/-- `buf.get(*pos)`, then one place on. -/
def byte (text : String) : Dec UInt8 := fun c =>
  match buf[c.pos]? with
  | some b => (.ok b, { c with pos := c.pos + 1 })
  | none => (.error (.corrupt text), c)

/-- `get_uvarint` with `k` bytes to go. -/
def uvarintAt : Nat → Nat → Nat → Dec Nat
  | 0, _, _ => Act.fail (.corrupt "varint overflow")
  | k + 1, shift, result => do
    let b ← byte buf "varint ended early"
    let result := result ||| (((b.toNat % 128) <<< shift) % 2 ^ 64)
    if b.toNat < 128 then pure result else uvarintAt k (shift + 7) result

/-- `get_uvarint`: ten bytes at most, the tenth at a shift of 63. -/
def getUvarint : Dec Nat := uvarintAt buf 10 0 0

/-- `take`: the next `n` bytes. -/
def take (n : Nat) : Dec (List UInt8) := fun c =>
  if 2 ^ 64 ≤ c.pos + n then (.error (.corrupt "length overflow"), c)
  else if buf.length < c.pos + n then
    (.error (.corrupt (toString n ++ " bytes requested, " ++ toString (buf.length - c.pos) ++
      " left")), c)
  else (.ok ((buf.drop c.pos).take n), { c with pos := c.pos + n })

/-- `n * k`, both a `usize`. -/
def product (n k : Nat) : Dec Nat := match o with
  | .stops => if n * k < 2 ^ 64 then pure (n * k) else Act.fail .overflow
  | .wraps => pure (n * k % 2 ^ 64)

/-- `Vec::with_capacity(n)`, of elements `size` bytes each. -/
def withCapacity (t : Tag) (n size : Nat) : Dec Unit := do
  Reader.note (t, n)
  if n * size < 2 ^ 63 then pure () else Act.fail .capacity

end Spans

/-- The number some bytes are, the least first. -/
def fromLe : List UInt8 → Nat
  | [] => 0
  | b :: bs => b.toNat + 256 * fromLe bs

/-- The first `n` spans of `k` bytes. -/
def chunksFrom (k : Nat) : Nat → List UInt8 → List (List UInt8)
  | 0, _ => []
  | n + 1, raw => raw.take k :: chunksFrom k n (raw.drop k)

/-- `as_chunks::<k>().0`: the whole spans of `k` bytes. -/
def chunks (k : Nat) (raw : List UInt8) : List (List UInt8) := chunksFrom k (raw.length / k) raw

/-- `f32::from_le_bytes` of each span of four. -/
def f32s (raw : List UInt8) : List F32 := (chunks 4 raw).map fun w => Ieee.ofWord (fromLe w)

/-- `f64::from_le_bytes` of the first eight bytes. -/
def f64At (raw : List UInt8) : F64 := Ieee.ofWord (fromLe (raw.take 8))

/-- `geo_at`: a point's two numbers. -/
def geoAt (raw : List UInt8) : Geo.Point := (f64At raw, f64At (raw.drop 8))

/-- `unzigzag`. -/
def unzigzag (v : Nat) : Int64 :=
  Int64.ofInt (if v % 2 = 0 then ((v / 2 : Nat) : Int) else -((v / 2 : Nat) : Int) - 1)

/-- The indices of a sparse vector from the gaps between them, each cut to a `u32`. -/
def indices : UInt32 → List Nat → List UInt32
  | _, [] => []
  | at_, g :: gs => (at_ + UInt32.ofNat g) :: indices (at_ + UInt32.ofNat g) gs

/-- The entries of a sparse vector: an index no weight is left for keeps a zero. -/
def weigh : List UInt32 → List F32 → List (UInt32 × F32)
  | [], _ => []
  | i :: is, [] => (i, .posZero) :: weigh is []
  | i :: is, w :: ws => (i, w) :: weigh is ws

/-- The text some bytes are. -/
def textOf (raw : List UInt8) : Except Fault String :=
  match fromUtf8 raw with
  | some s => .ok s
  | none => .error (.corrupt "invalid utf8")

/-! ## 3. Values -/

section Values

variable (o : Overflow) (buf : List UInt8)

/-- `decode_str`, which is also a text past its tag. -/
def decodeStr : Dec String := do
  let n ← getUvarint buf
  let raw ← take buf n
  Reader.note (.text, raw.length)
  Act.lift (textOf raw)

/-- **`decode_value` past the tag**, `item` reading the values inside. -/
def decodeBody (item : Dec Value) : Tag → Dec Value
  | .null => pure .null
  | .bool => do
    let b ← byte buf "missing bool"
    pure (.bool (b != 0))
  | .int => do
    let n ← getUvarint buf
    pure (.int (unzigzag n))
  | .timestamp => do
    let n ← getUvarint buf
    pure (.timestamp (unzigzag n))
  | .float => do
    let raw ← take buf 8
    pure (.float (f64At raw))
  | .geo => do
    let raw ← take buf 16
    pure (Geo.geoValue (geoAt raw))
  | .text => do
    let s ← decodeStr buf
    pure (.text s)
  | .bytes => do
    let n ← getUvarint buf
    let raw ← take buf n
    Reader.note (.bytes, raw.length)
    pure (.bytes raw)
  | .vector => do
    let n ← getUvarint buf
    let size ← product o n 4
    let raw ← take buf size
    withCapacity .vector (raw.length / 4) 4
    pure (.vector (f32s raw))
  | .vectorF16 => do
    let n ← getUvarint buf
    let size ← product o n 2
    let raw ← take buf size
    withCapacity .vectorF16 n 4
    pure (.vector ((chunks 2 raw).map fun w => f32FromF16 (fromLe w)))
  | .list => do
    let n ← getUvarint buf
    Reader.note (.list, min n 4096)
    let items ← Reader.times item n
    pure (.list items)
  | .object => do
    let n ← getUvarint buf
    Reader.note (.object, min n 4096)
    let members ← Reader.times (do
      let k ← decodeStr buf
      let v ← item
      pure (k, v)) n
    pure (.object members)
  | .sparse => do
    let dim ← getUvarint buf
    let n ← getUvarint buf
    Reader.note (.sparse, min n 65536)
    let gaps ← Reader.times (getUvarint buf) n
    let size ← product o n 4
    let raw ← take buf size
    pure (.sparse (UInt32.ofNat dim) (weigh (indices 0 gaps)
      ((chunks 4 raw).map fun w => Ieee.ofWord (fromLe w))))

/-- The tag at the cursor. -/
def readTag : Dec Tag := do
  let b ← byte buf "missing value tag"
  Act.lift (match Tag.of b with
    | some t => .ok t
    | none => .error (.corrupt ("unknown value tag " ++ toString b.toNat)))

/-- `decode_value`, `depth` levels deep at most. -/
def decodeAt : Nat → Dec Value
  | 0 => Act.fail (.corrupt "deeper than the buffer is long")
  | depth + 1 => do
    let t ← readTag buf
    decodeBody o buf (decodeAt depth) t

/-- **`decode_value`.** -/
def decodeValue : Dec Value := decodeAt o buf (buf.length + 1)

/-- `skip` past the tag, `item` passing over the values inside. -/
def skipBody (item : Dec Unit) : Tag → Dec Unit
  | .null => pure ()
  -- the one move that looks at no byte
  | .bool => Act.change fun c => { c with pos := c.pos + 1 }
  | .int | .timestamp => do
    let _ ← getUvarint buf
    pure ()
  | .float => do
    let _ ← take buf 8
    pure ()
  | .geo => do
    let _ ← take buf 16
    pure ()
  | .text | .bytes => do
    let n ← getUvarint buf
    let _ ← take buf n
    pure ()
  | .vector => do
    let n ← getUvarint buf
    let size ← product o n 4
    let _ ← take buf size
    pure ()
  | .vectorF16 => do
    let n ← getUvarint buf
    let size ← product o n 2
    let _ ← take buf size
    pure ()
  | .list => do
    let n ← getUvarint buf
    let _ ← Reader.times item n
    pure ()
  | .object => do
    let n ← getUvarint buf
    let _ ← Reader.times (do
      let k ← getUvarint buf
      let _ ← take buf k
      item) n
    pure ()
  | .sparse => do
    let _ ← getUvarint buf
    let n ← getUvarint buf
    let _ ← Reader.times (getUvarint buf) n
    let size ← product o n 4
    let _ ← take buf size
    pure ()

/-- `skip::<false>`, `depth` levels deep at most. -/
def skipAt : Nat → Dec Unit
  | 0 => Act.fail (.corrupt "deeper than the buffer is long")
  | depth + 1 => do
    let t ← readTag buf
    skipBody o buf (skipAt depth) t

/-- **`skip_value`.** -/
def skipValue : Dec Unit := skipAt o buf (buf.length + 1)

/-- `skip_field`: a document that ends before a field holds nothing there to pass over. -/
def skipField : Dec Unit := fun c =>
  match buf[c.pos]? with
  | none => (.ok (), c)
  | some _ => skipValue o buf c

end Values

/-- `encode_value_as`: a field's value written by the field's type. -/
def encodeValueAs (v : Value) : Option DataType → List UInt8
  | some (.vector _ .f16) => match v with
    | .vector vals => Tag.vectorF16.byte :: (uvarint vals.length ++
        vals.flatMap fun f => leBytes 2 (f16FromF32 f))
    | v => encodeValue v
  | some .geo => match v with
    | .list [.float lon, .float lat] =>
      Tag.geo.byte :: (leBytes 8 lon.bits.toNat ++ leBytes 8 lat.bits.toNat)
    | v => encodeValue v
  | _ => encodeValue v

/-! ## 4. Depth

A level of nesting is entered past its tag, so from a place `n` bytes before the end no more than
`n` levels open, and any greater depth reads the same. -/

section Depth

variable {o : Overflow} {buf : List UInt8} {p : Nat}

theorem onward_byte {text : String} : Onward p (byte buf text) (byte buf text) := by
  refine onward_self fun c => ?_
  unfold byte
  split
  · exact Nat.le_succ _
  · exact Nat.le_refl _

theorem onward_take {n : Nat} : Onward p (take buf n) (take buf n) := by
  refine onward_self fun c => ?_
  unfold take
  split
  · exact Nat.le_refl _
  · split
    · exact Nat.le_refl _
    · exact Nat.le_add_right _ _

theorem onward_uvarintAt {k : Nat} : ∀ {shift acc : Nat},
    Onward p (uvarintAt buf k shift acc) (uvarintAt buf k shift acc) := by
  induction k with
  | zero => exact onward_self fun _ => Nat.le_refl _
  | succ k ih =>
    intro shift acc
    refine onward_byte.bind fun b => ?_
    dsimp only
    split
    · exact onward_self fun _ => Nat.le_refl _
    · exact ih

theorem onward_getUvarint : Onward p (getUvarint buf) (getUvarint buf) := onward_uvarintAt

theorem onward_product {n k : Nat} : Onward p (product o n k) (product o n k) := by
  refine onward_self fun c => ?_
  unfold product
  split
  · split <;> exact Nat.le_refl _
  · exact Nat.le_refl _

theorem onward_lift {α : Type} {r : Except Fault α} :
    Onward p (Act.lift r : Dec α) (Act.lift r) := onward_self fun _ => Nat.le_refl _

theorem onward_done {α : Type} {a : α} : Onward p (pure a : Dec α) (pure a) :=
  onward_self fun _ => Nat.le_refl _

theorem onward_note {r : Tag × Nat} : Onward p (Reader.note r : Dec Unit) (Reader.note r) :=
  onward_self fun _ => Nat.le_refl _

theorem onward_withCapacity {t : Tag} {n size : Nat} :
    Onward p (withCapacity t n size) (withCapacity t n size) := by
  refine onward_note.bind fun _ => ?_
  split
  · exact onward_done
  · exact onward_lift

theorem onward_decodeStr : Onward p (decodeStr buf) (decodeStr buf) :=
  onward_getUvarint.bind fun _ => onward_take.bind fun _ => onward_note.bind fun _ => onward_lift

theorem onward_decodeBody {item item' : Dec Value} (h : Onward p item item') (t : Tag) :
    Onward p (decodeBody o buf item t) (decodeBody o buf item' t) := by
  cases t with
  | null => exact onward_done
  | bool => exact onward_byte.bind fun _ => onward_done
  | int => exact onward_getUvarint.bind fun _ => onward_done
  | timestamp => exact onward_getUvarint.bind fun _ => onward_done
  | float => exact onward_take.bind fun _ => onward_done
  | geo => exact onward_take.bind fun _ => onward_done
  | text => exact onward_decodeStr.bind fun _ => onward_done
  | bytes =>
    exact onward_getUvarint.bind fun _ => onward_take.bind fun _ =>
      onward_note.bind fun _ => onward_done
  | vector =>
    exact onward_getUvarint.bind fun _ => onward_product.bind fun _ => onward_take.bind fun _ =>
      onward_withCapacity.bind fun _ => onward_done
  | vectorF16 =>
    exact onward_getUvarint.bind fun _ => onward_product.bind fun _ => onward_take.bind fun _ =>
      onward_withCapacity.bind fun _ => onward_done
  | list =>
    exact onward_getUvarint.bind fun n => onward_note.bind fun _ =>
      (onward_times h n).bind fun _ => onward_done
  | object =>
    exact onward_getUvarint.bind fun n => onward_note.bind fun _ =>
      (onward_times (onward_decodeStr.bind fun _ => h.bind fun _ => onward_done) n).bind
        fun _ => onward_done
  | sparse =>
    exact onward_getUvarint.bind fun _ => onward_getUvarint.bind fun n =>
      onward_note.bind fun _ => (onward_times onward_getUvarint n).bind fun _ =>
        onward_product.bind fun _ => onward_take.bind fun _ => onward_done

theorem onward_decodeAt (d : Nat) : Onward p (decodeAt o buf d) (decodeAt o buf d) := by
  induction d with
  | zero => exact onward_lift
  | succ d ih =>
    exact (onward_byte.bind fun _ => onward_lift).bind fun t => onward_decodeBody ih t

theorem readTag_ok {c c' : Cursor (Tag × Nat)} {t : Tag} (h : readTag buf c = (.ok t, c')) :
    buf[c.pos]? = some t.byte ∧ c' = ⟨c.pos + 1, c.log⟩ := by
  obtain ⟨b, c₁, hb, ht⟩ := Reader.bind_ok h
  obtain ⟨htag, hc⟩ := Prod.mk.inj ht
  unfold byte at hb
  cases hget : buf[c.pos]? with
  | none =>
    rw [hget] at hb
    cases hb
  | some b' =>
    rw [hget] at hb
    cases hb
    cases hof : Tag.of b with
    | none =>
      rw [hof] at htag
      cases htag
    | some t' =>
      rw [hof] at htag
      cases htag
      exact ⟨congrArg some (Tag.byte_of hof).symm, hc.symm⟩

/-- **Any depth past the bytes left reads the same.** -/
theorem decodeAt_deep {d : Nat} : ∀ {c : Cursor (Tag × Nat)}, buf.length ≤ c.pos + d →
    ∀ k, decodeAt o buf (d + 1 + k) c = decodeAt o buf (d + 1) c := by
  induction d with
  | zero =>
    intro c hc k
    rw [Nat.add_right_comm, decodeAt, decodeAt, Act.bind_eq, Act.bind_eq]
    rcases ht : readTag buf c with ⟨e | t, c'⟩
    · rfl
    · have hlt := (List.getElem?_eq_some_iff.mp (readTag_ok ht).1).1
      omega
  | succ d ih =>
    intro c hc k
    rw [Nat.add_right_comm (d + 1), decodeAt, decodeAt, Act.bind_eq, Act.bind_eq]
    rcases ht : readTag buf c with ⟨e | t, c'⟩
    · rfl
    · obtain ⟨-, rfl⟩ := readTag_ok ht
      have hitem : Onward (c.pos + 1) (decodeAt o buf (d + 1 + k)) (decodeAt o buf (d + 1)) := by
        intro c₁ hc₁
        exact ⟨ih (by omega) k, (onward_decodeAt _ c₁ hc₁).2⟩
      exact (onward_decodeBody hitem t _ (Nat.le_refl _)).1

theorem onward_skipBody {item item' : Dec Unit} (h : Onward p item item') (t : Tag) :
    Onward p (skipBody o buf item t) (skipBody o buf item' t) := by
  cases t with
  | null => exact onward_done
  | bool => exact onward_self fun _ => Nat.le_succ _
  | int => exact onward_getUvarint.bind fun _ => onward_done
  | timestamp => exact onward_getUvarint.bind fun _ => onward_done
  | float => exact onward_take.bind fun _ => onward_done
  | geo => exact onward_take.bind fun _ => onward_done
  | text => exact onward_getUvarint.bind fun _ => onward_take.bind fun _ => onward_done
  | bytes => exact onward_getUvarint.bind fun _ => onward_take.bind fun _ => onward_done
  | vector =>
    exact onward_getUvarint.bind fun _ => onward_product.bind fun _ => onward_take.bind fun _ =>
      onward_done
  | vectorF16 =>
    exact onward_getUvarint.bind fun _ => onward_product.bind fun _ => onward_take.bind fun _ =>
      onward_done
  | list => exact onward_getUvarint.bind fun n => (onward_times h n).bind fun _ => onward_done
  | object =>
    exact onward_getUvarint.bind fun n =>
      (onward_times (onward_getUvarint.bind fun _ => onward_take.bind fun _ => h) n).bind
        fun _ => onward_done
  | sparse =>
    exact onward_getUvarint.bind fun _ => onward_getUvarint.bind fun n =>
      (onward_times onward_getUvarint n).bind fun _ =>
        onward_product.bind fun _ => onward_take.bind fun _ => onward_done

theorem onward_skipAt (d : Nat) : Onward p (skipAt o buf d) (skipAt o buf d) := by
  induction d with
  | zero => exact onward_lift
  | succ d ih =>
    exact (onward_byte.bind fun _ => onward_lift).bind fun t => onward_skipBody ih t

/-- The same of passing over. -/
theorem skipAt_deep {d : Nat} : ∀ {c : Cursor (Tag × Nat)}, buf.length ≤ c.pos + d →
    ∀ k, skipAt o buf (d + 1 + k) c = skipAt o buf (d + 1) c := by
  induction d with
  | zero =>
    intro c hc k
    rw [Nat.add_right_comm, skipAt, skipAt, Act.bind_eq, Act.bind_eq]
    rcases ht : readTag buf c with ⟨e | t, c'⟩
    · rfl
    · have hlt := (List.getElem?_eq_some_iff.mp (readTag_ok ht).1).1
      omega
  | succ d ih =>
    intro c hc k
    rw [Nat.add_right_comm (d + 1), skipAt, skipAt, Act.bind_eq, Act.bind_eq]
    rcases ht : readTag buf c with ⟨e | t, c'⟩
    · rfl
    · obtain ⟨-, rfl⟩ := readTag_ok ht
      have hitem : Onward (c.pos + 1) (skipAt o buf (d + 1 + k)) (skipAt o buf (d + 1)) := by
        intro c₁ hc₁
        exact ⟨ih (by omega) k, (onward_skipAt _ c₁ hc₁).2⟩
      exact (onward_skipBody hitem t _ (Nat.le_refl _)).1

end Depth

end Codec

end Fenec
