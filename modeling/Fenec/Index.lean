/-
# The indexes of a collection

Four kinds of index over a field, a path or several of them:

* `HashIndex`, `@hash` and `@unique`: the rows holding a value, by the value's filing key.  Whole
  floats are filed as the integers they equal and `-0.0` as `0.0`; a `nocase` text by its fold;
* `SortedIndex`, `@sorted`: the rows in order of the field, those with no place in the order (a
  null, a NaN, a json value that is neither number nor text) held apart;
* `SparseIndex`, `@inverted`: the rows by each index of a sparse vector they hold;
* `CompositeIndex`: the rows in order of several fields, under one key of bytes that compares as
  the fields do one after another.

An ordered container is a list in the order of its entries; the source keeps the same entries in
chunks and finds one by binary search.
-/
import Fenec.Lib.Filing
import Fenec.Codec
import Fenec.Query
import Fenec.Schema
import Mathlib.Data.Finset.Sort

namespace Fenec

open Lib Case

/-! ## 1. Filing keys -/

/-- The bytes a value is filed under. -/
abbrev Key := List UInt8

/-- `EXACT_INT`: 2^53, the last float whose neighbours are its integers'. -/
def exactInt : F64 := Ieee.ofWord 0x4340000000000000

/-- `hash_key`. -/
def hashKey : Value → Key
  | .float f =>
    if f.isWhole && f.abs.le exactInt then Codec.encodeValue (.int f.toInt64)
    else Codec.encodeValue (.float (f.add Ieee.posZero))
  | v => Codec.encodeValue v

/-- `same`: values filed under one key, by which a writer calls a field unchanged. -/
def same (a b : Option Value) : Bool :=
  match a, b with
  | none, none => true
  | some a, some b => hashKey a == hashKey b
  | _, _ => false

section

variable (B : Build)

/-- `encode_folded` of a text: its fold as a text is written, an ascii text's by its bytes. -/
def encodeFolded (f : CaseFold) (t : String) : Key :=
  if f = .unicode ∧ t.toList.all isAscii then
    Codec.tag (.text t) :: (Codec.uvarint (utf8 t.toList).length ++ (utf8 t.toList).map byteLower)
  else Codec.tag (.text t) :: Codec.encodeStr (Case.fold B.chars f t)

/-- `folded_key`: the key of a value in an index that folds its texts. -/
def foldedKey (v : Value) (fold : Option CaseFold) : Key :=
  match v, fold with
  | .text t, some f => encodeFolded B f t
  | v, _ => hashKey v

end

/-! ## 2. Hash indexes -/

/-- `HashIndex`: which rows are filed under which keys. -/
structure HashIndex where
  fold : Option CaseFold
  entries : Finset (Key × DocId)
deriving DecidableEq

namespace HashIndex

/-- `HashIndex::folding`. -/
def folding (fold : Option CaseFold) : HashIndex := ⟨fold, ∅⟩

/-- `HashIndex::key`. -/
def key (B : Build) (ix : HashIndex) (v : Value) : Key := foldedKey B v ix.fold

/-- `HashIndex::add`. -/
def add (ix : HashIndex) (k : Key) (id : DocId) : HashIndex :=
  { ix with entries := insert (k, id) ix.entries }

/-- `HashIndex::remove`. -/
def remove (ix : HashIndex) (k : Key) (id : DocId) : HashIndex :=
  { ix with entries := ix.entries.erase (k, id) }

/-- `HashIndex::get`: the rows under a key, ascending. -/
def get (ix : HashIndex) (k : Key) : List DocId :=
  ((ix.entries.filter fun e => e.1 = k).image (·.2)).sort (· ≤ ·)

theorem mem_get {ix : HashIndex} {k : Key} {id : DocId} : id ∈ ix.get k ↔ (k, id) ∈ ix.entries := by
  simp [get]

end HashIndex

/-! ## 3. Ordered indexes -/

/-- `int_key`: an integer as a word that orders as it does. -/
def intKey (i : Int64) : Nat := (i.toInt + 2 ^ 63).toNat

/-- `float_key`: a float as a word that orders as it does, both zeros one. -/
def floatKey (f : F64) : Nat :=
  let f := if f.mag = 0 then Ieee.posZero else f
  if f.neg then 2 ^ 64 - 1 - f.bits.toNat else f.bits.toNat + 2 ^ 63

/-- `sorted::Slot`: where an ordered index files a value, under a key or apart. -/
inductive KeySlot (κ : Type) where
  | key (k : κ)
  | null
  | nan
deriving DecidableEq

/-- `num_slot`. -/
def numSlot : Option Value → KeySlot Nat
  | some (.int i) => .key (intKey i)
  | some (.timestamp i) => .key (intKey i)
  | some (.float f) => if f.isNaN then .nan else .key (floatKey f)
  | _ => .null

/-- `text_slot`. -/
def textSlot (B : Build) (v : Option Value) (fold : Option CaseFold) : KeySlot String :=
  match v, fold with
  | some (.text t), none => .key t
  | some (.text t), some f => .key (Case.fold B.chars f t)
  | _, _ => .null

/-- `JsonSlot`. -/
inductive JsonSlot where
  | num (k : Nat)
  | text (t : String)
  | null
  | apart
deriving DecidableEq

/-- Whether an integer is up to `EXACT_INT`, so that a float holds it exactly. -/
def exactAsFloat (i : Int64) : Bool := decide (i.toInt.natAbs ≤ 2 ^ 53)

/-- `json_slot`: an integer a float does not hold exactly is held apart. -/
def jsonSlot : Option Value → JsonSlot
  | none => .null
  | some .null => .null
  | some (.int i) => if exactAsFloat i then .num (floatKey (Ieee.ofInt i.toInt)) else .apart
  | some (.float f) => if f.isNaN then .apart else .num (floatKey f)
  | some (.text t) => .text t
  | some _ => .apart

/-- The order of entries: by key, then by row. -/
def entryOrder {κ : Type} (cmp : κ → κ → Ordering) (a b : κ × DocId) : Ordering :=
  (cmp a.1 b.1).then (compare a.2 b.2)

/-- The order of an index's texts: the collation's, or their bytes'. -/
def textOrder (B : Build) (coll : Option Collation) (a b : String) : Ordering :=
  match coll with
  | some c => c.compare B.collation a b
  | none => cmpStr a b

/-- The key of a slot, if it is one. -/
def KeySlot.key? {κ : Type} : KeySlot κ → Option κ
  | .key k => some k
  | _ => none

/-- Rows held apart are filed under one word each. -/
def KeySlot.only {κ : Type} [DecidableEq κ] (s at_ : KeySlot κ) (zero : κ) : Option κ :=
  if s = at_ then some zero else none

/-- The number a json slot is. -/
def JsonSlot.num? : JsonSlot → Option Nat
  | .num k => some k
  | _ => none

/-- The text a json slot is. -/
def JsonSlot.text? : JsonSlot → Option String
  | .text t => some t
  | _ => none

/-- Rows held apart are filed under zero. -/
def JsonSlot.only (s at_ : JsonSlot) : Option Nat := if s = at_ then some 0 else none

/-- `Ordered`: the entries in order, and the rows that have no place in it. -/
structure Ordered (κ : Type) where
  keys : List (κ × DocId)
  nulls : List (κ × DocId)
  nans : List (κ × DocId)
deriving DecidableEq

/-- `JsonOrdered`: numbers before texts, and what is neither. -/
structure JsonOrdered where
  num : List (Nat × DocId)
  text : List (String × DocId)
  nulls : List (Nat × DocId)
  apart : List (Nat × DocId)
deriving DecidableEq

/-- `SortedIndex`. -/
inductive SortedIndex where
  | num (o : Ordered Nat)
  | text (order : TextOrder) (o : Ordered String)
  | json (j : JsonOrdered)
deriving DecidableEq

namespace SortedIndex

/-- `SortedIndex::new`. -/
def new (ty : DataType) (order : TextOrder) : SortedIndex :=
  match ty with
  | .text => .text order ⟨[], [], []⟩
  | .json => .json ⟨[], [], [], []⟩
  | _ => .num ⟨[], [], []⟩

variable (B : Build)

/-- The order of a numeric index's entries. -/
def numOrder : Nat × DocId → Nat × DocId → Ordering := entryOrder compare

/-- The order of a text index's entries. -/
def strOrder (coll : Option Collation) : String × DocId → String × DocId → Ordering :=
  entryOrder (textOrder B coll)

/-- `SortedIndex::insert`. -/
def insert (ix : SortedIndex) (id : DocId) (v : Option Value) : SortedIndex :=
  match ix with
  | .json j => match jsonSlot v with
    | .num k => .json { j with num := Entries.insert numOrder (k, id) j.num }
    | .text k => .json { j with text := Entries.insert (strOrder B none) (k, id) j.text }
    | .null => .json { j with nulls := Entries.insert numOrder (0, id) j.nulls }
    | .apart => .json { j with apart := Entries.insert numOrder (0, id) j.apart }
  | .num o => match numSlot v with
    | .key k => .num { o with keys := Entries.insert numOrder (k, id) o.keys }
    | .null => .num { o with nulls := Entries.insert numOrder (0, id) o.nulls }
    | .nan => .num { o with nans := Entries.insert numOrder (0, id) o.nans }
  | .text order o => match textSlot B v order.fold with
    | .key k => .text order { o with keys := Entries.insert (strOrder B order.coll) (k, id) o.keys }
    | _ => .text order { o with nulls := Entries.insert (strOrder B none) ("", id) o.nulls }

/-- `SortedIndex::remove`. -/
def remove (ix : SortedIndex) (id : DocId) (v : Option Value) : SortedIndex :=
  match ix with
  | .json j => match jsonSlot v with
    | .num k => .json { j with num := Entries.remove numOrder (k, id) j.num }
    | .text k => .json { j with text := Entries.remove (strOrder B none) (k, id) j.text }
    | .null => .json { j with nulls := Entries.remove numOrder (0, id) j.nulls }
    | .apart => .json { j with apart := Entries.remove numOrder (0, id) j.apart }
  | .num o => match numSlot v with
    | .key k => .num { o with keys := Entries.remove numOrder (k, id) o.keys }
    | .null => .num { o with nulls := Entries.remove numOrder (0, id) o.nulls }
    | .nan => .num { o with nans := Entries.remove numOrder (0, id) o.nans }
  | .text order o => match textSlot B v order.fold with
    | .key k => .text order { o with keys := Entries.remove (strOrder B order.coll) (k, id) o.keys }
    | _ => .text order { o with nulls := Entries.remove (strOrder B none) ("", id) o.nulls }

/-- The entries of the rows filed under a key. -/
def keysOf {κ : Type} (key : Option Value → Option κ) (rows : List (DocId × Option Value)) :
    List (κ × DocId) :=
  rows.filterMap fun r => (key r.2).map fun k => (k, r.1)

/-- Entries by their order. -/
def sorted {κ : Type} (cmp : κ × DocId → κ × DocId → Ordering) (l : List (κ × DocId)) :
    List (κ × DocId) :=
  l.mergeSort fun a b => (cmp a b).isLE

/-- `SortedIndex::build`: the rows collected by slot and sorted, those of a json index inserted
in turn. -/
def build (ty : DataType) (order : TextOrder) (rows : List (DocId × Option Value)) :
    SortedIndex :=
  match ty with
  | .json => rows.foldl (fun ix r => ix.insert B r.1 r.2) (new .json .bytes)
  | .text => .text order
      ⟨sorted (strOrder B order.coll) (keysOf (fun v => (textSlot B v order.fold).key?) rows),
        sorted (strOrder B order.coll)
          (keysOf (fun v => (textSlot B v order.fold).only .null "") rows), []⟩
  | _ => .num ⟨sorted numOrder (keysOf (fun v => (numSlot v).key?) rows),
        sorted numOrder (keysOf (fun v => (numSlot v).only .null 0) rows),
        sorted numOrder (keysOf (fun v => (numSlot v).only .nan 0) rows)⟩

end SortedIndex

/-! ## 4. Inverted indexes -/

/-- `SparseIndex`: by a sparse vector's index, the rows holding it and their weights.  The bounds
of a list's weights, which only a search reads, are left out. -/
structure SparseIndex where
  lists : OrdMap (OrdMap F32)
  docs : Nat
deriving DecidableEq

namespace SparseIndex

/-- `SparseIndex::new`. -/
def new : SparseIndex := ⟨.empty, 0⟩

/-- `List::set` of the list of an index. -/
def setWeight (id : DocId) (lists : OrdMap (OrdMap F32)) (e : UInt32 × F32) :
    OrdMap (OrdMap F32) :=
  lists.insert e.1.toNat (((lists.get e.1.toNat).getD .empty).insert id e.2)

/-- `List::drop_doc` of the list of an index. -/
def dropDoc (id : DocId) (lists : OrdMap (OrdMap F32)) (e : UInt32 × F32) :
    OrdMap (OrdMap F32) :=
  match lists.get e.1.toNat with
  | some l => lists.insert e.1.toNat (l.erase id)
  | none => lists

/-- `SparseIndex::insert`. -/
def insert (ix : SparseIndex) (id : DocId) (entries : List (UInt32 × F32)) : SparseIndex :=
  if entries.isEmpty then ix else ⟨entries.foldl (setWeight id) ix.lists, ix.docs + 1⟩

/-- `SparseIndex::remove`. -/
def remove (ix : SparseIndex) (id : DocId) (entries : List (UInt32 × F32)) : SparseIndex :=
  if entries.isEmpty then ix else ⟨entries.foldl (dropDoc id) ix.lists, ix.docs - 1⟩

/-- The weight a row has at an index. -/
def weight (ix : SparseIndex) (i : UInt32) (id : DocId) : Option F32 :=
  (ix.lists.get i.toNat).bind fun l => l.get id

end SparseIndex

/-! ## 5. Composite indexes -/

/-- `composite::Kind`. -/
inductive PartKind where
  | int
  | time
  | float
  | bool
  | text
  | json
deriving DecidableEq

/-- `composite::Part`: a field of a composite index. -/
structure Part where
  kind : PartKind
  desc : Bool
  coll : Option Collation
  fold : Option CaseFold
deriving DecidableEq

/-- `Part::of`. -/
def Part.of (ty : DataType) (desc : Bool) (order : TextOrder) : Part :=
  let kind := match ty with
    | .int => .int
    | .timestamp => .time
    | .float => .float
    | .bool => .bool
    | .text => .text
    | _ => .json
  ⟨kind, desc, if kind = .text then order.coll else none,
    if kind = .text then order.fold else none⟩

namespace CompositeKey

/-- `NULL`. -/
def null : UInt8 := 0x01
/-- `NUM`. -/
def num : UInt8 := 0x10
/-- `TEXT`, and below the collations' tags. -/
def text : UInt8 := 0x20
/-- `APART`. -/
def apart : UInt8 := 0x30

/-- The low `n` bytes of a word, most first. -/
def beBytes (n v : Nat) : Key := (Codec.leBytes n v).reverse

/-- A collation's code. -/
def code : Collation → UInt8
  | .turkish => 1
  | .root => 2

/-- A number's bytes. -/
def putNum (k : Nat) : Key := num :: beBytes 8 k

/-- A text's bytes: a collated one counted and raw, another with its zeros escaped and ended. -/
def putText (t : String) (coll : Option Collation) : Key :=
  match coll with
  | some c => (text + code c) :: (beBytes 4 (utf8 t.toList).length ++ utf8 t.toList)
  | none => text :: ((utf8 t.toList).flatMap (fun b => if b = 0 then [b, 0xFF] else [b]) ++ [0, 1])

/-- The bytes of a value with no place in the order. -/
def putApart (v : Value) : Key :=
  apart :: (beBytes 4 (Codec.encodeValue v).length ++ Codec.encodeValue v)

/-- The bytes a value adds ascending, and whether it has no place in the order. -/
def ascending (B : Build) (p : Part) (v : Value) : Key × Bool :=
  match p.kind, v with
  | _, .null => ([null], false)
  | .int, .int i => (putNum (intKey i), false)
  | .int, .timestamp i => (putNum (intKey i), false)
  | .time, .int i => (putNum (intKey i), false)
  | .time, .timestamp i => (putNum (intKey i), false)
  | .float, .float f => if f.isNaN then (putApart v, true) else (putNum (floatKey f), false)
  | .bool, .bool b => ([if b then 0x12 else 0x11], false)
  | .text, .text t => match p.fold with
    | some f => (putText (Case.fold B.chars f t) p.coll, false)
    | none => (putText t p.coll, false)
  | .json, v => match jsonSlot (some v) with
    | .num k => (putNum k, false)
    | .text t => (putText t none, false)
    | .null => ([null], false)
    | .apart => (putApart v, true)
  | _, v => (putApart v, true)

/-- Every byte turned round, a collated text's tag alone. -/
def inverted (p : Part) (k : Key) : Key :=
  match k with
  | t :: rest =>
    if p.coll.isSome ∧ t > text ∧ t < apart then (255 - t) :: rest else k.map (255 - ·)
  | [] => []

/-- `put_part`. -/
def putPart (B : Build) (p : Part) (v : Value) : Key × Bool :=
  let (k, apart) := ascending B p v
  (if p.desc then inverted p k else k, apart)

/-- A length written at a place, `len_at`. -/
def lenAt (k : Key) (inv : Bool) : Nat :=
  let b := k.take 4
  let n := if b.length = 4 then b.foldl (fun acc x => acc * 256 + x.toNat) 0 else 0
  if inv then 2 ^ 32 - 1 - n else n

/-- The length of an escaped text up to and with its end. -/
def textLen (zero stop : UInt8) : Key → Nat
  | a :: b :: rest =>
    if a ≠ zero then 1 + textLen zero stop (b :: rest)
    else if b = stop then 2
    else 2 + textLen zero stop rest
  | l => l.length

/-- `part_len`: the length of the part a key starts with. -/
def partLen (k : Key) : Nat :=
  match k with
  | [] => 0
  | t :: rest =>
    let desc := decide (t ≥ 0x80)
    let tag := if desc then 255 - t else t
    if tag = num then 9
    else if tag = text then 1 + textLen (if desc then 0xFF else 0) (if desc then 0xFE else 1) rest
    else if tag > text ∧ tag < apart then 5 + lenAt rest false
    else if tag = apart then 5 + lenAt rest desc
    else 1

/-- The text of a collated part. -/
def collatedText (k : Key) (l : Nat) : String :=
  if l ≤ k.length then (String.fromUTF8? ⟨((k.take l).drop 5).toArray⟩).getD "" else ""

/-- `Collation::from_code`. -/
def fromCode (c : UInt8) : Option Collation :=
  if c = 1 then some .turkish else if c = 2 then some .root else none

/-- Bytes of a part, none where the key ends before it. -/
def slice (k : Key) (l : Nat) : Option Key := if l ≤ k.length then some (k.take l) else none

/-- The order of two slices, none first. -/
def cmpSlice : Option Key → Option Key → Ordering
  | none, none => .eq
  | none, some _ => .lt
  | some _, none => .gt
  | some a, some b => compare a b

/-- The order of the parts two keys start with, when they have one tag. -/
def cmpPart (B : Build) (a b : Key) (t : UInt8) : Ordering :=
  let desc := decide (t ≥ 0x80)
  let tag := if desc then 255 - t else t
  let coll := if tag > text ∧ tag < apart then fromCode (tag - text) else none
  match coll with
  | some c =>
    let o := c.compare B.collation (collatedText a (partLen a)) (collatedText b (partLen b))
    if desc then o.swap else o
  | none => cmpSlice (slice a (partLen a)) (slice b (partLen b))

/-- `cmp_keys`: part by part, collated texts by their collation; `fuel` is past the parts. -/
def cmpKeys (B : Build) : Nat → Key → Key → Ordering
  | _, [], [] => .eq
  | _, [], _ :: _ => .lt
  | _, _ :: _, [] => .gt
  | 0, _ :: _, _ :: _ => .eq
  | fuel + 1, x :: xs, y :: ys =>
    if x ≠ y then compare x y
    else
      (cmpPart B (x :: xs) (y :: ys) x).then
        (cmpKeys B fuel ((x :: xs).drop (partLen (x :: xs))) ((y :: ys).drop (partLen (y :: ys))))

end CompositeKey

/-- `composite::RowKey`. -/
structure RowKey where
  bytes : Key
  apart : Bool
  null : Bool
deriving DecidableEq

/-- Row ids in ascending order, one put in. -/
def insertId (id : DocId) (l : List DocId) : List DocId :=
  if id ∈ l then l else l.takeWhile (· < id) ++ id :: l.dropWhile (· < id)

/-- `CompositeIndex`. -/
structure CompositeIndex where
  parts : List Part
  keys : List (Key × DocId)
  apart : List DocId
deriving DecidableEq

namespace CompositeIndex

/-- `CompositeIndex::new`. -/
def new (parts : List Part) : CompositeIndex := ⟨parts, [], []⟩

variable (B : Build)

/-- The order of entries: by the bytes of their keys, or part by part where one is collated. -/
def order (parts : List Part) : Key × DocId → Key × DocId → Ordering :=
  entryOrder fun a b =>
    if parts.any fun p => p.coll.isSome then CompositeKey.cmpKeys B a.length a b else compare a b

/-- `CompositeIndex::key`. -/
def rowKey : List Part → List Value → RowKey
  | p :: ps, v :: vs =>
    let (k, apart) := CompositeKey.putPart B p v
    let rest := rowKey ps vs
    ⟨k ++ rest.bytes, apart || rest.apart, v.isNull || rest.null⟩
  | _, _ => ⟨[], false, false⟩

/-- `CompositeIndex::insert`. -/
def insert (ix : CompositeIndex) (id : DocId) (k : RowKey) : CompositeIndex :=
  { ix with
    keys := Entries.insert (order B ix.parts) (k.bytes, id) ix.keys
    apart := if k.apart then insertId id ix.apart else ix.apart }

/-- `CompositeIndex::remove`. -/
def remove (ix : CompositeIndex) (id : DocId) (k : RowKey) : CompositeIndex :=
  { ix with
    keys := Entries.remove (order B ix.parts) (k.bytes, id) ix.keys
    apart := if k.apart then ix.apart.erase id else ix.apart }

/-- `CompositeIndex::build`. -/
def build (parts : List Part) (rows : List (DocId × RowKey)) : CompositeIndex :=
  ⟨parts, SortedIndex.sorted (order B parts) (rows.map fun r => (r.2.bytes, r.1)),
    ((rows.filter fun r => r.2.apart).map (·.1)).mergeSort (· ≤ ·)⟩

end CompositeIndex

end Fenec
