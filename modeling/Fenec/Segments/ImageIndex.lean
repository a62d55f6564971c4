/-
# An image's index

Beside a store's image stands an index of it: for each live document in id order its id, its
payload's length and its place, each written as how far it is from where the one before would put
it.  An open takes the locations from it rather than walking the frames.

It is read in turn, or in shares: behind the documents stands where each `indexShare` of them
ends, so that a share can be read without the ones before it.  The shares are laid side by side
into one list of slots, and refused where a document would not go there.

Here are the writer (`imageIndex`), the two readers and `adoptIndex` over them; that an entry is
read back as it was written (`indexEntry_written`); and what the writer writes (`written_eq`).
-/
import Fenec.Segments.Reached

namespace Fenec

open Lib Reader Codec Chunks

namespace Segments

/-! ## 1. The writer -/

/-- The bytes a varint takes, as `after` counts them. -/
def varintLen (v : Nat) : Nat := (Nat.log2 (v ||| 1) + 1 + 6) / 7

/-- **`after`**: where the payload of a put of `len` bytes to `id` starts, framed right after
`end_`. -/
def after (end_ id len : Nat) : Nat := end_ + 1 + varintLen id + varintLen len

/-- `FRAMES_MARK`. -/
def framesMark : UInt8 := 1

/-- `FRAMES_SPLIT`. -/
def framesSplit : UInt8 := 2

/-- `INDEX_SHARE`. -/
def indexShare : Nat := 16384

/-- Where a reader of an index stands: the byte of it, and the id and the place the next document
counts from.  A share's end is written as one. -/
structure Standing where
  p : Nat
  id : Nat
  end_ : Nat
deriving DecidableEq

/-- A document's entry, counted from an id and a place. -/
def entry (idWas posWas id pos len : Nat) : List UInt8 :=
  uvarint (id - idWas) ++ (uvarint len ++
    uvarint (zigzag (Int64.ofNat pos - Int64.ofNat (after posWas id len))))

/-- What the writer of an index carries along: the bytes so far, what the next document counts
from, where its frame would start among the live ones, and the shares' ends. -/
structure Writing where
  out : List UInt8
  idWas : Nat
  posWas : Nat
  to_ : Nat
  ends : List Standing
  written : Nat

/-- Three words a share's end. -/
def endBytes (e : Standing) : List UInt8 := leBytes 8 e.p ++ (leBytes 8 e.id ++ leBytes 8 e.end_)

namespace Store

/-- **`Store::live_len`.** -/
def liveLen (s : Store) : Nat :=
  (s.index.ids.map fun id => (s.index.get id).elim 0 fun l =>
    (header opPut id l.len).length + l.len).sum

/-- A document of the index written. -/
def writeEntry (s : Store) (live : Bool) (w : Writing) (id : DocId) : Writing :=
  match s.index.get id with
  | none => w
  | some l =>
    let ends := if 0 < w.written ∧ w.written % indexShare = 0 then
      w.ends ++ [⟨w.out.length, w.idWas, w.posWas⟩] else w.ends
    let pos := if live then w.to_ + (header opPut id l.len).length else s.placeOf l
    { out := w.out ++ entry w.idWas w.posWas id pos l.len
      idWas := id
      posWas := pos + l.len
      to_ := if live then pos + l.len else w.to_
      ends := ends
      written := w.written + 1 }

/-- What stands before the documents: the mark, the record's length, its dead bytes and how many
documents there are. -/
def indexHead (s : Store) (live : Bool) : List UInt8 :=
  framesSplit :: (uvarint (if live then s.liveLen else s.imageLen) ++
    (uvarint (if live then 0 else s.deadBytes) ++ uvarint s.index.count))

/-- **`Store::image_index`**: what it appends. -/
def imageIndex (s : Store) (live : Bool) : List UInt8 :=
  let w := s.index.ids.foldl (s.writeEntry live) ⟨s.indexHead live, 0, 0, 0, [], 0⟩
  let ends := w.ends ++ [⟨w.out.length, w.idWas, w.posWas⟩]
  w.out ++ (ends.flatMap endBytes ++ leBytes 4 ends.length)

end Store

/-! ## 2. The readers -/

/-- **`uvarint`**: the one-byte case first, then `get_uvarint`. -/
def uvarintOf (docs : List UInt8) (p : Nat) : Option (Nat × Nat) :=
  let whole := match getUvarint docs ⟨p, []⟩ with
    | (.ok v, c) => some (v, c.pos)
    | (.error _, _) => none
  match docs[p]? with
  | some b => if b.toNat < 128 then some (b.toNat, p + 1) else whole
  | none => whole

/-- **`index_entry`**: the place and length of the next document's payload in a record of `len`
bytes, and where the reader then stands. -/
def indexEntry (docs : List UInt8) (len : Nat) (st : Standing) :
    Option ((Nat × Nat) × Standing) := do
  let (step, p) ← uvarintOf docs st.p
  let (n, p) ← uvarintOf docs p
  let (off, p) ← uvarintOf docs p
  -- `checked_add` of `u64`s
  if st.id + step < 2 ^ 64 ∧ 0 < step ∧ n < 2 ^ 32 then
    let pos := (Int64.ofNat (after st.end_ (st.id + step) n)).toInt + (unzigzag off).toInt
    -- `checked_add` of `i64`s
    if pos < 2 ^ 63 ∧ 0 < pos then
      if pos.toNat + n ≤ len then some ((pos.toNat, n), ⟨p, st.id + step, pos.toNat + n⟩) else none
    else none
  else none

/-- The documents read one after another, each pushed onto the index. -/
def inTurn (docs : List UInt8) (at_ len : Nat) :
    Nat → Standing → IdIndex Loc → Option (Standing × IdIndex Loc)
  | 0, st, fresh => some (st, fresh)
  | k + 1, st, fresh =>
    match indexEntry docs len st with
    | none => none
    | some ((pos, n), st') => inTurn docs at_ len k st' (fresh.pushAbove st'.id (.file (at_ + pos) n))

/-- **`adopt_in_turn`.** -/
def adoptInTurn (docs : List UInt8) (p count at_ len : Nat) : Option (IdIndex Loc × DocId) :=
  match inTurn docs at_ len count ⟨p, 0, 0⟩ .empty with
  | none => none
  | some (st, fresh) => if st.p = docs.length then some (fresh, st.id) else none

/-- The documents of a share read into its slots: `first` is the id before them, and there are
`room`. -/
def shareDocs (docs : List UInt8) (at_ len first room : Nat) :
    Nat → Standing → List (Option Loc) → Option (Standing × List (Option Loc))
  | 0, st, part => some (st, part)
  | k + 1, st, part =>
    match indexEntry docs len st with
    | none => none
    | some ((pos, n), st') =>
      let slot := st'.id - first - 1
      if maxDenseGap < st'.id - st.id then none
      else if slot < part.length ∨ room ≤ slot then none
      else shareDocs docs at_ len first room k st'
        (part ++ List.replicate (slot - part.length) none ++ [some (.file (at_ + pos) n)])

/-- A share, number `i`, of `count` documents: from its mark to the next one's. -/
def share (docs : List UInt8) (at_ len count : Nat) (i : Nat) (mark next : Standing) :
    Option (List (Option Loc)) :=
  match shareDocs docs at_ len mark.id (next.id - mark.id) (min (count - i * indexShare) indexShare)
    mark [] with
  | none => none
  | some (st, part) => if part.length = next.id - mark.id ∧ st = next then some part else none

/-- The shares from number `i` on, each from a mark to the next. -/
def readShares (docs : List UInt8) (at_ len count : Nat) :
    Nat → Standing → List Standing → Option (List (Option Loc))
  | _, _, [] => some []
  | i, mark, next :: marks =>
    match share docs at_ len count i mark next with
    | none => none
    | some part => (readShares docs at_ len count (i + 1) next marks).map (part ++ ·)

/-- The shares' ends, three words each. -/
def marksOf (ends : List UInt8) : List Standing :=
  (chunks 24 ends).map fun e => ⟨fromLe (e.take 8), fromLe ((e.drop 8).take 8), fromLe (e.drop 16)⟩

/-- Every mark is past the one before it. -/
def ascending : Standing → List Standing → Bool
  | _, [] => true
  | mark, next :: marks => decide (mark.p < next.p) && decide (mark.id < next.id) &&
    ascending next marks

/-- **`adopt_shares`.**  The threads write apart from each other: what they leave is the shares
side by side. -/
def adoptShares (docs : List UInt8) (from_ : Nat) (ends : List UInt8) (count at_ len : Nat) :
    Option (IdIndex Loc × DocId) :=
  let marks := marksOf ends
  let last := marks.getLastD ⟨from_, 0, 0⟩
  if marks.length ≠ (count + indexShare - 1) / indexShare ∨ docs.length / 3 < count ∨
      last.p ≠ docs.length ∨ count + count / 4 < last.id ∨
      ascending ⟨from_, 0, 0⟩ marks = false then none
  else
    match readShares docs at_ len count 0 ⟨from_, 0, 0⟩ marks with
    | none => none
    | some dense => some (⟨dense, OrdMap.empty, 0, count⟩, last.id)

/-- The documents' part of an index, and the shares' ends behind it. -/
def splitIndex (index : List UInt8) : Option (List UInt8 × List UInt8) :=
  match index.head? with
  | none => none
  | some b =>
    if b = framesMark then some (index, [])
    else if b = framesSplit then
      if index.length < 4 then none
      else
        let at_ := index.length - 4
        let k := fromLe (index.drop at_)
        if at_ < k * 24 then none
        else some (index.take (at_ - k * 24), (index.drop (at_ - k * 24)).take (k * 24))
    else none

/-- The three numbers before the documents, and where these start. -/
def readIndexHead (docs : List UInt8) : Option (Nat × Nat × Nat × Nat) := do
  let (whole, p) ← uvarintOf docs 1
  let (dead, p) ← uvarintOf docs p
  let (count, p) ← uvarintOf docs p
  some (whole, dead, count, p)

namespace Store

/-- **`Store::adopt_index`.** -/
def adoptIndex (s : Store) (base : List UInt8) (at_ len : Nat) (index : List UInt8) :
    Bool × Store :=
  if s.index.count ≠ 0 ∨ s.base.isSome = true ∨ s.totalBytes ≠ 0 then (false, s)
  else
    match splitIndex index with
    | none => (false, s)
    | some (docs, ends) =>
      match readIndexHead docs with
      | none => (false, s)
      | some (whole, dead, count, p) =>
        if whole ≠ len ∨ len < dead then (false, s)
        else
          let shares := if 1 < ends.length then adoptShares docs p ends count at_ len else none
          match shares.or (adoptInTurn docs p count at_ len) with
          | none => (false, s)
          | some (fresh, last) =>
            (true, { s with
              index := fresh
              totalBytes := len
              deadBytes := dead
              nextId := max s.nextId ((last + 1) % 2 ^ 64)
              base := some (base, [(at_, len)]) })

end Store

/-! ## 3. An entry read back -/

section Entry

variable {docs : List UInt8}

theorem log2_or_one {v : Nat} (h : v ≠ 0) : Nat.log2 (v ||| 1) = Nat.log2 v := by
  have hne : v ||| 1 ≠ 0 := fun hz => h (Nat.or_eq_zero_iff.mp hz).1
  rw [Nat.log2_eq_iff hne]
  refine ⟨Nat.le_trans (Nat.log2_self_le h) Nat.left_le_or, Nat.or_lt_two_pow Nat.lt_log2_self ?_⟩
  exact Nat.one_lt_two_pow (Nat.succ_ne_zero _)

/-- A byte below 128 is a varint of its own. -/
theorem getUvarint_byte {p : Nat} {b : UInt8} (hb : docs[p]? = some b) (hlow : b.toNat < 128) :
    getUvarint docs ⟨p, []⟩ = (.ok b.toNat, ⟨p + 1, []⟩) := by
  have hread : byte docs "varint ended early" (⟨p, []⟩ : Cursor (Tag × Nat)) =
      (.ok b, ⟨p + 1, []⟩) := by
    rw [byte]
    dsimp only
    rw [hb]
  have hval : (0 ||| ((b.toNat % 128) <<< 0 % 2 ^ 64)) = b.toNat := by
    rw [Nat.zero_or, Nat.shiftLeft_zero, Nat.mod_eq_of_lt hlow, Nat.mod_eq_of_lt (by omega)]
  rw [getUvarint, uvarintAt, Act.bind_eq, hread]
  dsimp only
  rw [if_pos hlow, hval]
  rfl

/-- **A number written is read where it stands.** -/
theorem uvarintOf_written {p v : Nat} {rest : List UInt8} (hp : p ≤ docs.length) (hv : v < 2 ^ 64)
    (h : docs.drop p = uvarint v ++ rest) :
    uvarintOf docs p = some (v, p + (uvarint v).length) := by
  obtain ⟨l, hl⟩ := reads_uvarint hv ⟨p, []⟩ rest hp h
  rw [uvarintOf, hl]
  cases hb : docs[p]? with
  | none => rfl
  | some b =>
    dsimp only
    split
    · next hlow =>
      rw [getUvarint_byte hb hlow, Prod.mk.injEq, Except.ok.injEq, Cursor.mk.injEq] at hl
      obtain ⟨hval, hnext, -⟩ := hl
      rw [hval, hnext]
    · rfl

/-- **An entry written is read back as it was.** -/
theorem indexEntry_written {len : Nat} {st : Standing} {id pos n : Nat} {rest : List UInt8}
    (hp : st.p ≤ docs.length) (h : docs.drop st.p = entry st.id st.end_ id pos n ++ rest)
    (hid : st.id < id) (hlt : id < 2 ^ 64) (hn : n < 2 ^ 32) (hpos : 0 < pos)
    (hle : pos + n ≤ len) (hend : st.end_ ≤ len) (hlen : len ≤ 2 ^ 63 - 2 ^ 32) :
    indexEntry docs len st =
      some ((pos, n), ⟨st.p + (entry st.id st.end_ id pos n).length, id, pos + n⟩) := by
  have hhead : ∀ v, v < 2 ^ 64 → varintLen v ≤ 10 := by
    intro v hv
    by_cases hz : v = 0
    · rw [hz]
      decide
    · have hlog : Nat.log2 v < 64 := (Nat.log2_lt hz).mpr hv
      rw [varintLen, log2_or_one hz]
      omega
  have hafter : after st.end_ id n < 2 ^ 63 := by
    have h₁ := hhead id hlt
    have h₂ := hhead n (by omega)
    rw [after]
    omega
  have hsub : (Int64.ofNat pos - Int64.ofNat (after st.end_ id n)).toInt =
      (pos : Int) - (after st.end_ id n : Int) := by
    rw [Int64.toInt_sub, Int64.toInt_ofNat_of_lt (by omega), Int64.toInt_ofNat_of_lt hafter,
      Int.bmod_eq_of_le (by omega) (by omega)]
  rw [entry, List.append_assoc] at h
  rw [List.append_assoc] at h
  have h₁ := uvarintOf_written hp (show id - st.id < 2 ^ 64 by omega) h
  have hp₁ := past_le hp h
  have hd₁ := drop_past h
  have h₂ := uvarintOf_written hp₁ (show n < 2 ^ 64 by omega) hd₁
  have h₃ := uvarintOf_written (past_le hp₁ hd₁) (zigzag_lt _) (drop_past hd₁)
  have hidsum : st.id + (id - st.id) = id := by omega
  have hsum : (Int64.ofNat (after st.end_ id n)).toInt + (unzigzag (zigzag (Int64.ofNat pos -
      Int64.ofNat (after st.end_ id n)))).toInt = (pos : Int) := by
    rw [unzigzag_zigzag, hsub, Int64.toInt_ofNat_of_lt hafter]
    omega
  rw [indexEntry, h₁]
  dsimp only [Option.bind_eq_bind, Option.bind_some]
  rw [h₂]
  dsimp only [Option.bind_some]
  rw [h₃]
  dsimp only [Option.bind_some]
  rw [hidsum, if_pos ⟨hlt, by omega, hn⟩, hsum, if_pos ⟨by omega, by omega⟩, Int.toNat_natCast,
    if_pos hle, entry]
  simp only [List.length_append, Nat.add_assoc]

end Entry

/-! ## 4. What is written -/

/-- The entries of some documents, counted from an id and a place: an id, a place and a length
each. -/
def entriesBytes : Nat → Nat → List (DocId × Nat × Nat) → List UInt8
  | _, _, [] => []
  | idWas, posWas, (id, pos, n) :: es => entry idWas posWas id pos n ++ entriesBytes id (pos + n) es

namespace Store

/-- The documents an index is of, the frame of the first at `to_` among the live ones. -/
def entries (s : Store) (live : Bool) : Nat → List (DocId × Loc) → List (DocId × Nat × Nat)
  | _, [] => []
  | to_, (id, l) :: es =>
    let pos := if live then to_ + (header opPut id l.len).length else s.placeOf l
    (id, pos, l.len) :: entries s live (if live then pos + l.len else to_) es

section Written

variable {s : Store} {live : Bool}

theorem map_entries (es : List (DocId × Loc)) : ∀ to_ : Nat,
    (s.entries live to_ es).map (·.1) = es.map (·.1) := by
  induction es with
  | nil => exact fun _ => rfl
  | cons e es ih =>
    intro to_
    rw [entries, List.map_cons, List.map_cons, ih]

/-- **The writer writes the entries, and the shares' ends behind them.** -/
theorem written_eq (live : Bool) {es : List (DocId × Loc)} : ∀ (w : Writing),
    (∀ e ∈ es, s.index.get e.1 = some e.2) → w.ends.length = (w.written - 1) / indexShare →
    ((es.map (·.1)).foldl (s.writeEntry live) w).out =
        w.out ++ entriesBytes w.idWas w.posWas (s.entries live w.to_ es) ∧
      ((es.map (·.1)).foldl (s.writeEntry live) w).ends.length =
        (w.written + es.length - 1) / indexShare := by
  induction es with
  | nil =>
    intro w _ hends
    exact ⟨(List.append_nil _).symm, hends⟩
  | cons e es ih =>
    intro w hes hends
    obtain ⟨id, l⟩ := e
    have hget : s.index.get id = some l := hes _ (List.mem_cons_self ..)
    rw [List.map_cons, List.foldl_cons]
    have hshare : indexShare = 16384 := rfl
    -- a share's end stands before each document that starts one
    have hnext : (s.writeEntry live w id).ends.length =
        ((s.writeEntry live w id).written - 1) / indexShare := by
      rw [writeEntry, hget]
      dsimp only
      split
      · next hend =>
        rw [List.length_append, List.length_singleton, hends, hshare]
        rw [hshare] at hend
        omega
      · next hend =>
        rw [hends, hshare]
        rw [hshare] at hend
        omega
    obtain ⟨hout, hlen⟩ := ih (s.writeEntry live w id)
      (fun e he => hes e (List.mem_cons_of_mem _ he)) hnext
    refine ⟨?_, ?_⟩
    · rw [hout, writeEntry, hget, entries, entriesBytes, ← List.append_assoc]
    · rw [hlen, List.length_cons]
      have hwritten : (s.writeEntry live w id).written = w.written + 1 := by
        rw [writeEntry, hget]
      rw [hwritten]
      congr 1
      omega

/-- **The index is the head, the entries, the shares' ends and their number.** -/
theorem imageIndex_eq (hgood : s.index.Good) (live : Bool) : ∃ ends : List Standing,
    s.imageIndex live = (s.indexHead live ++ entriesBytes 0 0 (s.entries live 0 s.index.pairs)) ++
      (ends.flatMap endBytes ++ leBytes 4 ends.length) ∧
    ends.length = (s.index.count - 1) / indexShare + 1 := by
  have hes : ∀ e ∈ s.index.pairs, s.index.get e.1 = some e.2 :=
    fun e he => hgood.toPlaced.mem_pairs.mp he
  obtain ⟨hout, hends⟩ := written_eq live ⟨s.indexHead live, 0, 0, 0, [], 0⟩ hes
    (by rw [List.length_nil, Nat.zero_sub, Nat.zero_div])
  rw [IdIndex.map_pairs] at hout hends
  generalize hw : s.index.ids.foldl (s.writeEntry live) ⟨s.indexHead live, 0, 0, 0, [], 0⟩ = w
    at hout hends
  have hcount : s.index.pairs.length = s.index.count := by
    rw [hgood.counted, ← IdIndex.map_pairs, List.length_map]
  refine ⟨w.ends ++ [⟨w.out.length, w.idWas, w.posWas⟩], ?_, ?_⟩
  · rw [imageIndex, hw, ← hout]
  · rw [List.length_append, List.length_singleton, hends, hcount, Nat.zero_add]

end Written

end Store

/-- An index split where its documents end. -/
theorem splitIndex_written {b : UInt8} {docs : List UInt8} {ends : List Standing}
    (hb : b = framesSplit) (hends : ends.length < 2 ^ 32) :
    splitIndex ((b :: docs) ++ (ends.flatMap endBytes ++ leBytes 4 ends.length)) =
      some (b :: docs, ends.flatMap endBytes) := by
  have hword : ∀ e : Standing, (endBytes e).length = 24 := by
    intro e
    simp only [endBytes, List.length_append, length_leBytes]
  have hlen : (ends.flatMap endBytes).length = ends.length * 24 := length_flatMap_const hword ends
  have hsize : ((b :: docs) ++ (ends.flatMap endBytes ++ leBytes 4 ends.length)).length - 4 =
      (b :: docs).length + ends.length * 24 := by
    simp only [List.length_append, hlen, length_leBytes]
    omega
  have hnum : fromLe (((b :: docs) ++ (ends.flatMap endBytes ++ leBytes 4 ends.length)).drop
      ((b :: docs).length + ends.length * 24)) = ends.length := by
    rw [← List.append_assoc, ← hlen, ← List.length_append, List.drop_left, fromLe_leBytes]
    exact Nat.mod_eq_of_lt hends
  have hfour : 4 ≤ ((b :: docs) ++ (ends.flatMap endBytes ++ leBytes 4 ends.length)).length := by
    simp only [List.length_append, length_leBytes]
    omega
  rw [splitIndex]
  simp only [List.cons_append, List.head?_cons]
  rw [if_neg (by rw [hb]; decide), if_pos hb, if_neg (by rw [← List.cons_append]; omega),
    ← List.cons_append, hsize, hnum, if_neg (by omega), Nat.add_sub_cancel, List.take_left,
    List.drop_left, ← hlen, List.take_left]

end Segments

end Fenec
