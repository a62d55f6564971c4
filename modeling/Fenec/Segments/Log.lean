/-
# A log of records

What the segment store is for: a log of records, each a put or a delete of a document, and the
documents it leaves.  A document is what the last record of its id put (`stored`).

A log is also its bytes, a frame a record.  `Tally` is what walking them once gives: how many bytes
there are, where in them each document's payload is, and how many of them no document needs.
`tally_stored` says that the payload found there is the one that was put.
-/
import Fenec.RoundTrip
import Mathlib.Data.List.Nodup

namespace Fenec

open Lib Reader Codec

namespace Segments

/-! ## 1. Records and frames -/

/-- `OP_PUT` and `OP_DEL`. -/
def opPut : UInt8 := 1

def opDel : UInt8 := 2

/-- What a record does. -/
inductive Op where
  | put
  | del
deriving DecidableEq

/-- The byte a frame starts with. -/
def Op.byte : Op → UInt8
  | .put => opPut
  | .del => opDel

theorem Op.byte_injective {a b : Op} (h : a.byte = b.byte) : a = b := by
  cases a <;> cases b
  · rfl
  · exact absurd h (by decide)
  · exact absurd h (by decide)
  · rfl

/-- A frame up to its payload. -/
def header (op : UInt8) (id : DocId) (len : Nat) : List UInt8 := op :: (uvarint id ++ uvarint len)

/-- **`Store::frame`.** -/
def frame (op : UInt8) (id : DocId) (payload : List UInt8) : List UInt8 :=
  header op id payload.length ++ payload

/-- A record: an id is a `u64` and none is zero, and a payload is shorter than `2 ^ 32` bytes. -/
structure Record where
  op : Op
  id : Nat
  payload : List UInt8
  id_pos : 1 ≤ id
  id_lt : id < 2 ^ 64
  short : payload.length < 2 ^ 32

namespace Record

/-- A record's bytes. -/
def frame (r : Record) : List UInt8 := Segments.frame r.op.byte r.id r.payload

/-- Its bytes up to its payload. -/
def header (r : Record) : List UInt8 := Segments.header r.op.byte r.id r.payload.length

theorem frame_eq (r : Record) : r.frame = r.header ++ r.payload := rfl

theorem length_frame (r : Record) : r.frame.length = r.header.length + r.payload.length :=
  List.length_append

theorem header_pos (r : Record) : 0 < r.header.length := Nat.succ_pos _

theorem frame_pos (r : Record) : 0 < r.frame.length := by
  have hpos := r.header_pos
  rw [length_frame]
  omega

theorem ext' {r q : Record} (hop : r.op = q.op) (hid : r.id = q.id)
    (hpayload : r.payload = q.payload) : r = q := by
  cases r
  cases q
  cases hop
  cases hid
  cases hpayload
  rfl

end Record

/-- A log's bytes. -/
def bytes (log : List Record) : List UInt8 := log.flatMap Record.frame

@[simp] theorem bytes_nil : bytes [] = [] := rfl

theorem bytes_cons (r : Record) (log : List Record) : bytes (r :: log) = r.frame ++ bytes log := rfl

theorem bytes_append (a b : List Record) : bytes (a ++ b) = bytes a ++ bytes b :=
  List.flatMap_append

theorem bytes_singleton (r : Record) : bytes [r] = r.frame := by
  rw [bytes_cons, bytes_nil, List.append_nil]

theorem bytes_flatten (logs : List (List Record)) : bytes logs.flatten = (logs.map bytes).flatten := by
  induction logs with
  | nil => rfl
  | cons l logs ih => rw [List.flatten_cons, bytes_append, ih, List.map_cons, List.flatten_cons]

/-! ## 2. What a log leaves -/

/-- The last record of an id, if it is a put. -/
def latest (log : List Record) (id : DocId) : Option Record :=
  (log.reverse.find? fun r => r.id == id).filter fun r => decide (r.op = .put)

/-- **The document an id has**: what its last record put. -/
def stored (log : List Record) (id : DocId) : Option (List UInt8) :=
  (latest log id).map (·.payload)

theorem latest_concat (log : List Record) (r : Record) (id : DocId) :
    latest (log ++ [r]) id =
      if id = r.id then (if r.op = .put then some r else none) else latest log id := by
  unfold latest
  rw [List.reverse_append, List.reverse_singleton, List.singleton_append, List.find?_cons]
  by_cases h : id = r.id
  · simp [h, Option.filter]
  · have hne : (r.id == id) = false := beq_eq_false_iff_ne.mpr (Ne.symm h)
    simp [hne, h]

theorem latest_some {log : List Record} {id : DocId} {r : Record} (h : latest log id = some r) :
    r ∈ log ∧ r.id = id ∧ r.op = .put := by
  unfold latest at h
  rw [Option.filter_eq_some_iff] at h
  have hfound := List.find?_some h.1
  exact ⟨List.mem_reverse.mp (List.mem_of_find?_eq_some h.1), eq_of_beq hfound, by simpa using h.2⟩

theorem stored_concat (log : List Record) (r : Record) (id : DocId) :
    stored (log ++ [r]) id =
      if id = r.id then (if r.op = .put then some r.payload else none) else stored log id := by
  unfold stored
  rw [latest_concat]
  split
  · split <;> rfl
  · rfl

/-- The greatest id ever put. -/
def topPut (log : List Record) : Nat :=
  log.foldl (fun top r => if r.op = .put then max top r.id else top) 0

theorem topPut_concat (log : List Record) (r : Record) :
    topPut (log ++ [r]) = if r.op = .put then max (topPut log) r.id else topPut log := by
  simp [topPut, List.foldl_append]

theorem le_topPut {log : List Record} {r : Record} (hr : r ∈ log) (hop : r.op = .put) :
    r.id ≤ topPut log := by
  induction log using List.reverseRecOn with
  | nil => cases hr
  | append_singleton log r' ih =>
    rw [topPut_concat]
    rcases List.mem_append.mp hr with hr | hr
    · have hle := ih hr
      split
      · exact Nat.le_trans hle (Nat.le_max_left _ _)
      · exact hle
    · cases List.mem_singleton.mp hr
      rw [if_pos hop]
      exact Nat.le_max_right _ _

/-! ## 3. Walking a log -/

/-- What a walk of a log's bytes gives: their number, the place and length of each document's
payload, and the bytes of no use. -/
structure Tally where
  len : Nat
  spot : DocId → Option (Nat × Nat)
  dead : Nat

namespace Tally

/-- Of nothing. -/
def zero : Tally := ⟨0, fun _ => none, 0⟩

/-- The place a record's payload has, past `len` bytes. -/
def place (len : Nat) (r : Record) : Nat × Nat := (len + r.header.length, r.payload.length)

/-- One record more. -/
def add (t : Tally) (r : Record) : Tally where
  len := t.len + r.frame.length
  spot id := if id = r.id then (if r.op = .put then some (place t.len r) else none) else t.spot id
  dead := t.dead + ((t.spot r.id).elim 0 fun pn => pn.2) +
    if r.op = .put then 0 else r.frame.length

end Tally

/-- **The tally of a log.** -/
def tally (log : List Record) : Tally := log.foldl Tally.add .zero

theorem tally_concat (log : List Record) (r : Record) :
    tally (log ++ [r]) = (tally log).add r := by
  simp [tally, List.foldl_append]

theorem tally_len (log : List Record) : (tally log).len = (bytes log).length := by
  induction log using List.reverseRecOn with
  | nil => rfl
  | append_singleton log r ih =>
    rw [tally_concat, Tally.add, ih, bytes_append, bytes_singleton, List.length_append]

/-- A document's payload lies in the log. -/
theorem tally_within (log : List Record) {id : DocId} {p n : Nat}
    (h : (tally log).spot id = some (p, n)) : p + n ≤ (bytes log).length := by
  induction log using List.reverseRecOn with
  | nil => cases h
  | append_singleton log r ih =>
    rw [bytes_append, bytes_singleton, List.length_append]
    rw [tally_concat, Tally.add] at h
    dsimp only at h
    split at h
    · split at h
      · cases h
        rw [tally_len, r.length_frame]
        omega
      · cases h
    · have hle := ih h
      omega

/-- **What stands where a document's payload is, is what was put.** -/
theorem tally_stored (log : List Record) (id : DocId) :
    ((tally log).spot id).map (fun pn => ((bytes log).drop pn.1).take pn.2) = stored log id := by
  induction log using List.reverseRecOn with
  | nil => rfl
  | append_singleton log r ih =>
    rw [stored_concat, tally_concat, Tally.add, bytes_append, bytes_singleton]
    dsimp only
    by_cases hid : id = r.id
    · rw [if_pos hid, if_pos hid]
      by_cases hop : r.op = .put
      · rw [if_pos hop, if_pos hop, Option.map_some, Tally.place, tally_len]
        rw [← List.drop_drop, List.drop_left, r.frame_eq, List.drop_left, List.take_length]
      · rw [if_neg hop, if_neg hop, Option.map_none]
    · rw [if_neg hid, if_neg hid, ← ih]
      cases hspot : (tally log).spot id with
      | none => rfl
      | some pn =>
        obtain ⟨p, n⟩ := pn
        have hle := tally_within log hspot
        rw [Option.map_some, Option.map_some, List.drop_append_of_le_length (by omega),
          List.take_append_of_le_length (by rw [List.length_drop]; omega)]

/-- The length kept of a document is that of what was put. -/
theorem tally_length (log : List Record) {id : DocId} {p n : Nat}
    (h : (tally log).spot id = some (p, n)) : n < 2 ^ 32 := by
  induction log using List.reverseRecOn with
  | nil => cases h
  | append_singleton log r ih =>
    rw [tally_concat, Tally.add] at h
    dsimp only at h
    split at h
    · split at h
      · cases h
        exact r.short
      · cases h
    · exact ih h

/-! ## 4. Reading a frame -/

section Reading

variable {buf : List UInt8}

/-- The op, the id and the length of a payload. -/
def readHead (buf : List UInt8) : Dec (UInt8 × DocId × Nat) := do
  let op ← byte buf "missing op"
  let id ← getUvarint buf
  let len ← getUvarint buf
  pure (op, id, len)

theorem reads_head (r : Record) :
    Reader.Reads buf (readHead buf) r.header (r.op.byte, r.id, r.payload.length) := by
  have hshort : r.payload.length < 2 ^ 64 := Nat.lt_trans r.short (by norm_num)
  exact reads_byte.bind ((reads_uvarint r.id_lt).bind ((reads_uvarint hshort).answer reads_pure))

theorem follows_byte_longer (more : List UInt8) {text : String} :
    Follows (byte buf text) (byte (buf ++ more) text) (· = ·) := by
  intro c d a c' hpos h
  unfold byte at h ⊢
  rw [← hpos]
  cases hb : buf[c.pos]? with
  | none =>
    rw [hb] at h
    cases h
  | some b =>
    rw [hb] at h
    cases h
    obtain ⟨hlt, -⟩ := List.getElem?_eq_some_iff.mp hb
    rw [List.getElem?_append_left hlt, hb]
    exact ⟨_, _, rfl, rfl, rfl⟩

theorem follows_uvarintAt_longer (more : List UInt8) {k : Nat} : ∀ {shift acc : Nat},
    Follows (uvarintAt buf k shift acc) (uvarintAt (buf ++ more) k shift acc) (· = ·) := by
  induction k with
  | zero =>
    intro shift acc c d a c' _ h
    cases h
  | succ k ih =>
    intro shift acc
    refine (follows_byte_longer more).bind fun a b hab => ?_
    subst hab
    dsimp only
    split
    · exact follows_pure rfl
    · exact ih

/-- **A head read short of the buffer's end is read the same from a longer one.** -/
theorem follows_head_longer (more : List UInt8) :
    Follows (readHead buf) (readHead (buf ++ more)) (· = ·) := by
  refine (follows_byte_longer more).bind fun op op' hop => ?_
  refine (follows_uvarintAt_longer more).bind fun id id' hid => ?_
  refine (follows_uvarintAt_longer more).bind fun len len' hlen => ?_
  subst hop hid hlen
  exact follows_pure rfl

/-- Where a log goes on past `done`, its next head is read. -/
theorem readHead_at {done : List UInt8} {r : Record} {rest : List UInt8}
    (hbuf : buf = done ++ (r.frame ++ rest)) : ∃ l, readHead buf ⟨done.length, []⟩ =
      (.ok (r.op.byte, r.id, r.payload.length), ⟨done.length + r.header.length, l⟩) := by
  have hdrop : buf.drop done.length = r.header ++ (r.payload ++ rest) := by
    rw [hbuf, List.drop_left, r.frame_eq, List.append_assoc]
  exact reads_head r ⟨done.length, []⟩ _ (by rw [hbuf]; simp) hdrop

/-- **A frame cut short is told by its head**: that cannot be read, or says more than is there. -/
theorem readHead_cut {done cut rest : List UInt8} {r : Record} (hbuf : buf = done ++ cut)
    (hcut : cut ++ rest = r.frame) {op : UInt8} {id : DocId} {len : Nat} {c : Cursor (Tag × Nat)}
    (h : readHead buf ⟨done.length, []⟩ = (.ok (op, id, len), c)) :
    c.pos + len = done.length + r.frame.length := by
  obtain ⟨b, d, hlong, hpos, rfl⟩ := follows_head_longer rest _ ⟨done.length, []⟩ _ _ rfl h
  have hwhole : buf ++ rest = done ++ (r.frame ++ []) := by
    rw [hbuf, List.append_assoc, hcut, List.append_nil]
  obtain ⟨l, hl⟩ := readHead_at hwhole
  rw [hl] at hlong
  cases hlong
  rw [hpos, r.length_frame]
  dsimp only
  omega

end Reading

/-- **A log is told by its bytes.** -/
theorem bytes_injective {a b : List Record} (h : bytes a = bytes b) : a = b := by
  induction a generalizing b with
  | nil =>
    cases b with
    | nil => rfl
    | cons r b =>
      have hlen := congrArg List.length h
      have hpos := r.frame_pos
      rw [bytes_cons, List.length_append, bytes_nil, List.length_nil] at hlen
      omega
  | cons r a ih =>
    cases b with
    | nil =>
      have hlen := congrArg List.length h
      have hpos := r.frame_pos
      rw [bytes_cons, List.length_append, bytes_nil, List.length_nil] at hlen
      omega
    | cons q b =>
      -- both heads are read at the start of the same bytes
      have hr : bytes (r :: a) = [] ++ (r.frame ++ bytes a) := rfl
      have hq : bytes (r :: a) = [] ++ (q.frame ++ bytes b) := h
      obtain ⟨l, hl⟩ := readHead_at hr
      obtain ⟨l', hl'⟩ := readHead_at hq
      rw [hl, Prod.mk.injEq, Except.ok.injEq, Prod.mk.injEq, Prod.mk.injEq] at hl'
      obtain ⟨⟨hop, hid, hlen⟩, -⟩ := hl'
      have hhead : r.header = q.header := by
        rw [Record.header, Record.header, hop, hid, hlen]
      have hframe : r.frame.length = q.frame.length := by
        rw [r.length_frame, q.length_frame, hhead, hlen]
      rw [bytes_cons, bytes_cons] at h
      obtain ⟨hframes, hrest⟩ := List.append_inj h hframe
      rw [r.frame_eq, q.frame_eq, hhead] at hframes
      rw [ih hrest, Record.ext' (Op.byte_injective hop) hid (List.append_cancel_left hframes)]


end Segments

end Fenec
