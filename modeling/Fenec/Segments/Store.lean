/-
# The segment store

A store keeps its records as they were written, in segments in memory and in stretches of a mapped
file, and an index from each id to where its payload is (`Loc`).  Three functions of the source put
a frame's location in the index and keep the counts: `landFrame` for a write, `replay` for bytes
copied into segments and `replayMapped` for bytes that stay in the file.

A `Loc` of the source packs a segment or a file place into two `u32`s, the top bit telling them
apart; here they are two constructors.  A segment's number stays far below `2 ^ 31`: so many
segments would be sixteen pebibytes in memory.  Offsets in a segment and payload lengths are cut
to a `u32` as the source cuts them, and `Holds` shows that nothing is lost.

`Holds s filed held` relates a store to the log it holds, a part a stretch and a part a segment:
the counts are the log's tally, and the index points at the tally's spots.
-/
import Fenec.Lib.Chunks
import Fenec.Segments.IdIndex
import Fenec.Segments.Log

namespace Fenec

open Lib Reader Codec Chunks

namespace Segments

/-! ## 1. The store -/

/-- `SEGMENT_MAX`. -/
def segmentMax : Nat := 8 * 1024 * 1024

/-- `Loc`: a payload in a segment, or in the mapped file. -/
inductive Loc where
  | held (seg off len : Nat)
  | file (at_ len : Nat)
deriving DecidableEq

/-- A payload's length. -/
def Loc.len : Loc → Nat
  | .held _ _ len => len
  | .file _ len => len

/-- A segment's bytes, and whether it takes no more. -/
structure Segment where
  data : List UInt8
  sealed : Bool
deriving DecidableEq

/-- `Segment::default`. -/
def Segment.empty : Segment := ⟨[], false⟩

/-- `Store`. -/
structure Store where
  segments : List Segment
  /-- the mapped file, and the stretches of it the store reads from: a place and a length each -/
  base : Option (List UInt8 × List (Nat × Nat))
  index : IdIndex Loc
  nextId : Nat
  deadBytes : Nat
  totalBytes : Nat
  dropped : List Nat

namespace Store

/-- `Store::new`. -/
def new : Store := ⟨[.empty], none, .empty, 1, 0, 0, []⟩

/-- `Store::len`. -/
def len (s : Store) : Nat := s.index.count

/-- `Store::ids`. -/
def ids (s : Store) : List DocId := s.index.ids

/-- The stretches of the mapped file. -/
def stretches (s : Store) : List (Nat × Nat) := s.base.elim [] fun b => b.2

/-- The mapped file, nothing where there is none. -/
def file (s : Store) : List UInt8 := s.base.elim [] fun b => b.1

/-- The segments, the last of which takes the next frame: `active`. -/
def active (segments : List Segment) : List Segment :=
  match segments.getLast? with
  | some last =>
    if segmentMax ≤ last.data.length then
      segments.dropLast ++ [{ last with sealed := true }, .empty]
    else segments
  | none => segments

/-- Bytes onto the end of the last segment. -/
def extend (segments : List Segment) (bs : List UInt8) : List Segment :=
  segments.modify (segments.length - 1) fun g => { g with data := g.data ++ bs }

/-- The length of the last segment. -/
def lastLen (segments : List Segment) : Nat := segments.getLast?.elim 0 fun g => g.data.length

/-- **`Store::land_frame`.** -/
def landFrame (s : Store) (op : UInt8) (id : DocId) (frame : List UInt8) (payloadLen : Nat) :
    Store :=
  let dead := s.deadBytes + (s.index.get id).elim 0 Loc.len
  let segments := active s.segments
  let off := lastLen segments + (frame.length - payloadLen)
  let s := { s with
    segments := extend segments frame
    totalBytes := s.totalBytes + frame.length
    deadBytes := dead }
  if op = opPut then
    { s with
      index := s.index.insert id
        (.held (segments.length - 1) (off % 2 ^ 32) (payloadLen % 2 ^ 32))
      nextId := if s.nextId ≤ id then (id + 1) % 2 ^ 64 else s.nextId }
  else if op = opDel then
    { s with index := s.index.remove id, deadBytes := dead + frame.length }
  else s

/-- **`Store::append`.** -/
def append (s : Store) (op : UInt8) (id : DocId) (payload : List UInt8) : Store :=
  s.landFrame op id (frame op id payload) payload.length

/-- **`Store::payload`.** -/
def payload (s : Store) (loc : Loc) : Result (List UInt8) :=
  match loc, s.base with
  | .file at_ len, some (file, _) =>
    if file.length < at_ + len then .error (.corrupt "offset outside the mapped file")
    else .ok ((file.drop at_).take len)
  | .file _ _, none => .error (.corrupt "no such segment")
  | .held seg off len, _ =>
    match s.segments[seg]? with
    | none => .error (.corrupt "no such segment")
    | some g =>
      if g.data.length < off + len then .error (.corrupt "offset outside the segment")
      else .ok ((g.data.drop off).take len)

/-- **`Store::raw`.** -/
def raw (s : Store) (id : DocId) : Result (Option (List UInt8)) :=
  match s.index.get id with
  | some loc => (s.payload loc).map some
  | none => .ok none

/-- **`Store::image`.** -/
def image (s : Store) : List UInt8 :=
  (s.stretches.map fun st => (s.file.drop st.1).take st.2).flatten ++
    (s.segments.map (·.data)).flatten

/-! ## 2. Replaying -/

/-- A frame of a replay into the segments. -/
def replayOne (s : Store) (op : UInt8) (id : DocId) (len : Nat) (frame : List UInt8) : Store :=
  let dead := s.deadBytes + (s.index.get id).elim 0 Loc.len
  let segments := active s.segments
  let off := lastLen segments + (frame.length - len)
  let segments := extend segments frame
  let s := { s with
    segments := segments
    deadBytes := dead
    totalBytes := s.totalBytes + frame.length }
  if op = opPut then
    { s with
      index := s.index.insert id (.held (segments.length - 1) (off % 2 ^ 32) (len % 2 ^ 32))
      nextId := if s.nextId ≤ id then (id + 1) % 2 ^ 64 else s.nextId }
  else if op = opDel then
    { s with index := s.index.remove id, deadBytes := dead + frame.length }
  else s

/-- A frame of a replay out of the file, its payload `pos` bytes into the record at `at_`. -/
def mapOne (s : Store) (op : UInt8) (id : DocId) (len frameLen pos : Nat) (at_ : Nat) : Store :=
  let dead := s.deadBytes + (s.index.get id).elim 0 Loc.len
  let s := { s with deadBytes := dead, totalBytes := s.totalBytes + frameLen }
  if op = opPut then
    { s with
      index := s.index.insert id (.file (at_ + pos) (len % 2 ^ 32))
      nextId := if s.nextId ≤ id then (id + 1) % 2 ^ 64 else s.nextId }
  else if op = opDel then
    { s with index := s.index.remove id, deadBytes := dead + frameLen }
  else s

/-- The frames of `buf` from `pos` on, each given to `one` with where it starts and where its
payload does: what is made of them, where the walk stopped and how many there were.  A frame the
buffer ends in is left; a sum past `2 ^ 64` is the panic of a build with overflow checks. -/
def walkFrames {σ : Type} (buf : List UInt8)
    (one : σ → UInt8 → DocId → Nat → Nat → Nat → σ) : Nat → Nat → σ → Nat →
    Except Fault Nat × σ × Nat
  | 0, pos, s, n => (.ok n, s, pos)
  | fuel + 1, pos, s, n =>
    if pos < buf.length then
      match readHead buf ⟨pos, []⟩ with
      | (.error e, _) => (.error e, s, pos)
      | (.ok (op, id, len), c) =>
        if 2 ^ 64 ≤ c.pos + len then (.error .overflow, s, pos)
        else if buf.length < c.pos + len then (.ok n, s, pos)
        else walkFrames buf one fuel (c.pos + len) (one s op id len pos c.pos) (n + 1)
    else (.ok n, s, pos)

/-- **`Store::replay`**: the store it leaves, and how many frames there were. -/
def replay (s : Store) (buf : List UInt8) : Except Fault Nat × Store :=
  let (r, s, _) := walkFrames buf
    (fun s op id len start pos =>
      s.replayOne op id len ((buf.drop start).take (pos + len - start))) buf.length 0 s 0
  (r, s)

/-- A stretch more, of the file mapped already or of this one. -/
def addStretch (s : Store) (base : List UInt8) (st : Nat × Nat) : Store :=
  { s with base := some (s.base.elim base fun b => b.1, s.stretches ++ [st]) }

/-- **`Store::replay_mapped`**: the record of `len` bytes at `at_` in a mapped file. -/
def replayMapped (s : Store) (base : List UInt8) (at_ len : Nat) : Except Fault Nat × Store :=
  if base.length < at_ + len then
    (.error (.corrupt "data record outside the mapped file"), s)
  else
    let buf := (base.drop at_).take len
    match walkFrames buf
      (fun s op id len start pos => s.mapOne op id len (pos + len - start) pos at_) buf.length 0 s
      0 with
    | (.error e, s, _) => (.error e, s)
    | (.ok n, s, pos) => (.ok n, s.addStretch base (at_, pos))

/-! ## 3. What a store holds -/

/-- The image, a chunk a stretch and a chunk a segment. -/
def chunks (s : Store) : List (List UInt8) :=
  s.stretches.map (fun st => (s.file.drop st.1).take st.2) ++ s.segments.map (·.data)

theorem image_eq (s : Store) : s.image = s.chunks.flatten := by
  rw [image, chunks, List.flatten_append]

theorem length_files (s : Store) :
    (s.stretches.map fun st => (s.file.drop st.1).take st.2).length = s.stretches.length :=
  List.length_map _

/-- The payload at a location is the one at a place of the image, past a header in its segment or
stretch. -/
def Lies (s : Store) : Loc → Nat → Prop
  | .held seg off len, p => ∃ g, s.segments[seg]? = some g ∧ 0 < off ∧
      off + len ≤ g.data.length ∧ p = start s.chunks (s.stretches.length + seg) + off
  | .file at_ len, p => ∃ k st, s.stretches[k]? = some st ∧ st.1 < at_ ∧
      at_ + len ≤ st.1 + st.2 ∧ p = start s.chunks k + (at_ - st.1)

/-- **A store holds a log**, the parts of it filed in the stretches and held in the segments. -/
structure Holds (s : Store) (filed held : List (List Record)) : Prop where
  files : List.Forall₂ (fun st log => st.1 + st.2 ≤ s.file.length ∧
    (s.file.drop st.1).take st.2 = bytes log) s.stretches filed
  segs : List.Forall₂ (fun g log => g.data = bytes log) s.segments held
  some_segment : s.segments ≠ []
  good : s.index.Good
  points : ∀ id, Option.Rel (fun l pn => pn.2 = l.len ∧ s.Lies l pn.1) (s.index.get id)
    ((tally (filed.flatten ++ held.flatten)).spot id)
  total : s.totalBytes = (tally (filed.flatten ++ held.flatten)).len
  dead : s.deadBytes = (tally (filed.flatten ++ held.flatten)).dead

theorem holds_new : Holds new [] [[]] where
  files := .nil
  segs := .cons rfl .nil
  some_segment := by simp [new]
  good := IdIndex.good_empty
  points id := by
    rw [show new.index.get id = none from IdIndex.get_empty id]
    exact .none
  total := rfl
  dead := rfl

section Holds

variable {s : Store} {filed held : List (List Record)}

theorem map_eq_of_forall₂ {α β γ : Type} {f : α → γ} {g : β → γ} {l : List α} {l' : List β}
    (h : List.Forall₂ (fun a b => f a = g b) l l') : l.map f = l'.map g := by
  induction h with
  | nil => rfl
  | cons hab _ ih => rw [List.map_cons, List.map_cons, hab, ih]

/-- **The image is the log's bytes.** -/
theorem Holds.image_eq (h : Holds s filed held) :
    s.image = bytes (filed.flatten ++ held.flatten) := by
  have hfiles : s.stretches.map (fun st => (s.file.drop st.1).take st.2) = filed.map bytes :=
    map_eq_of_forall₂ (h.files.imp fun _ _ hab => hab.2)
  have hsegs : s.segments.map (·.data) = held.map bytes := map_eq_of_forall₂ h.segs
  rw [image, hfiles, hsegs, bytes_append, bytes_flatten, bytes_flatten]

/-- A stretch is a chunk of the image. -/
theorem chunks_file {k : Nat} {st : Nat × Nat} (h : s.stretches[k]? = some st) :
    s.chunks[k]? = some ((s.file.drop st.1).take st.2) := by
  obtain ⟨hk, -⟩ := List.getElem?_eq_some_iff.mp h
  rw [chunks, List.getElem?_append_left (by rw [List.length_map]; exact hk), List.getElem?_map, h]
  rfl

/-- So is a segment, past the stretches. -/
theorem chunks_held {k : Nat} {g : Segment} (h : s.segments[k]? = some g) :
    s.chunks[s.stretches.length + k]? = some g.data := by
  rw [chunks, List.getElem?_append_right (by simp), List.length_map, Nat.add_sub_cancel_left,
    List.getElem?_map, h]
  rfl

/-- **What is read at a location is what stands there in the image.** -/
theorem Holds.payload_eq (h : Holds s filed held) {l : Loc} {p : Nat} (hl : s.Lies l p) :
    s.payload l = .ok ((s.image.drop p).take l.len) := by
  rw [Store.image_eq]
  cases l with
  | held seg off len =>
    obtain ⟨g, hg, -, hle, rfl⟩ := hl
    rw [payload, hg]
    dsimp only [Loc.len]
    rw [if_neg (by omega), slice_chunk (chunks_held hg) hle]
  | file at_ len =>
    obtain ⟨k, st, hst, hfrom, hto, rfl⟩ := hl
    obtain ⟨log, -, hfile, -⟩ : ∃ log, log ∈ filed ∧ st.1 + st.2 ≤ s.file.length ∧
        (s.file.drop st.1).take st.2 = bytes log := by
      obtain ⟨hk, hget⟩ := List.getElem?_eq_some_iff.mp hst
      have hrel := h.files.get hk (h.files.length_eq ▸ hk)
      rw [List.get_eq_getElem, hget] at hrel
      exact ⟨_, List.get_mem _ _, hrel⟩
    obtain ⟨file, stretches, hbase⟩ : ∃ file stretches, s.base = some (file, stretches) := by
      cases hb : s.base with
      | none => simp [stretches, hb] at hst
      | some b => exact ⟨b.1, b.2, rfl⟩
    have hf : s.file = file := by rw [Store.file, hbase]; rfl
    rw [hf] at hfile
    simp only [payload, hbase, Loc.len]
    have hlen : at_ - st.1 + len ≤ ((s.file.drop st.1).take st.2).length := by
      rw [List.length_take, List.length_drop, hf]
      omega
    rw [if_neg (by omega), slice_chunk (chunks_file hst) hlen, hf, List.drop_take, List.drop_drop,
      List.take_take, Nat.add_sub_cancel' (Nat.le_of_lt hfrom), Nat.min_eq_left (by omega)]

/-- **`raw` is what the log stores.** -/
theorem Holds.raw_eq (h : Holds s filed held) (id : DocId) :
    s.raw id = .ok (stored (filed.flatten ++ held.flatten) id) := by
  have hp := h.points id
  rw [← tally_stored, raw]
  cases hget : s.index.get id with
  | none =>
    rw [hget] at hp
    cases hspot : (tally (filed.flatten ++ held.flatten)).spot id with
    | none => rfl
    | some pn =>
      rw [hspot] at hp
      cases hp
  | some l =>
    rw [hget] at hp
    cases hspot : (tally (filed.flatten ++ held.flatten)).spot id with
    | none =>
      rw [hspot] at hp
      cases hp
    | some pn =>
      rw [hspot] at hp
      obtain ⟨hlen, hlies⟩ : pn.2 = l.len ∧ s.Lies l pn.1 := by
        cases hp with
        | some hrel => exact hrel
      dsimp only
      rw [h.payload_eq hlies, h.image_eq, Option.map_some, hlen]
      rfl

/-- **`ids` are the ids that have a document, ascending.** -/
theorem Holds.mem_ids (h : Holds s filed held) (id : DocId) :
    id ∈ s.ids ↔ (stored (filed.flatten ++ held.flatten) id).isSome = true := by
  rw [ids, h.good.mem_ids, ← tally_stored, Option.isSome_map]
  have hp := h.points id
  cases hget : s.index.get id <;>
    cases hspot : (tally (filed.flatten ++ held.flatten)).spot id <;> rw [hget, hspot] at hp
  · simp
  · cases hp
  · cases hp
  · simp

end Holds

end Store

end Segments

end Fenec
