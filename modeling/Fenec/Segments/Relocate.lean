/-
# A store pointed at its image

A checkpoint writes a store's image into a new file and points the store at it without reading it
back: the frames as they stand, so that each location moves by where its stretch or segment landed
(`relocateImage`), or the live documents alone in id order (`relocateLive`).

Where a location lands in the image is found by its place in the old file (`imagePlace`): the last
stretch that starts at or before it.  That is the stretch it is in when the stretches are `Orderly`,
one after another in the file as a file only grows, and the location is inside one.
-/
import Fenec.Segments.Rollback

namespace Fenec

open Lib Reader Codec Chunks

namespace Segments

namespace Store

/-! ## 1. Where things land -/

/-- Where each stretch is in the file and in an image, the first at `to_` of it. -/
def stretchStarts : Nat → List (Nat × Nat) → List (Nat × Nat)
  | _, [] => []
  | to_, st :: stretches => (st.1, to_) :: stretchStarts (to_ + st.2) stretches

/-- The bytes of the stretches. -/
def stretchesLen (s : Store) : Nat := (s.stretches.map (·.2)).sum

/-- Where each segment is in an image: `image_starts`' second part. -/
def segmentStarts (s : Store) : List Nat := startsFrom s.stretchesLen s.segments

/-- The image's length: its third. -/
def imageLen (s : Store) : Nat := s.stretchesLen + (s.segments.map (·.data.length)).sum

/-- **`image_place`.**  `partition_point` is how many stretches, one after another, start at or
before the place; there is one at least, or the source would panic. -/
def imagePlace (stretches : List (Nat × Nat)) (segments : List Nat) : Loc → Nat
  | .file at_ _ =>
    match stretches[(stretches.takeWhile fun st => st.1 ≤ at_).length - 1]? with
    | some st => st.2 + (at_ - st.1)
    | none => 0
  | .held seg off _ => (segments[seg]?).getD 0 + off

/-- Where a location of the store lands. -/
def placeOf (s : Store) (l : Loc) : Nat :=
  imagePlace (stretchStarts 0 s.stretches) s.segmentStarts l

/-- **`Store::relocate_image`.** -/
def relocateImage (s : Store) (base : List UInt8) (at_ : Nat) : Store :=
  { s with
    index := (s.index.relocate (fun u _ l => (.file (at_ + s.placeOf l) l.len, u)) ()).1
    base := some (base, [(at_, s.imageLen)])
    segments := [.empty] }

/-- A live document's place in the image of them alone, past `to_` bytes of the file. -/
def liveStep (to_ : Nat) (id : DocId) (l : Loc) : Loc × Nat :=
  (.file (to_ + (header opPut id l.len).length) l.len,
    to_ + (header opPut id l.len).length + l.len)

/-- **`Store::relocate_live`.** -/
def relocateLive (s : Store) (base : List UInt8) (at_ : Nat) : Store :=
  let r := s.index.relocate liveStep at_
  { s with
    index := r.1
    totalBytes := r.2 - at_
    deadBytes := 0
    base := some (base, [(at_, r.2 - at_)])
    segments := [.empty] }

/-- The live documents of `ids`, each a put. -/
def liveFrames (s : Store) : List DocId → Result (List UInt8)
  | [] => .ok []
  | id :: ids =>
    match s.index.get id with
    | none => liveFrames s ids
    | some loc => do
      let payload ← s.payload loc
      let rest ← liveFrames s ids
      .ok (frame opPut id payload ++ rest)

/-- **`Store::write_live`**: what it writes. -/
def writeLive (s : Store) : Result (List UInt8) := s.liveFrames s.index.ids

/-! ## 2. Stretches in order -/

/-- A place and a length inside a stretch, past its start. -/
def Inside (stretches : List (Nat × Nat)) (at_ len : Nat) : Prop :=
  ∃ st ∈ stretches, st.1 < at_ ∧ at_ + len ≤ st.1 + st.2

/-- **The stretches one after another in the file, and what is read from it inside them.** -/
structure Orderly (s : Store) : Prop where
  ascending : s.stretches.Pairwise fun a b => a.1 + a.2 ≤ b.1
  inside : ∀ id at_ len, s.index.get id = some (.file at_ len) → Inside s.stretches at_ len

theorem orderly_new : Orderly new where
  ascending := List.Pairwise.nil
  inside id at_ len h := by
    rw [show new.index.get id = none from IdIndex.get_empty id] at h
    cases h

section Place

variable {s : Store} {held : List (List Record)}

/-- A stretch that the next one, or none, starts past. -/
theorem imagePlace_last {to_ at_ : Nat} {st : Nat × Nat} {stretches : List (Nat × Nat)}
    (hst : st.1 ≤ at_) (hnext : ∀ next ∈ stretches.head?, at_ < next.1) (segments : List Nat)
    (len : Nat) : imagePlace (stretchStarts to_ (st :: stretches)) segments (.file at_ len) =
      to_ + (at_ - st.1) := by
  rw [stretchStarts, imagePlace, List.takeWhile_cons_of_pos (by simpa using hst),
    List.length_cons, Nat.add_sub_cancel]
  cases stretches with
  | nil => rfl
  | cons next stretches =>
    have hlt := hnext next rfl
    rw [stretchStarts, List.takeWhile_cons_of_neg (by simpa using hlt)]
    rfl

/-- One that the next one does not. -/
theorem imagePlace_next {to_ at_ : Nat} {st next : Nat × Nat} {stretches : List (Nat × Nat)}
    (hst : st.1 ≤ at_) (hnext : next.1 ≤ at_) (segments : List Nat) (len : Nat) :
    imagePlace (stretchStarts to_ (st :: next :: stretches)) segments (.file at_ len) =
      imagePlace (stretchStarts (to_ + st.2) (next :: stretches)) segments (.file at_ len) := by
  rw [stretchStarts, imagePlace, List.takeWhile_cons_of_pos (by simpa using hst), stretchStarts,
    List.takeWhile_cons_of_pos (by simpa using hnext), imagePlace,
    List.takeWhile_cons_of_pos (by simpa using hnext), List.length_cons, List.length_cons,
    Nat.add_sub_cancel, Nat.add_sub_cancel, List.getElem?_cons_succ]

/-- **A place inside a stretch lands where the stretch does.**  One at the very end of it, with
nothing to read, may be taken to be in the next, and lands there all the same. -/
theorem imagePlace_inside {segments : List Nat} {at_ len : Nat} {stretches : List (Nat × Nat)} :
    ∀ {to_ : Nat} {before after : List (Nat × Nat)} {st : Nat × Nat},
    stretches.Pairwise (fun a b => a.1 + a.2 ≤ b.1) → stretches = before ++ st :: after →
    st.1 ≤ at_ → at_ + len ≤ st.1 + st.2 →
    imagePlace (stretchStarts to_ stretches) segments (.file at_ len) =
      to_ + ((before.map (·.2)).sum + (at_ - st.1)) := by
  induction stretches with
  | nil =>
    intro to_ before after st _ hsplit
    simp at hsplit
  | cons first stretches ih =>
    intro to_ before after st hasc hsplit hfrom hin
    obtain ⟨hfirst, hrest⟩ := List.pairwise_cons.mp hasc
    cases before with
    | nil =>
      rw [List.nil_append, List.cons.injEq] at hsplit
      obtain ⟨rfl, rfl⟩ := hsplit
      rw [List.map_nil, List.sum_nil, Nat.zero_add]
      cases stretches with
      | nil => exact imagePlace_last hfrom (fun _ h => by cases h) segments len
      | cons next rest =>
        by_cases hnext : next.1 ≤ at_
        · -- both end and start there
          have hpast := hfirst next (List.mem_cons_self ..)
          rw [imagePlace_next hfrom hnext,
            ih hrest (show next :: rest = [] ++ next :: rest from rfl) hnext (by omega)]
          simp only [List.map_nil, List.sum_nil]
          omega
        · refine imagePlace_last hfrom (fun n hn => ?_) segments len
          cases hn
          omega
    | cons b before =>
      rw [List.cons_append, List.cons.injEq] at hsplit
      obtain ⟨rfl, rfl⟩ := hsplit
      -- the next stretch starts before this one does
      have hhead : ∃ next rest, before ++ st :: after = next :: rest ∧ next.1 ≤ at_ := by
        cases before with
        | nil => exact ⟨st, after, rfl, hfrom⟩
        | cons next before =>
          refine ⟨next, before ++ st :: after, rfl, ?_⟩
          have hlt := (List.pairwise_cons.mp hrest).1 st (by simp)
          omega
      obtain ⟨next, rest, heq, hnext⟩ := hhead
      have hb : first.1 ≤ at_ := by
        have hlt := hfirst st (by simp)
        omega
      rw [heq, imagePlace_next hb hnext, ← heq, ih hrest rfl hfrom hin, List.map_cons,
        List.sum_cons]
      omega

/-- The bytes stretches take are the ones they say. -/
theorem length_slices {base : List UInt8} {stretches : List (Nat × Nat)}
    (hst : ∀ st ∈ stretches, st.1 + st.2 ≤ base.length) :
    (slices base stretches).length = (stretches.map (·.2)).sum := by
  induction stretches with
  | nil => rfl
  | cons st stretches ih =>
    have hin := hst st (List.mem_cons_self ..)
    have hslice : ((base.drop st.1).take st.2).length = st.2 := by
      rw [List.length_take, List.length_drop]
      omega
    rw [← List.singleton_append, slices_append, List.length_append,
      ih fun st h => hst st (List.mem_cons_of_mem _ h), List.map_append, List.sum_append,
      show slices base [st] = _ from slices_singleton st.1 st.2, hslice]
    simp

theorem Fit.imageLen_eq (h : Fit s held) : s.imageLen = s.image.length := by
  rw [imageLen, stretchesLen, h.image_eq, List.length_append, length_slices h.files, h.held_length]

/-- **A location lands where its payload is in the image**, which does not start with one. -/
theorem Fit.lands (h : Fit s held) (ho : Orderly s) {id : DocId} {l : Loc}
    (hl : s.index.get id = some l) : ∃ p, s.payload l = .ok p ∧ p.length = l.len ∧
      0 < s.placeOf l ∧ s.placeOf l + p.length ≤ s.image.length ∧
      (s.image.drop (s.placeOf l)).take p.length = p := by
  cases l with
  | held seg off len =>
    obtain ⟨r, pre, post, -, -, hlog, rfl, rfl⟩ := h.points id _ hl
    obtain ⟨hlt, hget⟩ := List.getElem?_eq_some_iff.mp hlog
    have hflat : held.flatten = (held.take seg).flatten ++
        ((pre ++ r :: post) ++ (held.drop (seg + 1)).flatten) := by
      conv_lhs => rw [← List.take_append_drop seg held, List.drop_eq_getElem_cons hlt, hget]
      rw [List.flatten_append, List.flatten_cons]
    have himage : s.image = (slices s.file s.stretches ++ bytes (held.take seg).flatten ++
        bytes pre ++ r.header) ++ (r.payload ++ (bytes post ++
          bytes (held.drop (seg + 1)).flatten)) := by
      rw [h.image_eq, hflat]
      simp only [bytes_append, bytes_cons, r.frame_eq, List.append_assoc]
    have hplace : s.placeOf (.held seg ((bytes pre).length + r.header.length) r.payload.length) =
        (slices s.file s.stretches ++ bytes (held.take seg).flatten ++ bytes pre ++
          r.header).length := by
      rw [placeOf, imagePlace, segmentStarts, startsFrom_get h.segs _ hlt]
      simp only [Option.getD_some, List.length_append, length_slices h.files, stretchesLen]
      omega
    refine ⟨r.payload, h.payload_held hlog, rfl, ?_, ?_, ?_⟩
    · have hhead := r.header_pos
      rw [hplace, List.length_append]
      omega
    · rw [hplace, himage]
      simp only [List.length_append]
      omega
    · rw [hplace, himage, List.drop_left, List.take_left]
  | file at_ len =>
    obtain ⟨st, hmem, hfrom, hin⟩ := ho.inside id at_ len hl
    obtain ⟨before, after, hsplit⟩ := List.append_of_mem hmem
    have hfile := h.files st hmem
    have hplace : s.placeOf (.file at_ len) = (slices s.file before).length + (at_ - st.1) := by
      rw [placeOf, imagePlace_inside ho.ascending hsplit (Nat.le_of_lt hfrom) hin, Nat.zero_add,
        length_slices fun st hst => h.files st (by rw [hsplit]; exact List.mem_append_left _ hst)]
    have himage : s.image = slices s.file before ++ ((s.file.drop st.1).take st.2 ++
        (slices s.file after ++ bytes held.flatten)) := by
      rw [h.image_eq, hsplit, slices_append, ← List.singleton_append, slices_append,
        show slices s.file [st] = _ from slices_singleton st.1 st.2]
      simp only [List.append_assoc]
    have hstlen : ((s.file.drop st.1).take st.2).length = st.2 := by
      rw [List.length_take, List.length_drop]
      omega
    have hlen : ((s.file.drop at_).take len).length = len := by
      rw [List.length_take, List.length_drop]
      omega
    refine ⟨_, h.payload_file hl, hlen, by omega, ?_, ?_⟩
    · rw [hlen, hplace, himage]
      simp only [List.length_append, hstlen]
      omega
    · rw [hlen, hplace, himage, ← List.drop_drop, List.drop_left,
        List.drop_append_of_le_length (by omega), List.take_append_of_le_length, List.drop_take,
        List.drop_drop, List.take_take, Nat.add_sub_cancel' (Nat.le_of_lt hfrom),
        Nat.min_eq_left (by omega)]
      rw [List.length_drop, hstlen]
      omega

end Place

/-! ## 3. The image as it stands -/

section Image

variable {s : Store} {held : List (List Record)} {base : List UInt8} {at_ : Nat}

theorem get_relocate {ix : IdIndex Loc} (h : ix.Good) (g : DocId → Loc → Loc) (id : DocId) :
    (ix.relocate (fun (u : Unit) k l => (g k l, u)) ()).1.get id = (ix.get id).map (g id) := by
  have hgo : ∀ l : List (Nat × Loc), (IdIndex.relocatePairs (fun (u : Unit) k l => (g k l, u)) l
      ()).1 = l.map fun e => (e.1, g e.1 e.2) := by
    intro l
    induction l with
    | nil => rfl
    | cons e l ih =>
      obtain ⟨k, v⟩ := e
      rw [IdIndex.relocatePairs, List.map_cons, ih]
  have hgood : (ix.relocate (fun (u : Unit) k l => (g k l, u)) ()).1.Good :=
    IdIndex.good_relocate h ()
  refine Option.ext fun v => ?_
  rw [← hgood.toPlaced.mem_pairs, (IdIndex.pairs_relocate ix ()).1, hgo, List.mem_map,
    Option.map_eq_some_iff]
  constructor
  · rintro ⟨⟨k, l⟩, hmem, heq⟩
    rw [Prod.mk.injEq] at heq
    obtain ⟨rfl, rfl⟩ := heq
    exact ⟨l, h.toPlaced.mem_pairs.mp hmem, rfl⟩
  · rintro ⟨l, hl, rfl⟩
    exact ⟨(id, l), h.toPlaced.mem_pairs.mpr hl, rfl⟩

/-- **Pointed at its image, a store is the store it was.** -/
theorem Fit.relocated (h : Fit s held) (ho : Orderly s)
    (hin : at_ + s.image.length ≤ base.length)
    (himage : (base.drop at_).take s.image.length = s.image) :
    Fit (s.relocateImage base at_) [[]] ∧ Same s (s.relocateImage base at_) ∧
      Orderly (s.relocateImage base at_) := by
  have hlen := h.imageLen_eq
  have hgood : (s.index.relocate (fun (u : Unit) _ l => (Loc.file (at_ + s.placeOf l) l.len, u))
      ()).1.Good := IdIndex.good_relocate h.good ()
  have hread : ∀ id, ReadsIn s base (s.index.relocate
      (fun (u : Unit) _ l => (Loc.file (at_ + s.placeOf l) l.len, u)) ()).1 id := by
    intro id
    rw [ReadsIn, get_relocate h.good fun _ l => Loc.file (at_ + s.placeOf l) l.len]
    cases hl : s.index.get id with
    | none => exact .inl ⟨rfl, rfl⟩
    | some l =>
      obtain ⟨p, hp, hplen, -, hle, hslice⟩ := h.lands ho hl
      refine .inr ⟨l, _, p, rfl, rfl, hp, at_ + s.placeOf l, by rw [hplen], by omega, ?_⟩
      -- the image is at `at_`, and the payload inside it
      rw [← himage, List.drop_take, List.take_take, List.drop_drop,
        Nat.min_eq_left (by omega)] at hslice
      exact hslice
  have hst : ∀ st ∈ [(at_, s.imageLen)], st.1 + st.2 ≤ base.length := by
    intro st hst
    rw [List.mem_singleton] at hst
    rw [hst, hlen]
    exact hin
  obtain ⟨hfit, hsame⟩ := h.filed_same hst hgood hread (by rw [slices_singleton, hlen, himage])
  refine ⟨hfit, hsame, List.pairwise_singleton _ _, fun id a n hl => ?_⟩
  have hl' := (get_relocate h.good (fun _ l => Loc.file (at_ + s.placeOf l) l.len) id).symm.trans hl
  obtain ⟨l, hwas, heq⟩ := Option.map_eq_some_iff.mp hl'
  cases heq
  obtain ⟨p, -, hplen, hpos, hle, -⟩ := h.lands ho hwas
  exact ⟨(at_, s.imageLen), List.mem_singleton_self _, by dsimp only; omega,
    by dsimp only; omega⟩

end Image

/-! ## 4. The live documents alone -/

section Live

variable {s : Store} {held : List (List Record)} {base : List UInt8} {at_ : Nat}

/-- The put a live document is written as. -/
def IsLive (s : Store) (e : DocId × Loc) (r : Record) : Prop :=
  r.op = .put ∧ r.id = e.1 ∧ s.payload e.2 = .ok r.payload ∧ r.payload.length = e.2.len

/-- **What is live is a log of puts.** -/
theorem Fit.live (h : Fit s held) : ∃ log, List.Forall₂ (IsLive s) s.index.pairs log := by
  have hgo : ∀ es : List (DocId × Loc), (∀ e ∈ es, s.index.get e.1 = some e.2) →
      ∃ log, List.Forall₂ (IsLive s) es log := by
    intro es
    induction es with
    | nil => exact fun _ => ⟨[], .nil⟩
    | cons e es ih =>
      intro hes
      obtain ⟨log, hlog⟩ := ih fun e he => hes e (List.mem_cons_of_mem _ he)
      have hl := hes e (List.mem_cons_self ..)
      obtain ⟨p, hp, hlen⟩ := h.readable hl
      obtain ⟨hpos, hid, hshort⟩ := h.small hl
      exact ⟨⟨.put, e.1, p, hpos, hid, hlen ▸ hshort⟩ :: log, .cons ⟨rfl, rfl, hp, hlen⟩ hlog⟩
  exact hgo s.index.pairs fun e he => h.good.toPlaced.mem_pairs.mp he

/-- **`write_live` writes it.** -/
theorem Fit.writeLive_eq (h : Fit s held) {log : List Record}
    (hlog : List.Forall₂ (IsLive s) s.index.pairs log) : s.writeLive = .ok (bytes log) := by
  have hgo : ∀ {es : List (DocId × Loc)} {log : List Record}, List.Forall₂ (IsLive s) es log →
      (∀ e ∈ es, s.index.get e.1 = some e.2) → s.liveFrames (es.map (·.1)) = .ok (bytes log) := by
    intro es log hlog
    induction hlog with
    | nil => exact fun _ => rfl
    | @cons e r es log hr _ ih =>
      intro hes
      obtain ⟨hop, hid, hp, -⟩ := hr
      rw [List.map_cons, liveFrames, hes e (List.mem_cons_self ..)]
      dsimp only
      rw [hp, Result.ok_bind, ih fun e he => hes e (List.mem_cons_of_mem _ he), Result.ok_bind,
        bytes_cons, Record.frame, hop, hid]
      rfl
  rw [writeLive, ← IdIndex.map_pairs]
  exact hgo hlog fun e he => h.good.toPlaced.mem_pairs.mp he

/-- Each live document's place is where its put is in the record. -/
theorem relocate_live {es : List (DocId × Loc)} {log : List Record}
    (hlog : List.Forall₂ (IsLive s) es log) : ∀ to_ : Nat,
    (IdIndex.relocatePairs liveStep es to_).2 = to_ + (bytes log).length ∧
      ∀ e' ∈ (IdIndex.relocatePairs liveStep es to_).1, ∃ e ∈ es, ∃ before r after,
        log = before ++ r :: after ∧ IsLive s e r ∧
        e' = (r.id, .file (to_ + (bytes before).length + r.header.length) r.payload.length) := by
  induction hlog with
  | nil => exact fun to_ => ⟨rfl, fun e' he' => by cases he'⟩
  | @cons e r es log hr _ ih =>
    intro to_
    obtain ⟨k, l⟩ := e
    have hhead : (header opPut k l.len).length = r.header.length := by
      rw [Record.header, hr.1, hr.2.1, hr.2.2.2]
      rfl
    have hlen : r.payload.length = l.len := hr.2.2.2
    have hid : r.id = k := hr.2.1
    have hnext : (liveStep to_ k l).2 = to_ + r.frame.length := by
      rw [liveStep, hhead, r.length_frame, hlen, Nat.add_assoc]
    obtain ⟨hend, hmem⟩ := ih (liveStep to_ k l).2
    rw [IdIndex.relocatePairs]
    refine ⟨?_, fun e' he' => ?_⟩
    · rw [hend, hnext, bytes_cons, List.length_append, Nat.add_assoc]
    · rcases List.mem_cons.mp he' with rfl | he'
      · refine ⟨(k, l), List.mem_cons_self .., [], r, log, rfl, hr, ?_⟩
        rw [liveStep, hhead, hlen, hid]
        rfl
      · obtain ⟨e, he, before, q, after, rfl, hq, rfl⟩ := hmem e' he'
        refine ⟨e, List.mem_cons_of_mem _ he, r :: before, q, after, rfl, hq, ?_⟩
        rw [hnext, bytes_cons, List.length_append]
        simp only [Nat.add_assoc]

/-- A put of the record, where the file holds it. -/
theorem inFile_log {log before after : List Record} {r : Record}
    (hin : at_ + (bytes log).length ≤ base.length)
    (hlog : (base.drop at_).take (bytes log).length = bytes log)
    (hsplit : log = before ++ r :: after) :
    InFile base (.file (at_ + (bytes before).length + r.header.length) r.payload.length)
      r.payload := by
  have hbytes : bytes log = (bytes before ++ r.header) ++ (r.payload ++ bytes after) := by
    rw [hsplit, bytes_append, bytes_cons, r.frame_eq]
    simp only [List.append_assoc]
  have hsize := congrArg List.length hbytes
  simp only [List.length_append] at hsize
  refine ⟨_, rfl, by omega, ?_⟩
  have hdrop : ((base.drop at_).take (bytes log).length).drop (bytes before ++ r.header).length =
      r.payload ++ bytes after := by
    rw [hlog]
    conv_lhs => rw [hbytes, List.drop_left]
  rw [List.drop_take, List.drop_drop, List.length_append] at hdrop
  have htake := congrArg (List.take r.payload.length) hdrop
  rw [List.take_left, List.take_take, Nat.min_eq_left (by omega), ← Nat.add_assoc] at htake
  exact htake

/-- **Pointed at the image of what is live, a store answers as it did.** -/
theorem Fit.relocated_live (h : Fit s held) {log : List Record}
    (hlive : List.Forall₂ (IsLive s) s.index.pairs log)
    (hin : at_ + (bytes log).length ≤ base.length)
    (hlog : (base.drop at_).take (bytes log).length = bytes log) :
    Fit (s.relocateLive base at_) [[]] ∧ Alike s (s.relocateLive base at_) ∧
      Orderly (s.relocateLive base at_) ∧ (s.relocateLive base at_).image = bytes log ∧
      (s.relocateLive base at_).totalBytes = (bytes log).length ∧
      (s.relocateLive base at_).deadBytes = 0 := by
  have hgood : (s.index.relocate liveStep at_).1.Good := IdIndex.good_relocate h.good at_
  obtain ⟨hpairs, hst⟩ := IdIndex.pairs_relocate (f := liveStep) s.index at_
  obtain ⟨hend, hmem⟩ := relocate_live hlive at_
  have hlen : (s.index.relocate liveStep at_).2 - at_ = (bytes log).length := by
    rw [hst, hend, Nat.add_sub_cancel_left]
  -- what an id was given is where its put is
  have hgiven : ∀ {id : DocId} {l' : Loc}, (s.index.relocate liveStep at_).1.get id = some l' →
      ∃ l before r after, s.index.get id = some l ∧ s.payload l = .ok r.payload ∧
        log = before ++ r :: after ∧
        l' = .file (at_ + (bytes before).length + r.header.length) r.payload.length := by
    intro id l' hl'
    have hin' : (id, l') ∈ (IdIndex.relocatePairs liveStep s.index.pairs at_).1 := by
      rw [← hpairs]
      exact hgood.toPlaced.mem_pairs.mpr hl'
    obtain ⟨⟨k, l⟩, he, before, r, after, hsplit, hr, heq⟩ := hmem _ hin'
    rw [Prod.mk.injEq] at heq
    obtain ⟨rfl, rfl⟩ := heq
    obtain ⟨-, hid, hp, -⟩ := hr
    dsimp only at hid hp
    subst hid
    exact ⟨l, before, r, after, h.good.toPlaced.mem_pairs.mp he, hp, hsplit, rfl⟩
  have hread : ∀ id, ReadsIn s base (s.index.relocate liveStep at_).1 id := by
    intro id
    cases hl' : (s.index.relocate liveStep at_).1.get id with
    | some l' =>
      obtain ⟨l, before, r, after, hl, hp, hsplit, rfl⟩ := hgiven hl'
      exact .inr ⟨l, _, r.payload, hl, hl', hp, inFile_log hin hlog hsplit⟩
    | none =>
      -- the ids are the same
      refine .inl ⟨?_, hl'⟩
      cases hl : s.index.get id with
      | none => rfl
      | some l =>
        have hids : (s.index.relocate liveStep at_).1.ids = s.index.ids := by
          rw [← IdIndex.map_pairs, hpairs, IdIndex.keys_relocatePairs, IdIndex.map_pairs]
        have hin' := h.good.toPlaced.mem_ids.mpr ⟨l, hl⟩
        rw [← hids, hgood.toPlaced.mem_ids] at hin'
        obtain ⟨v, hv⟩ := hin'
        rw [hl'] at hv
        cases hv
  have hstin : ∀ st ∈ [(at_, (s.index.relocate liveStep at_).2 - at_)],
      st.1 + st.2 ≤ base.length := by
    intro st hst
    rw [List.mem_singleton] at hst
    rw [hst, hlen]
    exact hin
  obtain ⟨hfit, halike⟩ := h.filed_alike hstin hgood hread
  have hfit' : Fit (s.relocateLive base at_) [[]] :=
    ⟨hfit.files, hfit.segs, hfit.some_segment, hfit.low, hfit.good, fun id l hl => by
      have hp := hfit.points id l hl
      cases l with
      | held seg off len => exact hp
      | file a n => exact hp⟩
  refine ⟨hfit', ⟨halike.raw, halike.ids, halike.len⟩, ⟨List.pairwise_singleton _ _, ?_⟩, ?_, hlen,
    rfl⟩
  · intro id a n hl
    obtain ⟨l, before, r, after, -, -, hsplit, heq⟩ := hgiven hl
    cases heq
    have hsize : (bytes log).length =
        (bytes before).length + (r.header.length + r.payload.length + (bytes after).length) := by
      rw [hsplit, bytes_append, bytes_cons, List.length_append, List.length_append, r.length_frame]
    have hhead := r.header_pos
    exact ⟨_, List.mem_singleton_self _, by dsimp only; omega, by dsimp only; omega⟩
  · rw [hfit'.image_eq, List.flatten_cons, List.flatten_nil, List.append_nil, bytes_nil,
      List.append_nil]
    show slices base [(at_, (s.index.relocate liveStep at_).2 - at_)] = bytes log
    rw [slices_singleton, hlen, hlog]

end Live

end Store

end Segments

end Fenec
