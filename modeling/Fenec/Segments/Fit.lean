/-
# Stores that can be read

`Holds` ties a store to the whole log behind it.  What moves documents about (a handover to the
file, a block put back, a checkpoint) needs less and keeps less: that every id the index knows can
be read where it points.  `Fit s held` says so: the segments are the logs `held`, a location in a
segment is a put of that id there, and one in the file is inside it.

Two fit stores are the `Same` when nothing a caller can ask tells them apart.  They stay so
whatever is appended to both (`Same.append`): an append answers by what the store answered before
and not by where anything was.
-/
import Fenec.Segments.Replay

namespace Fenec

open Lib Reader Codec Chunks

namespace Segments

namespace Store

/-! ## 1. Fit stores -/

/-- What a location of `id` is to be: a put of the id in a segment, or inside the file. -/
def Points (s : Store) (held : List (List Record)) (id : DocId) : Loc → Prop
  | .held seg off len => ∃ (r : Record) (pre post : List Record), r.op = .put ∧ r.id = id ∧
      held[seg]? = some (pre ++ r :: post) ∧ off = (bytes pre).length + r.header.length ∧
      len = r.payload.length
  | .file at_ len => s.base.isSome = true ∧ at_ + len ≤ s.file.length ∧ id < 2 ^ 64 ∧ len < 2 ^ 32

/-- **A store that can be read**, its segments the logs `held`. -/
structure Fit (s : Store) (held : List (List Record)) : Prop where
  files : ∀ st ∈ s.stretches, st.1 + st.2 ≤ s.file.length
  segs : List.Forall₂ (fun g log => g.data = bytes log) s.segments held
  some_segment : s.segments ≠ []
  /-- a frame starts in a segment that is not full -/
  low : ∀ log ∈ held, ∀ pre r post, log = pre ++ r :: post → (bytes pre).length < segmentMax
  good : s.index.Good
  points : ∀ id l, s.index.get id = some l → s.Points held id l

theorem fit_new : Fit new [[]] where
  files st hst := by cases hst
  segs := .cons rfl .nil
  some_segment := by simp [new]
  low log hlog pre r post heq := by
    rw [List.mem_singleton] at hlog
    subst hlog
    simp at heq
  good := IdIndex.good_empty
  points id l hl := by
    rw [show new.index.get id = none from IdIndex.get_empty id] at hl
    cases hl

section Reading

variable {s t : Store} {held held' : List (List Record)}

/-- A segment's bytes are its log's. -/
theorem Fit.segment (h : Fit s held) {seg : Nat} {log : List Record} (hlog : held[seg]? = some log) :
    ∃ g, s.segments[seg]? = some g ∧ g.data = bytes log := by
  obtain ⟨hk, hget⟩ := List.getElem?_eq_some_iff.mp hlog
  have hk' : seg < s.segments.length := by rw [h.segs.length_eq]; exact hk
  have hrel := h.segs.get hk' hk
  rw [List.get_eq_getElem, List.get_eq_getElem, hget] at hrel
  exact ⟨_, List.getElem?_eq_getElem hk', hrel⟩

/-- **A record in a segment reads as its payload.** -/
theorem Fit.payload_held (h : Fit s held) {seg : Nat} {pre post : List Record} {r : Record}
    (hlog : held[seg]? = some (pre ++ r :: post)) :
    s.payload (.held seg ((bytes pre).length + r.header.length) r.payload.length) =
      .ok r.payload := by
  obtain ⟨g, hg, hdata⟩ := h.segment hlog
  have hbytes : g.data = (bytes pre ++ r.header) ++ (r.payload ++ bytes post) := by
    rw [hdata, bytes_append, bytes_cons, r.frame_eq]
    simp only [List.append_assoc]
  have hlen : (bytes pre).length + r.header.length = (bytes pre ++ r.header).length := by
    rw [List.length_append]
  rw [payload, hg]
  dsimp only
  rw [if_neg (by rw [hbytes]; simp only [List.length_append]; omega), hbytes, hlen, List.drop_left,
    List.take_left]

theorem Fit.payload_file (h : Fit s held) {id : DocId} {at_ len : Nat}
    (hl : s.index.get id = some (.file at_ len)) :
    s.payload (.file at_ len) = .ok ((s.file.drop at_).take len) := by
  obtain ⟨hbase, hle, -⟩ := h.points id _ hl
  obtain ⟨b, hb⟩ := Option.isSome_iff_exists.mp hbase
  have hfile : s.file = b.1 := by rw [file, hb]; rfl
  rw [hfile] at hle
  simp only [payload, hb, hfile]
  rw [if_neg (by omega)]

/-- **Every location the index has can be read**, and is as long as it says. -/
theorem Fit.readable (h : Fit s held) {id : DocId} {l : Loc} (hl : s.index.get id = some l) :
    ∃ p, s.payload l = .ok p ∧ p.length = l.len := by
  have hp := h.points id l hl
  cases l with
  | held seg off len =>
    obtain ⟨r, pre, post, -, -, hlog, rfl, rfl⟩ := hp
    exact ⟨r.payload, h.payload_held hlog, rfl⟩
  | file at_ len =>
    refine ⟨_, h.payload_file hl, ?_⟩
    rw [List.length_take, List.length_drop]
    have hle := hp.2.1
    show min len _ = len
    omega

/-- Ids are `u64`s and lengths `u32`s. -/
theorem Fit.small (h : Fit s held) {id : DocId} {l : Loc} (hl : s.index.get id = some l) :
    1 ≤ id ∧ id < 2 ^ 64 ∧ l.len < 2 ^ 32 := by
  have hpos : 1 ≤ id := by
    rcases Nat.eq_zero_or_pos id with rfl | hpos
    · rw [h.good.toPlaced.get_zero] at hl
      cases hl
    · exact hpos
  have hp := h.points id l hl
  cases l with
  | held seg off len =>
    obtain ⟨r, pre, post, -, rfl, -, -, rfl⟩ := hp
    exact ⟨hpos, r.id_lt, r.short⟩
  | file at_ len => exact ⟨hpos, hp.2.2⟩

/-- What an id reads as is whether and how it is in the index. -/
theorem Fit.raw_some (h : Fit s held) {id : DocId} {l : Loc} (hl : s.index.get id = some l) :
    ∃ p, s.raw id = .ok (some p) ∧ p.length = l.len ∧ s.payload l = .ok p := by
  obtain ⟨p, hp, hlen⟩ := h.readable hl
  refine ⟨p, ?_, hlen, hp⟩
  rw [raw, hl]
  dsimp only
  rw [hp]
  rfl

theorem raw_none {id : DocId} (hl : s.index.get id = none) : s.raw id = .ok none := by
  rw [raw, hl]

/-- How long the version of an id is. -/
theorem Fit.superseded (h : Fit s held) (id : DocId) {p : Option (List UInt8)}
    (hraw : s.raw id = .ok p) : (s.index.get id).elim 0 Loc.len = p.elim 0 List.length := by
  cases hl : s.index.get id with
  | none =>
    rw [raw_none hl] at hraw
    cases hraw
    rfl
  | some l =>
    obtain ⟨q, hq, hlen, -⟩ := h.raw_some hl
    rw [hq] at hraw
    cases hraw
    exact hlen.symm

theorem Fit.raw_ok (h : Fit s held) (id : DocId) : ∃ p, s.raw id = .ok p := by
  cases hl : s.index.get id with
  | none => exact ⟨none, raw_none hl⟩
  | some l =>
    obtain ⟨p, hp, -, -⟩ := h.raw_some hl
    exact ⟨some p, hp⟩

theorem Fit.mem_ids (h : Fit s held) (id : DocId) : id ∈ s.ids ↔ s.raw id ≠ .ok none := by
  rw [ids, h.good.mem_ids]
  cases hl : s.index.get id with
  | none =>
    rw [raw_none hl]
    simp
  | some l =>
    obtain ⟨p, hp, -, -⟩ := h.raw_some hl
    rw [hp]
    simp

/-- **What the ids read as is all there is to ask of fit stores.** -/
theorem Fit.alike (hs : Fit s held) (ht : Fit t held') (h : ∀ id, t.raw id = s.raw id) :
    Alike s t := by
  obtain ⟨hids, hcount⟩ := ht.good.ids_eq hs.good fun id => by
    rw [show id ∈ t.index.ids ↔ _ from ht.mem_ids id, show id ∈ s.index.ids ↔ _ from hs.mem_ids id,
      h]
  exact ⟨h, hids, hcount⟩

end Reading

/-! ## 2. A record more -/

section Append

variable {s t : Store} {held held' : List (List Record)}

/-- The logs once a record is appended: onto the last, or alone where that one is full. -/
theorem active_logs {segments : List Segment} (hsome : segments ≠ [])
    (hsegs : List.Forall₂ (fun g log => g.data = bytes log) segments held) :
    ∃ init g held₁ log, active segments = init ++ [g] ∧ g.data.length < segmentMax ∧
      List.Forall₂ (fun g log => g.data = bytes log) init held₁ ∧ g.data = bytes log ∧
      (held = held₁ ++ [log] ∨ held = held₁ ∧ log = []) := by
  obtain ⟨init, last, rfl⟩ : ∃ init last, segments = init ++ [last] :=
    ⟨_, _, (List.dropLast_append_getLast hsome).symm⟩
  obtain ⟨held₁, log, rfl, hinit, hlast⟩ := forall₂_concat_left hsegs
  unfold active
  rw [List.getLast?_concat]
  dsimp only
  split
  · refine ⟨init ++ [{ last with sealed := true }], .empty, held₁ ++ [log], [], ?_, by decide,
      List.rel_append hinit (.cons hlast .nil), rfl, .inr ⟨rfl, rfl⟩⟩
    rw [List.dropLast_concat, List.append_assoc]
    rfl
  · next hfull => exact ⟨init, last, held₁, log, rfl, by omega, hinit, hlast, .inl rfl⟩

/-- A log grown by a record is still there, and where it was. -/
theorem logs_grown {held₁ : List (List Record)} {log : List Record} (r : Record)
    (h : held = held₁ ++ [log] ∨ held = held₁ ∧ log = []) {seg : Nat} {x : List Record}
    (hx : held[seg]? = some x) : (held₁ ++ [log ++ [r]]).take seg = held.take seg ∧
      ∃ more, (held₁ ++ [log ++ [r]])[seg]? = some (x ++ more) := by
  obtain ⟨hk, -⟩ := List.getElem?_eq_some_iff.mp hx
  rcases h with rfl | ⟨rfl, rfl⟩
  · rw [List.length_append, List.length_singleton] at hk
    refine ⟨by rw [List.take_append_of_le_length (by omega),
      List.take_append_of_le_length (by omega)], ?_⟩
    by_cases hlt : seg < held₁.length
    · rw [List.getElem?_append_left hlt] at hx
      exact ⟨[], by rw [List.getElem?_append_left hlt, hx, List.append_nil]⟩
    · obtain rfl : seg = held₁.length := by omega
      rw [List.getElem?_concat_length] at hx
      cases hx
      exact ⟨[r], List.getElem?_concat_length⟩
  · exact ⟨List.take_append_of_le_length (Nat.le_of_lt hk), [],
      by rw [List.getElem?_append_left hk, hx, List.append_nil]⟩

/-- Where an append puts a record's payload. -/
theorem Fit.nextLoc_eq {init : List Segment} {g : Segment} {log : List Record} (r : Record)
    (hactive : active s.segments = init ++ [g]) (hroom : g.data.length < segmentMax)
    (hg : g.data = bytes log) :
    s.nextLoc r = .held init.length ((bytes log).length + r.header.length) r.payload.length := by
  have hshort := r.short
  have hhead := length_header_lt r
  have hmax : segmentMax = 8388608 := rfl
  have hoff : (g.data.length + r.header.length) % 2 ^ 32 = g.data.length + r.header.length :=
    Nat.mod_eq_of_lt (by omega)
  rw [nextLoc, hactive, lastLen_concat, hoff, Nat.mod_eq_of_lt hshort, List.length_append,
    List.length_singleton, Nat.add_sub_cancel, hg]

/-- What the index says after a record has landed. -/
theorem Landed.get_eq {s' : Store} {r : Record} {l : Loc} (hb : Landed s s' r l)
    (hgood : s.index.Good) (id : DocId) : s'.index.get id =
      if id = r.id then (if r.op = .put then some l else none) else s.index.get id := by
  rw [hb.index]
  by_cases hop : r.op = .put
  · rw [if_pos hop, if_pos hop, IdIndex.get_insert hgood.toPlaced r.id_pos]
  · rw [if_neg hop, if_neg hop, IdIndex.get_remove]

theorem Landed.good {s' : Store} {r : Record} {l : Loc} (hb : Landed s s' r l)
    (hgood : s.index.Good) : s'.index.Good := by
  rw [hb.index]
  split
  · exact IdIndex.good_insert hgood r.id_pos
  · exact IdIndex.good_remove hgood r.id

/-- **A fit store appended to is fit**, one record longer, and what it had is where it was. -/
theorem Fit.append (h : Fit s held) (r : Record) :
    ∃ held', Fit (s.append r.op.byte r.id r.payload) held' ∧
      held'.flatten = held.flatten ++ [r] ∧
      (∀ (seg : Nat) x, held[seg]? = some x → held'.take seg = held.take seg ∧
        ∃ more, held'[seg]? = some (x ++ more)) ∧
      (r.op = .put → (s.append r.op.byte r.id r.payload).payload (s.nextLoc r) = .ok r.payload) := by
  obtain ⟨hsegments, hbase⟩ := segments_append s r
  obtain ⟨init, g, held₁, log, hactive, hroom, hinit, hg, hheld⟩ :=
    active_logs h.some_segment h.segs
  have hloc := Fit.nextLoc_eq r hactive hroom hg
  have hdata : (s.append r.op.byte r.id r.payload).segments =
      init ++ [{ g with data := g.data ++ r.frame }] := by
    rw [hsegments, hactive, extend_concat]
  have hst : (s.append r.op.byte r.id r.payload).stretches = s.stretches := by
    rw [stretches, hbase, stretches]
  have hfile : (s.append r.op.byte r.id r.payload).file = s.file := by rw [file, hbase, file]
  have hgrown : ∀ {seg : Nat} {x : List Record}, held[seg]? = some x →
      (held₁ ++ [log ++ [r]]).take seg = held.take seg ∧
        ∃ more, (held₁ ++ [log ++ [r]])[seg]? = some (x ++ more) := fun hx => logs_grown r hheld hx
  have hlast : (held₁ ++ [log ++ [r]])[init.length]? = some (log ++ r :: []) := by
    rw [hinit.length_eq]
    exact List.getElem?_concat_length
  have hfit : Fit (s.append r.op.byte r.id r.payload) (held₁ ++ [log ++ [r]]) := by
    refine ⟨?_, ?_, ?_, ?_, (landed_append s r).good h.good, fun id l hl => ?_⟩
    · rw [hst, hfile]
      exact h.files
    · rw [hdata]
      refine List.rel_append hinit (.cons ?_ .nil)
      show g.data ++ r.frame = bytes (log ++ [r])
      rw [hg, bytes_append, bytes_singleton]
    · rw [hdata]
      simp
    · intro log' hlog' pre r' post heq
      rcases List.mem_append.mp hlog' with hmem | hmem
      · refine h.low log' ?_ pre r' post heq
        rcases hheld with rfl | ⟨rfl, -⟩
        · exact List.mem_append_left _ hmem
        · exact hmem
      · rw [List.mem_singleton] at hmem
        subst hmem
        rcases List.eq_nil_or_concat post with rfl | ⟨post, last, rfl⟩
        · -- the record itself: it starts where the segment ended
          obtain ⟨rfl, -⟩ := List.append_inj' heq rfl
          rw [← hg]
          exact hroom
        · have hin : log = pre ++ r' :: post := by
            have heq' : log ++ [r] = (pre ++ r' :: post) ++ [last] := by
              rw [heq]
              simp
            exact (List.append_inj' heq' rfl).1
          rcases hheld with rfl | ⟨-, hnil⟩
          · exact h.low log (by simp) pre r' post hin
          · rw [hnil] at hin
            simp at hin
    · rw [(landed_append s r).get_eq h.good] at hl
      split at hl
      · next hid =>
        split at hl
        · next hop =>
          cases hl
          rw [hloc]
          exact ⟨r, log, [], hop, hid.symm, hlast, rfl, rfl⟩
        · cases hl
      · have hp := h.points id l hl
        cases l with
        | held seg off len =>
          obtain ⟨r', pre, post, hop, hid, hlog, hoff, hlen⟩ := hp
          obtain ⟨-, more, hmore⟩ := hgrown hlog
          exact ⟨r', pre, post ++ more, hop, hid, by rw [hmore]; simp, hoff, hlen⟩
        | file at_ len =>
          show (s.append r.op.byte r.id r.payload).base.isSome = true ∧ _ ≤ _ ∧ _
          rw [hbase, hfile]
          exact hp
  refine ⟨held₁ ++ [log ++ [r]], hfit, ?_, fun seg x hx => hgrown hx, fun _ => ?_⟩
  · rcases hheld with rfl | ⟨rfl, rfl⟩
    · simp
    · simp
  · rw [hloc]
    exact hfit.payload_held hlast

/-- **What an append does to what is read.** -/
theorem Fit.raw_append (h : Fit s held) (r : Record) (id : DocId) :
    (s.append r.op.byte r.id r.payload).raw id =
      if id = r.id then .ok (if r.op = .put then some r.payload else none) else s.raw id := by
  obtain ⟨held', hfit, -, hgrown, hput⟩ := h.append r
  have hget := (landed_append s r).get_eq h.good id
  split
  · next hid =>
    rw [if_pos hid] at hget
    split
    · next hop =>
      rw [if_pos hop] at hget
      rw [raw, hget]
      dsimp only
      rw [hput hop]
      rfl
    · next hop =>
      rw [if_neg hop] at hget
      exact raw_none hget
  · next hid =>
    rw [if_neg hid] at hget
    cases hl : s.index.get id with
    | none =>
      rw [hl] at hget
      rw [raw_none hget, raw_none hl]
    | some l =>
      rw [hl] at hget
      have hp := h.points id l hl
      rw [raw, raw, hget, hl]
      dsimp only
      cases l with
      | held seg off len =>
        obtain ⟨r', pre, post, -, -, hlog, rfl, rfl⟩ := hp
        obtain ⟨-, more, hmore⟩ := hgrown seg _ hlog
        rw [List.append_assoc, List.cons_append] at hmore
        rw [h.payload_held hlog, hfit.payload_held hmore]
      | file at_ len =>
        rw [h.payload_file hl, hfit.payload_file hget, file, file, (segments_append s r).2]

theorem Fit.image_append (h : Fit s held) (r : Record) :
    (s.append r.op.byte r.id r.payload).image = s.image ++ r.frame := by
  obtain ⟨held', hfit, hflat, -, -⟩ := h.append r
  have hbase := (segments_append s r).2
  have hold : (s.segments.map (·.data)).flatten = bytes held.flatten := by
    rw [map_eq_of_forall₂ h.segs, bytes_flatten]
  have hnew : ((s.append r.op.byte r.id r.payload).segments.map (·.data)).flatten =
      bytes held'.flatten := by
    rw [map_eq_of_forall₂ hfit.segs, bytes_flatten]
  rw [image, image, hnew, hold, hflat, bytes_append, bytes_singleton, stretches, file, hbase,
    List.append_assoc]
  rfl

end Append

/-! ## 3. Stores nothing tells apart -/

/-- **Nothing a caller can ask tells `t` from `s`.** -/
structure Same (s t : Store) : Prop extends Alike s t where
  next : t.nextId = s.nextId
  total : t.totalBytes = s.totalBytes
  dead : t.deadBytes = s.deadBytes
  image : t.image = s.image

section Sameness

variable {s t : Store} {held held' : List (List Record)}

/-- **Nor does it after an append to both.** -/
theorem Same.append (h : Same s t) (hs : Fit s held) (ht : Fit t held') (r : Record) :
    Same (s.append r.op.byte r.id r.payload) (t.append r.op.byte r.id r.payload) := by
  have hls := landed_append s r
  have hlt := landed_append t r
  obtain ⟨helds, hfits, -, -, -⟩ := hs.append r
  obtain ⟨heldt, hfitt, -, -, -⟩ := ht.append r
  obtain ⟨p, hp⟩ := hs.raw_ok r.id
  have hsup : (t.index.get r.id).elim 0 Loc.len = (s.index.get r.id).elim 0 Loc.len := by
    rw [ht.superseded r.id (by rw [h.raw, hp]), hs.superseded r.id hp]
  refine ⟨hfits.alike hfitt fun id => ?_, ?_, ?_, ?_, ?_⟩
  · rw [hs.raw_append, ht.raw_append, h.raw]
  · rw [hlt.next, hls.next, h.next]
  · rw [hlt.total, hls.total, h.total]
  · rw [hlt.dead, hls.dead, h.dead, hsup]
  · rw [ht.image_append, hs.image_append, h.image]

theorem Fit.appendAll (h : Fit s held) (log : List Record) :
    ∃ held', Fit (s.appendAll log) held' ∧ held'.flatten = held.flatten ++ log ∧
      ∀ (seg : Nat) x, held[seg]? = some x → held'.take seg = held.take seg ∧
        ∃ more, held'[seg]? = some (x ++ more) := by
  induction log using List.reverseRecOn with
  | nil => exact ⟨held, h, by simp, fun seg x hx => ⟨rfl, [], by simpa using hx⟩⟩
  | append_singleton log r ih =>
    obtain ⟨held₁, h₁, hflat₁, hgrown₁⟩ := ih
    obtain ⟨held₂, h₂, hflat₂, hgrown₂, -⟩ := h₁.append r
    refine ⟨held₂, appendAll_concat s log r ▸ h₂, ?_, fun seg x hx => ?_⟩
    · rw [hflat₂, hflat₁, List.append_assoc]
    · obtain ⟨htake₁, more₁, hx₁⟩ := hgrown₁ seg x hx
      obtain ⟨htake₂, more₂, hx₂⟩ := hgrown₂ seg _ hx₁
      exact ⟨htake₂.trans htake₁, more₁ ++ more₂, by rw [hx₂, List.append_assoc]⟩

/-- **Nor after any.** -/
theorem Same.appendAll (h : Same s t) (hs : Fit s held) (ht : Fit t held') (log : List Record) :
    Same (s.appendAll log) (t.appendAll log) := by
  induction log using List.reverseRecOn with
  | nil => exact h
  | append_singleton log r ih =>
    obtain ⟨helds, hfits, -⟩ := hs.appendAll log
    obtain ⟨heldt, hfitt, -⟩ := ht.appendAll log
    rw [appendAll_concat, appendAll_concat]
    exact ih.append hfits hfitt r

end Sameness

end Store

end Segments

end Fenec
