/-
# Frames landed

The three functions that land a frame keep the same books, each in its own words: what the frame
supersedes is dead, a put points its id at the payload, a delete takes the id out and is dead
itself (`Landed`).  `Holds.land` is the one argument for all of them: where a frame's bytes follow
the ones there are and nothing that was there is moved, a store that kept its books holds one
record more.

From it come `append`, `replay` and `replayMapped` over whole logs, and what compacting leaves.
-/
import Fenec.Segments.Store

namespace Fenec

open Lib Reader Codec Chunks

namespace Segments

namespace Store

/-! ## 1. The books -/

/-- What landing a record at `l` does to the index and the counts. -/
structure Landed (s s' : Store) (r : Record) (l : Loc) : Prop where
  index : s'.index = if r.op = .put then s.index.insert r.id l else s.index.remove r.id
  total : s'.totalBytes = s.totalBytes + r.frame.length
  dead : s'.deadBytes = s.deadBytes + (s.index.get r.id).elim 0 Loc.len +
    if r.op = .put then 0 else r.frame.length
  next : s'.nextId =
    if r.op = .put ∧ s.nextId ≤ r.id then (r.id + 1) % 2 ^ 64 else s.nextId
  dropped : s'.dropped = s.dropped

section Land

variable {s s' : Store} {filed held filed' held' : List (List Record)} {r : Record} {l : Loc}

/-- What a landed record supersedes is what the tally says it does. -/
theorem Holds.superseded (h : Holds s filed held) (id : DocId) :
    (s.index.get id).elim 0 Loc.len =
      ((tally (filed.flatten ++ held.flatten)).spot id).elim 0 fun pn => pn.2 := by
  have hp := h.points id
  cases hget : s.index.get id <;>
    cases hspot : (tally (filed.flatten ++ held.flatten)).spot id <;> rw [hget, hspot] at hp
  · rfl
  · cases hp
  · cases hp
  · cases hp with
    | some hrel => exact hrel.1.symm

/-- **A record more.** -/
theorem Holds.land (h : Holds s filed held) (hb : Landed s s' r l)
    (hlog : filed'.flatten ++ held'.flatten = (filed.flatten ++ held.flatten) ++ [r])
    (hfiles : List.Forall₂ (fun st log => st.1 + st.2 ≤ s'.file.length ∧
      (s'.file.drop st.1).take st.2 = bytes log) s'.stretches filed')
    (hsegs : List.Forall₂ (fun g log => g.data = bytes log) s'.segments held')
    (hsome : s'.segments ≠ []) (hlies : ∀ l p, s.Lies l p → s'.Lies l p)
    (hl : r.op = .put → l.len = r.payload.length ∧
      s'.Lies l (s.totalBytes + r.header.length)) :
    Holds s' filed' held' := by
  have hput : ∀ id, s'.index.get id =
      if id = r.id then (if r.op = .put then some l else none) else s.index.get id := by
    intro id
    rw [hb.index]
    by_cases hop : r.op = .put
    · rw [if_pos hop, if_pos hop, IdIndex.get_insert h.good.toPlaced r.id_pos]
    · rw [if_neg hop, if_neg hop, IdIndex.get_remove]
  refine ⟨hfiles, hsegs, hsome, ?_, fun id => ?_, ?_, ?_⟩
  · rw [hb.index]
    split
    · exact IdIndex.good_insert h.good r.id_pos
    · exact IdIndex.good_remove h.good r.id
  · rw [hlog, tally_concat, hput]
    show Option.Rel _ _ (if id = r.id then _ else _)
    split
    · split
      · next hop =>
        obtain ⟨hlen, hlies'⟩ := hl hop
        refine .some ⟨hlen.symm, ?_⟩
        rw [h.total] at hlies'
        exact hlies'
      · exact .none
    · have hp := h.points id
      cases hget : s.index.get id <;>
        cases hspot : (tally (filed.flatten ++ held.flatten)).spot id <;> rw [hget, hspot] at hp
      · exact .none
      · cases hp
      · cases hp
      · cases hp with
        | some hrel => exact .some ⟨hrel.1, hlies _ _ hrel.2⟩
  · rw [hb.total, hlog, tally_concat, h.total]
    rfl
  · rw [hb.dead, hlog, tally_concat, h.dead, h.superseded]
    rfl

end Land

/-! ## 2. Segments -/

section Segs

variable {segments : List Segment} {held : List (List Record)}

theorem modify_last {α : Type} (init : List α) (a : α) (f : α → α) :
    (init ++ [a]).modify ((init ++ [a]).length - 1) f = init ++ [f a] := by
  rw [List.length_append, List.length_singleton, Nat.add_sub_cancel]
  apply List.ext_getElem?
  intro j
  rw [List.getElem?_modify]
  by_cases hj : j < init.length
  · rw [List.getElem?_append_left hj, List.getElem?_append_left hj]
    simp [Nat.ne_of_gt hj]
  · by_cases hj' : j = init.length
    · subst hj'
      simp
    · rw [List.getElem?_eq_none (by simp; omega), List.getElem?_eq_none (by simp; omega)]
      rfl

theorem extend_concat (init : List Segment) (g : Segment) (bs : List UInt8) :
    extend (init ++ [g]) bs = init ++ [{ g with data := g.data ++ bs }] :=
  modify_last init g _

/-- A frame onto the last segment, or into one of its own where that is full. -/
theorem extend_active_concat (init : List Segment) (g : Segment) (bs : List UInt8) :
    extend (active (init ++ [g])) bs =
      if segmentMax ≤ g.data.length then init ++ [{ g with sealed := true }, ⟨bs, false⟩]
      else init ++ [{ g with data := g.data ++ bs }] := by
  unfold active
  rw [List.getLast?_concat]
  dsimp only
  split
  · have hend : init ++ [{ g with sealed := true }, Segment.empty] =
        (init ++ [{ g with sealed := true }]) ++ [Segment.empty] := by simp
    rw [List.dropLast_concat, hend, extend_concat]
    simp [Segment.empty]
  · exact extend_concat init g bs

theorem lastLen_concat (init : List Segment) (g : Segment) :
    lastLen (init ++ [g]) = g.data.length := by
  simp [lastLen]

theorem forall₂_concat_left {α β : Type} {R : α → β → Prop} {init : List α} {a : α} {l : List β}
    (h : List.Forall₂ R (init ++ [a]) l) :
    ∃ l₁ b, l = l₁ ++ [b] ∧ List.Forall₂ R init l₁ ∧ R a b := by
  induction init generalizing l with
  | nil =>
    obtain ⟨b, rest, hab, hrest, rfl⟩ := List.forall₂_cons_left_iff.mp h
    cases hrest
    exact ⟨[], b, rfl, .nil, hab⟩
  | cons x init ih =>
    obtain ⟨y, rest, hxy, hrest, rfl⟩ := List.forall₂_cons_left_iff.mp h
    obtain ⟨l₁, b, rfl, hinit, hab⟩ := ih hrest
    exact ⟨y :: l₁, b, rfl, .cons hxy hinit, hab⟩

/-- **`active` leaves room**: its last segment is short of full, and nothing has moved. -/
theorem active_spec (hsome : segments ≠ [])
    (hsegs : List.Forall₂ (fun g log => g.data = bytes log) segments held) :
    ∃ init g held₁ log, active segments = init ++ [g] ∧ g.data.length < segmentMax ∧
      List.Forall₂ (fun g log => g.data = bytes log) init held₁ ∧ g.data = bytes log ∧
      (held₁ ++ [log]).flatten = held.flatten ∧
      Extends (segments.map (·.data)) ((init ++ [g]).map (·.data)) := by
  obtain ⟨init, last, rfl⟩ : ∃ init last, segments = init ++ [last] :=
    ⟨_, _, (List.dropLast_append_getLast hsome).symm⟩
  obtain ⟨held₁, log, rfl, hinit, hlast⟩ := forall₂_concat_left hsegs
  unfold active
  rw [List.getLast?_concat]
  dsimp only
  split
  · refine ⟨init ++ [{ last with sealed := true }], .empty, held₁ ++ [log], [], ?_, by decide, ?_,
      rfl, by simp, ?_⟩
    · rw [List.dropLast_concat, List.append_assoc]
      rfl
    · exact List.rel_append hinit (.cons hlast .nil)
    · have hsame : (init ++ [last]).map (·.data) =
          (init ++ [({ last with sealed := true } : Segment)]).map (·.data) := by simp
      rw [hsame]
      conv => arg 2; rw [List.map_append]
      exact extends_concat _ _
  · next hfull =>
    exact ⟨init, last, held₁, log, rfl, by omega, hinit, hlast, rfl, extends_refl _⟩

end Segs

/-- A location stays good while chunks only grow. -/
theorem Lies.grow {s s' : Store} (hbase : s'.base = s.base)
    (hext : Extends (s.segments.map (·.data)) (s'.segments.map (·.data))) {l : Loc} {p : Nat}
    (hl : s.Lies l p) : s'.Lies l p := by
  have hst : s'.stretches = s.stretches := by rw [stretches, hbase, stretches]
  have hfile : s'.file = s.file := by rw [file, hbase, file]
  have hchunks : Extends s.chunks s'.chunks := by
    rw [chunks, chunks, hst, hfile]
    exact hext.append_left _
  cases l with
  | held seg off len =>
    obtain ⟨g, hg, hoff, hle, rfl⟩ := hl
    obtain ⟨d, hd, hpre, hstart⟩ := hchunks _ _ (chunks_held hg)
    obtain ⟨d', hd', hpre', -⟩ := hext seg g.data (by rw [List.getElem?_map, hg]; rfl)
    rw [List.getElem?_map] at hd'
    obtain ⟨g', hg', rfl⟩ := Option.map_eq_some_iff.mp hd'
    refine ⟨g', hg', hoff, Nat.le_trans hle hpre'.length_le, ?_⟩
    rw [hst, hstart]
  | file at_ len =>
    obtain ⟨k, st, hk, hfrom, hto, rfl⟩ := hl
    obtain ⟨d, -, -, hstart⟩ := hchunks _ _ (chunks_file hk)
    exact ⟨k, st, hst ▸ hk, hfrom, hto, by rw [hstart]⟩

/-- Frames are short past their payloads. -/
theorem length_header_lt (r : Record) : r.header.length < 2 ^ 8 := by
  have hlen : ∀ f v : Nat, (uvarintGo f v).length ≤ f + 1 := by
    intro f
    induction f with
    | zero => intro v; exact Nat.le_refl _
    | succ f ih =>
      intro v
      unfold uvarintGo
      split
      · simp
      · have := ih (v / 128)
        rw [List.length_cons]
        omega
  have hlog : ∀ v, v < 2 ^ 64 → (uvarint v).length ≤ 65 := by
    intro v hv
    have hle := hlen (Nat.log2 v) v
    have hl : Nat.log2 v ≤ 64 := by
      rcases Nat.eq_zero_or_pos v with rfl | hpos
      · simp
      · exact Nat.le_of_lt ((Nat.log2_lt (by omega)).mpr hv)
    rw [uvarint]
    omega
  have hid := hlog r.id r.id_lt
  have hpl := hlog r.payload.length (Nat.lt_trans r.short (by norm_num))
  rw [Record.header, header, List.length_cons, List.length_append]
  omega

/-! ## 3. One record -/

section Append

variable {s : Store} {filed held : List (List Record)}

/-- The location `append` gives a record's payload. -/
def nextLoc (s : Store) (r : Record) : Loc :=
  .held ((active s.segments).length - 1) ((lastLen (active s.segments) + r.header.length) % 2 ^ 32)
    (r.payload.length % 2 ^ 32)

theorem landed_append (s : Store) (r : Record) :
    Landed s (s.append r.op.byte r.id r.payload) r (s.nextLoc r) := by
  have hhead : (frame r.op.byte r.id r.payload).length - r.payload.length = r.header.length := by
    change r.frame.length - _ = _
    rw [r.length_frame, Nat.add_sub_cancel]
  unfold append landFrame nextLoc
  rw [hhead]
  cases hop : r.op with
  | put => exact ⟨by simp [opPut, Op.byte, hop], by simp [opPut, Op.byte, Record.frame, hop],
      by simp [opPut, Op.byte, hop], by simp [opPut, Op.byte, hop], by simp [opPut, Op.byte]⟩
  | del => exact ⟨by simp [opPut, opDel, Op.byte, hop],
      by simp [opPut, opDel, Op.byte, Record.frame, hop],
      by simp [opPut, opDel, Op.byte, Record.frame, hop], by simp [opPut, opDel, Op.byte, hop],
      by simp [opPut, opDel, Op.byte]⟩

theorem segments_append (s : Store) (r : Record) :
    (s.append r.op.byte r.id r.payload).segments = extend (active s.segments) r.frame ∧
      (s.append r.op.byte r.id r.payload).base = s.base := by
  unfold append landFrame
  cases hop : r.op with
  | put => simp [opPut, Op.byte, Record.frame, hop]
  | del => simp [opPut, opDel, Op.byte, Record.frame, hop]

/-- **A store appended to holds a record more.** -/
theorem Holds.append (h : Holds s filed held) (r : Record) :
    ∃ held', Holds (s.append r.op.byte r.id r.payload) filed held' ∧
      held'.flatten = held.flatten ++ [r] := by
  obtain ⟨hsegments, hbase⟩ := segments_append s r
  obtain ⟨init, g, held₁, log, hactive, hroom, hinit, hg, hflat, hext⟩ :=
    active_spec h.some_segment h.segs
  have hdata : (s.append r.op.byte r.id r.payload).segments =
      init ++ [{ g with data := g.data ++ r.frame }] := by
    rw [hsegments, hactive, extend_concat]
  have hst : (s.append r.op.byte r.id r.payload).stretches = s.stretches := by
    rw [stretches, hbase, stretches]
  have hfile : (s.append r.op.byte r.id r.payload).file = s.file := by rw [file, hbase, file]
  -- the frame follows the bytes there are
  have hgrow : Extends (s.segments.map (·.data))
      ((s.append r.op.byte r.id r.payload).segments.map (·.data)) := by
    intro k d hd
    obtain ⟨d₁, hd₁, hpre₁, hstart₁⟩ := hext k d hd
    rw [List.map_append] at hd₁ hstart₁
    obtain ⟨d₂, hd₂, hpre₂, hstart₂⟩ := extends_last (init.map (·.data)) g.data r.frame k d₁ hd₁
    rw [hdata, List.map_append]
    exact ⟨d₂, hd₂, hpre₁.trans hpre₂, hstart₂.trans hstart₁⟩
  have hheld : (held₁ ++ [log ++ [r]]).flatten = held.flatten ++ [r] := by
    rw [← hflat]
    simp
  refine ⟨held₁ ++ [log ++ [r]], ?_, hheld⟩
  refine h.land (landed_append s r) ?_ ?_ ?_ ?_ (fun _ _ => Lies.grow hbase hgrow) fun _ => ?_
  · rw [hheld, List.append_assoc]
  · rw [hst, hfile]
    exact h.files
  · rw [hdata]
    refine List.rel_append hinit (.cons ?_ .nil)
    show g.data ++ r.frame = bytes (log ++ [r])
    rw [hg, bytes_append, bytes_singleton]
  · rw [hdata]
    simp
  · -- the payload is past the header, in the last segment
    have hshort := r.short
    have hhead := length_header_lt r
    have hmax : segmentMax = 8388608 := rfl
    have hoff : (g.data.length + r.header.length) % 2 ^ 32 = g.data.length + r.header.length :=
      Nat.mod_eq_of_lt (by omega)
    have hlen : r.payload.length % 2 ^ 32 = r.payload.length := Nat.mod_eq_of_lt hshort
    have hloc : s.nextLoc r =
        .held init.length (g.data.length + r.header.length) r.payload.length := by
      rw [nextLoc, hactive, lastLen_concat, hoff, hlen, List.length_append, List.length_singleton,
        Nat.add_sub_cancel]
    rw [hloc]
    have hheader : 0 < r.header.length := Nat.succ_pos _
    refine ⟨rfl, { g with data := g.data ++ r.frame }, by rw [hdata]; simp, by omega, ?_, ?_⟩
    · show _ ≤ (g.data ++ r.frame).length
      rw [List.length_append, r.length_frame]
      omega
    · -- everything there was stands before
      have hbytes : s.totalBytes = (s.stretches.map fun st =>
          (s.file.drop st.1).take st.2).flatten.length + (init.map (·.data)).flatten.length +
          g.data.length := by
        have himage := congrArg List.length h.image_eq
        have hsame : (s.segments.map (·.data)).flatten.length =
            (init.map (·.data)).flatten.length + g.data.length := by
          have hbytes := map_eq_of_forall₂ h.segs
          have hinit' := map_eq_of_forall₂ hinit
          rw [hbytes, ← bytes_flatten, ← hflat, List.flatten_append, bytes_append, bytes_flatten,
            List.length_append, ← hinit', hg]
          simp
        rw [h.total, tally_len, ← himage, image, List.length_append, hsame]
        omega
      rw [chunks, hst, hfile, hdata, ← length_files s, start_append_right, List.map_append,
        start_append_left (by simp), start_of_le (by simp), hbytes]
      omega

end Append

end Store

end Segments

end Fenec
