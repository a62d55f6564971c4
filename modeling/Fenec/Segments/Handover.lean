/-
# A handover to the file

The frames a store holds in memory are in the file too, once their records have been written: a
run of them a record.  `handOver` takes the runs' places, points each document at its place there
and lets the segments go.

Before anything moves, `landedPlaces` walks the segments run by run and frame by frame, three loops
deep: a run may go on into the next segment, and a frame the runs cut refuses the whole.  It is
the walk of one list, the frames of all segments in order (`Spot`), each with where it stands:
`takeRuns` is that walk, and `placeRuns_agrees` says the loops do nothing else.  So the runs are
taken exactly when they cut the frames between them.
-/
import Fenec.Segments.Fit

namespace Fenec

open Lib Reader Codec Chunks

namespace Segments

/-! ## 1. The handover -/

/-- `Moved`: where each segment started in what was held, and the runs it went to, a length and a
place each. -/
structure Moved where
  starts : List Nat
  runs : List (Nat × Nat)

namespace Moved

/-- Where byte `at_` of what was held is in the file, the runs starting at byte `from_` of it. -/
def runPlace : List (Nat × Nat) → Nat → Nat → Option Nat
  | [], _, _ => none
  | (len, run) :: runs, from_, at_ =>
    if at_ < from_ + len then some (run + (at_ - from_)) else runPlace runs (from_ + len) at_

/-- **`Moved::loc`.** -/
def loc (m : Moved) : Loc → Loc
  | .file at_ len => .file at_ len
  | .held seg off len =>
    match m.starts[seg]? with
    | none => .held seg off len
    | some start =>
      match runPlace m.runs 0 (start + off) with
      | some at_ => .file at_ len
      | none => .held seg off len

end Moved

namespace Store

/-- The frames of `run`, `o` bytes into segment `seg` and at `at_` in the file, from byte `p` of it
on: the ids the store reads from them, and where they go. -/
def placeFrames (s : Store) (run : List UInt8) (seg o at_ : Nat) :
    Nat → Nat → List (DocId × Loc) → Option (List (DocId × Loc))
  | 0, _, moved => some moved
  | fuel + 1, p, moved =>
    if p < run.length then
      match readHead run ⟨p, []⟩ with
      | (.error _, _) => none
      | (.ok (op, id, plen), c) =>
        if run.length < c.pos + plen then none
        else
          let was := Loc.held seg ((o + c.pos) % 2 ^ 32) (plen % 2 ^ 32)
          let moved := if op = opPut ∧ s.index.get id = some was then
            moved ++ [(id, .file (at_ + c.pos) (plen % 2 ^ 32))] else moved
          placeFrames s run seg o at_ fuel (c.pos + plen) moved
    else some moved

/-- The next segment that goes on past where the walk stands. -/
def skipFull (segments : List Segment) : Nat → Nat × Nat → Nat × Nat
  | 0, so => so
  | fuel + 1, so =>
    match segments[so.1]? with
    | some g => if so.2 = g.data.length then skipFull segments fuel (so.1 + 1, 0) else so
    | none => so

/-- A run, `left` bytes of it still to go and its next at `at_`. -/
def placeRun (s : Store) : Nat → Nat → Nat → Nat × Nat → List (DocId × Loc) →
    Option ((Nat × Nat) × List (DocId × Loc))
  | 0, _, _, so, moved => some (so, moved)
  | fuel + 1, left, at_, so, moved =>
    if 0 < left then
      let so := skipFull s.segments s.segments.length so
      match s.segments[so.1]? with
      | none => none
      | some g =>
        let n := min left (g.data.length - so.2)
        match s.placeFrames ((g.data.drop so.2).take n) so.1 so.2 at_ n 0 moved with
        | none => none
        | some moved => placeRun s fuel (left - n) (at_ + n) (so.1, so.2 + n) moved
    else some (so, moved)

/-- The runs, one after another. -/
def placeRuns (s : Store) : List (Nat × Nat) → Nat × Nat → List (DocId × Loc) →
    Option ((Nat × Nat) × List (DocId × Loc))
  | [], so, moved => some (so, moved)
  | (len, at_) :: landed, so, moved =>
    match s.placeRun len len at_ so moved with
    | none => none
    | some (so, moved) => placeRuns s landed so moved

/-- **`Store::landed_places`.**  The lengths are `u64`s and so is their sum; one that passed
`2 ^ 64` and came round to the bytes held would find no segment for the rest. -/
def landedPlaces (s : Store) (landed : List (Nat × Nat)) : Option (List (DocId × Loc)) :=
  if (landed.map (·.1)).sum ≠ (s.segments.map (·.data.length)).sum then none
  else (s.placeRuns landed (0, 0) []).map (·.2)

/-- A run onto the end of the stretches: the last of them goes on with it where it `joins`. -/
def joinRun (stretches : List (Nat × Nat)) (joins : Bool) (len at_ : Nat) : List (Nat × Nat) :=
  match stretches.getLast? with
  | some last =>
    if last.1 + last.2 = at_ ∧ joins = true then stretches.dropLast ++ [(last.1, last.2 + len)]
    else stretches ++ [(at_, len)]
  | none => stretches ++ [(at_, len)]

/-- The runs from number `k` on, and how many stretches there were after run `keep`. -/
def takeIn (keep : Nat) : Nat → List (Nat × Nat) → List (Nat × Nat) → Nat → List (Nat × Nat) × Nat
  | _, [], stretches, kept => (stretches, kept)
  | k, (len, at_) :: landed, stretches, kept =>
    let stretches := if 0 < len then joinRun stretches (k != keep) len at_ else stretches
    takeIn keep (k + 1) landed stretches (if k + 1 = keep then stretches.length else kept)

/-- Where each segment starts, the first at `at_`. -/
def startsFrom : Nat → List Segment → List Nat
  | _, [] => []
  | at_, g :: gs => at_ :: startsFrom (at_ + g.data.length) gs

/-- The store reading from `base`, a longer mapping of its file. -/
def remap (s : Store) (base : List UInt8) : Store :=
  { s with base := s.base.map fun b => (base, b.2) }

/-- **`Store::hand_over_keeping`**: where things went and how many stretches there were after the
first `keep` runs, and the store. -/
def handOverKeeping (s : Store) (base : List UInt8) (landed : List (Nat × Nat)) (keep : Nat) :
    Option (Moved × Nat) × Store :=
  let moved := s.landedPlaces landed
  let s := s.remap base
  match moved with
  | none => (none, s)
  | some moved =>
    let starts := startsFrom 0 s.segments
    if landed = [] then (some (⟨starts, []⟩, s.stretches.length), s)
    else
      let taken := takeIn keep 0 landed s.stretches s.stretches.length
      (some (⟨starts, landed⟩, taken.2), { s with
        index := moved.foldl (fun ix m => ix.insert m.1 m.2) s.index
        base := some (base, taken.1)
        segments := [.empty] })

/-- **`Store::hand_over`.** -/
def handOver (s : Store) (base : List UInt8) (landed : List (Nat × Nat)) : Bool × Store :=
  let r := s.handOverKeeping base landed 0
  (r.1.isSome, r.2)

/-! ## 2. One list of frames -/

/-- A frame of the segments, and where it starts. -/
structure Spot where
  seg : Nat
  off : Nat
  record : Record

namespace Spot

/-- Where its payload is. -/
def loc (t : Spot) : Loc :=
  .held t.seg ((t.off + t.record.header.length) % 2 ^ 32) (t.record.payload.length % 2 ^ 32)

end Spot

/-- The frames of a segment, from `off` on. -/
def spots (seg : Nat) : Nat → List Record → List Spot
  | _, [] => []
  | off, r :: log => ⟨seg, off, r⟩ :: spots seg (off + r.frame.length) log

/-- The frames of all segments, from number `seg` on. -/
def allSpots : Nat → List (List Record) → List Spot
  | _, [] => []
  | seg, log :: held => spots seg 0 log ++ allSpots (seg + 1) held

/-- The bytes of some frames. -/
def spotBytes (ts : List Spot) : List UInt8 := bytes (ts.map (·.record))

/-- What a frame at `at_` in the file adds to what moves. -/
def pick (s : Store) (at_ : Nat) (t : Spot) : List (DocId × Loc) :=
  if t.record.op = .put ∧ s.index.get t.record.id = some t.loc then
    [(t.record.id, .file (at_ + t.record.header.length) (t.record.payload.length % 2 ^ 32))]
  else []

/-- What the frames from `at_` on add. -/
def picks (s : Store) : Nat → List Spot → List (DocId × Loc)
  | _, [] => []
  | at_, t :: ts => pick s at_ t ++ picks s (at_ + t.record.frame.length) ts

/-- A run taken off a list of frames. -/
def takeRun (s : Store) : Nat → Nat → List Spot → List (DocId × Loc) →
    Option (List Spot × List (DocId × Loc))
  | _, left, [], moved => if left = 0 then some ([], moved) else none
  | at_, left, t :: ts, moved =>
    if left = 0 then some (t :: ts, moved)
    else if left < t.record.frame.length then none
    else takeRun s (at_ + t.record.frame.length) (left - t.record.frame.length) ts
      (moved ++ pick s at_ t)

/-- The runs taken off, one after another. -/
def takeRuns (s : Store) : List (Nat × Nat) → List Spot → List (DocId × Loc) →
    Option (List Spot × List (DocId × Loc))
  | [], ts, moved => some (ts, moved)
  | (len, at_) :: landed, ts, moved =>
    match takeRun s at_ len ts moved with
    | none => none
    | some (ts, moved) => takeRuns s landed ts moved

section Spots

variable {s : Store} {ts us : List Spot} {moved : List (DocId × Loc)} {at_ left : Nat}

theorem spots_append (seg off : Nat) (a b : List Record) :
    spots seg off (a ++ b) = spots seg off a ++ spots seg (off + (bytes a).length) b := by
  induction a generalizing off with
  | nil => rfl
  | cons r a ih =>
    rw [List.cons_append, spots, spots, ih, bytes_cons, List.length_append, ← Nat.add_assoc]
    rfl

theorem map_spots (seg off : Nat) (log : List Record) :
    (spots seg off log).map (·.record) = log := by
  induction log generalizing off with
  | nil => rfl
  | cons r log ih => rw [spots, List.map_cons, ih]

theorem map_allSpots (seg : Nat) (held : List (List Record)) :
    (allSpots seg held).map (·.record) = held.flatten := by
  induction held generalizing seg with
  | nil => rfl
  | cons log held ih => rw [allSpots, List.map_append, map_spots, ih, List.flatten_cons]

theorem spotBytes_append (ts us : List Spot) :
    spotBytes (ts ++ us) = spotBytes ts ++ spotBytes us := by
  rw [spotBytes, List.map_append, bytes_append]
  rfl

theorem spotBytes_spots (seg off : Nat) (log : List Record) :
    spotBytes (spots seg off log) = bytes log := by
  rw [spotBytes, map_spots]

theorem spotBytes_cons (t : Spot) (ts : List Spot) :
    spotBytes (t :: ts) = t.record.frame ++ spotBytes ts := rfl

theorem picks_append (s : Store) (at_ : Nat) (ts us : List Spot) :
    picks s at_ (ts ++ us) = picks s at_ ts ++ picks s (at_ + (spotBytes ts).length) us := by
  induction ts generalizing at_ with
  | nil => rfl
  | cons t ts ih =>
    rw [List.cons_append, picks, picks, ih, spotBytes_cons, List.length_append, ← Nat.add_assoc,
      List.append_assoc]

/-- **A run that is frames to its end takes them.** -/
theorem takeRun_frames (h : (spotBytes ts).length ≤ left) :
    takeRun s at_ left (ts ++ us) moved =
      takeRun s (at_ + (spotBytes ts).length) (left - (spotBytes ts).length) us
        (moved ++ picks s at_ ts) := by
  induction ts generalizing at_ left moved with
  | nil =>
    show takeRun s at_ left us moved = takeRun s at_ left us (moved ++ [])
    rw [List.append_nil]
  | cons t ts ih =>
    have hpos := t.record.frame_pos
    rw [spotBytes_cons, List.length_append] at h ⊢
    rw [List.cons_append, takeRun, if_neg (by omega), if_neg (by omega), ih (by omega), picks,
      Nat.add_assoc, Nat.sub_sub, List.append_assoc]

theorem takeRun_zero : takeRun s at_ 0 ts moved = some (ts, moved) := by
  cases ts with
  | nil => rfl
  | cons t ts => rfl

/-- Bytes cut between frames, or inside one. -/
theorem cut_log (log : List Record) : ∀ n, n ≤ (bytes log).length →
    ∃ front back, log = front ++ back ∧ ((bytes front).length = n ∨
      ∃ r more, back = r :: more ∧ (bytes front).length < n ∧
        n < (bytes front).length + r.frame.length) := by
  induction log with
  | nil =>
    intro n hn
    exact ⟨[], [], rfl, .inl (Nat.le_zero.mp hn).symm⟩
  | cons r log ih =>
    intro n hn
    rw [bytes_cons, List.length_append] at hn
    by_cases hzero : n = 0
    · exact ⟨[], r :: log, rfl, .inl hzero.symm⟩
    · by_cases hlt : n < r.frame.length
      · refine ⟨[], r :: log, rfl, .inr ⟨r, log, rfl, Nat.pos_of_ne_zero hzero, ?_⟩⟩
        rw [bytes_nil, List.length_nil, Nat.zero_add]
        exact hlt
      · obtain ⟨front, back, rfl, hcut⟩ := ih (n - r.frame.length) (by omega)
        refine ⟨r :: front, back, rfl, ?_⟩
        rw [bytes_cons, List.length_append]
        rcases hcut with hcut | ⟨q, more, hback, hgt, hle⟩
        · exact .inl (by omega)
        · exact .inr ⟨q, more, hback, by omega, by omega⟩

end Spots

/-! ## 3. The loops are the walk of that list -/

section Loops

variable {s : Store} {held : List (List Record)}

/-- The frames of a log, whatever follows them in the run. -/
theorem placeFrames_walk (s : Store) {run tail : List UInt8} (seg o at_ : Nat)
    {rest : List Record} : ∀ (done : List Record) (fuel : Nat) (moved : List (DocId × Loc)),
      run = bytes done ++ (bytes rest ++ tail) → (bytes rest).length + tail.length ≤ fuel →
      ∃ fuel', tail.length ≤ fuel' ∧ s.placeFrames run seg o at_ fuel (bytes done).length moved =
        s.placeFrames run seg o at_ fuel' (bytes (done ++ rest)).length
          (moved ++ picks s (at_ + (bytes done).length)
            (spots seg (o + (bytes done).length) rest)) := by
  induction rest with
  | nil =>
    intro done fuel moved _ hfuel
    refine ⟨fuel, by simpa using hfuel, ?_⟩
    rw [List.append_nil]
    show _ = s.placeFrames run seg o at_ fuel _ (moved ++ [])
    rw [List.append_nil]
  | cons r rest ih =>
    intro done fuel moved hrun hfuel
    have hpos := r.frame_pos
    rw [bytes_cons, List.append_assoc] at hrun
    rw [bytes_cons, List.length_append] at hfuel
    obtain ⟨l, hl⟩ := readHead_at hrun
    have hlen := congrArg List.length hrun
    simp only [List.length_append] at hlen
    have hframe := r.length_frame
    have hnext : (bytes done).length + r.header.length + r.payload.length =
        (bytes (done ++ [r])).length := by
      rw [bytes_append, bytes_singleton, List.length_append, hframe]
      omega
    cases fuel with
    | zero => omega
    | succ fuel =>
      have hrun' : run = bytes (done ++ [r]) ++ (bytes rest ++ tail) := by
        rw [hrun, bytes_append, bytes_singleton, List.append_assoc]
      obtain ⟨fuel', hfuel', hih⟩ := ih (done ++ [r]) fuel (moved ++
        pick s (at_ + (bytes done).length) ⟨seg, o + (bytes done).length, r⟩) hrun' (by omega)
      refine ⟨fuel', hfuel', ?_⟩
      have hpick : (if r.op.byte = opPut ∧ s.index.get r.id =
            some (Loc.held seg ((o + ((bytes done).length + r.header.length)) % 2 ^ 32)
              (r.payload.length % 2 ^ 32)) then
          moved ++ [(r.id, .file (at_ + ((bytes done).length + r.header.length))
            (r.payload.length % 2 ^ 32))] else moved) =
          moved ++ pick s (at_ + (bytes done).length) ⟨seg, o + (bytes done).length, r⟩ := by
        have hop : r.op.byte = opPut ↔ r.op = .put :=
          ⟨fun h => Op.byte_injective h, fun h => by rw [h]; rfl⟩
        unfold pick Spot.loc
        dsimp only
        simp only [hop, ← Nat.add_assoc]
        split
        · rfl
        · rw [List.append_nil]
      have hlast : (bytes (done ++ [r])).length = (bytes done).length + r.frame.length := by
        rw [bytes_append, bytes_singleton, List.length_append]
      rw [placeFrames, if_pos (by omega), hl]
      dsimp only
      rw [if_neg (by omega), hpick, hnext, hih, hlast, List.append_assoc, spots, picks,
        List.append_assoc, List.singleton_append, Nat.add_assoc, Nat.add_assoc]

/-- **A run of whole frames is walked to its end.** -/
theorem placeFrames_log {seg o at_ : Nat} {moved : List (DocId × Loc)} (log : List Record) :
    s.placeFrames (bytes log) seg o at_ (bytes log).length 0 moved =
      some (moved ++ picks s at_ (spots seg o log)) := by
  have hrun : bytes log = bytes [] ++ (bytes log ++ []) := by simp
  obtain ⟨fuel, -, h⟩ := placeFrames_walk s seg o at_ [] (bytes log).length moved hrun (by simp)
  rw [bytes_nil, List.length_nil, List.nil_append] at h
  rw [h]
  cases fuel with
  | zero => rfl
  | succ fuel => rw [placeFrames, if_neg (Nat.lt_irrefl _)]; rfl

/-- **One that ends inside a frame is refused.** -/
theorem placeFrames_cut {seg o at_ : Nat} {moved : List (DocId × Loc)} {front : List Record}
    {r : Record} {cut more : List UInt8} (hcut : cut ++ more = r.frame) (hne : cut ≠ [])
    (hmore : more ≠ []) {fuel : Nat} (hfuel : (bytes front ++ cut).length ≤ fuel) :
    s.placeFrames (bytes front ++ cut) seg o at_ fuel 0 moved = none := by
  rw [List.length_append] at hfuel
  have hrun : bytes front ++ cut = bytes [] ++ (bytes front ++ cut) := rfl
  obtain ⟨fuel', hfuel', h⟩ := placeFrames_walk s seg o at_ [] fuel moved hrun hfuel
  rw [bytes_nil, List.length_nil, List.nil_append] at h
  rw [h]
  have hlen := congrArg List.length hcut
  have hcutpos := List.length_pos_iff.mpr hne
  have hmorepos := List.length_pos_iff.mpr hmore
  rw [List.length_append] at hlen
  cases fuel' with
  | zero => omega
  | succ fuel' =>
    rw [placeFrames, if_pos (by rw [List.length_append]; omega)]
    rcases hhead : readHead (bytes front ++ cut) ⟨(bytes front).length, []⟩ with ⟨e | ⟨op, id, len⟩, c⟩
    · rfl
    · have hend := readHead_cut rfl hcut hhead
      dsimp only
      rw [if_pos (by rw [List.length_append]; omega)]

/-- The walk stands before the frames `ts`. -/
def Stands (held : List (List Record)) (so : Nat × Nat) (ts : List Spot) : Prop :=
  (∃ pre log, held[so.1]? = some (pre ++ log) ∧ so.2 = (bytes pre).length ∧
    ts = spots so.1 so.2 log ++ allSpots (so.1 + 1) (held.drop (so.1 + 1))) ∨
  held.length ≤ so.1 ∧ ts = []

theorem stands_next (held : List (List Record)) (seg : Nat) :
    Stands held (seg, 0) (allSpots seg (held.drop seg)) := by
  cases hseg : held[seg]? with
  | none =>
    have hle := List.getElem?_eq_none_iff.mp hseg
    exact .inr ⟨hle, by rw [List.drop_of_length_le hle]; rfl⟩
  | some log =>
    obtain ⟨hlt, hget⟩ := List.getElem?_eq_some_iff.mp hseg
    refine .inl ⟨[], log, hseg, rfl, ?_⟩
    rw [List.drop_eq_getElem_cons hlt, hget]
    rfl

theorem skipFull_spec (h : Fit s held) {ts : List Spot} {fuel : Nat} : ∀ {so : Nat × Nat},
    held.length ≤ fuel + so.1 → Stands held so ts →
    Stands held (skipFull s.segments fuel so) ts ∧
      ∀ g, s.segments[(skipFull s.segments fuel so).1]? = some g →
        (skipFull s.segments fuel so).2 ≠ g.data.length := by
  induction fuel with
  | zero =>
    intro so hfuel hso
    refine ⟨hso, fun g hg => ?_⟩
    have hlen := h.segs.length_eq
    obtain ⟨hlt, -⟩ := List.getElem?_eq_some_iff.mp hg
    have hlt' : so.1 < s.segments.length := hlt
    omega
  | succ fuel ih =>
    intro so hfuel hso
    rw [skipFull]
    cases hg : s.segments[so.1]? with
    | none =>
      dsimp only
      refine ⟨hso, fun g hg' => ?_⟩
      rw [hg] at hg'
      cases hg'
    | some g =>
      dsimp only
      split
      · next hfull =>
        -- nothing is left of this segment
        refine ih (by dsimp only; omega) ?_
        rcases hso with ⟨pre, log, hlog, hoff, rfl⟩ | ⟨hle, rfl⟩
        · obtain ⟨g', hg', hdata⟩ := h.segment hlog
          rw [hg] at hg'
          cases hg'
          have hnil : log = [] := by
            rw [hdata, bytes_append, List.length_append, hoff] at hfull
            cases log with
            | nil => rfl
            | cons r log =>
              have hpos := r.frame_pos
              rw [bytes_cons, List.length_append] at hfull
              omega
          subst hnil
          exact stands_next held (so.1 + 1)
        · exact .inr ⟨by dsimp only; omega, rfl⟩
      · next hfull =>
        refine ⟨hso, fun g' hg' => ?_⟩
        rw [hg] at hg'
        cases hg'
        exact hfull

/-- The loops and the walk come to the same. -/
def Agrees (held : List (List Record)) : Option ((Nat × Nat) × List (DocId × Loc)) →
    Option (List Spot × List (DocId × Loc)) → Prop
  | none, none => True
  | some (so, moved), some (ts, moved') => moved = moved' ∧ Stands held so ts
  | _, _ => False

/-- **A run's loop takes it off the list.** -/
theorem placeRun_agrees (h : Fit s held) {fuel : Nat} : ∀ (left at_ : Nat) {so : Nat × Nat}
    {ts : List Spot} (moved : List (DocId × Loc)), left ≤ fuel → Stands held so ts →
    Agrees held (s.placeRun fuel left at_ so moved) (takeRun s at_ left ts moved) := by
  induction fuel with
  | zero =>
    intro left at_ so ts moved hleft hso
    obtain rfl := Nat.le_zero.mp hleft
    rw [takeRun_zero]
    exact ⟨rfl, hso⟩
  | succ fuel ih =>
    intro left at_ so ts moved hleft hso
    rw [placeRun]
    by_cases hzero : 0 < left
    · rw [if_pos hzero]
      have hlen : held.length ≤ s.segments.length + so.1 := by
        rw [h.segs.length_eq]
        omega
      obtain ⟨hso', hgoes⟩ := skipFull_spec h hlen hso
      generalize skipFull s.segments s.segments.length so = so' at hso' hgoes ⊢
      dsimp only
      rcases hso' with ⟨pre, log, hlog, hoff, rfl⟩ | ⟨hle, rfl⟩
      · obtain ⟨g, hg, hdata⟩ := h.segment hlog
        have hmore := hgoes g hg
        have hdrop : g.data.drop so'.2 = bytes log := by
          rw [hdata, bytes_append, hoff, List.drop_left]
        have hrest : g.data.length - so'.2 = (bytes log).length := by
          rw [← hdrop, List.length_drop]
        have hlogpos : 0 < (bytes log).length := by
          have hsize : g.data.length = (bytes pre).length + (bytes log).length := by
            rw [hdata, bytes_append, List.length_append]
          omega
        rw [hg]
        dsimp only
        rw [hdrop, hrest]
        by_cases hall : (bytes log).length ≤ left
        · -- the run goes on past the segment
          rw [Nat.min_eq_right hall, List.take_length, placeFrames_log]
          dsimp only
          have hspots : (spotBytes (spots so'.1 so'.2 log)).length = (bytes log).length := by
            rw [spotBytes_spots]
          rw [takeRun_frames (by omega), hspots]
          refine ih _ _ _ (by omega) (.inl ⟨pre ++ log, [], ?_, ?_, rfl⟩)
          · rw [List.append_nil]
            exact hlog
          · rw [bytes_append, List.length_append, ← hoff]
        · -- it ends inside: between two frames of it, or in one
          rw [Nat.min_eq_left (by omega)]
          obtain ⟨front, back, rfl, hcut⟩ := cut_log log left (by omega)
          have hspots : (spotBytes (spots so'.1 so'.2 front)).length = (bytes front).length := by
            rw [spotBytes_spots]
          rw [spots_append, List.append_assoc]
          rcases hcut with hcut | ⟨r, more, rfl, hgt, hlt⟩
          · subst hcut
            rw [bytes_append, List.take_left, placeFrames_log]
            dsimp only
            rw [takeRun_frames (by omega), hspots, Nat.sub_self, takeRun_zero]
            cases fuel with
            | zero =>
              exact ⟨rfl, .inl ⟨pre ++ front, back, by rw [List.append_assoc]; exact hlog,
                by rw [bytes_append, List.length_append, ← hoff], rfl⟩⟩
            | succ fuel =>
              rw [placeRun, if_neg (Nat.lt_irrefl _)]
              exact ⟨rfl, .inl ⟨pre ++ front, back, by rw [List.append_assoc]; exact hlog,
                by rw [bytes_append, List.length_append, ← hoff], rfl⟩⟩
          · have htake : (bytes (front ++ r :: more)).take left =
                bytes front ++ r.frame.take (left - (bytes front).length) := by
              rw [bytes_append, bytes_cons, List.take_append, List.take_of_length_le (by omega),
                List.take_append_of_le_length (by omega)]
            have hsize : (bytes front ++ r.frame.take (left - (bytes front).length)).length ≤
                left := by
              rw [← htake, List.length_take]
              exact Nat.min_le_left _ _
            rw [htake, placeFrames_cut (List.take_append_drop _ _) ?_ ?_ hsize,
              takeRun_frames (by omega), hspots, spots, List.cons_append, takeRun,
              if_neg (by omega), if_pos (by dsimp only; omega)]
            · trivial
            · rw [← List.length_pos_iff, List.length_take]
              omega
            · rw [← List.length_pos_iff, List.length_drop]
              omega
      · -- no segment is left
        have hnone : s.segments[so'.1]? = none := by
          rw [List.getElem?_eq_none_iff, h.segs.length_eq]
          exact hle
        rw [hnone, takeRun, if_neg (by omega)]
        trivial
    · obtain rfl : left = 0 := by omega
      rw [if_neg hzero, takeRun_zero]
      exact ⟨rfl, hso⟩

/-- **So do all of them.** -/
theorem placeRuns_agrees (h : Fit s held) {landed : List (Nat × Nat)} : ∀ {so : Nat × Nat}
    {ts : List Spot} {moved : List (DocId × Loc)}, Stands held so ts →
    Agrees held (s.placeRuns landed so moved) (takeRuns s landed ts moved) := by
  induction landed with
  | nil => exact fun hso => ⟨rfl, hso⟩
  | cons run landed ih =>
    intro so ts moved hso
    obtain ⟨len, at_⟩ := run
    have hrun := placeRun_agrees h len at_ moved (Nat.le_refl len) hso
    rw [placeRuns, takeRuns]
    rcases hp : s.placeRun len len at_ so moved with _ | ⟨so', moved'⟩ <;>
      rcases ht : takeRun s at_ len ts moved with _ | ⟨ts', moved''⟩ <;> rw [hp, ht] at hrun
    · trivial
    · exact hrun.elim
    · exact hrun.elim
    · obtain ⟨rfl, hso'⟩ := hrun
      exact ih hso'

end Loops

end Store

end Segments

end Fenec
