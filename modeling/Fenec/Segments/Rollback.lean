/-
# A block put back

A store remembers where it stood before a block (`Mark`), and the block where each document was
before it wrote one.  Put back, the documents are pointed at where they were, the last write first,
and the store is cut off at its mark (`rewind`).

A block that grows large spills: its frames are written into the file and the store takes them in
from there with the records before them (`handOverKeeping`), so that the mark and every remembered
location have to move as well (`Mark.spilled`, `Moved.loc`).  What undoing then leaves is the
store as it was, documents and image (`Fit.undone`), as long as the block has spilled only
once: a later spill's mark keeps the stretches the earlier ones left (`spilled_twice`).
-/
import Fenec.Segments.Handed

namespace Fenec

open Lib Reader Codec Chunks

namespace Segments

/-! ## 1. Marks -/

/-- `Mark`: where a store stood. -/
structure Mark where
  segments : Nat
  /-- the last segment's length, and whether it was sealed -/
  len : Nat
  sealed : Bool
  stretches : Nat
  nextId : Nat
  deadBytes : Nat
  totalBytes : Nat

/-- **`Mark::spilled`.** -/
def Mark.spilled (m : Mark) (stretches : Nat) : Mark :=
  { m with segments := 1, len := 0, sealed := false, stretches := stretches }

namespace Store

/-- **`Store::mark`.** -/
def mark (s : Store) : Mark where
  segments := s.segments.length
  len := lastLen s.segments
  sealed := s.segments.getLast?.elim false fun g => g.sealed
  stretches := s.stretches.length
  nextId := s.nextId
  deadBytes := s.deadBytes
  totalBytes := s.totalBytes

/-- What `Store::point` makes of the index. -/
def pointed (ix : IdIndex Loc) (id : DocId) : Option Loc → IdIndex Loc
  | some l => ix.insert id l
  | none => ix.remove id

/-- The index pointed back, one write after another. -/
def pointedAll (ix : IdIndex Loc) (was : List (DocId × Option Loc)) : IdIndex Loc :=
  was.foldl (fun ix w => pointed ix w.1 w.2) ix

/-- **`Store::point`.** -/
def point (s : Store) (id : DocId) (loc : Option Loc) : Store :=
  { s with index := pointed s.index id loc }

/-- The segments cut off at a mark. -/
def cutSegments (segments : List Segment) (m : Mark) : List Segment :=
  let segments := segments.take (max m.segments 1)
  segments.modify (segments.length - 1) fun g =>
    ⟨if m.len < g.data.length then g.data.take m.len else g.data, m.sealed⟩

/-- **`Store::rewind`.** -/
def rewind (s : Store) (m : Mark) : Store :=
  { s with
    base := s.base.map fun b => (b.1, b.2.take m.stretches)
    segments := cutSegments s.segments m
    nextId := m.nextId
    deadBytes := m.deadBytes
    totalBytes := m.totalBytes }

end Store

/-! ## 2. Blocks -/

/-- A block's writes to a store: the store, the mark to go back to, and where each document
written was before, the last first. -/
structure Block where
  store : Store
  mark : Mark
  was : List (DocId × Option Loc)

namespace Block

/-- A block that has written nothing. -/
def start (s : Store) : Block := ⟨s, s.mark, []⟩

/-- A write. -/
def write (b : Block) (r : Record) : Block :=
  ⟨b.store.append r.op.byte r.id r.payload, b.mark, (r.id, b.store.index.get r.id) :: b.was⟩

/-- A spill: the store handed over, the mark and what is remembered moved with it. -/
def spill (b : Block) (base : List UInt8) (landed : List (Nat × Nat)) (keep : Nat) :
    Option Block :=
  match b.store.handOverKeeping base landed keep with
  | (some (moved, kept), t) =>
    some ⟨t, b.mark.spilled kept, b.was.map fun w => (w.1, w.2.map moved.loc)⟩
  | (none, _) => none

/-- The block put back. -/
def undo (b : Block) : Store :=
  (b.was.foldl (fun s w => s.point w.1 w.2) b.store).rewind b.mark

/-- How many bytes of the segments are from before the block: what its mark would leave. -/
def before (b : Block) : Nat :=
  ((b.store.rewind b.mark).segments.map (·.data.length)).sum

/-- **What a spill is of**: the file mapped further holds every frame of the segments, the first
`keep` runs the ones from before the block, and the next is a record of the block's. -/
structure Spills (b : Block) (base : List UInt8) (landed : List (Nat × Nat)) (keep : Nat) :
    Prop where
  further : b.store.file <+: base
  holding : ∃ logs, Store.Holding base landed logs ∧
    bytes logs.flatten = (b.store.segments.map (·.data)).flatten
  keeping : ((landed.take keep).map (·.1)).sum = b.before
  frames : ∃ run, landed[keep]? = some run ∧ 0 < run.1

/-- **A block's run**: writes, and spills to the runs that `ok` allows after so many. -/
inductive Ran (ok : Nat → Block → List (Nat × Nat) → Prop) (s : Store) : Nat → Block → Prop
  | start : Ran ok s 0 (.start s)
  | write {n : Nat} {b : Block} (r : Record) : Ran ok s n b → Ran ok s n (b.write r)
  | spill {n : Nat} {b b' : Block} {base : List UInt8} {landed : List (Nat × Nat)} {keep : Nat} :
      Ran ok s n b → ok n b landed → b.Spills base landed keep → b.spill base landed keep = some b' →
      Ran ok s (n + 1) b'

end Block

namespace Store

/-! ## 3. Pointing back -/

/-- What a block of writes remembers, the last first. -/
def traceOf (s : Store) (log : List Record) : List (DocId × Option Loc) :=
  log.foldl (fun (b : Block) r => b.write r) (.start s) |>.was

section Pointing

variable {s : Store} {held : List (List Record)}

/-- A block of writes, whatever was written before. -/
theorem foldl_write (log : List Record) : ∀ b : Block,
    log.foldl (fun (b : Block) r => b.write r) b =
      ⟨b.store.appendAll log, b.mark, b.store.traceOf log ++ b.was⟩ := by
  have hgo : ∀ (s : Store) (m m' : Mark) (was more : List (DocId × Option Loc)),
      log.foldl (fun (b : Block) r => b.write r) ⟨s, m, was ++ more⟩ =
        ⟨s.appendAll log, m, (log.foldl (fun (b : Block) r => b.write r) ⟨s, m', was⟩).was ++
          more⟩ := by
    induction log with
    | nil => exact fun s m m' was more => rfl
    | cons r log ih =>
      intro s m m' was more
      rw [List.foldl_cons, List.foldl_cons]
      exact ih (s.append r.op.byte r.id r.payload) m m' ((r.id, s.index.get r.id) :: was) more
  exact fun b => hgo b.store b.mark b.store.mark [] b.was

theorem traceOf_concat (s : Store) (log : List Record) (r : Record) :
    s.traceOf (log ++ [r]) = (r.id, (s.appendAll log).index.get r.id) :: s.traceOf log := by
  rw [traceOf, List.foldl_append, List.foldl_cons, List.foldl_nil, foldl_write]
  show (r.id, _) :: (s.traceOf log ++ []) = _
  rw [List.append_nil]
  rfl

theorem good_pointed {ix : IdIndex Loc} (h : ix.Good) {id : DocId} (hid : 1 ≤ id)
    (loc : Option Loc) : (pointed ix id loc).Good := by
  cases loc with
  | none => exact IdIndex.good_remove h id
  | some l => exact IdIndex.good_insert h hid

theorem get_pointed {ix : IdIndex Loc} (h : ix.Good) {id : DocId} (hid : 1 ≤ id)
    (loc : Option Loc) (k : DocId) :
    (pointed ix id loc).get k = if k = id then loc else ix.get k := by
  cases loc with
  | none => exact IdIndex.get_remove id k
  | some l => exact IdIndex.get_insert h.toPlaced hid k

theorem index_points (s : Store) (was : List (DocId × Option Loc)) :
    was.foldl (fun s w => s.point w.1 w.2) s =
      { s with index := pointedAll s.index was } := by
  induction was generalizing s with
  | nil => rfl
  | cons w was ih =>
    rw [List.foldl_cons, ih]
    rfl

/-- Ids a log does not write are where they were. -/
theorem get_appendAll (h : s.index.Good) (log : List Record) : (s.appendAll log).index.Good ∧
    ∀ id, id ∉ log.map (·.id) → (s.appendAll log).index.get id = s.index.get id := by
  induction log using List.reverseRecOn with
  | nil => exact ⟨h, fun _ _ => rfl⟩
  | append_singleton log r ih =>
    have hlanded := landed_append (s.appendAll log) r
    rw [appendAll_concat]
    refine ⟨hlanded.good ih.1, fun id hid => ?_⟩
    rw [List.map_append, List.mem_append, List.map_singleton, List.mem_singleton, not_or] at hid
    rw [hlanded.get_eq ih.1, if_neg hid.2, ih.2 id hid.1]

/-- **Pointed back, the last write first, every id written is where it was before the first.** -/
theorem points_back (h : s.index.Good) (f : Loc → Loc) (log : List Record) : ∀ {ix : IdIndex Loc},
    ix.Good → (pointedAll ix ((s.traceOf log).map fun w => (w.1, w.2.map f))).Good ∧
      ∀ id, (pointedAll ix ((s.traceOf log).map fun w => (w.1, w.2.map f))).get id =
          if id ∈ log.map (·.id) then (s.index.get id).map f else ix.get id := by
  induction log using List.reverseRecOn with
  | nil => exact fun hix => ⟨hix, fun id => by rw [if_neg (by simp)]; rfl⟩
  | append_singleton log r ih =>
    intro ix hix
    rw [traceOf_concat, List.map_cons, pointedAll, List.foldl_cons]
    obtain ⟨hgood, hget⟩ := ih (good_pointed hix r.id_pos
      (((s.appendAll log).index.get r.id).map f))
    refine ⟨hgood, fun id => ?_⟩
    rw [← pointedAll, hget, get_pointed hix r.id_pos]
    by_cases hlog : id ∈ log.map (·.id)
    · rw [if_pos hlog, if_pos (by rw [List.map_append]; exact List.mem_append_left _ hlog)]
    · rw [if_neg hlog]
      by_cases hr : id = r.id
      · rw [if_pos hr, if_pos (by simp [hr]), ← hr, (get_appendAll h log).2 id hlog]
      · rw [if_neg hr, if_neg]
        rw [List.map_append, List.mem_append, List.map_singleton, List.mem_singleton, not_or]
        exact ⟨hlog, hr⟩

/-- **So a log's writes pointed back leave the index as it was.** -/
theorem points_back_all (h : s.index.Good) (log : List Record) :
    (pointedAll (s.appendAll log).index (s.traceOf log)).Good ∧
      ∀ i, (pointedAll (s.appendAll log).index (s.traceOf log)).get i = s.index.get i := by
  obtain ⟨hgood, hget⟩ := get_appendAll h log
  have htrace : (s.traceOf log).map (fun w => (w.1, w.2.map id)) = s.traceOf log := by simp
  obtain ⟨hgood', hback⟩ := points_back h id log hgood
  rw [htrace] at hgood' hback
  refine ⟨hgood', fun i => ?_⟩
  rw [hback]
  split
  · exact Option.map_id_apply ..
  · next hi => exact hget i hi

end Pointing

/-! ## 4. Cutting off -/

/-- Segments that have grown: the last has more bytes and there are more after it. -/
def Grown (segments segments' : List Segment) : Prop :=
  ∃ init last more sealed rest, segments = init ++ [last] ∧
    segments' = init ++ ⟨last.data ++ more, sealed⟩ :: rest

section Cutting

variable {s : Store} {segments segments' : List Segment}

theorem grown_refl (h : segments ≠ []) : Grown segments segments :=
  ⟨segments.dropLast, segments.getLast h, [], (segments.getLast h).sealed, [],
    (List.dropLast_append_getLast h).symm, by
      rw [List.append_nil]
      exact (List.dropLast_append_getLast h).symm⟩

/-- A frame landed leaves grown segments grown. -/
theorem Grown.extend (h : Grown segments segments') (frame : List UInt8) :
    Grown segments (extend (active segments') frame) := by
  obtain ⟨init, last, more, sealed, rest, rfl, rfl⟩ := h
  rcases List.eq_nil_or_concat rest with rfl | ⟨rest, end_, rfl⟩
  · rw [extend_active_concat]
    split
    · exact ⟨init, last, more, true, [⟨frame, false⟩], rfl, rfl⟩
    · exact ⟨init, last, more ++ frame, sealed, [], rfl, by rw [List.append_assoc]⟩
  · rw [List.concat_eq_append, ← List.cons_append, ← List.append_assoc, extend_active_concat]
    split
    · exact ⟨init, last, more, sealed, rest ++ [{ end_ with sealed := true }, ⟨frame, false⟩], rfl,
        by simp⟩
    · exact ⟨init, last, more, sealed, rest ++ [{ end_ with data := end_.data ++ frame }], rfl,
        by simp⟩

theorem grown_appendAll (h : Grown segments s.segments) (log : List Record) :
    Grown segments (s.appendAll log).segments := by
  induction log using List.reverseRecOn with
  | nil => exact h
  | append_singleton log r ih =>
    rw [appendAll_concat, (segments_append _ r).1]
    exact ih.extend r.frame

theorem base_appendAll (s : Store) (log : List Record) :
    (s.appendAll log).base = s.base ∧ (s.appendAll log).dropped = s.dropped := by
  induction log using List.reverseRecOn with
  | nil => exact ⟨rfl, rfl⟩
  | append_singleton log r ih =>
    rw [appendAll_concat, (segments_append _ r).2, (landed_append _ r).dropped]
    exact ih

/-- **Grown segments cut off where they stood are what they were.** -/
theorem Grown.cut (h : Grown segments segments') {m : Mark} (hsegs : m.segments = segments.length)
    (hlen : m.len = lastLen segments)
    (hsealed : m.sealed = segments.getLast?.elim false fun g => g.sealed) :
    cutSegments segments' m = segments := by
  obtain ⟨init, last, more, sealed, rest, rfl, rfl⟩ := h
  rw [lastLen_concat] at hlen
  rw [List.getLast?_concat] at hsealed
  have htake : (init ++ (⟨last.data ++ more, sealed⟩ : Segment) :: rest).take (max m.segments 1) =
      init ++ [⟨last.data ++ more, sealed⟩] := by
    rw [hsegs, List.length_append, List.length_singleton, Nat.max_eq_left (by omega),
      List.take_length_add_append]
    rfl
  have hdata : (if m.len < (last.data ++ more).length then (last.data ++ more).take m.len
      else last.data ++ more) = last.data := by
    rw [hlen]
    split
    · exact List.take_left
    · next hle =>
      rw [List.length_append] at hle
      rw [List.length_eq_zero_iff.mp (show more.length = 0 by omega), List.append_nil]
  rw [cutSegments, htake, modify_last, hdata, hsealed]
  rfl

end Cutting

/-! ## 5. Stretches kept -/

section Keeping

variable {keep : Nat}

theorem takeIn_append (a b : List (Nat × Nat)) : ∀ (k : Nat) (stretches : List (Nat × Nat))
    (kept : Nat), takeIn keep k (a ++ b) stretches kept =
      takeIn keep (k + a.length) b (takeIn keep k a stretches kept).1
        (takeIn keep k a stretches kept).2 := by
  induction a with
  | nil => exact fun k stretches kept => rfl
  | cons run a ih =>
    intro k stretches kept
    obtain ⟨len, at_⟩ := run
    rw [List.cons_append, takeIn, takeIn, ih, List.length_cons, Nat.add_right_comm, Nat.add_assoc]

/-- After the first `keep` runs, what is kept is what there is. -/
theorem takeIn_kept {landed : List (Nat × Nat)} : ∀ {k : Nat} {stretches : List (Nat × Nat)}
    {kept : Nat}, k + landed.length = keep → landed ≠ [] ∨ kept = stretches.length →
    (takeIn keep k landed stretches kept).2 = (takeIn keep k landed stretches kept).1.length := by
  induction landed with
  | nil =>
    intro k stretches kept _ h
    exact h.resolve_left fun hne => hne rfl
  | cons run landed ih =>
    intro k stretches kept hk _
    obtain ⟨len, at_⟩ := run
    rw [List.length_cons] at hk
    rw [takeIn]
    refine ih (by omega) ?_
    cases landed with
    | nil =>
      rw [List.length_nil] at hk
      exact .inr (if_pos (by omega))
    | cons run landed => exact .inl (by simp)

/-- A run joined to the last of the stretches leaves the ones before it. -/
theorem joinRun_prefix {kept stretches : List (Nat × Nat)} (h : kept <+: stretches)
    (hlt : kept.length < stretches.length) (joins : Bool) (len at_ : Nat) :
    kept <+: joinRun stretches joins len at_ ∧
      kept.length < (joinRun stretches joins len at_).length := by
  have hpush : kept <+: stretches ++ [(at_, len)] ∧
      kept.length < (stretches ++ [(at_, len)]).length :=
    ⟨h.trans (List.prefix_append _ _), by rw [List.length_append]; omega⟩
  rcases List.eq_nil_or_concat stretches with rfl | ⟨init, last, rfl⟩
  · exact hpush
  · rw [List.concat_eq_append] at hpush h hlt ⊢
    rw [joinRun, List.getLast?_concat]
    dsimp only
    split
    · rw [List.length_append, List.length_singleton] at hlt
      rw [List.dropLast_concat]
      refine ⟨(List.prefix_of_prefix_length_le h (List.prefix_append init [last])
        (by omega)).trans (List.prefix_append _ _), ?_⟩
      rw [List.length_append, List.length_singleton]
      omega
    · exact hpush

/-- So do the runs after the one at `keep`. -/
theorem takeIn_prefix {landed : List (Nat × Nat)} : ∀ {k : Nat} {st stretches : List (Nat × Nat)}
    {kept : Nat}, keep < k → st <+: stretches → st.length < stretches.length →
    st <+: (takeIn keep k landed stretches kept).1 ∧
      (takeIn keep k landed stretches kept).2 = kept := by
  induction landed with
  | nil => exact fun _ h _ => ⟨h, rfl⟩
  | cons run landed ih =>
    intro k st stretches kept hk h hlt
    obtain ⟨len, at_⟩ := run
    have hne : ¬ k + 1 = keep := by omega
    rw [takeIn, if_neg hne]
    split
    · obtain ⟨h', hlt'⟩ := joinRun_prefix h hlt (k != keep) len at_
      exact ih (by omega) h' hlt'
    · exact ih (by omega) h hlt

/-- **What a mark keeps of the stretches is what the runs before the block left**, where the run
after them is not empty. -/
theorem takeIn_keeps {landed : List (Nat × Nat)} {run : Nat × Nat} (hrun : landed[keep]? = some run)
    (hpos : 0 < run.1) (stretches : List (Nat × Nat)) :
    (takeIn keep 0 landed stretches stretches.length).1.take
        (takeIn keep 0 landed stretches stretches.length).2 =
      (takeIn keep 0 (landed.take keep) stretches stretches.length).1 := by
  obtain ⟨hlt, hget⟩ := List.getElem?_eq_some_iff.mp hrun
  obtain ⟨len, at_⟩ := run
  have hsplit : landed = landed.take keep ++ (len, at_) :: landed.drop (keep + 1) := by
    conv_lhs => rw [← List.take_append_drop keep landed, List.drop_eq_getElem_cons hlt, hget]
  have hlen : (landed.take keep).length = keep := by
    rw [List.length_take]
    omega
  have hkept : (takeIn keep 0 (landed.take keep) stretches stretches.length).2 =
      (takeIn keep 0 (landed.take keep) stretches stretches.length).1.length :=
    takeIn_kept (by omega) (.inr rfl)
  generalize hst : (takeIn keep 0 (landed.take keep) stretches stretches.length).1 = st at hkept ⊢
  -- the block's first run starts a stretch of its own
  have hpush : joinRun st (keep != keep) len at_ = st ++ [(at_, len)] := by
    rw [joinRun]
    cases st.getLast? with
    | none => rfl
    | some last =>
      dsimp only
      rw [if_neg (by simp)]
  have hall : takeIn keep 0 landed stretches stretches.length =
      takeIn keep (keep + 1) (landed.drop (keep + 1)) (st ++ [(at_, len)]) st.length := by
    conv_lhs => rw [hsplit, takeIn_append, hst, hkept, hlen, Nat.zero_add]
    rw [takeIn, if_pos hpos, hpush, if_neg (by omega)]
  obtain ⟨hpre, hkept'⟩ : st <+: (takeIn keep (keep + 1) (landed.drop (keep + 1))
      (st ++ [(at_, len)]) st.length).1 ∧ _ :=
    takeIn_prefix (Nat.lt_succ_self keep) (List.prefix_append st [(at_, len)])
      (by rw [List.length_append, List.length_singleton]; omega)
  rw [hall, hkept', ← List.prefix_iff_eq_take.mp hpre]

end Keeping

/-! ## 6. Put back -/

/-- **The store as it was**, now and whatever is written to it later. -/
structure Restored (s t : Store) : Prop where
  same : Same s t
  later : ∀ log, Same (s.appendAll log) (t.appendAll log)

section Undo

variable {s t : Store} {held held' : List (List Record)}

theorem Same.restored (h : Same s t) (hs : Fit s held) (ht : Fit t held') : Restored s t :=
  ⟨h, fun log => h.appendAll hs ht log⟩

/-- What undoing leaves, but for its index, is what the mark says. -/
theorem undo_eq (b : Block) : b.undo =
    ({ b.store with index := pointedAll b.store.index b.was } : Store).rewind b.mark := by
  rw [Block.undo, index_points]

/-- An index that says the same is as good. -/
theorem Fit.reindexed (h : Fit s held) {ix : IdIndex Loc} (hgood : ix.Good)
    (hget : ∀ id, ix.get id = s.index.get id) :
    Fit { s with index := ix } held ∧ Same s { s with index := ix } := by
  have hfit : Fit { s with index := ix } held :=
    ⟨h.files, h.segs, h.some_segment, h.low, hgood, fun id l hl => by
      have hp := h.points id l ((hget id).symm.trans hl)
      cases l with
      | held seg off len => exact hp
      | file at_ len => exact hp⟩
  refine ⟨hfit, h.alike hfit fun id => ?_, rfl, rfl, rfl, rfl⟩
  rw [raw, raw, hget]
  rfl

/-- What a block that never spilled is put back to: the store, with an index that says the same. -/
theorem Fit.undo_writes_eq (h : Fit s held) (log : List Record) :
    Block.undo ⟨s.appendAll log, s.mark, s.traceOf log⟩ =
      { s with index := pointedAll (s.appendAll log).index (s.traceOf log) } := by
  have hcut := (grown_appendAll (grown_refl h.some_segment) log).cut (m := s.mark) rfl rfl rfl
  have hbase : s.base.map (fun b => (b.1, b.2.take s.stretches.length)) = s.base := by
    rw [stretches]
    cases s.base with
    | none => rfl
    | some b =>
      show some (b.1, b.2.take b.2.length) = some b
      rw [List.take_length]
  rw [undo_eq, rewind]
  dsimp only
  rw [hcut, (base_appendAll s log).1, (base_appendAll s log).2,
    show s.mark.stretches = s.stretches.length from rfl, hbase]
  rfl

/-- **A block that never spilled is put back.** -/
theorem Fit.undo_writes (h : Fit s held) (log : List Record) :
    Fit (Block.undo ⟨s.appendAll log, s.mark, s.traceOf log⟩) held ∧
      Same s (Block.undo ⟨s.appendAll log, s.mark, s.traceOf log⟩) := by
  obtain ⟨hgood, hget⟩ := points_back_all h.good log
  rw [h.undo_writes_eq log]
  exact h.reindexed hgood hget

/-- The bytes from before a block that has not spilled. -/
theorem Fit.before_eq (h : Fit s held) (log : List Record) (was : List (DocId × Option Loc)) :
    Block.before ⟨s.appendAll log, s.mark, was⟩ = (bytes held.flatten).length := by
  have hcut := (grown_appendAll (grown_refl h.some_segment) log).cut (m := s.mark) rfl rfl rfl
  rw [Block.before, rewind]
  dsimp only
  rw [hcut, h.held_length]

theorem append_inj_bytes {a b c d : List Record} (h : a ++ b = c ++ d)
    (hlen : (bytes a).length = (bytes c).length) : a = c := by
  have hbytes := congrArg bytes h
  rw [bytes_append, bytes_append] at hbytes
  exact bytes_injective (List.append_inj hbytes hlen).1

/-- What a log appended to a store leaves of the logs there were. -/
def GrownLogs (held held' : List (List Record)) : Prop :=
  ∀ (seg : Nat) x, held[seg]? = some x → held'.take seg = held.take seg ∧
    ∃ more, held'[seg]? = some (x ++ more)

/-- **What a spill took over**: the store's frames and the block's, a piece a run, the first `keep`
of them the store's. -/
structure Spilt (s : Store) (held held' : List (List Record)) (log : List Record)
    (base : List UInt8) (landed : List (Nat × Nat)) (keep : Nat) (pieces : List (List Spot)) :
    Prop where
  fit : Fit (s.appendAll log) held'
  flat : held'.flatten = held.flatten ++ log
  grown : GrownLogs held held'
  wrote : log ≠ []
  further : s.file <+: base
  spots : HoldingSpots base landed pieces
  all : pieces.flatten = allSpots 0 held'
  front : ∃ logs, Holding base (landed.take keep) logs ∧ logs.flatten = held.flatten

/-- A record of the store is before the block's, wherever it is. -/
theorem before_block {log : List Record} (hlog : log ≠ [])
    (hflat : held'.flatten = held.flatten ++ log) (hgrown : GrownLogs held held') {seg : Nat}
    {pre post : List Record} {r : Record} (hseg : held[seg]? = some (pre ++ r :: post)) :
    (bytes (held'.take seg).flatten).length + ((bytes pre).length + r.header.length) +
        r.payload.length ≤ (bytes held.flatten).length ∧
      (bytes held.flatten).length < (bytes held'.flatten).length := by
  obtain ⟨htake, -⟩ := hgrown seg _ hseg
  obtain ⟨hlt, hget⟩ := List.getElem?_eq_some_iff.mp hseg
  have hold : held.flatten = (held.take seg).flatten ++
      ((pre ++ r :: post) ++ (held.drop (seg + 1)).flatten) := by
    conv_lhs => rw [← List.take_append_drop seg held, List.drop_eq_getElem_cons hlt, hget]
    rw [List.flatten_append, List.flatten_cons]
  have hsize := congrArg (fun log => (bytes log).length) hold
  have hnew : 0 < (bytes log).length := by
    cases log with
    | nil => exact absurd rfl hlog
    | cons q log =>
      have hpos := q.frame_pos
      rw [bytes_cons, List.length_append]
      omega
  simp only [bytes_append, bytes_cons, List.length_append, r.length_frame] at hsize
  rw [htake, hflat, bytes_append, List.length_append]
  constructor
  · omega
  · omega

/-- What a location the store had is moved to reads as it did. -/
theorem Spilt.moved_back {log : List Record} {base : List UInt8} {landed : List (Nat × Nat)}
    {keep : Nat} {pieces : List (List Spot)} (hs : Spilt s held held' log base landed keep pieces)
    (h : Fit s held) {id : DocId} {l : Loc} (hl : s.index.get id = some l) :
    ∃ p, s.payload l = .ok p ∧
      InFile base (Moved.loc ⟨startsFrom 0 (s.appendAll log).segments, landed⟩ l) p := by
  cases l with
  | file at_ len => exact h.inFile hs.further hl
  | held seg off len =>
    obtain ⟨r, pre, post, -, -, hseg, rfl, rfl⟩ := h.points id _ hl
    obtain ⟨-, more, hseg'⟩ := hs.grown seg _ hseg
    rw [List.append_assoc, List.cons_append] at hseg'
    obtain ⟨hle, hlt⟩ := before_block hs.wrote hs.flat hs.grown hseg
    exact ⟨r.payload, h.payload_held hseg, hs.fit.moved_loc hs.spots hs.all hseg' (by omega)⟩

/-- What the index had is read as it was while records are appended. -/
theorem Spilt.payload_eq {log : List Record} {base : List UInt8} {landed : List (Nat × Nat)}
    {keep : Nat} {pieces : List (List Spot)} (hs : Spilt s held held' log base landed keep pieces)
    (h : Fit s held) {id : DocId} {l : Loc} (hl : s.index.get id = some l)
    (hl' : (s.appendAll log).index.get id = some l) :
    (s.appendAll log).payload l = s.payload l := by
  cases l with
  | held seg off len =>
    obtain ⟨r, pre, post, -, -, hseg, rfl, rfl⟩ := h.points id _ hl
    obtain ⟨-, more, hseg'⟩ := hs.grown seg _ hseg
    rw [List.append_assoc, List.cons_append] at hseg'
    rw [h.payload_held hseg, hs.fit.payload_held hseg']
  | file at_ len =>
    rw [h.payload_file hl, hs.fit.payload_file hl', file, file, (base_appendAll s log).1]

/-- The bytes a block's frames take in the file are frames of it. -/
theorem spilled_logs {log : List Record} {logs : List (List Record)}
    {base : List UInt8} {landed : List (Nat × Nat)} {keep : Nat} {run : Nat × Nat}
    (hholding : Holding base landed logs) (hlogs : logs.flatten = held.flatten ++ log)
    (hkeeping : ((landed.take keep).map (·.1)).sum = (bytes held.flatten).length)
    (hrun : landed[keep]? = some run) (hpos : 0 < run.1) :
    log ≠ [] ∧ Holding base (landed.take keep) (logs.take keep) ∧
      (logs.take keep).flatten = held.flatten := by
  have hfront : Holding base (landed.take keep) (logs.take keep) := List.forall₂_take keep hholding
  have hsplit : (logs.take keep).flatten ++ (logs.drop keep).flatten = held.flatten ++ log := by
    rw [← List.flatten_append, List.take_append_drop, hlogs]
  have hlen : (bytes (logs.take keep).flatten).length = (bytes held.flatten).length := by
    rw [← hfront.sum_lengths, hkeeping]
  refine ⟨fun hnil => ?_, hfront, append_inj_bytes hsplit hlen⟩
  -- the run at `keep` is of the block
  have hall := hholding.sum_lengths
  rw [hlogs, hnil, List.append_nil, ← List.take_append_drop keep landed, List.map_append,
    List.sum_append, hkeeping] at hall
  obtain ⟨hlt, hget⟩ := List.getElem?_eq_some_iff.mp hrun
  rw [List.drop_eq_getElem_cons hlt, hget, List.map_cons, List.sum_cons] at hall
  omega

/-- Cut off at a mark that was spilled, a store is what it was then, read from the file. -/
theorem rewind_spilled {base : List UInt8} {stretches : List (Nat × Nat)} {ix : IdIndex Loc}
    (hdropped : t.dropped = s.dropped) (more : List Record) (index : IdIndex Loc) (kept : Nat) :
    ({ (t.filed base stretches ix).appendAll more with index := index } : Store).rewind
      (s.mark.spilled kept) = s.filed base (stretches.take kept) index := by
  have hstart : Grown [Segment.empty] (t.filed base stretches ix).segments :=
    grown_refl (List.cons_ne_nil _ _)
  have hgrown := grown_appendAll hstart more
  have hcut := hgrown.cut (m := s.mark.spilled kept) rfl rfl rfl
  obtain ⟨hbase, hdropped'⟩ := base_appendAll (t.filed base stretches ix) more
  rw [rewind]
  dsimp only
  rw [hcut, hbase, hdropped', show (t.filed base stretches ix).dropped = s.dropped from hdropped]
  rfl

/-- **What a block that spilled once is put back to**: the store read from the file, the stretches
those of the runs before the block, each id where it was or where that moved. -/
theorem Fit.undo_spilled_eq (h : Fit s held) {log : List Record} {base : List UInt8}
    {landed : List (Nat × Nat)} {keep : Nat} {b : Block}
    (hspills : Block.Spills ⟨s.appendAll log, s.mark, s.traceOf log⟩ base landed keep)
    (hb : Block.spill ⟨s.appendAll log, s.mark, s.traceOf log⟩ base landed keep = some b)
    (more : List Record) : ∃ held' pieces ix,
      Spilt s held held' log base landed keep pieces ∧ ix.Good ∧
      (∀ id, ix.get id = if id ∈ log.map (·.id) then
          (s.index.get id).map (Moved.loc ⟨startsFrom 0 (s.appendAll log).segments, landed⟩)
        else (indexTaken (s.appendAll log) landed pieces).get id) ∧
      (more.foldl (fun (b : Block) r => b.write r) b).undo =
        s.filed base (takeIn keep 0 (landed.take keep) s.stretches s.stretches.length).1 ix := by
  obtain ⟨held', hfit, hflat, hgrown⟩ := h.appendAll log
  have hbase := base_appendAll s log
  have hfile : (s.appendAll log).file = s.file := by rw [file, hbase.1, file]
  have hstretches : (s.appendAll log).stretches = s.stretches := by
    rw [stretches, hbase.1, stretches]
  have hpre : (s.appendAll log).file <+: base := hspills.further
  obtain ⟨run, hrun, hpos⟩ := hspills.frames
  obtain ⟨logs, hholding, hbytes⟩ := hspills.holding
  have hlogs : logs.flatten = held'.flatten := by
    refine bytes_injective ?_
    rw [hbytes, map_eq_of_forall₂ hfit.segs, bytes_flatten]
  have hkeeping := hspills.keeping
  rw [h.before_eq] at hkeeping
  obtain ⟨hne, hfront, hfrontlogs⟩ :=
    spilled_logs hholding (hlogs.trans hflat) hkeeping hrun hpos
  obtain ⟨pieces, hspots, hall⟩ := pieces_of_holding hholding hlogs
  have hlanded : landed ≠ [] := fun hnil => by
    rw [hnil] at hrun
    cases hrun
  rw [Block.spill, hfit.handOverKeeping_eq hpre hspots hall hlanded keep] at hb
  cases hb
  have htaken := (hfit.reads_taken hpre hspots hall).1
  -- the later writes pointed back, then the ones from before the spill
  obtain ⟨hgood₁, hget₁⟩ := points_back_all (s := (s.appendAll log).filed base
    (takeIn keep 0 landed s.stretches s.stretches.length).1
    (indexTaken (s.appendAll log) landed pieces)) htaken more
  obtain ⟨hgood₂, hget₂⟩ := points_back h.good
    (Moved.loc ⟨startsFrom 0 (s.appendAll log).segments, landed⟩) log hgood₁
  refine ⟨held', pieces, _, ⟨hfit, hflat, hgrown, hne, hfile ▸ hpre, hspots, hall, _, hfront,
    hfrontlogs⟩, hgood₂, fun id => ?_, ?_⟩
  · rw [hget₂, hget₁]
    rfl
  · have hpoints : ∀ (ix : IdIndex Loc) (a b : List (DocId × Option Loc)),
        pointedAll ix (a ++ b) = pointedAll (pointedAll ix a) b := fun ix a b => List.foldl_append
    rw [hstretches, foldl_write, undo_eq, hpoints]
    dsimp only
    rw [rewind_spilled hbase.2, takeIn_keeps hrun hpos]

/-- **A block that spilled once is put back.** -/
theorem Fit.undo_spilled (h : Fit s held) {log : List Record} {base : List UInt8}
    {landed : List (Nat × Nat)} {keep : Nat} {b : Block}
    (hspills : Block.Spills ⟨s.appendAll log, s.mark, s.traceOf log⟩ base landed keep)
    (hb : Block.spill ⟨s.appendAll log, s.mark, s.traceOf log⟩ base landed keep = some b)
    (more : List Record) :
    Fit (more.foldl (fun (b : Block) r => b.write r) b).undo [[]] ∧
      Same s (more.foldl (fun (b : Block) r => b.write r) b).undo := by
  obtain ⟨held', pieces, ix, hs, hgood, hget, hundo⟩ := h.undo_spilled_eq hspills hb more
  have hpre : (s.appendAll log).file <+: base := hspills.further
  have hreads := (hs.fit.reads_taken hpre hs.spots hs.all).2
  have hunwritten := (get_appendAll h.good log).2
  -- the stretches left are the ones before the block
  have hold : ∀ st ∈ s.stretches, st.1 + st.2 ≤ base.length :=
    fun st hst => Nat.le_trans (h.files st hst) hs.further.length_le
  have hinside : ∀ run ∈ landed.take keep, run.2 + run.1 ≤ base.length :=
    fun run hrun => hs.spots.inside run (List.mem_of_mem_take hrun)
  obtain ⟨hin, hslices⟩ := takeIn_spec keep 0 s.stretches.length hold hinside
  have himage : slices base (takeIn keep 0 (landed.take keep) s.stretches s.stretches.length).1 =
      s.image := by
    obtain ⟨logs, hfront, hlogs⟩ := hs.front
    rw [hslices, hfront.slices, hlogs, slices_of_prefix hs.further h.files, h.image_eq]
  rw [hundo]
  refine h.filed_same hin hgood (fun id => ?_) himage
  -- each id is where it was, moved
  rw [ReadsIn, hget]
  by_cases hid : id ∈ log.map (·.id)
  · rw [if_pos hid]
    cases hl : s.index.get id with
    | none => exact .inl ⟨rfl, rfl⟩
    | some l =>
      obtain ⟨p, hp, hmoved⟩ := hs.moved_back h hl
      exact .inr ⟨l, _, p, rfl, rfl, hp, hmoved⟩
  · rw [if_neg hid]
    have hwas := hunwritten id hid
    rcases hreads id with ⟨hnone, hnone'⟩ | ⟨l, l', p, hl, hl', hp, hmoved⟩
    · exact .inl ⟨hwas.symm.trans hnone, hnone'⟩
    · have hls := hwas.symm.trans hl
      rw [hs.payload_eq h hls hl] at hp
      exact .inr ⟨l, l', p, hls, hl', hp, hmoved⟩

/-- A run that spills at most once: writes, or writes, the spill and writes. -/
theorem ran_once {ok : Nat → Block → List (Nat × Nat) → Prop} {n : Nat} {b : Block}
    (h : Block.Ran (fun n b landed => n = 0 ∧ ok n b landed) s n b) :
    (n = 0 ∧ ∃ log, b = ⟨s.appendAll log, s.mark, s.traceOf log⟩) ∨
      ∃ (log : List Record) (base : List UInt8) (landed : List (Nat × Nat)) (keep : Nat)
        (b₁ : Block) (more : List Record),
        ok 0 ⟨s.appendAll log, s.mark, s.traceOf log⟩ landed ∧
        Block.Spills ⟨s.appendAll log, s.mark, s.traceOf log⟩ base landed keep ∧
        Block.spill ⟨s.appendAll log, s.mark, s.traceOf log⟩ base landed keep = some b₁ ∧
        n = 1 ∧ b = more.foldl (fun (b : Block) r => b.write r) b₁ := by
  induction h with
  | start => exact .inl ⟨rfl, [], rfl⟩
  | write r _ ih =>
    rcases ih with ⟨hn, log, rfl⟩ | ⟨log, base, landed, keep, b₁, more, hok, hs, hb, hn, rfl⟩
    · refine .inl ⟨hn, log ++ [r], ?_⟩
      rw [Block.write, appendAll_concat, traceOf_concat]
    · refine .inr ⟨log, base, landed, keep, b₁, more ++ [r], hok, hs, hb, hn, ?_⟩
      rw [List.foldl_append]
      rfl
  | spill _ hok hs hb ih =>
    obtain ⟨hzero, hok⟩ := hok
    subst hzero
    rcases ih with ⟨-, log, rfl⟩ | ⟨_, _, _, _, _, _, _, _, _, hn, -⟩
    · exact .inr ⟨log, _, _, _, _, [], hok, hs, hb, rfl, rfl⟩
    · cases hn

theorem ran_imp {ok ok' : Nat → Block → List (Nat × Nat) → Prop}
    (himp : ∀ n b landed, ok n b landed → ok' n b landed) {n : Nat} {b : Block}
    (h : Block.Ran ok s n b) : Block.Ran ok' s n b := by
  induction h with
  | start => exact .start
  | write r _ ih => exact .write r ih
  | spill _ hok hs hb ih => exact .spill ih (himp _ _ _ hok) hs hb

/-- **A block is put back, whatever it wrote and whether or not it spilled, once.** -/
theorem Fit.undone (h : Fit s held) {ok : Nat → Block → List (Nat × Nat) → Prop} {n : Nat}
    {b : Block} (hran : Block.Ran (fun n b landed => n = 0 ∧ ok n b landed) s n b) :
    ∃ held', Fit b.undo held' ∧ Same s b.undo := by
  rcases ran_once hran with ⟨-, log, rfl⟩ | ⟨log, base, landed, keep, b₁, more, -, hs, hb, -, rfl⟩
  · exact ⟨held, h.undo_writes log⟩
  · exact ⟨[[]], h.undo_spilled hs hb more⟩

end Undo

end Store

end Segments

end Fenec
