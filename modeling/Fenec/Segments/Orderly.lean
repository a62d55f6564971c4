/-
# Stores in order

`relocateImage` needs a store whose stretches follow one another in the file, with every document
read from the file inside one of them (`Orderly`).  A file only grows, so the runs a handover takes
are past the stretches there are (`Past`); taken in, joined or not, they leave the store orderly
(`Orderly.handed`), and so does a block put back (`Orderly.undone`): what it points back at is in
the runs before it, where its payload is not empty.
-/
import Fenec.Segments.Relocate
import Fenec.Segments.Rollback

namespace Fenec

open Lib Reader Codec Chunks

namespace Segments

namespace Store

/-! ## 1. Runs past the stretches -/

/-- Stretches one after another. -/
def Ascends (stretches : List (Nat × Nat)) : Prop :=
  stretches.Pairwise fun a b => a.1 + a.2 ≤ b.1

/-- **The runs are one after another in the file, past the stretches.** -/
def Past (stretches landed : List (Nat × Nat)) : Prop :=
  Ascends (stretches ++ landed.map fun run => (run.2, run.1))

/-- A place and a length inside a run that is not empty, past its start. -/
def InRuns (landed : List (Nat × Nat)) (at_ len : Nat) : Prop :=
  ∃ run ∈ landed, 0 < run.1 ∧ run.2 < at_ ∧ at_ + len ≤ run.2 + run.1

section Runs

variable {stretches landed : List (Nat × Nat)}

/-- A run onto the end of the stretches: what was inside one is, and what is inside the run. -/
theorem joinRun_inside (stretches : List (Nat × Nat)) (at_ len : Nat) (joins : Bool)
    (place n : Nat) :
    (Inside stretches at_ len → Inside (joinRun stretches joins n place) at_ len) ∧
      (place < at_ → at_ + len ≤ place + n → Inside (joinRun stretches joins n place) at_ len) := by
  have hpush : (Inside stretches at_ len → Inside (stretches ++ [(place, n)]) at_ len) ∧
      (place < at_ → at_ + len ≤ place + n → Inside (stretches ++ [(place, n)]) at_ len) := by
    refine ⟨?_, fun hfrom hin => ⟨(place, n), by simp, hfrom, hin⟩⟩
    rintro ⟨st, hst, hfrom, hin⟩
    exact ⟨st, List.mem_append_left _ hst, hfrom, hin⟩
  rcases List.eq_nil_or_concat stretches with rfl | ⟨init, last, rfl⟩
  · exact hpush
  · rw [List.concat_eq_append] at hpush ⊢
    rw [joinRun, List.getLast?_concat]
    dsimp only
    split
    · next hjoin =>
      rw [List.dropLast_concat]
      constructor
      · rintro ⟨st, hst, hfrom, hin⟩
        rcases List.mem_append.mp hst with hst | hst
        · exact ⟨st, List.mem_append_left _ hst, hfrom, hin⟩
        · rw [List.mem_singleton] at hst
          subst hst
          exact ⟨(st.1, st.2 + n), by simp, hfrom, by dsimp only; omega⟩
      · intro hfrom hin
        exact ⟨(last.1, last.2 + n), by simp, by dsimp only; omega, by dsimp only; omega⟩
    · exact hpush

/-- Joined or not, the stretches ascend, and the runs after it are past them. -/
theorem joinRun_past (joins : Bool) {place n : Nat}
    (h : Past stretches ((n, place) :: landed)) : Past (joinRun stretches joins n place) landed := by
  have hpush : Past (stretches ++ [(place, n)]) landed := by
    rw [Past, List.append_assoc]
    exact h
  rcases List.eq_nil_or_concat stretches with rfl | ⟨init, last, rfl⟩
  · exact hpush
  · rw [List.concat_eq_append] at hpush h ⊢
    rw [joinRun, List.getLast?_concat]
    dsimp only
    split
    · next hjoin =>
      rw [List.dropLast_concat]
      rw [Past, Ascends, List.append_assoc, List.singleton_append] at h ⊢
      obtain ⟨hinit, hrest, hbefore⟩ := List.pairwise_append.mp h
      obtain ⟨hlast, hruns⟩ := List.pairwise_cons.mp hrest
      obtain ⟨hrun, htail⟩ := List.pairwise_cons.mp hruns
      refine List.pairwise_append.mpr ⟨hinit, List.pairwise_cons.mpr ⟨fun b hb => ?_, htail⟩,
        fun a ha b hb => ?_⟩
      · have hnext := hrun b hb
        dsimp only at hnext ⊢
        omega
      · rcases List.mem_cons.mp hb with rfl | hb
        · exact hbefore a ha last (List.mem_cons_self ..)
        · exact hbefore a ha b (List.mem_cons_of_mem _ (List.mem_cons_of_mem _ hb))
    · exact hpush

/-- **Runs taken in leave the stretches ascending, and what was inside them and what is inside the
runs inside.** -/
theorem takeIn_orderly (keep : Nat) {landed : List (Nat × Nat)} : ∀ (k : Nat)
    {stretches : List (Nat × Nat)} (kept : Nat), Past stretches landed →
    Ascends (takeIn keep k landed stretches kept).1 ∧
      ∀ at_ len, Inside stretches at_ len ∨ InRuns landed at_ len →
        Inside (takeIn keep k landed stretches kept).1 at_ len := by
  induction landed with
  | nil =>
    intro k stretches kept h
    rw [Past, List.map_nil, List.append_nil] at h
    refine ⟨h, fun at_ len hin => hin.resolve_right ?_⟩
    rintro ⟨run, hrun, -⟩
    cases hrun
  | cons run landed ih =>
    intro k stretches kept h
    obtain ⟨n, place⟩ := run
    rw [takeIn]
    split
    · next hpos =>
      obtain ⟨hasc, hinside⟩ := ih (k + 1) (if k + 1 = keep then
        (joinRun stretches (k != keep) n place).length else kept) (joinRun_past (k != keep) h)
      refine ⟨hasc, fun at_ len hin => hinside at_ len ?_⟩
      obtain ⟨hold, hnew⟩ := joinRun_inside stretches at_ len (k != keep) place n
      rcases hin with hin | ⟨run, hrun, hrpos, hfrom, hle⟩
      · exact .inl (hold hin)
      · rcases List.mem_cons.mp hrun with rfl | hrun
        · exact .inl (hnew hfrom hle)
        · exact .inr ⟨run, hrun, hrpos, hfrom, hle⟩
    · next hpos =>
      have h' : Past stretches landed := by
        refine h.sublist (List.Sublist.append_left ?_ _)
        exact List.sublist_cons_self ..
      obtain ⟨hasc, hinside⟩ := ih (k + 1) (if k + 1 = keep then stretches.length else kept) h'
      refine ⟨hasc, fun at_ len hin => hinside at_ len ?_⟩
      rcases hin with hin | ⟨run, hrun, hrpos, hfrom, hle⟩
      · exact .inl hin
      · rcases List.mem_cons.mp hrun with rfl | hrun
        · exact absurd hrpos hpos
        · exact .inr ⟨run, hrun, hrpos, hfrom, hle⟩

end Runs

/-! ## 2. Appends and handovers -/

section Handed

variable {s : Store} {held logs : List (List Record)} {base : List UInt8}
  {landed : List (Nat × Nat)} {pieces : List (List Spot)}

/-- **An append leaves what is in the file where it is.** -/
theorem Orderly.append (ho : Orderly s) (hgood : s.index.Good) (r : Record) :
    Orderly (s.append r.op.byte r.id r.payload) := by
  have hst : (s.append r.op.byte r.id r.payload).stretches = s.stretches := by
    rw [stretches, (segments_append s r).2, stretches]
  refine ⟨hst ▸ ho.ascending, fun id at_ len hl => ?_⟩
  rw [(landed_append s r).get_eq hgood] at hl
  rw [hst]
  split at hl
  · split at hl
    · rw [nextLoc] at hl
      cases hl
    · cases hl
  · exact ho.inside id at_ len hl

/-- What moves goes inside a run. -/
theorem moved_inRuns (hspots : HoldingSpots base landed pieces) {m : DocId × Loc}
    (hm : m ∈ picksAll s landed pieces) : ∃ at_ len, m.2 = .file at_ len ∧ InRuns landed at_ len := by
  have hmem : List.Forall₂ (fun run piece => run.1 = (spotBytes piece).length ∧ run ∈ landed)
      landed pieces := by
    have hgo : ∀ {l : List (Nat × Nat)} {ps : List (List Spot)}, HoldingSpots base l ps →
        (∀ run ∈ l, run ∈ landed) →
        List.Forall₂ (fun run piece => run.1 = (spotBytes piece).length ∧ run ∈ landed) l ps := by
      intro l ps h
      induction h with
      | nil => exact fun _ => .nil
      | cons hrel _ ih =>
        intro hall
        exact .cons ⟨hrel.1, hall _ (List.mem_cons_self ..)⟩
          (ih fun run hrun => hall run (List.mem_cons_of_mem _ hrun))
    exact hgo hspots fun _ h => h
  obtain ⟨run, piece, ⟨hlen, hrun⟩, -, hm⟩ := mem_picksAll hmem hm
  obtain ⟨before, t, after, rfl, -, -, hloc⟩ := mem_picks hm
  rw [Nat.mod_eq_of_lt t.record.short] at hloc
  have hpos := t.record.header_pos
  have hframe := t.record.length_frame
  rw [spotBytes_append, spotBytes_cons, List.length_append, List.length_append] at hlen
  exact ⟨_, _, hloc, run, hrun, by omega, by omega, by omega⟩

/-- **A handover in the file's order leaves a store in order.** -/
theorem Orderly.handed (ho : Orderly s) (h : Fit s held)
    (hspots : HoldingSpots base landed pieces) (hall : pieces.flatten = allSpots 0 held)
    (hpast : Past s.stretches landed) (keep : Nat) :
    Orderly (s.filed base (takeIn keep 0 landed s.stretches s.stretches.length).1
      (indexTaken s landed pieces)) := by
  obtain ⟨hasc, hinside⟩ := takeIn_orderly keep 0 s.stretches.length hpast
  refine ⟨hasc, fun id at_ len hl => hinside at_ len ?_⟩
  obtain ⟨-, hget⟩ := insertAll_spec h.good fun m hm => (h.mem_moved hspots hall hm).1
  rcases hget id with ⟨l, hm, heq⟩ | ⟨-, heq⟩
  · have heq' : some l = some (Loc.file at_ len) := heq.symm.trans hl
    cases heq'
    obtain ⟨a, n, hloc, hrun⟩ := moved_inRuns hspots hm
    cases hloc
    exact .inr hrun
  · exact .inl (ho.inside id at_ len (heq.symm.trans hl))

end Handed

/-! ## 3. A block put back -/

section Undone

variable {s : Store} {held held' : List (List Record)} {log : List Record} {base : List UInt8}
  {landed : List (Nat × Nat)} {keep : Nat} {pieces : List (List Spot)}

theorem spots_position {seg : Nat} {log : List Record} {t : Spot} {after : List Spot} :
    ∀ {off : Nat} {before : List Spot}, spots seg off log = before ++ t :: after →
      t.seg = seg ∧ t.off = off + (spotBytes before).length := by
  induction log with
  | nil =>
    intro off before h
    cases before <;> cases h
  | cons r log ih =>
    intro off before h
    rw [spots] at h
    cases before with
    | nil =>
      rw [List.nil_append, List.cons.injEq] at h
      rw [← h.1]
      exact ⟨rfl, rfl⟩
    | cons u before =>
      rw [List.cons_append, List.cons.injEq] at h
      obtain ⟨hseg, hoff⟩ := ih h.2
      refine ⟨hseg, ?_⟩
      rw [hoff, spotBytes_cons, List.length_append, ← h.1, Nat.add_assoc]

/-- **How far into what is held a frame of the list stands.** -/
theorem allSpots_position {t : Spot} {after : List Spot} : ∀ {held : List (List Record)} {k : Nat}
    {before : List Spot}, allSpots k held = before ++ t :: after →
      k ≤ t.seg ∧ (spotBytes before).length =
        (bytes (held.take (t.seg - k)).flatten).length + t.off := by
  intro held
  induction held with
  | nil =>
    intro k before h
    cases before <;> cases h
  | cons log held ih =>
    intro k before h
    rw [allSpots] at h
    -- the frame is in a later segment, or in this one
    have hlater : ∀ {more : List Spot}, before = spots k 0 log ++ more →
        allSpots (k + 1) held = more ++ t :: after → k ≤ t.seg ∧ (spotBytes before).length =
          (bytes ((log :: held).take (t.seg - k)).flatten).length + t.off := by
      intro more hbefore hmore
      obtain ⟨hle, hlen⟩ := ih hmore
      have hsub : t.seg - k = t.seg - (k + 1) + 1 := by omega
      refine ⟨by omega, ?_⟩
      rw [hbefore, spotBytes_append, List.length_append, hlen, spotBytes_spots, hsub,
        List.take_succ_cons, List.flatten_cons, bytes_append, List.length_append, Nat.add_assoc]
    rcases List.append_eq_append_iff.mp h with ⟨more, hbefore, hmore⟩ | ⟨more, hspots, hmore⟩
    · exact hlater hbefore hmore
    · cases more with
      | nil =>
        rw [List.append_nil] at hspots
        have hbefore : before = spots k 0 log ++ [] := by rw [List.append_nil, hspots]
        exact hlater hbefore hmore.symm
      | cons u more =>
        rw [List.cons_append, List.cons.injEq] at hmore
        obtain ⟨rfl, -⟩ := hmore
        obtain ⟨hseg, hoff⟩ := spots_position hspots
        refine ⟨Nat.le_of_eq hseg.symm, ?_⟩
        rw [hoff, hseg, Nat.sub_self, Nat.zero_add]
        exact (Nat.zero_add _).symm

/-- **A payload that is not empty is found in the run of its frame**, whatever runs follow. -/
theorem runPlace_inRuns (hfits : Fits landed pieces) (more : List (Nat × Nat)) {t : Spot}
    (hne : t.record.payload ≠ []) {after : List Spot} : ∀ {before : List Spot} (from_ : Nat),
      pieces.flatten = before ++ t :: after →
      ∃ at_, Moved.runPlace (landed ++ more) from_ (from_ + ((spotBytes before).length +
          t.record.header.length)) = some at_ ∧ InRuns landed at_ t.record.payload.length := by
  have hpos := List.length_pos_iff.mpr hne
  induction hfits with
  | nil =>
    intro before from_ h
    simp at h
  | @cons run piece landed pieces hlen _ ih =>
    intro before from_ h
    obtain ⟨len, place⟩ := run
    dsimp only at hlen
    rw [List.flatten_cons] at h
    rw [List.cons_append, Moved.runPlace]
    have hlater : ∀ {rest : List Spot}, before = piece ++ rest →
        pieces.flatten = rest ++ t :: after → ∃ at_, (if from_ + ((spotBytes before).length +
            t.record.header.length) < from_ + len then
              some (place + (from_ + ((spotBytes before).length + t.record.header.length) - from_))
            else Moved.runPlace (landed ++ more) (from_ + len) (from_ + ((spotBytes before).length +
              t.record.header.length))) = some at_ ∧
          InRuns ((len, place) :: landed) at_ t.record.payload.length := by
      intro rest hbefore hrest
      obtain ⟨at_, hat, run, hrun, hin⟩ := ih (from_ + len) hrest
      have hsize : (spotBytes before).length = len + (spotBytes rest).length := by
        rw [hbefore, spotBytes_append, List.length_append, hlen]
      refine ⟨at_, ?_, run, List.mem_cons_of_mem _ hrun, hin⟩
      rw [if_neg (by omega), ← hat]
      congr 1
      omega
    rcases List.append_eq_append_iff.mp h with ⟨rest, hbefore, hrest⟩ | ⟨rest, hpiece, hrest⟩
    · exact hlater hbefore hrest
    · cases rest with
      | nil =>
        rw [List.append_nil] at hpiece
        have hbefore : before = piece ++ [] := by rw [List.append_nil, hpiece]
        exact hlater hbefore hrest.symm
      | cons u rest =>
        rw [List.cons_append, List.cons.injEq] at hrest
        obtain ⟨rfl, -⟩ := hrest
        have hsize : len = (spotBytes before).length + (t.record.header.length +
            t.record.payload.length + (spotBytes rest).length) := by
          rw [hlen, hpiece, spotBytes_append, spotBytes_cons, List.length_append,
            List.length_append, t.record.length_frame]
        have hhead := t.record.header_pos
        rw [if_pos (by omega)]
        exact ⟨_, rfl, (len, place), List.mem_cons_self .., by dsimp only; omega,
          by dsimp only; omega, by dsimp only; omega⟩

/-- The runs before the block are as long as what was held. -/
theorem Spilt.front_length (hs : Spilt s held held' log base landed keep pieces) :
    (spotBytes (pieces.take keep).flatten).length = (bytes held.flatten).length := by
  obtain ⟨logs, hfront, hlogs⟩ := hs.front
  have hfits : Fits (landed.take keep) (pieces.take keep) := List.forall₂_take keep hs.spots.fits
  rw [← sum_lengths hfits, hfront.sum_lengths, hlogs]

/-- What a remembered location of a segment moves to is in the runs before the block. -/
theorem Spilt.moved_before (hs : Spilt s held held' log base landed keep pieces) (h : Fit s held)
    {id : DocId} {seg off len at_ n : Nat} (hl : s.index.get id = some (.held seg off len))
    (hlen : 0 < len) (hmoved : Moved.loc ⟨startsFrom 0 (s.appendAll log).segments, landed⟩
      (.held seg off len) = .file at_ n) : InRuns (landed.take keep) at_ n := by
  obtain ⟨r, pre, post, -, -, hseg, rfl, rfl⟩ := h.points id _ hl
  obtain ⟨-, more, hseg'⟩ := hs.grown seg _ hseg
  rw [List.append_assoc, List.cons_append] at hseg'
  obtain ⟨hbefore, -⟩ := before_block hs.wrote hs.flat hs.grown hseg
  obtain ⟨before, after, hsplit, hbytes⟩ : ∃ before after, allSpots 0 held' =
      before ++ ⟨0 + seg, (bytes pre).length, r⟩ :: after ∧
      spotBytes before = bytes (held'.take seg).flatten ++ bytes pre := allSpots_split hseg'
  have hplace : (spotBytes before).length =
      (bytes (held'.take seg).flatten).length + (bytes pre).length := by
    rw [hbytes, List.length_append]
  -- so its frame is one of the pieces before the block
  obtain ⟨after', hfront⟩ : ∃ after', (pieces.take keep).flatten =
      before ++ ⟨0 + seg, (bytes pre).length, r⟩ :: after' := by
    have hsize := hs.front_length
    have hcut : (pieces.take keep).flatten ++ (pieces.drop keep).flatten =
        before ++ ⟨0 + seg, (bytes pre).length, r⟩ :: after := by
      rw [← List.flatten_append, List.take_append_drop, hs.all, hsplit]
    rcases List.append_eq_append_iff.mp hcut with ⟨rest, rfl, -⟩ | ⟨rest, hrest, hcons⟩
    · rw [spotBytes_append, List.length_append] at hplace
      omega
    · cases rest with
      | nil =>
        rw [List.append_nil] at hrest
        rw [hrest] at hsize
        omega
      | cons u rest =>
        rw [List.cons_append, List.cons.injEq] at hcons
        exact ⟨rest, by rw [hrest, ← hcons.1]⟩
  obtain ⟨a, ha, hin⟩ := runPlace_inRuns (List.forall₂_take keep hs.spots.fits)
    (landed.drop keep) (t := ⟨0 + seg, (bytes pre).length, r⟩)
    (List.length_pos_iff.mp hlen) 0 hfront
  obtain ⟨hlt, -⟩ := List.getElem?_eq_some_iff.mp hseg'
  rw [Moved.loc, startsFrom_get hs.fit.segs 0 hlt] at hmoved
  dsimp only at hmoved ha hin
  rw [show 0 + (bytes (held'.take seg).flatten).length + ((bytes pre).length + r.header.length) =
    0 + ((spotBytes before).length + r.header.length) by omega,
    ← List.take_append_drop keep landed, ha] at hmoved
  cases hmoved
  exact hin

/-- What moves of the store's own is in the pieces before the block. -/
theorem Spilt.picked_before (hs : Spilt s held held' log base landed keep pieces) (h : Fit s held)
    {m : DocId × Loc} (hm : m ∈ picksAll (s.appendAll log) landed pieces)
    (hget : (s.appendAll log).index.get m.1 = s.index.get m.1) :
    m ∈ picksAll (s.appendAll log) (landed.take keep) (pieces.take keep) := by
  have hlen : (landed.take keep).length = (pieces.take keep).length := by
    rw [List.length_take, List.length_take, hs.spots.length_eq]
  have hsplit : picksAll (s.appendAll log) landed pieces =
      picksAll (s.appendAll log) (landed.take keep) (pieces.take keep) ++
        picksAll (s.appendAll log) (landed.drop keep) (pieces.drop keep) := by
    rw [picksAll, picksAll, picksAll, ← List.flatten_append, ← List.zipWith_append hlen,
      List.take_append_drop, List.take_append_drop]
  rw [hsplit] at hm
  refine (List.mem_append.mp hm).resolve_right fun hback => ?_
  obtain ⟨run, piece, -, hpiece, hmem⟩ :=
    mem_picksAll (List.forall₂_drop keep hs.spots) hback
  obtain ⟨before, t, after, rfl, -, hloc, -⟩ := mem_picks hmem
  -- the frame is past the pieces before the block
  obtain ⟨pre', post', hpost⟩ := List.append_of_mem
    (List.mem_flatten.mpr ⟨_, hpiece, by simp⟩ : t ∈ (pieces.drop keep).flatten)
  have hcut : allSpots 0 held' = ((pieces.take keep).flatten ++ pre') ++ t :: post' := by
    rw [← hs.all, List.append_assoc, ← hpost, ← List.flatten_append, List.take_append_drop]
  obtain ⟨-, hposition⟩ := allSpots_position hcut
  have hmemt : t ∈ allSpots 0 held' := by
    rw [hcut]
    simp
  have hread := hget.symm.trans hloc
  rw [hs.fit.spot_loc hmemt] at hread
  obtain ⟨r, pre, post, -, -, hseg, hoff, hpl⟩ := h.points m.1 _ hread
  obtain ⟨hbefore, -⟩ := before_block hs.wrote hs.flat hs.grown hseg
  have hhead := t.record.header_pos
  rw [spotBytes_append, List.length_append, hs.front_length, Nat.sub_zero] at hposition
  omega

/-- **A block put back leaves a store in order**, where its spill was in the file's order and no
document of the store is empty. -/
theorem Orderly.undone (ho : Orderly s) (h : Fit s held) (hdocs : ∀ id, s.raw id ≠ .ok (some []))
    {n : Nat} {b : Block}
    (hran : Block.Ran (fun n b landed => n = 0 ∧ Past b.store.stretches landed) s n b) :
    Orderly b.undo := by
  rcases ran_once hran with
    ⟨-, log, rfl⟩ | ⟨log, base, landed, keep, b₁, more, hpast, hspills, hb, -, rfl⟩
  · rw [h.undo_writes_eq log]
    refine ⟨ho.ascending, fun id at_ len hl => ?_⟩
    rw [(points_back_all h.good log).2 id] at hl
    exact ho.inside id at_ len hl
  · obtain ⟨held', pieces, ix, hs, -, hget, hundo⟩ := h.undo_spilled_eq hspills hb more
    have hstretches : (s.appendAll log).stretches = s.stretches := by
      rw [stretches, (base_appendAll s log).1, stretches]
    have hfront : Past s.stretches (landed.take keep) := by
      rw [show Past _ landed = Past s.stretches landed by rw [← hstretches]] at hpast
      refine List.Pairwise.sublist (List.Sublist.append_left ?_ _) hpast
      exact (List.take_sublist keep landed).map _
    obtain ⟨hasc, hinside⟩ := takeIn_orderly keep 0 s.stretches.length hfront
    rw [hundo]
    refine ⟨hasc, fun id at_ len hl => hinside at_ len ?_⟩
    have hl' : ix.get id = some (.file at_ len) := hl
    rw [hget] at hl'
    split at hl'
    · -- pointed back
      obtain ⟨l, hwas, hmoved⟩ := Option.map_eq_some_iff.mp hl'
      cases l with
      | file a n =>
        cases hmoved
        exact .inl (ho.inside id at_ len hwas)
      | held seg off n =>
        have hn : 0 < n := by
          obtain ⟨p, hp, hlen⟩ := h.readable hwas
          refine Nat.pos_of_ne_zero fun hzero => hdocs id ?_
          rw [raw, hwas]
          dsimp only
          rw [hp, List.length_eq_zero_iff.mp (hlen.trans hzero)]
          rfl
        exact .inr (hs.moved_before h hwas hn hmoved)
    · next hid =>
      -- not written: moved with the rest, or in the file already
      have hwas := (get_appendAll h.good log).2 id hid
      obtain ⟨-, htaken⟩ := insertAll_spec hs.fit.good
        fun m hm => (hs.fit.mem_moved hs.spots hs.all hm).1
      rcases htaken id with ⟨l, hm, heq⟩ | ⟨-, heq⟩
      · have heq' : some l = some (Loc.file at_ len) := heq.symm.trans hl'
        cases heq'
        have hm' := hs.picked_before h hm hwas
        obtain ⟨a, n, hloc, hrun⟩ := moved_inRuns (List.forall₂_take keep hs.spots) hm'
        cases hloc
        exact .inr hrun
      · exact .inl (ho.inside id at_ len (hwas.symm.trans (heq.symm.trans hl')))

end Undone

end Store

end Segments

end Fenec
