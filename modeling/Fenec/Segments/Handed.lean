/-
# What a handover keeps

The runs are taken exactly when they are pieces of the list of frames (`landedPlaces_of_pieces`,
`pieces_of_landedPlaces`).  A document the store reads from the segments is then in one of them,
and goes to where its piece is in the file; the rest of the index stays (`Fit.reads_taken`).

So a store handed over to a file that holds its frames is the store there was (`Fit.handed`), and a
location remembered from before is read in the file (`Fit.moved_loc`).
-/
import Fenec.Segments.Handover

namespace Fenec

open Lib Reader Codec Chunks

namespace Segments

namespace Store

/-! ## 1. Pieces -/

/-- What runs add, a piece of the frames each. -/
def picksAll (s : Store) (landed : List (Nat × Nat)) (pieces : List (List Spot)) :
    List (DocId × Loc) :=
  (List.zipWith (fun run piece => picks s run.2 piece) landed pieces).flatten

/-- The runs are as long as the pieces. -/
def Fits (landed : List (Nat × Nat)) (pieces : List (List Spot)) : Prop :=
  List.Forall₂ (fun run piece => run.1 = (spotBytes piece).length) landed pieces

section Pieces

variable {s : Store} {held : List (List Record)} {landed : List (Nat × Nat)}
  {pieces : List (List Spot)}

theorem takeRun_some {ts ts' : List Spot} {moved moved' : List (DocId × Loc)} {at_ left : Nat}
    (h : takeRun s at_ left ts moved = some (ts', moved')) :
    ∃ piece, ts = piece ++ ts' ∧ left = (spotBytes piece).length ∧
      moved' = moved ++ picks s at_ piece := by
  induction ts generalizing at_ left moved with
  | nil =>
    rw [takeRun] at h
    split at h
    · next hleft =>
      cases h
      exact ⟨[], rfl, hleft, by simp [picks]⟩
    · cases h
  | cons t ts ih =>
    rw [takeRun] at h
    split at h
    · next hleft =>
      cases h
      exact ⟨[], rfl, hleft, by simp [picks]⟩
    · split at h
      · cases h
      · next hle =>
        obtain ⟨piece, rfl, hlen, rfl⟩ := ih h
        refine ⟨t :: piece, rfl, ?_, by rw [picks, List.append_assoc]⟩
        rw [spotBytes_cons, List.length_append]
        omega

theorem takeRuns_some {ts ts' : List Spot} {moved moved' : List (DocId × Loc)}
    (h : takeRuns s landed ts moved = some (ts', moved')) :
    ∃ pieces, ts = pieces.flatten ++ ts' ∧ Fits landed pieces ∧
      moved' = moved ++ picksAll s landed pieces := by
  induction landed generalizing ts moved with
  | nil =>
    cases h
    exact ⟨[], rfl, .nil, by simp [picksAll]⟩
  | cons run landed ih =>
    obtain ⟨len, at_⟩ := run
    rw [takeRuns] at h
    rcases hrun : takeRun s at_ len ts moved with _ | ⟨ts₁, moved₁⟩ <;> rw [hrun] at h
    · cases h
    · obtain ⟨piece, rfl, hlen, rfl⟩ := takeRun_some hrun
      obtain ⟨pieces, rfl, hfits, rfl⟩ := ih h
      exact ⟨piece :: pieces, by simp, .cons hlen hfits, by simp [picksAll]⟩

theorem takeRuns_pieces (hfits : Fits landed pieces) {ts : List Spot}
    {moved : List (DocId × Loc)} : takeRuns s landed (pieces.flatten ++ ts) moved =
      some (ts, moved ++ picksAll s landed pieces) := by
  induction hfits generalizing moved with
  | nil => simp [takeRuns, picksAll]
  | @cons run piece landed pieces hlen hfits ih =>
    obtain ⟨len, at_⟩ := run
    dsimp only at hlen
    rw [takeRuns, List.flatten_cons, List.append_assoc, takeRun_frames (by omega), hlen,
      Nat.sub_self, takeRun_zero]
    dsimp only
    rw [ih, List.append_assoc]
    rfl

theorem sum_lengths (hfits : Fits landed pieces) :
    (landed.map (·.1)).sum = (spotBytes pieces.flatten).length := by
  induction hfits with
  | nil => rfl
  | cons hlen _ ih =>
    rw [List.map_cons, List.sum_cons, List.flatten_cons, spotBytes_append, List.length_append, ih,
      hlen]

theorem Fit.held_length (h : Fit s held) :
    (s.segments.map (·.data.length)).sum = (bytes held.flatten).length := by
  have hsum : s.segments.map (fun g => g.data.length) =
      held.map fun log => (bytes log).length :=
    map_eq_of_forall₂ (h.segs.imp fun g log hg => by rw [hg])
  rw [hsum, bytes_flatten, List.length_flatten, List.map_map]
  rfl

theorem spotBytes_allSpots (seg : Nat) (held : List (List Record)) :
    spotBytes (allSpots seg held) = bytes held.flatten := by
  rw [spotBytes, map_allSpots]

theorem Fit.agrees (h : Fit s held) (landed : List (Nat × Nat)) :
    Agrees held (s.placeRuns landed (0, 0) []) (takeRuns s landed (allSpots 0 held) []) :=
  placeRuns_agrees h (by simpa using stands_next held 0)

/-- **Runs as long as pieces of the frames are taken.** -/
theorem Fit.landedPlaces_of_pieces (h : Fit s held) (hfits : Fits landed pieces)
    (hall : pieces.flatten = allSpots 0 held) :
    s.landedPlaces landed = some (picksAll s landed pieces) := by
  have hsum : (landed.map (·.1)).sum = (s.segments.map (·.data.length)).sum := by
    rw [sum_lengths hfits, hall, spotBytes_allSpots, h.held_length]
  have hagree := h.agrees landed
  have htake : takeRuns s landed (pieces.flatten ++ []) [] =
      some ([], [] ++ picksAll s landed pieces) := takeRuns_pieces hfits
  rw [List.append_nil, hall, List.nil_append] at htake
  rw [htake] at hagree
  rw [landedPlaces, if_neg fun hne => hne hsum]
  rcases hp : s.placeRuns landed (0, 0) [] with _ | ⟨so, moved⟩ <;> rw [hp] at hagree
  · exact hagree.elim
  · obtain ⟨rfl, -⟩ := hagree
    rfl

/-- **No others are.** -/
theorem Fit.pieces_of_landedPlaces (h : Fit s held) {moved : List (DocId × Loc)}
    (hmoved : s.landedPlaces landed = some moved) : ∃ pieces, Fits landed pieces ∧
      pieces.flatten = allSpots 0 held ∧ moved = picksAll s landed pieces := by
  rw [landedPlaces] at hmoved
  split at hmoved
  · cases hmoved
  · next hsum =>
    have hsum' := Decidable.not_not.mp hsum
    have hagree := h.agrees landed
    rcases hp : s.placeRuns landed (0, 0) [] with _ | ⟨so, moved₁⟩ <;> rw [hp] at hmoved hagree
    · cases hmoved
    · cases hmoved
      rcases ht : takeRuns s landed (allSpots 0 held) [] with _ | ⟨ts, moved₂⟩ <;>
        rw [ht] at hagree
      · exact hagree.elim
      · obtain ⟨rfl, -⟩ := hagree
        obtain ⟨pieces, hts, hfits, hmoved⟩ := takeRuns_some ht
        -- nothing is left: the lengths are all there is
        have hnil : ts = [] := by
          have hall := congrArg (fun ts => (spotBytes ts).length) hts
          rw [spotBytes_allSpots, spotBytes_append, List.length_append, ← sum_lengths hfits, hsum',
            h.held_length] at hall
          cases ts with
          | nil => rfl
          | cons t ts =>
            have hpos := t.record.frame_pos
            rw [spotBytes_cons, List.length_append] at hall
            omega
        rw [hnil, List.append_nil] at hts
        exact ⟨pieces, hfits, hts.symm, by simpa using hmoved⟩

end Pieces

/-! ## 2. Where a frame stands -/

section Spots

variable {s : Store} {held : List (List Record)}

theorem mem_spots {seg off : Nat} {log : List Record} {t : Spot} (h : t ∈ spots seg off log) :
    t.seg = seg ∧ ∃ pre post, log = pre ++ t.record :: post ∧ t.off = off + (bytes pre).length := by
  induction log generalizing off with
  | nil => cases h
  | cons r log ih =>
    rw [spots] at h
    rcases List.mem_cons.mp h with rfl | h
    · exact ⟨rfl, [], log, rfl, rfl⟩
    · obtain ⟨hseg, pre, post, rfl, hoff⟩ := ih h
      refine ⟨hseg, r :: pre, post, rfl, ?_⟩
      rw [hoff, bytes_cons, List.length_append, Nat.add_assoc]

/-- A frame of the list is one of its segment's. -/
theorem mem_allSpots {held : List (List Record)} {t : Spot} : ∀ {k : Nat}, t ∈ allSpots k held →
    k ≤ t.seg ∧ ∃ pre post, held[t.seg - k]? = some (pre ++ t.record :: post) ∧
      t.off = (bytes pre).length := by
  induction held with
  | nil =>
    intro k h
    cases h
  | cons log held ih =>
    intro k h
    rw [allSpots] at h
    rcases List.mem_append.mp h with h | h
    · obtain ⟨hseg, pre, post, rfl, hoff⟩ := mem_spots h
      refine ⟨Nat.le_of_eq hseg.symm, pre, post, ?_, by rw [hoff, Nat.zero_add]⟩
      rw [hseg, Nat.sub_self]
      rfl
    · obtain ⟨hle, pre, post, hlog, hoff⟩ := ih h
      refine ⟨by omega, pre, post, ?_, hoff⟩
      have hsub : t.seg - k = t.seg - (k + 1) + 1 := by omega
      rw [hsub, List.getElem?_cons_succ]
      exact hlog

/-- **A frame of a segment is on the list**, past the frames before it. -/
theorem allSpots_split {held : List (List Record)} {seg : Nat} {pre post : List Record}
    {r : Record} : ∀ {k : Nat}, held[seg]? = some (pre ++ r :: post) →
    ∃ before after, allSpots k held = before ++ ⟨k + seg, (bytes pre).length, r⟩ :: after ∧
      spotBytes before = bytes (held.take seg).flatten ++ bytes pre := by
  induction held generalizing seg with
  | nil =>
    intro k h
    simp at h
  | cons log held ih =>
    intro k h
    cases seg with
    | zero =>
      rw [List.getElem?_cons_zero, Option.some.injEq] at h
      subst h
      refine ⟨spots k 0 pre, spots k (0 + (bytes pre).length + r.frame.length) post ++
        allSpots (k + 1) held, ?_, ?_⟩
      · rw [allSpots, spots_append, spots, Nat.zero_add, List.append_assoc, List.cons_append]
        rfl
      · rw [spotBytes_spots]
        rfl
    | succ seg =>
      rw [List.getElem?_cons_succ] at h
      obtain ⟨before, after, hall, hbytes⟩ : ∃ before after, allSpots (k + 1) held =
          before ++ ⟨k + 1 + seg, (bytes pre).length, r⟩ :: after ∧
          spotBytes before = bytes (held.take seg).flatten ++ bytes pre := ih h
      refine ⟨spots k 0 log ++ before, after, ?_, ?_⟩
      · rw [allSpots, hall, List.append_assoc, Nat.add_assoc, Nat.add_comm 1 seg]
      · rw [spotBytes_append, spotBytes_spots, hbytes, List.take_succ_cons, List.flatten_cons,
          bytes_append, List.append_assoc]

/-- Offsets and lengths are as they are: no frame starts past eight mebibytes of a segment. -/
theorem Fit.spot_loc (h : Fit s held) {t : Spot} (ht : t ∈ allSpots 0 held) :
    t.loc = .held t.seg (t.off + t.record.header.length) t.record.payload.length := by
  obtain ⟨-, pre, post, hlog, hoff⟩ := mem_allSpots ht
  have hlow := h.low _ (List.mem_of_getElem? hlog) pre t.record post rfl
  have hhead := length_header_lt t.record
  have hmax : segmentMax = 8388608 := rfl
  rw [Spot.loc, Nat.mod_eq_of_lt t.record.short, Nat.mod_eq_of_lt (by omega)]

theorem Fit.spot_payload (h : Fit s held) {t : Spot} (ht : t ∈ allSpots 0 held) :
    s.payload t.loc = .ok t.record.payload := by
  obtain ⟨-, pre, post, hlog, hoff⟩ := mem_allSpots ht
  rw [h.spot_loc ht, hoff]
  exact h.payload_held hlog

end Spots

/-! ## 3. What moves -/

section Picks

variable {s : Store} {held : List (List Record)} {landed : List (Nat × Nat)}
  {pieces : List (List Spot)}

/-- What a piece moves is a put of it that the store reads. -/
theorem mem_picks {at_ : Nat} {ts : List Spot} {m : DocId × Loc} (h : m ∈ picks s at_ ts) :
    ∃ before t after, ts = before ++ t :: after ∧ t.record.id = m.1 ∧
      s.index.get m.1 = some t.loc ∧
      m.2 = .file (at_ + (spotBytes before).length + t.record.header.length)
        (t.record.payload.length % 2 ^ 32) := by
  induction ts generalizing at_ with
  | nil => cases h
  | cons t ts ih =>
    rw [picks] at h
    rcases List.mem_append.mp h with h | h
    · rw [pick] at h
      split at h
      · next hput =>
        rw [List.mem_singleton] at h
        subst h
        exact ⟨[], t, ts, rfl, rfl, hput.2, rfl⟩
      · cases h
    · obtain ⟨before, u, after, rfl, hid, hget, hloc⟩ := ih h
      refine ⟨t :: before, u, after, rfl, hid, hget, ?_⟩
      rw [hloc, spotBytes_cons, List.length_append]
      simp only [Nat.add_assoc]

/-- What runs move, one of their pieces does. -/
theorem mem_picksAll {R : Nat × Nat → List Spot → Prop} (hR : List.Forall₂ R landed pieces)
    {m : DocId × Loc} (h : m ∈ picksAll s landed pieces) :
    ∃ run piece, R run piece ∧ piece ∈ pieces ∧ m ∈ picks s run.2 piece := by
  induction hR with
  | nil => cases h
  | @cons run piece landed pieces hrel _ ih =>
    rw [picksAll, List.zipWith_cons_cons, List.flatten_cons] at h
    rcases List.mem_append.mp h with h | h
    · exact ⟨run, piece, hrel, List.mem_cons_self .., h⟩
    · obtain ⟨run', piece', hrel', hmem, hm⟩ := ih h
      exact ⟨run', piece', hrel', List.mem_cons_of_mem _ hmem, hm⟩

/-- **A put the store reads is moved.** -/
theorem picked {R : Nat × Nat → List Spot → Prop} (hR : List.Forall₂ R landed pieces) {t : Spot}
    (ht : t ∈ pieces.flatten) (hop : t.record.op = .put)
    (hget : s.index.get t.record.id = some t.loc) :
    ∃ l, (t.record.id, l) ∈ picksAll s landed pieces := by
  induction hR with
  | nil => cases ht
  | @cons run piece landed pieces _ _ ih =>
    rw [picksAll, List.zipWith_cons_cons, List.flatten_cons]
    rw [List.flatten_cons] at ht
    rcases List.mem_append.mp ht with ht | ht
    · obtain ⟨before, after, rfl⟩ := List.append_of_mem ht
      refine ⟨.file (run.2 + (spotBytes before).length + t.record.header.length)
        (t.record.payload.length % 2 ^ 32), List.mem_append_left _ ?_⟩
      rw [picks_append, picks, pick, if_pos ⟨hop, hget⟩]
      exact List.mem_append_right _ (List.mem_append_left _ (List.mem_singleton_self _))
    · obtain ⟨l, hl⟩ := ih ht
      exact ⟨l, List.mem_append_right _ hl⟩

/-- Ids put one after another: the last place an id was given, or the one it had. -/
theorem insertAll_spec {moved : List (DocId × Loc)} : ∀ {ix : IdIndex Loc}, ix.Good →
    (∀ m ∈ moved, 1 ≤ m.1) → (moved.foldl (fun ix m => ix.insert m.1 m.2) ix).Good ∧
      ∀ id, (∃ l, (id, l) ∈ moved ∧
          (moved.foldl (fun ix m => ix.insert m.1 m.2) ix).get id = some l) ∨
        (∀ l, (id, l) ∉ moved) ∧
          (moved.foldl (fun ix m => ix.insert m.1 m.2) ix).get id = ix.get id := by
  induction moved with
  | nil => exact fun hgood _ => ⟨hgood, fun id => .inr ⟨fun l hl => (by cases hl), rfl⟩⟩
  | cons m moved ih =>
    intro ix hgood hids
    have hid := hids m (List.mem_cons_self ..)
    obtain ⟨hgood', hget⟩ := ih (IdIndex.good_insert hgood hid)
      fun m hm => hids m (List.mem_cons_of_mem _ hm)
    refine ⟨hgood', fun id => ?_⟩
    rw [List.foldl_cons]
    rcases hget id with ⟨l, hl, heq⟩ | ⟨hnone, heq⟩
    · exact .inl ⟨l, List.mem_cons_of_mem _ hl, heq⟩
    · rw [heq, IdIndex.get_insert hgood.toPlaced hid]
      by_cases hm : id = m.1
      · rw [if_pos hm]
        exact .inl ⟨m.2, by rw [hm]; exact List.mem_cons_self .., rfl⟩
      · rw [if_neg hm]
        refine .inr ⟨fun l hl => ?_, rfl⟩
        rcases List.mem_cons.mp hl with rfl | hl
        · exact hm rfl
        · exact hnone l hl

end Picks

/-! ## 4. The stretches -/

/-- What the stretches say, end to end. -/
def slices (base : List UInt8) (stretches : List (Nat × Nat)) : List UInt8 :=
  (stretches.map fun st => (base.drop st.1).take st.2).flatten

section Stretches

variable {base : List UInt8} {stretches : List (Nat × Nat)}

theorem slices_append (a b : List (Nat × Nat)) :
    slices base (a ++ b) = slices base a ++ slices base b := by
  rw [slices, List.map_append, List.flatten_append]
  rfl

theorem slices_singleton (at_ len : Nat) :
    slices base [(at_, len)] = (base.drop at_).take len := by
  simp [slices]

/-- A run onto the end says what the stretches said and what the run does, joined or not. -/
theorem joinRun_spec (hst : ∀ st ∈ stretches, st.1 + st.2 ≤ base.length) {len at_ : Nat}
    (hrun : at_ + len ≤ base.length) (joins : Bool) :
    (∀ st ∈ joinRun stretches joins len at_, st.1 + st.2 ≤ base.length) ∧
      slices base (joinRun stretches joins len at_) =
        slices base stretches ++ (base.drop at_).take len := by
  have hpush : (∀ st ∈ stretches ++ [(at_, len)], st.1 + st.2 ≤ base.length) ∧
      slices base (stretches ++ [(at_, len)]) =
        slices base stretches ++ (base.drop at_).take len := by
    refine ⟨fun st h => ?_, by rw [slices_append, slices_singleton]⟩
    rcases List.mem_append.mp h with h | h
    · exact hst st h
    · rw [List.mem_singleton] at h
      rw [h]
      exact hrun
  rcases List.eq_nil_or_concat stretches with rfl | ⟨init, last, rfl⟩
  · exact hpush
  · rw [List.concat_eq_append] at hpush hst ⊢
    rw [joinRun, List.getLast?_concat]
    dsimp only
    split
    · next hjoin =>
      rw [List.dropLast_concat]
      refine ⟨fun st h => ?_, ?_⟩
      · rcases List.mem_append.mp h with h | h
        · exact hst st (List.mem_append_left _ h)
        · rw [List.mem_singleton] at h
          rw [h]
          dsimp only
          omega
      · -- two slices side by side are one
        rw [slices_append, slices_singleton, slices_append, List.append_assoc,
          show slices base [last] = (base.drop last.1).take last.2 from slices_singleton _ _,
          List.take_add, List.drop_drop, hjoin.1]
    · exact hpush

/-- **The runs taken in say what they say**, in their order past the stretches there were. -/
theorem takeIn_spec (keep : Nat) {landed : List (Nat × Nat)} :
    ∀ (k : Nat) {stretches : List (Nat × Nat)} (kept : Nat),
    (∀ st ∈ stretches, st.1 + st.2 ≤ base.length) →
    (∀ run ∈ landed, run.2 + run.1 ≤ base.length) →
    (∀ st ∈ (takeIn keep k landed stretches kept).1, st.1 + st.2 ≤ base.length) ∧
      slices base (takeIn keep k landed stretches kept).1 =
        slices base stretches ++
          (landed.map fun run => (base.drop run.2).take run.1).flatten := by
  induction landed with
  | nil => exact fun _ _ _ hst _ => ⟨hst, by simp [takeIn]⟩
  | cons run landed ih =>
    intro k stretches kept hst hruns
    obtain ⟨len, at_⟩ := run
    have hrun := hruns _ (List.mem_cons_self ..)
    have hruns' := fun run hrun => hruns run (List.mem_cons_of_mem _ hrun)
    rw [takeIn, List.map_cons, List.flatten_cons]
    dsimp only
    by_cases hlen : 0 < len
    · obtain ⟨hin, hslices⟩ := joinRun_spec hst hrun (k != keep)
      rw [if_pos hlen]
      obtain ⟨hin', hslices'⟩ := ih (k + 1) (if k + 1 = keep then
        (joinRun stretches (k != keep) len at_).length else kept) hin hruns'
      exact ⟨hin', by rw [hslices', hslices, List.append_assoc]⟩
    · obtain rfl : len = 0 := by omega
      rw [if_neg hlen]
      obtain ⟨hin', hslices'⟩ :=
        ih (k + 1) (if k + 1 = keep then stretches.length else kept) hst hruns'
      exact ⟨hin', by rw [hslices']; simp⟩

end Stretches

/-! ## 5. The same file mapped further -/

section Remap

variable {s : Store} {held : List (List Record)} {base : List UInt8}

theorem slice_of_prefix {file : List UInt8} (h : file <+: base) {at_ len : Nat}
    (hle : at_ + len ≤ file.length) : (base.drop at_).take len = (file.drop at_).take len := by
  obtain ⟨more, rfl⟩ := h
  rw [List.drop_append_of_le_length (by omega),
    List.take_append_of_le_length (by rw [List.length_drop]; omega)]

theorem slices_of_prefix {file : List UInt8} (h : file <+: base) {stretches : List (Nat × Nat)}
    (hst : ∀ st ∈ stretches, st.1 + st.2 ≤ file.length) :
    slices base stretches = slices file stretches := by
  rw [slices, slices]
  exact congrArg _ (List.map_congr_left fun st hmem => slice_of_prefix h (hst st hmem))

theorem image_slices (s : Store) :
    s.image = slices s.file s.stretches ++ (s.segments.map (·.data)).flatten := rfl

theorem Fit.image_eq (h : Fit s held) :
    s.image = slices s.file s.stretches ++ bytes held.flatten := by
  rw [image_slices, map_eq_of_forall₂ h.segs, bytes_flatten]

/-- A store whose file is mapped further: its stretches are as they were, and its locations. -/
theorem remap_fields (hpre : s.file <+: base) :
    (s.remap base).stretches = s.stretches ∧
      (s.base.isSome = true → (s.remap base).file = base) ∧
      s.file <+: (s.remap base).file ∧ (s.remap base).base.isSome = s.base.isSome := by
  cases hb : s.base with
  | none =>
    have hsame : s.remap base = s := by
      rw [remap, hb]
      cases s
      cases hb
      rfl
    rw [hsame, hb]
    exact ⟨rfl, fun h => (by cases h), List.prefix_refl _, rfl⟩
  | some b =>
    have hfile : (s.remap base).file = base := by rw [remap, file, hb]; rfl
    refine ⟨?_, fun _ => hfile, by rw [hfile]; exact hpre, by rw [remap, hb]; rfl⟩
    rw [remap, stretches, stretches, hb]
    rfl

/-- **Mapped further, a store is fit.** -/
theorem Fit.remap (h : Fit s held) (hpre : s.file <+: base) : Fit (s.remap base) held := by
  obtain ⟨hst, -, hfile, hsome⟩ := remap_fields hpre
  refine ⟨fun st hmem => ?_, h.segs, h.some_segment, h.low, h.good, fun id l hl => ?_⟩
  · rw [hst] at hmem
    exact Nat.le_trans (h.files st hmem) hfile.length_le
  · have hp := h.points id l hl
    cases l with
    | held seg off len => exact hp
    | file at_ len => exact ⟨hsome ▸ hp.1, Nat.le_trans hp.2.1 hfile.length_le, hp.2.2⟩

/-- **And is the store it was.** -/
theorem Fit.same_remap (h : Fit s held) (hpre : s.file <+: base) : Same s (s.remap base) := by
  obtain ⟨hst, -, hfile, -⟩ := remap_fields hpre
  have hfit := h.remap hpre
  refine ⟨h.alike hfit fun id => ?_, rfl, rfl, rfl, ?_⟩
  · have hget : (s.remap base).index = s.index := rfl
    rw [raw, raw, hget]
    cases hl : s.index.get id with
    | none => rfl
    | some l =>
      dsimp only
      cases l with
      | held seg off len =>
        obtain ⟨r, pre, post, -, -, hlog, rfl, rfl⟩ := h.points id _ hl
        rw [h.payload_held hlog, hfit.payload_held hlog]
      | file at_ len =>
        rw [h.payload_file hl, hfit.payload_file hl,
          slice_of_prefix hfile (h.points id _ hl).2.1]
  · rw [hfit.image_eq, h.image_eq, hst, slices_of_prefix hfile h.files]

end Remap

/-! ## 6. Handed over -/

/-- The file holds logs at the runs' places. -/
def Holding (base : List UInt8) (landed : List (Nat × Nat)) (logs : List (List Record)) : Prop :=
  List.Forall₂ (fun run log => run.1 = (bytes log).length ∧ run.2 + run.1 ≤ base.length ∧
    (base.drop run.2).take run.1 = bytes log) landed logs

/-- The same of pieces of the frames. -/
def HoldingSpots (base : List UInt8) (landed : List (Nat × Nat)) (pieces : List (List Spot)) :
    Prop :=
  List.Forall₂ (fun run piece => run.1 = (spotBytes piece).length ∧
    run.2 + run.1 ≤ base.length ∧ (base.drop run.2).take run.1 = spotBytes piece) landed pieces

section Handed

variable {s : Store} {held logs : List (List Record)} {base : List UInt8}
  {landed : List (Nat × Nat)} {pieces : List (List Spot)}

/-- A list of frames cut as its records are. -/
theorem pieces_of_logs {logs : List (List Record)} : ∀ {ts : List Spot},
    ts.map (·.record) = logs.flatten →
    ∃ pieces : List (List Spot), pieces.flatten = ts ∧
      pieces.map (fun piece => piece.map (·.record)) = logs := by
  induction logs with
  | nil =>
    intro ts h
    rw [List.flatten_nil, List.map_eq_nil_iff] at h
    exact ⟨[], h.symm, rfl⟩
  | cons log logs ih =>
    intro ts h
    rw [List.flatten_cons, List.map_eq_append_iff] at h
    obtain ⟨piece, ts', rfl, hpiece, hts⟩ := h
    obtain ⟨pieces, rfl, rfl⟩ := ih hts
    exact ⟨piece :: pieces, rfl, by rw [List.map_cons, hpiece]⟩

/-- The runs of the file are pieces of the frames. -/
theorem pieces_of_holding (hholding : Holding base landed logs)
    (hlogs : logs.flatten = held.flatten) :
    ∃ pieces, HoldingSpots base landed pieces ∧ pieces.flatten = allSpots 0 held := by
  obtain ⟨pieces, hall, rfl⟩ := pieces_of_logs ((map_allSpots 0 held).trans hlogs.symm)
  exact ⟨pieces, List.forall₂_map_right_iff.mp hholding, hall⟩

theorem HoldingSpots.fits (h : HoldingSpots base landed pieces) : Fits landed pieces :=
  h.imp fun _ _ hrel => hrel.1

/-- **A payload in the file**, where a location says. -/
def InFile (base : List UInt8) (l : Loc) (p : List UInt8) : Prop :=
  ∃ at_, l = .file at_ p.length ∧ at_ + p.length ≤ base.length ∧
    (base.drop at_).take p.length = p

/-- A frame's payload, where its piece is in the file. -/
theorem slice_piece {run : Nat × Nat} {before after : List Spot} {t : Spot}
    (hrun : run.1 = (spotBytes (before ++ t :: after)).length ∧ run.2 + run.1 ≤ base.length ∧
      (base.drop run.2).take run.1 = spotBytes (before ++ t :: after)) :
    InFile base (.file (run.2 + (spotBytes before).length + t.record.header.length)
      t.record.payload.length) t.record.payload := by
  obtain ⟨hlen, hin, hslice⟩ := hrun
  have hbytes : spotBytes (before ++ t :: after) =
      (spotBytes before ++ t.record.header) ++ (t.record.payload ++ spotBytes after) := by
    rw [spotBytes_append, spotBytes_cons, t.record.frame_eq]
    simp only [List.append_assoc]
  have hsize : run.1 = (spotBytes before).length + t.record.header.length +
      (t.record.payload.length + (spotBytes after).length) := by
    rw [hlen, hbytes]
    simp only [List.length_append]
  refine ⟨_, rfl, by omega, ?_⟩
  have hdrop : ((base.drop run.2).take run.1).drop (spotBytes before ++ t.record.header).length =
      t.record.payload ++ spotBytes after := by
    rw [hslice, hbytes, List.drop_left]
  rw [List.drop_take, List.drop_drop, List.length_append] at hdrop
  have htake := congrArg (List.take t.record.payload.length) hdrop
  rw [List.take_left, List.take_take, Nat.min_eq_left (by omega), ← Nat.add_assoc] at htake
  exact htake

/-- The index once the runs are taken. -/
def indexTaken (s : Store) (landed : List (Nat × Nat)) (pieces : List (List Spot)) : IdIndex Loc :=
  (picksAll s landed pieces).foldl (fun ix m => ix.insert m.1 m.2) s.index

/-- **The documents of an index read from a file as they do from the store.** -/
def ReadsIn (s : Store) (base : List UInt8) (index : IdIndex Loc) (id : DocId) : Prop :=
  s.index.get id = none ∧ index.get id = none ∨
    ∃ l l' p, s.index.get id = some l ∧ index.get id = some l' ∧ s.payload l = .ok p ∧
      InFile base l' p

/-- A location of the file is one of the file mapped further. -/
theorem Fit.inFile (h : Fit s held) (hpre : s.file <+: base) {id : DocId} {at_ len : Nat}
    (hl : s.index.get id = some (.file at_ len)) :
    ∃ p, s.payload (.file at_ len) = .ok p ∧ InFile base (.file at_ len) p := by
  have hin := (h.points id _ hl).2.1
  have hlen : ((s.file.drop at_).take len).length = len := by
    rw [List.length_take, List.length_drop]
    omega
  refine ⟨_, h.payload_file hl, at_, by rw [hlen], ?_, ?_⟩
  · rw [hlen]
    exact Nat.le_trans hin hpre.length_le
  · rw [hlen]
    exact slice_of_prefix hpre hin

/-- **What moves goes to where it reads the same.** -/
theorem Fit.mem_moved (h : Fit s held) (hholding : HoldingSpots base landed pieces)
    (hall : pieces.flatten = allSpots 0 held) {m : DocId × Loc}
    (hm : m ∈ picksAll s landed pieces) : 1 ≤ m.1 ∧
      ∃ l p, s.index.get m.1 = some l ∧ s.payload l = .ok p ∧ InFile base m.2 p := by
  obtain ⟨run, piece, hrun, hpiece, hm⟩ := mem_picksAll hholding hm
  obtain ⟨before, t, after, rfl, hid, hget, hloc⟩ := mem_picks hm
  have hin : t ∈ allSpots 0 held := by
    rw [← hall]
    exact List.mem_flatten.mpr ⟨_, hpiece, by simp⟩
  rw [Nat.mod_eq_of_lt t.record.short] at hloc
  refine ⟨hid ▸ t.record.id_pos, t.loc, t.record.payload, hget, h.spot_payload hin, ?_⟩
  rw [hloc]
  exact slice_piece hrun

/-- **What the segments hold moves.** -/
theorem Fit.moves (h : Fit s held) (hholding : HoldingSpots base landed pieces)
    (hall : pieces.flatten = allSpots 0 held) {id : DocId} {seg off len : Nat}
    (hl : s.index.get id = some (.held seg off len)) :
    ∃ l, (id, l) ∈ picksAll s landed pieces := by
  obtain ⟨r, pre, post, hop, rfl, hlog, rfl, rfl⟩ := h.points id _ hl
  obtain ⟨before, after, hsplit, -⟩ : ∃ before after, allSpots 0 held =
      before ++ ⟨0 + seg, (bytes pre).length, r⟩ :: after ∧ _ := allSpots_split hlog
  rw [Nat.zero_add] at hsplit
  have hin : (⟨seg, (bytes pre).length, r⟩ : Spot) ∈ allSpots 0 held := by
    rw [hsplit]
    simp
  have hread : s.index.get r.id = some (⟨seg, (bytes pre).length, r⟩ : Spot).loc := by
    rw [hl, h.spot_loc hin]
  exact picked hholding (by rw [hall]; exact hin) hop hread

/-- **Once the runs are taken, every document reads from the file as it did.** -/
theorem Fit.reads_taken (h : Fit s held) (hpre : s.file <+: base)
    (hholding : HoldingSpots base landed pieces) (hall : pieces.flatten = allSpots 0 held) :
    (indexTaken s landed pieces).Good ∧ ∀ id, ReadsIn s base (indexTaken s landed pieces) id := by
  obtain ⟨hgood, hget⟩ := insertAll_spec h.good fun m hm => (h.mem_moved hholding hall hm).1
  refine ⟨hgood, fun id => ?_⟩
  rcases hget id with ⟨l', hl', heq⟩ | ⟨hnone, heq⟩
  · obtain ⟨-, l, p, hl, hp, hin⟩ := h.mem_moved hholding hall hl'
    exact .inr ⟨l, l', p, hl, heq, hp, hin⟩
  · cases hl : s.index.get id with
    | none => exact .inl ⟨hl, heq.trans hl⟩
    | some l =>
      cases l with
      | held seg off len =>
        obtain ⟨l', hl'⟩ := h.moves hholding hall hl
        exact absurd hl' (hnone l')
      | file at_ len =>
        obtain ⟨p, hp, hin⟩ := h.inFile hpre hl
        exact .inr ⟨_, _, p, hl, heq.trans hl, hp, hin⟩

/-- The store with everything in the file. -/
def filed (s : Store) (base : List UInt8) (stretches : List (Nat × Nat)) (index : IdIndex Loc) :
    Store :=
  { s with index := index, base := some (base, stretches), segments := [.empty] }

/-- **A store whose documents read the same from the file answers alike.** -/
theorem Fit.filed_alike (h : Fit s held) {stretches : List (Nat × Nat)} {index : IdIndex Loc}
    (hst : ∀ st ∈ stretches, st.1 + st.2 ≤ base.length) (hgood : index.Good)
    (hread : ∀ id, ReadsIn s base index id) :
    Fit (s.filed base stretches index) [[]] ∧ Alike s (s.filed base stretches index) := by
  have hfit : Fit (s.filed base stretches index) [[]] := by
    refine ⟨hst, .cons rfl .nil, by simp [filed], ?_, hgood, fun id l hl => ?_⟩
    · intro log hlog pre r post heq
      rw [List.mem_singleton] at hlog
      subst hlog
      simp at heq
    · rcases hread id with ⟨-, hnone⟩ | ⟨l₀, l', p, hl₀, hl', hp, at_, rfl, hin, -⟩
      · rw [show index.get id = some l from hl] at hnone
        cases hnone
      · rw [show index.get id = some l from hl] at hl'
        cases hl'
        obtain ⟨-, hid, hlen⟩ := h.small hl₀
        obtain ⟨q, hq, hqlen⟩ := h.readable hl₀
        rw [hp] at hq
        cases hq
        exact ⟨rfl, hin, hid, hqlen ▸ hlen⟩
  refine ⟨hfit, h.alike hfit fun id => ?_⟩
  rcases hread id with ⟨hwas, hnone⟩ | ⟨l, l', p, hl, hl', hp, at_, rfl, -, hslice⟩
  · rw [raw_none hwas]
    exact raw_none hnone
  · have hidx : (s.filed base stretches index).index.get id = some (.file at_ p.length) := hl'
    have hfile := hfit.payload_file hidx
    rw [raw, hidx, raw, hl]
    dsimp only
    rw [hfile, hp]
    exact congrArg (fun p => Except.map some (Except.ok p)) hslice

/-- **Where its image does too, it is the same store.** -/
theorem Fit.filed_same (h : Fit s held) {stretches : List (Nat × Nat)} {index : IdIndex Loc}
    (hst : ∀ st ∈ stretches, st.1 + st.2 ≤ base.length) (hgood : index.Good)
    (hread : ∀ id, ReadsIn s base index id) (himage : slices base stretches = s.image) :
    Fit (s.filed base stretches index) [[]] ∧ Same s (s.filed base stretches index) := by
  obtain ⟨hfit, halike⟩ := h.filed_alike hst hgood hread
  refine ⟨hfit, halike, rfl, rfl, rfl, ?_⟩
  rw [hfit.image_eq, ← himage]
  exact List.append_nil _

/-- What the runs say is what the logs do. -/
theorem Holding.slices (h : Holding base landed logs) :
    (landed.map fun run => (base.drop run.2).take run.1).flatten = bytes logs.flatten := by
  induction h with
  | nil => rfl
  | cons hrel _ ih =>
    rw [List.map_cons, List.flatten_cons, List.flatten_cons, bytes_append, ih, hrel.2.2]

theorem Holding.sum_lengths (h : Holding base landed logs) :
    (landed.map (·.1)).sum = (bytes logs.flatten).length := by
  induction h with
  | nil => rfl
  | cons hrel _ ih =>
    rw [List.map_cons, List.sum_cons, List.flatten_cons, bytes_append, List.length_append, ih,
      hrel.1]

theorem HoldingSpots.inside (h : HoldingSpots base landed pieces) :
    ∀ run ∈ landed, run.2 + run.1 ≤ base.length := by
  induction h with
  | nil => exact fun _ hrun => by cases hrun
  | cons hrel _ ih =>
    intro run hrun
    rcases List.mem_cons.mp hrun with rfl | hrun
    · exact hrel.2.1
    · exact ih run hrun

/-- What is handed over when there are runs. -/
theorem Fit.handOverKeeping_eq (h : Fit s held) (hpre : s.file <+: base)
    (hholding : HoldingSpots base landed pieces) (hall : pieces.flatten = allSpots 0 held)
    (hne : landed ≠ []) (keep : Nat) : s.handOverKeeping base landed keep =
      (some (⟨startsFrom 0 s.segments, landed⟩,
          (takeIn keep 0 landed s.stretches s.stretches.length).2),
        s.filed base (takeIn keep 0 landed s.stretches s.stretches.length).1
          (indexTaken s landed pieces)) := by
  obtain ⟨hst, -⟩ := remap_fields hpre
  rw [handOverKeeping, h.landedPlaces_of_pieces hholding.fits hall]
  dsimp only
  rw [if_neg hne, hst]
  rfl

/-- Runs of no bytes are none, and nothing is held then. -/
theorem Fit.nothing_held (h : Fit s held) (hnil : held.flatten = []) :
    ∀ g ∈ s.segments, g.data = [] := by
  have hall : (s.segments.map (·.data)).flatten = [] := by
    rw [map_eq_of_forall₂ h.segs, ← bytes_flatten, hnil]
    rfl
  exact fun g hg => List.flatten_eq_nil_iff.mp hall _ (List.mem_map_of_mem hg)

/-- **Handed over, a store is the store it was.** -/
theorem Fit.handed (h : Fit s held) (hpre : s.file <+: base) (hholding : Holding base landed logs)
    (hlogs : logs.flatten = held.flatten) (keep : Nat) : ∃ moved kept t held',
      s.handOverKeeping base landed keep = (some (moved, kept), t) ∧ Fit t held' ∧ Same s t ∧
      ∀ g ∈ t.segments, g.data = [] := by
  obtain ⟨pieces, hspots, hall⟩ := pieces_of_holding hholding hlogs
  by_cases hne : landed = []
  · subst hne
    cases hholding
    refine ⟨⟨startsFrom 0 s.segments, []⟩, (s.remap base).stretches.length, s.remap base, held, ?_,
      h.remap hpre, h.same_remap hpre, h.nothing_held hlogs.symm⟩
    rw [handOverKeeping, h.landedPlaces_of_pieces hspots.fits hall]
    rfl
  · have hold : ∀ st ∈ s.stretches, st.1 + st.2 ≤ base.length :=
      fun st hst => Nat.le_trans (h.files st hst) hpre.length_le
    obtain ⟨hin, hslices⟩ := takeIn_spec keep 0 s.stretches.length hold hspots.inside
    have himage : slices base (takeIn keep 0 landed s.stretches s.stretches.length).1 =
        s.image := by
      rw [hslices, h.image_eq, slices_of_prefix hpre h.files, hholding.slices, hlogs]
    obtain ⟨hgood, hread⟩ := h.reads_taken hpre hspots hall
    obtain ⟨hfit, hsame⟩ := h.filed_same hin hgood hread himage
    refine ⟨_, _, _, _, h.handOverKeeping_eq hpre hspots hall hne keep, hfit, hsame,
      fun g hg => ?_⟩
    · rw [filed, List.mem_singleton] at hg
      rw [hg]
      rfl

/-- **Runs that do not cut the frames between them move nothing.** -/
theorem Fit.refused (h : Fit s held)
    (hcut : ¬ ∃ logs : List (List Record), landed.map (·.1) = logs.map (fun log =>
      (bytes log).length) ∧ logs.flatten = held.flatten) (keep : Nat) :
    s.handOverKeeping base landed keep = (none, s.remap base) := by
  have hnone : s.landedPlaces landed = none := by
    cases hm : s.landedPlaces landed with
    | none => rfl
    | some moved =>
      exfalso
      obtain ⟨pieces, hfits, hall, -⟩ := h.pieces_of_landedPlaces hm
      refine hcut ⟨pieces.map fun piece => piece.map (·.record), ?_, ?_⟩
      · rw [List.map_map]
        exact map_eq_of_forall₂ hfits
      · rw [← List.map_flatten, hall, map_allSpots]
  rw [handOverKeeping, hnone]

end Handed

/-! ## 7. Remembered locations -/

section Moved

variable {s : Store} {held : List (List Record)} {base : List UInt8}
  {landed : List (Nat × Nat)} {pieces : List (List Spot)}

/-- Every byte held is in some run. -/
theorem runPlace_some {runs : List (Nat × Nat)} (hin : ∀ run ∈ runs, run.2 + run.1 ≤ base.length) :
    ∀ {from_ at_ : Nat}, from_ ≤ at_ → at_ < from_ + (runs.map (·.1)).sum →
      ∃ a, Moved.runPlace runs from_ at_ = some a ∧ a ≤ base.length := by
  induction runs with
  | nil =>
    intro from_ at_ hle hlt
    rw [List.map_nil, List.sum_nil] at hlt
    omega
  | cons run runs ih =>
    intro from_ at_ hle hlt
    obtain ⟨len, place⟩ := run
    have hrun := hin _ (List.mem_cons_self ..)
    rw [List.map_cons, List.sum_cons] at hlt
    dsimp only at hrun hlt
    rw [Moved.runPlace]
    by_cases hhere : at_ < from_ + len
    · rw [if_pos hhere]
      exact ⟨_, rfl, by omega⟩
    · rw [if_neg hhere]
      exact ih (fun run hrun => hin run (List.mem_cons_of_mem _ hrun)) (by omega) (by omega)

/-- **A frame's payload is found in the run that holds the frame.**  One that is empty may be
found at the start of the next. -/
theorem runPlace_payload (h : HoldingSpots base landed pieces) :
    ∀ {before after : List Spot} {t : Spot} (from_ : Nat),
      pieces.flatten = before ++ t :: after →
      (spotBytes before).length + t.record.header.length < (spotBytes pieces.flatten).length →
      ∃ at_, Moved.runPlace landed from_ (from_ + ((spotBytes before).length +
          t.record.header.length)) = some at_ ∧
        InFile base (.file at_ t.record.payload.length) t.record.payload := by
  induction h with
  | nil =>
    intro before after t from_ hsplit _
    simp at hsplit
  | @cons run piece landed pieces hrun hrest ih =>
    intro before after t from_ hsplit hlt
    obtain ⟨len, place⟩ := run
    have hlen : len = (spotBytes piece).length := hrun.1
    rw [List.flatten_cons] at hsplit hlt
    rw [spotBytes_append, List.length_append] at hlt
    rw [Moved.runPlace]
    rcases List.append_eq_append_iff.mp hsplit with ⟨more, rfl, hmore⟩ | ⟨more, rfl, hmore⟩
    · -- the frame is in a later run
      rw [hmore] at hlt
      rw [spotBytes_append, List.length_append, if_neg (by omega)]
      rw [spotBytes_append, List.length_append] at hlt
      obtain ⟨at_, hat, hin⟩ := ih (from_ + len) hmore (by rw [hmore]; omega)
      refine ⟨at_, ?_, hin⟩
      rw [← hat]
      congr 1
      omega
    · cases more with
      | nil =>
        rw [List.append_nil] at hlen hrun
        rw [List.nil_append] at hmore
        rw [if_neg (by omega)]
        rw [List.append_nil] at hlt
        have hnil : (spotBytes ([] : List Spot)).length = 0 := rfl
        have hfirst : pieces.flatten = [] ++ t :: after := hmore.symm
        obtain ⟨at_, hat, hin⟩ := ih (from_ + len) hfirst (by omega)
        refine ⟨at_, ?_, hin⟩
        rw [← hat]
        congr 1
        omega
      | cons u more =>
        rw [List.cons_append, List.cons.injEq] at hmore
        obtain ⟨rfl, rfl⟩ := hmore
        have hin := slice_piece hrun
        by_cases hhere : (spotBytes before).length + t.record.header.length < len
        · rw [if_pos (by omega), Nat.add_sub_cancel_left, ← Nat.add_assoc]
          exact ⟨_, rfl, hin⟩
        · -- the frame ends its run and its payload is empty
          have hsize : len = (spotBytes before).length + t.record.header.length +
              (t.record.payload.length + (spotBytes more).length) := by
            rw [hlen, spotBytes_append, spotBytes_cons, t.record.frame_eq]
            simp only [List.length_append]
            omega
          have hnil : t.record.payload = [] := List.length_eq_zero_iff.mp (by omega)
          rw [if_neg (by omega)]
          obtain ⟨at_, hat, hin'⟩ := runPlace_some (HoldingSpots.inside hrest)
            (show from_ + len ≤ from_ + ((spotBytes before).length + t.record.header.length) by
              omega) (by rw [sum_lengths (HoldingSpots.fits hrest)]; omega)
          exact ⟨at_, hat, at_, rfl, by rw [hnil]; exact hin', by rw [hnil]; rfl⟩

theorem startsFrom_get {segments : List Segment}
    (hsegs : List.Forall₂ (fun g log => g.data = bytes log) segments held) :
    ∀ {seg : Nat} (at_ : Nat), seg < held.length →
      (startsFrom at_ segments)[seg]? = some (at_ + (bytes (held.take seg).flatten).length) := by
  induction hsegs with
  | nil =>
    intro seg at_ hlt
    cases hlt
  | @cons g log segments held hg _ ih =>
    intro seg at_ hlt
    cases seg with
    | zero => rfl
    | succ seg =>
      rw [startsFrom, List.getElem?_cons_succ, ih _ (Nat.lt_of_succ_lt_succ hlt),
        List.take_succ_cons, List.flatten_cons, bytes_append, List.length_append, hg, Nat.add_assoc]

/-- **A location of a segment moves to where its payload is in the file**, but for an empty one at
the very end of what is held. -/
theorem Fit.moved_loc (h : Fit s held) (hspots : HoldingSpots base landed pieces)
    (hall : pieces.flatten = allSpots 0 held) {seg : Nat} {pre post : List Record} {r : Record}
    (hlog : held[seg]? = some (pre ++ r :: post))
    (hend : (bytes (held.take seg).flatten).length + ((bytes pre).length + r.header.length) <
      (bytes held.flatten).length) :
    InFile base (Moved.loc ⟨startsFrom 0 s.segments, landed⟩
      (.held seg ((bytes pre).length + r.header.length) r.payload.length)) r.payload := by
  obtain ⟨before, after, hsplit, hbytes⟩ : ∃ before after, allSpots 0 held =
      before ++ ⟨0 + seg, (bytes pre).length, r⟩ :: after ∧
      spotBytes before = bytes (held.take seg).flatten ++ bytes pre := allSpots_split hlog
  have hplace : (spotBytes before).length =
      (bytes (held.take seg).flatten).length + (bytes pre).length := by
    rw [hbytes, List.length_append]
  obtain ⟨at_, hat, hin⟩ := runPlace_payload hspots 0 (hall.trans hsplit) (by
    rw [hall, spotBytes_allSpots]
    dsimp only
    omega)
  obtain ⟨hlt, -⟩ := List.getElem?_eq_some_iff.mp hlog
  rw [Moved.loc, startsFrom_get h.segs 0 hlt]
  dsimp only at hat hin ⊢
  rw [show 0 + (bytes (held.take seg).flatten).length + ((bytes pre).length + r.header.length) =
    0 + ((spotBytes before).length + r.header.length) by omega, hat]
  exact hin

end Moved

end Store

end Segments

end Fenec
