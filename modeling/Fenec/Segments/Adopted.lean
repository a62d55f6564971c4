/-
# A store taken from its image's index

Read in turn, the entries an index was written with give an index of them (`inTurn_written`), and
what shares give, in turn would (`adoptShares_in_turn`): whatever the bytes are, each share starts
where the one before it ended.  So the store an index gives is the one its image gives when the
writer itself is moved there (`relocateImage`, `relocateLive`), and that is what the walk of the
record's frames leaves (`index_adopted`).
-/
import Fenec.Segments.ImageIndex
import Mathlib.Algebra.BigOperators.Group.List.Lemmas

namespace Fenec

open Lib Reader Codec Chunks

namespace Segments

/-! ## 1. In turn -/

/-- Where a document is, its record at `at_`. -/
def locate (at_ : Nat) (e : DocId × Nat × Nat) : DocId × Loc := (e.1, .file (at_ + e.2.1) e.2.2)

/-- Documents pushed one after another. -/
def pushAll (at_ : Nat) (fresh : IdIndex Loc) (es : List (DocId × Nat × Nat)) : IdIndex Loc :=
  es.foldl (fun x e => x.pushAbove e.1 (.file (at_ + e.2.1) e.2.2)) fresh

/-- **Documents an index can hold**: their ids ascending past `idWas`, each payload inside a record
of `len` bytes and past its first. -/
structure Entered (len idWas : Nat) (es : List (DocId × Nat × Nat)) : Prop where
  ascending : (idWas :: es.map (·.1)).Pairwise (· < ·)
  inside : ∀ e ∈ es, e.1 < 2 ^ 64 ∧ e.2.2 < 2 ^ 32 ∧ 0 < e.2.1 ∧ e.2.1 + e.2.2 ≤ len

section InTurn

variable {docs : List UInt8} {at_ len : Nat} {fresh : IdIndex Loc}

/-- **Entries as they were written are read in turn.** -/
theorem inTurn_written (hlen : len ≤ 2 ^ 63 - 2 ^ 32) {rest : List UInt8}
    {es : List (DocId × Nat × Nat)} : ∀ {st : Standing} {fresh : IdIndex Loc},
    Entered len st.id es → st.p ≤ docs.length → st.end_ ≤ len →
    docs.drop st.p = entriesBytes st.id st.end_ es ++ rest →
    ∃ end_, inTurn docs at_ len es.length st fresh =
      some (⟨st.p + (entriesBytes st.id st.end_ es).length, (es.map (·.1)).getLastD st.id, end_⟩,
        pushAll at_ fresh es) := by
  induction es with
  | nil => exact fun _ _ _ _ => ⟨_, rfl⟩
  | cons e es ih =>
    intro st fresh he hp hend hdrop
    obtain ⟨id, pos, n⟩ := e
    obtain ⟨hid, hn, hpos, hle⟩ := he.inside _ (List.mem_cons_self ..)
    obtain ⟨hfirst, hasc⟩ := List.pairwise_cons.mp he.ascending
    have hlt : st.id < id := hfirst id (List.mem_cons_self ..)
    rw [entriesBytes, List.append_assoc] at hdrop
    have hentry := indexEntry_written hp hdrop hlt hid hn hpos hle hend hlen
    have hnext : Entered len
        (⟨st.p + (entry st.id st.end_ id pos n).length, id, pos + n⟩ : Standing).id es :=
      ⟨hasc, fun e h => he.inside e (List.mem_cons_of_mem _ h)⟩
    obtain ⟨end_, hih⟩ := ih hnext (past_le hp hdrop) hle (drop_past hdrop)
    refine ⟨end_, ?_⟩
    rw [List.length_cons, inTurn, hentry]
    dsimp only
    rw [hih, entriesBytes, List.length_append, Nat.add_assoc, List.map_cons, List.getLastD_cons]
    rfl

/-- **What is pushed is what an index then has**, beside what it had. -/
theorem pushAll_spec {es : List (DocId × Nat × Nat)} : ∀ {fresh : IdIndex Loc}, fresh.Good →
    (∀ e ∈ es, 1 ≤ e.1) → (es.map (·.1)).Nodup → (pushAll at_ fresh es).Good ∧
      ∀ id l, (pushAll at_ fresh es).get id = some l ↔ (id, l) ∈ es.map (locate at_) ∨
        id ∉ es.map (·.1) ∧ fresh.get id = some l := by
  induction es with
  | nil => exact fun hgood _ _ => ⟨hgood, fun id l => by simp [pushAll]⟩
  | cons e es ih =>
    intro fresh hgood hids hnodup
    obtain ⟨hout, hnodup⟩ := List.nodup_cons.mp hnodup
    obtain ⟨hgood', hget'⟩ : (fresh.pushAbove e.1 (.file (at_ + e.2.1) e.2.2)).Good ∧ _ :=
      IdIndex.pushAbove_spec hgood (hids e (List.mem_cons_self ..))
    obtain ⟨hgood'', hget⟩ := ih hgood' (fun e he => hids e (List.mem_cons_of_mem _ he)) hnodup
    refine ⟨hgood'', fun id l => ?_⟩
    rw [pushAll, List.foldl_cons, ← pushAll, hget, hget', List.map_cons, List.map_cons,
      List.mem_cons, List.mem_cons, locate]
    by_cases hid : id = e.1
    · subst hid
      rw [if_pos rfl]
      constructor
      · rintro (hin | ⟨-, heq⟩)
        · exact .inl (.inr hin)
        · cases heq
          exact .inl (.inl rfl)
      · rintro ((heq | hin) | ⟨hnot, -⟩)
        · cases heq
          exact .inr ⟨hout, rfl⟩
        · exact .inl hin
        · exact absurd (.inl rfl) hnot
    · rw [if_neg hid]
      constructor
      · rintro (hin | ⟨hnot, hl⟩)
        · exact .inl (.inr hin)
        · exact .inr ⟨fun h => h.elim hid hnot, hl⟩
      · rintro ((heq | hin) | ⟨hnot, hl⟩)
        · cases heq
          exact absurd rfl hid
        · exact .inl hin
        · exact .inr ⟨fun h => hnot (.inr h), hl⟩

theorem inTurn_add (a b : Nat) : ∀ (st : Standing) (fresh : IdIndex Loc),
    inTurn docs at_ len (a + b) st fresh =
      (inTurn docs at_ len a st fresh).bind fun r => inTurn docs at_ len b r.1 r.2 := by
  induction a with
  | zero =>
    intro st fresh
    rw [Nat.zero_add]
    rfl
  | succ a ih =>
    intro st fresh
    rw [Nat.add_right_comm, inTurn, inTurn]
    cases indexEntry docs len st with
    | none => rfl
    | some r => exact ih _ _

end InTurn

/-! ## 2. In shares -/

/-- An index that is all list. -/
def ofDense (dense : List (Option Loc)) (count : Nat) : IdIndex Loc := ⟨dense, OrdMap.empty, 0, count⟩

/-- **The slots laid so far, beside the index read in turn so far.** -/
structure Beside (st : Standing) (dense : List (Option Loc)) (count : Nat) (fresh : IdIndex Loc) :
    Prop where
  good : (ofDense dense count).Good
  fresh_good : fresh.Good
  get : ∀ k, fresh.get k = (ofDense dense count).get k
  reach : dense.length = st.id

section Shares

variable {docs : List UInt8} {at_ len : Nat}

theorem beside_start (p : Nat) : Beside ⟨p, 0, 0⟩ [] 0 .empty :=
  ⟨IdIndex.good_empty, IdIndex.good_empty, fun _ => rfl, rfl⟩

/-- An entry moves past the id before it. -/
theorem indexEntry_past {st st' : Standing} {pos n : Nat}
    (h : indexEntry docs len st = some ((pos, n), st')) : st.id < st'.id := by
  rw [indexEntry] at h
  simp only [Option.bind_eq_bind, Option.bind_eq_some_iff] at h
  obtain ⟨⟨step, p₁⟩, -, ⟨n', p₂⟩, -, ⟨off, p₃⟩, -, h⟩ := h
  dsimp only at h
  split at h
  · next hstep =>
    split at h
    · split at h
      · cases h
        dsimp only
        omega
      · cases h
    · cases h
  · cases h

/-- A document laid and pushed. -/
theorem Beside.lay {st st' : Standing} {dense : List (Option Loc)} {count : Nat}
    {fresh : IdIndex Loc} (h : Beside st dense count fresh) (hlt : st.id < st'.id) (l : Loc) :
    Beside st' (dense ++ List.replicate (st'.id - st.id - 1) none ++ [some l]) (count + 1)
      (fresh.pushAbove st'.id l) := by
  have hlaid : (ofDense dense count).laid st'.id l =
      ofDense (dense ++ List.replicate (st'.id - st.id - 1) none ++ [some l]) (count + 1) := by
    rw [IdIndex.laid, ← h.reach]
    rfl
  obtain ⟨hgood, hlen, hget⟩ : ((ofDense dense count).laid st'.id l).Good ∧ _ :=
    IdIndex.laid_spec h.good rfl (show dense.length < st'.id by rw [h.reach]; exact hlt)
  obtain ⟨hgood', hget'⟩ : (fresh.pushAbove st'.id l).Good ∧ _ :=
    IdIndex.pushAbove_spec h.fresh_good (by omega)
  rw [hlaid] at hgood hlen hget
  exact ⟨hgood, hgood', fun k => by rw [hget, hget', h.get], hlen⟩

/-- **A share read is its documents read in turn.** -/
theorem shareDocs_some {first room : Nat} {before : List (Option Loc)} {k : Nat} : ∀ {st st' : Standing} {part part' : List (Option Loc)} {count : Nat}
    {fresh : IdIndex Loc}, first + part.length = st.id → Beside st (before ++ part) count fresh →
    shareDocs docs at_ len first room k st part = some (st', part') →
    ∃ fresh', inTurn docs at_ len k st fresh = some (st', fresh') ∧
      Beside st' (before ++ part') (count + k) fresh' := by
  induction k with
  | zero =>
    intro st st' part part' count fresh _ hb h
    cases h
    exact ⟨fresh, rfl, hb⟩
  | succ k ih =>
    intro st st' part part' count fresh hpart hb h
    rw [shareDocs] at h
    rw [inTurn]
    cases hentry : indexEntry docs len st with
    | none =>
      rw [hentry] at h
      cases h
    | some r =>
      obtain ⟨⟨pos, n⟩, st₁⟩ := r
      rw [hentry] at h
      dsimp only at h ⊢
      have hlt := indexEntry_past hentry
      split at h
      · cases h
      · split at h
        · cases h
        · -- its slot is as far past the last as its id is
          have hgap : st₁.id - first - 1 - part.length = st₁.id - st.id - 1 := by omega
          have hlay := hb.lay hlt (.file (at_ + pos) n)
          rw [hgap] at h
          rw [List.append_assoc, List.append_assoc, ← List.append_assoc part] at hlay
          have hlen : first + (part ++ List.replicate (st₁.id - st.id - 1) none ++
              [some (Loc.file (at_ + pos) n)]).length = st₁.id := by
            simp only [List.length_append, List.length_replicate, List.length_singleton]
            omega
          obtain ⟨fresh', hturn, hb'⟩ := ih hlen hlay h
          exact ⟨fresh', hturn, by rw [Nat.add_right_comm] at hb'; exact hb'⟩

/-- **So are the shares from one on**, each starting where the one before it ended. -/
theorem readShares_some {count : Nat} {marks : List Standing} : ∀ {i : Nat} {mark : Standing}
    {dense more : List (Option Loc)} {fresh : IdIndex Loc},
    Beside mark dense (min count (i * indexShare)) fresh →
    readShares docs at_ len count i mark marks = some more →
    ∃ fresh', inTurn docs at_ len (min count ((i + marks.length) * indexShare) -
        min count (i * indexShare)) mark fresh = some (marks.getLastD mark, fresh') ∧
      Beside (marks.getLastD mark) (dense ++ more) (min count ((i + marks.length) * indexShare))
        fresh' := by
  induction marks with
  | nil =>
    intro i mark dense more fresh hb h
    cases h
    rw [List.length_nil, Nat.add_zero, Nat.sub_self, List.append_nil]
    exact ⟨fresh, rfl, hb⟩
  | cons next marks ih =>
    intro i mark dense more fresh hb h
    rw [readShares] at h
    cases hshare : share docs at_ len count i mark next with
    | none =>
      rw [hshare] at h
      cases h
    | some part =>
      rw [hshare] at h
      obtain ⟨rest, hrest, rfl⟩ := Option.map_eq_some_iff.mp h
      rw [share] at hshare
      split at hshare
      · cases hshare
      · next st part' hdocs =>
        split at hshare
        · next hwhole =>
          cases hshare
          obtain ⟨-, rfl⟩ := hwhole
          obtain ⟨fresh₁, hturn₁, hb₁⟩ := shareDocs_some
            (show mark.id + ([] : List (Option Loc)).length = mark.id from rfl)
            (by rw [List.append_nil]; exact hb) hdocs
          have hsum : min count (i * indexShare) + min (count - i * indexShare) indexShare =
              min count ((i + 1) * indexShare) := by
            have hmul : (i + 1) * indexShare = i * indexShare + indexShare := by ring
            omega
          rw [hsum] at hb₁
          obtain ⟨fresh₂, hturn₂, hb₂⟩ := ih hb₁ hrest
          have hmarks : i + (st :: marks).length = i + 1 + marks.length := by
            rw [List.length_cons]
            omega
          have hmono : (i + 1) * indexShare ≤ (i + 1 + marks.length) * indexShare :=
            Nat.mul_le_mul_right _ (by omega)
          refine ⟨fresh₂, ?_, ?_⟩
          · rw [hmarks, List.getLastD_cons,
              show min count ((i + 1 + marks.length) * indexShare) - min count (i * indexShare) =
                min (count - i * indexShare) indexShare +
                  (min count ((i + 1 + marks.length) * indexShare) -
                    min count ((i + 1) * indexShare)) by omega, inTurn_add, hturn₁]
            exact hturn₂
          · rw [hmarks, List.getLastD_cons, ← List.append_assoc]
            exact hb₂
        · cases hshare

/-- **What shares give, in turn would**: whatever the index's bytes are. -/
theorem adoptShares_in_turn {from_ count : Nat} {ends : List UInt8} {fresh : IdIndex Loc}
    {last : DocId} (h : adoptShares docs from_ ends count at_ len = some (fresh, last)) :
    ∃ fresh', adoptInTurn docs from_ count at_ len = some (fresh', last) ∧ fresh.Good ∧
      fresh'.Good ∧ ∀ k, fresh'.get k = fresh.get k := by
  rw [adoptShares] at h
  split at h
  · cases h
  · next hfine =>
    rw [not_or, not_or, not_or, not_or] at hfine
    obtain ⟨hshares, -, hstop, -, -⟩ := hfine
    have hshares' := Decidable.not_not.mp hshares
    have hstop' := Decidable.not_not.mp hstop
    split at h
    · cases h
    · next dense hread =>
      cases h
      have hzero : min count (0 * indexShare) = 0 := by rw [Nat.zero_mul, Nat.min_zero]
      have hstart : Beside ⟨from_, 0, 0⟩ [] (min count (0 * indexShare)) .empty := by
        rw [hzero]
        exact beside_start from_
      obtain ⟨fresh', hturn, hb⟩ := readShares_some hstart hread
      have hall : min count ((0 + (marksOf ends).length) * indexShare) = count := by
        rw [hshares', Nat.zero_add, indexShare]
        omega
      rw [hall, hzero, Nat.sub_zero] at hturn
      rw [hall, List.nil_append] at hb
      refine ⟨fresh', ?_, hb.good, hb.fresh_good, hb.get⟩
      rw [adoptInTurn, hturn]
      dsimp only
      rw [if_pos hstop']

end Shares

/-! ## 3. The record the index is of -/

/-- No byte of a log is dead twice. -/
theorem tally_dead_le (log : List Record) : (tally log).dead ≤ (tally log).len := by
  -- with what is live of any ids, too
  have hgo : ∀ ids : List DocId, ids.Nodup → (tally log).dead +
      (ids.map fun id => ((tally log).spot id).elim 0 fun pn => pn.2).sum ≤ (tally log).len := by
    induction log using List.reverseRecOn with
    | nil =>
      intro ids _
      have hzero : (ids.map fun id => ((tally []).spot id).elim 0 fun pn => pn.2).sum = 0 :=
        List.sum_eq_zero fun n hn => by
          obtain ⟨id, -, rfl⟩ := List.mem_map.mp hn
          rfl
      rw [hzero]
      exact Nat.le_refl _
    | append_singleton log r ih =>
      intro ids hnodup
      have hframe := r.length_frame
      rw [tally_concat]
      -- the ids apart from the record's are as they were
      have hrest : ∀ ids : List DocId, r.id ∉ ids →
          (ids.map fun id => (((tally log).add r).spot id).elim 0 fun pn => pn.2) =
            ids.map fun id => ((tally log).spot id).elim 0 fun pn => pn.2 := by
        intro ids hout
        refine List.map_congr_left fun id hid => ?_
        rw [Tally.add]
        dsimp only
        have hne : id ≠ r.id := fun heq => hout (heq ▸ hid)
        rw [if_neg hne]
      by_cases hin : r.id ∈ ids
      · have hperm := List.perm_cons_erase hin
        have hout : r.id ∉ ids.erase r.id := fun hmem => (hnodup.mem_erase_iff.mp hmem).1 rfl
        have hih := ih _ hnodup
        rw [(hperm.map _).sum_eq] at hih ⊢
        rw [List.map_cons, List.sum_cons] at hih ⊢
        rw [hrest _ hout, Tally.add]
        dsimp only
        rw [if_pos rfl]
        by_cases hop : r.op = .put
        · rw [if_pos hop, if_pos hop, Option.elim_some, Tally.place]
          dsimp only
          omega
        · rw [if_neg hop, if_neg hop, Option.elim_none]
          omega
      · have hih := ih (r.id :: ids) (List.nodup_cons.mpr ⟨hin, hnodup⟩)
        rw [List.map_cons, List.sum_cons] at hih
        rw [hrest _ hin, Tally.add]
        dsimp only
        split
        · omega
        · omega
  have hnone := hgo [] List.nodup_nil
  rw [List.map_nil, List.sum_nil, Nat.add_zero] at hnone
  exact hnone

namespace Store

/-- What `write_image` writes, or `write_live`. -/
def writeRecord (s : Store) (live : Bool) : Result (List UInt8) :=
  if live then s.writeLive else .ok s.image

/-- The writer moved to what it wrote. -/
def moved (s : Store) (live : Bool) (base : List UInt8) (at_ : Nat) : Store :=
  if live then s.relocateLive base at_ else s.relocateImage base at_

section Recorded

variable {ok : Record → Prop} {s : Store} {held : List (List Record)} {log live : List Record}
  {base record : List UInt8} {at_ : Nat}

/-- `live_len` is what `write_live` writes. -/
theorem Fit.liveLen_eq (h : Fit s held) (hlive : List.Forall₂ (IsLive s) s.index.pairs live) :
    s.liveLen = (bytes live).length := by
  have hgo : ∀ {es : List (DocId × Loc)} {live : List Record}, List.Forall₂ (IsLive s) es live →
      (∀ e ∈ es, s.index.get e.1 = some e.2) →
      ((es.map (·.1)).map fun id => (s.index.get id).elim 0 fun l =>
        (header opPut id l.len).length + l.len).sum = (bytes live).length := by
    intro es live hlive
    induction hlive with
    | nil => exact fun _ => rfl
    | @cons e r es live hr _ ih =>
      intro hes
      obtain ⟨hop, hid, -, hlen⟩ := hr
      have hhead : (header opPut e.1 e.2.len).length = r.header.length := by
        rw [Record.header, hop, hid, hlen]
        rfl
      rw [List.map_cons, List.map_cons, List.sum_cons,
        ih fun e he => hes e (List.mem_cons_of_mem _ he), hes e (List.mem_cons_self ..),
        Option.elim_some, hhead, bytes_cons, List.length_append, r.length_frame, hlen]
  rw [liveLen, ← IdIndex.map_pairs]
  exact hgo hlive fun e he => h.good.toPlaced.mem_pairs.mp he

/-- **The writer moved to its record is that record's**, and the index says how long it is and what
of it is dead. -/
theorem Logged.recorded (h : Logged ok s held log) {wlive : Bool}
    (hwrite : s.writeRecord wlive = .ok record) (hin : at_ + record.length ≤ base.length)
    (hrec : (base.drop at_).take record.length = record) : ∃ log',
      Logged ok (s.moved wlive base at_) [[]] log' ∧ record = bytes log' ∧
      (s.moved wlive base at_).nextId = s.nextId ∧
      (s.moved wlive base at_).base = some (base, [(at_, record.length)]) ∧
      (if wlive then s.liveLen else s.imageLen) = record.length ∧
      (if wlive then 0 else s.deadBytes) = (s.moved wlive base at_).deadBytes := by
  cases wlive with
  | false =>
    have hrecord : s.image = record := Except.ok.inj hwrite
    subst hrecord
    obtain ⟨hfit, hsame, ho⟩ := h.fit.relocated h.orderly hin hrec
    have hlen := h.fit.imageLen_eq
    refine ⟨log, h.same hsame hfit ho, h.image, rfl, ?_, hlen, rfl⟩
    rw [← hlen]
    rfl
  | true =>
    obtain ⟨live, hlive⟩ := h.fit.live
    have hrecord : bytes live = record := by
      have hok := (h.fit.writeLive_eq hlive).symm.trans hwrite
      exact Except.ok.inj hok
    subst hrecord
    obtain ⟨-, -, -, -, htotal, -⟩ := h.fit.relocated_live hlive hin hrec
    refine ⟨live, h.relocatedLive hlive hin hrec, rfl, rfl, ?_, h.fit.liveLen_eq hlive, rfl⟩
    rw [← htotal]
    rfl

/-- The entries located are the moved index's pairs. -/
theorem pairs_moved (s : Store) (wlive : Bool) (base : List UInt8) (at_ : Nat) :
    (s.moved wlive base at_).index.pairs =
      (s.entries wlive 0 s.index.pairs).map (locate at_) := by
  cases wlive with
  | false =>
    have hgo : ∀ (es : List (DocId × Loc)) (to_ : Nat), (IdIndex.relocatePairs
        (fun (u : Unit) (_ : Nat) l => (Loc.file (at_ + s.placeOf l) l.len, u)) es ()).1 =
          (s.entries false to_ es).map (locate at_) := by
      intro es
      induction es with
      | nil => exact fun _ => rfl
      | cons e es ih =>
        intro to_
        obtain ⟨k, l⟩ := e
        rw [IdIndex.relocatePairs, entries, List.map_cons, ih]
        rfl
    exact (IdIndex.pairs_relocate s.index ()).1.trans (hgo _ 0)
  | true =>
    have hgo : ∀ (es : List (DocId × Loc)) (to_ : Nat),
        (IdIndex.relocatePairs liveStep es (at_ + to_)).1 =
          (s.entries true to_ es).map (locate at_) := by
      intro es
      induction es with
      | nil => exact fun _ => rfl
      | cons e es ih =>
        intro to_
        obtain ⟨k, l⟩ := e
        have hnext : (liveStep (at_ + to_) k l).2 =
            at_ + (to_ + (header opPut k l.len).length + l.len) := by
          rw [liveStep]
          dsimp only
          omega
        rw [IdIndex.relocatePairs, hnext, entries, List.map_cons, ih, liveStep, Nat.add_assoc]
        rfl
    exact (IdIndex.pairs_relocate s.index at_).1.trans (hgo _ 0)

/-- **An index can hold its documents.** -/
theorem Logged.entered (h : Logged ok s held log) {wlive : Bool}
    (hwrite : s.writeRecord wlive = .ok record) :
    Entered record.length 0 (s.entries wlive 0 s.index.pairs) := by
  have hes : ∀ e ∈ s.index.pairs, s.index.get e.1 = some e.2 :=
    fun e he => h.fit.good.toPlaced.mem_pairs.mp he
  -- a record that starts its file
  have hin : 0 + record.length ≤ record.length := by omega
  have hrec : (record.drop 0).take record.length = record := by simp
  obtain ⟨log', hmoved, hrecord, -, hbase, -⟩ := h.recorded hwrite hin hrec
  have hpairs := pairs_moved s wlive record 0
  constructor
  · rw [map_entries, IdIndex.map_pairs, List.pairwise_cons]
    refine ⟨fun id hid => ?_, h.fit.good.ids_ascending⟩
    obtain ⟨l, hl⟩ := h.fit.good.toPlaced.mem_ids.mp hid
    exact (h.fit.small hl).1
  · intro e he
    have hmem : locate 0 e ∈ (s.moved wlive record 0).index.pairs := by
      rw [hpairs]
      exact List.mem_map_of_mem he
    have hget := hmoved.fit.good.toPlaced.mem_pairs.mp hmem
    obtain ⟨-, hid, hlen⟩ := hmoved.fit.small hget
    obtain ⟨st, hst, hfrom, hto⟩ := hmoved.orderly.inside _ _ _ hget
    rw [stretches, hbase] at hst
    have hst' : st = (0, record.length) := List.mem_singleton.mp hst
    subst hst'
    exact ⟨hid, hlen, by dsimp only at hfrom; omega, by dsimp only at hto; omega⟩

end Recorded

end Store

/-! ## 4. Adopted -/

/-- The head of an index as it was written, and where the documents start. -/
theorem readIndexHead_written {whole dead count : Nat} (rest : List UInt8)
    (hwhole : whole < 2 ^ 64) (hdead : dead < 2 ^ 64) (hcount : count < 2 ^ 64) : ∃ p,
      readIndexHead (framesSplit :: (uvarint whole ++ (uvarint dead ++ uvarint count)) ++ rest) =
        some (whole, dead, count, p) ∧
      (framesSplit :: (uvarint whole ++ (uvarint dead ++ uvarint count)) ++ rest).drop p = rest ∧
      p ≤ (framesSplit :: (uvarint whole ++ (uvarint dead ++ uvarint count)) ++ rest).length := by
  generalize hdocs : framesSplit :: (uvarint whole ++ (uvarint dead ++ uvarint count)) ++ rest = docs
  have h₀ : docs.drop 1 = uvarint whole ++ (uvarint dead ++ (uvarint count ++ rest)) := by
    rw [← hdocs, List.cons_append, List.drop_succ_cons, List.drop_zero, List.append_assoc,
      List.append_assoc]
  have hp₀ : 1 ≤ docs.length := by
    rw [← hdocs, List.cons_append, List.length_cons]
    omega
  have hp₁ := past_le hp₀ h₀
  have h₁ := drop_past h₀
  have hp₂ := past_le hp₁ h₁
  have h₂ := drop_past h₁
  refine ⟨_, ?_, drop_past h₂, past_le hp₂ h₂⟩
  rw [readIndexHead, uvarintOf_written hp₀ hwhole h₀]
  dsimp only [Option.bind_eq_bind, Option.bind_some]
  rw [uvarintOf_written hp₁ hdead h₁]
  dsimp only [Option.bind_some]
  rw [uvarintOf_written hp₂ hcount h₂]
  rfl

/-- A bound on every id put bounds the greatest. -/
theorem topPut_lt {log : List Record} {n : Nat} (h : ∀ r ∈ log, r.op = .put → r.id < n) :
    topPut log < max 1 n := by
  induction log using List.reverseRecOn with
  | nil => exact Nat.lt_of_lt_of_le Nat.one_pos (Nat.le_max_left _ _)
  | append_singleton log r ih =>
    have hih := ih fun q hq => h q (List.mem_append_left _ hq)
    rw [topPut_concat]
    split
    · next hop =>
      have hr := h r (by simp) hop
      omega
    · exact hih

namespace Store

/-- **`Store::raise_next_id`.** -/
def raiseNextId (s : Store) (v : Nat) : Store := { s with nextId := max s.nextId v }

section Adopted

variable {ok : Record → Prop} {s : Store} {held : List (List Record)} {log : List Record}
  {base record : List UInt8} {at_ : Nat}

/-- **What a written index is read as**: its parts, and the index they give in turn. -/
theorem Logged.read_index (h : Logged ok s held log) {wlive : Bool}
    (hwrite : s.writeRecord wlive = .ok record) (hin : at_ + record.length ≤ base.length)
    (hrec : (base.drop at_).take record.length = record) (hbase : base.length ≤ 2 ^ 63 - 2 ^ 32)
    (hdocs : s.len ≤ (2 ^ 32 - 1) * indexShare) : ∃ docs ends p fresh,
      splitIndex (s.imageIndex wlive) = some (docs, ends) ∧
      readIndexHead docs =
        some (record.length, (s.moved wlive base at_).deadBytes, s.index.count, p) ∧
      (s.moved wlive base at_).deadBytes ≤ record.length ∧
      adoptInTurn docs p s.index.count at_ record.length =
        some (fresh, s.index.ids.getLastD 0) ∧ fresh.Good ∧
      ∀ k, fresh.get k = (s.moved wlive base at_).index.get k := by
  obtain ⟨log', hmoved, hrecord, -, -, hlen, hdead⟩ := h.recorded hwrite hin hrec
  have hentered := h.entered hwrite
  obtain ⟨ends, hindex, hends⟩ := imageIndex_eq h.fit.good wlive
  have hcount : s.index.count ≤ (2 ^ 32 - 1) * indexShare := hdocs
  have hshare : indexShare = 16384 := rfl
  have hdeadle : (s.moved wlive base at_).deadBytes ≤ record.length := by
    rw [hmoved.dead, hrecord, ← tally_len]
    exact tally_dead_le log'
  have hhead : s.indexHead wlive = framesSplit :: (uvarint record.length ++
      (uvarint (s.moved wlive base at_).deadBytes ++ uvarint s.index.count)) := by
    rw [indexHead, hlen, hdead]
  obtain ⟨p, hread, hdrop, hp⟩ := readIndexHead_written
    (entriesBytes 0 0 (s.entries wlive 0 s.index.pairs)) (show record.length < 2 ^ 64 by omega)
    (show (s.moved wlive base at_).deadBytes < 2 ^ 64 by omega)
    (show s.index.count < 2 ^ 64 by rw [hshare] at hcount; omega)
  rw [← hhead] at hread hdrop hp
  generalize hdocs' : s.indexHead wlive ++ entriesBytes 0 0 (s.entries wlive 0 s.index.pairs) = docs
    at hread hdrop hp hindex
  have hcounted : (s.entries wlive 0 s.index.pairs).length = s.index.count := by
    rw [h.fit.good.counted, ← IdIndex.map_pairs, ← map_entries s.index.pairs 0, List.length_map]
  -- read in turn, the documents are the ones written
  obtain ⟨hfirst, hasc⟩ := List.pairwise_cons.mp hentered.ascending
  obtain ⟨end_, hturn⟩ : ∃ end_, inTurn docs at_ record.length
      (s.entries wlive 0 s.index.pairs).length ⟨p, 0, 0⟩ .empty = some (⟨p + (entriesBytes 0 0
        (s.entries wlive 0 s.index.pairs)).length,
          ((s.entries wlive 0 s.index.pairs).map (·.1)).getLastD 0, end_⟩,
        pushAll at_ .empty (s.entries wlive 0 s.index.pairs)) :=
    inTurn_written (by omega) hentered hp (Nat.zero_le _) (by rw [hdrop, List.append_nil])
  obtain ⟨hgood, hget⟩ : (pushAll at_ .empty (s.entries wlive 0 s.index.pairs)).Good ∧ _ :=
    pushAll_spec IdIndex.good_empty (fun e he => hfirst e.1 (List.mem_map_of_mem he))
      (hasc.imp Nat.ne_of_lt)
  have hstop : p + (entriesBytes 0 0 (s.entries wlive 0 s.index.pairs)).length = docs.length := by
    have hsize := congrArg List.length hdrop
    rw [List.length_drop] at hsize
    omega
  refine ⟨docs, ends.flatMap endBytes, p, _, ?_, hread, hdeadle, ?_, hgood, fun k => ?_⟩
  · rw [hindex, ← hdocs', hhead]
    refine splitIndex_written rfl ?_
    rw [hends, hshare]
    rw [hshare] at hcount
    omega
  · rw [adoptInTurn, ← hcounted, hturn]
    dsimp only
    rw [if_pos hstop, map_entries, IdIndex.map_pairs]
  · -- both have a document's place where the entries do
    refine Option.ext fun l => ?_
    rw [hget, IdIndex.get_empty, ← pairs_moved s wlive base at_,
      hmoved.fit.good.toPlaced.mem_pairs]
    constructor
    · rintro (hl | ⟨-, hl⟩)
      · exact hl
      · cases hl
    · exact .inl

/-- A fresh store that takes an index in. -/
theorem adoptIndex_eq {index docs ends : List UInt8} {len dead count p : Nat}
    {fresh : IdIndex Loc} {last : DocId} (hsplit : splitIndex index = some (docs, ends))
    (hhead : readIndexHead docs = some (len, dead, count, p)) (hdead : dead ≤ len)
    (hread : (if 1 < ends.length then adoptShares docs p ends count at_ len else none).or
      (adoptInTurn docs p count at_ len) = some (fresh, last)) :
    new.adoptIndex base at_ len index = (true, { new with
      index := fresh
      totalBytes := len
      deadBytes := dead
      nextId := max 1 ((last + 1) % 2 ^ 64)
      base := some (base, [(at_, len)]) }) := by
  have hfresh : ¬ (new.index.count ≠ 0 ∨ new.base.isSome = true ∨ new.totalBytes ≠ 0) := by
    simp [new, IdIndex.empty]
  rw [adoptIndex, if_neg hfresh, hsplit]
  dsimp only
  rw [hhead]
  dsimp only
  rw [if_neg (by omega), hread]
  rfl

/-- A store that has everything in the file is read as one that has it in the same places. -/
theorem Fit.raw_filed {t u : Store} (h : Fit t [[]]) (hbase : u.base = t.base)
    (hget : ∀ id, u.index.get id = t.index.get id) (id : DocId) : u.raw id = t.raw id := by
  rw [raw, raw, hget]
  cases hl : t.index.get id with
  | none => rfl
  | some l =>
    cases l with
    | file a len =>
      dsimp only
      simp only [payload, hbase]
      cases t.base <;> rfl
    | held seg off len =>
      obtain ⟨r, pre, post, -, -, hheld, -⟩ := h.points id _ hl
      cases seg with
      | zero =>
        rw [List.getElem?_cons_zero, Option.some.injEq] at hheld
        simp at hheld
      | succ seg => simp at hheld

/-- The last id a store has is below its counter. -/
theorem Logged.last_below (h : Logged ok s held log)
    (hok : ∀ r, ok r → r.op = .put → r.id ≠ 2 ^ 64 - 1) :
    (s.index.ids.getLastD 0 + 1) % 2 ^ 64 ≤ max 1 s.nextId := by
  refine Nat.le_trans (Nat.mod_le _ _) ?_
  rw [List.getLastD_eq_getLast?]
  cases hlast : s.index.ids.getLast? with
  | none => exact Nat.le_max_left _ _
  | some id =>
    have hraw := (h.fit.mem_ids id).mp (List.mem_of_getLast? hlast)
    rw [h.raw] at hraw
    cases hr : latest log id with
    | none => exact absurd (by rw [stored, hr]; rfl) hraw
    | some r =>
      obtain ⟨hrlog, rfl, hop⟩ := latest_some hr
      have hlt := h.next hok r hrlog hop
      rw [Option.getD_some]
      omega

/-- **An image's index gives the store its walk gives.**  The record at `at_` of a mapped file is
what a reachable store wrote of its image, or of its live documents, and the index the one it wrote
beside it.  A fresh store takes it in, and is then what a walk of the record's frames leaves; the
next ids are the same once both are raised to the writer's counter, where no put was of the
greatest id of all.  In shares or in turn, the locations are the same.  A file place from
`2 ^ 63 - 2 ^ 32` on is no location, and the number of shares is a `u32`. -/
theorem index_adopted {ok : Record → Prop} (hok : ∀ r, ok r → r.op = .put → r.id ≠ 2 ^ 64 - 1)
    {s : Store} (h : Reached ok s) (hdocs : s.len ≤ (2 ^ 32 - 1) * indexShare) (wlive : Bool)
    {record base : List UInt8} {at_ : Nat} (hwrite : s.writeRecord wlive = .ok record)
    (hin : at_ + record.length ≤ base.length)
    (hrec : (base.drop at_).take record.length = record)
    (hbase : base.length ≤ 2 ^ 63 - 2 ^ 32) :
    ∃ t w n, new.adoptIndex base at_ record.length (s.imageIndex wlive) = (true, t) ∧
      new.replayMapped base at_ record.length = (.ok n, w) ∧
      t.ids = w.ids ∧ (∀ id, t.raw id = w.raw id) ∧ t.len = w.len ∧
      t.totalBytes = w.totalBytes ∧ t.deadBytes = w.deadBytes ∧
      (t.raiseNextId s.nextId).nextId = (w.raiseNextId s.nextId).nextId ∧
      ∃ docs ends dead p fresh last, splitIndex (s.imageIndex wlive) = some (docs, ends) ∧
        readIndexHead docs = some (record.length, dead, s.len, p) ∧
        adoptInTurn docs p s.len at_ record.length = some (fresh, last) ∧
        (∀ k, t.index.get k = fresh.get k) ∧
        ∀ fresh' last', adoptShares docs p ends s.len at_ record.length = some (fresh', last') →
          last' = last ∧ fresh'.ids = fresh.ids ∧ fresh'.count = fresh.count ∧
          ∀ k, fresh'.get k = fresh.get k := by
  obtain ⟨held, log, hlogged⟩ := h.logged
  obtain ⟨log', hmoved, hrecord, hnext, hmbase, -, -⟩ := hlogged.recorded hwrite hin hrec
  obtain ⟨docs, ends, p, fresh, hsplit, hhead, hdead, hturn, hgood, hget⟩ :=
    hlogged.read_index hwrite hin hrec hbase hdocs
  -- what the shares give agrees
  have hshares : ∀ fresh' last', adoptShares docs p ends s.len at_ record.length =
      some (fresh', last') → fresh'.Good ∧ last' = s.index.ids.getLastD 0 ∧
        ∀ k, fresh'.get k = fresh.get k := by
    intro fresh' last' heq
    obtain ⟨fresh'', hturn', hgood', -, hget'⟩ := adoptShares_in_turn heq
    rw [show s.len = s.index.count from rfl, hturn] at hturn'
    cases hturn'
    exact ⟨hgood', rfl, fun k => (hget' k).symm⟩
  have hagree : ∀ {fresh' : IdIndex Loc}, fresh'.Good → (∀ k, fresh'.get k = fresh.get k) →
      fresh'.ids = fresh.ids ∧ fresh'.count = fresh.count := by
    intro fresh' hgood' hget'
    refine hgood'.ids_eq hgood fun k => ?_
    rw [hgood'.mem_ids, hgood.mem_ids, hget']
  obtain ⟨taken, hread, htaken, hsame⟩ : ∃ taken : IdIndex Loc,
      (if 1 < ends.length then adoptShares docs p ends s.index.count at_ record.length else
        none).or (adoptInTurn docs p s.index.count at_ record.length) =
          some (taken, s.index.ids.getLastD 0) ∧ taken.Good ∧ ∀ k, taken.get k = fresh.get k := by
    rw [hturn]
    cases hr : (if 1 < ends.length then adoptShares docs p ends s.index.count at_ record.length else
      none) with
    | none => exact ⟨fresh, rfl, hgood, fun _ => rfl⟩
    | some r =>
      split at hr
      · obtain ⟨hgood', hlast, hget'⟩ := hshares r.1 r.2 hr
        exact ⟨r.1, by rw [Option.some_or, ← hlast], hgood', hget'⟩
      · cases hr
  -- the walk of the record
  have hbase' : (new.base.elim base fun b => b.1) = base := rfl
  obtain ⟨w, hwalk, hw, hwnext, -⟩ := holds_new.replayMapped rfl hbase' (hrecord ▸ hin)
    (hrecord ▸ hrec) (by rw [← hrecord]; omega)
  rw [← hrecord] at hwalk
  have hlog' : ([] ++ [log']).flatten ++ [[]].flatten = log' := by simp
  have hwraw := hw.raw_eq
  have hwtotal := hw.total
  have hwdead := hw.dead
  rw [hlog'] at hwraw hwtotal hwdead
  have hids : taken.ids = w.index.ids ∧ taken.count = w.index.count := by
    refine htaken.ids_eq hw.good fun k => ?_
    rw [show k ∈ w.index.ids ↔ _ from hw.mem_ids k, hlog', htaken.mem_ids, hsame, hget,
      ← hmoved.fit.good.mem_ids, show k ∈ (s.moved wlive base at_).index.ids ↔ _ from
        hmoved.fit.mem_ids k, hmoved.raw]
    cases stored log' k <;> simp
  -- no counter is above the writer's, but for the first id of all
  have hlow : ∀ r ∈ log', r.op = .put → r.id ≠ 2 ^ 64 - 1 :=
    fun r hr hop => hok r (hmoved.all r hr) hop
  have hbelow : ∀ r ∈ log', r.op = .put → r.id < s.nextId :=
    fun r hr hop => hnext ▸ hmoved.next hok r hr hop
  have hwle : 1 ≤ w.nextId ∧ w.nextId ≤ max 1 s.nextId := by
    rw [hwnext, show new.nextId = 1 from rfl, nextAfter_eq hlow]
    refine ⟨by omega, ?_⟩
    have htop : topPut log' < max 1 s.nextId := topPut_lt hbelow
    omega
  have htle := hlogged.last_below hok
  refine ⟨_, w, _, adoptIndex_eq hsplit hhead hdead hread, hwalk, hids.1, fun id => ?_, hids.2,
    ?_, ?_, ?_, docs, ends, _, p, fresh, _, hsplit, hhead, hturn, hsame, fun fresh' last' heq => ?_⟩
  · rw [hwraw, ← hmoved.raw]
    exact hmoved.fit.raw_filed hmbase.symm (fun k => (hsame k).trans (hget k)) id
  · rw [hwtotal, hrecord, tally_len]
  · rw [hwdead, ← hmoved.dead]
  · rw [raiseNextId, raiseNextId]
    dsimp only
    omega
  · obtain ⟨hgood', hlast, hget'⟩ := hshares fresh' last' heq
    obtain ⟨hids', hcount'⟩ := hagree hgood' hget'
    exact ⟨hlast, hids', hcount', hget'⟩

/-- The index of a store with one document. -/
theorem index_adopted_one : ∃ t, new.adoptIndex putOne.frame 0 4 (withOne.imageIndex false) =
    (true, t) := by
  have hreached : Reached (fun r => r.id ≠ 2 ^ 64 - 1) withOne :=
    .append putOne (reached_new _) (by decide)
  have hwrite : withOne.writeRecord false = .ok putOne.frame := rfl
  have hin : 0 + putOne.frame.length ≤ putOne.frame.length := by decide
  have hrec : (putOne.frame.drop 0).take putOne.frame.length = putOne.frame := rfl
  obtain ⟨t, -, -, ht, -⟩ := index_adopted (fun r hr _ => hr) hreached (by decide) false hwrite hin
    hrec (by decide)
  exact ⟨t, ht⟩

theorem none_short : ([] : List UInt8).length < 2 ^ 32 := by decide

/-- A tombstone of an id that was never put. -/
def delTwo : Record := ⟨.del, 2, [], two_pos_id, two_lt_ids, none_short⟩

/-- A document and a tombstone, handed over to a file that has the tombstone first. -/
def outOfOrder : Bool × Store :=
  (withOne.append delTwo.op.byte delTwo.id delTwo.payload).handOver (delTwo.frame ++ putOne.frame)
    [(4, 3), (3, 0)]

/-- **Handed over against the file's order, a store writes an index nothing takes in**: where a
stretch starts does not tell which one a place is in. -/
theorem out_of_order_refused : outOfOrder.1 = true ∧ outOfOrder.2.raw 1 = .ok (some [7]) ∧
    outOfOrder.2.image = putOne.frame ++ delTwo.frame ∧
    (new.adoptIndex outOfOrder.2.image 0 outOfOrder.2.image.length
      (outOfOrder.2.imageIndex false)).1 = false := by
  decide +kernel

end Adopted

end Store

end Segments

end Fenec
