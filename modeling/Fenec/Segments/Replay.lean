/-
# Logs replayed and compacted

A store appended to from nothing holds the log of what was appended, and so does one its image is
replayed into, whether copied into segments or left in a mapped file: each step of the three lands
the same record (`Holds.append`, `Holds.replay`, `Holds.replayMapped`).  Two stores that hold one
log answer alike (`Holds.alike`), so the log is all there is to a store.

`compacted` writes the live documents anew: the log of their last records, of which nothing is
dead (`Holds.compacted_eq`).
-/
import Fenec.Segments.Landing

namespace Fenec

open Lib Reader Codec Chunks

namespace Segments

/-- What putting a log's records makes of the next id. -/
def nextAfter (n : Nat) (log : List Record) : Nat :=
  log.foldl (fun n r => if r.op = .put ∧ n ≤ r.id then (r.id + 1) % 2 ^ 64 else n) n

theorem nextAfter_concat (n : Nat) (log : List Record) (r : Record) :
    nextAfter n (log ++ [r]) =
      if r.op = .put ∧ nextAfter n log ≤ r.id then (r.id + 1) % 2 ^ 64 else nextAfter n log := by
  simp [nextAfter, List.foldl_append]

/-- **The next id is one above the greatest ever put**, but for the greatest id of all. -/
theorem nextAfter_eq {log : List Record} (h : ∀ r ∈ log, r.op = .put → r.id ≠ 2 ^ 64 - 1) :
    nextAfter 1 log = topPut log + 1 := by
  induction log using List.reverseRecOn with
  | nil => rfl
  | append_singleton log r ih =>
    have hih := ih fun r hr => h r (List.mem_append_left _ hr)
    rw [nextAfter_concat, topPut_concat, hih]
    by_cases hop : r.op = .put
    · have hid := h r (by simp) hop
      have hlt := r.id_lt
      have hnext : r.id + 1 < 2 ^ 64 := by omega
      rw [if_pos hop]
      split
      · next hle =>
        have hge : topPut log ≤ r.id := by
          have := hle.2
          omega
        rw [Nat.mod_eq_of_lt hnext, Nat.max_eq_right hge]
      · next hle =>
        have hge : r.id ≤ topPut log := by
          by_contra hgt
          exact hle ⟨hop, Nat.lt_of_not_le hgt⟩
        rw [Nat.max_eq_left hge]
    · rw [if_neg hop, if_neg fun hc => hop hc.1]

namespace Store

/-! ## 1. Appending -/

/-- A log appended, record by record. -/
def appendAll (s : Store) (log : List Record) : Store :=
  log.foldl (fun s r => s.append r.op.byte r.id r.payload) s

theorem appendAll_concat (s : Store) (log : List Record) (r : Record) :
    s.appendAll (log ++ [r]) = (s.appendAll log).append r.op.byte r.id r.payload := by
  simp [appendAll, List.foldl_append]

variable {s : Store} {filed held : List (List Record)}

/-- **A store a log was appended to holds it past what it held.** -/
theorem Holds.appendAll (h : Holds s filed held) (log : List Record) :
    ∃ held', Holds (s.appendAll log) filed held' ∧ held'.flatten = held.flatten ++ log := by
  induction log using List.reverseRecOn with
  | nil => exact ⟨held, h, by simp⟩
  | append_singleton log r ih =>
    obtain ⟨held₁, h₁, hflat₁⟩ := ih
    obtain ⟨held₂, h₂, hflat₂⟩ := h₁.append r
    refine ⟨held₂, ?_, ?_⟩
    · rw [appendAll_concat]
      exact h₂
    · rw [hflat₂, hflat₁, List.append_assoc]

theorem nextId_appendAll (s : Store) (log : List Record) :
    (s.appendAll log).nextId = nextAfter s.nextId log := by
  induction log using List.reverseRecOn with
  | nil => rfl
  | append_singleton log r ih =>
    rw [appendAll_concat, (landed_append _ r).next, nextAfter_concat, ih]

/-! ## 2. Walking frames -/

/-- **A walk of a log's bytes lands its records in turn**: `I` is what is known after some of
them. -/
theorem walkFrames_log {σ : Type} (one : σ → UInt8 → DocId → Nat → Nat → Nat → σ)
    {log : List Record} (hlen : (bytes log).length < 2 ^ 63) (I : σ → List Record → Prop)
    (hstep : ∀ s done r rest, log = done ++ r :: rest → I s done →
      I (one s r.op.byte r.id r.payload.length (bytes done).length
        ((bytes done).length + r.header.length)) (done ++ [r]))
    {s : σ} (h₀ : I s []) :
    ∃ s', walkFrames (bytes log) one (bytes log).length 0 s 0 =
      (.ok log.length, s', (bytes log).length) ∧ I s' log := by
  have hgo : ∀ (rest done : List Record) (fuel : Nat) (s : σ), log = done ++ rest →
      (bytes rest).length ≤ fuel → I s done →
      ∃ s', walkFrames (bytes log) one fuel (bytes done).length s done.length =
        (.ok log.length, s', (bytes log).length) ∧ I s' log := by
    intro rest
    induction rest with
    | nil =>
      intro done fuel s hlog _ hI
      rw [List.append_nil] at hlog
      subst hlog
      refine ⟨s, ?_, hI⟩
      cases fuel with
      | zero => rfl
      | succ fuel => rw [walkFrames, if_neg (Nat.lt_irrefl _)]
    | cons r rest ih =>
      intro done fuel s hlog hfuel hI
      have hbytes : bytes log = bytes done ++ (r.frame ++ bytes rest) := by
        rw [hlog, bytes_append, bytes_cons]
      have hall := congrArg List.length hbytes
      have hframe := r.length_frame
      have hpos := r.frame_pos
      simp only [List.length_append] at hall
      rw [bytes_cons, List.length_append] at hfuel
      cases fuel with
      | zero => omega
      | succ fuel =>
        have hdrop : (bytes log).drop (bytes done).length =
            r.header ++ (r.payload ++ bytes rest) := by
          rw [hbytes, List.drop_left, r.frame_eq, List.append_assoc]
        have hhead : Reader.Reads (bytes log) (readHead (bytes log)) r.header
            (r.op.byte, r.id, r.payload.length) := reads_head r
        obtain ⟨l, hl⟩ := hhead ⟨(bytes done).length, []⟩ _ (by dsimp only; omega) hdrop
        have hnext : (bytes done).length + r.header.length + r.payload.length =
            (bytes (done ++ [r])).length := by
          rw [bytes_append, bytes_singleton, List.length_append, hframe]
          omega
        rw [walkFrames, if_pos (by omega), hl]
        dsimp only
        rw [if_neg (by omega), if_neg (by omega), hnext]
        have hcount : done.length + 1 = (done ++ [r]).length := by simp
        rw [hcount]
        exact ih (done ++ [r]) fuel _ (by rw [hlog]; simp) (by omega)
          (hstep s done r rest hlog hI)
  exact hgo log [] (bytes log).length s rfl (Nat.le_refl _) h₀

/-! ## 3. Replaying into segments -/

/-- A replayed frame lands as a written one. -/
theorem replayOne_eq (s : Store) (r : Record) :
    s.replayOne r.op.byte r.id r.payload.length r.frame = s.append r.op.byte r.id r.payload := by
  unfold replayOne append landFrame
  simp only [extend, List.length_modify, Record.frame]

/-- **`replay` of a log's bytes is the log appended.** -/
theorem replay_eq (s : Store) {log : List Record} (hlen : (bytes log).length < 2 ^ 63) :
    s.replay (bytes log) = (.ok log.length, s.appendAll log) := by
  have hstep : ∀ (s₁ : Store) (done : List Record) (r : Record) (rest : List Record),
      log = done ++ r :: rest → s₁ = s.appendAll done →
      s₁.replayOne r.op.byte r.id r.payload.length (((bytes log).drop (bytes done).length).take
        ((bytes done).length + r.header.length + r.payload.length - (bytes done).length)) =
        s.appendAll (done ++ [r]) := by
    intro s₁ done r rest hlog hs
    have hframe : ((bytes log).drop (bytes done).length).take
        ((bytes done).length + r.header.length + r.payload.length - (bytes done).length) =
        r.frame := by
      rw [hlog, bytes_append, List.drop_left, bytes_cons, Nat.add_assoc, Nat.add_sub_cancel_left,
        ← r.length_frame, List.take_left]
    rw [hframe, replayOne_eq, appendAll_concat, hs]
  obtain ⟨s', hwalk, hs'⟩ := walkFrames_log
    (fun s op id len start pos =>
      s.replayOne op id len (((bytes log).drop start).take (pos + len - start)))
    hlen (fun s' done => s' = s.appendAll done) hstep (s := s) rfl
  rw [replay, hwalk, hs']

/-! ## 4. Replaying out of a file -/

section Mapped

variable {s s' : Store} {filed held : List (List Record)} {base : List UInt8} {at_ n m : Nat}

theorem stretches_addStretch (s : Store) (base : List UInt8) (st : Nat × Nat) :
    (s.addStretch base st).stretches = s.stretches ++ [st] := rfl

theorem file_addStretch (hbase : (s.base.elim base fun b => b.1) = base) (st : Nat × Nat) :
    (s.addStretch base st).file = base := hbase

/-- Where stretches are read, their file is the mapped one. -/
theorem file_eq (hbase : (s.base.elim base fun b => b.1) = base) (h : s.stretches ≠ []) :
    s.file = base := by
  cases hb : s.base with
  | none => simp [stretches, hb] at h
  | some b =>
    rw [hb] at hbase
    rw [file, hb]
    exact hbase

/-- Nothing lies in segments that are empty. -/
theorem Holds.segment_empty (h : Holds s filed held) (hempty : held.flatten = []) {k : Nat}
    {g : Segment} (hg : s.segments[k]? = some g) : g.data = [] := by
  obtain ⟨hk, hget⟩ := List.getElem?_eq_some_iff.mp hg
  have hrel := h.segs.get hk (h.segs.length_eq ▸ hk)
  rw [List.get_eq_getElem, hget] at hrel
  rw [hrel, List.flatten_eq_nil_iff.mp hempty _ (List.get_mem _ _), bytes_nil]

/-- A location in a file's stretches is good in more of them, and in a longer last one. -/
theorem lies_addStretch (h : Holds s filed held) (hempty : held.flatten = [])
    (hfile : s.stretches ≠ [] → s'.file = s.file)
    {init : List (Nat × Nat)} (hst' : s'.stretches = init ++ [(at_, m)])
    (hst : s.stretches = init ∨ (s.stretches = init ++ [(at_, n)] ∧ n ≤ m)) {l : Loc} {p : Nat}
    (hl : s.Lies l p) : s'.Lies l p := by
  cases l with
  | held seg off len =>
    obtain ⟨g, hg, hoff, hle, -⟩ := hl
    rw [h.segment_empty hempty hg, List.length_nil] at hle
    omega
  | file a len =>
    obtain ⟨k, st, hk, hfrom, hto, rfl⟩ := hl
    have hne : s.stretches ≠ [] := fun hnil => by simp [hnil] at hk
    have hsame : s'.file = s.file := hfile hne
    obtain ⟨hklt, -⟩ := List.getElem?_eq_some_iff.mp hk
    -- the stretches before the last are the same, and so is where each starts
    have hkinit : k ≤ init.length := by
      rcases hst with hst | ⟨hst, -⟩ <;> rw [hst] at hklt
      · omega
      · rw [List.length_append, List.length_singleton] at hklt
        omega
    have hprefix : s.stretches.take k = s'.stretches.take k := by
      rw [hst', List.take_append_of_le_length hkinit]
      rcases hst with hst | ⟨hst, -⟩ <;> rw [hst]
      rw [List.take_append_of_le_length hkinit]
    have hstart : start s'.chunks k = start s.chunks k := by
      rw [chunks, chunks, start_append_left (by rw [List.length_map, hst']; simp; omega),
        start_append_left (by rw [List.length_map]; omega), start, start, ← List.map_take,
        ← List.map_take, hprefix, hsame]
    by_cases hkl : k < init.length
    · refine ⟨k, st, ?_, hfrom, hto, by rw [hstart]⟩
      rw [hst', List.getElem?_append_left hkl]
      rcases hst with hst | ⟨hst, -⟩ <;> rw [hst] at hk
      · exact hk
      · rwa [List.getElem?_append_left hkl] at hk
    · obtain rfl : k = init.length := by omega
      rcases hst with hst | ⟨hst, hnm⟩
      · rw [hst] at hklt
        omega
      · rw [hst, List.getElem?_concat_length] at hk
        cases hk
        refine ⟨init.length, (at_, m), by rw [hst', List.getElem?_concat_length], hfrom, ?_, by
          rw [hstart]⟩
        dsimp only at hto ⊢
        omega

theorem landed_mapOne (s : Store) (r : Record) (base : List UInt8) (at_ n m pos : Nat) :
    Landed (s.addStretch base (at_, n))
      ((s.mapOne r.op.byte r.id r.payload.length r.frame.length pos at_).addStretch base (at_, m))
      r (.file (at_ + pos) (r.payload.length % 2 ^ 32)) := by
  unfold mapOne addStretch
  cases hop : r.op with
  | put => exact ⟨by simp [opPut, Op.byte, hop], by simp [opPut, Op.byte],
      by simp [opPut, Op.byte, hop], by simp [opPut, Op.byte, hop], by simp [opPut, Op.byte]⟩
  | del => exact ⟨by simp [opPut, opDel, Op.byte, hop], by simp [opPut, opDel, Op.byte],
      by simp [opPut, opDel, Op.byte, hop], by simp [opPut, opDel, Op.byte, hop],
      by simp [opPut, opDel, Op.byte]⟩

theorem mapOne_rest (s : Store) (op : UInt8) (id len frameLen pos at_ : Nat) :
    (s.mapOne op id len frameLen pos at_).base = s.base ∧
      (s.mapOne op id len frameLen pos at_).segments = s.segments := by
  unfold mapOne
  split
  · exact ⟨rfl, rfl⟩
  · split <;> exact ⟨rfl, rfl⟩

/-- An empty stretch holds nothing more. -/
theorem Holds.addStretch (h : Holds s filed held) (hempty : held.flatten = [])
    (hbase : (s.base.elim base fun b => b.1) = base) (hat : at_ ≤ base.length) :
    Holds (s.addStretch base (at_, 0)) (filed ++ [[]]) held := by
  have hlog : (filed ++ [[]]).flatten ++ held.flatten = filed.flatten ++ held.flatten := by simp
  have hfile := file_addStretch hbase (at_, 0)
  refine ⟨?_, h.segs, h.some_segment, h.good, fun id => ?_, ?_, ?_⟩
  · rw [stretches_addStretch, hfile]
    refine List.rel_append ?_ (.cons ⟨by simpa using hat, by simp⟩ .nil)
    by_cases hne : s.stretches = []
    · have hf := h.files
      rw [hne] at hf ⊢
      cases hf
      exact .nil
    · rw [← file_eq hbase hne]
      exact h.files
  · rw [hlog]
    have hp := h.points id
    show Option.Rel _ (s.index.get id) _
    cases hget : s.index.get id <;>
      cases hspot : (tally (filed.flatten ++ held.flatten)).spot id <;> rw [hget, hspot] at hp
    · exact .none
    · cases hp
    · cases hp
    · cases hp with
      | some hrel =>
        refine .some ⟨hrel.1, ?_⟩
        refine lies_addStretch h hempty (n := 0) (fun hne => ?_)
          (stretches_addStretch s base (at_, 0)) (.inl rfl) hrel.2
        rw [hfile, file_eq hbase hne]
  · rw [hlog]
    exact h.total
  · rw [hlog]
    exact h.dead

/-- A record more in the last stretch. -/
theorem Holds.fileOne {s₁ s₂ : Store} {done : List Record} {r : Record}
    (h : Holds (s₁.addStretch base (at_, (bytes done).length)) (filed ++ [done]) held)
    (hempty : held.flatten = []) (hbase : (s₁.base.elim base fun b => b.1) = base)
    (hb : s₂.base = s₁.base) (hsegs : s₂.segments = s₁.segments)
    (hlanded : Landed (s₁.addStretch base (at_, (bytes done).length))
      (s₂.addStretch base (at_, (bytes (done ++ [r])).length)) r
      (.file (at_ + ((bytes done).length + r.header.length)) (r.payload.length % 2 ^ 32)))
    (hin : at_ + (bytes (done ++ [r])).length ≤ base.length)
    (hrec : (base.drop at_).take (bytes (done ++ [r])).length = bytes (done ++ [r])) :
    Holds (s₂.addStretch base (at_, (bytes (done ++ [r])).length)) (filed ++ [done ++ [r]]) held := by
  have hbase₂ : (s₂.base.elim base fun b => b.1) = base := by rw [hb]; exact hbase
  have hst : (s₂.addStretch base (at_, (bytes (done ++ [r])).length)).stretches =
      s₁.stretches ++ [(at_, (bytes (done ++ [r])).length)] := by
    rw [stretches_addStretch, stretches, hb, stretches]
  have hdoneLen : (bytes (done ++ [r])).length = (bytes done).length + r.frame.length := by
    rw [bytes_append, bytes_singleton, List.length_append]
  have hframe := r.length_frame
  have hlies : ∀ l p, (s₁.addStretch base (at_, (bytes done).length)).Lies l p →
      (s₂.addStretch base (at_, (bytes (done ++ [r])).length)).Lies l p := by
    intro l p hl
    refine lies_addStretch h hempty (fun _ => ?_) hst
      (.inr ⟨stretches_addStretch s₁ base _, by omega⟩) hl
    rw [file_addStretch hbase₂, file_addStretch hbase]
  have hfiles := h.files
  rw [stretches_addStretch, file_addStretch hbase] at hfiles
  obtain ⟨filed₁, log₁, heq, hinit, -⟩ := forall₂_concat_left hfiles
  obtain ⟨rfl, -⟩ := List.append_inj' heq rfl
  have hsegs' : (s₂.addStretch base (at_, (bytes (done ++ [r])).length)).segments =
      (s₁.addStretch base (at_, (bytes done).length)).segments := hsegs
  refine h.land hlanded (by simp [hempty]) ?_ (by rw [hsegs']; exact h.segs)
    (by rw [hsegs']; exact h.some_segment) hlies fun _ => ⟨Nat.mod_eq_of_lt r.short, ?_⟩
  · rw [hst, file_addStretch hbase₂]
    exact List.rel_append hinit (.cons ⟨hin, hrec⟩ .nil)
  · -- past the records before it and its header
    have hstart : start (s₂.addStretch base (at_, (bytes (done ++ [r])).length)).chunks
        s₁.stretches.length = (bytes filed.flatten).length := by
      rw [chunks, hst, file_addStretch hbase₂, List.map_append, List.append_assoc,
        start_append_left (by simp), start_of_le (by simp),
        map_eq_of_forall₂ (hinit.imp fun _ _ hab => hab.2), bytes_flatten]
    have hshort := Nat.mod_eq_of_lt r.short
    refine ⟨s₁.stretches.length, (at_, (bytes (done ++ [r])).length), ?_, ?_, ?_, ?_⟩
    · rw [hst, List.getElem?_concat_length]
    · have hhead := r.header_pos
      dsimp only
      omega
    · dsimp only
      omega
    · rw [hstart, h.total, tally_len, hempty]
      simp only [List.flatten_append, bytes_append, List.length_append, List.flatten_singleton,
        bytes_nil, List.length_nil]
      omega

/-- **`replay_mapped` of a log's bytes files the log.**  The segments hold nothing yet, so that
what is filed comes after everything the store held. -/
theorem Holds.replayMapped (h : Holds s filed held) (hempty : held.flatten = [])
    (hbase : (s.base.elim base fun b => b.1) = base) {log : List Record}
    (hin : at_ + (bytes log).length ≤ base.length)
    (hrec : (base.drop at_).take (bytes log).length = bytes log)
    (hlen : (bytes log).length < 2 ^ 63) :
    ∃ s', s.replayMapped base at_ (bytes log).length = (.ok log.length, s') ∧
      Holds s' (filed ++ [log]) held ∧ s'.nextId = nextAfter s.nextId log ∧
      s'.segments = s.segments := by
  have h₀ := h.addStretch hempty hbase (show at_ ≤ base.length by omega)
  obtain ⟨s', hwalk, hholds, -, hsegs', hnext'⟩ := walkFrames_log
    (fun s op id len start pos => s.mapOne op id len (pos + len - start) pos at_) hlen
    -- the store there would be if the record ended here
    (fun s₁ done => Holds (s₁.addStretch base (at_, (bytes done).length)) (filed ++ [done]) held ∧
      s₁.base = s.base ∧ s₁.segments = s.segments ∧ s₁.nextId = nextAfter s.nextId done)
    (fun s₁ done r rest hlog hI => by
      obtain ⟨hholds, hb₁, hsegs₁, hnext₁⟩ := hI
      have hframeLen : (bytes done).length + r.header.length + r.payload.length -
          (bytes done).length = r.frame.length := by
        rw [r.length_frame, Nat.add_assoc, Nat.add_sub_cancel_left]
      have hprefix : bytes log = bytes (done ++ [r]) ++ bytes rest := by
        rw [hlog, ← bytes_append]
        simp
      have hwhole := congrArg List.length hprefix
      rw [List.length_append] at hwhole
      have hcut := congrArg (List.take (bytes (done ++ [r])).length) hrec
      rw [List.take_take, Nat.min_eq_left (by omega), hprefix, List.take_left] at hcut
      obtain ⟨hb₂, hsegs₂⟩ := mapOne_rest s₁ r.op.byte r.id r.payload.length
        r.frame.length ((bytes done).length + r.header.length) at_
      have hlanded := landed_mapOne s₁ r base at_ (bytes done).length
        (bytes (done ++ [r])).length ((bytes done).length + r.header.length)
      rw [hframeLen]
      refine ⟨hholds.fileOne hempty (by rw [hb₁]; exact hbase) hb₂ hsegs₂ hlanded (by omega) hcut,
        hb₂.trans hb₁, hsegs₂.trans hsegs₁, ?_⟩
      rw [nextAfter_concat, ← hnext₁]
      exact hlanded.next) (s := s) ⟨h₀, rfl, rfl, rfl⟩
  refine ⟨s'.addStretch base (at_, (bytes log).length), ?_, hholds, hnext', hsegs'⟩
  rw [Store.replayMapped, if_neg (by omega)]
  dsimp only
  rw [hrec, hwalk]

end Mapped

/-! ## 5. Compacting -/

/-- The documents of `ids`, each read where it is and appended to `fresh`. -/
def copyLive (s : Store) : List DocId → Store → Result Store
  | [], fresh => .ok fresh
  | id :: ids, fresh =>
    match s.index.get id with
    | some loc => do
      let payload ← s.payload loc
      copyLive s ids (fresh.append opPut id payload)
    -- the index's own ids: `unwrap`
    | none => .error (.corrupt "an id of the index is not in it")

/-- **`Store::compacted`.** -/
def compacted (s : Store) : Result Store :=
  s.copyLive s.index.ids { new with nextId := s.nextId, dropped := s.dropped }

section Compacting

variable {s : Store} {filed held : List (List Record)}

theorem stored_latest {log : List Record} {id : DocId} {r : Record} (h : latest log id = some r) :
    stored log id = some r.payload := by
  rw [stored, h]
  rfl

/-- The copies are the last records of their ids. -/
theorem Holds.copyLive_eq (h : Holds s filed held) {ids : List DocId} : ∀ {fresh : Store},
    (∀ id ∈ ids, id ∈ s.index.ids) →
    s.copyLive ids fresh =
      .ok (fresh.appendAll (ids.filterMap (latest (filed.flatten ++ held.flatten)))) := by
  induction ids with
  | nil => exact fun _ => rfl
  | cons id ids ih =>
    intro fresh hids
    obtain ⟨l, hl⟩ := h.good.mem_ids.mp (hids id (List.mem_cons_self ..))
    have hraw := h.raw_eq id
    rw [raw, hl] at hraw
    dsimp only at hraw
    obtain ⟨r, hr⟩ : ∃ r, latest (filed.flatten ++ held.flatten) id = some r := by
      cases hlatest : latest (filed.flatten ++ held.flatten) id with
      | some r => exact ⟨r, rfl⟩
      | none =>
        have hmem := (h.mem_ids id).mp (hids id (List.mem_cons_self ..))
        rw [stored, hlatest] at hmem
        cases hmem
    obtain ⟨-, hid, hop⟩ := latest_some hr
    rw [stored_latest hr] at hraw
    have hpayload : s.payload l = .ok r.payload := by
      cases hp : s.payload l with
      | error e =>
        rw [hp] at hraw
        cases hraw
      | ok payload =>
        rw [hp] at hraw
        cases hraw
        rfl
    rw [copyLive, hl]
    dsimp only
    rw [hpayload, Result.ok_bind, ih fun j hj => hids j (List.mem_cons_of_mem _ hj),
      List.filterMap_cons_some hr]
    have hbyte : r.op.byte = opPut := by rw [hop]; rfl
    rw [Store.appendAll, Store.appendAll, List.foldl_cons, hbyte, hid]

/-- Puts of distinct ids supersede nothing. -/
theorem tally_puts {log : List Record} (hput : ∀ r ∈ log, r.op = .put)
    (hids : (log.map (·.id)).Nodup) :
    (tally log).dead = 0 ∧ ∀ id, latest log id = log.find? fun r => r.id == id := by
  induction log using List.reverseRecOn with
  | nil => exact ⟨rfl, fun _ => rfl⟩
  | append_singleton log r ih =>
    rw [List.map_append, List.nodup_append] at hids
    obtain ⟨hdead, hfind⟩ := ih (fun r hr => hput r (List.mem_append_left _ hr)) hids.1
    have hop := hput r (by simp)
    have hnone : log.find? (fun r' => r'.id == r.id) = none := by
      rw [List.find?_eq_none]
      intro r' hr' heq
      exact hids.2.2 r'.id (List.mem_map_of_mem hr') r.id (by simp) (eq_of_beq heq)
    have hspot : (tally log).spot r.id = none := by
      have hst := tally_stored log r.id
      rw [stored, hfind, hnone] at hst
      exact Option.map_eq_none_iff.mp hst
    refine ⟨?_, fun id => ?_⟩
    · rw [tally_concat, Tally.add]
      dsimp only
      rw [hdead, hspot, if_pos hop]
      rfl
    · rw [latest_concat, hfind, List.find?_append]
      by_cases hid : id = r.id
      · subst hid
        rw [if_pos rfl, if_pos hop, hnone]
        simp
      · have hne : (r.id == id) = false := beq_eq_false_iff_ne.mpr (Ne.symm hid)
        rw [if_neg hid]
        simp [hne]

/-- Ids that are not past the next one leave it where it is. -/
theorem nextAfter_of_lt {n : Nat} {log : List Record} (h : ∀ r ∈ log, r.id < n) :
    nextAfter n log = n := by
  induction log using List.reverseRecOn with
  | nil => rfl
  | append_singleton log r ih =>
    rw [nextAfter_concat, ih fun r hr => h r (List.mem_append_left _ hr), if_neg]
    have := h r (by simp)
    omega

/-- **Compacting keeps every document and nothing else.** -/
theorem Holds.compacted_eq (h : Holds s filed held) : ∃ c held', s.compacted = .ok c ∧
    Holds c [] held' ∧ (∀ id, stored held'.flatten id = stored (filed.flatten ++ held.flatten) id) ∧
    c.deadBytes = 0 ∧ c.dropped = s.dropped ∧
    ((∀ id ∈ s.ids, id < s.nextId) → c.nextId = s.nextId) := by
  let live := s.index.ids.filterMap (latest (filed.flatten ++ held.flatten))
  have hlive : ∀ r ∈ live, r.op = .put ∧ r.id ∈ s.index.ids ∧
      latest (filed.flatten ++ held.flatten) r.id = some r := by
    intro r hr
    obtain ⟨id, hid, hlatest⟩ := List.mem_filterMap.mp hr
    obtain ⟨-, rfl, hop⟩ := latest_some hlatest
    exact ⟨hop, hid, hlatest⟩
  have hnodup : (live.map (·.id)).Nodup := by
    have hsub : (live.map (·.id)).Sublist s.index.ids := by
      have hgo : ∀ ids : List DocId,
          ((ids.filterMap (latest (filed.flatten ++ held.flatten))).map (·.id)).Sublist ids := by
        intro ids
        induction ids with
        | nil => exact List.Sublist.refl _
        | cons id ids ih =>
          cases hl : latest (filed.flatten ++ held.flatten) id with
          | none =>
            rw [List.filterMap_cons_none hl]
            exact ih.cons id
          | some r =>
            obtain ⟨-, rfl, -⟩ := latest_some hl
            rw [List.filterMap_cons_some hl]
            exact ih.cons_cons _
      exact hgo _
    exact h.good.ids_nodup.sublist hsub
  obtain ⟨hdead, hfind⟩ := tally_puts (fun r hr => (hlive r hr).1) hnodup
  have hfresh : Holds { new with nextId := s.nextId, dropped := s.dropped } [] [[]] :=
    ⟨holds_new.files, holds_new.segs, holds_new.some_segment, holds_new.good, holds_new.points,
      holds_new.total, holds_new.dead⟩
  obtain ⟨held', hholds, hflat⟩ := hfresh.appendAll live
  have hflat' : held'.flatten = live := by simpa using hflat
  refine ⟨_, held', h.copyLive_eq fun _ hid => hid, hholds, fun id => ?_, ?_, ?_, fun hlt => ?_⟩
  · rw [hflat', stored, hfind]
    cases hl : latest (filed.flatten ++ held.flatten) id with
    | none =>
      have hnone : live.find? (fun r => r.id == id) = none := by
        rw [List.find?_eq_none]
        intro r hr heq
        have := (hlive r hr).2.2
        rw [eq_of_beq heq, hl] at this
        cases this
      rw [hnone, stored, hl]
    | some r =>
      obtain ⟨-, hid, -⟩ := latest_some hl
      have hin : id ∈ s.index.ids := by
        refine (h.mem_ids id).mpr ?_
        rw [stored_latest hl]
        rfl
      have hmem : r ∈ live := List.mem_filterMap.mpr ⟨id, hin, hl⟩
      have hfound : live.find? (fun r => r.id == id) = some r := by
        cases hf : live.find? (fun r => r.id == id) with
        | none =>
          have := List.find?_eq_none.mp hf r hmem
          simp [hid] at this
        | some r' =>
          have hr' := (hlive r' (List.mem_of_find?_eq_some hf)).2.2
          have hid' : r'.id = id := by simpa using List.find?_some hf
          rw [hid', hl] at hr'
          rw [Option.some.inj hr']
      rw [hfound, stored_latest hl]
      rfl
  · show (Store.appendAll _ live).deadBytes = 0
    rw [hholds.dead, hflat', List.flatten_nil, List.nil_append, hdead]
  · have hdrop : ∀ (t : Store) (log : List Record), (t.appendAll log).dropped = t.dropped := by
      intro t log
      induction log using List.reverseRecOn with
      | nil => rfl
      | append_singleton log r ih => rw [appendAll_concat, (landed_append _ r).dropped, ih]
    exact hdrop _ live
  · show (Store.appendAll _ live).nextId = s.nextId
    rw [nextId_appendAll]
    exact nextAfter_of_lt fun r hr => hlt r.id (hlive r hr).2.1

end Compacting

/-! ## 6. A map with a replayable log -/

/-- Two stores that answer alike. -/
structure Alike (s t : Store) : Prop where
  raw : ∀ id, t.raw id = s.raw id
  ids : t.ids = s.ids
  len : t.len = s.len

/-- **The log is all there is to a store.** -/
theorem Holds.alike {s t : Store} {filed held filed' held' : List (List Record)}
    (hs : Holds s filed held) (ht : Holds t filed' held')
    (h : ∀ id, stored (filed'.flatten ++ held'.flatten) id =
      stored (filed.flatten ++ held.flatten) id) : Alike s t := by
  obtain ⟨hids, hcount⟩ := ht.good.ids_eq hs.good fun id => by
    rw [show id ∈ t.index.ids ↔ _ from ht.mem_ids id, show id ∈ s.index.ids ↔ _ from hs.mem_ids id,
      h]
  exact ⟨fun id => by rw [ht.raw_eq, hs.raw_eq, h], hids, hcount⟩

/-- **The segment store is a map with a replayable log.**  After any appends, `raw` is what the
last record of an id put, `ids` are the ids that have one, ascending, and `len` is their number; an
image replayed into a fresh store, or walked where it stands in a mapped file, gives the same
store; and compacting keeps every document and drops every dead byte.  The next id is one above
the greatest put, where that is a `u64`.  No vector or mapped file is `2 ^ 63` bytes long. -/
theorem store_is_a_map (log : List Record) :
    (∀ id, (new.appendAll log).raw id = .ok (stored log id)) ∧
    (∀ id, id ∈ (new.appendAll log).ids ↔ (stored log id).isSome = true) ∧
    (new.appendAll log).ids.Pairwise (· < ·) ∧
    (new.appendAll log).len = (new.appendAll log).ids.length ∧
    ((new.appendAll log).image.length < 2 ^ 63 →
      ∃ t, new.replay (new.appendAll log).image = (.ok log.length, t) ∧
      Alike (new.appendAll log) t ∧ t.totalBytes = (new.appendAll log).totalBytes ∧
      t.deadBytes = (new.appendAll log).deadBytes ∧
      ((∀ r ∈ log, r.op = .put → r.id ≠ 2 ^ 64 - 1) → t.nextId = topPut log + 1)) ∧
    (∀ (base : List UInt8) (at_ : Nat),
      (base.drop at_).take (new.appendAll log).image.length = (new.appendAll log).image →
      at_ + (new.appendAll log).image.length ≤ base.length → base.length < 2 ^ 63 →
      ∃ t, new.replayMapped base at_ (new.appendAll log).image.length = (.ok log.length, t) ∧
        Alike (new.appendAll log) t ∧ t.totalBytes = (new.appendAll log).totalBytes ∧
        t.deadBytes = (new.appendAll log).deadBytes ∧
        ((∀ r ∈ log, r.op = .put → r.id ≠ 2 ^ 64 - 1) → t.nextId = topPut log + 1)) ∧
    ∃ c, (new.appendAll log).compacted = .ok c ∧ Alike (new.appendAll log) c ∧ c.deadBytes = 0 ∧
      ((∀ r ∈ log, r.op = .put → r.id ≠ 2 ^ 64 - 1) → c.nextId = (new.appendAll log).nextId) := by
  obtain ⟨held, h, hflat⟩ := holds_new.appendAll log
  have hlog : ([] : List (List Record)).flatten ++ held.flatten = log := by simpa using hflat
  have himage : (new.appendAll log).image = bytes log := by rw [h.image_eq, hlog]
  have hraw := h.raw_eq
  have hmem := h.mem_ids
  rw [hlog] at hraw hmem
  refine ⟨hraw, hmem, h.good.ids_ascending, h.good.counted, ?_, ?_, ?_⟩
  · intro hlen
    rw [himage] at hlen ⊢
    rw [replay_eq new hlen]
    refine ⟨_, rfl, ⟨fun _ => rfl, rfl, rfl⟩, rfl, rfl, fun hid => ?_⟩
    rw [nextId_appendAll]
    exact nextAfter_eq hid
  · intro base at_ hrec hin hbase
    rw [himage] at hrec hin ⊢
    have hlen : (bytes log).length < 2 ^ 63 := by omega
    obtain ⟨t, ht, htholds, hnext, -⟩ := holds_new.replayMapped rfl rfl hin hrec hlen
    have hlog' : ([] ++ [log] : List (List Record)).flatten ++ [([] : List Record)].flatten = log := by
      simp
    refine ⟨t, ht, h.alike htholds fun id => by rw [hlog, hlog'], ?_, ?_, fun hid => ?_⟩
    · rw [htholds.total, h.total, hlog, hlog']
    · rw [htholds.dead, h.dead, hlog, hlog']
    · rw [hnext]
      exact nextAfter_eq hid
  · obtain ⟨c, held', hc, hholds, hstored, hdead, -, hnext⟩ := h.compacted_eq
    refine ⟨c, hc, h.alike hholds hstored, hdead, fun hid => hnext fun id hin => ?_⟩
    -- every id there is was put, and is below the next
    obtain ⟨payload, hp⟩ := Option.isSome_iff_exists.mp ((hmem id).mp hin)
    obtain ⟨r, hr, -⟩ := Option.map_eq_some_iff.mp hp
    obtain ⟨hrmem, rfl, hop⟩ := latest_some hr
    rw [nextId_appendAll, show new.nextId = 1 from rfl, nextAfter_eq hid]
    exact Nat.lt_succ_of_le (le_topPut hrmem hop)

/-- A put of the greatest `u64`, which no statement can ask for: `id` is a positive `i64`. -/
def putLast : Record where
  op := .put
  id := 2 ^ 64 - 1
  payload := [7]
  id_pos := by decide
  id_lt := by decide
  short := by decide

/-- The counter wraps past the greatest `u64`. -/
theorem next_id_wraps :
    (new.replay (new.appendAll [putLast]).image).1 = .ok 1 ∧
    (new.replay (new.appendAll [putLast]).image).2.nextId = 0 ∧
    (new.replay (new.appendAll [putLast]).image).2.nextId ≠ topPut [putLast] + 1 := by
  decide +kernel

end Store

end Segments

end Fenec
