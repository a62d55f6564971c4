/-
# Reachable stores

A store is reached from an empty one by appends, by opening the records of a file, by handovers, by
blocks put back, by moving its image or its live documents into a new file, and by compacting.
Every one of these leaves a store that can be read, whose image is a log's bytes and which answers
as that log does (`Logged`, `Reached.logged`).

On that rest the two results about moves of a store: a handover changes where its documents are
read from and nothing else (`handed_over`), and a block put back leaves the store there was before
it (`put_back`).
-/
import Fenec.Segments.Orderly

namespace Fenec

open Lib Reader Codec Chunks

namespace Segments

namespace Store

/-! ## 1. The log of a store -/

/-- **A store that can be read, its image a log's bytes, and what that log says.**  The records are
`ok`, and where that leaves out the greatest id of all the next id is above every id put. -/
structure Logged (ok : Record → Prop) (s : Store) (held : List (List Record)) (log : List Record) :
    Prop where
  fit : Fit s held
  orderly : Orderly s
  image : s.image = bytes log
  raw : ∀ id, s.raw id = .ok (stored log id)
  total : s.totalBytes = (tally log).len
  dead : s.deadBytes = (tally log).dead
  all : ∀ r ∈ log, ok r
  next : (∀ r, ok r → r.op = .put → r.id ≠ 2 ^ 64 - 1) →
    ∀ r ∈ log, r.op = .put → r.id < s.nextId

theorem logged_new (ok : Record → Prop) : Logged ok new [[]] [] where
  fit := fit_new
  orderly := orderly_new
  image := rfl
  raw id := raw_none (IdIndex.get_empty id)
  total := rfl
  dead := rfl
  all r hr := by cases hr
  next _ r hr := by cases hr

section Steps

variable {ok : Record → Prop} {s t : Store} {held held' : List (List Record)} {log : List Record}

/-- What a log says of the bytes an id takes. -/
theorem tally_superseded (log : List Record) (id : DocId) :
    ((tally log).spot id).elim 0 (fun pn => pn.2) = (stored log id).elim 0 List.length := by
  rw [← tally_stored]
  cases hspot : (tally log).spot id with
  | none => rfl
  | some pn =>
    have hin := tally_within log hspot
    rw [Option.map_some, Option.elim_some, Option.elim_some, List.length_take, List.length_drop]
    omega

/-- **An append is one record more.** -/
theorem Logged.append (h : Logged ok s held log) {r : Record} (hr : ok r) :
    ∃ held', Logged ok (s.append r.op.byte r.id r.payload) held' (log ++ [r]) := by
  obtain ⟨held', hfit, -⟩ := h.fit.append r
  have hlanded := landed_append s r
  refine ⟨held', hfit, h.orderly.append h.fit.good r, ?_, fun id => ?_, ?_, ?_, ?_, ?_⟩
  · rw [h.fit.image_append, h.image, bytes_append, bytes_singleton]
  · rw [h.fit.raw_append, h.raw, stored_concat]
    split <;> rfl
  · rw [hlanded.total, h.total, tally_concat]
    rfl
  · rw [hlanded.dead, h.dead, h.fit.superseded r.id (h.raw r.id), tally_concat, Tally.add,
      tally_superseded]
  · intro q hq
    rcases List.mem_append.mp hq with hq | hq
    · exact h.all q hq
    · rw [List.mem_singleton.mp hq]
      exact hr
  · intro hlow q hq hop
    have hlt := r.id_lt
    rw [hlanded.next]
    rcases List.mem_append.mp hq with hq | hq
    · have hbelow := h.next hlow q hq hop
      split
      · next hnew =>
        have hne := hlow r hr hnew.1
        rw [Nat.mod_eq_of_lt (by omega)]
        omega
      · exact hbelow
    · rw [List.mem_singleton] at hq
      subst hq
      have hne := hlow q hr hop
      split
      · rw [Nat.mod_eq_of_lt (by omega)]
        omega
      · next hnew => exact Nat.lt_of_not_le fun hle => hnew ⟨hop, hle⟩

theorem Logged.appendAll (h : Logged ok s held log) {more : List Record} (hmore : ∀ r ∈ more, ok r) :
    ∃ held', Logged ok (s.appendAll more) held' (log ++ more) := by
  induction more using List.reverseRecOn with
  | nil => exact ⟨held, by rw [List.append_nil]; exact h⟩
  | append_singleton more r ih =>
    obtain ⟨held₁, h₁⟩ := ih fun q hq => hmore q (List.mem_append_left _ hq)
    obtain ⟨held₂, h₂⟩ := h₁.append (hmore r (by simp))
    rw [appendAll_concat]
    exact ⟨held₂, by rw [← List.append_assoc]; exact h₂⟩

/-- A store nothing tells apart from it has the same log. -/
theorem Logged.same (h : Logged ok s held log) (hsame : Same s t) (hfit : Fit t held')
    (ho : Orderly t) : Logged ok t held' log where
  fit := hfit
  orderly := ho
  image := hsame.image.trans h.image
  raw id := (hsame.raw id).trans (h.raw id)
  total := hsame.total.trans h.total
  dead := hsame.dead.trans h.dead
  all := h.all
  next hlow r hr hop := by
    rw [hsame.next]
    exact h.next hlow r hr hop

/-- Another counter above every id put, and another list of dropped places. -/
theorem Logged.counted (h : Logged ok s held log) {n : Nat}
    (hn : (∀ r, ok r → r.op = .put → r.id ≠ 2 ^ 64 - 1) → ∀ r ∈ log, r.op = .put → r.id < n)
    (dropped : List Nat) : Logged ok { s with nextId := n, dropped := dropped } held log where
  fit := ⟨h.fit.files, h.fit.segs, h.fit.some_segment, h.fit.low, h.fit.good, fun id l hl => by
    have hp := h.fit.points id l hl
    cases l with
    | held seg off len => exact hp
    | file at_ len => exact hp⟩
  orderly := ⟨h.orderly.ascending, h.orderly.inside⟩
  image := h.image
  raw := h.raw
  total := h.total
  dead := h.dead
  all := h.all
  next := hn

end Steps

/-! ## 2. Live documents -/

section Live

variable {ok : Record → Prop} {s : Store} {held : List (List Record)} {log live : List Record}

/-- Live puts are the last records of their ids. -/
theorem Logged.live_latest (h : Logged ok s held log)
    (hlive : List.Forall₂ (IsLive s) s.index.pairs live) {r : Record} (hr : r ∈ live) :
    r.op = .put ∧ latest log r.id = some r := by
  obtain ⟨e, he, hop, hid, hp, -⟩ : ∃ e, e ∈ s.index.pairs ∧ IsLive s e r := by
    obtain ⟨k, hk, hget⟩ := List.mem_iff_getElem.mp hr
    have hk' : k < s.index.pairs.length := by rw [hlive.length_eq]; exact hk
    have hrel := hlive.get hk' hk
    rw [List.get_eq_getElem, List.get_eq_getElem, hget] at hrel
    exact ⟨_, List.getElem_mem hk', hrel⟩
  have hl := h.fit.good.toPlaced.mem_pairs.mp he
  have hraw := h.raw e.1
  rw [Store.raw, hl] at hraw
  dsimp only at hraw
  rw [hp] at hraw
  have hstored : stored log e.1 = some r.payload := (Except.ok.inj hraw).symm
  rw [stored, Option.map_eq_some_iff] at hstored
  obtain ⟨q, hq, hpayload⟩ := hstored
  obtain ⟨-, hqid, hqop⟩ := latest_some hq
  refine ⟨hop, ?_⟩
  rw [hid, hq, Record.ext' (hqop.trans hop.symm) (hqid.trans hid.symm) hpayload]

theorem map_ids_live {es : List (DocId × Loc)} (hlive : List.Forall₂ (IsLive s) es live) :
    live.map (·.id) = es.map (·.1) := by
  induction hlive with
  | nil => rfl
  | cons hr _ ih => rw [List.map_cons, List.map_cons, ih, hr.2.1]

/-- **The live documents are what the log stores.** -/
theorem Logged.stored_live (h : Logged ok s held log)
    (hlive : List.Forall₂ (IsLive s) s.index.pairs live) :
    (tally live).dead = 0 ∧ ∀ id, stored live id = stored log id := by
  have hids : live.map (·.id) = s.index.ids := (map_ids_live hlive).trans (IdIndex.map_pairs _)
  have hput : ∀ r ∈ live, r.op = .put := fun r hr => (h.live_latest hlive hr).1
  have hnodup : (live.map (·.id)).Nodup := by
    rw [hids]
    exact h.fit.good.ids_nodup
  obtain ⟨hdead, hfind⟩ := tally_puts hput hnodup
  refine ⟨hdead, fun id => ?_⟩
  rw [stored, hfind]
  cases hf : live.find? fun r => r.id == id with
  | some r =>
    have hid : r.id = id := by simpa using List.find?_some hf
    have hlast := (h.live_latest hlive (List.mem_of_find?_eq_some hf)).2
    rw [hid] at hlast
    rw [stored, hlast]
  | none =>
    -- an id with no live put has no document
    have hout : id ∉ s.index.ids := by
      rw [← hids]
      intro hmem
      obtain ⟨r, hr, hid⟩ := List.mem_map.mp hmem
      exact List.find?_eq_none.mp hf r hr (by simp [hid])
    have hnone : s.index.get id = none := by
      cases hl : s.index.get id with
      | none => rfl
      | some l => exact absurd (h.fit.good.toPlaced.mem_ids.mpr ⟨l, hl⟩) hout
    have hraw := (raw_none hnone).symm.trans (h.raw id)
    rw [Except.ok.injEq] at hraw
    exact hraw

/-- **Moved into a file of what is live, a store is that log's.** -/
theorem Logged.relocatedLive (h : Logged ok s held log)
    (hlive : List.Forall₂ (IsLive s) s.index.pairs live) {base : List UInt8} {at_ : Nat}
    (hin : at_ + (bytes live).length ≤ base.length)
    (hrec : (base.drop at_).take (bytes live).length = bytes live) :
    Logged ok (s.relocateLive base at_) [[]] live := by
  obtain ⟨hfit, halike, ho, himage, htotal, hdead⟩ := h.fit.relocated_live hlive hin hrec
  obtain ⟨hzero, hstored⟩ := h.stored_live hlive
  have hmem : ∀ r ∈ live, r ∈ log := fun r hr => (latest_some (h.live_latest hlive hr).2).1
  refine ⟨hfit, ho, himage, fun id => ?_, by rw [htotal, tally_len], by rw [hdead, hzero],
    fun r hr => h.all r (hmem r hr), fun hlow r hr hop => h.next hlow r (hmem r hr) hop⟩
  rw [halike.raw, h.raw, hstored]

/-- The copies a compacting store makes are its live puts. -/
theorem copyLive_live {es : List (DocId × Loc)}
    (hlive : List.Forall₂ (IsLive s) es live) : ∀ {fresh : Store},
      (∀ e ∈ es, s.index.get e.1 = some e.2) →
      s.copyLive (es.map (·.1)) fresh = .ok (fresh.appendAll live) := by
  induction hlive with
  | nil => exact fun _ => rfl
  | @cons e r es live hr _ ih =>
    intro fresh hes
    obtain ⟨hop, hid, hp, -⟩ := hr
    rw [List.map_cons, copyLive, hes e (List.mem_cons_self ..)]
    dsimp only
    rw [hp, Result.ok_bind, ih fun e he => hes e (List.mem_cons_of_mem _ he)]
    have hbyte : r.op.byte = opPut := by rw [hop]; rfl
    rw [Store.appendAll, Store.appendAll, List.foldl_cons, hbyte, hid]

/-- **Compacting leaves the live puts.** -/
theorem Logged.compacted (h : Logged ok s held log) {c : Store} (hc : s.compacted = .ok c) :
    ∃ held' live, Logged ok c held' live := by
  obtain ⟨live, hlive⟩ := h.fit.live
  rw [Store.compacted, ← IdIndex.map_pairs,
    copyLive_live hlive fun e he => h.fit.good.toPlaced.mem_pairs.mp he] at hc
  have hall : ∀ r ∈ live, ok r :=
    fun r hr => h.all r (latest_some (h.live_latest hlive hr).2).1
  have hfresh : Logged ok { new with nextId := s.nextId, dropped := s.dropped } [[]] [] :=
    (logged_new ok).counted (fun _ r hr => by cases hr) s.dropped
  obtain ⟨held', hl⟩ := hfresh.appendAll hall
  cases hc
  exact ⟨held', live, hl⟩

end Live

/-! ## 3. Opening a file -/

/-- **A file opened**: its records replayed where they are, one past another. -/
inductive Opened (base : List UInt8) : Store → List (List Record) → Prop
  | new : Opened base .new []
  | record {s : Store} {filed : List (List Record)} {at_ : Nat} {log : List Record} :
      Opened base s filed → (∀ st ∈ s.stretches, st.1 + st.2 ≤ at_) →
      at_ + (bytes log).length ≤ base.length →
      (base.drop at_).take (bytes log).length = bytes log → (bytes log).length < 2 ^ 63 →
      Opened base (s.replayMapped base at_ (bytes log).length).2 (filed ++ [log])

section Opening

variable {ok : Record → Prop} {s : Store} {base : List UInt8} {filed held : List (List Record)}

/-- What is mapped stays mapped. -/
theorem base_replayMapped {at_ : Nat} {log : List Record} {n : Nat} {s' : Store}
    (hbase : (s.base.elim base fun b => b.1) = base)
    (h : s.replayMapped base at_ (bytes log).length = (.ok n, s')) :
    ∃ len, s'.base = some (base, s.stretches ++ [(at_, len)]) := by
  have hrest : ∀ (buf : List UInt8) (fuel pos : Nat) (s₁ : Store) (n : Nat), s₁.base = s.base →
      (walkFrames buf (fun s op id len start pos => s.mapOne op id len (pos + len - start) pos at_)
        fuel pos s₁ n).2.1.base = s.base := by
    intro buf fuel
    induction fuel with
    | zero => exact fun _ _ _ h => h
    | succ fuel ih =>
      intro pos s₁ n hs₁
      rw [walkFrames]
      split
      · split
        · exact hs₁
        · split
          · exact hs₁
          · split
            · exact hs₁
            · exact ih _ _ _ ((mapOne_rest s₁ _ _ _ _ _ _).1.trans hs₁)
      · exact hs₁
  rw [replayMapped] at h
  split at h
  · cases h
  · dsimp only at h
    split at h
    · cases h
    · next s₁ pos hwalk =>
      cases h
      have hb := hrest ((base.drop at_).take (bytes log).length)
        ((base.drop at_).take (bytes log).length).length 0 s 0 rfl
      rw [hwalk] at hb
      dsimp only at hb
      refine ⟨pos, ?_⟩
      rw [addStretch]
      dsimp only
      rw [stretches, hb, hbase]
      rfl

/-- **A file opened holds its records.** -/
theorem Opened.holds (h : Opened base s filed) :
    ∃ held, Holds s filed held ∧ held.flatten = [] ∧ Ascends s.stretches ∧
      (s.base.elim base fun b => b.1) = base ∧ s.nextId = nextAfter 1 filed.flatten := by
  induction h with
  | new => exact ⟨[[]], holds_new, rfl, List.Pairwise.nil, rfl, rfl⟩
  | @record s filed at_ log _ hpast hin hrec hlen ih =>
    obtain ⟨held, hholds, hnone, hasc, hbase, hnext⟩ := ih
    obtain ⟨s', heq, hholds', hnext', -⟩ := hholds.replayMapped hnone hbase hin hrec hlen
    obtain ⟨n, hb⟩ := base_replayMapped hbase heq
    rw [heq]
    refine ⟨held, hholds', hnone, ?_, by rw [hb]; rfl, ?_⟩
    · rw [stretches, hb]
      refine List.pairwise_append.mpr ⟨hasc, List.pairwise_singleton _ _, fun a ha b hb => ?_⟩
      rw [List.mem_singleton] at hb
      rw [hb]
      exact hpast a ha
    · rw [hnext', hnext, List.flatten_append, nextAfter, nextAfter, nextAfter, List.foldl_append]
      simp

/-- A log's documents have ids of its records. -/
theorem tally_id_lt (log : List Record) {id : DocId} {pn : Nat × Nat}
    (h : (tally log).spot id = some pn) : id < 2 ^ 64 := by
  have hstored := tally_stored log id
  rw [h, Option.map_some] at hstored
  obtain ⟨r, hr, -⟩ := Option.map_eq_some_iff.mp hstored.symm
  obtain ⟨-, rfl, -⟩ := latest_some hr
  exact r.id_lt

/-- Above every id a log puts, where none is the greatest of all. -/
theorem lt_nextAfter {log : List Record} (h : ∀ r ∈ log, r.op = .put → r.id ≠ 2 ^ 64 - 1)
    {r : Record} (hr : r ∈ log) (hop : r.op = .put) : r.id < nextAfter 1 log := by
  rw [nextAfter_eq h]
  exact Nat.lt_succ_of_le (le_topPut hr hop)

/-- **A store that holds a log, all of it in the file, is that log's.** -/
theorem Holds.logged (h : Holds s filed held) (hnone : held.flatten = [])
    (hasc : Ascends s.stretches) (hall : ∀ r ∈ filed.flatten, ok r)
    (hnext : s.nextId = nextAfter 1 filed.flatten) : Logged ok s held filed.flatten := by
  have hlog : filed.flatten ++ held.flatten = filed.flatten := by rw [hnone, List.append_nil]
  have hraw := h.raw_eq
  have himage := h.image_eq
  have htotal := h.total
  have hdead := h.dead
  rw [hlog] at hraw himage htotal hdead
  -- nothing lies in a segment
  have hlies : ∀ id l, s.index.get id = some l → ∃ at_ len, l = .file at_ len ∧
      Inside s.stretches at_ len ∧ id < 2 ^ 64 ∧ len < 2 ^ 32 := by
    intro id l hl
    have hp := h.points id
    rw [hl] at hp
    cases hspot : (tally (filed.flatten ++ held.flatten)).spot id with
    | none =>
      rw [hspot] at hp
      cases hp
    | some pn =>
      rw [hspot] at hp
      obtain ⟨hlen, hlies⟩ : pn.2 = l.len ∧ s.Lies l pn.1 := by
        cases hp with
        | some hrel => exact hrel
      cases l with
      | held seg off len =>
        obtain ⟨g, hg, hoff, hle, -⟩ := hlies
        rw [h.segment_empty hnone hg, List.length_nil] at hle
        omega
      | file at_ len =>
        obtain ⟨k, st, hst, hfrom, hto, -⟩ := hlies
        have hshort : pn.2 < 2 ^ 32 := tally_length _ hspot
        rw [hlen] at hshort
        exact ⟨at_, len, rfl, ⟨st, List.mem_of_getElem? hst, hfrom, hto⟩, tally_id_lt _ hspot,
          hshort⟩
  have hfiles : ∀ st ∈ s.stretches, st.1 + st.2 ≤ s.file.length := by
    intro st hst
    obtain ⟨k, hk, hget⟩ := List.mem_iff_getElem.mp hst
    have hrel := h.files.get hk (h.files.length_eq ▸ hk)
    rw [List.get_eq_getElem, hget] at hrel
    exact hrel.1
  refine ⟨⟨hfiles, h.segs, h.some_segment, ?_, h.good, fun id l hl => ?_⟩, ⟨hasc, ?_⟩, himage, hraw,
    htotal, hdead, hall, fun hlow r hr hop => ?_⟩
  · intro log hmem pre r post heq
    rw [List.flatten_eq_nil_iff.mp hnone log hmem] at heq
    simp at heq
  · obtain ⟨at_, len, rfl, hin, hid, hlen⟩ := hlies id l hl
    obtain ⟨st, hst, -, hto⟩ := hin
    have hsome : s.base.isSome = true := by
      cases hb : s.base with
      | some b => rfl
      | none => simp [stretches, hb] at hst
    exact ⟨hsome, Nat.le_trans hto (hfiles st hst), hid, hlen⟩
  · intro id at_ len hl
    obtain ⟨at', len', heq, hin, -⟩ := hlies id _ hl
    cases heq
    exact hin
  · rw [hnext]
    exact lt_nextAfter (fun q hq hop => hlow q (hall q hq) hop) hr hop

end Opening

/-! ## 4. Reachable stores -/

/-- **The stores there are**, all their records `ok`.  A file's records are opened and handed over
in its order; of a block put back that spilled, only the first spill is followed (`put_back` says
why), and no document of the store it goes back to is empty. -/
inductive Reached (ok : Record → Prop) : Store → Prop
  | opened {base : List UInt8} {s : Store} {filed : List (List Record)} :
      Opened base s filed → (∀ r ∈ filed.flatten, ok r) → Reached ok s
  | append {s : Store} (r : Record) :
      Reached ok s → ok r → Reached ok (s.append r.op.byte r.id r.payload)
  | handOver {s : Store} {base : List UInt8} {landed : List (Nat × Nat)}
      {logs : List (List Record)} (keep : Nat) : Reached ok s → s.file <+: base →
      Holding base landed logs → bytes logs.flatten = (s.segments.map (·.data)).flatten →
      Past s.stretches landed → Reached ok (s.handOverKeeping base landed keep).2
  | refused {s : Store} {base : List UInt8} {landed : List (Nat × Nat)} (keep : Nat) :
      Reached ok s → s.file <+: base → (s.handOverKeeping base landed keep).1 = none →
      Reached ok (s.handOverKeeping base landed keep).2
  | undone {s : Store} {n : Nat} {b : Block} : Reached ok s → (∀ id, s.raw id ≠ .ok (some [])) →
      Block.Ran (fun n b landed => n = 0 ∧ Past b.store.stretches landed) s n b → Reached ok b.undo
  | relocateImage {s : Store} {base : List UInt8} {at_ : Nat} : Reached ok s →
      at_ + s.image.length ≤ base.length → (base.drop at_).take s.image.length = s.image →
      Reached ok (s.relocateImage base at_)
  | relocateLive {s : Store} {base live : List UInt8} {at_ : Nat} : Reached ok s →
      s.writeLive = .ok live → at_ + live.length ≤ base.length →
      (base.drop at_).take live.length = live → Reached ok (s.relocateLive base at_)
  | compacted {s c : Store} : Reached ok s → s.compacted = .ok c → Reached ok c
  | counted {s : Store} (n : Nat) (dropped : List Nat) :
      Reached ok s → Reached ok { s with nextId := max s.nextId n, dropped := dropped }

section Reaching

variable {ok : Record → Prop} {s : Store} {held : List (List Record)} {log : List Record}
  {base : List UInt8} {landed : List (Nat × Nat)}

/-- The logs of runs that hold what the segments do. -/
theorem Fit.held_logs (h : Fit s held) {logs : List (List Record)}
    (hbytes : bytes logs.flatten = (s.segments.map (·.data)).flatten) :
    logs.flatten = held.flatten := by
  refine bytes_injective ?_
  rw [hbytes, map_eq_of_forall₂ h.segs, bytes_flatten]

/-- A handover leaves the log. -/
theorem Logged.handedOver (h : Logged ok s held log) {logs : List (List Record)}
    (hfurther : s.file <+: base) (hholding : Holding base landed logs)
    (hbytes : bytes logs.flatten = (s.segments.map (·.data)).flatten)
    (hpast : Past s.stretches landed) (keep : Nat) :
    ∃ held', Logged ok (s.handOverKeeping base landed keep).2 held' log := by
  have hlogs := h.fit.held_logs hbytes
  obtain ⟨moved, kept, t, held', heq, hfit, hsame, -⟩ :=
    h.fit.handed hfurther hholding hlogs keep
  obtain ⟨pieces, hspots, hall⟩ := pieces_of_holding hholding hlogs
  have ho : Orderly t := by
    by_cases hne : landed = []
    · subst hne
      cases hholding
      rw [handOverKeeping, h.fit.landedPlaces_of_pieces hspots.fits hall] at heq
      cases heq
      have hst := (remap_fields hfurther).1
      refine ⟨hst.symm ▸ h.orderly.ascending, fun id at_ len hl => ?_⟩
      rw [hst]
      exact h.orderly.inside id at_ len hl
    · rw [h.fit.handOverKeeping_eq hfurther hspots hall hne keep] at heq
      cases heq
      exact h.orderly.handed h.fit hspots hall hpast keep
  rw [heq]
  exact ⟨held', h.same hsame hfit ho⟩

/-- So does one that is refused. -/
theorem Logged.refused (h : Logged ok s held log) (hfurther : s.file <+: base) (keep : Nat)
    (hnone : (s.handOverKeeping base landed keep).1 = none) :
    Logged ok (s.handOverKeeping base landed keep).2 held log := by
  have heq : (s.handOverKeeping base landed keep).2 = s.remap base := by
    rw [handOverKeeping] at hnone ⊢
    cases hm : s.landedPlaces landed with
    | none => rfl
    | some moved =>
      rw [hm] at hnone
      dsimp only at hnone
      split at hnone <;> cases hnone
  have hst := (remap_fields hfurther).1
  rw [heq]
  refine h.same (h.fit.same_remap hfurther) (h.fit.remap hfurther) ⟨?_, fun id at_ len hl => ?_⟩
  · rw [hst]
    exact h.orderly.ascending
  · rw [hst]
    exact h.orderly.inside id at_ len hl

/-- A block put back does too. -/
theorem Logged.undone (h : Logged ok s held log) (hdocs : ∀ id, s.raw id ≠ .ok (some [])) {n : Nat}
    {b : Block}
    (hran : Block.Ran (fun n b landed => n = 0 ∧ Past b.store.stretches landed) s n b) :
    ∃ held', Logged ok b.undo held' log := by
  have ho := h.orderly.undone h.fit hdocs hran
  obtain ⟨held', hfit, hsame⟩ : ∃ held', Fit b.undo held' ∧ Same s b.undo := h.fit.undone hran
  exact ⟨held', h.same hsame hfit ho⟩

/-- **Every reachable store is a log's.** -/
theorem Reached.logged (h : Reached ok s) : ∃ held log, Logged ok s held log := by
  induction h with
  | opened ho hall =>
    obtain ⟨held, hholds, hnone, hasc, -, hnext⟩ := ho.holds
    exact ⟨held, _, hholds.logged hnone hasc hall hnext⟩
  | append r _ hr ih =>
    obtain ⟨held, log, hl⟩ := ih
    obtain ⟨held', hl'⟩ := hl.append hr
    exact ⟨held', _, hl'⟩
  | handOver keep _ hfurther hholding hbytes hpast ih =>
    obtain ⟨held, log, hl⟩ := ih
    obtain ⟨held', hl'⟩ := hl.handedOver hfurther hholding hbytes hpast keep
    exact ⟨held', _, hl'⟩
  | refused keep _ hfurther hnone ih =>
    obtain ⟨held, log, hl⟩ := ih
    exact ⟨held, log, hl.refused hfurther keep hnone⟩
  | undone _ hdocs hran ih =>
    obtain ⟨held, log, hl⟩ := ih
    obtain ⟨held', hl'⟩ := hl.undone hdocs hran
    exact ⟨held', log, hl'⟩
  | relocateImage _ hin hrec ih =>
    obtain ⟨held, log, hl⟩ := ih
    obtain ⟨hfit, hsame, ho⟩ := hl.fit.relocated hl.orderly hin hrec
    exact ⟨[[]], log, hl.same hsame hfit ho⟩
  | relocateLive _ hwrite hin hrec ih =>
    obtain ⟨held, log, hl⟩ := ih
    obtain ⟨live, hlive⟩ := hl.fit.live
    rw [hl.fit.writeLive_eq hlive] at hwrite
    cases hwrite
    exact ⟨[[]], live, hl.relocatedLive hlive hin hrec⟩
  | compacted _ hc ih =>
    obtain ⟨held, log, hl⟩ := ih
    exact hl.compacted hc
  | counted n dropped _ ih =>
    obtain ⟨held, log, hl⟩ := ih
    exact ⟨held, log, hl.counted (fun hlow r hr hop =>
      Nat.lt_of_lt_of_le (hl.next hlow r hr hop) (Nat.le_max_left _ n)) dropped⟩

end Reaching

/-! ## 5. A handover moves nothing -/

/-- **A handover changes where documents are read from and nothing else.**  The file is the one the
store reads from, mapped further.  Where the runs' places hold what the segments do, cut between
frames, the store is taken over; where the runs are not so long, nothing moves.  A remembered
location of a segment is then the payload's place in the file, but for one at the very end of what
was held: it is of no bytes, and left as it was. -/
theorem handed_over {s : Store} (h : Reached (fun _ => True) s) {base : List UInt8}
    (hfurther : s.file <+: base) (landed : List (Nat × Nat)) :
    ((∃ logs, Holding base landed logs ∧
        bytes logs.flatten = (s.segments.map (·.data)).flatten) →
      (s.handOver base landed).1 = true ∧
      (∀ g ∈ (s.handOver base landed).2.segments, g.data = []) ∧
      Same s (s.handOver base landed).2 ∧
      ∀ keep moved kept, (s.handOverKeeping base landed keep).1 = some (moved, kept) →
        ∀ seg g pre r post, s.segments[seg]? = some g → g.data = bytes (pre ++ r :: post) →
          ((s.segments.take seg).map (·.data.length)).sum + ((bytes pre).length + r.header.length) <
            (s.segments.map (·.data.length)).sum →
          InFile base (moved.loc (.held seg ((bytes pre).length + r.header.length)
            r.payload.length)) r.payload) ∧
    ((¬ ∃ logs : List (List Record), landed.map (·.1) = logs.map (fun log => (bytes log).length) ∧
        bytes logs.flatten = (s.segments.map (·.data)).flatten) →
      (s.handOver base landed).1 = false ∧
      (s.handOver base landed).2.segments = s.segments ∧
      Same s (s.handOver base landed).2) := by
  obtain ⟨held, log, hlogged⟩ := h.logged
  have hfit := hlogged.fit
  constructor
  · rintro ⟨logs, hholding, hbytes⟩
    have hlogs := hfit.held_logs hbytes
    obtain ⟨moved, kept, t, -, heq, -, hsame, hempty⟩ := hfit.handed hfurther hholding hlogs 0
    have hover : s.handOver base landed = (true, t) := by
      rw [handOver, heq]
      rfl
    rw [hover]
    refine ⟨rfl, hempty, hsame, fun keep moved kept hmoved seg g pre r post hg hdata hend => ?_⟩
    obtain ⟨pieces, hspots, hall⟩ := pieces_of_holding hholding hlogs
    -- what moved is told by the runs
    have hruns : moved = ⟨startsFrom 0 s.segments, landed⟩ := by
      rw [handOverKeeping, hfit.landedPlaces_of_pieces hspots.fits hall] at hmoved
      dsimp only at hmoved
      split at hmoved
      · next hnil =>
        cases hmoved
        rw [hnil]
        rfl
      · cases hmoved
        rfl
    obtain ⟨hlt, hget⟩ := List.getElem?_eq_some_iff.mp hg
    have hlt' : seg < held.length := by
      rw [← hfit.segs.length_eq]
      exact hlt
    have hrel := hfit.segs.get hlt hlt'
    rw [List.get_eq_getElem, hget, hdata] at hrel
    have hheld : held[seg]? = some (pre ++ r :: post) := by
      rw [List.getElem?_eq_getElem hlt', bytes_injective hrel]
      rfl
    have hbefore : ((s.segments.take seg).map (·.data.length)).sum =
        (bytes (held.take seg).flatten).length := by
      have hsum : (s.segments.take seg).map (fun g => g.data.length) =
          (held.take seg).map fun log => (bytes log).length :=
        map_eq_of_forall₂ ((List.forall₂_take seg hfit.segs).imp fun g log hg => by rw [hg])
      rw [hsum, bytes_flatten, List.length_flatten, List.map_map]
      rfl
    rw [hbefore, hfit.held_length] at hend
    rw [hruns]
    exact hfit.moved_loc hspots hall hheld hend
  · intro hcut
    have heq : s.handOverKeeping base landed 0 = (none, s.remap base) :=
      hfit.refused (by
        rintro ⟨logs, hlens, hlogs⟩
        exact hcut ⟨logs, hlens, by rw [hlogs, map_eq_of_forall₂ hfit.segs, bytes_flatten]⟩) 0
    have hover : s.handOver base landed = (false, s.remap base) := by
      rw [handOver, heq]
      rfl
    rw [hover]
    exact ⟨rfl, rfl, hfit.same_remap hfurther⟩

theorem one_pos_id : 1 ≤ 1 := by decide

theorem one_lt_ids : 1 < 2 ^ 64 := by decide

theorem two_pos_id : 1 ≤ 2 := by decide

theorem two_lt_ids : 2 < 2 ^ 64 := by decide

theorem seven_short : ([7] : List UInt8).length < 2 ^ 32 := by decide

theorem eight_short : ([8] : List UInt8).length < 2 ^ 32 := by decide

/-- A document of one byte, put under id one. -/
def putOne : Record := ⟨.put, 1, [7], one_pos_id, one_lt_ids, seven_short⟩

/-- Another, under id two. -/
def putTwo : Record := ⟨.put, 2, [8], two_pos_id, two_lt_ids, eight_short⟩

/-- A store with the first. -/
def withOne : Store := new.append putOne.op.byte putOne.id putOne.payload

theorem reached_new (ok : Record → Prop) : Reached ok new := by
  refine .opened (Opened.new : Opened [] new []) fun r hr => ?_
  cases hr

theorem reached_withOne : Reached (fun _ => True) withOne :=
  .append putOne (reached_new _) trivial

theorem handed_over_one : (withOne.handOver putOne.frame [(4, 0)]).1 = true :=
  ((handed_over reached_withOne (List.nil_prefix) [(4, 0)]).1
    ⟨[[putOne]], .cons ⟨rfl, by decide, rfl⟩ .nil, rfl⟩).1

/-- **Over a file that is not the one mapped, a document reads as something else**, though the
segments hold nothing and the runs are none. -/
theorem handed_to_another_file :
    Reached (fun _ => True) (withOne.handOverKeeping putOne.frame [(4, 0)] 0).2 ∧
      Holding [0, 0, 0, 0] [] [] ∧ bytes ([] : List (List Record)).flatten =
        ((withOne.handOverKeeping putOne.frame [(4, 0)] 0).2.segments.map (·.data)).flatten ∧
      (withOne.handOverKeeping putOne.frame [(4, 0)] 0).2.raw 1 = .ok (some [7]) ∧
      ((withOne.handOverKeeping putOne.frame [(4, 0)] 0).2.handOver [0, 0, 0, 0] []).2.raw 1 =
        .ok (some [0]) := by
  have hholding : Holding putOne.frame [(4, 0)] [[putOne]] := .cons ⟨rfl, by decide, rfl⟩ .nil
  have hpast : Past withOne.stretches [(4, 0)] := List.pairwise_singleton _ _
  exact ⟨.handOver 0 reached_withOne List.nil_prefix hholding rfl hpast, .nil, rfl, rfl, rfl⟩

/-! ## 6. A block put back -/

/-- **A block put back leaves the store there was before it**, now and for whatever is written to
it later, where it spilled at most once. -/
theorem put_back {s : Store} (h : Reached (fun _ => True) s) {n : Nat} {b : Block}
    (hran : Block.Ran (fun n _ _ => n = 0) s n b) : Restored s b.undo := by
  obtain ⟨held, log, hlogged⟩ := h.logged
  have hran' : Block.Ran (fun n b landed => n = 0 ∧ (fun _ _ _ => True) n b landed) s n b :=
    ran_imp (fun n b landed hn => ⟨hn, trivial⟩) hran
  obtain ⟨held', hfit, hsame⟩ := hlogged.fit.undone hran'
  exact hsame.restored hlogged.fit hfit

/-- Spilled, where the runs are taken. -/
def spilledTo (b : Block) (base : List UInt8) (landed : List (Nat × Nat)) (keep : Nat) : Block :=
  (b.spill base landed keep).getD b

/-- The second document written, the block spilled, and the first written over. -/
theorem put_back_one : Restored withOne ((spilledTo ((Block.start withOne).write putTwo)
    (putOne.frame ++ putTwo.frame) [(4, 0), (4, 4)] 1).write putOne).undo := by
  have hspills : Block.Spills ((Block.start withOne).write putTwo) (putOne.frame ++ putTwo.frame)
      [(4, 0), (4, 4)] 1 :=
    ⟨List.nil_prefix, ⟨[[putOne], [putTwo]], .cons ⟨rfl, by decide, rfl⟩
      (.cons ⟨rfl, by decide, rfl⟩ .nil), rfl⟩, rfl, (4, 4), rfl, by decide⟩
  exact put_back reached_withOne (.write putOne (.spill (.write putTwo .start) rfl hspills rfl))

/-- A block that wrote one document and spilled. -/
def spilledOnce : Block := spilledTo ((Block.start new).write putOne) putOne.frame [(4, 0)] 0

/-- And another, and spilled again. -/
def spilledAgain : Block :=
  spilledTo (spilledOnce.write putTwo) (putOne.frame ++ putTwo.frame) [(4, 4)] 0

/-- **Spilled twice, what a block wrote before the second spill is still in the image**: the second
mark keeps the stretch of the first spill, which is of the block. -/
theorem spilled_twice : Reached (fun _ => True) new ∧
    Block.Ran (fun _ _ _ => True) new 2 spilledAgain ∧
    spilledAgain.undo.image = putOne.frame ∧ new.image = [] := by
  have hone : Block.Spills ((Block.start new).write putOne) putOne.frame [(4, 0)] 0 :=
    ⟨List.nil_prefix, ⟨[[putOne]], .cons ⟨rfl, by decide, rfl⟩ .nil, rfl⟩, rfl, (4, 0), rfl,
      by decide⟩
  have htwo : Block.Spills (spilledOnce.write putTwo) (putOne.frame ++ putTwo.frame) [(4, 4)] 0 :=
    ⟨⟨putTwo.frame, rfl⟩, ⟨[[putTwo]], .cons ⟨rfl, by decide, rfl⟩ .nil, rfl⟩, rfl, (4, 4), rfl,
      by decide⟩
  refine ⟨reached_new _, ?_, rfl, rfl⟩
  exact .spill (.write putTwo (.spill (.write putOne .start) trivial hone rfl)) trivial htwo rfl

end Store

end Segments

end Fenec
