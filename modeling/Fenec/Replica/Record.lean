/-
# What the history and the file agree on

The invariant of a sync over its file, and that each thing a sync does keeps it.

`Filed` is about the history and the file, whether a sync runs or not: the queue of the file is the
writes made and not closed, in the order they were made, with the changes of their statements
beside them, and every request that was put out met `Sends` when it was.  `Live` is about the sync
that runs: what it holds of the queue, and which request is under way.

A sync moves by what it appends to its history, so the lemmas are about one more deed: §3 about
deeds that say nothing of a write, §4 about a request that sends one, §5 about an answer, §6 about
a write made.

* §1 is deeds and histories, §2 the invariant.
-/
import Fenec.Replica.World

namespace Fenec.Replica

open Fenec.Lib Sync

/-! ## 1. Deeds -/

/-- A deed that changes nothing of which writes are made, answered, closed or sent. -/
def Deed.idle : Deed → Bool
  | .started => true
  | .act (.request r) => r.made.isNone
  | .act _ => true
  | _ => false

/-- A deed that neither answers a write nor tells of a refusal. -/
def Deed.mute : Deed → Bool
  | .answered .. => false
  | .act (.refused ..) => false
  | _ => true

/-- An action that sends no write and tells of no refusal. -/
def Deed.quiet : Deed → Bool
  | .act (.request r) => r.made.isNone
  | .act (.refused ..) => false
  | .act _ => true
  | _ => false

namespace Deed

variable {d : Deed}

theorem idle_of_quiet (h : d.quiet) : d.idle := by
  cases d with
  | act a => cases a <;> first | rfl | exact h
  | _ => cases h

theorem mute_of_quiet (h : d.quiet) : d.mute := by
  cases d with
  | act a => cases a <;> first | rfl | exact h
  | _ => cases h

theorem settles_of_mute (h : d.mute) (k : Nat) : d.settles k = false := by
  cases d with
  | answered _ _ _ => cases h
  | _ => rfl

theorem refuses_of_mute (h : d.mute) (k : Nat) : d.refuses k = false := by
  cases d with
  | answered _ _ _ => cases h
  | _ => rfl

theorem tells_of_mute (h : d.mute) (k : Nat) : d.tells k = false := by
  cases d with
  | act a => cases a <;> first | rfl | cases h
  | _ => rfl

end Deed

section Past

variable {past rest : List Deed} {d : Deed} {k : Nat}

theorem writes_append (p q : List Deed) : writes (p ++ q) = writes p ++ writes q :=
  List.filterMap_append ..

theorem writes_idle (h : d.idle) : writes [d] = [] := by
  cases d with
  | made op => cases h
  | _ => rfl

theorem inFlight_note : inFlight (past ++ [d]) = flights (inFlight past) d := by
  simp [inFlight]

theorem answered_append : Answered (past ++ rest) k ↔ Answered past k ∨ Answered rest k := by
  simp [Answered, or_and_right, exists_or]

theorem answered_singleton : Answered [d] k ↔ d.settles k := by
  simp [Answered]

theorem Answered.append (h : Answered past k) : Answered (past ++ rest) k :=
  answered_append.mpr (.inl h)

theorem closed_append : Closed (past ++ rest) k ↔ Closed past k ∨ Closed rest k := by
  simp [Closed, exists_or]

theorem not_closed_idle (h : d.idle) : ¬ Closed [d] k := by
  rintro ⟨v, hv⟩
  rw [← List.mem_singleton.mp hv] at h
  cases h

/-- A history with one more deed, split at a deed: the new one, or one of before. -/
theorem split_note {before after : List Deed} {x : Deed}
    (h : past ++ [d] = before ++ x :: after) :
    (before = past ∧ x = d) ∨ ∃ after', past = before ++ x :: after' := by
  rcases List.eq_nil_or_concat after with rfl | ⟨after', y, rfl⟩
  · obtain ⟨hp, hd⟩ := List.append_inj' h rfl
    exact .inl ⟨hp.symm, (List.cons.inj hd).1.symm⟩
  · rw [List.concat_eq_append, ← List.cons_append, ← List.append_assoc] at h
    exact .inr ⟨after', (List.append_inj' h rfl).1⟩

end Past

/-! ## 2. The invariant -/

/-- One before another in the queue: made earlier, under an earlier number. -/
def Op.before (a b : Op) : Prop := a.n < b.n ∧ a.made < b.made

/-- Every request that sent a write met `Sends` when it was put out. -/
def Sent (past : List Deed) : Prop :=
  ∀ before r k after, past = before ++ .act (.request r) :: after → r.made = some k →
    Sends before r k

/-- No answer to a write came once a definite one's block was in the file. -/
def Final (past : List Deed) : Prop :=
  ∀ before id k v after, past = before ++ .answered id k v :: after → ¬ Closed before k

/-- **What the history and the file agree on.** -/
structure Filed (past : List Deed) (f : Store) : Prop where
  numbered : ∀ k (op : Op), (writes past)[k]? = some op → op.made = k
  kept : ∀ op : Op, op ∈ f.queue ↔ op ∈ writes past ∧ ¬ Closed past op.made
  ordered : f.queue.Pairwise Op.before
  flight : (inFlight past).length ≤ 1
  known : ∀ k, Closed past k → k < (writes past).length
  closed : ∀ k, Closed past k → Answered past k
  sent : Sent past
  final : Final past
  /-- Each write made has the changes of all its statements in the file. -/
  applied : ∀ k, f.rows.count (.applied k) =
    ((writes past)[k]?.map fun op => op.undo.length).getD 0
  /-- A refused write has them put back, in the block its queue row left in. -/
  undone : ∀ k, f.rows.count (.undone k) =
    if .closed k .refused ∈ past then ((writes past)[k]?.map Op.undos).getD 0 else 0

/-- **What a sync that runs holds of the file's queue.** -/
structure Live (s : Sync) (f : Store) : Prop where
  queued : s.queue.Sublist f.queue
  /-- A write it holds no more has its answer. -/
  answered : ∀ op ∈ f.queue, op ∉ s.queue → Answered s.past op.made
  next : ∀ op ∈ f.queue, op.n < s.nextN
  flight : inFlight s.past = (s.sending.map (·.id)).toList
  sending : ∀ w ∈ s.sending, ∃ op ∈ s.queue, op.n = w.n ∧ op.made = w.made

/-- A file with the same queue and the same changes of writes. -/
structure Calm (f f' : Store) : Prop where
  queue : f'.queue = f.queue
  applied : ∀ k, f'.rows.count (.applied k) = f.rows.count (.applied k)
  undone : ∀ k, f'.rows.count (.undone k) = f.rows.count (.undone k)

theorem Calm.refl (f : Store) : Calm f f := ⟨rfl, fun _ => rfl, fun _ => rfl⟩

/-- Two writes of the file's queue are the same, or one is before the other. -/
theorem Filed.trichotomy {past : List Deed} {f : Store} (h : Filed past f) {a b : Op}
    (ha : a ∈ f.queue) (hb : b ∈ f.queue) : a = b ∨ a.before b ∨ b.before a := by
  have hord := h.ordered
  revert hord ha hb
  generalize f.queue = q
  induction q with
  | nil => exact fun ha => nomatch ha
  | cons c q ih =>
    intro ha hb hord
    obtain ⟨hc, hord⟩ := List.pairwise_cons.mp hord
    rcases List.mem_cons.mp ha with rfl | ha' <;> rcases List.mem_cons.mp hb with rfl | hb'
    · exact .inl rfl
    · exact .inr (.inl (hc b hb'))
    · exact .inr (.inr (hc a ha'))
    · exact ih ha' hb' hord

/-- The writes of the file's queue are told apart by their numbers. -/
theorem Filed.made_eq_iff {past : List Deed} {f : Store} (h : Filed past f) {a b : Op}
    (ha : a ∈ f.queue) (hb : b ∈ f.queue) : a.made = b.made ↔ a.n = b.n := by
  rcases h.trichotomy ha hb with rfl | ⟨hn, hm⟩ | ⟨hn, hm⟩
  · simp
  · omega
  · omega

/-! ## 3. Deeds that say nothing of a write -/

section Moves

variable {past : List Deed} {f f' : Store} {d : Deed}

theorem Sent.note (h : Sent past)
    (hd : ∀ r k, d = .act (.request r) → r.made = some k → Sends past r k) : Sent (past ++ [d]) := by
  intro before r k after hs hr
  rcases split_note hs with ⟨rfl, hx⟩ | ⟨after', hp⟩
  · exact hd r k hx.symm hr
  · exact h before r k after' hp hr

theorem Final.note (h : Final past) (hd : ∀ id k v, d = .answered id k v → ¬ Closed past k) :
    Final (past ++ [d]) := by
  intro before id k v after hs
  rcases split_note hs with ⟨rfl, hx⟩ | ⟨after', hp⟩
  · exact hd id k v hx.symm
  · exact h before id k v after' hp

/-- A file with the same queue and changes agrees with the same history. -/
theorem Filed.calm (h : Filed past f) (hf : Calm f f') : Filed past f' where
  numbered := h.numbered
  kept op := by rw [hf.queue]; exact h.kept op
  ordered := by rw [hf.queue]; exact h.ordered
  flight := h.flight
  known := h.known
  closed := h.closed
  sent := h.sent
  final := h.final
  applied k := (hf.applied k).trans (h.applied k)
  undone k := (hf.undone k).trans (h.undone k)

theorem flights_idle (ids : List Nat) (hd : d.idle) : flights ids d = ids ∨ flights ids d = [] := by
  cases d with
  | started => exact .inr rfl
  | act a =>
    cases a with
    | request r =>
      have hr : r.made.isSome = false := by simpa [Deed.idle] using hd
      exact .inl (by simp [flights, hr])
    | _ => exact .inl rfl
  | _ => cases hd

theorem flights_quiet (ids : List Nat) (hd : d.quiet) : flights ids d = ids := by
  cases d with
  | act a =>
    cases a with
    | request r =>
      have hr : r.made.isSome = false := by simpa [Deed.quiet] using hd
      simp [flights, hr]
    | _ => rfl
  | _ => cases hd

/-- A deed that says nothing of a write is neither an answer nor a closing nor a request for one. -/
theorem Filed.note (h : Filed past f) (hd : d.idle) : Filed (past ++ [d]) f := by
  have hw : writes (past ++ [d]) = writes past := by rw [writes_append, writes_idle hd]; simp
  have hcl : ∀ k, Closed (past ++ [d]) k ↔ Closed past k := fun k => by
    rw [closed_append]; simp [not_closed_idle hd]
  have hmem : ∀ k, .closed k .refused ∈ past ++ [d] ↔ .closed k .refused ∈ past := by
    intro k
    have hne : Deed.closed k .refused ≠ d := by rintro rfl; cases hd
    simp [hne]
  refine
    { numbered := by rw [hw]; exact h.numbered
      kept := fun op => by rw [hw, hcl]; exact h.kept op
      ordered := h.ordered
      flight := ?_
      known := fun k hk => by rw [hw]; exact h.known k ((hcl k).mp hk)
      closed := fun k hk => (h.closed k ((hcl k).mp hk)).append
      sent := h.sent.note ?_
      final := h.final.note ?_
      applied := by rw [hw]; exact h.applied
      undone := fun k => by simp only [hw, hmem]; exact h.undone k }
  · rw [inFlight_note]
    rcases flights_idle (inFlight past) hd with hf | hf <;> rw [hf]
    · exact h.flight
    · exact Nat.zero_le 1
  · rintro r k rfl hr
    simp [Deed.idle, hr] at hd
  · rintro id k v rfl
    cases hd

theorem Filed.note_all (h : Filed past f) :
    ∀ {ds : List Deed}, (∀ d ∈ ds, d.idle) → Filed (past ++ ds) f := by
  intro ds
  induction ds using List.reverseRecOn with
  | nil => intro _; rwa [List.append_nil]
  | append_singleton ds d ih =>
    intro hds
    rw [← List.append_assoc]
    exact (ih fun x hx => hds x (List.mem_append_left _ hx)).note
      (hds d (List.mem_append_right _ (List.mem_singleton_self d)))

theorem inFlight_quiet : ∀ {ds : List Deed}, (∀ d ∈ ds, d.quiet) →
    inFlight (past ++ ds) = inFlight past := by
  intro ds
  induction ds using List.reverseRecOn with
  | nil => intro _; rw [List.append_nil]
  | append_singleton ds d ih =>
    intro hds
    rw [← List.append_assoc, inFlight_note,
      flights_quiet _ (hds d (List.mem_append_right _ (List.mem_singleton_self d)))]
    exact ih fun x hx => hds x (List.mem_append_left _ hx)

end Moves

/-- **The invariant of a sync over its file.** -/
structure Inv (s : Sync) (f : Store) : Prop where
  filed : Filed s.past f
  live : Live s f

/-- A sync that differs in nothing a write depends on but actions put out, none of which sends a
write or tells of a refusal. -/
structure Quiet (s s' : Sync) : Prop where
  queue : s'.queue = s.queue
  nextN : s'.nextN = s.nextN
  sending : s'.sending = s.sending
  past : ∃ ds, s'.past = s.past ++ ds ∧ ∀ d ∈ ds, d.quiet

theorem Quiet.refl (s : Sync) : Quiet s s := ⟨rfl, rfl, rfl, [], by simp, by simp⟩

theorem Quiet.trans {a b c : Sync} (h : Quiet a b) (h' : Quiet b c) : Quiet a c := by
  obtain ⟨ds, hds, hq⟩ := h.past
  obtain ⟨es, hes, hq'⟩ := h'.past
  refine ⟨h'.queue.trans h.queue, h'.nextN.trans h.nextN, h'.sending.trans h.sending,
    ds ++ es, by rw [hes, hds, List.append_assoc], ?_⟩
  intro d hd
  rcases List.mem_append.mp hd with hd | hd
  · exact hq d hd
  · exact hq' d hd

section Invariant

variable {s s' : Sync} {f f' : Store}

theorem Inv.calm (h : Inv s f) (hs : Quiet s s') (hf : Calm f f') : Inv s' f' := by
  obtain ⟨ds, hds, hq⟩ := hs.past
  refine ⟨?_, ?_⟩
  · rw [hds]
    exact (h.filed.calm hf).note_all fun d hd => Deed.idle_of_quiet (hq d hd)
  · refine ⟨?_, ?_, ?_, ?_, ?_⟩
    · rw [hs.queue, hf.queue]
      exact h.live.queued
    · rw [hs.queue, hf.queue, hds]
      exact fun op hop hno => (h.live.answered op hop hno).append
    · rw [hs.nextN, hf.queue]
      exact h.live.next
    · rw [hs.sending, hds, inFlight_quiet hq]
      exact h.live.flight
    · rw [hs.sending, hs.queue]
      exact h.live.sending

theorem Inv.quiet (h : Inv s f) (hs : Quiet s s') : Inv s' f := h.calm hs (.refl f)

/-- A write the sync holds is one of the file's, made and not closed. -/
theorem Inv.holds (h : Inv s f) {op : Op} (hop : op ∈ s.queue) :
    op ∈ f.queue ∧ (writes s.past)[op.made]? = some op ∧ ¬ Closed s.past op.made := by
  have hf := h.live.queued.subset hop
  obtain ⟨hw, hc⟩ := (h.filed.kept op).mp hf
  obtain ⟨i, hi⟩ := List.mem_iff_getElem?.mp hw
  refine ⟨hf, ?_, hc⟩
  rw [h.filed.numbered i op hi]
  exact hi

/-- The file's queue, read into the sync. -/
theorem Inv.reload (h : Filed s.past f) (hp : s'.past = s.past) (hq : s'.queue = f.queue)
    (hn : ∀ op ∈ f.queue, op.n < s'.nextN)
    (hfl : inFlight s.past = (s'.sending.map (·.id)).toList)
    (hs : ∀ w ∈ s'.sending, ∃ op ∈ f.queue, op.n = w.n ∧ op.made = w.made) : Inv s' f where
  filed := by rwa [hp]
  live :=
    { queued := by rw [hq]
      answered := fun op hop hno => (hno (hq ▸ hop)).elim
      next := hn
      flight := by rw [hp, hfl]
      sending := by rw [hq]; exact hs }

/-! ## 4. A request that sends a write -/

/-- The first write of the queue may be sent: those made earlier have their answers. -/
theorem Inv.head_earlier (h : Inv s f) {op : Op} {q : List Op} (hq : s.queue = op :: q) :
    ∀ j < op.made, Answered s.past j := by
  intro j hj
  have hop : op ∈ s.queue := hq ▸ List.mem_cons_self ..
  obtain ⟨-, hw, -⟩ := h.holds hop
  have hlen : op.made < (writes s.past).length := (List.getElem?_eq_some_iff.mp hw).1
  obtain ⟨o, ho⟩ : ∃ o, (writes s.past)[j]? = some o :=
    ⟨_, List.getElem?_eq_getElem (hj.trans hlen)⟩
  have hoj := h.filed.numbered j o ho
  by_cases hc : Closed s.past j
  · exact h.filed.closed j hc
  · have hof : o ∈ f.queue :=
      (h.filed.kept o).mpr ⟨List.mem_of_getElem? ho, hoj.symm ▸ hc⟩
    rw [← hoj]
    refine h.live.answered o hof ?_
    -- the queue is in the order of the writes, and `op` is its first
    rw [hq]
    intro hmem
    have hord := h.filed.ordered.sublist h.live.queued
    rw [hq] at hord
    rcases List.mem_cons.mp hmem with rfl | hmem
    · omega
    · have := ((List.pairwise_cons.mp hord).1 o hmem).2
      omega

/-- **Sending the first write of the queue.** -/
theorem Inv.send (h : Inv s f) {op : Op} {q : List Op} (hq : s.queue = op :: q)
    (hnone : s.sending = none) {r : Request} (hr : r.made = some op.made)
    (hm : r.method = "POST") (hpath : r.path = op.path) (hbody : r.body = some op.body)
    (hkey : ("idempotency-key", op.key) ∈ r.headers) (hqueue : s'.queue = s.queue)
    (hn : s'.nextN = s.nextN) (hs : s'.sending = some ⟨r.id, op.n, op.made⟩)
    (hp : s'.past = s.past ++ [.act (.request r)]) : Inv s' f := by
  have hop : op ∈ s.queue := hq ▸ List.mem_cons_self ..
  obtain ⟨-, hw, hc⟩ := h.holds hop
  have hfl : inFlight (s.past ++ [.act (.request r)]) = [r.id] := by
    rw [inFlight_note, h.live.flight, hnone]
    simp [flights, hr]
  have hsends : Sends s.past r op.made :=
    ⟨⟨op, hw, hm, hpath, hbody, hkey⟩, h.head_earlier hq, hc⟩
  have hws : writes (s.past ++ [.act (.request r)]) = writes s.past := by
    rw [writes_append]
    simp [writes]
  have hcl : ∀ k, Closed (s.past ++ [.act (.request r)]) k ↔ Closed s.past k := by
    simp [Closed]
  constructor
  · rw [hp]
    refine
      { numbered := by rw [hws]; exact h.filed.numbered
        kept := fun o => by rw [hws, hcl]; exact h.filed.kept o
        ordered := h.filed.ordered
        flight := by rw [hfl]; exact Nat.le_refl 1
        known := fun k hk => by rw [hws]; exact h.filed.known k ((hcl k).mp hk)
        closed := fun k hk => (h.filed.closed k ((hcl k).mp hk)).append
        sent := h.filed.sent.note ?_
        final := h.filed.final.note ?_
        applied := by rw [hws]; exact h.filed.applied
        undone := fun k => by rw [hws]; simpa using h.filed.undone k }
    · intro r' k hr' hk
      obtain rfl : r = r' := by simpa using hr'
      obtain rfl : op.made = k := by rw [hr] at hk; exact Option.some.inj hk
      exact hsends
    · rintro id k v hv
      cases hv
  · refine
      { queued := by rw [hqueue]; exact h.live.queued
        answered := fun o ho hno => ?_
        next := by rw [hn]; exact h.live.next
        flight := by rw [hp, hfl, hs]; rfl
        sending := ?_ }
    · rw [hp]
      rw [hqueue] at hno
      exact (h.live.answered o ho hno).append
    · rw [hs, hqueue]
      intro w hw
      obtain rfl := Option.mem_some_iff.mp hw
      exact ⟨op, hop, rfl, rfl⟩

/-- Telling of a refusal. -/
theorem Inv.tell (h : Inv s f) (made status : Nat) (message label : String)
    (quota reason : Option String) :
    Inv (s.push (.refused made status message label quota reason)) f where
  filed := h.filed.note rfl
  live :=
    { queued := h.live.queued
      answered := fun op hop hno => (h.live.answered op hop hno).append
      next := h.live.next
      flight := inFlight_note.trans h.live.flight
      sending := h.live.sending }

/-! ## 5. An answer -/

/-- The answer to the request under way. -/
theorem Inv.answer (h : Inv s f) {w : Sending} {v : Verdict} (hw : s.sending = some w)
    (hqueue : s'.queue = s.queue) (hn : s'.nextN = s.nextN) (hs : s'.sending = none)
    (hp : s'.past = s.past ++ [.answered w.id w.made v]) : Inv s' f := by
  obtain ⟨op, hop, -, hmade⟩ := h.live.sending w hw
  obtain ⟨-, -, hc⟩ := h.holds hop
  have hfl : inFlight (s.past ++ [.answered w.id w.made v]) = [] := by
    rw [inFlight_note, h.live.flight, hw]
    simp [flights]
  have hws : writes (s.past ++ [.answered w.id w.made v]) = writes s.past := by
    rw [writes_append]
    simp [writes]
  have hcl : ∀ k, Closed (s.past ++ [.answered w.id w.made v]) k ↔ Closed s.past k := by
    simp [Closed]
  constructor
  · rw [hp]
    refine
      { numbered := by rw [hws]; exact h.filed.numbered
        kept := fun o => by rw [hws, hcl]; exact h.filed.kept o
        ordered := h.filed.ordered
        flight := by rw [hfl]; exact Nat.zero_le 1
        known := fun k hk => by rw [hws]; exact h.filed.known k ((hcl k).mp hk)
        closed := fun k hk => (h.filed.closed k ((hcl k).mp hk)).append
        sent := h.filed.sent.note fun r k hr => by cases hr
        final := h.filed.final.note ?_
        applied := by rw [hws]; exact h.filed.applied
        undone := fun k => by rw [hws]; simpa using h.filed.undone k }
    rintro id k v' hv
    cases hv
    exact hmade ▸ hc
  · refine
      { queued := by rw [hqueue]; exact h.live.queued
        answered := fun o ho hno => ?_
        next := by rw [hn]; exact h.live.next
        flight := by rw [hp, hfl, hs]; rfl
        sending := by rw [hs]; exact fun w hw => nomatch hw }
    rw [hp]
    rw [hqueue] at hno
    exact (h.live.answered o ho hno).append

/-- A queue without a write: its number is its own. -/
theorem Inv.mem_filter (h : Inv s f) {op o : Op} (hop : op ∈ f.queue) (ho : o ∈ f.queue) :
    o.n ≠ op.n ↔ o ≠ op := by
  constructor
  · rintro hn rfl
    exact hn rfl
  · intro hne hn
    have hm := (h.filed.made_eq_iff ho hop).mpr hn
    rcases h.filed.trichotomy ho hop with he | ⟨hlt, -⟩ | ⟨hlt, -⟩
    · exact hne he
    · omega
    · omega

/-- An answered write leaves what the sync holds. -/
theorem Inv.drop (h : Inv s f) {op : Op} (hop : op ∈ s.queue) (ha : Answered s.past op.made)
    (hnone : s.sending = none) :
    Inv { s with queue := s.queue.filter fun o => o.n ≠ op.n } f where
  filed := h.filed
  live :=
    { queued := List.filter_sublist.trans h.live.queued
      answered := by
        intro o ho hno
        by_cases hos : o ∈ s.queue
        · have hn : ¬ o.n ≠ op.n := fun hn => hno (List.mem_filter.mpr ⟨hos, by simpa using hn⟩)
          rw [h.mem_filter (h.live.queued.subset hop) ho, not_not] at hn
          exact hn ▸ ha
        · exact h.live.answered o ho hos
      next := h.live.next
      flight := h.live.flight
      sending := by
        change ∀ w ∈ s.sending, _
        rw [hnone]
        exact fun w hw => nomatch hw }

/-- **A definite answer's block**: the write's queue row leaves the file, and where it was refused
its changes are put back with it. -/
theorem Inv.close (h : Inv s f) {op : Op} {v : Verdict} (hop : op ∈ f.queue)
    (hno : op ∉ s.queue) (ha : Answered s.past op.made)
    (hq : f'.queue = f.queue.filter fun o => o.n ≠ op.n)
    (happ : ∀ k, f'.rows.count (.applied k) = f.rows.count (.applied k))
    (hund : ∀ k, f'.rows.count (.undone k) = f.rows.count (.undone k) +
      if k = op.made ∧ v = .refused then op.undos else 0) :
    Inv (s.note (.closed op.made v)) f' := by
  obtain ⟨hw, hc⟩ := (h.filed.kept op).mp hop
  obtain ⟨i, hi⟩ := List.mem_iff_getElem?.mp hw
  have hwop : (writes s.past)[op.made]? = some op := by
    rw [h.filed.numbered i op hi]
    exact hi
  have hws : writes (s.past ++ [.closed op.made v]) = writes s.past := by
    rw [writes_append]
    simp [writes]
  have hcl : ∀ k, Closed (s.past ++ [.closed op.made v]) k ↔ Closed s.past k ∨ k = op.made := by
    intro k
    rw [closed_append]
    simp [Closed]
  have hmem : ∀ o, o ∈ f'.queue ↔ o ∈ f.queue ∧ o.made ≠ op.made := by
    intro o
    rw [hq, List.mem_filter]
    refine and_congr_right fun ho => ?_
    simp [h.filed.made_eq_iff ho hop]
  have hfl : inFlight (s.past ++ [.closed op.made v]) = inFlight s.past := by
    rw [inFlight_note]
    rfl
  constructor
  · refine
      { numbered := by
          change ∀ k o, (writes (s.past ++ [.closed op.made v]))[k]? = some o → _
          rw [hws]; exact h.filed.numbered
        kept := fun o => ?_
        ordered := by rw [hq]; exact h.filed.ordered.filter _
        flight := hfl ▸ h.filed.flight
        known := fun k hk => ?_
        closed := fun k hk => ?_
        sent := h.filed.sent.note fun r k hr => by cases hr
        final := h.filed.final.note fun id k v hv => by cases hv
        applied := fun k => ?_
        undone := fun k => ?_ }
    · change _ ↔ o ∈ writes (s.past ++ [.closed op.made v]) ∧
        ¬ Closed (s.past ++ [.closed op.made v]) o.made
      rw [hmem, hws, hcl, h.filed.kept, not_or, and_assoc]
    · change k < (writes (s.past ++ [.closed op.made v])).length
      rw [hws]
      rcases (hcl k).mp hk with hk | rfl
      · exact h.filed.known k hk
      · exact (List.getElem?_eq_some_iff.mp hwop).1
    · refine Answered.append ?_
      rcases (hcl k).mp hk with hk | rfl
      · exact h.filed.closed k hk
      · exact ha
    · change _ = ((writes (s.past ++ [.closed op.made v]))[k]?.map _).getD 0
      rw [hws, happ]
      exact h.filed.applied k
    · change _ = if .closed k .refused ∈ s.past ++ [.closed op.made v] then
        ((writes (s.past ++ [.closed op.made v]))[k]?.map _).getD 0 else 0
      rw [hund, hws, h.filed.undone k]
      by_cases hk : k = op.made
      · subst hk
        have hnc : .closed op.made .refused ∉ s.past := fun hm => hc ⟨_, hm⟩
        cases v <;> simp [hnc, hwop]
      · simp [hk]
  · refine
      { queued := ?_
        answered := fun o ho hno' => ?_
        next := fun o ho => h.live.next o ((hmem o).mp ho).1
        flight := hfl.trans h.live.flight
        sending := h.live.sending }
    · rw [hq]
      have hs : s.queue.filter (fun o => o.n ≠ op.n) = s.queue := by
        refine List.filter_eq_self.mpr fun o ho => ?_
        have hne : o ≠ op := by rintro rfl; exact hno ho
        simpa using (h.mem_filter hop (h.live.queued.subset ho)).mpr hne
      change s.queue.Sublist _
      rw [← hs]
      exact h.live.queued.filter _
    · exact (h.live.answered o ((hmem o).mp ho).1 hno').append

/-! ## 6. A write made -/

/-- **A write's block**: its statements' changes and its queue row come into the file together. -/
theorem Inv.make (h : Inv s f) {op : Op} (hmade : op.made = (writes s.past).length)
    (hnum : op.n = s.nextN) (hq : f'.queue = f.queue ++ [op])
    (happ : ∀ k, f'.rows.count (.applied k) = f.rows.count (.applied k) +
      if k = op.made then op.undo.length else 0)
    (hund : ∀ k, f'.rows.count (.undone k) = f.rows.count (.undone k))
    (hqueue : s'.queue = s.queue ++ [op]) (hn : s'.nextN = s.nextN + 1)
    (hs : s'.sending = s.sending) (hp : s'.past = s.past ++ [.made op]) : Inv s' f' := by
  have hws : writes (s.past ++ [.made op]) = writes s.past ++ [op] := by
    rw [writes_append]
    rfl
  have hcl : ∀ k, Closed (s.past ++ [.made op]) k ↔ Closed s.past k := by
    simp [Closed]
  have hlt : ∀ o ∈ writes s.past, o.made < op.made := by
    intro o ho
    obtain ⟨i, hi⟩ := List.mem_iff_getElem?.mp ho
    rw [h.filed.numbered i o hi, hmade]
    exact (List.getElem?_eq_some_iff.mp hi).1
  have hfresh : ¬ Closed s.past op.made := fun hc => by
    have := h.filed.known _ hc
    omega
  have hat : ∀ k, (writes s.past ++ [op])[k]? =
      if k = op.made then some op else (writes s.past)[k]? := by
    intro k
    rw [hmade, List.getElem?_append]
    split
    · rw [if_neg (by omega)]
    · by_cases hk : k = (writes s.past).length
      · simp [hk]
      · rw [if_neg hk, List.getElem?_singleton, if_neg (by omega),
          List.getElem?_eq_none (by omega)]
  have hfl : inFlight (s.past ++ [.made op]) = inFlight s.past := by
    rw [inFlight_note]
    rfl
  constructor
  · rw [hp]
    refine
      { numbered := fun k o hk => ?_
        kept := fun o => ?_
        ordered := ?_
        flight := by rw [hfl]; exact h.filed.flight
        known := fun k hk => ?_
        closed := fun k hk => (h.filed.closed k ((hcl k).mp hk)).append
        sent := h.filed.sent.note fun r k hr => by cases hr
        final := h.filed.final.note fun id k v hv => by cases hv
        applied := fun k => ?_
        undone := fun k => ?_ }
    · rw [hws, hat] at hk
      split at hk
      · rw [← Option.some.inj hk]
        omega
      · exact h.filed.numbered k o hk
    · rw [hq, hws, hcl, List.mem_append, List.mem_append, h.filed.kept, List.mem_singleton,
        or_and_right]
      refine or_congr_right ⟨?_, And.left⟩
      rintro rfl
      exact ⟨rfl, hfresh⟩
    · rw [hq, List.pairwise_append]
      refine ⟨h.filed.ordered, List.pairwise_singleton .., fun a ha b hb => ?_⟩
      obtain rfl := List.mem_singleton.mp hb
      exact ⟨hnum ▸ h.live.next a ha, hlt a ((h.filed.kept a).mp ha).1⟩
    · rw [hws, List.length_append]
      exact Nat.lt_add_right 1 (h.filed.known k ((hcl k).mp hk))
    · rw [happ, hws, hat, h.filed.applied]
      by_cases hk : k = op.made
      · subst hk
        simp [hmade]
      · simp [hk]
    · rw [hund, hws, hat, h.filed.undone]
      by_cases hk : k = op.made
      · subst hk
        have hnc : .closed op.made .refused ∉ s.past := fun hm => hfresh ⟨_, hm⟩
        simp [hnc]
      · simp [hk]
  · refine
      { queued := by rw [hqueue, hq]; exact h.live.queued.append (List.Sublist.refl _)
        answered := fun o ho hno => ?_
        next := fun o ho => ?_
        flight := by rw [hp, hfl, hs]; exact h.live.flight
        sending := fun w hw => ?_ }
    · rw [hqueue, List.mem_append, not_or] at hno
      rw [hq, List.mem_append] at ho
      rw [hp]
      exact (h.live.answered o (ho.resolve_right hno.2) hno.1).append
    · rw [hn]
      rw [hq, List.mem_append, List.mem_singleton] at ho
      rcases ho with ho | rfl
      · exact Nat.lt_succ_of_lt (h.live.next o ho)
      · omega
    · rw [hs] at hw
      obtain ⟨o, ho, hw⟩ := h.live.sending w hw
      exact ⟨o, hqueue ▸ List.mem_append_left _ ho, hw⟩

end Invariant

end Fenec.Replica
