/-
# What the sync does of its own keeps the record

The functions of the sync that write no file, under the invariant of `Fenec.Replica.Record`: all but
one put out nothing that sends a write or tells of a refusal (`Quiet`), and `pump` sends the first
write of the queue.

`Moved s₀ s` compares a sync with what it was when the event began: a write left its queue exactly
when the event brought its definite answer, and the binding was told of each refusal once.

* §1 is the quiet functions, §2 what `pump` and `kick` do, §3 `Moved`.
-/
import Fenec.Replica.Record

namespace Fenec.Replica

open Fenec.Lib

/-! ## 1. Quiet functions -/

section Quiets

variable (s : Sync)

theorem Quiet.of_eq {s s' : Sync} (hq : s'.queue = s.queue) (hn : s'.nextN = s.nextN)
    (hs : s'.sending = s.sending) (hp : s'.past = s.past) : Quiet s s' :=
  ⟨hq, hn, hs, [], by simp [hp], by simp⟩

theorem Quiet.foldl {g : Sync → Nat → Sync} (hg : ∀ s i, Quiet s (g s i)) :
    ∀ (is : List Nat) (s : Sync), Quiet s (is.foldl g s) := by
  intro is
  induction is with
  | nil => exact fun s => .refl s
  | cons i is ih => exact fun s => (hg s i).trans (ih (g s i))

theorem quiet_push {a : Action} (ha : (Deed.act a).quiet) : Quiet s (s.push a) :=
  ⟨rfl, rfl, rfl, [.act a], rfl, by simpa using ha⟩

theorem quiet_once {a : Action} (ha : (Deed.act a).quiet) : Quiet s (s.once a) := by
  unfold Sync.once
  split
  · exact .refl s
  · exact quiet_push s ha

theorem quiet_setShape (i : Nat) (g : Shape → Shape) : Quiet s (s.setShape i g) :=
  .of_eq rfl rfl rfl rfl

theorem quiet_wait (what : Timer) (attempt retry : Nat) : Quiet s (s.wait what attempt retry) := by
  unfold Sync.wait
  refine Quiet.trans ?_ (quiet_push _ rfl)
  exact .of_eq rfl rfl rfl rfl

theorem quiet_faultNaming (message : String) (status : Nat) (c : Bool) (q : Option String) :
    Quiet s (s.faultNaming message status c q) := by
  unfold Sync.faultNaming
  refine Quiet.trans ?_ (quiet_once _ rfl)
  exact .of_eq rfl rfl rfl rfl

theorem quiet_failed (message : String) (status : Nat) (c : Bool) :
    Quiet s (s.failed message status c) :=
  quiet_faultNaming s message status c none

theorem quiet_clearFault : Quiet s s.clearFault := by
  unfold Sync.clearFault
  split
  · exact .of_eq rfl rfl rfl rfl
  · exact .refl s

theorem quiet_sendDone : Quiet s s.sendDone := by
  unfold Sync.sendDone
  refine Quiet.trans ?_ (quiet_clearFault _)
  exact .of_eq rfl rfl rfl rfl

theorem quiet_wantToken : Quiet s s.wantToken := by
  have hpaused : Quiet s { s with paused := true } := .of_eq rfl rfl rfl rfl
  exact (hpaused.trans (quiet_failed ..)).trans (quiet_once _ rfl)

theorem quiet_actions : Quiet s s.actions.2 := by
  unfold Sync.actions
  simp only
  split
  · exact .of_eq rfl rfl rfl rfl
  · have hstate : Quiet s { s with lastState := s.stateName } := .of_eq rfl rfl rfl rfl
    exact (hstate.trans (quiet_once _ rfl)).trans (.of_eq rfl rfl rfl rfl)

theorem quiet_connect (i : Nat) : Quiet s (s.connect i) := by
  unfold Sync.connect
  simp only
  split
  · exact .refl s
  · have hid : Quiet s { s with nextId := s.nextId + 1 } := .of_eq rfl rfl rfl rfl
    exact (hid.trans (quiet_push _ rfl)).trans (quiet_setShape ..)

theorem quiet_dropStream (i : Nat) (cancel : Bool) : Quiet s (s.dropStream i cancel) := by
  unfold Sync.dropStream
  simp only
  refine Quiet.trans ?_ (quiet_setShape ..)
  split
  · exact .refl s
  · split
    · exact (quiet_setShape ..).trans (quiet_push _ rfl)
    · exact quiet_setShape ..

theorem quiet_dropStreams : Quiet s s.dropStreams :=
  .foldl (fun s i => quiet_dropStream s i true) _ s

theorem quiet_retryStream (i retry : Nat) : Quiet s (s.retryStream i retry) := by
  unfold Sync.retryStream
  split
  · exact .refl s
  · exact (quiet_setShape ..).trans (quiet_wait ..)

theorem quiet_refresh (i : Nat) : Quiet s (s.refresh i) :=
  (quiet_dropStream s i true).trans (quiet_setShape ..)

theorem quiet_retrySchemas (retry : Nat) : Quiet s (s.retrySchemas retry) := by
  have hset : Quiet s { s with schemaWaiting := true, schemaAttempt := s.schemaAttempt + 1 } :=
    .of_eq rfl rfl rfl rfl
  exact hset.trans (quiet_wait ..)

theorem quiet_sendLater (status : Nat) (a : Answer) : Quiet s (s.sendLater status a) := by
  unfold Sync.sendLater
  refine (quiet_faultNaming s a.why status true a.said.quota).trans ?_
  refine Quiet.trans ?_ (quiet_wait ..)
  exact .of_eq rfl rfl rfl rfl

theorem quiet_takeToken (t : Option String) : Quiet s (s.takeToken t) := by
  cases t with
  | none => exact .refl s
  | some t =>
    simp only [Sync.takeToken]
    split <;> exact .of_eq rfl rfl rfl rfl

theorem quiet_takeNetwork (o : Option Bool) : Quiet s (s.takeNetwork o) := by
  match o with
  | none => exact .refl s
  | some true => exact .of_eq rfl rfl rfl rfl
  | some false =>
    have hoff : Quiet s { s with offline := true } := .of_eq rfl rfl rfl rfl
    exact hoff.trans (quiet_dropStreams _)

theorem quiet_takeStop (b : Bool) : Quiet s (s.takeStop b) := by
  cases b with
  | false => exact .refl s
  | true =>
    have hstop : Quiet s { s with stopped := true } := .of_eq rfl rfl rfl rfl
    exact (hstop.trans (quiet_dropStreams _)).trans (.of_eq rfl rfl rfl rfl)

end Quiets

/-! ## 2. What is asked for -/

/-- A sync that holds the same queue, whose history neither answers a write nor tells of one. -/
structure Steady (s s' : Sync) : Prop where
  queue : s'.queue = s.queue
  past : ∃ ds, s'.past = s.past ++ ds ∧ ∀ d ∈ ds, d.mute

theorem Quiet.steady {s s' : Sync} (h : Quiet s s') : Steady s s' := by
  obtain ⟨ds, hds, hq⟩ := h.past
  exact ⟨h.queue, ds, hds, fun d hd => Deed.mute_of_quiet (hq d hd)⟩

theorem Steady.trans {a b c : Sync} (h : Steady a b) (h' : Steady b c) : Steady a c := by
  obtain ⟨ds, hds, hm⟩ := h.past
  obtain ⟨es, hes, hm'⟩ := h'.past
  refine ⟨h'.queue.trans h.queue, ds ++ es, by rw [hes, hds, List.append_assoc], ?_⟩
  intro d hd
  rcases List.mem_append.mp hd with hd | hd
  · exact hm d hd
  · exact hm' d hd

section Kick

variable {s : Sync} {f : Store}

/-- `pump` sends nothing, or the first write of the queue while none is under way. -/
theorem Inv.pump (h : Inv s f) : Inv s.pump f ∧ Steady s s.pump := by
  unfold Sync.pump
  split
  case isTrue => exact ⟨h, (Quiet.refl s).steady⟩
  case isFalse hfree =>
    have hnone : s.sending = none := by
      cases hs : s.sending with
      | none => rfl
      | some w => simp [hs] at hfree
    split
    case h_1 => exact ⟨h, (Quiet.refl s).steady⟩
    case h_2 op q hq =>
      refine ⟨h.send hq hnone rfl rfl rfl rfl ?_ rfl rfl rfl rfl, ⟨rfl, [_], rfl, by simp [Deed.mute]⟩⟩
      simp [Sync.headers]

theorem quiet_request_collections (s : Sync) :
    Quiet s (s.request "GET" "/collections" [] none none) := by
  unfold Sync.request
  refine Quiet.trans ?_ (quiet_push _ rfl)
  exact .of_eq rfl rfl rfl rfl

/-- **`kick` keeps the invariant.** -/
theorem Inv.kick (h : Inv s f) (held : List String) :
    Inv (s.kick held) f ∧ Steady s (s.kick held) := by
  unfold Sync.kick
  split
  · exact ⟨h, (Quiet.refl s).steady⟩
  · split
    · split
      · have hreq : Quiet s { s.request "GET" "/collections" [] none none with
            schemaReq := some s.nextId } :=
          (quiet_request_collections s).trans (.of_eq rfl rfl rfl rfl)
        exact ⟨h.quiet hreq, hreq.steady⟩
      · exact ⟨h, (Quiet.refl s).steady⟩
    · obtain ⟨hpump, hsteady⟩ := h.pump
      simp only
      split
      · exact ⟨hpump, hsteady⟩
      · have hconn := Quiet.foldl quiet_connect (List.range s.pump.shapes.length) s.pump
        exact ⟨hpump.quiet hconn, hsteady.trans hconn.steady⟩

end Kick

/-! ## 3. What an event did to the queue -/

/-- **Since the event began**: a write left the queue exactly when its definite answer came, and
the binding was told of each refusal once. -/
def Moved (s₀ s : Sync) : Prop :=
  ∃ ds, s.past = s₀.past ++ ds ∧
    (∀ op ∈ s₀.queue, op ∈ s.queue ↔ ¬ Answered ds op.made) ∧
    ∀ k, ds.countP (·.tells k) = ds.countP (·.refuses k)

section Moved

variable {s₀ s s' : Sync} {ds es : List Deed} {k : Nat}

theorem not_answered_of_mute (h : ∀ d ∈ es, d.mute) : ¬ Answered es k := by
  rintro ⟨d, hd, hk⟩
  rw [Deed.settles_of_mute (h d hd)] at hk
  cases hk

theorem countP_tells_of_mute (h : ∀ d ∈ es, d.mute) : es.countP (·.tells k) = 0 :=
  List.countP_eq_zero.mpr fun d hd => by simp [Deed.tells_of_mute (h d hd)]

theorem countP_refuses_of_mute (h : ∀ d ∈ es, d.mute) : es.countP (·.refuses k) = 0 :=
  List.countP_eq_zero.mpr fun d hd => by simp [Deed.refuses_of_mute (h d hd)]

theorem Moved.refl (s : Sync) : Moved s s :=
  ⟨[], by simp, by simp [Answered], by simp⟩

theorem Moved.steady (h : Moved s₀ s) (hs : Steady s s') : Moved s₀ s' := by
  obtain ⟨ds, hp, hq, ht⟩ := h
  obtain ⟨es, hes, hm⟩ := hs.past
  refine ⟨ds ++ es, by rw [hes, hp, List.append_assoc], ?_, ?_⟩
  · intro op hop
    rw [hs.queue, hq op hop, answered_append]
    simp [not_answered_of_mute hm]
  · intro k
    rw [List.countP_append, List.countP_append, ht k, countP_tells_of_mute hm,
      countP_refuses_of_mute hm]

/-- Nothing left the queue, and more may have come into it. -/
theorem Moved.keep (h : Moved s₀ s) (hsub : s₀.queue ⊆ s.queue) (hsub' : s₀.queue ⊆ s'.queue)
    (hp : ∃ es, s'.past = s.past ++ es ∧ ∀ d ∈ es, d.mute) : Moved s₀ s' := by
  obtain ⟨ds, hpast, hq, ht⟩ := h
  obtain ⟨es, hes, hm⟩ := hp
  refine ⟨ds ++ es, by rw [hes, hpast, List.append_assoc], ?_, ?_⟩
  · intro op hop
    have hna := (hq op hop).mp (hsub hop)
    simp [hsub' hop, answered_append, hna, not_answered_of_mute hm]
  · intro k
    rw [List.countP_append, List.countP_append, ht k, countP_tells_of_mute hm,
      countP_refuses_of_mute hm]

end Moved

end Fenec.Replica
