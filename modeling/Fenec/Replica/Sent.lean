/-
# Every synced write is sent once, in order, until it is answered

Each entry point of the sync keeps the invariant, whichever of its statements fail (§1 an answer, §2
the others), so every world a run reaches has it, and what the history says of the writes follows
(§3).
-/
import Fenec.Replica.Blocks

namespace Fenec.Replica

open Fenec.Lib Fenec.Lib.Act Sync

/-! ## 1. The answer to a write -/

section Answer

variable {s₀ s s' : Sync} {f f' g : Store} {w : Sending} {op : Op} {E : Host Sync → Prop}

/-- The write leaves the queue after the block of its answer. -/
theorem Settled.unqueue {made : Nat} {v : Verdict} (h : Settled s f g made v s' f') (n : Nat) :
    Settled (s.without n) f g made v (s'.unqueue n) f' := by
  rcases h with ⟨hstill, hcalm⟩ | ⟨hquiet, hfile⟩
  · have hq : (s'.unqueue n).queue = (s.without n).queue := by
      simp only [Sync.unqueue, Sync.without, hstill.queue]
      rfl
    exact .inl ⟨⟨hq, hstill.nextN, hstill.sending, hstill.past⟩, hcalm⟩
  · have hq : (s'.unqueue n).queue = (s.without n).queue := by
      simp only [Sync.unqueue, Sync.without, hquiet.queue]
    exact .inr ⟨⟨hq, hquiet.nextN, hquiet.sending, hquiet.past⟩, hfile⟩

theorem meets_landed (h : Inv s f) (hop : op ∈ s.queue) (hn : op.n = w.n) (hm : op.made = w.made)
    (ha : Answered s.past op.made) (hnone : s.sending = none) (seq : Nat) :
    Meets (From s f) (Sync.landed w seq)
      (fun _ => Shut fun s' f' => Inv s' f' ∧ Steady (s.without op.n) s') E := by
  unfold Sync.landed
  refine meets_bind (meets_result (meets_land w.n _)) fun r => ?_
  refine meets_bind (meets_settle w.made .landed id r) fun _ => ?_
  rintro hs ⟨hblock, hset⟩
  rw [← hn, ← hm] at hset
  have hset' := hset.unqueue op.n
  have hend : Quiet (hs.sync.unqueue op.n) (((hs.sync.unqueue op.n).once .changed).once .status) :=
    (quiet_once _ rfl).trans (quiet_once _ rfl)
  rw [← hn]
  exact ⟨hblock, (h.settled hop ha hnone hset').quiet hend, hset'.steady.trans hend.steady⟩

/-- A history that ends an answer's with the telling of the refusal. -/
def Tells (s : Sync) (made : Nat) (s' : Sync) : Prop :=
  s'.queue = s.queue ∧ ∃ ds status message label quota reason es,
    s'.past = s.past ++ (ds ++ .act (.refused made status message label quota reason) :: es) ∧
    (∀ d ∈ ds, d.mute) ∧ ∀ d ∈ es, d.mute

theorem meets_refused (h : Inv s f) (hop : op ∈ s.queue) (ha : Answered s.past op.made)
    (hnone : s.sending = none) (status : Nat) (a : Answer) :
    Meets (From s f) (Sync.refused op.n status a)
      (fun _ => Shut fun s' f' => Inv s' f' ∧ Tells (s.without op.n) op.made s') E := by
  have hfind : s.queue.find? (fun o => decide (o.n = op.n)) = some op := by
    cases hf : s.queue.find? (fun o => decide (o.n = op.n)) with
    | none =>
      have := List.find?_eq_none.mp hf op hop
      simp at this
    | some o =>
      have ho : o.n = op.n := by simpa using List.find?_some hf
      have hmem := List.mem_of_find?_eq_some hf
      by_contra hne
      exact (h.mem_filter (h.live.queued.subset hop) (h.live.queued.subset hmem)).mpr
        (fun he => hne (congrArg some he)) ho
  have herase : s.queue.eraseP (fun o => decide (o.n = op.n)) = (s.without op.n).queue :=
    eraseP_eq_filter (h.filed.ordered.sublist h.live.queued) op.n
  unfold Sync.refused
  refine meets_get_from ?_
  simp only [hfind]
  refine meets_bind meets_modify_from fun _ => ?_
  rw [herase]
  refine meets_bind (meets_result (meets_putBack op op.n)) fun r => ?_
  refine meets_bind (meets_settle op.made .refused _ r) fun _ => ?_
  rintro hs ⟨hblock, hset⟩
  have hinv : Inv hs.sync hs.file := h.settled hop ha hnone hset
  -- the fault is named, then the binding is told, then live queries look again
  have hforget : Quiet hs.sync (hs.sync.forget op.n) := .of_eq rfl rfl rfl rfl
  have hfault := hforget.trans (quiet_faultNaming _ a.why status false a.said.quota)
  have htold := (hinv.quiet hfault).tell op.made status a.why op.label a.said.quota a.said.reason
  have hend := quiet_once (((hs.sync.forget op.n).faultNaming a.why status false a.said.quota).push
    (.refused op.made status a.why op.label a.said.quota a.said.reason)) (a := .changed) rfl
  obtain ⟨ds, hds, hmute⟩ := (hset.steady.trans hfault.steady).past
  obtain ⟨es, hes, hmute'⟩ := hend.steady.past
  refine ⟨hblock, htold.quiet hend, ?_, ds, status, a.why, op.label, a.said.quota, a.said.reason, es,
    ?_, hmute, hmute'⟩
  · exact hend.queue.trans (hfault.queue.trans hset.steady.queue)
  · refine hes.trans ?_
    change (_ ++ [_]) ++ es = _
    rw [hds]
    simp [Sync.without]

/-- **What the event did**, its answer to a write settled or not. -/
structure Did (s₀ s : Sync) (f : Store) : Prop where
  inv : Inv s f
  moved : Moved s₀ s

theorem Going.did (h : Going s₀ s f) : Did s₀ s f := ⟨h.inv, h.moved⟩

/-- The answer to the request under way, noted. -/
def Sync.noted (s : Sync) (w : Sending) (v : Verdict) : Sync :=
  { s with sending := none }.note (.answered w.id w.made v)

/-- A definite answer and what came after it in the event. -/
theorem Moved.of_definite (h : Inv s₀ f) (hop : op ∈ s₀.queue) (id : Nat) (v : Verdict)
    (ds : List Deed) (hv : v.definite) (hq : s.queue = (s₀.without op.n).queue)
    (hp : s.past = s₀.past ++ .answered id op.made v :: ds) (hna : ∀ k, ¬ Answered ds k)
    (hcount : ∀ k, ds.countP (·.tells k) =
      (if op.made = k ∧ v = .refused then 1 else 0) + ds.countP (·.refuses k)) : Moved s₀ s := by
  refine ⟨_, hp, fun o ho => ?_, fun k => ?_⟩
  · have hans : Answered (.answered id op.made v :: ds) o.made ↔ op.made = o.made := by
      rw [← List.singleton_append, answered_append, answered_singleton]
      simp [hna, Deed.settles, hv]
    have hne := h.filed.made_eq_iff (h.live.queued.subset ho) (h.live.queued.subset hop)
    rw [hans, hq, eq_comm, hne]
    simp [Sync.without, ho]
  · rw [List.countP_cons, List.countP_cons, hcount k]
    simp [Deed.tells, Deed.refuses]
    omega

theorem Moved.of_landed (h : Inv s₀ f) (hop : op ∈ s₀.queue) (hm : op.made = w.made)
    (hs : Steady ((s₀.noted w .landed).without op.n) s) : Moved s₀ s := by
  obtain ⟨ds, hds, hmute⟩ := hs.past
  refine .of_definite h hop w.id .landed ds rfl hs.queue ?_
    (fun k => not_answered_of_mute hmute) fun k => ?_
  · rw [hds, hm]
    simp [Sync.noted, Sync.note, Sync.without]
  · rw [countP_tells_of_mute hmute, countP_refuses_of_mute hmute]
    simp

theorem Moved.of_refused (h : Inv s₀ f) (hop : op ∈ s₀.queue) (hm : op.made = w.made)
    (hs : Tells ((s₀.noted w .refused).without op.n) op.made s) : Moved s₀ s := by
  obtain ⟨hq, ds, status, message, label, quota, reason, es, hp, hmute, hmute'⟩ := hs
  refine .of_definite h hop w.id .refused
    (ds ++ .act (.refused op.made status message label quota reason) :: es) rfl hq ?_ ?_ ?_
  · rw [hp, hm]
    simp [Sync.noted, Sync.note, Sync.without]
  · intro k
    rw [answered_append, ← List.singleton_append, answered_append, answered_singleton]
    simp [not_answered_of_mute hmute, not_answered_of_mute hmute', Deed.settles]
  · intro k
    rw [List.countP_append, List.countP_append, List.countP_cons, List.countP_cons,
      countP_tells_of_mute hmute, countP_tells_of_mute hmute', countP_refuses_of_mute hmute,
      countP_refuses_of_mute hmute']
    simp [Deed.tells, Deed.refuses]

/-- An answer that leaves its write queued. -/
theorem Moved.of_indefinite {v : Verdict} (hv : v.definite = false)
    (hs : Steady (s₀.noted w v) s) : Moved s₀ s := by
  have href : v ≠ .refused := by rintro rfl; cases hv
  obtain ⟨ds, hds, hmute⟩ := hs.past
  refine ⟨.answered w.id w.made v :: ds, ?_, fun o ho => ?_, fun k => ?_⟩
  · rw [hds]
    simp [Sync.noted, Sync.note]
  · have hans : ¬ Answered (.answered w.id w.made v :: ds) o.made := by
      rw [← List.singleton_append, answered_append, answered_singleton]
      simp [not_answered_of_mute hmute, Deed.settles, hv]
    have hq : s.queue = s₀.queue := hs.queue
    simp [hq, ho, hans]
  · rw [List.countP_cons, List.countP_cons, countP_tells_of_mute hmute,
      countP_refuses_of_mute hmute]
    simp [Deed.tells, Deed.refuses, href]

/-- **`on_answer`**, for each verdict: the write leaves the queue exactly where it is definite. -/
theorem meets_onAnswer (h : Inv s₀ f) (hw : s₀.sending = some w) (status seq : Nat) (a : Answer) :
    Meets (From (s₀.noted w (verdict status a.said)) f) (Sync.onAnswer w status seq a)
      (fun _ => Shut (Did s₀)) E := by
  obtain ⟨op, hop, hn, hm⟩ := h.live.sending w hw
  have hinv : ∀ v, Inv (s₀.noted w v) f := fun v => h.answer hw rfl rfl rfl rfl
  have hans : ∀ v : Verdict, v.definite → Answered (s₀.noted w v).past op.made := fun v hv =>
    ⟨_, List.mem_append_right _ (List.mem_singleton_self _), by simp [Deed.settles, hm, hv]⟩
  unfold Sync.onAnswer
  cases hv : verdict status a.said with
  | landed =>
    refine meets_bind meets_modify_from fun _ => ?_
    have hdone := quiet_sendDone (s₀.noted w .landed)
    have hans' : Answered (s₀.noted w .landed).sendDone.past op.made := by
      obtain ⟨ds, hds, -⟩ := hdone.past
      rw [hds]
      exact (hans .landed rfl).append
    refine (meets_landed (E := E) ((hinv .landed).quiet hdone) (hdone.queue ▸ hop) hn hm hans'
      hdone.sending seq).imp (fun _ hs => hs) (fun _ hs hd => ?_) fun _ hs => hs
    obtain ⟨hblock, hinv', hsteady⟩ := hd
    have hwithout : Quiet ((s₀.noted w .landed).without op.n)
        ((s₀.noted w .landed).sendDone.without op.n) :=
      ⟨congrArg (List.filter _) hdone.queue, hdone.nextN, hdone.sending, hdone.past⟩
    exact ⟨hblock, hinv', .of_landed h hop hm (hwithout.steady.trans hsteady)⟩
  | token =>
    rintro hs ⟨hsync, hfile, hblock⟩
    have hquiet := quiet_wantToken (s₀.noted w .token)
    refine ⟨hblock, ?_⟩
    change Did s₀ hs.sync.wantToken hs.file
    rw [hsync, hfile]
    exact ⟨(hinv .token).quiet hquiet, .of_indefinite rfl hquiet.steady⟩
  | refused =>
    rw [← hn]
    refine (meets_refused (E := E) (hinv .refused) hop (hans .refused rfl) rfl status a).imp
      (fun _ hs => hs) (fun _ hs hd => ?_) fun _ hs => hs
    exact ⟨hd.1, hd.2.1, .of_refused h hop hm hd.2.2⟩
  | again =>
    rintro hs ⟨hsync, hfile, hblock⟩
    have hquiet := quiet_sendLater (s₀.noted w .again) status a
    refine ⟨hblock, ?_⟩
    change Did s₀ (hs.sync.sendLater status a) hs.file
    rw [hsync, hfile]
    exact ⟨(hinv .again).quiet hquiet, .of_indefinite rfl hquiet.steady⟩

/-- `kick`, after an answer. -/
theorem meets_kicked_did : Meets (Shut (Did s₀)) Sync.kicked (fun _ => Shut (Did s₀)) E := by
  rintro hs ⟨hnone, hd⟩
  obtain ⟨hinv, hsteady⟩ := hd.inv.kick hs.file.held
  exact ⟨hnone, hinv, hd.moved.steady hsteady⟩

theorem meets_response (h : Inv s f) (id status seq : Nat) (a : Answer) :
    Meets (From s f) (Sync.response id status seq a) (fun _ => Shut (Did s)) (Shut (Did s)) := by
  unfold Sync.response
  refine meets_bind ?_ fun _ => meets_kicked_did
  unfold Sync.answer
  refine meets_get_from (meets_ite (fun _ => ?_) fun _ => ?_)
  · have hg : Going s { s with schemaReq := none } f :=
      (Going.start h).quiet (.of_eq rfl rfl rfl rfl)
    refine meets_bind meets_modify_from fun _ => ?_
    exact (meets_shut (meets_onSchemas status a) hg).imp (fun _ hs => hs)
      (fun _ _ hs => ⟨hs.1, hs.2.did⟩) fun _ hs => ⟨hs.1, hs.2.did⟩
  · have hstay : Meets (From s f) (pure () : Run Sync Unit) (fun _ => Shut (Did s)) (Shut (Did s)) :=
      meets_shut (P := Did s) (meets_pure fun _ hs => hs) ⟨h, .refl s⟩
    cases hw : s.sending with
    | none => exact hstay
    | some w =>
      refine meets_ite (fun _ => ?_) fun _ => hstay
      exact meets_bind meets_modify_from fun _ => meets_onAnswer h hw status seq a

end Answer

/-! ## 2. The other events -/

section Others

variable {s₀ s : Sync} {f : Store} {E : Host Sync → Prop}

theorem meets_opened (id status : Nat) (a : Answer) :
    Meets (Shut (Going s₀)) (Sync.opened id status a) (fun _ => Shut (Going s₀))
      (Shut (Going s₀)) := by
  unfold Sync.opened
  refine meets_bind meets_get_shut fun t => ?_
  cases t.shapeOf id with
  | none => exact meets_pure fun _ hs => hs
  | some i =>
    refine meets_bind (meets_quietly fun s => ?_) fun _ => ?_
    · split
      · exact (quiet_setShape ..).trans (quiet_clearFault _)
      · split
        · exact (quiet_dropStream ..).trans (quiet_wantToken _)
        · exact ((quiet_dropStream ..).trans (quiet_faultNaming ..)).trans (quiet_retryStream ..)
    · exact meets_bind (meets_quietly fun s => quiet_once s rfl) fun _ => meets_kicked

theorem meets_frame (i : Nat) (fr : Frame) :
    Meets (Shut (Going s₀)) (Sync.frame i fr) (fun _ => Shut (Going s₀)) (Shut (Going s₀)) := by
  cases fr with
  | seed d => exact meets_seed i d
  | change d =>
    refine meets_bind meets_get_shut fun t => ?_
    exact meets_ite (fun _ => meets_change i d) fun _ => meets_pure fun _ hs => hs
  | error status message => exact meets_fail fun _ hs => hs
  | other => exact meets_pure fun _ hs => hs

theorem meets_wanting (i : Nat) :
    Meets (Shut (Going s₀))
      (Run.modify (fun s => (s.dropStream i true).wantToken) >>= fun _ => pure false)
      (fun _ => Shut (Going s₀)) E :=
  meets_bind (meets_quietly fun _ => (quiet_dropStream ..).trans (quiet_wantToken _))
    fun _ => meets_pure fun _ hs => hs

/-- The frames of a piece, one block after another. -/
theorem meets_frames (i id : Nat) (frs : List Frame) :
    Meets (Shut (Going s₀)) (Sync.frames i id frs) (fun _ => Shut (Going s₀)) (Shut (Going s₀)) := by
  induction frs with
  | nil => exact meets_pure fun _ hs => hs
  | cons fr frs ih =>
    unfold Sync.frames
    refine meets_bind meets_get_shut fun t => ?_
    refine meets_ite (fun _ => meets_pure fun _ hs => hs) fun _ => ?_
    split
    · exact meets_wanting i
    · refine meets_bind (meets_result (meets_frame i fr)) fun r => ?_
      cases r with
      | ok _ => exact ih
      | error e =>
        refine meets_bind (meets_quietly fun s => ?_) fun _ => meets_pure fun _ hs => hs
        exact ((quiet_failed ..).trans (quiet_dropStream ..)).trans (quiet_retryStream ..)

theorem meets_bytes (id : Nat) (frs : List Frame) :
    Meets (Shut (Going s₀)) (Sync.bytes id frs) (fun _ => Shut (Going s₀)) (Shut (Going s₀)) := by
  unfold Sync.bytes
  refine meets_bind meets_get_shut fun t => ?_
  cases t.shapeOf id with
  | none => exact meets_pure fun _ hs => hs
  | some i =>
    refine meets_bind (meets_frames i id frs) fun whole => ?_
    refine meets_bind meets_get_shut fun t => ?_
    exact meets_ite (fun _ => meets_kicked) fun _ => meets_pure fun _ hs => hs

theorem meets_closed (id : Nat) (why : String) :
    Meets (Shut (Going s₀)) (Sync.closed id why) (fun _ => Shut (Going s₀)) (Shut (Going s₀)) := by
  unfold Sync.closed
  refine meets_bind meets_get_shut fun t => ?_
  cases t.shapeOf id with
  | none => exact meets_pure fun _ hs => hs
  | some i =>
    refine meets_bind (meets_quietly fun s => ?_) fun _ => meets_kicked
    exact ((quiet_dropStream ..).trans (quiet_failed ..)).trans (quiet_retryStream ..)

theorem meets_timer (id : Nat) :
    Meets (Shut (Going s₀)) (Sync.timer id) (fun _ => Shut (Going s₀)) (Shut (Going s₀)) := by
  unfold Sync.timer
  refine meets_bind meets_get_shut fun t => ?_
  cases t.timers.find? fun t => decide (t.1 = id) with
  | none => exact meets_pure fun _ hs => hs
  | some x =>
    refine meets_bind (meets_quietly fun s => ?_) fun _ => meets_kicked
    cases x.2.1 <;> exact .of_eq rfl rfl rfl rfl

theorem meets_signal (g : Except String Signal) :
    Meets (Shut (Going s₀)) (Sync.signal g) (fun _ => Shut (Going s₀)) (Shut (Going s₀)) := by
  unfold Sync.signal
  refine meets_bind (meets_lift_shut g) fun g => ?_
  refine meets_bind (meets_quietly fun s => ?_) fun _ => meets_kicked
  have hsaid := ((quiet_takeToken s g.token).trans (quiet_takeNetwork _ g.online)).trans
    (quiet_takeStop _ g.stop)
  exact hsaid.trans (quiet_once _ rfl)

/-- The write that was queued, over a sync that is as it was for the writes. -/
theorem Inv.written (h : Inv s f) {t u : Sync} (ht : Still s t) (hu : Still s u) {f' : Store}
    (applied : List Applied) (label : String) (temps : List Temp)
    (hf : Calm ((f.adding (.applied (writes s.past).length) applied.length).putOp
      (u.opOf applied label)) f') :
    Inv ({ t with
        nextN := t.nextN + 1
        queue := t.queue ++ [u.opOf applied label]
        temps := t.temps ++ temps }.note (.made (u.opOf applied label))) f' := by
  have hmade : (u.opOf applied label).made = (writes s.past).length :=
    congrArg (fun p => (writes p).length) hu.past
  have hnum : (u.opOf applied label).n = s.nextN := hu.nextN
  refine h.make hmade hnum ?_ (fun k => ?_) (fun k => ?_) (congrArg (· ++ [_]) ht.queue)
    (congrArg (· + 1) ht.nextN) ht.sending (congrArg (· ++ [_]) ht.past)
  · -- no row of the queue has the number yet
    have hfresh : f.queue.filter (fun o => decide (o.n ≠ (u.opOf applied label).n)) = f.queue := by
      refine List.filter_eq_self.mpr fun o ho => ?_
      have := h.live.next o ho
      exact decide_eq_true (by omega)
    rw [hf.queue]
    exact congrArg (· ++ [_]) hfresh
  · have hlen : (u.opOf applied label).undo.length = applied.length := List.length_map ..
    rw [hf.applied, hmade, hlen]
    by_cases hk : k = (writes s.past).length
    · subst hk
      simp [Store.putOp, Store.adding, List.count_append]
    · have hk' : ¬ (writes s.past).length = k := fun he => hk he.symm
      simp [Store.putOp, Store.adding, List.count_append, List.count_replicate, hk, hk']
  · rw [hf.undone]
    simp [Store.putOp, Store.adding, List.count_append, List.count_replicate]

/-- **A local write**: its changes and its queue row in one block, or neither. -/
theorem meets_write (h : Inv s f) (w : Write) :
    Meets (From s f) (Sync.write w) (fun _ => Shut (Going s)) (Shut (Going s)) := by
  have hg : Going s s f := .start h
  unfold Sync.write
  refine meets_bind (Q := fun _ => From s f) ?_ fun _ => ?_
  · exact meets_ite (fun _ => meets_pure fun _ hs => hs)
      fun _ => meets_fail fun hs hF => ⟨hF.2.2, by rw [hF.1, hF.2.1]; exact hg⟩
  refine meets_bind meets_begin fun _ => ?_
  refine meets_bind meets_get_still fun t => meets_and fun ht => ?_
  have hzero : f = f.adding (.applied (writes t.past).length) 0 := by simp [Store.adding]
  have happly := meets_applyAll (s := s) (f := f) (g := f) (writes t.past).length w.statements 0
  rw [← hzero] at happly
  refine meets_bind (meets_result happly) fun r => ?_
  cases r with
  | error e => exact meets_giveUp hg t.nextTemp e
  | ok applied =>
    refine meets_bind meets_get_still fun u => meets_and fun hu => ?_
    refine meets_bind (meets_modify fun _ => ⟨rfl, rfl, rfl, rfl⟩) fun _ => ?_
    refine meets_bind (meets_result (meets_save _ _)) fun r => ?_
    cases r with
    | error e => exact meets_giveUp hg t.nextTemp e
    | ok _ =>
      refine meets_bind (Q := fun _ => Shut (Going s)) ?_ fun _ => meets_kicked
      rintro hs ⟨hblock, hstill, hcalm⟩
      rw [ht.past, Nat.zero_add] at hcalm
      have hinv := h.written hstill hu applied w.label (tempsOf (u.opOf applied w.label).n applied)
        hcalm
      have hsub : s.queue ⊆ hs.sync.queue ++ [u.opOf applied w.label] := by
        rw [hstill.queue]
        exact List.subset_append_left ..
      have hgoing : Going s _ hs.file :=
        ⟨hinv, (Moved.refl s).keep (fun _ ho => ho) hsub
          ⟨[.made (u.opOf applied w.label)], congrArg (· ++ [_]) hstill.past,
            by simp [Deed.mute]⟩, hsub⟩
      exact ⟨hblock, hgoing.quiet (quiet_once _ rfl)⟩

/-- A sync made anew, whose history goes on. -/
structure Fresh (s₀ : Sync) (f₀ : Store) (s : Sync) (f : Store) : Prop where
  filed : Filed s.past f
  sending : s.sending = none
  flight : inFlight s.past = []
  past : ∃ ds, s.past = s₀.past ++ ds ∧ ∀ d ∈ ds, d.mute
  queue : f.queue = f₀.queue

/-- What a start leaves: the history and the file agree, and the history tells of no answer. -/
structure Stood (s₀ s : Sync) (f : Store) : Prop where
  filed : Filed s.past f
  past : ∃ ds, s.past = s₀.past ++ ds ∧ ∀ d ∈ ds, d.mute

/-- A sync that runs over all of the file's queue. -/
structure Began (s₀ : Sync) (f₀ : Store) (s : Sync) (f : Store) : Prop where
  inv : Inv s f
  past : ∃ ds, s.past = s₀.past ++ ds ∧ ∀ d ∈ ds, d.mute
  queue : s.queue = f₀.queue

variable {f₀ : Store}

theorem Began.stood (h : Began s₀ f₀ s f) : Stood s₀ s f := ⟨h.inv.filed, h.past⟩

theorem Began.steady (h : Began s₀ f₀ s f) {s' : Sync} (hinv : Inv s' f) (hs : Steady s s') :
    Began s₀ f₀ s' f := by
  obtain ⟨ds, hds, hm⟩ := h.past
  obtain ⟨es, hes, hm'⟩ := hs.past
  refine ⟨hinv, ⟨ds ++ es, by rw [hes, hds, List.append_assoc], ?_⟩, hs.queue.trans h.queue⟩
  intro d hd
  rcases List.mem_append.mp hd with hd | hd
  · exact hm d hd
  · exact hm' d hd

theorem Began.quiet (h : Began s₀ f₀ s f) {s' : Sync} (hs : Quiet s s') : Began s₀ f₀ s' f :=
  h.steady (h.inv.quiet hs) hs.steady

/-- `load` into a sync made anew. -/
theorem meets_load_fresh :
    Meets (Shut (Fresh s₀ f₀)) Sync.load (fun _ => Shut (Began s₀ f₀)) (Shut (Stood s₀)) := by
  have hstood : ∀ {hs : Host Sync}, Shut (Fresh s₀ f₀) hs → Shut (Stood s₀) hs :=
    fun hs => ⟨hs.1, hs.2.filed, hs.2.past⟩
  unfold Sync.load
  refine meets_bind (meets_read.imp (fun _ hs => hs) (fun _ _ hs => hs) fun _ => hstood)
    fun rows => ?_
  refine meets_bind (m := Run.modify (Sync.takeShapes rows)) (Q := fun _ => Shut (Fresh s₀ f₀)) ?_
    fun _ => ?_
  · rintro hs ⟨⟨hblock, hf⟩, -⟩
    exact ⟨hblock, hf.filed, hf.sending, hf.flight, hf.past, hf.queue⟩
  refine meets_bind (meets_read.imp (fun _ hs => hs) (fun _ _ hs => hs) fun _ => hstood)
    fun ops => ?_
  refine meets_bind (m := Run.modify (Sync.takeQueue ops)) (Q := fun _ => Shut (Began s₀ f₀)) ?_
    fun _ => ?_
  · rintro hs ⟨⟨hblock, hf⟩, rfl⟩
    obtain ⟨hq, hn⟩ := hf.filed.takeQueue hs.sync
    have hnone : (hs.sync.takeQueue hs.file.queue).sending = none := hf.sending
    refine ⟨hblock, Inv.reload hf.filed rfl hq hn ?_ ?_, hf.past, hq.trans hf.queue⟩
    · rw [hnone, hf.flight]
      rfl
    · rw [hnone]
      exact fun w hw => nomatch hw
  refine meets_bind (meets_read.imp (fun _ hs => hs) (fun _ _ hs => hs)
    fun _ hs => ⟨hs.1, hs.2.stood⟩) fun temps => ?_
  rintro hs ⟨⟨hblock, hb⟩, -⟩
  exact ⟨hblock, hb.quiet (.of_eq rfl rfl rfl rfl)⟩

/-- **`start`**: the sync goes on from the file, and what the one before it held is lost. -/
theorem meets_start (c : Config) (h : Filed s.past f) :
    Meets (From s f) (Sync.start c) (fun _ => Shut (Began s f)) (Shut (Stood s)) := by
  have hstood : ∀ {s' : Sync} {f' : Store}, Still s s' → Calm f f' → Stood s s' f' :=
    fun hs hf => ⟨by rw [hs.past]; exact h.calm hf, [], by simp [hs.past], by simp⟩
  unfold Sync.start
  refine meets_bind (Q := fun _ => From s f)
    (meets_lift (fun _ _ _ hs => hs) fun hs hF => ⟨hF.2.2, ?_⟩) fun shapes => ?_
  · rw [hF.1, hF.2.1]
    exact hstood (.refl s) (.refl f)
  refine meets_bind meets_begin fun _ => ?_
  have hmake : Meets (During s f f) (Act.each (fun _ => Run.execute id) [0, 1, 2])
      (fun _ => During s f f) (Left s f) :=
    meets_each fun _ _ => meets_execute fun _ hc => hc
  refine meets_bind (meets_result hmake) fun r => ?_
  cases r with
  | error e =>
    refine meets_bind meets_rollback fun _ => meets_fail fun hs hF => ?_
    exact ⟨hF.1, hF.2.2 ▸ hstood hF.2.1 (.refl f)⟩
  | ok _ =>
    refine meets_bind (meets_commit_shut.imp (fun _ hs => hs) (fun _ _ hs => hs)
      fun hs hF => ⟨hF.1, hF.2.2 ▸ hstood hF.2.1 (.refl f)⟩) fun _ => ?_
    refine meets_bind (m := Run.modify _) (Q := fun _ => Shut (Fresh s f)) ?_ fun _ => ?_
    · rintro hs ⟨hblock, hstill, hcalm⟩
      refine ⟨hblock, ?_, rfl, inFlight_note, ⟨[.started], ?_, by simp [Deed.mute]⟩, hcalm.queue⟩
      · have hfiled : Filed hs.sync.past hs.file := by
          rw [hstill.past]
          exact h.calm hcalm
        exact hfiled.note rfl
      · exact congrArg (· ++ [_]) hstill.past
    refine meets_bind meets_load_fresh fun _ => ?_
    refine meets_bind (m := Run.modify _) (Q := fun _ => Shut (Began s f)) ?_ fun _ => ?_
    · exact fun hs hb => ⟨hb.1, hb.2.quiet (.of_eq rfl rfl rfl rfl)⟩
    · rintro hs ⟨hblock, hb⟩
      obtain ⟨hinv, hsteady⟩ := hb.inv.kick hs.file.held
      exact ⟨hblock, hb.steady hinv hsteady⟩

end Others

/-! ## 3. Every run -/

/-- The binding was told of each refusal once. -/
def Squared (past : List Deed) : Prop :=
  ∀ k, past.countP (·.tells k) = past.countP (·.refuses k)

theorem Squared.append {past ds : List Deed} (h : Squared past) (hds : Squared ds) :
    Squared (past ++ ds) := by
  intro k
  rw [List.countP_append, List.countP_append, h k, hds k]

theorem squared_of_mute {ds : List Deed} (h : ∀ d ∈ ds, d.mute) : Squared ds := by
  intro k
  rw [countP_tells_of_mute h, countP_refuses_of_mute h]

namespace World

variable {w : World}

/-- The invariant of a world. -/
structure Sound (w : World) : Prop where
  filed : Filed w.sync.past w.file
  live : w.running → Live w.sync w.file
  squared : Squared w.sync.past

theorem sound_new (held : List String) : (new held).Sound where
  filed :=
    { numbered := fun k op hk => by simp [new, writes] at hk
      kept := fun op => by simp [new, writes]
      ordered := List.Pairwise.nil
      flight := Nat.zero_le 1
      known := fun k hk => by simp [new, Closed] at hk
      closed := fun k hk => by simp [new, Closed] at hk
      sent := fun before r k after hp => by simp [new] at hp
      final := fun before id k v after hp => by simp [new] at hp
      applied := fun k => by simp [new, writes]
      undone := fun k => by simp [new] }
  live := fun hr => by cases hr
  squared := fun k => rfl

/-- What an event that starts no sync does, answered or failed. -/
theorem call_did {s : Sync} {f : Store} (h : Inv s f) (e : Event) (he : e.starts = false) :
    Meets (From s f) e.call (fun _ => Shut (Did s)) (Shut (Did s)) := by
  have hgoing : ∀ {m : Run Sync Unit},
      Meets (From s f) m (fun _ => Shut (Going s)) (Shut (Going s)) →
      Meets (From s f) m (fun _ => Shut (Did s)) (Shut (Did s)) := fun hm =>
    hm.imp (fun _ hs => hs) (fun _ _ hs => ⟨hs.1, hs.2.did⟩) fun _ hs => ⟨hs.1, hs.2.did⟩
  have hg : Going s s f := .start h
  cases e with
  | start c => cases he
  | write w => exact hgoing (meets_write h w)
  | response id status seq a => exact meets_response h id status seq a
  | opened id status a => exact hgoing (meets_shut (meets_opened id status a) hg)
  | bytes id fs => exact hgoing (meets_shut (meets_bytes id fs) hg)
  | closed id why => exact hgoing (meets_shut (meets_closed id why) hg)
  | timer id => exact hgoing (meets_shut (meets_timer id) hg)
  | signal g => exact hgoing (meets_shut (meets_signal g) hg)
  | poll => exact hgoing (meets_shut (P := Going s) (meets_pure fun _ hs => hs) hg)

theorem Did.actions {s₀ s : Sync} {f : Store} (h : Did s₀ s f) (hands : Bool) :
    Did s₀ (if hands then s.actions.2 else s) f := by
  cases hands with
  | false => exact h
  | true => exact ⟨h.inv.quiet (quiet_actions s), h.moved.steady (quiet_actions s).steady⟩

theorem Sound.of_did (h : w.Sound) {s : Sync} {f : Store} (hd : Did w.sync s f) (b : Bool) :
    Sound ⟨f, s, b⟩ := by
  obtain ⟨ds, hp, -, hsq⟩ := hd.moved
  refine ⟨hd.inv.filed, fun _ => hd.inv.live, ?_⟩
  change Squared s.past
  rw [hp]
  exact h.squared.append hsq

theorem Sound.of_mute (h : w.Sound) {s : Sync}
    (hp : ∃ ds, s.past = w.sync.past ++ ds ∧ ∀ d ∈ ds, d.mute) : Squared s.past := by
  obtain ⟨ds, hp, hm⟩ := hp
  rw [hp]
  exact h.squared.append (squared_of_mute hm)

/-- A start over the file brings back what the sync before it held. -/
theorem Began.did {s : Sync} {f : Store} (h : w.Sound) (hrun : w.running)
    (hb : Began w.sync w.file s f) : Did w.sync s f := by
  have hsub : w.sync.queue ⊆ s.queue := by
    rw [hb.queue]
    exact (h.live hrun).queued.subset
  exact ⟨hb.inv, (Moved.refl w.sync).keep (fun _ ho => ho) hsub hb.past⟩

/-- **One step**: the invariant is kept, and a write leaves the queue of a sync that runs on exactly
when its definite answer came. -/
theorem Sound.step (h : w.Sound) (e : Event) (faults : List Bool) :
    (w.step e faults).Sound ∧
      (w.running → (w.step e faults).running → Moved w.sync (w.step e faults).sync) := by
  unfold World.step
  split
  case isFalse => exact ⟨h, fun _ _ => .refl w.sync⟩
  case isTrue hruns =>
    have hfrom : From w.sync w.file ({ sync := w.sync, file := w.file, faults } : Host Sync) :=
      ⟨rfl, rfl, rfl⟩
    rcases hcall : e.call { sync := w.sync, file := w.file, faults } with ⟨r | r, hs⟩
    all_goals
      cases hstarts : e.starts
    -- a call that failed
    case error.false =>
      have hrun : w.running := by simpa [hstarts] using hruns
      have hdid := call_did ⟨h.filed, h.live hrun⟩ e hstarts _ hfrom
      rw [hcall] at hdid
      exact ⟨h.of_did hdid.2 _, fun _ _ => hdid.2.moved⟩
    case error.true =>
      obtain ⟨c, rfl⟩ : ∃ c, e = .start c := by
        cases e with
        | start c => exact ⟨c, rfl⟩
        | _ => cases hstarts
      have hstood := meets_start c h.filed _ hfrom
      rw [show Sync.start c = (Event.start c).call from rfl, hcall] at hstood
      refine ⟨⟨hstood.2.filed, fun hr => (nomatch hr), h.of_mute hstood.2.past⟩, fun _ hr => nomatch hr⟩
    -- a call that answered
    case ok.false =>
      have hrun : w.running := by simpa [hstarts] using hruns
      have hdid := call_did ⟨h.filed, h.live hrun⟩ e hstarts _ hfrom
      rw [hcall] at hdid
      have hdid' := Did.actions hdid.2 e.hands
      exact ⟨h.of_did hdid' _, fun _ _ => hdid'.moved⟩
    case ok.true =>
      obtain ⟨c, rfl⟩ : ∃ c, e = .start c := by
        cases e with
        | start c => exact ⟨c, rfl⟩
        | _ => cases hstarts
      have hbegan := meets_start c h.filed _ hfrom
      rw [show Sync.start c = (Event.start c).call from rfl, hcall] at hbegan
      have hacts := hbegan.2.quiet (quiet_actions hs.sync)
      exact ⟨⟨hacts.inv.filed, fun _ => hacts.inv.live, h.of_mute hacts.past⟩,
        fun hrun _ => (Began.did h hrun hacts).moved⟩

theorem Sound.after (es : List (Event × List Bool)) : ∀ {w : World}, w.Sound → (w.after es).Sound := by
  induction es with
  | nil => exact fun h => h
  | cons e es ih => exact fun h => ih (h.step e.1 e.2).1

/-- **What a run leaves of the writes**, whatever happened and whatever failed. -/
structure SentOnce (w : World) : Prop where
  /-- At most one write is in flight. -/
  flight : (inFlight w.sync.past).length ≤ 1
  /-- Each request carries its write's path, body and key, after the answers to all writes made
  before it, and never once its own answer's block is in the file. -/
  sent : ∀ before r k after, w.sync.past = before ++ .act (.request r) :: after →
    r.made = some k → Sends before r k
  /-- Whatever happens next, a write leaves the queue exactly when its definite answer comes, and
  the binding is told once if that is a refusal. -/
  leaves : ∀ e faults, w.running → (w.step e faults).running → Moved w.sync (w.step e faults).sync
  /-- The queue is part of the file's, in the order the writes were made. -/
  queued : w.running → w.sync.queue.Sublist w.file.queue
  ordered : w.file.queue.Pairwise fun a b => a.made < b.made
  /-- No write is lost: it is queued until it is answered, and in the file until the block of
  its answer is. -/
  held : ∀ (k : Nat) op, (writes w.sync.past)[k]? = some op →
    (op ∈ w.file.queue ↔ ¬ Closed w.sync.past k) ∧
    (w.running → op ∈ w.sync.queue ∨ Answered w.sync.past k)
  /-- A block that closes a write is a definite answer's, and none comes after it. -/
  closed : ∀ k, Closed w.sync.past k → Answered w.sync.past k
  final : ∀ before id k v after, w.sync.past = before ++ .answered id k v :: after →
    ¬ Closed before k
  told : ∀ k, w.sync.past.countP (·.tells k) = w.sync.past.countP (·.refuses k)
  /-- The file holds the changes of a write's statements together with its queue row, and puts
  them back in the block that takes the row of a refused write. -/
  applied : ∀ k, w.file.rows.count (.applied k) =
    ((writes w.sync.past)[k]?.map fun op => op.undo.length).getD 0
  undone : ∀ k, w.file.rows.count (.undone k) =
    if .closed k .refused ∈ w.sync.past then ((writes w.sync.past)[k]?.map Op.undos).getD 0 else 0

theorem Sound.sentOnce (h : w.Sound) : w.SentOnce where
  flight := h.filed.flight
  sent := h.filed.sent
  leaves e faults := (h.step e faults).2
  queued hr := (h.live hr).queued
  ordered := h.filed.ordered.imp fun hab => hab.2
  held k op hop := by
    have hmade := h.filed.numbered k op hop
    have hkept : op ∈ w.file.queue ↔ ¬ Closed w.sync.past k := by
      rw [h.filed.kept, hmade]
      exact ⟨And.right, fun hc => ⟨List.mem_of_getElem? hop, hc⟩⟩
    refine ⟨hkept, fun hr => ?_⟩
    by_cases hc : Closed w.sync.past k
    · exact .inr (h.filed.closed k hc)
    · by_cases hq : op ∈ w.sync.queue
      · exact .inl hq
      · exact .inr (hmade ▸ (h.live hr).answered op (hkept.mpr hc) hq)
  closed := h.filed.closed
  final := h.filed.final
  told := h.squared
  applied := h.filed.applied
  undone := h.filed.undone

-- a write made while the server is there is in flight, and goes again after a 503 and its backoff
example :
    let shape : Spec := ⟨"t", [], none, none⟩
    let applied : Applied := ⟨["put t {a: 1}"], ⟨"t", [1], []⟩, "t", []⟩
    let answer (why : String) : Answer := ⟨why, {}, .ok []⟩
    let w := (new ["t"]).after
      [(.start ⟨"http://s", none, ⟨1, 2⟩, [shape]⟩, []),
       (.write ⟨true, [⟨⟨1, 2⟩, tempBase, .ok applied⟩], "put t {a: 1}"⟩, []),
       (.response 2 503 0 (answer "busy"), []), (.timer 3, [])]
    inFlight w.sync.past = [4] ∧ (w.step (.response 4 200 7 (answer "")) []).file.queue = [] := by
  decide +kernel

end World

end Fenec.Replica
