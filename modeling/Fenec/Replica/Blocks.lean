/-
# What the sync's blocks do to the file

The triples of the functions that write the file.  A block is opened over the file as it is; while
it is open the sync changes in nothing a write depends on (`Still`), and what the block holds of
the queue and of the changes of writes is known (`During`).  Wherever a statement fails, the file is
as it was (`Left`) and what is left of the block is put back.

* §1 is the states a block goes through and the statements of one, §2 the functions that run in a
  block, §3 what `finish` and `load` do, §4 the blocks of a definite answer, §5 a write's.
-/
import Fenec.Replica.Moves

namespace Fenec.Replica

open Fenec.Lib Fenec.Lib.Act

/-! ## 1. Blocks and statements -/

/-- In nothing a write depends on has the sync changed. -/
structure Still (s s' : Sync) : Prop where
  queue : s'.queue = s.queue
  nextN : s'.nextN = s.nextN
  sending : s'.sending = s.sending
  past : s'.past = s.past

theorem Still.refl (s : Sync) : Still s s := ⟨rfl, rfl, rfl, rfl⟩

theorem Still.trans {a b c : Sync} (h : Still a b) (h' : Still b c) : Still a c :=
  ⟨h'.queue.trans h.queue, h'.nextN.trans h.nextN, h'.sending.trans h.sending,
    h'.past.trans h.past⟩

theorem Still.quiet {s s' : Sync} (h : Still s s') : Quiet s s' :=
  .of_eq h.queue h.nextN h.sending h.past

/-- No block is open, over a sync and a file. -/
def From (s : Sync) (f : Store) (h : Host Sync) : Prop :=
  h.sync = s ∧ h.file = f ∧ h.block = none

/-- No block is open, over a sync and a file of a kind. -/
def Shut (P : Sync → Store → Prop) (h : Host Sync) : Prop := h.block = none ∧ P h.sync h.file

/-- The file is as it was. -/
def Left (s : Sync) (f : Store) (h : Host Sync) : Prop := Still s h.sync ∧ h.file = f

/-- The file is as it was, and the open block holds what `g` does of the writes. -/
def During (s : Sync) (f g : Store) (h : Host Sync) : Prop :=
  Left s f h ∧ ∃ b, h.block = some b ∧ Calm g b

/-- How a step ended, its answer or its failure looked at. -/
def Ended {α : Type} (Q : α → Host Sync → Prop) (R : Host Sync → Prop) :
    Except String α → Host Sync → Prop
  | .ok a => Q a
  | .error _ => R

section Statements

variable {α β : Type} {s : Sync} {f g g' : Store} {P : Sync → Store → Prop}
  {Q : α → Host Sync → Prop} {E : Host Sync → Prop}

theorem meets_from {m : Run Sync α} (h : ∀ s f, P s f → Meets (From s f) m Q E) :
    Meets (Shut P) m Q E :=
  fun hs hP => h hs.sync hs.file hP.2 hs ⟨rfl, rfl, hP.1⟩

theorem meets_shut {m : Run Sync α} (h : Meets (Shut P) m Q E) (hP : P s f) :
    Meets (From s f) m Q E :=
  fun hs hF => h hs ⟨hF.2.2, by rw [hF.1, hF.2.1]; exact hP⟩

theorem meets_get_from {k : Sync → Run Sync α} (h : Meets (From s f) (k s) Q E) :
    Meets (From s f) (Run.get >>= k) Q E := by
  intro hs hF
  have hk := h hs hF
  rw [← hF.1] at hk
  exact hk

theorem meets_modify_from {k : Sync → Sync} :
    Meets (From s f) (Run.modify k) (fun _ => From (k s) f) E :=
  fun _ hF => ⟨congrArg k hF.1, hF.2.1, hF.2.2⟩

theorem meets_result {R : Host Sync → Prop} {m : Run Sync α} {P : Host Sync → Prop}
    (h : Meets P m Q R) : Meets P (Run.result m) (Ended Q R) E := by
  intro hs hP
  have hm := h hs hP
  simp only [Run.result]
  rcases hr : m hs with ⟨e | a, hs'⟩ <;> rw [hr] at hm <;> exact hm

theorem meets_begin : Meets (From s f) Run.begin (fun _ => During s f f) E := by
  rintro hs ⟨rfl, rfl, hnone⟩
  simp only [Run.begin, hnone, Option.isSome_none]
  exact ⟨⟨.refl _, rfl⟩, hs.file, rfl, .refl _⟩

theorem meets_execute {k : Store → Store} (h : ∀ b, Calm g b → Calm g' (k b)) :
    Meets (During s f g) (Run.execute k) (fun _ => During s f g') (Left s f) := by
  rintro hs ⟨hleft, b, hb, hc⟩
  by_cases hfail : hs.faults.head?.getD false
  · simp only [Run.execute, if_pos hfail]
    exact hleft
  · simp only [Run.execute, if_neg hfail]
    exact ⟨hleft, k b, by simp [hb], h b hc⟩

theorem meets_select {k : Store → α} :
    Meets (During s f g) (Run.select k) (fun _ => During s f g) (Left s f) := by
  rintro hs ⟨hleft, b, hb, hc⟩
  by_cases hfail : hs.faults.head?.getD false
  · simp only [Run.select, if_pos hfail]
    exact hleft
  · simp only [Run.select, if_neg hfail]
    exact ⟨hleft, b, hb, hc⟩

theorem meets_parse (a : α) :
    Meets (During s f g) (Run.parse a) (fun b hs => During s f g hs ∧ b = a) (Left s f) := by
  rintro hs ⟨hleft, b, hb, hc⟩
  by_cases hfail : hs.faults.head?.getD false
  · simp only [Run.parse, Run.select, if_pos hfail]
    exact hleft
  · simp only [Run.parse, Run.select, if_neg hfail]
    exact ⟨⟨hleft, b, hb, hc⟩, trivial⟩

theorem meets_get : Meets (During s f g) Run.get (fun _ => During s f g) E :=
  fun _ hs => hs

theorem meets_get_still :
    Meets (During s f g) Run.get (fun t hs => During s f g hs ∧ Still s t) E :=
  fun _ hs => ⟨hs, hs.1.1⟩

/-- A fact about what was answered, beside the state. -/
theorem meets_and {P : Host Sync → Prop} {p : Prop} {m : Run Sync α} (h : p → Meets P m Q E) :
    Meets (fun hs => P hs ∧ p) m Q E :=
  fun hs hP => h hP.2 hs hP.1

theorem meets_modify {k : Sync → Sync} (h : ∀ s, Still s (k s)) :
    Meets (During s f g) (Run.modify k) (fun _ => During s f g) E := by
  rintro hs ⟨⟨hstill, hfile⟩, hb⟩
  exact ⟨⟨hstill.trans (h _), hfile⟩, hb⟩

/-- A commit lands what the block holds, or puts it back. -/
theorem meets_commit_shut :
    Meets (During s f g) Run.commit (fun _ => Shut fun s' f' => Still s s' ∧ Calm g f')
      (Shut fun s' f' => Still s s' ∧ f' = f) := by
  rintro hs ⟨⟨hstill, hfile⟩, b, hb, hc⟩
  by_cases hfail : hs.faults.head?.getD false
  · simp only [Run.commit, hb, if_pos hfail]
    exact ⟨rfl, hstill, hfile⟩
  · simp only [Run.commit, hb, if_neg hfail]
    exact ⟨rfl, hstill, hc⟩

theorem meets_commit :
    Meets (During s f g) Run.commit (fun _ => Shut fun s' f' => Still s s' ∧ Calm g f')
      (Left s f) :=
  meets_commit_shut.imp (fun _ hs => hs) (fun _ _ hs => hs) fun _ hs => hs.2

theorem meets_rollback :
    Meets (Left s f) Run.rollback (fun _ => Shut fun s' f' => Still s s' ∧ f' = f) E :=
  fun _ hs => ⟨rfl, hs⟩

theorem meets_ite {P : Host Sync → Prop} {c : Prop} [Decidable c] {m m' : Run Sync α}
    (h : c → Meets P m Q E) (h' : ¬ c → Meets P m' Q E) :
    Meets P (if c then m else m') Q E := by
  split
  · exact h ‹c›
  · exact h' ‹¬ c›

/-- A statement run unless there is nothing for it to do. -/
theorem meets_orSkip {c : Bool} {m : Run Sync Unit}
    (h : Meets (During s f g) m (fun _ => During s f g) E) :
    Meets (During s f g) (Run.orSkip c m) (fun _ => During s f g) E :=
  meets_ite (fun _ => meets_pure fun _ hs => hs) fun _ => h

/-- A block around what keeps its state. -/
theorem meets_inBlock {m : Run Sync Unit}
    (h : Meets (During s f f) m (fun _ => During s f g) (Left s f)) :
    Meets (From s f) (Run.inBlock m) (fun _ => Shut fun s' f' => Still s s' ∧ Calm g f')
      (Left s f) :=
  meets_bind meets_begin fun _ => meets_bind h fun _ => meets_commit

end Statements

/-! ## 2. Statements that change nothing of the writes -/

section Calms

variable {g b : Store}

theorem Calm.change {c : Change} (h : Calm g b) (ha : ∀ k, c ≠ .applied k)
    (hu : ∀ k, c ≠ .undone k) : Calm g (b.change c) where
  queue := h.queue
  applied k := by
    have hk : ¬ c = .applied k := ha k
    simp [Store.change, List.count_append, hk, h.applied k]
  undone k := by
    have hk : ¬ c = .undone k := hu k
    simp [Store.change, List.count_append, hk, h.undone k]

theorem Calm.deleted (h : Calm g b) (c : String) (ids : List Nat) :
    Calm g (b.change (.deleted c ids)) :=
  h.change (fun _ hk => nomatch hk) fun _ hk => nomatch hk

theorem Calm.wrote (h : Calm g b) (c : String) (docs : List Doc) :
    Calm g (b.change (.wrote c docs)) :=
  h.change (fun _ hk => nomatch hk) fun _ hk => nomatch hk

theorem Calm.dropped (h : Calm g b) (c : String) : Calm g (b.change (.dropped c)) :=
  h.change (fun _ hk => nomatch hk) fun _ hk => nomatch hk

theorem Calm.remade (h : Calm g b) (c : String) : Calm g (b.change (.remade c)) :=
  h.change (fun _ hk => nomatch hk) fun _ hk => nomatch hk

theorem Calm.create (h : Calm g b) (c : String) : Calm g (b.create c) := by
  have hc : Calm g (b.change (.created c)) :=
    h.change (fun _ hk => nomatch hk) fun _ hk => nomatch hk
  exact ⟨hc.queue, hc.applied, hc.undone⟩

theorem Calm.putTemp (h : Calm g b) (t : Temp) : Calm g (b.putTemp t) :=
  ⟨h.queue, h.applied, h.undone⟩

theorem Calm.delTemp (h : Calm g b) (t : Nat) : Calm g (b.delTemp t) :=
  ⟨h.queue, h.applied, h.undone⟩

theorem Calm.putShape (h : Calm g b) (r : ShapeRow) : Calm g (b.putShape r) :=
  ⟨h.queue, h.applied, h.undone⟩

theorem Calm.delOp (h : Calm g b) (n : Nat) : Calm (g.delOp n) (b.delOp n) :=
  ⟨by simp [Store.delOp, h.queue], h.applied, h.undone⟩

theorem Calm.putOp (h : Calm g b) (op : Op) : Calm (g.putOp op) (b.putOp op) :=
  ⟨by simp [Store.putOp, h.queue], h.applied, h.undone⟩

end Calms

section Running

variable {s : Sync} {f g : Store}

/-- The temporary rows deleted one by one. -/
theorem meets_delTemps (ts : List Nat) :
    Meets (During s f g) (Act.each (fun t => Run.execute (·.delTemp t)) ts)
      (fun _ => During s f g) (Left s f) :=
  meets_each fun t _ => meets_execute fun _ hc => hc.delTemp t

theorem meets_dropPassed (c : String) (cursor : Nat) :
    Meets (During s f g) (Sync.dropPassed c cursor) (fun _ => During s f g) (Left s f) := by
  unfold Sync.dropPassed
  refine meets_bind meets_get fun t => ?_
  refine meets_orSkip (meets_bind (meets_execute fun _ hc => hc.deleted c _) fun _ => ?_)
  exact meets_bind (meets_delTemps _) fun _ => meets_modify fun _ => ⟨rfl, rfl, rfl, rfl⟩

theorem meets_answerTemp (n last i : Nat) :
    Meets (During s f g) (Sync.answerTemp n last i) (fun _ => During s f g) (Left s f) := by
  unfold Sync.answerTemp
  refine meets_bind meets_get fun t => ?_
  cases t.temps[i]? with
  | none => exact meets_pure fun _ hs => hs
  | some t =>
    refine meets_ite (fun _ => ?_) fun _ => meets_pure fun _ hs => hs
    refine meets_bind (meets_modify fun _ => ⟨rfl, rfl, rfl, rfl⟩) fun _ => ?_
    exact meets_execute fun _ hc => hc.putTemp _

theorem meets_reconcile (i : Nat) (docs : List Doc) :
    Meets (During s f g) (Sync.reconcile i docs) (fun _ => During s f g) (Left s f) := by
  unfold Sync.reconcile
  refine meets_bind meets_get fun t => ?_
  refine meets_orSkip (meets_bind (meets_execute fun _ hc => hc.deleted _ _) fun _ => ?_)
  exact meets_bind (meets_delTemps _) fun _ => meets_modify fun _ => ⟨rfl, rfl, rfl, rfl⟩

theorem meets_saveShape (i : Nat) :
    Meets (During s f g) (Sync.saveShape i) (fun _ => During s f g) (Left s f) := by
  unfold Sync.saveShape
  exact meets_bind meets_get fun t => meets_execute fun _ hc => hc.putShape _

theorem meets_seedRows (i : Nat) (d : Seed) :
    Meets (During s f g) (Sync.seedRows i d) (fun _ => During s f g) (Left s f) := by
  unfold Sync.seedRows
  refine meets_bind meets_get fun t => ?_
  refine meets_bind meets_select fun held => ?_
  refine meets_bind (meets_reconcile i d.docs) fun _ => ?_
  refine meets_bind meets_get fun t' => ?_
  refine meets_bind (meets_orSkip (meets_execute fun _ hc => hc.deleted _ _)) fun _ => ?_
  refine meets_bind (meets_delTemps _) fun _ => ?_
  refine meets_bind (meets_modify fun _ => ⟨rfl, rfl, rfl, rfl⟩) fun _ => ?_
  refine meets_bind (meets_orSkip (meets_execute fun _ hc => hc.wrote _ _)) fun _ => ?_
  refine meets_bind (meets_modify fun _ => ⟨rfl, rfl, rfl, rfl⟩) fun _ => ?_
  exact meets_saveShape i

theorem meets_changeRows (i : Nat) (d : Changed) (dels : List Nat) :
    Meets (During s f g) (Sync.changeRows i d dels) (fun _ => During s f g) (Left s f) := by
  unfold Sync.changeRows
  refine meets_bind meets_get fun t => ?_
  refine meets_bind (meets_reconcile i d.docs) fun _ => ?_
  refine meets_bind (meets_orSkip (meets_execute fun _ hc => hc.deleted _ _)) fun _ => ?_
  refine meets_bind (meets_orSkip (meets_execute fun _ hc => hc.wrote _ _)) fun _ => ?_
  refine meets_bind (meets_dropPassed _ _) fun _ => ?_
  refine meets_bind (meets_modify fun _ => ⟨rfl, rfl, rfl, rfl⟩) fun _ => ?_
  exact meets_saveShape i

theorem meets_remake (c : String) :
    Meets (During s f g) (Sync.remake c) (fun _ => During s f g) (Left s f) := by
  unfold Sync.remake
  refine meets_bind meets_select fun _ => ?_
  refine meets_bind (meets_execute fun _ hc => hc.dropped c) fun _ => ?_
  refine meets_bind (meets_execute fun _ hc => hc.create c) fun _ => ?_
  exact meets_execute fun _ hc => hc.remade c

end Running

/-! ## 3. An event under way -/

/-- **An event that has settled no write**: the invariant holds, and what was queued when it began
is queued still. -/
structure Going (s₀ s : Sync) (f : Store) : Prop where
  inv : Inv s f
  moved : Moved s₀ s
  holds : s₀.queue ⊆ s.queue

section Under

variable {s₀ s s' : Sync} {f f' : Store} {E : Host Sync → Prop}

theorem Going.start (h : Inv s f) : Going s s f := ⟨h, .refl s, fun _ ho => ho⟩

theorem Going.calm (h : Going s₀ s f) (hs : Quiet s s') (hf : Calm f f') : Going s₀ s' f' :=
  ⟨h.inv.calm hs hf, h.moved.steady hs.steady, hs.queue ▸ h.holds⟩

theorem Going.quiet (h : Going s₀ s f) (hs : Quiet s s') : Going s₀ s' f := h.calm hs (.refl f)

theorem meets_quietly {k : Sync → Sync} (hk : ∀ s, Quiet s (k s)) :
    Meets (Shut (Going s₀)) (Run.modify k) (fun _ => Shut (Going s₀)) E :=
  fun _ hs => ⟨hs.1, hs.2.quiet (hk _)⟩

theorem meets_get_shut {P : Sync → Store → Prop} :
    Meets (Shut P) Run.get (fun _ => Shut P) E :=
  fun _ hs => hs

theorem meets_kicked :
    Meets (Shut (Going s₀)) Sync.kicked (fun _ => Shut (Going s₀)) E := by
  rintro hs ⟨hnone, hg⟩
  obtain ⟨hinv, hsteady⟩ := hg.inv.kick hs.file.held
  refine ⟨hnone, hinv, hg.moved.steady hsteady, ?_⟩
  change s₀.queue ⊆ (hs.sync.kick _).queue
  rw [hsteady.queue]
  exact hg.holds

/-- A queue in the order of its numbers is read as it is, and the next number is past them all. -/
theorem Filed.takeQueue {past : List Deed} (h : Filed past f) (s : Sync) :
    (s.takeQueue f.queue).queue = f.queue ∧ ∀ op ∈ f.queue, op.n < (s.takeQueue f.queue).nextN := by
  have hsort : f.queue.mergeSort (fun a b => decide (a.n ≤ b.n)) = f.queue := by
    refine List.mergeSort_of_pairwise (h.ordered.imp ?_)
    intro a b hab
    exact decide_eq_true (Nat.le_of_lt hab.1)
  refine ⟨hsort, fun op hop => ?_⟩
  simp only [Sync.takeQueue, hsort]
  cases hl : f.queue.getLast? with
  | none =>
    rw [List.getLast?_eq_none_iff] at hl
    rw [hl] at hop
    cases hop
  | some last =>
    obtain ⟨init, hi⟩ := List.getLast?_eq_some_iff.mp hl
    have hord := h.ordered
    rw [hi] at hord hop
    rcases List.mem_append.mp hop with hop | hop
    · have := ((List.pairwise_append.mp hord).2.2 op hop last (List.mem_singleton_self last)).1
      exact Nat.lt_succ_of_lt this
    · rw [List.mem_singleton.mp hop]
      exact Nat.lt_succ_self last.n

/-- The queue read again brings back what the sync held, and what its answers' blocks left. -/
theorem Going.takeQueue (h : Going s₀ s f) : Going s₀ (s.takeQueue f.queue) f := by
  obtain ⟨hq, hn⟩ := h.inv.filed.takeQueue s
  have hsub : s₀.queue ⊆ (s.takeQueue f.queue).queue := by
    rw [hq]
    exact fun op hop => h.inv.live.queued.subset (h.holds hop)
  refine ⟨Inv.reload h.inv.filed rfl hq hn h.inv.live.flight ?_, ?_, hsub⟩
  · intro w hw
    obtain ⟨op, hop, he⟩ := h.inv.live.sending w hw
    exact ⟨op, h.inv.live.queued.subset hop, he⟩
  · exact h.moved.keep h.holds hsub ⟨[], by simp [Sync.takeQueue], by simp⟩

/-- A read of the file outside a block. -/
theorem meets_read {α : Type} {k : Store → α} {P : Sync → Store → Prop} :
    Meets (Shut P) (Run.select k) (fun a hs => Shut P hs ∧ a = k hs.file) (Shut P) := by
  rintro hs ⟨hnone, hP⟩
  by_cases hfail : hs.faults.head?.getD false
  · simp only [Run.select, if_pos hfail]
    exact ⟨hnone, hP⟩
  · simp only [Run.select, if_neg hfail]
    exact ⟨⟨hnone, hP⟩, by rw [hnone]; rfl⟩

/-- **`load` keeps the invariant**, wherever it stops. -/
theorem meets_load :
    Meets (Shut (Going s₀)) Sync.load (fun _ => Shut (Going s₀)) (Shut (Going s₀)) := by
  unfold Sync.load
  refine meets_bind meets_read fun rows => ?_
  refine meets_bind (m := Run.modify (Sync.takeShapes rows)) (Q := fun _ => Shut (Going s₀)) ?_
    fun _ => ?_
  · exact fun hs h => ⟨h.1.1, h.1.2.quiet (.of_eq rfl rfl rfl rfl)⟩
  refine meets_bind meets_read fun ops => ?_
  refine meets_bind (m := Run.modify (Sync.takeQueue ops)) (Q := fun _ => Shut (Going s₀)) ?_
    fun _ => ?_
  · rintro hs ⟨⟨hnone, hg⟩, rfl⟩
    exact ⟨hnone, hg.takeQueue⟩
  refine meets_bind meets_read fun temps => ?_
  exact fun hs h => ⟨h.1.1, h.1.2.quiet (.of_eq rfl rfl rfl rfl)⟩

/-- The file is as it was: the event goes on as before. -/
theorem Going.left (h : Going s₀ s f) {hs : Host Sync} (hl : Left s f hs) :
    Going s₀ hs.sync hs.file := by
  rw [hl.2]
  exact h.quiet hl.1.quiet

/-- A block put back. -/
theorem meets_rollback_going (h : Going s₀ s f) :
    Meets (Left s f) Run.rollback (fun _ => Shut (Going s₀)) E :=
  fun _ hl => ⟨rfl, h.left hl⟩

/-- **`finish`**: the block of a stream's rows landed, or the sync read from the file again. -/
theorem meets_finish (h : Going s₀ s f) (r : Except String Unit) :
    Meets (Ended (fun _ => During s f f) (Left s f) r) (Sync.finish r)
      (fun _ => Shut (Going s₀)) (Shut (Going s₀)) := by
  have hcommit :
      Meets (Ended (fun _ => During s f f) (Left s f) r) (Act.lift r >>= fun _ => Run.commit)
        (fun _ => Shut fun s' f' => Still s s' ∧ Calm f f') (Left s f) := by
    cases r with
    | ok a => exact meets_bind (Q := fun _ => During s f f) (fun _ hs => hs) fun _ => meets_commit
    | error e => exact fun _ hs => hs
  unfold Sync.finish
  refine meets_bind (meets_result hcommit) fun r' => ?_
  cases r' with
  | ok a =>
    rintro hs ⟨hnone, hstill, hcalm⟩
    refine ⟨hnone, (h.calm hstill.quiet hcalm).quiet ?_⟩
    exact (quiet_once _ rfl).trans (quiet_once _ rfl)
  | error e =>
    refine meets_bind (meets_rollback_going h) fun _ => ?_
    refine meets_bind (Q := fun _ => Shut (Going s₀)) ?_ fun _ => meets_fail fun _ hs => hs
    refine (meets_result meets_load).imp (fun _ hs => hs) (fun r hs hr => ?_) fun _ hs => hs
    cases r with
    | ok _ => exact hr
    | error _ => exact hr

theorem meets_lift_shut {α : Type} {P : Host Sync → Prop} (r : Except String α) :
    Meets P (Act.lift r) (fun _ => P) P :=
  meets_lift (fun _ _ _ hs => hs) fun _ hs => hs

/-- A block of rows and its end. -/
theorem meets_rows {m : Run Sync Unit}
    (hm : ∀ s f, Meets (During s f f) m (fun _ => During s f f) (Left s f)) :
    Meets (Shut (Going s₀)) (Run.begin >>= fun _ => Run.result m >>= Sync.finish)
      (fun _ => Shut (Going s₀)) (Shut (Going s₀)) := by
  refine meets_from fun s f hg => ?_
  refine meets_bind meets_begin fun _ => ?_
  exact meets_bind (meets_result (hm s f)) fun r => meets_finish hg r

theorem meets_seed (i : Nat) (d : Except String Seed) :
    Meets (Shut (Going s₀)) (Sync.seed i d) (fun _ => Shut (Going s₀)) (Shut (Going s₀)) := by
  unfold Sync.seed
  refine meets_bind (meets_lift_shut d) fun d => ?_
  refine meets_ite (fun _ => ?_) fun _ => meets_quietly fun s => quiet_refresh s i
  exact meets_rows fun s f => meets_seedRows i d

theorem meets_change (i : Nat) (d : Except String Changed) :
    Meets (Shut (Going s₀)) (Sync.change i d) (fun _ => Shut (Going s₀)) (Shut (Going s₀)) := by
  unfold Sync.change
  refine meets_bind (meets_lift_shut d) fun d => ?_
  refine meets_ite (fun _ => meets_quietly fun s => quiet_refresh s i) fun _ => ?_
  refine meets_bind (meets_lift_shut d.dels) fun dels => ?_
  exact meets_rows fun s f => meets_changeRows i d dels

theorem meets_makeCollections (all : Except String (List (String × Except String Unit))) :
    Meets (Shut (Going s₀)) (Sync.makeCollections all) (fun _ => Shut (Going s₀))
      (Shut (Going s₀)) := by
  unfold Sync.makeCollections
  refine meets_bind (meets_lift_shut all) fun all => ?_
  refine meets_bind (Q := fun _ => Shut (Going s₀)) (fun _ hs => hs) fun h => ?_
  refine meets_bind (meets_lift_shut _) fun ddl => ?_
  refine meets_from fun s f hg => ?_
  refine meets_bind meets_begin fun _ => ?_
  have hblock : Meets (During s f f)
      (Act.each (fun c : String × Bool =>
        if c.2 then Sync.remake c.1 else Run.execute (·.create c.1)) ddl >>= fun _ => Run.commit)
      (fun _ => Shut fun s' f' => Still s s' ∧ Calm f f') (Left s f) := by
    refine meets_bind (meets_each fun c _ => ?_) fun _ => meets_commit
    exact meets_ite (fun _ => meets_remake c.1) fun _ => meets_execute fun _ hc => hc.create c.1
  refine meets_bind (meets_result hblock) fun r => ?_
  cases r with
  | ok a => exact fun hs h => ⟨h.1, hg.calm h.2.1.quiet h.2.2⟩
  | error e => exact meets_bind (meets_rollback_going hg) fun _ => meets_fail fun _ hs => hs

theorem meets_onSchemas (status : Nat) (a : Answer) :
    Meets (Shut (Going s₀)) (Sync.onSchemas status a) (fun _ => Shut (Going s₀))
      (Shut (Going s₀)) := by
  unfold Sync.onSchemas
  refine meets_ite (fun _ => ?_) fun _ => meets_ite (fun _ => ?_) fun _ => ?_
  · refine meets_bind (meets_result (meets_makeCollections a.collections)) fun r => ?_
    cases r with
    | ok _ => exact meets_quietly fun s => .of_eq rfl rfl rfl rfl
    | error e => exact meets_quietly fun s => (quiet_failed ..).trans (quiet_retrySchemas ..)
  · exact meets_quietly quiet_wantToken
  · exact meets_quietly fun s => (quiet_faultNaming ..).trans (quiet_retrySchemas ..)

end Under

/-! ## 4. The blocks of a definite answer -/

section Answers

variable {s : Sync} {f g : Store} {E : Host Sync → Prop}

/-- The block of a write that landed: its queue row leaves the file. -/
theorem meets_land (n last : Nat) :
    Meets (From s f) (Sync.land n last)
      (fun _ => Shut fun s' f' => Still s s' ∧ Calm (f.delOp n) f') (Left s f) := by
  refine meets_inBlock ?_
  refine meets_bind (meets_execute fun _ hc => hc.delOp n) fun _ => ?_
  refine meets_bind meets_get fun t => ?_
  refine meets_bind (meets_each fun i _ => meets_answerTemp n last i) fun _ => ?_
  refine meets_bind meets_get fun t => ?_
  exact meets_each fun x _ => meets_dropPassed x.collection x.cursor

/-- A file with so many more statements of a kind. -/
def Store.adding (f : Store) (c : Change) (m : Nat) : Store :=
  { f with rows := f.rows ++ List.replicate m c }

theorem Calm.adding {b : Store} {c : Change} {m : Nat} (h : Calm (g.adding c m) b) :
    Calm (g.adding c (m + 1)) (b.change c) where
  queue := h.queue
  applied k := by
    have hk := h.applied k
    simp only [Store.adding, Store.change, List.count_append, List.replicate_succ'] at hk ⊢
    omega
  undone k := by
    have hk := h.undone k
    simp only [Store.adding, Store.change, List.count_append, List.replicate_succ'] at hk ⊢
    omega

theorem meets_undoStep (made m : Nat) (u : Undo) :
    Meets (During s f (g.adding (.undone made) m)) (Sync.undoStep made u)
      (fun _ => During s f (g.adding (.undone made) (m + u.statements))) (Left s f) := by
  have hone : ∀ (c : Bool) (m : Nat),
      Meets (During s f (g.adding (.undone made) m))
        (Run.orSkip c (Run.execute (·.change (.undone made))))
        (fun _ => During s f (g.adding (.undone made) (m + if c then 0 else 1))) (Left s f) := by
    intro c m
    cases c with
    | true => exact meets_pure fun _ hs => hs
    | false => exact meets_execute fun _ hc => hc.adding
  unfold Sync.undoStep
  refine meets_bind (hone _ m) fun _ => ?_
  refine meets_bind meets_select fun _ => ?_
  rw [Undo.statements, ← Nat.add_assoc]
  exact hone _ _

theorem meets_undoSteps (made : Nat) :
    ∀ (us : List Undo) (m : Nat),
      Meets (During s f (g.adding (.undone made) m)) (Act.each (Sync.undoStep made) us)
        (fun _ => During s f (g.adding (.undone made) (m + (us.map Undo.statements).sum)))
        (Left s f) := by
  intro us
  induction us with
  | nil => exact fun m => meets_pure fun _ hs => hs
  | cons u us ih =>
    intro m
    refine meets_bind (meets_undoStep made m u) fun _ => ?_
    rw [List.map_cons, List.sum_cons, ← Nat.add_assoc]
    exact ih (m + u.statements)

/-- The block of a write that was refused: its changes are put back and its queue row leaves. -/
theorem meets_putBack (op : Op) (n : Nat) :
    Meets (From s f) (Sync.putBack op n)
      (fun _ => Shut fun s' f' =>
        Still s s' ∧ Calm ((f.adding (.undone op.made) op.undos).delOp n) f') (Left s f) := by
  refine meets_inBlock ?_
  refine meets_bind (meets_parse op.undo) fun steps => meets_and fun hsteps => ?_
  subst hsteps
  have hzero : f = f.adding (.undone op.made) 0 := by simp [Store.adding]
  have hundos : 0 + (op.undo.reverse.map Undo.statements).sum = op.undos := by
    rw [Nat.zero_add, List.map_reverse, List.sum_reverse]
    rfl
  have hback := meets_undoSteps (s := s) (f := f) (g := f) op.made op.undo.reverse 0
  rw [← hzero, hundos] at hback
  refine meets_bind hback fun _ => ?_
  refine meets_bind (meets_execute fun _ hc => hc.delOp n) fun _ => ?_
  exact meets_bind meets_get fun t => meets_delTemps _

/-- How a definite answer's block ended: closed in the file, or put back. -/
def Settled (s : Sync) (f g : Store) (made : Nat) (v : Verdict) (s' : Sync) (f' : Store) : Prop :=
  (Still (s.note (.closed made v)) s' ∧ Calm g f') ∨ (Quiet s s' ∧ f' = f)

theorem meets_settle (made : Nat) (v : Verdict) (words : String → String)
    (r : Except String Unit) :
    Meets (Ended (fun _ => Shut fun s' f' => Still s s' ∧ Calm g f') (Left s f) r)
      (Sync.settle made v words r) (fun _ => Shut (Settled s f g made v)) E := by
  cases r with
  | ok a =>
    rintro hs ⟨hnone, hstill, hcalm⟩
    exact ⟨hnone, .inl ⟨⟨hstill.queue, hstill.nextN, hstill.sending,
      congrArg (· ++ [_]) hstill.past⟩, hcalm⟩⟩
  | error e =>
    refine meets_bind meets_rollback fun _ => ?_
    rintro hs ⟨hnone, hstill, hfile⟩
    exact ⟨hnone, .inr ⟨hstill.quiet.trans (quiet_failed ..), hfile⟩⟩

/-- A queue in order without one number, erased or filtered. -/
theorem eraseP_eq_filter {q : List Op} (hq : q.Pairwise Op.before) (n : Nat) :
    q.eraseP (fun o => decide (o.n = n)) = q.filter fun o => decide (o.n ≠ n) := by
  induction q with
  | nil => rfl
  | cons c q ih =>
    obtain ⟨hc, hq⟩ := List.pairwise_cons.mp hq
    by_cases hn : c.n = n
    · have hrest : q.filter (fun o => decide (o.n ≠ n)) = q := by
        refine List.filter_eq_self.mpr fun o ho => ?_
        have := (hc o ho).1
        exact decide_eq_true (by omega)
      rw [List.eraseP_cons_of_pos (by simpa using hn), List.filter_cons_of_neg (by simpa using hn),
        hrest]
    · rw [List.eraseP_cons_of_neg (by simpa using hn), List.filter_cons_of_pos (by simpa using hn),
        ih hq]

/-- The sync without a write. -/
def Sync.without (s : Sync) (n : Nat) : Sync :=
  { s with queue := s.queue.filter fun o => o.n ≠ n }

/-- A file that closed a write: without its queue row, its changes put back if it was refused. -/
def Store.closing (f : Store) (op : Op) : Verdict → Store
  | .refused => (f.adding (.undone op.made) op.undos).delOp op.n
  | _ => f.delOp op.n

/-- **The invariant after a definite answer**, whether its block landed or was put back. -/
theorem Inv.settled (h : Inv s f) {op : Op} {v : Verdict} (hop : op ∈ s.queue)
    (ha : Answered s.past op.made) (hnone : s.sending = none) {s' : Sync} {f' : Store}
    (hs : Settled (s.without op.n) f (f.closing op v) op.made v s' f') : Inv s' f' := by
  have hdrop : Inv (s.without op.n) f := h.drop hop ha hnone
  rcases hs with ⟨hstill, hcalm⟩ | ⟨hquiet, rfl⟩
  · have hno : op ∉ (s.without op.n).queue := by simp [Sync.without]
    have hclose : Inv ((s.without op.n).note (.closed op.made v)) (f.closing op v) := by
      refine hdrop.close (h.live.queued.subset hop) hno ha ?_ ?_ ?_
      · cases v <;> rfl
      · intro k
        cases v <;> simp [Store.closing, Store.delOp, Store.adding, List.count_append,
          List.count_replicate]
      · intro k
        by_cases hk : k = op.made
        · subst hk
          cases v <;> simp [Store.closing, Store.delOp, Store.adding, List.count_append]
        · have hk' : ¬ op.made = k := fun he => hk he.symm
          cases v <;> simp [Store.closing, Store.delOp, Store.adding, List.count_append,
            List.count_replicate, hk, hk']
    exact hclose.calm hstill.quiet hcalm
  · exact hdrop.quiet hquiet

/-- What a settled answer leaves of the queue and adds to the history. -/
theorem Settled.steady {made : Nat} {v : Verdict} {s' : Sync} {f' : Store}
    (hs : Settled s f g made v s' f') : Steady s s' := by
  rcases hs with ⟨hstill, -⟩ | ⟨hquiet, -⟩
  · exact ⟨hstill.queue, [.closed made v], hstill.past, by simp [Deed.mute]⟩
  · exact hquiet.steady

end Answers

/-! ## 5. A write's block -/

section Writes

variable {s₀ s : Sync} {f g : Store} {E : Host Sync → Prop}

theorem meets_applyAll (made : Nat) :
    ∀ (os : List Outcome) (m : Nat),
      Meets (During s f (g.adding (.applied made) m)) (Sync.applyAll made os)
        (fun as => During s f (g.adding (.applied made) (m + as.length))) (Left s f) := by
  intro os
  induction os with
  | nil => exact fun m => meets_pure fun _ hs => hs
  | cons o os ih =>
    intro m
    refine meets_bind (meets_modify fun _ => ⟨rfl, rfl, rfl, rfl⟩) fun _ => ?_
    refine meets_bind (Q := fun _ => During s f (g.adding (.applied made) m))
      (meets_lift (fun _ _ _ hs => hs) fun _ hs => hs.1) fun a => ?_
    refine meets_bind (meets_execute fun _ hc => hc.adding) fun _ => ?_
    refine meets_bind (ih (m + 1)) fun as => ?_
    refine meets_pure fun hs hd => ?_
    rw [List.length_cons, Nat.add_comm as.length, ← Nat.add_assoc]
    exact hd

theorem meets_save (op : Op) (temps : List Temp) :
    Meets (During s f g) (Sync.save op temps)
      (fun _ => Shut fun s' f' => Still s s' ∧ Calm (g.putOp op) f') (Left s f) := by
  unfold Sync.save
  refine meets_bind (meets_execute fun _ hc => hc.putOp op) fun _ => ?_
  refine meets_bind (meets_each fun t _ => meets_execute fun _ hc => hc.putTemp t) fun _ => ?_
  exact meets_commit

theorem meets_giveUp (h : Going s₀ s f) (temp0 : Nat) (e : String)
    {Q : Unit → Host Sync → Prop} :
    Meets (Left s f) (Sync.giveUp temp0 e) Q (Shut (Going s₀)) := by
  unfold Sync.giveUp
  refine meets_bind (meets_rollback_going h) fun _ => ?_
  refine meets_bind (meets_quietly fun s => .of_eq rfl rfl rfl rfl) fun _ => ?_
  exact meets_fail fun _ hs => hs

end Writes

end Fenec.Replica
