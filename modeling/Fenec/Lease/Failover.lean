/-
# A node failed over has stopped writing

The safety of failover over every run of the system.  When the router confirms a node's lapse the
node refuses every write, and it goes on refusing whatever grants sent before are still read,
until it answers one sent after.  So no two nodes ever both allow writes to one tenant, where
tenants are placed elsewhere only after a lapse was confirmed and later lists leave them out.

* §1 is the lapse: past the lease a node is counted by, it holds none and every grant on its way
  to it is spent, and a grant spent stays spent along every step.
* §2 is the node that stays quiet, §3 the tenants that are fenced off from a node.
* §4 is the result, and a run in which it fails: a node answers grants of two router processes at
  one reading of its clock, mistakes a late grant of the earlier one for newer, and runs that
  process's longer lease while the later one counts by its own.
-/
import Fenec.Lease.Fencing

namespace Fenec.Lease

open Fenec.Lib

namespace System

variable {s : System} {led old : Nat}

/-! ## 1. A lapse -/

/-- **A lapse judged past the lease a node is counted by**: the node holds none, and every grant
on its way to it is spent. -/
theorem Inv.lapsed (h : s.Inv led old) {n : String} {x : Held} (hx : s.router.nodes n = some x)
    (hf : s.router.following = false) (hlt : x.acked + s.router.termOf x < s.clock) :
    (s.nodes n).Lapsed (Moment.now s.clock) ∧ ∀ g ∈ s.grants, g.node = n → s.Spent g := by
  have hcap : millis s.cap ≤ s.router.term :=
    (Nat.mul_le_mul_right _ (min_le_left _ _)).trans (Nat.div_mul_le_self _ _)
  have hti := h.term_le
  have hterm : s.router.term ≤ s.router.termOf x := by
    unfold Leases.termOf
    split
    · exact Nat.le_refl _
    · exact hti
  have hown : x.acked + millis s.cap ≤ s.clock := by omega
  have hrun : ∀ u, s.OwnUntil n u → u ≤ Moment.now s.clock := by
    rintro u ⟨x', hx', hu⟩
    rw [hx] at hx'
    obtain rfl := Option.some.inj hx'
    exact hu.trans (Moment.now_mono hown)
  have hspent : ∀ g ∈ s.grants, g.node = n → g.process = s.process → s.Spent g := by
    intro g hg hgn hp t ht
    obtain ⟨hms, x', hx', hle⟩ := h.own_grant g hg hp
    rw [hgn, hx] at hx'
    obtain rfl := Option.some.inj hx'
    exact .inl ((Nat.add_le_add (hle t ht) (Nat.mul_le_mul_right _ hms)).trans hown)
  cases ho : x.own with
  | true =>
    have hset := h.settled n (.inl ⟨x, hx, ho⟩)
    refine ⟨fun u hu => (hset.runs u hu).elim (fun h => h) (hrun u), fun g hg hgn => ?_⟩
    rcases Nat.lt_or_eq_of_le (h.sent_le _ _ _ (h.grant_sent g hg)) with hp | hp
    · exact hset.spent g hg hgn hp
    · exact hspent g hg hgn hp
  | false =>
    -- counted by the longest lease recorded, which bounds every earlier one
    have hi : s.router.termOf x = s.router.inherited := by simp [Leases.termOf, ho]
    have hst := h.acked_led hf n x hx
    have hold : max old s.clock = s.clock := by
      rcases h.old_led hf with hle | hle
      · exact max_eq_right (by omega)
      · exact max_eq_right hle
    refine ⟨fun u hu => ?_, fun g hg hgn => ?_⟩
    · rcases h.runs n u hu with hle | hle
      · rwa [hold] at hle
      · exact hrun u hle
    · rcases Nat.lt_or_eq_of_le (h.sent_le _ _ _ (h.grant_sent g hg)) with hp | hp
      · intro t ht
        have hle := (h.old_grant g hg hp t ht).2
        rw [hold] at hle
        exact .inl hle
      · exact hspent g hg hgn hp

/-- What a step changes of the nodes and of the grants on their way. -/
theorem step_cases {e : Event} {s' : System} (hs : s.step e = some s') :
    (∃ d, e = .tick d ∧ s' = { s with clock := s.clock + d }) ∨
    (∃ i, e = .read i ∧ s.read i = some s') ∨
    (∃ n w f, e = .send n w f ∧ s.send n w f = some s') ∨
    (∃ n, e = .restartNode n ∧ s' = { s with nodes := Function.update s.nodes n {} }) ∨
    (s'.nodes = s.nodes ∧ s'.sent = s.sent ∧ s'.clock = s.clock ∧ s'.grants = s.grants) := by
  cases e with
  | tick d => exact .inl ⟨d, rfl, (Option.some.inj hs).symm⟩
  | read i => exact .inr (.inl ⟨i, rfl, hs⟩)
  | send n w f => exact .inr (.inr (.inl ⟨n, w, f, rfl, hs⟩))
  | restartNode n => exact .inr (.inr (.inr (.inl ⟨n, rfl, (Option.some.inj hs).symm⟩)))
  | restart | lead | know | suspect | release =>
    obtain rfl := Option.some.inj hs
    exact .inr (.inr (.inr (.inr ⟨rfl, rfl, rfl, rfl⟩)))
  | promote | lower | confirm | failOver | withhold | create =>
    obtain ⟨-, hs⟩ := Option.ite_none_right_eq_some.mp hs
    obtain rfl := Option.some.inj hs
    exact .inr (.inr (.inr (.inr ⟨rfl, rfl, rfl, rfl⟩)))
  | grant n list writes =>
    obtain ⟨b, term, row, -, -, -, -, rfl⟩ := takeTurn_eq hs
    exact .inr (.inr (.inr (.inr ⟨rfl, rfl, rfl, rfl⟩)))
  | hear n i fresh =>
    obtain ⟨ms, list, r, -, -, -, rfl⟩ := hear_eq hs
    exact .inr (.inr (.inr (.inr ⟨rfl, rfl, rfl, rfl⟩)))
  | giveUp n fresh =>
    simp only [System.step, System.giveUp] at hs
    split at hs
    · obtain rfl := Option.some.inj hs
      exact .inr (.inr (.inr (.inr ⟨rfl, rfl, rfl, rfl⟩)))
    · simp at hs
  | finish n =>
    simp only [System.step, System.finish] at hs
    split at hs
    · obtain rfl := Option.some.inj hs
      exact .inr (.inr (.inr (.inr ⟨rfl, rfl, rfl, rfl⟩)))
    · simp at hs

/-- **A grant spent stays spent** along every step. -/
theorem Spent.step (hn : s.Numbers) {e : Event} {s' : System} (htold : s.Told e)
    (hs : s.step e = some s') {g : Grant} (hg : g ∈ s.grants) (h : s.Spent g) : s'.Spent g := by
  rcases step_cases hs with ⟨d, -, rfl⟩ | ⟨i, rfl, hs⟩ | ⟨n, w, f, -, hs⟩ | ⟨n, -, rfl⟩ | hsame
  · exact fun t ht => (h t ht).imp_left fun hle => Nat.le_add_right_of_le hle
  · obtain ⟨g0, st, said, hi, hr, rfl⟩ := read_eq hs
    exact Spent.read hn hi (htold i rfl g0 hi) hr hg h
  · obtain ⟨ms, list, x, -, -, hk, rfl⟩ := send_eq hs
    exact Spent.sentTo hk h
  · exact h.restartNode n
  · obtain ⟨h1, h2, h3, -⟩ := hsame
    intro t ht
    unfold Runs at ht
    unfold Beaten
    rw [h1] at ht ⊢
    rw [h2, h3]
    exact h t ht

theorem lapsed_mono {st : State} {t t' : Nat} (h : st.Lapsed t) (ht : t ≤ t') : st.Lapsed t' :=
  fun u hu => (h u hu).trans ht

/-- Grants on their way after a step were on their way before, or were just sent, to a node
whose turn it was, over the turn's list. -/
theorem mem_grants_step {e : Event} {s' : System} (hs : s.step e = some s') {g : Grant}
    (hg : g ∈ s'.grants) : g ∈ s.grants ∨ (s.sent g.node g.numbered.grant = none ∧
      ∃ t, s.turns g.node = some t ∧ t.list = g.list) := by
  rcases step_cases hs with ⟨d, -, rfl⟩ | ⟨i, -, hs⟩ | ⟨n, w, f, -, hs⟩ | ⟨n, -, rfl⟩ | hsame
  · exact .inl hg
  · obtain ⟨g0, st, said, -, -, rfl⟩ := read_eq hs
    exact .inl (List.mem_of_mem_eraseIdx hg)
  · obtain ⟨ms, list, x, -, ht, hk, rfl⟩ := send_eq hs
    rcases List.mem_append.mp hg with hg | hg
    · exact .inl hg
    · obtain rfl := List.mem_singleton.mp hg
      exact .inr ⟨hk, _, ht, rfl⟩
  · exact .inl hg
  · rw [hsame.2.2.2] at hg
    exact .inl hg

/-- Numbers sent stay sent. -/
theorem sent_step {e : Event} {s' : System} (hs : s.step e = some s') {n : String} {k : UInt64}
    (hk : (s.sent n k).isSome) : (s'.sent n k).isSome := by
  rcases step_cases hs with ⟨d, -, rfl⟩ | ⟨i, -, hs⟩ | ⟨m, w, f, -, hs⟩ | ⟨m, -, rfl⟩ | hsame
  · exact hk
  · obtain ⟨g0, st, said, -, -, rfl⟩ := read_eq hs
    exact hk
  · obtain ⟨ms, list, x, -, -, hnone, rfl⟩ := send_eq hs
    obtain ⟨p, hp⟩ := Option.isSome_iff_exists.mp hk
    exact Option.isSome_iff_exists.mpr ⟨p, sentTo_of_some hnone hp⟩
  · exact hk
  · rw [hsame.2.1]
    exact hk

/-! ## 2. A node that stays quiet -/

/-- Every grant `node` reads in the event was sent it by `before`. -/
def SentBefore (before : System) (node : String) (s : System) (e : Event) : Prop :=
  ∀ i ∈ e.reads, ∀ g ∈ s.grants[i]?, g.node = node →
    (before.sent node g.numbered.grant).isSome

instance (before : System) (node : String) : DecidableRel (SentBefore before node) := fun s e =>
  inferInstanceAs (Decidable (∀ i ∈ e.reads, ∀ g ∈ s.grants[i]?, _))

/-- The node holds no lease, and every grant sent it by `before` is spent. -/
structure Quiet (before : System) (node : String) (s : System) : Prop where
  inv : ∃ led old, s.Inv led old
  lapsed : (s.nodes node).Lapsed (Moment.now s.clock)
  sent : ∀ k, (before.sent node k).isSome → (s.sent node k).isSome
  spent : ∀ g ∈ s.grants, g.node = node → (before.sent node g.numbered.grant).isSome → s.Spent g

/-- Reading grants sent before leaves a quiet node quiet. -/
theorem Quiet.step {before : System} {n : String} (h : Quiet before n s) {e : Event}
    {s' : System} (htold : s.Told e) (hb : SentBefore before n s e) (hs : s.step e = some s') :
    Quiet before n s' := by
  obtain ⟨led, old, hinv⟩ := h.inv
  refine ⟨hinv.step htold hs, ?_, fun k hk => sent_step hs (h.sent k hk), ?_⟩
  · rcases step_cases hs with ⟨d, -, rfl⟩ | ⟨i, rfl, hs⟩ | ⟨m, w, f, -, hs⟩ | ⟨m, -, rfl⟩ | hsame
    · exact lapsed_mono h.lapsed (now_le_now_add _ _)
    · obtain ⟨g, st, said, hi, hr, rfl⟩ := read_eq hs
      by_cases hn : n = g.node
      · subst hn
        have hnode : (s.afterRead i g st said).nodes g.node = st := by simp [afterRead]
        rw [hnode]
        have hsp := h.spent g (List.mem_of_getElem? hi) rfl (hb i rfl g hi rfl)
        rcases Spent.runs_read (htold i rfl g hi) hsp hr with hsame | hl
        · intro u hu
          rw [hsame] at hu
          exact h.lapsed u hu
        · exact hl
      · have hnode : (s.afterRead i g st said).nodes n = s.nodes n := by simp [afterRead, hn]
        rw [hnode]
        exact h.lapsed
    · obtain ⟨ms, list, x, -, -, -, rfl⟩ := send_eq hs
      exact h.lapsed
    · by_cases hm : n = m
      · subst hm
        intro u hu
        simp at hu
      · simpa [hm] using h.lapsed
    · rw [hsame.1, hsame.2.2.1]
      exact h.lapsed
  · intro g hg hgn hgb
    rcases mem_grants_step hs hg with hg | ⟨hnone, -⟩
    · exact Spent.step hinv.toNumbers htold hs hg (h.spent g hg hgn hgb)
    · have hsome := h.sent _ hgb
      rw [← hgn, hnone] at hsome
      simp at hsome

/-! ## 3. Tenants fenced off -/

/-- The directory places the tenant elsewhere, or it is withheld from the node. -/
def Away (s : System) (n x : String) : Prop :=
  s.place x ≠ some n ∨ s.router.withheld n x ≠ none

/-- The tenant is fenced off from the node: it takes no write to it, and every grant on its way
that names it is spent. -/
structure Fenced (s : System) (n x : String) : Prop where
  spent : ∀ g ∈ s.grants, g.node = n → x ∈ g.list → s.Spent g
  list : ¬ (s.nodes n).Lapsed (Moment.now s.clock) → x ∉ (s.nodes n).primaries
  turn : ∀ t, s.turns n = some t → x ∉ t.list

theorem withheld_recordAnswer {n m x : String} {k : UInt64} {list : List String}
    {answer : Answer} {ran : Bool} {fresh : UInt64}
    (h : (s.recordAnswer n k list answer ran fresh).withheld m x ≠ none) :
    s.router.withheld m x ≠ none := by
  have ha : (s.router.answered n k (epochOf list) answer s.clock fresh).2.withheld m x ≠ none := by
    unfold recordAnswer at h
    cases ran <;> exact h
  unfold Leases.answered at ha
  cases answer with
  | taken | kept =>
    simp only at ha
    split at ha
    · simp only [Function.update_apply] at ha
      split at ha
      · simp at ha
      · exact ha
    · exact ha
  | needsList | refuses | superseded | unfenced | silent => exact ha

/-- A turn a step leaves goes over the list it went over, or over one that leaves out every tenant
away from the node. -/
theorem turns_step {e : Event} {s' : System} (hs : s.step e = some s') {n : String} {t : Turn}
    (ht : s'.turns n = some t) :
    (∃ t0, s.turns n = some t0 ∧ t0.list = t.list) ∨ s'.Names n t.list := by
  cases e with
  | tick | lead | know | restartNode | suspect | release =>
    obtain rfl := Option.some.inj hs
    exact .inl ⟨t, ht, rfl⟩
  | restart =>
    obtain rfl := Option.some.inj hs
    simp [takeOver] at ht
  | promote =>
    obtain ⟨-, hs⟩ := Option.ite_none_right_eq_some.mp hs
    obtain rfl := Option.some.inj hs
    simp [takeOver] at ht
  | lower | confirm | failOver | withhold | create =>
    obtain ⟨-, hs⟩ := Option.ite_none_right_eq_some.mp hs
    obtain rfl := Option.some.inj hs
    exact .inl ⟨t, ht, rfl⟩
  | read i =>
    obtain ⟨g, st, said, -, -, rfl⟩ := read_eq hs
    exact .inl ⟨t, ht, rfl⟩
  | grant m list writes =>
    obtain ⟨b, term, row, -, -, -, hnames, rfl⟩ := takeTurn_eq hs
    simp only [Function.update_apply] at ht
    split at ht
    · rename_i hm
      subst hm
      obtain rfl := Option.some.inj ht
      exact .inr hnames
    · exact .inl ⟨t, ht, rfl⟩
  | send m withList fresh =>
    obtain ⟨ms, list, x, -, htm, -, rfl⟩ := send_eq hs
    simp only [Function.update_apply] at ht
    split at ht
    · rename_i hm
      subst hm
      obtain rfl := Option.some.inj ht
      exact .inl ⟨_, htm, rfl⟩
    · exact .inl ⟨t, ht, rfl⟩
  | hear m i fresh =>
    obtain ⟨ms, list, r, htm, -, -, rfl⟩ := hear_eq hs
    simp only [Function.update_apply] at ht
    split at ht
    · rename_i hm
      subst hm
      obtain rfl := Option.some.inj ht
      exact .inl ⟨_, htm, rfl⟩
    · exact .inl ⟨t, ht, rfl⟩
  | giveUp m fresh =>
    simp only [System.step, System.giveUp] at hs
    split at hs
    · rename_i ms list k htm
      obtain rfl := Option.some.inj hs
      simp only [Function.update_apply] at ht
      split at ht
      · rename_i hm
        subst hm
        obtain rfl := Option.some.inj ht
        exact .inl ⟨_, htm, rfl⟩
      · exact .inl ⟨t, ht, rfl⟩
    · simp at hs
  | finish m =>
    simp only [System.step, System.finish] at hs
    split at hs
    · obtain rfl := Option.some.inj hs
      simp only [Function.update_apply] at ht
      split at ht
      · simp at ht
      · exact .inl ⟨t, ht, rfl⟩
    · simp at hs

theorem withheld_setWithheld (l : Leases) (m y : String) (o : Option Nat) (n x : String) :
    (l.setWithheld m y o).withheld n x = if n = m ∧ x = y then o else l.withheld n x := by
  simp only [Leases.setWithheld, Function.update_apply]
  by_cases hn : n = m
  · subst hn
    by_cases hx : x = y <;> simp [hx]
  · simp [hn]

theorem withheld_leading {l : Leases} {r : Option Nat} {now : Nat} {n x : String}
    (h : (l.leading r now).withheld n x ≠ none) : l.withheld n x ≠ none := by
  unfold Leases.leading at h
  split at h
  · simp at h
  · exact h

/-- A tenant comes to be away from a node only where the node was failed over, its turn free, and
nothing of the nodes changes then. -/
theorem away_step {e : Event} {s' : System} (hs : s.step e = some s') {n x : String}
    (h : s'.Away n x) : s.Away n x ∨ (s.router.isLost n = true ∧ s'.turns n = none ∧
      s'.nodes = s.nodes ∧ s'.sent = s.sent ∧ s'.clock = s.clock ∧ s'.grants = s.grants) := by
  cases e with
  | tick | know | restartNode =>
    obtain rfl := Option.some.inj hs
    exact .inl h
  | restart =>
    obtain rfl := Option.some.inj hs
    exact .inl (.inl (h.resolve_right fun hw => hw rfl))
  | promote =>
    obtain ⟨-, hs⟩ := Option.ite_none_right_eq_some.mp hs
    obtain rfl := Option.some.inj hs
    exact .inl (.inl (h.resolve_right fun hw => hw rfl))
  | lead =>
    obtain rfl := Option.some.inj hs
    exact .inl (h.imp_right withheld_leading)
  | suspect m =>
    obtain rfl := Option.some.inj hs
    refine .inl (h.imp_right ?_)
    simp only [Leases.suspect]
    split
    · exact fun hw => hw
    · split <;> exact fun hw => hw
  | lower =>
    obtain ⟨-, hs⟩ := Option.ite_none_right_eq_some.mp hs
    obtain rfl := Option.some.inj hs
    exact .inl h
  | confirm m =>
    obtain ⟨-, hs⟩ := Option.ite_none_right_eq_some.mp hs
    obtain rfl := Option.some.inj hs
    refine .inl (h.imp_right ?_)
    simp only [Leases.confirmLapse]
    split
    · exact fun hw => hw
    · split <;> exact fun hw => hw
  | grant m list writes =>
    obtain ⟨b, term, row, -, -, -, -, rfl⟩ := takeTurn_eq hs
    exact .inl h
  | send m withList fresh =>
    obtain ⟨ms, list, y, -, -, -, rfl⟩ := send_eq hs
    exact .inl h
  | read i =>
    obtain ⟨g, st, said, -, -, rfl⟩ := read_eq hs
    exact .inl h
  | hear m i fresh =>
    obtain ⟨ms, list, r, -, -, -, rfl⟩ := hear_eq hs
    exact .inl (h.imp_right withheld_recordAnswer)
  | giveUp m fresh =>
    simp only [System.step, System.giveUp] at hs
    split at hs
    · rename_i ms list k _
      obtain rfl := Option.some.inj hs
      refine .inl (h.imp_right fun hw => ?_)
      have hw' : (s.recordAnswer m k list .silent false fresh).withheld n x ≠ none := hw
      exact withheld_recordAnswer hw'
    · simp at hs
  | finish m =>
    simp only [System.step, System.finish] at hs
    split at hs
    · obtain rfl := Option.some.inj hs
      exact .inl h
    · simp at hs
  | failOver m y dest =>
    obtain ⟨⟨hturn, hlost, hplace⟩, hs⟩ := Option.ite_none_right_eq_some.mp hs
    obtain rfl := Option.some.inj hs
    by_cases hnx : n = m ∧ x = y
    · obtain ⟨rfl, rfl⟩ := hnx
      exact .inr ⟨hlost, Option.isNone_iff_eq_none.mp hturn, rfl, rfl, rfl, rfl⟩
    · refine .inl ?_
      rcases h with hp | hw
      · refine .inl ?_
        by_cases hx : x = y
        · subst hx
          rw [hplace]
          exact fun he => hnx ⟨(Option.some.inj he).symm, rfl⟩
        · simpa [Function.update_apply, hx] using hp
      · refine .inr ?_
        simpa [Leases.release, withheld_setWithheld, hnx] using hw
  | withhold m y fresh =>
    obtain ⟨⟨hturn, hlost⟩, hs⟩ := Option.ite_none_right_eq_some.mp hs
    obtain rfl := Option.some.inj hs
    by_cases hnx : n = m ∧ x = y
    · obtain ⟨rfl, rfl⟩ := hnx
      exact .inr ⟨hlost, Option.isNone_iff_eq_none.mp hturn, rfl, rfl, rfl, rfl⟩
    · refine .inl (h.imp_right fun hw => ?_)
      simpa [Leases.withhold, withheld_setWithheld, hnx, Leases.put] using hw
  | release m y =>
    obtain rfl := Option.some.inj hs
    refine .inl (h.imp_right fun hw => ?_)
    by_cases hnx : n = m ∧ x = y
    · simp [Leases.release, withheld_setWithheld, hnx] at hw
    · simpa [Leases.release, withheld_setWithheld, hnx] using hw
  | create y m =>
    obtain ⟨hnone, hs⟩ := Option.ite_none_right_eq_some.mp hs
    obtain rfl := Option.some.inj hs
    refine .inl (h.imp_left fun hp => ?_)
    by_cases hx : x = y
    · subst hx
      rw [Option.isNone_iff_eq_none.mp hnone]
      simp
    · simpa [Function.update_apply, hx] using hp

/-- A tenant away from a node stays fenced off from it. -/
theorem Fenced.step (hinv : s.Inv led old) {e : Event} {s' : System} (htold : s.Told e)
    (hnamed : s.Named e) (hs : s.step e = some s') {n x : String} (h : s.Fenced n x)
    (haway : s'.Away n x) : s'.Fenced n x := by
  refine ⟨?_, ?_, ?_⟩
  · intro g hg hgn hx
    rcases mem_grants_step hs hg with hg | ⟨-, t, ht, hl⟩
    · exact Spent.step hinv.toNumbers htold hs hg (h.spent g hg hgn hx)
    · exact absurd (hl ▸ hx) (h.turn t (hgn ▸ ht))
  · intro hrun
    rcases step_cases hs with ⟨d, -, rfl⟩ | ⟨i, rfl, hs⟩ | ⟨m, w, f, -, hs⟩ | ⟨m, -, rfl⟩ | hsame
    · exact h.list fun hl => hrun (lapsed_mono hl (now_le_now_add _ _))
    · obtain ⟨g, st, said, hi, hr, rfl⟩ := read_eq hs
      by_cases hn : n = g.node
      swap
      · have hnode : (s.afterRead i g st said).nodes n = s.nodes n := by simp [afterRead, hn]
        rw [hnode] at hrun ⊢
        exact h.list hrun
      subst hn
      have hnode : (s.afterRead i g st said).nodes g.node = st := by simp [afterRead]
      rw [hnode] at hrun ⊢
      have htold := htold i rfl g hi
      rcases hr with ⟨took, -, hr⟩ | ⟨-, rfl⟩
      swap
      · exact h.list hrun
      -- where it ran no lease, the lease held is the one from before
      have hkept : took.lease = false →
          ¬ (s.nodes g.node).Lapsed (Moment.now s.clock) := by
        intro hlease hl
        refine hrun fun u hu => ?_
        rw [hr.kept hlease] at hu
        exact hl u hu
      cases hlist : took.list with
      | false =>
        have hlease : took.lease = false := by
          cases hc : took.lease with
          | false => rfl
          | true =>
            have hl := hr.lists.mpr (.inr hc)
            simp [hlist] at hl
        rw [hr.same hlist]
        exact h.list (hkept hlease)
      | true =>
        have hlease : took.lease = true := by
          cases hc : took.lease with
          | true => rfl
          | false => exact ((hr.lists.mp hlist).resolve_right (by simp [hc]) |> hkept hc).elim
        -- it ran a lease that has not lapsed, so it is not spent: it does not name the tenant
        have hx : x ∉ g.list := by
          intro hx
          have hsp : s.Spent g := h.spent g (List.mem_of_getElem? hi) rfl hx
          have hl := hsp.ran_lapsed htold hr hlease
          exact hrun hl
        rw [hr.list hlist]
        cases hw : g.withList with
        | true => simpa [Grant.primaries, hw] using hx
        | false =>
          have hnone : g.primaries = none := by simp [Grant.primaries, hw]
          rw [hnone]
          exact fun hm => hx (hnamed i rfl g hi hw (hr.named hnone) x hm)
    · obtain ⟨ms, list, y, -, -, -, rfl⟩ := send_eq hs
      exact h.list hrun
    · by_cases hm : n = m
      · subst hm
        simp
      · have hnode : Function.update s.nodes m {} n = s.nodes n := by simp [hm]
        simp only [hnode] at hrun ⊢
        exact h.list hrun
    · rw [hsame.1, hsame.2.2.1] at hrun
      rw [hsame.1]
      exact h.list hrun
  · intro t ht hx
    rcases turns_step hs ht with ⟨t0, ht0, hl⟩ | hnames
    · exact h.turn t0 ht0 (hl ▸ hx)
    · exact haway.elim (fun hp => hp (hnames x hx).1) fun hw => hw (hnames x hx).2

/-- Every tenant away from a node is fenced off from it. -/
structure Placed (s : System) : Prop where
  inv : ∃ led old, s.Inv led old
  fenced : ∀ n x, s.Away n x → s.Fenced n x

theorem Placed.step (h : s.Placed) {e : Event} {s' : System} (htold : s.Told e)
    (hnamed : s.Named e) (hs : s.step e = some s') : s'.Placed := by
  obtain ⟨led, old, hinv⟩ := h.inv
  refine ⟨hinv.step htold hs, fun n x haway => ?_⟩
  rcases away_step hs haway with hbefore | ⟨hlost, hturn, h1, h2, h3, h4⟩
  · exact Fenced.step hinv htold hnamed hs (h.fenced n x hbefore) haway
  · -- the node was failed over: it holds no lease, and no grant on its way runs one
    obtain ⟨y, hy, hyl⟩ : ∃ y, s.router.nodes n = some y ∧ y.lost = true := by
      simpa [Leases.isLost, Option.any_eq_true] using hlost
    obtain ⟨hf, hlt⟩ := hinv.lost n y hy hyl
    obtain ⟨hl, hsp⟩ := hinv.lapsed hy hf hlt
    refine ⟨fun g hg hgn _ => ?_, fun hrun => ?_, fun t ht => ?_⟩
    · rw [h4] at hg
      exact Spent.step hinv.toNumbers htold hs hg (hsp g hg hgn)
    · rw [h1, h3] at hrun
      exact absurd hl hrun
    · rw [hturn] at ht
      simp at ht

/-! ## 4. The result -/

theorem initial_placed (clock : Nat) (term : Nat) (holder : Holder) (lease : Nat)
    (place : String → Option String) : (System.initial clock term holder lease place).Placed :=
  ⟨⟨_, _, initial_inv clock term holder lease place⟩, fun n x _ => by
    constructor <;> simp [System.initial]⟩

/-- **A node failed over has stopped writing.**  Over every run in which no node mistakes a grant
for newer: once a lapse of a node is confirmed the node refuses every tenant, and goes on refusing
whatever it reads that was sent before; and, where no list held is taken for another of its epoch,
no two nodes ever both allow a write to one tenant. -/
theorem failed_over_has_stopped {clock term lease : Nat} {holder : Holder}
    {place : String → Option String} {es : List Event} {s : System}
    (hrun : run System.step (System.initial clock term holder lease place) es = some s)
    (htold : Along System.step Told (System.initial clock term holder lease place) es) :
    (∀ node now, now ≤ s.clock → s.router.following = false →
      (s.router.confirmLapse node now).1 = true →
      ∀ es' s', run System.step s es' = some s' → Along System.step Told s es' →
        Along System.step (SentBefore s node) s es' → ∀ tenant, ¬ s'.Allows node tenant) ∧
    (Along System.step Named (System.initial clock term holder lease place) es →
      ∀ tenant node node', s.Allows node tenant → s.Allows node' tenant → node = node') := by
  constructor
  · intro n now hnow hf hc es' s' hrun' htold' hb x
    obtain ⟨led, old, hinv⟩ : ∃ led old, s.Inv led old := by
      refine run_keeps (I := fun s => ∃ led old, s.Inv led old) ?_ ?_ hrun htold
      · rintro s e s' ⟨led, old, hi⟩ ht hs
        exact hi.step ht hs
      · exact ⟨_, _, initial_inv clock term holder lease place⟩
    obtain ⟨y, hy, hlt⟩ := confirmLapse_true hc
    obtain ⟨hl, hsp⟩ := hinv.lapsed hy hf (Nat.lt_of_lt_of_le hlt hnow)
    have hquiet : Quiet s n s' := by
      refine run_keeps (I := Quiet s n) ?_ ?_ hrun' (htold'.and hb)
      · rintro s1 e s2 hq ⟨ht, hb⟩ hs
        exact hq.step ht hb hs
      · exact ⟨⟨led, old, hinv⟩, hl, fun _ hk => hk, fun g hg hgn _ => hsp g hg hgn⟩
    exact State.allowsAt_of_lapsed hquiet.lapsed x
  · intro hnamed x n m hn hm
    have hplaced : s.Placed := by
      refine run_keeps (I := Placed) ?_ (initial_placed clock term holder lease place) hrun
        (htold.and hnamed)
      rintro s1 e s2 hp ⟨ht, hnm⟩ hs
      exact hp.step ht hnm hs
    -- a node that allows a write to the tenant is the one it is placed on
    have hat : ∀ k, s.Allows k x → s.place x = some k := by
      intro k hk
      by_contra hne
      obtain ⟨hrun, hx⟩ := State.allowsAt_ok hk
      exact (hplaced.fenced k x (.inl hne)).list hrun hx
    exact Option.some.inj ((hat n hn).symm.trans (hat m hm))

/-- A router process just started with a lease of `ms` milliseconds, `t` placed on the node `n`. -/
def oneTenant (ms : Nat) : System :=
  System.initial 0 (millis ms) ⟨"", 0, 1⟩ 0 fun x => if x = "t" then some "n" else none

/-- The events of a node renewed twice by a process whose numbers start at `k`, the `i`th grant on
its way each time: the second acknowledges the first and runs a lease. -/
def renewed (k : UInt64) (i : Nat) : List Event :=
  [.lead, .know "n" k, .grant "n" ["t"] true, .send "n" true k, .read i, .hear "n" 0 k,
    .send "n" false k, .read i, .hear "n" 0 k]

/-- A node is renewed, a third grant to it is given up on, and its lease lapses. -/
def lapsing : List Event :=
  renewed 7 0 ++ [.send "n" false 7, .giveUp "n" 7, .finish "n", .tick (millis 120)]

/-- The late grant read after the lapse was confirmed runs nothing. -/
theorem failed_over_has_stopped_lapsing : ∃ s s',
    run System.step (oneTenant 100) lapsing = some s ∧
    (s.router.confirmLapse "n" s.clock).1 = true ∧
    run System.step s [.confirm "n", .read 0] = some s' ∧ ∀ tenant, ¬ s'.Allows "n" tenant := by
  obtain ⟨s, hs⟩ : ∃ s, run System.step (oneTenant 100) lapsing = some s :=
    Option.isSome_iff_exists.mp (by decide +kernel)
  have hfacts : (run System.step (oneTenant 100) lapsing).map (fun s =>
      (s.router.following, (s.router.confirmLapse "n" s.clock).1,
        (run System.step s [.confirm "n", .read 0]).isSome,
        decide (Along System.step Told s [.confirm "n", .read 0]),
        decide (Along System.step (SentBefore s "n") s [.confirm "n", .read 0]))) =
      some (false, true, true, true, true) := by decide +kernel
  rw [hs] at hfacts
  simp only [Option.map_some, Option.some.injEq, Prod.mk.injEq, decide_eq_true_eq] at hfacts
  obtain ⟨hf, hc, hr, ht, hb⟩ := hfacts
  obtain ⟨s', hs'⟩ := Option.isSome_iff_exists.mp hr
  have htold : Along System.step Told (oneTenant 100) lapsing := by decide +kernel
  exact ⟨s, s', hs, hc, hs',
    (failed_over_has_stopped hs htold).1 "n" s.clock (Nat.le_refl _) hf hc _ s' hs' ht hb⟩

/-- **The mistake made.**  A process with a lease of 100 ms sends `n` a grant, which acknowledges
its first, and is started again with a lease of 10 ms; the new process renews the node, all at one
reading of the clock, before the late grant is read. -/
def tied : List Event :=
  [.lead, .know "n" 100, .grant "n" ["t"] true, .send "n" true 100, .read 0, .hear "n" 0 100,
    .send "n" false 100, .restart (millis 10) ⟨"", 0, 1⟩] ++
  renewed 0 1 ++ [.finish "n", .read 0, .tick (millis 12)]

/-- The router confirms the lapse, the turn free, and the node writes on. -/
theorem tied_answers_write_on : ∃ s, run System.step (oneTenant 100) tied = some s ∧
    s.turns "n" = none ∧ s.router.following = false ∧
    (s.router.confirmLapse "n" s.clock).1 = true ∧ s.Allows "n" "t" := by
  obtain ⟨s, hs⟩ : ∃ s, run System.step (oneTenant 100) tied = some s :=
    Option.isSome_iff_exists.mp (by decide +kernel)
  have hfacts : (run System.step (oneTenant 100) tied).map (fun s =>
      ((s.turns "n").isNone, s.router.following, (s.router.confirmLapse "n" s.clock).1,
        decide (s.Allows "n" "t"))) = some (true, false, true, true) := by decide +kernel
  rw [hs] at hfacts
  simp only [Option.map_some, Option.some.injEq, Prod.mk.injEq, decide_eq_true_eq,
    Option.isNone_iff_eq_none] at hfacts
  exact ⟨s, hs, hfacts⟩

end System

end Fenec.Lease
