/-
# What every run of the leases keeps

The invariant behind failover, over every run of the system in which no node makes one MISTAKE.  A
node tells a newer grant by the moment of the answer it acknowledges, then by its number; the
second is for two grants that acknowledge the SAME answer, which only grants of one router process
do.  But the moments are compared, not the answers: where a node answered grants of two processes
at one reading of its clock, a late grant of the earlier process may be taken for newer by its
number alone.

* §1 states what the argument is about: the moments a grant on its way may run a lease from, and
  when it is SPENT: whatever it would run has lapsed, or is older than what the node holds.
* §2 is the invariant.  Whoever leads, an earlier process's grants run from answers given before
  it led, and its own from answers it heard; a node that ran a lease of its own has left every
  earlier grant spent.
* §3 keeps it through what the router does, §4 through the grants sent and read.
-/
import Fenec.Lease.System

namespace Fenec.Lease

open Fenec.Lib

namespace System

variable (s : System)

/-! ## 1. Spent grants -/

/-- `node` was sent a grant under the number and has read it. -/
def Read (node : String) (k : UInt64) : Prop :=
  (s.sent node k).isSome ∧ ∀ g ∈ s.grants, g.node = node → g.numbered.grant ≠ k

/-- `t` is a moment the grant may run a lease from: its node answered at `t` what it
acknowledges, and kept that. -/
def Runs (g : Grant) (t : Nat) : Prop :=
  ∃ a, g.numbered.acked = some a ∧ (a, t) ∈ (s.nodes g.node).answered

/-- A lease from `t` is older than the one the grant's node holds: by the moment, or by the
process that granted it. -/
def Beaten (g : Grant) (t : Nat) : Prop :=
  ∃ was k p, (s.nodes g.node).basis = some (was, k) ∧ s.sent g.node k = some p ∧
    (t < was ∨ (t = was ∧ g.process < p))

/-- **A grant that runs nothing any more**: whatever it would run has lapsed or is beaten. -/
def Spent (g : Grant) : Prop := ∀ t, s.Runs g t → t + millis g.ms ≤ s.clock ∨ s.Beaten g t

/-- **The mistake.**  The grant acknowledges an answer given at the very reading of the clock
that the node's lease runs from, that lease came from a later router process, and the grant's
number is past the one it came with. -/
def Mistaken (g : Grant) : Prop :=
  ∃ t ∈ (s.nodes g.node).answeredAt g.numbered.acked, ∃ b ∈ (s.nodes g.node).basis, b.1 = t ∧
    ∃ p ∈ s.sent g.node b.2, g.process < p ∧ 0 < (g.numbered.grant - b.2).toInt64

instance (g : Grant) : Decidable (s.Mistaken g) :=
  inferInstanceAs (Decidable (∃ t ∈ (s.nodes g.node).answeredAt g.numbered.acked, _))

/-- No node reads a grant it mistakes for newer. -/
def Told (s : System) (e : Event) : Prop :=
  ∀ i ∈ e.reads, ∀ g ∈ s.grants[i]?, ¬ s.Mistaken g

instance : DecidableRel Told := fun s e =>
  inferInstanceAs (Decidable (∀ i ∈ e.reads, ∀ g ∈ s.grants[i]?, ¬ s.Mistaken g))

/-- Where a node reads a grant that names its list by the epoch alone and holds a list of that
epoch, it holds no other list. -/
def Named (s : System) (e : Event) : Prop :=
  ∀ i ∈ e.reads, ∀ g ∈ s.grants[i]?, g.withList = false →
    (s.nodes g.node).epoch = some g.epoch → ∀ x ∈ (s.nodes g.node).primaries, x ∈ g.list

/-! ## 2. The invariant -/

/-- The longest lease this router process's grants run, in milliseconds. -/
def cap : Nat := min (s.router.term / 1000000) s.row

/-- The router counts `node` by its own lease, or is about to: the node said that it ran one. -/
def Ran (node : String) : Prop :=
  (∃ h, s.router.nodes node = some h ∧ h.own = true) ∨
    ∃ r ∈ s.replies, r.node = node ∧ r.ran = true ∧ s.sent node r.grant = some s.process

/-- A moment of the lease `node` may hold from this router process's answers. -/
def OwnUntil (node : String) (u : Nat) : Prop :=
  ∃ h, s.router.nodes node = some h ∧ u ≤ Moment.now (h.acked + millis s.cap)

/-- A node that ran a lease of this process: it holds none of another's, and every earlier
grant to it is spent. -/
structure Settled (node : String) : Prop where
  runs : ∀ u, (s.nodes node).runsUntil = some u → u ≤ Moment.now s.clock ∨ s.OwnUntil node u
  spent : ∀ g ∈ s.grants, g.node = node → g.process < s.process → s.Spent g

/-- What the numbers say: each was sent once, and an answer acknowledged or on its way is to a
grant that was read. -/
structure Numbers : Prop where
  sent_le : ∀ n k p, s.sent n k = some p → p ≤ s.process
  grant_sent : ∀ g ∈ s.grants, s.sent g.node g.numbered.grant = some g.process
  distinct : s.grants.Pairwise fun g g' =>
    ¬ (g.node = g'.node ∧ g.numbered.grant = g'.numbered.grant)
  grant_acked : ∀ g ∈ s.grants, ∀ a, g.numbered.acked = some a →
    s.Read g.node a ∧ s.sent g.node a = some g.process
  reply_read : ∀ r ∈ s.replies, s.Read r.node r.grant
  held_acked : ∀ n h a, s.router.nodes n = some h → h.ackedGrant = some a →
    s.Read n a ∧ s.sent n a = some s.process
  waiting_sent : ∀ n t k, s.turns n = some t → t.waiting = some k → s.sent n k = some s.process

/-- **The invariant.**  `led` is when the process that leads took over, and `old` bounds every
lease an earlier one may still run. -/
structure Inv (led old : Nat) : Prop extends Numbers s where
  led_le : led ≤ s.clock
  answered : ∀ n k t, (k, t) ∈ (s.nodes n).answered → t ≤ Moment.now s.clock ∧
    ∃ p, s.sent n k = some p ∧ (p = s.process → Moment.now led ≤ t)
  started_le : s.router.started ≤ s.clock
  acked_le : ∀ n h, s.router.nodes n = some h → h.acked ≤ s.clock
  term_le : s.router.term ≤ s.router.inherited
  row_le : s.row ≤ 2 ^ 63 - 1
  turn_ms : ∀ n t, s.turns n = some t → t.ms ≤ s.cap
  old_le : old ≤ s.clock + millis s.row
  old_led : s.router.following = false →
    old ≤ s.router.started + s.router.inherited ∨ old ≤ s.clock
  acked_led : s.router.following = false → ∀ n h, s.router.nodes n = some h →
    s.router.started ≤ h.acked
  lost : ∀ n h, s.router.nodes n = some h → h.lost = true →
    s.router.following = false ∧ h.acked + s.router.termOf h < s.clock
  own_grant : ∀ g ∈ s.grants, g.process = s.process → g.ms ≤ s.cap ∧
    ∃ h, s.router.nodes g.node = some h ∧ ∀ t, s.Runs g t → t ≤ h.acked
  own_acked : ∀ n h a, s.router.nodes n = some h → h.ackedGrant = some a →
    ∀ t, (a, t) ∈ (s.nodes n).answered → t ≤ h.acked
  old_grant : ∀ g ∈ s.grants, g.process < s.process → ∀ t, s.Runs g t →
    t ≤ Moment.now led ∧ t + millis g.ms ≤ max old s.clock
  runs : ∀ n u, (s.nodes n).runsUntil = some u →
    u ≤ Moment.now (max old s.clock) ∨ s.OwnUntil n u
  settled : ∀ n, s.Ran n → s.Settled n

variable {s} {led old : Nat}

theorem initial_inv (clock : Nat) (term : Nat) (holder : Holder) (lease : Nat)
    (place : String → Option String) :
    (System.initial clock term holder lease place).Inv clock clock := by
  have hnum : (System.initial clock term holder lease place).Numbers := by
    constructor <;> simp [System.initial, Leases.new]
  constructor
  · exact hnum
  all_goals simp [System.initial, Leases.new, Ran, recordLease]

theorem now_le_now_add (t d : Nat) : Moment.now t ≤ Moment.now (t + d) :=
  Moment.now_mono (Nat.le_add_right t d)

/-- Time passes. -/
theorem Inv.tick (h : s.Inv led old) (d : Nat) :
    ({ s with clock := s.clock + d } : System).Inv led old := by
  have hc := now_le_now_add s.clock d
  have hmax : max old s.clock ≤ max old (s.clock + d) := by omega
  have hspent : ∀ g, s.Spent g → ({ s with clock := s.clock + d } : System).Spent g :=
    fun g hg t ht => (hg t ht).imp_left fun hle => Nat.le_add_right_of_le hle
  exact { h with
    led_le := Nat.le_add_right_of_le h.led_le
    started_le := Nat.le_add_right_of_le h.started_le
    answered := fun n k t ht => ⟨(h.answered n k t ht).1.trans hc, (h.answered n k t ht).2⟩
    acked_le := fun n x hx => Nat.le_add_right_of_le (h.acked_le n x hx)
    old_le := h.old_le.trans (Nat.add_le_add_right (Nat.le_add_right _ d) _)
    old_led := fun hf => (h.old_led hf).imp_right Nat.le_add_right_of_le
    lost := fun n x hx hl => ⟨(h.lost n x hx hl).1, Nat.lt_add_right d (h.lost n x hx hl).2⟩
    old_grant := fun g hg hp t ht =>
      ⟨(h.old_grant g hg hp t ht).1, (h.old_grant g hg hp t ht).2.trans hmax⟩
    runs := fun n u hu => (h.runs n u hu).imp_left fun hle => hle.trans (Moment.now_mono hmax)
    settled := fun n hn => ⟨fun u hu => ((h.settled n hn).runs u hu).imp_left (·.trans hc),
      fun g hg hgn hp => hspent g ((h.settled n hn).spent g hg hgn hp)⟩ }

/-! ## 3. What the router does -/

/-- An entry put in leaves every node known, counted no earlier. -/
theorem nodes_put {l : Leases} {n m : String} {y z : Held} (h : (l.put n y).nodes m = some z) :
    (m = n ∧ z = y) ∨ (m ≠ n ∧ l.nodes m = some z) := by
  simp only [Leases.put, Function.update_apply] at h
  split at h
  · exact .inl ⟨‹_›, (Option.some.inj h).symm⟩
  · exact .inr ⟨‹_›, h⟩

theorem put_grows {l : Leases} {n m : String} {y z : Held}
    (hy : ∀ x, l.nodes n = some x → x.acked ≤ y.acked) (h : l.nodes m = some z) :
    ∃ z', (l.put n y).nodes m = some z' ∧ z.acked ≤ z'.acked := by
  by_cases hm : m = n
  · subst hm
    exact ⟨y, by simp [Leases.put], hy z h⟩
  · exact ⟨z, by simp [Leases.put, hm, h], Nat.le_refl _⟩

/-- **What the router learns of a node.**  It counts the node no earlier; what it acknowledges is
an answer heard now, or what it acknowledged before; it counts the node by its own lease only
where the node ran one; and it marks it failed over only past its lapse. -/
theorem Inv.put (h : s.Inv led old) {n : String} {y : Held}
    (hle : ∀ x, s.router.nodes n = some x → x.acked ≤ y.acked) (hc : y.acked ≤ s.clock)
    (hst : s.router.following = false → s.router.started ≤ y.acked)
    (hg : ∀ a, y.ackedGrant = some a →
      (∃ x, s.router.nodes n = some x ∧ x.ackedGrant = some a) ∨
      (s.Read n a ∧ s.sent n a = some s.process ∧ y.acked = s.clock))
    (ho : y.own = true → s.Ran n)
    (hl : y.lost = true → s.router.following = false ∧ y.acked + s.router.termOf y < s.clock) :
    ({ s with router := s.router.put n y } : System).Inv led old := by
  have hown : ∀ m u, s.OwnUntil m u → ({ s with router := s.router.put n y } : System).OwnUntil m u := by
    rintro m u ⟨x, hx, hu⟩
    obtain ⟨x', hx', hxx⟩ := put_grows hle hx
    exact ⟨x', hx', hu.trans (Moment.now_mono (Nat.add_le_add_right hxx _))⟩
  have hran : ∀ m, ({ s with router := s.router.put n y } : System).Ran m → s.Ran m := by
    rintro m (⟨x, hx, hxo⟩ | hr)
    · rcases nodes_put hx with ⟨rfl, rfl⟩ | ⟨-, hx⟩
      · exact ho hxo
      · exact .inl ⟨x, hx, hxo⟩
    · exact .inr hr
  exact { h with
    held_acked := fun m x a hx ha => by
      rcases nodes_put hx with ⟨rfl, rfl⟩ | ⟨-, hx⟩
      · rcases hg a ha with ⟨x, hx, ha⟩ | ⟨hr, hs, -⟩
        · exact h.held_acked m x a hx ha
        · exact ⟨hr, hs⟩
      · exact h.held_acked m x a hx ha
    acked_le := fun m x hx => by
      rcases nodes_put hx with ⟨rfl, rfl⟩ | ⟨-, hx⟩
      · exact hc
      · exact h.acked_le m x hx
    acked_led := fun hf m x hx => by
      rcases nodes_put hx with ⟨rfl, rfl⟩ | ⟨-, hx⟩
      · exact hst hf
      · exact h.acked_led hf m x hx
    lost := fun m x hx hxl => by
      rcases nodes_put hx with ⟨rfl, rfl⟩ | ⟨-, hx⟩
      · exact hl hxl
      · exact h.lost m x hx hxl
    own_grant := fun g hgm hp => by
      obtain ⟨hms, x, hx, hr⟩ := h.own_grant g hgm hp
      obtain ⟨x', hx', hxx⟩ := put_grows hle hx
      exact ⟨hms, x', hx', fun t ht => (hr t ht).trans hxx⟩
    own_acked := fun m x a hx ha t ht => by
      rcases nodes_put hx with ⟨rfl, rfl⟩ | ⟨-, hx⟩
      · rcases hg a ha with ⟨x', hx', ha⟩ | ⟨-, -, hn⟩
        · exact (h.own_acked m x' a hx' ha t ht).trans (hle x' hx')
        · rw [hn]
          exact (h.answered m a t ht).1.trans (Moment.now_le _)
      · exact h.own_acked m x a hx ha t ht
    runs := fun m u hu => (h.runs m u hu).imp_right (hown m u)
    settled := fun m hm => ⟨fun u hu => ((h.settled m (hran m hm)).runs u hu).imp_right (hown m u),
      (h.settled m (hran m hm)).spent⟩ }

/-- The entry of a node is the one known, or is counted from now. -/
theorem entry_cases (l : Leases) (n : String) (now : Nat) (fresh : UInt64) :
    l.nodes n = some (l.entry n now fresh) ∨ (l.nodes n = none ∧ l.entry n now fresh =
      { acked := max l.started now, settled := max l.started now, next := fresh }) := by
  unfold Leases.entry
  cases l.nodes n with
  | none => exact .inr ⟨rfl, rfl⟩
  | some h => exact .inl rfl

theorem entry_eq {l : Leases} {n : String} {x : Held} (h : l.nodes n = some x) (now : Nat)
    (fresh : UInt64) : l.entry n now fresh = x := by
  simp [Leases.entry, h]

/-- `Inv.put` for what changes nothing of when a node is counted from, what it ran and what was
heard of it. -/
theorem Inv.put_like (h : s.Inv led old) {n : String} {y : Held} (fresh : UInt64)
    (ha : y.acked = (s.router.entry n s.clock fresh).acked)
    (hg : y.ackedGrant = (s.router.entry n s.clock fresh).ackedGrant)
    (ho : y.own = (s.router.entry n s.clock fresh).own)
    (hl : y.lost = true → (s.router.entry n s.clock fresh).lost = true ∨
      s.router.following = false ∧ y.acked + s.router.termOf y < s.clock) :
    ({ s with router := s.router.put n y } : System).Inv led old := by
  have hs := h.started_le
  rcases entry_cases s.router n s.clock fresh with he | ⟨hn, he⟩
  · refine h.put ?_ ?_ ?_ ?_ ?_ ?_
    · intro x hx
      rw [entry_eq hx] at ha
      exact ha.ge
    · rw [ha]
      exact h.acked_le n _ he
    · intro hf
      rw [ha]
      exact h.acked_led hf n _ he
    · intro a hya
      exact .inl ⟨_, he, hg ▸ hya⟩
    · intro hyo
      exact .inl ⟨_, he, ho ▸ hyo⟩
    · intro hyl
      rcases hl hyl with hel | hy
      · have hlo := h.lost n _ he hel
        have htm : s.router.termOf y = s.router.termOf (s.router.entry n s.clock fresh) := by
          simp only [Leases.termOf, ho]
        rw [ha, htm]
        exact hlo
      · exact hy
  · rw [he] at ha hg ho hl
    refine h.put ?_ ?_ ?_ ?_ ?_ ?_
    · intro x hx
      rw [hn] at hx
      simp at hx
    · rw [ha]
      exact max_le hs (Nat.le_refl _)
    · intro _
      rw [ha]
      exact le_max_left _ _
    · intro a hya
      rw [hg] at hya
      simp at hya
    · intro hyo
      rw [ho] at hyo
      simp at hyo
    · intro hyl
      simpa using hl hyl

/-- The invariant reads nothing of the tenants withheld. -/
theorem Inv.withheld (h : s.Inv led old) (w : String → String → Option Nat) :
    ({ s with router := { s.router with withheld := w } } : System).Inv led old :=
  { h with settled := fun n hn => ⟨(h.settled n hn).runs, (h.settled n hn).spent⟩ }

theorem Inv.place (h : s.Inv led old) (p : String → Option String) :
    ({ s with place := p } : System).Inv led old :=
  { h with settled := fun n hn => ⟨(h.settled n hn).runs, (h.settled n hn).spent⟩ }

theorem Inv.know (h : s.Inv led old) (n : String) (fresh : UInt64) :
    ({ s with router := s.router.know n s.clock fresh } : System).Inv led old :=
  h.put_like fresh rfl rfl rfl fun hl => .inl hl

theorem Inv.suspect (h : s.Inv led old) (n : String) :
    ({ s with router := (s.router.suspect n s.clock).2 } : System).Inv led old := by
  unfold Leases.suspect
  split
  · exact h
  · rename_i x hx
    split
    · have he := entry_eq hx s.clock 0
      refine h.put_like 0 ?_ ?_ ?_ ?_
      all_goals rw [he]
      exact fun hl => .inl hl
    · exact h

/-- A lapse confirmed: the node was counted a lease and a tenth ago. -/
theorem confirmLapse_true {l : Leases} {n : String} {now : Nat}
    (h : (l.confirmLapse n now).1 = true) :
    ∃ x, l.nodes n = some x ∧ x.acked + l.termOf x < now := by
  unfold Leases.confirmLapse at h
  split at h
  · simp at h
  · rename_i x hx
    refine ⟨x, hx, ?_⟩
    simp only at h
    split at h
    · simp at h
    · rename_i hc
      simp only [Bool.or_eq_true, Bool.not_eq_true', not_or, Leases.lapsed,
        decide_eq_false_iff_not, not_not] at hc
      have hlt : lapse (l.termOf x) < now - x.acked := hc.2
      unfold lapse at hlt
      omega

theorem Inv.confirm (h : s.Inv led old) (hf : s.router.following = false) (n : String) :
    ({ s with router := (s.router.confirmLapse n s.clock).2 } : System).Inv led old := by
  have hct : (s.router.confirmLapse n s.clock).1 = true → _ := confirmLapse_true
  unfold Leases.confirmLapse at hct ⊢
  split
  · exact h
  · rename_i x hx
    have he := entry_eq hx s.clock 0
    simp only [hx] at hct ⊢
    split
    · refine h.put_like 0 ?_ ?_ ?_ ?_
      all_goals rw [he]
      exact fun hl => .inl hl
    · rename_i hc
      rw [if_neg hc] at hct
      obtain ⟨x', hx', hlt⟩ := hct rfl
      obtain rfl := Option.some.inj hx'
      refine h.put_like 0 ?_ ?_ ?_ ?_
      all_goals rw [he]
      exact fun _ => .inr ⟨hf, hlt⟩

theorem Inv.withhold (h : s.Inv led old) (n x : String) (fresh : UInt64) :
    ({ s with router := s.router.withhold n x s.clock fresh } : System).Inv led old :=
  (h.know n fresh).withheld _

theorem Inv.release (h : s.Inv led old) (n x : String) :
    ({ s with router := s.router.release n x } : System).Inv led old :=
  h.withheld _

/-- An answer heard, or given up on. -/
theorem Inv.answered_by (h : s.Inv led old) {n : String} {k : UInt64} {answer : Answer}
    (hr : answer ≠ .silent → s.Read n k ∧ s.sent n k = some s.process) (epoch : String)
    (fresh : UInt64) :
    ({ s with router := (s.router.answered n k epoch answer s.clock fresh).2 } : System).Inv
      led old := by
  have hput : answer ≠ .silent → ∀ y : Held, y.acked = s.clock → y.ackedGrant = some k →
      y.own = (s.router.entry n s.clock fresh).own → y.lost = false →
      ({ s with router := s.router.put n y } : System).Inv led old := by
    intro hne y ha hg ho hl
    refine h.put ?_ ?_ ?_ ?_ ?_ ?_
    · intro x hx
      rw [ha]
      exact h.acked_le n x hx
    · exact ha.le
    · intro _
      rw [ha]
      exact h.started_le
    · intro a hya
      rw [hg] at hya
      obtain rfl := Option.some.inj hya
      exact .inr ⟨(hr hne).1, (hr hne).2, ha⟩
    · intro hyo
      rw [ho] at hyo
      rcases entry_cases s.router n s.clock fresh with he | ⟨-, he⟩
      · exact .inl ⟨_, he, hyo⟩
      · rw [he] at hyo
        simp at hyo
    · intro hyl
      rw [hl] at hyl
      simp at hyl
  unfold Leases.answered
  cases answer with
  | taken | kept =>
    simp only
    split
    · refine Inv.withheld (hput (by simp) _ ?_ ?_ ?_ ?_) _ <;> rfl
    · refine hput (by simp) _ ?_ ?_ ?_ ?_ <;> rfl
  | needsList | refuses | superseded | unfenced | silent =>
    exact h.put_like fresh rfl rfl rfl fun hl => .inl hl

theorem Inv.ran (h : s.Inv led old) {n : String} (hn : s.Ran n) (fresh : UInt64) :
    ({ s with router := s.router.ran n s.clock fresh } : System).Inv led old := by
  have hk := h.know n fresh
  have hnodes : (s.router.know n s.clock fresh).nodes n =
      some (s.router.entry n s.clock fresh) := by
    simp [Leases.know, Leases.put]
  refine h.put ?_ ?_ ?_ ?_ ?_ ?_
  · intro x hx
    rw [entry_eq hx]
  · exact hk.acked_le n (s.router.entry n s.clock fresh) hnodes
  · exact fun hf => hk.acked_led hf n (s.router.entry n s.clock fresh) hnodes
  · intro a ha
    rcases entry_cases s.router n s.clock fresh with he | ⟨-, he⟩
    · exact .inl ⟨_, he, ha⟩
    · rw [he] at ha
      simp at ha
  · exact fun _ => hn
  · intro hl
    -- counted by its own lease now, which is the shorter one
    obtain ⟨hf, hlt⟩ := hk.lost n (s.router.entry n s.clock fresh) hnodes hl
    refine ⟨hf, Nat.lt_of_le_of_lt (Nat.add_le_add_left ?_ _) hlt⟩
    have hle : s.router.term ≤ s.router.inherited := h.term_le
    simp only [Leases.termOf, if_true]
    split
    · exact Nat.le_refl _
    · exact hle

theorem Inv.replies (h : s.Inv led old) {rs : List Reply} (hrs : rs ⊆ s.replies) :
    ({ s with replies := rs } : System).Inv led old := by
  have hran : ∀ n, ({ s with replies := rs } : System).Ran n → s.Ran n := by
    rintro n (ho | ⟨r, hr, hn⟩)
    · exact .inl ho
    · exact .inr ⟨r, hrs hr, hn⟩
  exact { h with
    reply_read := fun r hr => h.reply_read r (hrs hr)
    settled := fun n hn =>
      ⟨(h.settled n (hran n hn)).runs, (h.settled n (hran n hn)).spent⟩ }

theorem Inv.turns (h : s.Inv led old) {ts : String → Option Turn}
    (hw : ∀ n t k, ts n = some t → t.waiting = some k → s.sent n k = some s.process)
    (hms : ∀ n t, ts n = some t → t.ms ≤ s.cap) :
    ({ s with turns := ts } : System).Inv led old :=
  { h with
    waiting_sent := hw
    turn_ms := hms
    settled := fun n hn => ⟨(h.settled n hn).runs, (h.settled n hn).spent⟩ }

/-- One turn that waits on nothing, or none, in place of a node's. -/
theorem Inv.turn (h : s.Inv led old) (n : String) {t : Option Turn}
    (ht : ∀ x, t = some x → x.waiting = none ∧ x.ms ≤ s.cap) :
    ({ s with turns := Function.update s.turns n t } : System).Inv led old := by
  refine h.turns ?_ ?_
  · intro m x k hx hk
    rw [Function.update_apply] at hx
    split at hx
    · rw [(ht x hx).1] at hk
      simp at hk
    · exact h.waiting_sent m x k hx hk
  · intro m x hx
    rw [Function.update_apply] at hx
    split at hx
    · exact (ht x hx).2
    · exact h.turn_ms m x hx

/-- A router process takes over: every lease that may run is an earlier process's now, and the
record bounds it. -/
theorem Inv.takeOver (h : s.Inv led old) {l : Leases} (hl : l.started ≤ s.clock)
    (hnodes : l.nodes = fun _ => none) (hf : l.following = true) (hi : l.inherited = l.term)
    (holder : Holder) : (s.takeOver l holder).Inv s.clock (s.clock + millis s.row) := by
  have hcap : millis s.cap ≤ millis s.row := Nat.mul_le_mul_right _ (min_le_right _ _)
  have hmax : max old s.clock ≤ s.clock + millis s.row :=
    max_le h.old_le (Nat.le_add_right _ _)
  have hown : ∀ n x, s.router.nodes n = some x →
      x.acked + millis s.cap ≤ s.clock + millis s.row :=
    fun n x hx => Nat.add_le_add (h.acked_le n x hx) hcap
  -- a lease of the process before runs from an answer it heard, so before now
  have hdead : ∀ g ∈ s.grants, ∀ t, s.Runs g t →
      t ≤ Moment.now s.clock ∧ t + millis g.ms ≤ s.clock + millis s.row := by
    intro g hg t ht
    obtain ⟨a, ha, hm⟩ := id ht
    refine ⟨(h.answered _ _ _ hm).1, ?_⟩
    rcases Nat.lt_or_eq_of_le (h.sent_le _ _ _ (h.grant_sent g hg)) with hp | hp
    · exact (h.old_grant g hg hp t ht).2.trans hmax
    · obtain ⟨hms, x, hx, hr⟩ := h.own_grant g hg hp
      calc t + millis g.ms
          ≤ x.acked + millis s.cap := Nat.add_le_add (hr t ht) (Nat.mul_le_mul_right _ hms)
        _ ≤ s.clock + millis s.row := hown _ x hx
  have hlt : ∀ g ∈ s.grants, g.process < s.process + 1 := fun g hg =>
    Nat.lt_succ_of_le (h.sent_le _ _ _ (h.grant_sent g hg))
  exact {
    sent_le := fun n k p hp => Nat.le_succ_of_le (h.sent_le n k p hp)
    grant_sent := h.grant_sent
    distinct := h.distinct
    grant_acked := h.grant_acked
    reply_read := h.reply_read
    held_acked := fun n x a hx => by simp [System.takeOver, hnodes] at hx
    waiting_sent := fun n t k ht => by simp [System.takeOver] at ht
    led_le := Nat.le_refl _
    answered := fun n k t ht => by
      obtain ⟨hle, p, hp, -⟩ := h.answered n k t ht
      refine ⟨hle, p, hp, fun he => ?_⟩
      have := h.sent_le n k p hp
      simp only [System.takeOver] at he
      omega
    started_le := hl
    acked_le := fun n x hx => by simp [System.takeOver, hnodes] at hx
    term_le := hi.ge
    row_le := h.row_le
    turn_ms := fun n t ht => by simp [System.takeOver] at ht
    old_le := Nat.le_refl _
    old_led := fun hfo => by simp [System.takeOver, hf] at hfo
    acked_led := fun hfo => by simp [System.takeOver, hf] at hfo
    lost := fun n x hx => by simp [System.takeOver, hnodes] at hx
    own_grant := fun g hg hp => absurd hp (hlt g hg).ne
    own_acked := fun n x a hx => by simp [System.takeOver, hnodes] at hx
    old_grant := fun g hg _ t ht =>
      ⟨(hdead g hg t ht).1, (hdead g hg t ht).2.trans (le_max_left _ _)⟩
    runs := fun n u hu => by
      refine .inl ?_
      rcases h.runs n u hu with hle | ⟨x, hx, hle⟩
      · exact hle.trans (Moment.now_mono (hmax.trans (le_max_left _ _)))
      · exact hle.trans (Moment.now_mono ((hown n x hx).trans (le_max_left _ _)))
    settled := fun n hn => by
      rcases hn with ⟨x, hx, -⟩ | ⟨r, hr, -, -, hs⟩
      · simp [System.takeOver, hnodes] at hx
      · have := h.sent_le _ _ _ hs
        simp only [System.takeOver] at this
        omega }

/-- The first round of a router that leads: every node is counted from now, by the record. -/
theorem Inv.lead (h : s.Inv led old) :
    ({ s with router := s.router.leading (leaseRecord s.row) s.clock } : System).Inv led old := by
  cases hf : s.router.following with
  | false => simpa [Leases.leading, hf] using h
  | true =>
    simp only [Leases.leading, hf, if_true]
    have hrec : millis s.row ≤ (leaseRecord s.row).getD 0 := by
      unfold leaseRecord millis
      split
      · simp
      · simp
        omega
    -- the entry of a node counted from now
    have hmap : ∀ n y, ((s.router.nodes n).map fun x => { x with acked := max x.acked s.clock }) =
        some y → ∃ x, s.router.nodes n = some x ∧ { x with acked := max x.acked s.clock } = y :=
      fun n y hy => Option.map_eq_some_iff.mp hy
    have hown : ∀ n u, s.OwnUntil n u → ∃ x,
        ((s.router.nodes n).map fun x => { x with acked := max x.acked s.clock }) = some x ∧
        u ≤ Moment.now (x.acked + millis s.cap) := by
      rintro n u ⟨x, hx, hu⟩
      exact ⟨_, by rw [hx]; rfl,
        hu.trans (Moment.now_mono (Nat.add_le_add_right (le_max_left _ _) _))⟩
    refine { h with
      held_acked := ?_
      started_le := Nat.le_refl _
      acked_le := ?_
      term_le := le_max_left _ _
      old_led := ?_
      acked_led := ?_
      lost := ?_
      own_grant := ?_
      own_acked := ?_
      runs := fun n u hu => (h.runs n u hu).imp_right (hown n u)
      settled := ?_ }
    · intro n y a hy ha
      obtain ⟨x, hx, rfl⟩ := hmap n y hy
      exact h.held_acked n x a hx ha
    · intro n y hy
      obtain ⟨x, hx, rfl⟩ := hmap n y hy
      exact max_le (h.acked_le n x hx) (Nat.le_refl _)
    · intro _
      refine .inl (h.old_le.trans (Nat.add_le_add_left ?_ _))
      exact hrec.trans (le_max_right _ _)
    · intro _ n y hy
      obtain ⟨x, hx, rfl⟩ := hmap n y hy
      exact le_max_right _ _
    · intro n y hy hl
      obtain ⟨x, hx, rfl⟩ := hmap n y hy
      have := (h.lost n x hx hl).1
      simp [hf] at this
    · intro g hg hp
      obtain ⟨hms, x, hx, hr⟩ := h.own_grant g hg hp
      exact ⟨hms, _, by simp only [hx]; rfl, fun t ht => (hr t ht).trans (le_max_left _ _)⟩
    · intro n y a hy ha t ht
      obtain ⟨x, hx, rfl⟩ := hmap n y hy
      exact (h.own_acked n x a hx ha t ht).trans (le_max_left _ _)
    · intro n hn
      have hn' : s.Ran n := by
        rcases hn with ⟨y, hy, ho⟩ | hr
        · obtain ⟨x, hx, rfl⟩ := hmap n y hy
          exact .inl ⟨x, hx, ho⟩
        · exact .inr hr
      exact ⟨fun u hu => ((h.settled n hn').runs u hu).imp_right (hown n u),
        (h.settled n hn').spent⟩

/-- A change of the record, and of what a node is counted by. -/
theorem Inv.counted (h : s.Inv led old) {i row : Nat} {b : Bool} (hi : s.router.term ≤ i)
    (hi' : i ≤ s.router.inherited) (hrow : row ≤ 2 ^ 63 - 1)
    (hcap : s.cap ≤ min (s.router.term / 1000000) row) (hold : old ≤ s.clock + millis row)
    (hled : s.router.following = false → old ≤ s.router.started + i ∨ old ≤ s.clock) :
    ({ s with router := { s.router with inherited := i, recorded := b }, row := row } :
      System).Inv led old := by
  have hown : ∀ n u, s.OwnUntil n u →
      ({ s with router := { s.router with inherited := i, recorded := b }, row := row } :
        System).OwnUntil n u := by
    rintro n u ⟨x, hx, hu⟩
    exact ⟨x, hx, hu.trans (Moment.now_mono
      (Nat.add_le_add_left (Nat.mul_le_mul_right _ hcap) _))⟩
  refine { h with
    term_le := hi
    row_le := hrow
    turn_ms := fun n t ht => (h.turn_ms n t ht).trans hcap
    old_le := hold
    old_led := hled
    lost := fun n x hx hl => ⟨(h.lost n x hx hl).1, ?_⟩
    own_grant := fun g hg hp =>
      ⟨(h.own_grant g hg hp).1.trans hcap, (h.own_grant g hg hp).2⟩
    runs := fun n u hu => (h.runs n u hu).imp_right (hown n u)
    settled := fun n hn => ⟨fun u hu => ((h.settled n hn).runs u hu).imp_right (hown n u),
      (h.settled n hn).spent⟩ }
  have hlt := (h.lost n x hx hl).2
  simp only [Leases.termOf] at hlt ⊢
  cases hxo : x.own <;> simp only [hxo, if_true, Bool.false_eq_true, if_false] at hlt ⊢ <;> omega

theorem Inv.lower (h : s.Inv led old) (hl : s.router.lowerable s.clock = true) :
    ({ s with router := s.router.lowered, row := recordLease s.router.term } : System).Inv
      led old := by
  simp only [Leases.lowerable, Bool.and_eq_true, decide_eq_true_eq, Bool.not_eq_true'] at hl
  obtain ⟨⟨-, hf⟩, hlt⟩ := hl
  unfold lapse at hlt
  -- every lease granted before this process led has run out
  have hold : old ≤ s.clock := by
    rcases h.old_led hf with ho | ho <;> omega
  have hrow := h.row_le
  refine h.counted (Nat.le_refl _) h.term_le ?_ ?_ ?_ fun _ => .inr hold
  · exact min_le_right _ _
  · simp only [cap, recordLease]
    omega
  · exact Nat.le_add_right_of_le hold

/-- What `grant_term` answers: a lease no longer than the router's own, and a record no lower. -/
theorem grantTerm_spec (l : Leases) {row : Nat} (writes : Bool) (hrow : row ≤ 2 ^ 63 - 1) :
    (l.grantTerm row writes).1 ≤ l.term ∧
      row ≤ (l.grantTerm row writes).2.2 ∧ (l.grantTerm row writes).2.2 ≤ 2 ^ 63 - 1 := by
  unfold Leases.grantTerm
  split
  · exact ⟨Nat.le_refl _, Nat.le_refl _, hrow⟩
  split
  · exact ⟨Nat.le_refl _, Nat.le_refl _, hrow⟩
  rename_i hwas
  have hlt : 0 < row → millis row < l.term := by
    intro h0
    simpa [leaseRecord, h0] using hwas
  split
  · refine ⟨Nat.le_refl _, Nat.le_min.mpr ⟨?_, hrow⟩, min_le_right _ _⟩
    unfold millis at hlt
    omega
  · refine ⟨?_, Nat.le_refl _, hrow⟩
    simp only [leaseRecord]
    split
    · exact (hlt ‹_›).le
    · exact Nat.le_refl _

theorem grantTerm_router (l : Leases) (row : Nat) (writes : Bool) :
    ∃ b, (l.grantTerm row writes).2.1 = { l with recorded := b } := by
  unfold Leases.grantTerm
  split
  · exact ⟨_, rfl⟩
  split
  · exact ⟨_, rfl⟩
  split
  · exact ⟨_, rfl⟩
  · exact ⟨_, rfl⟩

/-- What a grant that takes its node's turn is. -/
theorem takeTurn_eq {n : String} {list : List String} {writes : Bool} {s' : System}
    (hs : s.takeTurn n list writes = some s') : ∃ b term row,
      term = (s.router.grantTerm s.row writes).1 ∧ row = (s.router.grantTerm s.row writes).2.2 ∧
      term / 1000000 ≤ row ∧ s.Names n list ∧ s' = { s with
        router := { s.router with recorded := b }
        row := row
        turns := Function.update s.turns n (some ⟨term / 1000000, list, none⟩) } := by
  obtain ⟨⟨-, hnames, hle⟩, hs⟩ := Option.ite_none_right_eq_some.mp hs
  obtain ⟨b, hl⟩ := grantTerm_router s.router s.row writes
  refine ⟨b, _, _, rfl, rfl, hle, hnames, ?_⟩
  rw [← hl]
  exact (Option.some.inj hs).symm

theorem Inv.takeTurn (h : s.Inv led old) {n : String} {list : List String} {writes : Bool}
    {s' : System} (hs : s.takeTurn n list writes = some s') : s'.Inv led old := by
  obtain ⟨hterm, hrow, hrow'⟩ := grantTerm_spec s.router writes h.row_le
  obtain ⟨b, term, row, rfl, rfl, hle, -, rfl⟩ := takeTurn_eq hs
  have hcap : s.cap ≤ min (s.router.term / 1000000) (s.router.grantTerm s.row writes).2.2 := by
    simp only [cap]
    omega
  have hc := h.counted (b := b) h.term_le (Nat.le_refl _) hrow' hcap
    (h.old_le.trans (Nat.add_le_add_left (Nat.mul_le_mul_right _ hrow) _)) h.old_led
  refine hc.turn n ?_
  intro x hx
  obtain rfl := Option.some.inj hx
  exact ⟨rfl, le_min (Nat.div_le_div_right hterm) hle⟩

/-! ## 4. Grants sent and read -/

/-- The numbers sent once `n` was sent `k` by the process that leads. -/
def sentTo (s : System) (n : String) (k : UInt64) : String → UInt64 → Option Nat :=
  Function.update s.sent n (Function.update (s.sent n) k (some s.process))

theorem sentTo_self (n : String) (k : UInt64) : s.sentTo n k n k = some s.process := by
  simp [sentTo]

/-- A number new to its node changes no other. -/
theorem sentTo_of_some {n m : String} {k a : UInt64} {p : Nat} (hk : s.sent n k = none)
    (h : s.sent m a = some p) : s.sentTo n k m a = some p := by
  unfold sentTo
  by_cases hm : m = n
  · subst hm
    have hne : a ≠ k := by
      rintro rfl
      simp [hk] at h
    simp [hne, h]
  · simp [hm, h]

theorem sentTo_cases {n m : String} {k a : UInt64} {p : Nat} (h : s.sentTo n k m a = some p) :
    s.sent m a = some p ∨ (m = n ∧ a = k ∧ p = s.process) := by
  unfold sentTo at h
  by_cases hm : m = n
  · subst hm
    by_cases ha : a = k
    · subst ha
      simp only [Function.update_self, Option.some.injEq] at h
      exact .inr ⟨rfl, rfl, h.symm⟩
    · exact .inl (by simpa [ha] using h)
  · exact .inl (by simpa [hm] using h)

theorem Spent.sentTo {n : String} {k : UInt64} (hk : s.sent n k = none) {g : Grant}
    (h : s.Spent g) : ({ s with sent := s.sentTo n k } : System).Spent g := by
  intro t ht
  refine (h t ht).imp_right ?_
  rintro ⟨was, j, p, hb, hj, hlt⟩
  exact ⟨was, j, p, hb, sentTo_of_some hk hj, hlt⟩

/-- A grant goes out under a number new to its node, over the lease and the answer the router
knows. -/
theorem Inv.launch (h : s.Inv led old) {x : Held} {g : Grant}
    (hx : s.router.nodes g.node = some x) (hp : g.process = s.process) (hms : g.ms ≤ s.cap)
    (hk : s.sent g.node g.numbered.grant = none) (ha : g.numbered.acked = x.ackedGrant) :
    ({ s with grants := s.grants ++ [g], sent := s.sentTo g.node g.numbered.grant } :
      System).Inv led old := by
  set s' : System :=
    { s with grants := s.grants ++ [g], sent := s.sentTo g.node g.numbered.grant } with hs'
  have hread : ∀ n a, s.Read n a → s'.Read n a := by
    rintro n a ⟨hsome, hall⟩
    obtain ⟨p, hpa⟩ := Option.isSome_iff_exists.mp hsome
    refine ⟨Option.isSome_iff_exists.mpr ⟨p, sentTo_of_some hk hpa⟩, ?_⟩
    intro g' hg' hn he
    rcases List.mem_append.mp hg' with hg' | hg'
    · exact hall g' hg' hn he
    · obtain rfl := List.mem_singleton.mp hg'
      rw [hn, he, hpa] at hk
      simp at hk
  have hmem : ∀ g' ∈ s'.grants, g' ∈ s.grants ∨ g' = g := fun g' hg' =>
    (List.mem_append.mp hg').imp_right List.mem_singleton.mp
  have hran : ∀ n, s'.Ran n → s.Ran n := by
    rintro n (ho | ⟨r, hr, hn, hrr, hrs⟩)
    · exact .inl ho
    · refine .inr ⟨r, hr, hn, hrr, ?_⟩
      rcases sentTo_cases hrs with hrs | ⟨hgn, hgk, -⟩
      · exact hrs
      · have hsome := (h.reply_read r hr).1
        rw [hn, hgn, hgk, hk] at hsome
        simp at hsome
  exact {
    sent_le := fun n k p hkp => by
      rcases sentTo_cases hkp with hkp | ⟨-, -, rfl⟩
      · exact h.sent_le n k p hkp
      · exact Nat.le_refl _
    grant_sent := fun g' hg' => by
      rcases hmem g' hg' with hg' | rfl
      · exact sentTo_of_some hk (h.grant_sent g' hg')
      · rw [hp]
        exact sentTo_self _ _
    distinct := by
      refine List.pairwise_append.mpr ⟨h.distinct, List.pairwise_singleton _ _, ?_⟩
      rintro g1 hg1 g2 hg2 ⟨hn, hnum⟩
      obtain rfl := List.mem_singleton.mp hg2
      have hsent := h.grant_sent g1 hg1
      rw [hn, hnum, hk] at hsent
      simp at hsent
    grant_acked := fun g' hg' a ha' => by
      rcases hmem g' hg' with hg' | rfl
      · obtain ⟨hr, hsa⟩ := h.grant_acked g' hg' a ha'
        exact ⟨hread _ _ hr, sentTo_of_some hk hsa⟩
      · obtain ⟨hr, hsa⟩ := h.held_acked _ x a hx (ha ▸ ha')
        rw [hp]
        exact ⟨hread _ _ hr, sentTo_of_some hk hsa⟩
    reply_read := fun r hr => hread _ _ (h.reply_read r hr)
    held_acked := fun n y a hy hya =>
      ⟨hread _ _ (h.held_acked n y a hy hya).1, sentTo_of_some hk (h.held_acked n y a hy hya).2⟩
    waiting_sent := fun n t k ht htk => sentTo_of_some hk (h.waiting_sent n t k ht htk)
    led_le := h.led_le
    answered := fun n k t ht => by
      obtain ⟨hle, p, hkp, hled⟩ := h.answered n k t ht
      exact ⟨hle, p, sentTo_of_some hk hkp, hled⟩
    started_le := h.started_le
    acked_le := h.acked_le
    term_le := h.term_le
    row_le := h.row_le
    turn_ms := h.turn_ms
    old_le := h.old_le
    old_led := h.old_led
    acked_led := h.acked_led
    lost := h.lost
    own_grant := fun g' hg' hp' => by
      rcases hmem g' hg' with hg' | rfl
      · exact h.own_grant g' hg' hp'
      · refine ⟨hms, x, hx, ?_⟩
        rintro t ⟨a, hga, hm⟩
        exact h.own_acked _ x a hx (ha ▸ hga) t hm
    own_acked := h.own_acked
    old_grant := fun g' hg' hp' => by
      rcases hmem g' hg' with hg' | rfl
      · exact h.old_grant g' hg' hp'
      · exact absurd hp hp'.ne
    runs := h.runs
    settled := fun n hn => ⟨(h.settled n (hran n hn)).runs, fun g' hg' hgn hp' => by
      rcases hmem g' hg' with hg' | rfl
      · exact Spent.sentTo hk ((h.settled n (hran n hn)).spent g' hg' hgn hp')
      · exact absurd hp hp'.ne⟩ }

/-- What a grant sent is, and what the router knows of its node after it. -/
theorem send_eq {n : String} {withList : Bool} {fresh : UInt64} {s' : System}
    (hs : s.send n withList fresh = some s') :
    ∃ ms list e, e = s.router.entry n s.clock fresh ∧ s.turns n = some ⟨ms, list, none⟩ ∧
      s.sent n e.next = none ∧ s' = { s with
        router := s.router.put n { e with next := e.next + 1 }
        grants := s.grants ++
          [⟨s.process, n, s.holder, ms, list, withList, ⟨e.next, e.ackedGrant⟩⟩]
        sent := s.sentTo n e.next
        turns := Function.update s.turns n (some ⟨ms, list, some e.next⟩) } := by
  unfold System.send at hs
  split at hs
  · rename_i ms list ht
    obtain ⟨hk, hs⟩ := Option.ite_none_right_eq_some.mp hs
    exact ⟨ms, list, _, rfl, ht, Option.isNone_iff_eq_none.mp hk, (Option.some.inj hs).symm⟩
  · simp at hs

theorem Inv.send (h : s.Inv led old) {n : String} {withList : Bool} {fresh : UInt64}
    {s' : System} (hs : s.send n withList fresh = some s') : s'.Inv led old := by
  obtain ⟨ms, list, e, rfl, ht, hk, rfl⟩ := send_eq hs
  have hms : ms ≤ s.cap := h.turn_ms n _ ht
  set e := s.router.entry n s.clock fresh
  have hput := h.put_like (n := n) (y := { e with next := e.next + 1 }) fresh
    rfl rfl rfl fun hl => .inl hl
  have hl := hput.launch (x := { e with next := e.next + 1 })
    (g := ⟨s.process, n, s.holder, ms, list, withList, ⟨e.next, e.ackedGrant⟩⟩)
    (by simp [Leases.put]) rfl hms hk rfl
  refine hl.turns ?_ ?_
  · intro m t k hm hw
    rw [Function.update_apply] at hm
    split at hm
    · obtain rfl := Option.some.inj hm
      obtain rfl := Option.some.inj hw
      subst m
      exact sentTo_self n e.next
    · exact hl.waiting_sent m t k hm hw
  · intro m t hm
    rw [Function.update_apply] at hm
    split at hm
    · obtain rfl := Option.some.inj hm
      exact hms
    · exact h.turn_ms m t hm

/-- The state a node is left in by a grant it read, and what it said. -/
def Reads (g : Grant) (now : Nat) (was st : State) (said : Except Refusal Took) : Prop :=
  (∃ took, said = .ok took ∧
    State.Granted was st g.ms g.epoch g.primaries g.numbered now took) ∨
  ((∃ r, said = .error r) ∧ st = was)

/-- The system once `g`, the `i`th on its way, was read. -/
def afterRead (s : System) (i : Nat) (g : Grant) (st : State) (said : Except Refusal Took) :
    System := { s with
  grants := s.grants.eraseIdx i
  nodes := Function.update s.nodes g.node st
  replies := s.replies ++ [⟨g.node, g.numbered.grant, said⟩] }

/-- **What a grant read does**, refused or not. -/
theorem read_eq {i : Nat} {s' : System} (h : s.read i = some s') :
    ∃ g st said, s.grants[i]? = some g ∧
      Reads g (Moment.now s.clock) (s.nodes g.node) st said ∧ s' = s.afterRead i g st said := by
  obtain ⟨g, hg, rfl⟩ := Option.map_eq_some_iff.mp h
  cases hga : (s.nodes g.node).grantAt g.holder g.ms g.epoch g.primaries (some g.numbered)
      (Moment.now s.clock) with
  | ok r =>
    obtain ⟨took, st⟩ := r
    refine ⟨g, st, .ok took, hg, .inl ⟨took, rfl, State.grantAt_granted hga⟩, ?_⟩
    simp only [hga, afterRead]
  | error r =>
    refine ⟨g, s.nodes g.node, .error r, hg, .inr ⟨⟨r, rfl⟩, rfl⟩, ?_⟩
    simp only [hga, afterRead, Function.update_eq_self]

section Read

variable {i : Nat} {g : Grant} {st : State} {said : Except Refusal Took}

/-- The answers a node keeps after a grant read: from before, or the one it just gave. -/
theorem mem_answered_read (hr : Reads g (Moment.now s.clock) (s.nodes g.node) st said)
    {n : String} {k : UInt64} {t : Nat}
    (h : (k, t) ∈ ((s.afterRead i g st said).nodes n).answered) :
    (k, t) ∈ (s.nodes n).answered ∨ (n = g.node ∧ k = g.numbered.grant ∧ t = Moment.now s.clock) := by
  simp only [afterRead, Function.update_apply] at h
  split at h
  · rename_i hn
    subst hn
    rcases hr with ⟨took, -, hr⟩ | ⟨-, rfl⟩
    · rcases hr.answered _ h with h | h
      · exact .inl h
      · obtain ⟨rfl, rfl⟩ := Prod.mk.inj h
        exact .inr ⟨rfl, rfl, rfl⟩
    · exact .inl h
  · exact .inl h

/-- What a grant acknowledges was read before, so a grant read gives no other anything to run
from. -/
theorem runs_of_read (hn : s.Numbers) (hi : s.grants[i]? = some g)
    (hr : Reads g (Moment.now s.clock) (s.nodes g.node) st said) {g' : Grant} (hg' : g' ∈ s.grants)
    {t : Nat} (h : (s.afterRead i g st said).Runs g' t) : s.Runs g' t := by
  obtain ⟨a, ha, hm⟩ := h
  rcases mem_answered_read hr hm with hm | ⟨hgn, rfl, -⟩
  · exact ⟨a, ha, hm⟩
  · exact absurd rfl ((hn.grant_acked g' hg' _ ha).1.2 g (List.mem_of_getElem? hi) hgn.symm)

/-- **A grant spent stays spent** whatever is read, short of the mistake. -/
theorem Spent.read (hn : s.Numbers) (hi : s.grants[i]? = some g) (htold : ¬ s.Mistaken g)
    (hr : Reads g (Moment.now s.clock) (s.nodes g.node) st said) {g' : Grant} (hg' : g' ∈ s.grants)
    (h : s.Spent g') : (s.afterRead i g st said).Spent g' := by
  intro t ht
  have hold := runs_of_read hn hi hr hg' ht
  refine (h t hold).imp_right ?_
  rintro ⟨was, k, p, hb, hk, hlt⟩
  by_cases hgn : g'.node = g.node
  swap
  · refine ⟨was, k, p, ?_, hk, hlt⟩
    simpa [afterRead, hgn] using hb
  rw [hgn] at hb hk
  have hnode : ((s.afterRead i g st said).nodes g'.node) = st := by simp [afterRead, hgn]
  rcases hr with ⟨took, -, hr⟩ | ⟨-, rfl⟩
  swap
  · exact ⟨was, k, p, by rw [hnode]; exact hb, by rw [hgn]; exact hk, hlt⟩
  cases hlease : took.lease with
  | false =>
    rcases hr.basis hlease with hsame | ⟨-, hall⟩
    · exact ⟨was, k, p, by rw [hnode, hsame]; exact hb, by rw [hgn]; exact hk, hlt⟩
    · -- the holder changed: no answer from before is kept
      obtain ⟨a, ha, hm⟩ := ht
      rw [hnode] at hm
      obtain ⟨rfl, -⟩ := Prod.mk.inj (hall _ hm)
      exact absurd rfl
        ((hn.grant_acked g' hg' _ ha).1.2 g (List.mem_of_getElem? hi) hgn.symm)
  | true =>
    obtain ⟨t0, ht0, -, hbasis, hnewer⟩ := hr.ran hlease
    refine ⟨t0, g.numbered.grant, g.process, by rw [hnode]; exact hbasis, ?_, ?_⟩
    · rw [hgn]
      exact hn.grant_sent g (List.mem_of_getElem? hi)
    · rcases hnewer was k hb with hw | ⟨rfl, hnum⟩
      · omega
      · -- one reading of the clock: a later process's lease gives way to no earlier one's
        have hp : ¬ g.process < p := fun hp =>
          htold ⟨t0, ht0, _, hb, rfl, p, hk, hp, hnum⟩
        omega

/-- A grant read runs no lease it is beaten to. -/
theorem not_beaten_of_ran (htold : ¬ s.Mistaken g) {t0 : Nat}
    (ht0 : (s.nodes g.node).answeredAt g.numbered.acked = some t0)
    (hnewer : ∀ was num, (s.nodes g.node).basis = some (was, num) →
      was < t0 ∨ (t0 = was ∧ 0 < (g.numbered.grant - num).toInt64)) : ¬ s.Beaten g t0 := by
  rintro ⟨was, k, p, hb, hk, hlt⟩
  rcases hnewer was k hb with hw | ⟨rfl, hnum⟩
  · omega
  · rcases hlt with hlt | ⟨-, hp⟩
    · omega
    · exact htold ⟨t0, ht0, _, hb, rfl, p, hk, hp, hnum⟩

/-- A spent grant runs no lease that has not lapsed. -/
theorem Spent.ran_lapsed (htold : ¬ s.Mistaken g) (h : s.Spent g) {took : Took}
    (hr : State.Granted (s.nodes g.node) st g.ms g.epoch g.primaries g.numbered
      (Moment.now s.clock) took) (hlease : took.lease = true) :
    st.Lapsed (Moment.now s.clock) := by
  obtain ⟨t0, ht0, hu, -, hnewer⟩ := hr.ran hlease
  obtain ⟨a, ha, hm⟩ := State.mem_answeredAt ht0
  intro u hu'
  rw [hu] at hu'
  obtain rfl := Option.some.inj hu'
  rcases h t0 ⟨a, ha, hm⟩ with hle | hb
  · exact Moment.now_mono hle
  · exact absurd hb (not_beaten_of_ran htold ht0 hnewer)

/-- A spent grant read leaves its node with a lease that has lapsed, or with the one it had. -/
theorem Spent.runs_read (htold : ¬ s.Mistaken g) (h : s.Spent g)
    (hr : Reads g (Moment.now s.clock) (s.nodes g.node) st said) :
    st.runsUntil = (s.nodes g.node).runsUntil ∨ st.Lapsed (Moment.now s.clock) := by
  rcases hr with ⟨took, -, hr⟩ | ⟨-, rfl⟩
  swap
  · exact .inl rfl
  cases hlease : took.lease with
  | false => exact .inl (hr.kept hlease)
  | true => exact .inr (h.ran_lapsed htold hr hlease)

/-- The lease a grant read ran, by what the invariant says of the moment it ran from. -/
theorem Inv.runs_read (h : s.Inv led old) (hi : s.grants[i]? = some g)
    {t : Nat} (ht : s.Runs g t) :
    (g.process < s.process ∧ Moment.after t (millis g.ms) ≤ Moment.now (max old s.clock)) ∨
    (g.process = s.process ∧ s.OwnUntil g.node (Moment.after t (millis g.ms))) := by
  have hg := List.mem_of_getElem? hi
  rcases Nat.lt_or_eq_of_le (h.sent_le _ _ _ (h.grant_sent g hg)) with hp | hp
  · exact .inl ⟨hp, Moment.now_mono (h.old_grant g hg hp t ht).2⟩
  · obtain ⟨hms, x, hx, hr⟩ := h.own_grant g hg hp
    exact .inr ⟨hp, x, hx,
      Moment.now_mono (Nat.add_le_add (hr t ht) (Nat.mul_le_mul_right _ hms))⟩

/-- A node that ran a lease of the process that leads stays settled whatever it reads. -/
theorem Settled.read (h : s.Inv led old) (hi : s.grants[i]? = some g) (htold : ¬ s.Mistaken g)
    (hr : Reads g (Moment.now s.clock) (s.nodes g.node) st said) {n : String}
    (hs : s.Settled n) : (s.afterRead i g st said).Settled n := by
  refine ⟨?_, fun g' hg' hn hp => ?_⟩
  swap
  · have hg' := List.mem_of_mem_eraseIdx hg'
    exact Spent.read h.toNumbers hi htold hr hg' (hs.spent g' hg' hn hp)
  intro u hu
  by_cases hn : n = g.node
  swap
  · exact hs.runs u (by simpa [afterRead, hn] using hu)
  subst hn
  have hu' : st.runsUntil = some u := by simpa [afterRead] using hu
  rcases Nat.lt_or_eq_of_le
    (h.sent_le _ _ _ (h.grant_sent g (List.mem_of_getElem? hi))) with hp | hp
  · -- an earlier process's grant is spent
    have hsp := hs.spent g (List.mem_of_getElem? hi) rfl hp
    rcases Spent.runs_read htold hsp hr with hsame | hl
    · rw [hsame] at hu'
      exact hs.runs u hu'
    · exact .inl (hl u hu')
  · rcases hr with ⟨took, -, hr⟩ | ⟨-, rfl⟩
    swap
    · exact hs.runs u hu'
    cases hlease : took.lease with
    | false =>
      rw [hr.kept hlease] at hu'
      exact hs.runs u hu'
    | true =>
      obtain ⟨t0, ht0, hrun, -, -⟩ := hr.ran hlease
      obtain ⟨a, ha, hm⟩ := State.mem_answeredAt ht0
      rw [hrun] at hu'
      obtain rfl := Option.some.inj hu'
      rcases h.runs_read hi ⟨a, ha, hm⟩ with ⟨hlt, -⟩ | ⟨-, hown⟩
      · exact absurd hp hlt.ne
      · exact .inr hown

/-- A lease of the process that leads beats every earlier grant: it runs from an answer given
since that process led. -/
theorem Inv.settles (h : s.Inv led old) (hi : s.grants[i]? = some g) (hp : g.process = s.process)
    {took : Took} (hlease : took.lease = true)
    (hr : State.Granted (s.nodes g.node) st g.ms g.epoch g.primaries g.numbered
      (Moment.now s.clock) took) : (s.afterRead i g st (.ok took)).Settled g.node := by
  have hg := List.mem_of_getElem? hi
  obtain ⟨t0, ht0, hrun, hbasis, -⟩ := hr.ran hlease
  obtain ⟨a, ha, hm⟩ := State.mem_answeredAt ht0
  have hnode : (s.afterRead i g st (.ok took)).nodes g.node = st := by simp [afterRead]
  refine ⟨?_, ?_⟩
  · intro u hu
    rw [hnode, hrun] at hu
    obtain rfl := Option.some.inj hu
    rcases h.runs_read hi ⟨a, ha, hm⟩ with ⟨hlt, -⟩ | ⟨-, hown⟩
    · exact absurd hp hlt.ne
    · exact .inr hown
  · intro g' hg' hn hlt t ht
    have hg' := List.mem_of_mem_eraseIdx hg'
    have hold := runs_of_read h.toNumbers hi (.inl ⟨took, rfl, hr⟩) hg' ht
    have hled : Moment.now led ≤ t0 := by
      obtain ⟨-, p, hsp, hle⟩ := h.answered _ a t0 hm
      have hsa := (h.grant_acked g hg a ha).2
      rw [hsa, hp] at hsp
      exact hle (Option.some.inj hsp).symm
    have htl := (h.old_grant g' hg' hlt t hold).1
    have hpg : g'.process < g.process := hp ▸ hlt
    refine .inr ⟨t0, g.numbered.grant, g.process, ?_, ?_, ?_⟩
    · rw [hn, hnode]
      exact hbasis
    · rw [hn]
      exact h.grant_sent g hg
    · omega

/-- The numbers once a grant was read. -/
theorem Numbers.read (h : s.Numbers) (hi : s.grants[i]? = some g) :
    (s.afterRead i g st said).Numbers := by
  have hg := List.mem_of_getElem? hi
  have hread : ∀ n k, s.Read n k → (s.afterRead i g st said).Read n k := fun n k hr =>
    ⟨hr.1, fun g' hg' => hr.2 g' (List.mem_of_mem_eraseIdx hg')⟩
  have hsub := List.eraseIdx_sublist s.grants i
  exact {
    sent_le := h.sent_le
    grant_sent := fun g' hg' => h.grant_sent g' (hsub.subset hg')
    distinct := h.distinct.sublist hsub
    grant_acked := fun g' hg' a ha =>
      ⟨hread _ _ (h.grant_acked g' (hsub.subset hg') a ha).1,
        (h.grant_acked g' (hsub.subset hg') a ha).2⟩
    reply_read := fun r hr => by
      rcases List.mem_append.mp hr with hr | hr
      · exact hread _ _ (h.reply_read r hr)
      · obtain rfl := List.mem_singleton.mp hr
        refine ⟨Option.isSome_iff_exists.mpr ⟨_, h.grant_sent g hg⟩, ?_⟩
        intro g' hg' hn hk
        obtain ⟨j, hj, hji, rfl⟩ := List.mem_eraseIdx_iff_getElem.mp hg'
        obtain ⟨hil, rfl⟩ := List.getElem?_eq_some_iff.mp hi
        have hpw := List.pairwise_iff_getElem.mp h.distinct
        rcases Nat.lt_or_gt_of_ne hji with hlt | hlt
        · exact hpw j i hj hil hlt ⟨hn, hk⟩
        · exact hpw i j hil hj hlt ⟨hn.symm, hk.symm⟩
    held_acked := fun n x a hx ha =>
      ⟨hread _ _ (h.held_acked n x a hx ha).1, (h.held_acked n x a hx ha).2⟩
    waiting_sent := h.waiting_sent }

theorem Inv.read (h : s.Inv led old) (hi : s.grants[i]? = some g) (htold : ¬ s.Mistaken g)
    (hr : Reads g (Moment.now s.clock) (s.nodes g.node) st said) :
    (s.afterRead i g st said).Inv led old := by
  have hg := List.mem_of_getElem? hi
  have hsub := List.eraseIdx_sublist s.grants i
  have hnum : (s.afterRead i g st said).Numbers := h.toNumbers.read hi
  refine { hnum, h with
    answered := ?_
    own_grant := ?_
    own_acked := ?_
    old_grant := ?_
    runs := ?_
    settled := ?_ }
  · intro n k t ht
    rcases mem_answered_read hr ht with ht | ⟨rfl, rfl, rfl⟩
    · exact h.answered n k t ht
    · exact ⟨Nat.le_refl _, g.process, h.grant_sent g hg, fun _ => Moment.now_mono h.led_le⟩
  · intro g' hg' hp
    obtain ⟨hms, x, hx, hle⟩ := h.own_grant g' (hsub.subset hg') hp
    exact ⟨hms, x, hx, fun t ht => hle t (runs_of_read h.toNumbers hi hr (hsub.subset hg') ht)⟩
  · intro n x a hx ha t ht
    rcases mem_answered_read hr ht with ht | ⟨rfl, rfl, -⟩
    · exact h.own_acked n x a hx ha t ht
    · exact absurd rfl ((h.held_acked _ x _ hx ha).1.2 g hg rfl)
  · intro g' hg' hp t ht
    exact h.old_grant g' (hsub.subset hg') hp t
      (runs_of_read h.toNumbers hi hr (hsub.subset hg') ht)
  · intro n u hu
    by_cases hn : n = g.node
    swap
    · exact h.runs n u (by simpa [afterRead, hn] using hu)
    subst hn
    have hu' : st.runsUntil = some u := by simpa [afterRead] using hu
    rcases hr with ⟨took, -, hr⟩ | ⟨-, rfl⟩
    swap
    · exact h.runs _ u hu'
    cases hlease : took.lease with
    | false =>
      rw [hr.kept hlease] at hu'
      exact h.runs _ u hu'
    | true =>
      obtain ⟨t0, ht0, hrun, -, -⟩ := hr.ran hlease
      obtain ⟨a, ha, hm⟩ := State.mem_answeredAt ht0
      rw [hrun] at hu'
      obtain rfl := Option.some.inj hu'
      exact (h.runs_read hi ⟨a, ha, hm⟩).imp And.right And.right
  · rintro n (ho | ⟨r, hrm, hrn, hrr, hrs⟩)
    · exact Settled.read h hi htold hr (h.settled n (.inl ho))
    · rcases List.mem_append.mp hrm with hrm | hrm
      · exact Settled.read h hi htold hr (h.settled n (.inr ⟨r, hrm, hrn, hrr, hrs⟩))
      · obtain rfl := List.mem_singleton.mp hrm
        subst hrn
        have hp : g.process = s.process := by
          have hgs := h.grant_sent g hg
          exact Option.some.inj (hgs.symm.trans hrs)
        rcases hr with ⟨took, rfl, hr⟩ | ⟨⟨r, rfl⟩, -⟩
        · have hlease : took.lease = true := (Bool.and_eq_true _ _ ▸ hrr : _ ∧ _).2
          exact h.settles hi hp hlease hr
        · simp [Reply.ran] at hrr

end Read

/-- A node started again has nothing to run a lease from. -/
theorem Spent.restartNode {g : Grant} (h : s.Spent g) (n : String) :
    ({ s with nodes := Function.update s.nodes n {} } : System).Spent g := by
  rintro t ⟨a, ha, hm⟩
  by_cases hgn : g.node = n
  · subst hgn
    simp at hm
  · refine (h t ⟨a, ha, by simpa [hgn] using hm⟩).imp_right ?_
    rintro ⟨was, k, p, hb, hk⟩
    exact ⟨was, k, p, by simpa [hgn] using hb, hk⟩

/-- A node started again holds no lease and kept no answer. -/
theorem Inv.restartNode (h : s.Inv led old) (n : String) :
    ({ s with nodes := Function.update s.nodes n {} } : System).Inv led old := by
  set s' : System := { s with nodes := Function.update s.nodes n {} } with hs'
  have hans : ∀ m e, e ∈ (s'.nodes m).answered → e ∈ (s.nodes m).answered := by
    intro m e he
    by_cases hm : m = n
    · subst hm
      simp [hs'] at he
    · simpa [hs', hm] using he
  have hrun : ∀ m u, (s'.nodes m).runsUntil = some u → (s.nodes m).runsUntil = some u := by
    intro m u hu
    by_cases hm : m = n
    · subst hm
      simp [hs'] at hu
    · simpa [hs', hm] using hu
  have hruns : ∀ g t, s'.Runs g t → s.Runs g t := fun g t ⟨a, ha, hm⟩ => ⟨a, ha, hans _ _ hm⟩
  exact { h with
    answered := fun m k t ht => h.answered m k t (hans _ _ ht)
    own_grant := fun g hg hp => by
      obtain ⟨hms, x, hx, hle⟩ := h.own_grant g hg hp
      exact ⟨hms, x, hx, fun t ht => hle t (hruns g t ht)⟩
    own_acked := fun m x a hx ha t ht => h.own_acked m x a hx ha t (hans _ _ ht)
    old_grant := fun g hg hp t ht => h.old_grant g hg hp t (hruns g t ht)
    runs := fun m u hu => h.runs m u (hrun m u hu)
    settled := fun m hm => ⟨fun u hu => (h.settled m hm).runs u (hrun m u hu),
      fun g hg hgn hp => ((h.settled m hm).spent g hg hgn hp).restartNode n⟩ }

/-- The router heard the answer to a grant, or gave up on it. -/
theorem Inv.recordAnswer (h : s.Inv led old) {n : String} {k : UInt64} (answer : Answer)
    {ran : Bool} (hk : answer ≠ .silent → s.Read n k ∧ s.sent n k = some s.process)
    (hran : ran = true → ∃ r ∈ s.replies, r.node = n ∧ r.ran = true ∧
      s.sent n r.grant = some s.process) (list : List String) (fresh : UInt64) :
    ({ s with router := s.recordAnswer n k list answer ran fresh } : System).Inv led old := by
  have ha := h.answered_by hk (epochOf list) fresh
  unfold System.recordAnswer
  cases ran with
  | false => exact ha
  | true => exact Inv.ran ha (.inr (hran rfl)) fresh

/-- What an answer heard is. -/
theorem hear_eq {n : String} {i : Nat} {fresh : UInt64} {s' : System}
    (hs : s.hear n i fresh = some s') :
    ∃ ms list r, s.turns n = some ⟨ms, list, some r.grant⟩ ∧ s.replies[i]? = some r ∧ r.node = n ∧
      s' = { s with
        router := s.recordAnswer n r.grant list r.answer r.ran fresh
        replies := s.replies.eraseIdx i
        turns := Function.update s.turns n (some ⟨ms, list, none⟩) } := by
  unfold System.hear at hs
  split at hs
  · rename_i ms list k r ht hr
    obtain ⟨⟨hn, rfl⟩, hs⟩ := Option.ite_none_right_eq_some.mp hs
    exact ⟨ms, list, r, ht, hr, hn, (Option.some.inj hs).symm⟩
  · simp at hs

theorem Inv.hear (h : s.Inv led old) {n : String} {i : Nat} {fresh : UInt64} {s' : System}
    (hs : s.hear n i fresh = some s') : s'.Inv led old := by
  obtain ⟨ms, list, r, ht, hr, hn, rfl⟩ := hear_eq hs
  have hrm := List.mem_of_getElem? hr
  have hsent := h.waiting_sent n _ _ ht rfl
  have hread : s.Read n r.grant := hn ▸ h.reply_read r hrm
  have hrec := h.recordAnswer r.answer (fun _ => ⟨hread, hsent⟩)
    (fun hrr => ⟨r, hrm, hn, hrr, hsent⟩) list fresh
  refine (hrec.replies (List.eraseIdx_sublist s.replies i).subset).turn n ?_
  rintro x hx
  obtain rfl := Option.some.inj hx
  exact ⟨rfl, (hrec.turn_ms n _ ht : ms ≤ _)⟩

theorem Inv.giveUp (h : s.Inv led old) {n : String} {fresh : UInt64} {s' : System}
    (hs : s.giveUp n fresh = some s') : s'.Inv led old := by
  unfold System.giveUp at hs
  split at hs
  · rename_i ms list k ht
    obtain rfl := Option.some.inj hs
    have hrec := h.recordAnswer (n := n) (k := k) .silent (fun hne => absurd rfl hne)
      (Bool.noConfusion : false = true → _) list fresh
    refine hrec.turn n ?_
    intro x hx
    obtain rfl := Option.some.inj hx
    exact ⟨rfl, (hrec.turn_ms n _ ht : ms ≤ _)⟩
  · simp at hs

theorem Inv.finish (h : s.Inv led old) {n : String} {s' : System} (hs : s.finish n = some s') :
    s'.Inv led old := by
  unfold System.finish at hs
  split at hs
  · obtain rfl := Option.some.inj hs
    exact h.turn n (by simp)
  · simp at hs

/-- **Every step keeps the invariant**, the moment of the last take-over and the bound on the
leases before it as they are unless a router takes over. -/
theorem Inv.step (h : s.Inv led old) {e : Event} {s' : System} (htold : s.Told e)
    (hs : s.step e = some s') : ∃ led old, s'.Inv led old := by
  cases e with
  | tick d =>
    obtain rfl := Option.some.inj hs
    exact ⟨_, _, h.tick d⟩
  | restart term holder =>
    obtain rfl := Option.some.inj hs
    exact ⟨_, _, h.takeOver (Nat.le_refl _) rfl rfl rfl holder⟩
  | promote term started holder =>
    obtain ⟨hle, hs⟩ := Option.ite_none_right_eq_some.mp hs
    obtain rfl := Option.some.inj hs
    exact ⟨_, _, h.takeOver hle rfl rfl rfl holder⟩
  | lead =>
    obtain rfl := Option.some.inj hs
    exact ⟨_, _, h.lead⟩
  | lower =>
    obtain ⟨hl, hs⟩ := Option.ite_none_right_eq_some.mp hs
    obtain rfl := Option.some.inj hs
    exact ⟨_, _, h.lower hl⟩
  | know n fresh =>
    obtain rfl := Option.some.inj hs
    exact ⟨_, _, h.know n fresh⟩
  | grant n list writes => exact ⟨_, _, h.takeTurn hs⟩
  | send n withList fresh => exact ⟨_, _, h.send hs⟩
  | read i =>
    obtain ⟨g, st, said, hi, hr, rfl⟩ := read_eq hs
    exact ⟨_, _, h.read hi (htold i rfl g hi) hr⟩
  | hear n i fresh => exact ⟨_, _, h.hear hs⟩
  | giveUp n fresh => exact ⟨_, _, h.giveUp hs⟩
  | finish n => exact ⟨_, _, h.finish hs⟩
  | restartNode n =>
    obtain rfl := Option.some.inj hs
    exact ⟨_, _, h.restartNode n⟩
  | suspect n =>
    obtain rfl := Option.some.inj hs
    exact ⟨_, _, h.suspect n⟩
  | confirm n =>
    obtain ⟨⟨-, hf⟩, hs⟩ := Option.ite_none_right_eq_some.mp hs
    obtain rfl := Option.some.inj hs
    exact ⟨_, _, h.confirm hf n⟩
  | failOver n x dest =>
    obtain ⟨-, hs⟩ := Option.ite_none_right_eq_some.mp hs
    obtain rfl := Option.some.inj hs
    exact ⟨_, _, (h.release n x).place _⟩
  | withhold n x fresh =>
    obtain ⟨-, hs⟩ := Option.ite_none_right_eq_some.mp hs
    obtain rfl := Option.some.inj hs
    exact ⟨_, _, h.withhold n x fresh⟩
  | release n x =>
    obtain rfl := Option.some.inj hs
    exact ⟨_, _, h.release n x⟩
  | create x n =>
    obtain ⟨-, hs⟩ := Option.ite_none_right_eq_some.mp hs
    obtain rfl := Option.some.inj hs
    exact ⟨_, _, h.place _⟩

end System

end Fenec.Lease
