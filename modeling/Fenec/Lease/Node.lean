/-
# A node's lease from its router

A node started to take leases writes a tenant only while the lease it holds names the tenant and
has not lapsed.  This module is `fenec-http`'s `lease.rs`: the lease a node holds, what a grant
does to it and what it allows.

The lease runs from a moment the router acknowledged.  A grant is numbered and names the newest
grant whose answer the router had back in time; the node notes when it answered each grant, and
runs its lease from when it answered the one acknowledged, never from when it reads the grant.  A
grant is taken whole where it is NEWER than the grant the lease came from: by the answer it
acknowledges, then by its own number.  Its list alone is taken where the lease has lapsed.

A moment is the clock's reading in nanoseconds, a length of time nanoseconds too.

* §1 is the clock, who grants a lease, and the lease held.
* §2 is `grant_at`, §3 is `allows_at`.
* §4 says what a grant read can do, once for every proof about it.
-/
import Mathlib.Data.List.Basic
import Mathlib.Order.Lattice
import Mathlib.Order.Basic
import Mathlib.Tactic.Ring

namespace Fenec.Lease

/-! ## 1. The lease held -/

/-- The last reading of the clock, `u64::MAX` nanoseconds. -/
def clockEnd : Nat := 2 ^ 64 - 1

/-- The reading of the clock `t` nanoseconds in: it stops at its end. -/
def Moment.now (t : Nat) : Nat := min t clockEnd

/-- Nanoseconds in `ms` milliseconds, `Duration::from_millis`. -/
def millis (ms : Nat) : Nat := ms * 1000000

/-- `d` nanoseconds after a moment; the clock's end where that is past it. -/
def Moment.after (m : Nat) (d : Nat) : Nat := Moment.now (m + d)

/-- Who grants a lease: the directory a router leases from, how many times its history forked,
and the history it is on. -/
structure Holder where
  authority : String
  term : UInt64
  history : UInt64
  deriving DecidableEq

/-- Whether a grant from `self` is superseded by the lease `held`: from its directory at a higher
term, or at its term on another history; from another directory while the lease runs. -/
def Holder.supersededBy (self held : Holder) (running : Bool) : Bool :=
  if self.authority != held.authority then running
  else self.term < held.term || (self.term == held.term && self.history != held.history)

/-- A grant's number, and the number of the newest grant whose answer the router had back. -/
structure Numbered where
  grant : UInt64
  acked : Option UInt64
  deriving DecidableEq

/-- What a node did with a grant it answered: whether it took its list, and whether it ran the
lease from the answer the grant acknowledges. -/
structure Took where
  list : Bool
  lease : Bool
  deriving DecidableEq

/-- Why a grant was not taken. -/
inductive Refusal where
  /-- It named a list the node does not hold: the epoch it holds, if any. -/
  | needList (held : Option String)
  /-- The node holds a lease that supersedes it: from whom. -/
  | superseded (held : Holder)
  deriving DecidableEq

/-- The lease a node holds. -/
structure State where
  /-- Until when it runs (`until`), none before the first that did. -/
  runsUntil : Option Nat := none
  primaries : List String := []
  /-- The name of the list held: the router's epoch it came with. -/
  epoch : Option String := none
  /-- Who granted the lease held. -/
  holder : Option Holder := none
  /-- The numbered grants answered for `holder`, and when each was, oldest first. -/
  answered : List (UInt64 × Nat) := []
  /-- What the lease and the list held came from: when the answer their grant acknowledged was
  given, and that grant's number. -/
  basis : Option (Nat × UInt64) := none

/-- How many answered grants a node keeps. -/
def ANSWERED : Nat := 16

/-- Holds `primaries` under `epoch` where a grant brought them. -/
def State.takeList (s : State) (epoch : String) (primaries : Option (List String)) : State :=
  match primaries with
  | some list => { s with primaries := list, epoch := some epoch }
  | none => s

/-! ## 2. A grant -/

/-- Whether the lease held runs at `now`. -/
def State.running (s : State) (now : Nat) : Bool :=
  s.runsUntil.any fun u => decide (now < u)

/-- The lease as a numbered grant of `holder` finds it: another holder's numbers name none of its
grants. -/
def State.heldFor (s : State) (holder : Holder) : State :=
  if s.holder = some holder then s
  else { s with answered := [], basis := none, holder := some holder }

/-- When the node answered the grant acknowledged, where it kept that. -/
def State.answeredAt (s : State) (acked : Option UInt64) : Option Nat :=
  acked.bind fun a => (s.answered.find? fun e => e.1 == a).map Prod.snd

/-- Newer than the grant the lease came from: by the answer it acknowledges, then by its own
number, counted on as the router sent them. -/
def State.newer (s : State) (grant : UInt64) (at? : Option Nat) : Bool :=
  match at?, s.basis with
  | some t, some (was, num) => decide (was < t) || (t == was && decide (0 < (grant - num).toInt64))
  | some _, none => true
  | none, _ => false

/-- Notes when `grant` was answered; the oldest is forgotten past `ANSWERED`. -/
def State.note (s : State) (grant : UInt64) (now : Nat) : State :=
  let kept := if s.answered.length = ANSWERED then s.answered.tail else s.answered
  { s with answered := kept ++ [(grant, now)] }

/-- Why a grant is refused outright: the lease held supersedes its holder's, or it names a list
the node does not hold. -/
def State.refusal (s : State) (holder : Holder) (epoch : String)
    (primaries : Option (List String)) (now : Nat) : Option Refusal :=
  match s.holder.filter fun held => holder.supersededBy held (s.running now) with
  | some held => some (.superseded held)
  | none => if primaries.isNone && s.epoch != some epoch then some (.needList s.epoch) else none

/-- A numbered grant that is not refused: its list and the lease it runs taken together where it
is newer, its list alone where the lease has lapsed. -/
def State.takeNumbered (s : State) (holder : Holder) (ms : Nat) (epoch : String)
    (primaries : Option (List String)) (numbered : Numbered) (now : Nat) : Took × State :=
  let running := s.running now
  let s := s.heldFor holder
  let from? := s.answeredAt numbered.acked
  let newer := s.newer numbered.grant from?
  let took := !running || newer
  let s := if took then s.takeList epoch primaries else s
  let s := match newer, from? with
    | true, some t => { s with
        runsUntil := some (Moment.after t (millis ms)), basis := some (t, numbered.grant) }
    | _, _ => s
  (⟨took, newer⟩, s.note numbered.grant now)

/-- **`grant_at`**: answers a grant, over `primaries` when they come with it and over the list
already held when `epoch` names it. -/
def State.grantAt (s : State) (holder : Holder) (ms : Nat) (epoch : String)
    (primaries : Option (List String)) (numbered : Option Numbered) (now : Nat) :
    Except Refusal (Took × State) :=
  match s.refusal holder epoch primaries now with
  | some r => .error r
  | none => match numbered with
    | none =>
      -- a router from before numbers: the lease runs from now
      .ok (⟨true, true⟩, { s.takeList epoch primaries with
        holder := some holder, runsUntil := some (Moment.after now (millis ms)), basis := none })
    | some numbered => .ok (s.takeNumbered holder ms epoch primaries numbered now)

/-! ## 3. What the lease allows -/

/-- **`allows_at`**: whether `tenant` may take a write at `now`, and why not. -/
def State.allowsAt (s : State) (tenant : String) (now : Nat) : Except String Unit :=
  match s.runsUntil with
  | none => .error "this node holds no lease from its router yet, and takes no write until it does"
  | some u =>
    if u ≤ now then
      .error ("this node's lease from its router lapsed: its tenants may be failing over " ++
        "to other nodes; send the write through the router")
    else if !s.primaries.contains tenant then
      .error ("the router places `" ++ tenant ++ "` on another node: this copy takes no write")
    else .ok ()

/-- The lease, if any, has lapsed at `now`. -/
def State.Lapsed (s : State) (now : Nat) : Prop := ∀ u, s.runsUntil = some u → u ≤ now

theorem State.allowsAt_of_lapsed {s : State} {now : Nat} (h : s.Lapsed now) (tenant : String) :
    s.allowsAt tenant now ≠ .ok () := by
  unfold State.allowsAt
  cases hu : s.runsUntil with
  | none => simp
  | some u => simp [h u hu]

theorem State.allowsAt_ok {s : State} {now : Nat} {tenant : String}
    (h : s.allowsAt tenant now = .ok ()) : ¬ s.Lapsed now ∧ tenant ∈ s.primaries := by
  refine ⟨fun hl => allowsAt_of_lapsed hl tenant h, ?_⟩
  unfold State.allowsAt at h
  split at h
  · simp at h
  · split at h
    · simp at h
    · split at h
      · simp at h
      · rename_i hc
        simpa using hc

theorem State.running_iff {s : State} {now : Nat} : s.running now = false ↔ s.Lapsed now := by
  unfold State.running State.Lapsed
  cases s.runsUntil <;> simp

/-! ## 4. What a grant read can do -/

theorem Moment.now_mono {t t' : Nat} (h : t ≤ t') : Moment.now t ≤ Moment.now t' :=
  inf_le_inf_right _ h

theorem Moment.now_le (t : Nat) : Moment.now t ≤ t := min_le_left _ _

section Grant

variable {s s' : State} {holder : Holder} {ms : Nat} {epoch : String}
  {primaries : Option (List String)} {numbered : Numbered} {now : Nat} {took : Took}

@[simp] theorem State.takeList_runsUntil : (s.takeList epoch primaries).runsUntil = s.runsUntil := by
  cases primaries <;> rfl

@[simp] theorem State.takeList_answered : (s.takeList epoch primaries).answered = s.answered := by
  cases primaries <;> rfl

@[simp] theorem State.takeList_basis : (s.takeList epoch primaries).basis = s.basis := by
  cases primaries <;> rfl

theorem State.takeList_primaries :
    (s.takeList epoch primaries).primaries = primaries.getD s.primaries := by
  cases primaries <;> rfl

@[simp] theorem State.heldFor_runsUntil : (s.heldFor holder).runsUntil = s.runsUntil := by
  unfold State.heldFor
  split <;> rfl

@[simp] theorem State.heldFor_primaries : (s.heldFor holder).primaries = s.primaries := by
  unfold State.heldFor
  split <;> rfl

theorem State.mem_answeredAt {acked : Option UInt64} {t : Nat} (h : s.answeredAt acked = some t) :
    ∃ a, acked = some a ∧ (a, t) ∈ s.answered := by
  obtain ⟨a, ha, h⟩ := Option.bind_eq_some_iff.mp h
  obtain ⟨e, he, rfl⟩ := Option.map_eq_some_iff.mp h
  have hm := List.mem_of_find?_eq_some he
  have hp := List.find?_some he
  obtain ⟨k, t⟩ := e
  obtain rfl : k = a := by simpa using hp
  exact ⟨k, ha, hm⟩

theorem State.mem_note {grant : UInt64} {e : UInt64 × Nat}
    (h : e ∈ (s.note grant now).answered) : e ∈ s.answered ∨ e = (grant, now) := by
  unfold State.note at h
  rcases List.mem_append.mp h with h | h
  · refine .inl ?_
    split at h
    · exact List.mem_of_mem_tail h
    · exact h
  · exact .inr (List.mem_singleton.mp h)

/-- **What a numbered grant that was answered did.**  The answers kept are some of those from
before, for one holder, and the new one.  Either it ran no lease, the lease held left as it was
and its basis too unless the holder changed; or it ran one from an answer it acknowledges, newer
than the basis. -/
structure State.Granted (s s' : State) (ms : Nat) (epoch : String)
    (primaries : Option (List String)) (numbered : Numbered) (now : Nat) (took : Took) :
    Prop where
  answered : ∀ e ∈ s'.answered, e ∈ s.answered ∨ e = (numbered.grant, now)
  kept : took.lease = false → s'.runsUntil = s.runsUntil
  basis : took.lease = false → s'.basis = s.basis ∨
    s'.basis = none ∧ ∀ e ∈ s'.answered, e = (numbered.grant, now)
  ran : took.lease = true → ∃ t, s.answeredAt numbered.acked = some t ∧
    s'.runsUntil = some (Moment.after t (millis ms)) ∧ s'.basis = some (t, numbered.grant) ∧
    ∀ was num, s.basis = some (was, num) →
      was < t ∨ (t = was ∧ 0 < (numbered.grant - num).toInt64)
  lists : took.list = true ↔ s.Lapsed now ∨ took.lease = true
  list : took.list = true → s'.primaries = primaries.getD s.primaries
  same : took.list = false → s'.primaries = s.primaries
  named : primaries = none → s.epoch = some epoch

theorem State.newer_some {grant : UInt64} {from? : Option Nat} (h : s.newer grant from? = true) :
    ∃ t, from? = some t ∧ ∀ was num, s.basis = some (was, num) →
      was < t ∨ (t = was ∧ 0 < (grant - num).toInt64) := by
  unfold State.newer at h
  split at h
  · rename_i t was num hb
    refine ⟨t, rfl, ?_⟩
    intro was' num' hb'
    rw [hb] at hb'
    obtain ⟨rfl, rfl⟩ := Prod.mk.inj (Option.some.inj hb')
    simpa using h
  · rename_i t hb
    refine ⟨t, rfl, ?_⟩
    intro was' num' hb'
    simp [hb] at hb'
  · simp at h

/-- The lease as a grant of `holder` finds it keeps the answers and the basis, or has neither. -/
theorem State.heldFor_cases (s : State) (holder : Holder) : s.heldFor holder = s ∨
    (s.heldFor holder).answered = [] ∧ (s.heldFor holder).basis = none := by
  unfold State.heldFor
  split
  · exact .inl rfl
  · exact .inr ⟨rfl, rfl⟩

theorem State.grantAt_granted
    (h : s.grantAt holder ms epoch primaries (some numbered) now = .ok (took, s')) :
    State.Granted s s' ms epoch primaries numbered now took := by
  unfold State.grantAt at h
  split at h
  · simp at h
  rename_i href
  have hname : primaries = none → s.epoch = some epoch := by
    rintro rfl
    unfold State.refusal at href
    split at href
    · simp at href
    · simpa using href
  simp only [State.takeNumbered, Except.ok.injEq, Prod.mk.injEq] at h
  obtain ⟨rfl, rfl⟩ := h
  have hheld := State.heldFor_cases s holder
  set t := s.heldFor holder with ht
  have hru : t.runsUntil = s.runsUntil := State.heldFor_runsUntil
  have hpr : t.primaries = s.primaries := State.heldFor_primaries
  have hran : s.running now = false ↔ s.Lapsed now := State.running_iff
  cases hn : t.newer numbered.grant (t.answeredAt numbered.acked) with
  | true =>
    obtain ⟨at', hat, hlt⟩ := State.newer_some hn
    obtain ⟨a, -, hm⟩ := State.mem_answeredAt hat
    -- an answer was found, so the holder is the one from before
    have hts : t = s := hheld.resolve_right fun hc => by simp [hc.1] at hm
    rw [hts] at hlt
    have hat' : s.answeredAt numbered.acked = some at' := by rw [← hts]; exact hat
    simp only [hat, Bool.or_true, if_true]
    exact {
      answered := fun e he => by
        rcases State.mem_note he with he | he
        · exact .inl (by simpa [hts] using he)
        · exact .inr he
      kept := by simp
      basis := by simp
      ran := fun _ => ⟨at', hat', rfl, rfl, hlt⟩
      lists := by simp
      list := fun _ => by simp [State.note, State.takeList_primaries, hpr]
      same := by simp
      named := hname }
  | false =>
    simp only [Bool.or_false]
    exact {
      answered := fun e he => by
        rcases State.mem_note he with he | he
        · rcases hheld with hts | ⟨hts, -⟩
          · refine .inl ?_
            split at he <;> simpa [hts] using he
          · split at he <;> simp [hts] at he
        · exact .inr he
      kept := fun _ => by split <;> simp [State.note, hru]
      basis := fun _ => by
        rcases hheld with hts | ⟨hta, htb⟩
        · refine .inl ?_
          split <;> simp [State.note, hts]
        · refine .inr ⟨?_, ?_⟩
          · split <;> simp [State.note, htb]
          · intro e he
            rcases State.mem_note he with he | he
            · split at he <;> simp [hta] at he
            · exact he
      ran := by simp
      lists := by simp [hran]
      list := fun hl => by
        rw [if_pos hl]
        simp [State.note, State.takeList_primaries, hpr]
      same := fun hl => by
        rw [if_neg (Bool.eq_false_iff.mp hl)]
        simp [State.note, hpr]
      named := hname }

end Grant

end Fenec.Lease
