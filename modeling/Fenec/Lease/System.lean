/-
# Routers, nodes, and the grants between them

The system the two sides of a lease make up: the router process that leads, the nodes, the
directory's record and placement, and the grants and answers on their way.  A message may be
delayed without bound, lost (it is never read) and read in any order; each is read once, as a
grant is never sent again under its number.  Both sides read one clock that never goes back.

An `Event` is one step of it, and `System.step` says what the step does, none where it cannot
happen.  One router leads at a time: a process started again or promoted takes over from the one
before, of which nothing is left but its grants on their way.  A grant goes out in its node's
turn, and a lapse is judged in that turn, when the router waits on no grant to the node.

Two fields are history, kept to say things and read by no step but one: the number of the process
that leads, and by which process each number was sent to each node.  Numbers drawn never repeat,
so a grant goes out only under a number its node was not sent before.
-/
import Fenec.Lease.Router
import Fenec.Lib.Run

namespace Fenec.Lease

/-! ## 1. Messages and the state -/

/-- A grant on its way to a node. -/
structure Grant where
  /-- The router process that sent it. -/
  process : Nat
  node : String
  holder : Holder
  ms : Nat
  /-- The tenants it names, by their list or by the list's epoch alone. -/
  list : List String
  withList : Bool
  numbered : Numbered

/-- The epoch a grant carries. -/
def Grant.epoch (g : Grant) : String := epochOf g.list

/-- The list a grant carries, if any. -/
def Grant.primaries (g : Grant) : Option (List String) := if g.withList then some g.list else none

/-- A node's answer on its way to the router. -/
structure Reply where
  node : String
  grant : UInt64
  said : Except Refusal Took

/-- What the router makes of an answer. -/
def Reply.answer (r : Reply) : Answer :=
  match r.said with
  | .ok took => if took.list then .taken else .kept
  | .error (.needList _) => .needsList
  | .error (.superseded _) => .superseded

/-- The answer says that the node ran its lease from the router's answer. -/
def Reply.ran (r : Reply) : Bool :=
  match r.said with
  | .ok took => took.list && took.lease
  | .error _ => false

/-- A node's turn, taken by a grant: the lease it runs in milliseconds, the list it goes over, and
the number the router waits on an answer to. -/
structure Turn where
  ms : Nat
  list : List String
  waiting : Option UInt64 := none

/-- **The system.** -/
structure System where
  clock : Nat
  nodes : String → State
  /-- The leases of the router process that leads. -/
  router : Leases
  holder : Holder
  turns : String → Option Turn
  /-- The directory's record of the longest lease, its row's milliseconds. -/
  row : Nat
  /-- The node the directory places each tenant on. -/
  place : String → Option String
  grants : List Grant
  replies : List Reply
  /-- How many router processes led before this one. -/
  process : Nat
  /-- Which process sent a node each number. -/
  sent : String → UInt64 → Option Nat

/-- The system before its first grant: a router process just started over any directory. -/
def System.initial (clock : Nat) (term : Nat) (holder : Holder) (lease : Nat)
    (place : String → Option String) : System where
  clock := clock
  nodes := fun _ => {}
  router := .new term clock
  holder := holder
  turns := fun _ => none
  row := recordLease lease
  place := place
  grants := []
  replies := []
  process := 0
  sent := fun _ _ => none

/-- One step of the system. -/
inductive Event where
  /-- Time passes. -/
  | tick (d : Nat)
  /-- The router is started again, with any lease. -/
  | restart (term : Nat) (holder : Holder)
  /-- A standby started at `started` is promoted. -/
  | promote (term : Nat) (started : Nat) (holder : Holder)
  /-- A round of the router begins. -/
  | lead
  /-- The record comes down to the router's own lease. -/
  | lower
  /-- The router learns of a node. -/
  | know (node : String) (fresh : UInt64)
  /-- A grant over `list` takes the node's turn; `writes` where the directory can be written. -/
  | grant (node : String) (list : List String) (writes : Bool)
  /-- The grant whose turn it is goes out, with its list or without. -/
  | send (node : String) (withList : Bool) (fresh : UInt64)
  /-- The node of the `i`th grant on its way reads it and answers. -/
  | read (i : Nat)
  /-- The router hears the `i`th answer on its way, which it waits on. -/
  | hear (node : String) (i : Nat) (fresh : UInt64)
  /-- The router gives up on the answer it waits on. -/
  | giveUp (node : String) (fresh : UInt64)
  /-- The turn ends. -/
  | finish (node : String)
  /-- The node is started again, and forgets its lease. -/
  | restartNode (node : String)
  /-- A round suspects the node. -/
  | suspect (node : String)
  /-- The node's lapse is judged in its turn. -/
  | confirm (node : String)
  /-- A tenant of a node failed over is placed on another. -/
  | failOver (node tenant dest : String)
  /-- A tenant of a node failed over is withheld from its grants. -/
  | withhold (node tenant : String) (fresh : UInt64)
  /-- A tenant withheld is named again. -/
  | release (node tenant : String)
  /-- A tenant is placed for the first time. -/
  | create (tenant node : String)

/-- Which grant on its way an event reads. -/
def Event.reads : Event → Option Nat
  | .read i => some i
  | _ => none

/-! ## 2. What each step does -/

namespace System

variable (s : System)

/-- A router process takes over: the one before leaves its grants on their way. -/
def takeOver (l : Leases) (holder : Holder) : System := { s with
  router := l
  holder := holder
  turns := fun _ => none
  process := s.process + 1 }

/-- A list a grant to `node` may go over: it leaves out every tenant placed elsewhere or
withheld. -/
def Names (node : String) (list : List String) : Prop :=
  ∀ x ∈ list, s.place x = some node ∧ s.router.withheld node x = none

instance (node : String) (list : List String) : Decidable (s.Names node list) :=
  inferInstanceAs (Decidable (∀ x ∈ list, _))

/-- The record covers the lease granted, which the directory's write before the first grant is
for. -/
def takeTurn (node : String) (list : List String) (writes : Bool) : Option System :=
  let (term, router, row) := s.router.grantTerm s.row writes
  let ms := term / 1000000
  if (s.turns node).isNone ∧ s.Names node list ∧ ms ≤ row then
    some { s with
      router := router, row := row,
      turns := Function.update s.turns node (some { ms := ms, list := list }) }
  else none

/-- The grant of `node`'s turn goes out under the next number. -/
def send (node : String) (withList : Bool) (fresh : UInt64) : Option System :=
  match s.turns node with
  | some ⟨ms, list, none⟩ =>
    let (numbered, router) := s.router.number node s.clock fresh
    let g : Grant := ⟨s.process, node, s.holder, ms, list, withList, numbered⟩
    if (s.sent node numbered.grant).isNone then
      let sentTo := Function.update (s.sent node) numbered.grant (some s.process)
      some { s with
        router := router, grants := s.grants ++ [g], sent := Function.update s.sent node sentTo,
        turns := Function.update s.turns node (some ⟨ms, list, some numbered.grant⟩) }
    else none
  | _ => none

/-- The node reads the `i`th grant on its way: it is read no more, and answered. -/
def read (i : Nat) : Option System :=
  (s.grants[i]?).map fun g =>
    let s := { s with grants := s.grants.eraseIdx i }
    let now := Moment.now s.clock
    match (s.nodes g.node).grantAt g.holder g.ms g.epoch g.primaries (some g.numbered) now with
    | .ok (took, state) => { s with
        nodes := Function.update s.nodes g.node state,
        replies := s.replies ++ [⟨g.node, g.numbered.grant, .ok took⟩] }
    | .error r => { s with replies := s.replies ++ [⟨g.node, g.numbered.grant, .error r⟩] }

/-- The router's record of an answer it heard. -/
def recordAnswer (node : String) (grant : UInt64) (list : List String) (answer : Answer)
    (ran : Bool) (fresh : UInt64) : Leases :=
  let l := (s.router.answered node grant (epochOf list) answer s.clock fresh).2
  if ran then l.ran node s.clock fresh else l

/-- The router hears the `i`th answer on its way, where it waits on it. -/
def hear (node : String) (i : Nat) (fresh : UInt64) : Option System :=
  match s.turns node, s.replies[i]? with
  | some ⟨ms, list, some k⟩, some r =>
    if r.node = node ∧ r.grant = k then
      some { s with
        router := s.recordAnswer node k list r.answer r.ran fresh,
        replies := s.replies.eraseIdx i,
        turns := Function.update s.turns node (some ⟨ms, list, none⟩) }
    else none
  | _, _ => none

/-- The router gives up on the grant it waits on. -/
def giveUp (node : String) (fresh : UInt64) : Option System :=
  match s.turns node with
  | some ⟨ms, list, some k⟩ =>
    some { s with
      router := s.recordAnswer node k list .silent false fresh,
      turns := Function.update s.turns node (some ⟨ms, list, none⟩) }
  | _ => none

/-- The turn ends once the router waits on nothing. -/
def finish (node : String) : Option System :=
  match s.turns node with
  | some ⟨_, _, none⟩ => some { s with turns := Function.update s.turns node none }
  | _ => none

/-- **One step of the system.** -/
def step : Event → Option System
  | .tick d => some { s with clock := s.clock + d }
  | .restart term holder => some (s.takeOver (.new term s.clock) holder)
  | .promote term started holder =>
    if started ≤ s.clock then some (s.takeOver (Leases.new term started).standby holder) else none
  | .lead => some { s with router := s.router.leading (leaseRecord s.row) s.clock }
  | .lower =>
    if s.router.lowerable s.clock then
      some { s with router := s.router.lowered, row := recordLease s.router.term }
    else none
  | .know node fresh => some { s with router := s.router.know node s.clock fresh }
  | .grant node list writes => s.takeTurn node list writes
  | .send node withList fresh => s.send node withList fresh
  | .read i => s.read i
  | .hear node i fresh => s.hear node i fresh
  | .giveUp node fresh => s.giveUp node fresh
  | .finish node => s.finish node
  | .restartNode node => some { s with nodes := Function.update s.nodes node {} }
  | .suspect node => some { s with router := (s.router.suspect node s.clock).2 }
  | .confirm node =>
    -- a failover's thread is started by a round, past `leading`, and takes the node's turn
    if (s.turns node).isNone ∧ s.router.following = false then
      some { s with router := (s.router.confirmLapse node s.clock).2 }
    else none
  | .failOver node tenant dest =>
    if (s.turns node).isNone ∧ s.router.isLost node ∧ s.place tenant = some node then
      some { s with
        router := s.router.release node tenant,
        place := Function.update s.place tenant (some dest) }
    else none
  | .withhold node tenant fresh =>
    if (s.turns node).isNone ∧ s.router.isLost node then
      some { s with router := s.router.withhold node tenant s.clock fresh }
    else none
  | .release node tenant => some { s with router := s.router.release node tenant }
  | .create tenant node =>
    if (s.place tenant).isNone then
      some { s with place := Function.update s.place tenant (some node) }
    else none

/-- Whether `node` allows a write to `tenant` now. -/
def Allows (node tenant : String) : Prop :=
  (s.nodes node).allowsAt tenant (Moment.now s.clock) = .ok ()

instance (node tenant : String) : Decidable (s.Allows node tenant) :=
  inferInstanceAs (Decidable (_ = Except.ok ()))

end System

end Fenec.Lease
