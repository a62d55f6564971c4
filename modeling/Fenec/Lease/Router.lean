/-
# The router's leases

The router's side of the lease: `fenec-shard`'s `lease.rs`, and the part of its `lib.rs` that
says how long a lease a grant runs.  The router grants every node a lease over the tenants it
places there, renews it while it reaches the node, and fails a node over once its lease has
certainly lapsed: a lease and a tenth after the last answer that came back.

A router process that begins leading counts every node as granted at that moment, by the longest
lease the directory recorded, until a grant of its own RAN a lease on the node (`own`).

* §1 is what the router knows of a node and of its own leasing, §2 how it begins to lead and how
  long a node may hold a lease, §3 the record the directory keeps, §4 a grant and its answer, §5
  the judgement of a lapse, §6 the tenants withheld from a node.

A map by node name is a function here, and the reading of a clock, a random number and the
directory's record are arguments.  Moments and lengths of time are in nanoseconds.
-/
import Fenec.Lease.Node
import Fenec.Lib.Utf8
import Mathlib.Logic.Function.Basic

namespace Fenec.Lease

open Fenec.Lib (hexDigits)

/-! ## 1. What the router knows -/

/-- How much longer than a lease the router waits before it counts one lapsed. -/
def lapse (term : Nat) : Nat := term + term / 10

/-- What the router knows of a node. -/
structure Held where
  /-- When the answer to the last grant the node took came back. -/
  acked : Nat
  /-- The number of that grant: what every grant after it acknowledges. -/
  ackedGrant : Option UInt64 := none
  /-- When the router last stopped waiting on a grant to it, answered or not. -/
  settled : Nat
  /-- The number the next grant goes out under. -/
  next : UInt64
  /-- It took a grant without answering its number: a node from before numbered grants. -/
  unnumbered : Bool := false
  /-- The epoch of the list the node holds, as far as the router knows. -/
  epoch : Option String := none
  /-- Failed over. -/
  lost : Bool := false
  /-- It said it takes no lease, and is never failed over on its own. -/
  refuses : Bool := false
  /-- It ran a lease from this router's answer. -/
  own : Bool := false
  /-- Its lease looked lapsed, and a failover of it waits for its turn. -/
  failing : Bool := false

/-- What a grant to a node said back. -/
inductive Answer where
  | taken
  | kept
  | needsList
  | refuses
  | superseded
  | unfenced
  | silent
  deriving DecidableEq

/-- A router process's leases. -/
structure Leases where
  term : Nat
  nodes : String → Option Held
  /-- When this router began leasing. -/
  started : Nat
  /-- Set by a round of a standby router and taken by its first round once promoted; set from the
  start. -/
  following : Bool
  /-- By node, the tenants a failover left on it, and from when each may be promoted. -/
  withheld : String → String → Option Nat
  /-- The longest lease a node that has taken none of this router's grants may hold. -/
  inherited : Nat
  /-- This router made sure the directory's record covers its own lease. -/
  recorded : Bool

namespace Leases

/-- `Leases::new`, at `now`. -/
def new (term : Nat) (now : Nat) : Leases where
  term := term
  nodes := fun _ => none
  started := now
  following := true
  withheld := fun _ _ => none
  inherited := term
  recorded := false

variable (l : Leases)

/-! ## 2. Leading -/

/-- A standby router's round: it leases nothing, and forgets what it knew. -/
def standby : Leases := { l with
  nodes := fun _ => none
  withheld := fun _ _ => none
  following := true
  recorded := false
  inherited := l.term }

/-- A round of a router that leases: the first after following counts every node as granted from
`now`, by the longest lease recorded. -/
def leading (recorded : Option Nat) (now : Nat) : Leases :=
  if l.following then { l with
    following := false
    inherited := max l.term (recorded.getD 0)
    nodes := fun n => (l.nodes n).map fun h => { h with acked := max h.acked now }
    withheld := fun _ _ => none
    started := now }
  else l

/-- The lease `h` may hold: this router's own once it ran one, the longest recorded until then. -/
def termOf (h : Held) : Nat := if h.own then l.term else l.inherited

/-- `node`'s record, counted as granted when this router first knew it. -/
def entry (node : String) (now : Nat) (fresh : UInt64) : Held :=
  (l.nodes node).getD { acked := max l.started now, settled := max l.started now, next := fresh }

/-- `h` put back as what the router knows of `node`. -/
def put (node : String) (h : Held) : Leases := { l with nodes := Function.update l.nodes node h }

/-- Makes sure `node` is counted from when this router first knew it. -/
def know (node : String) (now : Nat) (fresh : UInt64) : Leases :=
  l.put node (l.entry node now fresh)

/-! ## 3. The directory's record -/

end Leases

/-- What the directory's row holds for a lease: its whole milliseconds, as far as an `i64` goes. -/
def recordLease (lease : Nat) : Nat := min (lease / 1000000) (2 ^ 63 - 1)

/-- The longest lease recorded, from the row's milliseconds: none where none is. -/
def leaseRecord (row : Nat) : Option Nat := if 0 < row then some (millis row) else none

namespace Leases

variable (l : Leases)

/-- Whether the record may come down to this router's own lease: it is longer, and this router
has led a lease and a tenth of it. -/
def lowerable (now : Nat) : Bool :=
  decide (l.term < l.inherited) && !l.following && decide (lapse l.inherited < now - l.started)

/-- The record came down to this router's own lease. -/
def lowered : Leases := { l with inherited := l.term }

/-- `grant_term`: the lease a grant runs, the directory made to record one no shorter before the
first.  Where the raise cannot be written the grant runs no longer than the record, and this
router's own lease where there is none. -/
def grantTerm (row : Nat) (writes : Bool) : Nat × Leases × Nat :=
  if l.recorded then (l.term, l, row)
  else if (leaseRecord row).any (fun was => decide (l.term ≤ was)) then
    (l.term, { l with recorded := true }, row)
  else if writes then (l.term, { l with recorded := true }, recordLease l.term)
  else ((leaseRecord row).getD l.term, l, row)

/-! ## 4. A grant and its answer -/

/-- The number of the next grant to `node`, and the grant it acknowledges. -/
def number (node : String) (now : Nat) (fresh : UInt64) : Numbered × Leases :=
  let h := l.entry node now fresh
  (⟨h.next, h.ackedGrant⟩, l.put node { h with next := h.next + 1 })

/-- Records what `node` answered `grant`, naming `epoch`, `at'` the moment the answer came back:
whether it had been failed over and is back. -/
def answered (node : String) (grant : UInt64) (epoch : String) (answer : Answer) (at' : Nat)
    (fresh : UInt64) : Bool × Leases :=
  let h := l.entry node at' fresh
  let h := { h with settled := max h.settled at' }
  match answer with
  | .taken | .kept =>
    let l' := l.put node { h with
      acked := at'
      ackedGrant := some grant
      epoch := if answer = .taken then some epoch else none
      refuses := false
      lost := false }
    -- back, it holds the tenants still placed on it again
    (h.lost, if h.lost then { l' with withheld := Function.update l'.withheld node fun _ => none }
      else l')
  | .needsList => (false, l.put node { h with epoch := none })
  | .refuses | .superseded | .unfenced => (false, l.put node { h with refuses := true })
  | .silent => (false, l.put node h)

/-- `node` ran its lease from this router's answer. -/
def ran (node : String) (now : Nat) (fresh : UInt64) : Leases :=
  l.put node { l.entry node now fresh with own := true }

/-! ## 5. A lapse -/

/-- Whether `h`'s lease has certainly lapsed by `now`. -/
def lapsed (h : Held) (now : Nat) (term : Nat) : Bool :=
  decide (lapse term < now - h.acked)

/-- What `suspects` does with one node: whether its lease looks lapsed, not failed over and with
no failover of it under way, now marked as under way. -/
def suspect (node : String) (now : Nat) : Bool × Leases :=
  match l.nodes node with
  | none => (false, l)
  | some h =>
    if !h.refuses && !h.lost && !h.failing && lapsed h now (l.termOf h) then
      (true, l.put node { h with failing := true })
    else (false, l)

/-- **`confirm_lapse`**: whether `node`'s lease has certainly lapsed, now marked as failed over
where it has. -/
def confirmLapse (node : String) (now : Nat) : Bool × Leases :=
  match l.nodes node with
  | none => (false, l)
  | some h =>
    let h := { h with failing := false }
    if h.refuses || h.lost || !lapsed h now (l.termOf h) then (false, l.put node h)
    else (true, l.put node { h with lost := true })

/-- Whether `node` was failed over and has not answered a grant since. -/
def isLost (node : String) : Bool := (l.nodes node).any Held.lost

/-! ## 6. Tenants withheld -/

/-- From when `tenant` withheld from `node` may be promoted, none where it is not withheld. -/
def setWithheld (node tenant : String) (since : Option Nat) : Leases :=
  let tenants := Function.update (l.withheld node) tenant since
  { l with withheld := Function.update l.withheld node tenants }

/-- `tenant`, left on `node` by its failover, named by no grant to the node from now. -/
def withhold (node tenant : String) (now : Nat) (fresh : UInt64) : Leases :=
  let h := l.entry node now fresh
  let since := if h.unnumbered then h.settled else h.acked
  (l.put node h).setWithheld node tenant (some (since + lapse (l.termOf h)))

/-- `tenant` named by `node`'s grants again. -/
def release (node tenant : String) : Leases := l.setWithheld node tenant none

end Leases

/-! ## 7. The name of a list -/

/-- One byte into an FNV-1a sum. -/
def fnvByte (h : UInt64) (b : UInt8) : UInt64 := (h ^^^ b.toUInt64) * 0x100000001b3

/-- `epoch_of`: the name of a node's list, FNV-1a over its names. -/
def epochOf (primaries : List String) : String :=
  let bytes := primaries.flatMap fun name => name.toUTF8.data.toList ++ [10]
  String.ofList (hexDigits 16 (bytes.foldl fnvByte 0xcbf29ce484222325).toNat)

end Fenec.Lease
