/-
# A sync over its file, and its runs

A world is the file and the sync over it, if one runs.  An event is a call of the sync: a start,
a local write, or something the binding feeds (`fenec-ffi`'s `fenec_sync_start`, `fenec_query` and
`fenec_sync_feed`).  A start while a sync runs is a restart: what the sync held is lost, and it
goes on from the file, which has every block that was committed and no part of another.

With each event comes which of its statements fail.  A stop in the middle of an event is an event
cut short and a start: the blocks of an event are those of its frames, one after another, and what
an event does after its last block does not reach the file.

* §1 is the world and its steps, §2 what the history says of the writes: which requests are in
  flight, which writes are answered and closed, and what a request that sends a write has to meet.
-/
import Fenec.Replica.Events

namespace Fenec.Replica

open Fenec.Lib

/-! ## 1. Worlds and steps -/

/-- The file and the sync over it; where none runs, what is left of one is its history. -/
structure World where
  file : Store
  sync : Sync
  running : Bool

/-- What happens to a sync. -/
inductive Event where
  | start (c : Config)
  | write (w : Write)
  | response (id status seq : Nat) (a : Answer)
  | opened (id status : Nat) (a : Answer)
  | bytes (id : Nat) (fs : List Frame)
  | closed (id : Nat) (why : String)
  | timer (id : Nat)
  | signal (g : Except String Signal)
  | poll

/-- The entry point an event calls. -/
def Event.call : Event → Run Sync Unit
  | .start c => Sync.start c
  | .write w => Sync.write w
  | .response id status seq a => Sync.response id status seq a
  | .opened id status a => Sync.opened id status a
  | .bytes id fs => Sync.bytes id fs
  | .closed id why => Sync.closed id why
  | .timer id => Sync.timer id
  | .signal g => Sync.signal g
  | .poll => pure ()

/-- Whether the call hands the actions over: all do but a local write. -/
def Event.hands : Event → Bool
  | .write _ => false
  | _ => true

/-- Whether the event starts a sync. -/
def Event.starts : Event → Bool
  | .start _ => true
  | _ => false

namespace World

/-- A database with no sync over it yet, that holds some collections. -/
def new (held : List String) : World where
  file := { held }
  sync := { url := "", token := none, shapes := [], rng := ⟨0, 0⟩ }
  running := false

/-- **The world after an event**, of whose statements those marked in `faults` fail. -/
def step (w : World) (e : Event) (faults : List Bool) : World :=
  if w.running || e.starts then
    match e.call { sync := w.sync, file := w.file, faults } with
    | (.ok _, h) =>
      { file := h.file, sync := if e.hands then h.sync.actions.2 else h.sync, running := true }
    | (.error _, h) => { file := h.file, sync := h.sync, running := !e.starts }
  else w

/-- The world after a run of events. -/
def after (w : World) (es : List (Event × List Bool)) : World :=
  es.foldl (fun w e => w.step e.1 e.2) w

end World

/-! ## 2. What the history says of the writes -/

/-- The requests that send a write and are not answered, of the sync that runs. -/
def flights (ids : List Nat) : Deed → List Nat
  | .started => []
  | .act (.request r) => if r.made.isSome then ids ++ [r.id] else ids
  | .answered id _ _ => ids.filter fun i => i ≠ id
  | _ => ids

/-- The requests in flight after a history. -/
def inFlight (past : List Deed) : List Nat := past.foldl flights []

/-- Whether a deed is a definite answer to a write. -/
def Deed.settles (made : Nat) : Deed → Bool
  | .answered _ m v => m = made && v.definite
  | _ => false

/-- Whether a deed tells the binding that a write was refused. -/
def Deed.tells (made : Nat) : Deed → Bool
  | .act (.refused m ..) => m = made
  | _ => false

/-- Whether a deed is a refusal of a write. -/
def Deed.refuses (made : Nat) : Deed → Bool
  | .answered _ m v => m = made && v = .refused
  | _ => false

/-- The write was answered for good, landed or refused. -/
def Answered (past : List Deed) (made : Nat) : Prop := ∃ d ∈ past, d.settles made

/-- The block of the write's definite answer is in the file. -/
def Closed (past : List Deed) (made : Nat) : Prop := ∃ v, .closed made v ∈ past

/-- **A request that sends write `k`**, put out after `before`: it carries the write's path, body
and key, every write made earlier has its answer, and the write's own is not in the file. -/
structure Sends (before : List Deed) (r : Request) (k : Nat) : Prop where
  carries : ∃ op, (Sync.writes before)[k]? = some op ∧ r.method = "POST" ∧ r.path = op.path ∧
    r.body = some op.body ∧ ("idempotency-key", op.key) ∈ r.headers
  earlier : ∀ j < k, Answered before j
  unclosed : ¬ Closed before k

/-- The statements that put a write back. -/
def Undo.statements (u : Undo) : Nat :=
  (if u.del.isEmpty then 0 else 1) + if u.put.isEmpty then 0 else 1

/-- The statements that put every statement of a write back. -/
def Op.undos (op : Op) : Nat := (op.undo.map Undo.statements).sum

end Fenec.Replica
