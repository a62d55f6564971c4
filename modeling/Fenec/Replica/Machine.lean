/-
# The sync as a state machine

`fenec-abi`'s `sync`: a replica that syncs with a server, with no I/O of its own.  A binding feeds
it what happened and performs the actions it hands back; the requests, the streams and the timers
are the binding's.  This module is the part of it that writes no file: what it holds, the actions
it puts out, and what it asks for when (`kick`).  `Fenec.Replica.Events` is what an event does to it
and to the file.

What the source writes as JSON text is structured here: an `Action` is the object of its text, a
`Request` its address in two parts, the server's and the path.  `past` is history, which no
function reads: the actions put out, and what became of the writes.

* §1 is the generator of keys and jitter, §2 the actions and the history, §3 the sync, §4 what it
  puts out, §5 what it asks for.
-/
import Fenec.Lib.Utf8
import Fenec.Replica.Store

namespace Fenec.Replica

open Fenec.Lib

/-! ## 1. Keys and jitter -/

/-- The generator of keys (`Rng`): splitmix64 over two lanes. -/
structure Rng where
  a : UInt64
  b : UInt64

namespace Rng

/-- `Rng::next`. -/
def next (r : Rng) : UInt64 × Rng :=
  let a := r.a + 0x9e3779b97f4a7c15
  let z := a ^^^ ((r.b <<< 17) ||| (r.b >>> 47))
  let z := (z ^^^ (z >>> 30)) * 0xbf58476d1ce4e5b9
  let z := (z ^^^ (z >>> 27)) * 0x94d049bb133111eb
  (z ^^^ (z >>> 31), ⟨a, r.b + (z ||| 1)⟩)

/-- `Rng::uuid`: a version 4 UUID's text. -/
def uuid (r : Rng) : String × Rng :=
  let (a, r) := r.next
  let (b, r) := r.next
  let a := (a &&& ~~~0xf000) ||| 0x4000
  let b := (b &&& ~~~0xc000000000000000) ||| 0x8000000000000000
  let hex (k : Nat) (x : UInt64) : String := String.ofList (hexDigits k x.toNat)
  ("-".intercalate [hex 8 (a >>> 32), hex 4 ((a >>> 16) &&& 0xffff), hex 4 (a &&& 0xffff),
    hex 4 (b >>> 48), hex 12 (b &&& 0xffffffffffff)], r)

end Rng

/-! ## 2. Actions, and what became of the writes -/

/-- A request the binding is asked to make.  `made` is history: the write it sends. -/
structure Request where
  id : Nat
  method : String
  server : String
  path : String
  headers : List (String × String)
  body : Option String
  made : Option Nat
  deriving DecidableEq

/-- What a binding is asked to do. -/
inductive Action where
  | request (r : Request)
  | stream (id : Nat) (server collection : String) (params : List (String × String))
      (headers : List (String × String))
  | cancel (id : Nat)
  | wait (id ms : Nat)
  | token
  | changed
  /-- A write the server refused; `made` is history. -/
  | refused (made status : Nat) (message label : String) (quota reason : Option String)
  | status
  deriving DecidableEq

/-- What a write's answer says (the arms of `on_answer`). -/
inductive Verdict where
  | landed
  | refused
  /-- A fresh token is wanted. -/
  | token
  /-- No answer, or one that says to come back. -/
  | again
  deriving DecidableEq

/-- An answer that settles its write. -/
def Verdict.definite : Verdict → Bool
  | landed => true
  | refused => true
  | token => false
  | again => false

/-- What happened, for the history. -/
inductive Deed where
  /-- A sync started over the file. -/
  | started
  /-- An action was put out. -/
  | act (a : Action)
  /-- A write was made: its block is in the file. -/
  | made (op : Op)
  /-- The answer to the request `id`, which sent the write `made`. -/
  | answered (id made : Nat) (v : Verdict)
  /-- The block of the write's definite answer is in the file. -/
  | closed (made : Nat) (v : Verdict)
  deriving DecidableEq

/-! ## 3. The sync -/

/-- `Timer`. -/
inductive Timer where
  | stream (i : Nat)
  | send
  | schema
  deriving DecidableEq

/-- `Fault`. -/
structure Fault where
  message : String
  status : Nat
  /-- A connection's, cleared once the replica is back: a refusal stays. -/
  connection : Bool
  quota : Option String

/-- What an answer says beyond its words (`Said`). -/
structure Said where
  quota : Option String := none
  /-- Milliseconds, 0 for none. -/
  retry : Nat := 0
  reason : Option String := none

/-- `Shape`. -/
structure Shape where
  collection : String
  params : List (String × String)
  select : Option (List String)
  key : Option String
  fingerprint : String
  row : Nat := 0
  cursor : Nat := 0
  seeded : Bool := false
  stream : Option Nat := none
  connected : Bool := false
  attempt : Nat := 0
  waiting : Bool := false
  rebuild : Bool := false
  fresh : Bool := false
  deriving Inhabited

/-- The request under way: its id and the write it sends (`sending`); `made` is history. -/
structure Sending where
  id : Nat
  n : Nat
  made : Nat

/-- `TEMP_BASE`. -/
def tempBase : Nat := 2 ^ 52

/-- **A replica's sync** (`Sync`). -/
structure Sync where
  url : String
  token : Option String
  shapes : List Shape
  queue : List Op := []
  temps : List Temp := []
  nextTemp : Nat := tempBase
  nextN : Nat := 1
  rng : Rng
  nextId : Nat := 1
  outbox : List Action := []
  timers : List (Nat × Timer × Bool) := []
  sending : Option Sending := none
  sendAttempt : Nat := 0
  sendWaiting : Bool := false
  schemaReq : Option Nat := none
  schemaAttempt : Nat := 0
  schemaWaiting : Bool := false
  flushing : Bool := false
  offline : Bool := false
  paused : Bool := false
  stopped : Bool := false
  fault : Option Fault := none
  lastState : String := ""
  /-- History. -/
  past : List Deed := []

namespace Sync

variable (s : Sync)

/-- The shape at a place. -/
def shape (i : Nat) : Shape := s.shapes.getD i default

/-- A change of the shape at a place. -/
def setShape (i : Nat) (f : Shape → Shape) : Sync := { s with shapes := s.shapes.modify i f }

/-- A deed, for the history. -/
def note (d : Deed) : Sync := { s with past := s.past ++ [d] }

/-! ## 4. What it puts out -/

/-- An action, into the outbox. -/
def push (a : Action) : Sync := { s with outbox := s.outbox ++ [a] }.note (.act a)

/-- `once`. -/
def once (a : Action) : Sync := if a ∈ s.outbox then s else s.push a

/-- `headers`. -/
def headers (extra : List (String × String)) : List (String × String) :=
  (s.token.map fun t => ("authorization", "Bearer " ++ t)).toList ++ extra

/-- `request`: put out under the next id. -/
def request (method path : String) (extra : List (String × String)) (body : Option String)
    (made : Option Nat) : Sync :=
  { s with nextId := s.nextId + 1 }.push
    (.request ⟨s.nextId, method, s.url, path, s.headers extra, body, made⟩)

/-- `wait`: the backoff for the attempt, or the server's word where that is longer, with the
jitter on top. -/
def wait (what : Timer) (attempt retry : Nat) : Sync :=
  let base := max (min (250 * 2 ^ min attempt 10) 15000) retry
  let (r, rng) := s.rng.next
  let ms := base + r.toNat % (base * 3 / 10 + 1)
  { s with
      rng
      nextId := s.nextId + 1
      timers := s.timers ++ [(s.nextId, what, decide (0 < retry))] }.push (.wait s.nextId ms)

/-- `fault_naming`. -/
def faultNaming (message : String) (status : Nat) (connection : Bool) (quota : Option String) :
    Sync :=
  { s with fault := some ⟨message, status, connection, quota⟩ }.once .status

/-- `fault`. -/
def failed (message : String) (status : Nat) (connection : Bool) : Sync :=
  s.faultNaming message status connection none

/-- A connection's fault, cleared. -/
def clearFault : Sync :=
  if s.fault.any (·.connection) then { s with fault := none } else s

/-- `want_token`. -/
def wantToken : Sync :=
  ({ s with paused := true }.failed
    "the server refused the token (401): a fresh one is wanted" 401 true).once .token

/-- `state_name`. -/
def stateName : String :=
  if s.offline || s.stopped then "offline"
  else if s.shapes.all (fun x => x.connected && x.seeded) && !s.flushing then "online"
  else if s.paused || s.schemaWaiting || s.shapes.any (fun x => x.waiting && !x.connected) then
    "offline"
  else "catching_up"

/-- `actions`, as the sync is left: the outbox emptied. -/
def actions : List Action × Sync :=
  let s := if s.stateName = s.lastState then s
    else { s with lastState := s.stateName }.once .status
  (s.outbox, { s with outbox := [] })

/-! ## 5. What it asks for -/

/-- `connect`. -/
def connect (i : Nat) : Sync :=
  let x := s.shape i
  if x.stream.isSome || x.waiting || s.paused || s.offline || s.stopped then s
  else
    let params := x.params ++ (x.select.map fun fs => ("select", ",".intercalate fs)).toList ++
      (if x.seeded && !x.fresh then [("since", toString x.cursor)] else [])
    ({ s with nextId := s.nextId + 1 }.push
      (.stream s.nextId s.url x.collection params (s.headers [("accept", "text/event-stream")])))
      |>.setShape i fun x => { x with stream := some s.nextId }

/-- `pump`: the queue's next write, one at a time and in order. -/
def pump : Sync :=
  if s.sending.isSome || s.sendWaiting || s.paused || s.offline || s.stopped then s
  else match s.queue with
  | [] => s
  | op :: _ =>
    let ty := if op.path = "/batch" then "application/x-ndjson" else "application/json"
    { s.request "POST" op.path [("content-type", ty), ("idempotency-key", op.key)]
        (some op.body) (some op.made) with sending := some ⟨s.nextId, op.n, op.made⟩ }

/-- `kick`: whatever is due, over a replica that holds the collections `held`. -/
def kick (held : List String) : Sync :=
  if s.stopped || s.offline then s
  else if s.shapes.any (fun x => x.rebuild || !held.contains x.collection) then
    if s.schemaReq.isNone && !s.schemaWaiting && !s.paused then
      { s.request "GET" "/collections" [] none none with schemaReq := some s.nextId }
    else s
  else
    let s := s.pump
    if s.paused || (s.flushing && !s.queue.isEmpty) then s
    else (List.range s.shapes.length).foldl connect s

/-- `drop_stream`. -/
def dropStream (i : Nat) (cancel : Bool) : Sync :=
  let t := match (s.shape i).stream with
    | none => s
    | some id =>
      let t := s.setShape i fun x => { x with stream := none }
      if cancel then t.push (.cancel id) else t
  t.setShape i fun x => { x with connected := false }

/-- `retry_stream`. -/
def retryStream (i retry : Nat) : Sync :=
  if s.stopped || s.offline || s.paused then s
  else
    let attempt := (s.shape i).attempt
    (s.setShape i fun x => { x with attempt := x.attempt + 1, waiting := true }).wait
      (.stream i) attempt retry

/-- `refresh`. -/
def refresh (i : Nat) : Sync :=
  (s.dropStream i true).setShape i fun x => { x with rebuild := true, fresh := true }

/-- The place of the shape whose stream it is (`shape_of`). -/
def shapeOf (stream : Nat) : Option Nat :=
  s.shapes.findIdx? fun x => x.stream = some stream

end Sync

end Fenec.Replica
