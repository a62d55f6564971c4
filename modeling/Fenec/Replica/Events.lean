/-
# What an event does

The entry points of the sync: what a local write, an answer, a stream's status, pieces and end, a
timer and a signal do to the sync and to the file.  A function that writes the file runs over a
`Host` and may fail at any statement, as the source's does (`Fenec.Replica.Store`).

What the source reads from a text it is given is an argument, read: an answer's words and what
they say (`Answer`), the frames a piece of a stream completes (`Frame`), and what `apply` made of
each statement of a local write (`Outcome`).

* §1 reads the file (`load`), §2 is the schemas, §3 the answer to a write, §4 applying what a
  stream brings, §5 a stream's events, §6 timers and signals, §7 a local write, §8 `start`.
-/
import Fenec.Replica.Machine

namespace Fenec.Replica

open Fenec.Lib Run

namespace Sync

/-! ## 1. What the file kept -/

/-- A row of `_sync_shapes`, onto the shape of its collection. -/
def takeRow (xs : List Shape) (r : ShapeRow) : List Shape :=
  match xs.findIdx? fun x => x.collection = r.collection with
  | none => xs
  | some i => xs.modify i fun x =>
    if r.fingerprint = x.fingerprint then
      { x with row := r.row, cursor := r.cursor, seeded := r.seeded }
    else { x with row := r.row }

/-- A row of its own for each shape the file has none of. -/
def giveRows : Nat → List Shape → List Shape
  | _, [] => []
  | top, x :: xs =>
    if x.row = 0 then { x with row := top + 1 } :: giveRows (top + 1) xs
    else x :: giveRows top xs

/-- The shapes with what the file kept of them. -/
def takeShapes (rows : List ShapeRow) (s : Sync) : Sync :=
  let top := rows.foldl (fun top r => max top r.row) 0
  { s with shapes := giveRows top (rows.foldl takeRow s.shapes) }

/-- The queue as the file has it. -/
def takeQueue (rows : List Op) (s : Sync) : Sync :=
  let ops := rows.mergeSort fun a b => a.n ≤ b.n
  { s with queue := ops, nextN := (ops.getLast?.map fun o => o.n + 1).getD 1 }

/-- The temporary rows as the file has them. -/
def takeTemps (rows : List Temp) (s : Sync) : Sync :=
  { s with temps := rows, nextTemp := rows.foldl (fun top t => max top (t.temp + 1)) tempBase }

/-- `load`. -/
def load : Run Sync Unit := do
  let rows ← select (·.shapes)
  modify (takeShapes rows)
  let ops ← select (·.queue)
  modify (takeQueue ops)
  let temps ← select (·.temps)
  modify (takeTemps temps)

/-- `kick`, over what the replica holds. -/
def kicked : Run Sync Unit := fun h => (.ok (), { h with sync := h.sync.kick h.file.held })

end Sync

/-! ## 2. The schemas -/

/-- An answer, read: its words, what they say, and for `GET /collections` the collections with
whether each one's schema can be read. -/
structure Answer where
  why : String
  said : Said
  collections : Except String (List (String × Except String Unit))

namespace Sync

/-- The collections to make and whether the replica holds each already. -/
def ddl (s : Sync) (held : List String) (all : List (String × Except String Unit)) :
    Except String (List (String × Bool)) :=
  (s.shapes.filter fun x => x.rebuild || !held.contains x.collection).mapM fun x =>
    match all.find? fun c => c.1 = x.collection with
    | none => .error ("the server has no `" ++ x.collection ++ "` collection")
    | some c => c.2.map fun _ => (x.collection, held.contains x.collection)

/-- `remake`. -/
def remake (c : String) : Run Sync Unit := do
  select fun _ => ()
  execute (·.change (.dropped c))
  execute (·.create c)
  -- the rows it held, in the fields it still has
  execute (·.change (.remade c))

/-- The collections made, in one block. -/
def makeCollections (all : Except String (List (String × Except String Unit))) :
    Run Sync Unit := do
  let all ← Act.lift all
  let h ← Act.state
  let ddl ← Act.lift (h.sync.ddl h.file.held all)
  begin
  let r ← result do
    Act.each (fun c => if c.2 then remake c.1 else execute (·.create c.1)) ddl
    commit
  match r with
  | .ok () => pure ()
  | .error e => do
    rollback
    Act.fail e

/-- The schemas asked for again after the backoff. -/
def retrySchemas (s : Sync) (retry : Nat) : Sync :=
  { s with schemaWaiting := true, schemaAttempt := s.schemaAttempt + 1 }.wait .schema
    s.schemaAttempt retry

/-- `on_schemas`. -/
def onSchemas (status : Nat) (a : Answer) : Run Sync Unit :=
  if 200 ≤ status ∧ status ≤ 299 then do
    match ← result (makeCollections a.collections) with
    | .ok () => modify fun s =>
      { s with schemaAttempt := 0, shapes := s.shapes.map fun x => { x with rebuild := false } }
    | .error e => modify fun s => (s.failed e 0 true).retrySchemas 0
  else if status = 401 then modify wantToken
  else modify fun s =>
    (s.faultNaming ("could not read the server's collections: " ++ a.why) status true
      a.said.quota).retrySchemas a.said.retry

/-! ## 3. The answer to a write -/

/-- `drop_passed`: the temporary rows the server answered for at or before the cursor. -/
def dropPassed (c : String) (cursor : Nat) : Run Sync Unit := do
  let s ← get
  let gone := (s.temps.filter fun t => t.collection = c ∧ t.op = 0 ∧ t.last ≤ cursor).map (·.temp)
  Run.orSkip gone.isEmpty do
    execute (·.change (.deleted c gone))
    Act.each (fun t => execute (·.delTemp t)) gone
    modify fun s => { s with temps := s.temps.filter fun t => !gone.contains t.temp }

/-- The temporary row at a place, if write `n` made it: answered for, in memory and in the file
(the file keeps an `i64`). -/
def answerTemp (n last i : Nat) : Run Sync Unit := do
  let s ← get
  match s.temps[i]? with
  | none => pure ()
  | some t =>
    if t.op = n then do
      let t := { t with op := 0, last := last }
      modify fun s => { s with temps := s.temps.set i t }
      execute (·.putTemp { t with last := min last (2 ^ 63 - 1) })
    else pure ()

/-- The closure of `landed`. -/
def land (n last : Nat) : Run Sync Unit := inBlock do
  execute (·.delOp n)
  let s ← get
  Act.each (answerTemp n last) (List.range s.temps.length)
  let s ← get
  Act.each (fun x => dropPassed x.collection x.cursor) s.shapes

/-- The queue without write `n`, the flush over once it is empty. -/
def unqueue (s : Sync) (n : Nat) : Sync :=
  let queue := s.queue.filter fun o => o.n ≠ n
  { s with queue, flushing := s.flushing && !queue.isEmpty }

/-- The end of a definite answer's block: a failure puts it back and is told in these words. -/
def settle (made : Nat) (v : Verdict) (words : String → String) :
    Except String Unit → Run Sync Unit
  | .ok () => modify (note · (.closed made v))
  | .error e => do
    rollback
    modify fun s => s.failed (words e) 0 false

/-- `landed`: the server took the write. -/
def landed (w : Sending) (seq : Nat) : Run Sync Unit := do
  let r ← result (land w.n (if seq = 0 then 2 ^ 64 - 1 else seq))
  settle w.made .landed id r
  modify fun s => ((s.unqueue w.n).once .changed).once .status

/-- `undo_step`. -/
def undoStep (made : Nat) (u : Undo) : Run Sync Unit := do
  Run.orSkip u.del.isEmpty (execute (·.change (.undone made)))
  parse ()
  Run.orSkip u.put.isEmpty (execute (·.change (.undone made)))

/-- The closure of `refused`. -/
def putBack (op : Op) (n : Nat) : Run Sync Unit := inBlock do
  let steps ← parse op.undo
  Act.each (undoStep op.made) steps.reverse
  execute (·.delOp n)
  let s ← get
  Act.each (fun t => execute (·.delTemp t)) ((s.temps.filter fun t => t.op = n).map (·.temp))

/-- The temporary rows of a refused write forgotten, the flush over once the queue is empty. -/
def forget (s : Sync) (n : Nat) : Sync :=
  { s with
    temps := s.temps.filter fun t => t.op ≠ n
    flushing := s.flushing && !s.queue.isEmpty }

/-- `refused`: the server refused the write; what it did is put back and the binding is told. -/
def refused (n status : Nat) (a : Answer) : Run Sync Unit := do
  let s ← get
  match s.queue.find? fun o => o.n = n with
  | none => pure ()
  | some op => do
    modify fun s => { s with queue := s.queue.eraseP fun o => o.n = n }
    let r ← result (putBack op n)
    settle op.made .refused ("a refused write could not be put back: " ++ ·) r
    modify fun s =>
      (((s.forget n).faultNaming a.why status false a.said.quota).push
        (.refused op.made status a.why op.label a.said.quota a.said.reason)).once .changed

/-- The arms of `on_answer`. -/
def verdict (status : Nat) (said : Said) : Verdict :=
  if 200 ≤ status ∧ status ≤ 299 then .landed
  else if status = 401 then .token
  else if status = 507 ∧ said.quota.isSome then .refused
  else if status = 0 ∨ status = 408 ∨ status = 429 ∨ (500 ≤ status ∧ status ≤ 599) then .again
  else .refused

/-- The write's answer said to come back: it goes again, under its key, after the backoff. -/
def sendLater (s : Sync) (status : Nat) (a : Answer) : Sync :=
  let s := s.faultNaming a.why status true a.said.quota
  { s with flushing := false, sendWaiting := true, sendAttempt := s.sendAttempt + 1 }.wait .send
    s.sendAttempt a.said.retry

/-- A write landed: the backoff starts over, and a connection's fault is cleared. -/
def sendDone (s : Sync) : Sync := { s with sendAttempt := 0 }.clearFault

/-- `on_answer`. -/
def onAnswer (w : Sending) (status seq : Nat) (a : Answer) : Run Sync Unit :=
  match verdict status a.said with
  | .landed => do
    modify sendDone
    landed w seq
  | .token => modify wantToken
  | .refused => refused w.n status a
  | .again => modify fun s => s.sendLater status a

/-- What `response` does with the answer, by whose it is. -/
def answer (id status seq : Nat) (a : Answer) : Run Sync Unit := do
  let s ← get
  if s.schemaReq = some id then do
    modify fun s => { s with schemaReq := none }
    onSchemas status a
  else match s.sending with
    | none => pure ()
    | some w =>
      if w.id = id then do
        modify fun s =>
          { s with sending := none }.note (.answered w.id w.made (verdict status a.said))
        onAnswer w status seq a
      else pure ()

/-- `response`. -/
def response (id status seq : Nat) (a : Answer) : Run Sync Unit := do
  answer id status seq a
  kicked

end Sync

/-! ## 4. What a stream brings -/

/-- A seed, read: the whole shape.  `fits` says whether every field it names is the replica's,
`held` the ids the replica holds. -/
structure Seed where
  seq : Nat
  docs : List Doc
  fits : Bool
  held : List Nat

/-- A change, read: the rows that changed and the ids that left the shape. -/
structure Changed where
  seq : Nat
  docs : List Doc
  schema : Bool
  fits : Bool
  dels : Except String (List Nat)

/-- A frame of a stream, read. -/
inductive Frame where
  | seed (d : Except String Seed)
  | change (d : Except String Changed)
  | error (status : Option Nat) (message : String)
  | other

namespace Sync

/-- `finish`: the block landed, or put back and the sync's state read again from the file. -/
def finish (r : Except String Unit) : Run Sync Unit := do
  let r ← result do
    Act.lift r
    commit
  match r with
  | .ok () => modify fun s => (s.once .changed).once .status
  | .error e => do
    rollback
    let _ ← result load
    Act.fail e

/-- `save_shape`. -/
def saveShape (i : Nat) : Run Sync Unit := do
  let s ← get
  let x := s.shape i
  execute (·.putShape ⟨x.row, x.collection, x.fingerprint, x.cursor, x.seeded⟩)

/-- The temporary rows `reconcile` drops: those whose key a document carries under another id. -/
def matched (s : Sync) (c : String) (docs : List Doc) : List Nat :=
  docs.filterMap fun d => do
    let k ← d.key
    let t ← s.temps.find? fun t => t.collection = c ∧ t.key = k
    if some t.temp = d.id then none else some t.temp

/-- `reconcile`. -/
def reconcile (i : Nat) (docs : List Doc) : Run Sync Unit := do
  let s ← get
  let c := (s.shape i).collection
  let drop := s.matched c docs
  Run.orSkip ((s.shape i).key.isNone || drop.isEmpty) do
    execute (·.change (.deleted c drop))
    Act.each (fun t => execute (·.delTemp t)) drop
    modify fun s => { s with temps := s.temps.filter fun t => !drop.contains t.temp }

/-- The closure of `seed`. -/
def seedRows (i : Nat) (d : Seed) : Run Sync Unit := do
  let s ← get
  let c := (s.shape i).collection
  let held ← select fun _ => d.held
  let came := d.docs.filterMap (·.id)
  reconcile i d.docs
  let s ← get
  -- kept: an unanswered write's rows, and an answered one's the seed is from before
  let keep := (s.temps.filter fun t => t.collection = c ∧ (t.op ≠ 0 ∨ d.seq < t.last)).map (·.temp)
  let gone := held.filter fun id => !came.contains id && !keep.contains id
  Run.orSkip gone.isEmpty (execute (·.change (.deleted c gone)))
  let dropped :=
    (s.temps.filter fun t => t.collection = c ∧ t.op = 0 ∧ t.last ≤ d.seq).map (·.temp)
  Act.each (fun t => execute (·.delTemp t)) dropped
  modify fun s => { s with temps := s.temps.filter fun t => !dropped.contains t.temp }
  Run.orSkip d.docs.isEmpty (execute (·.change (.wrote c d.docs)))
  modify fun s => s.setShape i fun x => { x with cursor := d.seq, seeded := true, fresh := false }
  saveShape i

/-- `seed`. -/
def seed (i : Nat) (d : Except String Seed) : Run Sync Unit := do
  let d ← Act.lift d
  if d.fits then do
    begin
    let r ← result (seedRows i d)
    finish r
  else modify fun s => s.refresh i

/-- The closure of `change`. -/
def changeRows (i : Nat) (d : Changed) (dels : List Nat) : Run Sync Unit := do
  let s ← get
  let c := (s.shape i).collection
  reconcile i d.docs
  Run.orSkip dels.isEmpty (execute (·.change (.deleted c dels)))
  Run.orSkip d.docs.isEmpty (execute (·.change (.wrote c d.docs)))
  dropPassed c d.seq
  modify fun s => s.setShape i fun x => { x with cursor := max d.seq x.cursor }
  saveShape i

/-- `change`. -/
def change (i : Nat) (d : Except String Changed) : Run Sync Unit := do
  let d ← Act.lift d
  if d.schema || !d.fits then modify fun s => s.refresh i
  else do
    let dels ← Act.lift d.dels
    begin
    let r ← result (changeRows i d dels)
    finish r

/-! ## 5. A stream's events -/

/-- `opened`. -/
def opened (id status : Nat) (a : Answer) : Run Sync Unit := do
  let s ← get
  match s.shapeOf id with
  | none => pure ()
  | some i => do
    modify fun s =>
      if status = 200 then
        (s.setShape i fun x => { x with connected := true, attempt := 0 }).clearFault
      else if status = 401 then (s.dropStream i false).wantToken
      else
        ((s.dropStream i false).faultNaming
          ("could not open the subscription to `" ++ (s.shape i).collection ++ "`: " ++ a.why)
          status true a.said.quota).retryStream i a.said.retry
    modify (once · .status)
    kicked

/-- What a frame does to shape `i`. -/
def frame (i : Nat) : Frame → Run Sync Unit
  | .seed d => seed i d
  | .change d => do
    let s ← get
    if (s.shape i).seeded then change i d else pure ()
  | .error _ message => Act.fail message
  | .other => pure ()

/-- The frames of a piece, up to the first that ends the stream; whether none ended the call. -/
def frames (i id : Nat) : List Frame → Run Sync Bool
  | [] => pure true
  | f :: fs => do
    let s ← get
    -- the schema changed: what the stream sent after is read again from a fresh seed
    if (s.shape i).stream ≠ some id then pure true
    else match f with
      | .error (some 401) _ => do
        modify fun s => (s.dropStream i true).wantToken
        pure false
      | f => do
        match ← result (frame i f) with
        | .ok () => frames i id fs
        | .error e => do
          modify fun s =>
            ((s.failed ("the subscription to `" ++ (s.shape i).collection ++ "` stopped: " ++ e)
              0 true).dropStream i true).retryStream i 0
          pure false

/-- `bytes`. -/
def bytes (id : Nat) (fs : List Frame) : Run Sync Unit := do
  let s ← get
  match s.shapeOf id with
  | none => pure ()
  | some i => do
    let whole ← frames i id fs
    let s ← get
    if whole && (s.shape i).rebuild then kicked else pure ()

/-- `closed`. -/
def closed (id : Nat) (why : String) : Run Sync Unit := do
  let s ← get
  match s.shapeOf id with
  | none => pure ()
  | some i => do
    let why := if why = "" then "the server closed it" else why
    modify fun s =>
      ((s.dropStream i false).failed
        ("the subscription to `" ++ (s.shape i).collection ++ "` ended: " ++ why) 0 true).retryStream
        i 0
    kicked

/-! ## 6. Timers and signals -/

/-- `timer`. -/
def timer (id : Nat) : Run Sync Unit := do
  let s ← get
  match s.timers.find? fun t => t.1 = id with
  | none => pure ()
  | some t => do
    modify fun s =>
      let s := { s with timers := s.timers.eraseP fun t => t.1 = id }
      match t.2.1 with
      | .stream i => s.setShape i fun x => { x with waiting := false }
      | .send => { s with sendWaiting := false }
      | .schema => { s with schemaWaiting := false }
    kicked

end Sync

/-- A signal, read: a token, whether the network is here, and whether to stop. -/
structure Signal where
  token : Option String
  online : Option Bool
  stop : Bool

namespace Sync

/-- Whether a timer of a kind is left. -/
def held (s : Sync) (what : Timer) : Bool := s.timers.any fun t => t.2.1 = what

/-- Every stream ended. -/
def dropStreams (s : Sync) : Sync :=
  (List.range s.shapes.length).foldl (fun s i => s.dropStream i true) s

/-- A new token, if one came: a pause for one is over. -/
def takeToken (s : Sync) : Option String → Sync
  | none => s
  | some t =>
    let s := { s with token := if t = "" then none else some t }
    if s.paused then { s with paused := false, fault := none } else s

/-- The network is here: the backoff is forgotten, a server's `retry_after` is kept. -/
def online (s : Sync) : Sync :=
  let s := { s with offline := false, timers := s.timers.filter fun t => t.2.2 }
  { s with
    sendWaiting := s.held .send
    schemaWaiting := s.held .schema
    sendAttempt := 0
    schemaAttempt := 0
    shapes := s.shapes.mapIdx fun i x => { x with waiting := s.held (.stream i), attempt := 0 }
    flushing := !s.queue.isEmpty && !s.held .send }

/-- What the platform said of the network. -/
def takeNetwork (s : Sync) : Option Bool → Sync
  | none => s
  | some true => s.online
  | some false => { s with offline := true }.dropStreams

/-- Told to stop. -/
def takeStop (s : Sync) : Bool → Sync
  | false => s
  | true => { { s with stopped := true }.dropStreams with timers := [] }

/-- `signal`. -/
def signal (g : Except String Signal) : Run Sync Unit := do
  let g ← Act.lift g
  modify fun s => (((s.takeToken g.token).takeNetwork g.online).takeStop g.stop).once .status
  kicked

end Sync

/-! ## 7. A local write -/

/-- What `apply` made of one statement (`Applied`): the lines the server is sent, what puts the
replica back, and the temporary rows. -/
structure Applied where
  lines : List String
  undo : Undo
  collection : String
  temps : List (String × Nat)

/-- What `apply` answers for a statement, and where it leaves the generator and the counter of
temporary ids. -/
structure Outcome where
  rng : Rng
  nextTemp : Nat
  result : Except String Applied

/-- A local write: whether its statements could be told apart, what `apply` makes of each, and
its text. -/
structure Write where
  told : Bool
  statements : List Outcome
  label : String

namespace Sync

/-- The writes made, from the history. -/
def writes (past : List Deed) : List Op :=
  past.filterMap fun d => match d with
    | .made op => some op
    | _ => none

/-- `apply` for each statement. -/
def applyAll (made : Nat) : List Outcome → Run Sync (List Applied)
  | [] => pure []
  | o :: os => do
    modify fun s => { s with rng := o.rng, nextTemp := o.nextTemp }
    let a ← Act.lift o.result
    execute (·.change (.applied made))
    let as ← applyAll made os
    pure (a :: as)

/-- Where a write is sent and what: one line alone, or a batch of them. -/
def addressed : List String → String × String
  | [line] => ("/query", line)
  | lines => ("/batch", "\n".intercalate lines)

/-- The write to queue, under a fresh key. -/
def opOf (s : Sync) (applied : List Applied) (label : String) : Op :=
  let (path, body) := addressed (applied.flatMap (·.lines))
  { n := s.nextN, path, body, key := "fenec-" ++ s.rng.uuid.1, undo := applied.map (·.undo),
    label := String.ofList (label.toList.take 500), made := (writes s.past).length }

/-- The temporary rows of a write. -/
def tempsOf (n : Nat) (applied : List Applied) : List Temp :=
  applied.flatMap fun a => a.temps.map fun t => ⟨a.collection, t.1, t.2, n, 0⟩

/-- The closure that saves a write's queue row and temporary rows. -/
def save (op : Op) (temps : List Temp) : Run Sync Unit := do
  execute (·.putOp op)
  Act.each (fun t => execute (·.putTemp t)) temps
  commit

/-- The block put back, and the temporary ids it took given back. -/
def giveUp (temp0 : Nat) (e : String) : Run Sync Unit := do
  rollback
  modify fun s => { s with nextTemp := temp0 }
  Act.fail e

/-- `write`. -/
def write (w : Write) : Run Sync Unit := do
  check w.told "the text's statements could not be told apart"
  begin
  let s ← get
  let temp0 := s.nextTemp
  match ← result (applyAll (writes s.past).length w.statements) with
  | .error e => giveUp temp0 e
  | .ok applied => do
    let s ← get
    let op := s.opOf applied w.label
    let temps := tempsOf op.n applied
    modify fun s => { s with rng := s.rng.uuid.2 }
    match ← result (save op temps) with
    | .error e => giveUp temp0 e
    | .ok () => do
      modify fun s =>
        { s with
            nextN := s.nextN + 1
            queue := s.queue ++ [op]
            temps := s.temps ++ temps }.note (.made op) |>.once .status
      kicked

end Sync

/-! ## 8. Starting -/

/-- A shape's specification. -/
structure Spec where
  collection : String
  params : List (String × String)
  select : Option (List String)
  key : Option String

/-- A sync's configuration, read. -/
structure Config where
  url : String
  token : Option String
  rng : Rng
  shapes : List Spec

/-- Whether a collection is the sync's own (`own`). -/
def own (c : String) : Bool := c ∈ ["_sync_shapes", "_sync_queue", "_sync_temps"]

namespace Config

/-- The server's address, without the slashes at its end. -/
def server (c : Config) : String :=
  String.ofList (c.url.toList.reverse.dropWhile (· = '/')).reverse

/-- The server, the filter and the projection of a shape. -/
def fingerprint (c : Config) (x : Spec) : String :=
  c.server ++ "|" ++ String.join (x.params.map fun p => p.1 ++ "=" ++ p.2 ++ "&") ++
    (match x.select with
    | none => ""
    | some fs => "|" ++ ",".intercalate fs)

/-- The shape of a specification, after those already read, or why it is refused. -/
def readShape (c : Config) (shapes : List Shape) (x : Spec) : Except String (List Shape) :=
  if own x.collection then
    .error ("`" ++ x.collection ++ "` is the sync's own collection")
  else if shapes.any fun y => y.collection = x.collection then
    .error ("two shapes for `" ++ x.collection ++ "`: one collection per shape (a seed has to " ++
      "say \"this is the whole collection\")")
  else .ok (shapes ++ [{ collection := x.collection, params := x.params, select := x.select,
                         key := x.key, fingerprint := c.fingerprint x }])

/-- The shapes, one for each collection, or why the configuration is refused. -/
def check (c : Config) : Except String (List Shape) :=
  if c.url = "" then .error "sync: `url` is required"
  else match c.shapes.foldlM c.readShape [] with
    | .error e => .error e
    | .ok [] => .error "at least one shape is required"
    | .ok shapes => .ok shapes

end Config

/-- `Sync::start`: a sync over what the file kept, in place of the one before it. -/
def Sync.start (c : Config) : Run Sync Unit := do
  let shapes ← Act.lift c.check
  begin
  -- the sync's collections, made in one block
  match ← result (Act.each (fun _ => execute id) [0, 1, 2]) with
  | .error e => do
    rollback
    Act.fail e
  | .ok () => do
    commit
    modify fun old =>
      { url := c.server, token := c.token.filter (· ≠ ""), shapes, rng := c.rng,
        past := old.past ++ [.started] }
    load
    modify fun s => { s with flushing := !s.queue.isEmpty }
    kicked

end Fenec.Replica
