/-
# Writing rows: put, insert, upsert, set and del

A write statement goes over its documents or its rows one at a time, and each turn reads what the
turns before it left: a unique value is looked up in the index an earlier turn wrote, which is
built when it is first asked for.  A turn that fails leaves what was done; undoing it is the
block's work, and `Work.log` is what the block keeps for it.

`putRow` is one turn of `put_with`: rows past their time that hold one of the document's unique
values go first, then the document gets its id, is judged and written, or, where it may not be and
the statement says so, is skipped or turned into a `set` of the row that is there.

Hooks judge: the two the repository has (`Check`, `Guard`) never rewrite a document.
-/
import Fenec.Lib.Act
import Fenec.Rebuild

namespace Fenec

open Lib Case

/-! ## 1. What a statement works on -/

/-- `WriteOp`. -/
inductive WriteOp where
  | insert
  | update
  | delete
deriving DecidableEq

/-- A row written: its payload before and after, none where there is no row, and the next id
before. -/
structure Written where
  id : DocId
  was : Option Payload
  now : Option Payload
  mark : Nat
deriving DecidableEq

/-- A collection being written, and what was written so far, the last first. -/
structure Work where
  c : Collection
  log : List Written
deriving DecidableEq

/-- What a statement's writes are judged by. -/
structure Hooks where
  beforeWrite : Schema → WriteOp → Document → Result Unit
  beforeOverwrite : Schema → Document → Document → Result Unit
  afterWrite : String → WriteOp → Document → Result Unit

/-- What a statement runs with; `json` is `json::to_string`. -/
structure Session (B : Build) where
  ctx : EvalCtx B
  hooks : Hooks
  json : Value → String

/-- A step of a statement. -/
abbrev Step (α : Type) := Act Error Work α

/-- A clause `continued`: what a `put` does with a document it may not write as new, and the time
rows are past. -/
structure PutMode where
  insert : Bool
  ifAbsent : Bool
  elseSet : Option (List Assign)
  expiry : Option (Nat × Int64)

/-- What is declared unique. -/
inductive Unique where
  | field (f : Field)
  | composite (k : Composite)

/-- `Schema::has_unique`. -/
def Schema.hasUnique (s : Schema) : Bool :=
  (s.fields ++ s.paths).any (fun f => f.index.isUnique) || s.composites.any fun c => c.unique

/-- `Composite::keys_text`. -/
def Composite.keysText (k : Composite) : String :=
  ", ".intercalate (k.keys.map fun (key, desc) => if desc then key ++ " desc" else key)

/-- `expired`: whether a row's time is past the cut. -/
def expired (c : Collection) (id : DocId) (cut : Nat × Int64) : Bool :=
  match c.store.rows.get id with
  | some p => match p.at (c.schema.place cut.1) with
    | .timestamp t => t ≤ cut.2
    | _ => false
  | none => false

namespace Work

variable (B : Build)

/-- `Store::allocate_id`, as it leaves the store. -/
def nextAt (w : Work) (n : Nat) : Work :=
  { w with c := { w.c with store := { w.c.store with nextId := n } } }

/-- A document written over the row that was there, and remembered. -/
def wrote (w : Work) (doc : Document) (old : Option Document) (mark : Nat) : Work where
  c := w.c.write B doc old
  log := ⟨doc.id, w.c.store.rows.get doc.id, some (encodeDoc w.c.schema doc), mark⟩ :: w.log

/-- A row erased, and remembered. -/
def erased (w : Work) (id : DocId) : Work where
  c := w.c.eraseRow B id
  log := ⟨id, w.c.store.rows.get id, none, w.c.store.nextId⟩ :: w.log

end Work

/-! ## 2. Unique values -/

section

variable {B : Build} (env : Session B)

variable (B) in
/-- `Collection::hash`: the index of a name, built if it was not. -/
def askHash (name : String) : Step (Option HashIndex) := do
  let w ← Act.state
  match w.c.hashes.lookup name, source w.c.schema name with
  | some _, some _ =>
    Act.change fun w => { w with c := w.c.buildHash B name }
    let w ← Act.state
    match w.c.hashes.lookup name with
    | some (.built ix) => pure (some ix)
    | some (.refused e) => Act.fail e
    | _ => pure none
  | _, _ => pure none

variable (B) in
/-- `Collection::composite`: the composite index at a position, built if it was not. -/
def askComposite (i : Nat) : Step (Option CompositeIndex) := do
  Act.change fun w => { w with c := w.c.buildComposite B i }
  let w ← Act.state
  match w.c.composites[i]? with
  | some (_, .built ix) => pure (some ix)
  | some (_, .refused e) => Act.fail e
  | _ => pure none

variable (B) in
/-- `CompositeIndex::holders`: the rows filed under a key. -/
def CompositeIndex.holders (ix : CompositeIndex) (k : Key) : List DocId :=
  (ix.keys.filter fun e => CompositeIndex.order B ix.parts (e.1, 0) (k, 0) == .eq).map (·.2)

variable (B) in
/-- The rows that hold a document's value of a unique field. -/
def fieldHolders (doc : Document) (f : Field) : Step (List (Unique × DocId)) :=
  if f.index.isUnique then
    match doc.at f.name with
    | some v =>
      if v.isNull then pure []
      else do
        match ← askHash B f.name with
        | some ix => pure (((ix.get (ix.key B v)).filter (· ≠ doc.id)).map fun d => (.field f, d))
        | none => pure []
    | none => pure []
  else pure []

variable (B) in
/-- The rows that hold a document's values of a unique composite, none where one is null. -/
def compositeHolders (doc : Document) (ik : Nat × Composite) : Step (List (Unique × DocId)) :=
  if !ik.2.unique || ik.2.keys.any fun k => ((doc.at k.1).getD .null).isNull then pure []
  else do
    match ← askComposite B ik.1 with
    | some ix =>
      let k := CompositeIndex.rowKey B ix.parts (compositeValues ik.2 doc)
      pure (((ix.holders B k.bytes).filter (· ≠ doc.id)).map fun d => (.composite ik.2, d))
    | none => pure []

/-- The answers of a list of steps, one after another. -/
def gather {α β : Type} (f : α → Step (List β)) : List α → Step (List β)
  | [] => pure []
  | a :: as => do
    let here ← f a
    let rest ← gather f as
    pure (here ++ rest)

variable (B) in
/-- **`Collection::unique_holders`**: the other rows that hold a unique value of the document. -/
def uniqueHolders (doc : Document) : Step (List (Unique × DocId)) := do
  let w ← Act.state
  let fields ← gather (fieldHolders B doc) (w.c.schema.fields ++ w.c.schema.paths)
  let composites ← gather (compositeHolders B doc)
    ((w.c.composites.map (·.1)).zipIdx.map fun (k, i) => (i, k))
  pure (fields ++ composites)

/-- The text a clash is refused with: what the row that is there holds. -/
def clashText (c : Collection) (doc : Document) (other : DocId) : Unique → String
  | .field f => "`" ++ c.schema.name ++ "." ++ f.name ++ "` is unique, and document " ++
      toString other ++ " holds " ++ shown f.name ++ " already"
  | .composite k => "`" ++ c.schema.name ++ " (" ++ k.keysText ++ ")` is unique, and document " ++
      toString other ++ " holds [" ++ ", ".intercalate (k.keys.map fun key => shown key.1) ++
      "] already"
where
  shown (key : String) : String :=
    let held := (c.store.read c.schema other).bind fun d => d.at key
    env.json ((held.or (doc.at key)).getD .null)

/-- **`Collection::unique_clash`**: refuses a document another row holds a unique value of. -/
def uniqueClash (doc : Document) : Step Unit := do
  match ← uniqueHolders B doc with
  | [] => pure ()
  | (u, other) :: _ =>
    let w ← Act.state
    Act.fail ⟨.duplicate, clashText env w.c doc other u, none⟩

/-! ## 3. Rows -/

/-- **`Database::erase`**. -/
def erase (id : DocId) : Step Unit := do
  let w ← Act.state
  Act.lift (match w.c.store.read w.c.schema id with
    | some doc => env.hooks.afterWrite w.c.schema.name .delete doc
    | none => .ok ())
  Act.change fun w => w.erased B id

/-- **`Database::set_row`**: a row with some fields worked out anew; false where there is none. -/
def setRow (id : DocId) (set : List Assign) (new : Option Document) : Step Bool := do
  let w ← Act.state
  let s := w.c.schema
  match w.c.store.read s id with
  | none => pure false
  | some old =>
    let doc ← Act.lift (updated env.ctx s old new set old)
    Act.lift (env.hooks.beforeWrite s .update doc)
    Act.lift (env.hooks.beforeOverwrite s old doc)
    uniqueClash env doc
    Act.change fun w => w.wrote B doc (some old) w.c.store.nextId
    Act.lift (env.hooks.afterWrite s.name .update doc)
    pure true

/-- Where a document goes. -/
inductive Placed where
  | skip
  | held (id : DocId)
  | fresh (doc : Document) (op : WriteOp)

/-- The id a document is written under: its own, or the next; a row that is there already is
written over, refused, skipped or held. -/
def placeDoc (mode : PutMode) (doc : Document) : Step Placed := do
  let w ← Act.state
  if doc.id = 0 then
    Act.change fun w => w.nextAt (w.c.store.nextId + 1)
    pure (.fresh { doc with id := w.c.store.nextId } .insert)
  else if w.c.store.contains doc.id then
    let gone := mode.expiry.any fun cut => expired w.c doc.id cut
    if mode.insert && !gone then
      if !mode.ifAbsent then
        Act.fail ⟨.duplicate, "`" ++ w.c.schema.name ++ "` holds a document " ++
          toString doc.id ++ " already: insert makes new ones, put writes over", none⟩
      else if mode.elseSet.isNone then pure .skip
      else pure (.held doc.id)
    else pure (.fresh doc .update)
  else pure (.fresh doc .insert)

/-- Whether a document may be written: refused by a hook, or by a clash unless the statement
takes that for an answer. -/
def judge (mode : PutMode) (doc : Document) (op : WriteOp) (old : Option Document) : Step Bool := do
  let w ← Act.state
  Act.lift (env.hooks.beforeWrite w.c.schema op doc)
  Act.lift (match old with
    | some old => env.hooks.beforeOverwrite w.c.schema old doc
    | none => .ok ())
  if w.c.schema.hasUnique then
    Act.rescue (do uniqueClash env doc; pure true) fun e =>
      if e.kind = .duplicate && mode.ifAbsent then pure false else Act.fail e
  else pure true

/-- The rows past their time that hold one of a document's unique values, erased. -/
def evict (mode : PutMode) (doc : Document) : Step Unit := do
  let w ← Act.state
  match mode.expiry with
  | some cut =>
    if w.c.schema.hasUnique then
      let holders ← uniqueHolders B doc
      let gone := (holders.map (·.2)).filter fun other => expired w.c other cut
      Act.each (erase env) gone
    else pure ()
  | none => pure ()

/-- **One turn of `Database::put_with`**: whether a row was written. -/
def putRow (mode : PutMode) (doc : Document) : Step Bool := do
  evict env mode doc
  let w ← Act.state
  let mark := w.c.store.nextId
  match ← placeDoc mode doc with
  | .skip => pure false
  | .held id => match mode.elseSet with
    | some set => setRow env id set (some doc)
    | none => pure false
  | .fresh d op =>
    let w ← Act.state
    let old := if op = .update then w.c.store.read w.c.schema d.id else none
    let free ← (judge env mode d op old).rescue fun e => do
      Act.change fun w => w.nextAt mark
      Act.fail e
    if free then
      Act.change fun w => w.wrote B d old mark
      Act.lift (env.hooks.afterWrite w.c.schema.name op d)
      pure true
    else
      Act.change fun w => w.nextAt mark
      match mode.elseSet with
      | none => pure false
      | some set =>
        let new := if doc.id = 0 then { d with id := 0 } else d
        -- the clash was with the first holder, so there is one
        match (← uniqueHolders B d).head? with
        | some (_, id) => setRow env id set (some new)
        | none => pure false

end

end Fenec
