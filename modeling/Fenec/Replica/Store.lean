/-
# The file a sync writes to

A replica that syncs keeps what it needs to go on in the database it syncs: the writes the server
has not answered, the rows made under temporary ids and each shape's cursor, written in the same
blocks as the rows they describe.  This module is that file as the sync sees it, and the blocks
the sync writes it in.

The rows of the replica's own collections are left to the engine: a statement executed over them
stands for itself (`Change`), and the rows are the statements executed.  Any statement, and any
commit, may fail; what is left of an open block then is put back by a rollback, and by a commit
that is refused.  Which statements fail is an argument (`faults`), so what is proved holds however
they do.

* §1 is the file, §2 what runs over it: `Act` over the sync, the file, the block that is open and
  the faults to come.
-/
import Fenec.Lib.Act

namespace Fenec.Replica

open Fenec.Lib

/-! ## 1. The file -/

/-- What the sync reads of a document the server sent: the text of the shape's key, and its id. -/
structure Doc where
  key : Option String
  id : Option Nat
  deriving DecidableEq

/-- What puts one statement back: the rows it made, and the rows it changed as they were
(`{"c":..,"del":[..],"put":[..]}`). -/
structure Undo where
  collection : String
  del : List Nat
  put : List Doc
  deriving DecidableEq

/-- A write the server has not answered (`Op`).  `made` is history: how many writes were made
before this one, which no function of the sync reads. -/
structure Op where
  n : Nat
  path : String
  body : String
  key : String
  undo : List Undo
  label : String
  made : Nat
  deriving DecidableEq

/-- A row an optimistic insert made, under a temporary id (`Temp`). -/
structure Temp where
  collection : String
  key : String
  temp : Nat
  /-- The write it came with while the server has not answered it; 0 once it has. -/
  op : Nat
  /-- Once answered, the change the server's answer left the database at. -/
  last : Nat
  deriving DecidableEq

/-- What the file keeps of a shape. -/
structure ShapeRow where
  row : Nat
  collection : String
  fingerprint : String
  cursor : Nat
  seeded : Bool
  deriving DecidableEq

/-- A statement executed over the replica's collections. -/
inductive Change where
  /-- A statement of a local write. -/
  | applied (made : Nat)
  /-- A statement that puts a refused write back. -/
  | undone (made : Nat)
  | deleted (collection : String) (ids : List Nat)
  | wrote (collection : String) (docs : List Doc)
  | dropped (collection : String)
  | created (collection : String)
  | remade (collection : String)
  deriving DecidableEq

/-- **The file.** -/
structure Store where
  rows : List Change := []
  /-- The collections the replica holds. -/
  held : List String := []
  /-- `_sync_shapes`. -/
  shapes : List ShapeRow := []
  /-- `_sync_queue`. -/
  queue : List Op := []
  /-- `_sync_temps`. -/
  temps : List Temp := []

namespace Store

variable (f : Store)

/-- A statement over the replica's collections. -/
def change (c : Change) : Store := { f with rows := f.rows ++ [c] }

/-- `put _sync_queue {id: n, ..}`. -/
def putOp (op : Op) : Store := { f with queue := f.queue.filter (fun o => o.n ≠ op.n) ++ [op] }

/-- `del _sync_queue where id = n`. -/
def delOp (n : Nat) : Store := { f with queue := f.queue.filter (fun o => o.n ≠ n) }

/-- `put _sync_temps {id: t, ..}`. -/
def putTemp (t : Temp) : Store :=
  { f with temps := f.temps.filter (fun x => x.temp ≠ t.temp) ++ [t] }

/-- `del _sync_temps where id = t`. -/
def delTemp (t : Nat) : Store := { f with temps := f.temps.filter (fun x => x.temp ≠ t) }

/-- `put _sync_shapes {id: row, ..}`. -/
def putShape (r : ShapeRow) : Store :=
  { f with shapes := f.shapes.filter (fun x => x.row ≠ r.row) ++ [r] }

/-- `create` of a collection. -/
def create (c : String) : Store := { f.change (.created c) with held := c :: f.held }

end Store

/-! ## 2. What runs over it -/

/-- The sync, the file, the block that is open, and which statements to come fail. -/
structure Host (σ : Type) where
  sync : σ
  file : Store
  block : Option Store := none
  faults : List Bool := []

/-- What runs over a host: it may fail, and leaves a host either way. -/
abbrev Run (σ α : Type) : Type := Act String (Host σ) α

namespace Run

variable {σ α : Type}

/-- The words of a statement that failed. -/
def broken : String := "the statement failed"

/-- `db.begin()`. -/
def begin : Run σ Unit := fun h =>
  if h.block.isSome then (.error "a block is open already", h)
  else (.ok (), { h with block := some h.file })

/-- `db.execute_with(..)` of a statement that writes. -/
def execute (f : Store → Store) : Run σ Unit := fun h =>
  let rest := { h with faults := h.faults.tail }
  if h.faults.head?.getD false then (.error broken, rest)
  else (.ok (), { rest with block := rest.block.map f })

/-- `db.execute_with(..)` of a `get`: what the open block reads, the file where none is. -/
def select (f : Store → α) : Run σ α := fun h =>
  let rest := { h with faults := h.faults.tail }
  if h.faults.head?.getD false then (.error broken, rest)
  else (.ok (f (h.block.getD h.file)), rest)

/-- `db.commit()`: the block lands whole, or is put back. -/
def commit : Run σ Unit := fun h =>
  let rest := { h with faults := h.faults.tail, block := none }
  match h.block with
  | none => (.ok (), h)
  | some f =>
    if h.faults.head?.getD false then (.error broken, rest)
    else (.ok (), { rest with file := f })

/-- `db.rollback()`. -/
def rollback : Run σ Unit := Act.change fun h => { h with block := none }

/-- The sync's own state. -/
def get : Run σ σ := fun h => (.ok h.sync, h)

/-- A change of the sync's own state. -/
def modify (f : σ → σ) : Run σ Unit := Act.change fun h => { h with sync := f h.sync }

/-- What was answered or the failure, as a value: a closure's `Result`, looked at. -/
def result (m : Run σ α) : Run σ (Except String α) := fun h => ((.ok (m h).1), (m h).2)

/-- The closure `landed` and `refused` run their block in. -/
def inBlock (m : Run σ Unit) : Run σ Unit := do
  begin
  m
  commit

/-- A step taken unless there is nothing for it to do. -/
def orSkip (c : Bool) (m : Run σ Unit) : Run σ Unit := if c then pure () else m

/-- A failure unless a condition is met. -/
def check (c : Bool) (e : String) : Run σ Unit := if c then pure () else Act.fail e

/-- A text read as JSON, which may fail. -/
def parse (a : α) : Run σ α := select fun _ => a

end Run

end Fenec.Replica
