/-
# The copies subscribers keep

A subscriber follows a collection, or a shape of it, over a stream, and keeps a copy.  The server
keeps no events for it.  A look asks the change ring for the ids written after the stream's cursor
and answers with the rows **as they stand at the look**; a cursor the ring cannot answer is sent
the whole shape.  The client writes what comes over its copy, moves its own cursor, and resumes
from it after any break: a stream lost with events on the way, a page closed in the middle of
applying one, a copy restored from an older session.

What makes all of that safe is one relation, `Current s sh n copy`: whatever of the collection is
not marked as written after `n` stands in the copy as the shape shows it now.  It says nothing of
what is marked, so writes keep it (`Current.write`), a copy between two that are current at `n`
and later is current at `n` (`Current.between`), and a copy that is current at the counter is the
shape (`Current.agrees`).  A schema change marks the collection itself, and with that mark after
`n` the relation asks nothing: the client is told so and seeds again.

The invariant of a run (`Sound`) is that relation for each client, each kept session, and each
client as it will be after every event on its way.
-/
import Mathlib.Data.List.Nodup
import Mathlib.Logic.Function.Basic
import Fenec.Changes
import Fenec.Lib.OrdMap
import Fenec.Lib.Run

namespace Fenec

namespace Copies

open Lib (OrdMap)
open Changes

/-! ## 1. The server -/

/-- `Collection`: its id, and its rows. -/
structure Collection (α : Type) where
  id : UInt32
  rows : OrdMap α

/-- A subscription: a collection by its name, what its filter and its projection leave of a row,
and whether its token's rules read it. -/
structure Shape (α β : Type) where
  name : String
  see : DocId → α → Option β
  isScoped : Bool

/-- What the shape shows of an id: nothing of a row that is not there or does not match. -/
def Shape.view {α β : Type} (sh : Shape α β) (c : Collection α) (id : DocId) : Option β :=
  (c.rows.get id).bind (sh.see id)

/-- `Database`: the change ring, the collections by name and the next one's id; and, beside the
ring, every mark it was given (`Told`). -/
structure Server (α : Type) where
  changes : ChangeLog
  told : Told
  collections : String → Option (Collection α)
  next : UInt32

/-- `SCHEMA_MARK`. -/
def schemaMark : DocId := 0

/-- A write that lands: a row written or deleted, a schema change that makes every row read
differently, a collection made or dropped. -/
inductive Write (α : Type) where
  | put (name : String) (id : DocId) (doc : α)
  | del (name : String) (id : DocId)
  | alter (name : String) (read : DocId → α → α)
  | create (name : String)
  | drop (name : String)

/-- The image a replica adopts: what it holds, and the change it stands at. -/
structure Image (α : Type) where
  collections : String → Option (Collection α)
  next : UInt32
  seq : UInt64

section Server

variable {α β : Type}

/-- `Database::new`. -/
def Server.new (cap : UInt64) : Server α := ⟨.new cap, ⟨0, []⟩, fun _ => none, 1⟩

/-- `Database::note`. -/
def Server.note (s : Server α) (cid : UInt32) (id : DocId) : Server α :=
  { s with changes := s.changes.record cid id, told := s.told.apply (.record cid id) }

/-- A collection put under a name, or taken away. -/
def Server.keep (s : Server α) (name : String) (c : Option (Collection α)) : Server α :=
  { s with collections := Function.update s.collections name c }

/-- **A write, with the mark it leaves**; none where the statement is refused. -/
def Server.write (s : Server α) : Write α → Option (Server α)
  | .put name id doc =>
    if id = schemaMark then none
    else (s.collections name).map fun c =>
      (s.keep name (some { c with rows := c.rows.insert id doc })).note c.id id
  | .del name id =>
    (s.collections name).bind fun c =>
      if id = schemaMark ∨ c.rows.get id = none then none
      else some ((s.keep name (some { c with rows := c.rows.erase id })).note c.id id)
  | .alter name read =>
    (s.collections name).map fun c =>
      (s.keep name (some { c with rows := c.rows.map read })).note c.id schemaMark
  | .create name =>
    if (s.collections name).isSome then none
    else some (({ s with next := s.next + 1 }.keep name (some ⟨s.next, .empty⟩)).note
      s.next schemaMark)
  | .drop name =>
    (s.collections name).map fun c => (s.keep name none).note c.id schemaMark

/-- `Database::set_change_capacity`. -/
def Server.resize (s : Server α) (cap : UInt64) : Server α :=
  { s with changes := s.changes.setCapacity cap }

/-- `Database::adopt`: everything is the image's, the ring's marks go, its size stays. -/
def Server.adopt (s : Server α) (img : Image α) : Server α where
  changes := (s.changes.reset img.seq).setCapacity (.ofNat s.changes.cap)
  told := ⟨img.seq.toNat, []⟩
  collections := img.collections
  next := img.next

end Server

/-! ## 2. A stream -/

/-- `ChangeBatch`, as `change_json` sends it. -/
structure Batch (β : Type) where
  seq : Nat
  puts : List (DocId × β)
  dels : List DocId
  schema : Bool

/-- An event of a stream. -/
inductive Event (β : Type) where
  | seed (seq : Nat) (rows : List (DocId × β))
  | change (b : Batch β)
  | error

/-- Where a stream's loop stands: about to seed, at a cursor, or ended by the server. -/
inductive Stand where
  | due
  | at (cursor : Nat)
  | over
  deriving DecidableEq

/-- `serve`'s state: where it stands, the rows a scoped stream was sent (`Seen`), every event it
wrote, and of these the ones still on the way. -/
structure Stream (β : Type) where
  stand : Stand
  seen : Option (List DocId)
  sent : List (Event β)
  flight : List (Event β)

section Stream

variable {α β : Type}

/-- **`Database::changes_since`**: none where the cursor is past the ring. -/
def Server.changesSince (s : Server α) (c : Collection α) (sh : Shape α β) (since : Nat) :
    Option (Batch β) :=
  match s.changes.since since c.id with
  | .reseed => none
  | .ids ids => some
    { seq := s.changes.seq
      puts := ids.filterMap fun id =>
        if id = schemaMark then none else (sh.view c id).map (id, ·)
      dels := ids.filter fun id => id != schemaMark && (sh.view c id).isNone
      schema := ids.contains schemaMark }

/-- `Seen::left` over a batch's deletions: those of the rows sent, and the rows still held. -/
def left : List DocId → List DocId → List DocId × List DocId
  | [], seen => ([], seen)
  | id :: ids, seen =>
    let (dels, rest) := left ids (seen.filter (· != id))
    (if id ∈ seen then id :: dels else dels, rest)

/-- `Seen::sent` of a row: its id, among those sent. -/
def sent (seen : List DocId) (id : DocId) : List DocId :=
  if id ∈ seen then seen else id :: seen

/-- An event written to the connection. -/
def Stream.emit (st : Stream β) (e : Event β) : Stream β :=
  { st with sent := st.sent ++ [e], flight := st.flight ++ [e] }

/-- `seed`, and the cursor it leaves. -/
def Stream.seed (st : Stream β) (s : Server α) (sh : Shape α β) (c : Collection α) : Stream β :=
  let rows := (c.rows.filterMap sh.see).entries
  let ids := rows.map fun r => r.1
  let st := { st with stand := .at s.changes.seq, seen := st.seen.map fun _ => ids }
  st.emit (.seed s.changes.seq rows)

/-- What a batch becomes on a scoped stream, and the rows it then was sent. -/
def Batch.through (b : Batch β) : Option (List DocId) → Batch β × Option (List DocId)
  | none => (b, none)
  | some seen =>
    let (dels, rest) := left b.dels seen
    ({ b with dels }, some ((b.puts.map (·.1)).foldl sent rest))

/-- A batch of no rows and no schema change, which is not sent. -/
def Batch.isEmpty (b : Batch β) : Bool := b.puts.isEmpty && b.dels.isEmpty && !b.schema

/-- A batch sent, unless it says nothing; the cursor moves either way. -/
def Stream.tell (st : Stream β) (b : Batch β) : Stream β :=
  let (b, seen) := b.through st.seen
  let st := { st with stand := .at b.seq, seen }
  if b.isEmpty then st else st.emit (.change b)

/-- **One turn of `serve`'s loop**; none where the stream has ended. -/
def Stream.look (st : Stream β) (s : Server α) (sh : Shape α β) : Option (Stream β) :=
  match st.stand, s.collections sh.name with
  | .over, _ => none
  | _, none => some ({ st with stand := .over }.emit .error)
  | .due, some c => some (st.seed s sh c)
  | .at n, some c =>
    match s.changesSince c sh n with
    | none => some { st with stand := .due }
    | some b => some (st.tell b)

end Stream

/-! ## 3. A client -/

/-- A shape as `FenecSync` keeps it: the rows, the change they stand at, whether it was ever
seeded, and whether it is to be seeded again. -/
structure Client (β : Type) where
  copy : OrdMap β
  cursor : Nat
  seeded : Bool
  fresh : Bool

section Client

variable {α β : Type}

/-- A client that never saw a seed. -/
def Client.new : Client β := ⟨.empty, 0, false, false⟩

/-- A row written to the copy, or deleted from it. -/
def wrote (copy : OrdMap β) (cell : DocId × Option β) : OrdMap β :=
  match cell.2 with
  | none => copy.erase cell.1
  | some v => copy.insert cell.1 v

/-- The rows written one after another. -/
def written (copy : OrdMap β) (cells : List (DocId × Option β)) : OrdMap β :=
  cells.foldl wrote copy

/-- `#deleteLocal`: the rows deleted. -/
def deleteLocal (ids : List DocId) : List (DocId × Option β) := ids.map fun id => (id, none)

/-- `#insertChunked`: the rows written. -/
def insertChunked (rows : List (DocId × β)) : List (DocId × Option β) :=
  rows.map fun r => (r.1, some r.2)

/-- What an event has the client write, in `#applySeed`'s and `#applyChange`'s order: first the
deletions.  A change before the first seed, or one that says the schema changed, writes nothing. -/
def Client.cells (c : Client β) : Event β → List (DocId × Option β)
  | .seed _ rows =>
    deleteLocal (c.copy.keys.filter fun id => !(rows.map (·.1)).contains id) ++
      insertChunked rows
  | .change b =>
    if c.seeded && !b.schema then deleteLocal b.dels ++ insertChunked b.puts else []
  | .error => []

/-- **`#onEvent`**: the client after the event, and whether its stream stays open.  Rows with a
field the copy has not got do not fit, and the shape is to be seeded again. -/
def Client.take (c : Client β) (e : Event β) (fits : Bool) : Client β × Bool :=
  match e with
  | .seed seq _ =>
    if fits then (⟨written c.copy (c.cells e), seq, true, false⟩, true)
    else ({ c with fresh := true }, false)
  | .change b =>
    if !c.seeded then (c, true)
    else if b.schema || !fits then ({ c with fresh := true }, false)
    else ({ c with copy := written c.copy (c.cells e), cursor := max b.seq c.cursor }, true)
  | .error => (c, false)

/-- The client after the first `j` rows of an event were written, and no more. -/
def Client.torn (c : Client β) (e : Event β) (j : Nat) : Client β :=
  { c with copy := written c.copy ((c.cells e).take j) }

/-- The same for the event at hand, if there is one. -/
def Client.tornAt (c : Client β) (flight : List (Event β)) (j : Nat) : Client β :=
  match flight with
  | [] => c
  | e :: _ => c.torn e j

/-- `#streamUrl` and the head of `serve`: a client seeded once resumes from its cursor, unless it
is to be seeded again or its token's rules hold the stream to the rows it is sent. -/
def Client.opens (c : Client β) (sh : Shape α β) : Stream β where
  stand := if c.seeded && !c.fresh && !sh.isScoped then .at c.cursor else .due
  seen := if sh.isScoped then some [] else none
  sent := []
  flight := []

end Client

/-! ## 4. The system -/

/-- The server, the clients, the session each kept, and the streams that are open. -/
structure World (ι α β : Type) where
  server : Server α
  clients : ι → Client β
  saved : ι → Client β
  streams : ι → Option (Stream β)

/-- What happens: a write, a ring resized, an image adopted; and for one client a stream opened,
a look, an event delivered, the stream lost with so many rows of the event at hand written, the
session kept in the middle of one, and a kept session opened again. -/
inductive Act (ι α : Type) where
  | write (w : Write α)
  | resize (cap : UInt64)
  | adopt (img : Image α)
  | connect (i : ι)
  | look (i : ι)
  | deliver (i : ι) (fits : Bool)
  | lose (i : ι) (j : Nat)
  | save (i : ι) (j : Nat)
  | restore (i : ι)

section World

variable {ι α β : Type} [DecidableEq ι]

/-- Before anything happened. -/
def World.new (cap : UInt64) : World ι α β :=
  ⟨.new cap, fun _ => .new, fun _ => .new, fun _ => none⟩

/-- One client, and its stream. -/
def World.withClient (w : World ι α β) (i : ι) (c : Client β) (st : Option (Stream β)) :
    World ι α β :=
  { w with clients := Function.update w.clients i c, streams := Function.update w.streams i st }

/-- The events on their way to a client. -/
def World.flight (w : World ι α β) (i : ι) : List (Event β) :=
  match w.streams i with
  | none => []
  | some st => st.flight

/-- **The system's step**, none where it cannot happen. -/
def step (shapes : ι → Shape α β) (w : World ι α β) : Act ι α → Option (World ι α β)
  | .write wr => (w.server.write wr).map fun server => { w with server }
  | .resize cap => some { w with server := w.server.resize cap }
  | .adopt img => some { w with server := w.server.adopt img }
  | .connect i =>
    if (w.streams i).isSome then none
    else some (w.withClient i (w.clients i) (some ((w.clients i).opens (shapes i))))
  | .look i =>
    (w.streams i).bind fun st =>
      (st.look w.server (shapes i)).map fun st => w.withClient i (w.clients i) (some st)
  | .deliver i fits =>
    (w.streams i).bind fun st =>
      match st.flight with
      | [] => none
      | e :: rest =>
        let taken := (w.clients i).take e fits
        some (w.withClient i taken.1 (if taken.2 then some { st with flight := rest } else none))
  | .lose i j => some (w.withClient i ((w.clients i).tornAt (w.flight i) j) none)
  | .save i j =>
    some { w with saved := Function.update w.saved i ((w.clients i).tornAt (w.flight i) j) }
  | .restore i => some (w.withClient i { w.saved i with fresh := false } none)

/-- The change counter has room for a write, and an image that is adopted is of a later change
than the one the server stands at. -/
def Room (w : World ι α β) : Act ι α → Prop
  | .write _ => w.server.changes.seq + 1 < 2 ^ 64
  | .adopt img => w.server.changes.seq < img.seq.toNat
  | _ => True

instance (w : World ι α β) : DecidablePred (Room (α := α) w) := fun a => by
  cases a <;> unfold Room <;> infer_instance

end World

/-! ## 5. Rows written to a copy -/

section Written

variable {β : Type} {copy : OrdMap β} {cells : List (DocId × Option β)} {id : DocId}

@[simp]
theorem get_wrote (copy : OrdMap β) (cell : DocId × Option β) (id : DocId) :
    (wrote copy cell).get id = if id = cell.1 then cell.2 else copy.get id := by
  obtain ⟨k, v⟩ := cell
  cases v <;> simp [wrote]

@[simp]
theorem map_deleteLocal (ids : List DocId) :
    (deleteLocal ids : List (DocId × Option β)).map (·.1) = ids := by
  simp [deleteLocal, Function.comp_def]

@[simp]
theorem map_insertChunked (rows : List (DocId × β)) :
    (insertChunked rows).map (·.1) = rows.map (·.1) := by
  simp [insertChunked, Function.comp_def]

theorem mem_deleteLocal {ids : List DocId} (h : id ∈ ids) :
    (id, none) ∈ (deleteLocal ids : List (DocId × Option β)) := List.mem_map.mpr ⟨id, h, rfl⟩

theorem mem_insertChunked {rows : List (DocId × β)} {v : β} (h : (id, v) ∈ rows) :
    (id, some v) ∈ insertChunked rows := List.mem_map.mpr ⟨(id, v), h, rfl⟩

/-- A row no cell is of stays. -/
theorem get_written_of_notMem (h : id ∉ cells.map (·.1)) :
    (written copy cells).get id = copy.get id := by
  induction cells generalizing copy with
  | nil => rfl
  | cons cell cells ih =>
    rw [List.map_cons, List.mem_cons, not_or] at h
    rw [written, List.foldl_cons, ← written, ih h.2, get_wrote, if_neg h.1]

/-- Where no two cells are of one row, a cell's row is as the cell says. -/
theorem get_written_of_mem (hn : (cells.map (·.1)).Nodup) {v : Option β} (h : (id, v) ∈ cells) :
    (written copy cells).get id = v := by
  induction cells generalizing copy with
  | nil => exact absurd h (List.not_mem_nil)
  | cons cell cells ih =>
    rw [List.map_cons, List.nodup_cons] at hn
    rw [written, List.foldl_cons, ← written]
    rcases List.mem_cons.mp h with rfl | h
    · rw [get_written_of_notMem hn.1, get_wrote, if_pos rfl]
    · exact ih hn.2 h

/-- **A copy torn in the middle of an event has of each row what it had before or what it would
have had after.** -/
theorem get_written_take (hn : (cells.map (·.1)).Nodup) (j : Nat) :
    (written copy (cells.take j)).get id = copy.get id ∨
      (written copy (cells.take j)).get id = (written copy cells).get id := by
  by_cases h : id ∈ (cells.take j).map (·.1)
  · obtain ⟨⟨k, v⟩, hmem, rfl⟩ := List.mem_map.mp h
    have hn' : ((cells.take j).map (·.1)).Nodup := by
      rw [List.map_take]
      exact hn.sublist (List.take_sublist _ _)
    right
    rw [get_written_of_mem hn' hmem, get_written_of_mem hn (List.mem_of_mem_take hmem)]
  · exact .inl (get_written_of_notMem h)

end Written

/-! ## 6. What a write leaves marked -/

section Marked

variable {α β : Type} {s s' : Server α} {sh : Shape α β}

/-- A mark after `n` of a row of a collection. -/
def Marked (t : Told) (n : Nat) (cid : UInt32) (id : DocId) : Prop :=
  ∃ m ∈ t.marks, n < m.seq ∧ m.cid = cid ∧ m.id = id

/-- The counter, unwrapped. -/
def Server.count (s : Server α) : Nat := s.told.start + s.told.marks.length

/-- The ring holds the end of what was marked, and the counter never went round. -/
structure Level (s : Server α) : Prop where
  whole : Whole s.changes s.told
  room : s.count < 2 ^ 64

theorem Level.seq_eq (h : Level s) : s.changes.seq = s.count := by
  rw [h.whole.seq_eq, Told.seq, ← Server.count, Nat.mod_eq_of_lt h.room]

/-- No mark is after the counter. -/
theorem Level.not_marked (h : Level s) {cid : UInt32} {id : DocId} :
    ¬ Marked s.told s.count cid id := by
  rintro ⟨m, hm, hlt, -⟩
  obtain ⟨k, hk, rfl⟩ := List.getElem_of_mem hm
  have hroom := h.room
  rw [h.whole.numbered k hk] at hlt
  rw [Server.count] at hlt hroom
  omega

/-- **What a write does**: it marks one row of one collection, or the collection itself, and every
collection is what it was, or marked itself, or has every other row as it was. -/
structure Lands (s s' : Server α) (cid : UInt32) (id : DocId) : Prop where
  changes : s'.changes = s.changes.record cid id
  told : s'.told = s.told.apply (.record cid id)
  frame : ∀ name c', s'.collections name = some c' →
    s.collections name = some c' ∨ (c'.id = cid ∧ id = schemaMark) ∨
      (c'.id = cid ∧ ∃ c, s.collections name = some c ∧ c.id = cid ∧
        ∀ k, k ≠ id → c'.rows.get k = c.rows.get k)

/-- A collection put under a name and marked, where what is put may stand there. -/
theorem Lands.keep {name : String} {c : Option (Collection α)} {cid : UInt32} {id : DocId}
    (hc : ∀ c', c = some c' → (c'.id = cid ∧ id = schemaMark) ∨
      (c'.id = cid ∧ ∃ c, s.collections name = some c ∧ c.id = cid ∧
        ∀ k, k ≠ id → c'.rows.get k = c.rows.get k)) :
    Lands s ((s.keep name c).note cid id) cid id := by
  refine ⟨rfl, rfl, fun name' c' h => ?_⟩
  replace h : Function.update s.collections name c name' = some c' := h
  by_cases hname : name' = name
  · subst hname
    rw [Function.update_self] at h
    exact .inr (hc c' h)
  · rw [Function.update_of_ne hname] at h
    exact .inl h

theorem write_lands {wr : Write α} (h : s.write wr = some s') : ∃ cid id, Lands s s' cid id := by
  cases wr with
  | put name id doc =>
    simp only [Server.write] at h
    split at h
    · cases h
    · obtain ⟨c, hc, rfl⟩ := Option.map_eq_some_iff.mp h
      refine ⟨c.id, id, .keep fun c' hc' => .inr ?_⟩
      cases hc'
      exact ⟨rfl, c, hc, rfl, fun k hk => by simp [hk]⟩
  | del name id =>
    obtain ⟨c, hc, h⟩ := Option.bind_eq_some_iff.mp h
    split at h
    · cases h
    · cases h
      refine ⟨c.id, id, .keep fun c' hc' => .inr ?_⟩
      cases hc'
      exact ⟨rfl, c, hc, rfl, fun k hk => by simp [hk]⟩
  | alter name read =>
    obtain ⟨c, hc, rfl⟩ := Option.map_eq_some_iff.mp h
    refine ⟨c.id, schemaMark, .keep fun c' hc' => .inl ?_⟩
    cases hc'
    exact ⟨rfl, rfl⟩
  | create name =>
    simp only [Server.write] at h
    split at h
    · cases h
    · cases h
      refine ⟨s.next, schemaMark, ?_⟩
      have hlands : Lands { s with next := s.next + 1 } (({ s with next := s.next + 1 }.keep name
          (some ⟨s.next, .empty⟩)).note s.next schemaMark) s.next schemaMark :=
        .keep fun c' hc' => by cases hc'; exact .inl ⟨rfl, rfl⟩
      exact ⟨hlands.changes, hlands.told, hlands.frame⟩
  | drop name =>
    obtain ⟨c, hc, rfl⟩ := Option.map_eq_some_iff.mp h
    exact ⟨c.id, schemaMark, .keep fun c' hc' => by cases hc'⟩

theorem Lands.level {cid : UInt32} {id : DocId} (h : Lands s s' cid id) (hl : Level s)
    (hroom : s.changes.seq + 1 < 2 ^ 64) : Level s' := by
  refine ⟨?_, ?_⟩
  · rw [h.changes, h.told]
    exact hl.whole.record cid id
  · rw [hl.seq_eq] at hroom
    rw [Server.count, h.told]
    simpa [Told.apply, Server.count, Nat.add_assoc] using hroom

theorem Lands.count {cid : UInt32} {id : DocId} (h : Lands s s' cid id) :
    s'.count = s.count + 1 := by
  simp [Server.count, h.told, Told.apply, Nat.add_assoc]

/-- After a write, what was marked is, and so is what it wrote. -/
theorem Lands.marked {cid : UInt32} {id : DocId} (h : Lands s s' cid id) (hl : Level s)
    (hroom : s.changes.seq + 1 < 2 ^ 64) {n : Nat} (hn : n ≤ s.count) :
    Marked s'.told n cid id ∧ ∀ c k, Marked s.told n c k → Marked s'.told n c k := by
  have hmarks : s'.told.marks =
      s.told.marks ++ [⟨(s.told.seq + 1) % 2 ^ 64, cid, id⟩] := by rw [h.told]; rfl
  rw [hl.seq_eq] at hroom
  have hseq : s.told.seq = s.count := by rw [← hl.whole.seq_eq, hl.seq_eq]
  constructor
  · refine ⟨_, by rw [hmarks]; exact List.mem_append_right _ (List.mem_singleton_self _), ?_⟩
    refine ⟨?_, rfl, rfl⟩
    simp only [hseq, Nat.mod_eq_of_lt hroom]
    omega
  · rintro c k ⟨m, hm, hrest⟩
    exact ⟨m, by rw [hmarks]; exact List.mem_append_left _ hm, hrest⟩

/-- **A copy current at `n`**: `n` is no later than the counter, and unless the ring began after
it or the collection is marked itself, every row not marked after it is in the copy as the shape
shows it now. -/
def Current (s : Server α) (sh : Shape α β) (n : Nat) (copy : OrdMap β) : Prop :=
  n ≤ s.count ∧ (s.told.start ≤ n → ∀ c, s.collections sh.name = some c →
    ¬ Marked s.told n c.id schemaMark → ∀ id, ¬ Marked s.told n c.id id →
      copy.get id = sh.view c id)

variable {n : Nat} {copy : OrdMap β}

/-- **A write keeps every copy current.** -/
theorem Current.write {cid : UInt32} {id : DocId} (h : Current s sh n copy)
    (hl : Level s) (hw : Lands s s' cid id) (hroom : s.changes.seq + 1 < 2 ^ 64) :
    Current s' sh n copy := by
  obtain ⟨hn, hcur⟩ := h
  obtain ⟨hnew, hold⟩ := hw.marked hl hroom hn
  refine ⟨by rw [hw.count]; omega, fun hstart c' hc' hschema k hk => ?_⟩
  rw [hw.told] at hstart
  rcases hw.frame _ _ hc' with hc | ⟨hid, hmark⟩ | ⟨hid, c, hc, hcid, hframe⟩
  · exact hcur hstart c' hc (fun hm => hschema (hold _ _ hm)) k (fun hm => hk (hold _ _ hm))
  · -- the collection is marked itself
    rw [hid] at hschema
    exact absurd (hmark ▸ hnew) hschema
  · -- the row written is marked, and every other is what it was
    rw [hid] at hschema hk
    have hne : k ≠ id := fun he => hk (he ▸ hnew)
    have hview : sh.view c' k = sh.view c k := by rw [Shape.view, Shape.view, hframe k hne]
    rw [hview]
    exact hcur hstart c hc (fun hm => hschema (hold _ _ (hcid ▸ hm))) k
      (fun hm => hk (hold _ _ (hcid ▸ hm)))

/-- An image of a later change than any cursor leaves nothing a copy has to agree with. -/
theorem Current.adopt {img : Image α} (h : Current s sh n copy) (hl : Level s)
    (hlater : s.changes.seq < img.seq.toNat) : Current (s.adopt img) sh n copy := by
  have hn := h.1
  rw [hl.seq_eq] at hlater
  refine ⟨?_, fun hstart => ?_⟩
  · simp only [Server.count, Server.adopt]
    omega
  · simp only [Server.adopt] at hstart
    omega

theorem Level.adopt {img : Image α} (h : Level s) : Level (s.adopt img) :=
  ⟨(h.whole.reset img.seq).setCapacity _, by
    have := img.seq.toNat_lt
    simpa [Server.count, Server.adopt] using this⟩

theorem Level.resize (h : Level s) (cap : UInt64) : Level (s.resize cap) :=
  ⟨h.whole.setCapacity cap, h.room⟩

/-- **Between two copies current at `n` and at a later change lie only copies current at `n`.** -/
theorem Current.between {copy' torn : OrdMap β} {n' : Nat} (h : Current s sh n copy)
    (h' : Current s sh n' copy') (hle : n ≤ n')
    (htorn : ∀ id, torn.get id = copy.get id ∨ torn.get id = copy'.get id) :
    Current s sh n torn := by
  refine ⟨h.1, fun hstart c hc hschema id hid => ?_⟩
  have hlater : ∀ {k}, ¬ Marked s.told n c.id k → ¬ Marked s.told n' c.id k :=
    fun hk ⟨m, hm, hlt, hrest⟩ => hk ⟨m, hm, by omega, hrest⟩
  rcases htorn id with he | he
  · rw [he]
    exact h.2 hstart c hc hschema id hid
  · rw [he]
    exact h'.2 (hstart.trans hle) c hc (hlater hschema) id (hlater hid)

/-- **A copy current at the counter is the shape.** -/
theorem Current.agrees {c : Collection α} (h : Current s sh s.count copy) (hl : Level s)
    (hc : s.collections sh.name = some c) (id : DocId) : copy.get id = sh.view c id :=
  h.2 (Nat.le_add_right _ _) c hc hl.not_marked id hl.not_marked

/-- A copy that is the shape is current at the counter. -/
theorem Current.of_agrees {c : Collection α} (hc : s.collections sh.name = some c)
    (h : ∀ id, copy.get id = sh.view c id) : Current s sh s.count copy := by
  refine ⟨le_refl _, fun _ c' hc' _ id _ => ?_⟩
  rw [hc] at hc'
  cases hc'
  exact h id

end Marked

/-! ## 7. What a look sends -/

section Look

variable {α β : Type} {s : Server α} {sh : Shape α β} {c : Collection α} {n : Nat}
  {copy : OrdMap β}

/-- **A batch tells what the shape shows now of every row marked after the cursor**, each row
once; and whether the collection itself is marked. -/
structure Tells (s : Server α) (sh : Shape α β) (c : Collection α) (n : Nat) (b : Batch β) :
    Prop where
  seq_eq : b.seq = s.count
  start_le : s.told.start ≤ n
  mem_dels : ∀ id, id ∈ b.dels ↔
    id ≠ schemaMark ∧ Marked s.told n c.id id ∧ sh.view c id = none
  mem_puts : ∀ id v, (id, v) ∈ b.puts ↔
    id ≠ schemaMark ∧ Marked s.told n c.id id ∧ sh.view c id = some v
  schema_iff : b.schema = true ↔ Marked s.told n c.id schemaMark
  nodup : (b.dels ++ b.puts.map (·.1)).Nodup

/-- The ids the ring answers with are those marked after the cursor, each once. -/
theorem Level.since (h : Level s) {cid : UInt32} {ids : List DocId}
    (hids : s.changes.since n cid = .ids ids) :
    s.told.start ≤ n ∧ ids.Nodup ∧ ∀ id, id ∈ ids ↔ Marked s.told n cid id := by
  rw [ChangeLog.since] at hids
  split at hids
  · cases hids
  · rename_i hserved
    have hlow : s.changes.horizon ≤ n := by omega
    have hhigh : n ≤ s.changes.seq := by omega
    cases hids
    refine ⟨(h.whole.caught_iff.mpr ⟨hlow, hhigh⟩).2.1,
      (sortDedup_ascending _).imp fun hlt => Nat.ne_of_lt hlt, fun id => ?_⟩
    rw [mem_sortDedup, h.whole.parted hlow hhigh]
    simp only [afterCursor, Marked, List.mem_map, List.mem_filter, decide_eq_true_eq, beq_iff_eq]
    grind

theorem Level.changesSince (h : Level s) {b : Batch β}
    (hb : s.changesSince c sh n = some b) : Tells s sh c n b := by
  unfold Server.changesSince at hb
  split at hb
  · cases hb
  · rename_i ids hids
    obtain ⟨hstart, hnodup, hmem⟩ := h.since hids
    cases hb
    have hdels : ∀ id, id ∈ (ids.filter fun id => id != schemaMark && (sh.view c id).isNone) ↔
        id ≠ schemaMark ∧ Marked s.told n c.id id ∧ sh.view c id = none := by
      intro id
      simp only [List.mem_filter, hmem, Bool.and_eq_true, bne_iff_ne, Option.isNone_iff_eq_none]
      tauto
    have hputs : ∀ id v, (id, v) ∈ (ids.filterMap fun id =>
        if id = schemaMark then none else (sh.view c id).map (id, ·)) ↔
        id ≠ schemaMark ∧ Marked s.told n c.id id ∧ sh.view c id = some v := by
      intro id v
      simp only [List.mem_filterMap, hmem]
      constructor
      · rintro ⟨k, hk, hkv⟩
        split at hkv
        · cases hkv
        · obtain ⟨v', hv', heq⟩ := Option.map_eq_some_iff.mp hkv
          cases heq
          exact ⟨‹_›, hk, hv'⟩
      · rintro ⟨hne, hk, hv⟩
        exact ⟨id, hk, by rw [if_neg hne, hv]; rfl⟩
    refine ⟨h.seq_eq, hstart, hdels, hputs, ?_, ?_⟩
    · simp [hmem]
    · refine List.Nodup.append (hnodup.filter _) ?_ ?_
      · -- the puts' ids are among the ids, in their order
        rw [List.Nodup, List.pairwise_map]
        refine List.Pairwise.filterMap _ ?_ hnodup
        intro a a' hne p hp p' hp' heq
        have hkey : ∀ {k : DocId} {q : DocId × β},
            (if k = schemaMark then none else (sh.view c k).map (k, ·)) = some q → q.1 = k := by
          intro k q hq
          split at hq
          · cases hq
          · obtain ⟨v, -, rfl⟩ := Option.map_eq_some_iff.mp hq
            rfl
        exact hne ((hkey hp).symm.trans (heq.trans (hkey hp')))
      · intro id hd hp
        obtain ⟨⟨k, v⟩, hkv, rfl⟩ := List.mem_map.mp hp
        have h1 := ((hdels k).mp hd).2.2
        have h2 := ((hputs k v).mp hkv).2.2
        rw [h1] at h2
        cases h2

/-- **What a batch says, written over a copy current at the cursor, is the shape**, less the
deletions of rows the copy has not got. -/
theorem Tells.agrees {b : Batch β} (h : Tells s sh c n b) (hcur : Current s sh n copy)
    (hc : s.collections sh.name = some c) (hschema : b.schema = false) {dels : List DocId}
    (hsub : dels.Sublist b.dels)
    (hdels : ∀ id ∈ b.dels, id ∈ dels ∨ copy.get id = none) (id : DocId) :
    (written copy (deleteLocal dels ++ insertChunked b.puts)).get id = sh.view c id := by
  have hnot : ¬ Marked s.told n c.id schemaMark := by
    rw [← h.schema_iff, hschema]
    exact Bool.false_ne_true
  have hkeys : (deleteLocal dels ++ insertChunked b.puts : List (DocId × Option β)).map (·.1) =
      dels ++ b.puts.map (·.1) := by simp
  have hnodup : ((deleteLocal dels ++ insertChunked b.puts :
      List (DocId × Option β)).map (·.1)).Nodup := by
    rw [hkeys]
    exact h.nodup.sublist (hsub.append_right _)
  by_cases hm : Marked s.told n c.id id
  · have hne : id ≠ schemaMark := fun he => hnot (he ▸ hm)
    cases hv : sh.view c id with
    | none =>
      have hd := (h.mem_dels id).mpr ⟨hne, hm, hv⟩
      by_cases hin : id ∈ dels
      · exact get_written_of_mem hnodup (List.mem_append_left _ (mem_deleteLocal hin))
      · -- a deletion left out is of a row the copy has not got
        rw [get_written_of_notMem]
        · exact (hdels id hd).resolve_left hin
        · rw [hkeys, List.mem_append, not_or]
          refine ⟨hin, fun hp => ?_⟩
          obtain ⟨⟨k, v⟩, hkv, rfl⟩ := List.mem_map.mp hp
          rw [((h.mem_puts k v).mp hkv).2.2] at hv
          cases hv
    | some v =>
      exact get_written_of_mem hnodup (List.mem_append_right _
        (mem_insertChunked ((h.mem_puts id v).mpr ⟨hne, hm, hv⟩)))
  · rw [get_written_of_notMem]
    · exact hcur.2 h.start_le c hc hnot id hm
    · rw [hkeys, List.mem_append, not_or]
      refine ⟨fun hd => hm ((h.mem_dels id).mp (hsub.subset hd)).2.1, fun hp => ?_⟩
      obtain ⟨⟨k, v⟩, hkv, rfl⟩ := List.mem_map.mp hp
      exact hm ((h.mem_puts k v).mp hkv).2.1

/-- The cells of a seed: what the copy holds and the seed does not, and the seed's rows. -/
theorem seed_nodup (cl : Client β) (seq : Nat) (rows : OrdMap β) :
    ((cl.cells (.seed seq rows.entries)).map (·.1)).Nodup := by
  have hasc : ∀ m : OrdMap β, m.keys.Nodup := fun m =>
    m.keys_ascending.imp fun hlt => Nat.ne_of_lt hlt
  simp only [Client.cells, List.map_append, map_deleteLocal, map_insertChunked]
  refine List.Nodup.append ((hasc _).filter _) (hasc rows) ?_
  intro id hd hp
  simp only [List.mem_filter, Bool.not_eq_true', List.contains_eq_mem, decide_eq_false_iff_not]
    at hd
  exact hd.2 hp

/-- **A seed written over any copy is the seed.** -/
theorem seed_agrees (cl : Client β) (seq : Nat) (rows : OrdMap β) (id : DocId) :
    (written cl.copy (cl.cells (.seed seq rows.entries))).get id = rows.get id := by
  have hn := seed_nodup cl seq rows
  cases hv : rows.get id with
  | some v =>
    exact get_written_of_mem hn
      (List.mem_append_right _ (mem_insertChunked (OrdMap.mem_entries_iff.mpr hv)))
  | none =>
    have hno : id ∉ rows.entries.map (·.1) := fun hin => by
      obtain ⟨v, hv'⟩ := OrdMap.mem_keys_iff.mp hin
      rw [hv] at hv'
      cases hv'
    cases hold : cl.copy.get id with
    | some v =>
      refine get_written_of_mem hn (List.mem_append_left _ (mem_deleteLocal ?_))
      rw [List.mem_filter]
      exact ⟨OrdMap.mem_keys_iff.mpr ⟨v, hold⟩, by simpa using hno⟩
    | none =>
      rw [get_written_of_notMem, hold]
      simp only [Client.cells, List.map_append, map_deleteLocal, map_insertChunked,
        List.mem_append, not_or, List.mem_filter, not_and]
      refine ⟨fun hin => ?_, hno⟩
      obtain ⟨v, hv'⟩ := OrdMap.mem_keys_iff.mp hin
      rw [hold] at hv'
      cases hv'

/-- What `left` lets through: the deletions of rows sent, and the rows still held. -/
theorem left_spec : ∀ (ids seen : List DocId), ids.Nodup →
    (left ids seen).1.Sublist ids ∧ (∀ id ∈ ids, id ∈ (left ids seen).1 ↔ id ∈ seen) ∧
      ∀ id, id ∈ (left ids seen).2 ↔ id ∈ seen ∧ id ∉ ids
  | [], seen, _ => ⟨.slnil, by simp, by simp [left]⟩
  | k :: ids, seen, hn => by
    rw [List.nodup_cons] at hn
    obtain ⟨hsub, hdels, hrest⟩ := left_spec ids (seen.filter (· != k)) hn.2
    simp only [left]
    refine ⟨?_, fun id hid => ?_, fun id => ?_⟩
    · split
      · exact hsub.cons_cons _
      · exact hsub.cons _
    · have hk : k ∉ (left ids (seen.filter (· != k))).1 := fun hin => hn.1 (hsub.subset hin)
      rcases List.mem_cons.mp hid with rfl | hid
      · split <;> simp [*]
      · have hne : id ≠ k := fun he => hn.1 (he ▸ hid)
        have := hdels id hid
        split <;> simp_all
    · rw [hrest]
      simp [List.mem_filter, and_assoc, and_comm, and_left_comm]

/-- The rows sent are added to those sent before. -/
theorem mem_foldl_sent (ids seen : List DocId) (id : DocId) :
    id ∈ ids.foldl sent seen ↔ id ∈ seen ∨ id ∈ ids := by
  induction ids generalizing seen with
  | nil => simp
  | cons k ids ih =>
    rw [List.foldl_cons, ih, sent, List.mem_cons]
    split
    · rename_i hk
      constructor
      · exact Or.imp_right .inr
      · rintro (h | rfl | h)
        · exact .inl h
        · exact .inl hk
        · exact .inr h
    · rw [List.mem_cons]
      tauto

end Look

/-! ## 8. What is on its way -/

section Trail

variable {α β : Type} {s s' : Server α} {sh : Shape α β} {c : Collection α} {cl : Client β}
  {e : Event β} {n : Nat}

theorem take_copy (cl : Client β) (e : Event β) :
    (cl.take e true).1.copy = written cl.copy (cl.cells e) := by
  cases e with
  | seed seq rows => rfl
  | error => rfl
  | change b => cases hs : cl.seeded <;> cases hb : b.schema <;> simp [Client.take, Client.cells,
      hs, hb, written]

theorem take_seeded (h : cl.seeded = true) : (cl.take e true).1.seeded = true := by
  cases e with
  | seed seq rows => rfl
  | error => exact h
  | change b => cases hb : b.schema <;> simp [Client.take, h, hb]

/-- An event that does not fit changes no row and no cursor. -/
theorem take_false (cl : Client β) (e : Event β) :
    (cl.take e false).1.copy = cl.copy ∧ (cl.take e false).1.cursor = cl.cursor ∧
      (cl.take e false).1.seeded = cl.seeded ∧
      ((cl.take e false).2 = true →
        cl.take e false = (cl, true) ∧ cl.take e true = (cl, true)) := by
  cases e with
  | seed seq rows => exact ⟨rfl, rfl, rfl, fun h => absurd h Bool.false_ne_true⟩
  | error => exact ⟨rfl, rfl, rfl, fun h => absurd h Bool.false_ne_true⟩
  | change b => cases hs : cl.seeded <;> simp [Client.take, hs]

/-- **A client**: what it was seeded with is current at its cursor. -/
def Good (s : Server α) (sh : Shape α β) (cl : Client β) : Prop :=
  cl.seeded = true → Current s sh cl.cursor cl.copy

/-- **A client that took everything its stream sent**: it was seeded, its copy is current at the
stream's cursor, and holds the rows a scoped stream counts as sent. -/
def Upto (s : Server α) (sh : Shape α β) (stand : Stand) (seen : Option (List DocId))
    (cl : Client β) : Prop :=
  ∀ n, stand = .at n → cl.seeded = true ∧ cl.cursor ≤ n ∧ Current s sh n cl.copy ∧
    ∀ l, seen = some l → ∀ id, id ∈ l ↔ ∃ v, cl.copy.get id = some v

/-- **The events on their way**: each leaves the client good and its cursor no earlier, no two of
its rows are one, and after the last the client has all its stream sent. -/
def Trail (s : Server α) (sh : Shape α β) (stand : Stand) (seen : Option (List DocId)) :
    Client β → List (Event β) → Prop
  | cl, [] => Upto s sh stand seen cl
  | cl, e :: rest =>
    ((cl.cells e).map (·.1)).Nodup ∧ Good s sh (cl.take e true).1 ∧
      (cl.seeded = true → cl.cursor ≤ (cl.take e true).1.cursor) ∧
      ((cl.take e true).2 = true → Trail s sh stand seen (cl.take e true).1 rest)

variable {stand stand' : Stand} {seen seen' : Option (List DocId)} {flight more : List (Event β)}

theorem Good.mono (hmono : ∀ n copy, Current s sh n copy → Current s' sh n copy)
    (h : Good s sh cl) : Good s' sh cl := fun hs => hmono _ _ (h hs)

/-- What keeps copies current keeps the trail. -/
theorem Trail.mono (hmono : ∀ n copy, Current s sh n copy → Current s' sh n copy) :
    ∀ {flight : List (Event β)} {cl : Client β}, Trail s sh stand seen cl flight →
      Trail s' sh stand seen cl flight
  | [], _, h => fun n hn => by
    obtain ⟨hseeded, hle, hcur, hseen⟩ := h n hn
    exact ⟨hseeded, hle, hmono _ _ hcur, hseen⟩
  | _ :: _, _, ⟨hnodup, hgood, hle, hrest⟩ =>
    ⟨hnodup, hgood.mono hmono, hle, fun hopen => (hrest hopen).mono hmono⟩

/-- **More sent**: what holds of a client that has taken everything so far holds at the end. -/
theorem Trail.extend : ∀ {flight : List (Event β)} {cl : Client β}, Good s sh cl →
    Trail s sh stand seen cl flight →
    (∀ cl', Good s sh cl' → Upto s sh stand seen cl' → Trail s sh stand' seen' cl' more) →
    Trail s sh stand' seen' cl (flight ++ more)
  | [], cl, hg, h, hmore => hmore cl hg h
  | _ :: _, _, _, ⟨hnodup, hgood, hle, hrest⟩, hmore =>
    ⟨hnodup, hgood, hle, fun hopen => (hrest hopen).extend hgood hmore⟩

/-- **A client torn in the middle of an event is good.** -/
theorem Trail.torn {rest : List (Event β)} (hg : Good s sh cl)
    (h : Trail s sh stand seen cl (e :: rest)) (j : Nat) : Good s sh (cl.torn e j) := by
  obtain ⟨hnodup, hgood, hle, -⟩ := h
  intro hseeded
  have hafter := hgood (take_seeded hseeded)
  rw [take_copy] at hafter
  exact (hg hseeded).between hafter (hle hseeded) fun id => get_written_take hnodup j

theorem Trail.tornAt (hg : Good s sh cl) (h : Trail s sh stand seen cl flight) (j : Nat) :
    Good s sh (cl.tornAt flight j) := by
  cases flight with
  | nil => exact hg
  | cons e rest => exact h.torn hg j

/-- A stream opened stands where its client does. -/
theorem opens_trail (hg : Good s sh cl) :
    Trail s sh (cl.opens sh).stand (cl.opens sh).seen cl (cl.opens sh).flight := by
  intro n hn
  simp only [Client.opens] at hn ⊢
  split at hn
  · rename_i hsince
    cases hn
    simp only [Bool.and_eq_true, Bool.not_eq_true'] at hsince
    refine ⟨hsince.1.1, le_refl _, hg hsince.1.1, fun l hl => ?_⟩
    rw [hsince.2] at hl
    cases hl
  · cases hn

/-- **A seed**: whoever takes it has the shape as it stands. -/
theorem seed_trail (hl : Level s) (hc : s.collections sh.name = some c) (hg : Good s sh cl) :
    Trail s sh (.at s.changes.seq)
      (seen.map fun _ => (c.rows.filterMap sh.see).entries.map fun r => r.1) cl
      [.seed s.changes.seq (c.rows.filterMap sh.see).entries] := by
  have hget : ∀ id, (written cl.copy
      (cl.cells (.seed s.changes.seq (c.rows.filterMap sh.see).entries))).get id =
        sh.view c id := fun id => by rw [seed_agrees, OrdMap.get_filterMap, Shape.view]
  have hcur : Current s sh s.changes.seq (written cl.copy
      (cl.cells (.seed s.changes.seq (c.rows.filterMap sh.see).entries))) := by
    rw [hl.seq_eq] at hget ⊢
    exact .of_agrees hc hget
  refine ⟨seed_nodup _ _ _, fun _ => hcur, fun hs => ?_, fun _ => ?_⟩
  · simpa [Client.take, hl.seq_eq] using (hg hs).1
  · rintro n ⟨⟩
    refine ⟨rfl, le_refl _, hcur, fun l hl id => ?_⟩
    obtain ⟨_, -, rfl⟩ := Option.map_eq_some_iff.mp hl
    have hkeys : id ∈ (c.rows.filterMap sh.see).entries.map (fun r => r.1) ↔
        ∃ v, (c.rows.filterMap sh.see).get id = some v := OrdMap.mem_keys_iff
    rw [hkeys]
    simp only [Client.take, if_true, hget, OrdMap.get_filterMap, Shape.view]

theorem through_seq (b : Batch β) (seen : Option (List DocId)) :
    (b.through seen).1.seq = b.seq := by
  cases seen <;> rfl

/-- **What a scoped stream leaves of a batch** are the deletions of rows its client has, and the
rows it counts as sent are then those its client will have. -/
theorem through_spec {b : Batch β} {copy : OrdMap β} (hn : (b.dels ++ b.puts.map (·.1)).Nodup)
    (hseen : ∀ l, seen = some l → ∀ id, id ∈ l ↔ ∃ v, copy.get id = some v) :
    (b.through seen).1.puts = b.puts ∧ (b.through seen).1.schema = b.schema ∧
      (b.through seen).1.dels.Sublist b.dels ∧
      (∀ id ∈ b.dels, id ∈ (b.through seen).1.dels ∨ copy.get id = none) ∧
      ∀ l, (b.through seen).2 = some l → ∀ id, id ∈ l ↔ ∃ v,
        (written copy (deleteLocal (b.through seen).1.dels ++ insertChunked b.puts)).get id =
          some v := by
  cases seen with
  | none => exact ⟨rfl, rfl, .refl _, fun id hid => .inl hid, fun l hl => by cases hl⟩
  | some l =>
    obtain ⟨hsub, hdels, hrest⟩ := left_spec b.dels l (List.nodup_append.mp hn).1
    have hseen := hseen l rfl
    refine ⟨rfl, rfl, hsub, fun id hid => ?_, ?_⟩
    · by_cases hin : id ∈ l
      · exact .inl ((hdels id hid).mpr hin)
      · refine .inr ?_
        rw [hseen, ← Option.isSome_iff_exists] at hin
        simpa using hin
    · have hthrough : (b.through (some l)).1.dels = (left b.dels l).1 := rfl
      rintro _ ⟨⟩ id
      rw [mem_foldl_sent, hrest, hseen]
      -- the rows of the batch, each once
      have hkeys : (deleteLocal (left b.dels l).1 ++ insertChunked b.puts :
          List (DocId × Option β)).map (·.1) = (left b.dels l).1 ++ b.puts.map (·.1) := by simp
      have hnodup : ((deleteLocal (left b.dels l).1 ++ insertChunked b.puts :
          List (DocId × Option β)).map (·.1)).Nodup := by
        rw [hkeys]
        exact hn.sublist (hsub.append_right _)
      by_cases hput : id ∈ b.puts.map (·.1)
      · obtain ⟨⟨k, v⟩, hkv, rfl⟩ := List.mem_map.mp hput
        refine iff_of_true (.inr hput) ⟨v, get_written_of_mem hnodup ?_⟩
        exact List.mem_append_right _ (mem_insertChunked hkv)
      · by_cases hdel : id ∈ (left b.dels l).1
        · have hgone : (written copy (deleteLocal (left b.dels l).1 ++
              insertChunked b.puts)).get id = none :=
            get_written_of_mem hnodup (List.mem_append_left _ (mem_deleteLocal hdel))
          have hin := hsub.subset hdel
          refine iff_of_false ?_ ?_
          · rintro (⟨-, hno⟩ | hin)
            · exact hno hin
            · exact hput hin
          · rintro ⟨v, hv⟩
            rw [hthrough, hgone] at hv
            cases hv
        · have hstays : (written copy (deleteLocal (left b.dels l).1 ++
              insertChunked b.puts)).get id = copy.get id := by
            refine get_written_of_notMem ?_
            rw [hkeys, List.mem_append, not_or]
            exact ⟨hdel, hput⟩
          rw [hthrough, hstays]
          refine ⟨fun h => (h.resolve_right hput).1, fun h => .inl ⟨h, fun hin => hdel ?_⟩⟩
          exact (hdels id hin).mpr ((hseen id).mpr h)

/-- **A batch told**: a client that took all before it has, with what the stream lets through of
it, the shape as it stands. -/
theorem tell_trail {b : Batch β} (hc : s.collections sh.name = some c)
    (hb : Tells s sh c n b) (hg : Good s sh cl) (h : Upto s sh (.at n) seen cl) :
    Trail s sh (.at b.seq) (b.through seen).2 cl
      (if (b.through seen).1.isEmpty then [] else [.change (b.through seen).1]) := by
  obtain ⟨hseeded, hle, hcur, hseen⟩ := h n rfl
  have hseq := through_seq b seen
  obtain ⟨hputs, hschema, hsub, hdels, hseen'⟩ := through_spec hb.nodup hseen
  obtain ⟨b', hb'⟩ : ∃ b', b' = (b.through seen).1 := ⟨_, rfl⟩
  rw [← hb'] at hseq hputs hschema hsub hdels hseen' ⊢
  -- the copy with what is let through of the batch
  have hagrees : b'.schema = false → ∀ id,
      (written cl.copy (deleteLocal b'.dels ++ insertChunked b.puts)).get id = sh.view c id :=
    fun hs => hb.agrees hcur hc (hschema ▸ hs) hsub hdels
  have hlast : b'.schema = false → Current s sh b.seq
      (written cl.copy (deleteLocal b'.dels ++ insertChunked b.puts)) := fun hs => by
    rw [hb.seq_eq]
    exact .of_agrees hc (hagrees hs)
  have hcursor : cl.cursor ≤ b.seq := by
    rw [hb.seq_eq]
    exact hle.trans hcur.1
  split
  · -- nothing is sent: the copy is the shape already
    rename_i hempty
    simp only [Batch.isEmpty, Bool.and_eq_true, List.isEmpty_iff, Bool.not_eq_true'] at hempty
    obtain ⟨⟨hnoputs, hnodels⟩, hnoschema⟩ := hempty
    have hlast := hlast hnoschema
    rw [hputs] at hnoputs
    rw [hnodels, hnoputs] at hlast hseen'
    rintro m ⟨⟩
    exact ⟨hseeded, hcursor, hlast, hseen'⟩
  · cases hs : b'.schema with
    | true =>
      -- the client is told to seed again, and its stream ends
      refine ⟨by simp [Client.cells, hs], ?_, ?_, ?_⟩ <;> simp only [Client.take, hseeded, hs]
      · exact fun _ => hg hseeded
      · exact fun _ => le_refl _
      · exact fun h => absurd h Bool.false_ne_true
    | false =>
      have hcells : cl.cells (.change b') = deleteLocal b'.dels ++ insertChunked b.puts := by
        simp [Client.cells, hseeded, hs, hputs]
      have hmax : max b'.seq cl.cursor = b.seq := by rw [hseq, max_eq_left hcursor]
      have htake : cl.take (.change b') true =
          ({ cl with copy := written cl.copy (deleteLocal b'.dels ++ insertChunked b.puts),
                     cursor := b.seq }, true) := by
        simp [Client.take, hseeded, hs, hcells, hmax]
      refine ⟨?_, ?_, ?_, ?_⟩
      · rw [hcells, List.map_append, map_deleteLocal, map_insertChunked]
        exact hb.nodup.sublist (hsub.append_right _)
      · rw [htake]
        exact fun _ => hlast hs
      · rw [htake]
        exact fun _ => hcursor
      · rw [htake]
        rintro - m ⟨⟩
        exact ⟨hseeded, le_refl _, hlast hs, hseen'⟩

/-- **A look keeps the trail.** -/
theorem look_trail {st st' : Stream β} (hl : Level s) (hg : Good s sh cl)
    (h : Trail s sh st.stand st.seen cl st.flight) (hlook : st.look s sh = some st') :
    Trail s sh st'.stand st'.seen cl st'.flight := by
  unfold Stream.look at hlook
  split at hlook
  · cases hlook
  · -- the collection is gone: the server says so and ends the stream
    cases hlook
    refine h.extend hg fun cl' hg' _ => ⟨by simp [Client.cells], hg', fun _ => le_refl _, ?_⟩
    exact fun hopen => absurd hopen Bool.false_ne_true
  · rename_i c hstand hc
    cases hlook
    exact h.extend hg fun cl' hg' _ => seed_trail hl hc hg'
  · rename_i n c hstand hc
    split at hlook
    · -- past the ring: seeded at the next turn
      cases hlook
      have hdue : Trail s sh .due st.seen cl (st.flight ++ []) :=
        h.extend hg fun cl' hg' _ m hm => by cases hm
      rwa [List.append_nil] at hdue
    · rename_i b hb
      cases hlook
      rw [hstand] at h
      have := h.extend hg fun cl' hg' hup => tell_trail hc (hl.changesSince hb) hg' hup
      unfold Stream.tell
      split at this
      · rename_i hempty
        simpa [hempty, through_seq] using this
      · rename_i hempty
        simpa [hempty, Stream.emit, through_seq] using this

end Trail

/-! ## 9. Every run -/

section Run

variable {ι α β : Type} {shapes : ι → Shape α β} {w w' : World ι α β}

/-- **The invariant**: the ring is level; every client and every kept session is good; and so is
every client with what is on its way. -/
structure Sound (shapes : ι → Shape α β) (w : World ι α β) : Prop where
  level : Level w.server
  client : ∀ i, Good w.server (shapes i) (w.clients i)
  saved : ∀ i, Good w.server (shapes i) (w.saved i)
  trail : ∀ i st, w.streams i = some st →
    Trail w.server (shapes i) st.stand st.seen (w.clients i) st.flight

theorem Sound.new (cap : UInt64) : Sound shapes (.new cap) where
  level := ⟨Whole.new cap, by simp [Server.count, World.new, Server.new]⟩
  client _ hs := absurd hs Bool.false_ne_true
  saved _ hs := absurd hs Bool.false_ne_true
  trail _ _ h := by cases h

/-- A server that moved and left every copy current. -/
theorem Sound.server (h : Sound shapes w) {s : Server α} (hl : Level s)
    (hmono : ∀ i n copy, Current w.server (shapes i) n copy → Current s (shapes i) n copy) :
    Sound shapes { w with server := s } where
  level := hl
  client i := (h.client i).mono (hmono i)
  saved i := (h.saved i).mono (hmono i)
  trail i st hst := (h.trail i st hst).mono (hmono i)

/-- What is at hand of a stream lost in the middle of an event leaves its client good. -/
theorem Sound.tornAt (h : Sound shapes w) (i : ι) (j : Nat) :
    Good w.server (shapes i) ((w.clients i).tornAt (w.flight i) j) := by
  unfold World.flight
  split
  · exact h.client i
  · rename_i st hst
    exact (h.trail i st hst).tornAt (h.client i) j

variable [DecidableEq ι]

/-- One client moved, and its stream. -/
theorem Sound.withClient (h : Sound shapes w) {i : ι} {cl : Client β} {st : Option (Stream β)}
    (hg : Good w.server (shapes i) cl) (ht : ∀ st', st = some st' →
      Trail w.server (shapes i) st'.stand st'.seen cl st'.flight) :
    Sound shapes (w.withClient i cl st) where
  level := h.level
  client k := by
    by_cases hk : k = i
    · subst hk
      simpa [World.withClient] using hg
    · simpa [World.withClient, hk] using h.client k
  saved := h.saved
  trail k st' hst := by
    by_cases hk : k = i
    · subst hk
      simp only [World.withClient, Function.update_self] at hst ⊢
      exact ht st' hst
    · simp only [World.withClient, Function.update_of_ne hk] at hst ⊢
      exact h.trail k st' hst

/-- What a delivery does. -/
theorem step_deliver {i : ι} {fits : Bool} (h : step shapes w (.deliver i fits) = some w') :
    ∃ st e rest, w.streams i = some st ∧ st.flight = e :: rest ∧
      w' = w.withClient i ((w.clients i).take e fits).1
        (if ((w.clients i).take e fits).2 = true then some { st with flight := rest }
          else none) := by
  obtain ⟨st, hst, h⟩ := Option.bind_eq_some_iff.mp h
  split at h
  · cases h
  · rename_i e rest hflight
    exact ⟨st, e, rest, hst, hflight, (Option.some.inj h).symm⟩

/-- **The step.** -/
theorem Sound.step (h : Sound shapes w) {a : Act ι α} (hroom : Room w a)
    (hstep : step shapes w a = some w') : Sound shapes w' := by
  cases a with
  | write wr =>
    obtain ⟨s', hs', rfl⟩ := Option.map_eq_some_iff.mp hstep
    obtain ⟨cid, id, hlands⟩ := write_lands hs'
    exact h.server (hlands.level h.level hroom) fun i n copy hcur =>
      hcur.write h.level hlands hroom
  | resize cap =>
    cases hstep
    exact h.server (h.level.resize cap) fun i n copy hcur => hcur
  | adopt img =>
    cases hstep
    exact h.server h.level.adopt fun i n copy hcur => hcur.adopt h.level hroom
  | connect i =>
    simp only [Copies.step] at hstep
    split at hstep
    · cases hstep
    · cases hstep
      refine h.withClient (h.client i) fun st hst => ?_
      cases hst
      exact opens_trail (h.client i)
  | look i =>
    obtain ⟨st, hst, hstep⟩ := Option.bind_eq_some_iff.mp hstep
    obtain ⟨st', hlook, rfl⟩ := Option.map_eq_some_iff.mp hstep
    refine h.withClient (h.client i) fun st'' hst'' => ?_
    cases hst''
    exact look_trail h.level (h.client i) (h.trail i st hst) hlook
  | deliver i fits =>
    obtain ⟨st, e, rest, hst, hflight, rfl⟩ := step_deliver hstep
    have htrail := h.trail i st hst
    rw [hflight] at htrail
    cases fits with
    | true =>
      refine h.withClient htrail.2.1 fun st' hst' => ?_
      split at hst'
      · rename_i hopen
        cases hst'
        exact htrail.2.2.2 hopen
      · cases hst'
    | false =>
      obtain ⟨hcopy, hcursor, hseeded, hsame⟩ := take_false (w.clients i) e
      refine h.withClient (fun hs => ?_) fun st' hst' => ?_
      · rw [hcopy, hcursor]
        exact h.client i (hseeded ▸ hs)
      · split at hst'
        · rename_i hopen
          cases hst'
          have hrest := htrail.2.2.2
          rw [(hsame hopen).2] at hrest
          rw [(hsame hopen).1]
          exact hrest rfl
        · cases hst'
  | lose i j =>
    cases hstep
    exact h.withClient (h.tornAt i j) fun st' hst' => by cases hst'
  | save i j =>
    cases hstep
    refine ⟨h.level, h.client, fun k => ?_, h.trail⟩
    by_cases hk : k = i
    · subst hk
      simpa using h.tornAt k j
    · simpa [hk] using h.saved k
  | restore i =>
    cases hstep
    exact h.withClient (h.saved i) fun st' hst' => by cases hst'

theorem Sound.run (h : Sound shapes w) {acts : List (Act ι α)}
    (hrun : Lib.run (Copies.step shapes) w acts = some w')
    (hroom : Lib.Along (Copies.step shapes) Room w acts) : Sound shapes w' :=
  Lib.run_keeps (fun _ _ _ hs hr hstep => hs.step hr hstep) h hrun hroom

/-- A stream that stands at the server's change with nothing on its way. -/
def UpToDate (w : World ι α β) (i : ι) : Prop :=
  match w.streams i with
  | none => False
  | some st => st.flight.isEmpty = true ∧ st.stand = .at w.server.changes.seq

instance (w : World ι α β) (i : ι) : Decidable (UpToDate w i) := by
  unfold UpToDate
  cases w.streams i <;> infer_instance

omit [DecidableEq ι] in
theorem Sound.agrees (h : Sound shapes w) {i : ι} (hq : UpToDate w i) {c : Collection α}
    (hc : w.server.collections (shapes i).name = some c) (id : DocId) :
    (w.clients i).copy.get id = (shapes i).view c id := by
  unfold UpToDate at hq
  split at hq
  · exact hq.elim
  · rename_i st hst
    have htrail := h.trail i st hst
    rw [List.isEmpty_iff.mp hq.1, hq.2, h.level.seq_eq] at htrail
    obtain ⟨-, -, hcur, -⟩ := htrail _ rfl
    exact hcur.agrees h.level hc id

end Run

section Torn

/-- A run with a ring of one mark: the client falls behind it and is seeded again, the page is
closed with one of the seed's rows written, and the session kept there is opened again. -/
def tornActs : List (Act Unit Nat) :=
  [.write (.create "notes"), .write (.put "notes" 1 10), .connect (), .look (), .deliver () true,
   .write (.put "notes" 2 20), .write (.del "notes" 1), .look (), .look (), .save () 1, .restore (),
   .write (.put "notes" 3 30), .connect (), .look (), .look (), .deliver () true]

/-- The whole of the collection. -/
def wholeShape : Unit → Shape Nat Nat := fun _ => ⟨"notes", fun _ a => some a, false⟩

/-- The room is needed: an image of the very change a client stands at moves no counter, and the
client keeps a row that is gone. -/
example : (Lib.run (step wholeShape) (.new 4) (tornActs.take 5 ++
    [.adopt ⟨fun n => if n = "notes" then some ⟨1, .empty⟩ else none, 2, 2⟩])).any (fun w =>
      decide (UpToDate w () ∧ (w.clients ()).copy.get 1 = some 10 ∧
        ((w.server.collections "notes").bind fun c => c.rows.get 1) = none)) = true := by
  decide +kernel

end Torn

/-! ## 10. A client that connects again -/

section Again

variable {ι α β : Type} [DecidableEq ι] {shapes : ι → Shape α β} {w w' : World ι α β} {i : ι}
  {c : Collection α}

/-- What a client does to catch up: its old stream goes, another opens, it looks and is told. -/
def Act.Catches (i : ι) (a : Act ι α) : Prop :=
  a = .lose i 0 ∨ a = .connect i ∨ a = .look i ∨ a = .deliver i true

/-- Steps of one client's that catch it up, and move nothing of the server's or of another's. -/
structure Caught (shapes : ι → Shape α β) (w : World ι α β) (i : ι) (acts : List (Act ι α))
    (w' : World ι α β) : Prop where
  catches : ∀ a ∈ acts, a.Catches i
  run : Lib.run (step shapes) w acts = some w'
  server : w'.server = w.server
  others : ∀ k, k ≠ i → w'.clients k = w.clients k

namespace Caught

theorem nil (w : World ι α β) : Caught shapes w i [] w :=
  ⟨by simp, rfl, rfl, fun _ _ => rfl⟩

variable {acts : List (Act ι α)}

/-- A step of the client's, and then others. -/
theorem cons {a : Act ι α} {cl : Client β} {st : Option (Stream β)}
    (ha : a.Catches i) (hstep : step shapes w a = some (w.withClient i cl st))
    (h : Caught shapes (w.withClient i cl st) i acts w') : Caught shapes w i (a :: acts) w' where
  catches b hb := by
    rcases List.mem_cons.mp hb with rfl | hb
    · exact ha
    · exact h.catches b hb
  run := Option.bind_eq_some_iff.mpr ⟨_, hstep, h.run⟩
  server := h.server
  others k hk := (h.others k hk).trans (Function.update_of_ne hk ..)

/-- Catching up writes nothing. -/
theorem along (h : Caught shapes w i acts w') : Lib.Along (step shapes) Room w acts := by
  have hcatches := h.catches
  clear h
  induction acts generalizing w with
  | nil => trivial
  | cons a acts ih =>
    refine ⟨?_, fun s' _ => ih fun b hb => hcatches b (List.mem_cons_of_mem _ hb)⟩
    rcases hcatches a List.mem_cons_self with rfl | rfl | rfl | rfl <;> trivial

end Caught

theorem withClient_streams (w : World ι α β) (cl : Client β) (st : Option (Stream β)) :
    (w.withClient i cl st).streams i = st := Function.update_self ..

theorem withClient_clients (w : World ι α β) (cl : Client β) (st : Option (Stream β)) :
    (w.withClient i cl st).clients i = cl := Function.update_self ..

/-- **A stream about to seed**: a look and a delivery. -/
theorem caught_of_due (hc : w.server.collections (shapes i).name = some c) {st : Stream β}
    (hst : w.streams i = some st) (hdue : st.stand = .due) (hempty : st.flight = []) :
    ∃ acts w', Caught shapes w i acts w' ∧ acts.length ≤ 2 ∧ UpToDate w' i := by
  have hlook : st.look w.server (shapes i) = some (st.seed w.server (shapes i) c) := by
    simp [Stream.look, hdue, hc]
  refine ⟨[.look i, .deliver i true], _, .cons (.inr (.inr (.inl rfl))) (by
    rw [step, hst, Option.bind_some, hlook]; rfl) (.cons (.inr (.inr (.inr rfl))) (by
    simp only [step, withClient_streams, Option.bind_some, Stream.seed, Stream.emit, hempty,
      List.nil_append]; rfl) (.nil _)), le_refl _, ?_⟩
  simp [UpToDate, World.withClient, Client.take]

/-- **A client with no stream that is to be seeded**: three steps. -/
theorem caught_of_fresh (hc : w.server.collections (shapes i).name = some c)
    (hst : w.streams i = none) (hdue : ((w.clients i).opens (shapes i)).stand = .due) :
    ∃ acts w', Caught shapes w i acts w' ∧ acts.length ≤ 3 ∧ UpToDate w' i := by
  obtain ⟨acts, w', hcaught, hlen, hup⟩ := caught_of_due
    (w := w.withClient i (w.clients i) (some ((w.clients i).opens (shapes i)))) hc
    (withClient_streams ..) hdue rfl
  refine ⟨.connect i :: acts, w', .cons (.inr (.inl rfl)) ?_ hcaught, ?_, hup⟩
  · simp [step, hst]
  · rw [List.length_cons]
    omega

/-- **A stream at a cursor**: it is told what changed, or told to seed. -/
theorem caught_of_at (hl : Level w.server)
    (hc : w.server.collections (shapes i).name = some c) {st : Stream β} {n : Nat}
    (hst : w.streams i = some st) (hat : st.stand = .at n) (hempty : st.flight = [])
    (hseeded : (w.clients i).seeded = true) :
    ∃ acts w', Caught shapes w i acts w' ∧ acts.length ≤ 5 ∧ UpToDate w' i := by
  have hcatch : (Act.look i : Act ι α).Catches i := .inr (.inr (.inl rfl))
  cases hb : w.server.changesSince c (shapes i) n with
  | none =>
    -- past the ring: the next turn seeds
    obtain ⟨acts, w', hcaught, hlen, hup⟩ := caught_of_due
      (w := w.withClient i (w.clients i) (some { st with stand := .due })) hc
      (withClient_streams ..) rfl hempty
    refine ⟨.look i :: acts, w', .cons hcatch ?_ hcaught, by simp; omega, hup⟩
    simp [step, hst, Stream.look, hat, hc, hb]
  | some b =>
    have hseq : (b.through st.seen).1.seq = w.server.changes.seq := by
      rw [through_seq, (hl.changesSince hb).seq_eq, hl.seq_eq]
    have hlook : step shapes w (.look i) =
        some (w.withClient i (w.clients i) (some (st.tell b))) := by
      simp [step, hst, Stream.look, hat, hc, hb]
    by_cases hsilent : (b.through st.seen).1.isEmpty = true
    · -- nothing to tell
      refine ⟨[.look i], _, .cons hcatch hlook (.nil _), by simp, ?_⟩
      simp [UpToDate, Stream.tell, hsilent, hempty, hseq, World.withClient]
    · have htell : (st.tell b).flight = [.change (b.through st.seen).1] := by
        simp [Stream.tell, hsilent, Stream.emit, hempty]
      have hdeliver : (Act.deliver i true : Act ι α).Catches i := .inr (.inr (.inr rfl))
      cases hschema : (b.through st.seen).1.schema with
      | true =>
        -- told that the schema changed, the client opens another stream and is seeded
        obtain ⟨acts, w', hcaught, hlen, hup⟩ := caught_of_fresh
          (w := (w.withClient i (w.clients i) (some (st.tell b))).withClient i
            { w.clients i with fresh := true } none) hc (withClient_streams ..)
          (by simp [withClient_clients, Client.opens])
        refine ⟨.look i :: .deliver i true :: acts, w', .cons hcatch hlook
          (.cons hdeliver ?_ hcaught), by simp; omega, hup⟩
        simp [step, withClient_streams, withClient_clients, htell, Client.take, hseeded, hschema]
      | false =>
        refine ⟨[.look i, .deliver i true], _, .cons hcatch hlook (.cons hdeliver (by
          simp only [step, withClient_streams, Option.bind_some, htell]; rfl) (.nil _)),
          by simp, ?_⟩
        simp [UpToDate, Client.take, hseeded, hschema, Stream.tell, hsilent, Stream.emit, hseq,
          World.withClient]

end Again

/-! ## 11. What a scoped stream tells of -/

section Scoped

variable {ι α β : Type} {shapes : ι → Shape α β} {w w' : World ι α β} {i : ι}

/-- The rows a client holds of an event's, as the stream tells it: a seed's, and with a change
those put and those not deleted. -/
def Event.shows (ids : List DocId) : Event β → List DocId
  | .seed _ rows => rows.map fun r => r.1
  | .change b => ids.filter (fun id => !b.dels.contains id) ++ b.puts.map fun r => r.1
  | .error => ids

/-- The rows told of by a stream's events and not taken back. -/
def shown (events : List (Event β)) : List DocId := events.foldl Event.shows []

/-- **No event tells of a row gone that the events before it did not tell of.** -/
def Discreet (events : List (Event β)) : Prop :=
  ∀ before b after, events = before ++ .change b :: after → ∀ id ∈ b.dels, id ∈ shown before

/-- A stream that is discreet, and counts as sent the rows it told of. -/
def Keeps (st : Stream β) : Prop :=
  Discreet st.sent ∧ ∀ l, st.seen = some l → ∀ id, id ∈ l ↔ id ∈ shown st.sent

theorem shown_append (events : List (Event β)) (e : Event β) :
    shown (events ++ [e]) = e.shows (shown events) := by
  rw [shown, List.foldl_append]
  rfl

/-- One event more, that takes back nothing not told of. -/
theorem Discreet.emit {events : List (Event β)} (h : Discreet events) {e : Event β}
    (he : ∀ b, e = .change b → ∀ id ∈ b.dels, id ∈ shown events) : Discreet (events ++ [e]) := by
  intro before b after hsplit id hid
  rcases List.eq_nil_or_concat after with rfl | ⟨rest, last, rfl⟩
  · obtain ⟨rfl, hlast⟩ := List.append_inj' hsplit rfl
    cases hlast
    exact he b rfl id hid
  · rw [List.concat_eq_append, ← List.cons_append, ← List.append_assoc] at hsplit
    obtain ⟨rfl, -⟩ := List.append_inj' hsplit rfl
    exact h before b rest rfl id hid

/-- **A look keeps a scoped stream discreet.** -/
theorem Keeps.look {s : Server α} {sh : Shape α β} {st st' : Stream β} (h : Keeps st)
    (hseen : st.seen.isSome = true) (hl : Level s) (hlook : st.look s sh = some st') :
    Keeps st' ∧ st'.seen.isSome = true := by
  obtain ⟨l, hl'⟩ := Option.isSome_iff_exists.mp hseen
  obtain ⟨hdiscreet, hcounts⟩ := h
  unfold Stream.look at hlook
  split at hlook
  · cases hlook
  · cases hlook
    refine ⟨⟨hdiscreet.emit (fun b hb => by cases hb), fun l' hl' => ?_⟩, hseen⟩
    simp only [Stream.emit, shown_append, Event.shows]
    exact hcounts l' hl'
  · cases hlook
    refine ⟨⟨hdiscreet.emit (fun b hb => by cases hb), fun l' hl'' id => ?_⟩, ?_⟩
    · obtain ⟨_, -, rfl⟩ := Option.map_eq_some_iff.mp hl''
      simp only [Stream.seed, Stream.emit, shown_append, Event.shows]
    · simpa [Stream.seed, Stream.emit] using hseen
  · rename_i n c hstand hc
    split at hlook
    · cases hlook
      exact ⟨⟨hdiscreet, hcounts⟩, hseen⟩
    · rename_i b hb
      cases hlook
      have hnodup := (List.nodup_append.mp (hl.changesSince hb).nodup).1
      obtain ⟨hsub, hdels, hrest⟩ := left_spec b.dels l hnodup
      have hin : ∀ id ∈ (left b.dels l).1, id ∈ shown st.sent := fun id hid =>
        (hcounts l hl' id).mp ((hdels id (hsub.subset hid)).mp hid)
      -- the rows it counts as sent, with what it now tells
      have hnow : ∀ id, id ∈ (b.puts.map fun r => r.1).foldl sent (left b.dels l).2 ↔
          id ∈ (Event.change { b with dels := (left b.dels l).1 }).shows (shown st.sent) := by
        intro id
        have hmem : id ∈ (left b.dels l).1 ↔ id ∈ b.dels ∧ id ∈ l :=
          ⟨fun h => ⟨hsub.subset h, (hdels id (hsub.subset h)).mp h⟩,
            fun h => (hdels id h.1).mpr h.2⟩
        simp only [mem_foldl_sent, hrest, Event.shows, List.mem_append, List.mem_filter,
          List.contains_eq_mem, Bool.not_eq_true', decide_eq_false_iff_not, hmem, hcounts l hl']
        tauto
      have hthrough : b.through st.seen = ({ b with dels := (left b.dels l).1 },
          some ((b.puts.map fun r => r.1).foldl sent (left b.dels l).2)) := by rw [hl']; rfl
      simp only [Stream.tell, hthrough]
      split
      · rename_i hempty
        simp only [Batch.isEmpty, Bool.and_eq_true, List.isEmpty_iff] at hempty
        obtain ⟨⟨hnoputs, hnodels⟩, -⟩ := hempty
        refine ⟨⟨hdiscreet, fun l' hl'' id => ?_⟩, rfl⟩
        cases hl''
        rw [hnow id]
        simp [Event.shows, hnodels, hnoputs]
      · refine ⟨⟨hdiscreet.emit fun b' hb' => ?_, fun l' hl'' id => ?_⟩, rfl⟩
        · cases hb'
          exact hin
        · cases hl''
          simp only [Stream.emit, shown_append]
          exact hnow id

variable [DecidableEq ι]

/-- Every stream of a scoped shape is discreet. -/
def AllKeep (shapes : ι → Shape α β) (w : World ι α β) : Prop :=
  ∀ i st, w.streams i = some st → (shapes i).isScoped = true → Keeps st ∧ st.seen.isSome = true

/-- One stream moved. -/
theorem AllKeep.withClient (h : AllKeep shapes w) {cl : Client β} {st : Option (Stream β)}
    (hst : ∀ st', st = some st' → (shapes i).isScoped = true →
      Keeps st' ∧ st'.seen.isSome = true) : AllKeep shapes (w.withClient i cl st) := by
  intro k st' hk
  by_cases he : k = i
  · subst he
    rw [withClient_streams] at hk
    exact hst st' hk
  · simp only [World.withClient, Function.update_of_ne he] at hk
    exact h k st' hk

/-- **The step.** -/
theorem AllKeep.step (h : AllKeep shapes w) (hsound : Sound shapes w) {a : Act ι α}
    (hstep : step shapes w a = some w') : AllKeep shapes w' := by
  cases a with
  | write wr =>
    obtain ⟨s', -, rfl⟩ := Option.map_eq_some_iff.mp hstep
    exact h
  | resize cap =>
    cases hstep
    exact h
  | adopt img =>
    cases hstep
    exact h
  | save i j =>
    cases hstep
    exact h
  | lose i j =>
    cases hstep
    exact h.withClient fun st' hst' => by cases hst'
  | restore i =>
    cases hstep
    exact h.withClient fun st' hst' => by cases hst'
  | connect i =>
    simp only [Copies.step] at hstep
    split at hstep
    · cases hstep
    · cases hstep
      refine h.withClient fun st' hst' hscoped => ?_
      cases hst'
      refine ⟨⟨fun before b after hsplit => ?_, fun l hl id => ?_⟩, ?_⟩
      · exact absurd hsplit.symm (by simp [Client.opens])
      · simp only [Client.opens, hscoped, if_true] at hl
        cases hl
        rfl
      · simp [Client.opens, hscoped]
  | look i =>
    obtain ⟨st, hst, hstep⟩ := Option.bind_eq_some_iff.mp hstep
    obtain ⟨st', hlook, rfl⟩ := Option.map_eq_some_iff.mp hstep
    refine h.withClient fun st'' hst'' hscoped => ?_
    cases hst''
    exact (h i st hst hscoped).1.look (h i st hst hscoped).2 hsound.level hlook
  | deliver i fits =>
    obtain ⟨st, e, rest, hst, hflight, rfl⟩ := step_deliver hstep
    refine h.withClient fun st' hst' hscoped => ?_
    split at hst'
    · cases hst'
      exact h i st hst hscoped
    · cases hst'

end Scoped

/-- What a token may read: the lower rows. -/
def ownShape : Unit → Shape Nat Nat := fun _ =>
  ⟨"notes", fun _ a => if a < 25 then some a else none, true⟩

end Copies

end Fenec
