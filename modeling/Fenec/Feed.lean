/-
# The replication feed

`replication.rs`'s `Feed`: the records a primary appends, kept in memory for the replicas it sends
them to.  A record holds the writes of a statement or a block, numbered one after another, and is
sent whole, once the disk holds it.  The records are kept in chunks, one buffer each with where
each record ends in it; the oldest chunk goes when the bytes are over the capacity.  A counter
that jumps, or a start over, empties the ring and moves its epoch.

`Log` is the same feed with nothing forgotten: the records of the epoch, one list.  `Kept` ties
the ring to it.  Chunk by chunk the ring holds the end of the log, the records lead from one to the
next (`Leads`), and the last leads to the counter.  The loops of `next` and `changes_after` over
chunks and offsets are then loops over that list, and what they hand out is a stretch of the log.

Numbers of writes are naturals here: a counter of one write each never reaches `2^64`.
-/
import Mathlib.Data.List.Basic

namespace Fenec

namespace Feed

/-! ## 1. The ring -/

/-- `Chunk`: consecutive records, the first write in them numbered `first`. -/
structure Chunk where
  first : Nat
  data : List UInt8
  ends : List Nat
  lasts : List Nat
  times : List Nat
  deriving DecidableEq, Repr

/-- `Ring`, less the lineage, which no function here reads. -/
structure Ring where
  chunks : List Chunk
  bytes : Nat
  cap : Nat
  chunk : Nat
  seq : Nat
  durable : Nat
  epoch : Nat
  closed : Bool
  deriving DecidableEq, Repr

/-- A record's bytes: its kind at least. -/
abbrev RecordBytes := { bytes : List UInt8 // bytes ≠ [] }

/-- `Next`. -/
inductive Next where
  | records (first last : Nat) (times : List Nat) (bytes : List UInt8)
  | nothing
  | behind
  | moved
  | gone
  deriving DecidableEq, Repr

/-- `Tail`. -/
inductive Tail where
  | records (first : Nat) (lasts times : List Nat) (bytes : List UInt8)
  | nothing
  | behind (oldest : Nat)
  | ahead (seq : Nat)
  | gone
  deriving DecidableEq, Repr

namespace Chunk

/-- A record's bytes, last write and time at the end of a chunk. -/
def add (c : Chunk) (now seq : Nat) (bytes : List UInt8) : Chunk :=
  { c with
    data := c.data ++ bytes
    ends := c.ends ++ [(c.data ++ bytes).length]
    lasts := c.lasts ++ [seq]
    times := c.times ++ [now] }

/-- Where record `k` starts in the chunk's bytes. -/
def start (c : Chunk) (k : Nat) : Nat := if k = 0 then 0 else c.ends.getD (k - 1) 0

/-- The bytes of record `k`. -/
def record (c : Chunk) (k : Nat) : List UInt8 :=
  (c.data.drop (c.start k)).take (c.ends.getD k 0 - c.start k)

/-- The first write of record `k`. -/
def opens (c : Chunk) (k : Nat) : Nat := if k = 0 then c.first else c.lasts.getD (k - 1) 0 + 1

/-- Whether write `first` is in the chunk. -/
def spans (c : Chunk) (first : Nat) : Bool :=
  decide (c.first ≤ first) && c.lasts.getLast?.any (first ≤ ·)

end Chunk

namespace Ring

/-- `CHUNK`. -/
def CHUNK : Nat := 1 <<< 20

/-- `Feed::new`. -/
def new (capacity : Nat) : Ring :=
  ⟨[], 0, max capacity 1, max (min CHUNK (capacity / 8)) 1, 0, 0, 0, false⟩

/-- `Feed::start`. -/
def start (r : Ring) (seq : Nat) : Ring :=
  { r with chunks := [], bytes := 0, seq, durable := seq, epoch := r.epoch + 1 }

/-- `Feed::close`. -/
def close (r : Ring) : Ring := { r with closed := true }

/-- `Feed::reopen`. -/
def reopen (r : Ring) : Ring := { r with closed := false }

/-- `Feed::mark_durable`. -/
def markDurable (r : Ring) (upto : Nat) : Ring :=
  let upto := min upto r.seq
  if r.durable < upto then { r with durable := upto } else r

/-- The ring once a record from `first` on is to enter: emptied where it does not lead there. -/
def jump (r : Ring) (first : Nat) : Ring :=
  if first ≠ r.seq + 1 then
    { r with
      chunks := []
      bytes := 0
      epoch := r.epoch + 1
      durable := min r.durable (first - 1) }
  else r

/-- The record at the end of the last chunk, or of a new one where it has no room. -/
def place (r : Ring) (now first seq : Nat) (bytes : List UInt8) : Ring :=
  let chunks := match r.chunks.getLast? with
    | some c =>
      if c.data.length + bytes.length ≤ r.chunk then r.chunks.dropLast ++ [c.add now seq bytes]
      else r.chunks ++ [Chunk.add ⟨first, [], [], [], []⟩ now seq bytes]
    | none => r.chunks ++ [Chunk.add ⟨first, [], [], [], []⟩ now seq bytes]
  { r with chunks, bytes := r.bytes + bytes.length, seq }

/-- The loop at the end of `push`: the bytes left and the chunks. -/
def evictOver (cap : Nat) : Nat → List Chunk → Nat × List Chunk
  | bytes, old :: c :: cs =>
    if bytes > cap then evictOver cap (bytes - old.data.length) (c :: cs)
    else (bytes, old :: c :: cs)
  | bytes, cs => (bytes, cs)

/-- The oldest chunks dropped while there is more than the capacity. -/
def evict (r : Ring) : Ring :=
  { r with bytes := (evictOver r.cap r.bytes r.chunks).1
           chunks := (evictOver r.cap r.bytes r.chunks).2 }

end Ring

section Push

variable (writesIn : List UInt8 → Option Nat)

/-- The first write of a record numbered `seq`, by how many writes it holds: `writes_in`, one where
it cannot be read or says none. -/
def firstOf (seq : Nat) (bytes : List UInt8) : Nat := seq + 1 - max ((writesIn bytes).getD 1) 1

/-- **`Feed::push`.** -/
def Ring.push (r : Ring) (now seq : Nat) (bytes : List UInt8) : Ring :=
  let first := firstOf writesIn seq bytes
  ((r.jump first).place now first seq bytes).evict

end Push

namespace Ring

/-- `Feed::serves`. -/
def serves (r : Ring) (cursor : Nat) : Bool :=
  decide (cursor = r.seq) ||
    decide (cursor < r.seq) && r.chunks.head?.any fun c => decide (c.first ≤ cursor + 1)

end Ring

/-- What `next` has gathered: the bytes, the records' times, and the last write in them. -/
structure Gathered where
  out : List UInt8
  times : List Nat
  last : Nat
  deriving DecidableEq, Repr

/-- The inner loop of `next`, over the records of a chunk from `k` on.  True where it came to the
chunk's end. -/
def Chunk.gather (durable max : Nat) (c : Chunk) : Nat → Nat → Gathered → Gathered × Bool
  | 0, _, g => (g, true)
  | fuel + 1, k, g =>
    if c.lasts.getD k 0 ≤ durable then
      if g.out ≠ [] ∧ g.out.length + (c.ends.getD k 0 - c.start k) > max then (g, false)
      else
        c.gather durable max fuel (k + 1)
          ⟨g.out ++ c.record k, g.times ++ [c.times.getD k 0], c.lasts.getD k 0⟩
    else (g, false)

/-- The outer loop of `next`: the first chunk from `k` on, the others whole. -/
def gather (durable max : Nat) : List Chunk → Nat → Gathered → Gathered
  | [], _, g => g
  | c :: cs, k, g =>
    match c.gather durable max (c.ends.length - k) k g with
    | (g, true) => gather durable max cs 0 g
    | (g, false) => g

/-- **`Feed::next`.** -/
def Ring.next (r : Ring) (cursor epoch max : Nat) : Next :=
  if r.closed then .gone
  else if r.epoch ≠ epoch then .moved
  else if cursor ≥ r.durable then .nothing
  else
    let first := cursor + 1
    match r.chunks.dropWhile fun c => !c.spans first with
    | [] => .behind
    | c :: cs =>
      let k0 := (c.lasts.takeWhile fun l => decide (l < first)).length
      if c.opens k0 ≠ first then .behind
      else
        let g := gather r.durable max (c :: cs) k0 ⟨[], [], cursor⟩
        if g.out = [] then .nothing else .records first g.last g.times g.out

/-- What `changes_after` has gathered. -/
structure Tailed where
  from_ : Nat
  lasts : List Nat
  times : List Nat
  bytes : List UInt8
  deriving DecidableEq, Repr

/-- The inner loop of `changes_after`.  True where it came to the chunk's end. -/
def Chunk.trail (first durable max : Nat) (c : Chunk) : Nat → Nat → Tailed → Tailed × Bool
  | 0, _, t => (t, true)
  | fuel + 1, k, t =>
    if c.lasts.getD k 0 < first then c.trail first durable max fuel (k + 1) t
    else if c.lasts.getD k 0 > durable ∨ t.bytes ≠ [] ∧ t.bytes.length ≥ max then (t, false)
    else
      c.trail first durable max fuel (k + 1)
        ⟨if t.bytes = [] then c.opens k else t.from_, t.lasts ++ [c.lasts.getD k 0],
          t.times ++ [c.times.getD k 0], t.bytes ++ c.record k⟩

/-- The outer loop of `changes_after`. -/
def trail (first durable max : Nat) : List Chunk → Tailed → Tailed
  | [], t => t
  | c :: cs, t =>
    match c.trail first durable max c.ends.length 0 t with
    | (t, true) => trail first durable max cs t
    | (t, false) => t

/-- **`Feed::changes_after`.** -/
def Ring.changesAfter (r : Ring) (cursor max : Nat) : Tail :=
  if r.closed then .gone
  else if cursor > r.seq then .ahead r.seq
  else if cursor ≥ r.durable then .nothing
  else
    let first := cursor + 1
    let oldest := (r.chunks.head?.map (·.first)).getD (r.seq + 1)
    if first < oldest then .behind oldest
    else
      let t := trail first r.durable max r.chunks ⟨0, [], [], []⟩
      if t.bytes = [] then .nothing else .records t.from_ t.lasts t.times t.bytes

/-! ## 2. What was pushed -/

/-- A record: the writes it holds, when it came, and its bytes. -/
structure Rec where
  first : Nat
  last : Nat
  time : Nat
  bytes : List UInt8
  deriving DecidableEq, Repr

/-- What is done to a feed. -/
inductive Op where
  | push (now seq : Nat) (bytes : RecordBytes)
  | markDurable (upto : Nat)
  | start (seq : Nat)
  | close
  | reopen

/-- **The feed with nothing forgotten**: the records of the epoch, and what is durable of them. -/
structure Log where
  records : List Rec
  seq : Nat
  durable : Nat
  epoch : Nat
  deriving DecidableEq, Repr

section Apply

variable (writesIn : List UInt8 → Option Nat)

/-- The ring after one operation. -/
def Ring.apply (r : Ring) : Op → Ring
  | .push now seq bytes => r.push writesIn now seq bytes
  | .markDurable upto => r.markDurable upto
  | .start seq => r.start seq
  | .close => r.close
  | .reopen => r.reopen

/-- The log after one operation.  A record that does not follow the one before begins an epoch. -/
def Log.apply (g : Log) : Op → Log
  | .push now seq bytes =>
    let first := firstOf writesIn seq bytes
    if first = g.seq + 1 then
      { g with records := g.records ++ [⟨first, seq, now, bytes⟩], seq }
    else ⟨[⟨first, seq, now, bytes⟩], seq, min g.durable (first - 1), g.epoch + 1⟩
  | .markDurable upto => { g with durable := max g.durable (min upto g.seq) }
  | .start seq => ⟨[], seq, seq, g.epoch + 1⟩
  | .close => g
  | .reopen => g

/-- The ring a list of operations leads to. -/
def ringOf (capacity : Nat) (ops : List Op) : Ring := ops.foldl (Ring.apply writesIn) (.new capacity)

/-- What a list of operations pushed. -/
def logOf (ops : List Op) : Log := ops.foldl (Log.apply writesIn) ⟨[], 0, 0, 0⟩

end Apply

/-- **Records that lead from one to the next**: the first begins at write `n`, each where the one
before it ended, and the write after the last is `m`. -/
def Leads : Nat → List Rec → Nat → Prop
  | n, [], m => n = m
  | n, x :: xs, m => x.first = n ∧ x.first ≤ x.last ∧ Leads (x.last + 1) xs m

namespace Leads

variable {n m : Nat} {x : Rec} {xs ys : List Rec}

theorem append_iff : Leads n (xs ++ ys) m ↔ ∃ k, Leads n xs k ∧ Leads k ys m := by
  induction xs generalizing n with
  | nil => simp [Leads]
  | cons x xs ih =>
    simp only [List.cons_append, Leads, ih]
    grind

theorem le (h : Leads n xs m) : n ≤ m := by
  induction xs generalizing n with
  | nil => exact Nat.le_of_eq h
  | cons x xs ih =>
    have := ih h.2.2
    have := h.2.1
    have := h.1
    omega

/-- The writes of a record lie between the ends. -/
theorem bounds (h : Leads n xs m) (hx : x ∈ xs) : n ≤ x.first ∧ x.first ≤ x.last ∧ x.last < m := by
  obtain ⟨ys, zs, rfl⟩ := List.append_of_mem hx
  obtain ⟨k, hy, hz⟩ := append_iff.mp h
  have hn := hy.le
  have hm := hz.2.2.le
  obtain ⟨hk, hle, -⟩ := hz
  omega

/-- **A write between the ends is in a record**: those before it end before it. -/
theorem locate {w : Nat} (h : Leads n xs m) (hn : n ≤ w) (hm : w < m) :
    ∃ pre x post, xs = pre ++ x :: post ∧ (∀ y ∈ pre, y.last < w) ∧ x.first ≤ w ∧ w ≤ x.last := by
  induction xs generalizing n with
  | nil =>
    have : n = m := h
    omega
  | cons y ys ih =>
    obtain ⟨hy, hle, hys⟩ := h
    rcases Nat.lt_or_ge y.last w with hlt | hge
    · obtain ⟨pre, x, post, rfl, hpre, hx⟩ := ih hys (by omega)
      refine ⟨y :: pre, x, post, rfl, ?_, hx⟩
      intro z hz
      rcases List.mem_cons.mp hz with rfl | hz
      · exact hlt
      · exact hpre z hz
    · exact ⟨[], y, ys, rfl, by simp, by omega, hge⟩

end Leads

/-! ## 3. Chunks and the records in them -/

/-- The bytes of records one after another. -/
def bytesOf (rs : List Rec) : List UInt8 := rs.flatMap (·.bytes)

theorem bytesOf_append (rs rs' : List Rec) : bytesOf (rs ++ rs') = bytesOf rs ++ bytesOf rs' :=
  List.flatMap_append

theorem bytesOf_cons (x : Rec) (rs : List Rec) : bytesOf (x :: rs) = x.bytes ++ bytesOf rs :=
  List.flatMap_cons

/-- **A chunk holds these records**: their bytes, where each ends, its last write and its time. -/
structure Chunk.Holds (c : Chunk) (rs : List Rec) : Prop where
  some_ : rs ≠ []
  first_eq : ∀ x ∈ rs.head?, c.first = x.first
  data_eq : c.data = bytesOf rs
  ends_length : c.ends.length = rs.length
  ends_eq : ∀ k < rs.length, c.ends.getD k 0 = (bytesOf (rs.take (k + 1))).length
  lasts_eq : c.lasts = rs.map (·.last)
  times_eq : c.times = rs.map (·.time)

namespace Chunk.Holds

variable {c : Chunk} {rs : List Rec} {k : Nat}

theorem start_eq (h : c.Holds rs) (hk : k < rs.length) :
    c.start k = (bytesOf (rs.take k)).length := by
  unfold Chunk.start
  rcases Nat.eq_zero_or_pos k with rfl | hpos
  · simp [bytesOf]
  · rw [if_neg (by omega), h.ends_eq (k - 1) (by omega)]
    congr 3
    omega

theorem size_eq (h : c.Holds rs) (hk : k < rs.length) :
    c.ends.getD k 0 - c.start k = rs[k].bytes.length := by
  rw [h.start_eq hk, h.ends_eq k hk, List.take_succ_eq_append_getElem hk, bytesOf_append,
    List.length_append, Nat.add_sub_cancel_left]
  simp [bytesOf]

theorem record_eq (h : c.Holds rs) (hk : k < rs.length) : c.record k = rs[k].bytes := by
  have hsplit : bytesOf rs = bytesOf (rs.take k) ++ (rs[k].bytes ++ bytesOf (rs.drop (k + 1))) := by
    conv_lhs => rw [← List.take_append_drop k rs, List.drop_eq_getElem_cons hk]
    rw [bytesOf_append, bytesOf_cons]
  rw [Chunk.record, h.size_eq hk, h.start_eq hk, h.data_eq, hsplit, List.drop_left, List.take_left]

theorem last_eq (h : c.Holds rs) (hk : k < rs.length) : c.lasts.getD k 0 = rs[k].last := by
  simp [h.lasts_eq, hk]

theorem time_eq (h : c.Holds rs) (hk : k < rs.length) : c.times.getD k 0 = rs[k].time := by
  simp [h.times_eq, hk]

/-- Record `k` opens where the one before it ended. -/
theorem opens_eq {n m : Nat} (h : c.Holds rs) (hl : Leads n rs m) (hk : k < rs.length) :
    c.opens k = rs[k].first := by
  unfold Chunk.opens
  rcases Nat.eq_zero_or_pos k with rfl | hpos
  · have : rs.head? = some rs[0] := by rw [List.head?_eq_getElem?, List.getElem?_eq_getElem hk]
    simpa using h.first_eq _ this
  · obtain ⟨j, rfl⟩ : ∃ j, k = j + 1 := ⟨k - 1, by omega⟩
    rw [if_neg (by omega), Nat.add_sub_cancel, h.last_eq (by omega)]
    rw [← List.take_append_drop j rs, List.drop_eq_getElem_cons (by omega),
      List.drop_eq_getElem_cons hk] at hl
    obtain ⟨_, _, htail⟩ := Leads.append_iff.mp hl
    exact htail.2.2.1.symm

/-- A record added is held after those before it. -/
theorem add (h : c.Holds rs) (x : Rec) : (c.add x.time x.last x.bytes).Holds (rs ++ [x]) := by
  refine ⟨by simp, ?_, ?_, ?_, ?_, ?_, ?_⟩
  · intro y hy
    rw [List.head?_append_of_ne_nil _ h.some_] at hy
    exact h.first_eq y hy
  · simp [Chunk.add, h.data_eq, bytesOf]
  · simp [Chunk.add, h.ends_length]
  · intro k hk
    simp only [List.length_append, List.length_singleton] at hk
    rcases Nat.lt_or_ge k rs.length with hlt | hge
    · have hends := h.ends_eq k hlt
      rw [List.take_append_of_le_length (by omega), ← hends, Chunk.add]
      simp [List.getElem?_append_left, h.ends_length, hlt]
    · have hk : k = rs.length := by omega
      subst hk
      rw [List.take_of_length_le (by simp), bytesOf_append, ← h.data_eq]
      simp [Chunk.add, ← h.ends_length, bytesOf]
  · simp [Chunk.add, h.lasts_eq]
  · simp [Chunk.add, h.times_eq]

/-- A chunk that begins with a record holds it. -/
theorem single (x : Rec) :
    (Chunk.add ⟨x.first, [], [], [], []⟩ x.time x.last x.bytes).Holds [x] := by
  refine ⟨by simp, by simp [Chunk.add], by simp [Chunk.add, bytesOf], by simp [Chunk.add], ?_,
    by simp [Chunk.add], by simp [Chunk.add]⟩
  intro k hk
  have hk : k = 0 := by simpa using hk
  subst hk
  simp [Chunk.add, bytesOf]

end Chunk.Holds

/-- **The chunks hold these records**, in this order. -/
def Filed (chunks : List Chunk) (rs : List Rec) : Prop :=
  ∃ files : List (Chunk × List Rec), (∀ f ∈ files, f.1.Holds f.2) ∧
    files.map (·.1) = chunks ∧ files.flatMap (·.2) = rs

namespace Filed

variable {r : Ring} {chunks : List Chunk} {rs : List Rec}

theorem nil : Filed [] [] := ⟨[], by simp, rfl, rfl⟩

theorem single {c : Chunk} (h : c.Holds rs) : Filed [c] rs :=
  ⟨[(c, rs)], by simpa using h, rfl, by simp⟩

theorem append {chunks' : List Chunk} {rs' : List Rec} :
    Filed chunks rs → Filed chunks' rs' → Filed (chunks ++ chunks') (rs ++ rs')
  | ⟨fs, h, hc, hr⟩, ⟨fs', h', hc', hr'⟩ =>
    ⟨fs ++ fs', fun f hf => (List.mem_append.mp hf).elim (h f) (h' f), by simp [hc, hc'],
      by simp [hr, hr']⟩

/-- Chunks in two parts hold records in two parts. -/
theorem of_append {chunks' : List Chunk} (h : Filed (chunks ++ chunks') rs) :
    ∃ rs₁ rs₂, rs = rs₁ ++ rs₂ ∧ Filed chunks rs₁ ∧ Filed chunks' rs₂ := by
  obtain ⟨files, hall, hmap, rfl⟩ := h
  obtain ⟨fs, fs', rfl, rfl, rfl⟩ := List.map_eq_append_iff.mp hmap
  exact ⟨fs.flatMap (·.2), fs'.flatMap (·.2), by simp,
    ⟨fs, fun f hf => hall f (List.mem_append_left _ hf), rfl, rfl⟩,
    ⟨fs', fun f hf => hall f (List.mem_append_right _ hf), rfl, rfl⟩⟩

theorem holds {c : Chunk} (h : Filed [c] rs) : c.Holds rs := by
  obtain ⟨files, hall, hmap, rfl⟩ := h
  obtain ⟨f, rfl, rfl⟩ := List.map_eq_singleton_iff.mp hmap
  simpa using hall f (by simp)

/-- The first chunk, and the records the others hold. -/
theorem of_cons {c : Chunk} (h : Filed (c :: chunks) rs) :
    ∃ rs₁ rs₂, rs = rs₁ ++ rs₂ ∧ c.Holds rs₁ ∧ Filed chunks rs₂ := by
  obtain ⟨rs₁, rs₂, he, hc, hrest⟩ := (show Filed ([c] ++ chunks) rs from h).of_append
  exact ⟨rs₁, rs₂, he, hc.holds, hrest⟩

/-- A record placed is held last. -/
theorem place (h : Filed r.chunks rs) (x : Rec) :
    Filed (r.place x.time x.first x.last x.bytes).chunks (rs ++ [x]) := by
  have hnew := h.append (single (Chunk.Holds.single x))
  unfold Ring.place
  dsimp only
  split
  · rename_i c hc
    split
    · -- there is room in the last chunk
      obtain ⟨cs, hcs⟩ := List.getLast?_eq_some_iff.mp hc
      rw [hcs] at h ⊢
      obtain ⟨rs₁, rs₂, rfl, hfront, hlast⟩ := h.of_append
      rw [List.dropLast_concat, List.append_assoc]
      exact hfront.append (single (hlast.holds.add x))
    · exact hnew
  · exact hnew

/-- Evictions take whole chunks from the front. -/
theorem evictOver (h : Filed chunks rs) (cap bytes : Nat) :
    ∃ dropped kept, rs = dropped ++ kept ∧ Filed (Ring.evictOver cap bytes chunks).2 kept := by
  fun_induction Ring.evictOver cap bytes chunks generalizing rs with
  | case1 bytes old c cs hover ih =>
    obtain ⟨rs₁, rs₂, rfl, -, hrest⟩ := h.of_cons
    obtain ⟨dropped, kept, rfl, hk⟩ := ih hrest
    exact ⟨rs₁ ++ dropped, kept, by simp, hk⟩
  | case2 bytes old c cs hover => exact ⟨[], rs, rfl, h⟩
  | case3 bytes cs hcs => exact ⟨[], rs, rfl, h⟩

end Filed

/-! ## 4. The ring holds the end of the log -/

/-- The records in a chunk. -/
def Chunk.records (c : Chunk) : List Rec :=
  (List.range c.ends.length).map fun k =>
    ⟨c.opens k, c.lasts.getD k 0, c.times.getD k 0, c.record k⟩

/-- **The records a ring holds.** -/
def Ring.held (r : Ring) : List Rec := r.chunks.flatMap Chunk.records

theorem Chunk.Holds.records_eq {c : Chunk} {rs : List Rec} {n m : Nat} (h : c.Holds rs)
    (hl : Leads n rs m) : c.records = rs := by
  refine List.ext_getElem (by simp [Chunk.records, h.ends_length]) fun k _ hk => ?_
  simp only [Chunk.records, List.getElem_map, List.getElem_range]
  rw [h.opens_eq hl hk, h.last_eq hk, h.time_eq hk, h.record_eq hk]

theorem Filed.records_eq {chunks : List Chunk} {rs : List Rec} {n m : Nat} (h : Filed chunks rs)
    (hl : Leads n rs m) : chunks.flatMap Chunk.records = rs := by
  induction chunks generalizing rs n with
  | nil =>
    obtain ⟨files, -, hmap, rfl⟩ := h
    rw [List.map_eq_nil_iff.mp hmap]
    rfl
  | cons c cs ih =>
    obtain ⟨rs₁, rs₂, rfl, hc, hcs⟩ := h.of_cons
    obtain ⟨k, hl₁, hl₂⟩ := Leads.append_iff.mp hl
    rw [List.flatMap_cons, hc.records_eq hl₁, ih hcs hl₂]

/-- **What ties the ring to the log.** -/
structure Kept (r : Ring) (g : Log) : Prop where
  seq_eq : r.seq = g.seq
  durable_eq : r.durable = g.durable
  epoch_eq : r.epoch = g.epoch
  durable_le : g.durable ≤ g.seq
  bytes_ne : ∀ x ∈ g.records, x.bytes ≠ []
  leads : ∃ n, Leads n g.records (g.seq + 1)
  ends : ∃ dropped kept, g.records = dropped ++ kept ∧ Filed r.chunks kept

namespace Kept

variable {r : Ring} {g : Log}

/-- The records held: the end of the log, leading from the oldest write held to the counter. -/
theorem held (h : Kept r g) : ∃ dropped n, g.records = dropped ++ r.held ∧ Filed r.chunks r.held ∧
    Leads n r.held (r.seq + 1) := by
  obtain ⟨dropped, kept, hrec, hfiled⟩ := h.ends
  obtain ⟨n, hl⟩ := h.leads
  rw [hrec] at hl
  obtain ⟨k, -, hl⟩ := Leads.append_iff.mp hl
  have hheld : r.held = kept := hfiled.records_eq hl
  refine ⟨dropped, k, ?_, ?_, ?_⟩
  · rw [hrec, hheld]
  · rwa [hheld]
  · rwa [hheld, h.seq_eq]

theorem new (capacity : Nat) : Kept (.new capacity) ⟨[], 0, 0, 0⟩ :=
  ⟨rfl, rfl, rfl, Nat.le_refl _, by simp, ⟨1, rfl⟩, ⟨[], [], rfl, .nil⟩⟩

theorem start (h : Kept r g) (seq : Nat) : Kept (r.start seq) ⟨[], seq, seq, g.epoch + 1⟩ :=
  ⟨rfl, rfl, congrArg (· + 1) h.epoch_eq, Nat.le_refl _, by simp, ⟨seq + 1, rfl⟩, ⟨[], [], rfl, .nil⟩⟩

theorem markDurable (h : Kept r g) (upto : Nat) :
    Kept (r.markDurable upto) { g with durable := max g.durable (min upto g.seq) } := by
  have hle := h.durable_le
  have hs := h.seq_eq
  have hd := h.durable_eq
  unfold Ring.markDurable
  dsimp only
  split
  · refine ⟨hs, ?_, h.epoch_eq, ?_, h.bytes_ne, h.leads, h.ends⟩
    · show min upto r.seq = max g.durable (min upto g.seq)
      omega
    · show max g.durable (min upto g.seq) ≤ g.seq
      omega
  · refine ⟨hs, ?_, h.epoch_eq, ?_, h.bytes_ne, h.leads, h.ends⟩
    · show r.durable = max g.durable (min upto g.seq)
      omega
    · show max g.durable (min upto g.seq) ≤ g.seq
      omega

/-- A record that enters: it is the log's last, and the ring holds it. -/
theorem enter (h : Kept r g) (x : Rec) (hx : x.bytes ≠ []) (hle : x.first ≤ x.last)
    (hnext : g.records = [] ∨ x.first = g.seq + 1) (hd : g.durable ≤ x.last) :
    Kept (r.place x.time x.first x.last x.bytes).evict
      { g with records := g.records ++ [x], seq := x.last } := by
  obtain ⟨dropped, kept, hrec, hfiled⟩ := h.ends
  obtain ⟨out, kept', hkept, hev⟩ :=
    (hfiled.place x).evictOver r.cap (r.bytes + x.bytes.length)
  refine ⟨rfl, h.durable_eq, h.epoch_eq, hd, ?_, ?_, ?_⟩
  · intro y hy
    rcases List.mem_append.mp hy with hy | hy
    · exact h.bytes_ne y hy
    · rw [List.mem_singleton.mp hy]
      exact hx
  · have hlast : Leads x.first [x] (x.last + 1) := ⟨rfl, hle, rfl⟩
    rcases hnext with hnil | hnext
    · exact ⟨x.first, by simpa [hnil] using hlast⟩
    · obtain ⟨n, hl⟩ := h.leads
      exact ⟨n, Leads.append_iff.mpr ⟨_, hl, hnext ▸ hlast⟩⟩
  · exact ⟨dropped ++ out, kept', by simp [hrec, List.append_assoc, hkept], hev⟩

theorem push (writesIn : List UInt8 → Option Nat) (h : Kept r g) (now seq : Nat)
    (bytes : RecordBytes) :
    Kept (r.push writesIn now seq bytes) (g.apply writesIn (.push now seq bytes)) := by
  have hfirst : firstOf writesIn seq bytes ≤ seq := by
    unfold firstOf
    omega
  have hs := h.seq_eq
  have hdle := h.durable_le
  rw [Ring.push, Log.apply, Ring.jump]
  by_cases heq : firstOf writesIn seq bytes = g.seq + 1
  · rw [if_neg (by omega), if_pos heq]
    refine h.enter ⟨firstOf writesIn seq bytes, seq, now, bytes⟩ bytes.2 hfirst (.inr heq) ?_
    show g.durable ≤ seq
    omega
  · rw [if_pos (by omega), if_neg heq]
    -- the ring is emptied, and so is the log: the record is the epoch's first
    have hempty : Kept
        { r with chunks := [], bytes := 0, epoch := r.epoch + 1,
                 durable := min r.durable (firstOf writesIn seq bytes - 1) }
        ⟨[], g.seq, min g.durable (firstOf writesIn seq bytes - 1), g.epoch + 1⟩ := by
      refine ⟨hs, ?_, ?_, ?_, by simp, ⟨_, rfl⟩, ⟨[], [], rfl, .nil⟩⟩
      · simp [h.durable_eq]
      · simp [h.epoch_eq]
      · show min g.durable _ ≤ g.seq
        omega
    refine hempty.enter ⟨firstOf writesIn seq bytes, seq, now, bytes⟩ bytes.2 hfirst (.inl rfl) ?_
    show min g.durable _ ≤ seq
    omega

/-- **The step**: what each operation does to the ring, it does to the log. -/
theorem apply (writesIn : List UInt8 → Option Nat) (h : Kept r g) :
    ∀ op, Kept (r.apply writesIn op) (g.apply writesIn op)
  | .push now seq bytes => h.push writesIn now seq bytes
  | .markDurable upto => h.markDurable upto
  | .start seq => h.start seq
  | .close => ⟨h.1, h.2, h.3, h.4, h.5, h.6, h.7⟩
  | .reopen => ⟨h.1, h.2, h.3, h.4, h.5, h.6, h.7⟩

/-- **The run.** -/
theorem run (writesIn : List UInt8 → Option Nat) (h : Kept r g) (ops : List Op) :
    Kept (ops.foldl (Ring.apply writesIn) r) (ops.foldl (Log.apply writesIn) g) := by
  induction ops generalizing r g with
  | nil => exact h
  | cons op ops ih => exact ih (h.apply writesIn op)

end Kept

/-! ## 5. The loops over chunks are loops over records -/

/-- The loop of `next` over records. -/
def sendFrom (durable max : Nat) : List Rec → Gathered → Gathered
  | [], g => g
  | x :: xs, g =>
    if x.last ≤ durable then
      if g.out ≠ [] ∧ g.out.length + x.bytes.length > max then g
      else sendFrom durable max xs ⟨g.out ++ x.bytes, g.times ++ [x.time], x.last⟩
    else g

/-- The loop of `changes_after` over records. -/
def trailFrom (first durable max : Nat) : List Rec → Tailed → Tailed
  | [], t => t
  | x :: xs, t =>
    if x.last < first then trailFrom first durable max xs t
    else if x.last > durable ∨ t.bytes ≠ [] ∧ t.bytes.length ≥ max then t
    else
      trailFrom first durable max xs
        ⟨if t.bytes = [] then x.first else t.from_, t.lasts ++ [x.last], t.times ++ [x.time],
          t.bytes ++ x.bytes⟩

/-- A chunk's loop is the loop over its records, and goes on to those behind it only from its
end. -/
theorem Chunk.Holds.gather_eq {c : Chunk} {rs : List Rec} (h : c.Holds rs) (rest : List Rec)
    (durable max : Nat) : ∀ (fuel k : Nat) (g : Gathered), fuel + k = rs.length →
      sendFrom durable max (rs.drop k ++ rest) g =
        if (c.gather durable max fuel k g).2 then
          sendFrom durable max rest (c.gather durable max fuel k g).1
        else (c.gather durable max fuel k g).1
  | 0, k, g, hk => by
    rw [List.drop_of_length_le (by omega)]
    rfl
  | fuel + 1, k, g, hk => by
    have hlt : k < rs.length := by omega
    rw [List.drop_eq_getElem_cons hlt, List.cons_append, sendFrom, Chunk.gather, h.last_eq hlt,
      h.size_eq hlt, h.record_eq hlt, h.time_eq hlt]
    by_cases hd : rs[k].last ≤ durable
    · rw [if_pos hd, if_pos hd]
      by_cases hm : g.out ≠ [] ∧ g.out.length + rs[k].bytes.length > max
      · rw [if_pos hm, if_pos hm]
        rfl
      · rw [if_neg hm, if_neg hm]
        exact gather_eq h rest durable max fuel (k + 1) _ (by omega)
    · rw [if_neg hd, if_neg hd]
      rfl

/-- **The loops of `next` over chunks.** -/
theorem Filed.gather_eq : ∀ {chunks : List Chunk} {rs : List Rec}, Filed chunks rs →
    ∀ (durable max k : Nat) (g : Gathered), (∀ c ∈ chunks.head?, k ≤ c.ends.length) →
      gather durable max chunks k g = sendFrom durable max (rs.drop k) g
  | [], rs, h, durable, max, k, g, _ => by
    obtain ⟨files, -, hmap, rfl⟩ := h
    rw [List.map_eq_nil_iff.mp hmap]
    simp [gather, sendFrom]
  | c :: cs, rs, h, durable, max, k, g, hk => by
    obtain ⟨rs₁, rs₂, rfl, hc, hcs⟩ := h.of_cons
    have hk : k ≤ rs₁.length := hc.ends_length ▸ hk c rfl
    have hloop := hc.gather_eq rs₂ durable max (c.ends.length - k) k g
      (by rw [hc.ends_length]; omega)
    rw [List.drop_append_of_le_length hk, hloop, gather]
    split
    · rename_i g' he
      rw [he, if_pos rfl, hcs.gather_eq durable max 0 g' (by simp)]
      rfl
    · rename_i g' he
      rw [he, if_neg (by simp)]

/-- The same for `changes_after`'s loop. -/
theorem Chunk.Holds.trail_eq {c : Chunk} {rs : List Rec} {n m : Nat} (h : c.Holds rs)
    (hl : Leads n rs m) (rest : List Rec) (first durable max : Nat) :
    ∀ (fuel k : Nat) (t : Tailed), fuel + k = rs.length →
      trailFrom first durable max (rs.drop k ++ rest) t =
        if (c.trail first durable max fuel k t).2 then
          trailFrom first durable max rest (c.trail first durable max fuel k t).1
        else (c.trail first durable max fuel k t).1
  | 0, k, t, hk => by
    rw [List.drop_of_length_le (by omega)]
    rfl
  | fuel + 1, k, t, hk => by
    have hlt : k < rs.length := by omega
    rw [List.drop_eq_getElem_cons hlt, List.cons_append, trailFrom, Chunk.trail, h.last_eq hlt,
      h.record_eq hlt, h.time_eq hlt, h.opens_eq hl hlt]
    by_cases hb : rs[k].last < first
    · rw [if_pos hb, if_pos hb]
      exact trail_eq h hl rest first durable max fuel (k + 1) _ (by omega)
    · rw [if_neg hb, if_neg hb]
      by_cases hd : rs[k].last > durable ∨ t.bytes ≠ [] ∧ t.bytes.length ≥ max
      · rw [if_pos hd, if_pos hd]
        rfl
      · rw [if_neg hd, if_neg hd]
        exact trail_eq h hl rest first durable max fuel (k + 1) _ (by omega)

/-- **The loops of `changes_after` over chunks.** -/
theorem Filed.trail_eq {first durable max m : Nat} : ∀ {chunks : List Chunk} {rs : List Rec}
    {n : Nat} (t : Tailed), Filed chunks rs → Leads n rs m →
      trail first durable max chunks t = trailFrom first durable max rs t
  | [], rs, n, t, h, _ => by
    obtain ⟨files, -, hmap, rfl⟩ := h
    rw [List.map_eq_nil_iff.mp hmap]
    simp [trail, trailFrom]
  | c :: cs, rs, n, t, h, hl => by
    obtain ⟨rs₁, rs₂, rfl, hc, hcs⟩ := h.of_cons
    obtain ⟨k, hl₁, hl₂⟩ := Leads.append_iff.mp hl
    have hloop := hc.trail_eq hl₁ rs₂ first durable max c.ends.length 0 t
      (by rw [hc.ends_length]; rfl)
    rw [List.drop_zero] at hloop
    rw [hloop, trail]
    split
    · rename_i t' he
      rw [he, if_pos rfl, trail_eq t' hcs hl₂]
    · rename_i t' he
      rw [he, if_neg (by simp)]

/-! ## 6. What is handed out is a stretch of the log -/

/-- **The records `next` takes**: as far as they are durable, and to the size asked for, one at
least. -/
theorem sendFrom_eq (durable max : Nat) : ∀ (rs : List Rec) (g : Gathered),
    ∃ taken rest, rs = taken ++ rest ∧ (∀ x ∈ taken, x.last ≤ durable) ∧
      (∀ x ∈ rest.head?, x.last ≤ durable →
        g.out ++ bytesOf taken ≠ [] ∧ (g.out ++ bytesOf taken).length + x.bytes.length > max) ∧
      sendFrom durable max rs g =
        ⟨g.out ++ bytesOf taken, g.times ++ taken.map (·.time),
          (taken.getLast?.map (·.last)).getD g.last⟩
  | [], g => ⟨[], [], rfl, by simp, by simp, by simp [sendFrom, bytesOf]⟩
  | x :: xs, g => by
    rw [sendFrom]
    split
    · rename_i hd
      split
      · rename_i hm
        exact ⟨[], x :: xs, rfl, by simp, by simpa [bytesOf] using fun _ => hm,
          by simp [bytesOf]⟩
      · obtain ⟨taken, rest, rfl, hdur, hrest, he⟩ := sendFrom_eq durable max xs
          ⟨g.out ++ x.bytes, g.times ++ [x.time], x.last⟩
        refine ⟨x :: taken, rest, rfl, ?_, ?_, ?_⟩
        · simpa [hd] using hdur
        · simpa [bytesOf_cons, List.append_assoc] using hrest
        · rw [he]
          simp [bytesOf_cons, List.append_assoc, List.getLast?_cons]
    · rename_i hd
      exact ⟨[], x :: xs, rfl, by simp, by simpa using fun h => absurd h hd, by simp [bytesOf]⟩

/-- Records whose last write is before `first` are passed over. -/
theorem trailFrom_skip {first durable max : Nat} {pre rs : List Rec} {t : Tailed}
    (h : ∀ y ∈ pre, y.last < first) :
    trailFrom first durable max (pre ++ rs) t = trailFrom first durable max rs t := by
  induction pre with
  | nil => rfl
  | cons y pre ih =>
    rw [List.cons_append, trailFrom, if_pos (h y (by simp))]
    exact ih fun z hz => h z (List.mem_cons_of_mem _ hz)

/-- **The records `changes_after` takes.** -/
theorem trailFrom_eq (first durable max : Nat) : ∀ (rs : List Rec) (t : Tailed),
    (∀ x ∈ rs, first ≤ x.last ∧ x.bytes ≠ []) →
    ∃ taken rest, rs = taken ++ rest ∧ (∀ x ∈ taken, x.last ≤ durable) ∧
      (∀ x ∈ rest.head?, x.last ≤ durable →
        t.bytes ++ bytesOf taken ≠ [] ∧ (t.bytes ++ bytesOf taken).length ≥ max) ∧
      trailFrom first durable max rs t =
        ⟨if t.bytes = [] then (taken.head?.map (·.first)).getD t.from_ else t.from_,
          t.lasts ++ taken.map (·.last), t.times ++ taken.map (·.time), t.bytes ++ bytesOf taken⟩
  | [], t, _ => ⟨[], [], rfl, by simp, by simp, by simp [trailFrom, bytesOf]⟩
  | x :: xs, t, h => by
    have hx := h x (by simp)
    rw [trailFrom, if_neg (by omega)]
    split
    · rename_i hstop
      refine ⟨[], x :: xs, rfl, by simp, ?_, by simp [bytesOf]⟩
      intro y hy hd
      obtain rfl : x = y := by simpa using hy
      simpa [bytesOf] using hstop.resolve_left (by omega)
    · rename_i hgo
      obtain ⟨taken, rest, rfl, hdur, hrest, he⟩ := trailFrom_eq first durable max xs
        ⟨if t.bytes = [] then x.first else t.from_, t.lasts ++ [x.last], t.times ++ [x.time],
          t.bytes ++ x.bytes⟩ (fun y hy => h y (List.mem_cons_of_mem _ hy))
      refine ⟨x :: taken, rest, rfl, ?_, ?_, ?_⟩
      · have hd : x.last ≤ durable := by omega
        simpa [hd] using hdur
      · simpa [bytesOf_cons, List.append_assoc] using hrest
      · rw [he]
        simp [bytesOf_cons, List.append_assoc, hx.2]

/-! ## 7. Finding the record a cursor asks for -/

/-- The record holds write `w`. -/
def Rec.Has (x : Rec) (w : Nat) : Prop := x.first ≤ w ∧ w ≤ x.last

/-- The cursor lies inside the record: some of its writes are behind it, some ahead. -/
def Rec.Cut (x : Rec) (cursor : Nat) : Prop := x.first ≤ cursor ∧ cursor < x.last

/-- One record holds a write. -/
theorem Leads.unique {n m w : Nat} {xs : List Rec} {x y : Rec} (h : Leads n xs m) (hx : x ∈ xs)
    (hy : y ∈ xs) (hxw : x.Has w) (hyw : y.Has w) : x = y := by
  induction xs generalizing n with
  | nil => cases hx
  | cons z zs ih =>
    obtain ⟨hz, hle, hzs⟩ := h
    obtain ⟨hx₁, hx₂⟩ := hxw
    obtain ⟨hy₁, hy₂⟩ := hyw
    rcases List.mem_cons.mp hx with rfl | hx' <;> rcases List.mem_cons.mp hy with rfl | hy'
    · rfl
    · have := (hzs.bounds hy').1
      omega
    · have := (hzs.bounds hx').1
      omega
    · exact ih hzs hx' hy'

/-- A chunk's records lead from its first write on: it spans what lies between their ends. -/
theorem Chunk.Holds.spans_iff {c : Chunk} {rs : List Rec} {n m w : Nat} (h : c.Holds rs)
    (hl : Leads n rs m) : c.spans w = true ↔ n ≤ w ∧ w < m := by
  have hne := h.some_
  have hfirst : c.first = n := by
    obtain ⟨x, xs, rfl⟩ := List.exists_cons_of_ne_nil hne
    rw [h.first_eq x rfl, hl.1]
  have hlast : ∃ l, c.lasts.getLast? = some l ∧ l + 1 = m := by
    obtain ⟨xs, x, rfl⟩ := List.eq_nil_or_concat rs |>.resolve_left hne
    rw [List.concat_eq_append] at hl h
    obtain ⟨k, -, hk⟩ := Leads.append_iff.mp hl
    exact ⟨x.last, by simp [h.lasts_eq], hk.2.2⟩
  obtain ⟨l, hl, hm⟩ := hlast
  simp only [Chunk.spans, hl, Option.any_some, Bool.and_eq_true, decide_eq_true_eq, hfirst]
  omega

/-- Before the oldest write there is no chunk. -/
theorem Filed.find_none {chunks : List Chunk} {rs : List Rec} {n m w : Nat} (h : Filed chunks rs)
    (hl : Leads n rs m) (hw : w < n) : (chunks.dropWhile fun c => !c.spans w) = [] := by
  induction chunks generalizing rs n with
  | nil => rfl
  | cons c cs ih =>
    obtain ⟨rs₁, rs₂, rfl, hc, hcs⟩ := h.of_cons
    obtain ⟨k, hl₁, hl₂⟩ := Leads.append_iff.mp hl
    have hno : c.spans w = false := by
      rw [Bool.eq_false_iff, ne_eq, hc.spans_iff hl₁]
      omega
    rw [List.dropWhile_cons_of_pos (by simp [hno])]
    exact ih hcs hl₂ (Nat.lt_of_lt_of_le hw hl₁.le)

/-- **The chunk a write is in**: the records before those of it end before the write. -/
theorem Filed.find {chunks : List Chunk} {rs : List Rec} {n m w : Nat} (h : Filed chunks rs)
    (hl : Leads n rs m) (hn : n ≤ w) (hm : w < m) :
    ∃ c cs rs₁ rs₂ rs₃ a b, (chunks.dropWhile fun c => !c.spans w) = c :: cs ∧
      rs = rs₁ ++ (rs₂ ++ rs₃) ∧ c.Holds rs₂ ∧ Filed (c :: cs) (rs₂ ++ rs₃) ∧
      Leads a rs₂ b ∧ a ≤ w ∧ w < b := by
  induction chunks generalizing rs n with
  | nil =>
    obtain ⟨files, -, hmap, rfl⟩ := h
    rw [List.map_eq_nil_iff.mp hmap] at hl
    have : n = m := hl
    omega
  | cons c cs ih =>
    obtain ⟨rs₁, rs₂, rfl, hc, hcs⟩ := h.of_cons
    obtain ⟨k, hl₁, hl₂⟩ := Leads.append_iff.mp hl
    rcases Nat.lt_or_ge w k with hlt | hge
    · have hyes : c.spans w = true := (hc.spans_iff hl₁).mpr ⟨hn, hlt⟩
      exact ⟨c, cs, [], rs₁, rs₂, n, k, List.dropWhile_cons_of_neg (by simp [hyes]), rfl, hc, h,
        hl₁, hn, hlt⟩
    · have hno : c.spans w = false := by
        rw [Bool.eq_false_iff, ne_eq, hc.spans_iff hl₁]
        omega
      obtain ⟨c', cs', rs₁', rs₂', rs₃', a, b, hdrop, rfl, hrest⟩ := ih hcs hl₂ hge
      refine ⟨c', cs', rs₁ ++ rs₁', rs₂', rs₃', a, b, ?_, by simp, hrest⟩
      rw [List.dropWhile_cons_of_pos (by simp [hno])]
      exact hdrop

/-- The oldest write held is the one the records lead from. -/
theorem Filed.oldest_eq {chunks : List Chunk} {rs : List Rec} {n m : Nat} (h : Filed chunks rs)
    (hl : Leads n rs m) : (chunks.head?.map (·.first)).getD m = n := by
  cases chunks with
  | nil =>
    obtain ⟨files, -, hmap, rfl⟩ := h
    rw [List.map_eq_nil_iff.mp hmap] at hl
    exact hl.symm
  | cons c cs =>
    obtain ⟨rs₁, rs₂, rfl, hc, -⟩ := h.of_cons
    obtain ⟨x, xs, rfl⟩ := List.exists_cons_of_ne_nil hc.some_
    exact (hc.first_eq x rfl).trans hl.1

/-- The records of a chunk before the one a write is in are those the binary search counts. -/
theorem Chunk.Holds.partition_eq {c : Chunk} {pre post : List Rec} {x : Rec} {w : Nat}
    (h : c.Holds (pre ++ x :: post)) (hpre : ∀ y ∈ pre, y.last < w) (hx : w ≤ x.last) :
    (c.lasts.takeWhile fun l => decide (l < w)).length = pre.length := by
  have hmap : ∀ l ∈ pre.map (·.last), decide (l < w) = true := by simpa using hpre
  rw [h.lasts_eq, List.map_append, List.map_cons, List.takeWhile_append_of_pos hmap,
    List.takeWhile_cons_of_neg (by simpa using hx)]
  simp

/-- A stretch of the log, from record `x` on: as far as it is durable and not `full`. -/
def Stretch (g : Log) (x : Rec) (full : List Rec → Rec → Prop) (taken : List Rec) : Prop :=
  ∃ pre rest, g.records = pre ++ (taken ++ rest) ∧ (taken ++ rest).head? = some x ∧
    (∀ y ∈ taken, y.last ≤ g.durable) ∧
    ∀ y ∈ rest.head?, y.last ≤ g.durable → taken ≠ [] ∧ full taken y

/-- What `next` answers with these records. -/
def Next.of (first : Nat) (taken : List Rec) : Next :=
  match taken.getLast? with
  | none => .nothing
  | some x => .records first x.last (taken.map (·.time)) (bytesOf taken)

/-- What `changes_after` answers with these records. -/
def Tail.of (taken : List Rec) : Tail :=
  match taken.head? with
  | none => .nothing
  | some x => .records x.first (taken.map (·.last)) (taken.map (·.time)) (bytesOf taken)

/-- Records have bytes: none are those without any. -/
theorem bytesOf_eq_nil {rs : List Rec} (h : ∀ x ∈ rs, x.bytes ≠ []) : bytesOf rs = [] ↔ rs = [] := by
  cases rs with
  | nil => simp [bytesOf]
  | cons x xs => simp [bytesOf_cons, h x (by simp)]

theorem Next.of_eq {first last : Nat} {taken : List Rec} (h : ∀ x ∈ taken, x.bytes ≠ []) :
    (if bytesOf taken = [] then .nothing
      else .records first ((taken.getLast?.map (·.last)).getD last) (taken.map (·.time))
        (bytesOf taken)) = Next.of first taken := by
  rw [if_congr (bytesOf_eq_nil h) rfl rfl, Next.of]
  cases hlast : taken.getLast? with
  | none => rw [if_pos (List.getLast?_eq_none_iff.mp hlast)]
  | some x =>
    rw [if_neg (by rintro rfl; cases hlast)]
    rfl

theorem Tail.of_eq {from_ : Nat} {taken : List Rec} (h : ∀ x ∈ taken, x.bytes ≠ []) :
    (if bytesOf taken = [] then .nothing
      else .records ((taken.head?.map (·.first)).getD from_) (taken.map (·.last))
        (taken.map (·.time)) (bytesOf taken)) = Tail.of taken := by
  rw [if_congr (bytesOf_eq_nil h) rfl rfl, Tail.of]
  cases hhead : taken.head? with
  | none => rw [if_pos (List.head?_eq_none_iff.mp hhead)]
  | some x =>
    rw [if_neg (by rintro rfl; cases hhead)]
    rfl

namespace Kept

variable {r : Ring} {g : Log} {c : Nat} (max : Nat)

/-- **What `next` does before the durable end**: the write after the cursor is older than all that
is held, or a record holds it, and is sent from where it is its first. -/
theorem next_eq (h : Kept r g) (hopen : r.closed = false) (hc : c < g.durable) :
    ((∀ x ∈ r.held, c + 1 < x.first) ∧ r.next c g.epoch max = .behind) ∨
    ∃ pre x post, r.held = pre ++ x :: post ∧ x.Has (c + 1) ∧
      ((x.first ≠ c + 1 ∧ r.next c g.epoch max = .behind) ∨
        x.first = c + 1 ∧ ∃ taken rest, x :: post = taken ++ rest ∧
          (∀ y ∈ taken, y.last ≤ g.durable) ∧
          (∀ y ∈ rest.head?, y.last ≤ g.durable →
            taken ≠ [] ∧ (bytesOf taken).length + y.bytes.length > max) ∧
          r.next c g.epoch max = .of (c + 1) taken) := by
  obtain ⟨dropped, n, hrec, hfiled, hl⟩ := h.held
  have hbytes : ∀ y ∈ r.held, y.bytes ≠ [] := fun y hy => h.bytes_ne y (by simp [hrec, hy])
  have hdle := h.durable_le
  have hseq := h.seq_eq
  have hd := h.durable_eq
  have he := h.epoch_eq
  rw [Ring.next, if_neg (by simp [hopen]), if_neg (by simp [he]), if_neg (by omega)]
  dsimp only
  rcases Nat.lt_or_ge (c + 1) n with hlt | hge
  · refine .inl ⟨fun x hx => ?_, ?_⟩
    · have := (hl.bounds hx).1
      omega
    · rw [hfiled.find_none hl hlt]
  · obtain ⟨k, cs, rs₁, rs₂, rs₃, a, b, hfind, hheld, hk, hrest, hl₂, ha, hb⟩ :=
      hfiled.find hl hge (by omega)
    obtain ⟨pre, x, post, rfl, hpre, hx⟩ := hl₂.locate ha hb
    have hk0 := hk.partition_eq hpre hx.2
    have hopens : k.opens pre.length = x.first := by
      rw [hk.opens_eq hl₂ (by simp)]
      simp
    refine .inr ⟨rs₁ ++ pre, x, post ++ rs₃, by rw [hheld]; simp, hx, ?_⟩
    rw [hfind]
    dsimp only
    rw [hk0, hopens]
    by_cases hstart : x.first = c + 1
    · rw [if_neg (by simpa using hstart)]
      refine .inr ⟨hstart, ?_⟩
      have hgather := hrest.gather_eq r.durable max pre.length ⟨[], [], c⟩
        (by simp [hk.ends_length])
      rw [hgather, List.append_assoc, List.drop_left, List.cons_append, hd]
      obtain ⟨taken, rest, hsplit, hdur, hstop, hsend⟩ :=
        sendFrom_eq g.durable max (x :: (post ++ rs₃)) ⟨[], [], c⟩
      have htaken : ∀ y ∈ taken, y.bytes ≠ [] := by
        intro y hy
        refine hbytes y ?_
        rw [hheld, List.append_assoc, List.cons_append, hsplit]
        simp [hy]
      have hnil := bytesOf_eq_nil htaken
      simp only [List.nil_append] at hstop hsend
      refine ⟨taken, rest, hsplit, hdur, fun y hy hle => ?_, ?_⟩
      · obtain ⟨hne, hover⟩ := hstop y hy hle
        exact ⟨fun h => hne (hnil.mpr h), hover⟩
      · rw [hsend]
        exact Next.of_eq htaken
    · rw [if_pos hstart]
      exact .inl ⟨hstart, rfl⟩

/-- **What `changes_after` does before the durable end.** -/
theorem changesAfter_eq (h : Kept r g) (hopen : r.closed = false) (hc : c < g.durable) :
    ((∀ x ∈ r.held, c + 1 < x.first) ∧ ∃ oldest, r.changesAfter c max = .behind oldest) ∨
    ∃ pre x post, r.held = pre ++ x :: post ∧ x.Has (c + 1) ∧
      ∃ taken rest, x :: post = taken ++ rest ∧ (∀ y ∈ taken, y.last ≤ g.durable) ∧
        (∀ y ∈ rest.head?, y.last ≤ g.durable → taken ≠ [] ∧ (bytesOf taken).length ≥ max) ∧
        r.changesAfter c max = .of taken := by
  obtain ⟨dropped, n, hrec, hfiled, hl⟩ := h.held
  have hbytes : ∀ y ∈ r.held, y.bytes ≠ [] := fun y hy => h.bytes_ne y (by simp [hrec, hy])
  have hdle := h.durable_le
  have hseq := h.seq_eq
  have hd := h.durable_eq
  have holdest : (r.chunks.head?.map (·.first)).getD (r.seq + 1) = n := hfiled.oldest_eq hl
  rw [Ring.changesAfter, if_neg (by simp [hopen]), if_neg (by omega), if_neg (by omega)]
  dsimp only
  rw [holdest]
  rcases Nat.lt_or_ge (c + 1) n with hlt | hge
  · refine .inl ⟨fun x hx => ?_, n, if_pos hlt⟩
    have := (hl.bounds hx).1
    omega
  · obtain ⟨pre, x, post, hheld, hpre, hx⟩ := hl.locate hge (by omega)
    refine .inr ⟨pre, x, post, hheld, hx, ?_⟩
    rw [if_neg (by omega), hfiled.trail_eq _ hl, hheld, trailFrom_skip hpre, hd]
    have hlater : ∀ y ∈ x :: post, c + 1 ≤ y.last ∧ y.bytes ≠ [] := by
      rw [hheld] at hl hbytes
      obtain ⟨k, -, hk⟩ := Leads.append_iff.mp hl
      intro y hy
      refine ⟨?_, hbytes y (List.mem_append_right _ hy)⟩
      rcases List.mem_cons.mp hy with rfl | hy
      · exact hx.2
      · have := hk.2.2.bounds hy
        have := hx.2
        omega
    obtain ⟨taken, rest, hsplit, hdur, hstop, htrail⟩ :=
      trailFrom_eq (c + 1) g.durable max (x :: post) ⟨0, [], [], []⟩ hlater
    have htaken : ∀ y ∈ taken, y.bytes ≠ [] := fun y hy =>
      (hlater y (by rw [hsplit]; simp [hy])).2
    have hnil := bytesOf_eq_nil htaken
    simp only [List.nil_append, if_true] at hstop htrail
    refine ⟨taken, rest, hsplit, hdur, fun y hy hle => ?_, ?_⟩
    · obtain ⟨hne, hover⟩ := hstop y hy hle
      exact ⟨fun h => hne (hnil.mpr h), hover⟩
    · rw [htrail]
      exact Tail.of_eq htaken

end Kept

namespace Kept

variable {r : Ring} {g : Log} {c : Nat} (max : Nat)

/-- At the durable end there is nothing to send. -/
theorem next_nothing (h : Kept r g) (hopen : r.closed = false) (hc : g.durable ≤ c) :
    r.next c g.epoch max = .nothing := by
  rw [Ring.next, if_neg (by simp [hopen]), if_neg (by simp [h.epoch_eq]),
    if_pos (by rw [h.durable_eq]; exact hc)]

/-- **When a replica is behind.** -/
theorem next_behind_iff (h : Kept r g) (hopen : r.closed = false) (hc : c < g.durable) :
    r.next c g.epoch max = .behind ↔ (∀ x ∈ r.held, ¬ x.Has (c + 1)) ∨ ∃ x ∈ r.held, x.Cut c := by
  obtain ⟨-, n, -, -, hl⟩ := h.held
  rcases h.next_eq max hopen hc with ⟨hold, hb⟩ | ⟨pre, x, post, hheld, hx, hcase⟩
  · refine iff_of_true hb (.inl fun x hx hhas => ?_)
    have := hold x hx
    have := hhas.1
    omega
  · have hmem : x ∈ r.held := by simp [hheld]
    rcases hcase with ⟨hne, hb⟩ | ⟨hfirst, taken, rest, -, -, -, hsent⟩
    · refine iff_of_true hb (.inr ⟨x, hmem, ?_, hx.2⟩)
      have := hx.1
      omega
    · refine iff_of_false ?_ ?_
      · rw [hsent, Next.of]
        split <;> simp
      · rintro (hnone | ⟨y, hy, hy₁, hy₂⟩)
        · exact hnone x hmem hx
        · have hsame := hl.unique hmem hy hx ⟨by omega, hy₂⟩
          subst hsame
          omega

/-- The stretch of the log taken from a record held. -/
theorem stretch (h : Kept r g) {pre post taken rest : List Rec} {x : Rec}
    {full : List Rec → Rec → Prop} (hheld : r.held = pre ++ x :: post)
    (hsplit : x :: post = taken ++ rest) (hdur : ∀ y ∈ taken, y.last ≤ g.durable)
    (hstop : ∀ y ∈ rest.head?, y.last ≤ g.durable → taken ≠ [] ∧ full taken y) :
    Stretch g x full taken := by
  obtain ⟨dropped, -, hrec, -⟩ := h.held
  refine ⟨dropped ++ pre, rest, ?_, ?_, hdur, hstop⟩
  · rw [hrec, hheld, hsplit, List.append_assoc]
  · rw [← hsplit]
    rfl

/-- **What a replica is sent.** -/
theorem next_served (h : Kept r g) (hopen : r.closed = false) (hc : c < g.durable) {x : Rec}
    (hx : x ∈ r.held) (hfirst : x.first = c + 1) :
    ∃ taken, Stretch g x (fun t y => (bytesOf t).length + y.bytes.length > max) taken ∧
      r.next c g.epoch max = .of (c + 1) taken := by
  obtain ⟨-, n, -, -, hl⟩ := h.held
  have hhas : x.Has (c + 1) := ⟨Nat.le_of_eq hfirst, hfirst ▸ (hl.bounds hx).2.1⟩
  rcases h.next_eq max hopen hc with ⟨hold, -⟩ | ⟨pre, y, post, hheld, hy, hcase⟩
  · have := hold x hx
    omega
  · obtain rfl : x = y := hl.unique hx (by simp [hheld]) hhas hy
    rcases hcase with ⟨hne, -⟩ | ⟨-, taken, rest, hsplit, hdur, hstop, hsent⟩
    · exact absurd hfirst hne
    · exact ⟨taken, h.stretch hheld hsplit hdur hstop, hsent⟩

/-- **When the change stream is behind.** -/
theorem changesAfter_behind_iff (h : Kept r g) (hopen : r.closed = false) (hc : c < g.durable) :
    (∃ oldest, r.changesAfter c max = .behind oldest) ↔ ∀ x ∈ r.held, ¬ x.Has (c + 1) := by
  rcases h.changesAfter_eq max hopen hc with
    ⟨hold, hb⟩ | ⟨pre, x, post, hheld, hx, taken, rest, -, -, -, hsent⟩
  · refine iff_of_true hb fun x hx hhas => ?_
    have := hold x hx
    have := hhas.1
    omega
  · refine iff_of_false ?_ fun hnone => hnone x (by simp [hheld]) hx
    rw [hsent, Tail.of]
    split <;> simp

/-- **What the change stream is sent.** -/
theorem changesAfter_served (h : Kept r g) (hopen : r.closed = false) (hc : c < g.durable)
    {x : Rec} (hx : x ∈ r.held) (hhas : x.Has (c + 1)) :
    ∃ taken, Stretch g x (fun t _ => (bytesOf t).length ≥ max) taken ∧
      r.changesAfter c max = .of taken := by
  obtain ⟨-, n, -, -, hl⟩ := h.held
  rcases h.changesAfter_eq max hopen hc with
    ⟨hold, -⟩ | ⟨pre, y, post, hheld, hy, taken, rest, hsplit, hdur, hstop, hsent⟩
  · have := hold x hx
    have := hhas.1
    omega
  · obtain rfl : x = y := hl.unique hx (by simp [hheld]) hhas hy
    exact ⟨taken, h.stretch hheld hsplit hdur hstop, hsent⟩

end Kept

/-! ## 8. Standing where the feed leads on from -/

section Serves

variable (writesIn : List UInt8 → Option Nat)

/-- The operation drops a chunk from the ring for its size. -/
def Ring.Evicts (r : Ring) : Op → Prop
  | .push now seq bytes =>
    let first := firstOf writesIn seq bytes
    let placed := (r.jump first).place now first seq bytes
    placed.evict.chunks ≠ placed.chunks
  | _ => False

/-- No operation of the list drops a chunk. -/
def Ring.Keeps : Ring → List Op → Prop
  | _, [] => True
  | r, op :: ops => ¬ r.Evicts writesIn op ∧ Ring.Keeps (r.apply writesIn op) ops

/-- A cursor the feed leads on from, as of epoch `e`: the epoch is over, or the cursor is at the
last write, or a record held begins right after it. -/
def Standing (r : Ring) (c e : Nat) : Prop :=
  e < r.epoch ∨ r.epoch = e ∧ (c = r.seq ∨ c < r.seq ∧ ∃ x ∈ r.held, x.first = c + 1)

variable {writesIn} {r : Ring} {g : Log} {c e max : Nat}

/-- What `serves` says of a cursor that lies inside no record. -/
theorem Kept.standing (h : Kept r g) (hs : r.serves c = true) (hcut : ∀ x ∈ r.held, ¬ x.Cut c) :
    Standing r c r.epoch := by
  obtain ⟨dropped, n, hrec, hfiled, hl⟩ := h.held
  refine .inr ⟨rfl, ?_⟩
  simp only [Ring.serves, Bool.or_eq_true, Bool.and_eq_true, decide_eq_true_eq] at hs
  rcases hs with hs | ⟨hlt, hfront⟩
  · exact .inl hs
  · refine .inr ⟨hlt, ?_⟩
    have hn := hfiled.oldest_eq hl
    have hnle : n ≤ c + 1 := by
      cases hhead : r.chunks.head? with
      | none => simp [hhead] at hfront
      | some k =>
        rw [hhead] at hn hfront
        exact hn ▸ of_decide_eq_true hfront
    obtain ⟨pre, x, post, hheld, -, hx⟩ := hl.locate hnle (by omega)
    have hmem : x ∈ r.held := by simp [hheld]
    refine ⟨x, hmem, ?_⟩
    by_contra hne
    exact hcut x hmem ⟨by have := hx.1; omega, hx.2⟩

/-- A record pushed with nothing dropped for it is held after those before it. -/
theorem Kept.push_held (h : Kept r g) {now seq : Nat} {bytes : RecordBytes}
    (hnext : firstOf writesIn seq bytes = r.seq + 1)
    (hev : ¬ r.Evicts writesIn (.push now seq bytes)) :
    (r.push writesIn now seq bytes).held =
      r.held ++ [⟨firstOf writesIn seq bytes, seq, now, bytes⟩] := by
  have hjump : r.jump (firstOf writesIn seq bytes) = r := by
    rw [Ring.jump, if_neg (by simpa using hnext)]
  obtain ⟨dropped, n, hrec, hfiled, hl⟩ := h.held
  have hplaced := hfiled.place ⟨firstOf writesIn seq bytes, seq, now, bytes⟩
  have hlast : Leads (r.seq + 1) [⟨firstOf writesIn seq bytes, seq, now, bytes⟩] (seq + 1) := by
    refine ⟨hnext, ?_, rfl⟩
    show firstOf writesIn seq bytes ≤ seq
    unfold firstOf
    omega
  simp only [Ring.Evicts, hjump, ne_eq, Decidable.not_not] at hev
  rw [Ring.push, hjump, Ring.held, hev]
  exact hplaced.records_eq (Leads.append_iff.mpr ⟨_, hl, hlast⟩)

/-- **The step**: with nothing dropped, the feed still leads on from there. -/
theorem Standing.apply (hk : Kept r g) (h : Standing r c e) : ∀ op, ¬ r.Evicts writesIn op →
    Standing (r.apply writesIn op) c e
  | .push now seq bytes, hev => by
    by_cases hnext : firstOf writesIn seq bytes = r.seq + 1
    · have hjump : r.jump (firstOf writesIn seq bytes) = r := by
        rw [Ring.jump, if_neg (by simpa using hnext)]
      have hheld := hk.push_held hnext hev
      have hepoch : (r.push writesIn now seq bytes).epoch = r.epoch := by
        simp [Ring.push, hjump, Ring.evict, Ring.place]
      have hseq : (r.push writesIn now seq bytes).seq = seq := rfl
      have hle : r.seq < seq := by
        unfold firstOf at hnext
        omega
      rcases h with h | ⟨he, h⟩
      · exact .inl (hepoch ▸ h)
      · refine .inr ⟨hepoch.trans he, .inr ⟨?_, ?_⟩⟩
        · show c < seq
          omega
        · show ∃ x ∈ (r.push writesIn now seq bytes).held, x.first = c + 1
          rw [hheld]
          rcases h with rfl | ⟨-, x, hx, hfirst⟩
          · exact ⟨_, List.mem_append_right _ (List.mem_singleton.mpr rfl), hnext⟩
          · exact ⟨x, List.mem_append_left _ hx, hfirst⟩
    · have hepoch : (r.push writesIn now seq bytes).epoch = r.epoch + 1 := by
        simp [Ring.push, Ring.jump, hnext, Ring.evict, Ring.place]
      refine .inl ?_
      show e < (r.push writesIn now seq bytes).epoch
      rw [hepoch]
      rcases h with h | ⟨he, -⟩ <;> omega
  | .markDurable upto, _ => by
    show Standing (r.markDurable upto) c e
    unfold Ring.markDurable
    dsimp only
    split
    · exact h
    · exact h
  | .start seq, _ => by
    refine .inl ?_
    show e < r.epoch + 1
    rcases h with h | ⟨he, -⟩ <;> omega
  | .close, _ => h
  | .reopen, _ => h

/-- **The run.** -/
theorem Standing.run : ∀ {r : Ring} {g : Log} (ops : List Op), Kept r g → Standing r c e →
    r.Keeps writesIn ops → Standing (ops.foldl (Ring.apply writesIn) r) c e ∧
      Kept (ops.foldl (Ring.apply writesIn) r) (ops.foldl (Log.apply writesIn) g)
  | _, _, [], hk, h, _ => ⟨h, hk⟩
  | _, _, op :: ops, hk, h, hkeep =>
    Standing.run ops (hk.apply writesIn op) (h.apply hk op hkeep.1) hkeep.2

/-- A cursor the feed leads on from is not behind. -/
theorem Standing.next_ne_behind (h : Standing r c e) (hk : Kept r g) : r.next c e max ≠ .behind := by
  by_cases hclosed : r.closed = true
  · rw [Ring.next, if_pos hclosed]
    exact Next.noConfusion
  · have hopen : r.closed = false := by simpa using hclosed
    have hd := hk.durable_eq
    rcases h with h | ⟨rfl, hc⟩
    · rw [Ring.next, if_neg hclosed, if_pos (by omega)]
      exact Next.noConfusion
    · rw [hk.epoch_eq]
      rcases Nat.lt_or_ge c g.durable with hlt | hge
      · rcases hc with rfl | ⟨-, x, hx, hfirst⟩
        · have := hk.durable_le
          have := hk.seq_eq
          omega
        · obtain ⟨taken, -, hsent⟩ := hk.next_served max hopen hlt hx hfirst
          rw [hsent, Next.of]
          split <;> exact Next.noConfusion
      · rw [hk.next_nothing max hopen hge]
        exact Next.noConfusion

end Serves

/-! ## 9. What the feed hands out -/

section HandsOut

variable (writesIn : List UInt8 → Option Nat) (capacity : Nat)

/-- **The feed hands out what is durable.**  Whatever was pushed, marked and started over, an open
feed answers a cursor at the durable end with nothing.  Before it, a replica is answered with the
records from the write after the cursor on, whole, in order, as far as they are durable and as many
as fit; it is behind exactly where no record held has that write, or the cursor cuts one that has.
The change stream is answered by the same rule, but from the record that holds the write, a cursor
inside it or not.  And a cursor the feed serves, inside no record, is not behind while no chunk is
dropped. -/
theorem hands_out (ops : List Op) (c max : Nat)
    (hopen : (ringOf writesIn capacity ops).closed = false) :
    let r := ringOf writesIn capacity ops
    let g := logOf writesIn ops
    ((∃ dropped, g.records = dropped ++ r.held) ∧ ∀ e ≠ g.epoch, r.next c e max = .moved) ∧
    (g.durable ≤ c → r.next c g.epoch max = .nothing) ∧
    (c < g.durable →
      (r.next c g.epoch max = .behind ↔
        (∀ x ∈ r.held, ¬ x.Has (c + 1)) ∨ ∃ x ∈ r.held, x.Cut c) ∧
      ∀ x ∈ r.held, x.first = c + 1 →
        ∃ taken, Stretch g x (fun t y => (bytesOf t).length + y.bytes.length > max) taken ∧
          r.next c g.epoch max = .of (c + 1) taken) ∧
    (g.seq < c → r.changesAfter c max = .ahead g.seq) ∧
    (g.durable ≤ c → c ≤ g.seq → r.changesAfter c max = .nothing) ∧
    (c < g.durable →
      ((∃ oldest, r.changesAfter c max = .behind oldest) ↔ ∀ x ∈ r.held, ¬ x.Has (c + 1)) ∧
      ∀ x ∈ r.held, x.Has (c + 1) →
        ∃ taken, Stretch g x (fun t _ => (bytesOf t).length ≥ max) taken ∧
          r.changesAfter c max = .of taken) ∧
    ∀ more, r.serves c = true → (∀ x ∈ r.held, ¬ x.Cut c) → r.Keeps writesIn more →
      (more.foldl (Ring.apply writesIn) r).next c g.epoch max ≠ .behind := by
  intro r g
  have hk : Kept r g := (Kept.new capacity).run writesIn ops
  have hopen : r.closed = false := hopen
  obtain ⟨dropped, n, hrec, hfiled, hl⟩ := hk.held
  refine ⟨⟨⟨dropped, hrec⟩, fun e he => ?_⟩, fun hc => ?_, fun hc => ⟨?_, fun x hx hfirst => ?_⟩,
    fun hc => ?_, fun hd hc => ?_, fun hc => ⟨?_, fun x hx hhas => ?_⟩, fun more hs hcut hkeep => ?_⟩
  · rw [Ring.next, if_neg (by simp [hopen]), if_pos (by rw [hk.epoch_eq]; exact he.symm)]
  · exact hk.next_nothing max hopen hc
  · exact hk.next_behind_iff max hopen hc
  · exact hk.next_served max hopen hc hx hfirst
  · rw [Ring.changesAfter, if_neg (by simp [hopen]), if_pos (by rw [hk.seq_eq]; exact hc),
      hk.seq_eq]
  · rw [Ring.changesAfter, if_neg (by simp [hopen]), if_neg (by rw [hk.seq_eq]; omega),
      if_pos (by rw [hk.durable_eq]; exact hd)]
  · exact hk.changesAfter_behind_iff max hopen hc
  · exact hk.changesAfter_served max hopen hc hx hhas
  · obtain ⟨hst, hk'⟩ := Standing.run more hk (hk.standing hs hcut) hkeep
    exact hk.epoch_eq ▸ hst.next_ne_behind hk'

end HandsOut

/-- The frames of a data record's body, where the numbers in it are one byte each. -/
def smallFrames : Nat → List UInt8 → Nat
  | fuel + 1, _ :: _ :: len :: rest => smallFrames fuel (rest.drop len.toNat) + 1
  | _, _ => 0

/-- `writes_in` of a data record whose numbers are one byte each. -/
def smallWrites : List UInt8 → Option Nat
  | 3 :: _ :: _ :: body => some (smallFrames body.length body)
  | _ => none

/-- A record of one write, and one of four: a statement of four documents. -/
def oneThenFour : List Op :=
  [.start 10,
    .push 1 11 ⟨[3, 1, 4, 1, 1, 1, 0xcd], by simp⟩,
    .push 2 15 ⟨[3, 1, 16, 1, 1, 1, 0xcd, 1, 2, 1, 0xcd, 1, 3, 1, 0xcd, 1, 4, 1, 0xcd], by simp⟩,
    .markDurable 15]

/-- The cursor before the record of four: it is sent whole. -/
theorem hands_out_four :
    (ringOf smallWrites 4096 oneThenFour).closed = false ∧
      ((ringOf smallWrites 4096 oneThenFour).next 11 1 4096 = .behind ↔
        (∀ x ∈ (ringOf smallWrites 4096 oneThenFour).held, ¬ x.Has 12) ∨
          ∃ x ∈ (ringOf smallWrites 4096 oneThenFour).held, x.Cut 11) := by
  have hopen : (ringOf smallWrites 4096 oneThenFour).closed = false := by decide +kernel
  exact ⟨hopen, ((hands_out smallWrites 4096 oneThenFour 11 4096 hopen).2.2.1 (by decide +kernel)).1⟩

/-- **A cursor inside a record is served and behind at once**: after the four-write record is on
disk, `serves` holds of a cursor inside it, nothing is dropped, and `next` answers that it is
behind, where `changes_after` answers with the record. -/
theorem inside_served_and_behind :
    (ringOf smallWrites 4096 oneThenFour).serves 13 = true ∧
      (ringOf smallWrites 4096 oneThenFour).Keeps smallWrites [] ∧
      (ringOf smallWrites 4096 oneThenFour).next 13 1 4096 = .behind ∧
      (ringOf smallWrites 4096 oneThenFour).changesAfter 13 4096 =
        .records 12 [15] [2]
          [3, 1, 16, 1, 1, 1, 0xcd, 1, 2, 1, 0xcd, 1, 3, 1, 0xcd, 1, 4, 1, 0xcd] := by
  refine ⟨?_, trivial, ?_, ?_⟩ <;> decide +kernel

end Feed

end Fenec
