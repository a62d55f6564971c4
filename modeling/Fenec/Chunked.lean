/-
# Ordered entries in chunks

An ordered index keeps its entries in chunks of up to 256, the chunks in order, and beside them
each chunk's first entry.  An entry is found by two searches, the first over the firsts and the
second in one chunk; an entry past all others goes to the end of the last chunk, any other into
the chunk the search gives, which is cut in half first where it is full.

`Good` is what every write keeps: no chunk is empty or too long, the firsts are the chunks' own
first entries, and the chunks in a row are one ascending list.  What a write does is said of that
list alone (`insert_spec`, `remove_spec`).

A place is a chunk and a place in it.  The two a range lies between count the entries before them
(`seek_spec`), so a range is what a search over the one list cuts out of it (`range_eq`), forwards
and backwards, and `between` is how many that is (`between_eq`).
-/
import Fenec.Lib.OrdMap
import Fenec.Lib.Run
import Fenec.Lib.Sorted
import Mathlib.Order.BooleanAlgebra.Set

namespace Fenec

open Lib

/-- `CHUNK`: the entries a chunk holds at most. -/
def chunkMax : Nat := 256

/-- `Chunked`: chunks of entries in order and each chunk's first. -/
structure Chunked (α : Type) where
  chunks : List (List α)
  firsts : List α
  len : Nat

namespace Chunked

variable {α : Type}

/-! ## 1. Writing -/

section Model

variable (cmp : α → α → Ordering)

/-- `Chunked::new`. -/
def new : Chunked α := ⟨[], [], 0⟩

/-- The chunks a sorted list is cut into, half full each. -/
def halves : Nat → List α → List (List α)
  | 0, _ => []
  | n + 1, v =>
    match v.take (chunkMax / 2) with
    | [] => []
    | e :: chunk => (e :: chunk) :: halves n (v.drop (chunkMax / 2))

/-- `Chunked::from_sorted`. -/
def fromSorted (v : List α) : Chunked α :=
  ⟨halves v.length v, (halves v.length v).filterMap List.head?, v.length⟩

/-- `slice::partition_point` over a slice that is partitioned. -/
def partitionPoint (p : α → Bool) (l : List α) : Nat := (l.takeWhile p).length

/-- `slice::binary_search_by` over a sorted slice: where an entry is, or where it would go. -/
def search (l : List α) (x : α) : Except Nat Nat :=
  let pos := partitionPoint (fun e => cmp e x == .lt) l
  match l[pos]? with
  | some e => if cmp e x = .eq then .ok pos else .error pos
  | none => .error pos

/-- `chunk_for`: the chunk an entry belongs in. -/
def chunkFor (c : Chunked α) (x : α) : Nat :=
  partitionPoint (fun f => cmp f x != .gt) c.firsts - 1

/-- Whether an entry goes past all others; no chunk may be empty. -/
def past (c : Chunked α) (x : α) : Option Bool :=
  match c.chunks.getLast? with
  | none => some true
  | some l => l.getLast?.map fun e => cmp e x == .lt

/-- **`Chunked::insert`**, or nothing where an index is out of bounds. -/
def insert (c : Chunked α) (x : α) : Option (Chunked α × Bool) := do
  if ← c.past cmp x then
    match c.chunks.getLast? with
    | some l =>
      if l.length < chunkMax then
        pure (⟨c.chunks.dropLast ++ [l ++ [x]], c.firsts, c.len + 1⟩, true)
      else pure (⟨c.chunks ++ [[x]], c.firsts ++ [x], c.len + 1⟩, true)
    | none => pure (⟨c.chunks ++ [[x]], c.firsts ++ [x], c.len + 1⟩, true)
  else
    let ci := c.chunkFor cmp x
    let chunk ← c.chunks[ci]?
    match search cmp chunk x with
    | .ok _ => pure (c, false)
    | .error pos =>
      -- a full chunk is cut in half first
      let (chunks, firsts, ci, pos) ←
        if chunk.length < chunkMax then pure (c.chunks, c.firsts, ci, pos)
        else do
          let tail := chunk.drop (chunkMax / 2)
          let first ← tail.head?
          let chunks := (c.chunks.set ci (chunk.take (chunkMax / 2))).insertIdx (ci + 1) tail
          let firsts := c.firsts.insertIdx (ci + 1) first
          if pos ≤ chunkMax / 2 then pure (chunks, firsts, ci, pos)
          else pure (chunks, firsts, ci + 1, pos - chunkMax / 2)
      let chunk ← chunks[ci]?
      let firsts := if pos = 0 then firsts.set ci x else firsts
      pure (⟨chunks.set ci (chunk.insertIdx pos x), firsts, c.len + 1⟩, true)

/-- **`Chunked::remove`**, or nothing where an index is out of bounds. -/
def remove (c : Chunked α) (x : α) : Option (Chunked α × Bool) := do
  if c.chunks.isEmpty then pure (c, false)
  else
    let ci := c.chunkFor cmp x
    let chunk ← c.chunks[ci]?
    match search cmp chunk x with
    | .error _ => pure (c, false)
    | .ok pos =>
      let chunk := chunk.eraseIdx pos
      match chunk.head? with
      | none => pure (⟨c.chunks.eraseIdx ci, c.firsts.eraseIdx ci, c.len - 1⟩, true)
      | some f =>
        let firsts := if pos = 0 then c.firsts.set ci f else c.firsts
        pure (⟨c.chunks.set ci chunk, firsts, c.len - 1⟩, true)

/-! ## 2. Reading -/

/-- `Chunked::seek`: the place of the first entry above another, or not below it. -/
def seek (c : Chunked α) (x : α) (past : Bool) : Option (Nat × Nat) :=
  match partitionPoint (below cmp x past) c.firsts with
  | 0 => some (0, 0)
  | ci + 1 => do
    let chunk ← c.chunks[ci]?
    let at_ := partitionPoint (below cmp x past) chunk
    pure (if at_ = chunk.length then (ci + 1, 0) else (ci, at_))

/-- Where a range starts. -/
def startOf (c : Chunked α) : Bound α → Option (Nat × Nat)
  | .included x => c.seek cmp x false
  | .excluded x => c.seek cmp x true
  | .unbounded => some (0, 0)

/-- Where a range ends. -/
def stopOf (c : Chunked α) : Bound α → Option (Nat × Nat)
  | .included x => c.seek cmp x true
  | .excluded x => c.seek cmp x false
  | .unbounded => some (c.chunks.length, 0)

/-- A range's part of a chunk. -/
def slice (c : Chunked α) (start stop : Nat × Nat) (ci : Nat) : Option (List α) := do
  let chunk ← c.chunks[ci]?
  let start := if ci = start.1 then start.2 else 0
  let stop := if ci = stop.1 then stop.2 else chunk.length
  if stop ≤ chunk.length then pure ((chunk.take stop).drop (min start stop)) else none

/-- The chunks a range has a part of. -/
def spanned (start stop : Nat × Nat) : List Nat :=
  let last := if stop.2 = 0 then stop.1 else stop.1 + 1
  List.range' start.1 (max last start.1 - start.1)

/-- **`Chunked::range`**, read to its end. -/
def range (c : Chunked α) (lo hi : Bound α) : Option (List α) := do
  let start ← c.startOf cmp lo
  let stop ← c.stopOf cmp hi
  let parts ← (spanned start stop).mapM (c.slice start stop)
  pure parts.flatten

/-- **`Chunked::range`**, read from its end. -/
def rangeBack (c : Chunked α) (lo hi : Bound α) : Option (List α) := do
  let start ← c.startOf cmp lo
  let stop ← c.stopOf cmp hi
  let parts ← (spanned start stop).reverse.mapM (c.slice start stop)
  pure (parts.map List.reverse).flatten

/-- `Chunked::between`: the entries between two places. -/
def between (c : Chunked α) (a b : Nat × Nat) : Option Nat :=
  if b.1 < a.1 ∨ b.1 = a.1 ∧ b.2 ≤ a.2 then some 0
  else if a.1 = b.1 then some (b.2 - a.2)
  else if c.chunks.length < b.1 then none
  else do
    let chunk ← c.chunks[a.1]?
    let whole := (c.chunks.take b.1).drop (a.1 + 1)
    pure (whole.foldl (fun n chunk => n + chunk.length) (chunk.length - a.2) + b.2)

/-- `Chunked::count`. -/
def count (c : Chunked α) (lo hi : α) : Option Nat := do
  c.between (← c.seek cmp lo false) (← c.seek cmp hi false)

/-- `Chunked::count_within`. -/
def countWithin (c : Chunked α) (lo hi : Bound α) : Option Nat := do
  c.between (← c.startOf cmp lo) (← c.stopOf cmp hi)

end Model

/-! ## 3. What every write keeps -/

/-- A chunk as it may be, and its first entry. -/
def Chunk (chunk : List α) (f : α) : Prop := chunk.head? = some f ∧ chunk.length ≤ chunkMax

/-- The entries, chunk after chunk. -/
def entries (c : Chunked α) : List α := c.chunks.flatten

/-- **Chunks in order**, none empty or too long, and the first entry of each. -/
structure Good (cmp : α → α → Ordering) (c : Chunked α) : Prop where
  filled : List.Forall₂ Chunk c.chunks c.firsts
  sorted : Sorted cmp c.entries
  len : c.len = c.entries.length

section Split

variable {cmp : α → α → Ordering} {chunks : List (List α)} {firsts : List α} {x : α}

theorem Chunk.eq_cons {chunk : List α} {f : α} (h : Chunk chunk f) : ∃ rest, chunk = f :: rest := by
  cases chunk with
  | nil => cases h.1
  | cons e rest =>
    obtain rfl := Option.some.inj h.1
    exact ⟨rest, rfl⟩

theorem filled_append {a b : List (List α)} (h : List.Forall₂ Chunk (a ++ b) firsts) :
    ∃ F G, firsts = F ++ G ∧ List.Forall₂ Chunk a F ∧ List.Forall₂ Chunk b G := by
  induction a generalizing firsts with
  | nil => exact ⟨[], firsts, rfl, .nil, h⟩
  | cons c a ih =>
    obtain ⟨f, fs, hc, hrest, rfl⟩ := List.forall₂_cons_left_iff.mp h
    obtain ⟨F, G, rfl, hF, hG⟩ := ih hrest
    exact ⟨f :: F, G, rfl, .cons hc hF, hG⟩

theorem filled_append_firsts {F G : List α} (h : List.Forall₂ Chunk chunks (F ++ G)) :
    ∃ a b, chunks = a ++ b ∧ List.Forall₂ Chunk a F ∧ List.Forall₂ Chunk b G := by
  induction F generalizing chunks with
  | nil => exact ⟨[], chunks, rfl, .nil, h⟩
  | cons f F ih =>
    obtain ⟨c, cs, hc, hrest, rfl⟩ := List.forall₂_cons_right_iff.mp h
    obtain ⟨a, b, rfl, ha, hb⟩ := ih hrest
    exact ⟨c :: a, b, rfl, .cons hc ha, hb⟩

theorem mem_of_filled (h : List.Forall₂ Chunk chunks firsts) {chunk : List α}
    (hc : chunk ∈ chunks) : ∃ f ∈ firsts, Chunk chunk f := by
  induction h with
  | nil => cases hc
  | cons hcf _ ih =>
    rcases List.mem_cons.mp hc with rfl | hc
    · exact ⟨_, List.mem_cons_self, hcf⟩
    · obtain ⟨f, hf, hchunk⟩ := ih hc
      exact ⟨f, List.mem_cons_of_mem _ hf, hchunk⟩

theorem mem_flatten_of_first (h : List.Forall₂ Chunk chunks firsts) {f : α} (hf : f ∈ firsts) :
    f ∈ chunks.flatten := by
  induction h with
  | nil => cases hf
  | cons hcf _ ih =>
    rcases List.mem_cons.mp hf with rfl | hf
    · obtain ⟨rest, rfl⟩ := hcf.eq_cons
      simp
    · exact List.mem_append_right _ (ih hf)

/-- The firsts ascend as the entries do. -/
theorem sorted_firsts (h : List.Forall₂ Chunk chunks firsts) (hs : Sorted cmp chunks.flatten) :
    Sorted cmp firsts := by
  induction h with
  | nil => exact .nil
  | @cons chunk f chunks firsts hcf hrest ih =>
    obtain ⟨rest, rfl⟩ := hcf.eq_cons
    rw [List.flatten_cons] at hs
    obtain ⟨-, htail, hacross⟩ := List.pairwise_append.mp hs
    refine List.pairwise_cons.mpr ⟨fun g hg => ?_, ih htail⟩
    exact hacross f List.mem_cons_self g (mem_flatten_of_first hrest hg)

/-- What comes after a first that is above an entry is above it. -/
theorem above_of_firsts [Std.TransCmp cmp] (h : List.Forall₂ Chunk chunks firsts)
    (hs : Sorted cmp chunks.flatten) (hx : ∀ f ∈ firsts, cmp f x = .gt) :
    ∀ e ∈ chunks.flatten, cmp e x = .gt := by
  intro e he
  obtain ⟨chunk, hchunk, he⟩ := List.mem_flatten.mp he
  obtain ⟨f, hf, hcf⟩ := mem_of_filled h hchunk
  obtain ⟨rest, rfl⟩ := hcf.eq_cons
  rcases List.mem_cons.mp he with rfl | he
  · exact hx e hf
  · have hfe : cmp f e = .lt :=
      (List.pairwise_cons.mp ((List.pairwise_flatten.mp hs).1 _ hchunk)).1 e he
    have hxf : cmp x f = .lt := Std.OrientedCmp.lt_of_gt (hx f hf)
    exact Std.OrientedCmp.gt_of_lt (Std.TransCmp.lt_trans hxf hfe)

/-- The last of the entries a predicate leads with, or the first of all where there is none. -/
theorem partitionPoint_split {p : α → Bool} {l : List α} (h : Leads p l) (hne : l ≠ []) :
    ∃ a e b, l = a ++ e :: b ∧ a.length = partitionPoint p l - 1 ∧ (a = [] ∨ p e = true) ∧
      ∀ g ∈ b, p g = false := by
  have hcut := List.takeWhile_append_dropWhile (p := p) (l := l)
  have hdrop : ∀ g ∈ l.dropWhile p, p g = false := by
    intro g hg
    rw [h.dropWhile_eq] at hg
    simpa using (List.mem_filter.mp hg).2
  rcases List.eq_nil_or_concat (l.takeWhile p) with hnone | ⟨a, e, hlast⟩
  · cases l with
    | nil => exact absurd rfl hne
    | cons e b =>
      rw [hnone, List.nil_append] at hcut
      refine ⟨[], e, b, rfl, ?_, .inl rfl, fun g hg => hdrop g ?_⟩
      · rw [partitionPoint, hnone]
        rfl
      · rw [hcut]
        exact List.mem_cons_of_mem _ hg
  · refine ⟨a, e, l.dropWhile p, ?_, ?_, .inr ?_, hdrop⟩
    · rw [List.concat_eq_append] at hlast
      rw [hlast, List.append_assoc] at hcut
      exact hcut.symm
    · rw [partitionPoint, hlast, List.length_concat, Nat.add_sub_cancel]
    · have hmem : e ∈ l.takeWhile p := by
        rw [hlast]
        simp
      rw [h.takeWhile_eq] at hmem
      exact (List.mem_filter.mp hmem).2

end Split

/-! ## 4. Where an entry belongs -/

section Place

variable {cmp : α → α → Ordering} [Std.TransCmp cmp] {c : Chunked α} {x : α}

theorem leads_not_gt {l : List α} (h : Sorted cmp l) (x : α) :
    Leads (fun e => cmp e x != .gt) l := by
  refine h.imp fun {a b} hab hb => ?_
  simp only [bne_iff_ne, ne_eq] at hb ⊢
  intro hgt
  have hxa : cmp x a = .lt := Std.OrientedCmp.lt_of_gt hgt
  exact hb (Std.OrientedCmp.gt_of_lt (Std.TransCmp.lt_trans hxa hab))

theorem leads_lt {l : List α} (h : Sorted cmp l) (x : α) : Leads (fun e => cmp e x == .lt) l := by
  refine h.imp fun {a b} hab hb => ?_
  rw [beq_iff_eq] at hb ⊢
  exact Std.TransCmp.lt_trans hab hb

/-- A chunk among the others, and what is before and after it. -/
structure At (cmp : α → α → Ordering) (c : Chunked α) (x : α) (pre : List (List α))
    (chunk : List α) (post : List (List α)) (F : List α) (f : α) (G : List α) : Prop where
  chunks : c.chunks = pre ++ chunk :: post
  firsts : c.firsts = F ++ f :: G
  before : List.Forall₂ Chunk pre F
  here : Chunk chunk f
  after : List.Forall₂ Chunk post G
  place : pre.length = c.chunkFor cmp x
  less : ∀ e ∈ pre.flatten, cmp e x = .lt
  more : ∀ e ∈ post.flatten, cmp e x = .gt

/-- **The chunk an entry belongs in**: all before it are below the entry, all after it above. -/
theorem Good.at (h : c.Good cmp) (hne : c.chunks ≠ []) (x : α) :
    ∃ pre chunk post F f G, At cmp c x pre chunk post F f G := by
  have hsorted := sorted_firsts h.filled h.sorted
  have hfirsts : c.firsts ≠ [] := by
    intro hnil
    have hfilled := h.filled
    rw [hnil] at hfilled
    exact hne (List.forall₂_nil_right_iff.mp hfilled)
  obtain ⟨F, f, G, hsplit, hlen, hlow, hhigh⟩ :=
    partitionPoint_split (leads_not_gt hsorted x) hfirsts
  have hfilled := h.filled
  rw [hsplit] at hfilled
  obtain ⟨pre, rest, hchunks, hpre, hrest⟩ := filled_append_firsts hfilled
  obtain ⟨chunk, post, hhere, hpost, rfl⟩ := List.forall₂_cons_right_iff.mp hrest
  have hflat := h.sorted
  rw [entries, hchunks, List.flatten_append, List.flatten_cons] at hflat
  obtain ⟨-, htail, hacross⟩ := List.pairwise_append.mp hflat
  obtain ⟨restOf, rfl⟩ := hhere.eq_cons
  refine ⟨pre, _, post, F, f, G, hchunks, hsplit, hpre, hhere, hpost, ?_, fun e he => ?_, ?_⟩
  · rw [hpre.length_eq, hlen]
    rfl
  · -- below the chunk's first, which is not above the entry
    have hef : cmp e f = .lt := hacross e he f (by simp)
    rcases hlow with hnil | hle
    · rw [hnil] at hpre
      rw [List.forall₂_nil_right_iff.mp hpre] at he
      cases he
    · simp only [bne_iff_ne, ne_eq] at hle
      cases hc : cmp f x with
      | lt => exact Std.TransCmp.lt_trans hef hc
      | eq => exact Std.TransCmp.lt_of_lt_of_eq hef hc
      | gt => exact absurd hc hle
  · refine above_of_firsts hpost (List.pairwise_append.mp htail).2.1 fun g hg => ?_
    simpa using hhigh g hg

omit [Std.TransCmp cmp] in
theorem At.getElem {pre post : List (List α)} {chunk F G : List α} {f : α}
    (h : At cmp c x pre chunk post F f G) : c.chunks[c.chunkFor cmp x]? = some chunk := by
  rw [← h.place, h.chunks, List.getElem?_append_right (Nat.le_refl _), Nat.sub_self]
  rfl

/-- **A search divides a sorted list** at the entry, or where it would go. -/
theorem search_spec {l : List α} (h : Sorted cmp l) (x : α) :
    (∃ a e b, l = a ++ e :: b ∧ search cmp l x = .ok a.length ∧ cmp e x = .eq) ∨
    (∃ a b, l = a ++ b ∧ search cmp l x = .error a.length ∧ (∀ e ∈ a, cmp e x = .lt) ∧
      ∀ e ∈ b, cmp e x = .gt) := by
  have hleads := leads_lt h x
  have hcut := List.takeWhile_append_dropWhile (p := fun e => cmp e x == .lt) (l := l)
  have hlow : ∀ e ∈ l.takeWhile (fun e => cmp e x == .lt), cmp e x = .lt := by
    intro e he
    rw [hleads.takeWhile_eq] at he
    simpa using (List.mem_filter.mp he).2
  have hpos : l[partitionPoint (fun e => cmp e x == .lt) l]? =
      (l.dropWhile fun e => cmp e x == .lt).head? := by
    have hright : ((l.takeWhile fun e => cmp e x == .lt) ++
        l.dropWhile fun e => cmp e x == .lt)[(l.takeWhile fun e => cmp e x == .lt).length]? = _ :=
      List.getElem?_append_right (Nat.le_refl _)
    rw [hcut, Nat.sub_self] at hright
    rw [partitionPoint, hright, List.head?_eq_getElem?]
  cases hdrop : l.dropWhile (fun e => cmp e x == .lt) with
  | nil =>
    refine .inr ⟨l.takeWhile fun e => cmp e x == .lt, [], ?_, ?_, hlow, by simp⟩
    · rw [← hdrop]
      exact hcut.symm
    · rw [search, hpos, hdrop]
      rfl
  | cons e b =>
    have hnot : cmp e x ≠ .lt := by
      have hmem : e ∈ l.dropWhile (fun e => cmp e x == .lt) := by rw [hdrop]; simp
      rw [hleads.dropWhile_eq] at hmem
      simpa using (List.mem_filter.mp hmem).2
    have hsearch : search cmp l x = if cmp e x = .eq
        then .ok (l.takeWhile fun e => cmp e x == .lt).length
        else .error (l.takeWhile fun e => cmp e x == .lt).length := by
      rw [search, hpos, hdrop]
      rfl
    rw [hdrop] at hcut
    by_cases heq : cmp e x = .eq
    · rw [if_pos heq] at hsearch
      exact .inl ⟨_, e, b, hcut.symm, hsearch, heq⟩
    · rw [if_neg heq] at hsearch
      refine .inr ⟨_, e :: b, hcut.symm, hsearch, hlow, fun g hg => ?_⟩
      have hgt : cmp e x = .gt := by
        cases hc : cmp e x with
        | lt => exact absurd hc hnot
        | eq => exact absurd hc heq
        | gt => rfl
      rcases List.mem_cons.mp hg with rfl | hg
      · exact hgt
      · rw [← hcut] at h
        have hlt : cmp e g = .lt :=
          (List.pairwise_cons.mp (List.pairwise_append.mp h).2.1).1 g hg
        have hxe : cmp x e = .lt := Std.OrientedCmp.lt_of_gt hgt
        exact Std.OrientedCmp.gt_of_lt (Std.TransCmp.lt_trans hxe hlt)

/-- Where a search over a map's keys finds one, or would put it. -/
theorem search_keys (m : OrdMap α) (k : Nat) :
    (∃ A w B, m.entries = A ++ (k, w) :: B ∧ search compare m.keys k = .ok A.length ∧
      (∀ e ∈ A, e.1 < k) ∧ ∀ e ∈ B, k < e.1) ∨
    (∃ A B, m.entries = A ++ B ∧ search compare m.keys k = .error A.length ∧
      (∀ e ∈ A, e.1 < k) ∧ ∀ e ∈ B, k < e.1) := by
  have hsorted : Sorted compare m.keys :=
    m.keys_ascending.imp fun hab => Nat.compare_eq_lt.mpr hab
  have hasc := m.ascending
  rcases search_spec hsorted k with ⟨a, e, b, hcut, hsearch, heq⟩ |
      ⟨a, b, hcut, hsearch, hlow, hhigh⟩
  · obtain rfl : e = k := Nat.compare_eq_eq.mp heq
    obtain ⟨A, rest, hentries, rfl, hrest⟩ := List.map_eq_append_iff.mp hcut
    obtain ⟨⟨e, w⟩, B, rfl, rfl, rfl⟩ := List.map_eq_cons_iff.mp hrest
    rw [hentries] at hasc
    obtain ⟨-, hright, hacross⟩ := List.pairwise_append.mp hasc
    refine .inl ⟨A, w, B, hentries, ?_, fun a ha => hacross a ha _ List.mem_cons_self,
      (List.pairwise_cons.mp hright).1⟩
    rw [hsearch, List.length_map]
  · obtain ⟨A, B, hentries, rfl, rfl⟩ := List.map_eq_append_iff.mp hcut
    refine .inr ⟨A, B, hentries, ?_, fun a ha => ?_, fun b hb => ?_⟩
    · rw [hsearch, List.length_map]
    · exact Nat.compare_eq_lt.mp (hlow _ (List.mem_map_of_mem ha))
    · exact Nat.compare_eq_gt.mp (hhigh _ (List.mem_map_of_mem hb))

end Place

/-! ## 5. An entry put in -/

section Insert

variable {cmp : α → α → Ordering} [Std.TransCmp cmp] {c : Chunked α} {x : α}

omit [Std.TransCmp cmp] in
theorem sorted_between [Std.OrientedCmp cmp] {P Q : List α} (h : Sorted cmp (P ++ Q))
    (hP : ∀ e ∈ P, cmp e x = .lt) (hQ : ∀ e ∈ Q, cmp e x = .gt) : Sorted cmp (P ++ x :: Q) := by
  obtain ⟨hp, hq, hacross⟩ := List.pairwise_append.mp h
  refine List.pairwise_append.mpr ⟨hp, List.pairwise_cons.mpr ⟨fun e he => ?_, hq⟩, ?_⟩
  · exact Std.OrientedCmp.lt_of_gt (hQ e he)
  · intro a ha b hb
    rcases List.mem_cons.mp hb with rfl | hb
    · exact hP a ha
    · exact hacross a ha b hb

/-- An entry put into a chunk with room, its first replaced where it comes before it. -/
theorem filled_put {pre post : List (List α)} {A B F G : List α} {f : α}
    (hpre : List.Forall₂ Chunk pre F) (hhere : Chunk (A ++ B) f) (hpost : List.Forall₂ Chunk post G)
    (hroom : (A ++ B).length < chunkMax) :
    List.Forall₂ Chunk (pre ++ (A ++ x :: B) :: post)
      (if A.length = 0 then (F ++ f :: G).set pre.length x else F ++ f :: G) := by
  have hlen : (A ++ x :: B).length ≤ chunkMax := by
    simp only [List.length_append, List.length_cons] at hroom ⊢
    omega
  cases A with
  | nil =>
    rw [if_pos List.length_nil, hpre.length_eq, List.set_append_right _ _ (Nat.le_refl _),
      Nat.sub_self]
    exact List.rel_append hpre (.cons ⟨rfl, hlen⟩ hpost)
  | cons e A =>
    rw [if_neg (by simp)]
    exact List.rel_append hpre (.cons ⟨hhere.1, hlen⟩ hpost)

theorem set_middle {β : Type} {pre post : List β} {a b : β} :
    (pre ++ a :: post).set pre.length b = pre ++ b :: post := by
  rw [List.set_append_right _ _ (Nat.le_refl _), Nat.sub_self, List.set_cons_zero]

theorem insertIdx_middle {β : Type} {pre post : List β} {a b : β} :
    (pre ++ a :: post).insertIdx (pre.length + 1) b = pre ++ a :: b :: post := by
  induction pre with
  | nil => rfl
  | cons e pre ih =>
    rw [List.cons_append, List.length_cons, List.insertIdx_succ_cons, ih]
    rfl

theorem insertIdx_at {A B : List α} : (A ++ B).insertIdx A.length x = A ++ x :: B := by
  induction A with
  | nil => rfl
  | cons e A ih => rw [List.cons_append, List.length_cons, List.insertIdx_succ_cons, ih]; rfl

/-- What a write that put an entry in has to show: the entry between those below and above it. -/
theorem Good.of_put {P Q : List α} {c' : Chunked α} (h : c.Good cmp) (hcut : c.entries = P ++ Q)
    (hP : ∀ e ∈ P, cmp e x = .lt) (hQ : ∀ e ∈ Q, cmp e x = .gt)
    (hfilled : List.Forall₂ Chunk c'.chunks c'.firsts) (hentries : c'.entries = P ++ x :: Q)
    (hlen : c'.len = c.len + 1) :
    c'.Good cmp ∧ (∀ y, y ∈ c'.entries ↔ y = x ∨ y ∈ c.entries) ∧ x ∉ c.entries := by
  refine ⟨⟨hfilled, ?_, ?_⟩, fun y => ?_, ?_⟩
  · rw [hentries]
    exact sorted_between (hcut ▸ h.sorted) hP hQ
  · rw [hlen, h.len, hcut, hentries]
    simp only [List.length_append, List.length_cons]
    omega
  · rw [hentries, hcut]
    simp only [List.mem_append, List.mem_cons]
    tauto
  · have hself : cmp x x = .eq := Std.ReflCmp.compare_self
    rw [hcut]
    intro hmem
    rcases List.mem_append.mp hmem with hmem | hmem
    · exact absurd ((hP x hmem).symm.trans hself) (by decide)
    · exact absurd ((hQ x hmem).symm.trans hself) (by decide)

theorem chunk_single (x : α) : Chunk [x] x := ⟨rfl, by simp [chunkMax]⟩

/-- **An entry past all others goes to the end.** -/
theorem insert_past (h : c.Good cmp) (hpast : c.past cmp x = some true) :
    ∃ c', c.insert cmp x = some (c', true) ∧ c'.Good cmp ∧
      (∀ y, y ∈ c'.entries ↔ y = x ∨ y ∈ c.entries) ∧ x ∉ c.entries := by
  unfold insert
  rw [hpast]
  unfold past at hpast
  rcases List.eq_nil_or_concat c.chunks with hnone | ⟨init, l, hlast⟩
  · have hnil : c.entries = [] := by rw [entries, hnone]; rfl
    have hfirsts : c.firsts = [] := by
      have hfilled := h.filled
      rw [hnone] at hfilled
      exact List.forall₂_nil_left_iff.mp hfilled
    refine ⟨⟨[[x]], [x], c.len + 1⟩, ?_, h.of_put (P := []) (Q := []) hnil (by simp) (by simp)
      (.cons (chunk_single x) .nil) rfl rfl⟩
    rw [hnone, hfirsts]
    rfl
  · rw [List.concat_eq_append] at hlast
    have hend : c.chunks.getLast? = some l := by rw [hlast, List.getLast?_concat]
    have hdrop : c.chunks.dropLast = init := by rw [hlast, List.dropLast_concat]
    rw [hend] at hpast
    obtain ⟨e, he, hlt⟩ := Option.map_eq_some_iff.mp hpast
    rw [beq_iff_eq] at hlt
    obtain ⟨before, hl⟩ := List.getLast?_eq_some_iff.mp he
    have hentries : c.entries = init.flatten ++ (before ++ [e]) := by
      rw [entries, hlast, hl]
      simp
    have hall : ∀ y ∈ c.entries, cmp y x = .lt := by
      intro y hy
      have hsorted := h.sorted
      rw [hentries, ← List.append_assoc] at hsorted hy
      rcases List.mem_append.mp hy with hy | hy
      · exact Std.TransCmp.lt_trans ((List.pairwise_append.mp hsorted).2.2 y hy e (by simp)) hlt
      · rwa [List.mem_singleton.mp hy]
    have hfilled := h.filled
    rw [hlast] at hfilled
    obtain ⟨F, G, hF, hinit, hG⟩ := filled_append hfilled
    obtain ⟨f, fs, hhere, hnil, rfl⟩ := List.forall₂_cons_left_iff.mp hG
    rw [List.forall₂_nil_left_iff.mp hnil] at hF
    by_cases hroom : l.length < chunkMax
    · refine ⟨⟨init ++ [l ++ [x]], c.firsts, c.len + 1⟩, ?_, h.of_put (P := c.entries) (Q := [])
        (by simp) hall (by simp) ?_ ?_ rfl⟩
      · rw [hend, hdrop]
        simp [hroom]
      · dsimp only
        rw [hF]
        refine List.rel_append hinit (.cons ⟨?_, ?_⟩ .nil)
        · rw [List.head?_append, hhere.1]
          rfl
        · rw [List.length_append]
          exact hroom
      · simp [entries, hlast]
    · refine ⟨⟨c.chunks ++ [[x]], c.firsts ++ [x], c.len + 1⟩, ?_, h.of_put (P := c.entries)
        (Q := []) (by simp) hall (by simp) ?_ ?_ rfl⟩
      · rw [hend]
        simp [hroom]
      · exact List.rel_append h.filled (.cons (chunk_single x) .nil)
      · simp [entries]

theorem chunkMax_half : chunkMax / 2 < chunkMax ∧ chunkMax / 2 + chunkMax / 2 = chunkMax := by
  decide

/-- The two halves of a full chunk. -/
theorem chunk_halves {chunk : List α} {f : α} (h : Chunk chunk f)
    (hfull : ¬ chunk.length < chunkMax) :
    ∃ d, Chunk (chunk.take (chunkMax / 2)) f ∧ Chunk (chunk.drop (chunkMax / 2)) d ∧
      (chunk.take (chunkMax / 2)).length = chunkMax / 2 ∧
      (chunk.drop (chunkMax / 2)).length = chunkMax / 2 := by
  obtain ⟨hhalf, htwice⟩ := chunkMax_half
  obtain ⟨rest, rfl⟩ := h.eq_cons
  have hle := h.2
  have htake : ((f :: rest).take (chunkMax / 2)).length = chunkMax / 2 := by
    rw [List.length_take]
    omega
  have hdrop : ((f :: rest).drop (chunkMax / 2)).length = chunkMax / 2 := by
    rw [List.length_drop]
    omega
  have hpos : 0 < chunkMax / 2 := by decide
  cases hd : (f :: rest).drop (chunkMax / 2) with
  | nil =>
    rw [hd, List.length_nil] at hdrop
    omega
  | cons d ds =>
    refine ⟨d, ⟨?_, by omega⟩, ⟨rfl, by rw [← hd]; omega⟩, htake, by rw [← hd]; exact hdrop⟩
    rw [List.head?_take, if_neg (by omega)]
    rfl

/-- What a write leaves of an entry put in, whatever the chunks are cut into. -/
theorem put_result {c : Chunked α} {pre post : List (List α)} {A B F G : List α} {f : α}
    (h : c.Good cmp) (hpre : List.Forall₂ Chunk pre F) (hhere : Chunk (A ++ B) f)
    (hpost : List.Forall₂ Chunk post G) (hroom : (A ++ B).length < chunkMax)
    (hcut : c.entries = pre.flatten ++ (A ++ B) ++ post.flatten)
    (hless : ∀ e ∈ pre.flatten, cmp e x = .lt) (hmore : ∀ e ∈ post.flatten, cmp e x = .gt)
    (hlow : ∀ e ∈ A, cmp e x = .lt) (hhigh : ∀ e ∈ B, cmp e x = .gt) :
    (⟨(pre ++ (A ++ B) :: post).set pre.length ((A ++ B).insertIdx A.length x),
      if A.length = 0 then (F ++ f :: G).set pre.length x else F ++ f :: G, c.len + 1⟩ :
        Chunked α).Good cmp ∧
    (∀ y, y ∈ entries (⟨(pre ++ (A ++ B) :: post).set pre.length ((A ++ B).insertIdx A.length x),
      if A.length = 0 then (F ++ f :: G).set pre.length x else F ++ f :: G, c.len + 1⟩ :
        Chunked α) ↔ y = x ∨ y ∈ c.entries) ∧ x ∉ c.entries := by
  refine h.of_put (P := pre.flatten ++ A) (Q := B ++ post.flatten) ?_ ?_ ?_ ?_ ?_ rfl
  · rw [hcut]
    simp only [List.append_assoc]
  · intro e he
    exact (List.mem_append.mp he).elim (hless e) (hlow e)
  · intro e he
    exact (List.mem_append.mp he).elim (hhigh e) (hmore e)
  · dsimp only
    rw [set_middle, insertIdx_at]
    exact filled_put hpre hhere hpost hroom
  · rw [entries, set_middle, insertIdx_at]
    simp

/-- **Any other entry goes into the chunk it belongs in**, cut in half first where it is full. -/
theorem insert_within [Std.LawfulEqCmp cmp] (h : c.Good cmp) (hpast : c.past cmp x = some false) :
    ∃ c' b, c.insert cmp x = some (c', b) ∧ c'.Good cmp ∧
      (∀ y, y ∈ c'.entries ↔ y = x ∨ y ∈ c.entries) ∧ (b = true ↔ x ∉ c.entries) := by
  have hne : c.chunks ≠ [] := by
    intro hnil
    rw [past, hnil] at hpast
    cases hpast
  obtain ⟨pre, chunk, post, F, f, G, hat⟩ := h.at hne x
  have hget := hat.getElem
  have hentries : c.entries = pre.flatten ++ chunk ++ post.flatten := by
    rw [entries, hat.chunks]
    simp
  have hsorted : Sorted cmp chunk := by
    have hs := h.sorted
    rw [hentries] at hs
    exact (List.pairwise_append.mp (List.pairwise_append.mp hs).1).2.1
  unfold insert
  rw [hpast]
  simp only [Option.bind_eq_bind, Option.bind_some, Bool.false_eq_true, if_false, hget]
  rcases search_spec hsorted x with
    ⟨A, e, B, hchunk, hfound, heq⟩ | ⟨A, B, hchunk, hfound, hlow, hhigh⟩
  · -- it is there
    rw [hfound]
    obtain rfl := Std.LawfulEqCmp.eq_of_compare heq
    have hmem : e ∈ c.entries := by
      rw [hentries, hchunk]
      simp
    refine ⟨c, false, rfl, h, fun y => ⟨.inr, ?_⟩, by simp [hmem]⟩
    rintro (rfl | hy)
    · exact hmem
    · exact hy
  · rw [hfound]
    dsimp only
    have hhere := hat.here
    rw [hchunk] at hhere hentries
    by_cases hroom : chunk.length < chunkMax
    · have hput := put_result (x := x) h hat.before hhere hat.after (hchunk ▸ hroom) hentries
        hat.less hat.more hlow hhigh
      refine ⟨_, true, ?_, hput.1, hput.2.1, by simp [hput.2.2]⟩
      rw [if_pos hroom]
      simp only [Option.pure_def, Option.bind_some, hget]
      rw [← hat.place, hat.chunks, hat.firsts, hchunk]
    · obtain ⟨d, hT, hD, hTlen, hDlen⟩ := chunk_halves hat.here hroom
      have hchunks : (c.chunks.set (c.chunkFor cmp x) (chunk.take (chunkMax / 2))).insertIdx
          (c.chunkFor cmp x + 1) (chunk.drop (chunkMax / 2)) =
          pre ++ chunk.take (chunkMax / 2) :: chunk.drop (chunkMax / 2) :: post := by
        rw [← hat.place, hat.chunks, set_middle, insertIdx_middle]
      have hfirsts : c.firsts.insertIdx (c.chunkFor cmp x + 1) d = F ++ f :: d :: G := by
        rw [← hat.place, hat.firsts, hat.before.length_eq, insertIdx_middle]
      rw [if_neg hroom, hD.1]
      simp only [Option.pure_def, Option.bind_some, hchunks, hfirsts]
      obtain ⟨hhalf, -⟩ := chunkMax_half
      have hhalves := (List.take_append_drop (chunkMax / 2) chunk).trans hchunk
      generalize chunk.take (chunkMax / 2) = T at hT hTlen hhalves ⊢
      generalize chunk.drop (chunkMax / 2) = D at hD hDlen hhalves ⊢
      by_cases hpos : A.length ≤ chunkMax / 2
      · -- the entry goes into the first half
        obtain ⟨B', rfl, rfl⟩ : ∃ B', T = A ++ B' ∧ B = B' ++ D := by
          rcases List.append_eq_append_iff.mp hhalves with ⟨A', hA, hD'⟩ | ⟨B', hT', hB⟩
          · have hlen := congrArg List.length hA
            rw [List.length_append] at hlen
            have hnil : A' = [] := List.length_eq_zero_iff.mp (by omega)
            subst hnil
            exact ⟨[], by simpa using hA.symm, by simpa using hD'.symm⟩
          · exact ⟨B', hT', hB⟩
        have hput := put_result (x := x) h hat.before hT (.cons hD hat.after) (by omega)
          (by rw [hentries]; simp) hat.less
          (fun e he => by
            rw [List.flatten_cons] at he
            rcases List.mem_append.mp he with he | he
            · exact hhigh e (List.mem_append_right _ he)
            · exact hat.more e he)
          hlow (fun e he => hhigh e (List.mem_append_left _ he))
        refine ⟨_, true, ?_, hput.1, hput.2.1, by simp [hput.2.2]⟩
        rw [if_pos hpos, ← hat.place,
          List.getElem?_append_right (Nat.le_refl _), Nat.sub_self]
        rfl
      · -- the entry goes into the second half
        obtain ⟨A', rfl, rfl⟩ : ∃ A', A = T ++ A' ∧ D = A' ++ B := by
          rcases List.append_eq_append_iff.mp hhalves with ⟨A', hA, hD'⟩ | ⟨B', hT', hB⟩
          · exact ⟨A', hA, hD'⟩
          · have hlen := congrArg List.length hT'
            rw [List.length_append] at hlen
            omega
        rw [List.length_append] at hpos
        have hput := put_result h
          (List.rel_append hat.before (.cons hT .nil)) hD hat.after (by omega)
          (by rw [hentries]; simp)
          (fun e he => by
            rw [List.flatten_append] at he
            rcases List.mem_append.mp he with he | he
            · exact hat.less e he
            · exact hlow e (List.mem_append_left _ (by simpa using he)))
          hat.more (fun e he => hlow e (List.mem_append_right _ he)) hhigh
        refine ⟨_, true, ?_, hput.1, hput.2.1, by simp [hput.2.2]⟩
        have hplace : pre.length + 1 = (pre ++ [T]).length := by simp
        have hat' : (T ++ A').length - chunkMax / 2 = A'.length := by
          rw [List.length_append]
          omega
        rw [if_neg (by rw [List.length_append]; exact hpos), ← hat.place, hplace, hat',
          show pre ++ T :: (A' ++ B) :: post = (pre ++ [T]) ++ (A' ++ B) :: post by simp,
          show F ++ f :: d :: G = (F ++ [f]) ++ d :: G by simp,
          List.getElem?_append_right (Nat.le_refl _), Nat.sub_self]
        rfl

/-- **`insert` puts an entry in where it was not**, and says whether it did. -/
theorem insert_spec [Std.LawfulEqCmp cmp] (h : c.Good cmp) (x : α) :
    ∃ c' b, c.insert cmp x = some (c', b) ∧ c'.Good cmp ∧
      (∀ y, y ∈ c'.entries ↔ y = x ∨ y ∈ c.entries) ∧ (b = true ↔ x ∉ c.entries) := by
  cases hpast : c.past cmp x with
  | none =>
    -- no chunk is empty, so there is a last entry
    unfold past at hpast
    rcases List.eq_nil_or_concat c.chunks with hnone | ⟨init, l, hlast⟩
    · rw [hnone] at hpast
      cases hpast
    · rw [List.concat_eq_append] at hlast
      rw [hlast, List.getLast?_concat] at hpast
      have hmem : l ∈ c.chunks := by
        rw [hlast]
        simp
      obtain ⟨f, -, hl⟩ := mem_of_filled h.filled hmem
      obtain ⟨rest, rfl⟩ := hl.eq_cons
      simp at hpast
  | some b =>
    cases b with
    | true =>
      obtain ⟨c', hc', hgood, hmem, hnot⟩ := insert_past h hpast
      exact ⟨c', true, hc', hgood, hmem, by simp [hnot]⟩
    | false => exact insert_within h hpast

end Insert

/-! ## 6. An entry taken out, and chunks from a sorted list -/

section Remove

variable {cmp : α → α → Ordering} [Std.TransCmp cmp] {c : Chunked α} {x : α}

theorem eraseIdx_middle {β : Type} {pre post : List β} {a : β} :
    (pre ++ a :: post).eraseIdx pre.length = pre ++ post := by
  induction pre with
  | nil => rfl
  | cons e pre ih => rw [List.cons_append, List.length_cons, List.eraseIdx_cons_succ, ih]; rfl

/-- Where a search finds a map's key is where it and its value go out of their places. -/
theorem search_erase (m : OrdMap α) (k : Nat) :
    (∃ i, search compare m.keys k = .ok i ∧ (m.erase k).keys = m.keys.eraseIdx i ∧
      (m.erase k).entries.map (·.2) = (m.entries.map (·.2)).eraseIdx i) ∨
    (∃ i, search compare m.keys k = .error i ∧ m.erase k = m) := by
  rcases search_keys m k with ⟨A, w, B, hentries, hsearch, hA, hB⟩ |
      ⟨A, B, hentries, hsearch, hA, hB⟩
  · have hput : (m.entries.filter fun e => e.1 != k) = A ++ B := by
      rw [hentries, List.filter_append, List.filter_cons_of_neg (by simp),
        OrdMap.filter_ne_of_lt hA, OrdMap.filter_ne_of_gt hB]
    have herased : (m.erase k).entries = A ++ B := hput
    have hlen : ∀ {β : Type} (f : Nat × α → β), A.length = (A.map f).length := fun f =>
      (List.length_map f).symm
    refine .inl ⟨A.length, hsearch, ?_, ?_⟩
    · rw [OrdMap.keys, OrdMap.keys, herased, hentries, List.map_append, List.map_append,
        hlen (·.1)]
      exact eraseIdx_middle.symm
    · rw [herased, hentries, List.map_append, List.map_append, hlen (·.2)]
      exact eraseIdx_middle.symm
  · have hput : (m.entries.filter fun e => e.1 != k) = m.entries := by
      rw [hentries, List.filter_append, OrdMap.filter_ne_of_lt hA, OrdMap.filter_ne_of_gt hB]
    exact .inr ⟨A.length, hsearch, OrdMap.ext hput⟩

/-- **`remove` takes an entry out where it was**, and says whether it did. -/
theorem remove_spec [Std.LawfulEqCmp cmp] (h : c.Good cmp) (x : α) :
    ∃ c' b, c.remove cmp x = some (c', b) ∧ c'.Good cmp ∧
      (∀ y, y ∈ c'.entries ↔ y ≠ x ∧ y ∈ c.entries) ∧ (b = true ↔ x ∈ c.entries) := by
  unfold remove
  by_cases hempty : c.chunks.isEmpty = true
  · have hnil : c.entries = [] := by rw [entries, List.isEmpty_iff.mp hempty]; rfl
    refine ⟨c, false, by rw [if_pos hempty]; rfl, h, fun y => ?_, ?_⟩
    · rw [hnil]
      simp
    · rw [hnil]
      simp
  have hne : c.chunks ≠ [] := fun hnil => hempty (by rw [hnil]; rfl)
  obtain ⟨pre, chunk, post, F, f, G, hat⟩ := h.at hne x
  have hentries : c.entries = pre.flatten ++ chunk ++ post.flatten := by
    rw [entries, hat.chunks]
    simp
  have hself : cmp x x = .eq := Std.ReflCmp.compare_self
  have hsorted := h.sorted
  rw [hentries] at hsorted
  have hchunkSorted := (List.pairwise_append.mp (List.pairwise_append.mp hsorted).1).2.1
  rw [if_neg hempty]
  simp only [Option.bind_eq_bind, hat.getElem, Option.bind_some]
  rcases search_spec hchunkSorted x with
    ⟨A, e, B, hchunk, hfound, heq⟩ | ⟨A, B, hchunk, hfound, hlow, hhigh⟩
  · obtain rfl := Std.LawfulEqCmp.eq_of_compare heq
    rw [hfound, hchunk]
    dsimp only
    rw [eraseIdx_middle]
    rw [hchunk] at hentries
    have hout : c.entries = (pre.flatten ++ A) ++ e :: (B ++ post.flatten) := by
      rw [hentries]
      simp
    -- what is left of the chunks, whatever they are, holds the others
    have hrest : ∀ c' : Chunked α, List.Forall₂ Chunk c'.chunks c'.firsts →
        c'.entries = (pre.flatten ++ A) ++ (B ++ post.flatten) → c'.len = c.len - 1 →
        c'.Good cmp ∧ (∀ y, y ∈ c'.entries ↔ y ≠ e ∧ y ∈ c.entries) ∧
          (true = true ↔ e ∈ c.entries) := by
      intro c' hfilled hc' hlen
      have hs := h.sorted
      rw [hout] at hs
      have hnone : e ∉ c'.entries := by
        rw [hc']
        intro hmem
        obtain ⟨-, hafter, hacross⟩ := List.pairwise_append.mp hs
        rcases List.mem_append.mp hmem with hmem | hmem
        · exact absurd ((hacross e hmem e List.mem_cons_self).symm.trans hself) (by decide)
        · exact absurd (((List.pairwise_cons.mp hafter).1 e hmem).symm.trans hself) (by decide)
      refine ⟨⟨hfilled, ?_, ?_⟩, fun y => ⟨fun hy => ⟨?_, ?_⟩, fun ⟨hy, hmem⟩ => ?_⟩, ?_⟩
      · rw [hc']
        exact hs.sublist (List.Sublist.append_left (List.sublist_cons_self _ _) _)
      · rw [hlen, h.len, hout, hc']
        simp only [List.length_append, List.length_cons]
        omega
      · rintro rfl
        exact hnone hy
      · rw [hout]
        rw [hc'] at hy
        exact (List.Sublist.append_left (List.sublist_cons_self _ _) _).subset hy
      · rw [hc']
        rw [hout] at hmem
        simp only [List.mem_append, List.mem_cons] at hmem ⊢
        tauto
      · rw [hout]
        simp
    have hhere := hat.here
    rw [hchunk] at hhere
    cases hhead : (A ++ B).head? with
    | none =>
      have hnil := List.head?_eq_none_iff.mp hhead
      obtain ⟨rfl, rfl⟩ := List.append_eq_nil_iff.mp hnil
      refine ⟨⟨pre ++ post, F ++ G, c.len - 1⟩, true, ?_, hrest _ ?_ ?_ rfl⟩
      · rw [← hat.place, hat.chunks, hat.firsts, eraseIdx_middle, hat.before.length_eq,
          eraseIdx_middle]
        rfl
      · exact List.rel_append hat.before hat.after
      · simp [entries]
    | some g =>
      have hshort : (A ++ B).length ≤ chunkMax := by
        have hle := hhere.2
        simp only [List.length_append, List.length_cons] at hle ⊢
        omega
      refine ⟨⟨pre ++ (A ++ B) :: post, F ++ g :: G, c.len - 1⟩, true, ?_, hrest _ ?_ ?_ rfl⟩
      · rw [← hat.place, hat.chunks, hat.firsts, set_middle]
        dsimp only
        cases A with
        | nil =>
          rw [hat.before.length_eq, if_pos List.length_nil, set_middle]
          rfl
        | cons a A =>
          -- the first entry stays
          have hfirst : f = g := by
            have hf := hhere.1
            rw [List.cons_append, List.head?_cons] at hf hhead
            exact (Option.some.inj hf).symm.trans (Option.some.inj hhead)
          rw [if_neg (by simp), hfirst]
          rfl
      · exact List.rel_append hat.before (.cons ⟨hhead, hshort⟩ hat.after)
      · simp [entries]
  · -- it is not there
    rw [hfound]
    have hnot : x ∉ c.entries := by
      rw [hentries, hchunk]
      intro hmem
      simp only [List.mem_append] at hmem
      rcases hmem with (hmem | hmem | hmem) | hmem
      · exact absurd ((hat.less x hmem).symm.trans hself) (by decide)
      · exact absurd ((hlow x hmem).symm.trans hself) (by decide)
      · exact absurd ((hhigh x hmem).symm.trans hself) (by decide)
      · exact absurd ((hat.more x hmem).symm.trans hself) (by decide)
    refine ⟨c, false, rfl, h, fun y => ⟨fun hy => ⟨?_, hy⟩, fun hy => hy.2⟩, by simp [hnot]⟩
    rintro rfl
    exact hnot hy

omit [Std.TransCmp cmp] in
theorem new_good : (new : Chunked α).Good cmp := ⟨.nil, .nil, rfl⟩

theorem halves_flatten : ∀ (n : Nat) (v : List α), v.length ≤ n → (halves n v).flatten = v := by
  intro n
  induction n with
  | zero =>
    intro v hv
    rw [List.length_eq_zero_iff.mp (by omega : v.length = 0)]
    rfl
  | succ n ih =>
    intro v hv
    have hcut := List.take_append_drop (chunkMax / 2) v
    rw [halves]
    cases htake : v.take (chunkMax / 2) with
    | nil =>
      have hnil : v = [] := by
        rcases List.take_eq_nil_iff.mp htake with h | h
        · exact absurd h (by decide)
        · exact h
      rw [hnil]
      rfl
    | cons e chunk =>
      have hpos : 0 < chunkMax / 2 := by decide
      have hlen : v ≠ [] := by
        rintro rfl
        simp at htake
      have hvpos := List.length_pos_iff.mpr hlen
      dsimp only
      rw [List.flatten_cons, ih _ (by rw [List.length_drop]; omega), ← htake, hcut]

theorem halves_filled : ∀ (n : Nat) (v : List α),
    List.Forall₂ Chunk (halves n v) ((halves n v).filterMap List.head?) := by
  intro n
  induction n with
  | zero => exact fun _ => .nil
  | succ n ih =>
    intro v
    rw [halves]
    cases htake : v.take (chunkMax / 2) with
    | nil => exact .nil
    | cons e chunk =>
      have hle : (e :: chunk).length ≤ chunkMax := by
        rw [← htake, List.length_take]
        have := chunkMax_half.1
        omega
      dsimp only
      rw [List.filterMap_cons_some List.head?_cons]
      exact .cons ⟨rfl, hle⟩ (ih _)

omit [Std.TransCmp cmp] in
/-- **Chunks from a sorted list hold it.** -/
theorem fromSorted_good {v : List α} (h : Sorted cmp v) :
    (fromSorted v).Good cmp ∧ (fromSorted v).entries = v := by
  have hentries : (fromSorted v).entries = v := halves_flatten _ v (Nat.le_refl _)
  exact ⟨⟨halves_filled _ v, by rwa [hentries], by rw [hentries]; rfl⟩, hentries⟩

end Remove

/-! ## 7. Places -/

section Places

variable {cmp : α → α → Ordering} {c : Chunked α} {chunks : List (List α)} {a b : Nat × Nat}
variable {n m : Nat}

/-- **A place and the entries before it**: in a chunk, or past the last of them. -/
def Place (chunks : List (List α)) (a : Nat × Nat) (n : Nat) : Prop :=
  ∃ pre rest, chunks = pre ++ rest ∧ a.1 = pre.length ∧ n = pre.flatten.length + a.2 ∧
    ((rest = [] ∧ a.2 = 0) ∨ ∃ chunk post, rest = chunk :: post ∧ a.2 < chunk.length)

/-- The start of the chunks. -/
theorem place_start (h : ∀ chunk ∈ chunks, chunk ≠ []) : Place chunks (0, 0) 0 := by
  refine ⟨[], chunks, rfl, rfl, rfl, ?_⟩
  cases chunks with
  | nil => exact .inl ⟨rfl, rfl⟩
  | cons chunk post =>
    have hne := h chunk List.mem_cons_self
    exact .inr ⟨chunk, post, rfl, List.length_pos_iff.mpr hne⟩

/-- The end of the chunks. -/
theorem place_stop (chunks : List (List α)) :
    Place chunks (chunks.length, 0) chunks.flatten.length :=
  ⟨chunks, [], (List.append_nil _).symm, rfl, rfl, .inl ⟨rfl, rfl⟩⟩

/-- The place after some chunks. -/
theorem place_after {pre post : List (List α)} (h : ∀ chunk ∈ post, chunk ≠ []) :
    Place (pre ++ post) (pre.length, 0) pre.flatten.length := by
  refine ⟨pre, post, rfl, rfl, rfl, ?_⟩
  cases post with
  | nil => exact .inl ⟨rfl, rfl⟩
  | cons chunk post =>
    have hne := h chunk List.mem_cons_self
    exact .inr ⟨chunk, post, rfl, List.length_pos_iff.mpr hne⟩

theorem Good.ne_nil (h : c.Good cmp) : ∀ chunk ∈ c.chunks, chunk ≠ [] := by
  intro chunk hchunk
  obtain ⟨f, -, hf⟩ := mem_of_filled h.filled hchunk
  obtain ⟨rest, rfl⟩ := hf.eq_cons
  exact List.cons_ne_nil _ _

/-- **Where two places are**: one before the other, or in one chunk. -/
theorem places_apart (ha : Place chunks a n) (hb : Place chunks b m) (h : a.1 < b.1) :
    ∃ pre chunk mid post, chunks = pre ++ chunk :: (mid ++ post) ∧ a.1 = pre.length ∧
      b.1 = pre.length + 1 + mid.length ∧ a.2 < chunk.length ∧ n = pre.flatten.length + a.2 ∧
      m = pre.flatten.length + chunk.length + mid.flatten.length + b.2 ∧
      ((post = [] ∧ b.2 = 0) ∨ ∃ last rest, post = last :: rest ∧ b.2 < last.length) := by
  obtain ⟨pre, rest, hchunks, hat, hn, hrest⟩ := ha
  obtain ⟨pre', post, hchunks', hat', hm, hpost⟩ := hb
  -- the one's chunks start the other's
  have hstart : ∃ mid, pre' = pre ++ mid := by
    have hp : pre <+: chunks := ⟨rest, hchunks.symm⟩
    have hp' : pre' <+: chunks := ⟨post, hchunks'.symm⟩
    obtain ⟨mid, hmid⟩ := List.prefix_of_prefix_length_le hp hp' (by omega)
    exact ⟨mid, hmid.symm⟩
  obtain ⟨mid, rfl⟩ := hstart
  rw [List.length_append] at hat'
  have hcut : rest = mid ++ post := by
    rw [hchunks, List.append_assoc] at hchunks'
    exact List.append_cancel_left hchunks'
  rcases hrest with ⟨hnil, -⟩ | ⟨chunk, post', hcons, hlt⟩
  · rw [hcut] at hnil
    rw [(List.append_eq_nil_iff.mp hnil).1, List.length_nil] at hat'
    omega
  · cases mid with
    | nil =>
      rw [List.length_nil] at hat'
      omega
    | cons first mid =>
      rw [hcut, List.cons_append] at hcons
      obtain ⟨rfl, -⟩ := List.cons.inj hcons
      refine ⟨pre, first, mid, post, ?_, hat, ?_, hlt, hn, ?_, hpost⟩
      · rw [hchunks, hcut, List.cons_append]
      · rw [hat', List.length_cons]
        omega
      · rw [hm, List.flatten_append, List.flatten_cons, List.length_append, List.length_append]
        omega

theorem places_together (ha : Place chunks a n) (hb : Place chunks b m) (h : a.1 = b.1) :
    ∃ pre rest, chunks = pre ++ rest ∧ a.1 = pre.length ∧ n = pre.flatten.length + a.2 ∧
      m = pre.flatten.length + b.2 ∧ ((rest = [] ∧ a.2 = 0 ∧ b.2 = 0) ∨
        ∃ chunk post, rest = chunk :: post ∧ a.2 < chunk.length ∧ b.2 < chunk.length) := by
  obtain ⟨pre, rest, hchunks, hat, hn, hrest⟩ := ha
  obtain ⟨pre', rest', hchunks', hat', hm, hrest'⟩ := hb
  obtain ⟨rfl, rfl⟩ : pre = pre' ∧ rest = rest' :=
    List.append_inj (hchunks.symm.trans hchunks') (by omega)
  refine ⟨pre, rest, hchunks, hat, hn, hm, ?_⟩
  rcases hrest with ⟨hnil, ha⟩ | ⟨chunk, post, hcons, ha⟩
  · rcases hrest' with ⟨-, hb⟩ | ⟨chunk, post, hcons, -⟩
    · exact .inl ⟨hnil, ha, hb⟩
    · rw [hnil] at hcons
      cases hcons
  · rcases hrest' with ⟨hnil, -⟩ | ⟨chunk', post', hcons', hb⟩
    · rw [hnil] at hcons
      cases hcons
    · rw [hcons] at hcons'
      obtain ⟨rfl, -⟩ := List.cons.inj hcons'
      exact .inr ⟨chunk, post, hcons, ha, hb⟩

/-- **`between` is how many entries lie between two places.** -/
theorem between_eq (ha : Place c.chunks a n) (hb : Place c.chunks b m) :
    c.between a b = some (m - n) := by
  unfold between
  rcases Nat.lt_trichotomy a.1 b.1 with hlt | heq | hgt
  · obtain ⟨pre, chunk, mid, post, hchunks, hat, hbt, hin, rfl, rfl, hpost⟩ :=
      places_apart ha hb hlt
    have hlen : b.1 ≤ c.chunks.length := by
      rw [hchunks, hbt]
      simp only [List.length_append, List.length_cons]
      omega
    have hget : c.chunks[a.1]? = some chunk := by
      rw [hchunks, hat, List.getElem?_append_right (Nat.le_refl _), Nat.sub_self]
      rfl
    have hwhole : (c.chunks.take b.1).drop (a.1 + 1) = mid := by
      have hcut : c.chunks = (pre ++ [chunk]) ++ (mid ++ post) := by
        rw [hchunks]
        simp
      have hfirst : a.1 + 1 = (pre ++ [chunk]).length := by
        rw [hat]
        simp
      have hlast : b.1 - (a.1 + 1) = mid.length := by omega
      rw [List.drop_take, hlast, hcut, hfirst, List.drop_left, List.take_left]
    rw [if_neg (by omega), if_neg (by omega), if_neg (by omega)]
    simp only [hget, hwhole, Option.bind_eq_bind, Option.bind_some]
    have hfold : ∀ (l : List (List α)) (k : Nat),
        l.foldl (fun n chunk => n + chunk.length) k = k + l.flatten.length := by
      intro l
      induction l with
      | nil => exact fun k => rfl
      | cons e l ih =>
        intro k
        rw [List.foldl_cons, ih, List.flatten_cons, List.length_append, Nat.add_assoc]
    rw [hfold]
    refine congrArg some ?_
    omega
  · obtain ⟨pre, rest, -, -, rfl, rfl, hrest⟩ := places_together ha hb heq
    by_cases hle : b.2 ≤ a.2
    · rw [if_pos (.inr ⟨heq.symm, hle⟩)]
      refine congrArg some ?_
      omega
    · rw [if_neg (by omega), if_pos heq]
      refine congrArg some ?_
      omega
  · obtain ⟨pre, chunk, mid, post, -, -, -, hin, rfl, rfl, -⟩ := places_apart hb ha hgt
    rw [if_pos (.inl hgt)]
    refine congrArg some ?_
    omega

theorem takeWhile_middle {p : α → Bool} {A B C : List α} (h : Leads p (A ++ B ++ C))
    (hA : ∀ e ∈ A, p e = true) (hC : ∀ e ∈ C, p e = false) :
    (A ++ B ++ C).takeWhile p = A ++ B.takeWhile p := by
  have hB : Leads p B := (List.pairwise_append.mp (List.pairwise_append.mp h).1).2.1
  have hnone : C.filter p = [] := List.filter_eq_nil_iff.mpr fun e he => by simp [hC e he]
  rw [h.takeWhile_eq, hB.takeWhile_eq, List.filter_append, List.filter_append,
    List.filter_eq_self.mpr hA, hnone, List.append_nil]

/-- **A search over the chunks finds the place a search over the entries does.** -/
theorem seek_spec [Std.TransCmp cmp] (h : c.Good cmp) (x : α) (past : Bool) :
    ∃ p, c.seek cmp x past = some p ∧ Place c.chunks p (Lib.seek cmp c.entries x past) := by
  have hleads := leads_below h.sorted x past
  have hcut := List.takeWhile_append_dropWhile (p := below cmp x past) (l := c.firsts)
  have hfirsts := leads_below (sorted_firsts h.filled h.sorted) x past
  have hdrop : ∀ g ∈ c.firsts.dropWhile (below cmp x past), below cmp x past g = false := by
    intro g hg
    rw [hfirsts.dropWhile_eq] at hg
    simpa using (List.mem_filter.mp hg).2
  -- no entry of a chunk whose first is not below is below
  have hnone : ∀ {post : List (List α)} {G : List α}, List.Forall₂ Chunk post G →
      (∀ g ∈ G, below cmp x past g = false) → Leads (below cmp x past) post.flatten →
      ∀ e ∈ post.flatten, below cmp x past e = false := by
    intro post G hpost hG hlead
    cases hpost with
    | nil => intro e he; cases he
    | cons hcf hrest =>
      obtain ⟨rest, rfl⟩ := hcf.eq_cons
      exact hlead.false_of_head (hG _ List.mem_cons_self)
  unfold seek partitionPoint
  rcases List.eq_nil_or_concat (c.firsts.takeWhile (below cmp x past)) with hnil | ⟨F, f, hlast⟩
  · rw [hnil, List.nil_append] at hcut
    rw [hcut] at hdrop
    have hall := hnone h.filled hdrop hleads
    have hzero : Lib.seek cmp c.entries x past = 0 := by
      rw [Lib.seek, hleads.takeWhile_eq, List.filter_eq_nil_iff.mpr, List.length_nil]
      intro e he
      rw [hall e he]
      decide
    rw [hnil, hzero]
    exact ⟨(0, 0), rfl, place_start h.ne_nil⟩
  · rw [List.concat_eq_append] at hlast
    have hf : below cmp x past f = true := by
      have hmem : f ∈ c.firsts.takeWhile (below cmp x past) := by
        rw [hlast]
        simp
      rw [hfirsts.takeWhile_eq] at hmem
      exact (List.mem_filter.mp hmem).2
    rw [hlast, List.append_assoc] at hcut
    have hfilled := h.filled
    rw [← hcut] at hfilled
    obtain ⟨pre, rest, hchunks, hpre, hrest⟩ := filled_append_firsts hfilled
    obtain ⟨chunk, post, hhere, hpost, rfl⟩ := List.forall₂_cons_right_iff.mp hrest
    have hentries : c.entries = pre.flatten ++ chunk ++ post.flatten := by
      rw [entries, hchunks]
      simp
    rw [hentries] at hleads
    have hseek : Lib.seek cmp c.entries x past =
        pre.flatten.length + (chunk.takeWhile (below cmp x past)).length := by
      obtain ⟨tail, hchunk⟩ := hhere.eq_cons
      have hlow : ∀ e ∈ pre.flatten, below cmp x past e = true := by
        intro e he
        have hpair := (List.pairwise_append.mp (List.pairwise_append.mp hleads).1).2.2
        exact hpair e he f (by rw [hchunk]; exact List.mem_cons_self) hf
      have hhigh := hnone hpost hdrop (List.pairwise_append.mp hleads).2.1
      rw [Lib.seek, hentries, takeWhile_middle hleads hlow hhigh, List.length_append]
    have hget : c.chunks[F.length]? = some chunk := by
      rw [hchunks, ← hpre.length_eq, List.getElem?_append_right (Nat.le_refl _), Nat.sub_self]
      rfl
    rw [hlast, List.length_append, List.length_singleton, hseek]
    dsimp only
    simp only [hget, Option.bind_eq_bind, Option.bind_some]
    refine ⟨_, rfl, ?_⟩
    by_cases hend : (chunk.takeWhile (below cmp x past)).length = chunk.length
    · -- past all of the chunk, so where the next one starts
      have hne : ∀ chunk ∈ post, chunk ≠ [] := by
        intro chunk hchunk
        refine h.ne_nil chunk ?_
        rw [hchunks]
        exact List.mem_append_right _ (List.mem_cons_of_mem _ hchunk)
      have hplace : Place (pre ++ [chunk] ++ post) ((pre ++ [chunk]).length, 0) _ :=
        place_after hne
      rw [if_pos hend, hend, hchunks, ← hpre.length_eq]
      simpa using hplace
    · have hle := (List.takeWhile_prefix (l := chunk) (below cmp x past)).length_le
      rw [if_neg hend, ← hpre.length_eq]
      exact ⟨pre, chunk :: post, hchunks, rfl, rfl, .inr ⟨chunk, post, rfl, by dsimp only; omega⟩⟩

theorem startOf_spec [Std.TransCmp cmp] (h : c.Good cmp) (lo : Bound α) :
    ∃ p, c.startOf cmp lo = some p ∧ Place c.chunks p (Lib.startOf cmp c.entries lo) := by
  cases lo with
  | included x => exact seek_spec h x false
  | excluded x => exact seek_spec h x true
  | unbounded => exact ⟨(0, 0), rfl, place_start h.ne_nil⟩

theorem stopOf_spec [Std.TransCmp cmp] (h : c.Good cmp) (hi : Bound α) :
    ∃ p, c.stopOf cmp hi = some p ∧ Place c.chunks p (Lib.stopOf cmp c.entries hi) := by
  cases hi with
  | included x => exact seek_spec h x true
  | excluded x => exact seek_spec h x false
  | unbounded => exact ⟨(c.chunks.length, 0), rfl, place_stop _⟩

/-- **What a count within bounds is.** -/
theorem countWithin_spec [Std.TransCmp cmp] (h : c.Good cmp) (lo hi : Bound α) :
    c.countWithin cmp lo hi = some (Lib.range cmp lo hi c.entries).length := by
  obtain ⟨a, hstart, ha⟩ := startOf_spec h lo
  obtain ⟨b, hstop, hb⟩ := stopOf_spec h hi
  rw [← Lib.countWithin_eq, Lib.countWithin, ← between_eq ha hb]
  unfold countWithin
  rw [hstart, hstop]
  rfl

/-- **What a count from one entry up to another is.** -/
theorem count_spec [Std.TransCmp cmp] (h : c.Good cmp) (lo hi : α) :
    c.count cmp lo hi =
      some (Lib.range cmp (.included lo) (.excluded hi) c.entries).length :=
  countWithin_spec h (.included lo) (.excluded hi)

/-! ## 8. Ranges -/

/-- A range's parts, chunk after chunk. -/
abbrev Parts (c : Chunked α) (a b : Nat × Nat) : List Nat → List (List α) → Prop :=
  List.Forall₂ fun ci part => c.slice a b ci = some part

theorem Parts.mapM {l : List Nat} {parts : List (List α)} (h : c.Parts a b l parts) :
    l.mapM (c.slice a b) = some parts := by
  induction h with
  | nil => rfl
  | cons hpart _ ih => simp only [List.mapM_cons, hpart, ih, Option.pure_def, Option.bind_eq_bind,
      Option.bind_some]

theorem slice_eq {ci s t : Nat} {chunk : List α} (hget : c.chunks[ci]? = some chunk)
    (hs : (if ci = a.1 then a.2 else 0) = s) (ht : (if ci = b.1 then b.2 else chunk.length) = t)
    (hle : t ≤ chunk.length) : c.slice a b ci = some ((chunk.take t).drop (min s t)) := by
  unfold slice
  simp only [hget, Option.bind_eq_bind, Option.bind_some, hs, ht]
  rw [if_pos hle]
  rfl

/-- The chunks between the two ends are taken whole. -/
theorem parts_between {pre mid post : List (List α)} (hchunks : c.chunks = pre ++ mid ++ post)
    (ha : a.1 < pre.length) (hb : pre.length + mid.length ≤ b.1) :
    c.Parts a b (List.range' pre.length mid.length) mid := by
  induction mid generalizing pre with
  | nil => exact .nil
  | cons chunk mid ih =>
    rw [List.length_cons] at hb
    rw [List.length_cons, List.range'_succ]
    constructor
    · have hget : c.chunks[pre.length]? = some chunk := by
        rw [hchunks, List.append_assoc, List.getElem?_append_right (Nat.le_refl _), Nat.sub_self]
        rfl
      rw [slice_eq hget (if_neg (by omega)) (if_neg (by omega)) (Nat.le_refl _), Nat.zero_min,
        List.take_length]
      rfl
    · have hnext := @ih (pre ++ [chunk]) (by simpa using hchunks)
        (by rw [List.length_append]; omega)
        (by rw [List.length_append, List.length_singleton]; omega)
      rwa [List.length_append, List.length_singleton] at hnext

/-- The parts of a range over more chunks than one. -/
theorem parts_across (ha : Place c.chunks a n) (hb : Place c.chunks b m) (h : a.1 < b.1) :
    ∃ parts, c.Parts a b (spanned a b) parts ∧ parts.flatten = (c.entries.take m).drop n := by
  obtain ⟨pre, chunk, mid, post, hchunks, hat, hbt, hin, rfl, rfl, hpost⟩ := places_apart ha hb h
  have hfirst : c.slice a b a.1 = some (chunk.drop a.2) := by
    have hget : c.chunks[a.1]? = some chunk := by
      rw [hchunks, hat, List.getElem?_append_right (Nat.le_refl _), Nat.sub_self]
      rfl
    rw [slice_eq hget (if_pos rfl) (if_neg (by omega)) (Nat.le_refl _),
      Nat.min_eq_left (by omega), List.take_length]
  have hmid : c.Parts a b (List.range' (a.1 + 1) mid.length) mid := by
    have hbetween : c.Parts a b (List.range' (pre ++ [chunk]).length mid.length) mid :=
      parts_between (by simpa using hchunks) (by rw [List.length_append]; simp; omega)
        (by rw [List.length_append]; simp; omega)
    rwa [List.length_append, List.length_singleton, ← hat] at hbetween
  have hentries : c.entries = pre.flatten ++ (chunk ++ (mid.flatten ++ post.flatten)) := by
    rw [entries, hchunks]
    simp
  -- the entries between the places, up to the last chunk's
  have hcut : (c.entries.take (pre.flatten.length + chunk.length + mid.flatten.length + b.2)).drop
      (pre.flatten.length + a.2) = chunk.drop a.2 ++ (mid.flatten ++ post.flatten.take b.2) := by
    rw [hentries, Nat.add_assoc, Nat.add_assoc, List.take_length_add_append,
      List.take_length_add_append, List.take_length_add_append, List.drop_length_add_append,
      List.drop_append_of_le_length (Nat.le_of_lt hin)]
  rw [hcut]
  rcases hpost with ⟨rfl, hzero⟩ | ⟨last, rest, rfl, hlast⟩
  · refine ⟨chunk.drop a.2 :: mid, ?_, by simp [hzero]⟩
    have hspan : max b.1 a.1 - a.1 = mid.length + 1 := by omega
    rw [spanned, if_pos hzero, hspan, List.range'_succ]
    exact .cons hfirst hmid
  · by_cases hzero : b.2 = 0
    · refine ⟨chunk.drop a.2 :: mid, ?_, by simp [hzero]⟩
      have hspan : max b.1 a.1 - a.1 = mid.length + 1 := by omega
      rw [spanned, if_pos hzero, hspan, List.range'_succ]
      exact .cons hfirst hmid
    · refine ⟨chunk.drop a.2 :: (mid ++ [last.take b.2]), ?_, ?_⟩
      · have hspan : max (b.1 + 1) a.1 - a.1 = mid.length + 1 + 1 := by omega
        rw [spanned, if_neg hzero, hspan, List.range'_succ, List.range'_concat]
        refine .cons hfirst (List.rel_append hmid (.cons ?_ .nil))
        have hat' : a.1 + 1 + 1 * mid.length = b.1 := by omega
        have hget : c.chunks[b.1]? = some last := by
          have hchunks' : c.chunks = (pre ++ chunk :: mid) ++ last :: rest := by
            rw [hchunks]
            simp
          have hlen : b.1 = (pre ++ chunk :: mid).length := by
            rw [hbt, List.length_append, List.length_cons]
            omega
          rw [hchunks', hlen, List.getElem?_append_right (Nat.le_refl _), Nat.sub_self]
          rfl
        rw [hat', slice_eq hget (if_neg (by omega)) (if_pos rfl) (Nat.le_of_lt hlast),
          Nat.zero_min]
        rfl
      · rw [List.flatten_cons, List.flatten_append, List.flatten_singleton, List.flatten_cons,
          List.take_append_of_le_length (Nat.le_of_lt hlast)]

/-- The parts of a range in one chunk. -/
theorem parts_within (ha : Place c.chunks a n) (hb : Place c.chunks b m) (h : a.1 = b.1) :
    ∃ parts, c.Parts a b (spanned a b) parts ∧ parts.flatten = (c.entries.take m).drop n := by
  obtain ⟨pre, rest, hchunks, hat, rfl, rfl, hrest⟩ := places_together ha hb h
  by_cases hzero : b.2 = 0
  · refine ⟨[], ?_, ?_⟩
    · have hspan : max b.1 a.1 - a.1 = 0 := by omega
      rw [spanned, if_pos hzero, hspan]
      exact .nil
    · rw [List.drop_eq_nil_of_le]
      · rfl
      · rw [List.length_take]
        omega
  · rcases hrest with ⟨-, -, hnone⟩ | ⟨chunk, post, rfl, hina, hinb⟩
    · exact absurd hnone hzero
    · refine ⟨[(chunk.take b.2).drop (min a.2 b.2)], ?_, ?_⟩
      · have hspan : max (b.1 + 1) a.1 - a.1 = 1 := by omega
        rw [spanned, if_neg hzero, hspan, List.range'_succ]
        refine .cons ?_ .nil
        have hget : c.chunks[a.1]? = some chunk := by
          rw [hchunks, hat, List.getElem?_append_right (Nat.le_refl _), Nat.sub_self]
          rfl
        exact slice_eq hget (if_pos rfl) (if_pos h) (Nat.le_of_lt hinb)
      · rw [List.flatten_singleton, entries, hchunks, List.flatten_append, List.flatten_cons,
          List.take_length_add_append, List.drop_length_add_append,
          List.take_append_of_le_length (Nat.le_of_lt hinb)]
        rcases Nat.le_total a.2 b.2 with hle | hle
        · rw [Nat.min_eq_left hle]
        · have hlen : (chunk.take b.2).length ≤ b.2 := List.length_take_le _ _
          rw [Nat.min_eq_right hle, List.drop_eq_nil_of_le hlen,
            List.drop_eq_nil_of_le (Nat.le_trans hlen hle)]

/-- **The parts of a range are the entries between its places.** -/
theorem parts_spec (ha : Place c.chunks a n) (hb : Place c.chunks b m) :
    ∃ parts, c.Parts a b (spanned a b) parts ∧ parts.flatten = (c.entries.take m).drop n := by
  rcases Nat.lt_trichotomy a.1 b.1 with hlt | heq | hgt
  · exact parts_across ha hb hlt
  · exact parts_within ha hb heq
  · -- the bounds are the wrong way round
    obtain ⟨pre, chunk, mid, post, -, -, -, hin, rfl, rfl, -⟩ := places_apart hb ha hgt
    refine ⟨[], ?_, ?_⟩
    · have hspan : max (if b.2 = 0 then b.1 else b.1 + 1) a.1 - a.1 = 0 := by
        split <;> omega
      rw [spanned, hspan]
      exact .nil
    · rw [List.drop_eq_nil_of_le]
      · rfl
      · rw [List.length_take]
        omega

/-- **A range is what a search over the entries cuts out of them**, forwards and backwards. -/
theorem range_eq [Std.TransCmp cmp] (h : c.Good cmp) (lo hi : Bound α) :
    c.range cmp lo hi = some (Lib.range cmp lo hi c.entries) ∧
      c.rangeBack cmp lo hi = some (Lib.range cmp lo hi c.entries).reverse := by
  obtain ⟨a, hstart, ha⟩ := startOf_spec h lo
  obtain ⟨b, hstop, hb⟩ := stopOf_spec h hi
  obtain ⟨parts, hparts, hflat⟩ := parts_spec ha hb
  have hback : c.Parts a b (spanned a b).reverse parts.reverse := List.rel_reverse hparts
  constructor
  · unfold range
    simp only [hstart, hstop, hparts.mapM, Option.bind_eq_bind, Option.bind_some]
    rw [hflat]
    rfl
  · unfold rangeBack
    simp only [hstart, hstop, hback.mapM, Option.bind_eq_bind, Option.bind_some]
    rw [List.map_reverse, ← List.reverse_flatten, hflat]
    rfl

end Places

/-! ## 9. Runs of writes -/

/-- A write. -/
inductive Op (α : Type) where
  | insert (x : α)
  | remove (x : α)

section Runs

variable (cmp : α → α → Ordering)

/-- What a write does, and whether it says it changed anything. -/
def Op.write (c : Chunked α) : Op α → Option (Chunked α × Bool)
  | .insert x => c.insert cmp x
  | .remove x => c.remove cmp x

/-- One write of a run. -/
def step (c : Chunked α) (op : Op α) : Option (Chunked α) := (op.write cmp c).map Prod.fst

/-- What a write does to a set. -/
def Op.change (s : Set α) : Op α → Set α
  | .insert x => {x} ∪ s
  | .remove x => s \ {x}

/-- The entries put in and not since taken out. -/
def held (s : Set α) (ops : List (Op α)) : Set α := ops.foldl Op.change s

/-- The entries of a set within two bounds. -/
def within (lo hi : Bound α) (l : List α) : List α :=
  l.filter fun e => lo.above cmp e && hi.under cmp e

variable {cmp} [Std.TransCmp cmp] [Std.LawfulEqCmp cmp]

/-- **A write does to the entries what it does to a set**, and says whether that changed it. -/
theorem write_spec {c : Chunked α} (h : c.Good cmp) {s : Set α} (hs : ∀ e, e ∈ c.entries ↔ e ∈ s)
    (op : Op α) : ∃ c' changed, op.write cmp c = some (c', changed) ∧ c'.Good cmp ∧
      (∀ e, e ∈ c'.entries ↔ e ∈ op.change s) ∧ (changed = true ↔ op.change s ≠ s) := by
  cases op with
  | insert x =>
    obtain ⟨c', changed, hwrite, hgood, hmem, hchanged⟩ := insert_spec h x
    refine ⟨c', changed, hwrite, hgood, fun e => ?_, ?_⟩
    · rw [hmem, hs]
      rfl
    · rw [hchanged, hs, ne_eq, Op.change, Set.union_eq_right, Set.singleton_subset_iff]
  | remove x =>
    obtain ⟨c', changed, hwrite, hgood, hmem, hchanged⟩ := remove_spec h x
    refine ⟨c', changed, hwrite, hgood, fun e => ?_, ?_⟩
    · rw [hmem, hs, and_comm]
      rfl
    · rw [hchanged, hs, ne_eq, Op.change, sdiff_eq_left, Set.disjoint_singleton_right, not_not]

/-- **Every run of writes goes through**, to chunks of the entries it leaves. -/
theorem run_spec {c : Chunked α} {ops : List (Op α)} {s : Set α} (h : c.Good cmp)
    (hs : ∀ e, e ∈ c.entries ↔ e ∈ s) :
    ∃ c', Lib.run (step cmp) c ops = some c' ∧ c'.Good cmp ∧
      ∀ e, e ∈ c'.entries ↔ e ∈ held s ops := by
  induction ops generalizing c s with
  | nil => exact ⟨c, rfl, h, hs⟩
  | cons op ops ih =>
    obtain ⟨c₁, changed, hwrite, hgood, hmem, -⟩ := write_spec h hs op
    obtain ⟨c', hrun, hgood', hmem'⟩ := ih hgood hmem
    refine ⟨c', ?_, hgood', hmem'⟩
    rw [Lib.run, step, hwrite]
    exact hrun

omit [Std.TransCmp cmp] [Std.LawfulEqCmp cmp] in
theorem Good.chunks {c : Chunked α} (h : c.Good cmp) :
    (∀ chunk ∈ c.chunks, chunk ≠ [] ∧ chunk.length ≤ chunkMax) ∧
      c.chunks.map List.head? = c.firsts.map some := by
  refine ⟨fun chunk hchunk => ⟨h.ne_nil chunk hchunk, ?_⟩, ?_⟩
  · obtain ⟨f, -, hf⟩ := mem_of_filled h.filled hchunk
    exact hf.2
  · have hfilled := h.filled
    generalize c.chunks = chunks, c.firsts = firsts at hfilled
    induction hfilled with
    | nil => rfl
    | cons hcf _ ih => rw [List.map_cons, List.map_cons, hcf.1, ih]

/-- **`Chunked` is a sorted set**, whatever is put in and taken out. -/
theorem chunked_is_sorted_set {c₀ : Chunked α} {v : List α}
    (hstart : c₀ = new ∧ v = [] ∨ c₀ = fromSorted v ∧ Sorted cmp v) (ops : List (Op α)) :
    ∃ c, Lib.run (step cmp) c₀ ops = some c ∧
      (∀ chunk ∈ c.chunks, chunk ≠ [] ∧ chunk.length ≤ chunkMax) ∧
      c.chunks.map List.head? = c.firsts.map some ∧
      Sorted cmp c.entries ∧
      (∀ e, e ∈ c.entries ↔ e ∈ held {e | e ∈ v} ops) ∧
      c.len = c.entries.length ∧
      (∀ op, ∃ c' changed, op.write cmp c = some (c', changed) ∧
        (changed = true ↔ held {e | e ∈ v} (ops ++ [op]) ≠ held {e | e ∈ v} ops)) ∧
      (∀ lo hi, c.range cmp lo hi = some (within cmp lo hi c.entries) ∧
        c.rangeBack cmp lo hi = some (within cmp lo hi c.entries).reverse ∧
        c.countWithin cmp lo hi = some (within cmp lo hi c.entries).length) ∧
      ∀ lo hi, c.count cmp lo hi =
        some (within cmp (.included lo) (.excluded hi) c.entries).length := by
  have hgood₀ : c₀.Good cmp ∧ c₀.entries = v := by
    rcases hstart with ⟨rfl, rfl⟩ | ⟨rfl, hsorted⟩
    · exact ⟨new_good, rfl⟩
    · exact fromSorted_good hsorted
  have hheld₀ : ∀ e, e ∈ c₀.entries ↔ e ∈ {e | e ∈ v} := fun e => by rw [hgood₀.2]; rfl
  obtain ⟨c, hrun, hgood, hmem⟩ := run_spec hgood₀.1 hheld₀
  have hrange : ∀ lo hi, Lib.range cmp lo hi c.entries = within cmp lo hi c.entries :=
    fun lo hi => range_eq_filter hgood.sorted
  refine ⟨c, hrun, hgood.chunks.1, hgood.chunks.2, hgood.sorted, hmem, hgood.len, fun op => ?_,
    fun lo hi => ⟨?_, ?_, ?_⟩, fun lo hi => ?_⟩
  · obtain ⟨c', changed, hwrite, -, -, hchanged⟩ := write_spec hgood hmem op
    refine ⟨c', changed, hwrite, ?_⟩
    rw [hchanged, held, held, List.foldl_append]
    rfl
  · rw [(range_eq hgood lo hi).1, hrange]
  · rw [(range_eq hgood lo hi).2, hrange]
  · rw [countWithin_spec hgood, hrange]
  · rw [count_spec hgood, hrange]

/-- Chunks built from two entries, one more put in and one taken out. -/
theorem chunked_three_in_one_out :
    ∃ c, Lib.run (step compare) (fromSorted [1, 4]) [.insert 3, .remove 1] = some c ∧
      Sorted compare c.entries ∧ ∀ e : Nat, e ∈ c.entries ↔ e = 3 ∨ e = 4 := by
  have hsorted : Sorted (compare : Nat → Nat → Ordering) [1, 4] := by
    unfold Sorted
    decide
  obtain ⟨c, hrun, -, -, hc, hmem, -⟩ :=
    chunked_is_sorted_set (.inr ⟨rfl, hsorted⟩) [.insert 3, .remove 1]
  refine ⟨c, hrun, hc, fun e => (hmem e).trans ?_⟩
  simp only [held, List.foldl_cons, List.foldl_nil, Op.change, Set.mem_sdiff, Set.mem_union,
    Set.mem_singleton_iff, Set.mem_ofPred_eq, List.mem_cons, List.not_mem_nil]
  constructor
  · rintro ⟨rfl | rfl | rfl | h, hne⟩
    · exact .inl rfl
    · exact absurd rfl hne
    · exact .inr rfl
    · exact h.elim
  · rintro (rfl | rfl)
    · exact ⟨.inl rfl, by decide⟩
    · exact ⟨.inr (.inr (.inl rfl)), by decide⟩

end Runs

end Chunked

end Fenec
