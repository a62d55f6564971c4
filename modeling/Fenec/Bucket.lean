/-
# Hash buckets

The ids under one value of a `@hash` index, ascending and each once.  Up to 512 of them are one
list; past that they are runs of at most so many, every id of a run below every one of the next.
A full run an id falls in is cut in two, a run that is down to a quarter joins the next where the
two fit in one, and the last run left is a list again.

Each write returns the change in the bytes the bucket holds on the heap, counted where it changes
them: a list's bytes are its capacity's.  How far a list grows that is full is the allocator's and
left open here (`Heap.grow`); what is counted on is that a run made with room for 512 ids never
grows, which `Good` keeps.

`Added` and `Removed` say what a write does to the ids in order; from them come what the bucket
holds and that it stays ascending, and every path of `add` and `remove` is shown to be one of them.
-/
import Fenec.Chunked
import Mathlib.Data.List.TakeWhile
import Mathlib.Tactic.Ring

namespace Fenec

open Lib

/-- A `Vec`: what it holds, and what it has room for. -/
structure Vec (α : Type) where
  items : List α
  capacity : Nat

/-- What the bytes of a bucket hang on: the sizes of an id, a `Vec` and a `Runs`, and what a full
`Vec` of some capacity grows to for a length. -/
structure Heap where
  id : Nat
  vec : Nat
  runs : Nat
  grow : Nat → Nat → Nat

/-- `CHUNK`. -/
def runMax : Nat := 512

/-! ## 1. Writing -/

namespace Vec

variable {α : Type} (M : Heap)

/-- `Vec::new`. -/
def new : Vec α := ⟨[], 0⟩

/-- A `Vec` with other items, grown where it has no room for them. -/
def refill (v : Vec α) (items : List α) : Vec α :=
  ⟨items, if items.length ≤ v.capacity then v.capacity else M.grow v.capacity items.length⟩

/-- `Vec::push`. -/
def push (v : Vec α) (x : α) : Vec α := v.refill M (v.items ++ [x])

/-- `Vec::insert`. -/
def insert (v : Vec α) (i : Nat) (x : α) : Vec α := v.refill M (v.items.insertIdx i x)

/-- `Vec::extend_from_slice`. -/
def extend (v : Vec α) (more : List α) : Vec α := v.refill M (v.items ++ more)

/-- `Vec::remove`. -/
def remove (v : Vec α) (i : Nat) : Vec α := ⟨v.items.eraseIdx i, v.capacity⟩

/-- `Vec::truncate`. -/
def truncate (v : Vec α) (n : Nat) : Vec α := ⟨v.items.take n, v.capacity⟩

/-- An item replaced where it is. -/
def set (v : Vec α) (i : Nat) (x : α) : Vec α := ⟨v.items.set i x, v.capacity⟩

end Vec

/-- `Bucket`: one list, or runs and how many ids they hold. -/
inductive Bucket where
  | flat (v : Vec Nat)
  | runs (len : Nat) (runs : Vec (Vec Nat))

namespace Bucket

variable (M : Heap)

/-- `Bucket::default`. -/
def empty : Bucket := .flat .new

/-- `Bucket::len`. -/
def len : Bucket → Nat
  | .flat v => v.items.length
  | .runs len _ => len

/-- `Bucket::runs`. -/
def runsOf : Bucket → List (Vec Nat)
  | .flat v => [v]
  | .runs _ rs => rs.items

/-- `Ids::next`, and what is left. -/
def next : List (Vec Nat) → Nat → Option (Nat × List (Vec Nat) × Nat)
  | [], _ => none
  | run :: rest, at_ =>
    match run.items[at_]? with
    | some id => some (id, run :: rest, at_ + 1)
    | none => next rest 0

/-- The ids an iterator gives until it ends, so many at most. -/
def taken : Nat → List (Vec Nat) → Nat → List Nat
  | 0, _, _ => []
  | n + 1, rs, at_ =>
    match next rs at_ with
    | none => []
    | some (id, rs, at_) => id :: taken n rs at_

/-- **`Bucket::heap_bytes`.** -/
def heapBytes : Bucket → Nat
  | .flat v => v.capacity * M.id
  | .runs _ rs =>
    M.runs + rs.capacity * M.vec + (rs.items.map fun v => v.capacity * M.id).sum

/-- `run_of`. -/
def runOf (ids : List Nat) : Vec Nat := ⟨ids, runMax⟩

/-- `binary_search`. -/
abbrev search (l : List Nat) (id : Nat) : Except Nat Nat := Chunked.search compare l id

/-- `Runs::find`: the first run whose last id is not below the id, or the last. -/
def find (rs : List (Vec Nat)) (id : Nat) : Nat :=
  min (Chunked.partitionPoint (fun r => r.items.getLast?.any fun l => decide (l < id)) rs)
    (rs.length - 1)

/-- **`Runs::add`**, with the change in bytes, or nothing where an index is out of bounds. -/
def addRuns (len : Nat) (rs : Vec (Vec Nat)) (id : Nat) : Option (Bucket × Int) := do
  if rs.items.isEmpty then none
  let last := rs.items.length - 1
  let run ← rs.items[last]?
  if run.items.getLast?.all fun l => decide (l < id) then
    if run.items.length < runMax then
      pure (.runs (len + 1) (rs.set last (run.push M id)), 0)
    else
      let grown := rs.push M (runOf [id])
      pure (.runs (len + 1) grown,
        runMax * M.id + ((grown.capacity : Int) - rs.capacity) * M.vec)
  else
    let at_ := find rs.items id
    let run ← rs.items[at_]?
    match search run.items id with
    | .ok _ => pure (.runs len rs, 0)
    | .error i =>
      if run.items.length < runMax then
        pure (.runs (len + 1) (rs.set at_ (run.insert M i id)), 0)
      else
        -- a full run is cut in two, the id going in the half it falls in
        let tail := runOf (run.items.drop (runMax / 2))
        let run := run.truncate (runMax / 2)
        let (run, tail) :=
          if i ≤ runMax / 2 then (run.insert M i id, tail)
          else (run, tail.insert M (i - runMax / 2) id)
        let grown := (rs.set at_ run).insert M (at_ + 1) tail
        pure (.runs (len + 1) grown,
          runMax * M.id + ((grown.capacity : Int) - rs.capacity) * M.vec)

/-- A list an id was put in, with the change in bytes: past a run's size it is cut in two runs. -/
def regrown (v v' : Vec Nat) : Bucket × Int :=
  if runMax < v'.items.length then
    let b := Bucket.runs v'.items.length
      ⟨[runOf (v'.items.take (runMax / 2)), runOf (v'.items.drop (runMax / 2))], 2⟩
    (b, (heapBytes M b : Int) - v.capacity * M.id)
  else (.flat v', (v'.capacity : Int) * M.id - v.capacity * M.id)

/-- **`Bucket::add`**, with the change in bytes, or nothing where an index is out of bounds. -/
def add (b : Bucket) (id : Nat) : Option (Bucket × Int) :=
  match b with
  | .flat v =>
    match v.items.getLast? with
    | some l =>
      if id ≤ l then
        match search v.items id with
        | .ok _ => some (.flat v, 0)
        | .error i => some (regrown M v (v.insert M i id))
      else some (regrown M v (v.push M id))
    | none => some (regrown M v (v.push M id))
  | .runs len rs => addRuns M len rs id

/-- **`Runs::remove`**, with the change in bytes, or nothing where an index is out of bounds. -/
def removeRuns (len : Nat) (rs : Vec (Vec Nat)) (id : Nat) :
    Option (Nat × Vec (Vec Nat) × Int) := do
  if rs.items.isEmpty then none
  let at_ := find rs.items id
  let run ← rs.items[at_]?
  match search run.items id with
  | .error _ => pure (len, rs, 0)
  | .ok i =>
    let run := run.remove i
    let rs := rs.set at_ run
    let n := run.items.length
    if n = 0 then pure (len - 1, rs.remove at_, -((run.capacity : Int) * M.id))
    else if n < runMax / 4 ∧ at_ + 1 < rs.items.length then do
      let next ← rs.items[at_ + 1]?
      if n + next.items.length ≤ runMax then
        -- a run left with a quarter of its room joins the next
        let joined := run.extend M next.items
        pure (len - 1, (rs.remove (at_ + 1)).set at_ joined,
          ((joined.capacity : Int) - run.capacity - next.capacity) * M.id)
      else pure (len - 1, rs, 0)
    else pure (len - 1, rs, 0)

/-- **`Bucket::remove`**, with the change in bytes, or nothing where an index is out of bounds. -/
def remove (b : Bucket) (id : Nat) : Option (Bucket × Int) :=
  match b with
  | .flat v =>
    let v' := match search v.items id with
      | .ok i => v.remove i
      | .error _ => v
    if v'.items.isEmpty then some (.flat .new, -((v'.capacity : Int) * M.id))
    else some (.flat v', 0)
  | .runs len rs => do
    let (len, rs, d) ← removeRuns M len rs id
    if 1 < rs.items.length then pure (.runs len rs, d)
    else
      -- one run left: a list again, as small buckets are
      let before := heapBytes M (.runs len rs)
      let after := Bucket.flat (rs.items.head?.getD .new)
      pure (after, d + (heapBytes M after : Int) - before)

/-! ## 2. What every write keeps -/

/-- The ids of runs, one after another. -/
def idsOf (rs : List (Vec Nat)) : List Nat := (rs.map (·.items)).flatten

/-- The ids of a bucket. -/
def ids (b : Bucket) : List Nat := idsOf b.runsOf

/-- A run as it may be, with room for a whole one. -/
structure Run (run : Vec Nat) : Prop where
  full : run.items ≠ []
  short : run.items.length ≤ runMax
  room : run.capacity = runMax

/-- What a bucket's form asks: a list of no more ids than a run, or two runs at least. -/
def Formed : Bucket → Prop
  | .flat v => v.items.length ≤ runMax
  | .runs len rs =>
    (∀ run ∈ rs.items, Run run) ∧ 2 ≤ rs.items.length ∧
      len = (idsOf rs.items).length

/-- **A bucket in order.** -/
structure Good (b : Bucket) : Prop where
  formed : b.Formed
  ascending : b.ids.Pairwise (· < ·)

/-- An id put between those below and those above it, or there already. -/
inductive Added (id : Nat) : List Nat → List Nat → Prop
  | there {l : List Nat} : id ∈ l → Added id l l
  | put {P Q : List Nat} : (∀ e ∈ P, e < id) → (∀ e ∈ Q, id < e) → Added id (P ++ Q) (P ++ id :: Q)

/-- An id taken out from where it was, or not there. -/
inductive Removed (id : Nat) : List Nat → List Nat → Prop
  | absent {l : List Nat} : id ∉ l → Removed id l l
  | out {P Q : List Nat} : Removed id (P ++ id :: Q) (P ++ Q)

section Ids

variable {id : Nat} {l l' : List Nat}

theorem Added.ascending (h : Added id l l') (hl : l.Pairwise (· < ·)) : l'.Pairwise (· < ·) := by
  cases h with
  | there => exact hl
  | put hP hQ =>
    obtain ⟨hp, hq, hacross⟩ := List.pairwise_append.mp hl
    refine List.pairwise_append.mpr ⟨hp, List.pairwise_cons.mpr ⟨hQ, hq⟩, fun a ha b hb => ?_⟩
    rcases List.mem_cons.mp hb with rfl | hb
    · exact hP a ha
    · exact hacross a ha b hb

theorem Added.mem_iff (h : Added id l l') (k : Nat) : k ∈ l' ↔ k = id ∨ k ∈ l := by
  cases h with
  | there hmem =>
    constructor
    · exact .inr
    · rintro (rfl | hk)
      · exact hmem
      · exact hk
  | put =>
    simp only [List.mem_append, List.mem_cons]
    tauto

theorem Removed.ascending (h : Removed id l l') (hl : l.Pairwise (· < ·)) :
    l'.Pairwise (· < ·) := by
  cases h with
  | absent => exact hl
  | out => exact hl.sublist (List.Sublist.append_left (List.sublist_cons_self _ _) _)

theorem Removed.mem_iff (h : Removed id l l') (hl : l.Pairwise (· < ·)) (k : Nat) :
    k ∈ l' ↔ k ∈ l ∧ k ≠ id := by
  cases h with
  | absent hnot =>
    constructor
    · intro hk
      refine ⟨hk, ?_⟩
      rintro rfl
      exact hnot hk
    · exact fun hk => hk.1
  | @out P Q =>
    have hnone : id ∉ P ++ Q := by
      obtain ⟨-, hq, hacross⟩ := List.pairwise_append.mp hl
      intro hmem
      rcases List.mem_append.mp hmem with hmem | hmem
      · exact Nat.lt_irrefl id (hacross id hmem id List.mem_cons_self)
      · exact Nat.lt_irrefl id ((List.pairwise_cons.mp hq).1 id hmem)
    simp only [List.mem_append, List.mem_cons] at hnone ⊢
    constructor
    · rintro (hk | hk)
      · exact ⟨.inl hk, fun h => hnone (.inl (h ▸ hk))⟩
      · exact ⟨.inr (.inr hk), fun h => hnone (.inr (h ▸ hk))⟩
    · rintro ⟨hk | rfl | hk, hne⟩
      · exact .inl hk
      · exact absurd rfl hne
      · exact .inr hk

/-- **A search divides ascending ids** at the id, or where it would go. -/
theorem search_ids (h : l.Pairwise (· < ·)) (id : Nat) :
    (∃ a b, l = a ++ id :: b ∧ search l id = .ok a.length) ∨
      ∃ a b, l = a ++ b ∧ search l id = .error a.length ∧ (∀ e ∈ a, e < id) ∧ ∀ e ∈ b, id < e := by
  have hsorted : Sorted compare l := h.imp fun hab => Nat.compare_eq_lt.mpr hab
  rcases Chunked.search_spec hsorted id with ⟨a, e, b, hl, hs, he⟩ | ⟨a, b, hl, hs, hlow, hhigh⟩
  · obtain rfl := Nat.compare_eq_eq.mp he
    exact .inl ⟨a, b, hl, hs⟩
  · exact .inr ⟨a, b, hl, hs, fun e he => Nat.compare_eq_lt.mp (hlow e he),
      fun e he => Nat.compare_eq_gt.mp (hhigh e he)⟩

end Ids

section Runs

variable {id : Nat} {pre post : List (Vec Nat)} {run : Vec Nat}

@[simp] theorem idsOf_nil : idsOf [] = [] := rfl

@[simp] theorem idsOf_cons : idsOf (run :: post) = run.items ++ idsOf post := rfl

@[simp] theorem idsOf_append : idsOf (pre ++ post) = idsOf pre ++ idsOf post := by
  rw [idsOf, List.map_append, List.flatten_append]
  rfl

theorem mem_idsOf (h : run ∈ post) {e : Nat} (he : e ∈ run.items) : e ∈ idsOf post :=
  List.mem_flatten.mpr ⟨run.items, List.mem_map_of_mem h, he⟩

theorem ascending_of_mem {rs : List (Vec Nat)} (h : (idsOf rs).Pairwise (· < ·))
    (hrun : run ∈ rs) : run.items.Pairwise (· < ·) :=
  (List.pairwise_flatten.mp h).1 _ (List.mem_map_of_mem hrun)

/-- A run whose last id is below another has no id that is not. -/
theorem below_of_last {l : List Nat} (h : l.Pairwise (· < ·))
    (hlast : (l.getLast?.any fun k => decide (k < id)) = true) : ∀ e ∈ l, e < id := by
  intro e he
  rcases List.eq_nil_or_concat l with rfl | ⟨init, k, rfl⟩
  · cases he
  · rw [List.concat_eq_append] at h hlast he
    rw [List.getLast?_concat, Option.any_some, decide_eq_true_eq] at hlast
    rcases List.mem_append.mp he with he | he
    · exact Nat.lt_trans ((List.pairwise_append.mp h).2.2 e he k (by simp)) hlast
    · rw [List.mem_singleton.mp he]
      exact hlast

theorem idsOf_below {rs : List (Vec Nat)} (h : (idsOf rs).Pairwise (· < ·))
    (hlast : ∀ r ∈ rs, (r.items.getLast?.any fun k => decide (k < id)) = true) :
    ∀ e ∈ idsOf rs, e < id := by
  intro e he
  obtain ⟨l, hl, he⟩ := List.mem_flatten.mp he
  obtain ⟨r, hr, rfl⟩ := List.mem_map.mp hl
  exact below_of_last (ascending_of_mem h hr) (hlast r hr) e he

/-- **The run an id belongs in**: all before it are below the id, all after it above. -/
theorem find_spec {rs : List (Vec Nat)} (hne : rs ≠ []) (hfull : ∀ r ∈ rs, r.items ≠ [])
    (hs : (idsOf rs).Pairwise (· < ·)) (id : Nat) :
    ∃ pre run post, rs = pre ++ run :: post ∧ find rs id = pre.length ∧
      (∀ e ∈ idsOf pre, e < id) ∧ ∀ e ∈ idsOf post, id < e := by
  have hcut := List.takeWhile_append_dropWhile
    (p := fun r : Vec Nat => r.items.getLast?.any fun k => decide (k < id)) (l := rs)
  have hall : ∀ r ∈ rs.takeWhile fun r : Vec Nat => r.items.getLast?.any fun k => decide (k < id),
      (r.items.getLast?.any fun k => decide (k < id)) = true := fun r hr =>
    List.mem_takeWhile_imp
      (p := fun r : Vec Nat => r.items.getLast?.any fun k => decide (k < id)) hr
  unfold find Chunked.partitionPoint
  generalize (rs.takeWhile fun r => r.items.getLast?.any fun k => decide (k < id)) = front
    at hcut hall
  cases hdrop : rs.dropWhile fun r => r.items.getLast?.any fun k => decide (k < id) with
  | nil =>
    -- every run is below the id, so it belongs in the last
    rw [hdrop, List.append_nil] at hcut
    rcases List.eq_nil_or_concat front with hnil | ⟨init, run, hlast⟩
    · rw [hnil] at hcut
      exact absurd hcut.symm hne
    · rw [List.concat_eq_append] at hlast
      refine ⟨init, run, [], by rw [← hcut, hlast], ?_, ?_, by simp⟩
      · rw [← hcut, hlast, List.length_append, List.length_singleton]
        omega
      · rw [← hcut, hlast, idsOf_append] at hs
        refine idsOf_below (List.pairwise_append.mp hs).1 fun r hr => hall r ?_
        rw [hlast]
        exact List.mem_append_left _ hr
  | cons run post =>
    rw [hdrop] at hcut
    have hnot : (run.items.getLast?.any fun k => decide (k < id)) = false := by
      have hhead := List.head?_dropWhile_not
        (fun r : Vec Nat => r.items.getLast?.any fun k => decide (k < id)) rs
      rw [hdrop] at hhead
      simpa using hhead
    rw [← hcut] at hs
    rw [idsOf_append, idsOf_cons] at hs
    obtain ⟨hfront, hrest, -⟩ := List.pairwise_append.mp hs
    refine ⟨front, run, post, hcut.symm, ?_, idsOf_below hfront hall, fun e he => ?_⟩
    · rw [← hcut, List.length_append, List.length_cons]
      omega
    · -- above the run's last id, which is not below the id
      have hmem : run ∈ rs := by
        rw [← hcut]
        simp
      rcases List.eq_nil_or_concat run.items with hnil | ⟨init, k, hitems⟩
      · exact absurd hnil (hfull run hmem)
      · rw [List.concat_eq_append] at hitems
        rw [hitems, List.getLast?_concat, Option.any_some, decide_eq_false_iff_not] at hnot
        have hke := (List.pairwise_append.mp hrest).2.2 k (by rw [hitems]; simp) e he
        omega

end Runs

/-! ## 3. What a write counts -/

section Bytes

variable {M : Heap} {rs : Vec (Vec Nat)} {run : Vec Nat} {items : List Nat} {len : Nat}

/-- **Room for a whole run is enough for it.** -/
theorem run_refill (hroom : run.capacity = runMax) (hne : items ≠ [])
    (hlen : items.length ≤ runMax) : Run (run.refill M items) := by
  refine ⟨hne, hlen, ?_⟩
  rw [Vec.refill, hroom, if_pos hlen]

/-- What runs with room for a whole one each hold. -/
theorem heapBytes_runs (h : ∀ run ∈ rs.items, Run run) :
    heapBytes M (.runs len rs) =
      M.runs + rs.capacity * M.vec + rs.items.length * (runMax * M.id) := by
  have hsum : (rs.items.map fun v => v.capacity * M.id) =
      List.replicate rs.items.length (runMax * M.id) := by
    refine List.eq_replicate_iff.mpr ⟨List.length_map _, fun b hb => ?_⟩
    obtain ⟨run, hrun, rfl⟩ := List.mem_map.mp hb
    rw [(h run hrun).room]
  rw [heapBytes, hsum, List.sum_replicate_nat]

end Bytes

/-- **A write**: what it leaves is in order, holds the ids `ids` says, and the change it answers is
that of the bytes. -/
structure Wrote (M : Heap) (ids : List Nat → List Nat → Prop) (b b' : Bucket) (d : Int) : Prop where
  good : b'.Good
  ids : ids b.ids b'.ids
  bytes : d = (heapBytes M b' : Int) - heapBytes M b

/-! ## 4. An id put in -/

section Add

variable {M : Heap} {len id : Nat} {rs : Vec (Vec Nat)}

/-- Runs an id is put in, as long as they are runs. -/
theorem wrote_runs {rs' : Vec (Vec Nat)} {P Q : List Nat} {d : Int}
    (h : (runs len rs).Good) (hruns : ∀ run ∈ rs'.items, Run run) (hmany : 2 ≤ rs'.items.length)
    (hids : idsOf rs.items = P ++ Q) (hids' : idsOf rs'.items = P ++ id :: Q)
    (hP : ∀ e ∈ P, e < id) (hQ : ∀ e ∈ Q, id < e)
    (hd : d = (rs'.capacity - rs.capacity : Int) * M.vec +
      (rs'.items.length - rs.items.length : Int) * (runMax * M.id)) :
    Wrote M (Added id) (.runs len rs) (.runs (len + 1) rs') d := by
  have hadded : Added id (runs len rs).ids (runs (len + 1) rs').ids := by
    show Added id (idsOf rs.items) (idsOf rs'.items)
    rw [hids, hids']
    exact .put hP hQ
  obtain ⟨hrs, -, hlen⟩ := h.formed
  refine ⟨⟨⟨hruns, hmany, ?_⟩, hadded.ascending h.ascending⟩, hadded, ?_⟩
  · rw [hlen, hids, hids', List.length_append, List.length_append, List.length_cons]
    omega
  · rw [hd, heapBytes_runs hruns, heapBytes_runs hrs]
    push_cast
    ring

/-- Runs put at their end. -/
theorem addRuns_past {init : List (Vec Nat)} {run : Vec Nat} (h : (runs len rs).Good)
    (hlast : rs.items = init ++ [run])
    (hpast : (run.items.getLast?.all fun l => decide (l < id)) = true) :
    ∃ b' d, addRuns M len rs id = some (b', d) ∧ Wrote M (Added id) (.runs len rs) b' d := by
  obtain ⟨hrs, hmany, -⟩ := h.formed
  have hrun : Run run := hrs run (by rw [hlast]; simp)
  have hinit : ∀ r ∈ init, Run r := fun r hr => hrs r (by rw [hlast]; simp [hr])
  have hs : (idsOf rs.items).Pairwise (· < ·) := h.ascending
  have hbelow : ∀ e ∈ idsOf rs.items, e < id := by
    intro e he
    rw [hlast, idsOf_append, idsOf_cons, idsOf_nil, List.append_nil] at he hs
    rcases List.eq_nil_or_concat run.items with hnil | ⟨front, k, hitems⟩
    · exact absurd hnil hrun.full
    · rw [List.concat_eq_append] at hitems
      rw [hitems, List.getLast?_concat, Option.all_some, decide_eq_true_eq] at hpast
      rw [hitems, ← List.append_assoc] at he hs
      rcases List.mem_append.mp he with he | he
      · exact Nat.lt_trans ((List.pairwise_append.mp hs).2.2 e he k (by simp)) hpast
      · rw [List.mem_singleton.mp he]
        exact hpast
  have hget : rs.items[rs.items.length - 1]? = some run := by
    rw [hlast, List.length_append, List.length_singleton, Nat.add_sub_cancel,
      List.getElem?_append_right (Nat.le_refl _), Nat.sub_self]
    rfl
  have hne : rs.items.isEmpty = false := by rw [hlast]; simp
  unfold addRuns
  simp only [hne, hget, hpast, Option.bind_eq_bind, Option.bind_some, if_true]
  by_cases hroom : run.items.length < runMax
  · -- the last run has room for it
    have hset : (rs.set (rs.items.length - 1) (run.push M id)).items =
        init ++ [run.push M id] := by
      rw [Vec.set, hlast, List.length_append, List.length_singleton, Nat.add_sub_cancel]
      exact Chunked.set_middle
    have hpush : Run (run.push M id) :=
      run_refill hrun.room (by simp) (by rw [List.length_append, List.length_singleton]; omega)
    simp only [hroom, if_true]
    refine ⟨_, _, rfl, wrote_runs (P := idsOf rs.items) (Q := []) h ?_ ?_ (by simp) ?_ hbelow
      (by simp) ?_⟩
    · intro r hr
      rw [hset] at hr
      rcases List.mem_append.mp hr with hr | hr
      · exact hinit r hr
      · rw [List.mem_singleton.mp hr]
        exact hpush
    · rw [hset]
      rw [hlast] at hmany
      simpa using hmany
    · rw [hset, hlast]
      simp [Vec.push, Vec.refill]
    · rw [hset, hlast]
      simp [Vec.set]
  · -- the last run is full, and stays so
    simp only [hroom, if_false]
    refine ⟨_, _, rfl, wrote_runs (P := idsOf rs.items) (Q := []) h ?_ ?_ (by simp) ?_ hbelow
      (by simp) ?_⟩
    · intro r hr
      rcases List.mem_append.mp hr with hr | hr
      · exact hrs r hr
      · rw [List.mem_singleton.mp hr]
        exact ⟨by simp [runOf], by simp [runOf, runMax], rfl⟩
    · simp only [Vec.push, Vec.refill, List.length_append, List.length_singleton]
      omega
    · simp [Vec.push, Vec.refill, runOf]
    · simp only [Vec.push, Vec.refill, List.length_append, List.length_singleton]
      push_cast
      ring

/-- **A full run cut in two**, the id in the half it falls in. -/
theorem halves_spec {run : Vec Nat} {A B : List Nat} (h : Run run)
    (hfull : run.items.length = runMax) (hcut : run.items = A ++ B) (id : Nat) :
    ∃ front back : Vec Nat,
      (if A.length ≤ runMax / 2 then
        ((run.truncate (runMax / 2)).insert M A.length id, runOf (run.items.drop (runMax / 2)))
      else (run.truncate (runMax / 2),
        (runOf (run.items.drop (runMax / 2))).insert M (A.length - runMax / 2) id)) =
          (front, back) ∧
      Run front ∧ Run back ∧ front.items ++ back.items = A ++ id :: B := by
  have hhalf : runMax / 2 + runMax / 2 = runMax ∧ 2 ≤ runMax / 2 := by decide
  have htake : (run.items.take (runMax / 2)).length = runMax / 2 := by
    rw [List.length_take]
    omega
  have hdrop : (run.items.drop (runMax / 2)).length = runMax / 2 := by
    rw [List.length_drop]
    omega
  have hhalves : run.items.take (runMax / 2) ++ run.items.drop (runMax / 2) = A ++ B := by
    rw [List.take_append_drop, hcut]
  have hempty : ∀ l : List Nat, l.length = runMax / 2 → l ≠ [] := by
    rintro l hl rfl
    rw [List.length_nil] at hl
    omega
  have hroom : (run.truncate (runMax / 2)).capacity = runMax := h.room
  have hitems : (run.truncate (runMax / 2)).items = run.items.take (runMax / 2) := rfl
  generalize run.items.take (runMax / 2) = T at htake hhalves hitems
  generalize run.items.drop (runMax / 2) = D at hdrop hhalves
  by_cases hpos : A.length ≤ runMax / 2
  · -- into the first half
    obtain ⟨A', rfl, rfl⟩ : ∃ A', T = A ++ A' ∧ B = A' ++ D := by
      rcases List.append_eq_append_iff.mp hhalves with ⟨A', hA, hD⟩ | ⟨A', hT, hB⟩
      · have hlen := congrArg List.length hA
        rw [List.length_append] at hlen
        have hnil : A' = [] := List.length_eq_zero_iff.mp (by omega)
        rw [hnil, List.append_nil] at hA
        rw [hnil, List.nil_append] at hD
        exact ⟨[], by rw [hA, List.append_nil], by rw [hD, List.nil_append]⟩
      · exact ⟨A', hT, hB⟩
    have hput : ((run.truncate (runMax / 2)).insert M A.length id).items = A ++ id :: A' := by
      show (run.truncate (runMax / 2)).items.insertIdx A.length id = _
      rw [hitems]
      exact Chunked.insertIdx_at
    rw [List.length_append] at htake
    refine ⟨_, _, if_pos hpos, run_refill hroom ?_ ?_, ⟨hempty _ hdrop, ?_, rfl⟩, ?_⟩
    · rw [hitems, Chunked.insertIdx_at]
      simp
    · rw [hitems, Chunked.insertIdx_at, List.length_append, List.length_cons]
      omega
    · show D.length ≤ runMax
      omega
    · rw [hput]
      simp [runOf]
  · -- into the second half
    obtain ⟨A', rfl, rfl⟩ : ∃ A', A = T ++ A' ∧ D = A' ++ B := by
      rcases List.append_eq_append_iff.mp hhalves with ⟨A', hA, hD⟩ | ⟨A', hT, hB⟩
      · exact ⟨A', hA, hD⟩
      · have hlen := congrArg List.length hT
        rw [List.length_append] at hlen
        omega
    have hat : (T ++ A').length - runMax / 2 = A'.length := by
      rw [List.length_append]
      omega
    rw [List.length_append] at hdrop
    refine ⟨_, _, if_neg hpos, ⟨?_, ?_, hroom⟩, run_refill rfl ?_ ?_, ?_⟩
    · rw [hitems]
      exact hempty T htake
    · rw [hitems]
      omega
    · rw [hat, runOf, Chunked.insertIdx_at]
      simp
    · rw [hat, runOf, Chunked.insertIdx_at, List.length_append, List.length_cons]
      omega
    · rw [hitems, hat]
      show T ++ (A' ++ B).insertIdx A'.length id = _
      rw [Chunked.insertIdx_at]
      simp

/-- Runs put where they are not all below it. -/
theorem addRuns_within (h : (runs len rs).Good)
    {init : List (Vec Nat)} {run : Vec Nat} (hlast : rs.items = init ++ [run])
    (hpast : (run.items.getLast?.all fun l => decide (l < id)) = false) :
    ∃ b' d, addRuns M len rs id = some (b', d) ∧ Wrote M (Added id) (.runs len rs) b' d := by
  obtain ⟨hrs, hmany, -⟩ := h.formed
  have hs : (idsOf rs.items).Pairwise (· < ·) := h.ascending
  have hgetLast : rs.items[rs.items.length - 1]? = some run := by
    rw [hlast, List.length_append, List.length_singleton, Nat.add_sub_cancel,
      List.getElem?_append_right (Nat.le_refl _), Nat.sub_self]
    rfl
  have hne : rs.items.isEmpty = false := by rw [hlast]; simp
  obtain ⟨pre, here, post, hitems, hfind, hless, hmore⟩ :=
    find_spec (List.isEmpty_eq_false_iff.mp hne) (fun r hr => (hrs r hr).full) hs id
  have hhere : Run here := hrs here (by rw [hitems]; simp)
  have hget : rs.items[pre.length]? = some here := by
    rw [hitems, List.getElem?_append_right (Nat.le_refl _), Nat.sub_self]
    rfl
  have hothers : ∀ r, r ∈ pre ∨ r ∈ post → Run r := by
    intro r hr
    refine hrs r ?_
    rw [hitems]
    rcases hr with hr | hr
    · exact List.mem_append_left _ hr
    · exact List.mem_append_right _ (List.mem_cons_of_mem _ hr)
  have hascending := ascending_of_mem hs (show here ∈ rs.items by rw [hitems]; simp)
  unfold addRuns
  simp only [hne, hgetLast, hpast, hfind, hget, Option.bind_eq_bind, Option.bind_some,
    Bool.false_eq_true, if_false]
  rcases search_ids hascending id with ⟨A, B, hcut, hfound⟩ | ⟨A, B, hcut, hfound, hlow, hhigh⟩
  · -- it is there
    rw [hfound]
    refine ⟨_, _, rfl, h, .there ?_, by simp⟩
    have hmem : here ∈ (runs len rs).runsOf := by
      rw [runsOf, hitems]
      simp
    refine mem_idsOf hmem ?_
    rw [hcut]
    simp
  rw [hfound]
  -- the ids below it and those above it, over all runs
  have hids : idsOf rs.items = (idsOf pre ++ A) ++ (B ++ idsOf post) := by
    rw [hitems, idsOf_append, idsOf_cons, hcut]
    simp
  have hP : ∀ e ∈ idsOf pre ++ A, e < id := fun e he =>
    (List.mem_append.mp he).elim (hless e) (hlow e)
  have hQ : ∀ e ∈ B ++ idsOf post, id < e := fun e he =>
    (List.mem_append.mp he).elim (hhigh e) (hmore e)
  have hput : here.items.insertIdx A.length id = A ++ id :: B := by
    rw [hcut]
    exact Chunked.insertIdx_at
  by_cases hroom : here.items.length < runMax
  · simp only [hroom, if_true]
    have hinsert : Run (here.insert M A.length id) := by
      refine run_refill hhere.room ?_ ?_
      · rw [hput]
        simp
      · rw [hput, List.length_append, List.length_cons]
        rw [hcut, List.length_append] at hroom
        omega
    have hset : (rs.set pre.length (here.insert M A.length id)).items =
        pre ++ here.insert M A.length id :: post := by
      rw [Vec.set, hitems]
      exact Chunked.set_middle
    refine ⟨_, _, rfl, wrote_runs h ?_ ?_ hids ?_ hP hQ ?_⟩
    · intro r hr
      rw [hset] at hr
      rcases List.mem_append.mp hr with hr | hr
      · exact hothers r (.inl hr)
      · rcases List.mem_cons.mp hr with rfl | hr
        · exact hinsert
        · exact hothers r (.inr hr)
    · rw [hset]
      rw [hitems] at hmany
      simpa using hmany
    · rw [hset, idsOf_append, idsOf_cons]
      show idsOf pre ++ (here.items.insertIdx A.length id ++ idsOf post) = _
      rw [hput]
      simp
    · rw [hset, hitems]
      simp [Vec.set]
  · -- the run is full
    simp only [hroom, if_false]
    have hfull : here.items.length = runMax := by
      have := hhere.short
      omega
    obtain ⟨front, back, hcase, hfront, hback, hboth⟩ := halves_spec (M := M) hhere hfull hcut id
    rw [hcase]
    have hgrown : ((rs.set pre.length front).insert M (pre.length + 1) back).items =
        pre ++ front :: back :: post := by
      show (rs.items.set pre.length front).insertIdx (pre.length + 1) back = _
      rw [hitems, Chunked.set_middle, Chunked.insertIdx_middle]
    refine ⟨_, _, rfl, wrote_runs h ?_ ?_ hids ?_ hP hQ ?_⟩
    · intro r hr
      rw [hgrown] at hr
      rcases List.mem_append.mp hr with hr | hr
      · exact hothers r (.inl hr)
      · rcases List.mem_cons.mp hr with rfl | hr
        · exact hfront
        · rcases List.mem_cons.mp hr with rfl | hr
          · exact hback
          · exact hothers r (.inr hr)
    · rw [hgrown, List.length_append, List.length_cons, List.length_cons]
      omega
    · rw [hgrown, idsOf_append, idsOf_cons, idsOf_cons, ← List.append_assoc front.items, hboth]
      simp
    · rw [hgrown, hitems]
      simp only [List.length_append, List.length_cons]
      push_cast
      ring

/-- A list put into, as a list or as two runs. -/
theorem wrote_regrown {v v' : Vec Nat} {P Q : List Nat} (h : (flat v).Good)
    (hids : v.items = P ++ Q) (hids' : v'.items = P ++ id :: Q) (hP : ∀ e ∈ P, e < id)
    (hQ : ∀ e ∈ Q, id < e) :
    Wrote M (Added id) (.flat v) (regrown M v v').1 (regrown M v v').2 := by
  have hflat : (flat v).ids = v.items := List.append_nil _
  have hlen : v'.items.length = v.items.length + 1 := by
    rw [hids, hids', List.length_append, List.length_append, List.length_cons]
    omega
  have hshort : v.items.length ≤ runMax := h.formed
  -- whatever it is cut into, its ids are the list's
  have hadded : ∀ b' : Bucket, b'.ids = v'.items → Added id (flat v).ids b'.ids := by
    intro b' hb
    rw [hb, hflat, hids, hids']
    exact .put hP hQ
  unfold regrown
  by_cases hlong : runMax < v'.items.length
  · rw [if_pos hlong]
    have hhalf : 2 ≤ runMax / 2 ∧ runMax / 2 + runMax / 2 = runMax := by decide
    have htake : (v'.items.take (runMax / 2)).length = runMax / 2 := by
      rw [List.length_take]
      omega
    have hdrop : (v'.items.drop (runMax / 2)).length = runMax / 2 + 1 := by
      rw [List.length_drop]
      omega
    have hboth : idsOf [runOf (v'.items.take (runMax / 2)), runOf (v'.items.drop (runMax / 2))] =
        v'.items := by
      simp [runOf]
    have hrun : ∀ l : List Nat, 0 < l.length → l.length ≤ runMax → Run (runOf l) := fun l hl hle =>
      ⟨List.length_pos_iff.mp hl, hle, rfl⟩
    have hids₂ := hadded (.runs v'.items.length
      ⟨[runOf (v'.items.take (runMax / 2)), runOf (v'.items.drop (runMax / 2))], 2⟩) hboth
    refine ⟨⟨⟨?_, Nat.le_refl _, by rw [hboth]⟩, hids₂.ascending h.ascending⟩, hids₂, rfl⟩
    intro r hr
    simp only [List.mem_cons, List.not_mem_nil, or_false] at hr
    rcases hr with rfl | rfl
    · exact hrun _ (by omega) (by omega)
    · exact hrun _ (by omega) (by omega)
  · rw [if_neg hlong]
    have hids₁ := hadded (.flat v') (List.append_nil _)
    refine ⟨⟨?_, hids₁.ascending h.ascending⟩, hids₁, ?_⟩
    · show v'.items.length ≤ runMax
      omega
    · simp only [heapBytes]
      push_cast
      ring

/-- **`add` puts an id in**, and answers the change in bytes. -/
theorem add_spec {b : Bucket} (h : b.Good) (id : Nat) :
    ∃ b' d, b.add M id = some (b', d) ∧ Wrote M (Added id) b b' d := by
  cases b with
  | runs len rs =>
    have hmany : 2 ≤ rs.items.length := h.formed.2.1
    rcases List.eq_nil_or_concat rs.items with hnil | ⟨init, run, hlast⟩
    · rw [hnil, List.length_nil] at hmany
      omega
    · rw [List.concat_eq_append] at hlast
      cases hpast : run.items.getLast?.all fun l => decide (l < id) with
      | true => exact addRuns_past h hlast hpast
      | false => exact addRuns_within h hlast hpast
  | flat v =>
    have hs : v.items.Pairwise (· < ·) := by
      have hascending := h.ascending
      rwa [show (flat v).ids = v.items from List.append_nil _] at hascending
    have hpush : (∀ e ∈ v.items, e < id) →
        Wrote M (Added id) (.flat v) (regrown M v (v.push M id)).1 (regrown M v (v.push M id)).2 :=
      fun hbelow => wrote_regrown (Q := []) h (by simp) rfl hbelow (by simp)
    unfold add
    dsimp only
    cases hlast : v.items.getLast? with
    | none =>
      refine ⟨_, _, rfl, hpush fun e he => ?_⟩
      rw [List.getLast?_eq_none_iff.mp hlast] at he
      cases he
    | some l =>
      dsimp only
      by_cases hle : id ≤ l
      · rw [if_pos hle]
        rcases search_ids hs id with ⟨A, B, hcut, hfound⟩ | ⟨A, B, hcut, hfound, hlow, hhigh⟩
        · rw [hfound]
          refine ⟨_, _, rfl, h, .there ?_, by simp⟩
          rw [show (flat v).ids = v.items from List.append_nil _, hcut]
          simp
        · rw [hfound]
          refine ⟨_, _, rfl, wrote_regrown h hcut ?_ hlow hhigh⟩
          show v.items.insertIdx A.length id = _
          rw [hcut]
          exact Chunked.insertIdx_at
      · rw [if_neg hle]
        refine ⟨_, _, rfl, hpush (below_of_last hs ?_)⟩
        rw [hlast, Option.any_some, decide_eq_true_eq]
        omega

end Add

/-! ## 5. An id taken out -/

section Remove

variable {M : Heap} {len id : Nat} {rs : Vec (Vec Nat)}

theorem eraseIdx_ids {A B : List Nat} : (A ++ id :: B).eraseIdx A.length = A ++ B := by
  rw [List.eraseIdx_append_of_length_le (Nat.le_refl _), Nat.sub_self, List.eraseIdx_cons_zero]

/-- Runs an id is taken out of: one of them at least is left, and the bytes are counted. -/
structure Shrunk (M : Heap) (id len : Nat) (rs : Vec (Vec Nat)) (len' : Nat) (rs' : Vec (Vec Nat))
    (d : Int) : Prop where
  runs : ∀ run ∈ rs'.items, Run run
  left : rs'.items ≠ []
  count : len' = (idsOf rs'.items).length
  ids : Removed id (idsOf rs.items) (idsOf rs'.items)
  bytes : d = (heapBytes M (.runs len' rs') : Int) - heapBytes M (.runs len rs)

/-- **`Runs::remove` takes an id out.** -/
theorem removeRuns_spec (h : (Bucket.runs len rs).Good) (id : Nat) :
    ∃ len' rs' d, removeRuns M len rs id = some (len', rs', d) ∧
      Shrunk M id len rs len' rs' d := by
  obtain ⟨hrs, hmany, hlen⟩ := h.formed
  have hs : (idsOf rs.items).Pairwise (· < ·) := h.ascending
  have hne : rs.items ≠ [] := by
    intro hnil
    rw [hnil, List.length_nil] at hmany
    omega
  obtain ⟨pre, run, post, hitems, hfind, hless, hmore⟩ :=
    find_spec hne (fun r hr => (hrs r hr).full) hs id
  have hrun : Run run := hrs run (by rw [hitems]; simp)
  have hget : rs.items[pre.length]? = some run := by
    rw [hitems, List.getElem?_append_right (Nat.le_refl _), Nat.sub_self]
    rfl
  have hothers : ∀ r, r ∈ pre ∨ r ∈ post → Run r := by
    intro r hr
    refine hrs r ?_
    rw [hitems]
    rcases hr with hr | hr
    · exact List.mem_append_left _ hr
    · exact List.mem_append_right _ (List.mem_cons_of_mem _ hr)
  have hascending := ascending_of_mem hs (show run ∈ rs.items by rw [hitems]; simp)
  unfold removeRuns
  rw [if_neg (by simpa using hne)]
  simp only [hfind, hget, Option.bind_eq_bind, Option.bind_some, Option.pure_def]
  rcases search_ids hascending id with ⟨A, B, hcut, hfound⟩ | ⟨A, B, hcut, hfound, hlow, hhigh⟩
  · rw [hfound]
    dsimp only
    have hitems' : (run.remove A.length).items = A ++ B := by
      rw [Vec.remove, hcut]
      exact eraseIdx_ids
    have hset : (rs.set pre.length (run.remove A.length)).items =
        pre ++ run.remove A.length :: post := by
      rw [Vec.set, hitems]
      exact Chunked.set_middle
    have hids : idsOf rs.items = (idsOf pre ++ A) ++ id :: (B ++ idsOf post) := by
      rw [hitems, idsOf_append, idsOf_cons, hcut]
      simp
    -- runs of the ids that are left, whatever they are cut into
    have hleft : ∀ (rs' : Vec (Vec Nat)) (d : Int), (∀ r ∈ rs'.items, Run r) → rs'.items ≠ [] →
        idsOf rs'.items = (idsOf pre ++ A) ++ (B ++ idsOf post) → rs'.capacity = rs.capacity →
        d = (rs'.items.length - rs.items.length : Int) * (runMax * M.id) →
        Shrunk M id len rs (len - 1) rs' d := by
      intro rs' d hruns hsome hids' hcapacity hd
      refine ⟨hruns, hsome, ?_, ?_, ?_⟩
      · rw [hlen, hids, hids']
        simp only [List.length_append, List.length_cons]
        omega
      · rw [hids, hids']
        exact .out
      · rw [hd, heapBytes_runs hruns, heapBytes_runs hrs, hcapacity]
        push_cast
        ring
    have hroom : (run.remove A.length).capacity = runMax := hrun.room
    have hshort : (A ++ B).length ≤ runMax := by
      have hle := hrun.short
      rw [hcut, List.length_append, List.length_cons] at hle
      rw [List.length_append]
      omega
    rw [hitems']
    by_cases hempty : (A ++ B).length = 0
    · -- the run is gone
      rw [if_pos hempty]
      have hrest : ((rs.set pre.length (run.remove A.length)).remove pre.length).items =
          pre ++ post := by
        rw [Vec.remove, hset, List.eraseIdx_append_of_length_le (Nat.le_refl _), Nat.sub_self,
          List.eraseIdx_cons_zero]
      obtain ⟨rfl, rfl⟩ := List.append_eq_nil_iff.mp (List.length_eq_zero_iff.mp hempty)
      refine ⟨_, _, _, rfl, hleft _ _ ?_ ?_ ?_ rfl ?_⟩
      · intro r hr
        rw [hrest] at hr
        exact hothers r (List.mem_append.mp hr)
      · rw [hrest]
        intro hnil
        rw [hitems] at hmany
        obtain ⟨rfl, rfl⟩ := List.append_eq_nil_iff.mp hnil
        simp at hmany
      · rw [hrest]
        simp
      · rw [hrest, hitems, hroom]
        simp only [List.length_append, List.length_cons]
        push_cast
        ring
    rw [if_neg hempty]
    -- the run stays, with fewer ids
    have hstay : ∀ r ∈ (rs.set pre.length (run.remove A.length)).items, Run r := by
      intro r hr
      rw [hset] at hr
      rcases List.mem_append.mp hr with hr | hr
      · exact hothers r (.inl hr)
      · rcases List.mem_cons.mp hr with rfl | hr
        · refine ⟨?_, ?_, hroom⟩
          · rw [hitems']
            intro hnil
            exact hempty (List.length_eq_zero_iff.mpr hnil)
          · rw [hitems']
            exact hshort
        · exact hothers r (.inr hr)
    have hkept : Shrunk M id len rs (len - 1) (rs.set pre.length (run.remove A.length)) 0 := by
      refine hleft _ _ hstay ?_ ?_ rfl ?_
      · rw [hset]
        simp
      · rw [hset, idsOf_append, idsOf_cons, hitems']
        simp
      · rw [hset, hitems]
        simp
    by_cases hthin : (A ++ B).length < runMax / 4 ∧
        pre.length + 1 < (rs.set pre.length (run.remove A.length)).items.length
    · rw [if_pos hthin]
      have hpost : ∃ next rest, post = next :: rest := by
        cases post with
        | nil =>
          have hlt := hthin.2
          rw [hset, List.length_append, List.length_singleton] at hlt
          omega
        | cons next rest => exact ⟨next, rest, rfl⟩
      obtain ⟨next, rest, rfl⟩ := hpost
      have hnext : Run next := hothers next (.inr List.mem_cons_self)
      have hgetNext : (rs.set pre.length (run.remove A.length)).items[pre.length + 1]? =
          some next := by
        rw [hset, List.getElem?_append_right (by omega), Nat.add_sub_cancel_left]
        rfl
      rw [hgetNext, Option.bind_some]
      by_cases hfits : (A ++ B).length + next.items.length ≤ runMax
      · rw [if_pos hfits]
        have hjoined : Run ((run.remove A.length).extend M next.items) := by
          refine run_refill hroom ?_ ?_
          · rw [hitems']
            intro hnil
            exact hempty (by rw [(List.append_eq_nil_iff.mp hnil).1]; rfl)
          · rw [hitems', List.length_append]
            exact hfits
        have hrest : (((rs.set pre.length (run.remove A.length)).remove (pre.length + 1)).set
            pre.length ((run.remove A.length).extend M next.items)).items =
              pre ++ (run.remove A.length).extend M next.items :: rest := by
          rw [Vec.set, Vec.remove, hset]
          dsimp only
          rw [List.eraseIdx_append_of_length_le (by omega), Nat.add_sub_cancel_left,
            List.eraseIdx_cons_succ, List.eraseIdx_cons_zero]
          exact Chunked.set_middle
        refine ⟨_, _, _, rfl, hleft _ _ ?_ ?_ ?_ rfl ?_⟩
        · intro r hr
          rw [hrest] at hr
          rcases List.mem_append.mp hr with hr | hr
          · exact hothers r (.inl hr)
          · rcases List.mem_cons.mp hr with rfl | hr
            · exact hjoined
            · exact hothers r (.inr (List.mem_cons_of_mem _ hr))
        · rw [hrest]
          simp
        · rw [hrest, idsOf_append, idsOf_cons, idsOf_cons]
          show idsOf pre ++ ((run.remove A.length).items ++ next.items ++ idsOf rest) = _
          rw [hitems']
          simp
        · rw [hrest, hitems, hjoined.room, hroom, hnext.room]
          simp only [List.length_append, List.length_cons]
          push_cast
          ring
      · rw [if_neg hfits]
        exact ⟨_, _, _, rfl, hkept⟩
    · rw [if_neg hthin]
      exact ⟨_, _, _, rfl, hkept⟩
  · -- it is not there
    rw [hfound]
    refine ⟨len, rs, 0, rfl, hrs, hne, hlen, .absent ?_, by simp⟩
    rw [hitems, idsOf_append, idsOf_cons, hcut]
    intro hmem
    simp only [List.mem_append] at hmem
    rcases hmem with hmem | (hmem | hmem) | hmem
    · exact Nat.lt_irrefl id (hless id hmem)
    · exact Nat.lt_irrefl id (hlow id hmem)
    · exact Nat.lt_irrefl id (hhigh id hmem)
    · exact Nat.lt_irrefl id (hmore id hmem)

/-- **`remove` takes an id out**, and answers the change in bytes. -/
theorem remove_spec {b : Bucket} (h : b.Good) (id : Nat) :
    ∃ b' d, b.remove M id = some (b', d) ∧ Wrote M (Removed id) b b' d := by
  cases b with
  | runs len rs =>
    obtain ⟨len', rs', d, hremove, hshrunk⟩ := removeRuns_spec (M := M) h id
    have hascending : (idsOf rs'.items).Pairwise (· < ·) := hshrunk.ids.ascending h.ascending
    unfold remove
    simp only [hremove, Option.bind_eq_bind, Option.bind_some]
    by_cases hmany : 1 < rs'.items.length
    · rw [if_pos hmany]
      exact ⟨_, _, rfl, ⟨⟨hshrunk.runs, hmany, hshrunk.count⟩, hascending⟩, hshrunk.ids,
        hshrunk.bytes⟩
    · rw [if_neg hmany]
      -- one run is left
      obtain ⟨run, hrun⟩ : ∃ run, rs'.items = [run] := by
        cases hitems : rs'.items with
        | nil => exact absurd hitems hshrunk.left
        | cons run rest =>
          rw [hitems, List.length_cons] at hmany
          exact ⟨run, by rw [List.length_eq_zero_iff.mp (by omega : rest.length = 0)]⟩
      have hids : (flat run).ids = idsOf rs'.items := by
        rw [hrun]
        rfl
      refine ⟨_, _, rfl, ⟨?_, ?_⟩, ?_, ?_⟩
      · rw [hrun]
        exact (hshrunk.runs run (by rw [hrun]; simp)).short
      · rw [hrun]
        show (flat run).ids.Pairwise (· < ·)
        rw [hids]
        exact hascending
      · rw [hrun]
        show Removed id (idsOf rs.items) (flat run).ids
        rw [hids]
        exact hshrunk.ids
      · rw [hshrunk.bytes]
        ring
  | flat v =>
    have hflat : (flat v).ids = v.items := List.append_nil _
    have hs : v.items.Pairwise (· < ·) := hflat ▸ h.ascending
    have hshort : v.items.length ≤ runMax := h.formed
    -- the list without the id
    have hgone : ∃ v' : Vec Nat, (match search v.items id with
        | .ok i => v.remove i
        | .error _ => v) = v' ∧ Removed id v.items v'.items ∧ v'.capacity = v.capacity ∧
        v'.items.length ≤ v.items.length := by
      rcases search_ids hs id with ⟨A, B, hcut, hfound⟩ | ⟨A, B, hcut, hfound, hlow, hhigh⟩
      · refine ⟨_, rfl, ?_, ?_, ?_⟩
        · rw [hfound]
          show Removed id v.items (v.items.eraseIdx A.length)
          rw [hcut, eraseIdx_ids]
          exact .out
        · rw [hfound]
          rfl
        · rw [hfound]
          exact List.length_eraseIdx_le _ _
      · rw [hfound]
        refine ⟨v, rfl, .absent ?_, rfl, Nat.le_refl _⟩
        rw [hcut]
        intro hmem
        rcases List.mem_append.mp hmem with hmem | hmem
        · exact Nat.lt_irrefl id (hlow id hmem)
        · exact Nat.lt_irrefl id (hhigh id hmem)
    obtain ⟨v', hv', hremoved, hcapacity, hle⟩ := hgone
    unfold remove
    dsimp only
    rw [hv']
    by_cases hempty : v'.items.isEmpty = true
    · rw [if_pos hempty]
      have hnil := List.isEmpty_iff.mp hempty
      refine ⟨_, _, rfl, ⟨Nat.zero_le _, .nil⟩, ?_, ?_⟩
      · rw [hflat]
        rw [hnil] at hremoved
        exact hremoved
      · rw [hcapacity]
        simp [heapBytes, Vec.new]
    · rw [if_neg hempty]
      have hflat' : (flat v').ids = v'.items := List.append_nil _
      refine ⟨_, _, rfl, ⟨Nat.le_trans hle hshort, ?_⟩, ?_, ?_⟩
      · rw [hflat']
        exact hremoved.ascending hs
      · rw [hflat, hflat']
        exact hremoved
      · rw [heapBytes, heapBytes, hcapacity, Int.sub_self]

end Remove

/-! ## 6. The ids in order -/

section Iterate

/-- What an iterator has left to give. -/
def ahead : List (Vec Nat) → Nat → List Nat
  | [], _ => []
  | run :: rest, at_ => run.items.drop at_ ++ idsOf rest

theorem next_spec (rs : List (Vec Nat)) : ∀ at_ : Nat,
    (next rs at_ = none ∧ ahead rs at_ = []) ∨
      ∃ id rs' at', next rs at_ = some (id, rs', at') ∧ ahead rs at_ = id :: ahead rs' at' := by
  induction rs with
  | nil => exact fun at_ => .inl ⟨rfl, rfl⟩
  | cons run rest ih =>
    intro at_
    rw [next, ahead]
    cases hget : run.items[at_]? with
    | some id =>
      have hlt : at_ < run.items.length := by
        by_contra hge
        rw [List.getElem?_eq_none (by omega)] at hget
        cases hget
      refine .inr ⟨id, run :: rest, at_ + 1, rfl, ?_⟩
      rw [List.getElem?_eq_getElem hlt] at hget
      rw [List.drop_eq_getElem_cons hlt, Option.some.inj hget]
      rfl
    | none =>
      have hge : run.items.length ≤ at_ := List.getElem?_eq_none_iff.mp hget
      have hahead : idsOf rest = ahead rest 0 := by
        cases rest with
        | nil => rfl
        | cons r rest => rfl
      rw [List.drop_eq_nil_of_le hge, List.nil_append, hahead]
      exact ih 0

/-- **The iterator gives the ids in order, and ends.** -/
theorem taken_eq (n : Nat) : ∀ (rs : List (Vec Nat)) (at_ : Nat),
    taken n rs at_ = (ahead rs at_).take n := by
  induction n with
  | zero => exact fun rs at_ => rfl
  | succ n ih =>
    intro rs at_
    rw [taken]
    rcases next_spec rs at_ with ⟨hnext, hahead⟩ | ⟨id, rs', at', hnext, hahead⟩
    · rw [hnext, hahead]
      rfl
    · rw [hnext, hahead]
      exact congrArg (id :: ·) (ih rs' at')

theorem taken_ids (b : Bucket) (n : Nat) : taken n b.runsOf 0 = b.ids.take n := by
  rw [taken_eq]
  cases hruns : b.runsOf with
  | nil => rw [ids, hruns]; rfl
  | cons run rest => rw [ids, hruns]; rfl

end Iterate

/-! ## 7. Runs of writes -/

/-- A write. -/
inductive Op where
  | add (id : Nat)
  | remove (id : Nat)

section Writes

variable (M : Heap)

/-- What a write does, and the change in bytes. -/
def Op.write (b : Bucket) : Op → Option (Bucket × Int)
  | .add id => b.add M id
  | .remove id => b.remove M id

/-- One write of a run, with the changes so far. -/
def step (st : Bucket × Int) (op : Op) : Option (Bucket × Int) :=
  (op.write M st.1).map fun r => (r.1, st.2 + r.2)

/-- What a write does to a set. -/
def Op.change (s : Set Nat) : Op → Set Nat
  | .add id => {id} ∪ s
  | .remove id => s \ {id}

/-- The ids added and not since removed. -/
def held (ops : List Op) : Set Nat := ops.foldl Op.change ∅

variable {M}

/-- **A write does to the ids what it does to a set**, and counts its bytes. -/
theorem write_spec {b : Bucket} (h : b.Good) {s : Set Nat} (hs : ∀ k, k ∈ b.ids ↔ k ∈ s) (op : Op) :
    ∃ b' d, op.write M b = some (b', d) ∧ b'.Good ∧ (∀ k, k ∈ b'.ids ↔ k ∈ op.change s) ∧
      d = (heapBytes M b' : Int) - heapBytes M b := by
  cases op with
  | add id =>
    obtain ⟨b', d, hwrite, hgood, hids, hbytes⟩ := add_spec (M := M) h id
    refine ⟨b', d, hwrite, hgood, fun k => ?_, hbytes⟩
    rw [hids.mem_iff, hs]
    rfl
  | remove id =>
    obtain ⟨b', d, hwrite, hgood, hids, hbytes⟩ := remove_spec (M := M) h id
    refine ⟨b', d, hwrite, hgood, fun k => ?_, hbytes⟩
    rw [hids.mem_iff h.ascending, hs]
    rfl

/-- **Every run of writes goes through**, to a bucket of the ids it leaves. -/
theorem run_spec {ops : List Op} : ∀ {b : Bucket} {bytes : Int} {s : Set Nat}, b.Good →
    (∀ k, k ∈ b.ids ↔ k ∈ s) → bytes = heapBytes M b →
    ∃ b', Lib.run (step M) (b, bytes) ops = some (b', (heapBytes M b' : Int)) ∧ b'.Good ∧
      ∀ k, k ∈ b'.ids ↔ k ∈ ops.foldl Op.change s := by
  induction ops with
  | nil =>
    intro b bytes s h hs hbytes
    exact ⟨b, by rw [hbytes]; rfl, h, hs⟩
  | cons op ops ih =>
    intro b bytes s h hs hbytes
    obtain ⟨b₁, d, hwrite, hgood, hids, hd⟩ := write_spec (M := M) h hs op
    obtain ⟨b', hrun, hgood', hids'⟩ := @ih b₁ (bytes + d) _ hgood hids (by omega)
    refine ⟨b', ?_, hgood', hids'⟩
    rw [Lib.run, step, hwrite]
    exact hrun

theorem Good.len_eq {b : Bucket} (h : b.Good) : b.len = b.ids.length := by
  cases b with
  | flat v => rw [show (flat v).ids = v.items from List.append_nil _]; rfl
  | runs len rs => exact h.formed.2.2

/-- **A bucket is a sorted set of ids**, whatever is added and removed, and its changes in bytes
add up to its bytes. -/
theorem bucket_is_sorted_set (M : Heap) (ops : List Op) :
    ∃ b bytes, Lib.run (step M) (empty, 0) ops = some (b, bytes) ∧
      (∀ id, id ∈ b.ids ↔ id ∈ held ops) ∧
      b.ids.Pairwise (· < ·) ∧ (∀ n, taken n b.runsOf 0 = b.ids.take n) ∧
      b.len = b.ids.length ∧
      (∀ len rs, b = .runs len rs → 2 ≤ rs.items.length ∧
        ∀ run ∈ rs.items, run.items ≠ [] ∧ run.items.length ≤ runMax) ∧
      bytes = heapBytes M b := by
  have hempty : empty.Good := ⟨Nat.zero_le _, .nil⟩
  have hnone : ∀ k, k ∈ empty.ids ↔ k ∈ (∅ : Set Nat) := by simp [empty, ids, runsOf, Vec.new]
  obtain ⟨b, hrun, hgood, hids⟩ := @run_spec M ops empty 0 ∅ hempty hnone
    (by simp [empty, heapBytes, Vec.new])
  refine ⟨b, _, hrun, hids, hgood.ascending, taken_ids b, hgood.len_eq, ?_, rfl⟩
  rintro len rs rfl
  obtain ⟨hruns, hmany, -⟩ := hgood.formed
  exact ⟨hmany, fun run hrun => ⟨(hruns run hrun).full, (hruns run hrun).short⟩⟩

end Writes

end Bucket

end Fenec
