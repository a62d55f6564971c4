/-
# The change feed: which ids changed

`changes.rs` keeps no events.  A write leaves a mark, its number with the collection and the id,
in a ring of bounded length, and a subscriber that has seen everything up to a number asks for the
ids written after it.  The ring forgets its oldest marks; `horizon` is the smallest cursor it can
still answer, and everyone else is told to start over.

What the ring is for is said by `Told`, every mark since the counter was last set: nothing of that
is ever forgotten.  `Whole` ties the ring to it.  The ring is the end of that list, the horizon is
no more than the last reset's counter or the number of a mark that was dropped, and no mark dropped
is above it.  So the horizon is at or below a cursor exactly when all marks after the cursor are
held (`Whole.caught_iff`), and that needs no bound on the run: the counter may wrap.  That the held
marks after the cursor are then the end of the ring, which the binary search relies on, is
`Whole.parted`: a run that wraps past its own start has dropped a mark above every cursor but one.
-/
import Mathlib.Data.List.Basic
import Fenec.Value

namespace Fenec

namespace Changes

/-! ## 1. Sorted and deduplicated -/

section Ascending

variable {α : Type} [LinearOrder α]

/-- `Vec::dedup`: of a run of equal elements, one. -/
def dedup : List α → List α
  | [] => []
  | [a] => [a]
  | a :: b :: l => if a = b then dedup (b :: l) else a :: dedup (b :: l)

/-- `sort_unstable` and `dedup`. -/
def sortDedup (l : List α) : List α := dedup (l.mergeSort fun a b => decide (a ≤ b))

@[simp]
theorem mem_dedup {x : α} (l : List α) : x ∈ dedup l ↔ x ∈ l := by
  fun_induction dedup l with
  | case1 => rfl
  | case2 a => rfl
  | case3 a l ih => simp [ih]
  | case4 a b l hne ih => simp [ih]

/-- What is in order is in strict order once no neighbours are equal. -/
theorem dedup_ascending {l : List α} (h : l.Pairwise (· ≤ ·)) : (dedup l).Pairwise (· < ·) := by
  fun_induction dedup l with
  | case1 => exact .nil
  | case2 a => exact List.pairwise_singleton _ _
  | case3 a l ih => exact ih h.of_cons
  | case4 a b l hne ih =>
    refine List.pairwise_cons.mpr ⟨fun x hx => ?_, ih h.of_cons⟩
    have hab : a < b := lt_of_le_of_ne (List.rel_of_pairwise_cons h (by simp)) hne
    have hbx : b ≤ x := by
      rcases List.mem_cons.mp ((mem_dedup _).mp hx) with rfl | hx
      · exact le_refl _
      · exact List.rel_of_pairwise_cons h.of_cons hx
    exact lt_of_lt_of_le hab hbx

@[simp]
theorem mem_sortDedup {x : α} (l : List α) : x ∈ sortDedup l ↔ x ∈ l := by
  simp [sortDedup]

theorem sortDedup_ascending (l : List α) : (sortDedup l).Pairwise (· < ·) := by
  refine dedup_ascending ?_
  have h : (l.mergeSort fun a b => decide (a ≤ b)).Pairwise fun a b => decide (a ≤ b) = true :=
    List.pairwise_mergeSort (by grind) (by grind) l
  exact h.imp of_decide_eq_true

end Ascending

/-! ## 2. The ring -/

/-- `Mark`: a single write. -/
structure Mark where
  seq : Nat
  cid : UInt32
  id : DocId
  deriving DecidableEq, Repr

/-- `Since`. -/
inductive Since where
  | reseed
  | ids (ids : List DocId)
  deriving DecidableEq, Repr

/-- `ChangeLog`.  The counter and the horizon are `u64`s, the capacity a `usize`. -/
structure ChangeLog where
  ring : List Mark
  cap : Nat
  seq : Nat
  horizon : Nat
  deriving DecidableEq, Repr

/-- `VecDeque::partition_point` of a list the predicate cuts in two. -/
def partitionPoint (p : Mark → Bool) (ring : List Mark) : Nat := (ring.takeWhile p).length

namespace ChangeLog

/-- `ChangeLog::new`. -/
def new (cap : UInt64) : ChangeLog := ⟨[], max cap.toNat 1, 0, 0⟩

/-- `ChangeLog::evict`. -/
def evict (l : ChangeLog) : ChangeLog :=
  match l.ring with
  | [] => l
  | m :: ring => { l with ring, horizon := max l.horizon m.seq }

/-- The loop of `set_capacity`: it evicts while the ring is longer than its capacity. -/
def shrink : Nat → ChangeLog → ChangeLog
  | 0, l => l
  | fuel + 1, l => if l.cap < l.ring.length then shrink fuel l.evict else l

/-- `ChangeLog::set_capacity`. -/
def setCapacity (l : ChangeLog) (cap : UInt64) : ChangeLog :=
  shrink l.ring.length { l with cap := max cap.toNat 1 }

/-- `ChangeLog::reset`. -/
def reset (l : ChangeLog) (seq : UInt64) : ChangeLog :=
  { l with ring := [], seq := seq.toNat, horizon := seq.toNat }

/-- **`ChangeLog::record`.**  The counter wraps. -/
def record (l : ChangeLog) (cid : UInt32) (id : DocId) : ChangeLog :=
  let seq := (l.seq + 1) % 2 ^ 64
  let l := if l.ring.length = l.cap then l.evict else l
  { l with ring := l.ring ++ [⟨seq, cid, id⟩], seq }

/-- **`ChangeLog::since`.** -/
def since (l : ChangeLog) (since : Nat) (cid : UInt32) : Since :=
  if since > l.seq ∨ since < l.horizon then .reseed
  else
    let start := partitionPoint (fun m => m.seq ≤ since) l.ring
    .ids (sortDedup (((l.ring.drop start).filter fun m => m.cid == cid).map (·.id)))

/-- **`ChangeLog::changed_collections`.**  The numbers are sorted as `u64`s. -/
def changedCollections (l : ChangeLog) (since : Nat) : Option (List UInt32) :=
  if since > l.seq ∨ since < l.horizon then none
  else
    let start := partitionPoint (fun m => m.seq ≤ since) l.ring
    some ((sortDedup ((l.ring.drop start).map fun m => m.cid.toNat)).map UInt32.ofNat)

end ChangeLog

/-! ## 3. What was recorded -/

/-- What is done to a ring. -/
inductive Op where
  | record (cid : UInt32) (id : DocId)
  | setCapacity (cap : UInt64)
  | reset (seq : UInt64)
  deriving DecidableEq, Repr

/-- `ChangeLog` after one operation. -/
def ChangeLog.apply (l : ChangeLog) : Op → ChangeLog
  | .record cid id => l.record cid id
  | .setCapacity cap => l.setCapacity cap
  | .reset seq => l.reset seq

/-- **Everything since the last reset**: the counter it set, and each mark since. -/
structure Told where
  start : Nat
  marks : List Mark
  deriving DecidableEq, Repr

namespace Told

/-- The counter, the marks counted from the reset. -/
def seq (t : Told) : Nat := (t.start + t.marks.length) % 2 ^ 64

/-- An operation adds a mark, forgets none, or begins anew. -/
def apply (t : Told) : Op → Told
  | .record cid id => { t with marks := t.marks ++ [⟨(t.seq + 1) % 2 ^ 64, cid, id⟩] }
  | .setCapacity _ => t
  | .reset seq => ⟨seq.toNat, []⟩

end Told

/-- What a list of operations records. -/
def recorded (ops : List Op) : Told := ops.foldl Told.apply ⟨0, []⟩

/-- The marks after a cursor. -/
def afterCursor (since : Nat) (marks : List Mark) : List Mark :=
  marks.filter fun m => decide (since < m.seq)

/-- **The ring can answer a cursor**: it holds every mark after it, and the cursor lies between the
last reset's counter and the counter. -/
def Caught (l : ChangeLog) (t : Told) (since : Nat) : Prop :=
  afterCursor since l.ring = afterCursor since t.marks ∧ t.start ≤ since ∧ since ≤ l.seq

/-! ## 4. The ring is the end of what was recorded -/

/-- A history's marks are numbered one after another from the reset's counter. -/
def Told.Numbered (t : Told) : Prop :=
  ∀ i (h : i < t.marks.length), t.marks[i].seq = (t.start + i + 1) % 2 ^ 64

/-- The ring is the end of what was recorded, and the horizon covers the reset's counter and each
mark dropped, and nothing else. -/
def Ends (l : ChangeLog) (t : Told) : Prop :=
  ∃ dropped, t.marks = dropped ++ l.ring ∧ t.start ≤ l.horizon ∧
    (∀ m ∈ dropped, m.seq ≤ l.horizon) ∧ (l.horizon = t.start ∨ ∃ m ∈ dropped, m.seq = l.horizon)

/-- **What ties the ring to what was recorded.** -/
structure Whole (l : ChangeLog) (t : Told) : Prop where
  numbered : t.Numbered
  seq_eq : l.seq = t.seq
  start_lt : t.start < 2 ^ 64
  cap_pos : 0 < l.cap
  cap_lt : l.cap < 2 ^ 64
  fits : l.ring.length ≤ l.cap
  ends : Ends l t

section Evict

variable {l : ChangeLog} {t : Told}

@[simp]
theorem evict_cap (l : ChangeLog) : l.evict.cap = l.cap := by
  unfold ChangeLog.evict
  split <;> rfl

@[simp]
theorem evict_seq (l : ChangeLog) : l.evict.seq = l.seq := by
  unfold ChangeLog.evict
  split <;> rfl

@[simp]
theorem evict_length (l : ChangeLog) : l.evict.ring.length = l.ring.length - 1 := by
  unfold ChangeLog.evict
  split <;> simp [*]

/-- An eviction moves one mark from the ring to those dropped. -/
theorem Ends.evict (h : Ends l t) : Ends l.evict t := by
  obtain ⟨dropped, hmarks, hstart, hdrop, hleast⟩ := h
  unfold ChangeLog.evict
  split
  · exact ⟨dropped, hmarks, hstart, hdrop, hleast⟩
  · rename_i m ring hring
    refine ⟨dropped ++ [m], by simp [hmarks, hring], le_trans hstart (le_max_left _ _), ?_, ?_⟩
    · intro x hx
      rcases List.mem_append.mp hx with hx | hx
      · exact le_trans (hdrop x hx) (le_max_left _ _)
      · rw [List.mem_singleton.mp hx]
        exact le_max_right _ _
    · -- the horizon stays, or it becomes the number of the mark that goes
      rcases le_total m.seq l.horizon with hle | hle
      · dsimp only
        rw [max_eq_left hle]
        exact hleast.imp_right fun ⟨x, hx, he⟩ => ⟨x, List.mem_append_left _ hx, he⟩
      · dsimp only
        rw [max_eq_right hle]
        exact .inr ⟨m, by simp, rfl⟩

/-- The loop leaves counter and capacity, and a ring that fits. -/
theorem shrink_spec : ∀ (fuel : Nat) {l : ChangeLog}, Ends l t →
    l.ring.length ≤ fuel + l.cap →
    Ends (l.shrink fuel) t ∧ (l.shrink fuel).ring.length ≤ l.cap ∧
      (l.shrink fuel).cap = l.cap ∧ (l.shrink fuel).seq = l.seq
  | 0, l, h, hfuel => ⟨h, by simpa [ChangeLog.shrink] using hfuel, rfl, rfl⟩
  | fuel + 1, l, h, hfuel => by
    unfold ChangeLog.shrink
    split
    · have := shrink_spec fuel h.evict (by simp; omega)
      simpa using this
    · exact ⟨h, by omega, rfl, rfl⟩

end Evict

/-! ## 5. Every operation keeps it -/

namespace Whole

variable {l : ChangeLog} {t : Told}

theorem new (cap : UInt64) : Whole (.new cap) ⟨0, []⟩ := by
  have hcap := cap.toNat_lt
  refine ⟨fun i h => absurd h (Nat.not_lt_zero i), rfl, by simp, ?_, ?_, ?_, ?_⟩
  · simp only [ChangeLog.new]
    omega
  · simp only [ChangeLog.new]
    omega
  · simp [ChangeLog.new]
  · exact ⟨[], rfl, le_refl _, by simp, .inl rfl⟩

/-- The mark a record adds carries the next number. -/
theorem record (h : Whole l t) (cid : UInt32) (id : DocId) :
    Whole (l.record cid id) (t.apply (.record cid id)) := by
  -- the ring before the push: one mark shorter where it was full
  obtain ⟨l', hl'⟩ : ∃ l', l' = if l.ring.length = l.cap then l.evict else l := ⟨_, rfl⟩
  have hends : Ends l' t := by
    rw [hl']
    split
    · exact h.ends.evict
    · exact h.ends
  have hcap : l'.cap = l.cap := by rw [hl']; split <;> simp
  have hfits : l'.ring.length < l.cap := by
    have := h.fits
    have := h.cap_pos
    rw [hl']
    split
    · simp only [evict_length]
      omega
    · omega
  have heq : l.record cid id =
      { l' with ring := l'.ring ++ [⟨(l.seq + 1) % 2 ^ 64, cid, id⟩],
                seq := (l.seq + 1) % 2 ^ 64 } := by
    rw [ChangeLog.record, hl']
  have hseq : (t.seq + 1) % 2 ^ 64 = (t.start + t.marks.length + 1) % 2 ^ 64 := by
    rw [Told.seq]
    omega
  rw [heq]
  refine ⟨?_, ?_, h.start_lt, ?_, ?_, ?_, ?_⟩
  · intro i hi
    simp only [Told.apply, List.length_append, List.length_singleton] at hi ⊢
    rcases Nat.lt_or_ge i t.marks.length with hlt | hge
    · rw [List.getElem_append_left hlt]
      exact h.numbered i hlt
    · have hi : i = t.marks.length := by omega
      subst hi
      simpa using hseq
  · simp only [Told.apply, Told.seq, List.length_append, List.length_singleton, h.seq_eq]
    omega
  · simpa [hcap] using h.cap_pos
  · simpa [hcap] using h.cap_lt
  · simpa [hcap] using Nat.succ_le_of_lt hfits
  · obtain ⟨dropped, hmarks, hstart, hdrop, hleast⟩ := hends
    refine ⟨dropped, ?_, hstart, hdrop, hleast⟩
    simp [Told.apply, hmarks, h.seq_eq]

theorem setCapacity (h : Whole l t) (cap : UInt64) : Whole (l.setCapacity cap) t := by
  have hcap := cap.toNat_lt
  have hends : Ends { l with cap := max cap.toNat 1 } t := h.ends
  obtain ⟨he, hf, hc, hs⟩ := shrink_spec l.ring.length hends (by simp)
  refine ⟨h.numbered, hs.trans h.seq_eq, h.start_lt, ?_, ?_, hf.trans_eq hc.symm, he⟩
  · rw [ChangeLog.setCapacity, hc]
    simp
  · rw [ChangeLog.setCapacity, hc]
    simp only
    omega

theorem reset (h : Whole l t) (seq : UInt64) : Whole (l.reset seq) ⟨seq.toNat, []⟩ := by
  have hlt := seq.toNat_lt
  refine ⟨fun i h => absurd h (Nat.not_lt_zero i), ?_, hlt, h.cap_pos, h.cap_lt,
    by simp [ChangeLog.reset], ?_⟩
  · simp only [ChangeLog.reset, Told.seq, List.length_nil]
    omega
  · exact ⟨[], rfl, le_refl _, by simp, .inl rfl⟩

/-- **The step**: each operation on the ring is the same operation on what was recorded. -/
theorem apply (h : Whole l t) : ∀ op, Whole (l.apply op) (t.apply op)
  | .record cid id => h.record cid id
  | .setCapacity cap => h.setCapacity cap
  | .reset seq => h.reset seq

/-- **The run.** -/
theorem run (h : Whole l t) (ops : List Op) :
    Whole (ops.foldl ChangeLog.apply l) (ops.foldl Told.apply t) := by
  induction ops generalizing l t with
  | nil => exact h
  | cons op ops ih => exact ih (h.apply op)

end Whole

/-! ## 6. What the horizon says -/

/-- Where the cursor cuts a ring in two, what is past the cut is what is after the cursor. -/
theorem drop_partitionPoint {s : Nat} {ring : List Mark}
    (h : ring.Pairwise fun a b => b.seq ≤ s → a.seq ≤ s) :
    ring.drop (partitionPoint (fun m => m.seq ≤ s) ring) = afterCursor s ring := by
  induction ring with
  | nil => rfl
  | cons m ring ih =>
    obtain ⟨hm, hring⟩ := List.pairwise_cons.mp h
    rcases Nat.lt_or_ge s m.seq with hlt | hge
    · -- the first mark is after the cursor, and so is every one behind it
      have hall : ∀ x ∈ ring, s < x.seq := fun x hx => by
        have := hm x hx
        omega
      have hnot : ¬ m.seq ≤ s := by omega
      have hkeep : afterCursor s (m :: ring) = m :: ring := by
        rw [afterCursor, List.filter_eq_self]
        simpa [hlt] using hall
      rw [hkeep]
      simp [partitionPoint, hnot]
    · have hnot : ¬ s < m.seq := by omega
      simpa [partitionPoint, afterCursor, hge, hnot] using ih hring

namespace Whole

variable {l : ChangeLog} {t : Told} {s : Nat}

/-- **The test `since` makes is the one it is for**: the cursor is at the horizon or above exactly
when every mark after it is held and the last reset is not after it. -/
theorem caught_iff (h : Whole l t) : Caught l t s ↔ l.horizon ≤ s ∧ s ≤ l.seq := by
  obtain ⟨dropped, hmarks, hstart, hdrop, hleast⟩ := h.ends
  have hnone : afterCursor s l.ring = afterCursor s t.marks ↔ ∀ m ∈ dropped, m.seq ≤ s := by
    rw [afterCursor, afterCursor, hmarks, List.filter_append, List.self_eq_append_left,
      List.filter_eq_nil_iff]
    simp
  rw [Caught, hnone, ← and_assoc]
  refine and_congr_left fun _ => ⟨fun ⟨hd, hs⟩ => ?_, fun hs => ⟨fun m hm => ?_, ?_⟩⟩
  · rcases hleast with he | ⟨m, hm, he⟩
    · rwa [he]
    · exact he ▸ hd m hm
  · exact (hdrop m hm).trans hs
  · exact hstart.trans hs

/-- A counter that has gone round comes back to its start with every mark dropped below one
cursor, the largest of all: what the ring then holds is not after it. -/
theorem wrapped (h : Whole l t) (hw : 2 ^ 64 ≤ t.start + t.marks.length) (hlow : l.horizon ≤ s)
    (hhigh : s ≤ l.seq) : s = 2 ^ 64 - 1 := by
  obtain ⟨dropped, hmarks, hstart, hdrop, -⟩ := h.ends
  have hseq : l.seq = (t.start + t.marks.length) % 2 ^ 64 := h.seq_eq
  have hlt := h.start_lt
  have hlen : t.marks.length = dropped.length + l.ring.length := by rw [hmarks, List.length_append]
  have hfit := h.fits.trans_lt h.cap_lt
  -- the mark a whole round before the next one is dropped, and so is the one before it
  have hgone : ∀ i < dropped.length, (t.start + i + 1) % 2 ^ 64 ≤ s := by
    intro i hi
    have hil : i < t.marks.length := by omega
    have hm : t.marks[i] ∈ dropped := by
      simp only [hmarks, List.getElem_append_left hi]
      exact List.getElem_mem _
    have := hdrop _ hm
    rw [h.numbered i hil] at this
    omega
  have hround : 2 ^ 64 ≤ t.marks.length := by omega
  have hone := hgone (t.marks.length - 2 ^ 64) (by omega)
  rcases Nat.lt_or_ge (2 ^ 64) t.marks.length with hmore | hless
  · have htwo := hgone (t.marks.length - 2 ^ 64 - 1) (by omega)
    omega
  · omega

/-- **A ring that is asked is cut in two by the cursor**: no mark up to it stands behind one after
it. -/
theorem partitioned (h : Whole l t) (hlow : l.horizon ≤ s) (hhigh : s ≤ l.seq) :
    l.ring.Pairwise fun a b => b.seq ≤ s → a.seq ≤ s := by
  obtain ⟨dropped, hmarks, -⟩ := h.ends
  have hlen : t.marks.length = dropped.length + l.ring.length := by rw [hmarks, List.length_append]
  have hnum : ∀ i (hi : i < l.ring.length),
      l.ring[i].seq = (t.start + (dropped.length + i) + 1) % 2 ^ 64 := by
    intro i hi
    have := h.numbered (dropped.length + i) (by omega)
    simpa [hmarks] using this
  rw [List.pairwise_iff_getElem]
  intro i j hi hj hij
  rw [hnum i hi, hnum j hj]
  rcases Nat.lt_or_ge (t.start + t.marks.length) (2 ^ 64) with hlt | hge
  · omega
  · have := h.wrapped hge hlow hhigh
    omega

/-- **The marks after a cursor the ring answers are its end**, as the binary search takes them. -/
theorem parted (h : Whole l t) (hlow : l.horizon ≤ s) (hhigh : s ≤ l.seq) :
    l.ring.drop (partitionPoint (fun m => m.seq ≤ s) l.ring) = afterCursor s t.marks := by
  have hcaught := (h.caught_iff.mpr ⟨hlow, hhigh⟩).1
  rw [← hcaught]
  exact drop_partitionPoint (h.partitioned hlow hhigh)

end Whole

/-! ## 7. No change is missed -/

/-- Numbers that are collections are in the same order as collections. -/
theorem ascending_ofNat {ns : List Nat} (h : ns.Pairwise (· < ·)) (hlt : ∀ n ∈ ns, n < 2 ^ 32) :
    (ns.map UInt32.ofNat).Pairwise (· < ·) := by
  rw [List.pairwise_map]
  refine h.imp_of_mem fun {a b} ha hb hab => ?_
  rw [UInt32.lt_iff_toNat_lt, UInt32.toNat_ofNat_of_lt' (hlt a ha),
    UInt32.toNat_ofNat_of_lt' (hlt b hb)]
  exact hab

/-- **The change ring never misses a change.**  After any operations, a cursor the ring can answer
is told exactly the ids recorded after it in the collection asked for, and exactly the collections
recorded after it, each once and in order; every other cursor is told to start over. -/
theorem never_missed (cap : UInt64) (ops : List Op) (s : Nat) (cid : UInt32) :
    let l := ops.foldl ChangeLog.apply (.new cap)
    let t := recorded ops
    (Caught l t s →
      (∃ ids, l.since s cid = .ids ids ∧ ids.Pairwise (· < ·) ∧
        ∀ id, id ∈ ids ↔ ∃ m ∈ t.marks, s < m.seq ∧ m.cid = cid ∧ m.id = id) ∧
      ∃ cids, l.changedCollections s = some cids ∧ cids.Pairwise (· < ·) ∧
        ∀ c, c ∈ cids ↔ ∃ m ∈ t.marks, s < m.seq ∧ m.cid = c) ∧
    (¬ Caught l t s → l.since s cid = .reseed ∧ l.changedCollections s = none) := by
  intro l t
  have h : Whole l t := (Whole.new cap).run ops
  rw [h.caught_iff]
  constructor
  · rintro ⟨hlow, hhigh⟩
    have hserved : ¬ (s > l.seq ∨ s < l.horizon) := by omega
    refine ⟨⟨_, by rw [ChangeLog.since, if_neg hserved], sortDedup_ascending _, fun id => ?_⟩,
      ⟨_, by rw [ChangeLog.changedCollections, if_neg hserved], ?_, fun c => ?_⟩⟩
    · rw [mem_sortDedup, h.parted hlow hhigh]
      simp only [afterCursor, List.mem_map, List.mem_filter, decide_eq_true_eq, beq_iff_eq]
      grind
    · exact ascending_ofNat (sortDedup_ascending _) fun n hn => by
        obtain ⟨m, -, rfl⟩ := List.mem_map.mp ((mem_sortDedup _).mp hn)
        exact m.cid.toNat_lt
    · rw [h.parted hlow hhigh]
      simp [afterCursor, and_assoc]
  · intro hno
    have hstale : s > l.seq ∨ s < l.horizon := by omega
    exact ⟨by rw [ChangeLog.since, if_pos hstale],
      by rw [ChangeLog.changedCollections, if_pos hstale]⟩

/-- A ring of two that has dropped the first of three marks: the cursor behind that mark is told
the two that are left. -/
theorem never_missed_of_two :
    let l := [Op.record 1 7, .record 1 5, .record 2 9].foldl ChangeLog.apply (.new 2)
    Caught l (recorded [.record 1 7, .record 1 5, .record 2 9]) 1 ∧
      ∃ ids, l.since 1 1 = .ids ids ∧ ids.Pairwise (· < ·) ∧
        ∀ id, id ∈ ids ↔ ∃ m ∈ (recorded [.record 1 7, .record 1 5, .record 2 9]).marks,
          1 < m.seq ∧ m.cid = 1 ∧ m.id = id := by
  have hcaught : Caught ([Op.record 1 7, .record 1 5, .record 2 9].foldl ChangeLog.apply (.new 2))
      (recorded [.record 1 7, .record 1 5, .record 2 9]) 1 := by
    refine ⟨?_, ?_, ?_⟩ <;> decide
  exact ⟨hcaught, ((never_missed 2 _ 1 1).1 hcaught).1⟩

end Changes

end Fenec
