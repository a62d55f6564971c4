/-
# Runs merged in place

`in` lists and unions are answered from buckets, each an ascending run of ids; `merge_runs` lays the
runs end to end and merges them two at a time, round after round.  Where each run ends is kept in
one array, and a round writes the ends of the merged runs over the ones it has read: the place it
writes is never past the pair it reads (`Reading`), so every pair is read as the round before left
it.

A round is said of the runs themselves: on runs laid end to end (`endsOf`) it gives the runs
merged in pairs, the odd one as it is, laid end to end again (`round_spec`).
-/
import Fenec.Value
import Fenec.Lib.Loop
import Fenec.Lib.Stretches
import Mathlib.Data.List.Pairwise
import Mathlib.Data.List.Perm.Basic

namespace Fenec.MergeRuns

open Lib

/-! ## 1. The code -/

/-- The inner loop over two runs, and what is left of either after it. -/
def mergeTwo : List DocId → List DocId → List DocId
  | i :: a, j :: b => if j < i then j :: mergeTwo (i :: a) b else i :: mergeTwo a (j :: b)
  | a, b => a ++ b
termination_by a b => a.length + b.length

/-- A round under way. -/
structure Round where
  start : Nat
  kept : Nat
  ends : List Nat
  out : List DocId

/-- One pair of runs merged, its end written over an end already read. -/
def pairStep (ids : List DocId) (s : Round) (pair : Nat) : Option Round := do
  let mid ← s.ends[2 * pair]?
  let stop := s.ends[2 * pair + 1]?.getD mid
  let a ← sliceOf ids s.start mid
  let b ← sliceOf ids mid stop
  if s.kept < s.ends.length then
    pure ⟨stop, s.kept + 1, s.ends.set s.kept stop, s.out ++ mergeTwo a b⟩
  else none

/-- A round: the runs merged in pairs, nothing where an index is out of bounds. -/
def round (ids : List DocId) (ends : List Nat) : Option (List DocId × List Nat) := do
  let s ← (List.range ((ends.length + 1) / 2)).foldlM (pairStep ids) ⟨0, 0, ends, []⟩
  pure (s.out, s.ends.take s.kept)

/-- One turn of the loop over the rounds. -/
def turn (s : List DocId × List Nat) : Turn (List DocId × List Nat) (Option (List DocId)) :=
  if 1 < s.2.length then
    match round s.1 s.2 with
    | some s' => .again s'
    | none => .done none
  else .done (some s.1)

/-! ## 2. Two runs -/

variable {ids pre : List DocId} {runs : List (List DocId)} {ends : List Nat}

theorem mergeTwo_nil_right (a : List DocId) : mergeTwo a [] = a := by
  cases a <;> simp [mergeTwo]

/-- The inner loop is the merge of two lists. -/
theorem mergeTwo_eq (a b : List DocId) : mergeTwo a b = List.merge a b := by
  induction a, b using mergeTwo.induct with
  | case1 i a j b hlt ih =>
    have hnot : ¬ decide (i ≤ j) = true := by simpa using hlt
    rw [mergeTwo, if_pos hlt, List.cons_merge_cons_neg _ _ _ hnot, ih]
  | case2 i a j b hge ih =>
    have hle : decide (i ≤ j) = true := by simpa using hge
    rw [mergeTwo, if_neg hge, List.cons_merge_cons_pos _ _ _ hle, ih]
  | case3 a b hne =>
    cases a with
    | nil => simp [mergeTwo]
    | cons i a =>
      cases b with
      | nil => simp [mergeTwo]
      | cons j b => exact absurd rfl (hne i a j b rfl)

theorem mergeTwo_perm (a b : List DocId) : (mergeTwo a b).Perm (a ++ b) := by
  rw [mergeTwo_eq]
  exact List.merge_perm_append _

theorem mergeTwo_ascending {a b : List DocId} (ha : a.Pairwise (· ≤ ·)) (hb : b.Pairwise (· ≤ ·)) :
    (mergeTwo a b).Pairwise (· ≤ ·) := by
  have hsorted : (List.merge a b fun a b : DocId => decide (a ≤ b)).Pairwise
      fun a b => decide (a ≤ b) = true := List.pairwise_merge (fun a b c hab hbc => by
        rw [decide_eq_true_eq] at hab hbc ⊢
        exact Nat.le_trans hab hbc)
    (fun a b => by simpa using Nat.le_total a b) a b (ha.imp fun h => decide_eq_true h)
    (hb.imp fun h => decide_eq_true h)
  rw [mergeTwo_eq]
  exact hsorted.imp fun h => of_decide_eq_true h

/-! ## 3. Runs end to end -/

/-- Where each run ends, the first starting at a place. -/
def endsOf : Nat → List (List DocId) → List Nat
  | _, [] => []
  | n, run :: runs => (n + run.length) :: endsOf (n + run.length) runs

/-- The runs merged in pairs, an odd one as it is. -/
def pairUp : List (List DocId) → List (List DocId)
  | [] => []
  | [a] => [a]
  | a :: b :: runs => mergeTwo a b :: pairUp runs

@[simp] theorem length_endsOf (n : Nat) : (endsOf n runs).length = runs.length := by
  induction runs generalizing n with
  | nil => rfl
  | cons run runs ih => rw [endsOf, List.length_cons, List.length_cons, ih]

theorem length_pairUp : (pairUp runs).length = (runs.length + 1) / 2 := by
  induction runs using pairUp.induct with
  | case1 => rfl
  | case2 a => simp [pairUp]
  | case3 a b runs ih =>
    rw [pairUp, List.length_cons, List.length_cons, List.length_cons, ih]
    omega

theorem pairUp_perm : (pairUp runs).flatten.Perm runs.flatten := by
  induction runs using pairUp.induct with
  | case1 => exact .refl _
  | case2 a => exact .refl _
  | case3 a b runs ih =>
    rw [pairUp, List.flatten_cons, List.flatten_cons, List.flatten_cons, ← List.append_assoc]
    exact (mergeTwo_perm a b).append ih

theorem pairUp_ascending (h : ∀ run ∈ runs, run.Pairwise (· ≤ ·)) :
    ∀ run ∈ pairUp runs, run.Pairwise (· ≤ ·) := by
  induction runs using pairUp.induct with
  | case1 => exact h
  | case2 a => exact h
  | case3 a b runs ih =>
    have hrest := ih fun run hrun => h run (by simp [hrun])
    intro run hrun
    rcases List.mem_cons.mp hrun with rfl | hrun
    · exact mergeTwo_ascending (h a (by simp)) (h b (by simp))
    · exact hrest run hrun

/-! ## 4. A round -/

/-- **A round halfway**: so many ends written, then as many already read, then the ends of the runs
not yet read, as they were. -/
structure Reading (ids pre : List DocId) (runs : List (List DocId)) (merged stale : List Nat)
    (s : Round) : Prop where
  ids : ids = pre ++ runs.flatten
  ends : s.ends = merged ++ (stale ++ endsOf pre.length runs)
  start : s.start = pre.length
  kept : s.kept = merged.length
  behind : stale.length = merged.length

variable {a b post : List DocId} {merged stale fresh rest : List Nat} {s : Round}

/-- **A pair merged**: its two runs read where they end, and one end written where one was read. -/
theorem pairStep_eq (fresh rest : List Nat) (hids : ids = pre ++ (a ++ (b ++ post)))
    (hends : s.ends = merged ++ (stale ++ (fresh ++ rest))) (hstart : s.start = pre.length)
    (hkept : s.kept = merged.length) (hbehind : stale.length = merged.length)
    (hmid : (fresh ++ rest)[0]? = some (pre.length + a.length)) (hne : fresh ≠ [])
    (hstop : (fresh ++ rest)[1]?.getD (pre.length + a.length) =
      pre.length + a.length + b.length) :
    pairStep ids s merged.length = some ⟨pre.length + a.length + b.length, merged.length + 1,
      (merged ++ [pre.length + a.length + b.length]) ++ ((stale ++ fresh).tail ++ rest),
      s.out ++ mergeTwo a b⟩ := by
  have hplace : ∀ i, s.ends[2 * merged.length + i]? = (fresh ++ rest)[i]? := by
    intro i
    have hlen : (merged ++ stale).length + i = 2 * merged.length + i := by
      rw [List.length_append, hbehind, Nat.two_mul]
    rw [hends, ← List.append_assoc, ← hlen, List.getElem?_append_right (Nat.le_add_right _ _),
      Nat.add_sub_cancel_left]
  have hone : sliceOf ids s.start (pre.length + a.length) = some a := by
    rw [hstart, hids]
    exact sliceOf_middle
  have htwo : sliceOf ids (pre.length + a.length) (pre.length + a.length + b.length) = some b := by
    rw [hids, ← List.append_assoc, ← List.length_append]
    exact sliceOf_middle
  have hnonempty : stale ++ fresh ≠ [] := List.append_ne_nil_of_right_ne_nil _ hne
  have hhead : stale ++ (fresh ++ rest) =
      (stale ++ fresh).head hnonempty :: ((stale ++ fresh).tail ++ rest) := by
    rw [← List.append_assoc, ← List.cons_append, List.cons_head_tail]
  have hinside : s.kept < s.ends.length := by
    rw [hkept, hends, List.length_append, hhead, List.length_cons]
    omega
  have hwrite : s.ends.set s.kept (pre.length + a.length + b.length) =
      (merged ++ [pre.length + a.length + b.length]) ++ ((stale ++ fresh).tail ++ rest) := by
    rw [hkept, hends, hhead, List.set_append_right _ _ (Nat.le_refl _), Nat.sub_self,
      List.set_cons_zero, List.append_assoc]
    rfl
  have hread : s.ends[2 * merged.length]? = some (pre.length + a.length) := (hplace 0).trans hmid
  unfold pairStep
  rw [hread, hplace 1]
  simp only [Option.bind_eq_bind, Option.bind_some, hstop, hone, htwo]
  rw [if_pos hinside, hwrite, hkept]
  rfl

/-- **The rest of a round** merges the rest of the runs in pairs. -/
theorem pairs_spec (h : Reading ids pre runs merged stale s) :
    ∃ s', (List.range' merged.length ((runs.length + 1) / 2)).foldlM (pairStep ids) s = some s' ∧
      s'.out = s.out ++ (pairUp runs).flatten ∧
      s'.ends.take s'.kept = merged ++ endsOf pre.length (pairUp runs) := by
  induction runs using pairUp.induct generalizing pre merged stale s with
  | case1 =>
    refine ⟨s, rfl, (List.append_nil _).symm, ?_⟩
    rw [h.ends, h.kept, List.take_left]
    exact (List.append_nil _).symm
  | case2 a =>
    -- the odd run, merged with nothing
    have hids : ids = pre ++ (a ++ ([] ++ [])) := by
      rw [h.ids]
      rfl
    have hstep := pairStep_eq [pre.length + a.length] [] hids h.ends h.start h.kept h.behind rfl
      (List.cons_ne_nil _ _) rfl
    refine ⟨⟨pre.length + a.length, merged.length + 1,
      (merged ++ [pre.length + a.length]) ++ ((stale ++ [pre.length + a.length]).tail ++ []),
      s.out ++ mergeTwo a []⟩, ?_, ?_, ?_⟩
    · have hcount : ([a].length + 1) / 2 = 1 := by simp
      rw [hcount, List.range'_one, List.foldlM_cons, hstep]
      rfl
    · show s.out ++ mergeTwo a [] = _
      rw [mergeTwo_nil_right]
      simp [pairUp]
    · dsimp only
      have hlen : (merged ++ [pre.length + a.length]).length = merged.length + 1 :=
        List.length_append
      rw [← hlen, List.take_left]
      rfl
  | case3 a b runs ih =>
    have hids : ids = pre ++ (a ++ (b ++ runs.flatten)) := h.ids
    have hstep := pairStep_eq [pre.length + a.length, pre.length + a.length + b.length]
      (endsOf (pre.length + a.length + b.length) runs) hids h.ends h.start h.kept h.behind
      rfl (List.cons_ne_nil _ _) rfl
    have hlen : (pre ++ (a ++ b)).length = pre.length + a.length + b.length := by
      rw [List.length_append, List.length_append, Nat.add_assoc]
    have hnext : Reading ids (pre ++ (a ++ b)) runs
        (merged ++ [pre.length + a.length + b.length])
        (stale ++ [pre.length + a.length, pre.length + a.length + b.length]).tail
        ⟨pre.length + a.length + b.length, merged.length + 1,
          (merged ++ [pre.length + a.length + b.length]) ++
            ((stale ++ [pre.length + a.length, pre.length + a.length + b.length]).tail ++
              endsOf (pre.length + a.length + b.length) runs), s.out ++ mergeTwo a b⟩ := by
      refine ⟨?_, ?_, hlen.symm, ?_, ?_⟩
      · rw [hids]
        simp only [List.append_assoc]
      · rw [hlen]
      · rw [List.length_append]
        rfl
      · have hbehind := h.behind
        rw [List.length_tail, List.length_append, List.length_append]
        simp only [List.length_cons, List.length_nil]
        omega
    obtain ⟨s', hfold, hout, htaken⟩ := ih hnext
    have hcount : (([a, b] ++ runs).length + 1) / 2 = (runs.length + 1) / 2 + 1 := by
      simp only [List.length_append, List.length_cons, List.length_nil]
      omega
    refine ⟨s', ?_, ?_, ?_⟩
    · show (List.range' merged.length ((([a, b] ++ runs).length + 1) / 2)).foldlM _ s = _
      rw [hcount, List.range'_succ, List.foldlM_cons, hstep]
      rw [List.length_append] at hfold
      exact hfold
    · rw [hout, pairUp, List.flatten_cons, List.append_assoc]
    · have hmerged : (mergeTwo a b).length = a.length + b.length := by
        rw [(mergeTwo_perm a b).length_eq, List.length_append]
      rw [htaken, hlen, pairUp, endsOf, hmerged, List.append_assoc, ← Nat.add_assoc]
      rfl

/-- **A round over runs end to end merges them in pairs**, end to end again. -/
theorem round_spec : round runs.flatten (endsOf 0 runs) =
    some ((pairUp runs).flatten, endsOf 0 (pairUp runs)) := by
  have hstart : Reading runs.flatten [] runs [] [] ⟨0, 0, endsOf 0 runs, []⟩ :=
    ⟨rfl, rfl, rfl, rfl, rfl⟩
  obtain ⟨s', hfold, hout, htaken⟩ := pairs_spec hstart
  unfold round
  rw [List.range_eq_range', length_endsOf]
  rw [List.length_nil] at hfold
  simp only [Option.bind_eq_bind, hfold, Option.bind_some, hout, htaken, List.nil_append]
  rfl

/-! ## 5. All the rounds -/

/-- Ascending runs, each ending at its place: the places ascend, the last one the ids' length. -/
structure RunsEnd (ids : List DocId) (ends : List Nat) : Prop where
  ascending : ends.Pairwise (· ≤ ·)
  last : ends.getLast? = some ids.length
  runs : ∀ e ∈ (0 :: ends).zip ends, ((ids.take e.2).drop e.1).Pairwise (· ≤ ·)

/-- Ids with places in them are runs end to end. -/
theorem exists_runs {n : Nat} (hasc : (n :: ends).Pairwise (· ≤ ·))
    (hlast : (n :: ends).getLast? = some (n + ids.length))
    (hruns : ∀ e ∈ (n :: ends).zip ends, ((ids.take (e.2 - n)).drop (e.1 - n)).Pairwise (· ≤ ·)) :
    ∃ runs : List (List DocId), runs.flatten = ids ∧ endsOf n runs = ends ∧
      ∀ run ∈ runs, run.Pairwise (· ≤ ·) := by
  induction ends generalizing n ids with
  | nil =>
    have hnil : ids.length = 0 := by
      have hsame : n = n + ids.length := Option.some.inj hlast
      omega
    exact ⟨[], (List.length_eq_zero_iff.mp hnil).symm, rfl, fun run hrun => (by cases hrun)⟩
  | cons e ends ih =>
    obtain ⟨hhead, hrest⟩ := List.pairwise_cons.mp hasc
    have hne : n ≤ e := hhead e List.mem_cons_self
    rw [List.getLast?_cons_cons] at hlast
    have hle : e ≤ n + ids.length := by
      have hmost := hrest.rel_getLast List.mem_cons_self
      rwa [List.getLast_of_getLast?_eq_some hlast] at hmost
    have hdropped : e + (ids.drop (e - n)).length = n + ids.length := by
      rw [List.length_drop]
      omega
    obtain ⟨runs, hflat, hends, hasc'⟩ := @ih (ids.drop (e - n)) e hrest
      (by rw [hlast, hdropped]) fun e' he' => by
        have hrun := hruns e' (List.mem_cons_of_mem _ he')
        obtain ⟨h1, h2⟩ := List.of_mem_zip he'
        have hlow : e ≤ e'.1 := by
          rcases List.mem_cons.mp h1 with h1 | h1
          · exact Nat.le_of_eq h1.symm
          · exact (List.pairwise_cons.mp hrest).1 _ h1
        have hhigh : e ≤ e'.2 := (List.pairwise_cons.mp hrest).1 _ h2
        have hstart : e'.1 - n = (e - n) + (e'.1 - e) := by omega
        have hstop : e'.2 - n - (e - n) = e'.2 - e := by omega
        rwa [hstart, ← List.drop_drop, List.drop_take, hstop] at hrun
    refine ⟨ids.take (e - n) :: runs, ?_, ?_, fun run hrun => ?_⟩
    · rw [List.flatten_cons, hflat, List.take_append_drop]
    · have hlen : n + (ids.take (e - n)).length = e := by
        rw [List.length_take]
        omega
      rw [endsOf, hlen, hends]
    · rcases List.mem_cons.mp hrun with rfl | hrun
      · have hfirst := hruns (n, e) List.mem_cons_self
        rwa [Nat.sub_self, List.drop_zero] at hfirst
      · exact hasc' run hrun

/-- **What the rounds keep**: ascending runs end to end, of the ids there were; so many are left. -/
def Laid (ids : List DocId) (m : Nat) (s : List DocId × List Nat) : Prop :=
  ∃ runs : List (List DocId), s = (runs.flatten, endsOf 0 runs) ∧ m = runs.length ∧
    runs.flatten.Perm ids ∧ ∀ run ∈ runs, run.Pairwise (· ≤ ·)

/-- A round leaves fewer runs. -/
theorem Laid.again {m : Nat} {s s' : List DocId × List Nat} (h : Laid ids m s)
    (hturn : turn s = .again s') : ∃ m', m' < m ∧ Laid ids m' s' := by
  obtain ⟨runs, rfl, rfl, hperm, hasc⟩ := h
  unfold turn at hturn
  rw [length_endsOf] at hturn
  by_cases hmore : 1 < runs.length
  · rw [if_pos hmore, round_spec] at hturn
    obtain rfl := Turn.again.inj hturn
    refine ⟨(pairUp runs).length, ?_, pairUp runs, rfl, rfl, pairUp_perm.trans hperm,
      pairUp_ascending hasc⟩
    rw [length_pairUp]
    omega
  · rw [if_neg hmore] at hturn
    cases hturn

/-- The loop stops at one run, which is all the ids. -/
theorem Laid.done {m : Nat} {s : List DocId × List Nat} {r : Option (List DocId)}
    (h : Laid ids m s) (hturn : turn s = .done r) :
    ∃ r', r = some r' ∧ r'.Perm ids ∧ r'.Pairwise (· ≤ ·) := by
  obtain ⟨runs, rfl, rfl, hperm, hasc⟩ := h
  unfold turn at hturn
  rw [length_endsOf] at hturn
  by_cases hmore : 1 < runs.length
  · rw [if_pos hmore, round_spec] at hturn
    cases hturn
  · rw [if_neg hmore] at hturn
    obtain rfl := Turn.done.inj hturn
    refine ⟨runs.flatten, rfl, hperm, ?_⟩
    cases runs with
    | nil => exact .nil
    | cons run runs =>
      have hnone : runs = [] := by
        rw [List.length_cons] at hmore
        exact List.length_eq_zero_iff.mp (by omega)
      rw [hnone, List.flatten_singleton]
      exact hasc run List.mem_cons_self

/-- **`merge_runs` merges**: from any ascending runs end to end the loop ends, with the ids in
order, each as often as it was there. -/
theorem merge_runs_sorts (ids : List DocId) (ends : List Nat) (h : RunsEnd ids ends) :
    ∃ r, Returns turn (ids, ends) (some r) ∧ r.Perm ids ∧ r.Pairwise (· ≤ ·) := by
  have hlast : (0 :: ends).getLast? = some (0 + ids.length) := by
    rw [List.getLast?_cons, h.last, Nat.zero_add]
    rfl
  have hzero : (0 :: ends).Pairwise (· ≤ ·) :=
    List.pairwise_cons.mpr ⟨fun _ _ => Nat.zero_le _, h.ascending⟩
  obtain ⟨runs, hflat, hends, hasc⟩ := exists_runs hzero hlast h.runs
  have hstart : Laid ids runs.length (ids, ends) :=
    ⟨runs, by rw [hflat, hends], rfl, by rw [hflat], hasc⟩
  have hpost : ∃ r, Returns turn (ids, ends) r ∧
      ∃ r', r = some r' ∧ r'.Perm ids ∧ r'.Pairwise (· ≤ ·) := returns_of_keeps
    (fun _ _ _ hs hturn => hs.again hturn) (fun _ _ _ hs hturn => hs.done hturn) hstart
  obtain ⟨r, hreturns, r', rfl, hperm, hsorted⟩ := hpost
  exact ⟨r', hreturns, hperm, hsorted⟩

/-- Four runs of which one is empty, merged. -/
theorem merge_runs_sorts_four : RunsEnd [3, 5, 1, 2, 2, 9] [2, 2, 5, 6] ∧
    ∃ r, Returns turn ([3, 5, 1, 2, 2, 9], [2, 2, 5, 6]) (some r) ∧
      r.Perm [3, 5, 1, 2, 2, 9] ∧ r.Pairwise (· ≤ ·) := by
  have h : RunsEnd [3, 5, 1, 2, 2, 9] [2, 2, 5, 6] := ⟨by decide, rfl, by decide⟩
  exact ⟨h, merge_runs_sorts _ _ h⟩

end Fenec.MergeRuns
