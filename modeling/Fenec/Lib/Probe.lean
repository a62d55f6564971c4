/-
# Tables probed along a circle

A table of `n` positions, `T i` what is at one, if anything.  What is held has a home, and is found
from there on: every position from its home to its own, around the end where it comes to it, is
taken (`Probed`).  So whoever walks from a home past every taken position has seen all that is held
there once a free one comes.

Three things keep a table probed: to put what is new at the first free position from its home
(`Probed.insert`), to change what is held for another of the same home (`Probed.replace`), and to
close a hole by moving back into it what would be cut off from its home (`Hole`): a walk from the
hole on, over taken positions, in which only what is past the walk may still have its way to its
home through the hole.
-/
import Mathlib.Tactic.Common
import Mathlib.Logic.Function.Basic

namespace Fenec.Lib.Probe

/-! ## 1. The circle -/

section Circle

variable {n i j k d : Nat}

/-- How far `j` is past `i`. -/
def dist (n i j : Nat) : Nat := (j + n - i) % n

/-- The position `d` past `i`. -/
def past (n i d : Nat) : Nat := (i + d) % n

theorem past_lt (hn : 0 < n) : past n i d < n := Nat.mod_lt _ hn

theorem dist_lt (hn : 0 < n) : dist n i j < n := Nat.mod_lt _ hn

theorem dist_spec (hi : i < n) (hj : j < n) :
    i ≤ j ∧ dist n i j = j - i ∨ j < i ∧ dist n i j = j + n - i := by
  unfold dist
  rcases Nat.lt_or_ge j i with h | h
  · exact Or.inr ⟨h, Nat.mod_eq_of_lt (by omega)⟩
  · have heq : j + n - i = j - i + n := by omega
    rw [heq, Nat.add_mod_right, Nat.mod_eq_of_lt (by omega)]
    exact Or.inl ⟨h, rfl⟩

theorem past_spec (hi : i < n) (hd : d < n) :
    i + d < n ∧ past n i d = i + d ∨ n ≤ i + d ∧ past n i d = i + d - n := by
  unfold past
  rcases Nat.lt_or_ge (i + d) n with h | h
  · exact Or.inl ⟨h, Nat.mod_eq_of_lt h⟩
  · rw [Nat.mod_eq_sub_mod h, Nat.mod_eq_of_lt (by omega)]
    exact Or.inr ⟨h, rfl⟩

@[simp] theorem dist_self (hi : i < n) : dist n i i = 0 := by
  have h := dist_spec hi hi
  omega

@[simp] theorem past_zero (hi : i < n) : past n i 0 = i := Nat.mod_eq_of_lt hi

/-- The position a distance past `i` is at that distance. -/
theorem past_dist (hi : i < n) (hj : j < n) : past n i (dist n i j) = j := by
  have hdist := dist_spec hi hj
  have hpast := past_spec hi (dist_lt (Nat.zero_lt_of_lt hi) : dist n i j < n)
  omega

theorem dist_past (hi : i < n) (hd : d < n) : dist n i (past n i d) = d := by
  have hpast := past_spec hi hd
  have hdist := dist_spec hi (past_lt (Nat.zero_lt_of_lt hi) : past n i d < n)
  omega

theorem dist_inj (hi : i < n) (hj : j < n) (hk : k < n) (h : dist n i j = dist n i k) : j = k := by
  rw [← past_dist hi hj, h, past_dist hi hk]

theorem dist_eq_zero (hi : i < n) (hj : j < n) : dist n i j = 0 ↔ i = j := by
  have h := dist_spec hi hj
  omega

/-- The position after one. -/
theorem dist_next (hi : i < n) (hj : j < n) (hne : past n j 1 ≠ i) :
    dist n i (past n j 1) = dist n i j + 1 := by
  by_cases hone : n = 1
  · have hpast : past n j 1 < n := past_lt (Nat.zero_lt_of_lt hi)
    exact absurd (by omega) hne
  · have hn : 1 < n := by omega
    have hij := dist_spec hi hj
    have hpast := past_spec hj hn
    have hdist := dist_spec hi (past_lt (Nat.zero_lt_of_lt hi) : past n j 1 < n)
    omega

/-- A step towards a position makes the way to it one shorter. -/
theorem dist_step (hi : i < n) (hj : j < n) (hne : i ≠ j) :
    dist n (past n i 1) j + 1 = dist n i j := by
  have hn : 1 < n := by omega
  have hij := dist_spec hi hj
  have hpast := past_spec hi hn
  have hdist := dist_spec (past_lt (Nat.zero_lt_of_lt hi) : past n i 1 < n) hj
  omega

/-- Past a position on the way, the rest of the way. -/
theorem dist_add (hi : i < n) (hj : j < n) (hk : k < n) (h : dist n i j ≤ dist n i k) :
    dist n i k = dist n i j + dist n j k := by
  have hij := dist_spec hi hj
  have hik := dist_spec hi hk
  have hjk := dist_spec hj hk
  omega

/-- And past a position that is not, the way around. -/
theorem dist_around (hi : i < n) (hj : j < n) (hk : k < n) (h : dist n i k < dist n i j) :
    dist n i k + n = dist n i j + dist n j k := by
  have hij := dist_spec hi hj
  have hik := dist_spec hi hk
  have hjk := dist_spec hj hk
  omega

/-- A position on the rest of a way is on the way. -/
theorem dist_on_way {e : Nat} (hi : i < n) (hj : j < n) (hk : k < n) (he : e < n)
    (h : dist n i j ≤ dist n i k) (hon : dist n j e < dist n j k) :
    dist n i e = dist n i j + dist n j e ∧ dist n i e < dist n i k := by
  have hik := dist_add hi hj hk h
  have hlt : dist n i k < n := dist_lt (Nat.zero_lt_of_lt hi)
  rcases Nat.lt_or_ge (dist n i e) (dist n i j) with hbefore | hafter
  · have haround := dist_around hi hj he hbefore
    omega
  · have hie := dist_add hi hj he hafter
    omega

end Circle

/-! ## 2. A table probed -/

section Table

variable {α : Type} {n : Nat} {home : α → Nat} {T : Nat → Option α} {a b : α} {s e : Nat}

/-- **Every position from its home to what is held is taken.** -/
structure Probed (n : Nat) (home : α → Nat) (T : Nat → Option α) : Prop where
  home_lt : ∀ s < n, ∀ a, T s = some a → home a < n
  way : ∀ s < n, ∀ a, T s = some a → ∀ d < dist n (home a) s, T (past n (home a) d) ≠ none

/-- Every position before `e` on the way from `h` is taken. -/
def Taken (n h : Nat) (T : Nat → Option α) (e : Nat) : Prop :=
  ∀ d < dist n h e, T (past n h d) ≠ none

/-- A table of nothing. -/
theorem Probed.empty : Probed n home fun _ => none :=
  ⟨fun _ _ _ h => (nomatch h), fun _ _ _ h => (nomatch h)⟩

/-- **What is held comes before the first free position** from its home. -/
theorem Probed.before_free (h : Probed n home T) (hs : s < n) (ha : T s = some a) (he : e < n)
    (hfree : T e = none) : dist n (home a) s < dist n (home a) e := by
  have hhome := h.home_lt s hs a ha
  by_contra hle
  have hne : dist n (home a) e ≠ dist n (home a) s := by
    intro heq
    rw [dist_inj hhome he hs heq, ha] at hfree
    cases hfree
  have hway := h.way s hs a ha (dist n (home a) e) (by omega)
  rw [past_dist hhome he] at hway
  exact hway hfree

/-- **What is new goes to the first free position** from its home. -/
theorem Probed.insert (h : Probed n home T) (ha : home a < n)
    (htaken : Taken n (home a) T s) : Probed n home (Function.update T s (some a)) := by
  have hkeeps : ∀ i, T i ≠ none → Function.update T s (some a) i ≠ none := by
    intro i hi
    by_cases his : i = s
    · rw [his, Function.update_self]
      exact nofun
    · rwa [Function.update_of_ne his]
  constructor
  · intro i hi b hb
    by_cases his : i = s
    · rw [his, Function.update_self] at hb
      cases hb
      exact ha
    · rw [Function.update_of_ne his] at hb
      exact h.home_lt i hi b hb
  · intro i hi b hb d hd
    by_cases his : i = s
    · rw [his, Function.update_self] at hb
      cases hb
      rw [his] at hd
      exact hkeeps _ (htaken d hd)
    · rw [Function.update_of_ne his] at hb
      exact hkeeps _ (h.way i hi b hb d hd)

/-- **What is held is changed for another** of its home. -/
theorem Probed.map (h : Probed n home T) (f : α → α)
    (hf : ∀ s < n, ∀ a, T s = some a → home (f a) = home a) :
    Probed n home fun s => (T s).map f := by
  have hsome : ∀ s < n, ∀ b, (T s).map f = some b → ∃ a, T s = some a ∧ home b = home a := by
    intro s hs b hb
    obtain ⟨a, ha, rfl⟩ := Option.map_eq_some_iff.mp hb
    exact ⟨a, ha, hf s hs a ha⟩
  constructor
  · intro s hs b hb
    obtain ⟨a, ha, hab⟩ := hsome s hs b hb
    rw [hab]
    exact h.home_lt s hs a ha
  · intro s hs b hb d hd
    obtain ⟨a, ha, hab⟩ := hsome s hs b hb
    rw [hab] at hd ⊢
    rw [ne_eq, Option.map_eq_none_iff]
    exact h.way s hs a ha d hd

theorem Probed.replace (h : Probed n home T) (hsn : s < n) (hs : T s = some a)
    (hab : home b = home a) : Probed n home (Function.update T s (some b)) := by
  have hkeeps : ∀ i, T i ≠ none → Function.update T s (some b) i ≠ none := by
    intro i hi
    by_cases his : i = s
    · rw [his, Function.update_self]
      exact nofun
    · rwa [Function.update_of_ne his]
  constructor
  · intro i hi c hc
    by_cases his : i = s
    · rw [his, Function.update_self] at hc
      cases hc
      rw [hab]
      exact h.home_lt s hsn a hs
    · rw [Function.update_of_ne his] at hc
      exact h.home_lt i hi c hc
  · intro i hi c hc d hd
    by_cases his : i = s
    · rw [his, Function.update_self] at hc
      cases hc
      rw [hab] at hd ⊢
      exact hkeeps _ (h.way s hsn a hs d (his ▸ hd))
    · rw [Function.update_of_ne his] at hc
      exact hkeeps _ (h.way i hi c hc d hd)

/-! ## 3. A hole closed -/

/-- **A table with a hole, walked from it up to `j`**: what is past the walk may have the hole on
its way, and nothing else is missing from any way. -/
structure Hole (n : Nat) (home : α → Nat) (T : Nat → Option α) (hole j : Nat) : Prop where
  hole_lt : hole < n
  j_lt : j < n
  free : T hole = none
  home_lt : ∀ s < n, ∀ a, T s = some a → home a < n
  walked : ∀ d, 0 < d → d ≤ dist n hole j → T (past n hole d) ≠ none
  way : ∀ s < n, ∀ a, T s = some a → ∀ d < dist n (home a) s,
    T (past n (home a) d) ≠ none ∨ past n (home a) d = hole ∧ dist n hole j < dist n hole s

/-- **What is taken out leaves a hole**, not walked from yet. -/
theorem Probed.hole (h : Probed n home T) (hs : s < n) :
    Hole n home (Function.update T s none) s s := by
  have hold : ∀ {i a}, Function.update T s none i = some a → i ≠ s ∧ T i = some a := by
    intro i a hi
    by_cases his : i = s
    · rw [his, Function.update_self] at hi
      cases hi
    · rw [Function.update_of_ne his] at hi
      exact ⟨his, hi⟩
  refine ⟨hs, hs, Function.update_self .., fun i hi a ha => h.home_lt i hi a (hold ha).2,
    fun d hd hle => ?_, fun i hi a ha d hd => ?_⟩
  · rw [dist_self hs] at hle
    omega
  · obtain ⟨his, ha⟩ := hold ha
    by_cases hpast : past n (home a) d = s
    · refine Or.inr ⟨hpast, ?_⟩
      rw [dist_self hs]
      exact Nat.pos_of_ne_zero fun hz => his ((dist_eq_zero hs hi).mp hz).symm
    · rw [Function.update_of_ne hpast]
      exact Or.inl (h.way i hi a ha d hd)

variable {hole j : Nat}

/-- A walk does not come to the hole before a free position does. -/
theorem Hole.dist_lt (h : Hole n home T hole j) (he : e < n) (hne : e ≠ hole)
    (hfree : T e = none) : dist n hole j < dist n hole e := by
  by_contra hle
  have hpos : 0 < dist n hole e :=
    Nat.pos_of_ne_zero fun hz => hne ((dist_eq_zero h.hole_lt he).mp hz).symm
  have hwalked := h.walked (dist n hole e) hpos (by omega)
  rw [past_dist h.hole_lt he] at hwalked
  exact hwalked hfree

/-- Where the walk comes to a free position, nothing has the hole on its way. -/
theorem Hole.finish (h : Hole n home T hole j) (hne : past n j 1 ≠ hole)
    (hfree : T (past n j 1) = none) : Probed n home T := by
  have hn : 0 < n := Nat.zero_lt_of_lt h.j_lt
  have hj' : past n j 1 < n := past_lt hn
  have hlt := h.dist_lt hj' hne hfree
  have hnext := dist_next h.hole_lt h.j_lt hne
  refine ⟨h.home_lt, fun s hs a ha d hd => ?_⟩
  rcases h.way s hs a ha d hd with hway | ⟨hpast, hbeyond⟩
  · exact hway
  · -- the way goes on from the hole through the free position
    exfalso
    have hhome := h.home_lt s hs a ha
    have hne' : dist n hole (past n j 1) ≠ dist n hole s := by
      intro heq
      rw [dist_inj h.hole_lt hj' hs heq, ha] at hfree
      cases hfree
    have hdn : d < n := Nat.lt_trans hd (Probe.dist_lt hn)
    have hdhole : dist n (home a) hole = d := by
      rw [← hpast]
      exact dist_past hhome hdn
    obtain ⟨-, hon⟩ := dist_on_way hhome h.hole_lt hs hj' (by omega) (by omega)
    rcases h.way s hs a ha _ hon with hway | ⟨hback, -⟩
    · rw [past_dist hhome hj'] at hway
      exact hway hfree
    · rw [past_dist hhome hj'] at hback
      exact hne hback

/-- **What does not need the hole stays**: its home is past the hole on the walk. -/
theorem Hole.skip (h : Hole n home T hole j) (hne : past n j 1 ≠ hole)
    (ha : T (past n j 1) = some a)
    (hkeep : dist n (home a) (past n j 1) < dist n hole (past n j 1)) :
    Hole n home T hole (past n j 1) := by
  have hn : 0 < n := Nat.zero_lt_of_lt h.j_lt
  have hj' : past n j 1 < n := past_lt hn
  have hnext := dist_next h.hole_lt h.j_lt hne
  refine ⟨h.hole_lt, hj', h.free, h.home_lt, fun d hd hle => ?_, fun s hs b hb d hd => ?_⟩
  · rcases Nat.lt_or_ge (dist n hole j) d with hlast | hle
    · have hd' : d = dist n hole (past n j 1) := by omega
      rw [hd', past_dist h.hole_lt hj', ha]
      exact nofun
    · exact h.walked d hd hle
  · rcases h.way s hs b hb d hd with hway | ⟨hpast, hbeyond⟩
    · exact Or.inl hway
    · refine Or.inr ⟨hpast, ?_⟩
      have hne' : dist n hole s ≠ dist n hole (past n j 1) := by
        intro heq
        -- the hole would be on the way of what stays
        have hsj := dist_inj h.hole_lt hs hj' heq
        rw [hsj] at hb hd
        rw [ha] at hb
        cases hb
        have hhome := h.home_lt _ hj' a ha
        have hdhole : dist n (home a) hole = d := by
          rw [← hpast]
          exact dist_past hhome (Nat.lt_trans hd (Probe.dist_lt hn))
        have hadd := dist_add hhome h.hole_lt hj' (by omega)
        omega
      omega

/-- **What needs the hole moves into it**, and leaves the next one. -/
theorem Hole.move (h : Hole n home T hole j) (hne : past n j 1 ≠ hole)
    (ha : T (past n j 1) = some a)
    (hneeds : dist n hole (past n j 1) ≤ dist n (home a) (past n j 1)) :
    Hole n home (Function.update (Function.update T hole (some a)) (past n j 1) none)
      (past n j 1) (past n j 1) := by
  have hn : 0 < n := Nat.zero_lt_of_lt h.j_lt
  have hj' : past n j 1 < n := past_lt hn
  have hhome := h.home_lt _ hj' a ha
  -- what the moved table has where
  have hold : ∀ {i b}, Function.update (Function.update T hole (some a)) (past n j 1) none i =
      some b → i ≠ past n j 1 ∧ (i = hole ∧ b = a ∨ i ≠ hole ∧ T i = some b) := by
    intro i b hi
    by_cases hij : i = past n j 1
    · rw [hij, Function.update_self] at hi
      cases hi
    · rw [Function.update_of_ne hij] at hi
      by_cases hih : i = hole
      · rw [hih, Function.update_self] at hi
        cases hi
        exact ⟨hij, Or.inl ⟨hih, rfl⟩⟩
      · rw [Function.update_of_ne hih] at hi
        exact ⟨hij, Or.inr ⟨hih, hi⟩⟩
  have hkeeps : ∀ i, i ≠ past n j 1 → T i ≠ none ∨ i = hole →
      Function.update (Function.update T hole (some a)) (past n j 1) none i ≠ none := by
    intro i hij hi
    rw [Function.update_of_ne hij]
    by_cases hih : i = hole
    · rw [hih, Function.update_self]
      exact nofun
    · rw [Function.update_of_ne hih]
      exact hi.resolve_right hih
  -- the way of what moved is a part of its way
  have hway : ∀ i < n, ∀ b,
      Function.update (Function.update T hole (some a)) (past n j 1) none i = some b →
      ∀ d < dist n (home b) i, T (past n (home b) d) ≠ none ∨ past n (home b) d = hole := by
    intro i hi b hb d hd
    obtain ⟨-, ⟨rfl, rfl⟩ | ⟨-, hb⟩⟩ := hold hb
    · have hlt : d < dist n (home b) (past n j 1) := by
        have hpos : dist n (home b) i ≤ dist n (home b) (past n j 1) := by
          by_contra hgt
          have haround := dist_around hhome hi hj' (by omega)
          have hlt := Probe.dist_lt hn (i := i) (j := past n j 1)
          have hlt' := Probe.dist_lt hn (i := home b) (j := i)
          omega
        omega
      exact (h.way _ hj' b ha d hlt).imp_right And.left
    · exact (h.way i hi b hb d hd).imp_right And.left
  refine ⟨hj', hj', Function.update_self .., fun i hi b hb => ?_, fun d hd hle => ?_,
    fun i hi b hb d hd => ?_⟩
  · obtain ⟨-, ⟨-, rfl⟩ | ⟨-, hb⟩⟩ := hold hb
    · exact hhome
    · exact h.home_lt i hi b hb
  · rw [dist_self hj'] at hle
    omega
  · by_cases hpast : past n (home b) d = past n j 1
    · refine Or.inr ⟨hpast, ?_⟩
      rw [dist_self hj']
      exact Nat.pos_of_ne_zero fun hz => (hold hb).1 ((dist_eq_zero hj' hi).mp hz).symm
    · exact Or.inl (hkeeps _ hpast (hway i hi b hb d hd))

end Table

end Fenec.Lib.Probe
