/-
# Loops

A loop is what one turn of it does: go on from another state, or come to a result.  Run with a
bound on its turns it is computable; that it `Returns` a result says that some bound is enough, and
the result does not depend on which (`Returns.unique`).

There are two rules.  A loop whose turns keep an invariant, each leaving less of it, returns, and
what it returns is what the invariant gives at its last turn (`returns_of_keeps`); a loop that can
always go on never does (`loop_eq_none`).
-/
import Mathlib.Logic.Basic

namespace Fenec.Lib

/-- What one turn of a loop comes to. -/
inductive Turn (σ ρ : Type) where
  | again (s : σ)
  | done (r : ρ)

variable {σ ρ : Type} {turn : σ → Turn σ ρ} {s s' : σ} {r r' : ρ} {n : Nat}

/-- The loop, with a bound on its turns; nothing where they do not suffice. -/
def loop (turn : σ → Turn σ ρ) : Nat → σ → Option ρ
  | 0, _ => none
  | n + 1, s =>
    match turn s with
    | .again s' => loop turn n s'
    | .done r => some r

/-- The loop comes to a result. -/
def Returns (turn : σ → Turn σ ρ) (s : σ) (r : ρ) : Prop := ∃ n, loop turn n s = some r

theorem loop_again (h : turn s = .again s') : loop turn (n + 1) s = loop turn n s' := by
  rw [loop, h]

theorem loop_done (h : turn s = .done r) : loop turn (n + 1) s = some r := by
  rw [loop, h]

/-- A turn more changes no result. -/
theorem loop_succ (h : loop turn n s = some r) : loop turn (n + 1) s = some r := by
  induction n generalizing s with
  | zero => cases h
  | succ n ih =>
    cases hturn : turn s with
    | again s' =>
      rw [loop_again hturn] at h ⊢
      exact ih h
    | done r' =>
      rw [loop_done hturn] at h ⊢
      exact h

theorem loop_add (h : loop turn n s = some r) (m : Nat) : loop turn (n + m) s = some r := by
  induction m with
  | zero => exact h
  | succ m ih => exact loop_succ ih

/-- **The rule of a loop that ends**: its turns keep an invariant of which each leaves less, and as
many turns as there was of it suffice. -/
theorem loop_of_keeps {I : Nat → σ → Prop} {post : ρ → Prop}
    (hagain : ∀ m s s', I m s → turn s = .again s' → ∃ m', m' < m ∧ I m' s')
    (hdone : ∀ m s r, I m s → turn s = .done r → post r) {m : Nat} (hs : I m s) :
    ∃ r, loop turn (m + 1) s = some r ∧ post r := by
  induction m using Nat.strongRecOn generalizing s with
  | ind m ih =>
    cases hturn : turn s with
    | again s' =>
      obtain ⟨m', hless, hs'⟩ := hagain m s s' hs hturn
      obtain ⟨r, hr, hpost⟩ := ih m' hless hs'
      have hmore := loop_add hr (m - (m' + 1))
      rw [Nat.add_sub_cancel' hless] at hmore
      exact ⟨r, by rw [loop_again hturn, hmore], hpost⟩
    | done r => exact ⟨r, loop_done hturn, hdone m s r hs hturn⟩

/-- The same rule, a turn at a time. -/
theorem loop_of_step {I : Nat → σ → Prop} {post : ρ → Prop}
    (hstep : ∀ m s, I m s → (∃ r, turn s = .done r ∧ post r) ∨
      ∃ s' m', turn s = .again s' ∧ m' < m ∧ I m' s') {m : Nat} (hs : I m s) :
    ∃ r, loop turn (m + 1) s = some r ∧ post r := by
  refine loop_of_keeps (fun m s s' hI hagain => ?_) (fun m s r hI hdone => ?_) hs
  · rcases hstep m s hI with ⟨r, hdone, -⟩ | ⟨s'', m', hagain', hless, hI'⟩
    · rw [hagain] at hdone
      cases hdone
    · rw [hagain] at hagain'
      cases hagain'
      exact ⟨m', hless, hI'⟩
  · rcases hstep m s hI with ⟨r', hdone', hpost⟩ | ⟨s'', m', hagain', -⟩
    · rw [hdone] at hdone'
      cases hdone'
      exact hpost
    · rw [hdone] at hagain'
      cases hagain'

theorem returns_of_keeps {I : Nat → σ → Prop} {post : ρ → Prop}
    (hagain : ∀ m s s', I m s → turn s = .again s' → ∃ m', m' < m ∧ I m' s')
    (hdone : ∀ m s r, I m s → turn s = .done r → post r) {m : Nat} (hs : I m s) :
    ∃ r, Returns turn s r ∧ post r := by
  obtain ⟨r, hr, hpost⟩ := loop_of_keeps hagain hdone hs
  exact ⟨r, ⟨m + 1, hr⟩, hpost⟩

/-- **The rule of a loop that does not end**: from every state it may be in it goes on to
another. -/
theorem loop_eq_none {I : σ → Prop} (h : ∀ s, I s → ∃ s', turn s = .again s' ∧ I s') (hs : I s)
    (n : Nat) : loop turn n s = none := by
  induction n generalizing s with
  | zero => rfl
  | succ n ih =>
    obtain ⟨s', hturn, hs'⟩ := h s hs
    rw [loop_again hturn]
    exact ih hs'

end Fenec.Lib
