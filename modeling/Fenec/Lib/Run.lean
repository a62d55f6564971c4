/-
# Runs of a step function

A machine is a step function `σ → ε → Option σ`: the state an event leads to, or none where the
event cannot happen.  A run is a list of events.  `Along C` says that every event of a run meets
a condition in the state it happens in, and `run_keeps` is the invariant rule: what every step
that meets the condition keeps, a whole run that meets it keeps.
-/
import Mathlib.Data.List.Basic

namespace Fenec.Lib

variable {σ ε : Type} {step : σ → ε → Option σ}

/-- The state a list of events leads to, none where one of them cannot happen. -/
def run (step : σ → ε → Option σ) : σ → List ε → Option σ
  | s, [] => some s
  | s, e :: es => (step s e).bind fun s' => run step s' es

/-- Every event of the run meets `C` in the state it happens in. -/
def Along (step : σ → ε → Option σ) (C : σ → ε → Prop) : σ → List ε → Prop
  | _, [] => True
  | s, e :: es => C s e ∧ ∀ s', step s e = some s' → Along step C s' es

instance decidableAlong {C : σ → ε → Prop} [∀ s e, Decidable (C s e)] :
    ∀ (es : List ε) (s : σ), Decidable (Along step C s es)
  | [], _ => isTrue trivial
  | e :: es, s =>
    have : ∀ s', Decidable (Along step C s' es) := fun s' => decidableAlong es s'
    decidable_of_iff (C s e ∧ ∀ s' ∈ step s e, Along step C s' es) Iff.rfl

theorem run_cons {s s' : σ} {e : ε} {es : List ε} (h : run step s (e :: es) = some s') :
    ∃ t, step s e = some t ∧ run step t es = some s' :=
  Option.bind_eq_some_iff.mp h

/-- **The invariant rule.** -/
theorem run_keeps {C : σ → ε → Prop} {I : σ → Prop}
    (hI : ∀ s e s', I s → C s e → step s e = some s' → I s') {es : List ε} :
    ∀ {s s' : σ}, I s → run step s es = some s' → Along step C s es → I s' := by
  induction es with
  | nil =>
    intro s s' hs hr _
    rw [← Option.some.inj hr]
    exact hs
  | cons e es ih =>
    intro s s' hs hr ha
    obtain ⟨t, he, hr⟩ := run_cons hr
    exact ih (hI s e t hs ha.1 he) hr (ha.2 t he)

/-- What every step that meets the condition can do and keeps, a whole run that meets it can do
and keeps. -/
theorem run_returns {C : σ → ε → Prop} {I : σ → Prop}
    (hI : ∀ s e, I s → C s e → ∃ s', step s e = some s' ∧ I s') {es : List ε} :
    ∀ {s : σ}, I s → Along step C s es → ∃ s', run step s es = some s' ∧ I s' := by
  induction es with
  | nil => exact fun hs _ => ⟨_, rfl, hs⟩
  | cons e es ih =>
    intro s hs ha
    obtain ⟨t, he, ht⟩ := hI s e hs ha.1
    obtain ⟨s', hr, hs'⟩ := ih ht (ha.2 t he)
    exact ⟨s', Option.bind_eq_some_iff.mpr ⟨t, he, hr⟩, hs'⟩

/-- A run that meets two conditions meets both at once. -/
theorem Along.and {C D : σ → ε → Prop} {es : List ε} :
    ∀ {s : σ}, Along step C s es → Along step D s es →
      Along step (fun s e => C s e ∧ D s e) s es := by
  induction es with
  | nil => exact fun _ _ => trivial
  | cons e es ih =>
    intro s hc hd
    exact ⟨⟨hc.1, hd.1⟩, fun s' he => ih (hc.2 s' he) (hd.2 s' he)⟩

end Fenec.Lib
