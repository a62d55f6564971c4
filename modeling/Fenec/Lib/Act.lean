/-
# Steps that may fail, and leave a state either way

`Act ε σ α` is a step over a state that answers a value or fails.  Failing does not take back
what was done: the state it was left in is part of the answer, which is what makes undoing a
failed step something to prove.

`Act.Meets P m Q E` is the triple: from a state that meets `P`, the step leaves one that meets
`Q a` if it answers `a`, and one that meets `E` if it fails.
-/
import Mathlib.Data.List.Basic
import Mathlib.Tactic.Ring

namespace Fenec.Lib

/-- A step that answers or fails, and leaves a state either way. -/
def Act (ε σ α : Type) : Type := σ → Except ε α × σ

namespace Act

variable {ε σ α β : Type}

instance : Monad (Act ε σ) where
  pure a := fun s => (.ok a, s)
  bind m f := fun s => match m s with
    | (.ok a, s') => f a s'
    | (.error e, s') => (.error e, s')

/-- An answer that reads nothing. -/
def lift (r : Except ε α) : Act ε σ α := fun s => (r, s)

/-- A failure. -/
def fail (e : ε) : Act ε σ α := lift (.error e)

/-- The state. -/
def state : Act ε σ σ := fun s => (.ok s, s)

/-- A change of the state. -/
def change (f : σ → σ) : Act ε σ Unit := fun s => (.ok (), f s)

/-- What a failure is turned into, from the state it left. -/
def rescue (m : Act ε σ α) (h : ε → Act ε σ α) : Act ε σ α := fun s =>
  match m s with
  | (.ok a, s') => (.ok a, s')
  | (.error e, s') => h e s'

/-- A step for each of a list, up to the first that fails. -/
def each (f : α → Act ε σ Unit) : List α → Act ε σ Unit
  | [] => pure ()
  | a :: as => do
    f a
    each f as

theorem bind_eq (m : Act ε σ α) (f : α → Act ε σ β) (s : σ) :
    (m >>= f) s = match m s with
      | (.ok a, s') => f a s'
      | (.error e, s') => (.error e, s') := rfl

/-! ## 1. Triples -/

/-- **The triple of a step.** -/
def Meets (P : σ → Prop) (m : Act ε σ α) (Q : α → σ → Prop) (E : σ → Prop) : Prop :=
  ∀ s, P s → match m s with
    | (.ok a, s') => Q a s'
    | (.error _, s') => E s'

variable {P P' : σ → Prop} {m : Act ε σ α} {Q Q' : α → σ → Prop} {E E' : σ → Prop}

theorem Meets.imp (h : Meets P m Q E) (hP : ∀ s, P' s → P s) (hQ : ∀ a s, Q a s → Q' a s)
    (hE : ∀ s, E s → E' s) : Meets P' m Q' E' := by
  intro s hs
  have hm := h s (hP s hs)
  rcases hms : m s with ⟨a | a, s'⟩ <;> rw [hms] at hm
  · exact hE s' hm
  · exact hQ a s' hm

theorem meets_pure {a : α} (h : ∀ s, P s → Q a s) : Meets P (pure a : Act ε σ α) Q E := h

theorem meets_lift {r : Except ε α} (hQ : ∀ a, r = .ok a → ∀ s, P s → Q a s)
    (hE : ∀ s, P s → E s) : Meets P (lift r) Q E := by
  intro s hs
  cases r with
  | ok a => exact hQ a rfl s hs
  | error e => exact hE s hs

theorem meets_fail {e : ε} (hE : ∀ s, P s → E s) : Meets P (fail e : Act ε σ α) Q E := hE

theorem meets_state {Q : σ → σ → Prop} (h : ∀ s, P s → Q s s) :
    Meets P (state : Act ε σ σ) Q E := h

theorem meets_change {f : σ → σ} {Q : Unit → σ → Prop} (h : ∀ s, P s → Q () (f s)) :
    Meets P (change f : Act ε σ Unit) Q E := h

theorem meets_bind {f : α → Act ε σ β} {R : β → σ → Prop} (hm : Meets P m Q E)
    (hf : ∀ a, Meets (Q a) (f a) R E) : Meets P (m >>= f) R E := by
  intro s hs
  have hms := hm s hs
  rw [bind_eq]
  rcases hr : m s with ⟨e | a, s'⟩ <;> rw [hr] at hms
  · exact hms
  · exact hf a s' hms

/-- A step that reads the state it starts from. -/
theorem meets_start {s : σ} {f : σ → Act ε σ β} {R : β → σ → Prop} (h : Meets (· = s) (f s) R E) :
    Meets (· = s) (state >>= f) R E := by
  rintro s' rfl
  exact h s' rfl

theorem meets_rescue {F : σ → Prop} {h : ε → Act ε σ α} (hm : Meets P m Q F)
    (hh : ∀ e, Meets F (h e) Q E) :
    Meets P (m.rescue h) Q E := by
  intro s hs
  have hms := hm s hs
  unfold rescue
  rcases hr : m s with ⟨e | a, s'⟩ <;> rw [hr] at hms
  · exact hh e s' hms
  · exact hms

/-- A step that keeps an invariant, taken for each of a list. -/
theorem meets_each {f : α → Act ε σ Unit} {l : List α}
    (h : ∀ a ∈ l, Meets P (f a) (fun _ => P) E) : Meets P (each f l) (fun _ => P) E := by
  induction l with
  | nil => exact meets_pure fun _ hs => hs
  | cons a as ih =>
    exact meets_bind (h a (List.mem_cons_self ..)) fun _ =>
      ih fun b hb => h b (List.mem_cons_of_mem _ hb)

end Act

end Fenec.Lib
