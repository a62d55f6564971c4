/-
# Runs of puts, upserts, sets and dels over one collection

A run is a list of turns: a document of a `put`, an `insert` or an upsert, a row of a `set`, a row
of a `del`, and, anywhere between, an index asked for by a read and so built.  A statement is some
turns of one kind in a row, so what holds after every turn holds after every write of every
statement.

`rebuilt_of_settled` is the result: if every vector a turn gives a hashed `vector<N, f16>` field is
one the record keeps as it is, then after every turn every built index is the one a rebuild would
make.  The condition is needed: `halved_vector_misfiled` puts one vector that the record rounds,
and the index holds it under a key no rebuild makes.
-/
import Fenec.Moves

namespace Fenec

open Lib Case Relation

/-! ## 1. Turns -/

/-- A turn over a collection of a schema. -/
inductive RowStep (B : Build) (s : Schema) where
  | put (env : Session B) (mode : PutMode) (doc : Document) (fits : doc.Fits s)
  | set (env : Session B) (id : DocId) (set : List Assign)
  | del (env : Session B) (id : DocId)
  | hash (name : String)
  | sorted (name : String)
  | sparse (name : String)
  | composite (i : Nat)

namespace RowStep

variable {B : Build} {s : Schema}

/-- What a turn leaves, whether it answers or fails. -/
def run : RowStep B s → Work → Work
  | put env mode doc _, w => (putRow env mode doc w).2
  | set env id assigns, w => (setRow env id assigns none w).2
  | del env id, w => (erase env id w).2
  | hash name, w => { w with c := w.c.buildHash B name }
  | sorted name, w => { w with c := w.c.buildSorted B name }
  | sparse name, w => { w with c := w.c.buildSparse name }
  | composite i, w => { w with c := w.c.buildComposite B i }

/-- The documents a turn may write. -/
def Gives (c : Collection) (d : Document) : RowStep B s → Prop
  | put env mode doc _ => mode.Gives env c doc d
  | set env id assigns => ∃ old, c.store.read c.schema id = some old ∧
      updated env.ctx c.schema old none assigns old = .ok d
  | _ => False

/-- **A turn only moves.** -/
theorem moves (step : RowStep B s) {w : Work} (hs : w.c.schema = s) (hw : w.c.Sound)
    {ok : Document → Prop} (hok : ∀ d, step.Gives w.c d → ok d) :
    Moves B ok w (step.run w) := by
  have hmeets : ∀ {α : Type} {m : Step α}, Act.Meets (· = w) m (fun _ => Moves B ok w)
      (Moves B ok w) → Moves B ok w (m w).2 := by
    intro α m h
    have := h w rfl
    rcases hm : m w with ⟨r | r, w'⟩ <;> rw [hm] at this <;> exact this
  cases step with
  | put env mode doc fits =>
    subst hs
    exact hmeets (putRow_moves env hw mode doc fits hok)
  | set env id assigns =>
    exact hmeets (setRow_moves env hw id assigns none fun old d hold hd => hok d ⟨old, hold, hd⟩)
  | del env id =>
    refine hmeets ((erase_moves env w id).imp (fun _ h => h) ?_ ?_)
    · rintro _ w' rfl
      exact .single (.erase w id)
    · rintro w' rfl
      exact .refl
  | hash name => exact .single (.hash w name)
  | sorted name => exact .single (.sorted w name)
  | sparse name => exact .single (.sparse w name)
  | composite i => exact .single (.composite w i)

end RowStep

/-- What a run of turns leaves. -/
def runRows {B : Build} {s : Schema} (steps : List (RowStep B s)) (w : Work) : Work :=
  steps.foldl (fun w step => step.run w) w

/-! ## 2. Every built index is the one a rebuild would make -/

/-- Nothing is built yet. -/
structure Collection.Unbuilt (c : Collection) : Prop where
  hashes : ∀ nd ∈ c.hashes, nd.2 = .unbuilt
  sorted : ∀ nd ∈ c.sorted, nd.2 = .unbuilt
  sparse : ∀ nd ∈ c.sparse, nd.2 = .unbuilt
  composites : ∀ kd ∈ c.composites, kd.2 = .unbuilt

theorem Collection.Unbuilt.kept {B : Build} {c : Collection} (h : c.Unbuilt) : c.Kept B where
  hashes := fun n ix hix => by cases h.hashes _ hix
  sorted := fun n ix hix => by cases h.sorted _ hix
  sparse := fun n ix hix => by cases h.sparse _ hix
  composites := fun k ix hix => by cases h.composites _ hix

/-- **What a run starts from**: a collection just created, or one read from a file. -/
inductive Started (s : Schema) : Collection → Prop where
  | new (id : Nat) : s.Checked → Started s (.new id s)
  | loaded (c : Collection) : c.schema = s → c.Sound → c.Unbuilt → Started s c

section

variable {B : Build} {s : Schema} {c : Collection}

theorem Started.schema (h : Started s c) : c.schema = s := by
  cases h with
  | new id => rfl
  | loaded _ hs => exact hs

theorem Started.sound (h : Started s c) : c.Sound := by
  cases h with
  | new id hs => exact Collection.sound_new id hs
  | loaded _ _ hc => exact hc

theorem Started.kept (h : Started s c) : c.Kept B := by
  cases h with
  | new id hs => exact Collection.kept_new id hs
  | loaded _ _ _ hu => exact hu.kept

/-- The documents every turn of a run may write meet a condition. -/
def RunGives (ok : Document → Prop) (c : Collection) (steps : List (RowStep B s)) : Prop :=
  ∀ pre step post, steps = pre ++ step :: post →
    ∀ d, step.Gives (runRows pre ⟨c, []⟩).c d → ok d

/-- A run only moves. -/
theorem runRows_moves {ok : Document → Prop} (hc : Started s c) {steps : List (RowStep B s)}
    (hok : RunGives ok c steps) : Moves B ok ⟨c, []⟩ (runRows steps ⟨c, []⟩) := by
  -- by the number of turns, the last one taken from the state the others left
  induction steps using List.reverseRecOn with
  | nil => exact .refl
  | append_singleton pre step ih =>
    have hrun : Moves B ok ⟨c, []⟩ (runRows pre ⟨c, []⟩) := by
      refine ih fun pre' step' post' heq d hd => hok pre' step' (post' ++ [step]) ?_ d hd
      rw [heq, List.append_assoc, List.cons_append]
    have hstep : runRows (pre ++ [step]) ⟨c, []⟩ = step.run (runRows pre ⟨c, []⟩) := by
      simp [runRows]
    rw [hstep]
    refine hrun.trans (step.moves ?_ (moves_sound hrun hc.sound) (hok pre step [] rfl))
    exact (moves_schema hrun).trans hc.schema

/-- **After every turn every built index is the one a rebuild would make**, whatever is built at
whatever moment: if no turn gives a hashed field a value its record does not keep. -/
theorem rebuilt_of_settled (hc : Started s c) (steps : List (RowStep B s))
    (hset : RunGives (Collection.Settled s) c steps) :
    ∀ pre, pre <+: steps → (runRows pre ⟨c, []⟩).c.Rebuilt B := by
  rintro pre ⟨post, rfl⟩
  have hpre : RunGives (Collection.Settled s) c pre := by
    intro pre' step post' heq
    refine hset pre' step (post' ++ post) ?_
    rw [heq, List.append_assoc, List.cons_append]
  have hrun := runRows_moves hc hpre
  refine Collection.Kept.rebuilt (moves_sound hrun hc.sound) (moves_kept ?_ hrun hc.sound hc.kept)
  intro d hd
  rw [hc.schema]
  exact hd

end

/-! ## 3. A vector the record rounds -/

/-- A session with no hooks. -/
def Session.quiet (B : Build) : Session B where
  ctx := ⟨[], .builtin B, none⟩
  hooks := ⟨fun _ _ _ => .ok (), fun _ _ _ => .ok (), fun _ _ _ => .ok ()⟩
  json := fun v => v.typeName

/-- A plain `put`. -/
def PutMode.plain : PutMode := ⟨false, false, none, none⟩

/-- `create collection t (e vector<1, f16> @hash)`. -/
def halvedSchema : Schema where
  name := "t"
  fields := [⟨"e", .vector 1 .f16, .hash false, false, none, false⟩]
  paths := []
  dropped := []
  composites := []

theorem halvedSchema_checked : halvedSchema.Checked where
  nodup := by decide
  not_id := by decide
  no_dot := by decide
  nocase_text := by decide
  fields_checked := by decide
  fields_resolved := by decide
  paths_nodup := by decide
  paths_json := by decide
  paths_plain := by decide
  paths_read := fun p hp => by cases hp
  composites_long := fun k hk => by cases hk
  composites_short := fun k hk => by cases hk
  composites_part := fun k hk => by cases hk

/-- A vector of one element given by its bits. -/
def oneVector (bits : Nat) : Document := ⟨0, [("e", .vector [Ieee.ofWord bits])]⟩

theorem oneVector_fits (bits : Nat) : (oneVector bits).Fits halvedSchema := by
  intro f hf
  rw [List.mem_singleton.mp hf]
  exact ⟨.vector [Ieee.ofWord bits], rfl, rfl⟩

/-- `put t {e: [0.5]}`: a half is what its record keeps. -/
theorem rebuilt_of_settled_half :
    (runRows [.put (.quiet Build.ascii) .plain (oneVector 0x3F000000)
      (oneVector_fits 0x3F000000)] ⟨.new 1 halvedSchema, []⟩).c.Rebuilt Build.ascii := by
  refine rebuilt_of_settled (.new 1 halvedSchema_checked) _ ?_ _ (List.prefix_refl _)
  intro pre step post heq d hd
  obtain ⟨rfl, rfl, -⟩ : pre = [] ∧ step = .put (.quiet Build.ascii) .plain (oneVector 0x3F000000)
      (oneVector_fits 0x3F000000) ∧ post = [] := by
    cases pre with
    | nil =>
      obtain ⟨h1, h2⟩ := List.cons.inj heq
      exact ⟨rfl, h1.symm, h2.symm⟩
    | cons a as =>
      obtain ⟨-, h2⟩ := List.cons.inj heq
      cases as <;> cases h2
  rcases hd with ⟨i, rfl⟩ | ⟨set, -, -, hnone, -⟩
  · intro f hf _
    rw [List.mem_singleton.mp hf]
    have hhalf : Codec.kept (.vector 1 .f16) (.vector [Ieee.ofWord 0x3F000000]) =
        .vector [Ieee.ofWord 0x3F000000] := by decide
    exact hhalf
  · cases hnone

/-- **`put t {e: [0.1]}` files the row under a key no rebuild makes**: the record keeps a tenth
rounded to eleven bits, and the index was given all twenty-four. -/
theorem halved_vector_misfiled :
    documentOf halvedSchema [("e", .vector [Ieee.ofWord 0x3DCCCCCD])] =
      .ok (oneVector 0x3DCCCCCD) ∧
    ¬ (runRows [.put (.quiet Build.ascii) .plain (oneVector 0x3DCCCCCD)
      (oneVector_fits 0x3DCCCCCD)] ⟨.new 1 halvedSchema, []⟩).c.Rebuilt Build.ascii := by
  refine ⟨by decide, fun h => ?_⟩
  have hmem : ("e", Derived.built ⟨none, {([6, 1, 205, 204, 204, 61], 1)}⟩) ∈
      (runRows [.put (.quiet Build.ascii) .plain (oneVector 0x3DCCCCCD)
        (oneVector_fits 0x3DCCCCCD)] ⟨.new 1 halvedSchema, []⟩).c.hashes := by
    decide
  obtain ⟨src, hsrc, hix⟩ := h.hashes _ _ hmem
  have hpos : src = (0, none) := Option.some.inj (hsrc.symm.trans (by decide))
  subst hpos
  revert hix
  decide

end Fenec
