/-
# What a write statement can do to a collection

However a statement goes, all it does to its collection are a few kinds of move: an index is
built, a document no unique value of which another row holds is written, a row is erased.  `Move`
lists them with what each is allowed on, and `putRow_moves`, `setRow_moves` and `erase_moves` say
that the statements' turns only make such moves, also when they fail.  What holds of every move
then holds of every statement, and of every run of them.

The id a new document takes is handed out before the document is judged and taken back if it is
refused; `Work.nextAt` is the state between, and no move.
-/
import Fenec.Write
import Mathlib.Logic.Relation

namespace Fenec

open Lib Case Relation

/-! ## 1. Indexes built along the way -/

/-- An index built when it was asked for. -/
inductive Fill (B : Build) : Work → Work → Prop where
  | hash (w : Work) (n : String) : Fill B w { w with c := w.c.buildHash B n }
  | composite (w : Work) (i : Nat) : Fill B w { w with c := w.c.buildComposite B i }

/-- Some indexes built. -/
abbrev Fills (B : Build) : Work → Work → Prop := ReflTransGen (Fill B)

namespace Collection

variable {B : Build} {c : Collection}

theorem orBuild_built {α : Type} (ix : α) (r : Result α) : (Derived.built ix).orBuild r = .built ix :=
  rfl

theorem mem_buildHash_of_mem {m n : String} {ix : HashIndex} (h : (n, .built ix) ∈ c.hashes) :
    (n, .built ix) ∈ (c.buildHash B m).hashes := by
  refine List.mem_map.mpr ⟨(n, .built ix), h, ?_⟩
  simp only [builtHash, orBuild_built]
  split
  · split <;> rfl
  · rfl

theorem mem_buildComposite_of_mem {i : Nat} {k : Composite} {ix : CompositeIndex}
    (h : (k, .built ix) ∈ c.composites) : (k, .built ix) ∈ (c.buildComposite B i).composites := by
  obtain ⟨j, hj, hget⟩ := List.mem_iff_getElem.mp h
  refine List.mem_iff_getElem.mpr ⟨j, by simpa [buildComposite] using hj, ?_⟩
  simp only [buildComposite, List.getElem_modify, hget]
  split <;> rfl

end Collection

/-- What building leaves as it was. -/
structure Filled (w w' : Work) : Prop where
  alongside : w.c.Alongside w'.c
  store : w'.c.store = w.c.store
  log : w'.log = w.log
  hashes : ∀ n ix, (n, .built ix) ∈ w.c.hashes → (n, .built ix) ∈ w'.c.hashes
  composites : ∀ k ix, (k, .built ix) ∈ w.c.composites → (k, .built ix) ∈ w'.c.composites

namespace Filled

variable {w w' w'' : Work}

theorem rfl' (w : Work) : Filled w w := ⟨⟨rfl, rfl, rfl, rfl, rfl⟩, rfl, rfl, fun _ _ h => h,
  fun _ _ h => h⟩

theorem trans (h : Filled w w') (h' : Filled w' w'') : Filled w w'' where
  alongside := h.alongside.trans h'.alongside
  store := h'.store.trans h.store
  log := h'.log.trans h.log
  hashes n ix hix := h'.hashes n ix (h.hashes n ix hix)
  composites k ix hix := h'.composites k ix (h.composites k ix hix)

end Filled

variable {B : Build} {w w' : Work}

theorem Fill.filled (h : Fill B w w') : Filled w w' := by
  cases h with
  | hash n =>
    exact ⟨Collection.alongside_buildHash n, rfl, rfl,
      fun _ _ hix => Collection.mem_buildHash_of_mem hix, fun _ _ hix => hix⟩
  | composite i =>
    exact ⟨Collection.alongside_buildComposite i, rfl, rfl, fun _ _ hix => hix,
      fun _ _ hix => Collection.mem_buildComposite_of_mem hix⟩

theorem fills_filled (h : Fills B w w') : Filled w w' := by
  induction h with
  | refl => exact .rfl' w
  | tail _ hstep ih => exact ih.trans hstep.filled

/-! ## 2. What the unique checks find -/

/-- The index of a unique field holds a document's value for no other row. -/
def FieldFree (B : Build) (c : Collection) (doc : Document) (f : Field) : Prop :=
  f.index.isUnique = true → ∀ v, doc.at f.name = some v → v.isNull = false →
    (f.name ∉ c.hashes.map (·.1) ∨ source c.schema f.name = none) ∨
    ∃ ix, (f.name, .built ix) ∈ c.hashes ∧ ∀ d ∈ ix.get (ix.key B v), d = doc.id

/-- A unique composite index holds a document's values for no other row. -/
def CompositeFree (B : Build) (c : Collection) (doc : Document) (k : Composite) : Prop :=
  k.unique = true → (∀ key ∈ k.keys, ((doc.at key.1).getD .null).isNull = false) →
    ∃ ix, (k, .built ix) ∈ c.composites ∧ ∀ e ∈ ix.keys,
      e.1 = (CompositeIndex.rowKey B ix.parts (compositeValues k doc)).bytes → e.2 = doc.id

/-- **No other row holds a unique value of the document**, as the indexes have it. -/
structure Free (B : Build) (c : Collection) (doc : Document) : Prop where
  fields : ∀ f ∈ c.schema.fields ++ c.schema.paths, FieldFree B c doc f
  composites : ∀ k ∈ c.composites.map (·.1), CompositeFree B c doc k

theorem FieldFree.filled {doc : Document} {f : Field} (h : FieldFree B w.c doc f)
    (hw : Filled w w') : FieldFree B w'.c doc f := by
  intro hu v hv hnull
  rcases h hu v hv hnull with hnone | ⟨ix, hix, hfree⟩
  · refine .inl ?_
    rw [hw.alongside.hashes, hw.alongside.schema]
    exact hnone
  · exact .inr ⟨ix, hw.hashes _ _ hix, hfree⟩

theorem CompositeFree.filled {doc : Document} {k : Composite} (h : CompositeFree B w.c doc k)
    (hw : Filled w w') : CompositeFree B w'.c doc k := by
  intro hu hnull
  obtain ⟨ix, hix, hfree⟩ := h hu hnull
  exact ⟨ix, hw.composites _ _ hix, hfree⟩

theorem lookup_map {κ α : Type} [BEq κ] [LawfulBEq κ] (g : κ → α → α) (l : List (κ × α)) (k : κ) :
    (l.map fun kd => (kd.1, g kd.1 kd.2)).lookup k = (l.lookup k).map (g k) := by
  induction l with
  | nil => rfl
  | cons kd l ih =>
    obtain ⟨k', d⟩ := kd
    rw [List.map_cons, List.lookup_cons, List.lookup_cons]
    by_cases h : k = k'
    · subst h
      simp
    · simp only [beq_eq_false_iff_ne.mpr h, ih]

theorem mem_of_lookup {κ α : Type} [BEq κ] [LawfulBEq κ] {l : List (κ × α)} {k : κ} {d : α}
    (h : l.lookup k = some d) : (k, d) ∈ l := by
  obtain ⟨l₁, l₂, rfl, -⟩ := List.lookup_eq_some_iff.mp h
  simp

theorem orBuild_ne_unbuilt {α : Type} (d : Derived α) (r : Result α) : d.orBuild r ≠ .unbuilt := by
  unfold Derived.orBuild
  split
  · split <;> simp
  · next hd => exact hd

/-- An index is answered as it stands after it was built; none where nothing of the name is
declared. -/
theorem askHash_meets (w : Work) (n : String) : Act.Meets (· = w) (askHash B n)
    (fun o w' => Fills B w w' ∧ match o with
      | some ix => (n, .built ix) ∈ w'.c.hashes
      | none => n ∉ w.c.hashes.map (·.1) ∨ source w.c.schema n = none) (Fills B w) := by
  rintro s rfl
  unfold askHash
  simp only [Act.bind_eq, Act.state]
  cases hd : s.c.hashes.lookup n with
  | none =>
    refine ⟨.refl, .inl fun hmem => ?_⟩
    obtain ⟨nd, hnd, rfl⟩ := List.mem_map.mp hmem
    have := List.lookup_eq_none_iff.mp hd _ hnd
    simp at this
  | some d =>
    cases hsrc : source s.c.schema n with
    | none => exact ⟨.refl, .inr rfl⟩
    | some src =>
      have hfill : Fills B s { s with c := s.c.buildHash B n } := .single (.hash s n)
      have hlook : (s.c.buildHash B n).hashes.lookup n = some (s.c.builtHash B n d) := by
        rw [Collection.buildHash]
        dsimp only
        rw [lookup_map (fun m d => if m = n then s.c.builtHash B m d else d), hd]
        simp
      have hne : s.c.builtHash B n d ≠ .unbuilt := by
        unfold Collection.builtHash
        rw [hsrc]
        exact orBuild_ne_unbuilt _ _
      have hmem := mem_of_lookup hlook
      simp only [Act.bind_eq, Act.change, Act.state, hlook]
      cases hbuilt : s.c.builtHash B n d with
      | unbuilt => exact absurd hbuilt hne
      | built ix =>
        rw [hbuilt] at hmem
        exact ⟨hfill, hmem⟩
      | refused e => exact hfill

theorem getElem_buildComposite (c : Collection) (i : Nat) :
    (c.buildComposite B i).composites[i]? = (c.composites[i]?).map fun kd =>
      (kd.1, kd.2.orBuild (compositeOf B c.schema c.store kd.1)) := by
  simp only [Collection.buildComposite, List.getElem?_modify_eq]
  rfl

theorem askComposite_meets (w : Work) (i : Nat) : Act.Meets (· = w) (askComposite B i)
    (fun o w' => Fills B w w' ∧ ∀ k d, w.c.composites[i]? = some (k, d) →
      ∃ ix, o = some ix ∧ (k, .built ix) ∈ w'.c.composites) (Fills B w) := by
  rintro s rfl
  have hfill : Fills B s { s with c := s.c.buildComposite B i } := .single (.composite s i)
  unfold askComposite
  simp only [Act.bind_eq, Act.change, Act.state]
  cases hi : (s.c.buildComposite B i).composites[i]? with
  | none =>
    refine ⟨hfill, fun k d hkd => ?_⟩
    rw [getElem_buildComposite, hkd] at hi
    cases hi
  | some kd =>
    obtain ⟨k, d⟩ := kd
    have hmem := List.mem_of_getElem? hi
    cases d with
    | unbuilt =>
      rw [getElem_buildComposite] at hi
      obtain ⟨kd, -, heq⟩ := Option.map_eq_some_iff.mp hi
      exact absurd (Prod.mk.inj heq).2 (orBuild_ne_unbuilt _ _)
    | built ix =>
      refine ⟨hfill, fun k' d' hkd => ⟨ix, rfl, ?_⟩⟩
      rw [getElem_buildComposite, hkd] at hi
      have hk : k' = k := (Prod.mk.inj (Option.some.inj hi)).1
      rw [hk]
      exact hmem
    | refused e => exact hfill

/-- The rows a unique field's index holds a value for, but the document's own. -/
theorem fieldHolders_meets (w : Work) (doc : Document) (f : Field) :
    Act.Meets (· = w) (fieldHolders B doc f)
      (fun l w' => Fills B w w' ∧ (l = [] → FieldFree B w'.c doc f)) (Fills B w) := by
  unfold fieldHolders
  split
  · next hu =>
    split
    · next v hv =>
      split
      · next hnull =>
        refine Act.meets_pure ?_
        rintro s rfl
        refine ⟨.refl, fun _ _ v' hv' hnull' => ?_⟩
        rw [hv] at hv'
        cases hv'
        rw [hnull] at hnull'
        cases hnull'
      · refine Act.meets_bind (askHash_meets w f.name) fun o => ?_
        cases o with
        | none =>
          refine Act.meets_pure ?_
          rintro s ⟨hfill, hnone⟩
          refine ⟨hfill, fun _ _ v' hv' _ => .inl ?_⟩
          rw [(fills_filled hfill).alongside.hashes, (fills_filled hfill).alongside.schema]
          exact hnone
        | some ix =>
          refine Act.meets_pure ?_
          rintro s ⟨hfill, hix⟩
          refine ⟨hfill, fun hnil _ v' hv' _ => .inr ⟨ix, hix, fun d hd => ?_⟩⟩
          rw [hv] at hv'
          cases hv'
          rw [List.map_eq_nil_iff, List.filter_eq_nil_iff] at hnil
          simpa using hnil d hd
    · next hv =>
      refine Act.meets_pure ?_
      rintro s rfl
      refine ⟨.refl, fun _ _ v' hv' => ?_⟩
      rw [hv] at hv'
      cases hv'
  · next hu =>
    refine Act.meets_pure ?_
    rintro s rfl
    exact ⟨.refl, fun _ hu' => absurd hu' hu⟩

theorem compositeHolders_meets (w : Work) (doc : Document) {ik : Nat × Composite}
    (hik : ∃ d, w.c.composites[ik.1]? = some (ik.2, d)) :
    Act.Meets (· = w) (compositeHolders B doc ik)
      (fun l w' => Fills B w w' ∧ (l = [] → CompositeFree B w'.c doc ik.2)) (Fills B w) := by
  obtain ⟨i, k⟩ := ik
  obtain ⟨d, hd⟩ := hik
  unfold compositeHolders
  split
  · next hskip =>
    refine Act.meets_pure ?_
    rintro s rfl
    refine ⟨.refl, fun _ hu hnull => ?_⟩
    rw [Bool.or_eq_true, List.any_eq_true] at hskip
    rcases hskip with hskip | ⟨key, hkey, hskip⟩
    · rw [show k.unique = true from hu] at hskip
      cases hskip
    · rw [hnull key hkey] at hskip
      cases hskip
  · refine Act.meets_bind (askComposite_meets w i) fun o => ?_
    cases o with
    | none =>
      refine Act.meets_pure ?_
      rintro s ⟨hfill, hsome⟩
      obtain ⟨ix, hix, -⟩ := hsome k d hd
      cases hix
    | some ix =>
      refine Act.meets_pure ?_
      rintro s ⟨hfill, hsome⟩
      refine ⟨hfill, fun hnil _ _ => ?_⟩
      obtain ⟨ix', hix, hmem⟩ := hsome k d hd
      cases hix
      refine ⟨ix, hmem, fun e he hkey => ?_⟩
      rw [List.map_eq_nil_iff, List.filter_eq_nil_iff] at hnil
      have hnot := hnil e.2 (List.mem_map.mpr ⟨e, List.mem_filter.mpr ⟨he, ?_⟩, rfl⟩)
      · simpa using hnot
      · rw [hkey, (finds_compositeOrder B ix.parts).self]
        rfl

/-- Steps that only build, taken in turn; what each leaves free stays so. -/
theorem gather_meets {α β : Type} {f : α → Step (List β)} {G : α → Work → Prop} {l : List α}
    {H : α → Work → Prop} (hf : ∀ a w, H a w → Act.Meets (· = w) (f a)
      (fun r w' => Fills B w w' ∧ (r = [] → G a w')) (Fills B w))
    (hG : ∀ a w w', Filled w w' → G a w → G a w') (hH : ∀ a w w', Filled w w' → H a w → H a w')
    (w : Work) (hl : ∀ a ∈ l, H a w) : Act.Meets (· = w) (gather f l)
      (fun r w' => Fills B w w' ∧ (r = [] → ∀ a ∈ l, G a w')) (Fills B w) := by
  induction l generalizing w with
  | nil =>
    refine Act.meets_pure ?_
    rintro s rfl
    exact ⟨.refl, fun _ a ha => (by cases ha)⟩
  | cons a as ih =>
    refine Act.meets_bind (hf a w (hl a (List.mem_cons_self ..))) fun here => ?_
    rintro w₁ ⟨hfill₁, hG₁⟩
    have hrest := ih w₁ fun b hb =>
      hH b w w₁ (fills_filled hfill₁) (hl b (List.mem_cons_of_mem _ hb))
    refine Act.meets_bind (P := (· = w₁)) (hrest.imp (fun _ h => h) (fun _ _ h => h)
      fun _ h => hfill₁.trans h) (fun rest => ?_) w₁ rfl
    refine Act.meets_pure ?_
    rintro w₂ ⟨hfill₂, hG₂⟩
    refine ⟨hfill₁.trans hfill₂, fun hnil b hb => ?_⟩
    obtain ⟨hhere, hnil⟩ := List.append_eq_nil_iff.mp hnil
    rcases List.mem_cons.mp hb with rfl | hb
    · exact hG _ _ _ (fills_filled hfill₂) (hG₁ hhere)
    · exact hG₂ hnil b hb

/-- **Finding the holders builds indexes and nothing else; where it finds none, the document is
free.** -/
theorem uniqueHolders_meets (w : Work) (doc : Document) :
    Act.Meets (· = w) (uniqueHolders B doc)
      (fun l w' => Fills B w w' ∧ (l = [] → Free B w'.c doc)) (Fills B w) := by
  rintro s rfl
  unfold uniqueHolders
  rw [Act.bind_eq]
  refine Act.meets_bind (P := (· = s)) (gather_meets (H := fun _ _ => True)
    (fun f w _ => fieldHolders_meets w doc f) (fun f w w' hw h => h.filled hw)
    (fun _ _ _ _ h => h) s fun _ _ => trivial) (fun fields => ?_) s rfl
  rintro w₁ ⟨hfill₁, hfree₁⟩
  have hnames := (fills_filled hfill₁).alongside.composites
  refine Act.meets_bind (P := (· = w₁)) ((gather_meets (l := (s.c.composites.map (·.1)).zipIdx.map
      fun ki => (ki.2, ki.1)) (H := fun ik w => ∃ d, w.c.composites[ik.1]? = some (ik.2, d))
    (fun ik w hik => compositeHolders_meets w doc hik) (fun k w w' hw h => h.filled hw)
    ?_ w₁ ?_).imp (fun _ h => h) (fun _ _ h => h) fun _ h => hfill₁.trans h)
    (fun composites => ?_) w₁ rfl
  · rintro ⟨i, k⟩ w w' hw ⟨d, hd⟩
    have hk : (w'.c.composites.map (·.1))[i]? = some k := by
      rw [hw.alongside.composites, List.getElem?_map, hd]
      rfl
    rw [List.getElem?_map] at hk
    obtain ⟨⟨k', d'⟩, hkd, rfl⟩ := Option.map_eq_some_iff.mp hk
    exact ⟨d', hkd⟩
  · rintro ik hik
    obtain ⟨⟨k, i⟩, hki, rfl⟩ := List.mem_map.mp hik
    have hk := List.mk_mem_zipIdx_iff_getElem?.mp hki
    rw [← hnames, List.getElem?_map] at hk
    obtain ⟨⟨k', d'⟩, hkd, rfl⟩ := Option.map_eq_some_iff.mp hk
    exact ⟨d', hkd⟩
  · refine Act.meets_pure ?_
    rintro w₂ ⟨hfill₂, hfree₂⟩
    refine ⟨hfill₁.trans hfill₂, fun hnil => ?_⟩
    obtain ⟨hfields, hcomposites⟩ := List.append_eq_nil_iff.mp hnil
    have hfilled := (fills_filled hfill₁).trans (fills_filled hfill₂)
    refine ⟨fun f hf => ?_, fun k hk => ?_⟩
    · rw [hfilled.alongside.schema] at hf
      exact (hfree₁ hfields f hf).filled (fills_filled hfill₂)
    · rw [hfilled.alongside.composites] at hk
      obtain ⟨i, hi⟩ := List.mem_iff_getElem?.mp hk
      exact hfree₂ hcomposites (i, k) (List.mem_map.mpr
        ⟨(k, i), List.mk_mem_zipIdx_iff_getElem?.mpr hi, rfl⟩)

theorem uniqueClash_meets (env : Session B) (w : Work) (doc : Document) :
    Act.Meets (· = w) (uniqueClash env doc) (fun _ w' => Fills B w w' ∧ Free B w'.c doc)
      (Fills B w) := by
  refine Act.meets_bind (uniqueHolders_meets w doc) fun l => ?_
  cases l with
  | nil => exact Act.meets_pure fun w' h => ⟨h.1, h.2 rfl⟩
  | cons h t =>
    exact Act.meets_bind (Act.meets_state (Q := fun _ w' => Fills B w w') fun w' hw => hw.1)
      fun _ => Act.meets_fail fun _ hw => hw

/-! ## 3. Moves -/

/-- **What a write statement can do**: build an index, write a document that is free, erase a row.
`ok` is what is known of the documents written. -/
inductive Move (B : Build) (ok : Document → Prop) : Work → Work → Prop where
  | hash (w : Work) (n : String) : Move B ok w { w with c := w.c.buildHash B n }
  | sorted (w : Work) (n : String) : Move B ok w { w with c := w.c.buildSorted B n }
  | sparse (w : Work) (n : String) : Move B ok w { w with c := w.c.buildSparse n }
  | composite (w : Work) (i : Nat) : Move B ok w { w with c := w.c.buildComposite B i }
  | write (w : Work) (doc : Document) : doc.Fits w.c.schema → Free B w.c doc → ok doc →
      Move B ok w (w.wrote B doc (w.c.store.read w.c.schema doc.id) w.c.store.nextId)
  | erase (w : Work) (id : DocId) : Move B ok w (w.erased B id)

/-- Some moves, one after another. -/
abbrev Moves (B : Build) (ok : Document → Prop) : Work → Work → Prop := ReflTransGen (Move B ok)

variable {ok : Document → Prop}

theorem Fill.move (h : Fill B w w') : Move B ok w w' := by
  cases h with
  | hash n => exact .hash w n
  | composite i => exact .composite w i

theorem fills_moves (h : Fills B w w') : Moves B ok w w' :=
  ReflTransGen.mono (fun _ _ h => h.move) _ _ h

theorem Move.schema (h : Move B ok w w') : w'.c.schema = w.c.schema := by
  cases h with
  | write doc => exact Collection.write_schema
  | erase id => exact (Collection.alongside_erase id).schema
  | _ => rfl

theorem moves_schema (h : Moves B ok w w') : w'.c.schema = w.c.schema := by
  induction h with
  | refl => rfl
  | tail _ hstep ih => exact hstep.schema.trans ih

theorem Move.sound (h : Move B ok w w') (hw : w.c.Sound) : w'.c.Sound := by
  cases h with
  | hash n => exact hw.alongside (Collection.alongside_buildHash n) rfl
  | sorted n => exact hw.alongside (Collection.alongside_buildSorted n) rfl
  | sparse n => exact hw.alongside (Collection.alongside_buildSparse n) rfl
  | composite i => exact hw.alongside (Collection.alongside_buildComposite i) rfl
  | write doc hfits => exact Collection.sound_write hw hfits
  | erase id => exact Collection.sound_erase hw id

theorem moves_sound (h : Moves B ok w w') (hw : w.c.Sound) : w'.c.Sound := by
  induction h with
  | refl => exact hw
  | tail _ hstep ih => exact hstep.sound ih

/-- **A move keeps every built index**, if what is written is what its record keeps. -/
theorem Move.kept (hok : ∀ d, ok d → Collection.Settled w.c.schema d) (h : Move B ok w w')
    (hw : w.c.Sound) (hk : w.c.Kept B) : w'.c.Kept B := by
  cases h with
  | hash n => exact Collection.buildHash_kept hk n
  | sorted n => exact Collection.buildSorted_kept hk n
  | sparse n => exact Collection.buildSparse_kept hw hk n
  | composite i => exact Collection.buildComposite_kept hw hk i
  | write doc hfits _ hdoc => exact Collection.write_kept hw hk hfits (hok doc hdoc) rfl
  | erase id => exact Collection.erase_kept hw hk id

theorem moves_kept (hok : ∀ d, ok d → Collection.Settled w.c.schema d) (h : Moves B ok w w')
    (hw : w.c.Sound) (hk : w.c.Kept B) : w'.c.Kept B := by
  induction h with
  | refl => exact hk
  | tail hrun hstep ih =>
    refine hstep.kept ?_ (moves_sound hrun hw) ih
    rw [moves_schema hrun]
    exact hok

/-! ## 4. The state between -/

namespace Work

@[simp] theorem nextAt_self (w : Work) : w.nextAt w.c.store.nextId = w := rfl

@[simp] theorem nextAt_nextAt (w : Work) (m n : Nat) : (w.nextAt m).nextAt n = w.nextAt n := rfl

/-- A document written under the id handed out is one written under the next id. -/
theorem nextAt_wrote (w : Work) (doc : Document) (old : Option Document) (mark n : Nat)
    (hn : n = w.c.store.nextId ∨ doc.id = w.c.store.nextId ∧ n = w.c.store.nextId + 1) :
    (w.nextAt n).wrote B doc old mark = w.wrote B doc old mark := by
  rcases hn with rfl | ⟨hid, rfl⟩
  · rfl
  · have hput : ∀ p, (w.nextAt (w.c.store.nextId + 1)).c.store.put doc.id p =
        w.c.store.put doc.id p := by
      intro p
      simp [Store.put, nextAt, hid]
    unfold wrote
    congr 1
    cases old with
    | none =>
      simp only [Collection.write]
      rw [hput]
      rfl
    | some o =>
      simp only [Collection.write]
      rw [hput]
      rfl

end Work

theorem Fill.nextAt (h : Fill B w w') (n : Nat) : Fill B (w.nextAt n) (w'.nextAt n) := by
  cases h with
  | hash m => exact .hash (w.nextAt n) m
  | composite i => exact .composite (w.nextAt n) i

/-- Indexes built in the state between are those built without it. -/
theorem fills_nextAt {u : Work} {n : Nat} (h : Fills B (u.nextAt n) w') :
    ∃ u', Fills B u u' ∧ w' = u'.nextAt n := by
  induction h with
  | refl => exact ⟨u, .refl, rfl⟩
  | tail _ hstep ih =>
    obtain ⟨u', hu, rfl⟩ := ih
    cases hstep with
    | hash m => exact ⟨_, hu.tail (.hash u' m), rfl⟩
    | composite i => exact ⟨_, hu.tail (.composite u' i), rfl⟩

/-! ## 5. Turns -/

/-- No row but what was there, and the same schema. -/
structure Shrunk (w w' : Work) : Prop where
  schema : w'.c.schema = w.c.schema
  rows : ∀ id p, w'.c.store.rows.get id = some p → w.c.store.rows.get id = some p

theorem Shrunk.trans {w w' w'' : Work} (h : Shrunk w w') (h' : Shrunk w' w'') : Shrunk w w'' :=
  ⟨h'.schema.trans h.schema, fun id p hp => h.rows id p (h'.rows id p hp)⟩

theorem Filled.shrunk (h : Filled w w') : Shrunk w w' :=
  ⟨h.alongside.schema, fun id p hp => by rwa [h.store] at hp⟩

theorem shrunk_erased (w : Work) (id : DocId) : Shrunk w (w.erased B id) where
  schema := (Collection.alongside_erase id).schema
  rows := by
    intro j p hp
    simp only [Work.erased, Collection.erase_store, Store.del, OrdMap.get_erase] at hp
    split at hp
    · cases hp
    · exact hp

theorem Shrunk.read (h : Shrunk w w') {id : DocId} {d : Document}
    (hd : w'.c.store.read w'.c.schema id = some d) : w.c.store.read w.c.schema id = some d := by
  obtain ⟨p, hp, rfl⟩ := Option.map_eq_some_iff.mp hd
  rw [Store.read, h.rows id p hp, h.schema]
  rfl

section

variable (env : Session B)

/-- **Erasing a row is one move, or none where a hook refused it.** -/
theorem erase_moves (w : Work) (id : DocId) : Act.Meets (· = w) (erase env id)
    (fun _ w' => w' = w.erased B id) (· = w) := by
  refine Act.meets_start ?_
  refine Act.meets_bind (Q := fun _ w' => w' = w) (Act.meets_lift (fun _ _ _ h => h) fun _ h => h)
    fun _ => ?_
  exact Act.meets_change fun _ h => by rw [h]

theorem eachErase_moves (w : Work) (ids : List DocId) : Act.Meets
    (fun w' => Moves B ok w w' ∧ Shrunk w w') (Act.each (erase env) ids)
    (fun _ w' => Moves B ok w w' ∧ Shrunk w w') (fun w' => Moves B ok w w' ∧ Shrunk w w') := by
  refine Act.meets_each fun id _ => ?_
  rintro s ⟨hmoves, hshrunk⟩
  refine (erase_moves env s id).imp (fun _ h => h) (fun _ w' h => ?_) (fun w' h => ?_) s rfl
  · subst h
    exact ⟨hmoves.tail (.erase s id), hshrunk.trans (shrunk_erased s id)⟩
  · subst h
    exact ⟨hmoves, hshrunk⟩

theorem evict_moves (w : Work) (mode : PutMode) (doc : Document) : Act.Meets (· = w)
    (evict env mode doc) (fun _ w' => Moves B ok w w' ∧ Shrunk w w')
    (fun w' => Moves B ok w w' ∧ Shrunk w w') := by
  have hrefl : Moves B ok w w ∧ Shrunk w w := ⟨.refl, rfl, fun _ _ h => h⟩
  have hfind : ∀ w', Fills B w w' → Moves B ok w w' ∧ Shrunk w w' := fun w' h =>
    ⟨fills_moves h, (fills_filled h).shrunk⟩
  refine Act.meets_start ?_
  split
  · split
    · refine Act.meets_bind ((uniqueHolders_meets w doc).imp (fun _ h => h)
        (fun _ w' h => hfind w' h.1) hfind) fun l => ?_
      exact eachErase_moves env w _
    · exact Act.meets_pure fun _ h => h ▸ hrefl
  · exact Act.meets_pure fun _ h => h ▸ hrefl

/-- **Setting a row is building indexes and at most one write.** -/
theorem setRow_moves {w : Work} (hw : w.c.Sound) (id : DocId) (set : List Assign)
    (new : Option Document) (hok : ∀ old doc, w.c.store.read w.c.schema id = some old →
      updated env.ctx w.c.schema old new set old = .ok doc → ok doc) :
    Act.Meets (· = w) (setRow env id set new) (fun _ => Moves B ok w) (Moves B ok w) := by
  have hrefl : ∀ w', w' = w → Moves B ok w w' := fun w' h => h ▸ .refl
  refine Act.meets_start ?_
  dsimp only
  split
  · exact Act.meets_pure hrefl
  · next old hold =>
    obtain ⟨p, hp, rfl⟩ := Option.map_eq_some_iff.mp hold
    refine Act.meets_bind (Q := fun doc w' => w' = w ∧
      updated env.ctx w.c.schema (readDoc w.c.schema id p) new set (readDoc w.c.schema id p) =
        .ok doc) (Act.meets_lift (fun doc hdoc w' h => ⟨h, hdoc⟩) hrefl) fun doc => ?_
    rintro w' ⟨rfl, hdoc⟩
    obtain ⟨hfits, -, hid⟩ := Document.updated_fits hw.checked.toWF (hw.fits id p hp)
      (Document.laid_readDoc _ id p) hdoc
    refine Act.meets_bind (P := (· = w')) (Q := fun _ u => u = w')
      (Act.meets_lift (fun _ _ _ h => h) hrefl) (fun _ => ?_) w' rfl
    refine Act.meets_bind (Q := fun _ u => u = w')
      (Act.meets_lift (fun _ _ _ h => h) hrefl) fun _ => ?_
    refine Act.meets_bind ((uniqueClash_meets env w' doc).imp (fun _ h => h) (fun _ _ h => h)
      fun _ h => fills_moves h) fun _ => ?_
    refine Act.meets_bind (Q := fun _ => Moves B ok w') (Act.meets_change ?_) fun _ =>
      Act.meets_bind (Q := fun _ => Moves B ok w') (Act.meets_lift (fun _ _ _ h => h) fun _ h => h)
        fun _ => Act.meets_pure fun _ h => h
    rintro u ⟨hfill, hfree⟩
    have hfilled := fills_filled hfill
    -- the row read before the indexes were built is the row written over
    have hread : some (readDoc w'.c.schema id p) = u.c.store.read u.c.schema doc.id := by
      rw [hid, hfilled.store, hfilled.alongside.schema]
      exact hold.symm
    rw [hread]
    refine (fills_moves hfill).tail (.write u doc ?_ hfree (hok _ doc hold hdoc))
    rw [hfilled.alongside.schema]
    exact hfits

/-- Where nothing is unique, every document is free. -/
theorem free_of_none {c : Collection} (hc : c.Declared) (h : c.schema.hasUnique = false)
    (doc : Document) : Free B c doc := by
  rw [Schema.hasUnique, Bool.or_eq_false_iff, List.any_eq_false, List.any_eq_false] at h
  refine ⟨fun f hf hu => absurd hu (h.1 f hf), fun k hk hu => absurd hu (h.2 k ?_)⟩
  rw [← hc.composites]
  exact hk

/-- **Judging a document builds indexes; a document let through is free.** -/
theorem judge_meets {w : Work} (hw : w.c.Declared) (mode : PutMode) (doc : Document) (op : WriteOp)
    (old : Option Document) : Act.Meets (· = w) (judge env mode doc op old)
      (fun b w' => Fills B w w' ∧ (b = true → Free B w'.c doc)) (Fills B w) := by
  have hrefl : ∀ w', w' = w → Fills B w w' := fun w' h => h ▸ .refl
  refine Act.meets_start ?_
  refine Act.meets_bind (Q := fun _ u => u = w) (Act.meets_lift (fun _ _ _ h => h) hrefl)
    fun _ => ?_
  refine Act.meets_bind (Q := fun _ u => u = w) (Act.meets_lift (fun _ _ _ h => h) hrefl)
    fun _ => ?_
  split
  · refine Act.meets_rescue (F := Fills B w) ?_ fun e => ?_
    · exact Act.meets_bind (uniqueClash_meets env w doc) fun _ =>
        Act.meets_pure fun _ h => ⟨h.1, fun _ => h.2⟩
    · split
      · exact Act.meets_pure fun _ h => ⟨h, fun hb => by cases hb⟩
      · exact Act.meets_fail fun _ h => h
  · next hu =>
    refine Act.meets_pure ?_
    rintro w' rfl
    exact ⟨.refl, fun _ => free_of_none hw (by simpa using hu) doc⟩

/-- **The documents a turn of a `put` may write**: the one it is given, under the id it gets, or a
stored row with the upsert's fields worked out anew. -/
def PutMode.Gives (mode : PutMode) (c : Collection) (doc d : Document) : Prop :=
  (∃ i, d = { doc with id := i }) ∨ ∃ set id old, mode.elseSet = some set ∧
    c.store.read c.schema id = some old ∧ updated env.ctx c.schema old (some doc) set old = .ok d

/-- Where a document goes, and the id it is written under. -/
theorem placeDoc_meets {w : Work} (hw : w.c.Sound) (mode : PutMode) (doc : Document) :
    Act.Meets (· = w) (placeDoc mode doc) (fun placed w' => match placed with
      | .skip => w' = w
      | .held _ => w' = w
      | .fresh d op => ∃ n, w' = w.nextAt n ∧
          (if op = .update then w.c.store.read w.c.schema d.id else none) =
            w.c.store.read w.c.schema d.id ∧
          (doc.id ≠ 0 ∧ d = doc ∧ n = w.c.store.nextId ∨
            doc.id = 0 ∧ d = { doc with id := w.c.store.nextId } ∧ n = w.c.store.nextId + 1))
      (· = w) := by
  refine Act.meets_start ?_
  split
  · next hid =>
    -- no row has the next id, so there is none to write over
    have hnone : w.c.store.read w.c.schema w.c.store.nextId = none := by
      rw [Store.read, Option.map_eq_none_iff]
      cases hrow : w.c.store.rows.get w.c.store.nextId with
      | none => rfl
      | some p => exact absurd (hw.below _ p hrow) (Nat.lt_irrefl _)
    refine Act.meets_bind (Q := fun _ w' => w' = w.nextAt (w.c.store.nextId + 1))
      (Act.meets_change fun _ h => by rw [h]) fun _ => Act.meets_pure ?_
    rintro w' rfl
    exact ⟨_, rfl, by simpa using hnone.symm, .inr ⟨hid, rfl, rfl⟩⟩
  · next hid =>
    split
    · dsimp only
      split
      · split
        · exact Act.meets_fail fun _ h => h
        · split
          · exact Act.meets_pure fun _ h => h
          · exact Act.meets_pure fun _ h => h
      · refine Act.meets_pure ?_
        rintro w' rfl
        exact ⟨_, rfl, by simp, .inl ⟨hid, rfl, rfl⟩⟩
    · next hc =>
      refine Act.meets_pure ?_
      rintro w' rfl
      refine ⟨_, rfl, ?_, .inl ⟨hid, rfl, rfl⟩⟩
      have hrow : w'.c.store.rows.get doc.id = none := by
        simpa [Store.contains] using hc
      simp [Store.read, hrow]

/-- **A turn of a `put` only moves**, also when it fails. -/
theorem putRow_moves {w : Work} (hw : w.c.Sound) (mode : PutMode) (doc : Document)
    (hfits : doc.Fits w.c.schema) (hok : ∀ d, mode.Gives env w.c doc d → ok d) :
    Act.Meets (· = w) (putRow env mode doc) (fun _ => Moves B ok w) (Moves B ok w) := by
  refine Act.meets_bind ((evict_moves env w mode doc).imp (fun _ h => h) (fun _ _ h => h)
    fun _ h => h.1) fun _ => ?_
  rintro u ⟨hmoves, hshrunk⟩
  have hu : u.c.Sound := moves_sound hmoves hw
  have hset : ∀ v, Fills B u v → ∀ id set, mode.elseSet = some set → Act.Meets (· = v)
      (setRow env id set (some doc)) (fun _ => Moves B ok w) (Moves B ok w) := by
    intro v hv id set hmode
    have hmv : Moves B ok u v := fills_moves hv
    have hsound : v.c.Sound := moves_sound hmv hu
    refine (setRow_moves env hsound id set (some doc) fun old d hold hd => ?_).imp (fun _ h => h)
      (fun _ _ h => hmoves.trans ((fills_moves hv).trans h))
      fun _ h => hmoves.trans ((fills_moves hv).trans h)
    have hread := (hshrunk.trans (fills_filled hv).shrunk).read hold
    refine hok d (.inr ⟨set, id, old, hmode, hread, ?_⟩)
    rwa [(hshrunk.trans (fills_filled hv).shrunk).schema] at hd
  refine Act.meets_start (s := u) ?_ u rfl
  refine Act.meets_bind ((placeDoc_meets hu mode doc).imp (fun _ h => h) (fun _ _ h => h)
    fun _ h => h ▸ hmoves) fun placed => ?_
  cases placed with
  | skip => exact Act.meets_pure fun _ h => h ▸ hmoves
  | held id =>
    dsimp only
    split
    · next set hmode => exact hset u .refl id set hmode
    · exact Act.meets_pure fun _ h => h ▸ hmoves
  | fresh d op =>
    rintro v ⟨n, rfl, hold, hplace⟩
    have hd : d.Fits u.c.schema := by
      rw [hshrunk.schema]
      rcases hplace with ⟨-, rfl, -⟩ | ⟨-, rfl, -⟩ <;> exact hfits
    have hnew : (if doc.id = 0 then { d with id := 0 } else d) = doc := by
      rcases hplace with ⟨hid, rfl, -⟩ | ⟨hid, rfl, -⟩
      · rw [if_neg hid]
      · rw [if_pos hid]
        cases doc
        cases hid
        rfl
    refine Act.meets_start (s := u.nextAt n) ?_ _ rfl
    -- indexes built past here are built as if the id were not handed out yet
    have hback : ∀ v, Fills B (u.nextAt n) v → ∃ u', Fills B u u' ∧ v = u'.nextAt n ∧
        u'.c.store.nextId = u.c.store.nextId := by
      intro v hv
      obtain ⟨u', hu', rfl⟩ := fills_nextAt hv
      exact ⟨u', hu', rfl, by rw [(fills_filled hu').store]⟩
    refine Act.meets_bind (Q := fun b v => ∃ u', Fills B u u' ∧ v = u'.nextAt n ∧
        u'.c.store.nextId = u.c.store.nextId ∧ (b = true → Free B u'.c d))
      (Act.meets_rescue (F := Fills B (u.nextAt n)) ((judge_meets env (w := u.nextAt n)
        (hu.declared.alongside (Collection.alongside_stored _)) mode d op _).imp (fun _ h => h) (fun b v h => ?_) fun _ h => h)
        fun e => ?_) fun free => ?_
    · obtain ⟨u', hu', rfl, hnext⟩ := hback v h.1
      exact ⟨u', hu', rfl, hnext, fun hb => ⟨(h.2 hb).fields, (h.2 hb).composites⟩⟩
    · refine Act.meets_bind (Q := fun _ => Moves B ok w) (Act.meets_change fun v hv => ?_)
        fun _ => Act.meets_fail fun _ h => h
      obtain ⟨u', hu', rfl, hnext⟩ := hback v hv
      rw [Work.nextAt_nextAt, ← hnext, Work.nextAt_self]
      exact hmoves.trans (fills_moves hu')
    · split
      · next hfree =>
        refine Act.meets_bind (Q := fun _ => Moves B ok w) (Act.meets_change ?_) fun _ =>
          Act.meets_bind (Q := fun _ => Moves B ok w)
            (Act.meets_lift (fun _ _ _ h => h) fun _ h => h) fun _ => Act.meets_pure fun _ h => h
        rintro v ⟨u', hu', rfl, hnext, hd'⟩
        have hfilled := fills_filled hu'
        rw [Work.nextAt_wrote]
        · have hread : (if op = .update then
              (u.nextAt n).c.store.read (u.nextAt n).c.schema d.id else none) =
              u'.c.store.read u'.c.schema d.id := by
            rw [hfilled.store, hfilled.alongside.schema]
            exact hold
          rw [hread, ← hnext]
          refine (hmoves.trans (fills_moves hu')).tail (.write u' d ?_ (hd' hfree) ?_)
          · rw [hfilled.alongside.schema]
            exact hd
          · refine hok d (.inl ?_)
            rcases hplace with ⟨-, rfl, -⟩ | ⟨-, rfl, -⟩
            · exact ⟨d.id, rfl⟩
            · exact ⟨_, rfl⟩
        · rw [hnext]
          rcases hplace with ⟨-, -, hn⟩ | ⟨-, rfl, hn⟩
          · exact .inl hn
          · exact .inr ⟨rfl, hn⟩
      · refine Act.meets_bind (Q := fun _ v => Fills B u v) (Act.meets_change ?_) fun _ => ?_
        · rintro v ⟨u', hu', rfl, hnext, -⟩
          rw [Work.nextAt_nextAt, ← hnext, Work.nextAt_self]
          exact hu'
        · have hfilled : ∀ v, Fills B u v → Moves B ok w v := fun v hv =>
            hmoves.trans (fills_moves hv)
          split
          · exact Act.meets_pure hfilled
          · next set hmode =>
            rw [hnew]
            rintro v hv
            refine Act.meets_bind (P := (· = v)) ((uniqueHolders_meets v d).imp (fun _ h => h)
              (fun _ _ h => hv.trans h.1) fun _ h => hfilled _ (hv.trans h)) (fun l => ?_) v rfl
            split
            · rintro v' hv'
              exact hset v' hv' _ set hmode v' rfl
            · exact Act.meets_pure hfilled

end

end Fenec
