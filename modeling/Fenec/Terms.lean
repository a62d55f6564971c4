/-
# The words of a text index

The words of an index lie in one shard, or past so many of them in 256, each word in the shard its
hash's top byte names.  What they stand for is a map of words to the documents counted in each:
`bump` counts a document up in a word, `drop_doc` takes one out, and `shrink_to_fit` and the split
change nothing that is seen (`Terms.Holds`).

* §1 is the code, §2 the map, §3 a word's shard among the others, §4 one write or read.
* §5 is the split, §6 what is counted over all the words, §7 the runs.

A count is 32 bits, and counted once more than they go it is zero, which is what a free place is
told by: a word counted 2^32 times in its one document is lost (`lost_word`), so the runs told of
count no document so often.  A shard of words past 4 GiB stops at the arena's assertion.
-/
import Fenec.TermWrites

namespace Fenec.Text

open Lib Lib.Swar Lib.Probe

/-! ## 1. The code -/

/-- `SPLIT_AT`: the words at which the one shard is split. -/
def SPLIT_AT : Nat := 98304

/-- `SPLIT_BYTES`: the bytes of words at which it is split whatever their number. -/
def SPLIT_BYTES : Nat := 2 ^ 31

/-- `SHARDS`. -/
def SHARDS : Nat := 256

/-- What an index is built with: whether it is the browser's, and the hash of a word's bytes. -/
structure Keys where
  wasm : Bool
  hashOne : List UInt8 → UInt64

/-- `hash_of`. -/
def Keys.hashOf (K : Keys) (w : List UInt8) : Hash := Hash.of K.wasm (K.hashOne w)

/-- `Terms`: the one shard, or the shards it was split into. -/
structure Terms where
  one : Shard
  shards : List Shard

/-- The shard of a tag, once there are 256. -/
def shareOf (tag : UInt32) : Nat := (tag >>> 24).toNat

/-- `split`'s room for a word more in a share. -/
def roomFor (s : Shard) : Except Stop Shard :=
  if fits (s.len + 1) s.table.slots.length then .ok s
  else s.resize (max (s.table.slots.length * 2) GROUP)

/-- A term of the one shard put behind a share's.  A list is moved out of the one shard, where no
other slot names it. -/
def takeIn (one s : Shard) (p : Place) (at_ : Nat) : Shard × Nat :=
  if p.list then
    ({ s with lists := s.lists ++ [{ one.list p.i with at_ := at_ }] }, s.lists.length)
  else ({ s with ones := s.ones ++ [{ one.one p.i with at_ := at_ }] }, s.ones.length)

/-- The term a slot of the one shard names, put in its share. -/
def spread (one : Shard) (shards : List Shard) (vc : UInt64 × UInt8) :
    Except Stop (List Shard) :=
  if vc.1 = 0 then .ok shards
  else do
    let tag := tagOf vc.1
    let p := placeOf vc.1
    let s ← roomFor (shards.getD (shareOf tag) .default)
    let (s, at_) ← s.putWord (wordAt one.bytes (one.at_ p)).1
    let (s, i) := takeIn one s p at_
    let table ← ended (s.table.place (slot tag ⟨i, p.list⟩) vc.2)
    pure (shards.set (shareOf tag) { s with table := table })

namespace Terms

/-- `Terms::default`. -/
def default : Terms := ⟨.default, []⟩

/-- `of`: the shard of a tag. -/
def of (t : Terms) (tag : UInt32) : Shard :=
  if !t.shards.isEmpty then t.shards.getD (shareOf tag) .default else t.one

/-- `of_mut`: the shard of a tag written. -/
def setOf (t : Terms) (tag : UInt32) (s : Shard) : Terms :=
  if !t.shards.isEmpty then { t with shards := t.shards.set (shareOf tag) s }
  else { t with one := s }

/-- `shards`. -/
def all (t : Terms) : List Shard := if !t.shards.isEmpty then t.shards else [t.one]

/-- **`split`**: the one shard's words moved into as many as there are. -/
def split (t : Terms) : Except Stop Terms := do
  let share := t.one.len / SHARDS
  let shards ← (t.one.table.slots.zip t.one.table.ctrl).foldlM (spread t.one)
    (List.replicate SHARDS (Shard.withRoom (2 * share)))
  pure ⟨.default, shards⟩

/-- `room`: natively, the split at so many words. -/
def room (t : Terms) (K : Keys) : Except Stop Terms :=
  if K.wasm = false ∧ t.shards.isEmpty ∧
      (SPLIT_AT ≤ t.one.len ∨ SPLIT_BYTES ≤ t.one.bytes.length) then t.split
  else .ok t

/-- **`get`**: a word's documents. -/
def get (t : Terms) (K : Keys) (w : List UInt8) : Except Stop (Option Postings) :=
  let h := K.hashOf w
  let s := t.of h.tag
  if s.table.slots.isEmpty then .ok none
  else do
    match ← s.find h w with
    | .ok e => pure (some (s.postings e))
    | .error _ => pure none

/-- `bump`'s `find`, of a shard that may have no slots. -/
def look (s : Shard) (h : Hash) (w : List UInt8) : Except Stop (Except Nat Nat) :=
  if s.table.slots.isEmpty then .ok (.error 0) else s.find h w

/-- `bump` once there is room. -/
def bumpIn (t : Terms) (K : Keys) (w : List UInt8) (doc : DocId) : Except Stop (Terms × Bool) := do
  let h := K.hashOf w
  let s := t.of h.tag
  let found ← look s h w
  match found with
  | .ok e => pure (t.setOf h.tag (s.bump e doc), false)
  | .error e => do
    let s ← s.add h w doc e
    pure (t.setOf h.tag s, true)

/-- **`bump`**: one more of a word in a document; whether the word is new. -/
def bump (t : Terms) (K : Keys) (w : List UInt8) (doc : DocId) : Except Stop (Terms × Bool) := do
  let t ← t.room K
  t.bumpIn K w doc

/-- **`drop_doc`**: a word no longer in a document; whether that left it in none. -/
def dropDoc (t : Terms) (K : Keys) (w : List UInt8) (doc : DocId) :
    Except Stop (Terms × Bool) :=
  let h := K.hashOf w
  let s := t.of h.tag
  if s.table.slots.isEmpty then .ok (t, false)
  else do
    match ← s.find h w with
    | .ok e => do
      let (s, gone) ← s.dropDoc e doc
      pure (t.setOf h.tag s, gone)
    | .error _ => pure (t, false)

/-- `len`. -/
def len (t : Terms) : Nat := (t.all.map Shard.len).sum

/-- `postings`: how many documents are counted, over all the words. -/
def postings (t : Terms) : Nat :=
  (t.all.map fun s => s.ones.length - s.free.length + (s.lists.map (·.docs.length)).sum).sum

/-- **`words`**: the words held but those marked `^`. -/
def words (t : Terms) : List (List UInt8) :=
  t.all.flatMap fun s =>
    (((s.ones.filter One.live).map One.at_ ++ (s.lists.filter TermList.live).map TermList.at_).map
      fun at_ => (wordAt s.bytes at_).1).filter fun w => w.head? != some 94

/-- **`shrink_to_fit`**. -/
def shrinkToFit (t : Terms) : Except Stop Terms :=
  if !t.shards.isEmpty then (t.shards.mapM Shard.shrink).map fun l => { t with shards := l }
  else t.one.shrink.map fun s => { t with one := s }

end Terms

/-! ## 2. A map of words to counts -/

/-- The documents counted in each word. -/
abbrev Counts := List UInt8 → OrdMap UInt32

/-- **Entries that stand for a map**: one for each word counted in some document. -/
structure Means (E : List Entry) (M : Counts) : Prop where
  nodup : (E.map (·.1)).Nodup
  held : ∀ e ∈ E, Tally e.2 (M e.1) ∧ (M e.1).entries ≠ []
  rest : ∀ w, w ∉ E.map (·.1) → (M w).entries = []

section Meaning

variable {E E' R : List Entry} {M : Counts} {w : List UInt8} {p p' : Postings} {m : OrdMap UInt32}

theorem Means.perm (h : Means E M) (hE : E.Perm E') : Means E' M where
  nodup := (hE.map _).nodup_iff.mp h.nodup
  held e he := h.held e (hE.mem_iff.mpr he)
  rest w hw := h.rest w fun hmem => hw ((hE.map _).mem_iff.mp hmem)

/-- A map of nothing. -/
theorem means_nil : Means [] fun _ => OrdMap.empty :=
  ⟨List.nodup_nil, fun e he => (by cases he), fun _ _ => rfl⟩

/-- The words of the entries are those counted in some document. -/
theorem Means.mem_iff (h : Means E M) (w : List UInt8) :
    w ∈ E.map (·.1) ↔ (M w).entries ≠ [] := by
  constructor
  · intro hmem
    obtain ⟨e, he, rfl⟩ := List.mem_map.mp hmem
    exact (h.held e he).2
  · intro hne
    by_contra hnot
    exact hne (h.rest w hnot)

/-- What the words of a map's entries say of one. -/
theorem Means.cons (h : Means ((w, p) :: R) M) : Tally p (M w) ∧ (M w).entries ≠ [] ∧
    w ∉ R.map (·.1) :=
  ⟨(h.held _ List.mem_cons_self).1, (h.held _ List.mem_cons_self).2,
    (List.nodup_cons.mp h.nodup).1⟩

/-- **A word's documents for others.** -/
theorem Means.put (hR : ∀ e ∈ R, Tally e.2 (M e.1) ∧ (M e.1).entries ≠ [])
    (hnodup : (R.map (·.1)).Nodup) (hw : w ∉ R.map (·.1))
    (hrest : ∀ v, v ≠ w → v ∉ R.map (·.1) → (M v).entries = []) (hp : Tally p m)
    (hm : m.entries ≠ []) : Means ((w, p) :: R) (Function.update M w m) where
  nodup := List.nodup_cons.mpr ⟨hw, hnodup⟩
  held e he := by
    rcases List.mem_cons.mp he with rfl | he
    · rw [Function.update_self]
      exact ⟨hp, hm⟩
    · have hne : e.1 ≠ w := fun heq => hw (heq ▸ List.mem_map_of_mem he)
      rw [Function.update_of_ne hne]
      exact hR e he
  rest v hv := by
    rw [List.map_cons, List.mem_cons, not_or] at hv
    rw [Function.update_of_ne hv.1]
    exact hrest v hv.1 hv.2

theorem Means.rewrite (h : Means ((w, p) :: R) M) (hp : Tally p' m) (hm : m.entries ≠ []) :
    Means ((w, p') :: R) (Function.update M w m) := by
  refine Means.put (fun e he => h.held e (List.mem_cons_of_mem _ he))
    (List.nodup_cons.mp h.nodup).2 h.cons.2.2 (fun v hne hv => h.rest v ?_) hp hm
  rw [List.map_cons, List.mem_cons, not_or]
  exact ⟨hne, hv⟩

theorem Means.add (h : Means R M) (hw : w ∉ R.map (·.1)) (hp : Tally p m) (hm : m.entries ≠ []) :
    Means ((w, p) :: R) (Function.update M w m) :=
  Means.put h.held h.nodup hw (fun v _ hv => h.rest v hv) hp hm

/-- **A word less.** -/
theorem Means.drop (h : Means ((w, p) :: R) M) (hm : m.entries = []) :
    Means R (Function.update M w m) where
  nodup := (List.nodup_cons.mp h.nodup).2
  held e he := by
    have hne : e.1 ≠ w := fun heq => h.cons.2.2 (heq ▸ List.mem_map_of_mem he)
    rw [Function.update_of_ne hne]
    exact h.held e (List.mem_cons_of_mem _ he)
  rest v hv := by
    by_cases heq : v = w
    · rw [heq, Function.update_self]
      exact hm
    · rw [Function.update_of_ne heq]
      refine h.rest v ?_
      rw [List.map_cons, List.mem_cons, not_or]
      exact ⟨heq, hv⟩

end Meaning

/-! ## 3. A word's shard among the others -/

theorem hashOf_low (K : Keys) (w : List UInt8) : (K.hashOf w).h2 < EMPTY := by
  have hlow : ∀ b : UInt8, b &&& 0x7f < EMPTY := by
    intro b
    rw [UInt8.lt_iff_toNat_lt, UInt8.toNat_and]
    exact Nat.lt_of_le_of_lt Nat.and_le_right (by decide)
  unfold Keys.hashOf Hash.of
  split
  · exact hlow _
  · exact hlow _

theorem shareOf_lt (tag : UInt32) : shareOf tag < SHARDS := by
  have htag := tag.toNat_lt
  rw [shareOf, UInt32.toNat_shiftRight, SHARDS]
  have h24 : (24 : UInt32).toNat % 32 = 24 := by decide
  rw [h24, Nat.shiftRight_eq_div_pow]
  omega

namespace Terms

/-- The words of an index and their documents. -/
def entries (t : Terms) : List Entry := t.all.flatMap Shard.entries

/-- **What every write of an index keeps.** -/
structure Good (K : Keys) (t : Terms) : Prop where
  shards : ∀ s ∈ t.all, s.Good K.hashOf
  many : t.shards = [] ∨ t.shards.length = SHARDS
  shares : ∀ (k : Nat) (h : k < t.shards.length), ∀ e ∈ t.shards[k].entries,
    shareOf (K.hashOf e.1).tag = k

section Share

variable {K : Keys} {t : Terms}

/-- **A word's shard**: what the others hold is other words, and another there takes its place. -/
theorem of_spec (h : t.Good K) (w : List UInt8) :
    (t.of (K.hashOf w).tag).Good K.hashOf ∧ ∃ R,
      t.entries.Perm ((t.of (K.hashOf w).tag).entries ++ R) ∧ (∀ e ∈ R, e.1 ≠ w) ∧
      ∀ s : Shard, s.Good K.hashOf →
        (∀ e ∈ s.entries, e.1 = w ∨ e.1 ∈ (t.of (K.hashOf w).tag).entries.map (·.1)) →
        (t.setOf (K.hashOf w).tag s).Good K ∧
          (t.setOf (K.hashOf w).tag s).entries.Perm (s.entries ++ R) := by
  by_cases hnil : t.shards = []
  · have hempty : (!t.shards.isEmpty) = false := by rw [hnil]; rfl
    have hof : t.of (K.hashOf w).tag = t.one := by
      rw [of, hempty, if_neg Bool.false_ne_true]
    have hall : t.all = [t.one] := by rw [all, hempty, if_neg Bool.false_ne_true]
    have hset : ∀ s, t.setOf (K.hashOf w).tag s = { t with one := s } := by
      intro s
      rw [setOf, hempty, if_neg Bool.false_ne_true]
    have hone : ∀ s, ({ t with one := s } : Terms).all = [s] := by
      intro s
      rw [all]
      dsimp only
      rw [hempty, if_neg Bool.false_ne_true]
    refine ⟨?_, [], ?_, fun e he => (by cases he), fun s hs _ => ⟨⟨?_, Or.inl ?_, ?_⟩, ?_⟩⟩
    · rw [hof]
      exact h.shards _ (by rw [hall]; exact List.mem_cons_self)
    · rw [hof, entries, hall, List.flatMap_singleton, List.append_nil]
    · rw [hset, hone]
      intro s' hs'
      rwa [List.mem_singleton.mp hs']
    · rw [hset]
      exact hnil
    · rw [hset]
      exact h.shares
    · rw [hset, entries, hone, List.flatMap_singleton, List.append_nil]
  · have hlen : t.shards.length = SHARDS := h.many.resolve_left hnil
    have hempty : (!t.shards.isEmpty) = true := by
      cases hs : t.shards with
      | nil => exact absurd hs hnil
      | cons s l => rfl
    obtain ⟨k, hk⟩ : ∃ k, k = shareOf (K.hashOf w).tag := ⟨_, rfl⟩
    have hlt : k < t.shards.length := by rw [hlen, hk]; exact shareOf_lt _
    have hof : t.of (K.hashOf w).tag = t.shards[k] := by
      rw [of, hempty, if_pos rfl, ← hk, List.getD_eq_getElem _ _ hlt]
    have hall : t.all = t.shards := by rw [all, hempty, if_pos rfl]
    have hset : ∀ s, t.setOf (K.hashOf w).tag s = { t with shards := t.shards.set k s } := by
      intro s
      rw [setOf, hempty, if_pos rfl, hk]
    have hall' : ∀ s, ({ t with shards := t.shards.set k s } : Terms).all = t.shards.set k s := by
      intro s
      have hne : (!(t.shards.set k s).isEmpty) = true := by
        rw [List.isEmpty_eq_false_iff.mpr fun hs => hnil (by simpa using hs)]
        rfl
      rw [all]
      dsimp only
      rw [hne, if_pos rfl]
    obtain ⟨R, hold, hnew, hR⟩ := flatMap_set Shard.entries hlt
    refine ⟨?_, R, ?_, fun e he => ?_, fun s hs hwords => ⟨⟨?_, Or.inr ?_, ?_⟩, ?_⟩⟩
    · rw [hof]
      exact h.shards _ (by rw [hall]; exact List.getElem_mem hlt)
    · rw [hof, entries, hall]
      exact hold
    · obtain ⟨j, hj, hne, hmem⟩ := hR e he
      rintro rfl
      exact hne ((h.shares j hj e hmem).symm.trans hk.symm)
    · rw [hset, hall']
      intro s' hs'
      rcases List.mem_or_eq_of_mem_set hs' with hs' | rfl
      · exact h.shards s' (by rwa [hall])
      · exact hs
    · rw [hset]
      dsimp only
      rw [List.length_set, hlen]
    · rw [hset]
      intro j hj e he
      dsimp only at hj he
      rw [List.length_set] at hj
      by_cases hjk : k = j
      · subst hjk
        rw [List.getElem_set_self] at he
        rcases hwords e he with heq | hmem
        · rw [heq, hk]
        · rw [hof] at hmem
          obtain ⟨e', he', heq⟩ := List.mem_map.mp hmem
          rw [← heq]
          exact h.shares k hj e' he'
      · rw [List.getElem_set_ne hjk] at he
        exact h.shares j hj e he
    · rw [hset, entries, hall']
      exact hnew s

end Share

/-! ## 4. One write or read -/

/-- **An index stands for a map.** -/
structure Holds (K : Keys) (t : Terms) (M : Counts) : Prop where
  good : t.Good K
  means : Means t.entries M

section One

variable {K : Keys} {t : Terms} {M : Counts} {w : List UInt8} {doc : DocId}

/-- A term a slot names is an entry. -/
theorem entry_of_names {hash : List UInt8 → Hash} {s : Shard} {e : Nat} {τ : Term}
    (hn : s.Names hash w e τ) : ∃ R, s.entries.Perm ((w, τ.postings) :: R) := by
  obtain ⟨A, B, hcut⟩ := List.append_of_mem hn.mem
  refine ⟨(A ++ B).map (Term.entry s.bytes), ?_⟩
  rw [Shard.entries, hcut]
  have hmiddle : (A ++ τ :: B).Perm (τ :: (A ++ B)) := List.perm_middle
  have hperm := hmiddle.map (Term.entry s.bytes)
  rwa [List.map_cons, Term.entry, hn.word] at hperm

/-- A word of no term is of no entry. -/
theorem not_mem_words {s : Shard} (h : ∀ τ ∈ s.terms, τ.word s.bytes ≠ w) :
    w ∉ s.entries.map (·.1) := by
  intro hmem
  obtain ⟨e, he, rfl⟩ := List.mem_map.mp hmem
  obtain ⟨τ, hτ, rfl⟩ := List.mem_map.mp he
  exact h τ hτ rfl

/-- **A word looked for**: its slot, or where it would go. -/
theorem look_spec {s : Shard} (h : s.Good K.hashOf) (w : List UInt8) :
    (∃ e τ, look s (K.hashOf w) w = .ok (.ok e) ∧ s.table.slots.isEmpty = false ∧
        s.Names K.hashOf w e τ) ∨
      ∃ e, look s (K.hashOf w) w = .ok (.error e) ∧ (∀ τ ∈ s.terms, τ.word s.bytes ≠ w) ∧
        (s.table.slots.length = 0 ∨ s.Vacant K.hashOf w e) := by
  unfold look
  cases hempty : s.table.slots.isEmpty with
  | true =>
    have h0 : s.table.slots.length = 0 := by
      rw [List.isEmpty_iff.mp hempty, List.length_nil]
    have hnone : s.terms = [] := by
      have hroom := fits_iff.mp h.kept.roomy
      exact List.length_eq_zero_iff.mp (by omega)
    refine Or.inr ⟨0, if_pos rfl, fun τ hτ => ?_, Or.inl h0⟩
    rw [hnone] at hτ
    cases hτ
  | false =>
    have hslots : s.table.slots.length ≠ 0 := fun h0 => by
      rw [List.length_eq_zero_iff.mp h0] at hempty
      cases hempty
    rw [if_neg Bool.false_ne_true]
    rcases Shard.find_spec (hashOf_low K) h hslots w with ⟨e, τ, hfind, hn⟩ | ⟨e, hfind, hv⟩
    · exact Or.inl ⟨e, τ, hfind, rfl, hn⟩
    · exact Or.inr ⟨e, hfind, hv.new, Or.inr hv⟩

/-- **`get` gives what the map has** of a word. -/
theorem get_spec (h : t.Holds K M) (w : List UInt8) :
    (t.get K w = .ok none ∧ (M w).entries = []) ∨
      ∃ p, t.get K w = .ok (some p) ∧ Tally p (M w) ∧ (M w).entries ≠ [] := by
  obtain ⟨hgood, R, hperm, hR, -⟩ := of_spec h.good w
  have hmeans := h.means.perm hperm
  unfold get
  dsimp only
  rcases look_spec hgood w with ⟨e, τ, hfind, hempty, hn⟩ | ⟨e, hfind, hnew, -⟩
  · obtain ⟨R', hR'⟩ := entry_of_names hn
    have hcons := (hmeans.perm (hR'.append_right R)).cons
    refine Or.inr ⟨τ.postings, ?_, hcons.1, hcons.2.1⟩
    rw [look, hempty, if_neg Bool.false_ne_true] at hfind
    rw [hempty, if_neg Bool.false_ne_true, hfind, ← hn.postings hgood]
    rfl
  · refine Or.inl ⟨?_, hmeans.rest w fun hmem => ?_⟩
    · cases hempty : (t.of (K.hashOf w).tag).table.slots.isEmpty with
      | true => rfl
      | false =>
        rw [look, hempty, if_neg Bool.false_ne_true] at hfind
        rw [if_neg Bool.false_ne_true, hfind]
        rfl
    · rw [List.map_append, List.mem_append] at hmem
      rcases hmem with hmem | hmem
      · exact not_mem_words hnew hmem
      · obtain ⟨e, he, heq⟩ := List.mem_map.mp hmem
        exact hR e he heq

theorem insert_ne_nil (m : OrdMap UInt32) (doc : DocId) (n : UInt32) :
    (m.insert doc n).entries ≠ [] := by
  intro hnil
  have hget := OrdMap.get_insert m doc doc n
  rw [if_pos rfl, OrdMap.get, hnil] at hget
  cases hget

/-- A map counted up. -/
def counted (M : Counts) (w : List UInt8) (doc : DocId) : Counts :=
  Function.update M w ((M w).insert doc (count (M w) doc + 1))

/-- A map with a document taken out. -/
def dropped (M : Counts) (w : List UInt8) (doc : DocId) : Counts :=
  Function.update M w ((M w).erase doc)

/-- **`bump` counts a document up** in a word, and says whether the word is new. -/
theorem bumpIn_spec (h : t.Holds K M) (hcount : count (M w) doc + 1 ≠ 0) :
    t.bumpIn K w doc = .error .full ∨
      ∃ t', t.bumpIn K w doc = .ok (t', decide ((M w).entries = [])) ∧
        t'.Holds K (counted M w doc) := by
  obtain ⟨hgood, R, hperm, hR, hset⟩ := of_spec h.good w
  have hmeans := h.means.perm hperm
  unfold bumpIn
  dsimp only
  rcases look_spec hgood w with ⟨e, τ, hfind, -, hn⟩ | ⟨e, hfind, hnew, hv⟩
  · right
    obtain ⟨R₀, hR₀⟩ := entry_of_names hn
    have hcons := (hmeans.perm (hR₀.append_right R)).cons
    obtain ⟨hgood', p, hp, R', hold, hnew⟩ := Shard.bump_spec hgood hn hcons.1 hcount
    obtain ⟨hgoodt, hpermt⟩ := hset _ hgood' fun e he => by
      rcases List.mem_cons.mp (hnew.mem_iff.mp he) with rfl | he
      · exact Or.inl rfl
      · exact Or.inr (List.mem_map_of_mem (hold.mem_iff.mpr (List.mem_cons_of_mem _ he)))
    refine ⟨_, ?_, hgoodt, ?_⟩
    · rw [hfind, decide_eq_false hcons.2.1]
      rfl
    · exact ((hmeans.perm (hold.append_right R)).rewrite hp (insert_ne_nil _ _ _)).perm
        (hpermt.trans (hnew.append_right R)).symm
  · have hword : w ∉ ((t.of (K.hashOf w).tag).entries ++ R).map (·.1) := by
      intro hmem
      rw [List.map_append, List.mem_append] at hmem
      rcases hmem with hmem | hmem
      · exact not_mem_words hnew hmem
      · obtain ⟨e, he, heq⟩ := List.mem_map.mp hmem
        exact hR e he heq
    have hnone := hmeans.rest w hword
    rw [hfind]
    dsimp only [bind, Except.bind]
    rcases Shard.add_spec (hashOf_low K) hgood doc hnew hv with
      hfull | ⟨s', hadd, hgood', hentries⟩
    · left
      rw [hfull]
    · right
      obtain ⟨hgoodt, hpermt⟩ := hset s' hgood' fun e he => by
        rcases List.mem_cons.mp (hentries.mem_iff.mp he) with rfl | he
        · exact Or.inl rfl
        · exact Or.inr (List.mem_map_of_mem he)
      refine ⟨_, ?_, hgoodt, ?_⟩
      · rw [hadd, decide_eq_true hnone]
        rfl
      · have hp : Tally ⟨[doc], [1], 1⟩ ((M w).insert doc (count (M w) doc + 1)) := by
          have hM : M w = OrdMap.empty := OrdMap.ext hnone
          rw [hM]
          exact tally_one.mpr ⟨rfl, by decide⟩
        exact (hmeans.add hword hp (insert_ne_nil _ _ _)).perm
          (hpermt.trans (hentries.append_right R)).symm

/-- **`drop_doc` takes a document out** of a word's, and says whether it was the word's last. -/
theorem dropDoc_spec (h : t.Holds K M) :
    ∃ t', t.dropDoc K w doc =
        .ok (t', decide ((M w).entries ≠ [] ∧ ((M w).erase doc).entries = [])) ∧
      t'.Holds K (dropped M w doc) := by
  obtain ⟨hgood, R, hperm, hR, hset⟩ := of_spec h.good w
  have hmeans := h.means.perm hperm
  unfold dropDoc
  dsimp only
  rcases look_spec hgood w with ⟨e, τ, hfind, hempty, hn⟩ | ⟨e, hfind, hnew, hv⟩
  · obtain ⟨R₀, hR₀⟩ := entry_of_names hn
    have hcons := (hmeans.perm (hR₀.append_right R)).cons
    rw [look, hempty, if_neg Bool.false_ne_true] at hfind
    rw [hempty, if_neg Bool.false_ne_true]
    obtain ⟨s', gone, hdrop, hgood', hcases⟩ := Shard.dropDoc_spec hgood hn hcons.1 doc
    rcases hcases with ⟨rfl, hne, p, hp, R', hold, hnew⟩ | ⟨rfl, hnil, hrest⟩
    · obtain ⟨hgoodt, hpermt⟩ := hset s' hgood' fun e he => by
        rcases List.mem_cons.mp (hnew.mem_iff.mp he) with rfl | he
        · exact Or.inl rfl
        · exact Or.inr (List.mem_map_of_mem (hold.mem_iff.mpr (List.mem_cons_of_mem _ he)))
      refine ⟨_, ?_, hgoodt, ?_⟩
      · rw [hfind, decide_eq_false fun hboth => hne hboth.2]
        dsimp only [bind, Except.bind]
        rw [hdrop]
        rfl
      · exact ((hmeans.perm (hold.append_right R)).rewrite hp hne).perm
          (hpermt.trans (hnew.append_right R)).symm
    · obtain ⟨hgoodt, hpermt⟩ := hset s' hgood' fun e he =>
        Or.inr (List.mem_map_of_mem (hrest.mem_iff.mpr (List.mem_cons_of_mem _ he)))
      refine ⟨_, ?_, hgoodt, ?_⟩
      · rw [hfind, decide_eq_true ⟨hcons.2.1, hnil⟩]
        dsimp only [bind, Except.bind]
        rw [hdrop]
        rfl
      · exact ((hmeans.perm (hrest.append_right R)).drop hnil).perm hpermt.symm
  · have hnone : (M w).entries = [] := by
      refine hmeans.rest w fun hmem => ?_
      rw [List.map_append, List.mem_append] at hmem
      rcases hmem with hmem | hmem
      · exact not_mem_words hnew hmem
      · obtain ⟨e, he, heq⟩ := List.mem_map.mp hmem
        exact hR e he heq
    have hsame : dropped M w doc = M := by
      have herase : (M w).erase doc = M w :=
        Shard.erase_of_get_none (by rw [OrdMap.get, hnone]; rfl)
      rw [dropped, herase, Function.update_eq_self]
    refine ⟨t, ?_, hsame.symm ▸ h⟩
    rw [decide_eq_false fun hboth => hboth.1 hnone]
    cases hempty : (t.of (K.hashOf w).tag).table.slots.isEmpty with
    | true => rfl
    | false =>
      rw [look, hempty, if_neg Bool.false_ne_true] at hfind
      rw [if_neg Bool.false_ne_true, hfind]
      rfl

end One

end Terms

/-! ## 5. The split -/

/-- **Shards that share words**, each word in the shard of its hash's top byte. -/
structure Shares (K : Keys) (S : List Shard) : Prop where
  length : S.length = SHARDS
  good : ∀ s ∈ S, s.Good K.hashOf
  packed : ∀ s ∈ S, s.free = [] ∧ s.spare = []
  shares : ∀ (k : Nat) (h : k < S.length), ∀ e ∈ S[k].entries, shareOf (K.hashOf e.1).tag = k

section Split

variable {K : Keys} {one : Shard} {S : List Shard} {τ : Term}

/-- **A term of the one shard behind a share's.** -/
theorem takeIn_spec (hτ : τ ∈ one.terms) (at_ : Nat) (bytes : List UInt8) {s : Shard}
    (h : s.Good K.hashOf) (hpacked : s.free = [] ∧ s.spare = [])
    (hmost : s.terms.length + 1 ≤ MOST) :
    ∃ u i, takeIn one { s with bytes := bytes } τ.place at_ = (u, i) ∧ u.table = s.table ∧
      u.bytes = bytes ∧ u.dead = s.dead ∧ u.free = [] ∧ u.spare = [] ∧
      u.terms.Perm (⟨⟨i, τ.place.list⟩, at_, τ.postings⟩ :: s.terms) ∧
      Unused One.live u.ones u.free ∧ Unused TermList.live u.lists u.spare ∧
      (∀ l ∈ u.lists, l.live = false → l.tfs = []) ∧
      u.ones.length ≤ MOST ∧ u.lists.length ≤ MOST := by
  have hones := h.ones.length_placed One.isSome_term
  have hlists := h.lists.length_placed TermList.isSome_term
  rw [hpacked.1, List.length_nil, Nat.add_zero] at hones
  rw [hpacked.2, List.length_nil, Nat.add_zero] at hlists
  rw [Shard.terms, List.length_append] at hmost
  unfold takeIn
  rcases Shard.mem_terms.mp hτ with ⟨hlist, -, hterm⟩ | ⟨hlist, -, hterm⟩
  · obtain ⟨hlive, hτ'⟩ := One.of_term hterm
    have hpost : τ.postings = ⟨[(one.one τ.place.i).doc], [(one.one τ.place.i).tf],
      (one.one τ.place.i).tf⟩ := congrArg Term.postings hτ'
    have hlive' : One.live { one.one τ.place.i with at_ := at_ } = true := hlive
    rw [hlist, if_neg Bool.false_ne_true]
    have hterms := Shard.terms_push_one (s := { s with bytes := bytes })
      { s with bytes := bytes, ones := s.ones ++ [{ one.one τ.place.i with at_ := at_ }] }
      { one.one τ.place.i with at_ := at_ } rfl rfl
    rw [One.term_live hlive', Option.toList_some, List.singleton_append, ← hpost] at hterms
    refine ⟨_, _, rfl, rfl, rfl, rfl, hpacked.1, hpacked.2, hterms, h.ones.concat hlive', h.lists,
      h.emptied, ?_, h.places.2⟩
    dsimp only
    rw [List.length_append, List.length_singleton]
    omega
  · obtain ⟨hlive, hτ'⟩ := TermList.of_term hterm
    have hpost : τ.postings = (one.list τ.place.i).view := congrArg Term.postings hτ'
    have hlive' : TermList.live { one.list τ.place.i with at_ := at_ } = true := hlive
    rw [hlist, if_pos rfl]
    have hterms := Shard.terms_push_list (s := { s with bytes := bytes })
      { s with bytes := bytes, lists := s.lists ++ [{ one.list τ.place.i with at_ := at_ }] }
      { one.list τ.place.i with at_ := at_ } rfl rfl
    rw [TermList.term_live hlive', Option.toList_some, List.singleton_append] at hterms
    refine ⟨_, _, rfl, rfl, rfl, rfl, hpacked.1, hpacked.2, ?_, h.ones, h.lists.concat hlive',
      fun l hl hdead => ?_, h.places.1, ?_⟩
    · rw [hpost]
      exact hterms
    · rcases List.mem_append.mp hl with hl | hl
      · exact h.emptied l hl hdead
      · rw [List.mem_singleton.mp hl, hlive'] at hdead
        cases hdead
    · dsimp only
      rw [List.length_append, List.length_singleton]
      omega

/-- **A share's room** for a word more. -/
theorem roomFor_spec {s : Shard} (h : s.Good K.hashOf) :
    ∃ t, roomFor s = .ok { s with table := t } ∧ ({ s with table := t } : Shard).Good K.hashOf ∧
      fits (s.terms.length + 1) t.slots.length = true := by
  unfold roomFor
  rw [h.len_eq]
  by_cases hfits : fits (s.terms.length + 1) s.table.slots.length = true
  · exact ⟨s.table, if_pos hfits, h, hfits⟩
  · obtain ⟨t, hresize, hgood, -, hfits'⟩ := Shard.twice_spec h hfits
    exact ⟨t, by rw [if_neg hfits, hresize], hgood, hfits'⟩

/-- **A term put in its share.** -/
theorem spread_spec (hone : one.Good K.hashOf) (hτ : τ ∈ one.terms) (h : Shares K S)
    (hnew : τ.word one.bytes ∉ (S.flatMap Shard.entries).map (·.1)) :
    spread one S (τ.cell K.hashOf one.bytes) = .error .full ∨
      ∃ S', spread one S (τ.cell K.hashOf one.bytes) = .ok S' ∧ Shares K S' ∧
        (S'.flatMap Shard.entries).Perm (τ.entry one.bytes :: S.flatMap Shard.entries) := by
  have hplace := hone.kept.placed τ hτ
  obtain ⟨w, hw⟩ : ∃ w, w = τ.word one.bytes := ⟨_, rfl⟩
  obtain ⟨k, hk⟩ : ∃ k, k = shareOf (K.hashOf w).tag := ⟨_, rfl⟩
  have hlt : k < S.length := by rw [h.length, hk]; exact shareOf_lt _
  have hmem : S[k] ∈ S := List.getElem_mem hlt
  have hword : (wordAt one.bytes (one.at_ τ.place)).1 = w := by
    rw [Shard.at_of_mem hτ, hw]
    rfl
  have hother : ∀ σ ∈ S[k].terms, σ.word S[k].bytes ≠ w := by
    intro σ hσ heq
    refine hnew ?_
    rw [← hw, ← heq]
    exact List.mem_map.mpr ⟨_, List.mem_flatMap.mpr
      ⟨S[k], hmem, List.mem_map_of_mem (f := Term.entry S[k].bytes) hσ⟩, rfl⟩
  have hcell : τ.cell K.hashOf one.bytes = (slot (K.hashOf w).tag τ.place, (K.hashOf w).h2) := by
    rw [Term.cell, hw]
  rw [← hw] at hnew
  rw [hcell]
  unfold spread
  dsimp only
  rw [if_neg (slot_ne_zero hplace), tagOf_slot hplace, placeOf_slot hplace, hword, ← hk,
    List.getD_eq_getElem _ _ hlt]
  obtain ⟨t, hroom, hgood, hfits⟩ := roomFor_spec (h.good _ hmem)
  rw [hroom]
  dsimp only [bind, Except.bind, Shard.putWord]
  by_cases hfull : S[k].bytes.length + w.length + 5 ≤ 2 ^ 32 - 1
  · right
    rw [if_pos hfull]
    dsimp only
    have hsmall : (S[k].bytes ++ stored w).length < 2 ^ 32 := by
      have hstored := (stored_length (w := w) (by omega)).2
      rw [List.length_append]
      omega
    have hmost := hgood.room hother hsmall
    have hpacked : S[k].free = [] ∧ S[k].spare = [] := h.packed _ hmem
    obtain ⟨u, i, htake, htable, hbytes, hdead, hfree, hspare, hterms, hones, hlists, hemptied,
      hplaces⟩ := takeIn_spec hτ (u32 S[k].bytes.length) (S[k].bytes ++ stored w) hgood hpacked
        hmost
    have htallied := hone.kept.tallied τ hτ
    obtain ⟨t', hput, hgood', hentries⟩ := Shard.place_spec (hashOf_low K) hgood hother hfits hfull
      hterms hbytes hdead (u32_of_lt (h.good _ hmem).kept.small) htallied.1 htallied.2 hones hlists
      hemptied hplaces
    obtain ⟨R, hold, hset, hR⟩ := flatMap_set Shard.entries hlt
    refine ⟨S.set k { u with table := t' }, ?_, ⟨?_, ?_, ?_, ?_⟩, ?_⟩
    · rw [htake]
      dsimp only
      rw [htable, hput]
      rfl
    · rw [List.length_set, h.length]
    · intro s hs
      rcases List.mem_or_eq_of_mem_set hs with hs | rfl
      · exact h.good s hs
      · exact hgood'
    · intro s hs
      rcases List.mem_or_eq_of_mem_set hs with hs | rfl
      · exact h.packed s hs
      · exact ⟨hfree, hspare⟩
    · intro j hj e he
      rw [List.length_set] at hj
      by_cases hjk : k = j
      · subst hjk
        rw [List.getElem_set_self] at he
        rcases List.mem_cons.mp (hentries.mem_iff.mp he) with rfl | he
        · exact hk.symm
        · exact h.shares k hj e he
      · rw [List.getElem_set_ne hjk] at he
        exact h.shares j hj e he
    · have hentry : τ.entry one.bytes = (w, τ.postings) := by rw [Term.entry, hw]
      rw [hentry]
      exact (hset _).trans ((hentries.append_right R).trans (hold.symm.cons _))
  · left
    rw [if_neg hfull]

/-- **Every term put in its share.** -/
theorem spread_run (hone : one.Good K.hashOf) : ∀ (cells : List (UInt64 × UInt8)) (Q : List Term)
    (S : List Shard), (cells.filter fun vc => vc.1 ≠ 0).Perm (Q.map (Term.cell K.hashOf one.bytes)) →
    (∀ τ ∈ Q, τ ∈ one.terms) → Shares K S →
    ((Q.map (Term.entry one.bytes) ++ S.flatMap Shard.entries).map (·.1)).Nodup →
    cells.foldlM (spread one) S = .error .full ∨ ∃ S', cells.foldlM (spread one) S = .ok S' ∧
      Shares K S' ∧ (S'.flatMap Shard.entries).Perm
        (Q.map (Term.entry one.bytes) ++ S.flatMap Shard.entries)
  | [], Q, S, hcells, _, h, _ => by
    obtain rfl : Q = [] := List.map_eq_nil_iff.mp hcells.symm.eq_nil
    exact Or.inr ⟨S, rfl, h, List.Perm.refl _⟩
  | vc :: cells, Q, S, hcells, hQ, h, hnodup => by
    rw [List.foldlM_cons]
    by_cases hv : vc.1 = 0
    · rw [List.filter_cons_of_neg (by simpa using hv)] at hcells
      have hskip : spread one S vc = .ok S := if_pos hv
      rw [hskip]
      exact spread_run hone cells Q S hcells hQ h hnodup
    · rw [List.filter_cons_of_pos (by simpa using hv)] at hcells
      -- the slot's term is one of those left
      obtain ⟨τ, hτ, hcell⟩ := List.mem_map.mp (hcells.mem_iff.mp List.mem_cons_self)
      obtain ⟨A, B, hcut⟩ := List.append_of_mem hτ
      have hperm : Q.Perm (τ :: (A ++ B)) := hcut ▸ List.perm_middle
      have hrest : (cells.filter fun vc => vc.1 ≠ 0).Perm
          ((A ++ B).map (Term.cell K.hashOf one.bytes)) := by
        have hall := hcells.trans (hperm.map _)
        rw [List.map_cons, hcell] at hall
        exact hall.cons_inv
      have hentries := (hperm.map (Term.entry one.bytes)).append_right (S.flatMap Shard.entries)
      rw [List.map_cons, List.cons_append] at hentries
      have hwords := (hentries.map (·.1)).nodup_iff.mp hnodup
      rw [List.map_cons, List.nodup_cons, List.map_append, List.mem_append, not_or] at hwords
      rw [← hcell]
      rcases spread_spec hone (hQ τ hτ) h hwords.1.2 with hfull | ⟨S', hspread, hS', hperm'⟩
      · rw [hfull]
        exact Or.inl rfl
      · rw [hspread]
        have hmove : ((A ++ B).map (Term.entry one.bytes) ++ S'.flatMap Shard.entries).Perm
            (Q.map (Term.entry one.bytes) ++ S.flatMap Shard.entries) :=
          (hperm'.append_left _).trans (List.perm_middle.trans hentries.symm)
        rcases spread_run hone cells (A ++ B) S' hrest
          (fun σ hσ => hQ σ (hperm.mem_iff.mpr (List.mem_cons_of_mem _ hσ))) hS'
          ((hmove.map (·.1)).nodup_iff.mpr hnodup) with hfull | ⟨S'', hrun, hS'', hperm''⟩
        · exact Or.inl hfull
        · exact Or.inr ⟨S'', hrun, hS'', hperm''.trans hmove⟩

/-- A shard of no words. -/
theorem good_empty (K : Keys) {n : Nat} (hn : n = 0 ∨ Size n) :
    ({ Shard.default with table := .free n } : Shard).Good K.hashOf where
  kept := {
    stored := fun τ hτ => (by cases hτ)
    words := List.nodup_nil
    arena := rfl
    small := Nat.two_pow_pos 32
    tallied := fun τ hτ => (by cases hτ)
    placed := fun τ hτ => (by cases hτ)
    holds := Table.holds_free
    slots := by
      rw [Table.free, List.length_replicate]
      exact hn
    roomy := fits_iff.mpr (Nat.zero_mul 4 ▸ Nat.zero_le _) }
  ones := ⟨List.nodup_nil, fun i => iff_of_false List.not_mem_nil fun h => nomatch h.1⟩
  lists := ⟨List.nodup_nil, fun i => iff_of_false List.not_mem_nil fun h => nomatch h.1⟩
  emptied l hl := by cases hl
  places := ⟨Nat.zero_le _, Nat.zero_le _⟩

/-- The shares before any word. -/
theorem shares_empty (K : Keys) {words : Nat} (hwords : words < 2 ^ 36) :
    Shares K (List.replicate SHARDS (Shard.withRoom words)) ∧
      (List.replicate SHARDS (Shard.withRoom words)).flatMap Shard.entries = [] := by
  have hslots : slotsFor words = 0 ∨ Size (slotsFor words) := by
    by_cases h0 : words = 0
    · exact Or.inl (by rw [h0]; rfl)
    · exact Or.inr (slotsFor_spec h0 hwords).1
  have hgood : (Shard.withRoom words).Good K.hashOf := good_empty K hslots
  refine ⟨⟨List.length_replicate, fun s hs => ?_, fun s hs => ?_, fun k hk e he => ?_⟩, ?_⟩
  · rw [List.eq_of_mem_replicate hs]
    exact hgood
  · rw [List.eq_of_mem_replicate hs]
    exact ⟨rfl, rfl⟩
  · rw [List.getElem_replicate] at he
    cases he
  · rw [List.flatMap_eq_nil_iff]
    intro s hs
    rw [List.eq_of_mem_replicate hs]
    rfl

end Split

namespace Terms

section Split

variable {K : Keys} {t : Terms} {M : Counts}

/-- **`split` changes nothing seen.** -/
theorem split_spec (h : t.Holds K M) (hnil : t.shards = []) :
    t.split = .error .full ∨ ∃ t', t.split = .ok t' ∧ t'.Holds K M := by
  have hall : t.all = [t.one] := by rw [all, hnil]; rfl
  have hone : t.one.Good K.hashOf := h.good.shards _ (by rw [hall]; exact List.mem_cons_self)
  have hentries : t.entries = t.one.terms.map (Term.entry t.one.bytes) := by
    rw [entries, hall, List.flatMap_singleton]
    rfl
  have hmeans := h.means
  rw [hentries] at hmeans
  have hfew : 2 * (t.one.len / SHARDS) < 2 ^ 36 := by
    have hmost := hone.kept.length_le
    have hle : MOST < 2 ^ 32 := by decide
    rw [hone.len_eq, SHARDS]
    omega
  obtain ⟨hshares, hempty⟩ := shares_empty K hfew
  have hrun := spread_run hone _ t.one.terms _ hone.kept.holds.toKeeps.cells (fun τ hτ => hτ) hshares
    (by rw [hempty, List.append_nil]; exact hmeans.nodup)
  unfold split
  dsimp only
  rcases hrun with hfull | ⟨S, hS, hgood, hperm⟩
  · left
    rw [hfull]
    rfl
  · right
    rw [hempty, List.append_nil] at hperm
    refine ⟨⟨.default, S⟩, by rw [hS]; rfl, ?_⟩
    have hne : (!S.isEmpty) = true := by
      cases S with
      | nil => exact absurd hgood.length (by decide)
      | cons s l => rfl
    have hall' : (⟨.default, S⟩ : Terms).all = S := by
      rw [all]
      dsimp only
      rw [hne, if_pos rfl]
    refine ⟨⟨?_, Or.inr hgood.length, hgood.shares⟩, ?_⟩
    · rw [hall']
      exact hgood.good
    · rw [entries, hall']
      exact hmeans.perm hperm.symm

/-- **`bump`**, the split and all. -/
theorem bump_spec (h : t.Holds K M) (w : List UInt8) (doc : DocId)
    (hcount : count (M w) doc + 1 ≠ 0) :
    t.bump K w doc = .error .full ∨
      ∃ t', t.bump K w doc = .ok (t', decide ((M w).entries = [])) ∧
        t'.Holds K (counted M w doc) := by
  have hroom : t.room K = .error .full ∨ ∃ t', t.room K = .ok t' ∧ t'.Holds K M := by
    unfold room
    split
    next hfull => exact split_spec h (List.isEmpty_iff.mp hfull.2.1)
    next => exact Or.inr ⟨t, rfl, h⟩
  unfold bump
  rcases hroom with hfull | ⟨t', ht', h'⟩
  · left
    rw [hfull]
    rfl
  · rw [ht']
    exact bumpIn_spec h' hcount

/-- What each makes of a list's items. -/
theorem mapM_forall₂ {α β : Type} {f : α → Except Stop β} {r : α → β → Prop} :
    ∀ l : List α, (∀ a ∈ l, ∃ b, f a = .ok b ∧ r a b) →
      ∃ l', l.mapM f = .ok l' ∧ List.Forall₂ r l l'
  | [], _ => ⟨[], rfl, .nil⟩
  | a :: l, h => by
    obtain ⟨b, hb, hr⟩ := h a List.mem_cons_self
    obtain ⟨l', hl', hrs⟩ := mapM_forall₂ l fun a ha => h a (List.mem_cons_of_mem _ ha)
    refine ⟨b :: l', ?_, .cons hr hrs⟩
    rw [List.mapM_cons, hb]
    dsimp only [bind, Except.bind]
    rw [hl']
    rfl

/-- **`shrink_to_fit` changes nothing seen.** -/
theorem shrinkToFit_spec (h : t.Holds K M) :
    ∃ t', t.shrinkToFit = .ok t' ∧ t'.Holds K M := by
  unfold shrinkToFit
  cases hempty : t.shards.isEmpty with
  | true =>
    have hall : t.all = [t.one] := by rw [all, hempty]; rfl
    obtain ⟨s, hs, hgood, hsame⟩ := Shard.shrink_spec
      (h.good.shards t.one (by rw [hall]; exact List.mem_cons_self))
    have hall' : ({ t with one := s } : Terms).all = [s] := by
      rw [all]
      dsimp only
      rw [hempty]
      rfl
    refine ⟨{ t with one := s }, ?_, ⟨?_, h.good.many, h.good.shares⟩, ?_⟩
    · rw [hs]
      rfl
    · rw [hall']
      intro s' hs'
      rwa [List.mem_singleton.mp hs']
    · have hmeans := h.means
      rw [entries, hall, List.flatMap_singleton] at hmeans
      rwa [entries, hall', List.flatMap_singleton, hsame]
  | false =>
    have hall : t.all = t.shards := by rw [all, hempty]; rfl
    obtain ⟨S, hS, hr⟩ := mapM_forall₂ (f := Shard.shrink)
      (r := fun s s' => s'.Good K.hashOf ∧ s'.entries = s.entries) t.shards fun s hs =>
        Shard.shrink_spec (h.good.shards s (by rwa [hall]))
    have hempty' : S.isEmpty = false := by
      cases S with
      | nil =>
        have hlen := hr.length_eq
        rw [List.length_nil] at hlen
        rw [List.length_eq_zero_iff.mp hlen] at hempty
        cases hempty
      | cons s l => rfl
    have hall' : ({ t with shards := S } : Terms).all = S := by
      rw [all]
      dsimp only
      rw [hempty']
      rfl
    refine ⟨{ t with shards := S }, ?_, ⟨?_, ?_, ?_⟩, ?_⟩
    · rw [hS]
      rfl
    · rw [hall']
      intro s' hs'
      obtain ⟨s, -, hgood, -⟩ := mem_of_forall₂ hr hs'
      exact hgood
    · refine Or.inr (hr.length_eq.symm.trans (h.good.many.resolve_left fun hnil => ?_))
      rw [hnil] at hempty
      cases hempty
    · intro k hk e he
      have hlt : k < t.shards.length := hr.length_eq ▸ hk
      have hsame : S[k].entries = t.shards[k].entries :=
        ((List.forall₂_iff_get.mp hr).2 k hlt hk).2
      exact h.good.shares k hlt e (hsame ▸ he)
    · have hmeans := h.means
      rw [entries, hall, List.flatMap_def] at hmeans
      rwa [entries, hall', List.flatMap_def, map_eq_of_forall₂ hr fun _ _ h => h.2]

end Split

end Terms

/-! ## 6. What is counted over all the words -/

namespace Shard

section Counting

variable {hash : List UInt8 → Hash} {s : Shard}

/-- The bytes of the words held, as they are checked. -/
def live (s : Shard) : Nat :=
  (((s.ones.filter One.live).map One.at_ ++ (s.lists.filter TermList.live).map TermList.at_).map
    fun at_ => (wordAt s.bytes at_).2 - at_).sum

/-- What the terms say is what their places do. -/
theorem map_terms {γ : Type} (g : Term → γ) (r : Nat → γ) (h : ∀ τ, g τ = r τ.at_) (s : Shard) :
    ((s.ones.filter One.live).map One.at_ ++ (s.lists.filter TermList.live).map TermList.at_).map r =
      s.terms.map g := by
  rw [terms, List.map_append, List.map_append, List.map_map, List.map_map]
  congr 1
  · exact (map_placedFrom (fun a i ha => One.term_dead ha i)
      (fun a i ha => ⟨_, One.term_live ha i, h _⟩) s.ones 0).symm
  · exact (map_placedFrom (fun a i ha => TermList.term_dead ha i)
      (fun a i ha => ⟨_, TermList.term_live ha i, h _⟩) s.lists 0).symm

/-- **The living bytes and the dead are the arena.** -/
theorem live_add_dead (h : s.Good hash) : s.live + s.dead = s.bytes.length := by
  have hlive : s.live = (s.terms.map fun τ => (stored (τ.word s.bytes)).length).sum := by
    unfold live
    rw [map_terms (fun τ => (wordAt s.bytes τ.at_).2 - τ.at_) _ (fun _ => rfl)]
    congr 1
    refine List.map_congr_left fun τ hτ => ?_
    rw [wordAt_stored (h.kept.stored τ hτ), Nat.add_sub_cancel_left]
  rw [hlive]
  exact h.kept.arena

/-- The words of the living places are the entries'. -/
theorem words_eq (s : Shard) :
    (((s.ones.filter One.live).map One.at_ ++
      (s.lists.filter TermList.live).map TermList.at_).map fun at_ => (wordAt s.bytes at_).1) =
      s.entries.map (·.1) := by
  rw [map_terms (Term.word s.bytes) _ (fun _ => rfl), entries, List.map_map]
  rfl

/-- **The documents of a shard's words.** -/
theorem postings_eq (h : s.Good hash) :
    s.ones.length - s.free.length + (s.lists.map (·.docs.length)).sum =
      (s.entries.map fun e => e.2.docs.length).sum := by
  have hlen := h.ones.length_placed One.isSome_term
  have hones : ((placed One.term s.ones).map fun τ => τ.postings.docs.length).sum =
      (placed One.term s.ones).length := by
    have hmap := map_placedFrom (f := One.term) (g := fun τ => τ.postings.docs.length)
      (r := fun _ => 1) (fun a i ha => One.term_dead ha i)
      (fun a i ha => ⟨_, One.term_live ha i, rfl⟩) s.ones 0
    have hcount := congrArg List.length hmap
    rw [List.length_map, List.length_map] at hcount
    rw [placed, hmap, hcount, List.map_const', List.sum_replicate_nat, Nat.mul_one]
  have hlists : ((placed TermList.term s.lists).map fun τ => τ.postings.docs.length).sum =
      (s.lists.map (·.docs.length)).sum := by
    have hmap := map_placedFrom (f := TermList.term) (g := fun τ => τ.postings.docs.length)
      (r := fun l => l.docs.length) (fun a i ha => TermList.term_dead ha i)
      (fun a i ha => ⟨_, TermList.term_live ha i, rfl⟩) s.lists 0
    rw [placed, hmap]
    induction s.lists with
    | nil => rfl
    | cons l ls ih =>
      rw [List.map_cons, List.sum_cons, ← ih]
      by_cases hl : l.live = true
      · rw [List.filter_cons_of_pos hl, List.map_cons, List.sum_cons]
      · have hnil : l.docs = [] := by simpa [TermList.live] using hl
        rw [List.filter_cons_of_neg hl, hnil, List.length_nil, Nat.zero_add]
  have hsplit : (s.entries.map fun e => e.2.docs.length) =
      s.terms.map fun τ => τ.postings.docs.length := by
    rw [entries, List.map_map]
    rfl
  rw [hsplit, terms, List.map_append, List.sum_append, hones, hlists]
  omega

end Counting

end Shard

namespace Terms

section Counting

variable {K : Keys} {t : Terms} {M : Counts}

/-- **`words` are the words held** but those marked. -/
theorem words_eq (t : Terms) :
    t.words = (t.entries.map (·.1)).filter fun w => w.head? != some 94 := by
  rw [words, entries, List.map_flatMap, List.filter_flatMap]
  congr 1
  funext s
  rw [Shard.words_eq]

/-- **`len` counts the words.** -/
theorem len_eq (h : t.Good K) : t.len = t.entries.length := by
  rw [len, entries, List.length_flatMap]
  congr 1
  refine List.map_congr_left fun s hs => ?_
  rw [(h.shards s hs).len_eq, Shard.entries, List.length_map]

/-- **`postings` counts the documents of the words.** -/
theorem postings_eq (h : t.Good K) :
    t.postings = (t.entries.map fun e => e.2.docs.length).sum := by
  have hshards := h.shards
  rw [postings, entries]
  revert hshards
  induction t.all with
  | nil => exact fun _ => rfl
  | cons s l ih =>
    intro hshards
    rw [List.map_cons, List.sum_cons, List.flatMap_cons, List.map_append, List.sum_append,
      Shard.postings_eq (hshards s List.mem_cons_self),
      ih fun s' hs' => hshards s' (List.mem_cons_of_mem _ hs')]

end Counting

end Terms

/-! ## 7. The runs -/

/-- A write of an index. -/
inductive Step where
  | bump (w : List UInt8) (doc : DocId)
  | dropDoc (w : List UInt8) (doc : DocId)
  | shrinkToFit

/-- One write, and its answer. -/
def Terms.step (t : Terms) (K : Keys) : Step → Except Stop (Terms × Bool)
  | .bump w doc => t.bump K w doc
  | .dropDoc w doc => t.dropDoc K w doc
  | .shrinkToFit => t.shrinkToFit.map fun t => (t, false)

/-- Some writes, and the answer of each. -/
def Terms.run (t : Terms) (K : Keys) : List Step → Except Stop (Terms × List Bool)
  | [] => .ok (t, [])
  | step :: steps => do
    let (t, first) ← t.step K step
    let (t, rest) ← t.run K steps
    pure (t, first :: rest)

/-- **What an index is for**: how often each document is counted in each word. -/
abbrev Tallies := List UInt8 → OrdMap Nat

namespace Tallies

/-- Nothing counted. -/
def empty : Tallies := fun _ => OrdMap.empty

/-- How often a document is counted in a word. -/
def count (N : Tallies) (w : List UInt8) (doc : DocId) : Nat := ((N w).get doc).getD 0

/-- A write's effect. -/
def after (N : Tallies) : Step → Tallies
  | .bump w doc => Function.update N w ((N w).insert doc (N.count w doc + 1))
  | .dropDoc w doc => Function.update N w ((N w).erase doc)
  | .shrinkToFit => N

/-- What a write answers: that a bumped word is new, that a dropped one left. -/
def told (N : Tallies) : Step → Bool
  | .bump w _ => decide ((N w).entries = [])
  | .dropDoc w doc => decide ((N w).entries ≠ [] ∧ ((N w).erase doc).entries = [])
  | .shrinkToFit => false

/-- No document is counted 2^32 times. -/
def Fits (N : Tallies) : Step → Prop
  | .bump w doc => N.count w doc + 1 < 2 ^ 32
  | _ => True

/-- Some writes' effect. -/
def afterAll (N : Tallies) : List Step → Tallies
  | [] => N
  | step :: steps => (N.after step).afterAll steps

/-- What some writes answer. -/
def toldAll (N : Tallies) : List Step → List Bool
  | [] => []
  | step :: steps => N.told step :: (N.after step).toldAll steps

/-- No write of a run counts a document 2^32 times. -/
def FitsAll (N : Tallies) : List Step → Prop
  | [] => True
  | step :: steps => N.Fits step ∧ (N.after step).FitsAll steps

end Tallies

/-- The counts of a map as numbers. -/
def tallies (M : Counts) : Tallies := fun w => (M w).map fun _ n => n.toNat

section Runs

variable {K : Keys} {t : Terms} {M : Counts} {w : List UInt8} {doc : DocId}

theorem entries_tallies (M : Counts) (w : List UInt8) :
    (tallies M w).entries = [] ↔ (M w).entries = [] := List.map_eq_nil_iff

theorem count_tallies (M : Counts) (w : List UInt8) (doc : DocId) :
    (tallies M).count w doc = (count (M w) doc).toNat := by
  rw [Tallies.count, tallies, OrdMap.get_map, count]
  cases (M w).get doc <;> rfl

/-- A map changed at a word is one of numbers changed there. -/
theorem tallies_update {m : OrdMap UInt32} :
    tallies (Function.update M w m) = Function.update (tallies M) w (m.map fun _ n => n.toNat) := by
  funext v
  by_cases hv : v = w
  · rw [hv, Function.update_self, tallies, Function.update_self]
  · rw [Function.update_of_ne hv, tallies, Function.update_of_ne hv, tallies]

theorem tallies_counted (hfits : (tallies M).Fits (.bump w doc)) :
    count (M w) doc + 1 ≠ 0 ∧
      tallies (Terms.counted M w doc) = (tallies M).after (.bump w doc) := by
  have hlt : (count (M w) doc).toNat + 1 < 2 ^ 32 := by
    rw [← count_tallies]
    exact hfits
  have hnat : (count (M w) doc + 1).toNat = (count (M w) doc).toNat + 1 := by
    rw [UInt32.toNat_add]
    exact Nat.mod_eq_of_lt hlt
  constructor
  · intro h0
    rw [h0] at hnat
    exact absurd hnat.symm (Nat.succ_ne_zero _)
  · rw [Terms.counted, tallies_update, Tallies.after, count_tallies]
    congr 1
    refine OrdMap.ext_get fun k => ?_
    rw [OrdMap.get_map, OrdMap.get_insert, OrdMap.get_insert, tallies, OrdMap.get_map]
    by_cases hk : k = doc
    · rw [if_pos hk, if_pos hk, Option.map_some, hnat]
    · rw [if_neg hk, if_neg hk]

theorem tallies_dropped :
    tallies (Terms.dropped M w doc) = (tallies M).after (.dropDoc w doc) := by
  rw [Terms.dropped, tallies_update, Tallies.after]
  congr 1
  refine OrdMap.ext_get fun k => ?_
  rw [OrdMap.get_map, OrdMap.get_erase, OrdMap.get_erase, tallies, OrdMap.get_map]
  by_cases hk : k = doc
  · rw [if_pos hk, if_pos hk]
    rfl
  · rw [if_neg hk, if_neg hk]

theorem erase_tallies (M : Counts) (w : List UInt8) (doc : DocId) :
    ((tallies M w).erase doc).entries = [] ↔ ((M w).erase doc).entries = [] := by
  have hsame : (tallies M w).erase doc = ((M w).erase doc).map fun _ n => n.toNat := by
    refine OrdMap.ext_get fun k => ?_
    rw [OrdMap.get_erase, OrdMap.get_map, OrdMap.get_erase, tallies, OrdMap.get_map]
    by_cases hk : k = doc
    · rw [if_pos hk, if_pos hk]
      rfl
    · rw [if_neg hk, if_neg hk]
  rw [hsame]
  exact List.map_eq_nil_iff

/-- **A write does to the index what it does to the map**, and answers as it does. -/
theorem step_spec (h : t.Holds K M) {step : Step} (hfits : (tallies M).Fits step) :
    t.step K step = .error .full ∨ ∃ t' M', t.step K step = .ok (t', (tallies M).told step) ∧
      t'.Holds K M' ∧ tallies M' = (tallies M).after step := by
  cases step with
  | bump w doc =>
    obtain ⟨hcount, hafter⟩ := tallies_counted hfits
    rcases Terms.bump_spec h w doc hcount with hfull | ⟨t', hbump, h'⟩
    · exact Or.inl hfull
    · refine Or.inr ⟨t', _, ?_, h', hafter⟩
      rw [Terms.step, hbump, Tallies.told, decide_eq_decide.mpr (entries_tallies M w)]
  | dropDoc w doc =>
    have hspec : ∃ t', t.dropDoc K w doc =
        .ok (t', decide ((M w).entries ≠ [] ∧ ((M w).erase doc).entries = [])) ∧
          t'.Holds K (Terms.dropped M w doc) := Terms.dropDoc_spec h
    obtain ⟨t', hdrop, h'⟩ := hspec
    refine Or.inr ⟨t', _, ?_, h', tallies_dropped⟩
    rw [Terms.step, hdrop, Tallies.told, decide_eq_decide.mpr
      (and_congr (not_congr (entries_tallies M w)) (erase_tallies M w doc))]
  | shrinkToFit =>
    obtain ⟨t', hshrink, h'⟩ := Terms.shrinkToFit_spec h
    refine Or.inr ⟨t', M, ?_, h', rfl⟩
    rw [Terms.step, hshrink]
    rfl

/-- **A run does to the index what it does to the map.** -/
theorem run_spec : ∀ (steps : List Step) {t : Terms} {M : Counts}, t.Holds K M →
    (tallies M).FitsAll steps → t.run K steps = .error .full ∨
      ∃ t' M', t.run K steps = .ok (t', (tallies M).toldAll steps) ∧ t'.Holds K M' ∧
        tallies M' = (tallies M).afterAll steps
  | [], t, M, h, _ => Or.inr ⟨t, M, rfl, h, rfl⟩
  | step :: steps, t, M, h, hfits => by
    unfold Terms.run
    rcases step_spec h hfits.1 with hfull | ⟨t₁, M₁, hstep, h₁, hM₁⟩
    · left
      rw [hfull]
      rfl
    · rw [hstep]
      dsimp only [bind, Except.bind]
      have hrest : (tallies M₁).FitsAll steps := hM₁ ▸ hfits.2
      rcases run_spec steps h₁ hrest with hfull | ⟨t₂, M₂, hrun, h₂, hM₂⟩
      · left
        rw [hfull]
      · right
        refine ⟨t₂, M₂, ?_, h₂, ?_⟩
        · rw [hrun, hM₁]
          rfl
        · rw [hM₂, hM₁]
          rfl

/-- **An index that answers as a map does.** -/
structure Answers (K : Keys) (t : Terms) (N : Tallies) : Prop where
  /-- a word has its documents, ascending, each with its count and none above the largest -/
  get : ∀ w, (t.get K w = .ok none ∧ (N w).entries = []) ∨
    ∃ p, t.get K w = .ok (some p) ∧ (N w).entries ≠ [] ∧ p.docs = (N w).keys ∧
      p.docs.Pairwise (· < ·) ∧ p.tfs.map UInt32.toNat = (N w).entries.map (·.2) ∧
      ∀ n ∈ p.tfs, n ≤ p.maxTf
  /-- the words are those held, once each, but for those marked -/
  words : t.words.Nodup ∧ ∀ w, w ∈ t.words ↔ (N w).entries ≠ [] ∧ w.head? ≠ some 94
  /-- and all of them and their documents are counted -/
  counts : ∃ L : List (List UInt8), L.Nodup ∧ (∀ w, w ∈ L ↔ (N w).entries ≠ []) ∧
    t.len = L.length ∧ t.postings = (L.map fun w => (N w).entries.length).sum
  /-- a table of slots has an empty one, and every probe of it ends -/
  probes : ∀ s ∈ t.all, s.table.slots ≠ [] →
    (∃ e < s.table.slots.length, s.table.slotAt e = 0) ∧
      ∀ w, ∃ found, s.find (K.hashOf w) w = .ok found
  /-- the living bytes and the dead are the arena -/
  arena : ∀ s ∈ t.all, s.live + s.dead = s.bytes.length

theorem answers_of_holds (h : t.Holds K M) : Answers K t (tallies M) where
  get w := by
    rcases Terms.get_spec h w with ⟨hget, hnil⟩ | ⟨p, hget, htally, hne⟩
    · exact Or.inl ⟨hget, (entries_tallies M w).mpr hnil⟩
    · have hkeys : (tallies M w).keys = (M w).keys := by
        rw [OrdMap.keys, OrdMap.keys, tallies, OrdMap.map, List.map_map]
        rfl
      refine Or.inr ⟨p, hget, fun hnil => hne ((entries_tallies M w).mp hnil), ?_, ?_, ?_, ?_⟩
      · rw [hkeys]
        exact htally.docs
      · rw [htally.docs]
        exact List.pairwise_map.mpr (M w).ascending
      · rw [htally.tfs, tallies, OrdMap.map, List.map_map, List.map_map]
        rfl
      · intro n hn
        rw [htally.tfs] at hn
        obtain ⟨e, he, rfl⟩ := List.mem_map.mp hn
        exact htally.ceiling e he
  words := by
    rw [Terms.words_eq]
    refine ⟨h.means.nodup.filter _, fun w => ?_⟩
    rw [List.mem_filter, h.means.mem_iff, bne_iff_ne, ne_eq, ne_eq, ne_eq, entries_tallies]
  counts := by
    refine ⟨t.entries.map (·.1), h.means.nodup, fun w => ?_, ?_, ?_⟩
    · rw [h.means.mem_iff, ne_eq, ne_eq, entries_tallies]
    · rw [Terms.len_eq h.good, List.length_map]
    · rw [Terms.postings_eq h.good, List.map_map]
      congr 1
      refine List.map_congr_left fun e he => ?_
      rw [(h.means.held e he).1.length]
      exact (List.length_map _).symm
  probes s hs hne := by
    have hgood := h.good.shards s hs
    have hslots : s.table.slots.length ≠ 0 := fun h0 => hne (List.length_eq_zero_iff.mp h0)
    refine ⟨hgood.free_slot hslots, fun w => ?_⟩
    rcases Shard.find_spec (hashOf_low K) hgood hslots w with ⟨e, τ, hfind, -⟩ | ⟨e, hfind, -⟩
    · exact ⟨_, hfind⟩
    · exact ⟨_, hfind⟩
  arena s hs := Shard.live_add_dead (h.good.shards s hs)

theorem holds_default (K : Keys) : Terms.default.Holds K fun _ => OrdMap.empty := by
  have hgood : Shard.default.Good K.hashOf := good_empty K (Or.inl rfl)
  refine ⟨⟨fun s hs => ?_, Or.inl rfl, fun k hk => (by cases hk)⟩, means_nil⟩
  rw [List.mem_singleton.mp hs]
  exact hgood

/-- **An index's terms are a map of words to counts**, whatever the hash of a word: in every run of
writes that counts no document 2^32 times in a word, and that the arena's assertion does not stop,
each write answers as it does of the map, and what is held is what the map holds. -/
theorem terms_are_a_map (K : Keys) (steps : List Step) (hfits : Tallies.empty.FitsAll steps) :
    Terms.default.run K steps = .error .full ∨
      ∃ t, Terms.default.run K steps = .ok (t, Tallies.empty.toldAll steps) ∧
        Answers K t (Tallies.empty.afterAll steps) := by
  have hempty : tallies (fun _ => OrdMap.empty) = Tallies.empty := rfl
  rw [← hempty] at hfits ⊢
  rcases run_spec steps (holds_default K) hfits with hfull | ⟨t, M, hrun, h, hM⟩
  · exact Or.inl hfull
  · exact Or.inr ⟨t, hrun, hM ▸ answers_of_holds h⟩

/-- An index whose words all hash alike. -/
def alike : Keys := ⟨true, fun _ => 0⟩

/-- A word in two documents, then in one. -/
theorem terms_of_two : ∃ t, Terms.default.run alike
      [.bump [97] 1, .bump [97] 2, .dropDoc [97] 1, .shrinkToFit] =
        .ok (t, [true, false, false, false]) ∧
    Answers alike t (Tallies.empty.afterAll
      [.bump [97] 1, .bump [97] 2, .dropDoc [97] 1, .shrinkToFit]) := by
  have htold : Tallies.empty.toldAll
      [.bump [97] 1, .bump [97] 2, .dropDoc [97] 1, .shrinkToFit] =
        [true, false, false, false] := by
    decide
  have hok : (Terms.default.run alike
      [.bump [97] 1, .bump [97] 2, .dropDoc [97] 1, .shrinkToFit]).toBool = true := by
    decide +kernel
  rw [← htold]
  refine (terms_are_a_map alike [.bump [97] 1, .bump [97] 2, .dropDoc [97] 1, .shrinkToFit]
    ⟨?_, ?_, trivial, trivial, trivial⟩).resolve_left fun hfull => ?_
  · exact (by decide : Tallies.empty.count [97] 1 + 1 < 2 ^ 32)
  · exact (by decide : (Tallies.empty.after (.bump [97] 1)).count [97] 2 + 1 < 2 ^ 32)
  · rw [hfull] at hok
    cases hok

/-- The index of one word counted so often in its one document. -/
def lone (n : UInt32) : Terms :=
  ⟨⟨⟨[1, 0, 0, 0, 0, 0, 0, 0], [0, EMPTY, EMPTY, EMPTY, EMPTY, EMPTY, EMPTY, EMPTY]⟩,
    [⟨0, n, 1⟩], [], [], [], [1, 97], 0⟩, []⟩

theorem lone_first : Terms.default.bump alike [97] 1 = .ok (lone 1, true) := by
  rfl

theorem lone_find (n : UInt32) :
    (lone n).one.find (alike.hashOf [97]) [97] = .ok (.ok 0) := by
  have hat : (fun p => isAt [97] (lone n).one.bytes ((lone n).one.at_ p)) =
      fun p => isAt [97] [1, 97] ((lone 0).one.at_ p) := by
    funext p
    congr 1
    obtain ⟨i, list⟩ := p
    cases list with
    | true => rfl
    | false => cases i <;> rfl
  have hfind : ended ((lone 0).one.table.find (alike.hashOf [97])
      fun p => isAt [97] [1, 97] ((lone 0).one.at_ p)) = .ok (.ok 0) := by
    decide +kernel
  rw [Shard.find, hat]
  exact hfind

theorem lone_bump (n : UInt32) : (lone n).bump alike [97] 1 = .ok (lone (n + 1), false) := by
  have hlook : Terms.look (lone n).one (alike.hashOf [97]) [97] = .ok (.ok 0) := lone_find n
  have hbump : (lone n).one.bump 0 1 = (lone (n + 1)).one := by
    have hslot : (lone n).one.table.slotAt 0 = 1 := rfl
    have hplace : placeOf 1 = ⟨0, false⟩ := by decide
    rw [Shard.bump, hslot, hplace]
    rfl
  have hin : (lone n).bumpIn alike [97] 1 = .ok (lone (n + 1), false) := by
    unfold Terms.bumpIn
    have hof : (lone n).of (alike.hashOf [97]).tag = (lone n).one := rfl
    dsimp only
    rw [hof, hlook]
    dsimp only [bind, Except.bind]
    rw [hbump]
    rfl
  exact hin

theorem lone_run : ∀ (k : Nat) (n : UInt32),
    (lone n).run alike (List.replicate k (.bump [97] 1)) =
      .ok (lone (n + UInt32.ofNat k), List.replicate k false)
  | 0, n => by
    have h0 : n + UInt32.ofNat 0 = n := UInt32.add_zero n
    rw [h0]
    rfl
  | k + 1, n => by
    have hstep : (lone n).step alike (.bump [97] 1) = .ok (lone (n + 1), false) := lone_bump n
    have hadd : n + 1 + UInt32.ofNat k = n + UInt32.ofNat (k + 1) := by
      rw [UInt32.ofNat_add, UInt32.add_assoc, UInt32.add_comm (UInt32.ofNat k)]
      rfl
    rw [List.replicate_succ, Terms.run, hstep]
    dsimp only [bind, Except.bind]
    rw [lone_run k (n + 1), hadd]
    rfl

/-- How often a word bumped so often is counted. -/
theorem count_bumps (w : List UInt8) (doc : DocId) : ∀ (k : Nat) (N : Tallies),
    (N.afterAll (List.replicate k (.bump w doc))).count w doc = N.count w doc + k
  | 0, _ => rfl
  | k + 1, N => by
    have hone : (N.after (.bump w doc)).count w doc = N.count w doc + 1 := by
      rw [Tallies.after, Tallies.count, Function.update_self, OrdMap.get_insert, if_pos rfl]
      rfl
    rw [List.replicate_succ, Tallies.afterAll, count_bumps w doc k, hone]
    omega

/-- **A word counted 2^32 times is lost**: its count is gone round to zero, which is a free place's,
and `words` leaves it out. -/
theorem lost_word : ∃ t told, Terms.default.run alike (List.replicate (2 ^ 32) (.bump [97] 1)) =
      .ok (t, told) ∧ t.get alike [97] = .ok (some ⟨[1], [0], 0⟩) ∧ t.words = [] ∧
    (Tallies.empty.afterAll (List.replicate (2 ^ 32) (.bump [97] 1))).count [97] 1 = 2 ^ 32 := by
  have hrun : ∀ k, Terms.default.run alike (List.replicate (k + 1) (.bump [97] 1)) =
      .ok (lone (1 + UInt32.ofNat k), true :: List.replicate k false) := by
    intro k
    have hstep : Terms.default.step alike (.bump [97] 1) = .ok (lone 1, true) := lone_first
    rw [List.replicate_succ, Terms.run, hstep]
    dsimp only [bind, Except.bind]
    rw [lone_run]
    rfl
  have hround : (1 : UInt32) + UInt32.ofNat 4294967295 = 0 := by decide
  have hpow : 2 ^ 32 = 4294967295 + 1 := by norm_num
  refine ⟨lone 0, true :: List.replicate 4294967295 false, ?_, ?_, rfl, ?_⟩
  · have hall := hrun 4294967295
    rw [hround] at hall
    rw [hpow]
    exact hall
  · have hget : (lone 0).get alike [97] = .ok (some ⟨[1], [0], 0⟩) := by
      unfold Terms.get
      have hof : (lone 0).of (alike.hashOf [97]).tag = (lone 0).one := rfl
      dsimp only
      rw [hof, lone_find 0]
      rfl
    exact hget
  · rw [count_bumps]
    exact Nat.zero_add _

end Runs

end Fenec.Text
