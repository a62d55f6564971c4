/-
# The writes of a shard

A write of a shard is said of its `entries`, its words and their documents in any order: a word's
slot is found where it is held and nowhere else (`find_spec`), one more of a document counts it up
(`bump_spec`), a new word is added (`add_spec`), and a document dropped takes the word with it where
it was the last (`dropDoc_spec`).  The arena written again (`compact_spec`), the places closed up
(`closeUp_spec`) and the table placed anew (`resize_spec`) leave every word its documents.

Every one keeps `Good`, and none turns for ever: what stops it is the arena's assertion alone.
-/
import Fenec.TermShard

namespace Fenec.Text

open Lib Lib.Swar Lib.Probe

variable {hash : List UInt8 → Hash}

/-! ## 1. What is kept of some terms -/

section Kept

variable {bytes : List UInt8} {dead : Nat} {t t' : Table} {T T' R : List Term} {τ τ' : Term}

theorem Term.word_congr (h : τ'.at_ = τ.at_) (bytes : List UInt8) :
    τ'.word bytes = τ.word bytes := by
  rw [Term.word, Term.word, h]

/-- The order of the terms does not matter. -/
theorem Kept.perm (h : Kept hash bytes dead t T) (hT : T.Perm T') : Kept hash bytes dead t T' where
  stored τ hτ := h.stored τ (hT.mem_iff.mpr hτ)
  words := (hT.map _).nodup_iff.mp h.words
  arena := by
    rw [← (hT.map _).sum_nat]
    exact h.arena
  small := h.small
  tallied τ hτ := h.tallied τ (hT.mem_iff.mpr hτ)
  placed τ hτ := h.placed τ (hT.mem_iff.mpr hτ)
  holds := h.holds.perm (hT.map _)
  slots := h.slots
  roomy := by
    rw [← hT.length_eq]
    exact h.roomy

/-- There are no more terms than an arena has words. -/
theorem Kept.length_le (h : Kept hash bytes dead t T) : T.length ≤ MOST := by
  have hle := words_le h.words (by
    have harena := h.arena
    have hsmall := h.small
    rw [List.map_map]
    exact Nat.lt_of_le_of_lt (by rw [← harena]; exact Nat.le_add_right _ _) hsmall)
  rwa [List.length_map] at hle

/-- **A term's place or documents changed**, its word where it was. -/
theorem Kept.replace (h : Kept hash bytes dead t (τ :: R)) (hat : τ'.at_ = τ.at_)
    (htally : ∃ m, Tally τ'.postings m)
    (hlist : τ'.place.list = true → 2 ≤ τ'.postings.docs.length) (hplace : τ'.place.i < PLACES)
    (ht : t'.Holds (τ'.cell hash bytes :: R.map (·.cell hash bytes)))
    (hlen : t'.slots.length = t.slots.length) : Kept hash bytes dead t' (τ' :: R) := by
  have hword := Term.word_congr hat bytes
  refine ⟨?_, ?_, ?_, h.small, ?_, ?_, ht, hlen ▸ h.slots, hlen ▸ h.roomy⟩
  · intro σ hσ
    rcases List.mem_cons.mp hσ with rfl | hσ
    · rw [hword, hat]
      exact h.stored τ List.mem_cons_self
    · exact h.stored σ (List.mem_cons_of_mem _ hσ)
  · have hwords := h.words
    rw [List.map_cons] at hwords ⊢
    rwa [hword]
  · have harena := h.arena
    rw [List.map_cons] at harena ⊢
    rwa [hword]
  · intro σ hσ
    rcases List.mem_cons.mp hσ with rfl | hσ
    · exact ⟨htally, hlist⟩
    · exact h.tallied σ (List.mem_cons_of_mem _ hσ)
  · intro σ hσ
    rcases List.mem_cons.mp hσ with rfl | hσ
    · exact hplace
    · exact h.placed σ (List.mem_cons_of_mem _ hσ)

/-- A term's documents changed alone. -/
theorem Kept.tally (h : Kept hash bytes dead t (τ :: R)) (hat : τ'.at_ = τ.at_)
    (hp : τ'.place = τ.place) (htally : ∃ m, Tally τ'.postings m)
    (hlist : τ'.place.list = true → 2 ≤ τ'.postings.docs.length) :
    Kept hash bytes dead t (τ' :: R) := by
  refine h.replace hat htally hlist (hp ▸ h.placed τ List.mem_cons_self) ?_ rfl
  have hcell : τ'.cell hash bytes = τ.cell hash bytes := by
    rw [Term.cell, Term.cell, Term.word_congr hat, hp]
  rw [hcell]
  exact h.holds

/-- **A word more**, at the end of the arena. -/
theorem Kept.add (h : Kept hash bytes dead t R) {w : List UInt8} (hτ : τ.at_ = bytes.length)
    (hnew : ∀ σ ∈ R, σ.word bytes ≠ w) (hsmall : (bytes ++ Text.stored w).length < 2 ^ 32)
    (htally : ∃ m, Tally τ.postings m)
    (hlist : τ.place.list = true → 2 ≤ τ.postings.docs.length) (hplace : τ.place.i < PLACES)
    (ht : t'.Holds ((slot (hash w).tag τ.place, (hash w).h2) :: R.map (·.cell hash bytes)))
    (hslots : Size t'.slots.length) (hroom : fits (R.length + 1) t'.slots.length = true) :
    Kept hash (bytes ++ Text.stored w) dead t' (τ :: R) ∧ τ.word (bytes ++ Text.stored w) = w ∧
      ∀ σ ∈ R, σ.word (bytes ++ Text.stored w) = σ.word bytes := by
  have hend : StoredAt (bytes ++ Text.stored w) τ.at_ w := by
    have hat := storedAt_end bytes w []
    rwa [List.append_nil, ← hτ] at hat
  have hword : τ.word (bytes ++ Text.stored w) = w := by
    rw [Term.word, wordAt_stored hend]
  have hold : ∀ σ ∈ R, σ.word (bytes ++ Text.stored w) = σ.word bytes := by
    intro σ hσ
    rw [Term.word, wordAt_stored ((h.stored σ hσ).append (Text.stored w))]
  refine ⟨⟨?_, ?_, ?_, hsmall, ?_, ?_, ?_, Or.inr hslots, hroom⟩, hword, hold⟩
  · intro σ hσ
    rcases List.mem_cons.mp hσ with rfl | hσ
    · rw [hword]
      exact hend
    · rw [hold σ hσ]
      exact (h.stored σ hσ).append _
  · rw [List.map_cons, hword, List.map_congr_left hold]
    refine List.nodup_cons.mpr ⟨fun hmem => ?_, h.words⟩
    obtain ⟨σ, hσ, heq⟩ := List.mem_map.mp hmem
    exact hnew σ hσ heq
  · have hsum : R.map (fun σ => (Text.stored (σ.word (bytes ++ Text.stored w))).length) =
        R.map fun σ => (Text.stored (σ.word bytes)).length :=
      List.map_congr_left fun σ hσ => by rw [hold σ hσ]
    have harena := h.arena
    rw [List.map_cons, List.sum_cons, hword, hsum, List.length_append]
    omega
  · intro σ hσ
    rcases List.mem_cons.mp hσ with rfl | hσ
    · exact ⟨htally, hlist⟩
    · exact h.tallied σ hσ
  · intro σ hσ
    rcases List.mem_cons.mp hσ with rfl | hσ
    · exact hplace
    · exact h.placed σ hσ
  · have hcells : R.map (·.cell hash (bytes ++ Text.stored w)) = R.map (·.cell hash bytes) :=
      List.map_congr_left fun σ hσ => by rw [Term.cell, Term.cell, hold σ hσ]
    rw [List.map_cons, hcells, Term.cell, hword]
    exact ht

/-- **A word less**, its bytes dead. -/
theorem Kept.drop (h : Kept hash bytes dead t (τ :: R))
    (ht : t'.Holds (R.map (·.cell hash bytes))) (hlen : t'.slots.length = t.slots.length) :
    Kept hash bytes (dead + (Text.stored (τ.word bytes)).length) t' R where
  stored σ hσ := h.stored σ (List.mem_cons_of_mem _ hσ)
  words := (List.nodup_cons.mp h.words).2
  arena := by
    have harena := h.arena
    rw [List.map_cons, List.sum_cons] at harena
    omega
  small := h.small
  tallied σ hσ := h.tallied σ (List.mem_cons_of_mem _ hσ)
  placed σ hσ := h.placed σ (List.mem_cons_of_mem _ hσ)
  holds := ht
  slots := hlen ▸ h.slots
  roomy := by
    have hroom := fits_iff.mp h.roomy
    rw [List.length_cons] at hroom
    rw [hlen]
    exact fits_iff.mpr (by omega)

end Kept

/-! ## 2. Finding a word -/

/-- A word and its documents. -/
abbrev Entry := List UInt8 × Postings

/-- A term's word and documents. -/
def Term.entry (bytes : List UInt8) (τ : Term) : Entry := (τ.word bytes, τ.postings)

namespace Shard

/-- What a shard holds, in any order. -/
def entries (s : Shard) : List Entry := s.terms.map (Term.entry s.bytes)

/-- **A slot names a word's term.** -/
structure Names (hash : List UInt8 → Hash) (s : Shard) (w : List UInt8) (e : Nat) (τ : Term) :
    Prop where
  lt : e < s.table.slots.length
  taken : s.table.slotAt e ≠ 0
  mem : τ ∈ s.terms
  word : τ.word s.bytes = w
  cell : (s.table.slotAt e, s.table.ctrl.getD e 0) = τ.cell hash s.bytes

/-- **A slot a new word goes to**: the first free one from its home. -/
structure Vacant (hash : List UInt8 → Hash) (s : Shard) (w : List UInt8) (e : Nat) : Prop where
  lt : e < s.table.slots.length
  free : s.table.slotAt e = 0
  taken : Probe.Taken s.table.slots.length
    (home ((hash w).tag.toUInt64 <<< 32) (s.table.slots.length - 1)) s.table.view e
  new : ∀ τ ∈ s.terms, τ.word s.bytes ≠ w

section Find

variable {s : Shard} {w : List UInt8} {e : Nat} {τ : Term}

/-- A slot taken is some term's. -/
theorem Good.term (h : s.Good hash) (he : e < s.table.slots.length) (hv : s.table.slotAt e ≠ 0) :
    ∃ τ, s.Names hash (τ.word s.bytes) e τ := by
  obtain ⟨τ, hτ, hcell⟩ := List.mem_map.mp (h.kept.holds.toKeeps.mem he hv)
  exact ⟨τ, he, hv, hτ, rfl, hcell.symm⟩

/-- A term has a slot. -/
theorem Good.slot (h : s.Good hash) (hτ : τ ∈ s.terms) :
    ∃ e, s.Names hash (τ.word s.bytes) e τ := by
  obtain ⟨e, he, hv, hc, htaken⟩ := h.kept.holds.toKeeps.slot
    (List.mem_map.mpr ⟨τ, hτ, rfl⟩)
  exact ⟨e, he, htaken, hτ, rfl, by rw [hv, hc]⟩

theorem Names.place (hn : s.Names hash w e τ) (h : s.Good hash) :
    placeOf (s.table.slotAt e) = τ.place := by
  have hv := congrArg Prod.fst hn.cell
  rw [Term.cell] at hv
  dsimp only at hv
  rw [hv, placeOf_slot (h.kept.placed τ hn.mem)]

theorem Names.tag (hn : s.Names hash w e τ) (h : s.Good hash) :
    tagOf (s.table.slotAt e) = (hash w).tag := by
  have hv := congrArg Prod.fst hn.cell
  rw [Term.cell] at hv
  dsimp only at hv
  rw [hv, tagOf_slot (h.kept.placed τ hn.mem), hn.word]

theorem Names.ctrl (hn : s.Names hash w e τ) : s.table.ctrl.getD e 0 = (hash w).h2 := by
  have hc := congrArg Prod.snd hn.cell
  rw [Term.cell] at hc
  rw [← hn.word]
  exact hc

/-- The documents of a slot's term. -/
theorem Names.postings (hn : s.Names hash w e τ) (h : s.Good hash) :
    s.postings e = τ.postings := postings_of_mem hn.mem (hn.place h)

/-- Whether a slot is a word's, told by its term's word. -/
theorem Names.isWord_iff {v : List UInt8} (hn : s.Names hash v e τ) (h : s.Good hash) :
    s.table.isWord (hash w) (fun p => isAt w s.bytes (s.at_ p)) e = true ↔
      (hash v).tag = (hash w).tag ∧ v = w := by
  have hword := hn.word
  subst hword
  rw [Table.isWord, Bool.and_eq_true, beq_iff_eq, hn.tag h, hn.place h, at_of_mem hn.mem,
    isAt_eq (h.kept.stored τ hn.mem), decide_eq_true_eq]

/-- A table has more slots than terms. -/
theorem Good.roomy (h : s.Good hash) (hslots : s.table.slots.length ≠ 0) :
    s.terms.length < s.table.slots.length := by
  have hroom := fits_iff.mp h.kept.roomy
  omega

/-- **The table keeps an empty slot.** -/
theorem Good.free_slot (h : s.Good hash) (hslots : s.table.slots.length ≠ 0) :
    ∃ e < s.table.slots.length, s.table.slotAt e = 0 :=
  h.kept.holds.toKeeps.free_slot (by
    rw [List.length_map]
    exact h.roomy hslots)

/-- **`find` ends**: at the slot of the word's term, or where a new word goes. -/
theorem find_spec (hlow : ∀ w, (hash w).h2 < EMPTY) (h : s.Good hash)
    (hslots : s.table.slots.length ≠ 0) (w : List UInt8) :
    (∃ e τ, s.find (hash w) w = .ok (.ok e) ∧ s.Names hash w e τ) ∨
      ∃ e, s.find (hash w) w = .ok (.error e) ∧ s.Vacant hash w e := by
  obtain ⟨r, hr, hfound⟩ : ∃ r,
      s.table.find (hash w) (fun p => isAt w s.bytes (s.at_ p)) = some r ∧
        s.table.Found (hash w) (fun p => isAt w s.bytes (s.at_ p)) r :=
    h.kept.holds.find (h.kept.slots.resolve_left hslots) (h.free_slot hslots) (hlow w)
  unfold find
  rw [hr]
  cases r with
  | ok e =>
    obtain ⟨he, hv, hword⟩ := hfound
    obtain ⟨τ, hn⟩ := h.term he hv
    obtain ⟨-, heq⟩ := (hn.isWord_iff h).mp hword
    exact Or.inl ⟨e, τ, rfl, heq ▸ hn⟩
  | error e =>
    obtain ⟨he, hv, htaken, hother⟩ := hfound
    refine Or.inr ⟨e, rfl, he, hv, htaken, fun τ hτ heq => ?_⟩
    -- the slot of a term of the word is not the word's
    obtain ⟨e', hn⟩ := h.slot hτ
    have hnot := hother e' hn.lt hn.taken (by rw [hn.ctrl, heq])
    rw [(hn.isWord_iff h).mpr ⟨by rw [heq], heq⟩] at hnot
    cases hnot

end Find

/-! ## 3. One more of a document -/

/-- **One word's documents changed**, and no other's. -/
def Rewrites (s s' : Shard) (w : List UInt8) (p p' : Postings) : Prop :=
  ∃ R, s.entries.Perm ((w, p) :: R) ∧ s'.entries.Perm ((w, p') :: R)

section Changes

variable {s s' : Shard} {w : List UInt8} {e : Nat} {τ τ' : Term} {R : List Term} {doc : DocId}
  {m : OrdMap UInt32}

theorem rewrites_of_terms (hs : s.terms.Perm (τ :: R)) (hs' : s'.terms.Perm (τ' :: R))
    (hbytes : s'.bytes = s.bytes) (hat : τ'.at_ = τ.at_) :
    Rewrites s s' (τ.word s.bytes) τ.postings τ'.postings := by
  refine ⟨R.map (Term.entry s.bytes), hs.map _, ?_⟩
  have hmap := hs'.map (Term.entry s'.bytes)
  rw [List.map_cons, hbytes, Term.entry, Term.word_congr hat] at hmap
  rwa [entries, hbytes]

/-- A slot renamed is put with its own control byte. -/
theorem setSlot_eq {t : Table} (hsized : t.ctrl.length = t.slots.length)
    (he : e < t.slots.length) (v : UInt64) : t.setSlot e v = t.put e v (t.ctrl.getD e 0) := by
  have hc : e < t.ctrl.length := hsized ▸ he
  rw [Table.setSlot, Table.put, List.getD_eq_getElem _ _ hc, List.set_getElem_self]

/-- **A term's slot names its new place.** -/
theorem Names.setSlot (hn : s.Names hash w e τ) (h : s.Good hash) (hs : s.terms.Perm (τ :: R))
    {q : Place} (hq : q.i < PLACES) :
    (s.table.setSlot e (slot (tagOf (s.table.slotAt e)) q)).Holds
      ((slot (hash w).tag q, (hash w).h2) :: R.map (·.cell hash s.bytes)) := by
  have hholds := h.kept.holds
  have hcells := hs.map (·.cell hash s.bytes)
  rw [List.map_cons, ← hn.cell] at hcells
  have htag : tagOf (slot (tagOf (s.table.slotAt e)) q) = tagOf (s.table.slotAt e) :=
    tagOf_slot hq
  have hnew := hholds.replace hn.lt (slot_ne_zero hq) htag hn.taken hcells
  rw [hn.tag h, hn.ctrl] at hnew
  rw [setSlot_eq hholds.sized hn.lt, hn.tag h, hn.ctrl]
  exact hnew

theorem u32_place {i n : Nat} (hi : i < n) (hn : n ≤ MOST) : i < PLACES ∧ u32 i = i := by
  have hmost : MOST < PLACES := by decide
  have hplaces : PLACES < 2 ^ 32 := by decide
  exact ⟨by omega, u32_of_lt (by omega)⟩

/-- What a place of `ones` that a slot names is. -/
theorem Names.one (hn : s.Names hash w e τ) (hone : τ.place.list = false) :
    τ.place.i < s.ones.length ∧ (s.one τ.place.i).term τ.place.i = some τ ∧
      (s.one τ.place.i).live = true ∧ τ.at_ = (s.one τ.place.i).at_ ∧
      τ.place = ⟨τ.place.i, false⟩ ∧ τ.postings =
        ⟨[(s.one τ.place.i).doc], [(s.one τ.place.i).tf], (s.one τ.place.i).tf⟩ := by
  obtain ⟨-, hi, hterm⟩ | ⟨htrue, -⟩ := mem_terms.mp hn.mem
  · obtain ⟨hlive, hτ⟩ := One.of_term hterm
    exact ⟨hi, hterm, hlive, congrArg Term.at_ hτ, congrArg Term.place hτ,
      congrArg Term.postings hτ⟩
  · cases hone.symm.trans htrue

/-- What a place of `lists` that a slot names is. -/
theorem Names.list (hn : s.Names hash w e τ) (hlist : τ.place.list = true) :
    τ.place.i < s.lists.length ∧ (s.list τ.place.i).term τ.place.i = some τ ∧
      (s.list τ.place.i).live = true ∧ τ.at_ = (s.list τ.place.i).at_ ∧
      τ.place = ⟨τ.place.i, true⟩ ∧ τ.postings = (s.list τ.place.i).view := by
  obtain ⟨hfalse, -⟩ | ⟨-, hi, hterm⟩ := mem_terms.mp hn.mem
  · cases hlist.symm.trans hfalse
  · obtain ⟨hlive, hτ⟩ := TermList.of_term hterm
    exact ⟨hi, hterm, hlive, congrArg Term.at_ hτ, congrArg Term.place hτ,
      congrArg Term.postings hτ⟩

theorem live_of_two {l : TermList} (h : 2 ≤ l.view.docs.length) : l.live = true := by
  unfold TermList.live
  cases hdocs : l.docs with
  | nil =>
    rw [TermList.view, hdocs] at h
    simp at h
  | cons d ds => rfl

/-- **A list of a word for another**, of two documents or more. -/
theorem relist_spec (h : s.Good hash) (hn : s.Names hash w e τ) (hlist : τ.place.list = true)
    {l : TermList} (hat : l.at_ = (s.list τ.place.i).at_) (hm : Tally l.view m)
    (htwo : 2 ≤ l.view.docs.length) :
    ({ s with lists := s.lists.set τ.place.i l } : Shard).Good hash ∧
      Rewrites s { s with lists := s.lists.set τ.place.i l } w τ.postings l.view := by
  obtain ⟨hi, hterm, hlive, hτat, hplace, -⟩ := hn.list hlist
  have hlive' := live_of_two htwo
  obtain ⟨R, hold, hnew⟩ := terms_set_list hi
  rw [hterm, Option.toList_some, List.singleton_append] at hold
  have hterms := hnew l { s with lists := s.lists.set τ.place.i l } rfl rfl
  rw [TermList.term_live hlive', Option.toList_some, List.singleton_append] at hterms
  have hat' : l.at_ = τ.at_ := by rw [hat, hτat]
  refine ⟨⟨?_, h.ones, ?_, ?_, ?_⟩, ?_⟩
  · exact ((h.kept.perm hold).tally hat' hplace.symm ⟨m, hm⟩ fun _ => htwo).perm hterms.symm
  · refine h.lists.set hi ?_ hlive'
    rwa [← list_eq hi]
  · intro a ha hdead
    rcases List.mem_or_eq_of_mem_set ha with ha | rfl
    · exact h.emptied a ha hdead
    · rw [hlive'] at hdead
      cases hdead
  · refine ⟨h.places.1, ?_⟩
    dsimp only
    rw [List.length_set]
    exact h.places.2
  · have hrew := rewrites_of_terms hold hterms rfl hat'
    rwa [hn.word] at hrew

/-- **One more of a list's document.** -/
theorem bump_list (h : s.Good hash) (hn : s.Names hash w e τ) (hlist : τ.place.list = true)
    (hm : Tally τ.postings m) (hcount : count m doc + 1 ≠ 0) :
    (s.bump e doc).Good hash ∧ ∃ p, Tally p (m.insert doc (count m doc + 1)) ∧
      Rewrites s (s.bump e doc) w τ.postings p := by
  obtain ⟨-, -, -, -, -, hview⟩ := hn.list hlist
  have hm' := tally_bump (hview ▸ hm : Tally (s.list τ.place.i).view m) hcount
  -- the list counted up has as many documents or one more
  have htwo : 2 ≤ ((s.list τ.place.i).bump doc).view.docs.length := by
    have hold := (h.kept.tallied τ hn.mem).2 hlist
    rw [hm.length] at hold
    rw [hm'.length, length_insert]
    omega
  obtain ⟨hgood, hrew⟩ := relist_spec h hn hlist (bump_at _ doc) hm' htwo
  have hbump : s.bump e doc =
      { s with lists := s.lists.set τ.place.i ((s.list τ.place.i).bump doc) } := by
    rw [bump, hn.place h, if_pos hlist]
  rw [hbump]
  exact ⟨hgood, _, hm', hrew⟩

/-- **One more of the one document of a term.** -/
theorem bump_one (h : s.Good hash) (hn : s.Names hash w e τ) (hone : τ.place.list = false)
    (hdoc : (s.one τ.place.i).doc = doc) (hm : Tally τ.postings m)
    (hcount : count m doc + 1 ≠ 0) :
    (s.bump e doc).Good hash ∧ ∃ p, Tally p (m.insert doc (count m doc + 1)) ∧
      Rewrites s (s.bump e doc) w τ.postings p := by
  obtain ⟨hi, hterm, hlive, hat, hplace, hpost⟩ := hn.one hone
  rw [hpost, hdoc] at hm
  obtain ⟨hentries, htf⟩ := tally_one.mp hm
  have hget : m.get doc = some (s.one τ.place.i).tf :=
    OrdMap.mem_entries_iff.mp (by rw [hentries]; exact List.mem_cons_self)
  have hcount' : count m doc = (s.one τ.place.i).tf := by rw [count, hget, Option.getD_some]
  rw [hcount'] at hcount ⊢
  have hm' : Tally ⟨[doc], [(s.one τ.place.i).tf + 1], (s.one τ.place.i).tf + 1⟩
      (m.insert doc ((s.one τ.place.i).tf + 1)) := by
    refine tally_one.mpr ⟨(congrArg _ hentries).trans ?_, hcount⟩
    exact OrdMap.insertEntry_over (A := []) fun e he => (by cases he)
  obtain ⟨R, hold, hnew⟩ := terms_set_one hi
  rw [hterm, Option.toList_some, List.singleton_append] at hold
  have hbump : s.bump e doc = { s with
      ones := s.ones.set τ.place.i { s.one τ.place.i with tf := (s.one τ.place.i).tf + 1 } } := by
    rw [bump, hn.place h, if_neg (by rw [hone]; exact Bool.false_ne_true), if_pos hdoc]
  have hlive' : One.live { s.one τ.place.i with tf := (s.one τ.place.i).tf + 1 } = true :=
    bne_iff_ne.mpr hcount
  have hterms := hnew { s.one τ.place.i with tf := (s.one τ.place.i).tf + 1 } (s.bump e doc)
    (by rw [hbump]) (by rw [hbump])
  rw [One.term_live hlive', Option.toList_some, List.singleton_append, hdoc] at hterms
  have hbytes : (s.bump e doc).bytes = s.bytes := by rw [hbump]
  refine ⟨⟨?_, ?_, ?_, ?_, ?_⟩, _, hm', ?_⟩
  · rw [hbytes, hbump]
    rw [hbump] at hterms
    exact ((h.kept.perm hold).tally hat.symm hplace.symm ⟨_, hm'⟩
      fun hf => (by cases hf)).perm hterms.symm
  · rw [hbump]
    refine h.ones.set hi ?_ hlive'
    rwa [← one_eq hi]
  · rw [hbump]
    exact h.lists
  · rw [hbump]
    exact h.emptied
  · rw [hbump]
    refine ⟨?_, h.places.2⟩
    rw [List.length_set]
    exact h.places.1
  · have hrew := rewrites_of_terms hold hterms hbytes hat.symm
    rwa [hn.word] at hrew

/-- **A second document of a term**: both in a list of their own. -/
theorem second_spec (h : s.Good hash) (hn : s.Names hash w e τ) (hone : τ.place.list = false)
    (hdoc : (s.one τ.place.i).doc ≠ doc) (hm : Tally τ.postings m) :
    (s.second e doc).Good hash ∧ ∃ p, Tally p (m.insert doc (count m doc + 1)) ∧
      Rewrites s (s.second e doc) w τ.postings p := by
  obtain ⟨hi, hterm, hlive, hat, -, hpost⟩ := hn.one hone
  obtain ⟨hlt, hu32⟩ := u32_place hi h.places.1
  obtain ⟨lists, spare, i, hhold, hilt, hdead, hlists, hput, hlen⟩ := holdList_spec h.lists
  -- the list taken is empty
  have hempty : (lists.getD i .default).docs = [] ∧ (lists.getD i .default).tfs = [] := by
    have hdocs : (lists.getD i .default).docs = [] := by
      simpa [TermList.live] using hdead
    refine ⟨hdocs, ?_⟩
    have hmem : lists.getD i .default ∈ lists := by
      rw [List.getD_eq_getElem _ _ hilt]
      exact List.getElem_mem hilt
    rcases hlists _ hmem with hl | hl
    · exact h.emptied _ hl hdead
    · rw [hl]
      rfl
  obtain ⟨l, hl⟩ : ∃ l : TermList, l = ⟨[(s.one τ.place.i).doc], [(s.one τ.place.i).tf],
      (s.one τ.place.i).tf, (s.one τ.place.i).at_⟩ := ⟨_, rfl⟩
  have hsecond : s.second e doc = { s with
      lists := lists.set i (l.bump doc)
      spare := spare
      table := s.table.setSlot e (slot (tagOf (s.table.slotAt e)) ⟨i, true⟩)
      ones := s.ones.set τ.place.i { s.one τ.place.i with tf := 0 }
      free := s.free ++ [τ.place.i] } := by
    have hlist : (({ s with lists := lists, spare := spare } : Shard).list i) =
        lists.getD i .default := rfl
    rw [second, hhold, hn.place h]
    dsimp only
    rw [hlist, hempty.1, hempty.2, List.nil_append, List.nil_append, ← hl, release, hu32]
    rfl
  -- the list of the two stands for both
  have hview : l.view = τ.postings := by rw [hl, hpost]; rfl
  have hget : m.get doc = none := by
    rw [hpost] at hm
    obtain ⟨hentries, -⟩ := tally_one.mp hm
    cases hget : m.get doc with
    | none => rfl
    | some n =>
      have hmem := OrdMap.mem_entries_iff.mpr hget
      rw [hentries] at hmem
      exact absurd (congrArg Prod.fst (List.mem_singleton.mp hmem)).symm hdoc
  have hcount : count m doc + 1 ≠ 0 := by
    rw [count, hget]
    decide
  have hm' := tally_bump (hview ▸ hm : Tally l.view m) hcount
  have htwo : 2 ≤ (l.bump doc).view.docs.length := by
    rw [hm'.length, length_insert, if_pos hget, ← hm.length, hpost]
    exact Nat.le_refl 2
  have hlive' := live_of_two htwo
  obtain ⟨hunused, hterms⟩ := hput (l.bump doc) hlive'
  -- the place let go takes its term away
  obtain ⟨R, hold, -⟩ := terms_set_one hi
  rw [hterm, Option.toList_some, List.singleton_append] at hold
  obtain ⟨s₁, hs₁⟩ : ∃ s₁ : Shard, s₁ = { s with lists := lists.set i (l.bump doc) } := ⟨_, rfl⟩
  have hi₁ : τ.place.i < s₁.ones.length := by rw [hs₁]; exact hi
  obtain ⟨R', hold', hnew'⟩ := terms_set_one hi₁
  have hsame : (s₁.one τ.place.i).term τ.place.i = some τ := by rw [hs₁]; exact hterm
  rw [hsame, Option.toList_some, List.singleton_append] at hold'
  have hdead' : One.live { s.one τ.place.i with tf := 0 } = false := rfl
  have hfinal := hnew' { s.one τ.place.i with tf := 0 } (s.second e doc)
    (by rw [hsecond, hs₁]) (by rw [hsecond, hs₁])
  rw [One.term_dead hdead', Option.toList_none, List.nil_append] at hfinal
  have hrest : R'.Perm (⟨⟨i, true⟩, (l.bump doc).at_, (l.bump doc).view⟩ :: R) := by
    have hs := hterms s₁ (by rw [hs₁]) (by rw [hs₁])
    refine List.Perm.cons_inv (a := τ) (hold'.symm.trans (hs.trans ?_))
    exact (hold.cons _).trans (List.Perm.swap _ _ _)
  have hall := hfinal.trans hrest
  have hbytes : (s.second e doc).bytes = s.bytes := by rw [hsecond]
  have hat' : (l.bump doc).at_ = τ.at_ := by rw [bump_at, hl, hat]
  have hmost := h.kept.length_le
  have hlists' : lists.length ≤ MOST := by
    rcases hlen with hlen | hlen
    · rw [hlen]
      exact h.places.2
    · have hones : τ ∈ placed One.term s.ones :=
        mem_placed.mpr ⟨τ.place.i, hi, by rw [← one_eq hi]; exact hterm⟩
      have hpos := List.length_pos_of_mem hones
      rw [terms, List.length_append] at hmost
      omega
  have hq := (u32_place hilt hlists').1
  refine ⟨⟨?_, ?_, ?_, ?_, ?_⟩, _, hm', ?_⟩
  · have hholds := hn.setSlot h hold (q := ⟨i, true⟩) hq
    have hcell : Term.cell hash s.bytes ⟨⟨i, true⟩, (l.bump doc).at_, (l.bump doc).view⟩ =
        (slot (hash w).tag ⟨i, true⟩, (hash w).h2) := by
      rw [Term.cell, Term.word_congr (τ := τ) hat', hn.word]
    rw [← hcell] at hholds
    have hkept := (h.kept.perm hold).replace hat' ⟨_, hm'⟩ (fun _ => htwo) hq hholds
      List.length_set
    rw [hbytes]
    rw [hsecond] at hall ⊢
    exact hkept.perm hall.symm
  · rw [hsecond]
    exact h.ones.push hi (by rwa [← one_eq hi]) hdead'
  · rw [hsecond]
    exact hunused
  · rw [hsecond]
    intro a ha hnot
    rcases List.mem_or_eq_of_mem_set ha with ha | rfl
    · rcases hlists a ha with ha | rfl
      · exact h.emptied a ha hnot
      · rfl
    · rw [hlive'] at hnot
      cases hnot
  · rw [hsecond]
    refine ⟨?_, ?_⟩
    · rw [List.length_set]
      exact h.places.1
    · rw [List.length_set]
      exact hlists'
  · have hrew := rewrites_of_terms hold hall hbytes hat'
    rwa [hn.word] at hrew

/-- **`bump`** counts a document up in a word, and changes no other. -/
theorem bump_spec (h : s.Good hash) (hn : s.Names hash w e τ) (hm : Tally τ.postings m)
    (hcount : count m doc + 1 ≠ 0) :
    (s.bump e doc).Good hash ∧ ∃ p, Tally p (m.insert doc (count m doc + 1)) ∧
      Rewrites s (s.bump e doc) w τ.postings p := by
  cases hlist : τ.place.list with
  | true => exact bump_list h hn hlist hm hcount
  | false =>
    by_cases hdoc : (s.one τ.place.i).doc = doc
    · exact bump_one h hn hlist hdoc hm hcount
    · have hbump : s.bump e doc = s.second e doc := by
        rw [bump, hn.place h, if_neg (by rw [hlist]; exact Bool.false_ne_true), if_neg hdoc]
      rw [hbump]
      exact second_spec h hn hlist hdoc hm

end Changes

/-! ## 4. A new word -/

section Adding

variable {s : Shard} {w : List UInt8} {e : Nat} {doc : DocId}

/-- **How many words there are.** -/
theorem Good.len_eq (h : s.Good hash) : s.len = s.terms.length := by
  have hones := h.ones.length_placed One.isSome_term
  have hlists := h.lists.length_placed TermList.isSome_term
  rw [len, terms, List.length_append]
  omega

/-- **`resize`** keeps the terms. -/
theorem resize_spec (h : s.Good hash) {n : Nat} (hn : Size n)
    (hfits : fits s.terms.length n = true) :
    ∃ t, s.resize n = .ok { s with table := t } ∧ t.slots.length = n ∧
      ({ s with table := t } : Shard).Good hash := by
  have hlt : (s.terms.map (·.cell hash s.bytes)).length < n := by
    have hpos := hn.pos
    have hle := fits_iff.mp hfits
    rw [List.length_map]
    omega
  obtain ⟨t, ht, hlen, hholds⟩ := h.kept.holds.resize hn hlt
  refine ⟨t, ?_, hlen, ?_, h.ones, h.lists, h.emptied, h.places⟩
  · rw [resize, ht]
    rfl
  · exact { h.kept with
      holds := hholds
      slots := Or.inr (hlen.symm ▸ hn)
      roomy := hlen.symm ▸ hfits }

/-- A new word has room among the places. -/
theorem Good.room (h : s.Good hash) (hnew : ∀ τ ∈ s.terms, τ.word s.bytes ≠ w)
    (hsmall : (s.bytes ++ stored w).length < 2 ^ 32) : s.terms.length + 1 ≤ MOST := by
  have hle := words_le (W := w :: s.terms.map (·.word s.bytes))
    (List.nodup_cons.mpr ⟨fun hmem => by
      obtain ⟨τ, hτ, heq⟩ := List.mem_map.mp hmem
      exact hnew τ hτ heq, h.kept.words⟩) (by
    have harena := h.kept.arena
    rw [List.length_append] at hsmall
    rw [List.map_cons, List.sum_cons, List.map_map]
    have hsum :
        (s.terms.map ((fun w => (stored w).length) ∘ fun τ => τ.word s.bytes)).sum + s.dead =
        s.bytes.length := harena
    omega)
  rwa [List.length_cons, List.length_map] at hle

/-- **A term more**, its word at the end of the arena and its slot in the table. -/
theorem arrive_spec (h : s.Good hash) {u : Shard} {t : Table} {τ : Term}
    (hnew : ∀ σ ∈ s.terms, σ.word s.bytes ≠ w)
    (hroom : fits (s.terms.length + 1) s.table.slots.length = true)
    (hfull : s.bytes.length + w.length + 5 ≤ 2 ^ 32 - 1)
    (hterms : u.terms.Perm (τ :: s.terms)) (hbytes : u.bytes = s.bytes ++ stored w)
    (hdead : u.dead = s.dead) (hat : τ.at_ = s.bytes.length)
    (htally : ∃ m, Tally τ.postings m)
    (hlist : τ.place.list = true → 2 ≤ τ.postings.docs.length)
    (hones : Unused One.live u.ones u.free) (hlists : Unused TermList.live u.lists u.spare)
    (hemptied : ∀ l ∈ u.lists, l.live = false → l.tfs = [])
    (hplaces : u.ones.length ≤ MOST ∧ u.lists.length ≤ MOST) (hplace : τ.place.i < PLACES)
    (hlen : t.slots.length = s.table.slots.length)
    (hholds : t.Holds ((slot (hash w).tag τ.place, (hash w).h2) ::
      s.terms.map (Term.cell hash s.bytes))) :
    ({ u with table := t } : Shard).Good hash ∧
      ({ u with table := t } : Shard).entries.Perm ((w, τ.postings) :: s.entries) := by
  have hsmall : (s.bytes ++ stored w).length < 2 ^ 32 := by
    have hstored := (stored_length (w := w) (by omega)).2
    rw [List.length_append]
    omega
  have hsize : Size s.table.slots.length := h.kept.slots.resolve_left fun h0 => by
    have hle := fits_iff.mp hroom
    omega
  obtain ⟨hkept, hword, hold⟩ := h.kept.add hat hnew hsmall htally hlist
    hplace hholds (hlen ▸ hsize) (hlen ▸ hroom)
  refine ⟨⟨?_, hones, hlists, hemptied, hplaces⟩, ?_⟩
  · dsimp only
    rw [hbytes, hdead]
    exact hkept.perm hterms.symm
  · have hmap := hterms.map (Term.entry (s.bytes ++ stored w))
    have hsame : s.terms.map (Term.entry (s.bytes ++ stored w)) = s.entries :=
      List.map_congr_left fun σ hσ => by rw [Term.entry, Term.entry, hold σ hσ]
    rw [List.map_cons, Term.entry, hword, hsame] at hmap
    rw [entries]
    dsimp only
    rw [hbytes]
    exact hmap

/-- A new word's place has its bits in a slot. -/
theorem place_lt {u : Shard} {τ : Term} {T : List Term} (hterms : u.terms.Perm (τ :: T))
    (hplaces : u.ones.length ≤ MOST ∧ u.lists.length ≤ MOST) : τ.place.i < PLACES := by
  rcases mem_terms.mp (hterms.mem_iff.mpr List.mem_cons_self) with ⟨-, hi, -⟩ | ⟨-, hi, -⟩
  · exact (u32_place hi hplaces.1).1
  · exact (u32_place hi hplaces.2).1

/-- **A word put in a free slot.** -/
theorem put_spec (hlow : ∀ w, (hash w).h2 < EMPTY) (h : s.Good hash) (hv : s.Vacant hash w e)
    (doc : DocId) (hroom : fits (s.terms.length + 1) s.table.slots.length = true)
    (hfull : s.bytes.length + w.length + 5 ≤ 2 ^ 32 - 1) :
    ∃ u p, (({ s with bytes := s.bytes ++ stored w } : Shard).hold
        ⟨u32 s.bytes.length, 1, doc⟩) = (u, p) ∧
      ({ u with table := u.table.put e (slot (hash w).tag p) (hash w).h2 } : Shard).Good hash ∧
      ({ u with table := u.table.put e (slot (hash w).tag p) (hash w).h2 } : Shard).entries.Perm
        ((w, ⟨[doc], [1], 1⟩) :: s.entries) := by
  have hsmall : (s.bytes ++ stored w).length < 2 ^ 32 := by
    have hstored := (stored_length (w := w) (by omega)).2
    rw [List.length_append]
    omega
  obtain ⟨ones, free, i, hhold, hunused, hterms, hlen⟩ :=
    hold_spec (s := { s with bytes := s.bytes ++ stored w })
      (t := ⟨u32 s.bytes.length, 1, doc⟩) h.ones rfl
  have hmost := h.room hv.new hsmall
  have hones : ones.length ≤ MOST := by
    rcases hlen with hlen | hlen
    · rw [hlen]
      exact h.places.1
    · exact Nat.le_trans hlen hmost
  have hplaces := place_lt hterms ⟨hones, h.places.2⟩
  have hsize : Size s.table.slots.length := h.kept.slots.resolve_left fun h0 => by
    have hlt := hv.lt
    omega
  have hholds := h.kept.holds.insert (v := slot (hash w).tag ⟨i, false⟩) (c := (hash w).h2) hsize
    hv.lt hv.free (slot_ne_zero hplaces) (hlow w) (by
      rw [← Table.home_tag (hash w) (tagOf_slot hplaces)]
      exact hv.taken)
  have hone : Tally ⟨[doc], [1], 1⟩ (OrdMap.empty.insert doc 1) :=
    tally_one.mpr ⟨rfl, by decide⟩
  have harrive := arrive_spec h (u := { s with
      bytes := s.bytes ++ stored w, ones := ones, free := free }) hv.new hroom hfull hterms rfl rfl
    (u32_of_lt h.kept.small) ⟨_, hone⟩ (fun hf => (by cases hf)) hunused h.lists h.emptied
    ⟨hones, h.places.2⟩ hplaces List.length_set hholds
  exact ⟨_, _, hhold, harrive⟩

/-- **A term of another shard put in this one**, where the table has room. -/
theorem place_spec (hlow : ∀ w, (hash w).h2 < EMPTY) (h : s.Good hash) {u : Shard} {τ : Term}
    (hnew : ∀ σ ∈ s.terms, σ.word s.bytes ≠ w)
    (hroom : fits (s.terms.length + 1) s.table.slots.length = true)
    (hfull : s.bytes.length + w.length + 5 ≤ 2 ^ 32 - 1)
    (hterms : u.terms.Perm (τ :: s.terms)) (hbytes : u.bytes = s.bytes ++ stored w)
    (hdead : u.dead = s.dead) (hat : τ.at_ = s.bytes.length)
    (htally : ∃ m, Tally τ.postings m)
    (hlist : τ.place.list = true → 2 ≤ τ.postings.docs.length)
    (hones : Unused One.live u.ones u.free) (hlists : Unused TermList.live u.lists u.spare)
    (hemptied : ∀ l ∈ u.lists, l.live = false → l.tfs = [])
    (hplaces : u.ones.length ≤ MOST ∧ u.lists.length ≤ MOST) :
    ∃ t, s.table.place (slot (hash w).tag τ.place) (hash w).h2 = some t ∧
      ({ u with table := t } : Shard).Good hash ∧
      ({ u with table := t } : Shard).entries.Perm ((w, τ.postings) :: s.entries) := by
  have hplace := place_lt hterms hplaces
  have hslots : s.table.slots.length ≠ 0 := fun h0 => by
    have hle := fits_iff.mp hroom
    omega
  obtain ⟨t, ht, hlen, hholds⟩ := h.kept.holds.place (v := slot (hash w).tag τ.place)
    (c := (hash w).h2) (h.kept.slots.resolve_left hslots)
    (by rw [List.length_map]; exact h.roomy hslots) (slot_ne_zero hplace) (hlow w)
  exact ⟨t, ht, arrive_spec h hnew hroom hfull hterms hbytes hdead hat htally hlist hones hlists
    hemptied hplaces hplace hlen hholds⟩

/-- **A table that would be too full** is one of twice the slots, or of the first group of them. -/
theorem twice_spec (h : s.Good hash) (hfits : ¬ fits (s.terms.length + 1) s.table.slots.length) :
    ∃ t, s.resize (max (s.table.slots.length * 2) GROUP) = .ok { s with table := t } ∧
      ({ s with table := t } : Shard).Good hash ∧ t.slots.length ≠ 0 ∧
      fits (s.terms.length + 1) t.slots.length = true := by
  have hmost := h.kept.length_le
  have hfew : MOST + 1 < 2 ^ 36 := by decide
  have hsize : Size (max (s.table.slots.length * 2) GROUP) ∧
      fits (s.terms.length + 1) (max (s.table.slots.length * 2) GROUP) = true := by
    have hroom := fits_iff.mp h.kept.roomy
    rcases h.kept.slots with h0 | hs
    · rw [h0, Nat.zero_mul, Nat.zero_max]
      exact ⟨⟨0, Nat.zero_le _, rfl⟩, fits_iff.mpr (by rw [GROUP]; omega)⟩
    · have hpos := hs.pos
      have hmax : max (s.table.slots.length * 2) GROUP = 2 * s.table.slots.length := by
        rw [GROUP]
        omega
      rw [hmax]
      exact ⟨hs.twice (Bool.not_eq_true _ ▸ hfits) (by omega), fits_iff.mpr (by omega)⟩
  have hfits' : fits s.terms.length (max (s.table.slots.length * 2) GROUP) = true := by
    have hle := fits_iff.mp hsize.2
    exact fits_iff.mpr (by omega)
  obtain ⟨t, hresize, hlen, hgood⟩ := resize_spec h hsize.1 hfits'
  refine ⟨t, hresize, hgood, ?_, hlen ▸ hsize.2⟩
  have hpos := hsize.1.pos
  omega

/-- **There comes to be room** for a word more. -/
theorem grow_spec (hlow : ∀ w, (hash w).h2 < EMPTY) (h : s.Good hash)
    (hnew : ∀ τ ∈ s.terms, τ.word s.bytes ≠ w)
    (hv : s.table.slots.length = 0 ∨ s.Vacant hash w e) :
    ∃ t e', s.grow (hash w) w e = .ok ({ s with table := t }, e') ∧
      ({ s with table := t } : Shard).Good hash ∧
      ({ s with table := t } : Shard).Vacant hash w e' ∧
      fits (s.terms.length + 1) t.slots.length = true := by
  unfold grow
  rw [h.len_eq]
  by_cases hfits : fits (s.terms.length + 1) s.table.slots.length = true
  · rw [if_pos hfits]
    refine ⟨s.table, e, rfl, h, hv.resolve_left fun h0 => ?_, hfits⟩
    have hle := fits_iff.mp hfits
    omega
  · rw [if_neg hfits]
    obtain ⟨t, hresize, hgood, hslots, hfits'⟩ := twice_spec h hfits
    rcases find_spec hlow hgood hslots w with ⟨e', τ, -, hn⟩ | ⟨e', hfind, hvacant⟩
    · exact absurd hn.word (hnew τ hn.mem)
    · refine ⟨t, e', ?_, hgood, hvacant, hfits'⟩
      rw [hresize]
      dsimp only [bind, Except.bind]
      rw [hfind]
      rfl

/-- **`add`** adds a word as a document's once, or the arena has no room for it. -/
theorem add_spec (hlow : ∀ w, (hash w).h2 < EMPTY) (h : s.Good hash) (doc : DocId)
    (hnew : ∀ τ ∈ s.terms, τ.word s.bytes ≠ w)
    (hv : s.table.slots.length = 0 ∨ s.Vacant hash w e) :
    s.add (hash w) w doc e = .error .full ∨ ∃ s', s.add (hash w) w doc e = .ok s' ∧
      s'.Good hash ∧ s'.entries.Perm ((w, ⟨[doc], [1], 1⟩) :: s.entries) := by
  obtain ⟨t, e', hgrow, hgood, hvacant, hroom⟩ := grow_spec hlow h hnew hv
  unfold add
  rw [hgrow]
  dsimp only [bind, Except.bind, putWord]
  by_cases hfull : s.bytes.length + w.length + 5 ≤ 2 ^ 32 - 1
  · obtain ⟨u, p, hhold, hgood', hentries⟩ :=
      put_spec hlow hgood hvacant doc hroom hfull
    refine Or.inr ⟨_, ?_, hgood', hentries⟩
    rw [if_pos hfull]
    dsimp only
    rw [hhold]
    rfl
  · left
    rw [if_neg hfull]

end Adding

end Shard

/-! ## 5. The arena written again -/

section Compact

variable {bytes bytes' : List UInt8} {dead : Nat} {t : Table} {T T' : List Term} {τ τ' : Term}

/-- A term whose word lies elsewhere in another arena. -/
structure Moved (bytes bytes' : List UInt8) (τ τ' : Term) : Prop where
  place : τ'.place = τ.place
  postings : τ'.postings = τ.postings
  stored : StoredAt bytes' τ'.at_ (τ.word bytes)

theorem Moved.word (h : Moved bytes bytes' τ τ') : τ'.word bytes' = τ.word bytes := by
  rw [Term.word, wordAt_stored h.stored]

theorem Moved.append (h : Moved bytes bytes' τ τ') (r : List UInt8) :
    Moved bytes (bytes' ++ r) τ τ' := ⟨h.place, h.postings, h.stored.append r⟩

/-- What is the same of each is the same of all. -/
theorem map_eq_of_forall₂ {α β γ : Type} {r : α → β → Prop} {f : α → γ} {g : β → γ} {l : List α}
    {l' : List β} (h : List.Forall₂ r l l') (hfg : ∀ a b, r a b → g b = f a) :
    l'.map g = l.map f := by
  induction h with
  | nil => rfl
  | cons hab _ ih => rw [List.map_cons, List.map_cons, hfg _ _ hab, ih]

/-- What each of a list is from one of another. -/
theorem mem_of_forall₂ {α β : Type} {r : α → β → Prop} {l : List α} {l' : List β}
    (h : List.Forall₂ r l l') {b : β} (hb : b ∈ l') : ∃ a ∈ l, r a b := by
  induction h with
  | nil => cases hb
  | cons hab _ ih =>
    rcases List.mem_cons.mp hb with rfl | hb
    · exact ⟨_, List.mem_cons_self, hab⟩
    · obtain ⟨a, ha, hr⟩ := ih hb
      exact ⟨a, List.mem_cons_of_mem _ ha, hr⟩

/-- **Words moved to an arena of no more** leave no byte dead. -/
theorem Kept.moved (h : Kept hash bytes dead t T) (hT : List.Forall₂ (Moved bytes bytes') T T')
    (hlen : bytes'.length = (T.map fun τ => (Text.stored (τ.word bytes)).length).sum) :
    Kept hash bytes' 0 t T' where
  stored τ' hτ := by
    obtain ⟨τ, -, hm⟩ := mem_of_forall₂ hT hτ
    rw [hm.word]
    exact hm.stored
  words := by
    rw [map_eq_of_forall₂ hT fun _ _ hm => hm.word]
    exact h.words
  arena := by
    rw [map_eq_of_forall₂ (f := fun τ => (Text.stored (τ.word bytes)).length) hT
      fun _ _ hm => by rw [hm.word], hlen, Nat.add_zero]
  small := by
    have harena := h.arena
    have hsmall := h.small
    omega
  tallied τ' hτ := by
    obtain ⟨τ, hmem, hm⟩ := mem_of_forall₂ hT hτ
    rw [hm.postings, hm.place]
    exact h.tallied τ hmem
  placed τ' hτ := by
    obtain ⟨τ, hmem, hm⟩ := mem_of_forall₂ hT hτ
    rw [hm.place]
    exact h.placed τ hmem
  holds := by
    rw [map_eq_of_forall₂ (f := Term.cell hash bytes) hT
      fun _ _ hm => by rw [Term.cell, Term.cell, hm.word, hm.place]]
    exact h.holds
  slots := h.slots
  roomy := by
    rw [← hT.length_eq]
    exact h.roomy

/-- A stored word's bytes, taken out of the arena. -/
theorem slice_stored {at_ : Nat} {w : List UInt8} (h : StoredAt bytes at_ w) :
    (slice bytes at_ (wordAt bytes at_).2).getD [] = stored w := by
  obtain ⟨r, hr⟩ := h
  have hlen := congrArg List.length hr
  rw [List.length_append, List.length_drop] at hlen
  have hpos : 0 < (stored w).length := by
    rw [stored, List.length_append]
    exact Nat.lt_of_lt_of_le (uvarint_pos _) (Nat.le_add_right _ _)
  rw [wordAt_stored ⟨r, hr⟩, slice, if_pos (by omega), Nat.add_sub_cancel_left, Option.getD_some,
    ← hr, List.take_left]

/-- **A copy of live items' words**: each term's word lies in the copy, which is as long as they
are. -/
theorem recopy_spec {α : Type} {live : α → Bool} (at_ : α → Nat) (moved : α → Nat → α)
    (f : α → Nat → Option Term) (hdead : ∀ a i, live a = false → f a i = none)
    (hlive : ∀ a i, live a = true → ∃ τ : Term, f a i = some τ ∧ τ.at_ = at_ a ∧
      ∀ n, live (moved a n) = true ∧ f (moved a n) i = some { τ with at_ := n }) :
    ∀ (l : List α) (k : Nat) (out : List UInt8),
      (∀ τ ∈ placedFrom f l k, StoredAt bytes τ.at_ (τ.word bytes)) →
      out.length + ((placedFrom f l k).map fun τ => (stored (τ.word bytes)).length).sum < 2 ^ 32 →
      ∃ l' r, recopy live at_ moved bytes l out = (l', out ++ r) ∧
        List.Forall₂ (fun a b => b = a ∧ live a = false ∨
          live a = true ∧ ∃ n, b = moved a n) l l' ∧
        List.Forall₂ (Moved bytes (out ++ r)) (placedFrom f l k) (placedFrom f l' k) ∧
        r.length = ((placedFrom f l k).map fun τ => (stored (τ.word bytes)).length).sum
  | [], k, out, _, _ => ⟨[], [], by rw [List.append_nil]; rfl, .nil, .nil, rfl⟩
  | a :: l, k, out, hstored, hsmall => by
    rw [placedFrom_cons] at hstored hsmall ⊢
    by_cases ha : live a = true
    · obtain ⟨τ, hterm, hat, hmoved⟩ := hlive a k ha
      rw [hterm, Option.toList_some, List.singleton_append] at hstored hsmall ⊢
      rw [List.map_cons, List.sum_cons] at hsmall ⊢
      have hword := hstored τ List.mem_cons_self
      obtain ⟨l', r, hrec, hitems, hterms, hlen⟩ := recopy_spec at_ moved f hdead hlive l (k + 1)
        (out ++ stored (τ.word bytes)) (fun σ hσ => hstored σ (List.mem_cons_of_mem _ hσ))
        (by rw [List.length_append]; omega)
      have hu32 : u32 out.length = out.length := u32_of_lt (by omega)
      refine ⟨moved a out.length :: l', stored (τ.word bytes) ++ r, ?_, ?_, ?_, ?_⟩
      · rw [recopy, if_pos ha, ← hat, slice_stored hword, hrec, hu32, List.append_assoc]
      · exact .cons (Or.inr ⟨ha, _, rfl⟩) hitems
      · rw [placedFrom_cons, (hmoved out.length).2, Option.toList_some, List.singleton_append,
          ← List.append_assoc]
        exact .cons ⟨rfl, rfl, storedAt_end out (τ.word bytes) r⟩ hterms
      · rw [List.length_append, hlen]
    · have ha : live a = false := Bool.not_eq_true _ ▸ ha
      rw [hdead a k ha, Option.toList_none, List.nil_append] at hstored hsmall ⊢
      obtain ⟨l', r, hrec, hitems, hterms, hlen⟩ :=
        recopy_spec at_ moved f hdead hlive l (k + 1) out hstored hsmall
      refine ⟨a :: l', r, ?_, .cons (Or.inl ⟨rfl, ha⟩) hitems, ?_, hlen⟩
      · rw [recopy, if_neg (by rw [ha]; exact Bool.false_ne_true), hrec]
      · rw [placedFrom_cons, hdead a k ha, Option.toList_none, List.nil_append]
        exact hterms

/-- A place that is held still is, and one that is free still is. -/
theorem Unused.recopied {α : Type} {live : α → Bool} {moved : α → Nat → α} {l l' : List α}
    {free : List Nat} (h : Unused live l free)
    (hl : List.Forall₂ (fun a b => b = a ∧ live a = false ∨ live a = true ∧ ∃ n, b = moved a n)
      l l') (hmoved : ∀ a n, live a = true → live (moved a n) = true) :
    Unused live l' free := by
  have hlen := hl.length_eq
  refine ⟨h.nodup, fun i => (h.mem i).trans ?_⟩
  have hsame : ∀ (hi : i < l.length) (hi' : i < l'.length), live l'[i] = live l[i] := by
    intro hi hi'
    rcases (List.forall₂_iff_get.mp hl).2 i hi hi' with ⟨heq, -⟩ | ⟨hlive, n, heq⟩
    · exact congrArg live heq
    · have hi_live : live l[i] = true := hlive
      have h' : live l'[i] = live (moved l[i] n) := congrArg live heq
      rw [h', hmoved _ _ hi_live, hi_live]
  constructor
  · rintro ⟨hi, hd⟩
    exact ⟨hlen ▸ hi, by rw [hsame hi (hlen ▸ hi)]; exact hd⟩
  · rintro ⟨hi, hd⟩
    exact ⟨hlen ▸ hi, by rw [← hsame (hlen ▸ hi) hi]; exact hd⟩

/-- **`compact`** leaves every word its documents, and no byte dead. -/
theorem Shard.compact_spec {s : Shard} (h : s.Good hash) :
    s.compact.Good hash ∧ s.compact.entries = s.entries ∧ s.compact.dead = 0 := by
  have harena := h.kept.arena
  have hsmall := h.kept.small
  have hones : ∀ τ ∈ placed One.term s.ones, StoredAt s.bytes τ.at_ (τ.word s.bytes) :=
    fun τ hτ => h.kept.stored τ (List.mem_append_left _ hτ)
  have hlists : ∀ τ ∈ placed TermList.term s.lists, StoredAt s.bytes τ.at_ (τ.word s.bytes) :=
    fun τ hτ => h.kept.stored τ (List.mem_append_right _ hτ)
  rw [terms, List.map_append, List.sum_append] at harena
  obtain ⟨ones, r, hrec, hitems, hterms, hlen⟩ := recopy_spec One.at_
    (fun t at_ => { t with at_ := at_ }) One.term
    (fun a i ha => One.term_dead ha i)
    (fun a i ha => ⟨_, One.term_live ha i, rfl, fun n =>
      ⟨ha, One.term_live (t := { a with at_ := n }) ha i⟩⟩) s.ones 0 [] hones (by
      unfold placed at harena
      rw [List.length_nil]
      omega)
  obtain ⟨lists, r', hrec', hitems', hterms', hlen'⟩ := recopy_spec TermList.at_
    (fun l at_ => { l with at_ := at_ }) TermList.term
    (fun a i ha => TermList.term_dead ha i)
    (fun a i ha => ⟨_, TermList.term_live ha i, rfl, fun n =>
      ⟨ha, TermList.term_live (l := { a with at_ := n }) ha i⟩⟩) s.lists 0 ([] ++ r) hlists (by
      unfold placed at harena
      rw [List.nil_append, hlen]
      omega)
  have hcompact : s.compact = { s with
      ones := ones, lists := lists, bytes := [] ++ r ++ r', dead := 0 } := by
    rw [compact, hrec]
    dsimp only
    rw [hrec']
  have hT : List.Forall₂ (Moved s.bytes ([] ++ r ++ r')) s.terms
      (placed One.term ones ++ placed TermList.term lists) :=
    List.rel_append (hterms.imp fun _ _ hm => hm.append r') hterms'
  have hkept := h.kept.moved hT (by
    rw [List.length_append, List.nil_append, hlen, hlen', terms, List.map_append, List.sum_append]
    rfl)
  refine ⟨?_, ?_, by rw [hcompact]⟩
  · rw [hcompact]
    refine ⟨hkept, h.ones.recopied hitems fun _ _ ha => ha,
      h.lists.recopied hitems' fun _ _ ha => ha, fun l hl hdead => ?_, ?_⟩
    · obtain ⟨a, ha, hal⟩ := mem_of_forall₂ hitems' hl
      rcases hal with ⟨rfl, -⟩ | ⟨hlive, n, rfl⟩
      · exact h.emptied l ha hdead
      · exact absurd (hlive.symm.trans hdead) (by decide)
    · rw [← hitems.length_eq, ← hitems'.length_eq]
      exact h.places
  · rw [hcompact]
    exact map_eq_of_forall₂ (f := Term.entry s.bytes) hT fun _ _ hm => by
      rw [Term.entry, Term.entry, hm.word, hm.postings]

end Compact

/-! ## 6. A document less -/

namespace Shard

section Dropping

variable {s : Shard} {w : List UInt8} {e : Nat} {τ : Term} {doc : DocId} {m : OrdMap UInt32}

/-- **A word's last document dropped** takes the word with it, its bytes dead. -/
theorem dropDoc_last (h : s.Good hash) (hn : s.Names hash w e τ) (hone : τ.place.list = false)
    (hdoc : (s.one τ.place.i).doc = doc) :
    ∃ s', s.dropDoc e doc = .ok (s', true) ∧ s'.Good hash ∧
      s.entries.Perm ((w, τ.postings) :: s'.entries) := by
  obtain ⟨hi, hterm, hlive, hat, -, -⟩ := hn.one hone
  obtain ⟨-, hu32⟩ := u32_place hi h.places.1
  obtain ⟨R, hold, hnew⟩ := terms_set_one hi
  rw [hterm, Option.toList_some, List.singleton_append] at hold
  have hcells := hold.map (Term.cell hash s.bytes)
  rw [List.map_cons, ← hn.cell] at hcells
  have hslots : s.table.slots.length ≠ 0 := fun h0 => by
    have hlt := hn.lt
    omega
  obtain ⟨t, hclose, hlen, hholds⟩ := h.kept.holds.close (h.kept.slots.resolve_left hslots)
    (by rw [List.length_map]; exact h.roomy hslots) hn.lt hn.taken hcells
  have hend : (wordAt s.bytes (s.one τ.place.i).at_).2 - (s.one τ.place.i).at_ =
      (stored (τ.word s.bytes)).length := by
    rw [← hat, wordAt_stored (h.kept.stored τ hn.mem), Nat.add_sub_cancel_left]
  obtain ⟨u, hu⟩ : ∃ u : Shard, u = { s with
      table := t
      dead := s.dead + (stored (τ.word s.bytes)).length
      ones := s.ones.set τ.place.i { s.one τ.place.i with tf := 0 }
      free := s.free ++ [τ.place.i] } := ⟨_, rfl⟩
  have hdead : One.live { s.one τ.place.i with tf := 0 } = false := rfl
  have hterms := hnew { s.one τ.place.i with tf := 0 } u (by rw [hu]) (by rw [hu])
  rw [One.term_dead hdead, Option.toList_none, List.nil_append] at hterms
  have hgood : u.Good hash := by
    have hkept := (h.kept.perm hold).drop hholds hlen
    rw [hu] at hterms ⊢
    refine ⟨hkept.perm hterms.symm, h.ones.push hi (by rwa [← one_eq hi]) hdead, h.lists,
      h.emptied, ?_, h.places.2⟩
    dsimp only
    rw [List.length_set]
    exact h.places.1
  have hentries : s.entries.Perm ((w, τ.postings) :: u.entries) := by
    have hmap := hold.map (Term.entry s.bytes)
    have hbytes : u.bytes = s.bytes := by rw [hu]
    rw [List.map_cons, Term.entry, hn.word] at hmap
    rw [entries, entries, hbytes]
    exact hmap.trans ((hterms.symm.map _).cons _)
  have hdrop : s.dropDoc e doc =
      .ok (if u.bytes.length < u.dead * 2 then u.compact else u, true) := by
    rw [dropDoc, hn.place h]
    dsimp only
    rw [if_neg (by rw [hone]; exact Bool.false_ne_true), if_neg (by simp [hdoc]), hclose, ended]
    dsimp only [bind, Except.bind, pure, Except.pure]
    rw [hend, release, hu32, hu]
    rfl
  refine ⟨_, hdrop, ?_⟩
  by_cases hfull : u.bytes.length < u.dead * 2
  · rw [if_pos hfull]
    obtain ⟨hcompact, hsame, -⟩ := compact_spec hgood
    exact ⟨hcompact, hsame ▸ hentries⟩
  · rw [if_neg hfull]
    exact ⟨hgood, hentries⟩

/-- **A list of one document left** is that document's alone. -/
theorem dropDoc_unlist (h : s.Good hash) (hn : s.Names hash w e τ) (hlist : τ.place.list = true)
    {l : TermList} (hat : l.at_ = (s.list τ.place.i).at_) (hm : Tally l.view m)
    (hlen : l.docs.length = 1) :
    ∃ u q, (({ s with lists := s.lists.set τ.place.i l } : Shard).spareList τ.place.i).hold
        ⟨l.at_, l.tfs.getD 0 0, l.docs.getD 0 0⟩ = (u, q) ∧ u.table = s.table ∧
      ({ u with table := u.table.setSlot e (slot (tagOf (s.table.slotAt e)) q) } :
        Shard).Good hash ∧
      ∃ p, Tally p m ∧ Rewrites s
        { u with table := u.table.setSlot e (slot (tagOf (s.table.slotAt e)) q) } w τ.postings
          p := by
  obtain ⟨hi, hterm, hlive, hτat, hplace, -⟩ := hn.list hlist
  obtain ⟨-, hu32⟩ := u32_place hi h.places.2
  -- the one document left
  obtain ⟨⟨d, n⟩, hentries⟩ : ∃ e, m.entries = [e] :=
    List.length_eq_one_iff.mp (hm.length.symm.trans hlen)
  have hdocs : l.docs = [d] := by
    have hkeys : l.docs = m.keys := hm.docs
    rw [hkeys, OrdMap.keys, hentries]
    rfl
  have htfs : l.tfs = [n] := by
    have hvalues : l.tfs = m.entries.map (·.2) := hm.tfs
    rw [hvalues, hentries]
    rfl
  have hn0 : n ≠ 0 := hm.counted (d, n) (by rw [hentries]; exact List.mem_cons_self)
  have hone : Tally ⟨[d], [n], n⟩ m := tally_one.mpr ⟨hentries, hn0⟩
  -- the list's place let go
  obtain ⟨R, hold, hnew⟩ := terms_set_list hi
  rw [hterm, Option.toList_some, List.singleton_append] at hold
  obtain ⟨a, ha⟩ : ∃ a : TermList, a = { l with docs := [], tfs := [], maxTf := 0 } := ⟨_, rfl⟩
  have hdead : a.live = false := by rw [ha]; rfl
  obtain ⟨v, hv⟩ : ∃ v : Shard, v = { s with
      lists := s.lists.set τ.place.i a, spare := s.spare ++ [τ.place.i] } := ⟨_, rfl⟩
  have hspare : ({ s with lists := s.lists.set τ.place.i l } : Shard).spareList τ.place.i = v := by
    have hget : ({ s with lists := s.lists.set τ.place.i l } : Shard).list τ.place.i = l := by
      rw [list_eq (by dsimp only; rwa [List.length_set])]
      exact List.getElem_set_self _
    rw [spareList, hget, hu32, List.set_set, hv, ha]
  have hrest := hnew a v (by rw [hv]) (by rw [hv])
  rw [TermList.term_dead hdead, Option.toList_none, List.nil_append] at hrest
  have hvones : v.ones = s.ones ∧ v.free = s.free := by rw [hv]; exact ⟨rfl, rfl⟩
  have hlive1 : One.live ⟨l.at_, n, d⟩ = true := bne_iff_ne.mpr hn0
  obtain ⟨ones, free, i, hhold, hunused, hterms, hmost⟩ := hold_spec (s := v)
    (t := ⟨l.at_, n, d⟩) (by rw [hvones.1, hvones.2]; exact h.ones) hlive1
  have hones : ones.length ≤ MOST := by
    rcases hmost with hmost | hmost
    · rw [hmost, hvones.1]
      exact h.places.1
    · have hall := h.kept.length_le
      rw [hold.length_eq, List.length_cons] at hall
      rw [hrest.length_eq] at hmost
      omega
  have hall := hterms.trans (hrest.cons _)
  have hi' : i < ones.length := by
    rcases mem_terms.mp (hterms.mem_iff.mpr List.mem_cons_self) with ⟨-, hi, -⟩ | ⟨hf, -⟩
    · exact hi
    · cases hf
  have hq := (u32_place hi' hones).1
  refine ⟨{ v with ones := ones, free := free }, ⟨i, false⟩, ?_, by rw [hv], ?_, _, hone, ?_⟩
  · rw [hspare, hdocs, htfs]
    exact hhold
  · have hholds := hn.setSlot h hold (q := ⟨i, false⟩) hq
    have hcell : Term.cell hash s.bytes ⟨⟨i, false⟩, l.at_, [d], [n], n⟩ =
        (slot (hash w).tag ⟨i, false⟩, (hash w).h2) := by
      rw [Term.cell, Term.word_congr (τ := τ) (hat.trans hτat.symm), hn.word]
    rw [← hcell] at hholds
    have hkept := (h.kept.perm hold).replace (hat.trans hτat.symm) ⟨m, hone⟩
      (fun hf => (by cases hf)) hq hholds List.length_set
    rw [hv] at hall ⊢
    refine ⟨hkept.perm hall.symm, hunused, ?_, ?_, hones, ?_⟩
    · exact h.lists.push hi (by rwa [← list_eq hi]) hdead
    · intro b hb hnot
      rcases List.mem_or_eq_of_mem_set hb with hb | rfl
      · exact h.emptied b hb hnot
      · rw [ha]
    · dsimp only
      rw [List.length_set]
      exact h.places.2
  · rw [hv] at hall ⊢
    have hrew : Rewrites s { s with
        lists := s.lists.set τ.place.i a, spare := s.spare ++ [τ.place.i], ones := ones,
        free := free,
        table := s.table.setSlot e (slot (tagOf (s.table.slotAt e)) ⟨i, false⟩) }
        (τ.word s.bytes) τ.postings ⟨[d], [n], n⟩ :=
      rewrites_of_terms hold hall rfl (hat.trans hτat.symm)
    rwa [hn.word] at hrew

theorem erase_of_get_none (h : m.get doc = none) : m.erase doc = m := by
  refine OrdMap.ext_get fun k => ?_
  rw [OrdMap.get_erase]
  by_cases hk : k = doc
  · rw [if_pos hk, hk, h]
  · rw [if_neg hk]

/-- Of two documents one is left at least. -/
theorem length_erase (m : OrdMap UInt32) (doc : DocId) :
    m.entries.length ≤ (m.erase doc).entries.length + 1 := by
  cases hget : m.get doc with
  | none =>
    rw [erase_of_get_none hget]
    exact Nat.le_succ _
  | some n => rw [(OrdMap.erase_perm hget).length_eq, List.length_cons]

/-- **`drop_doc`** takes a document out of a word's, and with the last the word. -/
theorem dropDoc_spec (h : s.Good hash) (hn : s.Names hash w e τ) (hm : Tally τ.postings m)
    (doc : DocId) :
    ∃ s' gone, s.dropDoc e doc = .ok (s', gone) ∧ s'.Good hash ∧
      ((gone = false ∧ (m.erase doc).entries ≠ [] ∧
          ∃ p, Tally p (m.erase doc) ∧ Rewrites s s' w τ.postings p) ∨
        (gone = true ∧ (m.erase doc).entries = [] ∧
          s.entries.Perm ((w, τ.postings) :: s'.entries))) := by
  cases hlist : τ.place.list with
  | false =>
    obtain ⟨hi, hterm, -, -, -, hpost⟩ := hn.one hlist
    obtain ⟨hentries, -⟩ := tally_one.mp (hpost ▸ hm)
    by_cases hdoc : (s.one τ.place.i).doc = doc
    · obtain ⟨s', hdrop, hgood, hrest⟩ := dropDoc_last h hn hlist hdoc
      refine ⟨s', true, hdrop, hgood, Or.inr ⟨rfl, ?_, hrest⟩⟩
      have herase : (m.erase doc).entries = m.entries.filter fun e => e.1 != doc := rfl
      rw [herase, hentries, hdoc]
      simp
    · have hget : m.get doc = none := by
        cases hget : m.get doc with
        | none => rfl
        | some n =>
          have hmem := OrdMap.mem_entries_iff.mpr hget
          rw [hentries] at hmem
          exact absurd (congrArg Prod.fst (List.mem_singleton.mp hmem)).symm hdoc
      obtain ⟨R, hold, -⟩ := terms_set_one hi
      rw [hterm, Option.toList_some, List.singleton_append] at hold
      refine ⟨s, false, ?_, h, Or.inl ⟨rfl, ?_, τ.postings, ?_, ?_⟩⟩
      · rw [dropDoc, hn.place h]
        dsimp only
        rw [if_neg (by rw [hlist]; exact Bool.false_ne_true), if_pos hdoc]
      · rw [erase_of_get_none hget, hentries]
        exact List.cons_ne_nil _ _
      · rwa [erase_of_get_none hget]
      · have hrew := rewrites_of_terms hold hold rfl rfl
        rwa [hn.word] at hrew
  | true =>
    obtain ⟨-, -, -, -, -, hview⟩ := hn.list hlist
    have htwo := (h.kept.tallied τ hn.mem).2 hlist
    rw [hm.length] at htwo
    have hm' : Tally ((s.list τ.place.i).dropDoc doc).view (m.erase doc) :=
      tally_dropDoc (hview ▸ hm)
    have hle := length_erase m doc
    have hlen : ((s.list τ.place.i).dropDoc doc).docs.length = (m.erase doc).entries.length :=
      hm'.length
    have hne : (m.erase doc).entries ≠ [] := by
      intro hnil
      rw [hnil] at hle
      simp at hle
      omega
    have hat := dropDoc_at (s.list τ.place.i) doc
    by_cases hone : ((s.list τ.place.i).dropDoc doc).docs.length = 1
    · obtain ⟨u, q, hhold, htable, hgood, p, hp, hrew⟩ := dropDoc_unlist h hn hlist hat hm' hone
      refine ⟨_, false, ?_, hgood, Or.inl ⟨rfl, hne, p, hp, hrew⟩⟩
      rw [dropDoc, hn.place h]
      dsimp only
      rw [if_pos hlist, if_pos hone, hhold]
      dsimp only
      rw [htable]
    · obtain ⟨hgood, hrew⟩ := relist_spec h hn hlist hat hm' (by
        have hpos := List.length_pos_of_ne_nil hne
        rw [hm'.length]
        omega)
      refine ⟨_, false, ?_, hgood, Or.inl ⟨rfl, hne, _, hm', hrew⟩⟩
      rw [dropDoc, hn.place h]
      dsimp only
      rw [if_pos hlist, if_neg hone]

end Dropping

end Shard

/-! ## 7. The places closed up -/

section Close

variable {bytes : List UInt8} {dead : Nat} {t t' : Table} {T : List Term}

/-- A term at another place. -/
def Term.moveTo (τ : Term) (i : Nat) : Term := { τ with place := ⟨i, τ.place.list⟩ }

/-- **Each term's place renumbered.** -/
theorem Kept.renumber (h : Kept hash bytes dead t T) (ρ : Place → Nat)
    (hρ : ∀ τ ∈ T, ρ τ.place < PLACES)
    (ht : t'.Holds ((T.map fun τ => τ.moveTo (ρ τ.place)).map (Term.cell hash bytes)))
    (hlen : t'.slots.length = t.slots.length) :
    Kept hash bytes dead t' (T.map fun τ => τ.moveTo (ρ τ.place)) where
  stored τ' hτ := by
    obtain ⟨τ, hmem, rfl⟩ := List.mem_map.mp hτ
    exact h.stored τ hmem
  words := by
    rw [List.map_map]
    exact h.words
  arena := by
    rw [List.map_map]
    exact h.arena
  small := h.small
  tallied τ' hτ := by
    obtain ⟨τ, hmem, rfl⟩ := List.mem_map.mp hτ
    exact h.tallied τ hmem
  placed τ' hτ := by
    obtain ⟨τ, hmem, rfl⟩ := List.mem_map.mp hτ
    exact hρ τ hmem
  holds := ht
  slots := hlen ▸ h.slots
  roomy := by
    rw [List.length_map, hlen]
    exact h.roomy

/-- **The places that hold something, closed up**: each has the number of those before it. -/
theorem placedFrom_filter {α : Type} {live : α → Bool} {f : α → Nat → Option Term}
    (hdead : ∀ a i, live a = false → f a i = none)
    (hlive : ∀ a i, live a = true → ∃ τ : Term, f a i = some τ ∧ τ.place.i = i ∧
      ∀ j, f a j = some (τ.moveTo j)) :
    ∀ (l : List α) (k n : Nat), n + l.length ≤ 2 ^ 32 →
      (∀ τ ∈ placedFrom f l k, k ≤ τ.place.i ∧ τ.place.i < k + l.length ∧
        (ranks live l n).getD (τ.place.i - k) 0 < n + l.length) ∧
      placedFrom f (l.filter live) n = (placedFrom f l k).map fun τ =>
        τ.moveTo ((ranks live l n).getD (τ.place.i - k) 0)
  | [], k, n, _ => ⟨fun τ hτ => (by cases hτ), rfl⟩
  | a :: l, k, n, hn => by
    rw [List.length_cons] at hn ⊢
    have hstep : ∀ {m : Nat} {τ : Term}, (ranks live (a :: l) n).tail = ranks live l m →
        k + 1 ≤ τ.place.i → (ranks live (a :: l) n).getD (τ.place.i - k) 0 =
          (ranks live l m).getD (τ.place.i - (k + 1)) 0 := by
      intro m τ hm hle
      obtain ⟨j, hj⟩ : ∃ j, τ.place.i = k + 1 + j := ⟨τ.place.i - (k + 1), by omega⟩
      have h1 : τ.place.i - k = j + 1 := by omega
      have h2 : τ.place.i - (k + 1) = j := by omega
      rw [h1, h2, ← hm]
      cases ranks live (a :: l) n with
      | nil => rfl
      | cons r rs => rfl
    by_cases ha : live a = true
    · obtain ⟨τ, hterm, hi, hmove⟩ := hlive a k ha
      obtain ⟨hbound, heq⟩ := placedFrom_filter hdead hlive l (k + 1) (n + 1) (by omega)
      have htail : (ranks live (a :: l) n).tail = ranks live l (n + 1) := by
        rw [ranks, if_pos ha, List.tail_cons]
      have hfirst : (ranks live (a :: l) n).getD (τ.place.i - k) 0 = n := by
        rw [hi, Nat.sub_self, ranks, if_pos ha]
        exact u32_of_lt (by omega)
      rw [placedFrom_cons, hterm, Option.toList_some, List.singleton_append]
      constructor
      · intro σ hσ
        rcases List.mem_cons.mp hσ with rfl | hσ
        · rw [hfirst]
          omega
        · obtain ⟨h1, h2, h3⟩ := hbound σ hσ
          rw [hstep htail h1]
          omega
      · rw [List.filter_cons_of_pos ha, placedFrom_cons, hmove n, Option.toList_some,
          List.singleton_append, List.map_cons, hfirst, heq]
        congr 1
        exact List.map_congr_left fun σ hσ => by rw [hstep htail (hbound σ hσ).1]
    · have ha' : live a = false := Bool.not_eq_true _ ▸ ha
      obtain ⟨hbound, heq⟩ := placedFrom_filter hdead hlive l (k + 1) n (by omega)
      have htail : (ranks live (a :: l) n).tail = ranks live l n := by
        rw [ranks, if_neg ha, List.tail_cons]
      rw [placedFrom_cons, hdead a k ha', Option.toList_none, List.nil_append]
      constructor
      · intro σ hσ
        obtain ⟨h1, h2, h3⟩ := hbound σ hσ
        rw [hstep htail h1]
        omega
      · rw [List.filter_cons_of_neg ha, heq]
        exact List.map_congr_left fun σ hσ => by rw [hstep htail (hbound σ hσ).1]

theorem unused_filter {α : Type} (live : α → Bool) (l : List α) :
    Unused live (l.filter live) [] := by
  refine ⟨List.nodup_nil, fun i => iff_of_false List.not_mem_nil ?_⟩
  rintro ⟨hi, hdead⟩
  have hlive := (List.mem_filter.mp (List.getElem_mem hi)).2
  rw [hdead] at hlive
  cases hlive

/-- **`close_up`** leaves every word its documents, and no place free. -/
theorem Shard.closeUp_spec {s : Shard} (h : s.Good hash) :
    s.closeUp.Good hash ∧ s.closeUp.entries = s.entries ∧ s.closeUp.free = [] ∧
      s.closeUp.spare = [] := by
  have hmost := h.places
  have hfew : MOST < 2 ^ 32 := by decide
  obtain ⟨hones, heq⟩ := placedFrom_filter (f := One.term) (fun a i ha => One.term_dead ha i)
    (fun a i ha => ⟨_, One.term_live ha i, rfl, fun j => One.term_live ha j⟩) s.ones 0 0
    (by omega)
  obtain ⟨hlists, heq'⟩ := placedFrom_filter (f := TermList.term)
    (fun a i ha => TermList.term_dead ha i)
    (fun a i ha => ⟨_, TermList.term_live ha i, rfl, fun j => TermList.term_live ha j⟩)
    s.lists 0 0 (by omega)
  obtain ⟨ρ, hρ⟩ : ∃ ρ : Place → Nat, ρ = fun p => if p.list then
      (ranks TermList.live s.lists 0).getD p.i 0 else (ranks One.live s.ones 0).getD p.i 0 :=
    ⟨_, rfl⟩
  have hterms : s.closeUp.terms = s.terms.map fun τ => τ.moveTo (ρ τ.place) := by
    rw [terms, terms, List.map_append]
    congr 1
    · refine heq.trans (List.map_congr_left fun τ hτ => ?_)
      obtain ⟨i, hi, hterm⟩ := mem_placed.mp hτ
      obtain ⟨-, hτ⟩ := One.of_term hterm
      rw [hρ, hτ]
      rfl
    · refine heq'.trans (List.map_congr_left fun τ hτ => ?_)
      obtain ⟨i, hi, hterm⟩ := mem_placed.mp hτ
      obtain ⟨-, hτ⟩ := TermList.of_term hterm
      rw [hρ, hτ]
      rfl
  have hbound : ∀ τ ∈ s.terms, ρ τ.place < PLACES := by
    have hplaces : MOST < PLACES := by decide
    intro τ hτ
    rw [hρ]
    dsimp only
    rcases List.mem_append.mp hτ with hτ | hτ
    · have hlt := (hones τ hτ).2.2
      obtain ⟨i, hi, hterm⟩ := mem_placed.mp hτ
      obtain ⟨-, hτ⟩ := One.of_term hterm
      rw [hτ] at hlt ⊢
      rw [Nat.sub_zero] at hlt
      rw [if_neg Bool.false_ne_true]
      exact Nat.lt_trans (Nat.lt_of_lt_of_le hlt (by omega)) hplaces
    · have hlt := (hlists τ hτ).2.2
      obtain ⟨i, hi, hterm⟩ := mem_placed.mp hτ
      obtain ⟨-, hτ⟩ := TermList.of_term hterm
      rw [hτ] at hlt ⊢
      rw [Nat.sub_zero] at hlt
      rw [if_pos rfl]
      exact Nat.lt_trans (Nat.lt_of_lt_of_le hlt (by omega)) hplaces
  -- each slot names its term's new place
  obtain ⟨g, hg⟩ : ∃ g : UInt64 → UInt64, g = fun v =>
      if v ≠ 0 then slot (tagOf v) ⟨ρ (placeOf v), (placeOf v).list⟩ else v := ⟨_, rfl⟩
  have htable : s.closeUp.table = { s.table with slots := s.table.slots.map g } := by
    rw [hg, hρ]
    rfl
  have hslot : ∀ τ ∈ s.terms, g (slot (hash (τ.word s.bytes)).tag τ.place) =
      slot (hash (τ.word s.bytes)).tag ⟨ρ τ.place, τ.place.list⟩ := by
    intro τ hτ
    have hplace := h.kept.placed τ hτ
    rw [hg]
    dsimp only
    rw [if_pos (slot_ne_zero hplace), tagOf_slot hplace, placeOf_slot hplace]
  have hholds := h.kept.holds.mapSlots g (by rw [hg]; exact if_neg fun h0 => h0 rfl) (by
    intro vc hvc
    obtain ⟨τ, hτ, rfl⟩ := List.mem_map.mp hvc
    rw [Term.cell]
    dsimp only
    rw [hslot τ hτ, tagOf_slot (hbound τ hτ), tagOf_slot (h.kept.placed τ hτ)]
    exact ⟨slot_ne_zero (hbound τ hτ), rfl⟩)
  have hcells : (s.terms.map (Term.cell hash s.bytes)).map (fun vc => (g vc.1, vc.2)) =
      (s.terms.map fun τ => τ.moveTo (ρ τ.place)).map (Term.cell hash s.bytes) := by
    rw [List.map_map, List.map_map]
    refine List.map_congr_left fun τ hτ => ?_
    have hcell := hslot τ hτ
    exact Prod.ext hcell rfl
  rw [hcells] at hholds
  have hkept := h.kept.renumber ρ hbound hholds (List.length_map _)
  refine ⟨⟨?_, unused_filter One.live s.ones, unused_filter TermList.live s.lists, ?_, ?_⟩, ?_,
    rfl, rfl⟩
  · rw [hterms, htable]
    exact hkept
  · intro l hl hdead
    have hlive := (List.mem_filter.mp hl).2
    rw [hdead] at hlive
    cases hlive
  · have hle := List.length_filter_le One.live s.ones
    have hle' := List.length_filter_le TermList.live s.lists
    exact ⟨Nat.le_trans hle hmost.1, Nat.le_trans hle' hmost.2⟩
  · rw [entries, hterms, List.map_map]
    rfl

/-- A table of no terms placed anew is free. -/
theorem Table.Keeps.resize_nil (h : t.Keeps []) (n : Nat) : t.resize n = some (.free n) := by
  have hnil : ∀ vc ∈ t.slots.zip t.ctrl, vc.1 = 0 := by
    intro vc hvc
    by_contra hne
    have hmem : vc ∈ t.cells := List.mem_filter.mpr ⟨hvc, by simpa using hne⟩
    rw [h.cells.eq_nil] at hmem
    cases hmem
  unfold Table.resize
  revert hnil
  induction t.slots.zip t.ctrl with
  | nil => exact fun _ => rfl
  | cons vc l ih =>
    intro hnil
    rw [List.foldlM_cons, if_neg (by rw [hnil vc List.mem_cons_self]; simp)]
    exact ih fun vc' hvc' => hnil vc' (List.mem_cons_of_mem _ hvc')

namespace Shard

variable {s : Shard}

/-- No more slots than the words need. -/
theorem fit_spec (h : s.Good hash) :
    ∃ t, (if slotsFor s.len < s.table.slots.length then s.resize (slotsFor s.len) else .ok s) =
      .ok { s with table := t } ∧ ({ s with table := t } : Shard).Good hash := by
  by_cases hlt : slotsFor s.len < s.table.slots.length
  · rw [if_pos hlt, h.len_eq]
    by_cases hnone : s.terms.length = 0
    · have hnil : s.terms = [] := List.length_eq_zero_iff.mp hnone
      have hholds := h.kept.holds
      rw [hnil] at hholds
      have hzero : slotsFor s.terms.length = 0 := by rw [hnone]; rfl
      refine ⟨.free 0, ?_, ⟨?_, h.ones, h.lists, h.emptied, h.places⟩⟩
      · rw [hzero, resize, hholds.toKeeps.resize_nil]
        rfl
      · have hkept := h.kept
        have hterms : ({ s with table := .free 0 } : Shard).terms = s.terms := rfl
        rw [hterms, hnil]
        rw [hnil] at hkept
        exact { hkept with
          holds := Table.holds_free
          slots := Or.inl rfl
          roomy := rfl }
    · have hmost := h.kept.length_le
      have hfew : MOST < 2 ^ 36 := by decide
      obtain ⟨hsize, hfits⟩ := slotsFor_spec hnone (Nat.lt_of_le_of_lt hmost hfew)
      obtain ⟨t, hresize, -, hgood⟩ := resize_spec h hsize hfits
      exact ⟨t, hresize, hgood⟩
  · rw [if_neg hlt]
    exact ⟨s.table, rfl, h⟩

/-- **`shrink`** leaves every word its documents. -/
theorem shrink_spec (h : s.Good hash) :
    ∃ s', s.shrink = .ok s' ∧ s'.Good hash ∧ s'.entries = s.entries := by
  obtain ⟨u, hu, hgood, hentries⟩ : ∃ u,
      (if !s.free.isEmpty || !s.spare.isEmpty then s.closeUp else s) = u ∧ u.Good hash ∧
        u.entries = s.entries := by
    by_cases hfree : (!s.free.isEmpty || !s.spare.isEmpty) = true
    · obtain ⟨hgood, hentries, -⟩ := closeUp_spec h
      exact ⟨s.closeUp, if_pos hfree, hgood, hentries⟩
    · exact ⟨s, if_neg hfree, h, rfl⟩
  obtain ⟨v, hv, hgood', hentries'⟩ : ∃ v, (if 0 < u.dead then u.compact else u) = v ∧
      v.Good hash ∧ v.entries = u.entries := by
    by_cases hdead : 0 < u.dead
    · obtain ⟨hgood', hentries', -⟩ := compact_spec hgood
      exact ⟨u.compact, if_pos hdead, hgood', hentries'⟩
    · exact ⟨u, if_neg hdead, hgood, rfl⟩
  obtain ⟨t, hfit, hgood''⟩ := fit_spec hgood'
  refine ⟨{ v with table := t }, ?_, hgood'', hentries'.trans hentries⟩
  rw [shrink, hu, hv]
  exact hfit

end Shard

end Close

end Fenec.Text
