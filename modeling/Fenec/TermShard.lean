/-
# A shard of words

A shard is a table of slots, the terms they name in two arrays with their free places, and the arena
of their words.  What it stands for is its `terms`: what the places not free of the two arrays hold.
`Good` is what every write keeps: the table holds one slot for each term and no other, under its
word's hash; each term's word lies in the arena, the words are distinct, and they and the dead bytes
are all of it; a term's documents and counts are a map's; a place is free or holds a term; and every
place has its bits in a slot (`words_le`: an arena has not room for more words).
-/
import Fenec.TermStore

namespace Fenec.Text

open Lib Lib.Swar

/-! ## 1. The code -/

/-- How an operation may stop short: a loop is given more turns than it takes, so `turns` does not
come; `full` is the arena's assertion, a shard of words past 4 GiB. -/
inductive Stop where
  | turns
  | full
deriving DecidableEq

/-- A loop that ended. -/
def ended {α : Type} : Option α → Except Stop α
  | some a => .ok a
  | none => .error .turns

/-- `Shard`: a share of the words. -/
structure Shard where
  table : Table
  ones : List One
  free : List Nat
  lists : List TermList
  spare : List Nat
  bytes : List UInt8
  dead : Nat

/-- A slot named another place; its control byte stays. -/
def Table.setSlot (t : Table) (e : Nat) (v : UInt64) : Table := { t with slots := t.slots.set e v }

/-- `close_up`'s new places: how many live items are before each. -/
def ranks {α : Type} (live : α → Bool) : List α → Nat → List Nat
  | [], _ => []
  | a :: l, n => if live a then u32 n :: ranks live l (n + 1) else 0 :: ranks live l n

/-- `compact`'s copy of each live item's word, from the old arena to the end of the new one. -/
def recopy {α : Type} (live : α → Bool) (at_ : α → Nat) (moved : α → Nat → α) (old : List UInt8) :
    List α → List UInt8 → List α × List UInt8
  | [], out => ([], out)
  | a :: l, out =>
    if live a then
      let (l, out') := recopy live at_ moved old l
        (out ++ (slice old (at_ a) (wordAt old (at_ a)).2).getD [])
      (moved a (u32 out.length) :: l, out')
    else
      let (l, out') := recopy live at_ moved old l out
      (a :: l, out')

/-- A place of `ones` that is no free one. -/
def One.live (t : One) : Bool := t.tf != 0

/-- A place of `lists` that is no free one. -/
def TermList.live (l : TermList) : Bool := !l.docs.isEmpty

namespace Shard

/-- `Shard::default`. -/
def default : Shard := ⟨⟨[], []⟩, [], [], [], [], [], 0⟩

/-- `Shard::with_room`: its arrays' room is not modelled. -/
def withRoom (words : Nat) : Shard := { default with table := .free (slotsFor words) }

/-- `len`. -/
def len (s : Shard) : Nat := s.ones.length - s.free.length + s.lists.length - s.spare.length

/-- A place of `ones`. -/
def one (s : Shard) (i : Nat) : One := s.ones.getD i ⟨0, 0, 0⟩

/-- A place of `lists`. -/
def list (s : Shard) (i : Nat) : TermList := s.lists.getD i .default

/-- `at`: where the word of the term at a place starts. -/
def at_ (s : Shard) (p : Place) : Nat := if p.list then (s.list p.i).at_ else (s.one p.i).at_

/-- `find`: the slot of a word, or the first free one from its home. -/
def find (s : Shard) (h : Hash) (w : List UInt8) : Except Stop (Except Nat Nat) :=
  ended (s.table.find h fun p => isAt w s.bytes (s.at_ p))

/-- `postings`: the documents of the term in a slot. -/
def postings (s : Shard) (e : Nat) : Postings :=
  let p := placeOf (s.table.slotAt e)
  if p.list then (s.list p.i).view
  else
    let t := s.one p.i
    ⟨[t.doc], [t.tf], t.tf⟩

/-- `resize`. -/
def resize (s : Shard) (n : Nat) : Except Stop Shard :=
  (ended (s.table.resize n)).map fun table => { s with table := table }

/-- `put_word`: a word's bytes appended, and where they start. -/
def putWord (s : Shard) (w : List UInt8) : Except Stop (Shard × Nat) :=
  if s.bytes.length + w.length + 5 ≤ 2 ^ 32 - 1 then
    .ok ({ s with bytes := s.bytes ++ stored w }, u32 s.bytes.length)
  else .error .full

/-- `hold`: a place of `ones`, a free one first. -/
def hold (s : Shard) (t : One) : Shard × Place :=
  match s.free.getLast? with
  | some i => ({ s with free := s.free.dropLast, ones := s.ones.set i t }, ⟨i, false⟩)
  | none => ({ s with ones := s.ones ++ [t] }, ⟨s.ones.length, false⟩)

/-- `release`: a place of `ones`, free. -/
def release (s : Shard) (i : Nat) : Shard :=
  { s with ones := s.ones.set i { s.one i with tf := 0 }, free := s.free ++ [u32 i] }

/-- A place of `lists`, a spare one first. -/
def holdList (s : Shard) : Shard × Nat :=
  match s.spare.getLast? with
  | some i => ({ s with spare := s.spare.dropLast }, i)
  | none => ({ s with lists := s.lists ++ [.default] }, s.lists.length)

/-- `spare_list`: a list emptied and its place free.  Whether it keeps its room does not show. -/
def spareList (s : Shard) (i : Nat) : Shard :=
  { s with
    lists := s.lists.set i { s.list i with docs := [], tfs := [], maxTf := 0 }
    spare := s.spare ++ [u32 i] }

/-- `second`: a second document for the term in a slot, the two into a list of their own. -/
def second (s : Shard) (e : Nat) (doc : DocId) : Shard :=
  let v := s.table.slotAt e
  let p := placeOf v
  let t := s.one p.i
  let (s, i) := s.holdList
  let l := s.list i
  let l := { l with
    at_ := t.at_, maxTf := t.tf, docs := l.docs ++ [t.doc], tfs := l.tfs ++ [t.tf] }
  let s := { s with
    lists := s.lists.set i (l.bump doc)
    table := s.table.setSlot e (slot (tagOf v) ⟨i, true⟩) }
  s.release p.i

/-- **`Shard::bump`**: one more of the term in a slot. -/
def bump (s : Shard) (e : Nat) (doc : DocId) : Shard :=
  let p := placeOf (s.table.slotAt e)
  if p.list then { s with lists := s.lists.set p.i ((s.list p.i).bump doc) }
  else
    let t := s.one p.i
    if t.doc = doc then { s with ones := s.ones.set p.i { t with tf := t.tf + 1 } }
    else s.second e doc

/-- `add`'s room for a word more: the free slot its probe ended at, or one of a table of twice the
slots. -/
def grow (s : Shard) (h : Hash) (w : List UInt8) (e : Nat) : Except Stop (Shard × Nat) :=
  if fits (s.len + 1) s.table.slots.length then .ok (s, e)
  else do
    let s ← s.resize (max (s.table.slots.length * 2) GROUP)
    let found ← s.find h w
    pure (s, match found with | .ok e => e | .error e => e)

/-- **`Shard::add`**: a new word as a document's once. -/
def add (s : Shard) (h : Hash) (w : List UInt8) (doc : DocId) (e : Nat) : Except Stop Shard := do
  let (s, e) ← s.grow h w e
  let (s, at_) ← s.putWord w
  let (s, p) := s.hold ⟨at_, 1, doc⟩
  pure { s with table := s.table.put e (slot h.tag p) h.h2 }

/-- `compact`: the arena written again with the living words alone. -/
def compact (s : Shard) : Shard :=
  let (ones, bytes) := recopy One.live One.at_ (fun t at_ => { t with at_ := at_ }) s.bytes s.ones []
  let (lists, bytes) :=
    recopy TermList.live TermList.at_ (fun l at_ => { l with at_ := at_ }) s.bytes s.lists bytes
  { s with ones := ones, lists := lists, bytes := bytes, dead := 0 }

/-- **`Shard::drop_doc`**: the term in a slot no longer in a document; whether that left it in
none. -/
def dropDoc (s : Shard) (e : Nat) (doc : DocId) : Except Stop (Shard × Bool) :=
  let p := placeOf (s.table.slotAt e)
  if p.list then
    let l := (s.list p.i).dropDoc doc
    let s := { s with lists := s.lists.set p.i l }
    if l.docs.length = 1 then
      let one : One := ⟨l.at_, l.tfs.getD 0 0, l.docs.getD 0 0⟩
      let (s, q) := (s.spareList p.i).hold one
      .ok ({ s with table := s.table.setSlot e (slot (tagOf (s.table.slotAt e)) q) }, false)
    else .ok (s, false)
  else if (s.one p.i).doc ≠ doc then .ok (s, false)
  else do
    let table ← ended (s.table.close e)
    let at_ := (s.one p.i).at_
    let s := { s with table := table, dead := s.dead + ((wordAt s.bytes at_).2 - at_) }
    let s := s.release p.i
    pure (if s.bytes.length < s.dead * 2 then s.compact else s, true)

/-- `close_up`: the arrays without their free places, each slot naming its term's new one. -/
def closeUp (s : Shard) : Shard :=
  let one := ranks One.live s.ones 0
  let list := ranks TermList.live s.lists 0
  { s with
    ones := s.ones.filter One.live
    lists := s.lists.filter TermList.live
    free := []
    spare := []
    table := { s.table with
      slots := s.table.slots.map fun v =>
        if v ≠ 0 then
          let p := placeOf v
          slot (tagOf v) ⟨if p.list then list.getD p.i 0 else one.getD p.i 0, p.list⟩
        else v } }

/-- **`Shard::shrink`**: no place free, no byte dead, and no more slots than the words need. -/
def shrink (s : Shard) : Except Stop Shard :=
  let s := if !s.free.isEmpty || !s.spare.isEmpty then s.closeUp else s
  let s := if 0 < s.dead then s.compact else s
  if slotsFor s.len < s.table.slots.length then s.resize (slotsFor s.len) else .ok s

end Shard

/-! ## 2. What a shard holds -/

/-- A term where it is. -/
structure Term where
  place : Place
  at_ : Nat
  postings : Postings

/-- What a place of `ones` holds. -/
def One.term (t : One) (i : Nat) : Option Term :=
  if t.live then some ⟨⟨i, false⟩, t.at_, [t.doc], [t.tf], t.tf⟩ else none

/-- What a place of `lists` holds. -/
def TermList.term (l : TermList) (i : Nat) : Option Term :=
  if l.live then some ⟨⟨i, true⟩, l.at_, l.view⟩ else none

namespace Shard

/-- The terms of a shard. -/
def terms (s : Shard) : List Term := placed One.term s.ones ++ placed TermList.term s.lists

end Shard

/-- A term's word. -/
def Term.word (bytes : List UInt8) (τ : Term) : List UInt8 := (wordAt bytes τ.at_).1

/-- A term's slot and control byte. -/
def Term.cell (hash : List UInt8 → Hash) (bytes : List UInt8) (τ : Term) : UInt64 × UInt8 :=
  (slot (hash (τ.word bytes)).tag τ.place, (hash (τ.word bytes)).h2)

/-- The most words an arena of 4 GiB has room for: those of two bytes and fewer, and a word of more
takes four. -/
def MOST : Nat := 65793 + 2 ^ 30

/-- Places free: those that hold nothing, each once. -/
structure Unused {α : Type} (live : α → Bool) (l : List α) (free : List Nat) : Prop where
  nodup : free.Nodup
  mem : ∀ i, i ∈ free ↔ ∃ h : i < l.length, live l[i] = false

/-- **What an arena and a table keep of some terms.** -/
structure Kept (hash : List UInt8 → Hash) (bytes : List UInt8) (dead : Nat) (table : Table)
    (T : List Term) : Prop where
  /-- each term's word lies in the arena -/
  stored : ∀ τ ∈ T, StoredAt bytes τ.at_ (τ.word bytes)
  /-- the words are distinct -/
  words : (T.map (·.word bytes)).Nodup
  /-- the words and the dead bytes are the arena -/
  arena : (T.map fun τ => (Text.stored (τ.word bytes)).length).sum + dead = bytes.length
  small : bytes.length < 2 ^ 32
  /-- a term's documents and counts are a map's, and a list has two at least -/
  tallied : ∀ τ ∈ T, (∃ m, Tally τ.postings m) ∧
    (τ.place.list = true → 2 ≤ τ.postings.docs.length)
  /-- a slot has the bits of a term's place -/
  placed : ∀ τ ∈ T, τ.place.i < PLACES
  /-- the table holds a slot for each term -/
  holds : table.Holds (T.map (·.cell hash bytes))
  slots : table.slots.length = 0 ∨ Size table.slots.length
  roomy : fits T.length table.slots.length = true

/-- **What every write of a shard keeps.** -/
structure Shard.Good (hash : List UInt8 → Hash) (s : Shard) : Prop where
  kept : Kept hash s.bytes s.dead s.table s.terms
  ones : Unused One.live s.ones s.free
  lists : Unused TermList.live s.lists s.spare
  /-- a list without documents has no counts -/
  emptied : ∀ l ∈ s.lists, l.live = false → l.tfs = []
  places : s.ones.length ≤ MOST ∧ s.lists.length ≤ MOST

/-! ## 3. Places -/

section Places

variable {s : Shard} {t : One} {l : TermList} {i : Nat} {τ : Term}

theorem One.term_live (ht : t.live = true) (i : Nat) :
    t.term i = some ⟨⟨i, false⟩, t.at_, [t.doc], [t.tf], t.tf⟩ := if_pos ht

theorem One.term_dead (ht : t.live = false) (i : Nat) : t.term i = none :=
  if_neg (by rw [ht]; exact Bool.false_ne_true)

theorem TermList.term_live (hl : l.live = true) (i : Nat) :
    l.term i = some ⟨⟨i, true⟩, l.at_, l.view⟩ := if_pos hl

theorem TermList.term_dead (hl : l.live = false) (i : Nat) : l.term i = none :=
  if_neg (by rw [hl]; exact Bool.false_ne_true)

theorem One.of_term (h : t.term i = some τ) :
    t.live = true ∧ τ = ⟨⟨i, false⟩, t.at_, [t.doc], [t.tf], t.tf⟩ := by
  by_cases ht : t.live = true
  · rw [One.term_live ht] at h
    exact ⟨ht, (Option.some.inj h).symm⟩
  · rw [One.term_dead (Bool.not_eq_true _ ▸ ht)] at h
    cases h

theorem TermList.of_term (h : l.term i = some τ) :
    l.live = true ∧ τ = ⟨⟨i, true⟩, l.at_, l.view⟩ := by
  by_cases hl : l.live = true
  · rw [TermList.term_live hl] at h
    exact ⟨hl, (Option.some.inj h).symm⟩
  · rw [TermList.term_dead (Bool.not_eq_true _ ▸ hl)] at h
    cases h

theorem One.isSome_term (t : One) (i : Nat) : (t.term i).isSome = t.live := by
  unfold One.term
  cases t.live <;> rfl

theorem TermList.isSome_term (l : TermList) (i : Nat) : (l.term i).isSome = l.live := by
  unfold TermList.term
  cases l.live <;> rfl

namespace Shard

theorem one_eq (hi : i < s.ones.length) : s.one i = s.ones[i] := List.getD_eq_getElem _ _ hi

theorem list_eq (hi : i < s.lists.length) : s.list i = s.lists[i] := List.getD_eq_getElem _ _ hi

/-- **A term is what its place holds.** -/
theorem mem_terms : τ ∈ s.terms ↔
    (τ.place.list = false ∧ τ.place.i < s.ones.length ∧
        (s.one τ.place.i).term τ.place.i = some τ) ∨
      (τ.place.list = true ∧ τ.place.i < s.lists.length ∧
        (s.list τ.place.i).term τ.place.i = some τ) := by
  unfold terms
  rw [List.mem_append, mem_placed, mem_placed]
  constructor
  · rintro (⟨i, hi, hterm⟩ | ⟨i, hi, hterm⟩)
    · obtain ⟨-, rfl⟩ := One.of_term hterm
      exact Or.inl ⟨rfl, hi, by rw [one_eq hi]; exact hterm⟩
    · obtain ⟨-, rfl⟩ := TermList.of_term hterm
      exact Or.inr ⟨rfl, hi, by rw [list_eq hi]; exact hterm⟩
  · rintro (⟨-, hi, hterm⟩ | ⟨-, hi, hterm⟩)
    · rw [one_eq hi] at hterm
      exact Or.inl ⟨_, hi, hterm⟩
    · rw [list_eq hi] at hterm
      exact Or.inr ⟨_, hi, hterm⟩

/-- Where a term's word starts. -/
theorem at_of_mem (h : τ ∈ s.terms) : s.at_ τ.place = τ.at_ := by
  unfold at_
  rcases mem_terms.mp h with ⟨hlist, -, hterm⟩ | ⟨hlist, -, hterm⟩
  · obtain ⟨-, hτ⟩ := One.of_term hterm
    rw [hlist, if_neg Bool.false_ne_true]
    exact (congrArg Term.at_ hτ).symm
  · obtain ⟨-, hτ⟩ := TermList.of_term hterm
    rw [hlist, if_pos rfl]
    exact (congrArg Term.at_ hτ).symm

/-- The postings of a slot that names a term. -/
theorem postings_of_mem (h : τ ∈ s.terms) {e : Nat} (he : placeOf (s.table.slotAt e) = τ.place) :
    s.postings e = τ.postings := by
  unfold postings
  rw [he]
  dsimp only
  rcases mem_terms.mp h with ⟨hlist, -, hterm⟩ | ⟨hlist, -, hterm⟩
  · obtain ⟨-, hτ⟩ := One.of_term hterm
    rw [hlist, if_neg Bool.false_ne_true]
    exact (congrArg Term.postings hτ).symm
  · obtain ⟨-, hτ⟩ := TermList.of_term hterm
    rw [hlist, if_pos rfl]
    exact (congrArg Term.postings hτ).symm

/-- What a place of `ones` holds is one of the terms, and another there takes its place. -/
theorem terms_set_one (hi : i < s.ones.length) :
    ∃ R, s.terms.Perm (((s.one i).term i).toList ++ R) ∧
      ∀ (a : One) (s' : Shard), s'.ones = s.ones.set i a → s'.lists = s.lists →
        s'.terms.Perm ((a.term i).toList ++ R) := by
  obtain ⟨R, hold, hnew⟩ := placed_set One.term hi
  refine ⟨R ++ placed TermList.term s.lists, ?_, fun a s' hones hlists => ?_⟩
  · rw [one_eq hi, ← List.append_assoc]
    exact hold.append_right _
  · rw [terms, hones, hlists, ← List.append_assoc]
    exact (hnew a).append_right _

theorem terms_set_list (hi : i < s.lists.length) :
    ∃ R, s.terms.Perm (((s.list i).term i).toList ++ R) ∧
      ∀ (a : TermList) (s' : Shard), s'.ones = s.ones → s'.lists = s.lists.set i a →
        s'.terms.Perm ((a.term i).toList ++ R) := by
  obtain ⟨R, hold, hnew⟩ := placed_set TermList.term hi
  have hswap : ∀ A : List Term, (placed One.term s.ones ++ (A ++ R)).Perm
      (A ++ (placed One.term s.ones ++ R)) := by
    intro A
    rw [← List.append_assoc, ← List.append_assoc]
    exact List.perm_append_comm.append_right R
  refine ⟨placed One.term s.ones ++ R, ?_, fun a s' hones hlists => ?_⟩
  · rw [list_eq hi]
    exact (hold.append_left _).trans (hswap _)
  · rw [terms, hones, hlists]
    exact ((hnew a).append_left _).trans (hswap _)

/-- A place more. -/
theorem terms_push_one (u : Shard) (a : One) (hones : u.ones = s.ones ++ [a])
    (hlists : u.lists = s.lists) : u.terms.Perm ((a.term s.ones.length).toList ++ s.terms) := by
  rw [terms, terms, hones, hlists, placed_concat, List.append_assoc, ← List.append_assoc _ _
    (placed TermList.term s.lists), ← List.append_assoc]
  exact List.perm_append_comm.append_right _

theorem terms_push_list (u : Shard) (a : TermList) (hones : u.ones = s.ones)
    (hlists : u.lists = s.lists ++ [a]) :
    u.terms.Perm ((a.term s.lists.length).toList ++ s.terms) := by
  rw [terms, terms, hones, hlists, placed_concat, ← List.append_assoc]
  exact List.perm_append_comm

end Shard

end Places

/-! ## 4. Places free -/

section Free

variable {α : Type} {live : α → Bool} {l : List α} {free : List Nat} {i : Nat} {a : α}

theorem Unused.pop (h : Unused live l (free ++ [i])) (ha : live a = true) :
    ∃ hi : i < l.length, live l[i] = false ∧ Unused live (l.set i a) free := by
  obtain ⟨hi, hdead⟩ := (h.mem i).mp (List.mem_append_right _ List.mem_cons_self)
  have hnot : i ∉ free := fun hmem =>
    List.disjoint_of_nodup_append h.nodup hmem List.mem_cons_self
  refine ⟨hi, hdead, (List.nodup_append.mp h.nodup).1, fun j => ⟨fun hj => ?_, ?_⟩⟩
  · obtain ⟨hlt, hlive⟩ := (h.mem j).mp (List.mem_append_left _ hj)
    have hne : i ≠ j := fun heq => hnot (heq ▸ hj)
    exact ⟨by rwa [List.length_set], by rwa [List.getElem_set_ne hne]⟩
  · rintro ⟨hlt, hlive⟩
    rw [List.length_set] at hlt
    have hne : i ≠ j := by
      rintro rfl
      rw [List.getElem_set_self, ha] at hlive
      cases hlive
    rw [List.getElem_set_ne hne] at hlive
    exact (List.mem_append.mp ((h.mem j).mpr ⟨hlt, hlive⟩)).resolve_right fun hj =>
      hne (List.mem_singleton.mp hj).symm

/-- A place more, held. -/
theorem Unused.concat (h : Unused live l free) (ha : live a = true) :
    Unused live (l ++ [a]) free := by
  refine ⟨h.nodup, fun j => (h.mem j).trans ⟨?_, ?_⟩⟩
  · rintro ⟨hlt, hlive⟩
    exact ⟨by rw [List.length_append]; omega, by rwa [List.getElem_append_left hlt]⟩
  · rintro ⟨hlt, hlive⟩
    rcases Nat.lt_or_ge j l.length with hj | hj
    · rw [List.getElem_append_left hj] at hlive
      exact ⟨hj, hlive⟩
    · rw [List.length_append, List.length_singleton] at hlt
      rw [List.getElem_append_right hj] at hlive
      simp only [Nat.sub_eq_zero_of_le (Nat.lt_succ_iff.mp hlt), List.getElem_cons_zero] at hlive
      rw [ha] at hlive
      cases hlive

/-- What a place held let go. -/
theorem Unused.push (h : Unused live l free) (hi : i < l.length) (hlive : live l[i] = true)
    (ha : live a = false) : Unused live (l.set i a) (free ++ [i]) := by
  have hnot : i ∉ free := by
    intro hmem
    obtain ⟨_, hdead⟩ := (h.mem i).mp hmem
    rw [hlive] at hdead
    cases hdead
  refine ⟨List.nodup_append.mpr ⟨h.nodup, List.nodup_singleton i, fun j hj k hk heq => ?_⟩,
    fun j => ?_⟩
  · rw [List.mem_singleton.mp hk] at heq
    exact hnot (heq ▸ hj)
  · by_cases hij : i = j
    · subst hij
      refine iff_of_true (List.mem_append_right _ List.mem_cons_self) ⟨by rwa [List.length_set], ?_⟩
      rwa [List.getElem_set_self]
    · rw [List.mem_append, List.mem_singleton, or_iff_left fun hj => hij hj.symm, h.mem j]
      constructor
      · rintro ⟨hlt, hdead⟩
        exact ⟨by rwa [List.length_set], by rwa [List.getElem_set_ne hij]⟩
      · rintro ⟨hlt, hdead⟩
        rw [List.length_set] at hlt
        rw [List.getElem_set_ne hij] at hdead
        exact ⟨hlt, hdead⟩

/-- What a place held for another. -/
theorem Unused.set (h : Unused live l free) (hi : i < l.length) (hlive : live l[i] = true)
    (ha : live a = true) : Unused live (l.set i a) free := by
  refine ⟨h.nodup, fun j => (h.mem j).trans ?_⟩
  by_cases hij : i = j
  · subst hij
    refine iff_of_false ?_ ?_
    · rintro ⟨_, hdead⟩
      rw [hlive] at hdead
      cases hdead
    · rintro ⟨hlt, hdead⟩
      rw [List.getElem_set_self, ha] at hdead
      cases hdead
  · constructor
    · rintro ⟨hlt, hdead⟩
      exact ⟨by rwa [List.length_set], by rwa [List.getElem_set_ne hij]⟩
    · rintro ⟨hlt, hdead⟩
      rw [List.length_set] at hlt
      rw [List.getElem_set_ne hij] at hdead
      exact ⟨hlt, hdead⟩

/-- **The places that hold something and those free** are all of them. -/
theorem Unused.length_placed (h : Unused live l free) {β : Type} {f : α → Nat → Option β}
    (hf : ∀ a i, (f a i).isSome = live a) : (placed f l).length + free.length = l.length := by
  have hfree : free.Perm ((l.zipIdx.filter fun ai => !live ai.1).map (·.2)) := by
    refine (List.perm_ext_iff_of_nodup h.nodup ?_).mpr fun i => (h.mem i).trans ?_
    · refine List.Nodup.sublist (List.filter_sublist.map _) ?_
      rw [List.zipIdx_map_snd]
      exact List.nodup_range'
    · rw [List.mem_map]
      constructor
      · rintro ⟨hi, hdead⟩
        exact ⟨(l[i], i), List.mem_filter.mpr ⟨List.mk_mem_zipIdx_iff_getElem?.mpr
          (List.getElem?_eq_getElem hi), by rw [hdead]; rfl⟩, rfl⟩
      · rintro ⟨⟨a, j⟩, hmem, rfl⟩
        obtain ⟨hmem, hdead⟩ := List.mem_filter.mp hmem
        obtain ⟨hj, ha⟩ := List.mem_zipIdx' hmem
        refine ⟨hj, ?_⟩
        rw [← ha]
        exact Bool.not_eq_true' _ ▸ hdead
  have hplaced : (placed f l).length = l.zipIdx.countP fun ai => live ai.1 := by
    rw [placed, placedFrom, List.length_filterMap_eq_countP]
    exact List.countP_congr fun ai _ => by rw [hf]
  have hall := List.length_eq_countP_add_countP (fun ai : α × Nat => live ai.1) (l := l.zipIdx)
  have hnot : (l.zipIdx.countP fun ai => !live ai.1) =
      l.zipIdx.countP fun ai => decide ¬ live ai.1 = true :=
    List.countP_congr fun ai _ => by simp
  rw [hfree.length_eq, List.length_map, hplaced, ← List.countP_eq_length_filter, hnot, ← hall,
    List.length_zipIdx]

end Free

/-! ## 5. Places taken and let go -/

namespace Shard

section Hold

variable {s : Shard} {t : One} {i : Nat}

/-- **A place of `ones` taken.** -/
theorem hold_spec (h : Unused One.live s.ones s.free) (ht : t.live = true) :
    ∃ ones free i, s.hold t = ({ s with ones := ones, free := free }, ⟨i, false⟩) ∧
      Unused One.live ones free ∧
      ({ s with ones := ones, free := free } : Shard).terms.Perm
        (⟨⟨i, false⟩, t.at_, [t.doc], [t.tf], t.tf⟩ :: s.terms) ∧
      (ones.length = s.ones.length ∨ ones.length ≤ s.terms.length + 1) := by
  unfold hold
  cases hlast : s.free.getLast? with
  | some i =>
    obtain ⟨free, hfree⟩ := List.getLast?_eq_some_iff.mp hlast
    rw [hfree] at h
    obtain ⟨hi, hdead, hunused⟩ := h.pop ht
    obtain ⟨R, hold, hnew⟩ := terms_set_one hi
    rw [one_eq hi, One.term_dead hdead, Option.toList_none, List.nil_append] at hold
    have hterms := hnew t { s with ones := s.ones.set i t, free := free } rfl rfl
    rw [One.term_live ht, Option.toList_some, List.singleton_append] at hterms
    refine ⟨s.ones.set i t, free, i, ?_, hunused, hterms.trans (hold.symm.cons _),
      Or.inl List.length_set⟩
    rw [hfree, List.dropLast_concat]
  | none =>
    have hfree := List.getLast?_eq_none_iff.mp hlast
    have hterms := terms_push_one { s with ones := s.ones ++ [t], free := s.free } t rfl rfl
    rw [One.term_live ht, Option.toList_some, List.singleton_append] at hterms
    refine ⟨s.ones ++ [t], s.free, s.ones.length, rfl, h.concat ht, hterms, Or.inr ?_⟩
    rw [hfree] at h
    have hlen := h.length_placed One.isSome_term
    rw [List.length_nil, Nat.add_zero] at hlen
    rw [terms, List.length_append, List.length_append, hlen, List.length_singleton]
    omega

/-- **A place of `lists` taken.** -/
theorem holdList_spec (h : Unused TermList.live s.lists s.spare) :
    ∃ lists spare i, s.holdList = ({ s with lists := lists, spare := spare }, i) ∧
      i < lists.length ∧ (lists.getD i .default).live = false ∧
      (∀ l ∈ lists, l ∈ s.lists ∨ l = .default) ∧
      (∀ l : TermList, l.live = true → Unused TermList.live (lists.set i l) spare ∧
        ∀ s' : Shard, s'.ones = s.ones → s'.lists = lists.set i l →
          s'.terms.Perm (⟨⟨i, true⟩, l.at_, l.view⟩ :: s.terms)) ∧
      (lists.length = s.lists.length ∨
        lists.length = (placed TermList.term s.lists).length + 1) := by
  unfold holdList
  cases hlast : s.spare.getLast? with
  | some i =>
    obtain ⟨spare, hspare⟩ := List.getLast?_eq_some_iff.mp hlast
    rw [hspare] at h
    obtain ⟨hi, hdead⟩ := (h.mem i).mp (List.mem_append_right _ List.mem_cons_self)
    refine ⟨s.lists, spare, i, ?_, hi, ?_, fun l hl => Or.inl hl,
      fun l hl => ⟨?_, fun s' hones hlists => ?_⟩, Or.inl rfl⟩
    · dsimp only
      rw [hspare, List.dropLast_concat]
    · rw [List.getD_eq_getElem _ _ hi]
      exact hdead
    · obtain ⟨-, -, hunused⟩ := h.pop hl
      exact hunused
    · obtain ⟨R, hold, hnew⟩ := terms_set_list hi
      rw [list_eq hi, TermList.term_dead hdead, Option.toList_none, List.nil_append] at hold
      have hterms := hnew l s' hones hlists
      rw [TermList.term_live hl, Option.toList_some, List.singleton_append] at hterms
      exact hterms.trans (hold.symm.cons _)
  | none =>
    have hspare := List.getLast?_eq_none_iff.mp hlast
    have hset : ∀ l : TermList, (s.lists ++ [TermList.default]).set s.lists.length l =
        s.lists ++ [l] := by
      intro l
      rw [List.set_append_right _ _ (Nat.le_refl _), Nat.sub_self, List.set_cons_zero]
    refine ⟨s.lists ++ [.default], s.spare, s.lists.length, rfl, ?_, ?_,
      fun l hl => (List.mem_append.mp hl).imp_right List.mem_singleton.mp,
      fun l hl => ⟨?_, fun s' hones hlists => ?_⟩, Or.inr ?_⟩
    · rw [List.length_append, List.length_singleton]
      omega
    · rw [List.getD_eq_getElem?_getD, List.getElem?_concat_length]
      rfl
    · rw [hset]
      exact h.concat hl
    · rw [hset] at hlists
      have hterms := terms_push_list s' l hones hlists
      rw [TermList.term_live hl, Option.toList_some, List.singleton_append] at hterms
      exact hterms
    · rw [hspare] at h
      have hlen := h.length_placed TermList.isSome_term
      rw [List.length_nil, Nat.add_zero] at hlen
      rw [List.length_append, hlen, List.length_singleton]

end Hold

end Shard

/-! ## 6. How many words there may be -/

/-- A number of each word of two bytes and fewer. -/
def shortCode : List UInt8 → Nat
  | [] => 0
  | [a] => 1 + a.toNat
  | a :: b :: _ => 257 + a.toNat + 256 * b.toNat

theorem shortCode_lt (w : List UInt8) : shortCode w < 65793 := by
  match w with
  | [] => decide
  | [a] =>
    have ha := a.toNat_lt
    rw [shortCode]
    omega
  | a :: b :: _ =>
    have ha := a.toNat_lt
    have hb := b.toNat_lt
    rw [shortCode]
    omega

theorem shortCode_inj {w w' : List UInt8} (hw : w.length ≤ 2) (hw' : w'.length ≤ 2)
    (h : shortCode w = shortCode w') : w = w' := by
  have hbyte : ∀ x : UInt8, x.toNat < 256 := fun x => x.toNat_lt
  have hend : ∀ {x y : UInt8} {t : List UInt8}, (x :: y :: t).length ≤ 2 → t = [] := fun h =>
    List.eq_nil_of_length_eq_zero (by simp only [List.length_cons] at h; omega)
  cases w with
  | nil =>
    cases w' with
    | nil => rfl
    | cons c t' =>
      cases t' with
      | nil => simp only [shortCode] at h; omega
      | cons d t' => simp only [shortCode] at h; omega
  | cons a t =>
    cases t with
    | nil =>
      have ha := hbyte a
      cases w' with
      | nil => simp only [shortCode] at h; omega
      | cons c t' =>
        cases t' with
        | nil =>
          simp only [shortCode] at h
          rw [UInt8.toNat_inj.mp (by omega : a.toNat = c.toNat)]
        | cons d t' => simp only [shortCode] at h; omega
    | cons b t =>
      cases w' with
      | nil => simp only [shortCode] at h; omega
      | cons c t' =>
        have hc := hbyte c
        cases t' with
        | nil => simp only [shortCode] at h; omega
        | cons d t' =>
          have ha := hbyte a
          simp only [shortCode] at h
          rw [hend hw, hend hw', UInt8.toNat_inj.mp (by omega : a.toNat = c.toNat),
            UInt8.toNat_inj.mp (by omega : b.toNat = d.toNat)]

/-- **Words that fit an arena are not too many for their places.** -/
theorem words_le {W : List (List UInt8)} (hW : W.Nodup)
    (hsum : (W.map fun w => (stored w).length).sum < 2 ^ 32) : W.length ≤ MOST := by
  have hsplit := List.length_eq_length_filter_add (l := W) fun w => decide (w.length ≤ 2)
  have hshort : (W.filter fun w => decide (w.length ≤ 2)).length ≤ 65793 := by
    have hnodup : ((W.filter fun w => decide (w.length ≤ 2)).map shortCode).Nodup := by
      refine List.Nodup.map_on (fun w hw w' hw' heq => ?_) (hW.filter _)
      exact shortCode_inj (of_decide_eq_true (List.mem_filter.mp hw).2)
        (of_decide_eq_true (List.mem_filter.mp hw').2) heq
    have hsub : (W.filter fun w => decide (w.length ≤ 2)).map shortCode ⊆ List.range 65793 := by
      intro n hn
      obtain ⟨w, -, rfl⟩ := List.mem_map.mp hn
      exact List.mem_range.mpr (shortCode_lt w)
    have hle := (List.subperm_of_subset hnodup hsub).length_le
    rwa [List.length_map, List.length_range] at hle
  have hlong : ∀ W : List (List UInt8), 4 * (W.filter fun w => !decide (w.length ≤ 2)).length ≤
      (W.map fun w => (stored w).length).sum := by
    intro W
    induction W with
    | nil => exact Nat.le_refl 0
    | cons w W ih =>
      rw [List.map_cons, List.sum_cons, List.filter_cons]
      have hpos := uvarint_pos w.length
      rw [stored, List.length_append]
      by_cases hw : w.length ≤ 2
      · rw [if_neg (by simp [hw])]
        omega
      · rw [if_pos (by simp [hw]), List.length_cons]
        omega
  have hlongW := hlong W
  unfold MOST
  omega

end Fenec.Text
