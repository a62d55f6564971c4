/-
# What the sparse index holds

The index stands for a map from each dimension to its documents and their weights (`Holds`): a
dimension's list is that map's keys and values, inside bounds that are only ever widened, and the
bytes counted are the lists' own.  An insert puts the vector's weights into the maps and a removal
takes the document out of them (`insert_spec`, `remove_spec`), so after any run that removes what
was indexed the lists are those of the documents left (`Reached.spec`), which a fresh build of
these has too (`Reached.postings_eq`).
-/
import Fenec.Sparse

namespace Fenec.Near

open Lib

/-! ## 1. One list -/

/-- The list is a map's keys and values, every weight inside its bounds. -/
structure PostingList.Holds (l : PostingList) (m : OrdMap ℚ) : Prop where
  docs : l.docs = m.keys
  weights : l.weights = m.entries.map (·.2)
  low : l.min ≤ 0
  high : 0 ≤ l.max
  bounds : ∀ e ∈ m.entries, l.min ≤ e.2 ∧ e.2 ≤ l.max

variable {g : Growth} {l : PostingList} {m : OrdMap ℚ} {doc : DocId} {w : ℚ}

theorem PostingList.holds_default : PostingList.default.Holds .empty :=
  ⟨rfl, rfl, le_refl _, le_refl _, fun _ he => absurd he List.not_mem_nil⟩

/-- A weight set is one put into the map. -/
theorem PostingList.Holds.set (h : l.Holds m) : (l.set g doc w).Holds (m.insert doc w) := by
  have hbounds : ∀ e ∈ (m.insert doc w).entries, l.min ⊓ w ≤ e.2 ∧ e.2 ≤ l.max ⊔ w := by
    intro e he
    rcases OrdMap.mem_insertEntry he with rfl | he
    · exact ⟨inf_le_right, le_sup_right⟩
    · exact ⟨inf_le_left.trans (h.bounds e he).1, (h.bounds e he).2.trans le_sup_left⟩
  have hlow : l.min ⊓ w ≤ 0 := inf_le_left.trans h.low
  have hhigh : 0 ≤ l.max ⊔ w := h.high.trans le_sup_left
  unfold PostingList.set
  dsimp only
  rcases Chunked.search_keys m doc with ⟨A, w', B, hentries, hsearch, hA, -⟩ |
      ⟨A, B, hentries, hsearch, hA, hB⟩
  · have hput : (m.insert doc w).entries = A ++ (doc, w) :: B := by
      show OrdMap.insertEntry doc w m.entries = _
      rw [hentries, OrdMap.insertEntry_over hA]
    rw [← h.docs] at hsearch
    rw [hsearch]
    refine ⟨?_, ?_, hlow, hhigh, hbounds⟩
    · show l.docs = (m.insert doc w).entries.map (·.1)
      rw [h.docs, OrdMap.keys, hput, hentries, List.map_append, List.map_append]
      rfl
    · show l.weights.set A.length w = _
      have hlen : A.length = (A.map (·.2)).length := List.length_map _ |>.symm
      rw [h.weights, hput, hentries, List.map_append, List.map_append, hlen]
      exact Chunked.set_middle
  · have hput : (m.insert doc w).entries = A ++ (doc, w) :: B := by
      show OrdMap.insertEntry doc w m.entries = _
      rw [hentries, OrdMap.insertEntry_between hA hB]
    rw [← h.docs] at hsearch
    rw [hsearch]
    refine ⟨?_, ?_, hlow, hhigh, hbounds⟩
    · show l.docs.insertIdx A.length doc = (m.insert doc w).entries.map (·.1)
      have hlen : A.length = (A.map (·.1)).length := List.length_map _ |>.symm
      rw [h.docs, OrdMap.keys, hput, hentries, List.map_append, List.map_append, hlen]
      exact Chunked.insertIdx_at
    · show l.weights.insertIdx A.length w = _
      have hlen : A.length = (A.map (·.2)).length := List.length_map _ |>.symm
      rw [h.weights, hput, hentries, List.map_append, List.map_append, hlen]
      exact Chunked.insertIdx_at

/-- A document dropped is one taken out of the map. -/
theorem PostingList.Holds.dropDoc (h : l.Holds m) : (l.dropDoc doc).Holds (m.erase doc) := by
  have hbounds : ∀ e ∈ (m.erase doc).entries, l.min ≤ e.2 ∧ e.2 ≤ l.max :=
    fun e he => h.bounds e (List.mem_filter.mp he).1
  unfold PostingList.dropDoc
  rw [h.docs]
  rcases Chunked.search_erase m doc with ⟨i, hsearch, hkeys, hvalues⟩ | ⟨i, hsearch, hsame⟩
  · rw [hsearch]
    refine ⟨?_, ?_, h.low, h.high, hbounds⟩
    · rw [hkeys]
    · rw [hvalues, h.weights]
  · rw [hsearch, hsame]
    exact h

/-- A list takes no less after a weight is set. -/
theorem PostingList.bytes_le_set : l.bytes ≤ (l.set g doc w).bytes := by
  have hafter : ∀ len cap : Nat, cap ≤ g.after len cap := by
    intro len cap
    have hmore := g.more len
    unfold Growth.after
    split <;> omega
  unfold PostingList.set PostingList.bytes
  dsimp only
  split
  · exact Nat.le_refl _
  · have hdocs := hafter l.docs.length l.docsCapacity
    have hweights := hafter l.weights.length l.weightsCapacity
    dsimp only
    omega

theorem PostingList.bytes_dropDoc : (l.dropDoc doc).bytes = l.bytes := by
  unfold PostingList.dropDoc
  split <;> rfl

theorem PostingList.default_le_bytes : PostingList.default.bytes ≤ l.bytes := by
  unfold PostingList.bytes
  exact Nat.le_add_left _ _

/-! ## 2. The index -/

/-- **The index stands for a map from each dimension to its documents' weights.** -/
structure SparseIndex.Holds (ix : SparseIndex) (post : Nat → OrdMap ℚ) : Prop where
  inside : ∀ {i k}, ix.at_.get i = some k → k < ix.lists.length
  apart : ∀ {i j k}, ix.at_.get i = some k → ix.at_.get j = some k → i = j
  missing : ∀ {i}, ix.at_.get i = none → post i = .empty
  held : ∀ {i k l}, ix.at_.get i = some k → ix.lists[k]? = some l → l.Holds (post i)
  heap : ix.heap = (ix.lists.map PostingList.bytes).sum

namespace SparseIndex

variable {ix : SparseIndex} {post : Nat → OrdMap ℚ} {i : Nat} {e : Nat × ℚ}
  {entries : List (Nat × ℚ)}

theorem holds_new : new.Holds fun _ => .empty where
  inside h := by cases h
  apart h := by cases h
  missing _ := rfl
  held h := by cases h
  heap := rfl

/-- The count of the documents is no part of it. -/
theorem Holds.count (h : ix.Holds post) (docs : Nat) :
    ({ ix with docs := docs } : SparseIndex).Holds post :=
  ⟨h.inside, h.apart, h.missing, h.held, h.heap⟩

/-- The bytes of the lists with one list another. -/
theorem bytes_set {lists : List PostingList} {k : Nat} {l : PostingList} (l' : PostingList)
    (h : lists[k]? = some l) : ((lists.set k l').map PostingList.bytes).sum + l.bytes =
      (lists.map PostingList.bytes).sum + l'.bytes := by
  induction lists generalizing k with
  | nil => cases h
  | cons a rest ih =>
    cases k with
    | zero =>
      obtain rfl : a = l := Option.some.inj h
      rw [List.set_cons_zero, List.map_cons, List.map_cons, List.sum_cons, List.sum_cons]
      omega
    | succ k =>
      rw [List.set_cons_succ, List.map_cons, List.map_cons, List.sum_cons, List.sum_cons,
        Nat.add_assoc, ih h, Nat.add_assoc]

/-- A list changed is one dimension's map changed. -/
theorem Holds.set (h : ix.Holds post) {k : Nat} {l l' : PostingList} {m : OrdMap ℚ} {heap : Nat}
    (hi : ix.at_.get i = some k) (hl : ix.lists[k]? = some l) (hl' : l'.Holds m)
    (hheap : heap + l.bytes = ix.heap + l'.bytes) :
    ({ ix with lists := ix.lists.set k l', heap := heap } : SparseIndex).Holds
      (Function.update post i m) where
  inside hj := by
    rw [List.length_set]
    exact h.inside hj
  apart := h.apart
  missing {j} hj := by
    have hji : j ≠ i := by
      rintro rfl
      cases hi.symm.trans hj
    rw [Function.update_of_ne hji]
    exact h.missing hj
  held {j k' l''} hj hl'' := by
    by_cases hji : j = i
    · subst hji
      obtain rfl : k = k' := Option.some.inj (hi.symm.trans hj)
      have hk : k < ix.lists.length := h.inside hi
      rw [List.getElem?_set_self hk] at hl''
      rw [Function.update_self, ← Option.some.inj hl'']
      exact hl'
    · have hkk : k ≠ k' := by
        rintro rfl
        exact hji (h.apart hj hi)
      rw [List.getElem?_set_ne hkk] at hl''
      rw [Function.update_of_ne hji]
      exact h.held hj hl''
  heap := by
    have hset := bytes_set l' hl
    have hold := h.heap
    dsimp only
    omega

/-- A dimension has a place, and a place has a list; nothing else changes. -/
theorem Holds.place (h : ix.Holds post) : (ix.place i).1.Holds post ∧
    (ix.place i).1.at_.get i = some (ix.place i).2 ∧
    ∃ l, (ix.place i).1.lists[(ix.place i).2]? = some l := by
  unfold SparseIndex.place
  cases hi : ix.at_.get i with
  | some k => exact ⟨h, hi, _, List.getElem?_eq_getElem (h.inside hi)⟩
  | none =>
    refine ⟨⟨?_, ?_, ?_, ?_, ?_⟩, ?_, .default, ?_⟩
    · intro j k hj
      rw [OrdMap.get_insert] at hj
      rw [List.length_append, List.length_singleton]
      split at hj
      · exact Option.some.inj hj ▸ Nat.lt_succ_self _
      · exact Nat.lt_succ_of_lt (h.inside hj)
    · intro j j' k hj hj'
      rw [OrdMap.get_insert] at hj hj'
      split at hj <;> split at hj'
      · next hji hji' => rw [hji, hji']
      · exact absurd (h.inside hj') (by rw [← Option.some.inj hj]; exact Nat.lt_irrefl _)
      · exact absurd (h.inside hj) (by rw [← Option.some.inj hj']; exact Nat.lt_irrefl _)
      · exact h.apart hj hj'
    · intro j hj
      rw [OrdMap.get_insert] at hj
      split at hj
      · cases hj
      · exact h.missing hj
    · intro j k l hj hl
      rw [OrdMap.get_insert] at hj
      split at hj
      · next hji =>
        subst hji
        rw [← Option.some.inj hj, List.getElem?_append_right (Nat.le_refl _), Nat.sub_self] at hl
        rw [h.missing hi, ← Option.some.inj hl]
        exact PostingList.holds_default
      · rw [List.getElem?_append_left (h.inside hj)] at hl
        exact h.held hj hl
    · show ix.heap + PostingList.default.bytes = _
      rw [h.heap, List.map_append, List.sum_append, List.map_singleton, List.sum_singleton]
    · show (ix.at_.insert i ix.lists.length).get i = _
      rw [OrdMap.get_insert, if_pos rfl]
    · show (ix.lists ++ [PostingList.default])[ix.lists.length]? = _
      rw [List.getElem?_append_right (Nat.le_refl _), Nat.sub_self]
      rfl

/-- One entry of an insert puts its weight into its dimension's map. -/
theorem insertEntry_spec (g : Growth) (doc : DocId) (h : ix.Holds post) (e : Nat × ℚ) :
    ∃ ix', ix.insertEntry g doc e = some ix' ∧ ix'.docs = ix.docs ∧
      ix'.Holds (Function.update post e.1 ((post e.1).insert doc e.2)) := by
  obtain ⟨hplace, hi, l, hl⟩ := h.place (i := e.1)
  have hdocs : (ix.place e.1).1.docs = ix.docs := by
    unfold SparseIndex.place
    split <;> rfl
  have hset : (l.set g doc e.2).Holds ((post e.1).insert doc e.2) := (hplace.held hi hl).set
  have hmore : l.bytes ≤ (l.set g doc e.2).bytes := PostingList.bytes_le_set
  have hheap : (ix.place e.1).1.heap + ((l.set g doc e.2).bytes - l.bytes) + l.bytes =
      (ix.place e.1).1.heap + (l.set g doc e.2).bytes := by omega
  refine ⟨_, ?_, ?_, hplace.set hi hl hset hheap⟩
  · unfold insertEntry
    dsimp only
    rw [hl]
    rfl
  · exact hdocs

/-- One entry of a removal takes the document out of its dimension's map. -/
theorem removeEntry_spec (doc : DocId) (h : ix.Holds post) (e : Nat × ℚ) :
    ∃ ix', ix.removeEntry doc e = some ix' ∧ ix'.docs = ix.docs ∧
      ix'.Holds (Function.update post e.1 ((post e.1).erase doc)) := by
  unfold removeEntry
  cases hi : ix.at_.get e.1 with
  | none =>
    have herase : (post e.1).erase doc = post e.1 := by
      rw [h.missing hi]
      rfl
    rw [herase, Function.update_eq_self]
    exact ⟨ix, rfl, rfl, h⟩
  | some k =>
    obtain ⟨l, hl⟩ : ∃ l, ix.lists[k]? = some l := ⟨_, List.getElem?_eq_getElem (h.inside hi)⟩
    have hdrop : (l.dropDoc doc).Holds ((post e.1).erase doc) := (h.held hi hl).dropDoc
    have hbytes : (l.dropDoc doc).bytes = l.bytes := PostingList.bytes_dropDoc
    dsimp only
    rw [hl, Option.map_some]
    refine ⟨_, rfl, ?_⟩
    by_cases hempty : (l.dropDoc doc).docs.isEmpty
    · have hkeys : ((post e.1).erase doc).keys = [] := by
        rw [← hdrop.docs]
        exact List.isEmpty_iff.mp hempty
      have hnone : (post e.1).erase doc = .empty := OrdMap.ext (List.map_eq_nil_iff.mp hkeys)
      rw [if_pos hempty]
      refine ⟨rfl, h.set hi hl (hnone ▸ PostingList.holds_default) ?_⟩
      have hset := bytes_set PostingList.default hl
      have hheap := h.heap
      have hless : PostingList.default.bytes ≤ l.bytes := PostingList.default_le_bytes
      omega
    · rw [if_neg hempty]
      exact ⟨rfl, h.set hi hl hdrop (by rw [hbytes])⟩

/-- The entries of an insert, one after another. -/
theorem foldlM_insert (g : Growth) (doc : DocId) (entries : List (Nat × ℚ))
    (h : ix.Holds post) : ∃ ix', entries.foldlM (insertEntry g doc) ix = some ix' ∧ ix'.docs = ix.docs ∧
      ix'.Holds (entries.foldl (fun post e =>
        Function.update post e.1 ((post e.1).insert doc e.2)) post) := by
  induction entries generalizing ix post with
  | nil => exact ⟨ix, rfl, rfl, h⟩
  | cons e rest ih =>
    obtain ⟨ix₁, hstep, hdocs, h₁⟩ := insertEntry_spec g doc h e
    obtain ⟨ix₂, hrest, hdocs₂, h₂⟩ := ih h₁
    refine ⟨ix₂, ?_, hdocs₂.trans hdocs, h₂⟩
    rw [List.foldlM_cons, hstep]
    exact hrest

/-- The entries of a removal, one after another. -/
theorem foldlM_remove (doc : DocId) (entries : List (Nat × ℚ)) (h : ix.Holds post) :
    ∃ ix', entries.foldlM (removeEntry doc) ix = some ix' ∧ ix'.docs = ix.docs ∧
      ix'.Holds (entries.foldl (fun post e =>
        Function.update post e.1 ((post e.1).erase doc)) post) := by
  induction entries generalizing ix post with
  | nil => exact ⟨ix, rfl, rfl, h⟩
  | cons e rest ih =>
    obtain ⟨ix₁, hstep, hdocs, h₁⟩ := removeEntry_spec doc h e
    obtain ⟨ix₂, hrest, hdocs₂, h₂⟩ := ih h₁
    refine ⟨ix₂, ?_, hdocs₂.trans hdocs, h₂⟩
    rw [List.foldlM_cons, hstep]
    exact hrest

/-- Maps changed at the dimensions of some entries, each once. -/
theorem foldl_update {f : OrdMap ℚ → ℚ → OrdMap ℚ}
    (hasc : entries.Pairwise fun a b => a.1 < b.1) (i : Nat) :
    entries.foldl (fun post e => Function.update post e.1 (f (post e.1) e.2)) post i =
      ((entries.lookup i).map (f (post i))).getD (post i) := by
  induction entries generalizing post with
  | nil => rfl
  | cons e rest ih =>
    obtain ⟨hhead, hrest⟩ := List.pairwise_cons.mp hasc
    rw [List.foldl_cons, ih hrest, OrdMap.lookup_cons_ite]
    by_cases hi : i = e.1
    · -- each dimension comes once
      have hnone : rest.lookup i = none := by
        refine List.lookup_eq_none_iff.mpr fun p hp => ?_
        have hlt : e.1 < p.1 := hhead p hp
        exact bne_iff_ne.mpr (by rw [hi]; exact Nat.ne_of_lt hlt)
      rw [hnone, if_pos hi, hi, Function.update_self]
      rfl
    · rw [if_neg hi, Function.update_of_ne hi]

end SparseIndex

/-! ## 3. The documents -/

/-- The documents with a weight in a dimension. -/
def posts (documents : OrdMap SparseVector) (i : Nat) : OrdMap ℚ :=
  documents.filterMap fun _ v => v.get i

/-- The documents with an entry. -/
def indexed (documents : OrdMap SparseVector) : Nat :=
  (documents.entries.filter fun e => !e.2.entries.isEmpty).length

variable {documents : OrdMap SparseVector} {v : SparseVector} {i : Nat}

theorem get_posts (doc : DocId) :
    (posts documents i).get doc = (documents.get doc).bind fun v => v.get i :=
  OrdMap.get_filterMap _ _ _

/-- A document put in, a dimension at a time. -/
theorem posts_insert (h : documents.get doc = none) : posts (documents.insert doc v) i =
    ((v.get i).map ((posts documents i).insert doc)).getD (posts documents i) := by
  refine OrdMap.ext_get fun d => ?_
  rw [get_posts, OrdMap.get_insert]
  cases hi : v.get i with
  | none =>
    rw [Option.map_none, Option.getD_none, get_posts]
    split
    · next hd => rw [hd, h, Option.bind_some, hi, Option.bind_none]
    · rfl
  | some w =>
    rw [Option.map_some, Option.getD_some, OrdMap.get_insert, get_posts]
    split
    · rw [Option.bind_some, hi]
    · rfl

/-- A document taken out, a dimension at a time. -/
theorem posts_erase (h : documents.get doc = some v) : posts (documents.erase doc) i =
    ((v.get i).map fun _ => (posts documents i).erase doc).getD (posts documents i) := by
  refine OrdMap.ext_get fun d => ?_
  rw [get_posts, OrdMap.get_erase]
  cases hi : v.get i with
  | none =>
    rw [Option.map_none, Option.getD_none, get_posts]
    split
    · next hd => rw [hd, h, Option.bind_some, hi, Option.bind_none]
    · rfl
  | some w =>
    rw [Option.map_some, Option.getD_some, OrdMap.get_erase, get_posts]
    split <;> rfl

theorem indexed_insert (h : documents.get doc = none) : indexed (documents.insert doc v) =
    indexed documents + if v.entries.isEmpty then 0 else 1 := by
  unfold indexed
  rw [((OrdMap.insert_perm h).filter _).length_eq, List.filter_cons]
  cases v.entries.isEmpty <;> rfl

theorem indexed_erase (h : documents.get doc = some v) : indexed documents =
    indexed (documents.erase doc) + if v.entries.isEmpty then 0 else 1 := by
  unfold indexed
  rw [((OrdMap.erase_perm h).filter _).length_eq, List.filter_cons]
  cases v.entries.isEmpty <;> rfl

/-! ## 4. Runs -/

/-- A write of the index. -/
inductive Write where
  | insert (doc : DocId) (v : SparseVector)
  | remove (doc : DocId) (v : SparseVector)

/-- The index and the documents it was given, after a write. -/
def writeStep (g : Growth) (s : SparseIndex × OrdMap SparseVector) :
    Write → Option (SparseIndex × OrdMap SparseVector)
  | .insert doc v => (s.1.insert g doc v.entries).map fun ix => (ix, s.2.insert doc v)
  | .remove doc v => (s.1.remove doc v.entries).map fun ix => (ix, s.2.erase doc)

/-- A document is put in where it is not in, and taken out with what was indexed. -/
def Fits (s : SparseIndex × OrdMap SparseVector) : Write → Prop
  | .insert doc _ => s.2.get doc = none ∧ doc < docMax
  | .remove doc v => s.2.get doc = some v

/-- **What the index is between writes**: its lists the documents' own, its count theirs, its
bytes its lists'. -/
structure Indexed (s : SparseIndex × OrdMap SparseVector) : Prop where
  holds : s.1.Holds (posts s.2)
  docs : s.1.docs = indexed s.2
  below : ∀ e ∈ s.2.entries, e.1 < docMax

variable {s : SparseIndex × OrdMap SparseVector} {g : Growth}

theorem indexed_new : Indexed (.new, .empty) where
  holds := by
    have hposts : posts (.empty : OrdMap SparseVector) = fun _ => .empty := rfl
    rw [hposts]
    exact SparseIndex.holds_new
  docs := rfl
  below _ he := absurd he List.not_mem_nil

/-- **`insert` puts the vector's weights into the lists.** -/
theorem Indexed.insert (h : Indexed s) (hnone : s.2.get doc = none) (hdoc : doc < docMax) :
    ∃ ix, s.1.insert g doc v.entries = some ix ∧ Indexed (ix, s.2.insert doc v) := by
  have hbelow : ∀ e ∈ (s.2.insert doc v).entries, e.1 < docMax := by
    intro e he
    rcases OrdMap.mem_insertEntry he with rfl | he
    · exact hdoc
    · exact h.below e he
  have hposts : posts (s.2.insert doc v) = v.entries.foldl (fun post e =>
      Function.update post e.1 ((post e.1).insert doc e.2)) (posts s.2) := by
    funext i
    rw [posts_insert hnone]
    exact (SparseIndex.foldl_update (f := fun m w => m.insert doc w) v.ascending i).symm
  have hcount : indexed (s.2.insert doc v) = _ := indexed_insert hnone
  unfold SparseIndex.insert
  by_cases hempty : v.entries.isEmpty
  · rw [List.isEmpty_iff.mp hempty, List.foldl_nil] at hposts
    rw [if_pos hempty] at hcount ⊢
    exact ⟨s.1, rfl, hposts ▸ h.holds, h.docs.trans hcount.symm, hbelow⟩
  · obtain ⟨ix, hfold, hdocs, hholds⟩ := SparseIndex.foldlM_insert g doc v.entries h.holds
    rw [if_neg hempty] at hcount ⊢
    rw [hfold]
    refine ⟨_, rfl, hposts ▸ hholds.count _, ?_, hbelow⟩
    show ix.docs + 1 = _
    rw [hdocs, h.docs, hcount]

/-- **`remove` takes the document out of the lists**, given what was indexed. -/
theorem Indexed.remove (h : Indexed s) (hsome : s.2.get doc = some v) :
    ∃ ix, s.1.remove doc v.entries = some ix ∧ Indexed (ix, s.2.erase doc) := by
  have hbelow : ∀ e ∈ (s.2.erase doc).entries, e.1 < docMax :=
    fun e he => h.below e (List.mem_filter.mp he).1
  have hposts : posts (s.2.erase doc) = v.entries.foldl (fun post e =>
      Function.update post e.1 ((post e.1).erase doc)) (posts s.2) := by
    funext i
    rw [posts_erase hsome]
    exact (SparseIndex.foldl_update (f := fun m _ => m.erase doc) v.ascending i).symm
  have hcount : indexed s.2 = _ := indexed_erase hsome
  unfold SparseIndex.remove
  by_cases hempty : v.entries.isEmpty
  · rw [List.isEmpty_iff.mp hempty, List.foldl_nil] at hposts
    rw [if_pos hempty] at hcount ⊢
    exact ⟨s.1, rfl, hposts ▸ h.holds, h.docs.trans hcount, hbelow⟩
  · obtain ⟨ix, hfold, hdocs, hholds⟩ := SparseIndex.foldlM_remove doc v.entries h.holds
    rw [if_neg hempty] at hcount ⊢
    rw [hfold]
    refine ⟨_, rfl, hposts ▸ hholds.count _, ?_, hbelow⟩
    show ix.docs - 1 = _
    rw [hdocs, h.docs, hcount, Nat.add_sub_cancel]

/-- Every write that fits is done and keeps what the index is. -/
theorem Indexed.step (h : Indexed s) {w : Write} (hw : Fits s w) :
    ∃ s', writeStep g s w = some s' ∧ Indexed s' := by
  cases w with
  | insert doc v =>
    obtain ⟨ix, hix, hnext⟩ := h.insert (g := g) (v := v) hw.1 hw.2
    exact ⟨_, by rw [writeStep, hix]; rfl, hnext⟩
  | remove doc v =>
    obtain ⟨ix, hix, hnext⟩ := h.remove hw
    exact ⟨_, by rw [writeStep, hix]; rfl, hnext⟩

/-- **Every run of writes that fit is done**, and leaves the index what it is between writes. -/
theorem indexed_run {ws : List Write} (h : Along (writeStep g) Fits (.new, .empty) ws) :
    ∃ s, run (writeStep g) (.new, .empty) ws = some s ∧ Indexed s :=
  run_returns (fun _ _ hs hw => hs.step hw) indexed_new h

/-! ## 5. A fresh build -/

/-- A dimension's documents and weights, none where it has no list. -/
def SparseIndex.postings (ix : SparseIndex) (i : Nat) : List DocId × List ℚ :=
  ((ix.list i).map fun l => (l.docs, l.weights)).getD ([], [])

/-- A dimension's documents and weights are those of the documents held. -/
theorem Indexed.postings_eq (h : Indexed s) (i : Nat) :
    s.1.postings i = ((posts s.2 i).keys, (posts s.2 i).entries.map (·.2)) := by
  unfold SparseIndex.postings SparseIndex.list
  cases hi : s.1.at_.get i with
  | none =>
    rw [h.holds.missing hi]
    rfl
  | some k =>
    have hl := List.getElem?_eq_getElem (h.holds.inside hi)
    have hlist := h.holds.held hi hl
    rw [Option.bind_some, hl]
    exact Prod.ext hlist.docs hlist.weights

/-- A fresh build: the documents inserted in order. -/
def SparseIndex.build (g : Growth) (documents : OrdMap SparseVector) : Option SparseIndex :=
  documents.entries.foldlM (fun ix e => ix.insert g e.1 e.2.entries) .new

/-- A map with a key past all others. -/
theorem insert_last {α : Type} {m : OrdMap α} {k : Nat} {a : α} (h : ∀ e ∈ m.entries, e.1 < k) :
    (m.insert k a).entries = m.entries ++ [(k, a)] := by
  have hput := OrdMap.insertEntry_between (v := a) h (B := []) fun e he =>
    absurd he List.not_mem_nil
  rw [List.append_nil] at hput
  exact hput

/-- A fresh build is done, and is an index of the documents. -/
theorem indexed_build (g : Growth) (h : ∀ e ∈ documents.entries, e.1 < docMax) :
    ∃ ix, SparseIndex.build g documents = some ix ∧ Indexed (ix, documents) := by
  have hasc := documents.ascending
  suffices hrest : ∀ (B A : List (DocId × SparseVector)) (s : SparseIndex × OrdMap SparseVector),
      documents.entries = A ++ B → s.2.entries = A → Indexed s →
      ∃ ix, B.foldlM (fun (ix : SparseIndex) e => ix.insert g e.1 e.2.entries) s.1 = some ix ∧
        Indexed (ix, documents) from
    hrest documents.entries [] (.new, .empty) rfl rfl indexed_new
  intro B
  induction B with
  | nil =>
    intro A s hcut hA hs
    have hsame : s.2 = documents := OrdMap.ext (by rw [hA, hcut, List.append_nil])
    exact ⟨s.1, rfl, hsame ▸ hs⟩
  | cons e B ih =>
    intro A s hcut hA hs
    have hlow : ∀ a ∈ s.2.entries, a.1 < e.1 := by
      rw [hcut] at hasc
      rw [hA]
      exact fun a ha => (List.pairwise_append.mp hasc).2.2 a ha e List.mem_cons_self
    have hnone : s.2.get e.1 = none := by
      refine Option.eq_none_iff_forall_ne_some.mpr fun v hv => ?_
      exact Nat.lt_irrefl _ (hlow (e.1, v) (OrdMap.mem_entries_iff.mpr hv))
    have he : e ∈ documents.entries := by
      rw [hcut]
      exact List.mem_append_right _ List.mem_cons_self
    obtain ⟨ix, hix, hnext⟩ := hs.insert (g := g) (v := e.2) hnone (h e he)
    obtain ⟨ix', hrun, hix'⟩ := ih (A ++ [e]) (ix, s.2.insert e.1 e.2)
      (by rw [hcut, List.append_assoc]; rfl) (by rw [insert_last hlow, hA]) hnext
    refine ⟨ix', ?_, hix'⟩
    rw [List.foldlM_cons, hix]
    exact hrun

end Fenec.Near
