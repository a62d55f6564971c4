/-
# What each kind of index holds, and when two values are filed alike

Each kind of index is a `Filing`: what it holds is determined by the rows, up to the order rows
are listed in, and inserting and removing a row keep it so (`hashFiling`, `sortedFiling`,
`sparseFiling`, `compositeFiling`).

The engine calls a field unchanged when the old and the new value have one filing key
(`same`), and then touches no index of the field.  The kinds have different notions of equal, so
that is a claim about each of them; `hashKey_eq_cases` is the one fact behind all four: values of
one key are equal, or they are numbers with the same place in a json order.
-/
import Fenec.Document
import Fenec.Index

namespace Fenec

open Lib Case

/-! ## 1. Values of one key -/

theorem floatKey_add_posZero (f : F64) : floatKey (f.add Ieee.posZero) = floatKey f := by
  rw [Ieee.add_posZero (by decide)]
  split
  · next h => simp [floatKey, h, Ieee.mag_posZero]
  · rfl

theorem isNaN_of_isWhole {f : F64} (h : f.isWhole = true) : f.isNaN = false := by
  simp only [Ieee.isWhole, Ieee.isFinite, Ieee.isNaN, Bool.and_eq_true, decide_eq_true_eq,
    decide_eq_false_iff_not] at h ⊢
  omega

/-- A whole float up to `EXACT_INT` is filed as the integer it is, exactly. -/
theorem jsonSlot_exact {f : F64} (h : (f.isWhole && f.abs.le exactInt) = true) :
    jsonSlot (some (.float f)) = .num (floatKey f) ∧
      jsonSlot (some (.int f.toInt64)) = .num (floatKey f) := by
  obtain ⟨hw, hle⟩ := Bool.and_eq_true_iff.mp h
  have hnan := isNaN_of_isWhole hw
  have hmag : f.mag ≤ exactInt.mag := by
    have habs : f.abs.ord ≤ exactInt.ord := (Ieee.le_iff.mp hle).2.2
    have hm : f.abs.mag = f.mag := Ieee.mag_ofMag (Ieee.mag_lt f)
    have hn : f.abs.neg = false := Ieee.neg_ofMag (Ieee.mag_lt f)
    have he : exactInt.neg = false := by decide
    simpa [Ieee.ord, hn, hm, he] using habs
  have hsize : f.trunc.natAbs ≤ 2 ^ 53 := by
    have h53 : exactInt.scaled / 2 ^ Ieee.unit 11 52 = 2 ^ 53 := by decide +kernel
    exact h53 ▸ Ieee.natAbs_trunc_le hmag
  have hint : f.toInt64.toInt = f.trunc := by
    refine Ieee.toInt_toInt64 ?_ (by omega)
    exact (Bool.and_eq_true_iff.mp hw).1
  have hexact : exactAsFloat f.toInt64 = true := by
    rw [exactAsFloat, hint]
    exact decide_eq_true hsize
  refine ⟨by simp [jsonSlot, hnan], ?_⟩
  simp only [jsonSlot, hexact, hint, if_true, Ieee.ofInt_trunc (by decide : 1 ≤ 11) hw,
    floatKey_add_posZero]

/-- The value whose bytes a value is filed under. -/
def filedAs : Value → Value
  | .float f =>
    if f.isWhole && f.abs.le exactInt then .int f.toInt64 else .float (f.add Ieee.posZero)
  | v => v

theorem hashKey_eq (v : Value) : hashKey v = Codec.encodeValue (filedAs v) := by
  cases v with
  | float f =>
    simp only [hashKey, filedAs]
    split <;> rfl
  | _ => rfl

theorem filedAs_eq {v w : Value} (h : hashKey v = hashKey w) : filedAs v = filedAs w := by
  rw [hashKey_eq, hashKey_eq] at h
  exact Codec.encodeValue_inj h

theorem jsonSlot_filedAs (v : Value) : jsonSlot (some (filedAs v)) = jsonSlot (some v) := by
  unfold filedAs
  split
  · next f =>
    split
    · next h => rw [(jsonSlot_exact h).1, (jsonSlot_exact h).2]
    · simp only [jsonSlot, Ieee.isNaN_add_posZero (by decide : 1 ≤ 11), floatKey_add_posZero]
  · rfl

/-- A value that is filed as another is a float, and one with a place in the order. -/
theorem filedAs_ne {v : Value} (h : filedAs v ≠ v) :
    (∃ f, v = .float f) ∧ ∃ k, jsonSlot (some v) = .num k := by
  cases v with
  | float f =>
    refine ⟨⟨f, rfl⟩, ?_⟩
    unfold filedAs at h
    by_cases hx : (f.isWhole && f.abs.le exactInt) = true
    · exact ⟨_, (jsonSlot_exact hx).1⟩
    · have hnan : f.isNaN = false := by
        by_contra hnan
        rw [Bool.not_eq_false] at hnan
        exact h (by simp only [hx]; simp [Ieee.add, hnan])
      exact ⟨floatKey f, by simp [jsonSlot, hnan]⟩
  | _ => exact absurd rfl h

/-- **Values of one key are equal, or numbers at one place of a json order**, one of them a
float. -/
theorem hashKey_eq_cases {v w : Value} (h : hashKey v = hashKey w) :
    v = w ∨ ((∃ f, v = .float f) ∨ ∃ f, w = .float f) ∧
      ∃ k, jsonSlot (some v) = .num k ∧ jsonSlot (some w) = .num k := by
  have hf := filedAs_eq h
  have hslot : jsonSlot (some v) = jsonSlot (some w) := by
    rw [← jsonSlot_filedAs v, ← jsonSlot_filedAs w, hf]
  by_cases hv : filedAs v = v
  · by_cases hw : filedAs w = w
    · exact .inl (by rw [← hv, ← hw, hf])
    · obtain ⟨hfl, k, hk⟩ := filedAs_ne hw
      exact .inr ⟨.inr hfl, k, hslot.trans hk, hk⟩
  · obtain ⟨hfl, k, hk⟩ := filedAs_ne hv
    exact .inr ⟨.inl hfl, k, hk, hslot.symm.trans hk⟩

theorem jsonSlot_of_hashKey {v w : Value} (h : hashKey v = hashKey w) :
    jsonSlot (some v) = jsonSlot (some w) := by
  rcases hashKey_eq_cases h with rfl | ⟨-, k, hv, hw⟩
  · rfl
  · rw [hv, hw]

/-- A json number is an integer or a float. -/
theorem jsonSlot_num {v : Value} {k : Nat} (h : jsonSlot (some v) = .num k) :
    (∃ i, v = .int i) ∨ ∃ f, v = .float f ∧ f.isNaN = false ∧ floatKey f = k := by
  cases v <;> simp only [jsonSlot] at h
  case int i => exact .inl ⟨i, rfl⟩
  case float f =>
    right
    split at h
    · cases h
    · next hn => exact ⟨f, rfl, by simpa using hn, by simpa using h⟩
  all_goals cases h

/-- Values of one key and one type are equal, or floats of one word. -/
theorem typed_hashKey {ty : DataType} (hty : ty ≠ .json) {v w : Value} (hv : ty.holds v = true)
    (hw : ty.holds w = true) (h : hashKey v = hashKey w) :
    v = w ∨ ty = .float ∧ ∃ f g, v = .float f ∧ w = .float g ∧ f.isNaN = false ∧
      g.isNaN = false ∧ floatKey f = floatKey g := by
  rcases hashKey_eq_cases h with rfl | ⟨hfl, k, hvk, hwk⟩
  · exact .inl rfl
  · right
    have hfloat : ty = .float := by
      rcases hfl with ⟨f, rfl⟩ | ⟨f, rfl⟩
      · cases ty <;> first | rfl | exact absurd rfl hty | cases hv
      · cases ty <;> first | rfl | exact absurd rfl hty | cases hw
    subst hfloat
    refine ⟨rfl, ?_⟩
    rcases jsonSlot_num hvk with ⟨i, rfl⟩ | ⟨f, rfl, hf, hfk⟩
    · cases hv
    · rcases jsonSlot_num hwk with ⟨i, rfl⟩ | ⟨g, rfl, hg, hgk⟩
      · cases hw
      · exact ⟨f, g, rfl, rfl, hf, hg, hfk.trans hgk.symm⟩

theorem text_of_hashKey {v w : Value} (h : hashKey v = hashKey w)
    (ht : (∃ t, v = .text t) ∨ ∃ t, w = .text t) : v = w := by
  rcases hashKey_eq_cases h with rfl | ⟨-, k, hv, hw⟩
  · rfl
  · rcases ht with ⟨t, rfl⟩ | ⟨t, rfl⟩
    · cases hv
    · cases hw

/-! ## 2. Orders find an entry by itself -/

theorem finds_entryOrder {κ : Type} {cmp : κ → κ → Ordering} (h : ∀ k, cmp k k = .eq) :
    Entries.Finds (entryOrder cmp) where
  self x := by simp [entryOrder, h]
  row x y hxy := by
    simp only [entryOrder, Ordering.then_eq_eq] at hxy
    exact Std.compare_eq_iff_eq.mp hxy.2

theorem finds_numOrder : Entries.Finds SortedIndex.numOrder :=
  finds_entryOrder fun _ => Std.compare_self

theorem finds_strOrder (B : Build) (coll : Option Collation) :
    Entries.Finds (SortedIndex.strOrder B coll) := by
  refine finds_entryOrder fun t => ?_
  cases coll with
  | none => exact cmpStr_eq_iff.mpr rfl
  | some c => exact (Collation.compare_eq_iff B.collation c).mpr rfl

theorem cmpKeys_self (B : Build) (fuel : Nat) (k : Key) :
    CompositeKey.cmpKeys B fuel k k = .eq := by
  induction fuel generalizing k with
  | zero => cases k <;> rfl
  | succ fuel ih =>
    cases k with
    | nil => rfl
    | cons x xs =>
      have hpart : CompositeKey.cmpPart B (x :: xs) (x :: xs) x = .eq := by
        unfold CompositeKey.cmpPart
        dsimp only
        split
        · next c _ =>
          rw [(Collation.compare_eq_iff B.collation c).mpr rfl]
          split <;> rfl
        · unfold CompositeKey.cmpSlice
          split <;> simp_all
      simp only [CompositeKey.cmpKeys, ne_eq, not_true, if_false, hpart, ih, Ordering.then]

theorem finds_compositeOrder (B : Build) (parts : List Part) :
    Entries.Finds (CompositeIndex.order B parts) := by
  refine finds_entryOrder fun k => ?_
  split
  · exact cmpKeys_self B _ k
  · exact Std.compare_self

/-! ## 3. Entries of the rows -/

namespace SortedIndex

variable {κ : Type} {key : Option Value → Option κ} {cmp : κ × DocId → κ × DocId → Ordering}
variable {c : List (κ × DocId)} {l l' : List (DocId × Option Value)} {id : DocId}
variable {v w : Option Value} {k : κ}

theorem keysOf_cons_some (h : key v = some k) :
    keysOf key ((id, v) :: l) = (k, id) :: keysOf key l := by
  simp [keysOf, h]

theorem keysOf_cons_none (h : key v = none) : keysOf key ((id, v) :: l) = keysOf key l := by
  simp [keysOf, h]

theorem notMem_keysOf (h : id ∉ l.map (·.1)) : id ∉ (keysOf key l).map (·.2) := by
  intro hmem
  obtain ⟨e, he, rfl⟩ := List.mem_map.mp hmem
  obtain ⟨r, hr, hre⟩ := List.mem_filterMap.mp he
  obtain ⟨k, -, rfl⟩ := Option.map_eq_some_iff.mp hre
  exact h (List.mem_map.mpr ⟨r, hr, rfl⟩)

theorem keysOf_perm (h : l.Perm l') : (keysOf key l).Perm (keysOf key l') := h.filterMap _

theorem insert_keysOf (hc : Entries.Finds cmp) (h : c.Perm (keysOf key l))
    (hid : id ∉ l.map (·.1)) (hk : key v = some k) :
    (Entries.insert cmp (k, id) c).Perm (keysOf key ((id, v) :: l)) := by
  rw [keysOf_cons_some hk]
  refine (Entries.insert_perm hc ?_).trans (h.cons _)
  rw [(h.map (·.2)).mem_iff]
  exact notMem_keysOf hid

theorem remove_keysOf (hc : Entries.Finds cmp) (h : c.Perm (keysOf key ((id, v) :: l)))
    (hid : id ∉ l.map (·.1)) (hk : key v = some k) :
    (Entries.remove cmp (k, id) c).Perm (keysOf key l) := by
  rw [keysOf_cons_some hk] at h
  exact Entries.remove_perm hc h (notMem_keysOf hid)

theorem skip_insert (h : c.Perm (keysOf key l)) (hk : key v = none) :
    c.Perm (keysOf key ((id, v) :: l)) := by
  rw [keysOf_cons_none hk]
  exact h

theorem skip_remove (h : c.Perm (keysOf key ((id, v) :: l))) (hk : key v = none) :
    c.Perm (keysOf key l) := by
  rw [keysOf_cons_none hk] at h
  exact h

/-- Rows whose values have one key have the same entries. -/
theorem keysOf_alike (h : c.Perm (keysOf key ((id, v) :: l))) (hk : key v = key w) :
    c.Perm (keysOf key ((id, w) :: l)) := by
  simpa [keysOf, List.filterMap_cons, hk] using h

theorem sorted_perm (cmp : κ × DocId → κ × DocId → Ordering) (c : List (κ × DocId)) :
    (sorted cmp c).Perm c :=
  List.mergeSort_perm _ _

end SortedIndex

/-! ## 4. Hash indexes -/

/-- **How a hash index files rows.** -/
def hashFiling (B : Build) (fold : Option CaseFold) : Filing HashIndex Value where
  insert ix id v := ix.add (ix.key B v) id
  remove ix id v := ix.remove (ix.key B v) id
  Holds ix rows := ix = ⟨fold, (rows.map fun r => (foldedKey B r.2 fold, r.1)).toFinset⟩
  holds_perm := by
    rintro ix l l' rfl hperm
    rw [List.toFinset_eq_of_perm _ _ (hperm.map _)]
  holds_insert := by
    rintro ix l id v rfl -
    simp [HashIndex.add, HashIndex.key]
  holds_remove := by
    rintro ix l id v rfl hid
    simp only [HashIndex.remove, HashIndex.key, List.map_cons, List.toFinset_cons]
    rw [Finset.erase_insert]
    intro hmem
    obtain ⟨r, hr, hre⟩ := List.mem_map.mp (List.mem_toFinset.mp hmem)
    exact hid (List.mem_map.mpr ⟨r, hr, congrArg Prod.snd hre⟩)

theorem foldedKey_of_hashKey (B : Build) (fold : Option CaseFold) {v w : Value}
    (h : hashKey v = hashKey w) : foldedKey B v fold = foldedKey B w fold := by
  by_cases ht : (∃ t, v = .text t) ∨ ∃ t, w = .text t
  · rw [text_of_hashKey h ht]
  · obtain ⟨hv, hw⟩ := not_or.mp ht
    have hplain : ∀ u : Value, (¬ ∃ t, u = .text t) → foldedKey B u fold = hashKey u := by
      intro u hu
      unfold foldedKey
      split
      · next t _ => exact absurd ⟨t, rfl⟩ hu
      · rfl
    rw [hplain v hv, hplain w hw, h]

theorem hashFiling_alike (B : Build) (fold : Option CaseFold) {v w : Value}
    (h : hashKey v = hashKey w) : (hashFiling B fold).Alike v w := by
  rintro ix id l rfl
  show _ = _
  simp only [List.map_cons, foldedKey_of_hashKey B fold h]

/-! ## 5. Ordered indexes -/

/-- The entries an index with keys and rows apart holds of its rows. -/
structure Ordered.Holds {κ : Type} [DecidableEq κ] (slot : Option Value → KeySlot κ) (zero : κ)
    (o : Ordered κ) (rows : List (DocId × Option Value)) : Prop where
  keys : o.keys.Perm (SortedIndex.keysOf (fun v => (slot v).key?) rows)
  nulls : o.nulls.Perm (SortedIndex.keysOf (fun v => (slot v).only .null zero) rows)
  nans : o.nans.Perm (SortedIndex.keysOf (fun v => (slot v).only .nan zero) rows)

/-- The entries a json index holds of its rows. -/
structure JsonOrdered.Holds (j : JsonOrdered) (rows : List (DocId × Option Value)) : Prop where
  num : j.num.Perm (SortedIndex.keysOf (fun v => (jsonSlot v).num?) rows)
  text : j.text.Perm (SortedIndex.keysOf (fun v => (jsonSlot v).text?) rows)
  nulls : j.nulls.Perm (SortedIndex.keysOf (fun v => (jsonSlot v).only .null) rows)
  apart : j.apart.Perm (SortedIndex.keysOf (fun v => (jsonSlot v).only .apart) rows)

/-- The shape an ordered index has by its field's type. -/
inductive SortedShape where
  | num
  | text (order : TextOrder)
  | json
deriving DecidableEq

/-- The shape of an index over a field. -/
def SortedShape.of (ty : DataType) (order : TextOrder) : SortedShape :=
  match ty with
  | .text => .text order
  | .json => .json
  | _ => .num

namespace SortedIndex

variable (B : Build)

/-- The shape an index has. -/
def shape : SortedIndex → SortedShape
  | .num _ => .num
  | .text order _ => .text order
  | .json _ => .json

/-- The entries an index holds of its rows. -/
def Entered (ix : SortedIndex) (rows : List (DocId × Option Value)) : Prop :=
  match ix with
  | .num o => o.Holds numSlot 0 rows
  | .text order o => o.Holds (fun v => textSlot B v order.fold) "" rows
  | .json j => j.Holds rows

variable {B}

theorem shape_insert (ix : SortedIndex) (id : DocId) (v : Option Value) :
    (ix.insert B id v).shape = ix.shape := by
  unfold insert
  cases ix <;> dsimp only <;> split <;> rfl

theorem shape_remove (ix : SortedIndex) (id : DocId) (v : Option Value) :
    (ix.remove B id v).shape = ix.shape := by
  unfold remove
  cases ix <;> dsimp only <;> split <;> rfl

theorem textSlot_ne_nan (v : Option Value) (fold : Option CaseFold) :
    textSlot B v fold ≠ .nan := by
  unfold textSlot
  split <;> simp

end SortedIndex

namespace Ordered

variable {κ : Type} [DecidableEq κ] {slot : Option Value → KeySlot κ} {zero : κ} {o : Ordered κ}
variable {cmp : κ × DocId → κ × DocId → Ordering} {l : List (DocId × Option Value)} {id : DocId}
variable {v : Option Value}

open SortedIndex

theorem Holds.insert_key (h : o.Holds slot zero l) (hc : Entries.Finds cmp)
    (hid : id ∉ l.map (·.1)) {k : κ} (hv : slot v = .key k) :
    Holds slot zero { o with keys := Entries.insert cmp (k, id) o.keys } ((id, v) :: l) where
  keys := insert_keysOf hc h.keys hid (by rw [hv]; rfl)
  nulls := skip_insert h.nulls (by rw [hv]; rfl)
  nans := skip_insert h.nans (by rw [hv]; rfl)

theorem Holds.insert_null (h : o.Holds slot zero l) (hc : Entries.Finds cmp)
    (hid : id ∉ l.map (·.1)) (hv : slot v = .null) :
    Holds slot zero { o with nulls := Entries.insert cmp (zero, id) o.nulls } ((id, v) :: l) where
  keys := skip_insert h.keys (by rw [hv]; rfl)
  nulls := insert_keysOf hc h.nulls hid (by rw [hv]; rfl)
  nans := skip_insert h.nans (by rw [hv]; rfl)

theorem Holds.insert_nan (h : o.Holds slot zero l) (hc : Entries.Finds cmp)
    (hid : id ∉ l.map (·.1)) (hv : slot v = .nan) :
    Holds slot zero { o with nans := Entries.insert cmp (zero, id) o.nans } ((id, v) :: l) where
  keys := skip_insert h.keys (by rw [hv]; rfl)
  nulls := skip_insert h.nulls (by rw [hv]; rfl)
  nans := insert_keysOf hc h.nans hid (by rw [hv]; rfl)

theorem Holds.remove_key (h : o.Holds slot zero ((id, v) :: l)) (hc : Entries.Finds cmp)
    (hid : id ∉ l.map (·.1)) {k : κ} (hv : slot v = .key k) :
    Holds slot zero { o with keys := Entries.remove cmp (k, id) o.keys } l where
  keys := remove_keysOf hc h.keys hid (by rw [hv]; rfl)
  nulls := skip_remove h.nulls (by rw [hv]; rfl)
  nans := skip_remove h.nans (by rw [hv]; rfl)

theorem Holds.remove_null (h : o.Holds slot zero ((id, v) :: l)) (hc : Entries.Finds cmp)
    (hid : id ∉ l.map (·.1)) (hv : slot v = .null) :
    Holds slot zero { o with nulls := Entries.remove cmp (zero, id) o.nulls } l where
  keys := skip_remove h.keys (by rw [hv]; rfl)
  nulls := remove_keysOf hc h.nulls hid (by rw [hv]; rfl)
  nans := skip_remove h.nans (by rw [hv]; rfl)

theorem Holds.remove_nan (h : o.Holds slot zero ((id, v) :: l)) (hc : Entries.Finds cmp)
    (hid : id ∉ l.map (·.1)) (hv : slot v = .nan) :
    Holds slot zero { o with nans := Entries.remove cmp (zero, id) o.nans } l where
  keys := skip_remove h.keys (by rw [hv]; rfl)
  nulls := skip_remove h.nulls (by rw [hv]; rfl)
  nans := remove_keysOf hc h.nans hid (by rw [hv]; rfl)

end Ordered

namespace SortedIndex

variable {B : Build} {ix : SortedIndex} {l l' : List (DocId × Option Value)} {id : DocId}
variable {v w : Option Value}

theorem Entered.perm (h : ix.Entered B l) (hperm : l.Perm l') : ix.Entered B l' := by
  cases ix with
  | num o =>
    exact ⟨h.keys.trans (keysOf_perm hperm), h.nulls.trans (keysOf_perm hperm),
      h.nans.trans (keysOf_perm hperm)⟩
  | text order o =>
    exact ⟨h.keys.trans (keysOf_perm hperm), h.nulls.trans (keysOf_perm hperm),
      h.nans.trans (keysOf_perm hperm)⟩
  | json j =>
    exact ⟨h.num.trans (keysOf_perm hperm), h.text.trans (keysOf_perm hperm),
      h.nulls.trans (keysOf_perm hperm), h.apart.trans (keysOf_perm hperm)⟩

theorem Entered.insert (h : ix.Entered B l) (hid : id ∉ l.map (·.1)) :
    (ix.insert B id v).Entered B ((id, v) :: l) := by
  cases ix with
  | num o =>
    unfold SortedIndex.insert
    dsimp only
    split
    · next hv => exact Ordered.Holds.insert_key h finds_numOrder hid hv
    · next hv => exact Ordered.Holds.insert_null h finds_numOrder hid hv
    · next hv => exact Ordered.Holds.insert_nan h finds_numOrder hid hv
  | text order o =>
    unfold SortedIndex.insert
    dsimp only
    split
    · next hv => exact Ordered.Holds.insert_key h (finds_strOrder B _) hid hv
    · next hv =>
      have hnull : textSlot B v order.fold = .null := by
        cases hs : textSlot B v order.fold with
        | key k => exact absurd hs (hv k)
        | null => rfl
        | nan => exact absurd hs (textSlot_ne_nan v _)
      exact Ordered.Holds.insert_null h (finds_strOrder B _) hid hnull
  | json j =>
    unfold SortedIndex.insert
    dsimp only
    split
    · next hv =>
      exact {
        num := insert_keysOf finds_numOrder h.num hid (by rw [hv]; rfl)
        text := skip_insert h.text (by rw [hv]; rfl)
        nulls := skip_insert h.nulls (by rw [hv]; rfl)
        apart := skip_insert h.apart (by rw [hv]; rfl) }
    · next hv =>
      exact {
        num := skip_insert h.num (by rw [hv]; rfl)
        text := insert_keysOf (finds_strOrder B none) h.text hid (by rw [hv]; rfl)
        nulls := skip_insert h.nulls (by rw [hv]; rfl)
        apart := skip_insert h.apart (by rw [hv]; rfl) }
    · next hv =>
      exact {
        num := skip_insert h.num (by rw [hv]; rfl)
        text := skip_insert h.text (by rw [hv]; rfl)
        nulls := insert_keysOf finds_numOrder h.nulls hid (by rw [hv]; rfl)
        apart := skip_insert h.apart (by rw [hv]; rfl) }
    · next hv =>
      exact {
        num := skip_insert h.num (by rw [hv]; rfl)
        text := skip_insert h.text (by rw [hv]; rfl)
        nulls := skip_insert h.nulls (by rw [hv]; rfl)
        apart := insert_keysOf finds_numOrder h.apart hid (by rw [hv]; rfl) }

theorem Entered.remove (h : ix.Entered B ((id, v) :: l)) (hid : id ∉ l.map (·.1)) :
    (ix.remove B id v).Entered B l := by
  cases ix with
  | num o =>
    unfold SortedIndex.remove
    dsimp only
    split
    · next hv => exact Ordered.Holds.remove_key h finds_numOrder hid hv
    · next hv => exact Ordered.Holds.remove_null h finds_numOrder hid hv
    · next hv => exact Ordered.Holds.remove_nan h finds_numOrder hid hv
  | text order o =>
    unfold SortedIndex.remove
    dsimp only
    split
    · next hv => exact Ordered.Holds.remove_key h (finds_strOrder B _) hid hv
    · next hv =>
      have hnull : textSlot B v order.fold = .null := by
        cases hs : textSlot B v order.fold with
        | key k => exact absurd hs (hv k)
        | null => rfl
        | nan => exact absurd hs (textSlot_ne_nan v _)
      exact Ordered.Holds.remove_null h (finds_strOrder B _) hid hnull
  | json j =>
    unfold SortedIndex.remove
    dsimp only
    split
    · next hv =>
      exact {
        num := remove_keysOf finds_numOrder h.num hid (by rw [hv]; rfl)
        text := skip_remove h.text (by rw [hv]; rfl)
        nulls := skip_remove h.nulls (by rw [hv]; rfl)
        apart := skip_remove h.apart (by rw [hv]; rfl) }
    · next hv =>
      exact {
        num := skip_remove h.num (by rw [hv]; rfl)
        text := remove_keysOf (finds_strOrder B none) h.text hid (by rw [hv]; rfl)
        nulls := skip_remove h.nulls (by rw [hv]; rfl)
        apart := skip_remove h.apart (by rw [hv]; rfl) }
    · next hv =>
      exact {
        num := skip_remove h.num (by rw [hv]; rfl)
        text := skip_remove h.text (by rw [hv]; rfl)
        nulls := remove_keysOf finds_numOrder h.nulls hid (by rw [hv]; rfl)
        apart := skip_remove h.apart (by rw [hv]; rfl) }
    · next hv =>
      exact {
        num := skip_remove h.num (by rw [hv]; rfl)
        text := skip_remove h.text (by rw [hv]; rfl)
        nulls := skip_remove h.nulls (by rw [hv]; rfl)
        apart := remove_keysOf finds_numOrder h.apart hid (by rw [hv]; rfl) }

/-- The slots that decide where an index of a shape files a value. -/
def Slots (B : Build) (sh : SortedShape) (v w : Option Value) : Prop :=
  match sh with
  | .num => numSlot v = numSlot w
  | .text order => textSlot B v order.fold = textSlot B w order.fold
  | .json => jsonSlot v = jsonSlot w

theorem Entered.alike (h : ix.Entered B ((id, v) :: l)) (hvw : Slots B ix.shape v w) :
    ix.Entered B ((id, w) :: l) := by
  cases ix with
  | num o =>
    have hs : numSlot v = numSlot w := hvw
    exact ⟨keysOf_alike h.keys (by simp only [hs]), keysOf_alike h.nulls (by simp only [hs]),
      keysOf_alike h.nans (by simp only [hs])⟩
  | text order o =>
    have hs : textSlot B v order.fold = textSlot B w order.fold := hvw
    exact ⟨keysOf_alike h.keys (by simp only [hs]), keysOf_alike h.nulls (by simp only [hs]),
      keysOf_alike h.nans (by simp only [hs])⟩
  | json j =>
    have hs : jsonSlot v = jsonSlot w := hvw
    exact ⟨keysOf_alike h.num (by simp only [hs]), keysOf_alike h.text (by simp only [hs]),
      keysOf_alike h.nulls (by simp only [hs]), keysOf_alike h.apart (by simp only [hs])⟩

end SortedIndex

/-- **How an ordered index files rows.** -/
def sortedFiling (B : Build) (sh : SortedShape) : Filing SortedIndex (Option Value) where
  insert ix id v := ix.insert B id v
  remove ix id v := ix.remove B id v
  Holds ix rows := ix.shape = sh ∧ ix.Entered B rows
  holds_perm h hperm := ⟨h.1, h.2.perm hperm⟩
  holds_insert h hid := ⟨(SortedIndex.shape_insert _ _ _).trans h.1, h.2.insert hid⟩
  holds_remove h hid := ⟨(SortedIndex.shape_remove _ _ _).trans h.1, h.2.remove hid⟩

theorem numSlot_of_hashKey {ty : DataType} (hty : ty ≠ .json) {v w : Value}
    (hv : ty.holds v = true) (hw : ty.holds w = true) (h : hashKey v = hashKey w) :
    numSlot (some v) = numSlot (some w) := by
  rcases typed_hashKey hty hv hw h with rfl | ⟨-, f, g, rfl, rfl, hf, hg, hfg⟩
  · rfl
  · simp [numSlot, hf, hg, hfg]

theorem textSlot_of_hashKey (B : Build) (fold : Option CaseFold) {v w : Value}
    (h : hashKey v = hashKey w) : textSlot B (some v) fold = textSlot B (some w) fold := by
  by_cases ht : (∃ t, v = .text t) ∨ ∃ t, w = .text t
  · rw [text_of_hashKey h ht]
  · obtain ⟨hv, hw⟩ := not_or.mp ht
    have hplain : ∀ u : Value, (¬ ∃ t, u = .text t) → textSlot B (some u) fold = .null := by
      intro u hu
      unfold textSlot
      split
      · next t heq => cases heq; exact absurd ⟨_, rfl⟩ hu
      · next t _ heq => cases heq; exact absurd ⟨_, rfl⟩ hu
      · rfl
    rw [hplain v hv, hplain w hw]

theorem sortedFiling_alike (B : Build) {ty : DataType} {order : TextOrder} {v w : Value}
    (hv : ty.holds v = true) (hw : ty.holds w = true) (h : hashKey v = hashKey w) :
    (sortedFiling B (.of ty order)).Alike (some v) (some w) := by
  rintro ix id l ⟨hsh, hl⟩
  refine ⟨hsh, hl.alike ?_⟩
  rw [hsh]
  unfold SortedShape.of
  split
  · exact textSlot_of_hashKey B _ h
  · exact jsonSlot_of_hashKey h
  · next _ hjson => exact numSlot_of_hashKey hjson hv hw h

/-! ## 6. Composite indexes -/

theorem insertId_perm {id : DocId} {l : List DocId} (h : id ∉ l) : (insertId id l).Perm (id :: l) := by
  rw [insertId, if_neg h]
  refine List.perm_middle.trans ?_
  rw [List.takeWhile_append_dropWhile]

namespace CompositeIndex

/-- The entries an index over some parts holds of its rows. -/
structure Entered (B : Build) (parts : List Part) (ix : CompositeIndex)
    (rows : List (DocId × List Value)) : Prop where
  parts_eq : ix.parts = parts
  keys : ix.keys.Perm (rows.map fun r => ((rowKey B parts r.2).bytes, r.1))
  apart : ix.apart.Perm ((rows.filter fun r => (rowKey B parts r.2).apart).map (·.1))

variable {B : Build} {parts : List Part} {ix : CompositeIndex}
variable {l l' : List (DocId × List Value)} {id : DocId} {vs ws : List Value}

theorem Entered.insert (h : Entered B parts ix l) (hid : id ∉ l.map (·.1)) :
    Entered B parts (ix.insert B id (rowKey B ix.parts vs)) ((id, vs) :: l) where
  parts_eq := h.parts_eq
  keys := by
    refine (Entries.insert_perm (finds_compositeOrder B _) ?_).trans ?_
    · rw [(h.keys.map (·.2)).mem_iff, List.map_map]
      exact hid
    · rw [List.map_cons, h.parts_eq]
      exact h.keys.cons _
  apart := by
    have hnot : id ∉ ix.apart := by
      rw [h.apart.mem_iff]
      intro hmem
      obtain ⟨r, hr, rfl⟩ := List.mem_map.mp hmem
      exact hid (List.mem_map.mpr ⟨r, List.mem_of_mem_filter hr, rfl⟩)
    simp only [CompositeIndex.insert]
    rw [h.parts_eq, List.filter_cons]
    split
    · exact (insertId_perm hnot).trans (h.apart.cons id)
    · exact h.apart

theorem Entered.remove (h : Entered B parts ix ((id, vs) :: l)) (hid : id ∉ l.map (·.1)) :
    Entered B parts (ix.remove B id (rowKey B ix.parts vs)) l where
  parts_eq := h.parts_eq
  keys := by
    have hkeys := h.keys
    rw [List.map_cons, ← h.parts_eq] at hkeys
    rw [← h.parts_eq]
    refine Entries.remove_perm (finds_compositeOrder B _) hkeys ?_
    rw [List.map_map]
    exact hid
  apart := by
    have hapart := h.apart
    simp only [CompositeIndex.remove]
    rw [h.parts_eq]
    rw [List.filter_cons] at hapart
    split
    · next hk =>
      rw [if_pos hk, List.map_cons] at hapart
      have herase := hapart.erase id
      rwa [List.erase_cons_head] at herase
    · next hk =>
      rw [if_neg hk] at hapart
      exact hapart

theorem rowKey_congr {κ : Type} {ks : List κ} {part : κ → Part} {f g : κ → Value}
    (h : ∀ k ∈ ks, CompositeKey.putPart B (part k) (f k) = CompositeKey.putPart B (part k) (g k) ∧
      (f k).isNull = (g k).isNull) :
    rowKey B (ks.map part) (ks.map f) = rowKey B (ks.map part) (ks.map g) := by
  induction ks with
  | nil => rfl
  | cons k ks ih =>
    obtain ⟨hp, hn⟩ := h k (List.mem_cons_self ..)
    simp only [List.map_cons, rowKey]
    rw [hp, hn, ih fun k hk => h k (List.mem_cons_of_mem _ hk)]

end CompositeIndex

/-- **How a composite index files rows.** -/
def compositeFiling (B : Build) (parts : List Part) : Filing CompositeIndex (List Value) where
  insert ix id vs := ix.insert B id (CompositeIndex.rowKey B ix.parts vs)
  remove ix id vs := ix.remove B id (CompositeIndex.rowKey B ix.parts vs)
  Holds := CompositeIndex.Entered B parts
  holds_perm h hperm := ⟨h.parts_eq, h.keys.trans (hperm.map _),
    h.apart.trans ((hperm.filter _).map _)⟩
  holds_insert h hid := h.insert hid
  holds_remove h hid := h.remove hid

theorem isNull_of_hashKey {v w : Value} (h : hashKey v = hashKey w) : v.isNull = w.isNull := by
  rcases hashKey_eq_cases h with rfl | ⟨-, k, hv, hw⟩
  · rfl
  · rcases jsonSlot_num hv with ⟨i, rfl⟩ | ⟨f, rfl, -⟩ <;>
      rcases jsonSlot_num hw with ⟨j, rfl⟩ | ⟨g, rfl, -⟩ <;> rfl

theorem ascending_of_hashKey (B : Build) {ty : DataType} {desc : Bool} {order : TextOrder}
    {v w : Value} (hv : ty.holds v = true) (hw : ty.holds w = true) (h : hashKey v = hashKey w) :
    CompositeKey.ascending B (Part.of ty desc order) v =
      CompositeKey.ascending B (Part.of ty desc order) w := by
  by_cases hty : ty = .json
  · -- a json part: numbers at one place of the order, or one value
    subst hty
    rcases hashKey_eq_cases h with rfl | ⟨-, k, hvk, hwk⟩
    · rfl
    · have hnum : ∀ u : Value, jsonSlot (some u) = .num k →
          CompositeKey.ascending B (Part.of .json desc order) u =
            (CompositeKey.putNum k, false) := by
        intro u hu
        rcases jsonSlot_num hu with ⟨i, rfl⟩ | ⟨f, rfl, -⟩ <;>
          simp [CompositeKey.ascending, Part.of, hu]
      rw [hnum v hvk, hnum w hwk]
  · rcases typed_hashKey hty hv hw h with rfl | ⟨rfl, f, g, rfl, rfl, hf, hg, hfg⟩
    · rfl
    · simp [CompositeKey.ascending, Part.of, hf, hg, hfg]

theorem putPart_of_hashKey (B : Build) {ty : DataType} {desc : Bool} {order : TextOrder}
    {v w : Value} (hv : ty.holds v = true) (hw : ty.holds w = true) (h : hashKey v = hashKey w) :
    CompositeKey.putPart B (Part.of ty desc order) v =
      CompositeKey.putPart B (Part.of ty desc order) w := by
  unfold CompositeKey.putPart
  rw [ascending_of_hashKey B hv hw h]

theorem compositeFiling_alike (B : Build) {parts : List Part} {vs ws : List Value}
    (h : CompositeIndex.rowKey B parts vs = CompositeIndex.rowKey B parts ws) :
    (compositeFiling B parts).Alike vs ws := by
  rintro ix id l hl
  refine ⟨hl.parts_eq, ?_, ?_⟩
  · have hkeys := hl.keys
    rw [List.map_cons] at hkeys ⊢
    rwa [← h]
  · have hapart := hl.apart
    rw [List.filter_cons] at hapart ⊢
    dsimp only at hapart ⊢
    rw [← h]
    split at hapart
    · next hk => rwa [if_pos hk]
    · next hk => rwa [if_neg hk]

/-! ## 7. Inverted indexes -/

namespace SparseIndex

/-- The entries of a sparse vector, none of another value. -/
def entriesOf : Value → List (UInt32 × F32)
  | .sparse _ e => e
  | _ => []

/-- The weight entries give an index, the last one given. -/
def weightIn (i : UInt32) : List (UInt32 × F32) → Option F32
  | [] => none
  | e :: rest => (weightIn i rest).or (if e.1 = i then some e.2 else none)

theorem weight_setWeight (lists : OrdMap (OrdMap F32)) (n : Nat) (id j : DocId)
    (e : UInt32 × F32) (i : UInt32) :
    weight ⟨setWeight id lists e, n⟩ i j =
      if e.1 = i ∧ j = id then some e.2 else weight ⟨lists, n⟩ i j := by
  unfold weight setWeight
  dsimp only
  rw [OrdMap.get_insert]
  by_cases hi : e.1 = i
  · subst hi
    cases hl : lists.get e.1.toNat <;> by_cases hj : j = id <;> simp [hj]
  · have hn : i.toNat ≠ e.1.toNat := fun h => hi (UInt32.toNat_inj.mp h).symm
    simp [hi, hn]

theorem weight_foldl_setWeight (lists : OrdMap (OrdMap F32)) (n : Nat) (id j : DocId)
    (entries : List (UInt32 × F32)) (i : UInt32) :
    weight ⟨entries.foldl (setWeight id) lists, n⟩ i j =
      if j = id then (weightIn i entries).or (weight ⟨lists, n⟩ i j)
      else weight ⟨lists, n⟩ i j := by
  induction entries generalizing lists with
  | nil => by_cases hj : j = id <;> simp [weightIn, hj]
  | cons e rest ih =>
    rw [List.foldl_cons, ih, weight_setWeight]
    by_cases hj : j = id
    · by_cases hi : e.1 = i <;> simp [hj, hi, weightIn]
    · simp [hj]

theorem weight_dropDoc (lists : OrdMap (OrdMap F32)) (n : Nat) (id j : DocId)
    (e : UInt32 × F32) (i : UInt32) :
    weight ⟨dropDoc id lists e, n⟩ i j =
      if e.1 = i ∧ j = id then none else weight ⟨lists, n⟩ i j := by
  unfold weight dropDoc
  dsimp only
  by_cases hi : e.1 = i
  · subst hi
    cases hl : lists.get e.1.toNat <;> by_cases hj : j = id <;> simp [hl, hj]
  · have hn : i.toNat ≠ e.1.toNat := fun h => hi (UInt32.toNat_inj.mp h).symm
    cases hl : lists.get e.1.toNat <;> simp [hi, hn]

theorem weight_foldl_dropDoc (lists : OrdMap (OrdMap F32)) (n : Nat) (id j : DocId)
    (entries : List (UInt32 × F32)) (i : UInt32) :
    weight ⟨entries.foldl (dropDoc id) lists, n⟩ i j =
      if j = id ∧ (weightIn i entries).isSome then none else weight ⟨lists, n⟩ i j := by
  induction entries generalizing lists with
  | nil => simp [weightIn]
  | cons e rest ih =>
    rw [List.foldl_cons, ih, weight_dropDoc]
    by_cases hj : j = id
    · by_cases hi : e.1 = i
      · simp [hj, hi, weightIn]
      · simp [hj, hi, weightIn]
    · simp [hj]

/-- The weights an index holds of its rows, and how many rows have one. -/
structure Entered (ix : SparseIndex) (rows : List (DocId × Value)) : Prop where
  weights : ∀ i id w, ix.weight i id = some w ↔
    ∃ v, (id, v) ∈ rows ∧ weightIn i (entriesOf v) = some w
  docs : ix.docs = (rows.filter fun r => !(entriesOf r.2).isEmpty).length

/-- A row put in: a value that is no sparse vector is not filed. -/
def put (ix : SparseIndex) (id : DocId) (v : Value) : SparseIndex :=
  match v with
  | .sparse _ e => ix.insert id e
  | _ => ix

/-- A row taken out. -/
def take (ix : SparseIndex) (id : DocId) (v : Value) : SparseIndex :=
  match v with
  | .sparse _ e => ix.remove id e
  | _ => ix

theorem put_eq (ix : SparseIndex) (id : DocId) (v : Value) : ix.put id v = ix.insert id (entriesOf v) := by
  cases v <;> rfl

theorem take_eq (ix : SparseIndex) (id : DocId) (v : Value) :
    ix.take id v = ix.remove id (entriesOf v) := by
  cases v <;> rfl

variable {ix : SparseIndex} {l l' : List (DocId × Value)} {id : DocId} {v : Value}

theorem Entered.put (h : ix.Entered l) (hid : id ∉ l.map (·.1)) :
    (ix.put id v).Entered ((id, v) :: l) := by
  rw [put_eq]
  unfold SparseIndex.insert
  split
  · next he =>
    have hnil : entriesOf v = [] := List.isEmpty_iff.mp he
    refine ⟨fun i j w => ?_, by simp [hnil, h.docs]⟩
    rw [h.weights]
    constructor
    · rintro ⟨u, hu, hw⟩
      exact ⟨u, List.mem_cons_of_mem _ hu, hw⟩
    · rintro ⟨u, hu, hw⟩
      rcases List.mem_cons.mp hu with hu | hu
      · cases hu
        rw [hnil] at hw
        cases hw
      · exact ⟨u, hu, hw⟩
  · next he =>
    refine ⟨fun i j w => ?_, by simp [he, h.docs]⟩
    rw [weight_foldl_setWeight]
    by_cases hj : j = id
    · subst hj
      have hnone : weight ⟨ix.lists, ix.docs + 1⟩ i j = none := by
        cases hold : ix.weight i j with
        | none => exact hold
        | some w =>
          obtain ⟨u, hu, -⟩ := (h.weights i j w).mp hold
          exact absurd (List.mem_map.mpr ⟨_, hu, rfl⟩) hid
      rw [if_pos rfl, hnone, Option.or_none]
      constructor
      · intro hw
        exact ⟨v, List.mem_cons_self .., hw⟩
      · rintro ⟨u, hu, hw⟩
        rcases List.mem_cons.mp hu with hu | hu
        · cases hu
          exact hw
        · exact absurd (List.mem_map.mpr ⟨_, hu, rfl⟩) hid
    · rw [if_neg hj]
      refine (h.weights i j w).trans ⟨?_, ?_⟩
      · rintro ⟨u, hu, hw⟩
        exact ⟨u, List.mem_cons_of_mem _ hu, hw⟩
      · rintro ⟨u, hu, hw⟩
        rcases List.mem_cons.mp hu with hu | hu
        · cases hu
          exact absurd rfl hj
        · exact ⟨u, hu, hw⟩

theorem Entered.take (h : ix.Entered ((id, v) :: l)) (hid : id ∉ l.map (·.1)) :
    (ix.take id v).Entered l := by
  have hrow : ∀ i w, ix.weight i id = some w ↔ weightIn i (entriesOf v) = some w := by
    intro i w
    rw [h.weights]
    constructor
    · rintro ⟨u, hu, hw⟩
      rcases List.mem_cons.mp hu with hu | hu
      · cases hu
        exact hw
      · exact absurd (List.mem_map.mpr ⟨_, hu, rfl⟩) hid
    · intro hw
      exact ⟨v, List.mem_cons_self .., hw⟩
  have hother : ∀ i j w, j ≠ id → (ix.weight i j = some w ↔
      ∃ u, (j, u) ∈ l ∧ weightIn i (entriesOf u) = some w) := by
    intro i j w hj
    rw [h.weights]
    constructor
    · rintro ⟨u, hu, hw⟩
      rcases List.mem_cons.mp hu with hu | hu
      · cases hu
        exact absurd rfl hj
      · exact ⟨u, hu, hw⟩
    · rintro ⟨u, hu, hw⟩
      exact ⟨u, List.mem_cons_of_mem _ hu, hw⟩
  have hgone : ∀ i w, ¬ ∃ u, (id, u) ∈ l ∧ weightIn i (entriesOf u) = some w := by
    rintro i w ⟨u, hu, -⟩
    exact hid (List.mem_map.mpr ⟨_, hu, rfl⟩)
  rw [take_eq]
  unfold SparseIndex.remove
  split
  · next he =>
    have hnil : entriesOf v = [] := List.isEmpty_iff.mp he
    refine ⟨fun i j w => ?_, by simpa [hnil] using h.docs⟩
    by_cases hj : j = id
    · subst hj
      rw [hrow, hnil]
      exact ⟨(nomatch ·), fun hw => absurd hw (hgone i w)⟩
    · exact hother i j w hj
  · next he =>
    refine ⟨fun i j w => ?_, by have := h.docs; simp [he] at this; simp [this]⟩
    rw [weight_foldl_dropDoc]
    by_cases hj : j = id
    · subst hj
      refine ⟨fun hw => ?_, fun hw => absurd hw (hgone i w)⟩
      split at hw
      · cases hw
      · next hn =>
        have := (hrow i w).mp hw
        simp [this] at hn
    · rw [if_neg fun hn => hj hn.1]
      exact hother i j w hj

end SparseIndex

/-- **How an inverted index files rows.** -/
def sparseFiling : Filing SparseIndex Value where
  insert ix id v := ix.put id v
  remove ix id v := ix.take id v
  Holds := SparseIndex.Entered
  holds_perm h hperm := ⟨fun i id w => by simpa only [hperm.mem_iff] using h.weights i id w,
    h.docs.trans ((hperm.filter _).length_eq)⟩
  holds_insert h hid := h.put hid
  holds_remove h hid := h.take hid

theorem sparseFiling_alike {v w : Value} (h : hashKey v = hashKey w) :
    sparseFiling.Alike v w := by
  have hentries : SparseIndex.entriesOf v = SparseIndex.entriesOf w := by
    rcases hashKey_eq_cases h with rfl | ⟨-, k, hv, hw⟩
    · rfl
    · rcases jsonSlot_num hv with ⟨i, rfl⟩ | ⟨f, rfl, -⟩ <;>
        rcases jsonSlot_num hw with ⟨j, rfl⟩ | ⟨g, rfl, -⟩ <;> rfl
  rintro ix id l hl
  refine ⟨fun i j x => (hl.weights i j x).trans ?_, ?_⟩
  · constructor
    · rintro ⟨u, hu, hx⟩
      rcases List.mem_cons.mp hu with hu | hu
      · cases hu
        exact ⟨w, List.mem_cons_self .., hentries ▸ hx⟩
      · exact ⟨u, List.mem_cons_of_mem _ hu, hx⟩
    · rintro ⟨u, hu, hx⟩
      rcases List.mem_cons.mp hu with hu | hu
      · cases hu
        exact ⟨v, List.mem_cons_self .., hentries.symm ▸ hx⟩
      · exact ⟨u, List.mem_cons_of_mem _ hu, hx⟩
  · have hd := hl.docs
    rw [List.filter_cons] at hd ⊢
    rw [← hentries]
    rw [hd]
    split <;> rfl

end Fenec
