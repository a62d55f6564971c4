/-
# Groups are classes

Two rows are of one group where each of their keys is told from the other's by nothing
(`SameKeys`): a `nocase` field's texts by their folds, floats but for the sign of a zero.  The groups
are the rows split by that, in the order in which their keys are first seen, each answering what its
own rows do whatever rows of other groups come between.

The one thing a group shares with the others is the set that `count(distinct ...)` puts its values
in, whose entries begin with the numbers of their aggregate and of their group as 32-bit words.  Two
groups whose numbers differ by a multiple of `2^32` are under the same words, and of a value that
both hold only the first counts it: the groups answer what their classes do exactly when that is the
case of no value (`groups_are_classes`).

* §1 is what a key is told apart by, §2 the rows split by their keys, §3 the values a place holds,
  §4 an aggregate's value, §5 the groups, §6 two groups under the same words.
-/
import Fenec.GroupRows

namespace Fenec.Aggregate

open Lib Case Classes

/-! ## 1. Keys told apart -/

section Told

variable (B : Build)

/-- What a value is told apart by as a key: a `nocase` field's text by its fold, a zero by having no
sign. -/
def told (v : Value) (fold : Option CaseFold) : Value :=
  match v, fold with
  | .text t, some f => .text (Case.fold B.chars f t)
  | .float x, _ => .float (if x.mag = 0 then Ieee.posZero else x)
  | v, _ => v

/-- Two rows of one group. -/
def SameKeys (f : Folding) (r r' : Read) : Prop :=
  ∀ k ∈ f.keys, told B (r.env k.expr) (f.keyFold k) = told B (r'.env k.expr) (f.keyFold k)

variable {B}

/-- An ASCII character is lowered as its byte is. -/
theorem utf8EncodeChar_asciiLower {c : Char} (h : isAscii c = true) :
    String.utf8EncodeChar (asciiLower c) = (String.utf8EncodeChar c).map byteLower := by
  have hall : ∀ n : Fin 128, String.utf8EncodeChar (asciiLower (Char.ofNat n)) =
      (String.utf8EncodeChar (Char.ofNat n)).map byteLower := by decide +kernel
  have hlt : c.toNat < 128 := by simpa [isAscii] using h
  have hc := hall ⟨c.toNat, hlt⟩
  rwa [Char.ofNat_toNat] at hc

/-- An ASCII text's fold, written as its bytes lowered. -/
theorem utf8_folds {T : CharCase} {cs : List Char} (h : cs.all isAscii = true) :
    utf8 (folds T .unicode cs) = (utf8 cs).map byteLower := by
  induction cs with
  | nil => rfl
  | cons c cs ih =>
    obtain ⟨hc, hcs⟩ : isAscii c = true ∧ cs.all isAscii = true := by simpa using h
    have hplain : plain .unicode c = true := by
      unfold plain
      rw [hc]
      simp [CaseFold.isTurkish]
    rw [folds_cons, foldChar_of_plain T .unicode hplain, List.singleton_append, utf8_cons,
      utf8_cons, List.map_append, utf8EncodeChar_asciiLower hc, ih hcs]

/-- **A key is written as what it is told apart by.** -/
theorem encode_eq (v : Value) (fold : Option CaseFold) :
    Fold.encode B v fold = Codec.encodeValue (told B v fold) := by
  unfold Fold.encode told
  cases v with
  | text t =>
    cases fold with
    | none => rfl
    | some f =>
      dsimp only
      unfold encodeFolded
      split
      · next h =>
        obtain ⟨rfl, hascii⟩ := h
        have hfold : utf8 (Case.fold B.chars .unicode t).toList = (utf8 t.toList).map byteLower := by
          rw [toList_fold]
          exact utf8_folds hascii
        unfold Codec.encodeValue
        rw [Codec.body, Codec.encodeStr, hfold, List.length_map]
        rfl
      · unfold Codec.encodeValue
        rw [Codec.body]
        rfl
  | float x =>
    dsimp only
    rw [Ieee.add_posZero (by decide)]
  | _ => rfl

theorem encodeValue_append_inj {v w : Value} {r r' : List UInt8}
    (h : Codec.encodeValue v ++ r = Codec.encodeValue w ++ r') : v = w ∧ r = r' := by
  unfold Codec.encodeValue at h
  rw [List.cons_append, List.cons_append, List.cons.injEq] at h
  exact Codec.body_append_inj v w h.1 h.2

/-- **Rows have one encoding of their keys exactly when they are of one group.** -/
theorem readKey_eq_iff {f : Folding} {r r' : Read} :
    f.readKey B r = f.readKey B r' ↔ SameKeys B f r r' := by
  unfold Folding.readKey Folding.key SameKeys
  induction f.keys with
  | nil => simp
  | cons k ks ih =>
    rw [List.flatMap_cons, List.flatMap_cons, encode_eq, encode_eq, List.forall_mem_cons, ← ih]
    constructor
    · intro h
      exact encodeValue_append_inj h
    · rintro ⟨hk, hks⟩
      rw [hk, hks]

end Told

/-! ## 2. The rows split by their keys -/

section Split

variable {B : Build} {f : Folding} {rows c : List Read} {r : Read} {i : Nat}

/-- **The classes are the rows split by their keys**, in the order the keys are first seen. -/
theorem partition_rows (f : Folding) (rows : List Read) :
    Partition (SameKeys B f) rows (f.classes B rows) := by
  unfold Folding.classes
  split
  · next hk =>
    refine ⟨?_, ?_, ?_, List.pairwise_singleton _ _, ?_⟩
    · rw [List.flatten_singleton]
    · intro c hc
      rw [List.mem_singleton.mp hc]
    · intro c _ x _ y _ k hkey
      rw [List.isEmpty_iff.mp hk] at hkey
      cases hkey
    · cases rows with
      | nil => exact .slnil
      | cons r rows => exact List.singleton_sublist.mpr List.mem_cons_self
  · have hsame : (fun x y => f.readKey B x = f.readKey B y) = SameKeys B f :=
      funext fun x => funext fun y => propext readKey_eq_iff
    exact hsame ▸ partition_classes rows

/-- Grouped, no class is empty. -/
theorem ne_nil_of_mem (hk : f.keys.isEmpty = false) (hc : c ∈ f.classes B rows) : c ≠ [] := by
  unfold Folding.classes at hc
  rw [if_neg (by rw [hk]; decide)] at hc
  exact ne_nil_of_mem_classes hc

/-- A class is its number's rows. -/
theorem classes_getElem? (hc : (f.classes B rows)[i]? = some c) :
    c = rows.filter fun r => f.groupOf B rows r = i := by
  unfold Folding.classes at hc
  split at hc
  · next hk =>
    obtain ⟨rfl, rfl⟩ : i = 0 ∧ rows = c := by
      cases i with
      | zero => exact ⟨rfl, Option.some.inj hc⟩
      | succ i => cases hc
    refine (List.filter_eq_self.mpr fun r hr => ?_).symm
    exact decide_eq_true (Folding.groupOf_ungrouped hk hr)
  · unfold Classes.classes at hc
    rw [List.getElem?_map] at hc
    obtain ⟨y, hy, rfl⟩ := Option.map_eq_some_iff.mp hc
    refine List.filter_congr fun r _ => decide_eq_decide.mpr ?_
    exact (number_eq_iff hy).symm

end Split

/-! ## 3. The values a place holds -/

section Held

variable {B : Build} {f : Folding} {items : List Item} {it : Item} {rows c : List Read} {r : Read}
  {i j k at_ : Nat} {e e' : Event} {fold : Option CaseFold} {n : Nat}

theorem leBytes_eq_iff {n v w : Nat} :
    Codec.leBytes n v = Codec.leBytes n w ↔ v % 256 ^ n = w % 256 ^ n := by
  induction n generalizing v w with
  | zero => simp [Codec.leBytes, Nat.mod_one]
  | succ n ih =>
    have hlow : UInt8.ofNat v = UInt8.ofNat w ↔ v % 256 = w % 256 := by
      rw [← UInt8.toNat_inj, UInt8.toNat_ofNat', UInt8.toNat_ofNat']
    rw [Codec.leBytes, Codec.leBytes, List.cons.injEq, hlow, ih, Nat.pow_succ', Nat.mod_mul,
      Nat.mod_mul]
    omega

/-- **Two values are under one entry** where they are one, and the numbers of their aggregates and of
their groups agree in 32 bits. -/
theorem key_eq_iff : e.key = e'.key ↔
    e.1.1 % 2 ^ 32 = e'.1.1 % 2 ^ 32 ∧ e.1.2 % 2 ^ 32 = e'.1.2 % 2 ^ 32 ∧ e.2 = e'.2 := by
  have hword : (2 : Nat) ^ 32 = 256 ^ 4 := rfl
  have hlen : ∀ v w : Nat, (Codec.leBytes 4 v).length = (Codec.leBytes 4 w).length := fun v w => by
    rw [Codec.length_leBytes, Codec.length_leBytes]
  unfold Event.key Fold.placed
  rw [hword, ← leBytes_eq_iff, ← leBytes_eq_iff]
  constructor
  · intro h
    rw [List.append_assoc, List.append_assoc] at h
    obtain ⟨hitem, h⟩ := List.append_inj h (hlen _ _)
    obtain ⟨hgroup, h⟩ := List.append_inj h (hlen _ _)
    exact ⟨hitem, hgroup, h⟩
  · rintro ⟨hitem, hgroup, hkey⟩
    rw [hitem, hgroup, hkey]

/-- What a class's rows put in the set for one of its aggregates. -/
theorem flatMap_events (hs : it.start = .distinct n fold) (place : Nat × Nat) :
    c.flatMap (fun r => it.events B r place) =
      (it.values c).map fun v => (place, Fold.encode B v fold) := by
  induction c with
  | nil => rfl
  | cons r c ih =>
    unfold Item.values at ih ⊢
    rw [List.flatMap_cons, ih, List.map_cons, List.filter_cons]
    unfold Item.events
    rw [hs]
    cases h : (it.value r.env).isNull with
    | true => simp
    | false => simp

/-- What a row puts in the set at one place. -/
theorem filter_rowEvents (hit : items[j]? = some it) :
    (rowEvents B r at_ k items).filter (fun e => e.1 = (k + j, i)) =
      if at_ = i then it.events B r (k + j, i) else [] := by
  induction items generalizing j k with
  | nil => cases hit
  | cons x items ih =>
    rw [rowEvents, List.filter_append]
    cases j with
    | zero =>
      obtain rfl : x = it := Option.some.inj hit
      have hrest : (rowEvents B r at_ (k + 1) items).filter (fun e => e.1 = (k + 0, i)) = [] := by
        refine List.filter_eq_nil_iff.mpr fun e he heq => ?_
        have hle := (mem_rowEvents he).1
        rw [of_decide_eq_true heq] at hle
        exact absurd hle (Nat.not_succ_le_self k)
      rw [hrest, List.append_nil]
      by_cases hat : at_ = i
      · rw [if_pos hat, hat]
        exact List.filter_eq_self.mpr fun e he => decide_eq_true (mem_events he)
      · rw [if_neg hat]
        refine List.filter_eq_nil_iff.mpr fun e he heq => hat ?_
        exact (Prod.mk.inj ((mem_events he).symm.trans (of_decide_eq_true heq))).2
    | succ j =>
      have hhead : (x.events B r (k, at_)).filter (fun e => e.1 = (k + (j + 1), i)) = [] := by
        refine List.filter_eq_nil_iff.mpr fun e he heq => ?_
        have hk := (Prod.mk.inj ((mem_events he).symm.trans (of_decide_eq_true heq))).1
        omega
      have hk : k + (j + 1) = k + 1 + j := by omega
      rw [hhead, List.nil_append, hk]
      exact ih hit

/-- **What is put in the set at a place** is what the rows of its group put there. -/
theorem filter_events (hc : (f.classes B rows)[i]? = some c) (hit : f.items[j]? = some it) :
    (f.events B rows).filter (fun e => e.1 = (j, i)) =
      c.flatMap fun r => it.events B r (j, i) := by
  have hrow : ∀ r, (rowEvents B r (f.groupOf B rows r) 0 f.items).filter (fun e => e.1 = (j, i)) =
      if f.groupOf B rows r = i then it.events B r (j, i) else [] := by
    intro r
    have h : (rowEvents B r (f.groupOf B rows r) 0 f.items).filter (fun e => e.1 = (0 + j, i)) =
        if f.groupOf B rows r = i then it.events B r (0 + j, i) else [] := filter_rowEvents hit
    rwa [Nat.zero_add] at h
  have hall : ∀ xs : List Read,
      (xs.flatMap fun r => if f.groupOf B rows r = i then it.events B r (j, i) else []) =
        (xs.filter fun r => f.groupOf B rows r = i).flatMap fun r => it.events B r (j, i) := by
    intro xs
    induction xs with
    | nil => rfl
    | cons x xs ih =>
      rw [List.flatMap_cons, ih, List.filter_cons]
      by_cases hx : f.groupOf B rows x = i
      · rw [if_pos hx, if_pos (decide_eq_true hx), List.flatMap_cons]
      · rw [if_neg hx, if_neg (by simpa using hx), List.nil_append]
  unfold Folding.events
  rw [List.filter_flatMap]
  simp only [hrow]
  rw [hall, ← classes_getElem? hc]

/-- **A place holds the distinct values of its class.** -/
theorem held_eq (hc : (f.classes B rows)[i]? = some c) (hit : f.items[j]? = some it)
    (hs : it.start = .distinct n fold) :
    held Event.key Prod.fst (f.events B rows) (j, i) =
      (firsts id ((it.values c).map (Fold.encode B · fold))).length := by
  have hmap : ((it.values c).map fun v => ((j, i), Fold.encode B v fold)) =
      ((it.values c).map (Fold.encode B · fold)).map fun k => ((j, i), k) := by
    rw [List.map_map]
    rfl
  unfold held
  rw [filter_events hc hit, flatMap_events hs, hmap, firsts_map, List.length_map]
  congr 1
  exact firsts_congr fun x _ y _ => by simp [key_eq_iff]

end Held

/-! ## 4. An aggregate's value -/

section Valued

variable {B : Build} {it : Item} {c : List Read} {es : List Event} {place : Nat × Nat}
  {items : List Item} {at_ k : Nat}

/-- An aggregate that counts no distinct values comes to what it is. -/
theorem state_value (h : it.start.isDistinct = false) :
    (it.state B c).value = it.definition B c := by
  have hlen : (it.values c).length = 0 ↔ it.values c = [] := List.length_eq_zero_iff
  unfold Item.state Item.definition
  cases hs : it.start with
  | distinct n fold =>
    rw [hs] at h
    cases h
  | count n => rfl
  | sumInt sum n =>
    dsimp only
    by_cases hall : (it.values c).all isInt = true
    · rw [if_pos hall, if_pos hall]
      unfold Fold.value
      simp only [hlen]
    · rw [if_neg hall, if_neg hall]
      unfold Fold.value
      simp only [hlen]
  | sumFloat sum n =>
    unfold Fold.value
    simp only [hlen]
  | avg sum n =>
    unfold Fold.value
    simp only [hlen]
  | extreme best max text => rfl
  | pick best later text => rfl

/-- **An aggregate comes to what it is**, where a count of distinct values counts all that its place
holds. -/
theorem stateAt_value (hfold : ∀ n fold, it.start = .distinct n fold →
      Int64.ofNat (owned Event.key Prod.fst es place) =
        Int64.ofNat (firsts id ((it.values c).map (Fold.encode B · fold))).length) :
    (it.stateAt B es place c).value = it.definition B c := by
  cases hd : it.start.isDistinct with
  | false => rw [stateAt_of_ne hd, state_value hd]
  | true =>
    cases hs : it.start with
    | distinct n fold =>
      unfold Item.stateAt Item.definition
      rw [hs]
      exact congrArg Value.int (hfold n fold hs)
    | _ =>
      rw [hs] at hd
      cases hd

theorem states_getElem? (j : Nat) : (states B es c at_ k items)[j]? =
    items[j]?.map fun it => it.stateAt B es (k + j, at_) c := by
  induction items generalizing j k with
  | nil => rfl
  | cons it items ih =>
    cases j with
    | zero => rfl
    | succ j =>
      have hk : k + (j + 1) = k + 1 + j := by omega
      rw [states, List.getElem?_cons_succ, List.getElem?_cons_succ, ih, hk]

end Valued

/-! ## 5. The groups -/

section Groups

variable (B : Build) (f : Folding)

/-- **No two places under the same words have one value**: of the values that are counted once each,
two that are equal are of one aggregate and one group, or the numbers of their aggregates or of their
groups differ in 32 bits. -/
def Apart (rows : List Read) : Prop :=
  ∀ e ∈ f.events B rows, ∀ e' ∈ f.events B rows, e.2 = e'.2 →
    e.1.1 % 2 ^ 32 = e'.1.1 % 2 ^ 32 → e.1.2 % 2 ^ 32 = e'.1.2 % 2 ^ 32 → e.1 = e'.1

/-- The value of an aggregate's call over a class's rows. -/
def aggValue (rd : Reader) (c : List Read) (e : Expr) : Value :=
  match itemOf rd e with
  | .ok it => it.definition B c
  | .error _ => .null

/-- **The groups answer what their classes do**: the classes are the rows split by their keys, in the
order the keys are first seen; a group a class, with its keys as its first row wrote them, each
aggregate what it is over the class's rows; and a row a group, its columns and its filter worked out
with each key and each aggregate replaced by its value. -/
structure Meets (list : List Column) (having : Option Expr) (given : Nat) (rows : List Read)
    (g : Groups) : Prop where
  classes : Partition (SameKeys B f) rows (f.classes B rows)
  grouped : f.keys.isEmpty = false → ∀ c ∈ f.classes B rows, c ≠ []
  ungrouped : f.keys.isEmpty = true → f.classes B rows = [rows]
  keys : g.keyValues = (f.classes B rows).map f.shown
  aggregates : g.folds.map (·.map Fold.value) =
    (f.classes B rows).map fun c => f.items.map (·.definition B c)
  fits : ∀ c ∈ f.classes B rows, ∀ it ∈ f.items, it.Fits c
  rows : ∀ (ctx : EvalCtx B) (keep : List Value → Result Bool), ctx.params.length = given →
    f.rows ctx keep g = ((f.classes B rows).mapM fun c =>
      classRow ctx keep f.keys list having (f.shown c) (aggValue B f.rd c)).map (·.filterMap id)

variable {B f} {list : List Column} {having : Option Expr} {given turn : Nat} {rows : List Read}
  {g : Groups} {calls : List Expr}

theorem length_shown {c : List Read} (h : c ≠ [] ∨ f.keys.isEmpty = true) :
    (f.shown c).length = f.keys.length := by
  cases c with
  | cons r c => exact List.length_map _
  | nil =>
    have hk := List.isEmpty_iff.mp (h.resolve_left fun hne => hne rfl)
    rw [hk]
    rfl

/-- Aggregates at what they are over a class are the values of their calls. -/
theorem map_definition (hitems : List.Forall₂ (fun e it => itemOf f.rd e = .ok it) calls f.items)
    (c : List Read) : f.items.map (·.definition B c) = calls.map (aggValue B f.rd c) := by
  generalize f.items = items at hitems ⊢
  induction hitems with
  | nil => rfl
  | cons h _ ih =>
    rw [List.map_cons, List.map_cons, ih]
    unfold aggValue
    rw [h]

theorem exists_of_mem_rowEvents {items : List Item} {r : Read} {at_ k : Nat} {e : Event}
    (h : e ∈ rowEvents B r at_ k items) : ∃ j it n fold, items[j]? = some it ∧
      it.start = .distinct n fold ∧ e.1 = (k + j, at_) := by
  induction items generalizing k with
  | nil => cases h
  | cons it items ih =>
    rw [rowEvents, List.mem_append] at h
    rcases h with h | h
    · cases hd : it.start.isDistinct with
      | false =>
        rw [events_of_ne hd] at h
        cases h
      | true =>
        cases hs : it.start with
        | distinct n fold => exact ⟨0, it, n, fold, rfl, hs, mem_events h⟩
        | _ =>
          rw [hs] at hd
          cases hd
    · obtain ⟨j, it', n, fold, hit, hs, he⟩ := ih h
      refine ⟨j + 1, it', n, fold, hit, hs, ?_⟩
      rw [he, Nat.add_right_comm]
      rfl

/-- A value in the set is one that an aggregate counts of a class. -/
theorem exists_of_mem_events {e : Event} (h : e ∈ f.events B rows) : ∃ i j it c n fold,
    f.items[j]? = some it ∧ (f.classes B rows)[i]? = some c ∧ it.start = .distinct n fold ∧
      e.1 = (j, i) := by
  have hlt := Folding.lt_of_mem_events h
  obtain ⟨r, -, hr⟩ := List.mem_flatMap.mp h
  obtain ⟨j, it, n, fold, hit, hs, he⟩ := exists_of_mem_rowEvents hr
  rw [Nat.zero_add] at he
  rw [he] at hlt
  exact ⟨_, j, it, _, n, fold, hit, List.getElem?_eq_getElem hlt, hs, he⟩

/-- The aggregates' values are what they are over their classes where each of them is. -/
theorem values_iff (hg : Folding.Folded B f rows g) :
    g.folds.map (·.map Fold.value) =
        (f.classes B rows).map (fun c => f.items.map (·.definition B c)) ↔
      ∀ (i : Nat) (c : List Read), (f.classes B rows)[i]? = some c →
        ∀ (j : Nat) (it : Item), f.items[j]? = some it →
          (it.stateAt B (f.events B rows) (j, i) c).value = it.definition B c := by
  have hvalues : ∀ (i : Nat) (c : List Read) (j : Nat),
      ((states B (f.events B rows) c i 0 f.items).map Fold.value)[j]? =
        f.items[j]?.map fun it : Item => (it.stateAt B (f.events B rows) (j, i) c).value := by
    intro i c j
    rw [List.getElem?_map, states_getElem?, Nat.zero_add, Option.map_map]
    rfl
  rw [hg.folds]
  constructor
  · intro h i c hc j it hit
    have hclass := congrArg (·[i]?) h
    rw [List.getElem?_map, List.getElem?_map, List.getElem?_mapIdx, hc] at hclass
    have hitem := congrArg (·[j]?) (Option.some.inj hclass)
    dsimp only at hitem
    rw [hvalues, List.getElem?_map, hit] at hitem
    exact Option.some.inj hitem
  · intro h
    refine List.ext_getElem? fun i => ?_
    rw [List.getElem?_map, List.getElem?_map, List.getElem?_mapIdx]
    cases hc : (f.classes B rows)[i]? with
    | none => rfl
    | some c =>
      refine congrArg some (List.ext_getElem? fun j => ?_)
      rw [hvalues, List.getElem?_map]
      cases hit : f.items[j]? with
      | none => rfl
      | some it => exact congrArg some (h i c hc j it hit)

/-- **The aggregates are what they are over their classes exactly when no two places under the same
words have one value.** -/
theorem aggregates_iff (hg : Folding.Folded B f rows g) :
    g.folds.map (·.map Fold.value) =
        (f.classes B rows).map (fun c => f.items.map (·.definition B c)) ↔
      Apart B f rows := by
  rw [values_iff hg]
  constructor
  · -- of two places that have one value, one does not count it
    intro h e he e' he' hkey hitem hgroup
    by_contra hne
    obtain ⟨z, hz, hlt⟩ : ∃ z ∈ f.events B rows,
        owned Event.key Prod.fst (f.events B rows) z.1 <
          held Event.key Prod.fst (f.events B rows) z.1 :=
      exists_owned_lt he he' (key_eq_iff.mpr ⟨hitem, hgroup, hkey⟩) hne
    obtain ⟨i, j, it, c, n, fold, hit, hc, hs, hplace⟩ := exists_of_mem_events hz
    rw [hplace] at hlt
    have hvalue := h i c hc j it hit
    unfold Item.stateAt Item.definition at hvalue
    rw [hs] at hvalue
    have hcount : Int64.ofNat (owned Event.key Prod.fst (f.events B rows) (j, i)) =
        Int64.ofNat (firsts id ((it.values c).map (Fold.encode B · fold))).length :=
      Value.int.inj hvalue
    rw [← held_eq hc hit hs] at hcount
    have hroom := hg.room
    rw [hg.seen, List.length_map] at hroom
    have hheld : held Event.key Prod.fst (f.events B rows) (j, i) ≤ maxDistinctValues :=
      (held_le _ _).trans hroom
    have hmax : maxDistinctValues < 2 ^ 63 := by decide
    have hcount' := congrArg Int64.toInt hcount
    rw [Int64.toInt_ofNat_of_lt (by omega), Int64.toInt_ofNat_of_lt (by omega)] at hcount'
    omega
  · intro h i c hc j it hit
    refine stateAt_value fun n fold hs => ?_
    rw [← held_eq hc hit hs, owned_eq]
    intro e he e' he' hkey
    obtain ⟨hitem, hgroup, hkey⟩ := key_eq_iff.mp hkey
    exact h e he e' he' hkey hitem hgroup

/-- The groups' rows are their classes', one after another. -/
theorem mapM_groupRow {ctx : EvalCtx B} {keep : List Value → Result Bool}
    (hb : Bound f list having calls ctx.params.length turn)
    (hitems : List.Forall₂ (fun e it => itemOf f.rd e = .ok it) calls f.items)
    {cs : List (List Read)} {folds : List (List Fold)}
    (hcs : ∀ c ∈ cs, c ≠ [] ∨ f.keys.isEmpty = true)
    (hfolds : folds.map (·.map Fold.value) = cs.map fun c => f.items.map (·.definition B c)) :
    ((cs.map f.shown).zip folds).mapM (f.groupRow ctx keep) =
      cs.mapM fun c => classRow ctx keep f.keys list having (f.shown c) (aggValue B f.rd c) := by
  induction cs generalizing folds with
  | nil => rfl
  | cons c cs ih =>
    cases folds with
    | nil => cases hfolds
    | cons fs folds =>
      rw [List.map_cons, List.map_cons, List.cons.injEq] at hfolds
      obtain ⟨hfs, hfolds⟩ := hfolds
      rw [map_definition hitems] at hfs
      rw [List.map_cons, List.zip_cons_cons, List.mapM_cons, List.mapM_cons,
        groupRow_eq hb (length_shown (hcs c List.mem_cons_self)) hfs,
        ih (fun d hd => hcs d (List.mem_cons_of_mem c hd)) hfolds]

/-- **The groups answer what their classes do exactly when no two places under the same words have
one value.** -/
theorem meets_iff (hg : Folding.Folded B f rows g) (hb : Bound f list having calls given turn)
    (hitems : List.Forall₂ (fun e it => itemOf f.rd e = .ok it) calls f.items) :
    Meets B f list having given rows g ↔ Apart B f rows := by
  refine ⟨fun h => (aggregates_iff hg).mp h.aggregates, fun h => ?_⟩
  have haggregates := (aggregates_iff hg).mpr h
  have hungrouped : f.keys.isEmpty = true → f.classes B rows = [rows] := fun hk => by
    unfold Folding.classes
    exact if_pos hk
  refine ⟨partition_rows f rows, fun hk c hc => ne_nil_of_mem hk hc, hungrouped, hg.keyValues,
    haggregates, hg.fits, fun ctx keep hctx => ?_⟩
  subst hctx
  have hclass : ∀ c ∈ f.classes B rows, c ≠ [] ∨ f.keys.isEmpty = true := by
    intro c hc
    cases hk : f.keys.isEmpty with
    | true => exact .inr rfl
    | false => exact .inl (ne_nil_of_mem hk hc)
  unfold Folding.rows
  rw [hg.keyValues, mapM_groupRow hb hitems hclass haggregates]
  rfl

/-- **Groups are the classes of the rows**: what a list's groups answer, once rows have been folded
in, is what their classes do, exactly when no two places under the same words have one value. -/
theorem groups_are_classes {rd : Reader} {group : List Expr} {lastKey : Key} {ids : List DocId}
    (hnew : Folding.new rd list group having given = .ok f)
    (hfold : f.fold B (f.start lastKey) ids = .ok g) :
    f.keys = groupKeys list group ∧ ∃ rows, f.reads ids = .ok rows ∧
      (Meets B f list having given rows g ↔ Apart B f rows) := by
  obtain ⟨rfl, hkeys, calls, turn, hitems, hb⟩ := new_bound hnew
  have hstart := started_items hitems
  obtain ⟨rows, hrows, hg⟩ := Folding.fold_folded hstart (Folding.start_folded hstart lastKey) hfold
  rw [List.nil_append] at hg
  exact ⟨hkeys, rows, hrows, meets_iff hg hb hitems⟩

/-- Three rows in two groups, the first of which counts the values of two of them. -/
def nearReader : Reader where
  typed _ := none
  read id := .ok (some fun e => match e with
    | .field n => if n = "d.k" then .int (if id = 2 then 7 else 8) else .int (Int64.ofNat id)
    | _ => .null)

theorem groups_are_classes_near : ∃ f g, Folding.new nearReader
      [⟨"n", .call "count" [.call "distinct" [.field "id"]]⟩] [.field "d.k"] none 0 = .ok f ∧
    f.fold Build.ascii (f.start []) [1, 2, 3] = .ok g ∧ f.keys = groupKeys
      [⟨"n", .call "count" [.call "distinct" [.field "id"]]⟩] [.field "d.k"] ∧
    ∃ rows, f.reads [1, 2, 3] = .ok rows ∧ (Meets Build.ascii f
      [⟨"n", .call "count" [.call "distinct" [.field "id"]]⟩] none 0 rows g ↔
        Apart Build.ascii f rows) := by
  obtain ⟨f, hnew⟩ : ∃ f, Folding.new nearReader
      [⟨"n", .call "count" [.call "distinct" [.field "id"]]⟩] [.field "d.k"] none 0 = .ok f :=
    ⟨_, rfl⟩
  have hf := Except.ok.inj hnew
  obtain ⟨g, hfold⟩ : ∃ g, f.fold Build.ascii (f.start []) [1, 2, 3] = .ok g := by
    rw [← hf]
    exact ⟨_, rfl⟩
  exact ⟨f, g, hnew, hfold, groups_are_classes hnew hfold⟩

end Groups

/-! ## 6. Two groups under the same words -/

section Far

variable {B : Build} {f : Folding} {items : List Item} {it : Item} {rows c : List Read} {r : Read}
  {es : List Event} {seen : List Key} {at_ k : Nat} {place : Nat × Nat}

/-- A count of distinct values takes a row while the set has room. -/
theorem addItem_ok (hd : it.start.isDistinct = true)
    (hseen : seen = (firsts Event.key es).map Event.key)
    (hroom : (es ++ it.events B r place).length ≤ maxDistinctValues) :
    ∃ F seen', Folding.addItem B r.id r.env place it (it.stateAt B es place rows) seen =
      .ok (F, seen') := by
  cases hs : it.start with
  | distinct n fold =>
    have hst : it.stateAt B es place rows =
        .distinct (owned Event.key Prod.fst es place) fold := by
      unfold Item.stateAt
      rw [hs]
    unfold Folding.addItem Fold.add
    rw [hst]
    cases hnull : (it.value r.env).isNull with
    | true =>
      rw [if_pos rfl]
      exact ⟨_, _, rfl⟩
    | false =>
      have hev : it.events B r place = [(place, Fold.encode B (it.value r.env) fold)] := by
        unfold Item.events
        rw [hs]
        dsimp only
        rw [hnull, if_neg (by decide)]
      have hlen : seen.length < maxDistinctValues := by
        have hsub : (firsts Event.key es).Sublist es := firsts_sublist es
        have hle := hsub.length_le
        rw [hev, List.length_append, List.length_singleton] at hroom
        rw [hseen, List.length_map]
        omega
      rw [if_neg (by decide)]
      dsimp only
      rw [Result.ok_bind]
      dsimp only
      rw [if_neg (by decide)]
      unfold Fold.rowHeld
      rw [hnull, if_neg (by decide)]
      dsimp only
      split
      · exact ⟨_, _, rfl⟩
      · rw [if_neg (by omega)]
        exact ⟨_, _, rfl⟩
  | _ =>
    rw [hs] at hd
    cases hd

theorem addItems_ok (hd : ∀ it ∈ items, it.start.isDistinct = true)
    (hseen : seen = (firsts Event.key es).map Event.key)
    (hroom : (es ++ rowEvents B r at_ k items).length ≤ maxDistinctValues) :
    ∃ out, Folding.addItems B r.id r.env at_ k items (states B es rows at_ k items) seen =
      .ok out := by
  induction items generalizing k es seen with
  | nil => exact ⟨_, by rw [states, Folding.addItems.eq_def]⟩
  | cons it items ih =>
    rw [rowEvents, ← List.append_assoc] at hroom
    have hone : (es ++ it.events B r (k, at_)).length ≤ maxDistinctValues := by
      rw [List.length_append] at hroom
      omega
    obtain ⟨F, seen', hadd⟩ : ∃ F seen', Folding.addItem B r.id r.env (k, at_) it
        (it.stateAt B es (k, at_) rows) seen = .ok (F, seen') :=
      addItem_ok (hd it List.mem_cons_self) hseen hone
    have hseen' := (addItem_state (fits_of_ne ?_ rows) hseen hadd).2.1
    · have hrest : states B es rows at_ (k + 1) items =
          states B (es ++ it.events B r (k, at_)) rows at_ (k + 1) items := by
        refine (states_append_of_ne fun e he _ => ?_).symm
        rw [mem_events he]
        exact Nat.lt_succ_self k
      obtain ⟨out, hout⟩ := ih (fun x hx => hd x (List.mem_cons_of_mem it hx)) hseen' hroom
      rw [states, Folding.addItems, hadd]
      rw [Result.ok_bind, hrest]
      dsimp only
      rw [hout]
      exact ⟨_, rfl⟩
    · intro sum n hs
      have hdist := hd it List.mem_cons_self
      rw [hs] at hdist
      cases hdist

theorem length_events_le (rows more : List Read) :
    (f.events B rows).length ≤ (f.events B (rows ++ more)).length := by
  induction more using List.reverseRecOn with
  | nil => rw [List.append_nil]
  | append_singleton more r ih =>
    rw [← List.append_assoc, Folding.events_concat, List.length_append]
    omega

/-- A row is folded in while the set has room. -/
theorem foldRow_ok (hd : ∀ it ∈ f.items, it.start.isDistinct = true)
    (hstart : ∀ it ∈ f.items, it.start.Started) {g : Groups} (hg : Folding.Folded B f rows g)
    (hroom : (f.events B (rows ++ [r])).length ≤ maxDistinctValues) :
    ∃ g', f.foldRow B g r.id r.env = .ok g' := by
  obtain ⟨-, hat, hseen⟩ := Folding.turn_spec hstart hg r
  obtain ⟨c, -, hget⟩ := Folding.turn_folds hstart hg r
  rw [Folding.events_concat] at hroom
  obtain ⟨⟨folds, seen⟩, hadd⟩ : ∃ out, Folding.addItems B r.id r.env
      (f.groupOf B (rows ++ [r]) r) 0 f.items
      (states B (f.events B rows) c (f.groupOf B (rows ++ [r]) r) 0 f.items) g.seen = .ok out :=
    addItems_ok hd hg.seen hroom
  unfold Folding.foldRow
  dsimp only
  rw [hat, hget, hseen, hadd]
  exact ⟨_, rfl⟩

/-- **Rows are folded in** where all that a list asks for is counts of distinct values, and the set has
room for them. -/
theorem fold_ok (hd : ∀ it ∈ f.items, it.start.isDistinct = true)
    (hstart : ∀ it ∈ f.items, it.start.Started) {g : Groups} {ids : List DocId} {more : List Read}
    (hg : Folding.Folded B f rows g) (hmore : f.reads ids = .ok more)
    (hroom : (f.events B (rows ++ more)).length ≤ maxDistinctValues) :
    ∃ g', f.fold B g ids = .ok g' := by
  induction ids generalizing rows g more with
  | nil => exact ⟨g, rfl⟩
  | cons id ids ih =>
    rw [Folding.reads] at hmore
    rw [Folding.fold]
    obtain ⟨row, hread, hmore⟩ := bind_ok hmore
    rw [hread, Result.ok_bind]
    cases row with
    | none => exact ih hg hmore hroom
    | some env =>
      obtain ⟨rest, hrest, hmore⟩ := bind_ok hmore
      obtain rfl := Except.ok.inj hmore
      have hassoc : rows ++ ⟨id, env⟩ :: rest = (rows ++ [⟨id, env⟩]) ++ rest := by
        rw [List.append_assoc, List.singleton_append]
      rw [hassoc] at hroom
      obtain ⟨g₁, hg₁⟩ := foldRow_ok hd hstart hg ((length_events_le _ rest).trans hroom)
      obtain ⟨g', hg'⟩ := ih (Folding.foldRow_folded hstart hg ⟨id, env⟩ hg₁) hrest hroom
      dsimp only at hg₁ ⊢
      rw [hg₁, Result.ok_bind]
      exact ⟨g', hg'⟩

end Far

section FarRows

variable {B : Build} {last id : DocId} {m : Nat}

/-- The expressions of a row, of which the first and the last hold one value under a json path. -/
def farRow (last id : DocId) : Expr → Value
  | .field n =>
    if n = "id" then .int (Int64.ofNat id) else if id = 1 ∨ id = last then .int 1 else .null
  | _ => .null

/-- `count(distinct d.v)`. -/
def farList : List Column := [⟨"n", .call "count" [.call "distinct" [.field "d.v"]]⟩]

/-- The list over those rows, by `id`. -/
def farFolding (last : DocId) : Folding where
  rd := ⟨fun _ => none, fun id => .ok (some (farRow last id))⟩
  keys := [⟨none, .field "id"⟩]
  items := [⟨.distinct 0 none, some (.field "d.v"), none⟩]
  outs := [.fold 0]
  having := none

/-- A row of the list. -/
def farRead (last id : DocId) : Read := ⟨id, farRow last id⟩

theorem farFolding_new (last : DocId) :
    Folding.new (farFolding last).rd farList [.field "id"] none 0 = .ok (farFolding last) := by
  rfl

theorem farFolding_reads (last : DocId) (ids : List DocId) :
    (farFolding last).reads ids = .ok (ids.map (farRead last)) := by
  induction ids with
  | nil => rfl
  | cons id ids ih =>
    have hread : (farFolding last).rd.read id = .ok (some (farRow last id)) := rfl
    rw [Folding.reads, hread, Result.ok_bind]
    dsimp only
    rw [ih]
    rfl

theorem farFolding_readKey (last id : DocId) : (farFolding last).readKey B (farRead last id) =
    Codec.encodeValue (.int (Int64.ofNat id)) := by
  unfold Folding.readKey Folding.key
  exact List.append_nil _

theorem farFolding_rowEvents (at_ : Nat) :
    rowEvents B (farRead last id) at_ 0 (farFolding last).items =
      if id = 1 ∨ id = last then [((0, at_), Codec.encodeValue (.int 1))] else [] := by
  have hname : ¬ "d.v" = "id" := by decide
  have hvalue : farRow last id (.field "d.v") = if id = 1 ∨ id = last then .int 1 else .null := by
    rw [farRow, if_neg hname]
  change (if (farRow last id (.field "d.v")).isNull then []
    else [((0, at_), Fold.encode B (farRow last id (.field "d.v")) none)]) ++ [] = _
  rw [hvalue, List.append_nil]
  by_cases h : id = 1 ∨ id = last
  · rw [if_pos h, if_pos h]
    rfl
  · rw [if_neg h, if_neg h]
    rfl

theorem ofNat_inj {x y : Nat} (hx : x < 2 ^ 63) (hy : y < 2 ^ 63)
    (h : Int64.ofNat x = Int64.ofNat y) : x = y := by
  have hint := congrArg Int64.toInt h
  rw [Int64.toInt_ofNat_of_lt hx, Int64.toInt_ofNat_of_lt hy] at hint
  omega

theorem farFolding_readKey_inj {x y : DocId} (hx : x < 2 ^ 63) (hy : y < 2 ^ 63)
    (h : (farFolding last).readKey B (farRead last x) =
      (farFolding last).readKey B (farRead last y)) : x = y := by
  rw [farFolding_readKey, farFolding_readKey] at h
  exact ofNat_inj hx hy (Value.int.inj (Codec.encodeValue_inj h))

/-- The ids from 1 on, `m + 1` of them. -/
def farIds (m : Nat) : List DocId := List.range' 1 (m + 1)

/-- The rows before the last have groups of their own. -/
theorem firsts_farIds (hm : m < 2 ^ 62) :
    firsts ((farFolding last).readKey B) ((farIds m).map (farRead last)) =
      (farIds m).map (farRead last) := by
  refine firsts_eq_self ?_
  rw [List.map_map]
  refine (List.nodup_range' (s := 1) (n := m + 1)).map_on fun x hx y hy hxy => ?_
  have hroom : 1 + (m + 1) ≤ 2 ^ 63 := by omega
  have hx' := Nat.lt_of_lt_of_le (List.mem_range'_1.mp hx).2 hroom
  have hy' := Nat.lt_of_lt_of_le (List.mem_range'_1.mp hy).2 hroom
  exact farFolding_readKey_inj hx' hy' hxy

/-- The last row has a group of its own, numbered after the others. -/
theorem groupOf_last (hm : m < 2 ^ 62) : (farFolding (m + 2)).groupOf B
    ((farIds m).map (farRead (m + 2)) ++ [farRead (m + 2) (m + 2)]) (farRead (m + 2) (m + 2)) =
      m + 1 := by
  have hnew : ¬ ∃ y ∈ (farIds m).map (farRead (m + 2)), (farFolding (m + 2)).readKey B y =
      (farFolding (m + 2)).readKey B (farRead (m + 2) (m + 2)) := by
    rintro ⟨y, hy, heq⟩
    obtain ⟨x, hx, rfl⟩ := List.mem_map.mp hy
    have hlt := (List.mem_range'_1.mp hx).2
    have hroom : 1 + (m + 1) ≤ 2 ^ 63 := by omega
    have hx' : x < 2 ^ 63 := Nat.lt_of_lt_of_le hlt hroom
    have hm' : m + 2 < 2 ^ 63 := by omega
    have hxm := farFolding_readKey_inj hx' hm' heq
    rw [hxm] at hlt
    omega
  have hnumber := number_concat_self hnew
  rw [firsts_farIds hm, List.length_map, farIds, List.length_range'] at hnumber
  exact hnumber

/-- The first row's group is the first. -/
theorem groupOf_first (hm : m < 2 ^ 62) : (farFolding last).groupOf B
    ((farIds m).map (farRead last)) (farRead last 1) = 0 := by
  refine (number_eq_iff (y := farRead last 1) ?_).mpr rfl
  rw [firsts_farIds hm]
  rfl

/-- **What the rows put in the set**: the first's value and the last's. -/
theorem events_far (hm : m < 2 ^ 62) : (farFolding (m + 2)).events B
    ((farIds m).map (farRead (m + 2)) ++ [farRead (m + 2) (m + 2)]) =
      [((0, 0), Codec.encodeValue (.int 1)), ((0, m + 1), Codec.encodeValue (.int 1))] := by
  have hlast : rowEvents B (farRead (m + 2) (m + 2)) (m + 1) 0 (farFolding (m + 2)).items =
      [((0, m + 1), Codec.encodeValue (.int 1))] := by
    rw [farFolding_rowEvents, if_pos (.inr rfl)]
  have hfirst : rowEvents B (farRead (m + 2) 1) 0 0 (farFolding (m + 2)).items =
      [((0, 0), Codec.encodeValue (.int 1))] := by
    rw [farFolding_rowEvents, if_pos (.inl rfl)]
  have hmiddle : ∀ id ∈ List.range' 2 m, ∀ at_,
      rowEvents B (farRead (m + 2) id) at_ 0 (farFolding (m + 2)).items = [] := by
    intro id hid at_
    obtain ⟨hlo, hhi⟩ := List.mem_range'_1.mp hid
    rw [farFolding_rowEvents, if_neg]
    rintro (rfl | rfl)
    · exact absurd hlo (by decide)
    · omega
  rw [Folding.events_concat, groupOf_last hm, hlast]
  have hrows : (farIds m).map (farRead (m + 2)) =
      farRead (m + 2) 1 :: (List.range' 2 m).map (farRead (m + 2)) := rfl
  have hgroup : (farFolding (m + 2)).groupOf B ((farIds m).map (farRead (m + 2)))
      (farRead (m + 2) 1) = 0 := groupOf_first hm
  unfold Folding.events
  rw [hrows] at hgroup ⊢
  rw [List.flatMap_cons, hgroup, hfirst, List.flatMap_eq_nil_iff.mpr]
  · rfl
  · intro r hr
    obtain ⟨id, hid, rfl⟩ := List.mem_map.mp hr
    exact hmiddle id hid _

/-- **Of two groups a multiple of `2^32` apart that hold one value, the second does not count it.** -/
theorem far_collide {m : Nat} (hm : m < 2 ^ 62) (hword : (m + 1) % 2 ^ 32 = 0) :
    ∃ g rows, (farFolding (m + 2)).fold B ((farFolding (m + 2)).start [])
        (farIds m ++ [m + 2]) = .ok g ∧
      (farFolding (m + 2)).reads (farIds m ++ [m + 2]) = .ok rows ∧
        ¬ Meets B (farFolding (m + 2)) farList none 0 rows g := by
  obtain ⟨-, -, calls, turn, hitems, hb⟩ := new_bound (farFolding_new (m + 2))
  have hstart := started_items hitems
  have hdistinct : ∀ it ∈ (farFolding (m + 2)).items, it.start.isDistinct = true := by
    intro it hit
    rw [List.mem_singleton.mp hit]
    rfl
  have hreads := farFolding_reads (m + 2) (farIds m ++ [m + 2])
  rw [List.map_append, List.map_singleton] at hreads
  have hbegin := Folding.start_folded (B := B) hstart []
  have htwo : 2 ≤ maxDistinctValues := by decide
  have hroom : ((farFolding (m + 2)).events B
      ([] ++ ((farIds m).map (farRead (m + 2)) ++ [farRead (m + 2) (m + 2)]))).length ≤
        maxDistinctValues := by
    rw [List.nil_append, events_far hm]
    exact htwo
  obtain ⟨g, hg⟩ := fold_ok hdistinct hstart hbegin hreads hroom
  obtain ⟨rows, hrows, hfolded⟩ := Folding.fold_folded hstart hbegin hg
  rw [hreads] at hrows
  obtain rfl := Except.ok.inj hrows
  rw [List.nil_append] at hfolded
  refine ⟨g, _, hg, hreads, fun hmeets => ?_⟩
  have hapart := (meets_iff hfolded hb hitems).mp hmeets
  unfold Apart at hapart
  rw [events_far hm] at hapart
  have hsame := hapart _ List.mem_cons_self _ (List.mem_cons_of_mem _ List.mem_cons_self) rfl rfl
    hword.symm
  have hzero := (Prod.mk.inj hsame).2
  omega

/-- `2^32 + 1` rows, a group each: the last one's value is the first one's, and is not counted. -/
theorem distinct_shared : ∃ g rows,
    Folding.new (farFolding (4294967295 + 2)).rd farList [.field "id"] none 0 =
      .ok (farFolding (4294967295 + 2)) ∧
    (farFolding (4294967295 + 2)).fold Build.ascii ((farFolding (4294967295 + 2)).start [])
      (farIds 4294967295 ++ [4294967295 + 2]) = .ok g ∧
    (farFolding (4294967295 + 2)).reads (farIds 4294967295 ++ [4294967295 + 2]) = .ok rows ∧
    ¬ Meets Build.ascii (farFolding (4294967295 + 2)) farList none 0 rows g := by
  have hm : 4294967295 < 2 ^ 62 := by decide
  have hword : (4294967295 + 1) % 2 ^ 32 = 0 := by decide
  obtain ⟨g, rows, hfold, hreads, hnot⟩ := far_collide (B := Build.ascii) hm hword
  exact ⟨g, rows, farFolding_new _, hfold, hreads, hnot⟩

end FarRows

end Fenec.Aggregate
