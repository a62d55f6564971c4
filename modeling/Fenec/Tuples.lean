/-
# Tuples of values, and the keys they are filed under

`Part.cmp` is the order of a part's values: `cmpValue`'s, or of two texts the part's own, turned
round where the part descends.  For the values a field of the part's type holds it is the order
of their slots (`cmpSlots_eq_cmp`), so by `Fenec.CompositeOrder` two rows' keys compare as the
tuples of their values do, part by part (`keys_order_as_tuples`).

The keys of an index with no collated part are kept in their entries up to 22 bytes and compared as
two numbers (`KeyBytes`): that is the order of the bytes (`cmp_keyBytes`).

The length of a collated text is written in four bytes, and nothing keeps a text below `2 ^ 32`
bytes: past that a part is cut short and the bytes left are read as parts of their own
(`long_texts_collide`).
-/
import Fenec.CompositeOrder
import Fenec.Filed
import Mathlib.Data.Vector.Basic

namespace Fenec

open Lib Case CompositeKey

/-! ## 1. The order of values -/

/-- The order of two values of a field, texts in the field's own order. -/
def cmpIn (B : Build) (order : TextOrder) (x y : Value) : Ordering :=
  match x, y with
  | .text a, .text b => order.compare B.chars B.collation a b
  | _, _ => x.cmpValue y

/-- The type of the fields a part is over. -/
def PartKind.type : PartKind → DataType
  | .int => .int
  | .time => .timestamp
  | .float => .float
  | .bool => .bool
  | .text => .text
  | .json => .json

namespace Part

/-- The order of a part's texts. -/
def order (p : Part) : TextOrder := if p.kind = .text then ⟨p.coll, p.fold⟩ else .bytes

/-- A value a field of the part holds. -/
def Holds (p : Part) (v : Value) : Prop := Typed p.kind.type v

/-- A value of the part's kind: a json part's literals are of any. -/
def Takes (p : Part) (v : Value) : Prop := p.kind ≠ .json → p.Holds v

theorem Holds.takes {p : Part} {v : Value} (h : p.Holds v) : p.Takes v := fun _ => h

/-- The order of a part's values. -/
def cmp (B : Build) (p : Part) (x y : Value) : Ordering :=
  if p.desc then (cmpIn B p.order x y).swap else cmpIn B p.order x y

/-- A collated text that a part files is below `2 ^ 32` bytes. -/
def Short (B : Build) (p : Part) (v : Value) : Prop :=
  ∀ t, v = .text t → p.textColl.isSome = true →
    (utf8 (fit B.chars p.fold t).toList).length < 2 ^ 32

end Part

theorem typed_float {v : Value} (h : Typed .float v) : v = .null ∨ ∃ f, v = .float f := by
  unfold Typed at h
  cases v <;> simp_all [coerce]

/-- Two folded texts compare as their folds do. -/
theorem compare_order (B : Build) (coll : Option Collation) (fold : Option CaseFold)
    (a b : String) :
    (TextOrder.mk coll fold).compare B.chars B.collation a b =
      textOrder B coll (fit B.chars fold a) (fit B.chars fold b) := by
  cases fold with
  | none => cases coll <;> rfl
  | some f =>
    cases coll with
    | some c => rfl
    | none =>
      show cmpFolded B.chars f a.toList b.toList =
        cmpStr (Case.fold B.chars f a) (Case.fold B.chars f b)
      rw [cmpFolded_eq, cmpStr, toList_fold, toList_fold]

section Values

variable {B : Build} {p : Part} {x y : Value} {s s' : PartSlot}

/-- A number with a place in the order of json values, and the word it is keyed as. -/
def JsonNumber (x : Value) (k : Nat) : Prop :=
  (∃ i, x = .int i ∧ exactAsFloat i = true ∧ k = floatKey (Ieee.ofInt i.toInt)) ∨
  ∃ f, x = .float f ∧ f.isNaN = false ∧ k = floatKey f

/-- Where a json value goes. -/
theorem jsonSlot_cases (v : Value) :
    (∃ k, JsonNumber v k ∧ jsonSlot (some v) = .num k) ∨
    (∃ t, v = .text t ∧ jsonSlot (some v) = .text t) ∨ (v = .null ∧ jsonSlot (some v) = .null) ∨
    (v ≠ .null ∧ jsonSlot (some v) = .apart) := by
  cases v with
  | int i =>
    by_cases hi : exactAsFloat i = true
    · exact .inl ⟨_, .inl ⟨i, rfl, hi, rfl⟩, if_pos hi⟩
    · exact .inr (.inr (.inr ⟨fun h => (by cases h), if_neg hi⟩))
  | float f =>
    by_cases hf : f.isNaN = true
    · exact .inr (.inr (.inr ⟨fun h => (by cases h), if_pos hf⟩))
    · exact .inl ⟨_, .inr ⟨f, rfl, by simpa using hf, rfl⟩, if_neg hf⟩
  | text t => exact .inr (.inl ⟨t, rfl, rfl⟩)
  | null => exact .inr (.inr (.inl ⟨rfl, rfl⟩))
  | _ => exact .inr (.inr (.inr ⟨fun h => (by cases h), rfl⟩))

/-- **Json numbers' words compare as the numbers do**: as floats, two integers exactly. -/
theorem compare_jsonNumber {k k' : Nat} (hx : JsonNumber x k) (hy : JsonNumber y k') :
    compare k k' = x.cmpValue y := by
  have hnan : ∀ i : Int64, (Ieee.ofInt i.toInt : F64).isNaN = false := fun i =>
    Ieee.isNaN_ofInt _
  rcases hx with ⟨i, rfl, hi, hk⟩ | ⟨f, rfl, hf, hk⟩
  · rcases hy with ⟨j, rfl, hj, hk'⟩ | ⟨g, rfl, hg, hk'⟩
    · rw [hk, hk', compare_floatKey (hnan i) (hnan j), cmpFloat_ofInt_exact hi hj]
      rfl
    · rw [hk, hk']
      exact compare_floatKey (hnan i) hg
  · rcases hy with ⟨j, rfl, hj, hk'⟩ | ⟨g, rfl, hg, hk'⟩
    · rw [hk, hk']
      exact compare_floatKey hf (hnan j)
    · rw [hk, hk']
      exact compare_floatKey hf hg

theorem jsonNumber_lt {k : Nat} (hx : JsonNumber x k) : k < 2 ^ 64 := by
  rcases hx with ⟨i, -, -, hk⟩ | ⟨f, -, -, hk⟩
  · exact hk ▸ floatKey_lt _
  · exact hk ▸ floatKey_lt f

/-- A json number is below every text. -/
theorem jsonNumber_text {k : Nat} (hx : JsonNumber x k) (t : String) :
    x.cmpValue (.text t) = .lt ∧ Value.cmpValue (.text t) x = .gt := by
  rcases hx with ⟨i, rfl, -⟩ | ⟨f, rfl, -⟩
  · exact ⟨rfl, rfl⟩
  · exact ⟨rfl, rfl⟩

/-- A number is compared as it is whatever the order of texts. -/
theorem cmpIn_jsonNumber {k : Nat} (hx : JsonNumber x k) (y : Value) (o : TextOrder) :
    cmpIn B o x y = x.cmpValue y ∧ cmpIn B o y x = y.cmpValue x := by
  rcases hx with ⟨i, rfl, -⟩ | ⟨f, rfl, -⟩
  · cases y <;> exact ⟨rfl, rfl⟩
  · cases y <;> exact ⟨rfl, rfl⟩

/-- The values a part files under a number, a truth value or a text. -/
theorem slot_cases (hx : p.Takes x) (h : p.slot B x = some s) :
    (x = .null ∧ s = .null) ∨
    (p.kind = .int ∧ ∃ i, x = .int i ∧ s = .num (intKey i)) ∨
    (p.kind = .time ∧ ∃ i, x = .timestamp i ∧ s = .num (intKey i)) ∨
    (p.kind = .float ∧ ∃ f, x = .float f ∧ f.isNaN = false ∧ s = .num (floatKey f)) ∨
    (p.kind = .bool ∧ ∃ b, x = .bool b ∧ s = .flag b) ∨
    (p.kind = .text ∧ ∃ t, x = .text t ∧ s = .text (fit B.chars p.fold t)) ∨
    (p.kind = .json ∧ ((∃ k, JsonNumber x k ∧ s = .num k) ∨ ∃ t, x = .text t ∧ s = .text t)) := by
  obtain ⟨kind, desc, coll, fold⟩ := p
  by_cases hnull : x = .null
  · subst hnull
    refine .inl ⟨rfl, ?_⟩
    cases kind <;> cases h <;> rfl
  · cases kind with
    | int =>
      obtain ⟨i, rfl⟩ := (typed_int (hx fun h => (by cases h))).resolve_left hnull
      cases h
      exact .inr (.inl ⟨rfl, i, rfl, rfl⟩)
    | time =>
      obtain ⟨i, rfl⟩ := (typed_timestamp (hx fun h => (by cases h))).resolve_left hnull
      cases h
      exact .inr (.inr (.inl ⟨rfl, i, rfl, rfl⟩))
    | float =>
      obtain ⟨f, rfl⟩ := (typed_float (hx fun h => (by cases h))).resolve_left hnull
      simp only [Part.slot] at h
      split at h
      · cases h
      · next hn =>
        cases h
        exact .inr (.inr (.inr (.inl ⟨rfl, f, rfl, by simpa using hn, rfl⟩)))
    | bool =>
      obtain ⟨b, rfl⟩ := (typed_bool (hx fun h => (by cases h))).resolve_left hnull
      cases h
      exact .inr (.inr (.inr (.inr (.inl ⟨rfl, b, rfl, rfl⟩))))
    | text =>
      obtain ⟨t, rfl⟩ := (typed_text (hx fun h => (by cases h))).resolve_left hnull
      cases h
      exact .inr (.inr (.inr (.inr (.inr (.inl ⟨rfl, t, rfl, rfl⟩)))))
    | json =>
      refine .inr (.inr (.inr (.inr (.inr (.inr ⟨rfl, ?_⟩)))))
      rcases jsonSlot_cases x with ⟨k, hk, hj⟩ | ⟨t, rfl, hj⟩ | ⟨rfl, -⟩ | ⟨-, hj⟩
      · refine .inl ⟨k, hk, ?_⟩
        rcases hk with ⟨i, rfl, -⟩ | ⟨f, rfl, -⟩ <;> simp only [Part.slot, hj] at h <;> cases h <;>
          rfl
      · cases h
        exact .inr ⟨t, rfl, rfl⟩
      · exact absurd rfl hnull
      · cases x <;> simp [Part.slot, hj] at h
        exact absurd rfl hnull

/-- **A part's slots order as the values do**, each part ascending. -/
theorem slots_order (hx : p.Takes x) (hy : p.Takes y) (h : p.slot B x = some s)
    (h' : p.slot B y = some s') : s.cmp (textOrder B p.textColl) s' = cmpIn B p.order x y := by
  rcases slot_cases hx h with ⟨rfl, rfl⟩ | hx
  · rcases slot_cases hy h' with ⟨rfl, rfl⟩ | hy
    · rfl
    · rcases hy with ⟨-, i, rfl, rfl⟩ | ⟨-, i, rfl, rfl⟩ | ⟨-, f, rfl, -, rfl⟩ | ⟨-, b, rfl, rfl⟩ |
        ⟨-, t, rfl, rfl⟩ | ⟨-, ⟨k, ⟨i, rfl, -⟩ | ⟨f, rfl, -⟩, rfl⟩ | ⟨t, rfl, rfl⟩⟩ <;> rfl
  · rcases slot_cases hy h' with ⟨rfl, rfl⟩ | hy
    · rcases hx with ⟨-, i, rfl, rfl⟩ | ⟨-, i, rfl, rfl⟩ | ⟨-, f, rfl, -, rfl⟩ | ⟨-, b, rfl, rfl⟩ |
        ⟨-, t, rfl, rfl⟩ | ⟨-, ⟨k, ⟨i, rfl, -⟩ | ⟨f, rfl, -⟩, rfl⟩ | ⟨t, rfl, rfl⟩⟩ <;> rfl
    · obtain ⟨kind, desc, coll, fold⟩ := p
      cases kind <;>
        simp only [reduceCtorEq, false_and, true_and, false_or, or_false] at hx hy
      · obtain ⟨i, rfl, rfl⟩ := hx
        obtain ⟨j, rfl, rfl⟩ := hy
        exact compare_intKey i j
      · obtain ⟨i, rfl, rfl⟩ := hx
        obtain ⟨j, rfl, rfl⟩ := hy
        exact compare_intKey i j
      · obtain ⟨f, rfl, hf, rfl⟩ := hx
        obtain ⟨g, rfl, hg, rfl⟩ := hy
        exact compare_floatKey hf hg
      · obtain ⟨b, rfl, rfl⟩ := hx
        obtain ⟨b', rfl, rfl⟩ := hy
        rfl
      · obtain ⟨t, rfl, rfl⟩ := hx
        obtain ⟨t', rfl, rfl⟩ := hy
        exact (compare_order B coll fold t t').symm
      · rcases hx with ⟨k, hk, rfl⟩ | ⟨t, rfl, rfl⟩
        · rcases hy with ⟨k', hk', rfl⟩ | ⟨t', rfl, rfl⟩
          · exact (compare_jsonNumber hk hk').trans (cmpIn_jsonNumber hk y _).1.symm
          · exact ((cmpIn_jsonNumber hk _ _).1.trans (jsonNumber_text hk t').1).symm
        · rcases hy with ⟨k', hk', rfl⟩ | ⟨t', rfl, rfl⟩
          · exact ((cmpIn_jsonNumber hk' _ _).2.trans (jsonNumber_text hk' t).2).symm
          · rfl

/-- **A part's slots order as its values do.** -/
theorem cmpSlots_eq_cmp (hx : p.Takes x) (hy : p.Takes y) (h : p.slot B x = some s)
    (h' : p.slot B y = some s') : p.cmpSlots B s s' = p.cmp B x y := by
  rw [Part.cmpSlots, Part.cmp, slots_order hx hy h h']

/-- A slot's word fits, and its text where that is short. -/
theorem fits_slot (hx : p.Takes x) (hshort : p.Short B x) (h : p.slot B x = some s) :
    s.Fits p.textColl := by
  rcases slot_cases hx h with ⟨-, rfl⟩ | ⟨-, i, -, rfl⟩ | ⟨-, i, -, rfl⟩ | ⟨-, f, -, -, rfl⟩ |
    ⟨-, b, -, rfl⟩ | ⟨-, t, rfl, rfl⟩ | ⟨hk, ⟨k, hnum, rfl⟩ | ⟨t, -, rfl⟩⟩
  · trivial
  · exact intKey_lt i
  · exact intKey_lt i
  · exact floatKey_lt f
  · trivial
  · exact hshort t rfl
  · exact jsonNumber_lt hnum
  · -- a json part is never collated
    intro hcoll
    rw [Part.textColl, hk] at hcoll
    cases hcoll

/-- Slots that compare equal are one. -/
theorem eq_of_cmpSlots (h : p.cmpSlots B s s' = .eq) : s = s' := by
  have hup : s.cmp (textOrder B p.textColl) s' = .eq := by
    unfold Part.cmpSlots at h
    dsimp only at h
    split at h
    · exact Ordering.swap_eq_eq.mp h
    · exact h
  cases s with
  | null => cases s' <;> first | rfl | cases hup
  | num k =>
    cases s' with
    | num k' => exact congrArg _ (Std.compare_eq_iff_eq.mp hup)
    | _ => cases hup
  | flag b =>
    cases s' with
    | flag b' => exact congrArg _ (Std.compare_eq_iff_eq.mp hup)
    | _ => cases hup
  | text t =>
    cases s' with
    | text t' =>
      refine congrArg _ ?_
      change textOrder B p.textColl t t' = .eq at hup
      unfold textOrder at hup
      split at hup
      · exact (Collation.compare_eq_iff B.collation _).mp hup
      · exact cmpStr_eq_iff.mp hup
    | _ => cases hup


end Values

/-! ## 2. Keys held in place -/

/-- `INLINE`: the longest key an entry holds in place. -/
def inlineLen : Nat := 22

/-- `KeyBytes`: a key in its entry, its length and its bytes padded with zeros, or on the heap. -/
inductive KeyBytes where
  | inline (n : UInt8) (a : List.Vector UInt8 inlineLen)
  | heap (b : Key)

/-- The number some bytes are, most first. -/
def beNat (acc : Nat) (l : List UInt8) : Nat := l.foldl (fun acc x => acc * 256 + x.toNat) acc

namespace KeyBytes

/-- A short key filled up with zeros. -/
def padded (b : Key) (h : b.length ≤ inlineLen) : List.Vector UInt8 inlineLen :=
  ⟨b ++ List.replicate (inlineLen - b.length) 0, by
    rw [List.length_append, List.length_replicate]
    omega⟩

/-- `KeyBytes::new`. -/
def new (b : Key) : KeyBytes :=
  if h : b.length ≤ inlineLen then .inline (UInt8.ofNat b.length) (padded b h) else .heap b

/-- `KeyBytes::deref`. -/
def deref : KeyBytes → Key
  | .inline n a => a.toList.take n.toNat
  | .heap b => b

/-- Bytes in place as two numbers: the first sixteen, and the rest filled up to eight. -/
def wide (a : List.Vector UInt8 inlineLen) : Nat × Nat :=
  (beNat 0 (a.toList.take 16), beNat 0 (a.toList.drop 16 ++ [0, 0]))

/-- `KeyBytes::cmp`. -/
def cmp (x y : KeyBytes) : Ordering :=
  match x, y with
  | .inline m a, .inline n b =>
    ((compare (wide a).1 (wide b).1).then (compare (wide a).2 (wide b).2)).then (compare m n)
  | x, y => compare x.deref y.deref

end KeyBytes

section InPlace

/-- Bytes compare as the numbers they are, where there are as many. -/
theorem compare_beNat {a b : List UInt8} (h : a.length = b.length) (v w : Nat) :
    compare (beNat v a) (beNat w b) = (compare v w).then (compare a b) := by
  induction a generalizing b v w with
  | nil =>
    rw [List.length_eq_zero_iff.mp h.symm]
    show compare v w = (compare v w).then .eq
    rw [Ordering.then_eq]
  | cons x a ih =>
    cases b with
    | nil => cases h
    | cons y b =>
      have hx := x.toNat_lt
      have hy := y.toNat_lt
      have hbase : 0 < 256 := by omega
      have hstep := compare_div_mod (v * 256 + x.toNat) (w * 256 + y.toNat) hbase
      have hdiv : ∀ u z : Nat, z < 2 ^ 8 → (u * 256 + z) / 256 = u := by omega
      have hmod : ∀ u z : Nat, z < 2 ^ 8 → (u * 256 + z) % 256 = z := by omega
      rw [hdiv v _ hx, hdiv w _ hy, hmod v _ hx, hmod w _ hy, ← compare_uint8] at hstep
      show compare (beNat (v * 256 + x.toNat) a) (beNat (w * 256 + y.toNat) b) = _
      rw [ih (Nat.succ.inj h), ← hstep, compare_cons, Ordering.then_assoc]

/-- Two runs of bytes in place compare as their two numbers do. -/
theorem compare_wide (a b : List.Vector UInt8 inlineLen) :
    (compare (KeyBytes.wide a).1 (KeyBytes.wide b).1).then
      (compare (KeyBytes.wide a).2 (KeyBytes.wide b).2) = compare a.toList b.toList := by
  have ha : a.toList.length = inlineLen := a.toList_length
  have hb : b.toList.length = inlineLen := b.toList_length
  have hfirst : (a.toList.take 16).length = (b.toList.take 16).length := by
    rw [List.length_take, List.length_take, ha, hb]
  have hrest : (a.toList.drop 16).length = (b.toList.drop 16).length := by
    rw [List.length_drop, List.length_drop, ha, hb]
  have hlast : (a.toList.drop 16 ++ [0, 0]).length = (b.toList.drop 16 ++ [0, 0]).length := by
    rw [List.length_append, List.length_append, hrest]
  calc
    _ = (compare (a.toList.take 16) (b.toList.take 16)).then
        (compare (a.toList.drop 16 ++ [0, 0]) (b.toList.drop 16 ++ [0, 0])) := by
      rw [KeyBytes.wide, KeyBytes.wide, compare_beNat hfirst, compare_beNat hlast]
      rfl
    _ = (compare (a.toList.take 16) (b.toList.take 16)).then
        (compare (a.toList.drop 16) (b.toList.drop 16)) := by
      rw [(parted_of_length hrest).compare_append, Std.compare_self, Ordering.then_eq]
    _ = compare a.toList b.toList := by
      rw [← (parted_of_length hfirst).compare_append, List.take_append_drop,
        List.take_append_drop]

theorem deref_new (b : Key) : (KeyBytes.new b).deref = b := by
  unfold KeyBytes.new
  split
  · next h =>
    have hlen : (UInt8.ofNat b.length).toNat = b.length := by
      rw [UInt8.toNat_ofNat']
      unfold inlineLen at h
      omega
    show (b ++ List.replicate (inlineLen - b.length) 0).take (UInt8.ofNat b.length).toNat = b
    rw [hlen, List.take_left]
  · rfl

/-- **Keys in entries compare as their bytes do**, in place or not. -/
theorem cmp_keyBytes (a b : Key) : (KeyBytes.new a).cmp (KeyBytes.new b) = compare a b := by
  by_cases hshort : a.length ≤ inlineLen ∧ b.length ≤ inlineLen
  · obtain ⟨ha, hb⟩ := hshort
    have hlens : compare (UInt8.ofNat a.length) (UInt8.ofNat b.length) =
        compare a.length b.length := by
      unfold inlineLen at ha hb
      rw [compare_uint8, UInt8.toNat_ofNat', UInt8.toNat_ofNat', Nat.mod_eq_of_lt (by omega),
        Nat.mod_eq_of_lt (by omega)]
    have hzero : ∀ x : UInt8, compare 0 x ≠ .gt := by
      intro x hx
      rw [compare_uint8, Nat.compare_eq_gt] at hx
      exact absurd hx (Nat.not_lt_zero _)
    rw [← compare_padded hzero ha hb, ← hlens]
    have hnew : ∀ {k : Key} (h : k.length ≤ inlineLen), KeyBytes.new k =
        .inline (UInt8.ofNat k.length) (KeyBytes.padded k h) := fun h => dif_pos h
    rw [hnew ha, hnew hb, KeyBytes.cmp, compare_wide]
    rfl
  · -- one of the two is on the heap, and the bytes themselves are compared
    have hheap : (KeyBytes.new a).cmp (KeyBytes.new b) =
        compare (KeyBytes.new a).deref (KeyBytes.new b).deref := by
      by_cases ha : a.length ≤ inlineLen
      · have hb : KeyBytes.new b = .heap b := dif_neg fun hb => hshort ⟨ha, hb⟩
        rw [hb]
        cases KeyBytes.new a <;> rfl
      · have ha : KeyBytes.new a = .heap a := dif_neg ha
        rw [ha]
        cases KeyBytes.new b <;> rfl
    rw [hheap, deref_new, deref_new]

end InPlace


/-! ## 3. Tuples -/

/-- Tuples compare part by part. -/
def cmpTuple (B : Build) : List Part → List Value → List Value → Ordering
  | p :: ps, x :: xs, y :: ys => (p.cmp B x y).then (cmpTuple B ps xs ys)
  | _, _, _ => .eq

/-- The order of two keys of an index: part by part where one of its parts is collated. -/
def keyOrder (B : Build) (ps : List Part) (a b : Key) : Ordering :=
  if ps.any fun p => p.coll.isSome then cmpKeys B a.length a b
  else (KeyBytes.new a).cmp (KeyBytes.new b)

/-- The parts of a tuple's key. -/
def keyParts (B : Build) (ps : List Part) (vs : List Value) : List Key :=
  List.zipWith (fun p v => (putPart B p v).1) ps vs

/-- A tuple the fields of the parts hold, its collated texts short. -/
def Tuple (B : Build) (ps : List Part) (vs : List Value) : Prop :=
  List.Forall₂ (fun p v => p.Holds v ∧ p.Short B v) ps vs

/-- An index none of whose parts is collated. -/
theorem coll_of_any {ps : List Part} (h : ¬ (ps.any fun p => p.coll.isSome) = true) :
    ∀ p ∈ ps, p.coll = none := by
  intro p hp
  cases hc : p.coll with
  | none => rfl
  | some c => exact absurd (List.any_eq_true.mpr ⟨p, hp, by rw [hc]; rfl⟩) h

section Tuples

variable {B : Build} {p : Part} {ps : List Part} {x y : Value} {xs ys : List Value}

/-- A tuple whose key puts no part apart: its first part's slot, and the rest. -/
theorem rowKey_cons (h : (CompositeIndex.rowKey B (p :: ps) (x :: xs)).apart = false) :
    ∃ s, p.slot B x = some s ∧
      (CompositeIndex.rowKey B (p :: ps) (x :: xs)).bytes =
        p.code s ++ (CompositeIndex.rowKey B ps xs).bytes ∧
      (CompositeIndex.rowKey B ps xs).apart = false := by
  have happart : ((putPart B p x).2 || (CompositeIndex.rowKey B ps xs).apart) = false := h
  rw [Bool.or_eq_false_iff] at happart
  obtain ⟨s, hs⟩ := slot_of_not_apart happart.1
  refine ⟨s, hs, ?_, happart.2⟩
  show (putPart B p x).1 ++ _ = _
  rw [putPart_eq hs]

/-- **Keys compared part by part order as the tuples.** -/
theorem cmpKeys_rowKey (hx : Tuple B ps xs) (hy : Tuple B ps ys)
    (hax : (CompositeIndex.rowKey B ps xs).apart = false)
    (hay : (CompositeIndex.rowKey B ps ys).apart = false) {fuel : Nat}
    (hfuel : (CompositeIndex.rowKey B ps xs).bytes.length ≤ fuel) :
    cmpKeys B fuel (CompositeIndex.rowKey B ps xs).bytes (CompositeIndex.rowKey B ps ys).bytes =
      cmpTuple B ps xs ys := by
  induction hx generalizing ys fuel with
  | nil =>
    cases hy
    cases fuel <;> rfl
  | @cons p x ps xs hp hx ih =>
    cases hy with
    | @cons _ y _ ys hp' hy =>
      obtain ⟨s, hs, hbytes, hrest⟩ := rowKey_cons hax
      obtain ⟨s', hs', hbytes', hrest'⟩ := rowKey_cons hay
      obtain ⟨rest, hcode⟩ := code_head p s
      rw [hbytes, hcode, List.cons_append, List.length_cons, List.length_append] at hfuel
      obtain ⟨fuel, rfl⟩ : ∃ n, fuel = n + 1 := ⟨fuel - 1, by omega⟩
      rw [hbytes, hbytes', cmpKeys_code (fits_slot hp.1.takes hp.2 hs) (fits_slot hp'.1.takes hp'.2 hs'),
        cmpSlots_eq_cmp hp.1.takes hp'.1.takes hs hs', ih hy hrest hrest' (by omega)]
      rfl

/-- **Where no part is collated, keys order by their bytes as the tuples.** -/
theorem compare_rowKey (hx : Tuple B ps xs) (hy : Tuple B ps ys)
    (hax : (CompositeIndex.rowKey B ps xs).apart = false)
    (hay : (CompositeIndex.rowKey B ps ys).apart = false) (hcoll : ∀ p ∈ ps, p.coll = none) :
    compare (CompositeIndex.rowKey B ps xs).bytes (CompositeIndex.rowKey B ps ys).bytes =
      cmpTuple B ps xs ys := by
  induction hx generalizing ys with
  | nil =>
    cases hy
    rfl
  | @cons p x ps xs hp hx ih =>
    cases hy with
    | @cons _ y _ ys hp' hy =>
      obtain ⟨s, hs, hbytes, hrest⟩ := rowKey_cons hax
      obtain ⟨s', hs', hbytes', hrest'⟩ := rowKey_cons hay
      have hplain := plain_of_coll (hcoll p List.mem_cons_self)
      obtain ⟨hparted, hcmp⟩ := parted_code (B := B) (fits_slot hp.1.takes hp.2 hs)
        (fits_slot hp'.1.takes hp'.2 hs') (.inr ⟨hplain s, hplain s'⟩)
      rw [hbytes, hbytes', hparted.compare_append, hcmp, cmpSlots_eq_cmp hp.1.takes hp'.1.takes hs hs',
        ih hy hrest hrest' fun q hq => hcoll q (List.mem_cons_of_mem _ hq)]
      rfl

/-- Tuples that compare equal are filed under the same parts. -/
theorem parts_of_cmpTuple (hx : Tuple B ps xs) (hy : Tuple B ps ys)
    (hax : (CompositeIndex.rowKey B ps xs).apart = false)
    (hay : (CompositeIndex.rowKey B ps ys).apart = false) (h : cmpTuple B ps xs ys = .eq) :
    keyParts B ps xs = keyParts B ps ys := by
  induction hx generalizing ys with
  | nil =>
    cases hy
    rfl
  | @cons p x ps xs hp hx ih =>
    cases hy with
    | @cons _ y _ ys hp' hy =>
      obtain ⟨s, hs, -, hrest⟩ := rowKey_cons hax
      obtain ⟨s', hs', -, hrest'⟩ := rowKey_cons hay
      obtain ⟨hfirst, hthen⟩ := Ordering.then_eq_eq.mp h
      rw [← cmpSlots_eq_cmp hp.1.takes hp'.1.takes hs hs'] at hfirst
      have hslots := eq_of_cmpSlots hfirst
      subst hslots
      refine congrArg₂ List.cons ?_ (ih hy hrest hrest' hthen)
      show (putPart B p x).1 = (putPart B p y).1
      rw [putPart_eq hs, putPart_eq hs']

/-- One key is of one list of parts. -/
theorem parts_of_bytes (hx : Tuple B ps xs) (hy : Tuple B ps ys)
    (hax : (CompositeIndex.rowKey B ps xs).apart = false)
    (hay : (CompositeIndex.rowKey B ps ys).apart = false)
    (h : (CompositeIndex.rowKey B ps xs).bytes = (CompositeIndex.rowKey B ps ys).bytes) :
    keyParts B ps xs = keyParts B ps ys := by
  induction hx generalizing ys with
  | nil =>
    cases hy
    rfl
  | @cons p x ps xs hp hx ih =>
    cases hy with
    | @cons _ y _ ys hp' hy =>
      obtain ⟨s, hs, hbytes, hrest⟩ := rowKey_cons hax
      obtain ⟨s', hs', hbytes', hrest'⟩ := rowKey_cons hay
      rw [hbytes, hbytes'] at h
      -- where the first part ends is read off the key
      have hlen : (p.code s).length = (p.code s').length := by
        rw [← partLen_code (fits_slot hp.1.takes hp.2 hs), h, partLen_code (fits_slot hp'.1.takes hp'.2 hs')]
      obtain ⟨hfirst, hthen⟩ := List.append_inj h hlen
      refine congrArg₂ List.cons ?_ (ih hy hrest hrest' hthen)
      show (putPart B p x).1 = (putPart B p y).1
      rw [putPart_eq hs, putPart_eq hs', hfirst]

end Tuples

/-- **Composite keys order as their tuples** where the collated texts are short, keys held in their
entries order as their bytes, and equal keys are of equal parts. -/
theorem keys_order_as_tuples (B : Build) :
    (∀ a b : Key, (KeyBytes.new a).cmp (KeyBytes.new b) = compare a b) ∧
    ∀ (ps : List Part) (xs ys : List Value), Tuple B ps xs → Tuple B ps ys →
      (CompositeIndex.rowKey B ps xs).apart = false →
      (CompositeIndex.rowKey B ps ys).apart = false →
      keyOrder B ps (CompositeIndex.rowKey B ps xs).bytes (CompositeIndex.rowKey B ps ys).bytes =
        cmpTuple B ps xs ys ∧
      (keyOrder B ps (CompositeIndex.rowKey B ps xs).bytes
          (CompositeIndex.rowKey B ps ys).bytes = .eq → keyParts B ps xs = keyParts B ps ys) ∧
      ((CompositeIndex.rowKey B ps xs).bytes = (CompositeIndex.rowKey B ps ys).bytes →
        keyParts B ps xs = keyParts B ps ys) := by
  refine ⟨cmp_keyBytes, fun ps xs ys hx hy hax hay => ?_⟩
  have horder : keyOrder B ps (CompositeIndex.rowKey B ps xs).bytes
      (CompositeIndex.rowKey B ps ys).bytes = cmpTuple B ps xs ys := by
    unfold keyOrder
    split
    · exact cmpKeys_rowKey hx hy hax hay (Nat.le_refl _)
    · next hany =>
      rw [cmp_keyBytes]
      exact compare_rowKey hx hy hax hay (coll_of_any hany)
  refine ⟨horder, fun heq => ?_, parts_of_bytes hx hy hax hay⟩
  exact parts_of_cmpTuple hx hy hax hay (horder.symm.trans heq)

/-- Two parts, a collated one among them. -/
theorem keys_order_as_tuples_two :
    keyOrder Build.ascii [⟨.text, false, some .root, none⟩, ⟨.int, true, none, none⟩]
        (CompositeIndex.rowKey Build.ascii
          [⟨.text, false, some .root, none⟩, ⟨.int, true, none, none⟩] [.text "a", .int 1]).bytes
        (CompositeIndex.rowKey Build.ascii
          [⟨.text, false, some .root, none⟩, ⟨.int, true, none, none⟩] [.text "a", .int 2]).bytes =
      cmpTuple Build.ascii [⟨.text, false, some .root, none⟩, ⟨.int, true, none, none⟩]
        [.text "a", .int 1] [.text "a", .int 2] := by
  have hshort : Part.Short Build.ascii ⟨.text, false, some .root, none⟩ (.text "a") := by
    intro t ht _
    cases ht
    decide
  have hint : ∀ i, Part.Short Build.ascii ⟨.int, true, none, none⟩ (.int i) := by
    intro i t ht
    cases ht
  refine ((keys_order_as_tuples Build.ascii).2 _ _ _ ?_ ?_ rfl rfl).1
  · exact .cons ⟨rfl, hshort⟩ (.cons ⟨rfl, hint 1⟩ .nil)
  · exact .cons ⟨rfl, hshort⟩ (.cons ⟨rfl, hint 2⟩ .nil)

/-! ## 4. Long texts -/

section Long

variable {B : Build}

theorem utf8_replicate (n : Nat) : utf8 (List.replicate n 'a') = List.replicate n 97 := by
  induction n with
  | zero => rfl
  | succ n ih =>
    rw [List.replicate_succ, utf8_cons, ih]
    rfl

/-- A text that is collated, and one that is not. -/
def twoTexts : List Part := [⟨.text, false, some .root, none⟩, ⟨.text, false, none, none⟩]

/-- `n` letters behind an empty text. -/
def lettersBehind (n : Nat) : List Value :=
  [.text "", .text (String.ofList (List.replicate n 'a'))]

/-- `n` letters within the first text, a blank before them and a zero behind. -/
def lettersWithin (n : Nat) : List Value :=
  [.text (String.ofList (' ' :: (List.replicate n 'a' ++ ['\x00']))), .null]

/-- Where the count of the first text's bytes is cut to zero, the two are filed under one key. -/
theorem rowKey_letters {n : Nat} (hn : n + 2 = 2 ^ 32) :
    (CompositeIndex.rowKey B twoTexts (lettersBehind n)).bytes =
      (CompositeIndex.rowKey B twoTexts (lettersWithin n)).bytes := by
  have hutf8 : utf8 (' ' :: (List.replicate n 'a' ++ ['\x00'])) =
      32 :: (List.replicate n 97 ++ [0]) := by
    rw [utf8_cons, utf8_append, utf8_replicate]
    rfl
  have hplain : (List.replicate n (97 : UInt8)).flatMap
      (fun b => if b = 0 then [b, 0xFF] else [b]) = List.replicate n 97 := by
    clear hn hutf8
    induction n with
    | zero => rfl
    | succ n ih =>
      rw [List.replicate_succ, List.flatMap_cons, ih]
      rfl
  have hcount : (32 :: (List.replicate n (97 : UInt8) ++ [0])).length = 2 ^ 32 := by
    rw [List.length_cons, List.length_append, List.length_replicate]
    exact hn
  have hbehind : (CompositeIndex.rowKey B twoTexts (lettersBehind n)).bytes =
      0x22 :: (beBytes 4 0 ++ (0x20 :: (List.replicate n 97 ++ [0, 1]))) := by
    show (0x22 :: (beBytes 4 0 ++ [])) ++ ((0x20 :: ((utf8 (String.ofList
      (List.replicate n 'a')).toList).flatMap _ ++ [0, 1])) ++ []) = _
    rw [String.toList_ofList, utf8_replicate, hplain, List.append_nil, List.append_nil]
    rfl
  have hwithin : (CompositeIndex.rowKey B twoTexts (lettersWithin n)).bytes =
      0x22 :: (beBytes 4 (2 ^ 32) ++ ((32 :: (List.replicate n 97 ++ [0])) ++ [1])) := by
    show (0x22 :: (beBytes 4 (utf8 (String.ofList _).toList).length ++
      utf8 (String.ofList _).toList)) ++ ([1] ++ []) = _
    rw [String.toList_ofList, hutf8, hcount, List.append_nil, List.cons_append,
      List.append_assoc]
  rw [hbehind, hwithin, show beBytes 4 (2 ^ 32) = beBytes 4 0 by decide, List.cons_append,
    List.append_assoc]
  rfl

theorem cmpTuple_letters (n : Nat) :
    cmpTuple B twoTexts (lettersBehind n) (lettersWithin n) ≠ .eq := by
  intro heq
  obtain ⟨hfirst, -⟩ := Ordering.then_eq_eq.mp heq
  have hsame := (Collation.compare_eq_iff B.collation .root).mp hfirst
  have hlist : [] = ' ' :: (List.replicate n 'a' ++ ['\x00']) := by
    rw [← String.toList_ofList (l := ' ' :: (List.replicate n 'a' ++ ['\x00'])), ← hsame]
    rfl
  cases hlist

theorem keyOrder_letters {n : Nat} (hn : n + 2 = 2 ^ 32) :
    keyOrder B twoTexts (CompositeIndex.rowKey B twoTexts (lettersBehind n)).bytes
      (CompositeIndex.rowKey B twoTexts (lettersWithin n)).bytes = .eq := by
  rw [rowKey_letters hn, keyOrder, if_pos (by decide), cmpKeys_self]

/-- Both are tuples of the fields, with no part apart. -/
theorem holds_letters (n : Nat) :
    (List.Forall₂ Part.Holds twoTexts (lettersBehind n) ∧
      List.Forall₂ Part.Holds twoTexts (lettersWithin n)) ∧
    (CompositeIndex.rowKey B twoTexts (lettersBehind n)).apart = false ∧
      (CompositeIndex.rowKey B twoTexts (lettersWithin n)).apart = false := by
  have htext : ∀ t, Typed .text (.text t) := fun t => rfl
  exact ⟨⟨.cons (htext _) (.cons (htext _) .nil), .cons (htext _) (.cons (typed_null _) .nil)⟩,
    rfl, rfl⟩

end Long

/-- **A collated text of `2 ^ 32` bytes is filed as an empty one and what follows it**: the count
of its bytes is cut to zero, and two different tuples have one key. -/
theorem long_texts_collide :
    ((List.Forall₂ Part.Holds twoTexts (lettersBehind (2 ^ 32 - 2)) ∧
      List.Forall₂ Part.Holds twoTexts (lettersWithin (2 ^ 32 - 2))) ∧
    (CompositeIndex.rowKey Build.ascii twoTexts (lettersBehind (2 ^ 32 - 2))).apart = false ∧
      (CompositeIndex.rowKey Build.ascii twoTexts (lettersWithin (2 ^ 32 - 2))).apart = false) ∧
    keyOrder Build.ascii twoTexts
      (CompositeIndex.rowKey Build.ascii twoTexts (lettersBehind (2 ^ 32 - 2))).bytes
      (CompositeIndex.rowKey Build.ascii twoTexts (lettersWithin (2 ^ 32 - 2))).bytes = .eq ∧
    cmpTuple Build.ascii twoTexts (lettersBehind (2 ^ 32 - 2)) (lettersWithin (2 ^ 32 - 2)) ≠ .eq :=
  ⟨holds_letters _, keyOrder_letters (by norm_num), cmpTuple_letters _⟩

end Fenec
