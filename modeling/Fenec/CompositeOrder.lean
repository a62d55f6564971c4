/-
# Composite keys order as their tuples

A composite index files a row under one string of bytes, a part of it for each field.  What a part
says of a value is its slot: null, a number's word, a truth value or a text.  The bytes of two
slots of one part never start one another (`parted_bytes`), so the parts of two keys are told
apart where they first differ, and a part turned round byte by byte is turned round in order
(`compare_inverted`).  A collated text is the exception: its bytes are in no order, so a key with
one is compared part by part (`cmpKeys_code`), each part's length read off its tag.

Over all the parts together two keys compare as the tuples they are of (`Fenec.Tuples`).
-/
import Fenec.KeyOrder
import Fenec.Lib.Lex

namespace Fenec

open Lib Case CompositeKey

/-! ## 1. Slots -/

/-- What a part of a key says of a value that has a place in its order. -/
inductive PartSlot where
  | null
  | num (k : Nat)
  | flag (b : Bool)
  | text (t : String)
deriving DecidableEq

/-- The collation a part's texts are filed in. -/
def Part.textColl (p : Part) : Option Collation := if p.kind = .text then p.coll else none

/-- The slot of a value, `none` where it has no place in the part's order. -/
def Part.slot (B : Build) (p : Part) (v : Value) : Option PartSlot :=
  match p.kind, v with
  | _, .null => some .null
  | .int, .int i => some (.num (intKey i))
  | .int, .timestamp i => some (.num (intKey i))
  | .time, .int i => some (.num (intKey i))
  | .time, .timestamp i => some (.num (intKey i))
  | .float, .float f => if f.isNaN then none else some (.num (floatKey f))
  | .bool, .bool b => some (.flag b)
  | .text, .text t => some (.text (fit B.chars p.fold t))
  | .json, v => match jsonSlot (some v) with
    | .num k => some (.num k)
    | .text t => some (.text t)
    | .null => some .null
    | .apart => none
  | _, _ => none

namespace PartSlot

/-- The bytes of a slot, ascending. -/
def bytes (coll : Option Collation) : PartSlot → Key
  | .null => [CompositeKey.null]
  | .num k => putNum k
  | .flag b => [if b then 0x12 else 0x11]
  | .text t => putText t coll

/-- Where a kind of slot stands among the others. -/
def rank : PartSlot → Nat
  | .null => 0
  | .num _ => 1
  | .flag _ => 2
  | .text _ => 3

/-- The order of slots, texts in the order `txt`. -/
def cmp (txt : String → String → Ordering) : PartSlot → PartSlot → Ordering
  | .num a, .num b => compare a b
  | .flag a, .flag b => compare a b
  | .text a, .text b => txt a b
  | s, s' => compare s.rank s'.rank

/-- A number's word fits eight bytes, and a collated text's length four. -/
def Fits (coll : Option Collation) : PartSlot → Prop
  | .num k => k < 2 ^ 64
  | .text t => coll.isSome → (utf8 t.toList).length < 2 ^ 32
  | _ => True

end PartSlot

/-- The bytes of a slot in a part. -/
def Part.code (p : Part) (s : PartSlot) : Key :=
  if p.desc then inverted p (s.bytes p.textColl) else s.bytes p.textColl

/-- The order of a part's slots, turned round where it descends. -/
def Part.cmpSlots (B : Build) (p : Part) (s s' : PartSlot) : Ordering :=
  let o := s.cmp (textOrder B p.textColl) s'
  if p.desc then o.swap else o

section Slots

variable {B : Build} {p : Part} {v : Value} {s : PartSlot}

/-- **A value with a slot is filed under the slot's bytes**, and not held apart. -/
theorem ascending_eq (h : p.slot B v = some s) :
    ascending B p v = (s.bytes p.textColl, false) := by
  obtain ⟨kind, desc, coll, fold⟩ := p
  cases v with
  | null => cases kind <;> cases h <;> rfl
  | int i =>
    cases kind with
    | json =>
      simp only [Part.slot] at h
      split at h <;> cases h <;> simp_all [ascending, PartSlot.bytes, Part.textColl]
    | _ => cases h <;> rfl
  | timestamp i => cases kind <;> cases h <;> rfl
  | float f =>
    cases kind with
    | json =>
      simp only [Part.slot] at h
      split at h <;> cases h <;> simp_all [ascending, PartSlot.bytes, Part.textColl]
    | float =>
      simp only [Part.slot] at h
      split at h
      · cases h
      · next hn =>
        cases h
        simp [ascending, PartSlot.bytes, hn]
    | _ => cases h
  | text t =>
    cases kind with
    | text =>
      cases h
      cases fold <;> rfl
    | json =>
      cases h
      rfl
    | _ => cases h
  | _ => cases kind <;> cases h <;> rfl

/-- A value with no slot is held apart. -/
theorem ascending_apart (h : p.slot B v = none) : (ascending B p v).2 = true := by
  obtain ⟨kind, desc, coll, fold⟩ := p
  cases v with
  | null => cases kind <;> cases h
  | int i =>
    cases kind with
    | json =>
      simp only [Part.slot] at h
      split at h <;> cases h
      next hj => simp [ascending, hj]
    | _ => cases h <;> rfl
  | timestamp i => cases kind <;> cases h <;> rfl
  | float f =>
    cases kind with
    | json =>
      simp only [Part.slot] at h
      split at h <;> cases h
      next hj => simp [ascending, hj]
    | float =>
      simp only [Part.slot] at h
      split at h
      · next hn => simp [ascending, hn]
      · cases h
    | _ => rfl
  | text t => cases kind <;> cases h <;> rfl
  | _ => cases kind <;> cases h <;> rfl

theorem putPart_eq (h : p.slot B v = some s) : putPart B p v = (p.code s, false) := by
  rw [putPart, ascending_eq h, Part.code]

theorem slot_of_not_apart (h : (putPart B p v).2 = false) : ∃ s, p.slot B v = some s := by
  cases hs : p.slot B v with
  | some s => exact ⟨s, rfl⟩
  | none =>
    have : (putPart B p v).2 = (ascending B p v).2 := rfl
    rw [this, ascending_apart hs] at h
    cases h

end Slots

/-! ## 2. The bytes of slots -/

section Bytes

/-- A number's bytes, most first, are its digits. -/
theorem beBytes_eq (n v : Nat) : beBytes n v = digits 256 UInt8.ofNat n v := by
  induction n generalizing v with
  | zero => rfl
  | succ n ih =>
    have hlast : UInt8.ofNat v = UInt8.ofNat (v % 256) := by
      rw [← UInt8.toNat_inj, UInt8.toNat_ofNat', UInt8.toNat_ofNat']
      omega
    rw [beBytes, Codec.leBytes, List.reverse_cons, digits, ← ih, ← hlast]
    rfl

theorem compare_uint8 (x y : UInt8) : compare x y = compare x.toNat y.toNat := by
  have hlt : x < y ↔ x.toNat < y.toNat := UInt8.lt_iff_toNat_lt
  have heq : x = y ↔ x.toNat = y.toNat := UInt8.toNat_inj.symm
  show (if x < y then Ordering.lt else if x = y then .eq else .gt) =
    if x.toNat < y.toNat then .lt else if x.toNat = y.toNat then .eq else .gt
  simp only [hlt, heq]

theorem compare_beBytes {n v w : Nat} (hv : v < 256 ^ n) (hw : w < 256 ^ n) :
    compare (beBytes n v) (beBytes n w) = compare v w := by
  rw [beBytes_eq, beBytes_eq]
  refine compare_digits (by omega) (fun x y hx hy => ?_) hv hw
  rw [compare_uint8, UInt8.toNat_ofNat', UInt8.toNat_ofNat', Nat.mod_eq_of_lt hx,
    Nat.mod_eq_of_lt hy]

/-- A byte turned round. -/
theorem compare_inverted (x y : UInt8) : compare (255 - x) (255 - y) = (compare x y).swap := by
  have hsub : ∀ z : UInt8, (255 - z).toNat = 255 - z.toNat := by
    intro z
    have := z.toNat_lt
    rw [UInt8.toNat_sub_of_le]
    · rfl
    · rw [UInt8.le_iff_toNat_le]
      show z.toNat ≤ 255
      omega
  have hx := x.toNat_lt
  have hy := y.toNat_lt
  rw [compare_uint8, compare_uint8, hsub, hsub]
  rcases Nat.lt_trichotomy x.toNat y.toNat with h | h | h
  · rw [Nat.compare_eq_lt.mpr h, Nat.compare_eq_gt.mpr (by omega)]
    rfl
  · rw [h, Std.compare_self, Std.compare_self]
    rfl
  · rw [Nat.compare_eq_gt.mpr h, Nat.compare_eq_lt.mpr (by omega)]
    rfl

/-- A text's bytes with its zeros escaped, and its end. -/
def escaped (l : List UInt8) : List UInt8 :=
  l.flatMap (fun b => if b = 0 then [b, 0xFF] else [b]) ++ [0, 1]

theorem escaped_cons_zero (l : List UInt8) : escaped (0 :: l) = 0 :: 0xFF :: escaped l := rfl

theorem escaped_cons {x : UInt8} (h : x ≠ 0) (l : List UInt8) :
    escaped (x :: l) = x :: escaped l := by
  simp [escaped, h]

/-- **Escaped texts never start one another, and compare as the texts do.** -/
theorem parted_escaped (a b : List UInt8) :
    Parted (escaped a) (escaped b) ∧ compare (escaped a) (escaped b) = compare a b := by
  induction a generalizing b with
  | nil =>
    cases b with
    | nil => exact ⟨parted_self _, rfl⟩
    | cons y b =>
      by_cases hy : y = 0
      · subst hy
        exact ⟨(parted_cons_of_ne (by decide) _ _).cons 0, rfl⟩
      · rw [escaped_cons hy]
        refine ⟨parted_cons_of_ne (Ne.symm hy) _ _, ?_⟩
        show compare (0 :: [1]) (y :: escaped b) = .lt
        rw [compare_cons, then_of_ne (Ne.symm hy), compare_uint8, Nat.compare_eq_lt]
        have : y.toNat ≠ 0 := fun h => hy (UInt8.toNat_inj.mp h)
        show 0 < y.toNat
        omega
  | cons x a ih =>
    cases b with
    | nil =>
      by_cases hx : x = 0
      · subst hx
        exact ⟨(parted_cons_of_ne (by decide) _ _).cons 0, rfl⟩
      · rw [escaped_cons hx]
        refine ⟨parted_cons_of_ne hx _ _, ?_⟩
        show compare (x :: escaped a) (0 :: [1]) = .gt
        rw [compare_cons, then_of_ne hx, compare_uint8, Nat.compare_eq_gt]
        have : x.toNat ≠ 0 := fun h => hx (UInt8.toNat_inj.mp h)
        show 0 < x.toNat
        omega
    | cons y b =>
      obtain ⟨hparted, hcmp⟩ := ih b
      -- what a byte is escaped as starts with the byte
      have hstart : ∀ z l, ∃ r, escaped (z :: l) = z :: r := by
        intro z l
        by_cases hz : z = 0
        · subst hz
          exact ⟨_, escaped_cons_zero l⟩
        · exact ⟨_, escaped_cons hz l⟩
      by_cases hxy : x = y
      · subst hxy
        rw [compare_cons, Std.compare_self]
        by_cases hx : x = 0
        · subst hx
          rw [escaped_cons_zero, escaped_cons_zero]
          refine ⟨(hparted.cons 0xFF).cons 0, ?_⟩
          rw [compare_cons, compare_cons, hcmp]
          rfl
        · rw [escaped_cons hx, escaped_cons hx]
          refine ⟨hparted.cons x, ?_⟩
          rw [compare_cons, Std.compare_self, hcmp]
      · obtain ⟨r, hr⟩ := hstart x a
        obtain ⟨r', hr'⟩ := hstart y b
        rw [hr, hr']
        refine ⟨parted_cons_of_ne hxy _ _, ?_⟩
        rw [compare_cons, compare_cons, then_of_ne hxy, then_of_ne hxy]

theorem compare_utf8 (a b : String) : compare (utf8 a.toList) (utf8 b.toList) = cmpStr a b := by
  unfold cmpStr
  cases hc : compare a.toList b.toList with
  | lt => exact compare_utf8_of_lt hc
  | eq => rw [Std.compare_eq_iff_eq.mp hc, Std.compare_self]
  | gt =>
    have hlt : compare b.toList a.toList = .lt := Std.OrientedCmp.lt_of_gt hc
    exact Std.OrientedCmp.gt_of_lt (compare_utf8_of_lt hlt)

/-- **The bytes of two slots never start one another, and compare as the slots do.** -/
theorem parted_bytes {s s' : PartSlot} (hs : s.Fits none) (hs' : s'.Fits none) :
    Parted (s.bytes none) (s'.bytes none) ∧
      compare (s.bytes none) (s'.bytes none) = s.cmp cmpStr s' := by
  -- slots of two kinds differ in their tags
  have htags : ∀ {x y : UInt8} {r r' : List UInt8} {o : Ordering}, x ≠ y → compare x y = o →
      Parted (x :: r) (y :: r') ∧ compare (x :: r) (y :: r') = o := by
    intro x y r r' o hne ho
    refine ⟨parted_cons_of_ne hne _ _, ?_⟩
    rw [compare_cons, then_of_ne hne, ho]
  cases s with
  | null =>
    cases s' with
    | null => exact ⟨parted_self _, rfl⟩
    | num k => exact htags (by decide) rfl
    | flag b => cases b <;> exact htags (by decide) rfl
    | text t => exact htags (by decide) rfl
  | num k =>
    cases s' with
    | null => exact htags (by decide) rfl
    | num k' =>
      refine ⟨(parted_of_length ?_).cons _, ?_⟩
      · rw [beBytes_eq, beBytes_eq, length_digits, length_digits]
      · show compare (num :: beBytes 8 k) (num :: beBytes 8 k') = compare k k'
        rw [compare_cons, Std.compare_self, ← compare_beBytes (n := 8) hs hs']
        rfl
    | flag b => cases b <;> exact htags (by decide) rfl
    | text t => exact htags (by decide) rfl
  | flag b =>
    cases s' with
    | null => cases b <;> exact htags (by decide) rfl
    | num k => cases b <;> exact htags (by decide) rfl
    | flag b' =>
      cases b <;> cases b' <;>
        first | exact ⟨parted_self _, rfl⟩ | exact htags (by decide) rfl
    | text t => cases b <;> exact htags (by decide) rfl
  | text t =>
    cases s' with
    | null => exact htags (by decide) rfl
    | num k => exact htags (by decide) rfl
    | flag b => cases b <;> exact htags (by decide) rfl
    | text t' =>
      obtain ⟨hparted, hcmp⟩ := parted_escaped (utf8 t.toList) (utf8 t'.toList)
      refine ⟨hparted.cons _, ?_⟩
      show compare (text :: escaped (utf8 t.toList)) (text :: escaped (utf8 t'.toList)) =
        cmpStr t t'
      rw [compare_cons, Std.compare_self, hcmp, compare_utf8]
      rfl

end Bytes

/-! ## 3. The parts of a key -/

/-- The tag of a slot, ascending. -/
def PartSlot.tag (coll : Option Collation) : PartSlot → UInt8
  | .null => CompositeKey.null
  | .num _ => CompositeKey.num
  | .flag b => if b then 0x12 else 0x11
  | .text _ => match coll with
    | some c => CompositeKey.text + CompositeKey.code c
    | none => CompositeKey.text

/-- Where a slot's part compares by bytes: its text, if it is one, is not collated. -/
def PartSlot.Plain (coll : Option Collation) : PartSlot → Prop
  | .text _ => coll = none
  | _ => True

section Parts

variable {B : Build} {p : Part} {s s' : PartSlot}

/-- Where a part has no collation, every slot compares by bytes. -/
theorem plain_of_coll (h : p.coll = none) (s : PartSlot) : s.Plain p.textColl := by
  cases s with
  | text t =>
    show p.textColl = none
    rw [Part.textColl, h, ite_self]
  | _ => trivial

theorem bytes_eq (coll : Option Collation) (s : PartSlot) :
    ∃ rest, s.bytes coll = s.tag coll :: rest := by
  cases s with
  | text t => cases coll <;> exact ⟨_, rfl⟩
  | flag b => cases b <;> exact ⟨_, rfl⟩
  | _ => exact ⟨_, rfl⟩

theorem bytes_plain (h : s.Plain p.textColl) : s.bytes p.textColl = s.bytes none := by
  cases s with
  | text t => rw [show p.textColl = none from h]
  | _ => rfl

/-- A plain slot is turned round whole. -/
theorem code_plain (h : s.Plain p.textColl) :
    p.code s = if p.desc then (s.bytes none).map (255 - ·) else s.bytes none := by
  rw [Part.code, bytes_plain h]
  obtain ⟨rest, hr⟩ := bytes_eq none s
  have htag : ¬ (p.coll.isSome = true ∧ s.tag none > text ∧ s.tag none < apart) := by
    rintro ⟨-, hgt, -⟩
    have hlow : ∀ x ∈ [CompositeKey.null, num, 0x12, 0x11, text], ¬ x > text := by
      intro x hx
      simp only [List.mem_cons, List.not_mem_nil, or_false] at hx
      rcases hx with rfl | rfl | rfl | rfl | rfl <;> decide
    refine hlow (s.tag none) ?_ hgt
    cases s with
    | flag b => cases b <;> simp [PartSlot.tag]
    | _ => simp [PartSlot.tag]
  rw [hr, inverted, if_neg htag]

/-- A collated text's tag alone is turned round. -/
theorem code_collated {c : Collation} (hc : p.textColl = some c) (t : String) :
    p.code (.text t) = (if p.desc then 255 - (text + CompositeKey.code c)
        else text + CompositeKey.code c) ::
      (beBytes 4 (utf8 t.toList).length ++ utf8 t.toList) := by
  have hcoll : p.coll.isSome = true := by
    unfold Part.textColl at hc
    split at hc
    · rw [hc]; rfl
    · cases hc
  have htag : p.coll.isSome = true ∧ text + CompositeKey.code c > text ∧
      text + CompositeKey.code c < apart := by
    refine ⟨hcoll, ?_⟩
    cases c <;> decide
  rw [Part.code, hc]
  cases p.desc with
  | false => rfl
  | true =>
    show inverted p ((text + CompositeKey.code c) :: _) = _
    rw [inverted, if_pos htag]
    rfl

/-- What a part of a key starts with. -/
theorem code_head (p : Part) (s : PartSlot) : ∃ rest,
    p.code s = (if p.desc then 255 - s.tag p.textColl else s.tag p.textColl) :: rest := by
  by_cases hplain : s.Plain p.textColl
  · obtain ⟨rest, hr⟩ := bytes_eq p.textColl s
    rw [bytes_plain hplain] at hr
    rw [code_plain hplain, hr]
    cases p.desc with
    | true => exact ⟨_, rfl⟩
    | false => exact ⟨_, rfl⟩
  · cases s with
    | text t =>
      cases hc : p.textColl with
      | none => exact absurd hc hplain
      | some c => exact ⟨_, code_collated hc t⟩
    | _ => exact absurd trivial hplain

/-- **Slots of two kinds are told apart by their tags.** -/
theorem compare_tags (coll : Option Collation) (h : s.rank ≠ s'.rank) :
    s.tag coll ≠ s'.tag coll ∧ compare (s.tag coll) (s'.tag coll) = compare s.rank s'.rank := by
  cases s <;> cases s' <;> first
    | exact absurd rfl h
    | skip
  all_goals
    simp only [PartSlot.tag, PartSlot.rank]
    repeat' split
  all_goals try (cases ‹Collation›)
  all_goals exact ⟨by decide, by decide⟩

theorem cmp_of_rank (txt : String → String → Ordering) (h : s.rank ≠ s'.rank) :
    s.cmp txt s' = compare s.rank s'.rank := by
  cases s <;> cases s' <;> first
    | exact absurd rfl h
    | rfl

theorem cmp_plain {coll : Option Collation} (h : s.Plain coll) :
    s.cmp (textOrder B coll) s' = s.cmp cmpStr s' := by
  cases s with
  | text t =>
    cases s' with
    | text t' => rw [show coll = none from h]; rfl
    | _ => rfl
  | _ => cases s' <;> rfl

theorem fits_plain {coll : Option Collation} (h : s.Fits coll) : s.Fits none := by
  cases s with
  | text t => exact fun hnone => absurd hnone Bool.false_ne_true
  | _ => exact h

/-- **The parts of two keys never start one another, and compare as the slots do**, two collated
texts apart. -/
theorem parted_code (hs : s.Fits p.textColl) (hs' : s'.Fits p.textColl)
    (hplain : s.rank ≠ s'.rank ∨ s.Plain p.textColl ∧ s'.Plain p.textColl) :
    Parted (p.code s) (p.code s') ∧ compare (p.code s) (p.code s') = p.cmpSlots B s s' := by
  by_cases hrank : s.rank = s'.rank
  · obtain ⟨hp, hp'⟩ := hplain.resolve_left (not_not.mpr hrank)
    obtain ⟨hparted, hcmp⟩ := parted_bytes (fits_plain hs) (fits_plain hs')
    rw [code_plain hp, code_plain hp', Part.cmpSlots, cmp_plain hp, ← hcmp]
    cases p.desc with
    | false => exact ⟨hparted, rfl⟩
    | true =>
      exact ⟨hparted.map compare_inverted, hparted.compare_map compare_inverted⟩
  · obtain ⟨hne, hcmp⟩ := compare_tags p.textColl hrank
    obtain ⟨rest, hr⟩ := code_head p s
    obtain ⟨rest', hr'⟩ := code_head p s'
    rw [hr, hr', Part.cmpSlots, cmp_of_rank _ hrank, ← hcmp]
    cases p.desc with
    | false =>
      refine ⟨parted_cons_of_ne hne _ _, ?_⟩
      show compare (s.tag p.textColl :: rest) (s'.tag p.textColl :: rest') = _
      rw [compare_cons, then_of_ne hne]
      rfl
    | true =>
      have hturned : 255 - s.tag p.textColl ≠ 255 - s'.tag p.textColl := fun heq =>
        hne (turned_injective compare_inverted heq)
      refine ⟨parted_cons_of_ne hturned _ _, ?_⟩
      show compare ((255 - s.tag p.textColl) :: rest) ((255 - s'.tag p.textColl) :: rest') = _
      rw [compare_cons, then_of_ne hturned, compare_inverted]
      rfl

/-! ## 4. Where a part ends -/

/-- The end of an escaped text is found, whatever its bytes were turned into. -/
theorem textLen_escaped {f : UInt8 → UInt8} (hf : ∀ x y, f x = f y → x = y) (l r : List UInt8) :
    textLen (f 0) (f 1) ((escaped l).map f ++ r) = (escaped l).length := by
  induction l with
  | nil =>
    show textLen (f 0) (f 1) (f 0 :: f 1 :: r) = 2
    rw [textLen, if_neg (not_not.mpr rfl), if_pos rfl]
  | cons x l ih =>
    by_cases hx : x = 0
    · subst hx
      have hff : f 0xFF ≠ f 1 := fun h => absurd (hf _ _ h) (by decide)
      rw [escaped_cons_zero]
      show textLen (f 0) (f 1) (f 0 :: f 0xFF :: ((escaped l).map f ++ r)) = _
      rw [textLen, if_neg (not_not.mpr rfl), if_neg hff, ih, List.length_cons, List.length_cons]
      omega
    · have hne : f x ≠ f 0 := fun h => hx (hf _ _ h)
      obtain ⟨y, ys, hy⟩ : ∃ y ys, (escaped l).map f ++ r = y :: ys := by
        have hnil : (escaped l).map f ++ r ≠ [] := by simp [escaped]
        exact List.exists_cons_of_ne_nil hnil
      rw [escaped_cons hx]
      show textLen (f 0) (f 1) (f x :: ((escaped l).map f ++ r)) = _
      rw [hy, textLen, if_pos hne, ← hy, ih, List.length_cons]
      omega

theorem lenAt_beBytes {n : Nat} (hn : n < 2 ^ 32) (r : List UInt8) :
    lenAt (beBytes 4 n ++ r) false = n := by
  have hlen : (beBytes 4 n).length = 4 := by rw [beBytes_eq, length_digits]
  have htake : (beBytes 4 n ++ r).take 4 = beBytes 4 n := List.take_left' hlen
  have hfold : (beBytes 4 n).foldl (fun acc x => acc * 256 + x.toNat) 0 = n := by
    have hgo : ∀ k v, (digits 256 UInt8.ofNat k v).foldl (fun acc x => acc * 256 + x.toNat) 0 =
        v % 256 ^ k := by
      intro k
      induction k with
      | zero => intro v; simp [digits, Nat.mod_one]
      | succ k ih =>
        intro v
        have hbyte : (UInt8.ofNat (v % 256)).toNat = v % 256 := by
          rw [UInt8.toNat_ofNat']
          omega
        rw [digits, List.foldl_append, ih, List.foldl_cons, List.foldl_nil, hbyte, Nat.pow_succ,
          Nat.mul_comm (256 ^ k) 256, Nat.mod_mul]
        omega
    rw [beBytes_eq, hgo, Nat.mod_eq_of_lt (by omega)]
  unfold lenAt
  rw [htake]
  dsimp only
  rw [hlen, if_pos rfl, hfold]
  rfl

/-- **A part's length is read off its tag**, whatever follows it. -/
theorem partLen_code (hs : s.Fits p.textColl) (r : Key) :
    partLen (p.code s ++ r) = (p.code s).length := by
  have hturn : ∀ x y : UInt8, 255 - x = 255 - y → x = y := fun x y h =>
    turned_injective compare_inverted h
  by_cases hplain : s.Plain p.textColl
  · rw [code_plain hplain]
    cases p.desc with
    | false =>
      cases s with
      | null => rfl
      | flag b => cases b <;> rfl
      | num k =>
        show 9 = (num :: beBytes 8 k).length
        rw [List.length_cons, beBytes_eq, length_digits]
      | text t =>
        have hlen := textLen_escaped (f := id) (fun x y h => h) (utf8 t.toList) r
        rw [List.map_id] at hlen
        show 1 + textLen 0 1 (escaped (utf8 t.toList) ++ r) =
          (text :: escaped (utf8 t.toList)).length
        rw [List.length_cons, ← hlen]
        exact Nat.add_comm _ _
    | true =>
      cases s with
      | null => rfl
      | flag b => cases b <;> rfl
      | num k =>
        show 9 = ((num :: beBytes 8 k).map (255 - ·)).length
        rw [List.length_map, List.length_cons, beBytes_eq, length_digits]
      | text t =>
        have hlen := textLen_escaped hturn (utf8 t.toList) r
        show 1 + textLen 0xFF 0xFE ((escaped (utf8 t.toList)).map (255 - ·) ++ r) =
          ((text :: escaped (utf8 t.toList)).map (255 - ·)).length
        rw [List.length_map, List.length_cons, ← hlen]
        exact Nat.add_comm _ _
  · cases s with
    | text t =>
      cases hc : p.textColl with
      | none => exact absurd hc hplain
      | some c =>
        have hshort : (utf8 t.toList).length < 2 ^ 32 := by
          rw [hc] at hs
          exact hs rfl
        have hlen := lenAt_beBytes hshort (utf8 t.toList ++ r)
        have htotal : (beBytes 4 (utf8 t.toList).length ++ utf8 t.toList).length =
            4 + (utf8 t.toList).length := by
          rw [List.length_append, beBytes_eq, length_digits]
        rw [code_collated hc, List.cons_append, List.append_assoc, List.length_cons, htotal]
        have hread : ∀ rest : Key, partLen ((if p.desc then 255 - (text + CompositeKey.code c)
            else text + CompositeKey.code c) :: rest) = 5 + lenAt rest false := by
          intro rest
          cases p.desc <;> cases c <;> rfl
        rw [hread, hlen]
        omega
    | _ => exact absurd trivial hplain

/-! ## 5. Keys part by part -/

/-- Whether a tag is a collated text's. -/
def collatedTag (t : UInt8) : Bool :=
  let tag := if t ≥ 0x80 then 255 - t else t
  decide (tag > text ∧ tag < apart)

/-- Two parts that compare by their bytes, and what follows them. -/
theorem cmpKeys_plain {k k' r r' : Key} {x y : UInt8} {xs ys : Key} (hk : k = x :: xs)
    (hk' : k' = y :: ys) (hlen : partLen (k ++ r) = k.length)
    (hlen' : partLen (k' ++ r') = k'.length) (hx : x = y → collatedTag x = false) (fuel : Nat) :
    cmpKeys B (fuel + 1) (k ++ r) (k' ++ r') = (compare k k').then (cmpKeys B fuel r r') := by
  have hslice : ∀ a b : Key, slice (a ++ b) a.length = some a := by
    intro a b
    rw [slice, if_pos (by rw [List.length_append]; omega), List.take_left]
  have hunfold : cmpKeys B (fuel + 1) (k ++ r) (k' ++ r') = if x ≠ y then compare x y else
      (cmpPart B (k ++ r) (k' ++ r') x).then (cmpKeys B fuel ((k ++ r).drop (partLen (k ++ r)))
        ((k' ++ r').drop (partLen (k' ++ r')))) := by
    rw [hk, hk', List.cons_append, List.cons_append, cmpKeys]
  rw [hunfold]
  by_cases hxy : x = y
  · rw [if_neg (not_not.mpr hxy), hlen, hlen', List.drop_left, List.drop_left]
    have hcoll := hx hxy
    unfold collatedTag at hcoll
    have hpart : cmpPart B (k ++ r) (k' ++ r') x = compare k k' := by
      unfold cmpPart
      dsimp only at hcoll ⊢
      rw [decide_eq_false_iff_not] at hcoll
      simp only [decide_eq_true_eq, if_neg hcoll]
      rw [hlen, hlen', hslice, hslice]
      rfl
    rw [hpart]
  · rw [if_pos hxy, hk, hk', compare_cons, then_of_ne hxy, then_of_ne hxy]

theorem fromUTF8_utf8 (t : String) : String.fromUTF8? ⟨(utf8 t.toList).toArray⟩ = some t := by
  have hbytes : (⟨(utf8 t.toList).toArray⟩ : ByteArray) = t.toByteArray := by
    rw [← String.utf8Encode_toList, utf8Encode_eq]
    exact ByteArray.ext (List.data_toByteArray).symm
  rw [hbytes, String.fromUTF8?, dif_pos t.isValidUTF8]
  rfl

/-- Two collated texts, and what follows them. -/
theorem cmpKeys_collated {c : Collation} (hc : p.textColl = some c) {t t' : String}
    (ht : (utf8 t.toList).length < 2 ^ 32) (ht' : (utf8 t'.toList).length < 2 ^ 32) (r r' : Key)
    (fuel : Nat) :
    cmpKeys B (fuel + 1) (p.code (.text t) ++ r) (p.code (.text t') ++ r') =
      (p.cmpSlots B (.text t) (.text t')).then (cmpKeys B fuel r r') := by
  have hlen := partLen_code (p := p) (s := .text t) (fun _ => ht) r
  have hlen' := partLen_code (p := p) (s := .text t') (fun _ => ht') r'
  -- the text of a part stands past its tag and its length
  have hread : ∀ u r, (utf8 u.toList).length < 2 ^ 32 →
      collatedText (p.code (.text u) ++ r) (p.code (.text u)).length = u := by
    intro u r hu
    have h4 : (beBytes 4 (utf8 u.toList).length).length = 4 := by rw [beBytes_eq, length_digits]
    rw [collatedText, if_pos (by rw [List.length_append]; omega), List.take_left,
      code_collated hc, show 5 = 4 + 1 from rfl, List.drop_succ_cons, List.drop_left' h4,
      fromUTF8_utf8]
    rfl
  have hcode := code_collated (p := p) hc
  have hunfold : cmpKeys B (fuel + 1) (p.code (.text t) ++ r) (p.code (.text t') ++ r') =
      (cmpPart B (p.code (.text t) ++ r) (p.code (.text t') ++ r')
        (if p.desc then 255 - (text + CompositeKey.code c) else text + CompositeKey.code c)).then
        (cmpKeys B fuel ((p.code (.text t) ++ r).drop (partLen (p.code (.text t) ++ r)))
          ((p.code (.text t') ++ r').drop (partLen (p.code (.text t') ++ r')))) := by
    rw [hcode t, hcode t', List.cons_append, List.cons_append, cmpKeys, if_neg (not_not.mpr rfl)]
  have hpart : ∀ a b : Key, cmpPart B a b
      (if p.desc then 255 - (text + CompositeKey.code c) else text + CompositeKey.code c) =
      if p.desc then (c.compare B.collation (collatedText a (partLen a))
        (collatedText b (partLen b))).swap
      else c.compare B.collation (collatedText a (partLen a)) (collatedText b (partLen b)) := by
    intro a b
    cases p.desc <;> cases c <;> rfl
  rw [hunfold, hpart, hlen, hlen', List.drop_left, List.drop_left, hread t r ht, hread t' r' ht',
    Part.cmpSlots, hc]
  rfl

/-- **Two keys compare by their first parts, and then by what follows these.** -/
theorem cmpKeys_code (hs : s.Fits p.textColl) (hs' : s'.Fits p.textColl) (r r' : Key)
    (fuel : Nat) :
    cmpKeys B (fuel + 1) (p.code s ++ r) (p.code s' ++ r') =
      (p.cmpSlots B s s').then (cmpKeys B fuel r r') := by
  by_cases hplain : s.rank ≠ s'.rank ∨ s.Plain p.textColl ∧ s'.Plain p.textColl
  · obtain ⟨-, hcmp⟩ := parted_code (B := B) hs hs' hplain
    obtain ⟨rest, hr⟩ := code_head p s
    obtain ⟨rest', hr'⟩ := code_head p s'
    rw [← hcmp]
    refine cmpKeys_plain hr hr' (partLen_code hs r) (partLen_code hs' r') (fun htag => ?_) fuel
    -- one tag is one kind of slot, and no collated text
    have hsame : s.rank = s'.rank := by
      by_contra hne
      have htags := (compare_tags p.textColl hne).1
      cases hd : p.desc with
      | false => rw [hd] at htag; exact htags htag
      | true => rw [hd] at htag; exact htags (turned_injective compare_inverted htag)
    obtain ⟨hp, -⟩ := hplain.resolve_left (not_not.mpr hsame)
    have hlow : ∀ x ∈ [CompositeKey.null, num, 0x12, 0x11, text],
        collatedTag x = false ∧ collatedTag (255 - x) = false := by
      intro x hx
      simp only [List.mem_cons, List.not_mem_nil, or_false] at hx
      rcases hx with rfl | rfl | rfl | rfl | rfl <;> exact ⟨rfl, rfl⟩
    have hmem : s.tag p.textColl ∈ [CompositeKey.null, num, 0x12, 0x11, text] := by
      cases s with
      | flag b => cases b <;> simp [PartSlot.tag]
      | text t => rw [show p.textColl = none from hp]; simp [PartSlot.tag]
      | _ => simp [PartSlot.tag]
    cases p.desc with
    | false => exact (hlow _ hmem).1
    | true => exact (hlow _ hmem).2
  · rw [not_or, not_not] at hplain
    obtain ⟨hrank, hnot⟩ := hplain
    cases s with
    | text t =>
      cases s' with
      | text t' =>
        cases hc : p.textColl with
        | none => exact absurd ⟨hc, hc⟩ hnot
        | some c =>
          rw [hc] at hs hs'
          exact cmpKeys_collated hc (hs rfl) (hs' rfl) r r' fuel
      | _ => cases hrank
    | _ =>
      cases s' with
      | text t' => cases hrank
      | _ => exact absurd ⟨trivial, trivial⟩ hnot

end Parts

end Fenec
