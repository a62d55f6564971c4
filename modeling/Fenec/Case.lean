/-
# Case

`lower` is what `like` compares texts by, `fold` what a `nocase` field does.  Both work
character by character from the case tables of the language's standard library, which are a
parameter here (`CharCase`): the tables are Unicode's and change with it, the code does not.

The source never folds where it can compare as it goes: `cmpFolded` and `cmpToFolded` run over
ASCII in place and then over lazily folded characters.  Section 3 proves that both are the
comparison of the folds (`cmpFolded_eq`, `cmpToFolded_eq`), which is what lets a filter fold its
literal once and never fold a row's text again.

What `like` over a `nocase` field needs of the tables is the law of `CaseTables`: lowering a
fold is one character for one, and keeps folds apart.
-/
import Fenec.Coerce

namespace Fenec

open Lib

namespace Case

/-! ## 1. Tables -/

/-- The case tables of the standard library: `char::to_lowercase` and its siblings. -/
structure CharCase where
  toLowercase : Char → List Char
  toUppercase : Char → List Char
  isLowercase : Char → Bool
  isUppercase : Char → Bool
  /-- The source's own run-length table, unpacked: what `lower` looks past around a sigma. -/
  caseIgnorable : Char → Bool

/-- Below `0x80`. -/
def isAscii (c : Char) : Bool := decide (c.toNat < 0x80)

/-- An ASCII capital. -/
def isAsciiUpper (c : Char) : Bool := 'A' ≤ c && c ≤ 'Z'

/-- `to_ascii_lowercase`. -/
def asciiLower (c : Char) : Char :=
  if isAsciiUpper c then Char.ofNat (c.toNat + 32) else c

/-- How a text's case is folded: by Unicode's default, or with Turkish's two i's apart. -/
inductive CaseFold where
  | unicode
  | turkish
deriving DecidableEq

/-- Whether the dotless i is a letter of its own. -/
def CaseFold.isTurkish (f : CaseFold) : Bool := f == .turkish

/-- The runs whose fold is not their lowercase. -/
def unlikeLowerRuns : List (Nat × Nat) :=
  [(0xb5, 0xb5), (0xdf, 0xdf), (0x149, 0x149), (0x17f, 0x17f), (0x1f0, 0x1f0),
   (0x345, 0x345), (0x390, 0x390), (0x3b0, 0x3b0), (0x3c2, 0x3c2), (0x3d0, 0x3d1),
   (0x3d5, 0x3d6), (0x3f0, 0x3f1), (0x3f5, 0x3f5), (0x587, 0x587), (0x13a0, 0x13f5),
   (0x13f8, 0x13fd), (0x1c80, 0x1c88), (0x1e96, 0x1e9b), (0x1e9e, 0x1e9e),
   (0x1f50, 0x1f50), (0x1f52, 0x1f52), (0x1f54, 0x1f54), (0x1f56, 0x1f56),
   (0x1f80, 0x1faf), (0x1fb2, 0x1fb4), (0x1fb6, 0x1fb7), (0x1fbc, 0x1fbc),
   (0x1fbe, 0x1fbe), (0x1fc2, 0x1fc4), (0x1fc6, 0x1fc7), (0x1fcc, 0x1fcc),
   (0x1fd2, 0x1fd3), (0x1fd6, 0x1fd7), (0x1fe2, 0x1fe4), (0x1fe6, 0x1fe7),
   (0x1ff2, 0x1ff4), (0x1ff6, 0x1ff7), (0x1ffc, 0x1ffc), (0xab70, 0xabbf),
   (0xfb00, 0xfb06), (0xfb13, 0xfb17)]

/-- Whether a character's fold is not its lowercase. -/
def unlikeLower (c : Char) : Bool :=
  unlikeLowerRuns.any fun r => decide (r.1 ≤ c.toNat) && decide (c.toNat ≤ r.2)

/-- Cherokee folds to its capitals. -/
def cherokee (c : Char) : Char :=
  let n := c.toNat
  if 0xAB70 ≤ n ∧ n ≤ 0xABBF then Char.ofNat (n - 0xAB70 + 0x13A0)
  else if 0x13F8 ≤ n ∧ n ≤ 0x13FD then Char.ofNat (n - 8)
  else c

/-- **`fold_char`**: the characters one folds to, at most three. -/
def foldChar (T : CharCase) (f : CaseFold) (c : Char) : List Char :=
  if isAscii c then
    if c = 'I' ∧ f.isTurkish = true then ['ı'] else [asciiLower c]
  else if c = 'ı' then ['ı']
  else if c = 'İ' ∧ f.isTurkish = true then ['i']
  else if unlikeLower c then
    (((T.toLowercase c).flatMap T.toUppercase).flatMap fun u =>
      (T.toLowercase u).map cherokee).take 3
  else (T.toLowercase c).take 3

/-! ## 2. Lowering and folding -/

/-- A cased letter: lower, upper or title case. -/
def cased (T : CharCase) (c : Char) : Bool :=
  T.isLowercase c || T.isUppercase c ||
    (let n := c.toNat
     n == 0x1C5 || n == 0x1C8 || n == 0x1CB || n == 0x1F2
      || (0x1F88 ≤ n && n ≤ 0x1F8F) || (0x1F98 ≤ n && n ≤ 0x1F9F)
      || (0x1FA8 ≤ n && n ≤ 0x1FAF) || n == 0x1FBC || n == 0x1FCC || n == 0x1FFC)

/-- Whether the first character that is not ignorable is cased. -/
def casedFirst (T : CharCase) (cs : List Char) : Bool :=
  ((cs.find? fun c => !T.caseIgnorable c).map (cased T)).getD false

/-- One character lowered; `before` are the ones ahead of it, nearest first. -/
def lowerChar (T : CharCase) (before : List Char) (c : Char) (after : List Char) : List Char :=
  if isAscii c then [asciiLower c]
  else if c = 'Σ' then
    -- a sigma that ends a word
    [if casedFirst T before && !casedFirst T after then 'ς' else 'σ']
  else T.toLowercase c

/-- `lower` from some character on. -/
def lowerFrom (T : CharCase) : List Char → List Char → List Char
  | _, [] => []
  | before, c :: after => lowerChar T before c after ++ lowerFrom T (c :: before) after

/-- `case::lower`. -/
def lower (T : CharCase) (s : List Char) : List Char :=
  if s.all isAscii then s.map asciiLower else lowerFrom T [] s

/-- An ASCII byte folded in place: any but a Turkish capital I. -/
def plain (f : CaseFold) (c : Char) : Bool := isAscii c && !(c == 'I' && f.isTurkish)

/-- `fold_into`: a run of ASCII is lowered in place, the character that ends it is folded. -/
def foldInto (T : CharCase) (f : CaseFold) : List Char → List Char
  | [] => []
  | c :: cs =>
    if plain f c then asciiLower c :: foldInto T f cs else foldChar T f c ++ foldInto T f cs

/-- `case::fold`. -/
def fold (T : CharCase) (f : CaseFold) (s : String) : String :=
  if s.toList.all isAscii && !s.toList.any isAsciiUpper then s
  else String.ofList (foldInto T f s.toList)

/-- The characters `Folds` iterates: each character's fold in turn. -/
def folds (T : CharCase) (f : CaseFold) (cs : List Char) : List Char :=
  cs.flatMap (foldChar T f)

/-- `cmp_to_folded`: a text's fold against a fold. -/
def cmpToFolded (T : CharCase) (f : CaseFold) : List Char → List Char → Ordering
  | x :: xs, y :: ys =>
    if plain f x then (compare (asciiLower x) y).then (cmpToFolded T f xs ys)
    else compare (folds T f (x :: xs)) (y :: ys)
  | xs, ys => compare (folds T f xs) ys

/-- `cmp_folded`: two texts' folds. -/
def cmpFolded (T : CharCase) (f : CaseFold) : List Char → List Char → Ordering
  | x :: xs, y :: ys =>
    if plain f x && plain f y then
      (compare (asciiLower x) (asciiLower y)).then (cmpFolded T f xs ys)
    else compare (folds T f (x :: xs)) (folds T f (y :: ys))
  | xs, ys => compare (folds T f xs) (folds T f ys)

/-- `eq_folded`. -/
def eqFolded (T : CharCase) (f : CaseFold) (a b : String) : Bool :=
  cmpFolded T f a.toList b.toList == .eq

/-! ## 3. Comparing as one folds is comparing the folds -/

section Folds

variable (T : CharCase) (f : CaseFold)

theorem foldChar_of_plain {c : Char} (h : plain f c = true) :
    foldChar T f c = [asciiLower c] := by
  obtain ⟨ha, hi⟩ : isAscii c = true ∧ (¬c = 'I' ∨ f.isTurkish = false) := by
    simpa [plain] using h
  have hI : ¬(c = 'I' ∧ f.isTurkish = true) := by
    rintro ⟨hc, ht⟩
    rcases hi with hi | hi
    · exact hi hc
    · rw [hi] at ht
      cases ht
  simp [foldChar, ha, hI]

@[simp] theorem folds_nil : folds T f [] = [] := rfl

theorem folds_cons (c : Char) (cs : List Char) :
    folds T f (c :: cs) = foldChar T f c ++ folds T f cs := by
  simp [folds]

theorem foldInto_eq (cs : List Char) : foldInto T f cs = folds T f cs := by
  induction cs with
  | nil => rfl
  | cons c cs ih =>
    rw [foldInto, folds_cons, ih]
    split
    · next h => rw [foldChar_of_plain T f h, List.singleton_append]
    · rfl

/-- An ASCII text with no capital folds to itself. -/
theorem folds_of_lower {cs : List Char} (ha : cs.all isAscii = true)
    (hu : cs.any isAsciiUpper = false) : folds T f cs = cs := by
  induction cs with
  | nil => rfl
  | cons c cs ih =>
    obtain ⟨hc, hcs⟩ : isAscii c = true ∧ cs.all isAscii = true := by simpa using ha
    obtain ⟨uc, ucs⟩ : isAsciiUpper c = false ∧ cs.any isAsciiUpper = false := by
      simpa [-List.any_eq_false] using hu
    have hI : c ≠ 'I' := by
      rintro rfl
      exact absurd uc (by decide)
    have hlow : asciiLower c = c := by simp [asciiLower, uc]
    rw [folds_cons, ih hcs ucs, foldChar_of_plain T f (by simp [plain, hc, hI]), hlow]
    rfl

theorem toList_fold (s : String) : (fold T f s).toList = folds T f s.toList := by
  unfold fold
  split
  · next h =>
    obtain ⟨ha, hu⟩ : s.toList.all isAscii = true ∧ s.toList.any isAsciiUpper = false := by
      simpa [-List.any_eq_false] using h
    exact (folds_of_lower T f ha hu).symm
  · rw [String.toList_ofList, foldInto_eq]

theorem compare_cons_cons {x y : Char} {xs ys : List Char} :
    compare (x :: xs) (y :: ys) = (compare x y).then (compare xs ys) := by
  rw [List.compare_cons_cons]

theorem cmpToFolded_eq (a b : List Char) : cmpToFolded T f a b = compare (folds T f a) b := by
  fun_induction cmpToFolded T f a b with
  | case1 x xs y ys hp ih =>
    rw [folds_cons, foldChar_of_plain T f hp, List.singleton_append, compare_cons_cons, ih]
  | case2 => rfl
  | case3 => rfl

theorem cmpFolded_eq (a b : List Char) :
    cmpFolded T f a b = compare (folds T f a) (folds T f b) := by
  fun_induction cmpFolded T f a b with
  | case1 x xs y ys hp ih =>
    obtain ⟨hx, hy⟩ : plain f x = true ∧ plain f y = true := by simpa using hp
    rw [folds_cons, folds_cons, foldChar_of_plain T f hx, foldChar_of_plain T f hy,
      List.singleton_append, List.singleton_append, compare_cons_cons, ih]
  | case2 => rfl
  | case3 => rfl

/-- Two texts are one under the fold exactly when their folds are. -/
theorem cmpFolded_swap (a b : List Char) :
    cmpFolded T f b a = (cmpFolded T f a b).swap := by
  rw [cmpFolded_eq, cmpFolded_eq]
  exact Std.OrientedOrd.eq_swap

theorem eqFolded_iff {a b : String} : eqFolded T f a b = true ↔ fold T f a = fold T f b := by
  rw [eqFolded, cmpFolded_eq, beq_iff_eq, Std.compare_eq_iff_eq, ← toList_fold, ← toList_fold]
  exact String.toList_inj

end Folds

/-! ## 4. Finding a text in a text, case aside -/

/-- An ASCII byte lowered. -/
def byteLower (b : UInt8) : UInt8 := if 65 ≤ b ∧ b ≤ 90 then b + 32 else b

/-- `eq_ignore_ascii_case` over bytes. -/
def eqIgnoreAsciiCase (a b : List UInt8) : Bool := a.map byteLower == b.map byteLower

/-- `like_match`: whether the needle lies in the text, both lowered. -/
def likeMatch (T : CharCase) (hay needle : String) : Bool :=
  if !(hay.toList.all isAscii && needle.toList.all isAscii) then
    let h := utf8 (lower T hay.toList)
    let n := utf8 (lower T needle.toList)
    n.isEmpty || (windows n.length h).any fun w => w == n
  else
    let h := utf8 hay.toList
    let n := utf8 needle.toList
    if n.isEmpty then true
    else if n.length > h.length then false
    else (windows n.length h).any fun w => eqIgnoreAsciiCase w n

/-- Whether the needle's bytes lie in the text's as they are. -/
def contains (hay needle : String) : Bool :=
  (utf8 needle.toList).isEmpty ||
    (windows (utf8 needle.toList).length (utf8 hay.toList)).any
      fun w => w == utf8 needle.toList

theorem contains_iff {hay needle : String} :
    contains hay needle = true ↔ needle.toList <:+: hay.toList := by
  unfold contains
  rw [Bool.or_eq_true, any_windows_beq, utf8_infix_iff, List.isEmpty_iff, utf8_eq_nil]
  constructor
  · rintro (h | h)
    · rw [h]; exact List.nil_infix
    · exact h
  · exact .inr

/-- The character a fold is lowered to. -/
def lowerOne (T : CharCase) (c : Char) : Char :=
  if isAscii c then asciiLower c else (T.toLowercase c).headD c

/-- **The case tables, with what `like` over a fold rests on**: a fold holds no ASCII capital
and no capital sigma, each of its characters lowers to one, and no two of them to the same. -/
structure CaseTables extends CharCase where
  fold_not_upper : ∀ f c, ∀ x ∈ foldChar toCharCase f c, isAsciiUpper x = false
  fold_not_sigma : ∀ f c, ∀ x ∈ foldChar toCharCase f c, x ≠ 'Σ'
  fold_lower_one : ∀ f c, ∀ x ∈ foldChar toCharCase f c, isAscii x = false →
    toLowercase x = [lowerOne toCharCase x]
  fold_lower_inj : ∀ f c d, ∀ x ∈ foldChar toCharCase f c, ∀ y ∈ foldChar toCharCase f d,
    lowerOne toCharCase x = lowerOne toCharCase y → x = y

section Like

variable (T : CaseTables) (f : CaseFold)

/-- Every character of a fold comes out of one character's fold. -/
theorem mem_folds {cs : List Char} {x : Char} (h : x ∈ folds T.toCharCase f cs) :
    ∃ c, x ∈ foldChar T.toCharCase f c := by
  obtain ⟨c, -, hx⟩ := List.mem_flatMap.mp h
  exact ⟨c, hx⟩

theorem lowerFrom_folds {before cs : List Char}
    (h : ∀ x ∈ cs, ∃ c, x ∈ foldChar T.toCharCase f c) :
    lowerFrom T.toCharCase before cs = cs.map (lowerOne T.toCharCase) := by
  induction cs generalizing before with
  | nil => rfl
  | cons x xs ih =>
    obtain ⟨c, hx⟩ := h x (List.mem_cons_self ..)
    have hone : ∀ after, lowerChar T.toCharCase before x after = [lowerOne T.toCharCase x] := by
      intro after
      unfold lowerChar
      cases ha : isAscii x with
      | true => simp [lowerOne, ha]
      | false => simp [T.fold_not_sigma f c x hx, T.fold_lower_one f c x hx ha]
    rw [lowerFrom, hone, ih fun y hy => h y (List.mem_cons_of_mem _ hy)]
    rfl

/-- **Lowering a fold is one character for one.** -/
theorem lower_folds (cs : List Char) :
    lower T.toCharCase (folds T.toCharCase f cs) =
      (folds T.toCharCase f cs).map (lowerOne T.toCharCase) := by
  unfold lower
  split
  · next h =>
    apply List.map_congr_left
    intro x hx
    have ha : isAscii x = true := List.all_eq_true.mp h x hx
    simp [lowerOne, ha]
  · exact lowerFrom_folds T f fun x hx => mem_folds T f hx

/-- The bytes of an ASCII text with no capital are not changed by lowering them. -/
theorem map_byteLower_utf8 {cs : List Char} (ha : cs.all isAscii = true)
    (hu : ∀ x ∈ cs, isAsciiUpper x = false) : (utf8 cs).map byteLower = utf8 cs := by
  induction cs with
  | nil => rfl
  | cons c cs ih =>
    obtain ⟨hc, hcs⟩ : isAscii c = true ∧ cs.all isAscii = true := by simpa using ha
    have hrest := ih hcs fun x hx => hu x (List.mem_cons_of_mem _ hx)
    have hlt : c.toNat < 0x80 := by simpa [isAscii] using hc
    have hsize : c.utf8Size = 1 := by
      rw [Char.utf8Size_eq_one_iff]
      exact UInt32.le_iff_toNat_le.mpr (by simpa using Nat.le_of_lt_succ hlt)
    have henc : String.utf8EncodeChar c = [c.val.toUInt8] :=
      String.utf8EncodeChar_eq_singleton hsize
    have hup : ¬(65 ≤ c.toNat ∧ c.toNat ≤ 90) := by
      have h := hu c (List.mem_cons_self ..)
      intro hb
      have h1 : 'A' ≤ c := Char.le_def.mpr (UInt32.le_iff_toNat_le.mpr hb.1)
      have h2 : c ≤ 'Z' := Char.le_def.mpr (UInt32.le_iff_toNat_le.mpr hb.2)
      simp [isAsciiUpper, h1, h2] at h
    have hb : byteLower c.val.toUInt8 = c.val.toUInt8 := by
      unfold byteLower
      rw [if_neg]
      rintro ⟨h1, h2⟩
      apply hup
      have hn : c.val.toUInt8.toNat = c.toNat := by
        rw [UInt32.toNat_toUInt8]
        exact Nat.mod_eq_of_lt (by simpa using (by omega : c.toNat < 256))
      rw [UInt8.le_iff_toNat_le, hn] at h1 h2
      exact ⟨h1, h2⟩
    rw [utf8_cons, henc, List.singleton_append, List.map_cons, hb, hrest]

/-- **`like` over two folds is whether the one's bytes lie in the other's.** -/
theorem likeMatch_fold (a b : String) :
    likeMatch T.toCharCase (fold T.toCharCase f a) (fold T.toCharCase f b) =
      contains (fold T.toCharCase f a) (fold T.toCharCase f b) := by
  rw [Bool.eq_iff_iff, contains_iff]
  have hmem : ∀ s : String, ∀ x ∈ (fold T.toCharCase f s).toList,
      ∃ c, x ∈ foldChar T.toCharCase f c := by
    intro s x hx
    rw [toList_fold] at hx
    exact mem_folds T f hx
  have hinj : ∀ x ∈ (fold T.toCharCase f b).toList, ∀ y ∈ (fold T.toCharCase f a).toList,
      lowerOne T.toCharCase x = lowerOne T.toCharCase y → x = y := by
    intro x hx y hy
    obtain ⟨c, hc⟩ := hmem b x hx
    obtain ⟨d, hd⟩ := hmem a y hy
    exact T.fold_lower_inj f c d x hc y hd
  have hup : ∀ s : String, ∀ x ∈ (fold T.toCharCase f s).toList, isAsciiUpper x = false := by
    intro s x hx
    obtain ⟨c, hc⟩ := hmem s x hx
    exact T.fold_not_upper f c x hc
  unfold likeMatch
  split
  · -- past ASCII: both are lowered, one character for one
    simp only [toList_fold, lower_folds, Bool.or_eq_true, List.isEmpty_iff, utf8_eq_nil,
      List.map_eq_nil_iff]
    rw [any_windows_beq, utf8_infix_iff, ← toList_fold, ← toList_fold, infix_map_iff hinj]
    constructor
    · rintro (h | h)
      · rw [h]; exact List.nil_infix
      · exact h
    · exact .inr
  · -- ASCII: no capital is left for the case to be ignored of
    next hascii =>
    obtain ⟨hA, hB⟩ : (fold T.toCharCase f a).toList.all isAscii = true ∧
        (fold T.toCharCase f b).toList.all isAscii = true := by
      simpa using hascii
    have hn := map_byteLower_utf8 hB (hup b)
    have hh := map_byteLower_utf8 hA (hup a)
    generalize (fold T.toCharCase f a).toList = h at *
    generalize (fold T.toCharCase f b).toList = n at *
    have hwin : ∀ w ∈ windows (utf8 n).length (utf8 h),
        eqIgnoreAsciiCase w (utf8 n) = (w == utf8 n) := by
      intro w hw
      obtain ⟨pre, post, hsplit⟩ := (mem_windows.mp hw).2
      have hwl : w.map byteLower = w := by
        rw [← hsplit] at hh
        simp only [List.map_append] at hh
        have h1 := (List.append_inj hh (by simp)).1
        exact (List.append_inj h1 (by simp)).2
      simp only [eqIgnoreAsciiCase, hn, hwl]
    dsimp only
    split
    · next he =>
      have : n = [] := utf8_eq_nil.mp (by simpa using he)
      simp [this]
    · split
      · next hlen =>
        simp only [Bool.false_eq_true, false_iff]
        intro hinf
        have := (utf8_infix_iff.mpr hinf).length_le
        omega
      · rw [← utf8_infix_iff, ← any_windows_beq]
        simp only [List.any_eq_true]
        exact exists_congr fun w => and_congr_right fun hw => by rw [hwin w hw]

end Like

end Case

end Fenec
