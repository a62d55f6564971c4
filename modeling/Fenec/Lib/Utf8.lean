/-
# Finding a text in a text, by its bytes

A text is searched through its UTF-8 bytes: `windows` slides a span over the byte list and each
span is compared with the needle's bytes.  That a byte match is a character match is UTF-8's
self-synchronisation: a character's first byte is never a continuation byte, so a match can only
start where a character does (`infix_of_utf8`), and the encoding is prefix free, so it can
only end where one does.

The fourth section is about texts mapped character by character: a map that keeps the characters
of two texts apart neither makes nor loses a match (`infix_map_iff`).  The last one is about order:
two texts compare as their bytes do (`compare_utf8_of_lt`).
-/
import Mathlib.Data.List.Infix
import Mathlib.Data.List.Basic

namespace Fenec.Lib

/-! ## 1. The bytes of a text -/

/-- The UTF-8 bytes of a list of characters. -/
def utf8 (cs : List Char) : List UInt8 := cs.flatMap String.utf8EncodeChar

@[simp] theorem utf8_nil : utf8 [] = [] := rfl

@[simp] theorem utf8_cons (c : Char) (cs : List Char) :
    utf8 (c :: cs) = String.utf8EncodeChar c ++ utf8 cs := rfl

theorem utf8_append (a b : List Char) : utf8 (a ++ b) = utf8 a ++ utf8 b := by
  simp [utf8]

theorem utf8Encode_eq (cs : List Char) : cs.utf8Encode = (utf8 cs).toByteArray := rfl

theorem utf8_eq_nil {cs : List Char} : utf8 cs = [] ↔ cs = [] := by
  cases cs with
  | nil => simp
  | cons c cs => simp [String.utf8EncodeChar_ne_nil]

/-- **The encoding is prefix free**: bytes that start another text's bytes are a start of it. -/
theorem prefix_of_utf8 {a b : List Char} (h : utf8 a <+: utf8 b) : a <+: b := by
  obtain ⟨t, ht⟩ := h
  apply List.isPrefix_of_utf8Encode_append_eq_utf8Encode t.toByteArray
  rw [utf8Encode_eq, utf8Encode_eq, ← ht, List.toByteArray_append]

theorem utf8_injective {a b : List Char} (h : utf8 a = utf8 b) : a = b := by
  obtain ⟨t, rfl⟩ := prefix_of_utf8 (h ▸ List.prefix_rfl : utf8 a <+: utf8 b)
  have ht : utf8 t = [] := by simpa [utf8_append] using h
  rw [utf8_eq_nil.mp ht, List.append_nil]

/-- `str::from_utf8`: the text some bytes are, none where they are no text. -/
def fromUtf8 (raw : List UInt8) : Option String :=
  raw.toByteArray.utf8Decode?.map fun cs => String.ofList cs.toList

theorem fromUtf8_utf8 (s : String) : fromUtf8 (utf8 s.toList) = some s := by
  unfold fromUtf8
  rw [← utf8Encode_eq, List.utf8Decode?_utf8Encode]
  simp

/-- `n`'s last `k` hexadecimal digits. -/
def hexDigits : Nat → Nat → List Char
  | 0, _ => []
  | k + 1, n => hexDigits k (n / 16) ++ [Nat.digitChar (n % 16)]

/-! ## 2. First bytes -/

/-- Byte `i` of a character starts a character exactly when `i` is `0`. -/
theorem isFirstByte_getElem {c : Char} {i : Nat} (hi : i < (String.utf8EncodeChar c).length) :
    ((String.utf8EncodeChar c).get ⟨i, hi⟩).IsUTF8FirstByte ↔ i = 0 := by
  have hsize : i < [c].utf8Encode.size := by
    rw [List.utf8Encode_singleton, List.size_toByteArray]
    exact hi
  have hbyte : [c].utf8Encode[i] = (String.utf8EncodeChar c).get ⟨i, hi⟩ := by
    simp [List.utf8Encode_singleton]
  rw [← hbyte]
  exact List.isUTF8FirstByte_getElem_utf8Encode_singleton

/-- **A byte match starts at a character.** -/
theorem infix_of_utf8 {n : List Char} : ∀ {h : List Char}, utf8 n <:+: utf8 h → n <:+: h
  | [], hinf => by
    have hnil : utf8 n = [] := by simpa using hinf
    simp [utf8_eq_nil.mp hnil]
  | c :: cs, ⟨pre, post, heq⟩ => by
    rw [utf8_cons, List.append_assoc] at heq
    -- either the match lies in the rest, or it starts within the bytes of `c`
    rcases List.append_eq_append_iff.mp heq with ⟨gap, hpre, hrest⟩ | ⟨rest, hpre, hcs⟩
    · cases n with
      | nil => exact List.nil_infix
      | cons d ds =>
        by_cases hz : pre = []
        · -- at the first byte of `c`: a prefix of the whole
          subst hz
          have hp : utf8 (d :: ds) <+: utf8 (c :: cs) := ⟨post, by simpa using heq⟩
          exact (prefix_of_utf8 hp).isInfix
        · by_cases hg : gap = []
          · subst hg
            have hin : utf8 (d :: ds) <:+: utf8 cs :=
              ⟨[], post, by simpa using hrest⟩
            exact (infix_of_utf8 hin).trans (List.suffix_cons c cs).isInfix
          · -- inside `c`: the first byte of `d` would be a continuation byte of `c`
            exfalso
            obtain ⟨b, bs, hb⟩ := List.exists_cons_of_ne_nil
              (String.utf8EncodeChar_ne_nil (c := d))
            obtain ⟨g, gs, rfl⟩ := List.exists_cons_of_ne_nil hg
            have hgb : g = b := by
              rw [utf8_cons, hb] at hrest
              simpa using (congrArg List.head? hrest).symm
            have hi : pre.length < (String.utf8EncodeChar c).length := by
              rw [hpre]; simp
            have hget : (String.utf8EncodeChar c).get ⟨pre.length, hi⟩ = g := by
              simp [hpre]
            have hfirst : g.IsUTF8FirstByte := by
              have h0 : 0 < (String.utf8EncodeChar d).length := by rw [hb]; simp
              have := (isFirstByte_getElem h0).mpr rfl
              simpa [hb, hgb] using this
            have hlen : pre.length = 0 := (isFirstByte_getElem hi).mp (hget ▸ hfirst)
            exact hz (List.length_eq_zero_iff.mp hlen)
    · have hin : utf8 n <:+: utf8 cs := ⟨rest, post, by rw [List.append_assoc, hcs]⟩
      exact (infix_of_utf8 hin).trans (List.suffix_cons c cs).isInfix

theorem utf8_infix_iff {n h : List Char} : utf8 n <:+: utf8 h ↔ n <:+: h := by
  refine ⟨infix_of_utf8, ?_⟩
  rintro ⟨pre, post, rfl⟩
  exact ⟨utf8 pre, utf8 post, by simp [utf8_append]⟩

/-! ## 3. Windows -/

/-- The spans of `k` items, from the front: `slice::windows`. -/
def windows {α : Type} (k : Nat) (l : List α) : List (List α) :=
  (List.range (l.length + 1 - k)).map fun i => (l.drop i).take k

theorem mem_windows {α : Type} {k : Nat} {l w : List α} :
    w ∈ windows k l ↔ w.length = k ∧ w <:+: l := by
  constructor
  · intro h
    obtain ⟨i, hi, rfl⟩ := List.mem_map.mp h
    have hlt : i < l.length + 1 - k := List.mem_range.mp hi
    refine ⟨by rw [List.length_take, List.length_drop]; omega, ?_⟩
    exact (List.take_prefix k _).isInfix.trans (List.drop_suffix i l).isInfix
  · rintro ⟨hk, pre, post, rfl⟩
    refine List.mem_map.mpr ⟨pre.length, List.mem_range.mpr ?_, ?_⟩
    · simp only [List.length_append]; omega
    · simp [hk]

/-- Some window is `n` exactly when `n` lies in the list. -/
theorem any_windows_beq {α : Type} [DecidableEq α] {n l : List α} :
    ((windows n.length l).any fun w => w == n) = true ↔ n <:+: l := by
  simp only [List.any_eq_true, beq_iff_eq]
  constructor
  · rintro ⟨w, hw, rfl⟩
    exact (mem_windows.mp hw).2
  · intro h
    exact ⟨n, mem_windows.mpr ⟨rfl, h⟩, rfl⟩

/-! ## 4. Texts mapped character by character -/

/-- A map that tells the characters of two texts apart keeps what lies in what. -/
theorem infix_map_iff {α β : Type} {g : α → β} {n h : List α}
    (hinj : ∀ x ∈ n, ∀ y ∈ h, g x = g y → x = y) :
    n.map g <:+: h.map g ↔ n <:+: h := by
  constructor
  · rintro ⟨pre, post, heq⟩
    obtain ⟨a, post', hab, ha, -⟩ := List.map_eq_append_iff.mp heq.symm
    obtain ⟨pre', n', hn, -, hn'⟩ := List.map_eq_append_iff.mp ha
    have hnn : n' = n := by
      have hsub : ∀ y ∈ n', y ∈ h := by
        intro y hy
        rw [hab, hn]
        simp [hy]
      clear heq hab ha hn pre post
      induction n generalizing n' with
      | nil => simpa using hn'
      | cons x xs ih =>
        cases n' with
        | nil => simp at hn'
        | cons y ys =>
          simp only [List.map_cons, List.cons.injEq] at hn'
          have hxy : x = y :=
            hinj x (List.mem_cons_self ..) y (hsub y (List.mem_cons_self ..)) hn'.1.symm
          have hrest := ih (fun x hx => hinj x (List.mem_cons_of_mem _ hx)) ys hn'.2
            (fun y hy => hsub y (List.mem_cons_of_mem _ hy))
          rw [hxy, hrest]
    exact ⟨pre', post', by rw [hab, hn, hnn]⟩
  · rintro ⟨pre, post, rfl⟩
    exact ⟨pre.map g, post.map g, by simp⟩

/-! ## 5. Order -/

theorem compare_ofNat_lt {a b : Nat} {xs ys : List UInt8} (hb : b < 256) (h : a < b) :
    compare (UInt8.ofNat a :: xs) (UInt8.ofNat b :: ys) = .lt := by
  have hlt : UInt8.ofNat a < UInt8.ofNat b := by
    rw [UInt8.lt_iff_toNat_lt, UInt8.toNat_ofNat', UInt8.toNat_ofNat']
    omega
  have hab : compare (UInt8.ofNat a) (UInt8.ofNat b) = .lt := by
    simp [compare, compareOfLessAndEq, hlt]
  show List.compareLex compare (UInt8.ofNat a :: xs) (UInt8.ofNat b :: ys) = .lt
  rw [List.compareLex_cons_cons, hab]
  rfl

theorem compare_cons_self (x : UInt8) (xs ys : List UInt8) :
    compare (x :: xs) (x :: ys) = compare xs ys := by
  have hx : compare x x = .eq := by simp [compare, compareOfLessAndEq]
  show List.compareLex compare (x :: xs) (x :: ys) = List.compareLex compare xs ys
  rw [List.compareLex_cons_cons, hx]
  rfl

theorem compare_append_self (r xs ys : List UInt8) :
    compare (r ++ xs) (r ++ ys) = compare xs ys := by
  induction r with
  | nil => rfl
  | cons x r ih => rw [List.cons_append, List.cons_append, compare_cons_self, ih]

/-- A byte, then the ones after it where the byte does not tell. -/
theorem compare_ofNat {a b : Nat} {xs ys : List UInt8} (hb : b < 256) (h : a ≤ b)
    (hrest : a = b → compare xs ys = .lt) :
    compare (UInt8.ofNat a :: xs) (UInt8.ofNat b :: ys) = .lt := by
  rcases Nat.lt_or_eq_of_le h with hlt | rfl
  · exact compare_ofNat_lt hb hlt
  · rw [compare_cons_self]
    exact hrest rfl

theorem compare_utf8EncodeChar {c d : Char} (h : c.toNat < d.toNat) (r r' : List UInt8) :
    compare (String.utf8EncodeChar c ++ r) (String.utf8EncodeChar d ++ r') = .lt := by
  have hd : d.toNat < 0x110000 := by
    have hv := d.valid
    simp only [UInt32.isValidChar, Nat.isValidChar] at hv
    change d.val.toNat < _
    omega
  unfold String.utf8EncodeChar
  change c.val.toNat < d.val.toNat at h
  change d.val.toNat < _ at hd
  generalize c.val.toNat = v at h ⊢
  generalize d.val.toNat = w at h hd ⊢
  dsimp only
  split
  · split
    · exact compare_ofNat_lt (by omega) h
    · split
      · exact compare_ofNat_lt (by omega) (by omega)
      · split <;> exact compare_ofNat_lt (by omega) (by omega)
  · split
    · rw [if_neg (by omega)]
      split
      · refine compare_ofNat (by omega) (by omega) fun h₁ => ?_
        exact compare_ofNat_lt (by omega) (by omega)
      · split <;> exact compare_ofNat_lt (by omega) (by omega)
    · split
      · rw [if_neg (by omega), if_neg (by omega)]
        split
        · refine compare_ofNat (by omega) (by omega) fun h₁ => ?_
          refine compare_ofNat (by omega) (by omega) fun h₂ => ?_
          exact compare_ofNat_lt (by omega) (by omega)
        · exact compare_ofNat_lt (by omega) (by omega)
      · rw [if_neg (by omega), if_neg (by omega), if_neg (by omega)]
        refine compare_ofNat (by omega) (by omega) fun h₁ => ?_
        refine compare_ofNat (by omega) (by omega) fun h₂ => ?_
        refine compare_ofNat (by omega) (by omega) fun h₃ => ?_
        exact compare_ofNat_lt (by omega) (by omega)

/-- **Texts are in the order of their bytes.** -/
theorem compare_utf8_of_lt {a b : List Char} (h : compare a b = .lt) :
    compare (utf8 a) (utf8 b) = .lt := by
  induction a generalizing b with
  | nil =>
    cases b with
    | nil => cases h
    | cons d b =>
      obtain ⟨x, xs, hx⟩ := List.exists_cons_of_ne_nil (String.utf8EncodeChar_ne_nil (c := d))
      rw [utf8_nil, utf8_cons, hx]
      rfl
  | cons c a ih =>
    cases b with
    | nil => cases h
    | cons d b =>
      change List.compareLex compare (c :: a) (d :: b) = .lt at h
      rw [List.compareLex_cons_cons] at h
      rw [utf8_cons, utf8_cons]
      have hcmp : compare c d = if c < d then .lt else if c = d then .eq else .gt := rfl
      by_cases hlt : c < d
      · exact compare_utf8EncodeChar hlt _ _
      · rw [hcmp, if_neg hlt] at h
        by_cases heq : c = d
        · subst heq
          rw [if_pos rfl] at h
          rw [compare_append_self]
          exact ih h
        · rw [if_neg heq] at h
          cases h

end Fenec.Lib
