/-
# The words of a shard and their documents

A shard of `Terms` keeps its words' bytes one after another in an arena, each behind its length, and
its terms in two arrays: a word one document holds is a `One`, a word of more a `TermList` of them.
What is at a place of either is free for the next word once its term has left it.

A word is compared where it lies: its length and first seven bytes at once against eight bytes of the
arena (`isAt`), which is as the bytes themselves are (`isAt_eq`).  A list's documents are the keys
of a map and its counts the values (`Tally`), a count more and a document less those of the map.
-/
import Fenec.Chunked
import Fenec.Codec
import Fenec.TermTable

namespace Fenec.Text

open Lib Lib.Swar

/-! ## 1. The arena -/

/-- A cast to 32 bits. -/
def u32 (n : Nat) : Nat := n % 2 ^ 32

theorem u32_of_lt {n : Nat} (h : n < 2 ^ 32) : u32 n = n := Nat.mod_eq_of_lt h

/-- The loop of `word_at`: a length, seven bits a byte, and how many bytes it took. -/
def lengthOf : List UInt8 → Nat → Nat → Nat × Nat
  | [], n, _ => (n, 0)
  | b :: bs, n, shift =>
    let n := n ||| ((b &&& 0x7f).toNat <<< shift)
    if b < 0x80 then (n, 1)
    else
      let (m, k) := lengthOf bs n (shift + 7)
      (m, k + 1)

/-- `slice::get` of a range. -/
def slice (bs : List UInt8) (i j : Nat) : Option (List UInt8) :=
  if i ≤ j ∧ j ≤ bs.length then some ((bs.drop i).take (j - i)) else none

/-- **`word_at`**: the word whose length starts at a place, and where it ends. -/
def wordAt (bs : List UInt8) (at_ : Nat) : List UInt8 × Nat :=
  let (n, k) := lengthOf (bs.drop at_) 0 0
  ((slice bs (at_ + k) (at_ + k + n)).getD [], at_ + k + n)

/-- A word after its length, as `put_word` appends it. -/
def stored (w : List UInt8) : List UInt8 := Codec.uvarint w.length ++ w

/-- `Key::of`: a word's length and its first seven bytes, the lowest first. -/
def keyHead (w : List UInt8) : UInt64 :=
  (w.take 7).zipIdx.foldl (fun head bi => head ||| (bi.1.toUInt64 <<< UInt64.ofNat (8 * (bi.2 + 1))))
    (UInt64.ofNat w.length &&& 0x7f)

/-- `Key::of`: the bytes of it that are the word's. -/
def keyMask (w : List UInt8) : UInt64 :=
  if 7 ≤ w.length then ~~~0 else (1 <<< UInt64.ofNat (8 * (w.length + 1))) - 1

/-- **`Key::is_at`**: whether the word whose length starts at a place is this one. -/
def isAt (w bs : List UInt8) (at_ : Nat) : Bool :=
  let chunk := (bs.drop at_).take 8
  if w.length < 0x80 ∧ chunk.length = 8 then
    (UInt64.ofNat (word chunk) ^^^ keyHead w) &&& keyMask w == 0 &&
      (w.length ≤ 7 || slice bs (at_ + 8) (at_ + 1 + w.length) == some (w.drop 7))
  else (wordAt bs at_).1 == w

section Arena

variable {bs w w' r : List UInt8} {at_ n shift : Nat}

theorem or_shiftLeft (hn : n < 2 ^ shift) (b : Nat) : n ||| (b <<< shift) = n + b * 2 ^ shift := by
  rw [Nat.or_comm, ← Nat.shiftLeft_add_eq_or_of_lt hn, Nat.shiftLeft_eq, Nat.add_comm]

/-- A byte of a length: its low bits, and whether it is the last. -/
theorem length_byte {b : UInt8} : (b &&& 0x7f).toNat = b.toNat % 128 ∧ (b < 0x80 ↔ b.toNat < 128) := by
  refine ⟨?_, UInt8.lt_iff_toNat_lt⟩
  rw [UInt8.toNat_and]
  exact Nat.and_two_pow_sub_one_eq_mod b.toNat 7

/-- A length is read back. -/
theorem lengthOf_go (f : Nat) {v : Nat} (hv : v < 128 ^ (f + 1)) (r : List UInt8) (n shift : Nat)
    (hn : n < 2 ^ shift) : lengthOf (Codec.uvarintGo f v ++ r) n shift =
      (n + v * 2 ^ shift, (Codec.uvarintGo f v).length) := by
  have hlast : ∀ v < 128, ∀ n shift, n < 2 ^ shift →
      lengthOf (UInt8.ofNat v :: r) n shift = (n + v * 2 ^ shift, 1) := by
    intro v hv n shift hn
    have hnat : (UInt8.ofNat v).toNat = v := by
      rw [UInt8.toNat_ofNat', Nat.mod_eq_of_lt (by omega)]
    rw [lengthOf, length_byte.1, hnat, Nat.mod_eq_of_lt hv, or_shiftLeft hn]
    exact if_pos (length_byte.2.mpr (by rw [hnat]; exact hv))
  induction f generalizing v n shift with
  | zero => exact hlast v hv n shift hn
  | succ f ih =>
    rw [Codec.uvarintGo]
    by_cases hsmall : v < 128
    · rw [if_pos hsmall]
      exact hlast v hsmall n shift hn
    · rw [if_neg hsmall]
      have hnat : (UInt8.ofNat (v % 128 + 128)).toNat = v % 128 + 128 := by
        rw [UInt8.toNat_ofNat', Nat.mod_eq_of_lt (by omega)]
      have hlow : (v % 128 + 128) % 128 = v % 128 := by omega
      have hmore : ¬ UInt8.ofNat (v % 128 + 128) < 0x80 := by
        rw [length_byte.2, hnat]
        omega
      have hdiv : v / 128 < 128 ^ (f + 1) := by
        rw [Nat.pow_succ] at hv
        exact Nat.div_lt_of_lt_mul (by rw [Nat.mul_comm]; exact hv)
      have hn' : n + v % 128 * 2 ^ shift < 2 ^ (shift + 7) := by
        have hmod : v % 128 < 128 := Nat.mod_lt _ (by omega)
        have hle : v % 128 * 2 ^ shift ≤ 127 * 2 ^ shift := Nat.mul_le_mul_right _ (by omega)
        rw [Nat.pow_add]
        omega
      have hsum : n + v % 128 * 2 ^ shift + v / 128 * 2 ^ (shift + 7) = n + v * 2 ^ shift := by
        have hv' := Nat.div_add_mod v 128
        calc n + v % 128 * 2 ^ shift + v / 128 * 2 ^ (shift + 7)
            = n + (128 * (v / 128) + v % 128) * 2 ^ shift := by
              rw [Nat.pow_add]
              ring
          _ = n + v * 2 ^ shift := by rw [hv']
      rw [List.cons_append, lengthOf]
      dsimp only
      rw [length_byte.1, hnat, hlow, or_shiftLeft hn, if_neg hmore,
        ih hdiv _ _ hn', hsum]
      rfl

theorem lengthOf_uvarint (v : Nat) (r : List UInt8) :
    lengthOf (Codec.uvarint v ++ r) 0 0 = (v, (Codec.uvarint v).length) := by
  have h := lengthOf_go (Nat.log2 v) (Codec.lt_pow_log2 v) r 0 0 Nat.one_pos
  rwa [Nat.zero_add, Nat.pow_zero, Nat.mul_one] at h

/-- What follows a place. -/
theorem slice_append {A B : List UInt8} {i k : Nat} (hA : 0 < A.length)
    (hr : bs.drop at_ = A ++ B ++ r) (hi : i = at_ + A.length) (hk : k = i + B.length) :
    slice bs i k = some B := by
  have hlen := congrArg List.length hr
  rw [List.length_drop, List.length_append, List.length_append] at hlen
  rw [slice, if_pos ⟨by omega, by omega⟩, hi, ← List.drop_drop, hr, List.append_assoc,
    List.drop_left, hk, hi, Nat.add_sub_cancel_left, List.take_left]

theorem uvarint_pos (v : Nat) : 0 < (Codec.uvarint v).length := by
  unfold Codec.uvarint
  cases Nat.log2 v with
  | zero => exact Nat.one_pos
  | succ f =>
    rw [Codec.uvarintGo]
    split <;> exact Nat.succ_pos _

/-- A length below 2^35 takes five bytes at most. -/
theorem uvarintGo_length (fuel : Nat) : ∀ {v k : Nat}, v < 128 ^ (k + 1) →
    (Codec.uvarintGo fuel v).length ≤ k + 1 := by
  induction fuel with
  | zero =>
    intro v k _
    rw [Codec.uvarintGo, List.length_singleton]
    exact Nat.succ_le_succ (Nat.zero_le k)
  | succ fuel ih =>
    intro v k hv
    rw [Codec.uvarintGo]
    by_cases hlow : v < 128
    · rw [if_pos hlow, List.length_singleton]
      exact Nat.succ_le_succ (Nat.zero_le k)
    · rw [if_neg hlow, List.length_cons]
      cases k with
      | zero => exact absurd hv hlow
      | succ k => exact Nat.succ_le_succ (ih (Nat.div_lt_of_lt_mul (by rwa [← Nat.pow_succ'])))

/-- A word stored is its bytes and five more at most. -/
theorem stored_length {w : List UInt8} (hw : w.length < 2 ^ 32) :
    w.length < (stored w).length ∧ (stored w).length ≤ w.length + 5 := by
  have hfive := uvarintGo_length (Nat.log2 w.length) (v := w.length) (k := 4)
    (Nat.lt_trans hw (by decide))
  have hpos := uvarint_pos w.length
  rw [stored, List.length_append]
  rw [Codec.uvarint] at hpos ⊢
  omega

/-- A word lies at a place behind its length. -/
def StoredAt (bs : List UInt8) (at_ : Nat) (w : List UInt8) : Prop := stored w <+: bs.drop at_

/-- **A word is read back** where it lies. -/
theorem wordAt_stored (h : StoredAt bs at_ w) : wordAt bs at_ = (w, at_ + (stored w).length) := by
  obtain ⟨r, hr⟩ := h
  unfold wordAt
  rw [← hr, stored, List.append_assoc, lengthOf_uvarint]
  dsimp only
  rw [slice_append (uvarint_pos _) hr.symm rfl rfl, Option.getD_some, List.length_append, Nat.add_assoc]

/-- A short word's length is one byte. -/
theorem uvarint_short {v : Nat} (hv : v < 128) : Codec.uvarint v = [UInt8.ofNat v] := by
  unfold Codec.uvarint
  cases Nat.log2 v with
  | zero => rfl
  | succ f => rw [Codec.uvarintGo, if_pos hv]

/-- A first byte below 128 is the length itself. -/
theorem uvarint_head {v n : Nat} (hn : n < 128)
    (h : (Codec.uvarint v ++ r).take 1 = [UInt8.ofNat n]) : v = n := by
  have hnat : ∀ m < 256, (UInt8.ofNat m).toNat = m := fun m hm => by
    rw [UInt8.toNat_ofNat', Nat.mod_eq_of_lt (by omega)]
  by_cases hv : v < 128
  · rw [uvarint_short hv] at h
    have hbyte := congrArg UInt8.toNat (List.cons.inj h).1
    rwa [hnat v (by omega), hnat n (by omega)] at hbyte
  · -- a longer one has its top bit set
    have hlog : ∃ f, Nat.log2 v = f + 1 := by
      have hne : Nat.log2 v ≠ 0 :=
        Nat.ne_of_gt ((Nat.le_log2 (by omega)).mpr (by omega : 2 ^ 1 ≤ v))
      exact Nat.exists_eq_succ_of_ne_zero hne
    obtain ⟨f, hf⟩ := hlog
    rw [Codec.uvarint, hf, Codec.uvarintGo, if_neg hv] at h
    have hbyte := congrArg UInt8.toNat (List.cons.inj h).1
    rw [hnat _ (by omega), hnat n (by omega)] at hbyte
    omega

/-- The bytes of a key: the word's length, and its first seven. -/
def keyBytes (w : List UInt8) : List UInt8 := UInt8.ofNat w.length :: w.take 7

theorem keyHead_toNat (hw : w.length < 128) : (keyHead w).toNat = word (keyBytes w) := by
  -- byte after byte, each above those before it
  have hgo : ∀ (l : List UInt8) (k : Nat) (acc : UInt64), k + l.length ≤ 7 →
      acc.toNat < 256 ^ (k + 1) →
      ((l.zipIdx k).foldl
        (fun head bi => head ||| (bi.1.toUInt64 <<< UInt64.ofNat (8 * (bi.2 + 1)))) acc).toNat =
        acc.toNat + 256 ^ (k + 1) * word l := by
    intro l
    induction l with
    | nil => intro k acc _ _; simp [word]
    | cons b l ih =>
      intro k acc hk hacc
      rw [List.length_cons] at hk
      have hb := b.toNat_lt
      have hpow : (256 : Nat) ^ (k + 1) = 2 ^ (8 * (k + 1)) := by rw [Nat.pow_mul]
      have hmul : 256 ^ (k + 1) * 256 ≤ 256 ^ 8 := by
        rw [← Nat.pow_succ]
        exact Nat.pow_le_pow_right (by omega) (by omega)
      have hshift : (b.toUInt64 <<< UInt64.ofNat (8 * (k + 1))).toNat = b.toNat <<< (8 * (k + 1)) := by
        have hmod : (UInt64.ofNat (8 * (k + 1))).toNat % 64 = 8 * (k + 1) := by
          rw [UInt64.toNat_ofNat', Nat.mod_eq_of_lt (by omega), Nat.mod_eq_of_lt (by omega)]
        have hlt : b.toNat * 256 ^ (k + 1) < 2 ^ 64 := by
          have hle : b.toNat * 256 ^ (k + 1) ≤ 255 * 256 ^ (k + 1) :=
            Nat.mul_le_mul_right _ (by omega)
          have hpos : 0 < 256 ^ (k + 1) := Nat.pow_pos (by omega)
          have h8 : (256 : Nat) ^ 8 = 2 ^ 64 := by norm_num
          omega
        rw [UInt64.toNat_shiftLeft, UInt8.toNat_toUInt64, hmod, Nat.shiftLeft_eq, ← hpow,
          Nat.mod_eq_of_lt hlt]
      have hstep : (acc ||| (b.toUInt64 <<< UInt64.ofNat (8 * (k + 1)))).toNat =
          acc.toNat + b.toNat * 256 ^ (k + 1) := by
        rw [UInt64.toNat_or, hshift, hpow]
        exact or_shiftLeft (hpow ▸ hacc) _
      rw [List.zipIdx_cons, List.foldl_cons, ih (k + 1) _ (by omega), hstep, word]
      · rw [Nat.pow_succ 256 (k + 1)]
        ring
      · rw [hstep, Nat.pow_succ 256 (k + 1)]
        have hle : b.toNat * 256 ^ (k + 1) ≤ 255 * 256 ^ (k + 1) :=
          Nat.mul_le_mul_right _ (by omega)
        omega
  have hlen : (UInt64.ofNat w.length &&& 0x7f).toNat = w.length := by
    rw [UInt64.toNat_and, UInt64.toNat_ofNat', Nat.mod_eq_of_lt (by omega)]
    exact (Nat.and_two_pow_sub_one_eq_mod w.length 7).trans (Nat.mod_eq_of_lt hw)
  have hnat : (UInt8.ofNat w.length).toNat = w.length := by
    rw [UInt8.toNat_ofNat', Nat.mod_eq_of_lt (by omega)]
  rw [keyHead, hgo (w.take 7) 0 _ (by rw [List.length_take]; omega) (by rw [hlen]; omega), hlen,
    keyBytes, word, hnat, Nat.zero_add, Nat.pow_one]

theorem keyMask_toNat (w : List UInt8) : (keyMask w).toNat = 256 ^ (min w.length 7 + 1) - 1 := by
  unfold keyMask
  by_cases hw : 7 ≤ w.length
  · rw [if_pos hw, Nat.min_eq_right hw]
    decide
  · rw [if_neg hw, Nat.min_eq_left (by omega)]
    generalize w.length = n at hw
    interval_cases n <;> decide

/-- **Words alike under a mask** are alike in its bytes. -/
theorem masked_eq {x y m : UInt64} {k : Nat} (hm : m.toNat = 256 ^ k - 1) (hy : y.toNat < 256 ^ k) :
    (x ^^^ y) &&& m = 0 ↔ x.toNat % 256 ^ k = y.toNat := by
  have hpow : (256 : Nat) ^ k = 2 ^ (8 * k) := by rw [Nat.pow_mul]
  rw [← UInt64.toNat_inj, UInt64.toNat_and, UInt64.toNat_xor, hm, hpow,
    Nat.and_two_pow_sub_one_eq_mod, Nat.xor_mod_two_pow]
  rw [hpow] at hy
  rw [Nat.mod_eq_of_lt hy]
  have hzero : (0 : UInt64).toNat = 0 := rfl
  rw [hzero]
  exact Nat.xor_eq_zero_iff

theorem length_keyBytes (w : List UInt8) : (keyBytes w).length = min w.length 7 + 1 := by
  rw [keyBytes, List.length_cons, List.length_take, Nat.min_comm]

/-- The bytes a word of the length looked for has there. -/
theorem take_stored (hw : w.length < 128) (hlen : w'.length = w.length) (r : List UInt8) :
    (stored w' ++ r).take (min w.length 7 + 1) = keyBytes w' := by
  rw [stored, hlen, uvarint_short hw, keyBytes, hlen, List.singleton_append, List.cons_append,
    List.take_succ_cons]
  rcases Nat.le_total w.length 7 with h7 | h7
  · rw [Nat.min_eq_left h7, ← hlen, List.take_left, List.take_of_length_le (by omega)]
  · rw [Nat.min_eq_right h7, List.take_append_of_le_length (by omega)]

/-- **`is_at` compares the words.** -/
theorem isAt_eq (h : StoredAt bs at_ w') : isAt w bs at_ = decide (w' = w) := by
  have hword := wordAt_stored h
  obtain ⟨r, hr⟩ := h
  unfold isAt
  dsimp only
  by_cases hshort : w.length < 0x80 ∧ ((bs.drop at_).take 8).length = 8
  · rw [if_pos hshort]
    obtain ⟨hw, hchunk⟩ := hshort
    have hhead := keyHead_toNat hw
    have hlt : (keyHead w).toNat < 256 ^ (min w.length 7 + 1) := by
      rw [hhead, ← length_keyBytes]
      exact word_lt _
    have hmin : min w.length 7 + 1 ≤ 8 := by omega
    -- the first bytes are compared at once
    have hfirst : (UInt64.ofNat (word ((bs.drop at_).take 8)) ^^^ keyHead w) &&& keyMask w = 0 ↔
        (stored w' ++ r).take (min w.length 7 + 1) = keyBytes w := by
      rw [masked_eq (keyMask_toNat w) hlt, word_toNat hchunk, hhead, word_mod, List.take_take,
        Nat.min_eq_left hmin, hr]
      constructor
      · refine word_inj ?_
        rw [length_keyBytes, List.length_take]
        rw [List.length_take] at hchunk
        omega
      · exact congrArg word
    have hrest : w'.length = w.length → 7 < w.length →
        slice bs (at_ + 8) (at_ + 1 + w.length) = some (w'.drop 7) := by
      intro hlen h7
      have hsplit : bs.drop at_ = (UInt8.ofNat w'.length :: w'.take 7) ++ w'.drop 7 ++ r := by
        rw [← hr, stored, uvarint_short (hlen ▸ hw), List.singleton_append, List.cons_append,
          List.cons_append, List.cons_append, List.take_append_drop]
      refine slice_append (by rw [List.length_cons]; omega) hsplit ?_ ?_
      · rw [List.length_cons, List.length_take]
        omega
      · rw [List.length_drop]
        omega
    rw [Bool.eq_iff_iff, decide_eq_true_eq, Bool.and_eq_true, beq_iff_eq, hfirst, Bool.or_eq_true,
      decide_eq_true_eq, beq_iff_eq]
    constructor
    · rintro ⟨hbytes, hlong⟩
      have hone := congrArg (List.take 1) hbytes
      rw [List.take_take, Nat.min_eq_left (by omega), stored, List.append_assoc] at hone
      have hlen := uvarint_head hw hone
      rw [take_stored hw hlen, keyBytes, keyBytes] at hbytes
      have htake := (List.cons.inj hbytes).2
      rcases hlong with h7 | hlong
      · rwa [List.take_of_length_le (by omega), List.take_of_length_le (by omega)] at htake
      · by_cases h7 : w.length ≤ 7
        · rwa [List.take_of_length_le (by omega), List.take_of_length_le (by omega)] at htake
        · rw [hrest hlen (by omega)] at hlong
          rw [← List.take_append_drop 7 w', htake, Option.some.inj hlong, List.take_append_drop]
    · rintro rfl
      refine ⟨take_stored hw rfl r, ?_⟩
      by_cases h7 : w'.length ≤ 7
      · exact Or.inl h7
      · exact Or.inr (hrest rfl (by omega))
  · rw [if_neg hshort, hword]
    exact beq_eq_decide w' w

/-- What is appended leaves what lies there. -/
theorem StoredAt.append (h : StoredAt bs at_ w) (r : List UInt8) : StoredAt (bs ++ r) at_ w := by
  have hle : at_ ≤ bs.length := by
    have hlen := h.length_le
    have hpos := uvarint_pos w.length
    rw [stored, List.length_append, List.length_drop] at hlen
    omega
  rw [StoredAt, List.drop_append_of_le_length hle]
  exact h.trans (List.prefix_append _ _)

/-- A word appended lies at the end. -/
theorem storedAt_end (bs w r : List UInt8) : StoredAt (bs ++ stored w ++ r) bs.length w := by
  rw [StoredAt, List.append_assoc, List.drop_left]
  exact List.prefix_append _ _

end Arena

/-! ## 2. The documents of a word -/

/-- `u32::max`. -/
def maxOf (a b : UInt32) : UInt32 := if b < a then a else b

theorem le_maxOf (a b : UInt32) : a ≤ maxOf a b ∧ b ≤ maxOf a b := by
  unfold maxOf
  by_cases h : b < a
  · rw [if_pos h]
    exact ⟨UInt32.le_refl a, UInt32.le_of_lt h⟩
  · rw [if_neg h]
    exact ⟨UInt32.not_lt.mp h, UInt32.le_refl b⟩

/-- `Postings`: a term's documents as a walk reads them. -/
structure Postings where
  docs : List DocId
  tfs : List UInt32
  maxTf : UInt32
deriving DecidableEq

/-- `One`: a term one document holds. -/
structure One where
  at_ : Nat
  tf : UInt32
  doc : DocId

/-- `List`: the documents of a term more than one holds. -/
structure TermList where
  docs : List DocId
  tfs : List UInt32
  maxTf : UInt32
  at_ : Nat

/-- `List::default`. -/
def TermList.default : TermList := ⟨[], [], 0, 0⟩

/-- `List::view`. -/
def TermList.view (l : TermList) : Postings := ⟨l.docs, l.tfs, l.maxTf⟩

/-- A count counted up, as far as 32 bits go. -/
def TermList.countAt (l : TermList) (i : Nat) : TermList :=
  match l.tfs[i]? with
  | some tf => { l with tfs := l.tfs.set i (tf + 1), maxTf := maxOf l.maxTf (tf + 1) }
  | none => l

/-- `List::bump_held`. -/
def TermList.bumpHeld (l : TermList) (doc : DocId) : TermList :=
  match Chunked.search compare l.docs doc with
  | .ok at_ => l.countAt at_
  | .error at_ =>
    { l with docs := l.docs.insertIdx at_ doc, tfs := l.tfs.insertIdx at_ 0 }.countAt at_

/-- **`List::bump`**. -/
def TermList.bump (l : TermList) (doc : DocId) : TermList :=
  match l.docs.getLast? with
  | some last =>
    if last < doc then
      { l with docs := l.docs ++ [doc], tfs := l.tfs ++ [1], maxTf := maxOf l.maxTf 1 }
    else if last = doc then l.countAt (l.tfs.length - 1)
    else l.bumpHeld doc
  | none => l.bumpHeld doc

/-- **`List::drop_doc`**. -/
def TermList.dropDoc (l : TermList) (doc : DocId) : TermList :=
  match Chunked.search compare l.docs doc with
  | .ok at_ => { l with docs := l.docs.eraseIdx at_, tfs := l.tfs.eraseIdx at_ }
  | .error _ => l

/-- **Postings that stand for a map** of documents to counts, each counted and at most `maxTf`. -/
structure Tally (p : Postings) (m : OrdMap UInt32) : Prop where
  docs : p.docs = m.keys
  tfs : p.tfs = m.entries.map (·.2)
  counted : ∀ e ∈ m.entries, e.2 ≠ 0
  ceiling : ∀ e ∈ m.entries, e.2 ≤ p.maxTf

section Tallies

variable {l : TermList} {m : OrdMap UInt32} {doc : DocId}

/-- How often a document is counted. -/
def count (m : OrdMap UInt32) (doc : DocId) : UInt32 := (m.get doc).getD 0

/-- A count put where it is counted up. -/
theorem tally_countAt {A B : List (Nat × UInt32)} {n : UInt32} (hn : n + 1 ≠ 0)
    (hdocs : l.docs = (A ++ (doc, n) :: B).map (·.1))
    (htfs : l.tfs = (A ++ (doc, n) :: B).map (·.2))
    (hm : (m.insert doc (n + 1)).entries = A ++ (doc, n + 1) :: B)
    (hrest : ∀ e ∈ A ++ B, e.2 ≠ 0 ∧ e.2 ≤ l.maxTf) :
    Tally (l.countAt A.length).view (m.insert doc (n + 1)) := by
  have hget : l.tfs[A.length]? = some n := by
    rw [htfs, List.map_append, List.map_cons,
      List.getElem?_append_right (by rw [List.length_map]), List.length_map, Nat.sub_self]
    rfl
  unfold TermList.countAt
  rw [hget]
  have hcases : ∀ e ∈ (m.insert doc (n + 1)).entries, e = (doc, n + 1) ∨ e ∈ A ++ B := by
    intro e he
    rw [hm, List.mem_append, List.mem_cons] at he
    rw [List.mem_append]
    rcases he with he | rfl | he
    · exact Or.inr (Or.inl he)
    · exact Or.inl rfl
    · exact Or.inr (Or.inr he)
  refine ⟨?_, ?_, fun e he => ?_, fun e he => ?_⟩
  · rw [OrdMap.keys, hm]
    exact hdocs.trans (by rw [List.map_append, List.map_append]; rfl)
  · have hlen : A.length = (A.map (·.2)).length := (List.length_map _).symm
    rw [hm, TermList.view, htfs, List.map_append, List.map_append, hlen]
    exact Chunked.set_middle
  · rcases hcases e he with rfl | he
    · exact hn
    · exact (hrest e he).1
  · rcases hcases e he with rfl | he
    · exact (le_maxOf _ _).2
    · exact UInt32.le_trans (hrest e he).2 (le_maxOf _ _).1

/-- Where an order puts a document, or has it, it is counted up. -/
theorem tally_bumpHeld (h : Tally l.view m) (hn : count m doc + 1 ≠ 0) :
    Tally (l.bumpHeld doc).view (m.insert doc (count m doc + 1)) := by
  have hdocs : l.docs = m.keys := h.docs
  have htfs : l.tfs = m.entries.map (·.2) := h.tfs
  have hall : ∀ e ∈ m.entries, e.2 ≠ 0 ∧ e.2 ≤ l.maxTf := fun e he =>
    ⟨h.counted e he, h.ceiling e he⟩
  unfold TermList.bumpHeld
  rw [hdocs]
  rcases Chunked.search_keys m doc with ⟨A, n, B, hentries, hsearch, hA, -⟩ |
      ⟨A, B, hentries, hsearch, hA, hB⟩
  · have hcount : count m doc = n := by
      have hmem : (doc, n) ∈ m.entries := by rw [hentries]; simp
      rw [count, OrdMap.mem_entries_iff.mp hmem, Option.getD_some]
    have hput : (m.insert doc (n + 1)).entries = A ++ (doc, n + 1) :: B :=
      (congrArg _ hentries).trans (OrdMap.insertEntry_over hA)
    rw [hcount] at hn ⊢
    rw [hsearch]
    refine tally_countAt hn (by rw [hdocs, OrdMap.keys, hentries]) (by rw [htfs, hentries]) hput
      fun e he => hall e ?_
    rw [hentries]
    exact List.mem_append.mpr ((List.mem_append.mp he).imp_right (List.mem_cons_of_mem _))
  · have hnone : m.get doc = none := by
      by_contra hsome
      obtain ⟨n, hn⟩ := Option.ne_none_iff_exists'.mp hsome
      have hmem := OrdMap.mem_entries_iff.mpr hn
      rw [hentries] at hmem
      rcases List.mem_append.mp hmem with hmem | hmem
      · exact Nat.lt_irrefl _ (hA _ hmem)
      · exact Nat.lt_irrefl _ (hB _ hmem)
    have hcount : count m doc = 0 := by rw [count, hnone, Option.getD_none]
    have hput : (m.insert doc (0 + 1)).entries = A ++ (doc, 0 + 1) :: B :=
      (congrArg _ hentries).trans (OrdMap.insertEntry_between hA hB)
    rw [hcount] at hn ⊢
    rw [hsearch]
    refine tally_countAt hn ?_ ?_ hput fun e he => hall e (by rwa [hentries])
    · have hlen : A.length = (A.map (·.1)).length := (List.length_map _).symm
      dsimp only
      rw [OrdMap.keys, hentries, List.map_append, List.map_append, hlen]
      exact Chunked.insertIdx_at
    · have hlen : A.length = (A.map (·.2)).length := (List.length_map _).symm
      dsimp only
      rw [htfs, hentries, List.map_append, List.map_append, hlen]
      exact Chunked.insertIdx_at

/-- **A document counted up** is counted up in the map. -/
theorem tally_bump (h : Tally l.view m) (hn : count m doc + 1 ≠ 0) :
    Tally (l.bump doc).view (m.insert doc (count m doc + 1)) := by
  have hdocs : l.docs = m.keys := h.docs
  have htfs : l.tfs = m.entries.map (·.2) := h.tfs
  have hheld := tally_bumpHeld h hn
  unfold TermList.bump
  cases hlast : l.docs.getLast? with
  | none => exact hheld
  | some last =>
    dsimp only
    obtain ⟨ids, hids⟩ : ∃ ids, l.docs = ids ++ [last] := List.getLast?_eq_some_iff.mp hlast
    rw [hdocs] at hids
    obtain ⟨A, B, hentries, hA, hB⟩ := List.map_eq_append_iff.mp hids
    obtain ⟨⟨e, n⟩, rfl, rfl⟩ := List.map_eq_singleton_iff.mp hB
    have hasc := m.ascending
    rw [hentries] at hasc
    have hbefore : ∀ a ∈ A, a.1 < e := fun a ha =>
      (List.pairwise_append.mp hasc).2.2 a ha _ List.mem_cons_self
    by_cases hpast : e < doc
    · rw [if_pos hpast]
      have hall : ∀ a ∈ m.entries, a.1 < doc := by
        intro a ha
        rw [hentries] at ha
        rcases List.mem_append.mp ha with ha | ha
        · exact Nat.lt_trans (hbefore a ha) hpast
        · rw [List.mem_singleton.mp ha]
          exact hpast
      have hnone : m.get doc = none := by
        by_contra hsome
        obtain ⟨n, hn⟩ := Option.ne_none_iff_exists'.mp hsome
        exact Nat.lt_irrefl _ (hall _ (OrdMap.mem_entries_iff.mpr hn))
      have hcount : count m doc = 0 := by rw [count, hnone, Option.getD_none]
      have hput : (m.insert doc 1).entries = m.entries ++ [(doc, 1)] := by
        have hend := OrdMap.insertEntry_between (v := (1 : UInt32)) (B := []) hall nofun
        rw [List.append_nil] at hend
        exact hend
      have hone : count m doc + 1 = 1 := by rw [hcount]; rfl
      rw [hone]
      refine ⟨?_, ?_, fun a ha => ?_, fun a ha => ?_⟩
      · rw [OrdMap.keys, hput, List.map_append, ← OrdMap.keys, ← hdocs]
        rfl
      · rw [hput, List.map_append, ← htfs]
        rfl
      · rw [hput] at ha
        rcases List.mem_append.mp ha with ha | ha
        · exact h.counted a ha
        · rw [List.mem_singleton.mp ha]
          exact (by decide : (1 : UInt32) ≠ 0)
      · rw [hput] at ha
        rcases List.mem_append.mp ha with ha | ha
        · exact UInt32.le_trans (h.ceiling a ha) (le_maxOf _ _).1
        · rw [List.mem_singleton.mp ha]
          exact (le_maxOf _ _).2
    · rw [if_neg hpast]
      by_cases hsame : e = doc
      · subst hsame
        rw [if_pos rfl]
        have hmem : (e, n) ∈ m.entries := by rw [hentries]; simp
        have hcount : count m e = n := by
          rw [count, OrdMap.mem_entries_iff.mp hmem, Option.getD_some]
        have hat : l.tfs.length - 1 = A.length := by
          rw [htfs, hentries, List.map_append, List.length_append, List.length_map]
          rfl
        rw [hcount] at hn ⊢
        rw [hat]
        refine tally_countAt hn (by rw [hdocs, OrdMap.keys, hentries]) (by rw [htfs, hentries])
          ((congrArg _ hentries).trans (OrdMap.insertEntry_over hbefore)) fun a ha => ?_
        rw [List.append_nil] at ha
        have ha' : a ∈ m.entries := by rw [hentries]; exact List.mem_append_left _ ha
        exact ⟨h.counted a ha', h.ceiling a ha'⟩
      · rw [if_neg hsame]
        exact hheld

/-- **A document dropped** is one taken out of the map. -/
theorem tally_dropDoc (h : Tally l.view m) : Tally (l.dropDoc doc).view (m.erase doc) := by
  have hdocs : l.docs = m.keys := h.docs
  have htfs : l.tfs = m.entries.map (·.2) := h.tfs
  have hkept : ∀ e ∈ (m.erase doc).entries, e ∈ m.entries := fun e he =>
    (List.mem_filter.mp he).1
  unfold TermList.dropDoc
  rw [hdocs]
  rcases Chunked.search_erase m doc with ⟨i, hsearch, hkeys, hvalues⟩ | ⟨i, hsearch, hsame⟩
  · rw [hsearch]
    refine ⟨?_, ?_, fun e he => h.counted e (hkept e he), fun e he => h.ceiling e (hkept e he)⟩
    · rw [hkeys]
      rfl
    · rw [hvalues, ← htfs]
      rfl
  · rw [hsearch, hsame]
    exact h

theorem Tally.length {p : Postings} (h : Tally p m) : p.docs.length = m.entries.length := by
  rw [h.docs, OrdMap.keys, List.length_map]

/-- The postings of one document. -/
theorem tally_one {d : DocId} {n : UInt32} :
    Tally ⟨[d], [n], n⟩ m ↔ m.entries = [(d, n)] ∧ n ≠ 0 := by
  constructor
  · intro h
    have hdocs : m.entries.map (·.1) = [d] := h.docs.symm
    have htfs : m.entries.map (·.2) = [n] := h.tfs.symm
    obtain ⟨e, hm⟩ := List.length_eq_one_iff.mp ((List.length_map _).symm.trans
      (congrArg List.length hdocs))
    rw [hm] at hdocs htfs
    obtain ⟨k, v⟩ := e
    obtain rfl : k = d := (List.cons.inj hdocs).1
    obtain rfl : v = n := (List.cons.inj htfs).1
    exact ⟨hm, h.counted _ (by rw [hm]; exact List.mem_cons_self)⟩
  · rintro ⟨hm, hn⟩
    refine ⟨by rw [OrdMap.keys, hm]; rfl, by rw [hm]; rfl, fun e he => ?_, fun e he => ?_⟩
    · rw [hm] at he
      rw [List.mem_singleton.mp he]
      exact hn
    · rw [hm] at he
      rw [List.mem_singleton.mp he]
      exact UInt32.le_refl n

theorem countAt_at (l : TermList) (i : Nat) : (l.countAt i).at_ = l.at_ := by
  unfold TermList.countAt
  cases l.tfs[i]? <;> rfl

/-- Counting moves no word. -/
theorem bump_at (l : TermList) (doc : DocId) : (l.bump doc).at_ = l.at_ := by
  have hheld : (l.bumpHeld doc).at_ = l.at_ := by
    unfold TermList.bumpHeld
    split
    · exact countAt_at l _
    · exact countAt_at _ _
  unfold TermList.bump
  split
  · split
    · rfl
    · split
      · exact countAt_at l _
      · exact hheld
  · exact hheld

theorem dropDoc_at (l : TermList) (doc : DocId) : (l.dropDoc doc).at_ = l.at_ := by
  unfold TermList.dropDoc
  split <;> rfl

/-- A document more or the same. -/
theorem length_insert (m : OrdMap UInt32) (doc : DocId) (n : UInt32) :
    (m.insert doc n).entries.length = m.entries.length + if m.get doc = none then 1 else 0 := by
  by_cases hget : m.get doc = none
  · rw [(OrdMap.insert_perm hget).length_eq, if_pos hget, List.length_cons]
  · obtain ⟨w, hw⟩ := Option.ne_none_iff_exists'.mp hget
    obtain ⟨A, B, hcut⟩ := List.append_of_mem (OrdMap.mem_entries_iff.mpr hw)
    have hasc := m.ascending
    rw [hcut] at hasc
    have hbefore : ∀ e ∈ A, e.1 < doc := fun e he =>
      (List.pairwise_append.mp hasc).2.2 e he _ List.mem_cons_self
    have hentries : (m.insert doc n).entries = A ++ (doc, n) :: B :=
      (congrArg _ hcut).trans (OrdMap.insertEntry_over hbefore)
    rw [hentries, hcut, if_neg hget, List.length_append, List.length_append]
    rfl

end Tallies

end Fenec.Text
