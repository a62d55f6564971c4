/-
# The bytes of a word at once

Eight bytes read as one word, the first the lowest (`word`).  A byte that is zero leaves a bit at
the top of its own in `zeroBytes`; what else leaves one is a false hit, and never a byte whose top
bit is set.  The bits of a word are taken in turn from the lowest (`trailingZeros`), each cleared
when it was looked at (`dropLowest`).
-/
import Mathlib.Data.Nat.Bitwise
import Mathlib.Tactic.IntervalCases

namespace Fenec.Lib.Swar

/-! ## 1. Bytes of a word -/

/-- Bytes as one number, the first the lowest. -/
def word : List UInt8 → Nat
  | [] => 0
  | b :: bs => b.toNat + 256 * word bs

theorem word_lt (bs : List UInt8) : word bs < 256 ^ bs.length := by
  induction bs with
  | nil => exact Nat.one_pos
  | cons b bs ih =>
    have hb := b.toNat_lt
    rw [word, List.length_cons, Nat.pow_succ]
    omega

/-- One of the bytes. -/
theorem word_byte : ∀ (bs : List UInt8) (k : Nat), word bs / 256 ^ k % 256 = (bs.getD k 0).toNat
  | [], k => by simp [word]
  | b :: bs, 0 => by
    have hb := b.toNat_lt
    rw [word, Nat.pow_zero, Nat.div_one, List.getD_cons_zero]
    omega
  | b :: bs, k + 1 => by
    have hb := b.toNat_lt
    have hdiv : word (b :: bs) / 256 = word bs := by
      rw [word]
      omega
    rw [List.getD_cons_succ, Nat.pow_succ, Nat.mul_comm, ← Nat.div_div_eq_div_mul, hdiv]
    exact word_byte bs k

/-- The first bytes are the low ones. -/
theorem word_mod : ∀ (bs : List UInt8) (k : Nat), word bs % 256 ^ k = word (bs.take k)
  | bs, 0 => by rw [Nat.pow_zero, Nat.mod_one, List.take_zero, word]
  | [], k + 1 => by rw [List.take_nil, word, Nat.zero_mod]
  | b :: bs, k + 1 => by
    have hb := b.toNat_lt
    rw [List.take_succ_cons, word, word, ← word_mod bs k, Nat.pow_succ, Nat.mul_comm (256 ^ k),
      Nat.mod_mul]
    have hmod : (b.toNat + 256 * word bs) % 256 = b.toNat := by omega
    have hdiv : (b.toNat + 256 * word bs) / 256 = word bs := by omega
    rw [hmod, hdiv]

/-- Bytes of one length are told by their word. -/
theorem word_inj : ∀ {as bs : List UInt8}, as.length = bs.length → word as = word bs → as = bs
  | [], [], _, _ => rfl
  | a :: as, b :: bs, hlen, h => by
    have ha := a.toNat_lt
    have hb := b.toNat_lt
    rw [word, word] at h
    have hhead : a = b := UInt8.toNat_inj.mp (by omega)
    have htail : word as = word bs := by omega
    rw [hhead, word_inj (Nat.succ.inj hlen) htail]

/-! ## 2. Zero bytes -/

/-- A one in every byte. -/
def LO : UInt64 := 0x0101010101010101

/-- The top bit of every byte. -/
def HI : UInt64 := 0x8080808080808080

/-- A bit at the top of every byte that is zero. -/
def zeroBytes (x : UInt64) : UInt64 := (x - LO) &&& ~~~x &&& HI

theorem testBit_HI {i : Nat} : HI.toNat.testBit i = true ↔ i < 64 ∧ i % 8 = 7 := by
  have hall : (List.range 64).all (fun i => HI.toNat.testBit i == decide (i % 8 = 7)) = true := by
    decide
  have hlow : ∀ i < 64, HI.toNat.testBit i = decide (i % 8 = 7) := fun i hi =>
    beq_iff_eq.mp (List.all_eq_true.mp hall i (List.mem_range.mpr hi))
  by_cases hi : i < 64
  · rw [hlow i hi, decide_eq_true_eq]
    exact ⟨fun h => ⟨hi, h⟩, And.right⟩
  · have hbig : HI.toNat < 2 ^ i :=
      Nat.lt_of_lt_of_le HI.toNat_lt (Nat.pow_le_pow_right Nat.two_pos (by omega))
    rw [Nat.testBit_lt_two_pow hbig]
    exact iff_of_false Bool.false_ne_true fun h => hi h.1

theorem testBit_not (x : UInt64) {i : Nat} (hi : i < 64) :
    (~~~x).toNat.testBit i = !x.toNat.testBit i := by
  rw [UInt64.toNat_not]
  have hx := x.toNat_lt
  have heq : UInt64.size - 1 - x.toNat = 2 ^ 64 - (x.toNat + 1) := by
    have hsize : UInt64.size = 2 ^ 64 := rfl
    omega
  rw [heq, Nat.testBit_two_pow_sub_succ hx]
  simp [hi]

/-- What leaves a bit leaves it at the top of a byte whose own top bit is not set. -/
theorem of_testBit_zeroBytes {x : UInt64} {i : Nat} (h : (zeroBytes x).toNat.testBit i = true) :
    i < 64 ∧ i % 8 = 7 ∧ x.toNat.testBit i = false := by
  unfold zeroBytes at h
  rw [UInt64.toNat_and, Nat.testBit_and, Bool.and_eq_true, UInt64.toNat_and, Nat.testBit_and,
    Bool.and_eq_true] at h
  obtain ⟨hi, hmod⟩ := testBit_HI.mp h.2
  have hnot := h.1.2
  rw [testBit_not x hi] at hnot
  exact ⟨hi, hmod, by simpa using hnot⟩

/-- **A byte that is zero leaves its bit.** -/
theorem testBit_zeroBytes {x : UInt64} {k : Nat} (hk : k < 8)
    (hz : x.toNat / 256 ^ k % 256 = 0) : (zeroBytes x).toNat.testBit (8 * k + 7) = true := by
  unfold zeroBytes
  rw [UInt64.toNat_and, Nat.testBit_and, Bool.and_eq_true, UInt64.toNat_and, Nat.testBit_and,
    Bool.and_eq_true]
  have hx := x.toNat_lt
  refine ⟨⟨?_, ?_⟩, testBit_HI.mpr ⟨by omega, by omega⟩⟩
  · -- taking one from a zero byte borrows, whatever was borrowed from it
    have hsub : (x - LO).toNat = (2 ^ 64 - 0x0101010101010101 + x.toNat) % 2 ^ 64 :=
      UInt64.toNat_sub x LO
    rw [hsub, Nat.testBit_eq_decide_div_mod_eq, decide_eq_true_eq]
    generalize x.toNat = n at hz hx ⊢
    interval_cases k <;> omega
  · rw [testBit_not x (by omega), Nat.testBit_eq_decide_div_mod_eq]
    generalize x.toNat = n at hz ⊢
    have hbit : n / 2 ^ (8 * k + 7) % 2 = 0 := by
      interval_cases k <;> omega
    rw [hbit]
    rfl

/-! ## 3. The bits of a word in turn -/

/-- `trailing_zeros`: the lowest bit set. -/
def trailingZeros (x : UInt64) : Nat := ((List.range 64).find? x.toNat.testBit).getD 64

/-- The word without its lowest bit. -/
def dropLowest (x : UInt64) : UInt64 := x &&& (x - 1)

theorem trailingZeros_spec {x : UInt64} (hx : x ≠ 0) :
    trailingZeros x < 64 ∧ x.toNat.testBit (trailingZeros x) = true ∧
      ∀ i < trailingZeros x, x.toNat.testBit i = false := by
  unfold trailingZeros
  cases hfind : (List.range 64).find? x.toNat.testBit with
  | none =>
    have hzero : x.toNat = 0 := by
      apply Nat.zero_of_testBit_eq_false
      intro i
      by_cases hi : i < 64
      · simpa using List.find?_eq_none.mp hfind i (List.mem_range.mpr hi)
      · exact Nat.testBit_lt_two_pow (Nat.lt_of_lt_of_le x.toNat_lt
          (Nat.pow_le_pow_right Nat.two_pos (by omega)))
    exact absurd (UInt64.toNat_inj.mp hzero) hx
  | some t =>
    obtain ⟨hbit, ht, hlow⟩ := List.find?_range_eq_some.mp hfind
    exact ⟨List.mem_range.mp ht, hbit, fun i hi => by simpa using hlow i hi⟩

theorem pred_div {n m : Nat} (hm : 0 < m) (h : n % m ≠ 0) : (n - 1) / m = n / m := by
  have hdiv := Nat.div_add_mod n m
  have hmod := Nat.mod_lt n hm
  have heq : n - 1 = m * (n / m) + (n % m - 1) := by omega
  have hsmall : (n % m - 1) / m = 0 := Nat.div_eq_of_lt (by omega)
  calc (n - 1) / m = (m * (n / m) + (n % m - 1)) / m := by rw [← heq]
    _ = n / m + (n % m - 1) / m := Nat.mul_add_div hm _ _
    _ = n / m := by rw [hsmall, Nat.add_zero]

theorem pred_div_of_dvd {n m : Nat} (hn : 0 < n) (hm : 0 < m) (h : n % m = 0) :
    (n - 1) / m = n / m - 1 := by
  obtain ⟨q, rfl⟩ := Nat.dvd_of_mod_eq_zero h
  obtain ⟨q, rfl⟩ := Nat.exists_eq_succ_of_ne_zero (Nat.pos_of_mul_pos_left hn).ne'
  have heq : m * (q + 1) - 1 = m * q + (m - 1) := by
    rw [Nat.mul_succ]
    omega
  rw [Nat.succ_eq_add_one, heq, Nat.mul_add_div hm, Nat.mul_div_cancel_left _ hm,
    Nat.div_eq_of_lt (by omega)]
  omega

/-- Only the lowest bit goes. -/
theorem testBit_dropLowest {x : UInt64} (hx : x ≠ 0) (i : Nat) :
    (dropLowest x).toNat.testBit i = (x.toNat.testBit i && decide (trailingZeros x < i)) := by
  obtain ⟨-, hbit, hlow⟩ := trailingZeros_spec hx
  generalize trailingZeros x = t at hbit hlow
  have hpos : 0 < x.toNat := by
    rw [Nat.pos_iff_ne_zero]
    intro hz
    rw [hz, Nat.zero_testBit] at hbit
    cases hbit
  have hsub : (x - 1).toNat = x.toNat - 1 := by
    rw [UInt64.toNat_sub_of_le x 1 (UInt64.le_iff_toNat_le.mpr hpos)]
    rfl
  -- the word is an odd number of its lowest bits
  have hmod : x.toNat % 2 ^ t = 0 := by
    apply Nat.zero_of_testBit_eq_false
    intro i
    rw [Nat.testBit_mod_two_pow]
    by_cases hi : i < t
    · rw [hlow i hi, Bool.and_false]
    · rw [decide_eq_false hi, Bool.false_and]
  have hodd : x.toNat / 2 ^ t % 2 = 1 := by
    rw [Nat.testBit_eq_decide_div_mod_eq, decide_eq_true_eq] at hbit
    exact hbit
  unfold dropLowest
  rw [UInt64.toNat_and, Nat.testBit_and, hsub]
  rcases Nat.lt_trichotomy i t with hi | rfl | hi
  · rw [hlow i hi, Bool.false_and, Bool.false_and]
  · have hone : (x.toNat - 1).testBit i = false := by
      rw [Nat.testBit_eq_decide_div_mod_eq, pred_div_of_dvd hpos (Nat.two_pow_pos i) hmod,
        decide_eq_false_iff_not]
      omega
    rw [hone, Bool.and_false, decide_eq_false (Nat.lt_irrefl i), Bool.and_false]
  · have hrest : x.toNat % 2 ^ i ≠ 0 := by
      intro hz
      have hlost := Nat.testBit_mod_two_pow x.toNat i t
      rw [hz, Nat.zero_testBit, decide_eq_true hi, hbit] at hlost
      cases hlost
    have hsame : (x.toNat - 1).testBit i = x.toNat.testBit i := by
      rw [Nat.testBit_eq_decide_div_mod_eq, Nat.testBit_eq_decide_div_mod_eq,
        pred_div (Nat.two_pow_pos i) hrest]
    rw [hsame, Bool.and_self, decide_eq_true hi, Bool.and_true]

/-! ## 4. Bytes matched -/

/-- A byte in every byte. -/
theorem spread_byte (b : UInt8) {k : Nat} (hk : k < 8) :
    (0x0101010101010101 * b.toNat) / 256 ^ k % 256 = b.toNat := by
  have hspread : 0x0101010101010101 * b.toNat = word (List.replicate 8 b) := by
    simp only [List.replicate, word]
    omega
  rw [hspread, word_byte, List.getD_eq_getElem _ _ (by simpa using hk), List.getElem_replicate]

/-- A byte of two words' difference. -/
theorem xor_byte (a b k : Nat) :
    (a ^^^ b) / 256 ^ k % 256 = (a / 256 ^ k % 256) ^^^ (b / 256 ^ k % 256) := by
  have hpow : 256 ^ k = 2 ^ (8 * k) := by rw [Nat.pow_mul]
  have hbyte : (256 : Nat) = 2 ^ 8 := rfl
  rw [hpow, hbyte, Nat.xor_div_two_pow, Nat.xor_mod_two_pow]

/-- A word's bit is one of its byte's. -/
theorem testBit_byte (n k : Nat) {j : Nat} (hj : j < 8) :
    n.testBit (8 * k + j) = (n / 256 ^ k % 256).testBit j := by
  have hpow : 256 ^ k = 2 ^ (8 * k) := by rw [Nat.pow_mul]
  have hbyte : (256 : Nat) = 2 ^ 8 := rfl
  rw [hpow, hbyte, Nat.testBit_mod_two_pow, decide_eq_true hj, Bool.true_and,
    Nat.testBit_div_two_pow, Nat.add_comm]

/-- The top bit of a byte. -/
theorem testBit_top (b : UInt8) : b.toNat.testBit 7 = decide (0x80 ≤ b) := by
  have hb := b.toNat_lt
  have htop : (0x80 : UInt8).toNat = 128 := rfl
  rw [Nat.testBit_eq_decide_div_mod_eq, decide_eq_decide, UInt8.le_iff_toNat_le, htop]
  omega

section Matched

variable {bs : List UInt8} {b : UInt8} {k : Nat}

/-- Eight bytes as a machine word. -/
theorem word_toNat (hlen : bs.length = 8) : (UInt64.ofNat (word bs)).toNat = word bs := by
  have hlt := word_lt bs
  rw [hlen] at hlt
  rw [UInt64.toNat_ofNat', Nat.mod_eq_of_lt (by omega)]

/-- A byte of eight, and its top bit. -/
theorem testBit_word (hlen : bs.length = 8) :
    (UInt64.ofNat (word bs)).toNat.testBit (8 * k + 7) = decide (0x80 ≤ bs.getD k 0) := by
  rw [word_toNat hlen, testBit_byte _ k (by omega), word_byte, testBit_top]

/-- A byte of eight against another byte. -/
theorem differ_byte (hlen : bs.length = 8) (hk : k < 8) :
    (UInt64.ofNat (word bs) ^^^ (LO * b.toUInt64)).toNat / 256 ^ k % 256 =
      (bs.getD k 0).toNat ^^^ b.toNat := by
  have hb := b.toNat_lt
  have hspread : (LO * b.toUInt64).toNat = 0x0101010101010101 * b.toNat := by
    rw [UInt64.toNat_mul, UInt8.toNat_toUInt64]
    exact Nat.mod_eq_of_lt (by
      have hlo : LO.toNat = 0x0101010101010101 := rfl
      rw [hlo]
      omega)
  rw [UInt64.toNat_xor, hspread, xor_byte, word_toNat hlen, word_byte, spread_byte b hk]

/-- **Where a byte of eight matches** one below the top bit, it leaves its bit. -/
theorem matched (hlen : bs.length = 8) (hk : k < 8) (hb : bs.getD k 0 = b) :
    (zeroBytes (UInt64.ofNat (word bs) ^^^ (LO * b.toUInt64))).toNat.testBit (8 * k + 7) =
      true := by
  refine testBit_zeroBytes hk ?_
  rw [differ_byte hlen hk, hb, Nat.xor_self]

/-- **What leaves a bit is below the top bit**, matched or not. -/
theorem of_matched (hlen : bs.length = 8) (hb : b < 0x80) {i : Nat}
    (h : (zeroBytes (UInt64.ofNat (word bs) ^^^ (LO * b.toUInt64))).toNat.testBit i = true) :
    i / 8 < 8 ∧ bs.getD (i / 8) 0 < 0x80 := by
  obtain ⟨hi, hmod, hbit⟩ := of_testBit_zeroBytes h
  have hk : i / 8 < 8 := by omega
  have heq : i = 8 * (i / 8) + 7 := by omega
  rw [heq, testBit_byte _ _ (by omega), differ_byte hlen hk, Nat.testBit_xor, testBit_top,
    testBit_top, decide_eq_false (UInt8.not_le.mpr hb), Bool.xor_false,
    decide_eq_false_iff_not] at hbit
  exact ⟨hk, UInt8.not_le.mp hbit⟩

/-- **The first byte of eight with the top bit set.** -/
theorem first_high (hlen : bs.length = 8) (h : UInt64.ofNat (word bs) &&& HI ≠ 0) :
    ∃ k, trailingZeros (UInt64.ofNat (word bs) &&& HI) / 8 = k ∧ k < 8 ∧ 0x80 ≤ bs.getD k 0 ∧
      ∀ j < k, bs.getD j 0 < 0x80 := by
  obtain ⟨hlt, hbit, hlow⟩ := trailingZeros_spec h
  refine ⟨_, rfl, by omega, ?_, fun j hj => ?_⟩
  · rw [UInt64.toNat_and, Nat.testBit_and, Bool.and_eq_true] at hbit
    obtain ⟨-, hmod⟩ := testBit_HI.mp hbit.2
    have heq : ∀ i, i % 8 = 7 → i = 8 * (i / 8) + 7 := by omega
    rw [heq _ hmod, testBit_word hlen, decide_eq_true_eq] at hbit
    exact hbit.1
  · have hj' := hlow (8 * j + 7) (by omega)
    have htop : HI.toNat.testBit (8 * j + 7) = true := testBit_HI.mpr ⟨by omega, by omega⟩
    rw [UInt64.toNat_and, Nat.testBit_and, htop, Bool.and_true, testBit_word hlen,
      decide_eq_false_iff_not] at hj'
    exact UInt8.not_le.mp hj'

/-- None has it set. -/
theorem none_high (hlen : bs.length = 8) (h : UInt64.ofNat (word bs) &&& HI = 0) (hk : k < 8) :
    bs.getD k 0 < 0x80 := by
  have hz : (UInt64.ofNat (word bs) &&& HI).toNat.testBit (8 * k + 7) = false := by
    rw [h]
    exact Nat.zero_testBit _
  have htop : HI.toNat.testBit (8 * k + 7) = true := testBit_HI.mpr ⟨by omega, by omega⟩
  rw [UInt64.toNat_and, Nat.testBit_and, htop, Bool.and_true, testBit_word hlen,
    decide_eq_false_iff_not] at hz
  exact UInt8.not_le.mp hz

end Matched

end Fenec.Lib.Swar
