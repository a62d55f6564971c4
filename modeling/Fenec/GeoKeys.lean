/-
# A point's key

The point index keeps a row's point as 64 bits: its longitude and its latitude, each cut to 32 bits,
interleaved.  `spread` and `squash` move bits to every second place and back, by doubling steps;
each step is said of blocks of bits (`Blocks`), so what either does to a bit follows
(`testBit_spread`, `testBit_squash`), and a key is its two coordinates (`squash_interleave`).

A cell of the quadtree is the keys whose coordinates start with given bits, which is one range
(`mem_cellKeys`): at level 0 all keys, at level 32 a single one.
-/
import Mathlib.Data.List.Nodup
import Mathlib.Data.Nat.Bitwise
import Mathlib.Data.Nat.Log

namespace Fenec.Geo

/-! ## 1. Bits spread and squashed -/

/-- `spread`: the bits of 32 moved to every second place, the lowest at 0. -/
def spread (x : Nat) : Nat :=
  let v := (x ||| x <<< 16) &&& 0x0000FFFF0000FFFF
  let v := (v ||| v <<< 8) &&& 0x00FF00FF00FF00FF
  let v := (v ||| v <<< 4) &&& 0x0F0F0F0F0F0F0F0F
  let v := (v ||| v <<< 2) &&& 0x3333333333333333
  (v ||| v <<< 1) &&& 0x5555555555555555

/-- `squash`: every second bit, from bit 0. -/
def squash (v : Nat) : Nat :=
  let v := v &&& 0x5555555555555555
  let v := (v ||| v >>> 1) &&& 0x3333333333333333
  let v := (v ||| v >>> 2) &&& 0x0F0F0F0F0F0F0F0F
  let v := (v ||| v >>> 4) &&& 0x00FF00FF00FF00FF
  let v := (v ||| v >>> 8) &&& 0x0000FFFF0000FFFF
  (v ||| v >>> 16) &&& 0x00000000FFFFFFFF

/-- The bits of `β` in blocks of `s`, as many zeros after each. -/
def Blocks (s : Nat) (β : Nat → Bool) (v : Nat) : Prop :=
  ∀ i, v.testBit i = (decide (i % (2 * s) < s) && β (i / (2 * s) * s + i % (2 * s)))

/-- A mask of blocks of `s` ones and `s` zeros, in 64 bits. -/
def Mask (s mask : Nat) : Prop := mask < 2 ^ 64 ∧ ∀ i < 64, mask.testBit i = decide (i % (2 * s) < s)

/-- The block sizes the steps go through. -/
def Size (s : Nat) : Prop := s = 1 ∨ s = 2 ∨ s = 4 ∨ s = 8 ∨ s = 16

variable {s v mask i : Nat} {β : Nat → Bool}

theorem Mask.bit (h : Mask s mask) (i : Nat) :
    mask.testBit i = (decide (i < 64) && decide (i % (2 * s) < s)) := by
  by_cases hi : i < 64
  · rw [h.2 i hi, decide_eq_true hi, Bool.true_and]
  · have hpow : mask < 2 ^ i :=
      Nat.lt_of_lt_of_le h.1 (Nat.pow_le_pow_right (by omega) (Nat.le_of_not_lt hi))
    rw [Nat.testBit_lt_two_pow hpow, decide_eq_false hi, Bool.false_and]

theorem mask1 : Mask 1 0x5555555555555555 := ⟨by decide, by decide⟩
theorem mask2 : Mask 2 0x3333333333333333 := ⟨by decide, by decide⟩
theorem mask4 : Mask 4 0x0F0F0F0F0F0F0F0F := ⟨by decide, by decide⟩
theorem mask8 : Mask 8 0x00FF00FF00FF00FF := ⟨by decide, by decide⟩
theorem mask16 : Mask 16 0x0000FFFF0000FFFF := ⟨by decide, by decide⟩
theorem mask32 : Mask 32 0x00000000FFFFFFFF := ⟨by decide, by decide⟩

/-- Past 64 bits the blocks hold nothing. -/
theorem block_past (hs : Size s ∨ s = 32) (hβ : ∀ j, 32 ≤ j → β j = false) (hi : 64 ≤ i) :
    β (i / (2 * s) * s + i % (2 * s)) = false := by
  refine hβ _ ?_
  rcases hs with (rfl | rfl | rfl | rfl | rfl) | rfl <;> omega

/-- **A step of `spread`**: blocks of `2s` become blocks of `s`. -/
theorem Blocks.halve (h : Blocks (2 * s) β v) (hs : Size s) (hm : Mask s mask)
    (hβ : ∀ j, 32 ≤ j → β j = false) : Blocks s β ((v ||| v <<< s) &&& mask) := by
  intro i
  rw [Nat.testBit_and, Nat.testBit_or, Nat.testBit_shiftLeft, hm.bit, h i, h (i - s)]
  by_cases h64 : i < 64
  · by_cases hlow : i % (2 * s) < s
    · by_cases hfirst : i % (2 * (2 * s)) < 2 * s
      · -- the bit stays, and what comes from below is a zero
        have hzero : ¬ (s ≤ i ∧ (i - s) % (2 * (2 * s)) < 2 * s) := by
          rcases hs with rfl | rfl | rfl | rfl | rfl <;> omega
        have hplace : i / (2 * (2 * s)) * (2 * s) + i % (2 * (2 * s)) =
            i / (2 * s) * s + i % (2 * s) := by
          rcases hs with rfl | rfl | rfl | rfl | rfl <;> omega
        rw [hplace, decide_eq_true hfirst, decide_eq_true h64, decide_eq_true hlow]
        by_cases hsi : s ≤ i
        · have hnot : ¬ (i - s) % (2 * (2 * s)) < 2 * s := fun hlt => hzero ⟨hsi, hlt⟩
          rw [decide_eq_false hnot]
          simp
        · simp [hsi]
      · -- the bit comes from below
        have hsi : s ≤ i := by rcases hs with rfl | rfl | rfl | rfl | rfl <;> omega
        have hone : (i - s) % (2 * (2 * s)) < 2 * s := by
          rcases hs with rfl | rfl | rfl | rfl | rfl <;> omega
        have hplace : (i - s) / (2 * (2 * s)) * (2 * s) + (i - s) % (2 * (2 * s)) =
            i / (2 * s) * s + i % (2 * s) := by
          rcases hs with rfl | rfl | rfl | rfl | rfl <;> omega
        rw [hplace, decide_eq_false hfirst, decide_eq_true hone, decide_eq_true h64,
          decide_eq_true hlow, decide_eq_true hsi]
        simp
    · simp [hlow]
  · rw [block_past (.inl hs) hβ (Nat.le_of_not_lt h64), decide_eq_false h64]
    simp

/-- **A step of `squash`**: blocks of `s` become blocks of `2s`. -/
theorem Blocks.double (h : Blocks s β v) (hs : Size s) (hm : Mask (2 * s) mask)
    (hβ : ∀ j, 32 ≤ j → β j = false) : Blocks (2 * s) β ((v ||| v >>> s) &&& mask) := by
  intro i
  rw [Nat.testBit_and, Nat.testBit_or, Nat.testBit_shiftRight, hm.bit, h i, h (s + i)]
  by_cases h64 : i < 64
  · by_cases hlow : i % (2 * (2 * s)) < 2 * s
    · by_cases hfirst : i % (2 * s) < s
      · have hzero : ¬ (s + i) % (2 * s) < s := by
          rcases hs with rfl | rfl | rfl | rfl | rfl <;> omega
        have hplace : i / (2 * s) * s + i % (2 * s) =
            i / (2 * (2 * s)) * (2 * s) + i % (2 * (2 * s)) := by
          rcases hs with rfl | rfl | rfl | rfl | rfl <;> omega
        rw [hplace, decide_eq_true hfirst, decide_eq_true h64, decide_eq_true hlow,
          decide_eq_false hzero]
        simp
      · have hone : (s + i) % (2 * s) < s := by
          rcases hs with rfl | rfl | rfl | rfl | rfl <;> omega
        have hplace : (s + i) / (2 * s) * s + (s + i) % (2 * s) =
            i / (2 * (2 * s)) * (2 * s) + i % (2 * (2 * s)) := by
          rcases hs with rfl | rfl | rfl | rfl | rfl <;> omega
        rw [hplace, decide_eq_false hfirst, decide_eq_true h64, decide_eq_true hlow,
          decide_eq_true hone]
        simp
    · simp [hlow]
  · have hsize : Size (2 * s) ∨ 2 * s = 32 := by
      rcases hs with rfl | rfl | rfl | rfl | rfl <;> simp [Size]
    rw [block_past hsize hβ (Nat.le_of_not_lt h64), decide_eq_false h64]
    simp

/-- **`spread` puts bit `i` at `2i`**, zeros between. -/
theorem testBit_spread {x : Nat} (hx : x < 2 ^ 32) (i : Nat) :
    (spread x).testBit i = (decide (i % 2 = 0) && x.testBit (i / 2)) := by
  have hβ : ∀ j, 32 ≤ j → x.testBit j = false := fun j hj =>
    Nat.testBit_lt_two_pow (Nat.lt_of_lt_of_le hx (Nat.pow_le_pow_right (by omega) hj))
  have h32 : Blocks 32 (fun j => x.testBit j) x := by
    intro i
    by_cases hi : i < 32
    · have hmod : i % 64 = i := Nat.mod_eq_of_lt (by omega)
      have hdiv : i / 64 = 0 := by omega
      simp [hmod, hdiv, hi]
    · rw [hβ i (Nat.le_of_not_lt hi)]
      by_cases hmod : i % (2 * 32) < 32
      · have hplace : 32 ≤ i / (2 * 32) * 32 + i % (2 * 32) := by omega
        simp [hβ _ hplace]
      · simp [hmod]
  have h1 : Blocks 1 (fun j => x.testBit j) (spread x) :=
    ((((Blocks.halve (s := 16) h32 (by simp [Size]) mask16 hβ).halve (s := 8) (by simp [Size])
      mask8 hβ).halve (s := 4) (by simp [Size]) mask4 hβ).halve (s := 2) (by simp [Size])
      mask2 hβ).halve (s := 1) (by simp [Size]) mask1 hβ
  rw [h1 i]
  have hiff : i % (2 * 1) < 1 ↔ i % 2 = 0 := by omega
  by_cases hi : i % 2 = 0
  · have hplace : i / (2 * 1) * 1 + i % (2 * 1) = i / 2 := by omega
    simp [hi]
  · simp [hiff, hi]

/-- **`squash` takes bit `2i` to bit `i`.** -/
theorem testBit_squash (v i : Nat) :
    (squash v).testBit i = (decide (i < 32) && v.testBit (2 * i)) := by
  have hβ : ∀ j, 32 ≤ j → (decide (j < 32) && v.testBit (2 * j)) = false := fun j hj => by
    rw [decide_eq_false (Nat.not_lt.mpr hj), Bool.false_and]
  have h1 : Blocks 1 (fun j => decide (j < 32) && v.testBit (2 * j))
      (v &&& 0x5555555555555555) := by
    intro i
    rw [Nat.testBit_and, mask1.bit]
    have hiff : i % (2 * 1) < 1 ↔ i % 2 = 0 := by omega
    have h64 : i < 64 ↔ i / 2 < 32 := by omega
    by_cases hi : i % 2 = 0
    · have hplace : 2 * (i / 2) = i := by omega
      simp [hi, h64, hplace, Bool.and_comm]
    · simp [hi]
  have h32 : Blocks 32 (fun j => decide (j < 32) && v.testBit (2 * j)) (squash v) :=
    ((((h1.double (s := 1) (by simp [Size]) mask2 hβ).double (s := 2) (by simp [Size])
      mask4 hβ).double (s := 4) (by simp [Size]) mask8 hβ).double (s := 8) (by simp [Size])
      mask16 hβ).double (s := 16) (by simp [Size]) mask32 hβ
  rw [h32 i]
  by_cases hi : i < 32
  · have hmod : i % 64 = i := Nat.mod_eq_of_lt (by omega)
    have hdiv : i / 64 = 0 := by omega
    simp [hmod, hdiv, hi]
  · by_cases hmod : i % (2 * 32) < 32
    · have hplace : ¬ i / (2 * 32) * 32 + i % (2 * 32) < 32 := by omega
      simp [hi, hplace]
    · simp [hi, hmod]

/-- **`squash` undoes `spread`.** -/
theorem squash_spread {x : Nat} (hx : x < 2 ^ 32) : squash (spread x) = x := by
  refine Nat.eq_of_testBit_eq fun i => ?_
  rw [testBit_squash, testBit_spread hx]
  by_cases hi : i < 32
  · simp [hi]
  · have hbit : x.testBit i = false :=
      Nat.testBit_lt_two_pow (Nat.lt_of_lt_of_le hx (Nat.pow_le_pow_right (by omega) (by omega)))
    simp [hi, hbit]

/-! ## 2. Two coordinates in one key -/

/-- A key of two coordinates: the first's bits in the odd places, the second's in the even ones. -/
def interleave (x y : Nat) : Nat := spread x <<< 1 ||| spread y

variable {x y k level cx cy : Nat}

theorem testBit_interleave (hx : x < 2 ^ 32) (hy : y < 2 ^ 32) (i : Nat) :
    (interleave x y).testBit i =
      if i % 2 = 0 then y.testBit (i / 2) else x.testBit (i / 2) := by
  unfold interleave
  rw [Nat.testBit_or, Nat.testBit_shiftLeft, testBit_spread hx, testBit_spread hy]
  by_cases hi : i % 2 = 0
  · have hodd : ¬ (1 ≤ i ∧ (i - 1) % 2 = 0) := by omega
    rw [if_pos hi, decide_eq_true hi, Bool.true_and]
    by_cases h1 : 1 ≤ i
    · rw [decide_eq_false (fun h0 => hodd ⟨h1, h0⟩), Bool.false_and, Bool.and_false, Bool.false_or]
    · rw [decide_eq_false h1, Bool.false_and, Bool.false_or]
  · have h1 : 1 ≤ i := by omega
    have heven : (i - 1) % 2 = 0 := by omega
    have hplace : (i - 1) / 2 = i / 2 := by omega
    rw [if_neg hi, decide_eq_false hi, decide_eq_true h1, decide_eq_true heven, hplace]
    simp

theorem interleave_lt (hx : x < 2 ^ 32) (hy : y < 2 ^ 32) : interleave x y < 2 ^ 64 := by
  refine Nat.lt_pow_two_of_testBit _ fun i hi => ?_
  have hpast : ∀ {v : Nat}, v < 2 ^ 32 → v.testBit (i / 2) = false := fun hv =>
    Nat.testBit_lt_two_pow (Nat.lt_of_lt_of_le hv (Nat.pow_le_pow_right (by omega) (by omega)))
  rw [testBit_interleave hx hy, hpast hx, hpast hy, ite_self]

theorem squash_lt (v : Nat) : squash v < 2 ^ 32 := by
  refine Nat.lt_pow_two_of_testBit _ fun i hi => ?_
  rw [testBit_squash, decide_eq_false (Nat.not_lt.mpr hi), Bool.false_and]

/-- **A key is its two coordinates.** -/
theorem squash_interleave (hx : x < 2 ^ 32) (hy : y < 2 ^ 32) :
    squash (interleave x y >>> 1) = x ∧ squash (interleave x y) = y := by
  have hpast : ∀ {v i : Nat}, v < 2 ^ 32 → ¬ i < 32 → v.testBit i = false := fun hv hi =>
    Nat.testBit_lt_two_pow (Nat.lt_of_lt_of_le hv (Nat.pow_le_pow_right (by omega) (by omega)))
  constructor
  · refine Nat.eq_of_testBit_eq fun i => ?_
    have hodd : ¬ (1 + 2 * i) % 2 = 0 := by omega
    have hplace : (1 + 2 * i) / 2 = i := by omega
    rw [testBit_squash, Nat.testBit_shiftRight, testBit_interleave hx hy, if_neg hodd, hplace]
    by_cases hi : i < 32
    · rw [decide_eq_true hi, Bool.true_and]
    · rw [decide_eq_false hi, Bool.false_and, hpast hx hi]
  · refine Nat.eq_of_testBit_eq fun i => ?_
    have heven : 2 * i % 2 = 0 := by omega
    have hplace : 2 * i / 2 = i := by omega
    rw [testBit_squash, testBit_interleave hx hy, if_pos heven, hplace]
    by_cases hi : i < 32
    · rw [decide_eq_true hi, Bool.true_and]
    · rw [decide_eq_false hi, Bool.false_and, hpast hy hi]

/-- Every key is that of its coordinates. -/
theorem interleave_squash (hk : k < 2 ^ 64) : interleave (squash (k >>> 1)) (squash k) = k := by
  refine Nat.eq_of_testBit_eq fun i => ?_
  rw [testBit_interleave (squash_lt _) (squash_lt _), testBit_squash, testBit_squash,
    Nat.testBit_shiftRight]
  by_cases hi : i < 64
  · rw [decide_eq_true (by omega : i / 2 < 32), Bool.true_and, Bool.true_and]
    by_cases heven : i % 2 = 0
    · rw [if_pos heven, show 2 * (i / 2) = i by omega]
    · rw [if_neg heven, show 1 + 2 * (i / 2) = i by omega]
  · rw [decide_eq_false (by omega : ¬ i / 2 < 32), Bool.false_and, Bool.false_and, ite_self]
    exact (Nat.testBit_lt_two_pow
      (Nat.lt_of_lt_of_le hk (Nat.pow_le_pow_right (by omega) (by omega)))).symm

/-- Two places off a key are one off each coordinate. -/
theorem squash_shiftRight (hk : k < 2 ^ 64) (j : Nat) : squash (k >>> (2 * j)) = squash k >>> j := by
  refine Nat.eq_of_testBit_eq fun i => ?_
  rw [testBit_squash, Nat.testBit_shiftRight, Nat.testBit_shiftRight, testBit_squash,
    show 2 * j + 2 * i = 2 * (j + i) by omega]
  by_cases hji : j + i < 32
  · rw [decide_eq_true hji, decide_eq_true (by omega : i < 32)]
  · have hpast : k.testBit (2 * (j + i)) = false := Nat.testBit_lt_two_pow
      (Nat.lt_of_lt_of_le hk (Nat.pow_le_pow_right (by omega) (by omega)))
    rw [hpast, Bool.and_false, Bool.and_false]

/-! ## 3. Cells -/

/-- `cell_keys`: the first and last key of the cell `(cx, cy)` at a level from 0 to 32. -/
def cellKeys (level cx cy : Nat) : Nat × Nat :=
  if level = 0 then (0, 2 ^ 64 - 1)
  else
    let z := spread cx <<< 1 ||| spread cy
    let below := 2 * (32 - level)
    if below = 0 then (z, z)
    else
      let lo := z <<< below
      (lo, lo ||| (1 <<< below - 1))

/-- The cell a key is in: its coordinates' leading bits. -/
def cellOf (level k : Nat) : Nat × Nat :=
  (squash (k >>> 1) >>> (32 - level), squash k >>> (32 - level))

/-- A key's leading bits are a number when the key is in a range. -/
theorem shiftRight_eq_iff {z b : Nat} :
    k >>> b = z ↔ z <<< b ≤ k ∧ k ≤ z <<< b ||| (1 <<< b - 1) := by
  have hpos : 0 < 2 ^ b := Nat.two_pow_pos b
  have hlow : 1 <<< b - 1 < 2 ^ b := by
    rw [Nat.one_shiftLeft]
    omega
  rw [← Nat.shiftLeft_add_eq_or_of_lt hlow, Nat.shiftLeft_eq, Nat.one_shiftLeft,
    Nat.shiftRight_eq_div_pow, Nat.div_eq_iff hpos]
  have hlast : z * 2 ^ b + 2 ^ b - 1 = z * 2 ^ b + (2 ^ b - 1) := Nat.add_sub_assoc hpos _
  rw [hlast]

/-- **A cell is a range of keys**: those whose coordinates start with the cell's bits. -/
theorem mem_cellKeys (hlevel : level ≤ 32) (hcx : cx < 2 ^ level) (hcy : cy < 2 ^ level)
    (hk : k < 2 ^ 64) :
    (cellKeys level cx cy).1 ≤ k ∧ k ≤ (cellKeys level cx cy).2 ↔ cellOf level k = (cx, cy) := by
  have hmost : 2 ^ level ≤ 2 ^ 32 := Nat.pow_le_pow_right (by omega) hlevel
  have hx : cx < 2 ^ 32 := Nat.lt_of_lt_of_le hcx hmost
  have hy : cy < 2 ^ 32 := Nat.lt_of_lt_of_le hcy hmost
  have hcell : cellOf level k = (cx, cy) ↔ k >>> (2 * (32 - level)) = interleave cx cy := by
    have hk1 : k >>> 1 < 2 ^ 64 := Nat.lt_of_le_of_lt (Nat.shiftRight_le k 1) hk
    have hlead : k >>> (2 * (32 - level)) < 2 ^ 64 :=
      Nat.lt_of_le_of_lt (Nat.shiftRight_le k _) hk
    unfold cellOf
    rw [← squash_shiftRight hk, ← squash_shiftRight hk1, ← Nat.shiftRight_add, Nat.add_comm 1,
      Nat.shiftRight_add]
    constructor
    · intro h
      obtain ⟨rfl, rfl⟩ := Prod.mk.inj h
      exact (interleave_squash hlead).symm
    · intro h
      rw [h, (squash_interleave hx hy).1, (squash_interleave hx hy).2]
  rw [hcell]
  unfold cellKeys
  by_cases h0 : level = 0
  · subst h0
    obtain rfl : cx = 0 := Nat.lt_one_iff.mp hcx
    obtain rfl : cy = 0 := Nat.lt_one_iff.mp hcy
    have hnone : k >>> (2 * (32 - 0)) = 0 := by
      rw [Nat.shiftRight_eq_div_pow]
      exact Nat.div_eq_of_lt hk
    rw [if_pos rfl, hnone]
    exact ⟨fun _ => rfl, fun _ => ⟨Nat.zero_le _, Nat.le_sub_one_of_lt hk⟩⟩
  · rw [if_neg h0]
    dsimp only
    by_cases hb : 2 * (32 - level) = 0
    · rw [if_pos hb, hb, Nat.shiftRight_zero]
      exact ⟨fun h => le_antisymm h.2 h.1, fun h => ⟨le_of_eq h.symm, le_of_eq h⟩⟩
    · rw [if_neg hb]
      exact shiftRight_eq_iff.symm

/-- The leading bits of a coordinate. -/
theorem leading_lt (hlevel : level ≤ 32) (hx : x < 2 ^ 32) : x >>> (32 - level) < 2 ^ level := by
  rw [Nat.shiftRight_eq_div_pow, Nat.div_lt_iff_lt_mul (Nat.two_pow_pos _), ← Nat.pow_add,
    Nat.add_sub_cancel' hlevel]
  exact hx

/-- A key's cell is one of its level. -/
theorem cellOf_lt (hlevel : level ≤ 32) (k : Nat) :
    (cellOf level k).1 < 2 ^ level ∧ (cellOf level k).2 < 2 ^ level :=
  ⟨leading_lt hlevel (squash_lt _), leading_lt hlevel (squash_lt _)⟩

/-! ## 4. Rectangles and their covers -/

/-- `Rect`: a rectangle of keys' coordinates, its edges included. -/
structure Rect where
  x0 : UInt32
  x1 : UInt32
  y0 : UInt32
  y1 : UInt32

/-- `Rect::holds`: whether a key's coordinates are inside. -/
def Rect.holds (r : Rect) (key : Nat) : Bool :=
  let x := squash (key >>> 1)
  let y := squash key
  decide (r.x0.toNat ≤ x) && decide (x ≤ r.x1.toNat) && decide (r.y0.toNat ≤ y) &&
    decide (y ≤ r.y1.toNat)

/-- `MOST_CELLS`. -/
def mostCells : UInt64 := 32

/-- How many cells of a level a rectangle spans, in the word's arithmetic. -/
def Rect.span (r : Rect) (level : Nat) : UInt64 :=
  let s := UInt64.ofNat (32 - level)
  let nx := (r.x1.toUInt64 >>> s) - (r.x0.toUInt64 >>> s) + 1
  let ny := (r.y1.toUInt64 >>> s) - (r.y0.toUInt64 >>> s) + 1
  nx * ny

/-- The finest level, from one on, at which a rectangle spans no more than `mostCells`. -/
def Rect.finest (r : Rect) (level : Nat) : Nat :=
  if level < 32 ∧ r.span (level + 1) ≤ mostCells then r.finest (level + 1) else level
termination_by 32 - level

/-- `a..=b`. -/
def inclusive (a b : Nat) : List Nat := List.range' a (b + 1 - a)

/-- The cells of a level that a rectangle meets, row by row. -/
def Rect.cellsAt (r : Rect) (level : Nat) : List (Nat × Nat) :=
  let top := fun v : UInt32 => v.toNat >>> (32 - level)
  (inclusive (top r.y0) (top r.y1)).flatMap fun cy =>
    (inclusive (top r.x0) (top r.x1)).map fun cx => (cx, cy)

/-- **`cover`**: the ranges of keys of the cells covering a rectangle. -/
def cover (r : Rect) : List (Nat × Nat) :=
  (r.cellsAt (r.finest 0)).map fun c => cellKeys (r.finest 0) c.1 c.2

variable {r : Rect} {a b : Nat}

theorem mem_inclusive {v : Nat} : v ∈ inclusive a b ↔ a ≤ v ∧ v ≤ b := by
  unfold inclusive
  rw [List.mem_range'_1]
  omega

theorem mem_cellsAt {c : Nat × Nat} : c ∈ r.cellsAt level ↔
    (r.x0.toNat >>> (32 - level) ≤ c.1 ∧ c.1 ≤ r.x1.toNat >>> (32 - level)) ∧
      (r.y0.toNat >>> (32 - level) ≤ c.2 ∧ c.2 ≤ r.y1.toNat >>> (32 - level)) := by
  unfold Rect.cellsAt
  simp only [List.mem_flatMap, List.mem_map, mem_inclusive]
  constructor
  · rintro ⟨cy, hy, cx, hx, rfl⟩
    exact ⟨hx, hy⟩
  · rintro ⟨hx, hy⟩
    exact ⟨c.2, hy, c.1, hx, rfl⟩

theorem nodup_cellsAt : (r.cellsAt level).Nodup := by
  unfold Rect.cellsAt
  refine List.nodup_flatMap.mpr ⟨fun cy _ => ?_, ?_⟩
  · exact List.Nodup.map (fun _ _ h => (Prod.mk.inj h).1) List.nodup_range'
  · have hrows : (inclusive (r.y0.toNat >>> (32 - level)) (r.y1.toNat >>> (32 - level))).Nodup :=
      List.nodup_range'
    refine List.Pairwise.imp_of_mem ?_ hrows
    intro cy cy' _ _ hne c hc hc'
    obtain ⟨cx, -, rfl⟩ := List.mem_map.mp hc
    obtain ⟨cx', -, heq⟩ := List.mem_map.mp hc'
    exact hne (Prod.mk.inj heq).2.symm

theorem finest_le (h : level ≤ 32) : r.finest level ≤ 32 := by
  induction level using Rect.finest.induct r with
  | case1 level hmore ih =>
    rw [Rect.finest, if_pos hmore]
    exact ih hmore.1
  | case2 level hstop =>
    rw [Rect.finest, if_neg hstop]
    exact h

/-- **The cells of a cover contain every key of the rectangle.** -/
theorem cellOf_mem (h : r.holds k = true) : cellOf level k ∈ r.cellsAt level := by
  unfold Rect.holds at h
  simp only [Bool.and_eq_true, decide_eq_true_eq] at h
  obtain ⟨⟨⟨hx0, hx1⟩, hy0⟩, hy1⟩ := h
  have hmono : ∀ {v w : Nat}, v ≤ w → v >>> (32 - level) ≤ w >>> (32 - level) := fun hvw => by
    rw [Nat.shiftRight_eq_div_pow, Nat.shiftRight_eq_div_pow]
    exact Nat.div_le_div_right hvw
  exact mem_cellsAt.mpr ⟨⟨hmono hx0, hmono hx1⟩, hmono hy0, hmono hy1⟩

theorem cell_lt_of_mem (hlevel : level ≤ 32) {c : Nat × Nat} (hc : c ∈ r.cellsAt level) :
    c.1 < 2 ^ level ∧ c.2 < 2 ^ level := by
  obtain ⟨⟨-, hx⟩, -, hy⟩ := mem_cellsAt.mp hc
  exact ⟨Nat.lt_of_le_of_lt hx (leading_lt hlevel r.x1.toNat_lt),
    Nat.lt_of_le_of_lt hy (leading_lt hlevel r.y1.toNat_lt)⟩

end Fenec.Geo
