/-
# The table of a text index's words

A shard of `Terms` finds a word's term through a table of slots, each a 64-bit word: half the hash
of its word (`tag`) above the place of the term (`slot`), zero where it is free, and beside it a
control byte of seven more bits of the hash (`h2`).  A slot is found from the home its tag gives,
the start of a group of eight, and eight control bytes are matched at once (`find`).

`Table.Holds` says what a table holds, as a list of its slots and control bytes in any order, and
that it is probed: from a slot's home on, nothing before it is free.  A probe ends and finds what is
held, or the first free slot from there (`Holds.find`); putting a slot there, changing its place,
taking it out and moving the slots after it back, and placing all anew in a table of another size
keep what is held.
-/
import Fenec.Lib.Loop
import Fenec.Lib.Places
import Fenec.Lib.Probe
import Fenec.Lib.Swar
import Fenec.Value

namespace Fenec.Text

open Lib Lib.Probe Lib.Swar

/-! ## 1. Slots -/

/-- `Hash`: what of a word's hash the table uses. -/
structure Hash where
  tag : UInt32
  h2 : UInt8
deriving DecidableEq

/-- `Hash::of`. -/
def Hash.of (wasm : Bool) (h : UInt64) : Hash :=
  if wasm then ⟨h.toUInt32, (h >>> 25).toUInt8 &&& 0x7f⟩
  else ⟨(h >>> 32).toUInt32, h.toUInt8 &&& 0x7f⟩

/-- `EMPTY`: the control byte of a free slot. -/
def EMPTY : UInt8 := 0x80

/-- `GROUP`: the control bytes matched at once. -/
def GROUP : Nat := 8

/-- `home`: the start of the group a slot is found from. -/
def home (v : UInt64) (mask : Nat) : Nat := (v >>> 32).toNat &&& mask &&& (2 ^ 64 - GROUP)

/-- `Place`: where a term is, in `ones` or in `lists`. -/
structure Place where
  i : Nat
  list : Bool
deriving DecidableEq

/-- `slot`. -/
def slot (tag : UInt32) (p : Place) : UInt64 :=
  (tag.toUInt64 <<< 32) |||
    (((UInt64.ofNat p.i <<< 1) ||| (if p.list then 1 else 0)) + 1)

/-- The tag a slot keeps. -/
def tagOf (v : UInt64) : UInt32 := (v >>> 32).toUInt32

/-- `place_of`. -/
def placeOf (v : UInt64) : Place :=
  let r := v.toUInt32 - 1
  ⟨(r >>> 1).toNat, r &&& 1 == 1⟩

/-- `fits`: at most three slots in four are taken. -/
def fits (n slots : Nat) : Bool := n * 4 ≤ slots * 3

/-- The places a slot has bits for. -/
def PLACES : Nat := 2 ^ 31 - 1

theorem slot_toNat (tag : UInt32) {p : Place} (hp : p.i < PLACES) :
    (slot tag p).toNat = tag.toNat * 2 ^ 32 + (2 * p.i + p.list.toNat + 1) := by
  unfold PLACES at hp
  have htag := tag.toNat_lt
  have hlist : (if p.list then (1 : UInt64) else 0).toNat = p.list.toNat := by
    cases p.list <;> rfl
  have hbit : p.list.toNat < 2 ^ 1 := by
    cases p.list <;> decide
  have hlow : (((UInt64.ofNat p.i <<< 1) ||| (if p.list then 1 else 0)) + 1).toNat =
      2 * p.i + p.list.toNat + 1 := by
    have hi : (UInt64.ofNat p.i <<< 1).toNat = p.i <<< 1 := by
      have hpi : (UInt64.ofNat p.i).toNat = p.i := by
        rw [UInt64.toNat_ofNat', Nat.mod_eq_of_lt (by omega)]
      have hone : (1 : UInt64).toNat % 64 = 1 := rfl
      rw [UInt64.toNat_shiftLeft, hpi, hone, Nat.shiftLeft_eq, Nat.mod_eq_of_lt (by omega)]
    rw [UInt64.toNat_add, UInt64.toNat_or, hi, hlist, ← Nat.shiftLeft_add_eq_or_of_lt hbit,
      Nat.shiftLeft_eq]
    have hone : (1 : UInt64).toNat = 1 := rfl
    rw [hone]
    omega
  have hhigh : (tag.toUInt64 <<< 32).toNat = tag.toNat <<< 32 := by
    rw [UInt64.toNat_shiftLeft, UInt32.toNat_toUInt64]
    have h32 : (32 : UInt64).toNat % 64 = 32 := rfl
    rw [h32, Nat.shiftLeft_eq, Nat.mod_eq_of_lt (by omega)]
  unfold slot
  rw [UInt64.toNat_or, hlow, hhigh, ← Nat.shiftLeft_add_eq_or_of_lt, Nat.shiftLeft_eq]
  omega

theorem tagOf_slot {tag : UInt32} {p : Place} (hp : p.i < PLACES) :
    tagOf (slot tag p) = tag := by
  have hslot := slot_toNat tag hp
  unfold PLACES at hp
  have htag := tag.toNat_lt
  have hbit : p.list.toNat ≤ 1 := Bool.toNat_le p.list
  apply UInt32.toNat_inj.mp
  unfold tagOf
  rw [UInt64.toNat_toUInt32, UInt64.toNat_shiftRight, hslot]
  have h32 : (32 : UInt64).toNat % 64 = 32 := rfl
  rw [h32, Nat.shiftRight_eq_div_pow]
  omega

theorem placeOf_slot {tag : UInt32} {p : Place} (hp : p.i < PLACES) :
    placeOf (slot tag p) = p := by
  have hslot := slot_toNat tag hp
  unfold PLACES at hp
  have hbit : p.list.toNat ≤ 1 := Bool.toNat_le p.list
  have hlow : (slot tag p).toUInt32.toNat = 2 * p.i + p.list.toNat + 1 := by
    rw [UInt64.toNat_toUInt32, hslot]
    omega
  have hr : ((slot tag p).toUInt32 - 1).toNat = 2 * p.i + p.list.toNat := by
    have hone : (1 : UInt32).toNat = 1 := rfl
    rw [UInt32.toNat_sub_of_le _ _ (UInt32.le_iff_toNat_le.mpr (by omega)), hlow, hone]
    omega
  have hi : (((slot tag p).toUInt32 - 1) >>> 1).toNat = p.i := by
    have hone : (1 : UInt32).toNat % 32 = 1 := rfl
    rw [UInt32.toNat_shiftRight, hr, hone, Nat.shiftRight_eq_div_pow]
    omega
  have hl : (((slot tag p).toUInt32 - 1) &&& 1 == 1) = p.list := by
    have hand : (((slot tag p).toUInt32 - 1) &&& 1).toNat = p.list.toNat := by
      have hone : (1 : UInt32).toNat = 1 := rfl
      rw [UInt32.toNat_and, hr, hone, Nat.and_one_is_mod]
      omega
    rw [Bool.eq_iff_iff, beq_iff_eq, ← UInt32.toNat_inj, hand]
    cases p.list <;> decide
  unfold placeOf
  dsimp only
  rw [hi, hl]

theorem slot_ne_zero {tag : UInt32} {p : Place} (hp : p.i < PLACES) : slot tag p ≠ 0 := by
  intro h
  have hslot := slot_toNat tag hp
  rw [h] at hslot
  have hz : (0 : UInt64).toNat = 0 := rfl
  omega

/-! ## 2. The table -/

/-- A shard's slots and their control bytes. -/
structure Table where
  slots : List UInt64
  ctrl : List UInt8

namespace Table

/-- A slot, zero past the end. -/
def slotAt (t : Table) (s : Nat) : UInt64 := t.slots.getD s 0

/-- A slot and its control byte put. -/
def put (t : Table) (s : Nat) (v : UInt64) (c : UInt8) : Table :=
  ⟨t.slots.set s v, t.ctrl.set s c⟩

/-- A table of free slots. -/
def free (n : Nat) : Table := ⟨List.replicate n 0, List.replicate n EMPTY⟩

/-- The hits of a group in turn, up to the first that is the word's. -/
def hitTurn (check : Nat → Bool) (g : Nat) (hit : UInt64) : Turn UInt64 (Option Nat) :=
  if hit = 0 then .done none
  else
    let s := g + trailingZeros hit / 8
    if check s then .done (some s) else .again (dropLowest hit)

/-- Whether a slot is the word's: its tag, and then its term's word. -/
def isWord (t : Table) (h : Hash) (same : Place → Bool) (s : Nat) : Bool :=
  tagOf (t.slotAt s) == h.tag && same (placeOf (t.slotAt s))

/-- A group of a probe. -/
def findTurn (t : Table) (h : Hash) (same : Place → Bool) (g : Nat) : Turn Nat (Except Nat Nat) :=
  let bytes := (t.ctrl.drop g).take GROUP
  if bytes.length < GROUP then .done (.error g)
  else
    let c := UInt64.ofNat (word bytes)
    let x := c ^^^ (LO * h.h2.toUInt64)
    match loop (hitTurn (t.isWord h same) g) 65 (zeroBytes x) with
    | none => .again g
    | some (some s) => .done (.ok s)
    | some none =>
      let empty := c &&& HI
      if empty ≠ 0 then .done (.error (g + trailingZeros empty / 8))
      else .again ((g + GROUP) &&& (t.slots.length - 1))

/-- **`find`**: the slot of the word, or the first free one from its home. -/
def find (t : Table) (h : Hash) (same : Place → Bool) : Option (Except Nat Nat) :=
  loop (t.findTurn h same) (t.slots.length + 1)
    (home (h.tag.toUInt64 <<< 32) (t.slots.length - 1))

/-- A slot of the way to a free one. -/
def placeTurn (t : Table) (s : Nat) : Turn Nat Nat :=
  if t.slotAt s ≠ 0 then .again ((s + 1) &&& (t.slots.length - 1)) else .done s

/-- **`place`**: a slot put where it is first free from its home. -/
def place (t : Table) (v : UInt64) (c : UInt8) : Option Table :=
  (loop t.placeTurn (t.slots.length + 1) (home v (t.slots.length - 1))).map fun s => t.put s v c

/-- `wrapping_sub`. -/
def wrappingSub (a b : Nat) : Nat := (a + 2 ^ 64 - b) % 2 ^ 64

/-- A slot past a hole: moved back into it where the hole is on its way from its home. -/
def closeTurn (s : Table × Nat × Nat) : Turn (Table × Nat × Nat) Table :=
  let (t, hole, j) := s
  let mask := t.slots.length - 1
  let j := (j + 1) &&& mask
  let v := t.slotAt j
  if v = 0 then .done (t.put hole 0 EMPTY)
  else if wrappingSub j hole &&& mask ≤ wrappingSub j (home v mask) &&& mask then
    .again (t.put hole v (t.ctrl.getD j 0), j, j)
  else .again (t, hole, j)

/-- **`close`**: a slot taken out, those after it moved back. -/
def close (t : Table) (hole : Nat) : Option Table :=
  loop closeTurn (t.slots.length + 1) (t, hole, hole)

/-- **`resize`**: every slot placed anew among others. -/
def resize (t : Table) (n : Nat) : Option Table :=
  (t.slots.zip t.ctrl).foldlM (fun t' vc => if vc.1 ≠ 0 then t'.place vc.1 vc.2 else some t')
    (free n)

end Table

/-- `slots_for`'s loop: twice as many until the words fit. -/
def slotsFrom (n : Nat) : Nat → Nat → Nat
  | 0, s => s
  | fuel + 1, s => if fits n s then s else slotsFrom n fuel (2 * s)

/-- **`slots_for`**: as few slots as hold so many words. -/
def slotsFor (n : Nat) : Nat := if n = 0 then 0 else slotsFrom n n GROUP

/-! ## 3. What a table holds -/

/-- A number of slots there may be: groups to a power of two. -/
def Size (n : Nat) : Prop := ∃ k ≤ 40, n = GROUP * 2 ^ k

namespace Table

/-- What is at a slot, if it is taken. -/
def view (t : Table) (i : Nat) : Option UInt64 := if t.slotAt i = 0 then none else some (t.slotAt i)

/-- The slots that are taken, with their control bytes. -/
def cells (t : Table) : List (UInt64 × UInt8) := (t.slots.zip t.ctrl).filter fun vc => vc.1 ≠ 0

/-- What a table keeps: so many slots and control bytes, in any order. -/
structure Keeps (t : Table) (L : List (UInt64 × UInt8)) : Prop where
  /-- as many control bytes as slots -/
  sized : t.ctrl.length = t.slots.length
  /-- what is taken is what is held -/
  cells : t.cells.Perm L
  /-- a control byte taken is no free one's -/
  low : ∀ vc ∈ L, vc.2 < EMPTY
  /-- and a free one's is that -/
  freed : ∀ i < t.slots.length, t.slotAt i = 0 → t.ctrl.getD i 0 = EMPTY

/-- **What a table holds**: what it keeps, each found from its home. -/
structure Holds (t : Table) (L : List (UInt64 × UInt8)) : Prop extends Keeps t L where
  probed : Probed t.slots.length (home · (t.slots.length - 1)) t.view

end Table

/-! ## 4. Masks -/

section Masks

variable {n : Nat}

theorem Size.pow (h : Size n) : ∃ k, 3 ≤ k ∧ k ≤ 43 ∧ n = 2 ^ k := by
  obtain ⟨k, hk, rfl⟩ := h
  refine ⟨k + 3, by omega, by omega, ?_⟩
  rw [Nat.pow_add, GROUP, Nat.mul_comm]

theorem Size.pos (h : Size n) : 8 ≤ n := by
  obtain ⟨k, hk, -, rfl⟩ := h.pow
  exact Nat.pow_le_pow_right Nat.two_pos hk

theorem Size.dvd (h : Size n) : n ∣ 2 ^ 64 := by
  obtain ⟨k, -, hk, rfl⟩ := h.pow
  exact Nat.pow_dvd_pow 2 (by omega)

theorem Size.group_dvd (h : Size n) : 8 ∣ n := by
  obtain ⟨k, -, rfl⟩ := h
  exact Nat.dvd_mul_right 8 _

/-- A mask keeps the rest. -/
theorem Size.mask (h : Size n) (a : Nat) : a &&& (n - 1) = a % n := by
  obtain ⟨k, -, -, rfl⟩ := h.pow
  exact Nat.and_two_pow_sub_one_eq_mod a k

/-- The next slot. -/
theorem Size.next (h : Size n) (s : Nat) : (s + 1) &&& (n - 1) = past n s 1 := h.mask _

/-- How far a slot is past another. -/
theorem Size.wrappingSub (h : Size n) {i : Nat} (hi : i < n) (j : Nat) :
    Table.wrappingSub j i &&& (n - 1) = dist n i j := by
  obtain ⟨q, hq⟩ := h.dvd
  have hn := h.pos
  rw [h.mask, Table.wrappingSub, hq, Nat.mod_mul_right_mod, Probe.dist]
  have hq0 : 0 < q := by
    rcases Nat.eq_zero_or_pos q with rfl | hq0
    · rw [Nat.mul_zero] at hq
      exact absurd hq (by decide)
    · exact hq0
  obtain ⟨q, rfl⟩ := Nat.exists_eq_succ_of_ne_zero hq0.ne'
  have heq : j + n * (q + 1) - i = j + n - i + n * q := by
    rw [Nat.mul_succ]
    omega
  rw [Nat.succ_eq_add_one, heq, Nat.add_mul_mod_self_left]

/-- **A home** is the start of a group. -/
theorem Size.home_eq (h : Size n) (v : UInt64) :
    home v (n - 1) = (v >>> 32).toNat % n / 8 * 8 := by
  have hpow : (2 ^ 64 - GROUP : Nat) = (2 ^ 61 - 1) * 2 ^ 3 := rfl
  have hlt : (v >>> 32).toNat % n < 2 ^ 64 :=
    Nat.lt_of_le_of_lt (Nat.mod_le _ _) (v >>> 32).toNat_lt
  rw [home, h.mask, hpow]
  apply Nat.eq_of_testBit_eq
  intro i
  have hdiv : (8 : Nat) = 2 ^ 3 := rfl
  rw [Nat.testBit_and, Nat.testBit_mul_two_pow, Nat.testBit_two_pow_sub_one, hdiv,
    Nat.testBit_mul_two_pow, Nat.testBit_div_two_pow]
  rcases Nat.lt_or_ge i 3 with hi | hi
  · rw [decide_eq_false (Nat.not_le.mpr hi), Bool.false_and, Bool.and_false, Bool.false_and]
  · rw [decide_eq_true hi, Bool.true_and, Bool.true_and, Nat.sub_add_cancel hi]
    rcases Nat.lt_or_ge i 64 with h64 | h64
    · rw [decide_eq_true (by omega), Bool.and_true]
    · rw [Nat.testBit_lt_two_pow (Nat.lt_of_lt_of_le hlt (Nat.pow_le_pow_right Nat.two_pos h64)),
        Bool.false_and]

theorem Size.home_lt (h : Size n) (v : UInt64) : home v (n - 1) < n := by
  have hn := h.pos
  have hmod : (v >>> 32).toNat % n < n := Nat.mod_lt _ (by omega)
  rw [h.home_eq]
  omega

/-- It depends on the tag alone. -/
theorem home_of_tag {v w : UInt64} (h : tagOf v = tagOf w) (mask : Nat) :
    home v mask = home w mask := by
  have htag := congrArg UInt32.toNat h
  have hsmall : ∀ u : UInt64, (tagOf u).toNat = (u >>> 32).toNat := by
    intro u
    have hu := u.toNat_lt
    have h32 : (32 : UInt64).toNat % 64 = 32 := rfl
    rw [tagOf, UInt64.toNat_toUInt32, UInt64.toNat_shiftRight, h32, Nat.shiftRight_eq_div_pow]
    omega
  rw [hsmall, hsmall] at htag
  rw [home, home, htag]

end Masks

/-! ## 5. A slot put -/

namespace Table

section Put

variable {t : Table} {L L' : List (UInt64 × UInt8)} {s : Nat} {v : UInt64} {c : UInt8}

@[simp] theorem put_length : (t.put s v c).slots.length = t.slots.length := List.length_set

theorem slotAt_put (hs : s < t.slots.length) (i : Nat) :
    (t.put s v c).slotAt i = if i = s then v else t.slotAt i := by
  unfold put slotAt
  by_cases hi : i = s
  · subst hi
    simp [hs]
  · rw [if_neg hi, List.getD_eq_getElem?_getD, List.getD_eq_getElem?_getD,
      List.getElem?_set_ne fun h => hi h.symm]

theorem ctrl_put (hs : s < t.ctrl.length) (i : Nat) :
    (t.put s v c).ctrl.getD i 0 = if i = s then c else t.ctrl.getD i 0 := by
  unfold put
  by_cases hi : i = s
  · subst hi
    simp [hs]
  · rw [if_neg hi, List.getD_eq_getElem?_getD, List.getD_eq_getElem?_getD,
      List.getElem?_set_ne fun h => hi h.symm]

/-- What is put is what is seen there. -/
theorem view_put (hs : s < t.slots.length) :
    (t.put s v c).view = Function.update t.view s (if v = 0 then none else some v) := by
  funext i
  unfold view
  rw [slotAt_put hs]
  by_cases hi : i = s
  · rw [if_pos hi, hi, Function.update_self]
  · rw [if_neg hi, Function.update_of_ne hi]

/-- What is taken but at one slot, and what putting there adds to it. -/
theorem cells_put (hsized : t.ctrl.length = t.slots.length) (hs : s < t.slots.length) :
    ∃ R, t.cells.Perm ((if t.slotAt s ≠ 0 then [(t.slotAt s, t.ctrl.getD s 0)] else []) ++ R) ∧
      ∀ v c, (t.put s v c).cells.Perm ((if v ≠ 0 then [(v, c)] else []) ++ R) := by
  have hs' : s < (t.slots.zip t.ctrl).length := by
    rw [List.length_zip, hsized, Nat.min_self]
    exact hs
  have hguard : ∀ vc : UInt64 × UInt8,
      (Option.guard (fun vc : UInt64 × UInt8 => decide (vc.1 ≠ 0)) vc).toList =
        if vc.1 ≠ 0 then [vc] else [] := by
    intro vc
    by_cases hv : vc.1 = 0
    · simp [Option.guard, hv]
    · simp [Option.guard, hv]
  obtain ⟨R, hold, hnew⟩ :=
    filterMap_set (Option.guard fun vc : UInt64 × UInt8 => decide (vc.1 ≠ 0)) hs'
  refine ⟨R, ?_, fun v c => ?_⟩
  · rw [List.filterMap_eq_filter, hguard, List.getElem_zip] at hold
    unfold cells slotAt
    rw [List.getD_eq_getElem _ _ hs, List.getD_eq_getElem _ _ (hsized ▸ hs)]
    exact hold
  · have hset : (t.slots.set s v).zip (t.ctrl.set s c) = (t.slots.zip t.ctrl).set s (v, c) := by
      apply List.ext_getElem
      · simp
      · intro i hi hi'
        rw [List.getElem_zip, List.getElem_set, List.getElem_set, List.getElem_set,
          List.getElem_zip]
        split <;> rfl
    have hput := hnew (v, c)
    rw [List.filterMap_eq_filter, hguard, ← hset] at hput
    exact hput

/-- What is taken at a slot is kept. -/
theorem Keeps.mem (h : t.Keeps L) (hs : s < t.slots.length) (hv : t.slotAt s ≠ 0) :
    (t.slotAt s, t.ctrl.getD s 0) ∈ L := by
  obtain ⟨R, hold, -⟩ := cells_put h.sized hs
  rw [if_pos hv] at hold
  exact (h.cells.symm.trans hold).mem_iff.mpr List.mem_cons_self

/-- What is kept is taken at some slot. -/
theorem Keeps.slot (h : t.Keeps L) {vc : UInt64 × UInt8} (hvc : vc ∈ L) :
    ∃ s < t.slots.length, t.slotAt s = vc.1 ∧ t.ctrl.getD s 0 = vc.2 ∧ t.slotAt s ≠ 0 := by
  have hmem := h.cells.mem_iff.mpr hvc
  obtain ⟨hzip, hv⟩ := List.mem_filter.mp hmem
  obtain ⟨s, hs, hget⟩ := List.mem_iff_getElem.mp hzip
  rw [List.getElem_zip] at hget
  rw [List.length_zip, h.sized, Nat.min_self] at hs
  obtain ⟨hslot, hctrl⟩ := Prod.mk.inj hget
  have hat : t.slotAt s = vc.1 := (List.getD_eq_getElem _ _ hs).trans hslot
  refine ⟨s, hs, hat, (List.getD_eq_getElem _ _ (h.sized ▸ hs)).trans hctrl, ?_⟩
  rw [hat]
  exact of_decide_eq_true hv

/-- What a slot holds, if it is taken. -/
def held (v : UInt64) (c : UInt8) : List (UInt64 × UInt8) := if v ≠ 0 then [(v, c)] else []

/-- **A slot put** changes what is kept there, and nothing else. -/
theorem Keeps.put (h : t.Keeps L) (hs : s < t.slots.length)
    (hv : v = 0 ∧ c = EMPTY ∨ v ≠ 0 ∧ c < EMPTY)
    (hL : L.Perm (held (t.slotAt s) (t.ctrl.getD s 0) ++ L')) :
    (t.put s v c).Keeps (held v c ++ L') := by
  obtain ⟨R, hold, hnew⟩ := cells_put h.sized hs
  have hR : R.Perm L' :=
    (List.perm_append_left_iff _).mp ((hold.symm.trans h.cells).trans hL)
  refine ⟨?_, (hnew v c).trans (hR.append_left _), fun vc hvc => ?_, fun i hi hzero => ?_⟩
  · rw [put_length]
    exact List.length_set.trans h.sized
  · rcases List.mem_append.mp hvc with hvc | hvc
    · rcases hv with ⟨rfl, -⟩ | ⟨hv, hc⟩
      · cases hvc
      · rw [held, if_pos hv, List.mem_singleton] at hvc
        rw [hvc]
        exact hc
    · exact h.low vc (hL.mem_iff.mpr (List.mem_append_right _ hvc))
  · rw [put_length] at hi
    rw [slotAt_put hs] at hzero
    rw [ctrl_put (h.sized ▸ hs)]
    by_cases his : i = s
    · rw [if_pos his] at hzero ⊢
      exact hv.elim And.right fun hv => absurd hzero hv.1
    · rw [if_neg his] at hzero ⊢
      exact h.freed i hi hzero

/-- A free slot taken. -/
theorem Keeps.add (h : t.Keeps L) (hs : s < t.slots.length) (hfree : t.slotAt s = 0)
    (hv : v ≠ 0) (hc : c < EMPTY) : (t.put s v c).Keeps ((v, c) :: L) := by
  have hL : L.Perm (held (t.slotAt s) (t.ctrl.getD s 0) ++ L) := by
    rw [held, if_neg (not_not.mpr hfree), List.nil_append]
  have hput := h.put hs (Or.inr ⟨hv, hc⟩) hL
  rwa [held, if_pos hv] at hput

/-- A slot let go. -/
theorem Keeps.drop (h : t.Keeps L) (hs : s < t.slots.length) (hv : t.slotAt s ≠ 0)
    (hL : L.Perm ((t.slotAt s, t.ctrl.getD s 0) :: L')) : (t.put s 0 EMPTY).Keeps L' :=
  h.put hs (Or.inl ⟨rfl, rfl⟩) (by rw [held, if_pos hv]; exact hL)

/-- **A slot put where it is first free** from its home is held with the others. -/
theorem Holds.insert (h : t.Holds L) (hn : Size t.slots.length) (hs : s < t.slots.length)
    (hfree : t.slotAt s = 0) (hv : v ≠ 0) (hc : c < EMPTY)
    (htaken : Probe.Taken t.slots.length (home v (t.slots.length - 1)) t.view s) :
    (t.put s v c).Holds ((v, c) :: L) := by
  refine ⟨h.add hs hfree hv hc, ?_⟩
  rw [put_length, view_put hs, if_neg hv]
  exact h.probed.insert (hn.home_lt v) htaken

/-- **A slot's term moved** is held where it was. -/
theorem Holds.replace (h : t.Holds L) (hs : s < t.slots.length) (hv : v ≠ 0)
    (htag : tagOf v = tagOf (t.slotAt s)) (hold : t.slotAt s ≠ 0)
    (hL : L.Perm ((t.slotAt s, t.ctrl.getD s 0) :: L')) :
    (t.put s v (t.ctrl.getD s 0)).Holds ((v, t.ctrl.getD s 0) :: L') := by
  have hR : L.Perm (held (t.slotAt s) (t.ctrl.getD s 0) ++ L') := by
    rw [held, if_pos hold]
    exact hL
  have hput := h.put hs (Or.inr ⟨hv, h.low _ (h.mem hs hold)⟩) hR
  rw [held, if_pos hv] at hput
  refine ⟨hput, ?_⟩
  rw [put_length, view_put hs, if_neg hv]
  have hview : t.view s = some (t.slotAt s) := if_neg hold
  exact h.probed.replace hs hview (home_of_tag htag _)

/-- The order of what is held does not matter. -/
theorem Holds.perm (h : t.Holds L) (hL : L.Perm L') : t.Holds L' :=
  ⟨⟨h.sized, h.cells.trans hL, fun vc hvc => h.low vc (hL.mem_iff.mpr hvc), h.freed⟩, h.probed⟩

/-- **A table with more slots than it holds has a free one.** -/
theorem Keeps.free_slot (h : t.Keeps L) (hlen : L.length < t.slots.length) :
    ∃ e < t.slots.length, t.slotAt e = 0 := by
  by_contra hnone
  have hall : ∀ e < t.slots.length, t.slotAt e ≠ 0 := fun e he hzero => hnone ⟨e, he, hzero⟩
  have hcells : t.cells = t.slots.zip t.ctrl := by
    refine List.filter_eq_self.mpr fun vc hvc => decide_eq_true ?_
    obtain ⟨s, hs, hget⟩ := List.mem_iff_getElem.mp hvc
    rw [List.length_zip, h.sized, Nat.min_self] at hs
    rw [List.getElem_zip] at hget
    rw [← hget]
    have hv := hall s hs
    rwa [slotAt, List.getD_eq_getElem _ _ hs] at hv
  have hcount := h.cells.length_eq
  rw [hcells, List.length_zip, h.sized, Nat.min_self] at hcount
  omega

end Put

end Table

/-! ## 6. A probe -/

namespace Table

section Probe

variable {t : Table} {L : List (UInt64 × UInt8)} {h : Hash} {same : Place → Bool} {s : Nat}
  {v : UInt64}

/-- **The hits of a group in turn**: the first that is the word's, or none of them is. -/
theorem loop_hits (check : Nat → Bool) (g : Nat) (hit : UInt64) :
    ∃ r, loop (hitTurn check g) 65 hit = some r ∧
      (∀ s, r = some s → ∃ i, hit.toNat.testBit i = true ∧ s = g + i / 8 ∧ check s = true) ∧
      (r = none → ∀ i, hit.toNat.testBit i = true → check (g + i / 8) = false) := by
  refine loop_of_keeps
    (I := fun m x => (∀ i, x.toNat.testBit i = true → 64 ≤ i + m ∧ hit.toNat.testBit i = true) ∧
      ∀ i, hit.toNat.testBit i = true → x.toNat.testBit i = true ∨ check (g + i / 8) = false)
    ?_ ?_ (m := 64) ⟨fun i hi => ⟨Nat.le_add_left _ _, hi⟩, fun i hi => Or.inl hi⟩
  · rintro m x x' ⟨hleft, hseen⟩ hturn
    unfold hitTurn at hturn
    split at hturn
    · cases hturn
    next hx =>
    dsimp only at hturn
    split at hturn
    · cases hturn
    next hcheck =>
    cases hturn
    obtain ⟨ht, hbit, -⟩ := trailingZeros_spec hx
    obtain ⟨hm, -⟩ := hleft _ hbit
    refine ⟨m - 1, by omega, fun i hi => ?_, fun i hi => ?_⟩
    · rw [testBit_dropLowest hx, Bool.and_eq_true, decide_eq_true_eq] at hi
      exact ⟨by omega, (hleft i hi.1).2⟩
    · rcases hseen i hi with hin | hno
      · rw [testBit_dropLowest hx, hin, Bool.true_and, decide_eq_true_eq]
        rcases Nat.lt_trichotomy (trailingZeros x) i with hlt | rfl | hgt
        · exact Or.inl hlt
        · exact Or.inr (Bool.not_eq_true _ ▸ hcheck)
        · exact absurd hin (by rw [(trailingZeros_spec hx).2.2 i hgt]; exact Bool.false_ne_true)
      · exact Or.inr hno
  · rintro m x r ⟨hleft, hseen⟩ hturn
    unfold hitTurn at hturn
    split at hturn
    next hx =>
      cases hturn
      refine ⟨nofun, fun _ i hi => ?_⟩
      rcases hseen i hi with hin | hno
      · have hzero : (0 : UInt64).toNat.testBit i = false := Nat.zero_testBit i
        rw [hx, hzero] at hin
        cases hin
      · exact hno
    next hx =>
    dsimp only at hturn
    split at hturn
    next hcheck =>
      cases hturn
      obtain ⟨-, hbit, -⟩ := trailingZeros_spec hx
      refine ⟨fun s hs => ?_, nofun⟩
      cases hs
      exact ⟨_, (hleft _ hbit).2, rfl, hcheck⟩
    · cases hturn

/-- What is free has the free byte, and what is taken a byte below it. -/
theorem Holds.taken_iff (hh : t.Holds L) (hs : s < t.slots.length) :
    t.slotAt s ≠ 0 ↔ t.ctrl.getD s 0 < EMPTY := by
  constructor
  · exact fun hv => hh.low _ (hh.mem hs hv)
  · intro hlow hzero
    rw [hh.freed s hs hzero] at hlow
    exact absurd hlow (by decide)

theorem view_ne_none : t.view s ≠ none ↔ t.slotAt s ≠ 0 := by
  unfold view
  by_cases hv : t.slotAt s = 0
  · simp [hv]
  · simp [hv]

theorem view_eq_some (hv : t.slotAt s ≠ 0) : t.view s = some (t.slotAt s) := if_neg hv

/-- **Every slot's term moved** is held where it was. -/
theorem Holds.mapSlots (h : t.Holds L) (g : UInt64 → UInt64) (h0 : g 0 = 0)
    (hg : ∀ vc ∈ L, g vc.1 ≠ 0 ∧ tagOf (g vc.1) = tagOf vc.1) :
    ({ t with slots := t.slots.map g } : Table).Holds (L.map fun vc => (g vc.1, vc.2)) := by
  have hat : ∀ s, ({ t with slots := t.slots.map g } : Table).slotAt s = g (t.slotAt s) := by
    intro s
    rw [slotAt, slotAt, List.getD_eq_getElem?_getD, List.getElem?_map,
      List.getD_eq_getElem?_getD]
    cases t.slots[s]? with
    | none => exact h0.symm
    | some v => rfl
  have hzero : ∀ s, g (t.slotAt s) = 0 ↔ t.slotAt s = 0 := by
    intro s
    constructor
    · intro hgs
      by_contra hne
      rcases Nat.lt_or_ge s t.slots.length with hs | hs
      · exact (hg _ (h.toKeeps.mem hs hne)).1 hgs
      · exact hne (List.getD_eq_default _ _ hs)
    · intro hs0
      rw [hs0, h0]
  refine ⟨⟨?_, ?_, ?_, ?_⟩, ?_⟩
  · rw [List.length_map]
    exact h.sized
  · have hcells : ({ t with slots := t.slots.map g } : Table).cells =
        t.cells.map fun vc => (g vc.1, vc.2) := by
      unfold cells
      dsimp only
      rw [List.zip_map_left, List.filter_map]
      congr 1
      refine List.filter_congr fun vc hvc => ?_
      obtain ⟨s, hs, hvc⟩ := List.mem_iff_getElem.mp hvc
      rw [List.length_zip] at hs
      have hs' : s < t.slots.length := by omega
      have hv : vc.1 = t.slotAt s := by
        rw [← hvc, List.getElem_zip, slotAt, List.getD_eq_getElem _ _ hs']
      simp only [Function.comp, Prod.map, hv, ne_eq, hzero s]
    rw [hcells]
    exact h.toKeeps.cells.map _
  · intro vc hvc
    obtain ⟨vc', hmem, rfl⟩ := List.mem_map.mp hvc
    exact h.low vc' hmem
  · intro s hs hs0
    rw [List.length_map] at hs
    rw [hat, hzero s] at hs0
    exact h.freed s hs hs0
  · have hview : ({ t with slots := t.slots.map g } : Table).view = fun s => (t.view s).map g := by
      funext s
      unfold view
      rw [hat]
      by_cases hs0 : t.slotAt s = 0
      · rw [if_pos hs0, if_pos ((hzero s).mpr hs0)]
        rfl
      · rw [if_neg hs0, if_neg fun hg0 => hs0 ((hzero s).mp hg0)]
        rfl
    rw [List.length_map, hview]
    refine h.probed.map g fun s hs v hv => ?_
    have hne : t.slotAt s ≠ 0 := view_ne_none.mp (by rw [hv]; exact Option.some_ne_none v)
    rw [view_eq_some hne] at hv
    obtain rfl := Option.some.inj hv
    exact home_of_tag (hg _ (h.toKeeps.mem hs hne)).2 _

/-- The home of a tag. -/
theorem home_tag (h : Hash) (hv : tagOf v = h.tag) (mask : Nat) :
    home (h.tag.toUInt64 <<< 32) mask = home v mask := by
  refine home_of_tag ?_ mask
  rw [hv]
  apply UInt32.toNat_inj.mp
  have htag := h.tag.toNat_lt
  have h32 : (32 : UInt64).toNat % 64 = 32 := rfl
  rw [tagOf, UInt64.toNat_toUInt32, UInt64.toNat_shiftRight, UInt64.toNat_shiftLeft,
    UInt32.toNat_toUInt64, h32, Nat.shiftLeft_eq, Nat.shiftRight_eq_div_pow]
  omega

/-- The slots of a word's probe in turn. -/
def way (t : Table) (h : Hash) (d : Nat) : Nat :=
  past t.slots.length (home (h.tag.toUInt64 <<< 32) (t.slots.length - 1)) d

/-- What a probe comes to: the word's slot, or the first free one, and then no slot is the
word's. -/
def Found (t : Table) (h : Hash) (same : Place → Bool) : Except Nat Nat → Prop
  | .ok s => s < t.slots.length ∧ t.slotAt s ≠ 0 ∧ t.isWord h same s = true
  | .error s => s < t.slots.length ∧ t.slotAt s = 0 ∧
      Probe.Taken t.slots.length (home (h.tag.toUInt64 <<< 32) (t.slots.length - 1)) t.view s ∧
      ∀ i < t.slots.length, t.slotAt i ≠ 0 → t.ctrl.getD i 0 = h.h2 → t.isWord h same i = false

/-- What a probe has seen: so many slots from the word's home, all taken and none of them its. -/
structure Seen (t : Table) (h : Hash) (same : Place → Bool) (d : Nat) : Prop where
  taken : ∀ e < d, t.slotAt (t.way h e) ≠ 0
  other : ∀ e < d, t.ctrl.getD (t.way h e) 0 = h.h2 → t.isWord h same (t.way h e) = false

variable {k : Nat}

/-- A probe has not come to a free slot yet. -/
theorem Seen.le (hseen : t.Seen h same k) (hn : Size t.slots.length) (hs : s < t.slots.length)
    (hfree : t.slotAt s = 0) :
    k ≤ dist t.slots.length (home (h.tag.toUInt64 <<< 32) (t.slots.length - 1)) s := by
  by_contra hlt
  have htaken := hseen.taken _ (Nat.not_le.mp hlt)
  rw [way, past_dist (hn.home_lt _) hs] at htaken
  exact htaken hfree

/-- **Once a probe has come to a free slot it has seen the word** where it is held. -/
theorem Holds.seen (hh : t.Holds L) (hn : Size t.slots.length) (hs : s < t.slots.length)
    (hfree : t.slotAt s = 0) (hway : t.way h k = s) (hk : k < t.slots.length)
    (hseen : t.Seen h same k) : t.Found h same (.error s) := by
  have hhome := hn.home_lt (h.tag.toUInt64 <<< 32)
  have hdist : dist t.slots.length (home (h.tag.toUInt64 <<< 32) (t.slots.length - 1)) s = k := by
    rw [← hway]
    exact dist_past hhome hk
  refine ⟨hs, hfree, fun d hd => ?_, fun i hi hv hc => ?_⟩
  · rw [hdist] at hd
    exact view_ne_none.mpr (hseen.taken d hd)
  · by_cases htag : tagOf (t.slotAt i) = h.tag
    · have hview : t.view s = none := by
        by_contra hne
        exact view_ne_none.mp hne hfree
      have hbefore := hh.probed.before_free hi (view_eq_some hv) hs hview
      rw [← home_tag h htag, hdist] at hbefore
      have hother := hseen.other _ hbefore
      rw [way, past_dist hhome hi] at hother
      exact hother hc
    · rw [isWord, beq_eq_false_iff_ne.mpr htag, Bool.false_and]

/-- A group of a probe is eight slots in a row. -/
theorem way_group (hn : Size t.slots.length) (hk : 8 * k < t.slots.length) :
    8 * k + 8 ≤ t.slots.length ∧ t.way h (8 * k) + 8 ≤ t.slots.length ∧
      ∀ j < 8, t.way h (8 * k + j) = t.way h (8 * k) + j := by
  have hhome := hn.home_lt (h.tag.toUInt64 <<< 32)
  have hhome8 : 8 ∣ home (h.tag.toUInt64 <<< 32) (t.slots.length - 1) := by
    rw [hn.home_eq]
    exact Nat.dvd_mul_left 8 _
  obtain ⟨q, hq⟩ := hn.group_dvd
  obtain ⟨r, hr⟩ := hhome8
  have hpast := past_spec (d := 8 * k) hhome hk
  unfold way
  refine ⟨by omega, by omega, fun j hj => ?_⟩
  have hpastj := past_spec (d := 8 * k + j) hhome (by omega)
  omega

/-- The control bytes of a group. -/
theorem group_bytes (hh : t.Holds L) {g : Nat} (hg : g + 8 ≤ t.slots.length) :
    ((t.ctrl.drop g).take GROUP).length = 8 ∧
      ∀ j < 8, ((t.ctrl.drop g).take GROUP).getD j 0 = t.ctrl.getD (g + j) 0 := by
  have hsized := hh.sized
  have hlen : ((t.ctrl.drop g).take GROUP).length = 8 := by
    rw [List.length_take, List.length_drop, GROUP]
    omega
  refine ⟨hlen, fun j hj => ?_⟩
  rw [List.getD_eq_getElem _ _ (by omega), List.getElem_take, List.getElem_drop,
    List.getD_eq_getElem]

/-- **A group of a probe**: it ends there, or has seen eight slots more. -/
theorem Holds.findTurn (hh : t.Holds L) (hn : Size t.slots.length) (hk : 8 * k < t.slots.length)
    (hlow : h.h2 < EMPTY) (hseen : t.Seen h same (8 * k)) :
    (∃ r, t.findTurn h same (t.way h (8 * k)) = .done r ∧ t.Found h same r) ∨
      t.findTurn h same (t.way h (8 * k)) = .again (t.way h (8 * (k + 1))) ∧
        t.Seen h same (8 * (k + 1)) := by
  obtain ⟨hle, hg, hrow⟩ := way_group (h := h) hn hk
  have hnext : t.way h (8 * (k + 1)) = (t.way h (8 * k) + GROUP) &&& (t.slots.length - 1) := by
    rw [hn.mask, way, way, past, past, Nat.mod_add_mod, GROUP]
    congr 1
  generalize hgdef : t.way h (8 * k) = g at hg hrow hnext
  obtain ⟨hlen, hbyte⟩ := group_bytes hh hg
  -- what is seen of the group up to its first free slot
  have hgoes : ∀ e ≤ 8, (∀ j < e, t.slotAt (g + j) ≠ 0) →
      (∀ j < e, t.ctrl.getD (g + j) 0 = h.h2 → t.isWord h same (g + j) = false) →
      t.Seen h same (8 * k + e) := by
    intro e he htaken hother
    refine ⟨fun d hd => ?_, fun d hd => ?_⟩
    · rcases Nat.lt_or_ge d (8 * k) with hlt | hge
      · exact hseen.taken d hlt
      · have hrowd := hrow (d - 8 * k) (by omega)
        rw [Nat.add_sub_cancel' hge] at hrowd
        rw [hrowd]
        exact htaken _ (by omega)
    · rcases Nat.lt_or_ge d (8 * k) with hlt | hge
      · exact hseen.other d hlt
      · have hrowd := hrow (d - 8 * k) (by omega)
        rw [Nat.add_sub_cancel' hge] at hrowd
        rw [hrowd]
        exact hother _ (by omega)
  unfold Table.findTurn
  rw [hnext]
  dsimp only
  rw [if_neg (by rw [hlen, GROUP]; omega)]
  generalize (t.ctrl.drop g).take GROUP = bytes at hlen hbyte
  obtain ⟨r, hr, hok, hnone⟩ := loop_hits (t.isWord h same) g
    (zeroBytes (UInt64.ofNat (word bytes) ^^^ (LO * h.h2.toUInt64)))
  rw [hr]
  cases r with
  | some s =>
    obtain ⟨i, hbit, rfl, hword⟩ := hok s rfl
    obtain ⟨hi, htop⟩ := of_matched hlen hlow hbit
    rw [hbyte _ hi] at htop
    exact Or.inl ⟨_, rfl, by omega, (hh.taken_iff (by omega)).mpr htop, hword⟩
  | none =>
    have hother : ∀ j < 8, t.ctrl.getD (g + j) 0 = h.h2 → t.isWord h same (g + j) = false := by
      intro j hj hc
      have hword := hnone rfl (8 * j + 7) (matched hlen hj ((hbyte j hj).trans hc))
      have hj' : (8 * j + 7) / 8 = j := by omega
      rwa [hj'] at hword
    dsimp only
    by_cases hempty : UInt64.ofNat (word bytes) &&& HI = 0
    · rw [if_neg (not_not.mpr hempty)]
      refine Or.inr ⟨rfl, hgoes 8 (Nat.le_refl 8) (fun j hj => ?_) hother⟩
      have htop := none_high hlen hempty hj
      rw [hbyte j hj] at htop
      exact (hh.taken_iff (by omega)).mpr htop
    · rw [if_pos hempty]
      obtain ⟨j, hfirst, hj, hhigh, hbefore⟩ := first_high hlen hempty
      rw [hfirst]
      rw [hbyte j hj] at hhigh
      have hfree : t.slotAt (g + j) = 0 := by
        by_contra hv
        exact absurd ((hh.taken_iff (by omega)).mp hv) (UInt8.not_lt.mpr hhigh)
      have hseen' : t.Seen h same (8 * k + j) := by
        refine hgoes j (by omega) (fun e he => ?_) fun e he => hother e (by omega)
        have htop := hbefore e he
        rw [hbyte e (by omega)] at htop
        exact (hh.taken_iff (by omega)).mpr htop
      exact Or.inl ⟨_, rfl, hh.seen hn (by omega) hfree (hrow j hj) (by omega) hseen'⟩

/-- **`find` ends**, at the word's slot or the first free one from its home. -/
theorem Holds.find (hh : t.Holds L) (hn : Size t.slots.length)
    (hfree : ∃ e < t.slots.length, t.slotAt e = 0) (hlow : h.h2 < EMPTY) :
    ∃ r, t.find h same = some r ∧ t.Found h same r := by
  obtain ⟨e, he, hzero⟩ := hfree
  have hn8 := hn.pos
  obtain ⟨q, hq⟩ := hn.group_dvd
  have hstep : ∀ m g, (∃ k, k + m = q ∧ t.Seen h same (8 * k) ∧ g = t.way h (8 * k)) →
      (∃ r, t.findTurn h same g = .done r ∧ t.Found h same r) ∨
        ∃ g' m', t.findTurn h same g = .again g' ∧ m' < m ∧
          ∃ k, k + m' = q ∧ t.Seen h same (8 * k) ∧ g' = t.way h (8 * k) := by
    rintro m g ⟨k, hm, hseen, rfl⟩
    have hle := hseen.le hn he hzero
    have hlt := Probe.dist_lt (n := t.slots.length)
      (i := home (h.tag.toUInt64 <<< 32) (t.slots.length - 1)) (j := e) (by omega)
    rcases hh.findTurn hn (by omega) hlow hseen with hdone | ⟨hagain, hseen'⟩
    · exact Or.inl hdone
    · exact Or.inr ⟨_, m - 1, hagain, by omega, k + 1, by omega, hseen', rfl⟩
  have hstart : ∃ k, k + q = q ∧ t.Seen h same (8 * k) ∧
      home (h.tag.toUInt64 <<< 32) (t.slots.length - 1) = t.way h (8 * k) :=
    ⟨0, Nat.zero_add q, ⟨fun _ hlt => absurd hlt (Nat.not_lt_zero _),
      fun _ hlt => absurd hlt (Nat.not_lt_zero _)⟩, (past_zero (hn.home_lt _)).symm⟩
  obtain ⟨r, hr, hfound⟩ := loop_of_step hstep hstart
  have hmore := loop_add hr (t.slots.length - q)
  have hturns : q + 1 + (t.slots.length - q) = t.slots.length + 1 := by omega
  rw [hturns] at hmore
  exact ⟨r, hmore, hfound⟩

end Probe

end Table

/-! ## 7. Slots placed -/

namespace Table

section Place

variable {t : Table} {L L' : List (UInt64 × UInt8)} {s n : Nat} {v : UInt64} {c : UInt8}

@[simp] theorem free_length : (free n).slots.length = n := List.length_replicate

theorem slotAt_free (s : Nat) : (free n).slotAt s = 0 := by
  unfold free slotAt
  rw [List.getD_eq_getElem?_getD, List.getElem?_replicate]
  split <;> rfl

/-- A table of free slots holds nothing. -/
theorem holds_free : (free n).Holds [] := by
  have hview : (free n).view = fun _ => none := by
    funext s
    exact if_pos (slotAt_free s)
  refine ⟨⟨by simp [free], ?_, nofun, fun i hi _ => ?_⟩, by rw [hview]; exact Probed.empty⟩
  · refine List.Perm.of_eq (List.filter_eq_nil_iff.mpr fun vc hvc => ?_)
    have hv := List.eq_of_mem_replicate (List.of_mem_zip hvc).1
    rw [hv, decide_eq_true_eq]
    exact not_not.mpr rfl
  · rw [free_length] at hi
    unfold free
    rw [List.getD_eq_getElem _ _ (by simpa using hi), List.getElem_replicate]

/-- **`place` ends**, and what it puts is held with the others. -/
theorem Holds.place (h : t.Holds L) (hn : Size t.slots.length) (hlen : L.length < t.slots.length)
    (hv : v ≠ 0) (hc : c < EMPTY) :
    ∃ t', t.place v c = some t' ∧ t'.slots.length = t.slots.length ∧ t'.Holds ((v, c) :: L) := by
  obtain ⟨e, he, hzero⟩ := h.free_slot hlen
  have hhome := hn.home_lt v
  have hn8 := hn.pos
  have hstep : ∀ m s, (∃ d, d + m = t.slots.length ∧
        s = past t.slots.length (home v (t.slots.length - 1)) d ∧
        ∀ i < d, t.slotAt (past t.slots.length (home v (t.slots.length - 1)) i) ≠ 0) →
      (∃ r, t.placeTurn s = .done r ∧ (r < t.slots.length ∧ t.slotAt r = 0 ∧
          Probe.Taken t.slots.length (home v (t.slots.length - 1)) t.view r)) ∨
        ∃ s' m', t.placeTurn s = .again s' ∧ m' < m ∧ ∃ d, d + m' = t.slots.length ∧
          s' = past t.slots.length (home v (t.slots.length - 1)) d ∧
          ∀ i < d, t.slotAt (past t.slots.length (home v (t.slots.length - 1)) i) ≠ 0 := by
    rintro m s ⟨d, hm, rfl, hwalked⟩
    -- the way has not come to the free slot yet
    have hle : d ≤ dist t.slots.length (home v (t.slots.length - 1)) e := by
      by_contra hlt
      have htaken := hwalked _ (Nat.not_le.mp hlt)
      rw [past_dist hhome he] at htaken
      exact htaken hzero
    have hd := Probe.dist_lt (n := t.slots.length) (i := home v (t.slots.length - 1)) (j := e)
      (by omega)
    by_cases hs : t.slotAt (past t.slots.length (home v (t.slots.length - 1)) d) = 0
    · refine Or.inl ⟨_, if_neg (not_not.mpr hs), past_lt (by omega), hs, fun i hi => ?_⟩
      rw [dist_past hhome (by omega)] at hi
      exact view_ne_none.mpr (hwalked i hi)
    · refine Or.inr ⟨_, m - 1, if_pos hs, by omega, d + 1, by omega, ?_, fun i hi => ?_⟩
      · rw [hn.mask, past, past, Nat.mod_add_mod, Nat.add_assoc]
      · rcases Nat.lt_succ_iff_lt_or_eq.mp hi with hlt | rfl
        · exact hwalked i hlt
        · exact hs
  obtain ⟨r, hr, hlt, hfree, htaken⟩ := loop_of_step hstep
    ⟨0, Nat.zero_add _, (past_zero hhome).symm, fun _ hi => absurd hi (Nat.not_lt_zero _)⟩
  refine ⟨t.put r v c, ?_, put_length, h.insert hn hlt hfree hv hc htaken⟩
  rw [Table.place, hr, Option.map_some]

/-- **`resize` ends**, and every slot is held in the other table. -/
theorem Holds.resize (h : t.Holds L) (hn : Size n) (hlen : L.length < n) :
    ∃ t', t.resize n = some t' ∧ t'.slots.length = n ∧ t'.Holds L := by
  -- over what is left to place, with what is placed
  have hall : ∀ (l : List (UInt64 × UInt8)) (t' : Table) (M : List (UInt64 × UInt8)),
      t'.slots.length = n → t'.Holds M →
      (∀ vc ∈ l.filter fun vc => vc.1 ≠ 0, vc.2 < EMPTY) →
      M.length + (l.filter fun vc => vc.1 ≠ 0).length < n →
      ∃ t'', l.foldlM (fun t' vc => if vc.1 ≠ 0 then t'.place vc.1 vc.2 else some t') t' =
          some t'' ∧ t''.slots.length = n ∧
        t''.Holds ((l.filter fun vc => vc.1 ≠ 0) ++ M) := by
    intro l
    induction l with
    | nil => exact fun t' M hsize hM _ _ => ⟨t', rfl, hsize, hM⟩
    | cons vc l ih =>
      intro t' M hsize hM hlow hroom
      rw [List.foldlM_cons]
      by_cases hv : vc.1 = 0
      · have hskip : (vc :: l).filter (fun vc => vc.1 ≠ 0) = l.filter fun vc => vc.1 ≠ 0 := by
          simp [hv]
        rw [hskip] at hlow hroom ⊢
        rw [if_neg (not_not.mpr hv)]
        exact ih t' M hsize hM hlow hroom
      · have htake : (vc :: l).filter (fun vc => vc.1 ≠ 0) =
            vc :: l.filter fun vc => vc.1 ≠ 0 := by
          simp [hv]
        rw [htake] at hlow hroom ⊢
        rw [List.length_cons] at hroom
        rw [if_pos hv]
        obtain ⟨u, hplace, hsize', hu⟩ := hM.place (by rw [hsize]; exact hn)
          (by rw [hsize]; omega) hv (hlow vc List.mem_cons_self)
        obtain ⟨t'', hfold, hsize'', hheld⟩ := ih u (vc :: M) (hsize'.trans hsize) hu
          (fun x hx => hlow x (List.mem_cons_of_mem _ hx)) (by rw [List.length_cons]; omega)
        refine ⟨t'', ?_, hsize'', hheld.perm List.perm_middle⟩
        rw [hplace]
        exact hfold
  have hcells := h.cells.length_eq
  obtain ⟨t', hfold, hsize, hheld⟩ := hall (t.slots.zip t.ctrl) (free n) [] free_length
    holds_free (fun vc hvc => h.low vc (h.cells.mem_iff.mp hvc))
    (by rw [List.length_nil, Nat.zero_add]; exact hcells ▸ hlen)
  refine ⟨t', hfold, hsize, hheld.perm ?_⟩
  rw [List.append_nil]
  exact h.cells

end Place

/-! ## 8. A slot taken out -/

section Close

variable {t : Table} {L : List (UInt64 × UInt8)} {hole j e : Nat}

theorem put_put (t : Table) (s : Nat) (v v' : UInt64) (c c' : UInt8) :
    (t.put s v c).put s v' c' = t.put s v' c' := by
  unfold put
  rw [List.set_set, List.set_set]

/-- **A table being closed**: with its hole let go it keeps what is left, and what is past the walk
may have the hole on its way; a free slot is still to come. -/
structure Closing (t : Table) (L : List (UInt64 × UInt8)) (hole j e : Nat) : Prop where
  keeps : (t.put hole 0 EMPTY).Keeps L
  walk : Hole t.slots.length (home · (t.slots.length - 1)) (t.put hole 0 EMPTY).view hole j
  free_lt : e < t.slots.length
  free_ne : e ≠ hole
  free : t.slotAt e = 0

/-- What is not the hole is what it was. -/
theorem Closing.at_ (h : t.Closing L hole j e) {i : Nat} (hi : i ≠ hole) :
    (t.put hole 0 EMPTY).slotAt i = t.slotAt i ∧
      (t.put hole 0 EMPTY).ctrl.getD i 0 = t.ctrl.getD i 0 := by
  have hsized := h.keeps.sized
  rw [put_length, put, List.length_set] at hsized
  rw [slotAt_put h.walk.hole_lt, ctrl_put (hsized ▸ h.walk.hole_lt), if_neg hi, if_neg hi]
  exact ⟨rfl, rfl⟩

/-- The walk does not come around to the hole. -/
theorem Closing.next_ne (h : t.Closing L hole j e) : past t.slots.length j 1 ≠ hole := by
  have hview : (t.put hole 0 EMPTY).view e = none :=
    if_pos ((h.at_ h.free_ne).1.trans h.free)
  have hlt := h.walk.dist_lt h.free_lt h.free_ne hview
  have hhole := h.walk.hole_lt
  have hj := h.walk.j_lt
  have hspec := dist_spec hhole hj
  have hspec' := dist_spec hhole h.free_lt
  have hfree := h.free_lt
  intro heq
  by_cases hone : t.slots.length = 1
  · have hne := h.free_ne
    omega
  · have hpast := past_spec (d := 1) hj (by omega)
    omega

/-- **A slot of the walk**: it ends at a free one, or goes on with the slot moved or left. -/
theorem Closing.turn (h : t.Closing L hole j e) (hn : Size t.slots.length) :
    (∃ r, closeTurn (t, hole, j) = .done r ∧ r.slots.length = t.slots.length ∧ r.Holds L) ∨
      ∃ t' hole', closeTurn (t, hole, j) = .again (t', hole', past t.slots.length j 1) ∧
        t'.slots.length = t.slots.length ∧ t'.Closing L hole' (past t.slots.length j 1) e ∧
        past t.slots.length j 1 ≠ e := by
  have hne := h.next_ne
  have hn8 := hn.pos
  have hlt : past t.slots.length j 1 < t.slots.length := past_lt (by omega)
  have hhole := h.walk.hole_lt
  have hsame := h.at_ hne
  unfold closeTurn
  dsimp only
  rw [hn.next]
  by_cases hv : t.slotAt (past t.slots.length j 1) = 0
  · rw [if_pos hv]
    have hview : (t.put hole 0 EMPTY).view (past t.slots.length j 1) = none :=
      if_pos (hsame.1.trans hv)
    refine Or.inl ⟨_, rfl, put_length, h.keeps, ?_⟩
    rw [put_length]
    exact h.walk.finish hne hview
  · rw [if_neg hv]
    have hnot : past t.slots.length j 1 ≠ e := fun heq => hv (heq ▸ h.free)
    have hview : (t.put hole 0 EMPTY).view (past t.slots.length j 1) =
        some (t.slotAt (past t.slots.length j 1)) := by
      rw [view, hsame.1]
      exact if_neg hv
    have hhome := hn.home_lt (t.slotAt (past t.slots.length j 1))
    rw [hn.wrappingSub hhole, hn.wrappingSub hhome]
    by_cases hneeds : dist t.slots.length hole (past t.slots.length j 1) ≤
        dist t.slots.length (home (t.slotAt (past t.slots.length j 1)) (t.slots.length - 1))
          (past t.slots.length j 1)
    · rw [if_pos hneeds]
      refine Or.inr ⟨_, _, rfl, put_length, ?_, hnot⟩
      have hslot : (t.put hole 0 EMPTY).slotAt hole = 0 := by
        rw [slotAt_put hhole, if_pos rfl]
      have hmem := h.keeps.mem (s := past t.slots.length j 1) (by rw [put_length]; exact hlt)
        (by rw [hsame.1]; exact hv)
      rw [hsame.1, hsame.2] at hmem
      -- the slot is put in the hole, and let go where it was
      have hadd := h.keeps.add (by rw [put_length]; exact hhole) hslot hv (h.keeps.low _ hmem)
      rw [put_put] at hadd
      have hmoved : (t.put hole (t.slotAt (past t.slots.length j 1))
          (t.ctrl.getD (past t.slots.length j 1) 0)).slotAt (past t.slots.length j 1) =
            t.slotAt (past t.slots.length j 1) := by
        rw [slotAt_put hhole, if_neg hne]
      have hsized := h.keeps.sized
      rw [put_length, put, List.length_set] at hsized
      have hmovedc : (t.put hole (t.slotAt (past t.slots.length j 1))
          (t.ctrl.getD (past t.slots.length j 1) 0)).ctrl.getD (past t.slots.length j 1) 0 =
            t.ctrl.getD (past t.slots.length j 1) 0 := by
        rw [ctrl_put (hsized ▸ hhole), if_neg hne]
      refine ⟨hadd.drop (by rw [put_length]; exact hlt) (by rw [hmoved]; exact hv)
        (by rw [hmoved, hmovedc]), ?_, by rw [put_length]; exact h.free_lt, hnot.symm, ?_⟩
      · have hwalk := h.walk.move hne hview hneeds
        rw [put_length, view_put (by rw [put_length]; exact hlt), view_put hhole, if_pos rfl,
          if_neg hv]
        rw [view_put hhole, if_pos rfl, Function.update_idem] at hwalk
        exact hwalk
      · rw [slotAt_put hhole, if_neg h.free_ne]
        exact h.free
    · rw [if_neg hneeds]
      exact Or.inr ⟨_, _, rfl, rfl,
        ⟨h.keeps, h.walk.skip hne hview (Nat.not_le.mp hneeds), h.free_lt, h.free_ne, h.free⟩,
        hnot⟩

/-- **`close` ends**, and what is left is held. -/
theorem Holds.close {L' : List (UInt64 × UInt8)} (h : t.Holds L) (hn : Size t.slots.length)
    (hlen : L.length < t.slots.length) (hs : hole < t.slots.length) (hv : t.slotAt hole ≠ 0)
    (hL : L.Perm ((t.slotAt hole, t.ctrl.getD hole 0) :: L')) :
    ∃ t', t.close hole = some t' ∧ t'.slots.length = t.slots.length ∧ t'.Holds L' := by
  obtain ⟨e, he, hzero⟩ := h.free_slot hlen
  have hne : e ≠ hole := fun heq => hv (heq ▸ hzero)
  have hwalk := h.probed.hole hs
  have hview : (t.put hole 0 EMPTY).view = Function.update t.view hole none := by
    rw [view_put hs, if_pos rfl]
  rw [← hview] at hwalk
  have hstart : t.Closing L' hole hole e := ⟨h.drop hs hv hL, hwalk, he, hne, hzero⟩
  have hstep : ∀ m (s : Table × Nat × Nat), (s.1.slots.length = t.slots.length ∧
        s.1.Closing L' s.2.1 s.2.2 e ∧ dist t.slots.length s.2.2 e ≤ m) →
      (∃ r, closeTurn s = .done r ∧ r.slots.length = t.slots.length ∧ r.Holds L') ∨
        ∃ s' m', closeTurn s = .again s' ∧ m' < m ∧ s'.1.slots.length = t.slots.length ∧
          s'.1.Closing L' s'.2.1 s'.2.2 e ∧ dist t.slots.length s'.2.2 e ≤ m' := by
    rintro m ⟨u, hole', j⟩ ⟨hsize, hclosing, hm⟩
    dsimp only at hsize hclosing hm
    rcases hclosing.turn (hsize ▸ hn) with ⟨r, hdone, hrsize, hr⟩ |
      ⟨u', hole'', hagain, hsize', hclosing', hnot⟩
    · exact Or.inl ⟨r, hdone, hrsize.trans hsize, hr⟩
    · rw [hsize] at hagain hsize' hclosing' hnot
      have hj := hclosing.walk.j_lt
      rw [hsize] at hj
      have hje : j ≠ e := by
        intro heq
        have hwalked := hclosing.walk.dist_lt hclosing.free_lt hclosing.free_ne
          (if_pos ((hclosing.at_ hclosing.free_ne).1.trans hclosing.free))
        rw [heq] at hwalked
        exact Nat.lt_irrefl _ hwalked
      have hless := dist_step hj he hje
      exact Or.inr ⟨_, m - 1, hagain, by omega, hsize', hclosing', by dsimp only; omega⟩
  obtain ⟨r, hr, hsize, hheld⟩ := loop_of_step hstep
    (m := t.slots.length) (s := (t, hole, hole)) ⟨rfl, hstart, (Probe.dist_lt (by omega)).le⟩
  exact ⟨r, hr, hsize, hheld⟩

end Close

end Table

/-! ## 9. How many slots -/

theorem fits_iff {n s : Nat} : fits n s = true ↔ n * 4 ≤ s * 3 := decide_eq_true_iff

/-- Twice as many until they fit. -/
theorem slotsFrom_spec {n k : Nat} (fuel : Nat) (hfuel : n * 4 ≤ GROUP * 2 ^ (k + fuel) * 3)
    (hk : k = 0 ∨ GROUP * 2 ^ k ≤ 4 * n) :
    ∃ k', slotsFrom n fuel (GROUP * 2 ^ k) = GROUP * 2 ^ k' ∧ fits n (GROUP * 2 ^ k') = true ∧
      (k' = 0 ∨ GROUP * 2 ^ k' ≤ 4 * n) := by
  induction fuel generalizing k with
  | zero => exact ⟨k, rfl, fits_iff.mpr hfuel, hk⟩
  | succ fuel ih =>
    rw [slotsFrom]
    by_cases hfits : fits n (GROUP * 2 ^ k) = true
    · rw [if_pos hfits]
      exact ⟨k, rfl, hfits, hk⟩
    · rw [if_neg hfits]
      have htwice : 2 * (GROUP * 2 ^ k) = GROUP * 2 ^ (k + 1) := by
        rw [Nat.pow_succ]
        ac_rfl
      rw [htwice]
      rw [fits_iff] at hfits
      refine ih ?_ (Or.inr ?_)
      · have heq : k + 1 + fuel = k + (fuel + 1) := by omega
        rw [heq]
        exact hfuel
      · omega

/-- **`slots_for`**: slots enough, and there may be so many. -/
theorem slotsFor_spec {n : Nat} (hn : n ≠ 0) (hlt : n < 2 ^ 36) :
    Size (slotsFor n) ∧ fits n (slotsFor n) = true := by
  have hpow : n < 2 ^ n := Nat.lt_two_pow_self
  obtain ⟨k, hk, hfits, hsmall⟩ := slotsFrom_spec (n := n) (k := 0) n
    (by rw [Nat.zero_add, GROUP]; omega) (Or.inl rfl)
  rw [Nat.pow_zero, Nat.mul_one] at hk
  rw [slotsFor, if_neg hn, hk]
  refine ⟨⟨k, ?_, rfl⟩, hfits⟩
  rcases hsmall with rfl | hsmall
  · omega
  · by_contra hgt
    have hbig : 2 ^ 41 ≤ 2 ^ k := Nat.pow_le_pow_right Nat.two_pos (by omega)
    rw [GROUP] at hsmall
    omega

/-- Twice the slots, where they do not fit. -/
theorem Size.twice {n s : Nat} (hs : Size s) (hfits : fits n s = false) (hlt : n < 2 ^ 36) :
    Size (2 * s) := by
  obtain ⟨k, hk, rfl⟩ := hs
  refine ⟨k + 1, ?_, by rw [Nat.pow_succ]; ac_rfl⟩
  by_contra hgt
  have hk40 : k = 40 := by omega
  have hnot : ¬ n * 4 ≤ GROUP * 2 ^ k * 3 := by
    rw [← fits_iff, hfits]
    exact Bool.false_ne_true
  rw [hk40, GROUP] at hnot
  omega

end Fenec.Text
