/-
# Reading what was never written

A buffer may hold anything, and its lengths are then anything up to `2 ^ 64`.  Reading is safe
there but for two slips, which this module walks around and shows: the size of a vector is
multiplied out before it is checked, and a bool is skipped without looking whether it is there.

Everything is said of the two builds at once.  `Sure W K m m' Q` runs `m`, where an overflow stops,
beside `m'`, the same reader in either build: unless an overflow stops the first, the two do the
same thing, keep the cursor in `W`, and fail with a `Corrupt` only.
-/
import Fenec.RoundTrip

namespace Fenec

open Lib Reader

namespace Codec

/-! ## 1. The two builds side by side -/

/-- A capacity the buffer could hold, or the number of items a list, an object or a sparse vector
has room made for before any is read. -/
def Modest (buf : List UInt8) : Tag × Nat → Prop
  | (.list, n) => n ≤ max buf.length 4096
  | (.object, n) => n ≤ max buf.length 4096
  | (.sparse, n) => n ≤ max buf.length 65536
  | (_, n) => n ≤ buf.length

theorem modest_of_le {buf : List UInt8} {n : Nat} (t : Tag) (h : n ≤ buf.length) :
    Modest buf (t, n) := by
  cases t <;> simp only [Modest] <;> omega

/-- A condition on cursors that a read within the buffer keeps. -/
structure Steady (buf : List UInt8) (W : Cursor (Tag × Nat) → Prop) : Prop where
  move : ∀ c pos, W c → pos ≤ buf.length → W { c with pos := pos }
  note : ∀ c a, W c → Modest buf a → W { c with log := c.log ++ [a] }

section Sure

variable {buf : List UInt8} {W : Cursor (Tag × Nat) → Prop} {K : Prop} {α β : Type}
  {o : Overflow}

/-- **What a reader may do**, in the build that stops at an overflow and in any other: answer
within the buffer, fail with `Corrupt`, or overflow; `K` where it may also ask for more room than
an allocation has. -/
def Sure (W : Cursor (Tag × Nat) → Prop) (K : Prop) (m m' : Dec α) (Q : α → Prop) : Prop :=
  ∀ c, W c → match m c with
    | (.ok a, c') => m' c = (.ok a, c') ∧ W c' ∧ Q a
    | (.error (.corrupt text), c') => m' c = (.error (.corrupt text), c') ∧ W c'
    | (.error .overflow, c') => W c'
    | (.error .capacity, c') => m' c = (.error .capacity, c') ∧ W c' ∧ K

theorem sure_pure {a : α} {Q : α → Prop} (h : Q a) : Sure W K (pure a) (pure a) Q :=
  fun _ hc => ⟨rfl, hc, h⟩

theorem sure_lift {Q : α → Prop} {r : Except Fault α} (hok : ∀ a, r = .ok a → Q a)
    (herr : ∀ e, r = .error e → ∃ text, e = .corrupt text) :
    Sure W K (Act.lift r) (Act.lift r) Q := by
  intro c hc
  cases r with
  | ok a => exact ⟨rfl, hc, hok a rfl⟩
  | error e =>
    obtain ⟨text, rfl⟩ := herr e rfl
    exact ⟨rfl, hc⟩

/-- **One reader after another.** -/
theorem Sure.bind {m m' : Dec α} {f f' : α → Dec β} {Q : α → Prop} {R : β → Prop}
    (hm : Sure W K m m' Q) (hf : ∀ a, Q a → Sure W K (f a) (f' a) R) :
    Sure W K (m >>= f) (m' >>= f') R := by
  intro c hc
  have h := hm c hc
  rw [Act.bind_eq, Act.bind_eq]
  rcases hr : m c with ⟨e | a, c'⟩ <;> rw [hr] at h
  · cases e with
    | corrupt text =>
      rw [h.1]
      exact ⟨rfl, h.2⟩
    | overflow => exact h
    | capacity =>
      rw [h.1]
      exact ⟨rfl, h.2⟩
  · rw [h.1]
    exact hf a h.2.2 c' h.2.1

theorem sure_times {m m' : Dec α} (h : Sure W K m m' fun _ => True) (n : Nat) :
    Sure W K (times m n) (times m' n) fun as => as.length = n := by
  induction n with
  | zero => exact sure_pure rfl
  | succ n ih =>
    refine h.bind fun a _ => ih.bind fun as has => sure_pure ?_
    rw [List.length_cons, has]

variable (hW : Steady buf W)

include hW

theorem sure_note {a : Tag × Nat} (h : Modest buf a) :
    Sure W K (Reader.note a) (Reader.note a) fun _ => True :=
  fun c hc => ⟨rfl, hW.note c a hc h, trivial⟩

theorem sure_byte {text : String} :
    Sure W K (byte buf text) (byte buf text) fun _ => True := by
  intro c hc
  unfold byte
  cases hget : buf[c.pos]? with
  | none => exact ⟨rfl, hc⟩
  | some b =>
    have hlt := (List.getElem?_eq_some_iff.mp hget).1
    exact ⟨rfl, hW.move c _ hc (by omega), trivial⟩

theorem sure_take {n : Nat} :
    Sure W K (take buf n) (take buf n) fun raw => raw.length = n ∧ n ≤ buf.length := by
  intro c hc
  unfold take
  by_cases h64 : 2 ^ 64 ≤ c.pos + n
  · rw [if_pos h64]
    exact ⟨rfl, hc⟩
  · rw [if_neg h64]
    by_cases hlen : buf.length < c.pos + n
    · rw [if_pos hlen]
      exact ⟨rfl, hc⟩
    · rw [if_neg hlen]
      refine ⟨rfl, hW.move c _ hc (by omega), ?_, by omega⟩
      rw [List.length_take, List.length_drop]
      omega

theorem sure_uvarintAt {k : Nat} : ∀ {shift acc : Nat},
    Sure W K (uvarintAt buf k shift acc) (uvarintAt buf k shift acc) fun _ => True := by
  induction k with
  | zero =>
    intro shift acc c hc
    exact ⟨rfl, hc⟩
  | succ k ih =>
    intro shift acc
    refine (sure_byte hW).bind fun b _ => ?_
    dsimp only
    split
    · exact sure_pure trivial
    · exact ih

theorem sure_getUvarint : Sure W K (getUvarint buf) (getUvarint buf) fun _ => True :=
  sure_uvarintAt hW

omit hW in
/-- The one step the builds differ in. -/
theorem sure_product {n k : Nat} :
    Sure W K (product .stops n k) (product o n k) fun size => size = n * k := by
  by_cases hlt : n * k < 2 ^ 64
  · rw [product_of_lt hlt, product_of_lt hlt]
    exact sure_pure rfl
  · rw [product_stops hlt]
    exact fun c hc => hc

theorem sure_withCapacity {t : Tag} {n size : Nat} (h : Modest buf (t, n))
    (hcap : 2 ^ 63 ≤ n * size → K) :
    Sure W K (withCapacity t n size) (withCapacity t n size) fun _ => True := by
  refine (sure_note hW h).bind fun _ _ => ?_
  by_cases hlt : n * size < 2 ^ 63
  · rw [if_pos hlt]
    exact sure_pure trivial
  · rw [if_neg hlt]
    intro c hc
    exact ⟨rfl, hc, hcap (by omega)⟩

end Sure

/-! ## 2. Values -/

section Values

variable {buf : List UInt8} {W : Cursor (Tag × Nat) → Prop} {K : Prop} {o : Overflow}
  (hbuf : buf.length < 2 ^ 63) (hW : Steady buf W)

include hW in
theorem sure_decodeStr :
    Sure W K (decodeStr buf) (decodeStr buf) fun _ => True := by
  refine (sure_getUvarint hW).bind fun n _ => (sure_take hW).bind fun raw hraw => ?_
  refine (sure_note hW ?_).bind fun _ _ => sure_lift (fun _ _ => trivial) fun e he => ?_
  · exact modest_of_le .text (by omega)
  · unfold textOf at he
    cases hu : fromUtf8 raw <;> rw [hu] at he <;> cases he
    exact ⟨_, rfl⟩

include hW in
theorem sure_readTag : Sure W K (readTag buf) (readTag buf) fun _ => True := by
  refine (sure_byte hW).bind fun b _ => sure_lift (fun _ _ => trivial) fun e he => ?_
  cases ht : Tag.of b <;> rw [ht] at he <;> cases he
  exact ⟨_, rfl⟩

include hbuf hW in
/-- **Past its tag a value is read within the buffer, or refused.** -/
theorem sure_decodeBody {item item' : Dec Value} (hitem : Sure W (2 ^ 62 ≤ buf.length) item item' fun _ => True)
    (t : Tag) :
    Sure W (2 ^ 62 ≤ buf.length) (decodeBody .stops buf item t) (decodeBody o buf item' t) fun _ => True := by
  cases t with
  | null => exact sure_pure trivial
  | bool => exact (sure_byte hW).bind fun _ _ => sure_pure trivial
  | int => exact (sure_getUvarint hW).bind fun _ _ => sure_pure trivial
  | timestamp => exact (sure_getUvarint hW).bind fun _ _ => sure_pure trivial
  | float => exact (sure_take hW).bind fun _ _ => sure_pure trivial
  | geo => exact (sure_take hW).bind fun _ _ => sure_pure trivial
  | text => exact (sure_decodeStr hW).bind fun _ _ => sure_pure trivial
  | bytes =>
    refine (sure_getUvarint hW).bind fun n _ => (sure_take hW).bind fun raw hraw => ?_
    exact (sure_note hW (modest_of_le .bytes (by omega))).bind fun _ _ => sure_pure trivial
  | vector =>
    refine (sure_getUvarint hW).bind fun n _ => sure_product.bind fun size hsize => ?_
    refine (sure_take hW).bind fun raw hraw => ?_
    have hdiv : raw.length / 4 * 4 ≤ raw.length := Nat.div_mul_le_self _ _
    have hle := modest_of_le .vector (by omega : raw.length / 4 ≤ buf.length)
    exact (sure_withCapacity hW hle (by omega)).bind fun _ _ => sure_pure trivial
  | vectorF16 =>
    refine (sure_getUvarint hW).bind fun n _ => sure_product.bind fun size hsize => ?_
    refine (sure_take hW).bind fun raw hraw => ?_
    have hle := modest_of_le .vectorF16 (by omega : n ≤ buf.length)
    exact (sure_withCapacity hW hle (by omega)).bind fun _ _ => sure_pure trivial
  | list =>
    refine (sure_getUvarint hW).bind fun n _ => ?_
    refine (sure_note hW (?_ : min n 4096 ≤ _)).bind fun _ _ => ?_
    · exact (Nat.min_le_right n 4096).trans (Nat.le_max_right _ _)
    · exact (sure_times hitem n).bind fun _ _ => sure_pure trivial
  | object =>
    refine (sure_getUvarint hW).bind fun n _ => ?_
    refine (sure_note hW (?_ : min n 4096 ≤ _)).bind fun _ _ => ?_
    · exact (Nat.min_le_right n 4096).trans (Nat.le_max_right _ _)
    · refine (sure_times ?_ n).bind fun _ _ => sure_pure trivial
      exact (sure_decodeStr hW).bind fun _ _ => hitem.bind fun _ _ => sure_pure trivial
  | sparse =>
    refine (sure_getUvarint hW).bind fun _ _ => (sure_getUvarint hW).bind fun n _ => ?_
    refine (sure_note hW (?_ : min n 65536 ≤ _)).bind fun _ _ => ?_
    · exact (Nat.min_le_right n 65536).trans (Nat.le_max_right _ _)
    · refine (sure_times (sure_getUvarint hW) n).bind fun _ _ => sure_product.bind fun _ _ => ?_
      exact (sure_take hW).bind fun _ _ => sure_pure trivial

include hbuf hW in
theorem sure_decodeAt (d : Nat) :
    Sure W (2 ^ 62 ≤ buf.length) (decodeAt .stops buf d) (decodeAt o buf d) fun _ => True := by
  induction d with
  | zero => exact fun c hc => ⟨rfl, hc⟩
  | succ d ih => exact (sure_readTag hW).bind fun t _ => sure_decodeBody hbuf hW ih t

end Values

/-! ## 3. Skipping -/

section Skipping

variable {buf : List UInt8} {o : Overflow}

/-- Within the buffer, or one past it where a bool's tag is its last byte. -/
def InOrPast (buf : List UInt8) (c : Cursor (Tag × Nat)) : Prop :=
  c.pos ≤ buf.length ∨ c.pos = buf.length + 1 ∧ buf.getLast? = some Tag.bool.byte

theorem steady_inOrPast : Steady buf (InOrPast buf) where
  move _ _ _ h := .inl h
  note _ _ h _ := h

theorem sure_skipBody {skip skip' : Dec Unit}
    (hskip : Sure (InOrPast buf) False skip skip' fun _ => True) {t : Tag} (ht : t ≠ .bool) :
    Sure (InOrPast buf) False (skipBody .stops buf skip t) (skipBody o buf skip' t)
      fun _ => True := by
  have hW : Steady buf (InOrPast buf) := steady_inOrPast
  cases t with
  | bool => exact absurd rfl ht
  | null => exact sure_pure trivial
  | int => exact (sure_getUvarint hW).bind fun _ _ => sure_pure trivial
  | timestamp => exact (sure_getUvarint hW).bind fun _ _ => sure_pure trivial
  | float => exact (sure_take hW).bind fun _ _ => sure_pure trivial
  | geo => exact (sure_take hW).bind fun _ _ => sure_pure trivial
  | text =>
    exact (sure_getUvarint hW).bind fun _ _ => (sure_take hW).bind fun _ _ => sure_pure trivial
  | bytes =>
    exact (sure_getUvarint hW).bind fun _ _ => (sure_take hW).bind fun _ _ => sure_pure trivial
  | vector =>
    exact (sure_getUvarint hW).bind fun _ _ => sure_product.bind fun _ _ =>
      (sure_take hW).bind fun _ _ => sure_pure trivial
  | vectorF16 =>
    exact (sure_getUvarint hW).bind fun _ _ => sure_product.bind fun _ _ =>
      (sure_take hW).bind fun _ _ => sure_pure trivial
  | list =>
    exact (sure_getUvarint hW).bind fun n _ => (sure_times hskip n).bind fun _ _ =>
      sure_pure trivial
  | object =>
    refine (sure_getUvarint hW).bind fun n _ => (sure_times ?_ n).bind fun _ _ => sure_pure trivial
    exact (sure_getUvarint hW).bind fun _ _ => (sure_take hW).bind fun _ _ => hskip
  | sparse =>
    refine (sure_getUvarint hW).bind fun _ _ => (sure_getUvarint hW).bind fun n _ => ?_
    refine (sure_times (sure_getUvarint hW) n).bind fun _ _ => sure_product.bind fun _ _ => ?_
    exact (sure_take hW).bind fun _ _ => sure_pure trivial

theorem sure_skipAt (d : Nat) :
    Sure (InOrPast buf) False (skipAt .stops buf d) (skipAt o buf d) fun _ => True := by
  induction d with
  | zero => exact fun c hc => ⟨rfl, hc⟩
  | succ d ih =>
    intro c hc
    have htag := sure_readTag (K := False) steady_inOrPast c hc
    rw [skipAt, skipAt, Act.bind_eq, Act.bind_eq]
    rcases hr : readTag buf c with ⟨e | t, c₁⟩
    · rw [hr] at htag
      cases e with
      | corrupt text => exact ⟨rfl, htag.2⟩
      | overflow => exact htag
      | capacity => exact ⟨rfl, htag.2⟩
    · rw [hr] at htag
      by_cases ht : t = .bool
      · -- past a bool nothing was looked at: the place is at most one past the tag
        subst ht
        obtain ⟨hget, rfl⟩ := readTag_ok hr
        have hlt := (List.getElem?_eq_some_iff.mp hget).1
        refine ⟨rfl, ?_, trivial⟩
        rcases Nat.lt_or_ge (c.pos + 1) buf.length with hin | hlast
        · exact .inl hin
        · have hpos : c.pos = buf.length - 1 := by omega
          refine .inr ⟨show c.pos + 1 + 1 = _ by omega, ?_⟩
          rw [List.getLast?_eq_getElem?, ← hpos]
          exact hget
      · exact sure_skipBody ih ht c₁ htag.2.1

end Skipping

/-! ## 4. Lengths -/

section Counting

variable {buf : List UInt8} {c c' : Cursor (Tag × Nat)}

/-- A vector has as many elements as the length in front of it says, and so has a sparse one. -/
def Counted (buf : List UInt8) (c : Cursor (Tag × Nat)) : Value → Prop
  | .vector xs => ∃ c₁, getUvarint buf ⟨c.pos + 1, c.log⟩ = (.ok xs.length, c₁)
  | .sparse _ es => ∃ dim c₁ c₂, getUvarint buf ⟨c.pos + 1, c.log⟩ = (.ok dim, c₁) ∧
      getUvarint buf c₁ = (.ok es.length, c₂)
  | _ => True

theorem length_chunksFrom (k n : Nat) (raw : List UInt8) : (chunksFrom k n raw).length = n := by
  induction n generalizing raw with
  | zero => rfl
  | succ n ih => rw [chunksFrom, List.length_cons, ih]

theorem length_chunks (k : Nat) (raw : List UInt8) : (chunks k raw).length = raw.length / k :=
  length_chunksFrom k _ raw

theorem length_indices (i : UInt32) (gs : List Nat) : (indices i gs).length = gs.length := by
  induction gs generalizing i with
  | nil => rfl
  | cons g gs ih => rw [indices, List.length_cons, ih, List.length_cons]

theorem length_weigh (is : List UInt32) (ws : List F32) : (weigh is ws).length = is.length := by
  induction is generalizing ws with
  | nil => rfl
  | cons i is ih => cases ws <;> rw [weigh, List.length_cons, ih, List.length_cons]

theorem take_ok {n : Nat} {raw : List UInt8} (h : take buf n c = (.ok raw, c')) :
    raw.length = n := by
  unfold take at h
  by_cases h64 : 2 ^ 64 ≤ c.pos + n
  · rw [if_pos h64] at h
    cases h
  · rw [if_neg h64] at h
    by_cases hlen : buf.length < c.pos + n
    · rw [if_pos hlen] at h
      cases h
    · rw [if_neg hlen] at h
      cases h
      rw [List.length_take, List.length_drop]
      omega

theorem product_stops_ok {n k size : Nat} (h : product .stops n k c = (.ok size, c')) :
    size = n * k := by
  by_cases hlt : n * k < 2 ^ 64
  · rw [product_of_lt hlt] at h
    cases h
    rfl
  · rw [product_stops hlt] at h
    cases h

theorem counted_decodeAt {d : Nat} {v : Value} (h : decodeAt .stops buf d c = (.ok v, c')) :
    Counted buf c v := by
  cases d with
  | zero => cases h
  | succ d =>
    obtain ⟨t, c₁, ht, hbody⟩ := Reader.bind_ok h
    obtain ⟨-, rfl⟩ := readTag_ok ht
    cases t with
    | null => cases hbody; trivial
    | bool => obtain ⟨_, _, _, h⟩ := Reader.bind_ok hbody; cases h; trivial
    | int => obtain ⟨_, _, _, h⟩ := Reader.bind_ok hbody; cases h; trivial
    | timestamp => obtain ⟨_, _, _, h⟩ := Reader.bind_ok hbody; cases h; trivial
    | float => obtain ⟨_, _, _, h⟩ := Reader.bind_ok hbody; cases h; trivial
    | geo => obtain ⟨_, _, _, h⟩ := Reader.bind_ok hbody; cases h; trivial
    | text => obtain ⟨_, _, _, h⟩ := Reader.bind_ok hbody; cases h; trivial
    | bytes =>
      obtain ⟨_, _, _, h⟩ := Reader.bind_ok hbody
      obtain ⟨_, _, _, h⟩ := Reader.bind_ok h
      obtain ⟨_, _, _, h⟩ := Reader.bind_ok h
      cases h
      trivial
    | list =>
      obtain ⟨_, _, _, h⟩ := Reader.bind_ok hbody
      obtain ⟨_, _, _, h⟩ := Reader.bind_ok h
      obtain ⟨_, _, _, h⟩ := Reader.bind_ok h
      cases h
      trivial
    | object =>
      obtain ⟨_, _, _, h⟩ := Reader.bind_ok hbody
      obtain ⟨_, _, _, h⟩ := Reader.bind_ok h
      obtain ⟨_, _, _, h⟩ := Reader.bind_ok h
      cases h
      trivial
    | vector =>
      obtain ⟨n, c₂, hn, h⟩ := Reader.bind_ok hbody
      obtain ⟨size, _, hsize, h⟩ := Reader.bind_ok h
      obtain ⟨raw, _, hraw, h⟩ := Reader.bind_ok h
      obtain ⟨_, _, _, h⟩ := Reader.bind_ok h
      cases h
      have hlen : (f32s raw).length = n := by
        rw [f32s, List.length_map, length_chunks, take_ok hraw, product_stops_ok hsize]
        omega
      exact ⟨c₂, by rw [hlen]; exact hn⟩
    | vectorF16 =>
      obtain ⟨n, c₂, hn, h⟩ := Reader.bind_ok hbody
      obtain ⟨size, _, hsize, h⟩ := Reader.bind_ok h
      obtain ⟨raw, _, hraw, h⟩ := Reader.bind_ok h
      obtain ⟨_, _, _, h⟩ := Reader.bind_ok h
      cases h
      have hlen : ((chunks 2 raw).map fun w => f32FromF16 (fromLe w)).length = n := by
        rw [List.length_map, length_chunks, take_ok hraw, product_stops_ok hsize]
        omega
      exact ⟨c₂, by rw [hlen]; exact hn⟩
    | sparse =>
      obtain ⟨dim, c₂, hdim, h⟩ := Reader.bind_ok hbody
      obtain ⟨n, c₃, hn, h⟩ := Reader.bind_ok h
      obtain ⟨_, _, _, h⟩ := Reader.bind_ok h
      obtain ⟨gs, _, hgs, h⟩ := Reader.bind_ok h
      obtain ⟨_, _, _, h⟩ := Reader.bind_ok h
      obtain ⟨raw, _, _, h⟩ := Reader.bind_ok h
      cases h
      refine ⟨dim, c₂, c₃, hdim, ?_⟩
      rw [length_weigh, length_indices, length_times hgs]
      exact hn

end Counting

/-! ## 5. Safety -/

section Safety

variable {buf : List UInt8} {pos : Nat}

/-- Within the buffer, having asked for modest capacities only. -/
def Within (buf : List UInt8) (c : Cursor (Tag × Nat)) : Prop :=
  c.pos ≤ buf.length ∧ ∀ a ∈ c.log, Modest buf a

theorem steady_within : Steady buf (Within buf) where
  move _ _ h hpos := ⟨hpos, h.2⟩
  note c a h ha := by
    refine ⟨h.1, fun b hb => ?_⟩
    rcases List.mem_append.mp hb with hb | hb
    · exact h.2 b hb
    · rw [List.mem_singleton.mp hb]
      exact ha

theorem readTag_past (h : buf.length ≤ pos) :
    readTag buf ⟨pos, []⟩ = (.error (.corrupt "missing value tag"), ⟨pos, []⟩) := by
  rw [readTag, Act.bind_eq, byte, List.getElem?_eq_none h]

/-- The outcome of a reader that is sure of itself, where no product overflowed. -/
theorem Sure.outcome {α : Type} {W : Cursor (Tag × Nat) → Prop} {K : Prop} {Q : α → Prop}
    {m : Overflow → Dec α} (h : ∀ o, Sure W K (m .stops) (m o) Q)
    {c : Cursor (Tag × Nat)} (hc : W c) (hno : (m .stops c).1 ≠ .error .overflow) :
    ∃ r c', (∀ o, m o c = (r, c')) ∧ W c' ∧
      ((∃ text, r = .error (.corrupt text)) ∨ (∃ a, r = .ok a ∧ Q a) ∨
        r = .error .capacity ∧ K) := by
  rcases hr : m .stops c with ⟨e | a, c'⟩
  · cases e with
    | corrupt text =>
      have hW := h .stops c hc
      rw [hr] at hW
      refine ⟨.error (.corrupt text), c', fun o => ?_, hW.2, .inl ⟨text, rfl⟩⟩
      have ho := h o c hc
      rw [hr] at ho
      exact ho.1
    | overflow => exact absurd (by rw [hr]) hno
    | capacity =>
      have hW := h .stops c hc
      rw [hr] at hW
      refine ⟨.error .capacity, c', fun o => ?_, hW.2.1, .inr (.inr ⟨rfl, hW.2.2⟩)⟩
      have ho := h o c hc
      rw [hr] at ho
      exact ho.1
  · have hW := h .stops c hc
    rw [hr] at hW
    refine ⟨.ok a, c', fun o => ?_, hW.2.1, .inr (.inl ⟨a, rfl, hW.2.2⟩)⟩
    have ho := h o c hc
    rw [hr] at ho
    exact ho.1

/-- **Reading a value is safe on every buffer**, an overflowing product and a bool skipped at the
buffer's end left out. -/
theorem decoding_is_safe (buf : List UInt8) (hbuf : buf.length < 2 ^ 63) (pos : Nat) :
    ((decodeValue .stops buf ⟨pos, []⟩).1 ≠ .error .overflow → ∃ r c,
      (∀ o, decodeValue o buf ⟨pos, []⟩ = (r, c)) ∧ (∀ a ∈ c.log, Modest buf a) ∧
      ((∃ text, r = .error (.corrupt text)) ∨
        (∃ v, r = .ok v ∧ c.pos ≤ buf.length ∧ Counted buf ⟨pos, []⟩ v) ∨
        r = .error .capacity ∧ 2 ^ 62 ≤ buf.length)) ∧
    ((skipValue .stops buf ⟨pos, []⟩).1 ≠ .error .overflow → ∃ r c,
      (∀ o, skipValue o buf ⟨pos, []⟩ = (r, c)) ∧
      ((∃ text, r = .error (.corrupt text)) ∨
        r = .ok () ∧ (buf.getLast? ≠ some Tag.bool.byte → c.pos ≤ buf.length))) := by
  by_cases hpos : pos ≤ buf.length
  · constructor
    · intro hno
      have hin : Within buf ⟨pos, []⟩ := ⟨hpos, fun a ha => absurd ha List.not_mem_nil⟩
      obtain ⟨r, c, hall, hW, hr⟩ := Sure.outcome (m := fun o => decodeValue o buf)
        (fun o => sure_decodeAt hbuf steady_within _) hin hno
      refine ⟨r, c, hall, hW.2, ?_⟩
      rcases hr with htext | ⟨v, rfl, -⟩ | hcap
      · exact .inl htext
      · exact .inr (.inl ⟨v, rfl, hW.1, counted_decodeAt (hall .stops)⟩)
      · exact .inr (.inr hcap)
    · intro hno
      obtain ⟨r, c, hall, hW, hr⟩ := Sure.outcome (m := fun o => skipValue o buf)
        (fun o => sure_skipAt _) (.inl hpos : InOrPast buf ⟨pos, []⟩) hno
      refine ⟨r, c, hall, ?_⟩
      rcases hr with htext | ⟨_, rfl, -⟩ | ⟨-, hfalse⟩
      · exact .inl htext
      · refine .inr ⟨rfl, fun hlast => ?_⟩
        rcases hW with hin | ⟨-, hbool⟩
        · exact hin
        · exact absurd hbool hlast
      · exact hfalse.elim
  · -- from past the buffer there is no tag to read
    have htag : readTag buf ⟨pos, []⟩ = _ := readTag_past (by omega)
    have hdec : ∀ o, decodeValue o buf ⟨pos, []⟩ =
        (.error (.corrupt "missing value tag"), ⟨pos, []⟩) := by
      intro o
      rw [decodeValue, decodeAt, Act.bind_eq, htag]
    have hskip : ∀ o, skipValue o buf ⟨pos, []⟩ =
        (.error (.corrupt "missing value tag"), ⟨pos, []⟩) := by
      intro o
      rw [skipValue, skipAt, Act.bind_eq, htag]
    refine ⟨fun _ => ⟨_, _, hdec, ?_, .inl ⟨_, rfl⟩⟩, fun _ => ⟨_, _, hskip, .inl ⟨_, rfl⟩⟩⟩
    exact fun a ha => absurd ha List.not_mem_nil

theorem decoding_is_safe_vector :
    (∃ r c, (∀ o, decodeValue o [6, 1, 0, 0, 0, 0] ⟨0, []⟩ = (r, c)) ∧
      ∀ a ∈ c.log, Modest [6, 1, 0, 0, 0, 0] a) ∧
    ∃ r c, (∀ o, skipValue o [6, 1, 0, 0, 0, 0] ⟨0, []⟩ = (r, c)) ∧
      ((∃ text, r = .error (.corrupt text)) ∨ r = .ok () ∧ c.pos ≤ 6) := by
  have hsafe := decoding_is_safe [6, 1, 0, 0, 0, 0] (by decide) 0
  constructor
  · obtain ⟨r, c, hall, hlog, -⟩ := hsafe.1 (by decide +kernel)
    exact ⟨r, c, hall, hlog⟩
  · obtain ⟨r, c, hall, hr⟩ := hsafe.2 (by decide +kernel)
    refine ⟨r, c, hall, ?_⟩
    rcases hr with htext | ⟨hok, hpos⟩
    · exact .inl htext
    · exact .inr ⟨hok, hpos (by decide)⟩

/-- Room for 4096 items out of three bytes; a length of `2 ^ 62` whose four times are `2 ^ 64`,
and read as none at all in a release build; a bool skipped that is not there. -/
theorem decoding_unbounded :
    (decodeValue .stops [7, 0x80, 0x20] ⟨0, []⟩).2.log = [(.list, 4096)] ∧
    (decodeValue .stops [6, 0x80, 0x80, 0x80, 0x80, 0x80, 0x80, 0x80, 0x80, 0x40] ⟨0, []⟩).1 =
      .error .overflow ∧
    (decodeValue .wraps [6, 0x80, 0x80, 0x80, 0x80, 0x80, 0x80, 0x80, 0x80, 0x40] ⟨0, []⟩).1 =
      .ok (.vector []) ∧
    (skipValue .stops [1] ⟨0, []⟩).1 = .ok () ∧ (skipValue .stops [1] ⟨0, []⟩).2.pos = 2 := by
  decide +kernel

end Safety

end Codec

end Fenec
