/-
# Payloads cut short

A payload that ends before a field holds null there, since the field may have been added after the
document was written; one that ends inside a value is damage, and is to be refused.  The readers
tell the two apart by where passing over the values before leaves the place.

Reading a value off a buffer that ends inside it fails, for every tag (`breaks_decode`).  Passing
over it fails as well, but for one: a bool is passed over without looking at its byte.  So a value
that ends in a bool, one byte short, is passed over to a place past the end (`breaks_skip`), and
there the fields behind it read as null.  `Broken` is a payload cut inside a value, and
`refused_iff` says that its readers refuse it in every other case.
-/
import Fenec.Payloads

namespace Fenec

open Lib Reader Codec Chunks

namespace Cells

/-! ## 1. What is missing of a value -/

/-- The fault is an error, and no panic. -/
def Corrupt : Fault → Prop
  | .corrupt _ => True
  | _ => False

mutual

/-- The last byte of the value is a bool's. -/
def endsBool : Value → Bool
  | .bool _ => true
  | .list items => endsBoolItems items
  | .object members => endsBoolMembers members
  | _ => false
termination_by structural v => v

/-- The same of a list's items. -/
def endsBoolItems : List Value → Bool
  | [] => false
  | [v] => endsBool v
  | _ :: v :: vs => endsBoolItems (v :: vs)
termination_by structural l => l

/-- The same of an object's members. -/
def endsBoolMembers : List (String × Value) → Bool
  | [] => false
  | [(_, v)] => endsBool v
  | _ :: m :: ms => endsBoolMembers (m :: ms)
termination_by structural l => l

end

theorem endsBoolItems_eq (vs : List Value) : endsBoolItems vs = vs.getLast?.any endsBool := by
  induction vs with
  | nil => rfl
  | cons v vs ih =>
    cases vs with
    | nil => rfl
    | cons w ws => rw [endsBoolItems, ih, List.getLast?_cons_cons]

theorem endsBoolMembers_eq (ms : List (String × Value)) :
    endsBoolMembers ms = ms.getLast?.any fun kv => endsBool kv.2 := by
  induction ms with
  | nil => rfl
  | cons m ms ih =>
    cases ms with
    | nil => rfl
    | cons n ns => rw [endsBoolMembers, ih, List.getLast?_cons_cons]

section Primitives

variable {o : Overflow} {buf : List UInt8}

theorem fails_byte {text : String} {c : Cursor (Tag × Nat)} (h : buf.length ≤ c.pos) :
    Fails Corrupt (byte buf text) c := by
  refine ⟨.corrupt text, c, trivial, ?_⟩
  rw [byte, List.getElem?_eq_none h]

theorem misses_byte {text : String} : Misses buf Corrupt (byte buf text) :=
  fun _ hc => fails_byte (Nat.le_of_lt hc)

theorem breaks_byte {b : UInt8} {text : String} :
    Breaks buf Corrupt (byte buf text) [b] b false := by
  intro c more _ hne h
  simp only [Bool.false_eq_true, false_and, if_false]
  refine fails_byte ?_
  have hlen := congrArg List.length h
  have hmore := List.length_pos_iff.mpr hne
  rw [List.length_append, List.length_drop, List.length_singleton] at hlen
  omega

/-- Bytes that all go on are no number. -/
theorem fails_uvarintAt {k : Nat} : ∀ (shift acc : Nat) {c : Cursor (Tag × Nat)},
    (∀ b ∈ buf.drop c.pos, 128 ≤ b.toNat) → Fails Corrupt (uvarintAt buf k shift acc) c := by
  induction k with
  | zero => exact fun _ _ c _ => ⟨.corrupt _, c, trivial, rfl⟩
  | succ k ih =>
    intro shift acc c hall
    cases hget : buf[c.pos]? with
    | none => exact (fails_byte (List.getElem?_eq_none_iff.mp hget)).bind
    | some b =>
      have hlt := (List.getElem?_eq_some_iff.mp hget).1
      have hdrop : buf.drop c.pos = b :: buf.drop (c.pos + 1) := by
        rw [List.drop_eq_getElem_cons hlt, (List.getElem?_eq_some_iff.mp hget).2]
      rw [hdrop] at hall
      have hb := hall b (List.mem_cons_self ..)
      obtain ⟨e, c', he, hrest⟩ := ih (shift + 7)
        (acc ||| (((b.toNat % 128) <<< shift) % 2 ^ 64)) (c := ⟨c.pos + 1, c.log⟩)
        fun x hx => hall x (List.mem_cons_of_mem _ hx)
      refine ⟨e, c', he, ?_⟩
      rw [uvarintAt, Act.bind_eq, byte, hget]
      dsimp only
      rw [if_neg (by omega)]
      exact hrest

theorem misses_getUvarint : Misses buf Corrupt (getUvarint buf) := by
  intro c hc
  refine fails_uvarintAt _ _ fun b hb => ?_
  rw [List.drop_of_length_le (Nat.le_of_lt hc)] at hb
  cases hb

/-- All but the last byte of a number go on. -/
theorem uvarintGo_goes_on {f v : Nat} {bs more : List UInt8} (h : bs ++ more = uvarintGo f v)
    (hne : more ≠ []) : ∀ b ∈ bs, 128 ≤ b.toNat := by
  have single : ∀ {bs : List UInt8} {x : UInt8}, bs ++ more = [x] → bs = [] := by
    intro bs x h
    have hlen := congrArg List.length h
    have hmore := List.length_pos_iff.mpr hne
    rw [List.length_append, List.length_singleton] at hlen
    exact List.eq_nil_of_length_eq_zero (by omega)
  induction f generalizing v bs with
  | zero => simp [single h]
  | succ f ih =>
    rw [uvarintGo] at h
    split at h
    · simp [single h]
    · cases bs with
      | nil => simp
      | cons b bs =>
        obtain ⟨rfl, htail⟩ := List.cons.inj h
        intro x hx
        rcases List.mem_cons.mp hx with rfl | hx
        · rw [UInt8.toNat_ofNat']
          omega
        · exact ih htail x hx

theorem uvarint_ne_nil (v : Nat) : uvarint v ≠ [] := by
  unfold uvarint
  cases Nat.log2 v with
  | zero => simp [uvarintGo]
  | succ n =>
    rw [uvarintGo]
    split <;> simp

theorem breaks_uvarint {v : Nat} : Breaks buf Corrupt (getUvarint buf) (uvarint v) v false := by
  intro c more _ hne h
  simp only [Bool.false_eq_true, false_and, if_false]
  exact fails_uvarintAt _ _ (uvarintGo_goes_on h hne)

theorem fails_take {n : Nat} {c : Cursor (Tag × Nat)} (h : buf.length < c.pos + n) :
    Fails Corrupt (take buf n) c := by
  unfold Fails take
  rw [if_pos h]
  split
  · exact ⟨.corrupt _, c, trivial, rfl⟩
  · exact ⟨.corrupt _, c, trivial, rfl⟩

theorem breaks_take {raw : List UInt8} {n : Nat} (hn : raw.length = n) :
    Breaks buf Corrupt (take buf n) raw raw false := by
  intro c more hpos hne h
  simp only [Bool.false_eq_true, false_and, if_false]
  refine fails_take ?_
  have hlen := congrArg List.length h
  have hmore := List.length_pos_iff.mpr hne
  rw [List.length_append, List.length_drop] at hlen
  omega

theorem breaks_readTag (t : Tag) : Breaks buf Corrupt (readTag buf) [t.byte] t false :=
  breaks_byte.done

theorem misses_readTag : Misses buf Corrupt (readTag buf) := misses_byte.bind

end Primitives

/-! ## 2. Reading and passing over a value cut short -/

section Values

variable {o : Overflow} {buf : List UInt8}

theorem breaks_decodeStr {s : String} (hs : (encodeStr s).length < 2 ^ 63) :
    Breaks buf Corrupt (decodeStr buf) (encodeStr s) s false := by
  have hlen : (utf8 s.toList).length < 2 ^ 64 := by
    rw [encodeStr, List.length_append] at hs
    omega
  exact breaks_uvarint.next (reads_uvarint hlen) (by simp) (breaks_take rfl).done

/-- The gaps of a sparse vector, read and cut short. -/
theorem gaps_cut (es : List (UInt32 × F32)) :
    Reader.Reads buf (times (getUvarint buf) es.length) (gaps 0 es) (gapsOf 0 es) ∧
      Breaks buf Corrupt (times (getUvarint buf) es.length) (gaps 0 es) (gapsOf 0 es) false := by
  rw [gaps_eq, ← length_gapsOf 0 es]
  have hreads : ∀ g ∈ gapsOf 0 es, Reader.Reads buf (getUvarint buf) (uvarint g) g :=
    fun g hg => reads_uvarint (lt_of_mem_gapsOf hg)
  have hbreaks : Breaks buf Corrupt (times (getUvarint buf) (gapsOf 0 es).length)
      ((gapsOf 0 es).flatMap uvarint) ((gapsOf 0 es).map id) false :=
    breaks_times_strict hreads (fun g _ => breaks_uvarint) uvarint_ne_nil
  rw [List.map_id] at hbreaks
  exact ⟨reads_times hreads, hbreaks⟩

theorem breaks_tagged {d : Nat} {t : Tag} {bs : List UInt8} {v : Value}
    (h : Breaks buf Corrupt (decodeBody o buf (decodeAt o buf d) t) bs v false) :
    Breaks buf Corrupt (decodeAt o buf (d + 1)) (t.byte :: bs) v false :=
  (breaks_readTag t).next (reads_readTag t) (by simp) h

/-- **A value the buffer ends inside of is not read**, by induction over the depth allowed. -/
theorem breaks_decode (hbuf : buf.length < 2 ^ 63) {d : Nat} : ∀ v : Value,
    (encodeValue v).length ≤ d → (encodeValue v).length < 2 ^ 63 →
    Breaks buf Corrupt (decodeAt o buf d) (encodeValue v) v false := by
  induction d with
  | zero =>
    intro v hd
    exact absurd (length_encodeValue_pos v) (by omega)
  | succ d ih =>
    intro v hd hlt
    cases v with
    | null => exact breaks_tagged (t := .null) breaks_nil
    | bool b => exact breaks_tagged (t := .bool) breaks_byte.done
    | int i => exact breaks_tagged (t := .int) breaks_uvarint.done
    | timestamp i => exact breaks_tagged (t := .timestamp) breaks_uvarint.done
    | float f => exact breaks_tagged (t := .float) (breaks_take (length_leBytes 8 _)).done
    | text s =>
      have hs : (encodeStr s).length < 2 ^ 63 := by
        simp only [encodeValue, body, List.length_cons] at hlt
        omega
      exact breaks_tagged (t := .text) (breaks_decodeStr hs).done
    | bytes b =>
      have hb : b.length < 2 ^ 64 := by
        simp only [encodeValue, body, List.length_cons, List.length_append] at hlt
        omega
      refine breaks_tagged (t := .bytes) (breaks_uvarint.next (reads_uvarint hb) (by simp) ?_)
      exact (breaks_take rfl).done
    | vector v =>
      have hv : v.length * 4 < 2 ^ 63 := by
        simp only [encodeValue, body, List.length_cons, List.length_append, length_words] at hlt
        omega
      refine breaks_tagged (t := .vector) (breaks_uvarint.next (reads_uvarint (by omega))
        (by simp) ?_)
      exact breaks_after (reads_product (by omega)) (breaks_take (length_words v)).done
    | list items =>
      have hlen : (items.flatMap encodeValue).length < (encodeValue (.list items)).length := by
        simp only [encodeValue, body, encodeItems_eq, List.length_cons, List.length_append]
        omega
      have hn := length_le_flatMap length_encodeValue_pos items
      have hle : ∀ v ∈ items, (encodeValue v).length ≤ d ∧ (encodeValue v).length < 2 ^ 63 := by
        intro v hv
        have hle := length_le_of_mem (f := encodeValue) hv
        omega
      have htimes : Breaks buf Corrupt (times (decodeAt o buf d) items.length)
          (items.flatMap encodeValue) (items.map id) false :=
        breaks_times_strict (fun v hv => reads_value hbuf v (hle v hv).1 (hle v hv).2)
          (fun v hv => ih v (hle v hv).1 (hle v hv).2) (by simp [encodeValue])
      refine breaks_tagged (t := .list) (breaks_uvarint.next (reads_uvarint (by omega))
        (by simp) ?_)
      rw [encodeItems_eq]
      exact breaks_after reads_note htimes.done
    | object members =>
      have hlen : (members.flatMap encodeMember).length <
          (encodeValue (.object members)).length := by
        simp only [encodeValue, body, encodeMembers_eq, List.length_cons, List.length_append]
        omega
      have hn := length_le_flatMap length_encodeMember_pos members
      have hle : ∀ kv ∈ members, (encodeStr kv.1).length < 2 ^ 63 ∧
          (encodeValue kv.2).length ≤ d ∧ (encodeValue kv.2).length < 2 ^ 63 := by
        intro kv hkv
        have hle := length_le_of_mem (f := encodeMember) hkv
        rw [encodeMember, List.length_append] at hle
        omega
      have htimes : Breaks buf Corrupt (times (do
          let k ← decodeStr buf
          let v ← decodeAt o buf d
          pure (k, v) : Dec (String × Value)) members.length)
          (members.flatMap encodeMember) (members.map id) false := by
        refine breaks_times_strict (fun kv hkv => ?_) (fun kv hkv => ?_)
          (by simp [encodeMember, encodeValue])
        · obtain ⟨hk, hd, hv⟩ := hle kv hkv
          exact (reads_decodeStr hbuf hk).bind ((reads_value hbuf kv.2 hd hv).answer reads_pure)
        · obtain ⟨hk, hd, hv⟩ := hle kv hkv
          exact (breaks_decodeStr hk).next (reads_decodeStr hbuf hk) (by simp) (ih kv.2 hd hv).done
      refine breaks_tagged (t := .object) (breaks_uvarint.next (reads_uvarint (by omega))
        (by simp) ?_)
      rw [encodeMembers_eq]
      exact breaks_after reads_note htimes.done
    | sparse dim es =>
      have hes : es.length * 4 < 2 ^ 63 := by
        simp only [encodeValue, body, List.length_cons, List.length_append, length_words,
          List.length_map] at hlt
        omega
      have hraw : (words (es.map (·.2))).length = es.length * 4 := by
        rw [length_words, List.length_map]
      have hdim : dim.toNat < 2 ^ 64 := Nat.lt_trans (UInt32.toNat_lt dim) (by norm_num)
      obtain ⟨hreads, hgaps⟩ := gaps_cut es
      refine breaks_tagged (t := .sparse) (breaks_uvarint.next (reads_uvarint hdim) (by simp) ?_)
      refine breaks_uvarint.next (reads_uvarint (by omega)) (by simp) (breaks_after reads_note ?_)
      refine hgaps.next hreads (by simp) (breaks_after (reads_product (by omega)) ?_)
      exact (breaks_take hraw).done

theorem reads_skipAt (hbuf : buf.length < 2 ^ 63) {d : Nat} {v : Value}
    (hd : (encodeValue v).length ≤ d) (hlt : (encodeValue v).length < 2 ^ 63) :
    Reader.Reads buf (skipAt o buf d) (encodeValue v) () := by
  intro c rest hpos hdrop
  obtain ⟨l, hl⟩ := reads_value (o := o) hbuf v hd hlt c rest hpos hdrop
  obtain ⟨_, ⟨pos, l'⟩, hskip, hpos', -⟩ := follows_decode _ c c _ _ rfl hl
  cases hpos'
  exact ⟨l', hskip⟩

theorem misses_skipAt (d : Nat) : Misses buf Corrupt (skipAt o buf d) := by
  cases d with
  | zero => exact fun c _ => ⟨.corrupt _, c, trivial, rfl⟩
  | succ d => exact misses_readTag.bind

theorem breaks_skip_tagged {d : Nat} {t : Tag} {bs : List UInt8} {loose : Bool}
    (hnil : bs = [] → loose = false)
    (h : Breaks buf Corrupt (skipBody o buf (skipAt o buf d) t) bs () loose) :
    Breaks buf Corrupt (skipAt o buf (d + 1)) (t.byte :: bs) () loose :=
  (breaks_readTag t).next (reads_readTag t) hnil h

/-- A text or bytes behind their length. -/
theorem breaks_counted {raw : List UInt8} (h : raw.length < 2 ^ 64) :
    Breaks buf Corrupt (do
      let n ← getUvarint buf
      let _ ← take buf n
      pure () : Dec Unit) (uvarint raw.length ++ raw) () false :=
  breaks_uvarint.next (reads_uvarint h) (by simp) (breaks_take rfl).done

/-- **A value the buffer ends inside of is not passed over**, one byte short of a last bool
apart. -/
theorem breaks_skip (hbuf : buf.length < 2 ^ 63) {d : Nat} : ∀ v : Value,
    (encodeValue v).length ≤ d → (encodeValue v).length < 2 ^ 63 →
    Breaks buf Corrupt (skipAt o buf d) (encodeValue v) () (endsBool v) := by
  induction d with
  | zero =>
    intro v hd
    exact absurd (length_encodeValue_pos v) (by omega)
  | succ d ih =>
    intro v hd hlt
    cases v with
    | null => exact breaks_skip_tagged (t := .null) (by simp [endsBool]) breaks_nil
    | bool b =>
      refine breaks_skip_tagged (t := .bool) (by simp [body]) ?_
      -- its byte is passed over unseen
      intro c more hpos hne h
      have hlen := congrArg List.length h
      have hmore := List.length_pos_iff.mpr hne
      simp only [body, List.length_append, List.length_singleton] at hlen
      rw [if_pos ⟨rfl, by omega⟩]
      exact ⟨c.log, rfl⟩
    | int i => exact breaks_skip_tagged (t := .int) (fun _ => rfl) breaks_uvarint.done
    | timestamp i => exact breaks_skip_tagged (t := .timestamp) (fun _ => rfl) breaks_uvarint.done
    | float f =>
      exact breaks_skip_tagged (t := .float) (fun _ => rfl) (breaks_take (length_leBytes 8 _)).done
    | text s =>
      have hs : (utf8 s.toList).length < 2 ^ 64 := by
        simp only [encodeValue, body, encodeStr, List.length_cons, List.length_append] at hlt
        omega
      exact breaks_skip_tagged (t := .text) (fun _ => rfl) (breaks_counted hs)
    | bytes b =>
      have hb : b.length < 2 ^ 64 := by
        simp only [encodeValue, body, List.length_cons, List.length_append] at hlt
        omega
      exact breaks_skip_tagged (t := .bytes) (fun _ => rfl) (breaks_counted hb)
    | vector v =>
      have hv : v.length * 4 < 2 ^ 63 := by
        simp only [encodeValue, body, List.length_cons, List.length_append, length_words] at hlt
        omega
      refine breaks_skip_tagged (t := .vector) (fun _ => rfl)
        (breaks_uvarint.next (reads_uvarint (by omega)) (fun _ => rfl) ?_)
      exact breaks_after (reads_product (by omega)) (breaks_take (length_words v)).done
    | list items =>
      have hlen : (items.flatMap encodeValue).length < (encodeValue (.list items)).length := by
        simp only [encodeValue, body, encodeItems_eq, List.length_cons, List.length_append]
        omega
      have hn := length_le_flatMap length_encodeValue_pos items
      have hle : ∀ v ∈ items, (encodeValue v).length ≤ d ∧ (encodeValue v).length < 2 ^ 63 := by
        intro v hv
        have hle := length_le_of_mem (f := encodeValue) hv
        omega
      have htimes : Breaks buf Corrupt (times (skipAt o buf d) items.length)
          (items.flatMap encodeValue) (items.map fun _ => ()) (items.getLast?.any endsBool) :=
        breaks_times (fun v hv => reads_skipAt hbuf (hle v hv).1 (hle v hv).2)
          (fun v hv => ih v (hle v hv).1 (hle v hv).2) (by simp [encodeValue])
          (.inr (misses_skipAt d))
      refine breaks_skip_tagged (t := .list) (by simp [body, uvarint_ne_nil]) ?_
      refine breaks_uvarint.next (reads_uvarint (by omega)) ?_ ?_
      · cases items with
        | nil => exact fun _ => rfl
        | cons v vs => simp [encodeItems]
      · rw [encodeItems_eq, endsBool, endsBoolItems_eq]
        exact htimes.answer fun c => ⟨c.log, rfl⟩
    | object members =>
      have hlen : (members.flatMap encodeMember).length <
          (encodeValue (.object members)).length := by
        simp only [encodeValue, body, encodeMembers_eq, List.length_cons, List.length_append]
        omega
      have hn := length_le_flatMap length_encodeMember_pos members
      have hle : ∀ kv ∈ members, (utf8 kv.1.toList).length < 2 ^ 64 ∧
          (encodeValue kv.2).length ≤ d ∧ (encodeValue kv.2).length < 2 ^ 63 := by
        intro kv hkv
        have hle := length_le_of_mem (f := encodeMember) hkv
        rw [encodeMember, encodeStr, List.length_append, List.length_append] at hle
        omega
      have htimes : Breaks buf Corrupt (times (do
          let k ← getUvarint buf
          let _ ← take buf k
          skipAt o buf d : Dec Unit) members.length) (members.flatMap encodeMember)
          (members.map fun _ => ()) (members.getLast?.any fun kv => endsBool kv.2) := by
        refine breaks_times (fun kv hkv => ?_) (fun kv hkv => ?_)
          (by simp [encodeMember, encodeValue]) (.inr misses_getUvarint.bind)
        · obtain ⟨hk, hd, hv⟩ := hle kv hkv
          rw [encodeMember, encodeStr, List.append_assoc]
          exact (reads_uvarint hk).bind ((reads_take hbuf rfl).bind (reads_skipAt hbuf hd hv))
        · obtain ⟨hk, hd, hv⟩ := hle kv hkv
          have hvalue : encodeValue kv.2 = [] → endsBool kv.2 = false := by simp [encodeValue]
          rw [encodeMember, encodeStr, List.append_assoc]
          refine breaks_uvarint.next (reads_uvarint hk) (by simp [encodeValue]) ?_
          exact (breaks_take rfl).next (reads_take hbuf rfl) hvalue (ih kv.2 hd hv)
      refine breaks_skip_tagged (t := .object) (by simp [body, uvarint_ne_nil]) ?_
      refine breaks_uvarint.next (reads_uvarint (by omega)) ?_ ?_
      · cases members with
        | nil => exact fun _ => rfl
        | cons kv ms => simp [encodeMembers]
      · rw [encodeMembers_eq, endsBool, endsBoolMembers_eq]
        exact htimes.answer fun c => ⟨c.log, rfl⟩
    | sparse dim es =>
      have hes : es.length * 4 < 2 ^ 63 := by
        simp only [encodeValue, body, List.length_cons, List.length_append, length_words,
          List.length_map] at hlt
        omega
      have hraw : (words (es.map (·.2))).length = es.length * 4 := by
        rw [length_words, List.length_map]
      have hdim : dim.toNat < 2 ^ 64 := Nat.lt_trans (UInt32.toNat_lt dim) (by norm_num)
      obtain ⟨hreads, hgaps⟩ := gaps_cut es
      refine breaks_skip_tagged (t := .sparse) (fun _ => rfl)
        (breaks_uvarint.next (reads_uvarint hdim) (fun _ => rfl) ?_)
      refine breaks_uvarint.next (reads_uvarint (by omega)) (fun _ => rfl) ?_
      refine hgaps.next hreads (fun _ => rfl) (breaks_after (reads_product (by omega)) ?_)
      exact (breaks_take hraw).done

end Values

/-! ## 3. The same of a field's value -/

/-- A field's value as it is written. -/
def written (p : Value × DataType) : List UInt8 := encodeValueAs p.1 (some p.2)

/-- The three ways a value is written, by its field's type. -/
theorem written_cases (p : Value × DataType) :
    written p = encodeValue p.1 ∨
    (∃ lon lat : F64, p.1 = .list [.float lon, .float lat] ∧ written p = Tag.geo.byte ::
      (leBytes 8 lon.bits.toNat ++ leBytes 8 lat.bits.toNat)) ∨
    ∃ vals : List F32, p.1 = .vector vals ∧ written p = Tag.vectorF16.byte ::
      (uvarint vals.length ++ vals.flatMap fun f => leBytes 2 (f16FromF32 f)) := by
  obtain ⟨u, ty⟩ := p
  unfold written encodeValueAs
  dsimp only
  split
  · split
    · exact .inr (.inr ⟨_, rfl, rfl⟩)
    · exact .inl rfl
  · split
    · exact .inr (.inl ⟨_, _, rfl, rfl⟩)
    · exact .inl rfl
  · exact .inl rfl

section Fields

variable {o : Overflow} {buf : List UInt8} {p : Value × DataType}

theorem decodeValue_deep (k : Nat) : decodeAt o buf (buf.length + 1 + k) = decodeValue o buf :=
  funext fun _ => decodeAt_deep (Nat.le_add_left _ _) k

theorem skipValue_deep (k : Nat) : skipAt o buf (buf.length + 1 + k) = skipValue o buf :=
  funext fun _ => skipAt_deep (Nat.le_add_left _ _) k

/-- The halves of a vector are two bytes each. -/
theorem length_halves (vals : List F32) :
    (vals.flatMap fun f => leBytes 2 (f16FromF32 f)).length = vals.length * 2 :=
  length_flatMap_const (fun _ => length_leBytes 2 _) vals

/-- **A field's value the payload ends inside of is not read.** -/
theorem breaks_field (hbuf : buf.length < 2 ^ 63) (hp : (written p).length < 2 ^ 63) :
    Breaks buf Corrupt (decodeValue o buf) (written p) (kept p.2 p.1) false := by
  rcases written_cases p with h | ⟨lon, lat, -, h⟩ | ⟨vals, -, h⟩ <;> rw [h] at hp ⊢
  · have hdeep : Breaks buf Corrupt (decodeAt o buf (buf.length + 1 + (encodeValue p.1).length))
        (encodeValue p.1) p.1 false := breaks_decode hbuf p.1 (by omega) hp
    rw [decodeValue_deep] at hdeep
    intro c more hpos hne hbs
    simpa using hdeep.strict hpos hne hbs
  · exact (breaks_readTag .geo).next (reads_readTag .geo) (by simp) (breaks_take (by simp)).done
  · have hlen : vals.length * 2 < 2 ^ 63 := by
      rw [List.length_cons, List.length_append, length_halves] at hp
      omega
    refine (breaks_readTag .vectorF16).next (reads_readTag .vectorF16) (by simp) ?_
    refine breaks_uvarint.next (reads_uvarint (by omega)) (by simp) ?_
    exact breaks_after (reads_product (by omega)) (breaks_take (length_halves vals)).done

/-- **Nor is it passed over**, one byte short of a last bool apart. -/
theorem breaks_skip_field (hbuf : buf.length < 2 ^ 63) (hp : (written p).length < 2 ^ 63) :
    Breaks buf Corrupt (skipValue o buf) (written p) () (endsBool p.1) := by
  rcases written_cases p with h | ⟨lon, lat, hv, h⟩ | ⟨vals, hv, h⟩ <;> rw [h] at hp ⊢
  · have hdeep : Breaks buf Corrupt (skipAt o buf (buf.length + 1 + (encodeValue p.1).length))
        (encodeValue p.1) () (endsBool p.1) := breaks_skip hbuf p.1 (by omega) hp
    rwa [skipValue_deep] at hdeep
  · have hend : endsBool p.1 = false := by rw [hv]; rfl
    rw [hend]
    exact (breaks_readTag .geo).next (reads_readTag .geo) (by simp) (breaks_take (by simp)).done
  · have hend : endsBool p.1 = false := by rw [hv]; rfl
    have hlen : vals.length * 2 < 2 ^ 63 := by
      rw [List.length_cons, List.length_append, length_halves] at hp
      omega
    rw [hend]
    refine (breaks_readTag .vectorF16).next (reads_readTag .vectorF16) (by simp) ?_
    refine breaks_uvarint.next (reads_uvarint (by omega)) (by simp) ?_
    exact breaks_after (reads_product (by omega)) (breaks_take (length_halves vals)).done

theorem written_pos (hp : Sound p.1) : 0 < (written p).length :=
  Cell.pos ⟨p.1, p.2, hp, rfl, rfl⟩

end Fields

/-! ## 4. A payload cut inside a value -/

section Moves

variable {α β : Type} {m : Dec α} {f : α → Dec β} {i j k : Nat}

/-- From `i` the reader answers, and stands at `j`. -/
def Moves (m : Dec α) (i j : Nat) : Prop :=
  ∀ c : Cursor (Tag × Nat), c.pos = i → ∃ a l, m c = (.ok a, ⟨j, l⟩)

/-- From `i` the reader fails with an error. -/
def FailsAt (m : Dec α) (i : Nat) : Prop := ∀ c : Cursor (Tag × Nat), c.pos = i → Fails Corrupt m c

theorem moves_pure {a : α} : Moves (pure a) i i := fun c hc => ⟨a, c.log, by rw [← hc]; rfl⟩

theorem Moves.bind (hm : Moves m i j) (hf : ∀ a, Moves (f a) j k) : Moves (m >>= f) i k := by
  intro c hc
  obtain ⟨a, l, hl⟩ := hm c hc
  obtain ⟨b, l', hl'⟩ := hf a ⟨j, l⟩ rfl
  exact ⟨b, l', by rw [Act.bind_eq, hl]; exact hl'⟩

theorem Moves.fails (hm : Moves m i j) (hf : ∀ a, FailsAt (f a) j) : FailsAt (m >>= f) i := by
  intro c hc
  obtain ⟨a, l, hl⟩ := hm c hc
  obtain ⟨e, c', he, hfail⟩ := hf a ⟨j, l⟩ rfl
  exact ⟨e, c', he, by rw [Act.bind_eq, hl]; exact hfail⟩

theorem FailsAt.bind (hm : FailsAt m i) : FailsAt (m >>= f) i := fun c hc => (hm c hc).bind

/-- A reader that answers does not fail. -/
theorem Moves.not_fails (hm : Moves m i j) : ¬ FailsAt m i := by
  intro hfail
  obtain ⟨a, l, hl⟩ := hm ⟨i, []⟩ rfl
  obtain ⟨e, c', -, he⟩ := hfail ⟨i, []⟩ rfl
  rw [hl] at he
  cases he

end Moves

/-- Where the value at place `i` starts. -/
def startOf (ps : List (Value × DataType)) (i : Nat) : Nat := ((ps.take i).flatMap written).length

theorem startOf_succ {ps : List (Value × DataType)} {i : Nat} {p : Value × DataType}
    (h : ps[i]? = some p) : startOf ps (i + 1) = startOf ps i + (written p).length := by
  obtain ⟨hlt, hget⟩ := List.getElem?_eq_some_iff.mp h
  rw [startOf, startOf, List.take_succ_eq_append_getElem hlt, List.flatMap_append,
    List.length_append, hget]
  simp

/-- **The payload of the values `ps` cut inside the one at place `k`**, `more` missing of it. -/
structure Broken (buf : List UInt8) (ps : List (Value × DataType)) (k : Nat) (p : Value × DataType)
    (part more : List UInt8) : Prop where
  at_k : ps[k]? = some p
  part_ne : part ≠ []
  more_ne : more ≠ []
  cell_eq : part ++ more = written p
  buf_eq : buf = (ps.take k).flatMap written ++ part
  sound : ∀ q ∈ ps, Sound q.1
  short : (ps.flatMap written).length < 2 ^ 63

namespace Broken

variable {o : Overflow} {buf part more : List UInt8} {ps : List (Value × DataType)} {k : Nat}
  {p : Value × DataType}

theorem length_written (h : Broken buf ps k p part more) {q : Value × DataType} (hq : q ∈ ps) :
    (written q).length < 2 ^ 63 := Nat.lt_of_le_of_lt (length_le_of_mem hq) h.short

/-- The place of the cut, and how much is missing there. -/
theorem lengths (h : Broken buf ps k p part more) :
    buf.length = startOf ps k + part.length ∧ startOf ps k < buf.length ∧ buf.length < 2 ^ 63 := by
  have hlen : buf.length = startOf ps k + part.length := by
    rw [h.buf_eq, List.length_append, startOf]
  have hpart := List.length_pos_iff.mpr h.part_ne
  have hle : ((ps.take k).flatMap written).length + (written p).length ≤
      (ps.flatMap written).length := by
    have hk := (List.getElem?_eq_some_iff.mp h.at_k)
    obtain ⟨hk, hget⟩ := hk
    conv_rhs => rw [← List.take_append_drop k ps, List.drop_eq_getElem_cons hk, hget]
    rw [List.flatMap_append, List.flatMap_cons, List.length_append, List.length_append]
    omega
  have hcell := congrArg List.length h.cell_eq
  rw [List.length_append] at hcell
  have hshort := h.short
  refine ⟨hlen, by omega, ?_⟩
  rw [startOf] at hlen
  omega

/-- The values before the cut stand whole. -/
theorem whole (h : Broken buf ps k p part more) {i : Nat} (hi : i < k) :
    ∃ q rest, q ∈ ps ∧ buf.drop (startOf ps i) = written q ++ rest ∧
      startOf ps (i + 1) = startOf ps i + (written q).length ∧ startOf ps i ≤ buf.length := by
  have hk := (List.getElem?_eq_some_iff.mp h.at_k).1
  have hi' : i < ps.length := by omega
  have hnext := startOf_succ (List.getElem?_eq_getElem hi')
  have hbuf : buf = (ps.take i).flatMap written ++
      (written ps[i] ++ ((((ps.take k).drop (i + 1)).flatMap written) ++ part)) := by
    have hsplit : ps.take k = ps.take i ++ ps[i] :: (ps.take k).drop (i + 1) := by
      have hlt : i < (ps.take k).length := by
        rw [List.length_take]
        omega
      conv_lhs => rw [← List.take_append_drop i (ps.take k), List.drop_eq_getElem_cons hlt]
      rw [List.take_take, Nat.min_eq_left (by omega), List.getElem_take]
    conv_lhs => rw [h.buf_eq, hsplit]
    simp [List.flatMap_append, List.flatMap_cons]
  refine ⟨ps[i], ((ps.take k).drop (i + 1)).flatMap written ++ part, List.getElem_mem hi', ?_,
    hnext, ?_⟩
  · conv_lhs => rw [hbuf]
    exact List.drop_left' rfl
  · rw [hbuf, List.length_append, startOf]
    exact Nat.le_add_right _ _

/-- A value before the cut is read. -/
theorem decode_whole (h : Broken buf ps k p part more) {i : Nat} (hi : i < k) :
    Moves (decodeValue o buf) (startOf ps i) (startOf ps (i + 1)) := by
  intro c hc
  obtain ⟨q, rest, hq, hdrop, hnext, hle⟩ := h.whole hi
  have hcell : Cell (written q) (kept q.2 q.1) := ⟨q.1, q.2, h.sound q hq, rfl, rfl⟩
  have hbuf := h.lengths.2.2
  have hlen := past_le hle hdrop
  obtain ⟨l, hl⟩ := hcell.reads (o := o) hbuf (by omega) c rest (hc ▸ hle) (hc ▸ hdrop)
  exact ⟨_, l, by rw [hl, hnext, hc]⟩

theorem skip_whole (h : Broken buf ps k p part more) {i : Nat} (hi : i < k) :
    Moves (skipField o buf) (startOf ps i) (startOf ps (i + 1)) := by
  intro c hc
  obtain ⟨v, l, hl⟩ := h.decode_whole (o := o) hi c hc
  obtain ⟨_, ⟨pos, l'⟩, hskip, hpos, -⟩ := follows_decode _ c c _ _ rfl hl
  cases hpos
  have hlt : c.pos < buf.length := by
    obtain ⟨q, rest, hq, hdrop, hnext, hle⟩ := h.whole hi
    have hpos := written_pos (h.sound q hq)
    have hlen := past_le hle hdrop
    omega
  refine ⟨(), l', ?_⟩
  rw [skipField, List.getElem?_eq_getElem hlt]
  exact hskip

theorem skipFields_whole (h : Broken buf ps k p part more) (n : Nat) : ∀ {i : Nat}, i + n ≤ k →
    Moves (skipFields o buf n) (startOf ps i) (startOf ps (i + n)) := by
  induction n with
  | zero => exact fun _ => moves_pure
  | succ n ih =>
    intro i hi
    refine (h.skip_whole (by omega)).bind fun _ => ?_
    have hrest := ih (i := i + 1) (by omega)
    rwa [Nat.add_right_comm, Nat.add_assoc] at hrest

/-- What is left of the value at the cut. -/
theorem cut (h : Broken buf ps k p part more) {c : Cursor (Tag × Nat)} (hc : c.pos = startOf ps k) :
    c.pos < buf.length ∧ buf.drop c.pos = part ∧ buf.drop c.pos ++ more = written p ∧
      (written p).length < 2 ^ 63 := by
  have hdrop : buf.drop c.pos = part := by
    rw [hc, h.buf_eq]
    exact List.drop_left' rfl
  exact ⟨hc ▸ h.lengths.2.1, hdrop, by rw [hdrop]; exact h.cell_eq,
    h.length_written (List.mem_of_getElem? h.at_k)⟩

theorem decode_cut (h : Broken buf ps k p part more) :
    FailsAt (decodeValue o buf) (startOf ps k) := by
  intro c hc
  obtain ⟨hlt, -, hbs, hp⟩ := h.cut hc
  exact (breaks_field h.lengths.2.2 hp).strict (Nat.le_of_lt hlt) h.more_ne hbs

/-- **The cut value is not read.** -/
theorem valueHere_cut (h : Broken buf ps k p part more) :
    FailsAt (valueHere o buf) (startOf ps k) := by
  intro c hc
  obtain ⟨e, c', he, hfail⟩ := h.decode_cut (o := o) c hc
  exact ⟨e, c', he, by rw [valueHere, if_pos (h.cut hc).1]; exact hfail⟩

theorem valueHere_whole (h : Broken buf ps k p part more) {i : Nat} (hi : i < k) :
    Moves (valueHere o buf) (startOf ps i) (startOf ps (i + 1)) := by
  intro c hc
  obtain ⟨q, rest, hq, hdrop, hnext, hle⟩ := h.whole hi
  have hpos := written_pos (h.sound q hq)
  have hlen := past_le hle hdrop
  obtain ⟨v, l, hl⟩ := h.decode_whole (o := o) hi c hc
  exact ⟨v, l, by rw [valueHere, if_pos (by omega)]; exact hl⟩

/-- **Passing over the cut value**: it fails, or stands a byte past the end. -/
theorem skip_cut (h : Broken buf ps k p part more) :
    if endsBool p.1 = true ∧ more.length = 1 then
      Moves (skipField o buf) (startOf ps k) (buf.length + 1)
    else FailsAt (skipField o buf) (startOf ps k) := by
  have hhere : ∀ c : Cursor (Tag × Nat), c.pos = startOf ps k →
      skipField o buf c = skipValue o buf c := by
    intro c hc
    rw [skipField, List.getElem?_eq_getElem (h.cut hc).1]
  have hbreaks : ∀ c : Cursor (Tag × Nat), c.pos = startOf ps k →
      if endsBool p.1 = true ∧ more.length = 1 then
        ∃ l, skipValue o buf c = (.ok (), ⟨c.pos + (written p).length, l⟩)
      else Fails Corrupt (skipValue o buf) c := by
    intro c hc
    obtain ⟨hlt, -, hbs, hp⟩ := h.cut hc
    exact breaks_skip_field h.lengths.2.2 hp c more (Nat.le_of_lt hlt) h.more_ne hbs
  split
  · rename_i hloose
    intro c hc
    have hb := hbreaks c hc
    rw [if_pos hloose] at hb
    obtain ⟨l, hl⟩ := hb
    have hcell := congrArg List.length h.cell_eq
    have hlen := h.lengths.1
    rw [List.length_append, hloose.2] at hcell
    refine ⟨(), l, ?_⟩
    rw [hhere c hc, hl]
    congr 2
    omega
  · rename_i hstrict
    intro c hc
    have hb := hbreaks c hc
    rw [if_neg hstrict] at hb
    obtain ⟨e, c', he, hfail⟩ := hb
    exact ⟨e, c', he, (hhere c hc).trans hfail⟩

end Broken

/-! ## 5. Past the end -/

section Past

variable {o : Overflow} {buf : List UInt8} {i : Nat}

theorem skipFields_past (h : buf.length ≤ i) (n : Nat) : Moves (skipFields o buf n) i i := by
  induction n with
  | zero => exact moves_pure
  | succ n ih =>
    refine Moves.bind (j := i) (fun c hc => ⟨(), c.log, ?_⟩) fun _ => ih
    rw [skipField, List.getElem?_eq_none (hc ▸ h), ← hc]

theorem valueHere_past (h : buf.length ≤ i) : Moves (valueHere o buf) i i := by
  intro c hc
  exact ⟨.null, c.log, by rw [valueHere, if_neg (by omega), ← hc]⟩

end Past

namespace Broken

variable {o : Overflow} {buf part more : List UInt8} {ps : List (Value × DataType)} {k : Nat}
  {p : Value × DataType}

/-- **Passing over the places up to one behind the cut.** -/
theorem skipFields_over (h : Broken buf ps k p part more) (n : Nat) : ∀ {i : Nat}, i ≤ k →
    k < i + n → if endsBool p.1 = true ∧ more.length = 1 then
      Moves (skipFields o buf n) (startOf ps i) (buf.length + 1)
    else FailsAt (skipFields o buf n) (startOf ps i) := by
  induction n with
  | zero => exact fun hi hn => absurd hn (by omega)
  | succ n ih =>
    intro i hi hn
    rcases Nat.lt_or_ge i k with hlt | hge
    · have hrest := ih (i := i + 1) hlt (by omega)
      split
      · rename_i hloose
        rw [if_pos hloose] at hrest
        exact (h.skip_whole hlt).bind fun _ => hrest
      · rename_i hstrict
        rw [if_neg hstrict] at hrest
        exact (h.skip_whole hlt).fails fun _ => hrest
    · obtain rfl : i = k := by omega
      have hcut := h.skip_cut (o := o)
      split
      · rename_i hloose
        rw [if_pos hloose] at hcut
        exact hcut.bind fun _ => skipFields_past (Nat.le_succ _) n
      · rename_i hstrict
        rw [if_neg hstrict] at hcut
        exact hcut.bind

/-! ## 6. The readers -/

/-- The first byte of the cut value. -/
theorem head_cut (h : Broken buf ps k p part more) {c : Cursor (Tag × Nat)}
    (hc : c.pos = startOf ps k) : ∃ b bs, buf[c.pos]? = some b ∧ written p = b :: bs := by
  obtain ⟨hlt, hdrop, hbs, -⟩ := h.cut hc
  obtain ⟨b, part', rfl⟩ := List.exists_cons_of_ne_nil h.part_ne
  refine ⟨b, part' ++ more, ?_, by rw [← h.cell_eq]; rfl⟩
  have h0 : (buf.drop c.pos)[0]? = some b := by rw [hdrop]; rfl
  simpa using h0

theorem cell_of (h : Broken buf ps k p part more) {q : Value × DataType} (hq : q ∈ ps) :
    Cell (written q) (kept q.2 q.1) := ⟨q.1, q.2, h.sound q hq, rfl, rfl⟩

theorem breaks_textInto {s : String} (hs : (encodeStr s).length < 2 ^ 63) :
    Breaks buf Corrupt (textInto buf) (Tag.text.byte :: encodeStr s) (.text s) false := by
  have hlen : (utf8 s.toList).length < 2 ^ 64 := by
    rw [encodeStr, List.length_append] at hs
    omega
  exact breaks_byte.next reads_byte (by simp)
    (breaks_uvarint.next (reads_uvarint hlen) (by simp) (breaks_take rfl).done)

/-- **Nor is the cut value read into a slot.** -/
theorem slotValue_cut (h : Broken buf ps k p part more) (slot : Option Value) :
    FailsAt (slotValue o buf slot) (startOf ps k) := by
  intro c hc
  obtain ⟨b, bs, hget, hw⟩ := h.head_cut hc
  obtain ⟨hlt, hdrop, hbs, hp⟩ := h.cut hc
  have hcell := h.cell_of (List.mem_of_getElem? h.at_k)
  have hanew := h.decode_cut (o := o) c hc
  rw [hw] at hcell hbs hp
  unfold Fails slotValue
  rw [hget]
  split
  · next heq => cases heq
  · next heq =>
    cases heq
    split
    · next htag =>
      subst htag
      obtain ⟨s, -, rfl⟩ := cell_text hcell
      rw [List.length_cons] at hp
      exact (breaks_textInto (by omega)).strict (Nat.le_of_lt hlt) h.more_ne hbs
    · exact hanew
  · next heq =>
    cases heq
    split
    · next htag =>
      subst htag
      obtain ⟨lon, lat, rfl, -⟩ := cell_geo hcell
      have hlen := congrArg List.length hbs
      have hmore := List.length_pos_iff.mpr h.more_ne
      simp only [List.length_append, List.length_drop, List.length_cons, length_leBytes] at hlen
      exact ⟨.corrupt _, c, trivial, by rw [pointInto, if_pos (by omega)]⟩
    · exact hanew
  · exact hanew

/-- A value before the cut is. -/
theorem slotValue_whole (h : Broken buf ps k p part more) (slot : Option Value) {i : Nat}
    (hi : i < k) : Moves (slotValue o buf slot) (startOf ps i) (startOf ps (i + 1)) := by
  intro c hc
  obtain ⟨q, rest, hq, hdrop, hnext, hle⟩ := h.whole hi
  have hcell := h.cell_of hq
  have hanew := h.decode_whole (o := o) hi c hc
  have hshort := h.length_written hq
  have hbuf := h.lengths.2.2
  have hpos := written_pos (h.sound q hq)
  rw [← hc] at hdrop hnext hle
  cases hw : written q with
  | nil => rw [hw] at hpos; cases hpos
  | cons b bs =>
    rw [hw] at hdrop hnext hcell hshort
    have hget : buf[c.pos]? = some b := by
      have h0 : (buf.drop c.pos)[0]? = some b := by rw [hdrop]; rfl
      simpa using h0
    have hread : ∀ {m : Dec Value} {v : Value}, Reader.Reads buf m (b :: bs) v →
        ∃ a l, m c = (.ok a, ⟨startOf ps (i + 1), l⟩) := by
      intro m v hm
      obtain ⟨l, hl⟩ := hm c rest hle hdrop
      exact ⟨v, l, by rw [hl, hnext]⟩
    unfold slotValue
    rw [hget]
    split
    · next heq => cases heq
    · next heq =>
      cases heq
      split
      · next htag =>
        subst htag
        obtain ⟨s, -, rfl⟩ := cell_text hcell
        rw [List.length_cons] at hshort
        exact hread (reads_textInto hbuf (by omega))
      · exact hanew
    · next heq =>
      cases heq
      split
      · next htag =>
        subst htag
        obtain ⟨lon, lat, rfl, -⟩ := cell_geo hcell
        exact hread (reads_pointInto lon lat)
      · exact hanew
    · exact hanew

/-- **`read_doc` refuses a cut payload**: it reads each value in turn and comes to the cut one. -/
theorem readFrom_fails (h : Broken buf ps k p part more) (s : Schema) (fs : List Field) :
    ∀ {at_ i : Nat}, at_ ≤ s.place i → (∃ n < fs.length, k = s.place (i + n)) →
      FailsAt (readFrom o buf s at_ i fs) (startOf ps at_) := by
  induction fs with
  | nil => exact fun _ hk => absurd hk (by simp)
  | cons f fs ih =>
    rintro at_ i hat ⟨n, hn, hk⟩
    cases n with
    | zero =>
      rw [Nat.add_zero] at hk
      have hskip := h.skipFields_whole (o := o) (s.place i - at_) (i := at_) (by omega)
      rw [Nat.add_sub_cancel' hat] at hskip
      refine hskip.fails fun _ => FailsAt.bind ?_
      have hcut := h.valueHere_cut (o := o)
      rwa [hk] at hcut
    | succ n =>
      have hlt : s.place i < k := hk ▸ place_strictMono s.dropped (by omega)
      have hskip := h.skipFields_whole (o := o) (s.place i - at_) (i := at_) (by omega)
      rw [Nat.add_sub_cancel' hat] at hskip
      refine hskip.fails fun _ => (h.valueHere_whole hlt).fails fun v => FailsAt.bind ?_
      refine ih (place_lt_succ _ _) ⟨n, by simpa using hn, ?_⟩
      rw [hk]
      congr 1
      omega

/-- **`read_field` of the cut value**, and of a field behind it. -/
theorem readField_cut (h : Broken buf ps k p part more) {s : Schema} {i : Nat} (hi : s.place i = k) :
    FailsAt (readField o buf s i) (startOf ps 0) := by
  have hskip := h.skipFields_whole (o := o) k (i := 0) (by omega)
  rw [Nat.zero_add] at hskip
  rw [readField, hi]
  exact hskip.fails fun _ => h.valueHere_cut

theorem readField_past (h : Broken buf ps k p part more) {s : Schema} {i : Nat}
    (hi : k < s.place i) : if endsBool p.1 = true ∧ more.length = 1 then
      Moves (readField o buf s i) (startOf ps 0) (buf.length + 1)
    else FailsAt (readField o buf s i) (startOf ps 0) := by
  have hover := h.skipFields_over (o := o) (s.place i) (i := 0) (by omega) (by omega)
  split
  · rename_i hloose
    rw [if_pos hloose] at hover
    exact hover.bind fun _ => valueHere_past (Nat.le_succ _)
  · rename_i hstrict
    rw [if_neg hstrict] at hover
    exact hover.bind

/-- **`read_fields` with a place at the cut or behind it.** -/
theorem readFields_fails (h : Broken buf ps k p part more) (places : List Nat) :
    ∀ {at_ : Nat} (out : List Value), at_ ≤ k → (∀ w ∈ places, at_ ≤ w) → places.Pairwise (· < ·) →
      (∃ w ∈ places, k ≤ w) →
      (endsBool p.1 = true ∧ more.length = 1 → ∀ w ∈ places, w ≤ k) →
      FailsAt (readFields o buf at_ places out) (startOf ps at_) := by
  induction places with
  | nil => exact fun _ _ _ _ hw => absurd hw (by simp)
  | cons want places ih =>
    intro at_ out hat hle hasc hw hloose
    obtain ⟨hlt, hasc⟩ := List.pairwise_cons.mp hasc
    have hwant := hle want (List.mem_cons_self ..)
    rcases Nat.lt_trichotomy want k with hbefore | rfl | hbehind
    · have hskip := h.skipFields_whole (o := o) (want - at_) (i := at_) (by omega)
      rw [Nat.add_sub_cancel' hwant] at hskip
      refine hskip.fails fun _ => (h.slotValue_whole out.head? hbefore).fails fun _ => ?_
      refine (ih out.tail hbefore hlt hasc ?_ ?_).bind
      · obtain ⟨w, hw, hkw⟩ := hw
        rcases List.mem_cons.mp hw with rfl | hw
        · omega
        · exact ⟨w, hw, hkw⟩
      · exact fun hl w hw => hloose hl w (List.mem_cons_of_mem _ hw)
    · have hskip := h.skipFields_whole (o := o) (want - at_) (i := at_) (by omega)
      rw [Nat.add_sub_cancel' hwant] at hskip
      exact hskip.fails fun _ => (h.slotValue_cut out.head?).bind
    · have hover := h.skipFields_over (o := o) (want - at_) hat (by omega)
      have hstrict : ¬ (endsBool p.1 = true ∧ more.length = 1) := by
        intro hl
        have := hloose hl want (List.mem_cons_self ..)
        omega
      rw [if_neg hstrict] at hover
      exact hover.bind

end Broken

/-! ## 7. Documents -/

/-- The values of a document by place, each with the type it is written by; a null where a field
was dropped. -/
def placedFrom (s : Schema) (d : Document) : Nat → Nat → List Field → List (Value × DataType)
  | _, _, [] => []
  | at_, i, f :: fs =>
    List.replicate (s.place i - at_) (.null, .bool) ++
      ((d.get f.name).getD .null, f.ty) :: placedFrom s d (s.place i + 1) (i + 1) fs

/-- The values of a document written, by place. -/
def placed (s : Schema) (d : Document) : List (Value × DataType) := placedFrom s d 0 0 s.fields

theorem encodeFrom_eq (s : Schema) (d : Document) (fs : List Field) : ∀ at_ i,
    encodeFrom s d at_ i fs = (placedFrom s d at_ i fs).flatMap written := by
  induction fs with
  | nil => exact fun _ _ => rfl
  | cons f fs ih =>
    intro at_ i
    have hnulls : (List.replicate (s.place i - at_) (.null, .bool)).flatMap written =
        List.replicate (s.place i - at_) Tag.null.byte := by
      induction s.place i - at_ with
      | zero => rfl
      | succ n ih => rw [List.replicate_succ, List.flatMap_cons, ih]; rfl
    rw [encodeFrom, placedFrom, List.flatMap_append, List.flatMap_cons, hnulls, ih]
    rfl

theorem encodeDoc_eq (s : Schema) (d : Document) : encodeDoc s d = (placed s d).flatMap written :=
  encodeFrom_eq s d s.fields 0 0

/-- What stands at a place is a field's, or null. -/
theorem placedFrom_get (s : Schema) (d : Document) (fs : List Field) : ∀ {at_ i k : Nat}
    {q : Value × DataType}, at_ ≤ s.place i → (placedFrom s d at_ i fs)[k]? = some q →
      q = (.null, .bool) ∨ ∃ n < fs.length, at_ + k = s.place (i + n) := by
  induction fs with
  | nil => exact fun _ h => by cases h
  | cons f fs ih =>
    intro at_ i k q hat h
    rw [placedFrom] at h
    rcases Nat.lt_trichotomy k (s.place i - at_) with hlt | heq | hgt
    · rw [List.getElem?_append_left (by simpa using hlt), List.getElem?_replicate,
        if_pos hlt] at h
      exact .inl (Option.some.inj h).symm
    · exact .inr ⟨0, by simp, by rw [Nat.add_zero]; omega⟩
    · rw [List.getElem?_append_right (by simp; omega), List.length_replicate] at h
      obtain ⟨j, hj⟩ : ∃ j, k - (s.place i - at_) = j + 1 := ⟨k - (s.place i - at_) - 1, by omega⟩
      have hnext : s.place i + 1 ≤ s.place (i + 1) := place_lt_succ _ _
      rw [hj, List.getElem?_cons_succ] at h
      rcases ih hnext h with hnull | ⟨n, hn, hk⟩
      · exact .inl hnull
      · refine .inr ⟨n + 1, by simpa using hn, ?_⟩
        rw [show i + (n + 1) = i + 1 + n by omega, ← hk]
        omega

theorem placed_sound {s : Schema} {d : Document} (hd : SoundDoc d) : ∀ q ∈ placed s d, Sound q.1 := by
  have hfrom : ∀ (fs : List Field) (at_ i : Nat), ∀ q ∈ placedFrom s d at_ i fs, Sound q.1 := by
    intro fs
    induction fs with
    | nil => exact fun _ _ _ hq => by cases hq
    | cons f fs ih =>
      intro at_ i q hq
      rw [placedFrom, List.mem_append, List.mem_cons] at hq
      rcases hq with hq | rfl | hq
      · rw [List.eq_of_mem_replicate hq]
        exact sound_null
      · exact hd.get f.name
      · exact ih _ _ q hq
  exact hfrom s.fields 0 0

theorem startOf_mono (ps : List (Value × DataType)) {i j : Nat} (h : i ≤ j) :
    startOf ps i ≤ startOf ps j := by
  have hsplit : ps.take j = ps.take i ++ (ps.take j).drop i := by
    conv_lhs => rw [← List.take_append_drop i (ps.take j)]
    rw [List.take_take, Nat.min_eq_left h]
  rw [startOf, startOf, hsplit, List.flatMap_append, List.length_append]
  exact Nat.le_add_right _ _

/-- **A cut that is at no value's end is inside one.** -/
theorem cut_inside (ps : List (Value × DataType)) : ∀ {n : Nat},
    n < (ps.flatMap written).length → (∀ j, n ≠ startOf ps j) → ∃ k p part more,
      ps[k]? = some p ∧ part ≠ [] ∧ more ≠ [] ∧ part ++ more = written p ∧
      (ps.flatMap written).take n = (ps.take k).flatMap written ++ part := by
  induction ps with
  | nil => exact fun hn => absurd hn (by simp)
  | cons q qs ih =>
    intro n hn hin
    have hzero : n ≠ 0 := hin 0
    rw [List.flatMap_cons, List.length_append] at hn
    have hfirst : ∀ j, startOf (q :: qs) (j + 1) = (written q).length + startOf qs j := by
      intro j
      rw [startOf, startOf, List.take_succ_cons, List.flatMap_cons, List.length_append]
    rcases Nat.lt_or_ge n (written q).length with hlt | hge
    · refine ⟨0, q, (written q).take n, (written q).drop n, rfl, ?_, ?_,
        List.take_append_drop .., ?_⟩
      · rw [Ne, ← List.length_eq_zero_iff, List.length_take]
        omega
      · rw [Ne, ← List.length_eq_zero_iff, List.length_drop]
        omega
      · rw [List.flatMap_cons, List.take_append_of_le_length (by omega)]
        rfl
    · have hrest : ∀ j, n - (written q).length ≠ startOf qs j := by
        intro j
        have := hin (j + 1)
        rw [hfirst] at this
        omega
      obtain ⟨k, p, part, more, hk, hpart, hmore, hcell, htake⟩ := ih (by omega) hrest
      refine ⟨k + 1, p, part, more, hk, hpart, hmore, hcell, ?_⟩
      rw [List.flatMap_cons, List.take_append, List.take_of_length_le hge, htake,
        List.take_succ_cons, List.flatMap_cons, List.append_assoc]

/-- **A payload cut at byte `n` is refused** by every reader: the whole document, a field at the
cut value or behind it, and any fields of which one is. -/
def Refused (o : Overflow) (s : Schema) (d : Document) (n : Nat) : Prop :=
  (∀ id, FailsAt (readDoc o ((encodeDoc s d).take n) s id) 0) ∧
  (∀ i < s.fields.length, n < startOf (placed s d) (s.place i + 1) →
    FailsAt (readField o ((encodeDoc s d).take n) s i) 0) ∧
  ∀ places out, places.Pairwise (· < ·) → (∀ w ∈ places, ∃ i < s.fields.length, w = s.place i) →
    (∃ w ∈ places, n < startOf (placed s d) (w + 1)) →
    FailsAt (readFields o ((encodeDoc s d).take n) 0 places out) 0

/-- **A payload cut inside a value is refused**, but where the cut is one byte before the end of a
value whose last byte is a bool's, and a field stands behind it. -/
theorem refused_iff (o : Overflow) (s : Schema) (d : Document) (hd : SoundDoc d)
    (hlen : (encodeDoc s d).length < 2 ^ 63) (n : Nat) (hn : n < (encodeDoc s d).length)
    (hin : ∀ j, n ≠ startOf (placed s d) j) :
    Refused o s d n ↔ ¬ ∃ k p, (placed s d)[k]? = some p ∧ endsBool p.1 = true ∧
      n + 1 = startOf (placed s d) (k + 1) ∧ ∃ i < s.fields.length, k < s.place i := by
  have henc := encodeDoc_eq s d
  obtain ⟨k, p, part, more, hk, hpart, hmore, hcell, htake⟩ :=
    cut_inside (placed s d) (n := n) (by rwa [← henc]) hin
  have hb : Broken ((encodeDoc s d).take n) (placed s d) k p part more :=
    ⟨hk, hpart, hmore, hcell, by rw [henc]; exact htake, placed_sound hd, by rwa [← henc]⟩
  -- where the cut is between the value's ends
  obtain ⟨hbuf, hstart, -⟩ := hb.lengths
  rw [List.length_take, Nat.min_eq_left (Nat.le_of_lt hn)] at hbuf hstart
  have hend : startOf (placed s d) (k + 1) = n + more.length := by
    rw [startOf_succ hk, ← hcell, List.length_append]
    omega
  have hpos := List.length_pos_iff.mpr hmore
  have hwhich : ∀ w, n < startOf (placed s d) (w + 1) ↔ k ≤ w := by
    intro w
    refine ⟨fun h => Nat.le_of_not_lt fun hlt => ?_, fun h => ?_⟩
    · have := startOf_mono (placed s d) (show w + 1 ≤ k by omega)
      omega
    · have := startOf_mono (placed s d) (show k + 1 ≤ w + 1 by omega)
      omega
  constructor
  · rintro ⟨-, hfield, -⟩ ⟨k', p', hk', hbool, hlast, i, hi, hki⟩
    have hkk : k' = k := by
      have hle : k ≤ k' := (hwhich k').mp (by omega)
      rcases Nat.eq_or_lt_of_le hle with heq | hlt
      · exact heq.symm
      · have hmono := startOf_mono (placed s d) (show k + 1 ≤ k' by omega)
        have hcell' := written_pos (placed_sound hd p' (List.mem_of_getElem? hk'))
        have hnext := startOf_succ hk'
        omega
    subst hkk
    obtain rfl : p' = p := Option.some.inj (hk'.symm.trans hk)
    have hpast := hb.readField_past (o := o) hki
    rw [if_pos ⟨hbool, by omega⟩] at hpast
    exact hpast.not_fails (hfield i hi ((hwhich _).mpr (Nat.le_of_lt hki)))
  · intro hgood
    have hstrict : ∀ i < s.fields.length, k < s.place i →
        ¬ (endsBool p.1 = true ∧ more.length = 1) := by
      rintro i hi hki ⟨hbool, hone⟩
      exact hgood ⟨k, p, hk, hbool, by omega, i, hi, hki⟩
    refine ⟨fun id => ?_, fun i hi hafter => ?_, fun places out hasc hplaces hafter => ?_⟩
    · -- the cut value is a field's: a null has one byte
      have hplace : ∃ m < s.fields.length, k = s.place (0 + m) := by
        rcases placedFrom_get s d s.fields (Nat.zero_le _) hk with rfl | ⟨m, hm, hkm⟩
        · have hone := congrArg List.length hcell
          have hpart := List.length_pos_iff.mpr hpart
          rw [List.length_append] at hone
          simp [written, encodeValueAs, encodeValue, body] at hone
          omega
        · exact ⟨m, hm, by omega⟩
      exact (hb.readFrom_fails s s.fields (Nat.zero_le _) hplace).bind
    · rcases Nat.eq_or_lt_of_le ((hwhich _).mp hafter) with heq | hlt
      · exact hb.readField_cut heq.symm
      · have hpast := hb.readField_past (o := o) hlt
        rwa [if_neg (hstrict i hi hlt)] at hpast
    · obtain ⟨w, hw, hafter⟩ := hafter
      refine hb.readFields_fails places out (Nat.zero_le _) (fun _ _ => Nat.zero_le _) hasc
        ⟨w, hw, (hwhich w).mp hafter⟩ fun hloose v hv => Nat.le_of_not_lt fun hlt => ?_
      obtain ⟨i, hi, rfl⟩ := hplaces v hv
      exact hstrict i hi hlt hloose

/-- A bool and a number. -/
def flagCount : Schema :=
  ⟨"t", [⟨"flag", .bool, .none, false, none, false⟩, ⟨"count", .int, .none, false, none, false⟩],
    [], [], []⟩

/-- A document of the two, written in four bytes. -/
def flagged : Document := ⟨1, [("flag", .bool true), ("count", .int 7)]⟩

theorem flagged_sound : SoundDoc flagged := by
  intro kv hkv
  rcases List.mem_cons.mp hkv with rfl | hkv
  · exact .other (by simp) (by simp)
  · rw [List.mem_singleton.mp hkv]
    exact .other (by simp) (by simp)

/-- The values of the document start at bytes 0 and 2, and end at 4. -/
theorem flagged_starts (j : Nat) : startOf (placed flagCount flagged) j = 0 ∨
    startOf (placed flagCount flagged) j = 2 ∨ startOf (placed flagCount flagged) j = 4 := by
  match j with
  | 0 => exact .inl rfl
  | 1 => exact .inr (.inl rfl)
  | j + 2 =>
    refine .inr (.inr ?_)
    rw [startOf, List.take_of_length_le (show 2 ≤ j + 2 by omega)]
    rfl

/-- The number cut short is refused. -/
theorem refused_count : Refused .stops flagCount flagged 3 := by
  refine (refused_iff .stops flagCount flagged flagged_sound (by decide +kernel) 3
    (by decide +kernel) ?_).mpr ?_
  · intro j
    have := flagged_starts j
    omega
  · rintro ⟨k, p, -, hbool, hend, i, hi, hki⟩
    have hplace : flagCount.place i = i := rfl
    have hlen : flagCount.fields.length = 2 := rfl
    obtain rfl : k = 0 := by omega
    exact absurd hend (by decide +kernel)

/-- **A bool cut short is passed over.**  Of the bool only its tag is left; the number behind it
reads as null, one alone or with others. -/
theorem null_behind_cut_bool :
    (encodeDoc flagCount flagged).take 1 = [Tag.bool.byte] ∧
      (∀ j, 1 ≠ startOf (placed flagCount flagged) j) ∧
      (readField .stops ((encodeDoc flagCount flagged).take 1) flagCount 1 ⟨0, []⟩).1 = .ok .null ∧
      (readFields .stops ((encodeDoc flagCount flagged).take 1) 0 [1] [] ⟨0, []⟩).1 =
        .ok [.null] ∧
      ¬ Refused .stops flagCount flagged 1 := by
  refine ⟨by decide +kernel, fun j => ?_, by decide +kernel, by decide +kernel, ?_⟩
  · have := flagged_starts j
    omega
  · intro h
    obtain ⟨e, c, -, he⟩ := h.2.1 1 (by decide) (by decide +kernel) ⟨0, []⟩ rfl
    have hok : (readField .stops ((encodeDoc flagCount flagged).take 1) flagCount 1 ⟨0, []⟩).1 =
        .ok .null := by decide +kernel
    rw [he] at hok
    cases hok

end Cells

end Fenec
