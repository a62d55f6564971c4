/-
# Paths into a payload, and a payload without its dropped places

A path is followed through the bytes: an object's keys are in the order of their bytes, so the
scan of them stops at the key or past where it would stand (`findKey_of_members`), and what it
stops at is the value the path names in the document (`readPaths_goes`).

`compact` takes the dropped places out of a payload.  What is left, read by a schema that has
dropped nothing, is the document it was (`readDoc_kept`).
-/
import Fenec.Cells

namespace Fenec

open Lib Reader Codec Chunks

namespace Cells

/-! ## 1. Paths -/

section Paths

variable {o : Overflow} {buf : List UInt8} {c : Cursor (Tag × Nat)}

/-- The buffer goes on with `bs`. -/
def Stands (buf : List UInt8) (c : Cursor (Tag × Nat)) (bs : List UInt8) : Prop :=
  c.pos ≤ buf.length ∧ ∃ rest, buf.drop c.pos = bs ++ rest

theorem Stands.le {bs : List UInt8} (h : Stands buf c bs) : bs.length ≤ buf.length := by
  obtain ⟨hpos, rest, hdrop⟩ := h
  have hle := past_le hpos hdrop
  omega

theorem Stands.first {bs bs' : List UInt8} (h : Stands buf c (bs ++ bs')) : Stands buf c bs := by
  obtain ⟨hpos, rest, hdrop⟩ := h
  exact ⟨hpos, bs' ++ rest, by rw [hdrop, List.append_assoc]⟩

/-- What is read is passed over. -/
theorem Stands.past {α : Type} {m : Dec α} {a : α} {bs bs' : List UInt8}
    (h : Stands buf c (bs ++ bs')) (hm : Reader.Reads buf m bs a) :
    ∃ c', m c = (.ok a, c') ∧ Stands buf c' bs' := by
  obtain ⟨hpos, rest, hdrop⟩ := h
  rw [List.append_assoc] at hdrop
  obtain ⟨l, hl⟩ := hm c _ hpos hdrop
  exact ⟨_, hl, past_le hpos hdrop, rest, drop_past hdrop⟩

theorem cell_of_sound {v : Value} (h : Sound v) : Cell (encodeValue v) v :=
  ⟨v, .json, h, rfl, (kept_of_ne (by simp)).symm⟩

theorem reads_skip (hbuf : buf.length < 2 ^ 63) {v : Value}
    (hv : (encodeValue v).length ≤ buf.length) :
    Reader.Reads buf (skipValue o buf) (encodeValue v) () := by
  intro c rest hpos hdrop
  obtain ⟨l, hl⟩ := reads_value (o := o) (d := buf.length + 1) hbuf v (by omega) (by omega) c rest
    hpos hdrop
  obtain ⟨_, ⟨pos, l'⟩, hskip, hpos', -⟩ := follows_decode _ c c _ _ rfl hl
  cases hpos'
  exact ⟨l', hskip⟩

theorem cmpStr_gt {a b : String} (h : cmpStr a b = .gt) : cmpStr b a = .lt := by
  unfold cmpStr at h ⊢
  exact Std.OrientedCmp.gt_iff_lt.mp h

/-- **A member is found where the scan of the keys stops.** -/
theorem findKey_of_members (hbuf : buf.length < 2 ^ 63) (key : String)
    {ms : List (String × Value)} (hasc : ms.Pairwise fun a b => cmpStr a.1 b.1 = .lt) :
    ∀ {c : Cursor (Tag × Nat)}, Stands buf c (ms.flatMap encodeMember) →
    (∃ v c', (Value.object ms).member key = some v ∧ (key, v) ∈ ms ∧
      findKey o buf (utf8 key.toList) ms.length c = (.ok true, c') ∧
      Stands buf c' (encodeValue v)) ∨
    ((Value.object ms).member key = none ∧
      ∃ c', findKey o buf (utf8 key.toList) ms.length c = (.ok false, c')) := by
  induction ms with
  | nil => exact fun _ => .inr ⟨rfl, _, rfl⟩
  | cons kv ms ih =>
    intro c hc
    obtain ⟨k, v⟩ := kv
    obtain ⟨hfirst, hasc⟩ := List.pairwise_cons.mp hasc
    rw [List.flatMap_cons, encodeMember, encodeStr, List.append_assoc, List.append_assoc] at hc
    have hlen : (utf8 k.toList).length < 2 ^ 64 := by
      have hle := hc.le
      simp only [List.length_append] at hle
      omega
    obtain ⟨c₁, hlenRead, hc₁⟩ := hc.past (reads_uvarint hlen)
    obtain ⟨c₂, hkey, hc₂⟩ := hc₁.past (reads_take hbuf rfl)
    rw [List.length_cons, findKey, Act.bind_eq, hlenRead]
    dsimp only
    rw [Act.bind_eq, hkey]
    dsimp only
    cases hcmp : cmpStr k key with
    | eq =>
      -- the key itself: its value stands here
      obtain rfl := cmpStr_eq_iff.mp hcmp
      refine .inl ⟨v, c₂, by simp [Value.member], List.mem_cons_self .., ?_, hc₂.first⟩
      rw [show compare (utf8 k.toList) (utf8 k.toList) = .eq from Std.ReflCmp.compare_self]
      rfl
    | lt =>
      have hne : k ≠ key := fun heq => by
        rw [cmpStr_eq_iff.mpr heq] at hcmp
        cases hcmp
      have hmember : (Value.object ((k, v) :: ms)).member key = (Value.object ms).member key := by
        simp [Value.member, hne]
      obtain ⟨c₃, hskip, hc₃⟩ := hc₂.past (reads_skip (o := o) hbuf hc₂.first.le)
      rw [compare_utf8_of_lt hcmp, hmember]
      dsimp only
      rw [Act.bind_eq, hskip]
      rcases ih hasc hc₃ with ⟨w, c', hw, hmem, hfound⟩ | hnone
      · exact .inl ⟨w, c', hw, List.mem_cons_of_mem _ hmem, hfound⟩
      · exact .inr hnone
    | gt =>
      -- past where the key would stand
      have hbytes : compare (utf8 k.toList) (utf8 key.toList) = .gt :=
        Std.OrientedCmp.gt_iff_lt.mpr (compare_utf8_of_lt (cmpStr_gt hcmp))
      refine .inr ⟨?_, c₂, by rw [hbytes]; rfl⟩
      have hnone : ((k, v) :: ms).find? (fun kv => kv.1 == key) = none := by
        rw [List.find?_eq_none]
        intro kv hkv heq
        have hkv' : cmpStr k key ≠ .gt := by
          rcases List.mem_cons.mp hkv with rfl | hkv
          · rw [cmpStr_eq_iff.mpr (eq_of_beq heq)]
            decide
          · rw [← eq_of_beq heq, hfirst kv hkv]
            decide
        exact hkv' hcmp
      simp [Value.member, hnone]

theorem atKeys_of_not_object {v : Value} (h : ∀ ms, v ≠ .object ms) (k : String)
    (ks : List String) : v.atKeys (k :: ks) = .null := by
  cases v with
  | object ms => exact absurd rfl (h ms)
  | _ => rfl

/-- **Walking a path leads to the value at it**, or nowhere where there is none. -/
theorem walk_of_cell (hbuf : buf.length < 2 ^ 63) (keys : List String) : ∀ {v : Value}
    {bs : List UInt8} {c : Cursor (Tag × Nat)}, Cell bs v → Stands buf c bs →
    (∃ bs' c', Cell bs' (v.atKeys keys) ∧ walk o buf keys true c = (.ok true, c') ∧
      Stands buf c' bs') ∨
    (v.atKeys keys = .null ∧ ∃ c', walk o buf keys true c = (.ok false, c')) := by
  induction keys with
  | nil => exact fun hv hc => .inl ⟨_, _, hv, rfl, hc⟩
  | cons k ks ih =>
    intro v bs c hv hc
    cases bs with
    | nil => exact absurd hv.pos (Nat.lt_irrefl 0)
    | cons b bs =>
      have hget : buf[c.pos]? = some b := by
        obtain ⟨hpos, rest, hdrop⟩ := hc
        have h0 : (buf.drop c.pos)[0]? = some b := by rw [hdrop]; rfl
        simpa using h0
      have hnowhere : ∀ c', walk o buf ks false c' = (.ok false, c') := fun c' => by
        cases ks <;> rfl
      rcases cell_object hv with ⟨rfl, ms, rfl, hs, rfl⟩ | ⟨hb, hno⟩
      · obtain ⟨hasc, hmembers⟩ : ms.Pairwise (fun a b => cmpStr a.1 b.1 = .lt) ∧
            ∀ kv ∈ ms, Sound kv.2 := by
          cases hs with
          | object ha hm => exact ⟨ha, hm⟩
          | other ho _ => exact absurd rfl (ho ms)
        have hobj : isObject buf c = (.ok true, { c with pos := c.pos + 1 }) := by
          rw [isObject, if_pos hget]
        have hc₁ : Stands buf { c with pos := c.pos + 1 }
            (uvarint ms.length ++ ms.flatMap encodeMember) := by
          obtain ⟨hpos, rest, hdrop⟩ := hc
          rw [body, encodeMembers_eq] at hdrop
          change buf.drop c.pos = [Tag.object.byte] ++ _ at hdrop
          exact ⟨past_le hpos hdrop, rest, drop_past hdrop⟩
        have hlen : ms.length < 2 ^ 64 := by
          have hle := hc₁.le
          have hn := length_le_flatMap length_encodeMember_pos ms
          rw [List.length_append] at hle
          omega
        obtain ⟨c₂, hcount, hc₂⟩ := hc₁.past (reads_uvarint hlen)
        rw [walk, Act.bind_eq, hobj]
        dsimp only
        rw [Act.bind_eq, stepIn, Act.bind_eq, hcount]
        dsimp only
        rcases findKey_of_members (o := o) hbuf k hasc hc₂ with
          ⟨w, c', hw, hmem, hfound, hc'⟩ | ⟨hnone, c', hfound⟩
        · have hat : (Value.object ms).atKeys (k :: ks) = w.atKeys ks := by
            rw [Value.atKeys, hw]
          rw [hfound, hat]
          exact ih (cell_of_sound (hmembers _ hmem)) hc'
        · refine .inr ⟨by rw [Value.atKeys, hnone], c', ?_⟩
          rw [hfound]
          exact hnowhere c'
      · have hobj : isObject buf c = (.ok false, c) := by
          rw [isObject, if_neg (by rw [hget]; exact fun heq => hb (Option.some.inj heq))]
        refine .inr ⟨atKeys_of_not_object hno k ks, c, ?_⟩
        rw [walk, Act.bind_eq, hobj]
        exact hnowhere c

/-- **`decode_path_into` reads the value at the path**, whatever its slot held. -/
theorem decodePath_of_cell (hbuf : buf.length < 2 ^ 63) {v : Value} {bs : List UInt8}
    (hv : Cell bs v) (hc : Stands buf c bs) (keys : String) (slot : Value) :
    (decodePath o buf keys slot c).1 = .ok (v.atPath keys) := by
  rw [decodePath, Act.bind_eq, Value.atPath]
  rcases walk_of_cell (o := o) hbuf (Value.pathKeys keys) hv hc with
    ⟨bs', c', hcell, hwalk, hc'⟩ | ⟨hnull, c', hwalk⟩
  · rw [hwalk]
    have hanew : (decodeValue o buf c').1 = .ok (v.atKeys (Value.pathKeys keys)) := by
      have hle := hc'.le
      obtain ⟨hpos, rest, hdrop⟩ := hc'
      obtain ⟨l, hl⟩ := hcell.reads (o := o) hbuf hle c' rest hpos hdrop
      rw [hl]
    dsimp only [pathValue]
    split
    · next b _ hget =>
      split
      · next htag =>
        obtain ⟨hpos, rest, hdrop⟩ := hc'
        cases bs' with
        | nil => exact absurd hcell.pos (Nat.lt_irrefl 0)
        | cons b' bs' =>
          have hb : b' = b := by
            have h0 : (buf.drop c'.pos)[0]? = some b' := by rw [hdrop]; rfl
            rw [List.getElem?_drop, Nat.add_zero, hget] at h0
            exact (Option.some.inj h0).symm
          rw [hb, htag] at hcell hdrop
          obtain ⟨s, hs, rfl⟩ := cell_text hcell
          have hle := past_le hpos hdrop
          rw [List.length_cons] at hle
          obtain ⟨l, hl⟩ := reads_textInto hbuf (by omega) c' rest hpos hdrop
          rw [hl, hs]
      · exact hanew
    · exact hanew
  · rw [hwalk, hnull]
    rfl

end Paths

namespace Holds

variable {o : Overflow} {buf : List UInt8} {cells : List (List UInt8)} {P : Payload} {k : Nat}

/-- A path from the field at a place; the place is not moved. -/
theorem pathHere_at (h : Holds buf cells P) (keys : String) (slot : Value) (k : Nat) :
    Goes cells (pathHere o buf keys slot) k k ((P.at k).atPath keys) := by
  intro c hc
  refine ⟨c.log, ?_⟩
  unfold pathHere
  by_cases hk : k < P.length
  · obtain ⟨bs, rest, hcell, -, hdrop, -⟩ := h.at_cell hk
    rw [if_pos (by rw [hc]; exact h.start_lt hk)]
    rw [decodePath_of_cell h.short hcell ⟨hc ▸ h.start_le k, rest, hc ▸ hdrop⟩ keys slot, ← hc]
  · obtain ⟨hend, hnull⟩ := h.past_end (Nat.le_of_not_lt hk)
    rw [if_neg (by omega), hnull, ← hc]
    have hat : Value.null.atPath keys = .null := by
      unfold Value.atPath
      cases Value.pathKeys keys <;> rfl
    rw [hat]

theorem seek_at (h : Holds buf cells P) (at_ want : Nat) :
    Goes cells (seek o buf at_ want) at_ want () := by
  unfold seek
  split
  · have hskip := h.skipFields_at (o := o) want 0
    rw [Nat.zero_add] at hskip
    have hback : Goes cells (Reader.moveTo 0 : Dec Unit) at_ 0 () := fun c _ => ⟨c.log, rfl⟩
    exact hback.bind hskip
  · have hskip := h.skipFields_at (o := o) (want - at_) at_
    rw [Nat.add_sub_cancel' (by omega)] at hskip
    exact hskip

/-- **`read_paths` reads what stands at each path**, a slot for each. -/
theorem readPaths_goes (h : Holds buf cells P) (s : Schema) (paths : List (Nat × String)) :
    ∀ (at_ : Nat) (out : List Value), ∃ j, Goes cells (readPaths o buf s at_ paths out) at_ j
      ((paths.take out.length).map (fun p => (P.at (s.place p.1)).atPath p.2) ++
        out.drop paths.length) := by
  induction paths with
  | nil =>
    intro at_ out
    exact ⟨at_, by simpa [readPaths] using goes_pure⟩
  | cons p paths ih =>
    intro at_ out
    cases out with
    | nil => exact ⟨_, goes_pure⟩
    | cons slot out =>
      obtain ⟨j, hj⟩ := ih (s.place p.1) out
      exact ⟨j, (h.seek_at at_ (s.place p.1)).bind
        ((h.pathHere_at p.2 slot (s.place p.1)).bind (hj.bind goes_pure))⟩


/-! ## 2. Dropped places taken out -/

end Holds

section Kept

variable {α β : Type}

/-- A list without the places dropped, its first at place `at_`. -/
def keepFrom (dropped : List Nat) : Nat → List α → List α
  | _, [] => []
  | at_, x :: xs =>
    if dropped.contains at_ then keepFrom dropped (at_ + 1) xs
    else x :: keepFrom dropped (at_ + 1) xs

theorem keepFrom_past {d : Nat} {ds : List Nat} {l : List α} : ∀ {at_ : Nat}, d < at_ →
    keepFrom (d :: ds) at_ l = keepFrom ds at_ l := by
  induction l with
  | nil => exact fun _ => rfl
  | cons x l ih =>
    intro at_ hlt
    have hne : (at_ == d) = false := beq_eq_false_iff_ne.mpr (by omega)
    simp only [keepFrom, List.contains_cons, hne, Bool.false_or, ih (Nat.lt_succ_of_lt hlt)]

/-- **The thing left at a position is the one that stood at its place.** -/
theorem keepFrom_getElem {l : List α} : ∀ {ds : List Nat} {at_ : Nat}, ds.Pairwise (· < ·) →
    (∀ d ∈ ds, at_ ≤ d) → ∀ i, (keepFrom ds at_ l)[i]? = l[Fenec.place ds (at_ + i) - at_]? := by
  induction l with
  | nil => intros; simp [keepFrom]
  | cons x l ih =>
    intro ds at_ hasc hle i
    by_cases hmem : at_ ∈ ds
    · -- the least of the dropped places is this one
      cases ds with
      | nil => cases hmem
      | cons d ds =>
        obtain ⟨hlt, hasc⟩ := List.pairwise_cons.mp hasc
        have hd : d = at_ := by
          have hge := hle d (List.mem_cons_self ..)
          rcases List.mem_cons.mp hmem with h | h
          · exact h.symm
          · have := hlt at_ h
            omega
        subst hd
        have hplace : Fenec.place (d :: ds) (d + i) = Fenec.place ds (d + 1 + i) := by
          rw [Fenec.place, if_neg (by omega), Nat.add_right_comm]
        have hge := le_place ds (d + 1 + i)
        rw [keepFrom, if_pos (by simp), keepFrom_past (Nat.lt_succ_self d), ih hasc hlt i, hplace,
          show Fenec.place ds (d + 1 + i) - d = Fenec.place ds (d + 1 + i) - (d + 1) + 1 by omega,
          List.getElem?_cons_succ]
    · have hlt : ∀ d ∈ ds, at_ + 1 ≤ d := fun d hd => by
        have hge := hle d hd
        have hne : at_ ≠ d := fun heq => hmem (heq ▸ hd)
        omega
      rw [keepFrom, if_neg (by simpa using hmem)]
      cases i with
      | zero =>
        have hplace : Fenec.place ds at_ = at_ := by
          cases ds with
          | nil => rfl
          | cons d ds =>
            have hd : d > at_ := hlt d (List.mem_cons_self ..)
            rw [Fenec.place, if_pos hd]
        simp only [Nat.add_zero, hplace, Nat.sub_self, List.getElem?_cons_zero]
      | succ i =>
        have hge := le_place ds (at_ + 1 + i)
        rw [List.getElem?_cons_succ, ih hasc hlt i, show at_ + (i + 1) = at_ + 1 + i by omega,
          show Fenec.place ds (at_ + 1 + i) - at_ = Fenec.place ds (at_ + 1 + i) - (at_ + 1) + 1
            by omega, List.getElem?_cons_succ]

theorem forall₂_keepFrom {R : α → β → Prop} {ds : List Nat} {l : List α} {l' : List β}
    (h : List.Forall₂ R l l') : ∀ at_, List.Forall₂ R (keepFrom ds at_ l) (keepFrom ds at_ l') := by
  induction h with
  | nil => exact fun _ => .nil
  | cons hab _ ih =>
    intro at_
    unfold keepFrom
    split
    · exact ih _
    · exact .cons hab (ih _)

theorem length_flatten_keepFrom {ds : List Nat} {l : List (List α)} : ∀ at_ : Nat,
    (keepFrom ds at_ l).flatten.length ≤ l.flatten.length := by
  induction l with
  | nil => exact fun _ => Nat.le_refl _
  | cons x l ih =>
    intro at_
    have hrest := ih (at_ + 1)
    unfold keepFrom
    split
    · rw [List.flatten_cons, List.length_append]
      omega
    · rw [List.flatten_cons, List.flatten_cons, List.length_append, List.length_append]
      omega

end Kept

namespace Holds

variable {o : Overflow} {buf : List UInt8} {cells : List (List UInt8)} {P : Payload} {k : Nat}

theorem withoutFrom_goes (h : Holds buf cells P) (dropped : List Nat) (fuel : Nat) :
    ∀ (k : Nat) (out : List UInt8), cells.length ≤ k + fuel →
    ∃ j, Goes cells (withoutFrom o buf dropped fuel k out) k j
      (out ++ (keepFrom dropped k (cells.drop k)).flatten) := by
  induction fuel with
  | zero =>
    intro k out hk
    rw [List.drop_eq_nil_of_le (by omega)]
    exact ⟨k, by simpa [withoutFrom, keepFrom] using goes_pure⟩
  | succ fuel ih =>
    intro k out hk
    by_cases hlt : k < P.length
    · obtain ⟨bs, rest, hcell, hget, hdrop, hnext⟩ := h.at_cell hlt
      obtain ⟨hk', hbs⟩ := List.getElem?_eq_some_iff.mp hget
      obtain ⟨j, hj⟩ := ih (k + 1) (if dropped.contains k then out else out ++ bs)
        (by omega)
      have hout : (if dropped.contains k then out else out ++ bs) ++
          (keepFrom dropped (k + 1) (cells.drop (k + 1))).flatten =
          out ++ (keepFrom dropped k (cells.drop k)).flatten := by
        rw [List.drop_eq_getElem_cons hk', hbs, keepFrom]
        split
        · rfl
        · rw [List.flatten_cons, List.append_assoc]
      rw [hout] at hj
      refine ⟨j, fun c hc => ?_⟩
      obtain ⟨l, hl⟩ := h.skip_at (o := o) hlt c hc
      have hspan : (buf.drop c.pos).take (start cells (k + 1) - c.pos) = bs := by
        rw [hc, hdrop, hnext, Nat.add_sub_cancel_left, List.take_left]
      have hin : c.pos < buf.length := hc ▸ h.start_lt hlt
      simp only [withoutFrom, if_pos hin, hl, hspan]
      exact hj _ rfl
    · have hge : cells.length ≤ k := by
        rw [h.length_eq]
        omega
      rw [List.drop_eq_nil_of_le hge, keepFrom, List.flatten_nil, List.append_nil]
      refine ⟨k, fun c hc => ⟨c.log, ?_⟩⟩
      have hend : ¬ c.pos < buf.length := by
        rw [hc, (h.past_end (by omega)).1]
        exact Nat.lt_irrefl _
      simp only [withoutFrom, if_neg hend, ← hc]

theorem length_le (h : Holds buf cells P) : cells.length ≤ buf.length := by
  have hcell := h.cell
  rw [h.eq]
  clear h
  induction hcell with
  | nil => simp
  | cons hc _ ih =>
    have hpos := hc.pos
    rw [List.length_cons, List.flatten_cons, List.length_append]
    omega

/-- **What `compact` keeps of a payload** holds the values that were not dropped. -/
theorem withoutDropped_goes (h : Holds buf cells P) (dropped : List Nat) :
    ∃ small, (∃ j, Goes cells (withoutDropped o buf dropped) 0 j small) ∧
      Holds small (keepFrom dropped 0 cells) (keepFrom dropped 0 P) := by
  obtain ⟨j, hj⟩ := h.withoutFrom_goes (o := o) dropped buf.length 0 []
    (by rw [Nat.zero_add]; exact h.length_le)
  rw [List.drop_zero, List.nil_append] at hj
  refine ⟨_, ⟨j, hj⟩, rfl, forall₂_keepFrom h.cell 0, ?_⟩
  have hsub : (keepFrom dropped 0 cells).flatten.length ≤ cells.flatten.length :=
    length_flatten_keepFrom 0
  rw [← h.eq] at hsub
  exact Nat.lt_of_le_of_lt hsub h.short

/-- The document left by it, read by the fields alone. -/
theorem readDoc_kept {s : Schema} (hs : s.dropped.Pairwise (· < ·)) (id : DocId) (P : Payload) :
    Fenec.readDoc { s with dropped := [] } id (keepFrom s.dropped 0 P) = Fenec.readDoc s id P := by
  have hat : ∀ i, Payload.at (keepFrom s.dropped 0 P) i = P.at (s.place i) := by
    intro i
    have hget := keepFrom_getElem (l := P) hs (fun _ _ => Nat.zero_le _) i
    rw [Nat.zero_add, Nat.sub_zero] at hget
    rw [Payload.at, Payload.at, List.getD_eq_getElem?_getD, List.getD_eq_getElem?_getD, hget]
    rfl
  show Document.mk id (s.fields.mapIdx fun i f => (f.name, Payload.at _ i)) = _
  simp only [hat]
  rfl

end Holds

/-! ## 3. Documents written -/

/-- A document of values as the source's are. -/
def SoundDoc (d : Document) : Prop := ∀ kv ∈ d.fields, Sound kv.2

theorem SoundDoc.get {d : Document} (h : SoundDoc d) (name : String) :
    Sound ((d.get name).getD .null) := by
  unfold Document.get
  cases hfind : d.fields.find? fun kv => kv.1 == name with
  | none => exact sound_null
  | some kv => exact h kv (List.mem_of_find?_eq_some hfind)

theorem cells_encodeFrom {s : Schema} {d : Document} (hd : SoundDoc d) (fs : List Field) :
    ∀ at_ i, ∃ cells, encodeFrom s d at_ i fs = cells.flatten ∧
      List.Forall₂ Cell cells (Fenec.encodeFrom s d at_ i fs) := by
  have hnulls : ∀ n, List.replicate n Tag.null.byte =
      (List.replicate n [Tag.null.byte]).flatten ∧
      List.Forall₂ Cell (List.replicate n [Tag.null.byte]) (List.replicate n .null) := by
    intro n
    induction n with
    | zero => exact ⟨rfl, .nil⟩
    | succ n ih =>
      refine ⟨?_, .cons cell_null ih.2⟩
      rw [List.replicate_succ, List.replicate_succ, List.flatten_cons, ← ih.1]
      rfl
  induction fs with
  | nil => exact fun _ _ => ⟨[], rfl, .nil⟩
  | cons f fs ih =>
    intro at_ i
    obtain ⟨cells, hflat, hcells⟩ := ih (s.place i + 1) (i + 1)
    obtain ⟨hn, hnc⟩ := hnulls (s.place i - at_)
    refine ⟨List.replicate (s.place i - at_) [Tag.null.byte] ++
      encodeValueAs ((d.get f.name).getD .null) (some f.ty) :: cells, ?_, ?_⟩
    · rw [encodeFrom, hflat, hn, List.flatten_append, List.flatten_cons]
    · exact List.rel_append hnc (.cons ⟨_, f.ty, hd.get f.name, rfl, rfl⟩ hcells)

/-- **What is written holds the document.** -/
theorem holds_encodeDoc {s : Schema} {d : Document} (hd : SoundDoc d)
    (hlen : (encodeDoc s d).length < 2 ^ 63) :
    ∃ cells, Holds (encodeDoc s d) cells (Fenec.encodeDoc s d) := by
  obtain ⟨cells, hflat, hcells⟩ := cells_encodeFrom hd s.fields 0 0
  exact ⟨cells, hflat, hcells, hlen⟩



end Cells

end Fenec
