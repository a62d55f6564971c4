/-
# Writing one place of a json value

`Value::set_path` walks the keys of a path and writes at its end.  It makes an object of a null on
the way and puts a key that is missing in with a null, both before it is known whether a later
step refuses; `setPathIn` keeps what the value has become either way.  A step refuses at a value
that is neither null nor an object, and past the first null or missing key there is none of these,
so where it refuses nothing has been written (`setPathIn_error`).

Where it does not, the value at the path is the one given and every path that parts from it reads
as before (`atKeys_written`, `atKeys_apart`), and the keys of every object still ascend, which is
what reading a path off the bytes rests on (`decodePath_of_cell`).
-/
import Fenec.Document
import Fenec.Payloads

namespace Fenec

open Lib Codec Cells Reader

/-! ## 1. Setting a path in place -/

/-- `Value::set_path`: the answer, and what the value has become. -/
def setPathIn (path : String) (walked : String) :
    List String → Value → Value → Result Unit × Value
  | [], _, value => (.ok (), value)
  | k :: ks, v, value =>
    match (if v.isNull then .object [] else v) with
    | .object m =>
      let m := if ((Value.object m).member k).isSome then m else putMember k .null m
      let (r, inner) := setPathIn path (walked ++ "." ++ k) ks
        (((Value.object m).member k).getD .null) value
      (r, .object (putMember k inner m))
    | v => (.error (.type ("`" ++ walked ++ "` holds " ++ v.typeName ++ ", not an object: `" ++
        path ++ "` cannot be set in it")), v)

/-- Every object of a value has its keys ascending, each once. -/
inductive Keyed : Value → Prop
  | object {ms : List (String × Value)} (ascend : ms.Pairwise fun a b => cmpStr a.1 b.1 = .lt)
      (members : ∀ kv ∈ ms, Keyed kv.2) : Keyed (.object ms)
  | list {items : List Value} (each : ∀ i ∈ items, Keyed i) : Keyed (.list items)
  | other {v : Value} (obj : ∀ ms, v ≠ .object ms) (list : ∀ items, v ≠ .list items) : Keyed v

theorem keyed_null : Keyed .null := .other (by simp) (by simp)

/-- A value a path goes no further in. -/
def Value.Blocks (v : Value) : Prop := v ≠ .null ∧ ∀ ms, v ≠ .object ms

/-! ## 2. Members -/

section Members

variable {k j : String} {x y : Value} {m : List (String × Value)}

theorem cmpStr_lt_trans {a b c : String} (h : cmpStr a b = .lt) (h' : cmpStr b c = .lt) :
    cmpStr a c = .lt :=
  @Std.TransCmp.lt_trans (List Char) compare _ _ _ _ h h'

theorem ne_of_cmpStr_lt {a b : String} (h : cmpStr a b = .lt) : a ≠ b := by
  rintro rfl
  rw [cmpStr_eq_iff.mpr rfl] at h
  cases h

/-- A member put in is found, and the others where they were. -/
theorem member_put (k j : String) (x : Value) (m : List (String × Value)) :
    (Value.object (putMember k x m)).member j =
      if j = k then some x else (Value.object m).member j := by
  induction m with
  | nil =>
    by_cases hj : j = k
    · simp [putMember, Value.member, hj]
    · simp [putMember, Value.member, hj, Ne.symm hj]
  | cons kv m ih =>
    obtain ⟨i, y⟩ := kv
    simp only [Value.member] at ih ⊢
    cases hc : cmpStr i k with
    | lt =>
      have hik := ne_of_cmpStr_lt hc
      by_cases hi : i = j
      · subst hi
        simp [putMember, hc, hik]
      · simp only [putMember, hc, List.find?_cons, beq_eq_false_iff_ne.mpr hi]
        exact ih
    | eq =>
      obtain rfl := cmpStr_eq_iff.mp hc
      by_cases hj : j = i
      · simp [putMember, hc, hj]
      · simp [putMember, hc, hj, Ne.symm hj]
    | gt =>
      by_cases hj : j = k
      · simp [putMember, hc, hj]
      · simp [putMember, hc, hj, Ne.symm hj]

theorem put_put (k : String) (x y : Value) (m : List (String × Value)) :
    putMember k x (putMember k y m) = putMember k x m := by
  have hself : cmpStr k k = .eq := cmpStr_eq_iff.mpr rfl
  induction m with
  | nil => simp [putMember, hself]
  | cons kv m ih => cases hc : cmpStr kv.1 k <;> simp [putMember, hc, hself, ih]

theorem mem_put {kv : String × Value} (h : kv ∈ putMember k x m) : kv = (k, x) ∨ kv ∈ m := by
  induction m with
  | nil => exact .inl (List.mem_singleton.mp h)
  | cons c m ih =>
    rw [putMember] at h
    cases hc : cmpStr c.1 k with
    | lt =>
      rw [hc] at h
      rcases List.mem_cons.mp h with rfl | h
      · exact .inr List.mem_cons_self
      · exact (ih h).imp_right (List.mem_cons_of_mem _)
    | eq =>
      rw [hc] at h
      rcases List.mem_cons.mp h with rfl | h
      · exact .inl (by rw [cmpStr_eq_iff.mp hc])
      · exact .inr (List.mem_cons_of_mem _ h)
    | gt =>
      rw [hc] at h
      exact List.mem_cons.mp h

theorem ascend_put (h : m.Pairwise fun a b => cmpStr a.1 b.1 = .lt) :
    (putMember k x m).Pairwise fun a b => cmpStr a.1 b.1 = .lt := by
  induction m with
  | nil => exact List.pairwise_singleton _ _
  | cons c m ih =>
    obtain ⟨hfirst, hrest⟩ := List.pairwise_cons.mp h
    rw [putMember]
    cases hc : cmpStr c.1 k with
    | lt =>
      refine List.pairwise_cons.mpr ⟨fun kv hkv => ?_, ih hrest⟩
      rcases mem_put hkv with rfl | hkv
      · exact hc
      · exact hfirst kv hkv
    | eq => exact List.pairwise_cons.mpr ⟨hfirst, hrest⟩
    | gt =>
      refine List.pairwise_cons.mpr ⟨fun kv hkv => ?_, h⟩
      rcases List.mem_cons.mp hkv with rfl | hkv
      · exact cmpStr_gt hc
      · exact cmpStr_lt_trans (cmpStr_gt hc) (hfirst kv hkv)

/-- Putting in what stands there changes nothing. -/
theorem put_member (h : m.Pairwise fun a b => cmpStr a.1 b.1 = .lt)
    (hk : (Value.object m).member k = some x) : putMember k x m = m := by
  induction m with
  | nil => cases hk
  | cons c m ih =>
    obtain ⟨i, y⟩ := c
    obtain ⟨hfirst, hrest⟩ := List.pairwise_cons.mp h
    simp only [Value.member] at hk ih
    rw [putMember]
    by_cases hi : i = k
    · subst hi
      have hx : y = x := by simpa using hk
      rw [cmpStr_eq_iff.mpr rfl, hx]
    · rw [List.find?_cons, beq_eq_false_iff_ne.mpr hi] at hk
      -- the key stands further on, so the first is below it
      obtain ⟨kv, hkv, -⟩ := Option.map_eq_some_iff.mp hk
      have hkey : kv.1 = k := by simpa using List.find?_some hkv
      have hlt := hfirst kv (List.mem_of_find?_eq_some hkv)
      rw [hkey] at hlt
      dsimp only at hlt ⊢
      rw [hlt, ih hrest hk]

theorem member_mem (h : (Value.object m).member k = some x) : ∃ kv ∈ m, kv.2 = x := by
  obtain ⟨kv, hkv, rfl⟩ := Option.map_eq_some_iff.mp h
  exact ⟨kv, List.mem_of_find?_eq_some hkv, rfl⟩

end Members

/-! ## 3. One step of a path -/

section Steps

variable {path walked k : String} {ks qs : List String} {v x : Value}

/-- The members a step of a path finds: a null is an object without any. -/
def Value.entries : Value → List (String × Value)
  | .object m => m
  | _ => []

/-- The value a step of a path leads to. -/
def Value.inside (v : Value) (k : String) : Value := (v.member k).getD .null

theorem Value.Blocks.ne (h : v.Blocks) : v ≠ .null ∧ ∀ ms, v ≠ .object ms := h

theorem blocks_cases (v : Value) : v.Blocks ∨ v = .null ∨ ∃ m, v = .object m := by
  cases v with
  | null => exact .inr (.inl rfl)
  | object m => exact .inr (.inr ⟨m, rfl⟩)
  | _ => exact .inl ⟨by simp, by simp⟩

theorem not_blocks_null : ¬ Value.null.Blocks := fun h => h.1 rfl

theorem atKeys_null (ks : List String) : Value.null.atKeys ks = .null := by
  cases ks <;> rfl

theorem atKeys_cons (v : Value) (k : String) (ks : List String) :
    v.atKeys (k :: ks) = (v.inside k).atKeys ks := by
  rw [Value.atKeys, Value.inside]
  cases v.member k with
  | none => exact (atKeys_null ks).symm
  | some w => rfl

/-- **A step into an object**: its member is set further in, whether it stood there or not. -/
theorem setPathIn_object (m : List (String × Value)) :
    setPathIn path walked (k :: ks) (.object m) x =
      ((setPathIn path (walked ++ "." ++ k) ks ((Value.object m).inside k) x).1,
        .object (putMember k
          (setPathIn path (walked ++ "." ++ k) ks ((Value.object m).inside k) x).2 m)) := by
  rw [setPathIn, if_neg (by simp [Value.isNull])]
  dsimp only
  rw [Value.inside]
  cases hk : (Value.object m).member k with
  | some w => simp [hk]
  | none =>
    -- the null put in at the key is what the step then finds there
    simp [member_put, put_put]

/-- A step into a null, which becomes an object on the way. -/
theorem setPathIn_null :
    setPathIn path walked (k :: ks) .null x =
      setPathIn path walked (k :: ks) (.object []) x := rfl

/-- A step refuses at anything else, and leaves it. -/
theorem setPathIn_blocks (h : v.Blocks) : ∃ e, setPathIn path walked (k :: ks) v x = (.error e, v) := by
  cases v with
  | null => exact absurd rfl h.1
  | object m => exact absurd rfl (h.2 m)
  | _ => exact ⟨_, rfl⟩

/-- **A step that does not refuse**, from a null as from an object. -/
theorem setPathIn_step (h : ¬ v.Blocks) :
    setPathIn path walked (k :: ks) v x =
      ((setPathIn path (walked ++ "." ++ k) ks (v.inside k) x).1,
        .object (putMember k (setPathIn path (walked ++ "." ++ k) ks (v.inside k) x).2
          v.entries)) := by
  rcases blocks_cases v with hb | rfl | ⟨m, rfl⟩
  · exact absurd hb h
  · rw [setPathIn_null, setPathIn_object]
    rfl
  · exact setPathIn_object m

theorem member_entries (h : ¬ v.Blocks) (k : String) :
    (Value.object v.entries).member k = v.member k := by
  rcases blocks_cases v with hb | rfl | ⟨m, rfl⟩
  · exact absurd hb h
  · rfl
  · rfl

theorem Keyed.entries (h : Keyed v) :
    v.entries.Pairwise (fun a b => cmpStr a.1 b.1 = .lt) ∧ ∀ kv ∈ v.entries, Keyed kv.2 := by
  cases h with
  | object ascend members => exact ⟨ascend, members⟩
  | list each => exact ⟨.nil, by simp [Value.entries]⟩
  | other obj list =>
    cases v with
    | object m => exact absurd rfl (obj m)
    | _ => exact ⟨.nil, by simp [Value.entries]⟩

theorem Keyed.inside (h : Keyed v) (k : String) : Keyed (v.inside k) := by
  rw [Value.inside]
  cases hk : v.member k with
  | none => exact keyed_null
  | some w =>
    cases v with
    | object m =>
      obtain ⟨kv, hkv, rfl⟩ := member_mem hk
      exact h.entries.2 kv hkv
    | _ => cases hk

end Steps

/-! ## 4. A whole path -/

section Paths

variable {path walked : String} {ks qs : List String} {v x : Value}

/-- **A path is refused exactly at a value that blocks it before its end.** -/
theorem setPathIn_error_iff : ∀ {ks : List String} {walked : String} {v : Value},
    (∃ e, (setPathIn path walked ks v x).1 = .error e) ↔
      ∃ ps, ps <+: ks ∧ ps ≠ ks ∧ (v.atKeys ps).Blocks := by
  intro ks
  induction ks with
  | nil =>
    intro walked v
    refine ⟨fun ⟨e, h⟩ => (by cases h), fun ⟨ps, hpre, hne, _⟩ => ?_⟩
    exact absurd (List.prefix_nil.mp hpre) hne
  | cons k ks ih =>
    intro walked v
    by_cases hb : v.Blocks
    · obtain ⟨e, he⟩ : ∃ e, setPathIn path walked (k :: ks) v x = (.error e, v) :=
        setPathIn_blocks hb
      exact ⟨fun _ => ⟨[], List.nil_prefix, by simp, hb⟩, fun _ => ⟨e, by rw [he]⟩⟩
    · rw [setPathIn_step hb]
      constructor
      · intro h
        obtain ⟨ps, hpre, hne, hps⟩ := ih.mp h
        refine ⟨k :: ps, (List.prefix_cons_inj k).mpr hpre, fun heq => hne ?_, ?_⟩
        · exact (List.cons.inj heq).2
        · rwa [atKeys_cons]
      · rintro ⟨ps, hpre, hne, hps⟩
        cases ps with
        | nil => exact absurd hps hb
        | cons j ps =>
          obtain ⟨rfl, hsub⟩ := List.cons_prefix_cons.mp hpre
          refine ih.mpr ⟨ps, hsub, fun heq => hne (by rw [heq]), ?_⟩
          rwa [← atKeys_cons]

/-- Nothing on a path from a null blocks it. -/
theorem setPathIn_null_ok : (setPathIn path walked ks .null x).1 = .ok () := by
  cases hr : (setPathIn path walked ks .null x).1 with
  | ok u => rfl
  | error e =>
    obtain ⟨ps, -, -, hb⟩ := setPathIn_error_iff.mp ⟨e, hr⟩
    rw [atKeys_null] at hb
    exact absurd hb not_blocks_null

/-- **Where a path is refused nothing has been written.**  The values it went through were
objects with the keys of the path, and each is put back in where it was. -/
theorem setPathIn_error : ∀ {ks : List String} {walked : String} {v : Value} {e : Error},
    Keyed v → (setPathIn path walked ks v x).1 = .error e → (setPathIn path walked ks v x).2 = v := by
  intro ks
  induction ks with
  | nil => exact fun _ h => by cases h
  | cons k ks ih =>
    intro walked v e hv h
    by_cases hb : v.Blocks
    · obtain ⟨e, he⟩ : ∃ e, setPathIn path walked (k :: ks) v x = (.error e, v) :=
        setPathIn_blocks hb
      rw [he]
    · rw [setPathIn_step hb] at h ⊢
      dsimp only at h ⊢
      rw [ih (hv.inside k) h]
      cases hk : v.member k with
      | none =>
        rw [Value.inside, hk] at h
        rw [Option.getD_none, setPathIn_null_ok] at h
        cases h
      | some w =>
        have hm : (Value.object v.entries).member k = some w := by rw [member_entries hb, hk]
        rw [Value.inside, hk, Option.getD_some, put_member hv.entries.1 hm]
        rcases blocks_cases v with hb' | rfl | ⟨m, rfl⟩
        · exact absurd hb' hb
        · cases hk
        · rfl

/-- The member a step has set. -/
theorem inside_put (hb : ¬ v.Blocks) (k j : String) (y : Value) :
    (Value.object (putMember k y v.entries)).inside j = if j = k then y else v.inside j := by
  rw [Value.inside, member_put, member_entries hb]
  split <;> rfl

/-- **What a path is set to is read at it.** -/
theorem atKeys_written : ∀ {ks : List String} {walked : String} {v : Value},
    (setPathIn path walked ks v x).1 = .ok () → (setPathIn path walked ks v x).2.atKeys ks = x := by
  intro ks
  induction ks with
  | nil => exact fun _ => rfl
  | cons k ks ih =>
    intro walked v h
    by_cases hb : v.Blocks
    · obtain ⟨e, he⟩ : ∃ e, setPathIn path walked (k :: ks) v x = (.error e, v) :=
        setPathIn_blocks hb
      rw [he] at h
      cases h
    · rw [setPathIn_step hb] at h ⊢
      rw [atKeys_cons, inside_put hb, if_pos rfl]
      exact ih h

/-- **A path that parts from the one set reads as before.** -/
theorem atKeys_apart : ∀ {ks : List String} {walked : String} {v : Value} {qs : List String},
    (setPathIn path walked ks v x).1 = .ok () → ¬ qs <+: ks → ¬ ks <+: qs →
    (setPathIn path walked ks v x).2.atKeys qs = v.atKeys qs := by
  intro ks
  induction ks with
  | nil => exact fun _ _ h => absurd List.nil_prefix h
  | cons k ks ih =>
    intro walked v qs h hqs hks
    cases qs with
    | nil => exact absurd List.nil_prefix hqs
    | cons q qs =>
      by_cases hb : v.Blocks
      · obtain ⟨e, he⟩ : ∃ e, setPathIn path walked (k :: ks) v x = (.error e, v) :=
          setPathIn_blocks hb
        rw [he]
      · rw [setPathIn_step hb] at h ⊢
        rw [atKeys_cons, atKeys_cons, inside_put hb]
        by_cases hq : q = k
        · subst hq
          rw [if_pos rfl]
          refine ih h (fun hpre => hqs ?_) (fun hpre => hks ?_)
          · exact (List.prefix_cons_inj q).mpr hpre
          · exact (List.prefix_cons_inj q).mpr hpre
        · rw [if_neg hq]

/-- The objects of what is written ascend as those of the value given do. -/
theorem keyed_written : ∀ {ks : List String} {walked : String} {v : Value}, Keyed v →
    (setPathIn path walked ks v x).1 = .ok () →
    (Keyed (setPathIn path walked ks v x).2 ↔ Keyed x) := by
  intro ks
  induction ks with
  | nil => exact fun _ _ => Iff.rfl
  | cons k ks ih =>
    intro walked v hv h
    by_cases hb : v.Blocks
    · obtain ⟨e, he⟩ : ∃ e, setPathIn path walked (k :: ks) v x = (.error e, v) :=
        setPathIn_blocks hb
      rw [he] at h
      cases h
    · rw [setPathIn_step hb] at h ⊢
      rw [← ih (hv.inside k) h]
      constructor
      · intro hw
        have hin := hw.inside k
        rwa [inside_put hb, if_pos rfl] at hin
      · intro hw
        refine .object (ascend_put hv.entries.1) fun kv hkv => ?_
        rcases mem_put hkv with rfl | hkv
        · exact hw
        · exact hv.entries.2 kv hkv

theorem setPath_object (k : String) (m : List (String × Value)) :
    setPath path walked (k :: ks) (.object m) x = (do
      let inner ← setPath path (walked ++ "." ++ k) ks ((Value.object m).inside k) x
      pure (.object (putMember k inner m))) := rfl

theorem setPath_null (k : String) :
    setPath path walked (k :: ks) .null x = setPath path walked (k :: ks) (.object []) x := rfl

/-- What a statement is answered with, or the value it goes on with. -/
theorem setPath_eq : ∀ {ks : List String} {walked : String} {v : Value},
    setPath path walked ks v x =
      (setPathIn path walked ks v x).1.map fun _ => (setPathIn path walked ks v x).2 := by
  intro ks
  induction ks with
  | nil => exact rfl
  | cons k ks ih =>
    intro walked v
    rcases blocks_cases v with hb | rfl | ⟨m, rfl⟩
    · cases v with
      | null => exact absurd rfl hb.1
      | object m => exact absurd rfl (hb.2 m)
      | _ => rfl
    · rw [setPathIn_null, setPathIn_object, setPath_null, setPath_object, ih]
      rcases setPathIn path (walked ++ "." ++ k) ks ((Value.object []).inside k) x with ⟨_ | _, w⟩
      · rfl
      · rfl
    · rw [setPathIn_object, setPath_object, ih]
      rcases setPathIn path (walked ++ "." ++ k) ks ((Value.object m).inside k) x with ⟨_ | _, w⟩
      · rfl
      · rfl

end Paths

/-! ## 5. The paths of a written value -/

section Bytes

variable {v : Value}

theorem sound_of_keyed (h : Keyed v) (hlen : (encodeValue v).length < 2 ^ 63) : Sound v := by
  induction h with
  | @object ms ascend members ih =>
    refine .object ascend fun kv hkv => ih kv hkv ?_
    have hin : (encodeMember kv).length ≤ (ms.flatMap encodeMember).length := by
      obtain ⟨a, b, rfl⟩ := List.append_of_mem hkv
      simp only [List.flatMap_append, List.flatMap_cons, List.length_append]
      omega
    rw [encodeMember, List.length_append] at hin
    rw [encodeValue, body, encodeMembers_eq, List.length_cons, List.length_append] at hlen
    omega
  | list each => exact .other (by simp) (by simp)
  | @other v obj list =>
    by_cases hvec : ∃ vals, v = .vector vals
    · obtain ⟨vals, rfl⟩ := hvec
      refine .vector ?_
      rw [encodeValue, body, List.length_cons, List.length_append, length_words] at hlen
      omega
    · exact .other obj fun vals hv => hvec ⟨vals, hv⟩

/-- **`decode_path_into` reads off the bytes what the value reads at the path.** -/
theorem decodePath_of_keyed (o : Overflow) (hv : Keyed v) {before after : List UInt8}
    (hbuf : (before ++ encodeValue v ++ after).length < 2 ^ 63) (keys : String) (slot : Value)
    (log : List (Tag × Nat)) :
    (decodePath o (before ++ encodeValue v ++ after) keys slot ⟨before.length, log⟩).1 =
      .ok (v.atPath keys) := by
  have hlen : (encodeValue v).length < 2 ^ 63 := by
    simp only [List.length_append] at hbuf
    omega
  refine decodePath_of_cell hbuf (cell_of_sound (sound_of_keyed hv hlen)) ⟨?_, after, ?_⟩ keys slot
  · simp only [List.length_append]
    omega
  · simp

end Bytes

/-! ## 6. One place or nothing -/

/-- `Value::set_path` over the text of a path, at a field. -/
def Value.setPathAt (v : Value) (field keys : String) (x : Value) : Result Unit × Value :=
  setPathIn (field ++ "." ++ keys) field (Value.pathKeys keys) v x

/-- **`set_path` writes one place of a value or nothing of it.**  It is refused exactly where a
value before the path's end is neither null nor an object, and then the value is as it was.
Otherwise the path reads the value given, every path that is neither a prefix of it nor an
extension reads as before, and the objects ascend by their keys.  Off its bytes a value whose
objects ascend is read, at every path, as it reads itself. -/
theorem set_path_writes_one_place_or_nothing (field keys : String) {v : Value} (hv : Keyed v)
    (x : Value) :
    ((∃ e, (v.setPathAt field keys x).1 = .error e) ↔
      ∃ ps, ps <+: Value.pathKeys keys ∧ ps ≠ Value.pathKeys keys ∧ (v.atKeys ps).Blocks) ∧
    (∀ e, (v.setPathAt field keys x).1 = .error e → (v.setPathAt field keys x).2 = v) ∧
    ((v.setPathAt field keys x).1 = .ok () →
      (v.setPathAt field keys x).2.atPath keys = x ∧
      (∀ path, ¬ Value.pathKeys path <+: Value.pathKeys keys →
        ¬ Value.pathKeys keys <+: Value.pathKeys path →
        (v.setPathAt field keys x).2.atPath path = v.atPath path) ∧
      (Keyed (v.setPathAt field keys x).2 ↔ Keyed x)) ∧
    (∀ (o : Overflow) (before after : List UInt8) (path : String) (slot : Value)
      (log : List (Tag × Nat)), (before ++ encodeValue v ++ after).length < 2 ^ 63 →
      (decodePath o (before ++ encodeValue v ++ after) path slot ⟨before.length, log⟩).1 =
        .ok (v.atPath path)) := by
  refine ⟨setPathIn_error_iff, fun e h => setPathIn_error hv h, fun h => ⟨?_, ?_, ?_⟩, ?_⟩
  · exact atKeys_written h
  · exact fun path hpath hkeys => atKeys_apart h hpath hkeys
  · exact keyed_written hv h
  · exact fun o before after path slot log hbuf => decodePath_of_keyed o hv hbuf path slot log

/-- A document with an object in it. -/
def nested : Value := .object [("a", .object [("b", .int 1)]), ("c", .text "x")]

theorem keyed_nested : Keyed nested := by
  have hmember : ∀ kv ∈ [("b", Value.int 1)], Keyed kv.2 := by
    intro kv hkv
    obtain rfl := List.mem_singleton.mp hkv
    exact .other (by simp) (by simp)
  refine .object (by decide) fun kv hkv => ?_
  rcases List.mem_cons.mp hkv with rfl | hkv
  · exact .object (by simp) hmember
  · obtain rfl := List.mem_singleton.mp hkv
    exact .other (by simp) (by simp)

theorem set_path_in_nested :
    (nested.setPathAt "doc" "a.b" (.int 2)).2.atPath "a.b" = .int 2 ∧
      (nested.setPathAt "doc" "a.b" (.int 2)).2.atPath "c" = .text "x" ∧
      ∃ e, (nested.setPathAt "doc" "c.b" (.int 2)).1 = .error e := by
  have hwrites := (set_path_writes_one_place_or_nothing "doc" "a.b" keyed_nested (.int 2)).2.2.1 rfl
  have htext : (nested.atKeys ["c"]).Blocks :=
    show (Value.text "x").Blocks from ⟨by simp, by simp⟩
  refine ⟨hwrites.1, hwrites.2.1 "c" (by decide) (by decide), ?_⟩
  exact (set_path_writes_one_place_or_nothing "doc" "c.b" keyed_nested (.int 2)).1.mpr
    ⟨["c"], by decide, by decide, htext⟩

end Fenec
