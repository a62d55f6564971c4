/-
# `like`

A pattern is a list of tokens: `%`, which any run of characters matches, `_`, which any one does,
and characters, each matched by itself; the escape makes the character after it one of these.
`Matches` is that relation and nothing else.

The matcher works on bytes and goes back to the last `%` only.  Its state is a place in the text,
a place in the pattern and the place to go back to; `Stands`, `PatternAt` and `WayAt` say what
characters and tokens stand there, and `Succeeds` what the matcher is still to find out: that the
rest matches from here, or from further on than the last `%` was tried from.  Every round keeps `Succeeds` as it was
(`round_spec`) and takes something off `left`, so it ends, within the rounds the matcher is given
(`ends_of_at`).  Forgetting the `%` before the last loses nothing, since what it could take the last
one takes (`Matches.absorb`).

Under a fold the text and the pattern are their folds.
-/
import Fenec.Query

namespace Fenec

open Lib Case

namespace Like

/-! ## 1. Patterns -/

/-- A token of a pattern. -/
inductive Token where
  | any
  | one
  | char (c : Char)
deriving DecidableEq

/-- The token of a character that is not escaped. -/
def Token.of (c : Char) : Token := if c = '%' then .any else if c = '_' then .one else .char c

/-- The tokens of a pattern, or none where it ends in its escape. -/
def tokens (e : Option Char) : List Char → Option (List Token)
  | [] => some []
  | c :: rest =>
    if some c = e then
      match rest with
      | [] => none
      | x :: rest => (tokens e rest).map (.char x :: ·)
    else (tokens e rest).map (.of c :: ·)

/-- **What SQL's `like` is**: which texts a pattern matches. -/
inductive Matches : List Token → List Char → Prop
  | nil : Matches [] []
  | any {t : List Token} (taken : List Char) {s : List Char} :
      Matches t s → Matches (.any :: t) (taken ++ s)
  | one {t : List Token} (c : Char) {s : List Char} : Matches t s → Matches (.one :: t) (c :: s)
  | char {t : List Token} (c : Char) {s : List Char} :
      Matches t s → Matches (.char c :: t) (c :: s)

section Matches

variable {t u : List Token} {s : List Char} {c y : Char}

theorem matches_nil_iff : Matches [] s ↔ s = [] := by
  constructor
  · intro h
    cases h
    rfl
  · rintro rfl
    exact .nil

theorem matches_any_iff : Matches (.any :: t) s ↔ ∃ taken r, s = taken ++ r ∧ Matches t r := by
  constructor
  · intro h
    cases h with
    | any taken h => exact ⟨taken, _, rfl, h⟩
  · rintro ⟨taken, r, rfl, h⟩
    exact .any taken h

theorem matches_one_iff : Matches (.one :: t) (y :: s) ↔ Matches t s := by
  constructor
  · intro h
    cases h with
    | one _ h => exact h
  · exact .one y

theorem matches_char_iff : Matches (.char c :: t) (y :: s) ↔ c = y ∧ Matches t s := by
  constructor
  · intro h
    cases h with
    | char _ h => exact ⟨rfl, h⟩
  · rintro ⟨rfl, h⟩
    exact .char c h

theorem not_matches_nil (h : t ≠ []) (hany : ∀ u, t ≠ .any :: u) : ¬ Matches t [] := by
  intro hm
  cases t with
  | nil => exact h rfl
  | cons a u =>
    cases a with
    | any => exact hany u rfl
    | one => cases hm
    | char c => cases hm

/-- Tokens that are no `%` take a character each. -/
theorem Matches.split {front : List Token} (hfront : .any ∉ front) :
    ∀ {s : List Char}, Matches (front ++ u) s →
      ∃ a r, s = a ++ r ∧ a.length = front.length ∧ Matches u r := by
  induction front with
  | nil => exact fun {s} h => ⟨[], s, rfl, rfl, h⟩
  | cons a front ih =>
    intro s h
    have hrest : Token.any ∉ front := fun hm => hfront (List.mem_cons_of_mem _ hm)
    cases h with
    | any => exact absurd List.mem_cons_self hfront
    | one c h =>
      obtain ⟨a, r, rfl, hlen, hr⟩ := ih hrest h
      exact ⟨c :: a, r, rfl, by rw [List.length_cons, List.length_cons, hlen], hr⟩
    | char c h =>
      obtain ⟨a, r, rfl, hlen, hr⟩ := ih hrest h
      exact ⟨c :: a, r, rfl, by rw [List.length_cons, List.length_cons, hlen], hr⟩

/-- **What an earlier `%` could take, a later one takes.** -/
theorem Matches.absorb {front : List Token} {used gap : List Char} (hfront : .any ∉ front)
    (hlen : used.length = front.length) {r : List Char} (hcut : used ++ s = gap ++ r)
    (h : Matches (front ++ .any :: t) r) : Matches (.any :: t) s := by
  obtain ⟨a, r₁, rfl, ha, hr⟩ := h.split hfront
  obtain ⟨taken, r₂, rfl, hrest⟩ := matches_any_iff.mp hr
  -- the text from here on ends in what the later tokens match
  have hsuffix : ∃ more, s = more ++ (taken ++ r₂) := by
    have hs : s = (gap ++ (a ++ (taken ++ r₂))).drop used.length := by
      rw [← hcut, List.drop_left]
    rw [← List.append_assoc, List.drop_append_of_le_length] at hs
    · exact ⟨_, hs⟩
    · rw [List.length_append]
      omega
  obtain ⟨more, rfl⟩ := hsuffix
  rw [← List.append_assoc]
  exact .any (more ++ taken) hrest

end Matches

/-! ## 2. One round of the matcher -/

/-- What a round comes to: an answer, or where the next one starts. -/
inductive Round where
  | done (b : Bool)
  | go (i j : Nat) (back : Option (Nat × Nat))

/-- The way back to the last `%`, which takes one character more; nothing where an index is out of
bounds. -/
def retry (h p e : List UInt8) (back : Option (Nat × Nat)) : Option Round :=
  match back with
  | some (bj, bi) =>
    if bi < h.length then do
      let b ← h[bi]?
      let i := bi + charLen b
      let lit := escapes e (p.drop bj)
      let c ← p[bj + if lit then e.length else 0]?
      if lit || (c != 37 && c != 95) then
        if h.length < i then none
        else match (h.drop i).findIdx? (· == c) with
          | some k => some (.go (i + k) bj (some (bj, i + k)))
          | none => some (.done false)
      else some (.go i bj (some (bj, i)))
    else some (.done false)
  | none => some (.done false)

/-- **A round of `like_pattern`**, or nothing where an index is out of bounds. -/
def round (h p e : List UInt8) (i j : Nat) (back : Option (Nat × Nat)) : Option Round :=
  match p[j]? with
  | some c =>
    let lit := escapes e (p.drop j)
    let here := j + if lit then e.length else 0
    if !lit && c == 37 then
      if j + 1 = p.length then some (.done true)
      else some (.go i (j + 1) (some (j + 1, i)))
    else match h[i]? with
      | some b =>
        if !lit && c == 95 then some (.go (i + charLen b) (j + 1) back)
        else do
          let n := charLen (← p[here]?)
          if p.length < here + n then none
          else if ((p.drop here).take n).isPrefixOf (h.drop i) then
            some (.go (i + n) (here + n) back)
          else retry h p e back
      | none => retry h p e back
  | none => if i = h.length then some (.done true) else retry h p e back

/-- The rounds to an answer, and how many they are. -/
inductive Ends (h p e : List UInt8) : Nat → Nat → Nat → Option (Nat × Nat) → Bool → Prop
  | done {i j : Nat} {back : Option (Nat × Nat)} {b : Bool} :
      round h p e i j back = some (.done b) → Ends h p e 1 i j back b
  | go {n i j i' j' : Nat} {back back' : Option (Nat × Nat)} {b : Bool} :
      round h p e i j back = some (.go i' j' back') → Ends h p e n i' j' back' b →
      Ends h p e (n + 1) i j back b

/-- What the loop does with a round. -/
def Round.loop (h p e : List UInt8) (fuel : Nat) : Round → Bool
  | .done b => b
  | .go i j back => likeLoop h p e fuel i j back

section Loop

variable {h p e : List UInt8} {i j : Nat} {back : Option (Nat × Nat)}

/-- The loop after the way back. -/
def retried (h p e : List UInt8) (fuel : Nat) (back : Option (Nat × Nat)) : Bool :=
  match back with
  | some (bj, bi) =>
    if bi < h.length then
      let i := bi + charLen (h.getD bi 0)
      let lit := escapes e (p.drop bj)
      let c := p.getD (bj + if lit then e.length else 0) 0
      if lit || (c != 37 && c != 95) then
        match (h.drop i).findIdx? (· == c) with
        | some k => likeLoop h p e fuel (i + k) bj (some (bj, i + k))
        | none => false
      else likeLoop h p e fuel i bj (some (bj, i))
    else false
  | none => false

theorem retried_eq {r : Round} {fuel : Nat} (hr : retry h p e back = some r) :
    retried h p e fuel back = r.loop h p e fuel := by
  unfold retry at hr
  unfold retried
  cases back with
  | none =>
    obtain rfl := Option.some.inj hr
    rfl
  | some at_ =>
    obtain ⟨bj, bi⟩ := at_
    dsimp only at hr ⊢
    by_cases hlt : bi < h.length
    · rw [if_pos hlt] at hr ⊢
      obtain ⟨b, hb, hr⟩ := Option.bind_eq_some_iff.mp hr
      obtain ⟨c, hc, hr⟩ := Option.bind_eq_some_iff.mp hr
      rw [List.getD_eq_getElem?_getD, List.getD_eq_getElem?_getD, hb, hc]
      dsimp only [Option.getD_some]
      split at hr
      · next hlit =>
        rw [if_pos hlit]
        split at hr
        · cases hr
        · cases hfind : (h.drop (bi + charLen b)).findIdx? (· == c) with
          | some k =>
            rw [hfind] at hr
            obtain rfl := Option.some.inj hr
            rfl
          | none =>
            rw [hfind] at hr
            obtain rfl := Option.some.inj hr
            rfl
      · next hlit =>
        rw [if_neg hlit]
        obtain rfl := Option.some.inj hr
        rfl
    · rw [if_neg hlt] at hr ⊢
      obtain rfl := Option.some.inj hr
      rfl

/-- **The loop is its rounds.** -/
theorem likeLoop_succ {r : Round} (hr : round h p e i j back = some r) (fuel : Nat) :
    likeLoop h p e (fuel + 1) i j back = r.loop h p e fuel := by
  rw [likeLoop.eq_def]
  dsimp only
  unfold round at hr
  cases hp : p[j]? with
  | none =>
    rw [hp] at hr
    dsimp only at hr ⊢
    split at hr
    · next hend =>
      rw [if_pos hend]
      obtain rfl := Option.some.inj hr
      rfl
    · next hend =>
      rw [if_neg hend]
      exact retried_eq hr
  | some c =>
    rw [hp] at hr
    dsimp only at hr ⊢
    split at hr
    · next hany =>
      rw [if_pos hany]
      split at hr
      · next hlast =>
        rw [if_pos hlast]
        obtain rfl := Option.some.inj hr
        rfl
      · next hlast =>
        rw [if_neg hlast]
        obtain rfl := Option.some.inj hr
        rfl
    · next hany =>
      rw [if_neg hany]
      cases hh : h[i]? with
      | none =>
        rw [hh] at hr
        exact retried_eq hr
      | some b =>
        rw [hh] at hr
        dsimp only at hr ⊢
        split at hr
        · next hone =>
          rw [if_pos hone]
          obtain rfl := Option.some.inj hr
          rfl
        · next hone =>
          rw [if_neg hone]
          obtain ⟨first, hfirst, hr⟩ := Option.bind_eq_some_iff.mp hr
          rw [List.getD_eq_getElem?_getD, hfirst]
          dsimp only [Option.getD_some] at hr ⊢
          generalize (j + if escapes e (p.drop j) = true then e.length else 0) = here at hr ⊢
          split at hr
          · cases hr
          · split at hr
            · next hmatch =>
              rw [if_pos hmatch]
              obtain rfl := Option.some.inj hr
              rfl
            · next hmatch =>
              rw [if_neg hmatch]
              exact retried_eq hr

/-- **As many rounds as the loop has fuel for are enough.** -/
theorem likeLoop_of_ends {n : Nat} {b : Bool} (h' : Ends h p e n i j back b) {fuel : Nat}
    (hfuel : n ≤ fuel) : likeLoop h p e fuel i j back = b := by
  induction h' generalizing fuel with
  | done hr =>
    obtain ⟨fuel, rfl⟩ : ∃ m, fuel = m + 1 := ⟨fuel - 1, by omega⟩
    rw [likeLoop_succ hr]
    rfl
  | go hr _ ih =>
    obtain ⟨fuel, rfl⟩ : ∃ m, fuel = m + 1 := ⟨fuel - 1, by omega⟩
    rw [likeLoop_succ hr]
    exact ih (by omega)

end Loop

/-! ## 3. Characters in bytes -/

/-- **The bytes of a character**: the first says how many follow, and none of these is a first. -/
structure Encoded (c : Char) (b : UInt8) (rest : List UInt8) : Prop where
  bytes : String.utf8EncodeChar c = b :: rest
  length : charLen b = rest.length + 1
  first : b < 0x80 ∨ 0xC0 ≤ b
  follow : ∀ x ∈ rest, 0x80 ≤ x ∧ x < 0xC0
  ascii : b < 0x80 → c = Char.ofNat b.toNat

theorem toNat_ofNat_lt {n : Nat} (h : n < 256) : (UInt8.ofNat n).toNat = n := by
  rw [UInt8.toNat_ofNat']
  omega

theorem follows_ofNat (n : Nat) :
    0x80 ≤ UInt8.ofNat (n % 0x40 + 0x80) ∧ UInt8.ofNat (n % 0x40 + 0x80) < 0xC0 := by
  have hval := toNat_ofNat_lt (n := n % 0x40 + 0x80) (by omega)
  constructor
  · rw [UInt8.le_iff_toNat_le, hval]
    show 128 ≤ n % 64 + 128
    omega
  · rw [UInt8.lt_iff_toNat_lt, hval]
    show n % 64 + 128 < 192
    omega

/-- What a first byte of a range is. -/
theorem first_ofNat {n : Nat} (hn : n < 256) (h : 0xC0 ≤ n) :
    0xC0 ≤ UInt8.ofNat n ∧ ¬ UInt8.ofNat n < 0x80 := by
  have hval := toNat_ofNat_lt hn
  constructor
  · rw [UInt8.le_iff_toNat_le, hval]
    show 192 ≤ n
    omega
  · rw [UInt8.lt_iff_toNat_lt, hval]
    show ¬ n < 128
    omega

theorem charLen_ofNat {n : Nat} (hn : n < 256) : charLen (UInt8.ofNat n) =
    1 + (if 0xC0 ≤ n then 1 else 0) + (if 0xE0 ≤ n then 1 else 0) + (if 0xF0 ≤ n then 1 else 0) := by
  have hval := toNat_ofNat_lt hn
  unfold charLen
  simp only [ge_iff_le, UInt8.le_iff_toNat_le, hval]
  rfl

theorem encoded (c : Char) : ∃ b rest, Encoded c b rest := by
  have hvalid : c.val.toNat < 0x110000 := by
    have hv := c.valid
    simp only [UInt32.isValidChar, Nat.isValidChar] at hv
    omega
  have henc : ∀ b rest, String.utf8EncodeChar c = b :: rest → charLen b = rest.length + 1 →
      0xC0 ≤ b ∧ ¬ b < 0x80 → (∀ x ∈ rest, 0x80 ≤ x ∧ x < 0xC0) → ∃ b rest, Encoded c b rest :=
    fun b rest hbytes hlen hfirst hrest =>
      ⟨b, rest, hbytes, hlen, .inr hfirst.1, hrest, fun hlt => absurd hlt hfirst.2⟩
  obtain ⟨l, hbytes⟩ : ∃ l, String.utf8EncodeChar c = l := ⟨_, rfl⟩
  have hl := hbytes
  unfold String.utf8EncodeChar at hl
  dsimp only at hl
  generalize hv : c.val.toNat = v at hvalid hl
  split at hl
  · next h1 =>
    rw [← hl] at hbytes
    have hlt : UInt8.ofNat v < 0x80 := by
      rw [UInt8.lt_iff_toNat_lt, toNat_ofNat_lt (by omega)]
      show v < 128
      omega
    refine ⟨_, _, hbytes, ?_, .inl hlt, fun x hx => (by cases hx), fun _ => ?_⟩
    · rw [charLen_ofNat (by omega), if_neg (by omega), if_neg (by omega), if_neg (by omega)]
      rfl
    · rw [toNat_ofNat_lt (by omega), ← hv]
      exact (Char.ofNat_toNat c).symm
  · split at hl
    · rw [← hl] at hbytes
      refine henc _ _ hbytes ?_ (first_ofNat (by omega) (by omega)) ?_
      · rw [charLen_ofNat (by omega), if_pos (by omega), if_neg (by omega), if_neg (by omega)]
        rfl
      · simp only [List.forall_mem_cons, follows_ofNat, true_and]
        simp
    · split at hl
      · rw [← hl] at hbytes
        refine henc _ _ hbytes ?_ (first_ofNat (by omega) (by omega)) ?_
        · rw [charLen_ofNat (by omega), if_pos (by omega), if_pos (by omega), if_neg (by omega)]
          rfl
        · simp only [List.forall_mem_cons, follows_ofNat, true_and]
          simp
      · rw [← hl] at hbytes
        refine henc _ _ hbytes ?_ (first_ofNat (by omega) (by omega)) ?_
        · rw [charLen_ofNat (by omega), if_pos (by omega), if_pos (by omega), if_pos (by omega)]
          rfl
        · simp only [List.forall_mem_cons, follows_ofNat, true_and]
          simp

section Bytes

variable {c x : Char} {b b' : UInt8} {rest rest' : List UInt8}

theorem Encoded.first_eq (h : Encoded c b rest) (h' : Encoded c b' rest') : b = b' := by
  have heq := h.bytes.symm.trans h'.bytes
  exact (List.cons.inj heq).1

/-- A wildcard's byte starts no other character. -/
theorem Encoded.wild (h : Encoded c b rest) {n : Nat} (hn : n < 0x80)
    (hbytes : String.utf8EncodeChar (Char.ofNat n) = [UInt8.ofNat n]) :
    b = UInt8.ofNat n ↔ c = Char.ofNat n := by
  constructor
  · rintro rfl
    have hlt : UInt8.ofNat n < 0x80 := by
      rw [UInt8.lt_iff_toNat_lt, toNat_ofNat_lt (by omega)]
      exact hn
    rw [h.ascii hlt, toNat_ofNat_lt (by omega)]
  · rintro rfl
    exact (List.cons.inj (h.bytes.symm.trans hbytes)).1

theorem Encoded.percent (h : Encoded c b rest) : b = 37 ↔ c = '%' :=
  h.wild (n := 37) (by decide) (by decide)

theorem Encoded.underscore (h : Encoded c b rest) : b = 95 ↔ c = '_' :=
  h.wild (n := 95) (by decide) (by decide)

theorem escapes_cons {e : Option Char} {cs : List Char} :
    escapes (utf8 e.toList) (utf8 (c :: cs)) = true ↔ some c = e := by
  cases e with
  | none => simp [escapes]
  | some x =>
    have hne : utf8 [x] ≠ [] := fun hnil => by cases utf8_eq_nil.mp hnil
    have hpre : utf8 [x] <+: utf8 (c :: cs) ↔ c = x := by
      constructor
      · intro h
        have hx := prefix_of_utf8 h
        rw [List.cons_prefix_cons] at hx
        exact hx.1.symm
      · rintro rfl
        exact ⟨utf8 cs, by rw [← utf8_append]; rfl⟩
    rw [Option.toList_some, escapes, Bool.and_eq_true, List.isPrefixOf_iff_prefix, hpre,
      Option.some.injEq]
    simp

/-- **Where a character's first byte is found** is where a character starts that has it. -/
theorem find_first (hb : b < 0x80 ∨ 0xC0 ≤ b) (s : List Char) :
    ((utf8 s).findIdx? (· == b) = none ∧ ∀ z ∈ s, ∀ b' r, Encoded z b' r → b' ≠ b) ∨
      ∃ skip r, s = skip ++ r ∧ (utf8 s).findIdx? (· == b) = some (utf8 skip).length ∧
        ∀ z ∈ skip, ∀ b' r, Encoded z b' r → b' ≠ b := by
  induction s with
  | nil => exact .inl ⟨rfl, by simp⟩
  | cons c s ih =>
    obtain ⟨b₀, r₀, henc⟩ := encoded c
    have hbytes : utf8 (c :: s) = b₀ :: (r₀ ++ utf8 s) := by rw [utf8_cons, henc.bytes]; rfl
    rw [hbytes, List.findIdx?_cons]
    by_cases heq : b₀ = b
    · refine .inr ⟨[], c :: s, rfl, ?_, by simp⟩
      rw [if_pos (by simpa using heq)]
      rfl
    · have hfollow : r₀.findIdx? (· == b) = none := by
        rw [List.findIdx?_eq_none_iff]
        intro x hx
        obtain ⟨hlow, hhigh⟩ := henc.follow x hx
        rw [beq_eq_false_iff_ne]
        rintro rfl
        rcases hb with hb | hb
        · exact absurd hb (UInt8.not_lt.mpr hlow)
        · exact absurd hhigh (UInt8.not_lt.mpr hb)
      have hc : ∀ b' r, Encoded c b' r → b' ≠ b := fun b' r h => by
        rw [← henc.first_eq h]
        exact heq
      rw [if_neg (by simpa using heq), List.findIdx?_append, hfollow, Option.none_or]
      rcases ih with ⟨hnone, hall⟩ | ⟨skip, r, rfl, hfind, hall⟩
      · refine .inl ⟨by rw [hnone]; rfl, fun z hz => ?_⟩
        rcases List.mem_cons.mp hz with rfl | hz
        · exact hc
        · exact hall z hz
      · refine .inr ⟨c :: skip, r, rfl, ?_, fun z hz => ?_⟩
        · rw [hfind, utf8_cons, henc.bytes]
          simp only [Option.map_some, List.length_append, List.length_cons, Option.some.injEq]
          omega
        · rcases List.mem_cons.mp hz with rfl | hz
          · exact hc
          · exact hall z hz

end Bytes

/-! ## 4. Places -/

/-- A place in bytes, and the characters from there on. -/
def Stands (bytes : List UInt8) (n : Nat) (cs : List Char) : Prop :=
  ∃ front, bytes = front ++ utf8 cs ∧ front.length = n

section Stands

variable {bytes : List UInt8} {n : Nat} {cs a : List Char} {c : Char} {b : UInt8}
  {rest : List UInt8}

theorem Stands.start : Stands (utf8 cs) 0 cs := ⟨[], rfl, rfl⟩

theorem Stands.drop (h : Stands bytes n cs) : bytes.drop n = utf8 cs := by
  obtain ⟨front, rfl, rfl⟩ := h
  rw [List.drop_left]

theorem Stands.end (h : Stands bytes n []) : bytes[n]? = none ∧ n = bytes.length := by
  obtain ⟨front, rfl, rfl⟩ := h
  rw [utf8_nil, List.append_nil]
  exact ⟨List.getElem?_eq_none (Nat.le_refl _), rfl⟩

theorem Stands.skip (h : Stands bytes n (a ++ cs)) : Stands bytes (n + (utf8 a).length) cs := by
  obtain ⟨front, rfl, rfl⟩ := h
  exact ⟨front ++ utf8 a, by rw [utf8_append, List.append_assoc], List.length_append⟩

theorem Stands.cons (h : Stands bytes n (c :: cs)) (henc : Encoded c b rest) :
    bytes[n]? = some b ∧ n + charLen b ≤ bytes.length ∧ 0 < charLen b ∧
      Stands bytes (n + charLen b) cs := by
  have hlen : (utf8 [c]).length = charLen b := by
    rw [henc.length, utf8_cons, henc.bytes, utf8_nil, List.append_nil]
    rfl
  have hnext : Stands bytes (n + charLen b) cs := by
    rw [← hlen]
    exact Stands.skip (a := [c]) h
  refine ⟨?_, ?_, by rw [henc.length]; omega, hnext⟩
  · obtain ⟨front, rfl, rfl⟩ := h
    rw [List.getElem?_append_right (Nat.le_refl _), Nat.sub_self, utf8_cons, henc.bytes]
    rfl
  · obtain ⟨front, rfl, hfront⟩ := hnext
    rw [List.length_append, hfront]
    omega

theorem Stands.le (h : Stands bytes n cs) : n ≤ bytes.length := by
  obtain ⟨front, rfl, rfl⟩ := h
  rw [List.length_append]
  omega

end Stands

/-! ## 5. What stands in the pattern -/

/-- A place in a pattern, and the tokens from there on. -/
def PatternAt (e : Option Char) (p : List UInt8) (j : Nat) (t : List Token) : Prop :=
  ∃ ps, Stands p j ps ∧ tokens e ps = some t

/-- Whether an escape starts at a place. -/
abbrev lit (e : Option Char) (p : List UInt8) (j : Nat) : Bool :=
  escapes (utf8 e.toList) (p.drop j)

/-- Where the character of a token starts. -/
abbrev past (e : Option Char) (p : List UInt8) (j : Nat) : Nat :=
  j + if lit e p j = true then (utf8 e.toList).length else 0

/-- **What the matcher finds where a token is left**: a wildcard's byte that is not escaped, or the
first byte of the character that is to stand in the text. -/
inductive Found (e : Option Char) (p : List UInt8) (j : Nat) : Token → List Token → Prop
  | any {t : List Token} : p[j]? = some 37 → lit e p j = false → PatternAt e p (j + 1) t →
      Found e p j .any t
  | one {t : List Token} : p[j]? = some 95 → lit e p j = false → PatternAt e p (j + 1) t →
      Found e p j .one t
  | char {t : List Token} {x : Char} {c b : UInt8} {rest : List UInt8} :
      p[j]? = some c → (lit e p j = true ∨ lit e p j = false ∧ c = b ∧ c ≠ 37 ∧ c ≠ 95) →
      Encoded x b rest → p[past e p j]? = some b →
      (p.drop (past e p j)).take (charLen b) = utf8 [x] →
      past e p j + charLen b ≤ p.length → 0 < charLen b →
      PatternAt e p (past e p j + charLen b) t → Found e p j (.char x) t

section Pattern

variable {e : Option Char} {p : List UInt8} {j : Nat} {t : List Token} {x : Char}

theorem tokens_cons (h : some x ≠ e) (rest : List Char) :
    tokens e (x :: rest) = (tokens e rest).map (.of x :: ·) := by
  rw [tokens.eq_def]
  exact if_neg h

theorem tokens_escape (c : Char) (rest : List Char) :
    tokens (some c) (c :: x :: rest) = (tokens (some c) rest).map (.char x :: ·) := by
  rw [tokens.eq_def]
  exact if_pos rfl

theorem Token.of_other {c : Char} (h : c ≠ '%') (h' : c ≠ '_') : Token.of c = .char c := by
  unfold Token.of
  rw [if_neg h, if_neg h']

/-- Either nothing is left, or an escape and a character, or a character for itself. -/
theorem tokens_cases {ps : List Char} (h : tokens e ps = some t) :
    (ps = [] ∧ t = []) ∨
    (∃ c x rest u, e = some c ∧ ps = c :: x :: rest ∧ t = .char x :: u ∧
      tokens e rest = some u) ∨
    (∃ c rest u, some c ≠ e ∧ ps = c :: rest ∧ t = .of c :: u ∧ tokens e rest = some u) := by
  cases ps with
  | nil =>
    obtain rfl := Option.some.inj h
    exact .inl ⟨rfl, rfl⟩
  | cons c rest =>
    by_cases he : some c = e
    · subst he
      cases rest with
      | nil =>
        rw [tokens.eq_def] at h
        simp at h
      | cons x rest =>
        rw [tokens_escape] at h
        obtain ⟨u, hu, rfl⟩ := Option.map_eq_some_iff.mp h
        exact .inr (.inl ⟨c, x, rest, u, rfl, rfl, rfl, hu⟩)
    · rw [tokens_cons he] at h
      obtain ⟨u, hu, rfl⟩ := Option.map_eq_some_iff.mp h
      exact .inr (.inr ⟨c, rest, u, he, rfl, rfl, hu⟩)

theorem Stands.take {bytes : List UInt8} {n : Nat} {cs : List Char} {b : UInt8}
    {rest : List UInt8} (h : Stands bytes n (x :: cs)) (henc : Encoded x b rest) :
    (bytes.drop n).take (charLen b) = utf8 [x] := by
  have hlen : (utf8 [x]).length = charLen b := by
    rw [henc.length, utf8_cons, henc.bytes, utf8_nil, List.append_nil]
    rfl
  rw [h.drop, ← List.singleton_append, utf8_append, ← hlen, List.take_left]

/-- Nothing is left only at the end. -/
theorem PatternAt.end (h : PatternAt e p j []) : p[j]? = none ∧ j = p.length := by
  obtain ⟨ps, hps, ht⟩ := h
  rcases tokens_cases ht with ⟨rfl, -⟩ | ⟨c, x, rest, u, -, -, ht, -⟩ | ⟨c, rest, u, -, -, ht, -⟩
  · exact hps.end
  · cases ht
  · cases ht

theorem PatternAt.nil_of_end (h : PatternAt e p j t) (hj : j = p.length) : t = [] := by
  obtain ⟨ps, hps, ht⟩ := h
  have hdrop := hps.drop
  rw [hj, List.drop_length] at hdrop
  obtain rfl := utf8_eq_nil.mp hdrop.symm
  exact (Option.some.inj ht).symm

theorem PatternAt.le (h : PatternAt e p j t) : j ≤ p.length := by
  obtain ⟨ps, hps, -⟩ := h
  exact hps.le

/-- **A token that is left is found where the matcher looks for it.** -/
theorem PatternAt.found {a : Token} (h : PatternAt e p j (a :: t)) : Found e p j a t := by
  obtain ⟨ps, hps, ht⟩ := h
  rcases tokens_cases ht with ⟨-, ht⟩ | ⟨c, x, rest, u, rfl, rfl, ht, hu⟩ |
    ⟨c, rest, u, hc, rfl, ht, hu⟩
  · cases ht
  · -- an escape, and the character after it
    obtain ⟨rfl, rfl⟩ := List.cons.inj ht
    obtain ⟨b₀, r₀, henc₀⟩ := encoded c
    obtain ⟨b, r, henc⟩ := encoded x
    have hlit : lit (some c) p j = true := by
      unfold lit
      rw [hps.drop, escapes_cons]
    have hpast : past (some c) p j = j + (utf8 [c]).length := by
      unfold past
      rw [if_pos hlit]
      rfl
    have hx : Stands p (past (some c) p j) (x :: rest) := by
      rw [hpast]
      exact Stands.skip (a := [c]) hps
    obtain ⟨hb, hle, hpos, hnext⟩ := hx.cons henc
    exact .char (hps.cons henc₀).1 (.inl hlit) henc hb (hx.take henc) hle hpos ⟨rest, hnext, hu⟩
  · obtain ⟨rfl, rfl⟩ := List.cons.inj ht
    obtain ⟨b, r, henc⟩ := encoded c
    have hlit : lit e p j = false := by
      unfold lit
      rw [hps.drop, ← Bool.not_eq_true, escapes_cons]
      exact hc
    have hpast : past e p j = j := by
      unfold past
      rw [hlit]
      rfl
    obtain ⟨hb, hle, hpos, hnext⟩ := hps.cons henc
    by_cases hany : c = '%'
    · subst hany
      obtain rfl := henc.percent.mpr rfl
      exact .any hb hlit ⟨rest, hnext, hu⟩
    · by_cases hone : c = '_'
      · subst hone
        obtain rfl := henc.underscore.mpr rfl
        exact .one hb hlit ⟨rest, hnext, hu⟩
      · rw [Token.of_other hany hone]
        have hwild : b ≠ 37 ∧ b ≠ 95 :=
          ⟨fun h => hany (henc.percent.mp h), fun h => hone (henc.underscore.mp h)⟩
        refine .char hb (.inr ⟨hlit, rfl, hwild⟩) henc ?_ ?_ ?_ hpos ⟨rest, ?_, hu⟩
        · rw [hpast]
          exact hb
        · rw [hpast]
          exact hps.take henc
        · rw [hpast]
          exact hle
        · rw [hpast]
          exact hnext

end Pattern

/-! ## 6. What a round keeps -/

/-- Where the matcher would go back to: the tokens after the last `%`, and the text these were last
tried on. -/
abbrev Way := Option (List Token × List Char)

/-- The last `%` takes a character more than it did. -/
def Again : Way → Prop
  | none => False
  | some (u, tried) => ∃ y r, tried = y :: r ∧ Matches (.any :: u) r

/-- **What the matcher is still to find out.** -/
def Succeeds (t : List Token) (s : List Char) (w : Way) : Prop := Matches t s ∨ Again w

/-- The place to go back to: since then, tokens other than `%` have taken a character each. -/
inductive WayAt (e : Option Char) (h p : List UInt8) (j : Nat) (t : List Token) (s : List Char) :
    Option (Nat × Nat) → Way → Prop
  | none : WayAt e h p j t s none none
  | some {bj bi : Nat} {u front : List Token} {tried used : List Char} :
      PatternAt e p bj u → u ≠ [] → Stands h bi tried → bj ≤ j → u = front ++ t →
      .any ∉ front → tried = used ++ s → used.length = front.length →
      WayAt e h p j t s (some (bj, bi)) (some (u, tried))

/-- What is left of the pattern after the last `%`, then of the text after the place it was tried
on, then of the pattern. -/
def left (h p : List UInt8) (j : Nat) (back : Option (Nat × Nat)) : Nat :=
  ((p.length + 1 - (back.getD (0, 0)).1) * (h.length + 2) +
    (h.length + 1 - (back.getD (0, 0)).2)) * (p.length + 2) + (p.length + 1 - j)

/-- **What a round does**: it answers, or goes on with less left. -/
inductive Keeps (e : Option Char) (h p : List UInt8) (j : Nat) (back : Option (Nat × Nat))
    (t : List Token) (s : List Char) (w : Way) : Round → Prop
  | done {b : Bool} : (b = true ↔ Succeeds t s w) → Keeps e h p j back t s w (.done b)
  | go {i' j' : Nat} {back' : Option (Nat × Nat)} {t' : List Token} {s' : List Char} {w' : Way} :
      Stands h i' s' → PatternAt e p j' t' → WayAt e h p j' t' s' back' w' →
      (Succeeds t' s' w' ↔ Succeeds t s w) → left h p j' back' < left h p j back →
      Keeps e h p j back t s w (.go i' j' back')

section Keeps

variable {e : Option Char} {h p : List UInt8} {i j j' : Nat} {back : Option (Nat × Nat)}
  {t u : List Token} {s : List Char} {w : Way} {x y : Char} {a : Token}

theorem matches_any_step :
    Matches (.any :: t) s ↔ Matches t s ∨ ∃ y r, s = y :: r ∧ Matches (.any :: t) r := by
  rw [matches_any_iff]
  constructor
  · rintro ⟨taken, r, rfl, hr⟩
    cases taken with
    | nil => exact .inl hr
    | cons y taken => exact .inr ⟨y, taken ++ r, rfl, .any taken hr⟩
  · rintro (hs | ⟨y, r, rfl, hr⟩)
    · exact ⟨[], s, rfl, hs⟩
    · obtain ⟨taken, rest, rfl, hrest⟩ := matches_any_iff.mp hr
      exact ⟨y :: taken, rest, rfl, hrest⟩

/-- A `%` before a character resumes where that character is. -/
theorem matches_skip {skip : List Char} (hskip : ∀ z ∈ skip, x ≠ z) :
    Matches (.any :: .char x :: t) (skip ++ s) ↔ Matches (.any :: .char x :: t) s := by
  induction skip with
  | nil => exact Iff.rfl
  | cons z skip ih =>
    have hz : x ≠ z := hskip z List.mem_cons_self
    rw [List.cons_append, matches_any_step, matches_char_iff]
    constructor
    · rintro (⟨heq, -⟩ | ⟨y, r, heq, hr⟩)
      · exact absurd heq hz
      · obtain ⟨rfl, rfl⟩ := List.cons.inj heq
        exact (ih fun z' hz' => hskip z' (List.mem_cons_of_mem _ hz')).mp hr
    · intro hs
      exact .inr ⟨z, skip ++ s, rfl,
        (ih fun z' hz' => hskip z' (List.mem_cons_of_mem _ hz')).mpr hs⟩

theorem not_matches_absent (hs : ∀ z ∈ s, x ≠ z) : ¬ Matches (.any :: .char x :: t) s := by
  intro hm
  rw [← List.append_nil s, matches_skip hs, matches_any_step] at hm
  rcases hm with hm | ⟨y, r, hnil, -⟩
  · cases hm
  · cases hnil

/-- A `%` takes over from the one before. -/
theorem succeeds_any (hw : WayAt e h p j (.any :: t) s back w) :
    Succeeds t s (some (t, s)) ↔ Succeeds (.any :: t) s w := by
  have hnow : Succeeds t s (some (t, s)) ↔ Matches (.any :: t) s := matches_any_step.symm
  rw [hnow]
  constructor
  · exact .inl
  · rintro (hm | hagain)
    · exact hm
    · cases hw with
      | none => exact absurd hagain id
      | some _ _ _ _ hu hfront htried hused =>
        obtain ⟨y, r, hcut, hm⟩ := hagain
        obtain ⟨taken, r, rfl, hr⟩ := matches_any_iff.mp hm
        rw [hu] at hr
        have hgap : _ = (y :: taken) ++ r := htried.symm.trans hcut
        exact Matches.absorb hfront hused hgap hr

theorem succeeds_retry (hno : ¬ Matches t s) : Succeeds t s w ↔ Again w := or_iff_right hno

theorem succeeds_again {tried : List Char} :
    Succeeds u tried (some (u, tried)) ↔ Matches (.any :: u) tried := matches_any_step.symm

/-- A token that is no `%` and a character have been matched. -/
theorem WayAt.step (hw : WayAt e h p j (a :: t) (y :: s) back w) (ha : a ≠ .any) (hj : j ≤ j') :
    WayAt e h p j' t s back w := by
  cases hw with
  | none => exact .none
  | @some bj bi u front tried used hu hne htried hbj hfront hany hused hlen =>
    have hfront' : u = (front ++ [a]) ++ t := by
      rw [hfront, List.append_assoc]
      rfl
    have hany' : .any ∉ front ++ [a] := by
      intro hmem
      rcases List.mem_append.mp hmem with hmem | hmem
      · exact hany hmem
      · exact ha (List.mem_singleton.mp hmem).symm
    have hused' : tried = (used ++ [y]) ++ s := by
      rw [hused, List.append_assoc]
      rfl
    have hlen' : (used ++ [y]).length = (front ++ [a]).length := by
      rw [List.length_append, List.length_append, hlen]
      rfl
    exact .some hu hne htried (by omega) hfront' hany' hused' hlen'

theorem mul_add_lt {x y z w m : Nat} (hxy : x < y) (hz : z < m) : x * m + z < y * m + w := by
  have hle : (x + 1) * m ≤ y * m := Nat.mul_le_mul_right m hxy
  rw [Nat.add_mul, Nat.one_mul] at hle
  omega

/-- A `%` further on leaves less. -/
theorem left_any (hbj : (back.getD (0, 0)).1 ≤ j) (hj : j < p.length) :
    left h p (j + 1) (some (j + 1, i)) < left h p j back := by
  unfold left
  rw [Option.getD_some]
  refine mul_add_lt (mul_add_lt ?_ ?_) ?_
  · dsimp only
    omega
  · dsimp only
    omega
  · omega

/-- So does a `%` that has taken more of the text. -/
theorem left_retry {bj bi bi' k : Nat} (hbi : bi < bi') (hle : bi < h.length) :
    left h p k (some (bj, bi')) < left h p j (some (bj, bi)) := by
  unfold left
  rw [Option.getD_some, Option.getD_some]
  have hinner : (p.length + 1 - bj) * (h.length + 2) + (h.length + 1 - bi') <
      (p.length + 1 - bj) * (h.length + 2) + (h.length + 1 - bi) := by omega
  exact mul_add_lt hinner (by omega)

theorem left_step (hj : j < j') (hle : j ≤ p.length) : left h p j' back < left h p j back := by
  unfold left
  omega

/-- **The way back**: the last `%` takes a character more, or there is no way. -/
theorem retry_spec (hw : WayAt e h p j t s back w) (hno : ¬ Matches t s) :
    ∃ r, retry h p (utf8 e.toList) back = some r ∧ Keeps e h p j back t s w r := by
  have hagain : Succeeds t s w ↔ Again w := succeeds_retry hno
  cases hw with
  | none =>
    refine ⟨.done false, rfl, .done ?_⟩
    rw [hagain]
    exact ⟨fun h => (by cases h), fun h => absurd h id⟩
  | @some bj bi u front tried used hu hne htried hbj hfront hany hused hlen =>
    cases tried with
    | nil =>
      have hend : ¬ bi < h.length := by rw [htried.end.2]; omega
      refine ⟨.done false, ?_, .done ?_⟩
      · unfold retry
        dsimp only
        rw [if_neg hend]
      · rw [hagain]
        exact ⟨fun h => (by cases h), fun ⟨y, r, hcut, _⟩ => (by cases hcut)⟩
    | cons y r =>
      obtain ⟨b, rest, henc⟩ := encoded y
      obtain ⟨hb, hle, hpos, hnext⟩ := htried.cons henc
      have hlt : bi < h.length := by omega
      -- what is left to find out is whether the last `%` matches from the next character on
      have hrest : Succeeds t s (some (u, y :: r)) ↔ Matches (.any :: u) r := by
        rw [hagain]
        exact ⟨fun ⟨y', r', hcut, hm⟩ => by
          obtain ⟨rfl, rfl⟩ := List.cons.inj hcut
          exact hm, fun hm => ⟨y, r, rfl, hm⟩⟩
      have hgo : ∀ {i' : Nat} {s' : List Char}, bi < i' → Stands h i' s' →
          (Matches (.any :: u) s' ↔ Matches (.any :: u) r) →
          Keeps e h p j (some (bj, bi)) t s (some (u, y :: r)) (.go i' bj (some (bj, i'))) :=
        fun hi hs' hiff => .go hs' hu
          (.some hu hne hs' (Nat.le_refl _) (List.nil_append _).symm List.not_mem_nil
            (List.nil_append _).symm rfl)
          (by rw [succeeds_again, hrest, hiff]) (left_retry hi hlt)
      have hwild : ∀ c, p[bj]? = some c → lit e p bj = false → c = 37 ∨ c = 95 →
          retry h p (utf8 e.toList) (some (bj, bi)) =
            some (.go (bi + charLen b) bj (some (bj, bi + charLen b))) := by
        intro c hc hlit hwild
        change escapes (utf8 e.toList) (p.drop bj) = false at hlit
        unfold retry
        dsimp only
        rw [if_pos hlt, hb, hlit]
        simp only [Option.bind_eq_bind, Option.bind_some, Bool.false_or, Bool.false_eq_true,
          if_false, Nat.add_zero, hc]
        rcases hwild with rfl | rfl
        · rfl
        · rfl
      cases u with
      | nil => exact absurd rfl hne
      | cons a u =>
        cases hu.found with
        | any hc hlit _ =>
          exact ⟨_, hwild _ hc hlit (.inl rfl), hgo (by omega) hnext Iff.rfl⟩
        | one hc hlit _ =>
          exact ⟨_, hwild _ hc hlit (.inr rfl), hgo (by omega) hnext Iff.rfl⟩
        | @char _ x c b' rest' hc hself hx hb' htake hple hxpos hread =>
          have hplain : (lit e p bj || b' != 37 && b' != 95) = true := by
            rcases hself with hlit | ⟨hlit, rfl, h37, h95⟩
            · rw [hlit]
              rfl
            · rw [hlit]
              simp [h37, h95]
          have hdiff : ∀ {l : List Char},
              (∀ z ∈ l, ∀ b₁ r₁, Encoded z b₁ r₁ → b₁ ≠ b') → ∀ z ∈ l, x ≠ z := by
            rintro l hl z hz rfl
            exact hl x hz b' rest' hx rfl
          have hretry : retry h p (utf8 e.toList) (some (bj, bi)) =
              match (h.drop (bi + charLen b)).findIdx? (· == b') with
              | some k => some (.go (bi + charLen b + k) bj (some (bj, bi + charLen b + k)))
              | none => some (.done false) := by
            unfold retry
            dsimp only
            rw [if_pos hlt, hb]
            simp only [Option.bind_eq_bind, Option.bind_some, hb', hplain, if_true]
            rw [if_neg (by omega)]
          rw [hretry, hnext.drop]
          rcases find_first hx.first r with ⟨hfind, hall⟩ | ⟨skip, r', rfl, hfind, hall⟩
          · rw [hfind]
            refine ⟨_, rfl, .done ?_⟩
            rw [hrest]
            exact ⟨fun h => (by cases h), fun hm => absurd hm (not_matches_absent (hdiff hall))⟩
          · rw [hfind]
            exact ⟨_, rfl, hgo (by omega) hnext.skip (matches_skip (hdiff hall)).symm⟩

/-- **A round answers, or goes on from a place that is as good and has less left.** -/
theorem round_spec (hs : Stands h i s) (ht : PatternAt e p j t) (hw : WayAt e h p j t s back w) :
    ∃ r, round h p (utf8 e.toList) i j back = some r ∧ Keeps e h p j back t s w r := by
  have hbj : (back.getD (0, 0)).1 ≤ j := by
    cases hw with
    | none => exact Nat.zero_le j
    | some _ _ _ hle => exact hle
  cases t with
  | nil =>
    obtain ⟨hc, hj⟩ := ht.end
    unfold round
    rw [hc]
    dsimp only
    by_cases hi : i = h.length
    · rw [if_pos hi]
      obtain rfl : s = [] := by
        have hdrop := hs.drop
        rw [hi, List.drop_length] at hdrop
        exact utf8_eq_nil.mp hdrop.symm
      exact ⟨_, rfl, .done ⟨fun _ => .inl .nil, fun _ => rfl⟩⟩
    · rw [if_neg hi]
      refine retry_spec hw fun hm => hi ?_
      obtain rfl := matches_nil_iff.mp hm
      exact hs.end.2
  | cons a t =>
    have hj : j ≤ p.length := ht.le
    cases ht.found with
    | any hc hlit hnext =>
      change escapes (utf8 e.toList) (p.drop j) = false at hlit
      have hlt : j < p.length := (List.getElem?_eq_some_iff.mp hc).1
      unfold round
      rw [hc, hlit]
      dsimp only
      rw [if_pos (by rfl)]
      by_cases hlast : j + 1 = p.length
      · rw [if_pos hlast]
        obtain rfl := hnext.nil_of_end hlast
        refine ⟨_, rfl, .done ⟨fun _ => .inl ?_, fun _ => rfl⟩⟩
        exact matches_any_iff.mpr ⟨s, [], (List.append_nil s).symm, .nil⟩
      · rw [if_neg hlast]
        have hne : t ≠ [] := by
          rintro rfl
          exact hlast hnext.end.2
        exact ⟨_, rfl, .go hs hnext
          (.some hnext hne hs (Nat.le_refl _) (List.nil_append _).symm List.not_mem_nil
            (List.nil_append _).symm rfl)
          (succeeds_any hw) (left_any hbj hlt)⟩
    | one hc hlit hnext =>
      change escapes (utf8 e.toList) (p.drop j) = false at hlit
      unfold round
      rw [hc, hlit]
      dsimp only
      rw [if_neg (by decide)]
      cases s with
      | nil =>
        rw [hs.end.1]
        exact retry_spec hw (not_matches_nil (by simp) (by simp))
      | cons y s =>
        obtain ⟨b, rest, henc⟩ := encoded y
        obtain ⟨hb, -, -, hi⟩ := hs.cons henc
        rw [hb]
        dsimp only
        rw [if_pos (by rfl)]
        refine ⟨_, rfl, .go hi hnext (hw.step (by simp) (by omega)) ?_ (left_step (by omega) hj)⟩
        unfold Succeeds
        rw [matches_one_iff]
    | @char _ x c b' rest' hc hself hx hb' htake hple hpos hread =>
      have hpast : j ≤ past e p j := by
        unfold past
        omega
      have hnotany : (!lit e p j && c == 37) = false := by
        rcases hself with hlit | ⟨hlit, -, h37, -⟩
        · rw [hlit]
          rfl
        · rw [hlit]
          simp [h37]
      have hnotone : (!lit e p j && c == 95) = false := by
        rcases hself with hlit | ⟨hlit, -, -, h95⟩
        · rw [hlit]
          rfl
        · rw [hlit]
          simp [h95]
      unfold round
      rw [hc]
      dsimp only
      rw [if_neg (by rw [hnotany]; decide)]
      cases s with
      | nil =>
        rw [hs.end.1]
        exact retry_spec hw (not_matches_nil (by simp) (by simp))
      | cons y s =>
        obtain ⟨b, rest, henc⟩ := encoded y
        obtain ⟨hb, -, -, hi⟩ := hs.cons henc
        rw [hb]
        dsimp only
        rw [if_neg (by rw [hnotone]; decide), hb', Option.bind_eq_bind, Option.bind_some,
          if_neg (Nat.not_lt.mpr hple), htake, hs.drop]
        by_cases hxy : x = y
        · subst hxy
          rw [if_pos (by rw [List.isPrefixOf_iff_prefix]; exact ⟨utf8 s, by rw [← utf8_append]; rfl⟩)]
          rw [← henc.first_eq hx] at hread hpos ⊢
          refine ⟨_, rfl, .go hi hread (hw.step (by simp) (by omega)) ?_
            (left_step (by omega) hj)⟩
          unfold Succeeds
          rw [matches_char_iff, and_iff_right rfl]
        · rw [if_neg fun hpre => hxy ?_]
          · refine retry_spec hw fun hm => hxy ?_
            exact (matches_char_iff.mp hm).1
          · have hx := prefix_of_utf8 (List.isPrefixOf_iff_prefix.mp hpre)
            rw [List.cons_prefix_cons] at hx
            exact hx.1

/-- **The matcher ends**, and answers whether the tokens match. -/
theorem ends_of_at (hs : Stands h i s) (ht : PatternAt e p j t) (hw : WayAt e h p j t s back w) :
    ∃ n b, n ≤ left h p j back + 1 ∧ Ends h p (utf8 e.toList) n i j back b ∧
      (b = true ↔ Succeeds t s w) := by
  -- by what is left
  induction hleft : left h p j back using Nat.strong_induction_on
    generalizing i j t s back w with
  | _ m ih =>
    subst hleft
    obtain ⟨r, hr, hkeeps⟩ := round_spec hs ht hw
    cases hkeeps with
    | done hb => exact ⟨1, _, by omega, .done hr, hb⟩
    | go hs' ht' hw' hiff hlt =>
      obtain ⟨n, b, hn, hends, hb⟩ := ih _ hlt hs' ht' hw' rfl
      exact ⟨n + 1, b, by omega, .go hr hends, hb.trans hiff⟩

end Keeps

/-! ## 7. Patterns that end in their escape -/

section Dangling

variable {e : Option Char} {ps : List Char} {x : UInt8} {l : List UInt8} {fuel : Nat}

/-- **A pattern is refused where it ends in an escape** that is not escaped itself. -/
theorem tokens_eq_none :
    tokens e ps = none ↔ ∃ front c, some c = e ∧ ps = front ++ [c] ∧ (tokens e front).isSome := by
  constructor
  · intro h
    induction ps using tokens.induct e with
    | case1 => cases h
    | case2 c he => exact ⟨[], c, he, rfl, rfl⟩
    | case3 c he x rest ih =>
      subst he
      rw [tokens_escape, Option.map_eq_none_iff] at h
      obtain ⟨front, c', hc', rfl, hfront⟩ := ih h
      refine ⟨c :: x :: front, c', hc', rfl, ?_⟩
      rw [tokens_escape, Option.isSome_map]
      exact hfront
    | case4 c rest he ih =>
      rw [tokens_cons he, Option.map_eq_none_iff] at h
      obtain ⟨front, c', hc', rfl, hfront⟩ := ih h
      refine ⟨c :: front, c', hc', rfl, ?_⟩
      rw [tokens_cons he, Option.isSome_map]
      exact hfront
  · rintro ⟨front, c, hc, rfl, hfront⟩
    induction front using tokens.induct e with
    | case1 =>
      rw [List.nil_append, tokens.eq_def]
      exact if_pos hc
    | case2 c' he =>
      rw [tokens.eq_def] at hfront
      simp [he] at hfront
    | case3 c' he x rest ih =>
      subst he
      rw [tokens_escape, Option.isSome_map] at hfront
      rw [List.cons_append, List.cons_append, tokens_escape, ih hfront]
      rfl
    | case4 c' rest he ih =>
      rw [tokens_cons he, Option.isSome_map] at hfront
      rw [List.cons_append, tokens_cons he, ih hfront]
      rfl

/-- No escape starts inside a character. -/
theorem escapes_follow (hx : 0x80 ≤ x ∧ x < 0xC0) :
    escapes (utf8 e.toList) (x :: l) = false := by
  cases e with
  | none => rfl
  | some c =>
    obtain ⟨b, rest, henc⟩ := encoded c
    have hbytes : utf8 (some c).toList = b :: rest := by
      rw [Option.toList_some, utf8_cons, henc.bytes, utf8_nil, List.append_nil]
    have hne : (b == x) = false := by
      rw [beq_eq_false_iff_ne]
      rintro rfl
      rcases henc.first with hb | hb
      · exact absurd hb (UInt8.not_lt.mpr hx.1)
      · exact absurd hx.2 (UInt8.not_lt.mpr hb)
    rw [hbytes, escapes, List.isPrefixOf_cons_cons, hne]
    simp

theorem dangling_plain (h : escapes (utf8 e.toList) (x :: l) = false) :
    dangling (utf8 e.toList) (fuel + 1) (x :: l) = dangling (utf8 e.toList) fuel l := by
  rw [dangling.eq_def]
  dsimp only
  rw [if_neg (by rw [h]; decide)]
  rfl

theorem dangling_lone (h : escapes (utf8 e.toList) (x :: l) = true)
    (hrest : (x :: l).drop (utf8 e.toList).length = []) :
    dangling (utf8 e.toList) (fuel + 1) (x :: l) = true := by
  rw [dangling.eq_def]
  dsimp only
  rw [if_pos h, hrest]

theorem dangling_escape {y : UInt8} {r : List UInt8}
    (h : escapes (utf8 e.toList) (x :: l) = true)
    (hrest : (x :: l).drop (utf8 e.toList).length = y :: r) :
    dangling (utf8 e.toList) (fuel + 1) (x :: l) = dangling (utf8 e.toList) fuel r := by
  rw [dangling.eq_def]
  dsimp only
  rw [if_pos h, hrest]

theorem dangling_follow {rest : List UInt8} (hrest : ∀ x ∈ rest, 0x80 ≤ x ∧ x < 0xC0)
    (hfuel : rest.length ≤ fuel) : dangling (utf8 e.toList) fuel (rest ++ l) =
      dangling (utf8 e.toList) (fuel - rest.length) l := by
  induction rest generalizing fuel with
  | nil => rfl
  | cons x rest ih =>
    rw [List.length_cons] at hfuel
    obtain ⟨m, rfl⟩ : ∃ m, fuel = m + 1 := ⟨fuel - 1, by omega⟩
    rw [List.cons_append, dangling_plain (escapes_follow (hrest x List.mem_cons_self)),
      List.length_cons, Nat.add_sub_add_right]
    exact ih (fun z hz => hrest z (List.mem_cons_of_mem _ hz)) (by omega)

/-- **The pass before the loop** refuses what has no tokens. -/
theorem dangling_eq (hfuel : (utf8 ps).length < fuel) :
    dangling (utf8 e.toList) fuel (utf8 ps) = (tokens e ps).isNone := by
  induction ps using tokens.induct e generalizing fuel with
  | case1 =>
    obtain ⟨m, rfl⟩ : ∃ m, fuel = m + 1 := ⟨fuel - 1, by omega⟩
    rfl
  | case2 c he =>
    obtain ⟨m, rfl⟩ : ∃ m, fuel = m + 1 := ⟨fuel - 1, by omega⟩
    obtain ⟨b, r, henc⟩ := encoded c
    have hbytes : utf8 [c] = b :: r := by rw [utf8_cons, henc.bytes, utf8_nil, List.append_nil]
    have hesc : escapes (utf8 e.toList) (b :: r) = true := by
      rw [← hbytes]
      exact escapes_cons.mpr he
    have hnone : tokens e [c] = none := tokens_eq_none.mpr ⟨[], c, he, rfl, rfl⟩
    rw [hbytes, hnone, dangling_lone hesc]
    · rfl
    · rw [← he, Option.toList_some, hbytes, List.drop_length]
  | case3 c he x rest ih =>
    subst he
    obtain ⟨m, rfl⟩ : ∃ m, fuel = m + 1 := ⟨fuel - 1, by omega⟩
    obtain ⟨b, r, henc⟩ := encoded c
    obtain ⟨b', r', henc'⟩ := encoded x
    have hx : utf8 (x :: rest) = b' :: (r' ++ utf8 rest) := by
      rw [utf8_cons, henc'.bytes]
      rfl
    have hbytes : utf8 (c :: x :: rest) = b :: (r ++ utf8 (x :: rest)) := by
      rw [utf8_cons, henc.bytes]
      rfl
    have hesc : escapes (utf8 (some c).toList) (b :: (r ++ utf8 (x :: rest))) = true := by
      rw [← hbytes]
      exact escapes_cons.mpr rfl
    have hdrop : (b :: (r ++ utf8 (x :: rest))).drop (utf8 (some c).toList).length =
        b' :: (r' ++ utf8 rest) := by
      rw [← hbytes, ← List.singleton_append, utf8_append, Option.toList_some, List.drop_left, hx]
    rw [hbytes, hx, List.length_cons, List.length_append, List.length_cons,
      List.length_append] at hfuel
    rw [hbytes, dangling_escape hesc hdrop, dangling_follow henc'.follow (by omega),
      ih (by omega), tokens_escape, Option.isNone_map]
  | case4 c rest he ih =>
    obtain ⟨m, rfl⟩ : ∃ m, fuel = m + 1 := ⟨fuel - 1, by omega⟩
    obtain ⟨b, r, henc⟩ := encoded c
    have hbytes : utf8 (c :: rest) = b :: (r ++ utf8 rest) := by
      rw [utf8_cons, henc.bytes]
      rfl
    have hesc : escapes (utf8 e.toList) (b :: (r ++ utf8 rest)) = false := by
      rw [← hbytes, ← Bool.not_eq_true, escapes_cons]
      exact he
    rw [hbytes, List.length_cons, List.length_append] at hfuel
    rw [hbytes, dangling_plain hesc, dangling_follow henc.follow (by omega), ih (by omega),
      tokens_cons he, Option.isNone_map]

end Dangling

/-! ## 8. `like` -/

/-- **The bytes' matcher is the relation.** -/
theorem likePattern_spec (s ps : List Char) (e : Option Char) :
    (tokens e ps = none → likePattern (utf8 s) (utf8 ps) (utf8 e.toList) = none) ∧
    ∀ t, tokens e ps = some t → ∃ n b,
      Ends (utf8 s) (utf8 ps) (utf8 e.toList) n 0 0 none b ∧
      likePattern (utf8 s) (utf8 ps) (utf8 e.toList) = some b ∧ (b = true ↔ Matches t s) := by
  have hpass := dangling_eq (e := e) (Nat.lt_succ_self (utf8 ps).length)
  unfold likePattern
  rw [hpass]
  constructor
  · intro hnone
    rw [hnone]
    rfl
  · intro t ht
    rw [ht]
    obtain ⟨n, b, hn, hends, hb⟩ := ends_of_at (e := e) .start ⟨ps, .start, ht⟩ .none
    refine ⟨n, b, hends, ?_, hb.trans (or_iff_left id)⟩
    have hfuel : left (utf8 s) (utf8 ps) 0 none + 1 =
        ((utf8 ps).length + 2) * ((utf8 s).length + 2) * ((utf8 ps).length + 2) := by
      simp only [left, Option.getD_none, Nat.sub_zero]
      ring
    rw [if_neg (by simp), likeLoop_of_ends hends (hn.trans hfuel.le)]

/-- **`like` is SQL's `like`.**  Over any characters, the matcher ends on every pattern that is not
refused, and says whether the pattern's tokens match the text; refused are the patterns that end in
a lone escape.  The function itself does this with the text and the pattern under the fold, where
there is one, and refuses an escape that is not one character, or one with a case that the fold
takes away. -/
theorem like_is_relation (B : Build) (fold : Option CaseFold) :
    (∀ (s ps : List Char) (e : Option Char),
      (likePattern (utf8 s) (utf8 ps) (utf8 e.toList) = none ↔
        ∃ front c, some c = e ∧ ps = front ++ [c] ∧ (tokens e front).isSome) ∧
      ∀ t, tokens e ps = some t → ∃ n b,
        Ends (utf8 s) (utf8 ps) (utf8 e.toList) n 0 0 none b ∧
        likePattern (utf8 s) (utf8 ps) (utf8 e.toList) = some b ∧ (b = true ↔ Matches t s)) ∧
    ∀ h p e : String,
      (¬ (e.length ≤ 1 ∧ fit B.chars fold e = e) →
        sqlLike B fold (.text h) (.text p) (.text e) = .error
          (.query "`escape` takes one character, with no case where case is ignored")) ∧
      (e.length ≤ 1 ∧ fit B.chars fold e = e →
        (tokens e.toList.head? (fit B.chars fold p).toList = none →
          sqlLike B fold (.text h) (.text p) (.text e) =
            .error (.query "a `like` pattern ends in its escape")) ∧
        ∀ t, tokens e.toList.head? (fit B.chars fold p).toList = some t → ∃ b,
          sqlLike B fold (.text h) (.text p) (.text e) = .ok (.bool b) ∧
          (b = true ↔ Matches t (fit B.chars fold h).toList)) := by
  refine ⟨fun s ps e => ⟨?_, (likePattern_spec s ps e).2⟩, fun h p e => ⟨?_, ?_⟩⟩
  · rw [← tokens_eq_none]
    constructor
    · intro hnone
      cases ht : tokens e ps with
      | none => rfl
      | some t =>
        obtain ⟨n, b, -, hb, -⟩ := (likePattern_spec s ps e).2 t ht
        rw [hb] at hnone
        cases hnone
    · exact (likePattern_spec s ps e).1
  · intro hbad
    unfold sqlLike
    dsimp only
    rw [if_pos]
    simp only [Bool.or_eq_true, decide_eq_true_eq, bne_iff_ne]
    by_cases hlen : 1 < e.length
    · exact .inl hlen
    · exact .inr fun hfit => hbad ⟨by omega, hfit⟩
  · rintro ⟨hlen, hfit⟩
    have hgood : ¬ (1 < e.length || fit B.chars fold e != e) = true := by
      simp only [Bool.or_eq_true, decide_eq_true_eq, bne_iff_ne]
      rintro (hlt | hne)
      · omega
      · exact hne hfit
    -- the escape is at most one character
    have hesc : e.toList = e.toList.head?.toList := by
      rw [← String.length_toList] at hlen
      cases htl : e.toList with
      | nil => rfl
      | cons c rest =>
        rw [htl, List.length_cons] at hlen
        obtain rfl : rest = [] := List.length_eq_zero_iff.mp (by omega)
        rfl
    have hspec := likePattern_spec (fit B.chars fold h).toList (fit B.chars fold p).toList
      e.toList.head?
    rw [← hesc] at hspec
    unfold sqlLike
    dsimp only
    rw [if_neg hgood]
    constructor
    · intro hnone
      rw [hspec.1 hnone]
    · intro t ht
      obtain ⟨n, b, -, hb, hiff⟩ := hspec.2 t ht
      rw [hb]
      exact ⟨b, rfl, hiff⟩

/-- Two wildcards, and an escaped one. -/
example : likePattern (utf8 "aébc%".toList) (utf8 "%_b%\\%".toList) (utf8 ['\\']) = some true := by
  decide

end Like

end Fenec
