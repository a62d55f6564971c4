/-
# A filter asked of what can be seen

A rule may name the row as a write leaves it (`new.status`), which a row not yet written cannot
answer.  `relaxed` takes each term that reads such a name as whatever lets the row through where it
stands, works out the `and`s and `or`s this decides, and asks the rest.

Three readings of one filter are related here.  `asked` is what is left of it, told of the filter
itself: the answer of the terms that can be seen, the others taken as letting the row through.  What
`relaxed` builds answers as `asked` does, errors included (`answer_loosened`); and where `asked` comes
to an answer, a row that passes the filter passes it (`asked_of_answer`).  So `relaxed` leaves out no
row the filter admits unless a term that is left fails on it (`relaxed_admits_iff`): `asked` comes
to terms that the filter's own `and`s and `or`s pass over.
-/
import Fenec.Conjuncts
import Fenec.Document

namespace Fenec.Access

open Lib

/-! ## 1. The code -/

mutual

/-- `reads`: whether an expression reads a field that `which` names. -/
def reads (which : String → Bool) : Expr → Bool
  | .field f => which f
  | .lit _ | .param _ => false
  | .and a b | .or a b | .cmp _ a b | .like a b | .has a b | .arith _ a b =>
    reads which a || reads which b
  | .not a | .isNull a | .inSelect a => reads which a
  | .inList a items => reads which a || readsAny which items
  | .call _ args => readsAny which args
termination_by structural e => e

/-- Whether one of them does. -/
def readsAny (which : String → Bool) : List Expr → Bool
  | [] => false
  | e :: es => reads which e || readsAny which es
termination_by structural es => es

end

/-- The bool an expression is, written out. -/
def known : Expr → Option Bool
  | .lit (.bool b) => some b
  | _ => none

/-- A bool written out. -/
def is (b : Bool) : Expr := .lit (.bool b)

/-- `and` of two sides, worked out where one decides it. -/
def loosenedAnd (a b : Expr) : Expr :=
  match known a, known b with
  | some false, _ => is false
  | _, some false => is false
  | some true, _ => b
  | _, some true => a
  | none, none => .and a b

/-- `or` of two sides, worked out where one decides it. -/
def loosenedOr (a b : Expr) : Expr :=
  match known a, known b with
  | some true, _ => is true
  | _, some true => is true
  | some false, _ => b
  | _, some false => a
  | none, none => .or a b

/-- `not` of a side, worked out where it is decided. -/
def loosenedNot (a : Expr) : Expr :=
  match known a with
  | some b => is (!b)
  | none => .not a

section Code

variable (unseen : String → Bool)

/-- **`loosened`**: the terms that read an unseen name taken as `pass`, the other way round under
each `not`. -/
def loosened : Expr → Bool → Expr
  | .and a b, pass => loosenedAnd (loosened a pass) (loosened b pass)
  | .or a b, pass => loosenedOr (loosened a pass) (loosened b pass)
  | .not a, pass => loosenedNot (loosened a (!pass))
  | e, pass => if reads unseen e then is pass else e

/-- **`relaxed`**: the filter asked of what can be seen, none where nothing is left to ask. -/
def relaxed (e : Expr) : Option Expr :=
  if !reads unseen e then some e
  else match known (loosened unseen e true) with
    | some true => none
    | _ => some (loosened unseen e true)

end Code

/-! ## 2. What is left of a filter -/

/-- What an `and` comes to from what its sides come to, none where a side is to be asked. -/
def andKnown : Option Bool → Option Bool → Option Bool
  | some false, _ => some false
  | _, some false => some false
  | some true, b => b
  | a, some true => a
  | none, none => none

/-- What an `or` comes to from what its sides come to, none where a side is to be asked. -/
def orKnown : Option Bool → Option Bool → Option Bool
  | some true, _ => some true
  | _, some true => some true
  | some false, b => b
  | a, some false => a
  | none, none => none

section Asked

variable (unseen : String → Bool)

/-- What a filter comes to with nothing asked: its unseen terms taken as `pass`. -/
def settled : Expr → Bool → Option Bool
  | .and a b, pass => andKnown (settled a pass) (settled b pass)
  | .or a b, pass => orKnown (settled a pass) (settled b pass)
  | .not a, pass => (settled a (!pass)).map (!·)
  | e, pass => if reads unseen e then some pass else known e

variable {B : Build} (ctx : EvalCtx B) (row : Row)

/-- **The answer of the terms that can be seen**, the others taken as `pass`: of two sides neither
of which is settled the first is asked first, and the second where the first does not decide. -/
def asked : Expr → Bool → Result Bool
  | .and a b, pass =>
    match settled unseen a pass, settled unseen b pass with
    | some false, _ => .ok false
    | _, some false => .ok false
    | some true, _ => asked b pass
    | _, some true => asked a pass
    | none, none => do if ← asked a pass then asked b pass else pure false
  | .or a b, pass =>
    match settled unseen a pass, settled unseen b pass with
    | some true, _ => .ok true
    | _, some true => .ok true
    | some false, _ => asked b pass
    | _, some false => asked a pass
    | none, none => do if ← asked a pass then pure true else asked b pass
  | .not a, pass => (asked a (!pass)).map (!·)
  | e, pass => if reads unseen e then .ok pass else (eval ctx row e).map Value.truthy

end Asked

/-! ## 3. What `relaxed` builds -/

section Built

variable {unseen : String → Bool} {B : Build} {ctx : EvalCtx B} {row : Row} {a b e : Expr}
  {pass : Bool}

theorem eq_of_known {v : Bool} (h : known e = some v) : e = is v := by
  unfold known at h
  split at h
  · obtain rfl := Option.some.inj h
    rfl
  · cases h

@[simp] theorem known_is (v : Bool) : known (is v) = some v := rfl

theorem known_and : known (loosenedAnd a b) = andKnown (known a) (known b) := by
  unfold loosenedAnd
  rcases ha : known a with _ | _ | _ <;> rcases hb : known b with _ | _ | _ <;>
    first | rfl | assumption

theorem known_or : known (loosenedOr a b) = orKnown (known a) (known b) := by
  unfold loosenedOr
  rcases ha : known a with _ | _ | _ <;> rcases hb : known b with _ | _ | _ <;>
    first | rfl | assumption

theorem known_not : known (loosenedNot a) = (known a).map (!·) := by
  unfold loosenedNot
  cases known a <;> rfl

/-- What is built is written out exactly where the filter is settled. -/
theorem known_loosened (e : Expr) (pass : Bool) :
    known (loosened unseen e pass) = settled unseen e pass := by
  induction e, pass using loosened.induct unseen with
  | case1 a b pass iha ihb => rw [loosened, settled, known_and, iha, ihb]
  | case2 a b pass iha ihb => rw [loosened, settled, known_or, iha, ihb]
  | case3 a pass ih => rw [loosened, settled, known_not, ih]
  | case4 e pass hand hor hnot hreads =>
    rw [loosened.eq_4 unseen e pass hand hor hnot, settled.eq_4 unseen e pass hand hor hnot,
      if_pos hreads, if_pos hreads, known_is]
  | case5 e pass hand hor hnot hreads =>
    rw [loosened.eq_4 unseen e pass hand hor hnot, settled.eq_4 unseen e pass hand hor hnot,
      if_neg hreads, if_neg hreads]

/-- An expression's value as a filter takes it. -/
def answer (ctx : EvalCtx B) (row : Row) (e : Expr) : Result Bool :=
  (eval ctx row e).map Value.truthy

theorem answer_is (v : Bool) : answer ctx row (is v) = .ok v := by
  unfold answer is
  rw [eval]
  rfl

theorem answer_and : answer ctx row (.and a b) =
    (do if ← answer ctx row a then answer ctx row b else pure false) := by
  unfold answer
  rw [eval]
  cases eval ctx row a with
  | error err => rfl
  | ok x =>
    show Except.map _ (if x.truthy = true then _ else _) = if x.truthy = true then _ else _
    cases x.truthy with
    | false => rfl
    | true =>
      cases eval ctx row b with
      | error err => rfl
      | ok y => rfl

theorem answer_or : answer ctx row (.or a b) =
    (do if ← answer ctx row a then pure true else answer ctx row b) := by
  unfold answer
  rw [eval]
  cases eval ctx row a with
  | error err => rfl
  | ok x =>
    show Except.map _ (if x.truthy = true then _ else _) = if x.truthy = true then _ else _
    cases x.truthy with
    | true => rfl
    | false =>
      cases eval ctx row b with
      | error err => rfl
      | ok y => rfl

theorem answer_not : answer ctx row (.not a) = (answer ctx row a).map (!·) := by
  unfold answer
  rw [eval]
  cases eval ctx row a with
  | error err => rfl
  | ok x => rfl

/-- **What is built answers as what is left of the filter does**, errors included. -/
theorem answer_loosened (e : Expr) (pass : Bool) :
    answer ctx row (loosened unseen e pass) = asked unseen ctx row e pass := by
  induction e, pass using loosened.induct unseen with
  | case1 a b pass iha ihb =>
    rw [loosened, asked, ← known_loosened, ← known_loosened, ← iha, ← ihb]
    unfold loosenedAnd
    split
    · exact answer_is _
    · exact answer_is _
    · rfl
    · rfl
    · exact answer_and
  | case2 a b pass iha ihb =>
    rw [loosened, asked, ← known_loosened, ← known_loosened, ← iha, ← ihb]
    unfold loosenedOr
    split
    · exact answer_is _
    · exact answer_is _
    · rfl
    · rfl
    · exact answer_or
  | case3 a pass ih =>
    rw [loosened, asked, ← ih]
    unfold loosenedNot
    cases hknown : known (loosened unseen a (!pass)) with
    | none => exact answer_not
    | some v =>
      show answer ctx row (is (!v)) = _
      rw [eq_of_known hknown, answer_is, answer_is]
      rfl
  | case4 e pass hand hor hnot hreads =>
    rw [loosened.eq_4 unseen e pass hand hor hnot, asked.eq_4 unseen ctx row e pass hand hor hnot,
      if_pos hreads, if_pos hreads, answer_is]
  | case5 e pass hand hor hnot hreads =>
    rw [loosened.eq_4 unseen e pass hand hor hnot, asked.eq_4 unseen ctx row e pass hand hor hnot,
      if_neg hreads, if_neg hreads]
    rfl

/-- Where a filter is settled, that is its answer. -/
theorem asked_of_settled {v : Bool} (h : settled unseen e pass = some v) :
    asked unseen ctx row e pass = .ok v := by
  rw [← known_loosened] at h
  rw [← answer_loosened, eq_of_known h, answer_is]

end Built

/-! ## 4. What a filter reads -/

section Reads

variable {which : String → Bool} {n : String}

/-- Neither of two sides names what neither reads. -/
theorem not_of_two (a b : Expr) (ha : reads which a = false → n ∈ Expr.names a → which n = false)
    (hb : reads which b = false → n ∈ Expr.names b → which n = false)
    (h : (reads which a || reads which b) = false)
    (hn : n ∈ Expr.referencedFields (Expr.referencedFields [] a) b) : which n = false := by
  obtain ⟨hra, hrb⟩ := Bool.or_eq_false_iff.mp h
  rcases (Expr.mem_referencedFields b _).mp hn with hn | hn
  · exact ha hra hn
  · exact hb hrb hn

mutual

/-- What an expression does not read is no name of it. -/
theorem not_of_reads : ∀ e : Expr, reads which e = false → n ∈ Expr.names e → which n = false
  | .field f, h, hn => by
    have hf : n = f := by simpa [Expr.names, Expr.referencedFields] using hn
    rw [hf]
    exact h
  | .lit _, _, hn => absurd hn (by simp [Expr.names, Expr.referencedFields])
  | .param _, _, hn => absurd hn (by simp [Expr.names, Expr.referencedFields])
  | .not a, h, hn => not_of_reads a h hn
  | .isNull a, h, hn => not_of_reads a h hn
  | .inSelect a, h, hn => not_of_reads a h hn
  | .and a b, h, hn => not_of_two a b (not_of_reads a) (not_of_reads b) h hn
  | .or a b, h, hn => not_of_two a b (not_of_reads a) (not_of_reads b) h hn
  | .cmp _ a b, h, hn => not_of_two a b (not_of_reads a) (not_of_reads b) h hn
  | .like a b, h, hn => not_of_two a b (not_of_reads a) (not_of_reads b) h hn
  | .has a b, h, hn => not_of_two a b (not_of_reads a) (not_of_reads b) h hn
  | .arith _ a b, h, hn => not_of_two a b (not_of_reads a) (not_of_reads b) h hn
  | .inList a items, h, hn => by
    obtain ⟨ha, hitems⟩ := Bool.or_eq_false_iff.mp h
    rcases (Expr.mem_referencedAll items _).mp hn with hn | hn
    · exact not_of_reads a ha hn
    · exact not_of_readsAny items hitems hn
  | .call _ args, h, hn => not_of_readsAny args h hn

theorem not_of_readsAny : ∀ es : List Expr, readsAny which es = false →
    n ∈ Expr.referencedAll [] es → which n = false
  | [], _, hn => absurd hn (by simp [Expr.referencedAll])
  | e :: es, h, hn => by
    obtain ⟨he, hes⟩ := Bool.or_eq_false_iff.mp h
    rcases (Expr.mem_referencedAll es _).mp hn with hn | hn
    · exact not_of_reads e he hn
    · exact not_of_readsAny es hes hn

end

end Reads

/-! ## 5. No row is left out -/

section Sound

variable {unseen : String → Bool} {B : Build} {ctx : EvalCtx B} {row row' : Row} {a b e : Expr}
  {pass u : Bool}

/-- What an `and` answers, both sides answer or one does. -/
theorem asked_and (h : asked unseen ctx row (.and a b) pass = .ok u) :
    (u = true → asked unseen ctx row a pass = .ok true ∧ asked unseen ctx row b pass = .ok true) ∧
      (u = false → asked unseen ctx row a pass = .ok false ∨
        asked unseen ctx row b pass = .ok false) := by
  rw [asked] at h
  split at h
  · next _ ha =>
    obtain rfl := Except.ok.inj h
    exact ⟨nofun, fun _ => .inl (asked_of_settled ha)⟩
  · next hb _ =>
    obtain rfl := Except.ok.inj h
    exact ⟨nofun, fun _ => .inr (asked_of_settled hb)⟩
  · next _ ha _ => exact ⟨fun hu => ⟨asked_of_settled ha, hu ▸ h⟩, fun hu => .inr (hu ▸ h)⟩
  · next hb _ _ => exact ⟨fun hu => ⟨hu ▸ h, asked_of_settled hb⟩, fun hu => .inl (hu ▸ h)⟩
  · cases ha : asked unseen ctx row a pass with
    | error err =>
      rw [ha] at h
      cases h
    | ok x =>
      rw [ha, Result.ok_bind] at h
      cases x with
      | false =>
        obtain rfl := Except.ok.inj h
        exact ⟨nofun, fun _ => .inl rfl⟩
      | true => exact ⟨fun hu => ⟨rfl, hu ▸ h⟩, fun hu => .inr (hu ▸ h)⟩

/-- What an `or` answers, one side answers or both do. -/
theorem asked_or (h : asked unseen ctx row (.or a b) pass = .ok u) :
    (u = false → asked unseen ctx row a pass = .ok false ∧
        asked unseen ctx row b pass = .ok false) ∧
      (u = true → asked unseen ctx row a pass = .ok true ∨
        asked unseen ctx row b pass = .ok true) := by
  rw [asked] at h
  split at h
  · next _ ha =>
    obtain rfl := Except.ok.inj h
    exact ⟨nofun, fun _ => .inl (asked_of_settled ha)⟩
  · next hb _ =>
    obtain rfl := Except.ok.inj h
    exact ⟨nofun, fun _ => .inr (asked_of_settled hb)⟩
  · next _ ha _ => exact ⟨fun hu => ⟨asked_of_settled ha, hu ▸ h⟩, fun hu => .inr (hu ▸ h)⟩
  · next hb _ _ => exact ⟨fun hu => ⟨hu ▸ h, asked_of_settled hb⟩, fun hu => .inl (hu ▸ h)⟩
  · cases ha : asked unseen ctx row a pass with
    | error err =>
      rw [ha] at h
      cases h
    | ok x =>
      rw [ha, Result.ok_bind] at h
      cases x with
      | true =>
        obtain rfl := Except.ok.inj h
        exact ⟨nofun, fun _ => .inl rfl⟩
      | false => exact ⟨fun hu => ⟨rfl, hu ▸ h⟩, fun hu => .inr (hu ▸ h)⟩

/-- Two rows that differ under unseen names only. -/
def SameSeen (unseen : String → Bool) (row row' : Row) : Prop :=
  ∀ n, unseen n = false → Expr.Agree row row' n

theorem answer_and_ok (h : answer ctx row (.and a b) = .ok u) :
    (u = true ∧ answer ctx row a = .ok true ∧ answer ctx row b = .ok true) ∨
      (u = false ∧ (answer ctx row a = .ok false ∨ answer ctx row b = .ok false)) := by
  rw [answer_and] at h
  cases ha : answer ctx row a with
  | error err =>
    rw [ha] at h
    cases h
  | ok x =>
    rw [ha, Result.ok_bind] at h
    cases x with
    | false =>
      obtain rfl := Except.ok.inj h
      exact .inr ⟨rfl, .inl rfl⟩
    | true =>
      cases u with
      | false => exact .inr ⟨rfl, .inr h⟩
      | true => exact .inl ⟨rfl, rfl, h⟩

theorem answer_or_ok (h : answer ctx row (.or a b) = .ok u) :
    (u = false ∧ answer ctx row a = .ok false ∧ answer ctx row b = .ok false) ∨
      (u = true ∧ (answer ctx row a = .ok true ∨ answer ctx row b = .ok true)) := by
  rw [answer_or] at h
  cases ha : answer ctx row a with
  | error err =>
    rw [ha] at h
    cases h
  | ok x =>
    rw [ha, Result.ok_bind] at h
    cases x with
    | true =>
      obtain rfl := Except.ok.inj h
      exact .inr ⟨rfl, .inl rfl⟩
    | false =>
      cases u with
      | false => exact .inl ⟨rfl, rfl, h⟩
      | true => exact .inr ⟨rfl, .inr h⟩

/-- **Where what is left of a filter comes to an answer, it is the filter's own**, if that is the
answer the unseen terms are taken to have. -/
theorem asked_of_answer (hsame : SameSeen unseen row row') (e : Expr) (pass : Bool) :
    ∀ u, answer ctx row' e = .ok pass → asked unseen ctx row e pass = .ok u → u = pass := by
  induction e, pass using loosened.induct unseen with
  | case1 a b pass iha ihb =>
    intro u h hasked
    obtain ⟨hboth, hone⟩ := asked_and hasked
    rcases answer_and_ok h with ⟨rfl, ha, hb⟩ | ⟨rfl, hside⟩
    · -- both sides pass: neither is left to fail
      by_contra hu
      rcases hone (Bool.eq_false_of_not_eq_true hu) with hleft | hright
      · cases iha false ha hleft
      · cases ihb false hb hright
    · by_contra hu
      obtain ⟨hleft, hright⟩ := hboth (Bool.eq_true_of_not_eq_false hu)
      rcases hside with ha | hb
      · cases iha true ha hleft
      · cases ihb true hb hright
  | case2 a b pass iha ihb =>
    intro u h hasked
    obtain ⟨hboth, hone⟩ := asked_or hasked
    rcases answer_or_ok h with ⟨rfl, ha, hb⟩ | ⟨rfl, hside⟩
    · by_contra hu
      rcases hone (Bool.eq_true_of_not_eq_false hu) with hleft | hright
      · cases iha true ha hleft
      · cases ihb true hb hright
    · by_contra hu
      obtain ⟨hleft, hright⟩ := hboth (Bool.eq_false_of_not_eq_true hu)
      rcases hside with ha | hb
      · cases iha false ha hleft
      · cases ihb false hb hright
  | case3 a pass ih =>
    intro u h hasked
    rw [answer_not] at h
    rw [asked] at hasked
    obtain ⟨x, hx, hpass⟩ := except_map_ok h
    obtain ⟨y, hy, hu⟩ := except_map_ok hasked
    have hnot : x = !pass := by rw [← hpass, Bool.not_not]
    rw [← hu, ih y (hnot ▸ hx) hy, Bool.not_not]
  | case4 e pass hand hor hnot hreads =>
    intro u h hasked
    rw [asked.eq_4 unseen ctx row e pass hand hor hnot, if_pos hreads] at hasked
    exact (Except.ok.inj hasked).symm
  | case5 e pass hand hor hnot hreads =>
    intro u h hasked
    rw [asked.eq_4 unseen ctx row e pass hand hor hnot, if_neg hreads] at hasked
    have heval : eval ctx row e = eval ctx row' e := Expr.eval_agree ctx fun n hn =>
      hsame n (not_of_reads e (Bool.eq_false_of_not_eq_true hreads) hn)
    rw [heval] at hasked
    exact Except.ok.inj (hasked.symm.trans h)

/-- A filter is true of a row where its answer there is. -/
theorem holds_iff : Expr.Holds ctx row e ↔ answer ctx row e = .ok true := by
  unfold Expr.Holds answer
  cases eval ctx row e with
  | error err =>
    constructor
    · rintro ⟨v, hv, -⟩
      cases hv
    · intro h
      cases h
  | ok x =>
    constructor
    · rintro ⟨v, hv, htrue⟩
      rw [Except.ok.inj hv]
      exact congrArg Except.ok htrue
    · exact fun h => ⟨x, rfl, Except.ok.inj h⟩

/-- What `relaxed` builds is what `loosened` does, or the filter itself. -/
theorem relaxed_eq_some {r : Expr} (h : relaxed unseen e = some r) :
    (reads unseen e = false ∧ r = e) ∨ (reads unseen e = true ∧ r = loosened unseen e true) := by
  unfold relaxed at h
  cases hreads : reads unseen e with
  | false =>
    rw [hreads] at h
    exact .inl ⟨rfl, (Option.some.inj h).symm⟩
  | true =>
    rw [hreads, if_neg (by decide)] at h
    split at h
    · cases h
    · exact .inr ⟨rfl, (Option.some.inj h).symm⟩

theorem reads_is (v : Bool) : reads unseen (is v) = false := rfl

/-- What is built reads no unseen name. -/
theorem reads_loosened (e : Expr) (pass : Bool) :
    reads unseen (loosened unseen e pass) = false := by
  induction e, pass using loosened.induct unseen with
  | case1 a b pass iha ihb =>
    rw [loosened]
    unfold loosenedAnd
    split
    · exact reads_is _
    · exact reads_is _
    · exact ihb
    · exact iha
    · rw [reads, iha, ihb]
      rfl
  | case2 a b pass iha ihb =>
    rw [loosened]
    unfold loosenedOr
    split
    · exact reads_is _
    · exact reads_is _
    · exact ihb
    · exact iha
    · rw [reads, iha, ihb]
      rfl
  | case3 a pass ih =>
    rw [loosened]
    unfold loosenedNot
    split
    · exact reads_is _
    · exact ih
  | case4 e pass hand hor hnot hreads =>
    rw [loosened.eq_4 unseen e pass hand hor hnot, if_pos hreads]
    exact reads_is _
  | case5 e pass hand hor hnot hreads =>
    rw [loosened.eq_4 unseen e pass hand hor hnot, if_neg hreads]
    exact Bool.eq_false_of_not_eq_true hreads

variable (ctx) in
/-- **A relaxed filter admits what the filter admits exactly when no term left to ask fails**: it
reads no unseen name, and is the filter where that reads none; and a row that the filter admits,
whatever is behind the unseen names, passes it exactly when the terms left to ask come to an
answer on the row. -/
theorem relaxed_admits_iff (e : Expr) (hsame : SameSeen unseen row row') :
    ((∀ r, relaxed unseen e = some r → reads unseen r = false) ∧
      (reads unseen e = false → relaxed unseen e = some e) ∧
      (Expr.Holds ctx row' e → ∀ r, relaxed unseen e = some r → Expr.Holds ctx row r)) ↔
    (Expr.Holds ctx row' e → reads unseen e = true →
      ∃ u, asked unseen ctx row e true = .ok u) := by
  constructor
  · rintro ⟨-, -, hadmits⟩ hholds hreads
    cases hrelaxed : relaxed unseen e with
    | none =>
      -- nothing is left to ask
      have hsettled : settled unseen e true = some true := by
        unfold relaxed at hrelaxed
        rw [hreads, if_neg (by decide), known_loosened] at hrelaxed
        split at hrelaxed
        · assumption
        · cases hrelaxed
      exact ⟨true, asked_of_settled hsettled⟩
    | some r =>
      have hr := holds_iff.mp (hadmits hholds r hrelaxed)
      rcases relaxed_eq_some hrelaxed with ⟨hnone, -⟩ | ⟨-, rfl⟩
      · cases hreads.symm.trans hnone
      · rw [answer_loosened] at hr
        exact ⟨true, hr⟩
  · intro hanswers
    refine ⟨fun r hr => ?_, fun hnone => ?_, fun hholds r hr => ?_⟩
    · rcases relaxed_eq_some hr with ⟨hnone, rfl⟩ | ⟨-, rfl⟩
      · exact hnone
      · exact reads_loosened e true
    · unfold relaxed
      rw [hnone]
      rfl
    · rcases relaxed_eq_some hr with ⟨hnone, rfl⟩ | ⟨hreads, rfl⟩
      · have heval := Expr.eval_agree ctx fun n hn => hsame n (not_of_reads r hnone hn)
        obtain ⟨v, hv, htrue⟩ := hholds
        exact ⟨v, heval.trans hv, htrue⟩
      · obtain ⟨u, hu⟩ := hanswers hholds hreads
        have hpass : u = true := asked_of_answer hsame e true u (holds_iff.mp hholds) hu
        rw [holds_iff, answer_loosened, hu, hpass]

end Sound

/-! ## 6. Two filters of one row -/

/-- `new.` names the row as a write leaves it. -/
def namesNew (name : String) : Bool := (stripNew name).isSome

/-- A row of no quantity, owned by `x`, and what a write leaves of its status. -/
def emptyOrder (status : String) : Row where
  id := 1
  field name :=
    if namesNew name then .ok (.text status)
    else if name = "qty" then .ok (.int 0)
    else if name = "owner" then .ok (.text "x")
    else .ok .null
  textOrder _ := .bytes

theorem sameSeen_emptyOrder (s s' : String) :
    SameSeen namesNew (emptyOrder s) (emptyOrder s') := by
  intro n hn
  refine ⟨fun _ => rfl, fun _ => ?_, rfl⟩
  unfold emptyOrder
  dsimp only
  rw [hn]
  rfl

/-- What the examples evaluate in. -/
def plainCtx : EvalCtx Build.ascii := ⟨[], Registry.builtin Build.ascii, none⟩

/-- `new.status = 'sent' and owner = 'x'`. -/
def sentAndOwned : Expr :=
  .and (.cmp .eq (.field "new.status") (.lit (.text "sent")))
    (.cmp .eq (.field "owner") (.lit (.text "x")))

/-- A filter whose terms all answer, asked of a row that cannot answer one of them. -/
theorem relaxed_admits_sentAndOwned :
    Expr.Holds plainCtx (emptyOrder "sent") sentAndOwned ∧
      ∀ r, relaxed namesNew sentAndOwned = some r →
        Expr.Holds plainCtx (emptyOrder "open") r := by
  have hholds : Expr.Holds plainCtx (emptyOrder "sent") sentAndOwned := ⟨.bool true, rfl, rfl⟩
  have hiff := relaxed_admits_iff plainCtx sentAndOwned (sameSeen_emptyOrder "open" "sent")
  exact ⟨hholds, (hiff.mpr fun _ _ => ⟨true, rfl⟩).2.2 hholds⟩

/-- `(new.status = 'sent' and 10 / qty > 1) or owner = 'x'`. -/
def sentOrOwned : Expr :=
  .or (.and (.cmp .eq (.field "new.status") (.lit (.text "sent")))
      (.cmp .gt (.arith .div (.lit (.int 10)) (.field "qty")) (.lit (.int 1))))
    (.cmp .eq (.field "owner") (.lit (.text "x")))

/-- What is left of it: `10 / qty > 1 or owner = 'x'`. -/
def leftOfIt : Expr :=
  .or (.cmp .gt (.arith .div (.lit (.int 10)) (.field "qty")) (.lit (.int 1)))
    (.cmp .eq (.field "owner") (.lit (.text "x")))

theorem relaxed_sentOrOwned : relaxed namesNew sentOrOwned = some leftOfIt := by
  rfl

/-- **A row the filter admits is not admitted by the relaxed filter**, which fails on it. -/
theorem admitted_row_fails :
    SameSeen namesNew (emptyOrder "open") (emptyOrder "open") ∧
      Expr.Holds plainCtx (emptyOrder "open") sentOrOwned ∧
      ∃ r, relaxed namesNew sentOrOwned = some r ∧
        eval plainCtx (emptyOrder "open") r = .error (.query "division by zero") ∧
        ¬ Expr.Holds plainCtx (emptyOrder "open") r := by
  have hfails : eval plainCtx (emptyOrder "open") leftOfIt = .error (.query "division by zero") :=
    rfl
  refine ⟨sameSeen_emptyOrder _ _, ⟨.bool true, rfl, rfl⟩, leftOfIt, relaxed_sentOrOwned, hfails, ?_⟩
  rintro ⟨v, hv, -⟩
  cases hfails.symm.trans hv

end Fenec.Access
