/-
# The shell's gate

`Unclosed` reads a text a piece at a time and makes no token: it only keeps what a text leaves
open.  This module proves that it reads strings, comments and brackets as the lexer does
(`gate_reads_as_lexer`), for every text and every way of cutting it.

It is an automaton over bytes, the lexer a walk over characters with look-ahead.  The two are
brought together in two steps.  A byte of a character outside ASCII is none that the automaton
looks for, so it can be run a character at a time (`see`).  And between two tokens its state is one
of a few (`Between`): the flags it keeps from the byte before are exactly what the lexer decided by
looking ahead, and say so of the text that is left.  A string is followed from its quote to its end
by an induction of its own (`quoted_gate`).

A number whose exponent's sign is followed by a `-` is where the automaton sees a comment that the
lexer does not reach: the lexer refuses that number, so nothing is said of it here.
-/
import Fenec.Lexer
import Fenec.Like

namespace Fenec.Ql

open Lib Case
open Time (isDigit isWhitespace)

/-! ## 1. The gate -/

/-- `Unclosed`. -/
structure Unclosed where
  depth : Int := 0
  quote : UInt8 := 0
  escape : Bool := false
  comment : Bool := false
  dash : Bool := false
  lt : Bool := false
  ltHash : Bool := false
deriving DecidableEq

namespace Unclosed

/-- What a byte outside strings and comments does, the flags of the byte before it taken. -/
def mark (g : Unclosed) (dash lt : Bool) (b : UInt8) : Unclosed :=
  if b = 34 ∨ b = 39 then { g with quote := b }
  else if b = 35 then if lt then { g with ltHash := true } else { g with comment := true }
  else if b = 45 then if dash then { g with comment := true } else { g with dash := true }
  else if b = 40 ∨ b = 91 ∨ b = 123 then { g with depth := g.depth + 1 }
  else if b = 41 ∨ b = 93 ∨ b = 125 then { g with depth := g.depth - 1 }
  else g

/-- The body of the loop of `feed`. -/
def step (g : Unclosed) (b : UInt8) : Unclosed :=
  if g.comment then { g with comment := b != 10 }
  else if g.quote ≠ 0 then
    if g.escape then { g with escape := false }
    else if b = 92 then { g with escape := true }
    else if b = g.quote then { g with quote := 0 }
    else g
  else if g.ltHash then { g with ltHash := false, comment := b != 62 && b != 10 }
  else mark { g with dash := false, lt := b == 60 } g.dash g.lt b

/-- `feed`: the next piece of the text. -/
def feed (g : Unclosed) (piece : String) : Unclosed := (utf8 piece.toList).foldl step g

end Unclosed

open Unclosed

/-! ## 2. A character at a time -/

/-- A character more. -/
def see (g : Unclosed) (c : Char) : Unclosed := (String.utf8EncodeChar c).foldl step g

/-- Outside strings and comments, with what is kept of the byte before. -/
def outside (d : Int) (dash lt : Bool) : Unclosed := { depth := d, dash := dash, lt := lt }

/-- Inside a string. -/
def inside (d : Int) (quote : UInt8) (escape : Bool) : Unclosed :=
  { depth := d, quote := quote, escape := escape }

/-- Inside a comment. -/
def commented (d : Int) : Unclosed := { depth := d, comment := true }

/-- After a `<#`. -/
def hashed (d : Int) : Unclosed := { depth := d, ltHash := true }

section See

variable {g : Unclosed} {d : Int} {x y : Bool} {c : Char} {cs : List Char} {b q : UInt8}

theorem foldl_step_utf8 (g : Unclosed) (cs : List Char) :
    (utf8 cs).foldl step g = cs.foldl see g := by
  induction cs generalizing g with
  | nil => rfl
  | cons c cs ih =>
    rw [utf8_cons, List.foldl_append, List.foldl_cons]
    exact ih (see g c)

/-- The pieces of a text, one after another, are the text. -/
theorem feed_pieces (g : Unclosed) (pieces : List String) :
    pieces.foldl feed g = (String.join pieces).toList.foldl see g := by
  induction pieces generalizing g with
  | nil => rfl
  | cons p pieces ih =>
    rw [List.foldl_cons, ih, String.join_cons, String.toList_append, List.foldl_append]
    exact congrArg (fun g => (String.join pieces).toList.foldl see g) (foldl_step_utf8 g p.toList)

/-- The bytes of a character are none of another's that is ASCII. -/
theorem bytes_ne {n : Nat} (hn : n < 0x80) (hne : c ≠ Char.ofNat n)
    (hb : b ∈ String.utf8EncodeChar c) : b ≠ UInt8.ofNat n := by
  obtain ⟨first, rest, henc⟩ := Like.encoded c
  have hval : (UInt8.ofNat n).toNat = n := Like.toNat_ofNat_lt (by omega)
  rintro rfl
  have hlt : UInt8.ofNat n < 0x80 := by
    rw [UInt8.lt_iff_toNat_lt, hval]
    exact hn
  rw [henc.bytes] at hb
  rcases List.mem_cons.mp hb with rfl | hb
  · refine hne ?_
    rw [henc.ascii hlt, hval]
  · exact absurd (henc.follow _ hb).1 (UInt8.not_le.mpr hlt)

/-- The characters that the gate looks for outside strings and comments. -/
def marks : List Char := ['"', '\'', '#', '-', '<', '(', '[', '{', ')', ']', '}']

theorem step_plain (hb : ∀ m ∈ marks, b ≠ UInt8.ofNat m.toNat) :
    step (outside d x y) b = outside d false false := by
  have h34 : b ≠ 34 := hb '"' (by decide)
  have h39 : b ≠ 39 := hb '\'' (by decide)
  have h35 : b ≠ 35 := hb '#' (by decide)
  have h45 : b ≠ 45 := hb '-' (by decide)
  have h40 : b ≠ 40 := hb '(' (by decide)
  have h91 : b ≠ 91 := hb '[' (by decide)
  have h123 : b ≠ 123 := hb '{' (by decide)
  have h41 : b ≠ 41 := hb ')' (by decide)
  have h93 : b ≠ 93 := hb ']' (by decide)
  have h125 : b ≠ 125 := hb '}' (by decide)
  have hlt : (b == 60) = false := beq_eq_false_iff_ne.mpr (hb '<' (by decide))
  have hmark : ∀ g : Unclosed, mark g x y b = g := fun g => by
    unfold mark
    rw [if_neg (not_or.mpr ⟨h34, h39⟩), if_neg h35, if_neg h45,
      if_neg (not_or.mpr ⟨h40, not_or.mpr ⟨h91, h123⟩⟩),
      if_neg (not_or.mpr ⟨h41, not_or.mpr ⟨h93, h125⟩⟩)]
  calc step (outside d x y) b
      = mark { outside d x y with dash := false, lt := b == 60 } x y b := rfl
    _ = outside d false false := by rw [hmark, hlt]; rfl

theorem foldl_step_plain {bs : List UInt8} (hbs : ∀ b ∈ bs, ∀ m ∈ marks, b ≠ UInt8.ofNat m.toNat) :
    bs.foldl step (outside d false false) = outside d false false := by
  induction bs with
  | nil => rfl
  | cons b bs ih =>
    rw [List.foldl_cons, step_plain (hbs b List.mem_cons_self)]
    exact ih fun b hb => hbs b (List.mem_cons_of_mem _ hb)

theorem marks_ascii {m : Char} (hm : m ∈ marks) : m.toNat < 0x80 ∧ Char.ofNat m.toNat = m := by
  simp only [marks, List.mem_cons, List.not_mem_nil, or_false] at hm
  rcases hm with rfl | rfl | rfl | rfl | rfl | rfl | rfl | rfl | rfl | rfl | rfl <;>
    exact ⟨by decide, by decide⟩

/-- **A character that is none of these only takes the flags off.** -/
theorem see_plain (hc : c ∉ marks) : see (outside d x y) c = outside d false false := by
  have hne : ∀ b ∈ String.utf8EncodeChar c, ∀ m ∈ marks, b ≠ UInt8.ofNat m.toNat := by
    intro b hb m hm
    obtain ⟨hlt, hof⟩ := marks_ascii hm
    refine bytes_ne hlt (fun h => hc ?_) hb
    rw [h, hof]
    exact hm
  unfold see
  obtain ⟨b, bs, hbytes⟩ := List.exists_cons_of_ne_nil (String.utf8EncodeChar_ne_nil (c := c))
  rw [hbytes] at hne ⊢
  rw [List.foldl_cons, step_plain (hne b List.mem_cons_self)]
  exact foldl_step_plain fun b hb => hne b (List.mem_cons_of_mem _ hb)

/-- A run of such characters. -/
theorem foldl_see_plain (hcs : ∀ c ∈ cs, c ∉ marks) :
    cs.foldl see (outside d false false) = outside d false false := by
  induction cs with
  | nil => rfl
  | cons c cs ih =>
    rw [List.foldl_cons, see_plain (hcs c List.mem_cons_self)]
    exact ih fun c hc => hcs c (List.mem_cons_of_mem _ hc)

theorem foldl_see_plain_ne (hcs : ∀ c ∈ cs, c ∉ marks) (hne : cs ≠ []) :
    cs.foldl see (outside d x y) = outside d false false := by
  obtain ⟨c, cs, rfl⟩ := List.exists_cons_of_ne_nil hne
  rw [List.foldl_cons, see_plain (hcs c List.mem_cons_self)]
  exact foldl_see_plain fun c hc => hcs c (List.mem_cons_of_mem _ hc)

theorem see_dash : see (outside d false y) '-' = outside d true false := rfl

theorem see_dashes : see (outside d true y) '-' = commented d := rfl

theorem see_hash : see (outside d x false) '#' = commented d := rfl

theorem see_lt_hash : see (outside d x true) '#' = hashed d := rfl

theorem foldl_step_commented {bs : List UInt8} (hbs : ∀ b ∈ bs, b ≠ 10) :
    bs.foldl step (commented d) = commented d := by
  induction bs with
  | nil => rfl
  | cons b bs ih =>
    have hstep : step (commented d) b = { commented d with comment := b != 10 } := rfl
    have hb : (b != 10) = true := bne_iff_ne.mpr (hbs b List.mem_cons_self)
    rw [List.foldl_cons, hstep, hb]
    exact ih fun b hb => hbs b (List.mem_cons_of_mem _ hb)

/-- Nothing but the end of its line ends a comment. -/
theorem foldl_see_commented (hcs : ∀ c ∈ cs, c ≠ '\n') :
    cs.foldl see (commented d) = commented d := by
  induction cs with
  | nil => rfl
  | cons c cs ih =>
    have hsee : see (commented d) c = commented d :=
      foldl_step_commented fun b hb => bytes_ne (n := 10) (by decide) (hcs c List.mem_cons_self) hb
    rw [List.foldl_cons, hsee]
    exact ih fun c hc => hcs c (List.mem_cons_of_mem _ hc)

/-- After a `<#`, what is no `>` and no end of the line is a comment. -/
theorem see_hashed (hgt : c ≠ '>') (hline : c ≠ '\n') : see (hashed d) c = commented d := by
  have h62 : ∀ b ∈ String.utf8EncodeChar c, b ≠ 62 := fun b hb =>
    bytes_ne (n := 62) (by decide) hgt hb
  have h10 : ∀ b ∈ String.utf8EncodeChar c, b ≠ 10 := fun b hb =>
    bytes_ne (n := 10) (by decide) hline hb
  unfold see
  obtain ⟨b, bs, hbytes⟩ := List.exists_cons_of_ne_nil (String.utf8EncodeChar_ne_nil (c := c))
  rw [hbytes] at h62 h10 ⊢
  have hstep : step (hashed d) b = { commented d with comment := b != 62 && b != 10 } := rfl
  have h62b : (b != 62) = true := bne_iff_ne.mpr (h62 b List.mem_cons_self)
  have h10b : (b != 10) = true := bne_iff_ne.mpr (h10 b List.mem_cons_self)
  rw [List.foldl_cons, hstep, h62b, h10b]
  exact foldl_step_commented fun b hb => h10 b (List.mem_cons_of_mem _ hb)

/-! ## 3. Strings

The two bytes that begin a string are the ones that end it. -/

/-- A quote, and its byte. -/
inductive Quote : Char → UInt8 → Prop where
  | double : Quote '"' 34
  | single : Quote '\'' 39

theorem see_quote (h : Quote c q) : see (outside d x y) c = inside d q false := by
  cases h with
  | double => rfl
  | single => rfl

theorem see_end (h : Quote c q) : see (inside d q false) c = outside d false false := by
  cases h with
  | double => rfl
  | single => rfl

theorem see_backslash (h : Quote c q) : see (inside d q false) '\\' = inside d q true := by
  cases h with
  | double => rfl
  | single => rfl

theorem Quote.ne_zero (h : Quote c q) : q ≠ 0 := by
  cases h with
  | double => decide
  | single => decide

theorem step_inside (hq : q ≠ 0) (h92 : b ≠ 92) (hb : b ≠ q) :
    step (inside d q false) b = inside d q false := by
  have hstep : step (inside d q false) b =
      if q ≠ 0 then if b = 92 then inside d q true else
        if b = q then { inside d q false with quote := 0 } else inside d q false
      else mark { inside d q false with lt := b == 60 } false false b := rfl
  rw [hstep, if_pos hq, if_neg h92, if_neg hb]

theorem foldl_step_inside (hq : q ≠ 0) {bs : List UInt8} (hbs : ∀ b ∈ bs, b ≠ 92 ∧ b ≠ q) :
    bs.foldl step (inside d q false) = inside d q false := by
  induction bs with
  | nil => rfl
  | cons b bs ih =>
    obtain ⟨h92, hb⟩ := hbs b List.mem_cons_self
    rw [List.foldl_cons, step_inside hq h92 hb]
    exact ih fun b hb => hbs b (List.mem_cons_of_mem _ hb)

/-- A character of a string that is neither its quote nor a backslash. -/
theorem see_inside {e : Char} (h : Quote c q) (he : e ≠ c) (hback : e ≠ '\\') :
    see (inside d q false) e = inside d q false := by
  refine foldl_step_inside h.ne_zero fun b hb => ⟨bytes_ne (n := 92) (by decide) hback hb, ?_⟩
  cases h with
  | double => exact bytes_ne (n := 34) (by decide) he hb
  | single => exact bytes_ne (n := 39) (by decide) he hb

/-- **An escaped character**, whatever it is: its first byte is skipped, and the ones after it are
none that the gate looks for. -/
theorem see_escaped {e : Char} (h : Quote c q) :
    see (inside d q true) e = inside d q false := by
  obtain ⟨b, rest, henc⟩ := Like.encoded e
  have hstep : step (inside d q true) b = inside d q false := by
    cases h with
    | double => rfl
    | single => rfl
  unfold see
  rw [henc.bytes, List.foldl_cons, hstep]
  refine foldl_step_inside h.ne_zero fun x hx => ?_
  have hle : 0x80 ≤ x := (henc.follow x hx).1
  refine ⟨?_, ?_⟩
  · rintro rfl
    exact absurd hle (by decide)
  · rintro rfl
    cases h with
    | double => exact absurd hle (by decide)
    | single => exact absurd hle (by decide)

/-- **A string is read to its end**, and only there: where the lexer finds none the gate is left
inside. -/
theorem quoted_gate (h : Quote c q) :
    (quoted c cs = none → (cs.foldl see (inside d q false)).quote ≠ 0) ∧
    ∀ s after, quoted c cs = some (s, after) →
      ∃ body, cs = body ++ after ∧ body.foldl see (inside d q false) = outside d false false := by
  have hback : c ≠ '\\' := by
    cases h with
    | double => decide
    | single => decide
  induction cs using quoted.induct c with
  | case1 => exact ⟨fun _ => h.ne_zero, fun s after hs => (by cases hs)⟩
  | case2 =>
    rw [quoted, if_pos rfl]
    refine ⟨fun hs => (by cases hs), fun s after hs => ?_⟩
    obtain ⟨-, rfl⟩ := Prod.mk.inj (Option.some.inj hs)
    exact ⟨[c], rfl, see_end h⟩
  | case3 e he =>
    rw [quoted, if_neg he]
    refine ⟨fun _ => ?_, fun s after hs => (by cases hs)⟩
    by_cases hslash : e = '\\'
    · rw [hslash, List.foldl_cons, see_backslash h]
      exact h.ne_zero
    · rw [List.foldl_cons, see_inside h he hslash]
      exact h.ne_zero
  | case4 e rest ih =>
    have hsee : ∀ body : List Char, ('\\' :: e :: body).foldl see (inside d q false) =
        body.foldl see (inside d q false) := fun body => by
      rw [List.foldl_cons, List.foldl_cons, see_backslash h, see_escaped h]
    rw [quoted, if_pos rfl]
    refine ⟨fun hs => ?_, fun s after hs => ?_⟩
    · rw [hsee]
      exact ih.1 (Option.map_eq_none_iff.mp hs)
    · obtain ⟨⟨s', after'⟩, hs', hs⟩ := Option.map_eq_some_iff.mp hs
      obtain ⟨-, rfl⟩ := Prod.mk.inj hs
      obtain ⟨body, rfl, hbody⟩ := ih.2 s' after' hs'
      exact ⟨'\\' :: e :: body, rfl, by rw [hsee, hbody]⟩
  | case5 e rest hd _ ih =>
    -- a quote doubled: the gate leaves the string and is back inside
    obtain ⟨rfl, rfl⟩ := hd
    have hsee : ∀ body : List Char, ('\'' :: '\'' :: body).foldl see (inside d q false) =
        body.foldl see (inside d q false) := fun body => by
      rw [List.foldl_cons, List.foldl_cons, see_end h, see_quote h]
    rw [quoted, if_neg hback, if_pos rfl, if_pos ⟨rfl, rfl⟩]
    refine ⟨fun hs => ?_, fun s after hs => ?_⟩
    · rw [hsee]
      exact ih.1 (Option.map_eq_none_iff.mp hs)
    · obtain ⟨⟨s', after'⟩, hs', hs⟩ := Option.map_eq_some_iff.mp hs
      obtain ⟨-, rfl⟩ := Prod.mk.inj hs
      obtain ⟨body, rfl, hbody⟩ := ih.2 s' after' hs'
      exact ⟨'\'' :: '\'' :: body, rfl, by rw [hsee, hbody]⟩
  | case6 e rest hd _ =>
    rw [quoted, if_neg hback, if_pos rfl, if_neg hd]
    refine ⟨fun hs => (by cases hs), fun s after hs => ?_⟩
    obtain ⟨-, rfl⟩ := Prod.mk.inj (Option.some.inj hs)
    exact ⟨[c], rfl, see_end h⟩
  | case7 e f rest hslash he ih =>
    have hsee : ∀ body : List Char, (e :: body).foldl see (inside d q false) =
        body.foldl see (inside d q false) := fun body => by
      rw [List.foldl_cons, see_inside h he hslash]
    rw [quoted, if_neg hslash, if_neg he]
    refine ⟨fun hs => ?_, fun s after hs => ?_⟩
    · rw [hsee]
      exact ih.1 (Option.map_eq_none_iff.mp hs)
    · obtain ⟨⟨s', after'⟩, hs', hs⟩ := Option.map_eq_some_iff.mp hs
      obtain ⟨-, rfl⟩ := Prod.mk.inj hs
      obtain ⟨body, hcs, hbody⟩ := ih.2 s' after' hs'
      exact ⟨e :: body, by rw [hcs]; rfl, by rw [hsee, hbody]⟩

end See

/-! ## 4. Numbers -/

section Spelling

variable {cs : List Char} {int : Char → Bool} {c : Char}

theorem minusRun_append (cs : List Char) : (minusRun cs).1 ++ (minusRun cs).2 = cs := by
  cases cs with
  | nil => rfl
  | cons c cs =>
    rw [minusRun]
    split
    · next h =>
      rw [h]
      rfl
    · rfl

theorem fractionRun_append (cs : List Char) : (fractionRun cs).1 ++ (fractionRun cs).2 = cs := by
  cases cs with
  | nil => rfl
  | cons c cs =>
    rw [fractionRun]
    split
    · exact congrArg (c :: ·) List.takeWhile_append_dropWhile
    · rfl

theorem signRun_append (cs : List Char) : (signRun cs).1 ++ (signRun cs).2 = cs := by
  cases cs with
  | nil => rfl
  | cons c cs =>
    rw [signRun]
    split
    · rfl
    · rfl

theorem exponentRun_append (cs : List Char) : (exponentRun cs).1 ++ (exponentRun cs).2 = cs := by
  cases cs with
  | nil => rfl
  | cons c cs =>
    rw [exponentRun]
    split
    · dsimp only
      rw [List.cons_append, List.append_assoc, List.takeWhile_append_dropWhile, signRun_append]
    · rfl

/-- **A number's text and what follows it** are the text it was read from. -/
theorem numberRun_append (int : Char → Bool) (cs : List Char) :
    (numberRun int cs).1.text ++ (numberRun int cs).2 = cs := by
  unfold numberRun Spelling.text
  dsimp only
  rw [List.append_assoc, List.append_assoc, List.append_assoc, exponentRun_append,
    fractionRun_append, List.takeWhile_append_dropWhile, minusRun_append]

theorem digit_plain (h : isDigit c = true) : c ∉ marks := by
  intro hm
  have hall : (marks.all fun m => !isDigit m) = true := by decide
  have hc := List.all_eq_true.mp hall c hm
  rw [h] at hc
  cases hc

theorem digits_plain (cs : List Char) : ∀ c ∈ cs.takeWhile isDigit, c ∉ marks :=
  fun _ hc => digit_plain (List.mem_takeWhile_imp hc)

theorem digitsOr_plain (cs : List Char) : ∀ c ∈ cs.takeWhile isDigitOr, c ∉ marks := by
  intro c hc
  have h := List.mem_takeWhile_imp hc
  unfold isDigitOr at h
  rcases Bool.or_eq_true _ _ ▸ h with hd | hu
  · exact digit_plain hd
  · rw [beq_iff_eq.mp hu]
    decide

theorem fractionRun_plain (cs : List Char) : ∀ c ∈ (fractionRun cs).1, c ∉ marks := by
  cases cs with
  | nil => exact fun c hc => (by cases hc)
  | cons e cs =>
    rw [fractionRun]
    split
    · next h =>
      refine List.forall_mem_cons.mpr ⟨?_, digits_plain cs⟩
      rw [h.1]
      decide
    · exact fun c hc => (by cases hc)

/-- What an exponent is: a letter, a sign and digits. -/
theorem exponentRun_cases (cs : List Char) : (exponentRun cs).1 = [] ∨
    ∃ e sign ds, (exponentRun cs).1 = e :: (sign ++ ds) ∧ (e = 'e' ∨ e = 'E') ∧
      (sign = [] ∨ sign = ['+'] ∨ sign = ['-']) ∧ ∀ c ∈ ds, isDigit c = true := by
  cases cs with
  | nil => exact .inl rfl
  | cons e cs =>
    rw [exponentRun]
    split
    · next he =>
      refine .inr ⟨e, (signRun cs).1, (signRun cs).2.takeWhile isDigit, rfl, he, ?_,
        fun c hc => List.mem_takeWhile_imp hc⟩
      cases cs with
      | nil => exact .inl rfl
      | cons c cs =>
        rw [signRun]
        split
        · next hc =>
          rcases hc with rfl | rfl
          · exact .inr (.inl rfl)
          · exact .inr (.inr rfl)
        · exact .inl rfl
    · exact .inl rfl

/-- Bytes that do not end in a `-`. -/
def EndsPlain (s : List UInt8) : Prop := ∃ l b, s = l ++ [b] ∧ b ≠ 45

theorem EndsPlain.append {s : List UInt8} (h : EndsPlain s) (front : List UInt8) :
    EndsPlain (front ++ s) := by
  obtain ⟨l, b, rfl, hb⟩ := h
  exact ⟨front ++ l, b, (List.append_assoc _ _ _).symm, hb⟩

theorem EndsPlain.of_digits {s : List UInt8} (h : Num.Digits s) (hne : s ≠ []) : EndsPlain s := by
  refine ⟨s.dropLast, s.getLast hne, (List.dropLast_concat_getLast hne).symm, fun hb => ?_⟩
  have hd := h _ (List.getLast_mem hne)
  rw [hb] at hd
  exact absurd hd (by decide)

theorem signed_append (s : List UInt8) : ∃ sign, s = sign ++ (Num.signed s).2 := by
  cases s with
  | nil => exact ⟨[], rfl⟩
  | cons b rest =>
    rw [Num.signed]
    split
    · exact ⟨[b], rfl⟩
    · split
      · exact ⟨[b], rfl⟩
      · exact ⟨[], rfl⟩

theorem EndsPlain.of_exponent {s : List UInt8} {e : Int} (h : Num.exponent s = some e)
    (hne : s ≠ []) : EndsPlain s := by
  obtain ⟨c, rest, rfl⟩ := List.exists_cons_of_ne_nil hne
  unfold Num.exponent at h
  dsimp only at h
  split at h
  · obtain ⟨sign, hsign⟩ := signed_append rest
    generalize Num.signed rest = p at h hsign
    split at h
    · cases h
    · next hgood =>
      rw [Bool.or_eq_true, not_or, Bool.not_eq_true, Bool.not_eq_true, Bool.not_eq_false',
        List.isEmpty_iff] at hgood
      have hsome : p.2.takeWhile Num.isDigit ≠ [] := fun hnil => by
        rw [hnil] at hgood
        exact absurd hgood.1 (by decide)
      have hall : p.2 = p.2.takeWhile Num.isDigit := by
        conv_lhs => rw [← List.takeWhile_append_dropWhile (p := Num.isDigit) (l := p.2), hgood.2]
        rw [List.append_nil]
      have hdigits : EndsPlain p.2 := by
        rw [hall]
        exact .of_digits (fun d hd => List.mem_takeWhile_imp hd) hsome
      rw [hsign]
      exact (hdigits.append sign).append [c]
  · cases h

/-- **A number that reads ends in no `-`**: no exponent without digits does read. -/
theorem EndsPlain.of_parseF64 {s : List UInt8} {f : F64} (h : Num.parseF64 s = some f) :
    EndsPlain s := by
  unfold Num.parseF64 at h
  obtain ⟨sign, hsign⟩ := signed_append s
  generalize Num.signed s = p at h hsign
  obtain ⟨neg, body⟩ := p
  dsimp only at h hsign
  rw [hsign]
  refine EndsPlain.append ?_ sign
  rw [← List.takeWhile_append_dropWhile (p := Num.isDigit) (l := body)]
  have hint : Num.Digits (body.takeWhile Num.isDigit) := fun d hd => List.mem_takeWhile_imp hd
  generalize body.takeWhile Num.isDigit = int at h hint ⊢
  cases hrest : body.dropWhile Num.isDigit with
  | nil =>
    rw [hrest] at h
    rw [List.append_nil]
    refine .of_digits hint fun hnil => ?_
    rw [hnil] at h
    cases h
  | cons c rest =>
    rw [hrest] at h
    refine EndsPlain.append ?_ int
    rw [Num.fraction] at h
    by_cases hc : c = 46
    · rw [if_pos hc] at h
      split at h
      · cases h
      · obtain ⟨e, he, -⟩ := Option.map_eq_some_iff.mp h
        dsimp only at he
        rw [hc, ← List.takeWhile_append_dropWhile (p := Num.isDigit) (l := rest)]
        have hfrac : Num.Digits (rest.takeWhile Num.isDigit) :=
          fun d hd => List.mem_takeWhile_imp hd
        generalize rest.takeWhile Num.isDigit = frac at hfrac ⊢
        by_cases hnil : rest.dropWhile Num.isDigit = []
        · rw [hnil, List.append_nil]
          by_cases hfnil : frac = []
          · rw [hfnil]
            exact ⟨[], 46, rfl, by decide⟩
          · exact (EndsPlain.of_digits hfrac hfnil).append [46]
        · exact ((EndsPlain.of_exponent he hnil).append frac).append [46]
    · rw [if_neg hc] at h
      split at h
      · cases h
      · obtain ⟨e, he, -⟩ := Option.map_eq_some_iff.mp h
        exact .of_exponent he (List.cons_ne_nil _ _)

end Spelling

/-! ## 5. Tokens -/

/-- A token that opens a bracket. -/
def opening : Tok → Bool
  | .lBrace | .lParen | .lBracket => true
  | _ => false

/-- A token that closes one. -/
def closing : Tok → Bool
  | .rBrace | .rParen | .rBracket => true
  | _ => false

/-- How deep a token leaves the text. -/
def weight (t : Tok) : Int := (if opening t then 1 else 0) - (if closing t then 1 else 0)

/-- **The gate between two tokens**: what it has kept of the byte before is what the lexer knows
of the text that is left.  A comment leaves it waiting for the end of its line. -/
inductive Between (d : Int) : Unclosed → List Char → Prop where
  | calm {cs : List Char} : Between d (outside d false false) cs
  | dash {cs : List Char} (h : nextIs cs '-' = false) : Between d (outside d true false) cs
  | lt {cs : List Char} (h : nextIs cs '#' = true → nextIs cs.tail '>' = false) :
      Between d (outside d false true) cs
  | line {g : Unclosed} {cs : List Char} (hg : g = commented d ∨ g = hashed d)
      (h : ∀ c, cs.head? = some c → c = '\n') : Between d g cs

section Token

variable {L : Letters} {last : Option Tok} {braces start : Nat} {c : Char}
  {cs rest after : List Char} {t : Tok} {d : Int} {x y : Bool}

/-- **What a token does to the gate.** -/
def Moves (x y : Bool) (cs : List Char) (t : Tok) (after : List Char) : Prop :=
  ∃ body, cs = body ++ after ∧
    ∀ d, Between (d + weight t) (body.foldl see (outside d x y)) after

/-- A token that is no bracket and leaves nothing behind. -/
theorem Moves.of_calm (body : List Char) (hcs : cs = body ++ after) (ht : weight t = 0)
    (h : ∀ d, body.foldl see (outside d x y) = outside d false false) : Moves x y cs t after := by
  refine ⟨body, hcs, fun d => ?_⟩
  rw [h, ht, Int.add_zero]
  exact .calm

/-- A token of plain characters that is no bracket. -/
theorem Moves.of_plain (body : List Char) (hcs : cs = body ++ after) (hne : body ≠ [])
    (hplain : ∀ e ∈ body, e ∉ marks) (ht : weight t = 0) : Moves x y cs t after :=
  .of_calm body hcs ht fun _ => foldl_see_plain_ne hplain hne

theorem cons_of_nextIs {w : Char} (h : nextIs cs w = true) : cs = w :: cs.tail := by
  cases cs with
  | nil => cases h
  | cons e cs =>
    have hw : e = w := by simpa [nextIs] using h
    rw [hw]
    rfl

/-- Two plain characters. -/
theorem Moves.of_two {w : Char} (hnext : nextIs rest w = true) (hc : c ∉ marks) (hw : w ∉ marks)
    (ht : weight t = 0) : Moves x y (c :: rest) t rest.tail := by
  refine .of_plain [c, w] ?_ (List.cons_ne_nil _ _) ?_ ht
  · rw [cons_of_nextIs hnext]
    rfl
  · exact List.forall_mem_cons.mpr ⟨hc, List.forall_mem_singleton.mpr hw⟩

/-- One. -/
theorem Moves.of_one (hc : c ∉ marks) (ht : weight t = 0) : Moves x y (c :: rest) t rest :=
  .of_plain [c] rfl (List.cons_ne_nil _ _) (List.forall_mem_singleton.mpr hc) ht

theorem moves_punctuation (h : punctuation c = some t) : Moves x y (c :: rest) t rest := by
  have hall : ∀ p ∈ punctuations, Moves x y (p.1 :: rest) p.2 rest := by
    unfold punctuations
    simp only [List.forall_mem_cons]
    refine ⟨⟨['{'], rfl, fun d => .calm⟩, ⟨['}'], rfl, fun d => .calm⟩,
      ⟨['('], rfl, fun d => .calm⟩, ⟨[')'], rfl, fun d => .calm⟩, ⟨[']'], rfl, fun d => .calm⟩,
      .of_one (by decide) rfl, .of_one (by decide) rfl, .of_one (by decide) rfl,
      .of_one (by decide) rfl, .of_one (by decide) rfl, .of_one (by decide) rfl,
      .of_one (by decide) rfl, .of_one (by decide) rfl, fun p hp => (by cases hp)⟩
  obtain ⟨front, back, htable, -⟩ := List.lookup_eq_some_iff.mp h
  refine hall (c, t) ?_
  rw [htable]
  exact List.mem_append_right _ List.mem_cons_self

/-- The text of a number whose exponent has digits. -/
theorem see_number (hc : isDigit c = true ∨ c = '-' ∧ digitNext rest = true)
    (hx : x = true → c ≠ '-') (hexp : ∀ e, (numberRun isDigitOr (c :: rest)).1.exp ≠ [e, '-']) :
    (numberRun isDigitOr (c :: rest)).1.text.foldl see (outside d x y) =
      outside d false false := by
  unfold numberRun at hexp ⊢
  unfold Spelling.text
  dsimp only at hexp ⊢
  -- the sign and the digits before the point
  have hint : ((minusRun (c :: rest)).2.takeWhile isDigitOr).foldl see
      ((minusRun (c :: rest)).1.foldl see (outside d x y)) = outside d false false := by
    obtain ⟨x', y', hminus⟩ : ∃ x' y',
        (minusRun (c :: rest)).1.foldl see (outside d x y) = outside d x' y' := by
      rw [minusRun]
      split
      · next h =>
        have hx' : x = false := Bool.eq_false_iff.mpr fun htrue => hx htrue h
        exact ⟨true, false, by rw [hx']; rfl⟩
      · exact ⟨x, y, rfl⟩
    rw [hminus]
    refine foldl_see_plain_ne (digitsOr_plain _) ?_
    obtain ⟨e, es, hes, hd⟩ : ∃ e es, (minusRun (c :: rest)).2 = e :: es ∧ isDigit e = true := by
      rw [minusRun]
      split
      · next h =>
        obtain hd | ⟨-, hnext⟩ := hc
        · rw [h] at hd
          cases hd
        · cases rest with
          | nil => cases hnext
          | cons e es => exact ⟨e, es, rfl, hnext⟩
      · next h => exact ⟨c, rest, rfl, hc.resolve_right fun hm => h hm.1⟩
    have hor : isDigitOr e = true := by
      rw [isDigitOr, hd]
      rfl
    rw [hes, List.takeWhile_cons_of_pos hor]
    exact List.cons_ne_nil _ _
  rw [List.foldl_append, List.foldl_append, hint, List.foldl_append,
    foldl_see_plain (fractionRun_plain _)]
  -- the exponent, whose sign a digit follows
  obtain hnil | ⟨e, sign, ds, heq, he, hsign, hds⟩ := exponentRun_cases
    (fractionRun ((minusRun (c :: rest)).2.dropWhile isDigitOr)).2
  · rw [hnil]
    rfl
  · have heplain : e ∉ marks := by
      rcases he with rfl | rfl
      · decide
      · decide
    have hdsplain : ∀ k ∈ ds, k ∉ marks := fun k hk => digit_plain (hds k hk)
    rw [heq, List.foldl_cons, see_plain heplain, List.foldl_append]
    rcases hsign with rfl | rfl | rfl
    · exact foldl_see_plain hdsplain
    · exact foldl_see_plain hdsplain
    · rw [List.foldl_cons, List.foldl_nil, see_dash]
      refine foldl_see_plain_ne hdsplain ?_
      rintro rfl
      exact hexp e heq

/-- A number leaves no `-` behind: its exponent has digits, or it does not read. -/
theorem moves_number (hc : isDigit c = true ∨ c = '-' ∧ digitNext rest = true)
    (hx : x = true → c ≠ '-') (h : number start (c :: rest) = .ok (t, after)) :
    Moves x y (c :: rest) t after := by
  obtain ⟨hafter, hread⟩ := number_ok h
  have hcs := numberRun_append isDigitOr (c :: rest)
  rw [hafter] at hcs
  have hexp : ∀ e, (numberRun isDigitOr (c :: rest)).1.exp ≠ [e, '-'] := by
    intro e heq
    have hfloat : (numberRun isDigitOr (c :: rest)).1.isFloat = true := by
      unfold Spelling.isFloat
      rw [heq]
      exact Bool.or_true _
    obtain ⟨-, f, -, hf⟩ | ⟨hnot, -⟩ := hread
    · generalize (numberRun isDigitOr (c :: rest)).1 = n at hf heq
      have htext : n.text.filter (· != '_') =
          (n.minus ++ (n.int ++ (n.frac ++ [e]))).filter (· != '_') ++ ['-'] := by
        have hsplit : n.text = (n.minus ++ (n.int ++ (n.frac ++ [e]))) ++ ['-'] := by
          unfold Spelling.text
          rw [heq, List.append_assoc, List.append_assoc, List.append_assoc]
          rfl
        rw [hsplit, List.filter_append]
        rfl
      rw [htext, utf8_append] at hf
      obtain ⟨l, b, hl, hb⟩ := EndsPlain.of_parseF64 hf
      have hlast : [45] = [b] := (List.append_inj' hl rfl).2
      exact hb (List.cons.inj hlast).1.symm
    · rw [hfloat] at hnot
      cases hnot
  have ht : weight t = 0 := by
    obtain ⟨-, f, rfl, -⟩ | ⟨-, i, rfl, -⟩ := hread
    · rfl
    · rfl
  exact .of_calm _ hcs.symm ht fun d => see_number hc hx hexp

theorem moves_less : Moves x y ('<' :: rest) (less rest).1 (less rest).2 := by
  unfold less
  split_ifs with h1 h2 h3 h4 h5
  · obtain ⟨h1, h1'⟩ := Bool.and_eq_true _ _ ▸ h1
    refine .of_calm ['<', '-', '>'] ?_ rfl fun d => rfl
    rw [cons_of_nextIs h1, cons_of_nextIs h1']
    rfl
  · obtain ⟨h2, h2'⟩ := Bool.and_eq_true _ _ ▸ h2
    refine .of_calm ['<', '=', '>'] ?_ rfl fun d => rfl
    rw [cons_of_nextIs h2, cons_of_nextIs h2']
    rfl
  · obtain ⟨h3, h3'⟩ := Bool.and_eq_true _ _ ▸ h3
    refine .of_calm ['<', '#', '>'] ?_ rfl fun d => rfl
    rw [cons_of_nextIs h3, cons_of_nextIs h3']
    rfl
  · refine .of_calm ['<', '='] ?_ rfl fun d => rfl
    rw [cons_of_nextIs h4]
    rfl
  · refine .of_calm ['<', '>'] ?_ rfl fun d => rfl
    rw [cons_of_nextIs h5]
    rfl
  · refine ⟨['<'], rfl, fun d => ?_⟩
    have hw : weight .lt = 0 := rfl
    rw [hw, Int.add_zero]
    refine .lt fun h => ?_
    rw [h, Bool.true_and, Bool.not_eq_true] at h3
    exact h3

theorem moves_param (h : param start rest = .ok (t, after)) : Moves x y ('$' :: rest) t after := by
  unfold param at h
  dsimp only at h
  split at h
  · cases h
  · split at h
    · cases h
    · split at h
      · cases h
      · obtain ⟨rfl, rfl⟩ := Prod.mk.inj (Except.ok.inj h)
        refine .of_plain ('$' :: rest.takeWhile isDigit) ?_ (List.cons_ne_nil _ _) ?_ rfl
        · rw [List.cons_append, List.takeWhile_append_dropWhile]
        · exact List.forall_mem_cons.mpr ⟨by decide, digits_plain rest⟩

theorem quote_of (hc : c = '"' ∨ c = '\'') : ∃ q, Quote c q := by
  rcases hc with rfl | rfl
  · exact ⟨34, .double⟩
  · exact ⟨39, .single⟩

theorem moves_text (hc : c = '"' ∨ c = '\'') (h : text start c rest = .ok (t, after)) :
    Moves x y (c :: rest) t after := by
  obtain ⟨q, hq⟩ := quote_of hc
  unfold text at h
  split at h
  · cases h
  · next s after' hs =>
    obtain ⟨ht, rfl⟩ := Prod.mk.inj (Except.ok.inj h)
    have hw : weight t = 0 := by
      rw [← ht]
      split
      · rfl
      · rfl
    obtain ⟨body, hbody, -⟩ := (quoted_gate (d := 0) hq).2 s after' hs
    refine ⟨c :: body, by rw [hbody]; rfl, fun d => ?_⟩
    obtain ⟨body', hbody', hsee⟩ := (quoted_gate (d := d) hq).2 s after' hs
    obtain rfl : body = body' := List.append_cancel_right (hbody.symm.trans hbody')
    rw [List.foldl_cons, see_quote hq, hsee, hw, Int.add_zero]
    exact .calm

theorem goesOn_plain (h : L.goesOn c = true) : c ∉ marks := by
  intro hm
  have hascii : isAscii c = true := decide_eq_true (marks_ascii hm).1
  unfold Letters.goesOn Letters.isAlphanumeric at h
  rw [L.alphabetic_ascii c hascii, L.numeric_ascii c hascii] at h
  have hall : (marks.all fun m => !(m.isAlpha || isDigit m || m == '_')) = true := by decide
  have hc := List.all_eq_true.mp hall c hm
  rw [h] at hc
  cases hc

theorem starts_goesOn (h : L.starts c = true) : L.goesOn c = true := by
  unfold Letters.starts at h
  unfold Letters.goesOn Letters.isAlphanumeric
  rcases Bool.or_eq_true _ _ ▸ h with h | h
  · rw [h]
    rfl
  · rw [h, Bool.or_true]

theorem nameRun_append (L : Letters) (cs : List Char) :
    (nameRun L cs).1 ++ (nameRun L cs).2 = cs := by
  induction cs with
  | nil => rfl
  | cons c rest ih =>
    rw [nameRun]
    split_ifs with h1 h2 h3
    · exact congrArg (c :: ·) ih
    · rw [h2.1, cons_of_nextIs h2.2]
      rfl
    · exact congrArg (c :: ·) ih
    · rfl

theorem nameRun_plain (L : Letters) (cs : List Char) : ∀ e ∈ (nameRun L cs).1, e ∉ marks := by
  induction cs with
  | nil => exact fun e he => (by cases he)
  | cons c rest ih =>
    rw [nameRun]
    split_ifs with h1 h2 h3
    · exact List.forall_mem_cons.mpr ⟨goesOn_plain h1, ih⟩
    · exact fun e he => by
        rcases List.mem_cons.mp he with rfl | he
        · decide
        · rw [List.mem_singleton.mp he]
          decide
    · refine List.forall_mem_cons.mpr ⟨?_, ih⟩
      rw [h3.1]
      decide
    · exact fun e he => (by cases he)

/-- **Every token moves the gate by its bracket** and leaves it between tokens. -/
theorem moves_token (hx : x = true → c ≠ '-')
    (hcomment : ¬ (c = '#' ∨ c = '-' ∧ nextIs rest '-' = true))
    (h : token L false last braces start c rest = .ok (t, after)) :
    Moves x y (c :: rest) t after := by
  have harm := token_arm L false last braces start c rest
  generalize token L false last braces start c rest = r at h harm
  cases harm with
  | punctuation hp =>
    obtain ⟨rfl, rfl⟩ := Prod.mk.inj (Except.ok.inj h)
    exact moves_punctuation hp
  | bracket hc =>
    have hb : bracket false last braces rest = (.lBracket, rest) := rfl
    rw [hb] at h
    obtain ⟨rfl, rfl⟩ := Prod.mk.inj (Except.ok.inj h)
    exact ⟨[c], rfl, fun d => by rw [hc]; exact .calm⟩
  | bar hc hnext =>
    obtain ⟨rfl, rfl⟩ := Prod.mk.inj (Except.ok.inj h)
    rw [hc]
    exact .of_two hnext (by decide) (by decide) rfl
  | minus hc _ =>
    obtain ⟨rfl, rfl⟩ := Prod.mk.inj (Except.ok.inj h)
    have hx' : x = false := Bool.eq_false_iff.mpr fun h => hx h hc
    have hnext : nextIs rest '-' = false :=
      Bool.eq_false_iff.mpr fun h => hcomment (.inr ⟨hc, h⟩)
    refine ⟨[c], rfl, fun d => ?_⟩
    rw [hc, hx']
    have hw : weight .minus = 0 := rfl
    rw [hw, Int.add_zero]
    exact .dash hnext
  | equals hc =>
    obtain ⟨rfl, rfl⟩ := Prod.mk.inj (Except.ok.inj h)
    rw [hc]
    unfold skipIf
    split
    · next hnext => exact .of_two hnext (by decide) (by decide) rfl
    · exact .of_one (by decide) rfl
  | bang hc hnext =>
    obtain ⟨rfl, rfl⟩ := Prod.mk.inj (Except.ok.inj h)
    rw [hc]
    exact .of_two hnext (by decide) (by decide) rfl
  | alone _ => cases h
  | less hc =>
    have h := Except.ok.inj h
    obtain rfl : (Ql.less rest).1 = t := congrArg Prod.fst h
    obtain rfl : (Ql.less rest).2 = after := congrArg Prod.snd h
    rw [hc]
    exact moves_less
  | greater hc =>
    have h := Except.ok.inj h
    rw [hc]
    split at h
    · next hnext =>
      obtain ⟨rfl, rfl⟩ := Prod.mk.inj h
      exact .of_two hnext (by decide) (by decide) rfl
    · obtain ⟨rfl, rfl⟩ := Prod.mk.inj h
      exact .of_one (by decide) rfl
  | param hc =>
    rw [hc]
    exact moves_param h
  | text hc => exact moves_text hc h
  | number hc _ => exact moves_number hc hx h
  | name hc =>
    obtain ⟨rfl, rfl⟩ := Prod.mk.inj (Except.ok.inj h)
    refine .of_plain (c :: (nameRun L rest).1) ?_ (List.cons_ne_nil _ _) ?_ rfl
    · rw [List.cons_append, nameRun_append]
    · exact List.forall_mem_cons.mpr ⟨goesOn_plain (starts_goesOn hc), nameRun_plain L rest⟩
  | other => cases h

/-- **A comment** leaves the gate at its end, waiting for the line's. -/
theorem comment_gate (hx : x = true → c ≠ '-')
    (hy : y = true → c = '#' → nextIs rest '>' = false)
    (hcomment : c = '#' ∨ c = '-' ∧ nextIs rest '-' = true) :
    Between d ((c :: rest.takeWhile (· != '\n')).foldl see (outside d x y))
      (rest.dropWhile (· != '\n')) := by
  have hline : ∀ e ∈ rest.takeWhile (· != '\n'), e ≠ '\n' := by
    intro e he
    have h := List.mem_takeWhile_imp he
    simpa using h
  have hstop : ∀ e, (rest.dropWhile (· != '\n')).head? = some e → e = '\n' := by
    intro e he
    have h := List.head?_dropWhile_not (· != '\n') rest
    rw [he] at h
    simpa using h
  refine .line ?_ hstop
  rw [List.foldl_cons]
  rcases hcomment with hc | ⟨hc, hnext⟩
  · rw [hc]
    cases y with
    | false =>
      rw [see_hash, foldl_see_commented hline]
      exact .inl rfl
    | true =>
      -- a `<#` that no `>` follows
      rw [see_lt_hash]
      cases rest with
      | nil => exact .inr rfl
      | cons e rest =>
        by_cases he : e = '\n'
        · rw [he]
          exact .inr rfl
        · have hgt : e ≠ '>' := by
            have h := hy rfl hc
            simpa [nextIs] using h
          have htake : (e :: rest).takeWhile (· != '\n') = e :: rest.takeWhile (· != '\n') :=
            List.takeWhile_cons_of_pos (bne_iff_ne.mpr he)
          rw [htake] at hline ⊢
          rw [List.foldl_cons, see_hashed hgt he,
            foldl_see_commented fun k hk => hline k (List.mem_cons_of_mem _ hk)]
          exact .inl rfl
  · have hx' : x = false := Bool.eq_false_iff.mpr fun htrue => hx htrue hc
    rw [cons_of_nextIs hnext] at hline ⊢
    have htake : ('-' :: rest.tail).takeWhile (· != '\n') =
        '-' :: rest.tail.takeWhile (· != '\n') := List.takeWhile_cons_of_pos rfl
    rw [htake] at hline ⊢
    rw [hc, hx', see_dash, List.foldl_cons, see_dashes,
      foldl_see_commented fun k hk => hline k (List.mem_cons_of_mem _ hk)]
    exact .inl rfl

end Token

/-! ## 6. The whole text -/

/-- `reading`'s test of a refusal: the text's end is what refused it. -/
def endsUnterminated (e : Error) : Bool :=
  decide (e.kind = .query) && unterminated.toList.isSuffixOf e.text.toList

/-- The opening tokens less the closing ones. -/
def openings (ts : List Token) : Int :=
  (ts.countP fun t => opening t.tok : Int) - (ts.countP fun t => closing t.tok : Int)

section Run

variable {L : Letters} {last : Option Tok} {braces start : Nat} {c : Char} {cs rest : List Char}
  {d : Int} {g : Unclosed} {e : Error} {x y : Bool}

theorem openings_cons (t : Token) (ts : List Token) :
    openings (t :: ts) = weight t.tok + openings ts := by
  unfold openings weight
  rw [List.countP_cons, List.countP_cons]
  split
  · split
    · push_cast
      omega
    · push_cast
      omega
  · split
    · push_cast
      omega
    · push_cast
      omega

/-- A refusal whose words end otherwise. -/
theorem ends_other (front : String) {back : String} {k : Char}
    (hback : back.toList.getLast? = some k) (hk : k ≠ 'g') :
    endsUnterminated (.query (front ++ back)) = false := by
  rw [Bool.eq_false_iff]
  intro h
  unfold endsUnterminated at h
  obtain ⟨init, hinit⟩ := List.isSuffixOf_iff_suffix.mp (Bool.and_eq_true _ _ ▸ h).2
  have htext : (Error.query (front ++ back)).text = front ++ back := rfl
  rw [htext, String.toList_append] at hinit
  have hlast := congrArg List.getLast? hinit
  rw [List.getLast?_append, List.getLast?_append, hback] at hlast
  have hg : unterminated.toList.getLast? = some 'g' := by decide
  rw [hg] at hlast
  exact hk (Option.some.inj hlast).symm

theorem param_error (h : param start rest = .error e) : endsUnterminated e = false := by
  unfold param at h
  dsimp only at h
  split at h
  · obtain rfl := Except.error.inj h
    exact ends_other _ (k := '`') (by decide) (by decide)
  · split at h
    · obtain rfl := Except.error.inj h
      exact ends_other _ (k := 'h') (by decide) (by decide)
    · split at h
      · obtain rfl := Except.error.inj h
        have hback : "parameters start at $1".toList.getLast? = some '1' := by decide
        exact ends_other "" hback (by decide)
      · cases h

theorem number_error (h : number start cs = .error e) : endsUnterminated e = false := by
  unfold number at h
  dsimp only at h
  split at h
  · split at h
    · obtain rfl := Except.error.inj h
      exact ends_other _ (k := '`') (by decide) (by decide)
    · cases h
  · split at h
    · obtain rfl := Except.error.inj h
      exact ends_other _ (k := '`') (by decide) (by decide)
    · cases h

/-- **Only an open string is refused so.** -/
theorem token_error (h : token L false last braces start c rest = .error e)
    (he : endsUnterminated e = true) :
    ((c :: rest).foldl see (outside d x y)).quote ≠ 0 := by
  have harm := token_arm L false last braces start c rest
  generalize token L false last braces start c rest = r at h harm
  cases harm with
  | alone _ =>
    obtain rfl := Except.error.inj h
    rw [ends_other _ (k := 'd') (by decide) (by decide)] at he
    cases he
  | other =>
    obtain rfl := Except.error.inj h
    rw [ends_other _ (k := '`') (by decide) (by decide)] at he
    cases he
  | param _ =>
    rw [param_error h] at he
    cases he
  | number _ _ =>
    rw [number_error h] at he
    cases he
  | text hc =>
    obtain ⟨q, hq⟩ := quote_of hc
    unfold text at h
    split at h
    · next hnone =>
      rw [List.foldl_cons, see_quote hq]
      exact (quoted_gate hq).1 hnone
    · cases h
  | punctuation _ => cases h
  | bracket _ => cases h
  | bar _ _ => cases h
  | minus _ _ => cases h
  | equals _ => cases h
  | bang _ _ => cases h
  | less _ => cases h
  | greater _ => cases h
  | name _ => cases h

/-- Between two tokens, and not at the end of a comment's line. -/
theorem Between.outside (h : Between d g (c :: rest)) (hc : c ≠ '\n') :
    ∃ x y, g = outside d x y ∧ (x = true → c ≠ '-') ∧
      (y = true → c = '#' → nextIs rest '>' = false) := by
  cases h with
  | calm => exact ⟨false, false, rfl, fun h => (by cases h), fun h => (by cases h)⟩
  | dash h =>
    refine ⟨true, false, rfl, fun _ hdash => ?_, fun h => (by cases h)⟩
    rw [hdash] at h
    cases h
  | lt h =>
    refine ⟨false, true, rfl, fun h => (by cases h), fun _ hhash => h ?_⟩
    rw [hhash]
    rfl
  | line _ h => exact absurd (h c rfl) hc

/-- A space: the end of a comment's line is one. -/
theorem Between.space (h : Between d g (c :: rest)) (hc : isWhitespace c = true) :
    Between d (see g c) rest := by
  have hplain : c ∉ marks := by
    intro hm
    have hall : (marks.all fun m => !isWhitespace m) = true := by decide
    have hnot := List.all_eq_true.mp hall c hm
    rw [hc] at hnot
    cases hnot
  by_cases hline : c = '\n'
  · subst hline
    cases h with
    | calm =>
      rw [see_plain hplain]
      exact .calm
    | dash _ =>
      rw [see_plain hplain]
      exact .calm
    | lt _ =>
      rw [see_plain hplain]
      exact .calm
    | line hg _ =>
      rcases hg with rfl | rfl
      · exact .calm
      · exact .calm
  · obtain ⟨x, y, rfl, -, -⟩ := h.outside hline
    rw [see_plain hplain]
    exact .calm

/-- At the end of the text. -/
theorem Between.ended (h : Between d g []) : g.quote = 0 ∧ g.depth = d := by
  cases h with
  | calm => exact ⟨rfl, rfl⟩
  | dash _ => exact ⟨rfl, rfl⟩
  | lt _ => exact ⟨rfl, rfl⟩
  | line hg _ =>
    rcases hg with rfl | rfl
    · exact ⟨rfl, rfl⟩
    · exact ⟨rfl, rfl⟩

/-- **The gate over a text from a place between tokens.** -/
theorem lexFrom_gate (L : Letters) (last : Option Tok) (braces start : Nat) (cs : List Char)
    (hg : Between d g cs) :
    (∀ ts, lexFrom L false last braces start cs = .ok ts →
      (cs.foldl see g).quote = 0 ∧ (cs.foldl see g).depth = d + openings ts) ∧
    ∀ e, lexFrom L false last braces start cs = .error e → endsUnterminated e = true →
      (cs.foldl see g).quote ≠ 0 := by
  induction last, braces, start, cs using lexFrom.induct L false generalizing d g with
  | case1 last braces pos =>
    rw [lexFrom]
    refine ⟨fun ts h => ?_, fun e h => (by cases h)⟩
    obtain rfl := Except.ok.inj h
    obtain ⟨hquote, hdepth⟩ := hg.ended
    refine ⟨hquote, ?_⟩
    rw [List.foldl_nil, hdepth]
    exact (Int.add_zero d).symm
  | case2 last braces pos c rest hc ih =>
    rw [lexFrom, if_pos hc, List.foldl_cons]
    exact ih (hg.space hc)
  | case3 last braces pos c rest hc hcomment ih =>
    have hline : c ≠ '\n' := by
      rintro rfl
      exact hc rfl
    obtain ⟨x, y, rfl, hx, hy⟩ := hg.outside hline
    rw [lexFrom, if_neg hc, if_pos hcomment]
    have hsplit : c :: rest =
        (c :: rest.takeWhile (· != '\n')) ++ rest.dropWhile (· != '\n') := by
      rw [List.cons_append, List.takeWhile_append_dropWhile]
    have hfold : ∀ G, (c :: rest).foldl see G = (rest.dropWhile (· != '\n')).foldl see
        ((c :: rest.takeWhile (· != '\n')).foldl see G) := fun G => by
      conv_lhs => rw [hsplit]
      rw [List.foldl_append]
    rw [hfold]
    exact ih (comment_gate hx hy hcomment)
  | case4 last braces pos c rest hc hcomment e htoken =>
    have hline : c ≠ '\n' := by
      rintro rfl
      exact hc rfl
    obtain ⟨x, y, rfl, hx, hy⟩ := hg.outside hline
    rw [lexFrom_error hc hcomment htoken]
    refine ⟨fun ts h => (by cases h), fun e' h he => ?_⟩
    obtain rfl := Except.error.inj h
    exact token_error htoken he
  | case5 last braces pos c rest hc hcomment t after htoken ih =>
    have hline : c ≠ '\n' := by
      rintro rfl
      exact hc rfl
    obtain ⟨x, y, rfl, hx, -⟩ := hg.outside hline
    obtain ⟨body, hbody, hmoves⟩ := moves_token (y := y) hx hcomment htoken
    obtain ⟨hok, herror⟩ := ih (hmoves d)
    rw [lexFrom_token hc hcomment htoken, hbody, List.foldl_append]
    refine ⟨fun ts h => ?_, fun e h he => ?_⟩
    · cases hrest : lexFrom L false (some t) (nest t braces)
          (pos + 1 + (rest.length - after.length)) after with
      | error e =>
        rw [hrest] at h
        cases h
      | ok ts' =>
        rw [hrest] at h
        obtain rfl := Except.ok.inj h
        obtain ⟨hquote, hdepth⟩ := hok ts' hrest
        refine ⟨hquote, ?_⟩
        rw [hdepth, openings_cons, Int.add_assoc]
    · refine herror e ?_ he
      cases hrest : lexFrom L false (some t) (nest t braces)
          (pos + 1 + (rest.length - after.length)) after with
      | error e' =>
        rw [hrest] at h
        exact h
      | ok ts' =>
        rw [hrest] at h
        cases h

end Run

/-- **The gate reads as the lexer.**  However a text is cut into pieces: where `tokenize` accepts
it the gate has ended outside strings, as deep as there are more brackets opened than closed, and
where `tokenize` refuses it for a string that does not end the gate is inside one. -/
theorem gate_reads_as_lexer (L : Letters) (pieces : List String) :
    (∀ ts, tokenize L (String.join pieces) = .ok ts →
      (pieces.foldl feed {}).quote = 0 ∧ (pieces.foldl feed {}).depth = openings ts) ∧
    ∀ e, tokenize L (String.join pieces) = .error e → endsUnterminated e = true →
      (pieces.foldl feed {}).quote ≠ 0 := by
  have hstart : Between 0 {} (String.join pieces).toList := .calm
  have h := lexFrom_gate L none 0 0 _ hstart
  rw [feed_pieces]
  refine ⟨fun ts hts => ?_, h.2⟩
  obtain ⟨hquote, hdepth⟩ := h.1 ts hts
  exact ⟨hquote, hdepth.trans (Int.zero_add _)⟩

end Fenec.Ql
