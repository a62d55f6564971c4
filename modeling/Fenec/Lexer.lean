/-
# The lexer

`lex_with`: a text into tokens, each with the place of its first character.  The source walks the
bytes with an index and reads a character whole only where one outside ASCII stands; here a text is
its characters, what is left of it is passed on, and a place counts characters, which is how the
source counts places too.

Two of the source's functions are this one body: `tokenize`, and `tokenize_vectors`, which at a `[`
first tries `numbers_at` for a list of numbers alone.  That is the only thing the flag decides.

What Unicode calls a letter and a number is a table of the standard library.  It is a parameter,
of which the lexer's proofs know what it says of ASCII and nothing else.
-/
import Fenec.Query
import Fenec.Time
import Fenec.Clinger

namespace Fenec.Ql

open Lib Case
open Time (isDigit isWhitespace)

/-! ## 1. Tokens -/

/-- `Tok`. -/
inductive Tok where
  | ident (s : String)
  | str (s : String)
  | single (s : String)
  | int (i : Int64)
  | float (f : F64)
  | param (n : Nat)
  | vector (v : List F32)
  | lBrace
  | rBrace
  | lParen
  | rParen
  | lBracket
  | rBracket
  | comma
  | colon
  | at_
  | star
  | plus
  | minus
  | slash
  | lt
  | le
  | gt
  | ge
  | eq
  | ne
  | tilde
  | distance (op : String)
  | semi
  | eof

/-- `Token`. -/
structure Token where
  tok : Tok
  pos : Nat

/-- The standard library's tables of letters and numbers, and what they say of ASCII. -/
structure Letters where
  isAlphabetic : Char → Bool
  isNumeric : Char → Bool
  alphabetic_ascii : ∀ c, isAscii c = true → isAlphabetic c = c.isAlpha
  numeric_ascii : ∀ c, isAscii c = true → isNumeric c = isDigit c

namespace Letters

/-- `char::is_alphanumeric`. -/
def isAlphanumeric (L : Letters) (c : Char) : Bool := L.isAlphabetic c || L.isNumeric c

/-- What a name starts with. -/
def starts (L : Letters) (c : Char) : Bool := L.isAlphabetic c || c == '_'

/-- What a name goes on with. -/
def goesOn (L : Letters) (c : Char) : Bool := L.isAlphanumeric c || c == '_'

end Letters

/-- `subtracts`: whether a `-` after a token takes away. -/
def subtracts : Option Tok → Bool
  | some (.ident _) | some (.str _) | some (.single _) | some (.int _) | some (.float _)
  | some (.param _) | some (.vector _) | some .rParen | some .rBracket => true
  | _ => false

/-- What the next character is. -/
def nextIs (cs : List Char) (want : Char) : Bool := cs.head? == some want

/-- Whether a digit is next. -/
def digitNext (cs : List Char) : Bool := cs.head?.any isDigit

/-- A text less its first character, where that is the one wanted. -/
def skipIf (cs : List Char) (want : Char) : List Char := if nextIs cs want then cs.tail else cs

/-! ## 2. Numbers

A number's text and what follows it.  `lex_with` and `numbers_at` scan the same fraction and the
same exponent; the first allows `_` among the digits before them. -/

/-- A minus sign in front. -/
def minusRun : List Char → List Char × List Char
  | [] => ([], [])
  | c :: cs => if c = '-' then (['-'], cs) else ([], c :: cs)

/-- A point and digits, where a digit follows the point. -/
def fractionRun : List Char → List Char × List Char
  | [] => ([], [])
  | c :: cs =>
    if c = '.' ∧ digitNext cs = true then (c :: cs.takeWhile isDigit, cs.dropWhile isDigit)
    else ([], c :: cs)

/-- The sign of an exponent. -/
def signRun : List Char → List Char × List Char
  | [] => ([], [])
  | c :: cs => if c = '+' ∨ c = '-' then ([c], cs) else ([], c :: cs)

/-- An exponent: its digits may be none. -/
def exponentRun : List Char → List Char × List Char
  | [] => ([], [])
  | c :: cs =>
    if c = 'e' ∨ c = 'E' then
      let (sign, cs) := signRun cs
      (c :: (sign ++ cs.takeWhile isDigit), cs.dropWhile isDigit)
    else ([], c :: cs)

/-- What a number's text is made of. -/
structure Spelling where
  minus : List Char
  int : List Char
  frac : List Char
  exp : List Char

namespace Spelling

/-- The text. -/
def text (n : Spelling) : List Char := n.minus ++ (n.int ++ (n.frac ++ n.exp))

/-- Whether the text is a decimal number's. -/
def isFloat (n : Spelling) : Bool := !n.frac.isEmpty || !n.exp.isEmpty

end Spelling

/-- A number in front, its digits before the point told by `int`, and what follows it. -/
def numberRun (int : Char → Bool) (cs : List Char) : Spelling × List Char :=
  let (minus, cs) := minusRun cs
  let (frac, after) := fractionRun (cs.dropWhile int)
  let (exp, after) := exponentRun after
  (⟨minus, cs.takeWhile int, frac, exp⟩, after)

/-! ## 3. Numbers alone between brackets -/

/-- The spaces that `numbers_at` skips. -/
def isSpace (c : Char) : Bool := c == ' ' || c == '\t' || c == '\n' || c == '\r'

/-- `parse_f64` or `parse_i64` of a number's text, made an `f32`. -/
def roundedOnce (n : Spelling) : Option F32 :=
  if n.isFloat then (Num.parseF64 (utf8 n.text)).map Ieee.convert
  else (Num.parseI64 (utf8 n.text)).map fun i => Ieee.ofInt i.toInt

/-- One number of `numbers_at`: by `clinger` where it reads it, else the general way.  What
`clinger` has gone past is ASCII, as many characters as bytes. -/
def oneNumber (cs : List Char) : Option (F32 × List Char) :=
  match Num.clinger (utf8 cs) 0 with
  | (some x, k) => some (Ieee.convert x, cs.drop k)
  | (none, _) =>
    if digitNext (minusRun cs).2 then
      (roundedOnce (numberRun isDigit cs).1).map (·, (numberRun isDigit cs).2)
    else none

theorem length_minusRun_le (cs : List Char) : (minusRun cs).2.length ≤ cs.length := by
  cases cs with
  | nil => exact Nat.le_refl _
  | cons c cs =>
    rw [minusRun]
    split
    · exact Nat.le_succ _
    · exact Nat.le_refl _

theorem length_fractionRun_le (cs : List Char) : (fractionRun cs).2.length ≤ cs.length := by
  cases cs with
  | nil => exact Nat.le_refl _
  | cons c cs =>
    rw [fractionRun]
    split
    · exact Nat.le_succ_of_le (List.dropWhile_sublist _).length_le
    · exact Nat.le_refl _

theorem length_signRun_le (cs : List Char) : (signRun cs).2.length ≤ cs.length := by
  cases cs with
  | nil => exact Nat.le_refl _
  | cons c cs =>
    rw [signRun]
    split
    · exact Nat.le_succ _
    · exact Nat.le_refl _

theorem length_exponentRun_le (cs : List Char) : (exponentRun cs).2.length ≤ cs.length := by
  cases cs with
  | nil => exact Nat.le_refl _
  | cons c cs =>
    rw [exponentRun]
    split
    · exact Nat.le_succ_of_le
        ((List.dropWhile_sublist _).length_le.trans (length_signRun_le cs))
    · exact Nat.le_refl _

theorem length_numberRun_le (int : Char → Bool) (cs : List Char) :
    (numberRun int cs).2.length ≤ ((minusRun cs).2.dropWhile int).length :=
  (length_exponentRun_le _).trans (length_fractionRun_le _)

theorem length_oneNumber_le {cs after : List Char} {x : F32} (h : oneNumber cs = some (x, after)) :
    after.length ≤ cs.length := by
  unfold oneNumber at h
  split at h
  · obtain ⟨-, rfl⟩ := Prod.mk.inj (Option.some.inj h)
    exact (List.drop_sublist _ _).length_le
  · split at h
    · obtain ⟨y, -, h⟩ := Option.map_eq_some_iff.mp h
      obtain ⟨-, rfl⟩ := Prod.mk.inj h
      exact (length_numberRun_le _ _).trans
        ((List.dropWhile_sublist _).length_le.trans (length_minusRun_le cs))
    · cases h

/-- `numbers_at`, past its `[`: the numbers up to the `]`, and what follows it. -/
def numbersAt (cs : List Char) : Option (List F32 × List Char) :=
  match _hone : oneNumber (cs.dropWhile isSpace) with
  | none => none
  | some (x, after) =>
    match _hafter : after.dropWhile isSpace with
    | [] => none
    | c :: rest =>
      if c = ',' then (numbersAt rest).map fun (v, end_) => (x :: v, end_)
      else if c = ']' then some ([x], rest)
      else none
termination_by cs.length
decreasing_by
  have h1 := length_oneNumber_le _hone
  have h2 : (cs.dropWhile isSpace).length ≤ cs.length := (List.dropWhile_sublist _).length_le
  have h3 : (after.dropWhile isSpace).length ≤ after.length := (List.dropWhile_sublist _).length_le
  rw [_hafter, List.length_cons] at h3
  omega

/-! ## 4. The arms of the lexer

Each takes the place of the token for its errors, and answers the token and what follows it. -/

/-- The characters that are a token whatever is around them. -/
def punctuations : List (Char × Tok) :=
  [('{', .lBrace), ('}', .rBrace), ('(', .lParen), (')', .rParen), (']', .rBracket), (',', .comma),
    (':', .colon), ('@', .at_), ('*', .star), ('~', .tilde), ('+', .plus), ('/', .slash),
    (';', .semi)]

/-- The token such a character is. -/
def punctuation (c : Char) : Option Tok := punctuations.lookup c

/-- Whether the token before is an `in` or a `ranges`, whose lists keep their numbers. -/
def afterIn : Option Tok → Bool
  | some (.ident w) => sameName w "in" || sameName w "ranges"
  | _ => false

/-- `[`. -/
def bracket (vectors : Bool) (last : Option Tok) (braces : Nat) (rest : List Char) :
    Tok × List Char :=
  if vectors && decide (braces < 2) && !afterIn last then
    match numbersAt rest with
    | some (v, after) => (.vector v, after)
    | none => (.lBracket, rest)
  else (.lBracket, rest)

/-- `<`. -/
def less (rest : List Char) : Tok × List Char :=
  if nextIs rest '-' && nextIs rest.tail '>' then (.distance "<->", rest.drop 2)
  else if nextIs rest '=' && nextIs rest.tail '>' then (.distance "<=>", rest.drop 2)
  else if nextIs rest '#' && nextIs rest.tail '>' then (.distance "<#>", rest.drop 2)
  else if nextIs rest '=' then (.le, rest.tail)
  else if nextIs rest '>' then (.ne, rest.tail)
  else (.lt, rest)

/-- `$`. -/
def param (start : Nat) (rest : List Char) : Result (Tok × List Char) :=
  let digits := rest.takeWhile isDigit
  if digits.isEmpty then .error (.query s!"position {start}: expected a number after `$`")
  else match (Num.parseI64 (utf8 digits)).filter (0 ≤ ·) with
    | none => .error (.query s!"position {start}: no parameter is numbered that high")
    | some n =>
      if n = 0 then .error (.query "parameters start at $1")
      else .ok (.param (n.toInt.toNat - 1), rest.dropWhile isDigit)

/-- What an escaped character stands for. -/
def escaped (e : Char) : Char :=
  if e = 'n' then '\n'
  else if e = 't' then '\t'
  else if e = 'r' then '\r'
  else if e = '0' then Char.ofNat 0
  else e

/-- A text past its opening quote: what it holds and what follows it, nothing where it does not
end.  A backslash that ends the source is a character like any other. -/
def quoted (quote : Char) : List Char → Option (List Char × List Char)
  | [] => none
  | [c] => if c = quote then some ([], []) else none
  | c :: d :: rest =>
    if c = '\\' then (quoted quote rest).map fun (s, after) => (escaped d :: s, after)
    else if c = quote then
      if quote = '\'' ∧ d = '\'' then (quoted quote rest).map fun (s, after) => ('\'' :: s, after)
      else some ([], d :: rest)
    else (quoted quote (d :: rest)).map fun (s, after) => (c :: s, after)

/-- `UNTERMINATED`. -/
def unterminated : String := "unterminated string"

/-- `"` and `'`. -/
def text (start : Nat) (quote : Char) (rest : List Char) : Result (Tok × List Char) :=
  match quoted quote rest with
  | none => .error (.query s!"position {start}: {unterminated}")
  | some (s, after) =>
    .ok (if quote = '"' then .str (String.ofList s) else .single (String.ofList s), after)

/-- A digit, and `_` among them. -/
def isDigitOr (c : Char) : Bool := isDigit c || c == '_'

/-- A digit, or a `-` before one. -/
def number (start : Nat) (cs : List Char) : Result (Tok × List Char) :=
  let (n, after) := numberRun isDigitOr cs
  let plain := n.text.filter (· != '_')
  if n.isFloat then
    match Num.parseF64 (utf8 plain) with
    | none =>
      .error (.query s!"position {start}: invalid decimal number `{String.ofList plain}`")
    | some f => .ok (.float f, after)
  else
    match Num.parseI64 (utf8 plain) with
    | none => .error (.query s!"position {start}: invalid integer `{String.ofList plain}`")
    | some i => .ok (.int i, after)

/-- A name past its first character: a dot between two names is a path, and a dot before a `*`
ends it. -/
def nameRun (L : Letters) : List Char → List Char × List Char
  | [] => ([], [])
  | c :: rest =>
    if L.goesOn c then (c :: (nameRun L rest).1, (nameRun L rest).2)
    else if c = '.' ∧ nextIs rest '*' = true then (['.', '*'], rest.tail)
    else if c = '.' ∧ rest.head?.any L.starts = true then
      (c :: (nameRun L rest).1, (nameRun L rest).2)
    else ([], c :: rest)

/-- The `match` of `lex_with`: the token that a character starts. -/
def token (L : Letters) (vectors : Bool) (last : Option Tok) (braces start : Nat) (c : Char)
    (rest : List Char) : Result (Tok × List Char) :=
  match punctuation c with
  | some t => .ok (t, rest)
  | none =>
    if c = '[' then .ok (bracket vectors last braces rest)
    else if c = '|' ∧ nextIs rest '|' = true then .ok (.plus, rest.tail)
    else if c = '-' ∧ (digitNext rest = false ∨ subtracts last = true) then .ok (.minus, rest)
    else if c = '=' then .ok (.eq, skipIf rest '=')
    else if c = '!' then
      if nextIs rest '=' then .ok (.ne, rest.tail)
      else .error (.query s!"position {start}: `!` alone is invalid")
    else if c = '<' then .ok (less rest)
    else if c = '>' then .ok (if nextIs rest '=' then (.ge, rest.tail) else (.gt, rest))
    else if c = '$' then param start rest
    else if c = '"' ∨ c = '\'' then text start c rest
    else if isDigit c = true ∨ c = '-' ∧ digitNext rest = true then number start (c :: rest)
    else if L.starts c then
      .ok (.ident (String.ofList (c :: (nameRun L rest).1)), (nameRun L rest).2)
    else .error (.query s!"position {start}: unexpected character `{c}`")

/-- The braces open after a token. -/
def nest (t : Tok) (braces : Nat) : Nat :=
  match t with
  | .lBrace => braces + 1
  | .rBrace => braces - 1
  | _ => braces

/-- **What a character starts**: the arm that is taken, what it asks of the text and its answer. -/
inductive Arm (L : Letters) (vectors : Bool) (last : Option Tok) (braces start : Nat) (c : Char)
    (rest : List Char) : Result (Tok × List Char) → Prop where
  | punctuation {t : Tok} (h : punctuation c = some t) : Arm L vectors last braces start c rest
      (.ok (t, rest))
  | bracket (h : c = '[') : Arm L vectors last braces start c rest
      (.ok (bracket vectors last braces rest))
  | bar (h : c = '|') (hnext : nextIs rest '|' = true) : Arm L vectors last braces start c rest
      (.ok (.plus, rest.tail))
  | minus (h : c = '-') (hnext : digitNext rest = false ∨ subtracts last = true) :
      Arm L vectors last braces start c rest (.ok (.minus, rest))
  | equals (h : c = '=') : Arm L vectors last braces start c rest (.ok (.eq, skipIf rest '='))
  | bang (h : c = '!') (hnext : nextIs rest '=' = true) : Arm L vectors last braces start c rest
      (.ok (.ne, rest.tail))
  | alone (h : c = '!') : Arm L vectors last braces start c rest
      (.error (.query s!"position {start}: `!` alone is invalid"))
  | less (h : c = '<') : Arm L vectors last braces start c rest (.ok (less rest))
  | greater (h : c = '>') : Arm L vectors last braces start c rest
      (.ok (if nextIs rest '=' then (.ge, rest.tail) else (.gt, rest)))
  | param (h : c = '$') : Arm L vectors last braces start c rest (param start rest)
  | text (h : c = '"' ∨ c = '\'') : Arm L vectors last braces start c rest (text start c rest)
  | number (h : isDigit c = true ∨ c = '-' ∧ digitNext rest = true)
      (hlast : c = '-' → subtracts last = false) : Arm L vectors last braces start c rest
      (number start (c :: rest))
  | name (h : L.starts c = true) : Arm L vectors last braces start c rest
      (.ok (.ident (String.ofList (c :: (nameRun L rest).1)), (nameRun L rest).2))
  | other : Arm L vectors last braces start c rest
      (.error (.query s!"position {start}: unexpected character `{c}`"))

theorem token_arm (L : Letters) (vectors : Bool) (last : Option Tok) (braces start : Nat) (c : Char)
    (rest : List Char) : Arm L vectors last braces start c rest
      (token L vectors last braces start c rest) := by
  unfold token
  split
  · next h => exact .punctuation h
  by_cases hbracket : c = '['
  · rw [if_pos hbracket]
    exact .bracket hbracket
  rw [if_neg hbracket]
  by_cases hbar : c = '|' ∧ nextIs rest '|' = true
  · rw [if_pos hbar]
    exact .bar hbar.1 hbar.2
  rw [if_neg hbar]
  by_cases hminus : c = '-' ∧ (digitNext rest = false ∨ subtracts last = true)
  · rw [if_pos hminus]
    exact .minus hminus.1 hminus.2
  rw [if_neg hminus]
  by_cases heq : c = '='
  · rw [if_pos heq]
    exact .equals heq
  rw [if_neg heq]
  by_cases hbang : c = '!'
  · rw [if_pos hbang]
    by_cases hnext : nextIs rest '=' = true
    · rw [if_pos hnext]
      exact .bang hbang hnext
    · rw [if_neg hnext]
      exact .alone hbang
  rw [if_neg hbang]
  by_cases hless : c = '<'
  · rw [if_pos hless]
    exact .less hless
  rw [if_neg hless]
  by_cases hgreater : c = '>'
  · rw [if_pos hgreater]
    exact .greater hgreater
  rw [if_neg hgreater]
  by_cases hparam : c = '$'
  · rw [if_pos hparam]
    exact .param hparam
  rw [if_neg hparam]
  by_cases htext : c = '"' ∨ c = '\''
  · rw [if_pos htext]
    exact .text htext
  rw [if_neg htext]
  by_cases hnumber : isDigit c = true ∨ c = '-' ∧ digitNext rest = true
  · rw [if_pos hnumber]
    refine .number hnumber fun hc => ?_
    rw [not_and_or, not_or, Bool.not_eq_true] at hminus
    exact (hminus.resolve_left fun h => h hc).2
  rw [if_neg hnumber]
  by_cases hname : L.starts c = true
  · rw [if_pos hname]
    exact .name hname
  · rw [if_neg hname]
    exact .other

/-! ## 5. The loop -/

section Shorter

variable {L : Letters} {vectors : Bool} {last : Option Tok} {braces start : Nat} {c : Char}
  {cs rest after : List Char} {t : Tok}

/-- What a list of numbers is: a number, and a `]` or a `,` and a list. -/
theorem numbersAt_cases {v : List F32} (h : numbersAt cs = some (v, after)) :
    ∃ x r, oneNumber (cs.dropWhile isSpace) = some (x, r) ∧
      ((r.dropWhile isSpace = ']' :: after ∧ v = [x]) ∨
        ∃ rest w, r.dropWhile isSpace = ',' :: rest ∧ numbersAt rest = some (w, after) ∧
          v = x :: w) := by
  rw [numbersAt.eq_def] at h
  split at h
  · cases h
  · next x r hone =>
    refine ⟨x, r, hone, ?_⟩
    split at h
    · cases h
    · next c rest hr =>
      split_ifs at h with hcomma hclose
      · obtain ⟨⟨w, end_⟩, hw, h⟩ := Option.map_eq_some_iff.mp h
        obtain ⟨rfl, rfl⟩ := Prod.mk.inj h
        exact .inr ⟨rest, w, by rw [hr, hcomma], hw, rfl⟩
      · obtain ⟨rfl, rfl⟩ := Prod.mk.inj (Option.some.inj h)
        exact .inl ⟨by rw [hr, hclose], rfl⟩

theorem length_numbersAt_le {v : List F32} (h : numbersAt cs = some (v, after)) :
    after.length ≤ cs.length := by
  induction v generalizing cs with
  | nil =>
    obtain ⟨x, r, -, ⟨-, hv⟩ | ⟨rest, w, -, -, hv⟩⟩ := numbersAt_cases h
    · cases hv
    · cases hv
  | cons y v ih =>
    obtain ⟨x, r, hone, hr⟩ := numbersAt_cases h
    have hle := length_oneNumber_le hone
    have hcs : (cs.dropWhile isSpace).length ≤ cs.length := (List.dropWhile_sublist _).length_le
    have hskip : (r.dropWhile isSpace).length ≤ r.length := (List.dropWhile_sublist _).length_le
    rcases hr with ⟨hr, -⟩ | ⟨rest, w, hr, hw, hv⟩
    · rw [hr, List.length_cons] at hskip
      omega
    · obtain ⟨-, rfl⟩ := List.cons.inj hv
      have hrest := ih hw
      rw [hr, List.length_cons] at hskip
      omega

theorem length_skipIf_le (cs : List Char) (want : Char) : (skipIf cs want).length ≤ cs.length := by
  unfold skipIf
  split
  · exact (List.tail_sublist cs).length_le
  · exact Nat.le_refl _

theorem length_bracket_le : (bracket vectors last braces rest).2.length ≤ rest.length := by
  unfold bracket
  split
  · split
    · next h => exact length_numbersAt_le h
    · exact Nat.le_refl _
  · exact Nat.le_refl _

theorem length_less_le : (less rest).2.length ≤ rest.length := by
  unfold less
  split_ifs
  · exact (List.drop_sublist _ _).length_le
  · exact (List.drop_sublist _ _).length_le
  · exact (List.drop_sublist _ _).length_le
  · exact (List.tail_sublist _).length_le
  · exact (List.tail_sublist _).length_le
  · exact Nat.le_refl _

theorem length_param_le (h : param start rest = .ok (t, after)) : after.length ≤ rest.length := by
  unfold param at h
  dsimp only at h
  split at h
  · cases h
  · split at h
    · cases h
    · split at h
      · cases h
      · obtain ⟨-, rfl⟩ := Prod.mk.inj (Except.ok.inj h)
        exact (List.dropWhile_sublist _).length_le

theorem length_quoted_le {q : Char} {s : List Char} (h : quoted q cs = some (s, after)) :
    after.length ≤ cs.length := by
  induction cs using quoted.induct q generalizing s with
  | case1 => cases h
  | case2 =>
    rw [quoted, if_pos rfl] at h
    obtain ⟨-, rfl⟩ := Prod.mk.inj (Option.some.inj h)
    exact Nat.zero_le _
  | case3 c hc =>
    rw [quoted, if_neg hc] at h
    cases h
  | case4 d rest ih =>
    rw [quoted, if_pos rfl] at h
    obtain ⟨⟨s', after'⟩, hs, h⟩ := Option.map_eq_some_iff.mp h
    obtain ⟨-, rfl⟩ := Prod.mk.inj h
    exact (ih hs).trans (Nat.le_add_right _ 2)
  | case5 d rest hd hq ih =>
    rw [quoted, if_neg hq, if_pos rfl, if_pos hd] at h
    obtain ⟨⟨s', after'⟩, hs, h⟩ := Option.map_eq_some_iff.mp h
    obtain ⟨-, rfl⟩ := Prod.mk.inj h
    exact (ih hs).trans (Nat.le_add_right _ 2)
  | case6 d rest hd hq =>
    rw [quoted, if_neg hq, if_pos rfl, if_neg hd] at h
    obtain ⟨-, rfl⟩ := Prod.mk.inj (Option.some.inj h)
    exact Nat.le_succ _
  | case7 c d rest hc hq ih =>
    rw [quoted, if_neg hc, if_neg hq] at h
    obtain ⟨⟨s', after'⟩, hs, h⟩ := Option.map_eq_some_iff.mp h
    obtain ⟨-, rfl⟩ := Prod.mk.inj h
    exact (ih hs).trans (Nat.le_succ _)

theorem length_text_le {q : Char} (h : text start q rest = .ok (t, after)) :
    after.length ≤ rest.length := by
  unfold text at h
  split at h
  · cases h
  · next hq =>
    obtain ⟨-, rfl⟩ := Prod.mk.inj (Except.ok.inj h)
    exact length_quoted_le hq

/-- What a number that reads is. -/
theorem number_ok (h : number start cs = .ok (t, after)) :
    (numberRun isDigitOr cs).2 = after ∧
      (((numberRun isDigitOr cs).1.isFloat = true ∧ ∃ f, t = .float f ∧
        Num.parseF64 (utf8 ((numberRun isDigitOr cs).1.text.filter (· != '_'))) = some f) ∨
      ((numberRun isDigitOr cs).1.isFloat = false ∧ ∃ i, t = .int i ∧
        Num.parseI64 (utf8 ((numberRun isDigitOr cs).1.text.filter (· != '_'))) = some i)) := by
  unfold number at h
  dsimp only at h
  split at h
  · next hfloat =>
    split at h
    · cases h
    · next f hf =>
      obtain ⟨rfl, rfl⟩ := Prod.mk.inj (Except.ok.inj h)
      exact ⟨rfl, .inl ⟨hfloat, f, rfl, hf⟩⟩
  · next hfloat =>
    split at h
    · cases h
    · next i hi =>
      obtain ⟨rfl, rfl⟩ := Prod.mk.inj (Except.ok.inj h)
      exact ⟨rfl, .inr ⟨Bool.eq_false_iff.mpr hfloat, i, rfl, hi⟩⟩

/-- A number has a digit at least. -/
theorem length_number_le (hc : isDigit c = true ∨ c = '-' ∧ digitNext rest = true)
    (h : number start (c :: rest) = .ok (t, after)) : after.length ≤ rest.length := by
  rw [← (number_ok h).1]
  refine (length_numberRun_le _ _).trans ?_
  rw [minusRun]
  split
  · exact (List.dropWhile_sublist _).length_le
  · next hminus =>
    have hd : isDigitOr c = true := by
      rw [isDigitOr, hc.resolve_right fun h => hminus h.1]
      rfl
    rw [List.dropWhile_cons_of_pos hd]
    exact (List.dropWhile_sublist _).length_le

theorem length_nameRun_le (cs : List Char) : (nameRun L cs).2.length ≤ cs.length := by
  induction cs with
  | nil => exact Nat.le_refl _
  | cons c rest ih =>
    rw [nameRun]
    split_ifs
    · exact Nat.le_succ_of_le ih
    · exact Nat.le_succ_of_le (List.tail_sublist _).length_le
    · exact Nat.le_succ_of_le ih
    · exact Nat.le_refl _

/-- **A token takes a character at least.** -/
theorem length_token_le (h : token L vectors last braces start c rest = .ok (t, after)) :
    after.length ≤ rest.length := by
  have htail : rest.tail.length ≤ rest.length := (List.tail_sublist _).length_le
  have harm := token_arm L vectors last braces start c rest
  generalize htoken : token L vectors last braces start c rest = r at h harm
  cases harm with
  | punctuation _ =>
    obtain ⟨-, rfl⟩ := Prod.mk.inj (Except.ok.inj h)
    exact Nat.le_refl _
  | bracket _ =>
    obtain rfl : (bracket vectors last braces rest).2 = after :=
      congrArg Prod.snd (Except.ok.inj h)
    exact length_bracket_le
  | bar _ _ =>
    obtain ⟨-, rfl⟩ := Prod.mk.inj (Except.ok.inj h)
    exact htail
  | minus _ _ =>
    obtain ⟨-, rfl⟩ := Prod.mk.inj (Except.ok.inj h)
    exact Nat.le_refl _
  | equals _ =>
    obtain ⟨-, rfl⟩ := Prod.mk.inj (Except.ok.inj h)
    exact length_skipIf_le _ _
  | bang _ _ =>
    obtain ⟨-, rfl⟩ := Prod.mk.inj (Except.ok.inj h)
    exact htail
  | alone _ => cases h
  | less _ =>
    obtain rfl : (Ql.less rest).2 = after := congrArg Prod.snd (Except.ok.inj h)
    exact length_less_le
  | greater _ =>
    have h := Except.ok.inj h
    split at h
    · obtain ⟨-, rfl⟩ := Prod.mk.inj h
      exact htail
    · obtain ⟨-, rfl⟩ := Prod.mk.inj h
      exact Nat.le_refl _
  | param _ => exact length_param_le h
  | text _ => exact length_text_le h
  | number hc _ => exact length_number_le hc h
  | name _ =>
    obtain ⟨-, rfl⟩ := Prod.mk.inj (Except.ok.inj h)
    exact length_nameRun_le rest
  | other => cases h

end Shorter

/-- `lex_with` from a place on: the token before, the braces open and the place are what the loop
has come to. -/
def lexFrom (L : Letters) (vectors : Bool) (last : Option Tok) (braces pos : Nat) :
    List Char → Result (List Token)
  | [] => .ok [⟨.eof, pos⟩]
  | c :: rest =>
    if isWhitespace c then lexFrom L vectors last braces (pos + 1) rest
    else if c = '#' ∨ c = '-' ∧ nextIs rest '-' = true then
      lexFrom L vectors last braces (pos + 1 + (rest.takeWhile (· != '\n')).length)
        (rest.dropWhile (· != '\n'))
    else
      match _htoken : token L vectors last braces pos c rest with
      | .error e => .error e
      | .ok (t, after) =>
        (lexFrom L vectors (some t) (nest t braces) (pos + 1 + (rest.length - after.length))
          after).map (⟨t, pos⟩ :: ·)
termination_by cs => cs.length
decreasing_by
  · exact Nat.lt_succ_self _
  · exact Nat.lt_succ_of_le (List.dropWhile_sublist _).length_le
  · exact Nat.lt_succ_of_le (length_token_le _htoken)

section Loop

variable {L : Letters} {vectors : Bool} {last : Option Tok} {braces pos : Nat} {c : Char}
  {rest after : List Char} {t : Tok} {e : Error}

theorem lexFrom_error (hspace : ¬ isWhitespace c = true)
    (hcomment : ¬ (c = '#' ∨ c = '-' ∧ nextIs rest '-' = true))
    (h : token L vectors last braces pos c rest = .error e) :
    lexFrom L vectors last braces pos (c :: rest) = .error e := by
  rw [lexFrom.eq_def]
  dsimp only
  rw [if_neg hspace, if_neg hcomment]
  split
  · next e' he =>
    rw [h] at he
    rw [Except.error.inj he]
  · next heq =>
    rw [h] at heq
    cases heq

theorem lexFrom_token (hspace : ¬ isWhitespace c = true)
    (hcomment : ¬ (c = '#' ∨ c = '-' ∧ nextIs rest '-' = true))
    (h : token L vectors last braces pos c rest = .ok (t, after)) :
    lexFrom L vectors last braces pos (c :: rest) =
      (lexFrom L vectors (some t) (nest t braces) (pos + 1 + (rest.length - after.length))
        after).map (⟨t, pos⟩ :: ·) := by
  rw [lexFrom.eq_def]
  dsimp only
  rw [if_neg hspace, if_neg hcomment]
  split
  · next e he =>
    rw [h] at he
    cases he
  · next heq =>
    rw [h] at heq
    obtain ⟨rfl, rfl⟩ := Prod.mk.inj (Except.ok.inj heq)
    rfl

end Loop

/-- `tokenize`. -/
def tokenize (L : Letters) (src : String) : Result (List Token) :=
  lexFrom L false none 0 0 src.toList

/-- `tokenize_vectors`. -/
def tokenizeVectors (L : Letters) (src : String) : Result (List Token) :=
  lexFrom L true none 0 0 src.toList

end Fenec.Ql
