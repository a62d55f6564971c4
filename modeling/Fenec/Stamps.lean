/-
# Timestamps written and read back

What `format_iso` and `format_pg` write is a date, a clock and a zone: numbers in digits with one
mark between two of them.  The reader takes the zone off first, by its last letter or by the first
sign from the tenth character on, and divides the rest at the marks, so what is written is read
back number by number (`parse_stamp`).

The tenth character is past the date as long as the year has six digits at most.  With seven the
dash before the day is the sign the reader finds, and what follows it is no zone
(`zone_long_date`).
-/
import Fenec.Calendar

namespace Fenec

open Lib Gregorian

namespace Time

/-! ## 1. Digits -/

/-- A number's digits. -/
structure Digits (s : List Char) : Prop where
  ne_nil : s ≠ []
  all : ∀ c ∈ s, isDigit c = true

/-- What digits count. -/
def value (s : List Char) : Nat := Nat.ofDigitChars 10 s 0

section Digits

variable {s : List Char}

theorem Digits.not_mem (h : Digits s) {c : Char} (hc : isDigit c = false) : c ∉ s := by
  intro hmem
  rw [h.all c hmem] at hc
  cases hc

theorem Digits.sign_free (h : Digits s) : ∀ c ∈ s, (c == '+' || c == '-') = false := by
  intro c hc
  have hplus : c ≠ '+' := fun heq => h.not_mem (by decide) (heq ▸ hc)
  have hminus : c ≠ '-' := fun heq => h.not_mem (by decide) (heq ▸ hc)
  simp [hplus, hminus]

theorem foldl_value (s : List Char) :
    s.foldl (fun n c => n * 10 + (c.toNat - '0'.toNat)) 0 = value s := by
  rw [value, Nat.ofDigitChars_eq_foldl]
  congr 1
  funext n c
  rw [Nat.mul_comm]

/-- **Digits are read as what they count**, where that is an `i64`. -/
theorem parseI64_digits (h : Digits s) (hlt : value s < 2 ^ 63) :
    parseI64 s = some (Int64.ofNat (value s)) := by
  have hall : s.all isDigit = true := List.all_eq_true.mpr h.all
  cases s with
  | nil => exact absurd rfl h.ne_nil
  | cons c cs =>
    have hplus : c ≠ '+' := fun heq => h.not_mem (c := '+') (by decide) (by simp [heq])
    have hminus : c ≠ '-' := fun heq => h.not_mem (c := '-') (by decide) (by simp [heq])
    unfold parseI64
    split
    · next hcase =>
      split at hcase
      · next heq => exact absurd (List.cons.inj heq).1 hminus
      · next heq => exact absurd (List.cons.inj heq).1 hplus
      · cases hcase
        rw [if_neg (by simp [hall]), foldl_value, if_neg Bool.false_ne_true, if_pos hlt]

theorem num_digits (h : Digits s) (hlt : value s < 2 ^ 63) :
    num s = .ok (Int64.ofNat (value s)) := by
  rw [num, parseI64_digits h hlt]

/-- Digits in at least `w` places. -/
theorem padded_toList (w n : Nat) : (padded w n).toList =
    List.replicate (w - (Nat.toDigits 10 n).length) '0' ++ Nat.toDigits 10 n := by
  have hneg : ¬ ((n : Int) < 0) := by omega
  have hlen : (toString (n : Int).natAbs).length = (Nat.toDigits 10 n).length := by
    rw [Int.natAbs_natCast, Nat.toString_eq_ofList_toDigits]
    simp
  have hdigits : (toString (n : Int).natAbs).toList = Nat.toDigits 10 n := by
    rw [Int.natAbs_natCast, Nat.toString_eq_ofList_toDigits]
    simp
  simp only [padded, if_neg hneg, String.toList_append, hdigits, hlen]
  simp

theorem padded_digits (w n : Nat) : Digits (padded w n).toList := by
  rw [padded_toList]
  refine ⟨by simp [Nat.toDigits_ne_nil], fun c hc => ?_⟩
  rcases List.mem_append.mp hc with hc | hc
  · rw [(List.mem_replicate.mp hc).2]
    decide
  · have hd := Nat.isDigit_of_mem_toDigits (by decide) (by decide) hc
    simp only [Char.isDigit, Bool.and_eq_true, decide_eq_true_eq] at hd
    simp only [isDigit, Bool.and_eq_true, decide_eq_true_eq]
    exact ⟨hd.1, hd.2⟩

theorem padded_value (w n : Nat) : value (padded w n).toList = n := by
  rw [padded_toList, value, Nat.ofDigitChars_append, Nat.ofDigitChars_replicate_zero, Nat.mul_zero,
    Nat.ofDigitChars_ten_toDigits]

theorem padded_length (w n : Nat) :
    (padded w n).toList.length = max w (Nat.toDigits 10 n).length := by
  rw [padded_toList, List.length_append, List.length_replicate]
  omega

end Digits

/-! ## 2. A text cut at its marks -/

section Cuts

variable {a b : List Char} {c sep : Char} {p : Char → Bool}

theorem splitOnce_at (ha : ∀ x ∈ a, p x = false) (hc : p c = true) :
    splitOnce p (a ++ c :: b) = some (a, b) := by
  induction a with
  | nil => simp [splitOnce, hc]
  | cons x a ih =>
    rw [List.cons_append, splitOnce, ha x List.mem_cons_self,
      ih fun y hy => ha y (List.mem_cons_of_mem _ hy)]
    rfl

theorem splitOnce_none (ha : ∀ x ∈ a, p x = false) : splitOnce p a = none := by
  induction a with
  | nil => rfl
  | cons x a ih =>
    rw [splitOnce, ha x List.mem_cons_self, ih fun y hy => ha y (List.mem_cons_of_mem _ hy)]
    rfl

theorem split_single (ha : sep ∉ a) : split sep a = [a] := by
  induction a with
  | nil => rfl
  | cons x a ih =>
    have hx : x ≠ sep := fun heq => ha (heq ▸ List.mem_cons_self)
    rw [split, if_neg hx, ih fun hmem => ha (List.mem_cons_of_mem _ hmem)]

theorem split_at (ha : sep ∉ a) : split sep (a ++ sep :: b) = a :: split sep b := by
  induction a with
  | nil => simp [split]
  | cons x a ih =>
    have hx : x ≠ sep := fun heq => ha (heq ▸ List.mem_cons_self)
    rw [List.cons_append, split, if_neg hx, ih fun hmem => ha (List.mem_cons_of_mem _ hmem)]

/-- A text that neither begins nor ends in whitespace. -/
def Tight (s : List Char) : Prop :=
  (∀ c, s.head? = some c → isWhitespace c = false) ∧
    ∀ c, s.getLast? = some c → isWhitespace c = false

theorem dropWhile_of_head {s : List Char} (h : ∀ c, s.head? = some c → p c = false) :
    s.dropWhile p = s := by
  cases s with
  | nil => rfl
  | cons c s => rw [List.dropWhile_cons_of_neg (by simp [h c rfl])]

theorem trim_tight {s : List Char} (h : Tight s) : trim s = s := by
  rw [trim, dropWhile_of_head h.1, dropWhile_of_head (by simpa using h.2), List.reverse_reverse]

/-- A text with an end that is no whitespace. -/
def Ends (s : List Char) : Prop := s ≠ [] ∧ ∀ c, s.getLast? = some c → isWhitespace c = false

theorem Ends.append (h : Ends b) (a : List Char) : Ends (a ++ b) := by
  refine ⟨List.append_ne_nil_of_right_ne_nil a h.1, fun c hc => h.2 c ?_⟩
  rwa [List.getLast?_append_of_ne_nil _ h.1] at hc

theorem Ends.cons (h : Ends b) (c : Char) : Ends (c :: b) := h.append [c]

theorem Digits.ends (h : Digits a) : Ends a :=
  ⟨h.ne_nil, fun c hc => isWhitespace_digit (h.all c (List.mem_of_getLast? hc))⟩

theorem Digits.tight (ha : Digits a) (hb : Ends b) : Tight (a ++ b) := by
  constructor
  · intro c hc
    cases a with
    | nil => exact absurd rfl ha.ne_nil
    | cons x a =>
      cases hc
      exact isWhitespace_digit (ha.all _ List.mem_cons_self)
  · exact (hb.append a).2

end Cuts

/-! ## 3. A stamp read -/

section Stamps

variable {Y M D H N S : List Char} {sep : Char} {bad : Error}

/-- A date and a clock, the marks between their numbers. -/
def stamp (Y M D : List Char) (sep : Char) (H N S : List Char) : List Char :=
  Y ++ '-' :: (M ++ '-' :: (D ++ sep :: (H ++ ':' :: (N ++ ':' :: S))))

theorem not_ofNat_gt {n k : Nat} {b : Int64} (h : n ≤ k) (hk : k < 2 ^ 62) (hb : b.toInt = k) :
    ¬ Int64.ofNat n > b := by
  intro hgt
  have hlt := Int64.lt_iff_toInt_lt.mp hgt
  rw [Int64.toInt_ofNat_of_lt (by omega)] at hlt
  omega

theorem clock_stamp {s milli : Int64} (hH : Digits H) (hN : Digits N) (hS : ':' ∉ S)
    (hh : value H ≤ 23) (hn : value N ≤ 59) (hs : seconds S = .ok (s, milli)) (hs60 : ¬ s > 60) :
    clock (H ++ ':' :: (N ++ ':' :: S)) bad =
      .ok (Int64.ofNat (value H), Int64.ofNat (value N), s, milli) := by
  have hsplit : split ':' (H ++ ':' :: (N ++ ':' :: S)) = [H, N, S] := by
    rw [split_at (hH.not_mem (by decide)), split_at (hN.not_mem (by decide)), split_single hS]
  have hne : (H ++ ':' :: (N ++ ':' :: S)).isEmpty = false := by
    cases H with
    | nil => rfl
    | cons c H => rfl
  have hH23 : ¬ Int64.ofNat (value H) > 23 := not_ofNat_gt hh (by decide) rfl
  have hN59 : ¬ Int64.ofNat (value N) > 59 := not_ofNat_gt hn (by decide) rfl
  simp only [clock, hne, hsplit, List.headD_cons, List.getElem?_cons_succ, List.getElem?_cons_zero,
    num_digits hH (by omega), num_digits hN (by omega), hs, bind, Except.bind, pure, Except.pure]
  rw [if_neg Bool.false_ne_true, if_neg (by simp [hH23, hN59, hs60])]

/-- **A date and a clock are read number by number.** -/
theorem parse_stamp {text : String} {off s milli : Int64} (hY : Digits Y) (hM : Digits M)
    (hD : Digits D) (hsep : sep = 'T' ∨ sep = ' ') (hH : Digits H) (hN : Digits N) (hS : ':' ∉ S)
    (hzone : zone (trim text.toList) (.type ("invalid timestamp: `" ++ text ++ "`")) =
      .ok (stamp Y M D sep H N S, off))
    (hend : Ends S)
    (hy : value Y < 2 ^ 63) (hmo : 1 ≤ value M) (hmo' : value M ≤ 12) (hd : 1 ≤ value D)
    (hd' : value D ≤ 31) (hh : value H ≤ 23) (hn : value N ≤ 59)
    (hs : seconds S = .ok (s, milli)) (hs60 : ¬ s > 60)
    (hcivil : civilFromDays (daysFromCivil (Int64.ofNat (value Y)) (value M) (value D)) =
      (Int64.ofNat (value Y), value M, value D)) :
    parse text = .ok (daysFromCivil (Int64.ofNat (value Y)) (value M) (value D) * 86400000 +
      Int64.ofNat (value H) * 3600000 + Int64.ofNat (value N) * 60000 + s * 1000 + milli -
        off * 60000) := by
  have hmark : ∀ x ∈ Y ++ '-' :: (M ++ '-' :: D),
      (x == 'T' || x == 't' || x == ' ') = false := by
    intro x hx
    have hx' : x = '-' ∨ isDigit x = true := by
      rcases List.mem_append.mp hx with hx | hx
      · exact .inr (hY.all x hx)
      · rcases List.mem_cons.mp hx with rfl | hx
        · exact .inl rfl
        · rcases List.mem_append.mp hx with hx | hx
          · exact .inr (hM.all x hx)
          · rcases List.mem_cons.mp hx with rfl | hx
            · exact .inl rfl
            · exact .inr (hD.all x hx)
    rcases hx' with rfl | hx'
    · decide
    · have hne : ∀ c, isDigit c = false → x ≠ c := by
        rintro c hc rfl
        rw [hx'] at hc
        cases hc
      simp [hne 'T' (by decide), hne 't' (by decide), hne ' ' (by decide)]
  have honce : splitOnce (fun c => c == 'T' || c == 't' || c == ' ') (stamp Y M D sep H N S) =
      some (Y ++ '-' :: (M ++ '-' :: D), H ++ ':' :: (N ++ ':' :: S)) := by
    have hcat : stamp Y M D sep H N S =
        (Y ++ '-' :: (M ++ '-' :: D)) ++ sep :: (H ++ ':' :: (N ++ ':' :: S)) := by
      simp [stamp]
    rw [hcat]
    refine splitOnce_at hmark ?_
    rcases hsep with rfl | rfl <;> rfl
  have hdate : split '-' (Y ++ '-' :: (M ++ '-' :: D)) = [Y, M, D] := by
    rw [split_at (hY.not_mem (by decide)), split_at (hM.not_mem (by decide)),
      split_single (hD.not_mem (by decide))]
  have hrest := (((hend.cons ':').append N).cons ':')
  have hclock := hH.tight hrest
  have hstamp : Tight (stamp Y M D sep H N S) :=
    hY.tight ((((((hrest.append H).cons sep).append D).cons '-').append M).cons '-')
  have hsmall : ∀ {n : Nat}, n < 2 ^ 32 → asU32 (Int64.ofNat n) = n := by
    intro n hlt
    have hn := Int64.toInt_ofNat_of_lt (n := n) (by omega)
    have hex := asU32_exact (n := Int64.ofNat n) (by omega) (by omega)
    omega
  simp only [parse, hzone, trim_tight hstamp, honce, trim_tight hclock, hdate, num_digits hY hy,
    num_digits hM (by omega), num_digits hD (by omega), hsmall (n := value M) (by omega),
    hsmall (n := value D) (by omega), clock_stamp hH hN hS hh hn hs hs60, bind, Except.bind, pure,
    Except.pure]
  rw [if_neg (by simp; omega), if_neg (by simp [hcivil])]

end Stamps

/-! ## 4. The zone of a stamp -/

/-- A sign of a zone, or a dash of a date. -/
def isSign (c : Char) : Bool := c == '+' || c == '-'

section Zones

variable {a b rest : List Char} {c : Char} {bad : Error}

theorem zone_utc (b : List Char) (bad : Error) : zone (b ++ ['Z']) bad = .ok (b, 0) := by
  simp [zone]

/-- **The first sign from the tenth character on begins the zone.** -/
theorem zone_sign (hc : (c == '+' || c == '-') = true) (hlen : 10 ≤ a.length)
    (hfree : ∀ x ∈ a.drop 10, (x == '+' || x == '-') = false)
    (hlast : ∀ x, (a ++ c :: rest).getLast? = some x → x ≠ 'Z' ∧ x ≠ 'z') :
    zone (a ++ c :: rest) bad = (do
      let digits := rest.filter isDigit
      let mins ← match digits.length with
        | 2 => do pure ((← num digits) * 60)
        | 4 => do pure ((← num (digits.take 2)) * 60 + (← num (digits.drop 2)))
        | _ => .error bad
      pure (a, if c == '-' then -1 * mins else mins)) := by
  have hdrop : (a ++ c :: rest).drop 10 = a.drop 10 ++ c :: rest := List.drop_append_of_le_length hlen
  have hfind : ((a ++ c :: rest).drop 10).findIdx? (fun c => c == '+' || c == '-') =
      some (a.length - 10) := by
    rw [hdrop, List.findIdx?_append, List.findIdx?_eq_none_iff.mpr hfree, List.findIdx?_cons, hc]
    simp
  have hoff : (a ++ c :: rest).drop (10 + (a.length - 10)) = c :: rest := by
    rw [Nat.add_sub_cancel' hlen, List.drop_left]
  have htake : (a ++ c :: rest).take (10 + (a.length - 10)) = a := by
    rw [Nat.add_sub_cancel' hlen, List.take_left]
  unfold zone
  split
  · next h => exact absurd rfl (hlast _ h).1
  · next h => exact absurd rfl (hlast _ h).2
  · dsimp only
    rw [hfind]
    simp only [hoff, htake, List.drop_one, List.tail_cons, List.head?_cons]
    rfl

/-- The wire's zone, where the date ends before the tenth character or at it. -/
theorem zone_wire (hlen : 10 ≤ b.length)
    (hfree : ∀ x ∈ b.drop 10, (x == '+' || x == '-') = false) :
    zone (b ++ ['+', '0', '0']) bad = .ok (b, 0) := by
  have hlast : ∀ x, (b ++ '+' :: ['0', '0']).getLast? = some x → x ≠ 'Z' ∧ x ≠ 'z' := by
    intro x hx
    rw [List.getLast?_append_of_ne_nil _ (by simp)] at hx
    cases hx
    decide
  rw [zone_sign rfl hlen hfree hlast]
  rfl

/-- **A dash before more digits than a zone has** is refused. -/
theorem zone_long (hlen : 10 ≤ a.length)
    (hfree : ∀ x ∈ a.drop 10, (x == '+' || x == '-') = false)
    (hlast : ∀ x, (a ++ '-' :: rest).getLast? = some x → x ≠ 'Z' ∧ x ≠ 'z')
    (hmany : 4 < (rest.filter isDigit).length) :
    zone (a ++ '-' :: rest) bad = .error bad := by
  rw [zone_sign rfl hlen hfree hlast]
  dsimp only
  split
  · omega
  · omega
  · rfl

theorem drop_free {a b : List Char} {n : Nat} (ha : a.length ≤ n)
    (hb : ∀ x ∈ b, isSign x = false) : ∀ x ∈ (a ++ b).drop n, isSign x = false := by
  intro x hx
  rw [List.drop_append, List.drop_eq_nil_of_le ha, List.nil_append] at hx
  exact hb x (List.mem_of_mem_drop hx)

variable {Y M C : List Char}

/-- **A date of up to twelve characters has no dash from the tenth on.** -/
theorem zone_short (h4 : 4 ≤ Y.length) (h6 : Y.length ≤ 6) (hM : M.length = 2)
    (hC : 2 ≤ C.length) (hfree : ∀ x ∈ C, isSign x = false) :
    zone (Y ++ '-' :: (M ++ '-' :: C) ++ ['+', '0', '0']) bad =
      .ok (Y ++ '-' :: (M ++ '-' :: C), 0) := by
  have hcut : Y ++ '-' :: (M ++ '-' :: C) = (Y ++ '-' :: (M ++ ['-'])) ++ C := by simp
  rw [hcut]
  refine zone_wire ?_ (drop_free ?_ hfree)
  · simp only [List.length_append, List.length_cons, List.length_nil]
    omega
  · simp only [List.length_append, List.length_cons, List.length_nil]
    omega

/-- **Where a date is longer the zone begins at one of its dashes**, and has too many digits. -/
theorem zone_long_date (hY : Digits Y) (h7 : 7 ≤ Y.length) (hM : Digits M) (hM2 : M.length = 2)
    (hmany : 4 < ((C ++ ['+', '0', '0']).filter isDigit).length) :
    zone (Y ++ '-' :: (M ++ '-' :: C) ++ ['+', '0', '0']) bad = .error bad := by
  have hlast : ∀ (a rest : List Char) (x : Char),
      (a ++ '-' :: (rest ++ ['+', '0', '0'])).getLast? = some x → x ≠ 'Z' ∧ x ≠ 'z' := by
    intro a rest x hx
    rw [show a ++ '-' :: (rest ++ ['+', '0', '0']) = (a ++ '-' :: rest) ++ ['+', '0', '0'] by simp,
      List.getLast?_append_of_ne_nil _ (by simp)] at hx
    cases hx
    decide
  rcases Nat.lt_or_ge Y.length 10 with hshort | hten
  · -- the dash before the day
    have hcut : Y ++ '-' :: (M ++ '-' :: C) ++ ['+', '0', '0'] =
        (Y ++ ['-'] ++ M) ++ '-' :: (C ++ ['+', '0', '0']) := by simp
    rw [hcut]
    refine zone_long ?_ (drop_free ?_ hM.sign_free) (hlast _ _) hmany
    · simp only [List.length_append, List.length_singleton]
      omega
    · simp only [List.length_append, List.length_singleton]
      omega
  · -- the dash before the month
    have hcut : Y ++ '-' :: (M ++ '-' :: C) ++ ['+', '0', '0'] =
        Y ++ '-' :: ((M ++ '-' :: C) ++ ['+', '0', '0']) := by simp
    rw [hcut]
    refine zone_long hten (fun x hx => hY.sign_free x (List.mem_of_mem_drop hx)) (hlast _ _) ?_
    refine Nat.lt_of_lt_of_le hmany ?_
    refine List.Sublist.length_le (List.Sublist.filter _ (List.Sublist.append_right ?_ _))
    exact (List.sublist_cons_self _ _).trans (List.sublist_append_right _ _)

end Zones

/-! ## 5. A timestamp's text -/

section Texts

variable {ms : Int64} {bad : Error}

/-- The day of a timestamp, from 1970. -/
def dayOf (ms : Int64) : Int64 := Int64.ofInt (ms.toInt / 86400000)

/-- The year of a timestamp. -/
def yearOfMs (ms : Int64) : Int := (civilFromDays (dayOf ms)).1.toInt

/-- Its seconds as they are written, with milliseconds when there are any. -/
def secondsText (ms : Int64) : List Char :=
  (padded 2 (ms.toInt % 86400000 / 1000 % 60)).toList ++
    if ms.toInt % 86400000 % 1000 = 0 then []
    else '.' :: (padded 3 (ms.toInt % 86400000 % 1000)).toList

/-- Its date and clock as they are written. -/
def stampText (sep : Char) (ms : Int64) : List Char :=
  stamp (padded 4 (yearOfMs ms)).toList (padded 2 (civilFromDays (dayOf ms)).2.1).toList
    (padded 2 (civilFromDays (dayOf ms)).2.2).toList sep
    (padded 2 (ms.toInt % 86400000 / 3600000)).toList
    (padded 2 (ms.toInt % 86400000 / 60000 % 60)).toList (secondsText ms)

theorem formatIso_toList (ms : Int64) : (formatIso ms).toList = stampText 'T' ms ++ ['Z'] := by
  unfold formatIso stampText secondsText stamp yearOfMs dayOf
  extract_lets day rem
  obtain ⟨⟨y, mo, d⟩, hc⟩ : ∃ c, civilFromDays (Int64.ofInt day) = c := ⟨_, rfl⟩
  rw [hc]
  dsimp only [rem]
  split <;> simp

theorem formatPg_toList (ms : Int64) :
    (formatPg ms).toList = stampText ' ' ms ++ ['+', '0', '0'] := by
  unfold formatPg stampText secondsText stamp yearOfMs dayOf
  extract_lets day rem
  obtain ⟨⟨y, mo, d⟩, hc⟩ : ∃ c, civilFromDays (Int64.ofInt day) = c := ⟨_, rfl⟩
  rw [hc]
  dsimp only [rem]
  split <;> simp

theorem toInt_dayOf (ms : Int64) : (dayOf ms).toInt = ms.toInt / 86400000 := by
  have hlow := ms.le_toInt
  have hhigh := ms.toInt_lt
  exact Int64.toInt_ofInt_of_le (by omega) (by omega)

theorem padded_int {w : Nat} {n : Int} (h : 0 ≤ n) :
    Digits (padded w n).toList ∧ (value (padded w n).toList : Int) = n := by
  obtain ⟨k, rfl⟩ := Int.eq_ofNat_of_zero_le h
  exact ⟨padded_digits w k, by rw [padded_value]⟩

theorem num_padded {w : Nat} {n : Int} (h : 0 ≤ n) (hlt : n < 2 ^ 63) :
    num (padded w n).toList = .ok (Int64.ofInt n) := by
  obtain ⟨k, rfl⟩ := Int.eq_ofNat_of_zero_le h
  rw [num_digits (padded_digits w k) (by rw [padded_value]; omega), padded_value,
    Int64.ofInt_eq_ofNat]

/-- The seconds are read with their milliseconds. -/
theorem seconds_text (ms : Int64) :
    seconds (secondsText ms) = .ok (Int64.ofInt (ms.toInt % 86400000 / 1000 % 60),
      Int64.ofInt (ms.toInt % 86400000 % 1000)) := by
  obtain ⟨hS, -⟩ := padded_int (w := 2) (n := ms.toInt % 86400000 / 1000 % 60) (by omega)
  have hsec : num (padded 2 (ms.toInt % 86400000 / 1000 % 60)).toList =
      .ok (Int64.ofInt (ms.toInt % 86400000 / 1000 % 60)) := num_padded (by omega) (by omega)
  have hpoint : ∀ x ∈ (padded 2 (ms.toInt % 86400000 / 1000 % 60)).toList, (x == '.') = false := by
    intro x hx
    have hne : x ≠ '.' := fun heq => hS.not_mem (by decide) (heq ▸ hx)
    simp [hne]
  unfold secondsText seconds
  by_cases hzero : ms.toInt % 86400000 % 1000 = 0
  · rw [if_pos hzero, List.append_nil, splitOnce_none hpoint, hzero]
    simp only [hsec, bind, Except.bind, pure, Except.pure]
    rfl
  · have hlen : (padded 3 (ms.toInt % 86400000 % 1000)).toList.length = 3 := by
      obtain ⟨k, hk⟩ := Int.eq_ofNat_of_zero_le (a := ms.toInt % 86400000 % 1000) (by omega)
      have hdigits : (Nat.toDigits 10 k).length ≤ 3 :=
        (Nat.length_toDigits_le_iff (by decide) (by decide)).mpr (by omega)
      rw [hk, padded_length]
      omega
    have htake : (padded 3 (ms.toInt % 86400000 % 1000)).toList.take 3 =
        (padded 3 (ms.toInt % 86400000 % 1000)).toList := List.take_of_length_le (by omega)
    have hmilli : num (padded 3 (ms.toInt % 86400000 % 1000)).toList =
        .ok (Int64.ofInt (ms.toInt % 86400000 % 1000)) := num_padded (by omega) (by omega)
    rw [if_neg hzero, splitOnce_at hpoint rfl]
    simp only [hsec, htake, hmilli, hlen, bind, Except.bind, pure, Except.pure]
    rw [show Int64.ofNat (10 ^ (3 - 3)) = 1 from rfl, Int64.mul_one]

theorem secondsText_ends (ms : Int64) : ':' ∉ secondsText ms ∧ Ends (secondsText ms) := by
  obtain ⟨hS, -⟩ := padded_int (w := 2) (n := ms.toInt % 86400000 / 1000 % 60) (by omega)
  obtain ⟨hF, -⟩ := padded_int (w := 3) (n := ms.toInt % 86400000 % 1000) (by omega)
  unfold secondsText
  by_cases hzero : ms.toInt % 86400000 % 1000 = 0
  · rw [if_pos hzero, List.append_nil]
    exact ⟨hS.not_mem (by decide), hS.ends⟩
  · rw [if_neg hzero]
    refine ⟨fun hmem => ?_, (hF.ends.cons '.').append _⟩
    rcases List.mem_append.mp hmem with h | h
    · exact hS.not_mem (by decide) h
    · rcases List.mem_cons.mp h with h | h
      · exact absurd h (by decide)
      · exact hF.not_mem (by decide) h

theorem toInt_dayOf_lt (ms : Int64) : (dayOf ms).toInt < 2 ^ 63 - 719468 := by
  have hhigh := ms.toInt_lt
  rw [toInt_dayOf]
  omega

/-- The numbers of a timestamp's text add up to it. -/
theorem sum_parts (ms : Int64) :
    dayOf ms * 86400000 + Int64.ofInt (ms.toInt % 86400000 / 3600000) * 3600000 +
      Int64.ofInt (ms.toInt % 86400000 / 60000 % 60) * 60000 +
      Int64.ofInt (ms.toInt % 86400000 / 1000 % 60) * 1000 +
      Int64.ofInt (ms.toInt % 86400000 % 1000) = ms := by
  have hsum : ms.toInt / 86400000 * 86400000 + ms.toInt % 86400000 / 3600000 * 3600000 +
      ms.toInt % 86400000 / 60000 % 60 * 60000 + ms.toInt % 86400000 / 1000 % 60 * 1000 +
      ms.toInt % 86400000 % 1000 = ms.toInt := by omega
  calc _ = Int64.ofInt (ms.toInt / 86400000 * 86400000 + ms.toInt % 86400000 / 3600000 * 3600000 +
      ms.toInt % 86400000 / 60000 % 60 * 60000 + ms.toInt % 86400000 / 1000 % 60 * 1000 +
      ms.toInt % 86400000 % 1000) := by
        simp only [Int64.ofInt_add, Int64.ofInt_mul, dayOf]
        rfl
    _ = Int64.ofInt ms.toInt := by rw [hsum]
    _ = ms := Int64.ofInt_toInt ms

/-- **A timestamp's date and clock are read back**, whatever its zone was taken off as. -/
theorem parse_stampText {text : String} {sep : Char} (hsep : sep = 'T' ∨ sep = ' ')
    (hyear : 0 ≤ yearOfMs ms)
    (hzone : zone (trim text.toList) (.type ("invalid timestamp: `" ++ text ++ "`")) =
      .ok (stampText sep ms, 0)) : parse text = .ok ms := by
  obtain ⟨hmo, hmo', hd, hlen⟩ := dateOf_valid (toInt_dayOf_lt ms)
  have hd' := hlen.trans (monthLength_le _ _)
  have hback := daysFromCivil_civilFromDays (toInt_dayOf_lt ms)
  obtain ⟨hY, hy⟩ := padded_int (w := 4) hyear
  have hylt : yearOfMs ms < 2 ^ 63 := (civilFromDays (dayOf ms)).1.toInt_lt
  have hyval : Int64.ofNat (value (padded 4 (yearOfMs ms)).toList) =
      (civilFromDays (dayOf ms)).1 := by
    rw [← Int64.ofInt_eq_ofNat, hy]
    exact Int64.ofInt_toInt _
  obtain ⟨hH, hh⟩ := padded_int (w := 2) (n := ms.toInt % 86400000 / 3600000) (by omega)
  obtain ⟨hN, hn⟩ := padded_int (w := 2) (n := ms.toInt % 86400000 / 60000 % 60) (by omega)
  have hhle : value (padded 2 (ms.toInt % 86400000 / 3600000)).toList ≤ 23 := by omega
  have hnle : value (padded 2 (ms.toInt % 86400000 / 60000 % 60)).toList ≤ 59 := by omega
  have hM := padded_digits 2 (civilFromDays (dayOf ms)).2.1
  have hD := padded_digits 2 (civilFromDays (dayOf ms)).2.2
  obtain ⟨hcolon, hend⟩ := secondsText_ends ms
  have hs60 : ¬ Int64.ofInt (ms.toInt % 86400000 / 1000 % 60) > 60 := by
    obtain ⟨k, hk⟩ := Int.eq_ofNat_of_zero_le (a := ms.toInt % 86400000 / 1000 % 60) (by omega)
    rw [hk, Int64.ofInt_eq_ofNat]
    exact not_ofNat_gt (k := 60) (by omega) (by decide) rfl
  have hM1 : 1 ≤ value (padded 2 (civilFromDays (dayOf ms)).2.1).toList := by
    rw [padded_value]
    exact Int.ofNat_le.mp hmo
  have hM12 : value (padded 2 (civilFromDays (dayOf ms)).2.1).toList ≤ 12 := by
    rw [padded_value]
    exact Int.ofNat_le.mp hmo'
  have hD1 : 1 ≤ value (padded 2 (civilFromDays (dayOf ms)).2.2).toList := by
    rw [padded_value]
    exact Int.ofNat_le.mp hd
  have hD31 : value (padded 2 (civilFromDays (dayOf ms)).2.2).toList ≤ 31 := by
    rw [padded_value]
    exact Int.ofNat_le.mp hd'
  rw [parse_stamp hY hM hD hsep hH hN hcolon hzone hend (by omega) hM1 hM12 hD1 hD31 hhle hnle
    (seconds_text ms) hs60 (by rw [hyval, padded_value, padded_value, hback]), hyval, padded_value,
    padded_value, hback, ← Int64.ofInt_eq_ofNat, ← Int64.ofInt_eq_ofNat, hh, hn, sum_parts]
  exact congrArg Except.ok (Int64.sub_zero ms)

end Texts

/-! ## 6. Written and read back -/

section Back

variable {ms : Int64} {sep : Char}

/-- The clock of a timestamp, after its date. -/
def clockText (sep : Char) (ms : Int64) : List Char :=
  (padded 2 (civilFromDays (dayOf ms)).2.2).toList ++ sep ::
    ((padded 2 (ms.toInt % 86400000 / 3600000)).toList ++
      ':' :: ((padded 2 (ms.toInt % 86400000 / 60000 % 60)).toList ++ ':' :: secondsText ms))

theorem stampText_eq (sep : Char) (ms : Int64) :
    stampText sep ms = (padded 4 (yearOfMs ms)).toList ++
      '-' :: ((padded 2 (civilFromDays (dayOf ms)).2.1).toList ++ '-' :: clockText sep ms) := by
  rw [stampText, stamp, clockText]

theorem trim_stampText (hyear : 0 ≤ yearOfMs ms) {zone : List Char} (hz : Ends zone) :
    trim (stampText sep ms ++ zone) = stampText sep ms ++ zone := by
  obtain ⟨hY, -⟩ := padded_int (w := 4) hyear
  rw [stampText_eq, List.append_assoc]
  exact trim_tight (hY.tight (hz.append _))

/-- **What `format_iso` writes is read back.** -/
theorem parse_formatIso (hyear : 0 ≤ yearOfMs ms) : parse (formatIso ms) = .ok ms := by
  refine parse_stampText (.inl rfl) hyear ?_
  have hz : Ends ['Z'] := ⟨by simp, fun c hc => by cases hc; decide⟩
  rw [formatIso_toList, trim_stampText hyear hz, zone_utc]

theorem secondsText_free (ms : Int64) : ∀ x ∈ secondsText ms, isSign x = false := by
  obtain ⟨hS, -⟩ := padded_int (w := 2) (n := ms.toInt % 86400000 / 1000 % 60) (by omega)
  obtain ⟨hF, -⟩ := padded_int (w := 3) (n := ms.toInt % 86400000 % 1000) (by omega)
  intro x hx
  unfold secondsText at hx
  rcases List.mem_append.mp hx with hx | hx
  · exact hS.sign_free x hx
  · by_cases hzero : ms.toInt % 86400000 % 1000 = 0
    · rw [if_pos hzero] at hx
      cases hx
    · rw [if_neg hzero] at hx
      rcases List.mem_cons.mp hx with rfl | hx
      · rfl
      · exact hF.sign_free x hx

/-- No sign stands after a date's last dash. -/
theorem clockText_free (hsep : isSign sep = false) : ∀ x ∈ clockText sep ms, isSign x = false := by
  obtain ⟨hH, -⟩ := padded_int (w := 2) (n := ms.toInt % 86400000 / 3600000) (by omega)
  obtain ⟨hN, -⟩ := padded_int (w := 2) (n := ms.toInt % 86400000 / 60000 % 60) (by omega)
  intro x hx
  rcases List.mem_append.mp hx with hx | hx
  · exact (padded_digits 2 _).sign_free x hx
  rcases List.mem_cons.mp hx with rfl | hx
  · exact hsep
  rcases List.mem_append.mp hx with hx | hx
  · exact hH.sign_free x hx
  rcases List.mem_cons.mp hx with rfl | hx
  · rfl
  rcases List.mem_append.mp hx with hx | hx
  · exact hN.sign_free x hx
  rcases List.mem_cons.mp hx with rfl | hx
  · rfl
  · exact secondsText_free ms x hx

theorem Digits.filter {s : List Char} (h : Digits s) : s.filter isDigit = s :=
  List.filter_eq_self.mpr h.all

/-- A day, an hour and a minute are more digits than a zone has. -/
theorem clockText_many (sep : Char) (ms : Int64) (rest : List Char) :
    4 < ((clockText sep ms ++ rest).filter isDigit).length := by
  obtain ⟨hH, -⟩ := padded_int (w := 2) (n := ms.toInt % 86400000 / 3600000) (by omega)
  obtain ⟨hN, -⟩ := padded_int (w := 2) (n := ms.toInt % 86400000 / 60000 % 60) (by omega)
  have hlen : ∀ {n : Int}, 0 ≤ n → 2 ≤ (padded 2 n).toList.length := by
    intro n hn
    obtain ⟨k, rfl⟩ := Int.eq_ofNat_of_zero_le hn
    rw [padded_length]
    exact le_max_left _ _
  have h1 := hlen (n := (civilFromDays (dayOf ms)).2.2) (by omega)
  have h2 := hlen (n := ms.toInt % 86400000 / 3600000) (by omega)
  have h3 := hlen (n := ms.toInt % 86400000 / 60000 % 60) (by omega)
  have hsub : ∀ (c : Char) (s : List Char), (s.filter isDigit).length ≤
      ((c :: s).filter isDigit).length := fun c s => ((List.sublist_cons_self c s).filter _).length_le
  have hsep := hsub sep ((padded 2 (ms.toInt % 86400000 / 3600000)).toList ++
      ':' :: ((padded 2 (ms.toInt % 86400000 / 60000 % 60)).toList ++ ':' :: secondsText ms))
  have hcolon := hsub ':' ((padded 2 (ms.toInt % 86400000 / 60000 % 60)).toList ++
    ':' :: secondsText ms)
  rw [List.filter_append, List.length_append, hH.filter] at hsep
  rw [List.filter_append, List.length_append, hN.filter] at hcolon
  rw [clockText, List.filter_append, List.filter_append, (padded_digits 2 _).filter,
    List.length_append, List.length_append]
  omega

theorem month_length (ms : Int64) :
    (padded 2 (civilFromDays (dayOf ms)).2.1).toList.length = 2 := by
  obtain ⟨-, hmo', -, -⟩ := dateOf_valid (toInt_dayOf_lt ms)
  have hle : (Nat.toDigits 10 (civilFromDays (dayOf ms)).2.1).length ≤ 2 :=
    (Nat.length_toDigits_le_iff (by decide) (by decide)).mpr
      (Nat.lt_of_le_of_lt (Int.ofNat_le.mp hmo') (by decide))
  rw [padded_length]
  omega

/-- A year has seven digits from a million on. -/
theorem year_length (hyear : 0 ≤ yearOfMs ms) : 4 ≤ (padded 4 (yearOfMs ms)).toList.length ∧
    ((padded 4 (yearOfMs ms)).toList.length ≤ 6 ↔ yearOfMs ms < 1000000) := by
  obtain ⟨y, hy⟩ := Int.eq_ofNat_of_zero_le hyear
  have hdigits : (Nat.toDigits 10 y).length ≤ 6 ↔ y < 10 ^ 6 :=
    Nat.length_toDigits_le_iff (by decide) (by decide)
  rw [hy, padded_length]
  omega

theorem wire_ends : Ends ['+', '0', '0'] := ⟨by simp, fun c hc => by cases hc; decide⟩

theorem clockText_length (sep : Char) (ms : Int64) : 2 ≤ (clockText sep ms).length := by
  have hp := padded_length 2 (civilFromDays (dayOf ms)).2.2
  rw [clockText, List.length_append]
  omega

/-- **What `format_pg` writes is read back as long as its year has six digits at most**, and is
refused when it has more. -/
theorem parse_formatPg (hyear : 0 ≤ yearOfMs ms) :
    parse (formatPg ms) = .ok ms ↔ yearOfMs ms < 1000000 := by
  have htrim : trim (formatPg ms).toList = stampText ' ' ms ++ ['+', '0', '0'] := by
    rw [formatPg_toList, trim_stampText hyear wire_ends]
  constructor
  · intro h
    by_contra hge
    have h7 := Nat.lt_of_not_le (mt (year_length hyear).2.mp hge)
    obtain ⟨hY, -⟩ := padded_int (w := 4) hyear
    have hzone : zone _ (.type ("invalid timestamp: `" ++ formatPg ms ++ "`")) = .error _ :=
      zone_long_date hY h7 (padded_digits 2 _) (month_length ms) (clockText_many ' ' ms _)
    rw [stampText_eq] at htrim
    simp only [parse, htrim, hzone, bind, Except.bind] at h
    cases h
  · intro hlt
    refine parse_stampText (.inr rfl) hyear ?_
    obtain ⟨h4, h6⟩ := year_length hyear
    rw [htrim, stampText_eq, zone_short h4 (h6.mpr hlt) (month_length ms) (clockText_length ' ' ms)
      (clockText_free rfl)]

end Back

/-- **The calendar is exact, and a timestamp's text reads back as itself up to the millionth
year.**  A day is the days of its date, the date is one there is and dates come in the order of
their days, as long as the day and those before 1970 add up in 64 bits.  From year 0 on what
`format_iso` writes is read back always, and what `format_pg` writes exactly before year
1 000 000. -/
theorem stamps_read_back (z z' ms : Int64) :
    (z.toInt < 2 ^ 63 - 719468 →
      daysFromCivil (civilFromDays z).1 (civilFromDays z).2.1 (civilFromDays z).2.2 = z ∧
      Valid (dateOf z).1 (dateOf z).2.1 (dateOf z).2.2) ∧
    (z'.toInt < 2 ^ 63 - 719468 → z < z' → Before (dateOf z) (dateOf z')) ∧
    (0 ≤ yearOfMs ms → parse (formatIso ms) = .ok ms ∧
      (parse (formatPg ms) = .ok ms ↔ yearOfMs ms < 1000000)) := by
  refine ⟨fun hz => ⟨daysFromCivil_civilFromDays hz, dateOf_valid hz⟩, fun hz hlt => ?_,
    fun hyear => ⟨parse_formatIso hyear, parse_formatPg hyear⟩⟩
  exact dateOf_before hz (Int64.lt_iff_toInt_lt.mp hlt)

/-- A year on the wire and one the reader takes a part of for a zone. -/
theorem stamp_years : yearOfMs 1789776000001 = 2026 ∧ yearOfMs 31494784780800000 = 1000000 := by
  decide +kernel

theorem stamps_read_back_twice :
    parse (formatIso 31494784780800000) = .ok 31494784780800000 ∧
      parse (formatPg 1789776000001) = .ok 1789776000001 := by
  obtain ⟨hnow, hfar⟩ := stamp_years
  exact ⟨((stamps_read_back 0 0 _).2.2 (by rw [hfar]; decide)).1,
    ((stamps_read_back 0 0 _).2.2 (by rw [hnow]; decide)).2.mpr (by rw [hnow]; decide)⟩

theorem wire_year_lost : ¬ ∀ ms : Int64, 0 ≤ yearOfMs ms →
    parse (formatIso ms) = .ok ms ∧ parse (formatPg ms) = .ok ms := by
  intro h
  have hfar := stamp_years.2
  have hback := (h 31494784780800000 (by rw [hfar]; decide)).2
  rw [parse_formatPg (by rw [hfar]; decide), hfar] at hback
  exact absurd hback (by decide)

end Time

end Fenec
