/-
# A stream read off its bytes

A server's events come as bytes cut anywhere.  `push` keeps what it has not read of them (`buf`),
how far that is known to hold no newline (`scanned`), and the name and the data of the event not
yet ended.

What the bytes say is told of the whole of them (`eventsOf`): the lines, the lines between blank
ones, and of these the ones that name an event.  Between pushes the state is what the bytes so far
leave open (`Held`), whatever pieces they came in, so a piece more gives the events it completes
(`push_spec`), and all the pieces the events of the whole (`stream_read_however_cut`).
-/
import Fenec.Time
import Fenec.Lib.Loop
import Fenec.Lib.Stretches

namespace Fenec.Stream

open Lib

/-! ## 1. Bytes as text -/

/-- How many bytes go on from a first one, and the range of the first of them. -/
def leads (b : UInt8) : Option (Nat × UInt8 × UInt8) :=
  if 0xC2 ≤ b ∧ b ≤ 0xDF then some (1, 0x80, 0xBF)
  else if b = 0xE0 then some (2, 0xA0, 0xBF)
  else if b = 0xED then some (2, 0x80, 0x9F)
  else if 0xE1 ≤ b ∧ b ≤ 0xEF then some (2, 0x80, 0xBF)
  else if b = 0xF0 then some (3, 0x90, 0xBF)
  else if 0xF1 ≤ b ∧ b ≤ 0xF3 then some (3, 0x80, 0xBF)
  else if b = 0xF4 then some (3, 0x80, 0x8F)
  else none

/-- As many of the bytes as go on, the first of them in its range. -/
def follow : Nat → UInt8 → UInt8 → List UInt8 → List UInt8
  | n + 1, lo, hi, b :: bs => if lo ≤ b ∧ b ≤ hi then b :: follow n 0x80 0xBF bs else []
  | _, _, _, _ => []

/-- The character of a first byte and the bytes it goes on with. -/
def character (b : UInt8) (more : List UInt8) : Char :=
  Char.ofNat (more.foldl (fun c m => c * 64 + m.toNat % 64) (b.toNat % 2 ^ (6 - more.length)))

/-- `String::from_utf8_lossy`: as much of a character as there is of one that is not whole, or a
byte that starts none, is the replacement character. -/
def lossy : List UInt8 → List Char
  | [] => []
  | b :: bs =>
    if b < 0x80 then Char.ofNat b.toNat :: lossy bs
    else match leads b with
      | none => '\uFFFD' :: lossy bs
      | some (n, lo, hi) =>
        let more := follow n lo hi bs
        (if more.length = n then character b more else '\uFFFD') :: lossy (bs.drop more.length)
termination_by bs => bs.length
decreasing_by
  all_goals simp only [List.length_cons, List.length_drop]
  all_goals omega

/-! ## 2. The code -/

/-- `Event`. -/
structure Event where
  name : List Char
  data : List Char

/-- `Frames`: a stream's bytes not yet read into an event. -/
structure Frames where
  buf : List UInt8
  scanned : Nat
  name : List Char
  data : List Char

/-- `Frames::default`. -/
def Frames.default : Frames := ⟨[], 0, [], []⟩

/-- The event under way, and the events read. -/
structure Read where
  name : List Char
  data : List Char
  out : List Event

/-- `b"event:"`. -/
def eventTag : List UInt8 := [101, 118, 101, 110, 116, 58]

/-- `b"data:"`. -/
def dataTag : List UInt8 := [100, 97, 116, 97, 58]

/-- `slice::strip_prefix`. -/
def stripPrefix (tag line : List UInt8) : Option (List UInt8) :=
  if tag.isPrefixOf line then some (line.drop tag.length) else none

/-- A line without the `\r` it ends with. -/
def stripCr (line : List UInt8) : List UInt8 :=
  if line.getLast? = some 13 then line.dropLast else line

/-- What the code does with a line. -/
def lineStep (r : Read) (line : List UInt8) : Read :=
  if line.isEmpty then
    ⟨[], [], if r.name.isEmpty then r.out else r.out ++ [⟨r.name, r.data⟩]⟩
  else match stripPrefix eventTag line with
    | some v => { r with name := Time.trim (lossy v) }
    | none => match stripPrefix dataTag line with
      | some v => { r with data := r.data ++ Time.trim (lossy v) }
      | none => r

/-- The loop of `push`: where the next line starts, and where it is searched for its end from. -/
structure Scan where
  start : Nat
  seek : Nat
  read : Read

/-- One turn of the loop of `push`, nothing where an index is out of bounds. -/
def turn (buf : List UInt8) (s : Scan) : Turn Scan (Option Scan) :=
  match sliceOf buf s.seek buf.length with
  | none => .done none
  | some unread =>
    match unread.findIdx? (· == 10) with
    | none => .done (some s)
    | some at_ =>
      match sliceOf buf s.start (s.seek + at_) with
      | none => .done none
      | some line =>
        .again ⟨s.seek + at_ + 1, s.seek + at_ + 1, lineStep s.read (stripCr line)⟩

/-- **`Frames::push`**: the events some bytes complete, nothing where an index is out of bounds or
the loop does not end in as many turns as there are bytes, and one. -/
def push (f : Frames) (bytes : List UInt8) : Option (Frames × List Event) := do
  let buf := f.buf ++ bytes
  let s ← (← loop (turn buf) (buf.length + 1) ⟨0, f.scanned, f.name, f.data, []⟩)
  let rest ← sliceOf buf s.start buf.length
  pure (⟨rest, rest.length, s.read.name, s.read.data⟩, s.read.out)

/-- The pieces of a stream pushed one after another, and all the events. -/
def pushAll (f : Frames) : List (List UInt8) → Option (Frames × List Event)
  | [] => some (f, [])
  | piece :: pieces => do
    let (f, events) ← push f piece
    let (f, more) ← pushAll f pieces
    pure (f, events ++ more)

/-! ## 3. What the bytes say -/

/-- The lines a stream has ended, `\r\n` read as `\n`. -/
def linesOf (bytes : List UInt8) : List (List UInt8) := (pieces 10 bytes).1.map stripCr

/-- The text of a line under a tag. -/
def fieldOf (tag line : List UInt8) : Option (List Char) :=
  (stripPrefix tag line).map fun v => Time.trim (lossy v)

/-- The name a block of lines gives its event: its last one. -/
def nameOf (block : List (List UInt8)) : List Char :=
  (block.filterMap (fieldOf eventTag)).getLast?.getD []

/-- The data of a block: its data lines appended. -/
def dataOf (block : List (List UInt8)) : List Char := (block.filterMap (fieldOf dataTag)).flatten

/-- The event a block is, if it names one. -/
def eventOf (block : List (List UInt8)) : Option Event :=
  if (nameOf block).isEmpty then none else some ⟨nameOf block, dataOf block⟩

/-- **The events of a stream**: of the blocks that a blank line ends, those that name one. -/
def eventsOf (bytes : List UInt8) : List Event :=
  (pieces [] (linesOf bytes)).1.filterMap eventOf

/-! ## 4. Lines -/

variable {r : Read} {line : List UInt8} {block lines : List (List UInt8)}

/-- A block still open, as the code holds it. -/
def Read.Holds (r : Read) (block : List (List UInt8)) : Prop :=
  r.name = nameOf block ∧ r.data = dataOf block

/-- A line names an event or has data, not both. -/
theorem fieldOf_data (h : fieldOf eventTag line ≠ none) : fieldOf dataTag line = none := by
  cases line with
  | nil => rfl
  | cons b line =>
    by_cases hb : b = 101
    · subst hb
      simp [fieldOf, stripPrefix, dataTag, List.isPrefixOf]
    · refine absurd ?_ h
      have hne : (101 == b) = false := beq_eq_false_iff_ne.mpr (Ne.symm hb)
      simp [fieldOf, stripPrefix, eventTag, List.isPrefixOf, hne]

theorem nameOf_concat : nameOf (block ++ [line]) = (fieldOf eventTag line).getD (nameOf block) := by
  unfold nameOf
  rw [List.filterMap_append]
  cases h : fieldOf eventTag line with
  | none => simp [h]
  | some v => simp [h]

theorem dataOf_concat : dataOf (block ++ [line]) =
    dataOf block ++ (fieldOf dataTag line).getD [] := by
  unfold dataOf
  rw [List.filterMap_append, List.flatten_append]
  cases h : fieldOf dataTag line with
  | none => simp [h]
  | some v => simp [h]

/-- A line that is not blank goes into the block. -/
theorem lineStep_of_ne (hline : line ≠ []) (h : r.Holds block) :
    (lineStep r line).Holds (block ++ [line]) ∧ (lineStep r line).out = r.out := by
  have hne : line.isEmpty = false := by
    cases line with
    | nil => exact absurd rfl hline
    | cons _ _ => rfl
  unfold lineStep Read.Holds
  rw [hne, nameOf_concat, dataOf_concat, ← h.1, ← h.2]
  cases hevent : stripPrefix eventTag line with
  | some v =>
    have hname : fieldOf eventTag line = some (Time.trim (lossy v)) := by rw [fieldOf, hevent]; rfl
    have hdata : fieldOf dataTag line = none := fieldOf_data (by rw [hname]; exact nofun)
    rw [hname, hdata]
    exact ⟨⟨rfl, (List.append_nil _).symm⟩, rfl⟩
  | none =>
    have hname : fieldOf eventTag line = none := by rw [fieldOf, hevent]; rfl
    rw [hname]
    cases hdata : stripPrefix dataTag line with
    | some v =>
      have hfield : fieldOf dataTag line = some (Time.trim (lossy v)) := by rw [fieldOf, hdata]; rfl
      rw [hfield]
      exact ⟨⟨rfl, rfl⟩, rfl⟩
    | none =>
      have hfield : fieldOf dataTag line = none := by rw [fieldOf, hdata]; rfl
      rw [hfield]
      exact ⟨⟨rfl, (List.append_nil _).symm⟩, rfl⟩

/-- A blank line ends the block. -/
theorem lineStep_blank (h : r.Holds block) :
    (lineStep r []).Holds [] ∧ (lineStep r []).out = r.out ++ (eventOf block).toList := by
  unfold lineStep eventOf
  rw [← h.1, ← h.2]
  refine ⟨⟨rfl, rfl⟩, ?_⟩
  cases r.name.isEmpty with
  | true => exact (List.append_nil _).symm
  | false => rfl

/-- **Lines go into blocks**: what they leave open is held, and what they end is read. -/
theorem foldl_lineStep (lines : List (List UInt8)) (hblock : [] ∉ block) (h : r.Holds block) :
    (lines.foldl lineStep r).Holds (pieces [] (block ++ lines)).2 ∧
      (lines.foldl lineStep r).out =
        r.out ++ (pieces [] (block ++ lines)).1.filterMap eventOf := by
  induction lines generalizing r block with
  | nil =>
    rw [List.append_nil, pieces_of_not_mem hblock]
    exact ⟨h, (List.append_nil _).symm⟩
  | cons line lines ih =>
    rw [List.foldl_cons]
    by_cases hline : line = []
    · obtain ⟨hholds, hout⟩ := lineStep_blank h
      obtain ⟨hrest, hmore⟩ := @ih (lineStep r []) [] List.not_mem_nil hholds
      rw [hline, pieces_closed hblock]
      refine ⟨hrest, ?_⟩
      rw [hmore, hout, List.nil_append, List.append_assoc]
      cases h : eventOf block with
      | none => rw [List.filterMap_cons_none h]; rfl
      | some e => rw [List.filterMap_cons_some h]; rfl
    · obtain ⟨hholds, hout⟩ := lineStep_of_ne hline h
      have hopen : [] ∉ block ++ [line] := by
        rw [List.mem_append, List.mem_singleton, not_or]
        exact ⟨hblock, Ne.symm hline⟩
      have hcut : block ++ line :: lines = (block ++ [line]) ++ lines := by
        rw [List.append_assoc]
        rfl
      rw [hcut, ← hout]
      exact ih hopen hholds

/-! ## 5. One push -/

variable {buf bytes : List UInt8} {s : Scan} {fuel : Nat}

/-- Where the next newline is, searched for past bytes that hold none. -/
theorem findIdx_newline {a rest : List UInt8} {k : Nat} (hk : k ≤ a.length) (ha : 10 ∉ a) :
    ((a ++ 10 :: rest).drop k).findIdx? (· == 10) = some (a.length - k) := by
  rw [List.drop_append_of_le_length hk]
  have hnone : ((a.drop k).findIdx? (· == 10)) = none := by
    rw [List.findIdx?_eq_none_iff]
    intro x hx
    refine beq_eq_false_iff_ne.mpr fun h10 => ha ?_
    rw [← h10]
    exact List.mem_of_mem_drop hx
  have hhere : (10 :: rest).findIdx? (· == 10) = some 0 := by
    rw [List.findIdx?_cons]
    rfl
  rw [List.findIdx?_append, hnone, hhere, List.length_drop, Option.none_or, Option.map_some,
    Nat.zero_add]

/-- **The loop of a push** reads every line the buffer ends, searching the one under way from a
place before which it holds no newline. -/
theorem loop_turn {pre rest : List UInt8} {k : Nat} (hbuf : buf = pre ++ rest)
    (hstart : s.start = pre.length) (hseek : s.seek = pre.length + k) (hk : k ≤ rest.length)
    (hscanned : 10 ∉ rest.take k) (hfuel : rest.length < fuel) :
    ∃ s', loop (turn buf) fuel s = some (some s') ∧
      s'.start + (pieces 10 rest).2.length = buf.length ∧
      s'.read = ((pieces 10 rest).1.map stripCr).foldl lineStep s.read := by
  induction fuel generalizing pre rest s k with
  | zero => exact absurd hfuel (Nat.not_lt_zero _)
  | succ fuel ih =>
    have hlen : buf.length = pre.length + rest.length := by rw [hbuf, List.length_append]
    have hunread : sliceOf buf s.seek buf.length = some (rest.drop k) := by
      rw [sliceOf_to_end (by omega), hseek, hbuf, List.drop_length_add_append]
    rcases open_or_closed 10 rest with hopen | ⟨a, after, rfl, ha⟩
    · have hnone : (rest.drop k).findIdx? (· == 10) = none := by
        rw [List.findIdx?_eq_none_iff]
        exact fun x hx => beq_eq_false_iff_ne.mpr fun h10 => hopen (h10 ▸ List.mem_of_mem_drop hx)
      have hturn : turn buf s = .done (some s) := by
        unfold turn
        rw [hunread]
        dsimp only
        rw [hnone]
      rw [pieces_of_not_mem hopen]
      exact ⟨s, loop_done hturn, by rw [hstart, hlen], rfl⟩
    · have hka : k ≤ a.length := by
        by_contra hlt
        obtain ⟨j, hj⟩ : ∃ j, k - a.length = j + 1 := ⟨k - a.length - 1, by omega⟩
        rw [List.take_append, hj, List.take_succ_cons] at hscanned
        exact hscanned (List.mem_append_right _ List.mem_cons_self)
      have hend : s.seek + (a.length - k) = pre.length + a.length := by omega
      have hline : sliceOf buf s.start (pre.length + a.length) = some a := by
        rw [hstart, hbuf]
        exact sliceOf_middle
      have hturn : turn buf s = .again ⟨pre.length + a.length + 1, pre.length + a.length + 1,
          lineStep s.read (stripCr a)⟩ := by
        unfold turn
        rw [hunread]
        dsimp only
        rw [findIdx_newline hka ha]
        dsimp only
        rw [hend, hline]
      rw [List.length_append, List.length_cons] at hfuel
      have hnext : (pre ++ (a ++ [10])).length = pre.length + a.length + 1 := by
        rw [List.length_append, List.length_append, ← Nat.add_assoc]
        rfl
      obtain ⟨s', hloop, hplace, hread⟩ := @ih
        ⟨pre.length + a.length + 1, pre.length + a.length + 1, lineStep s.read (stripCr a)⟩
        (pre ++ (a ++ [10])) after 0
        (by rw [hbuf]; simp) hnext.symm hnext.symm (Nat.zero_le _) List.not_mem_nil (by omega)
      rw [pieces_closed ha]
      exact ⟨s', (loop_again hturn).trans hloop, hplace, hread⟩

/-- **What the state is between pushes**: the line and the block that the bytes so far leave open,
all of the line searched. -/
structure Held (bytes : List UInt8) (f : Frames) : Prop where
  buf : f.buf = (pieces 10 bytes).2
  scanned : f.scanned = f.buf.length
  name : f.name = nameOf (pieces [] (linesOf bytes)).2
  data : f.data = dataOf (pieces [] (linesOf bytes)).2

variable {f f' : Frames} {piece : List UInt8}

theorem held_default : Held [] .default := ⟨rfl, rfl, rfl, rfl⟩

/-- Nothing known to hold no newline holds one. -/
theorem Held.not_mem (h : Held bytes f) : 10 ∉ f.buf.take f.scanned := by
  intro hmem
  have hbuf := List.mem_of_mem_take hmem
  rw [h.buf] at hbuf
  exact not_mem_open 10 bytes hbuf

theorem linesOf_append : linesOf (bytes ++ piece) =
    linesOf bytes ++ (pieces 10 ((pieces 10 bytes).2 ++ piece)).1.map stripCr := by
  unfold linesOf
  rw [pieces_append, List.map_append]

/-- **A push goes through**: it gives the events the piece completes, and holds what the bytes
leave open. -/
theorem push_spec (h : Held bytes f) (piece : List UInt8) :
    ∃ f' events, push f piece = some (f', events) ∧ Held (bytes ++ piece) f' ∧
      eventsOf (bytes ++ piece) = eventsOf bytes ++ events := by
  have hscanned : 10 ∉ (f.buf ++ piece).take f.scanned := by
    rw [h.scanned, List.take_left]
    have hnot := h.not_mem
    rwa [h.scanned, List.take_length] at hnot
  have hk : f.scanned ≤ (f.buf ++ piece).length := by
    rw [h.scanned, List.length_append]
    omega
  have hnil : f.buf ++ piece = [] ++ (f.buf ++ piece) := rfl
  obtain ⟨s, hloop, hplace, hread⟩ := loop_turn (s := ⟨0, f.scanned, f.name, f.data, []⟩) hnil rfl
    (Nat.zero_add _).symm hk hscanned (Nat.lt_succ_self _)
  have hin : s.start ≤ (f.buf ++ piece).length := by omega
  -- what is left of the buffer is the line it leaves open
  have hrest : (f.buf ++ piece).drop s.start = (pieces 10 (bytes ++ piece)).2 := by
    have hsuffix := List.suffix_iff_eq_drop.mp (open_suffix 10 (f.buf ++ piece))
    have hstart : (f.buf ++ piece).length - (pieces 10 (f.buf ++ piece)).2.length = s.start := by
      omega
    rw [pieces_append, ← h.buf]
    rw [hstart] at hsuffix
    exact hsuffix.symm
  have hblock : [] ∉ (pieces [] (linesOf bytes)).2 := not_mem_open [] (linesOf bytes)
  have hopened : Read.Holds ⟨f.name, f.data, []⟩ (pieces [] (linesOf bytes)).2 := ⟨h.name, h.data⟩
  obtain ⟨hholds, hout⟩ := foldl_lineStep ((pieces 10 (f.buf ++ piece)).1.map stripCr) hblock hopened
  rw [← hread] at hholds hout
  have hlines : pieces [] (linesOf (bytes ++ piece)) =
      pieces [] (linesOf bytes ++ (pieces 10 (f.buf ++ piece)).1.map stripCr) := by
    rw [linesOf_append, ← h.buf]
  rw [pieces_append] at hlines
  refine ⟨⟨(f.buf ++ piece).drop s.start, ((f.buf ++ piece).drop s.start).length, s.read.name,
    s.read.data⟩, s.read.out, ?_, ⟨hrest, rfl, ?_, ?_⟩, ?_⟩
  · unfold push
    simp only [Option.bind_eq_bind, hloop, Option.bind_some, sliceOf_to_end hin]
    rfl
  · rw [hlines]
    exact hholds.1
  · rw [hlines]
    exact hholds.2
  · unfold eventsOf
    rw [hlines, List.filterMap_append, hout]
    rfl

/-- Pieces one after another go through, and give the events of them all. -/
theorem pushAll_spec (h : Held bytes f) (cuts : List (List UInt8)) :
    ∃ f' events, pushAll f cuts = some (f', events) ∧ Held (bytes ++ cuts.flatten) f' ∧
      eventsOf (bytes ++ cuts.flatten) = eventsOf bytes ++ events := by
  induction cuts generalizing bytes f with
  | nil =>
    rw [List.flatten_nil, List.append_nil]
    exact ⟨f, [], rfl, h, (List.append_nil _).symm⟩
  | cons piece cuts ih =>
    obtain ⟨f₁, events, hpush, h₁, hevents⟩ := push_spec h piece
    obtain ⟨f₂, more, hall, h₂, hmore⟩ := ih h₁
    rw [List.append_assoc] at h₂ hmore
    refine ⟨f₂, events ++ more, ?_, h₂, ?_⟩
    · rw [pushAll, hpush]
      simp only [Option.bind_eq_bind, Option.bind_some, hall]
      rfl
    · rw [List.flatten_cons, hmore, hevents, List.append_assoc]

/-- Two states of one stream are one. -/
theorem Held.unique (h : Held bytes f) (h' : Held bytes f') : f = f' := by
  have hbuf : f.buf = f'.buf := h.buf.trans h'.buf.symm
  have hscanned : f.scanned = f'.scanned := by rw [h.scanned, h'.scanned, hbuf]
  have hname : f.name = f'.name := h.name.trans h'.name.symm
  have hdata : f.data = f'.data := h.data.trans h'.data.symm
  cases f
  cases f'
  dsimp only at hbuf hscanned hname hdata
  rw [hbuf, hscanned, hname, hdata]

/-- **A stream's events do not depend on how its bytes are cut**: the pieces give the events that
the whole gives, which are those of the blocks a blank line ends that name one.  No push reads past
its buffer, and no newline is passed over. -/
theorem stream_read_however_cut (cuts : List (List UInt8)) :
    ∃ f, pushAll .default cuts = some (f, eventsOf cuts.flatten) ∧
      push .default cuts.flatten = some (f, eventsOf cuts.flatten) ∧
      10 ∉ f.buf.take f.scanned := by
  obtain ⟨f, events, hall, hheld, hevents⟩ := pushAll_spec held_default cuts
  obtain ⟨f', events', hpush, hheld', hevents'⟩ := push_spec held_default cuts.flatten
  rw [List.nil_append] at hheld hevents hheld' hevents'
  have hnone : eventsOf [] = [] := rfl
  rw [hnone, List.nil_append] at hevents hevents'
  obtain rfl := hheld.unique hheld'
  exact ⟨f, by rw [hall, hevents], by rw [hpush, hevents'], hheld.not_mem⟩

end Fenec.Stream
