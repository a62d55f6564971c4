/-
# Readers of a buffer

A reader walks a position over a buffer that does not change, and answers a value or fails.
Where it stopped is kept either way, and so is what it noted on its way (`Cursor.log`).

Three ways to speak of one, each with its rule for one reader after another:

* `Reads buf m bs a`: wherever the buffer goes on with `bs`, `m` answers `a` and stops right
  past them;
* `Follows m k R`: where `m` answers, `k` answers too, from the same place and up to the same
  place, and the answers are related;
* `Act.Meets`, the triple, for what a reader keeps of its cursor.
-/
import Fenec.Lib.Act

namespace Fenec.Lib

/-- A place in a buffer, and what was noted on the way there. -/
structure Cursor (ρ : Type) where
  pos : Nat
  log : List ρ

/-- A step over a buffer. -/
abbrev Reader (ε ρ α : Type) : Type := Act ε (Cursor ρ) α

namespace Reader

variable {ε ρ α β γ δ κ : Type}

/-- `m` over and over, `n` times. -/
def times (m : Reader ε ρ α) : Nat → Reader ε ρ (List α)
  | 0 => pure []
  | n + 1 => do
    let a ← m
    let as ← times m n
    pure (a :: as)

/-- The place moved to `pos`. -/
def moveTo (pos : Nat) : Reader ε ρ Unit := Act.change fun c => { c with pos := pos }

/-- `r` noted. -/
def note (r : ρ) : Reader ε ρ Unit := Act.change fun c => { c with log := c.log ++ [r] }

/-! ## 1. What a reader reads -/

section Reads

variable {buf : List κ} {m : Reader ε ρ α} {f : α → Reader ε ρ β} {a : α} {b : β}
  {bs bs' : List κ}

/-- Wherever the buffer goes on with `bs`, the answer is `a` and the place is past them. -/
def Reads (buf : List κ) (m : Reader ε ρ α) (bs : List κ) (a : α) : Prop :=
  ∀ c rest, c.pos ≤ buf.length → buf.drop c.pos = bs ++ rest →
    ∃ l, m c = (.ok a, ⟨c.pos + bs.length, l⟩)

theorem drop_past {pos : Nat} {rest : List κ} (h : buf.drop pos = bs ++ rest) :
    buf.drop (pos + bs.length) = rest := by
  rw [← List.drop_drop, h, List.drop_left]

theorem past_le {pos : Nat} {rest : List κ} (hpos : pos ≤ buf.length)
    (h : buf.drop pos = bs ++ rest) : pos + bs.length ≤ buf.length := by
  have hlen := congrArg List.length h
  rw [List.length_drop, List.length_append] at hlen
  omega

theorem reads_pure : Reads buf (pure a : Reader ε ρ α) [] a :=
  fun c _ _ _ => ⟨c.log, rfl⟩

/-- **One reader after another.** -/
theorem Reads.bind (hm : Reads buf m bs a) (hf : Reads buf (f a) bs' b) :
    Reads buf (m >>= f) (bs ++ bs') b := by
  intro c rest hpos h
  rw [List.append_assoc] at h
  obtain ⟨l, hl⟩ := hm c _ hpos h
  obtain ⟨l', hl'⟩ := hf ⟨c.pos + bs.length, l⟩ rest (past_le hpos h) (drop_past h)
  refine ⟨l', ?_⟩
  rw [Act.bind_eq, hl]
  simp only [hl', List.length_append, Nat.add_assoc]

/-- A last step that reads nothing. -/
theorem Reads.answer (hm : Reads buf m bs a) (hf : Reads buf (f a) [] b) :
    Reads buf (m >>= f) bs b := by
  simpa using hm.bind hf

theorem reads_note {r : ρ} : Reads buf (note r : Reader ε ρ Unit) [] () :=
  fun c _ _ _ => ⟨c.log ++ [r], rfl⟩

/-- A list of things, each read in its turn. -/
theorem reads_times {as : List α} {enc : α → List κ} (h : ∀ a ∈ as, Reads buf m (enc a) a) :
    Reads buf (times m as.length) (as.flatMap enc) as := by
  induction as with
  | nil => exact reads_pure
  | cons a as ih =>
    have htail := ih fun b hb => h b (List.mem_cons_of_mem _ hb)
    exact (h a (List.mem_cons_self ..)).bind (htail.answer reads_pure)

/-- What is not in the buffer is read in any way. -/
theorem reads_of_fits (h : bs.length ≤ buf.length → Reads buf m bs a) : Reads buf m bs a := by
  intro c rest hpos hd
  have hle := past_le hpos hd
  exact h (by omega) c rest hpos hd

/-- Where the buffer goes on with `bs`, the answer is `a` and the place stays. -/
def Looks (buf : List κ) (m : Reader ε ρ α) (bs : List κ) (a : α) : Prop :=
  ∀ c rest, c.pos ≤ buf.length → buf.drop c.pos = bs ++ rest → m c = (.ok a, c)

/-- A look ahead, and then the bytes it looked at. -/
theorem Looks.bind (hm : Looks buf m bs a) (hf : Reads buf (f a) bs b) :
    Reads buf (m >>= f) bs b := by
  intro c rest hpos h
  obtain ⟨l, hl⟩ := hf c rest hpos h
  refine ⟨l, ?_⟩
  rw [Act.bind_eq, hm c rest hpos h]
  exact hl

end Reads

/-! ## 2. Two readers of one buffer -/

section Follows

variable {m : Reader ε ρ α} {k : Reader ε ρ β} {f : α → Reader ε ρ γ} {g : β → Reader ε ρ δ}
  {R : α → β → Prop} {S : γ → δ → Prop}

/-- Where `m` answers, `k` answers from the same place, up to the same place. -/
def Follows (m : Reader ε ρ α) (k : Reader ε ρ β) (R : α → β → Prop) : Prop :=
  ∀ c d a c', c.pos = d.pos → m c = (.ok a, c') →
    ∃ b d', k d = (.ok b, d') ∧ c'.pos = d'.pos ∧ R a b

theorem follows_pure {a : α} {b : β} (h : R a b) :
    Follows (pure a : Reader ε ρ α) (pure b : Reader ε ρ β) R := by
  intro c d a' c' hpos hm
  cases hm
  exact ⟨b, d, rfl, hpos, h⟩

/-- The answer of a step that went on to another. -/
theorem bind_ok {c c' : Cursor ρ} {b : γ} (h : (m >>= f) c = (.ok b, c')) :
    ∃ a d, m c = (.ok a, d) ∧ f a d = (.ok b, c') := by
  rw [Act.bind_eq] at h
  rcases hm : m c with ⟨e | a, d⟩ <;> rw [hm] at h
  · cases h
  · exact ⟨a, d, rfl, h⟩

theorem Follows.bind (hm : Follows m k R) (hf : ∀ a b, R a b → Follows (f a) (g b) S) :
    Follows (m >>= f) (k >>= g) S := by
  intro c d b c' hpos h
  obtain ⟨a, c₁, h₁, h₂⟩ := bind_ok h
  obtain ⟨a', d₁, hk, hpos₁, hR⟩ := hm c d a c₁ hpos h₁
  obtain ⟨b', d', hg, hpos', hS⟩ := hf a a' hR c₁ d₁ b c' hpos₁ h₂
  exact ⟨b', d', by rw [Act.bind_eq, hk]; exact hg, hpos', hS⟩

/-- A step of the first reader alone, which moves nothing. -/
theorem Follows.still {l : Reader ε ρ δ} (hm : ∀ c a c', m c = (.ok a, c') → c'.pos = c.pos)
    (hf : ∀ a, Follows (f a) l S) : Follows (m >>= f) l S := by
  intro c d b c' hpos h
  obtain ⟨a, c₁, h₁, h₂⟩ := bind_ok h
  exact hf a c₁ d b c' ((hm c a c₁ h₁).trans hpos) h₂

theorem follows_times (h : Follows m k fun _ _ => True) (n : Nat) :
    Follows (times m n) (times k n) fun _ _ => True := by
  induction n with
  | zero => exact follows_pure trivial
  | succ n ih =>
    exact h.bind fun _ _ _ => ih.bind fun _ _ _ => follows_pure trivial

/-- The second reader's answer is its own matter. -/
theorem Follows.imp {R' : α → β → Prop} (h : Follows m k R) (hR : ∀ a b, R a b → R' a b) :
    Follows m k R' := by
  intro c d a c' hpos hm
  obtain ⟨b, d', hk, hpos', hab⟩ := h c d a c' hpos hm
  exact ⟨b, d', hk, hpos', hR a b hab⟩

/-- A reader goes as far as it goes. -/
theorem follows_self (h : ∀ c d a c', c.pos = d.pos → m c = (.ok a, c') →
    ∃ d', m d = (.ok a, d') ∧ c'.pos = d'.pos) : Follows m m (· = ·) := by
  intro c d a c' hpos hm
  obtain ⟨d', hd, hpos'⟩ := h c d a c' hpos hm
  exact ⟨a, d', hd, hpos', rfl⟩

end Follows

/-! ## 3. Onward -/

section Onward

variable {p : Nat} {m k : Reader ε ρ α} {f g : α → Reader ε ρ β}

/-- From `p` on the two readers are the same, and neither goes back past `p`. -/
def Onward (p : Nat) (m k : Reader ε ρ α) : Prop :=
  ∀ c, p ≤ c.pos → m c = k c ∧ p ≤ (m c).2.pos

/-- A reader against itself. -/
theorem onward_self (h : ∀ c, c.pos ≤ (m c).2.pos) : Onward p m m :=
  fun c hc => ⟨rfl, Nat.le_trans hc (h c)⟩

theorem Onward.bind (hm : Onward p m k) (hf : ∀ a, Onward p (f a) (g a)) :
    Onward p (m >>= f) (k >>= g) := by
  intro c hc
  obtain ⟨he, hp⟩ := hm c hc
  rw [Act.bind_eq, Act.bind_eq, ← he]
  rcases hr : m c with ⟨e | a, d⟩ <;> rw [hr] at hp
  · exact ⟨rfl, hp⟩
  · exact hf a d hp

theorem onward_times (h : Onward p m k) (n : Nat) : Onward p (times m n) (times k n) := by
  induction n with
  | zero => exact onward_self fun _ => Nat.le_refl _
  | succ n ih => exact h.bind fun _ => ih.bind fun _ => onward_self fun _ => Nat.le_refl _

end Onward

/-! ## 4. Counting -/

theorem length_times {m : Reader ε ρ α} {n : Nat} {c c' : Cursor ρ} {as : List α}
    (h : times m n c = (.ok as, c')) : as.length = n := by
  induction n generalizing c as with
  | zero => cases h; rfl
  | succ n ih =>
    obtain ⟨a, c₁, -, h₂⟩ := bind_ok h
    obtain ⟨as', c₂, h₃, h₄⟩ := bind_ok h₂
    cases h₄
    rw [List.length_cons, ih h₃]

/-! ## 5. A buffer that ends too early -/

section Breaks

variable {buf : List κ} {E : ε → Prop} {m : Reader ε ρ α} {f : α → Reader ε ρ β} {a : α} {b : β}
  {bs bs' : List κ} {loose loose' : Bool}

/-- The reader fails with a fault of `E`. -/
def Fails (E : ε → Prop) (m : Reader ε ρ α) (c : Cursor ρ) : Prop :=
  ∃ e c', E e ∧ m c = (.error e, c')

/-- **Where the buffer ends inside `bs`** the reader fails; a `loose` one that lacks the last item
alone answers `a` instead, from past the end. -/
def Breaks (buf : List κ) (E : ε → Prop) (m : Reader ε ρ α) (bs : List κ) (a : α)
    (loose : Bool) : Prop :=
  ∀ c more, c.pos ≤ buf.length → more ≠ [] → buf.drop c.pos ++ more = bs →
    if loose = true ∧ more.length = 1 then ∃ l, m c = (.ok a, ⟨c.pos + bs.length, l⟩)
    else Fails E m c

/-- The reader fails from past the end. -/
def Misses (buf : List κ) (E : ε → Prop) (m : Reader ε ρ α) : Prop :=
  ∀ c, buf.length < c.pos → Fails E m c

theorem Fails.bind {c : Cursor ρ} (h : Fails E m c) : Fails E (m >>= f) c := by
  obtain ⟨e, c', he, hm⟩ := h
  exact ⟨e, c', he, by rw [Act.bind_eq, hm]⟩

theorem Misses.bind (h : Misses buf E m) : Misses buf E (m >>= f) := fun c hc => (h c hc).bind

/-- Nothing can be missing of nothing. -/
theorem breaks_nil : Breaks buf E m [] a loose := by
  intro c more _ hne h
  exact absurd (List.append_eq_nil_iff.mp h).2 hne

theorem Breaks.strict (h : Breaks buf E m bs a false) {c : Cursor ρ} {more : List κ}
    (hpos : c.pos ≤ buf.length) (hne : more ≠ []) (hbs : buf.drop c.pos ++ more = bs) :
    Fails E m c := by
  simpa using h c more hpos hne hbs

/-- A reader after a strict one, whatever it does with nothing to read. -/
theorem Breaks.done (h : Breaks buf E m bs a false) : Breaks buf E (m >>= f) bs b false := by
  intro c more hpos hne hbs
  simpa using (h.strict hpos hne hbs).bind

/-- A reader that reads nothing passes a loose answer on. -/
theorem Breaks.answer (h : Breaks buf E m bs a loose)
    (hf : ∀ c, ∃ l, f a c = (.ok b, ⟨c.pos, l⟩)) : Breaks buf E (m >>= f) bs b loose := by
  intro c more hpos hne hbs
  have hm := h c more hpos hne hbs
  split at hm
  · obtain ⟨l, hl⟩ := hm
    obtain ⟨l', hl'⟩ := hf ⟨c.pos + bs.length, l⟩
    rw [if_pos ‹_›]
    exact ⟨l', by rw [Act.bind_eq, hl]; exact hl'⟩
  · rw [if_neg ‹_›]
    exact hm.bind

/-- **One reader after another.**  The first may be loose where the second fails from past the
end. -/
theorem Breaks.bind (hm : Breaks buf E m bs a loose) (hr : Reads buf m bs a)
    (hpast : loose = false ∨ Misses buf E (f a)) (hnil : bs' = [] → loose' = false)
    (hf : Breaks buf E (f a) bs' b loose') : Breaks buf E (m >>= f) (bs ++ bs') b loose' := by
  intro c more hpos hne h
  -- the buffer ends inside the first reader's items, or past them
  have hcases : (∃ xs, xs ≠ [] ∧ buf.drop c.pos ++ xs = bs ∧ more = xs ++ bs') ∨
      ∃ xs, buf.drop c.pos = bs ++ xs ∧ xs ++ more = bs' := by
    rcases List.append_eq_append_iff.mp h with ⟨xs, hbs, hmore⟩ | ⟨xs, hdrop, hbs'⟩
    · cases xs with
      | nil => exact .inr ⟨[], by simpa using hbs.symm, by simpa using hmore⟩
      | cons x xs => exact .inl ⟨x :: xs, by simp, hbs.symm, hmore⟩
    · exact .inr ⟨xs, hdrop, hbs'.symm⟩
  rcases hcases with ⟨xs, hxs, hbs, rfl⟩ | ⟨xs, hdrop, rfl⟩
  · have hstrict : ¬ (loose' = true ∧ (xs ++ bs').length = 1) := by
      rintro ⟨hl, hlen⟩
      have hx := List.length_pos_iff.mpr hxs
      rw [List.length_append] at hlen
      have hb : bs' = [] := List.eq_nil_of_length_eq_zero (by omega)
      rw [hnil hb] at hl
      cases hl
    rw [if_neg hstrict]
    have hfirst := hm c xs hpos hxs hbs
    split at hfirst
    · rename_i hloose
      obtain ⟨l, hl⟩ := hfirst
      have hlen := congrArg List.length hbs
      rw [List.length_append, List.length_drop, hloose.2] at hlen
      have hmiss := hpast.resolve_left (by simp [hloose.1])
      obtain ⟨e, c', he, hfail⟩ := hmiss ⟨c.pos + bs.length, l⟩ (by
        show buf.length < c.pos + bs.length
        omega)
      exact ⟨e, c', he, by rw [Act.bind_eq, hl]; exact hfail⟩
    · exact hfirst.bind
  · obtain ⟨l, hl⟩ := hr c xs hpos hdrop
    have hrest := hf ⟨c.pos + bs.length, l⟩ more (past_le hpos hdrop) hne
      (by rw [drop_past hdrop])
    split at hrest
    · rename_i hloose
      obtain ⟨l', hl'⟩ := hrest
      rw [if_pos hloose]
      refine ⟨l', ?_⟩
      rw [Act.bind_eq, hl]
      simp only [hl', List.length_append, Nat.add_assoc]
    · rename_i hloose
      rw [if_neg hloose]
      obtain ⟨e, c', he, hfail⟩ := hrest
      exact ⟨e, c', he, by rw [Act.bind_eq, hl]; exact hfail⟩

/-- The first of two readers strict. -/
theorem Breaks.next (hm : Breaks buf E m bs a false) (hr : Reads buf m bs a)
    (hnil : bs' = [] → loose' = false) (hf : Breaks buf E (f a) bs' b loose') :
    Breaks buf E (m >>= f) (bs ++ bs') b loose' := hm.bind hr (.inl rfl) hnil hf

/-- A reader after one that reads nothing. -/
theorem breaks_after (hr : Reads buf m [] a) (hf : Breaks buf E (f a) bs b loose) :
    Breaks buf E (m >>= f) bs b loose := by
  cases bs with
  | nil => exact breaks_nil
  | cons x xs => exact (breaks_nil : Breaks buf E m [] a false).next hr (by simp) hf

/-- A list of things, each read in its turn: as loose as its last. -/
theorem breaks_times {γ : Type} {enc : γ → List κ} {ans : γ → α} {lo : γ → Bool} {xs : List γ}
    (hr : ∀ x ∈ xs, Reads buf m (enc x) (ans x))
    (hm : ∀ x ∈ xs, Breaks buf E m (enc x) (ans x) (lo x)) (hne : ∀ x, enc x ≠ [])
    (hpast : (∀ x, lo x = false) ∨ Misses buf E m) :
    Breaks buf E (times m xs.length) (xs.flatMap enc) (xs.map ans) (xs.getLast?.any lo) := by
  induction xs with
  | nil => exact breaks_nil
  | cons x xs ih =>
    have htail := ih (fun y hy => hr y (List.mem_cons_of_mem _ hy))
      (fun y hy => hm y (List.mem_cons_of_mem _ hy))
    have hx := hm x (List.mem_cons_self ..)
    cases xs with
    | nil =>
      simp only [List.flatMap_cons, List.flatMap_nil, List.append_nil]
      exact hx.answer fun c => ⟨c.log, rfl⟩
    | cons y ys =>
      have hrest : Breaks buf E (do
          let as ← times m (y :: ys).length
          pure (ans x :: as)) ((y :: ys).flatMap enc) ((x :: y :: ys).map ans)
          ((y :: ys).getLast?.any lo) := htail.answer fun c => ⟨c.log, rfl⟩
      have hlast : (x :: y :: ys).getLast?.any lo = (y :: ys).getLast?.any lo := by
        rw [List.getLast?_cons_cons]
      rw [hlast, List.flatMap_cons]
      refine hx.bind (hr x (List.mem_cons_self ..)) ?_ ?_ hrest
      · exact hpast.imp (fun h => h x) fun h => (h.bind).bind
      · intro hnil
        exact absurd (List.append_eq_nil_iff.mp (List.flatMap_cons ▸ hnil)).1 (hne y)

/-- The same of things that are all strict. -/
theorem breaks_times_strict {γ : Type} {enc : γ → List κ} {ans : γ → α} {xs : List γ}
    (hr : ∀ x ∈ xs, Reads buf m (enc x) (ans x))
    (hm : ∀ x ∈ xs, Breaks buf E m (enc x) (ans x) false) (hne : ∀ x, enc x ≠ []) :
    Breaks buf E (times m xs.length) (xs.flatMap enc) (xs.map ans) false := by
  have h := breaks_times hr hm hne (.inl fun _ => rfl)
  have hlast : xs.getLast?.any (fun _ => false) = false := by
    cases xs.getLast? <;> rfl
  rwa [hlast] at h

end Breaks

end Reader

end Fenec.Lib
