import PineTools.Proofs.Scan.Notes

/-! Stretches of a script between offsets, and the cells they hold. A run of blanks on the mask may
be comments; between two characters of code it begins and ends in code all the same. -/
namespace PineTools

open Mode

theorem delimiter_of_mem {m : Mode} {t : Text} {c : Cell} (h : c ∈ cellsFrom m t)
    (hd : c.delimiter = true) :
    ∃ q : Quote, c.char = q.char := by
  induction t generalizing m with
  | nil => cases h
  | cons x xs ih =>
    rcases List.mem_cons.mp h with rfl | h
    · obtain ⟨q, e⟩ := step_delimiter hd
      exact ⟨q, (m.step_char x xs.head?).trans e⟩
    · exact ih h

/-- What shows a blank lies in code or in a comment. -/
theorem region_of_blank {m : Mode} {t : Text} {c : Cell} (h : c ∈ cellsFrom m t)
    (hb : Text.isBlank c.masked = true) :
    c.char ≠ '\n' ∧ c.region.isLiteral = false := by
  have hn : c.char ≠ '\n' := by
    intro e
    rw [Cell.masked, if_pos e, e] at hb
    exact absurd hb (by decide)
  refine ⟨hn, ?_⟩
  rw [Cell.masked, if_neg hn] at hb
  cases hr : c.region with
  | code | lineComment | blockComment => rfl
  | literal q =>
    rw [hr] at hb
    cases hd : c.delimiter with
    | false =>
      rw [hd] at hb
      change Text.isBlank Cell.filler = true at hb
      exact absurd hb (by decide)
    | true =>
      rw [hd] at hb
      obtain ⟨q', e⟩ := delimiter_of_mem h hd
      simp only [if_true, e] at hb
      exact absurd hb (by cases q' <;> decide)

/-- What shows anything but a blank or a newline does not lie in a comment. -/
theorem region_of_shown {c : Cell} (hb : Text.isBlank c.masked = false) (hn : c.masked ≠ '\n') :
    c.char ≠ '\n' ∧ c.region.isComment = false := by
  have hn' : c.char ≠ '\n' := by
    intro e
    rw [Cell.masked, if_pos e, e] at hn
    exact hn rfl
  refine ⟨hn', ?_⟩
  rw [Cell.masked, if_neg hn'] at hb
  cases hr : c.region with
  | code | literal q => rfl
  | lineComment | blockComment =>
    rw [hr] at hb
    change Text.isBlank ' ' = false at hb
    exact absurd hb (by decide)

/-- What shows a character that stands for nothing else is this character, in code. -/
theorem code_of_masked {m : Mode} {t : Text} {c : Cell} (h : c ∈ cellsFrom m t)
    (hn : c.masked ≠ '\n') (hb : c.masked ≠ ' ') (hf : c.masked ≠ Cell.filler)
    (hq : ∀ q : Quote, c.masked ≠ q.char) : c.region = .code ∧ c.char = c.masked := by
  have hn' : c.char ≠ '\n' := by
    intro e
    rw [Cell.masked, if_pos e] at hn
    exact hn e
  have hregion : c.region = .code := by
    rw [Cell.masked, if_neg hn'] at hb hf hq
    cases hr : c.region with
    | code => rfl
    | lineComment | blockComment =>
      rw [hr] at hb
      exact absurd rfl hb
    | literal q =>
      rw [hr] at hf hq
      cases hd : c.delimiter with
      | false =>
        rw [hd] at hf
        exact absurd rfl hf
      | true =>
        obtain ⟨q', e⟩ := delimiter_of_mem h hd
        rw [hd] at hq
        exact absurd e (hq q')
  exact ⟨hregion, (Cell.masked_of_code hregion).symm⟩

theorem cells_at {t : Text} {a rest : List Cell} (h : cells t = a ++ rest) :
    cellsFrom (modeAt t a.length) (t.drop a.length) = rest := by
  rw [modeAt, ← cellsFrom_drop, ← cells, h, List.drop_left' rfl]

theorem read_cell {t : Text} {a rest : List Cell} {c : Cell} (h : cells t = a ++ c :: rest) :
    ∃ behind, t.drop a.length = c.char :: behind ∧ (modeAt t a.length).step c.char behind.head? =
      (c, modeAt t (a.length + 1)) := by
  have hread := cells_at h
  cases hd : t.drop a.length with
  | nil =>
    rw [hd] at hread
    cases hread
  | cons x xs =>
    rw [hd, cellsFrom, List.cons.injEq] at hread
    have hx : x = c.char := by rw [← hread.1, step_char]
    subst hx
    exact ⟨xs, rfl, Prod.ext hread.1 (modeAt_succ hd).symm⟩

theorem modeAt_before_code {t : Text} {a rest : List Cell} {c : Cell} (h : cells t = a ++ c :: rest)
    (hc : c.region = .code) (hn : c.char ≠ '\n') : ∃ b, modeAt t a.length = .code b := by
  obtain ⟨behind, -, hstep⟩ := read_cell h
  exact mode_of_code hn (by rw [hstep]; exact hc)

theorem modeAt_after_code {t : Text} {a rest : List Cell} {c : Cell} (h : cells t = a ++ c :: rest)
    (hc : c.region = .code) :
    modeAt t (a.length + 1) = .code (c.char == '\\') := by
  obtain ⟨behind, -, hstep⟩ := read_cell h
  have := @step_eq_of_code (modeAt t a.length) c.char behind.head? (by rw [hstep]; exact hc)
  rw [hstep] at this
  exact congrArg Prod.snd this

theorem step_code_true {m : Mode} {c : Char} {ahead : Option Char}
    (h : (m.step c ahead).2 = .code true) :
    (m.step c ahead).1.masked = '\\' := by
  cases m with
  | code b =>
    rw [step] at h ⊢
    obtain ⟨-, -, e⟩ | ⟨-, -, e⟩ | ⟨q, -, -, e⟩ | ⟨-, -, e⟩ := stepCode_cases b c ahead
    · rw [e] at h; cases h
    · rw [e] at h; cases h
    · rw [e] at h; cases h
    · rw [e] at h ⊢
      rw [Cell.masked_of_code rfl]
      exact beq_iff_eq.mp (Mode.code.inj h)
  | literal q =>
    rw [step] at h
    obtain ⟨-, e⟩ | ⟨-, e⟩ | ⟨-, -, e⟩ | ⟨-, -, -, e⟩ := stepLiteral_cases q c ahead <;>
      rw [e] at h <;> cases h
  | line =>
    rw [step] at h
    split at h <;> cases h
  | block =>
    rw [step] at h
    split at h <;> cases h
  | lineSecond | blockSecond | blockLast | escaped q => cases h

/-- What leads into code and shows no slash does so whatever follows. -/
theorem step_of_hidden {m : Mode} {c : Char} {ahead : Option Char} {b : Bool}
    (h : (m.step c ahead).2 = .code b) (hc : (m.step c ahead).1.masked ≠ '/')
    (ahead' : Option Char) : m.step c ahead' = m.step c ahead := by
  have hnone := step_none_of_code h
  by_cases hslash : c = '/'
  · subst hslash
    cases m with
    | code b' =>
      rw [step] at h hc
      obtain ⟨-, -, e⟩ | ⟨-, -, e⟩ | ⟨q, -, -, e⟩ | ⟨-, -, e⟩ := stepCode_cases b' '/' ahead
      · rw [e] at h; cases h
      · rw [e] at h; cases h
      · rw [e] at h; cases h
      · rw [e] at hc
        exact absurd rfl hc
    | literal q =>
      rw [step] at h
      cases q <;> cases h
    | line | lineSecond | block | blockSecond => cases h
    | blockLast | escaped q => rfl
  · rw [← hnone]
    rw [← hnone] at h
    exact step_of_code hslash h ahead'

/-- Between two cells that no comment and no literal holds together the script stands in code. -/
theorem modeAt_between_code {t : Text} {a rest : List Cell} {x y : Cell}
    (h : cells t = a ++ x :: y :: rest) (hy : y.char ≠ '\n') (hcomment : x.region.isComment = true →
      y.region.isComment = false)
    (hliteral : x.region.isLiteral = true → y.region.isLiteral = false) :
    ∃ b, modeAt t (a.length + 1) = .code b := by
  obtain ⟨behind, hdrop, hstep⟩ := read_cell h
  have h' : cells t = (a ++ [x]) ++ y :: rest := by
    rw [h, List.append_assoc, List.singleton_append]
  obtain ⟨behind', hdrop', hstep'⟩ := read_cell h'
  rw [List.length_append, List.length_singleton] at hdrop' hstep'
  have hbehind : behind = y.char :: behind' := by
    rw [← hdrop', ← List.drop_drop, hdrop]
    rfl
  rw [hbehind, List.head?_cons] at hstep
  have hmode : ((modeAt t a.length).step x.char (some y.char)).2 = modeAt t (a.length + 1) :=
    congrArg Prod.snd hstep
  have hcode := @code_between (modeAt t a.length) x.char y.char behind'.head? hy
  rw [hmode, hstep, hstep'] at hcode
  exact hcode hcomment hliteral

/-- Only a backslash makes the scanner remember what it read in code. -/
theorem modeAt_after_shown {t : Text} {a rest : List Cell} (h : cells t = a ++ rest)
    (ha : ∀ c, a.getLast? = some c → c.masked ≠ '\\') {b : Bool}
    (hb : modeAt t a.length = .code b) :
    modeAt t a.length = .code false := by
  cases b with
  | false => exact hb
  | true =>
    rcases List.eq_nil_or_concat a with rfl | ⟨init, x, rfl⟩
    · rfl
    rw [List.concat_eq_append] at *
    rw [List.append_assoc, List.singleton_append] at h
    rw [List.length_append, List.length_singleton] at hb
    obtain ⟨behind, -, hstep⟩ := read_cell h
    have := @step_code_true (modeAt t init.length) x.char behind.head? (by rw [hstep]; exact hb)
    rw [hstep] at this
    exact absurd this (ha x List.getLast?_concat)

theorem modeAt_between {t : Text} {a rest : List Cell} {x y : Cell}
    (h : cells t = a ++ x :: y :: rest) (hy : y.char ≠ '\n') (hcomment : x.region.isComment = true →
      y.region.isComment = false)
    (hliteral : x.region.isLiteral = true → y.region.isLiteral = false) (hx : x.masked ≠ '\\') :
    modeAt t (a.length + 1) = .code false := by
  obtain ⟨b, hb⟩ := modeAt_between_code h hy hcomment hliteral
  have hsplit : cells t = (a ++ [x]) ++ y :: rest := by
    rw [h, List.append_assoc, List.singleton_append]
  have hlen : a.length + 1 = (a ++ [x]).length := by
    rw [List.length_append, List.length_singleton]
  rw [hlen] at hb ⊢
  refine modeAt_after_shown hsplit (fun c hc => ?_) hb
  rw [List.getLast?_concat] at hc
  cases hc
  exact hx

/-- A run of blanks on the mask with a character of code or a literal before and behind it. -/
structure Gap (t : Text) (a gap rest : List Cell) (x y : Cell) : Prop where
  cells_eq : cells t = a ++ x :: (gap ++ y :: rest)
  nonempty : gap ≠ []
  blank : ∀ c ∈ gap, Text.isBlank c.masked = true
  before : Text.isBlank x.masked = false ∧ x.masked ≠ '\n' ∧ x.masked ≠ '\\'
  behind : Text.isBlank y.masked = false ∧ y.masked ≠ '\n'

namespace Gap

variable {t : Text} {a gap rest : List Cell} {x y : Cell}

theorem region (h : Gap t a gap rest x y) :
    ∀ c ∈ gap, c.char ≠ '\n' ∧ c.region.isLiteral = false := by
  intro c hc
  refine @region_of_blank .start t c ?_ (h.blank c hc)
  rw [← cells, h.cells_eq]
  exact List.mem_append_right a (List.mem_cons_of_mem x (List.mem_append_left _ hc))

theorem modeAt_start (h : Gap t a gap rest x y) : modeAt t (a.length + 1) = .code false := by
  have hcells := h.cells_eq
  have hregion := h.region
  cases gap with
  | nil => exact absurd rfl h.nonempty
  | cons g gs =>
    obtain ⟨hn, hlit⟩ := hregion g List.mem_cons_self
    obtain ⟨-, hx⟩ := region_of_shown h.before.1 h.before.2.1
    refine modeAt_between hcells hn (fun e => ?_) (fun _ => hlit) h.before.2.2
    rw [hx] at e
    cases e

theorem modeAt_stop (h : Gap t a gap rest x y) :
    modeAt t (a.length + 1 + gap.length) = .code false := by
  have hregion := h.region
  have hblank := h.blank
  have hcells := h.cells_eq
  obtain ⟨hn, hy⟩ := region_of_shown h.behind.1 h.behind.2
  rcases List.eq_nil_or_concat gap with rfl | ⟨gs, g, rfl⟩
  · exact absurd rfl h.nonempty
  rw [List.concat_eq_append] at *
  have hg := List.mem_append_right gs (List.mem_singleton_self g)
  have hsplit : cells t = (a ++ x :: gs) ++ g :: y :: rest := by
    rw [hcells]
    simp only [List.append_assoc, List.cons_append, List.nil_append]
  have hlen : a.length + 1 + (gs ++ [g]).length = (a ++ x :: gs).length + 1 := by
    simp only [List.length_append, List.length_cons, List.length_nil]
    omega
  rw [hlen]
  refine modeAt_between hsplit hn (fun _ => hy) (fun e => ?_) ?_
  · rw [(hregion g hg).2] at e
    cases e
  · intro e
    have := hblank g hg
    rw [e] at this
    exact absurd this (by decide)

end Gap

section Stretch

variable {t : Text} {a stretch rest : List Cell}

theorem drop_stretch (h : cells t = a ++ rest) : t.drop a.length = writtenText rest := by
  rw [← cellsFrom_chars .start t, ← cells, h, List.map_append, List.drop_left' (List.length_map _)]
  rfl

theorem slice_stretch (h : cells t = a ++ (stretch ++ rest)) :
    Text.slice t a.length (a.length + stretch.length) = writtenText stretch := by
  rw [Text.slice, List.drop_take, drop_stretch h, Nat.add_sub_cancel_left, writtenText,
    List.map_append, List.take_left' (List.length_map _)]
  rfl

/-- Before a character of code that is tame a script could begin. -/
theorem bare_before_code {c : Cell} (h : cells t = a ++ c :: rest) (hc : c.region = .code)
    (hn : c.char ≠ '\n') (htame : Tame c.char) :
    Bare (modeAt t a.length) (t.drop a.length).head? := by
  obtain ⟨b, hb⟩ := modeAt_before_code h hc hn
  rw [hb, drop_stretch h]
  exact htame.bare b

/-- The scanner remembers nothing of a character of code that is tame. -/
theorem modeAt_after_tame {c : Cell} (h : cells t = a ++ c :: rest) (hc : c.region = .code)
    (htame : Tame c.char) :
    modeAt t (a.length + 1) = .start := by
  rw [modeAt_after_code h hc, beq_false_of_ne htame.2.1]
  rfl

/-- The cells of a stretch that begins and ends as a script would are those it would have by itself.
-/
theorem cells_stretch (h : cells t = a ++ (stretch ++ rest)) (hstart : modeAt t a.length = .start)
    (hstop : Lands (modeAt t (a.length + stretch.length)) (writtenText rest).head?) :
    cells (writtenText stretch) = stretch := by
  have hrest : t.drop (a.length + stretch.length) = writtenText rest := by
    rw [← List.drop_drop, drop_stretch h, writtenText, List.map_append,
      List.drop_left' (List.length_map _)]
    rfl
  have hafter : Mode.start.after (writtenText rest).head? (writtenText stretch) =
      modeAt t (a.length + stretch.length) := by
    rw [modeAt_slice t (Nat.le_add_right a.length stretch.length), hstart, slice_stretch h, hrest]
  rw [← hafter] at hstop
  have hread := cells_at h
  rw [hstart, drop_stretch h, writtenText, List.map_append, ← writtenText, ← writtenText,
    cellsFrom_append] at hread
  have hlen : (cellsUpTo .start (writtenText rest).head? (writtenText stretch)).length =
      stretch.length := by
    rw [← List.length_map Cell.char, cellsUpTo_chars, writtenText, List.length_map]
  rw [cells, ← cellsUpTo_none, (readsAlike_none_of_lands hstop).1]
  exact (List.append_inj hread hlen).1

end Stretch

def separator : Text := [',', ' ']

namespace Gap

variable {t : Text} {a gap rest : List Cell} {x y : Cell}

theorem cells_split (h : Gap t a gap rest x y) : cells t = (a ++ [x]) ++ (gap ++ y :: rest) := by
  rw [h.cells_eq, List.append_assoc, List.singleton_append]

theorem slice (h : Gap t a gap rest x y) :
    Text.slice t (a.length + 1) (a.length + 1 + gap.length) = writtenText gap := by
  have := slice_stretch h.cells_split
  rwa [List.length_append, List.length_singleton] at this

theorem sound (h : Gap t a gap rest x y) :
    Edit.Sound t ⟨a.length + 1, a.length + 1 + gap.length, separator⟩ := by
  have htame : ∀ c ∈ separator, Tame c := by decide
  have hhead : separator.head? ≠ some '*' := by decide
  apply Edit.sound_of_tame (List.cons_ne_nil _ _) htame hhead
  · exact .inl h.modeAt_start
  · exact .inl (.inl h.modeAt_stop)

theorem cells_gap (h : Gap t a gap rest x y) : cells (writtenText gap) = gap := by
  have hstart := h.modeAt_start
  have hstop := h.modeAt_stop
  have hlen : (a ++ [x]).length = a.length + 1 := by
    rw [List.length_append, List.length_singleton]
  rw [← hlen] at hstart hstop
  exact cells_stretch h.cells_split hstart (.inl (.inl hstop))

theorem after_gap (h : Gap t a gap rest x y) :
    Mode.start.after none (writtenText gap) = .start := by
  have hstop := h.modeAt_stop
  rw [modeAt_slice t (Nat.le_add_right (a.length + 1) gap.length), h.modeAt_start, h.slice] at hstop
  have hnone := (@readsAlike_of_code _ _ _ none _ hstop (.inr fun c e => by cases e)).2
  exact hnone.symm.trans hstop

theorem notes_eq_nil_iff (h : Gap t a gap rest x y) :
    notes (writtenText gap) = [] ↔ ∀ c ∈ gap, c.isCode = true := by
  rw [PineTools.notes_eq_nil_iff, h.cells_gap]

end Gap

theorem notes_separator : notes separator = [] := notes_tame (by decide)

end PineTools
