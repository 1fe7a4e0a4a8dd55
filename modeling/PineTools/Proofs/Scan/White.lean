import PineTools.Proofs.Scan.Substance

namespace PineTools

theorem Quote.ofChar?_white {c : Char} (h : Text.isSpace c = true) : Quote.ofChar? c = none := by
  rw [Quote.ofChar?]
  split
  · subst_vars; exact absurd h (by decide)
  · split
    · subst_vars; exact absurd h (by decide)
    · rfl

theorem Quote.char_not_white (q : Quote) : Text.isSpace q.char = false := by
  cases q <;> decide

theorem ne_of_white {c d : Char} (h : Text.isSpace c = true) (hd : Text.isSpace d = false) :
    c ≠ d := by
  rintro rfl
  rw [h] at hd
  cases hd

namespace Mode

theorem stepCode_white (b : Bool) {c : Char} (h : Text.isSpace c = true) (ahead : Option Char) :
    stepCode b c ahead = (⟨c, .code, false⟩, .code false) := by
  have hslash : c ≠ '/' := ne_of_white h (by decide)
  have hback : (c == '\\') = false := beq_false_of_ne (ne_of_white h (by decide))
  obtain ⟨e, -⟩ | ⟨e, -⟩ | ⟨q, -, hq, -⟩ | ⟨-, -, e⟩ := stepCode_cases b c ahead
  · exact absurd e hslash
  · exact absurd e hslash
  · rw [Quote.ofChar?_white h] at hq
    cases hq
  · rw [e, hback]

/-- A character that makes no pair with a slash or a star. -/
def Quiet (c : Char) : Prop := c ≠ '/' ∧ c ≠ '*'

theorem quiet_of_white {c : Char} (h : Text.isSpace c = true) : Quiet c :=
  ⟨ne_of_white h (by decide), ne_of_white h (by decide)⟩

/-- A quiet character ahead shows in no cell, and in the mode only after a backslash of a literal.
-/
theorem step_quiet_ahead (m : Mode) (x : Char) {c : Char} (h : Quiet c) :
    (m.step x (some c)).1 = (m.step x none).1 ∧
      ((m.step x (some c)).2 = (m.step x none).2 ∨
        ∃ q, (m.step x (some c)).2 = .escaped q ∧ (m.step x none).2 = .literal q) := by
  cases m with
  | code b => simp [step, stepCode, h.1, h.2]
  | block => simp [step, h.1]
  | literal q =>
    simp only [step, stepLiteral]
    by_cases hx : x = '\n'
    · simp [hx]
    · by_cases hq : x = q.char
      · simp [hq]
      · by_cases hb : x = '\\' ∧ (some c).any (· ≠ '\n') = true
        · simp only [if_neg hx, if_neg hq, if_pos hb]
          exact ⟨by simp, .inr ⟨q, by simp⟩⟩
        · simp only [if_neg hx, if_neg hq, if_neg hb]
          exact ⟨by simp, .inl (by simp)⟩
  | line | lineSecond | blockSecond | blockLast | escaped q => exact ⟨rfl, .inl rfl⟩

/-- A mode and the one it would be without a quiet character ahead. -/
def Near (m m₀ : Mode) : Prop := m = m₀ ∨ ∃ q, m = .escaped q ∧ m₀ = .literal q

theorem after_quiet_ahead (m : Mode) {c : Char} (h : Quiet c) (l : Text) :
    Near (m.after (some c) l) (m.after none l) := by
  induction l generalizing m with
  | nil => exact .inl rfl
  | cons x xs ih =>
    cases xs with
    | nil => exact (step_quiet_ahead m x h).2
    | cons y ys => exact ih _

theorem step_white {m m₀ : Mode} (hn : Near m m₀) (hs : m₀.settled = true) {c : Char}
    (h : Text.isSpace c = true) (hc : c ≠ '\n') :
    (m.step c none).1.delimiter = false ∧ (m.step c none).2.inBlock = m₀.inBlock ∧
      (m.step c none).2.inLiteral = m₀.inLiteral := by
  have hslash : c ≠ '*' := ne_of_white h (by decide)
  rcases hn with rfl | ⟨q, rfl, rfl⟩
  · cases m with
    | code b =>
      rw [step, stepCode_white b h]
      exact ⟨rfl, rfl, rfl⟩
    | literal q =>
      have hq : c ≠ q.char := ne_of_white h q.char_not_white
      have hb : c ≠ '\\' := ne_of_white h (by decide)
      simp [step, stepLiteral, hc, hq, hb, inBlock, inLiteral]
    | line => simp [step, hc, inBlock, inLiteral]
    | block => simp [step, hslash, inBlock, inLiteral]
    | lineSecond | blockSecond | blockLast | escaped q => cases hs
  · exact ⟨rfl, rfl, rfl⟩

end Mode

theorem cellsUpTo_quiet_ahead (m : Mode) {c : Char} (h : Mode.Quiet c) (l : Text) :
    cellsUpTo m (some c) l = cellsFrom m l := by
  induction l generalizing m with
  | nil => rfl
  | cons x xs ih =>
    cases xs with
    | nil => exact congrArg (fun cell => [cell]) (m.step_quiet_ahead x h).1
    | cons y ys => exact congrArg _ (ih _)

theorem literalsFrom_append_plain (opened : Text) (cs : List Cell) {x : Cell}
    (h : x.delimiter = false) :
    literalsFrom opened (cs ++ [x]) = literalsFrom opened cs := by
  induction cs generalizing opened with
  | nil =>
    simp only [List.nil_append, literalsFrom, h, Bool.false_and, Bool.false_eq_true, if_false]
    split <;> rfl
  | cons c cs ih =>
    rw [List.cons_append, literalsFrom, literalsFrom]
    simp only [ih]

theorem substance_singleton (m : Mode) (l : Text) :
    substance m [l] = ⟨solidCells (cellsFrom m l), literalsFrom [] (cellsFrom m l),
      if (m.after none l).inLiteral then 1 else 0, (m.after none l).inBlock⟩ := by
  simp only [substance, List.append_nil, Nat.add_zero, Mode.inBlock_entry]

theorem substance_append_white_char {m : Mode} (hm : m.settled = true) (l : Text) {c : Char}
    (h : Text.isSpace c = true) (hc : c ≠ '\n') : substance m [l ++ [c]] = substance m [l] := by
  have hstep := Mode.step_white (Mode.after_quiet_ahead m (Mode.quiet_of_white h) l)
    (Mode.settled_after hm l) h hc
  have hcells : cellsFrom m (l ++ [c]) = cellsFrom m l ++
      [((m.after (some c) l).step c none).1] := by
    rw [cellsFrom_append, List.head?_cons, cellsUpTo_quiet_ahead m (Mode.quiet_of_white h)]
    rfl
  have hafter : m.after none (l ++ [c]) = ((m.after (some c) l).step c none).2 :=
    Mode.after_append m none l [c]
  have hwhite : Text.isSpace ((m.after (some c) l).step c none).1.char = true := by
    rwa [Mode.step_char]
  rw [substance_singleton, substance_singleton, hcells, hafter, hstep.2.1, hstep.2.2,
    solidCells_append, literalsFrom_append_plain _ _ hstep.1, solidCells_cons_white hwhite]
  exact congrArg (Substance.mk · _ _ _) (List.append_nil _)

theorem substance_append_white {m : Mode} (hm : m.settled = true) (l : Text) {white : Text}
    (h : ∀ c ∈ white, Text.isSpace c = true ∧ c ≠ '\n') : substance m [l ++ white] =
      substance m [l] := by
  induction white generalizing l with
  | nil => rw [List.append_nil]
  | cons c cs ih =>
    have hc := h c List.mem_cons_self
    rw [List.append_cons, ih (l ++ [c]) fun d hd => h d (List.mem_cons_of_mem c hd),
      substance_append_white_char hm l hc.1 hc.2]

theorem substance_trimRight {m : Mode} (hm : m.settled = true) {l : Text} (hl : Text.OneLine l) :
    substance m [Text.trimRight Text.isSpace l] = substance m [l] := by
  obtain ⟨white, e, hw⟩ := Text.trimRight_append_white Text.isSpace l
  have hnl : ∀ c ∈ white, c ≠ '\n' := by
    rintro c hc rfl
    exact hl (e ▸ List.mem_append_right _ hc)
  calc substance m [Text.trimRight Text.isSpace l]
      = substance m [Text.trimRight Text.isSpace l ++ white] :=
        (substance_append_white hm _ fun c hc => ⟨hw c hc, hnl c hc⟩).symm
    _ = substance m [l] := by rw [← e]

theorem substance_white_line {m : Mode} (hm : m.settled = true) {l : Text} (hl : Text.OneLine l)
    (h : Text.isAllSpace l = true) : substance m [l] = substance m [[]] := by
  have hw := List.all_eq_true.mp h
  exact @substance_append_white m hm [] l fun c hc => ⟨hw c hc, fun e => hl (e ▸ hc)⟩

theorem cellsFrom_code_white (b : Bool) {c : Char} (h : Text.isSpace c = true) (t : Text) :
    cellsFrom (.code b) (c :: t) = ⟨c, .code, false⟩ :: cellsFrom (.code false) t := by
  rw [cellsFrom, Mode.step, Mode.stepCode_white b h]

theorem after_code_white (b : Bool) {c : Char} (h : Text.isSpace c = true) (ahead : Option Char)
    (t : Text) :
    (Mode.code b).after ahead (c :: t) = (Mode.code false).after ahead t := by
  rw [Mode.after, Mode.step, Mode.stepCode_white b h]

theorem substance_code_white (b : Bool) {white : Text} (h : ∀ c ∈ white, Text.isSpace c = true)
    (t : Text) :
    substance (.code b) [white ++ t] = substance (.code (b && white.isEmpty)) [t] := by
  induction white generalizing b with
  | nil => rw [List.nil_append, List.isEmpty_nil, Bool.and_true]
  | cons c cs ih =>
    have hc := h c List.mem_cons_self
    rw [List.cons_append, List.isEmpty_cons, Bool.and_false, substance_singleton,
      cellsFrom_code_white b hc, after_code_white b hc, solidCells_cons_white hc]
    have := ih false fun d hd => h d (List.mem_cons_of_mem c hd)
    rw [Bool.false_and, substance_singleton, substance_singleton] at this
    rw [substance_singleton, ← this]
    rfl

theorem substance_leading_white {white : Text} (h : ∀ c ∈ white, Text.isSpace c = true) (t : Text) :
    substance (.code false) [white ++ t] = substance (.code false) [t] := by
  rw [substance_code_white false h, Bool.false_and]

end PineTools
