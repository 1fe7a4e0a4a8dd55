import PineTools.Proofs.Text.Lines
import PineTools.Scan.Basic

/-! Reading a text in parts. The scanner sees one character ahead, so a part is read together with
the character that follows it. At the end of a line it stands in code, in a comment or in a literal,
never in the middle of a pair, and only a block comment is carried into the next line. -/
namespace PineTools

namespace Mode

/-- The mode after a text that the given character follows. -/
def after (m : Mode) (ahead : Option Char) : Text → Mode
  | [] => m
  | c :: cs => after (m.step c (cs.head?.or ahead)).2 ahead cs

def inBlock : Mode → Bool
  | block | blockSecond => true
  | _ => false

def inLiteral : Mode → Bool
  | literal _ | escaped _ => true
  | _ => false

/-- Not in the middle of a pair of characters. -/
def settled : Mode → Bool
  | lineSecond | blockSecond | blockLast | escaped _ => false
  | _ => true

/-- The mode in which the next line is read. -/
def entry (m : Mode) : Mode := if m.inBlock then block else code false

theorem stepCode_cases (b : Bool) (c : Char) (ahead : Option Char) :
    (c = '/' ∧ ahead = some '/' ∧ stepCode b c ahead = (⟨c, .lineComment, false⟩, .lineSecond)) ∨
    (c = '/' ∧ ahead = some '*' ∧ stepCode b c ahead = (⟨c, .blockComment, false⟩, .blockSecond)) ∨
    (∃ q, b = false ∧ Quote.ofChar? c = some q ∧ stepCode b c ahead =
      (⟨c, .literal q, true⟩, .literal q)) ∨
    (¬ (c = '/' ∧ (ahead = some '/' ∨ ahead = some '*')) ∧ (b = true ∨ Quote.ofChar? c = none) ∧
      stepCode b c ahead = (⟨c, .code, false⟩, .code (c == '\\'))) := by
  by_cases h₁ : c = '/' ∧ ahead = some '/'
  · exact .inl ⟨h₁.1, h₁.2, if_pos h₁⟩
  by_cases h₂ : c = '/' ∧ ahead = some '*'
  · exact .inr (.inl ⟨h₂.1, h₂.2, by simp only [stepCode, if_neg h₁, if_pos h₂]⟩)
  refine .inr (.inr ?_)
  have hpair : ¬ (c = '/' ∧ (ahead = some '/' ∨ ahead = some '*')) := by
    rintro ⟨hc, h | h⟩
    · exact h₁ ⟨hc, h⟩
    · exact h₂ ⟨hc, h⟩
  cases b with
  | true => exact .inr ⟨hpair, .inl rfl, by simp only [stepCode, if_neg h₁, if_neg h₂]⟩
  | false =>
    cases hq : Quote.ofChar? c with
    | some q => exact .inl ⟨q, rfl, rfl, by simp only [stepCode, if_neg h₁, if_neg h₂, hq]⟩
    | none => exact .inr ⟨hpair, .inr rfl, by simp only [stepCode, if_neg h₁, if_neg h₂, hq]⟩

theorem stepLiteral_cases (q : Quote) (c : Char) (ahead : Option Char) :
    (c = '\n' ∧ stepLiteral q c ahead = (⟨c, .code, false⟩, .code false)) ∨
    (c = q.char ∧ stepLiteral q c ahead = (⟨c, .literal q, true⟩, .code false)) ∨
    (c = '\\' ∧ ahead.any (· ≠ '\n') = true ∧ stepLiteral q c ahead =
      (⟨c, .literal q, false⟩, .escaped q)) ∨
    (c ≠ '\n' ∧ c ≠ q.char ∧ ¬ (c = '\\' ∧ ahead.any (· ≠ '\n') = true) ∧
      stepLiteral q c ahead = (⟨c, .literal q, false⟩, .literal q)) := by
  by_cases h₁ : c = '\n'
  · exact .inl ⟨h₁, if_pos h₁⟩
  by_cases h₂ : c = q.char
  · exact .inr (.inl ⟨h₂, by simp only [stepLiteral, if_neg h₁, if_pos h₂]⟩)
  by_cases h₃ : c = '\\' ∧ ahead.any (· ≠ '\n') = true
  · exact .inr
      (.inr (.inl ⟨h₃.1, h₃.2, by simp only [stepLiteral, if_neg h₁, if_neg h₂, if_pos h₃]⟩))
  · exact .inr
      (.inr (.inr ⟨h₁, h₂, h₃, by simp only [stepLiteral, if_neg h₁, if_neg h₂, if_neg h₃]⟩))

theorem stepCode_char (b : Bool) (c : Char) (ahead : Option Char) :
    (stepCode b c ahead).1.char = c := by
  obtain ⟨-, -, e⟩ | ⟨-, -, e⟩ | ⟨q, -, -, e⟩ | ⟨-, -, e⟩ := stepCode_cases b c ahead <;> rw [e]

theorem stepLiteral_char (q : Quote) (c : Char) (ahead : Option Char) :
    (stepLiteral q c ahead).1.char = c := by
  obtain ⟨-, e⟩ | ⟨-, e⟩ | ⟨-, -, e⟩ | ⟨-, -, -, e⟩ := stepLiteral_cases q c ahead <;> rw [e]

@[simp] theorem step_char (m : Mode) (c : Char) (ahead : Option Char) :
    (m.step c ahead).1.char = c := by
  cases m with
  | code b => exact stepCode_char b c ahead
  | literal q => exact stepLiteral_char q c ahead
  | line =>
    rw [step]
    split <;> rfl
  | block =>
    rw [step]
    split <;> rfl
  | lineSecond | blockSecond | blockLast | escaped q => rfl

theorem after_append (m : Mode) (ahead : Option Char) (a b : Text) :
    m.after ahead (a ++ b) = (m.after (b.head?.or ahead) a).after ahead b := by
  induction a generalizing m with
  | nil => rfl
  | cons c cs ih =>
    rw [List.cons_append, after, ih, List.head?_append, Option.or_assoc]
    rfl

theorem step_newline_ahead (m : Mode) (c : Char) : m.step c (some '\n') = m.step c none := by
  cases m with
  | code b => simp [step, stepCode]
  | literal q => simp [step, stepLiteral]
  | block => simp [step]
  | line | lineSecond | blockSecond | blockLast | escaped q => rfl

theorem after_newline_ahead (m : Mode) (l : Text) : m.after (some '\n') l = m.after none l := by
  induction l generalizing m with
  | nil => rfl
  | cons c cs ih =>
    rw [after, after, ih]
    cases cs with
    | nil => rw [List.head?_nil, Option.none_or, Option.none_or, step_newline_ahead]
    | cons => rfl

theorem step_none_settled (m : Mode) (c : Char) : (m.step c none).2.settled = true := by
  cases m with
  | code b =>
    rw [step]
    obtain ⟨-, h, -⟩ | ⟨-, h, -⟩ | ⟨q, -, -, e⟩ | ⟨-, -, e⟩ := stepCode_cases b c none
    · cases h
    · cases h
    · rw [e]; rfl
    · rw [e]; rfl
  | literal q =>
    rw [step]
    obtain ⟨-, e⟩ | ⟨-, e⟩ | ⟨-, h, -⟩ | ⟨-, -, -, e⟩ := stepLiteral_cases q c none
    · rw [e]; rfl
    · rw [e]; rfl
    · cases h
    · rw [e]; rfl
  | line =>
    rw [step]
    split <;> rfl
  | block => simp [step, settled]
  | lineSecond | blockSecond | blockLast | escaped q => rfl

theorem settled_after {m : Mode} (h : m.settled = true) (l : Text) :
    (m.after none l).settled = true := by
  rcases List.eq_nil_or_concat l with rfl | ⟨l, c, rfl⟩
  · exact h
  · rw [List.concat_eq_append, after_append]
    exact step_none_settled _ c

theorem step_newline {m : Mode} (h : m.settled = true) (ahead : Option Char) :
    m.step '\n' ahead = (⟨'\n', if m.inBlock then .blockComment else .code, false⟩, m.entry) := by
  cases m with
  | code b => cases b <;> rfl
  | literal q => rfl
  | line | block => rfl
  | lineSecond | blockSecond | blockLast | escaped q => cases h

theorem settled_entry (m : Mode) : m.entry.settled = true := by
  rw [entry]
  split <;> rfl

theorem inBlock_entry (m : Mode) : m.entry.inBlock = m.inBlock := by
  rw [entry]
  split <;> simp_all [inBlock]

theorem entry_cases (m : Mode) :
    (m.inBlock = false ∧ m.entry = code false) ∨ (m.inBlock = true ∧ m.entry = block) := by
  rw [entry]
  cases m.inBlock
  · exact .inl ⟨rfl, rfl⟩
  · exact .inr ⟨rfl, rfl⟩

end Mode

/-- The cells of a text that the given character follows. -/
def cellsUpTo (m : Mode) (ahead : Option Char) : Text → List Cell
  | [] => []
  | c :: cs => (m.step c (cs.head?.or ahead)).1 :: cellsUpTo
    (m.step c (cs.head?.or ahead)).2 ahead cs

theorem cellsUpTo_none (m : Mode) (t : Text) : cellsUpTo m none t = cellsFrom m t := by
  induction t generalizing m with
  | nil => rfl
  | cons c cs ih => rw [cellsUpTo, Option.or_none, cellsFrom, ih]

theorem cellsUpTo_append (m : Mode) (ahead : Option Char) (a b : Text) :
    cellsUpTo m ahead (a ++ b) = cellsUpTo m (b.head?.or ahead) a ++
      cellsUpTo (m.after (b.head?.or ahead) a) ahead b := by
  induction a generalizing m with
  | nil => rfl
  | cons c cs ih =>
    rw [List.cons_append, cellsUpTo, ih, List.head?_append, Option.or_assoc]
    rfl

theorem cellsFrom_append (m : Mode) (a b : Text) :
    cellsFrom m (a ++ b) = cellsUpTo m b.head? a ++ cellsFrom (m.after b.head? a) b := by
  rw [← cellsUpTo_none, cellsUpTo_append, Option.or_none, cellsUpTo_none]

theorem cellsUpTo_chars (m : Mode) (ahead : Option Char) (t : Text) :
    (cellsUpTo m ahead t).map Cell.char = t := by
  induction t generalizing m with
  | nil => rfl
  | cons c cs ih => rw [cellsUpTo, List.map_cons, ih, Mode.step_char]

@[simp] theorem cellsFrom_chars (m : Mode) (t : Text) : (cellsFrom m t).map Cell.char = t := by
  rw [← cellsUpTo_none, cellsUpTo_chars]

theorem cellsUpTo_newline_ahead (m : Mode) (l : Text) :
    cellsUpTo m (some '\n') l = cellsFrom m l := by
  induction l generalizing m with
  | nil => rfl
  | cons c cs ih =>
    cases cs with
    | nil => exact congrArg (fun r => [r.1]) (m.step_newline_ahead c)
    | cons d ds => exact congrArg _ (ih _)

def newlineCell (m : Mode) : Cell := ⟨'\n', if m.inBlock then .blockComment else .code, false⟩

/-- Reading goes on after a newline with what is carried into the next line. -/
theorem cellsFrom_newline {m : Mode} (h : m.settled = true) (l t : Text) :
    cellsFrom m (l ++ '\n' :: t) =
      cellsFrom m l ++ newlineCell (m.after none l) :: cellsFrom (m.after none l).entry t := by
  rw [cellsFrom_append, List.head?_cons, cellsUpTo_newline_ahead,
    Mode.after_newline_ahead, cellsFrom, Mode.step_newline (Mode.settled_after h l)]
  rfl

theorem after_newline {m : Mode} (h : m.settled = true) (l t : Text) :
    m.after none (l ++ '\n' :: t) = (m.after none l).entry.after none t := by
  rw [Mode.after_append, List.head?_cons, Option.some_or, Mode.after_newline_ahead, Mode.after,
    Mode.step_newline (Mode.settled_after h l)]

def readLines (m : Mode) : List Text → List ScriptLine
  | [] => []
  | l :: ls => ⟨if m.inBlock then .blockComment else .code, cellsFrom m l⟩ :: readLines
    (m.after none l).entry ls

theorem linesFrom_of_oneLine (entry : Region) {cs : List Cell} (h : ∀ c ∈ cs, c.char ≠ '\n') :
    linesFrom entry cs = [⟨entry, cs⟩] := by
  induction cs with
  | nil => rfl
  | cons c cs ih =>
    rw [linesFrom, if_neg (h c List.mem_cons_self), ih fun d m => h d (List.mem_cons_of_mem c m)]

theorem linesFrom_append_newline (entry : Region) {cs : List Cell} (h : ∀ c ∈ cs, c.char ≠ '\n')
    {n : Cell} (hn : n.char = '\n') (rest : List Cell) :
    linesFrom entry (cs ++ n :: rest) = ⟨entry, cs⟩ :: linesFrom n.region rest := by
  induction cs with
  | nil => rw [List.nil_append, linesFrom, if_pos hn]
  | cons c cs ih =>
    rw [List.cons_append, linesFrom, if_neg (h c List.mem_cons_self), ih fun d m =>
      h d (List.mem_cons_of_mem c m)]

theorem cellsFrom_oneLine {l : Text} (h : Text.OneLine l) (m : Mode) :
    ∀ c ∈ cellsFrom m l, c.char ≠ '\n' := by
  intro c hc e
  refine h ?_
  rw [← e, ← cellsFrom_chars m l]
  exact List.mem_map_of_mem hc

theorem linesFrom_cellsFrom {m : Mode} (h : m.settled = true) (t : Text) :
    linesFrom (if m.inBlock then .blockComment else .code) (cellsFrom m t) =
      readLines m (Text.lines t) := by
  induction t using Text.lines_induction generalizing m with
  | last l hl => rw [linesFrom_of_oneLine _ (cellsFrom_oneLine hl m), Text.lines_of_oneLine hl,
      readLines, readLines]
  | more l t hl ih =>
    rw [cellsFrom_newline h, linesFrom_append_newline _ (cellsFrom_oneLine hl m) rfl,
      Text.lines_append_newline hl, readLines, ← ih (Mode.settled_entry _), Mode.inBlock_entry]
    rfl

theorem scriptLines_eq (t : Text) :
    scriptLines t = readLines .start (Text.lines t) := @linesFrom_cellsFrom .start rfl t

end PineTools
