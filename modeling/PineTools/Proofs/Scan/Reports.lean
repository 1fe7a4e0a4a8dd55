import PineTools.Proofs.Scan.Substance

/-! The reports of a scan, taken in parts: the literals that stay open, the line of a block comment
that is not ended, and the brackets. Each is put together from what is reported about a first part
and what is reported about the rest, which is read from the mode, the line and the openers that the
first part leaves behind. -/
namespace PineTools

open Mode

/-- The report about a line that ends in the given mode. -/
def openAt (m : Mode) (number : Nat) (atEnd : Bool) : List UnclosedLiteral :=
  match m with
  | .literal q => [⟨number, q, atEnd⟩]
  | _ => []

theorem openAt_eq_nil_iff {m : Mode} {number : Nat} {atEnd : Bool} :
    openAt m number atEnd = [] ↔ ∀ q, m ≠ .literal q := by
  cases m with
  | literal q => exact ⟨fun h => absurd h (List.cons_ne_nil _ _), fun h => absurd rfl (h q)⟩
  | code b | line | lineSecond | block | blockSecond | blockLast | escaped q =>
    exact ⟨fun _ _ => Mode.noConfusion, fun _ => rfl⟩

theorem openAt_entry (m : Mode) (number : Nat) (atEnd : Bool) :
    openAt m.entry number atEnd = [] := by
  obtain ⟨-, e⟩ | ⟨-, e⟩ := m.entry_cases <;> rw [e] <;> rfl

/-- The literals that newlines of a part cut off. What follows the part does not matter. -/
def unclosedUpTo (m : Mode) (number : Nat) : Text → List UnclosedLiteral
  | [] => []
  | c :: cs =>
    (if c = '\n' then openAt m number false else []) ++
      unclosedUpTo (m.step c cs.head?).2 (if c = '\n' then number + 1 else number) cs

theorem unclosedFrom_nil (m : Mode) (number : Nat) :
    unclosedFrom m number [] = openAt m number true := by
  cases m <;> rfl

theorem unclosedFrom_step (m : Mode) (number : Nat) (c : Char) (cs : Text) :
    unclosedFrom m number (c :: cs) = (if c = '\n' then openAt m number false else []) ++
      unclosedFrom (m.step c cs.head?).2 (if c = '\n' then number + 1 else number) cs := by
  by_cases hc : c = '\n'
  · subst hc
    cases m <;> rfl
  · rw [unclosedFrom_cons m number hc, if_neg hc, if_neg hc]
    rfl

theorem line_after_cons (number : Nat) (c : Char) (cs : Text) :
    (if c = '\n' then number + 1 else number) + cs.count '\n' = number + (c :: cs).count '\n' := by
  by_cases hc : c = '\n'
  · subst hc
    rw [if_pos rfl, List.count_cons_self]
    omega
  · rw [if_neg hc, List.count_cons_of_ne hc]

theorem unclosedFrom_append (m : Mode) (number : Nat) (a b : Text) :
    unclosedFrom m number (a ++ b) =
      unclosedUpTo m number a ++ unclosedFrom (m.after b.head? a) (number + a.count '\n') b := by
  induction a generalizing m number with
  | nil => rfl
  | cons c cs ih =>
    rw [List.cons_append, unclosedFrom_step, ih, List.head?_append, unclosedUpTo, Mode.after,
      line_after_cons, List.append_assoc]
    cases cs with
    | nil => rfl
    | cons d ds => rfl

/-- The last line is open at the end, every other one at its newline. -/
theorem unclosedFrom_eq (m : Mode) (number : Nat) (t : Text) :
    unclosedFrom m number t = unclosedUpTo m number t ++ openAt (m.after none t)
    (number + t.count '\n') true := by
  rw [← unclosedFrom_nil, ← List.head?_nil, ← unclosedFrom_append, List.append_nil]

theorem unclosedUpTo_oneLine {l : Text} (hl : Text.OneLine l) (m : Mode) (number : Nat) :
    unclosedUpTo m number l = [] := by
  induction l generalizing m with
  | nil => rfl
  | cons c cs ih =>
    have hc : c ≠ '\n' := hl.head
    rw [unclosedUpTo, if_neg hc, if_neg hc, ih hl.tail]
    rfl

theorem unclosedFrom_last {m : Mode} {l : Text} (hl : Text.OneLine l) (number : Nat) :
    unclosedFrom m number l = openAt (m.after none l) number true := by
  rw [unclosedFrom_eq, unclosedUpTo_oneLine hl, List.count_eq_zero.mpr hl]
  rfl

theorem unclosedFrom_more {m : Mode} (hm : m.settled = true) {l : Text} (hl : Text.OneLine l)
    (number : Nat) (t : Text) :
    unclosedFrom m number (l ++ '\n' :: t) =
      openAt (m.after none l) number false ++ unclosedFrom (m.after none l).entry
        (number + 1) t := by
  rw [unclosedFrom_append, unclosedUpTo_oneLine hl, List.count_eq_zero.mpr hl, List.head?_cons,
    after_newline_ahead, unclosedFrom_step, step_newline (settled_after hm l)]
  rfl

theorem unclosedFrom_line_le (m : Mode) (number : Nat) (t : Text) :
    ∀ u ∈ unclosedFrom m number t, number ≤ u.line := by
  have hopen (m : Mode) (n : Nat) (atEnd : Bool) : ∀ u ∈ openAt m n atEnd, n ≤ u.line := by
    intro u hu
    cases m with
    | literal q =>
      cases List.mem_singleton.mp hu
      exact Nat.le_refl n
    | code b | line | lineSecond | block | blockSecond | blockLast | escaped q => cases hu
  induction t generalizing m number with
  | nil =>
    rw [unclosedFrom_nil]
    exact hopen m number true
  | cons c cs ih =>
    intro u hu
    rw [unclosedFrom_step] at hu
    rcases List.mem_append.mp hu with hu | hu
    · split at hu
      · exact hopen m number false u hu
      · cases hu
    · have := ih _ _ u hu
      split at this <;> omega

/-- A report about a text that begins some lines further down. -/
def UnclosedLiteral.shift (lines : Nat) (u : UnclosedLiteral) :
    UnclosedLiteral := { u with line := u.line + lines }

theorem unclosedFrom_shift (m : Mode) (number lines : Nat) (t : Text) :
    unclosedFrom m (number + lines) t = (unclosedFrom m number t).map
      (UnclosedLiteral.shift lines) := by
  have hopen (m : Mode) (n : Nat) (atEnd : Bool) :
      openAt m (n + lines) atEnd = (openAt m n atEnd).map (UnclosedLiteral.shift lines) := by
        cases m <;> rfl
  induction t generalizing m number with
  | nil => rw [unclosedFrom_nil, unclosedFrom_nil, hopen]
  | cons c cs ih =>
    rw [unclosedFrom_step, unclosedFrom_step, List.map_append, ← ih, hopen]
    by_cases hc : c = '\n'
    · simp only [if_pos hc, Nat.add_right_comm]
    · simp only [if_neg hc, List.map_nil]

/-- The line of the last block comment that a part opens, or the given one. -/
def openedUpTo (m : Mode) (opened number : Nat) (ahead : Option Char) : Text → Nat
  | [] => opened
  | c :: cs =>
    let next := (m.step c (cs.head?.or ahead)).2
    openedUpTo next (if next = .blockSecond then number else opened) (if c = '\n' then number + 1
      else number) ahead cs

theorem openCommentFrom_append (m : Mode) (opened number : Nat) (a b : Text) :
    openCommentFrom m opened number (a ++ b) =
      openCommentFrom (m.after b.head? a) (openedUpTo m opened number b.head? a)
      (number + a.count '\n') b := by
  induction a generalizing m opened number with
  | nil => rfl
  | cons c cs ih =>
    rw [List.cons_append, openCommentFrom, ih, List.head?_append, openedUpTo, Mode.after,
      line_after_cons]

theorem step_inBlock {m : Mode} (hm : m.inBlock = false) {c : Char} {ahead : Option Char}
    (h : (m.step c ahead).2 ≠ .blockSecond) : (m.step c ahead).2.inBlock = false := by
  cases m with
  | code b =>
    rw [step] at h ⊢
    obtain ⟨-, -, e⟩ | ⟨-, -, e⟩ | ⟨q, -, -, e⟩ | ⟨-, -, e⟩ := stepCode_cases b c ahead
    · rw [e]; rfl
    · rw [e] at h; exact absurd rfl h
    · rw [e]; rfl
    · rw [e]; rfl
  | literal q =>
    rw [step]
    obtain ⟨-, e⟩ | ⟨-, e⟩ | ⟨-, -, e⟩ | ⟨-, -, -, e⟩ := stepLiteral_cases q c ahead <;>
      rw [e] <;> rfl
  | line =>
    rw [step]
    split <;> rfl
  | block | blockSecond => cases hm
  | lineSecond | blockLast | escaped q => rfl

theorem openCommentFrom_opened {m : Mode} (hm : m.inBlock = false) (opened opened' number : Nat)
    (t : Text) :
    openCommentFrom m opened number t = openCommentFrom m opened' number t := by
  induction t generalizing m opened opened' number with
  | nil => cases m <;> first | rfl | cases hm
  | cons c cs ih =>
    rw [openCommentFrom, openCommentFrom]
    by_cases h : (m.step c cs.head?).2 = .blockSecond
    · simp only [if_pos h]
    · simp only [if_neg h]
      exact ih (step_inBlock hm h) _ _ _

theorem openCommentFrom_shift (m : Mode) (opened number lines : Nat) (t : Text) :
    openCommentFrom m (opened + lines) (number + lines) t = (openCommentFrom m opened number t).map
      (· + lines) := by
  induction t generalizing m opened number with
  | nil => cases m <;> rfl
  | cons c cs ih =>
    rw [openCommentFrom, openCommentFrom, ← ih]
    congr 1
    · split <;> rfl
    · split <;> omega

namespace BracketReport

def behind (report : BracketReport) (issues : List BracketIssue) : BracketReport :=
  { report with issues := issues ++ report.issues }

@[simp] theorem behind_issues (report : BracketReport) (issues : List BracketIssue) :
    (report.behind issues).issues = issues ++ report.issues := rfl

@[simp] theorem behind_unclosed (report : BracketReport) (issues : List BracketIssue) :
    (report.behind issues).unclosed = report.unclosed := rfl

@[simp] theorem behind_nil (report : BracketReport) : report.behind [] = report := rfl

@[simp] theorem behind_behind (report : BracketReport) (a b : List BracketIssue) :
    (report.behind a).behind b = report.behind (b ++ a) := by
  rw [behind, behind, behind, List.append_assoc]

end BracketReport

/-- What one cell does to the stack: the issue it raises, if any, and the openers that are left. -/
def bracketStep (stack : List OpenBracket) (number : Nat) (c : Cell) :
    List BracketIssue × List OpenBracket :=
  if c.isCode then
    match Bracket.ofOpener? c.char, Bracket.ofCloser? c.char with
    | some kind, _ => ([], ⟨kind, number⟩ :: stack)
    | none, none => ([], stack)
    | none, some kind =>
      match stack with
      | [] => ([⟨kind, number, none⟩], [])
      | top :: below => (if top.kind = kind then [] else [⟨kind, number, some top⟩], below)
  else ([], stack)

theorem bracketStep_newline (stack : List OpenBracket) (number : Nat) {c : Cell}
    (h : c.char = '\n') :
    bracketStep stack number c = ([], stack) := by
  have hopener : Bracket.ofOpener? c.char = none := by rw [h]; rfl
  have hcloser : Bracket.ofCloser? c.char = none := by rw [h]; rfl
  rw [bracketStep, hopener, hcloser]
  split <;> rfl

theorem bracketsFrom_cons (stack : List OpenBracket) (number : Nat) (c : Cell) (cs : List Cell) :
    bracketsFrom stack number (c :: cs) =
      (bracketsFrom (bracketStep stack number c).2 (if c.char = '\n' then number + 1
        else number) cs).behind
        (bracketStep stack number c).1 := by
  by_cases hn : c.char = '\n'
  · rw [bracketStep_newline stack number hn, bracketsFrom, if_pos hn, if_pos hn]
    rfl
  rw [bracketsFrom, bracketStep, if_neg hn, if_neg hn]
  by_cases hcode : c.isCode = true
  · rw [if_pos hcode, if_pos hcode]
    cases Bracket.ofOpener? c.char with
    | some kind => rfl
    | none =>
      cases Bracket.ofCloser? c.char with
      | none => rfl
      | some kind =>
        cases stack with
        | nil => rfl
        | cons top below =>
          by_cases hk : top.kind = kind
          · simp only [if_pos hk]
            rfl
          · simp only [if_neg hk]
            rfl
  · rw [if_neg hcode, if_neg hcode]
    rfl

/-- The report about cells followed by others: the openers that are left go on. -/
theorem bracketsFrom_append (stack : List OpenBracket) (number : Nat) (a b : List Cell) :
    bracketsFrom stack number (a ++ b) =
      (bracketsFrom (bracketsFrom stack number a).unclosed.reverse
        (number + (a.map Cell.char).count '\n') b).behind
        (bracketsFrom stack number a).issues := by
  induction a generalizing stack number with
  | nil => simp [bracketsFrom]
  | cons c cs ih =>
    rw [List.cons_append, bracketsFrom_cons, bracketsFrom_cons, ih, List.map_cons, line_after_cons,
      BracketReport.behind_behind]
    rfl

end PineTools
