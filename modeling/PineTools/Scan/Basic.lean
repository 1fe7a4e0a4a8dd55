import PineTools.Text.Basic
import PineTools.Text.Quote

/-! Lexical regions of a script. Every character lies in code, in a comment or in a string literal,
and each analysis reads the script through this classification.
* Two slashes start a comment that ends at the newline; a slash and a star start one that ends at a
star and a slash and may span lines.
* A quote opens a literal unless a backslash stands right before it. Inside a literal a backslash
takes the next character with it, and the literal ends at the same quote.
* A literal never spans lines: one that is open at a newline, or at the end of the script, is
reported.

The scanner is a machine that reads one character at a time and sees one character ahead, so that it
yields exactly one cell for each character. -/
namespace PineTools

/-- Where a character lies. -/
inductive Region where
  | code
  | lineComment
  | blockComment
  | literal (quote : Quote)
  deriving DecidableEq, Repr, Inhabited

namespace Region

def isComment : Region → Bool
  | lineComment | blockComment => true
  | _ => false

def isLiteral : Region → Bool
  | literal _ => true
  | _ => false

end Region

/-- A character of a script with its region. A delimiter is the opening or closing quote of a
literal. -/
structure Cell where
  char : Char
  region : Region
  delimiter : Bool
  deriving DecidableEq, Repr, Inhabited

namespace Cell

/-- A word character, so that a masked literal still reads as one bare token. -/
def filler : Char := 'x'

/-- The character with everything but code hidden: comments are blank and literals are filled, while
newlines and delimiters stay. -/
def masked (cell : Cell) : Char :=
  if cell.char = '\n' then cell.char
  else
    match cell.region with
    | .code => cell.char
    | .lineComment | .blockComment => ' '
    | .literal _ => if cell.delimiter then cell.char else filler

def isCode (cell : Cell) : Bool := cell.region == .code

end Cell

/-- Where the scanner stands between two characters. The modes `lineSecond`, `blockSecond`,
`blockLast` and `escaped` stand in the middle of a pair whose second character is already decided.
-/
inductive Mode where
  | code (afterBackslash : Bool)
  | lineSecond
  | line
  | blockSecond
  | block
  | blockLast
  | literal (quote : Quote)
  | escaped (quote : Quote)
  deriving DecidableEq, Repr, Inhabited

namespace Mode

def stepCode (afterBackslash : Bool) (c : Char) (ahead : Option Char) : Cell × Mode :=
  if c = '/' ∧ ahead = some '/' then (⟨c, .lineComment, false⟩, .lineSecond)
  else if c = '/' ∧ ahead = some '*' then (⟨c, .blockComment, false⟩, .blockSecond)
  else
    match afterBackslash, Quote.ofChar? c with
    | false, some q => (⟨c, .literal q, true⟩, .literal q)
    | _, _ => (⟨c, .code, false⟩, .code (c == '\\'))

/-- Reads one character inside a literal. -/
def stepLiteral (q : Quote) (c : Char) (ahead : Option Char) : Cell × Mode :=
  if c = '\n' then (⟨c, .code, false⟩, .code false)
  else if c = q.char then (⟨c, .literal q, true⟩, .code false)
  else if c = '\\' ∧ ahead.any (· ≠ '\n') then (⟨c, .literal q, false⟩, .escaped q)
  else (⟨c, .literal q, false⟩, .literal q)

def step (mode : Mode) (c : Char) (ahead : Option Char) : Cell × Mode :=
  match mode with
  | code afterBackslash => stepCode afterBackslash c ahead
  | lineSecond => (⟨c, .lineComment, false⟩, line)
  | line => if c = '\n' then (⟨c, .code, false⟩, code false) else (⟨c, .lineComment, false⟩, line)
  | blockSecond => (⟨c, .blockComment, false⟩, block)
  | block =>
    if c = '*' ∧ ahead = some '/' then (⟨c, .blockComment, false⟩, blockLast)
      else (⟨c, .blockComment, false⟩, block)
  | blockLast => (⟨c, .blockComment, false⟩, code false)
  | literal q => stepLiteral q c ahead
  | escaped q => (⟨c, .literal q, false⟩, literal q)

def start : Mode := code false

end Mode

def cellsFrom (mode : Mode) : Text → List Cell
  | [] => []
  | c :: cs => (mode.step c cs.head?).1 :: cellsFrom (mode.step c cs.head?).2 cs

def cells (t : Text) : List Cell := cellsFrom .start t

theorem cellsFrom_length (mode : Mode) (t : Text) : (cellsFrom mode t).length = t.length := by
  induction t generalizing mode with
  | nil => rfl
  | cons c cs ih => exact congrArg Nat.succ (ih _)

/-- The script with only its code left readable. Offsets and lines are those of the script. -/
def mask (t : Text) : Text := (cells t).map Cell.masked

theorem mask_length (t : Text) : (mask t).length = t.length := by
  rw [mask, List.length_map]
  exact cellsFrom_length .start t

/-- A literal that was still open when its line, or the script, ended. -/
structure UnclosedLiteral where
  line : Nat
  quote : Quote
  atEnd : Bool
  deriving DecidableEq, Repr, Inhabited

def unclosedFrom (mode : Mode) (line : Nat) : Text → List UnclosedLiteral
  | [] =>
    match mode with
    | .literal q => [⟨line, q, true⟩]
    | _ => []
  | c :: cs =>
    let next := (mode.step c cs.head?).2
    if c = '\n' then
      match mode with
      | .literal q => ⟨line, q, false⟩ :: unclosedFrom next (line + 1) cs
      | _ => unclosedFrom next (line + 1) cs
    else unclosedFrom next line cs

def unclosedLiterals (t : Text) : List UnclosedLiteral := unclosedFrom .start 1 t

/-- The line of the block comment that is open at the end, if there is one. `opened` is the line of
the last block comment that was opened. -/
def openCommentFrom (mode : Mode) (opened line : Nat) : Text → Option Nat
  | [] =>
    match mode with
    | .block => some opened
    | _ => none
  | c :: cs =>
    let next := (mode.step c cs.head?).2
    let opened := if next = .blockSecond then line else opened
    openCommentFrom next opened (if c = '\n' then line + 1 else line) cs

def openComment? (t : Text) : Option Nat := openCommentFrom .start 1 1 t

/-- A line of a script. Only a block comment is carried from one line into the next, so `entry` is
the region of the newline before the line. -/
structure ScriptLine where
  entry : Region
  cells : List Cell
  deriving Repr, Inhabited

namespace ScriptLine

def text (line : ScriptLine) : Text := line.cells.map Cell.char

def masked (line : ScriptLine) : Text := line.cells.map Cell.masked

def inComment (line : ScriptLine) : Bool := line.entry == .blockComment

end ScriptLine

def linesFrom (entry : Region) : List Cell → List ScriptLine
  | [] => [⟨entry, []⟩]
  | c :: cs =>
    if c.char = '\n' then ⟨entry, []⟩ :: linesFrom c.region cs
    else
      match linesFrom entry cs with
      | [] => [⟨entry, [c]⟩]
      | l :: ls => ⟨entry, c :: l.cells⟩ :: ls

def scriptLines (t : Text) : List ScriptLine := linesFrom .code (cells t)

end PineTools
