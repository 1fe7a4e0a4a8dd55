import PineTools.Scan.Basic

/-! Bracket balance. A stack of openers runs over the brackets that lie in code. A closer without an
opener is an issue; a closer of the wrong kind is an issue too and takes the opener with it, so that
one slip is reported once. -/
namespace PineTools

/-- The three kinds of brackets. -/
inductive Bracket where
  | paren
  | square
  | brace
  deriving DecidableEq, Repr, Inhabited

namespace Bracket

def opener : Bracket → Char
  | paren => '('
  | square => '['
  | brace => '\x7b'

def closer : Bracket → Char
  | paren => ')'
  | square => ']'
  | brace => '\x7d'

def name : Bracket → String
  | paren => "parenthesis"
  | square => "bracket"
  | brace => "brace"

def ofOpener? (c : Char) : Option Bracket :=
  if c = '(' then some paren else if c = '[' then some square else if c = '\x7b' then some brace
    else none

def ofCloser? (c : Char) : Option Bracket :=
  if c = ')' then some paren else if c = ']' then some square else if c = '\x7d' then some brace
    else none

end Bracket

def isOpener (c : Char) : Bool := (Bracket.ofOpener? c).isSome

def isCloser (c : Char) : Bool := (Bracket.ofCloser? c).isSome

/-- An opener that waits for its closer. -/
structure OpenBracket where
  kind : Bracket
  line : Nat
  deriving DecidableEq, Repr, Inhabited

/-- A closer that does not fit: `met` is the opener it ran into, or nothing when none was open. -/
structure BracketIssue where
  kind : Bracket
  line : Nat
  met : Option OpenBracket
  deriving DecidableEq, Repr, Inhabited

/-- The outcome of the bracket stack. Openers that stay open are listed in the order of the script.
-/
structure BracketReport where
  issues : List BracketIssue
  unclosed : List OpenBracket
  deriving DecidableEq, Repr, Inhabited

namespace BracketReport

def balanced (report : BracketReport) : Bool := report.issues.isEmpty && report.unclosed.isEmpty

end BracketReport

/-- Runs the stack, its top first, from the given line on. -/
def bracketsFrom (stack : List OpenBracket) (line : Nat) : List Cell → BracketReport
  | [] => ⟨[], stack.reverse⟩
  | cell :: cs =>
    if cell.char = '\n' then bracketsFrom stack (line + 1) cs
    else if cell.isCode then
      match Bracket.ofOpener? cell.char, Bracket.ofCloser? cell.char with
      | some kind, _ => bracketsFrom (⟨kind, line⟩ :: stack) line cs
      | none, none => bracketsFrom stack line cs
      | none, some kind =>
        match stack with
        | [] =>
          let report := bracketsFrom [] line cs
          { report with issues := ⟨kind, line, none⟩ :: report.issues }
        | top :: below =>
          let report := bracketsFrom below line cs
          if top.kind = kind then report
          else { report with issues := ⟨kind, line, some top⟩ :: report.issues }
    else bracketsFrom stack line cs

def matchBrackets (t : Text) : BracketReport := bracketsFrom [] 1 (cells t)

def structuralImbalance (t : Text) : Nat :=
  let report := matchBrackets t
  report.issues.length + report.unclosed.length + (unclosedLiterals t).length +
    (if (openComment? t).isSome then 1 else 0)

end PineTools
