import PineTools.Construct.Call
import PineTools.Scan.Brackets

/-! Tokens of one line. A token holds the blanks before it, so that gaps and texts together give the
line back. A comment or a literal is a single token, and no token mixes code with either. -/
namespace PineTools.Layout

inductive TokenKind where
  | name
  | number
  | literal
  | comment
  | operator
  | opener
  | closer
  | comma
  | dot
  | other
  deriving DecidableEq, Repr, Inhabited

/-- What an operator does. `plain` stands for tokens that are no operators. -/
inductive Role where
  | plain
  | binary
  | unary
  | named
  | genericOpen
  | genericClose
  deriving DecidableEq, Repr, Inhabited

structure Token where
  kind : TokenKind
  text : Text
  gap : Text
  role : Role := .plain
  deriving DecidableEq, Repr, Inhabited

namespace Token

def isOperator (t : Token) (s : String) : Bool := t.kind == .operator && t.text == s.toList

end Token

open Reader

/-- A number: digits with an optional fraction and exponent, or a fraction alone. -/
def numberToken : Reader Cell (List Cell) :=
  (do
    let whole ← run1 Text.isDecimal
    let fraction ← optional do
      let point ← one (· == '.')
      let digits ← run Text.isDecimal
      return point :: digits
    let exponent ← optional do
      let mark ← one fun c => c == 'e' || c == 'E'
      let sign ← optional (one fun c => c == '+' || c == '-')
      let digits ← run1 Text.isDecimal
      return mark :: (sign.toList ++ digits)
    return whole ++ fraction.getD [] ++ exponent.getD [])
    <|> (do
      let point ← one (· == '.')
      let digits ← run1 Text.isDecimal
      return point :: digits)

/-- A name with its dotted parts. A dot at the end is not part of it. -/
def nameToken : Reader Cell (List Cell) := do
  let first ← name
  let parts ← many do
    let point ← one (· == '.')
    let part ← name
    return point :: part
  return first ++ parts.flatten

def isHexDigit (c : Char) : Bool := Text.isAsciiDigit c || ('a' ≤ c && c ≤ 'f') ||
    ('A' ≤ c && c ≤ 'F')

/-- A colour: a hash sign and hexadecimal digits. -/
def colorToken : Reader Cell (List Cell) := do
  let hash ← one (· == '#')
  let digits ← run1 isHexDigit
  return hash :: digits

/-- Operators of two characters. They are tried before the single ones. -/
def longOperators : List String :=
  [":=", "==", "!=", "<=", ">=", "=>", "+=", "-=", "*=", "/=", "%="]

def isOperatorChar (c : Char) : Bool := "-+*/%<>=?:".toList.contains c

def operatorToken :
    Reader Cell (List Cell) := firstOf (longOperators.map word) <|>
    List.singleton <$> one isOperatorChar

/-- The kind of a bracket, comma or dot. -/
def punctuation? (c : Char) : Option TokenKind :=
  if isOpener c then some .opener
  else if isCloser c then some .closer
  else if c == ',' then some .comma
  else if c == '.' then some .dot
  else none

def codeToken (c : Cell) (rest : List Cell) : TokenKind × Nat :=
  let size := fun r : Reader Cell (List Cell) => (r (c :: rest)).map fun p => p.1.length
  match size numberToken, size nameToken, size colorToken, punctuation? c.char,
    size operatorToken with
  | some n, _, _, _, _ => (.number, n)
  | none, some n, _, _, _ => (.name, n)
  | none, none, some n, _, _ => (.other, n)
  | none, none, none, some kind, _ => (kind, 1)
  | none, none, none, none, some n => (.operator, n)
  | none, none, none, none, none => (.other, 1)

/-- How many further cells belong to a comment of which `taken` cells, the last showing `last`, are
read. A block comment is cut after a star and a slash, so that two adjacent ones stay apart. -/
def commentLength (region : Region) (taken : Nat) (last : Char) : List Cell → Nat
  | [] => 0
  | c :: cs =>
    if c.region = region then
      if region = .blockComment ∧ last = '*' ∧ c.char = '/' ∧ taken + 1 > 2 then 1
      else commentLength region (taken + 1) c.char cs + 1
    else 0

/-- How many further cells belong to a literal whose first cell is read. -/
def literalLength : List Cell → Nat
  | [] => 0
  | c :: cs => if c.region.isLiteral then if c.delimiter then 1 else literalLength cs + 1 else 0

/-- The kind of the token that starts with the given cell, and its number of cells after the first.
-/
def tokenAt (c : Cell) (rest : List Cell) : TokenKind × Nat :=
  match c.region with
  | .lineComment | .blockComment => (.comment, commentLength c.region 1 c.char rest)
  | .literal _ => (.literal, literalLength rest)
  | .code =>
    let (kind, size) := codeToken c rest
    (kind, size - 1)

/-- The tokens of a line after the given gap. Blanks after the last token are dropped. -/
def tokensAfter (gap : Text) : List Cell → List Token
  | [] => []
  | c :: cs =>
    if c.isCode && Text.isBlank c.char then tokensAfter (gap ++ [c.char]) cs
    else
      let (kind, extra) := tokenAt c cs
      { kind, text := c.char :: (cs.take extra).map Cell.char, gap } :: tokensAfter []
        (cs.drop extra)
termination_by line => line.length
decreasing_by
  · exact Nat.lt_succ_self _
  · rw [List.length_drop, List.length_cons]
    exact Nat.lt_succ_of_le (Nat.sub_le _ _)

def tokens (line : List Cell) : List Token := tokensAfter [] line

end PineTools.Layout
