import PineTools.Text.Basic

namespace PineTools.Yaml

/-- Characters that end a line. -/
def isBreak (c : Char) : Bool := c == '\n' || Text.inRanges [(0x85, 0x85), (0x2028, 0x2029)] c.toNat

/-- The break that a character stands for in a folded text: the two separators stay, all others are
newlines. -/
def breakOf (c : Char) : Char := if Text.inRanges [(0x2028, 0x2029)] c.toNat then c else '\n'

def endsLine : Option Char → Bool
  | none => true
  | some c => isBreak c

/-- What follows divides words: a blank, a break or the end of the document. -/
def endsWord : Option Char → Bool
  | none => true
  | some c => c == ' ' || isBreak c

/-- What follows divides words or is a tab. -/
def isGap : Option Char → Bool
  | none => true
  | some c => Text.isBlank c || isBreak c

/-- Signs that divide the values of a flow collection. -/
def isFlowSign (c : Char) : Bool := ",[]\x7b\x7d".toList.contains c

/-- Characters of names: letters, digits, hyphen and underscore. -/
def isNameChar (c : Char) : Bool := Text.isLatin c || Text.isAsciiDigit c || c == '-' || c == '_'

def byteOrderMark : Char := Char.ofNat 0xfeff

structure Place where
  rest : Text
  index : Nat
  line : Nat
  column : Nat
  deriving DecidableEq, Repr, Inhabited

namespace Place

def start (t : Text) : Place := ⟨t, 0, 0, 0⟩

def peek (p : Place) : Option Char := p.rest.head?

/-- The character so many characters further. -/
def peekAt (p : Place) (n : Nat) : Option Char := p.rest[n]?

/-- The place after a character, which is followed by the given text. -/
def past (p : Place) (c : Char) (rest : Text) : Place :=
  if isBreak c then ⟨rest, p.index + 1, p.line + 1, 0⟩
  else ⟨rest, p.index + 1, p.line, if c = byteOrderMark then p.column else p.column + 1⟩

def next (p : Place) : Place :=
  match p.rest with
  | [] => p
  | c :: rest => p.past c rest

/-- So many characters further. -/
def skip (p : Place) : Nat → Place
  | 0 => p
  | n + 1 => p.next.skip n

def skipWhile (p : Place) (test : Char → Bool) : Place := p.skip (p.rest.takeWhile test).length

/-- The longest run of characters that satisfy the test, and the place after it. -/
def takeWhile (p : Place) (test : Char → Bool) : Text × Place :=
  let run := p.rest.takeWhile test
  (run, p.skip run.length)

/-- Past blanks, without tabs. -/
def skipBlanks (p : Place) : Place := p.skipWhile (· == ' ')

/-- At the end of the line if a comment starts here, otherwise unmoved. -/
def skipComment (p : Place) : Place := if p.peek == some '#' then p.skipWhile fun c => !isBreak c
    else p

/-- The three characters of a mark stand here, and no word goes on after them. -/
def atMark (mark : String) (p : Place) : Bool := p.rest.take 3 == mark.toList && isGap (p.peekAt 3)

def atDocumentMark (p : Place) : Bool := p.atMark "---" || p.atMark "..."

end Place
end PineTools.Yaml
