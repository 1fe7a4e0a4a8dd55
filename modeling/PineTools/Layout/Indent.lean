import PineTools.Layout.Spacing

/-! Indentation. A stack of levels runs over the lines: a bracket level for the openers that one
line leaves open, and a block level for the body of a keyword line. A line is indented by the height
of the stack; lines that continue an operator expression or a block comment keep their indentation.
-/
namespace PineTools.Layout

/-- A level of indentation. Each remembers the line that opened it. A bracket level lists its
unmatched openers, the innermost first; a block level has the width at which its keyword line stood.
-/
inductive Level where
  | bracket (line : Nat) (openers : List Char)
  | block (line width : Nat)
  deriving DecidableEq, Repr, Inhabited

namespace Level

def isBracket : Level → Bool
  | bracket _ _ => true
  | block _ _ => false

/-- A parenthesis or square bracket, whose lines continue one expression. A brace holds statements.
-/
def isGroup : Level → Bool
  | bracket _ openers => openers.head? != some '\x7b'
  | block _ _ => false

def isBlockOf (line : Nat) : Level → Bool
  | block l _ => l == line
  | bracket _ _ => false

def isBracketOf (line : Nat) : Level → Bool
  | bracket l _ => l == line
  | block _ _ => false

end Level

/-- The levels, the innermost first, and the open brackets, the innermost first. -/
structure Nesting where
  levels : List Level
  opened : List Char
  deriving DecidableEq, Repr, Inhabited

namespace Nesting

def empty : Nesting := ⟨[], []⟩

/-- Removes the innermost opener from the innermost bracket level, with the blocks above it. -/
def dropOpener : List Level → List Level
  | [] => []
  | .block _ _ :: rest => dropOpener rest
  | .bracket line openers :: rest =>
    match openers with
    | _ :: next :: more => .bracket line (next :: more) :: rest
    | _ => rest

def close (n : Nesting) : Nesting :=
  ⟨if n.levels.any Level.isBracket then dropOpener n.levels else n.levels, n.opened.drop 1⟩

/-- Closes several brackets. -/
def closeMany : Nat → Nesting → Nesting
  | 0, n => n
  | k + 1, n => closeMany k n.close

/-- Follows the brackets of a line. `own` are the openers of the line that are still open, the
innermost first. -/
def follow (own : List Char) (n : Nesting) : Text → Nesting × List Char
  | [] => (n, own)
  | c :: cs =>
    if isOpener c then follow (c :: own) { n with opened := c :: n.opened } cs
    else if isCloser c then
      match own with
      | _ :: rest => follow rest { n with opened := n.opened.drop 1 } cs
      | [] => follow [] n.close cs
    else follow own n cs

/-- Follows the brackets of a line; the openers it leaves open make one level. -/
def track (line : Nat) (n : Nesting) (code : Text) : Nesting × List Char :=
  match n.follow [] code with
  | (after, []) => (after, [])
  | (after, own) => ({ after with levels := .bracket line own :: after.levels }, own)

/-- Ends the blocks whose keyword line stood at least as far right. -/
def endBlocks (width : Nat) : List Level → List Level
  | .block line w :: rest => if width ≤ w then endBlocks width rest else .block line w :: rest
  | levels => levels

end Nesting

def startsWithWord (words : List String) (code : Text) : Bool :=
  words.any fun w => w.toList.isPrefixOf code && !(code.drop w.length).head?.any Text.isWord

open Reader in
/-- An assignment or arrow that is followed by a block keyword. A single equals sign counts when it
is not the end of a longer operator. -/
def blockExpression : Pattern Char Unit := fun before => do
  let sign : Reader Char Text := firstOf
    [do
      guard !(before.any fun c => "=!<>:".toList.contains c)
      word "=",
     word ":=", word "=>"]
  let tail : Reader Char Unit := do
    discard blanks
    let rest ← get
    guard (startsWithWord ["if", "switch", "for", "while"] rest)
  (do
    discard sign
    tail)
    <|> (do
      discard <| word "=>"
      tail)

def opensBlock (code : Text) : Bool :=
  if "=>".toList.isSuffixOf code then true
  else if startsWithWord ["method", "function"] code then false
  else if startsWithWord ["if", "else", "for", "while", "switch", "type"] code then true
  else blockExpression.occursIn code

/-- The text ends with the given word, which no word character precedes. -/
def endsWithWord (w : String) (code : Text) : Bool :=
  w.toList.isSuffixOf code && !((code.take (code.length - w.length)).getLast?.any Text.isWord)

/-- The line ends with an operator, so that the next one continues it. -/
def endsOpen (code : Text) : Bool :=
  code.getLast?.any (fun c => "-+*/%?:,<>=".toList.contains c)
    || endsWithWord "and" code || endsWithWord "or" code || endsWithWord "not" code

/-- What is carried from line to line. `lastBlock` is the line of a block that was just opened. -/
structure IndentState where
  nesting : Nesting
  continuation : Bool
  statementWidth : Nat
  lastBlock : Option Nat
  deriving Repr, Inhabited

def IndentState.start : IndentState := ⟨.empty, false, 0, none⟩

/-- A line after indentation and spacing, with what was changed. -/
structure IndentedLine where
  text : Text
  reindented : Bool
  respaced : Bool
  deriving Repr, Inhabited

def leadingBlanks (t : Text) : Text := t.takeWhile Text.isBlank

def indentUnit (options : FormatOptions) : Text :=
  if options.useSpaces then List.replicate options.indentSize ' ' else ['\t']

/-- The levels in force at the start of a statement: a brace on its own line takes over the block of
the line above, and blocks end at a line that stands no further right. -/
def levelsAtStatement (s : IndentState) (code : Text) (width : Nat) : List Level :=
  let levels := s.nesting.levels
  let inGroup := levels.head?.any Level.isGroup
  let levels :=
    match levels, s.lastBlock with
    | top :: rest, some line => if code.head? == some '\x7b' && top.isBlockOf line then rest
        else levels
    | _, _ => levels
  if inGroup then levels else Nesting.endBlocks width levels

/-- Adds the block of a keyword line. Below brackets that the line leaves open it waits until they
close. -/
def pushBlock (line width : Nat) (own : List Char) (levels : List Level) : List Level :=
  match own, levels with
  | _ :: _, top :: rest => top :: .block line width :: rest
  | _, _ => .block line width :: levels

def layCode (options : FormatOptions) (s : IndentState) (number : Nat) (line : ScriptLine)
    (code : Text) :
    IndentedLine × IndentState :=
  let text := line.text
  let leading := leadingBlanks text
  let width := Text.columnAfter options.indentSize leading
  let group := s.nesting.levels.head?.filter Level.isGroup
  let levels := if s.continuation then s.nesting.levels else levelsAtStatement s code width
  let lastBlock := if s.continuation then s.lastBlock else none
  let statementWidth := if s.continuation || group.isSome then s.statementWidth else width
  let closers := (code.takeWhile isCloser).length
  let nesting := Nesting.closeMany closers { s.nesting with levels }
  let spaced := spaceLine options s.nesting.opened (line.cells.drop leading.length)
  let indent := if s.continuation then leading
    else (List.replicate nesting.levels.length (indentUnit options)).flatten
  let laid := Text.trimRight Text.isSpace (indent ++ spaced)
  let (nesting, own) := nesting.track number (code.drop closers)
  let insideGroup :=
    match group with
    | some (.bracket opened _) => nesting.levels.any (Level.isBracketOf opened)
    | _ => false
  let opens := opensBlock code && !insideGroup && own.head? != some '\x7b'
  let levels := if opens then pushBlock number statementWidth own nesting.levels else nesting.levels
  let continuation := !levels.head?.any Level.isGroup && !"=>".toList.isSuffixOf code &&
    endsOpen code
  ({ text := laid
     reindented := leadingBlanks laid != leading
     respaced := laid.dropWhile Text.isBlank != Text.strip text },
   { nesting := { nesting with levels }
     continuation
     statementWidth
     lastBlock := if opens && own.isEmpty then some number else lastBlock })

def layLine (options : FormatOptions) (s : IndentState) (number : Nat) (line : ScriptLine) :
    IndentedLine × IndentState :=
  let text := line.text
  let code := Text.strip line.masked
  if Text.isAllSpace text then (⟨[], !text.isEmpty, false⟩, s)
  else if line.inComment then
    (⟨Text.trimRight Text.isSpace text, false, false⟩,
      { s with nesting := (s.nesting.track number code).1 })
  else if code.isEmpty then (⟨Text.trimRight Text.isSpace text, false, false⟩, s)
  else layCode options s number line code

def layLines (options : FormatOptions) (s : IndentState) (number : Nat) :
    List ScriptLine → List IndentedLine
  | [] => []
  | line :: rest =>
    let (laid, s) := layLine options s number line
    laid :: layLines options s (number + 1) rest

def indentLines (options : FormatOptions) (t : Text) :
    List IndentedLine := layLines options .start 1 (scriptLines t)

end PineTools.Layout
