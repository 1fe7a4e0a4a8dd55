import PineTools.Construct.Keyword
import PineTools.Pattern.Basic
import PineTools.Scan.Brackets

/-! Calls and their arguments. A call may have lost its commas: that is suspected only where the
whole argument list is bare tokens with blanks between them, since anything wider would touch
legitimate code. -/
namespace PineTools

open Reader

variable {α : Type} [Glyph α]

/-- The name of a function where it is called and not part of a longer dotted name. The opening
parenthesis is not part of the match. -/
def callOf (name : Text) : Pattern α Unit :=
  Pattern.fresh do
    discard <| exactly name
    ahead do
      discard blanks
      one (· == '(')

/-- A call whose arguments hold no parentheses. `defines` tells that an arrow follows, so that it is
a definition and no call. -/
structure SimpleCall (α : Type) where
  name : List α
  gap : List α
  args : List α
  defines : Bool

def simpleCall : Pattern α (SimpleCall α) :=
  Pattern.fresh do
    let name ← dottedName
    let gap ← blanks
    discard <| one (· == '(')
    let args ← run fun c => c != '(' && c != ')' && c != '\n'
    discard <| one (· == ')')
    let arrow ← fun gs => some ((((do
      discard blanks
      word "=>") : Reader α (List α)) gs).isSome, gs)
    return ⟨name, gap, args, arrow⟩

/-- The beginning of a call: its name, with the opening parenthesis as the last glyph of the match.
-/
def callHead : Pattern α (List α) :=
  Pattern.fresh do
    let name ← dottedName
    discard blanks
    discard <| one (· == '(')
    return name

def unsignedNumber : Reader α (List α) := do
  let whole ← run1 Text.isDecimal
  let fraction ← optional do
    let point ← one (· == '.')
    let digits ← run1 Text.isDecimal
    return point :: digits
  return whole ++ fraction.getD []

def quotedLiteral (q : Quote) : Reader α (List α) := do
  let opening ← one (· == q.char)
  let inner ← run fun c => c != q.char && c != '\n'
  let closing ← one (· == q.char)
  return opening :: (inner ++ [closing])

def anyLiteral : Reader α (List α) := quotedLiteral .double <|> quotedLiteral .single

/-- An input call whose number is followed by its title without a comma. `before` is what the match
holds before the number. -/
structure InputWithoutComma (α : Type) where
  before : List α
  number : List α
  gap : List α
  title : List α

def inputWithoutComma : Pattern α (InputWithoutComma α) :=
  Pattern.fresh do
    let call ← word "input"
    let gap ← blanks
    let paren ← one (· == '(')
    let inner ← blanks
    let sign ← run (· == '-')
    guard (sign.length ≤ 1)
    let digits ← unsignedNumber
    let between ← blanks1
    let title ← anyLiteral
    return ⟨call ++ gap ++ paren :: inner, sign ++ digits, between, title⟩

/-- A token that needs no operator: a dotted name, an unsigned number or a literal. A signed number
is none, since a sign between two tokens is a subtraction. -/
def bareToken : Reader α (List α) := firstOf [dottedName, unsignedNumber, anyLiteral]

/-- Bare tokens with blanks between and around them, and nothing else. -/
def spacedTokens : Reader α (List (List α)) := do
  discard blanks
  let first ← bareToken
  let others ← many do
    discard blanks1
    bareToken
  discard blanks
  done
  return first :: others

/-- The argument list is two or more bare tokens, none of them a reserved word, without a comma. -/
def isSpaceSeparated (masked : Text) : Bool :=
  if masked.contains ',' then false
  else
    match (spacedTokens : Reader Char (List Text)) masked with
    | some (tokens, _) => tokens.length ≥ 2 && tokens.all fun t => !isKeyword t && !isTypeKeyword t
    | none => false

/-- Characters at which a bare token may begin or end. -/
def isTokenEdge (c : Char) : Bool := Text.isWord c || (Quote.ofChar? c).isSome

/-- The last character of a token and the blanks up to the next token. -/
def tokenGap : Pattern α Unit := fun _ => do
  discard <| one isTokenEdge
  discard blanks1
  ahead <| one isTokenEdge

/-- Writes a text with a comma and a blank in place of each gap, from the offset `last` on. A gap
runs from the first offset of its pair up to the second. -/
def fillGaps (args : Text) (last : Nat) : List (Nat × Nat) → Text
  | [] => args.drop last
  | (start, stop) :: gaps => Text.slice args last start ++ ',' :: ' ' :: fillGaps args stop gaps

/-- Inserts a comma and a blank between adjacent tokens. The gaps are those of the mask, so that
blanks inside a literal stay. -/
def insertCommas (args masked : Text) : Text :=
  Text.strip (fillGaps args 0 ((tokenGap.findAll masked).map fun m => (m.start + 1, m.stop)))

/-- Cuts a text at the commas that no bracket encloses. -/
def splitArgumentsFrom (depth : Int) : Text → List Text
  | [] => [[]]
  | c :: cs =>
    let depth := if isOpener c then depth + 1 else if isCloser c then depth - 1 else depth
    if c = ',' ∧ depth = 0 then [] :: splitArgumentsFrom depth cs
    else
      match splitArgumentsFrom depth cs with
      | [] => [[c]]
      | p :: ps => (c :: p) :: ps

/-- The arguments of a masked argument list, without the blank ones. -/
def splitArguments (masked : Text) : List Text := (splitArgumentsFrom 0 masked).filter fun a =>
    !Text.isAllSpace a

/-- The text up to the closer that brings the depth back to zero. -/
def enclosedFrom (depth : Int) : Text → Option Text
  | [] => none
  | c :: cs =>
    let depth := if isOpener c then depth + 1 else if isCloser c then depth - 1 else depth
    if isCloser c && depth == 0 then some [] else (enclosedFrom depth cs).map (c :: ·)

/-- The argument text of the call whose opening parenthesis is at the given offset, if it closes on
the line. -/
def callArguments (line : Text) (openParen : Nat) : Option Text :=
  (enclosedFrom 0 (line.drop openParen)).map (·.drop 1)

/-- A call that seems to have lost its commas, with the offsets of the call and of its arguments. -/
structure MissingCommas where
  name : Text
  line : Nat
  start : Nat
  stop : Nat
  argsStart : Nat
  argsStop : Nat
  deriving DecidableEq, Repr, Inhabited

def MissingCommas.ofMatch? (masked : Text) (m : Match Char (SimpleCall Char)) :
    Option MissingCommas :=
  let argsStart := m.start + m.value.name.length + m.value.gap.length + 1
  if isKeyword m.value.name || m.value.defines || !isSpaceSeparated m.value.args then none
  else some ⟨m.value.name, Text.lineAt masked m.start, m.start, m.stop, argsStart,
    argsStart + m.value.args.length⟩

/-- The calls of a script that seem to have lost their commas. -/
def missingCommas (t : Text) : List MissingCommas :=
  let masked := mask t
  (simpleCall.findAll masked).filterMap (MissingCommas.ofMatch? masked)

/-- Built-in functions for which a call with several arguments should name at least one of them. -/
def namedArgumentBuiltins : List String :=
  ["plot", "plotshape", "plotchar", "plotarrow", "plotcandle", "plotbar", "hline", "fill",
    "bgcolor", "barcolor",
   "alertcondition", "label.new", "line.new", "box.new", "table.new", "table.cell",
   "strategy.entry", "strategy.exit", "strategy.order", "strategy.close", "request.security",
   "input", "input.int", "input.float", "input.bool", "input.string", "input.color", "input.source",
   "input.timeframe"]

def isNamedArgument (arg : Text) : Bool :=
  ((do
    discard blanks
    discard name
    discard blanks
    assign : Reader Char Char) arg).isSome

end PineTools
