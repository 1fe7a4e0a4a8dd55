import PineTools.Layout.Options
import PineTools.Layout.Token

/-! Spaces between the tokens of a line. Operators get a role from their neighbours and from the
bracket around them; what stands between two tokens depends on their kinds and roles, and next to a
comment it stays as it was. -/
namespace PineTools.Layout

/-- The part of a dotted name before its first dot. -/
def nameHead (t : Text) : Text := t.takeWhile (· != '.')

/-- A name that an angle bracket may follow: a generic type, or its constructor. -/
def isGenericName (t : Text) : Bool :=
  let isType := fun n : Text => genericTypes.any fun g => g.toList == n
  isType t || (isType (nameHead t) && ".new".toList.isSuffixOf t)

/-- The number of angle brackets up to the one that closes the current list of element types, if
only names, commas and angle brackets stand before it. -/
def genericOperators (depth : Nat) : List Token → Option Nat
  | [] => none
  | t :: ts =>
    if t.isOperator "<" then (genericOperators (depth + 1) ts).map (· + 1)
    else if t.isOperator ">" then
      match depth with
      | 0 => some 1
      | depth + 1 => (genericOperators depth ts).map (· + 1)
    else if t.kind == .name || t.kind == .comma then genericOperators depth ts
    else none

/-- A sign that stands where no left operand can be. -/
def isUnary (t : Token) (previous : Option Token) : Bool :=
  (t.isOperator "+" || t.isOperator "-") &&
    match previous with
    | none => true
    | some p =>
      p.kind == .operator || p.kind == .opener || p.kind == .comma ||
        (p.kind == .name && isKeyword p.text)

def isNamedSign (t : Token) (opened : List Char) (previous earlier : Option Token) : Bool :=
  t.isOperator "=" && opened.head? == some '(' && previous.any (fun p => p.kind == .name) &&
    match earlier with
    | none => true
    | some e => e.kind == .opener || e.kind == .comma

/-- The role of an operator, and how many of the operators after it belong to its list of element
types. -/
def operatorRole (t : Token) (opened : List Char) (previous earlier : Option Token)
    (followers : List Token) : Role × Nat :=
  if isUnary t previous then (.unary, 0)
  else if isNamedSign t opened previous earlier then (.named, 0)
  else if t.isOperator "<" && previous.any (fun p => p.kind == .name && isGenericName p.text) then
    match genericOperators 0 followers with
    | some n => (.genericOpen, n)
    | none => (.binary, 0)
  else (.binary, 0)

/-- Gives operators their roles. `opened` are the brackets around the line, the innermost first;
`pending` counts the coming operators that belong to a list of element types. -/
def assignRoles (opened : List Char) (previous earlier : Option Token) (pending : Nat) :
    List Token → List Token
  | [] => []
  | t :: ts =>
    match t.kind with
    | .comment => t :: assignRoles opened previous earlier pending ts
    | .opener => t :: assignRoles (t.text.take 1 ++ opened) (some t) previous pending ts
    | .closer => t :: assignRoles (opened.drop 1) (some t) previous pending ts
    | .operator =>
      match pending with
      | pending + 1 =>
        let role := if t.text == ['<'] then Role.genericOpen else .genericClose
        { t with role } :: assignRoles opened (some t) previous pending ts
      | 0 =>
        let (role, inner) :=
          operatorRole t opened previous earlier (ts.filter fun f => f.kind != .comment)
        { t with role } :: assignRoles opened (some t) previous inner ts
    | _ => t :: assignRoles opened (some t) previous pending ts

def keptBlank (t : Token) : Text := if t.gap.isEmpty then [] else [' ']

def blankIf (condition : Bool) : Text := if condition then [' '] else []

def separator (options : FormatOptions) (p t : Token) : Text :=
  if t.kind == .comment || p.kind == .comment then t.gap
  else if t.kind == .comma || t.kind == .closer then []
  else if p.kind == .comma then blankIf options.spaceAfterCommas
  else if p.kind == .opener || t.kind == .dot || p.kind == .dot then []
  else if t.role == .genericOpen || t.role == .genericClose || p.role == .genericOpen then []
  else if t.role == .named || p.role == .named || p.role == .unary then []
  else if t.role == .binary || p.role == .binary then blankIf options.spacesAroundOperators
  else if t.role == .unary then [' ']
  else if t.kind == .opener then
    if t.text == ['\x7b'] || (p.kind == .name && isKeyword p.text) then keptBlank t
    else if p.kind == .name || p.kind == .closer || p.role == .genericClose then []
    else keptBlank t
  else keptBlank t

def joinAfter (options : FormatOptions) (p : Token) : List Token → Text
  | [] => []
  | t :: ts => separator options p t ++ t.text ++ joinAfter options t ts

/-- Writes tokens with canonical spaces. -/
def joinTokens (options : FormatOptions) : List Token → Text
  | [] => []
  | t :: ts => t.text ++ joinAfter options t ts

/-- A line, without its indentation, with canonical spaces. -/
def spaceLine (options : FormatOptions) (opened : List Char) (line : List Cell) : Text :=
  joinTokens options (assignRoles opened none none 0 (tokens line))

end PineTools.Layout
