import PineTools.Pattern.Basic
import PineTools.Construct.Keyword

/-! Statements as they look on one line of masked code: the declaration call of a script, imports,
exported variables, variable declarations, function definitions and reassignments. -/
namespace PineTools

open Reader

variable {α : Type} [Glyph α]

/-- Joins the glyphs of consecutive readings. -/
def Reader.inTurn (rs : List (Reader α (List α))) : Reader α (List α) :=
  match rs with
  | [] => return []
  | r :: rest => do
    let gs ← r
    let hs ← Reader.inTurn rest
    return gs ++ hs

/-- The call by which a script says what it is. The call `study` is the older spelling of
`indicator`. -/
inductive DeclarationCall where
  | indicator
  | study
  | strategy
  | library
  deriving DecidableEq, Repr, Inhabited

namespace DeclarationCall

def name : DeclarationCall → String
  | indicator => "indicator"
  | study => "study"
  | strategy => "strategy"
  | library => "library"

def kind : DeclarationCall → String
  | indicator | study => "indicator"
  | strategy => "strategy"
  | library => "library"

def all : List DeclarationCall := [indicator, study, strategy, library]

end DeclarationCall

def declaration : Pattern α DeclarationCall :=
  Pattern.atLineStart (firstOf (DeclarationCall.all.map fun call => do
    discard <| word call.name
    discard blanks
    discard <| one (· == '(')
    return call))

def importStatement : Pattern α Unit :=
  Pattern.atLineStart do
    discard blanks
    discard <| word "import"
    discard blanks1
    discard <| run1 fun c => !Text.isSpace c

/-- An export that declares a variable in the same statement. `tail` is what follows the value up to
the end of the line: blanks and at most one semicolon. -/
structure ExportedVariable (α : Type) where
  indent : List α
  kind : List α
  name : List α
  value : List α
  tail : List α

/-- Words that declare a variable inside an export. -/
def exportKinds : List String := ["varip", "var", "const"]

def exportedVariable : Pattern α (ExportedVariable α) :=
  Pattern.atLineStart do
    let indent ← blanks
    discard <| word "export"
    discard blanks1
    let kind ← firstOf (exportKinds.map word)
    discard blanks1
    let name ← name
    discard blanks
    discard assign
    discard blanks
    let body ← run fun c => c != ';' && c != '\n'
    let closing ← inTurn [run (· == ';') >>= fun gs => if gs.length ≤ 1 then return gs
      else failure, blanks]
    endOf (· != '\n')
    let value := Text.trimRight (fun g => Text.isBlank (Glyph.seen g)) body
    return ⟨indent, kind, name, value, body.drop value.length ++ closing⟩

/-- The beginning of an export that declares a variable. -/
def exportHead : Pattern α (List α) :=
  Pattern.atLineStart do
    let gs ← inTurn [blanks, word "export", blanks1]
    let kind ← firstOf (exportKinds.map fun w => do
      let gs ← word w
      endOf Text.isWord
      return gs)
    return gs ++ kind

/-- A type name without qualifier: a plain type, or a generic one with its element types. -/
def unqualifiedType : Reader α (List α) := do
  let first ← run1 Text.isWord
  if showsOneOf first plainTypes then return first
  else if showsOneOf first genericTypes then
    let rest ← inTurn
      [word "<", run1 fun c => Text.isWord c || Text.isBlank c || c == ',' || c == '.', word ">"]
    return first ++ rest
  else failure

def typeName : Reader α (List α) :=
  inTurn
    [do
      let gs ← run1 Text.isWord
      guard (showsOneOf gs typeQualifiers)
      return gs,
     blanks1, unqualifiedType]
    <|> unqualifiedType

/-- A type name and the blanks that divide it from what it describes. Only the type is returned. -/
def leadingType : Reader α (List α) := do
  let type ← typeName
  discard blanks1
  return type

/-- A function definition on one line, up to its arrow. `method` holds the keyword with its blanks.
-/
structure FunctionDefinition (α : Type) where
  indent : List α
  method : Option (List α)
  returnType : Option (List α)
  name : List α
  params : List α

def definitionFromName : Reader α (List α × List α) := do
  notAhead (firstOf (controlWords.map fun w => do
    discard <| word w
    endOf Text.isWord))
  let name ← name
  discard blanks
  discard <| one (· == '(')
  let params ← run fun c => c != '(' && c != ')' && c != '\n'
  discard <| one (· == ')')
  discard blanks
  discard <| word "=>"
  return (name, params)

/-- A function definition. The readings with keyword and type are tried first, so a function may be
called `method`, or after a type. -/
def functionDefinition : Pattern α (FunctionDefinition α) :=
  Pattern.atLineStart do
    let indent ← blanks
    let method : Reader α (List α) := inTurn [word "method", blanks1]
    firstOf
      [do
        let m ← method
        let type ← leadingType
        let (name, params) ← definitionFromName
        return ⟨indent, some m, some type, name, params⟩,
       do
        let m ← method
        let (name, params) ← definitionFromName
        return ⟨indent, some m, none, name, params⟩,
       do
        let type ← leadingType
        let (name, params) ← definitionFromName
        return ⟨indent, none, some type, name, params⟩,
       do
        let (name, params) ← definitionFromName
        return ⟨indent, none, none, name, params⟩]

def definesFunction (masked : Text) (name : Text) : Bool :=
  (Text.lines masked).any fun line =>
    match functionDefinition.readAt? line with
    | some d => seenText d.name == name
    | none => false

/-- A declaration with the keyword `var`, up to its assignment sign. -/
structure VariableDeclaration (α : Type) where
  indent : List α
  keyword : List α
  type : Option (List α)
  name : List α

def variableDeclaration : Pattern α (VariableDeclaration α) :=
  Pattern.atLineStart do
    let indent ← blanks
    let keyword ← word "var"
    discard blanks1
    let named : Reader α (List α) := do
      let name ← name
      discard blanks
      discard assign
      return name
    firstOf
      [do
        let type ← leadingType
        let name ← named
        return ⟨indent, keyword, some type, name⟩,
       do
        let name ← named
        return ⟨indent, keyword, none, name⟩]

/-- A keyword at the start of a statement, with its indentation. -/
structure LeadingKeyword (α : Type) where
  indent : List α
  keyword : List α

/-- The given keyword at the start of a line, followed by a blank that is not part of the match. -/
def leadingKeyword (w : String) : Pattern α (LeadingKeyword α) :=
  Pattern.atLineStart do
    let indent ← blanks
    let keyword ← word w
    ahead blanks1
    return ⟨indent, keyword⟩

def varipWord : Pattern α Unit :=
  Pattern.fresh do
    discard <| word "varip"
    endOf Text.isWord

/-- Signs that give an existing variable a new value. -/
def reassignmentSigns : List String := [":=", "+=", "-=", "*=", "/=", "%="]

def reassignment (name : Text) : Pattern α Unit :=
  Pattern.fresh do
    discard <| exactly name
    discard blanks
    discard <| firstOf (reassignmentSigns.map word)

structure Declaration where
  call : DeclarationCall
  line : Nat
  deriving DecidableEq, Repr, Inhabited

def declarations (t : Text) : List Declaration :=
  ((declaration : Pattern Cell DeclarationCall).findAll (cells t)).map fun m =>
    ⟨m.value, Text.lineAt t m.start⟩

end PineTools
