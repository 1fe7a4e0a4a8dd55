import PineTools.Construct.Call
import PineTools.Construct.Statement
import PineTools.Rename.Tables
import PineTools.Text.Edit
import PineTools.Version.Marker

/-! Repairs. Each looks at the text as it is and returns the repaired text with an entry for every
change. Matching happens on masked code, so that comments and literals are not taken for code. -/
namespace PineTools.Repair

structure Repaired where
  text : Text
  changes : List String
  deriving DecidableEq, Repr, Inhabited

/-- A repair. It cannot be carried out where it needs the version of a script whose marker cannot be
read. -/
abbrev Remedy := Text → Except Decimal.NumeralError Repaired

/-- Puts a marker in front of a script that has none. -/
def addMarker (fallback : ScriptVersion) : Remedy := fun t =>
  (findMarker t).map fun found =>
    match found with
    | some _ => ⟨t, []⟩
    | none =>
      let marker := String.ofList fallback.marker
      ⟨fallback.marker ++ '\n' :: t, ["Added version annotation " ++ marker]⟩

/-- What closes a literal at the end of a line. An odd number of backslashes would escape the quote,
so one more is added. -/
def closingOf (quote : Quote) (line : Text) : Text :=
  let backslashes := (line.reverse.takeWhile (· == '\\')).length
  if backslashes % 2 = 1 then ['\\', quote.char] else [quote.char]

/-- Closes open literals, given in the order of their lines, in the lines from the given number on.
-/
def closeLines (number : Nat) : List UnclosedLiteral → List Text → List Text
  | _, [] => []
  | [], lines => lines
  | u :: us, line :: rest =>
    if u.line = number then (line ++ closingOf u.quote line) :: closeLines (number + 1) us rest
    else line :: closeLines (number + 1) (u :: us) rest

/-- Closes open literals at the ends of their lines. -/
def closeLiterals (t : Text) : Repaired :=
  match unclosedLiterals t with
  | [] => ⟨t, []⟩
  | unclosed =>
    ⟨Text.unlines (closeLines 1 unclosed (Text.lines t)),
      unclosed.map fun u => s!"Closed unclosed string literal in line {u.line}"⟩

/-- The offset just after the last character that is neither in a comment nor white space. -/
def endOfCode (t : Text) : Nat :=
  let kept := Text.trimRight (fun c : Cell => c.region.isComment || Text.isSpace c.char) (cells t)
  if kept.isEmpty then t.length else kept.length

/-- Closes open brackets after the last character of code. -/
def closeBrackets (t : Text) : Repaired :=
  match (matchBrackets t).unclosed with
  | [] => ⟨t, []⟩
  | unclosed =>
    let closers := unclosed.reverse.map fun o => o.kind.closer
    let place := endOfCode t
    let count := closers.length
    let plural := if count = 1 then "" else "s"
    let shown := String.ofList closers
    let line := Text.lineAt t place
    ⟨t.take place ++ closers ++ t.drop place,
      [s!"Added {count} missing closing bracket{plural} '{shown}' in line {line}"]⟩

/-- Inserts the comma between the number and the title of an input. -/
def separateInputs (t : Text) : Repaired :=
  let found := (inputWithoutComma : Pattern Cell (InputWithoutComma Cell)).findAll (cells t)
  let edit := fun m : Match Cell (InputWithoutComma Cell) =>
    let number := m.start + m.value.before.length + m.value.number.length
    (⟨number, number + m.value.gap.length, [',', ' ']⟩ : Edit)
  let change := fun m : Match Cell (InputWithoutComma Cell) =>
    let line := Text.lineAt t (m.start + m.value.before.length)
    s!"Inserted missing comma in input() call in line {line}"
  ⟨Edit.applyAll t (found.map edit), found.map change⟩

/-- Inserts commas in calls whose arguments are bare tokens with blanks between them. -/
def separateArguments (t : Text) : Repaired :=
  let masked := mask t
  let found := missingCommas t
  let edit := fun c : MissingCommas =>
    (⟨c.argsStart, c.argsStop,
      insertCommas (Text.slice t c.argsStart c.argsStop)
        (Text.slice masked c.argsStart c.argsStop)⟩ : Edit)
  let change := fun c : MissingCommas =>
    let name := String.ofList c.name
    s!"Inserted missing commas between arguments of '{name}()' in line {c.line}"
  ⟨Edit.applyAll t (found.map edit), found.map change⟩

def insertMissingCommas (t : Text) : Repaired :=
  let inputs := separateInputs t
  let calls := separateArguments inputs.text
  ⟨calls.text, inputs.changes ++ calls.changes⟩

/-- Replaces calls of one function by calls of another, and tells how many there were. -/
def renameCalls (name new t : Text) : Text × Nat := substitute (callOf name) (fun _ _ => new) t

/-- A repair for scripts of newer versions than the first supported one. -/
def exceptOldest (fallback : ScriptVersion) (repair : Text → Repaired) : Remedy := fun t =>
  (detectVersion t fallback).map fun v => if v = .v4 then ⟨t, []⟩ else repair t

/-- Replaces the older spelling of the indicator declaration. -/
def replaceStudy (tables : RenameTables Text) (t : Text) : Repaired :=
  let target := ((tables.declarationRenames.find? fun p => p.1 == "study".toList).map Prod.snd).getD
    "indicator".toList
  match renameCalls "study".toList target t with
  | (_, 0) => ⟨t, []⟩
  | (new, _) =>
    let name := String.ofList target
    ⟨new, [s!"Replaced deprecated study() with {name}()"]⟩

/-- The order of table entries: by name, then by replacement. -/
def entryLe (a b : Text × Text) : Bool := a.1 < b.1 || (a.1 == b.1 && !(b.2 < a.2))

/-- Moves calls of one built-in function into its namespace, unless the script defines a function of
that name. -/
def namespaceCalls (r : Repaired) (entry : Text × Text) : Repaired :=
  if definesFunction (mask r.text) entry.1 then r
  else
    match renameCalls entry.1 entry.2 r.text with
    | (_, 0) => r
    | (new, _) =>
      let old := String.ofList entry.1
      let qualified := String.ofList entry.2
      ⟨new, r.changes ++ [s!"Replaced deprecated {old}() with {qualified}()"]⟩

/-- Moves calls of built-in functions into their namespaces, in the order of their names. -/
def namespaceBuiltins (tables : RenameTables Text) (t : Text) : Repaired :=
  (tables.namespacedFunctions.mergeSort entryLe).foldl namespaceCalls ⟨t, []⟩

/-- What is kept of the text behind the value of an exported variable: a comment, without the
semicolon. -/
def exportComment (tail : List Cell) : Text :=
  Text.strip (writtenText (tail.eraseP fun c => Glyph.seen c == ';'))

def exportKeyword (v : ScriptVersion) (kind : List Cell) : String :=
  if shows kind "varip" && v != .v6 then "varip" else "var"

def exportReplacement (v : ScriptVersion) (e : ExportedVariable Cell) : Text :=
  let indent := writtenText e.indent
  let name := writtenText e.name
  let comment := exportComment e.tail
  let suffix := if comment.isEmpty then [] else ' ' :: ' ' :: comment
  indent ++ (exportKeyword v e.kind).toList ++ ' ' :: name ++ " = ".toList ++
    writtenText e.value ++ suffix
    ++ '\n' :: indent ++ "export ".toList ++ name

def splitExports (v : ScriptVersion) (t : Text) : Repaired :=
  let found := (exportedVariable : Pattern Cell (ExportedVariable Cell)).findAll (cells t)
  let edit := fun m : Match Cell (ExportedVariable Cell) =>
    (⟨m.start, m.stop, exportReplacement v m.value⟩ : Edit)
  let change := fun m : Match Cell (ExportedVariable Cell) =>
    let kind := String.ofList (writtenText m.value.kind)
    let name := String.ofList (writtenText m.value.name)
    let keyword := exportKeyword v m.value.kind
    let line := Text.lineAt t m.start
    s!"Rewrote 'export {kind} {name}' as '{keyword} {name} = ...' followed by 'export {name}' in line {line}"
  ⟨Edit.applyAll t (found.map edit), found.map change⟩

/-- All repairs, the most certain ones first. -/
def repairs (fallback : ScriptVersion) (tables : RenameTables Text) : List Remedy :=
  [addMarker fallback,
   fun t => .ok (closeLiterals t),
   fun t => .ok (closeBrackets t),
   fun t => .ok (insertMissingCommas t),
   exceptOldest fallback (replaceStudy tables),
   exceptOldest fallback (namespaceBuiltins tables),
   fun t => (detectVersion t fallback).map fun v => splitExports v t]

end PineTools.Repair
