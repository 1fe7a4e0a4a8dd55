import PineTools.Repair.Basic

/-! Conversion between versions of the language. Adjacent versions are converted into each other by
renaming on masked code; longer ways go through the versions in between. The result is not
validated. -/
namespace PineTools.Convert

/-- A step between adjacent versions. -/
inductive Step where
  | v4ToV5
  | v5ToV4
  | v5ToV6
  | v6ToV5
  deriving DecidableEq, Repr, Inhabited

namespace Step

def source : Step → ScriptVersion
  | v4ToV5 => .v4
  | v5ToV4 | v5ToV6 => .v5
  | v6ToV5 => .v6

def target : Step → ScriptVersion
  | v4ToV5 | v6ToV5 => .v5
  | v5ToV4 => .v4
  | v5ToV6 => .v6

end Step

def path : ScriptVersion → ScriptVersion → List Step
  | .v4, .v5 => [.v4ToV5]
  | .v4, .v6 => [.v4ToV5, .v5ToV6]
  | .v5, .v4 => [.v5ToV4]
  | .v5, .v6 => [.v5ToV6]
  | .v6, .v5 => [.v6ToV5]
  | .v6, .v4 => [.v6ToV5, .v5ToV4]
  | _, _ => []

/-- Replaces the line of the first marker, from its indentation to its end, or puts a marker in
front. -/
def setMarker (v : ScriptVersion) (t : Text) : Text :=
  match marker.find? t with
  | some m => t.take m.start ++ v.marker ++ (t.drop m.start).dropWhile (· != '\n')
  | none => v.marker ++ '\n' :: t

def renameCalls (name new t : Text) : Text := (Repair.renameCalls name new t).1

/-- Gives renamed calls their new names, and moves built-in functions that the script does not
define itself into their namespaces. -/
def modernizeNames (tables : RenameTables Text) (t : Text) : Text :=
  let renamed := tables.renames.foldl (fun t p => renameCalls p.1 p.2 t) t
  let masked := mask renamed
  tables.namespacedFunctions.foldl (fun t p => if definesFunction masked p.1 then t
    else renameCalls p.1 p.2 t) renamed

def restoreNames (tables : RenameTables Text) (t : Text) : Text :=
  let renamed := tables.renames.foldl (fun t p => renameCalls p.2 p.1 t) t
  tables.namespacedFunctions.foldl (fun t p => renameCalls p.2 p.1 t) renamed

/-- A statement with another keyword at its start. -/
def withKeyword (glyphs indent keyword : List Cell) (new : String) : Text :=
  writtenText indent ++ new.toList ++ (writtenText glyphs).drop (indent.length + keyword.length)

def freezeVariables (t : Text) : Text :=
  let masked := mask t
  (substitute variableDeclaration (fun gs d =>
    if (reassignment (writtenText d.name)).occursIn masked then writtenText gs
    else withKeyword gs d.indent d.keyword "let") t).1

/-- Replaces one keyword at the start of statements by another. -/
def replaceKeyword (old new : String) (t : Text) : Text :=
  (substitute (leadingKeyword old) (fun gs k => withKeyword gs k.indent k.keyword new) t).1

def addMethod (t : Text) : Text :=
  (substitute functionDefinition (fun gs d =>
    if d.method.isSome then writtenText gs
    else writtenText d.indent ++ "method ".toList ++ (writtenText gs).drop d.indent.length) t).1

def dropMethod (t : Text) : Text :=
  (substitute functionDefinition (fun gs d =>
    match d.method with
    | none => writtenText gs
    | some m => writtenText d.indent ++ (writtenText gs).drop (d.indent.length + m.length)) t).1

def importIndex (lines : List Text) : Nat :=
  match lines.findIdx? fun line => (marker.readAt? line).isSome with
  | some i => i + 1
  | none => 0

/-- Adds the default import to a script without imports. -/
def addImport (tables : RenameTables Text) (t : Text) : Text :=
  if importStatement.occursIn (mask t) then t
  else
    let lines := Text.lines t
    let i := importIndex lines
    Text.unlines (lines.take i ++ tables.defaultImport :: lines.drop i)

/-- Removes the first line that is the default import and nothing else. -/
def dropImport (tables : RenameTables Text) (t : Text) : Text :=
  let target := Text.strip tables.defaultImport
  let found := ((importStatement : Pattern Cell Unit).findAll (cells t)).find? fun m =>
    Text.strip (writtenText m.glyphs) == target
  match found with
  | none => t
  | some m =>
    let lines := Text.lines t
    let index := Text.lineAt t m.start - 1
    if (lines[index]?.map Text.strip) == some target then Text.unlines (lines.eraseIdx index) else t

def Step.body (tables : RenameTables Text) : Step → Text → Text
  | .v4ToV5, t => modernizeNames tables t
  | .v5ToV4, t => restoreNames tables t
  | .v5ToV6, t => addImport tables (addMethod (replaceKeyword "varip" "var" (freezeVariables t)))
  | .v6ToV5, t => dropImport tables (dropMethod (replaceKeyword "let" "var" t))

def Step.apply (tables : RenameTables Text) (t : Text) (step : Step) : Text :=
  step.body tables (setMarker step.target t)

def convertTo (fallback : ScriptVersion) (tables : RenameTables Text) (script : Text)
    (target : ScriptVersion) :
    Except Decimal.NumeralError Text :=
  (detectVersion script fallback).map fun current => (path current target).foldl
    (Step.apply tables) script

def convert (fallback : ScriptVersion) (tables : RenameTables Text) (script : Text)
    (target : Json) :
    Except VersionError Text :=
  match ScriptVersion.parse target with
  | .error e => .error e
  | .ok v => (convertTo fallback tables script v).mapError .numeral

end PineTools.Convert
