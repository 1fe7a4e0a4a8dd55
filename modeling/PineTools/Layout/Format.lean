import PineTools.Diagnostic.LineLength
import PineTools.Layout.Indent
import PineTools.Version.Marker

/-! The formatter. Its stages are: the version comment, braces on lines of their own, indentation
and spacing, blank lines, and the alignment of comment lines. Each stage returns the new text and
what it has to say about its changes. -/
namespace PineTools.Layout

/-- A text after a stage, with the entry for the change log if there is one. -/
structure Staged where
  text : Text
  change : Option String
  deriving DecidableEq, Repr, Inhabited

/-- An entry for a number of changes, when there were any. -/
def countedChange (n : Nat) (describe : Nat → String) :
    Option String := if n = 0 then none else some (describe n)

open Reader in
def loneMarker? (line : Text) : Option Text :=
  ((do
    markerHead
    discard blanks
    let digits ← run1 Text.isDecimal
    discard blanks
    done
    return digits : Reader Char Text) line).map Prod.fst

/-- Replaces the first line for which the function gives something. -/
def replaceFirst (f : Text → Option Text) : List Text → Option (Text × Text × List Text)
  | [] => none
  | line :: rest =>
    match f line with
    | some new => some (line, new, new :: rest)
    | none => (replaceFirst f rest).map fun (old, new, lines) => (old, new, line :: lines)

/-- Writes the first marker line in its canonical form, or puts a marker in front of a script that
has none. A marker with something behind it is left alone. -/
def syncVersionComment (fallback : ScriptVersion) (t : Text) : Staged :=
  let canonical := fun line => (loneMarker? line).map fun digits => "//@version=".toList ++ digits
  match replaceFirst canonical (Text.lines t) with
  | some (old, new, lines) =>
    if old = new then ⟨t, none⟩
    else ⟨Text.unlines lines, some ("Canonicalized version annotation to " ++ String.ofList new)⟩
  | none =>
    if (Pattern.atLineStart markerHead : Pattern Char Unit).occursIn t then ⟨t, none⟩
    else
      let marker := fallback.marker
      ⟨marker ++ '\n' :: t, some ("Inserted version annotation " ++ String.ofList marker)⟩

/-- The line cut before a final brace that follows other code, if it has one. -/
def cutBrace? (line : ScriptLine) : Option (List Text) :=
  let code := Text.trimRight Text.isSpace line.masked
  let before := code.take (code.length - 1)
  if !line.inComment && code.getLast? == some '\x7b' && !Text.isAllSpace before then
    let text := line.text
    some [Text.trimRight Text.isSpace (text.take before.length), leadingBlanks text ++
      text.drop before.length]
  else none

/-- Moves final braces to lines of their own, indented like their statements. -/
def moveBraces (t : Text) : Staged :=
  let lines := scriptLines t
  let moved := lines.countP fun line => (cutBrace? line).isSome
  ⟨Text.unlines (lines.flatMap fun line => (cutBrace? line).getD [line.text]),
    countedChange moved fun n => s!"Moved {n} opening brace(s) to their own line"⟩

/-- Keeps a blank line only after a line that is not blank, and at the end. `keptBlank` tells that
the line kept last is blank. -/
def collapseFrom (keptBlank : Bool) : List Text → List Text
  | [] => []
  | [line] => [line]
  | line :: rest =>
    if Text.isAllSpace line && keptBlank then collapseFrom true rest
    else line :: collapseFrom (Text.isAllSpace line) rest

def collapseBlankLines (t : Text) : Staged :=
  let lines := Text.lines t
  let kept := collapseFrom false lines
  ⟨Text.unlines kept, countedChange (lines.length - kept.length) fun n =>
    s!"Removed {n} redundant blank line(s)"⟩

def isCommentLine (line : ScriptLine) : Bool :=
  "//".toList.isPrefixOf (line.text.dropWhile Text.isSpace) && !line.inComment

def shortestOf (first : Text) (others : List Text) : Text :=
  others.foldl (fun best t => if t.length < best.length then t else best) first

/-- The smallest indentation of the run of comment lines at the front. -/
def runIndent : List ScriptLine → Option Text
  | [] => none
  | line :: rest =>
    if isCommentLine line then
      some (shortestOf (leadingBlanks line.text) ((rest.takeWhile isCommentLine).map fun l =>
        leadingBlanks l.text))
    else none

/-- Aligns comment lines. `indent` is that of the run of comment lines that the first line
continues. -/
def alignFrom (indent : Option Text) : List ScriptLine → List Text
  | [] => []
  | line :: rest =>
    match indent.or (runIndent (line :: rest)), isCommentLine line with
    | some i, true => (i ++ line.text.dropWhile Text.isBlank) :: alignFrom (some i) rest
    | _, _ => line.text :: alignFrom none rest

/-- Gives the lines of each run of comment lines the smallest indentation among them. -/
def alignComments (t : Text) : Staged :=
  let lines := scriptLines t
  let aligned := alignFrom none lines
  let changed := (lines.zip aligned).countP fun p => p.1.text != p.2
  ⟨Text.unlines aligned, countedChange changed fun n => s!"Aligned {n} comment line(s)"⟩

/-- Line breaks written as single newlines. -/
def normalizeLineEndings (t : Text) : Staged :=
  if t.contains '\r' then ⟨Text.normalizeBreaks t, some "Normalized line endings"⟩ else ⟨t, none⟩

structure FormatResult where
  formatted : Text
  changes : List String
  warnings : List Diagnostic
  deriving DecidableEq, Repr, Inhabited

def stageIf (wanted : Bool) (stage : Text → Staged) (t : Text) : Staged := if wanted then stage t
    else ⟨t, none⟩

def format (fallback : ScriptVersion) (options : FormatOptions) (script : Text) : FormatResult :=
  let endings := normalizeLineEndings script
  let marked := stageIf options.updateVersionComment (syncVersionComment fallback) endings.text
  let braced := stageIf options.bracesOnNewLine moveBraces marked.text
  let laid := indentLines options braced.text
  let reindented := countedChange (laid.countP fun l => l.reindented) fun n =>
    s!"Re-indented {n} line(s)"
  let respaced := countedChange (laid.countP fun l => l.respaced) fun n =>
    s!"Normalized spacing on {n} line(s)"
  let collapsed :=
    stageIf options.collapseBlankLines collapseBlankLines (Text.unlines (laid.map fun l => l.text))
  let aligned := stageIf options.alignComments alignComments collapsed.text
  { formatted := aligned.text
    changes :=
      [endings.change, marked.change, braced.change, reindented, respaced, collapsed.change,
        aligned.change].filterMap id
    warnings := lengthWarnings "PS4001" options.maxLineLength aligned.text }

end PineTools.Layout
