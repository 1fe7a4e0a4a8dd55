import PineTools.Diagnostic.LineLength
import PineTools.Scan.Brackets
import PineTools.Validate.Budget
import PineTools.Validate.Rule
import PineTools.Version.Marker

/-! Validation of a script. The checks run in a fixed order: emptiness, version marker, brackets and
comments, quotes, declarations and commas, version rules, line length, size. All but the first two
read the mask, so that comments and literals cause no diagnostic. -/
namespace PineTools

/-- How a script is validated. -/
structure ValidationSettings (τ : Type) where
  maxLineLength : Nat
  maxTime : τ
  progressInterval : τ
  sizeThreshold : Nat
  warningsAsErrors : Bool
  ignoredRules : List Text

structure ValidationResult where
  errors : List Diagnostic
  warnings : List Diagnostic
  deriving DecidableEq, Repr, Inhabited

namespace ValidationResult

def valid (r : ValidationResult) : Bool := r.errors.isEmpty

/-- Some diagnostic comes from the given rule. -/
def hasRule (r : ValidationResult) (ruleId : Text) : Bool :=
  (r.errors ++ r.warnings).any fun d => d.ruleId.toList == ruleId

def errorsIn (r : ValidationResult) (category : Category) :
    List Diagnostic := r.errors.filter fun d => d.category == category

end ValidationResult

/-- What the marker says about itself. -/
def markerWarnings (found : Option FoundMarker) (declared : Option ScriptVersion)
    (fallback : ScriptVersion) :
    List Diagnostic :=
  match found with
  | none =>
    let wanted := String.ofList (declared.getD fallback).marker
    [.warning .versionMarker "PS1001"
      s!"Missing version annotation. Consider adding {wanted} at the beginning of your script"
        (some 1)]
  | some m =>
    let line := some (m.lineIndex + 1)
    match m.version?, declared with
    | none, _ =>
      [.warning .versionMarker "PS1002"
        s!"Unsupported version annotation //@version={m.number}; supported versions are 4, 5 and 6"
          line]
    | some _, none => []
    | some detected, some wanted =>
      if detected = wanted then []
      else
        [.warning .versionMarker "PS1003"
          s!"Script declares {detected.name} but is being validated as {wanted.name}" line]

def appliedVersion (found : Option FoundMarker) (declared : Option ScriptVersion)
    (fallback : ScriptVersion) :
    ScriptVersion :=
  (declared.or (found.bind FoundMarker.version?)).getD fallback

def BracketIssue.diagnostic (i : BracketIssue) : Diagnostic :=
  match i.met with
  | none =>
    .error .structural "PS2001"
      s!"Unexpected closing {i.kind.name} '{i.kind.closer}' in line {i.line}" (some i.line)
  | some o =>
    .error .structural "PS2002"
      s!"Mismatched brackets: found '{i.kind.closer}' in line {i.line}, but expected '{o.kind.closer}' to close the opener from line {o.line}"
      (some i.line)

def listed (entries : List String) : String := String.intercalate ", " entries

/-- The single error about openers that stay open. -/
def unclosedDiagnostics (unclosed : List OpenBracket) : List Diagnostic :=
  match unclosed with
  | [] => []
  | first :: _ =>
    let count := unclosed.length
    let plural := if count = 1 then "" else "s"
    let openers := listed (unclosed.map fun o => s!"'{o.kind.opener}' from line {o.line}")
    [.error .structural "PS2003" s!"Missing {count} closing bracket{plural}: unclosed {openers}"
      (some first.line)]

def commentDiagnostics (openLine : Option Nat) : List Diagnostic :=
  match openLine with
  | none => []
  | some line =>
    [.error .structural "PS2005" s!"Unterminated block comment starting in line {line}" (some line)]

def UnclosedLiteral.diagnostic (u : UnclosedLiteral) : Diagnostic :=
  let place := if u.atEnd then "at end of script" else s!"in line {u.line}"
  .error .structural "PS2004" s!"Unclosed string literal ({u.quote.char}) {place}" (some u.line)

/-- What is wrong with brackets and block comments. -/
def bracketDiagnostics (script : Text) : List Diagnostic :=
  let report := matchBrackets script
  report.issues.map BracketIssue.diagnostic ++ unclosedDiagnostics report.unclosed
    ++ commentDiagnostics (openComment? script)

def literalDiagnostics (script : Text) :
    List Diagnostic := (unclosedLiterals script).map UnclosedLiteral.diagnostic

/-- The structural errors: brackets, comments, quotes. -/
def structuralDiagnostics (script : Text) : List Diagnostic :=
  let report := matchBrackets script
  report.issues.map BracketIssue.diagnostic ++ unclosedDiagnostics report.unclosed
    ++ commentDiagnostics (openComment? script) ++
      (unclosedLiterals script).map UnclosedLiteral.diagnostic

def declarationDiagnostics (found : List Declaration) : List Diagnostic :=
  match found with
  | [] =>
    [.error .declaration "PS1101"
      "Missing declaration: a script needs exactly one of indicator(), strategy() or library()"
        none]
  | [_] => []
  | _ :: second :: _ =>
    let calls := listed (found.map fun d => s!"{d.call.name}() in line {d.line}")
    [.error .declaration "PS1102" s!"Multiple declarations found ({calls}); only one is allowed"
      (some second.line)]

def MissingCommas.diagnostic (c : MissingCommas) : Diagnostic :=
  let name := String.ofList c.name
  .warning .heuristic "PS1201" s!"Possible missing comma between arguments of '{name}()'"
    (some c.line)

def sizeWarnings (threshold : Nat) (script : Text) : List Diagnostic :=
  let size := script.length
  if size > threshold then
    [.warning .size "PS1302"
      s!"Script is large ({size} characters, threshold {threshold}); consider splitting it into libraries" none]
  else []

variable {τ : Type}

def diagnose (settings : ValidationSettings τ) (fallback : ScriptVersion)
    (declared : Option ScriptVersion) (found : Option FoundMarker) (script : Text) :
    ValidationResult :=
  let rules := ruleDiagnostics (appliedVersion found declared fallback) (mask script)
  { errors := structuralDiagnostics script ++ declarationDiagnostics (declarations script)
      ++ rules.filter (fun d => d.severity == .error)
    warnings := markerWarnings found declared fallback ++
      (missingCommas script).map MissingCommas.diagnostic
      ++ rules.filter (fun d => d.severity == .warning) ++
        lengthWarnings "PS1301" settings.maxLineLength script
      ++ sizeWarnings settings.sizeThreshold script }

/-- Drops ignored rules and, if the settings say so, takes warnings as errors. -/
def ValidationSettings.filter (settings : ValidationSettings τ) (r : ValidationResult) :
    ValidationResult :=
  let kept := fun ds : List Diagnostic => ds.filter fun d =>
    !settings.ignoredRules.contains d.ruleId.toList
  if settings.warningsAsErrors then ⟨kept r.errors ++ (kept r.warnings).map Diagnostic.promoted, []⟩
  else ⟨kept r.errors, kept r.warnings⟩

def blankResult : ValidationResult := ⟨[.error .empty "PS0001" "Script is empty" none], []⟩

/-- Why a validation gives no result. -/
inductive ValidationFailure (τ : Type) where
  | version (error : VersionError)
  | marker (error : Decimal.NumeralError)
  | timeout (timeout : Timeout τ)

/-- A validation that was run: its outcome, the reports of finished checks out of all, and the clock
afterwards. -/
structure ValidationRun (τ κ : Type) where
  outcome : Except (ValidationFailure τ) ValidationResult
  reports : List (Nat × Nat)
  clock : κ

/-- The reported numbers of finished checks. -/
def ValidationRun.progress {τ κ : Type} (run : ValidationRun τ κ) : List Nat :=
  run.reports.map Prod.fst

/-- A part of a validation: it goes on with the tracker, or fails. -/
abbrev Course (τ κ : Type) := ExceptT (ValidationFailure τ) (StateM (Tracker τ κ))

namespace Course

variable {κ : Type}

/-- Lets the tracker read its clock. -/
def timed (act : Tracker τ κ → Except (Timeout τ) Unit × Tracker τ κ) : Course τ κ Unit := fun t =>
  ((act t).1.mapError .timeout, (act t).2)

def finish : Course τ κ Unit := fun t => (.ok (), t.finish)

/-- The first marker of a script. Nothing else is checked if it cannot be read. -/
def marker (script : Text) :
    Course τ κ (Option FoundMarker) := fun t => ((findMarker script).mapError .marker, t)

variable [Timeline τ] [Clock κ τ]

def check : Course τ κ Unit := timed Tracker.check

def stepDone : Course τ κ Unit := timed Tracker.stepDone

/-- Runs line rules, with a reading of the clock before every line. -/
def lineRules (rules : List VersionRule) (masked : Text) :
    List (Text × Nat) → Course τ κ (List Diagnostic)
  | [] => return []
  | (code, index) :: rest => do
    check
    let found := lineDiagnostics rules masked code (index + 1)
    return found ++ (← lineRules rules masked rest)

def versionRules (v : ScriptVersion) (masked : Text) : Course τ κ (List Diagnostic) := do
  let found ← if hasLineRules v then
    lineRules (rulesFor v (some .line)) masked (Text.lines masked).zipIdx else pure []
  return found ++ scriptDiagnostics (rulesFor v (some .script)) masked

/-- What the checks find, before the settings filter it. The clock is read after every check, before
the scanned script is looked at, and before every line to which rules apply. A blank script is not
checked any further. -/
def findings (settings : ValidationSettings τ) (fallback : ScriptVersion)
    (declared : Option ScriptVersion) (script : Text) :
    Course τ κ ValidationResult := do
  if Text.isAllSpace script then return blankResult
  stepDone
  let found ← marker script
  stepDone
  let masked := mask script
  check
  let ofBrackets := bracketDiagnostics script
  stepDone
  let ofLiterals := literalDiagnostics script
  stepDone
  let ofDeclarations := declarationDiagnostics (declarations script)
  let ofCalls := (missingCommas script).map MissingCommas.diagnostic
  stepDone
  let ofRules ← versionRules (appliedVersion found declared fallback) masked
  stepDone
  let ofLengths := lengthWarnings "PS1301" settings.maxLineLength script
  stepDone
  let ofSize := sizeWarnings settings.sizeThreshold script
  stepDone
  return {
    errors := ofBrackets ++ ofLiterals ++ ofDeclarations ++
      ofRules.filter (fun d => d.severity == .error)
    warnings := markerWarnings found declared fallback ++ ofCalls ++
      ofRules.filter (fun d => d.severity == .warning)
      ++ ofLengths ++ ofSize }

def checks (settings : ValidationSettings τ) (fallback : ScriptVersion)
    (declared : Option ScriptVersion) (script : Text) :
    Course τ κ ValidationResult := do
  let result ← findings settings fallback declared script
  finish
  return settings.filter result

end Course

variable {κ : Type} [Timeline τ] [Clock κ τ]

/-- Validates a script as the declared version, or as its own. A listener is told how far the
validation is. -/
def validateHeard (listening : Bool) (settings : ValidationSettings τ) (fallback : ScriptVersion)
    (declared : Option ScriptVersion) (budget : Option τ) (clock : κ) (script : Text) :
    ValidationRun τ κ :=
  let tracker :=
    Tracker.start (budget.getD settings.maxTime) settings.progressInterval listening clock
  let (outcome, tracker) := Course.checks settings fallback declared script tracker
  ⟨outcome, tracker.reports, tracker.clock⟩

/-- Validates a script as the declared version, or as its own, and listens to all reports. -/
def validateAs (settings : ValidationSettings τ) (fallback : ScriptVersion)
    (declared : Option ScriptVersion) (budget : Option τ) (clock : κ) (script : Text) :
    ValidationRun τ κ :=
  validateHeard true settings fallback declared budget clock script

def declaredVersion : Option Json → Except VersionError (Option ScriptVersion)
  | none => .ok none
  | some value => (ScriptVersion.parse value).map some

/-- Validates a script, with or without a listener. A declared value that names no version is
refused before the clock is read. -/
def validateWith (listening : Bool) (settings : ValidationSettings τ) (fallback : ScriptVersion)
    (declared : Option Json) (budget : Option τ) (clock : κ) (script : Text) : ValidationRun τ κ :=
  match declaredVersion declared with
  | .ok version => validateHeard listening settings fallback version budget clock script
  | .error e => ⟨.error (.version e), [], clock⟩

/-- Validates a script and listens to all reports. -/
def validate (settings : ValidationSettings τ) (fallback : ScriptVersion) (declared : Option Json)
    (budget : Option τ) (clock : κ) (script : Text) : ValidationRun τ κ :=
  validateWith true settings fallback declared budget clock script

end PineTools
