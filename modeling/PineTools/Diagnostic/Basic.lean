namespace PineTools

inductive Severity where
  | error
  | warning
  deriving DecidableEq, Repr, Inhabited

def Severity.name : Severity → String
  | .error => "error"
  | .warning => "warning"

/-- Groups of diagnostics. -/
inductive Category where
  | structural
  | declaration
  | versionSyntax
  | deprecated
  | heuristic
  | lineLength
  | versionMarker
  | size
  | timeout
  | empty
  deriving DecidableEq, Repr, Inhabited

def Category.name : Category → String
  | .structural => "structural"
  | .declaration => "declaration"
  | .versionSyntax => "version_syntax"
  | .deprecated => "deprecated"
  | .heuristic => "heuristic"
  | .lineLength => "line_length"
  | .versionMarker => "version_marker"
  | .size => "size"
  | .timeout => "timeout"
  | .empty => "empty"

/-- A single problem of a script. The line is counted from 1. -/
structure Diagnostic where
  severity : Severity
  category : Category
  ruleId : String
  message : String
  line : Option Nat
  deriving DecidableEq, Repr, Inhabited

namespace Diagnostic

def error (category : Category) (ruleId message : String) (line : Option Nat) : Diagnostic :=
  ⟨.error, category, ruleId, message, line⟩

def warning (category : Category) (ruleId message : String) (line : Option Nat) : Diagnostic :=
  ⟨.warning, category, ruleId, message, line⟩

/-- The same problem taken as an error. -/
def promoted (d : Diagnostic) : Diagnostic := { d with severity := .error }

end Diagnostic
end PineTools
