import PineTools.Construct.Statement
import PineTools.Construct.Call
import PineTools.Diagnostic.Basic
import PineTools.Version.Basic

/-! Rules that hold for some versions of the language only. A line rule looks at one line of masked
code and may consult the whole mask; a script rule looks at the mask once. A rule that fires names
its subject, which its message repeats. No rule sees the result of another. -/
namespace PineTools

inductive RuleScope where
  | line
  | script
  deriving DecidableEq, Repr, Inhabited

def RuleScope.name : RuleScope → String
  | .line => "line"
  | .script => "script"

/-- What a rule looks at. The first argument of a line check is the line, the second one the whole
mask. -/
inductive RuleCheck where
  | line (subject? : Text → Text → Option Text)
  | script (subject? : Text → Option Text)

def RuleCheck.scope : RuleCheck → RuleScope
  | .line _ => .line
  | .script _ => .script

structure VersionRule where
  id : String
  versions : List ScriptVersion
  severity : Severity
  category : Category
  message : String → String
  check : RuleCheck

namespace VersionRule

def diagnostic (rule : VersionRule) (subject : Text) (line : Option Nat) : Diagnostic :=
  ⟨rule.severity, rule.category, rule.id, rule.message (String.ofList subject), line⟩

end VersionRule

namespace Rule

def deprecatedStudy (code _ : Text) : Option Text :=
  if (callOf "study".toList).occursIn code then some "study".toList else none

def exportingDeclaration (code _ : Text) : Option Text := (exportHead.readAt? code).map Text.strip

def plainArrowDefinition (code _ : Text) : Option Text :=
  match functionDefinition.readAt? code with
  | some d => if d.method.isSome then none else some d.name
  | none => none

def varip (code _ : Text) : Option Text := if varipWord.occursIn code then some "varip".toList
    else none

def missingReturnType (code _ : Text) : Option Text :=
  match functionDefinition.readAt? code with
  | some d => if d.returnType.isSome then none else some d.name
  | none => none

/-- The name of the call, if it is one of a built-in with several arguments of which none is named.
-/
def positionalCall (code : Text) (m : Match Char Text) : Option Text :=
  if namedArgumentBuiltins.any fun b => b.toList == m.value then
    match callArguments code (m.stop - 1) with
    | some args =>
      let parts := splitArguments args
      if parts.length ≥ 2 && !parts.any isNamedArgument then some m.value else none
    | none => none
  else none

def positionalBuiltin (code _ : Text) : Option Text :=
  (callHead.findAll code).findSome? (positionalCall code)

def neverReassigned (code script : Text) : Option Text :=
  match variableDeclaration.readAt? code with
  | some d => if (reassignment d.name).occursIn script then none else some d.name
  | none => none

def noImport (script : Text) : Option Text := if importStatement.occursIn script then none
    else some []

end Rule

def versionRules : List VersionRule :=
  [⟨"PS3001", [.v5, .v6], .warning, .deprecated,
      fun _ => "study() is deprecated; use indicator() instead", .line Rule.deprecatedStudy⟩,
   ⟨"PS3002", [.v5, .v6], .error, .declaration,
      fun s => s!"Incorrect export syntax '{s}': declare the variable first, then export it by name",
      .line Rule.exportingDeclaration⟩,
   ⟨"PS3101", [.v6], .error, .versionSyntax,
      fun s => s!"Arrow-style function definition '{s}' is not allowed in v6; use 'method {s}(...) =>'",
      .line Rule.plainArrowDefinition⟩,
   ⟨"PS3102", [.v6], .error, .versionSyntax,
      fun s => s!"'{s}' is not supported in v6; use 'var' instead", .line Rule.varip⟩,
   ⟨"PS3103", [.v6], .warning, .versionSyntax,
      fun s => s!"Function '{s}' has no return type annotation (e.g. 'method float {s}(...) =>')",
      .line Rule.missingReturnType⟩,
   ⟨"PS3104", [.v6], .warning, .versionSyntax,
      fun s => s!"Call to {s}() passes several arguments without naming any of them",
      .line Rule.positionalBuiltin⟩,
   ⟨"PS3106", [.v6], .warning, .versionSyntax,
      fun s => s!"'{s}' is declared with 'var' but never reassigned; consider 'let'",
      .line Rule.neverReassigned⟩,
   ⟨"PS3105", [.v6], .warning, .versionSyntax,
      fun _ => "No import statement found; v6 scripts are expected to import the libraries they use",
      .script Rule.noImport⟩]

def rulesFor (v : ScriptVersion) (scope : Option RuleScope) : List VersionRule :=
  versionRules.filter fun r => r.versions.contains v && scope.all (· == r.check.scope)

/-- The version has rules that look at single lines. -/
def hasLineRules (v : ScriptVersion) : Bool := !(rulesFor v (some .line)).isEmpty

def lineDiagnostics (rules : List VersionRule) (masked code : Text) (number : Nat) :
    List Diagnostic :=
  if Text.isAllSpace code then []
  else
    rules.filterMap fun r =>
      match r.check with
      | .line subject? => (subject? code masked).map fun s => r.diagnostic s (some number)
      | .script _ => none

def scriptDiagnostics (rules : List VersionRule) (masked : Text) : List Diagnostic :=
  rules.filterMap fun r =>
    match r.check with
    | .line _ => none
    | .script subject? => (subject? masked).map fun s => r.diagnostic s none

/-- What the rules of a version say about a masked script: line by line, then about the whole. -/
def ruleDiagnostics (v : ScriptVersion) (masked : Text) : List Diagnostic :=
  let rules := rulesFor v none
  (Text.lines masked).zipIdx.flatMap (fun p => lineDiagnostics rules masked p.1 (p.2 + 1)) ++
    scriptDiagnostics rules masked

end PineTools
