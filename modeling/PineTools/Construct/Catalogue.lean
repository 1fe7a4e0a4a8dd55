import PineTools.Construct.Statement
import PineTools.Construct.Call

namespace PineTools

/-- A construct of the script language that is recognised on masked code. -/
inductive Construct where
  | callOf (name : Text)
  | reassignmentOf (name : Text)
  | declaration
  | exportedVariable
  | importStatement
  | varip
  | simpleCall
  | inputWithoutComma
  | functionDefinition
  | variableDeclaration
  | leading (keyword : String)
  deriving DecidableEq, Repr, Inhabited

/-- Named parts of a match, in the order of their names. A part that was absent is nothing. -/
abbrev NamedParts := List (String × Option (List Cell))

namespace Construct

/-- A pattern whose value is replaced by a function of it. -/
def mapped {β γ : Type} (f : β → γ) (p : Pattern Cell β) :
    Pattern Cell γ := fun before => f <$> p before

def pattern : Construct → Pattern Cell NamedParts
  | callOf name => mapped (fun _ => []) (PineTools.callOf name)
  | reassignmentOf name => mapped (fun _ => []) (PineTools.reassignment name)
  | declaration => mapped (fun _ => []) PineTools.declaration
  | exportedVariable =>
    mapped (fun e => [("indent", some e.indent), ("kind", some e.kind), ("name", some e.name),
      ("value", some e.value)])
      PineTools.exportedVariable
  | importStatement => mapped (fun _ => []) PineTools.importStatement
  | varip => mapped (fun _ => []) PineTools.varipWord
  | simpleCall => mapped (fun c => [("args", some c.args), ("name", some c.name)])
    PineTools.simpleCall
  | inputWithoutComma =>
    mapped (fun i => [("number", some i.number), ("title", some i.title)])
      PineTools.inputWithoutComma
  | functionDefinition =>
    mapped (fun d => [("indent", some d.indent), ("method", d.method), ("name", some d.name),
      ("params", some d.params),
      ("rtype", d.returnType)]) PineTools.functionDefinition
  | variableDeclaration =>
    mapped (fun d => [("indent", some d.indent), ("kw", some d.keyword), ("name", some d.name),
      ("type", d.type)])
      PineTools.variableDeclaration
  | leading keyword =>
    mapped (fun k => [("indent", some k.indent), ("kw", some k.keyword)])
    (PineTools.leadingKeyword keyword)

def findAll (construct : Construct) (t : Text) :
    List (Match Cell NamedParts) := construct.pattern.findAll (cells t)

/-- Replaces the first `limit` matches of a construct, or all of them, by a fixed text. The second
component is the number of replacements. -/
def replaceAll (construct : Construct) (limit : Option Nat) (replacement t : Text) : Text × Nat :=
  rebuild Cell.char (fun _ _ => replacement) limit (construct.pattern.segments (cells t))

end Construct
end PineTools
