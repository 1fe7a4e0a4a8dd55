import PineTools.History.Record
import PineTools.Layout.Format
import PineTools.Repair.Fix
import PineTools.Settings.Checked
import PineTools.Validate.Basic

namespace PineTools

namespace Json

def ofFields (fields : List (String × Json)) : Json := .obj (fields.map fun f => (f.1.toList, f.2))

def ofOption {α : Type} (write : α → Json) : Option α → Json
  | some a => write a
  | none => .null

def ofList {α : Type} (write : α → Json) (items : List α) : Json := .arr (items.map write)

end Json

def Diagnostic.toJson (d : Diagnostic) : Json :=
  .ofFields
    [("severity", .ofString d.severity.name), ("message", .ofString d.message),
      ("category", .ofString d.category.name),
     ("rule_id", .ofString d.ruleId), ("line", .ofOption .ofNat d.line)]

def ValidationResult.toJson (r : ValidationResult) : Json :=
  .ofFields
    [("valid", .bool r.valid), ("errors", .ofList Diagnostic.toJson r.errors),
      ("warnings", .ofList Diagnostic.toJson r.warnings)]

def Repair.FixResult.toJson (r : FixResult) : Json :=
  .ofFields
    [("fixed", .bool r.fixed), ("script", .str r.script), ("changes", .ofList .ofString r.changes),
     ("diff", .ofOption .str r.diff)]

def Layout.FormatResult.toJson (r : FormatResult) : Json :=
  .ofFields
    [("formatted", .str r.formatted), ("changes", .ofList .ofString r.changes),
     ("warnings", .ofList Diagnostic.toJson r.warnings)]

def History.Record.toJson (r : Record) : Json :=
  .ofFields
    [("id", .str r.id), ("timestamp", .str r.timestamp), ("content", .str r.content),
      ("version", .ofString r.version.name),
     ("valid", .bool r.valid), ("notes", .ofOption .str r.notes)]

def PathStep.toJson : PathStep → Json
  | .key name => .ofString name
  | .index n => .ofNat n

def Fault.toJson (f : Fault) : Json :=
  .ofFields [("loc", .ofList PathStep.toJson f.path), ("type", .ofString f.kind.name)]

end PineTools
