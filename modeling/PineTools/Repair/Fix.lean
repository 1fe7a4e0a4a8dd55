import PineTools.Diff.Unified
import PineTools.Repair.Basic

/-! The fixer: it carries out the repairs in their order and lists what it did, with a difference
listing. A repair that cannot be carried out is left out, and if the result were less balanced than
the script everything is dropped. -/
namespace PineTools.Repair

/-- The outcome of fixing. Without changes the script is as it was and there is no listing. -/
structure FixResult where
  script : Text
  changes : List String
  diff : Option Text
  deriving DecidableEq, Repr, Inhabited

namespace FixResult

def fixed (r : FixResult) : Bool := !r.changes.isEmpty

end FixResult

def continueWith (done : Repaired) (repair : Remedy) : Repaired :=
  match repair done.text with
  | .ok r => ⟨r.text, done.changes ++ r.changes⟩
  | .error _ => done

def repairAll (fallback : ScriptVersion) (tables : RenameTables Text) (script : Text) : Repaired :=
  (repairs fallback tables).foldl continueWith ⟨script, []⟩

def listing (script repaired : Text) : Text :=
  (Diff.unified "original" "fixed" (Text.physicalLines script)
    (Text.physicalLines repaired)).flatten

def fix (fallback : ScriptVersion) (tables : RenameTables Text) (script : Text) : FixResult :=
  let r := repairAll fallback tables script
  if r.changes.isEmpty || structuralImbalance r.text > structuralImbalance script then
    ⟨script, [], none⟩
  else ⟨r.text, r.changes, some (listing script r.text)⟩

end PineTools.Repair
