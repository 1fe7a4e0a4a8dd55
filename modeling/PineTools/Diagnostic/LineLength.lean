import PineTools.Diagnostic.Basic
import PineTools.Text.Basic

namespace PineTools

def lengthWarnings (ruleId : String) (limit : Nat) (script : Text) : List Diagnostic :=
  (Text.lines script).zipIdx.filterMap fun p =>
    let length := p.1.length
    if length > limit then
      some (.warning .lineLength ruleId s!"Line is {length} characters long (limit {limit})"
        (some (p.2 + 1)))
    else none

end PineTools
