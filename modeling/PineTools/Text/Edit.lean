import PineTools.Text.Basic

/-! Edits of a text. Each replaces a span of the text it was made for; spans do not overlap, and the
edits may come in any order. They are carried out from the last to the first, so that an edit never
moves the span of one that is still to come. -/
namespace PineTools

/-- A replacement for the characters from one offset up to another. -/
structure Edit where
  start : Nat
  stop : Nat
  replacement : Text
  deriving DecidableEq, Repr, Inhabited

namespace Edit

def apply (t : Text) (e : Edit) : Text := t.take e.start ++ e.replacement ++ t.drop e.stop

/-- Carries out edits given in any order. -/
def applyAll (t : Text) (edits : List Edit) : Text :=
  (edits.mergeSort fun a b => decide (b.start ≤ a.start)).foldl apply t

end Edit
end PineTools
