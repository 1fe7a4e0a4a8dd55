namespace PineTools

/-- How a script is laid out. -/
structure FormatOptions where
  indentSize : Nat := 4
  useSpaces : Bool := true
  spacesAroundOperators : Bool := true
  spaceAfterCommas : Bool := true
  maxLineLength : Nat := 80
  collapseBlankLines : Bool := false
  bracesOnNewLine : Bool := false
  alignComments : Bool := true
  updateVersionComment : Bool := true
  deriving DecidableEq, Repr, Inhabited

namespace FormatOptions

/-- The options of a formatter that is told nothing else. -/
def standard : FormatOptions := { }

end FormatOptions
end PineTools
