namespace PineTools

/-- The two quotes that delimit string literals. -/
inductive Quote where
  | single
  | double
  deriving DecidableEq, Repr, Inhabited

namespace Quote

def char : Quote → Char
  | single => Char.ofNat 39
  | double => '"'

def ofChar? (c : Char) : Option Quote :=
  if c = single.char then some single else if c = double.char then some double else none

end Quote

end PineTools
