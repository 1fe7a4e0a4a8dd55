import PineTools.Text.Basic

namespace PineTools.Text

/-- The offsets behind the newlines of a text that begins at the given offset. -/
def startsFrom (offset : Nat) : Text → List Nat
  | [] => []
  | c :: cs => if c = '\n' then (offset + 1) :: startsFrom (offset + 1) cs
    else startsFrom (offset + 1) cs

/-- The offsets at which the lines of a text start, in order. -/
def lineStarts (t : Text) : Array Nat := (0 :: startsFrom 0 t).toArray

/-- Halves a range of ascending numbers until nothing is left of it: what lies before the range is
at most `x`, and what lies behind it is greater. -/
def bisect (xs : Array Nat) (x low high : Nat) (h : high ≤ xs.size) : Nat :=
  if hlt : low < high then
    let middle := (low + high) / 2
    if x < xs[middle] then bisect xs x low middle (by omega) else bisect xs x (middle + 1) high h
  else low
termination_by high - low

/-- The number of ascending numbers that are at most `x`. -/
def rank (xs : Array Nat) (x : Nat) : Nat := bisect xs x 0 xs.size (Nat.le_refl _)

/-- The line, counted from 1, that holds an offset: as many lines start up to there. -/
def lineOf (t : Text) (offset : Nat) : Nat := rank (lineStarts t) offset

end PineTools.Text
