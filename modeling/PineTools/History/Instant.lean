import PineTools.Calendar.Date

/-! Instants, in whole microseconds since the start of 1970, and their texts in the proleptic
Gregorian calendar of Universal Time. All fields of a text have a fixed width, so that texts sort
like instants. -/
namespace PineTools.History

open Calendar

def dayLength : Nat := 86400000000

def firstInstant : Int := -62135596800000000

def lastInstant : Int := 253402300799999999

def isDated (t : Int) : Bool := firstInstant ≤ t && t ≤ lastInstant

/-- The text of an instant, with the given signs inside the time of day and before the microseconds.
-/
def instantText (colon point : Char) (t : Int) : Text :=
  let micros := (t - firstInstant).toNat
  let date := dateOfDay (micros / dayLength)
  let time := micros % dayLength
  let seconds := time / 1000000
  padded 4 date.year ++ '-' :: padded 2 date.month ++ '-' :: padded 2 date.day
    ++ 'T' :: padded 2 (seconds / 3600) ++ colon :: padded 2 (seconds / 60 % 60) ++
      colon :: padded 2 (seconds % 60)
    ++ point :: padded 6 (time % 1000000) ++ '+' :: '0' :: '0' :: colon :: ['0', '0']

def timestamp (t : Int) : Text := instantText ':' '.' t

/-- The file name of a record without its ending. -/
def fileStem (t : Int) : Text := instantText '-' '-' t

end PineTools.History
