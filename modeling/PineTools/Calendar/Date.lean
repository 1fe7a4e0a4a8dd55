import PineTools.Text.Basic

namespace PineTools.Calendar

structure Date where
  year : Nat
  month : Nat
  day : Nat
  deriving DecidableEq, Repr, Inhabited

def isLeap (year : Nat) : Bool := year % 4 == 0 && (year % 100 != 0 || year % 400 == 0)

def monthLengths (year : Nat) : List Nat :=
  [31, if isLeap year then 29 else 28, 31, 30, 31, 30, 31, 31, 30, 31, 30, 31]

/-- The month that holds a day of the year, counted from 0, and the day of the month, counted from
1. -/
def monthAndDay (month day : Nat) : List Nat → Nat × Nat
  | [] => (month, day + 1)
  | length :: rest => if day < length then (month, day + 1)
    else monthAndDay (month + 1) (day - length) rest

/-- Days before the first of January of a year, counted from the first of January of the year 1. -/
def daysBeforeYear (year : Nat) : Nat :=
  let y := year - 1
  365 * y + y / 4 - y / 100 + y / 400

/-- The date of a day, counted from the first of January of the year 1. -/
def dateOfDay (n : Nat) : Date :=
  let guess := n * 400 / 146097 + 1
  let year := if daysBeforeYear (guess + 1) ≤ n then guess + 1 else if n < daysBeforeYear guess then
    guess - 1 else guess
  let (month, day) := monthAndDay 1 (n - daysBeforeYear year) (monthLengths year)
  ⟨year, month, day⟩

/-- Decimal digits with zeros in front up to a width. -/
def padded (width n : Nat) : Text :=
  let digits := Nat.toDigits 10 n
  List.replicate (width - digits.length) '0' ++ digits

end PineTools.Calendar
