import PineTools.Calendar.Date
import PineTools.Decimal.Numeral

namespace PineTools.Calendar

/-- A date with a time of day. An offset, in seconds, tells how far the clock is ahead of Universal
Time. -/
structure Moment where
  date : Date
  hour : Nat
  minute : Nat
  second : Nat
  microsecond : Nat
  offset : Option Int
  deriving DecidableEq, Repr, Inhabited

/-- Why a time stamp stands for no date or moment. -/
inductive StampError where
  | year (n : Nat)
  | month
  | day
  | hour
  | minute
  | second
  | offset (seconds : Int)
  deriving DecidableEq, Repr, Inhabited

def daySeconds : Nat := 86400

/-- A span of seconds as messages show it: whole days, which may be negative, and the seconds that
remain. -/
def spanText (seconds : Int) : Text :=
  let days := seconds / daySeconds
  let rest := seconds % daySeconds
  let number := fun n : Int => (if n < 0 then ['-'] else []) ++ Nat.toDigits 10 n.natAbs
  let fields :=
    (if days = 0 then [] else ["days=".toList ++ number days])
      ++ (if rest = 0 then [] else ["seconds=".toList ++ number rest])
  "datetime.timedelta(".toList ++
    (if fields.isEmpty then ['0'] else Text.joinWith [',', ' '] fields) ++ [')']

def StampError.message : StampError → String
  | .year n => s!"year {n} is out of range"
  | .month => "month must be in 1..12"
  | .day => "day is out of range for month"
  | .hour => "hour must be in 0..23"
  | .minute => "minute must be in 0..59"
  | .second => "second must be in 0..59"
  | .offset s =>
    "offset must be a timedelta strictly between -timedelta(hours=24) and timedelta(hours=24), not "
      ++ String.ofList (spanText s) ++ "."

/-- The time of day of a stamp, with the digits of its fraction. -/
structure StampTime where
  hour : Nat
  minute : Nat
  second : Nat
  fraction : Text
  offset : Option Int
  deriving DecidableEq, Repr, Inhabited

/-- The numbers of a time stamp, which need not form a date. The flag tells that month and day have
two digits each. -/
structure Stamp where
  year : Nat
  month : Nat
  day : Nat
  wide : Bool
  time : Option StampTime
  deriving DecidableEq, Repr, Inhabited

/-- Exactly the given number of digits, and what follows them. -/
def digits? (count : Nat) (t : Text) : Option (Nat × Text) :=
  let run := t.take count
  if run.length = count && run.all Text.isAsciiDigit then
    some (Decimal.digitsValue run, t.drop count) else none

def shortDigits? (t : Text) : Option (Nat × Text) := (digits? 2 t).orElse fun _ => digits? 1 t

def after? (c : Char) : Text → Option Text
  | d :: rest => if c = d then some rest else none
  | [] => none

def offsetMinutes? : Text → Option Nat
  | [] => some 0
  | t =>
    match (after? ':' t).bind (digits? 2) with
    | some (minutes, []) => some minutes
    | _ => none

/-- The offset at the end of a stamp, in seconds. -/
def offset? : Text → Option Int
  | ['Z'] => some 0
  | sign :: rest => do
    guard (sign = '+' || sign = '-')
    let (hours, rest) ← shortDigits? rest
    let minutes ← offsetMinutes? rest
    let span : Int := hours * 3600 + minutes * 60
    return if sign = '-' then -span else span
  | [] => none

def stampTime? (t : Text) : Option StampTime := do
  let blanks := t.takeWhile Text.isBlank
  let rest ←
    match t with
    | 'T' :: rest => some rest
    | 't' :: rest => some rest
    | _ => if blanks.isEmpty then none else some (t.drop blanks.length)
  let (hour, rest) ← shortDigits? rest
  let (minute, rest) ← (after? ':' rest).bind (digits? 2)
  let (second, rest) ← (after? ':' rest).bind (digits? 2)
  let fraction := ((after? '.' rest).map fun r => r.takeWhile Text.isAsciiDigit).getD []
  let rest := ((after? '.' rest).map fun r => r.dropWhile Text.isAsciiDigit).getD rest
  if rest.isEmpty then return ⟨hour, minute, second, fraction, none⟩
  else return ⟨hour, minute, second, fraction, some (← offset? (rest.dropWhile Text.isBlank))⟩

def stamp? (t : Text) : Option Stamp := do
  let (year, rest) ← digits? 4 t
  let monthText ← after? '-' rest
  let (month, rest) ← shortDigits? monthText
  let dayText ← after? '-' rest
  let (day, after) ← shortDigits? dayText
  let wide := (digits? 2 monthText).isSome && (digits? 2 dayText).isSome
  if after.isEmpty then return ⟨year, month, day, wide, none⟩
  else return ⟨year, month, day, wide, some (← stampTime? after)⟩

def date? (year month day : Nat) : Except StampError Date :=
  if year = 0 then .error (.year year)
  else if month = 0 || month > 12 then .error .month
  else if day = 0 || ((monthLengths year)[month - 1]?).any (fun length => day > length) then
    .error .day
  else .ok ⟨year, month, day⟩

/-- The microseconds that the digits of a fraction stand for. Digits past the sixth are dropped. -/
def microseconds (fraction : Text) : Nat :=
  let kept := fraction.take 6
  Decimal.digitsValue (kept ++ List.replicate (6 - kept.length) '0')

/-- The moment of a date and a time of day. The offset is looked at first, then the fields from the
year on. -/
def moment? (stamp : Stamp) (time : StampTime) : Except StampError Moment :=
  match time.offset.filter fun s => decide (daySeconds ≤ s.natAbs) with
  | some s => .error (.offset s)
  | none => do
    let date ← date? stamp.year stamp.month stamp.day
    if time.hour > 23 then .error .hour
    else if time.minute > 59 then .error .minute
    else if time.second > 59 then .error .second
    else .ok ⟨date, time.hour, time.minute, time.second, microseconds time.fraction, time.offset⟩

def Date.text (d : Date) : Text := padded 4 d.year ++ '-' :: padded 2 d.month ++
    '-' :: padded 2 d.day

def arguments (numbers : List Nat) : Text :=
  Text.joinWith [',', ' '] (numbers.map (Nat.toDigits 10))

def Date.shown (d : Date) : Text := "datetime.date(".toList ++ arguments [d.year, d.month, d.day] ++
    [')']

/-- The signed hours and minutes of an offset. -/
def offsetText (seconds : Int) : Text :=
  (if seconds < 0 then '-' else '+') ::
    (padded 2 (seconds.natAbs / 3600) ++ ':' :: padded 2 (seconds.natAbs / 60 % 60))

def Moment.text (m : Moment) : Text :=
  m.date.text ++ ' ' :: padded 2 m.hour ++ ':' :: padded 2 m.minute ++ ':' :: padded 2 m.second
    ++ (if m.microsecond = 0 then [] else '.' :: padded 6 m.microsecond)
    ++ ((m.offset.map offsetText).getD [])

def offsetShown (seconds : Int) : Text :=
  if seconds = 0 then "datetime.timezone.utc".toList
  else "datetime.timezone(".toList ++ spanText seconds ++ [')']

/-- A moment as messages show it: seconds and microseconds are left out where they and all after
them are zero. -/
def Moment.shown (m : Moment) : Text :=
  let fine :=
    if m.microsecond ≠ 0 then [m.second, m.microsecond] else if m.second ≠ 0 then [m.second] else []
  "datetime.datetime(".toList ++
    arguments ([m.date.year, m.date.month, m.date.day, m.hour, m.minute] ++ fine)
    ++ ((m.offset.map fun s => ", tzinfo=".toList ++ offsetShown s).getD []) ++ [')']

/-- The day of a date, counted from the first of January of the year 1. -/
def Date.ordinal (d : Date) : Nat :=
  daysBeforeYear d.year + ((monthLengths d.year).take (d.month - 1)).foldl (· + ·) 0 + d.day - 1

/-- Microseconds since the start of the year 1 on the moment's own clock, less its offset. -/
def Moment.instant (m : Moment) : Int :=
  let seconds : Int := m.date.ordinal * daySeconds + m.hour * 3600 + m.minute * 60 + m.second
  (seconds - m.offset.getD 0) * 1000000 + m.microsecond

/-- Two moments are the same: on clocks with an offset as instants, on clocks without one as they
are written. -/
def Moment.same (a b : Moment) : Bool := a.offset.isSome == b.offset.isSome &&
    a.instant == b.instant

end PineTools.Calendar
