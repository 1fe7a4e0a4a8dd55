import PineTools.Decimal.Float64
import PineTools.Text.Quoted

namespace PineTools.Decimal

/-- The value of a run of decimal digits, most significant first. -/
def digitsValue (t : Text) : Nat := t.foldl (fun n c => 10 * n + (Text.decimalValue? c).getD 0) 0

/-- The longest run of digits that is read as a whole number. -/
def digitLimit : Nat := 4300

/-- Why a text is no whole number, or a whole number has no text. -/
inductive NumeralError where
  | noNumeral (base : Nat) (text : Text)
  | tooLong (digits : Nat)
  | tooLongToShow
  deriving DecidableEq, Repr, Inhabited

/-- How much of a quoted text a message shows. -/
def quotedLimit : Nat := 200

def NumeralError.message : NumeralError → String
  | .noNumeral base t =>
    s!"invalid literal for int() with base {base}: " ++
      String.ofList ((Text.quoted t).take quotedLimit)
  | .tooLong n =>
    s!"Exceeds the limit (4300 digits) for integer string conversion: value has {n} digits; use sys.set_int_max_str_digits() to increase the limit"
  | .tooLongToShow =>
    "Exceeds the limit (4300 digits) for integer string conversion; use sys.set_int_max_str_digits() to increase the limit"

/-- Reads a text of digits as a whole number. Digits in the wide sense are refused when they have no
place value. -/
def readDigits (t : Text) : Except NumeralError Nat :=
  let run := t.takeWhile Text.isDecimal
  if run.length > digitLimit then .error (.tooLong run.length)
  else if run.isEmpty || run.length < t.length then .error (.noNumeral 10 t)
  else .ok (digitsValue t)

/-- Drops single underscores that stand between two digits; any other underscore makes the text
unreadable. -/
def dropUnderscores (before : Option Char) : Text → Option Text
  | [] => some []
  | '_' :: rest =>
    if before.any Text.isDecimal && rest.head?.any Text.isDecimal then
      dropUnderscores (some '_') rest else none
  | c :: rest => (dropUnderscores (some c) rest).map (c :: ·)

/-- Splits an optional sign off. The flag tells a minus. -/
def takeSign : Text → Bool × Text
  | '-' :: rest => (true, rest)
  | '+' :: rest => (false, rest)
  | t => (false, t)

/-- Lowercase of the basic alphabet. -/
def asciiLower (t : Text) : Text := t.map Char.toLower

def exponentBound : Nat := 1000000000

/-- Reads the exponent part of a number: nothing, or a mark, an optional sign and digits. It is cut
at a bound that no number reaches. -/
def readExponent : Text → Option Int
  | [] => some 0
  | mark :: rest =>
    let (negative, digits) := takeSign rest
    if (mark == 'e' || mark == 'E') && !digits.isEmpty && digits.all Text.isDecimal then
      let e : Nat := if digits.length > 4000 then exponentBound
        else min (digitsValue digits) exponentBound
      some (if negative then -(e : Int) else e)
    else none

/-- Reads digits with an optional point and exponent. -/
def readUnsigned? (negative : Bool) (t : Text) : Option Float :=
  let whole := t.takeWhile Text.isDecimal
  let afterWhole := t.drop whole.length
  let (fraction, rest) :=
    match afterWhole with
    | '.' :: more => (more.takeWhile Text.isDecimal, more.dropWhile Text.isDecimal)
    | _ => ([], afterWhole)
  if whole.isEmpty && fraction.isEmpty then none
  else
    (readExponent rest).map fun e =>
      nearest negative (digitsValue (whole ++ fraction)) (e - fraction.length)

/-- Reads a number with an optional sign, point and exponent, or one of the words for infinity and
for no number. -/
def readSigned? (t : Text) : Option Float :=
  let (negative, body) := takeSign t
  let lowered := asciiLower body
  if lowered == "inf".toList || lowered == "infinity".toList then
    some (if negative then -(Float.ofBits 0x7ff0000000000000) else Float.ofBits 0x7ff0000000000000)
  else if lowered == "nan".toList then some (Float.ofBits 0x7ff8000000000000)
  else readUnsigned? negative body

/-- Reads a number with optional surrounding white space. Single underscores may divide digits. -/
def readFloat? (t : Text) :
    Option Float := (dropUnderscores none (Text.stripWhite t)).bind readSigned?

def digitIn? (base : Nat) (c : Char) : Option Nat :=
  ((Text.decimalValue? c).orElse fun _ => Text.hexValue? c).filter (· < base)

def baseLetter? : Nat → Option Char
  | 2 => some 'b'
  | 8 => some 'o'
  | 16 => some 'x'
  | _ => none

def dropBaseMark (base : Nat) : Text → Text
  | '0' :: c :: rest => if baseLetter? base == some c.toLower then rest else '0' :: c :: rest
  | t => t

/-- Reads a whole number in a base, with optional surrounding white space, sign and mark of the
base. Only in base ten is the number of digits limited. -/
def readInt (base : Nat) (t : Text) : Except NumeralError Int :=
  let (negative, body) := takeSign (Text.stripWhite t)
  let digits := dropBaseMark base body
  let run := digits.takeWhile fun c => (digitIn? base c).isSome
  if base == 10 && run.length > digitLimit then .error (.tooLong run.length)
  else if run.isEmpty || run.length < digits.length then .error (.noNumeral base t)
  else
    let n : Nat := run.foldl (fun n c => base * n + (digitIn? base c).getD 0) 0
    .ok (if negative then -(n : Int) else n)

end PineTools.Decimal
