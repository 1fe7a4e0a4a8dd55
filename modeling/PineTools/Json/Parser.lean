import PineTools.Json.Value
import PineTools.Decimal.Numeral

/-! Reading JSON. Beyond the grammar of the format the words for infinity and for no number are
read; a repeated field keeps its last value. A whole number of more than 4300 digits is an error of
its own, which is met where the number stands, and so are brackets inside more others than the
caller has room for. -/
namespace PineTools.Json

/-- Why a text cannot be read. -/
inductive ParseError where
  | malformed
  | numeral (error : Decimal.NumeralError)
  | tooDeep
  deriving DecidableEq, Repr, Inhabited

/-- White space between tokens. -/
def isGap (c : Char) : Bool := c == ' ' || c == '\t' || c == '\n' || c == '\r'

def skipGap (t : Text) : Text := t.dropWhile isGap

/-- The value of four hexadecimal digits. -/
def hexUnit? (a b c d : Char) : Option Nat := do
  let a ← Text.hexValue? a
  let b ← Text.hexValue? b
  let c ← Text.hexValue? c
  let d ← Text.hexValue? d
  return ((a * 16 + b) * 16 + c) * 16 + d

/-- The character that a single-letter escape stands for. -/
def shortEscape? (c : Char) : Option Char :=
  if c == '"' || c == '\\' || c == '/' then some c
  else if c == 'b' then some (Char.ofNat 8)
  else if c == 'f' then some (Char.ofNat 12)
  else if c == 'n' then some '\n'
  else if c == 'r' then some '\r'
  else if c == 't' then some '\t'
  else none

/-- The code points and 16-bit units of a string, after its opening quote, and what follows its
closing quote. -/
def stringUnits : Text → Option (List Nat × Text)
  | [] => none
  | '"' :: rest => some ([], rest)
  | '\\' :: 'u' :: a :: b :: c :: d :: rest => do
    let unit ← hexUnit? a b c d
    let (units, after) ← stringUnits rest
    return (unit :: units, after)
  | '\\' :: c :: rest => do
    let escaped ← shortEscape? c
    let (units, after) ← stringUnits rest
    return (escaped.toNat :: units, after)
  | c :: rest => do
    guard (c.toNat ≥ 0x20)
    guard (c != '\\')
    let (units, after) ← stringUnits rest
    return (c.toNat :: units, after)

/-- The codes of a string, after its opening quote. -/
def readString (t : Text) : Except ParseError (List Nat × Text) :=
  match stringUnits t with
  | some (units, rest) => .ok (Text.joinUnits units, rest)
  | none => .error .malformed

def ofCodes (codes : List Nat) : Json := if codes.any Text.isHalf then halves codes
    else str (codes.map Char.ofNat)

/-- The exponent part of a number, if there is a complete one, and what follows it. -/
def exponentPart? : Text → Option (Text × Text)
  | [] => none
  | mark :: more =>
    let signed := (Decimal.takeSign more).2
    let digits := signed.takeWhile Text.isAsciiDigit
    if (mark == 'e' || mark == 'E') && !digits.isEmpty then
      some (mark :: (more.take (more.length - signed.length) ++ digits), signed.drop digits.length)
    else none

def fractionDigits : Text → Text
  | '.' :: more => more.takeWhile Text.isAsciiDigit
  | _ => []

/-- A number. It is whole unless it has a point or an exponent. -/
def readNumber (input : Text) : Except ParseError (Json × Text) :=
  let negative := input.head? == some '-'
  let unsigned := if negative then input.drop 1 else input
  let run := unsigned.takeWhile Text.isAsciiDigit
  let whole := if run.head? == some '0' then ['0'] else run
  let afterWhole := unsigned.drop whole.length
  let fraction := fractionDigits afterWhole
  let afterFraction := if fraction.isEmpty then afterWhole
    else afterWhole.drop (fraction.length + 1)
  let scaled := fun e : Int =>
    float (Decimal.nearest negative (Decimal.digitsValue (whole ++ fraction)) (e - fraction.length))
  if whole.isEmpty then .error .malformed
  else
    match exponentPart? afterFraction with
    | some (part, rest) =>
      match Decimal.readExponent part with
      | some e => .ok (scaled e, rest)
      | none => .error .malformed
    | none =>
      if !fraction.isEmpty then .ok (scaled 0, afterFraction)
      else
        match Decimal.readDigits whole with
        | .ok n => .ok (int (if negative then -(n : Int) else n), afterWhole)
        | .error e => .error (.numeral e)

/-- The values that are written as words. -/
def constants : List (String × Json) :=
  [("null", null), ("true", bool true), ("false", bool false),
    ("NaN", float (Float.ofBits 0x7ff8000000000000)),
   ("Infinity", float (Float.ofBits 0x7ff0000000000000)),
   ("-Infinity", float (-(Float.ofBits 0x7ff0000000000000)))]

def readScalar (input : Text) : Except ParseError (Json × Text) :=
  match constants.find? fun w => w.1.toList.isPrefixOf input with
  | some (w, v) => .ok (v, input.drop w.length)
  | none => readNumber input

/-- Fields in the order of their first writing, each with its last value. -/
def mergeFields (fields : List (Text × Json)) : List (Text × Json) :=
  fields.foldl (fun merged f => setField f.1 f.2 merged) []

mutual

/-- Reads a value inside which so many brackets may be open. The fuel bounds the number of values
and separators that are read. -/
def readValue : Nat → Nat → Text → Except ParseError (Json × Text)
  | 0, _, _ => .error .malformed
  | fuel + 1, room, input =>
    match input with
    | '"' :: rest => (readString rest).map fun (codes, after) => (ofCodes codes, after)
    | '[' :: rest =>
      if room = 0 then .error .tooDeep
      else
        match skipGap rest with
        | ']' :: after => .ok (arr [], after)
        | more => (readItems fuel (room - 1) more).map fun (items, after) => (arr items, after)
    | '\x7b' :: rest =>
      if room = 0 then .error .tooDeep
      else
        match skipGap rest with
        | '\x7d' :: after => .ok (obj [], after)
        | more =>
          (readFields fuel (room - 1) more).map fun (fields, after) =>
            (obj (mergeFields fields), after)
    | _ => readScalar input

/-- Reads the items of an array up to its closing bracket. -/
def readItems : Nat → Nat → Text → Except ParseError (List Json × Text)
  | 0, _, _ => .error .malformed
  | fuel + 1, room, input => do
    let (v, rest) ← readValue fuel room input
    match skipGap rest with
    | ']' :: after => return ([v], after)
    | ',' :: more =>
      let (vs, after) ← readItems fuel room (skipGap more)
      return (v :: vs, after)
    | _ => throw .malformed

/-- Reads the fields of an object up to its closing brace. -/
def readFields : Nat → Nat → Text → Except ParseError (List (Text × Json) × Text)
  | 0, _, _ => .error .malformed
  | fuel + 1, room, input =>
    match input with
    | '"' :: afterQuote => do
      let (codes, rest) ← readString afterQuote
      let key := codes.map Text.charOfCode
      match skipGap rest with
      | ':' :: more =>
        let (v, rest) ← readValue fuel room (skipGap more)
        match skipGap rest with
        | '\x7d' :: after => return ([(key, v)], after)
        | ',' :: more =>
          let (fs, after) ← readFields fuel room (skipGap more)
          return ((key, v) :: fs, after)
        | _ => throw .malformed
      | _ => throw .malformed
    | _ => .error .malformed

end

/-- Reads a whole text as one value, in which so many brackets may be open at once. -/
def parse (nesting : Nat) (t : Text) : Except ParseError Json := do
  let (v, rest) ← readValue (2 * t.length + 2) nesting (skipGap t)
  if (skipGap rest).isEmpty then return v else throw .malformed

end PineTools.Json
