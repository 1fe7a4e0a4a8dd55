import PineTools.Text.Base64
import PineTools.Yaml.Node
import PineTools.Yaml.Value

/-! What scalars stand for. The tag tells the kind, so that a text which only looks like a number is
read as one only if its tag says so, and a tag that the text does not fit is an error. -/
namespace PineTools.Yaml

def trueWords : List String := ["yes", "true", "on"]

def falseWords : List String := ["no", "false", "off"]

def truthValue (t : Text) : Except ReadError Yaml :=
  let lowered := Decimal.asciiLower t
  if isOneOf trueWords lowered then .ok (.bool true)
  else if isOneOf falseWords lowered then .ok (.bool false)
  else .error (.noTruthValue lowered)

def colonParts : Text → List Text
  | [] => [[]]
  | c :: rest =>
    if c = ':' then [] :: colonParts rest
    else
      match colonParts rest with
      | [] => [[c]]
      | p :: ps => (c :: p) :: ps

def readInt (base : Nat) (t : Text) :
    Except ReadError Int := (Decimal.readInt base t).mapError .numeral

/-- A whole number without underscores and sign. The parts between colons are digits in base sixty.
-/
def unsignedInt (t : Text) : Except ReadError Int :=
  match t with
  | [] => .error .emptyNumber
  | ['0'] => .ok 0
  | '0' :: 'b' :: digits => readInt 2 digits
  | '0' :: 'x' :: digits => readInt 16 digits
  | '0' :: _ => readInt 8 t
  | _ =>
    if t.contains ':' then do
      let parts ← (colonParts t).mapM (readInt 10)
      return parts.foldl (fun n d => 60 * n + d) 0
    else readInt 10 t

/-- A whole number. Underscores are left out, and a sign may stand in front. -/
def wholeNumber (t : Text) : Except ReadError Yaml :=
  let digits := t.filter (· != '_')
  if digits.isEmpty then .error .emptyNumber
  else
    let (negative, body) := Decimal.takeSign digits
    (unsignedInt body).map fun n => .int (if negative then -n else n)

def readFloat (t : Text) : Except ReadError Float :=
  match Decimal.readFloat? t with
  | some x => .ok x
  | none => .error (.noFloat t)

/-- The value of digits in base sixty, the last one first, when the last one is worth the given
unit. -/
def sixtiesValue (unit sum : Float) : List Float → Float
  | [] => sum
  | d :: rest => sixtiesValue (unit * 60) (sum + d * unit) rest

/-- A number without underscores and sign. -/
def unsignedFloat (t : Text) : Except ReadError Float :=
  if t == ".inf".toList then .ok (Float.ofBits 0x7ff0000000000000)
  else if t.contains ':' then do
    let parts ← (colonParts t).mapM readFloat
    return sixtiesValue 1 0 parts.reverse
  else readFloat t

def number (t : Text) : Except ReadError Yaml :=
  let digits := Decimal.asciiLower (t.filter (· != '_'))
  if digits.isEmpty then .error .emptyNumber
  else
    let (negative, body) := Decimal.takeSign digits
    if body == ".nan".toList then .ok (.float (Float.ofBits 0x7ff8000000000000))
    else (unsignedFloat body).map fun x => .float (if negative then -x else x)

def stampValue (t : Text) : Except ReadError Yaml :=
  match Calendar.stamp? (dropFinalBreak t) with
  | none => .error .noStamp
  | some s =>
    match s.time with
    | none => ((Calendar.date? s.year s.month s.day).map Yaml.date).mapError .stamp
    | some time => ((Calendar.moment? s time).map Yaml.moment).mapError .stamp

def binaryValue (t : Text) : Except ReadError Yaml :=
  if t.any fun c => c.toNat ≥ 0x80 then .error .malformed
  else
    match Text.decodeBase64? t with
    | some data => .ok (.bytes data)
    | none => .error .malformed

/-- What a text with a tag stands for. Tags of collections do not fit it. -/
def scalarValue (tag : Tag) (t : Text) : Except ReadError Yaml :=
  match tag with
  | .null => .ok .null
  | .bool => truthValue t
  | .int => wholeNumber t
  | .float => number t
  | .binary => binaryValue t
  | .stamp => stampValue t
  | .text => .ok (.str t)
  | _ => .error .malformed

end PineTools.Yaml
