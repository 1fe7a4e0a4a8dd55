import PineTools.Calendar.Moment

namespace PineTools.Yaml

inductive Tag where
  | null
  | bool
  | int
  | float
  | binary
  | stamp
  | text
  | list
  | mapping
  | set
  | orderedMap
  | pairs
  | merge
  | value
  | unknown
  deriving DecidableEq, Repr, Inhabited

def standardStem : Text := "tag:yaml.org,2002:".toList

def Tag.names : List (String × Tag) :=
  [("null", .null), ("bool", .bool), ("int", .int), ("float", .float), ("binary", .binary),
    ("timestamp", .stamp),
   ("str", .text), ("seq", .list), ("map", .mapping), ("set", .set), ("omap", .orderedMap),
   ("pairs", .pairs), ("merge", .merge), ("value", .value)]

def Tag.ofAddress (t : Text) : Tag :=
  ((Tag.names.find? fun n => standardStem ++ n.1.toList == t).map Prod.snd).getD .unknown

def isOneOf (words : List String) (t : Text) : Bool := words.any fun w => w.toList == t

def nullWords : List String := ["", "~", "null", "Null", "NULL"]

def truthWords : List String :=
  ["yes", "Yes", "YES", "no", "No", "NO", "true", "True", "TRUE", "false", "False", "FALSE", "on",
    "On", "ON", "off",
   "Off", "OFF"]

def dropSign (t : Text) : Text := (Decimal.takeSign t).2

def isSpacedDigit (c : Char) : Bool := Text.isAsciiDigit c || c == '_'

def startsWithDigit (t : Text) : Bool := t.head?.any Text.isAsciiDigit

/-- Parts of a number in base sixty: colons, each with one or two digits below sixty after it. At
least one must stand there. What follows them is left. -/
def sixties? : Nat → Text → Option Text
  | 0, _ => none
  | fuel + 1, t =>
    match t with
    | ':' :: a :: b :: rest =>
      if '0' ≤ a && a ≤ '5' && Text.isAsciiDigit b then (sixties? fuel rest).orElse
        fun _ => some rest
      else if Text.isAsciiDigit a then (sixties? fuel (b :: rest)).orElse fun _ => some (b :: rest)
      else none
    | [':', a] => if Text.isAsciiDigit a then some [] else none
    | _ => none

def sixtiesAfter? (t : Text) : Option Text := sixties? (t.length + 1) t

def isSignedExponent : Text → Bool
  | [] => true
  | mark :: sign :: digits =>
    (mark == 'e' || mark == 'E') && (sign == '+' || sign == '-') && !digits.isEmpty &&
      digits.all Text.isAsciiDigit
  | _ => false

def isPointed (t : Text) : Bool :=
  match t.dropWhile isSpacedDigit with
  | '.' :: rest => isSignedExponent (rest.dropWhile isSpacedDigit)
  | _ => false

/-- A number in base sixty with a point. -/
def isPointedSixties (t : Text) : Bool :=
  match sixtiesAfter? (t.dropWhile isSpacedDigit) with
  | some ('.' :: rest) => rest.all isSpacedDigit
  | _ => false

/-- The text looks like a number with a point. Without digits before the point it has no sign, and
needs one after it. -/
def looksLikeFloat (t : Text) : Bool :=
  let body := dropSign t
  (startsWithDigit body && (isPointed body || isPointedSixties body))
    || (t.head? == some '.' && startsWithDigit (t.drop 1) && isPointed t)
    || isOneOf [".inf", ".Inf", ".INF"] body || isOneOf [".nan", ".NaN", ".NAN"] t

/-- A decimal number that starts with no zero, possibly in base sixty. -/
def looksLikeDecimal (t : Text) : Bool :=
  t.head?.any (fun c => '1' ≤ c && c ≤ '9')
    && ((t.dropWhile isSpacedDigit).isEmpty || sixtiesAfter? (t.dropWhile isSpacedDigit) == some [])

/-- The text looks like a whole number: decimal, or binary, octal or hexadecimal by its beginning.
-/
def looksLikeInt (t : Text) : Bool :=
  let spaced := fun (test : Char → Bool) (digits : Text) => !digits.isEmpty && digits.all fun c =>
    test c || c == '_'
  match dropSign t with
  | ['0'] => true
  | '0' :: 'b' :: digits => spaced (fun c => c == '0' || c == '1') digits
  | '0' :: 'x' :: digits => spaced (fun c => (Text.hexValue? c).isSome) digits
  | '0' :: digits => spaced (fun c => '0' ≤ c && c ≤ '7') digits
  | body => looksLikeDecimal body

/-- The text looks like a time stamp. A date alone needs two digits for month and day. -/
def looksLikeStamp (t : Text) : Bool := (Calendar.stamp? t).any fun s => s.wide || s.time.isSome

def dropFinalBreak (t : Text) : Text := if t.length > 1 && t.getLast? == some '\n' then t.dropLast
    else t

/-- The tag that a scalar gets from how it looks. A newline at its end makes no difference. -/
def Tag.ofLook (text : Text) : Tag :=
  let t := dropFinalBreak text
  if isOneOf truthWords t then .bool
  else if looksLikeFloat t then .float
  else if looksLikeInt t then .int
  else if isOneOf ["<<"] t then .merge
  else if isOneOf nullWords t then .null
  else if looksLikeStamp t then .stamp
  else if isOneOf ["="] t then .value
  else if isOneOf ["!", "&", "*"] t then .unknown
  else .text

end PineTools.Yaml
