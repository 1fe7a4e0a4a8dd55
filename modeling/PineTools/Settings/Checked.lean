import PineTools.Decimal.Numeral
import PineTools.Json.Value
import PineTools.Version.Basic

/-! Reading typed records out of JSON values. Numbers, truth values and numerals in texts stand for
each other where that loses nothing; everything else is a fault. All faults of a record are
collected, each with the path to the value it is about. -/
namespace PineTools

/-- What is wrong with a value. -/
inductive FaultKind where
  | intType
  | intParsing
  | intTooLong
  | intFromFloat
  | finiteNumber
  | atLeast
  | atMost
  | floatType
  | floatParsing
  | greaterThan
  | boolType
  | boolParsing
  | stringType
  | stringUnicode
  | listType
  | enumeration
  | missing
  | recordType
  | requestRecordType
  deriving DecidableEq, Repr, Inhabited

def FaultKind.name : FaultKind → String
  | .intType => "int_type"
  | .intParsing => "int_parsing"
  | .intTooLong => "int_parsing_size"
  | .intFromFloat => "int_from_float"
  | .finiteNumber => "finite_number"
  | .atLeast => "greater_than_equal"
  | .atMost => "less_than_equal"
  | .floatType => "float_type"
  | .floatParsing => "float_parsing"
  | .greaterThan => "greater_than"
  | .boolType => "bool_type"
  | .boolParsing => "bool_parsing"
  | .stringType => "string_type"
  | .stringUnicode => "string_unicode"
  | .listType => "list_type"
  | .enumeration => "enum"
  | .missing => "missing"
  | .recordType => "model_type"
  | .requestRecordType => "model_attributes_type"

/-- One step from a value to a part of it. -/
inductive PathStep where
  | key (name : String)
  | index (n : Nat)
  deriving DecidableEq, Repr, Inhabited

structure Fault where
  path : List PathStep
  kind : FaultKind
  deriving DecidableEq, Repr, Inhabited

/-- A value that was read, or all faults that were found. -/
inductive Checked (α : Type) where
  | ok (value : α)
  | bad (faults : List Fault)
  deriving Inhabited

namespace Checked

variable {α β : Type}

def map (f : α → β) : Checked α → Checked β
  | ok a => ok (f a)
  | bad fs => bad fs

/-- Applies a read function to a read argument. The faults of both are kept, those of the function
first. -/
def ap : Checked (α → β) → Checked α → Checked β
  | ok f, ok a => ok (f a)
  | ok _, bad fs => bad fs
  | bad fs, ok _ => bad fs
  | bad fs, bad gs => bad (fs ++ gs)

instance : Applicative Checked where
  pure := ok
  map := map
  seq f a := ap f (a ())

def fault (kind : FaultKind) : Checked α := bad [⟨[], kind⟩]

/-- Puts a step in front of the path of every fault. -/
def within (step : PathStep) : Checked α → Checked α
  | ok a => ok a
  | bad fs => bad (fs.map fun f => { f with path := step :: f.path })

/-- The value with a further condition on it. -/
def require (p : α → Bool) (kind : FaultKind) : Checked α → Checked α
  | ok a => if p a then ok a else fault kind
  | bad fs => bad fs

def items (read : Json → Checked α) (index : Nat) : List Json → Checked (List α)
  | [] => ok []
  | v :: rest => List.cons <$> within (.index index) (read v) <*> items read (index + 1) rest

end Checked

namespace Read

/-- Goes on in zeros and underscores, of which `last` was the last one. They are dropped before a
digit or a minus; before a point and at the end the last one stays. -/
def afterZeros (last : Char) : Text → Option Text
  | [] => some [last]
  | c :: rest =>
    if c = '0' || c = '_' then afterZeros c rest
    else if ('1' ≤ c && c ≤ '9') || c = '-' then some (c :: rest)
    else if c = '.' then some (last :: c :: rest)
    else none

def dropLeadingZeros : Text → Option Text
  | [] => none
  | c :: rest =>
    if c = '0' then afterZeros c rest
    else if ('1' ≤ c && c ≤ '9') || c = '-' then some (c :: rest)
    else none

/-- Drops a point and the zeros after it at the end of a numeral. -/
def dropZeroFraction (t : Text) : Text :=
  match t.dropWhile (· != '.') with
  | '.' :: zeros => if !zeros.isEmpty && zeros.all (· == '0') then t.takeWhile (· != '.') else t
  | _ => t

/-- Two underscores stand next to each other. -/
def hasDoubleUnderscore : Text → Bool
  | '_' :: '_' :: _ => true
  | _ :: rest => hasDoubleUnderscore rest
  | [] => false

/-- Drops underscores, unless one stands at an end or next to another. -/
def dropDividers (t : Text) : Text :=
  if t.head? == some '_' || t.getLast? == some '_' || hasDoubleUnderscore t then t
    else t.filter (· != '_')

/-- A numeral in its plain form: a minus or nothing, and digits, which after a minus may start with
zeros. The sign counts for the length. -/
def plainNumeral (t : Text) : Checked Int :=
  let (negative, body) :=
    match t with
    | '-' :: rest => (true, rest)
    | _ => (false, t)
  let run := body.takeWhile Text.isAsciiDigit
  if run.isEmpty then .fault .intParsing
  else if run.length + (if negative then 1 else 0) > Decimal.digitLimit then .fault .intTooLong
  else if run.length < body.length then .fault .intParsing
  else
    let n : Int := Decimal.digitsValue run
    .ok (if negative then -n else n)

/-- A plus may stand in front of a numeral, but not before a minus. -/
def dropPlus : Text → Option Text
  | '+' :: '-' :: _ => none
  | '+' :: rest => some rest
  | t => some t

/-- A whole number in a text: white space around it, a sign, zeros in front, a fraction of zeros and
underscores inside are allowed. -/
def numeral (t : Text) : Checked Int :=
  match (dropPlus (Text.stripWhite t)).bind dropLeadingZeros with
  | none => .fault .intParsing
  | some digits => plainNumeral (dropDividers (dropZeroFraction digits))

/-- The bound of the whole numbers that fractions and truth values are compared with. -/
def wordBound : Int := 9223372036854775808

/-- The whole number that a floating-point number is, if it is one that is not too large. -/
def wholeFloat (x : Float) : Checked Int :=
  match Decimal.parts x with
  | .nan | .infinite _ => .fault .finiteNumber
  | .finite _ _ _ _ =>
    match Decimal.toInt? x with
    | none => .fault .intFromFloat
    | some n => if -wordBound < n && n < wordBound then .ok n else .fault .intTooLong

def int : Json → Checked Int
  | .int n => .ok n
  | .bool b => .ok (if b then 1 else 0)
  | .float x => wholeFloat x
  | .str t => numeral t
  | .halves _ => .fault .stringUnicode
  | _ => .fault .intType

/-- A whole number within bounds. -/
def natIn (low : Nat) (high : Option Nat) (v : Json) : Checked Nat :=
  let below := (int v).require (fun n => high.all fun h => n ≤ (h : Int)) .atMost
  (below.require (fun n => (low : Int) ≤ n) .atLeast).map Int.toNat

/-- A number in a text of basic characters: with white space around it, or with underscores inside.
-/
def floatText? (t : Text) : Option Float :=
  let bare := fun s : Text => if s.all fun c => c.toNat < 0x80 then Decimal.readSigned? s else none
  (bare (Text.stripWhite t)).orElse fun _ => bare (dropDividers t)

/-- A number, or the numeral of one. A whole number must not be too large for a fraction. -/
def float : Json → Checked Float
  | .int n => if (Decimal.ofInt n).isInf then .fault .floatType else .ok (Decimal.ofInt n)
  | .float x => .ok x
  | .bool b => .ok (if b then 1 else 0)
  | .str t =>
    match floatText? t with
    | some x => .ok x
    | none => .fault .floatParsing
  | .halves _ => .fault .stringUnicode
  | _ => .fault .floatType

/-- A number above zero. What compares with nothing is let through. -/
def positive (v : Json) : Checked Float := (float v).require (fun x => !(x ≤ 0)) .greaterThan

def trueWords : List String := ["true", "yes", "on", "1", "t", "y"]

def falseWords : List String := ["false", "no", "off", "0", "f", "n"]

/-- A truth value, a word for one, or one of the numbers 1 and 0. A fraction is of the wrong kind
altogether, and so is a whole number that is too large. -/
def bool : Json → Checked Bool
  | .bool b => .ok b
  | .int n =>
    if n = 0 then .ok false
    else if n = 1 then .ok true
    else if -wordBound ≤ n && n < wordBound then .fault .boolParsing
    else .fault .boolType
  | .float x =>
    match wholeFloat x with
    | .ok n => if n = 0 then .ok false else if n = 1 then .ok true else .fault .boolParsing
    | .bad _ => .fault .boolType
  | .str t =>
    let lowered := Decimal.asciiLower t
    if trueWords.any fun w => w.toList == lowered then .ok true
    else if falseWords.any fun w => w.toList == lowered then .ok false
    else .fault .boolParsing
  | .halves _ => .fault .stringUnicode
  | _ => .fault .boolType

/-- A text. Half of a surrogate pair belongs in none. -/
def text : Json → Checked Text
  | .str t => .ok t
  | .halves _ => .fault .stringUnicode
  | _ => .fault .stringType

def texts : Json → Checked (List Text)
  | .arr items => Checked.items text 0 items
  | _ => .fault .listType

def version : Json → Checked ScriptVersion
  | .str t =>
    match ScriptVersion.ofName? t with
    | some v => .ok v
    | none => .fault .enumeration
  | _ => .fault .enumeration

def nullable {α : Type} (read : Json → Checked α) : Json → Checked (Option α)
  | .null => .ok none
  | v => some <$> read v

def field {α : Type} (fields : List (Text × Json)) (key : String) (default : α)
    (read : Json → Checked α) : Checked α :=
  match fields.find? fun f => f.1 == key.toList with
  | some (_, v) => (read v).within (.key key)
  | none => .ok default

def required {α : Type} (fields : List (Text × Json)) (key : String) (read : Json → Checked α) :
    Checked α :=
  match fields.find? fun f => f.1 == key.toList with
  | some (_, v) => (read v).within (.key key)
  | none => .bad [⟨[.key key], .missing⟩]

/-- A record: the fields of an object, or the given fault for anything else. -/
def record {α : Type} (kind : FaultKind) (read : List (Text × Json) → Checked α) : Json → Checked α
  | .obj fields => read fields
  | _ => .fault kind

end Read

/-- How the values of single fields are read. Which values stand for which is up to the library that
reads them. -/
structure Reading where
  natIn (low : Nat) (high : Option Nat) : Json → Checked Nat
  positive : Json → Checked Float
  bool : Json → Checked Bool
  text : Json → Checked Text
  texts : Json → Checked (List Text)
  version : Json → Checked ScriptVersion

namespace Reading

def standard : Reading :=
  { natIn := Read.natIn
    positive := Read.positive
    bool := Read.bool
    text := Read.text
    texts := Read.texts
    version := Read.version }

/-- What the readers promise: a number that is let through is within its bounds, where no number at
all is within any, and a text is read as itself. -/
structure Sound (r : Reading) : Prop where
  natIn_bounds {low : Nat} {high : Option Nat} {v : Json} {n : Nat}
    (h : r.natIn low high v = .ok n) :
    low ≤ n ∧ ∀ bound ∈ high, n ≤ bound
  positive_bound {v : Json} {x : Float} (h : r.positive v = .ok x) : ¬ x ≤ 0
  text_str (t : Text) : r.text (.str t) = .ok t

end Reading
end PineTools
