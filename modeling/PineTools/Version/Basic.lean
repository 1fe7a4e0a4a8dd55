import PineTools.Decimal.Numeral
import PineTools.Json.Value

namespace PineTools

/-- The supported versions of the script language, in order. -/
inductive ScriptVersion where
  | v4
  | v5
  | v6
  deriving DecidableEq, Repr, Inhabited

/-- Why a value names no supported version. -/
inductive VersionError where
  | unsupported (shown : Text)
  | numeral (error : Decimal.NumeralError)
  deriving DecidableEq, Repr, Inhabited

def VersionError.message : VersionError → String
  | .unsupported shown => "Unsupported PineScript version: " ++ String.ofList shown
  | .numeral e => e.message

namespace ScriptVersion

def all : List ScriptVersion := [v4, v5, v6]

def number : ScriptVersion → Nat
  | v4 => 4
  | v5 => 5
  | v6 => 6

def name : ScriptVersion → String
  | v4 => "v4"
  | v5 => "v5"
  | v6 => "v6"

def ofName? (t : Text) : Option ScriptVersion := all.find? fun v => v.name.toList == t

def ofNumber? (n : Int) : Option ScriptVersion := all.find? fun v => (v.number : Int) == n

/-- The version with the given number, or the complaint about it. -/
def ofNumber (n : Int) : Except VersionError ScriptVersion :=
  match ofNumber? n with
  | some v => .ok v
  | none => .error (.unsupported (Json.intText n))

/-- Drops one leading letter that marks a version. -/
def dropMark : Text → Text
  | 'v' :: rest => rest
  | 'V' :: rest => rest
  | t => t

/-- The version that a value names: a whole number, or a text such as `v5` or `5` with white space
around it. -/
def parse (value : Json) : Except VersionError ScriptVersion :=
  match value with
  | .bool _ => .error (.unsupported value.shown)
  | .int n => ofNumber n
  | _ =>
    let text :=
      match value with
      | .str t => t
      | other => other.shown
    let digits := dropMark (Text.strip text)
    if digits.isEmpty || !digits.all Text.isDigit then .error (.unsupported value.shown)
    else
      match Decimal.readDigits digits with
      | .ok n => ofNumber n
      | .error e => .error (.numeral e)

/-- The version of a script that says nothing else. -/
def standard : ScriptVersion := v5

end ScriptVersion
end PineTools
