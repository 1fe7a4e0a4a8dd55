import PineTools.Decimal.Float64
import PineTools.Text.Quoted
import PineTools.Text.Units

/-! Values of the JSON data format. Whole numbers and fractions are different values, and an object
keeps its fields in the order in which they were first written. A string may hold half of a
surrogate pair, which no text can. -/
namespace PineTools

/-- A JSON value. A string that is no text is a list of code points and halves of surrogate pairs.
-/
inductive Json where
  | null
  | bool (b : Bool)
  | int (n : Int)
  | float (x : Float)
  | str (t : Text)
  | halves (codes : List Nat)
  | arr (items : List Json)
  | obj (fields : List (Text × Json))
  deriving Inhabited

namespace Json

/-- Sets a field: the last value wins and the first position stays. -/
def setField (key : Text) (value : Json) : List (Text × Json) → List (Text × Json)
  | [] => [(key, value)]
  | (k, v) :: rest => if k = key then (k, value) :: rest else (k, v) :: setField key value rest

def field? (key : String) : Json → Option Json
  | obj fields => (fields.find? fun f => f.1 == key.toList).map Prod.snd
  | _ => none

/-- A whole number in decimal digits. -/
def intText (n : Int) : Text := (if n < 0 then ['-'] else []) ++ Nat.toDigits 10 n.natAbs

def ofString (s : String) : Json := str s.toList

def ofNat (n : Nat) : Json := int n

/-- A code inside the given quotes. Half of a pair cannot be printed. -/
def shownCode (quote : Char) (n : Nat) : Text :=
  if Text.isHalf n then '\\' :: 'u' :: Text.hexPadded 4 n else Text.quotedChar quote (Char.ofNat n)

def shownCodes (codes : List Nat) : Text :=
  let q := Text.quoteFor (codes.map Text.charOfCode)
  q :: (codes.flatMap (shownCode q) ++ [q])

mutual

/-- A value as messages show it. -/
def shown : Json → Text
  | null => "None".toList
  | bool b => (if b then "True" else "False").toList
  | int n => intText n
  | float x => Decimal.text Decimal.plainWords x
  | str t => Text.quoted t
  | halves codes => shownCodes codes
  | arr items => '[' :: (shownItems items ++ [']'])
  | obj fields => '\x7b' :: (shownFields fields ++ ['\x7d'])

def shownItems : List Json → Text
  | [] => []
  | [v] => shown v
  | v :: rest => shown v ++ ',' :: ' ' :: shownItems rest

def shownFields : List (Text × Json) → Text
  | [] => []
  | [(k, v)] => Text.quoted k ++ ':' :: ' ' :: shown v
  | (k, v) :: rest => Text.quoted k ++ ':' :: ' ' :: (shown v ++ ',' :: ' ' :: shownFields rest)

end

end Json
end PineTools
