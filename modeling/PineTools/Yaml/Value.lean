import PineTools.Calendar.Moment
import PineTools.Json.Value

namespace PineTools

/-- The two kinds of collection that may contain themselves. -/
inductive Yaml.Shape where
  | list
  | mapping
  deriving DecidableEq, Repr, Inhabited

/-- A value of a document. A pair list is a list of which each item is a pair; `again` stands for a
collection of so many parts that the value lies in. -/
inductive Yaml where
  | null
  | bool (b : Bool)
  | int (n : Int)
  | float (x : Float)
  | str (t : Text)
  | bytes (data : List UInt8)
  | date (d : Calendar.Date)
  | moment (m : Calendar.Moment)
  | list (items : List Yaml)
  | pairList (pairs : List (Yaml × Yaml))
  | set (members : List Yaml)
  | mapping (pairs : List (Yaml × Yaml))
  | again (shape : Yaml.Shape) (size : Nat)
  deriving Inhabited

namespace Yaml

/-- The whole number that a value is worth, if it is a truth value or a number without a fraction.
-/
def whole? : Yaml → Option Int
  | bool b => some (if b then 1 else 0)
  | int n => some n
  | float x => Decimal.toInt? x
  | _ => none

/-- Two scalars are the same key. Numbers and truth values compare by what they are worth, and no
number is the same as itself. -/
def sameKey : Yaml → Yaml → Bool
  | null, null => true
  | str a, str b => a == b
  | bytes a, bytes b => a == b
  | date a, date b => a == b
  | moment a, moment b => a.same b
  | float a, float b => a == b || (a.isNaN && b.isNaN)
  | a, b => a.whole?.isSome && a.whole? == b.whole?

def isKey : Yaml → Bool
  | list _ | pairList _ | set _ | mapping _ | again _ _ => false
  | _ => true

/-- Sets the value of a key: the last one wins and the first position stays. -/
def setKey {ν : Type} (key : Yaml) (value : ν) : List (Yaml × ν) → List (Yaml × ν)
  | [] => [(key, value)]
  | (k, v) :: rest => if sameKey k key then (k, value) :: rest else (k, v) :: setKey key value rest

def mergeKeys {ν : Type} (pairs : List (Yaml × ν)) : List (Yaml × ν) :=
  pairs.foldl (fun merged p => setKey p.1 p.2 merged) []

/-- Values that count as nothing: null, false, zero, and everything empty. -/
def isNothing : Yaml → Bool
  | null => true
  | bool b => !b
  | int n => n == 0
  | float x => x == 0
  | str t => t.isEmpty
  | bytes data => data.isEmpty
  | date _ | moment _ => false
  | list items => items.isEmpty
  | pairList pairs => pairs.isEmpty
  | set members => members.isEmpty
  | mapping pairs => pairs.isEmpty
  | again _ size => size == 0

def shownByte (quote : Char) (b : UInt8) : Text :=
  let c := Char.ofNat b.toNat
  if b < 0x80 then Text.quotedChar quote c else '\\' :: 'x' :: Text.hexPadded 2 b.toNat

def shownBytes (data : List UInt8) : Text :=
  let q := Text.quoteFor (data.map fun b => Char.ofNat b.toNat)
  'b' :: q :: (data.flatMap (shownByte q) ++ [q])

mutual

/-- A value as messages show it. -/
def shown : Yaml → Text
  | null => "None".toList
  | bool b => (if b then "True" else "False").toList
  | int n => Json.intText n
  | float x => Decimal.text Decimal.plainWords x
  | str t => Text.quoted t
  | bytes data => shownBytes data
  | date d => d.shown
  | moment m => m.shown
  | list items => '[' :: (shownItems items ++ [']'])
  | pairList pairs => '[' :: (shownTuples pairs ++ [']'])
  | set [] => "set()".toList
  | set (m :: members) => '\x7b' :: (shownItems (m :: members) ++ ['\x7d'])
  | mapping pairs => '\x7b' :: (shownPairs pairs ++ ['\x7d'])
  | again .list _ => "[...]".toList
  | again .mapping _ => "\x7b...\x7d".toList

def shownItems : List Yaml → Text
  | [] => []
  | [v] => shown v
  | v :: rest => shown v ++ ',' :: ' ' :: shownItems rest

def shownTuples : List (Yaml × Yaml) → Text
  | [] => []
  | [(k, v)] => '(' :: (shown k ++ ',' :: ' ' :: (shown v ++ [')']))
  | (k, v) :: rest =>
    '(' :: (shown k ++ ',' :: ' ' :: (shown v ++ ')' :: ',' :: ' ' :: shownTuples rest))

def shownPairs : List (Yaml × Yaml) → Text
  | [] => []
  | [(k, v)] => shown k ++ ':' :: ' ' :: shown v
  | (k, v) :: rest => shown k ++ ':' :: ' ' :: (shown v ++ ',' :: ' ' :: shownPairs rest)

end

mutual

/-- Some whole number in the value has more digits than are shown. -/
def hasLongInt : Yaml → Bool
  | int n => decide (Decimal.digitCount n.natAbs > Decimal.digitLimit)
  | list items => anyLongInt items
  | set members => anyLongInt members
  | pairList pairs => anyLongIntPair pairs
  | mapping pairs => anyLongIntPair pairs
  | _ => false

def anyLongInt : List Yaml → Bool
  | [] => false
  | v :: rest => hasLongInt v || anyLongInt rest

def anyLongIntPair : List (Yaml × Yaml) → Bool
  | [] => false
  | (k, v) :: rest => hasLongInt k || hasLongInt v || anyLongIntPair rest

end

def text (v : Yaml) : Except Decimal.NumeralError Text :=
  if v.hasLongInt then .error .tooLongToShow
  else
    match v with
    | str t => .ok t
    | date d => .ok d.text
    | moment m => .ok m.text
    | _ => .ok v.shown

def fieldName : Yaml → Text
  | null => "null".toList
  | bool b => (if b then "true" else "false").toList
  | str t => t
  | v => v.shown

mutual

/-- The value in the other data format. Keys become texts; what that format has no values for is
shown. -/
def toJson : Yaml → Json
  | null => .null
  | bool b => .bool b
  | int n => .int n
  | float x => .float x
  | str t => .str t
  | list items => .arr (toJsonItems items)
  | pairList pairs => .arr (toJsonTuples pairs)
  | set members => .arr (toJsonItems members)
  | mapping pairs => .obj (toJsonFields pairs)
  | v => .str v.shown

def toJsonItems : List Yaml → List Json
  | [] => []
  | v :: rest => toJson v :: toJsonItems rest

def toJsonTuples : List (Yaml × Yaml) → List Json
  | [] => []
  | (k, v) :: rest => .arr [toJson k, toJson v] :: toJsonTuples rest

def toJsonFields : List (Yaml × Yaml) → List (Text × Json)
  | [] => []
  | (k, v) :: rest => (fieldName k, toJson v) :: toJsonFields rest

end

end Yaml
end PineTools
