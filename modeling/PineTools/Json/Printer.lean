import PineTools.Json.Value

namespace PineTools.Json

/-- How values are written. -/
structure Style where
  indent : Option Nat
  escapeAll : Bool

/-- Four hexadecimal digits of a 16-bit unit. -/
def unitEscape (n : Nat) : Text := '\\' :: 'u' :: Text.hexPadded 4 n

/-- The escape of a code point, as one unit or as a pair of surrogates. -/
def codeEscape (n : Nat) : Text :=
  if n < 0x10000 then unitEscape n
  else unitEscape (0xd800 + (n - 0x10000) / 0x400) ++ unitEscape (0xdc00 + (n - 0x10000) % 0x400)

def charText (style : Style) (c : Char) : Text :=
  if c == '"' then ['\\', '"']
  else if c == '\\' then ['\\', '\\']
  else if c == '\n' then ['\\', 'n']
  else if c == '\r' then ['\\', 'r']
  else if c == '\t' then ['\\', 't']
  else if c.toNat = 8 then ['\\', 'b']
  else if c.toNat = 12 then ['\\', 'f']
  else if c.toNat < 0x20 || (style.escapeAll && c.toNat ≥ 0x7f) then codeEscape c.toNat
  else [c]

def stringText (style : Style) (t : Text) : Text := '"' :: (t.flatMap (charText style) ++ ['"'])

/-- Codes in double quotes. Half of a surrogate pair is always escaped. -/
def codesText (style : Style) (codes : List Nat) : Text :=
  '"' :: (codes.flatMap (fun n => if Text.isHalf n then unitEscape n
    else charText style (Char.ofNat n)) ++ ['"'])

/-- The words for values that are no finite numbers. -/
def floatWords : Decimal.SpecialWords := ⟨"NaN", "Infinity"⟩

/-- The line break before a nested value at the given depth. -/
def lineBreak (style : Style) (depth : Nat) : Text :=
  match style.indent with
  | none => []
  | some width => '\n' :: List.replicate (depth * width) ' '

/-- What stands between two nested values. -/
def itemSeparator (style : Style) (depth : Nat) : Text :=
  match style.indent with
  | none => [',', ' ']
  | some _ => ',' :: lineBreak style depth

mutual

/-- Writes a value that stands at the given depth. -/
def write (style : Style) (depth : Nat) : Json → Text
  | null => "null".toList
  | bool b => (if b then "true" else "false").toList
  | int n => intText n
  | float x => Decimal.text floatWords x
  | str t => stringText style t
  | halves codes => codesText style codes
  | arr [] => "[]".toList
  | arr (v :: rest) =>
    '[' :: (lineBreak style (depth + 1) ++ write style (depth + 1) v ++
      writeItems style (depth + 1) rest
      ++ lineBreak style depth ++ [']'])
  | obj [] => ['\x7b', '\x7d']
  | obj ((k, v) :: rest) =>
    '\x7b' :: (lineBreak style (depth + 1) ++ stringText style k ++ ':' :: ' ' ::
      (write style (depth + 1) v
      ++ writeFields style (depth + 1) rest ++ lineBreak style depth ++ ['\x7d']))

def writeItems (style : Style) (depth : Nat) : List Json → Text
  | [] => []
  | v :: rest => itemSeparator style depth ++ write style depth v ++ writeItems style depth rest

def writeFields (style : Style) (depth : Nat) : List (Text × Json) → Text
  | [] => []
  | (k, v) :: rest =>
    itemSeparator style depth ++ stringText style k ++ ':' :: ' ' :: (write style depth v
      ++ writeFields style depth rest)

end

/-- One line, with every character outside printable ASCII escaped. -/
def Style.line : Style := ⟨none, true⟩

def Style.readable : Style := ⟨some 2, false⟩

/-- Indented by two blanks, with every character outside printable ASCII escaped. -/
def Style.portable : Style := ⟨some 2, true⟩

def render (style : Style) (v : Json) : Text := write style 0 v

end PineTools.Json
