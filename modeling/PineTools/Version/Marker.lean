import PineTools.Version.Basic
import PineTools.Pattern.Basic

namespace PineTools

open Reader

/-- The comment up to the equals sign of a marker. -/
def markerHead {α : Type} [Glyph α] : Reader α Unit := do
  discard blanks
  discard <| word "//"
  discard blanks
  discard <| word "@version"
  discard blanks
  discard <| word "="

/-- A marker up to the last digit of its number. The digits are returned. -/
def marker : Pattern Char Text :=
  Pattern.atLineStart do
    markerHead
    discard blanks
    run1 Text.isDecimal

def ScriptVersion.marker (v : ScriptVersion) : Text := s!"//@version={v.number}".toList

/-- A marker in a script: the index of its line, counted from 0, and its number. -/
structure FoundMarker where
  lineIndex : Nat
  number : Nat
  deriving DecidableEq, Repr, Inhabited

/-- The first marker of a script. Reading fails when its number has too many digits. -/
def findMarker (script : Text) : Except Decimal.NumeralError (Option FoundMarker) :=
  match marker.find? script with
  | none => .ok none
  | some m =>
    match Decimal.readDigits m.value with
    | .ok n => .ok (some ⟨(script.take m.start).count '\n', n⟩)
    | .error e => .error e

def FoundMarker.version? (m : FoundMarker) :
    Option ScriptVersion := ScriptVersion.ofNumber? m.number

/-- The version of a script: that of its marker, or the given one when there is none or it is not
supported. -/
def detectVersion (script : Text) (fallback : ScriptVersion) :
    Except Decimal.NumeralError ScriptVersion :=
  (findMarker script).map fun found => (found.bind FoundMarker.version?).getD fallback

end PineTools
