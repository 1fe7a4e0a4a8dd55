import PineTools.Text.Quoted

namespace PineTools

/-- Why bytes are no text: no character starts with the first of them, the next byte does not
continue them, or they end too early. -/
inductive Utf8Reason where
  | start
  | continuation
  | cut
  deriving DecidableEq, Repr, Inhabited

/-- The first bytes of a sequence that begin no character, and where they stand. -/
structure Utf8Fault where
  position : Nat
  bytes : List UInt8
  reason : Utf8Reason
  deriving DecidableEq, Repr, Inhabited

def Utf8Reason.message : Utf8Reason → String
  | .start => "invalid start byte"
  | .continuation => "invalid continuation byte"
  | .cut => "unexpected end of data"

def Utf8Fault.message (f : Utf8Fault) : String :=
  let place :=
    match f.bytes with
    | [b] => s!"byte 0x{String.ofList (Text.hexPadded 2 b.toNat)} in position {f.position}"
    | bytes => s!"bytes in position {f.position}-{f.position + bytes.length - 1}"
  s!"'utf-8' codec can't decode {place}: {f.reason.message}"

namespace Text

/-- The number of bytes of the characters that start with a byte, zero if there are none. -/
def sequenceLength (b : UInt8) : Nat :=
  if b < 0x80 then 1 else if b < 0xC2 then 0 else if b < 0xE0 then 2 else if b < 0xF0 then 3
    else if b < 0xF5 then 4 else 0

def isContinuation (b : UInt8) : Bool := 0x80 ≤ b && b < 0xC0

/-- A second byte that fits the first: it makes no longer sequence than needed, no surrogate, and no
number past the last character. -/
def fitsSecond (first second : UInt8) : Bool :=
  isContinuation second && !(first == 0xE0 && second < 0xA0) && !(first == 0xED && second ≥ 0xA0)
    && !(first == 0xF0 && second < 0x90) && !(first == 0xF4 && second ≥ 0x90)

/-- How many of the bytes after the first belong to a character of the given length. -/
def fittingBytes (length : Nat) (first : UInt8) : List UInt8 → Nat
  | [] => 0
  | second :: rest =>
    if length ≥ 2 && fitsSecond first second then
      1 + ((rest.take (length - 2)).takeWhile isContinuation).length else 0

/-- What stands at the front of some bytes: a character, or bytes that begin none. -/
inductive Utf8Front where
  | character (size : Nat)
  | fault (size : Nat) (reason : Utf8Reason)
  deriving DecidableEq, Repr, Inhabited

def utf8Front (first : UInt8) (rest : List UInt8) : Utf8Front :=
  let length := sequenceLength first
  let fitting := fittingBytes length first rest
  if length = 0 then .fault 1 .start
  else if fitting + 1 = length then .character length
  else if fitting = rest.length then .fault (fitting + 1) .cut
  else .fault (fitting + 1) .continuation

/-- The first fault of some bytes, the front of which is skipped. Bytes without one are taken to end
too early. -/
def utf8FaultFrom (position skipped : Nat) : List UInt8 → Utf8Fault
  | [] => ⟨position, [], .cut⟩
  | b :: rest =>
    if skipped > 0 then utf8FaultFrom (position + 1) (skipped - 1) rest
    else
      match utf8Front b rest with
      | .character size => utf8FaultFrom (position + 1) (size - 1) rest
      | .fault size reason => ⟨position, (b :: rest).take size, reason⟩

def decodeUtf8 (data : ByteArray) : Except Utf8Fault Text :=
  match String.fromUTF8? data with
  | some s => .ok s.toList
  | none => .error (utf8FaultFrom 0 0 data.toList)

def encodeUtf8 (t : Text) : ByteArray := (String.ofList t).toUTF8

/-- The number that the bytes of a character stand for. -/
def codePoint (length : Nat) : List UInt8 → Nat
  | [] => 0
  | first :: rest =>
    let lead := if length = 1 then first.toNat else first.toNat % Nat.pow 2 (7 - length)
    rest.foldl (fun n b => 64 * n + b.toNat % 64) lead

/-- The text of some bytes, the front of which is skipped, with one replacement character for each
run of bytes that begin no character. -/
def decodeLenientFrom (skipped : Nat) : List UInt8 → Text
  | [] => []
  | b :: rest =>
    if skipped > 0 then decodeLenientFrom (skipped - 1) rest
    else
      match utf8Front b rest with
      | .character size => Char.ofNat (codePoint size ((b :: rest).take size)) :: decodeLenientFrom
        (size - 1) rest
      | .fault size _ => '\ufffd' :: decodeLenientFrom (size - 1) rest

def decodeLenient (bytes : List UInt8) : Text := decodeLenientFrom 0 bytes

end Text
end PineTools
