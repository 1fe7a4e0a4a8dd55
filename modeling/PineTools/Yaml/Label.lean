import PineTools.Text.Utf8
import PineTools.Yaml.Place
import PineTools.Yaml.Token

namespace PineTools.Yaml

def endsAnchor (c : Option Char) : Bool :=
  isGap c || c.any fun d => "?:,]\x7d%@".toList.contains d || d.toNat == 0x60

def anchorName (p : Place) : Except ReadError (Text × Place) :=
  let (name, q) := p.takeWhile isNameChar
  if name.isEmpty || !endsAnchor q.peek then .error .malformed else .ok (name, q)

def isAddressChar (c : Char) : Bool :=
  Text.isLatin c || Text.isAsciiDigit c || "-;/?:@&=+$,_.!~*()[]".toList.contains c || c.toNat == 39

/-- The bytes of the escapes from here on. The fuel bounds their number. -/
def addressBytes : Nat → Place → Except ReadError (List UInt8 × Place)
  | 0, _ => .error .malformed
  | fuel + 1, p =>
    match p.rest with
    | '%' :: a :: b :: _ =>
      match Text.hexValue? a, Text.hexValue? b with
      | some x, some y =>
        (addressBytes fuel (p.skip 3)).map fun (bytes, after) =>
          (UInt8.ofNat (16 * x + y) :: bytes, after)
      | _, _ => .error .malformed
    | '%' :: _ => .error .malformed
    | _ => .ok ([], p)

/-- The address in a tag. Escapes stand for the bytes of characters. The fuel bounds the number of
its pieces. -/
def addressFrom : Nat → Place → Except ReadError (Text × Place)
  | 0, _ => .error .malformed
  | fuel + 1, p =>
    match p.peek with
    | some c =>
      if c = '%' then do
        let (bytes, q) ← addressBytes (p.rest.length + 1) p
        match Text.decodeUtf8 ⟨bytes.toArray⟩ with
        | .error _ => .error .malformed
        | .ok piece => (addressFrom fuel q).map fun (t, after) => (piece ++ t, after)
      else if isAddressChar c then (addressFrom fuel p.next).map fun (t, after) => (c :: t, after)
      else .ok ([], p)
    | none => .ok ([], p)

def address (p : Place) : Except ReadError (Text × Place) := do
  let (t, after) ← addressFrom (p.rest.length + 1) p
  if after.index = p.index then .error .malformed else .ok (t, after)

/-- The handle of a tag: an exclamation mark, or a name between two of them. -/
def tagHandle (p : Place) : Except ReadError (Text × Place) :=
  if p.peek != some '!' then .error .malformed
  else if p.next.peek == some ' ' then .ok (['!'], p.next)
  else
    let (name, q) := p.next.takeWhile isNameChar
    if q.peek == some '!' then .ok ('!' :: (name ++ ['!']), q.next) else .error .malformed

/-- A tag. It is written out between angle brackets, made of a handle and an address, or left open.
-/
def tag (p : Place) : Except ReadError (Token × Place) := do
  let (token, after) ←
    if p.peekAt 1 == some '<' then do
      let (t, q) ← address (p.skip 2)
      if q.peek == some '>' then .ok (Token.tag none t, q.next) else .error .malformed
    else if isGap (p.peekAt 1) then .ok (Token.tag none ['!'], p.next)
    else
      let word := p.next.rest.takeWhile fun c => !endsWord (some c)
      let (handle, q) ← if word.contains '!' then tagHandle p else .ok (['!'], p.next)
      let (t, q) ← address q
      .ok (Token.tag (some handle) t, q)
  if endsWord after.peek then .ok (token, after) else .error .malformed

def versionNumber (p : Place) : Except ReadError (Int × Place) :=
  let (digits, q) := p.takeWhile Text.isAsciiDigit
  if digits.isEmpty then .error .malformed
  else
    match Decimal.readInt 10 digits with
    | .ok n => .ok (n, q)
    | .error e => .error (.numeral e)

def directiveBody (name : Text) (p : Place) : Except ReadError (Directive × Place) :=
  if name == "YAML".toList then do
    let (major, q) ← versionNumber p.skipBlanks
    if q.peek != some '.' then .error .malformed
    else
      let (_, q) ← versionNumber q.next
      if endsWord q.peek then .ok (.version major, q) else .error .malformed
  else if name == "TAG".toList then do
    let (handle, q) ← tagHandle p.skipBlanks
    if q.peek != some ' ' then .error .malformed
    else
      let (stem, q) ← address q.skipBlanks
      if endsWord q.peek then .ok (.handle handle stem, q) else .error .malformed
  else .ok (.other, p.skipWhile fun c => !isBreak c)

/-- A directive, after its sign, with the rest of its line. -/
def directive (p : Place) : Except ReadError (Directive × Place) := do
  let (name, q) := p.takeWhile isNameChar
  if name.isEmpty || !endsWord q.peek then .error .malformed
  else
    let (d, q) ← directiveBody name q
    let lineEnd := q.skipBlanks.skipComment
    if endsLine lineEnd.peek then .ok (d, lineEnd.next) else .error .malformed

end PineTools.Yaml
