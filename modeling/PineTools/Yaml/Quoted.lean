import PineTools.Text.Quote
import PineTools.Text.Units
import PineTools.Yaml.Error
import PineTools.Yaml.Place

namespace PineTools.Yaml

def escapeChar? (c : Char) : Option Char :=
  match c with
  | '0' => some (Char.ofNat 0)
  | 'a' => some (Char.ofNat 7)
  | 'b' => some (Char.ofNat 8)
  | 't' | '\t' => some '\t'
  | 'n' => some '\n'
  | 'v' => some (Char.ofNat 11)
  | 'f' => some (Char.ofNat 12)
  | 'r' => some '\r'
  | 'e' => some (Char.ofNat 27)
  | ' ' | '"' | '\\' | '/' => some c
  | 'N' => some (Char.ofNat 0x85)
  | '_' => some (Char.ofNat 0xa0)
  | 'L' => some (Char.ofNat 0x2028)
  | 'P' => some (Char.ofNat 0x2029)
  | _ => none

/-- The number of hexadecimal digits after the letter of an escape. -/
def escapeDigits? (c : Char) : Option Nat :=
  match c with
  | 'x' => some 2
  | 'u' => some 4
  | 'U' => some 8
  | _ => none

def hexNumber (t : Text) : Nat := t.foldl (fun n c => 16 * n + (Text.hexValue? c).getD 0) 0

/-- The breaks of empty lines from here on, and the place where the next line that is not empty goes
on. No line may be a mark of a document. The fuel bounds the number of lines. -/
def emptyLines : Nat → Place → Except ReadError (Text × Place)
  | 0, _ => .error .malformed
  | fuel + 1, p =>
    if p.atDocumentMark then .error .malformed
    else
      let q := p.skipWhile Text.isBlank
      match q.peek with
      | some c =>
        if isBreak c then (emptyLines fuel q.next).map fun (breaks, after) =>
          (breakOf c :: breaks, after) else .ok ([], q)
      | none => .ok ([], q)

def fold (first : Char) (breaks : Text) : Text :=
  if breakOf first ≠ '\n' then breakOf first :: breaks else if breaks.isEmpty then [' '] else breaks

/-- Blanks inside quotes, and a break with the empty lines after it if one follows them. -/
def quotedSpaces (p : Place) : Except ReadError (Text × Place) :=
  let (blanks, q) := p.takeWhile Text.isBlank
  match q.peek with
  | none => .error .malformed
  | some c =>
    if isBreak c then (emptyLines (q.rest.length + 1) q.next).map fun (breaks, after) =>
      (fold c breaks, after)
    else .ok (blanks, q)

/-- An escape, after its backslash. A break is dropped together with the blanks that follow it. -/
def escape (p : Place) : Except ReadError (List Nat × Place) :=
  match p.peek with
  | none => .error .malformed
  | some c =>
    match escapeChar? c, escapeDigits? c with
    | some e, _ => .ok ([e.toNat], p.next)
    | none, some count =>
      let digits := p.next.rest.take count
      if digits.length < count || !digits.all fun d => (Text.hexValue? d).isSome then
        .error .malformed
      else if hexNumber digits > 0x10ffff then .error (.noCharacter (hexNumber digits))
      else .ok ([hexNumber digits], p.next.skip count)
    | none, none =>
      if isBreak c then
        (emptyLines (p.rest.length + 1) p.next).map fun (breaks, after) =>
          (breaks.map Char.toNat, after)
      else .error .malformed

/-- The code points of a quoted text up to its closing quote, and the place after that. The fuel
bounds the number of steps. -/
def quotedBody (quote : Quote) : Nat → Place → Except ReadError (List Nat × Place)
  | 0, _ => .error .malformed
  | fuel + 1, p =>
    match p.peek with
    | none => .error .malformed
    | some c =>
      if c = quote.char then
        if quote = .single && p.next.peek == some c then
          (quotedBody quote fuel (p.skip 2)).map fun (t, after) => (c.toNat :: t, after)
        else .ok ([], p.next)
      else if Text.isBlank c || isBreak c then do
        let (spaces, q) ← quotedSpaces p
        let (t, after) ← quotedBody quote fuel q
        return (spaces.map Char.toNat ++ t, after)
      else if quote = .double && c = '\\' then do
        let (codes, q) ← escape p.next
        let (t, after) ← quotedBody quote fuel q
        return (codes ++ t, after)
      else (quotedBody quote fuel p.next).map fun (t, after) => (c.toNat :: t, after)

/-- A quoted scalar, after its opening quote. Halves of a character that stand together are joined.
-/
def quotedScalar (quote : Quote) (p : Place) : Except ReadError (Text × Place) :=
  (quotedBody quote (p.rest.length + 1) p).map fun (codes, after) =>
    ((Text.joinUnits codes).map Text.charOfCode, after)

end PineTools.Yaml
