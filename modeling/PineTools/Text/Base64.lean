import PineTools.Text.Basic

namespace PineTools.Text

def base64Value? (c : Char) : Option Nat :=
  let n := c.toNat
  if 'A' ≤ c && c ≤ 'Z' then some (n - 65)
  else if 'a' ≤ c && c ≤ 'z' then some (n - 71)
  else if '0' ≤ c && c ≤ '9' then some (n + 4)
  else if c = '+' then some 62
  else if c = '/' then some 63
  else none

/-- Reads on at the given place in a group of four: `left` holds the bits that no byte has taken
yet, and `pads` counts the signs of padding just before. The signs that fill a group end the text; a
group that is not full is refused. -/
def base64Bytes? (place left pads : Nat) : Text → Option (List UInt8)
  | [] => if place = 0 then some [] else none
  | c :: rest =>
    if c = '=' then
      if 2 ≤ place && 4 ≤ place + pads + 1 then some []
      else base64Bytes? place left (if 2 ≤ place then pads + 1 else pads) rest
    else
      match base64Value? c with
      | none => base64Bytes? place left pads rest
      | some v =>
        match place with
        | 0 => base64Bytes? 1 v 0 rest
        | 1 => (base64Bytes? 2 (v % 16) 0 rest).map (UInt8.ofNat (left * 4 + v / 16) :: ·)
        | 2 => (base64Bytes? 3 (v % 4) 0 rest).map (UInt8.ofNat (left * 16 + v / 4) :: ·)
        | _ => (base64Bytes? 0 0 0 rest).map (UInt8.ofNat (left * 64 + v) :: ·)

def decodeBase64? (t : Text) : Option (List UInt8) := base64Bytes? 0 0 0 t

end PineTools.Text
