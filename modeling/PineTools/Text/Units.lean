import PineTools.Text.Basic

namespace PineTools.Text

def isHalf (n : Nat) : Bool := 0xd800 ≤ n && n < 0xe000

/-- Joins pairs of halves into code points. Other units stay as they are. -/
def joinUnits : List Nat → List Nat
  | [] => []
  | [n] => [n]
  | high :: low :: rest =>
    if 0xd800 ≤ high ∧ high < 0xdc00 ∧ 0xdc00 ≤ low ∧ low < 0xe000 then
      (0x10000 + (high - 0xd800) * 0x400 + (low - 0xdc00)) :: joinUnits rest
    else high :: joinUnits (low :: rest)

/-- The character with the given code. A half is replaced. -/
def charOfCode (n : Nat) : Char := if isHalf n then '\ufffd' else Char.ofNat n

end PineTools.Text
