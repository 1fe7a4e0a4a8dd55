import PineTools.Text.Basic

/-! Decimal texts of binary floating-point numbers. A number is taken apart into a whole multiple of
a power of two, and all digits are chosen by exact arithmetic on naturals. -/
namespace PineTools.Decimal

/-- A binary floating-point number taken apart. A finite one is `m * 2 ^ q`. The flag `lowest` marks
the first mantissa of its binade, below which the next number is only half as far away. -/
inductive Parts where
  | nan
  | infinite (negative : Bool)
  | finite (negative : Bool) (m : Nat) (q : Int) (lowest : Bool)

def parts (x : Float) : Parts :=
  let bits := x.toBits.toNat
  let negative := bits / Nat.pow 2 63 == 1
  let exponent : Nat := bits / Nat.pow 2 52 % 2048
  let fraction := bits % Nat.pow 2 52
  if exponent = 2047 then if fraction = 0 then .infinite negative else .nan
  else if exponent = 0 then .finite negative fraction (-1074) false
  else .finite negative (fraction + Nat.pow 2 52) ((exponent : Int) - 1075)
    (fraction == 0 && exponent > 1)

def digitCount (n : Nat) : Nat := (Nat.toDigits 10 n).length

/-- The exponent of the leading decimal digit of the positive fraction `num / den`. -/
def leadingExponent (num den : Nat) : Int :=
  if den ≤ num then (digitCount (num / den) : Int) - 1
  else
    let d := digitCount (den / num)
    if den ≤ num * Nat.pow 10 (d - 1) then -((d : Int) - 1) else -(d : Int)

def powerFraction (base : Nat) (e : Int) : Nat × Nat := if e < 0 then (1, Nat.pow base e.natAbs)
    else (Nat.pow base e.natAbs, 1)

/-- The multiple of `10 ^ j` that is nearest to `m * 2 ^ q` among those that no other number is
nearer to, for the first `j` of the given list that has one. Of two equally near ones the even one
is taken. -/
def nearestOnGrid? (m : Nat) (q : Int) (lowest : Bool) (j : Int) : Option Nat :=
  let (up, down) := powerFraction 2 (q - 2)
  let (tenUp, tenDown) := powerFraction 10 j
  let s := up * tenDown
  let t := down * tenUp
  let low := (4 * m - (if lowest then 1 else 2)) * s
  let high := (4 * m + 2) * s
  let value := 4 * m * s
  let inside := fun c : Nat =>
    if m % 2 = 0 then low ≤ c * t && c * t ≤ high else low < c * t && c * t < high
  let d := value / t
  match inside d && d > 0, inside (d + 1) with
  | true, true =>
    let below := value - d * t
    let above := (d + 1) * t - value
    if below < above then some d
    else if above < below then some (d + 1)
    else if d % 2 = 0 then some d
    else some (d + 1)
  | true, false => some d
  | false, true => some (d + 1)
  | false, false => none

/-- The fewest decimal digits that read back as `m * 2 ^ q`, for a positive `m`: a whole number and
the power of ten it is multiplied with. -/
def shortest (m : Nat) (q : Int) (lowest : Bool) : Nat × Int :=
  let (up, down) := powerFraction 2 q
  let k := leadingExponent (m * up) down
  let grids := (List.range 17).map fun n : Nat => k - (n : Int)
  match grids.findSome? fun j => (nearestOnGrid? m q lowest j).map fun c => (c, j) with
  | some found => found
  | none => (m, q)

/-- Digits without zeros at the end. -/
def significant (c : Nat) : Text := Text.trimRight (· == '0') (Nat.toDigits 10 c)

/-- How natural numbers of seconds and other quantities are laid out: positional from `10 ^ -4` up
to below `10 ^ 16`, always with a point, and otherwise with a signed exponent of two digits or more.
-/
def layout (c : Nat) (j : Int) : Text :=
  let digits := significant c
  let count := digits.length
  let e : Int := j + digitCount c - 1
  if -4 ≤ e ∧ e < 16 then
    if e < 0 then '0' :: '.' :: (List.replicate (e.natAbs - 1) '0' ++ digits)
    else
      let whole := e.natAbs + 1
      if count ≤ whole then digits ++ List.replicate (whole - count) '0' ++ ['.', '0']
      else digits.take whole ++ '.' :: digits.drop whole
  else
    let mantissa :=
      match digits with
      | [] => []
      | [d] => [d]
      | d :: ds => d :: '.' :: ds
    let exponent := Nat.toDigits 10 e.natAbs
    let padded := if exponent.length < 2 then '0' :: exponent else exponent
    mantissa ++ 'e' :: (if e < 0 then '-' else '+') :: padded

/-- The words for the values that are no finite numbers. -/
structure SpecialWords where
  nan : String
  infinite : String

/-- The shortest text of a number that reads back as the same number. -/
def text (words : SpecialWords) (x : Float) : Text :=
  match parts x with
  | .nan => words.nan.toList
  | .infinite negative => (if negative then ['-'] else []) ++ words.infinite.toList
  | .finite negative m q lowest =>
    let body :=
      if m = 0 then "0.0".toList
      else
        let (c, j) := shortest m q lowest
        layout c j
    (if negative then ['-'] else []) ++ body

/-- The words used in messages and settings listings. -/
def plainWords : SpecialWords := ⟨"nan", "inf"⟩

/-- The quotient rounded to the nearest whole number, a half to the even one. -/
def roundDiv (num den : Nat) : Nat :=
  let d := num / den
  let r := num % den
  if 2 * r < den then d else if den < 2 * r then d + 1 else if d % 2 = 0 then d else d + 1

/-- A number with one decimal place. -/
def tenths (x : Float) : Text :=
  match parts x with
  | .nan => plainWords.nan.toList
  | .infinite negative => (if negative then ['-'] else []) ++ plainWords.infinite.toList
  | .finite negative m q _ =>
    let (up, down) := powerFraction 2 q
    let n := roundDiv (10 * m * up) down
    (if negative then ['-'] else []) ++ Nat.toDigits 10 (n / 10) ++ '.' :: Nat.toDigits 10 (n % 10)

/-- The number nearest to `m * 10 ^ e`. Exponents beyond the range of numbers give zero or infinity.
-/
def nearest (negative : Bool) (m : Nat) (e : Int) : Float :=
  let magnitude : Float :=
    if m = 0 then 0
    else
      let top : Int := digitCount m + e
      if top > 400 then Float.ofBits 0x7ff0000000000000
      else if top < -400 then 0
      else Float.ofScientific m (e < 0) e.natAbs
  if negative then -magnitude else magnitude

def ofInt (n : Int) : Float := nearest (n < 0) n.natAbs 0

/-- The whole number that a finite number is, if it has no fraction. -/
def toInt? (x : Float) : Option Int :=
  match parts x with
  | .nan | .infinite _ => none
  | .finite negative m q _ =>
    let (up, down) := powerFraction 2 q
    if m * up % down = 0 then
      let n : Int := (m * up / down : Nat)
      some (if negative then -n else n)
    else none

end PineTools.Decimal
