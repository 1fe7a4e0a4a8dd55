import PineTools.Diff.Blocks
import PineTools.Text.Basic

namespace PineTools.Diff

/-- A stretch of both sequences that is either equal or changed. -/
structure Stretch where
  equal : Bool
  leftStart : Nat
  leftStop : Nat
  rightStart : Nat
  rightStop : Nat
  deriving DecidableEq, Repr, Inhabited

/-- The stretches from the given offsets on, between and over the common blocks, up to the ends of
both sequences. -/
def stretchesFrom (i j : Nat) (leftEnd rightEnd : Nat) : List Block → List Stretch
  | [] => if i < leftEnd ∨ j < rightEnd then [⟨false, i, leftEnd, j, rightEnd⟩] else []
  | b :: rest =>
    let changed := if i < b.left ∨ j < b.right then [⟨false, i, b.left, j, b.right⟩] else []
    changed ++ ⟨true, b.left, b.left + b.size, b.right, b.right + b.size⟩
      :: stretchesFrom (b.left + b.size) (b.right + b.size) leftEnd rightEnd rest

def contextLines : Nat := 3

def Stretch.lastLines (s : Stretch) (n : Nat) : Stretch :=
  { s with
    leftStart := max s.leftStart (s.leftStop - n)
    rightStart := max s.rightStart (s.rightStop - n) }

def Stretch.firstLines (s : Stretch) (n : Nat) : Stretch :=
  { s with
    leftStop := min s.leftStop (s.leftStart + n)
    rightStop := min s.rightStop (s.rightStart + n) }

def trimFront : List Stretch → List Stretch
  | [] => []
  | s :: rest => if s.equal then s.lastLines contextLines :: rest else s :: rest

/-- Cuts an equal stretch at the end down to context. -/
def trimBack (stretches : List Stretch) : List Stretch :=
  match stretches.reverse with
  | [] => []
  | s :: rest => (if s.equal then s.firstLines contextLines :: rest else s :: rest).reverse

/-- Groups stretches into hunks: an equal stretch longer than twice the context divides two of them.
`hunk` holds the stretches of the current hunk, the last first. -/
def hunksFrom (hunk : List Stretch) : List Stretch → List (List Stretch)
  | [] => [hunk.reverse]
  | s :: rest =>
    if s.equal && s.leftStop - s.leftStart > 2 * contextLines then
      (s.firstLines contextLines :: hunk).reverse :: hunksFrom [s.lastLines contextLines] rest
    else hunksFrom (s :: hunk) rest

def isHunk (hunk : List Stretch) : Bool := hunk.any fun s => !s.equal

def hunks (xs ys : List Text) : List (List Stretch) :=
  let stretches := stretchesFrom 0 0 xs.length ys.length (commonBlocks xs ys)
  (hunksFrom [] (trimBack (trimFront stretches))).filter isHunk

/-- A range of lines as a hunk header shows it. -/
def rangeText (start stop : Nat) : String :=
  let length := stop - start
  if length = 1 then s!"{start + 1}" else if length = 0 then s!"{start},0"
    else s!"{start + 1},{length}"

def hunkHeader (hunk : List Stretch) : Text :=
  match hunk.head?, hunk.getLast? with
  | some first, some last =>
    let left := rangeText first.leftStart last.leftStop
    let right := rangeText first.rightStart last.rightStop
    s!"@@ -{left} +{right} @@\n".toList
  | _, _ => []

def stretchLines (xs ys : List Text) (s : Stretch) : List Text :=
  let left := Text.slice xs s.leftStart s.leftStop
  let right := Text.slice ys s.rightStart s.rightStop
  if s.equal then left.map (' ' :: ·) else left.map ('-' :: ·) ++ right.map ('+' :: ·)

def hunkLines (xs ys : List Text) (hunk : List Stretch) : List Text :=
  hunkHeader hunk :: hunk.flatMap (stretchLines xs ys)

/-- The difference listing of two lists of lines, which keep their line breaks. -/
def unified (leftName rightName : String) (xs ys : List Text) : List Text :=
  match hunks xs ys with
  | [] => []
  | hs => s!"--- {leftName}\n".toList :: s!"+++ {rightName}\n".toList :: hs.flatMap
      (hunkLines xs ys)

end PineTools.Diff
