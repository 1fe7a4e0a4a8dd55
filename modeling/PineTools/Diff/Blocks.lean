/-! Common blocks of two sequences. The longest run that both share is taken first, the earliest of
several, and the parts before and after it are treated in the same way. In a long second sequence an
item that makes up more than one per cent of it starts no run, though a run may extend over it. -/
namespace PineTools.Diff

variable {α : Type} [BEq α]

/-- A run of equal items: its offsets in both sequences and its length. -/
structure Block where
  left : Nat
  right : Nat
  size : Nat
  deriving DecidableEq, Repr, Inhabited

/-- A part of both sequences, given by its offsets. -/
structure Window where
  leftStart : Nat
  leftStop : Nat
  rightStart : Nat
  rightStop : Nat
  deriving DecidableEq, Repr, Inhabited

def longLength : Nat := 200

/-- An item that occurs too often in a long sequence to start a run. -/
def isFrequent (ys : List α) (y : α) : Bool :=
  ys.length ≥ longLength && ys.count y > ys.length / 100 + 1

/-- For each item of the first sequence the offsets in the second at which a run may hold it. -/
def seeds (xs ys : List α) : List (List Nat) :=
  xs.map fun x => if isFrequent ys x then [] else (ys.zipIdx.filter fun p => p.1 == x).map
    fun p => p.2

/-- The length of the run that ends just before the given offset, among the runs that end with the
previous item. -/
def runBefore (ends : List (Nat × Nat)) (j : Nat) : Nat :=
  match j with
  | 0 => 0
  | j + 1 => ((ends.find? fun e => e.1 == j).map fun e => e.2).getD 0

/-- Takes a longer run in place of the best one so far. -/
def betterBlock (i : Nat) (best : Block) (e : Nat × Nat) : Block :=
  if e.2 > best.size then ⟨i + 1 - e.2, e.1 + 1 - e.2, e.2⟩ else best

/-- The longest run that the rows of offsets, from item `i` on, lead to. `ends` are the runs that
end before `i`. -/
def longestRun (w : Window) (i : Nat) (ends : List (Nat × Nat)) (best : Block) :
    List (List Nat) → Block
  | [] => best
  | row :: rows =>
    let inside := row.filter fun j => w.rightStart ≤ j && j < w.rightStop
    let ends := inside.map fun j => (j, runBefore ends j + 1)
    longestRun w (i + 1) ends (ends.foldl (betterBlock i) best) rows

/-- Extends a block to the left over equal items, at most `fuel` times. -/
def extendLeft (xs ys : Array α) (w : Window) : Nat → Block → Block
  | 0, b => b
  | fuel + 1, b =>
    if b.left > w.leftStart && b.right > w.rightStart && xs[b.left - 1]? == ys[b.right - 1]? then
      extendLeft xs ys w fuel ⟨b.left - 1, b.right - 1, b.size + 1⟩
    else b

/-- Extends a block to the right over equal items, at most `fuel` times. -/
def extendRight (xs ys : Array α) (w : Window) : Nat → Block → Block
  | 0, b => b
  | fuel + 1, b =>
    if b.left + b.size < w.leftStop && b.right + b.size < w.rightStop
        && xs[b.left + b.size]? == ys[b.right + b.size]? then
      extendRight xs ys w fuel { b with size := b.size + 1 }
    else b

def longestBlock (xs ys : Array α) (rows : List (List Nat)) (w : Window) : Block :=
  let own := (rows.take w.leftStop).drop w.leftStart
  let seed := longestRun w w.leftStart [] ⟨w.leftStart, w.rightStart, 0⟩ own
  extendRight xs ys w xs.size (extendLeft xs ys w xs.size seed)

/-- The common blocks of a window, from left to right. The fuel bounds the depth of the search. -/
def blocksIn (xs ys : Array α) (rows : List (List Nat)) : Nat → Window → List Block
  | 0, _ => []
  | fuel + 1, w =>
    let b := longestBlock xs ys rows w
    if b.size = 0 then []
    else
      let before :=
        if w.leftStart < b.left && w.rightStart < b.right then
          blocksIn xs ys rows fuel { w with leftStop := b.left, rightStop := b.right }
        else []
      let after :=
        if b.left + b.size < w.leftStop && b.right + b.size < w.rightStop then
          blocksIn xs ys rows fuel { w with leftStart := b.left + b.size, rightStart :=
            b.right + b.size }
        else []
      before ++ b :: after

/-- Joins blocks that follow each other without a gap on either side. -/
def joinBlocks : List Block → List Block
  | [] => []
  | b :: rest =>
    match joinBlocks rest with
    | [] => [b]
    | c :: more =>
      if b.left + b.size = c.left ∧ b.right + b.size = c.right then
        { b with size := b.size + c.size } :: more
      else b :: c :: more

def commonBlocks (xs ys : List α) : List Block :=
  joinBlocks (blocksIn xs.toArray ys.toArray (seeds xs ys) (xs.length + 1)
    ⟨0, xs.length, 0, ys.length⟩)

end PineTools.Diff
