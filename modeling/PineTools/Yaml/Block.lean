import PineTools.Yaml.Error
import PineTools.Yaml.Place

/-! Block scalars: literal ones, which keep their lines, and folded ones, which join them. A header
tells what becomes of the breaks at the end, and may tell the indentation. -/
namespace PineTools.Yaml

/-- What becomes of the breaks at the end: none stays, one stays, or all stay. -/
inductive Chomping where
  | strip
  | clip
  | keep
  deriving DecidableEq, Repr, Inhabited

structure BlockHeader where
  chomping : Chomping
  increment : Option Nat
  deriving DecidableEq, Repr, Inhabited

def chomping? : Option Char → Option Chomping
  | some '+' => some .keep
  | some '-' => some .strip
  | _ => none

/-- The indentation that a digit tells. Zero is none. -/
def increment? (c : Option Char) : Option Nat :=
  (c.filter Text.isAsciiDigit).map fun d => d.toNat - 48

/-- Reads the signs of a header, in either order, and the rest of its line, which may hold a
comment. -/
def blockHeader (p : Place) : Except ReadError (BlockHeader × Place) :=
  let (chomping, increment, q) :=
    match chomping? p.peek, increment? p.peek with
    | some c, _ =>
      match increment? p.next.peek with
      | some n => (c, some n, p.skip 2)
      | none => (c, none, p.next)
    | none, some n =>
      match chomping? p.next.peek with
      | some c => (c, some n, p.skip 2)
      | none => (.clip, some n, p.next)
    | none, none => (.clip, none, p)
  let lineEnd := q.skipBlanks.skipComment
  if increment == some 0 || !endsWord q.peek || !endsLine lineEnd.peek then .error .malformed
  else .ok (⟨chomping, increment⟩, lineEnd.next)

/-- The breaks of the lines from here on that hold blanks only, the widest indentation among the
lines up to the first with something else, and the place there. The fuel bounds the number of lines.
-/
def leadingLines : Nat → Nat → Place → Text × Nat × Place
  | 0, widest, p => ([], widest, p)
  | fuel + 1, widest, p =>
    let q := p.skipBlanks
    let widest := max widest q.column
    match q.peek with
    | some c =>
      if isBreak c then
        let (breaks, widest, after) := leadingLines fuel widest q.next
        (breakOf c :: breaks, widest, after)
      else ([], widest, q)
    | none => ([], widest, q)

/-- Past blanks, but not beyond a column. -/
def skipIndent (column : Nat) (p : Place) : Place :=
  p.skip (min (column - p.column) (p.rest.takeWhile (· == ' ')).length)

/-- The breaks of the empty lines from here on, and the place after the indentation of the next
line. The fuel bounds the number of lines. -/
def blockBreaks (column : Nat) : Nat → Place → Text × Place
  | 0, p => ([], p)
  | fuel + 1, p =>
    let q := skipIndent column p
    match q.peek.filter isBreak with
    | some c =>
      let (breaks, after) := blockBreaks column fuel q.next
      (breakOf c :: breaks, after)
    | none => ([], q)

/-- The line at the place belongs to the scalar. -/
def isInside (column : Nat) (p : Place) : Bool := p.column == column && p.peek.isSome

def startsFlush (p : Place) : Bool := !p.peek.any Text.isBlank

/-- The breaks at the end that the header keeps: `last` is the one of the last line, if it has one.
-/
def chomped (chomping : Chomping) (last : Option Char) (breaks : Text) : Text :=
  match chomping with
  | .strip => []
  | .clip => last.toList
  | .keep => last.toList ++ breaks

/-- Reads lines at the given column. `breaks` are the empty lines before the place and `last` the
break of the line before. The fuel bounds the number of lines. -/
def blockLines (folded : Bool) (chomping : Chomping) (column : Nat) :
    Nat → Option Char → Text → Place → Text × Place
  | 0, _, _, p => ([], p)
  | fuel + 1, last, breaks, p =>
    if !isInside column p then (chomped chomping last breaks, p)
    else
      let (line, lineEnd) := p.takeWhile fun c => !isBreak c
      let lineBreak := lineEnd.peek.map breakOf
      let (gap, after) := blockBreaks column (p.rest.length + 1) lineEnd.next
      let (more, stop) := blockLines folded chomping column fuel lineBreak gap after
      let joint :=
        if !isInside column after then []
        else if folded && lineBreak == some '\n' && startsFlush p && startsFlush after then
          if gap.isEmpty then [' '] else []
        else lineBreak.toList
      (breaks ++ line ++ joint ++ more, stop)

/-- A block scalar, after the sign that opens it. `left` is the column of the enclosing block, if
there is one. -/
def blockScalar (folded : Bool) (left : Option Nat) (p : Place) :
    Except ReadError (Text × Place) := do
  let (header, q) ← blockHeader p
  let least := (left.map (· + 1)).getD 1
  let fuel := q.rest.length + 1
  match header.increment with
  | some n =>
    let column := least + n - 1
    let (breaks, start) := blockBreaks column fuel q
    return blockLines folded header.chomping column fuel none breaks start
  | none =>
    let (breaks, widest, start) := leadingLines fuel 0 q
    return blockLines folded header.chomping (max least widest) fuel none breaks start

end PineTools.Yaml
