import PineTools.Scan.Basic

/-! Patterns over sequences of glyphs. A glyph shows one character: a character shows itself, and a
cell of a script shows its masked character, so that a pattern that runs over cells never reads
comments or literals and still hands back the cells it matched.

A reader takes glyphs from the front; a pattern is a reader that also sees the glyph just before.
Looking for a pattern cuts a sequence into segments without losing a glyph. -/
namespace PineTools

/-- Anything that shows one character. -/
class Glyph (α : Type) where
  seen : α → Char

instance : Glyph Char := ⟨id⟩

instance : Glyph Cell := ⟨Cell.masked⟩

def seenText {α : Type} [Glyph α] (gs : List α) : Text := gs.map Glyph.seen

def shows {α : Type} [Glyph α] (gs : List α) (s : String) : Bool := seenText gs == s.toList

def showsOneOf {α : Type} [Glyph α] (gs : List α) (words : List String) : Bool :=
  words.any (shows gs)

/-- Takes glyphs from the front, or fails. -/
abbrev Reader (α : Type) := StateT (List α) Option

namespace Reader

variable {α : Type} [Glyph α]

/-- The longest run, possibly empty, of glyphs that satisfy the test. -/
def run (p : Char → Bool) : Reader α (List α) := fun gs =>
  some (gs.takeWhile fun g => p (Glyph.seen g), gs.dropWhile fun g => p (Glyph.seen g))

def run1 (p : Char → Bool) : Reader α (List α) := do
  let gs ← run p
  guard !gs.isEmpty
  return gs

/-- One glyph that satisfies the test. -/
def one (p : Char → Bool) : Reader α α := fun gs =>
  match gs with
  | [] => none
  | g :: rest => if p (Glyph.seen g) then some (g, rest) else none

def exactly : Text → Reader α (List α)
  | [] => return []
  | c :: cs => do
    let g ← one (· == c)
    let gs ← exactly cs
    return g :: gs

def word (w : String) : Reader α (List α) := exactly w.toList

def firstOf {β : Type} : List (Reader α β) → Reader α β
  | [] => failure
  | r :: rs => r <|> firstOf rs

def blanks : Reader α (List α) := run Text.isBlank

def blanks1 : Reader α (List α) := run1 Text.isBlank

/-- A name: a letter or underscore and word characters. -/
def name : Reader α (List α) := do
  let g ← one Text.isNameStart
  let gs ← run Text.isWord
  return g :: gs

def dottedName : Reader α (List α) := do
  let g ← one Text.isNameStart
  let gs ← run Text.isWordOrDot
  return g :: gs

/-- Repeats a reader as often as it succeeds, at most `fuel` times. -/
def upTo {β : Type} (r : Reader α β) : Nat → Reader α (List β)
  | 0 => return []
  | fuel + 1 =>
    (do
      let b ← r
      let bs ← upTo r fuel
      return b :: bs)
      <|> return []

/-- Repeats a reader that takes at least one glyph each time, as often as it succeeds. -/
def many {β : Type} (r : Reader α β) : Reader α (List β) := fun gs => upTo r gs.length gs

def ahead {β : Type} (r : Reader α β) : Reader α Unit := fun gs => (r gs).map fun _ => ((), gs)

/-- Succeeds, taking nothing, when the reader would fail here. -/
def notAhead {β : Type} (r : Reader α β) : Reader α Unit := fun gs =>
  match r gs with
  | some _ => none
  | none => some ((), gs)

/-- Succeeds, taking nothing, when no glyph follows that satisfies the test. -/
def endOf (p : Char → Bool) : Reader α Unit := notAhead (one p : Reader α α)

/-- Succeeds when no glyph is left. -/
def done : Reader α Unit := fun gs => if gs.isEmpty then some ((), gs) else none

/-- An assignment sign that is not the first half of an equality sign. -/
def assign : Reader α α := do
  let g ← one (· == '=')
  endOf (· == '=')
  return g

end Reader

/-- A reader that knows the character before its first glyph. -/
abbrev Pattern (α β : Type) := Option Char → Reader α β

namespace Pattern

variable {α β : Type} [Glyph α]

def atLineStart (r : Reader α β) : Pattern α β := fun before =>
  match before with
  | none => r
  | some c => if c = '\n' then r else failure

/-- A pattern that does not apply in the middle of a dotted name. -/
def fresh (r : Reader α β) : Pattern α β := fun before =>
  match before with
  | none => r
  | some c => if Text.isWordOrDot c then failure else r

end Pattern

/-- A piece of a sequence: a glyph between matches, or a match with its glyphs and what was read. -/
inductive Segment (α β : Type) where
  | plain (glyph : α)
  | found (glyphs : List α) (value : β)

namespace Segment

variable {α β : Type}

def glyphs : Segment α β → List α
  | plain g => [g]
  | found gs _ => gs

end Segment

namespace Pattern

variable {α β : Type} [Glyph α]

/-- Cuts a sequence into segments, after `skip` glyphs that belong to a match already reported. A
match that takes no glyph is followed by the glyph it stands before. -/
def segmentsFrom (p : Pattern α β) (before : Option Char) (skip : Nat) : List α → List (Segment α β)
  | [] =>
    match skip, p before [] with
    | 0, some (value, _) => [.found [] value]
    | _, _ => []
  | g :: gs =>
    match skip with
    | skip + 1 => segmentsFrom p (some (Glyph.seen g)) skip gs
    | 0 =>
      match p before (g :: gs) with
      | none => .plain g :: segmentsFrom p (some (Glyph.seen g)) 0 gs
      | some (value, rest) =>
        match gs.length + 1 - rest.length with
        | 0 => .found [] value :: .plain g :: segmentsFrom p (some (Glyph.seen g)) 0 gs
        | n + 1 => .found (g :: gs.take n) value :: segmentsFrom p (some (Glyph.seen g)) n gs

/-- Cuts a sequence into segments, from left to right. -/
def segments (p : Pattern α β) (gs : List α) : List (Segment α β) := segmentsFrom p none 0 gs

end Pattern

structure Match (α β : Type) where
  start : Nat
  glyphs : List α
  value : β

namespace Match

variable {α β : Type}

def stop (m : Match α β) : Nat := m.start + m.glyphs.length

end Match

/-- The matches among segments that start at the given offset. -/
def matchesFrom {α β : Type} (offset : Nat) : List (Segment α β) → List (Match α β)
  | [] => []
  | .plain _ :: rest => matchesFrom (offset + 1) rest
  | .found gs value :: rest => ⟨offset, gs, value⟩ :: matchesFrom (offset + gs.length) rest

namespace Pattern

variable {α β : Type} [Glyph α]

/-- All matches, from left to right, without overlap. -/
def findAll (p : Pattern α β) (gs : List α) : List (Match α β) := matchesFrom 0 (p.segments gs)

def find? (p : Pattern α β) (gs : List α) : Option (Match α β) := (p.findAll gs).head?

def occursIn (p : Pattern α β) (gs : List α) : Bool := (p.find? gs).isSome

/-- What the pattern reads at the very start of a sequence. -/
def readAt? (p : Pattern α β) (gs : List α) : Option β := (p none gs).map Prod.fst

end Pattern

/-- Writes segments out again, with at most `limit` of the matches replaced (all of them without a
limit). The second component counts the replacements. -/
def rebuild {α β : Type} (written : α → Char) (replacement : List α → β → Text) :
    Option Nat → List (Segment α β) → Text × Nat
  | _, [] => ([], 0)
  | limit, .plain g :: rest =>
    let (t, n) := rebuild written replacement limit rest
    (written g :: t, n)
  | limit, .found gs value :: rest =>
    match limit with
    | some 0 =>
      let (t, n) := rebuild written replacement limit rest
      (gs.map written ++ t, n)
    | _ =>
      let (t, n) := rebuild written replacement (limit.map (· - 1)) rest
      (replacement gs value ++ t, n + 1)

/-- Replaces the matches of a pattern in the code of a script. Comments, literals and everything
else between matches stay as they are. -/
def substitute {β : Type} (p : Pattern Cell β) (replacement : List Cell → β → Text) (t : Text) :
    Text × Nat :=
  rebuild Cell.char replacement none (p.segments (cells t))

def writtenText (gs : List Cell) : Text := gs.map Cell.char

def maskedText (gs : List Cell) : Text := gs.map Cell.masked

end PineTools
